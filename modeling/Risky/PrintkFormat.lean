import Risky.PrintkPrintf

/-!
# Format strings

A format string is read from left to right, as ordinary characters and conversions
(`Format`), and every string is the text of such a format (`exists_format`). A
conversion is a percent sign, digits (a flag `0` and a width), a length modifier
and a character, which may be any: one that is not the letter of a conversion is
printed behind a percent sign. A string may end in the middle of a conversion, and
there its terminator takes the place of that character.

The cursor of `vprintk_internal` therefore stays within the string exactly if no
flag, width or length modifier is left unfinished at its end (`staysInside_iff`).
-/

namespace Printk

open CPrintf

/-- **The character that ends a flag, a width and a length modifier** is one that
does not go on with them. -/
def Ends : Modifier → UInt8 → Prop
  | .none, c => ¬ (ascii '0' ≤ c ∧ c ≤ ascii '9') ∧ c ∉ asciiBytes "hlzt"
  | .hh, _ => True
  | .h, c => c ≠ ascii 'h'
  | .l, c => c ≠ ascii 'l'
  | .ll, _ => True
  | .z, _ => True
  | .t, _ => True

instance (m : Modifier) (c : UInt8) : Decidable (Ends m c) := by
  cases m <;> unfold Ends <;> infer_instance

/-- **A format string**. -/
inductive Format where
  /-- The end of the string. -/
  | done
  /-- A percent sign that ends the string. -/
  | percent
  /-- A flag, a width or a length modifier that ends the string. -/
  | unfinished (digits : List (Fin 10)) (m : Modifier) (h : digits ≠ [] ∨ m ≠ .none)
  /-- A character that is printed as it is. -/
  | ordinary (c : UInt8) (hpercent : c ≠ ascii '%') (hnul : c ≠ 0) (rest : Format)
  /-- A conversion. -/
  | conversion (digits : List (Fin 10)) (m : Modifier) (c : UInt8) (hends : Ends m c)
      (hnul : c ≠ 0) (rest : Format)

/-- The number of arguments that a conversion takes. -/
def arity (c : UInt8) : ℕ := if c ∈ asciiBytes "csdiuxXp" then 1 else 0

/-- **The arguments that a conversion needs**. -/
def Needs (m : Modifier) (c : UInt8) (own : List Arg) : Prop :=
  if c = ascii 'c' then ∃ v, own = [Arg.int v]
  else if c = ascii 's' then ∃ addr mem, (addr = 0 ∨ 0 ∈ mem) ∧ own = [Arg.ptr addr mem]
  else if c ∈ asciiBytes "diuxX" then ∃ v, own = [argOf m v]
  else if c = ascii 'p' then ∃ addr mem, own = [Arg.ptr addr mem]
  else own = []

/-- Is an argument the character NUL? -/
def isNul : Arg → Bool
  | .int v => v.setWidth 8 = 0
  | .long _ => false
  | .ptr _ _ => false

namespace Format

/-- The text of a format. -/
def spell : Format → List UInt8
  | done => []
  | percent => [ascii '%']
  | unfinished digits m _ => ascii '%' :: (digits.map digitCode ++ m.spell)
  | ordinary c _ _ rest => c :: rest.spell
  | conversion digits m c _ _ rest =>
    ascii '%' :: (digits.map digitCode ++ (m.spell ++ c :: rest.spell))

/-- **The string ends in the middle of a conversion**, after its flag, its width or
its length modifier. -/
def Unfinished : Format → Prop
  | done => False
  | percent => False
  | unfinished _ _ _ => True
  | ordinary _ _ _ rest => rest.Unfinished
  | conversion _ _ _ _ _ rest => rest.Unfinished

/-- **The arguments supply what the complete conversions need.** -/
def Supplied : Format → List Arg → Prop
  | done, _ => True
  | percent, _ => True
  | unfinished _ _ _, _ => True
  | ordinary _ _ _ rest, args => rest.Supplied args
  | conversion _ m c _ _ rest, args =>
    Needs m c (args.take (arity c)) ∧ rest.Supplied (args.drop (arity c))

/-- The number of `%c` whose argument is the character NUL. -/
def nuls : Format → List Arg → ℕ
  | done, _ => 0
  | percent, _ => 0
  | unfinished _ _ _, _ => 0
  | ordinary _ _ _ rest, args => rest.nuls args
  | conversion _ _ c _ _ rest, args =>
    (if c = ascii 'c' then (args.take (arity c)).countP isNul else 0)
      + rest.nuls (args.drop (arity c))

end Format

/-! ## Every string is the text of a format -/

variable {c : UInt8} {m : Modifier} {fmt rest s : List UInt8} {args own : List Arg}

theorem exists_digitCode (hc : ascii '0' ≤ c ∧ c ≤ ascii '9') : ∃ d, digitCode d = c := by
  have hcode : ∀ d : Fin 10, (digitCode d).toNat = 48 + d.val := by decide
  have hlow : 48 ≤ c.toNat := hc.1
  have hhigh : c.toNat ≤ 57 := hc.2
  refine ⟨⟨c.toNat - 48, by omega⟩, UInt8.toNat_inj.mp ?_⟩
  rw [hcode]
  exact Nat.add_sub_cancel' hlow

/-- The digits that a string begins with. -/
theorem exists_digits (s : List UInt8) :
    ∃ (digits : List (Fin 10)) (t : List UInt8), s = digits.map digitCode ++ t
      ∧ ∀ c u, t = c :: u → ¬ (ascii '0' ≤ c ∧ c ≤ ascii '9') := by
  induction s with
  | nil => exact ⟨[], [], rfl, fun c u h => absurd h (by simp)⟩
  | cons c s ih =>
    by_cases hc : ascii '0' ≤ c ∧ c ≤ ascii '9'
    · obtain ⟨digits, t, rfl, ht⟩ := ih
      obtain ⟨d, rfl⟩ := exists_digitCode hc
      exact ⟨d :: digits, t, rfl, ht⟩
    · refine ⟨[], c :: s, rfl, fun d u h => ?_⟩
      rw [← (List.cons.inj h).1]
      exact hc

/-- The length modifier that a string begins with. -/
theorem exists_modifier (s : List UInt8)
    (hs : ∀ c u, s = c :: u → ¬ (ascii '0' ≤ c ∧ c ≤ ascii '9')) :
    ∃ (m : Modifier) (t : List UInt8), s = m.spell ++ t ∧ ∀ c u, t = c :: u → Ends m c := by
  have hdoubled : ∀ (letter : UInt8) (s : List UInt8),
      (∃ t, s = letter :: t) ∨ ∀ c u, s = c :: u → c ≠ letter := by
    intro letter s
    by_cases h : ∃ t, s = letter :: t
    · exact Or.inl h
    · exact Or.inr (fun c u hs hc => h ⟨u, hc ▸ hs⟩)
  rcases hdoubled (ascii 'h') s with ⟨t, rfl⟩ | hh
  · rcases hdoubled (ascii 'h') t with ⟨u, rfl⟩ | ht
    · exact ⟨.hh, u, rfl, fun _ _ _ => trivial⟩
    · exact ⟨.h, t, rfl, ht⟩
  rcases hdoubled (ascii 'l') s with ⟨t, rfl⟩ | hl
  · rcases hdoubled (ascii 'l') t with ⟨u, rfl⟩ | ht
    · exact ⟨.ll, u, rfl, fun _ _ _ => trivial⟩
    · exact ⟨.l, t, rfl, ht⟩
  rcases hdoubled (ascii 'z') s with ⟨t, rfl⟩ | hz
  · exact ⟨.z, t, rfl, fun _ _ _ => trivial⟩
  rcases hdoubled (ascii 't') s with ⟨t, rfl⟩ | ht
  · exact ⟨.t, t, rfl, fun _ _ _ => trivial⟩
  refine ⟨.none, s, rfl, fun c u h => ⟨hs c u h, fun hmem => ?_⟩⟩
  have hletter : ∀ c ∈ asciiBytes "hlzt",
      c = ascii 'h' ∨ c = ascii 'l' ∨ c = ascii 'z' ∨ c = ascii 't' := by simp [asciiBytes]
  rcases hletter c hmem with hc | hc | hc | hc
  · exact hh c u h hc
  · exact hl c u h hc
  · exact hz c u h hc
  · exact ht c u h hc

/-- **Every string is the text of a format.** -/
theorem exists_format (hs : 0 ∉ s) : ∃ F : Format, F.spell = s := by
  induction hlen : s.length using Nat.strong_induction_on generalizing s with
  | _ n ih =>
    subst hlen
    cases s with
    | nil => exact ⟨.done, rfl⟩
    | cons c s =>
      have hnul : ¬ 0 = c ∧ 0 ∉ s := by rwa [List.mem_cons, not_or] at hs
      by_cases hc : c = ascii '%'
      · subst hc
        obtain ⟨digits, t, rfl, ht⟩ := exists_digits s
        obtain ⟨m, u, rfl, hu⟩ := exists_modifier t ht
        cases u with
        | cons c rest =>
          simp only [List.mem_append, List.mem_cons, not_or] at hnul
          obtain ⟨F, rfl⟩ := ih rest.length (by simp; omega) hnul.2.2.2.2 rfl
          exact ⟨.conversion digits m c (hu c _ rfl) (Ne.symm hnul.2.2.2.1) F, rfl⟩
        | nil =>
          by_cases h : digits ≠ [] ∨ m ≠ .none
          · exact ⟨.unfinished digits m h, by rw [Format.spell, List.append_nil]⟩
          · obtain ⟨rfl, rfl⟩ := by simpa only [not_or, not_not] using h
            exact ⟨.percent, rfl⟩
      · obtain ⟨F, rfl⟩ := ih s.length (Nat.lt_succ_self _) hnul.2 rfl
        exact ⟨.ordinary c hc (Ne.symm hnul.1) F, rfl⟩

/-! ## Reading a conversion -/

/-- Digits are read as a width, which may wrap around. -/
theorem exists_widthLoop (digits : List (Fin 10)) (hc : ¬ (ascii '0' ≤ c ∧ c ≤ ascii '9'))
    (fmt : List UInt8) (width : BitVec 32) :
    ∃ width', widthLoop width (digits.map digitCode ++ c :: fmt)
      = Outcome.ok (width', c :: fmt) := by
  induction digits generalizing width with
  | nil => exact ⟨width, if_neg hc⟩
  | cons d digits ih =>
    have hdigit : ∀ d : Fin 10, ascii '0' ≤ digitCode d ∧ digitCode d ≤ ascii '9' := by decide
    obtain ⟨width', h⟩ := ih (width * 10 + BitVec.ofNat 32 (digitCode d - ascii '0').toNat)
    exact ⟨width', (if_pos (hdigit d)).trans h⟩

/-- Digits are read as a flag and a width. -/
theorem exists_digits_spec (digits : List (Fin 10)) (hc : ¬ (ascii '0' ≤ c ∧ c ≤ ascii '9'))
    (fmt : List UInt8) :
    ∃ pad fmt' width, zeroFlag (digits.map digitCode ++ c :: fmt) = Outcome.ok (pad, fmt')
      ∧ widthLoop 0 fmt' = Outcome.ok (width, c :: fmt) ∧ pad ≠ 0 := by
  have hzero : ∀ d : Fin 10, digitCode d = ascii '0' ∨ digitCode d ≠ ascii '0' := by decide
  cases digits with
  | nil =>
    obtain ⟨width, h⟩ := exists_widthLoop [] hc fmt 0
    have hne : c ≠ ascii '0' := fun h => hc (by rw [h]; decide)
    exact ⟨ascii ' ', c :: fmt, width, if_neg hne, h, by decide⟩
  | cons d digits =>
    rcases hzero d with hd | hd
    · obtain ⟨width, h⟩ := exists_widthLoop digits hc fmt 0
      exact ⟨ascii '0', digits.map digitCode ++ c :: fmt, width, if_pos hd, h, by decide⟩
    · obtain ⟨width, h⟩ := exists_widthLoop (d :: digits) hc fmt 0
      exact ⟨ascii ' ', _, width, if_neg hd, h, by decide⟩

theorem lengthModifier_of_ends (hc : Ends m c) (fmt : List UInt8) :
    lengthModifier (m.spell ++ c :: fmt) = Outcome.ok (lengthOf m, c :: fmt) := by
  cases m with
  | none =>
    have hne : ∀ d ∈ asciiBytes "hlzt", c ≠ d := fun d hd h => hc.2 (h ▸ hd)
    exact (if_neg (hne _ (by decide))).trans ((if_neg (hne _ (by decide))).trans
      ((if_neg (hne _ (by decide))).trans (if_neg (hne _ (by decide)))))
  | hh => rfl
  | h => exact if_neg hc
  | l => exact if_neg hc
  | ll => rfl
  | z => rfl
  | t => rfl

/-- **A specification is read up to the character that ends it.** -/
theorem exists_parseSpec (digits : List (Fin 10)) (hc : Ends m c) (fmt : List UInt8) :
    ∃ spec : Spec, parseSpec (digits.map digitCode ++ (m.spell ++ c :: fmt))
        = Outcome.ok (spec, c :: fmt) ∧ spec.length = lengthOf m ∧ spec.pad ≠ 0 := by
  have hlength := lengthModifier_of_ends hc fmt
  have hdigit : m = .none → ¬ (ascii '0' ≤ c ∧ c ≤ ascii '9') := by
    rintro rfl
    exact hc.1
  obtain ⟨c', fmt', heq, hc'⟩ : ∃ c' fmt', m.spell ++ c :: fmt = c' :: fmt'
      ∧ ¬ (ascii '0' ≤ c' ∧ c' ≤ ascii '9') :=
    m.exists_cons_of_spell hdigit (by decide) (by decide) (by decide) (by decide) fmt
  rw [heq] at hlength ⊢
  obtain ⟨pad, fmt₁, width, hflag, hwidth, hpad⟩ := exists_digits_spec digits hc' fmt'
  refine ⟨⟨pad, width, lengthOf m⟩, ?_, rfl, hpad⟩
  rw [parseSpec, hflag, Outcome.ok_bind]
  show (widthLoop 0 fmt₁ >>= _) = _
  rw [hwidth, Outcome.ok_bind]
  show (lengthModifier _ >>= _) = _
  rw [hlength]
  rfl

/-! ## What a conversion emits -/

theorem count_padded {width : BitVec 32} {pad : UInt8} (hpad : pad ≠ 0) (cs : List UInt8) :
    (State.padded width pad cs).count 0 = cs.count 0 := by
  rw [State.padded, List.count_append, List.count_replicate, if_neg (by simpa using hpad),
    Nat.zero_add]

theorem count_numeral {base : ℕ} (hbase : 1 < base) (hbase' : base ≤ 16) (uppercase : Bool)
    (n : ℕ) : (numeral base uppercase n).count 0 = 0 :=
  List.count_eq_zero.mpr (fun h => (numeral_ne hbase hbase' h).1 rfl)

theorem count_signed {spec : Spec} (hpad : spec.pad ≠ 0) (value : BitVec 64) :
    (signed spec value).count 0 = 0 := by
  have hdash : (ascii '-' == (0 : UInt8)) = false := by decide
  rw [signed]
  split
  · rw [List.count_cons, hdash, count_padded hpad, count_numeral (by omega) (by omega)]
    rfl
  · rw [count_padded hpad, count_numeral (by omega) (by omega)]

/-- **A conversion that has its arguments emits no NUL** that is not its argument. -/
theorem exists_convert {spec : Spec} (hlength : spec.length = lengthOf m) (hpad : spec.pad ≠ 0)
    (hnul : c ≠ 0) (hown : Needs m c own) :
    ∃ cs, (∀ args state, convert spec c (own ++ args) state = Outcome.ok (args, state.emits cs))
      ∧ cs.count 0 = if c = ascii 'c' then own.countP isNul else 0 := by
  have hunsigned : ∀ (v : BitVec m.argBits) (base : ℕ) (uppercase : Bool), 1 < base → base ≤ 16 →
      ∃ cs, (∀ args state, convertUnsigned spec base uppercase ([argOf m v] ++ args) state
        = Outcome.ok (args, state.emits cs)) ∧ cs.count 0 = 0 := by
    intro v base uppercase hbase hbase'
    refine ⟨_, fun args state => convertUnsigned_emits hbase hbase' uppercase
      (by rw [hlength]; exact getUnsignedArg_argOf m v args) state, ?_⟩
    rw [count_padded hpad, count_numeral hbase hbase']
  unfold Needs at hown
  split_ifs at hown with hc hs hint hp
  · -- `%c` emits its argument, which may be NUL
    obtain ⟨v, rfl⟩ := hown
    subst hc
    refine ⟨_, convert_char spec v, ?_⟩
    rw [if_pos rfl, List.count_singleton, List.countP_singleton]
    have hiff : UInt8.ofBitVec (v.setWidth 8) = 0 ↔ v.setWidth 8 = 0 :=
      ⟨fun h => congrArg UInt8.toBitVec h, fun h => congrArg UInt8.ofBitVec h⟩
    simp [isNul, hiff]
  · obtain ⟨addr, mem, hmem, rfl⟩ := hown
    subst hs
    have hnul : 0 ∈ if addr = 0 then asciiBytes "(null)" ++ [0] else mem := by
      split
      · decide
      · next haddr => exact hmem.resolve_left haddr
    obtain ⟨t, ht⟩ := CString.exists_prefix hnul
    refine ⟨_, convert_string spec ht, ?_⟩
    rw [count_padded hpad, if_neg hc]
    exact List.count_eq_zero.mpr t.nul_notMem
  · obtain ⟨v, rfl⟩ := hown
    rw [if_neg hc]
    have hletter : ∀ c ∈ asciiBytes "diuxX", c = ascii 'd' ∨ c = ascii 'i' ∨ c = ascii 'u'
        ∨ c = ascii 'x' ∨ c = ascii 'X' := by simp [asciiBytes]
    have hsigned : ∀ args state, convertSigned spec ([argOf m v] ++ args) state = _ :=
      fun args state => convertSigned_emits
        (by rw [hlength]; exact getSignedArg_argOf m v args) state
    rcases hletter c hint with rfl | rfl | rfl | rfl | rfl
    · exact ⟨_, hsigned, count_signed hpad _⟩
    · exact ⟨_, hsigned, count_signed hpad _⟩
    · exact hunsigned v 10 false (by omega) (by omega)
    · exact hunsigned v 16 false (by omega) (by omega)
    · exact hunsigned v 16 true (by omega) (by omega)
  · obtain ⟨addr, mem, rfl⟩ := hown
    subst hp
    refine ⟨_, convert_pointer spec addr mem, ?_⟩
    rw [if_neg hc, List.count_append, count_padded (by decide),
      count_numeral (by omega) (by omega)]
    rfl
  · subst hown
    rw [if_neg hc]
    by_cases hpercent : c = ascii '%'
    · subst hpercent
      exact ⟨_, convert_percent spec, rfl⟩
    · -- the default case emits `%` and the character
      have hother : c ∉ asciiBytes "%csdiuxXp" := by
        intro h
        have hletter : ∀ c ∈ asciiBytes "%csdiuxXp", c = ascii '%' ∨ c = ascii 'c'
            ∨ c = ascii 's' ∨ c ∈ asciiBytes "diuxX" ∨ c = ascii 'p' := by simp [asciiBytes]
        rcases hletter c h with h | h | h | h | h
        · exact hpercent h
        · exact hc h
        · exact hs h
        · exact hint h
        · exact hp h
      refine ⟨_, convert_other spec hother, ?_⟩
      rw [List.count_cons_of_ne (by decide), List.count_singleton, if_neg (by simpa using hnul)]

/-! ## The run -/

/-- No flag, width or length modifier begins with NUL. -/
theorem head_spec_ne (digits : List (Fin 10)) (m : Modifier)
    (hc : c ≠ 0 ∨ digits ≠ [] ∨ m ≠ .none) (fmt : List UInt8) :
    (digits.map digitCode ++ (m.spell ++ c :: fmt)).head? ≠ some 0 := by
  have hdigit : ∀ d : Fin 10, digitCode d ≠ 0 := by decide
  cases digits with
  | cons d digits => exact fun h => hdigit d (Option.some.inj h)
  | nil =>
    obtain ⟨c', fmt', heq, hc'⟩ : ∃ c' fmt', m.spell ++ c :: fmt = c' :: fmt' ∧ c' ≠ 0 :=
      m.exists_cons_of_spell (P := (· ≠ 0)) (fun hm => hc.resolve_right (by simp [hm]))
        (by decide) (by decide) (by decide) (by decide) fmt
    rw [List.map_nil, List.nil_append, heq]
    exact fun h => hc' (Option.some.inj h)

/-- **A run over a format** faults at the end of the string if the format is
unfinished, and otherwise emits no NUL that is not an argument. -/
theorem run_format (F : Format) (hargs : F.Supplied args) :
    (F.Unfinished → ∀ state, loop.run ⟨F.spell ++ [0], args, state⟩ = Outcome.fault)
      ∧ (¬ F.Unfinished → ∃ cs, cs.count 0 = F.nuls args
        ∧ ∀ state, loop.run ⟨F.spell ++ [0], args, state⟩ = Outcome.ok (state.emits cs)) := by
  induction F generalizing args with
  | done =>
    exact ⟨False.elim, fun _ => ⟨[], rfl, fun state => Loop.run_of_result rfl rfl⟩⟩
  | percent =>
    exact ⟨False.elim, fun _ => ⟨[], rfl, fun state => Loop.run_of_result rfl rfl⟩⟩
  | unfinished digits m h =>
    refine ⟨fun _ state => ?_, fun h => absurd trivial h⟩
    have hends : Ends m 0 := by cases m <;> decide
    obtain ⟨spec, hspec, -, -⟩ := exists_parseSpec digits hends []
    rw [Format.spell, List.cons_append, List.append_assoc,
      Loop.run_of_next rfl (turn_of_parseSpec (head_spec_ne digits m (Or.inr h) []) hspec
        (convert_other spec (by decide) args state))]
    -- the terminator was emitted, and the cursor is behind it
    exact Loop.run_of_fault rfl rfl
  | ordinary c hpercent hnul F ih =>
    have hnext : ∀ state, loop.run ⟨c :: (F.spell ++ [0]), args, state⟩
        = loop.run ⟨F.spell ++ [0], args, state.emits [c]⟩ := by
      refine fun state => Loop.run_of_next rfl ((if_neg hnul).trans ((if_pos hpercent).trans ?_))
      rw [State.emitChar_eq_emit]
      rfl
    obtain ⟨hfault, hok⟩ := ih hargs
    refine ⟨fun h state => (hnext state).trans (hfault h _), fun h => ?_⟩
    obtain ⟨cs, hcount, hrun⟩ := hok h
    refine ⟨c :: cs, ?_, fun state => ?_⟩
    · rw [List.count_cons_of_ne hnul, hcount]
      rfl
    · exact (hnext state).trans (hrun _)
  | conversion digits m c hends hnul F ih =>
    obtain ⟨hneeds, hrest⟩ := hargs
    obtain ⟨spec, hspec, hlength, hpad⟩ := exists_parseSpec digits hends (F.spell ++ [0])
    obtain ⟨ds, hconv, hds⟩ := exists_convert hlength hpad hnul hneeds
    have hhead := head_spec_ne digits m (Or.inl hnul) (F.spell ++ [0])
    have hnext : ∀ state, loop.run ⟨(Format.conversion digits m c hends hnul F).spell ++ [0], args,
        state⟩ = loop.run ⟨F.spell ++ [0], args.drop (arity c), state.emits ds⟩ := by
      intro state
      have hown := hconv (args.drop (arity c)) state
      rw [List.take_append_drop] at hown
      rw [Format.spell, List.cons_append, List.append_assoc, List.append_assoc]
      exact Loop.run_of_next rfl (turn_of_parseSpec hhead hspec hown)
    obtain ⟨hfault, hok⟩ := ih hrest
    refine ⟨fun h state => (hnext state).trans (hfault h _), fun h => ?_⟩
    obtain ⟨cs, hcount, hrun⟩ := hok h
    refine ⟨ds ++ cs, ?_, fun state => ?_⟩
    · rw [List.count_append, hds, hcount]
      rfl
    · rw [hnext, hrun, ← State.emits_append]

/-! ## Staying inside -/

/-- **The cursor stays within the string**: the loop ends although nothing behind the
terminator can be read, and as many NULs are written as are arguments. -/
def StaysInside (prefixEnabled : Bool) (s : CString) (args : List Arg) (clock : ℕ → BitVec 64)
    (nuls : ℕ) : Prop :=
  ∃ state, vprintkInternal prefixEnabled s.bytes args clock = Outcome.ok state
    ∧ state.out.count 0 = nuls

/-- **The cursor stays within the string exactly if the string is not unfinished**,
whatever arguments supply what the complete conversions need. -/
theorem staysInside_iff (s : CString) :
    (∃ F : Format, F.spell = s.chars)
      ∧ ∀ F : Format, F.spell = s.chars → ∀ prefixEnabled args clock, F.Supplied args →
        (StaysInside prefixEnabled s args clock (F.nuls args) ↔ ¬ F.Unfinished) := by
  refine ⟨exists_format s.nul_notMem, fun F hF prefixEnabled args clock hargs => ?_⟩
  obtain ⟨hfault, hok⟩ := run_format F hargs
  have hrun : vprintkInternal prefixEnabled s.bytes args clock
      = loop.run ⟨F.spell ++ [0], args, ⟨prefixEnabled, true, 0, [], clock⟩⟩ := by
    rw [hF]
    rfl
  constructor
  · rintro ⟨state, hstate, -⟩ h
    rw [hrun, hfault h] at hstate
    cases hstate
  · intro h
    obtain ⟨cs, hcount, hstate⟩ := hok h
    refine ⟨_, hrun.trans (hstate _), ?_⟩
    rw [State.count_out_emits, hcount, List.count_nil, Nat.zero_add]

/-- The string `"%5"`. -/
def percent5 : CString := ⟨asciiBytes "%5", by decide⟩

theorem five_lt_ten : 5 < 10 := by decide

theorem five_ne_nil : [Fin.mk 5 five_lt_ten] ≠ [] ∨ Modifier.none ≠ .none :=
  Or.inl (List.cons_ne_nil _ _)

/-- A width that nothing follows. -/
def percent5Format : Format := .unfinished [Fin.mk 5 five_lt_ten] .none five_ne_nil

theorem staysInside_iff_percent5 :
    StaysInside false percent5 [] (fun _ => 0) (percent5Format.nuls [])
      ↔ ¬ percent5Format.Unfinished :=
  (staysInside_iff percent5).2 percent5Format rfl false [] (fun _ => 0) trivial

/-- **The terminator is taken for a conversion character.** -/
theorem not_staysInside_percent5 :
    percent5Format.spell = percent5.chars ∧ percent5Format.Supplied []
      ∧ ¬ StaysInside false percent5 [] (fun _ => 0) (percent5Format.nuls []) := by
  refine ⟨rfl, trivial, ?_⟩
  have hfault : State.out <$> vprintkInternal false percent5.bytes [] (fun _ => 0)
      = Outcome.fault := by decide +kernel
  rintro ⟨state, hstate, -⟩
  rw [hstate] at hfault
  cases hfault

end Printk
