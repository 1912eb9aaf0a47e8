import Risky.PrintkEmit

/-!
# `kprintf` and C's `printf`

Without the log prefix `vprintk_internal` prints one character after the other
(`State.put`), and a turn of its loop prints a directive of the format
(`turn_spell`). What it prints for a directive (`emitted`) is what C's `printf`
does, but for two cases. The minus sign of a negative number stands before the
padding and does not count towards the width; and `%c` has no padding at all.

The two outputs are therefore equal exactly where every directive fits
(`printsOutput_iff`): a padded negative number puts a character where C has
another, and a blank that `%c` leaves out is never made up for.
-/

namespace Printk

open CPrintf

/-! ## Without the prefix -/

namespace State

variable {s : State}

/-- A character is printed. -/
def put (s : State) (c : UInt8) : State :=
  { s.emitRawChar c with atLineStart := decide (c = ascii '\n') }

/-- Characters are printed. -/
def puts (s : State) (cs : List UInt8) : State := cs.foldl put s

theorem puts_cons (s : State) (c : UInt8) (cs : List UInt8) : s.puts (c :: cs) = (s.put c).puts cs :=
  rfl

theorem prefixEnabled_put (s : State) (c : UInt8) : (s.put c).prefixEnabled = s.prefixEnabled := by
  unfold put emitRawChar
  split <;> rfl

theorem out_put (s : State) (c : UInt8) : (s.put c).out = s.out ++ expand [c] := by
  unfold put emitRawChar
  rw [expand, List.flatMap_singleton]
  split <;> split <;> first | rfl | contradiction

/-- **What is printed is expanded.** -/
theorem out_puts (s : State) (cs : List UInt8) : (s.puts cs).out = s.out ++ expand cs := by
  induction cs generalizing s with
  | nil => exact (List.append_nil _).symm
  | cons c cs ih =>
    rw [puts_cons, ih, out_put, List.append_assoc, ← expand_append]
    rfl

/-- Without the prefix nothing else is emitted. -/
theorem emits_eq_puts (hs : s.prefixEnabled = false) (cs : List UInt8) : s.emits cs = s.puts cs := by
  induction cs generalizing s with
  | nil => rfl
  | cons c cs ih =>
    have hstamped : s.stamped = s := by
      unfold stamped
      rw [hs]
      rfl
    have hemit : s.emit c = s.put c := by
      rw [emit, hstamped, put]
    rw [emits_cons, puts_cons, hemit, ih (by rw [prefixEnabled_put, hs])]

end State

/-! ## Specifications -/

/-- The value of `length` for a modifier. -/
def lengthOf : Modifier → Length
  | .none => Length.default
  | .hh => Length.char
  | .h => Length.short
  | .l => Length.long
  | .ll => Length.llong
  | .z => Length.size
  | .t => Length.ptrdiff

/-- The value of `pad` for a flag. -/
def padOf (f : Field) : UInt8 := if f.zero then ascii '0' else ascii ' '

/-- The specification that is read. -/
def specOf (f : Field) (m : Modifier) : Spec := ⟨padOf f, BitVec.ofNat 32 f.width, lengthOf m⟩

/-- A character that ends the width. -/
def EndsWidth (c : UInt8) : Prop := c ≠ 0 ∧ ¬ (ascii '0' ≤ c ∧ c ≤ ascii '9')

/-- A conversion character. -/
def IsLetter (c : UInt8) : Prop := c ∈ asciiBytes "csdiuxX"

instance (c : UInt8) : Decidable (EndsWidth c) := inferInstanceAs (Decidable (_ ∧ _))

instance (c : UInt8) : Decidable (IsLetter c) := inferInstanceAs (Decidable (c ∈ _))

variable {c : UInt8} {f : Field} {m : Modifier} {fmt rest : List UInt8} {args own : List Arg}
  {state : State} {d : Directive} {ds : List Directive}

theorem IsLetter.endsWidth (h : IsLetter c) : EndsWidth c :=
  (by decide +kernel : ∀ c ∈ asciiBytes "csdiuxX", EndsWidth c) c h

theorem widthLoop_digits (digits : List (Fin 10)) (v : ℕ) (hv : decimalValue v digits < 2 ^ 31)
    (hc : EndsWidth c) :
    widthLoop (BitVec.ofNat 32 v)
        (digits.map digitCode ++ c :: fmt)
      = Outcome.ok (BitVec.ofNat 32 (decimalValue v digits), c :: fmt) := by
  induction digits generalizing v with
  | nil =>
    rw [List.map_nil, List.nil_append, widthLoop, if_neg hc.2]
    rfl
  | cons d digits ih =>
    have hdigit : ∀ d : Fin 10, (ascii '0' ≤ digitCode d ∧ digitCode d ≤ ascii '9')
        ∧ (digitCode d - ascii '0').toNat = d := by decide
    have hstep : BitVec.ofNat 32 v * 10 + BitVec.ofNat 32 d.val = BitVec.ofNat 32 (10 * v + d) := by
      rw [BitVec.ofNat_add, BitVec.ofNat_mul, BitVec.mul_comm]
      rfl
    rw [List.map_cons, List.cons_append, widthLoop, if_pos (hdigit d).1, (hdigit d).2, hstep,
      ih _ hv]
    rfl

theorem zeroFlag_spell (f : Field) (hc : EndsWidth c) :
    zeroFlag (f.spell ++ c :: fmt)
      = Outcome.ok (padOf f, f.digits.map digitCode ++ c :: fmt) := by
  cases hf : f.zero with
  | true =>
    unfold Field.spell padOf
    rw [hf]
    rfl
  | false =>
    have hflag := f.flag hf
    unfold Field.spell padOf
    rw [hf]
    cases hdigits : f.digits with
    | nil =>
      have hne : c ≠ ascii '0' := fun h => hc.2 (by rw [h]; decide)
      exact if_neg hne
    | cons d digits =>
      have hd : d ≠ 0 := fun h => hflag (by rw [hdigits, h]; rfl)
      have hne : ∀ d : Fin 10, d ≠ 0 → digitCode d ≠ ascii '0' := by decide
      exact if_neg (hne d hd)

theorem lengthModifier_spell (m : Modifier) (hc : IsLetter c) (fmt : List UInt8) :
    lengthModifier (m.spell ++ c :: fmt) = Outcome.ok (lengthOf m, c :: fmt) := by
  obtain ⟨hh, hl, hz, ht⟩ := (by decide +kernel : ∀ c ∈ asciiBytes "csdiuxX",
    c ≠ ascii 'h' ∧ c ≠ ascii 'l' ∧ c ≠ ascii 'z' ∧ c ≠ ascii 't') c hc
  cases m with
  | none => exact (if_neg hh).trans ((if_neg hl).trans ((if_neg hz).trans (if_neg ht)))
  | hh => rfl
  | h => exact if_neg hh
  | l => exact if_neg hl
  | ll => rfl
  | z => rfl
  | t => rfl

/-- What follows the width ends it. -/
theorem exists_endsWidth (m : Modifier) (hc : IsLetter c) (fmt : List UInt8) :
    ∃ c' fmt', m.spell ++ c :: fmt = c' :: fmt' ∧ EndsWidth c' :=
  m.exists_cons_of_spell (fun _ => hc.endsWidth) (by decide) (by decide) (by decide) (by decide) fmt

/-- **A specification is read as it is written.** -/
theorem parseSpec_spell (f : Field) (m : Modifier) (hc : IsLetter c) :
    parseSpec (f.spell ++ (m.spell ++ c :: fmt)) = Outcome.ok (specOf f m, c :: fmt) := by
  have hlength := lengthModifier_spell m hc fmt
  obtain ⟨c', fmt', heq, hc'⟩ := exists_endsWidth m hc fmt
  rw [heq] at hlength ⊢
  rw [parseSpec, zeroFlag_spell f hc', Outcome.ok_bind]
  show (widthLoop (BitVec.ofNat 32 0) _ >>= _) = _
  rw [widthLoop_digits f.digits 0 f.width_lt hc', Outcome.ok_bind]
  show (lengthModifier _ >>= _) = _
  rw [hlength]
  rfl

/-- A conversion does not begin with NUL. -/
theorem head_spell_ne (f : Field) (m : Modifier) (hc : IsLetter c) (fmt : List UInt8) :
    (f.spell ++ (m.spell ++ c :: fmt)).head? ≠ some 0 := by
  obtain ⟨c', fmt', heq, hc'⟩ := exists_endsWidth m hc fmt
  rw [heq]
  cases hf : f.zero with
  | true =>
    unfold Field.spell
    rw [hf]
    exact fun h => absurd (Option.some.inj h) (by decide)
  | false =>
    unfold Field.spell
    rw [hf]
    cases f.digits with
    | nil => exact fun h => hc'.1 (Option.some.inj h)
    | cons d digits =>
      have hne : ∀ d : Fin 10, digitCode d ≠ 0 := by decide
      exact fun h => hne d (Option.some.inj h)

/-- A turn carries out the conversion that the cursor stands at. -/
theorem turn_of_parseSpec {spec : Spec} {s cs : List UInt8} {args' : List Arg}
    (hnul : s.head? ≠ some 0) (hspec : parseSpec s = Outcome.ok (spec, c :: fmt))
    (hconv : convert spec c args state = Outcome.ok (args', state.emits cs)) :
    turn ⟨ascii '%' :: s, args, state⟩ = Outcome.ok (Sum.inl ⟨fmt, args', state.emits cs⟩) := by
  have h : conversion s args state = Outcome.ok ⟨fmt, args', state.emits cs⟩ := by
    rw [conversion, hspec, Outcome.ok_bind]
    show (convert spec c args state >>= _) = _
    rw [hconv]
    rfl
  cases s with
  | nil => exact absurd hspec (by simp [parseSpec, zeroFlag])
  | cons d s =>
    have hd : d ≠ 0 := fun hd => hnul (by rw [hd]; rfl)
    show (if d = 0 then _ else Sum.inl <$> conversion (d :: s) args state) = _
    rw [if_neg hd, h]
    rfl

/-- **A turn carries out a conversion.** -/
theorem turn_conversion (f : Field) (m : Modifier) (hc : IsLetter c) {args' : List Arg}
    {cs : List UInt8}
    (h : convert (specOf f m) c args state = Outcome.ok (args', state.emits cs))
    (fmt : List UInt8) :
    turn ⟨'%'.toUInt8 :: (f.spell ++ (m.spell ++ c :: fmt)), args, state⟩
      = Outcome.ok (Sum.inl ⟨fmt, args', state.emits cs⟩) :=
  turn_of_parseSpec (head_spell_ne f m hc fmt) (parseSpec_spell f m hc) h

/-! ## Arguments -/

/-- An argument of the type that a modifier names. -/
def argOf : (m : Modifier) → BitVec m.argBits → Arg
  | .none, v => Arg.int v
  | .hh, v => Arg.int v
  | .h, v => Arg.int v
  | .l, v => Arg.long v
  | .ll, v => Arg.long v
  | .z, v => Arg.long v
  | .t, v => Arg.long v

theorem getSignedArg_argOf (m : Modifier) (v : BitVec m.argBits) (args : List Arg) :
    getSignedArg (argOf m v :: args) (lengthOf m)
      = Outcome.ok ((v.setWidth m.bits).signExtend 64, args) := by
  cases m with
  | none => exact congrArg (fun w => Outcome.ok (BitVec.signExtend 64 w, args)) v.setWidth_eq.symm
  | hh => rfl
  | h => rfl
  | l | ll | z | t =>
    have heq : ∀ w : BitVec 64, w = (w.setWidth 64).signExtend 64 := fun w => by
      rw [BitVec.signExtend_eq, BitVec.setWidth_eq]
    exact congrArg (fun w => Outcome.ok (w, args)) (heq v)

theorem getUnsignedArg_argOf (m : Modifier) (v : BitVec m.argBits) (args : List Arg) :
    getUnsignedArg (argOf m v :: args) (lengthOf m)
      = Outcome.ok ((v.setWidth m.bits).setWidth 64, args) := by
  cases m with
  | none => exact congrArg (fun w => Outcome.ok (BitVec.setWidth 64 w, args)) v.setWidth_eq.symm
  | hh => rfl
  | h => rfl
  | l | ll | z | t =>
    have heq : ∀ w : BitVec 64, w = (w.setWidth 64).setWidth 64 := fun w => by
      rw [BitVec.setWidth_eq, BitVec.setWidth_eq]
    exact congrArg (fun w => Outcome.ok (w, args)) (heq v)

/-- The magnitude of a negative number, which does not overflow. -/
theorem toNat_magnitude {v : BitVec 64} (hv : v.toInt < 0) :
    (-(v + 1) + 1).toNat = v.toInt.natAbs := by
  have hneg : -(v + 1) + 1 = -v := by
    rw [BitVec.neg_add, BitVec.sub_add_cancel]
  have h := BitVec.toInt_eq_toNat_cond v
  have hlt := v.isLt
  rw [hneg, BitVec.toNat_neg]
  split at h <;> omega

/-- **The arguments of a directive.** -/
def Takes : Directive → List Arg → Prop
  | .ordinary _ _ _, args => args = []
  | .percent, args => args = []
  | .integer _ m _ arg, args => args = [argOf m arg]
  | .char _ _ arg, args => args = [Arg.int arg]
  | .string _ _ s, args => ∃ addr mem, addr ≠ 0 ∧ s.bytes <+: mem ∧ args = [Arg.ptr addr mem]

/-- **The arguments of a format**, and perhaps more. -/
def Passed : List Directive → List Arg → Prop
  | [], _ => True
  | d :: ds, args => ∃ own rest, args = own ++ rest ∧ Takes d own ∧ Passed ds rest

/-! ## What is printed -/

/-- **What `vprintk_internal` prints for a directive.** -/
def emitted : Directive → List UInt8
  | .ordinary c _ _ => [c]
  | .percent => asciiBytes "%"
  | .integer f _ conv arg => conv.sign arg ++ f.justify [] (conv.body arg)
  | .char _ _ arg => [UInt8.ofBitVec (arg.setWidth 8)]
  | .string f _ s => f.justify [] s.chars

theorem toNat_width (f : Field) : (BitVec.ofNat 32 f.width).toNat = f.width := by
  have h : f.width < 2 ^ 31 := f.width_lt
  rw [BitVec.toNat_ofNat]
  exact Nat.mod_eq_of_lt (by omega)

theorem padded_padOf (f : Field) (body : List UInt8) :
    State.padded (BitVec.ofNat 32 f.width) (padOf f) body = f.justify [] body := by
  unfold State.padded padOf Field.justify
  rw [toNat_width, List.length_nil, Nat.zero_add, List.nil_append, List.append_nil]
  split <;> rfl

/-- A signed conversion prints the sign first. -/
theorem signed_specOf (f : Field) (m : Modifier) (arg : BitVec m.argBits) :
    signed (specOf f m) ((arg.setWidth m.bits).signExtend 64) = emitted (.integer f m .d arg) := by
  have hle : m.bits ≤ 64 := by cases m <;> decide
  have hint := BitVec.toInt_signExtend_of_le (x := arg.setWidth m.bits) hle
  have hemitted : emitted (.integer f m .d arg) = IntConversion.d.sign arg
    ++ f.justify [] (numeral 10 false (arg.setWidth m.bits).toInt.natAbs) := rfl
  rw [signed, specOf]
  split
  · next hneg =>
    have hsign : IntConversion.d.sign arg = [ascii '-'] := if_pos (decide_eq_true (hint ▸ hneg))
    -- the magnitude is `-(value + 1) + 1`, so that the smallest value does not overflow
    rw [padded_padOf, toNat_magnitude hneg, hint, hemitted, hsign]
    rfl
  · next hpos =>
    have hsign : IntConversion.d.sign arg = [] :=
      if_neg (ne_true_of_eq_false (decide_eq_false (hint ▸ hpos)))
    have hnat : ((arg.setWidth m.bits).signExtend 64).toNat
        = (arg.setWidth m.bits).toInt.natAbs := by
      have h := BitVec.toInt_eq_toNat_cond ((arg.setWidth m.bits).signExtend 64)
      rw [← hint]
      split at h <;> omega
    rw [padded_padOf, hnat, hemitted, hsign]
    rfl

theorem convertSigned_specOf (f : Field) (m : Modifier) (arg : BitVec m.argBits)
    (args : List Arg) (state : State) :
    convertSigned (specOf f m) (argOf m arg :: args) state
      = Outcome.ok (args, state.emits (emitted (.integer f m .d arg))) := by
  rw [convertSigned_emits (getSignedArg_argOf m arg args), signed_specOf]

theorem convertUnsigned_specOf (f : Field) (m : Modifier) (arg : BitVec m.argBits) {base : ℕ}
    (hbase : 1 < base) (hbase' : base ≤ 16) (uppercase : Bool) (args : List Arg)
    (state : State) :
    convertUnsigned (specOf f m) base uppercase (argOf m arg :: args) state
      = Outcome.ok (args, state.emits
          (f.justify [] (numeral base uppercase (arg.setWidth m.bits).toNat))) := by
  have hle : m.bits ≤ 64 := by cases m <;> decide
  have hnat : ((arg.setWidth m.bits).setWidth 64).toNat = (arg.setWidth m.bits).toNat :=
    BitVec.toNat_setWidth_of_le hle
  rw [convertUnsigned_emits hbase hbase' uppercase (getUnsignedArg_argOf m arg args), hnat, specOf,
    padded_padOf]

/-- **An integer conversion.** -/
theorem convert_integer (f : Field) (m : Modifier) (conv : IntConversion)
    (arg : BitVec m.argBits) (args : List Arg) (state : State) :
    convert (specOf f m) conv.letter (argOf m arg :: args) state
      = Outcome.ok (args, state.emits (emitted (.integer f m conv arg))) := by
  cases conv with
  | d => exact convertSigned_specOf f m arg args state
  | i => exact convertSigned_specOf f m arg args state
  | u => exact convertUnsigned_specOf f m arg (by omega) (by omega) false args state
  | x => exact convertUnsigned_specOf f m arg (by omega) (by omega) false args state
  | X => exact convertUnsigned_specOf f m arg (by omega) (by omega) true args state

theorem IntConversion.isLetter (conv : IntConversion) : IsLetter conv.letter := by
  cases conv <;> decide

/-- **A turn prints a directive.** -/
theorem turn_spell (hown : Takes d own) (fmt : List UInt8) (args : List Arg) (state : State) :
    turn ⟨d.spell ++ fmt, own ++ args, state⟩
      = Outcome.ok (Sum.inl ⟨fmt, args, state.emits (emitted d)⟩) := by
  cases d with
  | ordinary c hpercent hnul =>
    obtain rfl : own = [] := hown
    unfold turn
    show (if c = 0 then _ else _) = _
    rw [if_neg hnul, if_pos (show c ≠ ascii '%' from hpercent), State.emitChar_eq_emit]
    rfl
  | percent =>
    obtain rfl : own = [] := hown
    have hhead : (ascii '%' :: fmt).head? ≠ some 0 := fun h =>
      absurd (Option.some.inj h) (by decide)
    exact turn_of_parseSpec hhead rfl (convert_percent ⟨ascii ' ', 0, Length.default⟩ args state)
  | integer f m conv arg =>
    obtain rfl : own = [argOf m arg] := hown
    rw [Directive.spell, List.cons_append, List.append_assoc, List.append_assoc]
    exact turn_conversion f m (IntConversion.isLetter conv)
      (convert_integer f m conv arg args state) fmt
  | char f hf arg =>
    obtain rfl : own = [Arg.int arg] := hown
    rw [Directive.spell, List.cons_append, List.append_assoc]
    exact turn_conversion f .none (by decide) (convert_char (specOf f .none) arg args state) fmt
  | string f hf s =>
    obtain ⟨addr, mem, haddr, hmem, rfl⟩ := hown
    -- only a null pointer is replaced by `(null)`
    have hstring : s.bytes <+: if addr = 0 then asciiBytes "(null)" ++ [0] else mem := by
      rwa [if_neg haddr]
    have hconv := convert_string (specOf f .none) hstring args state
    rw [specOf, padded_padOf] at hconv
    rw [Directive.spell, List.cons_append, List.append_assoc]
    exact turn_conversion f .none (by decide) hconv fmt

/-- **The loop prints the format**, directive by directive. -/
theorem run_spell (h : Passed ds args) (rest : List UInt8) (state : State) :
    loop.run ⟨ds.flatMap Directive.spell ++ 0 :: rest, args, state⟩
      = Outcome.ok (state.emits (ds.flatMap emitted)) := by
  induction ds generalizing args state with
  | nil => exact Loop.run_of_result rfl rfl
  | cons d ds ih =>
    obtain ⟨own, args', rfl, hown, h⟩ := h
    rw [List.flatMap_cons, List.flatMap_cons, List.append_assoc,
      Loop.run_of_next rfl (turn_spell hown _ args' state), ih h, ← State.emits_append]

/-! ## Agreement with C -/

/-- **A directive fits**: a negative number reaches its width without the sign, and
`%c` has no width above 1. -/
def Fits : Directive → Prop
  | .integer f _ conv arg => conv.negative arg = true → f.width ≤ (conv.body arg).length
  | .char f _ _ => f.width ≤ 1
  | _ => True

/-- `vprintk_internal` prints what C's `printf` does, newlines expanded. -/
def PrintsOutput (ds : List Directive) (rest : List UInt8) (args : List Arg)
    (clock : ℕ → BitVec 64) : Prop :=
  ∃ state, vprintkInternal false (ds.flatMap Directive.spell ++ 0 :: rest) args clock
      = Outcome.ok state ∧ state.out = expand (ds.flatMap Directive.output)

/-- A directive that fits is printed as in C. -/
theorem emitted_eq_output (h : Fits d) : emitted d = d.output := by
  cases d with
  | ordinary c hpercent hnul => rfl
  | percent => rfl
  | integer f m conv arg =>
    show conv.sign arg ++ f.justify [] (conv.body arg) = f.justify (conv.sign arg) (conv.body arg)
    cases hneg : conv.negative arg with
    | true =>
      have hle : f.width ≤ (conv.body arg).length := h hneg
      rw [Field.justify_of_le (by rw [List.length_nil]; omega), Field.justify_of_le (by omega)]
      rfl
    | false =>
      have hsign : conv.sign arg = [] := if_neg (ne_true_of_eq_false hneg)
      rw [hsign]
      rfl
  | char f hf arg =>
    have hle : f.width ≤ ([] : List UInt8).length + [UInt8.ofBitVec (arg.setWidth 8)].length := h
    exact (Field.justify_of_le hle).symm
  | string f hf s => rfl

/-- **A directive that fits fills its width.** -/
theorem length_emitted (h : Fits d) : (emitted d).length = max d.width d.natural.length := by
  rw [emitted_eq_output h, Directive.length_output]

/-- The output of `%c`. -/
theorem output_char (f : Field) (hf : f.zero = false) (arg : BitVec 32) :
    (Directive.char f hf arg).output
      = List.replicate (f.width - 1) (ascii ' ') ++ [UInt8.ofBitVec (arg.setWidth 8)] := by
  show f.justify [] [UInt8.ofBitVec (arg.setWidth 8)] = _
  unfold Field.justify
  rw [if_neg (ne_true_of_eq_false hf), List.append_nil]
  rfl

/-- A negative number is printed with the sign first. -/
theorem emitted_of_negative {conv : IntConversion} {arg : BitVec m.argBits}
    (hneg : conv.negative arg = true) :
    emitted (.integer f m conv arg) = ascii '-' :: f.justify [] (conv.body arg) := by
  have hsign : conv.sign arg = [ascii '-'] := if_pos hneg
  show conv.sign arg ++ _ = _
  rw [hsign]
  rfl

/-- **Nothing is ahead of C in blanks.** -/
theorem blanks_emitted_le (d : Directive) (xs ys : List UInt8)
    (h : blanks (ascii ' ') xs ≤ blanks (ascii ' ') ys) :
    blanks (ascii ' ') (emitted d ++ xs) ≤ blanks (ascii ' ') (d.output ++ ys) := by
  by_cases hfits : Fits d
  · rw [emitted_eq_output hfits]
    exact blanks_append_le _ h
  cases d with
  | ordinary c hpercent hnul => exact absurd trivial hfits
  | percent => exact absurd trivial hfits
  | integer f m conv arg =>
    have hneg : conv.negative arg = true := by
      by_contra hneg
      exact hfits (fun h => absurd h hneg)
    rw [emitted_of_negative hneg, List.cons_append, blanks_cons_of_ne (by decide)]
    exact Nat.zero_le _
  | char f hf arg =>
    rw [output_char, List.append_assoc, blanks_replicate_append]
    exact (blanks_append_le _ h).trans (Nat.le_add_left _ _)
  | string f hf s => exact absurd trivial hfits

/-- **A directive that does not fit** is not made up for by what follows. -/
theorem emitted_append_ne (d : Directive) (xs ys : List UInt8) (hfits : ¬ Fits d)
    (h : blanks (ascii ' ') xs ≤ blanks (ascii ' ') ys) : emitted d ++ xs ≠ d.output ++ ys := by
  cases d with
  | ordinary c hpercent hnul => exact absurd trivial hfits
  | percent => exact absurd trivial hfits
  | integer f m conv arg =>
    obtain ⟨hneg, hwidth⟩ : conv.negative arg = true ∧ (conv.body arg).length < f.width := by
      rw [← not_le]
      exact Classical.not_imp.mp hfits
    obtain ⟨c, cs, hbody, hzero, hblank⟩ := IntConversion.exists_body_eq_cons hneg
    have hsign : conv.sign arg = [ascii '-'] := if_pos hneg
    have houtput : (Directive.integer f m conv arg).output = f.justify [ascii '-'] (c :: cs) := by
      rw [← hsign, ← hbody]
      rfl
    -- the code pads with one character more, as it does not count the sign
    obtain ⟨k, hk⟩ : ∃ k, f.width - (0 + (c :: cs).length) = k + 1
        ∧ f.width - (1 + (c :: cs).length) = k := by
      rw [hbody] at hwidth
      exact ⟨f.width - (1 + (c :: cs).length), by omega, rfl⟩
    rw [emitted_of_negative hneg, hbody, houtput]
    unfold Field.justify
    rw [List.length_singleton, List.length_nil, hk.1, hk.2]
    cases f.zero with
    | true =>
      intro heq
      refine replicate_succ_append_ne hzero k (c :: cs ++ xs) (cs ++ ys) ?_
      simpa using heq
    | false =>
      intro heq
      cases k with
      | zero =>
        have hlist : ascii '-' :: ascii ' ' :: (c :: cs ++ xs) = ascii '-' :: c :: (cs ++ ys) := heq
        exact hblank (List.cons.inj (List.cons.inj hlist).2).1.symm
      | succ k => exact absurd (List.cons.inj heq).1 (by decide)
  | char f hf arg =>
    intro heq
    have hwidth : 1 < f.width := not_le.mp hfits
    obtain ⟨k, hk⟩ : ∃ k, f.width - 1 = k + 1 := ⟨f.width - 2, by omega⟩
    rw [output_char, hk] at heq
    obtain ⟨hc, hrest⟩ := List.cons.inj heq
    have hblanks : blanks (ascii ' ') xs = k + (blanks (ascii ' ') ys + 1) := by
      have hxs : xs = List.replicate k (ascii ' ') ++ ([ascii ' '] ++ ys) := by
        rw [hc] at hrest
        exact hrest.trans (List.append_assoc _ _ _)
      rw [hxs, blanks_replicate_append]
      rfl
    omega
  | string f hf s => exact absurd trivial hfits

/-- **Where `kprintf` agrees with C's `printf`.** The characters that it prints are
those of C, with each newline expanded, exactly where every directive fits. -/
theorem printsOutput_iff (h : Passed ds args) (clock : ℕ → BitVec 64) :
    PrintsOutput ds rest args clock ↔ ∀ d ∈ ds, Fits d := by
  have hrun : vprintkInternal false (ds.flatMap Directive.spell ++ 0 :: rest) args clock
      = Outcome.ok ((⟨false, true, 0, [], clock⟩ : State).puts (ds.flatMap emitted)) :=
    (run_spell h rest _).trans (congrArg Outcome.ok (State.emits_eq_puts rfl _))
  have hout := State.out_puts ⟨false, true, 0, [], clock⟩ (ds.flatMap emitted)
  rw [← flatMap_eq_flatMap_iff (ascii ' ') (fun _ => emitted_eq_output) blanks_emitted_le
    emitted_append_ne ds]
  constructor
  · rintro ⟨state, hstate, heq⟩
    rw [hrun] at hstate
    cases hstate
    rw [hout] at heq
    exact expand_injective heq
  · intro heq
    refine ⟨_, hrun, ?_⟩
    rw [hout, heq]
    rfl

/-- A conversion `%5d`. -/
def width5 : Field := ⟨false, [5], by decide, by decide⟩

/-- `"%5d"` with -3 as argument. -/
def negativeWidth5 : List Directive := [.integer width5 .none .d (-3)]

theorem passed_negativeWidth5 : Passed negativeWidth5 [Arg.int (-3)] :=
  ⟨[Arg.int (-3)], [], rfl, rfl, trivial⟩

/-- The number does not fit. -/
theorem printsOutput_iff_negativeWidth5 :
    Passed negativeWidth5 [Arg.int (-3)]
      ∧ (PrintsOutput negativeWidth5 [] [Arg.int (-3)] (fun _ => 0)
        ↔ ∀ d ∈ negativeWidth5, Fits d) :=
  ⟨passed_negativeWidth5, printsOutput_iff passed_negativeWidth5 _⟩

/-- **Six characters for a width of five**: `"-    3"` where C prints `"   -3"`. -/
theorem not_printsOutput_negativeWidth5 :
    Passed negativeWidth5 [Arg.int (-3)]
      ∧ ¬ PrintsOutput negativeWidth5 [] [Arg.int (-3)] (fun _ => 0) := by
  have hout : State.out <$> vprintkInternal false
      (negativeWidth5.flatMap Directive.spell ++ [0]) [Arg.int (-3)] (fun _ => 0)
      = Outcome.ok (asciiBytes "-    3") := by decide +kernel
  refine ⟨passed_negativeWidth5, ?_⟩
  rintro ⟨state, hstate, heq⟩
  rw [hstate] at hout
  have hlen : state.out = asciiBytes "-    3" := Outcome.ok.inj hout
  rw [heq] at hlen
  exact absurd hlen (by decide)

end Printk
