import Mathlib.Data.List.TakeWhile
import Risky.PrintkStamp
import Risky.Trap

/-!
# What a panic reports

Before `kpanic` stops the machine it logs the registers that `trap_entry` has saved, as
lines of text with the time in front. The text is a record that can be read back: the
numbers behind each `0x` are, in order, the registers of the interrupted program, whatever
is in them and whatever the clock shows (`Trap.hexWords_panic`). The stack pointer is the
exception, of which the frame holds the one that the stub has already moved.
-/

namespace Printk

open CPrintf

/-! ## Reading words back -/

/-- A digit of `%x`. -/
def isHexDigit (c : UInt8) : Bool :=
  (ascii '0' ≤ c && c ≤ ascii '9') || (ascii 'a' ≤ c && c ≤ ascii 'f')

/-- **The numbers of a text** that have `0x` in front. -/
def hexWords : List UInt8 → List ℕ
  | [] => []
  | c :: cs =>
    if c = ascii '0' ∧ cs.head? = some (ascii 'x') then
      readNumeral 16 (cs.tail.takeWhile isHexDigit) :: hexWords cs
    else hexWords cs

/-- No number goes on across such a character. -/
def Separates (c : UInt8) : Prop := isHexDigit c = false ∧ c ≠ ascii 'x'

instance (c : UInt8) : Decidable (Separates c) := inferInstanceAs (Decidable (_ ∧ _))

variable {c : UInt8} {cs xs ys text : List UInt8}

theorem Separates.ne_zero (hc : Separates c) : c ≠ ascii '0' := by
  intro h
  have hdigit := hc.1
  rw [h] at hdigit
  exact absurd hdigit (by decide)

theorem hexWords_cons_of_ne (hc : c ≠ ascii '0') (cs : List UInt8) :
    hexWords (c :: cs) = hexWords cs := if_neg (fun h => hc h.1)

theorem takeWhile_append_cons {α : Type} {p : α → Bool} {c : α} (hc : p c = false)
    (xs ys : List α) :
    (xs ++ c :: ys).takeWhile p = xs.takeWhile p := by
  induction xs with
  | nil => rw [List.nil_append, List.takeWhile_cons_of_neg (by rw [hc]; decide), List.takeWhile_nil]
  | cons x xs ih => rw [List.cons_append, List.takeWhile_cons, List.takeWhile_cons, ih]

/-- **A separator divides the numbers** before it from those behind it. -/
theorem hexWords_append_cons (hc : Separates c) (xs ys : List UInt8) :
    hexWords (xs ++ c :: ys) = hexWords xs ++ hexWords ys := by
  induction xs with
  | nil => exact hexWords_cons_of_ne hc.ne_zero ys
  | cons x xs ih =>
    rw [List.cons_append, hexWords, hexWords, ih]
    cases xs with
    | nil =>
      have hhead : ([] ++ c :: ys).head? ≠ some (ascii 'x') := fun h => hc.2 (Option.some.inj h)
      rw [if_neg (fun h => hhead h.2), if_neg (fun h => absurd h.2 (Option.some_ne_none _).symm)]
    | cons y xs =>
      have htake : (y :: xs ++ c :: ys).tail.takeWhile isHexDigit
          = (y :: xs).tail.takeWhile isHexDigit := takeWhile_append_cons hc.1 xs ys
      have hhead : (y :: xs ++ c :: ys).head? = (y :: xs).head? := rfl
      rw [htake, hhead]
      split
      · rfl
      · rfl

/-- A text without the letter has no numbers. -/
theorem hexWords_of_notMem (h : ascii 'x' ∉ cs) : hexWords cs = [] := by
  induction cs with
  | nil => rfl
  | cons c cs ih =>
    have hcs : ascii 'x' ∉ cs := fun hmem => h (List.mem_cons_of_mem c hmem)
    rw [hexWords, if_neg (fun hx => hcs (List.mem_of_head? hx.2)), ih hcs]

/-- A number by itself. -/
theorem hexWords_digits (h : ∀ c ∈ cs, isHexDigit c = true) :
    hexWords (ascii '0' :: ascii 'x' :: cs) = [readNumeral 16 cs] := by
  have hx : ascii 'x' ∉ cs := fun hmem => absurd (h _ hmem) (by decide)
  rw [hexWords, if_pos ⟨rfl, rfl⟩, hexWords_cons_of_ne (by decide), hexWords_of_notMem hx,
    List.tail_cons, List.takeWhile_eq_self_iff.mpr h]

/-! ## Numbers that are printed -/

/-- Zeros in front change no number. -/
theorem readNumeral_justify (f : Field) (hf : f.zero = true ∨ f.digits = []) (n : ℕ) :
    readNumeral 16 (f.justify [] (numeral 16 false n)) = n := by
  have hzeros : ∀ k, readNumeral 16 (List.replicate k (ascii '0') ++ numeral 16 false n) = n := by
    intro k
    induction k with
    | zero => exact (isNumeral_numeral (by decide) (by decide) false n).value
    | succ k ih =>
      rw [List.replicate_succ, List.cons_append, readNumeral, List.foldl_cons]
      exact ih
  unfold Field.justify
  split
  · exact hzeros _
  · next hzero =>
    have hwidth : f.width = 0 := by
      rw [Field.width, hf.resolve_left hzero]
      rfl
    rw [hwidth, Nat.zero_sub]
    exact hzeros 0

theorem isHexDigit_justify {f : Field} (hf : f.zero = true ∨ f.digits = []) {n : ℕ}
    (h : c ∈ f.justify [] (numeral 16 false n)) : isHexDigit c = true := by
  have hdigit : ∀ {c}, c ∈ numeral 16 false n → isHexDigit c = true := fun {c} h => by
    obtain ⟨d, hd, rfl⟩ := exists_digit_of_mem_numeral (by decide) (by decide) h
    interval_cases d <;> rfl
  unfold Field.justify at h
  split at h
  · rw [List.append_assoc, List.nil_append] at h
    rcases List.mem_append.mp h with h | h
    · rw [List.eq_of_mem_replicate h]
      rfl
    · exact hdigit h
  · next hzero =>
    have hwidth : f.width = 0 := by
      rw [Field.width, hf.resolve_left hzero]
      rfl
    rw [hwidth, Nat.zero_sub, List.replicate_zero, List.append_nil, List.nil_append] at h
    exact hdigit h

/-- **A number of the format `%x`** with zeros in front. -/
def hexText (f : Field) (v : BitVec 64) : List UInt8 := f.justify [] (numeral 16 false v.toNat)

theorem hexWords_hexText {f : Field} (hf : f.zero = true ∨ f.digits = []) (v : BitVec 64) :
    hexWords (asciiBytes "0x" ++ hexText f v) = [v.toNat] :=
  (hexWords_digits (fun _ h => isHexDigit_justify hf h)).trans
    (congrArg (fun n => [n]) (readNumeral_justify f hf v.toNat))

/-! ## Lines -/

/-- **A format prints a text.** -/
def Prints (fmt : List UInt8) (args : List Arg) (text : List UInt8) : Prop :=
  ∃ ds, fmt = ds.flatMap Directive.spell ∧ Passed ds args ∧ text = ds.flatMap emitted

/-- The characters of a log line stand for themselves. -/
def Plain (cs : List UInt8) : Prop := ∀ c ∈ cs, c ≠ '%'.toUInt8 ∧ c ≠ 0 ∧ c ≠ ascii '\n'

instance (cs : List UInt8) : Decidable (Plain cs) := List.decidableBAll _ cs

variable {fmt : List UInt8} {args own : List Arg}

theorem Prints.nil : Prints [] [] [] := ⟨[], rfl, trivial, rfl⟩

/-- A directive in front. -/
theorem Prints.directive {spelled out : List UInt8} (d : Directive) (hspell : d.spell = spelled)
    (hout : emitted d = out) (hown : Takes d own) (h : Prints fmt args text) :
    Prints (spelled ++ fmt) (own ++ args) (out ++ text) := by
  obtain ⟨ds, rfl, hpassed, rfl⟩ := h
  subst hspell hout
  exact ⟨d :: ds, rfl, ⟨own, args, rfl, hown, hpassed⟩, rfl⟩

/-- Characters in front. -/
theorem Prints.plain (hcs : Plain cs) (h : Prints fmt args text) :
    Prints (cs ++ fmt) args (cs ++ text) := by
  induction cs with
  | nil => exact h
  | cons c cs ih =>
    have hc := hcs c List.mem_cons_self
    have hrest := ih (fun c' hc' => hcs c' (List.mem_cons_of_mem c hc'))
    exact hrest.directive (.ordinary c hc.1 hc.2.1) rfl rfl rfl

theorem flag_bare : false = false → ([] : List (Fin 10)).head? ≠ some 0 := by decide

theorem width_bare : decimalValue 0 [] < 2 ^ 31 := by decide

/-- No flag and no width. -/
def bare : Field := ⟨false, [], flag_bare, width_bare⟩

theorem justify_bare (body : List UInt8) : bare.justify [] body = body :=
  Field.justify_of_le (Nat.zero_le _)

/-- `%lu`. -/
theorem Prints.unsigned (v : BitVec 64) (h : Prints fmt args text) :
    Prints (asciiBytes "%lu" ++ fmt) (Arg.long v :: args)
      (numeral 10 false v.toNat ++ text) := by
  have hout : emitted (.integer bare .l .u v) = numeral 10 false v.toNat := by
    show bare.justify [] (numeral 10 false (BitVec.setWidth 64 v).toNat) = _
    rw [BitVec.setWidth_eq, justify_bare]
  exact h.directive (.integer bare .l .u v) rfl hout rfl

/-- `%lx`, perhaps with a width. -/
theorem Prints.hex (f : Field) (v : BitVec 64) (h : Prints fmt args text) :
    Prints ('%'.toUInt8 :: (f.spell ++ asciiBytes "lx") ++ fmt) (Arg.long v :: args)
      (hexText f v ++ text) := by
  have hspell : Directive.spell (.integer f .l .x v)
      = '%'.toUInt8 :: (f.spell ++ asciiBytes "lx") := by
    show '%'.toUInt8 :: (f.spell ++ asciiBytes "l" ++ asciiBytes "x") = _
    rw [List.append_assoc]
    rfl
  have hout : emitted (.integer f .l .x v) = hexText f v := by
    show f.justify [] (numeral 16 false (BitVec.setWidth 64 v).toNat) = _
    rw [BitVec.setWidth_eq]
    rfl
  exact h.directive (.integer f .l .x v) hspell hout rfl

/-- `%s`. -/
theorem Prints.string {s : String} (hs : 0 ∉ asciiBytes s) (h : Prints fmt args text) :
    Prints (asciiBytes "%s" ++ fmt) (literal s :: args) (asciiBytes s ++ text) :=
  h.directive (.string bare rfl ⟨asciiBytes s, hs⟩) rfl (justify_bare _)
    ⟨1, asciiBytes s ++ [0], by decide, List.prefix_refl _, rfl⟩

/-! ## What is logged -/

/-- A line without newlines is printed as it is. -/
theorem expand_of_notMem (h : ascii '\n' ∉ cs) : expand cs = cs := by
  induction cs with
  | nil => rfl
  | cons c cs ih =>
    have hc : c ≠ '\n'.toUInt8 := fun heq => h (heq ▸ List.mem_cons_self)
    rw [expand, List.flatMap_cons, if_neg hc]
    exact congrArg (List.cons c) (ih (fun hmem => h (List.mem_cons_of_mem c hmem)))

theorem logged_of_notMem (h : ascii '\n' ∉ cs) (clock : ℕ → BitVec 64) :
    logged clock false cs = cs := by
  induction cs with
  | nil => rfl
  | cons c cs ih =>
    have hc : c ≠ ascii '\n' := fun heq => h (heq ▸ List.mem_cons_self)
    rw [logged, decide_eq_false hc, ih (fun hmem => h (List.mem_cons_of_mem c hmem))]

theorem hexWords_numeral (n : ℕ) : hexWords (numeral 10 false n) = [] := by
  refine hexWords_of_notMem (fun h => ?_)
  obtain ⟨d, hd, heq⟩ := exists_digit_of_mem_numeral (by decide) (by decide) h
  interval_cases d <;> exact absurd heq (by decide)

/-- **The time has no number of the kind in it**, and ends with a blank. -/
theorem hexWords_stamp_append (ms : BitVec 64) (cs : List UInt8) :
    hexWords (stamp ms ++ cs) = hexWords cs := by
  obtain ⟨seconds, d₁, d₂, d₃, htext, -⟩ := isStamp_stamp ms
  have hdecimals : ∀ e₁ e₂ e₃ : Fin 10,
      hexWords [digitCode e₁, digitCode e₂, digitCode e₃, ascii ']'] = [] := by
    intro e₁ e₂ e₃
    have hx : ∀ d : Fin 10, ascii 'x' ≠ digitCode d := by decide
    refine hexWords_of_notMem ?_
    simp only [List.mem_cons, List.not_mem_nil, hx, or_false, false_or]
    decide
  have hstamp : stamp ms ++ cs = ascii '[' :: (numeral 10 false seconds ++ ascii '.'
      :: ([digitCode d₁, digitCode d₂, digitCode d₃, ascii ']'] ++ ascii ' ' :: cs)) := by
    rw [htext, List.cons_append, List.append_assoc]
    rfl
  rw [hstamp, hexWords_cons_of_ne (by decide), hexWords_append_cons (by decide), hexWords_numeral,
    hexWords_append_cons (by decide), hdecimals, List.nil_append, List.nil_append]

/-- **The numbers of a line** are those of its text, wherever the line is. -/
theorem hexWords_logged (h : ascii '\n' ∉ text) (clock : ℕ → BitVec 64) (out : List UInt8) :
    hexWords (logged clock true (expand text) ++ asciiBytes "\r\n" ++ out)
      = hexWords text ++ hexWords out := by
  have hend : hexWords (text ++ (asciiBytes "\r\n" ++ out)) = hexWords text ++ hexWords out :=
    (hexWords_append_cons (c := ascii '\r') (by decide) text (ascii '\n' :: out)).trans
      (congrArg (hexWords text ++ ·) (hexWords_cons_of_ne (by decide) out))
  rw [expand_of_notMem h, List.append_assoc]
  cases text with
  | nil => exact hend
  | cons c cs =>
    have hc : c ≠ ascii '\n' := fun heq => h (heq ▸ List.mem_cons_self)
    have hcs : ascii '\n' ∉ cs := fun hmem => h (List.mem_cons_of_mem c hmem)
    rw [logged, decide_eq_false hc, logged_of_notMem hcs, List.append_assoc, hexWords_stamp_append]
    exact hend

/-- A line as it is passed to `klog`. -/
def Line.call (line : Line) : List UInt8 × List Arg := (asciiBytes line.fmt ++ [0], line.args)

/-- **The numbers that a line shows.** -/
def Line.Shows (line : Line) (words : List ℕ) : Prop :=
  ∃ text, Prints (asciiBytes line.fmt) line.args text ∧ ascii '\n' ∉ text ∧ hexWords text = words

/-- `vklog` prints the text, with the time in front. -/
theorem Prints.vklog (h : Prints fmt args text) (clock : ℕ → BitVec 64) :
    ∃ t, vklog (fmt ++ [0]) args clock = Outcome.ok t
      ∧ t.out = logged clock true (expand text) ++ asciiBytes "\r\n" := by
  obtain ⟨ds, rfl, hpassed, rfl⟩ := h
  have hrun : vkprintf (ds.flatMap Directive.spell ++ [0]) args clock
      = Outcome.ok ((⟨false, true, 0, [], clock⟩ : State).emits (ds.flatMap emitted)) :=
    run_spell hpassed [] _
  rcases vklog_cases (ds.flatMap Directive.spell ++ [0]) args with ⟨cs, hall⟩ | hall
  · obtain ⟨hprintf, t, ht, -, hout, -⟩ := hall clock
    have heq := congrArg State.out (Outcome.ok.inj (hrun.symm.trans hprintf))
    rw [State.out_emits_of_not_prefixEnabled rfl, State.out_emits_of_not_prefixEnabled rfl] at heq
    exact ⟨t, ht, by rw [hout, List.append_cancel_left heq]⟩
  · have hfault := hrun.symm.trans (hall clock).1
    cases hfault

/-- **A log shows the numbers of its lines**, in order. -/
theorem exists_vklogs {lines : List Line} {words : List (List ℕ)}
    (h : List.Forall₂ Line.Shows lines words) (clock : ℕ → BitVec 64) :
    ∃ out, vklogs (lines.map Line.call) clock = Outcome.ok out ∧ hexWords out = words.flatten := by
  induction h generalizing clock with
  | nil => exact ⟨[], rfl, rfl⟩
  | @cons line ws lines words hline hlines ih =>
    obtain ⟨text, hprints, hnewline, rfl⟩ := hline
    obtain ⟨t, ht, htext⟩ := hprints.vklog clock
    obtain ⟨out, hout, hwords⟩ := ih t.clock
    refine ⟨t.out ++ out, ?_, ?_⟩
    · rw [List.map_cons, Line.call, vklogs, ht, Outcome.ok_bind, hout]
      rfl
    · rw [htext, hexWords_logged hnewline, hwords, List.flatten_cons]

/-! ## Lines of labelled numbers -/

/-- **A label** that a number can stand behind. -/
def IsLabel (label : List UInt8) : Prop :=
  Plain label ∧ hexWords label = [] ∧ ∃ c ∈ label.getLast?, Separates c

instance (label : List UInt8) : Decidable (IsLabel label) :=
  inferInstanceAs (Decidable (_ ∧ _ ∧ ∃ c ∈ label.getLast?, Separates c))

/-- A label adds no number. -/
theorem IsLabel.hexWords_append {label : List UInt8} (h : IsLabel label) (cs : List UInt8) :
    hexWords (label ++ cs) = hexWords cs := by
  obtain ⟨-, hwords, c, hc, hsep⟩ := h
  obtain ⟨front, rfl⟩ := List.getLast?_eq_some_iff.mp hc
  rw [hexWords_append_cons hsep] at hwords
  rw [List.append_assoc, List.singleton_append, hexWords_append_cons hsep,
    List.append_eq_nil_iff.mp hwords |>.1, List.nil_append]

/-- A label between two texts keeps their numbers apart, if it begins with a separator. -/
theorem IsLabel.hexWords_between {label : List UInt8} (h : IsLabel label)
    (hhead : ∃ c ∈ label.head?, Separates c) (xs ys : List UInt8) :
    hexWords (xs ++ (label ++ ys)) = hexWords xs ++ hexWords ys := by
  obtain ⟨c, hc, hsep⟩ := hhead
  obtain ⟨label', rfl⟩ := List.head?_eq_some_iff.mp hc
  have hcons := hexWords_cons_of_ne hsep.ne_zero (label' ++ ys)
  rw [List.cons_append, hexWords_append_cons hsep, ← hcons]
  exact congrArg (hexWords xs ++ ·) (h.hexWords_append ys)

/-- The format of a number with its label. -/
def entryFmt (f : Field) (label : String) : List UInt8 :=
  asciiBytes label ++ (asciiBytes "0x" ++ '%'.toUInt8 :: (f.spell ++ asciiBytes "lx"))

/-- What it prints. -/
def entryText (f : Field) (e : String × BitVec 64) : List UInt8 :=
  asciiBytes e.1 ++ (asciiBytes "0x" ++ hexText f e.2)

/-- **The format of numbers** with their labels, a text between them. -/
def entriesFmt (f : Field) (sep : String) (labels : List String) : List UInt8 :=
  (asciiBytes sep).intercalate (labels.map (entryFmt f))

/-- What it prints. -/
def entriesText (f : Field) (sep : String) (entries : List (String × BitVec 64)) : List UInt8 :=
  (asciiBytes sep).intercalate (entries.map (entryText f))

section Entries

variable {f : Field} {sep label : String} {entries : List (String × BitVec 64)}

theorem entriesFmt_singleton (f : Field) (sep label : String) :
    entriesFmt f sep [label] = entryFmt f label :=
  List.intercalate_singleton

theorem entriesFmt_cons_cons (f : Field) (sep label label' : String) (labels : List String) :
    entriesFmt f sep (label :: label' :: labels)
      = entryFmt f label ++ (asciiBytes sep ++ entriesFmt f sep (label' :: labels)) :=
  List.intercalate_cons_cons.trans (List.append_assoc _ _ _)

theorem entriesText_singleton (f : Field) (sep : String) (e : String × BitVec 64) :
    entriesText f sep [e] = entryText f e :=
  List.intercalate_singleton

theorem entriesText_cons_cons (f : Field) (sep : String) (e e' : String × BitVec 64)
    (entries : List (String × BitVec 64)) :
    entriesText f sep (e :: e' :: entries)
      = entryText f e ++ (asciiBytes sep ++ entriesText f sep (e' :: entries)) :=
  List.intercalate_cons_cons.trans (List.append_assoc _ _ _)

theorem Prints.entry (hlabel : IsLabel (asciiBytes label)) (f : Field) (v : BitVec 64)
    (h : Prints fmt args text) :
    Prints (entryFmt f label ++ fmt) (Arg.long v :: args) (entryText f (label, v) ++ text) := by
  have hmark : Plain (asciiBytes "0x") := by decide
  rw [entryFmt, entryText, List.append_assoc, List.append_assoc, List.append_assoc,
    List.append_assoc]
  exact ((h.hex f v).plain hmark).plain hlabel.1

theorem prints_entries (hsep : IsLabel (asciiBytes sep)) (f : Field)
    (h : ∀ e ∈ entries, IsLabel (asciiBytes e.1)) :
    Prints (entriesFmt f sep (entries.map Prod.fst)) (entries.map (fun e => Arg.long e.2))
      (entriesText f sep entries) := by
  induction entries with
  | nil => exact Prints.nil
  | cons e entries ih =>
    have he := h e List.mem_cons_self
    have hrest := ih (fun e' he' => h e' (List.mem_cons_of_mem e he'))
    cases entries with
    | nil =>
      have hentry := Prints.nil.entry he f e.2
      rw [List.append_nil, List.append_nil] at hentry
      rw [List.map_singleton, entriesFmt_singleton, entriesText_singleton]
      exact hentry
    | cons e' entries =>
      rw [List.map_cons, List.map_cons, entriesFmt_cons_cons, entriesText_cons_cons]
      exact (hrest.plain hsep.1).entry he f e.2

variable (hf : f.zero = true ∨ f.digits = [])

include hf

theorem newline_notMem_entryText (hlabel : IsLabel (asciiBytes label)) (v : BitVec 64) :
    ascii '\n' ∉ entryText f (label, v) := by
  intro h
  rcases List.mem_append.mp h with h | h
  · exact (hlabel.1 _ h).2.2 rfl
  · rcases List.mem_append.mp h with h | h
    · exact absurd h (by decide)
    · exact absurd (isHexDigit_justify hf h) (by decide)

theorem newline_notMem_entriesText (hsep : IsLabel (asciiBytes sep))
    (h : ∀ e ∈ entries, IsLabel (asciiBytes e.1)) : ascii '\n' ∉ entriesText f sep entries := by
  induction entries with
  | nil => exact List.not_mem_nil
  | cons e entries ih =>
    have he := newline_notMem_entryText hf (h e List.mem_cons_self) e.2
    have hrest := ih (fun e' he' => h e' (List.mem_cons_of_mem e he'))
    cases entries with
    | nil =>
      rw [entriesText_singleton]
      exact he
    | cons e' entries =>
      rw [entriesText_cons_cons, List.mem_append, List.mem_append]
      exact not_or.mpr ⟨he, not_or.mpr ⟨fun hmem => (hsep.1 _ hmem).2.2 rfl, hrest⟩⟩

/-- **The numbers are read back.** -/
theorem hexWords_entriesText (hsep : IsLabel (asciiBytes sep))
    (hhead : ∃ c ∈ (asciiBytes sep).head?, Separates c)
    (h : ∀ e ∈ entries, IsLabel (asciiBytes e.1)) :
    hexWords (entriesText f sep entries) = entries.map (fun e => e.2.toNat) := by
  induction entries with
  | nil => rfl
  | cons e entries ih =>
    have he := h e List.mem_cons_self
    have hrest := ih (fun e' he' => h e' (List.mem_cons_of_mem e he'))
    cases entries with
    | nil =>
      rw [entriesText_singleton, entryText, he.hexWords_append, hexWords_hexText hf]
      rfl
    | cons e' entries =>
      rw [entriesText_cons_cons, entryText, List.append_assoc, he.hexWords_append,
        hsep.hexWords_between hhead, hexWords_hexText hf, hrest, List.map_cons]
      rfl

/-- A line of numbers shows them. -/
theorem Line.shows_entries {line : Line} (hsep : IsLabel (asciiBytes sep))
    (hhead : ∃ c ∈ (asciiBytes sep).head?, Separates c)
    (hfmt : asciiBytes line.fmt = entriesFmt f sep (entries.map Prod.fst))
    (hargs : line.args = entries.map (fun e => Arg.long e.2))
    (h : ∀ e ∈ entries, IsLabel (asciiBytes e.1)) :
    line.Shows (entries.map (fun e => e.2.toNat)) := by
  refine ⟨entriesText f sep entries, ?_, newline_notMem_entriesText hf hsep h,
    hexWords_entriesText hf hsep hhead h⟩
  rw [hfmt, hargs]
  exact prints_entries hsep f h

end Entries

/-- A line without conversions. -/
theorem Line.shows_plain (s : String) (hs : Plain (asciiBytes s))
    (hwords : hexWords (asciiBytes s) = []) : Line.Shows ⟨s, []⟩ [] := by
  have hprints := Prints.nil.plain hs
  rw [List.append_nil] at hprints
  exact ⟨asciiBytes s, hprints, fun h => (hs _ h).2.2 rfl, hwords⟩

end Printk

namespace Trap

open Rv64 Printk Outcome

/-! ## The dump -/

theorem one_lt_ten : 1 < 10 := by decide

theorem six_lt_ten : 6 < 10 := by decide

theorem flag_word16 :
    true = false → [(⟨1, one_lt_ten⟩ : Fin 10), ⟨6, six_lt_ten⟩].head? ≠ some 0 := by
  decide

theorem width_word16 : CPrintf.decimalValue 0 [⟨1, one_lt_ten⟩, ⟨6, six_lt_ten⟩] < 2 ^ 31 := by
  decide

/-- `%016lx`. -/
def word16 : CPrintf.Field :=
  ⟨true, [⟨1, one_lt_ten⟩, ⟨6, six_lt_ten⟩], flag_word16, width_word16⟩

/-- **The table of a dump**: the fields of its lines, with their labels. -/
def dumpTable : List (List (String × Field)) :=
  [[("sepc:    ", Field.csr Csr.sepc)], [("sstatus: ", Field.csr Csr.sstatus)],
    [("scause:  ", Field.csr Csr.scause)], [("stval:   ", Field.csr Csr.stval)],
    [("ra: ", Field.reg Reg.ra), ("sp: ", Field.reg Reg.sp), ("gp: ", Field.reg Reg.gp),
      ("tp: ", Field.reg Reg.tp)],
    [("t0: ", Field.reg Reg.t0), ("t1: ", Field.reg Reg.t1), ("t2: ", Field.reg Reg.t2)],
    [("s0: ", Field.reg Reg.s0), ("s1: ", Field.reg Reg.s1)],
    [("a0: ", Field.reg Reg.a0), ("a1: ", Field.reg Reg.a1), ("a2: ", Field.reg Reg.a2),
      ("a3: ", Field.reg Reg.a3)],
    [("a4: ", Field.reg Reg.a4), ("a5: ", Field.reg Reg.a5), ("a6: ", Field.reg Reg.a6),
      ("a7: ", Field.reg Reg.a7)],
    [("s2: ", Field.reg Reg.s2), ("s3: ", Field.reg Reg.s3), ("s4: ", Field.reg Reg.s4),
      ("s5: ", Field.reg Reg.s5)],
    [("s6: ", Field.reg Reg.s6), ("s7: ", Field.reg Reg.s7), ("s8: ", Field.reg Reg.s8),
      ("s9: ", Field.reg Reg.s9)],
    [("s10:", Field.reg Reg.s10), ("s11:", Field.reg Reg.s11)],
    [("t3: ", Field.reg Reg.t3), ("t4: ", Field.reg Reg.t4), ("t5: ", Field.reg Reg.t5),
      ("t6: ", Field.reg Reg.t6)]]

/-- The entries of a line of the table. -/
def dumpEntries (tf : TrapFrame) (fields : List (String × Field)) : List (String × Word) :=
  fields.map (fun f => (f.1, tf f.2))

/-- A line with the format and the arguments of a line of the table. -/
def IsDumpLine (tf : TrapFrame) (line : Line) (fields : List (String × Field)) : Prop :=
  asciiBytes line.fmt = entriesFmt word16 "  " (fields.map Prod.fst)
    ∧ line.args = (dumpEntries tf fields).map (fun e => Arg.long e.2)

/-- **The lines of a dump behind the first are those of the table.** -/
theorem isDumpLine_dumpTable (tf : TrapFrame) :
    List.Forall₂ (IsDumpLine tf) (trapDumpFrame tf).tail dumpTable := by
  unfold trapDumpFrame dumpTable
  simp only [List.tail_cons, List.forall₂_cons, List.forall₂_nil_left_iff, and_true]
  dsimp only [IsDumpLine, regLine]
  refine ⟨⟨?_, rfl⟩, ⟨?_, rfl⟩, ⟨?_, rfl⟩, ⟨?_, rfl⟩, ⟨?_, rfl⟩, ⟨?_, rfl⟩, ⟨?_, rfl⟩, ⟨?_, rfl⟩,
    ⟨?_, rfl⟩, ⟨?_, rfl⟩, ⟨?_, rfl⟩, ⟨?_, rfl⟩, ⟨?_, rfl⟩⟩ <;> decide +kernel

theorem isLabel_dumpTable : ∀ fields ∈ dumpTable, ∀ f ∈ fields, IsLabel (asciiBytes f.1) := by
  decide +kernel

/-- **What such lines show.** -/
theorem IsDumpLine.shows {tf : TrapFrame} {lines : List Line} {table : List (List (String × Field))}
    (h : List.Forall₂ (IsDumpLine tf) lines table)
    (hlabels : ∀ fields ∈ table, ∀ f ∈ fields, IsLabel (asciiBytes f.1)) :
    List.Forall₂ Line.Shows lines
      (table.map (fun fields => fields.map (fun f => (tf f.2).toNat))) := by
  induction h with
  | nil => exact .nil
  | @cons line fields lines table hline hlines ih =>
    have hentries : ∀ e ∈ dumpEntries tf fields, IsLabel (asciiBytes e.1) := by
      intro e he
      obtain ⟨f, hf, rfl⟩ := List.mem_map.mp he
      exact hlabels fields List.mem_cons_self f hf
    have hfmt : asciiBytes line.fmt
        = entriesFmt word16 "  " ((dumpEntries tf fields).map Prod.fst) := by
      rw [hline.1, dumpEntries, List.map_map]
      rfl
    have hshows := Line.shows_entries (Or.inl rfl) (by decide) (by decide) hfmt hline.2 hentries
    rw [dumpEntries, List.map_map] at hshows
    exact .cons hshows (ih (fun fields' h' => hlabels fields' (List.mem_cons_of_mem fields h')))

/-- The fields of a dump, in order: the control and status registers, then the general
ones. -/
def dumpFields : List Field := dumpTable.flatten.map Prod.snd

/-! ## Names -/

/-- **A name** adds no number to its line. -/
def IsName (s : String) : Prop := Plain (asciiBytes s) ∧ hexWords (asciiBytes s) = []

instance (s : String) : Decidable (IsName s) := inferInstanceAs (Decidable (_ ∧ _))

theorem IsName.nul_notMem {s : String} (h : IsName s) : 0 ∉ asciiBytes s :=
  fun hmem => (h.1 _ hmem).2.1 rfl

theorem IsName.newline_notMem {s : String} (h : IsName s) : ascii '\n' ∉ asciiBytes s :=
  fun hmem => (h.1 _ hmem).2.2 rfl

theorem IsName.ite {p : Prop} [Decidable p] {s t : String} (hs : IsName s) (ht : IsName t) :
    IsName (if p then s else t) := by
  split
  · exact hs
  · exact ht

theorem isName_trapInterruptName (cause : Word) : IsName (trapInterruptName cause) := by
  unfold trapInterruptName
  refine .ite ?_ (.ite ?_ (.ite ?_ ?_)) <;> decide +kernel

theorem isName_trapExceptionName (cause : Word) : IsName (trapExceptionName cause) := by
  unfold trapExceptionName
  refine .ite ?_ (.ite ?_ (.ite ?_ (.ite ?_ (.ite ?_ (.ite ?_ (.ite ?_ (.ite ?_ (.ite ?_ (.ite ?_
    (.ite ?_ (.ite ?_ (.ite ?_ ?_)))))))))))) <;> decide +kernel

theorem isName_trapModeName (tf : TrapFrame) : IsName (trapModeName tf) := by
  unfold trapModeName
  refine .ite ?_ ?_ <;> decide +kernel

/-- A line with a name at its end. -/
theorem shows_name {fmt name : String} (label : List UInt8) (hname : IsName name)
    (hfmt : asciiBytes fmt = label ++ asciiBytes "%s") (hlabel : label = [] ∨ IsLabel label) :
    Line.Shows ⟨fmt, [literal name]⟩ [] := by
  have hplain : Plain label := hlabel.elim (fun h => by rw [h]; decide) (fun h => h.1)
  have hprints := (Prints.nil.string hname.nul_notMem).plain hplain
  rw [List.append_nil, List.append_nil, ← hfmt] at hprints
  refine ⟨_, hprints, fun h => ?_, ?_⟩
  · exact (List.mem_append.mp h).elim (fun h => (hplain _ h).2.2 rfl) hname.newline_notMem
  · rcases hlabel with rfl | hlabel
    · exact hname.2
    · rw [hlabel.hexWords_append, hname.2]

/-- The line of the cause. -/
theorem shows_trapLine {kind name : String} (hkind : IsName kind) (hname : IsName name)
    (cause : Word) :
    Line.Shows ⟨"trap: %s cause=%lu <%s>", [literal kind, Arg.long cause, literal name]⟩ [] := by
  have htrap : IsLabel (asciiBytes "trap: ") := by decide
  have hequals : IsLabel (asciiBytes " cause=") := by decide
  have hopen : IsLabel (asciiBytes " <") := by decide
  have hclose : IsLabel (asciiBytes ">") := by decide
  have hprints := (((((Prints.nil.plain hclose.1).string hname.nul_notMem).plain hopen.1).unsigned
    cause).plain hequals.1 |>.string hkind.nul_notMem).plain htrap.1
  have hfmt : asciiBytes "trap: " ++ (asciiBytes "%s" ++ (asciiBytes " cause=" ++ (asciiBytes "%lu"
      ++ (asciiBytes " <" ++ (asciiBytes "%s" ++ (asciiBytes ">" ++ []))))))
      = asciiBytes "trap: %s cause=%lu <%s>" := by decide
  rw [hfmt] at hprints
  refine ⟨_, hprints, fun h => ?_, ?_⟩
  · simp only [List.mem_append] at h
    rcases h with h | h | h | h | h | h | h | h
    · exact absurd h (by decide)
    · exact hkind.newline_notMem h
    · exact absurd h (by decide)
    · exact (numeral_ne (by decide) (by decide) h).2 rfl
    · exact absurd h (by decide)
    · exact hname.newline_notMem h
    · exact absurd h (by decide)
    · exact absurd h List.not_mem_nil
  · rw [htrap.hexWords_append, hequals.hexWords_between (by decide),
      hopen.hexWords_between (by decide), hclose.hexWords_between (by decide), hkind.2,
      hexWords_numeral, hname.2]
    rfl

/-! ## The panic -/

/-- **The report of a panic** shows the numbers of the message and then the frame. -/
theorem exists_kpanic (tf : TrapFrame) {line : Line} {words : List ℕ} (h : line.Shows words)
    (clock : ℕ → BitVec 64) :
    ∃ log out, kpanic tf line = Handled.panicked log
      ∧ vklogs (log.map Line.call) clock = ok out
      ∧ hexWords out = words ++ dumpFields.map (fun f => (tf f).toNat) := by
  set raw := tf (Field.csr Csr.scause) with hraw
  have hkind : IsName (if raw &&& scauseInterruptBit ≠ 0 then "interrupt" else "exception") := by
    refine .ite ?_ ?_ <;> decide +kernel
  have hname : IsName (if raw &&& scauseInterruptBit ≠ 0
      then trapInterruptName (raw &&& scauseCauseMask)
      else trapExceptionName (raw &&& scauseCauseMask)) :=
    (isName_trapInterruptName _).ite (isName_trapExceptionName _)
  have hmode : Line.Shows ⟨"mode:    %s", [literal (trapModeName tf)]⟩ [] :=
    shows_name (asciiBytes "mode:    ") (isName_trapModeName tf) (by decide) (Or.inr (by decide))
  have hdump := IsDumpLine.shows (isDumpLine_dumpTable tf) isLabel_dumpTable
  have hclose : Line.Shows ⟨"----------------------------------------", []⟩ [] :=
    Line.shows_plain _ (by decide) (by decide)
  have hshows := List.rel_append (.cons (Line.shows_plain "" (by decide) (by decide))
    (.cons (Line.shows_plain "------------[ kernel panic ]------------" (by decide) (by decide))
      (.cons h (.cons (shows_trapLine hkind hname (raw &&& scauseCauseMask)) (.cons hmode hdump)))))
    (.cons hclose .nil)
  obtain ⟨out, hout, hwords⟩ := exists_vklogs hshows clock
  refine ⟨_, out, rfl, hout, ?_⟩
  have hfields : dumpFields.map (fun f => (tf f).toNat)
      = (dumpTable.map (fun fields => fields.map (fun f => (tf f.2).toNat))).flatten := by
    rw [dumpFields, List.map_map, List.map_flatten]
    rfl
  rw [hwords, hfields]
  dsimp only
  rw [List.flatten_append, List.flatten_cons, List.flatten_cons, List.flatten_cons,
    List.flatten_cons, List.flatten_cons]
  simp only [List.nil_append, List.flatten_singleton, List.append_nil]

/-- **The numbers in the message** of `handle_exception`: the addresses of a page fault and
of an illegal instruction. -/
def messageWords (cause sepc stval : Word) : List Word :=
  if cause = 2 then [sepc] else if cause = 12 ∨ cause = 13 ∨ cause = 15 then [sepc, stval] else []

/-- **The `sepc` that is dumped**, which is behind the instruction of an environment call. -/
def dumpedSepc (cause sepc : Word) : Word := if cause = 8 ∨ cause = 9 then sepc + 4 else sepc

/-- **What a report shows** of a frame. -/
def reportWords (tf : TrapFrame) (cause : Word) : List Word :=
  messageWords cause (tf (Field.csr Csr.sepc)) (tf (Field.csr Csr.stval))
    ++ dumpedSepc cause (tf (Field.csr Csr.sepc))
      :: [Csr.sstatus, Csr.scause, Csr.stval].map (fun c => tf (Field.csr c))
    ++ saveOrder.map (fun r => tf (Field.reg r))

/-- Addresses in a message. -/
theorem shows_addresses {fmt : String} {labels : List String} (entries : List (String × Word))
    (hfmt : asciiBytes fmt = entriesFmt bare " " labels)
    (h : ∀ label ∈ labels, IsLabel (asciiBytes label)) (hentries : entries.map Prod.fst = labels) :
    Line.Shows ⟨fmt, entries.map (fun e => Arg.long e.2)⟩ (entries.map (fun e => e.2.toNat)) := by
  subst hentries
  exact Line.shows_entries (Or.inr rfl) (by decide) (by decide) hfmt rfl
    (fun _ he => h _ (List.mem_map_of_mem he))

/-- The line of a cause that is not handled. -/
theorem shows_unhandled (cause : Word) :
    Line.Shows ⟨"unhandled exception cause=%lu", [Arg.long cause]⟩ [] := by
  have hlabel : IsLabel (asciiBytes "unhandled exception cause=") := by decide
  have hprints := (Prints.nil.unsigned cause).plain hlabel.1
  have hfmt : asciiBytes "unhandled exception cause=" ++ (asciiBytes "%lu" ++ [])
      = asciiBytes "unhandled exception cause=%lu" := by decide
  rw [hfmt, List.append_nil] at hprints
  refine ⟨_, hprints, fun h => ?_, ?_⟩
  · rcases List.mem_append.mp h with h | h
    · exact absurd h (by decide)
    · exact (numeral_ne (by decide) (by decide) h).2 rfl
  · rw [hlabel.hexWords_append, hexWords_numeral]

/-- **Every exception is reported**, whatever the cause. -/
theorem exists_handleException (tf : TrapFrame) (cause : Word) (clock : ℕ → BitVec 64) :
    ∃ log out, handleException tf cause = Handled.panicked log
      ∧ vklogs (log.map Line.call) clock = ok out
      ∧ hexWords out = (reportWords tf cause).map BitVec.toNat := by
  unfold handleException reportWords messageWords dumpedSepc
  by_cases h8 : cause = 8
  · subst h8
    exact exists_kpanic (skipEcall tf) (Line.shows_plain _ (by decide) (by decide)) clock
  by_cases h9 : cause = 9
  · subst h9
    exact exists_kpanic (skipEcall tf) (Line.shows_plain _ (by decide) (by decide)) clock
  rw [if_neg h8, if_neg h9, if_neg (not_or.mpr ⟨h8, h9⟩)]
  by_cases h3 : cause = 3
  · subst h3
    exact exists_kpanic tf (Line.shows_plain _ (by decide) (by decide)) clock
  rw [if_neg h3]
  by_cases h2 : cause = 2
  · have hfmt : asciiBytes "illegal instruction at sepc=0x%lx"
        = entriesFmt bare " " ["illegal instruction at sepc="] := by decide +kernel
    have hshows := shows_addresses [("illegal instruction at sepc=", tf (Field.csr Csr.sepc))] hfmt
      (by decide +kernel) rfl
    rw [if_pos h2, if_pos h2]
    exact exists_kpanic tf hshows clock
  rw [if_neg h2, if_neg h2]
  by_cases hfault : cause = 12 ∨ cause = 13 ∨ cause = 15
  · have hfmt : asciiBytes "page fault at sepc=0x%lx fault=0x%lx"
        = entriesFmt bare " " ["page fault at sepc=", "fault="] := by decide +kernel
    have hshows := shows_addresses [("page fault at sepc=", tf (Field.csr Csr.sepc)),
      ("fault=", tf (Field.csr Csr.stval))] hfmt (by decide +kernel) rfl
    rw [if_pos hfault, if_pos hfault]
    exact exists_kpanic tf hshows clock
  rw [if_neg hfault, if_neg hfault]
  split
  · exact exists_kpanic tf (shows_name [] (isName_trapExceptionName cause) (by decide)
      (Or.inl rfl)) clock
  · exact exists_kpanic tf (shows_unhandled cause) clock

/-- The cause of an exception is all of `scause`. -/
theorem scause_of_exception {raw : Word} (h : raw.getLsbD 63 = false) :
    raw &&& scauseInterruptBit = 0 ∧ raw &&& scauseCauseMask = raw := by
  have hbit : scauseInterruptBit = BitVec.twoPow 64 63 := by decide
  constructor
  · rw [hbit, BitVec.and_twoPow, h]
    rfl
  · refine BitVec.eq_of_getLsbD_eq (fun i hi => ?_)
    rw [BitVec.getLsbD_and, scauseCauseMask, hbit, BitVec.getLsbD_not, BitVec.getLsbD_twoPow,
      decide_eq_true hi, Bool.true_and]
    by_cases heq : 63 = i
    · rw [← heq, h, Bool.false_and]
    · rw [decide_eq_true (show 63 < 64 by omega), decide_eq_false heq, Bool.and_false,
        Bool.not_false, Bool.and_true]

/-- **A panic can be read back from its log.** Whatever exception a program has taken, with
whatever in its registers and on the clock, `trap_handler` logs a report, each line with its
time, whose numbers are those of the message and of the frame: `sepc` (behind the instruction,
for an environment call), `sstatus`, `scause` and `stval`, and the general registers of the
program, but for the stack pointer, which is the one of the stub. -/
theorem hexWords_panic {m : Hart} (h : (m.csr Csr.scause).getLsbD 63 = false)
    (clock : ℕ → BitVec 64) :
    ∃ log out n, trapHandler (frameAt (called m).mem ((called m).reg Reg.a0)) = Handled.panicked log
      ∧ vklogs (log.map Line.call) clock = ok out ∧ LogLines (times clock n) out
      ∧ hexWords out
        = (messageWords (m.csr Csr.scause) (m.csr Csr.sepc) (m.csr Csr.stval)
          ++ dumpedSepc (m.csr Csr.scause) (m.csr Csr.sepc)
            :: [Csr.sstatus, Csr.scause, Csr.stval].map m.csr
          ++ saveOrder.map (fun r => if r = Reg.sp then frameBase m else m.reg r)).map
            BitVec.toNat := by
  rw [called_a0]
  set tf := frameAt (called m).mem (frameBase m) with htf
  have hcsr : (fun c => tf (Field.csr c)) = m.csr := funext (called_frame_csr m)
  have hreg : (fun r => tf (Field.reg r))
      = fun r => if r = Reg.sp then frameBase m else m.reg r := by
    funext r
    by_cases hr : r = Reg.sp
    · rw [if_pos hr, hr]
      exact called_frame_sp m
    · rw [if_neg hr]
      exact called_frame_reg hr
  obtain ⟨hinterrupt, hcause⟩ := scause_of_exception h
  obtain ⟨log, out, hlog, hout, hwords⟩ := exists_handleException tf (m.csr Csr.scause) clock
  obtain ⟨n, hlines⟩ := exists_logLines hout
  refine ⟨log, out, n, ?_, hout, hlines, ?_⟩
  · rw [trapHandler, congrFun hcsr Csr.scause, if_neg (not_not.mpr hinterrupt), hcause]
    exact hlog
  · rw [hwords, reportWords, hreg, hcsr, congrFun hcsr Csr.sepc, congrFun hcsr Csr.stval]

/-- A program that loads from an address that is not mapped. -/
def faulting : Hart :=
  ⟨fun r => if r = Reg.sp then 0x1000 else 0x2a,
    fun | Csr.sstatus => 0x100 | Csr.sepc => 0x80200000 | Csr.scause => 13 | Csr.stval => 0xdead000,
    fun _ => 0, 0, true⟩

/-- **The report of a page fault.** -/
theorem hexWords_panic_faulting :
    ∃ log out n, trapHandler (frameAt (called faulting).mem ((called faulting).reg Reg.a0))
        = Handled.panicked log
      ∧ vklogs (log.map Line.call) (fun n => BitVec.ofNat 64 (7 * n)) = ok out
      ∧ LogLines (times (fun n => BitVec.ofNat 64 (7 * n)) n) out
      ∧ hexWords out = [0x80200000, 0xdead000, 0x80200000, 0x100, 13, 0xdead000, 0x2a, 0xee0]
        ++ List.replicate 29 0x2a :=
  hexWords_panic (m := faulting) (by decide) _

end Trap
