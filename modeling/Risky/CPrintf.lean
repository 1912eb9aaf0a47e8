import Risky.CString

/-!
# C's `printf`

What the `printf` of ISO C prints, for formats of ordinary characters, `%%`, the
conversions `d`, `i`, `u`, `x` and `X` with a flag `0`, a width and a length
modifier, and the conversions `c` and `s` with a width. A format is a list of
directives (`Directive`), each with the argument that it converts, so that only
formats and arguments that the standard defines can be written down:
`Directive.spell` is the text of a directive and `Directive.output` the characters
that it prints.

The last section is about two ways to print the same directives. Where the one
falls behind by blanks only, it never catches up, so that the two outputs are
equal exactly where they are equal directive by directive
(`flatMap_eq_flatMap_iff`).
-/

namespace CPrintf

/-! ## Numerals -/

/-- The numeral of a number. -/
def numeral (base : ℕ) (uppercase : Bool) (n : ℕ) : List UInt8 :=
  (Nat.toDigits base n).map (fun c => (if uppercase then c.toUpper else c).toUInt8)

/-- The leading digit of a positive number is not zero. -/
theorem exists_toDigits_eq_cons {n : ℕ} (hn : 0 < n) :
    ∃ d cs, 0 < d ∧ d < 10 ∧ Nat.toDigits 10 n = Nat.digitChar d :: cs := by
  induction n using Nat.strong_induction_on with
  | _ n ih =>
    by_cases hlt : n < 10
    · exact ⟨n, [], hn, hlt, Nat.toDigits_of_lt_base hlt⟩
    · obtain ⟨d, cs, hd, hd', hcs⟩ := ih (n / 10) (by omega) (by omega)
      refine ⟨d, cs ++ [Nat.digitChar (n % 10)], hd, hd', ?_⟩
      rw [Nat.toDigits_of_base_le (by omega) (by omega), hcs]
      rfl

/-- **The decimal numeral of a positive number** begins neither with `0` nor with
a blank. -/
theorem exists_numeral_eq_cons {n : ℕ} (hn : 0 < n) :
    ∃ c cs, numeral 10 false n = c :: cs ∧ c ≠ '0'.toUInt8 ∧ c ≠ ' '.toUInt8 := by
  obtain ⟨d, cs, hd, hd', hcs⟩ := exists_toDigits_eq_cons hn
  refine ⟨(Nat.digitChar d).toUInt8, cs.map Char.toUInt8, ?_, ?_⟩
  · rw [numeral, hcs]
    rfl
  · interval_cases d <;> decide

/-! ## Directives -/

/-- The value of decimal digits that follow others. -/
def decimalValue (v : ℕ) (digits : List (Fin 10)) : ℕ :=
  digits.foldl (fun v (d : Fin 10) => 10 * v + d.val) v

/-- The character of a decimal digit. -/
def digitCode (d : Fin 10) : UInt8 := (Nat.digitChar d).toUInt8

/-- **The flag `0` and the width**. A digit `0` that begins the width is a flag. -/
structure Field where
  /-- Is there a flag `0`? -/
  zero : Bool
  /-- The digits of the width, if there is one. -/
  digits : List (Fin 10)
  /-- A flag is seen as a flag. -/
  flag : zero = false → digits.head? ≠ some 0
  /-- The width is an `int`. -/
  width_lt : decimalValue 0 digits < 2 ^ 31

namespace Field

/-- The width. -/
def width (f : Field) : ℕ := decimalValue 0 f.digits

/-- The text of the flag and the width. -/
def spell (f : Field) : List UInt8 :=
  (if f.zero then ['0'.toUInt8] else []) ++ f.digits.map digitCode

/-- **Padding to the width**: zeros between the sign and the rest, or blanks before
both. -/
def justify (f : Field) (sign body : List UInt8) : List UInt8 :=
  if f.zero then
    sign ++ List.replicate (f.width - (sign.length + body.length)) '0'.toUInt8 ++ body
  else List.replicate (f.width - (sign.length + body.length)) ' '.toUInt8 ++ sign ++ body

/-- What reaches the width is not padded. -/
theorem justify_of_le {f : Field} {sign body : List UInt8}
    (h : f.width ≤ sign.length + body.length) : f.justify sign body = sign ++ body := by
  unfold justify
  rw [Nat.sub_eq_zero_of_le h]
  split
  · rw [List.replicate_zero, List.append_nil]
  · rfl

/-- A conversion fills its width. -/
theorem length_justify (f : Field) (sign body : List UInt8) :
    (f.justify sign body).length = max f.width (sign.length + body.length) := by
  unfold justify
  split <;> simp <;> omega

end Field

/-- **A length modifier**. -/
inductive Modifier where
  | none
  | hh
  | h
  | l
  | ll
  | z
  | t
  deriving DecidableEq, Repr

namespace Modifier

/-- The text of a modifier. -/
def spell : Modifier → List UInt8
  | none => []
  | hh => asciiBytes "hh"
  | h => asciiBytes "h"
  | l => asciiBytes "l"
  | ll => asciiBytes "ll"
  | z => asciiBytes "z"
  | t => asciiBytes "t"

/-- What follows the width: the modifier, or what stands in its place. -/
theorem exists_cons_of_spell {P : UInt8 → Prop} (m : Modifier) {c : UInt8} (hc : m = none → P c)
    (hh : P 'h'.toUInt8) (hl : P 'l'.toUInt8) (hz : P 'z'.toUInt8) (ht : P 't'.toUInt8)
    (fmt : List UInt8) : ∃ c' fmt', m.spell ++ c :: fmt = c' :: fmt' ∧ P c' := by
  cases m with
  | none => exact ⟨c, fmt, rfl, hc rfl⟩
  | hh => exact ⟨_, _, rfl, hh⟩
  | h => exact ⟨_, _, rfl, hh⟩
  | l => exact ⟨_, _, rfl, hl⟩
  | ll => exact ⟨_, _, rfl, hl⟩
  | z => exact ⟨_, _, rfl, hz⟩
  | t => exact ⟨_, _, rfl, ht⟩

/-- The size in bits of the type that a modifier names. -/
def bits : Modifier → ℕ
  | none => 32
  | hh => 8
  | h => 16
  | l | ll | z | t => 64

/-- The size in bits of an argument of that type, which is at least an `int`. -/
def argBits : Modifier → ℕ
  | none | hh | h => 32
  | l | ll | z | t => 64

end Modifier

/-- **An integer conversion**. -/
inductive IntConversion where
  | d
  | i
  | u
  | x
  | X
  deriving DecidableEq, Repr

namespace IntConversion

variable {m : Modifier}

/-- The conversion character. -/
def letter : IntConversion → UInt8
  | d => 'd'.toUInt8
  | i => 'i'.toUInt8
  | u => 'u'.toUInt8
  | x => 'x'.toUInt8
  | X => 'X'.toUInt8

/-- Is the argument printed as a negative number? -/
def negative (conv : IntConversion) (arg : BitVec m.argBits) : Bool :=
  match conv with
  | d | i => decide ((arg.setWidth m.bits).toInt < 0)
  | u | x | X => false

/-- The sign that is printed. -/
def sign (conv : IntConversion) (arg : BitVec m.argBits) : List UInt8 :=
  if conv.negative arg then ['-'.toUInt8] else []

/-- The digits that are printed. -/
def body (conv : IntConversion) (arg : BitVec m.argBits) : List UInt8 :=
  match conv with
  | d | i => numeral 10 false (arg.setWidth m.bits).toInt.natAbs
  | u => numeral 10 false (arg.setWidth m.bits).toNat
  | x => numeral 16 false (arg.setWidth m.bits).toNat
  | X => numeral 16 true (arg.setWidth m.bits).toNat

/-- The digits after a sign begin neither with `0` nor with a blank. -/
theorem exists_body_eq_cons {conv : IntConversion} {arg : BitVec m.argBits}
    (h : conv.negative arg = true) :
    ∃ c cs, conv.body arg = c :: cs ∧ c ≠ '0'.toUInt8 ∧ c ≠ ' '.toUInt8 := by
  have hneg : (arg.setWidth m.bits).toInt < 0 → 0 < (arg.setWidth m.bits).toInt.natAbs :=
    fun h => Int.natAbs_pos.mpr (by omega)
  cases conv with
  | d => exact exists_numeral_eq_cons (hneg (of_decide_eq_true h))
  | i => exact exists_numeral_eq_cons (hneg (of_decide_eq_true h))
  | u => cases h
  | x => cases h
  | X => cases h

end IntConversion

/-- **A directive of a format**, with its argument. -/
inductive Directive where
  /-- A character that is printed as it is. -/
  | ordinary (c : UInt8) (hpercent : c ≠ '%'.toUInt8) (hnul : c ≠ 0)
  /-- `%%`. -/
  | percent
  /-- A conversion of an integer. -/
  | integer (f : Field) (m : Modifier) (conv : IntConversion) (arg : BitVec m.argBits)
  /-- `%c`, which has no flag. -/
  | char (f : Field) (hf : f.zero = false) (arg : BitVec 32)
  /-- `%s`, which has no flag. -/
  | string (f : Field) (hf : f.zero = false) (s : CString)

namespace Directive

/-- The text of a directive. -/
def spell : Directive → List UInt8
  | ordinary c _ _ => [c]
  | percent => asciiBytes "%%"
  | integer f m conv _ => '%'.toUInt8 :: (f.spell ++ m.spell ++ [conv.letter])
  | char f _ _ => '%'.toUInt8 :: (f.spell ++ asciiBytes "c")
  | string f _ _ => '%'.toUInt8 :: (f.spell ++ asciiBytes "s")

/-- **What a directive prints**. -/
def output : Directive → List UInt8
  | ordinary c _ _ => [c]
  | percent => asciiBytes "%"
  | integer f _ conv arg => f.justify (conv.sign arg) (conv.body arg)
  | char f _ arg => f.justify [] [UInt8.ofBitVec (arg.setWidth 8)]
  | string f _ s => f.justify [] s.chars

/-- The width of a directive, if it has one. -/
def width : Directive → ℕ
  | ordinary _ _ _ => 0
  | percent => 0
  | integer f _ _ _ => f.width
  | char f _ _ => f.width
  | string f _ _ => f.width

/-- What a directive prints without its width. -/
def natural : Directive → List UInt8
  | ordinary c _ _ => [c]
  | percent => asciiBytes "%"
  | integer _ _ conv arg => conv.sign arg ++ conv.body arg
  | char _ _ arg => [UInt8.ofBitVec (arg.setWidth 8)]
  | string _ _ s => s.chars

/-- **A directive fills its width** and prints all of its argument. -/
theorem length_output (d : Directive) : d.output.length = max d.width d.natural.length := by
  cases d with
  | ordinary c hpercent hnul => rfl
  | percent => rfl
  | integer f m conv arg =>
    rw [output, Field.length_justify, natural, List.length_append]
    rfl
  | char f hf arg => exact (f.length_justify [] _).trans (by rw [List.length_nil, zero_add]; rfl)
  | string f hf s => exact (f.length_justify [] _).trans (by rw [List.length_nil, zero_add]; rfl)

end Directive

/-! ## Newlines -/

/-- The output as a terminal needs it, with a carriage return before each newline. -/
def expand (s : List UInt8) : List UInt8 :=
  s.flatMap (fun c => if c = '\n'.toUInt8 then asciiBytes "\r\n" else [c])

theorem expand_append (s t : List UInt8) : expand (s ++ t) = expand s ++ expand t :=
  List.flatMap_append

theorem expand_ne_newline_cons (s t : List UInt8) : expand s ≠ '\n'.toUInt8 :: t := by
  cases s with
  | nil => exact (List.cons_ne_nil _ _).symm
  | cons c s =>
    intro h
    rw [expand, List.flatMap_cons] at h
    split at h
    · exact absurd (List.cons.inj h).1 (by decide)
    · next hc => exact hc (List.cons.inj h).1

/-- **No output is lost**: what is expanded can be told from the result. -/
theorem expand_injective : Function.Injective expand := by
  intro s t h
  induction s generalizing t with
  | nil =>
    cases t with
    | nil => rfl
    | cons d t =>
      rw [expand, expand, List.flatMap_cons] at h
      split at h <;> exact absurd h.symm (List.cons_ne_nil _ _)
  | cons c s ih =>
    cases t with
    | nil =>
      rw [expand, expand, List.flatMap_cons] at h
      split at h <;> exact absurd h (List.cons_ne_nil _ _)
    | cons d t =>
      rw [expand, expand, List.flatMap_cons, List.flatMap_cons] at h
      split at h <;> split at h
      · next hc hd =>
        rw [hc, hd, ih (List.append_cancel_left h)]
      · exact absurd (List.cons.inj h).2.symm (expand_ne_newline_cons t _)
      · exact absurd (List.cons.inj h).2 (expand_ne_newline_cons s _)
      · obtain rfl := (List.cons.inj h).1
        rw [ih (List.append_cancel_left h)]

/-! ## Outputs that fall behind -/

section Behind

variable {ι α : Type} [DecidableEq α] {blank : α} {xs ys : List α}

/-- The number of blanks that a list begins with. -/
def blanks (blank : α) : List α → ℕ
  | [] => 0
  | c :: xs => if c = blank then blanks blank xs + 1 else 0

theorem blanks_cons_of_ne {c : α} (hc : c ≠ blank) (xs : List α) : blanks blank (c :: xs) = 0 :=
  if_neg hc

theorem blanks_replicate_append (n : ℕ) (xs : List α) :
    blanks blank (List.replicate n blank ++ xs) = n + blanks blank xs := by
  induction n with
  | zero => exact (Nat.zero_add _).symm
  | succ n ih =>
    rw [List.replicate_succ, List.cons_append, blanks, if_pos rfl, ih]
    omega

/-- The same characters in front keep the order. -/
theorem blanks_append_le (zs : List α) (h : blanks blank xs ≤ blanks blank ys) :
    blanks blank (zs ++ xs) ≤ blanks blank (zs ++ ys) := by
  induction zs with
  | nil => exact h
  | cons c zs ih =>
    rw [List.cons_append, List.cons_append, blanks, blanks]
    split
    · exact Nat.succ_le_succ ih
    · exact le_rfl

omit [DecidableEq α] in
/-- One more of what the padding consists of is not made up for. -/
theorem replicate_succ_append_ne {c d : α} (hc : c ≠ d) (k : ℕ) (xs ys : List α) :
    List.replicate (k + 1) d ++ xs ≠ List.replicate k d ++ c :: ys := by
  intro h
  rw [List.replicate_succ', List.append_assoc] at h
  exact hc (List.cons.inj (List.append_cancel_left h)).1.symm

/-- **Two outputs agree where they agree piece by piece**, if no piece of the first
brings it ahead in blanks, and if a piece that is wrong cannot be made up for by
what follows and is not ahead in blanks. -/
theorem flatMap_eq_flatMap_iff {a b : ι → List α} {P : ι → Prop} (blank : α)
    (heq : ∀ i, P i → a i = b i)
    (hle : ∀ i xs ys, blanks blank xs ≤ blanks blank ys →
      blanks blank (a i ++ xs) ≤ blanks blank (b i ++ ys))
    (hne : ∀ i xs ys, ¬ P i → blanks blank xs ≤ blanks blank ys → a i ++ xs ≠ b i ++ ys)
    (is : List ι) : is.flatMap a = is.flatMap b ↔ ∀ i ∈ is, P i := by
  have hblanks : ∀ is : List ι, blanks blank (is.flatMap a) ≤ blanks blank (is.flatMap b) := by
    intro is
    induction is with
    | nil => exact le_rfl
    | cons i is ih => exact hle i _ _ ih
  induction is with
  | nil => simp
  | cons i is ih =>
    rw [List.flatMap_cons, List.flatMap_cons, List.forall_mem_cons]
    constructor
    · intro h
      have hi : P i := by
        by_contra hi
        exact hne i _ _ hi (hblanks is) h
      rw [heq i hi] at h
      exact ⟨hi, ih.mp (List.append_cancel_left h)⟩
    · rintro ⟨hi, his⟩
      rw [heq i hi, ih.mpr his]

end Behind

end CPrintf
