import Risky.Printk
import Risky.CPrintf

/-!
# The digits of a number

`emit_unsigned` and `emit_raw_unsigned` divide a value by the base until nothing is
left, and emit the remainders from the last one on. What they emit is the digits of the
value (`baseDigits`, which are those of `Nat.digits` the other way round), so that reading
the characters back gives the value (`Printk.IsNumeral`).
-/

/-- **The digits of a number in a base**, the most significant first; zero has one. -/
def baseDigits (base n : ℕ) : List ℕ := if n = 0 then [0] else (Nat.digits base n).reverse

section BaseDigits

variable {base n d : ℕ}

theorem baseDigits_zero (base : ℕ) : baseDigits base 0 = [0] := if_pos rfl

theorem baseDigits_of_ne (hn : n ≠ 0) : baseDigits base n = (Nat.digits base n).reverse := if_neg hn

/-- A number below the base is its own digit. -/
theorem baseDigits_of_lt (h : n < base) : baseDigits base n = [n] := by
  by_cases hn : n = 0
  · rw [hn, baseDigits_zero]
  · rw [baseDigits_of_ne hn, Nat.digits_of_lt base n hn h]
    rfl

/-- The last digit is the remainder, and the quotient has the other digits. -/
theorem baseDigits_of_le (hbase : 1 < base) (h : base ≤ n) :
    baseDigits base n = baseDigits base (n / base) ++ [n % base] := by
  have hdiv : n / base ≠ 0 := (Nat.div_pos h (by omega)).ne'
  rw [baseDigits_of_ne (by omega), baseDigits_of_ne hdiv,
    Nat.digits_eq_cons_digits_div hbase (by omega), List.reverse_cons]

theorem lt_base_of_mem (hbase : 1 < base) (hd : d ∈ baseDigits base n) : d < base := by
  by_cases hn : n = 0
  · rw [hn, baseDigits_zero, List.mem_singleton] at hd
    omega
  · rw [baseDigits_of_ne hn, List.mem_reverse] at hd
    exact Nat.digits_lt_base hbase hd

/-- **Reading the digits back.** -/
theorem foldl_baseDigits (base n : ℕ) :
    (baseDigits base n).foldl (fun v d => base * v + d) 0 = n := by
  by_cases hn : n = 0
  · rw [hn, baseDigits_zero]
    rfl
  have hswap : ∀ l : List ℕ, l.foldr (fun d v => base * v + d) 0 = Nat.ofDigits base l := by
    intro l
    rw [Nat.ofDigits_eq_foldr]
    refine congrArg (fun f => l.foldr f 0) ?_
    funext d v
    exact Nat.add_comm _ _
  rw [baseDigits_of_ne hn, List.foldl_reverse, hswap, Nat.ofDigits_digits]

/-- **Only zero begins with the digit 0.** -/
theorem head?_baseDigits (hn : n ≠ 0) : (baseDigits base n).head? ≠ some 0 := by
  have hne : Nat.digits base n ≠ [] := Nat.digits_ne_nil_iff_ne_zero.mpr hn
  rw [baseDigits_of_ne hn, List.head?_reverse, List.getLast?_eq_some_getLast hne]
  exact fun h => Nat.getLast_digit_ne_zero base hn (Option.some.inj h)

theorem length_baseDigits_le {k : ℕ} (hbase : 1 < base) (hk : 0 < k) (hn : n < base ^ k) :
    (baseDigits base n).length ≤ k := by
  by_cases hzero : n = 0
  · rw [hzero, baseDigits_zero]
    exact hk
  · rw [baseDigits_of_ne hzero, List.length_reverse]
    exact (Nat.digits_length_le_iff hbase n).mpr hn

end BaseDigits

namespace Printk

open CPrintf

/-! ## Numerals -/

namespace State

theorem digit_eq (uppercase : Bool) {d : ℕ} (hd : d < 16) :
    digit uppercase d
      = (if uppercase then (Nat.digitChar d).toUpper else Nat.digitChar d).toUInt8 := by
  cases uppercase <;> interval_cases d <;> rfl

end State

/-- A digit is neither NUL nor a newline. -/
theorem digit_ne (uppercase : Bool) {d : ℕ} (hd : d < 16) :
    State.digit uppercase d ≠ 0 ∧ State.digit uppercase d ≠ ascii '\n' := by
  cases uppercase <;> interval_cases d <;> decide

/-- **The numeral consists of the characters of the digits.** -/
theorem numeral_eq_map {base : ℕ} (hbase : 1 < base) (hbase' : base ≤ 16) (uppercase : Bool)
    (n : ℕ) : numeral base uppercase n = (baseDigits base n).map (State.digit uppercase) := by
  induction n using Nat.strong_induction_on with
  | _ n ih =>
    rw [numeral, Nat.toDigits_eq_if hbase]
    by_cases hlt : n < base
    · rw [if_pos hlt, baseDigits_of_lt hlt, List.map_singleton, List.map_singleton,
        State.digit_eq uppercase (by omega)]
    · have hmod : n % base < 16 := (Nat.mod_lt n (by omega)).trans_le hbase'
      have hdiv := ih (n / base) (Nat.div_lt_self (by omega) hbase)
      rw [numeral] at hdiv
      rw [if_neg hlt, List.map_append, hdiv, baseDigits_of_le hbase (not_lt.mp hlt),
        List.map_append, List.map_singleton, List.map_singleton, State.digit_eq uppercase hmod]

/-- **A numeral consists of digits.** -/
theorem exists_digit_of_mem_numeral {base : ℕ} (hbase : 1 < base) (hbase' : base ≤ 16)
    {uppercase : Bool} {n : ℕ} {c : UInt8} (h : c ∈ numeral base uppercase n) :
    ∃ d < 16, c = State.digit uppercase d := by
  rw [numeral_eq_map hbase hbase'] at h
  obtain ⟨d, hd, rfl⟩ := List.mem_map.mp h
  exact ⟨d, (lt_base_of_mem hbase hd).trans_le hbase', rfl⟩

theorem numeral_ne {base : ℕ} (hbase : 1 < base) (hbase' : base ≤ 16) {uppercase : Bool} {n : ℕ}
    {c : UInt8} (h : c ∈ numeral base uppercase n) : c ≠ 0 ∧ c ≠ ascii '\n' := by
  obtain ⟨d, hd, rfl⟩ := exists_digit_of_mem_numeral hbase hbase' h
  exact digit_ne uppercase hd

theorem length_numeral_le {base : ℕ} (hbase : 1 < base) (hbase' : base ≤ 16) (uppercase : Bool)
    (value : BitVec 64) : (numeral base uppercase value.toNat).length ≤ 64 := by
  rw [numeral_eq_map hbase hbase', List.length_map]
  exact length_baseDigits_le hbase (by omega)
    (value.isLt.trans_le (Nat.pow_le_pow_left hbase 64))

/-! ## The loop -/

namespace State

/-- **The buffer has room** for the numeral. -/
theorem digitsLoop_eq {base : ℕ} (hbase : 1 < base) (hbase' : base ≤ 16) (uppercase : Bool)
    (room : ℕ) {n : ℕ} (hn : n < base ^ (room + 1)) (buffer : List UInt8) :
    digitsLoop base uppercase (room + 1) n buffer
      = Outcome.ok (numeral base uppercase n ++ buffer) := by
  rw [numeral_eq_map hbase hbase']
  induction room generalizing n buffer with
  | zero =>
    rw [zero_add, pow_one] at hn
    rw [digitsLoop, if_neg (by rw [Nat.div_eq_of_lt hn]; simp), Nat.mod_eq_of_lt hn,
      baseDigits_of_lt hn]
    rfl
  | succ room ih =>
    rw [digitsLoop]
    by_cases hlt : n < base
    · rw [if_neg (by rw [Nat.div_eq_of_lt hlt]; simp), Nat.mod_eq_of_lt hlt, baseDigits_of_lt hlt]
      rfl
    · have hdiv : n / base < base ^ (room + 1) := Nat.div_lt_of_lt_mul (by rwa [pow_succ'] at hn)
      rw [if_pos (Nat.div_pos (not_lt.mp hlt) (by omega)).ne', ih hdiv,
        baseDigits_of_le hbase (not_lt.mp hlt), List.map_append, List.append_assoc]
      rfl

/-- A 64-bit value fits the buffer. -/
theorem digitsLoop_value {base : ℕ} (hbase : 1 < base) (hbase' : base ≤ 16) (uppercase : Bool)
    (value : BitVec 64) :
    digitsLoop base uppercase 64 value.toNat []
      = Outcome.ok (numeral base uppercase value.toNat) := by
  have hroom : value.toNat < base ^ (63 + 1) :=
    value.isLt.trans_le (Nat.pow_le_pow_left hbase _)
  rw [digitsLoop_eq hbase hbase' uppercase 63 hroom, List.append_nil]

end State

/-! ## Reading a numeral back -/

/-- The value of a character as a digit, in either case. -/
def digitValue (c : UInt8) : ℕ :=
  if c ≤ ascii '9' then c.toNat - (ascii '0').toNat
  else if c ≤ ascii 'F' then c.toNat - (ascii 'A').toNat + 10
  else c.toNat - (ascii 'a').toNat + 10

theorem digitValue_digit (uppercase : Bool) {d : ℕ} (hd : d < 16) :
    digitValue (State.digit uppercase d) = d := by
  cases uppercase <;> interval_cases d <;> rfl

/-- The number that some characters are read as. -/
def readNumeral (base : ℕ) (cs : List UInt8) : ℕ :=
  cs.foldl (fun v c => base * v + digitValue c) 0

/-- **A numeral of a number**: digits that are read as the number, the first of which
is not `0` unless there is only one. -/
structure IsNumeral (base : ℕ) (uppercase : Bool) (n : ℕ) (cs : List UInt8) : Prop where
  digits : ∀ c ∈ cs, ∃ d < base, c = State.digit uppercase d
  zero : n = 0 → cs = [ascii '0']
  leading : n ≠ 0 → cs.head? ≠ some (ascii '0')
  value : readNumeral base cs = n

theorem isNumeral_numeral {base : ℕ} (hbase : 1 < base) (hbase' : base ≤ 16) (uppercase : Bool)
    (n : ℕ) : IsNumeral base uppercase n (numeral base uppercase n) := by
  rw [numeral_eq_map hbase hbase']
  have hlt : ∀ d ∈ baseDigits base n, d < 16 :=
    fun d hd => (lt_base_of_mem hbase hd).trans_le hbase'
  constructor
  · intro c hc
    obtain ⟨d, hd, rfl⟩ := List.mem_map.mp hc
    exact ⟨d, lt_base_of_mem hbase hd, rfl⟩
  · intro hn
    rw [hn, baseDigits_zero]
    cases uppercase <;> rfl
  · intro hn hhead
    rw [List.head?_map] at hhead
    obtain ⟨d, hd, hzero⟩ := Option.map_eq_some_iff.mp hhead
    have hvalue := digitValue_digit uppercase (hlt d (List.mem_of_head? hd))
    rw [hzero] at hvalue
    exact head?_baseDigits hn (hvalue ▸ hd)
  · -- each character is read as the digit that it is for
    rw [readNumeral, List.foldl_map]
    refine Eq.trans ?_ (foldl_baseDigits base n)
    refine List.foldl_ext _ _ 0 (fun v d hd => ?_)
    rw [digitValue_digit uppercase (hlt d hd)]

end Printk
