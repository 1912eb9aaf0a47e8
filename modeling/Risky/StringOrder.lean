import Risky.CString

/-!
# Comparing strings

`strcmp` and `memcmp` of `lib/string.c` compare byte by byte and stop at the first that
differ. Both are the lexicographic order, in which a string is before those it begins:
`memcmp` on regions of one length (`CString.memcmp_eq_lexSign`), `strcmp` on strings of any
lengths. A string's NUL is below every character, so `strcmp` is what `memcmp` makes of the
bytes up to the first NUL of either (`CString.strcmp_spec`).
-/

/-- `memcmp`, or `none` if it reads on behind the memory. -/
def memcmp : List UInt8 → List UInt8 → ℕ → Option ℤ
  | _, _, 0 => some 0
  | c₁ :: s₁, c₂ :: s₂, n + 1 =>
    if c₁ ≠ c₂ then some (if c₁ < c₂ then -1 else 1) else memcmp s₁ s₂ n
  | _, _, _ + 1 => none

namespace CString

variable {s t : CString} {mem mem' : List UInt8} {c d : UInt8} {l l' : List UInt8} {n : ℕ}

/-- **The sign of a comparison** in the lexicographic order. -/
def lexSign (l l' : List UInt8) : ℤ := if l < l' then -1 else if l' < l then 1 else 0

theorem lexSign_nil : lexSign [] [] = 0 := by decide

theorem lexSign_cons_self : lexSign (c :: l) (c :: l') = lexSign l l' := by
  unfold lexSign
  simp only [List.cons_lt_cons_self]

theorem lexSign_cons_of_ne (h : c ≠ d) : lexSign (c :: l) (d :: l') = if c < d then -1 else 1 := by
  unfold lexSign
  by_cases hlt : c < d
  · rw [if_pos (List.cons_lt_cons_iff.mpr (Or.inl hlt)), if_pos hlt]
  · have hgt : d < c := by
      rcases UInt8.lt_or_lt_of_ne h with h | h
      · exact absurd h hlt
      · exact h
    rw [if_neg hlt, if_neg, if_pos (List.cons_lt_cons_iff.mpr (Or.inl hgt))]
    intro h'
    rcases List.cons_lt_cons_iff.mp h' with h' | h'
    · exact hlt h'
    · exact h h'.1

theorem lexSign_self : lexSign l l = 0 := by
  unfold lexSign
  rw [if_neg (List.lt_irrefl l), if_neg (List.lt_irrefl l)]

theorem lexSign_nil_cons : lexSign [] (c :: l) = -1 := if_pos (List.nil_lt_cons c l)

theorem lexSign_cons_nil : lexSign (c :: l) [] = 1 := by
  unfold lexSign
  rw [if_neg (List.not_lt_nil _), if_pos (List.nil_lt_cons c l)]

/-- **Any two lists are in order**, one way or the other, or the same. -/
theorem lt_or_eq_or_lt (l l' : List UInt8) : l < l' ∨ l = l' ∨ l' < l := by
  induction l generalizing l' with
  | nil =>
    cases l' with
    | nil => exact Or.inr (Or.inl rfl)
    | cons d l' => exact Or.inl (List.nil_lt_cons d l')
  | cons c l ih =>
    cases l' with
    | nil => exact Or.inr (Or.inr (List.nil_lt_cons c l))
    | cons d l' =>
      by_cases hcd : c = d
      · subst hcd
        simp only [List.cons_lt_cons_self, List.cons.injEq, true_and]
        exact ih l'
      · rcases UInt8.lt_or_lt_of_ne hcd with h | h
        · exact Or.inl (List.cons_lt_cons_iff.mpr (Or.inl h))
        · exact Or.inr (Or.inr (List.cons_lt_cons_iff.mpr (Or.inl h)))

/-- The sign tells the three cases apart. -/
theorem lexSign_cases (l l' : List UInt8) :
    (lexSign l l' = -1 ↔ l < l') ∧ (lexSign l l' = 0 ↔ l = l') ∧ (lexSign l l' = 1 ↔ l' < l) := by
  rcases lt_or_eq_or_lt l l' with h | rfl | h
  · have hsign : lexSign l l' = -1 := if_pos h
    have hne : l ≠ l' := fun heq => List.lt_irrefl l (heq ▸ h)
    exact ⟨iff_of_true hsign h, iff_of_false (by omega) hne,
      iff_of_false (by omega) (List.lt_asymm h)⟩
  · have hsign : lexSign l l = 0 := lexSign_self
    have hirrefl : ¬ l < l := List.lt_irrefl l
    exact ⟨iff_of_false (by omega) hirrefl, iff_of_true hsign rfl,
      iff_of_false (by omega) hirrefl⟩
  · have hsign : lexSign l l' = 1 := by
      unfold lexSign
      rw [if_neg (List.lt_asymm h), if_pos h]
    have hne : l ≠ l' := fun heq => List.lt_irrefl l' (heq ▸ h)
    exact ⟨iff_of_false (by omega) (List.lt_asymm h), iff_of_false (by omega) hne,
      iff_of_true hsign h⟩

/-! ## The functions -/

/-- **`memcmp` is the lexicographic order** of two regions of one length. -/
theorem memcmp_eq_lexSign (h : n ≤ mem.length) (h' : n ≤ mem'.length) :
    memcmp mem mem' n = some (lexSign (mem.take n) (mem'.take n)) := by
  induction n generalizing mem mem' with
  | zero => rw [memcmp, List.take_zero, List.take_zero, lexSign_nil]
  | succ n ih =>
    cases mem with
    | nil => exact absurd h (by simp)
    | cons c mem =>
      cases mem' with
      | nil => exact absurd h' (by simp)
      | cons d mem' =>
        rw [memcmp, List.take_succ_cons, List.take_succ_cons]
        by_cases hcd : c = d
        · subst hcd
          rw [if_neg (not_not.mpr rfl), lexSign_cons_self,
            ih (Nat.le_of_succ_le_succ h) (Nat.le_of_succ_le_succ h')]
        · rw [if_pos hcd, lexSign_cons_of_ne hcd]

/-- **`strcmp` is the lexicographic order** of two strings. -/
theorem strcmp_eq_lexSign (hs : s.bytes <+: mem) (ht : t.bytes <+: mem') :
    strcmp mem mem' = some (lexSign s.chars t.chars) := by
  induction mem generalizing mem' s t with
  | nil => exact absurd (List.prefix_nil.mp hs) (by simp [bytes])
  | cons c mem ih =>
    cases mem' with
    | nil => exact absurd (List.prefix_nil.mp ht) (by simp [bytes])
    | cons d mem' =>
      rw [strcmp]
      rcases bytes_prefix_cons.mp hs with ⟨hc, hs⟩ | ⟨hc, s', hs, hs'⟩ <;>
        rcases bytes_prefix_cons.mp ht with ⟨hd, ht⟩ | ⟨hd, t', ht, ht'⟩
      · rw [if_neg (fun h => h.1 hc), if_pos (hc.trans hd.symm), hs, ht, lexSign_nil]
      · rw [if_neg (fun h => h.1 hc), if_neg (fun h => hd (h.symm.trans hc)), if_pos hc, hs, ht,
          lexSign_nil_cons]
      · rw [if_neg (fun h => h.2 hd), if_neg (fun h => hc (h.trans hd)), if_neg hc, hs, ht,
          lexSign_cons_nil]
      · rw [if_pos ⟨hc, hd⟩, hs, ht]
        by_cases hcd : c = d
        · subst hcd
          rw [if_neg (not_not.mpr rfl), lexSign_cons_self, ih hs' ht']
        · rw [if_pos hcd, lexSign_cons_of_ne hcd]

/-- Up to the first NUL of either, `memcmp` sees what `strcmp` does. -/
theorem memcmp_eq_strcmp (hs : s.bytes <+: mem) (ht : t.bytes <+: mem') :
    memcmp mem mem' (min s.length t.length + 1) = strcmp mem mem' := by
  induction mem generalizing mem' s t with
  | nil => exact absurd (List.prefix_nil.mp hs) (by simp [bytes])
  | cons c mem ih =>
    cases mem' with
    | nil => exact absurd (List.prefix_nil.mp ht) (by simp [bytes])
    | cons d mem' =>
      by_cases hcd : c = d
      · subst hcd
        have hstep : ∀ n, memcmp (c :: mem) (c :: mem') (n + 1) = memcmp mem mem' n :=
          fun n => if_neg (not_not.mpr rfl)
        rw [hstep, strcmp]
        rcases bytes_prefix_cons.mp hs with ⟨hc, hs⟩ | ⟨hc, s', hs, hs'⟩
        · have hmin : min s.length t.length = 0 := by
            rw [length, hs, List.length_nil, Nat.zero_min]
          rw [if_neg (fun h => h.1 hc), if_pos rfl, hmin, memcmp]
        · rcases bytes_prefix_cons.mp ht with ⟨hd, ht⟩ | ⟨hd, t', ht, ht'⟩
          · exact absurd hd hc
          · rw [if_pos ⟨hc, hc⟩, if_neg (not_not.mpr rfl), length_eq_succ hs, length_eq_succ ht,
              Nat.succ_min_succ]
            exact ih hs' ht'
      · -- the first bytes decide, as characters or as a character and a NUL
        have hstep : ∀ n, memcmp (c :: mem) (d :: mem') (n + 1)
            = some (if c < d then -1 else 1) := fun n => if_pos hcd
        rw [hstep, strcmp]
        by_cases hboth : c ≠ 0 ∧ d ≠ 0
        · rw [if_pos hboth, if_pos hcd]
        · rw [if_neg hboth, if_neg hcd]
          by_cases hc : c = 0
          · subst hc
            rw [if_pos (UInt8.pos_iff_ne_zero.mpr (Ne.symm hcd)), if_pos rfl]
          · have hd : d = 0 := by
              by_contra hd
              exact hboth ⟨hc, hd⟩
            subst hd
            rw [if_neg UInt8.not_lt_zero, if_neg hc]

/-- **`strcmp` orders strings lexicographically**: its sign says which is before the other,
and it is that of `memcmp` on the bytes up to the first NUL of either. -/
theorem strcmp_spec (hs : s.bytes <+: mem) (ht : t.bytes <+: mem') :
    ∃ r, strcmp mem mem' = some r
      ∧ memcmp mem mem' (min s.length t.length + 1) = some r
      ∧ (r = -1 ↔ s.chars < t.chars) ∧ (r = 0 ↔ s = t) ∧ (r = 1 ↔ t.chars < s.chars) := by
  have hcmp := strcmp_eq_lexSign hs ht
  obtain ⟨hbefore, hsame, hbehind⟩ := lexSign_cases s.chars t.chars
  refine ⟨_, hcmp, (memcmp_eq_strcmp hs ht).trans hcmp, hbefore, hsame.trans ?_, hbehind⟩
  exact ⟨CString.ext, congrArg chars⟩

/-- The name `"uart0"`. -/
def uart0Name : CString := ⟨asciiBytes "uart0", by decide⟩

/-- The name `"uart1"`. -/
def uart1Name : CString := ⟨asciiBytes "uart1", by decide⟩

/-- Two names that differ in the last character, with other bytes behind both. -/
theorem strcmp_spec_uart :
    ∃ r, strcmp (uart0Name.bytes ++ [0x7a]) (uart1Name.bytes ++ [0x61]) = some r
      ∧ memcmp (uart0Name.bytes ++ [0x7a]) (uart1Name.bytes ++ [0x61])
        (min uart0Name.length uart1Name.length + 1) = some r
      ∧ (r = -1 ↔ uart0Name.chars < uart1Name.chars) ∧ (r = 0 ↔ uart0Name = uart1Name)
      ∧ (r = 1 ↔ uart1Name.chars < uart0Name.chars) :=
  strcmp_spec (List.prefix_append _ _) (List.prefix_append _ _)

end CString
