import Risky.Outcome

/-!
# Strings in memory

The functions of `lib/string.c` that the device-tree parser calls. Memory that a
pointer may be read through is the list of the bytes from the pointer on; where
the list ends, a `none` in place of a result says that a function has read on.
A string in the sense of C (`CString`) is in such memory if its characters
followed by NUL are a prefix of it, and the functions do what they are for on the
strings that are there.
-/

/-! ## The functions -/

/-- `strlen`. -/
def strlen : List UInt8 → Option ℕ
  | [] => none
  | c :: s => if c = 0 then some 0 else (strlen s).map (· + 1)

/-- `strnlen`. -/
def strnlen : List UInt8 → ℕ → Option ℕ
  | _, 0 => some 0
  | [], _ + 1 => none
  | c :: s, maxlen + 1 => if c = 0 then some 0 else (strnlen s maxlen).map (· + 1)

/-- `strcmp`. -/
def strcmp : List UInt8 → List UInt8 → Option ℤ
  | c₁ :: s₁, c₂ :: s₂ =>
    if c₁ ≠ 0 ∧ c₂ ≠ 0 then
      if c₁ ≠ c₂ then some (if c₁ < c₂ then -1 else 1) else strcmp s₁ s₂
    else if c₁ = c₂ then some 0
    else some (if c₁ = 0 then -1 else 1)
  | _, _ => none

/-- `strchr`: the index of the character, if it is there. -/
def strchr : List UInt8 → UInt8 → Option (Option ℕ)
  | [], _ => none
  | x :: s, c =>
    if x = c then some (some 0)
    else if x = 0 then some none
    else (strchr s c).map (Option.map (· + 1))

/-- `array[i] = a`. -/
def store {α : Type} (array : List α) (i : ℕ) (a : α) : Outcome (List α) :=
  if i < array.length then Outcome.ok (array.set i a) else Outcome.fault

/-- `memcpy(&dest[i], src, n)`. -/
def memcpy (dest : List UInt8) (i : ℕ) : List UInt8 → ℕ → Outcome (List UInt8)
  | _, 0 => Outcome.ok dest
  | [], _ + 1 => Outcome.fault
  | c :: src, n + 1 => do
    let dest ← store dest i c
    memcpy dest (i + 1) src n

/-! ## Strings -/

/-- The empty string has no NUL among its characters. -/
theorem nul_notMem_nil : (0 : UInt8) ∉ ([] : List UInt8) := List.not_mem_nil

/-- The bytes of an ASCII literal. -/
def asciiBytes (s : String) : List UInt8 := s.toList.map (fun c => UInt8.ofNat c.toNat)

/-- **A string**: characters none of which is NUL. -/
structure CString where
  /-- The characters. -/
  chars : List UInt8
  /-- They are not NUL. -/
  nul_notMem : 0 ∉ chars
  deriving DecidableEq

namespace CString

variable {s t : CString} {mem mem' : List UInt8} {n : ℕ} {c : UInt8}

/-- The bytes of a string in memory. -/
def bytes (s : CString) : List UInt8 := s.chars ++ [0]

/-- The length of a string. -/
def length (s : CString) : ℕ := s.chars.length

@[ext] theorem ext (h : s.chars = t.chars) : s = t := by
  cases s
  cases t
  exact (CString.mk.injEq _ _ _ _).mpr h

@[simp] theorem length_bytes (s : CString) : s.bytes.length = s.length + 1 :=
  List.length_append

theorem length_eq_succ (h : s.chars = c :: t.chars) : s.length = t.length + 1 := by
  unfold length
  rw [h]
  rfl

theorem nul_mem (h : s.bytes <+: mem) : 0 ∈ mem :=
  h.subset (List.mem_append_right _ (List.mem_singleton_self 0))

/-- The NUL of a string is behind each of its characters. -/
theorem nul_mem_drop (h : s.bytes <+: mem) (hn : n ≤ s.length) : 0 ∈ mem.drop n := by
  obtain ⟨rest, rfl⟩ := h
  rw [bytes, List.append_assoc, List.drop_append_of_le_length hn]
  simp

/-- **Memory with a NUL in it** begins with a string. -/
theorem exists_prefix (h : 0 ∈ mem) : ∃ s : CString, s.bytes <+: mem := by
  induction mem with
  | nil => exact absurd h List.not_mem_nil
  | cons c mem ih =>
    by_cases hc : c = 0
    · subst hc
      exact ⟨⟨[], List.not_mem_nil⟩, mem, rfl⟩
    · obtain ⟨s, hs⟩ := ih ((List.mem_cons.mp h).resolve_left (Ne.symm hc))
      refine ⟨⟨c :: s.chars, fun h₀ => ?_⟩, List.prefix_cons_inj c |>.mpr hs⟩
      exact (List.mem_cons.mp h₀).elim (fun h₁ => hc h₁.symm) s.nul_notMem

/-- A NUL-free prefix of memory with a NUL behind it. -/
theorem bytes_prefix_cons : s.bytes <+: c :: mem
    ↔ (c = 0 ∧ s.chars = [])
      ∨ (c ≠ 0 ∧ ∃ t : CString, s.chars = c :: t.chars ∧ t.bytes <+: mem) := by
  obtain ⟨chars, hnul⟩ := s
  cases chars with
  | nil =>
    constructor
    · intro h
      exact Or.inl ⟨(List.cons_prefix_cons.mp h).1.symm, rfl⟩
    · rintro (⟨rfl, -⟩ | ⟨-, t, ht, -⟩)
      · exact ⟨mem, rfl⟩
      · exact absurd ht (by simp)
  | cons d chars =>
    have hd : d ≠ 0 := fun h => hnul (h ▸ List.mem_cons_self)
    have hchars : 0 ∉ chars := fun h => hnul (List.mem_cons_of_mem d h)
    constructor
    · intro h
      obtain ⟨rfl, hrest⟩ := List.cons_prefix_cons.mp h
      exact Or.inr ⟨hd, ⟨chars, hchars⟩, rfl, hrest⟩
    · rintro (⟨-, h⟩ | ⟨-, t, ht, h⟩)
      · exact absurd h (by simp)
      · obtain ⟨rfl, hrest⟩ := List.cons.inj ht
        refine List.cons_prefix_cons.mpr ⟨rfl, ?_⟩
        rw [hrest]
        exact h

/-- **At most one string is there.** -/
theorem eq_of_prefix (hs : s.bytes <+: mem) (ht : t.bytes <+: mem) : s = t := by
  induction mem generalizing s t with
  | nil => exact absurd (List.prefix_nil.mp hs) (by simp [bytes])
  | cons c mem ih =>
    rcases bytes_prefix_cons.mp hs with ⟨hc, hs⟩ | ⟨hc, s', hs, hs'⟩ <;>
      rcases bytes_prefix_cons.mp ht with ⟨hc', ht⟩ | ⟨hc', t', ht, ht'⟩
    · exact CString.ext (hs.trans ht.symm)
    · exact absurd hc hc'
    · exact absurd hc' hc
    · exact CString.ext (by rw [hs, ht, ih hs' ht'])

/-! ## The functions on strings -/

theorem strlen_eq (h : s.bytes <+: mem) : strlen mem = some s.length := by
  induction mem generalizing s with
  | nil => exact absurd (List.prefix_nil.mp h) (by simp [bytes])
  | cons c mem ih =>
    rcases bytes_prefix_cons.mp h with ⟨hc, hs⟩ | ⟨hc, t, hs, ht⟩
    · rw [strlen, if_pos hc, length, hs]
      rfl
    · rw [strlen, if_neg hc, ih ht, length_eq_succ hs]
      rfl

/-- `strlen` reads on where there is no NUL. -/
theorem strlen_eq_none_iff : strlen mem = none ↔ 0 ∉ mem := by
  constructor
  · intro h h₀
    obtain ⟨s, hs⟩ := exists_prefix h₀
    rw [strlen_eq hs] at h
    exact absurd h (by simp)
  · intro h
    induction mem with
    | nil => rfl
    | cons c mem ih =>
      rw [List.mem_cons, not_or] at h
      rw [strlen, if_neg (Ne.symm h.1), ih h.2]
      rfl

theorem strnlen_eq (h : s.bytes <+: mem) (hn : s.length < n) : strnlen mem n = some s.length := by
  induction mem generalizing s n with
  | nil => exact absurd (List.prefix_nil.mp h) (by simp [bytes])
  | cons c mem ih =>
    obtain ⟨n, rfl⟩ := Nat.exists_eq_succ_of_ne_zero (Nat.ne_zero_of_lt hn)
    rcases bytes_prefix_cons.mp h with ⟨hc, hs⟩ | ⟨hc, t, hs, ht⟩
    · rw [strnlen, if_pos hc, length, hs]
      rfl
    · have hlen := length_eq_succ hs
      rw [strnlen, if_neg hc, ih ht (by omega), hlen]
      rfl

/-- **`strnlen` finds the string or gives up at the bound**, if it may read so
far. -/
theorem strnlen_cases (mem : List UInt8) (n : ℕ) :
    (∃ s : CString, s.bytes <+: mem ∧ s.length < n ∧ strnlen mem n = some s.length)
      ∨ (n ≤ mem.length ∧ 0 ∉ mem.take n ∧ strnlen mem n = some n)
      ∨ (mem.length < n ∧ 0 ∉ mem ∧ strnlen mem n = none) := by
  induction mem generalizing n with
  | nil =>
    cases n with
    | zero => exact Or.inr (Or.inl ⟨le_rfl, List.not_mem_nil, rfl⟩)
    | succ n => exact Or.inr (Or.inr ⟨Nat.succ_pos n, List.not_mem_nil, rfl⟩)
  | cons c mem ih =>
    cases n with
    | zero => exact Or.inr (Or.inl ⟨Nat.zero_le _, List.not_mem_nil, rfl⟩)
    | succ n =>
      by_cases hc : c = 0
      · refine Or.inl ⟨⟨[], List.not_mem_nil⟩, bytes_prefix_cons.mpr (Or.inl ⟨hc, rfl⟩),
          Nat.succ_pos n, ?_⟩
        rw [strnlen, if_pos hc]
        rfl
      have hstep : strnlen (c :: mem) (n + 1) = (strnlen mem n).map (· + 1) := by
        rw [strnlen, if_neg hc]
      rw [hstep]
      rcases ih n with ⟨s, hs, hlt, hlen⟩ | ⟨hle, hnul, hlen⟩ | ⟨hlt, hnul, hlen⟩
      · have hnul : 0 ∉ c :: s.chars := fun h =>
          (List.mem_cons.mp h).elim (fun h₀ => hc h₀.symm) s.nul_notMem
        refine Or.inl ⟨⟨c :: s.chars, hnul⟩, bytes_prefix_cons.mpr (Or.inr ⟨hc, s, rfl, hs⟩),
          Nat.succ_lt_succ hlt, ?_⟩
        rw [hlen]
        rfl
      · refine Or.inr (Or.inl ⟨Nat.succ_le_succ hle, fun h => ?_, by rw [hlen]; rfl⟩)
        exact (List.mem_cons.mp h).elim (fun h₀ => hc h₀.symm) hnul
      · refine Or.inr (Or.inr ⟨Nat.succ_lt_succ hlt, fun h => ?_, by rw [hlen]; rfl⟩)
        exact (List.mem_cons.mp h).elim (fun h₀ => hc h₀.symm) hnul

/-- **`strcmp` compares the strings**. -/
theorem strcmp_eq (hs : s.bytes <+: mem) (ht : t.bytes <+: mem') :
    ∃ r, strcmp mem mem' = some r ∧ (r = 0 ↔ s = t) := by
  induction mem generalizing mem' s t with
  | nil => exact absurd (List.prefix_nil.mp hs) (by simp [bytes])
  | cons c mem ih =>
    cases mem' with
    | nil => exact absurd (List.prefix_nil.mp ht) (by simp [bytes])
    | cons c' mem' =>
      rw [strcmp]
      rcases bytes_prefix_cons.mp hs with ⟨hc, hs⟩ | ⟨hc, s', hs, hs'⟩ <;>
        rcases bytes_prefix_cons.mp ht with ⟨hc', ht⟩ | ⟨hc', t', ht, ht'⟩
      · refine ⟨0, ?_, iff_of_true rfl (CString.ext (hs.trans ht.symm))⟩
        rw [if_neg (fun h => h.1 hc), if_pos (hc.trans hc'.symm)]
      · refine ⟨-1, ?_, iff_of_false (by decide) (fun h => ?_)⟩
        · rw [if_neg (fun h => h.1 hc), if_neg (fun h => hc' (h.symm.trans hc)), if_pos hc]
        · rw [h, ht] at hs
          exact absurd hs (by simp)
      · refine ⟨1, ?_, iff_of_false (by decide) (fun h => ?_)⟩
        · rw [if_neg (fun h => h.2 hc'), if_neg (fun h => hc (h.trans hc')), if_neg hc]
        · rw [← h, hs] at ht
          exact absurd ht (by simp)
      · rw [if_pos ⟨hc, hc'⟩]
        by_cases hcc : c = c'
        · obtain ⟨r, hr, hiff⟩ := ih hs' ht'
          refine ⟨r, ?_, hiff.trans ⟨fun h => ?_, fun h => ?_⟩⟩
          · rw [if_neg (not_not.mpr hcc), hr]
          · exact CString.ext (by rw [hs, ht, hcc, h])
          · rw [h, ht] at hs
            exact CString.ext (List.cons.inj hs).2.symm
        · refine ⟨if c < c' then -1 else 1, ?_, iff_of_false (by split <;> decide) (fun h => ?_)⟩
          · rw [if_pos hcc]
          · rw [h, ht] at hs
            exact hcc (List.cons.inj hs).1.symm

/-- `strcmp` stays within two strings. -/
theorem strcmp_ne_none (h : 0 ∈ mem) (h' : 0 ∈ mem') : strcmp mem mem' ≠ none := by
  obtain ⟨s, hs⟩ := exists_prefix h
  obtain ⟨t, ht⟩ := exists_prefix h'
  obtain ⟨r, hr, -⟩ := strcmp_eq hs ht
  rw [hr]
  simp

/-- `strchr` stays within a string. -/
theorem strchr_ne_none (h : 0 ∈ mem) : strchr mem c ≠ none := by
  induction mem with
  | nil => exact absurd h List.not_mem_nil
  | cons x mem ih =>
    rw [strchr]
    split
    · simp
    · split
      · simp
      · next hx =>
        have hmem := ih ((List.mem_cons.mp h).resolve_left (Ne.symm hx))
        simpa using hmem

theorem strlen_lt (h : strlen mem = some n) : n < mem.length := by
  have hnul : 0 ∈ mem := by
    by_contra hno
    rw [strlen_eq_none_iff.mpr hno] at h
    exact absurd h (by simp)
  obtain ⟨s, hs⟩ := exists_prefix hnul
  have hle := hs.length_le
  rw [strlen_eq hs, Option.some.injEq] at h
  rw [length_bytes] at hle
  omega

theorem strchr_lt (h : strchr mem c = some (some n)) : n < mem.length := by
  induction mem generalizing n with
  | nil => exact absurd h (by simp [strchr])
  | cons x mem ih =>
    rw [strchr] at h
    split at h
    · cases h
      exact Nat.succ_pos _
    · split at h
      · exact absurd h (by simp)
      · obtain ⟨o, ho, hn⟩ := Option.map_eq_some_iff.mp h
        obtain ⟨k, rfl, rfl⟩ := Option.map_eq_some_iff.mp hn
        exact Nat.succ_lt_succ (ih ho)

end CString

/-! ## Copying -/

/-- **`memcpy` copies**, if source and destination are long enough. -/
theorem memcpy_eq {dest src : List UInt8} {i n : ℕ} (hsrc : n ≤ src.length)
    (hdest : i + n ≤ dest.length) :
    memcpy dest i src n = Outcome.ok (dest.take i ++ src.take n ++ dest.drop (i + n)) := by
  induction n generalizing dest i src with
  | zero => simp [memcpy]
  | succ n ih =>
    cases src with
    | nil => exact absurd hsrc (by simp)
    | cons c src =>
      have hi : i < dest.length := by omega
      rw [memcpy, store, if_pos hi, Outcome.ok_bind,
        ih (Nat.le_of_succ_le_succ hsrc) (by rw [List.length_set]; omega)]
      congr 1
      rw [List.take_succ_cons, List.drop_set_of_lt (by omega), List.take_add_one,
        List.take_set_of_le (le_refl i)]
      simp [hi, Nat.add_assoc, Nat.add_comm 1 n]
