import Mathlib.Tactic

/-!
# Moving what is being overwritten

A memory assigns a value to each address, and a move `i` copies what is at `src i` to
`dest i`. When the sources and the destinations of a sequence of moves overlap, it is
the order that matters: if no move overwrites what a later one reads or has written to
(`Ordered`), the sequence moves what was there at the beginning (`moves_apply`), and it
changes nothing else (`moves_of_forall_ne`).
-/

namespace MoveSequence

variable {ι α β : Type} [DecidableEq α] {dest src : ι → α} {mem : α → β} {l : List ι}
  {i j : ι} {a : α}

/-- One move. -/
def move (dest src : ι → α) (mem : α → β) (i : ι) : α → β :=
  Function.update mem (dest i) (mem (src i))

/-- **Moves one after the other.** -/
def moves (dest src : ι → α) (mem : α → β) (l : List ι) : α → β := l.foldl (move dest src) mem

/-- **The order of moves.** What a move overwrites is neither read nor overwritten
later. -/
def Ordered (dest src : ι → α) (l : List ι) : Prop :=
  l.Pairwise (fun i j => dest i ≠ src j ∧ dest i ≠ dest j)

@[simp] theorem moves_cons : moves dest src mem (i :: l) = moves dest src (move dest src mem i) l :=
  rfl

@[simp] theorem move_self : move dest src mem i (dest i) = mem (src i) := Function.update_self _ _ _

theorem move_of_ne (h : dest i ≠ a) : move dest src mem i a = mem a :=
  Function.update_of_ne (Ne.symm h) _ _

/-- **What is no destination stays.** -/
theorem moves_of_forall_ne (h : ∀ i ∈ l, dest i ≠ a) : moves dest src mem l a = mem a := by
  induction l generalizing mem with
  | nil => rfl
  | cons i l ih =>
    have h := List.forall_mem_cons.mp h
    rw [moves_cons, ih h.2, move_of_ne h.1]

/-- **Each move copies what was there at the beginning.** -/
theorem moves_apply (h : Ordered dest src l) (hj : j ∈ l) :
    moves dest src mem l (dest j) = mem (src j) := by
  induction l generalizing mem with
  | nil => exact absurd hj List.not_mem_nil
  | cons i l ih =>
    have hl : Ordered dest src l := (List.pairwise_cons.mp h).2
    have hfirst := (List.pairwise_cons.mp h).1
    rw [moves_cons]
    by_cases hmem : j ∈ l
    · -- a later move reads what the first one has left alone
      rw [ih hl hmem, move_of_ne (hfirst j hmem).1]
    · obtain rfl : j = i := (List.mem_cons.mp hj).resolve_right hmem
      rw [moves_of_forall_ne (fun k hk => Ne.symm (hfirst k hk).2), move_self]

/-- **Two orders of the same moves** have the same result. -/
theorem moves_eq_moves {l' : List ι} (h : Ordered dest src l) (h' : Ordered dest src l')
    (hmem : ∀ i, i ∈ l ↔ i ∈ l') : moves dest src mem l = moves dest src mem l' := by
  funext a
  by_cases ha : ∃ i ∈ l, dest i = a
  · obtain ⟨i, hi, rfl⟩ := ha
    rw [moves_apply h hi, moves_apply h' ((hmem i).mp hi)]
  · have hne : ∀ i ∈ l, dest i ≠ a := fun i hi heq => ha ⟨i, hi, heq⟩
    rw [moves_of_forall_ne hne, moves_of_forall_ne (fun i hi => hne i ((hmem i).mpr hi))]

/-- Moving everything to where it is changes nothing. -/
theorem moves_self : moves dest dest mem l = mem := by
  induction l with
  | nil => rfl
  | cons i l ih => rw [moves_cons, move, Function.update_eq_self, ih]

end MoveSequence
