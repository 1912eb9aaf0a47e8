import Mathlib.Tactic

/-!
# Functions that may fail or fault

A C function that parses memory it does not trust has three kinds of outcome: it
succeeds with a result, it refuses by returning `false`, or it accesses memory
that it must not. `Outcome` is the monad of the three. A `Loop` is a `while` loop
of such steps together with the reason why it ends; what holds of its turns is
carried over to the whole run once, by `Loop.run_eq`, `Loop.Turns.run_eq` and
`Loop.run_eq_fault_iff`.
-/

/-- **How a call ends.** -/
inductive Outcome (α : Type) where
  /-- It succeeds. -/
  | ok (a : α)
  /-- It returns `false`. -/
  | refused
  /-- It accesses memory out of bounds. -/
  | fault
  deriving DecidableEq, Repr

namespace Outcome

variable {α β : Type} {a : α} {b : β} {x : Outcome α} {f : α → Outcome β} {p : Prop}

/-- Go on with the result. -/
protected def bind (x : Outcome α) (f : α → Outcome β) : Outcome β :=
  match x with
  | ok a => f a
  | refused => refused
  | fault => fault

instance : Monad Outcome where
  pure := ok
  bind := Outcome.bind

/-- Refuse unless a condition holds. -/
def require (p : Prop) [Decidable p] : Outcome Unit := if p then ok () else refused

/-- The result of an access, which faults if there is none. -/
def access (o : Option α) : Outcome α :=
  match o with
  | some a => ok a
  | none => fault

/-- Go on after a refusal, too. -/
def attempt (x : Outcome α) : Outcome (Option α) :=
  match x with
  | ok a => ok (some a)
  | refused => ok none
  | fault => fault

/-! ## Rules -/

@[simp] theorem pure_eq (a : α) : (pure a : Outcome α) = ok a := rfl

@[simp] theorem ok_bind (a : α) (f : α → Outcome β) : (ok a >>= f) = f a := rfl

@[simp] theorem refused_bind (f : α → Outcome β) : (refused >>= f) = refused := rfl

@[simp] theorem fault_bind (f : α → Outcome β) : (fault >>= f) = fault := rfl

/-- **A sequence succeeds** where both parts do. -/
theorem bind_eq_ok : (x >>= f) = ok b ↔ ∃ a, x = ok a ∧ f a = ok b := by
  cases x <;> simp

/-- **A sequence faults** in one of its parts. -/
theorem bind_eq_fault : (x >>= f) = fault ↔ x = fault ∨ ∃ a, x = ok a ∧ f a = fault := by
  cases x <;> simp

theorem bind_ne_refused (hx : x ≠ refused) (hf : ∀ a, f a ≠ refused) : (x >>= f) ≠ refused := by
  cases x with
  | ok a => exact hf a
  | refused => exact absurd rfl hx
  | fault => simp

@[simp] theorem map_ok {g : α → β} : g <$> ok a = ok (g a) := rfl

@[simp] theorem map_refused {g : α → β} : g <$> (refused : Outcome α) = refused := rfl

@[simp] theorem map_fault {g : α → β} : g <$> (fault : Outcome α) = fault := rfl

theorem map_eq_ok {g : α → β} : g <$> x = ok b ↔ ∃ a, x = ok a ∧ g a = b := by
  cases x <;> simp

@[simp] theorem map_eq_refused {g : α → β} : g <$> x = refused ↔ x = refused := by
  cases x <;> simp

@[simp] theorem map_eq_fault {g : α → β} : g <$> x = fault ↔ x = fault := by
  cases x <;> simp

section Require

variable [Decidable p]

@[simp] theorem require_eq_ok {u : Unit} : require p = ok u ↔ p := by
  unfold require
  split <;> simp_all

@[simp] theorem require_eq_refused : require p = refused ↔ ¬ p := by
  unfold require
  split <;> simp_all

@[simp] theorem require_ne_fault : require p ≠ fault := by
  unfold require
  split <;> simp

theorem require_of_pos (h : p) : require p = ok () := if_pos h

theorem require_of_neg (h : ¬ p) : require p = refused := if_neg h

end Require

@[simp] theorem access_some : access (some a) = ok a := rfl

@[simp] theorem access_none : access (none : Option α) = fault := rfl

@[simp] theorem access_eq_ok {o : Option α} : access o = ok a ↔ o = some a := by
  cases o <;> simp [access]

@[simp] theorem access_eq_fault {o : Option α} : access o = fault ↔ o = none := by
  cases o <;> simp [access]

@[simp] theorem access_ne_refused {o : Option α} : access o ≠ refused := by
  cases o <;> simp [access]

@[simp] theorem attempt_eq_fault : attempt x = fault ↔ x = fault := by
  cases x <;> simp [attempt]

@[simp] theorem attempt_ne_refused : attempt x ≠ refused := by
  cases x <;> simp [attempt]

theorem attempt_eq_some : attempt x = ok (some a) ↔ x = ok a := by
  cases x <;> simp [attempt]

theorem attempt_eq_none : attempt x = ok none ↔ x = refused := by
  cases x <;> simp [attempt]

/-! ## Postconditions -/

/-- **A call is safe and ensures a postcondition**: it does not fault, and what
it succeeds with has the property. -/
def Ensures (x : Outcome α) (P : α → Prop) : Prop :=
  match x with
  | ok a => P a
  | refused => True
  | fault => False

section Ensures

variable {P : α → Prop} {Q : β → Prop}

theorem ensures_iff : x.Ensures P ↔ x ≠ fault ∧ ∀ a, x = ok a → P a := by
  cases x <;> simp [Ensures]

theorem Ensures.ne_fault (h : x.Ensures P) : x ≠ fault := (ensures_iff.mp h).1

theorem Ensures.of_ok (h : x.Ensures P) (hx : x = ok a) : P a := (ensures_iff.mp h).2 a hx

theorem Ensures.mono {P' : α → Prop} (h : x.Ensures P) (hP : ∀ a, P a → P' a) :
    x.Ensures P' := by
  cases x with
  | ok a => exact hP a h
  | refused => exact trivial
  | fault => exact h

/-- **The rule of sequences**. -/
theorem Ensures.bind (hx : x.Ensures P) (hf : ∀ a, P a → (f a).Ensures Q) :
    (x >>= f).Ensures Q := by
  cases x with
  | ok a => exact hf a hx
  | refused => exact trivial
  | fault => exact hx.elim

theorem Ensures.map {g : α → β} (h : x.Ensures (fun a => Q (g a))) : (g <$> x).Ensures Q := by
  cases x with
  | ok a => exact h
  | refused => exact trivial
  | fault => exact h

/-- A check leaves its condition. -/
theorem ensures_require (p : Prop) [Decidable p] : (require p).Ensures (fun _ => p) := by
  unfold require
  split
  · next h => exact h
  · exact trivial

/-- An access within bounds is safe. -/
theorem ensures_access {o : Option α} (h : o ≠ none) :
    (access o).Ensures (fun a => o = some a) := by
  cases o with
  | none => exact absurd rfl h
  | some a => exact rfl

end Ensures

end Outcome

/-- **A `while` loop** over states `σ`. A turn ends in the next state or with
the result of the whole loop; leaving the loop by its condition is a refusal.
The fuel of the state runs down. -/
structure Loop (σ α : Type) where
  /-- The condition of the loop. -/
  more : σ → Bool
  /-- One turn of its body. -/
  turn : σ → Outcome (σ ⊕ α)
  /-- A bound on the number of turns to come. -/
  fuel : σ → ℕ
  /-- Every turn that is not the last uses up fuel. -/
  fuel_lt : ∀ s s', more s = true → turn s = Outcome.ok (Sum.inl s') → fuel s' < fuel s

namespace Loop

variable {σ α : Type} {L : Loop σ α} {s s' : σ} {a : α} {n k : ℕ}

/-- At most `n` turns. -/
def runFor (L : Loop σ α) : ℕ → σ → Outcome α
  | 0, _ => Outcome.fault
  | n + 1, s =>
    if L.more s then
      match L.turn s with
      | Outcome.ok (Sum.inl s') => runFor L n s'
      | Outcome.ok (Sum.inr a) => Outcome.ok a
      | Outcome.refused => Outcome.refused
      | Outcome.fault => Outcome.fault
    else Outcome.refused

/-- **The run of the loop.** -/
def run (L : Loop σ α) (s : σ) : Outcome α := L.runFor (L.fuel s + 1) s

/-- The number of turns allowed does not matter if it exceeds the fuel. -/
theorem runFor_eq_runFor (hn : L.fuel s < n) (hk : L.fuel s < k) :
    L.runFor n s = L.runFor k s := by
  induction n generalizing s k with
  | zero => exact absurd hn (Nat.not_lt_zero _)
  | succ n ih =>
    cases k with
    | zero => exact absurd hk (Nat.not_lt_zero _)
    | succ k =>
      unfold runFor
      split
      · next hmore =>
        split
        · next s' hturn =>
          have hlt := L.fuel_lt s s' hmore hturn
          exact ih (by omega) (by omega)
        all_goals rfl
      · rfl

/-- **A run is a turn and the rest of the run.** -/
theorem run_eq (L : Loop σ α) (s : σ) :
    L.run s = if L.more s then
      match L.turn s with
      | Outcome.ok (Sum.inl s') => L.run s'
      | Outcome.ok (Sum.inr a) => Outcome.ok a
      | Outcome.refused => Outcome.refused
      | Outcome.fault => Outcome.fault
    else Outcome.refused := by
  rw [run, runFor]
  split
  · next hmore =>
    split
    · next s' hturn =>
      have hlt := L.fuel_lt s s' hmore hturn
      exact runFor_eq_runFor (by omega) (Nat.lt_succ_self _)
    all_goals rfl
  · rfl

theorem run_of_refused (h : L.turn s = Outcome.refused) : L.run s = Outcome.refused := by
  rw [run_eq, h]
  split <;> rfl

theorem run_of_next (hmore : L.more s = true) (h : L.turn s = Outcome.ok (Sum.inl s')) :
    L.run s = L.run s' := by
  rw [run_eq, hmore, h]
  rfl

theorem run_of_result (hmore : L.more s = true) (h : L.turn s = Outcome.ok (Sum.inr a)) :
    L.run s = Outcome.ok a := by
  rw [run_eq, hmore, h]
  rfl

theorem run_of_fault (hmore : L.more s = true) (h : L.turn s = Outcome.fault) :
    L.run s = Outcome.fault := by
  rw [run_eq, hmore, h]
  rfl

/-- One turn that is not the last. -/
def Next (L : Loop σ α) (s s' : σ) : Prop :=
  L.more s = true ∧ L.turn s = Outcome.ok (Sum.inl s')

/-- **The states a run gets to.** -/
def Turns (L : Loop σ α) : σ → σ → Prop := Relation.ReflTransGen L.Next

/-- A run goes on as it would from any state it gets to. -/
theorem Turns.run_eq (h : L.Turns s s') : L.run s = L.run s' := by
  induction h with
  | refl => rfl
  | tail _ hnext ih => exact ih.trans (run_of_next hnext.1 hnext.2)

/-- **A run ends at the last state it gets to.** -/
theorem exists_last (L : Loop σ α) (s : σ) :
    ∃ s', L.Turns s s' ∧ ∀ t, ¬ L.Next s' t := by
  induction hf : L.fuel s using Nat.strong_induction_on generalizing s with
  | _ n ih =>
    by_cases h : ∃ t, L.Next s t
    · obtain ⟨t, ht⟩ := h
      obtain ⟨s', hs', hlast⟩ := ih (L.fuel t) (hf ▸ L.fuel_lt s t ht.1 ht.2) t rfl
      exact ⟨s', Relation.ReflTransGen.head ht hs', hlast⟩
    · exact ⟨s, Relation.ReflTransGen.refl, not_exists.mp h⟩

/-- **A run faults in a turn of a state it gets to.** -/
theorem run_eq_fault_iff :
    L.run s = Outcome.fault
      ↔ ∃ s', L.Turns s s' ∧ L.more s' = true ∧ L.turn s' = Outcome.fault := by
  constructor
  · intro h
    obtain ⟨s', hs', hlast⟩ := L.exists_last s
    rw [hs'.run_eq, run_eq] at h
    split at h
    · next hmore =>
      split at h
      · next t hturn => exact absurd ⟨hmore, hturn⟩ (hlast t)
      · exact absurd h (by simp)
      · exact absurd h (by simp)
      · next hfault => exact ⟨s', hs', hmore, hfault⟩
    · exact absurd h (by simp)
  · rintro ⟨s', hs', hmore, hfault⟩
    rw [hs'.run_eq, run_of_fault hmore hfault]

/-- **A run succeeds in a turn of a state it gets to.** -/
theorem run_eq_ok_iff :
    L.run s = Outcome.ok a
      ↔ ∃ s', L.Turns s s' ∧ L.more s' = true ∧ L.turn s' = Outcome.ok (Sum.inr a) := by
  constructor
  · intro h
    obtain ⟨s', hs', hlast⟩ := L.exists_last s
    rw [hs'.run_eq, run_eq] at h
    split at h
    · next hmore =>
      split at h
      · next t hturn => exact absurd ⟨hmore, hturn⟩ (hlast t)
      · next hturn =>
        cases h
        exact ⟨s', hs', hmore, hturn⟩
      · exact absurd h (by simp)
      · exact absurd h (by simp)
    · exact absurd h (by simp)
  · rintro ⟨s', hs', hmore, hturn⟩
    rw [hs'.run_eq, run_of_result hmore hturn]

/-- **The rule of loops**: what every turn keeps up holds at the end. -/
theorem run_ensures {I : σ → Prop} {P : α → Prop}
    (hturn : ∀ s, I s → L.more s = true →
      (L.turn s).Ensures (fun next => next.elim I P)) (hs : I s) : (L.run s).Ensures P := by
  have hinv : ∀ {t}, L.Turns s t → I t := by
    intro t ht
    induction ht with
    | refl => exact hs
    | tail _ hnext ih => exact (hturn _ ih hnext.1).of_ok hnext.2
  refine Outcome.ensures_iff.mpr ⟨fun h => ?_, fun a h => ?_⟩
  · obtain ⟨t, ht, hmore, hfault⟩ := run_eq_fault_iff.mp h
    exact (hturn t (hinv ht) hmore).ne_fault hfault
  · obtain ⟨t, ht, hmore, hok⟩ := run_eq_ok_iff.mp h
    exact (hturn t (hinv ht) hmore).of_ok hok

end Loop
