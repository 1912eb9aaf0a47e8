import Mathlib.Data.List.Basic
import Mathlib.Tactic

/-!
# Doubly linked lists in a store

A store gives every key a link to the key after it and one to the key before
it. `IsList L head l` says that from `head` the links `L` spell out the list
`l`, forwards and backwards, with no key met twice. Pushing a key in front of
a list and unlinking a key from the middle of one are functions on links, and
each keeps every list it does not concern.
-/

variable {κ : Type} [DecidableEq κ]

/-- The links of a store of list nodes. -/
structure Links (κ : Type) where
  /-- The key after a key. -/
  next : κ → Option κ
  /-- The key before a key. -/
  prev : κ → Option κ

namespace Links

variable {L L' : Links κ} {before after head : Option κ} {l l₁ l₂ : List κ} {x y : κ}

omit [DecidableEq κ] in
/-- Links are determined by both directions. -/
@[ext] theorem ext_links (hn : ∀ x, L.next x = L'.next x)
    (hp : ∀ x, L.prev x = L'.prev x) : L = L' := by
  cases L
  cases L'
  congr 1
  · exact funext hn
  · exact funext hp

/-- The links spell out `l` between `before` and `after`. -/
def Segment (L : Links κ) : Option κ → List κ → Option κ → Prop
  | _, [], _ => True
  | before, x :: xs, after =>
    L.prev x = before ∧ L.next x = xs.head?.or after ∧ L.Segment (some x) xs after

/-- **The list at `head` is `l`.** -/
structure IsList (L : Links κ) (head : Option κ) (l : List κ) : Prop where
  head_eq : head = l.head?
  nodup : l.Nodup
  segment : L.Segment none l none

omit [DecidableEq κ] in
/-- The empty list, whatever the links. -/
theorem isList_nil (L : Links κ) : L.IsList none [] :=
  ⟨rfl, List.nodup_nil, trivial⟩

omit [DecidableEq κ] in
/-- A segment splits anywhere: each part sees the other's nearest key. -/
theorem segment_append :
    L.Segment before (l₁ ++ l₂) after
      ↔ L.Segment before l₁ (l₂.head?.or after)
        ∧ L.Segment (l₁.getLast?.or before) l₂ after := by
  induction l₁ generalizing before with
  | nil => simp [Segment]
  | cons x xs ih =>
    have hlast : ((x :: xs).getLast?).or before = (xs.getLast?).or (some x) := by
      cases xs with
      | nil => rfl
      | cons z zs => simp [List.getLast?_cons]
    rw [List.cons_append, Segment, Segment, ih, hlast, List.head?_append,
      Option.or_assoc]
    tauto

omit [DecidableEq κ] in
/-- A segment only reads the links of its own keys. -/
theorem Segment.congr (h : L.Segment before l after)
    (hn : ∀ y ∈ l, L'.next y = L.next y) (hp : ∀ y ∈ l, L'.prev y = L.prev y) :
    L'.Segment before l after := by
  induction l generalizing before with
  | nil => trivial
  | cons x xs ih =>
    obtain ⟨hprev, hnext, hrest⟩ := h
    refine ⟨?_, ?_, ih hrest (fun y hy => hn y (List.mem_cons_of_mem x hy))
      (fun y hy => hp y (List.mem_cons_of_mem x hy))⟩
    · rw [hp x List.mem_cons_self, hprev]
    · rw [hn x List.mem_cons_self, hnext]

omit [DecidableEq κ] in
theorem IsList.congr (h : L.IsList head l) (hn : ∀ y ∈ l, L'.next y = L.next y)
    (hp : ∀ y ∈ l, L'.prev y = L.prev y) : L'.IsList head l :=
  ⟨h.head_eq, h.nodup, h.segment.congr hn hp⟩

omit [DecidableEq κ] in
/-- Changing what follows the last key changes where the segment leads. -/
theorem Segment.relink_next {after' : Option κ} (h : L.Segment before l after)
    (hnd : l.Nodup) (hlast : ∀ y, l.getLast? = some y → L'.next y = after')
    (hn : ∀ y ∈ l, l.getLast? ≠ some y → L'.next y = L.next y)
    (hp : ∀ y ∈ l, L'.prev y = L.prev y) : L'.Segment before l after' := by
  induction l generalizing before with
  | nil => trivial
  | cons x xs ih =>
    obtain ⟨hprev, hnext, hrest⟩ := h
    obtain ⟨hx, hnd⟩ := List.nodup_cons.mp hnd
    refine ⟨(hp x List.mem_cons_self).trans hprev, ?_, ?_⟩
    · cases xs with
      | nil => exact hlast x rfl
      | cons z zs =>
        have hne : (x :: z :: zs).getLast? ≠ some x := by
          rw [List.getLast?_cons_cons]
          exact fun he => hx (List.mem_of_getLast? he)
        rw [hn x List.mem_cons_self hne, hnext]
        rfl
    · cases xs with
      | nil => trivial
      | cons z zs =>
        rw [List.getLast?_cons_cons] at hlast hn
        exact ih hrest hnd hlast
          (fun y hy => hn y (List.mem_cons_of_mem x hy))
          (fun y hy => hp y (List.mem_cons_of_mem x hy))

omit [DecidableEq κ] in
/-- Changing what precedes the first key changes where the segment comes
from. -/
theorem Segment.relink_prev {before' : Option κ} (h : L.Segment before l after)
    (hnd : l.Nodup) (hhead : ∀ y, l.head? = some y → L'.prev y = before')
    (hn : ∀ y ∈ l, L'.next y = L.next y)
    (hp : ∀ y ∈ l, l.head? ≠ some y → L'.prev y = L.prev y) :
    L'.Segment before' l after := by
  cases l with
  | nil => trivial
  | cons x xs =>
    obtain ⟨-, hnext, hrest⟩ := h
    obtain ⟨hx, -⟩ := List.nodup_cons.mp hnd
    refine ⟨hhead x rfl, (hn x List.mem_cons_self).trans hnext, hrest.congr
      (fun y hy => hn y (List.mem_cons_of_mem x hy)) (fun y hy => ?_)⟩
    refine hp y (List.mem_cons_of_mem x hy) (fun he => hx ?_)
    rwa [Option.some.inj he]

/-! ## Pushing and unlinking -/

/-- Put `x` in front of the list at `head`. -/
def push (L : Links κ) (x : κ) (head : Option κ) : Links κ where
  next := fun y => if y = x then head else L.next y
  prev := fun y => if y = x then none else if some y = head then some x else L.prev y

/-- Take `x` out of its list, joining its neighbours. -/
def unlink (L : Links κ) (x : κ) : Links κ where
  next := fun y => if y = x then none else if some y = L.prev x then L.next x else L.next y
  prev := fun y => if y = x then none else if some y = L.next x then L.prev x else L.prev y

/-- **Pushing a new key gives the list with the key in front.** -/
theorem IsList.push (h : L.IsList head l) (hx : x ∉ l) :
    (L.push x head).IsList (some x) (x :: l) := by
  have hne : ∀ y ∈ l, y ≠ x := fun y hy he => hx (he ▸ hy)
  refine ⟨rfl, List.nodup_cons.mpr ⟨hx, h.nodup⟩, if_pos rfl, ?_, ?_⟩
  · rw [Option.or_none, ← h.head_eq]
    exact if_pos rfl
  · refine h.segment.relink_prev h.nodup (fun y hy => ?_) (fun y hy => ?_)
      (fun y hy hh => ?_)
    · show ite _ _ _ = _
      rw [if_neg (hne y (List.mem_of_head? hy)), if_pos (by rw [h.head_eq, hy])]
    · exact if_neg (hne y hy)
    · show ite _ _ _ = _
      rw [if_neg (hne y hy), if_neg]
      rw [h.head_eq]
      exact fun he => hh he.symm

/-- **Unlinking a key of a list gives the list without it**; the head moves
on exactly when the key had none before it. -/
theorem IsList.unlink (h : L.IsList head l) (hx : x ∈ l) :
    (L.unlink x).IsList (if L.prev x = none then L.next x else head) (l.erase x) := by
  obtain ⟨l₁, l₂, rfl⟩ := List.append_of_mem hx
  have hnd := h.nodup
  have hx₁ : x ∉ l₁ := fun hm =>
    (List.nodup_append.mp hnd).2.2 x hm x List.mem_cons_self rfl
  have hx₂ : x ∉ l₂ := (List.nodup_cons.mp (List.nodup_append.mp hnd).2.1).1
  have hnd₁ : l₁.Nodup := (List.nodup_append.mp hnd).1
  have hnd₂ : l₂.Nodup := (List.nodup_cons.mp (List.nodup_append.mp hnd).2.1).2
  have hdis : ∀ y ∈ l₁, y ∉ l₂ := fun y hy hy' =>
    (List.nodup_append.mp hnd).2.2 y hy y (List.mem_cons_of_mem x hy') rfl
  obtain ⟨hseg₁, hprev, hnext, hseg₂⟩ := segment_append.mp h.segment
  rw [Option.or_none] at hprev hnext
  rw [List.erase_append_right _ hx₁, List.erase_cons_head]
  have hne₁ : ∀ y ∈ l₁, y ≠ x := fun y hy he => hx₁ (he ▸ hy)
  have hne₂ : ∀ y ∈ l₂, y ≠ x := fun y hy he => hx₂ (he ▸ hy)
  refine ⟨?_, h.nodup.sublist ?_, segment_append.mpr ⟨?_, ?_⟩⟩
  · cases l₁ with
    | nil => rw [if_pos (show L.prev x = none from hprev), hnext]; rfl
    | cons z zs =>
      rw [if_neg (by rw [hprev]; simp [List.getLast?_cons]), h.head_eq]
      rfl
  · exact List.Sublist.append_left (List.sublist_cons_self x l₂) l₁
  · rw [Option.or_none]
    -- before the key only the `next` of its predecessor changes
    refine hseg₁.relink_next hnd₁ (fun y hy => ?_) (fun y hy hl => ?_)
      (fun y hy => ?_)
    · show ite _ _ _ = _
      rw [if_neg (hne₁ y (List.mem_of_getLast? hy)), if_pos (by rw [hprev, hy]), hnext]
    · show ite _ _ _ = _
      rw [if_neg (hne₁ y hy), if_neg]
      rw [hprev]
      exact fun he => hl he.symm
    · show ite _ _ _ = _
      rw [if_neg (hne₁ y hy), if_neg]
      rw [hnext]
      exact fun he => hdis y hy (List.mem_of_head? he.symm)
  · rw [Option.or_none]
    -- behind the key only the `prev` of its successor changes
    refine hseg₂.relink_prev hnd₂ (fun y hy => ?_) (fun y hy => ?_)
      (fun y hy hh => ?_)
    · show ite _ _ _ = _
      rw [if_neg (hne₂ y (List.mem_of_head? hy)), if_pos (by rw [hnext, hy]), hprev]
    · show ite _ _ _ = _
      rw [if_neg (hne₂ y hy), if_neg]
      rw [hprev]
      exact fun he => hdis y (List.mem_of_getLast? he.symm) hy
    · show ite _ _ _ = _
      rw [if_neg (hne₂ y hy), if_neg]
      rw [hnext]
      exact fun he => hh he.symm

omit [DecidableEq κ] in
/-- The neighbours of a key of a list are in the list. -/
theorem IsList.neighbour_mem (h : L.IsList head l) (hx : x ∈ l)
    (hy : L.next x = some y ∨ L.prev x = some y) : y ∈ l := by
  obtain ⟨l₁, l₂, rfl⟩ := List.append_of_mem hx
  obtain ⟨-, hprev, hnext, -⟩ := segment_append.mp h.segment
  rw [Option.or_none] at hprev hnext
  rw [List.mem_append, List.mem_cons]
  rcases hy with hy | hy
  · exact Or.inr (Or.inr (List.mem_of_head? (hnext.symm.trans hy)))
  · exact Or.inl (List.mem_of_getLast? (hprev.symm.trans hy))

/-- Pushing keeps a list that holds neither the key nor the old head. -/
theorem IsList.push_frame {head' : Option κ} {l' : List κ} (h : L.IsList head' l')
    (hx : x ∉ l') (hh : ∀ y, head = some y → y ∉ l') :
    (L.push x head).IsList head' l' := by
  have hne : ∀ y ∈ l', y ≠ x := fun y hy he => hx (he ▸ hy)
  refine h.congr (fun y hy => if_neg (hne y hy)) (fun y hy => ?_)
  show ite _ _ _ = _
  rw [if_neg (hne y hy), if_neg (fun he => hh y he.symm hy)]

/-- Unlinking a key of one list keeps every disjoint list. -/
theorem IsList.unlink_frame {head' : Option κ} {l' : List κ} (h : L.IsList head l)
    (hx : x ∈ l) (h' : L.IsList head' l') (hdis : ∀ y ∈ l, y ∉ l') :
    (L.unlink x).IsList head' l' := by
  have hne : ∀ y ∈ l', y ≠ x := fun y hy he => hdis x hx (he ▸ hy)
  refine h'.congr (fun y hy => ?_) (fun y hy => ?_)
  · show ite _ _ _ = _
    rw [if_neg (hne y hy), if_neg]
    exact fun he => hdis y (h.neighbour_mem hx (Or.inr he.symm)) hy
  · show ite _ _ _ = _
    rw [if_neg (hne y hy), if_neg]
    exact fun he => hdis y (h.neighbour_mem hx (Or.inl he.symm)) hy

end Links
