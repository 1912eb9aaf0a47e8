import Mathlib.Logic.Relation
import Risky.TableTree

/-!
# Walks through a cache

A walker may remember the entries that it has read, and start a walk from an entry that it
remembers instead of from the memory. The memory may have changed by then: a write is seen
by all walks only when what is remembered of the old entry has been given up, which is what
a fence is for.

A walker is taken to be as free as can be. It reads and remembers entries at any time and
along any path, and forgets them as it likes, between any two effects of a program
(`WalkCache.Step`). What a program guarantees against all of this is said by assertions on
the memory and the cache that the walker cannot break (`WalkCache.Ensures`), with a rule for
each effect. A cache is *coherent* if it holds what is in memory (`WalkCache.Coherent`),
and then a walk through it ends where a walk in memory does (`WalkCache.Coherent.ends_iff`).
-/

/-- **How a walker walks**: where an entry leads to, how many levels there are, and which
entries it may remember. -/
structure Walker (α ε : Type*) where
  next : ε → Option α
  levels : ℕ
  keeps : ε → Prop

namespace WalkCache

open TableTree

variable {α ι ε : Type*}

/-- **The entries that are remembered**, each with the path at the end of which it was met.
None of them is a pointer at the last level. -/
structure Cache (W : Walker α ε) (ι : Type*) where
  entries : Set (List ι × ε)
  length_le : ∀ x ∈ entries, x.1.length ≤ W.levels
  keeps : ∀ x ∈ entries, W.keeps x.2
  last : ∀ x ∈ entries, x.1.length = W.levels → W.next x.2 = none

variable {W : Walker α ε} {mem mem' : α → ι → ε} {root a b c : α} {i j : ι}
variable {p q l : List ι} {e z : ε} {C C' : Cache W ι}

/-- Nothing is remembered. -/
def Cache.empty (W : Walker α ε) (ι : Type*) : Cache W ι :=
  ⟨∅, fun _ h => h.elim, fun _ h => h.elim, fun _ h => h.elim⟩

/-! ## What a walker may see -/

/-- **An entry that may be seen at the end of a path**: one that is remembered, or one that
is read in the table that the walk has come to. -/
inductive Sees (mem : α → ι → ε) (root : α) (C : Cache W ι) : List ι → ε → Prop where
  | cached {p : List ι} {e : ε} (h : (p, e) ∈ C.entries) : Sees mem root C p e
  | root (i : ι) : Sees mem root C [i] (mem root i)
  | step {p : List ι} {e : ε} {a : α} (h : Sees mem root C p e) (hnext : W.next e = some a)
      (hp : p.length < W.levels) (i : ι) : Sees mem root C (p ++ [i]) (mem a i)

/-- **An entry of the memory**, at the end of a path. -/
def Meets (W : Walker α ε) (mem : α → ι → ε) (root : α) (p : List ι) (e : ε) : Prop :=
  ∃ q i a, p = q ++ [i] ∧ descend W.next mem root q = some a ∧ mem a i = e

/-- **What is remembered is in memory**, but for some entries. -/
def Coherent (mem : α → ι → ε) (root : α) (stale : Set (List ι × ε)) (C : Cache W ι) : Prop :=
  ∀ x ∈ C.entries, Meets W mem root x.1 x.2 ∨ x ∈ stale

theorem coherent_empty (stale : Set (List ι × ε)) : Coherent mem root stale (Cache.empty W ι) :=
  fun _ h => h.elim

theorem Sees.length_le (hpos : 0 < W.levels) (h : Sees mem root C p e) : p.length ≤ W.levels := by
  cases h with
  | cached h => exact C.length_le _ h
  | root i => exact hpos
  | step h hnext hp i =>
    rw [List.length_append, List.length_singleton]
    exact hp

/-- **Entries that lead nowhere mislead no walk** but those that end at them. -/
theorem Coherent.meets {stale : Set (List ι × ε)} (hC : Coherent mem root stale C)
    (hstale : ∀ x ∈ stale, W.next x.2 = none) (h : Sees mem root C p e) :
    Meets W mem root p e ∨ (p, e) ∈ stale := by
  induction h with
  | cached h => exact hC _ h
  | root i => exact Or.inl ⟨[], i, root, rfl, rfl, rfl⟩
  | @step p e a h hnext hp i ih =>
    rcases ih with ⟨q, j, b, rfl, hq, rfl⟩ | hmem
    · exact Or.inl ⟨q ++ [j], i, a, rfl, by rw [descend_concat hq, hnext], rfl⟩
    · rw [hstale _ hmem] at hnext
      exact absurd hnext (by simp)

/-- What is in memory may be seen. -/
theorem sees_of_meets (h : Meets W mem root p e) (hp : p.length ≤ W.levels) :
    Sees mem root C p e := by
  obtain ⟨q, i, a, rfl, hq, rfl⟩ := h
  induction q using List.reverseRecOn generalizing i a with
  | nil =>
    cases hq
    exact Sees.root i
  | append_singleton q j ih =>
    rw [descend_append] at hq
    obtain ⟨b, hb, hab⟩ := Option.bind_eq_some_iff.mp hq
    obtain ⟨c, hc, hca⟩ := Option.bind_eq_some_iff.mp hab
    cases hca
    simp only [List.length_append, List.length_singleton] at hp
    have hlen : (q ++ [j]).length < W.levels := by
      rw [List.length_append, List.length_singleton]
      omega
    exact (ih j b hlen.le hb).step hc hlen i

/-! ## Where a walk may end -/

/-- **A walk may end** at an entry that leads nowhere, with some indices left over. -/
def Ends (mem : α → ι → ε) (root : α) (C : Cache W ι) (l : List ι) (r : ε × ℕ) : Prop :=
  ∃ p, Sees mem root C p r.1 ∧ p <+: l ∧ r.2 = l.length - p.length ∧ W.next r.1 = none

theorem lookup_of_meets (h : Meets W mem root p e) (hp : p <+: l) (hnext : W.next e = none) :
    lookup W.next mem root l = some (e, l.length - p.length) := by
  obtain ⟨q, i, a, rfl, hq, rfl⟩ := h
  obtain ⟨t, rfl⟩ := hp
  rw [List.append_assoc, lookup_append hq, List.singleton_append, lookup_cons_of_none hnext]
  simp only [List.length_append, List.length_cons, List.length_nil]
  congr 2
  omega

/-- A lookup is at an entry of the memory. -/
theorem meets_of_lookup {k : ℕ} (h : lookup W.next mem root l = some (e, k)) :
    ∃ p, Meets W mem root p e ∧ p <+: l ∧ k = l.length - p.length ∧ W.next e = none := by
  induction l generalizing root with
  | nil => exact absurd h (by simp [lookup])
  | cons i l ih =>
    rw [lookup] at h
    split at h
    · next hnext =>
      cases h
      exact ⟨[i], ⟨[], i, root, rfl, rfl, rfl⟩, ⟨l, rfl⟩, rfl, hnext⟩
    · next b hnext =>
      obtain ⟨p, ⟨q, j, a, rfl, hq, rfl⟩, hp, hk, hnone⟩ := ih h
      refine ⟨i :: (q ++ [j]), ⟨i :: q, j, a, rfl, ?_, rfl⟩, (List.prefix_cons_inj i).mpr hp, ?_,
        hnone⟩
      · show (W.next (mem root i)).bind _ = _
        rw [hnext]
        exact hq
      · rw [hk, List.length_cons, List.length_cons]
        omega

/-- **Through a coherent cache a walk ends where it does in memory.** -/
theorem Coherent.ends_iff (hC : Coherent mem root ∅ C) (hl : l.length ≤ W.levels) (r : ε × ℕ) :
    Ends mem root C l r ↔ lookup W.next mem root l = some r := by
  obtain ⟨e, k⟩ := r
  constructor
  · rintro ⟨p, hsees, hp, hk, hnext⟩
    have hmeets := (hC.meets (fun x hx => hx.elim) hsees).resolve_right (fun h => h.elim)
    rw [lookup_of_meets hmeets hp hnext]
    exact congrArg (fun k => some (e, k)) hk.symm
  · intro h
    obtain ⟨p, hmeets, hp, hk, hnext⟩ := meets_of_lookup h
    exact ⟨p, sees_of_meets hmeets (hp.length_le.trans hl), hp, hk, hnext⟩

/-- A pointer at the last level is the end of no walk. -/
theorem lookup_of_meets_last (h : Meets W mem root l e) (hnext : W.next e ≠ none) :
    lookup W.next mem root l = none := by
  obtain ⟨q, i, a, rfl, hq, rfl⟩ := h
  obtain ⟨b, hb⟩ := Option.ne_none_iff_exists'.mp hnext
  rw [lookup_append hq, lookup, hb]
  rfl

/-- A walk that ends at no entry has followed a pointer at the last level. -/
theorem exists_meets_of_lookup_eq_none (hl : l ≠ []) (h : lookup W.next mem root l = none) :
    ∃ e, Meets W mem root l e ∧ W.next e ≠ none := by
  induction l generalizing root with
  | nil => exact absurd rfl hl
  | cons i l ih =>
    rw [lookup] at h
    split at h
    · exact absurd h (by simp)
    · next b hnext =>
      cases l with
      | nil => exact ⟨_, ⟨[], i, root, rfl, rfl, rfl⟩, by rw [hnext]; simp⟩
      | cons j l =>
        obtain ⟨e, ⟨q, k, a, hq, hdescend, he⟩, hnone⟩ := ih (List.cons_ne_nil j l) h
        refine ⟨e, ⟨i :: q, k, a, by rw [hq, List.cons_append], ?_, he⟩, hnone⟩
        show (W.next (mem root i)).bind _ = _
        rw [hnext]
        exact hdescend

/-! ## Writes under a cache -/

/-- A memory with the same tables has the same entries. -/
theorem meets_of_agree (h : ∀ a ∈ tables W.next mem W.levels root, mem' a = mem a)
    (hp : p.length ≤ W.levels) (hmeets : Meets W mem root p e) : Meets W mem' root p e := by
  obtain ⟨q, i, a, rfl, hq, rfl⟩ := hmeets
  simp only [List.length_append, List.length_singleton] at hp
  refine ⟨q, i, a, rfl, (descend_eq_of_agree h (by omega)).trans hq, ?_⟩
  rw [h a ⟨q, by omega, hq⟩]

theorem Coherent.of_agree {stale : Set (List ι × ε)} (hC : Coherent mem root stale C)
    (h : ∀ a ∈ tables W.next mem W.levels root, mem' a = mem a) : Coherent mem' root stale C :=
  fun x hx => (hC x hx).imp_left (meets_of_agree h (C.length_le x hx))

section Write

variable [DecidableEq α] [DecidableEq ι]

/-- **Linking a table needs no fence**, if the walker does not remember the entry that is
replaced: what it remembers of other entries stays right. -/
theorem Coherent.link {stale : Set (List ι × ε)} (hC : Coherent mem root stale C)
    (ht : IsTree W.next mem W.levels root) (hq : descend W.next mem root q = some a)
    (hlen : q.length < W.levels) (hold : W.next (mem a i) = none) (hkeeps : ¬ W.keeps (mem a i))
    (hc : c ∉ tables W.next mem W.levels root) :
    Coherent (link mem c z a i e) root stale C := by
  intro x hx
  refine (hC x hx).imp_left (fun hmeets => ?_)
  obtain ⟨r, j, b, hp, hr, hb⟩ := hmeets
  have hle := C.length_le x hx
  rw [hp, List.length_append, List.length_singleton] at hle
  have hnot : ¬ q ++ [i] <+: r ++ [j] := by
    intro hpre
    rcases List.prefix_concat_iff.mp hpre with heq | hpre
    · -- the entry itself, which is not remembered
      obtain ⟨rfl, hij⟩ := List.append_inj' heq rfl
      cases hij
      rw [hr] at hq
      cases hq
      exact hkeeps (hb ▸ C.keeps x hx)
    · -- a path through it, which ends at it
      obtain ⟨t, rfl⟩ := hpre
      rw [descend_append, descend_concat hq, hold] at hr
      exact absurd hr (by simp)
  have hbc : b ≠ c := (ne_of_notMem_tables hc (by omega) hr).symm
  have hagree := fill_agree (z := z) hc
  refine ⟨r, j, b, hp, ?_, ?_⟩
  · rw [descend_link_of_avoids ht hq hlen hc (by omega)
      (fun h => hnot (h.trans (List.prefix_append r [j]))), hr]
  · rw [TableTree.link, write_eq_of_avoids (ht.of_agree hagree)
      ((descend_eq_of_agree hagree hlen.le).trans hq) hlen (p := r ++ [j])
      (by rw [List.length_append, List.length_singleton]; omega) hnot (List.prefix_refl _)
      ((descend_eq_of_agree hagree (by omega)).trans hr), fill_of_ne hbc, hb]

/-- The entry that a write at the end of a path leaves behind in a cache. -/
def Left (W : Walker α ε) (l : List ι) (e : ε) : Set (List ι × ε) :=
  {x | x = (l, e) ∧ W.next x.2 = none}

/-- **A write at the last level** leaves the old entry behind and no other. -/
theorem Coherent.write_last (hC : Coherent mem root ∅ C) (ht : IsTree W.next mem W.levels root)
    (hq : descend W.next mem root q = some a) (hlen : q.length + 1 = W.levels) :
    Coherent (write mem a i e) root (Left W (q ++ [i]) (mem a i)) C := by
  intro x hx
  obtain ⟨r, j, b, hp, hr, hb⟩ := (hC x hx).resolve_right (fun h => h.elim)
  have hle := C.length_le x hx
  rw [hp, List.length_append, List.length_singleton] at hle
  by_cases heq : r ++ [j] = q ++ [i]
  · obtain ⟨rfl, hij⟩ := List.append_inj' heq rfl
    cases hij
    rw [hr] at hq
    cases hq
    refine Or.inr ⟨Prod.ext hp hb.symm, C.last x hx ?_⟩
    rw [hp, List.length_append, List.length_singleton, hlen]
  · have hnot : ¬ q ++ [i] <+: r ++ [j] := by
      intro hpre
      refine heq (hpre.eq_of_length_le ?_).symm
      rw [List.length_append, List.length_append, List.length_singleton, List.length_singleton]
      omega
    refine Or.inl ⟨r, j, b, hp, ?_, ?_⟩
    · rw [descend_write_last ht hq hlen (by omega), hr]
    · rw [write_eq_of_avoids ht hq (by omega) (p := r ++ [j])
        (by rw [List.length_append, List.length_singleton]; omega) hnot (List.prefix_refl _) hr, hb]

end Write

/-! ## The effects of a program -/

/-- **What a program does to the tables** and to the caches of the walker. -/
inductive Effect (α ι ε : Type*) where
  /-- All entries of a table become the same. -/
  | fill (c : α) (z : ε)
  /-- An entry is written. -/
  | write (a : α) (i : ι) (e : ε)
  /-- What is remembered of entries that lead nowhere is given up along a path. -/
  | fence (l : List ι)
  /-- Everything that is remembered is given up. -/
  | flush

/-- **What the walker does by itself**: it remembers entries that it may see, and forgets
others. -/
def Refills (mem : α → ι → ε) (root : α) (C C' : Cache W ι) : Prop :=
  ∀ x ∈ C'.entries, x ∈ C.entries ∨ Sees mem root C x.1 x.2

/-- **The walker cannot break coherence.** -/
theorem Coherent.refills {stale : Set (List ι × ε)} (hC : Coherent mem root stale C)
    (hstale : ∀ x ∈ stale, W.next x.2 = none) (h : Refills mem root C C') :
    Coherent mem root stale C' :=
  fun x hx => (h x hx).elim (hC x) (hC.meets hstale)

variable [DecidableEq α] [DecidableEq ι]

/-- What is to be done, the memory and the cache. -/
structure Config (W : Walker α ε) (ι : Type*) where
  todo : List (Effect α ι ε)
  mem : α → ι → ε
  cache : Cache W ι

/-- **A step** of the walker, or of the program. A table is not filled at once, and its
entries are anything while that is done. -/
inductive Step (root : α) : Config W ι → Config W ι → Prop where
  | walk {es : List (Effect α ι ε)} {mem : α → ι → ε} {C C' : Cache W ι}
      (h : Refills mem root C C') : Step root ⟨es, mem, C⟩ ⟨es, mem, C'⟩
  | filling {c : α} {z : ε} {es : List (Effect α ι ε)} {mem mem' : α → ι → ε} {C : Cache W ι}
      (h : ∀ b, b ≠ c → mem' b = mem b) :
      Step root ⟨.fill c z :: es, mem, C⟩ ⟨.fill c z :: es, mem', C⟩
  | filled {c : α} {z : ε} {es : List (Effect α ι ε)} {mem : α → ι → ε} {C : Cache W ι} :
      Step root ⟨.fill c z :: es, mem, C⟩ ⟨es, fill mem c z, C⟩
  | write {a : α} {i : ι} {e : ε} {es : List (Effect α ι ε)} {mem : α → ι → ε} {C : Cache W ι} :
      Step root ⟨.write a i e :: es, mem, C⟩ ⟨es, TableTree.write mem a i e, C⟩
  | fence {l : List ι} {es : List (Effect α ι ε)} {mem : α → ι → ε} {C C' : Cache W ι}
      (h : ∀ x ∈ C'.entries, x ∈ C.entries ∧ ¬ (x.1 <+: l ∧ W.next x.2 = none)) :
      Step root ⟨.fence l :: es, mem, C⟩ ⟨es, mem, C'⟩
  | flush {es : List (Effect α ι ε)} {mem : α → ι → ε} {C : Cache W ι} :
      Step root ⟨.flush :: es, mem, C⟩ ⟨es, mem, Cache.empty W ι⟩

/-- What has come about after some steps. -/
def Reaches (root : α) : Config W ι → Config W ι → Prop := Relation.ReflTransGen (Step root)

/-- An assertion on the memory and the cache. -/
abbrev Assertion (W : Walker α ε) (ι : Type*) := (α → ι → ε) → Cache W ι → Prop

/-- The walker cannot break an assertion. -/
def Stable (root : α) (P : Assertion W ι) : Prop :=
  ∀ mem C C', P mem C → Refills mem root C C' → P mem C'

/-- **A program guarantees** that `I` holds at all times and `Q` at its end, if `P` holds at
its beginning. -/
def Ensures (root : α) (I P : Assertion W ι) (es : List (Effect α ι ε)) (Q : Assertion W ι) :
    Prop :=
  ∀ mem C, P mem C → ∀ x, Reaches root ⟨es, mem, C⟩ x →
    I x.mem x.cache ∧ (x.todo = [] → Q x.mem x.cache)

variable {I P Q R : Assertion W ι} {es es' : List (Effect α ι ε)}

/-! ## The rules -/

/-- A program that does nothing. -/
theorem ensures_nil (hstable : Stable root P) (hI : ∀ mem C, P mem C → I mem C) :
    Ensures root I P [] P := by
  intro mem C hP x hx
  have hkept : x.todo = [] ∧ P x.mem x.cache := by
    induction hx with
    | refl => exact ⟨rfl, hP⟩
    | tail _ hstep ih =>
      obtain ⟨htodo, hP⟩ := ih
      cases hstep with
      | walk h => exact ⟨htodo, hstable _ _ _ hP h⟩
      | filling _ | filled | write | fence _ | flush => exact absurd htodo (List.cons_ne_nil _ _)
  exact ⟨hI _ _ hkept.2, fun _ => hkept.2⟩

/-- **A program in steps**: while an effect is outstanding an assertion holds, and another
when it is done. -/
theorem ensures_cons {f : Effect α ι ε} (hI : ∀ mem C, P mem C → I mem C)
    (hstep : ∀ mem C x, P mem C → Step root ⟨f :: es, mem, C⟩ x →
      x.todo = f :: es ∧ P x.mem x.cache ∨ x.todo = es ∧ R x.mem x.cache)
    (h : Ensures root I R es Q) : Ensures root I P (f :: es) Q := by
  intro mem C hP x hx
  have hreach : (x.todo = f :: es ∧ P x.mem x.cache)
      ∨ ∃ mem₁ C₁, R mem₁ C₁ ∧ Reaches root ⟨es, mem₁, C₁⟩ x := by
    induction hx with
    | refl => exact Or.inl ⟨rfl, hP⟩
    | @tail y z _ hyz ih =>
      rcases ih with ⟨htodo, hP⟩ | ⟨mem₁, C₁, hR, hy⟩
      · obtain ⟨todo, mem, C⟩ := y
        subst htodo
        rcases hstep _ _ _ hP hyz with h | ⟨rfl, hR⟩
        · exact Or.inl h
        · exact Or.inr ⟨z.mem, z.cache, hR, .refl⟩
      · exact Or.inr ⟨mem₁, C₁, hR, hy.tail hyz⟩
  rcases hreach with ⟨htodo, hP⟩ | ⟨mem₁, C₁, hR, hx⟩
  · exact ⟨hI _ _ hP, fun hnil => absurd (htodo.symm.trans hnil) (List.cons_ne_nil _ _)⟩
  · exact h _ _ hR x hx

theorem ensures_write (hstable : Stable root P) (hI : ∀ mem C, P mem C → I mem C)
    (hwrite : ∀ mem C, P mem C → R (TableTree.write mem a i e) C) (h : Ensures root I R es Q) :
    Ensures root I P (.write a i e :: es) Q := by
  refine ensures_cons hI (fun mem C x hP hstep => ?_) h
  cases hstep with
  | walk h => exact Or.inl ⟨rfl, hstable _ _ _ hP h⟩
  | write => exact Or.inr ⟨rfl, hwrite _ _ hP⟩

/-- What is asserted does not depend on the table that is filled. -/
theorem ensures_fill (hstable : Stable root P) (hI : ∀ mem C, P mem C → I mem C)
    (hany : ∀ mem mem' C, P mem C → (∀ b, b ≠ c → mem' b = mem b) → P mem' C)
    (hfill : ∀ mem C, P mem C → R (TableTree.fill mem c z) C) (h : Ensures root I R es Q) :
    Ensures root I P (.fill c z :: es) Q := by
  refine ensures_cons hI (fun mem C x hP hstep => ?_) h
  cases hstep with
  | walk h => exact Or.inl ⟨rfl, hstable _ _ _ hP h⟩
  | filling h => exact Or.inl ⟨rfl, hany _ _ _ hP h⟩
  | filled => exact Or.inr ⟨rfl, hfill _ _ hP⟩

theorem ensures_fence (hstable : Stable root P) (hI : ∀ mem C, P mem C → I mem C)
    (hfence : ∀ mem C C', P mem C →
      (∀ x ∈ C'.entries, x ∈ C.entries ∧ ¬ (x.1 <+: l ∧ W.next x.2 = none)) → R mem C')
    (h : Ensures root I R es Q) : Ensures root I P (.fence l :: es) Q := by
  refine ensures_cons hI (fun mem C x hP hstep => ?_) h
  cases hstep with
  | walk h => exact Or.inl ⟨rfl, hstable _ _ _ hP h⟩
  | fence h => exact Or.inr ⟨rfl, hfence _ _ _ hP h⟩

theorem ensures_flush (hstable : Stable root P) (hI : ∀ mem C, P mem C → I mem C)
    (hflush : ∀ mem C, P mem C → R mem (Cache.empty W ι)) (h : Ensures root I R es Q) :
    Ensures root I P (.flush :: es) Q := by
  refine ensures_cons hI (fun mem C x hP hstep => ?_) h
  cases hstep with
  | walk h => exact Or.inl ⟨rfl, hstable _ _ _ hP h⟩
  | flush => exact Or.inr ⟨rfl, hflush _ _ hP⟩

/-- Weaker assertions. -/
theorem Ensures.mono {I' P' Q' : Assertion W ι} (h : Ensures root I P es Q)
    (hI : ∀ mem C, I mem C → I' mem C) (hP : ∀ mem C, P' mem C → P mem C)
    (hQ : ∀ mem C, Q mem C → Q' mem C) : Ensures root I' P' es Q' :=
  fun mem C hP' x hx => (h mem C (hP mem C hP') x hx).imp (hI _ _) (fun hq hnil => hQ _ _ (hq hnil))

/-- **One program after the other.** -/
theorem Ensures.append (h : Ensures root I P es R) (h' : Ensures root I R es' Q) :
    Ensures root I P (es ++ es') Q := by
  intro mem C hP x hx
  have hreach : (∃ es₁, x.todo = es₁ ++ es' ∧ Reaches root ⟨es, mem, C⟩ ⟨es₁, x.mem, x.cache⟩)
      ∨ ∃ mem₁ C₁, R mem₁ C₁ ∧ Reaches root ⟨es', mem₁, C₁⟩ x := by
    induction hx with
    | refl => exact Or.inl ⟨es, rfl, .refl⟩
    | @tail y z _ hyz ih =>
      rcases ih with ⟨es₁, htodo, hy⟩ | ⟨mem₁, C₁, hR, hy⟩
      · obtain ⟨todo, mem₁, C₁⟩ := y
        subst htodo
        cases es₁ with
        | nil => exact Or.inr ⟨mem₁, C₁, (h _ _ hP _ hy).2 rfl, .single hyz⟩
        | cons f es₁ =>
          refine Or.inl ?_
          cases hyz with
          | walk h => exact ⟨f :: es₁, rfl, hy.tail (.walk h)⟩
          | filling h => exact ⟨_ :: es₁, rfl, hy.tail (.filling h)⟩
          | filled => exact ⟨es₁, rfl, hy.tail .filled⟩
          | write => exact ⟨es₁, rfl, hy.tail .write⟩
          | fence h => exact ⟨es₁, rfl, hy.tail (.fence h)⟩
          | flush => exact ⟨es₁, rfl, hy.tail .flush⟩
      · exact Or.inr ⟨mem₁, C₁, hR, hy.tail hyz⟩
  rcases hreach with ⟨es₁, htodo, hy⟩ | ⟨mem₁, C₁, hR, hx⟩
  · refine ⟨(h _ _ hP _ hy).1, fun hnil => ?_⟩
    -- both programs are done
    obtain ⟨rfl, rfl⟩ := List.append_eq_nil_iff.mp (htodo.symm.trans hnil)
    exact (h' _ _ ((h _ _ hP _ hy).2 rfl) _ .refl).2 rfl
  · exact h' _ _ hR x hx

/-! ## The memory at the end -/

/-- What an effect makes of the memory. -/
def Effect.apply (mem : α → ι → ε) : Effect α ι ε → α → ι → ε
  | .fill c z => TableTree.fill mem c z
  | .write a i e => TableTree.write mem a i e
  | .fence _ => mem
  | .flush => mem

/-- What a program makes of the memory. -/
def run (es : List (Effect α ι ε)) (mem : α → ι → ε) : α → ι → ε := es.foldl Effect.apply mem

omit [DecidableEq ι] in
theorem fill_eq_of_ne (h : ∀ b, b ≠ c → mem' b = mem b) (z : ε) :
    TableTree.fill mem' c z = TableTree.fill mem c z := by
  funext b
  by_cases hb : b = c
  · subst hb
    funext i
    rw [fill_same, fill_same]
  · rw [fill_of_ne hb, fill_of_ne hb, h b hb]

/-- **The walker has no part in it.** -/
theorem run_of_reaches {x y : Config W ι} (h : Reaches root x y) :
    run y.todo y.mem = run x.todo x.mem := by
  induction h with
  | refl => rfl
  | tail _ hstep ih =>
    rw [← ih]
    cases hstep with
    | walk h => rfl
    | @filling c z es mem mem' C h =>
      show run es (TableTree.fill mem' c z) = run es (TableTree.fill mem c z)
      rw [fill_eq_of_ne h]
    | filled => rfl
    | write => rfl
    | fence h => rfl
    | flush => rfl

/-- A program can be run to its end. -/
theorem exists_reaches (root : α) (es : List (Effect α ι ε)) (mem : α → ι → ε) (C : Cache W ι) :
    ∃ C', Reaches root ⟨es, mem, C⟩ ⟨[], run es mem, C'⟩ := by
  induction es generalizing mem C with
  | nil => exact ⟨C, .refl⟩
  | cons f es ih =>
    cases f with
    | fill c z =>
      obtain ⟨C', h⟩ := ih (TableTree.fill mem c z) C
      exact ⟨C', .head .filled h⟩
    | write a i e =>
      obtain ⟨C', h⟩ := ih (TableTree.write mem a i e) C
      exact ⟨C', .head .write h⟩
    | fence l =>
      obtain ⟨C', h⟩ := ih mem (Cache.empty W ι)
      exact ⟨C', .head (.fence (fun _ hx => (Set.notMem_empty _ hx).elim)) h⟩
    | flush =>
      obtain ⟨C', h⟩ := ih mem (Cache.empty W ι)
      exact ⟨C', .head .flush h⟩

/-- A program with a known end. -/
theorem Ensures.run_eq {mem₁ : α → ι → ε} (h : Ensures root I P es Q)
    (hQ : ∀ mem C, Q mem C → mem = mem₁) (hP : P mem C) : run es mem = mem₁ := by
  obtain ⟨C', hreach⟩ := exists_reaches root es mem C
  exact hQ _ _ ((h _ _ hP _ hreach).2 rfl)

/-- **A flush at the end of a program** makes any cache coherent. -/
theorem coherent_of_flush {x : Config W ι} (h : Reaches root ⟨es ++ [.flush], mem, C⟩ x)
    (hx : x.todo = []) : x.mem = run es mem ∧ Coherent x.mem root ∅ x.cache := by
  have hmem := run_of_reaches h
  rw [hx] at hmem
  have hall : Ensures root (fun _ _ => True) (fun _ (_ : Cache W ι) => True) es (fun _ _ => True) :=
    fun _ _ _ _ _ => ⟨trivial, fun _ => trivial⟩
  have hflush : Ensures root (fun _ _ => True) (fun _ (_ : Cache W ι) => True) [.flush]
      (fun mem C => Coherent mem root ∅ C) :=
    ensures_flush (fun _ _ _ _ _ => trivial) (fun _ _ _ => trivial) (fun _ _ _ => coherent_empty ∅)
      (ensures_nil (fun _ _ _ hC h => hC.refills (fun _ hx => hx.elim) h) (fun _ _ _ => trivial))
  refine ⟨hmem.trans ?_, ((hall.append hflush) _ _ trivial x h).2 hx⟩
  show (es ++ [Effect.flush]).foldl Effect.apply mem = _
  rw [List.foldl_append]
  rfl

end WalkCache
