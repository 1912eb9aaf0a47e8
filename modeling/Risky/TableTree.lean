import Mathlib.Tactic

/-!
# Trees of tables in memory

A memory holds tables, each an array of entries, and an entry may point to
another table. Starting from a root table, a path of indices leads from table
to table. When no table is reached along two paths the tables form a *tree*,
and what a walk meets is then easily told after a write:

* an entry is met by the walks through it and by no others
  (`TableTree.lookup_write_of_avoids`);
* linking a fresh table of empty entries in place of an entry that points
  nowhere adds that table and its path, and nothing else
  (`TableTree.isTree_link`, `TableTree.tables_link`).

Tables are named by a type `α` and indexed by a type `ι`. Which entries are
pointers is given by `next`.
-/

namespace TableTree

variable {α ι ε : Type*} {next : ε → Option α} {mem mem' : α → ι → ε}
variable {root a b c : α} {i j : ι} {p q r : List ι} {n : ℕ} {e : ε}

/-! ## Walks -/

/-- The table at the end of a path of indices. -/
def descend (next : ε → Option α) (mem : α → ι → ε) : α → List ι → Option α
  | a, [] => some a
  | a, i :: p => (next (mem a i)).bind (fun b => descend next mem b p)

/-- **The entry at which a walk stops**: the first one on the path that points
nowhere, with the number of indices left over. -/
def lookup (next : ε → Option α) (mem : α → ι → ε) : α → List ι → Option (ε × ℕ)
  | _, [] => none
  | a, i :: p =>
    match next (mem a i) with
    | none => some (mem a i, p.length)
    | some b => lookup next mem b p

@[simp] theorem descend_nil : descend next mem a ([] : List ι) = some a := rfl

theorem descend_append :
    descend next mem a (p ++ q) = (descend next mem a p).bind (descend next mem · q) := by
  induction p generalizing a with
  | nil => rfl
  | cons i p ih =>
    show (next (mem a i)).bind (fun b => descend next mem b (p ++ q)) = _
    simp only [ih]
    rw [← Option.bind_assoc]
    rfl

theorem descend_concat (h : descend next mem root q = some a) :
    descend next mem root (q ++ [i]) = next (mem a i) := by
  rw [descend_append, h]
  show (next (mem a i)).bind some = next (mem a i)
  exact Option.bind_fun_some _

/-- A walk through a table starts over from it. -/
theorem lookup_append (h : descend next mem a q = some b) :
    lookup next mem a (q ++ p) = lookup next mem b p := by
  induction q generalizing a with
  | nil =>
    cases h
    rfl
  | cons i q ih =>
    obtain ⟨c, hc, hrest⟩ := Option.bind_eq_some_iff.mp h
    show lookup next mem a (i :: (q ++ p)) = _
    rw [lookup, hc]
    exact ih hrest

theorem lookup_cons_of_none (h : next (mem a i) = none) :
    lookup next mem a (i :: p) = some (mem a i, p.length) := by
  rw [lookup, h]

/-- A walk with one index left stops at its entry. -/
theorem lookup_singleton {k : ℕ} (h : lookup next mem a [i] = some (e, k)) :
    mem a i = e ∧ k = 0 := by
  cases hnext : next (mem a i) with
  | none =>
    rw [lookup_cons_of_none hnext] at h
    cases h
    exact ⟨rfl, rfl⟩
  | some b =>
    rw [lookup, hnext] at h
    exact absurd h (by simp [lookup])

/-- A walk stops at an entry of the memory, before the end of its path. -/
theorem lookup_eq_some {k : ℕ} (h : lookup next mem a p = some (e, k)) :
    k < p.length ∧ ∃ b j, e = mem b j := by
  induction p generalizing a with
  | nil => exact absurd h (by simp [lookup])
  | cons i p ih =>
    rw [lookup] at h
    split at h
    · cases h
      exact ⟨Nat.lt_succ_self _, a, i, rfl⟩
    · obtain ⟨hlt, hmem⟩ := ih h
      exact ⟨hlt.trans (Nat.lt_succ_self _), hmem⟩

/-- **A walk only reads the entries on its path.** -/
theorem descend_congr
    (h : ∀ r j, r ++ [j] <+: p → ∀ b, descend next mem a r = some b → mem' b j = mem b j) :
    descend next mem' a p = descend next mem a p := by
  induction p generalizing a with
  | nil => rfl
  | cons i p ih =>
    have hfirst : mem' a i = mem a i := h [] i ⟨p, rfl⟩ a rfl
    show (next (mem' a i)).bind (fun b => descend next mem' b p)
      = (next (mem a i)).bind (fun b => descend next mem b p)
    rw [hfirst]
    cases hn : next (mem a i) with
    | none => rfl
    | some c =>
      refine ih (fun r j hr b hb => h (i :: r) j (List.prefix_cons_inj i |>.mpr hr) b ?_)
      show (next (mem a i)).bind (fun b => descend next mem b r) = some b
      rw [hn]
      exact hb

theorem lookup_congr
    (h : ∀ r j, r ++ [j] <+: p → ∀ b, descend next mem a r = some b → mem' b j = mem b j) :
    lookup next mem' a p = lookup next mem a p := by
  induction p generalizing a with
  | nil => rfl
  | cons i p ih =>
    have hfirst : mem' a i = mem a i := h [] i ⟨p, rfl⟩ a rfl
    rw [lookup, lookup, hfirst]
    cases hn : next (mem a i) with
    | none => rfl
    | some c =>
      refine ih (fun r j hr b hb => h (i :: r) j (List.prefix_cons_inj i |>.mpr hr) b ?_)
      show (next (mem a i)).bind (fun b => descend next mem b r) = some b
      rw [hn]
      exact hb

/-! ## Trees -/

/-- The tables reached by paths shorter than `n`. -/
def tables (next : ε → Option α) (mem : α → ι → ε) (n : ℕ) (root : α) : Set α :=
  {a | ∃ p : List ι, p.length < n ∧ descend next mem root p = some a}

/-- **No table is reached along two paths** shorter than `n`. -/
def IsTree (next : ε → Option α) (mem : α → ι → ε) (n : ℕ) (root : α) : Prop :=
  ∀ (a : α) (p q : List ι), p.length < n → q.length < n →
    descend next mem root p = some a → descend next mem root q = some a → p = q

theorem root_mem_tables (h : 0 < n) : root ∈ tables next mem n root :=
  ⟨[], h, rfl⟩

/-- From a table without pointers no other is reached. -/
theorem descend_eq_some_iff_of_empty (h : ∀ i, next (mem root i) = none) :
    descend next mem root p = some a ↔ p = [] ∧ a = root := by
  cases p with
  | nil => simp [descend, eq_comm]
  | cons i p => simp [descend, h]

theorem tables_of_empty (hn : 0 < n) (h : ∀ i, next (mem root i) = none) :
    tables next mem n root = {root} := by
  ext a
  rw [Set.mem_singleton_iff]
  constructor
  · rintro ⟨p, -, hp⟩
    exact ((descend_eq_some_iff_of_empty h).mp hp).2
  · rintro rfl
    exact root_mem_tables hn

theorem isTree_of_empty (h : ∀ i, next (mem root i) = none) : IsTree next mem n root := by
  intro a p q _ _ hp hq
  rw [((descend_eq_some_iff_of_empty h).mp hp).1, ((descend_eq_some_iff_of_empty h).mp hq).1]

theorem ne_of_notMem_tables (hc : c ∉ tables next mem n root) (hlen : q.length < n)
    (hq : descend next mem root q = some a) : c ≠ a :=
  fun h => hc ⟨q, hlen, h ▸ hq⟩

/-- A memory that agrees on every table has the same walks. -/
theorem descend_eq_of_agree (h : ∀ a ∈ tables next mem n root, mem' a = mem a)
    (hp : p.length ≤ n) : descend next mem' root p = descend next mem root p := by
  refine descend_congr (fun r j hr b hb => congrFun (h b ⟨r, ?_, hb⟩) j)
  have := hr.length_le
  simp only [List.length_append, List.length_singleton] at this
  omega

theorem lookup_eq_of_agree (h : ∀ a ∈ tables next mem n root, mem' a = mem a)
    (hp : p.length ≤ n) : lookup next mem' root p = lookup next mem root p := by
  refine lookup_congr (fun r j hr b hb => congrFun (h b ⟨r, ?_, hb⟩) j)
  have := hr.length_le
  simp only [List.length_append, List.length_singleton] at this
  omega

theorem tables_eq_of_agree (h : ∀ a ∈ tables next mem n root, mem' a = mem a) :
    tables next mem' n root = tables next mem n root := by
  ext a
  refine exists_congr (fun p => and_congr_right (fun hp => ?_))
  rw [descend_eq_of_agree h hp.le]

theorem IsTree.of_agree (ht : IsTree next mem n root)
    (h : ∀ a ∈ tables next mem n root, mem' a = mem a) : IsTree next mem' n root := by
  intro a p q hp hq hpa hqa
  rw [descend_eq_of_agree h hp.le] at hpa
  rw [descend_eq_of_agree h hq.le] at hqa
  exact ht a p q hp hq hpa hqa

/-- **Pointers that are read alike** above the last level lead to the same
tables. -/
theorem descend_eq_of_next {next' : ε → Option α}
    (h : ∀ q b i, q.length + 1 < n → descend next mem root q = some b →
      next' (mem b i) = next (mem b i)) (hp : p.length < n) :
    descend next' mem root p = descend next mem root p := by
  induction p using List.reverseRecOn with
  | nil => rfl
  | append_singleton q i ih =>
    rw [List.length_append, List.length_singleton] at hp
    rw [descend_append, descend_append, ih (by omega)]
    cases hq : descend next mem root q with
    | none => rfl
    | some b =>
      show (next' (mem b i)).bind some = (next (mem b i)).bind some
      rw [h q b i hp hq]

theorem tables_eq_of_next {next' : ε → Option α}
    (h : ∀ q b i, q.length + 1 < n → descend next mem root q = some b →
      next' (mem b i) = next (mem b i)) :
    tables next' mem n root = tables next mem n root := by
  ext a
  refine exists_congr (fun p => and_congr_right (fun hp => ?_))
  rw [descend_eq_of_next h hp]

theorem IsTree.of_next {next' : ε → Option α} (ht : IsTree next mem n root)
    (h : ∀ q b i, q.length + 1 < n → descend next mem root q = some b →
      next' (mem b i) = next (mem b i)) : IsTree next' mem n root := by
  intro a p q hp hq hpa hqa
  rw [descend_eq_of_next h hp] at hpa
  rw [descend_eq_of_next h hq] at hqa
  exact ht a p q hp hq hpa hqa

/-! ## Writing an entry -/

section Write

variable [DecidableEq α]

/-- Fill the table `c` with the entry `z`. -/
def fill (mem : α → ι → ε) (c : α) (z : ε) : α → ι → ε :=
  Function.update mem c (fun _ => z)

@[simp] theorem fill_same {z : ε} : fill mem c z c i = z := by
  unfold fill
  rw [Function.update_self]

theorem fill_of_ne {z : ε} (h : b ≠ c) : fill mem c z b = mem b := by
  unfold fill
  rw [Function.update_of_ne h]

/-- Filling a table that is not in the tree changes no table that is. -/
theorem fill_agree {z : ε} (hc : c ∉ tables next mem n root) :
    ∀ a ∈ tables next mem n root, fill mem c z a = mem a :=
  fun _ ha => fill_of_ne (fun heq => hc (heq ▸ ha))

variable [DecidableEq ι]

/-- Write the entry `i` of the table `a`. -/
def write (mem : α → ι → ε) (a : α) (i : ι) (e : ε) : α → ι → ε :=
  Function.update mem a (Function.update (mem a) i e)

@[simp] theorem write_same : write mem a i e a i = e := by
  unfold write
  rw [Function.update_self, Function.update_self]

theorem write_of_ne (h : b ≠ a ∨ j ≠ i) : write mem a i e b j = mem b j := by
  unfold write
  by_cases hb : b = a
  · subst hb
    rw [Function.update_self, Function.update_of_ne (h.resolve_left (fun hne => hne rfl))]
  · rw [Function.update_of_ne hb]

/-- An entry after a write is the one written or the one it was. -/
theorem write_eq_or (mem : α → ι → ε) (a b : α) (i j : ι) (e : ε) :
    write mem a i e b j = e ∨ write mem a i e b j = mem b j := by
  by_cases h : b = a ∧ j = i
  · obtain ⟨rfl, rfl⟩ := h
    exact Or.inl write_same
  · exact Or.inr (write_of_ne (not_and_or.mp h))

/-- In a tree the entry `i` of the table at `q` is read on no path but those
through it. -/
theorem write_eq_of_avoids (ht : IsTree next mem n root)
    (hq : descend next mem root q = some a) (hlen : q.length < n) (hp : p.length ≤ n)
    (hnot : ¬ q ++ [i] <+: p) (hr : r ++ [j] <+: p)
    (hb : descend next mem root r = some b) : write mem a i e b j = mem b j := by
  refine write_of_ne ?_
  by_contra hcon
  rw [not_or, not_not, not_not] at hcon
  obtain ⟨rfl, rfl⟩ := hcon
  have hrlen : r.length < n := by
    have := hr.length_le
    simp only [List.length_append, List.length_singleton] at this
    omega
  exact hnot (ht b q r hlen hrlen hq hb ▸ hr)

/-- **A write moves no walk that does not go through the entry.** -/
theorem descend_write_of_avoids (ht : IsTree next mem n root)
    (hq : descend next mem root q = some a) (hlen : q.length < n) (hp : p.length ≤ n)
    (hnot : ¬ q ++ [i] <+: p) :
    descend next (write mem a i e) root p = descend next mem root p :=
  descend_congr (fun _ _ hr _ hb => write_eq_of_avoids ht hq hlen hp hnot hr hb)

theorem lookup_write_of_avoids (ht : IsTree next mem n root)
    (hq : descend next mem root q = some a) (hlen : q.length < n) (hp : p.length ≤ n)
    (hnot : ¬ q ++ [i] <+: p) :
    lookup next (write mem a i e) root p = lookup next mem root p :=
  lookup_congr (fun _ _ hr _ hb => write_eq_of_avoids ht hq hlen hp hnot hr hb)

/-- The table at `q` is still there after a write to one of its entries. -/
theorem descend_write_self (ht : IsTree next mem n root)
    (hq : descend next mem root q = some a) (hlen : q.length < n) :
    descend next (write mem a i e) root q = some a := by
  rw [descend_write_of_avoids ht hq hlen hlen.le (fun h => ?_), hq]
  have := h.length_le
  simp only [List.length_append, List.length_singleton] at this
  omega

/-- **Written in the last table of its path, an entry leads nowhere**, so no
table comes or goes. -/
theorem descend_write_last (ht : IsTree next mem n root)
    (hq : descend next mem root q = some a) (hlen : q.length + 1 = n) (hp : p.length < n) :
    descend next (write mem a i e) root p = descend next mem root p := by
  refine descend_write_of_avoids ht hq (by omega) hp.le (fun h => ?_)
  have := h.length_le
  simp only [List.length_append, List.length_singleton] at this
  omega

theorem tables_write_last (ht : IsTree next mem n root)
    (hq : descend next mem root q = some a) (hlen : q.length + 1 = n) :
    tables next (write mem a i e) n root = tables next mem n root := by
  ext b
  refine exists_congr (fun p => and_congr_right (fun hp => ?_))
  rw [descend_write_last ht hq hlen hp]

theorem isTree_write_last (ht : IsTree next mem n root)
    (hq : descend next mem root q = some a) (hlen : q.length + 1 = n) :
    IsTree next (write mem a i e) n root := by
  intro b p r hp hr hpb hrb
  rw [descend_write_last ht hq hlen hp] at hpb
  rw [descend_write_last ht hq hlen hr] at hrb
  exact ht b p r hp hr hpb hrb

/-! ## Linking a fresh table -/

/-- Fill the table `c` with the entry `z` and write `e` into the entry `i` of
the table `a`. -/
def link (mem : α → ι → ε) (c : α) (z : ε) (a : α) (i : ι) (e : ε) : α → ι → ε :=
  write (fill mem c z) a i e

/-- Every entry of the new table is `z`. -/
theorem link_new {z : ε} (hne : c ≠ a) : link mem c z a i e c j = z := by
  rw [link, write_of_ne (Or.inl hne), fill_same]

section Link

variable {z : ε} (ht : IsTree next mem n root) (hq : descend next mem root q = some a)
  (hlen : q.length < n) (hold : next (mem a i) = none) (hc : c ∉ tables next mem n root)
  (he : next e = some c) (hz : next z = none)

include ht hq hlen hc

theorem descend_link_of_avoids (hp : p.length ≤ n) (hnot : ¬ q ++ [i] <+: p) :
    descend next (link mem c z a i e) root p = descend next mem root p := by
  have hagree := fill_agree (z := z) hc
  rw [link, descend_write_of_avoids (ht.of_agree hagree)
    ((descend_eq_of_agree hagree hlen.le).trans hq) hlen hp hnot, descend_eq_of_agree hagree hp]

/-- **No walk but those through the entry sees the new table.** -/
theorem lookup_link_of_avoids (hp : p.length ≤ n) (hnot : ¬ q ++ [i] <+: p) :
    lookup next (link mem c z a i e) root p = lookup next mem root p := by
  have hagree := fill_agree (z := z) hc
  rw [link, lookup_write_of_avoids (ht.of_agree hagree)
    ((descend_eq_of_agree hagree hlen.le).trans hq) hlen hp hnot, lookup_eq_of_agree hagree hp]

include hold in
/-- **A walk that ends at another entry** is not moved. -/
theorem lookup_link_of_ne {e' : ε} {k : ℕ} (hp : p.length ≤ n)
    (hend : lookup next mem root p = some (e', k)) (hne : mem a i ≠ e') :
    lookup next (link mem c z a i e) root p = some (e', k) := by
  by_cases hpre : q ++ [i] <+: p
  · -- a walk through the entry stops there
    obtain ⟨r, rfl⟩ := hpre
    rw [List.append_assoc, lookup_append hq, List.singleton_append,
      lookup_cons_of_none hold] at hend
    exact absurd (Prod.mk.inj (Option.some.inj hend)).1 hne
  · rw [lookup_link_of_avoids ht hq hlen hc hp hpre, hend]

theorem descend_link_self : descend next (link mem c z a i e) root q = some a := by
  rw [descend_link_of_avoids ht hq hlen hc hlen.le (fun h => ?_), hq]
  have := h.length_le
  simp only [List.length_append, List.length_singleton] at this
  omega

include he

/-- The new table is at the end of the path through the entry. -/
theorem descend_link_new : descend next (link mem c z a i e) root (q ++ [i]) = some c := by
  rw [descend_concat (descend_link_self ht hq hlen hc), link, write_same, he]

include hz

/-- A walk through the new table stops there. -/
theorem lookup_link_new :
    lookup next (link mem c z a i e) root (q ++ i :: j :: p) = some (z, p.length) := by
  have hnew : link mem c z a i e c j = z := link_new (ne_of_notMem_tables hc hlen hq)
  rw [show q ++ i :: j :: p = (q ++ [i]) ++ j :: p by simp,
    lookup_append (descend_link_new ht hq hlen hc he), lookup_cons_of_none, hnew]
  rw [hnew, hz]

include hold

theorem descend_link (hp : p.length ≤ n) :
    descend next (link mem c z a i e) root p = some b
      ↔ (p = q ++ [i] ∧ b = c) ∨ descend next mem root p = some b := by
  have hnone : descend next mem root (q ++ [i]) = none := by rw [descend_concat hq, hold]
  have hnew := descend_link_new (z := z) (i := i) ht hq hlen hc he
  by_cases hpre : q ++ [i] <+: p
  · obtain ⟨r, rfl⟩ := hpre
    rw [descend_append (p := q ++ [i]), descend_append (p := q ++ [i]), hnone, hnew]
    cases r with
    | nil => simp [eq_comm]
    | cons j r =>
      have hz' : next (link mem c z a i e c j) = none := by
        rw [link_new (ne_of_notMem_tables hc hlen hq), hz]
      simp [descend, hz']
  · rw [descend_link_of_avoids ht hq hlen hc hp hpre]
    refine ⟨Or.inr, fun h => h.resolve_left (fun h' => hpre ?_)⟩
    exact ⟨[], by rw [h'.1, List.append_nil]⟩

/-- **Linking adds one table.** -/
theorem tables_link (hlen' : q.length + 1 < n) :
    tables next (link mem c z a i e) n root = insert c (tables next mem n root) := by
  ext b
  rw [Set.mem_insert_iff]
  constructor
  · rintro ⟨p, hp, hb⟩
    rcases (descend_link ht hq hlen hold hc he hz hp.le).mp hb with ⟨-, rfl⟩ | hb
    · exact Or.inl rfl
    · exact Or.inr ⟨p, hp, hb⟩
  · rintro (rfl | ⟨p, hp, hb⟩)
    · exact ⟨q ++ [i], by simpa using hlen', descend_link_new ht hq hlen hc he⟩
    · exact ⟨p, hp, (descend_link ht hq hlen hold hc he hz hp.le).mpr (Or.inr hb)⟩

/-- **Linking keeps the tree.** -/
theorem isTree_link : IsTree next (link mem c z a i e) n root := by
  intro b p r hp hr hpb hrb
  rcases (descend_link ht hq hlen hold hc he hz hp.le).mp hpb with ⟨rfl, rfl⟩ | hpb'
  · rcases (descend_link ht hq hlen hold hc he hz hr.le).mp hrb with ⟨rfl, -⟩ | hrb'
    · rfl
    · exact absurd ⟨r, hr, hrb'⟩ hc
  · rcases (descend_link ht hq hlen hold hc he hz hr.le).mp hrb with ⟨-, rfl⟩ | hrb'
    · exact absurd ⟨p, hp, hpb'⟩ hc
    · exact ht b p r hp hr hpb' hrb'

end Link

end Write

end TableTree
