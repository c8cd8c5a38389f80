/-
Maps kept as lists in the order of their keys, each key once: what a balanced tree holds, read in order.

- `OrdMap`: the list with its order; `get?`, `insert`, `ofList`, `keys`.
`get?_insert`: what a change does to a lookup. `ext_get?`: two maps with the same lookups are the same,
so `ofList` of a list with distinct keys does not depend on its order (`ofList_perm`).
-/
import Mathlib.Tactic

/-- a map as the list of its entries, in strict order of their keys -/
structure OrdMap (K V : Type*) [LinearOrder K] where
  entries : List (K × V)
  sorted : entries.Pairwise fun a b => a.1 < b.1
  deriving DecidableEq

namespace OrdMap

open List

variable {K V : Type*} [LinearOrder K]

variable {m : OrdMap K V}

theorem ext {n : OrdMap K V} (h : m.entries = n.entries) : m = n := by
  cases m
  cases n
  cases h
  rfl

def empty : OrdMap K V := ⟨[], Pairwise.nil⟩

def get? (m : OrdMap K V) (k : K) : Option V := m.entries.lookup k

def keys (m : OrdMap K V) : List K := m.entries.map Prod.fst

def insertEntry (k : K) (v : V) : List (K × V) → List (K × V)
  | [] => [(k, v)]
  | e :: rest =>
    if k < e.1 then (k, v) :: e :: rest else if k = e.1 then (k, v) :: rest else e :: insertEntry k v rest

variable {k : K} {v : V} {l : List (K × V)}

theorem mem_insertEntry {e : K × V} (h : e ∈ insertEntry k v l) : e = (k, v) ∨ e ∈ l := by
  induction l with
  | nil =>
    rw [insertEntry, mem_singleton] at h
    exact .inl h
  | cons first rest ih =>
    rw [insertEntry] at h
    split at h
    next => exact mem_cons.1 h
    next =>
      split at h
      next =>
        rcases mem_cons.1 h with rfl | h
        · exact .inl rfl
        · exact .inr (.tail _ h)
      next =>
        rcases mem_cons.1 h with rfl | h
        · exact .inr mem_cons_self
        · exact (ih h).imp_right (mem_cons_of_mem _)

theorem sorted_insertEntry (h : l.Pairwise fun a b => a.1 < b.1) :
    (insertEntry k v l).Pairwise fun a b => a.1 < b.1 := by
  induction l with
  | nil => exact pairwise_singleton _ _
  | cons first rest ih =>
    obtain ⟨hfirst, hrest⟩ := pairwise_cons.1 h
    rw [insertEntry]
    split
    next hlt =>
      refine pairwise_cons.2 ⟨?_, h⟩
      intro e he
      rcases mem_cons.1 he with rfl | he
      · exact hlt
      · exact hlt.trans (hfirst e he)
    next hlt =>
      split
      next heq => exact pairwise_cons.2 ⟨fun e he => heq ▸ hfirst e he, hrest⟩
      next hne =>
        refine pairwise_cons.2 ⟨?_, ih hrest⟩
        intro e he
        rcases mem_insertEntry he with rfl | he
        · exact lt_of_le_of_ne (not_lt.1 hlt) (Ne.symm hne)
        · exact hfirst e he

def insert (m : OrdMap K V) (k : K) (v : V) : OrdMap K V := ⟨insertEntry k v m.entries, sorted_insertEntry m.sorted⟩

/-- the entries of a list, a later one replacing an earlier one of the same key -/
def ofList (l : List (K × V)) : OrdMap K V := l.foldl (fun m e => m.insert e.1 e.2) empty

@[simp] theorem get?_empty (k : K) : (empty : OrdMap K V).get? k = none := rfl

theorem lookup_cons_if (e : K × V) (l : List (K × V)) (k : K) :
    (e :: l).lookup k = if k = e.1 then some e.2 else l.lookup k := by
  rw [lookup_cons]
  by_cases h : k = e.1
  · rw [if_pos h, beq_iff_eq.2 h]
  · rw [if_neg h, beq_false_of_ne h]

theorem lookup_insertEntry (k k' : K) (v : V) (l : List (K × V)) :
    (insertEntry k v l).lookup k' = if k' = k then some v else l.lookup k' := by
  induction l with
  | nil => rw [insertEntry, lookup_cons_if, lookup_nil]
  | cons first rest ih =>
    rw [insertEntry]
    split
    next => rw [lookup_cons_if]
    next =>
      split
      next heq => rw [lookup_cons_if, lookup_cons_if, heq]; split <;> rfl
      next hne =>
        rw [lookup_cons_if, lookup_cons_if, ih]
        by_cases h : k' = first.1
        · have hk : k' ≠ k := fun hk => hne (hk.symm.trans h)
          rw [if_pos h, if_neg hk, if_pos h]
        · rw [if_neg h, if_neg h]

theorem get?_insert (m : OrdMap K V) (k k' : K) (v : V) :
    (m.insert k v).get? k' = if k' = k then some v else m.get? k' := lookup_insertEntry k k' v m.entries

theorem lookup_eq_some_of_nodup (hnodup : (l.map Prod.fst).Nodup) : l.lookup k = some v ↔ (k, v) ∈ l := by
  induction l with
  | nil => simp
  | cons first rest ih =>
    obtain ⟨hnot, hrest⟩ := nodup_cons.1 hnodup
    obtain ⟨k₁, v₁⟩ := first
    rw [lookup_cons_if, mem_cons]
    by_cases h : k = k₁
    · subst h
      have hno : (k, v) ∉ rest := fun he => hnot (mem_map.2 ⟨_, he, rfl⟩)
      simp [hno, eq_comm]
    · simp [ih hrest, h]

theorem keys_nodup (m : OrdMap K V) : (m.entries.map Prod.fst).Nodup :=
  pairwise_map.2 (m.sorted.imp fun hlt => hlt.ne)

/-- an entry is what the lookup of its key answers -/
theorem get?_eq_some : m.get? k = some v ↔ (k, v) ∈ m.entries :=
  lookup_eq_some_of_nodup m.keys_nodup

theorem ext_get? {n : OrdMap K V} (h : ∀ k, m.get? k = n.get? k) : m = n := by
  apply ext
  have hperm : m.entries.Perm n.entries := by
    apply (perm_ext_iff_of_nodup m.keys_nodup.of_map n.keys_nodup.of_map).2
    rintro ⟨k, v⟩
    rw [← get?_eq_some, ← get?_eq_some, h]
  exact hperm.eq_of_pairwise (fun _ _ _ _ hab hba => absurd hba hab.asymm) m.sorted n.sorted

theorem get?_foldl_insert (hnodup : (l.map Prod.fst).Nodup) (m : OrdMap K V) (k : K) :
    (l.foldl (fun m e => m.insert e.1 e.2) m).get? k = (l.lookup k).or (m.get? k) := by
  induction l generalizing m with
  | nil => rfl
  | cons first rest ih =>
    obtain ⟨hnot, hrest⟩ := nodup_cons.1 hnodup
    rw [foldl_cons, ih hrest, get?_insert, lookup_cons_if]
    by_cases h : k = first.1
    · have hnone : rest.lookup k = none := by
        rw [lookup_eq_none_iff]
        intro e he
        apply bne_iff_ne.2
        rintro rfl
        exact hnot (h ▸ mem_map_of_mem he)
      rw [hnone, if_pos h, if_pos h]
      rfl
    · rw [if_neg h, if_neg h]

theorem get?_ofList (hnodup : (l.map Prod.fst).Nodup) : (ofList l).get? k = some v ↔ (k, v) ∈ l := by
  rw [ofList, get?_foldl_insert hnodup, get?_empty, Option.or_none, lookup_eq_some_of_nodup hnodup]

/-- **Order does not matter.** Two lists of the same entries with distinct keys make one map. -/
theorem ofList_perm {l' : List (K × V)} (hnodup : (l.map Prod.fst).Nodup) (hperm : l.Perm l') :
    ofList l = ofList l' := by
  have hnodup' : (l'.map Prod.fst).Nodup := (hperm.map Prod.fst).nodup_iff.1 hnodup
  apply ext_get?
  intro k
  apply Option.ext
  intro v
  rw [get?_ofList hnodup, get?_ofList hnodup', hperm.mem_iff]

theorem mem_keys : k ∈ m.keys ↔ ∃ v, m.get? k = some v := by
  rw [keys, mem_map]
  constructor
  · rintro ⟨⟨k', v⟩, he, rfl⟩
    exact ⟨v, get?_eq_some.2 he⟩
  · rintro ⟨v, hv⟩
    exact ⟨(k, v), get?_eq_some.1 hv, rfl⟩

theorem mem_keys_insert {k' : K} : k' ∈ (m.insert k v).keys ↔ k' = k ∨ k' ∈ m.keys := by
  rw [mem_keys, mem_keys]
  constructor
  · rintro ⟨w, hw⟩
    rw [get?_insert] at hw
    split at hw
    next heq => exact .inl heq
    next => exact .inr ⟨w, hw⟩
  · intro h
    by_cases heq : k' = k
    · exact ⟨v, by rw [get?_insert, if_pos heq]⟩
    · obtain ⟨w, hw⟩ := h.resolve_left heq
      exact ⟨w, by rw [get?_insert, if_neg heq, hw]⟩

theorem mem_keys_foldl_insert :
    k ∈ (l.foldl (fun m e => m.insert e.1 e.2) m).keys ↔ k ∈ l.map Prod.fst ∨ k ∈ m.keys := by
  induction l generalizing m with
  | nil => simp
  | cons first rest ih =>
    rw [foldl_cons, ih, mem_keys_insert, map_cons, mem_cons]
    tauto

@[simp] theorem mem_keys_ofList : k ∈ (ofList l).keys ↔ k ∈ l.map Prod.fst := by
  rw [ofList, mem_keys_foldl_insert]
  exact or_iff_left not_mem_nil

end OrdMap
