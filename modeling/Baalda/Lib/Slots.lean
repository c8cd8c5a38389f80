/-
Lists whose entries are added at the end, changed and removed by place: what is in them then.
-/
import Mathlib.Tactic

namespace Slots

variable {α : Type*} {l : List α} {i : ℕ} {x : α}

theorem mem_set_of_ne {y z : α} (hi : l[i]? = some x) (hy : y ∈ l) (hne : y ≠ x) : y ∈ l.set i z := by
  obtain ⟨j, hj⟩ := List.mem_iff_getElem?.1 hy
  have hij : i ≠ j := by
    rintro rfl
    exact hne (Option.some.inj (hj.symm.trans hi))
  apply List.mem_iff_getElem?.2
  refine ⟨j, ?_⟩
  rw [List.getElem?_set_ne hij]
  exact hj

theorem mem_eraseIdx_of_ne {y : α} (hi : l[i]? = some x) (hy : y ∈ l) (hne : y ≠ x) : y ∈ l.eraseIdx i := by
  obtain ⟨j, hj⟩ := List.mem_iff_getElem?.1 hy
  have hij : j ≠ i := by
    rintro rfl
    exact hne (Option.some.inj (hj.symm.trans hi))
  exact List.mem_eraseIdx_iff_getElem?.2 ⟨j, hij, hj⟩

theorem mem_set_self {z : α} (hi : l[i]? = some x) : z ∈ l.set i z := by
  apply List.mem_iff_getElem?.2
  refine ⟨i, ?_⟩
  rw [List.getElem?_set_self (List.getElem?_eq_some_iff.1 hi).1]

variable {P : α → Prop}

/-- an entry that was not wanted is removed -/
theorem exists_mem_eraseIdx (hi : l[i]? = some x) (hx : ¬ P x) (h : ∃ y ∈ l, P y) : ∃ y ∈ l.eraseIdx i, P y := by
  obtain ⟨y, hy, hp⟩ := h
  refine ⟨y, mem_eraseIdx_of_ne hi hy ?_, hp⟩
  rintro rfl
  exact hx hp

/-- an entry that was wanted is replaced by one that is -/
theorem exists_mem_set (z : α) (hi : l[i]? = some x) (hx : P x → P z) (h : ∃ y ∈ l, P y) : ∃ y ∈ l.set i z, P y := by
  obtain ⟨y, hy, hp⟩ := h
  rcases eq_or_ne y x with rfl | hne
  · exact ⟨z, mem_set_self hi, hx hp⟩
  · exact ⟨y, mem_set_of_ne hi hy hne, hp⟩

theorem sum_map_eraseIdx (f : α → ℕ) (hi : l[i]? = some x) : f x + ((l.eraseIdx i).map f).sum = (l.map f).sum := by
  obtain ⟨hlt, rfl⟩ := List.getElem?_eq_some_iff.1 hi
  have hperm := ((List.getElem_cons_eraseIdx_perm hlt).map f).sum_eq
  simpa using hperm

/-- a sum changes by what changes at the place -/
theorem sum_map_set (f : α → ℕ) (hi : l[i]? = some x) (z : α) :
    ((l.set i z).map f).sum + f x = (l.map f).sum + f z := by
  obtain ⟨hlt, -⟩ := List.getElem?_eq_some_iff.1 hi
  have hold := sum_map_eraseIdx f hi
  have hnew := sum_map_eraseIdx f (List.getElem?_set_self (a := z) hlt)
  rw [List.eraseIdx_set_eq] at hnew
  omega

end Slots

namespace List

variable {α : Type*} {l : List α} {x y : α} {i : ℕ}

theorem mem_snoc : y ∈ l ++ [x] ↔ y ∈ l ∨ y = x := by rw [mem_append, mem_singleton]

theorem getElem?_snoc : (l ++ [x])[i]? = some y ↔ l[i]? = some y ∨ i = l.length ∧ y = x := by
  rw [getElem?_append]
  split
  next hlt => simp [hlt.ne]
  next hge =>
    have hout : l[i]? = none := getElem?_eq_none (not_lt.1 hge)
    rw [hout, getElem?_singleton]
    split
    next hzero => simp [show i = l.length by omega, eq_comm]
    next hne => simp [show i ≠ l.length by omega]

theorem getElem?_snoc_of (h : l[i]? = some y) (x : α) : (l ++ [x])[i]? = some y := getElem?_snoc.2 (.inl h)

end List
