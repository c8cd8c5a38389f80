/-
The lowest `k` of a list, and how they come out of the lowest of its parts.

`mem_lowest`: the lowest `k` of distinct values are those with fewer than `k` below them. `mem_lowest_parts`: the lowest
`k` of the lowest `k'` of each part are the lowest `k` of the whole, for every `k ≤ k'`; and the lowest `k + 1` of each
part are more than `k` exactly if the whole is (`lt_length_parts`).
-/
import Mathlib.Data.List.Sort
import Mathlib.Tactic

namespace Lowest

open List

variable {α : Type*} [LinearOrder α] {k k' : ℕ} {l : List α} {parts : List (List α)} {x : α}

def sorted (l : List α) : List α := l.insertionSort (· ≤ ·)

def lowest (k : ℕ) (l : List α) : List α := (sorted l).take k

/-- how many are below -/
def rank (l : List α) (x : α) : ℕ := l.countP (· < x)

@[simp] theorem mem_sorted : x ∈ sorted l ↔ x ∈ l := mem_insertionSort _

theorem sorted_perm (l : List α) : (sorted l).Perm l := perm_insertionSort _ l

theorem sorted_lt (hnodup : l.Nodup) : (sorted l).Pairwise (· < ·) := by
  have hle : (sorted l).Pairwise (· ≤ ·) := pairwise_insertionSort _ l
  have hne : (sorted l).Pairwise (· ≠ ·) := (sorted_perm l).nodup_iff.2 hnodup
  exact (hle.and hne).imp fun h => lt_of_le_of_ne h.1 h.2

theorem mem_of_mem_lowest (h : x ∈ lowest k l) : x ∈ l := mem_sorted.1 (mem_of_mem_take h)

theorem lowest_nodup (hnodup : l.Nodup) : (lowest k l).Nodup :=
  ((sorted_perm l).nodup_iff.2 hnodup).sublist (take_sublist k _)

@[simp] theorem length_lowest (k : ℕ) (l : List α) : (lowest k l).length = min k l.length := by
  rw [lowest, length_take, (sorted_perm l).length_eq]

theorem mem_take_sorted (h : l.Pairwise (· < ·)) : x ∈ l.take k ↔ x ∈ l ∧ rank l x < k := by
  induction l generalizing k with
  | nil => simp
  | cons a l ih =>
    obtain ⟨hfirst, hrest⟩ := pairwise_cons.1 h
    cases k with
    | zero => simp
    | succ k =>
      rw [take_succ_cons, mem_cons, mem_cons, ih hrest]
      unfold rank
      by_cases hx : x = a
      · subst hx
        have hnone : l.countP (· < x) = 0 := by
          rw [countP_eq_zero]
          intro y hy
          simpa using (hfirst y hy).le
        simp [hnone]
      · by_cases hmem : x ∈ l
        · have hlt : a < x := hfirst x hmem
          simp [hx, hmem, hlt]
        · simp [hx, hmem]

/-- **The lowest by rank.** -/
theorem mem_lowest (hnodup : l.Nodup) : x ∈ lowest k l ↔ x ∈ l ∧ rank l x < k := by
  rw [lowest, mem_take_sorted (sorted_lt hnodup), mem_sorted, rank, (sorted_perm l).countP_eq]
  rfl

theorem rank_mono {m : List α} (hnodup : m.Nodup) (hsub : m ⊆ l) (x : α) : rank m x ≤ rank l x :=
  (subperm_of_subset hnodup hsub).countP_le _

theorem rank_lt_rank {y : α} (h : rank l y < rank l x) : y < x := by
  by_contra hle
  refine absurd h (not_lt.2 (countP_mono_left fun z _ hz => ?_))
  have hzx : z < x := by simpa using hz
  simpa using hzx.trans_le (not_lt.1 hle)

/-! ## Parts -/

/-- the lowest of each part -/
def ofParts (k' : ℕ) (parts : List (List α)) : List α := parts.flatMap (lowest k')

theorem ofParts_subset : ofParts k' parts ⊆ parts.flatten := by
  intro x hx
  obtain ⟨part, hpart, hx⟩ := mem_flatMap.1 hx
  exact mem_flatten.2 ⟨part, hpart, mem_of_mem_lowest hx⟩

section

variable (hnodup : parts.flatten.Nodup)

include hnodup

theorem ofParts_nodup : (ofParts k' parts).Nodup := by
  obtain ⟨hparts, hdisjoint⟩ := nodup_flatten.1 hnodup
  refine nodup_flatMap.2 ⟨fun part hpart => lowest_nodup (hparts part hpart), hdisjoint.imp ?_⟩
  exact fun hd x hx hx' => hd (mem_of_mem_lowest hx) (mem_of_mem_lowest hx')

/-- one of the lowest of the whole is one of the lowest of its part -/
theorem mem_ofParts (hx : x ∈ parts.flatten) (hrank : rank parts.flatten x < k') : x ∈ ofParts k' parts := by
  obtain ⟨part, hpart, hin⟩ := mem_flatten.1 hx
  have hpartNodup : part.Nodup := (nodup_flatten.1 hnodup).1 part hpart
  have hsub : part ⊆ parts.flatten := fun y hy => mem_flatten.2 ⟨part, hpart, hy⟩
  refine mem_flatMap.2 ⟨part, hpart, (mem_lowest hpartNodup).2 ⟨hin, ?_⟩⟩
  exact (rank_mono hpartNodup hsub x).trans_lt hrank

theorem lowest_subset_ofParts (hk : k ≤ k') : lowest k parts.flatten ⊆ ofParts k' parts := by
  intro x hx
  obtain ⟨hin, hrank⟩ := (mem_lowest hnodup).1 hx
  exact mem_ofParts hnodup hin (hrank.trans_le hk)

/-- **Parts.** The lowest of the parts' lowest are the lowest of the whole. -/
theorem mem_lowest_parts (hk : k ≤ k') : x ∈ lowest k (ofParts k' parts) ↔ x ∈ lowest k parts.flatten := by
  have hparts : (ofParts k' parts).Nodup := ofParts_nodup hnodup
  rw [mem_lowest hparts, mem_lowest hnodup]
  constructor
  · rintro ⟨hin, hrank⟩
    refine ⟨ofParts_subset hin, ?_⟩
    by_contra hhigh
    have hlow : ∀ y ∈ lowest k parts.flatten, y < x := by
      intro y hy
      exact rank_lt_rank (((mem_lowest hnodup).1 hy).2.trans_le (not_lt.1 hhigh))
    have hlen : k ≤ parts.flatten.length := (not_lt.1 hhigh).trans countP_le_length
    have hall : (lowest k parts.flatten).countP (· < x) = k := by
      rw [countP_eq_length.2 fun y hy => decide_eq_true (hlow y hy), length_lowest, min_eq_left hlen]
    have hcount : rank (lowest k parts.flatten) x ≤ rank (ofParts k' parts) x :=
      rank_mono (lowest_nodup hnodup) (lowest_subset_ofParts hnodup hk) x
    rw [rank, hall] at hcount
    omega
  · rintro ⟨hin, hrank⟩
    exact ⟨mem_ofParts hnodup hin (hrank.trans_le hk), (rank_mono hparts ofParts_subset x).trans_lt hrank⟩

/-- and whether there are more than `k` shows in the lowest `k + 1` of each -/
theorem lt_length_parts : k < (ofParts (k + 1) parts).length ↔ k < parts.flatten.length := by
  constructor
  · exact fun h => h.trans_le (subperm_of_subset (ofParts_nodup hnodup) ofParts_subset).length_le
  · intro h
    have hsub : (lowest (k + 1) parts.flatten).Subperm (ofParts (k + 1) parts) :=
      subperm_of_subset (lowest_nodup hnodup) (lowest_subset_ofParts hnodup le_rfl)
    have hlen := hsub.length_le
    rw [length_lowest, min_eq_left h] at hlen
    exact hlen

end

end Lowest
