/-
The places of one list in another, from the left and without overlap.

- `indexOf`: the first place from a position on (`String.prototype.indexOf`);
- `occurrences`: one after the other, each searched for behind the one before.

What is found is there (`prefix_of_mem`), in order and disjoint (`occurrences_apart`), and a place that is not found
overlaps one that is (`exists_meets`). A list that occurs at all is found (`occurrences_eq_nil`).
-/
import Mathlib.Tactic

namespace Occurrences

open List

variable {α : Type*} [DecidableEq α]

def indexOf (t needle : List α) (start : ℕ) : Option ℕ :=
  (range (t.length + 1)).find? fun i => start ≤ i ∧ needle <+: t.drop i

/-- at most as many as the fuel -/
def occurrencesFrom (t needle : List α) : ℕ → ℕ → List ℕ
  | 0, _ => []
  | fuel + 1, start => match indexOf t needle start with
    | none => []
    | some i => i :: occurrencesFrom t needle fuel (i + needle.length)

def occurrences (t needle : List α) : List ℕ := occurrencesFrom t needle (t.length + 1) 0

variable {t needle : List α} {i start fuel : ℕ}

theorem indexOf_some (h : indexOf t needle start = some i) : start ≤ i ∧ needle <+: t.drop i := by
  have hfound := find?_some h
  simpa using hfound

variable {k : ℕ}

/-- nothing before the first place -/
theorem indexOf_first (h : indexOf t needle start = some i) (hstart : start ≤ k) (hk : needle <+: t.drop k) :
    i ≤ k := by
  by_contra hlt
  obtain ⟨-, as, bs, hsplit, hbefore⟩ := find?_eq_some_iff_append.1 h
  have hsorted : (as ++ i :: bs).Pairwise (· < ·) := hsplit ▸ pairwise_lt_range
  have hmem : k ∈ as ++ i :: bs := by
    have hi : i ∈ range (t.length + 1) := hsplit ▸ mem_append_right _ mem_cons_self
    rw [← hsplit, mem_range]
    have hbound := mem_range.1 hi
    omega
  rcases mem_append.1 hmem with has | hbs
  · exact absurd (hbefore k has) (by simp [hstart, hk])
  · rcases mem_cons.1 hbs with rfl | hbs
    · exact hlt le_rfl
    · have htail := (pairwise_append.1 hsorted).2.1
      have hik := (pairwise_cons.1 htail).1 k hbs
      omega

theorem indexOf_none (h : indexOf t needle start = none) (hneedle : needle ≠ []) (hstart : start ≤ k) :
    ¬ needle <+: t.drop k := by
  intro hk
  have hbound : k < t.length + 1 := by
    by_contra hge
    rw [drop_eq_nil_of_le (by omega)] at hk
    exact hneedle (prefix_nil.1 hk)
  have hno := find?_eq_none.1 h k (mem_range.2 hbound)
  exact hno (decide_eq_true ⟨hstart, hk⟩)

theorem mem_from (h : i ∈ occurrencesFrom t needle fuel start) : start ≤ i ∧ needle <+: t.drop i := by
  induction fuel generalizing start with
  | zero => simp [occurrencesFrom] at h
  | succ fuel ih =>
    rw [occurrencesFrom] at h
    cases hfirst : indexOf t needle start with
    | none => simp [hfirst] at h
    | some j =>
      obtain ⟨hle, hj⟩ := indexOf_some hfirst
      simp only [hfirst] at h
      rcases mem_cons.1 h with rfl | h
      · exact ⟨hle, hj⟩
      · obtain ⟨hi, hprefix⟩ := ih h
        exact ⟨by omega, hprefix⟩

theorem prefix_of_mem (h : i ∈ occurrences t needle) : needle <+: t.drop i := (mem_from h).2

theorem add_length_le (h : i ∈ occurrences t needle) (hneedle : needle ≠ []) : i + needle.length ≤ t.length := by
  have hlength := (prefix_of_mem h).length_le
  have hpos := length_pos_iff.2 hneedle
  rw [length_drop] at hlength
  omega

theorem from_apart : (occurrencesFrom t needle fuel start).Pairwise fun i j => i + needle.length ≤ j := by
  induction fuel generalizing start with
  | zero => exact Pairwise.nil
  | succ fuel ih =>
    rw [occurrencesFrom]
    cases indexOf t needle start with
    | none => exact Pairwise.nil
    | some i => exact pairwise_cons.2 ⟨fun j hj => (mem_from hj).1, ih⟩

theorem occurrences_apart : (occurrences t needle).Pairwise fun i j => i + needle.length ≤ j := from_apart

theorem from_meets (hneedle : needle ≠ []) (hfuel : t.length < start + fuel) (hstart : start ≤ k)
    (hk : needle <+: t.drop k) : ∃ i ∈ occurrencesFrom t needle fuel start, i ≤ k ∧ k < i + needle.length := by
  have hpos := length_pos_iff.2 hneedle
  induction fuel generalizing start with
  | zero =>
    rw [drop_eq_nil_of_le (by omega)] at hk
    exact absurd (prefix_nil.1 hk) hneedle
  | succ fuel ih =>
    rw [occurrencesFrom]
    cases hfirst : indexOf t needle start with
    | none => exact absurd hk (indexOf_none hfirst hneedle hstart)
    | some i =>
      have hi := (indexOf_some hfirst).1
      have hle := indexOf_first hfirst hstart hk
      by_cases hmeets : k < i + needle.length
      · exact ⟨i, .head _, hle, hmeets⟩
      · obtain ⟨j, hj, hjk⟩ := ih (by omega) (Nat.le_of_not_lt hmeets)
        exact ⟨j, mem_cons_of_mem i hj, hjk⟩

/-- a place that is not found overlaps one that is -/
theorem exists_meets (hneedle : needle ≠ []) (hk : needle <+: t.drop k) :
    ∃ i ∈ occurrences t needle, i ≤ k ∧ k < i + needle.length := from_meets hneedle (by omega) (Nat.zero_le k) hk

theorem occurrences_eq_nil (hneedle : needle ≠ []) : occurrences t needle = [] ↔ ∀ k, ¬ needle <+: t.drop k := by
  refine ⟨fun h k hk => ?_, fun h => eq_nil_iff_forall_not_mem.2 fun i hi => h i (prefix_of_mem hi)⟩
  obtain ⟨i, hi, -⟩ := exists_meets hneedle hk
  rw [h] at hi
  exact absurd hi not_mem_nil

end Occurrences
