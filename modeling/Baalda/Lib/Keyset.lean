/-
Rows in the order of a key, read on from a key.

- `sortBy key l`: the rows by ascending key. When no two rows share one the order is strict (`sortBy_strict`), and a
  filter may be applied before or after (`sortBy_filter`);
- `after key k l`: the rows past the key `k`, all of them when there is none. Of rows in strict order the ones past the
  last of the first `n` are the ones dropped with `n` (`after_take`, `after_after`).
-/
import Mathlib.Tactic

namespace Keyset

open List

variable {α κ : Type*} [LinearOrder κ] (key : α → κ)

def sortBy (l : List α) : List α := l.insertionSort fun a b => key a ≤ key b

def after (k : Option κ) (l : List α) : List α := l.filter fun a => k.all fun k => decide (k < key a)

/-- no two rows share a key, and the keys ascend -/
abbrev Ascending (l : List α) : Prop := l.Pairwise fun a b => key a < key b

variable {key} {l : List α}

theorem perm_sortBy (l : List α) : (sortBy key l).Perm l := perm_insertionSort _ l

theorem sortBy_sorted (l : List α) : (sortBy key l).Pairwise fun a b => key a ≤ key b := by
  haveI : Std.Total fun a b : α => key a ≤ key b := ⟨fun a b => le_total (key a) (key b)⟩
  haveI : IsTrans α fun a b : α => key a ≤ key b := ⟨fun _ _ _ => le_trans⟩
  exact pairwise_insertionSort _ l

theorem sortBy_strict (h : (l.map key).Nodup) : Ascending key (sortBy key l) := by
  have hnodup : ((sortBy key l).map key).Nodup := ((perm_sortBy l).map key).nodup_iff.2 h
  have hne : (sortBy key l).Pairwise fun a b => key a ≠ key b := pairwise_map.1 hnodup
  exact Pairwise.imp₂ (fun _ _ hle hne => lt_of_le_of_ne hle hne) (sortBy_sorted l) hne

/-- rows in strict order are the only order of theirs that ascends -/
theorem ascending_unique {l l' : List α} (hl : Ascending key l) (hl' : Ascending key l') (hperm : l.Perm l') :
    l = l' := by
  refine hperm.eq_of_pairwise (fun a b _ _ hab hba => ?_) hl hl'
  exact absurd hba (lt_asymm hab)

theorem sortBy_filter (h : (l.map key).Nodup) (p : α → Bool) : sortBy key (l.filter p) = (sortBy key l).filter p := by
  have hnodup : ((l.filter p).map key).Nodup := h.sublist (filter_sublist.map key)
  refine ascending_unique (sortBy_strict hnodup) ((sortBy_strict h).filter p) ?_
  exact (perm_sortBy _).trans ((perm_sortBy l).filter p).symm

theorem Ascending.after (h : Ascending key l) (k : Option κ) : Ascending key (after key k l) := h.filter _

theorem after_none (l : List α) : after key none l = l := by simp [after]

/-- past the last of the first `n` rows come the others -/
theorem after_take (h : Ascending key l) {n : ℕ} {a : α} (ha : (l.take n).getLast? = some a) :
    after key (some (key a)) l = l.drop n := by
  obtain ⟨init, hinit⟩ := getLast?_eq_some_iff.1 ha
  have hsplit : l = init ++ a :: l.drop n := by
    calc l = l.take n ++ l.drop n := (take_append_drop n l).symm
      _ = init ++ a :: l.drop n := by rw [hinit, append_assoc, singleton_append]
  rw [hsplit] at h
  obtain ⟨-, htail, hacross⟩ := pairwise_append.1 h
  obtain ⟨hlast, -⟩ := pairwise_cons.1 htail
  have hbefore : init.filter (fun b => decide (key a < key b)) = [] :=
    filter_eq_nil_iff.2 fun b hb => by simpa using le_of_lt (hacross b hb a mem_cons_self)
  have hbehind : (l.drop n).filter (fun b => decide (key a < key b)) = l.drop n :=
    filter_eq_self.2 fun b hb => by simpa using hlast b hb
  calc Keyset.after key (some (key a)) l
      = (init ++ a :: l.drop n).filter fun b => decide (key a < key b) := by rw [← hsplit]; rfl
    _ = l.drop n := by rw [filter_append, filter_cons_of_neg (by simp), hbefore, hbehind, nil_append]

/-- reading on from a row that was itself read on to -/
theorem after_after {k : Option κ} {a : α} (ha : a ∈ after key k l) :
    after key (some (key a)) l = after key (some (key a)) (after key k l) := by
  have hk := (mem_filter.1 ha).2
  unfold after
  rw [filter_filter]
  refine filter_congr fun b _ => ?_
  cases k with
  | none => simp
  | some k =>
    simp only [Option.all_some, decide_eq_true_eq] at hk
    by_cases hab : key a < key b
    · simp [hab, hk.trans hab]
    · simp [hab]

end Keyset
