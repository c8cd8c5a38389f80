/-
A word in a text. A word holds no separator, so it lies in a text of joined pieces exactly when it lies in one of them
(`infix_intercalate`), and in any text exactly when it lies in a piece between separators (`infix_iff_piece`).
-/
import Mathlib.Data.List.Basic

namespace Runs

open List

variable {α : Type*} {q : List α}

/-- no word reaches over a separator -/
theorem infix_append_sep {x : α} (hq : x ∉ q) (a b : List α) : q <:+: a ++ x :: b ↔ q <:+: a ∨ q <:+: b := by
  constructor
  · intro h
    obtain ⟨s, t, h⟩ := h
    rcases append_eq_append_iff.mp h with ⟨a', ha, -⟩ | ⟨c, hc, hb⟩
    · exact .inl ⟨s, a', ha.symm⟩
    cases c with
    | nil => exact .inl ⟨s, [], by simpa using hc⟩
    | cons y c =>
      obtain ⟨rfl, rfl⟩ := cons.inj hb
      rcases append_eq_append_iff.mp hc with ⟨a', -, hword⟩ | ⟨c', -, hrest⟩
      · exact absurd (hword ▸ mem_append_right a' mem_cons_self) hq
      cases c' with
      | nil => exact absurd ((show q = x :: c from hrest.symm) ▸ .head _) hq
      | cons z c' =>
        obtain ⟨-, rfl⟩ := cons.inj hrest
        exact .inr ⟨c', t, rfl⟩
  · intro h
    rcases h with h | h
    · exact h.trans (infix_append' [] a (x :: b))
    · exact h.trans ⟨a ++ [x], [], by simp⟩

theorem infix_intercalate {x : α} (hq : x ∉ q) (hne : q ≠ []) (pieces : List (List α)) :
    q <:+: [x].intercalate pieces ↔ ∃ piece ∈ pieces, q <:+: piece := by
  induction pieces with
  | nil => simp [hne]
  | cons piece pieces ih =>
    cases pieces with
    | nil => simp
    | cons next pieces =>
      rw [intercalate_cons_cons, append_assoc, singleton_append, infix_append_sep hq, ih]
      simp

section Pieces

variable {P : α → Bool}

theorem infix_iff_prepend (hq : ∀ c ∈ q, P c = false) (text acc : List α) :
    q <:+: acc.reverse ++ text ↔ ∃ piece ∈ splitOnPPrepend P text acc, q <:+: piece := by
  induction text generalizing acc with
  | nil => simp
  | cons x text ih =>
    cases hx : P x with
    | true =>
      have hword : x ∉ q := fun hmem => by simp [hq x hmem] at hx
      rw [splitOnPPrepend_cons_pos hx, infix_append_sep hword]
      have hrest := ih []
      simp only [reverse_nil, nil_append, splitOnPPrepend_nil_right] at hrest
      rw [hrest]
      simp
    | false =>
      rw [splitOnPPrepend_cons_neg hx]
      have hrest := ih (x :: acc)
      simp only [reverse_cons, append_assoc, singleton_append] at hrest
      exact hrest

theorem infix_iff_piece (hq : ∀ c ∈ q, P c = false) (text : List α) :
    q <:+: text ↔ ∃ piece ∈ text.splitOnP P, q <:+: piece :=
  infix_iff_prepend hq text []

/-- a piece holds no separator -/
theorem not_sep_of_prepend {text acc : List α} (hacc : ∀ c ∈ acc, P c = false) :
    ∀ piece ∈ splitOnPPrepend P text acc, ∀ c ∈ piece, P c = false := by
  induction text generalizing acc with
  | nil => simpa using hacc
  | cons x text ih =>
    cases hx : P x with
    | true =>
      rw [splitOnPPrepend_cons_pos hx]
      intro piece hpiece
      rcases mem_cons.mp hpiece with rfl | hrest
      · exact fun c hc => hacc c (mem_reverse.mp hc)
      · exact ih (fun _ hc => absurd hc not_mem_nil) piece hrest
    | false =>
      rw [splitOnPPrepend_cons_neg hx]
      exact ih (fun c hc => (mem_cons.mp hc).elim (fun heq => heq ▸ hx) (hacc c))

theorem not_sep_of_piece {text piece : List α} (h : piece ∈ text.splitOnP P) : ∀ c ∈ piece, P c = false :=
  not_sep_of_prepend (fun _ hc => absurd hc not_mem_nil) piece h

end Pieces

end Runs
