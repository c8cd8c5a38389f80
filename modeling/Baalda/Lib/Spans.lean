/-
Pieces of a list, replaced where they stand.

- `Ordered n pos xs`: the spans `xs` of a list of length `n` are in order and disjoint, from `pos` on;
- `replaceAt f t x`: the piece at `x` is replaced by what `f` makes of it;
- `rewrite f t pos xs`: the list from `pos` on with every piece replaced at once, everything between them as it is.

`foldr_replaceAt`: replacing the pieces one by one from the right, each where it stood at first, replaces them all.
-/
import Mathlib.Tactic

namespace Spans

open List

variable {α : Type*}

def piece (t : List α) (x : ℕ × ℕ) : List α := (t.take x.2).drop x.1

def Ordered (n : ℕ) : ℕ → List (ℕ × ℕ) → Prop
  | pos, [] => pos ≤ n
  | pos, x :: xs => pos ≤ x.1 ∧ x.1 ≤ x.2 ∧ Ordered n x.2 xs

def replaceAt (f : List α → List α) (t : List α) (x : ℕ × ℕ) : List α := t.take x.1 ++ f (piece t x) ++ t.drop x.2

def rewrite (f : List α → List α) (t : List α) : ℕ → List (ℕ × ℕ) → List α
  | pos, [] => t.drop pos
  | pos, x :: xs => (t.take x.1).drop pos ++ f (piece t x) ++ rewrite f t x.2 xs

/-- the lists on the way, from the right -/
def stages (f : List α → List α) (t : List α) : List (ℕ × ℕ) → List (List α)
  | [] => []
  | x :: xs => stages f t xs ++ [replaceAt f (xs.foldr (fun x t => replaceAt f t x) t) x]

variable {f : List α → List α} {t : List α} {n pos : ℕ} {xs : List (ℕ × ℕ)}

theorem Ordered.le (h : Ordered n pos xs) : pos ≤ n := by
  induction xs generalizing pos with
  | nil => exact h
  | cons x xs ih =>
    have hrest := ih h.2.2
    have hpos := h.1
    have hspan := h.2.1
    omega

theorem ordered_of_pairwise (hapart : xs.Pairwise fun x y => x.2 ≤ y.1) (hin : ∀ x ∈ xs, x.1 ≤ x.2 ∧ x.2 ≤ n)
    (hpos : ∀ x ∈ xs, pos ≤ x.1) (hle : pos ≤ n) : Ordered n pos xs := by
  induction xs generalizing pos with
  | nil => exact hle
  | cons x xs ih =>
    obtain ⟨hfirst, hrest⟩ := pairwise_cons.1 hapart
    obtain ⟨hspan, hbound⟩ := hin x mem_cons_self
    exact ⟨hpos x mem_cons_self, hspan,
      ih hrest (fun y hy => hin y (mem_cons_of_mem x hy)) hfirst hbound⟩

/-- **From the right.** Each piece is still where it stood when its turn comes. -/
theorem foldr_replaceAt (h : Ordered t.length pos xs) :
    xs.foldr (fun x t => replaceAt f t x) t = t.take pos ++ rewrite f t pos xs := by
  induction xs generalizing pos with
  | nil => exact (take_append_drop pos t).symm
  | cons x xs ih =>
    obtain ⟨hpos, hspan, hrest⟩ := h
    have hbound := hrest.le
    have hlength : (t.take x.2).length = x.2 := by rw [length_take, Nat.min_eq_left hbound]
    rw [foldr_cons, ih hrest, replaceAt]
    have hpiece : piece (t.take x.2 ++ rewrite f t x.2 xs) x = piece t x := by
      rw [piece, piece, take_append_of_le_length (by omega), take_take, Nat.min_self]
    have hfront : (t.take x.2 ++ rewrite f t x.2 xs).take x.1 = t.take pos ++ (t.take x.1).drop pos := by
      calc (t.take x.2 ++ rewrite f t x.2 xs).take x.1
          = t.take x.1 := by rw [take_append_of_le_length (by omega), take_take, Nat.min_eq_left hspan]
        _ = (t.take x.1).take pos ++ (t.take x.1).drop pos := (take_append_drop pos _).symm
        _ = t.take pos ++ (t.take x.1).drop pos := by rw [take_take, Nat.min_eq_left hpos]
    have hback : (t.take x.2 ++ rewrite f t x.2 xs).drop x.2 = rewrite f t x.2 xs := by
      rw [drop_append_of_le_length (by omega), drop_eq_nil_of_le (by omega), nil_append]
    rw [hpiece, hfront, hback, rewrite, append_assoc, append_assoc, append_assoc]

/-- all of them, from the right -/
theorem foldr_eq_rewrite (h : Ordered t.length 0 xs) :
    xs.foldr (fun x t => replaceAt f t x) t = rewrite f t 0 xs := by
  rw [foldr_replaceAt h, take_zero, nil_append]

/-- the pieces to the right have been replaced; this one still ends inside the list -/
theorem le_length_foldr {x : ℕ × ℕ} (h : Ordered t.length x.2 xs) :
    x.2 ≤ (xs.foldr (fun x t => replaceAt f t x) t).length := by
  have hbound := h.le
  rw [foldr_replaceAt h, length_append, length_take]
  omega

end Spans
