/-
Texts as their UTF-16 units.

- `Splits t i`: position `i` is between the two halves of a surrogate pair;
- `WellFormed t`: no half stands alone. A text that is cut where no pair is split stays so (`WellFormed.take`, `.drop`);
- `trim`, `isBlank`: a text without the white space around it; white space only, what trims to nothing;
- `slice`, `splice`: what is between two positions, and a text with such a piece replaced.
-/
import Mathlib.Data.List.DropRight
import Mathlib.Tactic

namespace Utf16

open List

abbrev Text := List UInt16

def isHighSurrogate (c : UInt16) : Bool := 0xd800 ≤ c && c ≤ 0xdbff

def isLowSurrogate (c : UInt16) : Bool := 0xdc00 ≤ c && c ≤ 0xdfff

/-- the units of a text of ASCII characters -/
def ascii (s : String) : Text := s.toList.map fun c => UInt16.ofNat c.toNat

/-- position `i` is inside a surrogate pair -/
def Splits (t : Text) (i : ℕ) : Prop :=
  ∃ j, i = j + 1 ∧ t[j]?.any isHighSurrogate = true ∧ t[i]?.any isLowSurrogate = true

/-- every high surrogate has its low one behind it, and every low one its high one before it -/
def WellFormed (t : Text) : Prop :=
  (∀ i, t[i]?.any isHighSurrogate = true → t[i + 1]?.any isLowSurrogate = true) ∧
    ∀ i, t[i]?.any isLowSurrogate = true → ∃ j, i = j + 1 ∧ t[j]?.any isHighSurrogate = true

/-- white space and line terminators -/
def isWhiteSpace (c : UInt16) : Bool :=
  (9 ≤ c && c ≤ 13) || c = 0x20 || c = 0xa0 || c = 0x1680 || (0x2000 ≤ c && c ≤ 0x200a) || c = 0x2028 || c = 0x2029 ||
    c = 0x202f || c = 0x205f || c = 0x3000 || c = 0xfeff

def trim (t : Text) : Text := (t.dropWhile isWhiteSpace).rdropWhile isWhiteSpace

/-- nothing is left of it when it is trimmed -/
def isBlank (t : Text) : Bool := t.all isWhiteSpace

/-- the units from `a` up to `b` -/
def slice (t : Text) (a b : ℕ) : Text := (t.take b).drop a

/-- `n` units from `a` on are replaced -/
def splice (t : Text) (a n : ℕ) (insert : Text) : Text := t.take a ++ insert ++ t.drop (a + n)

section

variable {t t' : Text} {i j n : ℕ}

theorem not_high_of_low {c : UInt16} (h : isLowSurrogate c = true) : isHighSurrogate c = false := by
  unfold isLowSurrogate isHighSurrogate at *
  simp only [Bool.and_eq_true, decide_eq_true_eq, UInt16.le_iff_toNat_le, UInt16.reduceToNat] at h
  simp only [Bool.and_eq_false_iff, decide_eq_false_iff_not, UInt16.le_iff_toNat_le, UInt16.reduceToNat]
  omega

theorem any_not_high_of_low {c : Option UInt16} (h : c.any isLowSurrogate = true) : c.any isHighSurrogate = false := by
  cases c with
  | none => rfl
  | some c => exact not_high_of_low h

theorem not_splits_zero : ¬ Splits t 0 := by
  intro h
  obtain ⟨j, hj, _⟩ := h
  cases hj

theorem not_splits_of_high (h : t[i]?.any isHighSurrogate = true) : ¬ Splits t i := by
  intro hs
  obtain ⟨_, _, _, hlow⟩ := hs
  rw [any_not_high_of_low hlow] at h
  cases h

theorem not_splits_of_length_le (h : t.length ≤ i) : ¬ Splits t i := by
  intro hs
  obtain ⟨_, _, _, hlow⟩ := hs
  rw [getElem?_eq_none h] at hlow
  cases hlow

theorem not_splits_of_not_low (h : t[i]?.any isLowSurrogate = false) : ¬ Splits t i := by
  intro hs
  obtain ⟨_, _, _, hlow⟩ := hs
  rw [h] at hlow
  cases hlow

theorem not_splits_of_not_high (h : t[i]?.any isHighSurrogate = false) : ¬ Splits t (i + 1) := by
  intro hs
  obtain ⟨j, hj, hhigh, _⟩ := hs
  obtain rfl : i = j := by omega
  rw [h] at hhigh
  cases hhigh

theorem wellFormed_iff_lt : WellFormed t ↔
    (∀ i < t.length, t[i]?.any isHighSurrogate = true → t[i + 1]?.any isLowSurrogate = true) ∧
      ∀ i < t.length, t[i]?.any isLowSurrogate = true → 0 < i ∧ t[i - 1]?.any isHighSurrogate = true := by
  have hin : ∀ (p : UInt16 → Bool) (i : ℕ), t[i]?.any p = true → i < t.length := by
    intro p i hi
    by_contra hlt
    rw [getElem?_eq_none (by omega)] at hi
    cases hi
  refine and_congr ⟨fun h i _ => h i, fun h i hi => h i (hin _ i hi) hi⟩ ⟨fun h i _ hi => ?_, fun h i hi => ?_⟩
  · obtain ⟨j, rfl, hj⟩ := h i hi
    exact ⟨Nat.succ_pos j, hj⟩
  · obtain ⟨hpos, hhigh⟩ := h i (hin _ i hi) hi
    exact ⟨i - 1, by omega, hhigh⟩

instance (t : Text) : Decidable (WellFormed t) := decidable_of_iff _ wellFormed_iff_lt.symm

theorem WellFormed.take (h : WellFormed t) (hs : ¬ Splits t n) : WellFormed (t.take n) := by
  refine ⟨?_, ?_⟩
  · intro i hi
    rw [getElem?_take] at hi ⊢
    split at hi
    · next hlt =>
      have hlow := h.1 i hi
      have hne : n ≠ i + 1 := fun heq => hs ⟨i, heq, hi, heq ▸ hlow⟩
      rw [if_pos (by omega)]
      exact hlow
    · cases hi
  · intro i hi
    rw [getElem?_take] at hi
    split at hi
    · next hlt =>
      obtain ⟨j, hj, hhigh⟩ := h.2 i hi
      refine ⟨j, hj, ?_⟩
      rw [getElem?_take, if_pos (by omega)]
      exact hhigh
    · cases hi

theorem WellFormed.drop (h : WellFormed t) (hs : ¬ Splits t n) : WellFormed (t.drop n) := by
  refine ⟨?_, ?_⟩
  · intro i hi
    rw [getElem?_drop] at hi ⊢
    exact h.1 (n + i) hi
  · intro i hi
    rw [getElem?_drop] at hi
    obtain ⟨j, hj, hhigh⟩ := h.2 (n + i) hi
    cases i with
    | zero =>
      exact absurd ⟨j, hj, hhigh, hi⟩ hs
    | succ i =>
      refine ⟨i, rfl, ?_⟩
      rw [getElem?_drop]
      obtain rfl : j = n + i := by omega
      exact hhigh

/-- what is left of a text is whole where no pair is split -/
theorem not_splits_of_drop (h : WellFormed (t.drop n)) : ¬ Splits t n := by
  intro hs
  obtain ⟨j, _, _, hlow⟩ := hs
  have hhead : (t.drop n)[0]?.any isLowSurrogate = true := by rwa [getElem?_drop, Nat.add_zero]
  obtain ⟨k, hk, _⟩ := h.2 0 hhead
  exact absurd hk (by omega)

theorem Splits.cons (h : Splits t n) (c : UInt16) : Splits (c :: t) (n + 1) := by
  obtain ⟨j, rfl, hhigh, hlow⟩ := h
  exact ⟨j + 1, rfl, hhigh, hlow⟩

/-- a piece whose ends split no pair -/
theorem WellFormed.slice (h : WellFormed t) (ha : ¬ Splits t i) (hb : ¬ Splits t j) : WellFormed (slice t i j) := by
  refine (h.take hb).drop ?_
  intro hs
  obtain ⟨k, hk, hhigh, hlow⟩ := hs
  rw [getElem?_take] at hhigh hlow
  split at hlow
  · rw [if_pos (by omega)] at hhigh
    exact ha ⟨k, hk, hhigh, hlow⟩
  · cases hlow

theorem length_slice (h : j ≤ t.length) : (slice t i j).length = j - i := by
  unfold slice
  rw [length_drop, length_take, Nat.min_eq_left h]

end

end Utf16
