/-
Diffs between two texts: lists of hunks that are deleted, kept or inserted.

- `source`, `target`: the two texts a diff runs between; `inserted`: what it adds;
- `LawfulDiff`: a function that computes a diff between the texts it is given.
-/
import Mathlib.Tactic

namespace TextDiff

open List

variable {α : Type*}

inductive Op where
  | delete | equal | insert
  deriving DecidableEq

abbrev Hunk (α : Type*) := Op × List α

/-- the text a diff starts from: what it keeps and what it deletes -/
def source (diffs : List (Hunk α)) : List α := diffs.flatMap fun d => if d.1 = .insert then [] else d.2

/-- the text a diff ends in: what it keeps and what it inserts -/
def target (diffs : List (Hunk α)) : List α := diffs.flatMap fun d => if d.1 = .delete then [] else d.2

def inserted (diffs : List (Hunk α)) : List α := diffs.flatMap fun d => if d.1 = .insert then d.2 else []

@[simp] theorem source_nil : source ([] : List (Hunk α)) = [] := rfl
@[simp] theorem target_nil : target ([] : List (Hunk α)) = [] := rfl
@[simp] theorem inserted_nil : inserted ([] : List (Hunk α)) = [] := rfl

section

variable (t : List α) (ds : List (Hunk α))

@[simp] theorem source_equal : source ((.equal, t) :: ds) = t ++ source ds := rfl
@[simp] theorem source_delete : source ((.delete, t) :: ds) = t ++ source ds := rfl
@[simp] theorem source_insert : source ((.insert, t) :: ds) = source ds := rfl

@[simp] theorem target_equal : target ((.equal, t) :: ds) = t ++ target ds := rfl
@[simp] theorem target_delete : target ((.delete, t) :: ds) = target ds := rfl
@[simp] theorem target_insert : target ((.insert, t) :: ds) = t ++ target ds := rfl

@[simp] theorem inserted_equal : inserted ((.equal, t) :: ds) = inserted ds := rfl
@[simp] theorem inserted_delete : inserted ((.delete, t) :: ds) = inserted ds := rfl
@[simp] theorem inserted_insert : inserted ((.insert, t) :: ds) = t ++ inserted ds := rfl

end

variable {diffs : List (Hunk α)}

theorem mem_inserted {a : α} : a ∈ inserted diffs ↔ ∃ t, (.insert, t) ∈ diffs ∧ a ∈ t := by
  unfold inserted
  rw [mem_flatMap]
  constructor
  · rintro ⟨⟨op, t⟩, hmem, ha⟩
    cases op with
    | insert => exact ⟨t, hmem, ha⟩
    | equal | delete => simp at ha
  · rintro ⟨t, hmem, ha⟩
    exact ⟨(.insert, t), hmem, by simpa using ha⟩

/-- a diff that inserts nothing only takes away -/
theorem target_sublist_source (h : ∀ d ∈ diffs, d.1 ≠ .insert) : (target diffs).Sublist (source diffs) := by
  induction diffs with
  | nil => exact Sublist.refl _
  | cons d ds ih =>
    have hrest := ih fun e he => h e (.tail _ he)
    obtain ⟨op, t⟩ := d
    cases op with
    | equal => exact hrest.append_left t
    | delete => exact hrest.trans (sublist_append_right t _)
    | insert => exact absurd rfl (h (.insert, t) mem_cons_self)

/-- what is in the target was in the source, or is inserted -/
theorem mem_target {a : α} (h : a ∈ target diffs) : a ∈ source diffs ∨ a ∈ inserted diffs := by
  induction diffs with
  | nil => simp at h
  | cons d ds ih =>
    obtain ⟨op, t⟩ := d
    cases op with
    | equal =>
      rcases mem_append.mp h with ht | hrest
      · exact .inl (mem_append_left _ ht)
      · exact (ih hrest).imp (mem_append_right _) id
    | delete => exact (ih h).imp (mem_append_right _) id
    | insert =>
      rcases mem_append.mp h with ht | hrest
      · exact .inr (mem_append_left _ ht)
      · exact (ih hrest).imp id (mem_append_right _)

theorem inserted_sublist_target (diffs : List (Hunk α)) : (inserted diffs).Sublist (target diffs) := by
  induction diffs with
  | nil => exact Sublist.refl _
  | cons d ds ih =>
    obtain ⟨op, t⟩ := d
    cases op with
    | equal => exact ih.trans (sublist_append_right t _)
    | delete => exact ih
    | insert => exact ih.append_left t

/-- a function that computes a diff between the two texts it is given -/
structure LawfulDiff (diff : List α → List α → List (Hunk α)) : Prop where
  source : ∀ a b, source (diff a b) = a
  target : ∀ a b, target (diff a b) = b

end TextDiff
