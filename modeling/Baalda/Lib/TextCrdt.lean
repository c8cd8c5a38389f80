/-
A shared text as a sequence of cells: one for every unit ever inserted, in document order, deleted ones kept as marks.

- `text`: the units of the cells that are not deleted;
- `replay`: a diff replayed as inserts and deletes; it ends in the diff's target (`text_replay`);
- `Extends`: one document holds all another holds, and has deleted all it has deleted;
- `LawfulMerge`: taking in another document's operations shows exactly what either side has and neither has deleted.
-/
import Baalda.Lib.TextDiff

namespace TextCrdt

open TextDiff List

variable {ι α : Type*}

structure Cell (ι α : Type*) where
  id : ι
  unit : α
  deleted : Bool
  deriving DecidableEq

abbrev Doc (ι α : Type*) := List (Cell ι α)

def visible (d : Doc ι α) : Doc ι α := d.filter (!·.deleted)

def text (d : Doc ι α) : List α := (visible d).map Cell.unit

@[simp] theorem visible_nil : visible ([] : Doc ι α) = [] := rfl

@[simp] theorem text_nil : text ([] : Doc ι α) = [] := rfl

variable {d : Doc ι α} {c : Cell ι α}

theorem mem_visible : c ∈ visible d ↔ c ∈ d ∧ c.deleted = false := by
  simp [visible]

theorem visible_append (a b : Doc ι α) : visible (a ++ b) = visible a ++ visible b := filter_append ..

theorem text_append (a b : Doc ι α) : text (a ++ b) = text a ++ text b := by
  simp [text, visible_append]

/-- the cells up to the `n`-th visible one, and the rest -/
def splitVisible : ℕ → Doc ι α → Doc ι α × Doc ι α
  | 0, cells => ([], cells)
  | _ + 1, [] => ([], [])
  | n + 1, c :: cells =>
    let (before, after) := splitVisible (if c.deleted then n + 1 else n) cells
    (c :: before, after)

theorem splitVisible_append (n : ℕ) (cells : Doc ι α) :
    (splitVisible n cells).1 ++ (splitVisible n cells).2 = cells := by
  induction cells generalizing n with
  | nil => cases n <;> rfl
  | cons c cells ih =>
    cases n with
    | zero => rfl
    | succ n =>
      simp only [splitVisible, cons_append]
      rw [ih]

theorem splitVisible_text (n : ℕ) (cells : Doc ι α) (h : n ≤ (text cells).length) :
    text (splitVisible n cells).1 = (text cells).take n ∧ text (splitVisible n cells).2 = (text cells).drop n := by
  induction cells generalizing n with
  | nil => cases n <;> simp [splitVisible]
  | cons c cells ih =>
    cases n with
    | zero => simp [splitVisible]
    | succ n =>
      cases hdel : c.deleted with
      | true =>
        have hcons : ∀ d : Doc ι α, text (c :: d) = text d := fun d => by simp [text, visible, hdel]
        simp only [splitVisible, hdel, if_true, hcons] at h ⊢
        exact ih (n + 1) h
      | false =>
        have hcons : ∀ d : Doc ι α, text (c :: d) = c.unit :: text d := fun d => by simp [text, visible, hdel]
        simp only [splitVisible, hdel, Bool.false_eq_true, if_false, hcons, length_cons, take_succ_cons,
          drop_succ_cons] at h ⊢
        obtain ⟨h₁, h₂⟩ := ih n (Nat.le_of_succ_le_succ h)
        exact ⟨by rw [h₁], h₂⟩

def deleteCell (c : Cell ι α) : Cell ι α := { c with deleted := true }

@[simp] theorem text_map_deleteCell (d : Doc ι α) : text (d.map deleteCell) = [] := by
  simp [text, visible, deleteCell, filter_map]

/-- new cells for the units of a text, numbered from `n` -/
def newCells (fresh : ℕ → ι) : ℕ → List α → Doc ι α
  | _, [] => []
  | n, a :: t => { id := fresh n, unit := a, deleted := false } :: newCells fresh (n + 1) t

theorem mem_newCells {fresh : ℕ → ι} {n : ℕ} {t : List α} (h : c ∈ newCells fresh n t) :
    (∃ k, c.id = fresh k) ∧ c.deleted = false := by
  induction t generalizing n with
  | nil => simp [newCells] at h
  | cons a t ih =>
    rcases mem_cons.mp h with rfl | hrest
    · exact ⟨⟨n, rfl⟩, rfl⟩
    · exact ih hrest

@[simp] theorem map_unit_newCells (fresh : ℕ → ι) (n : ℕ) (t : List α) : (newCells fresh n t).map Cell.unit = t := by
  induction t generalizing n with
  | nil => rfl
  | cons a t ih => simp [newCells, ih]

@[simp] theorem text_newCells (fresh : ℕ → ι) (n : ℕ) (t : List α) : text (newCells fresh n t) = t := by
  have hall : visible (newCells fresh n t) = newCells fresh n t :=
    filter_eq_self.mpr fun c hc => by simp [(mem_newCells hc).2]
  rw [text, hall, map_unit_newCells]

/-- a diff replayed as inserts and deletes, new cells numbered from `n` -/
def replay (fresh : ℕ → ι) : ℕ → Doc ι α → List (Hunk α) → Doc ι α
  | _, cells, [] => cells
  | n, cells, (.equal, t) :: ds =>
    (splitVisible t.length cells).1 ++ replay fresh n (splitVisible t.length cells).2 ds
  | n, cells, (.delete, t) :: ds =>
    (splitVisible t.length cells).1.map deleteCell ++ replay fresh n (splitVisible t.length cells).2 ds
  | n, cells, (.insert, t) :: ds => newCells fresh n t ++ replay fresh (n + t.length) cells ds

variable {cells : Doc ι α}

theorem text_split_of_append (t rest : List α) (h : t ++ rest = text cells) :
    text (splitVisible t.length cells).1 = t ∧ text (splitVisible t.length cells).2 = rest := by
  have hlen : t.length ≤ (text cells).length := by rw [← h, length_append]; omega
  obtain ⟨h₁, h₂⟩ := splitVisible_text t.length cells hlen
  rw [h₁, h₂, ← h]
  exact ⟨take_left, drop_left⟩

variable {diffs : List (Hunk α)}

/-- **Replay.** A diff of the document's text, replayed on it, ends in the diff's target. -/
theorem text_replay (fresh : ℕ → ι) (n : ℕ) (h : source diffs = text cells) :
    text (replay fresh n cells diffs) = target diffs := by
  induction diffs generalizing n cells with
  | nil => simpa [replay] using h.symm
  | cons d ds ih =>
    obtain ⟨op, t⟩ := d
    cases op with
    | equal =>
      obtain ⟨h₁, h₂⟩ := text_split_of_append t (source ds) h
      rw [replay, text_append, h₁, ih n h₂.symm, target_equal]
    | delete =>
      obtain ⟨h₁, h₂⟩ := text_split_of_append t (source ds) h
      rw [replay, text_append, text_map_deleteCell, ih n h₂.symm, target_delete, nil_append]
    | insert =>
      rw [replay, text_append, text_newCells, ih (n + t.length) h, target_insert]

/-! ## Which cells a replay touches -/

/-- the cells of a document that the deleted hunks of a diff cover -/
def struck : Doc ι α → List (Hunk α) → Doc ι α
  | _, [] => []
  | cells, (.equal, t) :: ds => struck (splitVisible t.length cells).2 ds
  | cells, (.delete, t) :: ds =>
    (splitVisible t.length cells).1 ++ struck (splitVisible t.length cells).2 ds
  | cells, (.insert, _) :: ds => struck cells ds

/-- a struck cell is deleted by the replay -/
theorem deleted_of_struck (fresh : ℕ → ι) (n : ℕ) (h : c ∈ struck cells diffs) :
    deleteCell c ∈ replay fresh n cells diffs := by
  induction diffs generalizing n cells with
  | nil => simp [struck] at h
  | cons d ds ih =>
    obtain ⟨op, t⟩ := d
    cases op with
    | equal => exact mem_append_right _ (ih n h)
    | delete =>
      rcases mem_append.mp h with hhere | hlater
      · exact mem_append_left _ (mem_map_of_mem hhere)
      · exact mem_append_right _ (ih n hlater)
    | insert => exact mem_append_right _ (ih _ h)

theorem mem_splitVisible (n : ℕ) (cells : Doc ι α) :
    c ∈ (splitVisible n cells).1 ∨ c ∈ (splitVisible n cells).2 ↔ c ∈ cells := by
  rw [← mem_append, splitVisible_append]

/-- every cell of a replay is one of the document's, as it was or deleted, or a new one -/
theorem mem_replay {fresh : ℕ → ι} {n : ℕ} (h : c ∈ replay fresh n cells diffs) :
    c ∈ cells ∨ (∃ c' ∈ cells, c = deleteCell c') ∨ ∃ k, c.id = fresh k ∧ c.deleted = false := by
  induction diffs generalizing n cells with
  | nil => exact .inl h
  | cons d ds ih =>
    obtain ⟨op, t⟩ := d
    have hsplit := fun c => (mem_splitVisible (c := c) t.length cells).1
    have hrest (hlater : c ∈ replay fresh n (splitVisible t.length cells).2 ds) :
        c ∈ cells ∨ (∃ c' ∈ cells, c = deleteCell c') ∨ ∃ k, c.id = fresh k ∧ c.deleted = false :=
      (ih hlater).imp (fun hold => hsplit c (.inr hold))
        (Or.imp_left fun ⟨c', hc', heq⟩ => ⟨c', hsplit c' (.inr hc'), heq⟩)
    cases op with
    | equal =>
      rcases mem_append.mp h with hhere | hlater
      · exact .inl (hsplit c (.inl hhere))
      · exact hrest hlater
    | delete =>
      rcases mem_append.mp h with hhere | hlater
      · obtain ⟨c', hc', rfl⟩ := mem_map.mp hhere
        exact .inr (.inl ⟨c', hsplit c' (.inl hc'), rfl⟩)
      · exact hrest hlater
    | insert =>
      rcases mem_append.mp h with hhere | hlater
      · obtain ⟨⟨k, hk⟩, hdel⟩ := mem_newCells hhere
        exact .inr (.inr ⟨k, hk, hdel⟩)
      · exact ih hlater

/-- the replay's new cells, in document order, are what the diff inserts -/
theorem new_cells_replay (fresh : ℕ → ι) (n : ℕ) {p : ι → Prop} [DecidablePred p] (hp : ∀ k, p (fresh k))
    (hnot : ∀ c ∈ cells, ¬p c.id) :
    ((replay fresh n cells diffs).filter fun c => p c.id).map Cell.unit = inserted diffs := by
  induction diffs generalizing n cells with
  | nil =>
    have hnone : cells.filter (fun c => p c.id) = [] :=
      filter_eq_nil_iff.mpr fun c hc => by simpa using hnot c hc
    simp [replay, hnone]
  | cons d ds ih =>
    obtain ⟨op, t⟩ := d
    have hsplit := fun c => (mem_splitVisible (c := c) t.length cells).1
    have hnone : ((splitVisible t.length cells).1).filter (fun c => p c.id) = [] :=
      filter_eq_nil_iff.mpr fun c hc => by simpa using hnot c (hsplit c (.inl hc))
    have hnone' : (((splitVisible t.length cells).1).map deleteCell).filter (fun c => p c.id) = [] := by
      refine filter_eq_nil_iff.mpr fun c hc => ?_
      obtain ⟨c', hc', rfl⟩ := mem_map.mp hc
      exact fun hd => hnot c' (hsplit c' (.inl hc')) (of_decide_eq_true hd)
    have hrest := fun m => ih m fun c hc => hnot c (hsplit c (.inr hc))
    cases op with
    | equal => rw [replay, filter_append, hnone, nil_append, hrest, inserted_equal]
    | delete => rw [replay, filter_append, hnone', nil_append, hrest, inserted_delete]
    | insert =>
      have hall : (newCells fresh n t).filter (fun c => p c.id) = newCells fresh n t := by
        refine filter_eq_self.mpr fun c hc => ?_
        obtain ⟨⟨k, hk⟩, -⟩ := mem_newCells hc
        simpa [hk] using hp k
      rw [replay, filter_append, hall, map_append, map_unit_newCells, ih _ hnot, inserted_insert]

/-- a diff that keeps everything strikes nothing -/
theorem struck_of_all_equal (h : ∀ d ∈ diffs, d.1 = .equal) (cells : Doc ι α) : struck cells diffs = [] := by
  induction diffs generalizing cells with
  | nil => rfl
  | cons d ds ih =>
    obtain ⟨op, t⟩ := d
    obtain rfl := h (op, t) mem_cons_self
    exact ih (fun e he => h e (.tail _ he)) _

/-! ## Merging -/

/-- `d` has inserted the unit under this id -/
def Has (d : Doc ι α) (id : ι) (unit : α) : Prop := ∃ c ∈ d, c.id = id ∧ c.unit = unit

/-- `d` has deleted the unit under this id -/
def Gone (d : Doc ι α) (id : ι) : Prop := ∃ c ∈ d, c.id = id ∧ c.deleted = true

/-- the unit under this id is in the text -/
def Shows (d : Doc ι α) (id : ι) (unit : α) : Prop := Has d id unit ∧ ¬Gone d id

theorem has_of_mem (h : c ∈ d) : Has d c.id c.unit := ⟨c, h, rfl, rfl⟩

/-- `e` holds all that `d` holds and has deleted all that `d` has deleted -/
structure Extends (d e : Doc ι α) : Prop where
  has : ∀ id unit, Has d id unit → Has e id unit
  gone : ∀ id, Gone d id → Gone e id

theorem Extends.trans {e f : Doc ι α} (h : Extends d e) (h' : Extends e f) : Extends d f :=
  ⟨fun id unit hd => h'.has id unit (h.has id unit hd), fun id hd => h'.gone id (h.gone id hd)⟩

theorem extends_append (d e : Doc ι α) : Extends d (d ++ e) where
  has := by
    rintro id unit ⟨c, hc, h⟩
    exact ⟨c, mem_append_left _ hc, h⟩
  gone := by
    rintro id ⟨c, hc, h⟩
    exact ⟨c, mem_append_left _ hc, h⟩

/-- taking in another document's operations shows what either side has and neither has deleted -/
structure LawfulMerge (merge : Doc ι α → Doc ι α → Doc ι α) : Prop where
  has : ∀ d e id unit, Has (merge d e) id unit ↔ Has d id unit ∨ Has e id unit
  gone : ∀ d e id, Gone (merge d e) id ↔ Gone d id ∨ Gone e id

theorem LawfulMerge.shows {merge : Doc ι α → Doc ι α → Doc ι α} (h : LawfulMerge merge) {e : Doc ι α} {id : ι}
    {unit : α} : Shows (merge d e) id unit ↔ (Has d id unit ∨ Has e id unit) ∧ ¬Gone d id ∧ ¬Gone e id := by
  unfold Shows
  rw [h.has, h.gone, not_or]

theorem Shows.mem_text {id : ι} {unit : α} (h : Shows d id unit) : unit ∈ text d := by
  obtain ⟨⟨c, hc, rfl, rfl⟩, hgone⟩ := h
  refine mem_map_of_mem (mem_visible.mpr ⟨hc, ?_⟩)
  cases hdel : c.deleted with
  | false => rfl
  | true => exact absurd ⟨c, hc, rfl, hdel⟩ hgone

end TextCrdt
