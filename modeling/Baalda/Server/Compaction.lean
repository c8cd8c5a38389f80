/-
Compaction against concurrent appends: what survives.

`CompOk` says what a compaction in progress knows about the committed rows, statement by statement; `compOk_step` keeps
it, as long as
- `InOrder`: no append becomes visible at or below the compaction's high-water mark between its read of the log and its
  DELETE (`id <= maxId` takes such a row although the merge never saw it);
- `ResetsApart`: no reset rewrites what a compaction has read.
-/
import Baalda.Lib.Slots
import Baalda.Server.DocStore

namespace Baalda.DocStore

open Crdt Crdt.Update List

/-! ## What a compaction in progress knows -/

/-- the row to be written lies between the snapshot it replaces and the stored document -/
structure Merged (d : Db) (row : SnapshotRow) : Prop where
  base : content d.snapshot ≤ row.snapshot
  within : row.snapshot ≤ d.stored

def CompOk (d : Db) : Option Compaction → Prop
  | none | some .locked => True
  | some (.snapshotRead snap) => snap = d.snapshot
  | some (.logRead snap rows) => snap = d.snapshot ∧ rows ⊆ d.log ∧ ∀ r ∈ d.log, r.id ≤ maxId rows → r ∈ rows
  | some (.upserted row upto _ pending legacy) =>
    Merged d row ∧ (∀ r ∈ d.log, r.id ≤ upto → r.update ≤ row.snapshot) ∧ (∀ u ∈ pending, u ≤ row.snapshot) ∧
      ∀ r ∈ legacy, r.update ≤ row.snapshot
  | some (.deleted row legacy dels) | some (.invalidated row legacy dels _) =>
    Merged d row ∧ (∀ r ∈ dels, r.update ≤ row.snapshot) ∧ ∀ r ∈ legacy, r.update ≤ row.snapshot

/-- `id` is above the high-water mark of a compaction that has read the log and not deleted from it yet -/
def AboveMark (id : ℕ) : Option Compaction → Prop
  | some (.logRead _ rows) => maxId rows < id
  | some (.upserted _ upto _ _ _) => upto < id
  | _ => True

instance (id : ℕ) (c : Option Compaction) : Decidable (AboveMark id c) := by
  unfold AboveMark; split <;> infer_instance

/-- an append commits above the high-water mark of the compaction between its read of the log and its DELETE -/
def InOrder (s : St) : Action → Prop
  | .appendCommit id => AboveMark id s.compaction
  | _ => True

instance (s : St) (a : Action) : Decidable (InOrder s a) := by unfold InOrder; split <;> infer_instance

def hasReadSnapshot : Option Compaction → Bool
  | none | some .locked => false
  | _ => true

def hasReadLog : Option Compaction → Bool
  | none | some .locked | some (.snapshotRead _) => false
  | _ => true

/-- no reset deletes the log a compaction has read or replaces the snapshot it has read -/
def ResetsApart (s : St) : Action → Prop
  | .resetDelete _ => hasReadLog s.compaction = false
  | .resetUpsert _ => hasReadSnapshot s.compaction = false
  | _ => True

instance (s : St) (a : Action) : Decidable (ResetsApart s a) := by unfold ResetsApart; split <;> infer_instance

/-- the conversion of a row list: an append only adds to the stored document -/
theorem stored_append (d : Db) (r : UpdateRow) : ({ d with log := d.log ++ [r] } : Db).stored = d.stored ⊔ r.update := by
  simp [Db.stored, mergeParts_append, updates]

variable {d : Db} {row : SnapshotRow}

theorem Merged.append (h : Merged d row) (r : UpdateRow) :
    Merged { d with log := d.log ++ [r] } row where
  base := h.base
  within := by rw [stored_append]; exact h.within.trans le_sup_left

/-- nothing but the snapshot and the log matters to a compaction -/
theorem CompOk.congr {d' : Db} {c : Option Compaction} (hs : d'.snapshot = d.snapshot) (hl : d'.log = d.log)
    (h : CompOk d c) : CompOk d' c := by
  obtain ⟨snap, log, v⟩ := d
  obtain ⟨snap', log', v'⟩ := d'
  subst hs hl
  have hm : ∀ row, Merged ⟨snap', log', v⟩ row → Merged ⟨snap', log', v'⟩ row := fun row k => ⟨k.base, k.within⟩
  rcases c with _ | _ | _ | _ | _ | _ | _
  · trivial
  · trivial
  · exact h
  · exact h
  · exact ⟨hm _ h.1, h.2⟩
  · exact ⟨hm _ h.1, h.2⟩
  · exact ⟨hm _ h.1, h.2⟩

variable {r : UpdateRow}

/-- a row that becomes visible above the mark is none the compaction will delete -/
theorem CompOk.append {c : Option Compaction} (h : CompOk d c) (ha : AboveMark r.id c) :
    CompOk { d with log := d.log ++ [r] } c := by
  rcases c with _ | _ | snap | ⟨snap, rows⟩ | ⟨row, upto, keep, pending, legacy⟩ | _ | _
  · trivial
  · trivial
  · exact h
  · obtain ⟨hs, hsub, hcov⟩ := h
    refine ⟨hs, fun x hx => mem_append_left _ (hsub hx), fun x hx hle => ?_⟩
    rcases mem_snoc.1 hx with hx | rfl
    · exact hcov x hx hle
    · exact absurd hle (not_le.2 ha)
  · obtain ⟨hm, hcov, hrest⟩ := h
    refine ⟨hm.append r, fun x hx hle => ?_, hrest⟩
    rcases mem_snoc.1 hx with hx | rfl
    · exact hcov x hx hle
    · exact absurd hle (not_le.2 ha)
  · exact ⟨h.1.append r, h.2⟩
  · exact ⟨h.1.append r, h.2⟩

/-- the upsert turns what was read into the row to be written -/
theorem CompOk.upsert {snap : Option SnapshotRow} {rows : List UpdateRow} {keyed : Bool} {keep : ℕ}
    {legacy : Option Update} (h : CompOk d (some (.logRead snap rows)))
    (hok : ConversionOk keyed (mergeParts snap rows) keep legacy) :
    CompOk d (some (.upserted (compactedRow snap rows) (maxId rows) keep legacy none)) := by
  obtain ⟨rfl, hsub, hcov⟩ := h
  refine ⟨⟨content_le_mergeParts _ _, ?_⟩, fun r hr hle => update_le_mergeParts (hcov r hr hle), hok.2, by simp⟩
  exact mergeParts_le (content_le_mergeParts _ _) fun r hr => update_le_mergeParts (hsub hr)

variable {s : St}

/-- **Step.** What a compaction knows stays true, as long as appends commit in order and resets keep apart. -/
theorem compOk_step {a : Action} (h : CompOk s.db s.compaction) (ho : InOrder s a) (hr : ResetsApart s a) :
    CompOk (step s a).db (step s a).compaction := by
  refine step_preserves (fun t => CompOk t.db t.compaction) h fun t ht => ?_
  cases ht with
  | otherInsert | appendStart u | appendAbort id | readerBegin | readerLock _ | readerFinish _ _
  | resetBegin seed _ => exact h
  | appendCommit hm => exact h.append ho
  | compactLock _ | compactEnd | compactCommit _ => trivial
  | compactReadSnapshot _ => rfl
  | compactReadLog hc =>
    rw [hc] at h
    exact ⟨h, Subset.refl _, fun r hr _ => hr⟩
  | compactUpsert hc hok =>
    rw [hc] at h
    exact h.upsert hok
  | compactInsertLegacy hc =>
    rw [hc] at h
    obtain ⟨hm, hcov, hp, -⟩ := h
    refine ⟨hm, hcov, by simp, fun r hr => ?_⟩
    cases hr
    exact hp _ rfl
  | compactDelete hc =>
    rw [hc] at h
    obtain ⟨hm, hcov, -, hl⟩ := h
    refine ⟨hm, fun r hr => ?_, hl⟩
    obtain ⟨hrl, hle⟩ := mem_filter.1 hr
    exact hcov r hrl (by simpa using And.left (of_decide_eq_true hle))
  | compactInvalidate ok hc =>
    rw [hc] at h
    exact h
  | readerCache _ _ => exact CompOk.congr (d := s.db) rfl rfl h
  | resetDelete hi _ =>
    rcases hc : s.compaction with _ | _ | _ | _ | _ | _ | _
    · trivial
    · trivial
    · rw [hc] at h; exact h
    all_goals simp [ResetsApart, hasReadLog, hc] at hr
  | resetUpsert hi _ _ =>
    rcases hc : s.compaction with _ | _ | _ | _ | _ | _ | _
    · trivial
    · trivial
    all_goals simp [ResetsApart, hasReadSnapshot, hc] at hr
  | resetRemember ok hi _ =>
    cases ok with
    | true => exact CompOk.congr (d := s.db) rfl rfl h
    | false => exact h

/-! ## The commit -/

variable {legacy : Option UpdateRow} {dels : List UpdateRow} {inval : Bool}

theorem mem_commitDb_log : r ∈ (commitDb d row legacy dels inval).log ↔ (r ∈ d.log ∧ r ∉ dels) ∨ legacy = some r := by
  simp only [commitDb, mem_append, mem_filter, decide_eq_true_eq, Option.mem_toList]

/-- **A compaction changes no content.** Its commit leaves the stored document exactly as it is. -/
theorem commitDb_stored (h : CompOk d (some (.invalidated row legacy dels inval))) :
    (commitDb d row legacy dels inval).stored = d.stored := by
  obtain ⟨hm, hd, hl⟩ := h
  apply le_antisymm
  · refine mergeParts_le hm.within fun r hr => ?_
    rcases mem_commitDb_log.1 hr with ⟨hr, -⟩ | hr
    · exact update_le_mergeParts hr
    · exact (hl r hr).trans hm.within
  · have hrow : row.snapshot ≤ (commitDb d row legacy dels inval).stored := content_le_mergeParts (some row) _
    refine mergeParts_le (hm.base.trans hrow) fun r hr => ?_
    by_cases hrd : r ∈ dels
    · exact (hd r hrd).trans hrow
    · exact update_le_mergeParts (mem_commitDb_log.2 (.inl ⟨hr, hrd⟩))

/-! ## Runs of appends, compactions and reads -/

/-- no reset is started, and appends commit in order -/
def AppendsInOrder (s : St) (a : Action) : Prop := startsReset a = false ∧ InOrder s a

instance (s : St) (a : Action) : Decidable (AppendsInOrder s a) := inferInstanceAs (Decidable (_ ∧ _))

/-- every committed update is in the snapshot or in a surviving row -/
def Kept (s : St) : Prop :=
  ∀ u ∈ s.committed, u ≤ content s.db.snapshot ∨ ∃ r ∈ s.db.log, u ≤ r.update

instance (s : St) : Decidable (Kept s) := inferInstanceAs (Decidable (∀ u ∈ s.committed, _))

structure Inv (s : St) : Prop where
  comp : CompOk s.db s.compaction
  kept : Kept s
  noReset : s.resets = []

theorem inv_init (keyed : Bool) : Inv (init keyed) := ⟨trivial, by simp [Kept, init], rfl⟩

/-- a commit moves every update it deletes into the snapshot -/
theorem kept_commit (hc : CompOk s.db (some (.invalidated row legacy dels inval))) (h : Kept s) :
    Kept { s with db := commitDb s.db row legacy dels inval, compaction := none } := by
  obtain ⟨hm, hd, -⟩ := hc
  intro u hu
  rcases h u hu with hu | ⟨r, hr, hur⟩
  · exact .inl (hu.trans hm.base)
  · by_cases hrd : r ∈ dels
    · exact .inl (hur.trans (hd r hrd))
    · exact .inr ⟨r, mem_commitDb_log.2 (.inl ⟨hr, hrd⟩), hur⟩

theorem kept_append (h : Kept s) (ids : List UpdateRow) :
    Kept { s with
      db := { s.db with log := s.db.log ++ [r] }, inflight := ids, committed := r.update :: s.committed } := by
  intro u hu
  rcases mem_cons.1 hu with rfl | hu
  · exact .inr ⟨r, by simp, le_rfl⟩
  · rcases h u hu with hu | ⟨x, hx, hux⟩
    · exact .inl hu
    · exact .inr ⟨x, mem_append_left _ hx, hux⟩

/-- with no reset begun, no statement of a reset is enabled -/
theorem no_reset_fires (h : s.resets = []) {i : ℕ} {r : Reset} (hr : s.resets[i]? = some r) : False := by
  simp [h] at hr

theorem inv_step {a : Action} (h : Inv s) (ha : AppendsInOrder s a) : Inv (step s a) := by
  have hapart : ResetsApart s a ∨ step s a = s := by
    cases a with
    | resetDelete i | resetUpsert i => right; simp [step, h.noReset]
    | _ => exact .inl trivial
  rcases hapart with hapart | hstay
  · refine ⟨compOk_step h.comp ha.2 hapart, ?_, ?_⟩
    · refine step_preserves Kept h.kept fun t ht => ?_
      cases ht with
      | appendCommit _ => exact kept_append h.kept _
      | compactCommit hc => exact kept_commit (hc ▸ h.comp) h.kept
      | resetDelete hi _ | resetUpsert hi _ _ | resetRemember _ hi _ => exact (no_reset_fires h.noReset hi).elim
      | _ => exact h.kept
    · refine step_preserves (fun t => t.resets = []) h.noReset fun t ht => ?_
      cases ht with
      | resetBegin seed _ => exact absurd ha.1 (by simp [startsReset])
      | resetDelete hi _ | resetUpsert hi _ _ | resetRemember _ hi _ => exact (no_reset_fires h.noReset hi).elim
      | _ => exact h.noReset
  · rwa [hstay]

theorem inv_run (keyed : Bool) {as : List Action} (h : Machine.Guarded step AppendsInOrder (init keyed) as) :
    Inv (run (init keyed) as) := Machine.run_inv (fun _ _ => inv_step) (inv_init keyed) h

/-- a row is gone after a step only if the snapshot the step leaves holds its update -/
theorem deleted_merged (h : Inv s) (a : Action) (hr : r ∈ s.db.log) (hgone : r ∉ (step s a).db.log) :
    r.update ≤ content (step s a).db.snapshot := by
  rcases step_fires s a with he | hf
  · rw [he] at hgone
    exact absurd hr hgone
  · generalize step s a = t at hf hgone
    cases hf with
    | appendCommit _ => exact absurd (mem_append_left _ hr) hgone
    | @compactCommit row legacy dels inval hc =>
      obtain ⟨hm, hd, -⟩ : CompOk s.db (some (.invalidated row legacy dels inval)) := hc ▸ h.comp
      by_cases hrd : r ∈ dels
      · exact hd r hrd
      · exact absurd (mem_commitDb_log.2 (.inl ⟨hr, hrd⟩)) hgone
    | resetDelete hi _ | resetUpsert hi _ _ | resetRemember _ hi _ => exact (no_reset_fires h.noReset hi).elim
    | _ => exact absurd hr hgone

theorem snapshot_mono (h : Inv s) (a : Action) : content s.db.snapshot ≤ content (step s a).db.snapshot := by
  rcases step_fires s a with he | hf
  · rw [he]
  · generalize step s a = t at hf
    cases hf with
    | @compactCommit row legacy dels inval hc =>
      have hok : CompOk s.db (some (.invalidated row legacy dels inval)) := hc ▸ h.comp
      exact hok.1.base
    | resetDelete hi _ | resetUpsert hi _ _ | resetRemember _ hi _ => exact (no_reset_fires h.noReset hi).elim
    | _ => exact le_rfl

/-- **No lost update, when appends commit in order.** In every state of such a run every committed update is in the
snapshot or in a surviving row, and whatever step comes next deletes only rows its snapshot holds and moves the
snapshot only forward. -/
theorem appended_updates_survive (keyed : Bool) (as : List Action)
    (h : Machine.Guarded step AppendsInOrder (init keyed) as) :
    Kept (run (init keyed) as) ∧
      ∀ a, (∀ r ∈ (run (init keyed) as).db.log, r ∉ (step (run (init keyed) as) a).db.log →
          r.update ≤ content (step (run (init keyed) as) a).db.snapshot) ∧
        content (run (init keyed) as).db.snapshot ≤ content (step (run (init keyed) as) a).db.snapshot :=
  have hi := inv_run keyed h
  ⟨hi.kept, fun a => ⟨fun _ hr hgone => deleted_merged hi a hr hgone, snapshot_mono hi a⟩⟩

/-- client 1's first struct, client 2's first struct -/
def firstEdit : Update := ⟨{⟨1, 0⟩}, ∅⟩

def otherEdit : Update := ⟨{⟨2, 0⟩}, ∅⟩

/-- two appends, the second committed first, compacted after both are visible -/
def inOrderRun : List Action :=
  [.appendStart firstEdit, .appendStart otherEdit, .appendCommit 2, .appendCommit 1, .compactLock, .compactReadSnapshot,
    .compactReadLog, .compactUpsert 0 none, .compactDelete, .compactInvalidate true, .compactCommit]

theorem in_order_run_keeps_both : Kept (run (init false) inOrderRun) :=
  (appended_updates_survive false inOrderRun (by decide)).1

/-- the first append commits between the compaction's read of the log and its DELETE -/
def lateCommitRun : List Action :=
  [.appendStart firstEdit, .appendStart otherEdit, .appendCommit 2, .compactLock, .compactReadSnapshot, .compactReadLog,
    .compactUpsert 0 none, .appendCommit 1, .compactDelete, .compactInvalidate true, .compactCommit]

/-- **The late commit is deleted.** Update 1 is committed, the DELETE `id <= 2` takes its row, and the snapshot written
does not hold it. -/
theorem late_commit_is_deleted : ¬ Kept (run (init false) lateCommitRun) := by decide

end Baalda.DocStore
