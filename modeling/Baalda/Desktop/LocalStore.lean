/-
The local CRDT store: appended updates, snapshots with a watermark, and a crash.

One bridge (`bridge/noteBridge.ts`) appends every update of its document to `yjs_updates` and now and then replaces the log
by a snapshot (`src-tauri/src/index.rs`). Its calls are issued in order and take effect in any order, each atomically:
- `edit`: the document takes an update in and issues its append (`onDocUpdate`);
- `appendLands` / `appendAnswers` / `appendFails`: the append's row is committed, its id reaches the bridge, or the call
  fails. A row id is one above the highest in the table (`INTEGER PRIMARY KEY`), which other documents share (`others`);
- a snapshot write, by the compaction or by an ingest's recovery snapshot: it waits for every append issued so far
  (`begins`), encodes the document beside the highest id it was told of (`encodes`), and is then an upsert with
  `DELETE … WHERE id <= up_to` in flight (`saveLands`, `saveAnswers`, `saveFails`).

`Kept`: what a reload after a crash here would hold. `StoreOk` lists what a run must not do:
- commit an append at or below the watermark of a snapshot in flight that lacks it;
- commit a snapshot that lacks an update whose row another snapshot has already taken away.
-/
import Baalda.Lib.Crdt
import Baalda.Lib.Machine
import Baalda.Lib.Slots

namespace Baalda.LocalStore

open Crdt Crdt.Update List

/-! ## The store -/

/-- the rows of one document -/
structure Db where
  snapshot : Option Update
  /-- `yjs_updates`, by id -/
  rows : List (ℕ × Update)
  /-- the highest id among the rows of other documents -/
  others : ℕ
  deriving DecidableEq

namespace Db

def maxId (db : Db) : ℕ := (db.rows.map Prod.fst).foldr max db.others

def nextId (db : Db) : ℕ := db.maxId + 1

/-- `append_yjs_update` -/
def append (db : Db) (update : Update) : Db := { db with rows := db.rows ++ [(db.nextId, update)] }

/-- `save_yjs_snapshot`: one transaction -/
def saveSnapshot (db : Db) (snapshot : Update) (upTo : ℕ) : Db :=
  { db with snapshot := some snapshot, rows := db.rows.filter (upTo < ·.1) }

/-- the document `load_yjs_state` hands back: the snapshot and every row of the log -/
def load (db : Db) : Update := mergeAll (db.snapshot.toList ++ db.rows.map Prod.snd)

/-- `last_update_id` -/
def lastUpdateId (db : Db) : ℕ := (db.rows.map Prod.fst).foldr max 0

theorem row_le_load {db : Db} {row : ℕ × Update} (h : row ∈ db.rows) : row.2 ≤ db.load :=
  le_mergeAll (mem_append_right _ (mem_map_of_mem h))

theorem load_append (db : Db) (update : Update) : (db.append update).load = db.load ⊔ update := by
  simp only [load, append, map_append, map_cons, map_nil, mergeAll_append, mergeAll_cons, mergeAll_nil,
    sup_bot_eq, sup_assoc]

theorem snapshot_le_load_saveSnapshot (db : Db) (snapshot : Update) (upTo : ℕ) :
    snapshot ≤ (db.saveSnapshot snapshot upTo).load :=
  le_mergeAll (by simp [saveSnapshot])

theorem row_mem_saveSnapshot {db : Db} {snapshot : Update} {upTo : ℕ} {row : ℕ × Update} :
    row ∈ (db.saveSnapshot snapshot upTo).rows ↔ row ∈ db.rows ∧ upTo < row.1 := by
  simp [saveSnapshot]

end Db

/-! ## The bridge and its calls -/

/-- where an append stands -/
inductive Stage where
  | sent
  | landed (id : ℕ)
  | answered (id : ℕ)
  | failed
  deriving DecidableEq

structure Call where
  update : Update
  stage : Stage
  deriving DecidableEq

/-- the row the append has written -/
def Call.row (c : Call) : Option (ℕ × Update) := match c.stage with
  | .landed id | .answered id => some (id, c.update)
  | .sent | .failed => none

def Call.settled (c : Call) : Bool := match c.stage with
  | .answered _ | .failed => true
  | .sent | .landed _ => false

/-- who writes snapshots: `compact`, one at a time, and the recovery snapshot of an ingest, one pass at a time -/
inductive Writer where
  | compaction | recovery
  deriving DecidableEq

instance : Fintype Writer := ⟨{.compaction, .recovery}, by rintro (_ | _) <;> decide⟩

/-- where a snapshot write stands -/
inductive Save where
  | idle
  /-- `whenPersisted`: the appends issued so far -/
  | waiting (calls : ℕ)
  | saving (snapshot : Update) (upTo : ℕ)
  | saved
  deriving DecidableEq

structure St where
  db : Db
  /-- what `loadState` answered when the bridge was opened -/
  opened : Update
  doc : Update
  calls : List Call
  maxPersistedRow : ℕ
  saves : Writer → Save

def St.setSave (s : St) (w : Writer) (save : Save) : St := { s with saves := Function.update s.saves w save }

def hydrate (db : Db) : St :=
  { db := db, opened := db.load, doc := db.load, calls := [], maxPersistedRow := db.lastUpdateId, saves := fun _ => .idle }

inductive Action where
  | edit (update : Update)
  | appendLands (i : ℕ)
  | appendAnswers (i : ℕ)
  | appendFails (i : ℕ)
  | begins (w : Writer)
  | encodes (w : Writer)
  | saveLands (w : Writer)
  | saveAnswers (w : Writer)
  | saveFails (w : Writer)
  /-- other documents append to the table and compact -/
  | others (maxId : ℕ)

def step (s : St) : Action → St
  | .edit update => { s with doc := s.doc ⊔ update, calls := s.calls ++ [⟨update, .sent⟩] }
  | .appendLands i =>
    match s.calls[i]? with
    | some ⟨update, .sent⟩ => { s with db := s.db.append update, calls := s.calls.set i ⟨update, .landed s.db.nextId⟩ }
    | _ => s
  | .appendAnswers i =>
    match s.calls[i]? with
    | some ⟨update, .landed id⟩ =>
      { s with calls := s.calls.set i ⟨update, .answered id⟩, maxPersistedRow := max s.maxPersistedRow id }
    | _ => s
  | .appendFails i =>
    match s.calls[i]? with
    | some ⟨update, .sent⟩ => { s with calls := s.calls.set i ⟨update, .failed⟩ }
    | _ => s
  | .begins w =>
    match s.saves w with
    | .idle => s.setSave w (.waiting s.calls.length)
    | _ => s
  | .encodes w =>
    match s.saves w with
    | .waiting n => if (s.calls.take n).all Call.settled then s.setSave w (.saving s.doc s.maxPersistedRow) else s
    | _ => s
  | .saveLands w =>
    match s.saves w with
    | .saving snapshot upTo => { s with db := s.db.saveSnapshot snapshot upTo }.setSave w .saved
    | _ => s
  | .saveAnswers w =>
    match s.saves w with
    | .saved => s.setSave w .idle
    | _ => s
  | .saveFails w =>
    match s.saves w with
    | .saving _ _ => s.setSave w .idle
    | _ => s
  | .others maxId => { s with db := { s.db with others := maxId } }

def run (s : St) (as : List Action) : St := Machine.run step s as

/-- a reload yields what the bridge was opened with and every update whose append has taken effect -/
def Kept (s : St) : Prop :=
  s.opened ≤ s.db.load ∧ ∀ c ∈ s.calls, ∀ row ∈ c.row, row.2 ≤ s.db.load

instance (s : St) : Decidable (Kept s) := inferInstanceAs (Decidable (_ ∧ _))

/-! ## What a run must not do -/

/-- the snapshot and the watermark of a write in flight -/
def St.inFlight (s : St) (w : Writer) : Option (Update × ℕ) := match s.saves w with
  | .saving snapshot upTo => some (snapshot, upTo)
  | _ => none

/-- the append would commit above the watermark of every snapshot in flight that lacks it -/
def LandsAbove (s : St) (c : Call) : Prop :=
  c.stage = .sent → ∀ w, ∀ save ∈ s.inFlight w, save.2 ≤ s.db.maxId ∨ c.update ≤ save.1

/-- the snapshot covers every appended update whose row is gone from the log -/
def CoversGone (s : St) (snapshot : Update) : Prop :=
  ∀ c ∈ s.calls, ∀ row ∈ c.row, row ∉ s.db.rows → row.2 ≤ snapshot

def StoreOk (s : St) : Action → Prop
  | .appendLands i => ∀ c ∈ s.calls[i]?, LandsAbove s c
  | .saveLands w => ∀ save ∈ s.inFlight w, CoversGone s save.1
  | _ => True

instance (s : St) (c : Call) : Decidable (LandsAbove s c) := inferInstanceAs (Decidable (_ → _))

instance (s : St) (u : Update) : Decidable (CoversGone s u) := inferInstanceAs (Decidable (∀ c ∈ s.calls, _))

instance (s : St) (a : Action) : Decidable (StoreOk s a) := by unfold StoreOk; split <;> infer_instance

/-! ## The invariant -/

/-- the document covers the store; a snapshot in flight covers every row its watermark reaches -/
structure Inv (s : St) : Prop where
  opened : s.opened ≤ s.doc
  calls : ∀ c ∈ s.calls, c.update ≤ s.doc
  rows : ∀ row ∈ s.db.rows, row.2 ≤ s.doc
  saves : ∀ w, ∀ save ∈ s.inFlight w, s.opened ≤ save.1 ∧ ∀ row ∈ s.db.rows, row.1 ≤ save.2 → row.2 ≤ save.1
  kept : Kept s

theorem Call.row_update {c : Call} {row : ℕ × Update} (h : row ∈ c.row) : row.2 = c.update := by
  unfold Call.row at h
  split at h
  · cases h
    rfl
  · cases h
    rfl
  · simp at h
  · simp at h

variable {s : St}

theorem inFlight_eq_some {w : Writer} {snapshot : Update} {upTo : ℕ} (h : s.saves w = .saving snapshot upTo) :
    s.inFlight w = some (snapshot, upTo) := by
  simp [St.inFlight, h]

/-- a writer that is not in flight adds no snapshot, and leaves the others as they were -/
theorem inFlight_setSave {w v : Writer} {save : Save} {p : Update × ℕ} (h : p ∈ (s.setSave w save).inFlight v) :
    p ∈ s.inFlight v ∨ save = .saving p.1 p.2 := by
  unfold St.inFlight St.setSave at h
  by_cases hv : v = w
  · subst hv
    simp only [Function.update_self] at h
    right
    cases save with
    | saving snapshot upTo =>
      cases h
      rfl
    | idle | waiting n | saved => simp at h
  · left
    simp only [Function.update_of_ne hv] at h
    exact h

theorem Inv.init (db : Db) : Inv (hydrate db) where
  opened := le_rfl
  calls := by simp [hydrate]
  rows row hrow := Db.row_le_load hrow
  saves := by simp [hydrate, St.inFlight]
  kept := ⟨le_rfl, by simp [hydrate]⟩

/-- a step that leaves the document, the store and the rows written by the calls as they are, and starts no write -/
theorem Inv.frame {t : St} (h : Inv s) (hdb : t.db.snapshot = s.db.snapshot) (hrows : t.db.rows = s.db.rows)
    (hopened : t.opened = s.opened) (hdoc : t.doc = s.doc)
    (hcalls : ∀ c ∈ t.calls, ∃ c' ∈ s.calls, c.update = c'.update ∧ ∀ row ∈ c.row, row ∈ c'.row)
    (hsaves : ∀ w, ∀ save ∈ t.inFlight w, save ∈ s.inFlight w) : Inv t := by
  have hload : t.db.load = s.db.load := by simp only [Db.load, hdb, hrows]
  refine ⟨by rw [hopened, hdoc]; exact h.opened, ?_, by rw [hrows, hdoc]; exact h.rows, ?_, ?_, ?_⟩
  · intro c hc
    obtain ⟨c', hc', heq, -⟩ := hcalls c hc
    rw [heq, hdoc]
    exact h.calls c' hc'
  · intro w save hsave
    rw [hopened, hrows]
    exact h.saves w save (hsaves w save hsave)
  · rw [hopened, hload]
    exact h.kept.1
  · intro c hc row hrow
    obtain ⟨c', hc', -, hrows'⟩ := hcalls c hc
    rw [hload]
    exact h.kept.2 c' hc' row (hrows' row hrow)

theorem Inv.edit (h : Inv s) (update : Update) : Inv (step s (.edit update)) where
  opened := h.opened.trans le_sup_left
  calls c hc := by
    rcases mem_snoc.1 hc with hold | hnew
    · exact (h.calls c hold).trans le_sup_left
    · rw [hnew]
      exact le_sup_right
  rows row hrow := (h.rows row hrow).trans le_sup_left
  saves := h.saves
  kept := by
    refine ⟨h.kept.1, ?_⟩
    intro c hc row hrow
    rcases mem_snoc.1 hc with hold | hnew
    · exact h.kept.2 c hold row hrow
    · rw [hnew] at hrow
      simp [Call.row] at hrow

theorem Inv.appendLands (h : Inv s) {i : ℕ} {update : Update} (hcall : s.calls[i]? = some ⟨update, .sent⟩)
    (hok : LandsAbove s ⟨update, .sent⟩) :
    Inv { s with db := s.db.append update, calls := s.calls.set i ⟨update, .landed s.db.nextId⟩ } := by
  have hdoc : update ≤ s.doc := h.calls _ (mem_of_getElem? hcall)
  have hgrow : s.db.load ≤ (s.db.append update).load := by rw [Db.load_append]; exact le_sup_left
  have hnew : update ≤ (s.db.append update).load := by rw [Db.load_append]; exact le_sup_right
  constructor
  · exact h.opened
  · intro c hc
    rcases mem_or_eq_of_mem_set hc with hold | rfl
    · exact h.calls c hold
    · exact hdoc
  · intro row hrow
    rcases mem_snoc.1 hrow with hold | hlast
    · exact h.rows row hold
    · rw [hlast]
      exact hdoc
  · intro w save hsave
    obtain ⟨hopened, hcovers⟩ := h.saves w save hsave
    refine ⟨hopened, ?_⟩
    intro row hrow hle
    rcases mem_snoc.1 hrow with hold | hlast
    · exact hcovers row hold hle
    · rw [hlast] at hle ⊢
      rcases hok rfl w save hsave with habove | hcovered
      · exact absurd (hle.trans habove) (Nat.not_succ_le_self _)
      · exact hcovered
  · refine ⟨h.kept.1.trans hgrow, ?_⟩
    intro c hc row hrow
    rcases mem_or_eq_of_mem_set hc with hold | rfl
    · exact (h.kept.2 c hold row hrow).trans hgrow
    · rw [Call.row_update hrow]
      exact hnew

theorem Inv.encodes (h : Inv s) (w : Writer) : Inv (s.setSave w (.saving s.doc s.maxPersistedRow)) where
  opened := h.opened
  calls := h.calls
  rows := h.rows
  saves v save hsave := by
    rcases inFlight_setSave hsave with hold | hnew
    · exact h.saves v save hold
    · obtain ⟨hdoc, -⟩ := Save.saving.inj hnew
      rw [← hdoc]
      exact ⟨h.opened, fun row hrow _ => h.rows row hrow⟩
  kept := h.kept

theorem Inv.saveLands (h : Inv s) {w : Writer} {snapshot : Update} {upTo : ℕ}
    (hsaving : (snapshot, upTo) ∈ s.inFlight w) (hok : CoversGone s snapshot) :
    Inv ({ s with db := s.db.saveSnapshot snapshot upTo }.setSave w .saved) := by
  obtain ⟨hopened, hcovers⟩ := h.saves w _ hsaving
  have hin : snapshot ≤ (s.db.saveSnapshot snapshot upTo).load := Db.snapshot_le_load_saveSnapshot _ _ _
  constructor
  · exact h.opened
  · exact h.calls
  · intro row hrow
    exact h.rows row (Db.row_mem_saveSnapshot.mp hrow).1
  · intro v save hsave
    rcases inFlight_setSave hsave with hold | hnew
    · obtain ⟨hop, hcov⟩ := h.saves v save hold
      exact ⟨hop, fun row hrow => hcov row (Db.row_mem_saveSnapshot.mp hrow).1⟩
    · simp at hnew
  · refine ⟨hopened.trans hin, ?_⟩
    intro c hc row hrow
    -- a row below the watermark is in the snapshot, one above it stays, and one that was gone is covered
    by_cases hlog : row ∈ s.db.rows
    · rcases Nat.lt_or_ge upTo row.1 with habove | hbelow
      · exact Db.row_le_load (Db.row_mem_saveSnapshot.mpr ⟨hlog, habove⟩)
      · exact (hcovers row hlog hbelow).trans hin
    · exact (hok c hc row hrow hlog).trans hin

/-- a call that moves on without writing a row -/
theorem Inv.setStage (h : Inv s) {i : ℕ} {c : Call} (hcall : s.calls[i]? = some c) (c' : Call)
    (hupdate : c'.update = c.update) (hrow : ∀ row ∈ c'.row, row ∈ c.row) (maxRow : ℕ) :
    Inv { s with calls := s.calls.set i c', maxPersistedRow := maxRow } := by
  refine h.frame rfl rfl rfl rfl ?_ fun w save hsave => hsave
  intro d hd
  rcases mem_or_eq_of_mem_set hd with hold | rfl
  · exact ⟨d, hold, rfl, fun row hr => hr⟩
  · exact ⟨c, mem_of_getElem? hcall, hupdate, hrow⟩

/-- a write that starts waiting, is answered or fails -/
theorem Inv.setSave (h : Inv s) (w : Writer) {save : Save} (hsave : ∀ u n, save ≠ .saving u n) :
    Inv (s.setSave w save) := by
  refine h.frame rfl rfl rfl rfl (fun c hc => ⟨c, hc, rfl, fun row hr => hr⟩) ?_
  intro v p hp
  rcases inFlight_setSave hp with hold | hnew
  · exact hold
  · exact absurd hnew (hsave _ _)

/-- **Step.** -/
theorem Inv.step (h : Inv s) (a : Action) (hok : StoreOk s a) : Inv (step s a) := by
  cases a with
  | edit update => exact h.edit update
  | appendLands i =>
    simp only [LocalStore.step]
    split
    next update hcall => exact h.appendLands hcall (hok _ (by simp [hcall]))
    next => exact h
  | appendAnswers i =>
    simp only [LocalStore.step]
    split
    next update id hcall => exact h.setStage hcall ⟨update, .answered id⟩ rfl (fun row hr => hr) _
    next => exact h
  | appendFails i =>
    simp only [LocalStore.step]
    split
    next update hcall => exact h.setStage hcall ⟨update, .failed⟩ rfl (by simp [Call.row]) _
    next => exact h
  | begins w | saveAnswers w | saveFails w =>
    simp only [LocalStore.step]
    split
    · exact h.setSave w (by simp)
    · exact h
  | encodes w =>
    simp only [LocalStore.step]
    split
    · split
      · exact h.encodes w
      · exact h
    · exact h
  | saveLands w =>
    simp only [LocalStore.step]
    split
    next snapshot upTo hsaving =>
      have hin : (snapshot, upTo) ∈ s.inFlight w := by simp [inFlight_eq_some hsaving]
      exact h.saveLands hin (hok _ hin)
    next => exact h
  | others maxId => exact h.frame rfl rfl rfl rfl (fun c hc => ⟨c, hc, rfl, fun row hr => hr⟩) fun w save hsave => hsave

/-- **No appended update is lost to a crash**, in every run whose appends commit above the snapshots in flight that lack
them and whose snapshots cover what is gone from the log: in every state reached a reload yields every update whose append
has taken effect. -/
theorem appended_updates_survive_crash (db : Db) (as : List Action) (h : Machine.Guarded step StoreOk (hydrate db) as) :
    Kept (run (hydrate db) as) :=
  (Machine.run_inv (fun _ a hinv hok => hinv.step a hok) (Inv.init db) h).kept

/-! ## Runs -/

/-- one struct of client 1 -/
def edited (clock : ℕ) : Update := ⟨{⟨1, clock⟩}, ∅⟩

def emptyDb : Db := { snapshot := none, rows := [], others := 0 }

/-- the `i`-th append is issued, takes effect and is answered -/
def appended (i : ℕ) : List Action := [.edit (edited i), .appendLands i, .appendAnswers i]

def saveStarts (w : Writer) : List Action := [.begins w, .encodes w]

/-- a compaction and a recovery snapshot, the older one first -/
def orderedRun : List Action :=
  appended 0 ++ saveStarts .compaction ++ appended 1 ++ saveStarts .recovery ++ [.saveLands .compaction, .saveLands .recovery]

theorem ordered_run_keeps_both : Kept (run (hydrate emptyDb) orderedRun) :=
  appended_updates_survive_crash emptyDb orderedRun (by decide)

/-- the recovery snapshot takes effect first: it deletes both rows, and the compaction's older snapshot replaces it -/
def overtakenRun : List Action :=
  appended 0 ++ saveStarts .compaction ++ appended 1 ++ saveStarts .recovery ++ [.saveLands .recovery, .saveLands .compaction]

/-- three rows are compacted, the ids start again at 1, and the bridge still holds watermark 3 -/
def reusedIdRun : List Action :=
  appended 0 ++ appended 1 ++ appended 2 ++ saveStarts .compaction ++ [.saveLands .compaction, .saveAnswers .compaction] ++
    appended 3 ++ saveStarts .compaction ++ appended 4 ++ [.saveLands .compaction]

/-- **Two ways to lose an appended update**: an older snapshot stored over a newer one that deleted the rows, and a row
whose reused id lies below the watermark of a snapshot that lacks it. -/
theorem appended_update_is_lost :
    ¬ Kept (run (hydrate emptyDb) overtakenRun) ∧ ¬ Kept (run (hydrate emptyDb) reusedIdRun) := by decide

end Baalda.LocalStore
