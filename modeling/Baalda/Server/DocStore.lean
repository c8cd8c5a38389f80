/-
The server's store of one document (`yjs/persistence.ts`) as a machine: the rows of `doc_updates`, `doc_snapshots` and
`doc_state_vectors`, and every statement of `appendUpdate`, `compact`, `loadDocState` / `loadDocDiff` and
`resetDocCrdt`, interleaved arbitrarily.

Postgres, as the code relies on it:
- `doc_updates.id` is a BIGSERIAL: an INSERT takes the next number when it starts, its row becomes visible when it
  commits, so rows can become visible out of id order. Inserts for other documents take numbers too (`otherInsert`).
- A compaction is one READ COMMITTED transaction under the document's exclusive advisory lock: each of its statements
  sees everything committed when that statement starts, and its writes become visible at its COMMIT.
- A reader (`withDocLock … "shared"`) is a REPEATABLE READ transaction whose snapshot is taken when its lock statement
  STARTS, before it may block on a compaction. Its only write, the cached vector, is refused when the row it would
  replace is not the one of its snapshot (serialization failure, absorbed by the savepoint); an INSERT that meets no
  row succeeds.
- `resetDocCrdt` runs on the pool: autocommitted statements, no lock. Its DELETE removes the rows visible when it
  starts (`resetBegin`), at a later moment (`resetDelete`).
A statement that must write a row which an open compaction has written waits: it is not enabled until the commit.

Actors, all through `step`:
- appends: `appendStart` (INSERT starts), `appendCommit`, `appendAbort`;
- compactions: `compactLock` … `compactCommit`, with `compactRollback` at any point. `compactConverting` (a keyed
  document that still holds plaintext) is the same sequence with a row kept in place or one dual row inserted;
- readers: `readerBegin`, `readerLock`, `readerFinish` (with or without the cache write);
- resets: `resetBegin`, `resetDelete`, `resetUpsert`, `resetRemember`.
Sealing does not change what a row decodes to, so a row carries its decoded update; `keyed` says whether the document
belongs to a keyed vault, where `resetDocCrdt` refuses and where alone a compaction converts.

`committed`, `history` and the `old` of a reset are ghosts: no statement reads them.
-/
import Baalda.Lib.Machine
import Baalda.Lib.Crdt

namespace Baalda.DocStore

open Crdt Crdt.Update List

/-! ## Tables -/

/-- a `doc_updates` row -/
structure UpdateRow where
  id : ℕ
  update : Update
deriving DecidableEq

/-- a `doc_snapshots` row; `state_vector` and `seq` are nullable -/
structure SnapshotRow where
  snapshot : Update
  stateVector : Option StateVector
  seq : Option ℕ
deriving DecidableEq

/-- a `doc_state_vectors` row: the cached vector and the log position it accounts for (NULL: the log was empty) -/
structure VectorRow where
  stateVector : StateVector
  uptoUpdateId : Option ℕ
deriving DecidableEq

/-- the committed rows of the document -/
structure Db where
  snapshot : Option SnapshotRow
  log : List UpdateRow
  vector : Option VectorRow
deriving DecidableEq

/-- what a snapshot row contributes to the merge -/
def content : Option SnapshotRow → Update
  | none => ⊥
  | some r => r.snapshot

@[simp] theorem content_none : content none = ⊥ := rfl

@[simp] theorem content_some (r : SnapshotRow) : content (some r) = r.snapshot := rfl

def updates (rows : List UpdateRow) : List Update := rows.map UpdateRow.update

/-- `mergeParts`: snapshot and log merged into one update -/
def mergeParts (snap : Option SnapshotRow) (rows : List UpdateRow) : Update := content snap ⊔ mergeAll (updates rows)

/-- the stored document -/
def Db.stored (d : Db) : Update := mergeParts d.snapshot d.log

/-- the last id of `ORDER BY id ASC`, 0 for no row -/
def maxId (rows : List UpdateRow) : ℕ := (rows.map UpdateRow.id).foldr max 0

/-- `SELECT max(id)`: NULL for no row -/
def maxUpdateId : List UpdateRow → Option ℕ
  | [] => none
  | r :: rows => some (maxId (r :: rows))

/-- the cached vector, only when its watermark is the log's max id -/
def currentStateVector (d : Db) : Option StateVector :=
  match d.vector with
  | none => none
  | some v => if v.uptoUpdateId = maxUpdateId d.log then some v.stateVector else none

variable {rows : List UpdateRow}

theorem update_le_mergeParts {snap : Option SnapshotRow} {r : UpdateRow} (h : r ∈ rows) :
    r.update ≤ mergeParts snap rows :=
  (le_mergeAll (mem_map_of_mem h)).trans le_sup_right

theorem content_le_mergeParts (snap : Option SnapshotRow) (rows : List UpdateRow) :
    content snap ≤ mergeParts snap rows := le_sup_left

theorem mergeParts_le {snap : Option SnapshotRow} {u : Update} (hs : content snap ≤ u) (hr : ∀ r ∈ rows, r.update ≤ u) :
    mergeParts snap rows ≤ u :=
  sup_le hs (mergeAll_le fun w hw => by obtain ⟨r, hrm, rfl⟩ := mem_map.1 hw; exact hr r hrm)

theorem mergeParts_append (snap : Option SnapshotRow) (rows more : List UpdateRow) :
    mergeParts snap (rows ++ more) = mergeParts snap rows ⊔ mergeAll (updates more) := by
  simp [mergeParts, updates, mergeAll_append, sup_assoc]

theorem maxId_append_singleton (rows : List UpdateRow) (r : UpdateRow) : maxId (rows ++ [r]) = max (maxId rows) r.id := by
  induction rows with
  | nil => simp [maxId]
  | cons s rows ih =>
    simp only [maxId, map_cons, foldr_cons, cons_append] at ih ⊢
    rw [ih, max_assoc]

theorem maxUpdateId_eq_some (h : rows ≠ []) : maxUpdateId rows = some (maxId rows) := by
  cases rows with
  | nil => exact absurd rfl h
  | cons r rows => rfl

/-! ## Transactions in progress -/

/-- a compaction's transaction, by the last statement it has run -/
inductive Compaction where
  | locked
  | snapshotRead (snap : Option SnapshotRow)
  | logRead (snap : Option SnapshotRow) (rows : List UpdateRow)
  /-- upserted (not visible yet): the new row, its high-water mark, the row `compactConverting` keeps (0: none), the
  dual content it still has to insert, and the dual row it has inserted -/
  | upserted (row : SnapshotRow) (upto keep : ℕ) (pending : Option Update) (legacy : Option UpdateRow)
  | deleted (row : SnapshotRow) (legacy : Option UpdateRow) (dels : List UpdateRow)
  /-- `invalidate`: whether it deleted a cached vector -/
  | invalidated (row : SnapshotRow) (legacy : Option UpdateRow) (dels : List UpdateRow) (invalidate : Bool)
deriving DecidableEq

/-- a reader's transaction: its REPEATABLE READ snapshot, and whether it holds the shared lock yet -/
structure Reader where
  db : Db
  locked : Bool
deriving DecidableEq

/-- how far a `resetDocCrdt` is: its DELETE has started, has committed, the snapshot is replaced, it has returned -/
inductive ResetStage where
  | deleting
  | deleted
  | upserted
  | returned
deriving DecidableEq

structure Reset where
  seed : Update
  stage : ResetStage
  /-- the rows its DELETE removes -/
  dels : List UpdateRow
  /-- ghost: every struct of the history the reset discards -/
  old : Finset Id
deriving DecidableEq

structure St where
  keyed : Bool
  db : Db
  nextId : ℕ
  /-- appends whose INSERT has started and whose row is not visible yet -/
  inflight : List UpdateRow
  compaction : Option Compaction
  readers : List Reader
  resets : List Reset
  /-- ghost: every update whose append has committed -/
  committed : List Update
  /-- ghost: every struct an append has ever carried -/
  history : Finset Id
deriving DecidableEq

def init (keyed : Bool) : St := ⟨keyed, ⟨none, [], none⟩, 1, [], none, [], [], [], ∅⟩

inductive Action where
  | otherInsert
  | appendStart (u : Update)
  | appendCommit (id : ℕ)
  | appendAbort (id : ℕ)
  | compactLock
  | compactReadSnapshot
  | compactReadLog
  | compactUpsert (keep : ℕ) (legacy : Option Update)
  | compactInsertLegacy
  | compactDelete
  | compactInvalidate (ok : Bool)
  | compactCommit
  | compactRollback
  | readerBegin
  | readerLock (i : ℕ)
  | readerFinish (i : ℕ) (cache : Bool)
  | resetBegin (seed : Update)
  | resetDelete (i : ℕ)
  | resetUpsert (i : ℕ)
  | resetRemember (i : ℕ) (ok : Bool)
deriving DecidableEq

def startsReset : Action → Bool
  | .resetBegin _ => true
  | _ => false

/-! ## Statements -/

/-- the row a compaction of `rows` over `snap` writes -/
def compactedRow (snap : Option SnapshotRow) (rows : List UpdateRow) : SnapshotRow :=
  ⟨mergeParts snap rows, some (stateVector (mergeParts snap rows)), some (maxId rows)⟩

/-- the guard on the upsert: a snapshot is replaced only by one with a higher `seq` -/
def seqAllows (stored : Option SnapshotRow) (seq : ℕ) : Prop := ∀ n ∈ stored.bind SnapshotRow.seq, n < seq

instance (stored : Option SnapshotRow) (seq : ℕ) : Decidable (seqAllows stored seq) :=
  inferInstanceAs (Decidable (∀ n ∈ stored.bind SnapshotRow.seq, n < seq))

/-- only a keyed document is converted, and its dual content is part of what was merged -/
def ConversionOk (keyed : Bool) (merged : Update) (keep : ℕ) (legacy : Option Update) : Prop :=
  (keyed = false → keep = 0 ∧ legacy = none) ∧ ∀ u ∈ legacy, u ≤ merged

instance (keyed : Bool) (merged : Update) (keep : ℕ) (legacy : Option Update) :
    Decidable (ConversionOk keyed merged keep legacy) := by
  unfold ConversionOk; infer_instance

/-- what the commit of a compaction makes visible -/
def commitDb (d : Db) (row : SnapshotRow) (legacy : Option UpdateRow) (dels : List UpdateRow) (invalidate : Bool) :
    Db where
  snapshot := some row
  log := d.log.filter (fun r => r ∉ dels) ++ legacy.toList
  vector := if invalidate then none else d.vector

/-- the row a reader caches: the vector of its snapshot's merge and the last id it read -/
def readerRow (r : Reader) : VectorRow := ⟨stateVector r.db.stored, maxUpdateId r.db.log⟩

/-- the reader read a stored document, and the row it replaces is the one of its snapshot -/
def cacheWritable (d : Db) (r : Reader) : Prop :=
  (r.db.snapshot ≠ none ∨ r.db.log ≠ []) ∧ (d.vector = none ∨ d.vector = r.db.vector)

instance (d : Db) (r : Reader) : Decidable (cacheWritable d r) := by unfold cacheWritable; infer_instance

/-- a compaction has upserted and not committed: it holds the lock on the snapshot row -/
def holdsSnapshotRow : Option Compaction → Bool
  | some (.upserted ..) | some (.deleted ..) | some (.invalidated ..) => true
  | _ => false

/-- a compaction has deleted log rows and not committed: it holds the locks on those rows -/
def holdsLogRows : Option Compaction → Bool
  | some (.deleted _ _ dels) | some (.invalidated _ _ dels _) => dels ≠ []
  | _ => false

/-- a compaction has deleted the cached vector and not committed: it holds the lock on that row -/
def holdsVectorRow : Option Compaction → Bool
  | some (.invalidated _ _ _ inval) => inval
  | _ => false

def step (s : St) : Action → St
  | .otherInsert => { s with nextId := s.nextId + 1 }
  | .appendStart u =>
    { s with nextId := s.nextId + 1, inflight := ⟨s.nextId, u⟩ :: s.inflight, history := s.history ∪ u.structs }
  | .appendCommit id =>
    match s.inflight.find? (fun r => r.id = id) with
    | none => s
    | some r =>
      { s with
        db := { s.db with log := s.db.log ++ [r] }
        inflight := s.inflight.filter fun x => x.id ≠ id
        committed := r.update :: s.committed }
  | .appendAbort id => { s with inflight := s.inflight.filter fun x => x.id ≠ id }
  | .compactLock =>
    if s.compaction = none ∧ ∀ r ∈ s.readers, r.locked = false then { s with compaction := some .locked } else s
  | .compactReadSnapshot =>
    match s.compaction with
    | some .locked => { s with compaction := some (.snapshotRead s.db.snapshot) }
    | _ => s
  | .compactReadLog =>
    match s.compaction with
    | some (.snapshotRead snap) =>
      -- an empty log: the transaction ends with nothing written
      { s with compaction := if s.db.log = [] then none else some (.logRead snap s.db.log) }
    | _ => s
  | .compactUpsert keep legacy =>
    match s.compaction with
    | some (.logRead snap rows) =>
      if ConversionOk s.keyed (mergeParts snap rows) keep legacy then
        -- refused by the `seq` guard: the transaction ends with nothing written
        { s with compaction := if seqAllows s.db.snapshot (maxId rows)
            then some (.upserted (compactedRow snap rows) (maxId rows) keep legacy none) else none }
      else s
    | _ => s
  | .compactInsertLegacy =>
    match s.compaction with
    | some (.upserted row upto keep (some u) _) =>
      { s with nextId := s.nextId + 1, compaction := some (.upserted row upto keep none (some ⟨s.nextId, u⟩)) }
    | _ => s
  | .compactDelete =>
    match s.compaction with
    | some (.upserted row upto keep none legacy) =>
      { s with compaction := some (.deleted row legacy (s.db.log.filter fun r => r.id ≤ upto ∧ r.id ≠ keep)) }
    | _ => s
  | .compactInvalidate ok =>
    match s.compaction with
    | some (.deleted row legacy dels) =>
      { s with compaction := some (.invalidated row legacy dels (ok && s.db.vector.isSome)) }
    | _ => s
  | .compactCommit =>
    match s.compaction with
    | some (.invalidated row legacy dels inval) =>
      { s with db := commitDb s.db row legacy dels inval, compaction := none }
    | _ => s
  | .compactRollback => { s with compaction := none }
  | .readerBegin => { s with readers := s.readers ++ [⟨s.db, false⟩] }
  | .readerLock i =>
    match s.readers[i]? with
    | some r => if s.compaction = none then { s with readers := s.readers.set i { r with locked := true } } else s
    | none => s
  | .readerFinish i cache =>
    match s.readers[i]? with
    | some r =>
      if r.locked then
        { s with
          db := if cache ∧ cacheWritable s.db r then { s.db with vector := some (readerRow r) } else s.db
          readers := s.readers.eraseIdx i }
      else s
    | none => s
  | .resetBegin seed =>
    if s.keyed then s else { s with resets := s.resets ++ [⟨seed, .deleting, s.db.log, s.history⟩] }
  | .resetDelete i =>
    match s.resets[i]? with
    | some r =>
      if r.stage = .deleting ∧ holdsLogRows s.compaction = false then
        { s with
          db := { s.db with log := s.db.log.filter (fun x => x ∉ r.dels) }
          resets := s.resets.set i { r with stage := .deleted } }
      else s
    | none => s
  | .resetUpsert i =>
    match s.resets[i]? with
    | some r =>
      if r.stage = .deleted ∧ holdsSnapshotRow s.compaction = false then
        { s with
          db := { s.db with snapshot := some ⟨r.seed, some (stateVector r.seed), some 0⟩ }
          resets := s.resets.set i { r with stage := .upserted }
          history := s.history ∪ r.seed.structs }
      else s
    | none => s
  | .resetRemember i ok =>
    match s.resets[i]? with
    | some r =>
      if r.stage = .upserted ∧ holdsVectorRow s.compaction = false then
        { s with
          db := if ok then { s.db with vector := some ⟨stateVector r.seed, none⟩ } else s.db
          resets := s.resets.set i { r with stage := .returned } }
      else s
    | none => s

def run (s : St) (as : List Action) : St := Machine.run step s as

/-! ## What a step can do -/

/-- the enabled steps, one constructor for each branch of `step` that changes the state -/
inductive Fires (s : St) : Action → St → Prop where
  | otherInsert : Fires s .otherInsert { s with nextId := s.nextId + 1 }
  | appendStart (u : Update) : Fires s (.appendStart u)
      { s with nextId := s.nextId + 1, inflight := ⟨s.nextId, u⟩ :: s.inflight, history := s.history ∪ u.structs }
  | appendCommit {r : UpdateRow} (hr : r ∈ s.inflight) : Fires s (.appendCommit r.id)
      { s with
        db := { s.db with log := s.db.log ++ [r] }
        inflight := s.inflight.filter fun x => x.id ≠ r.id
        committed := r.update :: s.committed }
  | appendAbort (id : ℕ) : Fires s (.appendAbort id) { s with inflight := s.inflight.filter fun x => x.id ≠ id }
  | compactLock (hr : ∀ r ∈ s.readers, r.locked = false) : Fires s .compactLock { s with compaction := some .locked }
  | compactReadSnapshot (hc : s.compaction = some .locked) :
      Fires s .compactReadSnapshot { s with compaction := some (.snapshotRead s.db.snapshot) }
  | compactReadLog {snap : Option SnapshotRow} (hc : s.compaction = some (.snapshotRead snap)) :
      Fires s .compactReadLog { s with compaction := some (.logRead snap s.db.log) }
  /-- the transaction ends with nothing written: an empty log, a refused upsert or a rollback -/
  | compactEnd (a : Action) : Fires s a { s with compaction := none }
  | compactUpsert {snap : Option SnapshotRow} {rows : List UpdateRow} {keep : ℕ} {legacy : Option Update}
      (hc : s.compaction = some (.logRead snap rows)) (hok : ConversionOk s.keyed (mergeParts snap rows) keep legacy) :
      Fires s (.compactUpsert keep legacy)
        { s with compaction := some (.upserted (compactedRow snap rows) (maxId rows) keep legacy none) }
  | compactInsertLegacy {row : SnapshotRow} {upto keep : ℕ} {u : Update} {legacy : Option UpdateRow}
      (hc : s.compaction = some (.upserted row upto keep (some u) legacy)) :
      Fires s .compactInsertLegacy
        { s with nextId := s.nextId + 1, compaction := some (.upserted row upto keep none (some ⟨s.nextId, u⟩)) }
  | compactDelete {row : SnapshotRow} {upto keep : ℕ} {legacy : Option UpdateRow}
      (hc : s.compaction = some (.upserted row upto keep none legacy)) :
      Fires s .compactDelete
        { s with compaction := some (.deleted row legacy (s.db.log.filter fun r => r.id ≤ upto ∧ r.id ≠ keep)) }
  | compactInvalidate {row : SnapshotRow} {legacy : Option UpdateRow} {dels : List UpdateRow} (ok : Bool)
      (hc : s.compaction = some (.deleted row legacy dels)) :
      Fires s (.compactInvalidate ok)
        { s with compaction := some (.invalidated row legacy dels (ok && s.db.vector.isSome)) }
  | compactCommit {row : SnapshotRow} {legacy : Option UpdateRow} {dels : List UpdateRow} {inval : Bool}
      (hc : s.compaction = some (.invalidated row legacy dels inval)) :
      Fires s .compactCommit { s with db := commitDb s.db row legacy dels inval, compaction := none }
  | readerBegin : Fires s .readerBegin { s with readers := s.readers ++ [⟨s.db, false⟩] }
  | readerLock {i : ℕ} {r : Reader} (hr : s.readers[i]? = some r) :
      Fires s (.readerLock i) { s with readers := s.readers.set i { r with locked := true } }
  | readerCache {i : ℕ} {r : Reader} (hr : s.readers[i]? = some r) (hw : cacheWritable s.db r) :
      Fires s (.readerFinish i true)
        { s with db := { s.db with vector := some (readerRow r) }, readers := s.readers.eraseIdx i }
  | readerFinish {i : ℕ} {r : Reader} (cache : Bool) (hr : s.readers[i]? = some r) :
      Fires s (.readerFinish i cache) { s with readers := s.readers.eraseIdx i }
  | resetBegin (seed : Update) (hk : s.keyed = false) : Fires s (.resetBegin seed)
      { s with resets := s.resets ++ [⟨seed, .deleting, s.db.log, s.history⟩] }
  | resetDelete {i : ℕ} {r : Reset} (hr : s.resets[i]? = some r) (hs : r.stage = .deleting) :
      Fires s (.resetDelete i)
        { s with
          db := { s.db with log := s.db.log.filter (fun x => x ∉ r.dels) }
          resets := s.resets.set i { r with stage := .deleted } }
  | resetUpsert {i : ℕ} {r : Reset} (hr : s.resets[i]? = some r) (hs : r.stage = .deleted)
      (hc : holdsSnapshotRow s.compaction = false) : Fires s (.resetUpsert i)
        { s with
          db := { s.db with snapshot := some ⟨r.seed, some (stateVector r.seed), some 0⟩ }
          resets := s.resets.set i { r with stage := .upserted }
          history := s.history ∪ r.seed.structs }
  | resetRemember {i : ℕ} {r : Reset} (ok : Bool) (hr : s.resets[i]? = some r) (hs : r.stage = .upserted) :
      Fires s (.resetRemember i ok)
        { s with
          db := if ok then { s.db with vector := some ⟨stateVector r.seed, none⟩ } else s.db
          resets := s.resets.set i { r with stage := .returned } }

/-- **A step fires or stays.** The one place where `step` is unfolded. -/
theorem step_fires (s : St) (a : Action) : step s a = s ∨ Fires s a (step s a) := by
  cases a with
  | otherInsert => exact .inr .otherInsert
  | appendStart u => exact .inr (.appendStart u)
  | appendCommit id =>
    simp only [step]
    split
    · exact .inl rfl
    · rename_i r hr
      have hid : r.id = id := by simpa using find?_some hr
      subst hid
      exact .inr (.appendCommit (mem_of_find?_eq_some hr))
  | appendAbort id => exact .inr (.appendAbort id)
  | compactLock =>
    simp only [step]
    split_ifs with h
    · exact .inr (.compactLock h.2)
    · exact .inl rfl
  | compactReadSnapshot =>
    simp only [step]
    split
    · rename_i hc; exact .inr (.compactReadSnapshot hc)
    · exact .inl rfl
  | compactReadLog =>
    simp only [step]
    split
    · rename_i snap hc
      split_ifs
      · exact .inr (.compactEnd _)
      · exact .inr (.compactReadLog hc)
    · exact .inl rfl
  | compactUpsert keep legacy =>
    simp only [step]
    split
    · rename_i snap rows hc
      split_ifs with hok hseq
      · exact .inr (.compactUpsert hc hok)
      · exact .inr (.compactEnd _)
      · exact .inl rfl
    · exact .inl rfl
  | compactInsertLegacy =>
    simp only [step]
    split
    · rename_i row upto keep u legacy hc; exact .inr (.compactInsertLegacy hc)
    · exact .inl rfl
  | compactDelete =>
    simp only [step]
    split
    · rename_i row upto keep legacy hc; exact .inr (.compactDelete hc)
    · exact .inl rfl
  | compactInvalidate ok =>
    simp only [step]
    split
    · rename_i row legacy dels hc; exact .inr (.compactInvalidate ok hc)
    · exact .inl rfl
  | compactCommit =>
    simp only [step]
    split
    · rename_i row legacy dels inval hc; exact .inr (.compactCommit hc)
    · exact .inl rfl
  | compactRollback => exact .inr (.compactEnd _)
  | readerBegin => exact .inr .readerBegin
  | readerLock i =>
    simp only [step]
    split
    · rename_i r hr
      split_ifs
      · exact .inr (.readerLock hr)
      · exact .inl rfl
    · exact .inl rfl
  | readerFinish i cache =>
    simp only [step]
    split
    · rename_i r hr
      split_ifs with hl hw
      · obtain ⟨rfl, hw⟩ := hw
        exact .inr (.readerCache hr hw)
      · exact .inr (.readerFinish cache hr)
      · exact .inl rfl
    · exact .inl rfl
  | resetBegin seed =>
    simp only [step]
    split_ifs with hk
    · exact .inl rfl
    · exact .inr (.resetBegin seed (by simpa using hk))
  | resetDelete i =>
    simp only [step]
    split
    · rename_i r hr
      split_ifs with h
      · exact .inr (.resetDelete hr h.1)
      · exact .inl rfl
    · exact .inl rfl
  | resetUpsert i =>
    simp only [step]
    split
    · rename_i r hr
      split_ifs with h
      · exact .inr (.resetUpsert hr h.1 h.2)
      · exact .inl rfl
    · exact .inl rfl
  | resetRemember i ok =>
    simp only [step]
    split
    · rename_i r hr
      by_cases h : r.stage = .upserted ∧ holdsVectorRow s.compaction = false
      · rw [if_pos h]
        exact .inr (.resetRemember ok hr h.1)
      · rw [if_neg h]
        exact .inl rfl
    · exact .inl rfl

/-- what every firing step preserves, every step preserves -/
theorem step_preserves (P : St → Prop) {s : St} {a : Action} (hs : P s) (h : ∀ t, Fires s a t → P t) :
    P (step s a) := by
  rcases step_fires s a with he | hf
  · rwa [he]
  · exact h _ hf

end Baalda.DocStore
