/-
The life of a note's row: deletes, `restoreNote` and `purgeExpiredTrash` (`trash/service.ts`, `trash/retention.ts`,
`trash/access.ts`), and the note rows of `revertVaultToCheckpoint` (`versions/revert.ts`).

Statements outside a transaction commit one by one: the purge stamps, then deletes table after table. A restore locks
its note's row and checks it again before it writes it, so it takes effect as one step. A revert is one transaction:
each of its notes is read and then written by id alone; a row it has written is locked until it ends, and others' writes
of it wait. Times are any numbers, one for each statement. What permissions refuse does not happen.

`trash_whole_iff`: live notes are whole in every state of a run exactly if no revert undeletes a note that is stamped.
-/
import Baalda.Lib.Machine
import Baalda.Lib.Slots
import Baalda.Server.VaultRevert

namespace Baalda.Trash

open VaultTree List
open VaultRevert (CheckpointNote revertDeleteCap)

variable {Id User K : Type*}

/-! ## Rows -/

structure NoteRow (Id User : Type*) where
  id : Id
  vaultId : Id
  folderId : Option Id
  title : Option Path
  relPath : Path
  deletedAt : Option ℕ := none
  deletedBy : Option User := none
  purgeAfter : Option ℕ := none
  purgedAt : Option ℕ := none
  deriving DecidableEq

/-- what belongs to a document, or is derived from it -/
inductive Table where
  | docUpdates
  | docSnapshots
  | docStateVectors
  | noteVersions
  | shares
  | noteIndex
  | noteLinks
  | blobRefs
  deriving DecidableEq

def indexTables : List Table := [.noteIndex, .noteLinks, .blobRefs]

/-- the statements of a purge after its stamp -/
def purgeTables : List Table :=
  indexTables ++ [.docUpdates, .docSnapshots, .docStateVectors, .noteVersions, .shares]

namespace NoteRow

variable (n : NoteRow Id User)

def isLive : Bool := n.deletedAt.isNone

/-- `softDeleteSet` -/
def softDelete (retention now : ℕ) (userId : Option User) : NoteRow Id User :=
  { n with
    deletedAt := some now
    deletedBy := userId
    purgeAfter := some (now + retention) }

/-- the rows `listTrash` lists -/
def isListed (now : ℕ) : Bool := n.deletedAt.isSome && n.purgedAt.isNone && n.purgeAfter.all (now < ·)

def isInTrashWindow (now : ℕ) : Bool := n.deletedAt.isSome && n.purgeAfter.any (now < ·)

/-- the rows a purge stamps -/
def isDue (now : ℕ) : Bool := n.deletedAt.isSome && n.purgedAt.isNone && n.purgeAfter.any (· ≤ now)

end NoteRow

/-! ## Restoring -/

inductive TrashError where
  | notInTrash
  | purged
  | pathTaken
  deriving DecidableEq

def checkInTrash (n : NoteRow Id User) : Except TrashError Unit :=
  if n.isLive then .error .notInTrash
  else if n.purgedAt.isSome then .error .purged
  else .ok ()

/-- where the extension begins, but for a dot in front -/
def splitExtension (name : Path) : Path × Path :=
  let ext := name.rtakeWhile (· ≠ '.')
  let stem := (name.rdropWhile (· ≠ '.')).dropLast
  if stem = [] then (name, []) else (stem, '.' :: ext)

/-- `day` is the date's ISO form -/
def restoredPath (relPath day : Path) (counter : ℕ) : Path :=
  let (stem, ext) := splitExtension (basename relPath)
  let count := if counter ≤ 1 then [] else ' ' :: (toString counter).toList
  joinPath (dirname relPath) (stem ++ " (restored ".toList ++ day ++ count ++ [')'] ++ ext)

/-- the first path that is free -/
def restorePath (taken : Path → Bool) (relPath day : Path) : Option Path :=
  (relPath :: (List.range 1000).map fun n => restoredPath relPath day (n + 1)).find? fun path => !taken path

/-! ## The machine -/

inductive Stage where
  | running
  | committed
  | rolledBack
  deriving DecidableEq

/-- what the notes created since are deleted with -/
structure Deletion (Id User : Type*) where
  docIds : List Id
  now : ℕ
  userId : Option User
  deriving DecidableEq

/-- a revert: `folderId`s of its notes are those of the folders as they are now -/
structure Revert (Id User : Type*) where
  vaultId : Id
  notes : List (CheckpointNote Id)
  todo : List (CheckpointNote Id)
  /-- what it has read of the next note: the row, if there is one -/
  selected : Option (Option (NoteRow Id User)) := none
  updated : List (CheckpointNote Id) := []
  inserted : List (CheckpointNote Id) := []
  deletion : Option (Deletion Id User) := none
  /-- the notes whose text it writes once it has committed -/
  pendingWrites : List Id := []
  stage : Stage := .running
  deriving DecidableEq

structure Purge (Id : Type*) where
  docIds : List Id
  todo : List Table := purgeTables
  deriving DecidableEq

structure St (Id User : Type*) where
  notes : List (NoteRow Id User) := []
  files : List (FileRow Id) := []
  rows : List (Table × Id) := []
  /-- what the restores under way have read -/
  restores : List (NoteRow Id User) := []
  reverts : List (Revert Id User) := []
  purges : List (Purge Id) := []
  /-- what purges deleted of notes that were live -/
  lost : List (Table × Id) := []
  deriving DecidableEq

inductive Action (Id User : Type*) where
  | createsNote (id vaultId : Id) (folderId : Option Id) (title : Option Path) (relPath : Path)
  | addsFile (file : FileRow Id)
  | removesFile (id : Id)
  /-- an append, a compaction, a version, a share or an index row -/
  | writes (table : Table) (docId : Id)
  /-- from a device: taken while the note is live or in its window -/
  | pushes (docId : Id) (now : ℕ)
  /-- `guarded`: with `AND deleted_at IS NULL` -/
  | deletes (guarded : Bool) (docIds : List Id) (now : ℕ) (userId : Option User)
  | purgesIndex (docIds : List Id)
  | restoreReads (docId : Id)
  | restoreWrites (i : ℕ) (day : Path) (folderId : Option Id)
  | revertBegins (vaultId : Id) (notes : List (CheckpointNote Id))
  | revertSelects (i : ℕ)
  /-- `differs`: the checkpoint has another text -/
  | revertNote (i : ℕ) (differs : Bool)
  | revertDeletes (i now : ℕ) (userId : Option User)
  | revertCommits (i : ℕ)
  | revertFails (i : ℕ)
  | revertWrites (i : ℕ) (docId : Id)
  | stamps (now dbNow : ℕ)
  | purgeNext (i : ℕ)
  deriving DecidableEq

section

variable [DecidableEq Id] [DecidableEq K] (key : Path → K) (retention : ℕ)

def noteIds (notes : List (NoteRow Id User)) : List Id := notes.map NoteRow.id

/-- another live note is at the path -/
def livePathTaken (notes : List (NoteRow Id User)) (vaultId docId : Id) (relPath : Path) : Bool :=
  notes.any fun n => n.vaultId = vaultId ∧ n.id ≠ docId ∧ n.isLive ∧ key n.relPath = key relPath

def pathTaken (s : St Id User) (vaultId : Id) (relPath : Path) : Bool :=
  (s.notes.any fun n => n.vaultId = vaultId ∧ n.isLive ∧ key n.relPath = key relPath) ||
    s.files.any fun f => f.vaultId = vaultId ∧ key f.path = key relPath

namespace Revert

variable (r : Revert Id User)

/-- a row as the transaction sees it -/
def applyRow (n : NoteRow Id User) : NoteRow Id User :=
  match r.updated.find? fun c => c.id = n.id with
  | some c => { n with
    deletedAt := none
    deletedBy := none
    purgeAfter := none
    relPath := c.relPath
    title := c.title
    folderId := c.folderId }
  | none => match r.deletion with
    | some d => if n.id ∈ d.docIds then n.softDelete retention d.now d.userId else n
    | none => n

def toRow (c : CheckpointNote Id) : NoteRow Id User :=
  { id := c.id
    vaultId := r.vaultId
    folderId := c.folderId
    title := c.title
    relPath := c.relPath }

def view (notes : List (NoteRow Id User)) : List (NoteRow Id User) :=
  notes.map (r.applyRow retention) ++ r.inserted.map r.toRow

def holds (docId : Id) : Bool :=
  r.stage = .running && (r.updated.any (fun c => c.id = docId) || r.deletion.any fun d => docId ∈ d.docIds)

/-- the unique indexes -/
def consistent (notes : List (NoteRow Id User)) : Bool :=
  (noteIds (r.view retention notes)).Nodup ∧ ∀ n ∈ r.view retention notes, n.isLive →
    livePathTaken key (r.view retention notes) n.vaultId n.id n.relPath = false

/-- the note is written, or skipped if it cannot be inserted; `none`: a statement fails -/
def writeNote (notes : List (NoteRow Id User)) (row : Option (NoteRow Id User)) (c : CheckpointNote Id)
    (differs : Bool) : Option (Revert Id User) :=
  let view := r.view retention notes
  let pendingWrites := if differs then c.id :: r.pendingWrites else r.pendingWrites
  match row with
  | none =>
    -- `ON CONFLICT (id) DO NOTHING`, under a savepoint
    if c.id ∈ noteIds view then some { r with pendingWrites := pendingWrites }
    else if livePathTaken key view r.vaultId c.id c.relPath then some r
    else some { r with
      inserted := c :: r.inserted
      pendingWrites := pendingWrites }
  | some n =>
    if n.relPath ≠ c.relPath ∨ n.title ≠ c.title ∨ n.folderId ≠ c.folderId ∨ n.isLive = false then
      if livePathTaken key view r.vaultId c.id c.relPath then none
      else some { r with
        updated := c :: r.updated
        pendingWrites := pendingWrites }
    else some { r with pendingWrites := pendingWrites }

/-- the live notes of the vault that the checkpoint does not have -/
def doomed (notes : List (NoteRow Id User)) : List Id :=
  noteIds ((r.view retention notes).filter fun n =>
    n.vaultId = r.vaultId ∧ n.isLive ∧ n.id ∉ r.notes.map CheckpointNote.id)

end Revert

namespace St

variable (s : St Id User)

/-- a revert other than the `i`-th has written the row -/
def isLocked (i : Option ℕ) (docId : Id) : Bool :=
  (List.range s.reverts.length).any fun j => some j ≠ i && (s.reverts[j]?).any fun r => r.holds docId

def setRevert (i : ℕ) (r : Revert Id User) : St Id User := { s with reverts := s.reverts.set i r }

def isLiveNote (docId : Id) : Bool := s.notes.any fun n => n.id = docId ∧ n.isLive

def createsNote (id vaultId : Id) (folderId : Option Id) (title : Option Path) (relPath : Path) : St Id User :=
  if id ∈ noteIds s.notes ∨ livePathTaken key s.notes vaultId id relPath then s
  else
    let row : NoteRow Id User :=
      { id := id
        vaultId := vaultId
        folderId := folderId
        title := title
        relPath := relPath }
    { s with notes := s.notes ++ [row] }

def pushes (docId : Id) (now : ℕ) : St Id User :=
  if s.notes.any fun n => n.id = docId ∧ (n.isLive ∨ n.isInTrashWindow now) then
    { s with rows := s.rows ++ [(.docUpdates, docId)] }
  else s

def deletes (guarded : Bool) (docIds : List Id) (now : ℕ) (userId : Option User) : St Id User :=
  if docIds.any (s.isLocked none) then s
  else { s with notes := s.notes.map fun n =>
    if n.id ∈ docIds ∧ (guarded → n.isLive) then n.softDelete retention now userId else n }

def purgesIndex (docIds : List Id) : St Id User :=
  { s with rows := s.rows.filter fun x => ¬ (x.1 ∈ indexTables ∧ x.2 ∈ docIds) }

def restoreReads (docId : Id) : St Id User :=
  match s.notes.find? fun n => n.id = docId with
  | some n => match checkInTrash n with
    | .ok () => { s with restores := s.restores ++ [n] }
    | .error _ => s
  | none => s

/-- under the lock of the row -/
def restoreRow (docId : Id) (relPath : Path) (folderId : Option Id) : St Id User :=
  { s with notes := s.notes.map fun n =>
    if n.id = docId then { n with
      deletedAt := none
      deletedBy := none
      purgeAfter := none
      relPath := relPath
      folderId := folderId }
    else n }

def restoreWrites (i : ℕ) (day : Path) (folderId : Option Id) : St Id User :=
  match s.restores[i]? with
  | some seen =>
    if s.isLocked none seen.id then s
    else match s.notes.find? fun n => n.id = seen.id with
      | some n => match checkInTrash n, restorePath (pathTaken key s seen.vaultId) seen.relPath day with
        | .ok (), some relPath => s.restoreRow seen.id relPath folderId
        | _, _ => s
      | none => s
  | none => s

/-- one revert of a vault at a time -/
def revertBegins (vaultId : Id) (notes : List (CheckpointNote Id)) : St Id User :=
  if s.reverts.any fun r => r.vaultId = vaultId ∧ r.stage = .running then s
  else { s with reverts := s.reverts ++ [{ vaultId := vaultId, notes := notes, todo := notes }] }

def revertSelects (i : ℕ) : St Id User :=
  match s.reverts[i]? with
  | some r => match r.stage, r.todo with
    | .running, c :: _ =>
      let row := (r.view retention s.notes).find? fun n => n.id = c.id ∧ n.vaultId = r.vaultId
      s.setRevert i { r with selected := some row }
    | _, _ => s
  | none => s

def revertNote (i : ℕ) (differs : Bool) : St Id User :=
  match s.reverts[i]? with
  | some r => match r.stage, r.todo, r.selected with
    | .running, c :: todo, some row =>
      if s.isLocked (some i) c.id then s
      else match r.writeNote key retention s.notes row c differs with
        | some r => s.setRevert i { r with
          todo := todo
          selected := none }
        | none => s.setRevert i { r with stage := .rolledBack }
    | _, _, _ => s
  | none => s

def revertDeletes (i now : ℕ) (userId : Option User) : St Id User :=
  match s.reverts[i]? with
  | some r => match r.stage, r.todo, r.deletion with
    | .running, [], none =>
      let doomed := r.doomed retention s.notes
      let live := (r.view retention s.notes).countP fun n => n.vaultId = r.vaultId ∧ n.isLive
      if revertDeleteCap live < doomed.length then s.setRevert i { r with stage := .rolledBack }
      else if doomed.any (s.isLocked (some i)) then s
      else s.setRevert i { r with deletion := some ⟨doomed, now, userId⟩ }
    | _, _, _ => s
  | none => s

/-- the `i`-th revert, if it is about to commit -/
def committing (i : ℕ) : Option (Revert Id User × Deletion Id User) :=
  s.reverts[i]?.bind fun r => match r.stage, r.todo, r.deletion with
    | .running, [], some d => if r.consistent key retention s.notes then some (r, d) else none
    | _, _, _ => none

def revertCommits (i : ℕ) : St Id User :=
  match s.committing key retention i with
  | some (r, d) => { s.setRevert i { r with stage := .committed } with
    notes := r.view retention s.notes
    rows := s.rows.filter fun x => ¬ (x.1 ∈ indexTables ∧ x.2 ∈ d.docIds) }
  | none => s

def revertFails (i : ℕ) : St Id User :=
  match s.reverts[i]? with
  | some r => if r.stage = .running then s.setRevert i { r with stage := .rolledBack } else s
  | none => s

/-- `setContent` -/
def revertWrites (i : ℕ) (docId : Id) : St Id User :=
  match s.reverts[i]? with
  | some r =>
    if r.stage = .committed ∧ docId ∈ r.pendingWrites then
      { s.setRevert i { r with pendingWrites := r.pendingWrites.erase docId } with
        rows := s.rows ++ [(.docUpdates, docId)] }
    else s
  | none => s

/-- the oldest 5,000 -/
def due (now : ℕ) : List Id :=
  noteIds (((s.notes.filter fun n => n.isDue now).insertionSort fun a b =>
    a.purgeAfter.getD 0 ≤ b.purgeAfter.getD 0).take 5000)

def stamps (now dbNow : ℕ) : St Id User :=
  let docIds := s.due now
  if docIds = [] ∨ docIds.any (s.isLocked none) then s
  else { s with
    notes := s.notes.map fun n => if n.id ∈ docIds ∧ n.isDue now then { n with purgedAt := some dbNow } else n
    purges := s.purges ++ [{ docIds := docIds }] }

/-- a share of a file that has the id stays -/
def isPurged (p : Purge Id) (table : Table) (x : Table × Id) : Bool :=
  x.1 = table ∧ x.2 ∈ p.docIds ∧ ¬ (table = .shares ∧ ∃ f ∈ s.files, f.id = x.2)

def purgeNext (i : ℕ) : St Id User :=
  match s.purges[i]? with
  | some p => match p.todo with
    | table :: todo => { s with
      rows := s.rows.filter fun x => !s.isPurged p table x
      purges := s.purges.set i { p with todo := todo }
      lost := s.lost ++ s.rows.filter fun x => s.isPurged p table x && s.isLiveNote x.2 }
    | [] => s
  | none => s

end St

def step (s : St Id User) : Action Id User → St Id User
  | .createsNote id vaultId folderId title relPath => s.createsNote key id vaultId folderId title relPath
  | .addsFile file => { s with files := s.files ++ [file] }
  | .removesFile id => { s with files := s.files.filter fun f => f.id ≠ id }
  | .writes table docId => { s with rows := s.rows ++ [(table, docId)] }
  | .pushes docId now => s.pushes docId now
  | .deletes guarded docIds now userId => s.deletes retention guarded docIds now userId
  | .purgesIndex docIds => s.purgesIndex docIds
  | .restoreReads docId => s.restoreReads docId
  | .restoreWrites i day folderId => s.restoreWrites key i day folderId
  | .revertBegins vaultId notes => s.revertBegins vaultId notes
  | .revertSelects i => s.revertSelects retention i
  | .revertNote i differs => s.revertNote key retention i differs
  | .revertDeletes i now userId => s.revertDeletes retention i now userId
  | .revertCommits i => s.revertCommits key retention i
  | .revertFails i => s.revertFails i
  | .revertWrites i docId => s.revertWrites i docId
  | .stamps now dbNow => s.stamps now dbNow
  | .purgeNext i => s.purgeNext i

def run (s : St Id User) (as : List (Action Id User)) : St Id User := Machine.run (step key retention) s as

/-! ## What is to hold -/

/-- a live note, deleted now, is listed for as long as it is kept, can be restored, and is purged when its time is up -/
structure NoteRow.Returns (n : NoteRow Id User) : Prop where
  listed : ∀ now userId t, t < now + retention → (n.softDelete retention now userId).isListed t
  restorable : ∀ now userId, checkInTrash (n.softDelete retention now userId) = .ok ()
  due : ∀ now userId t, now + retention ≤ t → (n.softDelete retention now userId).isDue t

structure Whole (s : St Id User) : Prop where
  /-- nothing of a live note was purged -/
  kept : s.lost = []
  unstamped : ∀ n ∈ s.notes, n.isLive → n.purgedAt = none
  returns : ∀ n ∈ s.notes, n.isLive → n.Returns retention

/-- a revert that commits undeletes no note that is stamped -/
def RevivesUnstamped (s : St Id User) : Action Id User → Prop
  | .revertCommits i => ∀ x ∈ s.committing key retention i, ∀ c ∈ x.1.updated, ∀ n ∈ s.notes, n.id = c.id →
      n.purgedAt = none
  | _ => True

/-- ids are unique, and what a purge is about is stamped -/
structure Stamped (notes : List (NoteRow Id User)) (purges : List (Purge Id)) : Prop where
  ids : (noteIds notes).Nodup
  stamped : ∀ p ∈ purges, ∀ id ∈ p.docIds, ∃ n ∈ notes, n.id = id ∧ n.purgedAt ≠ none

/-! ## Rows -/

section

variable {key retention} {notes : List (NoteRow Id User)} {purges : List (Purge Id)}

variable {n : NoteRow Id User}

theorem returns_of_unstamped (h : n.purgedAt = none) : n.Returns retention := by
  refine ⟨fun now userId t ht => ?_, fun now userId => ?_, fun now userId t ht => ?_⟩
  · simp [NoteRow.isListed, NoteRow.softDelete, h, ht]
  · simp [checkInTrash, NoteRow.isLive, NoteRow.softDelete, h]
  · simp [NoteRow.isDue, NoteRow.softDelete, h, ht]

/-- rows are written, none loses its stamp -/
theorem Stamped.map (h : Stamped notes purges) {f : NoteRow Id User → NoteRow Id User} (hid : ∀ n, (f n).id = n.id)
    (hstamp : ∀ n, n.purgedAt ≠ none → (f n).purgedAt ≠ none) : Stamped (notes.map f) purges := by
  refine ⟨?_, fun p hp id hmem => ?_⟩
  · have hids : noteIds (notes.map f) = noteIds notes := by
      unfold noteIds
      rw [map_map]
      exact map_congr_left fun n _ => hid n
    rw [hids]
    exact h.ids
  · obtain ⟨n, hn, rfl, hpurged⟩ := h.stamped p hp id hmem
    exact ⟨f n, mem_map_of_mem hn, hid n, hstamp n hpurged⟩

theorem Stamped.append (h : Stamped notes purges) {rest : List (NoteRow Id User)}
    (hids : (noteIds (notes ++ rest)).Nodup) : Stamped (notes ++ rest) purges := by
  refine ⟨hids, fun p hp id hmem => ?_⟩
  obtain ⟨n, hn, hid, hpurged⟩ := h.stamped p hp id hmem
  exact ⟨n, mem_append_left _ hn, hid, hpurged⟩

/-- a note that a purge is about is not live -/
theorem Stamped.not_live (h : Stamped notes purges) (hunstamped : ∀ n ∈ notes, n.isLive → n.purgedAt = none)
    {p : Purge Id} (hp : p ∈ purges) {id : Id} (hmem : id ∈ p.docIds) : ∀ n ∈ notes, n.id = id → n.isLive = false := by
  intro n hn hid
  obtain ⟨m, hm, hmid, hpurged⟩ := h.stamped p hp id hmem
  obtain rfl := inj_on_of_nodup_map h.ids hn hm (hid.trans hmid.symm)
  by_contra hlive
  exact hpurged (hunstamped n hn (by simpa using hlive))

variable {r : Revert Id User}

@[simp] theorem applyRow_id (n : NoteRow Id User) : (r.applyRow retention n).id = n.id := by
  unfold Revert.applyRow
  split
  · rfl
  · split
    · split <;> rfl
    · rfl

@[simp] theorem applyRow_purgedAt (n : NoteRow Id User) : (r.applyRow retention n).purgedAt = n.purgedAt := by
  unfold Revert.applyRow
  split
  · rfl
  · split
    · split <;> rfl
    · rfl

/-- a row that a revert makes or leaves live -/
theorem applyRow_isLive (h : (r.applyRow retention n).isLive = true) :
    n.isLive = true ∨ ∃ c ∈ r.updated, c.id = n.id := by
  unfold Revert.applyRow at h
  split at h
  · next c hc => exact .inr ⟨c, mem_of_find?_eq_some hc, by simpa using find?_some hc⟩
  · left
    split at h
    · split at h
      · cases h
      · exact h
    · exact h

/-- what a revert has updated is live -/
theorem applyRow_updated {c : CheckpointNote Id} (hc : c ∈ r.updated) (hid : c.id = n.id) :
    (r.applyRow retention n).isLive = true := by
  unfold Revert.applyRow
  split
  · rfl
  · next hnone => exact absurd hid (by simpa using find?_eq_none.1 hnone c hc)

end

/-! ## Every step -/

variable {key retention} {s : St Id User}

theorem whole_iff : Whole retention s ↔ s.lost = [] ∧ ∀ n ∈ s.notes, n.isLive → n.purgedAt = none :=
  ⟨fun h => ⟨h.kept, h.unstamped⟩, fun h => ⟨h.1, h.2, fun n hn hlive => returns_of_unstamped (h.2 n hn hlive)⟩⟩

/-- neither notes nor purges change -/
structure SameNotes (s s' : St Id User) : Prop where
  notes : s'.notes = s.notes
  purges : s'.purges = s.purges
  lost : s'.lost = s.lost

theorem SameNotes.refl (s : St Id User) : SameNotes s s := ⟨rfl, rfl, rfl⟩

theorem sameNotes_setRevert (i : ℕ) (r : Revert Id User) : SameNotes s (s.setRevert i r) := ⟨rfl, rfl, rfl⟩

/-- a revert that has not committed changes no row -/
theorem sameNotes_revertSelects (i : ℕ) : SameNotes s (s.revertSelects retention i) := by
  unfold St.revertSelects
  split
  · split
    · exact sameNotes_setRevert i _
    · exact .refl s
  · exact .refl s

theorem sameNotes_revertNote (i : ℕ) (differs : Bool) : SameNotes s (s.revertNote key retention i differs) := by
  unfold St.revertNote
  split
  · split
    · split
      · exact .refl s
      · split <;> exact sameNotes_setRevert i _
    · exact .refl s
  · exact .refl s

theorem sameNotes_revertDeletes (i now : ℕ) (userId : Option User) :
    SameNotes s (s.revertDeletes retention i now userId) := by
  unfold St.revertDeletes
  split
  · split
    · dsimp only
      split
      · exact sameNotes_setRevert i _
      · split
        · exact .refl s
        · exact sameNotes_setRevert i _
    · exact .refl s
  · exact .refl s

theorem sameNotes_revertFails (i : ℕ) : SameNotes s (s.revertFails i) := by
  unfold St.revertFails
  split
  · split
    · exact sameNotes_setRevert i _
    · exact .refl s
  · exact .refl s

theorem sameNotes_revertWrites (i : ℕ) (docId : Id) : SameNotes s (s.revertWrites i docId) := by
  unfold St.revertWrites
  split
  · split
    · exact ⟨rfl, rfl, rfl⟩
    · exact .refl s
  · exact .refl s

theorem sameNotes_pushes (docId : Id) (now : ℕ) : SameNotes s (s.pushes docId now) := by
  unfold St.pushes
  split
  · exact ⟨rfl, rfl, rfl⟩
  · exact .refl s

theorem sameNotes_restoreReads (docId : Id) : SameNotes s (s.restoreReads docId) := by
  unfold St.restoreReads
  split
  · split
    · exact ⟨rfl, rfl, rfl⟩
    · exact .refl s
  · exact .refl s

theorem sameNotes_revertBegins (vaultId : Id) (notes : List (CheckpointNote Id)) :
    SameNotes s (s.revertBegins vaultId notes) := by
  unfold St.revertBegins
  split
  · exact .refl s
  · exact ⟨rfl, rfl, rfl⟩

theorem SameNotes.stamped {s s' : St Id User} (h : SameNotes s s') (hs : Stamped s.notes s.purges) :
    Stamped s'.notes s'.purges := by
  rw [h.notes, h.purges]
  exact hs

theorem SameNotes.whole {s s' : St Id User} (h : SameNotes s s') (hs : Whole retention s) : Whole retention s' := by
  rw [whole_iff, h.notes, h.lost]
  exact whole_iff.1 hs

/-- a restore does nothing, or writes the row of a note that is not stamped -/
theorem restoreWrites_eq (i : ℕ) (day : Path) (folderId : Option Id) :
    s.restoreWrites key i day folderId = s ∨ ∃ n ∈ s.notes, n.purgedAt = none ∧ ∃ relPath,
      s.restoreWrites key i day folderId = s.restoreRow n.id relPath folderId := by
  unfold St.restoreWrites
  split
  · next seen _ =>
    split
    · exact .inl rfl
    · split
      · next n hn =>
        have hid : n.id = seen.id := by simpa using find?_some hn
        split
        · next relPath hok _ =>
          right
          refine ⟨n, mem_of_find?_eq_some hn, ?_, relPath, by rw [hid]⟩
          unfold checkInTrash at hok
          split at hok
          · cases hok
          · split at hok
            · cases hok
            · next hpurged => simpa using hpurged
        · exact .inl rfl
      · exact .inl rfl
  · exact .inl rfl

theorem stamped_restoreRow (h : Stamped s.notes s.purges) (docId : Id) (relPath : Path) (folderId : Option Id) :
    Stamped (s.restoreRow docId relPath folderId).notes (s.restoreRow docId relPath folderId).purges := by
  apply h.map
  · intro n
    split <;> rfl
  · intro n hpurged
    split <;> exact hpurged

/-- a revert that commits -/
theorem consistent_of_committing {i : ℕ} {r : Revert Id User} {d : Deletion Id User}
    (h : s.committing key retention i = some (r, d)) :
    (noteIds (r.view retention s.notes)).Nodup ∧ r.stage = .running := by
  obtain ⟨r', _, h⟩ := Option.bind_eq_some_iff.1 h
  split at h
  · next hstage _ _ =>
    split at h
    · next hconsistent =>
      cases h
      exact ⟨(of_decide_eq_true hconsistent).1, hstage⟩
    · cases h
  · cases h

theorem mem_due {now : ℕ} {id : Id} (h : id ∈ s.due now) : ∃ n ∈ s.notes, n.id = id ∧ n.isDue now = true := by
  obtain ⟨n, hn, hid⟩ := mem_map.1 h
  have hsorted := (mem_insertionSort _).1 (mem_of_mem_take hn)
  exact ⟨n, (mem_filter.1 hsorted).1, hid, (mem_filter.1 hsorted).2⟩

theorem stamped_step (s : St Id User) (a : Action Id User) (h : Stamped s.notes s.purges) :
    Stamped (step key retention s a).notes (step key retention s a).purges := by
  cases a with
  | createsNote id vaultId folderId title relPath =>
    dsimp only [step, St.createsNote]
    split
    · exact h
    · next hnew =>
      have hfresh : id ∉ noteIds s.notes := fun hmem => hnew (.inl hmem)
      apply h.append
      unfold noteIds at hfresh ⊢
      rw [map_append, map_singleton, ← concat_eq_append]
      exact List.Nodup.concat hfresh h.ids
  | addsFile file | removesFile id | writes table docId | purgesIndex docIds => exact h
  | pushes docId now => exact (sameNotes_pushes docId now).stamped h
  | deletes guarded docIds now userId =>
    dsimp only [step, St.deletes]
    split
    · exact h
    · apply h.map
      · intro n
        split <;> rfl
      · intro n hpurged
        split <;> exact hpurged
  | restoreReads docId => exact (sameNotes_restoreReads docId).stamped h
  | restoreWrites i day folderId =>
    dsimp only [step]
    rcases @restoreWrites_eq _ _ _ _ _ key s i day folderId with heq | ⟨n, _, _, relPath, heq⟩
    · rw [heq]
      exact h
    · rw [heq]
      exact stamped_restoreRow h n.id relPath folderId
  | revertBegins vaultId notes => exact (sameNotes_revertBegins vaultId notes).stamped h
  | revertSelects i => exact (sameNotes_revertSelects i).stamped h
  | revertNote i differs => exact (sameNotes_revertNote i differs).stamped h
  | revertDeletes i now userId => exact (sameNotes_revertDeletes i now userId).stamped h
  | revertCommits i =>
    dsimp only [step, St.revertCommits]
    split
    · next r d hc =>
      obtain ⟨hconsistent, _⟩ := consistent_of_committing hc
      apply (h.map (f := r.applyRow retention) applyRow_id fun n hpurged => ?_).append hconsistent
      rw [applyRow_purgedAt]
      exact hpurged
    · exact h
  | revertFails i => exact (sameNotes_revertFails i).stamped h
  | revertWrites i docId => exact (sameNotes_revertWrites i docId).stamped h
  | stamps now dbNow =>
    dsimp only [step, St.stamps]
    split
    · exact h
    · obtain ⟨f, hf⟩ : ∃ f : NoteRow Id User → NoteRow Id User, f = fun n =>
        if n.id ∈ s.due now ∧ n.isDue now then { n with purgedAt := some dbNow } else n := ⟨_, rfl⟩
      have hmap : Stamped (s.notes.map f) s.purges := by
        apply h.map
        · intro n
          rw [hf]
          dsimp only
          split <;> rfl
        · intro n hpurged
          rw [hf]
          dsimp only
          split
          · simp
          · exact hpurged
      rw [← hf]
      refine ⟨hmap.ids, fun p hp id hid => ?_⟩
      rcases mem_snoc.1 hp with hp | rfl
      · exact hmap.stamped p hp id hid
      · obtain ⟨n, hn, rfl, hdue⟩ := mem_due hid
        refine ⟨f n, mem_map_of_mem hn, ?_, ?_⟩
        · rw [hf]
          dsimp only
          split <;> rfl
        · rw [hf]
          simp [hid, hdue]
  | purgeNext i =>
    dsimp only [step, St.purgeNext]
    split
    · next p hp =>
      split
      · refine ⟨h.ids, fun q hq id hid => ?_⟩
        rcases mem_or_eq_of_mem_set hq with hq | rfl
        · exact h.stamped q hq id hid
        · exact h.stamped p (mem_of_getElem? hp) id hid
      · exact h
    · exact h

/-- rows are written, none becomes live with a stamp -/
theorem Whole.map (h : Whole retention s) {f : NoteRow Id User → NoteRow Id User}
    (hlive : ∀ n ∈ s.notes, (f n).isLive → n.isLive ∨ n.purgedAt = none)
    (hstamp : ∀ n ∈ s.notes, (f n).isLive → n.purgedAt = none → (f n).purgedAt = none) :
    ∀ n ∈ s.notes.map f, n.isLive → n.purgedAt = none := by
  intro n' hn' hlive'
  obtain ⟨n, hn, rfl⟩ := mem_map.1 hn'
  apply hstamp n hn hlive'
  rcases hlive n hn hlive' with hlive | hnone
  · exact h.unstamped n hn hlive
  · exact hnone

/-- in a state that is whole, a step leaves it so exactly if it revives no stamped note -/
theorem whole_step (s : St Id User) (a : Action Id User) (h : Stamped s.notes s.purges) (hw : Whole retention s) :
    Whole retention (step key retention s a) ↔ RevivesUnstamped key retention s a := by
  cases a with
  | createsNote id vaultId folderId title relPath =>
    refine iff_of_true ?_ trivial
    dsimp only [step, St.createsNote]
    split
    · exact hw
    · refine whole_iff.2 ⟨hw.kept, fun n hn hlive => ?_⟩
      rcases mem_snoc.1 hn with hn | hn
      · exact hw.unstamped n hn hlive
      · rw [hn]
  | addsFile file | removesFile id | writes table docId | purgesIndex docIds =>
    exact iff_of_true (SameNotes.whole (s := s) ⟨rfl, rfl, rfl⟩ hw) trivial
  | pushes docId now => exact iff_of_true ((sameNotes_pushes docId now).whole hw) trivial
  | deletes guarded docIds now userId =>
    refine iff_of_true ?_ trivial
    dsimp only [step, St.deletes]
    split
    · exact hw
    · refine whole_iff.2 ⟨hw.kept, hw.map ?_ ?_⟩
      · intro n _ hlive
        split at hlive
        · cases hlive
        · exact .inl hlive
      · intro n _ _ hnone
        split <;> exact hnone
  | restoreReads docId => exact iff_of_true ((sameNotes_restoreReads docId).whole hw) trivial
  | restoreWrites i day folderId =>
    refine iff_of_true ?_ trivial
    dsimp only [step]
    rcases @restoreWrites_eq _ _ _ _ _ key s i day folderId with heq | ⟨n, hn, hnone, relPath, heq⟩
    · rw [heq]
      exact hw
    · rw [heq]
      refine whole_iff.2 ⟨hw.kept, hw.map ?_ ?_⟩
      · intro m hm hlive
        split at hlive
        · next hid =>
          -- the row that was checked
          rw [inj_on_of_nodup_map h.ids hm hn hid]
          exact .inr hnone
        · exact .inl hlive
      · intro m _ _ hnone
        split <;> exact hnone
  | revertBegins vaultId notes => exact iff_of_true ((sameNotes_revertBegins vaultId notes).whole hw) trivial
  | revertSelects i => exact iff_of_true ((sameNotes_revertSelects i).whole hw) trivial
  | revertNote i differs => exact iff_of_true ((sameNotes_revertNote i differs).whole hw) trivial
  | revertDeletes i now userId => exact iff_of_true ((sameNotes_revertDeletes i now userId).whole hw) trivial
  | revertCommits i =>
    dsimp only [step, St.revertCommits, RevivesUnstamped]
    cases hc : s.committing key retention i with
    | none => exact iff_of_true hw (by simp)
    | some x =>
      obtain ⟨r, d⟩ := x
      rw [whole_iff]
      constructor
      · rintro ⟨_, hunstamped⟩ x hx c hmem n hn hid
        cases hx
        have hrow : r.applyRow retention n ∈ r.view retention s.notes :=
          mem_append_left _ (mem_map_of_mem hn)
        have hnone := hunstamped _ hrow (applyRow_updated hmem hid.symm)
        rwa [applyRow_purgedAt] at hnone
      · intro hok
        refine ⟨hw.kept, fun n' hn' hlive' => ?_⟩
        rcases mem_append.1 hn' with hn' | hn'
        · obtain ⟨n, hn, rfl⟩ := mem_map.1 hn'
          rw [applyRow_purgedAt]
          rcases applyRow_isLive hlive' with hlive | ⟨c, hmem, hid⟩
          · exact hw.unstamped n hn hlive
          · exact hok (r, d) rfl c hmem n hn hid.symm
        · obtain ⟨c, _, rfl⟩ := mem_map.1 hn'
          rfl
  | revertFails i => exact iff_of_true ((sameNotes_revertFails i).whole hw) trivial
  | revertWrites i docId => exact iff_of_true ((sameNotes_revertWrites i docId).whole hw) trivial
  | stamps now dbNow =>
    refine iff_of_true ?_ trivial
    dsimp only [step, St.stamps]
    split
    · exact hw
    · refine whole_iff.2 ⟨hw.kept, hw.map ?_ ?_⟩
      · intro n _ hlive
        split at hlive <;> exact .inl hlive
      · intro n _ hlive hnone
        split at hlive
        · next hdue =>
          have hdead : n.isLive = false := by
            have hdue := hdue.2
            simp only [NoteRow.isDue, Bool.and_eq_true] at hdue
            simpa [NoteRow.isLive] using hdue.1.1
          exact absurd (hlive.symm.trans hdead) (by simp)
        · next hnot => rw [if_neg hnot]; exact hnone
  | purgeNext i =>
    refine iff_of_true ?_ trivial
    dsimp only [step, St.purgeNext]
    split
    · next p hp =>
      split
      · next table todo _ =>
        refine whole_iff.2 ⟨?_, hw.unstamped⟩
        rw [hw.kept, nil_append, filter_eq_nil_iff]
        intro x _ hx
        obtain ⟨hpurged, hlive⟩ := Bool.and_eq_true_iff.1 hx
        obtain ⟨n, hn, hid, hlive⟩ : ∃ n ∈ s.notes, n.id = x.2 ∧ n.isLive = true := by
          simpa [St.isLiveNote] using hlive
        have hmem : x.2 ∈ p.docIds := by
          exact (of_decide_eq_true hpurged).2.1
        have hdead := h.not_live hw.unstamped (mem_of_getElem? hp) hmem n hn hid
        exact absurd (hlive.symm.trans hdead) (by simp)
      · exact hw
    · exact hw

/-- **Live notes stay whole.** In every state of a run nothing of a live note was purged, no live note is stamped and
every live note can go to the Trash and come back, exactly if no revert of the run undeletes a stamped note. -/
theorem trash_whole_iff (as : List (Action Id User)) :
    Machine.Guarded (step key retention) (RevivesUnstamped key retention) {} as ↔
      ∀ n, Whole retention (run key retention ({} : St Id User) (as.take n)) := by
  have hinv : ∀ (s : St Id User) a, Stamped s.notes s.purges →
      Stamped (step key retention s a).notes (step key retention s a).purges := stamped_step
  have hexact : ∀ (s : St Id User) a, Stamped s.notes s.purges → Whole retention s →
      (Whole retention (step key retention s a) ↔ RevivesUnstamped key retention s a) := whole_step
  apply Machine.guarded_iff hinv hexact
  · exact ⟨by simp [noteIds], by simp⟩
  · exact whole_iff.2 ⟨rfl, by simp⟩

/-- a purge stamps a note and has not deleted its text yet; the revert brings the note back, and the purge goes on -/
theorem purge_takes_revived_note :
    ¬ Whole 30 (run id 30 ({} : St ℕ ℕ) [.createsNote 1 0 none none ['a'], .writes .docUpdates 1,
      .deletes true [1] 0 none, .stamps 30 30, .revertBegins 0 [⟨1, none, none, ['a']⟩], .revertSelects 0,
      .revertNote 0 true, .revertDeletes 0 31 none, .revertCommits 0, .revertWrites 0 1, .purgeNext 0, .purgeNext 0,
      .purgeNext 0, .purgeNext 0]) := by
  intro h
  exact absurd h.kept (by decide)

end

end Baalda.Trash
