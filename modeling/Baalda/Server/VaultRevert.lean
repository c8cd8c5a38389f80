/-
Reverting a vault to a checkpoint (`versions/revert.ts`, and what `versions/checkpoints.ts` captures).

The structure is one transaction: folders from the root down, notes, pinned files, then the notes that are not of the
checkpoint. Texts are written after it commits, each for itself. `localeLe` stands for `localeCompare`, `collate` for
the database's order of texts, `sha256Hex` for the hash, and `accepts` for the writes of a text that go through.
-/
import Baalda.Lib.Slots
import Baalda.Server.TreeOps

namespace Baalda.VaultRevert

open VaultTree RegisterNotes TreeOps List Function
open FileRaces (fileIds taken)

variable {Id K Sha : Type*}

abbrev Text := List Char

/-! ## Checkpoints -/

structure CheckpointFolder (Id : Type*) where
  id : Id
  parentId : Option Id
  name : Path
  path : Path
  deriving DecidableEq

structure CheckpointNote (Id : Type*) where
  id : Id
  folderId : Option Id
  title : Option Path
  relPath : Path
  deriving DecidableEq

/-- a pin with a `file_id` -/
structure PinnedFile (Id : Type*) where
  id : Id
  folderId : Option Id
  path : Path
  deriving DecidableEq

structure Checkpoint (Id : Type*) where
  vaultId : Id
  folders : List (CheckpointFolder Id)
  notes : List (CheckpointNote Id)
  files : List (PinnedFile Id)
  /-- the bodies that can be resolved -/
  texts : List (Id × Text)
  deriving DecidableEq

section

variable [DecidableEq Id] [DecidableEq K] [DecidableEq Sha]

def toCheckpointFolder (f : FolderRow Id) : CheckpointFolder Id := ⟨f.id, f.parentId, f.name, f.path⟩

def toCheckpointNote (n : NoteRow Id) : CheckpointNote Id := ⟨n.id, n.folderId, n.title, n.relPath⟩

def toPinnedFile (f : FileRow Id) : PinnedFile Id := ⟨f.id, f.folderId, f.path⟩

/-- `readVaultStructure` and the pins; `pinned` are the files whose bytes can be kept, `bodies` the texts there are -/
def captureCheckpoint (collate : Path → Path → Bool) (db : Db Id) (vaultId : Id) (pinned : Id → Bool)
    (bodies : Id → Option Text) : Checkpoint Id :=
  let notes := (db.notes.filter fun n => n.vaultId = vaultId ∧ n.deleted = false).map toCheckpointNote
  let folders := (db.folders.filter fun f => f.vaultId = vaultId).map toCheckpointFolder
  let files := (db.files.filter fun f => f.vaultId = vaultId ∧ pinned f.id).map toPinnedFile
  { vaultId := vaultId
    folders := folders.mergeSort fun a b => collate a.path b.path
    notes := notes.mergeSort fun a b => collate a.relPath b.relPath
    files := files.mergeSort fun a b => collate a.path b.path
    texts := notes.filterMap fun n => (bodies n.id).map fun text => (n.id, text) }

/-! ## Folders -/

variable (key : Path → K) (vaultId : Id)

def depth (path : Path) : ℕ := (path.splitOn '/').length

/-- `byDepth`: root first, by name within a depth -/
def byDepth (localeLe : Path → Path → Bool) (folders : List (CheckpointFolder Id)) : List (CheckpointFolder Id) :=
  (folders.mergeSort fun a b => localeLe a.path b.path).mergeSort fun a b => depth a.path ≤ depth b.path

/-- how far the folders are -/
structure FolderProgress (Id : Type*) where
  db : Db Id
  folderIdMap : Id → Option Id := fun _ => none
  foldersCreated : ℕ := 0

/-- `folderIdMap.get(id) ?? id` -/
def mapped (folderIdMap : Id → Option Id) (id : Id) : Id := (folderIdMap id).getD id

def writeFolders (db : Db Id) (id : Id) (parentId : Option Id) (name path : Path) : Option (Db Id) :=
  checked key { db with folders := db.folders.map (writeFolder id parentId name path) }

def revertFolder (p : FolderProgress Id) (folder : CheckpointFolder Id) : Option (FolderProgress Id) :=
  let parentId := folder.parentId.map (mapped p.folderIdMap)
  if HasFolder p.db.folders vaultId folder.id then
    (writeFolders key p.db folder.id parentId folder.name folder.path).map fun db => { p with db := db }
  else match p.db.folders.find? fun f => f.vaultId = vaultId ∧ f.path = folder.path with
    | some byPath => (writeFolders key p.db byPath.id parentId folder.name byPath.path).map fun db =>
      { p with
        db := db
        folderIdMap := update p.folderIdMap folder.id (some byPath.id) }
    | none =>
      let row : FolderRow Id := ⟨folder.id, vaultId, parentId, folder.name, folder.path⟩
      (checked key { p.db with folders := p.db.folders ++ [row] }).map fun db =>
        { p with
          db := db
          foldersCreated := p.foldersCreated + 1 }

def revertFolders (p : FolderProgress Id) (folders : List (CheckpointFolder Id)) : Option (FolderProgress Id) :=
  folders.foldlM (revertFolder key vaultId) p

/-! ## Notes -/

variable (folderIdMap : Id → Option Id)

structure NoteProgress (Id : Type*) where
  db : Db Id
  docsRestored : ℕ := 0
  /-- another live note has their path -/
  skipped : List Id := []

/-- another live note has the path -/
def notePathTaken (notes : List (NoteRow Id)) (relPath : Path) : Bool :=
  notes.any fun n => n.vaultId = vaultId ∧ key n.relPath = key relPath ∧ n.deleted = false

def writeNote (note : CheckpointNote Id) (folderId : Option Id) (n : NoteRow Id) : NoteRow Id :=
  if n.id = note.id then { n with deleted := false, relPath := note.relPath, title := note.title, folderId := folderId }
  else n

def revertNote (p : NoteProgress Id) (note : CheckpointNote Id) : Option (NoteProgress Id) :=
  let folderId := note.folderId.map (mapped folderIdMap)
  match p.db.notes.find? fun n => n.id = note.id ∧ n.vaultId = vaultId with
  | none =>
    -- `ON CONFLICT (id) DO NOTHING`, under a savepoint
    if note.id ∈ noteIds p.db.notes then some { p with docsRestored := p.docsRestored + 1 }
    else if notePathTaken key vaultId p.db.notes note.relPath then some { p with skipped := note.id :: p.skipped }
    else
      let row : NoteRow Id := ⟨note.id, vaultId, folderId, note.title, note.relPath, false⟩
      (checked key { p.db with notes := p.db.notes ++ [row] }).map fun db =>
        { p with
          db := db
          docsRestored := p.docsRestored + 1 }
  | some row =>
    if row.relPath ≠ note.relPath ∨ row.title ≠ note.title ∨ row.folderId ≠ folderId ∨ row.deleted then
      (checked key { p.db with notes := p.db.notes.map (writeNote note folderId) }).map fun db =>
        { p with
          db := db
          docsRestored := p.docsRestored + if row.deleted then 1 else 0 }
    else some p

def revertNotes (p : NoteProgress Id) (notes : List (CheckpointNote Id)) : Option (NoteProgress Id) :=
  notes.foldlM (revertNote key vaultId folderIdMap) p

/-! ## Files -/

structure FileProgress (Id : Type*) where
  db : Db Id
  filesRestored : ℕ := 0
  /-- another file has their path -/
  skipped : List Id := []

def clearTombstone (db : Db Id) (id : Id) : Db Id :=
  { db with fileTombstones := db.fileTombstones.filter (· ≠ id) }

/-- a pin of `restorePinnedBlobs` but for its bytes -/
def restoreFile (p : FileProgress Id) (pin : PinnedFile Id) : Option (FileProgress Id) :=
  if ∃ f ∈ p.db.files, f.id = pin.id ∧ f.vaultId = vaultId then some p
  else
    let folderId := (pin.folderId.map (mapped folderIdMap)).filter fun id => HasFolder p.db.folders vaultId id
    -- `ON CONFLICT (id) DO NOTHING`, under a savepoint
    if pin.id ∈ fileIds p.db.files then
      some { p with
        db := clearTombstone p.db pin.id
        filesRestored := p.filesRestored + 1 }
    else if taken key vaultId pin.id pin.path p.db.files then some { p with skipped := pin.id :: p.skipped }
    else (checked key { p.db with files := p.db.files ++ [⟨pin.id, vaultId, folderId, pin.path⟩] }).map fun db =>
      { p with
        db := clearTombstone db pin.id
        filesRestored := p.filesRestored + 1 }

def restoreFiles (p : FileProgress Id) (pins : List (PinnedFile Id)) : Option (FileProgress Id) :=
  pins.foldlM (restoreFile key vaultId folderIdMap) p

/-! ## Notes created after the checkpoint -/

/-- `max(5, ceil(live * 0.2))` -/
def revertDeleteCap (liveNotes : ℕ) : ℕ := max 5 ((liveNotes + 4) / 5)

/-- a live note of the vault that the checkpoint does not have -/
def isDoomed (keepIds : List Id) (n : NoteRow Id) : Bool := n.vaultId = vaultId ∧ n.deleted = false ∧ n.id ∉ keepIds

def deleteOthers (keepIds : List Id) (db : Db Id) : Option (Db Id × ℕ) :=
  let doomed := db.notes.countP (isDoomed vaultId keepIds)
  let live := db.notes.countP fun n => n.vaultId = vaultId ∧ n.deleted = false
  if revertDeleteCap live < doomed then none
  else some ({ db with notes := db.notes.map fun n => { n with deleted := n.deleted || isDoomed vaultId keepIds n } },
    doomed)

/-! ## The whole revert -/

/-- the counts are `VaultRevertOutcome`'s -/
structure Structure (Id : Type*) where
  db : Db Id
  docsRestored : ℕ
  docsDeleted : ℕ
  foldersCreated : ℕ
  filesRestored : ℕ
  skippedNotes : List Id
  skippedFiles : List Id

/-- the transaction -/
def revertStructure (localeLe : Path → Path → Bool) (db : Db Id) (c : Checkpoint Id) : Option (Structure Id) := do
  let folders ← revertFolders key c.vaultId { db := db } (byDepth localeLe c.folders)
  let notes ← revertNotes key c.vaultId folders.folderIdMap { db := folders.db } c.notes
  let files ← restoreFiles key c.vaultId folders.folderIdMap { db := notes.db } c.files
  let (db, docsDeleted) ← deleteOthers c.vaultId (c.notes.map CheckpointNote.id) files.db
  some {
    db := db
    docsRestored := notes.docsRestored
    docsDeleted := docsDeleted
    foldersCreated := folders.foldersCreated
    filesRestored := files.filesRestored
    skippedNotes := notes.skipped
    skippedFiles := files.skipped }

/-- the documents' texts; `none`: the server has never seen the document -/
abbrev Texts (Id : Type*) := Id → Option Text

/-- what to do about a note's text -/
inductive TextPlan where
  | keep
  /-- the checkpoint says empty, the document has content -/
  | keepOverEmpty
  | write (content : Text)
  deriving DecidableEq

variable (sha256Hex : Text → Sha)

def planText (texts : Texts Id) (c : Checkpoint Id) (note : CheckpointNote Id) : TextPlan :=
  match c.texts.lookup note.id with
  | none => .keep
  | some content =>
    let current := (texts note.id).getD []
    if sha256Hex current = sha256Hex content then .keep
    else if content = [] ∧ current ≠ [] then .keepOverEmpty
    else .write content

def pendingWrites (texts : Texts Id) (c : Checkpoint Id) (skipped : List Id) : List (Id × Text) :=
  (c.notes.filter fun n => n.id ∉ skipped).filterMap fun n => match planText sha256Hex texts c n with
    | .write content => some (n.id, content)
    | _ => none

/-- `setContent`, of the writes that go through -/
def writeTexts (accepts : Id → Bool) (texts : Texts Id) (writes : List (Id × Text)) : Texts Id :=
  writes.foldl (fun texts w => if accepts w.1 then update texts w.1 (some w.2) else texts) texts

structure Vault (Id : Type*) where
  db : Db Id
  texts : Texts Id

structure VaultRevertOutcome (Id : Type*) where
  docsChanged : ℕ
  docsRestored : ℕ
  docsDeleted : ℕ
  foldersCreated : ℕ
  docsKeptOverEmpty : ℕ
  filesRestored : ℕ
  /-- logged -/
  skippedNotes : List Id
  skippedFiles : List Id
  deriving DecidableEq

/-- a transaction that fails leaves everything as it was -/
def revertVaultToCheckpoint (localeLe : Path → Path → Bool) (accepts : Id → Bool) (v : Vault Id) (c : Checkpoint Id) :
    Vault Id × Option (VaultRevertOutcome Id) :=
  match revertStructure key localeLe v.db c with
  | none => (v, none)
  | some s =>
    let writes := pendingWrites sha256Hex v.texts c s.skippedNotes
    (⟨s.db, writeTexts accepts v.texts writes⟩, some {
      docsChanged := writes.countP fun w => accepts w.1
      docsRestored := s.docsRestored
      docsDeleted := s.docsDeleted
      foldersCreated := s.foldersCreated
      docsKeptOverEmpty := (c.notes.filter fun n => n.id ∉ s.skippedNotes).countP fun n =>
        planText sha256Hex v.texts c n = .keepOverEmpty
      filesRestored := s.filesRestored
      skippedNotes := s.skippedNotes
      skippedFiles := s.skippedFiles })

/-! ## What the folders become -/

section

variable {key vaultId} {db₀ : Db Id} {c : Checkpoint Id}

/-- nothing of the checkpoint is directly in the folder -/
def Bare (c : Checkpoint Id) (id : Id) : Prop :=
  (∀ f ∈ c.folders, f.parentId ≠ some id) ∧ (∀ n ∈ c.notes, n.folderId ≠ some id) ∧
    ∀ f ∈ c.files, f.folderId ≠ some id

instance (c : Checkpoint Id) (id : Id) : Decidable (Bare c id) :=
  inferInstanceAs (Decidable (_ ∧ _ ∧ _))

/-- the row of `t` has the path of `s`, whose own row is gone -/
def Takes (db : Db Id) (vaultId : Id) (s t : CheckpointFolder Id) : Prop :=
  ¬ HasFolder db.folders vaultId s.id ∧ ∃ g ∈ db.folders, g.id = t.id ∧ g.vaultId = vaultId ∧ g.path = s.path

instance (db : Db Id) (vaultId : Id) (s t : CheckpointFolder Id) : Decidable (Takes db vaultId s t) :=
  inferInstanceAs (Decidable (_ ∧ _))

def folderIds (folders : List (CheckpointFolder Id)) : List Id := folders.map CheckpointFolder.id

/-- a row when the folders `done` have been reverted: as it was, or where the checkpoint has a folder, its own or one
that it stands for -/
def Settled (db₀ : Db Id) (vaultId : Id) (folderIdMap : Id → Option Id) (done : List (CheckpointFolder Id))
    (f : FolderRow Id) : Prop :=
  f ∈ db₀.folders ∧ (f.vaultId = vaultId → f.id ∉ folderIds done) ∨
    f.vaultId = vaultId ∧ ∃ s ∈ done, f.id = mapped folderIdMap s.id ∧ f.path = s.path ∧
      f.parentId = s.parentId.map (mapped folderIdMap) ∧
      (f.id = s.id ∨ f.id ∉ folderIds done ∧ ∃ g ∈ db₀.folders, g.id = f.id ∧ g.vaultId = vaultId ∧ g.path = f.path)

structure FolderInv (key : Path → K) (vaultId : Id) (db₀ : Db Id) (c : Checkpoint Id)
    (done : List (CheckpointFolder Id)) (p : FolderProgress Id) : Prop where
  frame : p.db = { db₀ with folders := p.db.folders }
  constraints : Constraints key p.db
  stay : ∀ f ∈ db₀.folders, HasFolder p.db.folders f.vaultId f.id
  rows : ∀ f ∈ p.db.folders, Settled db₀ vaultId p.folderIdMap done f
  placed : ∀ s ∈ done, ¬ Bare c s.id → ∃ f ∈ p.db.folders, f.id = mapped p.folderIdMap s.id ∧ f.vaultId = vaultId ∧
    f.path = s.path
  maps : ∀ s ∈ done, ∀ e, p.folderIdMap s.id = some e → ¬ HasFolder db₀.folders vaultId s.id ∧
    ∃ g ∈ db₀.folders, g.id = e ∧ g.vaultId = vaultId ∧ g.path = s.path
  unmapped : ∀ id, id ∉ folderIds done → p.folderIdMap id = none
  closed : ∀ s ∈ done, ∀ q ∈ s.parentId, q ∈ folderIds done

/-- an id that is mapped later does not change what the folders before it hang from -/
theorem parent_update {m : Id → Option Id} {done : List (CheckpointFolder Id)} {id e : Id} (hid : id ∉ folderIds done)
    {parentId : Option Id} (hparent : ∀ q ∈ parentId, q ∈ folderIds done) :
    parentId.map (mapped (update m id (some e))) = parentId.map (mapped m) := by
  cases parentId with
  | none => rfl
  | some q =>
    have hne : q ≠ id := fun heq => hid (heq ▸ hparent q rfl)
    simp [mapped, update_of_ne hne]

variable {done : List (CheckpointFolder Id)} {p p' : FolderProgress Id} {s : CheckpointFolder Id}

/-- what the next folder of the checkpoint is to be -/
structure Next (vaultId : Id) (db₀ : Db Id) (c : Checkpoint Id) (done : List (CheckpointFolder Id))
    (s : CheckpointFolder Id) : Prop where
  id : s.id ∉ folderIds done
  path : ∀ s' ∈ done, s'.path ≠ s.path
  parent : ∀ q ∈ s.parentId, q ∈ folderIds done
  apart : ∀ s' ∈ done, Takes db₀ vaultId s' s → Bare c s'.id

theorem Settled.of_ne {m : Id → Option Id} {f : FolderRow Id} (h : Settled db₀ vaultId m done f)
    (hne : f.vaultId = vaultId → f.id ≠ s.id) : Settled db₀ vaultId m (s :: done) f := by
  rcases h with ⟨hf, hnot⟩ | ⟨hvault, s', hs', hid, hpath, hparent, hown⟩
  · left
    refine ⟨hf, fun hvault hmem => ?_⟩
    rcases mem_cons.1 hmem with heq | hmem
    · exact hne hvault heq
    · exact hnot hvault hmem
  · right
    refine ⟨hvault, s', .tail _ hs', hid, hpath, hparent, ?_⟩
    apply hown.imp_right
    rintro ⟨hnot, hg⟩
    refine ⟨fun hmem => ?_, hg⟩
    rcases mem_cons.1 hmem with heq | hmem
    · exact hne hvault heq
    · exact hnot hmem

section

variable (h : FolderInv key vaultId db₀ c done p) (hs : Next vaultId db₀ c done s)

include h hs

/-- a folder of the checkpoint that is there moves to where it was -/
theorem FolderInv.writes (hthere : HasFolder p.db.folders vaultId s.id) {db' : Db Id}
    (hwrite : writeFolders key p.db s.id (s.parentId.map (mapped p.folderIdMap)) s.name s.path = some db') :
    FolderInv key vaultId db₀ c (s :: done) { p with db := db' } := by
  obtain ⟨hok, rfl⟩ := checked_eq_some.1 hwrite
  have hmapped : mapped p.folderIdMap s.id = s.id := by simp [mapped, h.unmapped s.id hs.id]
  obtain ⟨g, hg, hgid, hgvault⟩ := hthere
  refine ⟨?_, hok, fun f hf => (h.stay f hf).write, ?_, ?_, ?_, ?_, ?_⟩
  · rw [h.frame]
  · intro f' hf'
    obtain ⟨f, hf, rfl⟩ := mem_map.1 hf'
    by_cases hid : f.id = s.id
    · obtain rfl : f = g := folder_eq_of_id h.constraints.folderIds hf hg (hid.trans hgid.symm)
      rw [writeFolder_new hid]
      exact .inr ⟨hgvault, s, .head _, hid.trans hmapped.symm, rfl, rfl, .inl hid⟩
    · rw [writeFolder_old hid]
      exact (h.rows f hf).of_ne fun _ => hid
  · intro s' hs' hbare
    rcases mem_cons.1 hs' with rfl | hs'
    · refine ⟨_, mem_map_of_mem hg, ?_, ?_, ?_⟩
      · rw [writeFolder_id, hgid]
        exact hmapped.symm
      · rw [writeFolder_vaultId, hgvault]
      · rw [writeFolder_new hgid]
    · obtain ⟨f, hf, hfid, hfvault, hfpath⟩ := h.placed s' hs' hbare
      have hid : f.id ≠ s.id := by
        intro heq
        -- `s'` would stand at the row of `s`, which comes later
        cases hm : p.folderIdMap s'.id with
        | none =>
          have hs'id : f.id = s'.id := by simpa [mapped, hm] using hfid
          exact hs.id (heq ▸ hs'id ▸ mem_map_of_mem hs')
        | some e =>
          obtain ⟨hgone, g', hg', hg'id, hg'vault, hg'path⟩ := h.maps s' hs' e hm
          have hfe : f.id = e := by simpa [mapped, hm] using hfid
          exact hbare (hs.apart s' hs' ⟨hgone, g', hg', by rw [hg'id, ← hfe, heq], hg'vault, hg'path⟩)
      exact ⟨f, mem_map.2 ⟨f, hf, writeFolder_old hid⟩, hfid, hfvault, hfpath⟩
  · intro s' hs' e he
    rcases mem_cons.1 hs' with rfl | hs'
    · exact absurd ((h.unmapped s'.id hs.id).symm.trans he) (by simp)
    · exact h.maps s' hs' e he
  · exact fun id hid => h.unmapped id fun hmem => hid (.tail _ hmem)
  · intro s' hs' q hq
    rcases mem_cons.1 hs' with rfl | hs'
    · exact .tail _ (hs.parent q hq)
    · exact .tail _ (h.closed s' hs' q hq)

/-- a folder of the checkpoint that is gone is stood for by the one at its path -/
theorem FolderInv.standsIn (hgone : ¬ HasFolder p.db.folders vaultId s.id) {e : FolderRow Id} (he : e ∈ p.db.folders)
    (hevault : e.vaultId = vaultId) (hepath : e.path = s.path) {db' : Db Id}
    (hwrite : writeFolders key p.db e.id (s.parentId.map (mapped p.folderIdMap)) s.name e.path = some db') :
    FolderInv key vaultId db₀ c (s :: done)
      { p with db := db', folderIdMap := update p.folderIdMap s.id (some e.id) } := by
  obtain ⟨hok, rfl⟩ := checked_eq_some.1 hwrite
  have hmapped : mapped (update p.folderIdMap s.id (some e.id)) s.id = e.id := by simp [mapped]
  have hold : ∀ s' ∈ done, mapped (update p.folderIdMap s.id (some e.id)) s'.id =
      mapped p.folderIdMap s'.id := by
    intro s' hs'
    have hne : s'.id ≠ s.id := fun heq => hs.id (heq ▸ mem_map_of_mem hs')
    simp [mapped, update_of_ne hne]
  have hnot : ∀ f ∈ p.db.folders, f.vaultId = vaultId → f.id ≠ s.id := fun f hf hvault hid =>
    hgone ⟨f, hf, hid, hvault⟩
  -- no folder of the checkpoint has been put at the path
  obtain ⟨he₀, hedone⟩ : e ∈ db₀.folders ∧ e.id ∉ folderIds done := by
    rcases h.rows e he with ⟨he₀, hedone⟩ | ⟨_, s', hs', _, hpath, _⟩
    · exact ⟨he₀, hedone hevault⟩
    · exact absurd (hpath.symm.trans hepath) (hs.path s' hs')
  refine ⟨?_, hok, fun f hf => (h.stay f hf).write, ?_, ?_, ?_, ?_, ?_⟩
  · rw [h.frame]
  · intro f' hf'
    obtain ⟨f, hf, rfl⟩ := mem_map.1 hf'
    by_cases hid : f.id = e.id
    · obtain rfl : f = e := folder_eq_of_id h.constraints.folderIds hf he hid
      rw [writeFolder_new rfl]
      refine .inr ⟨hevault, s, .head _, hmapped.symm, hepath, (parent_update hs.id hs.parent).symm,
        .inr ⟨?_, f, he₀, rfl, hevault, rfl⟩⟩
      exact not_mem_cons_of_ne_of_not_mem (hnot f hf hevault) hedone
    · rw [writeFolder_old hid]
      rcases (h.rows f hf).of_ne (hnot f hf) with hleft | ⟨hvault, s', hs', hfid, hpath, hparent, hown⟩
      · exact .inl hleft
      · rcases mem_cons.1 hs' with rfl | hs'
        · -- the new row is not this one
          rcases hown with hown | ⟨hfdone, _⟩
          · exact absurd hown (hnot f hf hvault)
          · exact absurd (by simpa [mapped, h.unmapped s'.id hs.id] using hfid) (hnot f hf hvault)
        · refine .inr ⟨hvault, s', .tail _ hs', (hfid.trans (hold s' hs').symm), hpath, ?_, hown⟩
          rw [parent_update hs.id (h.closed s' hs'), hparent]
  · intro s' hs' hbare
    rcases mem_cons.1 hs' with rfl | hs'
    · refine ⟨_, mem_map_of_mem he, ?_, ?_, ?_⟩
      · rw [writeFolder_id]
        exact hmapped.symm
      · rw [writeFolder_vaultId, hevault]
      · rw [writeFolder_new rfl, hepath]
    · obtain ⟨f, hf, hfid, hfvault, hfpath⟩ := h.placed s' hs' hbare
      have hid : f.id ≠ e.id := by
        intro heq
        obtain rfl : f = e := folder_eq_of_id h.constraints.folderIds hf he heq
        exact hs.path s' hs' (hfpath.symm.trans hepath)
      exact ⟨f, mem_map.2 ⟨f, hf, writeFolder_old hid⟩, hfid.trans (hold s' hs').symm, hfvault, hfpath⟩
  · intro s' hs' e' he'
    rcases mem_cons.1 hs' with rfl | hs'
    · obtain rfl : e.id = e' := by simpa using he'
      refine ⟨fun hhas => ?_, e, he₀, rfl, hevault, hepath⟩
      obtain ⟨g, hg, hgid, hgvault⟩ := hhas
      exact hgone (hgid ▸ hgvault ▸ h.stay g hg)
    · have hne : s'.id ≠ s.id := fun heq => hs.id (heq ▸ mem_map_of_mem hs')
      exact h.maps s' hs' e' (by simpa [update_of_ne hne] using he')
  · intro id hid
    have hne : id ≠ s.id := ne_of_not_mem_cons hid
    simpa [update_of_ne hne] using h.unmapped id (not_mem_of_not_mem_cons hid)
  · intro s' hs' q hq
    rcases mem_cons.1 hs' with rfl | hs'
    · exact .tail _ (hs.parent q hq)
    · exact .tail _ (h.closed s' hs' q hq)

/-- a folder of the checkpoint that is gone comes back -/
theorem FolderInv.inserts (hgone : ¬ HasFolder p.db.folders vaultId s.id) {db' : Db Id} (hinsert : checked key
      { p.db with folders := p.db.folders ++
          [⟨s.id, vaultId, s.parentId.map (mapped p.folderIdMap), s.name, s.path⟩] } = some db') (n : ℕ) :
    FolderInv key vaultId db₀ c (s :: done) { p with db := db', foldersCreated := n } := by
  obtain ⟨hok, rfl⟩ := checked_eq_some.1 hinsert
  have hmapped : mapped p.folderIdMap s.id = s.id := by simp [mapped, h.unmapped s.id hs.id]
  refine ⟨?_, hok, ?_, ?_, ?_, ?_, ?_, ?_⟩
  · rw [h.frame]
  · intro f hf
    obtain ⟨g, hg, hrest⟩ := h.stay f hf
    exact ⟨g, mem_append_left _ hg, hrest⟩
  · intro f hf
    rcases mem_snoc.1 hf with hf | rfl
    · exact (h.rows f hf).of_ne fun hvault hid => hgone ⟨f, hf, hid, hvault⟩
    · exact .inr ⟨rfl, s, .head _, hmapped.symm, rfl, rfl, .inl rfl⟩
  · intro s' hs' hbare
    rcases mem_cons.1 hs' with rfl | hs'
    · exact ⟨_, mem_append_right _ (mem_singleton_self _), hmapped.symm, rfl, rfl⟩
    · obtain ⟨f, hf, hrest⟩ := h.placed s' hs' hbare
      exact ⟨f, mem_append_left _ hf, hrest⟩
  · intro s' hs' e he
    rcases mem_cons.1 hs' with rfl | hs'
    · exact absurd ((h.unmapped s'.id hs.id).symm.trans he) (by simp)
    · exact h.maps s' hs' e he
  · exact fun id hid => h.unmapped id fun hmem => hid (.tail _ hmem)
  · intro s' hs' q hq
    rcases mem_cons.1 hs' with rfl | hs'
    · exact .tail _ (hs.parent q hq)
    · exact .tail _ (h.closed s' hs' q hq)

theorem FolderInv.revertFolder
    (hrevert : revertFolder key vaultId p s = some p') : FolderInv key vaultId db₀ c (s :: done) p' := by
  unfold VaultRevert.revertFolder at hrevert
  split at hrevert
  · next hthere =>
    obtain ⟨db', hwrite, rfl⟩ := Option.map_eq_some_iff.1 hrevert
    exact h.writes hs hthere hwrite
  · next hgone =>
    split at hrevert
    · next e hfind =>
      obtain ⟨db', hwrite, rfl⟩ := Option.map_eq_some_iff.1 hrevert
      have he := find?_some hfind
      simp only [decide_eq_true_eq] at he
      exact h.standsIn hs hgone (mem_of_find?_eq_some hfind) he.1 he.2 hwrite
    · obtain ⟨db', hinsert, rfl⟩ := Option.map_eq_some_iff.1 hrevert
      exact h.inserts hs hgone hinsert _

end

/-- the folders of a checkpoint, in an order in which each finds its parent done -/
structure Orderly (vaultId : Id) (db₀ : Db Id) (c : Checkpoint Id) (folders : List (CheckpointFolder Id)) : Prop where
  ids : folders.Pairwise fun s t => s.id ≠ t.id
  paths : folders.Pairwise fun s t => s.path ≠ t.path
  parents : ∀ done s todo, folders = done ++ s :: todo → ∀ q ∈ s.parentId, q ∈ folderIds done
  apart : folders.Pairwise fun s t => Takes db₀ vaultId s t → Bare c s.id

theorem FolderInv.revertFolders {folders todo : List (CheckpointFolder Id)} (horder : Orderly vaultId db₀ c folders)
    (hsplit : folders = done.reverse ++ todo) (h : FolderInv key vaultId db₀ c done p)
    (hrevert : revertFolders key vaultId p todo = some p') : FolderInv key vaultId db₀ c folders.reverse p' := by
  induction todo generalizing done p with
  | nil =>
    rw [hsplit, append_nil, reverse_reverse]
    cases hrevert
    exact h
  | cons s todo ih =>
    obtain ⟨p₁, hstep, hrest⟩ := Option.bind_eq_some_iff.1 hrevert
    have hbefore : ∀ {R : CheckpointFolder Id → CheckpointFolder Id → Prop}, folders.Pairwise R →
        ∀ s' ∈ done, R s' s := by
      intro R hpairwise s' hs'
      rw [hsplit] at hpairwise
      exact (pairwise_append.1 hpairwise).2.2 s' (mem_reverse.2 hs') s mem_cons_self
    have hnext : Next vaultId db₀ c done s := by
      refine ⟨?_, hbefore horder.paths, ?_, hbefore horder.apart⟩
      · intro hmem
        obtain ⟨s', hs', hid⟩ := mem_map.1 hmem
        exact hbefore horder.ids s' hs' hid
      · intro q hq
        have hmem := horder.parents done.reverse s todo hsplit q hq
        simpa [folderIds] using hmem
    have hsplit' : folders = (s :: done).reverse ++ todo := by simp [hsplit]
    exact ih hsplit' (h.revertFolder hnext hstep) hrest

theorem FolderInv.start (hok : Constraints key db₀) : FolderInv key vaultId db₀ c [] { db := db₀ } :=
  ⟨rfl, hok, fun f hf => ⟨f, hf, rfl, rfl⟩, fun f hf => .inl ⟨hf, fun _ => not_mem_nil⟩, by simp, by simp,
    fun _ _ => rfl, by simp⟩

end

/-! ## What the notes and the files become -/

section

variable {key vaultId folderIdMap} {db₀ : Db Id}

def docIds (notes : List (CheckpointNote Id)) : List Id := notes.map CheckpointNote.id

/-- when the notes `done` have been reverted: a row is as it was, or the checkpoint's -/
structure NoteInv (key : Path → K) (vaultId : Id) (folderIdMap : Id → Option Id) (db₀ : Db Id)
    (done : List (CheckpointNote Id)) (p : NoteProgress Id) : Prop where
  frame : p.db = { db₀ with notes := p.db.notes }
  constraints : Constraints key p.db
  rows : ∀ n ∈ p.db.notes, n ∈ db₀.notes ∧ (n.vaultId = vaultId → n.id ∉ docIds done) ∨
    n.vaultId = vaultId ∧ ∃ s ∈ done, n = ⟨s.id, vaultId, s.folderId.map (mapped folderIdMap), s.title, s.relPath, false⟩
  stay : ∀ n ∈ db₀.notes, n.id ∉ docIds done → n ∈ p.db.notes
  placed : ∀ s ∈ done, s.id ∉ p.skipped → s.id ∈ noteIds p.db.notes

variable {done : List (CheckpointNote Id)} {p p' : NoteProgress Id} {s : CheckpointNote Id}

variable {n : NoteRow Id}

theorem writeNote_new {folderId : Option Id} (h : n.id = s.id) : writeNote s folderId n =
    { n with deleted := false, relPath := s.relPath, title := s.title, folderId := folderId } := if_pos h

theorem writeNote_old {folderId : Option Id} (h : n.id ≠ s.id) : writeNote s folderId n = n := if_neg h

theorem noteIds_writeNote (folderId : Option Id) (notes : List (NoteRow Id)) :
    noteIds (notes.map (writeNote s folderId)) = noteIds notes := by
  unfold noteIds
  rw [map_map]
  apply map_congr_left
  intro n _
  simp only [writeNote, comp_apply]
  split <;> rfl

theorem note_eq_of_id {notes : List (NoteRow Id)} (h : (noteIds notes).Nodup) {m : NoteRow Id} (hn : n ∈ notes)
    (hm : m ∈ notes) (hid : n.id = m.id) : n = m := inj_on_of_nodup_map h hn hm hid

/-- the other rows stay as they are to be when `s` is done -/
theorem NoteInv.rest (h : NoteInv key vaultId folderIdMap db₀ done p) (hn : n ∈ p.db.notes)
    (hne : n.vaultId = vaultId → n.id ≠ s.id) : n ∈ db₀.notes ∧ (n.vaultId = vaultId → n.id ∉ docIds (s :: done)) ∨
      n.vaultId = vaultId ∧ ∃ s' ∈ s :: done,
        n = ⟨s'.id, vaultId, s'.folderId.map (mapped folderIdMap), s'.title, s'.relPath, false⟩ := by
  rcases h.rows n hn with ⟨hold, hnot⟩ | ⟨hvault, s', hs', heq⟩
  · exact .inl ⟨hold, fun hvault => not_mem_cons_of_ne_of_not_mem (hne hvault) (hnot hvault)⟩
  · exact .inr ⟨hvault, s', .tail _ hs', heq⟩

theorem NoteInv.revertNote (h : NoteInv key vaultId folderIdMap db₀ done p) (hid : s.id ∉ docIds done)
    (hrevert : revertNote key vaultId folderIdMap p s = some p') :
    NoteInv key vaultId folderIdMap db₀ (s :: done) p' := by
  unfold VaultRevert.revertNote at hrevert
  dsimp only at hrevert
  split at hrevert
  · next hnone =>
    have hne : ∀ n ∈ p.db.notes, n.vaultId = vaultId → n.id ≠ s.id := by
      intro n hn hvault hnid
      have hno := find?_eq_none.1 hnone n hn
      simp [hnid, hvault] at hno
    split at hrevert
    · next hmem =>
      -- the id is in another vault
      cases hrevert
      refine ⟨h.frame, h.constraints, fun n hn => h.rest hn (hne n hn),
        fun n hn hnot => h.stay n hn (not_mem_of_not_mem_cons hnot), ?_⟩
      intro s' hs' hskip
      rcases mem_cons.1 hs' with rfl | hs'
      · exact hmem
      · exact h.placed s' hs' hskip
    · next hnew =>
      split at hrevert
      · cases hrevert
        refine ⟨h.frame, h.constraints, fun n hn => h.rest hn (hne n hn),
          fun n hn hnot => h.stay n hn (not_mem_of_not_mem_cons hnot), ?_⟩
        intro s' hs' hskip
        rcases mem_cons.1 hs' with rfl | hs'
        · exact absurd mem_cons_self hskip
        · exact h.placed s' hs' (not_mem_of_not_mem_cons hskip)
      · obtain ⟨db', hinsert, rfl⟩ := Option.map_eq_some_iff.1 hrevert
        obtain ⟨hok, rfl⟩ := checked_eq_some.1 hinsert
        refine ⟨by rw [h.frame], hok, ?_, ?_, ?_⟩
        · intro n hn
          rcases mem_snoc.1 hn with hn | rfl
          · exact h.rest hn (hne n hn)
          · exact .inr ⟨rfl, s, .head _, rfl⟩
        · exact fun n hn hnot => mem_append_left _ (h.stay n hn (not_mem_of_not_mem_cons hnot))
        · intro s' hs' hskip
          simp only [noteIds, map_append, map_cons, map_nil, mem_append, mem_singleton]
          rcases mem_cons.1 hs' with rfl | hs'
          · exact .inr rfl
          · exact .inl (h.placed s' hs' hskip)
  · next row hfind =>
    have hrow := find?_some hfind
    simp only [decide_eq_true_eq] at hrow
    have hmem : row ∈ p.db.notes := mem_of_find?_eq_some hfind
    have hplaced : ∀ s' ∈ s :: done, s'.id ∉ p.skipped → s'.id ∈ noteIds p.db.notes := by
      intro s' hs' hskip
      rcases mem_cons.1 hs' with rfl | hs'
      · exact hrow.1 ▸ mem_map_of_mem hmem
      · exact h.placed s' hs' hskip
    split at hrevert
    · obtain ⟨db', hwrite, rfl⟩ := Option.map_eq_some_iff.1 hrevert
      obtain ⟨hok, rfl⟩ := checked_eq_some.1 hwrite
      refine ⟨by rw [h.frame], hok, ?_, ?_, ?_⟩
      · intro n' hn'
        obtain ⟨n, hn, rfl⟩ := mem_map.1 hn'
        by_cases hnid : n.id = s.id
        · obtain rfl : n = row := note_eq_of_id h.constraints.noteIds hn hmem (hnid.trans hrow.1.symm)
          rw [writeNote_new hnid]
          refine .inr ⟨hrow.2, s, .head _, ?_⟩
          rw [hnid, hrow.2]
        · rw [writeNote_old hnid]
          exact h.rest hn fun _ => hnid
      · intro n hn hnot
        exact mem_map.2 ⟨n, h.stay n hn (not_mem_of_not_mem_cons hnot),
          writeNote_old (ne_of_not_mem_cons hnot)⟩
      · intro s' hs' hskip
        rw [noteIds_writeNote]
        exact hplaced s' hs' hskip
    · next hsame =>
      cases hrevert
      refine ⟨h.frame, h.constraints, ?_, fun n hn hnot => h.stay n hn (not_mem_of_not_mem_cons hnot), hplaced⟩
      intro n hn
      by_cases hnid : n.id = s.id
      · obtain rfl : n = row := note_eq_of_id h.constraints.noteIds hn hmem (hnid.trans hrow.1.symm)
        simp only [not_or, not_not, Bool.not_eq_true] at hsame
        refine .inr ⟨hrow.2, s, .head _, ?_⟩
        rw [← hsame.1, ← hsame.2.1, ← hsame.2.2.1, ← hsame.2.2.2, ← hnid, ← hrow.2]
      · exact h.rest hn fun _ => hnid

theorem NoteInv.revertNotes {todo : List (CheckpointNote Id)} (hids : (docIds (done.reverse ++ todo)).Nodup)
    (h : NoteInv key vaultId folderIdMap db₀ done p) (hrevert : revertNotes key vaultId folderIdMap p todo = some p') :
    NoteInv key vaultId folderIdMap db₀ (done.reverse ++ todo).reverse p' := by
  induction todo generalizing done p with
  | nil =>
    rw [append_nil, reverse_reverse]
    cases hrevert
    exact h
  | cons s todo ih =>
    obtain ⟨p₁, hstep, hrest⟩ := Option.bind_eq_some_iff.1 hrevert
    have hsplit : done.reverse ++ s :: todo = (s :: done).reverse ++ todo := by simp
    have hid : s.id ∉ docIds done := by
      intro hmem
      rw [docIds, map_append, nodup_append] at hids
      exact hids.2.2 s.id (by simpa [docIds] using hmem) s.id (by simp) rfl
    rw [hsplit] at hids ⊢
    exact ih hids (h.revertNote hid hstep) hrest

theorem NoteInv.start (hok : Constraints key db₀) : NoteInv key vaultId folderIdMap db₀ [] { db := db₀ } :=
  ⟨rfl, hok, fun _ hn => .inl ⟨hn, fun _ => not_mem_nil⟩, fun _ hn _ => hn,
    fun _ hs => absurd hs not_mem_nil⟩

/-- when the files `done` have been restored: a row is as it was, or a pinned one that was gone -/
structure FileInv (key : Path → K) (vaultId : Id) (folderIdMap : Id → Option Id) (db₀ : Db Id)
    (done : List (PinnedFile Id)) (p : FileProgress Id) : Prop where
  frame : p.db = { db₀ with files := p.db.files, fileTombstones := p.db.fileTombstones }
  constraints : Constraints key p.db
  rows : ∀ f ∈ p.db.files, f ∈ db₀.files ∨ ∃ pin ∈ done, f = ⟨pin.id, vaultId,
    (pin.folderId.map (mapped folderIdMap)).filter fun id => HasFolder db₀.folders vaultId id, pin.path⟩
  stay : db₀.files ⊆ p.db.files
  placed : ∀ pin ∈ done, pin.id ∉ p.skipped → pin.id ∈ fileIds p.db.files
  /-- what is cleared is no more than what is restored -/
  tombstones : p.db.fileTombstones ⊆ db₀.fileTombstones
  cleared : ∀ pin ∈ done, pin.id ∉ p.skipped → pin.id ∉ fileIds db₀.files → pin.id ∉ p.db.fileTombstones

section

variable {done : List (PinnedFile Id)} {p p' : FileProgress Id} {pin : PinnedFile Id}

theorem constraints_clearTombstone {db : Db Id} (h : Constraints key db) (id : Id) :
    Constraints key (clearTombstone db id) :=
  ⟨h.folderIds, h.folderPaths, h.folderParents, h.noteIds, h.notePaths, h.noteFolders, h.fileIds, h.filePaths,
    h.fileFolders⟩

theorem notMem_clearTombstone {db : Db Id} {id id' : Id} (h : id' = id ∨ id' ∉ db.fileTombstones) :
    id' ∉ (clearTombstone db id).fileTombstones := by
  intro hmem
  obtain ⟨hmem, hne⟩ := mem_filter.1 hmem
  rcases h with rfl | hnot
  · simp at hne
  · exact hnot hmem

theorem FileInv.restoreFile (h : FileInv key vaultId folderIdMap db₀ done p)
    (hrestore : restoreFile key vaultId folderIdMap p pin = some p') :
    FileInv key vaultId folderIdMap db₀ (pin :: done) p' := by
  have hrows : ∀ f ∈ p.db.files, f ∈ db₀.files ∨ ∃ pin' ∈ pin :: done, f = ⟨pin'.id, vaultId,
      (pin'.folderId.map (mapped folderIdMap)).filter fun id => HasFolder db₀.folders vaultId id, pin'.path⟩ := by
    intro f hf
    exact (h.rows f hf).imp_right fun ⟨pin', hpin', heq⟩ => ⟨pin', .tail _ hpin', heq⟩
  have hsub : (clearTombstone p.db pin.id).fileTombstones ⊆ db₀.fileTombstones :=
    fun id hid => h.tombstones (mem_filter.1 hid).1
  unfold VaultRevert.restoreFile at hrestore
  split at hrestore
  · next hlive =>
    cases hrestore
    obtain ⟨f, hf, hid, _⟩ := hlive
    refine ⟨h.frame, h.constraints, hrows, h.stay, ?_, h.tombstones, ?_⟩
    · intro pin' hpin' hskip
      rcases mem_cons.1 hpin' with rfl | hpin'
      · exact hid ▸ mem_map_of_mem hf
      · exact h.placed pin' hpin' hskip
    · intro pin' hpin' hskip hnew
      rcases mem_cons.1 hpin' with rfl | hpin'
      · -- it was restored before
        rcases h.rows f hf with hold | ⟨pin'', hpin'', heq⟩
        · exact absurd (hid ▸ mem_map_of_mem hold) hnew
        · have hsame : pin''.id = pin'.id := by rw [← hid, heq]
          exact hsame ▸ h.cleared pin'' hpin'' (hsame ▸ hskip) (hsame ▸ hnew)
      · exact h.cleared pin' hpin' hskip hnew
  · split at hrestore
    · next hmem =>
      cases hrestore
      refine ⟨by rw [clearTombstone, h.frame], constraints_clearTombstone h.constraints pin.id, hrows, h.stay, ?_, hsub, ?_⟩
      · intro pin' hpin' hskip
        rcases mem_cons.1 hpin' with rfl | hpin'
        · exact hmem
        · exact h.placed pin' hpin' hskip
      · intro pin' hpin' hskip hnew
        apply notMem_clearTombstone
        rcases mem_cons.1 hpin' with rfl | hpin'
        · exact .inl rfl
        · exact .inr (h.cleared pin' hpin' hskip hnew)
    · split at hrestore
      · cases hrestore
        refine ⟨h.frame, h.constraints, hrows, h.stay, ?_, h.tombstones, ?_⟩
        · intro pin' hpin' hskip
          rcases mem_cons.1 hpin' with rfl | hpin'
          · exact absurd mem_cons_self hskip
          · exact h.placed pin' hpin' (not_mem_of_not_mem_cons hskip)
        · intro pin' hpin' hskip hnew
          rcases mem_cons.1 hpin' with rfl | hpin'
          · exact absurd mem_cons_self hskip
          · exact h.cleared pin' hpin' (not_mem_of_not_mem_cons hskip) hnew
      · obtain ⟨db', hinsert, rfl⟩ := Option.map_eq_some_iff.1 hrestore
        obtain ⟨hok, rfl⟩ := checked_eq_some.1 hinsert
        refine ⟨by rw [clearTombstone, h.frame], constraints_clearTombstone hok pin.id, ?_,
          subset_append_of_subset_left _ h.stay, ?_, hsub, ?_⟩
        · intro f hf
          rcases mem_snoc.1 hf with hf | rfl
          · exact hrows f hf
          · refine .inr ⟨pin, .head _, ?_⟩
            rw [h.frame]
        · intro pin' hpin' hskip
          simp only [clearTombstone, fileIds, map_append, map_cons, map_nil, mem_append,
            mem_singleton]
          rcases mem_cons.1 hpin' with rfl | hpin'
          · exact .inr rfl
          · exact .inl (h.placed pin' hpin' hskip)
        · intro pin' hpin' hskip hnew
          apply notMem_clearTombstone
          rcases mem_cons.1 hpin' with rfl | hpin'
          · exact .inl rfl
          · exact .inr (h.cleared pin' hpin' hskip hnew)

theorem FileInv.restoreFiles {todo : List (PinnedFile Id)} (h : FileInv key vaultId folderIdMap db₀ done p)
    (hrestore : restoreFiles key vaultId folderIdMap p todo = some p') :
    FileInv key vaultId folderIdMap db₀ (todo.reverse ++ done) p' := by
  induction todo generalizing done p with
  | nil =>
    cases hrestore
    exact h
  | cons pin todo ih =>
    obtain ⟨p₁, hstep, hrest⟩ := Option.bind_eq_some_iff.1 hrestore
    rw [reverse_cons, append_assoc, singleton_append]
    exact ih (h.restoreFile hstep) hrest

theorem FileInv.start (hok : Constraints key db₀) : FileInv key vaultId folderIdMap db₀ [] { db := db₀ } :=
  ⟨rfl, hok, fun _ => .inl, Subset.refl _, fun _ hpin => absurd hpin not_mem_nil,
    Subset.refl _, fun _ hpin => absurd hpin not_mem_nil⟩

end

end

/-! ## What a whole revert leaves -/

section

variable {key vaultId sha256Hex} {v v' : Vault Id} {c : Checkpoint Id} {o : VaultRevertOutcome Id}

theorem frame_revertFolders {p p' : FolderProgress Id} {folders : List (CheckpointFolder Id)}
    (hok : Constraints key p.db) (h : revertFolders key vaultId p folders = some p') :
    Constraints key p'.db ∧ p'.db = { p.db with folders := p'.db.folders } := by
  induction folders generalizing p with
  | nil =>
    cases h
    exact ⟨hok, rfl⟩
  | cons s folders ih =>
    obtain ⟨p₁, hstep, hrest⟩ := Option.bind_eq_some_iff.1 h
    have hone : Constraints key p₁.db ∧ p₁.db = { p.db with folders := p₁.db.folders } := by
      unfold revertFolder at hstep
      split at hstep
      on_goal 2 => split at hstep
      all_goals
        obtain ⟨db', hwrite, rfl⟩ := Option.map_eq_some_iff.1 hstep
        obtain ⟨hdb, rfl⟩ := checked_eq_some.1 hwrite
        exact ⟨hdb, rfl⟩
    obtain ⟨hlast, hframe⟩ := ih hone.1 hrest
    exact ⟨hlast, by rw [hframe, hone.2]⟩

/-- what is there when the transaction commits -/
theorem revertStructure_eq_some {localeLe : Path → Path → Bool} {db : Db Id} {r : Structure Id}
    (hok : Constraints key db) (hids : (docIds c.notes).Nodup) (hr : revertStructure key localeLe db c = some r) :
    ∃ p pn pf, revertFolders key c.vaultId { db := db } (byDepth localeLe c.folders) = some p ∧
      p.db = { db with folders := p.db.folders } ∧ NoteInv key c.vaultId p.folderIdMap p.db c.notes.reverse pn ∧
      FileInv key c.vaultId p.folderIdMap pn.db (c.files.reverse ++ []) pf ∧ Constraints key r.db ∧
      r.db = { pf.db with notes := pf.db.notes.map fun n =>
        { n with deleted := n.deleted || isDoomed c.vaultId (docIds c.notes) n } } ∧
      r.skippedNotes = pn.skipped ∧ r.skippedFiles = pf.skipped := by
  obtain ⟨p, hfolders, hr⟩ := Option.bind_eq_some_iff.1 hr
  obtain ⟨pn, hnotes, hr⟩ := Option.bind_eq_some_iff.1 hr
  obtain ⟨pf, hfiles, hr⟩ := Option.bind_eq_some_iff.1 hr
  obtain ⟨⟨db', docsDeleted⟩, hdelete, hr⟩ := Option.bind_eq_some_iff.1 hr
  cases hr
  obtain ⟨hp, hframe⟩ := frame_revertFolders hok hfolders
  have hpn : NoteInv key c.vaultId p.folderIdMap p.db c.notes.reverse pn :=
    NoteInv.revertNotes (show (docIds ([].reverse ++ c.notes)).Nodup from hids) (NoteInv.start hp) hnotes
  have hpf : FileInv key c.vaultId p.folderIdMap pn.db (c.files.reverse ++ []) pf :=
    (FileInv.start hpn.constraints).restoreFiles hfiles
  unfold deleteOthers at hdelete
  dsimp only at hdelete
  split at hdelete
  · cases hdelete
  cases hdelete
  have hok := hpf.constraints
  refine ⟨p, pn, pf, hfolders, hframe, hpn, hpf, ⟨hok.folderIds, hok.folderPaths, hok.folderParents, ?_, ?_, ?_,
    hok.fileIds, hok.filePaths, hok.fileFolders⟩, rfl, rfl, rfl⟩
  · simpa [noteIds, Function.comp_def] using hok.noteIds
  · intro n' hn' m' hm' hvault hpath hlive hlive'
    obtain ⟨n, hn, rfl⟩ := mem_map.1 hn'
    obtain ⟨m, hm, rfl⟩ := mem_map.1 hm'
    exact hok.notePaths n hn m hm hvault hpath (Bool.or_eq_false_iff.1 hlive).1 (Bool.or_eq_false_iff.1 hlive').1
  · intro n' hn' q hq
    obtain ⟨n, hn, rfl⟩ := mem_map.1 hn'
    exact hok.noteFolders n hn q hq

/-- **Revert.** The live notes of the vault are the checkpoint's, at their paths and with their titles; each that is not
skipped has its row. No row goes: a note that is not of the checkpoint is at most marked as deleted. -/
theorem vault_reverted {localeLe : Path → Path → Bool} {accepts : Id → Bool} (hok : Constraints key v.db)
    (hids : (docIds c.notes).Nodup)
    (h : revertVaultToCheckpoint key sha256Hex localeLe accepts v c = (v', some o)) :
    Constraints key v'.db ∧
      (∀ n ∈ v'.db.notes, n.vaultId = c.vaultId → n.deleted = false →
        ∃ s ∈ c.notes, n.id = s.id ∧ n.relPath = s.relPath ∧ n.title = s.title) ∧
      (∀ s ∈ c.notes, s.id ∉ o.skippedNotes →
        ∃ n ∈ v'.db.notes, n.id = s.id ∧ (n.vaultId = c.vaultId → n.deleted = false)) ∧
      (∀ n ∈ v.db.notes, n.id ∉ docIds c.notes →
        { n with deleted := n.deleted || n.vaultId = c.vaultId } ∈ v'.db.notes) ∧
      v.db.files ⊆ v'.db.files ∧ ∀ pin ∈ c.files, pin.id ∉ o.skippedFiles → pin.id ∈ fileIds v'.db.files := by
  unfold revertVaultToCheckpoint at h
  split at h
  · simp at h
  next r hr =>
  cases h
  obtain ⟨p, pn, pf, _, hframe, hpn, hpf, hdb, heq, hskipped, hskippedFiles⟩ := revertStructure_eq_some hok hids hr
  have hsame : pf.db.notes = pn.db.notes := by rw [hpf.frame]
  have hold : p.db.notes = v.db.notes ∧ pn.db.files = v.db.files := by rw [hpn.frame, hframe]; exact ⟨rfl, rfl⟩
  have hdone : docIds c.notes.reverse = (docIds c.notes).reverse := map_reverse
  dsimp only
  rw [heq] at hdb ⊢
  rw [hskipped, hskippedFiles]
  refine ⟨hdb, ?_, ?_, ?_, ?_, ?_⟩
  · intro n' hn' hvault hlive
    obtain ⟨n, hn, rfl⟩ := mem_map.1 hn'
    rcases hpn.rows n (hsame ▸ hn) with ⟨_, hnot⟩ | ⟨_, s, hs, rfl⟩
    · -- it would have been deleted
      obtain ⟨hlive, hkept⟩ := Bool.or_eq_false_iff.1 hlive
      have hnot : n.id ∉ docIds c.notes := by simpa [hdone] using hnot hvault
      exact absurd ⟨hvault, hlive, hnot⟩ (of_decide_eq_false hkept)
    · exact ⟨s, mem_reverse.1 hs, rfl, rfl, rfl⟩
  · intro s hs hskip
    obtain ⟨n, hn, hid⟩ := mem_map.1 (hpn.placed s (mem_reverse.2 hs) hskip)
    have hmem : s.id ∈ docIds c.notes := mem_map_of_mem hs
    refine ⟨_, mem_map_of_mem (hsame ▸ hn), hid, fun hvault => ?_⟩
    rcases hpn.rows n hn with ⟨_, hnot⟩ | ⟨_, s', hs', rfl⟩
    · exact absurd (hid ▸ hmem) (by simpa [hdone] using hnot hvault)
    · have hmem' : s'.id ∈ docIds c.notes := mem_map_of_mem (mem_reverse.1 hs')
      simp [isDoomed, hmem']
  · intro n hn hnot
    refine mem_map.2 ⟨n, hsame ▸ hpn.stay n (hold.1 ▸ hn) (by simpa [hdone] using hnot), ?_⟩
    cases hdel : n.deleted <;> simp [isDoomed, hnot, hdel]
  · exact hold.2 ▸ hpf.stay
  · intro pin hpin hskip
    exact hpf.placed pin (by simpa using hpin) hskip

/-- a note in the trash comes back, and one that was made since goes there -/
theorem trashed_note_reverted :
    let r := revertVaultToCheckpoint id id (fun _ _ => true) (fun _ => true)
      ⟨⟨[], [⟨1, 9, none, none, ['c'], true⟩, ⟨2, 9, none, none, ['b'], false⟩], [], [], []⟩, fun _ => none⟩
      ⟨9, [], [⟨1, none, none, ['a']⟩], [], []⟩
    ⟨2, 9, none, none, ['b'], true⟩ ∈ r.1.db.notes := by
  intro r
  have hr : ∃ o, r = (r.1, some o) := by
    simp only [r, revertVaultToCheckpoint, revertStructure, byDepth, mergeSort_nil]
    exact ⟨_, rfl⟩
  obtain ⟨o, hr⟩ := hr
  exact (vault_reverted (by decide) (by decide) hr).2.2.2.1 ⟨2, 9, none, none, ['b'], false⟩ (by decide) (by decide)

/-! ### Its texts -/

theorem writeTexts_eq {accepts : Id → Bool} {texts : Texts Id} {writes : List (Id × Text)}
    (h : ∀ w ∈ writes, c.texts.lookup w.1 = some w.2) (id : Id) : writeTexts accepts texts writes id =
      if accepts id = true ∧ id ∈ writes.map Prod.fst then c.texts.lookup id else texts id := by
  induction writes generalizing texts with
  | nil => simp [writeTexts]
  | cons w writes ih =>
    have hhead : c.texts.lookup w.1 = some w.2 := h w (.head _)
    unfold writeTexts at ih ⊢
    rw [foldl_cons, ih fun w' hw' => h w' (.tail _ hw')]
    by_cases hid : id = w.1
    · subst hid
      cases haccepts : accepts w.1 <;> simp [haccepts, hhead]
    · have hmem : id ∈ (w :: writes).map Prod.fst ↔ id ∈ writes.map Prod.fst := by
        simp only [map_cons, mem_cons, hid, false_or]
      simp only [hmem]
      cases accepts w.1 <;> simp [update_of_ne hid]

theorem mem_pendingWrites {texts : Texts Id} {skipped : List Id} {w : Id × Text} :
    w ∈ pendingWrites sha256Hex texts c skipped ↔ (w.1 ∈ docIds c.notes ∧ w.1 ∉ skipped) ∧
      c.texts.lookup w.1 = some w.2 ∧ sha256Hex ((texts w.1).getD []) ≠ sha256Hex w.2 ∧
        (w.2 = [] → (texts w.1).getD [] = []) := by
  have hplan : ∀ n : CheckpointNote Id, planText sha256Hex texts c n = .write w.2 ↔ c.texts.lookup n.id = some w.2 ∧
      sha256Hex ((texts n.id).getD []) ≠ sha256Hex w.2 ∧ (w.2 = [] → (texts n.id).getD [] = []) := by
    intro n
    unfold planText
    cases c.texts.lookup n.id <;> grind
  simp only [pendingWrites, docIds, mem_filterMap, mem_filter, mem_map, decide_eq_true_eq]
  grind

end

end

end Baalda.VaultRevert
