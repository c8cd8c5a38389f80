/-
The operations on the tree of the vaults, each as one transaction (`registry/tree-ops.ts`, and the registrations of
`registry/batch-ops.ts` that are not in `RegisterNotes`).

A statement that would break a constraint fails (`checked`); the rows one statement writes are checked when it is done.
An operation that fails is `none`. What an operation reads of permissions is its input.
-/
import Baalda.Server.FileRaces

namespace Baalda.TreeOps

open VaultTree RegisterNotes
open FileRaces (FileInput fileByKey toFile fileIds moveRow isTransientPath)

variable {Id K : Type*}

/-! ## Constraints -/

section

variable [DecidableEq Id] [DecidableEq K] (key : Path → K)

def HasFolder (folders : List (FolderRow Id)) (vaultId id : Id) : Prop := ∃ f ∈ folders, f.id = id ∧ f.vaultId = vaultId

instance (folders : List (FolderRow Id)) (vaultId id : Id) : Decidable (HasFolder folders vaultId id) :=
  inferInstanceAs (Decidable (∃ f ∈ folders, f.id = id ∧ f.vaultId = vaultId))

/-- the primary keys, the unique indexes on vault and path key, and the foreign keys to folders of the same vault -/
structure Constraints (db : Db Id) : Prop where
  folderIds : (ids db.folders).Nodup
  folderPaths : ∀ f ∈ db.folders, ∀ g ∈ db.folders, f.vaultId = g.vaultId → key f.path = key g.path → f.id = g.id
  folderParents : ∀ f ∈ db.folders, ∀ p ∈ f.parentId, HasFolder db.folders f.vaultId p
  noteIds : (noteIds db.notes).Nodup
  notePaths : ∀ n ∈ db.notes, ∀ m ∈ db.notes, n.vaultId = m.vaultId → key n.relPath = key m.relPath →
    n.deleted = false → m.deleted = false → n.id = m.id
  noteFolders : ∀ n ∈ db.notes, ∀ p ∈ n.folderId, HasFolder db.folders n.vaultId p
  fileIds : (fileIds db.files).Nodup
  filePaths : ∀ f ∈ db.files, ∀ g ∈ db.files, f.vaultId = g.vaultId → key f.path = key g.path → f.id = g.id
  fileFolders : ∀ f ∈ db.files, ∀ p ∈ f.folderId, HasFolder db.folders f.vaultId p

instance (db : Db Id) : Decidable (Constraints key db) :=
  decidable_of_iff (((ids db.folders).Nodup ∧
      (∀ f ∈ db.folders, ∀ g ∈ db.folders, f.vaultId = g.vaultId → key f.path = key g.path → f.id = g.id) ∧
      ∀ f ∈ db.folders, ∀ p ∈ f.parentId, HasFolder db.folders f.vaultId p) ∧
    ((noteIds db.notes).Nodup ∧
      (∀ n ∈ db.notes, ∀ m ∈ db.notes, n.vaultId = m.vaultId → key n.relPath = key m.relPath →
        n.deleted = false → m.deleted = false → n.id = m.id) ∧
      ∀ n ∈ db.notes, ∀ p ∈ n.folderId, HasFolder db.folders n.vaultId p) ∧
    (fileIds db.files).Nodup ∧
      (∀ f ∈ db.files, ∀ g ∈ db.files, f.vaultId = g.vaultId → key f.path = key g.path → f.id = g.id) ∧
      ∀ f ∈ db.files, ∀ p ∈ f.folderId, HasFolder db.folders f.vaultId p)
    ⟨fun ⟨⟨h₁, h₂, h₃⟩, ⟨h₄, h₅, h₆⟩, h₇, h₈, h₉⟩ => ⟨h₁, h₂, h₃, h₄, h₅, h₆, h₇, h₈, h₉⟩,
      fun h => ⟨⟨h.folderIds, h.folderPaths, h.folderParents⟩, ⟨h.noteIds, h.notePaths, h.noteFolders⟩,
        h.fileIds, h.filePaths, h.fileFolders⟩⟩

/-- what a statement leaves, unless it breaks a constraint -/
def checked (db : Db Id) : Option (Db Id) := if Constraints key db then some db else none

/-! ## Registrations -/

structure FolderInput (Id : Type*) where
  path : Path
  name : Path
  parentId : Option Id := none
  minted : Id
  deriving DecidableEq

/-- what a registration is told of permissions -/
structure Reads (Id : Type*) where
  canSeeFolder : Id → Bool
  canCreateIn : Option Id → Bool
  canAdoptDoc : Id → Bool
  canEditDoc : Id → Bool
  rootFrozen : Bool
  /-- `none`: no limit -/
  cap : Option ℕ

def toFolder (f : FolderRow Id) : Registered Id := ⟨f.id, f.parentId, some f.name, f.path⟩

variable (db : Db Id) (vaultId : Id) (reads : Reads Id)

def adoptFolder (f : FolderRow Id) : RegisterResult Id :=
  if reads.canSeeFolder f.id then .adopted (toFolder f) else .error .notReadable

def adoptFile (f : FileRow Id) : RegisterResult Id :=
  if reads.canAdoptDoc f.id then .adopted (toFile f) else .error .notReadable

def registerFolder (input : FolderInput Id) : Option (Db Id × RegisterResult Id) :=
  match findFolderByPath key db.folders vaultId input.path with
  | some existing => some (db, adoptFolder reads existing)
  | none => match resolveParent key db.folders vaultId input.path input.parentId with
    | .error e => some (db, .error (.pathFolderMismatch e))
    | .ok (parentId, storedPath) =>
      if !reads.canCreateIn parentId then some (db, .error .noWriteAccess)
      else if parentId = none ∧ reads.rootFrozen then some (db, .error .rootFrozen)
      else
        let row : FolderRow Id := ⟨input.minted, vaultId, parentId, input.name, storedPath⟩
        match checked key { db with folders := db.folders ++ [row] } with
        | some db' => some (db', .created (toFolder row))
        | none => (findFolderByPath key db.folders vaultId storedPath).map fun winner => (db, adoptFolder reads winner)

def registerNotes (inputs : List (NoteInput Id)) : Option (Db Id × List (RegisterResult Id)) :=
  let env : Env Id K :=
    ⟨key, vaultId, db.folders, reads.canCreateIn, reads.canAdoptDoc, reads.rootFrozen, reads.cap⟩
  (RegisterNotes.registerNotes env db.notes inputs).map fun r => ({ db with notes := r.1 }, r.2)

/-- a write of `registerFile` that lost its path adopts the winner -/
def writeFile (files : List (FileRow Id)) (storedPath : Path) (result : RegisterResult Id) :
    Option (Db Id × RegisterResult Id) :=
  match checked key { db with files := files } with
  | some db' => some (db', result)
  | none => (fileByKey key vaultId db.files (key storedPath)).map fun winner => (db, adoptFile reads winner)

def registerFile (input : FileInput Id) : Option (Db Id × RegisterResult Id) :=
  match fileByKey key vaultId db.files (key input.path) with
  | some f => some (db, adoptFile reads f)
  | none =>
    if isTransientPath input.path then some (db, .error (.transientFile input.path))
    else match resolveParent key db.folders vaultId input.path input.folderId with
      | .error e => some (db, .error (.pathFolderMismatch e))
      | .ok (folderId, storedPath) =>
        let canonical := if samePath key storedPath input.path then none
          else fileByKey key vaultId db.files (key storedPath)
        match canonical with
        | some f => some (db, adoptFile reads f)
        | none =>
          let row : Registered Id := ⟨input.id, folderId, none, storedPath⟩
          if !reads.canCreateIn folderId then some (db, .error .noWriteAccess)
          else match db.files.find? fun f => f.id = input.id ∧ f.vaultId = vaultId with
            | some _ =>
              if !reads.canEditDoc input.id then some (db, .error .noWriteAccess)
              else writeFile key db vaultId reads (db.files.map (moveRow input.id folderId storedPath)) storedPath
                (.adopted row)
            | none =>
              if folderId = none ∧ reads.rootFrozen then some (db, .error .rootFrozen)
              -- `ON CONFLICT (id) DO NOTHING`
              else if input.id ∈ fileIds db.files then some (db, .created row)
              else writeFile key db vaultId reads (db.files ++ [⟨input.id, vaultId, folderId, storedPath⟩]) storedPath
                (.created row)

/-! ## Moves -/

/-- `path` below a folder that moved -/
def rewriteBelow (oldPath newPath path : Path) : Path :=
  if isBelow oldPath path then rewritten oldPath newPath path else path

def rewriteDescendantPaths (oldPath newPath : Path) : Option (Db Id) := do
  let db ← checked key { db with folders := db.folders.map fun f =>
    if f.vaultId = vaultId then { f with path := rewriteBelow oldPath newPath f.path } else f }
  let db ← checked key { db with notes := db.notes.map fun n =>
    if n.vaultId = vaultId then { n with relPath := rewriteBelow oldPath newPath n.relPath } else n }
  checked key { db with files := db.files.map fun f =>
    if f.vaultId = vaultId then { f with path := rewriteBelow oldPath newPath f.path } else f }

/-- the new parent is the folder or below it -/
def closesCycle (folders : List (FolderRow Id)) (folder : FolderRow Id) (newParentId : Option Id) : Bool :=
  match newParentId with
  | some p => some p ≠ folder.parentId && wouldCycle folders folder.id p
  | none => false

/-- another folder has the new path -/
def folderClashes (folders : List (FolderRow Id)) (folder : FolderRow Id) (newPath : Path) : Bool :=
  !samePath key newPath folder.path &&
    folders.any fun f => f.vaultId = folder.vaultId ∧ key f.path = key newPath ∧ f.id ≠ folder.id

def writeFolder (id : Id) (parentId : Option Id) (name path : Path) (f : FolderRow Id) : FolderRow Id :=
  if f.id = id then { f with parentId := parentId, name := name, path := path } else f

def moveFolder (folderId : Id) (input : MoveFolderInput Id) : Option (Db Id) :=
  match findFolder db.folders folderId with
  | none => none
  | some folder => match planFolderMove key db.folders folder input with
    | .error _ => none
    | .ok (newPath, newParentId) =>
      if closesCycle db.folders folder newParentId || folderClashes key db.folders folder newPath then none
      else do
        let newName := input.name.getD (basename newPath)
        let db ← checked key { db with folders := db.folders.map (writeFolder folderId newParentId newName newPath) }
        if newPath = folder.path then some db
        else rewriteDescendantPaths key db folder.vaultId folder.path newPath

structure MoveNoteInput (Id : Type*) where
  relPath : Option Path := none
  title : Option (Option Path) := none
  /-- `some none` moves it to the root -/
  folderId : Option (Option Id) := none
  deriving DecidableEq

def planNoteMove (folders : List (FolderRow Id)) (note : NoteRow Id) (input : MoveNoteInput Id) :
    Except (TreeOpError Id) (Path × Option Id) :=
  match input.relPath with
  | some relPath => match resolveParent key folders note.vaultId relPath (input.folderId.getD none) with
    | .ok (folderId, relPath) => .ok (relPath, folderId)
    | .error e => .error e
  | none => match input.folderId with
    | some none => .ok (basename note.relPath, none)
    | some (some folderId) => match findFolder folders folderId with
      | none => .error .unknownDestination
      | some parent =>
        if parent.vaultId ≠ note.vaultId then .error .otherVault
        else .ok (parent.path ++ '/' :: basename note.relPath, some parent.id)
    | none => .ok (note.relPath, note.folderId)

/-- another live note has the new path -/
def noteClashes (notes : List (NoteRow Id)) (note : NoteRow Id) (relPath : Path) : Bool :=
  !samePath key relPath note.relPath &&
    notes.any fun n => n.vaultId = note.vaultId ∧ key n.relPath = key relPath ∧ n.deleted = false ∧ n.id ≠ note.id

def moveNote (docId : Id) (input : MoveNoteInput Id) : Option (Db Id) :=
  match db.notes.find? fun n => n.id = docId ∧ n.deleted = false with
  | none => none
  | some note => match planNoteMove key db.folders note input with
    | .error _ => none
    | .ok (relPath, folderId) =>
      if noteClashes key db.notes note relPath then none
      else checked key { db with notes := db.notes.map fun n =>
        if n.id = docId then { n with relPath := relPath, title := input.title.getD note.title, folderId := folderId }
        else n }

/-! ## Deleting a folder -/

def subtree (folders : List (FolderRow Id)) (folderId : Id) : List Id :=
  Forest.descendants (ids folders) (parentOf folders) [folderId]

/-- in one of the folders, or at or below the path -/
def isWithin (subtree : List Id) (folderPath : Path) (folderId : Option Id) (path : Path) : Bool :=
  folderId.any (· ∈ subtree) || path = folderPath || isBelow folderPath path

/-- `ON DELETE SET NULL` -/
def cleared (subtree : List Id) (folderId : Option Id) : Option Id := folderId.filter (· ∉ subtree)

def deleteFolderCascade (folderId : Id) : Option (Db Id) :=
  match findFolder db.folders folderId with
  | none => none
  | some folder =>
    let gone := subtree db.folders folderId
    let doomed := fun f : FileRow Id => f.vaultId = folder.vaultId && isWithin gone folder.path f.folderId f.path
    some {
      folders := db.folders.filter fun f => f.id ∉ gone
      notes := db.notes.map fun n => { n with
        deleted := n.deleted || n.vaultId = folder.vaultId && isWithin gone folder.path n.folderId n.relPath
        folderId := cleared gone n.folderId }
      files := (db.files.filter fun f => !doomed f).map fun f => { f with folderId := cleared gone f.folderId }
      folderTombstones := gone ∪ db.folderTombstones
      fileTombstones := fileIds (db.files.filter doomed) ∪ db.fileTombstones }

/-! ## Rows -/

section

variable {key}

theorem checked_eq_some {db db' : Db Id} : checked key db = some db' ↔ Constraints key db ∧ db = db' := by
  unfold checked
  split
  · next h => simp [h]
  · next h => simp [h]

variable {parentId : Option Id} {f : FolderRow Id}

theorem writeFolder_new {id : Id} {name path : Path} (h : f.id = id) :
    writeFolder id parentId name path f = { f with parentId := parentId, name := name, path := path } := if_pos h

theorem writeFolder_old {id : Id} {name path : Path} (h : f.id ≠ id) :
    writeFolder id parentId name path f = f := if_neg h

@[simp] theorem writeFolder_id (id : Id) (parentId : Option Id) (name path : Path) (f : FolderRow Id) :
    (writeFolder id parentId name path f).id = f.id := by
  unfold writeFolder; split <;> rfl

@[simp] theorem writeFolder_vaultId (id : Id) (parentId : Option Id) (name path : Path) (f : FolderRow Id) :
    (writeFolder id parentId name path f).vaultId = f.vaultId := by
  unfold writeFolder; split <;> rfl

theorem HasFolder.write {folders : List (FolderRow Id)} {v q id : Id} {name path : Path} (h : HasFolder folders v q) :
    HasFolder (folders.map (writeFolder id parentId name path)) v q := by
  obtain ⟨f, hf, hid, hvault⟩ := h
  exact ⟨_, List.mem_map_of_mem hf, by simpa using hid, by simpa using hvault⟩

theorem folder_eq_of_id {folders : List (FolderRow Id)} (h : (ids folders).Nodup) {g : FolderRow Id}
    (hf : f ∈ folders) (hg : g ∈ folders) (hid : f.id = g.id) : f = g := List.inj_on_of_nodup_map h hf hg hid

end

end

end Baalda.TreeOps
