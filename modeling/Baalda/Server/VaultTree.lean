/-
The folder and document tree of the vaults (`registry/tree-ops.ts`): paths, the tables, and where an item belongs.

A path is its code points; `utf16Length` is what `path.length` counts. `key` stands for `pathKey` and for the database's
`vault_path_key`, which are to agree. A table lists its rows in the order of `created_at, id`, so `LIMIT 1` of a query
in that order is the first match. Constraints: the primary keys, one live row for each vault and path key, and foreign
keys to a folder of the same vault (deleting a folder deletes its folders and empties the `folder_id` of its documents).

An operation that fails rolls its transaction back: it is `none`, and leaves the database as it was.
-/
import Baalda.Lib.Forest
import Mathlib.Data.List.DropRight

namespace Baalda.VaultTree

open List

/-! ## Paths -/

abbrev Path := List Char

def basename (path : Path) : Path := path.rtakeWhile (· ≠ '/')

def dirname (path : Path) : Path := (path.rdropWhile (· ≠ '/')).dropLast

def joinPath (dir name : Path) : Path := if dir = [] then name else dir ++ '/' :: name

/-- `path.length`: one unit for a code point of the basic plane, two for any other -/
def utf16Length (path : Path) : ℕ := (path.map fun c => if c.val < 0x10000 then 1 else 2).sum

def validRelPath (path : Path) : Bool :=
  (path.splitOn '/').all fun seg => seg ≠ [] ∧ seg ≠ ['.'] ∧ seg ≠ ['.', '.']

/-- a name has no separator -/
theorem notMem_basename (path : Path) : '/' ∉ basename path := by
  intro h
  exact absurd (mem_rtakeWhile_imp h) (by simp)

variable {name : Path}

theorem rdropWhile_append_name (h : '/' ∉ name) (dir : Path) :
    (dir ++ name).rdropWhile (· ≠ '/') = dir.rdropWhile (· ≠ '/') := by
  induction name using reverseRecOn with
  | nil => rw [append_nil]
  | append_singleton name c ih =>
    have hc : c ≠ '/' := fun heq => h (heq ▸ mem_concat_self)
    have hname : '/' ∉ name := fun hmem => h (mem_append_left _ hmem)
    rw [← append_assoc, rdropWhile_concat_pos _ _ _ (by simpa using hc), ih hname]

theorem dirname_append (h : '/' ∉ name) (dir : Path) : dirname (dir ++ '/' :: name) = dir := by
  have hsplit : dir ++ '/' :: name = (dir ++ ['/']) ++ name := by simp
  unfold dirname
  rw [hsplit, rdropWhile_append_name h, rdropWhile_concat_neg _ _ _ (by simp), dropLast_concat]

theorem dirname_name (h : '/' ∉ name) : dirname name = [] := by
  unfold dirname
  rw [← nil_append name, rdropWhile_append_name h]
  rfl

/-- a path is in the directory it was joined to -/
theorem dirname_joinPath (h : '/' ∉ name) (dir : Path) : dirname (joinPath dir name) = dir := by
  unfold joinPath
  split
  · next hdir => rw [dirname_name h, hdir]
  · exact dirname_append h dir

/-- a path with a separator is its directory, the separator and its name -/
theorem eq_dirname_basename {path : Path} (h : '/' ∈ path) : path = dirname path ++ '/' :: basename path := by
  have hne : path.rdropWhile (· ≠ '/') ≠ [] := by
    intro hnil
    have hall := rdropWhile_eq_nil_iff.mp hnil '/' h
    cases hall
  have hlast : (path.rdropWhile (· ≠ '/')).getLast hne = '/' := by
    simpa using rdropWhile_last_not (· ≠ '/') path hne
  have hdir : path.rdropWhile (· ≠ '/') = dirname path ++ ['/'] := by
    have hsplit := dropLast_append_getLast hne
    rw [hlast] at hsplit
    exact hsplit.symm
  calc path = path.rdropWhile (· ≠ '/') ++ basename path := rdropWhile_append_rtakeWhile.symm
    _ = dirname path ++ '/' :: basename path := by rw [hdir, append_assoc, singleton_append]

/-- any path without a separator is its own name -/
theorem eq_basename {path : Path} (h : '/' ∉ path) : basename path = path := by
  apply rtakeWhile_eq_self_iff.mpr
  intro c hc
  simpa using fun heq : c = '/' => h (heq ▸ hc)

theorem joinPath_dirname_basename {path : Path} (h : validRelPath path = true) :
    joinPath (dirname path) (basename path) = path := by
  by_cases hslash : '/' ∈ path
  · have hsplit := eq_dirname_basename hslash
    have hne : dirname path ≠ [] := by
      intro hnil
      rw [hnil, nil_append] at hsplit
      unfold validRelPath at h
      rw [hsplit, splitOn_cons_eq_if_modifyHead] at h
      simp at h
    rw [joinPath, if_neg hne]
    exact hsplit.symm
  · have hdir : dirname path = [] := dirname_name hslash
    rw [hdir, joinPath, if_pos rfl, eq_basename hslash]

/-! ## Tables -/

variable {Id K : Type*}

structure FolderRow (Id : Type*) where
  id : Id
  vaultId : Id
  parentId : Option Id
  name : Path
  path : Path
  deriving DecidableEq

structure NoteRow (Id : Type*) where
  id : Id
  vaultId : Id
  folderId : Option Id
  title : Option Path
  relPath : Path
  /-- `deleted_at` is set -/
  deleted : Bool
  deriving DecidableEq

structure FileRow (Id : Type*) where
  id : Id
  vaultId : Id
  folderId : Option Id
  path : Path
  deriving DecidableEq

structure Db (Id : Type*) where
  folders : List (FolderRow Id)
  notes : List (NoteRow Id)
  files : List (FileRow Id)
  folderTombstones : List Id := []
  fileTombstones : List Id := []
  deriving DecidableEq

/-- why `tree-ops` refuses -/
inductive TreeOpError (Id : Type*) where
  | invalidPath (path : Path)
  | unknownFolder
  | unknownParent
  | unknownDestination
  | otherVault
  | notInside (path parent : Path)
  | noFolderAt (dir : Path)
  | insideItself
  | folderExists
  | unknownNote
  | noteExists
  deriving DecidableEq

section

variable [DecidableEq Id] [DecidableEq K] (key : Path → K)

def samePath (a b : Path) : Bool := a = b || key a = key b

def findFolder (folders : List (FolderRow Id)) (folderId : Id) : Option (FolderRow Id) :=
  folders.find? fun f => f.id = folderId

def findFolderByPath (folders : List (FolderRow Id)) (vaultId : Id) (path : Path) : Option (FolderRow Id) :=
  folders.find? fun f => f.vaultId = vaultId ∧ key f.path = key path

/-- `resolveFolderParent`, and `resolveParentFolder` but for its texts: the parent's id, and the path on its spelling -/
def resolveParent (folders : List (FolderRow Id)) (vaultId : Id) (path : Path) (parentId : Option Id) :
    Except (TreeOpError Id) (Option Id × Path) :=
  if !validRelPath path then .error (.invalidPath path)
  else match parentId with
    | some parentId => match findFolder folders parentId with
      | none => .error .unknownParent
      | some parent =>
        if parent.vaultId ≠ vaultId then .error .otherVault
        else if !samePath key parent.path (dirname path) then .error (.notInside path parent.path)
        else .ok (some parent.id, joinPath parent.path (basename path))
    | none =>
      if dirname path = [] then .ok (none, path)
      else match findFolderByPath key folders vaultId (dirname path) with
        | none => .error (.noFolderAt (dirname path))
        | some parent => .ok (some parent.id, joinPath parent.path (basename path))

/-- `MoveFolderInput` -/
structure MoveFolderInput (Id : Type*) where
  path : Option Path := none
  name : Option Path := none
  /-- `some none` moves it to the root -/
  parentId : Option (Option Id) := none
  deriving DecidableEq

section

variable (folders : List (FolderRow Id))

def planFolderMove (folder : FolderRow Id) (input : MoveFolderInput Id) : Except (TreeOpError Id) (Path × Option Id) :=
  match input.path with
  | some path => match resolveParent key folders folder.vaultId path (input.parentId.getD none) with
    | .ok (parentId, path) => .ok (path, parentId)
    | .error e => .error e
  | none => match input.parentId with
    | some none => .ok (input.name.getD (basename folder.path), none)
    | some (some parentId) => match findFolder folders parentId with
      | none => .error .unknownDestination
      | some parent =>
        if parent.vaultId ≠ folder.vaultId then .error .otherVault
        else .ok (parent.path ++ '/' :: input.name.getD (basename folder.path), some parent.id)
    | none => match input.name with
      | some name =>
        if name ≠ basename folder.path then .ok (joinPath (dirname folder.path) name, folder.parentId)
        else .ok (folder.path, folder.parentId)
      | none => .ok (folder.path, folder.parentId)

def parentOf (id : Id) : Option Id := (findFolder folders id).bind FolderRow.parentId

def ids : List Id := folders.map FolderRow.id

/-- would the folder hang from itself, or from a folder below it -/
def wouldCycle (folderId candidateParentId : Id) : Bool :=
  candidateParentId = folderId ||
    candidateParentId ∈ Forest.descendants (ids folders) (parentOf folders)
      (Forest.children (ids folders) (parentOf folders) [folderId])

end

/-- `path LIKE oldPath || '/%'` -/
def isBelow (oldPath path : Path) : Bool := (oldPath ++ ['/']).isPrefixOf path

/-- `newPath || substring(path FROM oldPath.length + 1)` -/
def rewritten (oldPath newPath path : Path) : Path := newPath ++ path.drop (utf16Length oldPath)

end

end Baalda.VaultTree
