/-
Who may delete a folder, and what goes with it (`canDeleteItem` of `permissions/http-gates.ts`, and the statements of
`deleteFolderCascade` of `registry/tree-ops.ts`).

The gate and the cascade each ask for the folders below with a query of their own (`subtree`); the folder rows go by the
foreign key, which deletes what hangs from what it deletes and empties the `folder_id` of the documents that are left.
Paths are matched by `LIKE` with an escaped prefix. `gate_covers_cascade`: all three are the same set, what goes is what
is in the folder by folder or by path, and a plain member who is allowed the delete made all of it.
-/
import Baalda.Lib.Like
import Baalda.Server.TreeOps

namespace Baalda.FolderDelete

open VaultTree RegisterNotes TreeOps List
open FileRaces (fileIds)

variable {Id User K : Type*}

/-! ## The gate -/

/-- the `created_by` columns -/
structure CreatedBy (Id User : Type*) where
  folder : Id → Option User
  note : Id → Option User
  file : Id → Option User

inductive DeleteRefusalCode where
  | deleteNotCreator
  | folderHasOthersItems
  | accountReadOnly
  deriving DecidableEq

inductive DeleteGate where
  | ok
  | refused (code : DeleteRefusalCode)
  deriving DecidableEq

inductive Kind where
  | note
  | file
  | folder
  deriving DecidableEq

/-- what `trim` takes off -/
def isSpace (c : Char) : Bool :=
  c.val ∈ [0x09, 0x0A, 0x0B, 0x0C, 0x0D, 0x20, 0xA0, 0x1680, 0x2028, 0x2029, 0x202F, 0x205F, 0x3000, 0xFEFF] ||
    0x2000 ≤ c.val && c.val ≤ 0x200A

def trim (s : List Char) : List Char := (s.dropWhile isSpace).rdropWhile isSpace

def isManagerRole (role : Option (List Char)) : Bool :=
  role.any fun role => (role.splitOn ',').any fun r =>
    trim r = ['o', 'w', 'n', 'e', 'r'] || trim r = ['a', 'd', 'm', 'i', 'n']

section

variable [DecidableEq Id] [DecidableEq User] [DecidableEq K]

/-- `folder_id IN (SELECT id FROM subtree) OR path = $2 OR path LIKE $3 || '/%'` -/
def inSubtree (subtree : List Id) (folderPath : Path) (folderId : Option Id) (path : Path) : Bool :=
  folderId.any (· ∈ subtree) || path = folderPath || Like.like (Like.likeEscape folderPath ++ ['/', '%']) path

variable (db : Db Id)

def hasOthersItems (createdBy : CreatedBy Id User) (userId : User) (folder : FolderRow Id) : Bool :=
  let subtree := subtree db.folders folder.id
  (db.folders.any fun f => f.id ∈ subtree ∧ createdBy.folder f.id ≠ some userId) ||
  (db.notes.any fun n => n.vaultId = folder.vaultId ∧ n.deleted = false ∧
    inSubtree subtree folder.path n.folderId n.relPath ∧ createdBy.note n.id ≠ some userId) ||
  db.files.any fun f => f.vaultId = folder.vaultId ∧
    inSubtree subtree folder.path f.folderId f.path ∧ createdBy.file f.id ≠ some userId

/-- `readOnly`: the account is -/
def canDeleteItem (createdBy : CreatedBy Id User) (readOnly : Bool) (role : Option (List Char)) (userId : User)
    (kind : Kind) (id : Id) : DeleteGate :=
  if readOnly then .refused .accountReadOnly
  else if isManagerRole role then .ok
  else match kind with
    | .note =>
      if (db.notes.find? fun n => n.id = id).bind (fun n => createdBy.note n.id) = some userId then .ok
      else .refused .deleteNotCreator
    | .file =>
      if (db.files.find? fun f => f.id = id).bind (fun f => createdBy.file f.id) = some userId then .ok
      else .refused .deleteNotCreator
    | .folder => match findFolder db.folders id with
      | none => .refused .deleteNotCreator
      | some folder =>
        if createdBy.folder folder.id ≠ some userId then .refused .deleteNotCreator
        else if hasOthersItems db createdBy userId folder then .refused .folderHasOthersItems
        else .ok

/-! ## The cascade -/

variable (folder : FolderRow Id)

/-- the live notes the first statement deletes -/
def isCascaded (n : NoteRow Id) : Bool :=
  n.vaultId = folder.vaultId ∧ n.deleted = false ∧
    inSubtree (subtree db.folders folder.id) folder.path n.folderId n.relPath

def softDeleteNotes : Db Id :=
  { db with notes := db.notes.map fun n => { n with deleted := n.deleted || isCascaded db folder n } }

/-- before the rows go -/
def tombstoneFolders : Db Id :=
  { db with folderTombstones := subtree db.folders folder.id ∪ db.folderTombstones }

def cascadedFiles : List Id :=
  fileIds (db.files.filter fun f => f.vaultId = folder.vaultId ∧
    inSubtree (subtree db.folders folder.id) folder.path f.folderId f.path)

/-- tombstones, then the rows -/
def deleteFiles (deletedFileIds : List Id) : Db Id :=
  { db with
    files := db.files.filter fun f => ¬ (f.id ∈ deletedFileIds ∧ f.vaultId = folder.vaultId)
    fileTombstones := deletedFileIds ∪ db.fileTombstones }

/-- `DELETE FROM folders`, with `ON DELETE CASCADE` of the folders and `ON DELETE SET NULL` of the documents -/
def deleteFolderRow (folderId : Id) : Db Id :=
  let left := Forest.cascade (parentOf db.folders) (ids db.folders) [folderId]
  let gone := (ids db.folders).removeAll left
  { db with
    folders := db.folders.filter fun f => f.id ∈ left
    notes := db.notes.map fun n => { n with folderId := cleared gone n.folderId }
    files := db.files.map fun f => { f with folderId := cleared gone f.folderId } }

structure Cascaded (Id : Type*) where
  db : Db Id
  vaultId : Id
  path : Path
  deletedNoteIds : List Id
  deletedFileIds : List Id

def deleteFolderCascade (folderId : Id) : Option (Cascaded Id) :=
  match findFolder db.folders folderId with
  | none => none
  | some folder =>
    let noted := tombstoneFolders (softDeleteNotes db folder) folder
    let deletedFileIds := cascadedFiles noted folder
    some {
      db := deleteFolderRow (deleteFiles noted folder deletedFileIds) folderId
      vaultId := folder.vaultId
      path := folder.path
      deletedNoteIds := noteIds (db.notes.filter (isCascaded db folder))
      deletedFileIds := deletedFileIds }

/-! ## In a folder -/

/-- at or below the folder `id`, by parents -/
def Under (folders : List (FolderRow Id)) (folderId id : Id) : Prop :=
  Relation.ReflTransGen (fun p q => ∃ f ∈ folders, f.id = q ∧ f.parentId = some p) folderId id

/-- at the folder's path, or below it -/
def AtOrBelow (folderPath path : Path) : Prop := path = folderPath ∨ ∃ rest, path = folderPath ++ '/' :: rest

/-- by folder, or by path -/
def InFolder (folder : FolderRow Id) (vaultId : Id) (folderId : Option Id) (path : Path) : Prop :=
  vaultId = folder.vaultId ∧ ((∃ q ∈ folderId, Under db.folders folder.id q) ∨ AtOrBelow folder.path path)

/-- what a delete of the folder takes and what it leaves -/
structure Covers (r : Cascaded Id) : Prop where
  folders : ∀ f ∈ db.folders, Under db.folders folder.id f.id →
    f.id ∉ ids r.db.folders ∧ f.id ∈ r.db.folderTombstones
  notes : ∀ n ∈ db.notes, n.deleted = false → InFolder db folder n.vaultId n.folderId n.relPath →
    n.id ∈ r.deletedNoteIds ∧ ∀ n' ∈ r.db.notes, n'.id = n.id → n'.deleted = true
  files : ∀ f ∈ db.files, InFolder db folder f.vaultId f.folderId f.path →
    f.id ∈ r.deletedFileIds ∧ f.id ∉ fileIds r.db.files ∧ f.id ∈ r.db.fileTombstones
  otherFolders : ∀ f ∈ db.folders, ¬ Under db.folders folder.id f.id → f ∈ r.db.folders
  otherNotes : ∀ n ∈ db.notes, ¬ InFolder db folder n.vaultId n.folderId n.relPath → n ∈ r.db.notes
  otherFiles : ∀ f ∈ db.files, ¬ InFolder db folder f.vaultId f.folderId f.path → f ∈ r.db.files

/-- the user made everything the delete takes -/
structure MadeBy (createdBy : CreatedBy Id User) (userId : User) (r : Cascaded Id) : Prop where
  folders : ∀ f ∈ db.folders, f.id ∉ ids r.db.folders → createdBy.folder f.id = some userId
  notes : ∀ n ∈ db.notes, n.deleted = false → (∃ n' ∈ r.db.notes, n'.id = n.id ∧ n'.deleted = true) →
    createdBy.note n.id = some userId
  files : ∀ f ∈ db.files, f.id ∉ fileIds r.db.files → createdBy.file f.id = some userId

/-! ## The three sets -/

section

variable {db folder} {key : Path → K}

theorem like_isBelow (folderPath path : Path) :
    Like.like (Like.likeEscape folderPath ++ ['/', '%']) path = isBelow folderPath path := by
  rw [Bool.eq_iff_iff, Like.like_below, isBelow, isPrefixOf_iff_prefix]

/-- the queries and `isWithin` -/
theorem inSubtree_eq (gone : List Id) (folderPath : Path) (folderId : Option Id) (path : Path) :
    inSubtree gone folderPath folderId path = isWithin gone folderPath folderId path := by
  rw [inSubtree, isWithin, like_isBelow]

theorem inSubtree_iff (gone : List Id) (folderPath : Path) (folderId : Option Id) (path : Path) :
    inSubtree gone folderPath folderId path = true ↔ (∃ q ∈ folderId, q ∈ gone) ∨ AtOrBelow folderPath path := by
  have hbelow : isBelow folderPath path = true ↔ ∃ rest, path = folderPath ++ '/' :: rest := by
    rw [isBelow, isPrefixOf_iff_prefix]
    refine exists_congr fun rest => ?_
    rw [append_assoc, singleton_append, eq_comm]
  rw [inSubtree_eq, isWithin, Bool.or_eq_true, Bool.or_eq_true, hbelow, decide_eq_true_eq, or_assoc]
  refine or_congr ?_ Iff.rfl
  cases folderId <;> simp

variable {q : Id}

section

variable (hdb : Constraints key db)

include hdb

theorem parentOf_iff {p : Id} :
    q ∈ ids db.folders ∧ parentOf db.folders q = some p ↔ ∃ f ∈ db.folders, f.id = q ∧ f.parentId = some p := by
  constructor
  · rintro ⟨_, hparent⟩
    obtain ⟨f, hf, hp⟩ := Option.bind_eq_some_iff.1 hparent
    exact ⟨f, mem_of_find?_eq_some hf, by simpa using find?_some hf, hp⟩
  · rintro ⟨f, hf, rfl, hp⟩
    refine ⟨mem_map_of_mem hf, ?_⟩
    cases hfind : findFolder db.folders f.id with
    | none => exact absurd (find?_eq_none.1 hfind f hf) (by simp)
    | some g =>
      have hid : g.id = f.id := by simpa using find?_some hfind
      obtain rfl := folder_eq_of_id hdb.folderIds (mem_of_find?_eq_some hfind) hf hid
      rw [parentOf, hfind, Option.bind_some, hp]

theorem under_iff_reaches {id : Id} :
    Under db.folders id q ↔ Forest.Reaches (ids db.folders) (parentOf db.folders) id q := by
  have hedges : (fun p q => q ∈ ids db.folders ∧ parentOf db.folders q = some p) =
      fun p q => ∃ f ∈ db.folders, f.id = q ∧ f.parentId = some p :=
    funext₂ fun p q => propext (parentOf_iff hdb)
  unfold Under Forest.Reaches
  rw [hedges]

/-- the queries find what is under the folder -/
theorem mem_subtree (hfolder : folder ∈ db.folders) :
    q ∈ subtree db.folders folder.id ↔ Under db.folders folder.id q := by
  rw [subtree, Forest.mem_descendants_iff_reaches, under_iff_reaches hdb]
  have hmem : folder.id ∈ ids db.folders := mem_map_of_mem hfolder
  simp [hmem]

/-- the foreign key leaves what is not -/
theorem mem_left :
    q ∈ Forest.cascade (parentOf db.folders) (ids db.folders) [folder.id] ↔
      q ∈ ids db.folders ∧ ¬ Under db.folders folder.id q := by
  rw [Forest.mem_cascade, under_iff_reaches hdb]
  simp

theorem under_vault (hfolder : folder ∈ db.folders) (h : Under db.folders folder.id q) :
    ∀ f ∈ db.folders, f.id = q → f.vaultId = folder.vaultId := by
  induction h with
  | refl =>
    intro f hf hid
    rw [folder_eq_of_id hdb.folderIds hf hfolder hid]
  | @tail p q _ hstep ih =>
    obtain ⟨g, hg, hgid, hparent⟩ := hstep
    intro f hf hid
    obtain rfl := folder_eq_of_id hdb.folderIds hf hg (hid.trans hgid.symm)
    obtain ⟨f', hf', hid', hvault⟩ := hdb.folderParents f hf p hparent
    exact hvault.symm.trans (ih f' hf' hid')

end

variable {folderId : Option Id}

/-- a row of the vault, as the queries ask for it -/
theorem inFolder_iff (hdb : Constraints key db) (hfolder : folder ∈ db.folders) {vaultId : Id} {path : Path} :
    InFolder db folder vaultId folderId path ↔
      vaultId = folder.vaultId ∧ inSubtree (subtree db.folders folder.id) folder.path folderId path = true := by
  rw [InFolder, inSubtree_iff]
  simp only [mem_subtree hdb hfolder]

theorem find_folder (hdb : Constraints key db) (hfolder : folder ∈ db.folders) :
    findFolder db.folders folder.id = some folder := by
  cases hfind : findFolder db.folders folder.id with
  | none => exact absurd (find?_eq_none.1 hfind folder hfolder) (by simp)
  | some g =>
    have hid : g.id = folder.id := by simpa using find?_some hfind
    rw [folder_eq_of_id hdb.folderIds (mem_of_find?_eq_some hfind) hfolder hid]

/-! ## What goes -/

variable {r : Cascaded Id}

section

variable (hdb : Constraints key db)

include hdb

theorem mem_removed :
    q ∈ (ids db.folders).removeAll (Forest.cascade (parentOf db.folders) (ids db.folders) [folder.id]) ↔
      q ∈ ids db.folders ∧ Under db.folders folder.id q := by
  rw [Forest.mem_removeAll, mem_left hdb]
  tauto

section

variable (hfolder : folder ∈ db.folders)

include hfolder

theorem cascaded_folders (h : deleteFolderCascade db folder.id = some r) {f : FolderRow Id} :
    f ∈ r.db.folders ↔ f ∈ db.folders ∧ ¬ Under db.folders folder.id f.id := by
  have hrows : r.db.folders = db.folders.filter fun f =>
      f.id ∈ Forest.cascade (parentOf db.folders) (ids db.folders) [folder.id] := by
    rw [deleteFolderCascade, find_folder hdb hfolder] at h
    cases h
    rfl
  rw [hrows, mem_filter, decide_eq_true_eq, mem_left hdb]
  exact and_congr_right fun hf => and_iff_right (mem_map_of_mem hf)

/-- a row of the notes, before and after -/
theorem cascaded_notes (h : deleteFolderCascade db folder.id = some r) : r.db.notes = db.notes.map fun n =>
      { n with
        deleted := n.deleted || isCascaded db folder n
        folderId := cleared ((ids db.folders).removeAll
          (Forest.cascade (parentOf db.folders) (ids db.folders) [folder.id])) n.folderId } := by
  rw [deleteFolderCascade, find_folder hdb hfolder] at h
  cases h
  simp only [deleteFolderRow, deleteFiles, tombstoneFolders, softDeleteNotes, map_map, Function.comp_def]

theorem isCascaded_iff {n : NoteRow Id} :
    isCascaded db folder n = true ↔ n.deleted = false ∧ InFolder db folder n.vaultId n.folderId n.relPath := by
  rw [inFolder_iff hdb hfolder, isCascaded, decide_eq_true_eq]
  tauto

theorem mem_cascadedFiles {f : FileRow Id} (hf : f ∈ db.files) :
    f.id ∈ cascadedFiles db folder ↔ InFolder db folder f.vaultId f.folderId f.path := by
  rw [inFolder_iff hdb hfolder, cascadedFiles, fileIds, mem_map]
  constructor
  · rintro ⟨g, hg, hid⟩
    obtain ⟨hmem, hin⟩ := mem_filter.1 hg
    obtain rfl := inj_on_of_nodup_map hdb.fileIds hmem hf hid
    simpa using hin
  · intro hin
    exact ⟨f, mem_filter.2 ⟨hf, by simpa using hin⟩, rfl⟩

theorem cascaded_files (h : deleteFolderCascade db folder.id = some r) :
    r.deletedFileIds = cascadedFiles db folder ∧
      r.db.fileTombstones = cascadedFiles db folder ∪ db.fileTombstones ∧
      r.db.files = (db.files.filter fun f => ¬ (f.id ∈ cascadedFiles db folder ∧ f.vaultId = folder.vaultId)).map
        fun f => { f with folderId := cleared ((ids db.folders).removeAll
          (Forest.cascade (parentOf db.folders) (ids db.folders) [folder.id])) f.folderId } := by
  rw [deleteFolderCascade, find_folder hdb hfolder] at h
  cases h
  exact ⟨rfl, rfl, rfl⟩

end

/-- a document that is not in the folder hangs from none that goes -/
theorem cleared_eq (h : ∀ q ∈ folderId, ¬ Under db.folders folder.id q) :
    cleared ((ids db.folders).removeAll (Forest.cascade (parentOf db.folders) (ids db.folders) [folder.id])) folderId =
      folderId := by
  cases folderId with
  | none => rfl
  | some q =>
    have hleft : q ∉ (ids db.folders).removeAll
        (Forest.cascade (parentOf db.folders) (ids db.folders) [folder.id]) :=
      fun hmem => h q rfl ((mem_removed hdb).1 hmem).2
    simp [cleared, hleft]

section

variable (hfolder : folder ∈ db.folders)

include hfolder

theorem not_under {vaultId : Id} {path : Path}
    (hthere : ∀ q ∈ folderId, HasFolder db.folders vaultId q) (h : ¬ InFolder db folder vaultId folderId path) :
    ∀ q ∈ folderId, ¬ Under db.folders folder.id q := by
  intro q hq hunder
  obtain ⟨f, hf, hid, hvault⟩ := hthere q hq
  exact h ⟨hvault.symm.trans (under_vault hdb hfolder hunder f hf hid), .inl ⟨q, hq, hunder⟩⟩

theorem covers (h : deleteFolderCascade db folder.id = some r) : Covers db folder r := by
  obtain ⟨hids, htombs, hfiles⟩ := cascaded_files hdb hfolder h
  refine ⟨?_, ?_, ?_, ?_, ?_, ?_⟩
  · intro f hf hunder
    refine ⟨fun hmem => ?_, ?_⟩
    · obtain ⟨g, hg, hid⟩ := mem_map.1 hmem
      exact ((cascaded_folders hdb hfolder h).1 hg).2 (hid ▸ hunder)
    · rw [deleteFolderCascade, find_folder hdb hfolder] at h
      cases h
      exact mem_union_left ((mem_subtree hdb hfolder).2 hunder) _
  · intro n hn hlive hin
    have hgone : isCascaded db folder n = true := (isCascaded_iff hdb hfolder).2 ⟨hlive, hin⟩
    refine ⟨?_, fun n' hn' hid => ?_⟩
    · rw [deleteFolderCascade, find_folder hdb hfolder] at h
      cases h
      exact mem_map_of_mem (mem_filter.2 ⟨hn, hgone⟩)
    · rw [cascaded_notes hdb hfolder h] at hn'
      obtain ⟨m, hm, rfl⟩ := mem_map.1 hn'
      obtain rfl := inj_on_of_nodup_map hdb.noteIds hm hn hid
      simp [hgone]
  · intro f hf hin
    have hgone : f.id ∈ cascadedFiles db folder := (mem_cascadedFiles hdb hfolder hf).2 hin
    refine ⟨hids ▸ hgone, fun hmem => ?_, htombs ▸ mem_union_left hgone _⟩
    rw [hfiles] at hmem
    obtain ⟨g', hg', hid⟩ := mem_map.1 hmem
    obtain ⟨g, hg, rfl⟩ := mem_map.1 hg'
    obtain ⟨hmem, hkept⟩ := mem_filter.1 hg
    obtain rfl := inj_on_of_nodup_map hdb.fileIds hmem hf hid
    simp [hgone, hin.1] at hkept
  · intro f hf hnot
    exact (cascaded_folders hdb hfolder h).2 ⟨hf, hnot⟩
  · intro n hn hnot
    have hkept : isCascaded db folder n = false := by
      rw [Bool.eq_false_iff]
      exact fun hgone => hnot ((isCascaded_iff hdb hfolder).1 hgone).2
    rw [cascaded_notes hdb hfolder h]
    refine mem_map.2 ⟨n, hn, ?_⟩
    rw [hkept, Bool.or_false, cleared_eq hdb (not_under hdb hfolder (hdb.noteFolders n hn) hnot)]
  · intro f hf hnot
    have hkept : f.id ∉ cascadedFiles db folder := fun hgone => hnot ((mem_cascadedFiles hdb hfolder hf).1 hgone)
    rw [hfiles]
    refine mem_map.2 ⟨f, mem_filter.2 ⟨hf, by simp [hkept]⟩, ?_⟩
    rw [cleared_eq hdb (not_under hdb hfolder (hdb.fileFolders f hf) hnot)]

/-! ## Who made it -/

theorem allowed_folder {createdBy : CreatedBy Id User}
    {readOnly : Bool} {role : Option (List Char)} {userId : User} (hmember : isManagerRole role = false)
    (h : canDeleteItem db createdBy readOnly role userId .folder folder.id = .ok) :
    hasOthersItems db createdBy userId folder = false := by
  unfold canDeleteItem at h
  rw [hmember, find_folder hdb hfolder] at h
  split at h
  · cases h
  · simp only [Bool.false_eq_true, if_false] at h
    split at h
    · cases h
    · split at h
      · cases h
      · next hnone => simpa using hnone

theorem madeBy (h : deleteFolderCascade db folder.id = some r) {createdBy : CreatedBy Id User} {userId : User}
    (hown : hasOthersItems db createdBy userId folder = false) : MadeBy db createdBy userId r := by
  have hcovers := covers hdb hfolder h
  unfold hasOthersItems at hown
  simp only [Bool.or_eq_false_iff, any_eq_false, decide_eq_true_eq, not_and, not_not] at hown
  obtain ⟨⟨hfolders, hnotes⟩, hfiles⟩ := hown
  refine ⟨?_, ?_, ?_⟩
  · intro f hf hgone
    apply hfolders f hf
    rw [mem_subtree hdb hfolder]
    by_contra hnot
    exact hgone (mem_map_of_mem (hcovers.otherFolders f hf hnot))
  · rintro n hn hlive ⟨n', hn', hid, hdeleted⟩
    rw [cascaded_notes hdb hfolder h] at hn'
    obtain ⟨m, hm, rfl⟩ := mem_map.1 hn'
    obtain rfl := inj_on_of_nodup_map hdb.noteIds hm hn hid
    have hgone : isCascaded db folder m = true := by
      rw [hlive, Bool.false_or] at hdeleted
      exact hdeleted
    obtain ⟨_, hin⟩ := (isCascaded_iff hdb hfolder).1 hgone
    obtain ⟨hvault, hin⟩ := (inFolder_iff hdb hfolder).1 hin
    exact hnotes m hm hvault hlive hin
  · intro f hf hgone
    have hin : InFolder db folder f.vaultId f.folderId f.path := by
      by_contra hnot
      exact hgone (mem_map_of_mem (hcovers.otherFiles f hf hnot))
    obtain ⟨hvault, hin⟩ := (inFolder_iff hdb hfolder).1 hin
    exact hfiles f hf hvault hin

/-- **The gate covers the cascade.** Whoever deletes a folder, everything in it by folder or by path goes, everything
else stays as it is; and if a plain member was allowed to, they made everything that goes. -/
theorem gate_covers_cascade :
    ∃ r, deleteFolderCascade db folder.id = some r ∧ Covers db folder r ∧
      ∀ (createdBy : CreatedBy Id User) (readOnly : Bool) (role : Option (List Char)) (userId : User),
        isManagerRole role = false → canDeleteItem db createdBy readOnly role userId .folder folder.id = .ok →
          MadeBy db createdBy userId r := by
  obtain ⟨r, hr⟩ : ∃ r, deleteFolderCascade db folder.id = some r := by
    rw [deleteFolderCascade, find_folder hdb hfolder]
    exact ⟨_, rfl⟩
  refine ⟨r, hr, covers hdb hfolder hr, fun createdBy readOnly role userId hmember hallowed => ?_⟩
  exact madeBy hdb hfolder hr (allowed_folder hdb hfolder hmember hallowed)

end

end

end

end

/-- the note is in a folder of the folder, the file below by its path alone -/
theorem own_folder_goes : ∃ (db : Db ℕ) (r : Cascaded ℕ), deleteFolderCascade db 1 = some r ∧
    3 ∈ r.deletedNoteIds ∧ 4 ∈ r.deletedFileIds ∧
      MadeBy db ⟨fun _ => some 7, fun _ => some 7, fun _ => some 7⟩ 7 r := by
  have hdb : Constraints (id : Path → Path) (⟨[⟨1, 0, none, ['a'], ['a']⟩, ⟨2, 0, some 1, ['b'], ['a', '/', 'b']⟩],
      [⟨3, 0, some 2, none, ['a', '/', 'b', '/', 'n'], false⟩], [⟨4, 0, none, ['a', '/', 'f']⟩], [], []⟩ : Db ℕ) := by
    decide
  have hgate := @gate_covers_cascade ℕ ℕ Path _ _ _ _ _ id hdb mem_cons_self
  obtain ⟨r, hr, hcovers, hmade⟩ := hgate
  refine ⟨_, r, hr, ?_, ?_, hmade ⟨fun _ => some 7, fun _ => some 7, fun _ => some 7⟩ false none 7 rfl (by decide)⟩
  · exact (hcovers.notes _ mem_cons_self rfl ⟨rfl, .inr (.inr ⟨['b', '/', 'n'], rfl⟩)⟩).1
  · exact (hcovers.files _ mem_cons_self ⟨rfl, .inr (.inr ⟨['f'], rfl⟩)⟩).1

end Baalda.FolderDelete
