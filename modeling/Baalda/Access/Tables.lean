/-
The tables access control reads (migrations 002, 008, 018, 032): vaults (note collections, each of an organization),
folders, notes, files, members, share rows and join-time snapshots.

Ids are numbers. Timestamps are microseconds, as the database keeps them: a timestamp that reaches the server as a
JavaScript `Date` has lost its microseconds (`toDate`), and one sent back as a query parameter has none (`ofDate`).

`WellFormed` is what the schema and its writers keep: primary keys, one share row for each resource and principal, a
folder tree without cycles inside one vault, snapshots of members only, no id used for a note and a file, and rows that
share a vault with everyone naming the vault's own organization.
-/
import Baalda.Lib.Forest

namespace Baalda.Access

open List

abbrev Id := ℕ

inductive ResourceType where
  | vault
  | folder
  | file
deriving DecidableEq

inductive Principal where
  | user (id : Id)
  | org (id : Id)
deriving DecidableEq

inductive SharePermission where
  | view
  | edit
  | readonly
  | locked
  | denied
deriving DecidableEq

/-- the row lets its principal read -/
def SharePermission.grants : SharePermission → Bool
  | .view | .edit | .readonly => true
  | .locked | .denied => false

structure ShareRow where
  resourceType : ResourceType
  resourceId : Id
  principal : Principal
  permission : SharePermission
  accessRevision : ℕ
deriving DecidableEq

structure Vault where
  id : Id
  organizationId : Id
deriving DecidableEq

structure Folder where
  id : Id
  vaultId : Id
  parentId : Option Id
  createdBy : Option Id
  createdAt : ℕ
deriving DecidableEq

/-- a row of `notes` or `files`: `createdAt` in microseconds, `deleted` only ever set on a note -/
structure DocRow where
  id : Id
  vaultId : Id
  folderId : Option Id
  createdBy : Option Id
  createdAt : ℕ
  deleted : Bool
deriving DecidableEq

inductive Role where
  | owner
  | admin
  | member
deriving DecidableEq

structure Member where
  organizationId : Id
  userId : Id
  role : Role
deriving DecidableEq

inductive JoinMode where
  | privateMode
  | readonlyMode
  | openMode
deriving DecidableEq

/-- what a member could reach when they joined: `snapshotAt` in microseconds -/
structure SnapshotRow where
  organizationId : Id
  userId : Id
  mode : JoinMode
  accessRevision : ℕ
  snapshotAt : ℕ
deriving DecidableEq

structure Db where
  vaults : List Vault
  folders : List Folder
  notes : List DocRow
  files : List DocRow
  shares : List ShareRow
  members : List Member
  snapshots : List SnapshotRow
  /-- organizations whose billing account has lapsed -/
  lapsed : List Id

/-- microseconds to the milliseconds of a `Date` -/
def toDate (t : ℕ) : ℕ := t / 1000

/-- a `Date` as a query parameter -/
def ofDate (ms : ℕ) : ℕ := ms * 1000

def Db.folder? (db : Db) (id : Id) : Option Folder := db.folders.find? fun f => f.id = id

def Db.parentOf (db : Db) (id : Id) : Option Id := (db.folder? id).bind (·.parentId)

def Db.folderIds (db : Db) : List Id := db.folders.map (·.id)

def Db.organizationOf (db : Db) (vaultId : Id) : Option Id :=
  (db.vaults.find? fun v => v.id = vaultId).map (·.organizationId)

/-- the rows a document can be located at: live notes, then files -/
def Db.liveDocs (db : Db) : List DocRow := (db.notes.filter fun n => n.deleted = false) ++ db.files

/-- the user's rows with a role -/
def memberRole (db : Db) (organizationId userId : Id) : Option Role :=
  (db.members.find? fun m => m.organizationId = organizationId ∧ m.userId = userId).map (·.role)

/-- the join snapshot as the server holds it: `snapshotAt` is a `Date` -/
structure MemberAccessSnapshot where
  mode : JoinMode
  accessRevision : ℕ
  snapshotAt : ℕ
deriving DecidableEq

def memberAccessSnapshot (db : Db) (organizationId userId : Id) : Option MemberAccessSnapshot :=
  (db.snapshots.find? fun s => s.organizationId = organizationId ∧ s.userId = userId).map fun s =>
    ⟨s.mode, s.accessRevision, toDate s.snapshotAt⟩

/-! ## Well-formed tables -/

structure WellFormed (db : Db) : Prop where
  folderKey : ∀ f ∈ db.folders, ∀ g ∈ db.folders, f.id = g.id → f = g
  docKey : ((db.notes ++ db.files).map (·.id)).Nodup
  shareKey : ∀ r ∈ db.shares, ∀ r' ∈ db.shares, r.resourceType = r'.resourceType → r.resourceId = r'.resourceId →
    r.principal = r'.principal → r = r'
  tree : ∃ depth : Id → ℕ, ∀ f ∈ db.folders, ∀ p ∈ f.parentId,
    (∃ g ∈ db.folders, g.id = p ∧ g.vaultId = f.vaultId) ∧ depth p < depth f.id
  docFolder : ∀ r ∈ db.notes ++ db.files, ∀ p ∈ r.folderId, ∃ g ∈ db.folders, g.id = p ∧ g.vaultId = r.vaultId
  snapshotMember : ∀ s ∈ db.snapshots, ∃ m ∈ db.members, m.organizationId = s.organizationId ∧ m.userId = s.userId
  vaultRow : ∀ r ∈ db.shares, r.resourceType = .vault → ∀ o, r.principal = .org o → o = r.resourceId

variable {db : Db}

theorem folder?_eq (h : WellFormed db) {f : Folder} (hf : f ∈ db.folders) : db.folder? f.id = some f := by
  cases hfind : db.folder? f.id with
  | none =>
    have hno := find?_eq_none.1 hfind f hf
    exact absurd (decide_eq_true rfl) hno
  | some g =>
    have hg : g ∈ db.folders := mem_of_find?_eq_some hfind
    have hid : g.id = f.id := by simpa using find?_some hfind
    rw [h.folderKey g hg f hf hid]

theorem parentOf_eq (h : WellFormed db) {f : Folder} (hf : f ∈ db.folders) : db.parentOf f.id = f.parentId := by
  rw [Db.parentOf, folder?_eq h hf]
  rfl

theorem mem_folderIds {id : Id} : id ∈ db.folderIds ↔ ∃ f ∈ db.folders, f.id = id := by simp [Db.folderIds]

/-- the folders of the database hang from their roots -/
theorem rooted_folders (h : WellFormed db) : Forest.Rooted db.folderIds db.parentOf := by
  obtain ⟨depth, hdepth⟩ := h.tree
  refine ⟨depth, fun x hx p hp => ?_⟩
  obtain ⟨f, hf, rfl⟩ := mem_folderIds.1 hx
  rw [parentOf_eq h hf] at hp
  obtain ⟨⟨g, hg, rfl, -⟩, hlt⟩ := hdepth f hf p hp
  exact ⟨mem_folderIds.2 ⟨g, hg, rfl⟩, hlt⟩

/-- the folders of one vault, by id -/
def Db.vaultFolders (db : Db) (vaultId : Id) : List Id := (db.folders.filter fun f => f.vaultId = vaultId).map (·.id)

theorem mem_vaultFolders {vaultId id : Id} : id ∈ db.vaultFolders vaultId ↔ ∃ f ∈ db.folders, f.vaultId = vaultId ∧ f.id = id := by
  simp [Db.vaultFolders, and_assoc]

theorem vaultFolders_subset (vaultId : Id) : db.vaultFolders vaultId ⊆ db.folderIds := by
  intro id hid
  obtain ⟨f, hf, -, rfl⟩ := mem_vaultFolders.1 hid
  exact mem_folderIds.2 ⟨f, hf, rfl⟩

theorem vaultFolders_closed (h : WellFormed db) (vaultId : Id) :
    ∀ x ∈ db.vaultFolders vaultId, ∀ p ∈ db.parentOf x, p ∈ db.vaultFolders vaultId := by
  obtain ⟨depth, hdepth⟩ := h.tree
  intro x hx p hp
  obtain ⟨f, hf, hv, rfl⟩ := mem_vaultFolders.1 hx
  rw [parentOf_eq h hf] at hp
  obtain ⟨⟨g, hg, rfl, hgv⟩, -⟩ := hdepth f hf p hp
  exact mem_vaultFolders.2 ⟨g, hg, hgv.trans hv, rfl⟩

/-- the folders of a vault hang from its roots -/
theorem rooted_vaultFolders (h : WellFormed db) (vaultId : Id) :
    Forest.Rooted (db.vaultFolders vaultId) db.parentOf := by
  obtain ⟨depth, hdepth⟩ := rooted_folders h
  exact ⟨depth, fun x hx p hp => ⟨vaultFolders_closed h vaultId x hx p hp, (hdepth x (vaultFolders_subset vaultId hx) p hp).2⟩⟩

theorem ancestors_vaultFolders (h : WellFormed db) (vaultId : Id) : ∀ x ∈ db.vaultFolders vaultId,
    Forest.ancestors (db.vaultFolders vaultId) db.parentOf x = Forest.ancestors db.folderIds db.parentOf x :=
  Forest.ancestors_of_subset (rooted_folders h) (vaultFolders_subset vaultId) (vaultFolders_closed h vaultId)

theorem mem_liveDocs {r : DocRow} : r ∈ db.liveDocs ↔ (r ∈ db.notes ∧ r.deleted = false) ∨ r ∈ db.files := by
  simp [Db.liveDocs]

theorem liveDocs_subset {r : DocRow} (hr : r ∈ db.liveDocs) : r ∈ db.notes ++ db.files := by
  rcases mem_liveDocs.1 hr with ⟨hr, -⟩ | hr
  · exact mem_append_left _ hr
  · exact mem_append_right _ hr

/-- an id names one document -/
theorem liveDoc_key (h : WellFormed db) {r r' : DocRow} (hr : r ∈ db.notes ++ db.files) (hr' : r' ∈ db.notes ++ db.files)
    (hid : r.id = r'.id) : r = r' := inj_on_of_nodup_map h.docKey hr hr' hid

/-- no id is used for a note and a file -/
theorem note_ne_file (h : WellFormed db) {n f : DocRow} (hn : n ∈ db.notes) (hf : f ∈ db.files) : n.id ≠ f.id := by
  have hkey := h.docKey
  rw [map_append, nodup_append] at hkey
  exact hkey.2.2 n.id (mem_map_of_mem hn) f.id (mem_map_of_mem hf)

theorem shares_find? (h : WellFormed db) {r : ShareRow} (hr : r ∈ db.shares) {q : ShareRow → Bool} (hq : q r = true)
    (hkey : ∀ r' ∈ db.shares, q r' = true →
      r'.resourceType = r.resourceType ∧ r'.resourceId = r.resourceId ∧ r'.principal = r.principal) :
    db.shares.find? q = some r := by
  cases hfind : db.shares.find? q with
  | none => exact absurd hq (find?_eq_none.1 hfind r hr)
  | some r' =>
    have hr' : r' ∈ db.shares := mem_of_find?_eq_some hfind
    obtain ⟨ht, hi, hp⟩ := hkey r' hr' (find?_some hfind)
    rw [h.shareKey r' hr' r hr ht hi hp]

end Baalda.Access
