/-
The explaining resolver (`permissions/resolver.ts`: `resolveAccessForUser`), behind the list of who can access an item, and
the rows a bulk read preloads for it (`AccessIndex`).

The branches of `effectivePermission` are spelled out once more there, for a prebuilt `AccessContext` of a file or a folder,
over rows of the database or of an index, with facts about the member read directly or through a cache. `verdict` is what
both resolvers compute from the answers to their questions: `effectivePermissionInner_eq`, `resolveAccess_permission`.

`resolveAccess_file`: for a file, what is reported is the resolver's answer. `resolveAccess_folder`: for a folder, it is the
resolver's answer for any document in it that has no rows of its own, that the user did not write, and that the join
snapshot covers as it covers the folder.
-/
import Baalda.Access.Rows

namespace Baalda.Access

open List

/-! ## Rows preloaded for one organization -/

structure AccessIndex where
  organizationId : Id
  shares : List ShareRow
  folders : List Folder
  /-- live notes -/
  notes : List DocRow
  files : List DocRow

def loadAccessIndex (db : Db) (organizationId : Id) : AccessIndex :=
  let inOrg := fun vaultId => decide (db.organizationOf vaultId = some organizationId)
  let folders := db.folders.filter fun f => inOrg f.vaultId
  let docs := (db.notes ++ db.files).filter fun r => inOrg r.vaultId
  { organizationId
    folders
    notes := db.notes.filter fun n => inOrg n.vaultId && decide (n.deleted = false)
    files := db.files.filter fun f => inOrg f.vaultId
    shares := db.shares.filter fun s =>
      (s.resourceType = .vault ∧ s.resourceId = organizationId) ∨
        (s.resourceType = .folder ∧ s.resourceId ∈ folders.map (·.id)) ∨
        (s.resourceType = .file ∧ s.resourceId ∈ docs.map (·.id)) }

def AccessIndex.sharesOn (index : AccessIndex) (resourceType : ResourceType) (id : Id) : List ShareRow :=
  index.shares.filter fun r => r.resourceType = resourceType ∧ r.resourceId = id

def AccessIndex.parentOf (index : AccessIndex) (id : Id) : Option Id :=
  (index.folders.find? fun f => f.id = id).bind (·.parentId)

/-- none when the chain leaves the index or loops -/
def indexedAncestors (index : AccessIndex) : Option Id → Option (List Id)
  | none => some []
  | some id => Forest.walk (index.folders.map (·.id)) index.parentOf none ((index.folders.map (·.id)).length + 1) [] id

/-- rows on the document, on each folder, and on the vault when asked for -/
def indexedRows (index : AccessIndex) (docId : Option Id) (folderIds : List Id) (vault : Option Id) : List ShareRow :=
  docId.toList.flatMap (index.sharesOn .file) ++ folderIds.flatMap (index.sharesOn .folder) ++
    vault.toList.flatMap (index.sharesOn .vault)

/-! ## Answers -/

/-- the answers the branches of both resolvers need about one user and one item -/
structure RowAnswers where
  denied : Bool
  itemPrivate : Bool
  locked : Bool
  grant : Bool → Bool → Option MemberAccessSnapshot → Option ℕ → Bool → Permission

def askDb (db : Db) (userId : Id) (docId : Option Id) (folderIds : List Id) (organizationId : Id) : RowAnswers where
  denied := isDenied db (.user userId) docId folderIds
  itemPrivate := isDenied db (.org organizationId) docId folderIds
  locked := isLocked db userId docId folderIds
  grant := sharePermission db userId docId folderIds organizationId

/-- from one list of rows on the item, its folders and the vault -/
def askRows (rows : List ShareRow) (userId : Id) (docId : Option Id) (folderIds : List Id) (organizationId : Id) :
    RowAnswers where
  denied := rowsDenied rows (.user userId) docId folderIds
  itemPrivate := rowsDenied rows (.org organizationId) docId folderIds
  locked := rowsLocked rows userId docId folderIds
  grant := fun isMember orgGrantsApply snapshot createdAt orgVaultClause =>
    rowsGrant rows userId docId folderIds organizationId (isMember && orgGrantsApply) orgVaultClause snapshot createdAt

def askIndex (index : AccessIndex) (userId : Id) (docId : Option Id) (folderIds : List Id) (organizationId : Id) :
    RowAnswers :=
  let onItem := indexedRows index docId folderIds none
  { denied := rowsDenied onItem (.user userId) docId folderIds
    itemPrivate := rowsDenied onItem (.org organizationId) docId folderIds
    locked := rowsLocked onItem userId docId folderIds
    grant := fun isMember orgGrantsApply snapshot createdAt orgVaultClause =>
      rowsGrant (indexedRows index docId folderIds (some organizationId)) userId docId folderIds organizationId
        (isMember && orgGrantsApply) orgVaultClause snapshot createdAt }

/-! ## The explaining resolver -/

inductive Item where
  | file (id : Id)
  | folder (id : Id)
deriving DecidableEq

structure AccessContext where
  organizationId : Id
  docId : Option Id
  folderIds : List Id
  createdBy : Option Id
  /-- a `Date` -/
  createdAt : ℕ
deriving DecidableEq

/-- a folder carries no creator into the access list -/
def buildAccessContext (db : Db) : Item → Option AccessContext
  | .file id => (locateDoc db id).map fun loc =>
      ⟨loc.organizationId, some id, ancestorFolderIds db loc.folderId, loc.createdBy, loc.createdAt⟩
  | .folder id => (db.folder? id).bind fun f => (db.organizationOf f.vaultId).map fun o =>
      ⟨o, none, ancestorFolderIds db (some id), none, toDate f.createdAt⟩

/-- from the index, falling back to the database for what it does not hold -/
def buildAccessContextFromIndex (db : Db) (index : AccessIndex) : Item → Option AccessContext
  | .file id =>
    match (index.notes ++ index.files).find? fun r => r.id = id with
    | none => buildAccessContext db (.file id)
    | some r =>
      match indexedAncestors index r.folderId with
      | none => buildAccessContext db (.file id)
      | some chain => some ⟨index.organizationId, some id, chain, r.createdBy, toDate r.createdAt⟩
  | .folder id =>
    match index.folders.find? fun f => f.id = id with
    | none => buildAccessContext db (.folder id)
    | some f =>
      match indexedAncestors index (some id) with
      | none => buildAccessContext db (.folder id)
      | some chain => some ⟨index.organizationId, none, chain, none, toDate f.createdAt⟩

structure ResolvedAccess where
  permission : Permission
  /-- a lock took `edit` away -/
  capped : Bool
  /-- the `none` comes from a deny -/
  denied : Bool
deriving DecidableEq

/-- the end of each branch: nothing granted, or granted and perhaps locked -/
def reported (locked : Bool) (granted : Permission) (denied : Bool) : ResolvedAccess :=
  if granted = .none then ⟨.none, false, denied⟩
  else if locked = true ∧ granted = .edit then ⟨.view, true, false⟩
  else if locked = true then ⟨.view, false, false⟩
  else ⟨granted, false, false⟩

/-- the join snapshot, when the item existed at the join -/
def coveringSnapshot (ctx : AccessContext) (snapshot : Option MemberAccessSnapshot) : Option MemberAccessSnapshot :=
  snapshot.filter fun s => ctx.createdAt ≤ s.snapshotAt

/-- the branches, from the facts about the member -/
def resolveAccessForUserInner (q : RowAnswers) (ctx : AccessContext) (userId : Id) (role : Option Role)
    (personal : Option PersonalVaultLevel) (snapshot : Option MemberAccessSnapshot) (baseline : Option VaultPosture) :
    ResolvedAccess :=
  if q.denied = true then ⟨.none, false, true⟩
  else
    match personal with
    | some level =>
      let granted := q.grant role.isSome (!q.itemPrivate && level ≠ .denied) none none false
      reported q.locked granted (q.itemPrivate || level = .denied)
    | none =>
      match coveringSnapshot ctx snapshot with
      | some s =>
        let direct := q.grant role.isSome (!q.itemPrivate) (some s) (some ctx.createdAt) true
        reported q.locked (maxPermission (if q.itemPrivate then .none else s.mode.permission) direct) q.itemPrivate
      | none =>
        let granted :=
          if q.itemPrivate then q.grant false false none none true
          else if baseline = some .view ∨ baseline = some .sealed then q.grant role.isSome true none none true
          else if baseline ≠ none ∧ (role = some .owner ∨ role = some .admin) then .edit
          else if role.isSome ∧ ctx.createdBy = some userId then .edit
          else q.grant role.isSome true none none true
        reported q.locked granted q.itemPrivate

/-- the billing cap on top -/
def billed (lapsed : Bool) (r : ResolvedAccess) : ResolvedAccess :=
  if r.permission = .edit ∧ lapsed = true then { r with permission := .view } else r

section

variable (db : Db) (ctx : AccessContext) (userId : Id)

/-- an index of another organization is not used -/
def accessAnswers (accessIndex : Option AccessIndex) : RowAnswers :=
  match accessIndex.filter fun index => index.organizationId = ctx.organizationId with
  | some index => askIndex index userId ctx.docId ctx.folderIds ctx.organizationId
  | none => askDb db userId ctx.docId ctx.folderIds ctx.organizationId

/-- the user's own level, from the same place -/
def accessPersonal (accessIndex : Option AccessIndex) : Option PersonalVaultLevel :=
  match accessIndex.filter fun index => index.organizationId = ctx.organizationId with
  | some index => rowsPersonalVault (index.sharesOn .vault index.organizationId) userId index.organizationId
  | none => personalVaultLevel db ctx.organizationId userId

/-- without a cache -/
def resolveAccessForUser (role : Option Role) (accessIndex : Option AccessIndex) : ResolvedAccess :=
  let resolved := resolveAccessForUserInner (accessAnswers db ctx userId accessIndex) ctx userId role
    (accessPersonal db ctx userId accessIndex) (memberAccessSnapshot db ctx.organizationId userId)
    (vaultBaseline db ctx.organizationId)
  billed (decide (ctx.organizationId ∈ db.lapsed)) resolved

end

/-! ## One verdict -/

/-- what both resolvers compute from the same answers and facts -/
def verdict (q : RowAnswers) (userId : Id) (createdBy : Option Id) (createdAt : ℕ) (role : Option Role)
    (personal : Option PersonalVaultLevel) (snapshot : Option MemberAccessSnapshot) (baseline : Option VaultPosture) :
    Permission :=
  let capped := fun granted : Permission => if granted ≠ .none ∧ q.locked then .view else granted
  if q.denied then .none
  else
    match personal with
    | some level => capped (q.grant role.isSome (!q.itemPrivate && level ≠ .denied) none none false)
    | none =>
      match snapshot.filter fun s => createdAt ≤ s.snapshotAt with
      | some s =>
        let direct := q.grant role.isSome (!q.itemPrivate) (some s) (some createdAt) true
        capped (maxPermission (if q.itemPrivate then .none else s.mode.permission) direct)
      | none =>
        capped (
          if q.itemPrivate then q.grant false false none none true
          else if baseline = some .view ∨ baseline = some .sealed then q.grant role.isSome true none none true
          else if baseline ≠ none ∧ (role = some .owner ∨ role = some .admin) then .edit
          else if role.isSome ∧ createdBy = some userId then .edit
          else q.grant role.isSome true none none true)

theorem effectivePermissionInner_eq (db : Db) (userId docId : Id) (loc : DocLocation) :
    effectivePermissionInner db userId docId loc =
      verdict (askDb db userId (some docId) (ancestorFolderIds db loc.folderId) loc.organizationId) userId loc.createdBy
        loc.createdAt (memberRole db loc.organizationId userId) (personalVaultLevel db loc.organizationId userId)
        (memberAccessSnapshot db loc.organizationId userId) (vaultBaseline db loc.organizationId) := rfl

theorem reported_permission (locked : Bool) (granted : Permission) (denied : Bool) :
    (reported locked granted denied).permission = if granted ≠ .none ∧ locked = true then .view else granted := by
  cases granted <;> cases locked <;> rfl

theorem resolveAccess_permission (q : RowAnswers) (ctx : AccessContext) (userId : Id) (role : Option Role)
    (personal : Option PersonalVaultLevel) (snapshot : Option MemberAccessSnapshot) (baseline : Option VaultPosture) :
    (resolveAccessForUserInner q ctx userId role personal snapshot baseline).permission =
      verdict q userId ctx.createdBy ctx.createdAt role personal snapshot baseline := by
  unfold resolveAccessForUserInner verdict coveringSnapshot
  by_cases hden : q.denied = true
  · rw [if_pos hden, if_pos hden]
  · rw [if_neg hden, if_neg hden]
    cases personal with
    | some level => exact reported_permission _ _ _
    | none =>
      cases snapshot.filter fun s => decide (ctx.createdAt ≤ s.snapshotAt) with
      | some s | none => exact reported_permission _ _ _

theorem billed_permission (lapsed : Bool) (r : ResolvedAccess) :
    (billed lapsed r).permission = if r.permission = .edit ∧ lapsed = true then .view else r.permission := by
  unfold billed
  split_ifs <;> rfl

/-! ## Rows in order -/

variable {db : Db} {userId organizationId : Id} {docId : Option Id} {folderIds : List Id}

theorem askRows_eq (h : WellFormed db) {rows : List ShareRow} (hrows : ItemRows db userId docId folderIds rows)
    (hvault : VaultRows db userId organizationId rows) :
    askRows rows userId docId folderIds organizationId = askDb db userId docId folderIds organizationId := by
  unfold askRows askDb
  rw [rowsDenied_user h hrows.ownRows, rowsDenied_org hrows, rowsLocked_eq h hrows]
  congr 1
  funext isMember orgGrantsApply snapshot createdAt orgVaultClause
  exact rowsGrant_eq h hrows hvault isMember orgGrantsApply snapshot createdAt orgVaultClause

/-- the document and the folders belong to the organization -/
structure InOrg (db : Db) (organizationId : Id) (docId : Option Id) (folderIds : List Id) : Prop where
  doc : ∀ d ∈ docId, ∃ r ∈ db.notes ++ db.files, r.id = d ∧ db.organizationOf r.vaultId = some organizationId
  folders : ∀ i ∈ folderIds, ∃ f ∈ db.folders, f.id = i ∧ db.organizationOf f.vaultId = some organizationId

variable {id : Id} {r : ShareRow}

theorem mem_sharesOn {index : AccessIndex} {t : ResourceType} :
    r ∈ index.sharesOn t id ↔ r ∈ index.shares ∧ r.resourceType = t ∧ r.resourceId = id := by
  simp [AccessIndex.sharesOn]

theorem mem_indexedRows {index : AccessIndex} {vault : Option Id} :
    r ∈ indexedRows index docId folderIds vault ↔ r ∈ index.shares ∧
      (onItem docId folderIds r ∨ (r.resourceType = .vault ∧ vault = some r.resourceId)) := by
  simp only [indexedRows, mem_append, mem_flatMap, Option.mem_toList, mem_sharesOn, onItem]
  constructor
  · rintro ((⟨d, hd, hr, ht, rfl⟩ | ⟨f, hf, hr, ht, rfl⟩) | ⟨v, hv, hr, ht, rfl⟩)
    · exact ⟨hr, .inl (.inl ⟨ht, hd⟩)⟩
    · exact ⟨hr, .inl (.inr ⟨ht, hf⟩)⟩
    · exact ⟨hr, .inr ⟨ht, hv⟩⟩
  · rintro ⟨hr, (⟨ht, hd⟩ | ⟨ht, hf⟩) | ⟨ht, hv⟩⟩
    · exact .inl (.inl ⟨_, hd, hr, ht, rfl⟩)
    · exact .inl (.inr ⟨_, hf, hr, ht, rfl⟩)
    · exact .inr ⟨_, hv, hr, ht, rfl⟩

/-- the index holds the rows on what belongs to its organization -/
theorem mem_index_shares (hin : InOrg db organizationId docId folderIds) (hr : r ∈ db.shares)
    (hon : onItem docId folderIds r ∨ (r.resourceType = .vault ∧ r.resourceId = organizationId)) :
    r ∈ (loadAccessIndex db organizationId).shares := by
  refine mem_filter.2 ⟨hr, decide_eq_true ?_⟩
  rcases hon with (⟨ht, hd⟩ | ⟨ht, hf⟩) | hv
  · obtain ⟨d, hmem, hid, horg⟩ := hin.doc _ hd
    exact .inr (.inr ⟨ht, mem_map.2 ⟨d, mem_filter.2 ⟨hmem, by simpa using horg⟩, hid⟩⟩)
  · obtain ⟨f, hmem, hid, horg⟩ := hin.folders _ hf
    exact .inr (.inl ⟨ht, mem_map.2 ⟨f, mem_filter.2 ⟨hmem, by simpa using horg⟩, hid⟩⟩)
  · exact .inl hv

theorem index_shares_subset : (loadAccessIndex db organizationId).shares ⊆ db.shares := fun _ hr =>
  (mem_filter.1 hr).1

theorem itemRows_index (hin : InOrg db organizationId docId folderIds) (vault : Option Id) :
    ItemRows db userId docId folderIds (indexedRows (loadAccessIndex db organizationId) docId folderIds vault) where
  sub := fun _ hr => index_shares_subset (mem_indexedRows.1 hr).1
  only := fun _ hr ht => (mem_indexedRows.1 hr).2.resolve_right fun hv => ht hv.1
  all := fun _ hr hi _ => mem_indexedRows.2 ⟨mem_index_shares hin hr (.inl hi), .inl hi⟩

theorem askIndex_eq (h : WellFormed db) (hin : InOrg db organizationId docId folderIds) :
    askIndex (loadAccessIndex db organizationId) userId docId folderIds organizationId =
      askDb db userId docId folderIds organizationId := by
  have hitem : ItemRows db userId docId folderIds
      (indexedRows (loadAccessIndex db organizationId) docId folderIds none) := itemRows_index hin none
  have hwith : ItemRows db userId docId folderIds
      (indexedRows (loadAccessIndex db organizationId) docId folderIds (some organizationId)) := itemRows_index hin _
  have hvault : VaultRows db userId organizationId
      (indexedRows (loadAccessIndex db organizationId) docId folderIds (some organizationId)) := by
    intro r hr ht hi _
    exact mem_indexedRows.2 ⟨mem_index_shares hin hr (.inr ⟨ht, hi⟩), .inr ⟨ht, by rw [hi]⟩⟩
  unfold askIndex askDb
  dsimp only
  rw [rowsDenied_user h hitem.ownRows, rowsDenied_org hitem, rowsLocked_eq h hitem]
  congr 1
  funext isMember orgGrantsApply snapshot createdAt orgVaultClause
  exact rowsGrant_eq h hwith hvault isMember orgGrantsApply snapshot createdAt orgVaultClause

theorem indexedPersonalVault_eq (h : WellFormed db) :
    rowsPersonalVault ((loadAccessIndex db organizationId).sharesOn .vault organizationId) userId organizationId =
      personalVaultLevel db organizationId userId := by
  refine rowsPersonalVault_eq h (fun r hr => index_shares_subset (mem_sharesOn.1 hr).1) fun r hr ht hi _ => ?_
  exact mem_sharesOn.2 ⟨mem_filter.2 ⟨hr, decide_eq_true (.inl ⟨ht, hi⟩)⟩, ht, hi⟩

/-! ## Contexts -/

theorem locateDoc_eq_some {loc : DocLocation} (hloc : locateDoc db id = some loc) :
    ∃ r ∈ db.liveDocs, r.id = id ∧ db.organizationOf r.vaultId = some loc.organizationId ∧
      loc = ⟨r.vaultId, r.folderId, loc.organizationId, r.createdBy, toDate r.createdAt⟩ := by
  obtain ⟨r, hr, hmap⟩ := exists_of_findSome?_eq_some hloc
  obtain ⟨hlive, hid⟩ := mem_filter.1 hr
  obtain ⟨o, ho, rfl⟩ := Option.map_eq_some_iff.1 hmap
  exact ⟨r, hlive, by simpa using hid, ho, rfl⟩

/-- the folders above one of a vault are folders of that vault -/
theorem ancestors_inOrg (h : WellFormed db) {f : Id} {vaultId : Id} (hf : f ∈ db.vaultFolders vaultId)
    (horg : db.organizationOf vaultId = some organizationId) :
    ∀ i ∈ ancestorFolderIds db (some f), ∃ g ∈ db.folders, g.id = i ∧ db.organizationOf g.vaultId = some organizationId := by
  intro i hi
  have hi' : i ∈ Forest.ancestors (db.vaultFolders vaultId) db.parentOf f := by
    rw [ancestors_vaultFolders h vaultId f hf]
    exact hi
  obtain ⟨g, hg, hv, hid⟩ := mem_vaultFolders.1 (Forest.mem_nodes_of_mem_up hi')
  exact ⟨g, hg, hid, by rw [hv, horg]⟩

variable {ctx : AccessContext}

/-- a context describes an item of its organization -/
theorem context_inOrg (h : WellFormed db) {item : Item} (hctx : buildAccessContext db item = some ctx) :
    InOrg db ctx.organizationId ctx.docId ctx.folderIds := by
  cases item with
  | file id =>
    obtain ⟨loc, hloc, rfl⟩ := Option.map_eq_some_iff.1 hctx
    obtain ⟨r, hr, hid, horg, heq⟩ := locateDoc_eq_some hloc
    refine ⟨fun d hd => ?_, fun i hi => ?_⟩
    · obtain rfl : id = d := by simpa using hd
      exact ⟨r, liveDocs_subset hr, hid, horg⟩
    · have hfolder : loc.folderId = r.folderId := by rw [heq]
      cases hf : r.folderId with
      | none => simp [hfolder, hf, ancestorFolderIds] at hi
      | some f =>
        obtain ⟨g, hg, rfl, hv⟩ := h.docFolder r (liveDocs_subset hr) f hf
        rw [hfolder, hf] at hi
        exact ancestors_inOrg h (mem_vaultFolders.2 ⟨g, hg, hv, rfl⟩) horg i hi
  | folder id =>
    obtain ⟨f, hf, hmap⟩ := Option.bind_eq_some_iff.1 hctx
    obtain ⟨o, ho, rfl⟩ := Option.map_eq_some_iff.1 hmap
    have hmem : f ∈ db.folders := mem_of_find?_eq_some hf
    have hid : f.id = id := by simpa using find?_some hf
    exact ⟨by simp, ancestors_inOrg h (mem_vaultFolders.2 ⟨f, hmem, rfl, hid⟩) ho⟩

section

variable (h : WellFormed db) {f : Folder} (hf : f ∈ db.folders) (horg : db.organizationOf f.vaultId = some
    organizationId)

include h hf horg

/-- a folder of the organization is in the index, with its parent -/
theorem index_parentOf : (loadAccessIndex db organizationId).parentOf f.id = db.parentOf f.id := by
  have hmem : f ∈ (loadAccessIndex db organizationId).folders := mem_filter.2 ⟨hf, by simpa using horg⟩
  have hfind : (loadAccessIndex db organizationId).folders.find? (fun g => g.id = f.id) = some f := by
    cases hfind : (loadAccessIndex db organizationId).folders.find? (fun g => g.id = f.id) with
    | none => exact absurd (decide_eq_true rfl) (find?_eq_none.1 hfind f hmem)
    | some g =>
      have hg : g ∈ db.folders := (mem_filter.1 (mem_of_find?_eq_some hfind)).1
      have hid : g.id = f.id := by simpa using find?_some hfind
      rw [h.folderKey g hg f hf hid]
  rw [parentOf_eq h hf, AccessIndex.parentOf, hfind]
  rfl

theorem indexedAncestors_eq :
    indexedAncestors (loadAccessIndex db organizationId) (some f.id) = some (ancestorFolderIds db (some f.id)) := by
  have hnodes : ∀ i, i ∈ (loadAccessIndex db organizationId).folders.map (·.id) ↔
      ∃ g ∈ db.folders, db.organizationOf g.vaultId = some organizationId ∧ g.id = i := by
    simp [loadAccessIndex, and_assoc]
  have hparent : ∀ i ∈ (loadAccessIndex db organizationId).folders.map (·.id),
      (loadAccessIndex db organizationId).parentOf i = db.parentOf i := by
    intro i hi
    obtain ⟨g, hg, ho, rfl⟩ := (hnodes i).1 hi
    exact index_parentOf h hg ho
  have hclosed : ∀ i ∈ (loadAccessIndex db organizationId).folders.map (·.id), ∀ p ∈ db.parentOf i,
      p ∈ (loadAccessIndex db organizationId).folders.map (·.id) := by
    intro i hi p hp
    obtain ⟨g, hg, ho, rfl⟩ := (hnodes i).1 hi
    obtain ⟨depth, hdepth⟩ := h.tree
    rw [parentOf_eq h hg] at hp
    obtain ⟨⟨q, hq, rfl, hv⟩, -⟩ := hdepth g hg p hp
    exact (hnodes q.id).2 ⟨q, hq, by rw [hv, ho], rfl⟩
  have hsub : (loadAccessIndex db organizationId).folders.map (·.id) ⊆ db.folderIds := by
    intro i hi
    obtain ⟨g, hg, -, rfl⟩ := (hnodes i).1 hi
    exact mem_folderIds.2 ⟨g, hg, rfl⟩
  have hmem : f.id ∈ (loadAccessIndex db organizationId).folders.map (·.id) := (hnodes f.id).2 ⟨f, hf, horg, rfl⟩
  have hrooted : Forest.Rooted ((loadAccessIndex db organizationId).folders.map (·.id)) db.parentOf := by
    obtain ⟨depth, hdepth⟩ := rooted_folders h
    exact ⟨depth, fun x hx p hp => ⟨hclosed x hx p hp, (hdepth x (hsub hx) p hp).2⟩⟩
  unfold indexedAncestors
  dsimp only
  rw [Forest.walk_congr hparent hclosed hmem, Forest.walk_eq hrooted none hmem,
    Forest.ancestors_of_subset (rooted_folders h) hsub hclosed f.id hmem]
  rfl

end

/-- **Contexts from the index** are those from the database. -/
theorem buildAccessContextFromIndex_eq (h : WellFormed db) (organizationId : Id) (item : Item) :
    buildAccessContextFromIndex db (loadAccessIndex db organizationId) item = buildAccessContext db item := by
  cases item with
  | file id =>
    unfold buildAccessContextFromIndex
    dsimp only
    cases hfind : ((loadAccessIndex db organizationId).notes ++ (loadAccessIndex db organizationId).files).find?
        (fun r => r.id = id) with
    | none => rfl
    | some r =>
      have hid : r.id = id := by simpa using find?_some hfind
      have hmem := mem_of_find?_eq_some hfind
      have hr : r ∈ db.liveDocs ∧ db.organizationOf r.vaultId = some organizationId := by
        rcases mem_append.1 hmem with hmem | hmem
        · obtain ⟨hr, hq⟩ := mem_filter.1 hmem
          have hq' : db.organizationOf r.vaultId = some organizationId ∧ r.deleted = false := by simpa using hq
          exact ⟨mem_liveDocs.2 (.inl ⟨hr, hq'.2⟩), hq'.1⟩
        · obtain ⟨hr, hq⟩ := mem_filter.1 hmem
          exact ⟨mem_liveDocs.2 (.inr hr), by simpa using hq⟩
      obtain ⟨hlive, horg⟩ := hr
      have hdirect : buildAccessContext db (.file id) =
          some ⟨organizationId, some id, ancestorFolderIds db r.folderId, r.createdBy, toDate r.createdAt⟩ := by
        rw [buildAccessContext, ← hid, locateDoc_eq h hlive, horg]
        rfl
      have hchain : indexedAncestors (loadAccessIndex db organizationId) r.folderId =
          some (ancestorFolderIds db r.folderId) := by
        cases hf : r.folderId with
        | none => rfl
        | some f =>
          obtain ⟨g, hg, rfl, hv⟩ := h.docFolder r (liveDocs_subset hlive) f hf
          exact indexedAncestors_eq h hg (by rw [hv, horg])
      rw [hdirect]
      dsimp only
      rw [hchain]
      rfl
  | folder id =>
    unfold buildAccessContextFromIndex
    dsimp only
    cases hfind : (loadAccessIndex db organizationId).folders.find? (fun f => f.id = id) with
    | none => rfl
    | some f =>
      have hid : f.id = id := by simpa using find?_some hfind
      obtain ⟨hf, hq⟩ := mem_filter.1 (mem_of_find?_eq_some hfind)
      have horg : db.organizationOf f.vaultId = some organizationId := by simpa using hq
      subst hid
      rw [indexedAncestors_eq h hf horg, buildAccessContext, folder?_eq h hf, Option.bind_some, horg]
      rfl

/-! ## What is reported -/

/-- an index loaded for some organization, or none -/
def Loaded (db : Db) (accessIndex : Option AccessIndex) : Prop :=
  ∀ index ∈ accessIndex, ∃ organizationId, index = loadAccessIndex db organizationId

/-- the verdict on a context, from the database -/
def contextVerdict (db : Db) (ctx : AccessContext) (userId : Id) (role : Option Role) : Permission :=
  verdict (askDb db userId ctx.docId ctx.folderIds ctx.organizationId) userId ctx.createdBy ctx.createdAt role
    (personalVaultLevel db ctx.organizationId userId) (memberAccessSnapshot db ctx.organizationId userId)
    (vaultBaseline db ctx.organizationId)

/-- the billing cap -/
def capLapsed (db : Db) (organizationId : Id) (p : Permission) : Permission :=
  if p = .edit ∧ organizationId ∈ db.lapsed then .view else p

variable {accessIndex : Option AccessIndex}

theorem accessAnswers_eq (userId : Id) (h : WellFormed db) (hin : InOrg db ctx.organizationId ctx.docId ctx.folderIds)
    (hindex : Loaded db accessIndex) :
    accessAnswers db ctx userId accessIndex = askDb db userId ctx.docId ctx.folderIds ctx.organizationId ∧
      accessPersonal db ctx userId accessIndex = personalVaultLevel db ctx.organizationId userId := by
  unfold accessAnswers accessPersonal
  cases hfilter : accessIndex.filter fun index => index.organizationId = ctx.organizationId with
  | none => exact ⟨rfl, rfl⟩
  | some index =>
    obtain ⟨hmem, hq⟩ := Option.filter_eq_some_iff.1 hfilter
    obtain ⟨o, rfl⟩ := hindex index hmem
    have ho : o = ctx.organizationId := of_decide_eq_true hq
    subst ho
    exact ⟨askIndex_eq h hin, indexedPersonalVault_eq h⟩

theorem resolveAccess_context (h : WellFormed db) {item : Item} (hctx : buildAccessContext db item = some ctx)
    (userId : Id) (role : Option Role) (hindex : Loaded db accessIndex) :
    (resolveAccessForUser db ctx userId role accessIndex).permission =
      capLapsed db ctx.organizationId (contextVerdict db ctx userId role) := by
  obtain ⟨hanswers, hpersonal⟩ := accessAnswers_eq userId h (context_inOrg h hctx) hindex
  unfold resolveAccessForUser
  rw [hanswers, hpersonal]
  rw [billed_permission, resolveAccess_permission]
  by_cases hl : ctx.organizationId ∈ db.lapsed <;> simp [capLapsed, contextVerdict, hl]

/-- **Files.** What is reported is the resolver's answer. -/
theorem resolveAccess_file (h : WellFormed db) (hctx : buildAccessContext db (.file id) = some ctx) (userId : Id)
    (hindex : Loaded db accessIndex) :
    (resolveAccessForUser db ctx userId (memberRole db ctx.organizationId userId) accessIndex).permission =
      effectivePermission db userId id := by
  rw [resolveAccess_context h hctx userId _ hindex]
  obtain ⟨loc, hloc, rfl⟩ := Option.map_eq_some_iff.1 hctx
  unfold effectivePermission
  rw [hloc]
  rfl

/-- a document without rows of its own is asked about as its folder is -/
theorem askDb_of_no_rows {d : Id} (hnone : ∀ r ∈ db.shares, r.resourceType = .file → r.resourceId ≠ d)
    (userId organizationId : Id) (folderIds : List Id) :
    askDb db userId (some d) folderIds organizationId = askDb db userId none folderIds organizationId := by
  have hon : ∀ r ∈ db.shares, onItem (some d) folderIds r ↔ onItem none folderIds r := by
    intro r hr
    constructor
    · rintro (⟨ht, hd⟩ | hf)
      · exact absurd (Option.some.inj hd).symm (hnone r hr ht)
      · exact .inr hf
    · rintro (⟨-, hd⟩ | hf)
      · cases hd
      · exact .inr hf
  have hwalk : ∀ rows, rows ⊆ db.shares →
      userItemVerdict rows userId (some d) folderIds = userItemVerdict rows userId none folderIds := by
    intro rows hsub
    have hfind : rows.find? (rowAt userId (.file, d)) = none := by
      refine find?_eq_none.2 fun r hr hat => ?_
      obtain ⟨ht, hi, -⟩ := rowAt_iff.1 hat
      exact hnone r (hsub hr) ht hi
    have horder : itemOrder (some d) folderIds = (.file, d) :: itemOrder none folderIds := rfl
    rw [userItemVerdict, horder, walkVerdict, hfind]
    rfl
  have hown : userItemRows db userId (some d) folderIds = userItemRows db userId none folderIds := by
    refine filter_congr fun r hr => ?_
    rw [decide_eq_decide, hon r hr]
  have hprivate : isDenied db (.org organizationId) (some d) folderIds =
      isDenied db (.org organizationId) none folderIds := by
    rw [Bool.eq_iff_iff, isDenied, isDenied, any_eq_true, any_eq_true]
    refine exists_congr fun r => and_congr_right fun hr => ?_
    rw [decide_eq_true_eq, decide_eq_true_eq, hon r hr]
  have hlocks : (db.shares.filter fun r =>
      ((r.principal.isOrg ∧ (r.permission = .locked ∨ r.permission = .readonly)) ∨ r.principal = .user userId) ∧
        onItem (some d) folderIds r) = db.shares.filter fun r =>
      ((r.principal.isOrg ∧ (r.permission = .locked ∨ r.permission = .readonly)) ∨ r.principal = .user userId) ∧
        onItem none folderIds r := by
    refine filter_congr fun r hr => ?_
    rw [decide_eq_decide, hon r hr]
  unfold askDb
  congr 1
  · rw [isDenied, isDenied, hown, hwalk (userItemRows db userId none folderIds) fun _ hr => (mem_filter.1 hr).1]
  · rw [isLocked, isLocked, hlocks, rowsLocked, rowsLocked, hwalk _ fun _ hr => (mem_filter.1 hr).1]
  · funext isMember orgGrantsApply snapshot createdAt orgVaultClause
    unfold sharePermission rowsGrant
    dsimp only
    have hrows : (db.shares.filter fun r =>
        (r.principal = .user userId ∧ (onItem (some d) folderIds r ∨
          (r.resourceType = .vault ∧ r.resourceId = organizationId ∧ r.permission.grants = true))) ∨
        ((isMember && orgGrantsApply) = true ∧ r.principal = .org organizationId ∧ r.permission.grants = true ∧
          (onItem (some d) folderIds r ∨
            (orgVaultClause = true ∧ r.resourceType = .vault ∧ r.resourceId = organizationId)))) =
        db.shares.filter fun r =>
        (r.principal = .user userId ∧ (onItem none folderIds r ∨
          (r.resourceType = .vault ∧ r.resourceId = organizationId ∧ r.permission.grants = true))) ∨
        ((isMember && orgGrantsApply) = true ∧ r.principal = .org organizationId ∧ r.permission.grants = true ∧
          (onItem none folderIds r ∨
            (orgVaultClause = true ∧ r.resourceType = .vault ∧ r.resourceId = organizationId))) := by
      refine filter_congr fun r hr => ?_
      rw [decide_eq_decide, hon r hr]
    rw [hrows, hwalk _ fun _ hr => (mem_filter.1 hr).1]

/-- two resources the join snapshot covers alike get the same grants -/
theorem sharePermission_covered {s : MemberAccessSnapshot} {t t' : ℕ} (ht : t ≤ s.snapshotAt) (ht' : t' ≤ s.snapshotAt)
    (isMember orgGrantsApply orgVaultClause : Bool) :
    sharePermission db userId docId folderIds organizationId isMember orgGrantsApply (some s) (some t) orgVaultClause =
      sharePermission db userId docId folderIds organizationId isMember orgGrantsApply (some s) (some t') orgVaultClause := by
  have hacc : accountedFor (some s) (some t) = accountedFor (some s) (some t') := by
    funext r
    simp [accountedFor, existingAtJoin, ht, ht']
  unfold sharePermission rowsGrant grantFromRows
  rw [hacc]

theorem contextVerdict_congr (db : Db) (userId : Id) (docId : Option Id) (folderIds : List Id) (organizationId : Id)
    {createdBy createdBy' : Option Id} {t t' : ℕ} (role : Option Role) (snapshot : Option MemberAccessSnapshot)
    (hauthor : createdBy = some userId ↔ createdBy' = some userId)
    (hage : ∀ s ∈ snapshot, t ≤ s.snapshotAt ↔ t' ≤ s.snapshotAt) (personal : Option PersonalVaultLevel)
    (baseline : Option VaultPosture) :
    verdict (askDb db userId docId folderIds organizationId) userId createdBy t role personal snapshot baseline =
      verdict (askDb db userId docId folderIds organizationId) userId createdBy' t' role personal snapshot baseline := by
  have hfilter : (snapshot.filter fun s => t ≤ s.snapshotAt) = snapshot.filter fun s => t' ≤ s.snapshotAt := by
    cases snapshot with
    | none => rfl
    | some s =>
      rw [Option.filter_some, Option.filter_some]
      simp only [decide_eq_true_eq, hage s rfl]
  unfold verdict
  rw [hfilter]
  cases hcover : snapshot.filter fun s => t' ≤ s.snapshotAt with
  | none => simp only [hauthor]
  | some s =>
    obtain ⟨hs, hle⟩ := Option.filter_eq_some_iff.1 hcover
    have ht' : t' ≤ s.snapshotAt := of_decide_eq_true hle
    have hgrant : ∀ isMember orgGrantsApply, (askDb db userId docId folderIds organizationId).grant isMember
        orgGrantsApply (some s) (some t) true = (askDb db userId docId folderIds organizationId).grant isMember
        orgGrantsApply (some s) (some t') true := fun isMember orgGrantsApply =>
      sharePermission_covered ((hage s hs).2 ht') ht' isMember orgGrantsApply true
    simp only [hgrant]

/-- **Folders.** What is reported is the resolver's answer for a document in the folder that has no rows of its own, that
the user did not write and that the join snapshot covers as it covers the folder. -/
theorem resolveAccess_folder (h : WellFormed db) (hctx : buildAccessContext db (.folder id) = some ctx) (userId : Id)
    (hindex : Loaded db accessIndex) {r : DocRow} (hr : r ∈ db.liveDocs) (hfolder : r.folderId = some id)
    (hnone : ∀ row ∈ db.shares, row.resourceType = .file → row.resourceId ≠ r.id)
    (hauthor : r.createdBy ≠ some userId)
    (hage : ∀ s ∈ memberAccessSnapshot db ctx.organizationId userId,
      ctx.createdAt ≤ s.snapshotAt ↔ toDate r.createdAt ≤ s.snapshotAt) :
    (resolveAccessForUser db ctx userId (memberRole db ctx.organizationId userId) accessIndex).permission =
      effectivePermission db userId r.id := by
  rw [resolveAccess_context h hctx userId _ hindex]
  obtain ⟨f, hf, hmap⟩ := Option.bind_eq_some_iff.1 hctx
  obtain ⟨o, ho, rfl⟩ := Option.map_eq_some_iff.1 hmap
  obtain ⟨g, hg, hid, hv⟩ := h.docFolder r (liveDocs_subset hr) id hfolder
  have hfg : f = g := by
    have hg' := folder?_eq h hg
    rw [hid, hf] at hg'
    exact Option.some.inj hg'
  have horg : db.organizationOf r.vaultId = some o := by rw [← hv, ← hfg, ho]
  unfold effectivePermission
  rw [locateDoc_eq h hr, horg]
  dsimp only [Option.map_some]
  rw [effectivePermissionInner_eq, askDb_of_no_rows hnone, hfolder]
  exact congrArg (capLapsed db o) (contextVerdict_congr db userId none _ o _ _ (by simp [hauthor]) hage _ _)

end Baalda.Access
