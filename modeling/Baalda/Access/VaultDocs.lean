/-
The readable set of a whole vault (`permissions/vault-docs.ts`): the set-based dual of the resolver, a handful of queries
for all documents at once.

`listReadableDocsInVault` starts from everything (a vault-wide reader) or from what grants and authorship reach
(`scopedDocs`), applies the join snapshot, takes away what is private to the team, and last what is denied to the user. A
query is a filter over rows; its recursive parts are `Forest.descendants` (grants and denies fold down) and
`Forest.topDown` (the user's nearest decisive row). Lists stand for sets of ids. The tombstone question and the memo for
shared reads are not modelled.

`mem_list_iff`: the set is exactly `Readable`, the same rule the resolver follows, but for when the join snapshot covers a
document.
-/
import Baalda.Access.Resolver

namespace Baalda.Access

open List

structure VaultAccess where
  organizationId : Id
  role : Option Role
  vaultWide : Bool
  personal : Option PersonalVaultLevel

section

variable (db : Db)

def vaultAccess (userId vaultId : Id) : Option VaultAccess :=
  (db.organizationOf vaultId).map fun org =>
    let role := memberRole db org userId
    let personal := personalVaultLevel db org userId
    let vaultWide := match personal with
      | some p => decide (p ≠ .denied)
      | none => db.shares.any fun r => r.resourceType = .vault ∧ r.resourceId = org ∧ r.permission.grants = true ∧
          ((role.isSome ∧ r.principal.isOrg) ∨ r.principal = .user userId)
    ⟨org, role, vaultWide, personal⟩

/-! ## Denies -/

def anyDenyRows (principal : Principal) : Bool :=
  db.shares.any fun r => r.permission = .denied ∧ r.principal = principal ∧ r.resourceType ≠ .vault

/-- `user_rows`: the user's rows on folders and files, locks left out -/
def userRows (userId : Id) : List ShareRow :=
  db.shares.filter fun r => r.principal = .user userId ∧ r.resourceType ≠ .vault ∧ r.permission ≠ .locked

/-- the join with `user_rows`: a resource has one row for a user at most -/
def userRowAt (userId : Id) (place : ResourceType × Id) : Option SharePermission :=
  ((userRows db userId).find? fun r => r.resourceType = place.1 ∧ r.resourceId = place.2).map (·.permission)

/-- `dec`: every folder of the vault with the user's nearest decisive permission, from the roots down -/
def dec (userId vaultId : Id) : List (Id × Option SharePermission) :=
  Forest.topDown (db.vaultFolders vaultId) db.parentOf fun f => userRowAt db userId (.folder, f)

/-- `LEFT JOIN dec d ON d.id = folder_id` -/
def decJoin (userId vaultId : Id) (folderId : Option Id) : List (Option SharePermission) :=
  match ((dec db userId vaultId).filter fun d => folderId = some d.1).map (·.2) with
  | [] => [none]
  | perms => perms

def userDeniedDocsInVault (userId vaultId : Id) : List Id :=
  ((db.notes ++ db.files).filter fun r : DocRow => r.vaultId = vaultId ∧
    ∃ perm ∈ decJoin db userId vaultId r.folderId, (userRowAt db userId (.file, r.id)).or perm = some .denied).map (·.id)

/-- the folders of the vault at or below one of `seeds` -/
def subtree (vaultId : Id) (seeds : List Id) : List Id :=
  Forest.descendants (db.vaultFolders vaultId) db.parentOf seeds

/-- the resources of one type with a row that `who` picks -/
def resourcesWith (resourceType : ResourceType) (who : ShareRow → Bool) : List Id :=
  (db.shares.filter fun r => r.resourceType = resourceType ∧ who r).map (·.resourceId)

/-- the document, or a folder above it, has a row that `who` picks -/
def reached (vaultId : Id) (who : ShareRow → Bool) (r : DocRow) : Bool :=
  (∃ f ∈ r.folderId, f ∈ subtree db vaultId (resourcesWith db .folder who)) ∨ r.id ∈ resourcesWith db .file who

end

def deniedTo (principal : Principal) (r : ShareRow) : Bool := r.permission = .denied ∧ r.principal = principal

def deniedDocsInVault (db : Db) (principal : Principal) (vaultId : Id) : List Id :=
  if anyDenyRows db principal then
    match principal with
    | .user userId => userDeniedDocsInVault db userId vaultId
    | .org _ => ((db.notes ++ db.files).filter fun r : DocRow =>
        r.vaultId = vaultId ∧ reached db vaultId (deniedTo principal) r).map (·.id)
  else []

/-! ## What grants reach -/

/-- the live notes and the files of the vault that meet a condition each -/
def liveIds (db : Db) (vaultId : Id) (noteWhere fileWhere : DocRow → Bool) : List Id :=
  ((db.notes.filter fun n => n.vaultId = vaultId ∧ n.deleted = false ∧ noteWhere n) ++
    db.files.filter fun f => f.vaultId = vaultId ∧ fileWhere f).map (·.id)

/-- a row that grants to the user, or to the organization when its grants count -/
def grantedTo (userId organizationId : Id) (orgGrants : Bool) (r : ShareRow) : Bool :=
  r.permission.grants = true ∧ (r.principal = .user userId ∨ (orgGrants = true ∧ r.principal = .org organizationId))

def scopedDocs (db : Db) (userId vaultId organizationId : Id) (isMember orgGrants creatorCounts : Bool) : List Id :=
  let userVaultGrant := db.shares.any fun r => r.resourceType = .vault ∧ r.resourceId = organizationId ∧
    r.permission.grants = true ∧ r.principal = .user userId
  let granted := fun r => reached db vaultId (grantedTo userId organizationId (isMember && orgGrants)) r || userVaultGrant
  liveIds db vaultId
    (fun n => (isMember ∧ creatorCounts ∧ n.createdBy = some userId) ∨ granted n)
    (fun f => (isMember ∧ creatorCounts ∧ f.createdBy = some userId ∧
      ¬ ∃ n ∈ db.notes, n.id = f.id ∧ n.deleted = false) ∨ granted f)

/-- a row that grants to the user, or to the organization after the join -/
def allowedTo (userId organizationId : Id) (snapshot : MemberAccessSnapshot) (r : ShareRow) : Bool :=
  r.permission.grants = true ∧
    (r.principal = .user userId ∨ (r.principal = .org organizationId ∧ snapshot.accessRevision < r.accessRevision))

/-- the document is as old as the snapshot: its timestamp against the snapshot's `Date` -/
def listAtJoin (r : DocRow) (snapshot : MemberAccessSnapshot) : Bool := r.createdAt ≤ ofDate snapshot.snapshotAt

/-- what a private join leaves of the documents that existed -/
def allowedDocs (db : Db) (userId vaultId organizationId : Id) (snapshot : MemberAccessSnapshot) : List Id :=
  let allowed := allowedTo userId organizationId snapshot
  let vaultGrant := db.shares.any fun r => r.resourceType = .vault ∧ r.resourceId = organizationId ∧ allowed r
  let query := fun r => listAtJoin r snapshot ∧ (reached db vaultId allowed r ∨ vaultGrant)
  liveIds db vaultId (fun n => query n) (fun f => query f)

def subtract (a b : List Id) : List Id := a.filter fun id => id ∉ b

/-- the documents the join snapshot covers get what it gives, not what the vault gives -/
def applySnapshot (db : Db) (userId vaultId organizationId : Id) (reachable : List Id) :
    Option MemberAccessSnapshot → List Id
  | none => reachable
  | some snapshot =>
    let existing := liveIds db vaultId (fun n => listAtJoin n snapshot) (fun f => listAtJoin f snapshot)
    if snapshot.mode = .privateMode then
      subtract reachable existing ++ allowedDocs db userId vaultId organizationId snapshot
    else reachable ++ existing

/-- `listDocsInVault` for the live documents -/
def listReadableDocsInVault (db : Db) (userId vaultId : Id) : List Id :=
  match vaultAccess db userId vaultId with
  | none => []
  | some ⟨org, role, vaultWide, personal⟩ =>
    let isMember := role.isSome
    let userDenied := deniedDocsInVault db (.user userId) vaultId
    let orgDenied := deniedDocsInVault db (.org org) vaultId
    let noAuthor := personal ≠ none ∨ vaultBaseline db org = some .sealed
    let reachable :=
      if vaultWide then liveIds db vaultId (fun _ => true) (fun _ => true)
      else scopedDocs db userId vaultId org isMember (personal ≠ some .denied) (¬ noAuthor)
    let snapshot := if personal ≠ none then none else memberAccessSnapshot db org userId
    let joined := applySnapshot db userId vaultId org reachable snapshot
    let kept :=
      if orgDenied ≠ [] then
        subtract joined (subtract orgDenied (scopedDocs db userId vaultId org isMember false false))
      else joined
    subtract kept userDenied

/-! ## What the queries select -/

variable {db : Db} {userId organizationId : Id} {r : DocRow}

/-- an id picked by a filter over the documents is picked for its own row -/
theorem mem_docIds (h : WellFormed db) (hr : r ∈ db.notes ++ db.files) (keep : DocRow → Bool) :
    r.id ∈ ((db.notes ++ db.files).filter keep).map (·.id) ↔ keep r = true := by
  rw [mem_map]
  constructor
  · rintro ⟨r', hr', hid⟩
    obtain ⟨hmem, hkeep⟩ := mem_filter.1 hr'
    exact liveDoc_key h hmem hr hid ▸ hkeep
  · intro hkeep
    exact ⟨r, mem_filter.2 ⟨hr, hkeep⟩, rfl⟩

/-- a live document is picked by its own condition, which on files may say more than on notes -/
theorem mem_liveIds (h : WellFormed db) (hr : r ∈ db.liveDocs) (noteWhere fileWhere : DocRow → Bool)
    (hfile : r ∈ db.files → fileWhere r = noteWhere r) :
    r.id ∈ liveIds db r.vaultId noteWhere fileWhere ↔ noteWhere r = true := by
  have hkey : ∀ r' ∈ db.notes ++ db.files, r'.id = r.id → r' = r := fun r' hr' hid =>
    liveDoc_key h hr' (liveDocs_subset hr) hid
  simp only [liveIds, mem_map, mem_append, mem_filter, decide_eq_true_eq]
  constructor
  · rintro ⟨r', ⟨hr', -, -, hwhere⟩ | ⟨hr', -, hwhere⟩, hid⟩
    · exact hkey r' (mem_append_left _ hr') hid ▸ hwhere
    · obtain rfl := hkey r' (mem_append_right _ hr') hid
      exact (hfile hr').symm.trans hwhere
  · intro hwhere
    rcases mem_liveDocs.1 hr with ⟨hnote, hlive⟩ | hf
    · exact ⟨r, .inl ⟨hnote, rfl, hlive, hwhere⟩, rfl⟩
    · exact ⟨r, .inr ⟨hf, rfl, (hfile hf).trans hwhere⟩, rfl⟩

section

variable (h : WellFormed db) (hr : r ∈ db.notes ++ db.files)

include h hr

theorem folder_mem_vaultFolders {f : Id} (hf : r.folderId = some f) : f ∈ db.vaultFolders r.vaultId := by
  obtain ⟨g, hg, rfl, hv⟩ := h.docFolder r hr f hf
  exact mem_vaultFolders.2 ⟨g, hg, hv, rfl⟩

/-- the folders of a document, seen from its vault alone -/
theorem folderChain_eq {f : Id} (hf : r.folderId = some f) :
    folderChain db r = Forest.ancestors (db.vaultFolders r.vaultId) db.parentOf f := by
  rw [ancestors_vaultFolders h _ f (folder_mem_vaultFolders h hr hf), folderChain, hf]
  rfl

theorem folder_mem_subtree (seeds : List Id) :
    (∃ f ∈ r.folderId, f ∈ subtree db r.vaultId seeds) ↔ ∃ a ∈ folderChain db r, a ∈ seeds := by
  cases hf : r.folderId with
  | none => simp [folderChain, ancestorFolderIds, hf]
  | some f =>
    rw [folderChain_eq h hr hf]
    simp only [Option.mem_def, Option.some.injEq, exists_eq_left']
    exact Forest.mem_descendants (rooted_vaultFolders h r.vaultId) seeds f

end

theorem mem_resourcesWith {t : ResourceType} {who : ShareRow → Bool} {id : Id} :
    id ∈ resourcesWith db t who ↔ ∃ row ∈ db.shares, who row = true ∧ row.resourceType = t ∧ row.resourceId = id := by
  simp only [resourcesWith, mem_map, mem_filter, decide_eq_true_eq]
  constructor
  · rintro ⟨row, ⟨hrow, ht, hw⟩, hid⟩
    exact ⟨row, hrow, hw, ht, hid⟩
  · rintro ⟨row, hrow, hw, ht, hid⟩
    exact ⟨row, ⟨hrow, ht, hw⟩, hid⟩

section

variable (h : WellFormed db)

include h

/-- folding rows down to a document meets the rows on its way up -/
theorem reached_iff (hr : r ∈ db.notes ++ db.files) (who : ShareRow → Bool) :
    reached db r.vaultId who r = true ↔
      ∃ row ∈ db.shares, who row = true ∧ onItem (some r.id) (folderChain db r) row := by
  rw [reached, decide_eq_true_eq, folder_mem_subtree h hr, mem_resourcesWith]
  constructor
  · rintro (⟨a, ha, hseed⟩ | ⟨row, hrow, hw, ht, hid⟩)
    · obtain ⟨row, hrow, hw, ht, rfl⟩ := mem_resourcesWith.1 hseed
      exact ⟨row, hrow, hw, .inr ⟨ht, ha⟩⟩
    · exact ⟨row, hrow, hw, .inl ⟨ht, by rw [hid]⟩⟩
  · rintro ⟨row, hrow, hw, ⟨ht, hid⟩ | ⟨ht, ha⟩⟩
    · exact .inr ⟨row, hrow, hw, ht, (Option.some.inj hid).symm⟩
    · exact .inl ⟨row.resourceId, ha, mem_resourcesWith.2 ⟨row, hrow, hw, ht, rfl⟩⟩

/-! ## The user's denies -/

/-- joining with the rows that decide is looking the row up and asking whether it decides -/
theorem userRowAt_eq {place : ResourceType × Id} (hp : place.1 ≠ .vault) :
    userRowAt db userId place = decisiveAt db.shares userId place := by
  have hfind : (userRows db userId).find? (fun r => r.resourceType = place.1 ∧ r.resourceId = place.2) =
      db.shares.find? fun r => rowAt userId place r && decide (r.permission ≠ .locked) := by
    rw [userRows, find?_filter]
    refine congrArg (fun f => db.shares.find? f) (funext fun r => ?_)
    by_cases ht : r.resourceType = place.1
    · simp [rowAt, ht, hp, Bool.and_comm, Bool.and_left_comm]
    · simp [rowAt, ht]
  rw [userRowAt, hfind, decisiveAt]
  cases hrow : db.shares.find? (rowAt userId place) with
  | none =>
    have hnone : db.shares.find? (fun r => rowAt userId place r && decide (r.permission ≠ .locked)) = none := by
      refine find?_eq_none.2 fun r hr => ?_
      simp [find?_eq_none.1 hrow r hr]
    rw [hnone]
    rfl
  | some r =>
    have hr : r ∈ db.shares := mem_of_find?_eq_some hrow
    have hat := rowAt_iff.1 (find?_some hrow)
    have hkey : ∀ r' ∈ db.shares, rowAt userId place r' = true → r' = r := by
      intro r' hr' hat'
      obtain ⟨ht', hi', hu'⟩ := rowAt_iff.1 hat'
      exact h.shareKey r' hr' r hr (ht'.trans hat.1.symm) (hi'.trans hat.2.1.symm) (hu'.trans hat.2.2.symm)
    by_cases hlock : r.permission = .locked
    · have hnone : db.shares.find? (fun r => rowAt userId place r && decide (r.permission ≠ .locked)) = none := by
        refine find?_eq_none.2 fun r' hr' htrue => ?_
        obtain ⟨hat', hdec⟩ := Bool.and_eq_true_iff.1 htrue
        exact of_decide_eq_true hdec (hkey r' hr' hat' ▸ hlock)
      rw [hnone]
      simp [hlock, SharePermission.decides]
    · have hsome : db.shares.find? (fun r => rowAt userId place r && decide (r.permission ≠ .locked)) = some r := by
        refine shares_find? h hr (by simp [rowAt_iff.2 hat, hlock]) fun r' hr' htrue => ?_
        obtain rfl := hkey r' hr' (Bool.and_eq_true_iff.1 htrue).1
        exact ⟨rfl, rfl, rfl⟩
      rw [hsome]
      exact (decides_eq_some.2 ⟨hlock, rfl⟩).symm

/-- the joined value is the nearest decisive permission on the folders above -/
theorem mem_decJoin (hr : r ∈ db.notes ++ db.files) (perm : Option SharePermission) :
    perm ∈ decJoin db userId r.vaultId r.folderId ↔
      perm = (folderChain db r).findSome? fun f => userRowAt db userId (.folder, f) := by
  have hrows : ∀ b, b ∈ ((dec db userId r.vaultId).filter fun d => r.folderId = some d.1).map (·.2) ↔
      ∃ f, r.folderId = some f ∧ (f, b) ∈ dec db userId r.vaultId := by
    intro b
    simp only [mem_map, mem_filter, decide_eq_true_eq, Prod.exists]
    constructor
    · rintro ⟨f, c, ⟨hmem, hf⟩, rfl⟩
      exact ⟨f, hf, hmem⟩
    · rintro ⟨f, hf, hmem⟩
      exact ⟨f, b, ⟨hmem, hf⟩, rfl⟩
  cases hf : r.folderId with
  | none =>
    unfold decJoin
    simp [folderChain, ancestorFolderIds, hf]
  | some f =>
    have hforest := rooted_vaultFolders h r.vaultId
    have hnode := folder_mem_vaultFolders h hr hf
    have hvalue : ∀ b, b ∈ ((dec db userId r.vaultId).filter fun d => r.folderId = some d.1).map (·.2) ↔
        b = (folderChain db r).findSome? fun f => userRowAt db userId (.folder, f) := by
      intro b
      rw [hrows, folderChain_eq h hr hf]
      constructor
      · rintro ⟨f', hf', hmem⟩
        cases hf.symm.trans hf'
        exact ((Forest.mem_topDown hforest _).1 hmem).2
      · rintro rfl
        exact ⟨f, hf, (Forest.mem_topDown hforest _).2 ⟨hnode, rfl⟩⟩
    rw [hf] at hvalue
    unfold decJoin
    split
    · next hnil =>
      rw [hnil] at hvalue
      exact absurd ((hvalue _).2 rfl) (by simp)
    · exact hvalue perm

/-- the user's nearest decisive row, as the queries compute it -/
theorem decisive_eq :
    decisive db.shares userId (some r.id) (folderChain db r) =
      (userRowAt db userId (.file, r.id)).or
        ((folderChain db r).findSome? fun f => userRowAt db userId (.folder, f)) := by
  have hfolders : ((folderChain db r).map fun f => (ResourceType.folder, f)).findSome? (decisiveAt db.shares userId) =
      (folderChain db r).findSome? fun f => userRowAt db userId (.folder, f) := by
    rw [findSome?_map]
    exact findSome?_congr fun f _ => (userRowAt_eq h (by simp)).symm
  have hfile : decisiveAt db.shares userId (.file, r.id) = userRowAt db userId (.file, r.id) :=
    (userRowAt_eq h (by simp)).symm
  rw [← hfolders, ← hfile]
  unfold decisive itemOrder
  cases hd : decisiveAt db.shares userId (.file, r.id) <;> simp [hd]

theorem mem_userDeniedDocs (hr : r ∈ db.notes ++ db.files) :
    r.id ∈ userDeniedDocsInVault db userId r.vaultId ↔ UserDenied db userId r := by
  rw [userDeniedDocsInVault, mem_docIds h hr, decide_eq_true_eq, UserDenied, decisive_eq h]
  simp [mem_decJoin h hr]

theorem mem_deniedDocs_user (hr : r ∈ db.notes ++ db.files) :
    r.id ∈ deniedDocsInVault db (.user userId) r.vaultId ↔ UserDenied db userId r := by
  unfold deniedDocsInVault
  split_ifs with hany
  · exact mem_userDeniedDocs h hr
  · refine iff_of_false (by simp) fun hden => hany ?_
    obtain ⟨place, hplace, hat⟩ := exists_of_findSome?_eq_some hden
    obtain ⟨row, hfind, hdec⟩ := Option.bind_eq_some_iff.1 hat
    obtain ⟨ht, -, hu⟩ := rowAt_iff.1 (find?_some hfind)
    have hperm : row.permission = .denied := (decides_eq_some.1 hdec).2
    have htype : row.resourceType ≠ .vault := by
      rcases mem_itemOrder.1 hplace with ⟨hp, -⟩ | ⟨hp, -⟩ <;> rw [ht, hp] <;> simp
    exact any_eq_true.2 ⟨row, mem_of_find?_eq_some hfind, decide_eq_true ⟨hperm, hu, htype⟩⟩

theorem mem_deniedDocs_org (hr : r ∈ db.notes ++ db.files) :
    r.id ∈ deniedDocsInVault db (.org organizationId) r.vaultId ↔ ItemPrivate db organizationId r := by
  have hprivate : ItemPrivate db organizationId r ↔
      ∃ row ∈ db.shares, deniedTo (.org organizationId) row = true ∧ onItem (some r.id) (folderChain db r) row := by
    simp [ItemPrivate, isDenied, deniedTo, and_assoc]
  rw [hprivate]
  unfold deniedDocsInVault
  split_ifs with hany
  · rw [mem_docIds h hr, decide_eq_true_eq, and_iff_right rfl]
    exact reached_iff h hr _
  · refine iff_of_false (by simp) ?_
    rintro ⟨row, hrow, hden, hitem⟩
    apply hany
    obtain ⟨hperm, hp⟩ := of_decide_eq_true hden
    have htype : row.resourceType ≠ .vault := by rcases hitem with ⟨ht, -⟩ | ⟨ht, -⟩ <;> rw [ht] <;> simp
    exact any_eq_true.2 ⟨row, hrow, decide_eq_true ⟨hperm, hp, htype⟩⟩

end

/-! ## The steps of the list -/

/-- a row on the document or its folders that lets the organization read -/
def OrgItemGrant (db : Db) (organizationId : Id) (r : DocRow) : Prop :=
  ∃ row ∈ db.shares, row.principal = .org organizationId ∧ row.permission.grants = true ∧
    onItem (some r.id) (folderChain db r) row

def OrgVaultGrant (db : Db) (organizationId : Id) : Prop :=
  ∃ row ∈ db.shares, row.principal = .org organizationId ∧ row.permission.grants = true ∧
    row.resourceType = .vault ∧ row.resourceId = organizationId

def UserVaultGrant (db : Db) (userId organizationId : Id) : Prop :=
  ∃ row ∈ db.shares, row.principal = .user userId ∧ row.permission.grants = true ∧
    row.resourceType = .vault ∧ row.resourceId = organizationId

theorem orgGrant_iff : OrgGrant db organizationId (some r.id) (folderChain db r) none ↔
    OrgItemGrant db organizationId r ∨ OrgVaultGrant db organizationId := by
  constructor
  · rintro ⟨row, hrow, hp, hg, hi | hv, -⟩
    · exact .inl ⟨row, hrow, hp, hg, hi⟩
    · exact .inr ⟨row, hrow, hp, hg, hv⟩
  · rintro (⟨row, hrow, hp, hg, hi⟩ | ⟨row, hrow, hp, hg, hv⟩)
    · exact ⟨row, hrow, hp, hg, .inl hi, by simp⟩
    · exact ⟨row, hrow, hp, hg, .inr hv, by simp⟩

theorem mem_scopedDocs (h : WellFormed db) (hr : r ∈ db.liveDocs) (isMember orgGrants creatorCounts : Bool) :
    r.id ∈ scopedDocs db userId r.vaultId organizationId isMember orgGrants creatorCounts ↔
      (isMember = true ∧ creatorCounts = true ∧ r.createdBy = some userId) ∨ DocUserGrant db userId r ∨
        (isMember = true ∧ orgGrants = true ∧ OrgItemGrant db organizationId r) ∨
          UserVaultGrant db userId organizationId := by
  have hgranted : reached db r.vaultId (grantedTo userId organizationId (isMember && orgGrants)) r = true ↔
      DocUserGrant db userId r ∨ (isMember = true ∧ orgGrants = true ∧ OrgItemGrant db organizationId r) := by
    rw [reached_iff h (liveDocs_subset hr)]
    simp only [grantedTo, decide_eq_true_eq, Bool.and_eq_true]
    constructor
    · rintro ⟨row, hrow, ⟨hg, hu | ⟨⟨hm, ho⟩, hp⟩⟩, hi⟩
      · exact .inl ⟨row, hrow, hu, hg, hi⟩
      · exact .inr ⟨hm, ho, row, hrow, hp, hg, hi⟩
    · rintro (⟨row, hrow, hu, hg, hi⟩ | ⟨hm, ho, row, hrow, hp, hg, hi⟩)
      · exact ⟨row, hrow, ⟨hg, .inl hu⟩, hi⟩
      · exact ⟨row, hrow, ⟨hg, .inr ⟨⟨hm, ho⟩, hp⟩⟩, hi⟩
  have hvault : (db.shares.any fun r => r.resourceType = .vault ∧ r.resourceId = organizationId ∧
      r.permission.grants = true ∧ r.principal = .user userId) = true ↔ UserVaultGrant db userId organizationId := by
    simp only [any_eq_true, decide_eq_true_eq]
    exact exists_congr fun row => and_congr_right' ⟨fun ⟨ht, hi, hg, hu⟩ => ⟨hu, hg, ht, hi⟩,
      fun ⟨hu, hg, ht, hi⟩ => ⟨ht, hi, hg, hu⟩⟩
  have hnote : r ∈ db.files → ¬ ∃ n ∈ db.notes, n.id = r.id ∧ n.deleted = false := by
    rintro hf ⟨n, hn, hid, -⟩
    exact note_ne_file h hn hf hid
  unfold scopedDocs
  rw [mem_liveIds h hr _ _ fun hf => by simp [hnote hf], decide_eq_true_eq, Bool.or_eq_true, hgranted, hvault, or_assoc]

theorem mem_subtract {a b : List Id} {id : Id} : id ∈ subtract a b ↔ id ∈ a ∧ id ∉ b := by
  simp [subtract]

section

variable (h : WellFormed db) (hr : r ∈ db.liveDocs) (huser : ¬ UserVaultGrant db userId organizationId)

include h hr huser

/-- a private join leaves the personal grants and what the organization granted since -/
theorem mem_allowedDocs (s : MemberAccessSnapshot) :
    r.id ∈ allowedDocs db userId r.vaultId organizationId s ↔ listAtJoin r s = true ∧
      (DocUserGrant db userId r ∨
        OrgGrant db organizationId (some r.id) (folderChain db r) (some s.accessRevision)) := by
  unfold allowedDocs
  dsimp only
  rw [mem_liveIds h hr _ _ fun _ => rfl, decide_eq_true_eq, reached_iff h (liveDocs_subset hr)]
  refine and_congr_right' ?_
  simp only [allowedTo, any_eq_true, decide_eq_true_eq]
  constructor
  · rintro (⟨row, hrow, ⟨hg, hu | ⟨hp, hrev⟩⟩, hi⟩ | ⟨row, hrow, ht, hid, hg, hu | ⟨hp, hrev⟩⟩)
    · exact .inl ⟨row, hrow, hu, hg, hi⟩
    · exact .inr ⟨row, hrow, hp, hg, .inl hi, by simpa using hrev⟩
    · exact absurd ⟨row, hrow, hu, hg, ht, hid⟩ huser
    · exact .inr ⟨row, hrow, hp, hg, .inr ⟨ht, hid⟩, by simpa using hrev⟩
  · rintro (⟨row, hrow, hu, hg, hi⟩ | ⟨row, hrow, hp, hg, hi | ⟨ht, hid⟩, hrev⟩)
    · exact .inl ⟨row, hrow, ⟨hg, .inl hu⟩, hi⟩
    · exact .inl ⟨row, hrow, ⟨hg, .inr ⟨hp, by simpa using hrev⟩⟩, hi⟩
    · exact .inr ⟨row, hrow, ht, hid, hg, .inr ⟨hp, by simpa using hrev⟩⟩

/-- the snapshot decides for the documents it covers, and for no others -/
theorem mem_applySnapshot (reachable : List Id) (snapshot : Option MemberAccessSnapshot) :
    r.id ∈ applySnapshot db userId r.vaultId organizationId reachable snapshot ↔
      match snapshot.filter (listAtJoin r) with
      | some s => DocUserGrant db userId r ∨ JoinGrant db organizationId r s
      | none => r.id ∈ reachable := by
  cases snapshot with
  | none => rfl
  | some s =>
    have hexisting : r.id ∈ liveIds db r.vaultId (fun n => listAtJoin n s) (fun f => listAtJoin f s) ↔
        listAtJoin r s = true := mem_liveIds h hr _ _ fun _ => rfl
    unfold applySnapshot
    dsimp only
    cases hat : listAtJoin r s with
    | true =>
      have hfilter : (some s).filter (listAtJoin r) = some s := by simp [hat]
      rw [hfilter]
      split_ifs with hmode
      · rw [mem_append, mem_subtract, hexisting, mem_allowedDocs h hr huser]
        simp [hat, JoinGrant, hmode]
      · rw [mem_append, hexisting]
        simp [hat, JoinGrant, hmode]
    | false =>
      have hfilter : (some s).filter (listAtJoin r) = none := by simp [hat]
      rw [hfilter]
      split_ifs with hmode
      · rw [mem_append, mem_subtract, hexisting, mem_allowedDocs h hr huser]
        simp [hat]
      · rw [mem_append, hexisting]
        simp [hat]

/-- before the join snapshot: everything for a member of a vault that is shared, else grants and authorship -/
theorem mem_reachable {vaultWide isMember creatorCounts : Bool}
    (hwide : vaultWide = true ↔ isMember = true ∧ OrgVaultGrant db organizationId)
    (hauthor : creatorCounts = true ↔ vaultBaseline db organizationId ≠ some .sealed) :
    r.id ∈ (if vaultWide = true then liveIds db r.vaultId (fun _ => true) (fun _ => true)
      else scopedDocs db userId r.vaultId organizationId isMember true creatorCounts) ↔
      DocUserGrant db userId r ∨ (isMember = true ∧ LiveGrant db userId organizationId r) := by
  unfold LiveGrant
  rw [orgGrant_iff]
  split_ifs with hvault
  · obtain ⟨hmember, horg⟩ := hwide.1 hvault
    refine iff_of_true ?_ (.inr ⟨hmember, .inl (.inr horg)⟩)
    exact (mem_liveIds h hr _ _ fun _ => rfl).2 rfl
  · rw [mem_scopedDocs h hr]
    constructor
    · rintro (⟨hmember, hopen, hmine⟩ | huserDoc | ⟨hmember, -, horg⟩ | huv)
      · exact .inr ⟨hmember, .inr ⟨hmine, hauthor.1 hopen⟩⟩
      · exact .inl huserDoc
      · exact .inr ⟨hmember, .inl (.inl horg)⟩
      · exact absurd huv huser
    · rintro (huserDoc | ⟨hmember, (horg | horg) | ⟨hmine, hopen⟩⟩)
      · exact .inr (.inl huserDoc)
      · exact .inr (.inr (.inl ⟨hmember, rfl, horg⟩))
      · exact absurd (hwide.2 ⟨hmember, horg⟩) hvault
      · exact .inl ⟨hmember, hauthor.2 hopen, hmine⟩

end

/-- what is private to the team is kept for those it names; what is denied to the user goes last -/
theorem mem_afterDenies (h : WellFormed db) (hr : r ∈ db.liveDocs) (isMember : Bool) (joined : List Id) :
    r.id ∈ subtract (if deniedDocsInVault db (.org organizationId) r.vaultId ≠ [] then
        subtract joined (subtract (deniedDocsInVault db (.org organizationId) r.vaultId)
          (scopedDocs db userId r.vaultId organizationId isMember false false))
      else joined) (deniedDocsInVault db (.user userId) r.vaultId) ↔
      ¬ UserDenied db userId r ∧ r.id ∈ joined ∧
        (ItemPrivate db organizationId r → DocUserGrant db userId r ∨ UserVaultGrant db userId organizationId) := by
  have hscoped : r.id ∈ scopedDocs db userId r.vaultId organizationId isMember false false ↔
      DocUserGrant db userId r ∨ UserVaultGrant db userId organizationId := by
    rw [mem_scopedDocs h hr]
    simp
  have horg : r.id ∈ deniedDocsInVault db (.org organizationId) r.vaultId ↔ ItemPrivate db organizationId r :=
    mem_deniedDocs_org h (liveDocs_subset hr)
  rw [mem_subtract, mem_deniedDocs_user h (liveDocs_subset hr), and_comm]
  refine and_congr_right' ?_
  split_ifs with hnil
  · rw [mem_subtract, mem_subtract, horg, hscoped]
    exact and_congr_right' ⟨fun hno hp => by_contra fun hn => hno ⟨hp, hn⟩, fun himp ⟨hp, hn⟩ => hn (himp hp)⟩
  · have hopen : ¬ ItemPrivate db organizationId r := by
      rw [← horg, not_not.1 hnil]
      simp
    simp [hopen]

theorem or_and_imp {named joined hidden : Prop} :
    (named ∨ joined) ∧ (hidden → named) ↔ named ∨ (¬ hidden ∧ joined) := by
  constructor
  · rintro ⟨hn | hj, himp⟩
    · exact .inl hn
    · by_cases hh : hidden
      · exact .inl (himp hh)
      · exact .inr ⟨hh, hj⟩
  · rintro (hn | ⟨hh, hj⟩)
    · exact ⟨.inl hn, fun _ => hn⟩
    · exact ⟨.inr hj, fun hd => absurd hd hh⟩

/-- **The set.** A live document of the vault is in it exactly when it is readable, the join snapshot covering the
documents whose timestamps its `Date` reaches. -/
theorem mem_list_iff (h : WellFormed db) (hr : r ∈ db.liveDocs)
    (ho : db.organizationOf r.vaultId = some organizationId) :
    r.id ∈ listReadableDocsInVault db userId r.vaultId ↔ Readable db userId organizationId r (listAtJoin r) := by
  unfold listReadableDocsInVault vaultAccess Readable
  rw [ho]
  dsimp only [Option.map_some]
  rw [mem_afterDenies h hr]
  refine and_congr_right fun hden => ?_
  cases hpersonal : personalVaultLevel db organizationId userId with
  | some personal =>
    have huv : UserVaultGrant db userId organizationId ↔ personal ≠ .denied := by
      rw [UserVaultGrant, userVaultGrant_iff h, hpersonal]
      simp
    rw [huv]
    by_cases hp : personal = .denied
    · -- their own No access: only what they are named on
      have hscoped : r.id ∈ scopedDocs db userId r.vaultId organizationId (memberRole db organizationId userId).isSome
          false false ↔ DocUserGrant db userId r := by
        rw [mem_scopedDocs h hr, huv]
        simp [hp]
      simp +contextual [hp, applySnapshot, hscoped]
    · have hall : r.id ∈ liveIds db r.vaultId (fun _ => true) (fun _ => true) := (mem_liveIds h hr _ _ fun _ => rfl).2 rfl
      simp [hp, applySnapshot, hall]
  | none =>
    have huv : ¬ UserVaultGrant db userId organizationId := personal_none h hpersonal
    have hwide : (db.shares.any fun r => r.resourceType = .vault ∧ r.resourceId = organizationId ∧
        r.permission.grants = true ∧ (((memberRole db organizationId userId).isSome ∧ r.principal.isOrg) ∨
          r.principal = .user userId)) = true ↔
        (memberRole db organizationId userId).isSome = true ∧ OrgVaultGrant db organizationId := by
      simp only [any_eq_true, decide_eq_true_eq]
      constructor
      · rintro ⟨row, hrow, ht, hid, hg, ⟨hmember, horg⟩ | hu⟩
        · exact ⟨hmember, row, hrow, org_of_vaultRow h hrow ht hid horg, hg, ht, hid⟩
        · exact absurd ⟨row, hrow, hu, hg, ht, hid⟩ huv
      · rintro ⟨hmember, row, hrow, hp, hg, ht, hid⟩
        exact ⟨row, hrow, ht, hid, hg, .inl ⟨hmember, by rw [hp]; rfl⟩⟩
    have hauthor : (decide ¬((none : Option PersonalVaultLevel) ≠ none ∨
        vaultBaseline db organizationId = some .sealed)) = true ↔ vaultBaseline db organizationId ≠ some .sealed := by
      simp
    have hreach := mem_reachable h hr huv hwide hauthor
    rw [mem_applySnapshot h hr huv, if_neg (not_not.2 rfl)]
    cases hsnap : (memberAccessSnapshot db organizationId userId).filter (listAtJoin r) with
    | some s =>
      have hmember := member_of_snapshot h (Option.filter_eq_some_iff.1 hsnap).1
      rw [or_iff_left huv, or_and_imp, and_iff_right hmember]
    | none =>
      rw [show decide ((none : Option PersonalVaultLevel) ≠ some .denied) = true from rfl, hreach, or_iff_left huv,
        or_and_imp]

end Baalda.Access
