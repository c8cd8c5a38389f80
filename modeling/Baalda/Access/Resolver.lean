/-
The per-document resolver (`permissions/resolver.ts`): what one user may do with one document.

`effectivePermission` locates the document, walks its folders up to the root, and applies in this order: the user's own
denies, the user's own level for the vault, the join snapshot, the vault's posture, authorship and the grants; locks cap
what is left. The path without a cache is modelled: every question asks the database.

`Readable` restates when the answer is not `none`, in terms of the rows that exist, and `readable_iff` proves it. The walk
over the user's own rows is the one loop in it (`walkVerdict_decisive`: the deepest decisive row).
-/
import Baalda.Access.Tables

namespace Baalda.Access

open List

inductive Permission where
  | edit
  | view
  | none
deriving DecidableEq

def Permission.rank : Permission → ℕ
  | .none => 0
  | .view => 1
  | .edit => 2

def maxPermission (a b : Permission) : Permission := if b.rank ≤ a.rank then a else b

structure DocLocation where
  vaultId : Id
  folderId : Option Id
  organizationId : Id
  createdBy : Option Id
  /-- a `Date`, in milliseconds -/
  createdAt : ℕ
deriving DecidableEq

def locateDoc (db : Db) (docId : Id) : Option DocLocation :=
  (db.liveDocs.filter fun r => r.id = docId).findSome? fun r =>
    (db.organizationOf r.vaultId).map fun o => ⟨r.vaultId, r.folderId, o, r.createdBy, toDate r.createdAt⟩

/-- the folder, then each parent up to the root -/
def ancestorFolderIds (db : Db) : Option Id → List Id
  | none => []
  | some id => Forest.ancestors db.folderIds db.parentOf id

/-! ## The user's own rows -/

/-- the row is on the document, or on a folder of the list -/
def onItem (docId : Option Id) (folderIds : List Id) (r : ShareRow) : Prop :=
  (r.resourceType = .file ∧ docId = some r.resourceId) ∨ (r.resourceType = .folder ∧ r.resourceId ∈ folderIds)

instance (docId : Option Id) (folderIds : List Id) (r : ShareRow) : Decidable (onItem docId folderIds r) :=
  inferInstanceAs (Decidable (_ ∨ _))

structure UserItemVerdict where
  deny : Bool
  grant : Permission
  cap : Bool
deriving DecidableEq

/-- where to look, nearest first -/
def itemOrder (docId : Option Id) (folderIds : List Id) : List (ResourceType × Id) :=
  (docId.toList.map fun d => (.file, d)) ++ folderIds.map fun f => (.folder, f)

/-- the user's row at one place -/
def rowAt (userId : Id) (place : ResourceType × Id) (r : ShareRow) : Bool :=
  r.resourceType = place.1 ∧ r.resourceId = place.2 ∧ r.principal = .user userId

/-- the loop of `userItemVerdict` -/
def walkVerdict (rows : List ShareRow) (userId : Id) : Bool → Bool → List (ResourceType × Id) → UserItemVerdict
  | cap, viewFound, [] => ⟨false, if viewFound then .view else .none, cap⟩
  | cap, viewFound, place :: rest =>
    match rows.find? (rowAt userId place) with
    | none => walkVerdict rows userId cap viewFound rest
    | some r =>
      -- below a found `view`, only an ancestor `edit` still counts
      if viewFound then
        if r.permission = .edit then ⟨false, .edit, cap⟩ else walkVerdict rows userId cap viewFound rest
      else
        match r.permission with
        | .locked => walkVerdict rows userId true viewFound rest
        | .denied => ⟨true, .none, cap⟩
        | .readonly => ⟨false, .view, true⟩
        | .view => walkVerdict rows userId cap true rest
        | .edit => ⟨false, .edit, cap⟩

def userItemVerdict (rows : List ShareRow) (userId : Id) (docId : Option Id) (folderIds : List Id) : UserItemVerdict :=
  walkVerdict rows userId false false (itemOrder docId folderIds)

def userItemRows (db : Db) (userId : Id) (docId : Option Id) (folderIds : List Id) : List ShareRow :=
  db.shares.filter fun r => r.principal = .user userId ∧ onItem docId folderIds r

def isDenied (db : Db) (principal : Principal) (docId : Option Id) (folderIds : List Id) : Bool :=
  match principal with
  | .user userId => (userItemVerdict (userItemRows db userId docId folderIds) userId docId folderIds).deny
  | .org _ => db.shares.any fun r => r.permission = .denied ∧ r.principal = principal ∧ onItem docId folderIds r

def Principal.isOrg : Principal → Bool
  | .org _ => true
  | .user _ => false

def rowsLocked (rows : List ShareRow) (userId : Id) (docId : Option Id) (folderIds : List Id) : Bool :=
  (rows.any fun r => r.resourceType ≠ .vault ∧ (r.permission = .locked ∨ r.permission = .readonly) ∧ r.principal.isOrg) ||
    (userItemVerdict rows userId docId folderIds).cap

def isLocked (db : Db) (userId : Id) (docId : Option Id) (folderIds : List Id) : Bool :=
  rowsLocked (db.shares.filter fun r =>
    ((r.principal.isOrg ∧ (r.permission = .locked ∨ r.permission = .readonly)) ∨ r.principal = .user userId) ∧
      onItem docId folderIds r) userId docId folderIds

/-! ## Grants -/

/-- the resource existed when the member joined -/
def existingAtJoin (snapshot : Option MemberAccessSnapshot) (createdAt : Option ℕ) : Bool :=
  match snapshot, createdAt with
  | some s, some t => t ≤ s.snapshotAt
  | _, _ => false

/-- an org grant that the join snapshot already accounts for -/
def accountedFor (snapshot : Option MemberAccessSnapshot) (createdAt : Option ℕ) (r : ShareRow) : Bool :=
  match snapshot with
  | some s => r.principal.isOrg && existingAtJoin snapshot createdAt && decide (r.accessRevision ≤ s.accessRevision)
  | none => false

def grantFromRows (rows : List ShareRow) (snapshot : Option MemberAccessSnapshot) (createdAt : Option ℕ) : Permission :=
  rows.foldl (fun best r =>
    if accountedFor snapshot createdAt r then best
    else
      match r.permission with
      | .edit => maxPermission best .edit
      | .view | .readonly => maxPermission best .view
      | _ => best) .none

def rowsGrant (rows : List ShareRow) (userId : Id) (docId : Option Id) (folderIds : List Id) (organizationId : Id)
    (orgClause orgVaultClause : Bool) (snapshot : Option MemberAccessSnapshot) (createdAt : Option ℕ) : Permission :=
  let base := rows.filter fun r =>
    r.permission.grants = true ∧
      ((r.principal = .user userId ∧ r.resourceType = .vault ∧ r.resourceId = organizationId) ∨
        (orgClause = true ∧ r.principal = .org organizationId ∧ (r.resourceType = .file ∨ r.resourceType = .folder ∨
          (orgVaultClause = true ∧ r.resourceType = .vault ∧ r.resourceId = organizationId))))
  maxPermission (grantFromRows base snapshot createdAt) (userItemVerdict rows userId docId folderIds).grant

def sharePermission (db : Db) (userId : Id) (docId : Option Id) (folderIds : List Id) (organizationId : Id)
    (isMember orgGrantsApply : Bool) (snapshot : Option MemberAccessSnapshot) (createdAt : Option ℕ)
    (orgVaultClause : Bool) : Permission :=
  let rows := db.shares.filter fun r =>
    (r.principal = .user userId ∧ (onItem docId folderIds r ∨
      (r.resourceType = .vault ∧ r.resourceId = organizationId ∧ r.permission.grants = true))) ∨
    ((isMember && orgGrantsApply) = true ∧ r.principal = .org organizationId ∧ r.permission.grants = true ∧
      (onItem docId folderIds r ∨
        (orgVaultClause = true ∧ r.resourceType = .vault ∧ r.resourceId = organizationId)))
  rowsGrant rows userId docId folderIds organizationId (isMember && orgGrantsApply) orgVaultClause snapshot createdAt

/-! ## The vault's posture, a person's own level -/

inductive VaultPosture where
  | edit
  | view
  | sealed
deriving DecidableEq

def postureOf : SharePermission → Option VaultPosture
  | .edit => some .edit
  | .view => some .view
  | .denied => some .sealed
  | _ => none

def vaultBaseline (db : Db) (organizationId : Id) : Option VaultPosture :=
  (db.shares.find? fun r => r.resourceType = .vault ∧ r.resourceId = organizationId ∧ r.principal.isOrg ∧
    (r.permission = .view ∨ r.permission = .edit ∨ r.permission = .denied)).bind fun r => postureOf r.permission

inductive PersonalVaultLevel where
  | edit
  | view
  | denied
deriving DecidableEq

def personalLevelOf : SharePermission → Option PersonalVaultLevel
  | .edit => some .edit
  | .view | .readonly => some .view
  | .denied => some .denied
  | .locked => none

def personalVaultLevel (db : Db) (organizationId userId : Id) : Option PersonalVaultLevel :=
  (db.shares.find? fun r => r.resourceType = .vault ∧ r.resourceId = organizationId ∧ r.principal = .user userId ∧
    r.permission ≠ .locked).bind fun r => personalLevelOf r.permission

/-! ## The resolver -/

/-- what a join snapshot gives by itself -/
def JoinMode.permission : JoinMode → Permission
  | .openMode => .edit
  | .readonlyMode => .view
  | .privateMode => .none

def effectivePermissionInner (db : Db) (userId docId : Id) (loc : DocLocation) : Permission :=
  let folderIds := ancestorFolderIds db loc.folderId
  let org := loc.organizationId
  let capped := fun granted : Permission =>
    if granted ≠ .none ∧ isLocked db userId (some docId) folderIds then .view else granted
  let grant := fun (isMember orgGrantsApply : Bool) (snapshot : Option MemberAccessSnapshot) (createdAt : Option ℕ)
    (orgVaultClause : Bool) =>
    sharePermission db userId (some docId) folderIds org isMember orgGrantsApply snapshot createdAt orgVaultClause
  if isDenied db (.user userId) (some docId) folderIds then .none
  else
    let itemPrivate := isDenied db (.org org) (some docId) folderIds
    let role := memberRole db org userId
    match personalVaultLevel db org userId with
    | some personal => capped (grant role.isSome (!itemPrivate && personal ≠ .denied) none none false)
    | none =>
      match (memberAccessSnapshot db org userId).filter fun s => loc.createdAt ≤ s.snapshotAt with
      | some snapshot =>
        let direct := grant role.isSome (!itemPrivate) (some snapshot) (some loc.createdAt) true
        capped (maxPermission (if itemPrivate then .none else snapshot.mode.permission) direct)
      | none =>
        let baseline := vaultBaseline db org
        capped (
          if itemPrivate then grant false false none none true
          else if baseline = some .view ∨ baseline = some .sealed then grant role.isSome true none none true
          else if baseline ≠ none ∧ (role = some .owner ∨ role = some .admin) then .edit
          else if role.isSome ∧ loc.createdBy = some userId then .edit
          else grant role.isSome true none none true)

/-- the billing cap on top: a lapsed organization is read-only -/
def effectivePermission (db : Db) (userId docId : Id) : Permission :=
  match locateDoc db docId with
  | none => .none
  | some loc =>
    let perm := effectivePermissionInner db userId docId loc
    if perm = .edit ∧ loc.organizationId ∈ db.lapsed then .view else perm

/-! ## The deepest decisive row -/

/-- a lock never decides -/
def SharePermission.decides : SharePermission → Option SharePermission
  | .locked => none
  | p => some p

theorem decides_eq_some {p q : SharePermission} : p.decides = some q ↔ p ≠ .locked ∧ p = q := by
  cases p <;> simp [SharePermission.decides]

/-- the user's row at one place, unless it is a lock -/
def decisiveAt (rows : List ShareRow) (userId : Id) (place : ResourceType × Id) : Option SharePermission :=
  (rows.find? (rowAt userId place)).bind fun r => r.permission.decides

/-- the nearest decisive row on the way up -/
def decisive (rows : List ShareRow) (userId : Id) (docId : Option Id) (folderIds : List Id) : Option SharePermission :=
  (itemOrder docId folderIds).findSome? (decisiveAt rows userId)

section

variable (rows : List ShareRow) (userId : Id) (cap : Bool) (order : List (ResourceType × Id))

theorem walkVerdict_view :
    (walkVerdict rows userId cap true order).deny = false ∧ (walkVerdict rows userId cap true order).grant ≠ .none := by
  induction order with
  | nil => simp [walkVerdict]
  | cons place rest ih =>
    rw [walkVerdict]
    cases rows.find? (rowAt userId place) with
    | none => exact ih
    | some r =>
      by_cases hp : r.permission = .edit
      · simp [hp]
      · simpa [hp] using ih

/-- **The walk denies** exactly when the nearest decisive row does, **and grants** exactly when that row is not a deny. -/
theorem walkVerdict_decisive :
    ((walkVerdict rows userId cap false order).deny = true ↔
      order.findSome? (decisiveAt rows userId) = some .denied) ∧
    ((walkVerdict rows userId cap false order).grant ≠ .none ↔
      ∃ p, order.findSome? (decisiveAt rows userId) = some p ∧ p ≠ .denied) := by
  induction order generalizing cap with
  | nil => simp [walkVerdict]
  | cons place rest ih =>
    rw [walkVerdict, findSome?_cons]
    cases hfind : rows.find? (rowAt userId place) with
    | none => simpa [decisiveAt, hfind] using ih cap
    | some r =>
      have hview := walkVerdict_view rows userId cap rest
      cases hp : r.permission with
      | locked => simpa [decisiveAt, hfind, SharePermission.decides, hp] using ih true
      | denied | readonly | edit => simp [decisiveAt, hfind, SharePermission.decides, hp]
      | view => simp [decisiveAt, hfind, SharePermission.decides, hp, hview]

end

variable {db : Db} {userId organizationId : Id} {docId : Option Id} {folderIds : List Id}

theorem mem_itemOrder {place : ResourceType × Id} :
    place ∈ itemOrder docId folderIds ↔
      (place.1 = .file ∧ docId = some place.2) ∨ (place.1 = .folder ∧ place.2 ∈ folderIds) := by
  obtain ⟨t, i⟩ := place
  simp only [itemOrder, mem_append, mem_map, Option.mem_toList, Prod.mk.injEq]
  constructor
  · rintro (⟨d, hd, rfl, rfl⟩ | ⟨f, hf, rfl, rfl⟩)
    · exact .inl ⟨rfl, hd⟩
    · exact .inr ⟨rfl, hf⟩
  · rintro (⟨rfl, hd⟩ | ⟨rfl, hf⟩)
    · exact .inl ⟨i, hd, rfl, rfl⟩
    · exact .inr ⟨i, hf, rfl, rfl⟩

variable {r : ShareRow}

theorem rowAt_iff {place : ResourceType × Id} :
    rowAt userId place r = true ↔ r.resourceType = place.1 ∧ r.resourceId = place.2 ∧ r.principal = .user userId := by
  simp [rowAt]

theorem onItem_iff : onItem docId folderIds r ↔ (r.resourceType, r.resourceId) ∈ itemOrder docId folderIds := by
  rw [mem_itemOrder, onItem]

theorem findSome?_congr {α β : Type*} {f g : α → Option β} {l : List α} (h : ∀ x ∈ l, f x = g x) :
    l.findSome? f = l.findSome? g := by
  induction l with
  | nil => rfl
  | cons x l ih =>
    rw [findSome?_cons, findSome?_cons, h x mem_cons_self,
      ih fun y hy => h y (.tail _ hy)]

/-- a part of the rows that has all of the user's rows on the item answers as all rows do -/
theorem decisive_filter {q : ShareRow → Bool} (hq : ∀ r, r.principal = .user userId → onItem docId folderIds r → q r = true) :
    decisive (db.shares.filter q) userId docId folderIds = decisive db.shares userId docId folderIds := by
  refine findSome?_congr fun place hplace => ?_
  have hfind : (db.shares.filter q).find? (rowAt userId place) = db.shares.find? (rowAt userId place) := by
    rw [find?_filter]
    refine congrArg (fun f => db.shares.find? f) (funext fun r => ?_)
    cases hrow : rowAt userId place r with
    | false => simp
    | true =>
      obtain ⟨ht, hi, hu⟩ := rowAt_iff.1 hrow
      have hitem : onItem docId folderIds r := onItem_iff.2 (by rw [ht, hi]; exact hplace)
      simp [hq r hu hitem]
  rw [decisiveAt, decisiveAt, hfind]

theorem isDenied_user :
    isDenied db (.user userId) docId folderIds = true ↔ decisive db.shares userId docId folderIds = some .denied := by
  rw [isDenied, userItemVerdict, (walkVerdict_decisive ..).1]
  exact Eq.congr_left (decisive_filter fun r hu hi => by simp [hu, hi])

/-! ## Grants, as rows that exist -/

def UserGrant (db : Db) (userId : Id) (docId : Option Id) (folderIds : List Id) : Prop :=
  ∃ r ∈ db.shares, r.principal = .user userId ∧ r.permission.grants = true ∧ onItem docId folderIds r

/-- a row that lets the whole organization read, with a revision past `after` when there is one -/
def OrgGrant (db : Db) (organizationId : Id) (docId : Option Id) (folderIds : List Id) (after : Option ℕ) : Prop :=
  ∃ r ∈ db.shares, r.principal = .org organizationId ∧ r.permission.grants = true ∧
    (onItem docId folderIds r ∨ (r.resourceType = .vault ∧ r.resourceId = organizationId)) ∧
    ∀ k ∈ after, k < r.accessRevision

instance : Decidable (UserGrant db userId docId folderIds) := inferInstanceAs (Decidable (∃ r ∈ db.shares, _))

instance (after : Option ℕ) : Decidable (OrgGrant db organizationId docId folderIds after) :=
  inferInstanceAs (Decidable (∃ r ∈ db.shares, _))

/-- the user's own rows grant exactly when the nearest decisive one is not a deny -/
theorem userGrant_iff (h : WellFormed db) (hdeny : decisive db.shares userId docId folderIds ≠ some .denied) :
    UserGrant db userId docId folderIds ↔ ∃ p, decisive db.shares userId docId folderIds = some p ∧ p ≠ .denied := by
  constructor
  · rintro ⟨r, hr, hu, hg, hi⟩
    have hfind : db.shares.find? (rowAt userId (r.resourceType, r.resourceId)) = some r :=
      shares_find? h hr (rowAt_iff.2 ⟨rfl, rfl, hu⟩) fun r' _ hr' => by
        obtain ⟨ht, hid, hp⟩ := rowAt_iff.1 hr'
        exact ⟨ht, hid, hp.trans hu.symm⟩
    have hsome : decisiveAt db.shares userId (r.resourceType, r.resourceId) = some r.permission := by
      have hlock : r.permission ≠ .locked := fun hl => by rw [hl] at hg; exact absurd hg (by decide)
      simp [decisiveAt, hfind, decides_eq_some, hlock]
    cases hdec : decisive db.shares userId docId folderIds with
    | none =>
      have hnone := findSome?_eq_none_iff.1 hdec _ (onItem_iff.1 hi)
      exact absurd (hsome.symm.trans hnone) (by simp)
    | some p => exact ⟨p, rfl, fun hp => hdeny (hp ▸ hdec)⟩
  · rintro ⟨p, hdec, hp⟩
    obtain ⟨place, hplace, hat⟩ := exists_of_findSome?_eq_some hdec
    obtain ⟨r, hfind, hdecides⟩ := Option.bind_eq_some_iff.1 hat
    obtain ⟨hlock, rfl⟩ := decides_eq_some.1 hdecides
    obtain ⟨ht, hid, hu⟩ := rowAt_iff.1 (find?_some hfind)
    refine ⟨r, mem_of_find?_eq_some hfind, hu, ?_, onItem_iff.2 (by rw [ht, hid]; exact hplace)⟩
    cases hperm : r.permission with
    | locked => exact absurd hperm hlock
    | denied => exact absurd hperm hp
    | _ => rfl

theorem maxPermission_ne_none {a b : Permission} : maxPermission a b ≠ .none ↔ a ≠ .none ∨ b ≠ .none := by
  cases a <;> cases b <;> decide

theorem grantFromRows_ne_none (rows : List ShareRow) (snapshot : Option MemberAccessSnapshot) (createdAt : Option ℕ) :
    grantFromRows rows snapshot createdAt ≠ .none ↔
      ∃ r ∈ rows, accountedFor snapshot createdAt r = false ∧ r.permission.grants = true := by
  have hfold : ∀ best, rows.foldl (fun best r =>
      if accountedFor snapshot createdAt r then best
      else
        match r.permission with
        | .edit => maxPermission best .edit
        | .view | .readonly => maxPermission best .view
        | _ => best) best ≠ .none ↔
      best ≠ .none ∨ ∃ r ∈ rows, accountedFor snapshot createdAt r = false ∧ r.permission.grants = true := by
    induction rows with
    | nil => simp
    | cons r rows ih =>
      intro best
      rw [foldl_cons, ih]
      cases hacc : accountedFor snapshot createdAt r with
      | true => simp [hacc]
      | false => cases hp : r.permission <;> simp [hacc, hp, SharePermission.grants, maxPermission_ne_none]
  exact (hfold .none).trans (by simp)

/-- **When the grants let the user read.** -/
theorem sharePermission_ne_none (h : WellFormed db) (hdeny : decisive db.shares userId docId folderIds ≠ some .denied)
    (isMember orgGrantsApply : Bool) (snapshot : Option MemberAccessSnapshot) (createdAt : Option ℕ)
    (orgVaultClause : Bool) :
    sharePermission db userId docId folderIds organizationId isMember orgGrantsApply snapshot createdAt orgVaultClause ≠
        .none ↔
      UserGrant db userId docId folderIds ∨
      (∃ r ∈ db.shares, r.principal = .user userId ∧ r.permission.grants = true ∧ r.resourceType = .vault ∧
        r.resourceId = organizationId) ∨
      (isMember = true ∧ orgGrantsApply = true ∧ ∃ r ∈ db.shares, r.principal = .org organizationId ∧
        r.permission.grants = true ∧ (onItem docId folderIds r ∨
          (orgVaultClause = true ∧ r.resourceType = .vault ∧ r.resourceId = organizationId)) ∧
        accountedFor snapshot createdAt r = false) := by
  have hown : ∀ q : ShareRow → Bool, (∀ r, r.principal = .user userId → onItem docId folderIds r → q r = true) →
      ((userItemVerdict (db.shares.filter q) userId docId folderIds).grant ≠ .none ↔
        UserGrant db userId docId folderIds) := by
    intro q hq
    rw [userItemVerdict, (walkVerdict_decisive ..).2, userGrant_iff h hdeny]
    exact exists_congr fun p => and_congr_left' (Eq.congr_left (decisive_filter hq))
  unfold sharePermission rowsGrant
  rw [maxPermission_ne_none, hown _ fun r hu hi => by simp [hu, hi], grantFromRows_ne_none, or_comm]
  refine or_congr_right ?_
  simp only [mem_filter, decide_eq_true_eq, Bool.and_eq_true]
  have hitem : ∀ {r : ShareRow}, onItem docId folderIds r → r.resourceType = .file ∨ r.resourceType = .folder := fun hi =>
    hi.imp And.left And.left
  constructor
  · rintro ⟨r, ⟨⟨hr, hsql⟩, -, hbase⟩, hacc, hg⟩
    rcases hbase with ⟨hu, hv, ho⟩ | ⟨⟨hm, happ⟩, hp, hres⟩
    · exact .inl ⟨r, hr, hu, hg, hv, ho⟩
    · rcases hsql with ⟨hu, -⟩ | ⟨-, -, -, hon⟩
      · exact absurd (hp.symm.trans hu) (by simp)
      · exact .inr ⟨hm, happ, r, hr, hp, hg, hon, hacc⟩
  · rintro (⟨r, hr, hu, hg, hv, ho⟩ | ⟨hm, happ, r, hr, hp, hg, hon, hacc⟩)
    · refine ⟨r, ⟨⟨hr, .inl ⟨hu, .inr ⟨hv, ho, hg⟩⟩⟩, hg, .inl ⟨hu, hv, ho⟩⟩, ?_, hg⟩
      cases snapshot <;> simp [accountedFor, hu, Principal.isOrg]
    · refine ⟨r, ⟨⟨hr, .inr ⟨⟨hm, happ⟩, hp, hg, hon⟩⟩, hg, .inr ⟨⟨hm, happ⟩, hp, ?_⟩⟩, hacc, hg⟩
      rcases hon with hi | hv
      · exact (hitem hi).imp_right .inl
      · exact .inr (.inr hv)

/-! ## When a document is readable -/

def folderChain (db : Db) (r : DocRow) : List Id := ancestorFolderIds db r.folderId

/-- the user's nearest decisive row on the document or its folders is a deny -/
def UserDenied (db : Db) (userId : Id) (r : DocRow) : Prop :=
  decisive db.shares userId (some r.id) (folderChain db r) = some .denied

/-- the document or one of its folders is set to Private -/
def ItemPrivate (db : Db) (organizationId : Id) (r : DocRow) : Prop :=
  isDenied db (.org organizationId) (some r.id) (folderChain db r) = true

def DocUserGrant (db : Db) (userId : Id) (r : DocRow) : Prop := UserGrant db userId (some r.id) (folderChain db r)

/-- the join snapshot, or an org grant written after it, lets the member read -/
def JoinGrant (db : Db) (organizationId : Id) (r : DocRow) (s : MemberAccessSnapshot) : Prop :=
  s.mode ≠ .privateMode ∨ OrgGrant db organizationId (some r.id) (folderChain db r) (some s.accessRevision)

/-- an org grant, or authorship in a vault that is not sealed, lets the member read -/
def LiveGrant (db : Db) (userId organizationId : Id) (r : DocRow) : Prop :=
  OrgGrant db organizationId (some r.id) (folderChain db r) none ∨
    (r.createdBy = some userId ∧ vaultBaseline db organizationId ≠ some .sealed)

instance (db : Db) (userId : Id) (r : DocRow) : Decidable (UserDenied db userId r) := inferInstanceAs (Decidable (_ = _))

instance (db : Db) (organizationId : Id) (r : DocRow) : Decidable (ItemPrivate db organizationId r) :=
  inferInstanceAs (Decidable (_ = _))

instance (db : Db) (userId : Id) (r : DocRow) : Decidable (DocUserGrant db userId r) :=
  inferInstanceAs (Decidable (UserGrant ..))

instance (db : Db) (organizationId : Id) (r : DocRow) (s : MemberAccessSnapshot) :
    Decidable (JoinGrant db organizationId r s) := inferInstanceAs (Decidable (_ ∨ OrgGrant ..))

instance (db : Db) (userId organizationId : Id) (r : DocRow) : Decidable (LiveGrant db userId organizationId r) :=
  inferInstanceAs (Decidable (OrgGrant .. ∨ _))

/-- the user may read the document, where `atJoin` says whether the join snapshot covers it -/
def Readable (db : Db) (userId organizationId : Id) (r : DocRow) (atJoin : MemberAccessSnapshot → Bool) : Prop :=
  ¬ UserDenied db userId r ∧
    match personalVaultLevel db organizationId userId with
    | some personal => personal ≠ .denied ∨ DocUserGrant db userId r
    | none => DocUserGrant db userId r ∨ (¬ ItemPrivate db organizationId r ∧
        (memberRole db organizationId userId).isSome = true ∧
        match (memberAccessSnapshot db organizationId userId).filter atJoin with
        | some s => JoinGrant db organizationId r s
        | none => LiveGrant db userId organizationId r)

/-- the resolver's test compares two `Date`s -/
def resolverAtJoin (r : DocRow) (s : MemberAccessSnapshot) : Bool := toDate r.createdAt ≤ s.snapshotAt

theorem findSome?_of_forall_eq {α β : Type*} {f : α → Option β} {l : List α} {x : α} (hx : x ∈ l) (h : ∀ y ∈ l, y = x) :
    l.findSome? f = f x := by
  cases hf : f x with
  | none => exact findSome?_eq_none_iff.2 fun y hy => by rw [h y hy, hf]
  | some b =>
    cases l with
    | nil => cases hx
    | cons y l =>
      rw [findSome?_cons, h y mem_cons_self, hf]

theorem locateDoc_eq (h : WellFormed db) {r : DocRow} (hr : r ∈ db.liveDocs) :
    locateDoc db r.id = (db.organizationOf r.vaultId).map fun o =>
      ⟨r.vaultId, r.folderId, o, r.createdBy, toDate r.createdAt⟩ := by
  refine findSome?_of_forall_eq (mem_filter.2 ⟨hr, by simp⟩) fun r' hr' => ?_
  obtain ⟨hmem, hid⟩ := mem_filter.1 hr'
  exact liveDoc_key h (liveDocs_subset hmem) (liveDocs_subset hr) (by simpa using hid)

/-- the user's own vault row grants unless it is a deny -/
theorem userVaultGrant_iff (h : WellFormed db) :
    (∃ r ∈ db.shares, r.principal = .user userId ∧ r.permission.grants = true ∧ r.resourceType = .vault ∧
      r.resourceId = organizationId) ↔ ∃ p, personalVaultLevel db organizationId userId = some p ∧ p ≠ .denied := by
  constructor
  · rintro ⟨r, hr, hu, hg, hv, ho⟩
    have hlock : r.permission ≠ .locked := fun hl => by rw [hl] at hg; exact absurd hg (by decide)
    have hfind : db.shares.find? (fun r => r.resourceType = .vault ∧ r.resourceId = organizationId ∧
        r.principal = .user userId ∧ r.permission ≠ .locked) = some r :=
      shares_find? h hr (by simp [hu, hv, ho, hlock]) fun r' _ hr' => by
        obtain ⟨hv', ho', hu', -⟩ := of_decide_eq_true hr'
        exact ⟨hv'.trans hv.symm, ho'.trans ho.symm, hu'.trans hu.symm⟩
    unfold personalVaultLevel
    rw [hfind]
    cases hp : r.permission with
    | locked => exact absurd hp hlock
    | denied => rw [hp] at hg; exact absurd hg (by decide)
    | view | readonly => exact ⟨.view, by simp [personalLevelOf, hp], by simp⟩
    | edit => exact ⟨.edit, by simp [personalLevelOf, hp], by simp⟩
  · rintro ⟨p, hpersonal, hp⟩
    obtain ⟨r, hfind, hlevel⟩ := Option.bind_eq_some_iff.1 hpersonal
    obtain ⟨hv, ho, hu, -⟩ := of_decide_eq_true (find?_some hfind :)
    refine ⟨r, mem_of_find?_eq_some hfind, hu, ?_, hv, ho⟩
    cases hperm : r.permission with
    | denied =>
      rw [hperm] at hlevel
      exact absurd (Option.some.inj hlevel).symm hp
    | locked =>
      rw [hperm] at hlevel
      simp [personalLevelOf] at hlevel
    | _ => rfl

theorem personal_none (h : WellFormed db) (hp : personalVaultLevel db organizationId userId = none) :
    ¬ ∃ r ∈ db.shares, r.principal = .user userId ∧ r.permission.grants = true ∧ r.resourceType = .vault ∧
      r.resourceId = organizationId := by
  rw [userVaultGrant_iff h, hp]
  simp

/-- rows that share a vault with everyone name its organization -/
theorem org_of_vaultRow (h : WellFormed db) (hr : r ∈ db.shares) (hv : r.resourceType = .vault)
    (ho : r.resourceId = organizationId) (horg : r.principal.isOrg = true) : r.principal = .org organizationId := by
  cases hp : r.principal with
  | user u =>
    rw [hp] at horg
    simp [Principal.isOrg] at horg
  | org o => rw [h.vaultRow r hr hv o hp, ho]

/-- the postures that show the vault to its members are rows that grant -/
theorem orgGrant_of_baseline (h : WellFormed db) {p : VaultPosture} (hb : vaultBaseline db organizationId = some p)
    (hp : p ≠ .sealed) : OrgGrant db organizationId docId folderIds none := by
  obtain ⟨r, hfind, hposture⟩ := Option.bind_eq_some_iff.1 hb
  obtain ⟨hv, ho, horg, -⟩ := of_decide_eq_true (find?_some hfind :)
  have hr : r ∈ db.shares := mem_of_find?_eq_some hfind
  refine ⟨r, hr, org_of_vaultRow h hr hv ho horg, ?_, .inr ⟨hv, ho⟩, by simp⟩
  cases hperm : r.permission with
  | denied =>
    rw [hperm] at hposture
    exact absurd (Option.some.inj hposture).symm hp
  | locked =>
    rw [hperm] at hposture
    simp [postureOf] at hposture
  | _ => rfl

theorem capped_ne_none {granted : Permission} {locked : Prop} [Decidable locked] :
    (if granted ≠ .none ∧ locked then Permission.view else granted) ≠ .none ↔ granted ≠ .none := by
  split_ifs with h
  · simp [h.1]
  · rfl

theorem joinMode_permission_ne_none {m : JoinMode} : m.permission ≠ .none ↔ m ≠ .privateMode := by cases m <;> decide

theorem member_of_snapshot (h : WellFormed db) {s : MemberAccessSnapshot}
    (hs : memberAccessSnapshot db organizationId userId = some s) :
    (memberRole db organizationId userId).isSome = true := by
  obtain ⟨row, hfind, -⟩ := Option.map_eq_some_iff.1 hs
  obtain ⟨ho, hu⟩ := of_decide_eq_true (find?_some hfind :)
  obtain ⟨m, hm, hmo, hmu⟩ := h.snapshotMember row (mem_of_find?_eq_some hfind)
  rw [memberRole, Option.isSome_map, find?_isSome]
  exact ⟨m, hm, decide_eq_true ⟨hmo.trans ho, hmu.trans hu⟩⟩

section

variable (h : WellFormed db) (hdeny : decisive db.shares userId docId folderIds ≠ some .denied) (hp : personalVaultLevel
    db organizationId userId = none) (isMember orgGrantsApply : Bool)

include h hdeny hp

/-- the grants of a live posture, for a person with no level of their own -/
theorem sharePermission_live :
    sharePermission db userId docId folderIds organizationId isMember orgGrantsApply none none true ≠ .none ↔
      UserGrant db userId docId folderIds ∨
        (isMember = true ∧ orgGrantsApply = true ∧ OrgGrant db organizationId docId folderIds none) := by
  rw [sharePermission_ne_none h hdeny, or_iff_right (personal_none h hp)]
  simp [OrgGrant, accountedFor]

/-- the grants that survive a join snapshot: the organization's count only when they are newer -/
theorem sharePermission_joined {s : MemberAccessSnapshot} {createdAt : ℕ} (hs : createdAt ≤ s.snapshotAt) :
    sharePermission db userId docId folderIds organizationId isMember orgGrantsApply (some s) (some createdAt) true ≠
        .none ↔
      UserGrant db userId docId folderIds ∨ (isMember = true ∧ orgGrantsApply = true ∧
        OrgGrant db organizationId docId folderIds (some s.accessRevision)) := by
  have hacc : ∀ r : ShareRow, r.principal = .org organizationId →
      (accountedFor (some s) (some createdAt) r = false ↔ s.accessRevision < r.accessRevision) := by
    intro r hr
    simp [accountedFor, existingAtJoin, hr, Principal.isOrg, hs]
  rw [sharePermission_ne_none h hdeny, or_iff_right (personal_none h hp)]
  refine or_congr_right (and_congr_right' (and_congr_right' (exists_congr fun r => ?_)))
  refine and_congr_right' (and_congr_right fun hr => and_congr_right' ?_)
  rw [hacc r hr]
  simp

end

/-- **The resolver.** It answers other than `none` exactly when the document is readable, the join snapshot covering what
its test says it covers. -/
theorem readable_iff (h : WellFormed db) {r : DocRow} (hr : r ∈ db.liveDocs)
    (ho : db.organizationOf r.vaultId = some organizationId) :
    effectivePermission db userId r.id ≠ .none ↔ Readable db userId organizationId r (resolverAtJoin r) := by
  have hinner : effectivePermission db userId r.id ≠ .none ↔
      effectivePermissionInner db userId r.id ⟨r.vaultId, r.folderId, organizationId, r.createdBy, toDate r.createdAt⟩ ≠
        .none := by
    unfold effectivePermission
    rw [locateDoc_eq h hr, ho]
    dsimp only [Option.map_some]
    split_ifs with hlapsed
    · simp [hlapsed.1]
    · rfl
  rw [hinner]
  unfold effectivePermissionInner Readable
  by_cases hden : isDenied db (.user userId) (some r.id) (ancestorFolderIds db r.folderId) = true
  · have hud : UserDenied db userId r := isDenied_user.1 hden
    simp [hden, hud]
  have hud : ¬ UserDenied db userId r := fun hud => hden (isDenied_user.2 hud)
  have hprivate : isDenied db (.org organizationId) (some r.id) (ancestorFolderIds db r.folderId) = true ↔
      ItemPrivate db organizationId r := Iff.rfl
  have hdec : decisive db.shares userId (some r.id) (ancestorFolderIds db r.folderId) ≠ some .denied := hud
  rw [if_neg hden, and_iff_right hud]
  cases hpersonal : personalVaultLevel db organizationId userId with
  | some personal =>
    rw [capped_ne_none, sharePermission_ne_none h hdec, userVaultGrant_iff h, hpersonal]
    constructor
    · rintro (huser | ⟨p, hp, hne⟩ | ⟨-, happly, -⟩)
      · exact .inr huser
      · exact .inl (Option.some.inj hp ▸ hne)
      · have hne : personal ≠ .denied := of_decide_eq_true (Bool.and_eq_true_iff.1 happly).2
        exact .inl hne
    · rintro (hne | huser)
      · exact .inr (.inl ⟨personal, rfl, hne⟩)
      · exact .inl huser
  | none =>
    have hlive := sharePermission_live h hdec hpersonal
    cases hsnap : (memberAccessSnapshot db organizationId userId).filter (resolverAtJoin r) with
    | some s =>
      have hfilter : (memberAccessSnapshot db organizationId userId).filter
          (fun s => decide (toDate r.createdAt ≤ s.snapshotAt)) = some s := hsnap
      obtain ⟨hs, hle⟩ := Option.filter_eq_some_iff.1 hsnap
      have hmember : (memberRole db organizationId userId).isSome = true := member_of_snapshot h hs
      rw [hfilter]
      rw [capped_ne_none, maxPermission_ne_none,
        sharePermission_joined h hdec hpersonal _ _ (of_decide_eq_true hle)]
      by_cases hitem : ItemPrivate db organizationId r
      · rw [hprivate.2 hitem]
        simp [hitem, DocUserGrant, folderChain]
      · have hopen : isDenied db (.org organizationId) (some r.id) (ancestorFolderIds db r.folderId) = false :=
          Bool.eq_false_iff.2 hitem
        rw [hopen]
        simp [hitem, hmember, joinMode_permission_ne_none, JoinGrant, DocUserGrant, folderChain, or_left_comm]
    | none =>
      have hfilter : (memberAccessSnapshot db organizationId userId).filter
          (fun s => decide (toDate r.createdAt ≤ s.snapshotAt)) = none := hsnap
      rw [hfilter]
      rw [capped_ne_none]
      by_cases hitem : ItemPrivate db organizationId r
      · rw [if_pos (hprivate.2 hitem), hlive]
        simp [hitem, DocUserGrant, folderChain]
      rw [if_neg (mt hprivate.1 hitem)]
      split_ifs with hclosed hrole hauthor
      · -- read-only and sealed vaults: authorship adds nothing to the grants
        rw [hlive]
        constructor
        · rintro (huser | ⟨hmember, -, horg⟩)
          · exact .inl huser
          · exact .inr ⟨hitem, hmember, .inl horg⟩
        · rintro (huser | ⟨-, hmember, horg | ⟨-, hopen⟩⟩)
          · exact .inl huser
          · exact .inr ⟨hmember, rfl, horg⟩
          · have hview : vaultBaseline db organizationId = some .view := hclosed.resolve_right hopen
            exact .inr ⟨hmember, rfl, orgGrant_of_baseline h hview (by simp)⟩
      · -- owners and admins: the posture is the organization's own grant
        obtain ⟨p, hp⟩ := Option.ne_none_iff_exists'.1 hrole.1
        have hsealed : p ≠ .sealed := fun hps => hclosed (.inr (hps ▸ hp))
        have hmember : (memberRole db organizationId userId).isSome = true := by
          rcases hrole.2 with hr | hr <;> rw [hr] <;> rfl
        refine iff_of_true (by simp) (.inr ⟨hitem, hmember, .inl (orgGrant_of_baseline h hp hsealed)⟩)
      · have hopen : vaultBaseline db organizationId ≠ some .sealed := fun hs => hclosed (.inr hs)
        exact iff_of_true (by simp) (.inr ⟨hitem, hauthor.1, .inr ⟨hauthor.2, hopen⟩⟩)
      · rw [hlive]
        constructor
        · rintro (huser | ⟨hmember, -, horg⟩)
          · exact .inl huser
          · exact .inr ⟨hitem, hmember, .inl horg⟩
        · rintro (huser | ⟨-, hmember, horg | ⟨hmine, -⟩⟩)
          · exact .inl huser
          · exact .inr ⟨hmember, rfl, horg⟩
          · exact absurd ⟨hmember, hmine⟩ hauthor

end Baalda.Access
