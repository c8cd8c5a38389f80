/-
The resolver's questions answered from rows already loaded (`permissions/resolver.ts`: `rowsDenied`, `rowsLocked`,
`rowsGrant`, `rowsPersonalVault`), against the same questions asked of the database.

A loaded list may hold more than a question needs and in another order. `ItemRows` and `VaultRows` say what it must hold
for one user, one item and its folders; from them every in-memory answer is the database's (`rowsDenied_eq`,
`rowsLocked_eq`, `rowsGrant_eq`, `rowsPersonalVault_eq`). Order does not matter since a place has one row for a principal,
and since grants combine by their highest.
-/
import Baalda.Access.Resolver

namespace Baalda.Access

open List

/-! ## In-memory answers -/

def rowsDenied (rows : List ShareRow) (principal : Principal) (docId : Option Id) (folderIds : List Id) : Bool :=
  match principal with
  | .user userId => (userItemVerdict rows userId docId folderIds).deny
  | .org _ => rows.any fun r => r.resourceType ≠ .vault ∧ r.permission = .denied ∧ r.principal = principal

def rowsPersonalVault (rows : List ShareRow) (userId organizationId : Id) : Option PersonalVaultLevel :=
  (rows.find? fun r => r.resourceType = .vault ∧ r.resourceId = organizationId ∧ r.principal = .user userId ∧
    r.permission ≠ .locked).bind fun r => personalLevelOf r.permission

/-! ## What a loaded list must hold -/

/-- rows a question about the user can match: the organization's and their own -/
def Concerns (userId : Id) (r : ShareRow) : Prop := r.principal.isOrg = true ∨ r.principal = .user userId

instance (userId : Id) (r : ShareRow) : Decidable (Concerns userId r) := inferInstanceAs (Decidable (_ ∨ _))

/-- rows of the database, all those of the user on the item and its folders among them -/
structure OwnRows (db : Db) (userId : Id) (docId : Option Id) (folderIds : List Id) (rows : List ShareRow) : Prop where
  sub : rows ⊆ db.shares
  own : ∀ r ∈ db.shares, r.principal = .user userId → onItem docId folderIds r → r ∈ rows

/-- all rows on the item and its folders that concern the user, and none on other items -/
structure ItemRows (db : Db) (userId : Id) (docId : Option Id) (folderIds : List Id) (rows : List ShareRow) : Prop where
  sub : rows ⊆ db.shares
  only : ∀ r ∈ rows, r.resourceType ≠ .vault → onItem docId folderIds r
  all : ∀ r ∈ db.shares, onItem docId folderIds r → Concerns userId r → r ∈ rows

/-- all rows on the organization's vault resource that concern the user -/
def VaultRows (db : Db) (userId organizationId : Id) (rows : List ShareRow) : Prop :=
  ∀ r ∈ db.shares, r.resourceType = .vault → r.resourceId = organizationId → Concerns userId r → r ∈ rows

variable {db : Db} {userId organizationId : Id} {docId : Option Id} {folderIds : List Id} {rows : List ShareRow}

theorem ItemRows.ownRows (h : ItemRows db userId docId folderIds rows) : OwnRows db userId docId folderIds rows :=
  ⟨h.sub, fun r hr hu hi => h.all r hr hi (.inr hu)⟩

theorem OwnRows.filter {q : ShareRow → Bool} (hq : ∀ r, r.principal = .user userId → onItem docId folderIds r → q r = true) :
    OwnRows db userId docId folderIds (db.shares.filter q) :=
  ⟨fun _ hr => (mem_filter.1 hr).1, fun r hr hu hi => mem_filter.2 ⟨hr, hq r hu hi⟩⟩

/-- a place has one row for a user: any list with the user's rows finds it -/
theorem OwnRows.find? (h : WellFormed db) (hown : OwnRows db userId docId folderIds rows) {place : ResourceType × Id}
    (hplace : place ∈ itemOrder docId folderIds) :
    rows.find? (rowAt userId place) = db.shares.find? (rowAt userId place) := by
  have hon : ∀ r, rowAt userId place r = true → r.principal = .user userId ∧ onItem docId folderIds r := by
    intro r hr
    obtain ⟨ht, hi, hu⟩ := rowAt_iff.1 hr
    exact ⟨hu, onItem_iff.2 (by rw [ht, hi]; exact hplace)⟩
  cases hfind : rows.find? (rowAt userId place) with
  | none =>
    refine (find?_eq_none.2 fun r hr hat => ?_).symm
    obtain ⟨hu, hi⟩ := hon r hat
    exact find?_eq_none.1 hfind r (hown.own r hr hu hi) hat
  | some r =>
    have hat := find?_some hfind
    have hr : r ∈ db.shares := hown.sub (mem_of_find?_eq_some hfind)
    refine (shares_find? h hr hat fun r' _ hat' => ?_).symm
    obtain ⟨ht, hi, hu⟩ := rowAt_iff.1 hat
    obtain ⟨ht', hi', hu'⟩ := rowAt_iff.1 hat'
    exact ⟨ht'.trans ht.symm, hi'.trans hi.symm, hu'.trans hu.symm⟩

theorem walkVerdict_congr {rows rows' : List ShareRow} (order : List (ResourceType × Id))
    (h : ∀ place ∈ order, rows.find? (rowAt userId place) = rows'.find? (rowAt userId place)) (cap viewFound : Bool) :
    walkVerdict rows userId cap viewFound order = walkVerdict rows' userId cap viewFound order := by
  induction order generalizing cap viewFound with
  | nil => rfl
  | cons place rest ih =>
    have hrest := fun cap viewFound => ih (fun p hp => h p (.tail _ hp)) cap viewFound
    rw [walkVerdict, walkVerdict, h place mem_cons_self]
    simp only [hrest]

/-- the walk over the user's rows needs no more than those rows -/
theorem OwnRows.verdict (h : WellFormed db) (hown : OwnRows db userId docId folderIds rows) :
    userItemVerdict rows userId docId folderIds = userItemVerdict db.shares userId docId folderIds :=
  walkVerdict_congr _ (fun _ hplace => hown.find? h hplace) _ _

/-! ## Denies, locks, the user's own level -/

theorem rowsDenied_user (h : WellFormed db) (hrows : OwnRows db userId docId folderIds rows) :
    rowsDenied rows (.user userId) docId folderIds = isDenied db (.user userId) docId folderIds := by
  have huser : OwnRows db userId docId folderIds (userItemRows db userId docId folderIds) :=
    OwnRows.filter fun r hu hi => decide_eq_true ⟨hu, hi⟩
  rw [rowsDenied, isDenied, hrows.verdict h, huser.verdict h]

theorem rowsDenied_org (hrows : ItemRows db userId docId folderIds rows) :
    rowsDenied rows (.org organizationId) docId folderIds = isDenied db (.org organizationId) docId folderIds := by
  rw [Bool.eq_iff_iff, rowsDenied, isDenied, any_eq_true, any_eq_true]
  simp only [decide_eq_true_eq]
  constructor
  · rintro ⟨r, hr, ht, hd, hp⟩
    exact ⟨r, hrows.sub hr, hd, hp, hrows.only r hr ht⟩
  · rintro ⟨r, hr, hd, hp, hi⟩
    refine ⟨r, hrows.all r hr hi (.inl (by rw [hp]; rfl)), ?_, hd, hp⟩
    rcases hi with ⟨ht, -⟩ | ⟨ht, -⟩ <;> rw [ht] <;> simp

theorem rowsLocked_eq (h : WellFormed db) (hrows : ItemRows db userId docId folderIds rows) :
    rowsLocked rows userId docId folderIds = isLocked db userId docId folderIds := by
  have hsql : OwnRows db userId docId folderIds (db.shares.filter fun r =>
      ((r.principal.isOrg ∧ (r.permission = .locked ∨ r.permission = .readonly)) ∨ r.principal = .user userId) ∧
        onItem docId folderIds r) := OwnRows.filter fun r hu hi => decide_eq_true ⟨.inr hu, hi⟩
  unfold isLocked rowsLocked
  rw [hrows.ownRows.verdict h, hsql.verdict h]
  refine congrArg (· || _) ?_
  rw [Bool.eq_iff_iff, any_eq_true, any_eq_true]
  simp only [decide_eq_true_eq, mem_filter]
  constructor
  · rintro ⟨r, hr, ht, hl, ho⟩
    exact ⟨r, ⟨hrows.sub hr, .inl ⟨ho, hl⟩, hrows.only r hr ht⟩, ht, hl, ho⟩
  · rintro ⟨r, ⟨hr, -, hi⟩, ht, hl, ho⟩
    exact ⟨r, hrows.all r hr hi (.inl ho), ht, hl, ho⟩

theorem rowsPersonalVault_eq (h : WellFormed db) (hsub : rows ⊆ db.shares) (hvault : VaultRows db userId organizationId rows) :
    rowsPersonalVault rows userId organizationId = personalVaultLevel db organizationId userId := by
  have hfind : rows.find? (fun r => r.resourceType = .vault ∧ r.resourceId = organizationId ∧ r.principal = .user userId ∧
      r.permission ≠ .locked) = db.shares.find? fun r => r.resourceType = .vault ∧ r.resourceId = organizationId ∧
        r.principal = .user userId ∧ r.permission ≠ .locked := by
    cases hrow : rows.find? (fun r => r.resourceType = .vault ∧ r.resourceId = organizationId ∧
        r.principal = .user userId ∧ r.permission ≠ .locked) with
    | none =>
      refine (find?_eq_none.2 fun r hr hq => ?_).symm
      obtain ⟨ht, hi, hu, -⟩ := of_decide_eq_true hq
      exact find?_eq_none.1 hrow r (hvault r hr ht hi (.inr hu)) hq
    | some r =>
      have hq := find?_some hrow
      have hr : r ∈ db.shares := hsub (mem_of_find?_eq_some hrow)
      refine (shares_find? h hr hq fun r' _ hq' => ?_).symm
      obtain ⟨ht, hi, hu, -⟩ := of_decide_eq_true hq
      obtain ⟨ht', hi', hu', -⟩ := of_decide_eq_true hq'
      exact ⟨ht'.trans ht.symm, hi'.trans hi.symm, hu'.trans hu.symm⟩
  rw [rowsPersonalVault, personalVaultLevel, hfind]

/-! ## Grants -/

theorem maxPermission_eq_edit {a b : Permission} : maxPermission a b = .edit ↔ a = .edit ∨ b = .edit := by
  cases a <;> cases b <;> decide

theorem grantFromRows_eq_edit (rows : List ShareRow) (snapshot : Option MemberAccessSnapshot) (createdAt : Option ℕ) :
    grantFromRows rows snapshot createdAt = .edit ↔
      ∃ r ∈ rows, accountedFor snapshot createdAt r = false ∧ r.permission = .edit := by
  have hstart : (∃ r ∈ rows, accountedFor snapshot createdAt r = false ∧ r.permission = .edit) ↔
      Permission.none = .edit ∨ ∃ r ∈ rows, accountedFor snapshot createdAt r = false ∧ r.permission = .edit := by simp
  rw [hstart, grantFromRows]
  clear hstart
  generalize Permission.none = best
  induction rows generalizing best with
  | nil => simp
  | cons r rows ih =>
    rw [foldl_cons]
    refine (ih _).trans ?_
    cases hacc : accountedFor snapshot createdAt r with
    | true => simp [hacc]
    | false => cases hp : r.permission <;> simp [hacc, hp, maxPermission_eq_edit]

theorem Permission.ext_iff' {a b : Permission} : a = b ↔ (a = .edit ↔ b = .edit) ∧ (a ≠ .none ↔ b ≠ .none) := by
  cases a <;> cases b <;> decide

/-- the highest grant does not depend on the order of the rows -/
theorem grantFromRows_congr {rows rows' : List ShareRow} (h : ∀ r, r ∈ rows ↔ r ∈ rows')
    (snapshot : Option MemberAccessSnapshot) (createdAt : Option ℕ) :
    grantFromRows rows snapshot createdAt = grantFromRows rows' snapshot createdAt := by
  rw [Permission.ext_iff', grantFromRows_eq_edit, grantFromRows_eq_edit, grantFromRows_ne_none, grantFromRows_ne_none]
  exact ⟨exists_congr fun r => and_congr_left' (h r), exists_congr fun r => and_congr_left' (h r)⟩

/-- the highest grant over loaded rows is the one the query would find -/
theorem rowsGrant_eq (h : WellFormed db) (hrows : ItemRows db userId docId folderIds rows)
    (hvault : VaultRows db userId organizationId rows) (isMember orgGrantsApply : Bool)
    (snapshot : Option MemberAccessSnapshot) (createdAt : Option ℕ) (orgVaultClause : Bool) :
    rowsGrant rows userId docId folderIds organizationId (isMember && orgGrantsApply) orgVaultClause snapshot createdAt =
      sharePermission db userId docId folderIds organizationId isMember orgGrantsApply snapshot createdAt orgVaultClause := by
  unfold sharePermission rowsGrant
  dsimp only
  rw [hrows.ownRows.verdict h, (OwnRows.filter fun r hu hi => by simp [hu, hi]).verdict h]
  refine congrArg (maxPermission · _) (grantFromRows_congr (fun r => ?_) snapshot createdAt)
  simp only [mem_filter, decide_eq_true_eq]
  refine and_congr_left fun ⟨hg, hbase⟩ => ?_
  constructor
  · intro hr
    refine ⟨hrows.sub hr, ?_⟩
    rcases hbase with ⟨hu, ht, hi⟩ | ⟨happ, hp, hres⟩
    · exact .inl ⟨hu, .inr ⟨ht, hi, hg⟩⟩
    · refine .inr ⟨happ, hp, hg, ?_⟩
      rcases hres with ht | ht | hv
      · exact .inl (hrows.only r hr (by rw [ht]; simp))
      · exact .inl (hrows.only r hr (by rw [ht]; simp))
      · exact .inr hv
  · rintro ⟨hr, hsql⟩
    rcases hsql with ⟨hu, hi | ⟨ht, hi, -⟩⟩ | ⟨-, hp, -, hi | ⟨-, ht, hi⟩⟩
    · exact hrows.all r hr hi (.inr hu)
    · exact hvault r hr ht hi (.inr hu)
    · exact hrows.all r hr hi (.inl (by rw [hp]; rfl))
    · exact hvault r hr ht hi (.inl (by rw [hp]; rfl))

end Baalda.Access
