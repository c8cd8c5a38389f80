/-
The create gate (`permissions/http-gates.ts`: `canEditFolder`, `canCreateIn`, `vaultRootWritable`): may this user create
something in this folder, or at the root of this vault?

The gate runs before the note exists. `insertNote` is the state after it, and `create_gate_agrees` compares the gate's answer
with what the resolver then gives the creator. In a folder that was there when the user joined, and in someone else's folder of
a vault that was never shared, the gate answers as the resolver does for what others wrote there: a refusal then says nothing
about the user's own note.
-/
import Baalda.Access.Cache

namespace Baalda.Access

open List Option

/-! ## The gate -/

/-- the share lookup on the folder -/
def folderGrantsEdit (db : Db) (userId folderId : Id) (role : Option Role) : Bool :=
  match buildAccessContext db (.folder folderId) with
  | none => false
  | some ctx => (resolveAccessForUser db ctx userId role none).permission = .edit

/-- a folder that existed when this person joined -/
def existingFolder (db : Db) (organizationId userId : Id) (f : Folder) : Bool :=
  match memberAccessSnapshot db organizationId userId with
  | some s => toDate f.createdAt ≤ s.snapshotAt
  | none => false

def canEditFolder (db : Db) (userId folderId : Id) : Bool :=
  match (db.folder? folderId).bind fun f => (db.organizationOf f.vaultId).map fun o => (f, o) with
  | none => false
  | some (f, o) =>
    if o ∈ db.lapsed then false
    else
      let role := memberRole db o userId
      if role = none then false
      else
        let chain := ancestorFolderIds db (some folderId)
        if isDenied db (.user userId) none chain then false
        else if isLocked db userId none chain then false
        else
          let baseline := vaultBaseline db o
          if (personalVaultLevel db o userId).isSome ∨ isDenied db (.org o) none chain ∨ baseline = some .view ∨
              baseline = some .sealed ∨ existingFolder db o userId f then
            folderGrantsEdit db userId folderId role
          -- a never-shared vault skips only the role shortcut
          else if baseline ≠ none ∧ (role = some .owner ∨ role = some .admin) then true
          else if f.createdBy = some userId then true
          else folderGrantsEdit db userId folderId role

def vaultRootWritable (db : Db) (userId organizationId : Id) : Bool :=
  if organizationId ∈ db.lapsed then false
  else
    match personalVaultLevel db organizationId userId with
    | some personal => personal = .edit
    | none =>
      let posture := vaultBaseline db organizationId
      if posture ≠ some .view ∧ posture ≠ some .sealed then true
      else db.shares.any fun r => r.resourceType = .vault ∧ r.resourceId = organizationId ∧ r.principal = .user userId ∧
        r.permission = .edit

def canCreateIn (db : Db) (userId vaultId : Id) : Option Id → Bool
  | some folderId => canEditFolder db userId folderId
  | none =>
    match db.organizationOf vaultId with
    | none => false
    | some o => if memberRole db o userId = none then false else vaultRootWritable db userId o

/-! ## The new note -/

def insertNote (db : Db) (r : DocRow) : Db := { db with notes := db.notes ++ [r] }

/-- a note of the user's about to be created in the folder (or at the root), after their join -/
structure NewNote (db : Db) (userId organizationId vaultId : Id) (folderId : Option Id) (r : DocRow) : Prop where
  vault : r.vaultId = vaultId
  org : db.organizationOf vaultId = some organizationId
  folder : r.folderId = folderId
  inVault : ∀ f ∈ folderId, ∃ g ∈ db.folders, g.id = f ∧ g.vaultId = vaultId
  creator : r.createdBy = some userId
  live : r.deleted = false
  fresh : r.id ∉ (db.notes ++ db.files).map (·.id)
  noRows : ∀ row ∈ db.shares, row.resourceType = .file → row.resourceId ≠ r.id
  later : ∀ s ∈ memberAccessSnapshot db organizationId userId, s.snapshotAt < toDate r.createdAt

section

variable (db : Db) (userId organizationId : Id) (folderId : Option Id)

/-- judged by the join snapshot: the folder was there at the join, is not private, and the user has no level of their own -/
def JudgedByJoin : Prop :=
  ∃ f ∈ db.folders, folderId = some f.id ∧ existingFolder db organizationId userId f = true ∧
    personalVaultLevel db organizationId userId = none ∧
    isDenied db (.org organizationId) none (ancestorFolderIds db (some f.id)) = false

/-- an open join whose vault was made read-only or sealed since -/
def OpenOutlivesPosture : Prop :=
  JudgedByJoin db userId organizationId folderId ∧
    (∃ s, memberAccessSnapshot db organizationId userId = some s ∧ s.mode = .openMode) ∧
    (vaultBaseline db organizationId = some .view ∨ vaultBaseline db organizationId = some .sealed)

/-- someone else's folder in a vault that was never shared -/
def SomeoneElses : Prop :=
  vaultBaseline db organizationId = none ∧ ∃ f ∈ db.folders, folderId = some f.id ∧ f.createdBy ≠ some userId

end

variable {db : Db} {userId organizationId vaultId : Id} {folderId : Option Id} {r : DocRow}

section

variable (h : WellFormed db)

include h

theorem wellFormed_insertNote (hnote : NewNote db userId organizationId vaultId folderId r) :
    WellFormed (insertNote db r) := by
  have hmem : ∀ x, x ∈ (insertNote db r).notes ++ (insertNote db r).files → x ∈ db.notes ++ db.files ∨ x = r := by
    intro x hx
    simp only [insertNote, mem_append, mem_singleton] at hx ⊢
    rcases hx with (hx | rfl) | hx
    · exact .inl (.inl hx)
    · exact .inr rfl
    · exact .inl (.inr hx)
  refine { h with docKey := ?_, docFolder := ?_ }
  · have hperm : ((insertNote db r).notes ++ (insertNote db r).files).Perm (r :: (db.notes ++ db.files)) := by
      simp only [insertNote, append_assoc]
      exact perm_middle
    exact (hperm.map (·.id)).nodup_iff.2 (nodup_cons.2 ⟨hnote.fresh, h.docKey⟩)
  · intro x hx p hp
    rcases hmem x hx with hx | rfl
    · exact h.docFolder x hx p hp
    · rw [hnote.vault]
      exact hnote.inVault p (by rw [← hnote.folder]; exact hp)

/-- what the resolver gives the creator: the verdict on the folder, as the author of something newer than their join -/
theorem effectivePermission_new (hnote : NewNote db userId organizationId vaultId folderId r)
    (hlapsed : organizationId ∉ db.lapsed) :
    effectivePermission (insertNote db r) userId r.id =
      verdict (askDb db userId none (ancestorFolderIds db folderId) organizationId) userId (some userId)
        (toDate r.createdAt) (memberRole db organizationId userId) (personalVaultLevel db organizationId userId) none
        (vaultBaseline db organizationId) := by
  have hlive : r ∈ (insertNote db r).liveDocs := mem_liveDocs.2 (.inl ⟨by simp [insertNote], hnote.live⟩)
  have horg : (insertNote db r).organizationOf r.vaultId = some organizationId := by
    rw [hnote.vault]
    exact hnote.org
  have hrows : askDb (insertNote db r) userId (some r.id) (ancestorFolderIds (insertNote db r) folderId) organizationId =
      askDb db userId none (ancestorFolderIds db folderId) organizationId := askDb_of_no_rows hnote.noRows ..
  have hsnapshot : (memberAccessSnapshot db organizationId userId).filter (fun s => toDate r.createdAt ≤ s.snapshotAt) =
      none := by
    refine filter_eq_none_iff.2 fun s hs => ?_
    have hlater := hnote.later s hs
    simpa using hlater
  unfold effectivePermission
  rw [locateDoc_eq (wellFormed_insertNote h hnote) hlive, horg]
  dsimp only [map_some]
  rw [effectivePermissionInner_eq]
  rw [hnote.folder, hrows, hnote.creator, if_neg fun hc => hlapsed hc.2]
  unfold verdict
  have hsnapshot' : (memberAccessSnapshot (insertNote db r) organizationId userId).filter
      (fun s => toDate r.createdAt ≤ s.snapshotAt) = none := hsnapshot
  rw [hsnapshot']
  rfl

/-! ## When the grants say edit -/

/-- a vault row of the user, an organization row not accounted for by the join, or the user's own rows -/
theorem sharePermission_eq_edit (docId : Option Id) (folderIds : List Id)
    (isMember orgGrantsApply : Bool) (snapshot : Option MemberAccessSnapshot) (createdAt : Option ℕ)
    (orgVaultClause : Bool) :
    sharePermission db userId docId folderIds organizationId isMember orgGrantsApply snapshot createdAt orgVaultClause =
        .edit ↔
      (∃ row ∈ db.shares, row.permission = .edit ∧ accountedFor snapshot createdAt row = false ∧
        ((row.principal = .user userId ∧ row.resourceType = .vault ∧ row.resourceId = organizationId) ∨
          ((isMember && orgGrantsApply) = true ∧ row.principal = .org organizationId ∧ (onItem docId folderIds row ∨
            (orgVaultClause = true ∧ row.resourceType = .vault ∧ row.resourceId = organizationId))))) ∨
      (userItemVerdict db.shares userId docId folderIds).grant = .edit := by
  unfold sharePermission rowsGrant
  rw [maxPermission_eq_edit, (OwnRows.filter fun row hu hi => by simp [hu, hi]).verdict h, grantFromRows_eq_edit]
  refine or_congr_left (exists_congr fun row => ?_)
  simp only [mem_filter, decide_eq_true_eq]
  constructor
  · rintro ⟨⟨⟨hr, hsql⟩, -, hbase⟩, hacc, hp⟩
    refine ⟨hr, hp, hacc, ?_⟩
    rcases hbase with hvault | ⟨happ, horg, hres⟩
    · exact .inl hvault
    · rcases hsql with ⟨hu, -⟩ | ⟨-, -, -, hon⟩
      · exact absurd (horg.symm.trans hu) (by simp)
      · exact .inr ⟨happ, horg, hon⟩
  · rintro ⟨hr, hp, hacc, hrow⟩
    have hgrants : row.permission.grants = true := by rw [hp]; rfl
    rcases hrow with ⟨hu, ht, hi⟩ | ⟨happ, horg, hon⟩
    · exact ⟨⟨⟨hr, .inl ⟨hu, .inr ⟨ht, hi, hgrants⟩⟩⟩, hgrants, .inl ⟨hu, ht, hi⟩⟩, hacc, hp⟩
    · refine ⟨⟨⟨hr, .inr ⟨happ, horg, hgrants, hon⟩⟩, hgrants, .inr ⟨happ, horg, ?_⟩⟩, hacc, hp⟩
      rcases hon with (⟨ht, -⟩ | ⟨ht, -⟩) | hvault
      · exact .inl ht
      · exact .inr (.inl ht)
      · exact .inr (.inr hvault)

section

variable (folderIds : List Id) (snapshot : Option MemberAccessSnapshot) (createdAt : Option ℕ)

/-- without organization rows the join snapshot accounts for nothing -/
theorem sharePermission_user_only {isMember orgGrantsApply : Bool} (hoff : (isMember && orgGrantsApply) = false) :
    sharePermission db userId none folderIds organizationId isMember orgGrantsApply snapshot createdAt true = .edit ↔
      sharePermission db userId none folderIds organizationId false false none none true = .edit := by
  rw [sharePermission_eq_edit h, sharePermission_eq_edit h]
  refine or_congr_left (exists_congr fun row => and_congr_right fun _ => and_congr_right fun _ => ?_)
  constructor
  · rintro ⟨-, hvault | ⟨happ, -⟩⟩
    · exact ⟨rfl, .inl hvault⟩
    · simp [hoff] at happ
  · rintro ⟨-, hvault | ⟨happ, -⟩⟩
    · refine ⟨?_, .inl hvault⟩
      cases snapshot <;> simp [accountedFor, hvault.1, Principal.isOrg]
    · cases happ

/-- what the join accounts for is still granted without it -/
theorem sharePermission_forget (isMember orgGrantsApply : Bool)
    (hedit : sharePermission db userId none folderIds organizationId isMember orgGrantsApply snapshot createdAt true =
      .edit) :
    sharePermission db userId none folderIds organizationId isMember orgGrantsApply none none true = .edit := by
  rw [sharePermission_eq_edit h] at hedit ⊢
  rcases hedit with ⟨row, hr, hp, -, hrow⟩ | hown
  · exact .inl ⟨row, hr, hp, rfl, hrow⟩
  · exact .inr hown

end

/-- the vault is shared for editing when the organization's row on it is -/
theorem baseline_edit_iff : vaultBaseline db organizationId = some .edit ↔
    ∃ row ∈ db.shares, row.permission = .edit ∧ row.principal = .org organizationId ∧ row.resourceType = .vault ∧
      row.resourceId = organizationId := by
  constructor
  · intro hb
    obtain ⟨row, hfind, hposture⟩ := bind_eq_some_iff.1 hb
    obtain ⟨ht, hi, horg, -⟩ := of_decide_eq_true (find?_some hfind :)
    have hr : row ∈ db.shares := mem_of_find?_eq_some hfind
    refine ⟨row, hr, ?_, org_of_vaultRow h hr ht hi horg, ht, hi⟩
    cases hperm : row.permission <;> rw [hperm] at hposture <;> simp [postureOf] at hposture ⊢
  · rintro ⟨row, hr, hp, horg, ht, hi⟩
    have hfind : db.shares.find? (fun r => r.resourceType = .vault ∧ r.resourceId = organizationId ∧ r.principal.isOrg ∧
        (r.permission = .view ∨ r.permission = .edit ∨ r.permission = .denied)) = some row := by
      refine shares_find? h hr (decide_eq_true ⟨ht, hi, by rw [horg]; rfl, .inr (.inl hp)⟩) fun row' hr' hq => ?_
      obtain ⟨ht', hi', horg', -⟩ := of_decide_eq_true hq
      exact ⟨ht'.trans ht.symm, hi'.trans hi.symm, (org_of_vaultRow h hr' ht' hi' horg').trans horg.symm⟩
    rw [vaultBaseline, hfind, bind_some, hp]
    rfl

/-- a vault shared for editing grants editing to its members -/
theorem sharePermission_of_baseline_edit (folderIds : List Id) (hb : vaultBaseline db organizationId = some .edit) :
    sharePermission db userId none folderIds organizationId true true none none true = .edit := by
  obtain ⟨row, hr, hp, horg, ht, hi⟩ := (baseline_edit_iff h).1 hb
  rw [sharePermission_eq_edit h]
  exact .inl ⟨row, hr, hp, rfl, .inr ⟨rfl, horg, .inr ⟨rfl, ht, hi⟩⟩⟩

end

/-! ## The verdict, without a deny -/

theorem verdict_ne_edit_of_locked {q : RowAnswers} (hlock : q.locked = true) (userId : Id) (createdBy : Option Id) (createdAt : ℕ)
    (role : Option Role) (personal : Option PersonalVaultLevel) (snapshot : Option MemberAccessSnapshot)
    (baseline : Option VaultPosture) :
    verdict q userId createdBy createdAt role personal snapshot baseline ≠ .edit := by
  have hcap : ∀ p : Permission, (if p ≠ .none ∧ q.locked = true then .view else p) ≠ Permission.edit := by
    intro p
    cases p <;> simp [hlock]
  unfold verdict
  by_cases hden : q.denied = true
  · rw [if_pos hden]
    simp
  · rw [if_neg hden]
    cases personal with
    | some level => exact hcap _
    | none =>
      cases snapshot.filter fun s => decide (createdAt ≤ s.snapshotAt) with
      | some s | none => exact hcap _

/-- what is left of the verdict on an item that is neither denied nor locked -/
def standing (q : RowAnswers) (userId : Id) (createdBy : Option Id) (createdAt : ℕ) (role : Option Role)
    (personal : Option PersonalVaultLevel) (snapshot : Option MemberAccessSnapshot) (baseline : Option VaultPosture) :
    Permission :=
  match personal with
  | some level => q.grant role.isSome (!q.itemPrivate && level ≠ .denied) none none false
  | none =>
    match snapshot with
    | some s =>
      maxPermission (if q.itemPrivate then .none else s.mode.permission)
        (q.grant role.isSome (!q.itemPrivate) (some s) (some createdAt) true)
    | none =>
      if q.itemPrivate then q.grant false false none none true
      else if baseline = some .view ∨ baseline = some .sealed then q.grant role.isSome true none none true
      else if baseline ≠ none ∧ (role = some .owner ∨ role = some .admin) then .edit
      else if role.isSome ∧ createdBy = some userId then .edit
      else q.grant role.isSome true none none true

theorem verdict_clear {q : RowAnswers} (hden : q.denied = false) (hlock : q.locked = false) (createdBy : Option Id)
    (createdAt : ℕ) (role : Option Role) (personal : Option PersonalVaultLevel) (snapshot : Option MemberAccessSnapshot)
    (baseline : Option VaultPosture) :
    verdict q userId createdBy createdAt role personal snapshot baseline =
      standing q userId createdBy createdAt role personal (snapshot.filter fun s => createdAt ≤ s.snapshotAt) baseline := by
  have hcap : ∀ p : Permission, (if p ≠ .none ∧ q.locked = true then Permission.view else p) = p := fun p =>
    if_neg fun hc => by simp [hlock] at hc
  unfold verdict standing
  rw [if_neg (by simp [hden])]
  cases personal with
  | some level => exact hcap _
  | none =>
    cases snapshot.filter fun s => decide (createdAt ≤ s.snapshotAt) with
    | some s | none => exact hcap _

/-! ### A user without a level of their own -/

section

variable {role : Role} {t : ℕ} {createdBy : Option Id} {s : MemberAccessSnapshot} {baseline : Option VaultPosture}

theorem askDb_itemPrivate (folderIds : List Id) : (askDb db userId none folderIds organizationId).itemPrivate =
    isDenied db (.org organizationId) none folderIds := rfl

/-- in a private folder only the user's own rows count, and the join does not matter -/
theorem standing_private (h : WellFormed db) (folderIds : List Id)
    (hitem : isDenied db (.org organizationId) none folderIds = true) (snapshot : Option MemberAccessSnapshot) :
    standing (askDb db userId none folderIds organizationId) userId createdBy t (some role) none snapshot baseline = .edit ↔
      sharePermission db userId none folderIds organizationId false false none none true = .edit := by
  unfold standing
  rw [askDb_itemPrivate, hitem]
  cases snapshot with
  | none => exact Iff.rfl
  | some s =>
    rw [maxPermission_eq_edit, if_pos rfl]
    exact (or_iff_right (by simp)).trans (sharePermission_user_only h folderIds (some s) (some t) rfl)

section

variable (folderIds : List Id) (hitem : isDenied db (.org organizationId) none folderIds = false)

include hitem

/-- a folder of before the join: an open join, or a grant since -/
theorem standing_joined :
    standing (askDb db userId none folderIds organizationId) userId createdBy t (some role) none (some s) baseline = .edit ↔
      s.mode = .openMode ∨
        sharePermission db userId none folderIds organizationId true true (some s) (some t) true = .edit := by
  unfold standing
  rw [askDb_itemPrivate, hitem, maxPermission_eq_edit, if_neg (by simp)]
  refine or_congr ?_ Iff.rfl
  cases s.mode <;> simp [JoinMode.permission]

/-- what the user writes is theirs to edit, unless the vault is read-only or sealed -/
theorem standing_author :
    standing (askDb db userId none folderIds organizationId) userId (some userId) t (some role) none none baseline = .edit ↔
      ¬ (baseline = some .view ∨ baseline = some .sealed) ∨
        sharePermission db userId none folderIds organizationId true true none none true = .edit := by
  unfold standing
  rw [askDb_itemPrivate, hitem]
  dsimp only
  rw [if_neg (by simp)]
  split_ifs with hclosed hrole hauthor
  · exact (or_iff_right (not_not.2 hclosed)).symm
  · exact iff_of_true rfl (.inl hclosed)
  · exact iff_of_true rfl (.inl hclosed)
  · exact absurd ⟨rfl, rfl⟩ hauthor

/-- in a read-only or sealed vault authorship changes nothing -/
theorem standing_closed (hclosed : baseline = some .view ∨ baseline = some .sealed) :
    standing (askDb db userId none folderIds organizationId) userId createdBy t (some role) none none baseline = .edit ↔
      sharePermission db userId none folderIds organizationId true true none none true = .edit := by
  unfold standing
  rw [askDb_itemPrivate, hitem, if_neg (by simp), if_pos hclosed]
  rfl

end

/-- in a vault shared for editing everyone edits what is theirs and what is not -/
theorem standing_open (h : WellFormed db) (folderIds : List Id)
    (hitem : isDenied db (.org organizationId) none folderIds = false)
    (hb : vaultBaseline db organizationId = some .edit) :
    standing (askDb db userId none folderIds organizationId) userId createdBy t (some role) none none (some .edit) = .edit := by
  unfold standing
  rw [askDb_itemPrivate, hitem]
  dsimp only
  rw [if_neg (by simp), if_neg (by simp)]
  split_ifs with hrole hauthor
  · rfl
  · rfl
  · exact sharePermission_of_baseline_edit h folderIds hb

end

/-! ## What the gate asks -/

/-- a folder that is there, in an organization that is not lapsed, asked for by a member -/
structure Asked (db : Db) (userId organizationId : Id) (f : Folder) (role : Role) : Prop where
  mem : f ∈ db.folders
  org : db.organizationOf f.vaultId = some organizationId
  member : memberRole db organizationId userId = some role
  active : organizationId ∉ db.lapsed

variable {f : Folder} {role : Role}

section

variable (h : WellFormed db) (hf : Asked db userId organizationId f role)

include h hf

theorem folderGrantsEdit_eq :
    folderGrantsEdit db userId f.id (some role) = true ↔
      verdict (askDb db userId none (ancestorFolderIds db (some f.id)) organizationId) userId none (toDate f.createdAt)
        (some role) (personalVaultLevel db organizationId userId) (memberAccessSnapshot db organizationId userId)
        (vaultBaseline db organizationId) = .edit := by
  have hctx : buildAccessContext db (.folder f.id) =
      some ⟨organizationId, none, ancestorFolderIds db (some f.id), none, toDate f.createdAt⟩ := by
    rw [buildAccessContext, folder?_eq h hf.mem, bind_some, hf.org]
    rfl
  unfold folderGrantsEdit
  rw [hctx]
  rw [decide_eq_true_iff, resolveAccess_context h hctx userId _ (by simp [Loaded]), capLapsed,
    if_neg fun hc => hf.active hc.2]
  rfl

theorem canEditFolder_refused (hbar : isDenied db (.user userId) none (ancestorFolderIds db (some f.id)) = true ∨
      isLocked db userId none (ancestorFolderIds db (some f.id)) = true) : canEditFolder db userId f.id = false := by
  unfold canEditFolder
  rw [folder?_eq h hf.mem, bind_some, hf.org]
  dsimp only [map_some]
  rw [if_neg hf.active, hf.member, if_neg (by simp)]
  by_cases hden : isDenied db (.user userId) none (ancestorFolderIds db (some f.id)) = true
  · rw [if_pos hden]
  · rw [if_neg hden, if_pos (hbar.resolve_left hden)]

/-- past denies and locks: the share lookup where a shortcut does not apply, else the shortcuts first -/
theorem canEditFolder_clear (hden : isDenied db (.user userId) none (ancestorFolderIds db (some f.id)) = false)
    (hlock : isLocked db userId none (ancestorFolderIds db (some f.id)) = false) :
    canEditFolder db userId f.id =
      if (personalVaultLevel db organizationId userId).isSome ∨
          isDenied db (.org organizationId) none (ancestorFolderIds db (some f.id)) ∨
          vaultBaseline db organizationId = some .view ∨ vaultBaseline db organizationId = some .sealed ∨
          existingFolder db organizationId userId f then folderGrantsEdit db userId f.id (some role)
      else if vaultBaseline db organizationId ≠ none ∧ (role = .owner ∨ role = .admin) then true
      else if f.createdBy = some userId then true
      else folderGrantsEdit db userId f.id (some role) := by
  unfold canEditFolder
  rw [folder?_eq h hf.mem, bind_some, hf.org]
  dsimp only [map_some]
  rw [if_neg hf.active, hf.member, if_neg (by simp), hden, if_neg (by simp), hlock, if_neg (by simp)]
  simp only [some.injEq]

end

theorem existingFolder_eq : existingFolder db organizationId userId f =
    ((memberAccessSnapshot db organizationId userId).filter fun s => toDate f.createdAt ≤ s.snapshotAt).isSome := by
  unfold existingFolder
  cases memberAccessSnapshot db organizationId userId with
  | none => rfl
  | some s => by_cases hle : toDate f.createdAt ≤ s.snapshotAt <;> simp [hle]

/-- where no shortcut can apply, the gate is the share lookup on the folder -/
theorem canEditFolder_lookup (h : WellFormed db) (hf : Asked db userId organizationId f role)
    (hlookup : existingFolder db organizationId userId f = true ∨
      (vaultBaseline db organizationId = none ∧ f.createdBy ≠ some userId)) :
    canEditFolder db userId f.id = true ↔
      verdict (askDb db userId none (ancestorFolderIds db (some f.id)) organizationId) userId none (toDate f.createdAt)
        (some role) (personalVaultLevel db organizationId userId) (memberAccessSnapshot db organizationId userId)
        (vaultBaseline db organizationId) = .edit := by
  by_cases hden : isDenied db (.user userId) none (ancestorFolderIds db (some f.id)) = true
  · rw [canEditFolder_refused h hf (.inl hden), verdict_denied hden]
    simp
  by_cases hlock : isLocked db userId none (ancestorFolderIds db (some f.id)) = true
  · rw [canEditFolder_refused h hf (.inr hlock)]
    exact iff_of_false (by simp) (verdict_ne_edit_of_locked (q := askDb ..) hlock _ _ _ _ _ _ _)
  rw [canEditFolder_clear h hf (by simpa using hden) (by simpa using hlock), ← folderGrantsEdit_eq h hf]
  rcases hlookup with hexists | ⟨hb, hother⟩
  · rw [if_pos (.inr (.inr (.inr (.inr hexists))))]
  · split_ifs with hskip hrole
    · exact Iff.rfl
    · exact absurd hb hrole.1
    · exact Iff.rfl

/-- **In a folder**, an allowed note is editable, and a refused one is not, outside the two kinds of folder the gate judges as
the work of others. -/
theorem canEditFolder_agrees (h : WellFormed db) (hf : Asked db userId organizationId f role)
    (hnote : NewNote db userId organizationId vaultId (some f.id) r) :
    (canEditFolder db userId f.id = true → ¬ OpenOutlivesPosture db userId organizationId (some f.id) →
      effectivePermission (insertNote db r) userId r.id = .edit) ∧
    (canEditFolder db userId f.id = false → ¬ JudgedByJoin db userId organizationId (some f.id) →
      ¬ SomeoneElses db userId organizationId (some f.id) →
      effectivePermission (insertNote db r) userId r.id ≠ .edit) := by
  rw [effectivePermission_new h hnote hf.active, hf.member, ne_eq]
  by_cases hden : isDenied db (.user userId) none (ancestorFolderIds db (some f.id)) = true
  · rw [canEditFolder_refused h hf (.inl hden), verdict_denied hden]
    simp
  by_cases hlock : isLocked db userId none (ancestorFolderIds db (some f.id)) = true
  · rw [canEditFolder_refused h hf (.inr hlock)]
    have hcapped := verdict_ne_edit_of_locked
      (q := askDb db userId none (ancestorFolderIds db (some f.id)) organizationId) hlock userId
    exact ⟨fun hallowed => by simp at hallowed, fun _ _ _ => hcapped _ _ _ _ _ _⟩
  have hden' : isDenied db (.user userId) none (ancestorFolderIds db (some f.id)) = false := by simpa using hden
  have hlock' : isLocked db userId none (ancestorFolderIds db (some f.id)) = false := by simpa using hlock
  have hlookup := folderGrantsEdit_eq h hf
  rw [verdict_clear hden' hlock'] at hlookup ⊢
  rw [canEditFolder_clear h hf hden' hlock', existingFolder_eq, filter_none]
  cases hpersonal : personalVaultLevel db organizationId userId with
  | some level =>
    rw [hpersonal] at hlookup
    rw [if_pos (.inl (by rfl)), ← Bool.not_eq_true, hlookup]
    exact ⟨fun hallowed _ => hallowed, fun hrefused _ _ => hrefused⟩
  | none =>
  rw [hpersonal] at hlookup
  by_cases hitem : isDenied db (.org organizationId) none (ancestorFolderIds db (some f.id)) = true
  · rw [standing_private h _ hitem] at hlookup ⊢
    rw [if_pos (.inr (.inl hitem)), ← Bool.not_eq_true, hlookup]
    exact ⟨fun hallowed _ => hallowed, fun hrefused _ _ => hrefused⟩
  have hitem' : isDenied db (.org organizationId) none (ancestorFolderIds db (some f.id)) = false := by simpa using hitem
  rw [standing_author _ hitem']
  cases hfilter : (memberAccessSnapshot db organizationId userId).filter fun s => decide (toDate f.createdAt ≤ s.snapshotAt) with
  | some s =>
    have hjudged : JudgedByJoin db userId organizationId (some f.id) :=
      ⟨f, hf.mem, rfl, by rw [existingFolder_eq, hfilter]; rfl, hpersonal, hitem'⟩
    rw [hfilter, standing_joined _ hitem'] at hlookup
    rw [if_pos (.inr (.inr (.inr (.inr (by rfl))))), hlookup]
    refine ⟨fun hallowed hopen => ?_, fun _ hnot => absurd hjudged hnot⟩
    by_cases hclosed : vaultBaseline db organizationId = some .view ∨ vaultBaseline db organizationId = some .sealed
    · rcases hallowed with hmode | hdirect
      · exact absurd ⟨hjudged, ⟨s, (filter_eq_some_iff.1 hfilter).1, hmode⟩, hclosed⟩ hopen
      · exact .inr (sharePermission_forget h _ _ _ _ _ hdirect)
    · exact .inl hclosed
  | none =>
    rw [hfilter] at hlookup
    by_cases hclosed : vaultBaseline db organizationId = some .view ∨ vaultBaseline db organizationId = some .sealed
    · rw [standing_closed _ hitem' hclosed] at hlookup
      have hskip : vaultBaseline db organizationId = some .view ∨ vaultBaseline db organizationId = some .sealed ∨
          isSome (none : Option MemberAccessSnapshot) = true := by tauto
      rw [if_pos (.inr (.inr hskip)), ← Bool.not_eq_true, hlookup]
      exact ⟨fun hallowed _ => .inr hallowed, fun hrefused _ _ hedit =>
        hrefused (hedit.resolve_left (not_not.2 hclosed))⟩
    · refine ⟨fun _ _ => .inl hclosed, fun hrefused _ hnot => ?_⟩
      -- the gate refuses only what only authorship would give
      rw [if_neg (by simpa [hitem'] using hclosed)] at hrefused
      split_ifs at hrefused with hrole hauthor
      cases hb : vaultBaseline db organizationId with
      | none => exact absurd ⟨hb, f, hf.mem, rfl, hauthor⟩ hnot
      | some p =>
        cases p with
        | view => exact absurd (.inl hb) hclosed
        | sealed => exact absurd (.inr hb) hclosed
        | edit =>
          rw [hb, standing_open h _ hitem' hb] at hlookup
          rw [hlookup.2 rfl] at hrefused
          simp at hrefused

/-! ## The root -/

theorem not_onItem_root {row : ShareRow} : ¬ onItem none [] row := by simp [onItem]

theorem isDenied_root (p : Principal) : isDenied db p none [] = false := by
  cases p with
  | user u => rfl
  | org o => simp [isDenied, not_onItem_root]

theorem isLocked_root : isLocked db userId none [] = false := by
  have hrows : (db.shares.filter fun r =>
      ((r.principal.isOrg ∧ (r.permission = .locked ∨ r.permission = .readonly)) ∨ r.principal = .user userId) ∧
        onItem none [] r) = [] := by simp [not_onItem_root]
  rw [isLocked, hrows]
  rfl

/-- a person's own level is edit when their row on the vault is -/
theorem personal_edit_iff (h : WellFormed db) : personalVaultLevel db organizationId userId = some .edit ↔
    ∃ row ∈ db.shares, row.permission = .edit ∧ row.principal = .user userId ∧ row.resourceType = .vault ∧
      row.resourceId = organizationId := by
  constructor
  · intro hlevel
    obtain ⟨row, hfind, hp⟩ := bind_eq_some_iff.1 hlevel
    obtain ⟨ht, hi, hu, -⟩ := of_decide_eq_true (find?_some hfind :)
    refine ⟨row, mem_of_find?_eq_some hfind, ?_, hu, ht, hi⟩
    cases hperm : row.permission <;> rw [hperm] at hp <;> simp [personalLevelOf] at hp ⊢
  · rintro ⟨row, hr, hp, hu, ht, hi⟩
    have hfind : db.shares.find? (fun r => r.resourceType = .vault ∧ r.resourceId = organizationId ∧
        r.principal = .user userId ∧ r.permission ≠ .locked) = some row := by
      refine shares_find? h hr (decide_eq_true ⟨ht, hi, hu, by rw [hp]; simp⟩) fun row' _ hq => ?_
      obtain ⟨ht', hi', hu', -⟩ := of_decide_eq_true hq
      exact ⟨ht'.trans ht.symm, hi'.trans hi.symm, hu'.trans hu.symm⟩
    rw [personalVaultLevel, hfind, bind_some, hp]
    rfl

/-- at the root only rows on the vault count -/
theorem sharePermission_root (h : WellFormed db) (isMember orgGrantsApply orgVaultClause : Bool) :
    sharePermission db userId none [] organizationId isMember orgGrantsApply none none orgVaultClause = .edit ↔
      personalVaultLevel db organizationId userId = some .edit ∨
        ((isMember && orgGrantsApply) = true ∧ orgVaultClause = true ∧ vaultBaseline db organizationId = some .edit) := by
  rw [sharePermission_eq_edit h, personal_edit_iff h, or_iff_left (by simp [userItemVerdict, itemOrder, walkVerdict])]
  constructor
  · rintro ⟨row, hr, hp, -, ⟨hu, ht, hi⟩ | ⟨happ, horg, hon | ⟨hvault, ht, hi⟩⟩⟩
    · exact .inl ⟨row, hr, hp, hu, ht, hi⟩
    · exact absurd hon not_onItem_root
    · exact .inr ⟨happ, hvault, (baseline_edit_iff h).2 ⟨row, hr, hp, horg, ht, hi⟩⟩
  · rintro (⟨row, hr, hp, hu, ht, hi⟩ | ⟨happ, hvault, hb⟩)
    · exact ⟨row, hr, hp, rfl, .inl ⟨hu, ht, hi⟩⟩
    · obtain ⟨row, hr, hp, horg, ht, hi⟩ := (baseline_edit_iff h).1 hb
      exact ⟨row, hr, hp, rfl, .inr ⟨happ, horg, .inr ⟨hvault, ht, hi⟩⟩⟩

/-- **At the root** the gate and the resolver agree. -/
theorem vaultRootWritable_agrees (h : WellFormed db) (hnote : NewNote db userId organizationId vaultId none r)
    (hmember : memberRole db organizationId userId = some role) (hactive : organizationId ∉ db.lapsed) :
    vaultRootWritable db userId organizationId = true ↔ effectivePermission (insertNote db r) userId r.id = .edit := by
  have hden : isDenied db (.user userId) none [] = false := isDenied_root _
  have hden' : (askDb db userId none [] organizationId).denied = false := hden
  have hlock : (askDb db userId none [] organizationId).locked = false := isLocked_root
  have hitem : isDenied db (.org organizationId) none [] = false := isDenied_root _
  have hchain : ancestorFolderIds db none = [] := rfl
  rw [effectivePermission_new h hnote hactive, hmember, hchain, verdict_clear hden' hlock, filter_none]
  unfold vaultRootWritable
  rw [if_neg hactive]
  cases hpersonal : personalVaultLevel db organizationId userId with
  | some level =>
    have hstanding : standing (askDb db userId none [] organizationId) userId (some userId) (toDate r.createdAt) (some role)
        (some level) none (vaultBaseline db organizationId) = .edit ↔ some level = some .edit := by
      refine (sharePermission_root h _ _ false).trans ?_
      rw [hpersonal]
      exact or_iff_left (by simp)
    rw [hstanding]
    simp
  | none =>
    have hnone : ¬ ∃ row ∈ db.shares, row.permission = .edit ∧ row.principal = .user userId ∧ row.resourceType = .vault ∧
        row.resourceId = organizationId := by
      rw [← personal_edit_iff h, hpersonal]
      simp
    rw [standing_author _ hitem, sharePermission_root h, hpersonal]
    by_cases hclosed : vaultBaseline db organizationId = some .view ∨ vaultBaseline db organizationId = some .sealed
    · rw [if_neg (by tauto)]
      refine iff_of_false (fun hany => hnone ?_) ?_
      · obtain ⟨row, hr, hq⟩ := any_eq_true.1 hany
        obtain ⟨ht, hi, hu, hp⟩ := of_decide_eq_true hq
        exact ⟨row, hr, hp, hu, ht, hi⟩
      · rcases hclosed with hb | hb <;> simp [hb]
    · rw [if_pos (by tauto)]
      exact iff_of_true rfl (.inl hclosed)

/-! ## Agreement -/

/-- **The create gate and the resolver.** For a member of an active vault: what the gate allows is editable, except in a
folder of before an open join whose vault was closed since; what it refuses is not, except in a folder judged by the join
snapshot and in someone else's folder of a vault that was never shared, where the gate answers as the resolver does for a
document in the folder that is not the user's. -/
theorem create_gate_agrees (h : WellFormed db) (hmember : (memberRole db organizationId userId).isSome = true)
    (hactive : organizationId ∉ db.lapsed) (hnote : NewNote db userId organizationId vaultId folderId r) :
    (canCreateIn db userId vaultId folderId = true → ¬ OpenOutlivesPosture db userId organizationId folderId →
      effectivePermission (insertNote db r) userId r.id = .edit) ∧
    (canCreateIn db userId vaultId folderId = false → ¬ JudgedByJoin db userId organizationId folderId →
      ¬ SomeoneElses db userId organizationId folderId → effectivePermission (insertNote db r) userId r.id ≠ .edit) ∧
    (JudgedByJoin db userId organizationId folderId ∨ SomeoneElses db userId organizationId folderId →
      ∀ id ctx docId, folderId = some id → buildAccessContext db (.folder id) = some ctx →
        StandsFor db userId ctx (.folder id) docId →
          (canCreateIn db userId vaultId folderId = true ↔ effectivePermission db userId docId = .edit)) := by
  obtain ⟨role, hrole⟩ := isSome_iff_exists.1 hmember
  cases hfolder : folderId with
  | none =>
    rw [hfolder] at hnote
    have hroot := vaultRootWritable_agrees h hnote hrole hactive
    have hgate : canCreateIn db userId vaultId none = vaultRootWritable db userId organizationId := by
      unfold canCreateIn
      rw [hnote.org]
      dsimp only
      rw [hrole, if_neg (by simp)]
    rw [hgate, ne_eq, ← hroot, ← Bool.not_eq_true]
    exact ⟨fun hallowed _ => hallowed, fun hrefused _ _ => hrefused, fun _ id _ _ hid => by simp at hid⟩
  | some id =>
    rw [hfolder] at hnote
    obtain ⟨f, hf, rfl, hv⟩ := hnote.inVault id rfl
    have hasked : Asked db userId organizationId f role := ⟨hf, by rw [hv]; exact hnote.org, hrole, hactive⟩
    obtain ⟨hallow, hrefuse⟩ := canEditFolder_agrees h hasked hnote
    refine ⟨hallow, hrefuse, fun hothers id ctx docId hid hctx hstands => ?_⟩
    cases hid
    have hlookup : existingFolder db organizationId userId f = true ∨
        (vaultBaseline db organizationId = none ∧ f.createdBy ≠ some userId) := by
      have hkey : ∀ g ∈ db.folders, some f.id = some g.id → g = f := fun g hg heq =>
        h.folderKey g hg f hf (some.inj heq).symm
      rcases hothers with ⟨g, hg, heq, hexists, -⟩ | ⟨hb, g, hg, heq, hother⟩
      · exact .inl (hkey g hg heq ▸ hexists)
      · exact .inr ⟨hb, hkey g hg heq ▸ hother⟩
    have hctx' : buildAccessContext db (.folder f.id) =
        some ⟨organizationId, none, ancestorFolderIds db (some f.id), none, toDate f.createdAt⟩ := by
      rw [buildAccessContext, folder?_eq h hf, bind_some, hasked.org]
      rfl
    obtain rfl := some.inj (hctx'.symm.trans hctx)
    cases hstands with
    | folder _ d hlive hin hnone hauthor hage =>
      have hloaded : Loaded db none := by simp [Loaded]
      have hresolve := resolveAccess_folder h hctx userId hloaded hlive hin hnone hauthor hage
      have hreport := resolveAccess_context h hctx userId (some role) hloaded
      have hgate : canCreateIn db userId vaultId (some f.id) = true ↔ _ := canEditFolder_lookup h hasked hlookup
      rw [hgate, ← hresolve]
      rw [hrole, hreport, capLapsed, if_neg fun hc => hactive hc.2]
      rfl

/-- a vault of user 1's that was never shared with the other member, user 2: folder 3 is user 1's, folder 4 user 2's -/
def neverShared : Db where
  vaults := [⟨1, 7⟩]
  folders := [⟨3, 1, none, some 1, 3000000⟩, ⟨4, 1, none, some 2, 3000000⟩]
  notes := []
  files := []
  shares := []
  members := [⟨7, 1, .owner⟩, ⟨7, 2, .member⟩]
  snapshots := []
  lapsed := []

/-- the vault shared for editing, user 2 having joined read-only after the folders were made -/
def joinedReadOnly : Db :=
  { neverShared with
    shares := [⟨.vault, 7, .org 7, .edit, 0⟩]
    snapshots := [⟨7, 2, .readonlyMode, 0, 5000000⟩] }

theorem wellFormed_neverShared : WellFormed neverShared where
  folderKey := by decide
  docKey := by decide
  shareKey := by decide
  tree := ⟨id, by decide⟩
  docFolder := by decide
  snapshotMember := by decide
  vaultRow := by simp [neverShared]

theorem wellFormed_joinedReadOnly : WellFormed joinedReadOnly where
  folderKey := by decide
  docKey := by decide
  shareKey := by decide
  tree := ⟨id, by decide⟩
  docFolder := by decide
  snapshotMember := by decide
  vaultRow := by simp [joinedReadOnly, neverShared]

/-- a note of user 2 in a folder, a second after the join -/
def noteIn (folderId : Id) : DocRow := ⟨20, 1, some folderId, some 2, 6000000, false⟩

theorem newNote_neverShared (folderId : Id) (hfolder : folderId = 3 ∨ folderId = 4) :
    NewNote neverShared 2 7 1 (some folderId) (noteIn folderId) := by
  rcases hfolder with rfl | rfl <;> exact ⟨rfl, by decide, rfl, by decide, rfl, rfl, by decide, by decide, by decide⟩

/-- in user 2's own folder the gate allows the note and the resolver lets them edit it -/
theorem create_in_own_folder : canCreateIn neverShared 2 1 (some 4) = true ∧
    effectivePermission (insertNote neverShared (noteIn 4)) 2 20 = .edit := by
  have hallowed : canCreateIn neverShared 2 1 (some 4) = true := by decide
  refine ⟨hallowed, (create_gate_agrees wellFormed_neverShared (by decide) (by decide)
    (newNote_neverShared 4 (.inr rfl))).1 hallowed ?_⟩
  rintro ⟨-, -, hb | hb⟩ <;> exact absurd hb (by decide)

/-- refused in someone else's folder of the never-shared vault, and in a folder of before a read-only join; their note would
be theirs to edit in both -/
theorem gate_refuses_editable_note :
    (WellFormed neverShared ∧ NewNote neverShared 2 7 1 (some 3) (noteIn 3) ∧ memberRole neverShared 7 2 = some .member ∧
      7 ∉ neverShared.lapsed ∧ canCreateIn neverShared 2 1 (some 3) = false ∧
      effectivePermission (insertNote neverShared (noteIn 3)) 2 20 = .edit) ∧
    (WellFormed joinedReadOnly ∧ NewNote joinedReadOnly 2 7 1 (some 3) (noteIn 3) ∧
      memberRole joinedReadOnly 7 2 = some .member ∧ 7 ∉ joinedReadOnly.lapsed ∧
      canCreateIn joinedReadOnly 2 1 (some 3) = false ∧
      effectivePermission (insertNote joinedReadOnly (noteIn 3)) 2 20 = .edit) := by
  have hjoined : NewNote joinedReadOnly 2 7 1 (some 3) (noteIn 3) :=
    ⟨rfl, by decide, rfl, by decide, rfl, rfl, by decide, by decide, by decide⟩
  exact ⟨⟨wellFormed_neverShared, newNote_neverShared 3 (.inl rfl), by decide, by decide, by decide, by decide⟩,
    wellFormed_joinedReadOnly, hjoined, by decide, by decide, by decide, by decide⟩

/-- an open join whose vault is read-only by now: the gate allows what the resolver then only shows -/
example : canCreateIn { joinedReadOnly with
      shares := [⟨.vault, 7, .org 7, .view, 0⟩], snapshots := [⟨7, 2, .openMode, 0, 5000000⟩] } 2 1 (some 3) = true ∧
    effectivePermission (insertNote { joinedReadOnly with
      shares := [⟨.vault, 7, .org 7, .view, 0⟩], snapshots := [⟨7, 2, .openMode, 0, 5000000⟩] } (noteIn 3)) 2 20 = .view := by
  decide

end Baalda.Access
