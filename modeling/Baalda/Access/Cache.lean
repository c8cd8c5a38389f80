/-
The request-scoped cache of the resolver (`permissions/resolver.ts`: `createResolverCache`, `prefetchDocs`).

It memoises the resolver's inputs, never its verdict: facts about a member (`membership` reads three at once and seeds the
single ones), folder chains, plans, and for prefetched documents their location, chain and rows. The database does not
change while a request runs, so a memo can only hold what the database says (`CacheOk`), and a lookup answers the same
whatever was looked up before it (`Answers`).

Main result, `one_permission_algebra`: after any lookups through one cache, the cached resolver, the explaining resolver
with or without the cache, with or without a preloaded index, and the resolver that asks the database all agree.
-/
import Baalda.Lib.Memo
import Baalda.Access.Explain

namespace Baalda.Access

open List

structure MembershipFacts where
  role : Option Role
  snapshot : Option MemberAccessSnapshot
  baseline : Option VaultPosture
deriving DecidableEq

structure PreloadedDoc where
  loc : DocLocation
  folderIds : List Id
  rows : List ShareRow

structure ResolverCache where
  roles : Memo (Id × Id) (Option Role)
  baselines : Memo Id (Option VaultPosture)
  snapshots : Memo (Id × Id) (Option MemberAccessSnapshot)
  personals : Memo (Id × Id) (Option PersonalVaultLevel)
  /-- is the plan of the organization's account lapsed -/
  plans : Memo Id Bool
  chains : Memo Id (List Id)
  memberships : Memo (Id × Id) MembershipFacts
  preloadedDocs : List (Id × PreloadedDoc)

def createResolverCache : ResolverCache := ⟨[], [], [], [], [], [], [], []⟩

/-- the three facts in one query, each column that function's own SELECT -/
def membershipFacts (db : Db) (organizationId userId : Id) : MembershipFacts :=
  ⟨memberRole db organizationId userId, memberAccessSnapshot db organizationId userId, vaultBaseline db organizationId⟩

namespace ResolverCache

def baseline (db : Db) (organizationId : Id) : StateM ResolverCache (Option VaultPosture) := fun c =>
  let (value, baselines) := Memo.memo c.baselines organizationId (vaultBaseline db organizationId)
  (value, { c with baselines })

def snapshot (db : Db) (organizationId userId : Id) : StateM ResolverCache (Option MemberAccessSnapshot) := fun c =>
  let (value, snapshots) := Memo.memo c.snapshots (organizationId, userId) (memberAccessSnapshot db organizationId userId)
  (value, { c with snapshots })

def role (db : Db) (organizationId userId : Id) : StateM ResolverCache (Option Role) := fun c =>
  let (value, roles) := Memo.memo c.roles (organizationId, userId) (memberRole db organizationId userId)
  (value, { c with roles })

def personal (db : Db) (organizationId userId : Id) : StateM ResolverCache (Option PersonalVaultLevel) := fun c =>
  let (value, personals) := Memo.memo c.personals (organizationId, userId) (personalVaultLevel db organizationId userId)
  (value, { c with personals })

def billingReadOnly (db : Db) (organizationId : Id) : StateM ResolverCache Bool := fun c =>
  let (value, plans) := Memo.memo c.plans organizationId (decide (organizationId ∈ db.lapsed))
  (value, { c with plans })

def ancestors (db : Db) : Option Id → StateM ResolverCache (List Id)
  | none => pure []
  | some folderId => fun c =>
    let (value, chains) := Memo.memo c.chains folderId (ancestorFolderIds db (some folderId))
    (value, { c with chains })

/-- an entry that a single fact already has wins over the one just read -/
def membership (db : Db) (organizationId userId : Id) : StateM ResolverCache MembershipFacts := fun c =>
  match c.memberships.find? fun e => e.1 = (organizationId, userId) with
  | some hit => (hit.2, c)
  | none =>
    let facts := membershipFacts db organizationId userId
    let (role, roles) := Memo.memo c.roles (organizationId, userId) facts.role
    let (snapshot, snapshots) := Memo.memo c.snapshots (organizationId, userId) facts.snapshot
    let (baseline, baselines) := Memo.memo c.baselines organizationId facts.baseline
    let value : MembershipFacts := ⟨role, snapshot, baseline⟩
    (value, { c with roles, snapshots, baselines, memberships := ((organizationId, userId), value) :: c.memberships })

def preloaded (docId : Id) : StateM ResolverCache (Option PreloadedDoc) := fun c =>
  ((c.preloadedDocs.find? fun e => e.1 = docId).map (·.2), c)

end ResolverCache

/-! ## Prefetching -/

/-- live notes and files among the ids, with their organizations -/
def locateDocs (db : Db) (docIds : List Id) : List (DocRow × Id) :=
  (db.liveDocs.filter fun r => r.id ∈ docIds).filterMap fun r => (db.organizationOf r.vaultId).map fun o => (r, o)

/-- rows keyed by resource -/
def rowsOn (rows : List ShareRow) (resourceType : ResourceType) (id : Id) : List ShareRow :=
  rows.filter fun r => r.resourceType = resourceType ∧ r.resourceId = id

/-- an id located twice, or whose folders loop, is left to the resolver -/
def prefetchDocs (db : Db) (docIds : List Id) : List (Id × PreloadedDoc) :=
  let located := locateDocs db docIds
  let unique := located.filter fun d => (located.filter fun e => e.1.id = d.1.id).length = 1
  let startFolders := (unique.filterMap fun d => d.1.folderId).dedup
  let parents := Forest.ancestry db.folderIds db.parentOf startFolders
  let chainOf : Option Id → Option (List Id)
    | none => some []
    | some f => Forest.walk parents db.parentOf (some []) (parents.length + 1) [] f
  let docs := unique.filterMap fun d => (chainOf d.1.folderId).map fun chain => (d, chain)
  let shareRows := db.shares.filter fun s =>
    (s.resourceType = .file ∧ s.resourceId ∈ docs.map fun d => d.1.1.id) ∨
      (s.resourceType = .folder ∧ s.resourceId ∈ docs.flatMap (·.2)) ∨
      (s.resourceType = .vault ∧ s.resourceId ∈ docs.map fun d => d.1.2)
  docs.map fun ((r, o), chain) =>
    (r.id, ⟨⟨r.vaultId, r.folderId, o, r.createdBy, toDate r.createdAt⟩, chain,
      rowsOn shareRows .file r.id ++ chain.flatMap (rowsOn shareRows .folder) ++ rowsOn shareRows .vault o⟩)

/-- ids per prefetch round -/
def prefetchChunk : ℕ := 2000

def ResolverCache.prefetch (db : Db) (docIds : List Id) : StateM ResolverCache PUnit := fun c =>
  let wanted := docIds.dedup.filter fun id => (c.preloadedDocs.find? fun e => e.1 = id).isNone
  let loaded := (wanted.toChunks prefetchChunk).flatMap (prefetchDocs db)
  (⟨⟩, { c with preloadedDocs := loaded.reverse ++ c.preloadedDocs })

/-! ## The cached paths -/

/-- the organization's and the user's rows on the document, its folders and the vault -/
def docShareRows (db : Db) (userId docId : Id) (folderIds : List Id) (organizationId : Id) : List ShareRow :=
  db.shares.filter fun r =>
    (onItem (some docId) folderIds r ∨ (r.resourceType = .vault ∧ r.resourceId = organizationId)) ∧
      (r.principal.isOrg ∨ r.principal = .user userId)

def effectivePermissionInnerCached (db : Db) (userId docId : Id) (loc : DocLocation) (pre : Option PreloadedDoc) :
    StateM ResolverCache Permission := do
  let folderIds ← match pre with
    | some doc => pure doc.folderIds
    | none => ResolverCache.ancestors db loc.folderId
  let rows := match pre with
    | some doc => doc.rows
    | none => docShareRows db userId docId folderIds loc.organizationId
  let q := askRows rows userId (some docId) folderIds loc.organizationId
  if q.denied then pure .none
  else do
    let facts ← ResolverCache.membership db loc.organizationId userId
    pure (verdict q userId loc.createdBy loc.createdAt facts.role (rowsPersonalVault rows userId loc.organizationId)
      facts.snapshot facts.baseline)

def effectivePermissionCached (db : Db) (userId docId : Id) : StateM ResolverCache Permission := do
  let pre ← ResolverCache.preloaded docId
  let loc := match pre with
    | some doc => some doc.loc
    | none => locateDoc db docId
  match loc with
  | none => pure .none
  | some loc => do
    let perm ← effectivePermissionInnerCached db userId docId loc pre
    if perm = .edit then do
      let lapsed ← ResolverCache.billingReadOnly db loc.organizationId
      pure (if lapsed then .view else perm)
    else pure perm

def buildAccessContextCached (db : Db) : Item → StateM ResolverCache (Option AccessContext)
  | .file id =>
    match locateDoc db id with
    | none => pure none
    | some loc => do
      let chain ← ResolverCache.ancestors db loc.folderId
      pure (some ⟨loc.organizationId, some id, chain, loc.createdBy, loc.createdAt⟩)
  | .folder id =>
    match (db.folder? id).bind fun f => (db.organizationOf f.vaultId).map fun o => (f, o) with
    | none => pure none
    | some (f, o) => do
      let chain ← ResolverCache.ancestors db (some id)
      pure (some ⟨o, none, chain, none, toDate f.createdAt⟩)

section

variable (db : Db) (ctx : AccessContext) (userId : Id)

def accessPersonalCached (accessIndex : Option AccessIndex) : StateM ResolverCache (Option PersonalVaultLevel) :=
  match accessIndex.filter fun index => index.organizationId = ctx.organizationId with
  | some _ => pure (accessPersonal db ctx userId accessIndex)
  | none => ResolverCache.personal db ctx.organizationId userId

/-- each fact is asked for only where a branch needs it -/
def resolveAccessForUserInnerCached (role : Option Role)
    (accessIndex : Option AccessIndex) : StateM ResolverCache ResolvedAccess :=
  let q := accessAnswers db ctx userId accessIndex
  let answer := resolveAccessForUserInner q ctx userId role
  if q.denied then pure (answer none none none)
  else do
    let personal ← accessPersonalCached db ctx userId accessIndex
    if personal.isSome then pure (answer personal none none)
    else do
      let snapshot ← ResolverCache.snapshot db ctx.organizationId userId
      if (coveringSnapshot ctx snapshot).isSome then pure (answer none snapshot none)
      else do
        let baseline ← ResolverCache.baseline db ctx.organizationId
        pure (answer none snapshot baseline)

def resolveAccessForUserCached (role : Option Role)
    (accessIndex : Option AccessIndex) : StateM ResolverCache ResolvedAccess := do
  let resolved ← resolveAccessForUserInnerCached db ctx userId role accessIndex
  if resolved.permission = .edit then do
    let lapsed ← ResolverCache.billingReadOnly db ctx.organizationId
    pure (billed lapsed resolved)
  else pure resolved

end

/-! ## What the cache holds is what the database says -/

/-- the preloaded document is where the resolver finds it, with its folders and all the rows a question can match -/
structure Preloads (db : Db) (docId : Id) (doc : PreloadedDoc) : Prop where
  loc : locateDoc db docId = some doc.loc
  folderIds : doc.folderIds = ancestorFolderIds db doc.loc.folderId
  rows : ∀ userId, ItemRows db userId (some docId) doc.folderIds doc.rows
  vault : ∀ userId, VaultRows db userId doc.loc.organizationId doc.rows

structure CacheOk (db : Db) (c : ResolverCache) : Prop where
  roles : Memo.Holds (fun k => memberRole db k.1 k.2) c.roles
  baselines : Memo.Holds (vaultBaseline db) c.baselines
  snapshots : Memo.Holds (fun k => memberAccessSnapshot db k.1 k.2) c.snapshots
  personals : Memo.Holds (fun k => personalVaultLevel db k.1 k.2) c.personals
  plans : Memo.Holds (fun o => decide (o ∈ db.lapsed)) c.plans
  chains : Memo.Holds (fun f => ancestorFolderIds db (some f)) c.chains
  memberships : Memo.Holds (fun k => membershipFacts db k.1 k.2) c.memberships
  preloadedDocs : ∀ e ∈ c.preloadedDocs, Preloads db e.1 e.2

variable {db : Db}

theorem cacheOk_create : CacheOk db createResolverCache := by
  constructor <;> simp [createResolverCache, Memo.Holds]

theorem mem_rowsOn {rows : List ShareRow} {t : ResourceType} {id : Id} {r : ShareRow} :
    r ∈ rowsOn rows t id ↔ r ∈ rows ∧ r.resourceType = t ∧ r.resourceId = id := by simp [rowsOn]

/-- the rows a prefetched document keeps -/
theorem mem_loaded {rows : List ShareRow} {id o : Id} {chain : List Id} {r : ShareRow} :
    r ∈ rowsOn rows .file id ++ chain.flatMap (rowsOn rows .folder) ++ rowsOn rows .vault o ↔
      r ∈ rows ∧ ((r.resourceType = .file ∧ r.resourceId = id) ∨ (r.resourceType = .folder ∧ r.resourceId ∈ chain) ∨
        (r.resourceType = .vault ∧ r.resourceId = o)) := by
  simp only [mem_append, mem_flatMap, mem_rowsOn]
  constructor
  · rintro ((⟨hr, ht, hi⟩ | ⟨f, hf, hr, ht, hi⟩) | ⟨hr, ht, hi⟩)
    · exact ⟨hr, .inl ⟨ht, hi⟩⟩
    · exact ⟨hr, .inr (.inl ⟨ht, by rw [hi]; exact hf⟩)⟩
    · exact ⟨hr, .inr (.inr ⟨ht, hi⟩)⟩
  · rintro ⟨hr, ⟨ht, hi⟩ | ⟨ht, hi⟩ | ⟨ht, hi⟩⟩
    · exact .inl (.inl ⟨hr, ht, hi⟩)
    · exact .inl (.inr ⟨r.resourceId, hi, hr, ht, rfl⟩)
    · exact .inr ⟨hr, ht, hi⟩

theorem mem_locateDocs {docIds : List Id} {d : DocRow × Id} (hd : d ∈ locateDocs db docIds) :
    d.1 ∈ db.liveDocs ∧ db.organizationOf d.1.vaultId = some d.2 := by
  obtain ⟨r, hr, hmap⟩ := mem_filterMap.1 hd
  obtain ⟨o, ho, rfl⟩ := Option.map_eq_some_iff.1 hmap
  exact ⟨(mem_filter.1 hr).1, ho⟩

/-- the chain walked over the prefetched folders is the one the resolver walks -/
theorem prefetched_chain (h : WellFormed db) {starts : List Id} (hstarts : ∀ s ∈ starts, s ∈ db.folderIds) {f : Id}
    (hf : f ∈ starts) :
    Forest.walk (Forest.ancestry db.folderIds db.parentOf starts) db.parentOf (some [])
      ((Forest.ancestry db.folderIds db.parentOf starts).length + 1) [] f = some (ancestorFolderIds db (some f)) := by
  have hroot := rooted_folders h
  have hsub : Forest.ancestry db.folderIds db.parentOf starts ⊆ db.folderIds := by
    intro x hx
    obtain ⟨s, -, hxs⟩ := (Forest.mem_ancestry hroot starts x).1 hx
    exact Forest.mem_nodes_of_mem_up hxs
  have hclosed : ∀ x ∈ Forest.ancestry db.folderIds db.parentOf starts, ∀ p ∈ db.parentOf x,
      p ∈ Forest.ancestry db.folderIds db.parentOf starts := by
    intro x hx p hp
    obtain ⟨s, hs, hxs⟩ := (Forest.mem_ancestry hroot starts x).1 hx
    exact (Forest.mem_ancestry hroot starts p).2
      ⟨s, hs, Forest.parent_mem_ancestors hroot (hstarts s hs) hxs hp⟩
  have hmem : f ∈ Forest.ancestry db.folderIds db.parentOf starts :=
    (Forest.mem_ancestry hroot starts f).2 ⟨f, hf, Forest.self_mem_ancestors hroot (hstarts f hf)⟩
  have hpart : Forest.Rooted (Forest.ancestry db.folderIds db.parentOf starts) db.parentOf := by
    obtain ⟨depth, hdepth⟩ := hroot
    exact ⟨depth, fun x hx p hp => ⟨hclosed x hx p hp, (hdepth x (hsub hx) p hp).2⟩⟩
  rw [Forest.walk_eq hpart _ hmem, Forest.ancestors_of_subset hroot hsub hclosed f hmem]
  rfl

/-- **Prefetching** loads what the resolver would ask for. -/
theorem prefetchDocs_preloads (h : WellFormed db) (docIds : List Id) :
    ∀ e ∈ prefetchDocs db docIds, Preloads db e.1 e.2 := by
  intro e he
  unfold prefetchDocs at he
  extract_lets located unique startFolders parents chainOf docs shareRows at he
  obtain ⟨⟨⟨r, o⟩, chain⟩, hdoc, rfl⟩ := mem_map.1 he
  obtain ⟨d, hunique, hmap⟩ := mem_filterMap.1 hdoc
  obtain ⟨chain', hchain, heq⟩ := Option.map_eq_some_iff.1 hmap
  obtain ⟨rfl, rfl⟩ := Prod.mk.inj heq
  obtain ⟨hlive, horg⟩ := mem_locateDocs (mem_filter.1 hunique).1
  have hfolders : chain' = ancestorFolderIds db r.folderId := by
    cases hf : r.folderId with
    | none =>
      rw [hf] at hchain
      exact (Option.some.inj hchain).symm
    | some f =>
      rw [hf] at hchain
      refine Option.some.inj (hchain.symm.trans (prefetched_chain h (fun s hs => ?_) ?_))
      · obtain ⟨d, hd, hds⟩ := mem_filterMap.1 (mem_dedup.1 hs)
        obtain ⟨hdl, -⟩ := mem_locateDocs (mem_filter.1 hd).1
        obtain ⟨g, hg, rfl, -⟩ := h.docFolder d.1 (liveDocs_subset hdl) s hds
        exact mem_folderIds.2 ⟨g, hg, rfl⟩
      · exact mem_dedup.2 (mem_filterMap.2 ⟨(r, o), hunique, hf⟩)
  have hfile : r.id ∈ docs.map fun d => d.1.1.id := mem_map.2 ⟨((r, o), chain'), hdoc, rfl⟩
  have hvault : o ∈ docs.map fun d => d.1.2 := mem_map.2 ⟨((r, o), chain'), hdoc, rfl⟩
  have hchains : chain' ⊆ docs.flatMap (·.2) := fun f hf => mem_flatMap.2 ⟨((r, o), chain'), hdoc, hf⟩
  refine ⟨by rw [locateDoc_eq h hlive, horg]; rfl, hfolders, fun userId => ⟨?_, ?_, ?_⟩, fun userId => ?_⟩
  · intro row hrow
    obtain ⟨hrow, -⟩ := mem_loaded.1 hrow
    exact (mem_filter.1 hrow).1
  · intro row hrow hv
    obtain ⟨-, ⟨ht, hi⟩ | ⟨ht, hi⟩ | ⟨ht, -⟩⟩ := mem_loaded.1 hrow
    · exact .inl ⟨ht, by rw [hi]⟩
    · exact .inr ⟨ht, hi⟩
    · exact absurd ht hv
  · intro row hrow hon _
    rcases hon with ⟨ht, hi⟩ | ⟨ht, hi⟩
    · have hid : row.resourceId = r.id := (Option.some.inj hi).symm
      refine mem_loaded.2 ⟨mem_filter.2 ⟨hrow, decide_eq_true (.inl ⟨ht, by rw [hid]; exact hfile⟩)⟩, ?_⟩
      exact .inl ⟨ht, hid⟩
    · refine mem_loaded.2 ⟨mem_filter.2 ⟨hrow, decide_eq_true (.inr (.inl ⟨ht, hchains hi⟩))⟩, ?_⟩
      exact .inr (.inl ⟨ht, hi⟩)
  · intro row hrow ht hi _
    refine mem_loaded.2 ⟨mem_filter.2 ⟨hrow, decide_eq_true (.inr (.inr ⟨ht, by rw [hi]; exact hvault⟩))⟩, ?_⟩
    exact .inr (.inr ⟨ht, hi⟩)

/-! ## Lookups answer with the database -/

theorem baseline_answers (organizationId : Id) :
    Answers (CacheOk db) (ResolverCache.baseline db organizationId) (vaultBaseline db organizationId) := fun _ hc =>
  ⟨Memo.memo_eq hc.baselines organizationId, { hc with baselines := hc.baselines.memo organizationId }⟩

theorem snapshot_answers (organizationId userId : Id) :
    Answers (CacheOk db) (ResolverCache.snapshot db organizationId userId) (memberAccessSnapshot db organizationId userId) :=
  fun _ hc => ⟨Memo.memo_eq hc.snapshots (organizationId, userId),
    { hc with snapshots := hc.snapshots.memo (organizationId, userId) }⟩

theorem role_answers (organizationId userId : Id) :
    Answers (CacheOk db) (ResolverCache.role db organizationId userId) (memberRole db organizationId userId) := fun _ hc =>
  ⟨Memo.memo_eq hc.roles (organizationId, userId), { hc with roles := hc.roles.memo (organizationId, userId) }⟩

theorem personal_answers (organizationId userId : Id) :
    Answers (CacheOk db) (ResolverCache.personal db organizationId userId) (personalVaultLevel db organizationId userId) :=
  fun _ hc => ⟨Memo.memo_eq hc.personals (organizationId, userId),
    { hc with personals := hc.personals.memo (organizationId, userId) }⟩

theorem billingReadOnly_answers (organizationId : Id) :
    Answers (CacheOk db) (ResolverCache.billingReadOnly db organizationId) (decide (organizationId ∈ db.lapsed)) := fun _ hc =>
  ⟨Memo.memo_eq hc.plans organizationId, { hc with plans := hc.plans.memo organizationId }⟩

theorem ancestors_answers (folderId : Option Id) :
    Answers (CacheOk db) (ResolverCache.ancestors db folderId) (ancestorFolderIds db folderId) := by
  cases folderId with
  | none => exact Answers.pure []
  | some f => exact fun _ hc => ⟨Memo.memo_eq hc.chains f, { hc with chains := hc.chains.memo f }⟩

/-- the single facts that were there before are the ones just read -/
theorem membership_answers (organizationId userId : Id) :
    Answers (CacheOk db) (ResolverCache.membership db organizationId userId) (membershipFacts db organizationId userId) := by
  intro c hc
  unfold StateT.run ResolverCache.membership
  cases hfind : c.memberships.find? fun e => e.1 = (organizationId, userId) with
  | some hit =>
    have hkey : hit.1 = (organizationId, userId) := of_decide_eq_true (find?_some hfind :)
    have hval := hc.memberships hit (mem_of_find?_eq_some hfind)
    rw [hkey] at hval
    exact ⟨hval, hc⟩
  | none =>
    have hrole := Memo.memo_eq hc.roles (organizationId, userId)
    have hsnapshot := Memo.memo_eq hc.snapshots (organizationId, userId)
    have hbaseline := Memo.memo_eq hc.baselines organizationId
    have hfacts : (⟨(Memo.memo c.roles (organizationId, userId) (memberRole db organizationId userId)).1,
        (Memo.memo c.snapshots (organizationId, userId) (memberAccessSnapshot db organizationId userId)).1,
        (Memo.memo c.baselines organizationId (vaultBaseline db organizationId)).1⟩ : MembershipFacts) =
        membershipFacts db organizationId userId := by
      rw [hrole, hsnapshot, hbaseline]
      rfl
    refine ⟨hfacts, { hc with
      roles := hc.roles.memo (organizationId, userId)
      snapshots := hc.snapshots.memo (organizationId, userId)
      baselines := hc.baselines.memo organizationId
      memberships := ?_ }⟩
    intro e he
    rcases mem_cons.1 he with rfl | he
    · exact hfacts
    · exact hc.memberships e he

theorem prefetch_answers (h : WellFormed db) (docIds : List Id) :
    Answers (CacheOk db) (ResolverCache.prefetch db docIds) ⟨⟩ := by
  refine fun c hc => ⟨rfl, { hc with preloadedDocs := fun e he => ?_ }⟩
  rcases mem_append.1 he with he | he
  · obtain ⟨ids, -, hids⟩ := mem_flatMap.1 (mem_reverse.1 he)
    exact prefetchDocs_preloads h ids e hids
  · exact hc.preloadedDocs e he

theorem docShareRows_items (userId docId : Id) (folderIds : List Id) (organizationId : Id) :
    ItemRows db userId (some docId) folderIds (docShareRows db userId docId folderIds organizationId) where
  sub := fun _ hr => (mem_filter.1 hr).1
  only := by
    intro r hr ht
    obtain ⟨hon, -⟩ := of_decide_eq_true (mem_filter.1 hr).2
    exact hon.resolve_right fun hv => ht hv.1
  all := fun _ hr hon hconcerns => mem_filter.2 ⟨hr, decide_eq_true ⟨.inl hon, hconcerns⟩⟩

theorem docShareRows_vault (userId docId : Id) (folderIds : List Id) (organizationId : Id) :
    VaultRows db userId organizationId (docShareRows db userId docId folderIds organizationId) :=
  fun _ hr ht hi hconcerns => mem_filter.2 ⟨hr, decide_eq_true ⟨.inr ⟨ht, hi⟩, hconcerns⟩⟩

theorem verdict_denied {q : RowAnswers} (hden : q.denied = true) (userId : Id) (createdBy : Option Id) (createdAt : ℕ)
    (role : Option Role) (personal : Option PersonalVaultLevel) (snapshot : Option MemberAccessSnapshot)
    (baseline : Option VaultPosture) :
    verdict q userId createdBy createdAt role personal snapshot baseline = .none := by
  exact if_pos hden

/-- the memoised walk, over prefetched or freshly read rows, is the resolver's -/
theorem effectivePermissionInner_answers (h : WellFormed db) (userId docId : Id) (loc : DocLocation)
    (pre : Option PreloadedDoc) (hpre : ∀ doc ∈ pre, Preloads db docId doc ∧ doc.loc = loc) :
    Answers (CacheOk db) (effectivePermissionInnerCached db userId docId loc pre)
      (effectivePermissionInner db userId docId loc) := by
  have hsub : ∀ {rows : List ShareRow}, ItemRows db userId (some docId) (ancestorFolderIds db loc.folderId) rows →
      rows ⊆ db.shares := fun hrows => hrows.sub
  -- whichever rows are at hand answer every question as the database does
  have hrest : ∀ rows, ItemRows db userId (some docId) (ancestorFolderIds db loc.folderId) rows →
      VaultRows db userId loc.organizationId rows →
      Answers (CacheOk db) (do
        let q := askRows rows userId (some docId) (ancestorFolderIds db loc.folderId) loc.organizationId
        if q.denied then pure .none
        else do
          let facts ← ResolverCache.membership db loc.organizationId userId
          pure (verdict q userId loc.createdBy loc.createdAt facts.role (rowsPersonalVault rows userId loc.organizationId)
            facts.snapshot facts.baseline)) (effectivePermissionInner db userId docId loc) := by
    intro rows hitems hvault
    rw [askRows_eq h hitems hvault, rowsPersonalVault_eq h (hsub hitems) hvault, effectivePermissionInner_eq]
    by_cases hden : (askDb db userId (some docId) (ancestorFolderIds db loc.folderId) loc.organizationId).denied = true
    · rw [if_pos hden, verdict_denied hden]
      exact Answers.pure _
    · rw [if_neg hden]
      exact Answers.bind (membership_answers loc.organizationId userId) (Answers.pure _)
  cases pre with
  | some doc =>
    obtain ⟨hdoc, rfl⟩ := hpre doc rfl
    refine Answers.bind (a := ancestorFolderIds db doc.loc.folderId) ?_ ?_
    · rw [← hdoc.folderIds]
      exact Answers.pure doc.folderIds
    · have hitems := hdoc.rows userId
      rw [hdoc.folderIds] at hitems
      exact hrest doc.rows hitems (hdoc.vault userId)
  | none =>
    refine Answers.bind (ancestors_answers loc.folderId) ?_
    exact hrest _ (docShareRows_items userId docId _ _) (docShareRows_vault userId docId _ _)

theorem preloaded_answers {docId : Id} {β : Type} {f : Option PreloadedDoc → StateM ResolverCache β} {b : β}
    (hf : ∀ pre, (∀ doc ∈ pre, Preloads db docId doc) → Answers (CacheOk db) (f pre) b) :
    Answers (CacheOk db) (ResolverCache.preloaded docId >>= f) b := by
  intro c hc
  refine hf ((c.preloadedDocs.find? fun e => e.1 = docId).map (·.2)) (fun doc hdoc => ?_) c hc
  obtain ⟨e, he, rfl⟩ := Option.map_eq_some_iff.1 hdoc
  have hkey : e.1 = docId := of_decide_eq_true (find?_some he :)
  rw [← hkey]
  exact hc.preloadedDocs e (mem_of_find?_eq_some he)

/-- the billing cap, asked through the cache only for `edit` -/
theorem capped_answers (organizationId : Id) (p : Permission) :
    Answers (CacheOk db) (if p = .edit then do
      let lapsed ← ResolverCache.billingReadOnly db organizationId
      pure (if lapsed then .view else p) else pure p) (capLapsed db organizationId p) := by
  by_cases hp : p = .edit
  · rw [if_pos hp]
    have hcap : capLapsed db organizationId p = if decide (organizationId ∈ db.lapsed) then .view else p := by
      by_cases hl : organizationId ∈ db.lapsed <;> simp [capLapsed, hp, hl]
    rw [hcap]
    exact Answers.bind (billingReadOnly_answers organizationId) (Answers.pure _)
  · rw [if_neg hp]
    have hcap : capLapsed db organizationId p = p := if_neg fun hc => hp hc.1
    rw [hcap]
    exact Answers.pure p

theorem effectivePermission_answers (h : WellFormed db) (userId docId : Id) :
    Answers (CacheOk db) (effectivePermissionCached db userId docId) (effectivePermission db userId docId) := by
  refine preloaded_answers fun pre hpre => ?_
  unfold effectivePermission
  cases pre with
  | none =>
    cases locateDoc db docId with
    | none => exact Answers.pure _
    | some loc =>
      have hinner := effectivePermissionInner_answers h userId docId loc none (by simp)
      exact Answers.bind hinner (capped_answers loc.organizationId _)
  | some doc =>
    have hdoc := hpre doc rfl
    rw [hdoc.loc]
    have hinner := effectivePermissionInner_answers h userId docId doc.loc (some doc) fun doc' hdoc' => by
      cases hdoc'
      exact ⟨hdoc, rfl⟩
    exact Answers.bind hinner (capped_answers doc.loc.organizationId _)

theorem buildAccessContext_answers (item : Item) :
    Answers (CacheOk db) (buildAccessContextCached db item) (buildAccessContext db item) := by
  unfold buildAccessContextCached buildAccessContext
  cases item with
  | file id =>
    dsimp only
    cases locateDoc db id with
    | none => exact Answers.pure none
    | some loc => exact Answers.bind (ancestors_answers loc.folderId) (Answers.pure _)
  | folder id =>
    dsimp only
    cases db.folder? id with
    | none => exact Answers.pure none
    | some f =>
      rw [Option.bind_some, Option.bind_some]
      cases db.organizationOf f.vaultId with
      | none => exact Answers.pure none
      | some o => exact Answers.bind (ancestors_answers (some id)) (Answers.pure _)

theorem accessPersonal_answers (ctx : AccessContext) (userId : Id) (accessIndex : Option AccessIndex) :
    Answers (CacheOk db) (accessPersonalCached db ctx userId accessIndex) (accessPersonal db ctx userId accessIndex) := by
  unfold accessPersonalCached
  cases hfilter : accessIndex.filter fun index => index.organizationId = ctx.organizationId with
  | some index => exact Answers.pure _
  | none =>
    have hlevel : accessPersonal db ctx userId accessIndex = personalVaultLevel db ctx.organizationId userId := by
      rw [accessPersonal, hfilter]
    rw [hlevel]
    exact personal_answers ctx.organizationId userId

section

variable (ctx : AccessContext) (userId : Id) (role : Option Role) (accessIndex : Option AccessIndex)

/-- the facts a branch does not ask for do not matter to it -/
theorem resolveAccessInner_answers :
    Answers (CacheOk db) (resolveAccessForUserInnerCached db ctx userId role accessIndex)
      (resolveAccessForUserInner (accessAnswers db ctx userId accessIndex) ctx userId role
        (accessPersonal db ctx userId accessIndex) (memberAccessSnapshot db ctx.organizationId userId)
        (vaultBaseline db ctx.organizationId)) := by
  unfold resolveAccessForUserInnerCached
  generalize accessAnswers db ctx userId accessIndex = q
  by_cases hden : q.denied = true
  · have hnone : ∀ p s b, resolveAccessForUserInner q ctx userId role p s b = ⟨.none, false, true⟩ := fun p s b => if_pos hden
    rw [if_pos hden, hnone, hnone]
    exact Answers.pure _
  rw [if_neg hden]
  refine Answers.bind (accessPersonal_answers ctx userId accessIndex) ?_
  cases accessPersonal db ctx userId accessIndex with
  | some level =>
    exact Answers.pure _
  | none =>
    refine Answers.bind (snapshot_answers ctx.organizationId userId) ?_
    cases hs : coveringSnapshot ctx (memberAccessSnapshot db ctx.organizationId userId) with
    | some s =>
      have hcover : ∀ b, resolveAccessForUserInner q ctx userId role none
          (memberAccessSnapshot db ctx.organizationId userId) b = resolveAccessForUserInner q ctx userId role none
          (memberAccessSnapshot db ctx.organizationId userId) none := by
        intro b
        unfold resolveAccessForUserInner
        rw [hs]
      rw [if_pos (by rfl), hcover (vaultBaseline db ctx.organizationId)]
      exact Answers.pure _
    | none =>
      exact Answers.bind (baseline_answers ctx.organizationId) (Answers.pure _)

theorem resolveAccess_answers :
    Answers (CacheOk db) (resolveAccessForUserCached db ctx userId role accessIndex)
      (resolveAccessForUser db ctx userId role accessIndex) := by
  refine Answers.bind (resolveAccessInner_answers ctx userId role accessIndex) ?_
  unfold resolveAccessForUser
  generalize resolveAccessForUserInner (accessAnswers db ctx userId accessIndex) ctx userId role
    (accessPersonal db ctx userId accessIndex) (memberAccessSnapshot db ctx.organizationId userId)
    (vaultBaseline db ctx.organizationId) = r
  by_cases hr : r.permission = .edit
  · rw [if_pos hr]
    exact Answers.bind (billingReadOnly_answers ctx.organizationId) (Answers.pure _)
  · have hbilled : billed (decide (ctx.organizationId ∈ db.lapsed)) r = r := if_neg fun hc => hr hc.1
    rw [if_neg hr, hbilled]
    exact Answers.pure r

end

/-! ## Any lookups before -/

/-- a lookup through the request's cache -/
inductive CacheOp where
  | role (organizationId userId : Id)
  | baseline (organizationId : Id)
  | snapshot (organizationId userId : Id)
  | personal (organizationId userId : Id)
  | billingReadOnly (organizationId : Id)
  | ancestors (folderId : Option Id)
  | membership (organizationId userId : Id)
  | prefetch (docIds : List Id)
  | effectivePermission (userId docId : Id)
  | buildAccessContext (item : Item)
  | resolveAccessForUser (ctx : AccessContext) (userId : Id) (role : Option Role) (accessIndex : Option AccessIndex)

/-- the cache after the lookup -/
def CacheOp.run (db : Db) (c : ResolverCache) : CacheOp → ResolverCache
  | .role o u => ((ResolverCache.role db o u).run c).2
  | .baseline o => ((ResolverCache.baseline db o).run c).2
  | .snapshot o u => ((ResolverCache.snapshot db o u).run c).2
  | .personal o u => ((ResolverCache.personal db o u).run c).2
  | .billingReadOnly o => ((ResolverCache.billingReadOnly db o).run c).2
  | .ancestors f => ((ResolverCache.ancestors db f).run c).2
  | .membership o u => ((ResolverCache.membership db o u).run c).2
  | .prefetch docIds => ((ResolverCache.prefetch db docIds).run c).2
  | .effectivePermission u d => ((effectivePermissionCached db u d).run c).2
  | .buildAccessContext item => ((buildAccessContextCached db item).run c).2
  | .resolveAccessForUser ctx u r index => ((resolveAccessForUserCached db ctx u r index).run c).2

/-- a request's cache after some lookups -/
def cacheAfter (db : Db) (ops : List CacheOp) : ResolverCache :=
  ops.foldl (fun c op => op.run db c) createResolverCache

theorem CacheOp.cacheOk (h : WellFormed db) {c : ResolverCache} (hc : CacheOk db c) (op : CacheOp) :
    CacheOk db (op.run db c) := by
  cases op with
  | role o u => exact (role_answers o u c hc).2
  | baseline o => exact (baseline_answers o c hc).2
  | snapshot o u => exact (snapshot_answers o u c hc).2
  | personal o u => exact (personal_answers o u c hc).2
  | billingReadOnly o => exact (billingReadOnly_answers o c hc).2
  | ancestors f => exact (ancestors_answers f c hc).2
  | membership o u => exact (membership_answers o u c hc).2
  | prefetch docIds => exact (prefetch_answers h docIds c hc).2
  | effectivePermission u d => exact (effectivePermission_answers h u d c hc).2
  | buildAccessContext item => exact (buildAccessContext_answers item c hc).2
  | resolveAccessForUser ctx u role index => exact (resolveAccess_answers ctx u role index c hc).2

theorem cacheOk_after (h : WellFormed db) (ops : List CacheOp) : CacheOk db (cacheAfter db ops) := by
  have hrun : cacheAfter db ops =
      (ops.map fun op c => op.run db c).foldl (fun c m => m c) createResolverCache := by
    rw [cacheAfter, foldl_map]
  rw [hrun]
  refine keeps_foldl _ (fun m hm c hc => ?_) cacheOk_create
  obtain ⟨op, -, rfl⟩ := mem_map.1 hm
  exact op.cacheOk h hc

/-- the document whose permission is the access to an item: the file itself; in a folder, a live document without rows of
its own, that the user did not write and that the join snapshot covers as it covers the folder -/
inductive StandsFor (db : Db) (userId : Id) (ctx : AccessContext) : Item → Id → Prop
  | file (id : Id) : StandsFor db userId ctx (.file id) id
  | folder (id : Id) (r : DocRow) (live : r ∈ db.liveDocs) (inFolder : r.folderId = some id)
      (noRows : ∀ row ∈ db.shares, row.resourceType = .file → row.resourceId ≠ r.id)
      (notAuthor : r.createdBy ≠ some userId)
      (age : ∀ s ∈ memberAccessSnapshot db ctx.organizationId userId,
        ctx.createdAt ≤ s.snapshotAt ↔ toDate r.createdAt ≤ s.snapshotAt) : StandsFor db userId ctx (.folder id) r.id

/-- **One permission algebra.** After any lookups through one cache, the cached resolver answers like the resolver that asks
the database; and whatever context is built for a file or a folder (from the database, through the cache, from an index),
what is reported for a user under their member role, with the cache or without, with an index or without, is that answer. -/
theorem one_permission_algebra (h : WellFormed db) (ops : List CacheOp) (userId : Id) :
    (∀ docId, ((effectivePermissionCached db userId docId).run (cacheAfter db ops)).1 = effectivePermission db userId docId) ∧
      (∀ item, ((buildAccessContextCached db item).run (cacheAfter db ops)).1 = buildAccessContext db item ∧
        ∀ organizationId, buildAccessContextFromIndex db (loadAccessIndex db organizationId) item =
          buildAccessContext db item) ∧
      ∀ item ctx docId, buildAccessContext db item = some ctx → StandsFor db userId ctx item docId →
        ∀ accessIndex, Loaded db accessIndex →
          (resolveAccessForUser db ctx userId (memberRole db ctx.organizationId userId) accessIndex).permission =
              effectivePermission db userId docId ∧
            ((resolveAccessForUserCached db ctx userId (memberRole db ctx.organizationId userId) accessIndex).run
              (cacheAfter db ops)).1.permission = effectivePermission db userId docId := by
  have hcache : CacheOk db (cacheAfter db ops) := cacheOk_after h ops
  refine ⟨fun docId => (effectivePermission_answers h userId docId _ hcache).1,
    fun item => ⟨(buildAccessContext_answers item _ hcache).1, fun o => buildAccessContextFromIndex_eq h o item⟩, ?_⟩
  intro item ctx docId hctx hstands accessIndex hindex
  have hsame : (resolveAccessForUser db ctx userId (memberRole db ctx.organizationId userId) accessIndex).permission =
      effectivePermission db userId docId := by
    cases hstands with
    | file => exact resolveAccess_file h hctx userId hindex
    | folder id r hlive hfolder hnone hauthor hage =>
      exact resolveAccess_folder h hctx userId hindex hlive hfolder hnone hauthor hage
  rw [(resolveAccess_answers ctx userId _ accessIndex _ hcache).1]
  exact ⟨hsame, hsame⟩

/-- user 2 may edit folder 3, but folder 4 inside it is locked for everyone -/
def sharedFolder : Db where
  vaults := [⟨1, 7⟩]
  folders := [⟨3, 1, none, some 1, 3000000⟩, ⟨4, 1, some 3, some 1, 3000000⟩]
  notes := [⟨10, 1, some 3, some 1, 4000000, false⟩, ⟨11, 1, some 4, some 1, 5000000, false⟩]
  files := []
  shares := [⟨.folder, 3, .user 2, .edit, 0⟩, ⟨.folder, 4, .org 7, .locked, 0⟩]
  members := [⟨7, 1, .owner⟩, ⟨7, 2, .member⟩]
  snapshots := []
  lapsed := []

theorem wellFormed_sharedFolder : WellFormed sharedFolder where
  folderKey := by decide
  docKey := by decide
  shareKey := by decide
  tree := ⟨id, by decide⟩
  docFolder := by decide
  snapshotMember := by decide
  vaultRow := by simp [sharedFolder]

/-- after prefetching both notes and asking about one, the cached answer on the locked note is the resolver's -/
theorem cached_sharedFolder : WellFormed sharedFolder ∧ effectivePermission sharedFolder 2 11 = .view ∧
    ((effectivePermissionCached sharedFolder 2 11).run
      (cacheAfter sharedFolder [.prefetch [10, 11], .effectivePermission 2 10])).1 = .view := by
  have hview : effectivePermission sharedFolder 2 11 = .view := by decide
  refine ⟨wellFormed_sharedFolder, hview, ?_⟩
  rw [(one_permission_algebra wellFormed_sharedFolder [.prefetch [10, 11], .effectivePermission 2 10] 2).1 11, hview]

end Baalda.Access
