/-
Who may read an attachment (`canReadAttachment` and `filterReadableBlobs` in permissions/http-gates.ts).

A blob that names a `files` row is read as its document. Any other belongs to the notes that mention it: a user with
vault-wide read (`vaultAccess`) reads every such blob, anyone else those that a note of their readable set mentions,
by its text or, in mode `refs`, by its `blob_refs` rows. The single gate searches the texts for the path; the list
filter asks `filterByNoteReference` for all paths at once. Mode `shadow` answers as `text` does.
-/
import Baalda.Access.Agreement
import Baalda.Server.NoteReferences

namespace Baalda.AttachmentGate

open Access NoteReferences List

local instance : LawfulBEq Text := inferInstance

/-! ## Model -/

inductive AttachmentAclMode where
  | text
  | shadow
  | refs
deriving DecidableEq

/-- what is indexed of a vault's notes -/
structure Indexed where
  noteIndex : NoteReferences.Vault Id
  /-- `blob_refs`: a note and a lowercased path -/
  blobRefs : List (Id × Text)

section

variable (db : Db) (indexed : Id → Indexed) (mode : AttachmentAclMode) (toLowerCase : Text → Text)

/-- a `files` row of the vault -/
def fileDoc (vaultId docId : Id) : Bool := db.files.any fun f => f.id = docId ∧ f.vaultId = vaultId

/-- the blob names a `files` row of the vault -/
def isTreeFile (vaultId : Id) (docId : Option Id) : Bool := docId.any fun d => fileDoc db vaultId d

/-- of `paths`, those in `blob_refs` for a readable note -/
def referencedByRefs (vaultId : Id) (paths : List Text) (readable : List Id) : List Text :=
  paths.filter fun p => (indexed vaultId).blobRefs.any fun row => row.1 ∈ readable ∧ row.2 = toLowerCase p

/-- does some readable note's text have the path? none: refused for want of the vault's key -/
def referencedByText (vaultId : Id) (path : Text) (readable : List Id) (hasKey : Bool) : Option Bool :=
  let index := (indexed vaultId).noteIndex
  let old := (index.plain readable).any fun r => contentLike r.text path
  if !old && index.keyed then
    (sealedReferencedPaths (index.sealedRows readable) [path] hasKey).map fun hit => hit ≠ []
  else some old

def canReadAttachment (userId vaultId : Id) (relPath : Option Text) (docId : Option Id) (hasKey : Bool) : Option Bool :=
  match docId.filter (fileDoc db vaultId) with
  | some d => some (decide (effectivePermission db userId d ≠ .none))
  | none =>
    match vaultAccess db userId vaultId with
    | none => some false
    | some access =>
      if access.vaultWide then some true
      else
        match relPath.filter fun p => p ≠ [] with
        | none => some false
        | some path =>
          let readable := listReadableDocsInVault db userId vaultId
          if readable = [] then some false
          else if mode = .refs then some (referencedByRefs indexed toLowerCase vaultId [path] readable ≠ [])
          else referencedByText indexed vaultId path readable hasKey

def filterByNoteReferenceMode (vaultId : Id) (blobs : List (BlobAclRow Id)) (readable : List Id) (hasKey : Bool) :
    Option (List (BlobAclRow Id)) :=
  if mode = .refs then
    let hit := referencedByRefs indexed toLowerCase vaultId (pathsOf blobs) readable
    some (blobs.filter fun b => b.relPath.any fun p => p ≠ [] && p ∈ hit)
  else filterByNoteReference (indexed vaultId).noteIndex blobs readable hasKey

def filterReadableBlobs (userId vaultId : Id) (blobs : List (BlobAclRow Id)) (hasKey : Bool) :
    Option (List (BlobAclRow Id)) :=
  match vaultAccess db userId vaultId with
  | none => some []
  | some access =>
    let readable := listReadableDocsInVault db userId vaultId
    let rest := blobs.filter fun b => !isTreeFile db vaultId b.docId
    let tree := blobs.filter fun b => isTreeFile db vaultId b.docId && b.docId.any fun d => d ∈ readable
    let visibleRest :=
      if access.vaultWide then some rest
      else if rest = [] then some []
      else filterByNoteReferenceMode indexed mode toLowerCase vaultId rest readable hasKey
    visibleRest.map fun visible => blobs.filter fun b => b ∈ tree || b ∈ visible

/-! ## The rule, in words -/

/-- the user has vault-wide read -/
def WideReader (userId vaultId : Id) : Prop :=
  ∃ access, vaultAccess db userId vaultId = some access ∧ access.vaultWide = true

/-- a document of the set mentions the path -/
def MentionedIn (vaultId : Id) (path : Text) (docs : List Id) : Prop :=
  match mode with
  | .refs => ∃ row ∈ (indexed vaultId).blobRefs, row.1 ∈ docs ∧ row.2 = toLowerCase path
  | _ => Mentions (indexed vaultId).noteIndex docs path

/-- the document itself mentions it -/
def MentionedBy (vaultId : Id) (path : Text) (docId : Id) : Prop :=
  MentionedIn indexed mode toLowerCase vaultId path [docId]

end

/-! ## The gate -/

section

variable {db : Db} {indexed : Id → Indexed} {mode : AttachmentAclMode} {toLowerCase : Text → Text}
  {userId vaultId : Id} {relPath : Option Text} {docId : Option Id} {hasKey ans : Bool} {path : Text}

variable {docs : List Id}

/-- what a set mentions, one of its documents does -/
theorem mentionedIn_iff : MentionedIn indexed mode toLowerCase vaultId path docs ↔
    ∃ d ∈ docs, MentionedBy indexed mode toLowerCase vaultId path d := by
  cases mode with
  | refs => simp [MentionedBy, MentionedIn]; grind
  | text | shadow => simp [MentionedBy, MentionedIn, Mentions]; grind

theorem referencedByText_iff {readable : List Id}
    (h : referencedByText indexed vaultId path readable hasKey = some ans) :
    ans = true ↔ Mentions (indexed vaultId).noteIndex readable path := by
  rw [mentions_iff]
  have hold : ((indexed vaultId).noteIndex.plain readable).any (fun r => contentLike r.text path) = true ↔
      ∃ r ∈ (indexed vaultId).noteIndex.plain readable, path <:+: r.text := by
    simp only [any_eq_true, contentLike_iff]
  unfold referencedByText at h
  simp only at h
  split at h
  · next hopen =>
    obtain ⟨hnot, hkeyed⟩ := Bool.and_eq_true_iff.1 hopen
    rw [Bool.not_eq_true', ← Bool.not_eq_true, hold] at hnot
    obtain ⟨hit, hhit, rfl⟩ := Option.map_eq_some_iff.1 h
    have hmem := mem_sealedReferencedPaths (p := path) hhit
    have hall : ∀ x ∈ hit, x = path := fun x hx =>
      mem_singleton.1 ((mem_sealedReferencedPaths hhit).1 hx).1
    have hne : hit ≠ [] ↔ path ∈ hit := by
      constructor
      · intro hhit'
        obtain ⟨x, hx⟩ := exists_mem_of_ne_nil _ hhit'
        exact hall x hx ▸ hx
      · exact fun hx => ne_nil_of_mem hx
    rw [decide_eq_true_eq, hne, hmem]
    simp [hnot, hkeyed]
  · next hopen =>
    cases h
    rw [hold]
    constructor
    · exact .inl
    · rintro (hplain | ⟨hkeyed, -⟩)
      · exact hplain
      · rw [← hold]
        simpa [hkeyed] using hopen

theorem mentionedIn_refs : referencedByRefs indexed toLowerCase vaultId [path] docs ≠ [] ↔
    MentionedIn indexed .refs toLowerCase vaultId path docs := by
  simp [referencedByRefs, MentionedIn]

/-- a user without access to the vault has no set -/
theorem listReadable_none (h : vaultAccess db userId vaultId = none) :
    listReadableDocsInVault db userId vaultId = [] := by
  simp [listReadableDocsInVault, h]

theorem not_mentioned_nil : ¬ MentionedIn indexed mode toLowerCase vaultId path [] := by
  rw [mentionedIn_iff]
  simp

/-- **The gate.** Vault-wide read, or a note of the readable set that mentions the path. -/
theorem canReadAttachment_iff (hdoc : isTreeFile db vaultId docId = false)
    (h : canReadAttachment db indexed mode toLowerCase userId vaultId relPath docId hasKey = some ans) :
    ans = true ↔ WideReader db userId vaultId ∨ ∃ p, relPath = some p ∧ p ≠ [] ∧
      MentionedIn indexed mode toLowerCase vaultId p (listReadableDocsInVault db userId vaultId) := by
  have hnot : docId.filter (fileDoc db vaultId) = none := by
    rw [isTreeFile] at hdoc
    cases docId with
    | none => rfl
    | some d => simpa using hdoc
  simp only [canReadAttachment, hnot] at h
  cases haccess : vaultAccess db userId vaultId with
  | none =>
    rw [haccess] at h
    cases h
    refine iff_of_false (by simp) ?_
    rintro (⟨access, hsome, -⟩ | ⟨p, -, -, hment⟩)
    · exact (nomatch haccess.symm.trans hsome)
    · rw [listReadable_none haccess] at hment
      exact not_mentioned_nil hment
  | some access =>
    rw [haccess] at h
    simp only at h
    by_cases hwide : access.vaultWide = true
    · rw [if_pos hwide] at h
      cases h
      exact iff_of_true rfl (.inl ⟨access, haccess, hwide⟩)
    have hnotwide : ¬ WideReader db userId vaultId := by
      intro ⟨access', hsome, hwide'⟩
      cases haccess.symm.trans hsome
      exact hwide hwide'
    rw [if_neg hwide] at h
    rw [or_iff_right hnotwide]
    cases hpath : relPath.filter fun p => p ≠ [] with
    | none =>
      rw [hpath] at h
      cases h
      refine iff_of_false (by simp) fun ⟨p, hp, hne, _⟩ => ?_
      rw [hp] at hpath
      simp [hne] at hpath
    | some path =>
      obtain ⟨hp, hne⟩ : relPath = some path ∧ path ≠ [] := by
        simpa using hpath
      have hone : (∃ p, relPath = some p ∧ p ≠ [] ∧
          MentionedIn indexed mode toLowerCase vaultId p (listReadableDocsInVault db userId vaultId)) ↔
          MentionedIn indexed mode toLowerCase vaultId path (listReadableDocsInVault db userId vaultId) := by
        simp [hp, hne]
      rw [hone]
      rw [hpath] at h
      simp only at h
      split at h
      · next hempty =>
        cases h
        rw [hempty]
        exact iff_of_false (by simp) not_mentioned_nil
      split at h
      · next hmode =>
        cases h
        subst hmode
        rw [decide_eq_true_eq, mentionedIn_refs]
      · next hmode =>
        rw [referencedByText_iff h]
        cases mode with
        | refs => exact absurd rfl hmode
        | text | shadow => rfl

/-! ## The list filter -/

theorem mem_referencedByRefs {paths : List Text} :
    path ∈ referencedByRefs indexed toLowerCase vaultId paths docs ↔
      path ∈ paths ∧ MentionedIn indexed .refs toLowerCase vaultId path docs := by
  simp [referencedByRefs, MentionedIn]

/-- the list filter keeps what the gate allows, path by path, where the path is readily found -/
theorem mem_filterByNoteReferenceMode {blobs kept : List (BlobAclRow Id)} {readable : List Id}
    (h : filterByNoteReferenceMode indexed mode toLowerCase vaultId blobs readable hasKey = some kept)
    {b : BlobAclRow Id} (hb : b ∈ blobs)
    (hready : mode ≠ .refs → ∀ p, b.relPath = some p → Readily (indexed vaultId).noteIndex blobs readable p) :
    b ∈ kept ↔ ∃ p, b.relPath = some p ∧ p ≠ [] ∧ MentionedIn indexed mode toLowerCase vaultId p readable := by
  unfold filterByNoteReferenceMode at h
  split at h
  · next hmode =>
    subst hmode
    cases h
    rw [mem_filter, and_iff_right hb, Option.any_eq_true]
    apply exists_congr
    intro p
    apply and_congr_right
    intro hp
    rw [Bool.and_eq_true, decide_eq_true_eq, decide_eq_true_eq, mem_referencedByRefs]
    apply and_congr_right
    intro hne
    apply and_iff_right
    rw [pathsOf, mem_eraseDups, mem_filter]
    exact ⟨mem_filterMap.2 ⟨b, hb, hp⟩, by simpa using hne⟩
  · next hmode =>
    have hment (p : Text) : MentionedIn indexed mode toLowerCase vaultId p readable ↔
        Mentions (indexed vaultId).noteIndex readable p := by
      cases mode with
      | refs => exact absurd rfl hmode
      | text | shadow => rfl
    simp only [hment]
    constructor
    · intro hkept
      obtain ⟨-, p, hp, hne⟩ := path_of_kept h hkept
      exact ⟨p, hp, hne, ((reference_exact h hb hp hne).2 (hready hmode p hp)).1 hkept⟩
    · rintro ⟨p, hp, hne, hmention⟩
      exact ((reference_exact h hb hp hne).2 (hready hmode p hp)).2 hmention

/-- the blobs that name no `files` row -/
def restOf (db : Db) (vaultId : Id) (blobs : List (BlobAclRow Id)) : List (BlobAclRow Id) :=
  blobs.filter fun b => !isTreeFile db vaultId b.docId

/-- **The list.** Of the blobs that name no `files` row, the filter keeps what the gate allows. -/
theorem mem_filterReadableBlobs {blobs kept : List (BlobAclRow Id)}
    (h : filterReadableBlobs db indexed mode toLowerCase userId vaultId blobs hasKey = some kept)
    {b : BlobAclRow Id} (hb : b ∈ blobs) (hdoc : isTreeFile db vaultId b.docId = false)
    (hready : mode ≠ .refs → ∀ p, b.relPath = some p → Readily (indexed vaultId).noteIndex (restOf db vaultId blobs)
      (listReadableDocsInVault db userId vaultId) p) :
    b ∈ kept ↔ WideReader db userId vaultId ∨ ∃ p, b.relPath = some p ∧ p ≠ [] ∧
      MentionedIn indexed mode toLowerCase vaultId p (listReadableDocsInVault db userId vaultId) := by
  unfold filterReadableBlobs at h
  cases haccess : vaultAccess db userId vaultId with
  | none =>
    rw [haccess] at h
    cases h
    refine iff_of_false (not_mem_nil) ?_
    rintro (⟨access, hsome, -⟩ | ⟨p, -, -, hment⟩)
    · exact (nomatch haccess.symm.trans hsome)
    · rw [listReadable_none haccess] at hment
      exact not_mentioned_nil hment
  | some access =>
    rw [haccess] at h
    obtain ⟨visible, hvisible, rfl⟩ := Option.map_eq_some_iff.1 h
    have hrest : b ∈ restOf db vaultId blobs := mem_filter.2 ⟨hb, by rw [hdoc]; rfl⟩
    have hkept : b ∈ (blobs.filter fun b' => b' ∈ (blobs.filter fun b => isTreeFile db vaultId b.docId &&
        b.docId.any fun d => d ∈ listReadableDocsInVault db userId vaultId) || b' ∈ visible) ↔ b ∈ visible := by
      simp [mem_filter, hb, hdoc]
    rw [hkept]
    by_cases hwide : access.vaultWide = true
    · rw [if_pos hwide] at hvisible
      cases hvisible
      exact iff_of_true hrest (.inl ⟨access, haccess, hwide⟩)
    have hnotwide : ¬ WideReader db userId vaultId := by
      intro ⟨access', hsome, hwide'⟩
      cases haccess.symm.trans hsome
      exact hwide hwide'
    have hne : (blobs.filter fun b => !isTreeFile db vaultId b.docId) ≠ [] := ne_nil_of_mem hrest
    rw [if_neg hwide, if_neg hne] at hvisible
    rw [or_iff_right hnotwide]
    exact mem_filterByNoteReferenceMode hvisible hrest hready

/-! ## What a vault-wide reader may read -/

/-- the team's side of what hides a document: an item set to Private, or a private join -/
def TeamHidden (db : Db) (userId organizationId : Id) (r : DocRow) : Prop :=
  personalVaultLevel db organizationId userId = none ∧ (ItemPrivate db organizationId r ∨
    ∃ s ∈ memberAccessSnapshot db organizationId userId, resolverAtJoin r s = true ∧ s.mode = .privateMode)

/-- **Vault-wide read.** A vault-wide reader may read every document of the vault, but for what is denied to them,
private to the team, or older than their private join. -/
theorem wideReader_reads (h : WellFormed db) (hwide : WideReader db userId vaultId) {r : DocRow}
    (hr : r ∈ db.liveDocs) (hv : r.vaultId = vaultId) (hden : ¬ UserDenied db userId r)
    (hteam : ∀ o ∈ db.organizationOf vaultId, ¬ TeamHidden db userId o r) :
    effectivePermission db userId r.id ≠ .none := by
  obtain ⟨access, haccess, hwide⟩ := hwide
  obtain ⟨o, ho, rfl⟩ := Option.map_eq_some_iff.1 haccess
  have hhidden := hteam o ho
  rw [readable_iff h hr (hv ▸ ho)]
  refine ⟨hden, ?_⟩
  cases hpersonal : personalVaultLevel db o userId with
  | some personal =>
    rw [hpersonal] at hwide
    exact .inl (of_decide_eq_true hwide)
  | none =>
    rw [hpersonal] at hwide
    -- without a level of their own, the grant is the organization's
    obtain ⟨row, hrow, hgrant⟩ := any_eq_true.1 hwide
    obtain ⟨htype, hres, hgrants, hwho⟩ := of_decide_eq_true hgrant
    have hnouser : row.principal ≠ .user userId := by
      intro hu
      obtain ⟨p, hp, -⟩ := (userVaultGrant_iff h).1 ⟨row, hrow, hu, hgrants, htype, hres⟩
      exact (nomatch hpersonal.symm.trans hp)
    obtain ⟨hmember, horg⟩ := hwho.resolve_right hnouser
    have hprincipal : row.principal = .org o := by
      cases hp : row.principal with
      | user u => rw [hp] at horg; cases horg
      | org o' =>
        have hvault := h.vaultRow row hrow htype o' hp
        rw [hvault, hres]
    have hprivate : ¬ ItemPrivate db o r := fun hitem => hhidden ⟨hpersonal, .inl hitem⟩
    have hgranted : OrgGrant db o (some r.id) (folderChain db r) none :=
      ⟨row, hrow, hprincipal, hgrants, .inr ⟨htype, hres⟩, by simp⟩
    refine .inr ⟨hprivate, hmember, ?_⟩
    cases hs : (memberAccessSnapshot db o userId).filter (resolverAtJoin r) with
    | none => exact .inl hgranted
    | some s =>
      obtain ⟨hsnap, hatjoin⟩ := Option.filter_eq_some_iff.1 hs
      exact .inl fun hmode => hhidden ⟨hpersonal, .inr ⟨s, hsnap, hatjoin, hmode⟩⟩

/-! ## The law -/

/-- **Attachment access.** Over well-formed tables, for a blob that names no `files` row, once the request is answered:
- the gate allows it to a vault-wide reader, and to anyone whose readable set has a note that mentions its path;
- a vault-wide reader may read every document of the vault, but for what is denied to them, private to the team, or
  older than their private join;
- anyone else is allowed only what a note mentions that the resolver lets them read, where no document of the vault,
  created in the millisecond of their join, hangs on the join snapshot;
- the list filter keeps the blob exactly when the gate allows it, where its path is readily found. -/
theorem attachment_access (h : WellFormed db) (indexed : Id → Indexed) (mode : AttachmentAclMode)
    (toLowerCase : Text → Text) (userId vaultId : Id) :
    (∀ relPath docId hasKey ans, isTreeFile db vaultId docId = false →
      canReadAttachment db indexed mode toLowerCase userId vaultId relPath docId hasKey = some ans →
      (ans = true ↔ WideReader db userId vaultId ∨ ∃ p, relPath = some p ∧ p ≠ [] ∧
        ∃ d ∈ listReadableDocsInVault db userId vaultId, MentionedBy indexed mode toLowerCase vaultId p d)) ∧
    (WideReader db userId vaultId → ∀ r ∈ db.liveDocs, r.vaultId = vaultId → ¬ UserDenied db userId r →
      (∀ o ∈ db.organizationOf vaultId, ¬ TeamHidden db userId o r) → effectivePermission db userId r.id ≠ .none) ∧
    (JoinMillisecondOk db userId vaultId → ¬ WideReader db userId vaultId →
      ∀ relPath docId hasKey, isTreeFile db vaultId docId = false →
        canReadAttachment db indexed mode toLowerCase userId vaultId relPath docId hasKey = some true →
        ∃ p, relPath = some p ∧ ∃ r ∈ db.liveDocs, r.vaultId = vaultId ∧ effectivePermission db userId r.id ≠ .none ∧
          MentionedBy indexed mode toLowerCase vaultId p r.id) ∧
    ∀ blobs hasKey kept, filterReadableBlobs db indexed mode toLowerCase userId vaultId blobs hasKey = some kept →
      ∀ b ∈ blobs, isTreeFile db vaultId b.docId = false →
        (mode ≠ .refs → ∀ p, b.relPath = some p → Readily (indexed vaultId).noteIndex (restOf db vaultId blobs)
          (listReadableDocsInVault db userId vaultId) p) →
        ∀ ans, canReadAttachment db indexed mode toLowerCase userId vaultId b.relPath b.docId hasKey = some ans →
          (b ∈ kept ↔ ans = true) := by
  refine ⟨fun relPath docId hasKey ans hdoc hans => ?_, fun hwide r hr hv hden hteam => ?_, fun hok hnot relPath docId
    hasKey hdoc hans => ?_, fun blobs hasKey kept hkept b hb hdoc hready ans hans => ?_⟩
  · rw [canReadAttachment_iff hdoc hans]
    simp only [← mentionedIn_iff]
  · exact wideReader_reads h hwide hr hv hden hteam
  · obtain ⟨p, hp, -, hment⟩ := ((canReadAttachment_iff hdoc hans).1 rfl).resolve_left hnot
    obtain ⟨d, hd, hment⟩ := mentionedIn_iff.1 hment
    obtain ⟨r, hr, hv, rfl, heff⟩ := ((list_agrees_iff h userId vaultId).2 hok d).1 hd
    exact ⟨p, hp, r, hr, hv, heff, hment⟩
  · rw [mem_filterReadableBlobs hkept hb hdoc hready, canReadAttachment_iff hdoc hans]

end

/-! ## Runs on fixed inputs -/

/-- an attachment that note 10 mentions, in a vault whose notes are in the clear -/
def mentionedByTen : Id → Indexed := fun _ =>
  ⟨⟨[⟨10, "![](attachments/p.png)".toList, none, false⟩, ⟨11, [], none, false⟩], false, by simp⟩, []⟩

/-- user 2 joined privately: note 10 is older, and nothing newer mentions the attachment; the vault's grant to the
organization makes them a vault-wide reader all the same -/
theorem wide_reader_sees_hidden : WellFormed joinCalm ∧
    canReadAttachment joinCalm mentionedByTen .shadow id 2 1 (some "attachments/p.png".toList) none true = some true ∧
    effectivePermission joinCalm 2 10 = .none ∧ effectivePermission joinCalm 2 11 ≠ .none ∧
    ¬ Mentions (mentionedByTen 1).noteIndex [11] "attachments/p.png".toList := by
  refine ⟨wellFormed_joinCalm, ?_⟩
  decide +kernel

/-- the same vault without its grant; note 10 is shared with user 2 -/
def sharedTen : Db := { joinCalm with shares := [⟨.file, 10, .user 2, .view, 1⟩] }

theorem wellFormed_sharedTen : WellFormed sharedTen where
  folderKey := by decide
  docKey := by decide
  shareKey := by decide
  tree := ⟨id, by decide⟩
  docFolder := by decide
  snapshotMember := by decide
  vaultRow := by simp [sharedTen]

theorem joinMillisecondOk_sharedTen : JoinMillisecondOk sharedTen 2 1 := by
  intro organizationId ho _ s hs r hr _ hms
  obtain rfl : 7 = organizationId := by simpa [sharedTen, joinCalm, joinRace, Db.organizationOf] using ho
  obtain rfl : ⟨.privateMode, 0, 5000⟩ = s := by
    simpa [sharedTen, joinCalm, joinRace, memberAccessSnapshot, toDate] using hs
  have hcalm : ∀ r ∈ sharedTen.liveDocs, toDate r.createdAt ≠ 5000 := by decide
  exact absurd hms.1 (hcalm r hr)

theorem not_wideReader_sharedTen : ¬ WideReader sharedTen 2 1 := by
  intro ⟨access, haccess, hwide⟩
  have hscoped : ∀ a ∈ vaultAccess sharedTen 2 1, a.vaultWide = false := by decide
  exact (nomatch (hscoped access haccess).symm.trans hwide)

/-- user 2 reads the attachment, and through a note the resolver lets them read -/
theorem shared_note_opens_attachment :
    canReadAttachment sharedTen mentionedByTen .text id 2 1 (some "attachments/p.png".toList) none true = some true ∧
      ∃ p, some "attachments/p.png".toList = some p ∧ ∃ r ∈ sharedTen.liveDocs, r.vaultId = 1 ∧
        effectivePermission sharedTen 2 r.id ≠ .none ∧ MentionedBy mentionedByTen .text id 1 p r.id := by
  have hans : canReadAttachment sharedTen mentionedByTen .text id 2 1 (some "attachments/p.png".toList) none true =
      some true := by decide +kernel
  obtain ⟨-, -, hscoped, -⟩ := attachment_access wellFormed_sharedTen mentionedByTen .text id 2 1
  exact ⟨hans, hscoped joinMillisecondOk_sharedTen not_wideReader_sharedTen _ _ _ rfl hans⟩

end Baalda.AttachmentGate
