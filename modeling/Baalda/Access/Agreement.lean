/-
The set for a vault against the resolver for each of its documents.

Both follow `Readable`; they differ in when a join snapshot covers a document. The resolver compares two `Date`s, both cut
to the millisecond. The set sends the snapshot's `Date` back to the database, where it meets the document's timestamp in
full. A document created in the millisecond of the join is covered for the resolver and not for the set, whichever of the
two came first (`listAtJoin_iff`).

Main result, `list_agrees_iff`: over well-formed tables, the set is exactly the documents the resolver grants iff every
such document reads the same with the snapshot and without it (`JoinMillisecondOk`).
-/
import Baalda.Access.VaultDocs

namespace Baalda.Access

open List

variable {db : Db} {userId vaultId organizationId : Id} {r : DocRow} {s : MemberAccessSnapshot}

/-- created in the millisecond of the join, at a microsecond past its start -/
def InJoinMillisecond (r : DocRow) (s : MemberAccessSnapshot) : Prop :=
  toDate r.createdAt = s.snapshotAt ∧ r.createdAt ≠ ofDate s.snapshotAt

/-- the set's test is the resolver's, less the millisecond of the join -/
theorem listAtJoin_iff : listAtJoin r s = true ↔ resolverAtJoin r s = true ∧ ¬ InJoinMillisecond r s := by
  have hset : listAtJoin r s = true ↔ r.createdAt ≤ s.snapshotAt * 1000 := decide_eq_true_iff
  have hone : resolverAtJoin r s = true ↔ r.createdAt / 1000 ≤ s.snapshotAt := decide_eq_true_iff
  rw [hset, hone, InJoinMillisecond, toDate, ofDate]
  omega

/-- the snapshot decides nothing for the document: a nearer rule does, or the vault says the same without it -/
def SnapshotIdle (db : Db) (userId organizationId : Id) (r : DocRow) (s : MemberAccessSnapshot) : Prop :=
  UserDenied db userId r ∨ DocUserGrant db userId r ∨ ItemPrivate db organizationId r ∨
    (JoinGrant db organizationId r s ↔ LiveGrant db userId organizationId r)

/-- no document of the vault, created in the millisecond of the user's join, hangs on the join snapshot -/
def JoinMillisecondOk (db : Db) (userId vaultId : Id) : Prop :=
  ∀ organizationId ∈ db.organizationOf vaultId, personalVaultLevel db organizationId userId = none →
    ∀ s ∈ memberAccessSnapshot db organizationId userId, ∀ r ∈ db.liveDocs, r.vaultId = vaultId →
      InJoinMillisecond r s → SnapshotIdle db userId organizationId r s

/-- a person with a level of their own, or without a join snapshot, is answered alike -/
theorem readable_congr {f g : MemberAccessSnapshot → Bool} (h : personalVaultLevel db organizationId userId = none →
      ∀ s ∈ memberAccessSnapshot db organizationId userId, f s = g s) :
    Readable db userId organizationId r f ↔ Readable db userId organizationId r g := by
  unfold Readable
  cases hpersonal : personalVaultLevel db organizationId userId with
  | some personal => exact Iff.rfl
  | none =>
    have hfilter : (memberAccessSnapshot db organizationId userId).filter f =
        (memberAccessSnapshot db organizationId userId).filter g := by
      cases hs : memberAccessSnapshot db organizationId userId with
      | none => rfl
      | some s =>
        have hfg : f s = g s := h hpersonal s hs
        rw [Option.filter_some, Option.filter_some, hfg]
    rw [hfilter]

/-- in the millisecond of the join the two agree exactly when the snapshot decides nothing -/
theorem readable_joinMillisecond (h : WellFormed db) (hpersonal : personalVaultLevel db organizationId userId = none)
    (hs : memberAccessSnapshot db organizationId userId = some s) (hms : InJoinMillisecond r s) :
    (Readable db userId organizationId r (listAtJoin r) ↔ Readable db userId organizationId r (resolverAtJoin r)) ↔
      SnapshotIdle db userId organizationId r s := by
  have hcovered : resolverAtJoin r s = true := decide_eq_true hms.1.le
  have hnot : listAtJoin r s = false := by
    rw [← Bool.not_eq_true, listAtJoin_iff]
    exact fun hc => hc.2 hms
  have hmember := member_of_snapshot h hs
  have hset : (memberAccessSnapshot db organizationId userId).filter (listAtJoin r) = none := by simp [hs, hnot]
  have hone : (memberAccessSnapshot db organizationId userId).filter (resolverAtJoin r) = some s := by
    simp [hs, hcovered]
  unfold Readable SnapshotIdle
  rw [hpersonal, hset, hone]
  rw [and_iff_right hmember, and_iff_right hmember]
  by_cases hden : UserDenied db userId r
  · simp [hden]
  by_cases huser : DocUserGrant db userId r
  · simp [huser]
  by_cases hprivate : ItemPrivate db organizationId r
  · simp [huser, hprivate]
  · simp only [hden, huser, hprivate, not_false_eq_true, true_and, false_or]
    exact Iff.comm

/-! ## The set names live documents of the vault -/

def OfVault (db : Db) (vaultId id : Id) : Prop := ∃ r ∈ db.liveDocs, r.vaultId = vaultId ∧ r.id = id

theorem ofVault_of_mem_liveIds {noteWhere fileWhere : DocRow → Bool} {id : Id}
    (hid : id ∈ liveIds db vaultId noteWhere fileWhere) : OfVault db vaultId id := by
  obtain ⟨r, hr, rfl⟩ := mem_map.1 hid
  rcases mem_append.1 hr with hr | hr
  · obtain ⟨hnote, hq⟩ := mem_filter.1 hr
    obtain ⟨hv, hlive, -⟩ := of_decide_eq_true hq
    exact ⟨r, mem_liveDocs.2 (.inl ⟨hnote, hlive⟩), hv, rfl⟩
  · obtain ⟨hfile, hq⟩ := mem_filter.1 hr
    exact ⟨r, mem_liveDocs.2 (.inr hfile), (of_decide_eq_true hq).1, rfl⟩

theorem ofVault_of_mem_applySnapshot {reachable : List Id} (hreach : ∀ id ∈ reachable, OfVault db vaultId id)
    (snapshot : Option MemberAccessSnapshot) {id : Id}
    (hid : id ∈ applySnapshot db userId vaultId organizationId reachable snapshot) : OfVault db vaultId id := by
  cases snapshot with
  | none => exact hreach id hid
  | some s =>
    unfold applySnapshot at hid
    dsimp only at hid
    split_ifs at hid with hmode
    · rcases mem_append.1 hid with hid | hid
      · exact hreach id (mem_subtract.1 hid).1
      · exact ofVault_of_mem_liveIds hid
    · rcases mem_append.1 hid with hid | hid
      · exact hreach id hid
      · exact ofVault_of_mem_liveIds hid

theorem ofVault_of_mem_list {id : Id} (hid : id ∈ listReadableDocsInVault db userId vaultId) :
    OfVault db vaultId id := by
  unfold listReadableDocsInVault at hid
  cases haccess : vaultAccess db userId vaultId with
  | none =>
    rw [haccess] at hid
    cases hid
  | some access =>
    rw [haccess] at hid
    obtain ⟨hkept, -⟩ := mem_subtract.1 hid
    have hreach : ∀ id ∈ (if access.vaultWide = true then liveIds db vaultId (fun _ => true) (fun _ => true)
        else scopedDocs db userId vaultId access.organizationId access.role.isSome
          (access.personal ≠ some .denied)
          (¬ (access.personal ≠ none ∨ vaultBaseline db access.organizationId = some .sealed))),
        OfVault db vaultId id := by
      intro id hid
      split_ifs at hid with hwide <;> exact ofVault_of_mem_liveIds hid
    by_cases hdeny : deniedDocsInVault db (.org access.organizationId) vaultId ≠ []
    · rw [if_pos hdeny] at hkept
      exact ofVault_of_mem_applySnapshot hreach _ (mem_subtract.1 hkept).1
    · rw [if_neg hdeny] at hkept
      exact ofVault_of_mem_applySnapshot hreach _ hkept

/-! ## The two answers -/

/-- one document -/
theorem agrees_at_iff (h : WellFormed db) (hr : r ∈ db.liveDocs)
    (ho : db.organizationOf r.vaultId = some organizationId) :
    (r.id ∈ listReadableDocsInVault db userId r.vaultId ↔ effectivePermission db userId r.id ≠ .none) ↔
      (personalVaultLevel db organizationId userId = none → ∀ s ∈ memberAccessSnapshot db organizationId userId,
        InJoinMillisecond r s → SnapshotIdle db userId organizationId r s) := by
  rw [mem_list_iff h hr ho, readable_iff h hr ho]
  constructor
  · intro hagree hpersonal s hs hms
    exact (readable_joinMillisecond h hpersonal hs hms).1 hagree
  · intro hidle
    by_cases hms : personalVaultLevel db organizationId userId = none ∧
        ∃ s ∈ memberAccessSnapshot db organizationId userId, InJoinMillisecond r s
    · obtain ⟨hpersonal, s, hs, hin⟩ := hms
      exact (readable_joinMillisecond h hpersonal hs hin).2 (hidle hpersonal s hs hin)
    · refine readable_congr fun hpersonal s hs => ?_
      have hout : ¬ InJoinMillisecond r s := fun hin => hms ⟨hpersonal, s, hs, hin⟩
      rw [Bool.eq_iff_iff, listAtJoin_iff, and_iff_left hout]

/-- **The readable set of a vault** is the live documents the resolver grants, exactly when no document created in the
millisecond of the user's join hangs on the join snapshot. -/
theorem list_agrees_iff (h : WellFormed db) (userId vaultId : Id) :
    (∀ id, id ∈ listReadableDocsInVault db userId vaultId ↔
        ∃ r ∈ db.liveDocs, r.vaultId = vaultId ∧ r.id = id ∧ effectivePermission db userId id ≠ .none) ↔
      JoinMillisecondOk db userId vaultId := by
  constructor
  · rintro hagree organizationId ho hpersonal s hs r hr rfl hms
    have hone : r.id ∈ listReadableDocsInVault db userId r.vaultId ↔ effectivePermission db userId r.id ≠ .none := by
      rw [hagree r.id]
      exact ⟨fun ⟨_, _, _, _, heff⟩ => heff, fun heff => ⟨r, hr, rfl, rfl, heff⟩⟩
    exact (agrees_at_iff h hr ho).1 hone hpersonal s hs hms
  · intro hok id
    cases ho : db.organizationOf vaultId with
    | none =>
      have hempty : listReadableDocsInVault db userId vaultId = [] := by simp [listReadableDocsInVault, vaultAccess, ho]
      rw [hempty]
      refine iff_of_false (by simp) ?_
      rintro ⟨r, hr, rfl, rfl, heff⟩
      exact heff (by simp [effectivePermission, locateDoc_eq h hr, ho])
    | some organizationId =>
      have hone : ∀ r ∈ db.liveDocs, r.vaultId = vaultId →
          (r.id ∈ listReadableDocsInVault db userId vaultId ↔ effectivePermission db userId r.id ≠ .none) := by
        rintro r hr rfl
        exact (agrees_at_iff h hr ho).2 fun hpersonal s hs hms => hok organizationId ho hpersonal s hs r hr rfl hms
      constructor
      · intro hid
        obtain ⟨r, hr, hv, rfl⟩ := ofVault_of_mem_list hid
        exact ⟨r, hr, hv, rfl, (hone r hr hv).1 hid⟩
      · rintro ⟨r, hr, hv, rfl, heff⟩
        exact (hone r hr hv).2 heff

/-! ## A join and a note in one millisecond -/

/-- a vault shared with its organization for editing; user 2 joined privately at 5.000200 s -/
def joinRace : Db where
  vaults := [⟨1, 7⟩]
  folders := [⟨3, 1, none, some 1, 3000000⟩, ⟨4, 1, some 3, some 1, 3000000⟩]
  notes := [⟨10, 1, some 4, some 1, 4000000, false⟩, ⟨11, 1, some 4, some 1, 5000100, false⟩]
  files := []
  shares := [⟨.vault, 7, .org 7, .edit, 0⟩]
  members := [⟨7, 1, .owner⟩, ⟨7, 2, .member⟩]
  snapshots := [⟨7, 2, .privateMode, 0, 5000200⟩]
  lapsed := []

theorem wellFormed_joinRace : WellFormed joinRace where
  folderKey := by decide
  docKey := by decide
  shareKey := by decide
  tree := ⟨id, by decide⟩
  docFolder := by decide
  snapshotMember := by decide
  vaultRow := by simp [joinRace]

/-- the same vault, its second note written a second after the join -/
def joinCalm : Db :=
  { joinRace with
    notes := [⟨10, 1, some 4, some 1, 4000000, false⟩, ⟨11, 1, some 4, some 1, 6000100, false⟩] }

theorem wellFormed_joinCalm : WellFormed joinCalm where
  folderKey := by decide
  docKey := by decide
  shareKey := by decide
  tree := ⟨id, by decide⟩
  docFolder := by decide
  snapshotMember := by decide
  vaultRow := by simp [joinCalm, joinRace]

/-- with no note in the millisecond of the join, the set and the resolver agree for user 2 -/
theorem list_agrees_joinCalm : WellFormed joinCalm ∧ ∀ id, id ∈ listReadableDocsInVault joinCalm 2 1 ↔
    ∃ r ∈ joinCalm.liveDocs, r.vaultId = 1 ∧ r.id = id ∧ effectivePermission joinCalm 2 id ≠ .none := by
  refine ⟨wellFormed_joinCalm, (list_agrees_iff wellFormed_joinCalm 2 1).2 ?_⟩
  intro organizationId ho _ s hs r hr _ hms
  obtain rfl : 7 = organizationId := by simpa [joinCalm, joinRace, Db.organizationOf] using ho
  obtain rfl : ⟨.privateMode, 0, 5000⟩ = s := by
    simpa [joinCalm, joinRace, memberAccessSnapshot, toDate] using hs
  have hcalm : ∀ r ∈ joinCalm.liveDocs, toDate r.createdAt ≠ 5000 := by decide
  exact absurd hms.1 (hcalm r hr)

/-- the note of 5.000100 s was there when user 2 joined; the set shows it, the resolver refuses it -/
theorem set_shows_refused_note : WellFormed joinRace ∧ ¬ (∀ id, id ∈ listReadableDocsInVault joinRace 2 1 ↔
    ∃ r ∈ joinRace.liveDocs, r.vaultId = 1 ∧ r.id = id ∧ effectivePermission joinRace 2 id ≠ .none) := by
  refine ⟨wellFormed_joinRace, fun hagree => ?_⟩
  have hset : 11 ∈ listReadableDocsInVault joinRace 2 1 := by decide
  have hone : effectivePermission joinRace 2 11 = .none := by decide
  obtain ⟨_, _, _, _, heff⟩ := (hagree 11).1 hset
  exact heff hone

end Baalda.Access
