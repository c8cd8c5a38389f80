/-
`loadDocDiff`: what a client is sent when it presents a state vector.

Four paths answer: the cached vector, the vector in the snapshot row when the log is empty, and the full merge, whose
vector either is covered or yields a diff; a client without a vector gets the merge. The vectors travel as bytes, so the
definitions take a codec; `loadDocDiff_eq` removes it and says that each path is the same comparison with a different
vector (`consulted`).

`covered` is the verdict `ready.covered` carries to the client, `covered_sound` what it means.
-/
import Baalda.Server.VectorCache

namespace Baalda.DocStore

open Crdt Crdt.Update Crdt.StateVector Option

/-! ## Comparing vectors as bytes -/

structure Comparison where
  serverCovered : Bool
  clientAhead : Bool
deriving DecidableEq

structure DocDiff (B : Type*) where
  update : Update
  serverStateVector : B
  upToDate : Bool
  clientAhead : Bool
deriving DecidableEq

inductive LoadError where
  | undecodableVector
deriving DecidableEq

section

variable {B : Type*} [DecidableEq B] (codec : VectorCodec B)

/-- a vector that does not decode is unknown: not covered, not ahead -/
def compareStateVectors (client server : B) : Comparison :=
  match codec.decode client, codec.decode server with
  | some c, some s => ⟨decide (Covers c s), decide (¬ Covers s c)⟩
  | _, _ => ⟨false, false⟩

/-- equal bytes are not decoded -/
def judge (client server : B) : Comparison :=
  if client = server then ⟨true, false⟩ else compareStateVectors codec client server

/-- nothing to send when the client covers `server` -/
def coveredAnswer (client server : B) : Option (DocDiff B) :=
  if (judge codec client server).serverCovered then some ⟨⊥, server, true, (judge codec client server).clientAhead⟩
  else none

def cachedAnswer (d : Db) (client : B) : Option (DocDiff B) :=
  (currentStateVector d).bind fun v => coveredAnswer codec client (codec.encode v)

/-- the vector of the snapshot row, usable when nothing is in the log on top of it -/
def probeVector (d : Db) : Option StateVector := if d.log = [] then d.snapshot.bind SnapshotRow.stateVector else none

def probeAnswer (d : Db) (client : B) : Option (DocDiff B) :=
  (probeVector d).bind fun v => coveredAnswer codec client (codec.encode v)

/-- the full merge; `Y.diffUpdate` throws on a vector that does not decode -/
def mergedAnswer (d : Db) (client : Option B) : Except LoadError (DocDiff B) :=
  match client with
  | none => .ok ⟨d.stored, codec.encode (stateVector d.stored), false, false⟩
  | some c =>
    match coveredAnswer codec c (codec.encode (stateVector d.stored)) with
    | some r => .ok r
    | none =>
      match codec.decode c with
      | none => .error .undecodableVector
      | some v => .ok ⟨diff d.stored v, codec.encode (stateVector d.stored), false,
          (judge codec c (codec.encode (stateVector d.stored))).clientAhead⟩

def loadDocDiff (d : Db) (client : Option B) : Except LoadError (Option (DocDiff B)) :=
  match client.bind (cachedAnswer codec d) with
  | some r => .ok (some r)
  | none =>
    if d.snapshot = none ∧ d.log = [] then .ok none
    else
      match client.bind (probeAnswer codec d) with
      | some r => .ok (some r)
      | none => (mergedAnswer codec d client).map some

/-! ## Without the codec -/

/-- the vectors a request may be compared with, in order -/
def consulted (d : Db) : List StateVector :=
  (currentStateVector d).toList ++ (probeVector d).toList ++ [stateVector d.stored]

/-- on encoded vectors the byte comparison and the decoded one agree -/
theorem judge_encode (v w : StateVector) :
    judge codec (codec.encode v) (codec.encode w) = ⟨decide (Covers v w), decide (¬ Covers w v)⟩ := by
  unfold judge
  split_ifs with h
  · obtain rfl := codec.encode_injective h
    simp [covers_refl]
  · simp [compareStateVectors, codec.decode_encode]

theorem coveredAnswer_encode (v w : StateVector) :
    coveredAnswer codec (codec.encode v) (codec.encode w) =
      if Covers v w then some ⟨⊥, codec.encode w, true, decide (¬ Covers w v)⟩ else none := by
  simp [coveredAnswer, judge_encode]

variable {v w : StateVector} {r : DocDiff B}

theorem coveredAnswer_isSome (h : coveredAnswer codec (codec.encode v) (codec.encode w) = some r) :
    Covers v w ∧ r.upToDate = true ∧ r.update = ⊥ := by
  rw [coveredAnswer_encode] at h
  split_ifs at h with hc
  · cases h
    exact ⟨hc, rfl, rfl⟩

theorem coveredAnswer_eq_none (h : coveredAnswer codec (codec.encode v) (codec.encode w) = none) : ¬ Covers v w := by
  rw [coveredAnswer_encode] at h
  split_ifs at h with hc
  exact hc

variable {o : Option StateVector}

theorem bind_coveredAnswer_eq_none
    (h : (o.bind fun w => coveredAnswer codec (codec.encode v) (codec.encode w)) = none) : ∀ w ∈ o, ¬ Covers v w := by
  intro w hw
  rw [show o = some w from hw] at h
  exact coveredAnswer_eq_none codec h

theorem bind_coveredAnswer_eq_some
    (h : (o.bind fun w => coveredAnswer codec (codec.encode v) (codec.encode w)) = some r) :
    (∃ w ∈ o, Covers v w) ∧ r.upToDate = true ∧ r.update = ⊥ := by
  obtain ⟨w, hw, hr⟩ := bind_eq_some_iff.1 h
  obtain ⟨hc, hup, hu⟩ := coveredAnswer_isSome codec hr
  exact ⟨⟨w, hw, hc⟩, hup, hu⟩

/-- **The four paths.** A request with vector `v` is answered with nothing stored, as up to date because `v` covers a
consulted vector, or, when it covers none, with the diff against `v`. -/
theorem loadDocDiff_eq (d : Db) (v : StateVector) :
    (d.stored = ⊥ ∧ loadDocDiff codec d (some (codec.encode v)) = .ok none) ∨
      ∃ r, loadDocDiff codec d (some (codec.encode v)) = .ok (some r) ∧
        ((r.upToDate = true ∧ r.update = ⊥ ∧ ∃ w ∈ consulted d, Covers v w) ∨
          (r.upToDate = false ∧ r.update = diff d.stored v ∧ ∀ w ∈ consulted d, ¬ Covers v w)) := by
  unfold loadDocDiff
  cases hcached : (some (codec.encode v)).bind (cachedAnswer codec d) with
  | some r =>
    obtain ⟨⟨w, hw, hc⟩, hup, hu⟩ := bind_coveredAnswer_eq_some codec hcached
    exact .inr ⟨r, rfl, .inl ⟨hup, hu, w, by simp [consulted, mem_def.1 hw], hc⟩⟩
  | none =>
    have hncached := bind_coveredAnswer_eq_none codec hcached
    by_cases hempty : d.snapshot = none ∧ d.log = []
    · refine .inl ⟨?_, by simp [hempty]⟩
      simp [Db.stored, mergeParts, hempty.1, hempty.2, updates]
    · simp only [hempty, if_false]
      cases hprobe : (some (codec.encode v)).bind (probeAnswer codec d) with
      | some r =>
        obtain ⟨⟨w, hw, hc⟩, hup, hu⟩ := bind_coveredAnswer_eq_some codec hprobe
        exact .inr ⟨r, rfl, .inl ⟨hup, hu, w, by simp [consulted, mem_def.1 hw], hc⟩⟩
      | none =>
        have hnprobe := bind_coveredAnswer_eq_none codec hprobe
        simp only [mergedAnswer]
        cases hmerged : coveredAnswer codec (codec.encode v) (codec.encode (stateVector d.stored)) with
        | some r =>
          obtain ⟨hc, hup, hu⟩ := coveredAnswer_isSome codec hmerged
          exact .inr ⟨r, rfl, .inl ⟨hup, hu, _, by simp [consulted], hc⟩⟩
        | none =>
          have hnmerged := coveredAnswer_eq_none codec hmerged
          rw [codec.decode_encode]
          refine .inr ⟨_, rfl, .inr ⟨rfl, rfl, fun w hw => ?_⟩⟩
          simp only [consulted, List.mem_append, mem_toList, List.mem_singleton] at hw
          rcases hw with (hw | hw) | rfl
          · exact hncached w hw
          · exact hnprobe w hw
          · exact hnmerged

/-! ## The server's verdict on a client's vector -/

/-- the document is named in `ready.covered`: something is stored and the client is not ahead of it -/
def covered : Except LoadError (Option (DocDiff B)) → Bool
  | .ok (some r) => !r.clientAhead
  | _ => false

/-- bytes that are not ahead of an encoded vector decode to a vector it covers -/
theorem judge_not_ahead {b : B} (hb : codec.decode b ≠ none)
    (h : (judge codec b (codec.encode w)).clientAhead = false) : ∃ v, codec.decode b = some v ∧ Covers w v := by
  obtain ⟨v, hv⟩ := ne_none_iff_exists'.1 hb
  refine ⟨v, hv, ?_⟩
  unfold judge at h
  split_ifs at h with he
  · rw [he, codec.decode_encode] at hv
    cases hv
    exact covers_refl w
  · simpa [compareStateVectors, hv, codec.decode_encode] using h

/-- bytes the server counts as covered decode -/
theorem decode_of_coveredAnswer {b : B} (h : coveredAnswer codec b (codec.encode w) = some r) :
    codec.decode b ≠ none ∧ r.clientAhead = (judge codec b (codec.encode w)).clientAhead := by
  unfold coveredAnswer at h
  split_ifs at h with hc
  cases h
  refine ⟨fun hn => ?_, rfl⟩
  unfold judge at hc
  split_ifs at hc with he
  · rw [he, codec.decode_encode] at hn
    cases hn
  · simp [compareStateVectors, hn] at hc

theorem bind_covered_sound {b : B} (h : (o.bind fun w => coveredAnswer codec b (codec.encode w)) = some r)
    (ha : r.clientAhead = false) : ∃ w ∈ o, ∃ v, codec.decode b = some v ∧ Covers w v := by
  obtain ⟨w, hw, hr⟩ := bind_eq_some_iff.1 h
  obtain ⟨hb, hj⟩ := decode_of_coveredAnswer codec hr
  exact ⟨w, hw, judge_not_ahead codec hb (hj ▸ ha)⟩

/-- **A verdict is about a vector.** Bytes the server names as covered decode, to a vector that a consulted one covers;
bytes that do not decode are never covered. -/
theorem covered_sound {d : Db} {b : B} (h : covered (loadDocDiff codec d (some b)) = true) :
    ∃ w ∈ consulted d, ∃ v, codec.decode b = some v ∧ Covers w v := by
  unfold loadDocDiff at h
  cases hcached : (some b).bind (cachedAnswer codec d) with
  | some r =>
    simp only [hcached, covered, Bool.not_eq_true'] at h
    obtain ⟨w, hw, hv⟩ := bind_covered_sound codec hcached h
    exact ⟨w, by simp [consulted, mem_def.1 hw], hv⟩
  | none =>
    simp only [hcached] at h
    by_cases hempty : d.snapshot = none ∧ d.log = []
    · simp [hempty, covered] at h
    · simp only [hempty, if_false] at h
      cases hprobe : (some b).bind (probeAnswer codec d) with
      | some r =>
        simp only [hprobe, covered, Bool.not_eq_true'] at h
        obtain ⟨w, hw, hv⟩ := bind_covered_sound codec hprobe h
        exact ⟨w, by simp [consulted, mem_def.1 hw], hv⟩
      | none =>
        simp only [hprobe, mergedAnswer] at h
        refine ⟨stateVector d.stored, by simp [consulted], ?_⟩
        cases hmerged : coveredAnswer codec b (codec.encode (stateVector d.stored)) with
        | some r =>
          simp only [hmerged, Except.map, covered, Bool.not_eq_true'] at h
          obtain ⟨hb, hj⟩ := decode_of_coveredAnswer codec hmerged
          exact judge_not_ahead codec hb (hj ▸ h)
        | none =>
          cases hdec : codec.decode b with
          | none => simp [hmerged, hdec, Except.map, covered] at h
          | some v =>
            simp only [hmerged, hdec, Except.map, covered, Bool.not_eq_true'] at h
            rw [← hdec]
            exact judge_not_ahead codec (by simp [hdec]) h

/-! ## Completeness -/

/-- an answer that leaves nothing out: `upToDate` when the client has everything, else an update that brings it to the
merge with the stored document -/
def Complete (stored client : Update) : Except LoadError (Option (DocDiff B)) → Prop
  | .error _ => False
  | .ok none => stored ≤ client
  | .ok (some r) => if r.upToDate then stored ≤ client else client ⊔ r.update = client ⊔ stored

instance (stored client : Update) (r : Except LoadError (Option (DocDiff B))) :
    Decidable (Complete stored client r) := by
  unfold Complete; split <;> infer_instance

/-- the client's state after the answer -/
def afterBackfill (client : Update) : Except LoadError (Option (DocDiff B)) → Update
  | .ok (some r) => client ⊔ r.update
  | _ => client

/-- the cached vector, when current, and the snapshot row's are those of what they describe -/
structure Consistent (d : Db) : Prop where
  cache : CacheExact d
  snapshot : ∀ row ∈ d.snapshot, ∀ v ∈ row.stateVector, v = stateVector row.snapshot

theorem Consistent.consulted {d : Db} (h : Consistent d) (hw : w ∈ consulted d) : w = stateVector d.stored := by
  simp only [DocStore.consulted, List.mem_append, mem_toList, List.mem_singleton] at hw
  rcases hw with (hw | hw) | rfl
  · exact h.cache w hw
  · unfold probeVector at hw
    split_ifs at hw with hlog
    · obtain ⟨row, hrow, hv⟩ := bind_eq_some_iff.1 hw
      rw [h.snapshot row hrow w hv]
      simp [Db.stored, mergeParts, hrow, hlog, updates]
  · rfl

instance (d : Db) : Decidable (Consistent d) :=
  decidable_of_iff (CacheExact d ∧ ∀ row ∈ d.snapshot, ∀ v ∈ row.stateVector, v = stateVector row.snapshot)
    ⟨fun h => ⟨h.1, h.2⟩, fun h => ⟨h.1, h.2⟩⟩

theorem complete_iff_consulted (d : Db) (client : Update) :
    Complete d.stored client (loadDocDiff codec d (some (codec.encode (stateVector client)))) ↔
      ((∃ w ∈ consulted d, Covers (stateVector client) w) → d.stored ≤ client) := by
  rcases loadDocDiff_eq codec d (stateVector client) with ⟨hbot, hr⟩ | ⟨r, hr, ⟨hup, -, hw⟩ | ⟨hup, hu, hnone⟩⟩
  · rw [hr]
    simp [Complete, hbot]
  · rw [hr]
    simp only [Complete, hup, if_true]
    exact ⟨fun h _ => h, fun h => h hw⟩
  · rw [hr]
    simp only [Complete, hup, Bool.false_eq_true, if_false, hu]
    exact ⟨fun _ ⟨w, hw, hc⟩ => absurd hc (hnone w hw), fun _ => sup_diff _ _⟩

/-- a client that reaches the server's clocks has the server's deletions and what the server holds behind a gap -/
def NothingUncounted (stored client : Update) : Prop :=
  Covers (stateVector client) (stateVector stored) → parked stored ⊆ client.structs ∧ stored.deletes ⊆ client.deletes

theorem complete_iff_uncounted {d : Db} (hd : Consistent d) (client : Update) :
    Complete d.stored client (loadDocDiff codec d (some (codec.encode (stateVector client)))) ↔
      NothingUncounted d.stored client := by
  rw [complete_iff_consulted]
  constructor
  · intro h hc
    exact (le_iff_of_covers hc).1 (h ⟨stateVector d.stored, by simp [consulted], hc⟩)
  · rintro h ⟨w, hw, hc⟩
    rw [hd.consulted hw] at hc
    exact (le_iff_of_covers hc).2 (h hc)

theorem afterBackfill_of_complete {d : Db} {client : Update} (hle : client ≤ d.stored)
    (h : Complete d.stored client (loadDocDiff codec d (some (codec.encode (stateVector client))))) :
    afterBackfill client (loadDocDiff codec d (some (codec.encode (stateVector client)))) = d.stored := by
  rcases loadDocDiff_eq codec d (stateVector client) with ⟨-, hr⟩ | ⟨r, hr, ⟨hup, hu, -⟩ | ⟨hup, -, -⟩⟩
  · rw [hr] at h ⊢
    exact le_antisymm hle h
  · rw [hr] at h ⊢
    simp only [Complete, hup, if_true] at h
    simp only [afterBackfill, hu, sup_bot_eq]
    exact le_antisymm hle h
  · rw [hr] at h ⊢
    simp only [Complete, hup, Bool.false_eq_true, if_false] at h
    rw [afterBackfill, h]
    exact sup_eq_right.2 hle

/-- **When a backfill is complete.** In general: exactly when the client covers no consulted vector or has the stored
document already. Over exact vectors: exactly when reaching the server's clocks means having its deletions and its
parked structs, and then two devices with no work of their own hold the same state afterwards. -/
theorem backfill_complete_iff (d : Db) (client : Update) :
    (Complete d.stored client (loadDocDiff codec d (some (codec.encode (stateVector client)))) ↔
        ((∃ w ∈ consulted d, Covers (stateVector client) w) → d.stored ≤ client)) ∧
      (Consistent d →
        (Complete d.stored client (loadDocDiff codec d (some (codec.encode (stateVector client)))) ↔
            NothingUncounted d.stored client) ∧
          ∀ other, client ≤ d.stored → other ≤ d.stored → NothingUncounted d.stored client →
            NothingUncounted d.stored other →
              afterBackfill client (loadDocDiff codec d (some (codec.encode (stateVector client)))) =
                afterBackfill other (loadDocDiff codec d (some (codec.encode (stateVector other))))) := by
  refine ⟨complete_iff_consulted codec d client, fun hd => ⟨complete_iff_uncounted codec hd client, ?_⟩⟩
  intro other hle hle' hn hn'
  have hself := afterBackfill_of_complete codec hle ((complete_iff_uncounted codec hd client).2 hn)
  have hother := afterBackfill_of_complete codec hle' ((complete_iff_uncounted codec hd other).2 hn')
  rw [hself, hother]

end

/-! ## The store's vectors -/

/-- every snapshot row written carries the vector of its snapshot -/
def SnapshotVectorOk (s : St) : Prop :=
  (∀ row ∈ s.db.snapshot, row.stateVector = some (stateVector row.snapshot)) ∧
    match s.compaction with
    | some (.upserted row _ _ _ _) | some (.deleted row _ _) | some (.invalidated row _ _ _) =>
      row.stateVector = some (stateVector row.snapshot)
    | _ => True

theorem snapshotVectorOk_step {s : St} {a : Action} (h : SnapshotVectorOk s) : SnapshotVectorOk (step s a) := by
  obtain ⟨hs, hc⟩ := h
  refine step_preserves SnapshotVectorOk ⟨hs, hc⟩ fun t ht => ?_
  cases ht with
  | compactLock _ | compactReadSnapshot _ | compactReadLog _ | compactEnd => exact ⟨hs, trivial⟩
  | compactUpsert _ _ => exact ⟨hs, rfl⟩
  | compactInsertLegacy he | compactDelete he | compactInvalidate ok he => rw [he] at hc; exact ⟨hs, hc⟩
  | compactCommit he =>
    rw [he] at hc
    refine ⟨fun row hrow => ?_, trivial⟩
    cases hrow
    exact hc
  | resetUpsert _ _ _ =>
    refine ⟨fun row hrow => ?_, hc⟩
    cases hrow
    rfl
  | resetRemember ok _ _ => cases ok <;> exact ⟨hs, hc⟩
  | _ => exact ⟨hs, hc⟩

/-- **The store is consistent**, along every run that holds the watermarks. -/
theorem consistent_run (keyed : Bool) (as : List Action) (h : Machine.Guarded step CacheOk (init keyed) as) :
    Consistent (run (init keyed) as).db := by
  have hsv : SnapshotVectorOk (run (init keyed) as) :=
    Machine.run_inv_all SnapshotVectorOk (fun _ _ => snapshotVectorOk_step) ⟨by simp [init], trivial⟩
  refine ⟨(cacheInv_run keyed h).exact, fun row hrow v hv => ?_⟩
  rw [hsv.1 row hrow] at hv
  exact (some.inj hv).symm

/-- client 1's first struct, and its deletion -/
def deletedEdit : Update := ⟨∅, {⟨1, 0⟩}⟩

/-- the insertion and the deletion, two rows of the log -/
def deletionRun : List Action :=
  [.appendStart firstEdit, .appendCommit 1, .appendStart deletedEdit, .appendCommit 2]

theorem backfill_to_empty_client :
    (NothingUncounted (run (init false) deletionRun).db.stored ⊥ ∧
      Complete (run (init false) deletionRun).db.stored ⊥
        (loadDocDiff plainCodec (run (init false) deletionRun).db (some (stateVector ⊥)))) := by
  have hd : Consistent (run (init false) deletionRun).db := consistent_run false deletionRun (by decide)
  have hn : NothingUncounted (run (init false) deletionRun).db.stored ⊥ := by
    unfold NothingUncounted; decide
  exact ⟨hn, ((backfill_complete_iff plainCodec (run (init false) deletionRun).db ⊥).2 hd).1.2 hn⟩

/-- **The deletion is not sent.** The client has the insertion but not its deletion, the vectors are equal, and the
answer is `upToDate`. -/
theorem deletion_not_backfilled :
    ¬ Complete (run (init false) deletionRun).db.stored firstEdit
      (loadDocDiff plainCodec (run (init false) deletionRun).db (some (stateVector firstEdit))) := by decide

end Baalda.DocStore
