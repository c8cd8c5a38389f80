/-
The cached state vector (`doc_state_vectors`): when `currentStateVector` may be believed.

A cached row is validated by its watermark alone: it counts as current when `upto_update_id` is the log's max id. The
invariant carries every row that is cached or that a reader in progress may still cache (`vectorRows`): a row whose
watermark is current describes the stored document (`Fresh`). `IdsOk` is the accounting it needs: a watermark is a
number that has been handed out and is not in flight, so no commit to come makes it the log's max.

`WatermarksHold` lists what an interleaving must not do, each for a reason the watermark cannot show:
- commit an append below a current watermark;
- commit a compaction, or a reset's DELETE, after which a watermark is current that was not before;
- replace the snapshot under a current watermark (a reset, before it has rewritten the cached row);
- rewrite, for a reset, the cached row of an empty log when the snapshot is no longer the reset's.
-/
import Baalda.Lib.Slots
import Baalda.Server.Compaction

namespace Baalda.DocStore

open Crdt Crdt.Update Crdt.StateVector List

/-! ## Numbers -/

/-- `k` has been handed out, and not to an append in flight -/
def Taken (s : St) (k : ℕ) : Prop := k < s.nextId ∧ ∀ r ∈ s.inflight, r.id ≠ k

/-- the rows that are cached or that a reader in progress may still cache -/
def vectorRows (s : St) : List VectorRow := s.db.vector.toList ++ s.readers.map readerRow

/-- the dual row a conversion has inserted and not committed -/
def legacyRow : Option Compaction → Option UpdateRow
  | some (.upserted _ _ _ _ legacy) | some (.deleted _ legacy _) | some (.invalidated _ legacy _ _) => legacy
  | _ => none

structure IdsOk (s : St) : Prop where
  flight : ∀ r ∈ s.inflight, r.id < s.nextId
  log : ∀ r ∈ s.db.log, Taken s r.id
  legacy : ∀ r ∈ legacyRow s.compaction, Taken s r.id
  marks : ∀ v ∈ vectorRows s, ∀ k ∈ v.uptoUpdateId, Taken s k

variable {s : St}

theorem Taken.mono {t : St} {k : ℕ} (h : Taken s k) (hn : s.nextId ≤ t.nextId)
    (hf : ∀ r ∈ t.inflight, r ∈ s.inflight ∨ s.nextId ≤ r.id) : Taken t k := by
  refine ⟨h.1.trans_le hn, fun r hr => ?_⟩
  rcases hf r hr with hr | hr
  · exact h.2 r hr
  · have := h.1; omega

/-- new numbers and finished appends: the rows are the same, or fewer -/
theorem IdsOk.mono {t : St} (h : IdsOk s) (hn : s.nextId ≤ t.nextId)
    (hf : ∀ r ∈ t.inflight, r ∈ s.inflight ∨ (s.nextId ≤ r.id ∧ r.id < t.nextId)) (hl : ∀ r ∈ t.db.log, r ∈ s.db.log)
    (hg : ∀ r ∈ legacyRow t.compaction, r ∈ legacyRow s.compaction)
    (hm : ∀ v ∈ vectorRows t, v ∈ vectorRows s ∨ v.uptoUpdateId = none) : IdsOk t := by
  have hmono : ∀ k, Taken s k → Taken t k := fun k hk =>
    hk.mono hn fun r hr => (hf r hr).imp_right And.left
  refine ⟨fun r hr => ?_, fun r hr => hmono _ (h.log r (hl r hr)), fun r hr => hmono _ (h.legacy r (hg r hr)),
    fun v hv k hk => ?_⟩
  · rcases hf r hr with hr | hr
    · exact (h.flight r hr).trans_le hn
    · exact hr.2
  · rcases hm v hv with hv | hv
    · exact hmono k (h.marks v hv k hk)
    · rw [hv] at hk; cases hk

theorem exists_id_eq_maxId {rows : List UpdateRow} (h : rows ≠ []) : ∃ r ∈ rows, r.id = maxId rows := by
  induction rows with
  | nil => exact absurd rfl h
  | cons r rows ih =>
    by_cases hle : maxId rows ≤ r.id
    · exact ⟨r, by simp, (max_eq_left hle).symm⟩
    · have hne : rows ≠ [] := by
        rintro rfl
        exact hle (Nat.zero_le _)
      obtain ⟨x, hx, hxe⟩ := ih hne
      exact ⟨x, .tail _ hx, hxe.trans (max_eq_right (not_le.1 hle).le).symm⟩

/-- the watermark a reader takes is the id of a row it read -/
theorem exists_of_mem_maxUpdateId {rows : List UpdateRow} {k : ℕ} (h : k ∈ maxUpdateId rows) :
    ∃ r ∈ rows, r.id = k := by
  have hne : rows ≠ [] := by
    rintro rfl
    simp [maxUpdateId] at h
  rw [maxUpdateId_eq_some hne] at h
  obtain ⟨r, hr, he⟩ := exists_id_eq_maxId hne
  exact ⟨r, hr, he.trans (Option.some.inj h)⟩

/-! ## The rows of the readers -/

theorem map_readerRow_lock {l : List Reader} {i : ℕ} {r : Reader} (hr : l[i]? = some r) :
    (l.set i { r with locked := true }).map readerRow = l.map readerRow := by
  rw [map_set]
  apply ext_getElem?
  intro j
  rw [getElem?_set]
  split_ifs with hij hlt
  · subst hij
    simp [hr, readerRow]
  · subst hij
    exact (getElem?_eq_none (by simpa using hlt)).symm
  · rfl

theorem readerRow_mem {i : ℕ} {r : Reader} (hr : s.readers[i]? = some r) : readerRow r ∈ vectorRows s :=
  mem_append_right _ (mem_map_of_mem (mem_of_getElem? hr))

variable {v : VectorRow}

theorem mem_vectorRows_erase {i : ℕ} (h : v ∈ (s.readers.eraseIdx i).map readerRow) : v ∈ vectorRows s := by
  obtain ⟨r, hr, rfl⟩ := mem_map.1 h
  exact mem_append_right _ (mem_map_of_mem ((eraseIdx_sublist _ _).subset hr))

theorem mem_vectorRows_readers (h : v ∈ s.readers.map readerRow) : v ∈ vectorRows s :=
  mem_append_right _ h

/-- a compaction's commit leaves the cached row, or drops it -/
theorem mem_vectorRows_commit {row : SnapshotRow} {legacy : Option UpdateRow} {dels : List UpdateRow} {inval : Bool}
    (h : v ∈ vectorRows { s with db := commitDb s.db row legacy dels inval, compaction := none }) :
    v ∈ vectorRows s := by
  rcases mem_append.1 h with h | h
  · cases inval with
    | true => simp [commitDb] at h
    | false => exact mem_append_left _ h
  · exact mem_vectorRows_readers h

theorem idsOk_init (keyed : Bool) : IdsOk (init keyed) := by
  constructor <;> simp [init, legacyRow, vectorRows]

/-- **Step.** Every number in the tables has been handed out and is not in flight. -/
theorem idsOk_step {a : Action} (h : IdsOk s) : IdsOk (step s a) := by
  refine step_preserves IdsOk h fun t ht => ?_
  cases ht with
  | otherInsert => exact h.mono (Nat.le_succ _) (fun r hr => Or.inl hr) (fun r hr => hr) (fun r hr => hr) fun v => Or.inl
  | appendStart u =>
    refine h.mono (Nat.le_succ _) (fun r hr => ?_) (fun r hr => hr) (fun r hr => hr) fun v => .inl
    rcases mem_cons.1 hr with rfl | hr
    · exact .inr ⟨le_rfl, Nat.lt_succ_self _⟩
    · exact .inl hr
  | @appendCommit r hm =>
    have hsub : ∀ k, Taken s k → k < s.nextId ∧ ∀ x ∈ s.inflight.filter (fun x => x.id ≠ r.id), x.id ≠ k :=
      fun k hk => ⟨hk.1, fun x hx => hk.2 x (mem_filter.1 hx).1⟩
    refine ⟨fun x hx => h.flight x (mem_filter.1 hx).1, fun x hx => ?_, fun x hx => hsub _ (h.legacy x hx),
      fun v hv k hk => hsub k (h.marks v hv k hk)⟩
    rcases mem_snoc.1 hx with hx | rfl
    · exact hsub _ (h.log x hx)
    · exact ⟨h.flight _ hm, fun y hy => by simpa using (mem_filter.1 hy).2⟩
  | appendAbort id =>
    exact h.mono le_rfl (fun r hr => .inl (mem_filter.1 hr).1) (fun r hr => hr) (fun r hr => hr) fun v => .inl
  | compactLock _ | compactReadSnapshot _ | compactReadLog _ | compactEnd | compactUpsert _ _ =>
    exact h.mono le_rfl (fun r hr => .inl hr) (fun r hr => hr) (fun r hr => by simp [legacyRow] at hr) fun v => .inl
  | compactInsertLegacy _ =>
    have hmono : ∀ k, Taken s k → k < s.nextId + 1 ∧ ∀ x ∈ s.inflight, x.id ≠ k :=
      fun k hk => ⟨hk.1.trans (Nat.lt_succ_self _), hk.2⟩
    refine ⟨fun x hx => (h.flight x hx).trans (Nat.lt_succ_self _), fun x hx => hmono _ (h.log x hx), fun x hx => ?_,
      fun v hv k hk => hmono k (h.marks v hv k hk)⟩
    cases hx
    exact ⟨Nat.lt_succ_self _, fun y hy => (h.flight y hy).ne⟩
  | compactDelete hc | compactInvalidate ok hc =>
    exact h.mono le_rfl (fun r hr => .inl hr) (fun r hr => hr) (fun r hr => by rw [hc]; exact hr) fun v => .inl
  | @compactCommit row legacy dels inval hc =>
    refine ⟨h.flight, fun r hr => ?_, fun r hr => by simp [legacyRow] at hr,
      fun v hv => h.marks v (mem_vectorRows_commit hv)⟩
    rcases mem_commitDb_log.1 hr with ⟨hr, -⟩ | hr
    · exact h.log r hr
    · exact h.legacy r (by rw [hc]; exact hr)
  | readerBegin =>
    refine ⟨h.flight, h.log, h.legacy, fun v hv k hk => ?_⟩
    simp only [vectorRows, map_append, map_cons, map_nil, mem_append, mem_singleton] at hv
    rcases hv with hv | hv | rfl
    · exact h.marks v (mem_append_left _ hv) k hk
    · exact h.marks v (mem_vectorRows_readers hv) k hk
    · obtain ⟨r, hr, rfl⟩ := exists_of_mem_maxUpdateId hk
      exact h.log r hr
  | readerLock hr =>
    refine ⟨h.flight, h.log, h.legacy, fun v hv => ?_⟩
    simp only [vectorRows, map_readerRow_lock hr] at hv
    exact h.marks v hv
  | readerCache hr _ =>
    refine ⟨h.flight, h.log, h.legacy, fun v hv => ?_⟩
    rcases mem_append.1 hv with hv | hv
    · obtain rfl := mem_singleton.1 hv
      exact h.marks _ (readerRow_mem hr)
    · exact h.marks v (mem_vectorRows_erase hv)
  | readerFinish _ hr =>
    refine ⟨h.flight, h.log, h.legacy, fun v hv => ?_⟩
    rcases mem_append.1 hv with hv | hv
    · exact h.marks v (mem_append_left _ hv)
    · exact h.marks v (mem_vectorRows_erase hv)
  | resetBegin seed _ | resetUpsert _ _ _ => exact ⟨h.flight, h.log, h.legacy, h.marks⟩
  | resetDelete _ _ =>
    exact h.mono le_rfl (fun r hr => .inl hr) (fun r hr => (mem_filter.1 hr).1) (fun r hr => hr) fun v => .inl
  | resetRemember ok _ _ =>
    cases ok with
    | false => exact ⟨h.flight, h.log, h.legacy, h.marks⟩
    | true =>
      refine h.mono le_rfl (fun r hr => .inl hr) (fun r hr => hr) (fun r hr => hr) fun v hv => ?_
      rcases mem_append.1 hv with hv | hv
      · obtain rfl := mem_singleton.1 hv
        exact .inr rfl
      · exact .inl (mem_vectorRows_readers hv)

/-! ## Current rows describe the stored document -/

/-- the freshness test of `currentStateVector` -/
def Current (d : Db) (v : VectorRow) : Prop := v.uptoUpdateId = maxUpdateId d.log

instance (d : Db) (v : VectorRow) : Decidable (Current d v) := inferInstanceAs (Decidable (_ = _))

def Fresh (d : Db) (v : VectorRow) : Prop := Current d v → v.stateVector = stateVector d.stored

/-- what an interleaving must not do to the watermarks -/
def WatermarksHold (s : St) : Action → Prop
  | .appendCommit id => ∀ v ∈ vectorRows s, Current s.db v → maxId s.db.log < id
  | .compactCommit =>
    match s.compaction with
    | some (.invalidated row legacy dels inval) =>
      ∀ v ∈ vectorRows { s with db := commitDb s.db row legacy dels inval },
        Current (commitDb s.db row legacy dels inval) v → Current s.db v
    | _ => True
  | .resetDelete i => ∀ r ∈ s.resets[i]?, ∀ v ∈ vectorRows s,
      v.uptoUpdateId = maxUpdateId (s.db.log.filter fun x => x ∉ r.dels) →
        s.db.log.filter (fun x => x ∉ r.dels) = s.db.log
  | .resetUpsert _ => ∀ v ∈ vectorRows s, ¬ Current s.db v
  | .resetRemember i true => ∀ r ∈ s.resets[i]?, s.db.log = [] → content s.db.snapshot = r.seed
  | _ => True

instance (s : St) : (a : Action) → Decidable (WatermarksHold s a)
  | .appendCommit _ | .resetDelete _ | .resetUpsert _ | .resetRemember _ true => by
    dsimp only [WatermarksHold]
    infer_instance
  | .compactCommit => by
    dsimp only [WatermarksHold]
    split <;> infer_instance
  | .otherInsert | .appendStart _ | .appendAbort _ | .compactLock | .compactReadSnapshot | .compactReadLog
  | .compactUpsert _ _ | .compactInsertLegacy | .compactDelete | .compactInvalidate _ | .compactRollback | .readerBegin
  | .readerLock _ | .readerFinish _ _ | .resetBegin _ | .resetRemember _ false => .isTrue trivial

def CacheOk (s : St) (a : Action) : Prop := InOrder s a ∧ ResetsApart s a ∧ WatermarksHold s a

instance (s : St) (a : Action) : Decidable (CacheOk s a) := inferInstanceAs (Decidable (_ ∧ _ ∧ _))

structure CacheInv (s : St) : Prop where
  comp : CompOk s.db s.compaction
  ids : IdsOk s
  fresh : ∀ v ∈ vectorRows s, Fresh s.db v

theorem cacheInv_init (keyed : Bool) : CacheInv (init keyed) :=
  ⟨trivial, idsOk_init keyed, by simp [init, vectorRows]⟩

theorem maxUpdateId_append (rows : List UpdateRow) (r : UpdateRow) :
    maxUpdateId (rows ++ [r]) = some (max (maxId rows) r.id) := by
  rw [maxUpdateId_eq_some (by simp), maxId_append_singleton]

/-- no row is current after an append: its watermark would be the appended id, which was in flight, or the old max,
below which the append was not allowed -/
theorem not_current_append {r : UpdateRow} (hr : r ∈ s.inflight) (hv : ∀ k ∈ v.uptoUpdateId, Taken s k)
    (hw : Current s.db v → maxId s.db.log < r.id) : ¬ Current { s.db with log := s.db.log ++ [r] } v := by
  intro hc
  have hup : v.uptoUpdateId = some (max (maxId s.db.log) r.id) := hc.trans (maxUpdateId_append _ _)
  rcases le_total (maxId s.db.log) r.id with hle | hle
  · rw [max_eq_right hle] at hup
    exact (hv _ hup).2 r hr rfl
  · rw [max_eq_left hle] at hup
    by_cases hnil : s.db.log = []
    · rw [hnil] at hle hup
      have h0 : r.id = 0 := by simpa [maxId] using hle
      rw [show maxId [] = r.id by rw [h0]; rfl] at hup
      exact (hv _ hup).2 r hr rfl
    · have hlt := hw (hup.trans (maxUpdateId_eq_some hnil).symm)
      omega

/-- the cached row of a reset, over its own snapshot and no log -/
theorem fresh_seed {d : Db} {seed : Update} (h : d.log = [] → content d.snapshot = seed) :
    Fresh d ⟨stateVector seed, none⟩ := by
  intro hc
  have hnil : d.log = [] := by
    by_contra hne
    rw [Current, maxUpdateId_eq_some hne] at hc
    cases hc
  rw [Db.stored, mergeParts, h hnil, hnil]
  simp [updates]

theorem fresh_readerRow (d : Db) (locked : Bool) : Fresh d (readerRow ⟨d, locked⟩) := fun _ => rfl

/-- **Step.** A row whose watermark is current describes the stored document, whatever step comes next. -/
theorem fresh_step {a : Action} (h : CacheInv s) (ha : CacheOk s a) :
    ∀ v ∈ vectorRows (step s a), Fresh (step s a).db v := by
  obtain ⟨-, -, hw⟩ := ha
  refine step_preserves (fun t => ∀ v ∈ vectorRows t, Fresh t.db v) h.fresh fun t ht => ?_
  cases ht with
  | @appendCommit r hm =>
    intro v hv hc
    exact absurd hc (not_current_append hm (h.ids.marks v hv) (hw v hv))
  | @compactCommit row legacy dels inval hcomp =>
    have hok : CompOk s.db (some (.invalidated row legacy dels inval)) := hcomp ▸ h.comp
    simp only [WatermarksHold, hcomp] at hw
    intro v hv hc
    have hcur : Current s.db v := hw v hv hc
    rw [commitDb_stored hok]
    exact h.fresh v (mem_vectorRows_commit hv) hcur
  | readerBegin =>
    intro v hv
    simp only [vectorRows, map_append, map_cons, map_nil, mem_append, mem_singleton] at hv
    rcases hv with hv | hv | rfl
    · exact h.fresh v (mem_append_left _ hv)
    · exact h.fresh v (mem_vectorRows_readers hv)
    · exact fresh_readerRow _ _
  | readerLock hr =>
    intro v hv
    simp only [vectorRows, map_readerRow_lock hr] at hv
    exact h.fresh v hv
  | readerCache hr _ =>
    intro v hv
    rcases mem_append.1 hv with hv | hv
    · obtain rfl := mem_singleton.1 hv
      exact h.fresh _ (readerRow_mem hr)
    · exact h.fresh v (mem_vectorRows_erase hv)
  | readerFinish _ hr =>
    intro v hv
    rcases mem_append.1 hv with hv | hv
    · exact h.fresh v (mem_append_left _ hv)
    · exact h.fresh v (mem_vectorRows_erase hv)
  | resetDelete hr _ =>
    intro v hv hc
    have hsame := hw _ hr v hv hc
    simp only [Current, Db.stored, hsame] at hc ⊢
    exact h.fresh v hv hc
  | resetUpsert _ _ _ =>
    intro v hv hc
    exact absurd hc (hw v hv)
  | resetRemember ok hr _ =>
    cases ok with
    | false => exact h.fresh
    | true =>
      intro v hv
      rcases mem_append.1 hv with hv | hv
      · obtain rfl := mem_singleton.1 hv
        exact fresh_seed (hw _ hr)
      · exact h.fresh v (mem_vectorRows_readers hv)
  | _ => exact h.fresh

theorem cacheInv_step {a : Action} (h : CacheInv s) (ha : CacheOk s a) : CacheInv (step s a) :=
  ⟨compOk_step h.comp ha.1 ha.2.1, idsOk_step h.ids, fresh_step h ha⟩

theorem cacheInv_run (keyed : Bool) {as : List Action} (h : Machine.Guarded step CacheOk (init keyed) as) :
    CacheInv (run (init keyed) as) := Machine.run_inv (fun _ _ => cacheInv_step) (cacheInv_init keyed) h

/-! ## The cached answer -/

/-- a cached answer is the vector of the snapshot merged with every committed row -/
def CacheExact (d : Db) : Prop := ∀ v ∈ currentStateVector d, v = stateVector d.stored

instance (d : Db) : Decidable (CacheExact d) := inferInstanceAs (Decidable (∀ v ∈ currentStateVector d, _))

theorem CacheInv.exact (h : CacheInv s) : CacheExact s.db := by
  intro v hv
  unfold currentStateVector at hv
  split at hv
  · simp at hv
  · rename_i row hrow
    split_ifs at hv with hc
    · cases hv
      exact h.fresh row (by simp [vectorRows, hrow]) hc
    · simp at hv

/-- both appends are visible before the vector is cached -/
def cachedRun : List Action :=
  [.appendStart firstEdit, .appendStart otherEdit, .appendCommit 2, .appendCommit 1, .readerBegin, .readerLock 0,
    .readerFinish 0 true]

/-- the vector is cached with watermark 2 while append 1 is in flight -/
def stragglerRun : List Action :=
  [.appendStart firstEdit, .appendStart otherEdit, .appendCommit 2, .readerBegin, .readerLock 0, .readerFinish 0 true,
    .appendCommit 1]

end Baalda.DocStore
