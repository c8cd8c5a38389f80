/-
The durable manifest beside the durable document.

`yjs_snapshot.state_vector` is what the next launch puts in its `hello`, and the server sends only what that vector
lacks. Three writers set it: a snapshot, with the vector of the document it encodes (`save_yjs_snapshot`); a bootstrap
page, with the vector of the snapshot it brings (`commit_bootstrap_rows`); and `VaultDocStore`, which remembers the
vector of a document in memory (`rememberSv`) and a second later writes it alone (`flushStateVectors`,
`save_yjs_state_vectors`).
The document's updates reach `yjs_updates` by calls of their own (`LocalStore`), which no flush waits for.

One document, over the store of `LocalStore`: every call is issued at one step, and lands, fails or is lost with the
process at another.
- `reopen`: the bridge is retired (`whenPersisted`, which passes over a failed append) and another one opened; a
  snapshot it had in flight goes on as an orphan;
- `relaunch`: the process dies, and what is in the database is loaded;
- `clearYjsDoc`: the rows of the document are deleted.
-/
import Baalda.Desktop.LocalStore

namespace Baalda.DurableManifest

open Crdt Crdt.Update Crdt.StateVector LocalStore

/-! ## The store and the manifest -/

structure St where
  /-- the rows of the document, and the bridge that writes them -/
  store : LocalStore.St
  /-- `yjs_snapshot.state_vector`; a row with this column alone is one without a snapshot -/
  stateVector : Option StateVector
  svCache : Option StateVector
  /-- the document is in `dirtySv` -/
  dirtySv : Bool
  /-- `manifest.save` in flight -/
  flushes : List StateVector
  /-- snapshot writes in flight of bridges that are gone -/
  orphans : List (Update × ℕ)
  /-- bootstrap pages committed whose answer is on its way -/
  created : List StateVector

/-- the app has started on what the database holds -/
def launch (db : Db) (stateVector : Option StateVector) : St where
  store := hydrate db
  stateVector := stateVector
  svCache := none
  dirtySv := false
  flushes := []
  orphans := []
  created := []

inductive Action where
  | store (a : LocalStore.Action)
  /-- `hydrateManifest`: a live entry always wins -/
  | hydrateManifest
  | rememberSv
  | flushStateVectors
  | flushLands (i : ℕ)
  | flushFails (i : ℕ)
  | commitBootstrap (snapshot : Update)
  /-- `createDeferred` has answered -/
  | rememberCreated (i : ℕ)
  | reopen
  | orphanLands (i : ℕ)
  | orphanFails (i : ℕ)
  | clearYjsDoc
  | relaunch

namespace St

variable (s : St)

/-- `has_local_crdt` -/
def hasLocalCrdt : Bool := !s.store.db.rows.isEmpty || s.store.db.snapshot.isSome || s.stateVector.isSome

/-- a new value for the rows of the document -/
def setDb (db : Db) : St := { s with store := { s.store with db := db } }

/-- the vector a snapshot write brings along, if this is one that lands -/
def landing : LocalStore.Action → Option StateVector
  | .saveLands w => (s.store.inFlight w).map fun save => Crdt.stateVector save.1
  | _ => none

def remember (sv : StateVector) : St := { s with svCache := some sv, dirtySv := true }

/-- `save_yjs_snapshot` -/
def saveSnapshot (save : Update × ℕ) : St :=
  { s.setDb (s.store.db.saveSnapshot save.1 save.2) with stateVector := some (Crdt.stateVector save.1) }

/-- the writes the bridge leaves behind when it goes -/
def inFlightSaves : List (Update × ℕ) := [Writer.compaction, Writer.recovery].filterMap s.store.inFlight

end St

def step (s : St) : Action → St
  | .store a =>
    { s with store := LocalStore.step s.store a, stateVector := (s.landing a).orElse fun _ => s.stateVector }
  | .hydrateManifest => { s with svCache := s.svCache.orElse fun _ => s.stateVector }
  | .rememberSv => s.remember (Crdt.stateVector s.store.doc)
  | .flushStateVectors =>
    match s.dirtySv, s.svCache with
    | true, some sv => { s with dirtySv := false, flushes := s.flushes ++ [sv] }
    | _, _ => { s with dirtySv := false }
  | .flushLands i =>
    match s.flushes[i]? with
    | some sv => { s with stateVector := some sv, flushes := s.flushes.eraseIdx i }
    | none => s
  | .flushFails i => { s with flushes := s.flushes.eraseIdx i }
  | .commitBootstrap snapshot =>
    if s.hasLocalCrdt then s
    else
      { s.setDb { s.store.db with snapshot := some snapshot } with
        stateVector := some (Crdt.stateVector snapshot), created := s.created ++ [Crdt.stateVector snapshot] }
  | .rememberCreated i =>
    match s.created[i]? with
    | some sv => { s.remember sv with created := s.created.eraseIdx i }
    | none => s
  | .reopen =>
    if s.store.calls.all Call.settled then
      { s with store := hydrate s.store.db, orphans := s.orphans ++ s.inFlightSaves }
    else s
  | .orphanLands i =>
    match s.orphans[i]? with
    | some save => { s.saveSnapshot save with orphans := s.orphans.eraseIdx i }
    | none => s
  | .orphanFails i => { s with orphans := s.orphans.eraseIdx i }
  | .clearYjsDoc => { s.setDb { s.store.db with snapshot := none, rows := [] } with stateVector := none }
  | .relaunch => launch s.store.db s.stateVector

def run (s : St) (as : List Action) : St := Machine.run step s as

/-- the stored vector is covered by the vector of the document a load would rebuild -/
def Truthful (s : St) : Prop := ∀ sv ∈ s.stateVector, Covers (Crdt.stateVector s.store.db.load) sv

instance (s : St) : Decidable (Truthful s) := inferInstanceAs (Decidable (∀ sv ∈ s.stateVector, _))

/-- what the snapshot or a row of the log holds -/
def Stored (db : Db) (i : Id) : Prop := ∃ u ∈ db.snapshot.toList ++ db.rows.map Prod.snd, i ∈ u.structs

instance (db : Db) (i : Id) : Decidable (Stored db i) := inferInstanceAs (Decidable (∃ u ∈ _, _))

/-- a flush takes effect only when every struct its vector counts is stored -/
def FlushOk (s : St) : Action → Prop
  | .flushLands i => ∀ sv ∈ s.flushes[i]?, ∀ e ∈ sv, ∀ k < e.2, Stored s.store.db ⟨e.1, k⟩
  | _ => True

instance (s : St) (a : Action) : Decidable (FlushOk s a) := by unfold FlushOk; split <;> infer_instance

/-! ## What a vector promises -/

theorem stored_iff {db : Db} {i : Id} : Stored db i ↔ i ∈ db.load.structs := mem_structs_mergeAll.symm

/-- a vector is covered exactly when every struct it counts is there -/
theorem covers_iff_stored {db : Db} {sv : StateVector} :
    Covers (Crdt.stateVector db.load) sv ↔ ∀ e ∈ sv, ∀ k < e.2, Stored db ⟨e.1, k⟩ := by
  simp only [Covers, get_stateVector, stored_iff]
  constructor
  · intro h e he k hk
    exact mem_of_lt_clock (hk.trans_le (h e he))
  · intro h e he
    by_contra hlt
    exact clock_notMem _ _ (h e he _ (by omega))

/-! ## Steps -/

/-- what a step does to the vector: nothing while the store grows, or it is the vector of something stored -/
inductive Moves (s t : St) : Prop where
  | grows (hsv : t.stateVector = s.stateVector) (hload : s.store.db.load ≤ t.store.db.load)
  | rewritten (u : Update) (hsv : t.stateVector = some (Crdt.stateVector u)) (hload : u ≤ t.store.db.load)
  | cleared (hsv : t.stateVector = none)

theorem Moves.truthful {s t : St} (h : Moves s t) (hs : Truthful s) : Truthful t := by
  intro sv hmem
  cases h with
  | grows hsv hload =>
    rw [hsv] at hmem
    exact (covers_of_le hload).trans (hs sv hmem)
  | rewritten u hsv hload =>
    rw [hsv] at hmem
    cases hmem
    exact covers_of_le hload
  | cleared hsv =>
    rw [hsv] at hmem
    simp at hmem

theorem Moves.refl (s : St) : Moves s s := .grows rfl le_rfl

theorem load_append_le (db : Db) (update : Update) : db.load ≤ (db.append update).load := by
  rw [Db.load_append]
  exact le_sup_left

theorem saveSnapshot_moves (s t : St) (save : Update × ℕ) (hdb : t.store.db = s.store.db.saveSnapshot save.1 save.2)
    (hsv : t.stateVector = some (Crdt.stateVector save.1)) : Moves s t := by
  refine .rewritten save.1 hsv ?_
  rw [hdb]
  exact Db.snapshot_le_load_saveSnapshot _ _ _

theorem idle_save_moves {s : St} {w : Writer} (h : s.store.inFlight w = none) :
    Moves s (step s (.store (.saveLands w))) := by
  refine .grows (by simp [step, St.landing, h]) ?_
  simp only [step, LocalStore.step]
  split
  next snapshot upTo hsave => simp [inFlight_eq_some hsave] at h
  next => exact le_rfl

/-- a step of the bridge and its calls: appends grow the log, and a snapshot comes with its own vector -/
theorem store_moves (s : St) (a : LocalStore.Action) : Moves s (step s (.store a)) := by
  cases a with
  | edit update | others maxId => exact .grows rfl le_rfl
  | appendLands i =>
    refine .grows rfl ?_
    simp only [step, LocalStore.step]
    split
    · exact load_append_le _ _
    · exact le_rfl
  | appendAnswers i | appendFails i | begins w | saveAnswers w | saveFails w =>
    refine .grows rfl ?_
    simp only [step, LocalStore.step]
    split <;> exact le_rfl
  | encodes w =>
    refine .grows rfl ?_
    simp only [step, LocalStore.step]
    split
    · split <;> exact le_rfl
    · exact le_rfl
  | saveLands w =>
    cases hsave : s.store.saves w with
    | saving snapshot upTo =>
      apply saveSnapshot_moves s _ (snapshot, upTo)
      · simp [step, LocalStore.step, hsave, LocalStore.St.setSave]
      · simp [step, St.landing, inFlight_eq_some hsave]
    | idle | waiting n | saved => exact idle_save_moves (by simp [LocalStore.St.inFlight, hsave])

/-- **Step.** Only a flush of the vector alone can leave the document behind. -/
theorem step_moves (s : St) (a : Action) (h : ∀ i, a ≠ .flushLands i) : Moves s (step s a) := by
  cases a with
  | store a => exact store_moves s a
  | hydrateManifest | rememberSv | flushFails i | orphanFails i | relaunch => exact .grows rfl le_rfl
  | flushStateVectors =>
    simp only [step]
    split <;> exact .grows rfl le_rfl
  | flushLands i => exact absurd rfl (h i)
  | commitBootstrap snapshot =>
    simp only [step]
    split
    · exact .refl s
    · refine .rewritten snapshot rfl ?_
      exact le_mergeAll (by simp [St.setDb])
  | rememberCreated i | reopen =>
    simp only [step]
    split
    · exact .grows rfl le_rfl
    · exact .refl s
  | orphanLands i =>
    simp only [step]
    split
    next save _ => exact saveSnapshot_moves s _ save rfl rfl
    next => exact .refl s
  | clearYjsDoc => exact .cleared rfl

/-- a flush keeps the manifest truthful exactly when what it counts is stored -/
theorem flushLands_truthful (s : St) (i : ℕ) (h : Truthful s) :
    Truthful (step s (.flushLands i)) ↔ FlushOk s (.flushLands i) := by
  simp only [step, FlushOk]
  cases hsv : s.flushes[i]? with
  | none => simpa using h
  | some sv => simp [Truthful, covers_iff_stored]

/-- the feed delivers an update to an open document, and the flush of its vector lands -/
def deliveredAndFlushed (append : List Action) : List Action :=
  [.store (.edit (edited 0)), .rememberSv] ++ append ++ [.flushStateVectors, .flushLands 0]

/-- the append is committed before the vector -/
example : Machine.Guarded step FlushOk (launch emptyDb none) (deliveredAndFlushed [.store (.appendLands 0)]) := by
  decide

/-- the process dies while the append is in flight -/
def crashRun : List Action := deliveredAndFlushed [] ++ [.relaunch]

/-- the append fails, and `whenPersisted` passes over it -/
def failedRun : List Action := deliveredAndFlushed [.store (.appendFails 0)] ++ [.reopen]

end Baalda.DurableManifest
