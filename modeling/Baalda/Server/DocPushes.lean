/-
Batch document pushes (`applyDocPushBatch`, `applyDocPush`, `applyDetached`, `withDocLock` and `serverDocCoversUpdate`
in `sync/doc-batch.ts`, as the route in `http/routes/bulk.ts` takes them).

The items of a batch go one after another, and a client's batches and retries do too. Each item waits for the lock of
its document, takes the live or the detached path, and gives way to all others at its awaits (`Turn`): loads, edits,
appends, compactions and the writes of tools and of other requests (`LiveDocs`), of which those that need the lock it
has wait. A push is one more writer of `LiveDocs`, step by step, and what it does is written with that module's steps.
An update that does not decode throws before anything is applied; the publication, the index and the hooks of a write
are left out.
-/
import Baalda.Server.SeedRegister

namespace Baalda.DocPushes

open Crdt Crdt.Update List
open LiveDocs (Doc Mutation)
open SeedRegister (stored loadDocState_getD)

/-! ## Items -/

/-- Yjs, as a push uses it -/
structure Yjs where
  text : Update → LiveDocs.Text
  /-- what an update that is applied to the document gives the observer; `none`: it is not called -/
  captured : Update → Update → Option Update
  /-- some of the update waits for operations that neither it nor the document has -/
  pending : Update → Update → Bool

structure Yjs.Lawful (Y : Yjs) : Prop where
  known : ∀ u w, w ≤ u → Y.captured u w = none
  within : ∀ u w m, Y.captured u w = some m → m ≤ u ⊔ w
  fresh : ∀ u w m, Y.captured u w = some m → ¬ m ≤ u
  whole : ∀ u w, Y.pending u w = false → u ⊔ (Y.captured u w).getD ⊥ = u ⊔ w

structure DocApplyItem (Id : Type*) where
  docId : Id
  /-- `none`: bytes that are no update -/
  update : Option Update
  expectEmpty : Bool
  deriving DecidableEq

inductive Outcome where
  | applied
  | skipped
  | conflict
  | error (code : Option String)
  /-- `no_edit_permission` -/
  | denied
  deriving DecidableEq

structure DocApplyResult (Id : Type*) where
  docId : Id
  outcome : Outcome
  /-- the document it was checked against -/
  against : Option Update := none
  /-- what was taken of it -/
  took : Option Update := none
  deriving DecidableEq

/-- where a detached write throws -/
inductive Fault where
  | loadDocState
  /-- the row is not inserted -/
  | insert
  /-- it is, and what follows in `appendUpdate` throws -/
  | compact
  deriving DecidableEq

/-- what goes on while an item is on its way -/
structure Turn (Id : Type*) where
  /-- `isShrinkHeld` -/
  held : Bool := false
  /-- what the others do until it has the lock -/
  waits : List (Id × LiveDocs.Action) := []
  /-- until the stored state is read -/
  hydrates : List (Id × LiveDocs.Action) := []
  /-- until the row is inserted -/
  appends : List (Id × LiveDocs.Action) := []
  /-- until the lock is given back -/
  announces : List (Id × LiveDocs.Action) := []
  fault : Option Fault := none

variable {Id : Type*} [DecidableEq Id]

/-! ## Documents -/

/-- what is stored, and the changes that are to be -/
def held (d : Doc) : Update := stored d ⊔ mergeAll (d.changes.map LiveDocs.Change.update)

/-- what an edit of a live document brings -/
def editBrings (d : Doc) (update : Update) : Update := match d.live with
  | some l => if update ≤ l.document then ⊥ else update
  | none => ⊥

/-- what a step brings -/
def brings (text : Update → LiveDocs.Text) (d : Doc) : LiveDocs.Action → Update
  | .edits update => editBrings d update
  | .writes m => match d.lock, d.live with
    | none, some l => match LiveDocs.Doc.captures text m l.document with
      | some update => editBrings d update
      | none => ⊥
    | _, _ => ⊥
  | .writeAppends => match d.lock with
    | some (.appending update) => update
    | _ => ⊥
  | _ => ⊥

structure St (Id : Type*) where
  docs : Id → Doc
  /-- what the others have brought since the start -/
  brought : Id → Update

variable (Y : Yjs)

namespace St

variable (s : St Id)

/-- a step of another writer; it waits if it needs the lock that the push has -/
def other (lock : Option Id) (a : Id × LiveDocs.Action) : St Id :=
  if lock = some a.1 ∧ SeedRegister.St.locked a.2 then s
  else {
    docs := LiveDocs.step Y.text s.docs a
    brought := Function.update s.brought a.1 (s.brought a.1 ⊔ brings Y.text (s.docs a.1) a.2) }

def others (lock : Option Id) (as : List (Id × LiveDocs.Action)) : St Id := as.foldl (fun s a => s.other Y lock a) s

/-- a step of the push -/
def own (docId : Id) (a : LiveDocs.Action) : St Id := { s with docs := LiveDocs.step Y.text s.docs (docId, a) }

end St

/-! ## A push -/

namespace DocApplyItem

variable (item : DocApplyItem Id)

def mutation : Mutation := ⟨fun u => item.update.bind (Y.captured u), item.expectEmpty⟩

/-- what is taken of it where the document is this -/
def taken (u : Update) : Option Update := LiveDocs.Doc.captures Y.text (item.mutation Y) u

def outcomeOn (u : Update) : Outcome :=
  if item.expectEmpty ∧ Y.text u ≠ [] then .conflict
  else match item.update with
    | some update => if (Y.captured u update).isSome then .applied else .skipped
    | none => .error none

end DocApplyItem

/-- `applyDetached`: the lock is taken, and nothing is awaited yet -/
def applyDetached (item : DocApplyItem Id) (turn : Turn Id) (s : St Id) : DocApplyResult Id × St Id :=
  let docId := item.docId
  let read := s.others Y (some docId) turn.hydrates
  if turn.fault = some .loadDocState then (⟨docId, .error none, none, none⟩, read.own Y docId .writeFails)
  else
    let u := (read.docs docId).loadDocState.getD ⊥
    let applied := read.own Y docId .writeHydrates
    match item.taken Y u with
    | none => (⟨docId, item.outcomeOn Y u, some u, none⟩, applied)
    | some m =>
      let appending := applied.others Y (some docId) turn.appends
      if turn.fault = some .insert then (⟨docId, .error none, some u, none⟩, appending.own Y docId .writeFails)
      else
        let announcing := (appending.own Y docId .writeAppends).others Y (some docId) turn.announces
        let outcome := if turn.fault = some .compact then .error none else .applied
        (⟨docId, outcome, some u, some m⟩, announcing.own Y docId .writeDone)

/-- `none`: the lock is another's -/
def applyDocPush (item : DocApplyItem Id) (turn : Turn Id) (s : St Id) : Option (DocApplyResult Id × St Id) :=
  let docId := item.docId
  let s := s.others Y none turn.waits
  if turn.held then some (⟨docId, .error (some "shrink_held"), none, none⟩, s)
  else if (s.docs docId).lock.isSome then none
  else
    let locked := s.own Y docId (.writes (item.mutation Y))
    some (match (s.docs docId).live with
      | some l => (⟨docId, item.outcomeOn Y l.document, some l.document, item.taken Y l.document⟩, locked)
      | none => applyDetached Y item turn locked)

/-- `serverDocCoversUpdate`, where the server's document is this -/
def DocApplyItem.coveredBy (item : DocApplyItem Id) (u : Update) : Bool := item.update.any fun update =>
  decide (StateVector.Covers (stateVector u) (stateVector update)) && decide (Y.text update = Y.text u)

/-- the push of a caller who may only read -/
def readOnlyPush (item : DocApplyItem Id) (turn : Turn Id) (s : St Id) : Option (DocApplyResult Id × St Id) :=
  let docId := item.docId
  let s := s.others Y none turn.waits
  if (s.docs docId).lock.isSome then none
  else match (s.docs docId).live with
    | some l => some (⟨docId, if item.coveredBy Y l.document then .skipped else .denied, some l.document, none⟩, s)
    | none =>
      let read := s.others Y (some docId) turn.hydrates
      let state := if turn.fault = some .loadDocState then none else (read.docs docId).loadDocState
      some (⟨docId, if state.any (item.coveredBy Y) then .skipped else .denied, state, none⟩, read)

/-- one item after another -/
def applyDocPushBatch : List (DocApplyItem Id × Turn Id) → St Id → Option (List (DocApplyResult Id) × St Id)
  | [], s => some ([], s)
  | (item, turn) :: items, s => match applyDocPush Y item turn s with
    | some (r, s) => (applyDocPushBatch items s).map fun out => (r :: out.1, out.2)
    | none => none

/-- the process starts: nothing is loaded -/
def started (logs : Id → List Update) : St Id := ⟨LiveDocs.started logs, fun _ => ⊥⟩

/-! ## What is to hold -/

namespace St

variable (s : St Id)

/-- the document an item is checked against: the one that is loaded, else what is stored when it is read -/
def checked (item : DocApplyItem Id) (turn : Turn Id) : Update :=
  let s := s.others Y none turn.waits
  match (s.docs item.docId).live with
  | some l => l.document
  | none => stored ((s.others Y (some item.docId) turn.hydrates).docs item.docId)

/-- the document it comes to -/
def landing (item : DocApplyItem Id) (turn : Turn Id) : Update :=
  let s := s.others Y none turn.waits
  match (s.docs item.docId).live with
  | some l => l.document
  | none => stored ((s.others Y (some item.docId) (turn.hydrates ++ turn.appends)).docs item.docId)

end St

/-- what an item has come to -/
structure ItemOk (item : DocApplyItem Id) (turn : Turn Id) (s : St Id) (r : DocApplyResult Id) (s' : St Id) : Prop where
  /-- its update is taken in the document that was checked, and a seed only where the text was empty -/
  took : ∀ m, r.took = some m → r.against = some (s.checked Y item turn) ∧
    item.update.bind (Y.captured (s.checked Y item turn)) = some m ∧
    (item.expectEmpty = true → Y.text (s.checked Y item turn) = [])
  /-- the text is empty when the seed lands, if the edits of a document that was opened are not appended meanwhile -/
  empty : r.took ≠ none → item.expectEmpty = true →
    (∀ i, (item.docId, LiveDocs.Action.changeAppends i) ∉ turn.appends) → Y.text (s.landing Y item turn) = []
  /-- what is there already is not appended again -/
  replay : turn.held = false → turn.fault ≠ some .loadDocState → ∀ w, item.update = some w → w ≤ s.checked Y item turn →
    r.took = none ∧ (r.outcome = .skipped ∨
      item.expectEmpty = true ∧ Y.text (s.checked Y item turn) ≠ [] ∧ r.outcome = .conflict)
  /-- one that has taken nothing has left everything to the others -/
  nothing : r.took = none → ∃ as, as <+: turn.hydrates ++ turn.appends ∧
    s' = (s.others Y none turn.waits).others Y (some item.docId) as
  /-- it has left every other document to them -/
  elsewhere : ∃ as, as <+: turn.hydrates ++ (turn.appends ++ turn.announces) ∧ ∀ id, id ≠ item.docId →
    s'.docs id = ((s.others Y none turn.waits).others Y (some item.docId) as).docs id
  applied : r.outcome = .applied → r.took ≠ none
  /-- it is told that it was applied, unless `appendUpdate` throws after its insert -/
  told : r.took ≠ none → r.outcome = .applied ∨ turn.fault = some .compact

/-- what the push of a caller who may only read has come to -/
structure ReadOnlyOk (item : DocApplyItem Id) (turn : Turn Id) (s : St Id) (r : DocApplyResult Id) (s' : St Id) :
    Prop where
  took : r.took = none
  /-- everything is left to the others -/
  nothing : ∃ as, as <+: turn.hydrates ∧ s' = (s.others Y none turn.waits).others Y (some item.docId) as
  /-- content that is there is skipped, where it reads as all that is there -/
  replay : ∀ u w, r.against = some u → item.update = some w → w ≤ u → Y.text w = Y.text u → r.outcome = .skipped

/-- the updates that were taken for a document, in whole or in part -/
def accepted (docId : Id) (items : List (DocApplyItem Id × Turn Id)) (rs : List (DocApplyResult Id)) : List Update :=
  (items.zip rs).filterMap fun x => if x.1.1.docId = docId ∧ x.2.took.isSome then x.1.1.update else none

/-- no change of a loaded document fails to be appended -/
def Turn.Appends (turn : Turn Id) : Prop :=
  ∀ a ∈ turn.waits ++ turn.hydrates ++ turn.appends ++ turn.announces, ∀ i, a.2 ≠ .changeFails i

/-! ## A step of a document -/

section

variable {Y} {d : Doc} {text : Update → LiveDocs.Text}

theorem mergeAll_singleton (u : Update) : mergeAll [u] = u := sup_bot_eq u

/-- a member is merged once more, or taken out and put beside the rest -/
theorem mergeAll_eraseIdx {xs : List LiveDocs.Change} {i : ℕ} {c : LiveDocs.Change} (h : xs[i]? = some c) :
    mergeAll (xs.map LiveDocs.Change.update) =
      c.update ⊔ mergeAll ((xs.eraseIdx i).map LiveDocs.Change.update) := by
  induction xs generalizing i with
  | nil => cases h
  | cons x xs ih =>
    cases i with
    | zero =>
      cases h
      rfl
    | succ i =>
      have hrest := ih (i := i) (by simpa using h)
      rw [eraseIdx_cons_succ, map_cons, map_cons, mergeAll_cons, mergeAll_cons, hrest]
      exact sup_left_comm _ _ _

theorem held_edits (u : Update) : held (d.edits u) = held d ⊔ editBrings d u := by
  unfold Doc.edits editBrings
  cases hlive : d.live with
  | none => exact (sup_bot_eq (held d)).symm
  | some l =>
    dsimp only
    split
    · exact (sup_bot_eq (held d)).symm
    · have hlast : mergeAll ([⟨l.number, u⟩].map LiveDocs.Change.update) = u := mergeAll_singleton u
      unfold held stored
      rw [map_append, mergeAll_append, hlast, sup_assoc]

/-- **What a step adds to a document's rows and changes is what it brings**, unless a change is lost. -/
theorem held_step {a : LiveDocs.Action} (ha : ∀ i, a ≠ .changeFails i) :
    held (d.step text a) = held d ⊔ brings text d a := by
  have hsame : ∀ d' : Doc, d'.log = d.log → d'.changes = d.changes → held d' = held d ⊔ ⊥ := by
    intro d' hlog hchanges
    unfold held stored
    rw [hlog, hchanges, sup_bot_eq]
  cases a with
  | loadStarts => simp only [Doc.step, Doc.loadStarts]; split <;> exact hsame _ rfl rfl
  | loadReads => simp only [Doc.step, Doc.loadReads]; split <;> exact hsame _ rfl rfl
  | loadEnters => simp only [Doc.step, Doc.loadEnters]; split <;> exact hsame _ rfl rfl
  | loadFails | unloads | writeFails | writeDone => exact hsame _ rfl rfl
  | edits u => exact held_edits u
  | changeAppends i =>
    simp only [Doc.step, Doc.changeAppends]
    split
    · next c hc =>
      unfold held stored brings
      rw [mergeAll_append, mergeAll_singleton, mergeAll_eraseIdx hc, sup_bot_eq, sup_assoc]
    · exact hsame _ rfl rfl
  | changeFails i => exact absurd rfl (ha i)
  | writes m =>
    simp only [Doc.step, Doc.writes, brings]
    cases hlock : d.lock with
    | some _ => exact hsame _ rfl rfl
    | none =>
      cases hlive : d.live with
      | none => exact hsame _ rfl rfl
      | some l =>
        dsimp only
        cases hm : LiveDocs.Doc.captures text m l.document with
        | none => exact hsame _ rfl rfl
        | some u => exact held_edits u
  | writeHydrates => simp only [Doc.step, Doc.writeHydrates]; split <;> exact hsame _ rfl rfl
  | writeAppends =>
    simp only [Doc.step, Doc.writeAppends, brings]
    rcases d.lock with _ | m | u | _
    · exact hsame _ rfl rfl
    · exact hsame _ rfl rfl
    · unfold held stored
      rw [mergeAll_append, mergeAll_singleton]
      exact sup_right_comm _ _ _
    · exact hsame _ rfl rfl
  | compacts =>
    simp only [Doc.step, Doc.compacts]
    split
    · exact hsame _ rfl rfl
    · unfold held stored
      rw [mergeAll_singleton]
      exact (sup_bot_eq _).symm

/-- all that is loaded is stored, or to be -/
structure Backed (d : Doc) : Prop where
  live : ∀ l ∈ d.live, l.document ≤ held d
  load : ∀ state, d.load = some (.read state) → state.getD ⊥ ≤ held d

theorem Backed.keep {d' : Doc} (h : Backed d) (hlive : d'.live = d.live ∨ d'.live = none)
    (hload : d'.load = d.load ∨ d'.load = none) (hheld : held d ≤ held d') : Backed d' where
  live l hl := by
    rcases hlive with hsame | hnone
    · exact (h.live l (hsame ▸ hl)).trans hheld
    · exact absurd (hnone.symm.trans hl) (by simp)
  load state hstate := by
    rcases hload with hsame | hnone
    · exact (h.load state (hsame ▸ hstate)).trans hheld
    · exact absurd (hnone.symm.trans hstate) (by simp)

theorem edits_backed (h : Backed d) (u : Update) : Backed (d.edits u) := by
  have hheld := held_edits (d := d) u
  unfold Doc.edits editBrings at *
  cases hlive : d.live with
  | none => exact h
  | some l =>
    rw [hlive] at hheld
    dsimp only at hheld ⊢
    by_cases hle : u ≤ l.document
    · rwa [if_pos hle]
    · rw [if_neg hle, if_neg hle] at hheld
      rw [if_neg hle]
      refine ⟨fun l' hl' => ?_, fun state hstate => ?_⟩
      · cases hl'
        rw [hheld]
        exact sup_le_sup_right (h.live l hlive) u
      · rw [hheld]
        exact (h.load state hstate).trans le_sup_left

end

section

variable {Y} {d : Doc} {text : Update → LiveDocs.Text}

variable {a : LiveDocs.Action}

theorem step_backed (h : Backed d) (ha : ∀ i, a ≠ .changeFails i) : Backed (d.step text a) := by
  have hheld : held d ≤ held (d.step text a) := (held_step ha).ge.trans' le_sup_left
  cases a with
  | loadStarts =>
    simp only [Doc.step, Doc.loadStarts]
    split
    · exact ⟨h.live, fun state hstate => by simp at hstate⟩
    · exact h
  | loadReads =>
    simp only [Doc.step, Doc.loadReads]
    split
    · refine ⟨h.live, fun state hstate => ?_⟩
      obtain rfl := LiveDocs.Load.read.inj (Option.some.inj hstate)
      rw [loadDocState_getD]
      exact le_sup_left
    · exact h
  | loadEnters =>
    simp only [Doc.step, Doc.loadEnters]
    split
    · next state hload =>
      refine ⟨fun l hl => ?_, fun state hstate => by simp at hstate⟩
      cases hl
      exact h.load state hload
    · exact h
  | loadFails => exact h.keep (.inl rfl) (.inr rfl) hheld
  | unloads => exact h.keep (.inr rfl) (.inl rfl) hheld
  | edits u => exact edits_backed h u
  | changeAppends i =>
    refine h.keep (.inl ?_) (.inl ?_) hheld
    · simp only [Doc.step, Doc.changeAppends]; split <;> rfl
    · simp only [Doc.step, Doc.changeAppends]; split <;> rfl
  | changeFails i => exact absurd rfl (ha i)
  | writes m =>
    simp only [Doc.step, Doc.writes]
    split
    · exact h
    · split
      · split
        · exact edits_backed h _
        · exact h
      · exact ⟨h.live, h.load⟩
  | writeHydrates =>
    refine h.keep (.inl ?_) (.inl ?_) hheld
    · simp only [Doc.step, Doc.writeHydrates]; split <;> rfl
    · simp only [Doc.step, Doc.writeHydrates]; split <;> rfl
  | writeAppends =>
    refine h.keep (.inl ?_) (.inl ?_) hheld
    · simp only [Doc.step, Doc.writeAppends]; split <;> rfl
    · simp only [Doc.step, Doc.writeAppends]; split <;> rfl
  | writeFails | writeDone => exact h.keep (.inl rfl) (.inl rfl) hheld
  | compacts =>
    refine h.keep (.inl ?_) (.inl ?_) hheld
    · simp only [Doc.step, Doc.compacts]; split <;> rfl
    · simp only [Doc.step, Doc.compacts]; split <;> rfl

/-- only an append changes what is stored -/
theorem step_stored (hlocked : SeedRegister.St.locked a = false) (happend : ∀ i, a ≠ .changeAppends i) :
    stored (d.step text a) = stored d := by
  cases a with
  | loadStarts => simp only [Doc.step, Doc.loadStarts]; split <;> rfl
  | loadReads => simp only [Doc.step, Doc.loadReads]; split <;> rfl
  | loadEnters => simp only [Doc.step, Doc.loadEnters]; split <;> rfl
  | loadFails | unloads | changeFails i => rfl
  | edits u => exact SeedRegister.edits_stored u
  | changeAppends i => exact absurd rfl (happend i)
  | compacts =>
    simp only [Doc.step, Doc.compacts]
    split
    · rfl
    · exact mergeAll_singleton _
  | writes m | writeHydrates | writeAppends | writeFails | writeDone => cases hlocked

/-- the lock is nothing to a step that does not need it -/
theorem step_lock_irrelevant (hlocked : SeedRegister.St.locked a = false) (x : Option LiveDocs.Detached) :
    Doc.step text { d with lock := x } a = { d.step text a with lock := x } ∧
      brings text { d with lock := x } a = brings text d a := by
  cases a with
  | loadStarts =>
    refine ⟨?_, rfl⟩
    simp only [Doc.step, Doc.loadStarts]
    split <;> rfl
  | loadReads =>
    refine ⟨?_, rfl⟩
    simp only [Doc.step, Doc.loadReads]
    split <;> rfl
  | loadEnters =>
    refine ⟨?_, rfl⟩
    simp only [Doc.step, Doc.loadEnters]
    split <;> rfl
  | loadFails | unloads | changeFails i => exact ⟨rfl, rfl⟩
  | edits u =>
    refine ⟨?_, rfl⟩
    simp only [Doc.step, Doc.edits]
    split
    · split <;> rfl
    · rfl
  | changeAppends i =>
    refine ⟨?_, rfl⟩
    simp only [Doc.step, Doc.changeAppends]
    split <;> rfl
  | compacts =>
    refine ⟨?_, rfl⟩
    simp only [Doc.step, Doc.compacts]
    split <;> rfl
  | writes m | writeHydrates | writeAppends | writeFails | writeDone => cases hlocked

end

/-! ## The others -/

namespace St

/-- what a document is, and nothing else, is replaced -/
def setDoc (s : St Id) (docId : Id) (d : Doc) : St Id := { s with docs := Function.update s.docs docId d }

def setLock (s : St Id) (docId : Id) (x : Option LiveDocs.Detached) : St Id :=
  s.setDoc docId { s.docs docId with lock := x }

variable {Y} {s : St Id} {docId : Id}

theorem own_eq (a : LiveDocs.Action) : s.own Y docId a = s.setDoc docId ((s.docs docId).step Y.text a) := rfl

@[simp] theorem setDoc_docs (d : Doc) : (s.setDoc docId d).docs docId = d := Function.update_self _ _ _

theorem setDoc_docs_ne {id : Id} (h : id ≠ docId) (d : Doc) : (s.setDoc docId d).docs id = s.docs id :=
  Function.update_of_ne h _ _

@[simp] theorem setDoc_setDoc (d d' : Doc) : (s.setDoc docId d).setDoc docId d' = s.setDoc docId d' := by
  unfold setDoc
  rw [Function.update_idem]

theorem setDoc_self : s.setDoc docId (s.docs docId) = s := by
  unfold setDoc
  rw [Function.update_eq_self]

theorem setLock_self (h : (s.docs docId).lock = none) : s.setLock docId none = s := by
  unfold setLock
  have hsame : ({ s.docs docId with lock := none } : Doc) = s.docs docId := by rw [← h]
  rw [hsame, setDoc_self]

/-- the others do the same whatever the push does with its lock -/
theorem other_setLock (x : Option LiveDocs.Detached) (a : Id × LiveDocs.Action) :
    (s.setLock docId x).other Y (some docId) a = (s.other Y (some docId) a).setLock docId x := by
  obtain ⟨id, a⟩ := a
  by_cases hwaits : some docId = some id ∧ SeedRegister.St.locked a = true
  · unfold other
    rw [if_pos hwaits, if_pos hwaits]
  unfold other
  rw [if_neg hwaits, if_neg hwaits]
  by_cases hid : id = docId
  · subst hid
    have hfree : SeedRegister.St.locked a = false := Bool.eq_false_iff.2 fun h => hwaits ⟨rfl, h⟩
    obtain ⟨hstep, hbrings⟩ : Doc.step Y.text { s.docs id with lock := x } a =
        { (s.docs id).step Y.text a with lock := x } ∧
        brings Y.text { s.docs id with lock := x } a = brings Y.text (s.docs id) a := step_lock_irrelevant hfree x
    unfold setLock setDoc LiveDocs.step
    dsimp only
    rw [Function.update_self, hstep, hbrings, Function.update_idem, Function.update_self, Function.update_idem]
  · unfold setLock setDoc LiveDocs.step
    dsimp only
    rw [Function.update_of_ne hid, Function.update_of_ne (Ne.symm hid), Function.update_comm hid]

theorem others_setLock (x : Option LiveDocs.Detached) (as : List (Id × LiveDocs.Action)) :
    (s.setLock docId x).others Y (some docId) as = (s.others Y (some docId) as).setLock docId x := by
  induction as generalizing s with
  | nil => rfl
  | cons a as ih =>
    unfold others at *
    rw [foldl_cons, foldl_cons, other_setLock, ih]

theorem others_append (lock : Option Id) (as bs : List (Id × LiveDocs.Action)) :
    s.others Y lock (as ++ bs) = (s.others Y lock as).others Y lock bs := foldl_append ..

theorem other_lock (a : Id × LiveDocs.Action) :
    ((s.other Y (some docId) a).docs docId).lock = (s.docs docId).lock := by
  obtain ⟨id, a⟩ := a
  unfold other
  split
  · rfl
  · next hwaits =>
    by_cases hid : id = docId
    · subst hid
      have hfree : SeedRegister.St.locked a = false := Bool.eq_false_iff.2 fun h => hwaits ⟨rfl, h⟩
      unfold LiveDocs.step
      dsimp only
      rw [Function.update_self]
      exact SeedRegister.step_lock hfree
    · unfold LiveDocs.step
      dsimp only
      rw [Function.update_of_ne (Ne.symm hid)]

/-- the push keeps its lock -/
theorem others_lock (as : List (Id × LiveDocs.Action)) :
    ((s.others Y (some docId) as).docs docId).lock = (s.docs docId).lock := by
  induction as generalizing s with
  | nil => rfl
  | cons a as ih =>
    have hrest := ih (s := s.other Y (some docId) a)
    rw [other_lock] at hrest
    exact hrest

/-- only appends change what is stored -/
theorem others_stored {as : List (Id × LiveDocs.Action)} (h : ∀ i, (docId, LiveDocs.Action.changeAppends i) ∉ as) :
    stored ((s.others Y (some docId) as).docs docId) = stored (s.docs docId) := by
  induction as generalizing s with
  | nil => rfl
  | cons a as ih =>
    have hrest := ih (s := s.other Y (some docId) a) fun i hi => h i (.tail _ hi)
    have hone : stored ((s.other Y (some docId) a).docs docId) = stored (s.docs docId) := by
      obtain ⟨id, a⟩ := a
      unfold other
      split
      · rfl
      · next hwaits =>
        unfold LiveDocs.step
        dsimp only
        by_cases hid : id = docId
        · subst hid
          rw [Function.update_self]
          refine step_stored (Bool.eq_false_iff.2 fun h => hwaits ⟨rfl, h⟩) fun i hi => ?_
          exact h i (hi ▸ .head _)
        · rw [Function.update_of_ne (Ne.symm hid)]
    exact hrest.trans hone

end St

/-! ## One push -/

section

variable {Y} {item : DocApplyItem Id} {turn : Turn Id} {s s' : St Id} {r : DocApplyResult Id}

/-- the row is inserted -/
def St.appended (s : St Id) (docId : Id) (m : Update) : St Id :=
  s.setDoc docId { s.docs docId with log := (s.docs docId).log ++ [m] }

/-- what a push may come to -/
inductive Pushed (Y : Yjs) (item : DocApplyItem Id) (turn : Turn Id) (s : St Id) :
    DocApplyResult Id → St Id → Prop where
  /-- it is held back, or it throws before its row is there -/
  | throws (code : Option String) (against : Option Update) (as : List (Id × LiveDocs.Action)) :
    as <+: turn.hydrates ++ turn.appends → turn.held = true ∨ turn.fault = some .loadDocState ∨
      turn.fault = some .insert ∧ against = some (s.checked Y item turn) ∧ item.taken Y (s.checked Y item turn) ≠ none →
    Pushed Y item turn s ⟨item.docId, .error code, against, none⟩
      ((s.others Y none turn.waits).others Y (some item.docId) as)
  /-- nothing is taken of it -/
  | nothing (as : List (Id × LiveDocs.Action)) : as <+: turn.hydrates ++ turn.appends →
    item.taken Y (s.checked Y item turn) = none →
    Pushed Y item turn s ⟨item.docId, item.outcomeOn Y (s.checked Y item turn), some (s.checked Y item turn), none⟩
      ((s.others Y none turn.waits).others Y (some item.docId) as)
  /-- it comes to the live document -/
  | live (l : LiveDocs.Live) (m : Update) : ((s.others Y none turn.waits).docs item.docId).live = some l →
    item.taken Y l.document = some m →
    Pushed Y item turn s ⟨item.docId, .applied, some l.document, some m⟩
      ((s.others Y none turn.waits).own Y item.docId (.edits m))
  /-- its row is inserted -/
  | stored (outcome : Outcome) (m : Update) : ((s.others Y none turn.waits).docs item.docId).live = none →
    item.taken Y (s.checked Y item turn) = some m →
    outcome = .applied ∨ turn.fault = some .compact ∧ outcome = .error none →
    Pushed Y item turn s ⟨item.docId, outcome, some (s.checked Y item turn), some m⟩
      ((((s.others Y none turn.waits).others Y (some item.docId) (turn.hydrates ++ turn.appends)).appended
        item.docId m).others Y (some item.docId) turn.announces)

theorem outcomeOn_applied {u : Update} (h : item.outcomeOn Y u = .applied) : item.taken Y u ≠ none := by
  unfold DocApplyItem.outcomeOn at h
  unfold DocApplyItem.taken LiveDocs.Doc.captures
  split at h
  · cases h
  · next hopen =>
    have hopen' : ¬ ((item.mutation Y).expectEmpty = true ∧ Y.text u ≠ []) := hopen
    rw [if_neg hopen']
    unfold DocApplyItem.mutation
    dsimp only
    split at h
    · next w hw =>
      split at h
      · next hsome =>
        rw [hw, Option.bind_some]
        exact Option.isSome_iff_ne_none.1 hsome
      · cases h
    · cases h

theorem outcomeOn_taken {u m : Update} (h : item.taken Y u = some m) : item.outcomeOn Y u = .applied := by
  unfold DocApplyItem.taken LiveDocs.Doc.captures at h
  unfold DocApplyItem.outcomeOn
  split at h
  · cases h
  · next hopen =>
    have hbind : item.update.bind (Y.captured u) = some m := h
    obtain ⟨w, hw, hcaptured⟩ := Option.bind_eq_some_iff.1 hbind
    have hopen' : ¬ (item.expectEmpty = true ∧ Y.text u ≠ []) := hopen
    rw [if_neg hopen', hw]
    dsimp only
    rw [hcaptured]
    rfl

theorem applyDetached_pushed {s₁ : St Id} (hs : s₁ = s.others Y none turn.waits)
    (hlock : (s₁.docs item.docId).lock = none) (hlive : (s₁.docs item.docId).live = none) :
    Pushed Y item turn s
      (applyDetached Y item turn (s₁.setLock item.docId (some (.hydrating (item.mutation Y))))).1
      (applyDetached Y item turn (s₁.setLock item.docId (some (.hydrating (item.mutation Y))))).2 := by
  obtain ⟨s₂, hs₂⟩ : ∃ s₂, s₂ = s₁.others Y (some item.docId) turn.hydrates := ⟨_, rfl⟩
  obtain ⟨s₃, hs₃⟩ : ∃ s₃, s₃ = s₂.others Y (some item.docId) turn.appends := ⟨_, rfl⟩
  have hlock₂ : (s₂.docs item.docId).lock = none := by rw [hs₂, St.others_lock, hlock]
  have hlock₃ : (s₃.docs item.docId).lock = none := by rw [hs₃, St.others_lock, hlock₂]
  have hchecked : s.checked Y item turn = stored (s₂.docs item.docId) := by
    unfold St.checked
    dsimp only
    rw [← hs, hlive, hs₂]
  have hread : ∀ x, ((s₂.setLock item.docId x).docs item.docId).loadDocState.getD ⊥ = s.checked Y item turn := by
    intro x
    rw [hchecked]
    unfold St.setLock
    rw [St.setDoc_docs]
    exact loadDocState_getD
  have hprefix₂ : turn.hydrates <+: turn.hydrates ++ turn.appends := prefix_append _ _
  unfold applyDetached
  dsimp only
  rw [St.others_setLock, ← hs₂, hread]
  split
  · -- the state cannot be read
    next hfault =>
    have hdone : (s₂.setLock item.docId (some (.hydrating (item.mutation Y)))).own Y item.docId .writeFails = s₂ := by
      rw [St.own_eq]
      unfold St.setLock
      rw [St.setDoc_setDoc, St.setDoc_docs]
      exact St.setLock_self hlock₂
    rw [hdone, hs₂, hs]
    exact .throws none none turn.hydrates hprefix₂ (.inr (.inl hfault))
  have hhydrated : (s₂.setLock item.docId (some (.hydrating (item.mutation Y)))).own Y item.docId .writeHydrates =
      s₂.setLock item.docId ((item.taken Y (s.checked Y item turn)).map .appending) := by
    rw [St.own_eq, ← hread (some (.hydrating (item.mutation Y)))]
    unfold St.setLock
    rw [St.setDoc_setDoc, St.setDoc_docs]
    rfl
  rw [hhydrated]
  cases htaken : item.taken Y (s.checked Y item turn) with
  | none =>
    dsimp only [Option.map_none]
    rw [St.setLock_self hlock₂, hs₂, hs]
    exact .nothing turn.hydrates hprefix₂ htaken
  | some m =>
    dsimp only [Option.map_some]
    rw [St.others_setLock, ← hs₃]
    split
    · -- the row is not inserted
      next hfault =>
      have hdone : (s₃.setLock item.docId (some (.appending m))).own Y item.docId .writeFails = s₃ := by
        rw [St.own_eq]
        unfold St.setLock
        rw [St.setDoc_setDoc, St.setDoc_docs]
        exact St.setLock_self hlock₃
      rw [hdone, hs₃, hs₂, ← St.others_append, hs]
      exact .throws none _ _ (prefix_refl _) (.inr (.inr ⟨hfault, rfl, by rw [htaken]; simp⟩))
    · have happended : (s₃.setLock item.docId (some (.appending m))).own Y item.docId .writeAppends =
          (s₃.appended item.docId m).setLock item.docId (some .announcing) := by
        rw [St.own_eq]
        unfold St.setLock St.appended
        rw [St.setDoc_setDoc, St.setDoc_setDoc, St.setDoc_docs, St.setDoc_docs]
        rfl
      obtain ⟨s₄, hs₄⟩ : ∃ s₄, s₄ = (s₃.appended item.docId m).others Y (some item.docId) turn.announces := ⟨_, rfl⟩
      have hlock₄ : (s₄.docs item.docId).lock = none := by
        rw [hs₄, St.others_lock]
        unfold St.appended
        rw [St.setDoc_docs]
        exact hlock₃
      have hdone : (s₄.setLock item.docId (some .announcing)).own Y item.docId .writeDone = s₄ := by
        rw [St.own_eq]
        unfold St.setLock
        rw [St.setDoc_setDoc, St.setDoc_docs]
        exact St.setLock_self hlock₄
      rw [happended, St.others_setLock, ← hs₄, hdone, hs₄, hs₃, hs₂, ← St.others_append, hs]
      refine .stored _ m (hs ▸ hlive) htaken ?_
      split
      · next hfault => exact .inr ⟨hfault, rfl⟩
      · exact .inl rfl

/-- **Every push is one of these.** -/
theorem applyDocPush_pushed (h : applyDocPush Y item turn s = some (r, s')) : Pushed Y item turn s r s' := by
  obtain ⟨s₁, hs⟩ : ∃ s₁, s₁ = s.others Y none turn.waits := ⟨_, rfl⟩
  unfold applyDocPush at h
  dsimp only at h
  rw [← hs] at h
  split at h
  · next hheld =>
    cases h
    have hnone : Pushed Y item turn s ⟨item.docId, .error (some "shrink_held"), none, none⟩
        (s.others Y none turn.waits) := .throws (some "shrink_held") none [] nil_prefix (.inl hheld)
    rw [hs]
    exact hnone
  split at h
  · cases h
  · next hfree =>
    have hlock : (s₁.docs item.docId).lock = none := by simpa using hfree
    have hpair := Option.some.inj h
    split at hpair
    · next l hlive =>
      cases hpair
      have hchecked : s.checked Y item turn = l.document := by
        unfold St.checked
        dsimp only
        rw [← hs, hlive]
      have hstep : (s₁.docs item.docId).step Y.text (.writes (item.mutation Y)) =
          match item.taken Y l.document with
          | some m => (s₁.docs item.docId).edits m
          | none => s₁.docs item.docId := by
        simp only [Doc.step, Doc.writes, hlock, hlive]
        rfl
      rw [St.own_eq, hstep]
      cases htaken : item.taken Y l.document with
      | none =>
        rw [St.setDoc_self, hs, ← hchecked]
        rw [← hchecked] at htaken
        exact .nothing [] nil_prefix htaken
      | some m =>
        rw [outcomeOn_taken htaken, hs]
        exact .live l m (hs ▸ hlive) htaken
    · next hlive =>
      have hstep : (s₁.docs item.docId).step Y.text (.writes (item.mutation Y)) =
          { s₁.docs item.docId with lock := some (.hydrating (item.mutation Y)) } := by
        simp only [Doc.step, Doc.writes, hlock, hlive]
      have hlocked : s₁.own Y item.docId (.writes (item.mutation Y)) =
          s₁.setLock item.docId (some (.hydrating (item.mutation Y))) := by
        rw [St.own_eq, hstep]
        rfl
      rw [hlocked] at hpair
      have hresult : r = (applyDetached Y item turn (s₁.setLock item.docId (some (.hydrating (item.mutation Y))))).1 ∧
          s' = (applyDetached Y item turn (s₁.setLock item.docId (some (.hydrating (item.mutation Y))))).2 := by
        rw [hpair]
        exact ⟨rfl, rfl⟩
      rw [hresult.1, hresult.2]
      exact applyDetached_pushed hs hlock hlive

end

section

variable {Y} {item : DocApplyItem Id} {turn : Turn Id} {s s' : St Id} {r : DocApplyResult Id}

theorem checked_live {l : LiveDocs.Live} (h : ((s.others Y none turn.waits).docs item.docId).live = some l) :
    s.checked Y item turn = l.document ∧ s.landing Y item turn = l.document := by
  unfold St.checked St.landing
  dsimp only
  rw [h]
  exact ⟨rfl, rfl⟩

theorem taken_eq_some {u m : Update} (h : item.taken Y u = some m) :
    item.update.bind (Y.captured u) = some m ∧ (item.expectEmpty = true → Y.text u = []) := by
  unfold DocApplyItem.taken LiveDocs.Doc.captures at h
  split at h
  · cases h
  · next hopen =>
    refine ⟨h, fun hseed => ?_⟩
    by_contra htext
    exact hopen ⟨hseed, htext⟩

/-- an update that is there already is not taken -/
theorem taken_known (hY : Y.Lawful) {u w : Update} (hw : item.update = some w) (hle : w ≤ u) :
    item.taken Y u = none ∧ (item.outcomeOn Y u = .skipped ∨
      item.expectEmpty = true ∧ Y.text u ≠ [] ∧ item.outcomeOn Y u = .conflict) := by
  have hknown := hY.known u w hle
  unfold DocApplyItem.taken LiveDocs.Doc.captures DocApplyItem.outcomeOn
  by_cases hconflict : item.expectEmpty = true ∧ Y.text u ≠ []
  · exact ⟨if_pos hconflict, .inr ⟨hconflict.1, hconflict.2, if_pos hconflict⟩⟩
  · refine ⟨?_, .inl ?_⟩
    · rw [if_neg (show ¬ ((item.mutation Y).expectEmpty = true ∧ Y.text u ≠ []) from hconflict)]
      unfold DocApplyItem.mutation
      dsimp only
      rw [hw, Option.bind_some, hknown]
    · rw [if_neg hconflict, hw]
      dsimp only
      rw [hknown]
      rfl

/-- the document that a seed comes to is the one that was checked, unless changes were appended -/
theorem landing_eq (h : ∀ i, (item.docId, LiveDocs.Action.changeAppends i) ∉ turn.appends) :
    s.landing Y item turn = s.checked Y item turn := by
  unfold St.landing St.checked
  dsimp only
  split
  · rfl
  · rw [St.others_append]
    exact St.others_stored h

theorem setDoc_others_ne {docId id : Id} (hid : id ≠ docId) (m : Update) (as : List (Id × LiveDocs.Action)) :
    ((s.appended docId m).others Y (some docId) as).docs id = (s.others Y (some docId) as).docs id := by
  have hother : ∀ (t t' : St Id) (a : Id × LiveDocs.Action), (∀ id, id ≠ docId → t.docs id = t'.docs id) →
      ∀ id, id ≠ docId → (t.other Y (some docId) a).docs id = (t'.other Y (some docId) a).docs id := by
    intro t t' a hsame id hid
    unfold St.other
    split
    · exact hsame id hid
    · unfold LiveDocs.step
      dsimp only
      by_cases ha : id = a.1
      · subst ha
        rw [Function.update_self, Function.update_self, hsame _ hid]
      · rw [Function.update_of_ne ha, Function.update_of_ne ha]
        exact hsame id hid
  have hall : ∀ (t t' : St Id), (∀ id, id ≠ docId → t.docs id = t'.docs id) →
      ∀ id, id ≠ docId → (t.others Y (some docId) as).docs id = (t'.others Y (some docId) as).docs id := by
    induction as with
    | nil => exact fun t t' h => h
    | cons a as ih => exact fun t t' h => ih _ _ (hother t t' a h)
  exact hall _ _ (fun id hid => St.setDoc_docs_ne hid _) id hid

/-- **An item.** -/
theorem applyDocPush_ok (hY : Y.Lawful) (h : applyDocPush Y item turn s = some (r, s')) :
    ItemOk Y item turn s r s' := by
  have happends : turn.hydrates ++ turn.appends <+: turn.hydrates ++ (turn.appends ++ turn.announces) :=
    ⟨turn.announces, append_assoc _ _ _⟩
  cases applyDocPush_pushed h with
  | throws code against as has hwhy =>
    refine {
      took := fun m hm => absurd hm (by simp)
      empty := fun htook => absurd rfl htook
      replay := fun hheld hfault w hw hle => ?_
      nothing := fun _ => ⟨as, has, rfl⟩
      elsewhere := ⟨as, has.trans happends, fun _ _ => rfl⟩
      applied := fun happlied => absurd happlied (by simp)
      told := fun htook => absurd rfl htook }
    rcases hwhy with hheld' | hfault' | ⟨_, _, htaken⟩
    · exact absurd (hheld'.symm.trans hheld) (by simp)
    · exact absurd hfault' hfault
    · exact absurd (taken_known hY hw hle).1 htaken
  | nothing as has htaken =>
    exact {
      took := fun m hm => absurd hm (by simp)
      empty := fun htook => absurd rfl htook
      replay := fun _ _ w hw hle => ⟨rfl, (taken_known hY hw hle).2⟩
      nothing := fun _ => ⟨as, has, rfl⟩
      elsewhere := ⟨as, has.trans happends, fun _ _ => rfl⟩
      applied := fun happlied => absurd (outcomeOn_applied happlied) (by rw [htaken]; simp)
      told := fun htook => absurd rfl htook }
  | live l m hlive htaken =>
    obtain ⟨hchecked, hlanding⟩ := checked_live hlive
    obtain ⟨hcaptured, hempty⟩ := taken_eq_some htaken
    refine {
      took := fun m' hm => ?_
      empty := fun _ hseed _ => hlanding ▸ hempty hseed
      replay := fun _ _ w hw hle => ?_
      nothing := fun hnone => absurd hnone (by simp)
      elsewhere := ⟨[], nil_prefix, fun id hid => St.setDoc_docs_ne hid _⟩
      applied := fun _ => by simp
      told := fun _ => .inl rfl }
    · cases hm
      rw [hchecked]
      exact ⟨rfl, hcaptured, hempty⟩
    · rw [hchecked] at hle
      exact absurd ((taken_known hY hw hle).1.symm.trans htaken) (by simp)
  | stored outcome m hlive htaken houtcome =>
    obtain ⟨hcaptured, hempty⟩ := taken_eq_some htaken
    refine {
      took := fun m' hm => ?_
      empty := fun _ hseed happend => (landing_eq happend) ▸ hempty hseed
      replay := fun _ _ w hw hle => absurd ((taken_known hY hw hle).1.symm.trans htaken) (by simp)
      nothing := fun hnone => absurd hnone (by simp)
      elsewhere := ⟨turn.hydrates ++ (turn.appends ++ turn.announces), prefix_refl _, fun id hid => ?_⟩
      applied := fun _ => by simp
      told := fun _ => houtcome.imp_right And.left }
    · cases hm
      exact ⟨rfl, hcaptured, hempty⟩
    · rw [setDoc_others_ne hid, ← St.others_append, append_assoc]

end

section

variable {Y} {item : DocApplyItem Id} {turn : Turn Id} {s s' : St Id} {r : DocApplyResult Id}

theorem coveredBy_of_le {u w : Update} (hw : item.update = some w) (hle : w ≤ u) (htext : Y.text w = Y.text u) :
    item.coveredBy Y u = true := by
  unfold DocApplyItem.coveredBy
  rw [hw, Option.any_some, Bool.and_eq_true]
  exact ⟨decide_eq_true (covers_of_le hle), decide_eq_true htext⟩

theorem readOnlyPush_ok (h : readOnlyPush Y item turn s = some (r, s')) : ReadOnlyOk Y item turn s r s' := by
  unfold readOnlyPush at h
  dsimp only at h
  split at h
  · cases h
  · split at h
    · cases h
      refine ⟨rfl, ⟨[], nil_prefix, rfl⟩, fun u w hu hw hle htext => ?_⟩
      cases hu
      exact if_pos (coveredBy_of_le hw hle htext)
    · cases h
      refine ⟨rfl, ⟨turn.hydrates, prefix_refl _, rfl⟩, fun u w hu hw hle htext => ?_⟩
      dsimp only at hu ⊢
      rw [hu, Option.any_some]
      exact if_pos (coveredBy_of_le hw hle htext)

end

/-! ## A batch, and its retries -/

/-- every document has in its rows and changes what it had, what the others have brought and what was accepted -/
structure Counted (base : Id → Update) (s : St Id) (acc : Id → Update) : Prop where
  sum : ∀ id, held (s.docs id) = base id ⊔ s.brought id ⊔ acc id
  backed : ∀ id, Backed (s.docs id)

/-- what an item adds to the accepted updates of a document -/
def adds (id : Id) (item : DocApplyItem Id) (r : DocApplyResult Id) : Update :=
  if item.docId = id ∧ r.took.isSome then item.update.getD ⊥ else ⊥

section

variable {Y} {item : DocApplyItem Id} {turn : Turn Id} {s s' : St Id} {r : DocApplyResult Id}
variable {base acc : Id → Update}

variable {lock : Option Id}

theorem Counted.other (h : Counted base s acc) {a : Id × LiveDocs.Action} (ha : ∀ i, a.2 ≠ .changeFails i) :
    Counted base (s.other Y lock a) acc := by
  obtain ⟨docId, a⟩ := a
  unfold St.other
  split
  · exact h
  · refine ⟨fun id => ?_, fun id => ?_⟩
    · unfold LiveDocs.step
      dsimp only
      by_cases hid : id = docId
      · subst hid
        rw [Function.update_self, Function.update_self, held_step ha, h.sum, ← sup_assoc]
        exact sup_right_comm _ _ _
      · rw [Function.update_of_ne hid, Function.update_of_ne hid]
        exact h.sum id
    · unfold LiveDocs.step
      dsimp only
      by_cases hid : id = docId
      · subst hid
        rw [Function.update_self]
        exact step_backed (h.backed id) ha
      · rw [Function.update_of_ne hid]
        exact h.backed id

theorem Counted.others (h : Counted base s acc) {as : List (Id × LiveDocs.Action)}
    (has : ∀ a ∈ as, ∀ i, a.2 ≠ .changeFails i) : Counted base (s.others Y lock as) acc := by
  induction as generalizing s with
  | nil => exact h
  | cons a as ih =>
    exact ih (h.other (has a mem_cons_self)) fun b hb => has b (.tail _ hb)

/-- nothing is lost while the others go on -/
theorem held_others {docId : Id} {as : List (Id × LiveDocs.Action)} (has : ∀ a ∈ as, ∀ i, a.2 ≠ .changeFails i) :
    held (s.docs docId) ≤ held ((s.others Y lock as).docs docId) := by
  induction as generalizing s with
  | nil => exact le_rfl
  | cons a as ih =>
    have hone : held (s.docs docId) ≤ held ((s.other Y lock a).docs docId) := by
      unfold St.other
      split
      · exact le_rfl
      · unfold LiveDocs.step
        dsimp only
        by_cases hid : docId = a.1
        · subst hid
          rw [Function.update_self, held_step (has a mem_cons_self)]
          exact le_sup_left
        · rw [Function.update_of_ne hid]
    exact hone.trans (ih fun b hb => has b (.tail _ hb))

/-- an update is accepted: its document has it in addition -/
theorem Counted.accept (h : Counted base s acc) {d : Doc} {w : Update} (hw : item.update = some w)
    (htook : r.took.isSome = true) (hheld : held d = held (s.docs item.docId) ⊔ w)
    (hbacked : Backed d) : Counted base (s.setDoc item.docId d) fun id => acc id ⊔ adds id item r := by
  refine ⟨fun id => ?_, fun id => ?_⟩
  · unfold adds
    by_cases hid : item.docId = id
    · subst hid
      rw [St.setDoc_docs, hheld, h.sum, if_pos ⟨rfl, htook⟩, hw, sup_assoc]
      rfl
    · rw [St.setDoc_docs_ne (Ne.symm hid), if_neg fun hboth => hid hboth.1, sup_bot_eq]
      exact h.sum id
  · by_cases hid : item.docId = id
    · subst hid
      rw [St.setDoc_docs]
      exact hbacked
    · rw [St.setDoc_docs_ne (Ne.symm hid)]
      exact h.backed id

/-- what is captured brings what the update would, to all that has the document -/
theorem sup_captured (hY : Y.Lawful) {u v w m : Update} (hcaptured : Y.captured u w = some m)
    (hpending : Y.pending u w = false) (hle : u ≤ v) : v ⊔ m = v ⊔ w := by
  have hwhole : u ⊔ m = u ⊔ w := by
    have h := hY.whole u w hpending
    rwa [hcaptured] at h
  calc v ⊔ m = v ⊔ (u ⊔ m) := by rw [← sup_assoc, sup_eq_left.2 hle]
    _ = v ⊔ (u ⊔ w) := by rw [hwhole]
    _ = v ⊔ w := by rw [← sup_assoc, sup_eq_left.2 hle]

theorem Counted.nothing (h : Counted base s acc) (hnone : r.took = none) :
    Counted base s fun id => acc id ⊔ adds id item r := by
  have hadds : ∀ id, adds id item r = ⊥ := by
    intro id
    unfold adds
    rw [hnone]
    exact if_neg (by simp)
  refine ⟨fun id => ?_, h.backed⟩
  rw [hadds, sup_bot_eq]
  exact h.sum id

/-- **Step.** An item adds its update to its document, if it is taken, and nothing else. -/
theorem Counted.push (hY : Y.Lawful) (h : Counted base s acc) (happends : turn.Appends)
    (hpush : applyDocPush Y item turn s = some (r, s'))
    (hwhole : ∀ u ∈ r.against, ∀ w ∈ item.update, Y.pending u w = false) :
    Counted base s' fun id => acc id ⊔ adds id item r := by
  have hwaits : ∀ a ∈ turn.waits, ∀ i, a.2 ≠ .changeFails i := fun a ha => happends a (by simp [ha])
  have hhydrates : ∀ a ∈ turn.hydrates, ∀ i, a.2 ≠ .changeFails i := fun a ha => happends a (by simp [ha])
  have hinserts : ∀ a ∈ turn.appends, ∀ i, a.2 ≠ .changeFails i := fun a ha => happends a (by simp [ha])
  have hannounces : ∀ a ∈ turn.announces, ∀ i, a.2 ≠ .changeFails i := fun a ha => happends a (by simp [ha])
  have hawaits : ∀ a ∈ turn.hydrates ++ turn.appends, ∀ i, a.2 ≠ .changeFails i :=
    fun a ha => (mem_append.1 ha).elim (hhydrates a) (hinserts a)
  have hwaited : Counted base (s.others Y none turn.waits) acc := h.others hwaits
  cases applyDocPush_pushed hpush with
  | throws code against as has hwhy | nothing as has htaken =>
    exact (hwaited.others fun a ha => hawaits a (has.subset ha)).nothing rfl
  | live l m hlive htaken =>
    obtain ⟨w, hw, hcaptured⟩ := Option.bind_eq_some_iff.1 (taken_eq_some htaken).1
    refine hwaited.accept hw rfl ?_ (edits_backed (hwaited.backed _) m)
    have hbrings : editBrings ((s.others Y none turn.waits).docs item.docId) m = m := by
      unfold editBrings
      rw [hlive]
      exact if_neg (hY.fresh _ _ _ hcaptured)
    calc held (Doc.step Y.text ((s.others Y none turn.waits).docs item.docId) (.edits m))
        = held ((s.others Y none turn.waits).docs item.docId) ⊔
          editBrings ((s.others Y none turn.waits).docs item.docId) m := held_edits m
      _ = held ((s.others Y none turn.waits).docs item.docId) ⊔ m := by rw [hbrings]
      _ = held ((s.others Y none turn.waits).docs item.docId) ⊔ w :=
        sup_captured hY hcaptured (hwhole _ rfl w hw) ((hwaited.backed item.docId).live l hlive)
  | stored outcome m hlive htaken houtcome =>
    obtain ⟨w, hw, hcaptured⟩ := Option.bind_eq_some_iff.1 (taken_eq_some htaken).1
    obtain ⟨s₂, hs₂⟩ : ∃ s₂, s₂ = (s.others Y none turn.waits).others Y (some item.docId) turn.hydrates := ⟨_, rfl⟩
    have hread : s.checked Y item turn = stored (s₂.docs item.docId) := by
      unfold St.checked
      dsimp only
      rw [hlive, hs₂]
    have hle : s.checked Y item turn ≤ held ((s₂.others Y (some item.docId) turn.appends).docs item.docId) := by
      rw [hread]
      exact le_sup_left.trans (held_others hinserts)
    rw [St.others_append, ← hs₂]
    have happending : Counted base (s₂.others Y (some item.docId) turn.appends) acc := by
      rw [hs₂, ← St.others_append]
      exact hwaited.others hawaits
    refine Counted.others (happending.accept hw rfl ?_ ?_) hannounces
    · rw [← sup_captured hY hcaptured (hwhole _ rfl w hw) hle]
      unfold held stored
      rw [mergeAll_append, mergeAll_singleton]
      exact sup_right_comm _ _ _
    · refine (happending.backed item.docId).keep (.inl rfl) (.inl rfl) (sup_le_sup_right ?_ _)
      exact SeedRegister.stored_append _ _

theorem accepted_cons (id : Id) (items : List (DocApplyItem Id × Turn Id)) (rs : List (DocApplyResult Id)) :
    mergeAll (accepted id ((item, turn) :: items) (r :: rs)) = adds id item r ⊔ mergeAll (accepted id items rs) := by
  unfold accepted adds
  rw [zip_cons_cons, filterMap_cons]
  split_ifs with hadds
  · cases item.update with
    | none => exact (bot_sup_eq _).symm
    | some w => rfl
  · exact (bot_sup_eq _).symm

/-- **Run.** -/
theorem Counted.batch (hY : Y.Lawful) {items : List (DocApplyItem Id × Turn Id)} {rs : List (DocApplyResult Id)}
    (h : Counted base s acc) (happends : ∀ x ∈ items, x.2.Appends)
    (hrun : applyDocPushBatch Y items s = some (rs, s'))
    (hwhole : ∀ x ∈ items.zip rs, ∀ u ∈ x.2.against, ∀ w ∈ x.1.1.update, Y.pending u w = false) :
    Counted base s' fun id => acc id ⊔ mergeAll (accepted id items rs) := by
  induction items generalizing s acc rs with
  | nil =>
    cases hrun
    exact ⟨fun id => (h.sum id).trans (congrArg (_ ⊔ ·) (sup_bot_eq _).symm), h.backed⟩
  | cons x items ih =>
    unfold applyDocPushBatch at hrun
    split at hrun
    · next r s₁ hpush =>
      obtain ⟨⟨rs', s''⟩, hrest, hpair⟩ := Option.map_eq_some_iff.1 hrun
      cases hpair
      have hfirst := h.push hY (happends _ mem_cons_self) hpush (hwhole _ mem_cons_self)
      have hlast := ih hfirst (fun x hx => happends x (.tail _ hx)) hrest
        fun x hx => hwhole x (.tail _ hx)
      refine ⟨fun id => ?_, hlast.backed⟩
      rw [hlast.sum, accepted_cons, sup_assoc (acc id)]
    · cases hrun

theorem started_counted (logs : Id → List Update) :
    Counted (fun id => mergeAll (logs id)) (started logs) fun _ => ⊥ where
  sum id := by
    rw [sup_bot_eq, show (started logs).brought id = ⊥ from rfl, sup_bot_eq]
    exact sup_bot_eq _
  backed id := ⟨fun l hl => by simp [started, LiveDocs.started] at hl,
    fun state hstate => by simp [started, LiveDocs.started] at hstate⟩

end

/-- **Pushes land once.** Every item, in every state and whatever the others do: it is checked and taken, or left, as
`ItemOk` says, or as `ReadOnlyOk` if its caller may only read. Every sequence of batches and retries: in the end each
document has, in its rows and in the changes that are still to be appended, what it had, what the others have brought
and the updates that were accepted, if no change of a loaded document fails to be appended and no update waits for
operations that are not there. -/
theorem pushes_land_once (hY : Y.Lawful) :
    (∀ (item : DocApplyItem Id) (turn : Turn Id) (s s' : St Id) (r : DocApplyResult Id),
      (applyDocPush Y item turn s = some (r, s') → ItemOk Y item turn s r s') ∧
        (readOnlyPush Y item turn s = some (r, s') → ReadOnlyOk Y item turn s r s')) ∧
    ∀ (logs : Id → List Update) (requests : List (List (DocApplyItem Id × Turn Id))) (rs : List (DocApplyResult Id))
      (s : St Id), applyDocPushBatch Y requests.flatten (started logs) = some (rs, s) →
      (∀ x ∈ requests.flatten, x.2.Appends) →
      (∀ x ∈ requests.flatten.zip rs, ∀ u ∈ x.2.against, ∀ w ∈ x.1.1.update, Y.pending u w = false) →
      ∀ id, held (s.docs id) = mergeAll (logs id) ⊔ s.brought id ⊔ mergeAll (accepted id requests.flatten rs) := by
  refine ⟨fun item turn s s' r => ⟨applyDocPush_ok hY, readOnlyPush_ok⟩, ?_⟩
  intro logs requests rs s hrun happends hwhole id
  have hcounted := (started_counted logs).batch hY happends hrun hwhole
  rw [hcounted.sum, bot_sup_eq]

/-! ## A run -/

section

/-- the text has a letter for each struct that is not deleted -/
def plainYjs : Yjs where
  text u := List.replicate (u.structs \ u.deletes).card 'a'
  captured u w := if w ≤ u then none else some w
  pending _ _ := false

theorem plainYjs_lawful : plainYjs.Lawful where
  known u w hle := if_pos hle
  within u w m h := by
    unfold plainYjs at h
    dsimp only at h
    split at h
    · cases h
    · cases h
      exact le_sup_right
  fresh u w m h := by
    unfold plainYjs at h
    dsimp only at h
    split at h
    · cases h
    · next hnew =>
      cases h
      exact hnew
  whole u w _ := by
    unfold plainYjs
    dsimp only
    split
    · next hle => exact (sup_bot_eq u).trans (sup_eq_left.2 hle).symm
    · rfl

/-- a letter that was typed and deleted -/
def deletedLetter (docId : ℕ) : List Update := if docId = 7 then [⟨{⟨1, 0⟩}, {⟨1, 0⟩}⟩] else []

def letterSeed : DocApplyItem ℕ := ⟨7, some ⟨{⟨2, 0⟩}, ∅⟩, true⟩

/-- a seed, and the same again -/
def retried : List (List (DocApplyItem ℕ × Turn ℕ)) := [[(letterSeed, {})], [(letterSeed, {})]]

theorem retried_lands_once :
    (∃ r s', applyDocPush plainYjs letterSeed {} (started deletedLetter) = some (r, s') ∧
      ItemOk plainYjs letterSeed {} (started deletedLetter) r s') ∧
    ∃ rs s, applyDocPushBatch plainYjs retried.flatten (started deletedLetter) = some (rs, s) ∧
      held (s.docs 7) = mergeAll (deletedLetter 7) ⊔ s.brought 7 ⊔ mergeAll (accepted 7 retried.flatten rs) := by
  have hpush : (applyDocPush plainYjs letterSeed {} (started deletedLetter)).isSome := by decide +kernel
  have hbatch : (applyDocPushBatch plainYjs retried.flatten (started deletedLetter)).isSome := by decide +kernel
  obtain ⟨⟨r, s'⟩, hr⟩ := Option.isSome_iff_exists.1 hpush
  obtain ⟨⟨rs, s⟩, hrs⟩ := Option.isSome_iff_exists.1 hbatch
  have happends : ∀ x ∈ retried.flatten, x.2.Appends := by
    intro x hx a ha
    have hturn : x.2 = {} := by
      rcases mem_pair.1 hx with rfl | rfl
      · rfl
      · rfl
    rw [hturn] at ha
    cases ha
  have hpending : ∀ x ∈ retried.flatten.zip rs, ∀ u ∈ x.2.against, ∀ w ∈ x.1.1.update,
      plainYjs.pending u w = false := fun _ _ _ _ _ _ => rfl
  exact ⟨⟨r, s', hr, ((pushes_land_once plainYjs plainYjs_lawful).1 letterSeed {} _ s' r).1 hr⟩, rs, s, hrs,
    (pushes_land_once plainYjs plainYjs_lawful).2 deletedLetter retried rs s hrs happends hpending 7⟩

/-- a seed lands on content that is stored, its text being empty; sent again it is a conflict and not skipped -/
theorem lands_on_deleted_text : stored ((started deletedLetter).docs 7) ≠ ⊥ ∧
    ((applyDocPushBatch plainYjs retried.flatten (started deletedLetter)).map fun out =>
      out.1.map DocApplyResult.outcome) = some [.applied, .conflict] := by
  decide +kernel

end

end Baalda.DocPushes
