/-
One-step creates of one note (`registry/seed-on-register.ts`, `sync/doc-batch.ts`): a registration that carries the
note's state.

A registration creates the row or finds it, asks whether the server already covers the state (`serverStateCovers`), and
applies it where the text is empty (`applyDocPush` with `expectEmpty`), each under the document's lock and each on its
own; loads, edits, pushes and appends of others go on between them (`LiveDocs`). The answer says whether the state was
seeded, and `classifySeedResult` is what the client makes of it.

`Truthful`: a seeded state is in the server's document with its structs and deletions; any other answer wrote nothing; a
state that was applied before it was sent again is not answered a conflict; of two seeds that were applied only one
shows. `creates_truthful`: in every run whose steps are `Sound` every state is `Truthful`. The four steps that are not:
a check that calls a state covered whose deletions the server lacks, a check whose read fails although the server has
the state, an append that fails after its row is stored, and a document that is loaded or unloaded while it and its log
differ.
-/
import Baalda.Lib.Slots
import Baalda.Server.LiveDocs

namespace Baalda.SeedRegister

open Crdt Crdt.Update List
open LiveDocs (Doc Mutation)

/-- the shared text of a document: what it reads, and which structs carry characters of it. An empty text has none that
is integrated and not deleted. -/
structure SharedText where
  text : Update → LiveDocs.Text
  carries : Crdt.Id → Bool
  empty : ∀ u, text u = [] → ∀ i ∈ u.structs, i.clock < clock u i.client → carries i → i ∈ u.deletes

/-- the whole state of a note, as `encodeStateAsUpdate` gives it: no struct is missing before another -/
structure State where
  update : Update
  gapless : Gapless update

instance : DecidableEq State := fun a b =>
  decidable_of_iff (a.update = b.update) ⟨fun h => by cases a; cases b; cases h; rfl, fun h => h ▸ rfl⟩

inductive Content where
  | applied
  | covered
  | conflict
  | skipped
  | refused
  deriving DecidableEq

/-- the fields of an answer to an item that sent state -/
structure SeedFields where
  seeded : Bool
  content : Content
  reason : Option String
  sv : Option StateVector
  deriving DecidableEq

def seededFields (content : Content) (state : State) : SeedFields :=
  ⟨true, content, if content = .covered then some "covered" else none, some (stateVector state.update)⟩

def unseededFields (reason : String) (content : Content) : SeedFields := ⟨false, content, some reason, none⟩

/-! ## The client -/

inductive BatchStatus where
  | created
  | adopted
  | conflict
  | error
  deriving DecidableEq

inductive SeedNext where
  | seeded
  | merge
  | legacy
  | none
  deriving DecidableEq

/-- `fields` is nothing where the server answered without them -/
def classifySeedResult (status : BatchStatus) (fields : Option SeedFields) (sentState sameId : Bool) : SeedNext :=
  match fields with
  | none => .legacy
  | some f =>
    if ¬ sentState then .legacy
    else if f.seeded ∧ (f.content = .applied ∨ f.content = .covered) then .seeded
    else if f.content = .conflict then .merge
    else if status = .adopted ∧ ¬ sameId then .merge
    else .none

/-! ## The server -/

/-- where a registration is -/
inductive Phase where
  /-- the row was there, and the covered check is next -/
  | checks
  /-- the check has the lock and waits for the stored state -/
  | reading
  /-- the apply is next -/
  | applies
  /-- the detached apply has the lock -/
  | writing
  /-- its update is stored -/
  | written
  | answered (fields : SeedFields)
  deriving DecidableEq

structure Reg where
  state : State
  phase : Phase
  /-- the state had been applied when this registration was sent -/
  resent : Bool
  /-- this registration has put its state into the document -/
  wrote : Bool := false
  deriving DecidableEq

/-- what registering the row came to -/
inductive RowOutcome where
  /-- the row with the item's own id, made or found; `mayEdit` is what `syncPermission` says -/
  | row (mayEdit : Bool)
  /-- adopted onto another id -/
  | adopted
  | refused (reason : String)
  deriving DecidableEq

structure St where
  doc : Doc
  registered : Bool
  regs : List Reg := []
  /-- the registration that has the document's lock -/
  holder : Option ℕ := none
  /-- the states that registrations have applied, the last one first -/
  seeds : List State := []

inductive Action where
  /-- loads, edits, appends, and the writes of others -/
  | server (a : LiveDocs.Action)
  | registers (state : State) (outcome : RowOutcome)
  | checks (i : ℕ)
  | reads (i : ℕ)
  | readFails (i : ℕ)
  /-- `held`: the burst brake holds the user's writes -/
  | applies (i : ℕ) (held : Bool)
  | hydrates (i : ℕ)
  | appends (i : ℕ)
  | fails (i : ℕ)
  | done (i : ℕ)

/-- the document that readers and edits are judged against -/
def document (d : Doc) : Update := d.canonical.getD ⊥

def stored (d : Doc) : Update := mergeAll d.log

/-- `Y.applyUpdate`; nothing is captured where every op is already there -/
def seedOf (state : State) : Mutation := ⟨fun u => if state.update ≤ u then none else some state.update, true⟩

/-- `!compareStateVectors(submitted, server).clientAhead` -/
def covers (server : Update) (state : State) : Bool :=
  decide (StateVector.Covers (stateVector server) (stateVector state.update))

variable (Y : SharedText)

namespace St

variable (s : St)

def setReg (i : ℕ) (r : Reg) : St := { s with regs := s.regs.set i r }

def answer (i : ℕ) (r : Reg) (fields : SeedFields) : St := s.setReg i { r with phase := .answered fields }

/-- nobody has the document's lock -/
def free : Bool := s.holder.isNone && s.doc.lock.isNone

/-- what a write of others may do only when no registration has the lock -/
def locked : LiveDocs.Action → Bool
  | .writes _ | .writeHydrates | .writeAppends | .writeFails | .writeDone => true
  | _ => false

def server (a : LiveDocs.Action) : St :=
  if locked a ∧ s.holder.isSome then s else { s with doc := s.doc.step Y.text a }

def registers (state : State) (outcome : RowOutcome) : St :=
  let reg (phase : Phase) : Reg := ⟨state, phase, decide (state ∈ s.seeds), false⟩
  match outcome with
  | .refused reason => { s with regs := s.regs ++ [reg (.answered (unseededFields reason .refused))] }
  | .adopted => { s with regs := s.regs ++ [reg (.answered (unseededFields "adopted" .skipped))] }
  | .row false => { s with
    registered := true
    regs := s.regs ++ [reg (.answered (unseededFields "no_write_access" .refused))] }
  | .row true => { s with
    registered := true
    -- a row that this call created skips the check
    regs := s.regs ++ [reg (if s.registered then .checks else .applies)] }

section

variable (i : ℕ) (r : Reg)

/-- `serverStateCovers`: the live document answers at once, the stored state is awaited -/
def checks : St :=
  if ¬ s.free then s
  else
    match s.doc.live with
    | some l =>
      if covers l.document r.state then s.answer i r (seededFields .covered r.state)
      else s.setReg i { r with phase := .applies }
    | none => { s.setReg i { r with phase := .reading } with holder := some i }

def reads : St :=
  let s := { s with holder := none }
  if s.doc.loadDocState.any fun u => covers u r.state then s.answer i r (seededFields .covered r.state)
  else s.setReg i { r with phase := .applies }

/-- the check's error counts as not covered -/
def readFails : St := { s.setReg i { r with phase := .applies } with holder := none }

/-- the seed is in the document -/
def seed (phase : Phase) : St :=
  { s.setReg i { r with wrote := true, phase := phase } with seeds := r.state :: s.seeds }

def applies (held : Bool) : St :=
  if held then s.answer i r (unseededFields "shrink_held" .refused)
  else if ¬ s.free then s
  else
    match s.doc.live with
    | some l =>
      if Y.text l.document ≠ [] then s.answer i r (unseededFields "conflict" .conflict)
      else if r.state.update ≤ l.document then s.answer i r (seededFields .covered r.state)
      else { s.seed i r (.answered (seededFields .applied r.state)) with doc := s.doc.writes Y.text (seedOf r.state) }
    | none => { s.setReg i { r with phase := .writing } with
      doc := s.doc.writes Y.text (seedOf r.state)
      holder := some i }

def hydrates : St :=
  match s.doc.lock with
  | some (.hydrating _) =>
    let u := s.doc.loadDocState.getD ⊥
    let doc := s.doc.writeHydrates Y.text
    if Y.text u ≠ [] then { s.answer i r (unseededFields "conflict" .conflict) with doc := doc, holder := none }
    else if r.state.update ≤ u then
      { s.answer i r (seededFields .covered r.state) with doc := doc, holder := none }
    else { s with doc := doc }
  | _ => s

def appends : St :=
  match s.doc.lock with
  | some (.appending _) => { s.seed i r .written with doc := s.doc.writeAppends }
  | _ => s

def fails : St :=
  { s.answer i r (unseededFields "error" .refused) with doc := { s.doc with lock := none }, holder := none }

def done : St :=
  { s.answer i r (seededFields .applied r.state) with doc := { s.doc with lock := none }, holder := none }

end

/-- the registration at `i` takes a step where it is in the phase for it -/
def inPhase (i : ℕ) (phase : Phase) (f : Reg → St) : St :=
  match s.regs[i]? with
  | some r => if r.phase = phase then f r else s
  | none => s

def step : Action → St
  | .server a => s.server Y a
  | .registers state outcome => s.registers state outcome
  | .checks i => s.inPhase i .checks (s.checks i)
  | .reads i => s.inPhase i .reading (s.reads i)
  | .readFails i => s.inPhase i .reading (s.readFails i)
  | .applies i held => s.inPhase i .applies fun r => s.applies Y i r held
  | .hydrates i => s.inPhase i .writing (s.hydrates Y i)
  | .appends i => s.inPhase i .writing (s.appends i)
  | .fails i =>
    match s.regs[i]? with
    | some r => if r.phase = .writing ∨ r.phase = .written then s.fails i r else s
    | none => s
  | .done i => s.inPhase i .written (s.done i)

end St

def run (s : St) (as : List Action) : St := Machine.run (St.step Y) s as

/-- nothing is loaded or in flight; a row that is not there has no content -/
def started (log : List Update) (registered : Bool) : St :=
  { doc := { log := if registered then log else [] }, registered := registered }

/-! ## What is to hold -/

/-- a character of the state is to be seen in the document -/
def Shows (u : Update) (state : State) : Prop := ∃ i ∈ state.update.structs, Y.carries i ∧ i ∉ u.deletes

structure Truthful (s : St) : Prop where
  /-- seeded: every struct and every deletion is in the server's document -/
  seeded : ∀ r ∈ s.regs, ∀ f, r.phase = .answered f → f.seeded = true → r.state.update ≤ document s.doc
  /-- not seeded: nothing was written -/
  nothing : ∀ r ∈ s.regs, ∀ f, r.phase = .answered f → f.seeded = false → r.wrote = false
  /-- the client takes for seeded what the server says is, and nothing else -/
  client : ∀ r ∈ s.regs, ∀ f, r.phase = .answered f → ∀ status sameId,
    classifySeedResult status (some f) true sameId = .seeded ↔ f.seeded = true
  /-- a state that was applied is not a conflict when it is sent again -/
  resent : ∀ r ∈ s.regs, ∀ f, r.phase = .answered f → f.content = .conflict → r.resent = false
  /-- of two seeds one at most shows -/
  apart : s.seeds.Pairwise fun a b => ¬ (Shows Y (document s.doc) a ∧ Shows Y (document s.doc) b)

/-- a step that keeps the answers truthful -/
def Sound (s : St) : Action → Prop
  | .server a => s.doc.Joined a ∧ (a = .unloads → ∀ l ∈ s.doc.live, l.document ≤ stored s.doc)
  | .checks i => ∀ r ∈ s.regs[i]?, ∀ l ∈ s.doc.live, covers l.document r.state →
      r.state.update.deletes ⊆ l.document.deletes
  | .reads i => ∀ r ∈ s.regs[i]?, covers (stored s.doc) r.state →
      r.state.update.deletes ⊆ (document s.doc).deletes
  | .readFails i => ∀ r ∈ s.regs[i]?, ¬ r.state.update ≤ document s.doc
  | .appends i => ∀ r ∈ s.regs[i]?, ∀ l ∈ s.doc.live, r.state.update ≤ l.document
  | .fails i => ∀ r ∈ s.regs[i]?, r.phase ≠ .written
  | _ => True

/-! ## The document under a step -/

section

variable {Y} {d : Doc} {text : Update → LiveDocs.Text}

theorem loadDocState_getD : d.loadDocState.getD ⊥ = stored d := by
  unfold Doc.loadDocState stored
  split
  next hnil => rw [hnil]; rfl
  next => rfl

theorem document_live {l : LiveDocs.Live} (hlive : d.live = some l) : document d = l.document := by
  rw [document, Doc.canonical, hlive]
  rfl

theorem document_stored (hlive : d.live = none) : document d = stored d := by
  rw [document, Doc.canonical, hlive]
  exact loadDocState_getD

theorem stored_le_document (h : d.Agrees) : stored d ≤ document d := by
  cases hlive : d.live with
  | none => exact (document_stored hlive).ge
  | some l =>
    rw [document_live hlive]
    exact mergeAll_le (LiveDocs.agrees_iff.1 h l hlive)

theorem stored_append (log : List Update) (u : Update) : mergeAll log ≤ mergeAll (log ++ [u]) := by
  rw [mergeAll_append]
  exact le_sup_left

theorem edits_stored (u : Update) : stored (d.edits u) = stored d := by
  unfold Doc.edits
  split
  · split
    · rfl
    · rfl
  · rfl

/-- what is stored stays stored -/
theorem stored_mono (a : LiveDocs.Action) : stored d ≤ stored (d.step text a) := by
  cases a with
  | loadStarts => simp only [Doc.step, Doc.loadStarts]; split <;> exact le_rfl
  | loadReads => simp only [Doc.step, Doc.loadReads]; split <;> exact le_rfl
  | loadEnters => simp only [Doc.step, Doc.loadEnters]; split <;> exact le_rfl
  | loadFails | unloads | changeFails i | writeFails | writeDone => exact le_rfl
  | edits u => exact (edits_stored u).ge
  | changeAppends i =>
    simp only [Doc.step, Doc.changeAppends]
    split
    · exact stored_append _ _
    · exact le_rfl
  | writes m =>
    simp only [Doc.step, Doc.writes]
    split
    · exact le_rfl
    · split
      · split
        · exact (edits_stored _).ge
        · exact le_rfl
      · exact le_rfl
  | writeHydrates => simp only [Doc.step, Doc.writeHydrates]; split <;> exact le_rfl
  | writeAppends =>
    simp only [Doc.step, Doc.writeAppends]
    split
    · exact stored_append _ _
    · exact le_rfl
  | compacts =>
    simp only [Doc.step, Doc.compacts]
    split
    · exact le_rfl
    · exact le_sup_left

/-- the live document stays, or has more in it -/
def Grows (d d' : Doc) : Prop := ∀ l ∈ d.live, ∃ l' ∈ d'.live, l.document ≤ l'.document

theorem Grows.same {d' : Doc} (h : d'.live = d.live) : Grows d d' := fun l hl => ⟨l, h ▸ hl, le_rfl⟩

theorem edits_grows (u : Update) : Grows d (d.edits u) := by
  unfold Doc.edits
  intro l hl
  split
  next l' hlive =>
    rw [hlive] at hl
    obtain rfl := Option.some.inj hl
    split
    · exact ⟨l', hlive, le_rfl⟩
    · exact ⟨_, rfl, le_sup_left⟩
  next hnone => exact absurd (hnone.symm.trans hl) (by simp)

/-- a document is loaded only where none is -/
def Single (d : Doc) : Prop := d.load.isSome → d.live = none

theorem edits_load (u : Update) : (d.edits u).load = d.load := by
  unfold Doc.edits
  split
  · split
    · rfl
    · rfl
  · rfl

theorem edits_live_none (u : Update) : (d.edits u).live = none ↔ d.live = none := by
  unfold Doc.edits
  split
  next l hlive =>
    split
    · rfl
    · simp [hlive]
  next => rfl

theorem step_single (h : Single d) (a : LiveDocs.Action) : Single (d.step text a) := by
  unfold Single at h ⊢
  cases a with
  | loadStarts =>
    simp only [Doc.step, Doc.loadStarts]
    split
    next hfree => exact fun _ => hfree.1
    next => exact h
  | loadReads =>
    simp only [Doc.step, Doc.loadReads]
    split
    next hload => exact fun _ => h (by rw [hload]; rfl)
    next => exact h
  | loadEnters =>
    simp only [Doc.step, Doc.loadEnters]
    split
    next => exact fun hsome => absurd hsome (by simp)
    next => exact h
  | loadFails => exact fun hsome => absurd hsome (by simp [Doc.step])
  | unloads => exact fun _ => rfl
  | edits u =>
    simp only [Doc.step]
    rw [edits_load, edits_live_none]
    exact h
  | changeAppends i => simp only [Doc.step, Doc.changeAppends]; split <;> exact h
  | changeFails i | writeFails | writeDone => exact h
  | writes m =>
    simp only [Doc.step, Doc.writes]
    split
    · exact h
    · split
      · split
        · rw [edits_load, edits_live_none]
          exact h
        · exact h
      · exact h
  | writeHydrates => simp only [Doc.step, Doc.writeHydrates]; split <;> exact h
  | writeAppends => simp only [Doc.step, Doc.writeAppends]; split <;> exact h
  | compacts => simp only [Doc.step, Doc.compacts]; split <;> exact h

/-- a step other than an unload keeps what is live, and a load brings a document only where none was -/
theorem step_grows (h : Single d) {a : LiveDocs.Action} (ha : a ≠ .unloads) : Grows d (d.step text a) := by
  cases a with
  | loadStarts => simp only [Doc.step, Doc.loadStarts]; split <;> exact Grows.same rfl
  | loadReads => simp only [Doc.step, Doc.loadReads]; split <;> exact Grows.same rfl
  | loadEnters =>
    simp only [Doc.step, Doc.loadEnters]
    split
    next hload =>
      have hnone := h (by rw [hload]; rfl)
      exact fun l hl => absurd (hnone.symm.trans hl) (by simp)
    next => exact Grows.same rfl
  | loadFails | changeFails i | writeFails | writeDone => exact Grows.same rfl
  | unloads => exact absurd rfl ha
  | edits u => exact edits_grows u
  | changeAppends i => simp only [Doc.step, Doc.changeAppends]; split <;> exact Grows.same rfl
  | writes m =>
    simp only [Doc.step, Doc.writes]
    split
    · exact Grows.same rfl
    · split
      · split
        · exact edits_grows _
        · exact Grows.same rfl
      · exact Grows.same rfl
  | writeHydrates => simp only [Doc.step, Doc.writeHydrates]; split <;> exact Grows.same rfl
  | writeAppends => simp only [Doc.step, Doc.writeAppends]; split <;> exact Grows.same rfl
  | compacts => simp only [Doc.step, Doc.compacts]; split <;> exact Grows.same rfl

/-- what a step leaves of the document and its log -/
structure Goes (d d' : Doc) : Prop where
  ok : d'.Ok
  agrees : d'.Agrees
  single : Single d'
  document : document d ≤ document d'
  stored : stored d ≤ stored d'

/-- **The server's document grows.** -/
theorem step_goes (hok : d.Ok) (hagrees : d.Agrees) (hsingle : Single d) (a : LiveDocs.Action) (hjoined : d.Joined a)
    (hunload : a = .unloads → ∀ l ∈ d.live, l.document ≤ SeedRegister.stored d) : Goes d (d.step text a) := by
  have hagrees' : (d.step text a).Agrees := (LiveDocs.step_agrees hok hagrees a).2 hjoined
  refine ⟨LiveDocs.step_ok hok a, hagrees', step_single hsingle a, ?_, stored_mono a⟩
  cases hlive : d.live with
  | none =>
    calc document d = stored d := document_stored hlive
      _ ≤ stored (d.step text a) := stored_mono a
      _ ≤ document (d.step text a) := stored_le_document hagrees'
  | some l =>
    rw [document_live hlive]
    by_cases ha : a = .unloads
    · calc l.document ≤ stored d := hunload ha l hlive
        _ ≤ stored (d.step text a) := stored_mono a
        _ ≤ document (d.step text a) := stored_le_document hagrees'
    · have hgrows : Grows d (d.step text a) := step_grows hsingle ha
      obtain ⟨l', hl', hle⟩ := hgrows l hlive
      rw [document_live hl']
      exact hle

end

/-! ## What every step keeps -/

/-- none of the state's characters is to be seen -/
def Dead (u : Update) (state : State) : Prop := ∀ i ∈ state.update.structs, Y.carries i → i ∈ u.deletes

/-- what a registration's phase says, against the server's document `u`; `held` when it has the lock -/
def PhaseOk (u : Update) (seeds : List State) (held : Prop) (r : Reg) : Phase → Prop
  | .checks => r.wrote = false
  | .reading => r.wrote = false ∧ held
  | .applies => r.wrote = false ∧ r.resent = false
  | .writing => r.wrote = false ∧ r.resent = false ∧ held
  | .written => r.state ∈ seeds ∧ held
  | .answered f => (f.seeded = true → r.state.update ≤ u ∧ (f.content = .applied ∨ f.content = .covered)) ∧
      (f.seeded = false → r.wrote = false) ∧ (f.content = .conflict → r.resent = false)

/-- a registration, against the server's document -/
structure RegOk (u : Update) (seeds : List State) (held registered : Prop) (r : Reg) : Prop where
  /-- what had been applied is there, and is not nothing -/
  resent : r.resent = true → r.state.update ≤ u ∧ r.state.update ≠ ⊥
  phase : PhaseOk u seeds held r r.phase
  row : (∀ f, r.phase ≠ .answered f) → registered

/-- what the registration that has the lock relies on -/
inductive Holds (d : Doc) (seeds : List State) (r : Reg) : Prop where
  | reading (hphase : r.phase = .reading) (hlock : d.lock = none)
      (hresent : r.resent = true → r.state.update ≤ stored d)
  | hydrating (hphase : r.phase = .writing) (hlock : d.lock = some (.hydrating (seedOf r.state)))
      (hseeds : ∀ a ∈ seeds, a.update ≤ stored d)
  | appending (hphase : r.phase = .writing) (hlock : d.lock = some (.appending r.state.update))
      (hdead : ∀ a ∈ seeds, Dead Y (document d) a) (hsome : r.state.update ≠ ⊥)
  | announcing (hphase : r.phase = .written) (hlock : d.lock = some .announcing)

structure Inv (s : St) : Prop where
  ok : s.doc.Ok
  agrees : s.doc.Agrees
  single : Single s.doc
  fresh : s.registered = false → s.seeds = []
  seeds : ∀ a ∈ s.seeds, a.update ≤ document s.doc ∧ a.update ≠ ⊥
  /-- of the seeds only the last one shows -/
  settled : ∀ a ∈ s.seeds.tail, Dead Y (document s.doc) a
  regs : ∀ i r, s.regs[i]? = some r → RegOk (document s.doc) s.seeds (s.holder = some i) (s.registered = true) r
  holder : ∀ i, s.holder = some i → ∃ r, s.regs[i]? = some r ∧ Holds Y s.doc s.seeds r

section

variable {Y} {s s' : St} {i : ℕ} {r r' : Reg} {u u' : Update}

variable {a : State}

theorem Dead.mono (h : Dead Y u a) (hle : u ≤ u') : Dead Y u' a := fun i hi hc => hle.2 (h i hi hc)

/-- where the text is empty, no state that is in the document shows -/
theorem dead_of_empty (htext : Y.text u = []) (hle : a.update ≤ u) : Dead Y u a := by
  intro i hi hcarries
  exact Y.empty u htext i (hle.1 hi) ((a.gapless i hi).trans_le (clock_mono hle _)) hcarries

theorem covers_self (hle : a.update ≤ u) : covers u a = true := decide_eq_true (covers_of_le hle)

/-- a covered state lacks at most deletions -/
theorem le_of_covers (h : covers u a = true) (hle : u ≤ u') (hdeletes : a.update.deletes ⊆ u'.deletes) :
    a.update ≤ u' := by
  refine ⟨fun i hi => hle.1 ?_, hdeletes⟩
  apply structs_subset_of_covers (of_decide_eq_true h) hi
  rw [parked_eq_empty a.gapless]
  exact Finset.notMem_empty i

variable {seeds seeds' : List State} {held' : Prop}

theorem PhaseOk.mono {held : Prop} {p : Phase} (h : PhaseOk u seeds held r p) (hle : u ≤ u') (hseeds : seeds ⊆ seeds')
    (hheld : held → held') : PhaseOk u' seeds' held' r p := by
  cases p with
  | checks | applies => exact h
  | reading => exact ⟨h.1, hheld h.2⟩
  | writing => exact ⟨h.1, h.2.1, hheld h.2.2⟩
  | written => exact ⟨hseeds h.1, hheld h.2⟩
  | answered f => exact ⟨fun hf => ⟨(h.1 hf).1.trans hle, (h.1 hf).2⟩, h.2⟩

theorem RegOk.mono {held row row' : Prop} (h : RegOk u seeds held row r) (hle : u ≤ u') (hseeds : seeds ⊆ seeds')
    (hheld : held → held') (hrow : row → row') : RegOk u' seeds' held' row' r :=
  ⟨fun hr => ⟨(h.resent hr).1.trans hle, (h.resent hr).2⟩, h.phase.mono hle hseeds hheld, fun hp => hrow (h.row hp)⟩

/-- one registration changes, the others stay -/
theorem Inv.set (h : Inv Y s) {holder : Option ℕ} (hle : document s.doc ≤ u) (hseeds : s.seeds ⊆ seeds)
    (hheld : ∀ j, j ≠ i → s.holder = some j → holder = some j)
    (hr' : RegOk u seeds (holder = some i) (s.registered = true) r') :
    ∀ j q, (s.regs.set i r')[j]? = some q → RegOk u seeds (holder = some j) (s.registered = true) q := by
  intro j q hq
  by_cases hij : i = j
  · subst hij
    obtain ⟨hlt, hq⟩ := List.getElem?_eq_some_iff.1 hq
    rw [List.getElem_set_self] at hq
    exact hq ▸ hr'
  · rw [List.getElem?_set_ne hij] at hq
    exact (h.regs j q hq).mono hle hseeds (hheld j (Ne.symm hij)) id

/-- the answers that write nothing and seed nothing -/
theorem regOk_unseeded {held row row' : Prop} (h : RegOk u seeds held row r) (hwrote : r.wrote = false)
    {reason : String} {content : Content} (hconflict : content = .conflict → r.resent = false) (hle : u ≤ u') :
    RegOk u' seeds' held' row' { r with phase := .answered (unseededFields reason content) } :=
  ⟨fun hr => ⟨(h.resent hr).1.trans hle, (h.resent hr).2⟩, ⟨fun hf => (nomatch hf), fun _ => hwrote, hconflict⟩,
    fun hp => absurd rfl (hp _)⟩

theorem regOk_seeded {held row row' : Prop} (h : RegOk u seeds held row r) {content : Content}
    (hcontent : content = .applied ∨ content = .covered) (hle : u ≤ u') (hin : r.state.update ≤ u') {wrote : Bool} :
    RegOk u' seeds' held' row' { r with wrote := wrote, phase := .answered (seededFields content r.state) } := by
  refine ⟨fun hr => ⟨(h.resent hr).1.trans hle, (h.resent hr).2⟩,
    ⟨fun _ => ⟨hin, hcontent⟩, fun hf => (nomatch hf), ?_⟩, fun hp => absurd rfl (hp _)⟩
  intro hconflict
  rcases hcontent with rfl | rfl
  · cases hconflict
  · cases hconflict

/-! ## Steps -/

variable {d : Doc}

theorem edits_lock (u : Update) : (d.edits u).lock = d.lock := by
  unfold Doc.edits
  split
  · split
    · rfl
    · rfl
  · rfl

theorem step_lock {text : Update → LiveDocs.Text} {a : LiveDocs.Action} (ha : St.locked a = false) :
    (d.step text a).lock = d.lock := by
  cases a with
  | loadStarts => simp only [Doc.step, Doc.loadStarts]; split <;> rfl
  | loadReads => simp only [Doc.step, Doc.loadReads]; split <;> rfl
  | loadEnters => simp only [Doc.step, Doc.loadEnters]; split <;> rfl
  | loadFails | unloads | changeFails i => rfl
  | edits u => exact edits_lock u
  | changeAppends i => simp only [Doc.step, Doc.changeAppends]; split <;> rfl
  | compacts => simp only [Doc.step, Doc.compacts]; split <;> rfl
  | writes m | writeHydrates | writeAppends | writeFails | writeDone => cases ha

variable {d' : Doc}

theorem Holds.mono (h : Holds Y d seeds r) (hgoes : Goes d d') (hlock : d'.lock = d.lock) : Holds Y d' seeds r := by
  cases h with
  | reading hphase hl hresent => exact .reading hphase (hlock.trans hl) fun hr => (hresent hr).trans hgoes.stored
  | hydrating hphase hl hseeds =>
    exact .hydrating hphase (hlock.trans hl) fun a ha => (hseeds a ha).trans hgoes.stored
  | appending hphase hl hdead hsome =>
    exact .appending hphase (hlock.trans hl) (fun a ha => (hdead a ha).mono hgoes.document) hsome
  | announcing hphase hl => exact .announcing hphase (hlock.trans hl)

/-- nothing is seeded: what is left to show is about the registrations and the lock -/
theorem Inv.unseeded (h : Inv Y s) (hgoes : Goes s.doc s'.doc) (hseeds : s'.seeds = s.seeds)
    (hrow : s'.registered = s.registered)
    (hregs : ∀ j q, s'.regs[j]? = some q →
      RegOk (document s'.doc) s.seeds (s'.holder = some j) (s.registered = true) q)
    (hholder : ∀ j, s'.holder = some j → ∃ q, s'.regs[j]? = some q ∧ Holds Y s'.doc s.seeds q) : Inv Y s' where
  ok := hgoes.ok
  agrees := hgoes.agrees
  single := hgoes.single
  fresh hno := hseeds.trans (h.fresh (hrow.symm.trans hno))
  seeds a ha := by
    rw [hseeds] at ha
    exact ⟨(h.seeds a ha).1.trans hgoes.document, (h.seeds a ha).2⟩
  settled a ha := by
    rw [hseeds] at ha
    exact (h.settled a ha).mono hgoes.document
  regs j q hq := by
    rw [hseeds, hrow]
    exact hregs j q hq
  holder j hj := by
    rw [hseeds]
    exact hholder j hj

theorem Goes.refl (h : Inv Y s) : Goes s.doc s.doc := ⟨h.ok, h.agrees, h.single, le_rfl, le_rfl⟩

/-- the document goes on, and whoever has its lock keeps it -/
theorem Inv.doc (h : Inv Y s) (hgoes : Goes s.doc d') (hlock : s.holder.isSome → d'.lock = s.doc.lock) :
    Inv Y { s with doc := d' } := by
  refine h.unseeded hgoes rfl rfl ?_ ?_
  · exact fun j q hq => (h.regs j q hq).mono hgoes.document (List.Subset.refl _) id id
  · intro j hj
    obtain ⟨q, hq, hholds⟩ := h.holder j hj
    have hsome : s.holder.isSome = true := Option.isSome_iff_exists.2 ⟨j, hj⟩
    exact ⟨q, hq, hholds.mono hgoes (hlock hsome)⟩

theorem server_inv (h : Inv Y s) {a : LiveDocs.Action} (hok : Sound s (.server a)) : Inv Y (s.server Y a) := by
  rw [St.server]
  split
  next => exact h
  next hno =>
    apply h.doc (step_goes h.ok h.agrees h.single a hok.1 hok.2)
    intro hholder
    apply step_lock
    exact Bool.eq_false_iff.2 fun hlocked => hno ⟨hlocked, hholder⟩

/-- one more registration -/
theorem Inv.add (h : Inv Y s) {registered : Bool} (hfresh : registered = false → s.registered = false)
    (hr : RegOk (document s.doc) s.seeds False (registered = true) r) :
    Inv Y { s with registered := registered, regs := s.regs ++ [r] } where
  ok := h.ok
  agrees := h.agrees
  single := h.single
  fresh hno := h.fresh (hfresh hno)
  seeds := h.seeds
  settled := h.settled
  regs j q hq := by
    rcases List.getElem?_snoc.1 hq with hq | ⟨-, rfl⟩
    · apply (h.regs j q hq).mono le_rfl (List.Subset.refl _) id
      intro hrow
      by_contra hno
      exact absurd hrow (by simp [hfresh (Bool.eq_false_iff.2 hno)])
    · exact hr.mono le_rfl (List.Subset.refl _) False.elim id
  holder j hj := by
    obtain ⟨q, hq, hholds⟩ := h.holder j hj
    exact ⟨q, List.getElem?_snoc_of hq _, hholds⟩

theorem registers_inv (h : Inv Y s) (state : State) (outcome : RowOutcome) : Inv Y (s.registers state outcome) := by
  have hresent : ∀ p : Phase, (⟨state, p, decide (state ∈ s.seeds), false⟩ : Reg).resent = true →
      state.update ≤ document s.doc ∧ state.update ≠ ⊥ := fun _ hr => h.seeds state (of_decide_eq_true hr)
  have hunseeded : ∀ (registered : Prop) (reason : String) (content : Content), content ≠ .conflict →
      RegOk (document s.doc) s.seeds False registered
        ⟨state, .answered (unseededFields reason content), decide (state ∈ s.seeds), false⟩ := by
    intro registered reason content hne
    exact ⟨hresent _, ⟨fun hf => (nomatch hf), fun _ => rfl, fun hc => absurd hc hne⟩, fun hp => absurd rfl (hp _)⟩
  cases outcome with
  | refused reason => exact h.add id (hunseeded _ reason .refused (by decide))
  | adopted => exact h.add id (hunseeded _ "adopted" .skipped (by decide))
  | row mayEdit =>
    cases mayEdit with
    | false => exact h.add (fun hf => absurd hf (by decide)) (hunseeded _ "no_write_access" .refused (by decide))
    | true =>
      have hnew : RegOk (document s.doc) s.seeds False (true = true)
          ⟨state, if s.registered then .checks else .applies, decide (state ∈ s.seeds), false⟩ := by
        refine ⟨hresent _, ?_, fun _ => rfl⟩
        split
        next => exact rfl
        next hnot =>
          refine ⟨rfl, ?_⟩
          change decide (state ∈ s.seeds) = false
          rw [h.fresh (Bool.eq_false_iff.2 hnot)]
          exact decide_eq_false not_mem_nil
      exact h.add (fun hf => absurd hf (by decide)) hnew

theorem free_iff : s.free = true ↔ s.holder = none ∧ s.doc.lock = none := by
  simp [St.free, Option.isNone_iff_eq_none]

/-- a registration changes that takes no lock and seeds nothing -/
theorem Inv.setReg (h : Inv Y s) (hfree : ∀ j, s.holder = some j → j ≠ i)
    (hr' : RegOk (document s.doc) s.seeds False (s.registered = true) r') : Inv Y (s.setReg i r') := by
  refine h.unseeded (Goes.refl h) rfl rfl ?_ ?_
  · apply h.set le_rfl (List.Subset.refl _) (fun _ _ hj => hj)
    exact hr'.mono le_rfl (List.Subset.refl _) False.elim id
  · intro j hj
    obtain ⟨q, hq, hholds⟩ := h.holder j hj
    refine ⟨q, ?_, hholds⟩
    change (s.regs.set i r')[j]? = some q
    rw [getElem?_set_ne (hfree j hj).symm]
    exact hq

/-- the registration that has the lock changes, gives it back, and seeds nothing -/
theorem Inv.release (h : Inv Y s) (hheld : s.holder = some i) (hgoes : Goes s.doc d')
    (hr' : RegOk (document d') s.seeds False (s.registered = true) r') :
    Inv Y { s.setReg i r' with doc := d', holder := none } := by
  refine h.unseeded hgoes rfl rfl ?_ ?_
  · apply h.set hgoes.document (List.Subset.refl _)
    · exact fun j hne hj => absurd (Option.some.inj (hj.symm.trans hheld)) hne
    · exact hr'.mono le_rfl (List.Subset.refl _) False.elim id
  · exact fun j hj => (nomatch hj)

/-- a registration takes the lock -/
theorem Inv.acquire (h : Inv Y s) (hfree : s.holder = none) (hlt : i < s.regs.length) (hgoes : Goes s.doc d')
    (hr' : RegOk (document d') s.seeds True (s.registered = true) r') (hholds : Holds Y d' s.seeds r') :
    Inv Y { s.setReg i r' with doc := d', holder := some i } := by
  refine h.unseeded hgoes rfl rfl ?_ ?_
  · apply h.set hgoes.document (List.Subset.refl _)
    · exact fun j _ hj => absurd (hj.symm.trans hfree) (by simp)
    · exact hr'.mono le_rfl (List.Subset.refl _) (fun _ => rfl) id
  · intro j hj
    cases hj
    exact ⟨r', getElem?_set_self hlt, hholds⟩

theorem not_holder (h : Inv Y s) (hi : s.regs[i]? = some r)
    (hphase : r.phase = .checks ∨ r.phase = .applies ∨ ∃ f, r.phase = .answered f) :
    ∀ j, s.holder = some j → j ≠ i := by
  rintro j hj rfl
  obtain ⟨q, hq, hholds⟩ := h.holder j hj
  cases hi.symm.trans hq
  cases hholds with
  | reading hp | hydrating hp | appending hp | announcing hp => simp [hp] at hphase

theorem checks_inv (h : Inv Y s) (hi : s.regs[i]? = some r) (hphase : r.phase = .checks)
    (hok : Sound s (.checks i)) : Inv Y (s.checks i r) := by
  have hreg := h.regs i r hi
  have hwrote : r.wrote = false := by
    have hp := hreg.phase
    rw [hphase] at hp
    exact hp
  have hrow : s.registered = true := hreg.row fun f hf => by simp [hphase] at hf
  have hnot := not_holder h hi (.inl hphase)
  rw [St.checks]
  split
  next => exact h
  next hfree =>
    obtain ⟨hholder, hlock⟩ := free_iff.1 (not_not.1 hfree)
    split
    next l hlive =>
      have hdoc := document_live hlive
      split
      next hcovers =>
        apply h.setReg hnot
        apply regOk_seeded hreg (.inr rfl) le_rfl
        rw [hdoc]
        exact le_of_covers hcovers le_rfl (hok r hi l hlive hcovers)
      next hcovers =>
        apply h.setReg hnot
        refine ⟨hreg.resent, ⟨hwrote, ?_⟩, fun _ => hrow⟩
        by_contra hresent
        have hle := (hreg.resent (Bool.eq_true_of_not_eq_false hresent)).1
        rw [hdoc] at hle
        exact hcovers (covers_self hle)
    next hlive =>
      apply h.acquire hholder (List.getElem?_eq_some_iff.1 hi).1 (Goes.refl h)
      · exact ⟨hreg.resent, ⟨hwrote, trivial⟩, fun _ => hrow⟩
      · refine .reading rfl hlock fun hresent => ?_
        rw [← document_stored hlive]
        exact (hreg.resent hresent).1

theorem any_covers : (d.loadDocState.any fun u => covers u a) = true ↔ d.log ≠ [] ∧ covers (stored d) a = true := by
  unfold Doc.loadDocState stored
  split
  next hnil => simp [hnil]
  next hne => simp [hne]

/-- a state that is not nothing is stored only in a log that has something -/
theorem log_ne_nil (hle : u ≤ stored d) (hsome : u ≠ ⊥) : d.log ≠ [] := by
  intro hnil
  apply hsome
  rw [stored, hnil, mergeAll_nil] at hle
  exact le_bot_iff.1 hle

/-- the lock's holder, in the phase that it is in -/
theorem held (h : Inv Y s) (hi : s.regs[i]? = some r) (hholder : s.holder = some i) : Holds Y s.doc s.seeds r := by
  obtain ⟨q, hq, hholds⟩ := h.holder i hholder
  cases hi.symm.trans hq
  exact hholds

theorem reads_inv (h : Inv Y s) (hi : s.regs[i]? = some r) (hphase : r.phase = .reading) (hok : Sound s (.reads i)) :
    Inv Y (s.reads i r) := by
  have hreg := h.regs i r hi
  have hp := hreg.phase
  rw [hphase] at hp
  obtain ⟨hwrote, hholder⟩ := hp
  have hrow : s.registered = true := hreg.row fun f hf => by simp [hphase] at hf
  rw [St.reads]
  split
  next hcovers =>
    apply h.release hholder (Goes.refl h)
    apply regOk_seeded hreg (.inr rfl) le_rfl
    obtain ⟨_, hcovers⟩ := any_covers.1 hcovers
    exact le_of_covers hcovers (stored_le_document h.agrees) (hok r hi hcovers)
  next hcovers =>
    apply h.release hholder (Goes.refl h)
    refine ⟨hreg.resent, ⟨hwrote, ?_⟩, fun _ => hrow⟩
    by_contra hresent
    have hsent : r.resent = true := Bool.eq_true_of_not_eq_false hresent
    apply hcovers
    cases held h hi hholder with
    | reading _ _ hstored =>
      have hle := hstored hsent
      exact any_covers.2 ⟨log_ne_nil hle (hreg.resent hsent).2, covers_self hle⟩
    | hydrating hp | appending hp | announcing hp => simp [hphase] at hp

theorem readFails_inv (h : Inv Y s) (hi : s.regs[i]? = some r) (hphase : r.phase = .reading)
    (hok : Sound s (.readFails i)) : Inv Y (s.readFails i r) := by
  have hreg := h.regs i r hi
  have hp := hreg.phase
  rw [hphase] at hp
  obtain ⟨hwrote, hholder⟩ := hp
  have hrow : s.registered = true := hreg.row fun f hf => by simp [hphase] at hf
  apply h.release hholder (Goes.refl h)
  refine ⟨hreg.resent, ⟨hwrote, ?_⟩, fun _ => hrow⟩
  by_contra hresent
  exact hok r hi (hreg.resent (Bool.eq_true_of_not_eq_false hresent)).1

/-! ## The apply -/

theorem writes_detached (hlock : d.lock = none) (hlive : d.live = none) (m : Mutation) :
    d.writes Y.text m = { d with lock := some (.hydrating m) } := by
  unfold Doc.writes
  rw [hlock, hlive]

theorem writes_live {l : LiveDocs.Live} (hlock : d.lock = none) (hlive : d.live = some l)
    (htext : Y.text l.document = []) (hnew : ¬ a.update ≤ l.document) :
    d.writes Y.text (seedOf a) = d.edits a.update := by
  unfold Doc.writes
  rw [hlock, hlive]
  have hcaptures : Doc.captures Y.text (seedOf a) l.document = some a.update := by
    rw [Doc.captures, if_neg fun hand => hand.2 htext]
    exact if_neg hnew
  dsimp only
  rw [hcaptures]

theorem ne_bot_of_not_le (h : ¬ u ≤ u') : u ≠ ⊥ := by
  rintro rfl
  exact h bot_le

section

variable (h : Inv Y s) (hi : s.regs[i]? = some r)

include h hi

/-- a registration's state is applied, where no other seed shows any more -/
theorem Inv.seed (hrow : s.registered = true)
    (hheld : ∀ j, s.holder = some j → j = i) (hgoes : Goes s.doc d') (hin : r.state.update ≤ document d')
    (hsome : r.state.update ≠ ⊥) (hdead : ∀ a ∈ s.seeds, Dead Y (document d') a) {p : Phase}
    (hr' : RegOk (document d') (r.state :: s.seeds) (s.holder = some i) (s.registered = true) { r with wrote := true, phase := p })
    (hholds : s.holder = some i → Holds Y d' (r.state :: s.seeds) { r with wrote := true, phase := p }) :
    Inv Y { s.seed i r p with doc := d' } where
  ok := hgoes.ok
  agrees := hgoes.agrees
  single := hgoes.single
  fresh hno := absurd (hrow.symm.trans hno) (by decide)
  seeds a ha := by
    rcases List.mem_cons.1 ha with rfl | ha
    · exact ⟨hin, hsome⟩
    · exact ⟨(h.seeds a ha).1.trans hgoes.document, (h.seeds a ha).2⟩
  settled := hdead
  regs := h.set hgoes.document (List.subset_cons_self _ _) (fun _ _ hj => hj) hr'
  holder j hj := by
    obtain rfl := hheld j hj
    exact ⟨_, List.getElem?_set_self (List.getElem?_eq_some_iff.1 hi).1, hholds hj⟩

theorem applies_inv (hphase : r.phase = .applies) (held : Bool) : Inv Y (s.applies Y i r held) := by
  have hreg := h.regs i r hi
  have hp := hreg.phase
  rw [hphase] at hp
  obtain ⟨hwrote, hresent⟩ := hp
  have hrow : s.registered = true := hreg.row fun f hf => by simp [hphase] at hf
  have hnot := not_holder h hi (.inr (.inl hphase))
  rw [St.applies]
  split
  next =>
    apply h.setReg hnot
    exact regOk_unseeded hreg hwrote (fun hc => absurd hc (by decide)) le_rfl
  next =>
    split
    next => exact h
    next hfree =>
      obtain ⟨hholder, hlock⟩ := free_iff.1 (not_not.1 hfree)
      have hgoes : Goes s.doc (s.doc.step Y.text (.writes (seedOf r.state))) :=
        step_goes h.ok h.agrees h.single _ trivial fun hun => (nomatch hun)
      change Goes s.doc (s.doc.writes Y.text (seedOf r.state)) at hgoes
      split
      next l hlive =>
        have hdoc := document_live hlive
        split
        next => exact h.setReg hnot (regOk_unseeded hreg hwrote (fun _ => hresent) le_rfl)
        next htext =>
          split
          next hle =>
            apply h.setReg hnot
            exact regOk_seeded hreg (.inr rfl) le_rfl (hdoc ▸ hle)
          next hnew =>
            have hin : r.state.update ≤ document (s.doc.writes Y.text (seedOf r.state)) := by
              rw [writes_live hlock hlive (not_not.1 htext) hnew, Doc.edits, hlive]
              dsimp only
              rw [if_neg hnew]
              exact le_sup_right
            have hdead : ∀ a ∈ s.seeds, Dead Y (document (s.doc.writes Y.text (seedOf r.state))) a := by
              intro a ha
              apply (dead_of_empty (not_not.1 htext) _).mono (hdoc ▸ hgoes.document)
              exact hdoc ▸ (h.seeds a ha).1
            apply h.seed hi hrow (fun j hj => absurd (hj.symm.trans hholder) (by simp)) hgoes hin
              (ne_bot_of_not_le hnew) hdead
            · exact regOk_seeded hreg (.inl rfl) hgoes.document hin
            · exact fun hj => absurd (hj.symm.trans hholder) (by simp)
      next hlive =>
        apply h.acquire hholder (List.getElem?_eq_some_iff.1 hi).1 hgoes
        · exact ⟨fun hr => absurd (hresent.symm.trans hr) (by decide), ⟨hwrote, hresent, trivial⟩, fun _ => hrow⟩
        · refine .hydrating rfl (by rw [writes_detached hlock hlive]) fun a ha => ?_
          calc a.update ≤ document s.doc := (h.seeds a ha).1
            _ = stored s.doc := document_stored hlive
            _ ≤ stored (s.doc.writes Y.text (seedOf r.state)) := hgoes.stored

/-- what a registration in the detached apply has: the lock, and nothing written yet -/
theorem writing_facts (hphase : r.phase = .writing) :
    r.wrote = false ∧ r.resent = false ∧ s.holder = some i ∧ s.registered = true := by
  have hreg := h.regs i r hi
  have hp := hreg.phase
  rw [hphase] at hp
  exact ⟨hp.1, hp.2.1, hp.2.2, hreg.row fun f hf => by simp [hphase] at hf⟩

/-- the lock's holder goes on under it -/
theorem Inv.pass (hheld : s.holder = some i) (hgoes : Goes s.doc d')
    (hholds : Holds Y d' s.seeds r) : Inv Y { s with doc := d' } := by
  refine h.unseeded hgoes rfl rfl ?_ ?_
  · exact fun j q hq => (h.regs j q hq).mono hgoes.document (List.Subset.refl _) id id
  · intro j hj
    cases hheld.symm.trans hj
    exact ⟨r, hi, hholds⟩

theorem hydrates_inv (hphase : r.phase = .writing) : Inv Y (s.hydrates Y i r) := by
  have hreg := h.regs i r hi
  obtain ⟨hwrote, hresent, hholder, hrow⟩ := writing_facts h hi hphase
  have hgoes : Goes s.doc (s.doc.step Y.text .writeHydrates) :=
    step_goes h.ok h.agrees h.single _ trivial fun hun => (nomatch hun)
  change Goes s.doc (s.doc.writeHydrates Y.text) at hgoes
  rw [St.hydrates]
  split
  next m hlock =>
    rw [loadDocState_getD]
    dsimp only
    split
    next =>
      apply h.release hholder hgoes
      exact regOk_unseeded hreg hwrote (fun _ => hresent) hgoes.document
    next htext =>
      split
      next hle =>
        apply h.release hholder hgoes
        apply regOk_seeded hreg (.inr rfl) hgoes.document
        exact (hle.trans (stored_le_document h.agrees)).trans hgoes.document
      next hnew =>
        cases held h hi hholder with
        | hydrating _ hm hseeds =>
          have hdead : ∀ a ∈ s.seeds, Dead Y (document (s.doc.writeHydrates Y.text)) a := by
            intro a ha
            apply (dead_of_empty (not_not.1 htext) (hseeds a ha)).mono
            exact (stored_le_document h.agrees).trans hgoes.document
          have hcaptures : Doc.captures Y.text (seedOf r.state) (stored s.doc) = some r.state.update := by
            rw [Doc.captures, if_neg fun hand => hand.2 (not_not.1 htext)]
            exact if_neg hnew
          apply h.pass hi hholder hgoes
          refine .appending hphase ?_ hdead (ne_bot_of_not_le hnew)
          rw [Doc.writeHydrates, hm]
          dsimp only
          rw [loadDocState_getD, hcaptures]
          rfl
        | reading hp | announcing hp => simp [hphase] at hp
        | appending _ hl => simp [hlock] at hl
  next => exact h

theorem appends_inv (hphase : r.phase = .writing) (hok : Sound s (.appends i)) : Inv Y (s.appends i r) := by
  obtain ⟨_, hresent, hholder, hrow⟩ := writing_facts h hi hphase
  rw [St.appends]
  split
  next m hlock =>
    cases held h hi hholder with
    | appending _ hl hdead hsome =>
      have hjoined : s.doc.Joined .writeAppends := by
        intro update hupdate l hlive
        rw [hl] at hupdate
        cases hupdate
        exact hok r hi l hlive
      have hgoes : Goes s.doc (s.doc.step Y.text .writeAppends) :=
        step_goes h.ok h.agrees h.single _ hjoined fun hun => (nomatch hun)
      change Goes s.doc s.doc.writeAppends at hgoes
      have hwrites : s.doc.writeAppends =
          { s.doc with log := s.doc.log ++ [r.state.update], lock := some .announcing } := by
        rw [Doc.writeAppends, hl]
      have hin : r.state.update ≤ document s.doc.writeAppends := by
        apply le_trans _ (stored_le_document hgoes.agrees)
        rw [hwrites]
        exact le_mergeAll (mem_append_right _ (mem_singleton_self _))
      have hone : ∀ j, s.holder = some j → j = i := fun j hj => Option.some.inj (hj.symm.trans hholder)
      apply h.seed hi hrow hone hgoes hin hsome fun a ha => (hdead a ha).mono hgoes.document
      · exact ⟨fun hr => absurd (hresent.symm.trans hr) (by decide), ⟨.head _, hholder⟩, fun _ => hrow⟩
      · exact fun _ => .announcing rfl (by rw [hwrites])
    | reading hp | announcing hp => simp [hphase] at hp
    | hydrating _ hl => simp [hlock] at hl
  next => exact h

end

/-- the lock is given back -/
theorem goes_unlock (h : Inv Y s) : Goes s.doc { s.doc with lock := none } := by
  have hgoes : Goes s.doc (s.doc.step Y.text .writeDone) :=
    step_goes h.ok h.agrees h.single _ trivial fun hun => (nomatch hun)
  exact hgoes

theorem fails_inv (h : Inv Y s) (hi : s.regs[i]? = some r) (hphase : r.phase = .writing) : Inv Y (s.fails i r) := by
  obtain ⟨hwrote, _, hholder, _⟩ := writing_facts h hi hphase
  apply h.release hholder (goes_unlock h)
  exact regOk_unseeded (h.regs i r hi) hwrote (fun hc => absurd hc (by decide)) (goes_unlock h).document

theorem done_inv (h : Inv Y s) (hi : s.regs[i]? = some r) (hphase : r.phase = .written) : Inv Y (s.done i r) := by
  have hreg := h.regs i r hi
  have hp := hreg.phase
  rw [hphase] at hp
  obtain ⟨hin, hholder⟩ := hp
  have hgoes := goes_unlock h
  apply h.release hholder hgoes
  exact regOk_seeded hreg (.inl rfl) hgoes.document ((h.seeds r.state hin).1.trans hgoes.document)

theorem inPhase_inv (h : Inv Y s) {p : Phase} {f : Reg → St}
    (hf : ∀ r, s.regs[i]? = some r → r.phase = p → Inv Y (f r)) : Inv Y (s.inPhase i p f) := by
  rw [St.inPhase]
  split
  next r hi =>
    split
    next hphase => exact hf r hi hphase
    next => exact h
  next => exact h

/-- **Step.** -/
theorem step_inv (h : Inv Y s) (a : Action) (hok : Sound s a) : Inv Y (s.step Y a) := by
  cases a with
  | server a => exact server_inv h hok
  | registers state outcome => exact registers_inv h state outcome
  | checks i => exact inPhase_inv h fun r hi hp => checks_inv h hi hp hok
  | reads i => exact inPhase_inv h fun r hi hp => reads_inv h hi hp hok
  | readFails i => exact inPhase_inv h fun r hi hp => readFails_inv h hi hp hok
  | applies i held => exact inPhase_inv h fun r hi hp => applies_inv h hi hp held
  | hydrates i => exact inPhase_inv h fun r hi hp => hydrates_inv h hi hp
  | appends i => exact inPhase_inv h fun r hi hp => appends_inv h hi hp hok
  | fails i =>
    rw [St.step]
    split
    next r hi =>
      split
      next hphase => exact fails_inv h hi (hphase.resolve_right (hok r hi))
      next => exact h
    next => exact h
  | done i => exact inPhase_inv h fun r hi hp => done_inv h hi hp

theorem started_inv (log : List Update) (registered : Bool) : Inv Y (started log registered) where
  ok := ⟨fun c hc => absurd hc not_mem_nil, fun c hc => absurd hc not_mem_nil, fun l hl => (nomatch hl)⟩
  agrees := LiveDocs.agrees_iff.2 fun l hl => (nomatch hl)
  single := fun hload => (nomatch hload)
  fresh _ := rfl
  seeds a ha := absurd ha not_mem_nil
  settled a ha := absurd ha not_mem_nil
  regs i r hi := (nomatch hi)
  holder i hi := (nomatch hi)

theorem classify_seeded {f : SeedFields} (hf : f.seeded = true → f.content = .applied ∨ f.content = .covered)
    (status : BatchStatus) (sameId : Bool) :
    classifySeedResult status (some f) true sameId = .seeded ↔ f.seeded = true := by
  rw [classifySeedResult]
  constructor
  · intro h
    by_contra hno
    rw [if_neg (not_not.2 rfl), if_neg fun hand => hno hand.1] at h
    split at h
    next => cases h
    next =>
      split at h
      next => cases h
      next => cases h
  · intro hseeded
    rw [if_neg (not_not.2 rfl), if_pos ⟨hseeded, hf hseeded⟩]

/-- what an answer says -/
theorem Inv.answered (h : Inv Y s) (hr : r ∈ s.regs) {f : SeedFields} (hf : r.phase = .answered f) :
    (f.seeded = true → r.state.update ≤ document s.doc ∧ (f.content = .applied ∨ f.content = .covered)) ∧
      (f.seeded = false → r.wrote = false) ∧ (f.content = .conflict → r.resent = false) := by
  obtain ⟨i, hi⟩ := mem_iff_getElem?.1 hr
  have hp := (h.regs i r hi).phase
  rw [hf] at hp
  exact hp

theorem Inv.truthful (h : Inv Y s) : Truthful Y s where
  seeded _ hr _ hf hseeded := ((h.answered hr hf).1 hseeded).1
  nothing _ hr _ hf := (h.answered hr hf).2.1
  client _ hr _ hf := classify_seeded fun hseeded => ((h.answered hr hf).1 hseeded).2
  resent _ hr _ hf := (h.answered hr hf).2.2
  apart := by
    have hsettled := h.settled
    cases hseeds : s.seeds with
    | nil => exact List.Pairwise.nil
    | cons last rest =>
      rw [hseeds] at hsettled
      have hdead : ∀ a ∈ rest, ¬ Shows Y (document s.doc) a := by
        rintro a ha ⟨j, hj, hcarries, hshown⟩
        exact hshown (hsettled a ha j hj hcarries)
      refine pairwise_cons.2 ⟨fun a ha hboth => hdead a ha hboth.2, ?_⟩
      exact pairwise_of_forall_mem_list fun a _ b hb hboth => hdead b hb hboth.2

end

/-- **One-step creates.** From a note with any stored log or without a row, in every run of registrations, retries,
pushes, edits, loads and appends whose steps are `Sound` every state is `Truthful`. -/
theorem creates_truthful (log : List Update) (registered : Bool) (as : List Action)
    (h : Machine.Guarded (St.step Y) Sound (started log registered) as) (n : ℕ) :
    Truthful Y (run Y (started log registered) (as.take n)) := by
  have hstep : ∀ s a, Inv Y s → Sound s a → Inv Y (St.step Y s a) := fun _ a hs hok => step_inv hs a hok
  have hinv : Inv Y (Machine.run (St.step Y) (started log registered) (as.take n)) :=
    Machine.run_inv hstep (started_inv log registered) (h.take n)
  exact hinv.truthful

section Runs

def first : Crdt.Id := ⟨1, 0⟩

def second : Crdt.Id := ⟨2, 0⟩

/-- what is not deleted of two characters, the first structs of clients 1 and 2 -/
def reading (u : Update) : LiveDocs.Text :=
  (if first ∈ u.structs ∧ first ∉ u.deletes then ['a'] else []) ++
    if second ∈ u.structs ∧ second ∉ u.deletes then ['b'] else []

def twoLetters : SharedText where
  text := reading
  carries i := i = first ∨ i = second
  empty u htext i hi _ hcarries := by
    obtain ⟨hfirst, hsecond⟩ := List.append_eq_nil_iff.1 htext
    rcases of_decide_eq_true hcarries with rfl | rfl
    · by_contra hno
      rw [if_pos ⟨hi, hno⟩] at hfirst
      cases hfirst
    · by_contra hno
      rw [if_pos ⟨hi, hno⟩] at hsecond
      cases hsecond

def letterA : State := ⟨⟨{first}, ∅⟩, by decide⟩

def letterB : State := ⟨⟨{second}, ∅⟩, by decide⟩

/-- the first client's note after it has deleted its letter -/
def erased : State := ⟨⟨{first}, {first}⟩, by decide⟩

/-- a registration that makes the row and applies its state to the stored log -/
def created (state : State) : List Action :=
  [.registers state (.row true), .applies 0 false, .hydrates 0, .appends 0, .done 0]

/-- a registration, after it a second one that goes through the check -/
def again (state : State) : List Action := [.registers state (.row true), .checks 1, .reads 1]

/-- the answer of the first attempt was lost; the state is sent again as it was -/
theorem retried_truthful :
    Truthful twoLetters (run twoLetters (started [] false) ((created letterA ++ again letterA).take 8)) := by
  apply creates_truthful twoLetters [] false (created letterA ++ again letterA)
  refine ⟨trivial, trivial, trivial, ?_, trivial, trivial, ?_, ?_, trivial⟩
  · exact fun r _ l hl => (nomatch hl)
  · exact fun r _ l hl => (nomatch hl)
  · intro r hr _
    cases hr
    decide

/-- **Answers that are not true.** A deletion made between two attempts is taken for seeded; an append that fails after
its row is stored is answered refused; a state that was applied is a conflict when the check's read fails; and a note
that is opened while its seed is written shows two seeds in what is stored. -/
theorem answers_untrue :
    ¬ Truthful twoLetters (run twoLetters (started [] false) (created letterA ++ again erased)) ∧
    ¬ Truthful twoLetters (run twoLetters (started [] false)
      [.registers letterA (.row true), .applies 0 false, .hydrates 0, .appends 0, .fails 0]) ∧
    ¬ Truthful twoLetters (run twoLetters (started [] false) (created letterA ++
      [.registers letterA (.row true), .checks 1, .readFails 1, .applies 1 false, .hydrates 1])) ∧
    ¬ Truthful twoLetters (run twoLetters (started [] false) ([.server .loadStarts, .server .loadReads] ++
      created letterA ++ [.server .loadEnters, .registers letterB (.row true), .checks 1, .applies 1 false,
        .server (.changeAppends 0), .server .unloads])) := by
  refine ⟨fun h => ?_, fun h => ?_, fun h => ?_, fun h => ?_⟩
  · have hle := h.seeded _ (.tail _ mem_cons_self) _ rfl rfl
    revert hle
    decide
  · have hwrote := h.nothing _ mem_cons_self _ rfl rfl
    cases hwrote
  · have hresent := h.resent _ (.tail _ mem_cons_self) _ rfl rfl
    revert hresent
    decide
  · apply (pairwise_cons.1 h.apart).1 letterA mem_cons_self
    exact ⟨⟨second, by decide, by decide, by decide⟩, ⟨first, by decide, by decide, by decide⟩⟩

end Runs

end Baalda.SeedRegister
