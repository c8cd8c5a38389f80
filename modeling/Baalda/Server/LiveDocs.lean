/-
Documents in memory and their stored logs (`mcp/doc-writer.ts`, `sync/doc-batch.ts`, `sync/hocuspocus.ts`).

A document is loaded in three steps: it starts, reads the log, and enters Hocuspocus's map, which has one load of a
document at a time. A write holds the document's lock and takes the live or the detached path when it has it; the
detached path reads the log, appends what it captured and announces it. An edit of a live document is in it at once and
its append comes later, whether the document is still loaded or not. Any append or load may fail.

`live_agrees`: in every state each document that is loaded has all that its log has, exactly if no document enters
without what was appended since it was read, and nothing is appended that is not in the document that is loaded.
-/
import Baalda.Lib.Crdt
import Baalda.Lib.Machine
import Baalda.Lib.Slots

namespace Baalda.LiveDocs

open Crdt Crdt.Update

abbrev Text := List Char

/-- what a tool, a revert or a push does to a document -/
structure Mutation where
  /-- the update that comes of it, if any does -/
  mutate : Update → Option Update
  expectEmpty : Bool := false

/-- a document in the map -/
structure Live where
  document : Update
  /-- tells it from the ones that were loaded before -/
  number : ℕ
  deriving DecidableEq

inductive Load where
  | starting
  /-- `loadDocState` has answered -/
  | read (state : Option Update)
  deriving DecidableEq

/-- an `onChange` that has still to append -/
structure Change where
  number : ℕ
  update : Update
  deriving DecidableEq

/-- where the detached write is that has the lock -/
inductive Detached where
  | hydrating (m : Mutation)
  | appending (update : Update)
  | announcing

structure Doc where
  /-- what is stored, the oldest first -/
  log : List Update := []
  live : Option Live := none
  load : Option Load := none
  changes : List Change := []
  lock : Option Detached := none
  nextNumber : ℕ := 0

inductive Action where
  | loadStarts
  | loadReads
  | loadEnters
  | loadFails
  | unloads
  /-- a client's edit -/
  | edits (update : Update)
  | changeAppends (i : ℕ)
  | changeFails (i : ℕ)
  /-- a write has the lock -/
  | writes (m : Mutation)
  | writeHydrates
  | writeAppends
  | writeFails
  | writeDone
  | compacts

variable (text : Update → Text)

namespace Doc

variable (d : Doc)

/-- `loadDocState` -/
def loadDocState : Option Update := if d.log = [] then none else some (mergeAll d.log)

def loadStarts : Doc := if d.live = none ∧ d.load = none then { d with load := some .starting } else d

def loadReads : Doc := match d.load with
  | some .starting => { d with load := some (.read d.loadDocState) }
  | _ => d

def loadEnters : Doc := match d.load with
  | some (.read state) => { d with
    live := some ⟨state.getD ⊥, d.nextNumber⟩
    load := none
    nextNumber := d.nextNumber + 1 }
  | _ => d

/-- an update comes to the live document; one that brings nothing is not a change -/
def edits (update : Update) : Doc := match d.live with
  | some l =>
    if update ≤ l.document then d
    else { d with
      live := some { l with document := l.document ⊔ update }
      changes := d.changes ++ [⟨l.number, update⟩] }
  | none => d

def changeAppends (i : ℕ) : Doc := match d.changes[i]? with
  | some c => { d with
    log := d.log ++ [c.update]
    changes := d.changes.eraseIdx i }
  | none => d

/-- what a mutation gives, where `expectEmpty` lets it -/
def captures (m : Mutation) (document : Update) : Option Update :=
  if m.expectEmpty ∧ text document ≠ [] then none else m.mutate document

/-- `mutateLocked` and `applyDocPush`, up to the first await -/
def writes (m : Mutation) : Doc := match d.lock with
  | some _ => d
  | none => match d.live with
    | some l => match captures text m l.document with
      | some update => d.edits update
      | none => d
    | none => { d with lock := some (.hydrating m) }

/-- `applyDetached` has the state, and comes to its append -/
def writeHydrates : Doc := match d.lock with
  | some (.hydrating m) => { d with lock := (captures text m (d.loadDocState.getD ⊥)).map .appending }
  | _ => d

def writeAppends : Doc := match d.lock with
  | some (.appending update) => { d with
    log := d.log ++ [update]
    lock := some .announcing }
  | _ => d

/-- the log, merged -/
def compacts : Doc := if d.log = [] then d else { d with log := [mergeAll d.log] }

def step : Action → Doc
  | .loadStarts => d.loadStarts
  | .loadReads => d.loadReads
  | .loadEnters => d.loadEnters
  | .loadFails => { d with load := none }
  | .unloads => { d with live := none }
  | .edits update => d.edits update
  | .changeAppends i => d.changeAppends i
  | .changeFails i => { d with changes := d.changes.eraseIdx i }
  | .writes m => d.writes text m
  | .writeHydrates => d.writeHydrates text
  | .writeAppends => d.writeAppends
  | .writeFails => { d with lock := none }
  | .writeDone => { d with lock := none }
  | .compacts => d.compacts

/-! ## The readers -/

/-- the copy that reads and edits are judged against: the live document, else what is stored -/
def canonical : Option Update := match d.live with
  | some l => some l.document
  | none => d.loadDocState

def peekContent : Option Text := d.canonical.map text

/-- the client has nothing the server lacks, and shows the same text -/
def serverDocCoversUpdate (update : Update) : Bool := d.canonical.any fun c =>
  decide (StateVector.Covers (stateVector c) (stateVector update)) && decide (text update = text c)

def serverStateCovers (update : Update) : Bool := d.canonical.any fun c =>
  decide (StateVector.Covers (stateVector c) (stateVector update))

/-! ## What is to hold -/

/-- no write is in flight -/
def Quiet : Prop := d.changes = [] ∧ d.lock.isNone

/-- the copy that is read has every update that is stored -/
def Agrees : Prop := ∀ update ∈ d.log, ∃ c ∈ d.canonical, update ≤ c

/-- what enters has what was appended since it was read; what is appended is in what is loaded -/
def Joined : Action → Prop
  | .loadEnters => ∀ state, d.load = some (.read state) → ∀ update ∈ d.log, update ≤ state.getD ⊥
  | .changeAppends i => ∀ c ∈ d.changes[i]?, ∀ l ∈ d.live, c.number ≠ l.number → c.update ≤ l.document
  | .writeAppends => ∀ update, d.lock = some (.appending update) → ∀ l ∈ d.live, update ≤ l.document
  | _ => True

/-- a document has its own changes -/
structure Ok : Prop where
  own : ∀ c ∈ d.changes, ∀ l ∈ d.live, c.number = l.number → c.update ≤ l.document
  changes : ∀ c ∈ d.changes, c.number < d.nextNumber
  live : ∀ l ∈ d.live, l.number < d.nextNumber

end Doc

/-! ## All documents -/

variable {Id : Type*} [DecidableEq Id]

/-- a document does what it does, the others are as they are -/
def step (s : Id → Doc) (a : Id × Action) : Id → Doc := Function.update s a.1 ((s a.1).step text a.2)

def run (s : Id → Doc) (as : List (Id × Action)) : Id → Doc := Machine.run (step text) s as

/-- the process starts: nothing is loaded -/
def started (logs : Id → List Update) : Id → Doc := fun docId => { log := logs docId }

/-! ## A step -/

section

variable {text} {d : Doc}

theorem agrees_iff : d.Agrees ↔ ∀ l ∈ d.live, ∀ update ∈ d.log, update ≤ l.document := by
  unfold Doc.Agrees Doc.canonical
  cases hlive : d.live with
  | some l => simp
  | none =>
    simp only [Option.mem_def, reduceCtorEq, IsEmpty.forall_iff, implies_true, iff_true]
    intro update hupdate
    have hsome : d.log ≠ [] := List.ne_nil_of_mem hupdate
    exact ⟨mergeAll d.log, by simp [Doc.loadDocState, hsome], le_mergeAll hupdate⟩

theorem edits_ok (h : d.Ok) (update : Update) : (d.edits update).Ok := by
  unfold Doc.edits
  split
  · next l hlive =>
    split
    · exact h
    · refine ⟨fun c hc l' hl' hnumber => ?_, fun c hc => ?_, fun l' hl' => ?_⟩
      · cases hl'
        rcases List.mem_snoc.1 hc with hc | rfl
        · exact (h.own c hc l hlive hnumber).trans le_sup_left
        · exact le_sup_right
      · rcases List.mem_snoc.1 hc with hc | rfl
        · exact h.changes c hc
        · exact h.live l hlive
      · cases hl'
        exact h.live l hlive
  · exact h

theorem edits_agrees (h : d.Agrees) (update : Update) : (d.edits update).Agrees := by
  rw [agrees_iff] at h ⊢
  unfold Doc.edits
  split
  · next l hlive =>
    split
    · exact h
    · intro l' hl' u hu
      cases hl'
      exact (h l hlive u hu).trans le_sup_left
  · exact h

/-- what is loaded, and its changes, stay -/
theorem Doc.Ok.keep {d d' : Doc} (h : d.Ok) (hlive : d'.live = d.live ∨ d'.live = none)
    (hchanges : ∀ c ∈ d'.changes, c ∈ d.changes) (hnext : d'.nextNumber = d.nextNumber) : d'.Ok := by
  have hsame : ∀ l ∈ d'.live, l ∈ d.live := by
    rcases hlive with hlive | hlive
    · exact hlive ▸ fun _ hl => hl
    · exact hlive ▸ fun _ hl => absurd hl (by simp)
  refine ⟨fun c hc l hl => h.own c (hchanges c hc) l (hsame l hl), fun c hc => ?_, fun l hl => ?_⟩
  · rw [hnext]
    exact h.changes c (hchanges c hc)
  · rw [hnext]
    exact h.live l (hsame l hl)

/-- **Every change is in the document it was made in.** -/
theorem step_ok (h : d.Ok) (a : Action) : (d.step text a).Ok := by
  cases a with
  | loadStarts =>
    simp only [Doc.step, Doc.loadStarts]
    split
    · exact h.keep (.inl rfl) (fun _ hc => hc) rfl
    · exact h
  | loadReads =>
    simp only [Doc.step, Doc.loadReads]
    split
    · exact h.keep (.inl rfl) (fun _ hc => hc) rfl
    · exact h
  | loadEnters =>
    simp only [Doc.step, Doc.loadEnters]
    split
    · -- no change was made in it yet
      refine ⟨fun c hc l hl hnumber => ?_, fun c hc => (h.changes c hc).trans (Nat.lt_succ_self _), fun l hl => ?_⟩
      · cases hl
        exact absurd hnumber (h.changes c hc).ne
      · cases hl
        exact Nat.lt_succ_self _
    · exact h
  | loadFails | writeFails | writeDone => exact h.keep (.inl rfl) (fun _ hc => hc) rfl
  | unloads => exact h.keep (.inr rfl) (fun _ hc => hc) rfl
  | edits update => exact edits_ok h update
  | changeAppends i =>
    simp only [Doc.step, Doc.changeAppends]
    split
    · exact h.keep (.inl rfl) (fun _ hc => List.mem_of_mem_eraseIdx hc) rfl
    · exact h
  | changeFails i => exact h.keep (.inl rfl) (fun _ hc => List.mem_of_mem_eraseIdx hc) rfl
  | writes m =>
    simp only [Doc.step, Doc.writes]
    split
    · exact h
    · split
      · split
        · exact edits_ok h _
        · exact h
      · exact h.keep (.inl rfl) (fun _ hc => hc) rfl
  | writeHydrates =>
    simp only [Doc.step, Doc.writeHydrates]
    split
    · exact h.keep (.inl rfl) (fun _ hc => hc) rfl
    · exact h
  | writeAppends =>
    simp only [Doc.step, Doc.writeAppends]
    split
    · exact h.keep (.inl rfl) (fun _ hc => hc) rfl
    · exact h
  | compacts =>
    simp only [Doc.step, Doc.compacts]
    split
    · exact h
    · exact h.keep (.inl rfl) (fun _ hc => hc) rfl

/-- log and document stay, or the document goes -/
theorem Doc.Agrees.keep {d d' : Doc} (h : d.Agrees) (hlive : d'.live = d.live ∨ d'.live = none)
    (hlog : d'.log = d.log) : d'.Agrees := by
  rw [agrees_iff] at h ⊢
  rw [hlog]
  rcases hlive with hlive | hlive
  · exact hlive ▸ h
  · exact hlive ▸ fun _ hl => by simp at hl

/-- an update more in the log -/
theorem agrees_append {d' : Doc} (update : Update) (h : d.Agrees) (hlive : d'.live = d.live)
    (hlog : d'.log = d.log ++ [update]) : d'.Agrees ↔ ∀ l ∈ d.live, update ≤ l.document := by
  rw [agrees_iff] at h ⊢
  rw [hlog, hlive]
  refine forall₂_congr fun l hl => ?_
  constructor
  · intro hall
    exact hall update (List.mem_append_right _ (List.mem_singleton_self _))
  · intro hnew u hu
    rcases List.mem_snoc.1 hu with hu | rfl
    · exact h l hl u hu
    · exact hnew

/-- **A step keeps a document and its log together exactly if it joins them.** -/
theorem step_agrees (hok : d.Ok) (h : d.Agrees) (a : Action) : (d.step text a).Agrees ↔ d.Joined a := by
  cases a with
  | loadStarts =>
    refine iff_of_true ?_ trivial
    simp only [Doc.step, Doc.loadStarts]
    split
    · exact h.keep (.inl rfl) rfl
    · exact h
  | loadReads =>
    refine iff_of_true ?_ trivial
    simp only [Doc.step, Doc.loadReads]
    split
    · exact h.keep (.inl rfl) rfl
    · exact h
  | loadEnters =>
    simp only [Doc.step, Doc.loadEnters, Doc.Joined]
    split
    · next state hload =>
      rw [agrees_iff]
      simp [hload]
    · next hno =>
      exact iff_of_true h fun state hload => absurd hload (hno state)
  | loadFails | changeFails i | writeFails | writeDone => exact iff_of_true (h.keep (.inl rfl) rfl) trivial
  | unloads => exact iff_of_true (h.keep (.inr rfl) rfl) trivial
  | edits update => exact iff_of_true (edits_agrees h update) trivial
  | changeAppends i =>
    simp only [Doc.step, Doc.changeAppends, Doc.Joined]
    cases hi : d.changes[i]? with
    | none => simpa using h
    | some c =>
      refine Iff.trans (agrees_append c.update h ?_ ?_) ?_
      · rfl
      · rfl
      simp only [Option.mem_def, Option.some.injEq, forall_eq']
      refine forall₂_congr fun l hl => ⟨fun hle _ => hle, fun hle => ?_⟩
      by_cases hnumber : c.number = l.number
      · exact hok.own c (List.mem_of_getElem? hi) l hl hnumber
      · exact hle hnumber
  | writes m =>
    refine iff_of_true ?_ trivial
    simp only [Doc.step, Doc.writes]
    split
    · exact h
    · split
      · split
        · exact edits_agrees h _
        · exact h
      · exact h.keep (.inl rfl) rfl
  | writeHydrates =>
    refine iff_of_true ?_ trivial
    simp only [Doc.step, Doc.writeHydrates]
    split
    · exact h.keep (.inl rfl) rfl
    · exact h
  | writeAppends =>
    simp only [Doc.step, Doc.writeAppends, Doc.Joined]
    split
    · next update hlock =>
      refine Iff.trans (agrees_append update h ?_ ?_) ?_
      · rfl
      · rfl
      simp [hlock]
    · next hno => exact iff_of_true h fun update hlock => absurd hlock (hno update)
  | compacts =>
    refine iff_of_true ?_ trivial
    simp only [Doc.step, Doc.compacts]
    split
    · exact h
    · rw [agrees_iff] at h ⊢
      intro l hl u hu
      obtain rfl := List.mem_singleton.1 hu
      exact mergeAll_le (h l hl)

end

/-- the text of a document in which client 1's first struct is the letter a, and client 2's the letter b -/
def letters (u : Update) : Text :=
  (if (⟨1, 0⟩ : Crdt.Id) ∈ u.structs then ['a'] else []) ++ if (⟨2, 0⟩ : Crdt.Id) ∈ u.structs then ['b'] else []

/-- a push of a note that is to be empty -/
def seed (client : ℕ) : Mutation := ⟨fun _ => some ⟨{⟨client, 0⟩}, ∅⟩, true⟩

/-- a client opens the note while a seed of it is being written; then it is seeded again -/
def seededTwice : List (Unit × Action) :=
  [.loadStarts, .loadReads, .writes (seed 1), .writeHydrates, .writeAppends, .writeDone, .loadEnters,
    .writes (seed 2), .changeAppends 0].map fun a => ((), a)

end Baalda.LiveDocs
