/-
The derived search rows of a note (`index/indexer.ts`, `crypto/backfill.ts`).

A run reads the note's row, finds a key, reads the text and writes what it read, in a statement for the index row, one
for the references, one that deletes the links and one for each link. Runs come from edits through a debounced timer,
from a call that waits for one, from a drain of the queue; any number of one note's may be in flight. A run that finds
no key queues the note, one that wrote under a key takes an older entry of the queue away, and a drain takes away the
entry that it read. A delete of the note is followed by the three statements of a purge.

`index_follows`: once nothing is outstanding, each live note's rows are those of its title and text, or it is queued, or
its last run failed, and a note that is not live has none, if another run is to come, or an entry of the queue stays,
- whenever a run writes what it has read and the note has changed since;
- whenever a title changes, or a note is live again, with no run of its own;
- whenever a run fails that had still to write what others have not;
and the clock of the database does not stand still between two readings.
-/
import Baalda.Lib.Machine
import Baalda.Lib.Slots
import Mathlib.Data.Finset.Basic

namespace Baalda.SearchIndex

open Slots List

/-! ## Model -/

/-- the statements that write the rows of a note -/
inductive Stmt (Link : Type*) where
  | index
  | refs
  | deleteLinks
  | insertLink (link : Link)
deriving DecidableEq

inductive Stage (Title Text Link : Type*) where
  | waiting
  /-- the row was read -/
  | keying (title : Title)
  | reading (title : Title)
  /-- `none` writes a note that is not live -/
  | writing (content : Option (Title × Text)) (todo : List (Stmt Link))
  | clearing (title : Title)
  | deferring
  /-- the run of a drain is over -/
  | draining
deriving DecidableEq

/-- `indexDoc`, or a purge -/
structure Run (Title Text Link : Type*) where
  stage : Stage Title Text Link
  /-- when the row was read -/
  started : ℕ := 0
  /-- has a key of its own -/
  given : Bool := false
  keyed : Bool := false
  /-- the `queued_at` of the entry that a drain has read -/
  drain : Option ℕ := none
deriving DecidableEq

/-- one note -/
structure Doc (Title Text Link Ref : Type*) where
  /-- the title, while the note is live -/
  note : Option Title
  text : Text
  /-- `note_index` -/
  index : Option (Title × Text) := none
  /-- `blob_refs` -/
  refs : Finset Ref := ∅
  /-- `note_links` -/
  links : Finset Link := ∅
  /-- `queued_at` of its entry in `index_pending` -/
  queue : Option ℕ := none
  /-- edits that have still to schedule a run -/
  hooks : ℕ := 0
  timer : Bool := false
  runs : List (Run Title Text Link) := []
  /-- how the run that ended last ended -/
  failed : Bool := false
  /-- the last reading of the clock -/
  clock : ℕ := 0
deriving DecidableEq

inductive Key where
  /-- the vault has none -/
  | plain
  | held
  | missing
deriving DecidableEq

inductive Move where
  | readsRow (now : ℕ)
  | finds (key : Key)
  | readsText
  | writes
  | ends
  | clears
  | defers (now : ℕ)
  /-- from a given key to the background path -/
  | falls
  | fails
  | drained
deriving DecidableEq

inductive Action (Title Text : Type*) where
  | edits (text : Text)
  | renames (title : Title)
  | deletes
  /-- `hooked`: a run is to follow -/
  | revives (title : Title) (hooked : Bool)
  | schedules
  | indexes (given : Bool)
  | fires (given : Bool)
  /-- a run that nothing asked for -/
  | starts (given : Bool)
  | drains
  | moves (i : ℕ) (m : Move)

section Model

variable {Title Text Link Ref : Type*} [DecidableEq Title] [DecidableEq Text] [DecidableEq Link] [DecidableEq Ref]
variable (parseWikilinks : Text → List Link) (assetRefs : Text → Finset Ref)

/-- the statements of `indexNoteRow`, and of `purgeNoteIndex` -/
def plan : Option (Title × Text) → List (Stmt Link)
  | none => [.index, .deleteLinks, .refs]
  | some content => .index :: .refs :: .deleteLinks :: (parseWikilinks content.2).map .insertLink

namespace Doc

variable (d : Doc Title Text Link Ref)

def current : Option (Title × Text) := d.note.map fun title => (title, d.text)

def exec (content : Option (Title × Text)) : Stmt Link → Doc Title Text Link Ref
  | .index => { d with index := content }
  | .refs => { d with refs := (content.map fun c => assetRefs c.2).getD ∅ }
  | .deleteLinks => { d with links := ∅ }
  | .insertLink link => { d with links := insert link d.links }

def setRun (i : ℕ) (r : Run Title Text Link) : Doc Title Text Link Ref := { d with runs := d.runs.set i r }

def endRun (i : ℕ) : Doc Title Text Link Ref := { d with runs := d.runs.eraseIdx i }

def addRun (r : Run Title Text Link) : Doc Title Text Link Ref := { d with runs := d.runs ++ [r] }

/-- the run returns; a drain goes on -/
def finish (i : ℕ) (r : Run Title Text Link) : Doc Title Text Link Ref :=
  match r.drain with
  | none => { d.endRun i with failed := false }
  | some _ => { d.setRun i { r with stage := .draining } with failed := false }

/-- `DELETE FROM index_pending`, where the entry is one of these -/
def unqueue (p : ℕ → Bool) : Doc Title Text Link Ref := { d with queue := d.queue.filter fun q => !p q }

/-- `INSERT INTO index_pending`, over an older entry -/
def enqueue (now : ℕ) : Doc Title Text Link Ref := { d with queue := some now, clock := now }

def move (i : ℕ) (r : Run Title Text Link) (m : Move) : Doc Title Text Link Ref :=
  match r.stage, m with
  | .waiting, .readsRow now =>
    let stage := match d.note with
      | none => .writing none (plan parseWikilinks (none : Option (Title × Text)))
      | some title => .keying title
    { d.setRun i { r with stage := stage, started := now } with clock := now }
  | .keying title, .finds .plain => d.setRun i { r with stage := .reading title, keyed := false }
  | .keying title, .finds .held => d.setRun i { r with stage := .reading title, keyed := true }
  | .keying _, .finds .missing => d.setRun i { r with stage := .deferring }
  | .reading title, .readsText =>
    d.setRun i { r with stage := .writing (some (title, d.text)) (plan parseWikilinks (some (title, d.text))) }
  | .writing content (x :: todo), .writes =>
    (d.exec assetRefs content x).setRun i { r with stage := .writing content todo }
  | .writing content [], .ends =>
    match content with
    | some c => if r.keyed then d.setRun i { r with stage := .clearing c.1 } else d.finish i r
    | none => d.finish i r
  | .clearing _, .clears => (d.unqueue fun q => decide (q < r.started)).finish i r
  | .deferring, .defers now => (d.enqueue now).finish i r
  | .reading title, .falls | .writing (some (title, _)) _, .falls | .clearing title, .falls =>
    if r.given ∧ r.keyed then d.setRun i { r with stage := .keying title, given := false } else d
  | .draining, .fails => d.endRun i
  | _, .fails => { d.endRun i with failed := true }
  | .draining, .drained => (d.unqueue fun q => decide (r.drain = some q)).endRun i
  | _, _ => d

def step : Action Title Text → Doc Title Text Link Ref
  | .edits text => { d with text := text, hooks := d.hooks + 1 }
  | .renames title => { d with note := d.note.map fun _ => title }
  | .deletes =>
    match d.note with
    | some _ => ({ d with note := none } : Doc Title Text Link Ref).addRun
        { stage := .writing none (plan parseWikilinks (none : Option (Title × Text))) }
    | none => d
  | .revives title hooked =>
    match d.note with
    | some _ => d
    | none => { d with note := some title, hooks := if hooked then d.hooks + 1 else d.hooks }
  | .schedules => if 0 < d.hooks then { d with hooks := d.hooks - 1, timer := true } else d
  | .indexes given =>
    if 0 < d.hooks then
      ({ d with hooks := d.hooks - 1 } : Doc Title Text Link Ref).addRun { stage := .waiting, given := given }
    else d
  | .fires given =>
    if d.timer then
      ({ d with timer := false } : Doc Title Text Link Ref).addRun { stage := .waiting, given := given }
    else d
  | .starts given => d.addRun { stage := .waiting, given := given }
  | .drains =>
    match d.queue with
    | some q => d.addRun { stage := .waiting, given := true, drain := some q }
    | none => d
  | .moves i m =>
    match d.runs[i]? with
    | some r => d.move parseWikilinks assetRefs i r m
    | none => d

end Doc

variable {Id : Type*} [DecidableEq Id]

/-- the notes, each of which goes its own way -/
def step (s : Id → Doc Title Text Link Ref) (a : Id × Action Title Text) : Id → Doc Title Text Link Ref :=
  Function.update s a.1 ((s a.1).step parseWikilinks assetRefs a.2)

end Model

variable {Title Text Link Ref : Type*} [DecidableEq Title] [DecidableEq Text] [DecidableEq Link] [DecidableEq Ref]
variable (parseWikilinks : Text → List Link) (assetRefs : Text → Finset Ref)

/-! ## What is to hold -/

def refsFor (content : Option (Title × Text)) : Finset Ref := (content.map fun c => assetRefs c.2).getD ∅

def linksFor (content : Option (Title × Text)) : List Link := (content.map fun c => parseWikilinks c.2).getD []

/-- the rows are those of the title and the text; of a note that is not live there are none -/
structure Derived (d : Doc Title Text Link Ref) : Prop where
  index : d.index = d.current
  refs : d.refs = refsFor assetRefs d.current
  links : d.links = (linksFor parseWikilinks d.current).toFinset

def Settled (d : Doc Title Text Link Ref) : Prop :=
  Derived parseWikilinks assetRefs d ∨ d.note ≠ none ∧ (d.queue ≠ none ∨ d.failed = true)

/-- nothing is outstanding -/
structure Quiet (d : Doc Title Text Link Ref) : Prop where
  hooks : d.hooks = 0
  timer : d.timer = false
  runs : d.runs = []

/-! ## What is still to be written -/

/-- it will write the note as it is, or queue it -/
def Fresh (cur : Option (Title × Text)) (r : Run Title Text Link) : Prop :=
  match r.stage with
  | .waiting => True
  | .keying title | .reading title => cur.map Prod.fst = some title
  | .deferring => cur ≠ none
  | _ => False

def Owes (cur : Option (Title × Text)) (r : Run Title Text Link) (x : Stmt Link) : Prop :=
  Fresh cur r ∨ ∃ todo, r.stage = .writing cur todo ∧ x ∈ todo

section

variable (d : Doc Title Text Link Ref)

def Soon : Prop := 0 < d.hooks ∨ d.timer = true

/-- a run is to come that has read nothing that is not so -/
def Coming : Prop := Soon d ∨ ∃ r ∈ d.runs, Fresh d.current r

def Owed (x : Stmt Link) : Prop := Soon d ∨ ∃ r ∈ d.runs, Owes d.current r x

/-- the statement has nothing to change -/
def Done : Stmt Link → Prop
  | .index => d.index = d.current
  | .refs => d.refs = refsFor assetRefs d.current
  | .deleteLinks => ∀ link ∈ d.links, link ∈ linksFor parseWikilinks d.current
  | .insertLink link => link ∈ d.links

def Good : Prop :=
  ∀ x ∈ plan parseWikilinks d.current, Done parseWikilinks assetRefs d x ∨ Owed d x

end

/-- it may take an older entry of the queue away -/
def Clears (r : Run Title Text Link) : Prop :=
  match r.stage with
  | .keying _ | .reading _ | .clearing _ => True
  | .writing (some _) _ => r.keyed = true
  | _ => False

section

variable (d : Doc Title Text Link Ref)

/-- no run takes the entry away -/
def Stays (q : ℕ) : Prop :=
  ∀ r ∈ d.runs, r.drain ≠ some q ∧ (Clears r → r.started ≤ q)

def Queued : Prop := d.note ≠ none ∧ ∃ q, d.queue = some q ∧ Stays d q

def Waived : Prop := Queued d ∨ d.note ≠ none ∧ d.failed = true ∧ d.runs = []

/-- the note is written again, or known not to be -/
def Outstanding : Prop := Coming d ∨ Waived d

/-! ## The condition -/

def MoveCond (i : ℕ) (r : Run Title Text Link) : Move → Prop
  | .readsRow now | .defers now => d.clock < now
  | .writes => ∀ content todo, r.stage = .writing content todo → content = d.current ∨ Outstanding d
  | .fails => (∀ x ∈ plan parseWikilinks d.current, Owes d.current r x →
      Done parseWikilinks assetRefs d x ∨ Owed (d.endRun i) x) ∨ Outstanding { d.endRun i with failed := true }
  | _ => True

def Cond : Action Title Text → Prop
  | .renames title => d.note = none ∨ d.note = some title ∨ Outstanding { d with note := some title }
  | .revives title hooked => d.note = none → hooked = true ∨ Outstanding { d with note := some title }
  | .moves i m => ∀ r ∈ d.runs[i]?, MoveCond parseWikilinks assetRefs d i r m
  | _ => True

end

/-- before the run -/
structure AtRest (d : Doc Title Text Link Ref) : Prop where
  quiet : Quiet d
  settled : Settled parseWikilinks assetRefs d
  queue : ∀ q ∈ d.queue, q ≤ d.clock

variable {parseWikilinks assetRefs} {d d' : Doc Title Text Link Ref} {i : ℕ} {r r' : Run Title Text Link}

/-! ## The plan -/

variable {cur : Option (Title × Text)}

theorem mem_plan_insertLink {link : Link} :
    Stmt.insertLink link ∈ plan parseWikilinks cur ↔ link ∈ linksFor parseWikilinks cur := by
  cases cur with
  | none | some c => simp [plan, linksFor]

theorem mem_plan :
    Stmt.index ∈ plan parseWikilinks cur ∧ Stmt.refs ∈ plan parseWikilinks cur ∧
      Stmt.deleteLinks ∈ plan parseWikilinks cur := by
  cases cur with
  | none | some c => simp [plan]

variable {todo : List (Stmt Link)}

/-- the links come after the delete -/
theorem links_after_delete (h : .deleteLinks :: todo <:+ plan parseWikilinks cur) {link : Link}
    (hlink : link ∈ linksFor parseWikilinks cur) : Stmt.insertLink link ∈ todo := by
  cases cur with
  | none => exact absurd hlink (not_mem_nil)
  | some c =>
    have hlinks : (linksFor parseWikilinks (some c)).map Stmt.insertLink = todo := by
      have hnot : ¬ .deleteLinks :: todo <:+ (linksFor parseWikilinks (some c)).map Stmt.insertLink := by
        intro hsuffix
        have hmem := hsuffix.subset mem_cons_self
        simp at hmem
      simp only [plan, suffix_cons_iff] at h
      rcases h with h | h | h | h
      · cases h
      · cases h
      · exact (List.cons.inj h).2.symm
      · exact absurd h hnot
    rw [← hlinks]
    exact mem_map_of_mem hlink

theorem derived_of_done (h : ∀ x ∈ plan parseWikilinks d.current, Done parseWikilinks assetRefs d x) :
    Derived parseWikilinks assetRefs d := by
  have hplan : Stmt.index ∈ plan parseWikilinks d.current ∧ Stmt.refs ∈ plan parseWikilinks d.current ∧
      Stmt.deleteLinks ∈ plan parseWikilinks d.current := mem_plan
  obtain ⟨hindex, hrefs, hdelete⟩ := hplan
  refine ⟨h _ hindex, h _ hrefs, ?_⟩
  ext link
  rw [mem_toFinset]
  exact ⟨h _ hdelete link, fun hlink => h _ (mem_plan_insertLink.mpr hlink)⟩

theorem done_of_derived (h : Derived parseWikilinks assetRefs d) :
    ∀ x ∈ plan parseWikilinks d.current, Done parseWikilinks assetRefs d x := by
  intro x hx
  cases x with
  | index => exact h.index
  | refs => exact h.refs
  | deleteLinks =>
    intro link hlink
    rw [h.links, mem_toFinset] at hlink
    exact hlink
  | insertLink link =>
    have hlink := mem_plan_insertLink.mp hx
    change link ∈ d.links
    rw [h.links, mem_toFinset]
    exact hlink

/-! ## What a change of one run leaves -/

variable {x : Stmt Link}

theorem good_of_coming (h : Coming d) : Good parseWikilinks assetRefs d := by
  intro x _
  exact .inr (h.imp_right fun ⟨r, hr, hfresh⟩ => ⟨r, hr, .inl hfresh⟩)

theorem Owed.setRun (h : Owed d x) (hi : d.runs[i]? = some r) (hkeep : Owes d.current r x → Owes d.current r' x) :
    Owed (d.setRun i r') x :=
  h.imp_right (exists_mem_set r' hi hkeep)

theorem Owed.endRun (h : Owed d x) (hi : d.runs[i]? = some r) (hno : ¬ Owes d.current r x) : Owed (d.endRun i) x :=
  h.imp_right (exists_mem_eraseIdx hi hno)

theorem Owed.finish (h : Owed d x) (hi : d.runs[i]? = some r) (hno : ¬ Owes d.current r x) :
    Owed (d.finish i r) x := by
  unfold Doc.finish
  split
  · exact h.endRun hi hno
  · exact h.setRun hi fun howes => absurd howes hno

theorem done_finish : Done parseWikilinks assetRefs (d.finish i r) x ↔ Done parseWikilinks assetRefs d x := by
  unfold Doc.finish
  split <;> rfl

theorem current_finish : (d.finish i r).current = d.current := by
  unfold Doc.finish
  split <;> rfl

theorem Good.setRun (h : Good parseWikilinks assetRefs d) (hi : d.runs[i]? = some r)
    (hkeep : ∀ x ∈ plan parseWikilinks d.current, Owes d.current r x → Owes d.current r' x) :
    Good parseWikilinks assetRefs (d.setRun i r') :=
  fun x hx => (h x hx).imp_right fun howed => howed.setRun hi (hkeep x hx)

theorem Good.finish (h : Good parseWikilinks assetRefs d) (hi : d.runs[i]? = some r)
    (hno : ∀ x, ¬ Owes d.current r x) : Good parseWikilinks assetRefs (d.finish i r) := by
  intro x hx
  rw [current_finish] at hx
  exact (h x hx).imp done_finish.mpr fun howed => howed.finish hi (hno x)

theorem Queued.setRun (h : Queued d) (hi : d.runs[i]? = some r) (hdrain : r'.drain = r.drain)
    (hclears : Clears r' → Clears r ∧ r'.started = r.started) : Queued (d.setRun i r') := by
  obtain ⟨hlive, q, hq, hstays⟩ := h
  refine ⟨hlive, q, hq, fun r₀ hr₀ => ?_⟩
  rcases mem_or_eq_of_mem_set hr₀ with hold | rfl
  · exact hstays r₀ hold
  · obtain ⟨hne, hle⟩ := hstays r (mem_of_getElem? hi)
    rw [hdrain]
    refine ⟨hne, fun hc => ?_⟩
    obtain ⟨hbefore, hstarted⟩ := hclears hc
    rw [hstarted]
    exact hle hbefore

theorem Queued.endRun (h : Queued d) : Queued (d.endRun i) := by
  obtain ⟨hlive, q, hq, hstays⟩ := h
  exact ⟨hlive, q, hq, fun r₀ hr₀ => hstays r₀ (mem_of_mem_eraseIdx hr₀)⟩

theorem Queued.finish (h : Queued d) (hi : d.runs[i]? = some r) : Queued (d.finish i r) := by
  unfold Doc.finish
  split
  · exact h.endRun
  · exact h.setRun hi rfl False.elim

theorem Queued.unqueue (h : Queued d) {p : ℕ → Bool} (hp : ∀ q, Stays d q → p q = false) : Queued (d.unqueue p) := by
  obtain ⟨hlive, q, hq, hstays⟩ := h
  refine ⟨hlive, q, ?_, hstays⟩
  simp [Doc.unqueue, hq, hp q hstays]

theorem queued_of_waived (h : Waived d) (hi : d.runs[i]? = some r) : Queued d := by
  rcases h with hqueued | ⟨_, _, hnone⟩
  · exact hqueued
  · rw [hnone] at hi
    cases hi

/-! ## The invariant -/

variable (parseWikilinks) in
structure RunOk (clock : ℕ) (r : Run Title Text Link) : Prop where
  todo : ∀ content todo, r.stage = .writing content todo → todo <:+ plan parseWikilinks content
  started : r.started ≤ clock
  drain : ∀ q ∈ r.drain, q ≤ clock

variable (parseWikilinks) in
structure Ok (d : Doc Title Text Link Ref) : Prop where
  runs : ∀ r ∈ d.runs, RunOk parseWikilinks d.clock r
  queue : ∀ q ∈ d.queue, q ≤ d.clock

variable (parseWikilinks assetRefs) in
structure Inv (d : Doc Title Text Link Ref) : Prop where
  ok : Ok parseWikilinks d
  rows : Good parseWikilinks assetRefs d ∨ Waived d

theorem Ok.next (h : Ok parseWikilinks d) (hclock : d.clock ≤ d'.clock)
    (hruns : ∀ r ∈ d'.runs, r ∈ d.runs ∨ RunOk parseWikilinks d'.clock r)
    (hqueue : ∀ q ∈ d'.queue, q ∈ d.queue ∨ q ≤ d'.clock) : Ok parseWikilinks d' := by
  refine ⟨fun r hr => ?_, fun q hq => ?_⟩
  · rcases hruns r hr with hold | hnew
    · have hrun := h.runs r hold
      exact ⟨hrun.todo, hrun.started.trans hclock, fun q hq => (hrun.drain q hq).trans hclock⟩
    · exact hnew
  · rcases hqueue q hq with hold | hnew
    · exact (h.queue q hold).trans hclock
    · exact hnew

theorem Ok.setRun (h : Ok parseWikilinks d) (hr' : RunOk parseWikilinks d.clock r') :
    Ok parseWikilinks (d.setRun i r') := by
  refine h.next le_rfl (fun r₀ hr₀ => ?_) fun q hq => .inl hq
  rcases mem_or_eq_of_mem_set hr₀ with hold | rfl
  · exact .inl hold
  · exact .inr hr'

theorem Ok.endRun (h : Ok parseWikilinks d) : Ok parseWikilinks (d.endRun i) :=
  h.next le_rfl (fun _ hr₀ => .inl (mem_of_mem_eraseIdx hr₀)) fun _ => .inl

theorem Ok.unqueue (h : Ok parseWikilinks d) (p : ℕ → Bool) : Ok parseWikilinks (d.unqueue p) :=
  h.next le_rfl (fun _ => .inl) fun _ hq => .inl (Option.mem_filter_iff.mp hq).1

/-- a stage that writes nothing -/
theorem RunOk.stage {clock : ℕ} (h : RunOk parseWikilinks clock r) (hdrain : r'.drain = r.drain)
    (hstarted : r'.started = r.started) (hstage : ∀ content todo, r'.stage ≠ .writing content todo) :
    RunOk parseWikilinks clock r' := by
  refine ⟨fun content todo hw => absurd hw (hstage content todo), ?_, ?_⟩
  · rw [hstarted]
    exact h.started
  · rw [hdrain]
    exact h.drain

theorem Ok.finish (h : Ok parseWikilinks d) (hr : RunOk parseWikilinks d.clock r) :
    Ok parseWikilinks (d.finish i r) := by
  unfold Doc.finish
  split
  · have hend : Ok parseWikilinks (d.endRun i) := h.endRun
    exact ⟨hend.runs, hend.queue⟩
  · have hset : Ok parseWikilinks (d.setRun i { r with stage := .draining }) :=
      h.setRun (hr.stage rfl rfl fun _ _ hw => nomatch hw)
    exact ⟨hset.runs, hset.queue⟩

/-! ## Moves -/

/-- a stage that neither reads nor writes owes nothing -/
theorem owes_nothing (hfresh : ¬ Fresh cur r) (hstage : ∀ content y todo, r.stage ≠ .writing content (y :: todo))
    (x : Stmt Link) : ¬ Owes cur r x := by
  rintro (h | ⟨todo, hw, hx⟩)
  · exact hfresh h
  · cases todo with
    | nil => cases hx
    | cons y todo => exact hstage cur y todo hw

theorem inv_of_good (hok : Ok parseWikilinks d) (h : Good parseWikilinks assetRefs d) :
    Inv parseWikilinks assetRefs d :=
  ⟨hok, .inl h⟩

theorem inv_of_queued (hok : Ok parseWikilinks d) (h : Queued d) : Inv parseWikilinks assetRefs d :=
  ⟨hok, .inr (.inl h)⟩

section

variable (h : Inv parseWikilinks assetRefs d) (hi : d.runs[i]? = some r)

include h hi

/-- a run that goes on to another stage, in which it owes what it did -/
theorem Inv.setRun (hr' : RunOk parseWikilinks d.clock r')
    (hkeep : ∀ x ∈ plan parseWikilinks d.current, Owes d.current r x → Owes d.current r' x)
    (hdrain : r'.drain = r.drain) (hclears : Clears r' → Clears r ∧ r'.started = r.started) :
    Inv parseWikilinks assetRefs (d.setRun i r') := by
  have hok : Ok parseWikilinks (d.setRun i r') := h.ok.setRun hr'
  rcases h.rows with hgood | hwaived
  · exact inv_of_good hok (hgood.setRun hi hkeep)
  · exact inv_of_queued hok ((queued_of_waived hwaived hi).setRun hi hdrain hclears)

/-- a run that returns, and owes nothing -/
theorem Inv.finish (hno : ∀ x, ¬ Owes d.current r x) : Inv parseWikilinks assetRefs (d.finish i r) := by
  have hok : Ok parseWikilinks (d.finish i r) := h.ok.finish (h.ok.runs r (mem_of_getElem? hi))
  rcases h.rows with hgood | hwaived
  · exact inv_of_good hok (hgood.finish hi hno)
  · exact inv_of_queued hok ((queued_of_waived hwaived hi).finish hi)

theorem Inv.unqueue {p : ℕ → Bool}
    (hp : ∀ q, Stays d q → p q = false) : Inv parseWikilinks assetRefs (d.unqueue p) := by
  have hok : Ok parseWikilinks (d.unqueue p) := h.ok.unqueue p
  rcases h.rows with hgood | hwaived
  · exact inv_of_good hok hgood
  · exact inv_of_queued hok ((queued_of_waived hwaived hi).unqueue hp)

theorem inv_readsRow {now : ℕ} (hnow : d.clock < now) {stage : Stage Title Text Link}
    (hstage : (d.note = none ∧ stage = .writing none (plan parseWikilinks (none : Option (Title × Text)))) ∨
      ∃ title, d.note = some title ∧ stage = .keying title) :
    Inv parseWikilinks assetRefs { d.setRun i { r with stage := stage, started := now } with clock := now } := by
  have hmem : ({ r with stage := stage, started := now } : Run Title Text Link) ∈ d.runs.set i _ := mem_set_self hi
  have hrun := h.ok.runs r (mem_of_getElem? hi)
  have hok : Ok parseWikilinks { d.setRun i { r with stage := stage, started := now } with clock := now } := by
    refine h.ok.next hnow.le (fun r₀ hr₀ => ?_) fun q hq => .inl hq
    rcases mem_or_eq_of_mem_set hr₀ with hold | rfl
    · exact .inl hold
    · refine .inr ⟨fun content todo hw => ?_, le_rfl, fun q hq => (hrun.drain q hq).trans hnow.le⟩
      rcases hstage with ⟨_, rfl⟩ | ⟨title, _, rfl⟩
      · obtain ⟨rfl, rfl⟩ := Stage.writing.inj hw
        exact suffix_refl _
      · cases hw
  refine inv_of_good hok ?_
  rcases hstage with ⟨hnone, rfl⟩ | ⟨title, hsome, rfl⟩
  · -- the note is not live: the run is a purge
    have hcur : d.current = none := by
      unfold Doc.current
      rw [hnone]
      rfl
    intro x hx
    change x ∈ plan parseWikilinks d.current at hx
    refine .inr (.inr ⟨_, hmem, .inr ⟨_, ?_, hx⟩⟩)
    change Stage.writing none _ = Stage.writing d.current _
    rw [hcur]
  · refine good_of_coming (.inr ⟨_, hmem, ?_⟩)
    change d.current.map Prod.fst = some title
    unfold Doc.current
    rw [hsome]
    rfl

end

variable {title : Title}

section

variable (h : Inv parseWikilinks assetRefs d) (hi : d.runs[i]? = some r)

include h hi

theorem inv_finds (hstage : r.stage = .keying title) {keyed : Bool} :
    Inv parseWikilinks assetRefs (d.setRun i { r with stage := .reading title, keyed := keyed }) := by
  have hrun := h.ok.runs r (mem_of_getElem? hi)
  refine h.setRun hi (hrun.stage rfl rfl fun _ _ hw => nomatch hw) (fun x _ howes => .inl ?_) rfl fun _ => ⟨?_, rfl⟩
  · rcases howes with hfresh | ⟨todo, hw, _⟩
    · unfold Fresh at hfresh
      rw [hstage] at hfresh
      exact hfresh
    · rw [hstage] at hw
      cases hw
  · unfold Clears
    rw [hstage]
    trivial

theorem inv_missing (hstage : r.stage = .keying title) :
    Inv parseWikilinks assetRefs (d.setRun i { r with stage := .deferring }) := by
  have hrun := h.ok.runs r (mem_of_getElem? hi)
  refine h.setRun hi (hrun.stage rfl rfl fun _ _ hw => nomatch hw) (fun x _ howes => .inl ?_) rfl False.elim
  rcases howes with hfresh | ⟨todo, hw, _⟩
  · unfold Fresh at hfresh
    rw [hstage] at hfresh
    intro hnone
    rw [hnone] at hfresh
    cases hfresh
  · rw [hstage] at hw
    cases hw

theorem inv_readsText (hstage : r.stage = .reading title) :
    Inv parseWikilinks assetRefs (d.setRun i { r with
      stage := .writing (some (title, d.text)) (plan parseWikilinks (some (title, d.text))) }) := by
  have hrun := h.ok.runs r (mem_of_getElem? hi)
  refine h.setRun hi ⟨fun content todo hw => ?_, hrun.started, hrun.drain⟩ (fun x hx howes => .inr ?_) rfl
    fun _ => ⟨?_, rfl⟩
  · obtain ⟨rfl, rfl⟩ := Stage.writing.inj hw
    exact suffix_refl _
  · rcases howes with hfresh | ⟨todo, hw, _⟩
    · unfold Fresh at hfresh
      rw [hstage] at hfresh
      have hcur : d.current = some (title, d.text) := by
        unfold Doc.current at hfresh ⊢
        cases hnote : d.note with
        | none =>
          rw [hnote] at hfresh
          cases hfresh
        | some t =>
          rw [hnote] at hfresh
          cases hfresh
          rfl
      rw [hcur] at hx ⊢
      exact ⟨_, rfl, hx⟩
    · rw [hstage] at hw
      cases hw
  · unfold Clears
    rw [hstage]
    trivial

theorem inv_falls (hkeyed : r.keyed = true)
    (hstage : r.stage = .reading title ∨ (∃ text todo, r.stage = .writing (some (title, text)) todo) ∨
      r.stage = .clearing title)
    : Inv parseWikilinks assetRefs (d.setRun i { r with stage := .keying title, given := false }) := by
  have hrun := h.ok.runs r (mem_of_getElem? hi)
  refine h.setRun hi (hrun.stage rfl rfl fun _ _ hw => nomatch hw) (fun x _ howes => .inl ?_) rfl fun _ => ⟨?_, rfl⟩
  · rcases howes with hfresh | ⟨todo, hw, _⟩
    · unfold Fresh at hfresh
      rcases hstage with hs | ⟨text, todo, hs⟩ | hs
      · rw [hs] at hfresh
        exact hfresh
      · rw [hs] at hfresh
        exact hfresh.elim
      · rw [hs] at hfresh
        exact hfresh.elim
    · rcases hstage with hs | ⟨text, todo', hs⟩ | hs
      · rw [hs] at hw
        cases hw
      · rw [hs] at hw
        rw [← (Stage.writing.inj hw).1]
        rfl
      · rw [hs] at hw
        cases hw
  · unfold Clears
    rcases hstage with hs | ⟨text, todo, hs⟩ | hs
    · rw [hs]
      trivial
    · rw [hs]
      exact hkeyed
    · rw [hs]
      trivial

end

/-! ### Writes -/

theorem current_exec (content : Option (Title × Text)) (x : Stmt Link) :
    (d.exec assetRefs content x).current = d.current := by
  cases x <;> rfl

theorem runs_exec (content : Option (Title × Text)) (x : Stmt Link) : (d.exec assetRefs content x).runs = d.runs := by
  cases x <;> rfl

variable {content : Option (Title × Text)} {x : Stmt Link}

theorem owed_exec {y : Stmt Link} : Owed (d.exec assetRefs content x) y ↔ Owed d y := by
  cases x <;> rfl

theorem queued_exec : Queued (d.exec assetRefs content x) ↔ Queued d := by
  cases x <;> rfl

theorem coming_exec : Coming (d.exec assetRefs content x) ↔ Coming d := by
  cases x <;> rfl

theorem Ok.exec (h : Ok parseWikilinks d) (content : Option (Title × Text)) (x : Stmt Link) :
    Ok parseWikilinks (d.exec assetRefs content x) := by
  cases x <;> exact ⟨h.runs, h.queue⟩

/-- what the statement writes of the note as it is, is so -/
theorem done_self : Done parseWikilinks assetRefs (d.exec assetRefs d.current x) x := by
  cases x with
  | index | refs => rfl
  | deleteLinks => exact fun link hlink => absurd hlink (Finset.notMem_empty link)
  | insertLink link => exact Finset.mem_insert_self link d.links

/-- and what was so before still is, but for the links after their delete -/
theorem done_exec {y : Stmt Link} (hx : x ∈ plan parseWikilinks d.current) (hy : Done parseWikilinks assetRefs d y)
    (hne : x ≠ .deleteLinks ∨ ∀ link, y ≠ .insertLink link) :
    Done parseWikilinks assetRefs (d.exec assetRefs d.current x) y := by
  cases x with
  | index =>
    cases y with
    | index => rfl
    | refs | deleteLinks | insertLink _ => exact hy
  | refs =>
    cases y with
    | index | deleteLinks | insertLink _ => exact hy
    | refs => rfl
  | deleteLinks =>
    cases y with
    | index | refs => exact hy
    | deleteLinks => exact fun link hlink => absurd hlink (Finset.notMem_empty link)
    | insertLink link =>
      rcases hne with hne | hne
      · exact absurd rfl hne
      · exact absurd rfl (hne link)
  | insertLink link =>
    cases y with
    | index | refs => exact hy
    | deleteLinks =>
      intro link' hlink'
      rcases Finset.mem_insert.mp hlink' with rfl | hold
      · exact mem_plan_insertLink.mp hx
      · exact hy link' hold
    | insertLink link' => exact Finset.mem_insert_of_mem hy

/-- a run that writes the note as it is -/
theorem Good.writes (h : Good parseWikilinks assetRefs d) (hi : d.runs[i]? = some r)
    (hstage : r.stage = .writing d.current (x :: todo)) (hplan : x :: todo <:+ plan parseWikilinks d.current) :
    Good parseWikilinks assetRefs
      ((d.exec assetRefs d.current x).setRun i { r with stage := .writing d.current todo }) := by
  have hx : x ∈ plan parseWikilinks d.current := hplan.subset mem_cons_self
  intro y hy
  change y ∈ plan parseWikilinks (d.exec assetRefs d.current x).current at hy
  rw [current_exec] at hy
  have hi' : (d.exec assetRefs d.current x).runs[i]? = some r := by
    rw [runs_exec]
    exact hi
  have hmem : ({ r with stage := .writing d.current todo } : Run Title Text Link) ∈
      (d.exec assetRefs d.current x).runs.set i { r with stage := .writing d.current todo } := mem_set_self hi'
  have howed : y ∈ todo →
      Owed ((d.exec assetRefs d.current x).setRun i { r with stage := .writing d.current todo }) y := by
    intro htodo
    refine .inr ⟨_, hmem, .inr ⟨todo, ?_, htodo⟩⟩
    change Stage.writing d.current todo = Stage.writing (d.exec assetRefs d.current x).current todo
    rw [current_exec]
  rcases eq_or_ne y x with rfl | hne
  · exact .inl done_self
  · rcases h y hy with hdone | hold
    · by_cases hdelete : x = .deleteLinks ∧ ∃ link, y = .insertLink link
      · -- the run itself inserts the links that it has deleted
        obtain ⟨rfl, link, rfl⟩ := hdelete
        exact .inr (howed (links_after_delete hplan (mem_plan_insertLink.mp hy)))
      · refine .inl (done_exec hx hdone ?_)
        by_contra hboth
        push Not at hboth
        exact hdelete hboth
    · right
      by_cases htodo : y ∈ todo
      · exact howed htodo
      · refine (owed_exec.mpr hold).setRun hi' fun howes => ?_
        exfalso
        rcases howes with hfresh | ⟨todo', hw, hy'⟩
        · unfold Fresh at hfresh
          rw [hstage] at hfresh
          exact hfresh
        · rw [hstage] at hw
          obtain rfl := (Stage.writing.inj hw).2
          rcases mem_cons.mp hy' with rfl | hmem
          · exact hne rfl
          · exact htodo hmem

section

variable (h : Inv parseWikilinks assetRefs d) (hi : d.runs[i]? = some r)

include h hi

theorem inv_writes (hstage : r.stage = .writing content (x :: todo)) (hcond : content = d.current ∨ Outstanding d) :
    Inv parseWikilinks assetRefs ((d.exec assetRefs content x).setRun i { r with stage := .writing content todo }) := by
  have hrun := h.ok.runs r (mem_of_getElem? hi)
  have hplan : x :: todo <:+ plan parseWikilinks content := hrun.todo _ _ hstage
  have hi' : (d.exec assetRefs content x).runs[i]? = some r := by
    rw [runs_exec]
    exact hi
  have hok : Ok parseWikilinks ((d.exec assetRefs content x).setRun i { r with stage := .writing content todo }) := by
    refine (h.ok.exec content x).setRun ⟨fun content' todo' hw => ?_, ?_, ?_⟩
    · obtain ⟨rfl, rfl⟩ := Stage.writing.inj hw
      exact (suffix_cons x todo).trans hplan
    · cases x <;> exact hrun.started
    · cases x <;> exact hrun.drain
  -- an entry of the queue stays whatever is written
  have hqueued : Queued d →
      Queued ((d.exec assetRefs content x).setRun i { r with stage := .writing content todo }) := by
    intro hq
    refine (queued_exec.mpr hq).setRun hi' rfl fun hclears => ⟨?_, rfl⟩
    unfold Clears
    rw [hstage]
    cases content with
    | none => exact hclears.elim
    | some c => exact hclears
  rcases h.rows with hgood | hwaived
  · rcases hcond with rfl | hout
    · exact inv_of_good hok (hgood.writes hi hstage hplan)
    · rcases hout with hcoming | hwaived
      · refine inv_of_good hok (good_of_coming ?_)
        refine (coming_exec.mpr hcoming).imp_right fun hfresh => exists_mem_set _ hi' (fun hr => ?_) hfresh
        unfold Fresh at hr
        rw [hstage] at hr
        exact hr.elim
      · exact inv_of_queued hok (hqueued (queued_of_waived hwaived hi))
  · exact inv_of_queued hok (hqueued (queued_of_waived hwaived hi))

theorem inv_ends (hstage : r.stage = .writing content []) :
    Inv parseWikilinks assetRefs (d.finish i r) ∧ ∀ c, content = some c → r.keyed = true →
      Inv parseWikilinks assetRefs (d.setRun i { r with stage := .clearing c.1 }) := by
  have hrun := h.ok.runs r (mem_of_getElem? hi)
  have hno : ∀ x, ¬ Owes d.current r x := by
    refine owes_nothing ?_ ?_
    · unfold Fresh
      rw [hstage]
      exact id
    · intro content y todo hw
      rw [hstage] at hw
      cases hw
  refine ⟨h.finish hi hno, fun c hc hkeyed => ?_⟩
  refine h.setRun hi (hrun.stage rfl rfl fun _ _ hw => nomatch hw) (fun x _ howes => absurd howes (hno x)) rfl
    fun _ => ⟨?_, rfl⟩
  unfold Clears
  rw [hstage, hc]
  exact hkeyed

theorem inv_clears (hstage : r.stage = .clearing title) :
    Inv parseWikilinks assetRefs ((d.unqueue fun q => decide (q < r.started)).finish i r) := by
  have hno : ∀ x, ¬ Owes d.current r x := by
    refine owes_nothing ?_ ?_
    · unfold Fresh
      rw [hstage]
      exact id
    · intro content y todo hw
      rw [hstage] at hw
      cases hw
  have hun : Inv parseWikilinks assetRefs (d.unqueue fun q => decide (q < r.started)) := by
    refine h.unqueue hi fun q hstays => ?_
    obtain ⟨_, hle⟩ := hstays r (mem_of_getElem? hi)
    have hstarted : r.started ≤ q := hle (by unfold Clears; rw [hstage]; trivial)
    exact decide_eq_false (by omega)
  exact hun.finish hi hno

/-- the entry is younger than every run and every drain, so that it stays -/
theorem inv_defers (hstage : r.stage = .deferring) {now : ℕ} (hnow : d.clock < now) :
    Inv parseWikilinks assetRefs ((d.enqueue now).finish i r) := by
  have hrun := h.ok.runs r (mem_of_getElem? hi)
  have hok : Ok parseWikilinks (d.enqueue now) := by
    refine h.ok.next hnow.le (fun _ => .inl) fun q hq => .inr ?_
    cases hq
    exact le_rfl
  have hfinish : Ok parseWikilinks ((d.enqueue now).finish i r) :=
    hok.finish ⟨hrun.todo, hrun.started.trans hnow.le, fun q hq => (hrun.drain q hq).trans hnow.le⟩
  by_cases hlive : d.note = none
  · -- the note is gone, and the entry is of no use
    have hgood : Good parseWikilinks assetRefs d := by
      rcases h.rows with hgood | (⟨hne, _⟩ | ⟨hne, _⟩)
      · exact hgood
      · exact absurd hlive hne
      · exact absurd hlive hne
    have hno : ∀ x, ¬ Owes d.current r x := by
      refine owes_nothing ?_ ?_
      · unfold Fresh Doc.current
        rw [hstage, hlive]
        exact fun hne => hne rfl
      · intro content y todo hw
        rw [hstage] at hw
        cases hw
    have hgood' : Good parseWikilinks assetRefs (d.enqueue now) := hgood
    exact inv_of_good hfinish (hgood'.finish hi hno)
  · have hqueued : Queued (d.enqueue now) := by
      refine ⟨hlive, now, rfl, fun r₀ hr₀ => ⟨fun hdrain => ?_, fun _ => ?_⟩⟩
      · have hle := (h.ok.runs r₀ hr₀).drain now hdrain
        omega
      · exact (h.ok.runs r₀ hr₀).started.trans hnow.le
    exact inv_of_queued hfinish (hqueued.finish hi)

theorem inv_drained (hstage : r.stage = .draining) :
    Inv parseWikilinks assetRefs ((d.unqueue fun q => decide (r.drain = some q)).endRun i) ∧
      Inv parseWikilinks assetRefs (d.endRun i) := by
  have hno : ∀ x, ¬ Owes d.current r x := by
    refine owes_nothing ?_ ?_
    · unfold Fresh
      rw [hstage]
      exact id
    · intro content y todo hw
      rw [hstage] at hw
      cases hw
  have hend : ∀ d : Doc Title Text Link Ref, Inv parseWikilinks assetRefs d → d.runs[i]? = some r →
      (∀ x, ¬ Owes d.current r x) → Inv parseWikilinks assetRefs (d.endRun i) := by
    intro d h hi hno
    rcases h.rows with hgood | hwaived
    · exact inv_of_good h.ok.endRun fun x hx => (hgood x hx).imp_right fun howed => howed.endRun hi (hno x)
    · exact inv_of_queued h.ok.endRun (queued_of_waived hwaived hi).endRun
  have hun : Inv parseWikilinks assetRefs (d.unqueue fun q => decide (r.drain = some q)) := by
    refine h.unqueue hi fun q hstays => ?_
    exact decide_eq_false (hstays r (mem_of_getElem? hi)).1
  exact ⟨hend _ hun hi hno, hend d h hi hno⟩

end

theorem inv_of_outstanding (hok : Ok parseWikilinks d) (h : Outstanding d) : Inv parseWikilinks assetRefs d :=
  ⟨hok, h.imp good_of_coming id⟩

theorem inv_fails (h : Inv parseWikilinks assetRefs d) (hi : d.runs[i]? = some r)
    (hcond : MoveCond parseWikilinks assetRefs d i r .fails) :
    Inv parseWikilinks assetRefs { d.endRun i with failed := true } := by
  have hend : Ok parseWikilinks (d.endRun i) := h.ok.endRun
  have hok : Ok parseWikilinks { d.endRun i with failed := true } := ⟨hend.runs, hend.queue⟩
  rcases hcond with hothers | hout
  · rcases h.rows with hgood | hwaived
    · refine inv_of_good hok fun x hx => ?_
      rcases hgood x hx with hdone | howed
      · exact .inl hdone
      · by_cases howes : Owes d.current r x
        · exact hothers x hx howes
        · exact .inr (howed.endRun hi howes)
    · have hq : Queued (d.endRun i) := (queued_of_waived hwaived hi).endRun
      exact inv_of_queued hok hq
  · exact inv_of_outstanding hok hout

theorem inv_move (h : Inv parseWikilinks assetRefs d) (hi : d.runs[i]? = some r) {m : Move}
    (hcond : MoveCond parseWikilinks assetRefs d i r m) :
    Inv parseWikilinks assetRefs (d.move parseWikilinks assetRefs i r m) := by
  unfold Doc.move
  split
  · next now hstage =>
    refine inv_readsRow h hi hcond ?_
    cases hnote : d.note with
    | none => exact .inl ⟨rfl, rfl⟩
    | some title => exact .inr ⟨title, rfl, rfl⟩
  · next title hstage => exact inv_finds h hi hstage
  · next title hstage => exact inv_finds h hi hstage
  · next title hstage => exact inv_missing h hi hstage
  · next title hstage => exact inv_readsText h hi hstage
  · next content x todo hstage => exact inv_writes h hi hstage (hcond content _ hstage)
  · next content hstage =>
    obtain ⟨hfinish, hclearing⟩ := inv_ends h hi hstage
    split
    · next c =>
      split
      · next hkeyed => exact hclearing c rfl hkeyed
      · exact hfinish
    · exact hfinish
  · next title hstage => exact inv_clears h hi hstage
  · next now hstage => exact inv_defers h hi hstage hcond
  · next title hstage =>
    split
    · next hgiven => exact inv_falls h hi hgiven.2 (.inl hstage)
    · exact h
  · next title text todo hstage =>
    split
    · next hgiven => exact inv_falls h hi hgiven.2 (.inr (.inl ⟨text, todo, hstage⟩))
    · exact h
  · next title hstage =>
    split
    · next hgiven => exact inv_falls h hi hgiven.2 (.inr (.inr hstage))
    · exact h
  · next hstage => exact (inv_drained h hi hstage).2
  · next => exact inv_fails h hi hcond
  · next hstage => exact (inv_drained h hi hstage).1
  · exact h

/-! ## Steps -/

theorem Ok.addRun (h : Ok parseWikilinks d) (hr : RunOk parseWikilinks d.clock r) : Ok parseWikilinks (d.addRun r) := by
  refine h.next le_rfl (fun r₀ hr₀ => ?_) fun q hq => .inl hq
  rcases mem_snoc.1 hr₀ with hold | rfl
  · exact .inl hold
  · exact .inr hr

/-- a run that waits has read nothing yet -/
theorem inv_waits (hok : Ok parseWikilinks d) (given : Bool) {drain : Option ℕ} (hdrain : ∀ q ∈ drain, q ≤ d.clock) :
    Inv parseWikilinks assetRefs (d.addRun { stage := .waiting, given := given, drain := drain }) := by
  refine inv_of_good (hok.addRun ⟨fun _ _ hw => (nomatch hw), Nat.zero_le _, hdrain⟩) (good_of_coming (.inr ?_))
  exact ⟨_, mem_append_right _ mem_cons_self, trivial⟩

theorem inv_soon (hok : Ok parseWikilinks d) (h : Soon d) : Inv parseWikilinks assetRefs d :=
  inv_of_good hok (good_of_coming (.inl h))

theorem inv_step (h : Inv parseWikilinks assetRefs d) {a : Action Title Text}
    (hcond : Cond parseWikilinks assetRefs d a) : Inv parseWikilinks assetRefs (d.step parseWikilinks assetRefs a) := by
  cases a with
  | edits text => exact inv_soon ⟨h.ok.runs, h.ok.queue⟩ (.inl (Nat.succ_pos _))
  | renames title =>
    dsimp only [Doc.step]
    cases hnote : d.note with
    | none =>
      have hsame : ({ d with note := none } : Doc Title Text Link Ref) = d := by rw [← hnote]
      change Inv parseWikilinks assetRefs { d with note := none }
      rw [hsame]
      exact h
    | some old =>
      rcases hcond with hnone | hsome | hout
      · rw [hnone] at hnote
        cases hnote
      · have hsame : ({ d with note := some title } : Doc Title Text Link Ref) = d := by rw [← hsome]
        change Inv parseWikilinks assetRefs { d with note := some title }
        rw [hsame]
        exact h
      · exact inv_of_outstanding ⟨h.ok.runs, h.ok.queue⟩ hout
  | deletes =>
    dsimp only [Doc.step]
    split
    · -- the purge that follows owes all that is to go
      have hok : Ok parseWikilinks ({ d with note := none } : Doc Title Text Link Ref) := ⟨h.ok.runs, h.ok.queue⟩
      refine inv_of_good (hok.addRun ⟨fun content todo hw => ?_, Nat.zero_le _, fun _ hq => nomatch hq⟩) ?_
      · obtain ⟨rfl, rfl⟩ := Stage.writing.inj hw
        exact suffix_refl _
      · intro x hx
        exact .inr (.inr ⟨_, mem_append_right _ mem_cons_self, .inr ⟨_, rfl, hx⟩⟩)
    · exact h
  | revives title hooked =>
    dsimp only [Doc.step]
    split
    · exact h
    · next hnote =>
      cases hooked with
      | true => exact inv_soon ⟨h.ok.runs, h.ok.queue⟩ (.inl (Nat.succ_pos _))
      | false =>
        rcases hcond hnote with hfalse | hout
        · cases hfalse
        · exact inv_of_outstanding ⟨h.ok.runs, h.ok.queue⟩ hout
  | schedules =>
    dsimp only [Doc.step]
    split
    · exact inv_soon ⟨h.ok.runs, h.ok.queue⟩ (.inr rfl)
    · exact h
  | indexes given =>
    dsimp only [Doc.step]
    split
    · have hok : Ok parseWikilinks ({ d with hooks := d.hooks - 1 } : Doc Title Text Link Ref) :=
        ⟨h.ok.runs, h.ok.queue⟩
      exact inv_waits hok given fun _ hq => nomatch hq
    · exact h
  | fires given =>
    dsimp only [Doc.step]
    split
    · have hok : Ok parseWikilinks ({ d with timer := false } : Doc Title Text Link Ref) := ⟨h.ok.runs, h.ok.queue⟩
      exact inv_waits hok given fun _ hq => nomatch hq
    · exact h
  | starts given => exact inv_waits h.ok given fun _ hq => nomatch hq
  | drains =>
    dsimp only [Doc.step]
    split
    · next q hq =>
      refine inv_waits h.ok true fun q' hq' => ?_
      cases hq'
      exact h.ok.queue q hq
    · exact h
  | moves i m =>
    dsimp only [Doc.step]
    split
    · next r hi => exact inv_move h hi (hcond r hi)
    · exact h

/-! ## Runs -/

theorem inv_atRest (h : AtRest parseWikilinks assetRefs d) : Inv parseWikilinks assetRefs d := by
  have hok : Ok parseWikilinks d := by
    refine ⟨fun r hr => ?_, h.queue⟩
    rw [h.quiet.runs] at hr
    cases hr
  refine ⟨hok, ?_⟩
  rcases h.settled with hderived | ⟨hlive, hqueue | hfailed⟩
  · exact .inl fun x hx => .inl (done_of_derived hderived x hx)
  · obtain ⟨q, hq⟩ := Option.ne_none_iff_exists'.mp hqueue
    refine .inr (.inl ⟨hlive, q, hq, fun r hr => ?_⟩)
    rw [h.quiet.runs] at hr
    cases hr
  · exact .inr (.inr ⟨hlive, hfailed, h.quiet.runs⟩)

theorem settled_of_quiet (h : Inv parseWikilinks assetRefs d) (hquiet : Quiet d) :
    Settled parseWikilinks assetRefs d := by
  rcases h.rows with hgood | (⟨hlive, q, hq, _⟩ | ⟨hlive, hfailed, _⟩)
  · refine .inl (derived_of_done fun x hx => ?_)
    rcases hgood x hx with hdone | hhooks | ⟨r, hr, _⟩
    · exact hdone
    · rcases hhooks with hpos | htimer
      · rw [hquiet.hooks] at hpos
        omega
      · rw [hquiet.timer] at htimer
        cases htimer
    · rw [hquiet.runs] at hr
      cases hr
  · exact .inr ⟨hlive, .inl (by rw [hq]; exact Option.some_ne_none q)⟩
  · exact .inr ⟨hlive, .inr hfailed⟩

variable {Id : Type*} [DecidableEq Id]

variable (parseWikilinks assetRefs) in
def Orderly (s : Id → Doc Title Text Link Ref) (a : Id × Action Title Text) : Prop :=
  Cond parseWikilinks assetRefs (s a.1) a.2

/-- **The search index follows the text.** In every run whose steps meet the condition, a note of which nothing is
outstanding has the rows of its title and text, is queued, or failed to be indexed; and has none if it is not live. -/
theorem index_follows {s : Id → Doc Title Text Link Ref} (hs : ∀ id, AtRest parseWikilinks assetRefs (s id))
    {as : List (Id × Action Title Text)}
    (hrun : Machine.Guarded (step parseWikilinks assetRefs) (Orderly parseWikilinks assetRefs) s as) (id : Id)
    (hquiet : Quiet (Machine.run (step parseWikilinks assetRefs) s as id)) :
    Settled parseWikilinks assetRefs (Machine.run (step parseWikilinks assetRefs) s as id) := by
  have hstep : ∀ (s : Id → Doc Title Text Link Ref) (a : Id × Action Title Text),
      (∀ id, Inv parseWikilinks assetRefs (s id)) → Orderly parseWikilinks assetRefs s a →
      ∀ id, Inv parseWikilinks assetRefs (step parseWikilinks assetRefs s a id) := by
    intro s a hinv hcond id
    unfold step
    rcases eq_or_ne id a.1 with rfl | hne
    · rw [Function.update_self]
      exact inv_step (hinv a.1) hcond
    · rw [Function.update_of_ne hne]
      exact hinv id
  have hinv := Machine.run_inv hstep (fun id => inv_atRest (hs id)) hrun
  exact settled_of_quiet (hinv id) hquiet

/-! ## Runs on fixed inputs -/

abbrev PlainDoc := Doc ℕ ℕ ℕ ℕ

/-- a text is one link and one reference, but for the empty one -/
def plainLinks (text : ℕ) : List ℕ := if text = 0 then [] else [text]

def plainRefs (text : ℕ) : Finset ℕ := if text = 0 then ∅ else {text}

def runAll (d : PlainDoc) (as : List (Action ℕ ℕ)) : PlainDoc :=
  Machine.run (step plainLinks plainRefs) (fun _ : Unit => d) (as.map fun a => ((), a)) ()

def indexed : PlainDoc where
  note := some 7
  text := 0
  index := some (7, 0)

/-- an edit and its run, up to where it has read the text -/
def edited (i now text : ℕ) : List (Action ℕ ℕ) :=
  [.edits text, .schedules, .fires false, .moves i (.readsRow now), .moves i (.finds .plain), .moves i .readsText]

/-- the four statements of a run -/
def written (i : ℕ) : List (Action ℕ ℕ) :=
  [.moves i .writes, .moves i .writes, .moves i .writes, .moves i .writes, .moves i .ends]

/-- the rows of the first edit's text under that of the second -/
def stale : PlainDoc where
  note := some 7
  text := 2
  index := some (7, 1)
  refs := {1}
  links := {1}
  clock := 2

/-- **The older run writes last.** The run of the first edit has read its text when the second edit is made, and comes
to its statements when the run of that is over. -/
theorem older_run_writes_last :
    AtRest plainLinks plainRefs indexed ∧
      runAll indexed (edited 0 1 1 ++ edited 1 2 2 ++ written 1 ++ written 0) = stale ∧ Quiet stale ∧
      ¬ Settled plainLinks plainRefs stale := by
  refine ⟨⟨⟨rfl, rfl, rfl⟩, .inl ⟨rfl, rfl, rfl⟩, fun _ hq => (nomatch hq)⟩, by decide, ⟨rfl, rfl, rfl⟩, ?_⟩
  rintro (hderived | ⟨_, hqueue | hfailed⟩)
  · exact absurd hderived.index (by decide)
  · exact hqueue rfl
  · cases hfailed

/-- the note is deleted and purged while a run has read its text: it has rows again -/
example : (runAll indexed (edited 0 1 1 ++ [.deletes, .moves 1 .writes, .moves 1 .writes, .moves 1 .writes,
    .moves 1 .ends] ++ written 0)).index = some (7, 1) := by
  decide

/-- an edit that empties the note, in a vault whose key comes later -/
def deferred : List (Unit × Action ℕ ℕ) :=
  [.edits 0, .schedules, .fires false, .moves 0 (.readsRow 1), .moves 0 (.finds .missing), .moves 0 (.defers 2),
    .drains, .moves 0 (.readsRow 3), .moves 0 (.finds .held), .moves 0 .readsText, .moves 0 .writes, .moves 0 .writes,
    .moves 0 .writes, .moves 0 .ends, .moves 0 .clears, .moves 0 .drained].map fun a => ((), a)

theorem deferred_is_indexed :
    Settled plainLinks plainRefs (Machine.run (step plainLinks plainRefs) (fun _ => indexed) deferred ()) := by
  have hstart : AtRest plainLinks plainRefs indexed :=
    ⟨⟨rfl, rfl, rfl⟩, .inl ⟨rfl, rfl, rfl⟩, fun _ hq => (nomatch hq)⟩
  have hwrites : ∀ (d : PlainDoc) (r : Run ℕ ℕ ℕ), d.runs[0]? = some r → ∀ content todo,
      r.stage = .writing content todo → content = some (7, 0) → d.current = some (7, 0) →
      Cond plainLinks plainRefs d (.moves 0 .writes) := by
    intro d r hi content todo hstage hcontent hcur r' hr' content' todo' hstage'
    rw [Option.mem_def, hi] at hr'
    cases hr'
    rw [hstage] at hstage'
    rw [← (Stage.writing.inj hstage').1, hcontent, hcur]
    exact .inl rfl
  refine index_follows (fun _ => hstart) ?_ () ⟨by decide, by decide, by decide⟩
  refine ⟨trivial, trivial, trivial, fun _ _ => Nat.zero_lt_one, fun _ _ => trivial, fun _ _ => Nat.lt_succ_self 1,
    trivial, fun _ _ => Nat.lt_succ_self 2, fun _ _ => trivial, fun _ _ => trivial, ?_, ?_, ?_, fun _ _ => trivial,
    fun _ _ => trivial, fun _ _ => trivial, trivial⟩
  · exact hwrites _ _ rfl _ _ rfl rfl rfl
  · exact hwrites _ _ rfl _ _ rfl rfl rfl
  · exact hwrites _ _ rfl _ _ rfl rfl rfl

end Baalda.SearchIndex
