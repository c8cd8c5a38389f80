/-
`createNote` where there is a note at the path already (mcp/service.ts): it adopts that note, and seeds it with the
content if it is blank.

The note is its units, each with who wrote it. A call reads the text without the document's lock, and writes under it
later; editors and other calls write in between. The write is one step: what comes while the row of a detached write is
on its way is merged, as if it came after. A write is what `setContent` does of the note (`seed_text`).

`adoption_overwrites_nothing`: a seed takes away nothing of another writer's, in every run in which nobody else writes
between a call's read and its write, unless that leaves only white space which the seed keeps.
-/
import Baalda.Lib.Machine
import Baalda.Lib.Slots
import Baalda.Server.DocWriter

namespace Baalda.NoteAdoption

open Utf16 DocWriter

/-! ## Model -/

/-- `none`: an editor; `some i`: the `i`th call -/
abbrev Writer := Option ℕ

abbrev Note := List (Writer × UInt16)

def textOf (note : Note) : Text := note.map (·.2)

/-- an operation by a writer, and what it takes away -/
def writeAs (writer : Writer) (op : TextOp) (note : Note) : Note × Note :=
  let index := (op.index.getD 0).toNat
  let n := (op.deleteLength.getD 0).toNat
  (note.take index ++ op.insert.map (fun c => (writer, c)) ++ note.drop (index + n), (note.drop index).take n)

def writeAllAs (writer : Writer) : List TextOp → Note → Note × Note
  | [], note => (note, [])
  | op :: ops, note =>
    let (note, gone) := writeAs writer op note
    let (note, gone') := writeAllAs writer ops note
    (note, gone ++ gone')

/-- `setContent` by the `i`th call -/
def seed (i : ℕ) (content : Text) (note : Note) : Note × Note :=
  writeAllAs (some i) (replacementOp (textOf note) content) note

inductive Phase where
  /-- the row of the note is looked up, and its text is read -/
  | starting
  /-- it has read a blank text -/
  | seeding
  | answered (seeded : Bool)
  | failed
  deriving DecidableEq

structure Call where
  content : Text
  phase : Phase := .starting
  deriving DecidableEq

structure St where
  note : Note := []
  calls : List Call := []
  /-- what the calls took away -/
  removed : List (ℕ × Writer × UInt16) := []
  /-- the texts that the calls seeded their content into -/
  seededInto : List Text := []

inductive Action where
  | begins (content : Text)
  | reads (i : ℕ)
  | writes (i : ℕ)
  | fails (i : ℕ)
  /-- an editor deletes `n` units at `index` and inserts `insert` -/
  | edits (index n : ℕ) (insert : Text)
  deriving DecidableEq

namespace St

variable (capChars : ℕ) (s : St)

def put (i : ℕ) (c : Call) : St := { s with calls := s.calls.set i c }

def reads (i : ℕ) : St := match s.calls[i]? with
  | some c =>
    if c.phase = .starting then
      if c.content = [] then s.put i { c with phase := .answered false }
      else if isBlank (textOf s.note) then s.put i { c with phase := .seeding }
      else s.put i { c with phase := .answered false }
    else s
  | none => s

def writes (i : ℕ) : St := match s.calls[i]? with
  | some c =>
    if c.phase = .seeding then match (setContent capChars (textOf s.note) c.content).2 with
      | some _ => s.put i { c with phase := .failed }
      | none => { s.put i { c with phase := .answered true } with
          note := (seed i c.content s.note).1
          removed := s.removed ++ (seed i c.content s.note).2.map fun u => (i, u)
          seededInto := s.seededInto ++ [textOf s.note] }
    else s
  | none => s

def fails (i : ℕ) : St := match s.calls[i]? with
  | some c => if c.phase = .starting ∨ c.phase = .seeding then s.put i { c with phase := .failed } else s
  | none => s

def edits (index n : ℕ) (insert : Text) : St :=
  { s with note := (writeAs none ⟨some index, some n, insert⟩ s.note).1 }

end St

def step (capChars : ℕ) (s : St) : Action → St
  | .begins content => { s with calls := s.calls ++ [{ content := content }] }
  | .reads i => s.reads i
  | .writes i => s.writes capChars i
  | .fails i => s.fails i
  | .edits index n insert => s.edits index n insert

/-! ## What is to hold -/

/-- the calls have taken away what they wrote themselves at most, and seeded blank texts only -/
structure NothingLost (s : St) : Prop where
  removed : ∀ r ∈ s.removed, r.2.1 = some r.1
  seededInto : ∀ t ∈ s.seededInto, isBlank t = true

/-- the note is blank, and the content in its place would take nothing of another writer's white space away; a content
that is too large is not written at all -/
def Spare (capChars i : ℕ) (content : Text) (note : Note) : Prop :=
  capChars < content.length ∨ isBlank (textOf note) = true ∧ ∀ u ∈ (seed i content note).2, u.1 = some i

instance (capChars i : ℕ) (content : Text) (note : Note) : Decidable (Spare capChars i content note) :=
  inferInstanceAs (Decidable (_ ∨ _ ∧ _))

/-- the calls that have read a blank text and not written yet, but for the `j`th, can still seed the note -/
def SparedFor (capChars : ℕ) (s : St) (j : Option ℕ) (note : Note) : Prop :=
  ∀ i < s.calls.length, j ≠ some i → ∀ c ∈ s.calls[i]?, c.phase = .seeding → Spare capChars i c.content note

/-- a call that reads a blank text finds no white space of another's which it would take away, and nobody writes between
a read and a write what the seed would take away -/
def Undisturbed (capChars : ℕ) (s : St) : Action → Prop
  | .reads i => ∀ c ∈ s.calls[i]?, c.phase = .starting → c.content ≠ [] → isBlank (textOf s.note) = true →
      Spare capChars i c.content s.note
  | .writes i => ∀ c ∈ s.calls[i]?, c.phase = .seeding → c.content.length ≤ capChars →
      SparedFor capChars s (some i) (seed i c.content s.note).1
  | .edits index n insert => SparedFor capChars s none (s.edits index n insert).note
  | _ => True

/-! ## The text -/

section

variable {capChars : ℕ} {s : St} {i : ℕ}

theorem writeAs_text (writer : Writer) (op : TextOp) (note : Note) :
    textOf (writeAs writer op note).1 = op.write (textOf note) := by
  unfold writeAs TextOp.write splice textOf
  simp [List.map_take, List.map_drop, Function.comp_def]

theorem writeAllAs_text (writer : Writer) (ops : List TextOp) (note : Note) :
    textOf (writeAllAs writer ops note).1 = ops.foldl (fun text op => op.write text) (textOf note) := by
  induction ops generalizing note with
  | nil => rfl
  | cons op ops ih =>
    calc textOf (writeAllAs writer (op :: ops) note).1
        = textOf (writeAllAs writer ops (writeAs writer op note).1).1 := rfl
      _ = ops.foldl (fun text op => op.write text) (textOf (writeAs writer op note).1) := ih _
      _ = (op :: ops).foldl (fun text op => op.write text) (textOf note) := by rw [writeAs_text, List.foldl_cons]

structure Inv (capChars : ℕ) (s : St) : Prop where
  lost : NothingLost s
  spared : ∀ (i : ℕ) c, s.calls[i]? = some c → c.phase = .seeding → Spare capChars i c.content s.note

theorem sparedFor_iff {j : Option ℕ} {note : Note} : SparedFor capChars s j note ↔
    ∀ (i : ℕ) c, s.calls[i]? = some c → j ≠ some i → c.phase = .seeding → Spare capChars i c.content note := by
  refine ⟨fun h i c hc hj => ?_, fun h i _ hj c hc => h i c (Option.mem_def.1 hc) hj⟩
  exact h i (List.getElem?_eq_some_iff.1 hc).1 hj c (Option.mem_def.2 hc)

/-- the other calls are what they were -/
theorem call_set {calls : List Call} {c' : Call} {j : ℕ} {d : Call} (hd : (calls.set i c')[j]? = some d) :
    j = i ∧ d = c' ∨ j ≠ i ∧ calls[j]? = some d := by
  rw [List.getElem?_set] at hd
  split at hd
  · next hij =>
    split at hd
    · exact .inl ⟨hij.symm, (Option.some.inj hd).symm⟩
    · cases hd
  · next hij => exact .inr ⟨Ne.symm hij, hd⟩

/-- one call goes on, and the note is as it was -/
theorem Inv.put (h : Inv capChars s) {c' : Call} (hspare : c'.phase = .seeding → Spare capChars i c'.content s.note) :
    Inv capChars (s.put i c') := by
  refine ⟨⟨h.lost.removed, h.lost.seededInto⟩, ?_⟩
  intro j d hd hseeding
  rcases call_set hd with ⟨rfl, rfl⟩ | ⟨_, hd⟩
  · exact hspare hseeding
  · exact h.spared j d hd hseeding

theorem Inv.reads (h : Inv capChars s) (hok : Undisturbed capChars s (.reads i)) : Inv capChars (s.reads i) := by
  unfold St.reads
  split
  · next c hc =>
    split
    · next hstarting =>
      split
      · exact h.put (by simp)
      · next hcontent =>
        split
        · next hblank => exact h.put fun _ => hok c (Option.mem_def.2 hc) hstarting hcontent hblank
        · exact h.put (by simp)
    · exact h
  · exact h

theorem Inv.writes (h : Inv capChars s) (hok : Undisturbed capChars s (.writes i)) :
    Inv capChars (s.writes capChars i) := by
  unfold St.writes
  split
  · next c hc =>
    split
    · next hseeding =>
      split
      · exact h.put (by simp)
      · next hwritten =>
        have hfits : ¬ capChars < c.content.length := by
          intro hlt
          rw [setContent_eq, if_pos hlt] at hwritten
          cases hwritten
        obtain ⟨hblank, hown⟩ := (h.spared i c hc hseeding).resolve_left hfits
        have hothers := sparedFor_iff.1 (hok c (Option.mem_def.2 hc) hseeding (not_lt.1 hfits))
        refine ⟨⟨?_, ?_⟩, ?_⟩
        · intro r hr
          rcases List.mem_append.1 hr with hr | hr
          · exact h.lost.removed r hr
          · obtain ⟨u, hu, rfl⟩ := List.mem_map.1 hr
            exact hown u hu
        · intro t ht
          rcases List.mem_append.1 ht with ht | ht
          · exact h.lost.seededInto t ht
          · rw [List.mem_singleton.1 ht]
            exact hblank
        · intro j d hd hphase
          rcases call_set hd with ⟨rfl, rfl⟩ | ⟨hne, hd⟩
          · cases hphase
          · exact hothers j d hd (fun heq => hne (Option.some.inj heq).symm) hphase
    · exact h
  · exact h

theorem Inv.fails (h : Inv capChars s) : Inv capChars (s.fails i) := by
  unfold St.fails
  split
  · split
    · exact h.put (by simp)
    · exact h
  · exact h

theorem Inv.begins (h : Inv capChars s) (content : Text) :
    Inv capChars { s with calls := s.calls ++ [{ content := content }] } := by
  refine ⟨⟨h.lost.removed, h.lost.seededInto⟩, ?_⟩
  intro j d hd hseeding
  rcases List.getElem?_snoc.1 hd with hd | ⟨-, rfl⟩
  · exact h.spared j d hd hseeding
  · cases hseeding

theorem inv_step (a : Action) (h : Inv capChars s) (hok : Undisturbed capChars s a) :
    Inv capChars (step capChars s a) := by
  cases a with
  | begins content => exact h.begins content
  | reads i => exact h.reads hok
  | writes i => exact h.writes hok
  | fails i => exact h.fails
  | edits index n insert =>
    refine ⟨⟨h.lost.removed, h.lost.seededInto⟩, ?_⟩
    exact fun j d hd hphase => sparedFor_iff.1 hok j d hd (by simp) hphase

/-- **Nothing is overwritten.** in every run that is undisturbed, a call takes away at most what it wrote itself, and
the text at the moment of each seed is blank. -/
theorem adoption_overwrites_nothing (capChars : ℕ) (as : List Action)
    (h : Machine.Guarded (step capChars) (Undisturbed capChars) {} as) :
    NothingLost (Machine.run (step capChars) {} as) := by
  have hinit : Inv capChars {} := ⟨⟨by simp, by simp⟩, by simp⟩
  exact (Machine.run_inv (fun _ a hs hok => inv_step a hs hok) hinit h).lost

end

section Runs

variable (capChars : ℕ) (s : St)

instance (j : Option ℕ) (note : Note) : Decidable (SparedFor capChars s j note) := inferInstanceAs (Decidable
  (∀ i < s.calls.length, j ≠ some i → ∀ c ∈ s.calls[i]?, c.phase = .seeding → Spare capChars i c.content note))

instance Undisturbed.decidable : ∀ a, Decidable (Undisturbed capChars s a)
  | .reads i => inferInstanceAs (Decidable
      (∀ c ∈ s.calls[i]?, c.phase = .starting → c.content ≠ [] → isBlank (textOf s.note) = true →
        Spare capChars i c.content s.note))
  | .writes i => inferInstanceAs (Decidable
      (∀ c ∈ s.calls[i]?, c.phase = .seeding → c.content.length ≤ capChars →
        SparedFor capChars s (some i) (seed i c.content s.note).1))
  | .edits index n insert => inferInstanceAs (Decidable (SparedFor capChars s none (s.edits index n insert).note))
  | .begins _ | .fails _ => inferInstanceAs (Decidable True)

/-- a call seeds an empty note, an editor goes on in it, and a second call finds it so -/
theorem seeded_then_edited : NothingLost (Machine.run (step 100) {}
    [.begins [97], .reads 0, .writes 0, .edits 1 0 [98], .begins [99], .reads 1, .writes 1]) :=
  adoption_overwrites_nothing 100 _ (by decide)

/-- an editor writes `hi` after the call has read the empty note -/
theorem edit_after_read_is_lost : ¬ ∀ as : List Action, NothingLost (Machine.run (step 100) {} as) := by
  intro h
  exact absurd (h [.begins [97], .reads 0, .edits 0 0 [104, 105], .writes 0]).removed (by decide)

end Runs

end Baalda.NoteAdoption
