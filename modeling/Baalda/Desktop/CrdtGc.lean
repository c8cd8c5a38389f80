/-
The sweep of unreachable CRDT rows (`lib/sync/crdtGc.ts collectCrdtGarbage`, `index.rs prune_yjs_docs`).

A sweep reads the registry's doc ids when it begins, with the ids its caller pins, then lists the index (`listing`), and
later prunes every row whose document is on neither list (`pruning`). Meanwhile notes are created, registered, rebound to
their server id, opened and edited. The prune is one transaction under the index's lock; an empty list is refused twice.

`arrived` is a record of what became live after the sweep began, and of what was open then and not pinned.
`live_rows_kept_iff`: a sweep removes no row of a live document exactly if nothing that arrived, is live and has rows is
missing from its list. `created_note_pruned`: a note created between the listing and the prune is.
-/
import Baalda.Lib.Machine

namespace Baalda.CrdtGc

variable {Id Data : Type*}

inductive Table where
  | yjsSnapshot | yjsUpdates | noteUiState | yjsDiskBase
  deriving DecidableEq

structure Row (Id Data : Type*) where
  table : Table
  docId : Id
  data : Data
  deriving DecidableEq

inductive Sweep (Id : Type*) where
  /-- the index is being listed -/
  | listing (live pinned : List Id)
  /-- the prune waits for the index -/
  | pruning (live : List Id)
  deriving DecidableEq

structure St (Id Data : Type*) where
  /-- the registry's `byDocId` -/
  mapped : List Id := []
  /-- `notes.id` -/
  notes : List Id := []
  opened : List Id := []
  rows : List (Row Id Data) := []
  sweep : Option (Sweep Id) := none
  /-- records -/
  arrived : List Id := []
  lost : List (Row Id Data) := []
  deriving DecidableEq

inductive Action (Id Data : Type*) where
  | registers (id : Id)
  | unregisters (id : Id)
  /-- a note is created, or its file appears -/
  | indexes (id : Id)
  | unindexes (id : Id)
  /-- `rebind_note_id`: the rows keep the id they have -/
  | rebinds (current id : Id)
  | opens (id : Id)
  | closes (id : Id)
  | stores (row : Row Id Data)
  | begins (pinned : List Id)
  /-- `localNotes` answers -/
  | lists
  | listFails
  /-- `prune_yjs_docs`, unless the vault is another -/
  | prunes (ok : Bool)

/-- mapped, indexed or open -/
def St.Live (s : St Id Data) (id : Id) : Prop := id ∈ s.mapped ∨ id ∈ s.notes ∨ id ∈ s.opened

section

variable [DecidableEq Id]

instance (s : St Id Data) (id : Id) : Decidable (s.Live id) := by
  unfold St.Live
  infer_instance

namespace St

variable (s : St Id Data)

def begins (pinned : List Id) : St Id Data :=
  { s with sweep := some (.listing s.mapped pinned), arrived := s.opened.filter (· ∉ pinned) }

/-- an id that another note has is not taken -/
def rebinds (current id : Id) : St Id Data :=
  if current ∈ s.notes ∧ id ∉ s.notes then
    { s with notes := s.notes.map fun n => if n = current then id else n, arrived := id :: s.arrived }
  else s

def lists : St Id Data := match s.sweep with
  | some (.listing live pinned) =>
    let live := live ++ s.notes ++ pinned
    { s with sweep := if live = [] then none else some (.pruning live) }
  | _ => s

def listFails : St Id Data := match s.sweep with
  | some (.listing _ _) => { s with sweep := none }
  | _ => s

/-- every row whose document is not on the list goes -/
def pruneYjsDocs (live : List Id) : St Id Data :=
  if live = [] then s
  else
    { s with
      rows := s.rows.filter fun r => r.docId ∈ live
      lost := s.lost ++ s.rows.filter fun r => r.docId ∉ live ∧ s.Live r.docId }

def prunes (ok : Bool) : St Id Data := match s.sweep with
  | some (.pruning live) => { (if ok then s.pruneYjsDocs live else s) with sweep := none }
  | _ => s

end St

def step (s : St Id Data) : Action Id Data → St Id Data
  | .registers id => { s with mapped := id :: s.mapped, arrived := id :: s.arrived }
  | .unregisters id => { s with mapped := s.mapped.filter (· ≠ id) }
  | .indexes id => { s with notes := id :: s.notes, arrived := id :: s.arrived }
  | .unindexes id => { s with notes := s.notes.filter (· ≠ id) }
  | .rebinds current id => s.rebinds current id
  | .opens id => { s with opened := id :: s.opened, arrived := id :: s.arrived }
  | .closes id => { s with opened := s.opened.filter (· ≠ id) }
  | .stores row => { s with rows := row :: s.rows }
  | .begins pinned => s.begins pinned
  | .lists => s.lists
  | .listFails => s.listFails
  | .prunes ok => s.prunes ok

def run (s : St Id Data) (as : List (Action Id Data)) : St Id Data := Machine.run step s as

/-! ## What is to hold -/

/-- the list a prune is about to use -/
def St.pruneList (s : St Id Data) : Option (List Id) := match s.sweep with
  | some (.pruning live) => some live
  | _ => none

/-- what arrived since the sweep began and is live is on its list, or has no rows -/
def Known (s : St Id Data) : Action Id Data → Prop
  | .prunes true => ∀ live ∈ s.pruneList, ∀ id ∈ s.arrived, id ∉ live → s.Live id → ∀ r ∈ s.rows, r.docId ≠ id
  | _ => True

/-- what a sweep knows: whatever is live is on its lists, or to be, or has arrived -/
def St.Covered (s : St Id Data) : Prop := match s.sweep with
  | some (.listing live pinned) => (∀ id ∈ s.mapped, id ∈ live ∨ id ∈ s.arrived) ∧
      ∀ id ∈ s.opened, id ∈ pinned ∨ id ∈ s.arrived
  | some (.pruning live) => live ≠ [] ∧ ∀ id, s.Live id → id ∈ live ∨ id ∈ s.arrived
  | none => True

namespace St

variable {s s' : St Id Data}

/-- the sweep goes on; what is live was live, or has arrived -/
theorem Covered.frame (h : s.Covered) (hsweep : s'.sweep = s.sweep) (harrived : ∀ id ∈ s.arrived, id ∈ s'.arrived)
    (hmapped : ∀ id ∈ s'.mapped, id ∈ s.mapped ∨ id ∈ s'.arrived)
    (hnotes : ∀ id ∈ s'.notes, id ∈ s.notes ∨ id ∈ s'.arrived)
    (hopened : ∀ id ∈ s'.opened, id ∈ s.opened ∨ id ∈ s'.arrived) : s'.Covered := by
  unfold Covered at h ⊢
  rw [hsweep]
  split
  · next live pinned hs =>
    rw [hs] at h
    constructor
    · intro id hid
      rcases hmapped id hid with hold | hnew
      · exact (h.1 id hold).imp (fun hl => hl) (harrived id)
      · exact .inr hnew
    · intro id hid
      rcases hopened id hid with hold | hnew
      · exact (h.2 id hold).imp (fun hl => hl) (harrived id)
      · exact .inr hnew
  · next live hs =>
    rw [hs] at h
    refine ⟨h.1, ?_⟩
    intro id hid
    have hlive : s.Live id ∨ id ∈ s'.arrived := by
      rcases hid with hm | hn | ho
      · exact (hmapped id hm).imp .inl (fun ha => ha)
      · exact (hnotes id hn).imp (fun hold => .inr (.inl hold)) (fun ha => ha)
      · exact (hopened id ho).imp (fun hold => .inr (.inr hold)) (fun ha => ha)
    rcases hlive with hold | hnew
    · exact (h.2 id hold).imp (fun hl => hl) (harrived id)
    · exact .inr hnew
  · trivial

theorem covered_begins (pinned : List Id) : (s.begins pinned).Covered := by
  constructor
  · exact fun id hid => .inl hid
  · intro id hid
    by_cases hpin : id ∈ pinned
    · exact .inl hpin
    · exact .inr (List.mem_filter.mpr ⟨hid, decide_eq_true hpin⟩)

theorem Covered.rebinds (h : s.Covered) (current id : Id) : (s.rebinds current id).Covered := by
  unfold St.rebinds
  split
  · refine h.frame rfl (fun _ => List.mem_cons_of_mem id) (fun _ => .inl) ?_ (fun _ => .inl)
    intro x hx
    obtain ⟨n, hn, rfl⟩ := List.mem_map.mp hx
    split
    · exact .inr List.mem_cons_self
    · exact .inl hn
  · exact h

theorem Covered.lists (h : s.Covered) : s.lists.Covered := by
  unfold St.lists
  split
  · next live pinned hs =>
    dsimp only
    unfold Covered at h
    rw [hs] at h
    split
    · trivial
    · next hne =>
      refine ⟨hne, ?_⟩
      intro id hid
      simp only [List.mem_append]
      rcases hid with hm | hn | ho
      · exact (h.1 id hm).imp (fun hl => .inl (.inl hl)) (fun ha => ha)
      · exact .inl (.inl (.inr hn))
      · exact (h.2 id ho).imp .inr (fun ha => ha)
  · exact h

theorem Covered.listFails (h : s.Covered) : s.listFails.Covered := by
  unfold St.listFails
  split
  · trivial
  · exact h

theorem Covered.prunes (h : s.Covered) (ok : Bool) : (s.prunes ok).Covered := by
  unfold St.prunes
  split
  · trivial
  · exact h

end St

variable {s : St Id Data}

theorem covered_step (s : St Id Data) (a : Action Id Data) (h : s.Covered) : (step s a).Covered := by
  have hdrop : ∀ {l : List Id} {arrived : List Id} (id x : Id), x ∈ l.filter (· ≠ id) → x ∈ l ∨ x ∈ arrived :=
    fun _ _ hx => .inl (List.mem_of_mem_filter hx)
  have hadd : ∀ {l arrived : List Id} (id x : Id), x ∈ id :: l → x ∈ l ∨ x ∈ id :: arrived := by
    intro l arrived id x hx
    rcases List.mem_cons.mp hx with rfl | hold
    · exact .inr List.mem_cons_self
    · exact .inl hold
  have hkeep : ∀ {l arrived : List Id} (x : Id), x ∈ l → x ∈ l ∨ x ∈ arrived := fun _ => .inl
  cases a with
  | registers id => exact h.frame rfl (fun _ => List.mem_cons_of_mem id) (hadd id) hkeep hkeep
  | unregisters id => exact h.frame rfl (fun _ hx => hx) (hdrop id) hkeep hkeep
  | indexes id => exact h.frame rfl (fun _ => List.mem_cons_of_mem id) hkeep (hadd id) hkeep
  | unindexes id => exact h.frame rfl (fun _ hx => hx) hkeep (hdrop id) hkeep
  | rebinds current id => exact h.rebinds current id
  | opens id => exact h.frame rfl (fun _ => List.mem_cons_of_mem id) hkeep hkeep (hadd id)
  | closes id => exact h.frame rfl (fun _ hx => hx) hkeep hkeep (hdrop id)
  | stores row => exact h.frame rfl (fun _ hx => hx) hkeep hkeep hkeep
  | begins pinned => exact St.covered_begins pinned
  | lists => exact h.lists
  | listFails => exact h.listFails
  | prunes ok => exact h.prunes ok

/-- only a prune loses rows -/
theorem lost_step (a : Action Id Data) (ha : a ≠ .prunes true) : (step s a).lost = s.lost := by
  cases a with
  | rebinds current id =>
    unfold step St.rebinds
    dsimp only
    split <;> rfl
  | lists =>
    unfold step St.lists
    dsimp only
    split <;> rfl
  | listFails =>
    unfold step St.listFails
    dsimp only
    split <;> rfl
  | prunes ok =>
    cases ok
    · unfold step St.prunes
      dsimp only
      split <;> rfl
    · exact absurd rfl ha
  | _ => rfl

/-- a prune loses nothing live exactly if it knows what arrived -/
theorem prune_step (h : s.Covered) (hlost : s.lost = []) :
    (step s (.prunes true)).lost = [] ↔ Known s (.prunes true) := by
  unfold step St.prunes Known St.pruneList
  dsimp only
  unfold St.Covered at h
  split
  · next live hs =>
    rw [hs] at h
    unfold St.pruneYjsDocs
    simp only [if_true, if_neg h.1, hlost, List.nil_append, Option.mem_def, Option.some.injEq, forall_eq']
    rw [List.filter_eq_nil_iff]
    constructor
    · intro hall id _ hlist hlive r hr heq
      subst heq
      exact hall r hr (by simp [hlist, hlive])
    · intro hknown r hr hgone
      obtain ⟨hlist, hlive⟩ : r.docId ∉ live ∧ s.Live r.docId := by simpa using hgone
      exact hknown r.docId ((h.2 r.docId hlive).resolve_left hlist) hlist hlive r hr rfl
  · next hs =>
    rw [hlost]
    simp

theorem lost_iff (a : Action Id Data) (h : s.Covered) (hlost : s.lost = []) :
    (step s a).lost = [] ↔ Known s a := by
  by_cases ha : a = .prunes true
  · subst ha
    exact prune_step h hlost
  · rw [lost_step a ha, hlost]
    have hknown : Known s a := by
      unfold Known
      split
      · exact absurd rfl ha
      · trivial
    exact ⟨fun _ => hknown, fun _ => rfl⟩

/-- **Live history is kept, where the sweep knows of it.** In every run, no prune so far removed a row of a document
mapped, indexed or open at that moment, exactly if whatever arrived after a sweep began, is live when it prunes and has
rows by then is on its list. -/
theorem live_rows_kept_iff (mapped notes opened : List Id) (rows : List (Row Id Data)) (as : List (Action Id Data)) :
    Machine.Guarded step Known { mapped := mapped, notes := notes, opened := opened, rows := rows } as ↔
      ∀ n, (run { mapped := mapped, notes := notes, opened := opened, rows := rows } (as.take n)).lost = [] := by
  have hexact : ∀ (s : St Id Data) (a : Action Id Data), s.Covered → s.lost = [] →
      ((step s a).lost = [] ↔ Known s a) := fun s a h hlost => lost_iff a h hlost
  apply Machine.guarded_iff covered_step hexact
  · trivial
  · rfl

end

/-- **A note created in between.** The index has been listed when note 2 is created and its first update stored: the
prune removes the update. -/
theorem created_note_pruned :
    ¬ ∀ as : List (Action ℕ ℕ), (run { mapped := [1], notes := [1] } as).lost = [] := by
  intro h
  have hrun := h [.begins [], .lists, .indexes 2, .opens 2, .stores ⟨.yjsUpdates, 2, 0⟩, .prunes true]
  revert hrun
  decide

end Baalda.CrdtGc
