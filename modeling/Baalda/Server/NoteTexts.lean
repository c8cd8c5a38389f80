/-
The stored note texts and their sweep (`versions/texts.ts storeNoteText`, `gcNoteTexts`).

A write stores its text and then inserts the row that names it (`recordVersion`, the checkpoint capture, its top-up), in
the same transaction or in a later one. A sweep deletes what is old by its own `now()` and unreferenced as its statement
sees it. READ COMMITTED: a statement sees what was committed when it started and its transaction's own rows; `now()` is
the transaction's start; a row another transaction has written or locked is waited for, and a row that was changed
meanwhile is looked at again, on what the statement saw of the other tables.

One vault: a document is in one, and a sweep looks at its own. A sweep that ends before it has come to every row it
found does less than the code does, never more. Clock times are arbitrary.

`texts_kept`: every reference names a text, in every state, as long as no write outlives the grace.
-/
import Baalda.Lib.Machine
import Baalda.Lib.Slots

namespace Baalda.NoteTexts

open Slots

/-- `TEXT_GC_GRACE_MS` -/
def gcGrace : ℕ := 60 * 60000

/-- `TOUCH_INTERVAL` -/
def touchInterval : ℕ := 10 * 60000

/-- a row of `note_texts`; `Key` is its document and hash -/
structure Text where
  /-- the row itself: a row inserted later under the same key is another -/
  row : ℕ
  lastRefAt : ℕ
  deriving DecidableEq

variable {Key : Type*}

/-- a row of `note_versions` or `vault_checkpoint_docs` -/
structure Ref (Key : Type*) where
  id : ℕ
  key : Key
  /-- the transaction that inserted it -/
  tx : ℕ
  deriving DecidableEq

/-- a sweep's statement under way -/
structure Sweep (Key : Type*) where
  /-- the transactions it sees -/
  asOf : ℕ → Bool
  /-- the rows its `WHERE` found -/
  found : Key → Option ℕ

inductive TxStage where
  | idle
  | active
  | committed
  | rolledBack
  deriving DecidableEq

structure Tx (Key : Type*) where
  stage : TxStage := .idle
  now : ℕ := 0
  /-- the texts it has written, or deleted -/
  own : Key → Option (Option Text) := fun _ => none
  inserted : List (Ref Key) := []
  deleted : List ℕ := []
  sweep : Option (Sweep Key) := none

inductive WriteStage where
  /-- the text is stored or found; its reference is to come -/
  | stored
  | referenced (tx : ℕ)
  /-- no reference is to come -/
  | gaveUp
  deriving DecidableEq

/-- one `storeNoteText` and its reference -/
structure Write (Key : Type*) where
  key : Key
  /-- the transaction that stored the text -/
  tx : ℕ
  stage : WriteStage := .stored
  deriving DecidableEq

structure St (Key : Type*) where
  /-- as committed -/
  texts : Key → Option Text := fun _ => none
  refs : List (Ref Key) := []
  txs : ℕ → Tx Key := fun _ => {}
  /-- who has a text's row locked -/
  locks : Key → Option ℕ := fun _ => none
  writes : List (Write Key) := []
  fresh : ℕ := 0

inductive Action (Key : Type*) where
  | begins (i now : ℕ)
  /-- `storeNoteText` -/
  | stores (i : ℕ) (k : Key)
  | references (i n : ℕ)
  | givesUp (n : ℕ)
  /-- `pruneVersions`, `pruneCheckpoints` -/
  | prunes (i ref : ℕ)
  /-- `gcNoteTexts` starts -/
  | sweeps (i : ℕ)
  /-- the sweep comes to a row -/
  | sweepsText (i : ℕ) (k : Key)
  | sweepEnds (i : ℕ)
  | commits (i : ℕ)
  | rollsBack (i : ℕ)

variable [DecidableEq Key]

/-- the upsert: `v` is the row it finds -/
def upsert (now fresh : ℕ) (v : Option Text) (own : Option (Option Text)) : Option (Option Text) := match v with
  | none => some (some ⟨fresh, now⟩)
  | some t => if t.lastRefAt + touchInterval < now then some (some { t with lastRefAt := now }) else own

namespace St

variable (s : St Key)

/-- a row as a transaction sees it -/
def view (i : ℕ) (k : Key) : Option Text := ((s.txs i).own k).getD (s.texts k)

/-- the transaction runs, and no sweep of its own is under way -/
def ready (i : ℕ) : Bool := (s.txs i).stage = .active ∧ (s.txs i).sweep.isNone

def free (i : ℕ) (k : Key) : Bool := s.locks k = none ∨ s.locks k = some i

/-- the references a transaction sees -/
def sees (i : ℕ) : List (Ref Key) := (s.refs.filter fun r => r.id ∉ (s.txs i).deleted) ++ (s.txs i).inserted

def setTx (i : ℕ) (tx : Tx Key) : St Key := { s with txs := Function.update s.txs i tx }

def begins (i now : ℕ) : St Key :=
  if (s.txs i).stage = .idle then s.setTx i { stage := .active, now := now } else s

def stores (i : ℕ) (k : Key) : St Key :=
  if s.ready i ∧ s.free i k then
    { s.setTx i { s.txs i with
        own := Function.update (s.txs i).own k (upsert (s.txs i).now s.fresh (s.view i k) ((s.txs i).own k)) } with
      locks := Function.update s.locks k (some i), writes := s.writes ++ [{ key := k, tx := i }], fresh := s.fresh + 1 }
  else s

def references (i n : ℕ) : St Key := match s.writes[n]? with
  | some w =>
    if s.ready i ∧ w.stage = .stored ∧ (w.tx = i ∨ (s.txs w.tx).stage = .committed) then
      { s.setTx i { s.txs i with inserted := (s.txs i).inserted ++ [⟨s.fresh, w.key, i⟩] } with
        writes := s.writes.set n { w with stage := .referenced i }, fresh := s.fresh + 1 }
    else s
  | none => s

def givesUp (n : ℕ) : St Key := match s.writes[n]? with
  | some w => if w.stage = .stored then { s with writes := s.writes.set n { w with stage := .gaveUp } } else s
  | none => s

def prunes (i ref : ℕ) : St Key :=
  if s.ready i then s.setTx i { s.txs i with deleted := ref :: (s.txs i).deleted } else s

/-- `last_ref_at < now() - grace` and no reference -/
def sweepable (i : ℕ) (k : Key) : Option ℕ := match s.view i k with
  | some t => if t.lastRefAt + gcGrace < (s.txs i).now ∧ ∀ r ∈ s.sees i, r.key ≠ k then some t.row else none
  | none => none

def sweeps (i : ℕ) : St Key :=
  if s.ready i then
    s.setTx i { s.txs i with sweep := some { asOf := fun j => (s.txs j).stage = .committed, found := s.sweepable i } }
  else s

/-- the row is the one found, free, and old still -/
def sweepsAway (i : ℕ) (k : Key) : Bool := match (s.txs i).sweep, s.view i k with
  | some sweep, some t => (s.txs i).stage = .active ∧ sweep.found k = some t.row ∧ s.free i k ∧
      t.lastRefAt + gcGrace < (s.txs i).now
  | _, _ => false

def sweepsText (i : ℕ) (k : Key) : St Key :=
  if s.sweepsAway i k then
    { s.setTx i { s.txs i with own := Function.update (s.txs i).own k (some none) } with
      locks := Function.update s.locks k (some i) }
  else s

def sweepEnds (i : ℕ) : St Key := s.setTx i { s.txs i with sweep := none }

def released (i : ℕ) : Key → Option ℕ := fun k => if s.locks k = some i then none else s.locks k

def commits (i : ℕ) : St Key :=
  if s.ready i then
    { s.setTx i { s.txs i with stage := .committed } with texts := s.view i, refs := s.sees i, locks := s.released i }
  else s

def rollsBack (i : ℕ) : St Key :=
  if (s.txs i).stage = .active then
    { s.setTx i { s.txs i with stage := .rolledBack, sweep := none } with locks := s.released i }
  else s

end St

def step (s : St Key) : Action Key → St Key
  | .begins i now => s.begins i now
  | .stores i k => s.stores i k
  | .references i n => s.references i n
  | .givesUp n => s.givesUp n
  | .prunes i ref => s.prunes i ref
  | .sweeps i => s.sweeps i
  | .sweepsText i k => s.sweepsText i k
  | .sweepEnds i => s.sweepEnds i
  | .commits i => s.commits i
  | .rollsBack i => s.rollsBack i

def run (s : St Key) (as : List (Action Key)) : St Key := Machine.run step s as

/-! ## What is to hold -/

/-- every version and checkpoint row names a text that exists -/
def TextsKept (s : St Key) : Prop := ∀ r ∈ s.refs, (s.texts r.key).isSome

/-- the write came to nothing -/
def St.failed (s : St Key) (w : Write Key) : Bool :=
  (s.txs w.tx).stage = .rolledBack || match w.stage with
    | .stored => false
    | .referenced j => (s.txs j).stage = .rolledBack
    | .gaveUp => true

/-- the sweep saw the write's reference -/
def Sweep.saw (sweep : Sweep Key) (w : Write Key) : Bool := match w.stage with
  | .referenced j => sweep.asOf j
  | _ => false

/-- what a sweep is about to delete -/
def St.deleting (s : St Key) : Action Key → Option (ℕ × Key × Sweep Key)
  | .sweepsText i k => if s.sweepsAway i k then (s.txs i).sweep.map fun sweep => (i, k, sweep) else none
  | _ => none

/-- whoever stored or found the text that goes has come to nothing, or was seen by the sweep, or began less than the
grace, less the touch interval, before it -/
def NoWriteOutlives (s : St Key) (a : Action Key) : Prop :=
  ∀ x ∈ s.deleting a, ∀ w ∈ s.writes, w.key = x.2.1 →
    s.failed w ∨ x.2.2.saw w ∨ (s.txs x.1).now < (s.txs w.tx).now + (gcGrace - touchInterval)

instance (s : St Key) : Decidable (TextsKept s) := inferInstanceAs (Decidable (∀ r ∈ s.refs, (s.texts r.key).isSome))

instance (s : St Key) (a : Action Key) : Decidable (NoWriteOutlives s a) :=
  inferInstanceAs (Decidable (∀ x ∈ s.deleting a, ∀ w ∈ s.writes, w.key = x.2.1 →
    s.failed w ∨ x.2.2.saw w ∨ (s.txs x.1).now < (s.txs w.tx).now + (gcGrace - touchInterval)))

/-- the write has stored its text, and its reference is to come or not committed yet -/
def St.UnderWay (s : St Key) (w : Write Key) : Prop :=
  ((s.txs w.tx).stage = .active ∨ (s.txs w.tx).stage = .committed) ∧
    (w.stage = .stored ∨ ∃ j, w.stage = .referenced j ∧ (s.txs j).stage = .active)

/-- the text is no older than the write, but for the touch interval -/
def St.Fresh (s : St Key) (w : Write Key) (t : Option Text) : Prop :=
  ∃ t' ∈ t, (s.txs w.tx).now ≤ t'.lastRefAt + touchInterval

/-- where a write's text is, and a reference's -/
structure St.Kept (s : St Key) : Prop where
  started : ∀ w ∈ s.writes, (s.txs w.tx).stage ≠ .idle ∧ ∀ j, w.stage = .referenced j → (s.txs j).stage ≠ .idle
  /-- while its transaction runs, the write's row is locked -/
  stored : ∀ w ∈ s.writes, s.UnderWay w → (s.txs w.tx).stage = .active →
    s.locks w.key = some w.tx ∧ s.Fresh w (s.view w.tx w.key)
  kept : ∀ w ∈ s.writes, s.UnderWay w → (s.txs w.tx).stage = .committed → s.Fresh w (s.texts w.key)
  refs : ∀ r ∈ s.refs, (s.txs r.tx).stage = .committed ∧ ∃ w ∈ s.writes, w.key = r.key ∧ w.stage = .referenced r.tx ∧
    (s.txs w.tx).stage = .committed ∧ s.Fresh w (s.texts r.key)
  inserted : ∀ i, (s.txs i).stage = .active → ∀ r ∈ (s.txs i).inserted, r.tx = i ∧ ∃ w ∈ s.writes, w.key = r.key ∧
    w.stage = .referenced i ∧ (w.tx = i ∨ (s.txs w.tx).stage = .committed)

/-- what a transaction has done to the texts -/
structure St.Own (s : St Key) : Prop where
  locked : ∀ i k, (s.txs i).stage = .active → (s.txs i).own k ≠ none → s.locks k = some i
  grows : ∀ i k t t', (s.txs i).stage = .active → (s.txs i).own k = some (some t) → s.texts k = some t' →
    t'.lastRefAt ≤ t.lastRefAt
  old : ∀ i k t', (s.txs i).stage = .active → (s.txs i).own k = some none → s.texts k = some t' →
    t'.lastRefAt ≤ (s.txs i).now
  /-- nobody is about to reference what is swept -/
  unclaimed : ∀ i k, (s.txs i).stage = .active → (s.txs i).own k = some none → ∀ w ∈ s.writes, w.key = k →
    ¬ s.UnderWay w
  unreferenced : ∀ i k, (s.txs i).stage = .active → (s.txs i).own k = some none → ∀ r ∈ s.refs, r.key = k →
    r.id ∈ (s.txs i).deleted

/-- what a sweep has found -/
structure St.Found (s : St Key) : Prop where
  asOf : ∀ i sweep j, (s.txs i).sweep = some sweep → sweep.asOf j = true → (s.txs j).stage = .committed
  /-- a reference to it was deleted, or came later -/
  refs : ∀ i sweep k row, (s.txs i).stage = .active → (s.txs i).sweep = some sweep → sweep.found k = some row →
    ∀ r ∈ s.refs, r.key = k → r.id ∈ (s.txs i).deleted ∨ sweep.asOf r.tx = false

structure St.Ok (s : St Key) : Prop where
  kept : s.Kept
  own : s.Own
  found : s.Found

/-! ## Frames -/

section

variable {s s' : St Key}

@[simp] theorem setTx_self (i : ℕ) (tx : Tx Key) : (s.setTx i tx).txs i = tx := Function.update_self ..

theorem setTx_of_ne {i j : ℕ} (h : j ≠ i) (tx : Tx Key) : (s.setTx i tx).txs j = s.txs j := Function.update_of_ne h ..

/-- no transaction begins or ends -/
def SameStages (s s' : St Key) : Prop :=
  ∀ j, (s'.txs j).stage = (s.txs j).stage ∧ (s'.txs j).now = (s.txs j).now

theorem sameStages_setTx {i : ℕ} {tx : Tx Key} (hstage : tx.stage = (s.txs i).stage) (hnow : tx.now = (s.txs i).now) :
    SameStages s (s.setTx i tx) := by
  intro j
  by_cases heq : j = i
  · subst heq
    simpa using ⟨hstage, hnow⟩
  · rw [setTx_of_ne heq]
    exact ⟨rfl, rfl⟩

theorem SameStages.underWay (h : SameStages s s') (w : Write Key) : s'.UnderWay w ↔ s.UnderWay w := by
  unfold St.UnderWay
  simp only [(h _).1]

theorem SameStages.fresh (h : SameStages s s') (w : Write Key) (t : Option Text) : s'.Fresh w t ↔ s.Fresh w t := by
  unfold St.Fresh
  simp only [(h _).2]

theorem fresh_of_tx {w w' : Write Key} (h : w.tx = w'.tx) : s.Fresh w = s.Fresh w' := by
  funext t
  unfold St.Fresh
  rw [h]

/-- texts, references and writes are as they were -/
theorem St.Kept.frame (h : s.Kept) (hstages : SameStages s s') (htexts : s'.texts = s.texts) (hrefs : s'.refs = s.refs)
    (hlocks : s'.locks = s.locks) (hwrites : s'.writes = s.writes)
    (htxs : ∀ j, (s'.txs j).own = (s.txs j).own ∧ (s'.txs j).inserted = (s.txs j).inserted) : s'.Kept := by
  have hview : ∀ j k, s'.view j k = s.view j k := by
    intro j k
    unfold St.view
    rw [(htxs j).1, htexts]
  refine ⟨?_, ?_, ?_, ?_, ?_⟩
  · simpa only [hwrites, (hstages _).1] using h.started
  · simpa only [hwrites, hstages.underWay, (hstages _).1, hlocks, hview, hstages.fresh] using h.stored
  · simpa only [hwrites, hstages.underWay, (hstages _).1, htexts, hstages.fresh] using h.kept
  · simpa only [hwrites, hrefs, (hstages _).1, htexts, hstages.fresh] using h.refs
  · simpa only [hwrites, (hstages _).1, (htxs _).2] using h.inserted

theorem St.Own.frame (h : s.Own) (hstages : SameStages s s') (htexts : s'.texts = s.texts) (hrefs : s'.refs = s.refs)
    (hlocks : s'.locks = s.locks) (hunder : ∀ w ∈ s'.writes, s'.UnderWay w → w ∈ s.writes)
    (hown : ∀ j, (s'.txs j).own = (s.txs j).own) (hdeleted : ∀ j, (s.txs j).deleted ⊆ (s'.txs j).deleted) : s'.Own := by
  refine ⟨?_, ?_, ?_, ?_, ?_⟩
  · simpa only [(hstages _).1, hlocks, hown] using h.locked
  · simpa only [(hstages _).1, htexts, hown] using h.grows
  · simpa only [(hstages _).1, (hstages _).2, htexts, hown] using h.old
  · intro i k hactive hgone w hw hkey hw'
    rw [(hstages i).1] at hactive
    rw [hown i] at hgone
    exact h.unclaimed i k hactive hgone w (hunder w hw hw') hkey ((hstages.underWay w).1 hw')
  · intro i k hactive hgone r hr hkey
    rw [(hstages i).1] at hactive
    rw [hown i] at hgone
    rw [hrefs] at hr
    exact hdeleted i (h.unreferenced i k hactive hgone r hr hkey)

end

/-! ## Every step -/

section

variable {s : St Key}

variable {i : ℕ}

theorem ready_iff : s.ready i = true ↔ (s.txs i).stage = .active ∧ (s.txs i).sweep = none := by
  simp [St.ready]

/-- a transaction that begins has nothing yet, and no write is its -/
theorem St.Ok.begins (h : s.Ok) (i now : ℕ) : (s.begins i now).Ok := by
  unfold St.begins
  split
  · next hidle =>
    obtain ⟨s', hs'⟩ : ∃ s', s' = s.setTx i { stage := .active, now := now } := ⟨_, rfl⟩
    have htexts : s'.texts = s.texts := by rw [hs']; rfl
    have hrefs : s'.refs = s.refs := by rw [hs']; rfl
    have hlocks : s'.locks = s.locks := by rw [hs']; rfl
    have hwrites : s'.writes = s.writes := by rw [hs']; rfl
    have hself : s'.txs i = { stage := .active, now := now } := by rw [hs', setTx_self]
    have hne : ∀ j, j ≠ i → s'.txs j = s.txs j := fun j hj => by rw [hs', setTx_of_ne hj]
    have hother : ∀ j, (s.txs j).stage ≠ .idle → s'.txs j = s.txs j := by
      intro j hj
      apply hne
      rintro rfl
      exact hj hidle
    have hunder : ∀ w ∈ s.writes, s'.UnderWay w ↔ s.UnderWay w := by
      intro w hw
      obtain ⟨hw₁, hw₂⟩ := h.kept.started w hw
      unfold St.UnderWay
      grind
    have hfresh : ∀ w ∈ s.writes, ∀ t, s'.Fresh w t ↔ s.Fresh w t := by
      intro w hw t
      unfold St.Fresh
      rw [hother w.tx (h.kept.started w hw).1]
    rw [← hs']
    obtain ⟨⟨hstarted, hstored, hkept, hrefs', hinserted⟩, ⟨hlocked, hgrows, hold, hunclaimed, hunref⟩,
      ⟨hasof, hfrefs⟩⟩ := h
    refine ⟨⟨?_, ?_, ?_, ?_, ?_⟩, ⟨?_, ?_, ?_, ?_, ?_⟩, ⟨?_, ?_⟩⟩
    · grind
    · intro w hw hw' hactive
      rw [hwrites] at hw
      have hview : s'.view w.tx w.key = s.view w.tx w.key := by
        unfold St.view
        rw [hother w.tx (hstarted w hw).1, htexts]
      rw [hlocks, hview, hfresh w hw]
      rw [hother w.tx (hstarted w hw).1] at hactive
      exact hstored w hw ((hunder w hw).1 hw') hactive
    all_goals grind
  · exact h

/-- deletions of references, and sweeps that start or end -/
theorem St.Ok.setTx (h : s.Ok) {tx : Tx Key} (hstage : tx.stage = (s.txs i).stage) (hnow : tx.now = (s.txs i).now)
    (hown : tx.own = (s.txs i).own) (hinserted : tx.inserted = (s.txs i).inserted)
    (hdeleted : (s.txs i).deleted ⊆ tx.deleted)
    (hsweep : ∀ sweep, tx.sweep = some sweep → (∀ j, sweep.asOf j = true → (s.txs j).stage = .committed) ∧ ∀ k row,
      sweep.found k = some row → ∀ r ∈ s.refs, r.key = k → r.id ∈ tx.deleted ∨ sweep.asOf r.tx = false)
    : (s.setTx i tx).Ok := by
  obtain ⟨s', hs'⟩ : ∃ s', s' = s.setTx i tx := ⟨_, rfl⟩
  have hstages : SameStages s s' := hs' ▸ sameStages_setTx hstage hnow
  have htexts : s'.texts = s.texts := by rw [hs']; rfl
  have hrefs : s'.refs = s.refs := by rw [hs']; rfl
  have hlocks : s'.locks = s.locks := by rw [hs']; rfl
  have hwrites : s'.writes = s.writes := by rw [hs']; rfl
  have hself : s'.txs i = tx := by rw [hs', setTx_self]
  have hne : ∀ j, j ≠ i → s'.txs j = s.txs j := fun j hj => by rw [hs', setTx_of_ne hj]
  rw [← hs']
  have htxs : ∀ j, (s'.txs j).own = (s.txs j).own ∧ (s'.txs j).inserted = (s.txs j).inserted := by grind
  have hdel : ∀ j, (s.txs j).deleted ⊆ (s'.txs j).deleted := by grind
  refine ⟨h.kept.frame hstages htexts hrefs hlocks hwrites htxs,
    h.own.frame hstages htexts hrefs hlocks (fun w hw _ => hwrites ▸ hw) (fun j => (htxs j).1) hdel, ?_⟩
  obtain ⟨hasof, hfrefs⟩ := h.found
  refine ⟨?_, ?_⟩
  all_goals grind

theorem St.Ok.prunes (h : s.Ok) (i ref : ℕ) : (s.prunes i ref).Ok := by
  unfold St.prunes
  split
  · next hready =>
    have hnone : (s.txs i).sweep = none := (ready_iff.1 hready).2
    refine h.setTx ?_ ?_ ?_ ?_ (List.subset_cons_self _ _) ?_
    any_goals rfl
    intro sweep hsweep
    exact absurd (hnone.symm.trans hsweep) (by simp)
  · exact h

theorem St.Ok.sweepEnds (h : s.Ok) (i : ℕ) : (s.sweepEnds i).Ok := by
  refine h.setTx ?_ ?_ ?_ ?_ (List.Subset.refl _) ?_
  any_goals rfl
  intro sweep hsweep
  cases hsweep

/-- what a sweep finds is unreferenced as it sees the references -/
theorem St.Ok.sweeps (h : s.Ok) (i : ℕ) : (s.sweeps i).Ok := by
  unfold St.sweeps
  split
  · refine h.setTx ?_ ?_ ?_ ?_ (List.Subset.refl _) ?_
    any_goals rfl
    intro sweep hsweep
    cases hsweep
    refine ⟨fun j hj => by simpa using hj, ?_⟩
    intro k row hrow
    have hunseen : ∀ r ∈ s.sees i, r.key ≠ k := by
      unfold St.sweepable at hrow
      grind
    intro r hr hkey
    left
    by_contra hnot
    exact hunseen r (List.mem_append_left _ (List.mem_filter.2 ⟨hr, by simpa using hnot⟩)) hkey
  · exact h

theorem St.Ok.givesUp (h : s.Ok) (n : ℕ) : (s.givesUp n).Ok := by
  unfold St.givesUp
  split
  · next w hw =>
    split
    · next hstored =>
      obtain ⟨x, hx⟩ : ∃ x, x = { w with stage := .gaveUp } := ⟨_, rfl⟩
      have hxtx : x.tx = w.tx := by rw [hx]
      have hxstage : x.stage = .gaveUp := by rw [hx]
      rw [← hx]
      obtain ⟨s', hs'⟩ : ∃ s', s' = { s with writes := s.writes.set n x } := ⟨_, rfl⟩
      have htexts : s'.texts = s.texts := by rw [hs']
      have hrefs : s'.refs = s.refs := by rw [hs']
      have hlocks : s'.locks = s.locks := by rw [hs']
      have htxs : s'.txs = s.txs := by rw [hs']
      have hmem : ∀ w' ∈ s'.writes, w' = x ∨ w' ∈ s.writes := fun w' hw' =>
        (List.mem_or_eq_of_mem_set (by rwa [hs'] at hw')).symm
      have hmem' : ∀ w' ∈ s.writes, w' ≠ w → w' ∈ s'.writes := fun w' hw' hne => by
        rw [hs']
        exact mem_set_of_ne hw hw' hne
      have hwmem : w ∈ s.writes := List.mem_of_getElem? hw
      have hunder : ∀ w', s'.UnderWay w' ↔ s.UnderWay w' := fun w' => by unfold St.UnderWay; rw [htxs]
      have hfresh : ∀ w' t, s'.Fresh w' t ↔ s.Fresh w' t := fun w' t => by unfold St.Fresh; rw [htxs]
      have hview : s'.view = s.view := by
        funext i k
        unfold St.view
        rw [htxs, htexts]
      have hgone : ¬ s.UnderWay x := by
        unfold St.UnderWay
        grind
      rw [← hs']
      obtain ⟨⟨hstarted, hstored, hkept, hrefs', hinserted⟩, ⟨hlocked, hgrows, hold, hunclaimed, hunref⟩,
        ⟨hasof, hfrefs⟩⟩ := h
      have hrefmem : ∀ w' ∈ s.writes, ∀ j, w'.stage = .referenced j → w' ∈ s'.writes := by
        intro w' hw' j hj
        apply hmem' w' hw'
        rintro rfl
        exact absurd (hj.symm.trans hstored) (by simp)
      have hstill : ∀ w' ∈ s'.writes, s'.UnderWay w' → w' ∈ s.writes ∧ s.UnderWay w' := by
        intro w' hw' hunder'
        rcases hmem w' hw' with rfl | hold
        · exact absurd ((hunder w').1 hunder') hgone
        · exact ⟨hold, (hunder w').1 hunder'⟩
      have hsame : ∀ w' ∈ s'.writes, ∀ j, w'.stage = .referenced j → w' ∈ s.writes := by
        intro w' hw' j hj
        rcases hmem w' hw' with rfl | hold
        · exact absurd (hj.symm.trans hxstage) (by simp)
        · exact hold
      have hxstarted : (s.txs x.tx).stage ≠ .idle := hxtx ▸ (hstarted w hwmem).1
      refine ⟨⟨?_, ?_, ?_, ?_, ?_⟩, ⟨?_, ?_, ?_, ?_, ?_⟩, ⟨?_, ?_⟩⟩
      all_goals simp only [htxs, htexts, hrefs, hlocks, hview, hfresh]
      · intro w' hw'
        refine ⟨?_, fun j hj => (hstarted w' (hsame w' hw' j hj)).2 j hj⟩
        rcases hmem w' hw' with rfl | hold
        · exact hxstarted
        · exact (hstarted w' hold).1
      · intro w' hw' hunder'
        exact hstored w' (hstill w' hw' hunder').1 (hstill w' hw' hunder').2
      · intro w' hw' hunder'
        exact hkept w' (hstill w' hw' hunder').1 (hstill w' hw' hunder').2
      · intro r hr
        obtain ⟨hr₁, w', hw', hkey, hstage, hrest⟩ := hrefs' r hr
        exact ⟨hr₁, w', hrefmem w' hw' _ hstage, hkey, hstage, hrest⟩
      · intro i hactive r hr
        obtain ⟨hr₁, w', hw', hkey, hstage, hrest⟩ := hinserted i hactive r hr
        exact ⟨hr₁, w', hrefmem w' hw' _ hstage, hkey, hstage, hrest⟩
      · exact hlocked
      · exact hgrows
      · exact hold
      · intro i k hactive hgone' w' hw' hkey hunder'
        exact hunclaimed i k hactive hgone' w' (hstill w' hw' hunder').1 hkey (hstill w' hw' hunder').2
      · exact hunref
      · exact hasof
      · exact hfrefs
    · exact h
  · exact h

/-- the write stays under way, with its reference -/
theorem St.Ok.references (h : s.Ok) (i n : ℕ) : (s.references i n).Ok := by
  unfold St.references
  split
  · next w hw =>
    split
    · next hif =>
      obtain ⟨hready, hstage, htx⟩ := hif
      obtain ⟨hactive, hnone⟩ := ready_iff.1 hready
      obtain ⟨x, hx⟩ : ∃ x, x = { w with stage := .referenced i } := ⟨_, rfl⟩
      obtain ⟨r, hr⟩ : ∃ r, r = (⟨s.fresh, w.key, i⟩ : Ref Key) := ⟨_, rfl⟩
      have hxkey : x.key = w.key := by rw [hx]
      have hxtx : x.tx = w.tx := by rw [hx]
      have hxstage : x.stage = .referenced i := by rw [hx]
      have hrkey : r.key = w.key := by rw [hr]
      have hrtx : r.tx = i := by rw [hr]
      rw [← hx, ← hr]
      obtain ⟨s', hs'⟩ : ∃ s', s' = { s.setTx i { s.txs i with inserted := (s.txs i).inserted ++ [r] } with
        writes := s.writes.set n x, fresh := s.fresh + 1 } := ⟨_, rfl⟩
      rw [← hs']
      have hstages : SameStages s s' := hs' ▸ sameStages_setTx rfl rfl
      have htexts : s'.texts = s.texts := by rw [hs']; rfl
      have hrefs : s'.refs = s.refs := by rw [hs']; rfl
      have hlocks : s'.locks = s.locks := by rw [hs']; rfl
      have hself : s'.txs i = { s.txs i with inserted := (s.txs i).inserted ++ [r] } := by
        rw [hs']
        exact setTx_self i _
      have hne : ∀ j, j ≠ i → s'.txs j = s.txs j := fun j hj => by
        rw [hs']
        exact setTx_of_ne hj _
      have htxs : ∀ j, (s'.txs j).own = (s.txs j).own ∧ (s'.txs j).deleted = (s.txs j).deleted ∧
          (s'.txs j).sweep = (s.txs j).sweep := by grind
      have hinserted : ∀ j, (s'.txs j).inserted = if j = i then (s.txs i).inserted ++ [r] else (s.txs j).inserted := by
        grind
      have hmem : ∀ w' ∈ s'.writes, w' = x ∨ w' ∈ s.writes := fun w' hw' =>
        (List.mem_or_eq_of_mem_set (by rwa [hs'] at hw')).symm
      have hmem' : ∀ w' ∈ s.writes, ∀ j, w'.stage = .referenced j → w' ∈ s'.writes := by
        intro w' hw' j hj
        rw [hs']
        apply mem_set_of_ne hw hw'
        rintro rfl
        exact absurd (hj.symm.trans hstage) (by simp)
      have hxmem : x ∈ s'.writes := by
        rw [hs']
        exact List.mem_set (List.getElem?_eq_some_iff.1 hw).1 x
      have hwmem : w ∈ s.writes := List.mem_of_getElem? hw
      have hview : s'.view = s.view := by
        funext j k
        unfold St.view
        rw [(htxs j).1, htexts]
      have hwunder : s.UnderWay w := by
        unfold St.UnderWay
        grind
      have hunder : ∀ w' ∈ s'.writes, s'.UnderWay w' →
          ∃ w₀ ∈ s.writes, s.UnderWay w₀ ∧ w₀.key = w'.key ∧ w₀.tx = w'.tx := by
        intro w' hw' hunder'
        rcases hmem w' hw' with rfl | hold
        · exact ⟨w, hwmem, hwunder, hxkey.symm, hxtx.symm⟩
        · exact ⟨w', hold, (hstages.underWay w').1 hunder', rfl, rfl⟩
      obtain ⟨⟨hstarted, hstored, hkept, hrefs', hins⟩, ⟨hlocked, hgrows, hold, hunclaimed, hunref⟩,
        ⟨hasof, hfrefs⟩⟩ := h
      refine ⟨⟨?_, ?_, ?_, ?_, ?_⟩, ⟨?_, ?_, ?_, ?_, ?_⟩, ⟨?_, ?_⟩⟩
      all_goals simp only [(hstages _).1, (hstages _).2, (htxs _).1, (htxs _).2.1, (htxs _).2.2, htexts, hrefs, hlocks,
        hview, hstages.fresh, hinserted]
      · intro w' hw'
        rcases hmem w' hw' with rfl | hold
        · rw [hxtx]
          exact ⟨(hstarted w hwmem).1, by grind⟩
        · exact hstarted w' hold
      · intro w' hw' hunder'
        obtain ⟨w₀, hw₀, hunder₀, hkey, htx₀⟩ := hunder w' hw' hunder'
        rw [← hkey, ← htx₀, fresh_of_tx htx₀.symm]
        exact hstored w₀ hw₀ hunder₀
      · intro w' hw' hunder'
        obtain ⟨w₀, hw₀, hunder₀, hkey, htx₀⟩ := hunder w' hw' hunder'
        rw [← hkey, ← htx₀, fresh_of_tx htx₀.symm]
        exact hkept w₀ hw₀ hunder₀
      · intro r' hr'
        obtain ⟨hr₁, w', hw', hkey, hstage', hrest⟩ := hrefs' r' hr'
        exact ⟨hr₁, w', hmem' w' hw' _ hstage', hkey, hstage', hrest⟩
      · intro j hactive' r' hr'
        have hcases : r' ∈ (s.txs j).inserted ∨ j = i ∧ r' = r := by grind
        rcases hcases with hold | ⟨rfl, rfl⟩
        · obtain ⟨hr₁, w', hw', hkey, hstage', hrest⟩ := hins j hactive' r' hold
          exact ⟨hr₁, w', hmem' w' hw' _ hstage', hkey, hstage', hrest⟩
        · exact ⟨hrtx, x, hxmem, hxkey.trans hrkey.symm, hxstage, hxtx ▸ htx⟩
      · exact hlocked
      · exact hgrows
      · exact hold
      · intro j k hactive' hgone w' hw' hkey' hunder'
        obtain ⟨w₀, hw₀, hunder₀, hkey, htx₀⟩ := hunder w' hw' hunder'
        exact hunclaimed j k hactive' hgone w₀ hw₀ (hkey.trans hkey') hunder₀
      · exact hunref
      · exact hasof
      · exact hfrefs
    · exact h
  · exact h

/-- the row is there afterwards, as young as the write, and no older than it was -/
theorem upsert_spec {now fresh : ℕ} {v : Option Text} {own : Option (Option Text)} {committed : Option Text}
    (hv : v = own.getD committed) : ∃ t, (upsert now fresh v own).getD committed = some t ∧
      now ≤ t.lastRefAt + touchInterval ∧ (∀ t₀ ∈ v, t₀.lastRefAt ≤ t.lastRefAt) ∧ (v = none → t.lastRefAt = now) := by
  unfold upsert
  cases v with
  | none => exact ⟨⟨fresh, now⟩, rfl, Nat.le_add_right _ _, by simp, fun _ => rfl⟩
  | some t =>
    by_cases hold : t.lastRefAt + touchInterval < now
    · refine ⟨{ t with lastRefAt := now }, by simp [hold], Nat.le_add_right _ _, ?_, by simp⟩
      intro t₀ ht₀
      cases ht₀
      dsimp only
      omega
    · refine ⟨t, by simp [hold, hv], by omega, ?_, by simp⟩
      intro t₀ ht₀
      cases ht₀
      exact le_rfl

theorem free_iff {k : Key} : s.free i k = true ↔ ∀ j, s.locks k = some j → j = i := by
  unfold St.free
  cases s.locks k with
  | none | some j => simp

/-- transaction `i` puts `v` on the row of `k`, and has it locked -/
structure Puts (s s' : St Key) (i : ℕ) (k : Key) (v : Option (Option Text)) : Prop where
  stages : SameStages s s'
  texts : s'.texts = s.texts
  refs : s'.refs = s.refs
  locks : ∀ k', s'.locks k' = if k' = k then some i else s.locks k'
  own : ∀ j k', (s'.txs j).own k' = if j = i ∧ k' = k then v else (s.txs j).own k'
  rest : ∀ j, (s'.txs j).inserted = (s.txs j).inserted ∧ (s'.txs j).deleted = (s.txs j).deleted ∧
    (s'.txs j).sweep = (s.txs j).sweep

theorem puts_setTx (i : ℕ) (k : Key) (v : Option (Option Text)) (writes : List (Write Key)) (fresh : ℕ) :
    Puts s { s.setTx i { s.txs i with own := Function.update (s.txs i).own k v } with
      locks := Function.update s.locks k (some i), writes := writes, fresh := fresh } i k v := by
  refine ⟨sameStages_setTx rfl rfl, rfl, rfl, Function.update_apply s.locks k (some i), ?_, ?_⟩
  · intro j k'
    by_cases hj : j = i
    · subst hj
      simp [Function.update_apply]
    · rw [setTx_of_ne hj, if_neg fun heq => hj heq.1]
  · intro j
    by_cases hj : j = i
    · subst hj
      rw [setTx_self]
      exact ⟨rfl, rfl, rfl⟩
    · rw [setTx_of_ne hj]
      exact ⟨rfl, rfl, rfl⟩

section

variable {s' : St Key} {i : ℕ} {k : Key} {v : Option (Option Text)}

theorem Puts.view (p : Puts s s' i k v) (j : ℕ) (k' : Key) :
    s'.view j k' = if j = i ∧ k' = k then v.getD (s.texts k) else s.view j k' := by
  unfold St.view
  rw [p.own, p.texts]
  split
  · next heq => rw [heq.2]
  · rfl

theorem Puts.locked (p : Puts s s' i k v) (h : s.Own) (hfree : ∀ j, s.locks k = some j → j = i) (j : ℕ) (k' : Key)
    (hactive : (s'.txs j).stage = .active) (hmine : (s'.txs j).own k' ≠ none) : s'.locks k' = some j := by
  rw [(p.stages j).1] at hactive
  rw [p.own] at hmine
  rw [p.locks]
  by_cases hk : k' = k
  · subst hk
    rw [if_pos rfl]
    by_contra hother
    have hji : j ≠ i := fun heq => hother (congrArg some heq.symm)
    rw [if_neg fun heq => hji heq.1] at hmine
    exact hji (hfree j (h.locked j k' hactive hmine))
  · rw [if_neg fun heq => hk heq.2] at hmine
    rw [if_neg hk]
    exact h.locked j k' hactive hmine

theorem Puts.found (p : Puts s s' i k v) (h : s.Found) : s'.Found := by
  refine ⟨?_, ?_⟩
  · simpa only [(p.stages _).1, (p.rest _).2.2] using h.asOf
  · simpa only [(p.stages _).1, (p.rest _).2.1, (p.rest _).2.2, p.refs] using h.refs

end

theorem St.Ok.stores (h : s.Ok) (i : ℕ) (k : Key) : (s.stores i k).Ok := by
  unfold St.stores
  split
  · next hif =>
    obtain ⟨hready, hfree⟩ := hif
    obtain ⟨hactive, hnone⟩ := ready_iff.1 hready
    rw [free_iff] at hfree
    obtain ⟨u, hu⟩ : ∃ u, u = upsert (s.txs i).now s.fresh (s.view i k) ((s.txs i).own k) := ⟨_, rfl⟩
    obtain ⟨y, hy⟩ : ∃ y, y = ({ key := k, tx := i } : Write Key) := ⟨_, rfl⟩
    have hykey : y.key = k := by rw [hy]
    have hytx : y.tx = i := by rw [hy]
    have hystage : y.stage = .stored := by rw [hy]
    obtain ⟨t, ht, hyoung, hgrown, hnew⟩ : ∃ t, u.getD (s.texts k) = some t ∧
        (s.txs i).now ≤ t.lastRefAt + touchInterval ∧ (∀ t₀ ∈ s.view i k, t₀.lastRefAt ≤ t.lastRefAt) ∧
          (s.view i k = none → t.lastRefAt = (s.txs i).now) := hu ▸ upsert_spec rfl
    rw [← hu, ← hy]
    have p := puts_setTx (s := s) i k u (s.writes ++ [y]) (s.fresh + 1)
    obtain ⟨s', hs'⟩ : ∃ s', s' = { s.setTx i { s.txs i with own := Function.update (s.txs i).own k u } with
      locks := Function.update s.locks k (some i), writes := s.writes ++ [y], fresh := s.fresh + 1 } := ⟨_, rfl⟩
    have hwrites : s'.writes = s.writes ++ [y] := by rw [hs']
    rw [← hs'] at p ⊢
    have hview : ∀ j k', s'.view j k' = if j = i ∧ k' = k then some t else s.view j k' := fun j k' => ht ▸ p.view j k'
    -- a write of the step is an old one, or the new one
    have hcases : ∀ w ∈ s'.writes, w ∈ s.writes ∨ w = y := by
      intro w hw
      rw [hwrites, List.mem_append, List.mem_singleton] at hw
      exact hw
    have hmem : ∀ w ∈ s.writes, w ∈ s'.writes := fun w hw => hwrites ▸ List.mem_append_left _ hw
    have hgone' : ∀ j k', (s'.txs j).own k' = some none → (s.txs j).own k' = some none ∧ ¬(j = i ∧ k' = k) := by
      intro j k' hgone
      rw [p.own] at hgone
      split at hgone
      · exact absurd (hgone ▸ ht) (by simp)
      · next hne => exact ⟨hgone, hne⟩
    refine ⟨⟨?_, ?_, ?_, ?_, ?_⟩, ⟨p.locked h.own hfree, ?_, ?_, ?_, ?_⟩, p.found h.found⟩
    all_goals simp only [(p.stages _).1, (p.stages _).2, (p.rest _).1, (p.rest _).2.1, p.texts, p.refs,
      p.stages.fresh, p.stages.underWay]
    · intro w hw
      rcases hcases w hw with hold | rfl
      · exact h.kept.started w hold
      · rw [hytx, hactive]
        exact ⟨by simp, fun j hj => absurd (hj.symm.trans hystage) (by simp)⟩
    · intro w' hw' hunder hactive'
      rw [p.locks, hview]
      rcases hcases w' hw' with hold | rfl
      · obtain ⟨hlock, t₀, ht₀, hyoung₀⟩ := h.kept.stored w' hold hunder hactive'
        by_cases hkey : w'.key = k
        · obtain rfl : w'.tx = i := hfree _ (hkey ▸ hlock)
          rw [if_pos hkey, if_pos ⟨rfl, hkey⟩]
          exact ⟨rfl, t, rfl, by omega⟩
        · rw [if_neg hkey, if_neg fun heq => hkey heq.2]
          exact ⟨hlock, t₀, ht₀, hyoung₀⟩
      · rw [if_pos hykey, if_pos ⟨hytx, hykey⟩, hytx]
        exact ⟨rfl, t, rfl, hytx ▸ hyoung⟩
    · intro w hw hunder hdone
      rcases hcases w hw with hold | rfl
      · exact h.kept.kept w hold hunder hdone
      · rw [hytx, hactive] at hdone
        cases hdone
    · intro r hr
      obtain ⟨hdone, w, hw, hrest⟩ := h.kept.refs r hr
      exact ⟨hdone, w, hmem w hw, hrest⟩
    · intro j hactive' r hr
      obtain ⟨hrtx, w, hw, hrest⟩ := h.kept.inserted j hactive' r hr
      exact ⟨hrtx, w, hmem w hw, hrest⟩
    · intro j k' t₁ t' hactive' hown' ht'
      rw [p.own] at hown'
      split at hown'
      · next heq =>
        obtain ⟨rfl, rfl⟩ := heq
        rw [hown'] at ht
        cases ht
        -- what the transaction saw is the committed row, its own, or nothing since it deleted the row itself
        cases hmine : (s.txs j).own k' with
        | none => exact hgrown t' (by rw [St.view, hmine]; exact ht')
        | some v => cases v with
          | none =>
            rw [hnew (by rw [St.view, hmine]; rfl)]
            exact h.own.old j k' t' hactive' hmine ht'
          | some t₂ =>
            have hle : t'.lastRefAt ≤ t₂.lastRefAt := h.own.grows j k' t₂ t' hactive' hmine ht'
            exact hle.trans (hgrown t₂ (by rw [St.view, hmine]; rfl))
      · exact h.own.grows j k' t₁ t' hactive' hown' ht'
    · exact fun j k' t' hactive' hgone => h.own.old j k' t' hactive' (hgone' j k' hgone).1
    · intro j k' hactive' hgone w hw hkey
      obtain ⟨hmine, hne⟩ := hgone' j k' hgone
      rcases hcases w hw with hold | rfl
      · exact h.own.unclaimed j k' hactive' hmine w hold hkey
      · -- the row the new write has locked is not one another transaction deletes
        have hlock : s.locks k' = some j := h.own.locked j k' hactive' (by rw [hmine]; simp)
        obtain rfl := hykey.symm.trans hkey
        exact absurd ⟨hfree j hlock, rfl⟩ hne
    · exact fun j k' hactive' hgone => h.own.unreferenced j k' hactive' (hgone' j k' hgone).1
  · exact h

theorem sweepsAway_iff {k : Key} : s.sweepsAway i k = true ↔ ∃ sweep t, (s.txs i).sweep = some sweep ∧
    s.view i k = some t ∧ (s.txs i).stage = .active ∧ sweep.found k = some t.row ∧ s.free i k = true ∧
      t.lastRefAt + gcGrace < (s.txs i).now := by
  unfold St.sweepsAway
  split
  · next sweep t hsweep ht =>
    rw [hsweep, ht]
    simp
  · next hnot =>
    constructor
    · intro h
      cases h
    · rintro ⟨sweep, t, hsweep, ht, _⟩
      exact absurd ht (hnot sweep t hsweep)

theorem St.Ok.sweepsText (h : s.Ok) (i : ℕ) (k : Key) (hguard : NoWriteOutlives s (.sweepsText i k)) :
    (s.sweepsText i k).Ok := by
  unfold St.sweepsText
  split
  · next haway =>
    obtain ⟨sweep, t, hsweep, ht, hactive, hfound, hfree, hlate⟩ := sweepsAway_iff.1 haway
    rw [free_iff] at hfree
    have hrecent : ∀ w ∈ s.writes, w.key = k → s.failed w = true ∨ sweep.saw w = true ∨
        (s.txs i).now < (s.txs w.tx).now + (gcGrace - touchInterval) := by
      intro w hw hkey
      exact hguard (i, k, sweep) (by simp [St.deleting, haway, hsweep]) w hw hkey
    have hcommitted : ∀ t₀, s.texts k = some t₀ → t₀.lastRefAt ≤ t.lastRefAt := by
      intro t₀ ht₀
      unfold St.view at ht
      cases hmine : (s.txs i).own k with
      | none =>
        obtain rfl : t₀ = t := by simpa [hmine, ht₀] using ht
        exact le_rfl
      | some v =>
        obtain rfl : v = some t := by simpa [hmine] using ht
        exact h.own.grows i k t t₀ hactive hmine ht₀
    have hstale : ∀ (w : Write Key) (t₀ : Text), (s.txs i).now < (s.txs w.tx).now + (gcGrace - touchInterval) →
        (s.txs w.tx).now ≤ t₀.lastRefAt + touchInterval → t₀.lastRefAt ≤ t.lastRefAt → False := by
      intro w t₀ hlt hyoung hle
      have hconst : touchInterval ≤ gcGrace := by decide
      omega
    have hnobody : ∀ w ∈ s.writes, w.key = k → ¬ s.UnderWay w := by
      intro w hw hkey hunder
      rcases hrecent w hw hkey with hfailed | hsaw | hlt
      · unfold St.failed at hfailed
        unfold St.UnderWay at hunder
        grind
      · unfold Sweep.saw at hsaw
        have hasof := h.found.asOf i sweep
        unfold St.UnderWay at hunder
        grind
      · rcases hunder.1 with hrun | hdone
        · obtain ⟨hlock, t₀, ht₀, hyoung⟩ := h.kept.stored w hw hunder hrun
          obtain rfl : w.tx = i := hfree _ (hkey ▸ hlock)
          obtain rfl := Option.some.inj (ht.symm.trans (hkey ▸ ht₀))
          exact hstale w t hlt hyoung le_rfl
        · obtain ⟨t₀, ht₀, hyoung⟩ := h.kept.kept w hw hunder hdone
          exact hstale w t₀ hlt hyoung (hcommitted t₀ (hkey ▸ ht₀))
    have hunref' : ∀ r ∈ s.refs, r.key = k → r.id ∈ (s.txs i).deleted := by
      intro r hr hkey
      rcases h.found.refs i sweep k t.row hactive hsweep hfound r hr hkey with hdel | hunseen
      · exact hdel
      · obtain ⟨hcom, w, hw, hwkey, hstage, hdone, t₀, ht₀, hyoung⟩ := h.kept.refs r hr
        rcases hrecent w hw (hwkey.trans hkey) with hfailed | hsaw | hlt
        · unfold St.failed at hfailed
          grind
        · unfold Sweep.saw at hsaw
          grind
        · exact (hstale w t₀ hlt hyoung (hcommitted t₀ (hkey ▸ ht₀))).elim
    have p := puts_setTx (s := s) i k (some none) s.writes s.fresh
    obtain ⟨s', hs'⟩ : ∃ s', s' = { s.setTx i { s.txs i with own := Function.update (s.txs i).own k (some none) } with
      locks := Function.update s.locks k (some i) } := ⟨_, rfl⟩
    have hwrites : s'.writes = s.writes := by rw [hs']; rfl
    rw [← hs']
    replace p : Puts s s' i k (some none) := hs' ▸ p
    -- what goes is `k`, for this transaction, or was gone
    have hgone' : ∀ j k', (s'.txs j).own k' = some none → (j = i ∧ k' = k) ∨ (s.txs j).own k' = some none := by
      intro j k' hgone
      rw [p.own] at hgone
      split at hgone
      · next heq => exact .inl heq
      · exact .inr hgone
    refine ⟨⟨?_, ?_, ?_, ?_, ?_⟩, ⟨p.locked h.own hfree, ?_, ?_, ?_, ?_⟩, p.found h.found⟩
    all_goals simp only [(p.stages _).1, (p.stages _).2, (p.rest _).1, (p.rest _).2.1, p.texts, p.refs,
      p.stages.fresh, p.stages.underWay, hwrites]
    · exact h.kept.started
    · intro w hw hunder hrun
      have hkey : w.key ≠ k := fun heq => hnobody w hw heq hunder
      rw [p.locks, if_neg hkey, p.view, if_neg fun heq => hkey heq.2]
      exact h.kept.stored w hw hunder hrun
    · exact h.kept.kept
    · exact h.kept.refs
    · exact h.kept.inserted
    · intro j k' t₁ t' hrun hmine ht'
      rw [p.own] at hmine
      split at hmine
      · cases hmine
      · exact h.own.grows j k' t₁ t' hrun hmine ht'
    · intro j k' t' hrun hgone ht'
      rcases hgone' j k' hgone with ⟨rfl, rfl⟩ | hold
      · have hle : t'.lastRefAt ≤ t.lastRefAt := hcommitted t' ht'
        omega
      · exact h.own.old j k' t' hrun hold ht'
    · intro j k' hrun hgone w hw hkey
      rcases hgone' j k' hgone with ⟨rfl, rfl⟩ | hold
      · exact hnobody w hw hkey
      · exact h.own.unclaimed j k' hrun hold w hw hkey
    · intro j k' hrun hgone r hr hkey
      rcases hgone' j k' hgone with ⟨rfl, rfl⟩ | hold
      · exact hunref' r hr hkey
      · exact h.own.unreferenced j k' hrun hold r hr hkey
  · exact h

theorem released_iff {j : ℕ} {k : Key} : s.released i k = some j ↔ s.locks k = some j ∧ j ≠ i := by
  unfold St.released
  grind

/-- transaction `i` ends, and its locks are released -/
structure Ends (s s' : St Key) (i : ℕ) (stage : TxStage) : Prop where
  writes : s'.writes = s.writes
  locks : ∀ k j, s'.locks k = some j ↔ s.locks k = some j ∧ j ≠ i
  stage : ∀ j, (s'.txs j).stage = if j = i then stage else (s.txs j).stage
  rest : ∀ j, (s'.txs j).now = (s.txs j).now ∧ (s'.txs j).own = (s.txs j).own ∧
    (s'.txs j).inserted = (s.txs j).inserted ∧ (s'.txs j).deleted = (s.txs j).deleted
  sweep : ∀ j sweep, (s'.txs j).sweep = some sweep → (s.txs j).sweep = some sweep

theorem ends_setTx {tx : Tx Key} (texts : Key → Option Text) (refs : List (Ref Key)) (hnow : tx.now = (s.txs i).now)
    (hown : tx.own = (s.txs i).own) (hinserted : tx.inserted = (s.txs i).inserted)
    (hdeleted : tx.deleted = (s.txs i).deleted)
    (hsweep : ∀ sweep, tx.sweep = some sweep → (s.txs i).sweep = some sweep) :
    Ends s { s.setTx i tx with texts := texts, refs := refs, locks := s.released i } i tx.stage := by
  refine ⟨rfl, fun k j => released_iff, fun j => ?_, fun j => ?_, fun j => ?_⟩
  · by_cases hj : j = i
    · rw [hj, setTx_self, if_pos rfl]
    · rw [setTx_of_ne hj, if_neg hj]
  · by_cases hj : j = i
    · rw [hj, setTx_self]
      exact ⟨hnow, hown, hinserted, hdeleted⟩
    · rw [setTx_of_ne hj]
      exact ⟨rfl, rfl, rfl, rfl⟩
  · by_cases hj : j = i
    · rw [hj, setTx_self]
      exact hsweep
    · rw [setTx_of_ne hj]
      exact fun sweep h => h

section

variable {s' : St Key} {i : ℕ} {stage : TxStage}

section

variable (e : Ends s s' i stage)

include e

theorem Ends.active (hstage : stage ≠ .active) {j : ℕ} (hrun : (s'.txs j).stage = .active) :
    j ≠ i ∧ (s.txs j).stage = .active := by
  rw [e.stage] at hrun
  split at hrun
  · exact absurd hrun hstage
  · next hji => exact ⟨hji, hrun⟩

theorem Ends.committed (hactive : (s.txs i).stage = .active) {j : ℕ}
    (hdone : (s.txs j).stage = .committed) : (s'.txs j).stage = .committed := by
  have hji : j ≠ i := by
    rintro rfl
    exact absurd (hactive.symm.trans hdone) (by simp)
  rw [e.stage, if_neg hji]
  exact hdone

theorem Ends.fresh (w : Write Key) (t : Option Text) : s'.Fresh w t ↔ s.Fresh w t := by
  unfold St.Fresh
  rw [(e.rest _).1]

theorem Ends.underWay (hactive : (s.txs i).stage = .active) (hstage : stage ≠ .active)
    {w : Write Key} (h : s'.UnderWay w) : s.UnderWay w := by
  obtain ⟨hrun, hrest⟩ := h
  refine ⟨?_, ?_⟩
  · rw [e.stage] at hrun
    split at hrun
    · next heq =>
      rw [heq]
      exact .inl hactive
    · exact hrun
  · rcases hrest with hstored | ⟨j, href, hrun'⟩
    · exact .inl hstored
    · exact .inr ⟨j, href, (e.active hstage hrun').2⟩

theorem Ends.started (hstage : stage ≠ .idle) {j : ℕ} (h : (s.txs j).stage ≠ .idle) : (s'.txs j).stage ≠ .idle := by
  rw [e.stage]
  split
  · exact hstage
  · exact h

theorem Ends.locked (hstage : stage ≠ .active) (h : s.Own) (j : ℕ) (k : Key)
    (hrun : (s'.txs j).stage = .active) (hmine : (s'.txs j).own k ≠ none) : s'.locks k = some j := by
  obtain ⟨hji, hrun'⟩ := e.active hstage hrun
  rw [(e.rest j).2.1] at hmine
  exact (e.locks k j).2 ⟨h.locked j k hrun' hmine, hji⟩

theorem Ends.asOf (hactive : (s.txs i).stage = .active) (h : s.Found) (l : ℕ)
    (sweep : Sweep Key) (j : ℕ) (hsweep : (s'.txs l).sweep = some sweep) (hsaw : sweep.asOf j = true) :
    (s'.txs j).stage = .committed :=
  e.committed hactive (h.asOf l sweep j (e.sweep l sweep hsweep) hsaw)

end

end

theorem St.Ok.rollsBack (h : s.Ok) (i : ℕ) : (s.rollsBack i).Ok := by
  unfold St.rollsBack
  split
  · next hactive =>
    have e : Ends s { s.setTx i { s.txs i with stage := .rolledBack, sweep := none } with locks := s.released i } i
        .rolledBack := ends_setTx s.texts s.refs rfl rfl rfl rfl fun sweep hsweep => absurd hsweep (by simp)
    obtain ⟨s', hs'⟩ : ∃ s', s' = { s.setTx i { s.txs i with stage := .rolledBack, sweep := none } with
      locks := s.released i } := ⟨_, rfl⟩
    have htexts : s'.texts = s.texts := by rw [hs']; rfl
    have hrefs : s'.refs = s.refs := by rw [hs']; rfl
    rw [← hs'] at e ⊢
    have hview : ∀ j k, s'.view j k = s.view j k := fun j k => by rw [St.view, St.view, (e.rest j).2.1, htexts]
    refine ⟨⟨?_, ?_, ?_, ?_, ?_⟩, ⟨e.locked (by simp) h.own, ?_, ?_, ?_, ?_⟩, ⟨e.asOf hactive h.found, ?_⟩⟩
    all_goals simp only [htexts, hrefs, e.writes, e.fresh, hview, e.rest]
    · intro w hw
      obtain ⟨hstarted, href⟩ := h.kept.started w hw
      exact ⟨e.started (by simp) hstarted, fun j hj => e.started (by simp) (href j hj)⟩
    · intro w hw hunder hrun
      obtain ⟨hji, hrun'⟩ := e.active (by simp) hrun
      obtain ⟨hlock, hyoung⟩ := h.kept.stored w hw (e.underWay hactive (by simp) hunder) hrun'
      exact ⟨(e.locks _ _).2 ⟨hlock, hji⟩, hyoung⟩
    · intro w hw hunder hdone
      have hdone' : (s.txs w.tx).stage = .committed := by
        rw [e.stage] at hdone
        split at hdone
        · cases hdone
        · exact hdone
      exact h.kept.kept w hw (e.underWay hactive (by simp) hunder) hdone'
    · intro r hr
      obtain ⟨hcom, w, hw, hkey, hstage, hdone, hyoung⟩ := h.kept.refs r hr
      exact ⟨e.committed hactive hcom, w, hw, hkey, hstage, e.committed hactive hdone, hyoung⟩
    · intro j hrun r hr
      obtain ⟨hrtx, w, hw, hkey, hstage, htx⟩ := h.kept.inserted j (e.active (by simp) hrun).2 r hr
      exact ⟨hrtx, w, hw, hkey, hstage, htx.imp_right (e.committed hactive)⟩
    · exact fun j k t t' hrun => h.own.grows j k t t' (e.active (by simp) hrun).2
    · exact fun j k t' hrun => h.own.old j k t' (e.active (by simp) hrun).2
    · intro j k hrun hgone w hw hkey hunder
      exact h.own.unclaimed j k (e.active (by simp) hrun).2 hgone w hw hkey (e.underWay hactive (by simp) hunder)
    · exact fun j k hrun => h.own.unreferenced j k (e.active (by simp) hrun).2
    · intro j sweep k row hrun hsweep
      exact h.found.refs j sweep k row (e.active (by simp) hrun).2 (e.sweep j sweep hsweep)
  · exact h

theorem St.Ok.commits (h : s.Ok) (i : ℕ) : (s.commits i).Ok := by
  unfold St.commits
  split
  · next hready =>
    obtain ⟨hactive, hnone⟩ := ready_iff.1 hready
    have e : Ends s { s.setTx i { s.txs i with stage := .committed } with
        texts := s.view i, refs := s.sees i, locks := s.released i } i .committed :=
      ends_setTx (s.view i) (s.sees i) rfl rfl rfl rfl fun sweep hsweep => hsweep
    obtain ⟨s', hs'⟩ : ∃ s', s' = { s.setTx i { s.txs i with stage := .committed } with
      texts := s.view i, refs := s.sees i, locks := s.released i } := ⟨_, rfl⟩
    have htexts : s'.texts = s.view i := by rw [hs']
    have hrefs : ∀ r, r ∈ s'.refs ↔ (r ∈ s.refs ∧ r.id ∉ (s.txs i).deleted) ∨ r ∈ (s.txs i).inserted := by
      rw [hs']
      intro r
      simp [St.sees]
    rw [← hs'] at e ⊢
    obtain ⟨⟨hstarted, hstored, hkept, hrefs', hins⟩, howned, hfound⟩ := h
    have ⟨hlocked, hgrows, hold, hunclaimed, hunref⟩ := howned
    have ⟨hasof, hfrefs⟩ := hfound
    -- what another transaction has written or locked is as it was
    have hother : ∀ k, s.locks k ≠ some i → s.view i k = s.texts k := by
      intro k hk
      have hmine : (s.txs i).own k = none := by
        by_contra hmine
        exact hk (hlocked i k hactive hmine)
      rw [St.view, hmine]
      rfl
    have hgrow : ∀ w k, (s.txs i).own k ≠ some none → s.Fresh w (s.texts k) → s.Fresh w (s.view i k) := by
      rintro w k hmine ⟨t₀, ht₀, hyoung⟩
      cases hcase : (s.txs i).own k with
      | none => exact ⟨t₀, by rw [St.view, hcase]; exact ht₀, hyoung⟩
      | some v => cases v with
        | none => exact absurd hcase hmine
        | some t =>
          have hle : t₀.lastRefAt ≤ t.lastRefAt := hgrows i k t t₀ hactive hcase ht₀
          exact ⟨t, by rw [St.view, hcase]; rfl, by omega⟩
    have hkeep : ∀ w ∈ s.writes, s.UnderWay w → w.tx = i ∨ (s.txs w.tx).stage = .committed →
        s.Fresh w (s.view i w.key) := by
      intro w hw hunder' htx
      rcases htx with rfl | hdone
      · exact (hstored w hw hunder' hactive).2
      · exact hgrow w w.key (fun hgone => hunclaimed i w.key hactive hgone w hw rfl hunder') (hkept w hw hunder' hdone)
    have hmine : ∀ r ∈ (s.txs i).inserted, r.tx = i ∧ ∃ w ∈ s.writes, w.key = r.key ∧ w.stage = .referenced i ∧
        (w.tx = i ∨ (s.txs w.tx).stage = .committed) ∧ s.UnderWay w := by
      intro r hr
      obtain ⟨hrtx, w, hw, hkey, hwstage, htx⟩ := hins i hactive r hr
      refine ⟨hrtx, w, hw, hkey, hwstage, htx, ?_, .inr ⟨i, hwstage, hactive⟩⟩
      rcases htx with rfl | hdone
      · exact .inl hactive
      · exact .inr hdone
    -- what is committed now was committed, or is this transaction
    have hdone : ∀ {j}, (s'.txs j).stage = .committed → j = i ∨ (s.txs j).stage = .committed := by
      intro j hj
      rw [e.stage] at hj
      split at hj
      · next heq => exact .inl heq
      · exact .inr hj
    have hend : ∀ {j}, j = i ∨ (s.txs j).stage = .committed → (s'.txs j).stage = .committed := by
      intro j hj
      rcases hj with rfl | hj
      · rw [e.stage, if_pos rfl]
      · exact e.committed hactive hj
    -- a row that another running transaction has locked is as it was
    have hsame : ∀ {j k}, j ≠ i → (s.txs j).stage = .active → (s.txs j).own k ≠ none → s.view i k = s.texts k := by
      intro j k hji hrun hown
      have hlock : s.locks k = some j := hlocked j k hrun hown
      exact hother k (by rw [hlock]; simpa using hji)
    refine ⟨⟨?_, ?_, ?_, ?_, ?_⟩, ⟨e.locked (by simp) howned, ?_, ?_, ?_, ?_⟩, ⟨e.asOf hactive hfound, ?_⟩⟩
    all_goals simp only [htexts, e.writes, e.fresh, e.rest]
    · intro w hw
      obtain ⟨hstart, href⟩ := hstarted w hw
      exact ⟨e.started (by simp) hstart, fun j hj => e.started (by simp) (href j hj)⟩
    · intro w hw hunder' hrun
      obtain ⟨hwi, hrun'⟩ := e.active (by simp) hrun
      obtain ⟨hlock, hyoung⟩ := hstored w hw (e.underWay hactive (by simp) hunder') hrun'
      have hview : s'.view w.tx w.key = s.view w.tx w.key := by
        unfold St.view
        rw [htexts, (e.rest _).2.1, hother w.key (by rw [hlock]; simpa using hwi)]
      rw [hview]
      exact ⟨(e.locks _ _).2 ⟨hlock, hwi⟩, hyoung⟩
    · exact fun w hw hunder' hwdone => hkeep w hw (e.underWay hactive (by simp) hunder') (hdone hwdone)
    · intro r hr
      rcases (hrefs r).1 hr with ⟨hold', hundeleted⟩ | hnew
      · obtain ⟨hcom, w, hw, hkey, hwstage, hwdone, hyoung⟩ := hrefs' r hold'
        have hkeep' : s.Fresh w (s.view i r.key) :=
          hgrow w r.key (fun hgone => hundeleted (hunref i r.key hactive hgone r hold' rfl)) hyoung
        exact ⟨e.committed hactive hcom, w, hw, hkey, hwstage, e.committed hactive hwdone, hkeep'⟩
      · obtain ⟨hrtx, w, hw, hkey, hwstage, htx, hunder'⟩ := hmine r hnew
        exact ⟨hend (.inl hrtx), w, hw, hkey, hrtx ▸ hwstage, hend htx, hkey ▸ hkeep w hw hunder' htx⟩
    · intro j hrun r hr
      obtain ⟨hrtx, w, hw, hkey, hwstage, htx⟩ := hins j (e.active (by simp) hrun).2 r hr
      exact ⟨hrtx, w, hw, hkey, hwstage, htx.imp_right (e.committed hactive)⟩
    · intro j k t t' hrun hown ht'
      obtain ⟨hji, hrun'⟩ := e.active (by simp) hrun
      rw [hsame hji hrun' (by rw [hown]; simp)] at ht'
      exact hgrows j k t t' hrun' hown ht'
    · intro j k t' hrun hown ht'
      obtain ⟨hji, hrun'⟩ := e.active (by simp) hrun
      rw [hsame hji hrun' (by rw [hown]; simp)] at ht'
      exact hold j k t' hrun' hown ht'
    · intro j k hrun hown w hw hkey hunder'
      exact hunclaimed j k (e.active (by simp) hrun).2 hown w hw hkey (e.underWay hactive (by simp) hunder')
    · intro j k hrun hown r hr hkey
      have hrun' := (e.active (by simp) hrun).2
      rcases (hrefs r).1 hr with ⟨hold', _⟩ | hnew
      · exact hunref j k hrun' hown r hold' hkey
      · obtain ⟨_, w, hw, hwkey, _, _, hunder'⟩ := hmine r hnew
        exact absurd hunder' (hunclaimed j k hrun' hown w hw (hwkey.trans hkey))
    · intro j sweep k row hrun hsweep hrow r hr hkey
      have hsweep' := e.sweep j sweep hsweep
      rcases (hrefs r).1 hr with ⟨hold', _⟩ | hnew
      · exact hfrefs j sweep k row (e.active (by simp) hrun).2 hsweep' hrow r hold' hkey
      · right
        obtain ⟨hrtx, _⟩ := hmine r hnew
        by_contra hsaw
        have hcom := hasof j sweep r.tx hsweep' (by simpa using hsaw)
        rw [hrtx, hactive] at hcom
        cases hcom
  · exact h

end

theorem ok_step (s : St Key) (a : Action Key) (h : s.Ok) (hguard : NoWriteOutlives s a) : (step s a).Ok := by
  cases a with
  | begins i now => exact h.begins i now
  | stores i k => exact h.stores i k
  | references i n => exact h.references i n
  | givesUp n => exact h.givesUp n
  | prunes i ref => exact h.prunes i ref
  | sweeps i => exact h.sweeps i
  | sweepsText i k => exact h.sweepsText i k hguard
  | sweepEnds i => exact h.sweepEnds i
  | commits i => exact h.commits i
  | rollsBack i => exact h.rollsBack i

/-- **No referenced text is swept.** In every run from empty tables, of any number of transactions, writes and sweeps at
any clock times, in which every text that goes was stored or found by no write that outlives the grace, every version
and checkpoint row names a text that exists, in every state. -/
theorem texts_kept (as : List (Action Key)) (h : Machine.Guarded step NoWriteOutlives {} as) (n : ℕ) :
    TextsKept (run ({} : St Key) (as.take n)) := by
  have hinit : ({} : St Key).Ok := by
    refine ⟨⟨?_, ?_, ?_, ?_, ?_⟩, ⟨?_, ?_, ?_, ?_, ?_⟩, ⟨?_, ?_⟩⟩
    all_goals simp
  have hprefix : Machine.Guarded step NoWriteOutlives ({} : St Key) (as.take n) := by
    rw [← List.take_append_drop n as, Machine.guarded_append] at h
    exact h.1
  have hok : (run ({} : St Key) (as.take n)).Ok := Machine.run_inv ok_step hinit hprefix
  intro r hr
  obtain ⟨_, w, _, _, _, _, t, ht, _⟩ := hok.kept.refs r hr
  exact Option.isSome_iff_exists.2 ⟨t, ht⟩

/-! Text 0 is stored at 0, and nobody references it. -/

def minutes (n : ℕ) : ℕ := n * 60000

/-- text 1 is stored at 9; a sweep that begins at 61 deletes text 0; at 62 text 1 is referenced -/
def shortWrite : List (Action ℕ) :=
  [.begins 0 0, .stores 0 0, .commits 0, .givesUp 0, .begins 1 (minutes 9), .stores 1 1, .commits 1,
    .begins 2 (minutes 61), .sweeps 2, .sweepsText 2 0, .sweepsText 2 1, .sweepEnds 2, .commits 2,
    .begins 3 (minutes 62), .references 3 1, .commits 3]

/-- a write finds text 0 at 9, and leaves it as it is; a sweep that begins at 61 deletes it; at 62 it is referenced -/
def longWrite : List (Action ℕ) :=
  [.begins 0 0, .stores 0 0, .commits 0, .givesUp 0, .begins 1 (minutes 9), .stores 1 0, .commits 1,
    .begins 2 (minutes 61), .sweeps 2, .sweepsText 2 0, .sweepEnds 2, .commits 2,
    .begins 3 (minutes 62), .references 3 1, .commits 3]

theorem short_write_keeps_text : TextsKept (run {} (shortWrite.take 16)) := by
  apply texts_kept shortWrite
  decide

theorem long_write_loses_text : ¬ TextsKept (run {} longWrite) := by
  decide

end Baalda.NoteTexts
