/-
The bridges of a vault's documents: resident ones, transient ones, and the three maps that are to keep them apart.

`VaultDocStore` (`lib/sync/vaultDocStore.ts`) writes every synced document to disk through a `NoteBridge`. A document
that is open or being uploaded has a resident bridge (`hot`, least recently touched evicted first); for any other an
update opens a transient one. Every `await` is a point at which the rest of the program runs, so a call that waits is a
record with the stage it has reached, and each of its resumptions is a step of its own:
- `Link`: one entry of a document's `coldChains`, queued behind the one before it: a cold apply, or a hold on the chain
  (`holdUntil`);
- `Call`: one `promote`, behind the call already `promoting` the document or opening the bridge itself (`openHot`);
- `Release`: one `release`, waiting for the chain it found;
- `Retire`: a bridge taken out of `hot`, being flushed and persisted before it is destroyed.

A bridge exists from the call of `NoteBridge.open` on. What is left out writes no bridge: the updates themselves, the
manifest, the recency list, the parked updates' bytes (`settleParked` hands the placed documents to `applyUpdate`).
-/
import Baalda.Lib.Machine
import Baalda.Lib.Slots

namespace Baalda.VaultDocStore

open List

/-! ## The store -/

inductive Life where
  | live
  | destroyed
  /-- `NoteBridge.open` has thrown: nobody was handed the bridge -/
  | rejected
  deriving DecidableEq

structure Bridge (D : Type*) where
  docId : D
  life : Life
  deriving DecidableEq

structure HotEntry (D : Type*) where
  docId : D
  bridge : ℕ
  touch : ℕ
  pinned : Bool
  deriving DecidableEq

inductive LinkStage where
  | queued
  | holding
  | deferring
  | opening (bridge : ℕ)
  | working (bridge : ℕ)
  | persisting (bridge : ℕ)
  /-- the work is over, the entry still stands in the map -/
  | done
  | settled
  deriving DecidableEq

structure Link (D : Type*) where
  docId : D
  /-- the entry it was queued behind -/
  prev : Option ℕ
  hold : Bool
  stage : LinkStage
  deriving DecidableEq

inductive CallStage where
  | called
  | behind (call : ℕ)
  /-- `openHot`, on the chain it found -/
  | waiting (chain : Option ℕ)
  | opening (bridge : ℕ)
  /-- the work is over, the entry still stands in `promoting` -/
  | done
  | returned
  deriving DecidableEq

structure Call (D : Type*) where
  docId : D
  pin : Bool
  stage : CallStage
  deriving DecidableEq

structure Release (D : Type*) where
  docId : D
  chain : Option ℕ
  resumed : Bool
  deriving DecidableEq

inductive RetireStage where
  | flushing | persisting | retired
  deriving DecidableEq

structure Retire where
  bridge : ℕ
  stage : RetireStage
  deriving DecidableEq

def LinkStage.bridge : LinkStage → Option ℕ
  | .opening b | .working b | .persisting b => some b
  | .queued | .holding | .deferring | .done | .settled => none

def CallStage.bridge : CallStage → Option ℕ
  | .opening b => some b
  | .called | .behind _ | .waiting _ | .done | .returned => none

@[simp] theorem LinkStage.bridge_opening (b : ℕ) : (LinkStage.opening b).bridge = some b := rfl

@[simp] theorem CallStage.bridge_opening (b : ℕ) : (CallStage.opening b).bridge = some b := rfl

@[simp] theorem CallStage.bridge_done : CallStage.done.bridge = none := rfl

/-- the call is the one that opens, from its entry in `promoting` to the removal of it -/
def CallStage.owns : CallStage → Bool
  | .waiting _ | .opening _ | .done => true
  | .called | .behind _ | .returned => false

def Retire.held (r : Retire) : Option ℕ := if r.stage = .retired then none else some r.bridge

structure St (D : Type*) where
  /-- `resolvePath` finds a path -/
  resolves : D → Bool
  /-- `createDeferred` is given -/
  defers : Bool
  suppressed : Option D
  hotCap : ℕ
  /-- every bridge ever opened, by number -/
  bridges : List (Bridge D)
  /-- by insertion -/
  hot : List (HotEntry D)
  touchSeq : ℕ
  links : List (Link D)
  coldChains : D → Option ℕ
  calls : List (Call D)
  promoting : D → Option ℕ
  releases : List (Release D)
  retires : List Retire

/-- a store nothing has been asked of -/
def fresh {D : Type*} (resolves : D → Bool) (defers : Bool) (hotCap : ℕ) : St D where
  resolves := resolves
  defers := defers
  suppressed := none
  hotCap := hotCap
  bridges := []
  hot := []
  touchSeq := 0
  links := []
  coldChains := fun _ => none
  calls := []
  promoting := fun _ => none
  releases := []
  retires := []

namespace St

variable {D : Type*} [DecidableEq D] (s : St D)

def hotEntry (docId : D) : Option (HotEntry D) := s.hot.find? (·.docId = docId)

/-- the entry of the chain a caller waits for is gone -/
def settled : Option ℕ → Bool
  | none => true
  | some i => s.links[i]?.any (·.stage = .settled)

/-- the work of the call another one waits for is over -/
def ran (i : ℕ) : Bool := s.calls[i]?.any fun c => c.stage = .done || c.stage = .returned

def setLink (i : ℕ) (l : Link D) : St D := { s with links := s.links.set i l }

def setCall (i : ℕ) (c : Call D) : St D := { s with calls := s.calls.set i c }

/-- `entry.touch = ++this.touchSeq` -/
def touch (docId : D) (pin : Bool) : St D :=
  { s with
    hot := s.hot.map fun e =>
      if e.docId = docId then { e with touch := s.touchSeq + 1, pinned := e.pinned || pin } else e
    touchSeq := s.touchSeq + 1 }

/-- `NoteBridge.open` is called: the new bridge is number `s.bridges.length` -/
def openBridge (docId : D) : St D := { s with bridges := s.bridges ++ [⟨docId, .live⟩] }

def endBridge (b : ℕ) (life : Life) : St D := { s with bridges := s.bridges.modify b fun x => { x with life := life } }

/-- `hot.delete(docId)` and `retire(entry.bridge)` -/
def retireHot (docId : D) : St D :=
  match s.hotEntry docId with
  | some e => { s with hot := s.hot.eraseP (·.docId = docId), retires := s.retires ++ [⟨e.bridge, .flushing⟩] }
  | none => s

/-- a new last entry of the document's chain -/
def chain (docId : D) (hold : Bool) : St D :=
  { s with
    links := s.links ++ [⟨docId, s.coldChains docId, hold, .queued⟩]
    coldChains := Function.update s.coldChains docId (some s.links.length) }

def enqueueCold (docId : D) : St D := s.chain docId false

def holdUntil (docId : D) : St D := s.chain docId true

def applyUpdate (docId : D) : St D :=
  if s.suppressed = some docId then s
  else if (s.hotEntry docId).isSome then s.touch docId false
  else s.enqueueCold docId

def settleParked (ready : List D) : St D := ready.foldl applyUpdate s

/-! ### Cold applies -/

end St

/-- what a cold apply does when its turn comes -/
inductive Route where
  | resident | park | defer | opens
  deriving DecidableEq

namespace St

variable {D : Type*} [DecidableEq D] (s : St D)

def route (docId : D) : Route :=
  if (s.hotEntry docId).isSome then .resident
  else if !s.resolves docId then .park
  else if s.defers then .defer
  else .opens

def openCold (i : ℕ) (l : Link D) : St D :=
  (s.openBridge l.docId).setLink i { l with stage := .opening s.bridges.length }

def coldApply (i : ℕ) (l : Link D) : St D :=
  match s.route l.docId with
  | .resident => (s.touch l.docId false).setLink i { l with stage := .done }
  | .park => s.setLink i { l with stage := .done }
  | .defer => s.setLink i { l with stage := .deferring }
  | .opens => s.openCold i l

/-! ### Promotions -/

/-- `promote` up to its first `await` -/
def enter (i : ℕ) (c : Call D) : St D :=
  if (s.hotEntry c.docId).isSome then (s.touch c.docId c.pin).setCall i { c with stage := .returned }
  else
    match s.promoting c.docId with
    | some j => s.setCall i { c with stage := .behind j }
    | none =>
      { s.setCall i { c with stage := .waiting (s.coldChains c.docId) } with
        promoting := Function.update s.promoting c.docId (some i) }

def promote (docId : D) (pin : Bool) : St D :=
  enter { s with calls := s.calls ++ [⟨docId, pin, .called⟩] } s.calls.length ⟨docId, pin, .called⟩

/-- the chain is settled: `openHot` looks at `hot` again and opens -/
def openHot (i : ℕ) (c : Call D) : St D :=
  if (s.hotEntry c.docId).isSome then (s.touch c.docId c.pin).setCall i { c with stage := .done }
  else (s.openBridge c.docId).setCall i { c with stage := .opening s.bridges.length }

/-- the least recently touched entry that is not pinned -/
def lru : Option (HotEntry D) :=
  s.hot.foldl (fun best e =>
    if e.pinned then best
    else match best with
      | none => some e
      | some b => if e.touch < b.touch then some e else some b) none

/-- the loop of `evictIfNeeded`: it takes an entry out each time round -/
def evict : ℕ → St D → St D
  | 0, s => s
  | n + 1, s =>
    if s.hotCap < s.hot.length then
      match s.lru with
      | some e => evict n (s.retireHot e.docId)
      | none => s
    else s

def evictIfNeeded : St D := evict s.hot.length s

/-- `hot.set(docId, …)` -/
def setHot (e : HotEntry D) : St D :=
  { s with
    hot := if (s.hotEntry e.docId).isSome then s.hot.map fun x => if x.docId = e.docId then e else x
      else s.hot ++ [e]
    touchSeq := s.touchSeq + 1 }

end St

/-! ## Steps -/

inductive Action (D : Type*) where
  | applyUpdate (docId : D)
  | settleParked (ready : List D)
  | holdUntil (docId : D)
  | promote (docId : D) (pin : Bool)
  | demote (docId : D)
  | release (docId : D)
  | drop (docId : D)
  /-- the registry places other documents -/
  | registry (resolves : D → Bool)
  | setSuppressedDoc (docId : Option D)
  | linkStarts (i : ℕ)
  | holdEnds (i : ℕ)
  | deferredAnswers (i : ℕ) (created : Bool)
  | linkOpens (i : ℕ)
  | linkOpenFails (i : ℕ)
  /-- `reconcileAfterPull` and `flushEgest` are over, or one has thrown -/
  | linkFlushes (i : ℕ)
  /-- `whenPersisted` is over: `destroy` -/
  | linkPersists (i : ℕ)
  | linkSettles (i : ℕ)
  | promoteResumes (i : ℕ)
  | promoteOpens (i : ℕ)
  | promoteOpenFails (i : ℕ)
  | promoteRetries (i : ℕ)
  | promoteReturns (i : ℕ)
  | releaseResumes (i : ℕ)
  | retireFlushes (i : ℕ)
  | retirePersists (i : ℕ)

section

variable {D : Type*} [DecidableEq D]

def step (s : St D) : Action D → St D
  | .applyUpdate docId => s.applyUpdate docId
  | .settleParked ready => s.settleParked ready
  | .holdUntil docId => s.holdUntil docId
  | .promote docId pin => s.promote docId pin
  | .demote docId => s.retireHot docId
  | .release docId => { s with releases := s.releases ++ [⟨docId, s.coldChains docId, false⟩] }
  | .drop docId => s.retireHot docId
  | .registry resolves => { s with resolves := resolves }
  | .setSuppressedDoc docId => { s with suppressed := docId }
  | .linkStarts i =>
    match s.links[i]? with
    | some ⟨d, prev, hold, .queued⟩ =>
      if s.settled prev then
        if hold then s.setLink i ⟨d, prev, hold, .holding⟩ else s.coldApply i ⟨d, prev, hold, .queued⟩
      else s
    | _ => s
  | .holdEnds i =>
    match s.links[i]? with
    | some ⟨d, prev, hold, .holding⟩ => s.setLink i ⟨d, prev, hold, .done⟩
    | _ => s
  | .deferredAnswers i created =>
    match s.links[i]? with
    | some ⟨d, prev, hold, .deferring⟩ =>
      if created then s.setLink i ⟨d, prev, hold, .done⟩ else s.openCold i ⟨d, prev, hold, .deferring⟩
    | _ => s
  | .linkOpens i =>
    match s.links[i]? with
    | some ⟨d, prev, hold, .opening b⟩ => s.setLink i ⟨d, prev, hold, .working b⟩
    | _ => s
  | .linkOpenFails i =>
    match s.links[i]? with
    | some ⟨d, prev, hold, .opening b⟩ => (s.endBridge b .rejected).setLink i ⟨d, prev, hold, .done⟩
    | _ => s
  | .linkFlushes i =>
    match s.links[i]? with
    | some ⟨d, prev, hold, .working b⟩ => s.setLink i ⟨d, prev, hold, .persisting b⟩
    | _ => s
  | .linkPersists i =>
    match s.links[i]? with
    | some ⟨d, prev, hold, .persisting b⟩ => (s.endBridge b .destroyed).setLink i ⟨d, prev, hold, .done⟩
    | _ => s
  | .linkSettles i =>
    match s.links[i]? with
    | some ⟨d, prev, hold, .done⟩ =>
      { s.setLink i ⟨d, prev, hold, .settled⟩ with
        coldChains := if s.coldChains d = some i then Function.update s.coldChains d none else s.coldChains }
    | _ => s
  | .promoteResumes i =>
    match s.calls[i]? with
    | some ⟨d, pin, .waiting chain⟩ => if s.settled chain then s.openHot i ⟨d, pin, .waiting chain⟩ else s
    | _ => s
  | .promoteOpens i =>
    match s.calls[i]? with
    | some ⟨d, pin, .opening b⟩ =>
      ((s.setHot ⟨d, b, s.touchSeq + 1, pin⟩).setCall i ⟨d, pin, .done⟩).evictIfNeeded
    | _ => s
  | .promoteOpenFails i =>
    match s.calls[i]? with
    | some ⟨d, pin, .opening b⟩ => (s.endBridge b .rejected).setCall i ⟨d, pin, .done⟩
    | _ => s
  | .promoteRetries i =>
    match s.calls[i]? with
    | some ⟨d, pin, .behind j⟩ => if s.ran j then s.enter i ⟨d, pin, .behind j⟩ else s
    | _ => s
  | .promoteReturns i =>
    match s.calls[i]? with
    | some ⟨d, pin, .done⟩ =>
      { s.setCall i ⟨d, pin, .returned⟩ with
        promoting := if s.promoting d = some i then Function.update s.promoting d none else s.promoting }
    | _ => s
  | .releaseResumes i =>
    match s.releases[i]? with
    | some ⟨d, chain, false⟩ =>
      if s.settled chain then { s with releases := s.releases.set i ⟨d, chain, true⟩ }.retireHot d else s
    | _ => s
  | .retireFlushes i =>
    match s.retires[i]? with
    | some ⟨b, .flushing⟩ => { s with retires := s.retires.set i ⟨b, .persisting⟩ }
    | _ => s
  | .retirePersists i =>
    match s.retires[i]? with
    | some ⟨b, .persisting⟩ => { s with retires := s.retires.set i ⟨b, .retired⟩ }.endBridge b .destroyed
    | _ => s

def run (s : St D) (as : List (Action D)) : St D := Machine.run step s as

/-- at most one bridge of a document is not yet destroyed -/
def OneBridge (s : St D) : Prop := s.bridges.Pairwise fun x y => x.life = .live → y.life = .live → x.docId ≠ y.docId

instance (s : St D) : Decidable (OneBridge s) := inferInstanceAs (Decidable (List.Pairwise _ _))

/-! ## What a run must not do -/

section

variable (s : St D) (docId : D)

/-- an `openHot` of the document is past its wait -/
def St.Promoting : Prop := ∃ c ∈ s.calls, c.docId = docId ∧ c.stage.bridge.isSome

/-- a bridge of the document taken out of `hot` is still being flushed or persisted -/
def St.Retiring : Prop :=
  ∃ r ∈ s.retires, ∃ b ∈ r.held, ∃ x ∈ s.bridges[b]?, x.docId = docId

/-- a cold apply of the document has gone as far as `NoteBridge.open` -/
def St.Applying : Prop := ∃ l ∈ s.links, l.docId = docId ∧ l.stage.bridge.isSome

/-- a cold apply opens its bridge -/
def ColdOk : Prop := s.hotEntry docId = none ∧ ¬ s.Promoting docId ∧ ¬ s.Retiring docId

/-- an `openHot` opens its bridge -/
def HotOk : Prop := ¬ s.Applying docId ∧ ¬ s.Retiring docId

end

/-- no bridge is opened beside a resident one, one that a promotion is opening, one that a cold apply has opened or one
that is being retired -/
def StoreOk (s : St D) : Action D → Prop
  | .linkStarts i => ∀ l ∈ s.links[i]?, l.stage = .queued → s.settled l.prev → l.hold = false →
      s.route l.docId = .opens → ColdOk s l.docId
  | .deferredAnswers i created => ∀ l ∈ s.links[i]?, l.stage = .deferring → created = false → ColdOk s l.docId
  | .promoteResumes i => ∀ c ∈ s.calls[i]?, ∀ chain, c.stage = .waiting chain → s.settled chain →
      s.hotEntry c.docId = none → HotOk s c.docId
  | _ => True

/-! ## Lists by number -/

variable {i : ℕ}

theorem countP_set_add {α : Type*} (p : α → Bool) {l : List α} {a : α} (h : l[i]? = some a) (a' : α) :
    (l.set i a').countP p + (if p a then 1 else 0) = l.countP p + if p a' then 1 else 0 := by
  obtain ⟨hi, rfl⟩ := List.getElem?_eq_some_iff.mp h
  have hpos : p l[i] → 0 < l.countP p := fun hp => List.countP_pos_iff.mpr ⟨_, List.getElem_mem hi, hp⟩
  rw [List.countP_set hi]
  by_cases hp : p l[i]
  · have := hpos hp
    simp only [hp, if_true]
    omega
  · simp [hp]

theorem countP_eraseP_add {α : Type*} (p q : α → Bool) {l : List α} {a : α} (h : l.find? q = some a) :
    (l.eraseP q).countP p + (if p a then 1 else 0) = l.countP p := by
  induction l with
  | nil => simp at h
  | cons x l ih =>
    by_cases hq : q x
    · rw [find?_cons_of_pos hq] at h
      cases h
      rw [eraseP_cons_of_pos hq, countP_cons]
    · rw [find?_cons_of_neg hq] at h
      have := ih h
      rw [eraseP_cons_of_neg hq, countP_cons, countP_cons]
      omega

/-! ## The chain of a document -/

/-- the entries of a document run one after the other, and the map knows the last -/
structure Serial (links : List (Link D)) (chains : D → Option ℕ) : Prop where
  last (d : D) (l : ℕ) : chains d = some l → (∃ x, links[l]? = some x ∧ x.docId = d) ∧
    ∀ (i : ℕ) (y : Link D), links[i]? = some y → y.docId = d → i ≤ l
  idle (d : D) : chains d = none → ∀ (i : ℕ) (x : Link D), links[i]? = some x → x.docId = d → x.stage = .settled
  serial (i j : ℕ) (x y : Link D) : links[i]? = some x → links[j]? = some y → x.docId = y.docId → i < j →
    y.stage ≠ .queued → x.stage = .settled
  first (i j : ℕ) (x y : Link D) : links[i]? = some x → links[j]? = some y → x.docId = y.docId → i < j →
    y.prev = none → x.stage = .settled
  next (j p : ℕ) (y : Link D) : links[j]? = some y → y.prev = some p → (∃ z, links[p]? = some z ∧ z.docId = y.docId) ∧
    ∀ (i : ℕ) (x : Link D), links[i]? = some x → x.docId = y.docId → i < j → i ≤ p

variable {links : List (Link D)}

theorem Serial.queue {chains : D → Option ℕ} (h : Serial links chains) (d : D) (hold : Bool) :
    Serial (links ++ [⟨d, chains d, hold, .queued⟩]) (Function.update chains d (some links.length)) := by
  have hnew : ∀ (i : ℕ) (x : Link D), (links ++ [⟨d, chains d, hold, .queued⟩])[i]? = some x →
      links[i]? = some x ∨ (i = links.length ∧ x = ⟨d, chains d, hold, .queued⟩) := by
    intro i x hx
    exact getElem?_snoc.1 hx
  have hkeep : ∀ (i : ℕ) (x : Link D), links[i]? = some x →
      (links ++ [⟨d, chains d, hold, .queued⟩])[i]? = some x := by
    intro i x hx
    exact getElem?_snoc_of hx _
  have hlt : ∀ (i : ℕ) (x : Link D), links[i]? = some x → i < links.length :=
    fun i x hx => (List.getElem?_eq_some_iff.mp hx).1
  constructor
  · intro d' l hl
    by_cases hd : d' = d
    · subst hd
      rw [Function.update_self] at hl
      cases hl
      refine ⟨⟨_, List.getElem?_concat_length, rfl⟩, ?_⟩
      intro i y hy _
      rcases hnew i y hy with hold | ⟨rfl, -⟩
      · exact (hlt i y hold).le
      · exact le_rfl
    · rw [Function.update_of_ne hd] at hl
      obtain ⟨⟨x, hx, hxd⟩, hmax⟩ := h.last d' l hl
      refine ⟨⟨x, hkeep l x hx, hxd⟩, ?_⟩
      intro i y hy hyd
      rcases hnew i y hy with hold | ⟨-, rfl⟩
      · exact hmax i y hold hyd
      · exact absurd hyd.symm hd
  · intro d' hnone i x hx hxd
    by_cases hd : d' = d
    · subst hd
      simp at hnone
    · rw [Function.update_of_ne hd] at hnone
      rcases hnew i x hx with hold | ⟨-, rfl⟩
      · exact h.idle d' hnone i x hold hxd
      · exact absurd hxd.symm hd
  · intro i j x y hx hy hdoc hij hstage
    rcases hnew j y hy with hyold | ⟨-, rfl⟩
    · rcases hnew i x hx with hxold | ⟨rfl, -⟩
      · exact h.serial i j x y hxold hyold hdoc hij hstage
      · exact absurd (hlt j y hyold) hij.le.not_gt
    · exact absurd rfl hstage
  · intro i j x y hx hy hdoc hij hnone
    rcases hnew j y hy with hyold | ⟨rfl, rfl⟩
    · rcases hnew i x hx with hxold | ⟨rfl, -⟩
      · exact h.first i j x y hxold hyold hdoc hij hnone
      · exact absurd (hlt j y hyold) hij.le.not_gt
    · rcases hnew i x hx with hxold | ⟨rfl, -⟩
      · exact h.idle d hnone i x hxold hdoc
      · exact absurd hij (lt_irrefl _)
  · intro j p y hy hp
    rcases hnew j y hy with hyold | ⟨rfl, rfl⟩
    · obtain ⟨⟨z, hz, hzd⟩, hmax⟩ := h.next j p y hyold hp
      refine ⟨⟨z, hkeep p z hz, hzd⟩, ?_⟩
      intro i x hx hdoc hij
      rcases hnew i x hx with hxold | ⟨rfl, -⟩
      · exact hmax i x hxold hdoc hij
      · exact absurd (hlt j y hyold) hij.le.not_gt
    · obtain ⟨⟨z, hz, hzd⟩, hmax⟩ := h.last d p hp
      refine ⟨⟨z, hkeep p z hz, hzd⟩, ?_⟩
      intro i x hx hdoc hij
      rcases hnew i x hx with hxold | ⟨rfl, -⟩
      · exact hmax i x hxold hdoc
      · exact absurd hij (lt_irrefl _)

omit [DecidableEq D] in
/-- an entry moves on; it starts only when the one before it has settled -/
theorem Serial.setStage {chains : D → Option ℕ} (h : Serial links chains) {l : Link D} (hl : links[i]? = some l)
    (hopen : l.stage ≠ .settled) (stage : LinkStage)
    (hturn : l.stage = .queued → ∀ p ∈ l.prev, ∀ z, links[p]? = some z → z.stage = .settled) :
    Serial (links.set i { l with stage := stage }) chains := by
  have hnew : ∀ (j : ℕ) (x : Link D), (links.set i { l with stage := stage })[j]? = some x →
      (links[j]? = some x ∧ j ≠ i) ∨ (j = i ∧ x = { l with stage := stage }) := by
    intro j x hx
    grind
  -- what was settled is another entry, and still is
  have hsettled : ∀ (j : ℕ) (x x' : Link D), links[j]? = some x → x.stage = .settled →
      (links.set i { l with stage := stage })[j]? = some x' → x'.stage = .settled := by
    intro j x x' hx hstage hx'
    rcases hnew j x' hx' with ⟨hold, -⟩ | ⟨rfl, -⟩
    · rw [hx] at hold
      rw [← Option.some.inj hold]
      exact hstage
    · rw [hl] at hx
      rw [← Option.some.inj hx] at hstage
      exact absurd hstage hopen
  have hback : ∀ (j : ℕ) (x : Link D), (links.set i { l with stage := stage })[j]? = some x →
      ∃ x', links[j]? = some x' ∧ x.docId = x'.docId ∧ x.prev = x'.prev := by
    intro j x hx
    rcases hnew j x hx with ⟨hold, -⟩ | ⟨rfl, rfl⟩
    · exact ⟨x, hold, rfl, rfl⟩
    · exact ⟨l, hl, rfl, rfl⟩
  have hforth : ∀ (j : ℕ) (x : Link D), links[j]? = some x →
      ∃ x', (links.set i { l with stage := stage })[j]? = some x' ∧ x'.docId = x.docId := by
    intro j x hx
    by_cases hj : i = j
    · subst hj
      rw [hl] at hx
      cases hx
      refine ⟨{ l with stage := stage }, ?_, rfl⟩
      rw [List.getElem?_set_self (List.getElem?_eq_some_iff.mp hl).1]
    · exact ⟨x, by rw [List.getElem?_set_ne hj, hx], rfl⟩
  -- everything before an entry whose turn has come is settled
  have hbefore : ∀ (j : ℕ) (x : Link D), links[j]? = some x → x.docId = l.docId → j < i → x.stage = .settled := by
    intro j x hx hdoc hji
    by_cases hq : l.stage = .queued
    · cases hp : l.prev with
      | none => exact h.first j i x l hx hl hdoc hji hp
      | some p =>
        obtain ⟨⟨z, hz, hzd⟩, hmax⟩ := h.next i p l hl hp
        have hzs := hturn hq p hp z hz
        rcases (hmax j x hx hdoc hji).lt_or_eq with hlt | rfl
        · exact h.serial j p x z hx hz (hdoc.trans hzd.symm) hlt (by rw [hzs]; simp)
        · rw [hx] at hz
          rw [Option.some.inj hz]
          exact hzs
    · exact h.serial j i x l hx hl hdoc hji hq
  constructor
  · intro d k hk
    obtain ⟨⟨x, hx, hxd⟩, hmax⟩ := h.last d k hk
    obtain ⟨x', hx', hxd'⟩ := hforth k x hx
    refine ⟨⟨x', hx', hxd'.trans hxd⟩, ?_⟩
    intro j y hy hyd
    obtain ⟨y', hy', hdoc, -⟩ := hback j y hy
    exact hmax j y' hy' (hdoc.symm.trans hyd)
  · intro d hnone j x hx hxd
    obtain ⟨x', hx', hdoc, -⟩ := hback j x hx
    exact hsettled j x' x hx' (h.idle d hnone j x' hx' (hdoc.symm.trans hxd)) hx
  · intro j k x y hx hy hdoc hjk hstage
    obtain ⟨x', hx', hxd, -⟩ := hback j x hx
    rcases hnew k y hy with ⟨hyold, -⟩ | ⟨rfl, rfl⟩
    · exact hsettled j x' x hx' (h.serial j k x' y hx' hyold (hxd.symm.trans hdoc) hjk hstage) hx
    · exact hsettled j x' x hx' (hbefore j x' hx' (hxd.symm.trans hdoc) hjk) hx
  · intro j k x y hx hy hdoc hjk hnone
    obtain ⟨x', hx', hxd, -⟩ := hback j x hx
    obtain ⟨y', hy', hyd, hprev⟩ := hback k y hy
    have hdoc' : x'.docId = y'.docId := hxd.symm.trans (hdoc.trans hyd)
    exact hsettled j x' x hx' (h.first j k x' y' hx' hy' hdoc' hjk (hprev.symm.trans hnone)) hx
  · intro k p y hy hp
    obtain ⟨y', hy', hyd, hprev⟩ := hback k y hy
    obtain ⟨⟨z, hz, hzd⟩, hmax⟩ := h.next k p y' hy' (hprev.symm.trans hp)
    obtain ⟨z', hz', hzd'⟩ := hforth p z hz
    refine ⟨⟨z', hz', hzd'.trans (hzd.trans hyd.symm)⟩, ?_⟩
    intro j x hx hdoc hjk
    obtain ⟨x', hx', hxd, -⟩ := hback j x hx
    exact hmax j x' hx' (hxd.symm.trans (hdoc.trans hyd)) hjk

/-- the entry of the map goes with the entry it is -/
theorem Serial.remove {chains : D → Option ℕ} (h : Serial links chains) {l : Link D} (hl : links[i]? = some l)
    (hstage : l.stage = .settled) :
    Serial links (if chains l.docId = some i then Function.update chains l.docId none else chains) := by
  by_cases hi : chains l.docId = some i
  · rw [if_pos hi]
    refine { h with last := ?_, idle := ?_ }
    · intro d k hk
      by_cases hd : d = l.docId
      · subst hd
        simp at hk
      · rw [Function.update_of_ne hd] at hk
        exact h.last d k hk
    · intro d hnone j x hx hxd
      by_cases hd : d = l.docId
      · rcases ((h.last _ i hi).2 j x hx (hxd.trans hd)).lt_or_eq with hlt | rfl
        · exact h.serial j i x l hx hl (hxd.trans hd) hlt (by rw [hstage]; simp)
        · rw [hl] at hx
          rw [← Option.some.inj hx]
          exact hstage
      · rw [Function.update_of_ne hd] at hnone
        exact h.idle d hnone j x hx hxd
  · rw [if_neg hi]
    exact h

/-! ## The promotion of a document -/

/-- the call that opens is the one `promoting` knows -/
def OneOwner (calls : List (Call D)) (promoting : D → Option ℕ) : Prop :=
  ∀ (i : ℕ) (c : Call D), calls[i]? = some c → c.stage.owns → promoting c.docId = some i

theorem mem_set_cases {α : Type*} {l : List α} {a' : α} {j : ℕ} {x : α} (h : (l.set i a')[j]? = some x) :
    (l[j]? = some x ∧ j ≠ i) ∨ (j = i ∧ x = a') := by
  grind

variable {calls : List (Call D)} {promoting : D → Option ℕ}

omit [DecidableEq D] in
theorem OneOwner.setStage (h : OneOwner calls promoting) {c : Call D} (hc : calls[i]? = some c) (stage : CallStage)
    (howns : stage.owns → c.stage.owns) : OneOwner (calls.set i { c with stage := stage }) promoting := by
  intro j x hx hown
  rcases mem_set_cases hx with ⟨hold, -⟩ | ⟨rfl, rfl⟩
  · exact h j x hold hown
  · exact h j c hc (howns hown)

theorem OneOwner.take (h : OneOwner calls promoting) (i : ℕ) (c : Call D) (hfree : promoting c.docId = none)
    (stage : CallStage) :
    OneOwner (calls.set i { c with stage := stage }) (Function.update promoting c.docId (some i)) := by
  intro j x hx hown
  rcases mem_set_cases hx with ⟨hold, -⟩ | ⟨rfl, rfl⟩
  · have hj := h j x hold hown
    by_cases hd : x.docId = c.docId
    · rw [hd, hfree] at hj
      simp at hj
    · rw [Function.update_of_ne hd]
      exact hj
  · exact Function.update_self ..

theorem OneOwner.leave (h : OneOwner calls promoting) {c : Call D} (hc : calls[i]? = some c) (hown : c.stage.owns) :
    OneOwner (calls.set i { c with stage := .returned })
      (if promoting c.docId = some i then Function.update promoting c.docId none else promoting) := by
  rw [if_pos (h i c hc hown)]
  intro j x hx hstage
  rcases mem_set_cases hx with ⟨hold, hj⟩ | ⟨rfl, rfl⟩
  · have hx' := h j x hold hstage
    by_cases hd : x.docId = c.docId
    · rw [hd, h i c hc hown] at hx'
      exact absurd (Option.some.inj hx').symm hj
    · rw [Function.update_of_ne hd]
      exact hx'
  · simp [CallStage.owns] at hstage

/-! ## Who holds a bridge -/

namespace St

variable (s : St D)

def liveAt (b : ℕ) : Bool := s.bridges[b]?.any (·.life = .live)

def docOf (b : ℕ) : Option D := s.bridges[b]?.map Bridge.docId

/-- how many entries and calls hold the bridge -/
def holders (b : ℕ) : ℕ :=
  s.hot.countP (·.bridge = b) + s.links.countP (·.stage.bridge = some b) + s.calls.countP (·.stage.bridge = some b) +
    s.retires.countP (·.held = some b)

end St

/-- every bridge that is not destroyed has one holder, and nobody holds one that is -/
structure Held (s : St D) : Prop where
  count (b : ℕ) : s.holders b = if s.liveAt b then 1 else 0
  hot : ∀ e ∈ s.hot, s.docOf e.bridge = some e.docId
  links : ∀ l ∈ s.links, ∀ b ∈ l.stage.bridge, s.docOf b = some l.docId
  calls : ∀ c ∈ s.calls, ∀ b ∈ c.stage.bridge, s.docOf b = some c.docId
  /-- nobody but the call that opens puts a bridge into `hot` -/
  absent : ∀ c ∈ s.calls, c.stage.bridge.isSome → s.hotEntry c.docId = none

section

variable {s : St D}

variable {i : ℕ} {l : Link D}

omit [DecidableEq D] in
theorem count_links {o o' : Option ℕ} (hl : s.links[i]? = some l) (l' : Link D) (ho : l.stage.bridge = o)
    (ho' : l'.stage.bridge = o') (b : ℕ) :
    (s.links.set i l').countP (fun l => l.stage.bridge = some b) + (if o = some b then 1 else 0) =
      s.links.countP (fun l => l.stage.bridge = some b) + if o' = some b then 1 else 0 := by
  have := countP_set_add (fun l : Link D => decide (l.stage.bridge = some b)) hl l'
  simpa only [ho, ho', decide_eq_true_eq] using this

variable {c : Call D}

omit [DecidableEq D] in
theorem count_calls {o o' : Option ℕ} (hc : s.calls[i]? = some c) (c' : Call D) (ho : c.stage.bridge = o)
    (ho' : c'.stage.bridge = o') (b : ℕ) :
    (s.calls.set i c').countP (fun c => c.stage.bridge = some b) + (if o = some b then 1 else 0) =
      s.calls.countP (fun c => c.stage.bridge = some b) + if o' = some b then 1 else 0 := by
  have := countP_set_add (fun c : Call D => decide (c.stage.bridge = some b)) hc c'
  simpa only [ho, ho', decide_eq_true_eq] using this

theorem hotEntry_none {d : D} : s.hotEntry d = none ↔ ∀ e ∈ s.hot, e.docId ≠ d := by
  simp [St.hotEntry]

theorem hotEntry_some {d : D} {e : HotEntry D} (h : s.hotEntry d = some e) : e ∈ s.hot ∧ e.docId = d := by
  exact ⟨mem_of_find?_eq_some h, by simpa using find?_some h⟩

omit [DecidableEq D] in
theorem liveAt_openBridge (docId : D) (b : ℕ) :
    (s.openBridge docId).liveAt b = (s.liveAt b || b == s.bridges.length) := by
  simp only [St.liveAt, St.openBridge, getElem?_append]
  rcases lt_trichotomy b s.bridges.length with h | rfl | h
  · simp [h, h.ne]
  · simp
  · have hsub : b - s.bridges.length ≠ 0 := by omega
    simp [h.not_gt, h.ne', hsub]

variable {b : ℕ}

omit [DecidableEq D] in
theorem docOf_openBridge {d : D} (docId : D) (h : s.docOf b = some d) : (s.openBridge docId).docOf b = some d := by
  obtain ⟨x, hx, rfl⟩ := Option.map_eq_some_iff.mp h
  have hlt := (List.getElem?_eq_some_iff.mp hx).1
  simp [St.docOf, St.openBridge, List.getElem?_append_left hlt, hx]

omit [DecidableEq D] in
theorem docOf_openBridge_new (docId : D) : (s.openBridge docId).docOf s.bridges.length = some docId := by
  simp [St.docOf, St.openBridge]

variable {life : Life}

omit [DecidableEq D] in
theorem liveAt_endBridge (hlife : life ≠ .live) (b b' : ℕ) :
    (s.endBridge b life).liveAt b' = (s.liveAt b' && b' != b) := by
  simp only [St.liveAt, St.endBridge, getElem?_modify]
  by_cases h : b = b'
  · subst h
    cases s.bridges[b]? <;> simp [hlife]
  · cases s.bridges[b']? <;> simp [h, Ne.symm h]

omit [DecidableEq D] in
theorem docOf_endBridge (b b' : ℕ) (life : Life) : (s.endBridge b life).docOf b' = s.docOf b' := by
  simp only [St.docOf, St.endBridge, getElem?_modify]
  by_cases h : b = b'
  · subst h
    cases s.bridges[b]? <;> simp
  · simp [h]

/-- a bridge somebody holds is live -/
theorem Held.live (h : Held s) (hb : 0 < s.holders b) : s.liveAt b = true := by
  have := h.count b
  by_contra hlive
  simp [hlive] at this
  omega

theorem Held.unheld (h : Held s) : s.holders s.bridges.length = 0 := by
  rw [h.count]
  simp [St.liveAt]

variable {t : St D}

section

variable (h : Held s)

include h

/-- the bridges stay as they are, and so does the number of their holders -/
theorem Held.frame (hbridges : t.bridges = s.bridges) (hcount : ∀ b, t.holders b = s.holders b)
    (hhot : ∀ e ∈ t.hot, ∃ e' ∈ s.hot, e.bridge = e'.bridge ∧ e.docId = e'.docId)
    (hlinks : ∀ l ∈ t.links, ∀ b ∈ l.stage.bridge, ∃ l' ∈ s.links, b ∈ l'.stage.bridge ∧ l.docId = l'.docId)
    (hcalls : ∀ c ∈ t.calls, ∀ b ∈ c.stage.bridge, ∃ c' ∈ s.calls, b ∈ c'.stage.bridge ∧ c.docId = c'.docId) :
    Held t where
  count b := by
    have hlive : t.liveAt b = s.liveAt b := by simp only [St.liveAt, hbridges]
    rw [hcount, h.count, hlive]
  hot e he := by
    obtain ⟨e', he', hb, hd⟩ := hhot e he
    rw [hb, hd, ← h.hot e' he']
    simp [St.docOf, hbridges]
  links l hl b hb := by
    obtain ⟨l', hl', hb', hd⟩ := hlinks l hl b hb
    rw [hd, ← h.links l' hl' b hb']
    simp [St.docOf, hbridges]
  calls c hc b hb := by
    obtain ⟨c', hc', hb', hd⟩ := hcalls c hc b hb
    rw [hd, ← h.calls c' hc' b hb']
    simp [St.docOf, hbridges]
  absent c hc hb := by
    obtain ⟨b, hb⟩ := Option.isSome_iff_exists.mp hb
    obtain ⟨c', hc', hb', hd⟩ := hcalls c hc b hb
    have hnone := h.absent c' hc' (Option.isSome_iff_exists.mpr ⟨b, hb'⟩)
    rw [hd]
    rw [hotEntry_none] at hnone ⊢
    intro e he
    obtain ⟨e', he', -, hed⟩ := hhot e he
    rw [hed]
    exact hnone e' he'

theorem Held.same (hbridges : t.bridges = s.bridges) (hhot : t.hot = s.hot) (hlinks : t.links = s.links)
    (hcalls : t.calls = s.calls) (hretires : t.retires = s.retires) : Held t := by
  refine h.frame hbridges ?_ ?_ ?_ ?_
  · intro b
    simp only [St.holders, hhot, hlinks, hcalls, hretires]
  · rw [hhot]
    exact fun e he => ⟨e, he, rfl, rfl⟩
  · rw [hlinks]
    exact fun l hl b hb => ⟨l, hl, hb, rfl⟩
  · rw [hcalls]
    exact fun c hc b hb => ⟨c, hc, hb, rfl⟩

theorem Held.touch (docId : D) (pin : Bool) : Held (s.touch docId pin) := by
  have hbridge : ∀ e : HotEntry D, (if e.docId = docId then
      { e with touch := s.touchSeq + 1, pinned := e.pinned || pin } else e).bridge = e.bridge := by
    intro e
    split <;> rfl
  have hdoc : ∀ e : HotEntry D, (if e.docId = docId then
      { e with touch := s.touchSeq + 1, pinned := e.pinned || pin } else e).docId = e.docId := by
    intro e
    split <;> rfl
  refine h.frame rfl ?_ ?_ (fun l hl b hb => ⟨l, hl, hb, rfl⟩) (fun c hc b hb => ⟨c, hc, hb, rfl⟩)
  · intro b
    simp only [St.holders, St.touch, countP_map, Function.comp_def, hbridge]
  · intro e he
    obtain ⟨e', he', rfl⟩ := mem_map.mp he
    exact ⟨e', he', hbridge e', hdoc e'⟩

/-- an entry of a chain moves on with the bridge it has -/
theorem Held.setLink (hl : s.links[i]? = some l) (stage : LinkStage) (hb : stage.bridge = l.stage.bridge) :
    Held (s.setLink i { l with stage := stage }) := by
  refine h.frame rfl ?_ (fun e he => ⟨e, he, rfl, rfl⟩) ?_ (fun c hc b hb => ⟨c, hc, hb, rfl⟩)
  · intro b
    have := count_links hl { l with stage := stage } rfl hb b
    simp only [St.holders, St.setLink]
    omega
  · intro x hx b hbx
    rcases mem_or_eq_of_mem_set hx with hold | rfl
    · exact ⟨x, hold, hbx, rfl⟩
    · exact ⟨l, mem_of_getElem? hl, by rw [← hb]; exact hbx, rfl⟩

theorem Held.setCall (hc : s.calls[i]? = some c) (stage : CallStage) (hb : stage.bridge = c.stage.bridge)
    (promoting : D → Option ℕ) : Held { s.setCall i { c with stage := stage } with promoting := promoting } := by
  refine h.frame rfl ?_ (fun e he => ⟨e, he, rfl, rfl⟩) (fun l hl b hb => ⟨l, hl, hb, rfl⟩) ?_
  · intro b
    have := count_calls hc { c with stage := stage } rfl hb b
    simp only [St.holders, St.setCall]
    omega
  · intro x hx b hbx
    rcases mem_or_eq_of_mem_set hx with hold | rfl
    · exact ⟨x, hold, hbx, rfl⟩
    · exact ⟨c, mem_of_getElem? hc, by rw [← hb]; exact hbx, rfl⟩

/-- a resident bridge passes to the call that retires it -/
theorem Held.retireHot (docId : D) : Held (s.retireHot docId) := by
  unfold St.retireHot
  split
  next e he =>
    refine h.frame rfl ?_ (fun x hx => ⟨x, mem_of_mem_eraseP hx, rfl, rfl⟩) (fun l hl b hb => ⟨l, hl, hb, rfl⟩)
      (fun c hc b hb => ⟨c, hc, hb, rfl⟩)
    intro b
    have := countP_eraseP_add (fun x : HotEntry D => decide (x.bridge = b)) (fun x => decide (x.docId = docId)) he
    simp only [St.holders, countP_append, countP_singleton, Retire.held, reduceCtorEq, if_false,
      Option.some.injEq] at this ⊢
    omega
  next => exact h

/-- `NoteBridge.open` is called: the new bridge has the holder the others lack -/
theorem Held.openBridge (docId : D) (hbridges : t.bridges = (s.openBridge docId).bridges)
    (hcount : ∀ b, t.holders b = s.holders b + if b = s.bridges.length then 1 else 0) (hhot : t.hot = s.hot)
    (hlinks : ∀ l ∈ t.links, ∀ b ∈ l.stage.bridge, (∃ l' ∈ s.links, b ∈ l'.stage.bridge ∧ l.docId = l'.docId) ∨
      (b = s.bridges.length ∧ l.docId = docId))
    (hcalls : ∀ c ∈ t.calls, ∀ b ∈ c.stage.bridge, (∃ c' ∈ s.calls, b ∈ c'.stage.bridge ∧ c.docId = c'.docId) ∨
      (b = s.bridges.length ∧ c.docId = docId ∧ s.hotEntry docId = none))
    : Held t := by
  have hlive : ∀ b, t.liveAt b = (s.liveAt b || b == s.bridges.length) := by
    intro b
    rw [← liveAt_openBridge docId b]
    simp only [St.liveAt, hbridges]
  have hdoc : ∀ {b d}, s.docOf b = some d → t.docOf b = some d := by
    intro b d hb
    rw [← docOf_openBridge docId hb]
    simp only [St.docOf, hbridges]
  have hnew : t.docOf s.bridges.length = some docId := by
    rw [← docOf_openBridge_new (s := s) docId]
    simp only [St.docOf, hbridges]
  constructor
  · intro b
    rw [hcount, hlive]
    by_cases hb : b = s.bridges.length
    · subst hb
      rw [h.unheld]
      simp
    · rw [h.count]
      simp [hb]
  · intro e he
    rw [hhot] at he
    exact hdoc (h.hot e he)
  · intro l hl b hb
    rcases hlinks l hl b hb with ⟨l', hl', hb', hd⟩ | ⟨rfl, rfl⟩
    · rw [hd]
      exact hdoc (h.links l' hl' b hb')
    · exact hnew
  · intro c hc b hb
    rcases hcalls c hc b hb with ⟨c', hc', hb', hd⟩ | ⟨rfl, rfl, -⟩
    · rw [hd]
      exact hdoc (h.calls c' hc' b hb')
    · exact hnew
  · intro c hc hb
    obtain ⟨b, hb⟩ := Option.isSome_iff_exists.mp hb
    have hentry : ∀ d, t.hotEntry d = s.hotEntry d := fun d => by simp only [St.hotEntry, hhot]
    rw [hentry]
    rcases hcalls c hc b hb with ⟨c', hc', hb', hd⟩ | ⟨-, rfl, hnone⟩
    · rw [hd]
      exact h.absent c' hc' (Option.isSome_iff_exists.mpr ⟨b, hb'⟩)
    · exact hnone

theorem Held.openCold (hl : s.links[i]? = some l) (hb : l.stage.bridge = none) : Held (s.openCold i l) := by
  refine h.openBridge l.docId rfl ?_ rfl ?_ fun c hc b hb => .inl ⟨c, hc, hb, rfl⟩
  · intro b
    have := count_links hl { l with stage := .opening s.bridges.length } hb rfl b
    simp only [LinkStage.bridge_opening, reduceCtorEq, if_false, add_zero, Option.some.injEq,
      eq_comm (a := s.bridges.length)] at this
    simp only [St.holders, St.openCold, St.setLink, St.openBridge]
    omega
  · intro x hx b hbx
    rcases mem_or_eq_of_mem_set hx with hold | rfl
    · exact .inl ⟨x, hold, hbx, rfl⟩
    · exact .inr ⟨(Option.some.inj hbx).symm, rfl⟩

theorem Held.openHot (hc : s.calls[i]? = some c) (hb : c.stage.bridge = none) : Held (s.openHot i c) := by
  unfold St.openHot
  split
  · exact (h.touch c.docId c.pin).setCall (c := c) hc .done hb.symm _
  next hnone =>
    refine h.openBridge c.docId rfl ?_ rfl (fun l hl b hb => .inl ⟨l, hl, hb, rfl⟩) ?_
    · intro b
      have := count_calls hc { c with stage := .opening s.bridges.length } hb rfl b
      simp only [CallStage.bridge_opening, reduceCtorEq, if_false, add_zero, Option.some.injEq,
        eq_comm (a := s.bridges.length)] at this
      simp only [St.holders, St.setCall, St.openBridge]
      omega
    · intro x hx b hbx
      rcases mem_or_eq_of_mem_set hx with hold | rfl
      · exact .inl ⟨x, hold, hbx, rfl⟩
      · exact .inr ⟨(Option.some.inj hbx).symm, rfl, by simpa using hnone⟩

/-- a bridge goes together with its holder -/
theorem Held.endBridge (b : ℕ) (hlife : life ≠ .live) (hbridges : t.bridges = (s.endBridge b life).bridges)
    (hcount : ∀ b', t.holders b' + (if b' = b then 1 else 0) = s.holders b')
    (hhot : ∀ e ∈ t.hot, ∃ e' ∈ s.hot, e.bridge = e'.bridge ∧ e.docId = e'.docId)
    (hlinks : ∀ l ∈ t.links, ∀ b ∈ l.stage.bridge, ∃ l' ∈ s.links, b ∈ l'.stage.bridge ∧ l.docId = l'.docId)
    (hcalls : ∀ c ∈ t.calls, ∀ b ∈ c.stage.bridge, ∃ c' ∈ s.calls, b ∈ c'.stage.bridge ∧ c.docId = c'.docId) :
    Held t := by
  have hlive : ∀ b', t.liveAt b' = (s.liveAt b' && b' != b) := by
    intro b'
    rw [← liveAt_endBridge hlife]
    simp only [St.liveAt, hbridges]
  have hdoc : ∀ b', t.docOf b' = s.docOf b' := by
    intro b'
    rw [← docOf_endBridge (s := s) b b' life]
    simp only [St.docOf, hbridges]
  constructor
  · intro b'
    have hcount := hcount b'
    rw [h.count] at hcount
    rw [hlive]
    by_cases hb : b' = b
    · subst hb
      cases hl : s.liveAt b' <;> simp [hl] at hcount ⊢
      exact hcount
    · simpa [hb] using hcount
  · intro e he
    obtain ⟨e', he', hb, hd⟩ := hhot e he
    rw [hb, hd, hdoc]
    exact h.hot e' he'
  · intro l hl b hb
    obtain ⟨l', hl', hb', hd⟩ := hlinks l hl b hb
    rw [hd, hdoc]
    exact h.links l' hl' b hb'
  · intro c hc b hb
    obtain ⟨c', hc', hb', hd⟩ := hcalls c hc b hb
    rw [hd, hdoc]
    exact h.calls c' hc' b hb'
  · intro c hc hb
    obtain ⟨b, hb⟩ := Option.isSome_iff_exists.mp hb
    obtain ⟨c', hc', hb', hd⟩ := hcalls c hc b hb
    have hnone := h.absent c' hc' (Option.isSome_iff_exists.mpr ⟨b, hb'⟩)
    rw [hd]
    rw [hotEntry_none] at hnone ⊢
    intro e he
    obtain ⟨e', he', -, hed⟩ := hhot e he
    rw [hed]
    exact hnone e' he'

theorem Held.endLink (hl : s.links[i]? = some l) (hb : l.stage.bridge = some b) (hlife : life ≠ .live)
    (stage : LinkStage) (hstage : stage.bridge = none) :
    Held ((s.endBridge b life).setLink i { l with stage := stage }) := by
  refine h.endBridge b hlife rfl ?_ (fun e he => ⟨e, he, rfl, rfl⟩) ?_ (fun c hc b hb => ⟨c, hc, hb, rfl⟩)
  · intro b'
    have := count_links hl { l with stage := stage } hb hstage b'
    simp only [reduceCtorEq, if_false, add_zero, Option.some.injEq, eq_comm (a := b)] at this
    simp only [St.holders, St.setLink, St.endBridge]
    omega
  · intro x hx b' hbx
    rcases mem_or_eq_of_mem_set hx with hold | rfl
    · exact ⟨x, hold, hbx, rfl⟩
    · rw [show ({ l with stage := stage } : Link D).stage.bridge = none from hstage] at hbx
      simp at hbx

theorem Held.endCall (hc : s.calls[i]? = some c) (hb : c.stage.bridge = some b) (hlife : life ≠ .live) :
    Held ((s.endBridge b life).setCall i { c with stage := .done }) := by
  refine h.endBridge b hlife rfl ?_ (fun e he => ⟨e, he, rfl, rfl⟩) (fun l hl b hb => ⟨l, hl, hb, rfl⟩) ?_
  · intro b'
    have := count_calls hc { c with stage := .done } hb rfl b'
    simp only [CallStage.bridge_done, reduceCtorEq, if_false, add_zero, Option.some.injEq, eq_comm (a := b)] at this
    simp only [St.holders, St.setCall, St.endBridge]
    omega
  · intro x hx b' hbx
    rcases mem_or_eq_of_mem_set hx with hold | rfl
    · exact ⟨x, hold, hbx, rfl⟩
    · simp at hbx

theorem Held.setRetire (hr : s.retires[i]? = some ⟨b, .flushing⟩) :
    Held { s with retires := s.retires.set i ⟨b, .persisting⟩ } := by
  refine h.frame rfl ?_ (fun e he => ⟨e, he, rfl, rfl⟩) (fun l hl b hb => ⟨l, hl, hb, rfl⟩)
    fun c hc b hb => ⟨c, hc, hb, rfl⟩
  intro b'
  have := countP_set_add (fun r : Retire => decide (r.held = some b')) hr ⟨b, .persisting⟩
  simp only [Retire.held, reduceCtorEq, if_false] at this
  simp only [St.holders, Retire.held]
  omega

theorem Held.endRetire (hr : s.retires[i]? = some ⟨b, .persisting⟩) :
    Held ({ s with retires := s.retires.set i ⟨b, .retired⟩ }.endBridge b .destroyed) := by
  refine h.endBridge b (show Life.destroyed ≠ .live by simp) rfl ?_ (fun e he => ⟨e, he, rfl, rfl⟩)
    (fun l hl b hb => ⟨l, hl, hb, rfl⟩) fun c hc b hb => ⟨c, hc, hb, rfl⟩
  intro b'
  have := countP_set_add (fun r : Retire => decide (r.held = some b')) hr ⟨b, .retired⟩
  simp only [Retire.held, reduceCtorEq, if_false, if_true, decide_false, Bool.false_eq_true, add_zero,
    Option.some.injEq, decide_eq_true_eq, eq_comm (a := b)] at this
  simp only [St.holders, St.endBridge, Retire.held]
  omega

/-- the bridge passes from the call that opened it to `hot` -/
theorem Held.setHot {promoting : D → Option ℕ} (hown : OneOwner s.calls promoting)
    (hc : s.calls[i]? = some c) (hb : c.stage = .opening b) (e : HotEntry D) (he : e.bridge = b)
    (hd : e.docId = c.docId) : Held ((s.setHot e).setCall i { c with stage := .done }) := by
  have hmem := mem_of_getElem? hc
  have hnone : s.hotEntry e.docId = none := by
    rw [hd]
    exact h.absent c hmem (by simp [hb])
  have hset : (s.setHot e).hot = s.hot ++ [e] := by simp [St.setHot, hnone]
  have hothers : ∀ x ∈ s.calls.set i { c with stage := .done }, ∀ b' ∈ x.stage.bridge,
      x ∈ s.calls ∧ x.docId ≠ c.docId := by
    intro x hx b' hbx
    obtain ⟨j, hj⟩ := getElem?_of_mem hx
    rcases mem_set_cases hj with ⟨hold, hne⟩ | ⟨rfl, rfl⟩
    · refine ⟨mem_of_getElem? hold, fun hdoc => hne ?_⟩
      have hx' : x.stage.owns := by
        unfold CallStage.bridge at hbx
        split at hbx
        · next heq => simp [heq, CallStage.owns]
        all_goals simp at hbx
      have hj := hown j x hold hx'
      rw [hdoc, hown i c hc (by rw [hb]; rfl)] at hj
      exact (Option.some.inj hj).symm
    · simp at hbx
  constructor
  · intro b'
    have hcalls := count_calls hc { c with stage := .done } (congrArg CallStage.bridge hb) rfl b'
    have hcount := h.count b'
    have hlive : ((s.setHot e).setCall i { c with stage := .done }).liveAt b' = s.liveAt b' := rfl
    simp only [CallStage.bridge_opening, CallStage.bridge_done, reduceCtorEq, if_false, add_zero,
      Option.some.injEq] at hcalls
    rw [hlive, ← hcount]
    simp only [St.holders, St.setCall, hset, countP_append, countP_singleton, he, decide_eq_true_eq]
    simp only [St.setHot]
    omega
  · intro x hx
    have hx : x ∈ (s.setHot e).hot := hx
    rw [hset] at hx
    rcases mem_snoc.1 hx with hold | hnew
    · exact h.hot x hold
    · rw [hnew, he, hd]
      exact h.calls c hmem b (by simp [hb])
  · exact h.links
  · intro x hx b' hbx
    exact h.calls x (hothers x hx b' hbx).1 b' hbx
  · intro x hx hbx
    obtain ⟨b', hbx⟩ := Option.isSome_iff_exists.mp hbx
    obtain ⟨hold, hne⟩ := hothers x hx b' hbx
    have hx' := h.absent x hold (Option.isSome_iff_exists.mpr ⟨b', hbx⟩)
    rw [hotEntry_none] at hx' ⊢
    intro y hy
    have hy : y ∈ (s.setHot e).hot := hy
    rw [hset] at hy
    rcases mem_snoc.1 hy with hyold | hnew
    · exact hx' y hyold
    · rw [hnew, hd]
      exact hne.symm

end

end

/-! ## Every step -/

structure Inv (s : St D) : Prop where
  serial : Serial s.links s.coldChains
  owner : OneOwner s.calls s.promoting
  held : Held s

section

variable {s : St D}

theorem Inv.retireHot (h : Inv s) (docId : D) : Inv (s.retireHot docId) := by
  have hheld := h.held.retireHot docId
  unfold St.retireHot at hheld ⊢
  split
  next e he => rw [he] at hheld; exact ⟨h.serial, h.owner, hheld⟩
  next => exact h

theorem Inv.evict (h : Inv s) (n : ℕ) : Inv (St.evict n s) := by
  induction n generalizing s with
  | zero => exact h
  | succ n ih =>
    unfold St.evict
    split
    · split
      · exact ih (h.retireHot _)
      · exact h
    · exact h

theorem Inv.evictIfNeeded (h : Inv s) : Inv s.evictIfNeeded := h.evict _

theorem Inv.chain (h : Inv s) (docId : D) (hold : Bool) : Inv (s.chain docId hold) where
  serial := h.serial.queue docId hold
  owner := h.owner
  held := by
    refine h.held.frame rfl ?_ (fun e he => ⟨e, he, rfl, rfl⟩) ?_ (fun c hc b hb => ⟨c, hc, hb, rfl⟩)
    · intro b
      simp [St.holders, St.chain, LinkStage.bridge]
    · intro l hl b hb
      rcases mem_snoc.1 hl with hold | hnew
      · exact ⟨l, hold, hb, rfl⟩
      · rw [hnew] at hb
        simp [LinkStage.bridge] at hb

theorem Inv.touch (h : Inv s) (docId : D) (pin : Bool) : Inv (s.touch docId pin) :=
  ⟨h.serial, h.owner, h.held.touch docId pin⟩

theorem Inv.applyUpdate (h : Inv s) (docId : D) : Inv (s.applyUpdate docId) := by
  unfold St.applyUpdate
  split
  · exact h
  · split
    · exact h.touch docId false
    · exact h.chain docId false

theorem Inv.settleParked (h : Inv s) (ready : List D) : Inv (s.settleParked ready) := by
  induction ready generalizing s with
  | nil => exact h
  | cons d ready ih => exact ih (h.applyUpdate d)

omit [DecidableEq D] in
/-- the chain a caller waits for is settled -/
theorem settled_iff {chain : Option ℕ} : s.settled chain ↔
    ∀ p ∈ chain, ∃ z, s.links[p]? = some z ∧ z.stage = .settled := by
  cases chain with
  | none => simp [St.settled]
  | some p => simp [St.settled, Option.any_eq_true]

variable {i : ℕ} {l : Link D}

section

variable (h : Inv s) (hl : s.links[i]? = some l) (hopen : l.stage ≠ .settled) (stage : LinkStage) (hturn : l.stage =
    .queued → s.settled l.prev)

include h hl hopen hturn

/-- an entry of a chain moves on, its turn having come -/
theorem Inv.chains : Serial (s.links.set i { l with stage := stage }) s.coldChains := by
  refine h.serial.setStage hl hopen stage fun hq p hp z hz => ?_
  obtain ⟨z', hz', hstage⟩ := settled_iff.mp (hturn hq) p hp
  rw [hz] at hz'
  rw [Option.some.inj hz']
  exact hstage

theorem Inv.setLink (hb : stage.bridge = l.stage.bridge) : Inv (s.setLink i { l with stage := stage }) :=
  ⟨h.chains hl hopen stage hturn, h.owner, h.held.setLink hl stage hb⟩

end

theorem Inv.openCold (h : Inv s) (hl : s.links[i]? = some l) (hb : l.stage.bridge = none) (hopen : l.stage ≠ .settled)
    (hturn : l.stage = .queued → s.settled l.prev) : Inv (s.openCold i l) :=
  ⟨h.chains hl hopen _ hturn, h.owner, h.held.openCold hl hb⟩

theorem Inv.coldApply (h : Inv s) (hl : s.links[i]? = some l) (hq : l.stage = .queued) (hturn : s.settled l.prev) :
    Inv (s.coldApply i l) := by
  have hopen : l.stage ≠ .settled := by simp [hq]
  have hb : l.stage.bridge = none := by simp [hq, LinkStage.bridge]
  unfold St.coldApply
  split
  · have htouch := h.touch l.docId false
    exact htouch.setLink (l := l) hl hopen .done (fun _ => hturn) hb.symm
  · exact h.setLink hl hopen .done (fun _ => hturn) hb.symm
  · exact h.setLink hl hopen .deferring (fun _ => hturn) hb.symm
  · exact h.openCold hl hb hopen fun _ => hturn

variable {c : Call D}

/-- a call that does not own the promotion looks again -/
theorem Inv.enter (h : Inv s) (hc : s.calls[i]? = some c) (hb : c.stage.bridge = none) : Inv (s.enter i c) := by
  unfold St.enter
  split
  · have htouch := h.touch c.docId c.pin
    exact ⟨h.serial, h.owner.setStage hc .returned (by simp [CallStage.owns]),
      htouch.held.setCall (c := c) hc .returned hb.symm _⟩
  · split
    next j _ =>
      exact ⟨h.serial, h.owner.setStage hc (.behind j) (by simp [CallStage.owns]),
        h.held.setCall hc (.behind j) hb.symm _⟩
    next hfree =>
      exact ⟨h.serial, h.owner.take i c hfree _, h.held.setCall hc (.waiting _) hb.symm _⟩

theorem Inv.promote (h : Inv s) (docId : D) (pin : Bool) : Inv (s.promote docId pin) := by
  have hcalled : Inv { s with calls := s.calls ++ [⟨docId, pin, .called⟩] } := by
    refine ⟨h.serial, ?_, ?_⟩
    · intro i c hc hown
      rcases getElem?_snoc.1 hc with hc | ⟨-, rfl⟩
      · exact h.owner i c hc hown
      · simp [CallStage.owns] at hown
    · refine h.held.frame rfl ?_ (fun e he => ⟨e, he, rfl, rfl⟩) (fun l hl b hb => ⟨l, hl, hb, rfl⟩) ?_
      · intro b
        simp [St.holders, CallStage.bridge]
      · intro c hc b hb
        rcases mem_snoc.1 hc with hold | hnew
        · exact ⟨c, hold, hb, rfl⟩
        · rw [hnew] at hb
          simp [CallStage.bridge] at hb
  exact hcalled.enter getElem?_concat_length rfl

theorem Inv.openHot (h : Inv s) (hc : s.calls[i]? = some c) (hown : c.stage.owns) (hb : c.stage.bridge = none) :
    Inv (s.openHot i c) := by
  refine ⟨?_, ?_, h.held.openHot hc hb⟩
  · unfold St.openHot
    split <;> exact h.serial
  · unfold St.openHot
    split
    · exact h.owner.setStage hc .done fun _ => hown
    · exact h.owner.setStage hc (.opening _) fun _ => hown

/-- **Step.** -/
theorem Inv.step (h : Inv s) (a : Action D) : Inv (step s a) := by
  cases a with
  | applyUpdate docId => exact h.applyUpdate docId
  | settleParked ready => exact h.settleParked ready
  | holdUntil docId => exact h.chain docId true
  | promote docId pin => exact h.promote docId pin
  | demote docId | drop docId => exact h.retireHot docId
  | release docId | registry resolves | setSuppressedDoc docId =>
    exact ⟨h.serial, h.owner, h.held.same rfl rfl rfl rfl rfl⟩
  | linkStarts i =>
    simp only [VaultDocStore.step]
    split
    next d prev hold hl =>
      split
      next hturn =>
        split
        · exact h.setLink hl (by simp) .holding (fun _ => hturn) rfl
        · exact h.coldApply hl rfl hturn
      next => exact h
    next => exact h
  | holdEnds i =>
    simp only [VaultDocStore.step]
    split
    next hl => exact h.setLink hl (by simp) .done (by simp) rfl
    next => exact h
  | deferredAnswers i created =>
    simp only [VaultDocStore.step]
    split
    next hl =>
      split
      · exact h.setLink hl (by simp) .done (by simp) rfl
      · exact h.openCold hl rfl (by simp) (by simp)
    next => exact h
  | linkOpens i =>
    simp only [VaultDocStore.step]
    split
    next b hl => exact h.setLink hl (by simp) (.working b) (by simp) rfl
    next => exact h
  | linkOpenFails i | linkPersists i =>
    simp only [VaultDocStore.step]
    split
    next b hl =>
      exact ⟨h.chains hl (by simp) .done (by simp), h.owner, h.held.endLink hl rfl (by simp) .done rfl⟩
    next => exact h
  | linkFlushes i =>
    simp only [VaultDocStore.step]
    split
    next b hl => exact h.setLink hl (by simp) (.persisting b) (by simp) rfl
    next => exact h
  | linkSettles i =>
    simp only [VaultDocStore.step]
    split
    next d prev hold hl =>
      have hset := h.chains hl (by simp) .settled (by simp)
      have hself : (s.links.set i ⟨d, prev, hold, .settled⟩)[i]? = some ⟨d, prev, hold, .settled⟩ :=
        List.getElem?_set_self (List.getElem?_eq_some_iff.mp hl).1
      exact ⟨hset.remove hself rfl, h.owner, (h.held.setLink hl .settled rfl).same rfl rfl rfl rfl rfl⟩
    next => exact h
  | promoteResumes i =>
    simp only [VaultDocStore.step]
    split
    next hc =>
      split
      · exact h.openHot hc rfl rfl
      · exact h
    next => exact h
  | promoteOpens i =>
    simp only [VaultDocStore.step]
    split
    next d pin b hc =>
      have hheld := h.held.setHot h.owner hc rfl ⟨d, b, s.touchSeq + 1, pin⟩ rfl rfl
      exact Inv.evictIfNeeded ⟨h.serial, h.owner.setStage hc .done fun _ => rfl, hheld⟩
    next => exact h
  | promoteOpenFails i =>
    simp only [VaultDocStore.step]
    split
    next b hc =>
      exact ⟨h.serial, h.owner.setStage hc .done fun _ => rfl, h.held.endCall hc rfl (by simp)⟩
    next => exact h
  | promoteRetries i =>
    simp only [VaultDocStore.step]
    split
    next hc =>
      split
      · exact h.enter hc rfl
      · exact h
    next => exact h
  | promoteReturns i =>
    simp only [VaultDocStore.step]
    split
    next d pin hc => exact ⟨h.serial, h.owner.leave hc rfl, h.held.setCall hc .returned rfl _⟩
    next => exact h
  | releaseResumes i =>
    simp only [VaultDocStore.step]
    split
    next d chain hr =>
      split
      · have hset : Inv { s with releases := s.releases.set i ⟨d, chain, true⟩ } :=
          ⟨h.serial, h.owner, h.held.same rfl rfl rfl rfl rfl⟩
        exact hset.retireHot d
      · exact h
    next => exact h
  | retireFlushes i =>
    simp only [VaultDocStore.step]
    split
    next b hr => exact ⟨h.serial, h.owner, h.held.setRetire hr⟩
    next => exact h
  | retirePersists i =>
    simp only [VaultDocStore.step]
    split
    next b hr => exact ⟨h.serial, h.owner, h.held.endRetire hr⟩
    next => exact h

/-! ## What keeps one bridge -/

/-- a live bridge of the document is resident, being opened, being retired or at work for a cold apply -/
theorem Held.live_iff (h : Held s) (docId : D) : (∃ x ∈ s.bridges, x.life = .live ∧ x.docId = docId) ↔
    s.hotEntry docId ≠ none ∨ s.Promoting docId ∨ s.Retiring docId ∨ s.Applying docId := by
  constructor
  · rintro ⟨x, hx, hlive, rfl⟩
    obtain ⟨b, hb⟩ := getElem?_of_mem hx
    have hdoc : s.docOf b = some x.docId := by simp [St.docOf, hb]
    have hone : s.holders b = 1 := by
      rw [h.count]
      simp [St.liveAt, hb, hlive]
    have hsome : 0 < s.hot.countP (fun e => e.bridge = b) ∨ 0 < s.links.countP (fun l => l.stage.bridge = some b) ∨
        0 < s.calls.countP (fun c => c.stage.bridge = some b) ∨ 0 < s.retires.countP (fun r => r.held = some b) := by
      unfold St.holders at hone
      omega
    rcases hsome with hot | hlink | hcall | hretire
    · left
      obtain ⟨e, he, heb⟩ := countP_pos_iff.mp hot
      have hd := h.hot e he
      rw [of_decide_eq_true heb, hdoc] at hd
      intro hnone
      exact hotEntry_none.mp hnone e he (Option.some.inj hd).symm
    · right; right; right
      obtain ⟨l, hl, hlb⟩ := countP_pos_iff.mp hlink
      have hlb := of_decide_eq_true hlb
      have hd := h.links l hl b hlb
      rw [hdoc] at hd
      exact ⟨l, hl, (Option.some.inj hd).symm, by simp [hlb]⟩
    · right; left
      obtain ⟨c, hc, hcb⟩ := countP_pos_iff.mp hcall
      have hcb := of_decide_eq_true hcb
      have hd := h.calls c hc b hcb
      rw [hdoc] at hd
      exact ⟨c, hc, (Option.some.inj hd).symm, by simp [hcb]⟩
    · right; right; left
      obtain ⟨r, hr, hrb⟩ := countP_pos_iff.mp hretire
      exact ⟨r, hr, b, of_decide_eq_true hrb, x, hb, rfl⟩
  · -- a holder is counted, so its bridge is live
    have hlive : ∀ b, 0 < s.holders b → s.docOf b = some docId → ∃ x ∈ s.bridges, x.life = .live ∧ x.docId = docId := by
      intro b hpos hd
      obtain ⟨x, hx, hxl⟩ := (Option.any_eq_true _ _).mp (h.live hpos)
      have hxd : s.docOf b = some x.docId := by simp [St.docOf, hx]
      exact ⟨x, mem_of_getElem? hx, of_decide_eq_true hxl, Option.some.inj (hxd.symm.trans hd)⟩
    rintro (hot | ⟨c, hc, rfl, hcb⟩ | ⟨r, hr, b, hrb, x, hx, rfl⟩ | ⟨l, hl, rfl, hlb⟩)
    · obtain ⟨e, he⟩ := Option.ne_none_iff_exists'.mp hot
      obtain ⟨hmem, hd⟩ := hotEntry_some he
      refine hlive e.bridge ?_ (by rw [h.hot e hmem, hd])
      have hpos : 0 < s.hot.countP (fun x => x.bridge = e.bridge) :=
        countP_pos_iff.mpr ⟨e, hmem, decide_eq_true rfl⟩
      unfold St.holders
      omega
    · obtain ⟨b, hb⟩ := Option.isSome_iff_exists.mp hcb
      refine hlive b ?_ (h.calls c hc b hb)
      have hpos : 0 < s.calls.countP (fun c => c.stage.bridge = some b) :=
        countP_pos_iff.mpr ⟨c, hc, decide_eq_true hb⟩
      unfold St.holders
      omega
    · refine hlive b ?_ (by simp [St.docOf, Option.mem_def.mp hx])
      have hpos : 0 < s.retires.countP (fun r => r.held = some b) :=
        countP_pos_iff.mpr ⟨r, hr, decide_eq_true hrb⟩
      unfold St.holders
      omega
    · obtain ⟨b, hb⟩ := Option.isSome_iff_exists.mp hlb
      refine hlive b ?_ (h.links l hl b hb)
      have hpos : 0 < s.links.countP (fun l => l.stage.bridge = some b) :=
        countP_pos_iff.mpr ⟨l, hl, decide_eq_true hb⟩
      unfold St.holders
      omega

omit [DecidableEq D] in
theorem oneBridge_openBridge {t : St D} (docId : D) (hone : OneBridge s)
    (hbridges : t.bridges = s.bridges ++ [⟨docId, .live⟩]) :
    OneBridge t ↔ ¬ ∃ x ∈ s.bridges, x.life = .live ∧ x.docId = docId := by
  unfold OneBridge
  rw [hbridges, pairwise_append]
  constructor
  · rintro ⟨-, -, hnew⟩ ⟨x, hx, hlive, hdoc⟩
    exact hnew x hx ⟨docId, .live⟩ (mem_singleton.mpr rfl) hlive rfl hdoc
  · intro hnone
    refine ⟨hone, pairwise_singleton _ _, ?_⟩
    intro x hx y hy hlive _ hdoc
    rw [mem_singleton.mp hy] at hdoc
    exact hnone ⟨x, hx, hlive, hdoc⟩

omit [DecidableEq D] in
theorem oneBridge_endBridge (hone : OneBridge s) (b : ℕ) {life : Life} (hlife : life ≠ .live) :
    OneBridge (s.endBridge b life) := by
  unfold OneBridge at hone ⊢
  rw [pairwise_iff_getElem] at hone ⊢
  intro i j hi hj hij
  have hi' : i < s.bridges.length := by simpa [St.endBridge] using hi
  have hj' : j < s.bridges.length := by simpa [St.endBridge] using hj
  have h := hone i j hi' hj' hij
  simp only [St.endBridge, getElem_modify]
  split <;> split <;> first | exact h | simp [hlife]

/-- no other cold apply of the document is past its wait when one has its turn -/
theorem not_applying (h : Inv s) (hl : s.links[i]? = some l) (hb : l.stage.bridge = none) (hopen : l.stage ≠ .settled)
    (hturn : l.stage = .queued → s.settled l.prev) : ¬ s.Applying l.docId := by
  rintro ⟨x, hx, hdoc, hxb⟩
  obtain ⟨j, hj⟩ := List.getElem?_of_mem hx
  have hxq : x.stage ≠ .queued := by
    intro heq
    simp [heq, LinkStage.bridge] at hxb
  have hxs : x.stage ≠ .settled := by
    intro heq
    simp [heq, LinkStage.bridge] at hxb
  rcases lt_trichotomy j i with hlt | rfl | hgt
  · -- the entry has had its turn: look at the chain after it has started
    have hstarted := h.chains hl hopen .holding hturn
    have hi : (s.links.set i { l with stage := .holding })[i]? = some { l with stage := .holding } :=
      List.getElem?_set_self (List.getElem?_eq_some_iff.mp hl).1
    have hj' : (s.links.set i { l with stage := .holding })[j]? = some x := by
      rw [List.getElem?_set_ne hlt.ne', hj]
    exact hxs (hstarted.serial j i x _ hj' hi hdoc hlt (by simp))
  · rw [hl] at hj
    rw [← Option.some.inj hj, hb] at hxb
    simp at hxb
  · exact hopen (h.serial.serial i j l x hl hj hdoc.symm hgt hxq)

/-- no other promotion of the document is opening when one has its turn -/
theorem not_promoting (h : Inv s) (hc : s.calls[i]? = some c) (hown : c.stage.owns) (hb : c.stage.bridge = none) :
    ¬ s.Promoting c.docId := by
  rintro ⟨x, hx, hdoc, hxb⟩
  obtain ⟨j, hj⟩ := getElem?_of_mem hx
  have hxown : x.stage.owns := by
    unfold CallStage.bridge at hxb
    split at hxb
    · next heq => simp [heq, CallStage.owns]
    all_goals simp at hxb
  have hsame := h.owner j x hj hxown
  rw [hdoc, h.owner i c hc hown] at hsame
  cases hsame
  rw [hc] at hj
  rw [← Option.some.inj hj, hb] at hxb
  simp at hxb

theorem oneBridge_openCold (h : Inv s) (hone : OneBridge s) (hl : s.links[i]? = some l) (hb : l.stage.bridge = none)
    (hopen : l.stage ≠ .settled) (hturn : l.stage = .queued → s.settled l.prev) :
    OneBridge (s.openCold i l) ↔ ColdOk s l.docId := by
  rw [oneBridge_openBridge l.docId hone rfl, h.held.live_iff]
  have := not_applying h hl hb hopen hturn
  unfold ColdOk
  tauto

theorem oneBridge_openHot (h : Inv s) (hone : OneBridge s) (hc : s.calls[i]? = some c) (hown : c.stage.owns)
    (hb : c.stage.bridge = none) : OneBridge (s.openHot i c) ↔ (s.hotEntry c.docId = none → HotOk s c.docId) := by
  have hpromoting := not_promoting h hc hown hb
  unfold St.openHot
  split
  next hsome =>
    have hne : s.hotEntry c.docId ≠ none := Option.isSome_iff_ne_none.mp hsome
    exact ⟨fun _ hnone => absurd hnone hne, fun _ => hone⟩
  next hnone =>
    have hnone : s.hotEntry c.docId = none := by simpa using hnone
    rw [oneBridge_openBridge c.docId hone rfl, h.held.live_iff]
    unfold HotOk
    tauto

theorem retireHot_bridges (d : D) : (s.retireHot d).bridges = s.bridges := by
  unfold St.retireHot
  split <;> rfl

theorem evict_bridges (n : ℕ) : (St.evict n s).bridges = s.bridges := by
  induction n generalizing s with
  | zero => rfl
  | succ n ih =>
    unfold St.evict
    split
    · split
      · rw [ih, retireHot_bridges]
      · rfl
    · rfl

theorem applyUpdate_bridges (d : D) : (s.applyUpdate d).bridges = s.bridges := by
  unfold St.applyUpdate
  split
  · rfl
  · split <;> rfl

theorem settleParked_bridges (ready : List D) : (s.settleParked ready).bridges = s.bridges := by
  unfold St.settleParked
  induction ready generalizing s with
  | nil => rfl
  | cons d ready ih => rw [foldl_cons, ih, applyUpdate_bridges]

theorem enter_bridges (i : ℕ) (c : Call D) : (s.enter i c).bridges = s.bridges := by
  unfold St.enter
  split
  · rfl
  · split <;> rfl

/-- a step keeps one bridge a document exactly when the run may take it -/
theorem oneBridge_step (h : Inv s) (hone : OneBridge s) (a : Action D) : OneBridge (step s a) ↔ StoreOk s a := by
  have hkeep : ∀ {t : St D}, t.bridges = s.bridges → OneBridge t := by
    intro t ht
    unfold OneBridge
    rw [ht]
    exact hone
  have hend : ∀ {t : St D} (b : ℕ) {life : Life}, life ≠ .live → t.bridges = (s.endBridge b life).bridges →
      OneBridge t := by
    intro t b life hlife ht
    unfold OneBridge
    rw [ht]
    exact oneBridge_endBridge hone b hlife
  have htrue : ∀ {P : Prop}, P → (P ↔ True) := fun h => ⟨fun _ => trivial, fun _ => h⟩
  cases a with
  | applyUpdate docId => exact htrue (hkeep (applyUpdate_bridges docId))
  | settleParked ready => exact htrue (hkeep (settleParked_bridges ready))
  | holdUntil docId | release docId | registry resolves | setSuppressedDoc docId => exact htrue (hkeep rfl)
  | promote docId pin => exact htrue (hkeep (enter_bridges _ _))
  | demote docId | drop docId => exact htrue (hkeep (retireHot_bridges docId))
  | linkStarts i =>
    simp only [VaultDocStore.step, StoreOk]
    split
    next d prev hold hl =>
      simp only [hl, Option.mem_def, Option.some.injEq, forall_eq', true_implies]
      split
      next hturn =>
        cases hold with
        | true => exact ⟨fun _ _ hhold => by simp at hhold, fun _ => hkeep rfl⟩
        | false =>
          rw [if_neg (by simp)]
          unfold St.coldApply
          split
          next hr => exact ⟨fun _ _ _ hopens => absurd (hr.symm.trans hopens) (by simp), fun _ => hkeep rfl⟩
          next hr => exact ⟨fun _ _ _ hopens => absurd (hr.symm.trans hopens) (by simp), fun _ => hkeep rfl⟩
          next hr => exact ⟨fun _ _ _ hopens => absurd (hr.symm.trans hopens) (by simp), fun _ => hkeep rfl⟩
          next hr =>
            rw [oneBridge_openCold h hone hl rfl (by simp) fun _ => hturn]
            exact ⟨fun hok _ _ _ => hok, fun hok => hok hturn rfl hr⟩
      next hturn => exact ⟨fun _ hsettled => absurd hsettled hturn, fun _ => hone⟩
    next hother =>
      refine ⟨fun _ l hl hq => ?_, fun _ => hone⟩
      obtain ⟨d, prev, hold, stage⟩ := l
      obtain rfl : stage = .queued := hq
      exact absurd hl (hother d prev hold)
  | holdEnds i | linkOpens i | linkFlushes i | linkSettles i | promoteReturns i | retireFlushes i =>
    simp only [VaultDocStore.step]
    split <;> exact htrue (hkeep rfl)
  | deferredAnswers i created =>
    simp only [VaultDocStore.step, StoreOk]
    split
    next d prev hold hl =>
      simp only [hl, Option.mem_def, Option.some.injEq, forall_eq', true_implies]
      cases created with
      | true => exact ⟨fun _ hfalse => by simp at hfalse, fun _ => hkeep rfl⟩
      | false =>
        rw [if_neg (by simp), oneBridge_openCold h hone hl rfl (by simp) (by simp)]
        simp
    next hother =>
      refine ⟨fun _ l hl hq => ?_, fun _ => hone⟩
      obtain ⟨d, prev, hold, stage⟩ := l
      obtain rfl : stage = .deferring := hq
      exact absurd hl (hother d prev hold)
  | linkOpenFails i | linkPersists i | promoteOpenFails i | retirePersists i =>
    simp only [VaultDocStore.step]
    split
    · exact htrue (hend _ (by simp) rfl)
    · exact htrue (hkeep rfl)
  | promoteResumes i =>
    simp only [VaultDocStore.step, StoreOk]
    split
    next d pin chain hc =>
      simp only [hc, Option.mem_def, Option.some.injEq, forall_eq', CallStage.waiting.injEq]
      split
      next hturn =>
        rw [oneBridge_openHot h hone hc rfl rfl]
        exact ⟨fun hok _ => hok, fun hok => hok hturn⟩
      next hturn => exact ⟨fun _ hsettled => absurd hsettled hturn, fun _ => hone⟩
    next hother =>
      refine ⟨fun _ c hc chain hwait => ?_, fun _ => hone⟩
      obtain ⟨d, pin, stage⟩ := c
      obtain rfl : stage = .waiting chain := hwait
      exact absurd hc (hother d pin chain)
  | promoteOpens i =>
    simp only [VaultDocStore.step]
    split
    · exact htrue (hkeep (evict_bridges _))
    · exact htrue (hkeep rfl)
  | promoteRetries i =>
    simp only [VaultDocStore.step]
    split
    · split
      · exact htrue (hkeep (enter_bridges _ _))
      · exact htrue (hkeep rfl)
    · exact htrue (hkeep rfl)
  | releaseResumes i =>
    simp only [VaultDocStore.step]
    split
    · split
      · exact htrue (hkeep (retireHot_bridges _))
      · exact htrue (hkeep rfl)
    · exact htrue (hkeep rfl)

end

theorem Inv.fresh (resolves : D → Bool) (defers : Bool) (hotCap : ℕ) : Inv (fresh resolves defers hotCap) := by
  have hcount : ∀ b, (VaultDocStore.fresh resolves defers hotCap).holders b =
      if (VaultDocStore.fresh resolves defers hotCap).liveAt b then 1 else 0 := by
    intro b
    simp [St.holders, St.liveAt, VaultDocStore.fresh]
  refine ⟨⟨?_, ?_, ?_, ?_, ?_⟩, ?_, ⟨hcount, ?_, ?_, ?_, ?_⟩⟩
  all_goals simp [VaultDocStore.fresh, OneOwner]

end

/-! ## Runs -/

/-- a note that is placed, and a store that creates no deferred files -/
def placed : St ℕ := fresh (fun _ => true) false 100

/-- an update arrives while the promotion waits for `NoteBridge.open` -/
def appliedWhilePromoting : List (Action ℕ) :=
  [.promote 0 true, .promoteResumes 0, .applyUpdate 0, .linkStarts 0]

/-- the upload is done with the note, and an update arrives before its bridge is persisted -/
def appliedWhileRetiring : List (Action ℕ) :=
  [.promote 0 true, .promoteResumes 0, .promoteOpens 0, .promoteReturns 0, .demote 0, .applyUpdate 0, .linkStarts 0]

/-- the note is taken up again before its last bridge is persisted -/
def promotedWhileRetiring : List (Action ℕ) :=
  [.promote 0 true, .promoteResumes 0, .promoteOpens 0, .promoteReturns 0, .demote 0, .promote 0 true,
    .promoteResumes 1]

end Baalda.VaultDocStore
