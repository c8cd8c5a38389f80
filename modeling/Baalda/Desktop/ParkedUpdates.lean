/-
Updates for documents the registry cannot place yet.

The vault channel often brings a new note's content before the registry pull that maps it. `VaultDocStore.coldApply`
(`lib/sync/vaultDocStore.ts`) then parks the update (`park`), within two caps and a time limit; what the caps evict is
remembered in `overflowed`. A pull ends with `settleParked`, which applies what it has placed and gives up what it has
not, and with `takeOverflowed`, whose answer the session re-requests by a reconnect (`settleParkedDocs`).

An update is the set of what it carries (`Crdt.Update`), `mergeUpdates` the join, its length in bytes a parameter. A
cold apply is queued when it is asked for and runs in its turn (`coldRuns`); a pull ends when the applies it has queued
have run (`settleEnds`). Four logs record what happens to what the store has received: `docs` (what a document's bridge
has been given), `waived` (what a rule of the code gives up, with the rule), `requested` (what is received again),
`received`.
-/
import Baalda.Lib.Crdt
import Baalda.Lib.Machine
import Baalda.Lib.Slots

namespace Baalda.ParkedUpdates

open Crdt Crdt.Update List

def PARKED_DOC_CAP : ℕ := 256

def PARKED_BYTES_CAP : ℕ := 16 * 1024 * 1024

def PARKED_TTL_MS : ℕ := 5 * 60000

structure Entry (D : Type*) where
  docId : D
  updates : List Update
  bytes : ℕ
  /-- `parkSeq` when the document was first parked -/
  seq : ℕ
  since : ℕ
  deriving DecidableEq

/-- the rule by which the store owes an update no longer -/
inductive Rule where
  /-- the open note's own provider syncs it -/
  | suppressed
  /-- parked for longer than the limit -/
  | expired
  /-- parked before a pull that has not placed the document -/
  | refused
  /-- access to the document is gone -/
  | dropped
  /-- evicted while the manifest had an entry for the document -/
  | known
  /-- evicted, and the pull that ended next had not placed the document -/
  | unplaced
  /-- its cold apply has thrown -/
  | thrown
  deriving DecidableEq

/-- a `settleParked` under way: the cold applies it waits for, each by its number in the document's chain -/
structure Settle (D : Type*) where
  awaited : List (D × ℕ)
  ended : Bool
  deriving DecidableEq

structure St (D : Type*) where
  /-- `resolvePath` finds a path -/
  resolves : D → Bool
  suppressed : Option D
  /-- the document has a resident bridge -/
  hot : D → Bool
  now : ℕ
  /-- the manifest has an entry for the document -/
  svCache : D → Bool
  coldChains : D → List Update
  /-- how many cold applies of the document have run -/
  ran : D → ℕ
  throws : List (D × ℕ)
  /-- by insertion -/
  parked : List (Entry D)
  parkedBytes : ℕ
  parkSeq : ℕ
  overflowed : List D
  settles : List (Settle D)
  converged : D → Bool
  docs : D → Update
  received : D → List Update
  waived : D → List (Rule × Update)
  requested : D → List Update

/-- a store that has loaded its manifest -/
def opened {D : Type*} (svCache : D → Bool) (docs : D → Update) : St D where
  resolves := fun _ => false
  suppressed := none
  hot := fun _ => false
  now := 0
  svCache := svCache
  coldChains := fun _ => []
  ran := fun _ => 0
  throws := []
  parked := []
  parkedBytes := 0
  parkSeq := 0
  overflowed := []
  settles := []
  converged := fun _ => false
  docs := docs
  received := fun _ => []
  waived := fun _ => []
  requested := fun _ => []

namespace St

variable {D : Type*} [DecidableEq D] (s : St D)

/-! ## Parking -/

def entryOf (docId : D) : Option (Entry D) := s.parked.find? (·.docId = docId)

def unpark (docId : D) : St D :=
  match s.entryOf docId with
  | some e => { s with parked := s.parked.filter (·.docId ≠ docId), parkedBytes := s.parkedBytes - e.bytes }
  | none => s

def waive (rule : Rule) (docId : D) (us : List Update) : St D :=
  { s with waived := Function.update s.waived docId (s.waived docId ++ us.map (rule, ·)) }

/-- a parked document is given up -/
def forget (rule : Rule) (e : Entry D) : St D := (s.unpark e.docId).waive rule e.docId e.updates

/-- `overflowed.add(docId)`: `takeOverflowed` will pass over a document of the manifest -/
def overflow (docId : D) (us : List Update) : St D :=
  let t := if s.svCache docId then s.waive .known docId us else s
  { t with overflowed := if docId ∈ s.overflowed then s.overflowed else s.overflowed ++ [docId] }

/-- the sweep at the start of `park` -/
def expire : St D :=
  s.parked.foldl (fun t e => if PARKED_TTL_MS < s.now - e.since then t.forget .expired e else t) s

/-- the loop at the end of `park`: it takes an entry out each time round -/
def evict : ℕ → St D → St D
  | 0, s => s
  | n + 1, s =>
    if PARKED_DOC_CAP < s.parked.length ∨ PARKED_BYTES_CAP < s.parkedBytes then
      match s.parked with
      | e :: _ => evict n ((s.unpark e.docId).overflow e.docId e.updates)
      | [] => s
    else s

/-- the document's entry, made if need be, takes the update -/
def addTo (docId : D) (u : Update) (bytes : ℕ) : St D :=
  if (s.entryOf docId).isSome then
    { s with
      parked := s.parked.map fun e =>
        if e.docId = docId then { e with updates := e.updates ++ [u], bytes := e.bytes + bytes } else e
      parkedBytes := s.parkedBytes + bytes }
  else
    { s with
      parked := s.parked ++ [⟨docId, [u], bytes, s.parkSeq + 1, s.now⟩]
      parkedBytes := s.parkedBytes + bytes
      parkSeq := s.parkSeq + 1 }

def park (size : Update → ℕ) (docId : D) (u : Update) : St D :=
  let s := s.expire
  if PARKED_BYTES_CAP < size u then
    (s.unpark docId).overflow docId ((s.entryOf docId).elim [] Entry.updates ++ [u])
  else
    let s := s.addTo docId u (size u)
    evict s.parked.length s

/-! ## Applying -/

/-- a bridge takes the update in, and the manifest its state vector (`rememberSv`) -/
def applyRemote (docId : D) (u : Update) : St D :=
  { s with
    docs := Function.update s.docs docId (s.docs docId ⊔ u)
    svCache := Function.update s.svCache docId true }

def applyUpdate (docId : D) (u : Update) : St D :=
  if s.suppressed = some docId then s.waive .suppressed docId [u]
  else if s.hot docId then s.applyRemote docId u
  else { s with coldChains := Function.update s.coldChains docId (s.coldChains docId ++ [u]) }

def logReceived (docId : D) (u : Update) : St D :=
  { s with received := Function.update s.received docId (s.received docId ++ [u]) }

/-- the channel brings an update -/
def receive (docId : D) (u : Update) : St D := (s.logReceived docId u).applyUpdate docId u

end St

/-- how a cold apply of a placed document ends -/
inductive Outcome where
  | throws
  /-- the file held an edit of its own -/
  | merges
  | lands
  deriving DecidableEq

namespace St

variable {D : Type*} [DecidableEq D] (s : St D)

def coldApply (size : Update → ℕ) (docId : D) (u : Update) (outcome : Outcome) : St D :=
  if s.hot docId then s.applyRemote docId u
  else if !s.resolves docId then s.park size docId u
  else
    match outcome with
    | .throws => { s.waive .thrown docId [u] with throws := (docId, s.ran docId) :: s.throws }
    | .merges => s.applyRemote docId u
    | .lands =>
      { s.applyRemote docId u with
        converged := Function.update s.converged docId (s.converged docId || s.docs docId == ⊥) }

/-- the first cold apply of the document's chain has its turn -/
def coldRuns (size : Update → ℕ) (docId : D) (outcome : Outcome) : St D :=
  match s.coldChains docId with
  | u :: rest =>
    coldApply { s with
      coldChains := Function.update s.coldChains docId rest
      ran := Function.update s.ran docId (s.ran docId + 1) } size docId u outcome
  | [] => s

/-! ## The end of a pull -/

def ready : List (Entry D) := s.parked.filter (s.resolves ·.docId)

/-- what `settleParked` does with one parked document -/
def settleEntry (mark : ℕ) (now : ℕ) (t : St D) (e : Entry D) : St D :=
  if t.resolves e.docId then t.unpark e.docId
  else if e.seq ≤ mark then t.forget .refused e
  else if PARKED_TTL_MS < now - e.since then t.forget .expired e
  else t

/-- `settleParked` up to its `await` -/
def settleParked (mark : ℕ) : St D :=
  let t := s.ready.foldl (fun t e => t.applyUpdate e.docId (mergeAll e.updates))
    (s.parked.foldl (settleEntry mark s.now) s)
  let cold := s.ready.filter fun e => s.suppressed ≠ some e.docId && !s.hot e.docId
  { t with
    settles := t.settles ++ [⟨cold.map fun e => (e.docId, t.ran e.docId + (t.coldChains e.docId).length), false⟩] }

/-- what `takeOverflowed` answers -/
def overflowedDocs : List D := s.overflowed.filter fun d => !s.svCache d && s.resolves d

def takeOverflowed : St D :=
  { s with
    overflowed := []
    requested := fun d => if d ∈ s.overflowedDocs then s.requested d ++ s.received d else s.requested d
    waived := fun d =>
      if d ∈ s.overflowed ∧ s.resolves d = false then s.waived d ++ (s.received d).map (.unplaced, ·) else s.waived d }

/-- every cold apply the pull waits for has run, and none has thrown -/
def settled (p : Settle D) : Bool := !p.ended && p.awaited.all fun a => a.2 ≤ s.ran a.1 && a ∉ s.throws

def settleEnds (i : ℕ) : St D :=
  match s.settles[i]? with
  | some p => if s.settled p then { s.takeOverflowed with settles := s.settles.set i { p with ended := true } } else s
  | none => s

/-- access to the document is gone -/
def drop (docId : D) : St D :=
  waive { s.unpark docId with
    hot := Function.update s.hot docId false
    svCache := Function.update s.svCache docId false
    overflowed := s.overflowed.filter (· ≠ docId) } .dropped docId (s.received docId)

end St

/-! ## Steps -/

inductive Action (D : Type*) where
  | receive (docId : D) (u : Update)
  | coldRuns (docId : D) (outcome : Outcome)
  | settleParked (mark : ℕ)
  | settleEnds (i : ℕ)
  | drop (docId : D)
  | promote (docId : D)
  | demote (docId : D)
  /-- a pull, or a change of access, places other documents -/
  | registry (resolves : D → Bool)
  | setSuppressedDoc (docId : Option D)
  | tick (ms : ℕ)

section

variable {D : Type*} [DecidableEq D]

def step (size : Update → ℕ) (s : St D) : Action D → St D
  | .receive docId u => s.receive docId u
  | .coldRuns docId outcome => s.coldRuns size docId outcome
  | .settleParked mark => s.settleParked mark
  | .settleEnds i => s.settleEnds i
  | .drop docId => s.drop docId
  | .promote docId =>
    { s with hot := Function.update s.hot docId true, svCache := Function.update s.svCache docId true }
  | .demote docId => { s with hot := Function.update s.hot docId false }
  | .registry resolves => { s with resolves := resolves }
  | .setSuppressedDoc docId => { s with suppressed := docId }
  | .tick ms => { s with now := s.now + ms }

def run (size : Update → ℕ) (s : St D) (as : List (Action D)) : St D := Machine.run (step size) s as

/-- updates of the document have been evicted, and nothing in the manifest hides it -/
def St.Missing (s : St D) (docId : D) : Prop := docId ∈ s.overflowed ∧ s.svCache docId = false

/-- the document has all that was received for it, once it has `u` -/
def St.Whole (s : St D) (docId : D) (u : Update) : Prop := ∀ v ∈ s.received docId, v ≤ s.docs docId ⊔ u

/-- a document whose updates were evicted gets no entry in the manifest before it is whole -/
def Keeps (s : St D) : Action D → Prop
  | .coldRuns docId outcome =>
    ∀ u ∈ (s.coldChains docId).head?, s.resolves docId → outcome ≠ .throws → s.Missing docId → s.Whole docId u
  | .promote docId => s.Missing docId → s.Whole docId ⊥
  | _ => True

instance (s : St D) (docId : D) : Decidable (s.Missing docId) := inferInstanceAs (Decidable (_ ∧ _))

instance (s : St D) (docId : D) (u : Update) : Decidable (s.Whole docId u) :=
  inferInstanceAs (Decidable (∀ v ∈ s.received docId, _))

instance (s : St D) (a : Action D) : Decidable (Keeps s a) := by unfold Keeps; split <;> infer_instance

/-! ## What has become of an update -/

namespace St

variable (s : St D) (d : D) (u : Update)

def Waived : Prop := ∃ p ∈ s.waived d, u ≤ p.2

def Requested : Prop := ∃ w ∈ s.requested d, u ≤ w

def Parked : Prop := ∃ e ∈ s.parked, e.docId = d ∧ ∃ w ∈ e.updates, u ≤ w

def Queued : Prop := ∃ w ∈ s.coldChains d, u ≤ w

/-- it is part of a queued cold apply numbered below `k` -/
def QueuedBelow (k : ℕ) : Prop := ∃ j w, (s.coldChains d)[j]? = some w ∧ u ≤ w ∧ s.ran d + j < k

/-- it is not parked: applied, given up by a rule, asked for again or about to be, or queued below `k` -/
def Placed (k : ℕ) : Prop :=
  u ≤ s.docs d ∨ s.Waived d u ∨ s.Requested d u ∨ s.Missing d ∨ s.QueuedBelow d u k

def Safe : Prop := (∃ k, s.Placed d u k) ∨ s.Parked d u

def Keys : Prop := (s.parked.map Entry.docId).Nodup

end St

/-- every update received is safe -/
structure Inv (s : St D) : Prop where
  keys : s.Keys
  /-- `promote` remembers the state vector of what it opens -/
  hotKnown : ∀ d, s.hot d → s.svCache d
  safe : ∀ d, ∀ u ∈ s.received d, s.Safe d u

/-- nothing but the parking has changed -/
structure Same (s t : St D) : Prop where
  docs : t.docs = s.docs
  chains : t.coldChains = s.coldChains
  ran : t.ran = s.ran
  requested : t.requested = s.requested
  received : t.received = s.received
  svCache : t.svCache = s.svCache
  hot : t.hot = s.hot
  resolves : t.resolves = s.resolves
  suppressed : t.suppressed = s.suppressed
  settles : t.settles = s.settles

/-- steps of the parking: what they take out is given up by a rule or will be asked for -/
structure Parks (s t : St D) : Prop extends Same s t where
  waived : ∀ d, s.waived d ⊆ t.waived d
  overflowed : s.overflowed ⊆ t.overflowed
  parked : ∀ d u, s.Parked d u → t.Parked d u ∨ t.Waived d u ∨ t.Missing d
  keys : s.Keys → t.Keys

section

variable {s t r : St D}

omit [DecidableEq D] in
theorem Same.refl (s : St D) : Same s s := ⟨rfl, rfl, rfl, rfl, rfl, rfl, rfl, rfl, rfl, rfl⟩

omit [DecidableEq D] in
theorem Same.trans (h : Same s t) (g : Same t r) : Same s r where
  docs := g.docs.trans h.docs
  chains := g.chains.trans h.chains
  ran := g.ran.trans h.ran
  requested := g.requested.trans h.requested
  received := g.received.trans h.received
  svCache := g.svCache.trans h.svCache
  hot := g.hot.trans h.hot
  resolves := g.resolves.trans h.resolves
  suppressed := g.suppressed.trans h.suppressed
  settles := g.settles.trans h.settles

omit [DecidableEq D] in
theorem Parks.refl (s : St D) : Parks s s :=
  ⟨Same.refl s, fun _ => List.Subset.refl _, List.Subset.refl _, fun _ _ => .inl, id⟩

variable {d : D} {u : Update}

omit [DecidableEq D] in
theorem Parks.lost (h : Parks s t) : s.Waived d u ∨ s.Missing d → t.Waived d u ∨ t.Missing d := by
  intro hlost
  rcases hlost with ⟨p, hp, hle⟩ | ⟨hover, hcache⟩
  · exact .inl ⟨p, h.waived d hp, hle⟩
  · exact .inr ⟨h.overflowed hover, by rw [h.svCache]; exact hcache⟩

omit [DecidableEq D] in
theorem Parks.trans (h : Parks s t) (g : Parks t r) : Parks s r where
  toSame := h.toSame.trans g.toSame
  waived d := List.Subset.trans (h.waived d) (g.waived d)
  overflowed := List.Subset.trans h.overflowed g.overflowed
  parked d u hp := by
    rcases h.parked d u hp with hparked | hlost
    · exact g.parked d u hparked
    · exact .inr (g.lost hlost)
  keys := fun hk => g.keys (h.keys hk)

variable {k : ℕ}

omit [DecidableEq D] in
/-- an update that is not parked keeps its place when the logs only grow -/
theorem Same.placed (h : Same s t) (hwaived : ∀ d, s.waived d ⊆ t.waived d) (hover : s.overflowed ⊆ t.overflowed)
    (hp : s.Placed d u k) : t.Placed d u k := by
  rcases hp with hdoc | ⟨p, hp, hle⟩ | hreq | ⟨hover', hcache⟩ | hqueued
  · exact .inl (by rw [h.docs]; exact hdoc)
  · exact .inr (.inl ⟨p, hwaived d hp, hle⟩)
  · exact .inr (.inr (.inl (by unfold St.Requested; rw [h.requested]; exact hreq)))
  · exact .inr (.inr (.inr (.inl ⟨hover hover', by rw [h.svCache]; exact hcache⟩)))
  · exact .inr (.inr (.inr (.inr (by unfold St.QueuedBelow; rw [h.chains, h.ran]; exact hqueued))))

omit [DecidableEq D] in
theorem Parks.placed (h : Parks s t) (hp : s.Placed d u k) : t.Placed d u k :=
  h.toSame.placed h.waived h.overflowed hp

omit [DecidableEq D] in
theorem Parks.safe (h : Parks s t) (hs : s.Safe d u) : t.Safe d u := by
  rcases hs with ⟨k, hp⟩ | hp
  · exact .inl ⟨k, h.placed hp⟩
  · rcases h.parked d u hp with hparked | hwaived | hmissing
    · exact .inr hparked
    · exact .inl ⟨0, .inr (.inl hwaived)⟩
    · exact .inl ⟨0, .inr (.inr (.inr (.inl hmissing)))⟩

theorem waive_waived (rule : Rule) (docId d : D) (us : List Update) :
    s.waived d ⊆ (s.waive rule docId us).waived d := by
  intro p hp
  by_cases hd : d = docId
  · subst hd
    simp [St.waive, hp]
  · simpa [St.waive, Function.update_of_ne hd] using hp

variable {docId : D} {us : List Update} {w : Update}

theorem waived_waive {rule : Rule} (hw : w ∈ us) (hle : u ≤ w) : (s.waive rule docId us).Waived docId u := by
  refine ⟨(rule, w), ?_, hle⟩
  simp [St.waive, hw]

omit [DecidableEq D] in
theorem entry_unique (h : s.Keys) {e x : Entry D} (he : e ∈ s.parked) (hx : x ∈ s.parked) (hd : x.docId = e.docId) :
    x = e :=
  inj_on_of_nodup_map h hx he hd

@[simp] theorem unpark_parked (docId : D) : (s.unpark docId).parked = s.parked.filter (·.docId ≠ docId) := by
  unfold St.unpark
  split
  next => rfl
  next hnone =>
    have hall : ∀ e ∈ s.parked, e.docId ≠ docId := by simpa [St.entryOf] using hnone
    rw [filter_eq_self.mpr]
    intro e he
    simpa using hall e he

theorem Same.unpark (s : St D) (docId : D) : Same s (s.unpark docId) := by
  unfold St.unpark
  split <;> exact ⟨rfl, rfl, rfl, rfl, rfl, rfl, rfl, rfl, rfl, rfl⟩

theorem unpark_logs (docId : D) :
    (s.unpark docId).waived = s.waived ∧ (s.unpark docId).overflowed = s.overflowed := by
  unfold St.unpark
  split <;> exact ⟨rfl, rfl⟩

/-- a document's entry is taken out -/
theorem Parks.takeOut (hsame : Same (s.unpark docId) t) (hparked : t.parked = (s.unpark docId).parked)
    (hwaived : ∀ d, (s.unpark docId).waived d ⊆ t.waived d) (hover : (s.unpark docId).overflowed ⊆ t.overflowed)
    (hlost : ∀ e ∈ s.parked, e.docId = docId → ∀ w ∈ e.updates, ∀ u ≤ w, t.Waived docId u ∨ t.Missing docId) :
    Parks s t where
  toSame := (Same.unpark s docId).trans hsame
  waived d := by
    rw [← (unpark_logs docId).1]
    exact hwaived d
  overflowed := by
    rw [← (unpark_logs docId).2]
    exact hover
  parked d u := by
    rintro ⟨e, he, rfl, w, hw, hle⟩
    by_cases hd : e.docId = docId
    · right
      rw [hd]
      exact hlost e he hd w hw u hle
    · left
      refine ⟨e, ?_, rfl, w, hw, hle⟩
      rw [hparked]
      simp [he, hd]
  keys hk := by
    have hsub : t.parked.Sublist s.parked := by
      rw [hparked, unpark_parked]
      exact filter_sublist
    exact hk.sublist (hsub.map _)

theorem Parks.waive (rule : Rule) (docId : D) (hall : ∀ e ∈ s.parked, e.docId = docId → e.updates ⊆ us) :
    Parks s ((s.unpark docId).waive rule docId us) :=
  Parks.takeOut ⟨rfl, rfl, rfl, rfl, rfl, rfl, rfl, rfl, rfl, rfl⟩ rfl (fun d => waive_waived rule docId d us)
    (List.Subset.refl _) fun e he hd _ hw _ hle => .inl (waived_waive (hall e he hd hw) hle)

theorem Parks.forget (rule : Rule) {e : Entry D} (he : ∀ x ∈ s.parked, x.docId = e.docId → x = e) :
    Parks s (s.forget rule e) :=
  Parks.waive rule e.docId fun x hx hd => by rw [he x hx hd]; exact List.Subset.refl _

/-- what goes into the overflow set is asked for again, if the manifest does not hide it -/
theorem overflow_lost (s : St D) (docId : D) (hw : w ∈ us) (hle : u ≤ w) :
    (s.overflow docId us).Waived docId u ∨ (s.overflow docId us).Missing docId := by
  unfold St.overflow
  by_cases hcache : s.svCache docId = true
  · left
    rw [if_pos hcache]
    exact waived_waive hw hle
  · right
    rw [if_neg hcache]
    refine ⟨?_, by simpa using hcache⟩
    by_cases hmem : docId ∈ s.overflowed <;> simp [hmem]

/-- a document's entry is taken out, and the document goes into the overflow set -/
theorem Parks.overflow (docId : D) (hall : ∀ e ∈ s.parked, e.docId = docId → e.updates ⊆ us) :
    Parks s ((s.unpark docId).overflow docId us) := by
  refine Parks.takeOut ?_ ?_ ?_ ?_ fun e he hd w hw u hle => overflow_lost _ docId (hall e he hd hw) hle
  · unfold St.overflow
    split <;> exact ⟨rfl, rfl, rfl, rfl, rfl, rfl, rfl, rfl, rfl, rfl⟩
  · unfold St.overflow
    split <;> rfl
  · intro d
    unfold St.overflow
    split
    · exact waive_waived .known docId d us
    · exact List.Subset.refl _
  · unfold St.overflow
    intro d hd
    dsimp only
    split
    · exact hd
    · exact mem_append_left _ hd

/-- the sweep, over entries of which the store still holds each or none for its document -/
theorem parks_expire_list (now : ℕ) (l : List (Entry D))
    (hl : ∀ e ∈ l, ∀ x ∈ s.parked, x.docId = e.docId → x = e) :
    Parks s (l.foldl (fun t e => if PARKED_TTL_MS < now - e.since then t.forget .expired e else t) s) := by
  induction l generalizing s with
  | nil => exact Parks.refl s
  | cons e l ih =>
    rw [foldl_cons]
    have htail : ∀ x ∈ l, ∀ y ∈ s.parked, y.docId = x.docId → y = x := fun x hx => hl x (mem_cons_of_mem e hx)
    split
    · have hforget := Parks.forget (s := s) .expired (hl e mem_cons_self)
      refine hforget.trans (ih fun x hx y hy => htail x hx y ?_)
      have hy : y ∈ (s.unpark e.docId).parked := hy
      rw [unpark_parked] at hy
      exact mem_of_mem_filter hy
    · exact ih htail

theorem parks_expire (hk : s.Keys) : Parks s s.expire :=
  parks_expire_list s.now s.parked fun _ he _ hx hd => entry_unique hk he hx hd

theorem parks_evict (n : ℕ) (hk : s.Keys) : Parks s (St.evict n s) := by
  induction n generalizing s with
  | zero => exact Parks.refl s
  | succ n ih =>
    unfold St.evict
    split
    · split
      next e rest hparked =>
        have hmem : e ∈ s.parked := by rw [hparked]; exact .head _
        have hout : Parks s ((s.unpark e.docId).overflow e.docId e.updates) :=
          Parks.overflow e.docId fun x hx hd => by rw [entry_unique hk hmem hx hd]; exact List.Subset.refl _
        exact hout.trans (ih (hout.keys hk))
      next => exact Parks.refl s
    · exact Parks.refl s

theorem parks_addTo (docId : D) (u : Update) (bytes : ℕ) :
    Parks s (s.addTo docId u bytes) ∧ (s.addTo docId u bytes).Parked docId u := by
  unfold St.addTo
  split
  next hsome =>
    obtain ⟨e, he⟩ := Option.isSome_iff_exists.mp hsome
    have hmem : e ∈ s.parked := mem_of_find?_eq_some he
    have hdoc : e.docId = docId := by simpa using find?_some he
    have hkeep : ∀ x : Entry D,
        (if x.docId = docId then { x with updates := x.updates ++ [u], bytes := x.bytes + bytes } else x).docId =
          x.docId := by
      intro x
      split <;> rfl
    have hmore : ∀ x : Entry D, x.updates ⊆
        (if x.docId = docId then { x with updates := x.updates ++ [u], bytes := x.bytes + bytes } else x).updates := by
      intro x
      split
      · exact subset_append_left _ _
      · exact List.Subset.refl _
    refine ⟨⟨⟨rfl, rfl, rfl, rfl, rfl, rfl, rfl, rfl, rfl, rfl⟩, fun _ => List.Subset.refl _, List.Subset.refl _, ?_,
      ?_⟩, ?_⟩
    · rintro d v ⟨x, hx, rfl, w, hw, hle⟩
      exact .inl ⟨_, mem_map_of_mem hx, hkeep x, w, hmore x hw, hle⟩
    · intro hk
      unfold St.Keys
      rw [map_map]
      have hcomp : (Entry.docId ∘ fun x : Entry D =>
          if x.docId = docId then { x with updates := x.updates ++ [u], bytes := x.bytes + bytes } else x) =
            Entry.docId := funext hkeep
      rw [hcomp]
      exact hk
    · refine ⟨_, mem_map_of_mem hmem, ?_, u, ?_, le_rfl⟩
      · rw [if_pos hdoc]
        exact hdoc
      · rw [if_pos hdoc]
        exact mem_append_right _ (mem_singleton.mpr rfl)
  next hnone =>
    have hall : ∀ e ∈ s.parked, e.docId ≠ docId := by simpa [St.entryOf] using hnone
    refine ⟨⟨⟨rfl, rfl, rfl, rfl, rfl, rfl, rfl, rfl, rfl, rfl⟩, fun _ => List.Subset.refl _, List.Subset.refl _, ?_,
      ?_⟩, ?_⟩
    · rintro d v ⟨x, hx, hd, w, hw, hle⟩
      exact .inl ⟨x, mem_append_left _ hx, hd, w, hw, hle⟩
    · intro hk
      unfold St.Keys
      rw [map_append, nodup_append]
      refine ⟨hk, nodup_singleton _, ?_⟩
      intro d hd d' hd' heq
      obtain ⟨x, hx, rfl⟩ := mem_map.mp hd
      rw [map_singleton, mem_singleton] at hd'
      exact hall x hx (heq.trans hd')
    · exact ⟨_, mem_append_right _ (mem_singleton.mpr rfl), rfl, u, mem_singleton.mpr rfl, le_rfl⟩

/-- a parked update is parked, or evicted at once -/
theorem parks_park (size : Update → ℕ) (hk : s.Keys) (docId : D) (u : Update) :
    Parks s (s.park size docId u) ∧
      ∀ v ≤ u, (s.park size docId u).Parked docId v ∨ (s.park size docId u).Waived docId v ∨
        (s.park size docId u).Missing docId := by
  have hexpire := parks_expire hk
  have hkx := hexpire.keys hk
  unfold St.park
  split
  · refine ⟨hexpire.trans (Parks.overflow docId ?_), fun v hv => .inr (overflow_lost _ docId ?_ hv)⟩
    · intro e he hd
      have hentry : s.expire.entryOf docId = some e := by
        cases hfind : s.expire.entryOf docId with
        | none => exact absurd hd (by simpa using find?_eq_none.mp hfind e he)
        | some x =>
          have hx : x.docId = docId := by simpa using find?_some hfind
          rw [entry_unique hkx he (mem_of_find?_eq_some hfind) (hx.trans hd.symm)]
      rw [hentry]
      exact subset_append_left _ _
    · exact mem_append_right _ (mem_singleton.mpr rfl)
  · obtain ⟨hadd, hparked⟩ := parks_addTo (s := s.expire) docId u (size u)
    have hevict := parks_evict (s := s.expire.addTo docId u (size u)) (s.expire.addTo docId u (size u)).parked.length
      (hadd.keys hkx)
    refine ⟨hexpire.trans (hadd.trans hevict), fun v hv => ?_⟩
    obtain ⟨e, he, hd, w, hw, hle⟩ := hparked
    exact hevict.parked docId v ⟨e, he, hd, w, hw, hv.trans hle⟩

/-! ## Applying -/

theorem placed_applyRemote (docId : D) (w : Update) (hwhole : s.Missing docId → s.Whole docId w)
    (hu : u ∈ s.received d) (hp : s.Placed d u k) : (s.applyRemote docId w).Placed d u k := by
  rcases hp with hdoc | hwaived | hreq | hmissing | hqueued
  · left
    by_cases hd : d = docId
    · subst hd
      simp only [St.applyRemote, Function.update_self]
      exact hdoc.trans le_sup_left
    · simpa only [St.applyRemote, Function.update_of_ne hd] using hdoc
  · exact .inr (.inl hwaived)
  · exact .inr (.inr (.inl hreq))
  · by_cases hd : d = docId
    · subst hd
      left
      simp only [St.applyRemote, Function.update_self]
      exact hwhole hmissing u hu
    · refine .inr (.inr (.inr (.inl ⟨hmissing.1, ?_⟩)))
      simpa only [St.applyRemote, Function.update_of_ne hd] using hmissing.2
  · exact .inr (.inr (.inr (.inr hqueued)))

theorem placed_waive (rule : Rule) (docId : D) (us : List Update) (hp : s.Placed d u k) :
    (s.waive rule docId us).Placed d u k :=
  have hsame : Same s (s.waive rule docId us) := ⟨rfl, rfl, rfl, rfl, rfl, rfl, rfl, rfl, rfl, rfl⟩
  hsame.placed (fun d => waive_waived rule docId d us) (List.Subset.refl _) hp

omit [DecidableEq D] in
theorem missing_of_known (h : s.svCache d) : ¬ s.Missing d := fun hm => by simp [hm.2] at h

/-- an update that comes in moves no other -/
theorem placed_applyUpdate (hknown : ∀ d, s.hot d → s.svCache d) (docId : D) (w : Update) (hu : u ∈ s.received d)
    (hp : s.Placed d u k) : (s.applyUpdate docId w).Placed d u k := by
  unfold St.applyUpdate
  split
  · exact placed_waive .suppressed docId [w] hp
  · split
    next hhot => exact placed_applyRemote docId w (fun hm => absurd hm (missing_of_known (hknown docId hhot))) hu hp
    next =>
      rcases hp with hdoc | hwaived | hreq | hmissing | ⟨j, v, hj, hle, hk⟩
      · exact .inl hdoc
      · exact .inr (.inl hwaived)
      · exact .inr (.inr (.inl hreq))
      · exact .inr (.inr (.inr (.inl hmissing)))
      · refine .inr (.inr (.inr (.inr ⟨j, v, ?_, hle, hk⟩)))
        by_cases hd : d = docId
        · subst hd
          simp only [Function.update_self]
          rw [List.getElem?_snoc_of hj]
        · simpa only [Function.update_of_ne hd] using hj

/-- it has a place of its own -/
theorem applyUpdate_places (docId : D) (hle : u ≤ w) : ∃ k, (s.applyUpdate docId w).Placed docId u k := by
  unfold St.applyUpdate
  split
  · exact ⟨0, .inr (.inl (waived_waive (mem_singleton.mpr rfl) hle))⟩
  · split
    · refine ⟨0, .inl ?_⟩
      simp only [St.applyRemote, Function.update_self]
      exact hle.trans le_sup_right
    · refine ⟨s.ran docId + (s.coldChains docId).length + 1, .inr (.inr (.inr (.inr ?_)))⟩
      refine ⟨(s.coldChains docId).length, w, ?_, hle, ?_⟩
      · simp
      · exact Nat.lt_succ_self _

/-- what the parking does not touch when an update comes in -/
theorem applyUpdate_frame (docId : D) (w : Update) :
    (s.applyUpdate docId w).parked = s.parked ∧ (s.applyUpdate docId w).received = s.received ∧
      (s.applyUpdate docId w).hot = s.hot ∧ (∀ d, s.svCache d → (s.applyUpdate docId w).svCache d) ∧
      (s.applyUpdate docId w).resolves = s.resolves ∧ (s.applyUpdate docId w).settles = s.settles := by
  unfold St.applyUpdate
  split
  · exact ⟨rfl, rfl, rfl, fun _ h => h, rfl, rfl⟩
  · split
    · refine ⟨rfl, rfl, rfl, fun d h => ?_, rfl, rfl⟩
      by_cases hd : d = docId
      · subst hd
        simp [St.applyRemote]
      · simpa only [St.applyRemote, Function.update_of_ne hd] using h
    · exact ⟨rfl, rfl, rfl, fun _ h => h, rfl, rfl⟩

/-- the updates `settleParked` applies: each has a place, and moves no other -/
theorem applies_place (l : List (Entry D)) (hknown : ∀ d, s.hot d → s.svCache d) :
    let t := l.foldl (fun t e => t.applyUpdate e.docId (mergeAll e.updates)) s
    (t.parked = s.parked ∧ t.received = s.received ∧ t.hot = s.hot ∧ (∀ d, s.svCache d → t.svCache d) ∧
      t.resolves = s.resolves ∧ t.settles = s.settles) ∧
      (∀ d u k, u ∈ s.received d → s.Placed d u k → t.Placed d u k) ∧
      ∀ e ∈ l, ∀ w ∈ e.updates, ∀ u ∈ s.received e.docId, u ≤ w → ∃ k, t.Placed e.docId u k := by
  induction l generalizing s with
  | nil => exact ⟨⟨rfl, rfl, rfl, fun _ h => h, rfl, rfl⟩, fun _ _ _ _ h => h, fun e he => by simp at he⟩
  | cons e l ih =>
    obtain ⟨hparked, hreceived, hhot, hsv, hres, hset⟩ := applyUpdate_frame (s := s) e.docId (mergeAll e.updates)
    have hknown' : ∀ d, (s.applyUpdate e.docId (mergeAll e.updates)).hot d →
        (s.applyUpdate e.docId (mergeAll e.updates)).svCache d := by
      intro d hd
      rw [hhot] at hd
      exact hsv d (hknown d hd)
    obtain ⟨⟨ihp, ihr, ihh, ihs, ihres, ihset⟩, ihplaced, ihnew⟩ := ih hknown'
    refine ⟨⟨ihp.trans hparked, ihr.trans hreceived, ihh.trans hhot, fun d hd => ihs d (hsv d hd), ihres.trans hres,
      ihset.trans hset⟩, ?_, ?_⟩
    · intro d u k hu hp
      exact ihplaced d u k (by rw [hreceived]; exact hu) (placed_applyUpdate hknown _ _ hu hp)
    · intro x hx w hw u hu hle
      rcases mem_cons.mp hx with rfl | hx
      · obtain ⟨k, hk⟩ := applyUpdate_places (s := s) x.docId (hle.trans (le_mergeAll hw))
        exact ⟨k, ihplaced _ u k (by rw [hreceived]; exact hu) hk⟩
      · exact ihnew x hx w hw u (by rw [hreceived]; exact hu) hle

/-! ## The pull -/

/-- what `settleParked` has done when it has gone over the entries `l` -/
structure Settles (l : List (Entry D)) (s t : St D) : Prop extends Same s t where
  waived : ∀ d, s.waived d ⊆ t.waived d
  overflowed : s.overflowed ⊆ t.overflowed
  sublist : t.parked.Sublist s.parked
  parked : ∀ d u, s.Parked d u → t.Parked d u ∨ t.Waived d u ∨
    ∃ e ∈ l, s.resolves e.docId ∧ e.docId = d ∧ ∃ w ∈ e.updates, u ≤ w
  gone : ∀ e ∈ l, s.resolves e.docId → ∀ x ∈ t.parked, x.docId ≠ e.docId

theorem settles_entry (mark now : ℕ) {e : Entry D} (he : ∀ x ∈ s.parked, x.docId = e.docId → x = e) :
    Settles [e] s (s.settleEntry mark now e) := by
  -- a document that is not placed is given up, or stays
  have hrest : ∀ {t}, Parks s t → t.overflowed = s.overflowed → t.parked.Sublist s.parked → s.resolves e.docId = false →
      (∀ d u, s.Parked d u → t.Parked d u ∨ t.Waived d u) → Settles [e] s t := by
    intro t ht hover hsub hres hparked
    refine ⟨ht.toSame, ht.waived, by rw [hover]; exact List.Subset.refl _, hsub, ?_, ?_⟩
    · intro d u hp
      rcases hparked d u hp with h | h
      · exact .inl h
      · exact .inr (.inl h)
    · intro x hx hplaced
      rw [mem_singleton.mp hx, hres] at hplaced
      simp at hplaced
  have hforget : ∀ rule, s.resolves e.docId = false → Settles [e] s (s.forget rule e) := by
    intro rule hres
    have hsub : (s.forget rule e).parked.Sublist s.parked := by
      show (s.unpark e.docId).parked.Sublist s.parked
      rw [unpark_parked]
      exact filter_sublist
    refine hrest (Parks.forget rule he) (unpark_logs e.docId).2 hsub hres ?_
    rintro d u ⟨x, hx, rfl, w, hw, hle⟩
    by_cases hd : x.docId = e.docId
    · right
      rw [he x hx hd] at hw ⊢
      exact waived_waive hw hle
    · left
      refine ⟨x, ?_, rfl, w, hw, hle⟩
      show x ∈ (s.unpark e.docId).parked
      simp [hx, hd]
  unfold St.settleEntry
  split
  next hplaced =>
    obtain ⟨hw, ho⟩ := unpark_logs (s := s) e.docId
    refine ⟨Same.unpark s e.docId, fun d => by rw [hw]; exact List.Subset.refl _, by rw [ho]; exact List.Subset.refl _,
      by rw [unpark_parked]; exact filter_sublist, ?_, ?_⟩
    · rintro d u ⟨x, hx, rfl, w, hwx, hle⟩
      by_cases hd : x.docId = e.docId
      · right; right
        rw [he x hx hd] at hwx ⊢
        exact ⟨e, mem_singleton.mpr rfl, hplaced, rfl, w, hwx, hle⟩
      · exact .inl ⟨x, by simp [hx, hd], rfl, w, hwx, hle⟩
    · intro x hx _ y hy
      rw [unpark_parked] at hy
      rw [mem_singleton.mp hx]
      simpa using (mem_filter.mp hy).2
  next hplaced =>
    have hres : s.resolves e.docId = false := by simpa using hplaced
    split
    · exact hforget .refused hres
    · split
      · exact hforget .expired hres
      · exact hrest (Parks.refl s) rfl (List.Sublist.refl _) hres fun _ _ => .inl

omit [DecidableEq D] in
theorem Settles.trans {l₁ l₂ : List (Entry D)} (h : Settles l₁ s t) (g : Settles l₂ t r) : Settles (l₁ ++ l₂) s r where
  toSame := h.toSame.trans g.toSame
  waived d := List.Subset.trans (h.waived d) (g.waived d)
  overflowed := List.Subset.trans h.overflowed g.overflowed
  sublist := g.sublist.trans h.sublist
  parked d u hp := by
    rcases h.parked d u hp with hparked | ⟨p, hp, hle⟩ | ⟨e, he, hrest⟩
    · rcases g.parked d u hparked with hstill | hwaived | ⟨e, he, hres, hrest⟩
      · exact .inl hstill
      · exact .inr (.inl hwaived)
      · rw [h.resolves] at hres
        exact .inr (.inr ⟨e, mem_append_right _ he, hres, hrest⟩)
    · exact .inr (.inl ⟨p, g.waived d hp, hle⟩)
    · exact .inr (.inr ⟨e, mem_append_left _ he, hrest⟩)
  gone e he hres x hx := by
    rcases mem_append.mp he with hfirst | hsecond
    · exact h.gone e hfirst hres x (g.sublist.subset hx)
    · exact g.gone e hsecond (by rw [h.resolves]; exact hres) x hx

theorem settles_entries (mark now : ℕ) (l : List (Entry D))
    (hl : ∀ e ∈ l, ∀ x ∈ s.parked, x.docId = e.docId → x = e) : Settles l s (l.foldl (St.settleEntry mark now) s) := by
  induction l generalizing s with
  | nil =>
    exact ⟨Same.refl s, fun _ => List.Subset.refl _, List.Subset.refl _, List.Sublist.refl _, fun _ _ => .inl,
      fun e he => by simp at he⟩
  | cons e l ih =>
    have hfirst := settles_entry mark now (hl e mem_cons_self)
    exact hfirst.trans (ih fun x hx y hy => hl x (mem_cons_of_mem e hx) y (hfirst.sublist.subset hy))

/-- after `settleParked` no document that is placed is parked, and its updates have their places -/
theorem settleParked_spec (h : Inv s) (mark : ℕ) :
    Inv (s.settleParked mark) ∧ ((s.settleParked mark).received = s.received ∧
      (s.settleParked mark).resolves = s.resolves ∧ (s.settleParked mark).parked.Sublist s.parked ∧
      (∀ d, s.resolves d → ∀ x ∈ (s.settleParked mark).parked, x.docId ≠ d) ∧
      ∃ p, (s.settleParked mark).settles = s.settles ++ [p] ∧ ∀ e ∈ s.parked, s.resolves e.docId →
        s.suppressed = some e.docId ∨ s.hot e.docId ∨ (e.docId,
          (s.settleParked mark).ran e.docId + ((s.settleParked mark).coldChains e.docId).length) ∈ p.awaited) ∧
      (∀ d u k, u ∈ s.received d → s.Placed d u k → (s.settleParked mark).Placed d u k) ∧
      (∀ d, s.resolves d → ∀ u ∈ s.received d, ∃ k, (s.settleParked mark).Placed d u k) := by
  have hsettles := settles_entries (s := s) mark s.now s.parked fun e he x hx hd => entry_unique h.keys he hx hd
  have hknown : ∀ d, (s.parked.foldl (St.settleEntry mark s.now) s).hot d →
      (s.parked.foldl (St.settleEntry mark s.now) s).svCache d := by
    intro d
    rw [hsettles.hot, hsettles.svCache]
    exact h.hotKnown d
  obtain ⟨⟨hparked, hreceived, hhot, hsv, hresolves, hset⟩, hplaced, hnew⟩ := applies_place s.ready hknown
  have hmoved : ∀ d u k, u ∈ s.received d → s.Placed d u k → (s.settleParked mark).Placed d u k := by
    intro d u k hu hp
    have hp := hsettles.toSame.placed hsettles.waived hsettles.overflowed hp
    exact hplaced d u k (by rw [hsettles.received]; exact hu) hp
  have hleft : (s.settleParked mark).parked = (s.parked.foldl (St.settleEntry mark s.now) s).parked := hparked
  -- an update that was parked is applied with its entry, given up, or still parked
  have hout : ∀ d u, u ∈ s.received d → s.Parked d u → (s.parked.foldl (St.settleEntry mark s.now) s).Parked d u ∨
      ∃ k, (s.settleParked mark).Placed d u k := by
    intro d u hu hp
    rcases hsettles.parked d u hp with hstill | hwaived | ⟨e, he, hres, rfl, w, hw, hle⟩
    · exact .inl hstill
    · exact .inr ⟨0, hplaced d u 0 (by rw [hsettles.received]; exact hu) (.inr (.inl hwaived))⟩
    · have hready : e ∈ s.ready := mem_filter.mpr ⟨he, hres⟩
      exact .inr (hnew e hready w hw u (by rw [hsettles.received]; exact hu) hle)
  have hsub : (s.settleParked mark).parked.Sublist s.parked := by
    rw [hleft]
    exact hsettles.sublist
  have hgone : ∀ d, s.resolves d → ∀ x ∈ (s.settleParked mark).parked, x.docId ≠ d := by
    rintro d hres x hx rfl
    rw [hleft] at hx
    exact hsettles.gone x (hsettles.sublist.subset hx) hres x hx rfl
  refine ⟨⟨?_, ?_, ?_⟩, ⟨hreceived.trans hsettles.received, hresolves.trans hsettles.resolves, hsub, hgone, ?_⟩, hmoved,
    ?_⟩
  · exact h.keys.sublist (hsub.map _)
  · intro d hd
    refine hsv d (hknown d ?_)
    rw [← hhot]
    exact hd
  · intro d u hu
    have hu : u ∈ s.received d := by
      have heq : (s.settleParked mark).received = s.received := hreceived.trans hsettles.received
      rwa [heq] at hu
    rcases h.safe d u hu with ⟨k, hp⟩ | hp
    · exact .inl ⟨k, hmoved d u k hu hp⟩
    · rcases hout d u hu hp with ⟨x, hx, hrest⟩ | hk
      · exact .inr ⟨x, by rw [hleft]; exact hx, hrest⟩
      · exact .inl hk
  · refine ⟨_, by rw [← hsettles.settles, ← hset]; rfl, ?_⟩
    intro e he hres
    by_cases hs : s.suppressed = some e.docId
    · exact .inl hs
    · by_cases hh : s.hot e.docId
      · exact .inr (.inl hh)
      · refine .inr (.inr (mem_map.mpr ⟨e, mem_filter.mpr ⟨mem_filter.mpr ⟨he, hres⟩, ?_⟩, rfl⟩))
        simp [hs, hh]
  · intro d hres u hu
    rcases h.safe d u hu with ⟨k, hp⟩ | hp
    · exact ⟨k, hmoved d u k hu hp⟩
    · rcases hout d u hu hp with ⟨x, hx, hd, -⟩ | hk
      · rw [← hleft] at hx
        exact absurd hd (hgone d hres x hx)
      · exact hk

/-! ## Every step -/

/-- the end of a pull asks again for what is missing of a placed document, and gives up the others' -/
theorem placed_takeOverflowed (hu : u ∈ s.received d) (hp : s.Placed d u k) :
    s.takeOverflowed.Placed d u k ∧ ¬ s.takeOverflowed.Missing d := by
  refine ⟨?_, fun hm => by simp [St.Missing, St.takeOverflowed] at hm⟩
  rcases hp with hdoc | ⟨p, hp, hle⟩ | ⟨w, hw, hle⟩ | hmissing | hqueued
  · exact .inl hdoc
  · refine .inr (.inl ⟨p, ?_, hle⟩)
    simp only [St.takeOverflowed]
    split
    · exact mem_append_left _ hp
    · exact hp
  · refine .inr (.inr (.inl ⟨w, ?_, hle⟩))
    simp only [St.takeOverflowed]
    split
    · exact mem_append_left _ hw
    · exact hw
  · cases hres : s.resolves d with
    | true =>
      refine .inr (.inr (.inl ⟨u, ?_, le_rfl⟩))
      have hmem : d ∈ s.overflowedDocs := mem_filter.mpr ⟨hmissing.1, by simp [hmissing.2, hres]⟩
      simp only [St.takeOverflowed, if_pos hmem]
      exact mem_append_right _ hu
    | false =>
      refine .inr (.inl ⟨(.unplaced, u), ?_, le_rfl⟩)
      simp only [St.takeOverflowed, hmissing.1, hres, and_self, if_true]
      exact mem_append_right _ (mem_map_of_mem hu)
  · exact .inr (.inr (.inr (.inr hqueued)))

/-- the head of a chain is taken off -/
theorem placed_pop {rest : List Update} (hchain : s.coldChains docId = w :: rest) (hp : s.Placed d u k) :
    St.Placed { s with
      coldChains := Function.update s.coldChains docId rest
      ran := Function.update s.ran docId (s.ran docId + 1) } d u k ∨ (d = docId ∧ u ≤ w) := by
  rcases hp with hdoc | hwaived | hreq | hmissing | ⟨j, v, hj, hle, hk⟩
  · exact .inl (.inl hdoc)
  · exact .inl (.inr (.inl hwaived))
  · exact .inl (.inr (.inr (.inl hreq)))
  · exact .inl (.inr (.inr (.inr (.inl hmissing))))
  · by_cases hd : d = docId
    · subst hd
      rw [hchain] at hj
      cases j with
      | zero =>
        right
        exact ⟨rfl, by rw [Option.some.inj hj]; exact hle⟩
      | succ j =>
        left
        rw [getElem?_cons_succ] at hj
        refine .inr (.inr (.inr (.inr ⟨j, v, ?_, hle, ?_⟩)))
        · simpa only [Function.update_self] using hj
        · simp only [Function.update_self]
          omega
    · left
      refine .inr (.inr (.inr (.inr ⟨j, v, ?_, hle, ?_⟩)))
      · simpa only [Function.update_of_ne hd] using hj
      · simpa only [Function.update_of_ne hd] using hk

/-- the cold apply of a placed document gives the update to a bridge, or has thrown -/
theorem coldApply_placed (hknown : ∀ d, s.hot d → s.svCache d) (size : Update → ℕ) (docId : D) (w : Update)
    (outcome : Outcome) (hwhole : s.resolves docId → outcome ≠ .throws → s.Missing docId → s.Whole docId w)
    (hu : u ∈ s.received d) (hkeys : s.Keys) (hp : s.Placed d u k) :
    (s.coldApply size docId w outcome).Placed d u k := by
  unfold St.coldApply
  split
  next hhot => exact placed_applyRemote docId w (fun hm => absurd hm (missing_of_known (hknown docId hhot))) hu hp
  next =>
    split
    · exact (parks_park size hkeys docId w).1.placed hp
    next hres =>
      have hres : s.resolves docId := by simpa using hres
      cases outcome with
      | throws => exact placed_waive .thrown docId [w] hp
      | merges | lands => exact placed_applyRemote docId w (hwhole hres (by simp)) hu hp

/-- where the update of a cold apply ends up -/
theorem coldApply_head (size : Update → ℕ) (docId : D) (outcome : Outcome) (hkeys : s.Keys) (hle : u ≤ w) (k : ℕ) :
    (s.coldApply size docId w outcome).Placed docId u k ∨
      (s.resolves docId = false ∧ (s.coldApply size docId w outcome).Parked docId u) := by
  unfold St.coldApply
  split
  · left; left
    simp only [St.applyRemote, Function.update_self]
    exact hle.trans le_sup_right
  · split
    next hres =>
      rcases (parks_park size hkeys docId w).2 u hle with hparked | hwaived | hmissing
      · exact .inr ⟨by simpa using hres, hparked⟩
      · exact .inl (.inr (.inl hwaived))
      · exact .inl (.inr (.inr (.inr (.inl hmissing))))
    · left
      cases outcome with
      | throws => exact .inr (.inl (waived_waive (mem_singleton.mpr rfl) hle))
      | merges | lands =>
        left
        simp only [St.applyRemote, Function.update_self]
        exact hle.trans le_sup_right

theorem coldApply_frame (size : Update → ℕ) (docId : D) (w : Update) (outcome : Outcome) (hkeys : s.Keys) :
    (s.coldApply size docId w outcome).Keys ∧ (s.coldApply size docId w outcome).received = s.received ∧
      (s.coldApply size docId w outcome).hot = s.hot ∧
      (∀ d, s.svCache d → (s.coldApply size docId w outcome).svCache d) ∧
      ∀ d u, s.Parked d u → (s.coldApply size docId w outcome).Safe d u := by
  have happly : (s.applyRemote docId w).Keys ∧ (s.applyRemote docId w).received = s.received ∧
      (s.applyRemote docId w).hot = s.hot ∧ (∀ d, s.svCache d → (s.applyRemote docId w).svCache d) ∧
      ∀ d u, s.Parked d u → (s.applyRemote docId w).Safe d u := by
    refine ⟨hkeys, rfl, rfl, fun d hd => ?_, fun d u hp => .inr hp⟩
    by_cases heq : d = docId
    · subst heq
      simp [St.applyRemote]
    · simpa only [St.applyRemote, Function.update_of_ne heq] using hd
  unfold St.coldApply
  split
  · exact happly
  · split
    · have hpark := (parks_park size hkeys docId w).1
      exact ⟨hpark.keys hkeys, hpark.received, hpark.hot, fun d hd => by rw [hpark.svCache]; exact hd,
        fun d u hp => hpark.safe (.inr hp)⟩
    · cases outcome with
      | throws => exact ⟨hkeys, rfl, rfl, fun _ hd => hd, fun d u hp => .inr hp⟩
      | merges | lands => exact happly

/-- the store once the head of a chain is taken off -/
def St.pop (s : St D) (docId : D) (rest : List Update) : St D :=
  { s with
    coldChains := Function.update s.coldChains docId rest
    ran := Function.update s.ran docId (s.ran docId + 1) }

theorem St.coldRuns_cons {size : Update → ℕ} {rest : List Update} (hchain : s.coldChains docId = w :: rest)
    (outcome : Outcome) : s.coldRuns size docId outcome = (s.pop docId rest).coldApply size docId w outcome := by
  unfold St.coldRuns
  rw [hchain]
  rfl

theorem St.coldRuns_nil {size : Update → ℕ} (hchain : s.coldChains docId = []) (outcome : Outcome) :
    s.coldRuns size docId outcome = s := by
  unfold St.coldRuns
  rw [hchain]

/-- access is gone: everything received for the document is given up, the others' places stay -/
theorem drop_spec (s : St D) (docId : D) :
    (∀ d u, u ∈ s.received d → s.Safe d u → (s.drop docId).Safe d u) ∧
      ∀ d u k, u ∈ s.received d → s.Placed d u k → (s.drop docId).Placed d u k := by
  obtain ⟨hwaived, hover⟩ := unpark_logs (s := s) docId
  have hsame := Same.unpark s docId
  have hself : ∀ u ∈ s.received docId, (s.drop docId).Waived docId u := fun u hu => waived_waive hu le_rfl
  have hplaced : ∀ d u k, u ∈ s.received d → s.Placed d u k → (s.drop docId).Placed d u k := by
    intro d u k hu hp
    by_cases hd : d = docId
    · subst hd
      exact .inr (.inl (hself u hu))
    · refine placed_waive .dropped docId _ ?_
      rcases hp with hdoc | ⟨p, hp, hle⟩ | hreq | hmissing | hqueued
      · exact .inl (by simp only [hsame.docs]; exact hdoc)
      · exact .inr (.inl ⟨p, by simp only [hwaived]; exact hp, hle⟩)
      · exact .inr (.inr (.inl (by simp only [St.Requested, hsame.requested]; exact hreq)))
      · refine .inr (.inr (.inr (.inl ⟨?_, ?_⟩)))
        · exact mem_filter.mpr ⟨hmissing.1, by simpa using hd⟩
        · simpa only [Function.update_of_ne hd] using hmissing.2
      · exact .inr (.inr (.inr (.inr (by simp only [St.QueuedBelow, hsame.chains, hsame.ran]; exact hqueued))))
  refine ⟨?_, hplaced⟩
  intro d u hu hsafe
  by_cases hd : d = docId
  · subst hd
    exact .inl ⟨0, .inr (.inl (hself u hu))⟩
  · rcases hsafe with ⟨k, hp⟩ | ⟨e, he, rfl, hrest⟩
    · exact .inl ⟨k, hplaced d u k hu hp⟩
    · refine .inr ⟨e, ?_, rfl, hrest⟩
      show e ∈ (s.unpark docId).parked
      simp [he, hd]

theorem mem_logReceived (hu : u ∈ s.received d) : u ∈ (s.logReceived docId w).received d := by
  by_cases hd : d = docId
  · subst hd
    simp [St.logReceived, hu]
  · simpa only [St.logReceived, Function.update_of_ne hd] using hu

theorem placed_promote (size : Update → ℕ) (docId : D) (hok : Keeps s (.promote docId)) (hu : u ∈ s.received d)
    (hp : s.Placed d u k) : (step size s (.promote docId)).Placed d u k := by
  rcases hp with hdoc | hwaived | hreq | hmissing | hqueued
  · exact .inl hdoc
  · exact .inr (.inl hwaived)
  · exact .inr (.inr (.inl hreq))
  · by_cases hd : d = docId
    · subst hd
      have hwhole := hok hmissing u hu
      rw [sup_bot_eq] at hwhole
      exact .inl hwhole
    · exact .inr (.inr (.inr (.inl ⟨hmissing.1, by simpa only [step, Function.update_of_ne hd] using hmissing.2⟩)))
  · exact .inr (.inr (.inr (.inr hqueued)))

/-- **Step.** What was received keeps its place, while the document is placed. -/
theorem step_placed (h : Inv s) (size : Update → ℕ) (a : Action D) (hok : Keeps s a) (hres : s.resolves d)
    (hu : u ∈ s.received d) (hp : s.Placed d u k) : (step size s a).Placed d u k := by
  cases a with
  | receive docId w =>
    exact placed_applyUpdate (s := s.logReceived docId w) h.hotKnown docId w (mem_logReceived hu) hp
  | coldRuns docId outcome =>
    cases hchain : s.coldChains docId with
    | nil =>
      simp only [step, St.coldRuns_nil hchain]
      exact hp
    | cons w rest =>
      simp only [step, St.coldRuns_cons hchain]
      rcases placed_pop hchain hp with hpop | ⟨rfl, hle⟩
      · exact coldApply_placed (s := s.pop docId rest) h.hotKnown size docId w outcome
          (fun hr ho hm => hok w (by simp [hchain]) hr ho hm) hu h.keys hpop
      · rcases coldApply_head (s := s.pop d rest) size d outcome h.keys hle k with hplaced | ⟨hunplaced, -⟩
        · exact hplaced
        · exact absurd (hres.symm.trans hunplaced) (by simp)
  | settleParked mark => exact (settleParked_spec h mark).2.2.1 d u k hu hp
  | settleEnds i =>
    simp only [step, St.settleEnds]
    split
    · split
      · exact (placed_takeOverflowed hu hp).1
      · exact hp
    · exact hp
  | drop docId => exact (drop_spec s docId).2 d u k hu hp
  | promote docId => exact placed_promote size docId hok hu hp
  | demote docId | registry resolves | setSuppressedDoc docId | tick ms => exact hp

/-- **Step.** Every update received stays safe. -/
theorem Inv.step (h : Inv s) (size : Update → ℕ) (a : Action D) (hok : Keeps s a) : Inv (step size s a) := by
  cases a with
  | receive docId w =>
    obtain ⟨hparked, hreceived, hhot, hsv, -⟩ := applyUpdate_frame (s := s.logReceived docId w) docId w
    have hparked : (s.receive docId w).parked = s.parked := hparked
    refine ⟨?_, ?_, ?_⟩
    · unfold St.Keys
      simp only [ParkedUpdates.step, hparked]
      exact h.keys
    · intro d hd
      simp only [ParkedUpdates.step, St.receive, hhot] at hd ⊢
      exact hsv d (h.hotKnown d hd)
    · intro d u hu
      simp only [ParkedUpdates.step, St.receive, hreceived] at hu
      have hold : u ∈ s.received d → (s.receive docId w).Safe d u := by
        intro hu
        rcases h.safe d u hu with ⟨k, hp⟩ | ⟨e, he, hrest⟩
        · exact .inl ⟨k, placed_applyUpdate (s := s.logReceived docId w) h.hotKnown docId w (mem_logReceived hu) hp⟩
        · exact .inr ⟨e, by rw [hparked]; exact he, hrest⟩
      by_cases hd : d = docId
      · subst hd
        simp only [St.logReceived, Function.update_self] at hu
        rcases mem_snoc.1 hu with hu | hnew
        · exact hold hu
        · rw [hnew]
          exact .inl (applyUpdate_places d le_rfl)
      · simp only [St.logReceived, Function.update_of_ne hd] at hu
        exact hold hu
  | coldRuns docId outcome =>
    cases hchain : s.coldChains docId with
    | nil =>
      simp only [ParkedUpdates.step, St.coldRuns_nil hchain]
      exact h
    | cons w rest =>
      simp only [ParkedUpdates.step, St.coldRuns_cons hchain]
      obtain ⟨hkeys, hreceived, hhot, hsv, hparked⟩ :=
        coldApply_frame (s := s.pop docId rest) size docId w outcome h.keys
      refine ⟨hkeys, fun d hd => hsv d (h.hotKnown d (by rw [hhot] at hd; exact hd)), ?_⟩
      intro d u hu
      rw [hreceived] at hu
      rcases h.safe d u hu with ⟨k, hp⟩ | hp
      · rcases placed_pop hchain hp with hpop | ⟨rfl, hle⟩
        · exact .inl ⟨k, coldApply_placed (s := s.pop docId rest) h.hotKnown size docId w outcome
            (fun hr ho hm => hok w (by simp [hchain]) hr ho hm) hu h.keys hpop⟩
        · rcases coldApply_head (s := s.pop d rest) size d outcome h.keys hle k with hplaced | ⟨-, hpark⟩
          · exact .inl ⟨k, hplaced⟩
          · exact .inr hpark
      · exact hparked d u hp
  | settleParked mark => exact (settleParked_spec h mark).1
  | settleEnds i =>
    simp only [ParkedUpdates.step, St.settleEnds]
    split
    · split
      · refine ⟨h.keys, h.hotKnown, fun d u hu => ?_⟩
        rcases h.safe d u hu with ⟨k, hp⟩ | hp
        · exact .inl ⟨k, (placed_takeOverflowed (s := s) hu hp).1⟩
        · exact .inr hp
      · exact h
    · exact h
  | drop docId =>
    have hsame := Same.unpark s docId
    refine ⟨?_, ?_, ?_⟩
    · have hsub : (s.drop docId).parked.Sublist s.parked := by
        show (s.unpark docId).parked.Sublist s.parked
        rw [unpark_parked]
        exact filter_sublist
      exact h.keys.sublist (hsub.map _)
    · intro d hd
      by_cases heq : d = docId
      · subst heq
        simp [ParkedUpdates.step, St.drop, St.waive] at hd
      · simp only [ParkedUpdates.step, St.drop, St.waive, Function.update_of_ne heq] at hd ⊢
        exact h.hotKnown d hd
    · intro d u hu
      have hu : u ∈ s.received d := by
        simp only [ParkedUpdates.step, St.drop, St.waive, hsame.received] at hu
        exact hu
      exact (drop_spec s docId).1 d u hu (h.safe d u hu)
  | promote docId =>
    refine ⟨h.keys, ?_, ?_⟩
    · intro d hd
      by_cases heq : d = docId
      · subst heq
        simp [ParkedUpdates.step]
      · simp only [ParkedUpdates.step, Function.update_of_ne heq] at hd ⊢
        exact h.hotKnown d hd
    · intro d u hu
      rcases h.safe d u hu with ⟨k, hp⟩ | hp
      · exact .inl ⟨k, placed_promote size docId hok hu hp⟩
      · exact .inr hp
  | demote docId =>
    refine ⟨h.keys, ?_, h.safe⟩
    intro d hd
    by_cases heq : d = docId
    · subst heq
      simp [ParkedUpdates.step] at hd
    · simp only [ParkedUpdates.step, Function.update_of_ne heq] at hd ⊢
      exact h.hotKnown d hd
  | registry resolves | setSuppressedDoc docId | tick ms => exact ⟨h.keys, h.hotKnown, h.safe⟩

/-! ## A completed pull -/

/-- nothing of the document is parked -/
def St.Unparked (s : St D) (docId : D) : Prop := ∀ x ∈ s.parked, x.docId ≠ docId

theorem unparked_evict (n : ℕ) (h : s.Unparked d) : (St.evict n s).Unparked d := by
  induction n generalizing s with
  | zero => exact h
  | succ n ih =>
    unfold St.evict
    split
    · split
      next e _ _ =>
        refine ih fun x hx => ?_
        have hx : x ∈ (s.unpark e.docId).parked := by
          unfold St.overflow at hx
          split at hx <;> exact hx
        rw [unpark_parked] at hx
        exact h x (mem_of_mem_filter hx)
      · exact h
    · exact h

theorem unparked_expire (h : s.Unparked d) : s.expire.Unparked d := by
  have hlist : ∀ (now : ℕ) (l : List (Entry D)) (t : St D), t.Unparked d → St.Unparked
      (l.foldl (fun t e => if PARKED_TTL_MS < now - e.since then t.forget .expired e else t) t) d := by
    intro now l
    induction l with
    | nil => exact fun _ ht => ht
    | cons e l ih =>
      intro t ht
      rw [foldl_cons]
      split
      · refine ih _ fun x hx => ?_
        have hx : x ∈ (t.unpark e.docId).parked := hx
        rw [unpark_parked] at hx
        exact ht x (mem_of_mem_filter hx)
      · exact ih t ht
  exact hlist s.now s.parked s h

/-- another document's update parks nothing for this one -/
theorem unparked_park (size : Update → ℕ) (hd : docId ≠ d) (u : Update) (h : s.Unparked d) :
    (s.park size docId u).Unparked d := by
  have hexpire := unparked_expire h
  unfold St.park
  dsimp only
  split
  · intro x hx
    have hx : x ∈ (s.expire.unpark docId).parked := by
      unfold St.overflow at hx
      split at hx <;> exact hx
    rw [unpark_parked] at hx
    exact hexpire x (mem_of_mem_filter hx)
  · refine unparked_evict _ fun x hx => ?_
    unfold St.addTo at hx
    split at hx
    · obtain ⟨y, hy, rfl⟩ := mem_map.mp hx
      have hdoc := hexpire y hy
      split
      · exact hdoc
      · exact hdoc
    · rcases mem_snoc.1 hx with hold | hnew
      · exact hexpire x hold
      · rw [hnew]
        exact hd

/-- what a pull under way relies on while its document stays placed -/
theorem coldApply_keeps (size : Update → ℕ) (docId : D) (w : Update) (outcome : Outcome) (hkeys : s.Keys)
    (hres : s.resolves d) (h : s.Unparked d) :
    (s.coldApply size docId w outcome).resolves = s.resolves ∧
      (s.coldApply size docId w outcome).settles = s.settles ∧ (s.coldApply size docId w outcome).Unparked d := by
  unfold St.coldApply
  split
  · exact ⟨rfl, rfl, h⟩
  · split
    next hunplaced =>
      have hpark := (parks_park size hkeys docId w).1
      have hd : docId ≠ d := by
        rintro rfl
        simp [hres] at hunplaced
      exact ⟨hpark.resolves, hpark.settles, unparked_park size hd w h⟩
    · cases outcome <;> exact ⟨rfl, rfl, h⟩

/-- the document stays placed from here on -/
def StaysPlaced (docId : D) (as : List (Action D)) : Prop := ∀ resolves, .registry resolves ∈ as → resolves docId

theorem step_keeps (h : Inv s) (size : Update → ℕ) (a : Action D) (hres : s.resolves d) (hun : s.Unparked d)
    (hstay : ∀ resolves, a = .registry resolves → resolves d) {i : ℕ} {p : Settle D} (hp : s.settles[i]? = some p) :
    (step size s a).resolves d ∧ (step size s a).Unparked d ∧
      ∃ p', (step size s a).settles[i]? = some p' ∧ p'.awaited = p.awaited := by
  cases a with
  | receive docId w =>
    obtain ⟨hparked, -, -, -, hresolves, hset⟩ := applyUpdate_frame (s := s.logReceived docId w) docId w
    simp only [step, St.receive, St.Unparked, hparked, hresolves, hset]
    exact ⟨hres, hun, p, hp, rfl⟩
  | coldRuns docId outcome =>
    cases hchain : s.coldChains docId with
    | nil =>
      simp only [step, St.coldRuns_nil hchain]
      exact ⟨hres, hun, p, hp, rfl⟩
    | cons w rest =>
      simp only [step, St.coldRuns_cons hchain]
      obtain ⟨hresolves, hset, hun'⟩ := coldApply_keeps (s := s.pop docId rest) size docId w outcome h.keys hres hun
      exact ⟨by rw [hresolves]; exact hres, hun', p, by rw [hset]; exact hp, rfl⟩
  | settleParked mark =>
    obtain ⟨-, ⟨-, hresolves, -, hgone, q, hset, -⟩, -⟩ := settleParked_spec h mark
    simp only [step]
    refine ⟨by rw [hresolves]; exact hres, hgone d hres, p, ?_, rfl⟩
    rw [hset, List.getElem?_snoc_of hp]
  | settleEnds j =>
    simp only [step, St.settleEnds]
    split
    next q hq =>
      split
      · refine ⟨hres, hun, ?_⟩
        by_cases hij : j = i
        · subst hij
          rw [hp] at hq
          cases hq
          exact ⟨_, List.getElem?_set_self (List.getElem?_eq_some_iff.mp hp).1, rfl⟩
        · exact ⟨p, by rw [List.getElem?_set_ne hij, hp], rfl⟩
      · exact ⟨hres, hun, p, hp, rfl⟩
    next => exact ⟨hres, hun, p, hp, rfl⟩
  | drop docId =>
    have hsame := Same.unpark s docId
    refine ⟨?_, ?_, p, ?_, rfl⟩
    · simp only [step, St.drop, St.waive, hsame.resolves]
      exact hres
    · intro x hx
      have hx : x ∈ (s.unpark docId).parked := hx
      rw [unpark_parked] at hx
      exact hun x (List.mem_of_mem_filter hx)
    · simp only [step, St.drop, St.waive, hsame.settles]
      exact hp
  | promote docId | demote docId | setSuppressedDoc docId | tick ms => exact ⟨hres, hun, p, hp, rfl⟩
  | registry resolves => exact ⟨hstay resolves rfl, hun, p, hp, rfl⟩

/-- what was received stays received -/
theorem step_received (h : Inv s) (size : Update → ℕ) (a : Action D) (hu : u ∈ s.received d) :
    u ∈ (step size s a).received d := by
  cases a with
  | receive docId w =>
    simp only [step, St.receive, (applyUpdate_frame (s := s.logReceived docId w) docId w).2.1]
    exact mem_logReceived hu
  | coldRuns docId outcome =>
    cases hchain : s.coldChains docId with
    | nil =>
      simp only [step, St.coldRuns_nil hchain]
      exact hu
    | cons w rest =>
      simp only [step, St.coldRuns_cons hchain]
      rw [(coldApply_frame (s := s.pop docId rest) size docId w outcome h.keys).2.1]
      exact hu
  | settleParked mark =>
    simp only [step, (settleParked_spec h mark).2.1.1]
    exact hu
  | settleEnds i =>
    simp only [step, St.settleEnds]
    split
    · split <;> exact hu
    · exact hu
  | drop docId =>
    simp only [step, St.drop, St.waive, (Same.unpark s docId).received]
    exact hu
  | promote docId | demote docId | registry resolves | setSuppressedDoc docId | tick ms => exact hu

/-- **Run.** Over a run that leaves the document placed, what was received keeps its place, nothing is parked, and the
pull waits for the cold applies it has queued. -/
theorem run_keeps (size : Update → ℕ) {as : List (Action D)} (h : Inv s)
    (hguard : Machine.Guarded (step size) Keeps s as) (hstay : StaysPlaced d as) (hres : s.resolves d)
    (hun : s.Unparked d) {i : ℕ} {p : Settle D} (hp : s.settles[i]? = some p) :
    Inv (run size s as) ∧ (run size s as).resolves d ∧ (run size s as).Unparked d ∧
      (∃ p', (run size s as).settles[i]? = some p' ∧ p'.awaited = p.awaited) ∧
      ∀ u ∈ s.received d, u ∈ (run size s as).received d ∧ ∀ k, s.Placed d u k → (run size s as).Placed d u k := by
  induction as generalizing s p with
  | nil => exact ⟨h, hres, hun, ⟨p, hp, rfl⟩, fun u hu => ⟨hu, fun _ hk => hk⟩⟩
  | cons a as ih =>
    obtain ⟨hok, hrest⟩ := hguard
    have hnext := h.step size a hok
    obtain ⟨hres', hun', q, hq, heq⟩ := step_keeps h size a hres hun
      (fun resolves ha => hstay resolves (by rw [ha]; exact .head _)) hp
    obtain ⟨hinv, hplaced, hunparked, ⟨p', hp', heq'⟩, hall⟩ := ih hnext hrest
      (fun resolves ha => hstay resolves (mem_cons_of_mem a ha)) hres' hun' hq
    refine ⟨hinv, hplaced, hunparked, ⟨p', hp', heq'.trans heq⟩, ?_⟩
    intro u hu
    obtain ⟨hlast, hkeep⟩ := hall u (step_received h size a hu)
    exact ⟨hlast, fun k hk => hkeep k (step_placed h size a hok hres hu hk)⟩

omit [DecidableEq D] in
theorem Inv.opened (svCache : D → Bool) (docs : D → Update) : Inv (opened svCache docs) where
  keys := nodup_nil
  hotKnown d hd := by simp [ParkedUpdates.opened] at hd
  safe d u hu := by simp [ParkedUpdates.opened] at hu

omit [DecidableEq D] in
/-- a place in the chain is below the chain's end -/
theorem placed_bound (hp : s.Placed d u k) : s.Placed d u (s.ran d + (s.coldChains d).length) := by
  rcases hp with hdoc | hwaived | hreq | hmissing | ⟨j, w, hj, hle, -⟩
  · exact .inl hdoc
  · exact .inr (.inl hwaived)
  · exact .inr (.inr (.inl hreq))
  · exact .inr (.inr (.inr (.inl hmissing)))
  · have hlt := (List.getElem?_eq_some_iff.mp hj).1
    exact .inr (.inr (.inr (.inr ⟨j, w, hj, hle, by omega⟩)))

/-- applied, given up by a rule of the store, or asked for again -/
def St.Accounted (s : St D) (docId : D) (u : Update) : Prop :=
  u ≤ s.docs docId ∨ s.Waived docId u ∨ s.Requested docId u

/-- the applies of the document, if any, are none a pull that starts here waits for -/
def St.NotAwaited (s : St D) (docId : D) : Prop :=
  ∀ e ∈ s.parked, e.docId = docId → s.suppressed = some docId ∨ s.hot docId

/-- **A completed pull.** `before` is a run of the store, and `settleParked` runs in the state it ends in, with the
document placed; it stays placed, and when the applies the pull waits for have run, `takeOverflowed` ends the pull.
Where no document whose updates were evicted has got a manifest entry before it was whole, every update received for
the document has then been applied, was given up by a rule, or is asked for again; only an update whose own cold apply
the pull does not wait for may still be queued. -/
theorem pull_settles (size : Update → ℕ) (svCache : D → Bool) (docs : D → Update) {before during : List (Action D)}
    {mark : ℕ} {d : D} {s t : St D} (hbefore : Machine.Guarded (step size) Keeps (opened svCache docs) before)
    (hs : run size (opened svCache docs) before = s)
    (hduring : Machine.Guarded (step size) Keeps s (.settleParked mark :: during))
    (ht : run size s (.settleParked mark :: during) = t) (hplaced : s.resolves d) (hstay : StaysPlaced d during)
    {p : Settle D} (hp : t.settles[s.settles.length]? = some p) (hsettled : t.settled p) (u : Update)
    (hu : u ∈ t.received d) :
    (step size t (.settleEnds s.settles.length)).Accounted d u ∨
      ((step size t (.settleEnds s.settles.length)).Queued d u ∧ (u ∈ s.received d → s.NotAwaited d)) := by
  have hinv : Inv s := by
    rw [← hs]
    exact Machine.run_inv (fun _ a h hok => h.step size a hok) (Inv.opened svCache docs) hbefore
  obtain ⟨hinv', ⟨hreceived, hresolves, -, hgone, q, hset, hawaited⟩, -, hnew⟩ := settleParked_spec hinv mark
  have hq : (s.settleParked mark).settles[s.settles.length]? = some q := by rw [hset]; simp
  have hplaced' : (s.settleParked mark).resolves d := by rw [hresolves]; exact hplaced
  obtain ⟨hinvt, -, hun, ⟨p', hp', heq⟩, hall⟩ := run_keeps size hinv' hduring.2 hstay hplaced' (hgone d hplaced) hq
  have hrun : run size (s.settleParked mark) during = t := ht
  rw [hrun] at hinvt hun hp' hall
  have hend : ∀ k, t.Placed d u k → (step size t (.settleEnds s.settles.length)).Placed d u k ∧
      ¬ (step size t (.settleEnds s.settles.length)).Missing d := by
    intro k hk
    simp only [step, St.settleEnds, hp, hsettled, if_true]
    exact placed_takeOverflowed (s := t) hu hk
  -- a place is an account or a place in the chain
  have hcases : ∀ k, t.Placed d u k → (step size t (.settleEnds s.settles.length)).Accounted d u ∨
      (step size t (.settleEnds s.settles.length)).QueuedBelow d u k := by
    intro k hk
    obtain ⟨hplace, hnot⟩ := hend k hk
    rcases hplace with hdoc | hwaived | hreq | hmissing | hqueued
    · exact .inl (.inl hdoc)
    · exact .inl (.inr (.inl hwaived))
    · exact .inl (.inr (.inr hreq))
    · exact absurd hmissing hnot
    · exact .inr hqueued
  have hran : (step size t (.settleEnds s.settles.length)).ran = t.ran := by
    simp only [step, St.settleEnds, hp, hsettled, if_true]
    rfl
  by_cases hold : u ∈ s.received d ∧ ¬ s.NotAwaited d
  · left
    obtain ⟨husd, hnot⟩ := hold
    obtain ⟨e, he, rfl, hcold⟩ : ∃ e ∈ s.parked, e.docId = d ∧ ¬ (s.suppressed = some d ∨ s.hot d) := by
      simpa [St.NotAwaited] using hnot
    rcases hawaited e he hplaced with h | h | hmem
    · exact absurd (.inl h) hcold
    · exact absurd (.inr h) hcold
    · obtain ⟨k, hk⟩ := hnew e.docId hplaced u husd
      have hplace := (hall u (by rw [hreceived]; exact husd)).2 _ (placed_bound hk)
      rcases hcases _ hplace with hacc | ⟨j, w, -, -, hlt⟩
      · exact hacc
      · -- the apply numbered so has run
        rw [hp] at hp'
        rw [← Option.some.inj hp'] at heq
        rw [← heq] at hmem
        have hdone : (t.settled p) = true := hsettled
        simp only [St.settled, Bool.and_eq_true, all_eq_true, decide_eq_true_eq] at hdone
        have hle := (hdone.2 _ hmem).1
        rw [hran] at hlt
        dsimp only at hle
        omega
  · rcases hinvt.safe d u hu with ⟨k, hk⟩ | ⟨x, hx, hd, -⟩
    · rcases hcases k hk with hacc | ⟨j, w, hj, hle, -⟩
      · exact .inl hacc
      · refine .inr ⟨⟨w, mem_of_getElem? hj, hle⟩, fun husd => ?_⟩
        by_contra hnot
        exact hold ⟨husd, hnot⟩
    · exact absurd hd (hun x hx)

end

end

/-! ## Pulls -/

/-- client 1 has written a base and goes on -/
def base : Update := ⟨{⟨1, 0⟩}, ∅⟩

def delta : Update := ⟨{⟨1, 1⟩}, ∅⟩

/-- every note is on the server only -/
def empty : St ℕ := opened (fun _ => false) fun _ => ⊥

def arrives (u : Update) : List (Action ℕ) := [.receive 0 u, .coldRuns 0 .lands]

def one (_ : Update) : ℕ := 1

/-- the base is parked, and a pull places the note -/
def placedRun : List (Action ℕ) := arrives base ++ [.registry fun _ => true]

def pull : List (Action ℕ) := [.settleParked 0, .coldRuns 0 .lands]

theorem parked_base_applied :
    base ≤ (step one (run one (run one empty placedRun) pull) (.settleEnds 0)).docs 0 := by
  have hbefore : Machine.Guarded (step one) Keeps empty placedRun := by decide
  have hduring : Machine.Guarded (step one) Keeps (run one empty placedRun) pull := by decide
  have hstay : StaysPlaced 0 [Action.coldRuns 0 .lands] := by simp [StaysPlaced]
  rcases pull_settles one (fun _ => false) (fun _ => ⊥) hbefore rfl hduring rfl (by decide) hstay rfl (by decide) base
    (by decide) with (h | h | h) | ⟨h, -⟩
  · exact h
  · exact absurd h (by unfold St.Waived; decide)
  · exact absurd h (by unfold St.Requested; decide)
  · exact absurd h (by unfold St.Queued; decide)

/-- the base is too big to park; the delta is parked; the pull places the note -/
def evictedRun : List (Action ℕ) :=
  arrives base ++ arrives delta ++ [.registry fun _ => true, .settleParked 0, .coldRuns 0 .lands, .settleEnds 0]

def sizes (u : Update) : ℕ := if u = base then PARKED_BYTES_CAP + 1 else 1

/-- a pull that started after the base was parked has not placed the note; the next one has -/
def refusedRun : List (Action ℕ) :=
  arrives base ++ [.settleParked 1, .settleEnds 0, .registry fun _ => true, .settleParked 1, .settleEnds 1]

/-- a pull has ended, the document is placed, and an update received for it was neither applied nor asked for again -/
def Lost (s : St ℕ) (u : Update) : Prop :=
  s.settles.getLast?.any Settle.ended ∧ s.resolves 0 ∧ u ∈ s.received 0 ∧ ¬ u ≤ s.docs 0 ∧ s.requested 0 = [] ∧
    s.coldChains 0 = [] ∧ s.parked = [] ∧ s.overflowed = []

instance (s : St ℕ) (u : Update) : Decidable (Lost s u) := inferInstanceAs (Decidable (_ ∧ _))

/-- **Lost, and complete to look at.** The delta of an evicted base gives the note an entry in the manifest and a report
that it has converged; and by rule a pull that has not placed a note gives its parked updates up. -/
theorem evicted_base_looks_complete :
    Lost (run sizes empty evictedRun) base ∧ (run sizes empty evictedRun).waived 0 = [] ∧
      (run sizes empty evictedRun).svCache 0 ∧ (run sizes empty evictedRun).converged 0 ∧
    Lost (run one empty refusedRun) base := by decide +kernel

end Baalda.ParkedUpdates
