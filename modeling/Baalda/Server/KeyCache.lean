/-
The vault key cache (crypto/key-cache.ts): keys kept in memory for background work, by reference counts, a grace time
after the last release and holds that requests ask for.

The cache is modelled with its buffers, since it zeroes them: an entry names the buffer its key is in, `get` copies it
into a new one. A release is the closure that `acquire` returned; it knows its entry, which may have been evicted and
replaced. `Life` says what an entry is for, in terms of what happened to it: who holds it, when a holder last released
it, which request holds were taken and which keys were presented. The cache is proved to refine it (`refines_step`).

`key_lifetime`: a vault's key is returned exactly while its life goes on, and it is the presented one of the highest
generation; the release of an evicted entry's holder changes no entry; no copy is zeroed.
-/
import Baalda.Lib.Machine
import Mathlib.Data.List.AList
import Baalda.Lib.Slots

namespace Baalda.KeyCache

open List

/-! ## Model -/

abbrev Bytes := List UInt8

def KEY_BYTES : ℕ := 32

def KEY_CACHE_GRACE_MS : ℕ := 10 * 60 * 1000

/-- How long a request's verified key keeps the vault keyed for background work after the request. -/
def REQUEST_KEY_HOLD_MS : ℕ := 15 * 60 * 1000

structure Entry where
  /-- which entry it is, also once it is evicted -/
  object : ℕ
  /-- the buffer -/
  key : ℕ
  generation : ℕ
  refs : ℕ
  expiresAt : Option ℕ
  heldUntil : ℕ
  deriving DecidableEq

def Entry.expired (e : Entry) (t : ℕ) : Bool := e.refs = 0 && e.expiresAt.any (· ≤ t)

/-- what `acquire` returns -/
structure Closure (V : Type*) where
  vaultId : V
  held : ℕ
  released : Bool := false
  deriving DecidableEq

structure VaultKeyCache (V : Type*) where
  entries : AList fun _ : V => Entry := ∅
  buffers : ℕ → Bytes := fun _ => []
  allocated : ℕ := 0
  objects : ℕ := 0
  /-- one for each `acquire`; `none`: it threw -/
  closures : List (Option (Closure V)) := []
  /-- the buffers that `get` handed out, and what was in them -/
  copies : List (ℕ × Bytes) := []
  now : ℕ := 0

inductive Action (V : Type*) where
  /-- time passes -/
  | tick (ms : ℕ)
  | acquire (vaultId : V) (key : Bytes) (generation : ℕ)
  /-- the closure of the `i`th `acquire` is called -/
  | release (i : ℕ)
  | holdForRequest (vaultId : V) (key : Bytes) (generation holdMs : ℕ)
  | get (vaultId : V)
  | has (vaultId : V)
  | sweep
  | evict (vaultId : V)
  deriving DecidableEq

variable {V : Type*} [DecidableEq V] (graceMs : ℕ)

namespace VaultKeyCache

variable (s : VaultKeyCache V)

def entry (vaultId : V) : Option Entry := s.entries.lookup vaultId

def set (vaultId : V) (e : Entry) : VaultKeyCache V := { s with entries := s.entries.insert vaultId e }

/-- `key.fill(0)` -/
def zero (key : ℕ) : VaultKeyCache V :=
  { s with buffers := Function.update s.buffers key ((s.buffers key).map fun _ => 0) }

/-- `Buffer.from(key)`, in the buffer `s.allocated` -/
def alloc (key : Bytes) : VaultKeyCache V :=
  { s with buffers := Function.update s.buffers s.allocated key, allocated := s.allocated + 1 }

def evict (vaultId : V) : VaultKeyCache V := match s.entry vaultId with
  | none => s
  | some e => { s.zero e.key with entries := s.entries.erase vaultId }

def sweep : VaultKeyCache V :=
  s.entries.entries.foldl (fun c e => if e.2.expired s.now then c.evict e.1 else c) s

/-- a new entry -/
def create (vaultId : V) (key : Bytes) (generation refs : ℕ) (expiresAt : Option ℕ) (heldUntil : ℕ) : VaultKeyCache V :=
  { (s.alloc key).set vaultId ⟨s.objects, s.allocated, generation, refs, expiresAt, heldUntil⟩ with
    objects := s.objects + 1 }

/-- the key of a higher generation in place of the entry's -/
def rotate (vaultId : V) (e : Entry) (key : Bytes) (generation : ℕ) : VaultKeyCache V :=
  ((s.zero e.key).alloc key).set vaultId { e with key := s.allocated, generation := generation }

/-- one more holder of the vault's entry -/
def hold (vaultId : V) : VaultKeyCache V := match s.entry vaultId with
  | none => s
  | some e => { s.set vaultId { e with refs := e.refs + 1, expiresAt := none } with
      closures := s.closures ++ [some ⟨vaultId, e.object, false⟩] }

def throws : VaultKeyCache V := { s with closures := s.closures ++ [none] }

def acquire (vaultId : V) (key : Bytes) (generation : ℕ) : VaultKeyCache V :=
  if key.length ≠ KEY_BYTES then s.throws
  else match s.sweep.entry vaultId with
    | none => (s.sweep.create vaultId key generation 0 none 0).hold vaultId
    | some e =>
      if e.generation < generation then (s.sweep.rotate vaultId e key generation).hold vaultId
      else if generation = e.generation ∧ s.sweep.buffers e.key ≠ key then s.sweep.throws
      else s.sweep.hold vaultId

/-- the closure: only the first call counts, and only for the entry it was made for -/
def release (i : ℕ) : VaultKeyCache V := match s.closures[i]? with
  | some (some c) =>
    if c.released then s
    else
      let s := { s with closures := s.closures.set i (some { c with released := true }) }
      match s.entry c.vaultId with
      | none => s
      | some e =>
        if e.object ≠ c.held then s
        else
          let refs := e.refs - 1
          s.set c.vaultId { e with
            refs := refs, expiresAt := if refs = 0 then some (max (s.now + graceMs) e.heldUntil) else e.expiresAt }
  | _ => s

/-- the last lines of `holdForRequest` -/
def extend (vaultId : V) (til : ℕ) : VaultKeyCache V := match s.entry vaultId with
  | none => s
  | some e => s.set vaultId { e with
      heldUntil := max e.heldUntil til,
      expiresAt := if e.refs = 0 then some (max (e.expiresAt.getD 0) til) else e.expiresAt }

def holdForRequest (vaultId : V) (key : Bytes) (generation holdMs : ℕ) : VaultKeyCache V :=
  if key.length ≠ KEY_BYTES then s
  else
    let til := s.now + holdMs
    match s.sweep.entry vaultId with
    | none => s.sweep.create vaultId key generation 0 (some til) til
    | some e =>
      if e.generation < generation then (s.sweep.rotate vaultId e key generation).extend vaultId til
      else if generation = e.generation ∧ s.sweep.buffers e.key ≠ key then s.sweep
      else if generation < e.generation then s.sweep
      else s.sweep.extend vaultId til

/-- the key and its generation; the state has the copy -/
def get (vaultId : V) : Option (Bytes × ℕ) × VaultKeyCache V := match s.sweep.entry vaultId with
  | none => (none, s.sweep)
  | some e =>
    let key := s.sweep.buffers e.key
    (some (key, e.generation), { s.sweep.alloc key with copies := s.sweep.copies ++ [(s.sweep.allocated, key)] })

def has (vaultId : V) : Bool × VaultKeyCache V := ((s.sweep.entry vaultId).isSome, s.sweep)

end VaultKeyCache

def step (s : VaultKeyCache V) : Action V → VaultKeyCache V
  | .tick ms => { s with now := s.now + ms }
  | .acquire vaultId key generation => s.acquire vaultId key generation
  | .release i => s.release graceMs i
  | .holdForRequest vaultId key generation holdMs => s.holdForRequest vaultId key generation holdMs
  | .get vaultId => (s.get vaultId).2
  | .has vaultId => (s.has vaultId).2
  | .sweep => s.sweep
  | .evict vaultId => s.evict vaultId

def run (as : List (Action V)) : VaultKeyCache V := Machine.run (step graceMs) {} as

/-! ## What an entry is for -/

/-- what has happened to a vault's key since it was first presented, or evicted -/
structure Life where
  /-- the calls of `acquire` that are not released -/
  holders : Finset ℕ := ∅
  /-- when a holder last released it -/
  released : Option ℕ := none
  /-- when the request holds run out that were taken: not those of a key that is refused -/
  holds : List ℕ := []
  /-- when they would have run out that requests asked for -/
  requests : List ℕ := []
  /-- the keys that were taken. refused are a second key of one generation, and a request's of a lower one -/
  presented : List (ℕ × Bytes) := []

namespace Life

variable (l : Life)

/-- a grace time or a hold goes on -/
def Lingers (t : ℕ) : Prop := (∃ r ∈ l.released, t < r + graceMs) ∨ ∃ til ∈ l.holds, t < til

/-- an unreleased holder, less than the grace time since the last release, or a request hold that has not run out -/
def Alive (t : ℕ) : Prop := l.holders ≠ ∅ ∨ l.Lingers graceMs t

/-- the same with every request's hold, taken or not -/
def AliveByRequests (t : ℕ) : Prop :=
  l.holders ≠ ∅ ∨ (∃ r ∈ l.released, t < r + graceMs) ∨ ∃ til ∈ l.requests, t < til

instance (t : ℕ) : Decidable (l.Lingers graceMs t) :=
  inferInstanceAs (Decidable ((∃ r ∈ l.released, t < r + graceMs) ∨ ∃ til ∈ l.holds, t < til))

instance (t : ℕ) : Decidable (l.Alive graceMs t) :=
  inferInstanceAs (Decidable (l.holders ≠ ∅ ∨ l.Lingers graceMs t))

instance (t : ℕ) : Decidable (l.AliveByRequests graceMs t) :=
  inferInstanceAs (Decidable (l.holders ≠ ∅ ∨ (∃ r ∈ l.released, t < r + graceMs) ∨ ∃ til ∈ l.requests, t < til))

/-- the first that was presented of the highest generation -/
def top : Option (ℕ × Bytes) := l.presented.argmax (·.1)

/-- another key of the highest generation -/
def clashes (generation : ℕ) (key : Bytes) : Bool := l.top.any fun p => p.1 = generation && p.2 ≠ key

def outranks (generation : ℕ) : Bool := l.top.any fun p => generation < p.1

end Life

/-- the lives of all vaults' keys; a life that is over begins anew with the next key -/
structure Lives (V : Type*) where
  life : V → Life := fun _ => {}
  calls : ℕ := 0
  now : ℕ := 0

namespace Lives

variable (a : Lives V)

def current (vaultId : V) : Life := if (a.life vaultId).Alive graceMs a.now then a.life vaultId else {}

def set (vaultId : V) (l : Life) : Lives V := { a with life := Function.update a.life vaultId l }

def acquire (vaultId : V) (key : Bytes) (generation : ℕ) : Lives V :=
  let l := a.current graceMs vaultId
  if key.length ≠ KEY_BYTES ∨ l.clashes generation key then { a with calls := a.calls + 1 }
  else { a.set vaultId { l with
      holders := insert a.calls l.holders, presented := l.presented ++ [(generation, key)] } with calls := a.calls + 1 }

def release (i : ℕ) : Lives V :=
  { a with life := fun vaultId =>
      let l := a.life vaultId
      if i ∈ l.holders then { l with holders := l.holders.erase i, released := some a.now } else l }

def holdForRequest (vaultId : V) (key : Bytes) (generation holdMs : ℕ) : Lives V :=
  let l := a.current graceMs vaultId
  let til := a.now + holdMs
  if key.length ≠ KEY_BYTES then a
  else if l.clashes generation key ∨ l.outranks generation then
    a.set vaultId { l with requests := l.requests ++ [til] }
  else a.set vaultId { l with
      holds := l.holds ++ [til], requests := l.requests ++ [til], presented := l.presented ++ [(generation, key)] }

def step (a : Lives V) : Action V → Lives V
  | .tick ms => { a with now := a.now + ms }
  | .acquire vaultId key generation => a.acquire graceMs vaultId key generation
  | .release i => a.release i
  | .holdForRequest vaultId key generation holdMs => a.holdForRequest graceMs vaultId key generation holdMs
  | .get _ | .has _ | .sweep => a
  | .evict vaultId => a.set vaultId {}

def run (as : List (Action V)) : Lives V := Machine.run (Lives.step graceMs) {} as

end Lives

/-! ## Entries and buffers -/

section

variable {graceMs : ℕ} {s s' : VaultKeyCache V}

namespace VaultKeyCache

theorem entry_set (s : VaultKeyCache V) (v v' : V) (e : Entry) :
    (s.set v e).entry v' = if v' = v then some e else s.entry v' := by
  split
  · next h =>
    rw [h]
    exact AList.lookup_insert _
  · next h => exact AList.lookup_insert_ne h

theorem entry_evict (s : VaultKeyCache V) (v v' : V) :
    (s.evict v).entry v' = if v' = v then none else s.entry v' := by
  unfold evict
  split
  · next hnone =>
    split
    · next h => rw [h, hnone]
    · rfl
  · next e he =>
    change (s.entries.erase v).lookup v' = _
    split
    · next h => rw [h, AList.lookup_erase]
    · next h => exact AList.lookup_erase_ne h

/-- nothing but entries and buffers differs -/
structure Frame (s s' : VaultKeyCache V) : Prop where
  allocated : s'.allocated = s.allocated
  objects : s'.objects = s.objects
  closures : s'.closures = s.closures
  copies : s'.copies = s.copies
  now : s'.now = s.now

theorem Frame.trans {s'' : VaultKeyCache V} (h : Frame s s') (h' : Frame s' s'') : Frame s s'' :=
  ⟨h'.allocated.trans h.allocated, h'.objects.trans h.objects, h'.closures.trans h.closures,
    h'.copies.trans h.copies, h'.now.trans h.now⟩

theorem frame_evict (s : VaultKeyCache V) (v : V) : Frame s (s.evict v) := by
  unfold evict
  split <;> exact ⟨rfl, rfl, rfl, rfl, rfl⟩

theorem buffers_evict {v : V} {a : ℕ} (h : ∀ e, s.entry v = some e → e.key ≠ a) :
    (s.evict v).buffers a = s.buffers a := by
  unfold evict
  split
  · rfl
  · next e he => exact Function.update_of_ne (h e he).symm _ _

/-- the entries that are evicted one after the other, and the rest of the cache -/
theorem foldl_evict (p : Entry → Bool) (l : List (Sigma fun _ : V => Entry)) (s : VaultKeyCache V) :
    Frame s (l.foldl (fun c e => if p e.2 then c.evict e.1 else c) s) ∧
      (∀ v, (l.foldl (fun c e => if p e.2 then c.evict e.1 else c) s).entry v =
        if ∃ x ∈ l, x.1 = v ∧ p x.2 = true then none else s.entry v) ∧
      ∀ a, (∀ v e, s.entry v = some e → e.key = a → ¬ ∃ x ∈ l, x.1 = v ∧ p x.2 = true) →
        (l.foldl (fun c e => if p e.2 then c.evict e.1 else c) s).buffers a = s.buffers a := by
  induction l generalizing s with
  | nil => exact ⟨⟨rfl, rfl, rfl, rfl, rfl⟩, by simp, fun _ _ => rfl⟩
  | cons x l ih =>
    rw [foldl_cons]
    by_cases hx : p x.2 = true
    · rw [if_pos hx]
      obtain ⟨hframe, hentry, hbuffers⟩ := ih (s.evict x.1)
      refine ⟨(frame_evict s x.1).trans hframe, ?_, ?_⟩
      · intro v
        rw [hentry, entry_evict]
        by_cases hv : v = x.1
        · rw [if_pos hv, ite_self, if_pos ⟨x, .head _, hv.symm, hx⟩]
        · have hiff : (∃ y ∈ x :: l, y.1 = v ∧ p y.2 = true) ↔ ∃ y ∈ l, y.1 = v ∧ p y.2 = true := by
            simp [Ne.symm hv]
          rw [if_neg hv, if_congr hiff rfl rfl]
      · intro a ha
        rw [hbuffers, buffers_evict]
        · intro e he hkey
          exact ha x.1 e he hkey ⟨x, .head _, rfl, hx⟩
        · intro v e he hkey hlater
          rw [entry_evict] at he
          split at he
          · cases he
          · obtain ⟨y, hy, hyv⟩ := hlater
            exact ha v e he hkey ⟨y, .tail _ hy, hyv⟩
    · rw [if_neg hx]
      obtain ⟨hframe, hentry, hbuffers⟩ := ih s
      have hiff : ∀ v, (∃ y ∈ x :: l, y.1 = v ∧ p y.2 = true) ↔ ∃ y ∈ l, y.1 = v ∧ p y.2 = true := by
        intro v
        simp [hx]
      refine ⟨hframe, ?_, ?_⟩
      · intro v
        rw [hentry, if_congr (hiff v) rfl rfl]
      · intro a ha
        exact hbuffers a fun v e he hkey hlater => ha v e he hkey ((hiff v).2 hlater)

theorem frame_sweep (s : VaultKeyCache V) : Frame s s.sweep :=
  (foldl_evict (fun e => e.expired s.now) s.entries.entries s).1

theorem entry_sweep (s : VaultKeyCache V) (v : V) :
    s.sweep.entry v = (s.entry v).filter fun e => !e.expired s.now := by
  have hmem : ∀ e, ⟨v, e⟩ ∈ s.entries.entries ↔ s.entry v = some e := fun e => (AList.mem_lookup_iff).symm
  have hiff : (∃ x ∈ s.entries.entries, x.1 = v ∧ x.2.expired s.now = true) ↔
      ∃ e, s.entry v = some e ∧ e.expired s.now = true := by
    constructor
    · intro h
      obtain ⟨⟨v', e⟩, hx, rfl, hexp⟩ := h
      exact ⟨e, (hmem e).1 hx, hexp⟩
    · intro h
      obtain ⟨e, he, hexp⟩ := h
      exact ⟨⟨v, e⟩, (hmem e).2 he, rfl, hexp⟩
  have hentry : s.sweep.entry v = _ := (foldl_evict (fun e => e.expired s.now) _ s).2.1 v
  rw [hentry, if_congr hiff rfl rfl]
  cases hcase : s.entry v with
  | none => simp
  | some e => by_cases hexp : e.expired s.now = true <;> simp [Option.filter, hexp]

/-- an entry that is still there is one that was not expired -/
theorem entry_sweep_eq_some {v : V} {e : Entry} :
    s.sweep.entry v = some e ↔ s.entry v = some e ∧ e.expired s.now = false := by
  rw [entry_sweep, Option.filter_eq_some_iff]
  simp

theorem buffers_sweep {a : ℕ} (h : ∀ v e, s.entry v = some e → e.key = a → e.expired s.now = false) :
    s.sweep.buffers a = s.buffers a := by
  apply (foldl_evict (fun e => e.expired s.now) _ s).2.2 a
  intro v e he hkey hexp
  obtain ⟨⟨v', e'⟩, hx, rfl, hexp'⟩ := hexp
  have he' : s.entry v' = some e' := AList.mem_lookup_iff.2 hx
  obtain rfl : e = e' := Option.some.inj (he.symm.trans he')
  have hexp'' : e.expired s.now = true := hexp'
  rw [h v' e he hkey] at hexp''
  cases hexp''

end VaultKeyCache

/-- whose the buffers are -/
structure Heap (s : VaultKeyCache V) : Prop where
  allocated : ∀ v e, s.entry v = some e → e.key < s.allocated
  apart : ∀ v v' e e', s.entry v = some e → s.entry v' = some e' → e.key = e'.key → v = v'
  copied : ∀ c ∈ s.copies, c.1 < s.allocated ∧ ∀ v e, s.entry v = some e → e.key ≠ c.1
  /-- what was handed out is as it was -/
  intact : ∀ c ∈ s.copies, s.buffers c.1 = c.2

/-- vault `v`'s entry is `e'` now, with its key in the buffer it was in or in a new one -/
structure Writes (s s' : VaultKeyCache V) (v : V) (e' : Entry) : Prop where
  entry : ∀ v', s'.entry v' = if v' = v then some e' else s.entry v'
  copies : s'.copies = s.copies
  now : s'.now = s.now
  allocated : s.allocated ≤ s'.allocated
  key : (∃ e, s.entry v = some e ∧ e'.key = e.key) ∨ e'.key = s.allocated ∧ s.allocated < s'.allocated
  buffers : ∀ v' e, v' ≠ v → s.entry v' = some e → s'.buffers e.key = s.buffers e.key
  copied : ∀ c ∈ s.copies, s'.buffers c.1 = s.buffers c.1

variable {v : V} {e : Entry}

theorem Writes.other {v' : V} {e' : Entry} (w : Writes s s' v e') (hne : v' ≠ v) (he : s'.entry v' = some e) :
    s.entry v' = some e := by
  rwa [w.entry, if_neg hne] at he

theorem Writes.self {e' : Entry} (w : Writes s s' v e') (he : s'.entry v = some e) : e = e' := by
  rw [w.entry, if_pos rfl] at he
  exact (Option.some.inj he).symm

theorem writes_set {x : Entry} (he : s.entry v = some e) (hkey : x.key = e.key) : Writes s (s.set v x) v x :=
  ⟨fun v' => s.entry_set v v' x, rfl, rfl, le_rfl, .inl ⟨e, he, hkey⟩, fun _ _ _ _ => rfl, fun _ _ => rfl⟩

/-- written once more, in the same buffer -/
theorem Writes.set {x : Entry} (w : Writes s s' v e) (hkey : x.key = e.key) : Writes s (s'.set v x) v x := by
  refine ⟨?_, w.copies, w.now, w.allocated, hkey ▸ w.key, w.buffers, w.copied⟩
  intro v'
  rw [VaultKeyCache.entry_set, w.entry]
  split <;> rfl

theorem Writes.closures (w : Writes s s' v e) (closures : List (Option (Closure V))) :
    Writes s { s' with closures := closures } v e :=
  ⟨w.entry, w.copies, w.now, w.allocated, w.key, w.buffers, w.copied⟩

theorem Heap.writes_create (h : Heap s) (v : V) (key : Bytes) (generation refs : ℕ) (expiresAt : Option ℕ)
    (heldUntil : ℕ) : Writes s (s.create v key generation refs expiresAt heldUntil) v
      ⟨s.objects, s.allocated, generation, refs, expiresAt, heldUntil⟩ := by
  refine ⟨fun v' => (s.alloc key).entry_set v v' _, rfl, rfl, Nat.le_succ _, .inr ⟨rfl, Nat.lt_succ_self _⟩, ?_, ?_⟩
  · exact fun v' e _ he => Function.update_of_ne (h.allocated v' e he).ne _ _
  · exact fun c hc => Function.update_of_ne (h.copied c hc).1.ne _ _

theorem Heap.writes_rotate (h : Heap s) (he : s.entry v = some e) (key : Bytes) (generation : ℕ) :
    Writes s (s.rotate v e key generation) v { e with key := s.allocated, generation := generation } := by
  refine ⟨fun v' => VaultKeyCache.entry_set _ v v' _, rfl, rfl, Nat.le_succ _, .inr ⟨rfl, Nat.lt_succ_self _⟩, ?_, ?_⟩
  · intro v' e' hne he'
    have hkey : e'.key ≠ e.key := fun heq => hne (h.apart v' v e' e he' he heq)
    exact (Function.update_of_ne (h.allocated v' e' he').ne _ _).trans (Function.update_of_ne hkey _ _)
  · intro c hc
    have hkey : c.1 ≠ e.key := ((h.copied c hc).2 v e he).symm
    exact (Function.update_of_ne (h.copied c hc).1.ne _ _).trans (Function.update_of_ne hkey _ _)

namespace Heap

/-- entries leave, and their keys are zeroed -/
theorem leave (h : Heap s) (hsub : ∀ v e, s'.entry v = some e → s.entry v = some e)
    (hallocated : s'.allocated = s.allocated) (hcopies : s'.copies = s.copies)
    (hbuffers : ∀ c ∈ s.copies, s'.buffers c.1 = s.buffers c.1) : Heap s' := by
  refine ⟨?_, ?_, ?_, ?_⟩
  · exact fun v e he => hallocated ▸ h.allocated v e (hsub v e he)
  · exact fun v v' e e' he he' hkey => h.apart v v' e e' (hsub v e he) (hsub v' e' he') hkey
  · rw [hcopies, hallocated]
    exact fun c hc => ⟨(h.copied c hc).1, fun v e he => (h.copied c hc).2 v e (hsub v e he)⟩
  · rw [hcopies]
    exact fun c hc => (hbuffers c hc).trans (h.intact c hc)

theorem sweep (h : Heap s) : Heap s.sweep := by
  refine h.leave (fun v e he => (VaultKeyCache.entry_sweep_eq_some.1 he).1) s.frame_sweep.allocated
    s.frame_sweep.copies fun c hc => VaultKeyCache.buffers_sweep fun v e he hkey => ?_
  exact absurd hkey ((h.copied c hc).2 v e he)

theorem evict (h : Heap s) (v : V) : Heap (s.evict v) := by
  refine h.leave ?_ (s.frame_evict v).allocated (s.frame_evict v).copies fun c hc =>
    VaultKeyCache.buffers_evict fun e he => (h.copied c hc).2 v e he
  intro v' e he
  rw [VaultKeyCache.entry_evict] at he
  split at he
  · cases he
  · exact he

/-- an entry is written that has the old one's buffer, or a new one -/
theorem put (h : Heap s) {v : V} {e' : Entry} (w : Writes s s' v e') : Heap s' := by
  have hother : ∀ v₁ e₁, v₁ ≠ v → s.entry v₁ = some e₁ → e₁.key ≠ e'.key := by
    intro v₁ e₁ hne he heq
    rcases w.key with ⟨e, hv, hsame⟩ | ⟨hnew, _⟩
    · exact hne (h.apart v₁ v e₁ e he hv (heq.trans hsame))
    · exact absurd (h.allocated v₁ e₁ he) (by omega)
  have hin : e'.key < s'.allocated := by
    rcases w.key with ⟨e, hv, hsame⟩ | ⟨hnew, hlt⟩
    · exact hsame ▸ (h.allocated v e hv).trans_le w.allocated
    · omega
  refine ⟨?_, ?_, ?_, ?_⟩
  · intro v₁ e₁ he
    by_cases hv : v₁ = v
    · subst hv
      exact w.self he ▸ hin
    · exact (h.allocated v₁ e₁ (w.other hv he)).trans_le w.allocated
  · intro v₁ v₂ e₁ e₂ he₁ he₂ heq
    by_cases hv₁ : v₁ = v
    · by_cases hv₂ : v₂ = v
      · exact hv₁.trans hv₂.symm
      · subst hv₁
        rw [w.self he₁] at heq
        exact absurd heq.symm (hother v₂ e₂ hv₂ (w.other hv₂ he₂))
    · by_cases hv₂ : v₂ = v
      · subst hv₂
        rw [w.self he₂] at heq
        exact absurd heq (hother v₁ e₁ hv₁ (w.other hv₁ he₁))
      · exact h.apart v₁ v₂ e₁ e₂ (w.other hv₁ he₁) (w.other hv₂ he₂) heq
  · rw [w.copies]
    intro c hc
    refine ⟨(h.copied c hc).1.trans_le w.allocated, fun v₁ e₁ he => ?_⟩
    by_cases hv : v₁ = v
    · subst hv
      rw [w.self he]
      rcases w.key with ⟨e, hv, hsame⟩ | ⟨hnew, _⟩
      · exact hsame ▸ (h.copied c hc).2 v₁ e hv
      · have hlt := (h.copied c hc).1
        omega
    · exact (h.copied c hc).2 v₁ e₁ (w.other hv he)
  · rw [w.copies]
    exact fun c hc => (w.copied c hc).trans (h.intact c hc)

/-- the copy is in a buffer of its own -/
theorem get (h : Heap s) (v : V) : Heap (s.get v).2 := by
  unfold VaultKeyCache.get
  have hs := h.sweep
  cases s.sweep.entry v with
  | none => exact hs
  | some e =>
    refine ⟨fun v₁ e₁ he => (hs.allocated v₁ e₁ he).trans (Nat.lt_succ_self _), hs.apart, ?_, ?_⟩
    · intro c hc
      rcases mem_snoc.1 hc with hc | rfl
      · exact ⟨(hs.copied c hc).1.trans (Nat.lt_succ_self _), (hs.copied c hc).2⟩
      · exact ⟨Nat.lt_succ_self _, fun v₁ e₁ he => (hs.allocated v₁ e₁ he).ne⟩
    · intro c hc
      rcases mem_snoc.1 hc with hc | rfl
      · have hne : c.1 ≠ s.sweep.allocated := (hs.copied c hc).1.ne
        exact (Function.update_of_ne hne _ _).trans (hs.intact c hc)
      · exact Function.update_self ..

end Heap

/-! ## The cache and the lives -/

/-- the entry of a vault, and the life it stands for -/
structure Matches (graceMs : ℕ) (s : VaultKeyCache V) (v : V) (e : Entry) (l : Life) : Prop where
  refs : e.refs = l.holders.card
  holders : ∀ i, i ∈ l.holders ↔ s.closures[i]? = some (some ⟨v, e.object, false⟩)
  idle : e.refs = 0 → ∃ x, e.expiresAt = some x ∧ ∀ t, t < x ↔ l.Lingers graceMs t
  held : ∀ t, t < e.heldUntil ↔ ∃ til ∈ l.holds, t < til
  top : l.top = some (e.generation, s.buffers e.key)
  agree : ∀ p ∈ l.presented, p.1 = e.generation → p.2 = s.buffers e.key

structure Refines (graceMs : ℕ) (s : VaultKeyCache V) (a : Lives V) : Prop where
  now : s.now = a.now
  calls : s.closures.length = a.calls
  entry : ∀ v e, s.entry v = some e → Matches graceMs s v e (a.life v)
  gone : ∀ v, s.entry v = none → ¬ (a.life v).Alive graceMs a.now
  objects : ∀ v e, s.entry v = some e → e.object < s.objects
  made : ∀ (i : ℕ) (c : Closure V), s.closures[i]? = some (some c) → c.held < s.objects

variable {l : Life}

theorem Matches.alive_iff (h : Matches graceMs s v e l) (t : ℕ) : l.Alive graceMs t ↔ e.expired t = false := by
  unfold Life.Alive Entry.expired
  by_cases hrefs : e.refs = 0
  · obtain ⟨x, hx, hlingers⟩ := h.idle hrefs
    have hnone : l.holders = ∅ := Finset.card_eq_zero.1 (h.refs ▸ hrefs)
    simp [hnone, hrefs, hx, ← hlingers]
  · have hsome : l.holders ≠ ∅ := fun hnone => hrefs (by rw [h.refs, hnone, Finset.card_empty])
    simp [hsome, hrefs]

variable {a : Lives V}

theorem Refines.holder_iff (h : Refines graceMs s a) (v : V) (i : ℕ) : i ∈ (a.life v).holders ↔
    ∃ e, s.entry v = some e ∧ s.closures[i]? = some (some ⟨v, e.object, false⟩) := by
  cases hcase : s.entry v with
  | none =>
    have hnone : (a.life v).holders = ∅ := by
      by_contra hsome
      exact h.gone v hcase (.inl hsome)
    simp [hnone]
  | some e => simp [(h.entry v e hcase).holders]

theorem Refines.sweep (h : Refines graceMs s a) (hheap : Heap s) : Refines graceMs s.sweep a := by
  have hframe := s.frame_sweep
  refine ⟨hframe.now.trans h.now, by rw [hframe.closures, h.calls], ?_, ?_, ?_, ?_⟩
  · intro v e he
    obtain ⟨he, hfresh⟩ := VaultKeyCache.entry_sweep_eq_some.1 he
    have hm := h.entry v e he
    have hbuffer : s.sweep.buffers e.key = s.buffers e.key := by
      apply VaultKeyCache.buffers_sweep
      intro v' e' he' hkey
      obtain rfl := hheap.apart v' v e' e he' he hkey
      cases he.symm.trans he'
      exact hfresh
    exact ⟨hm.refs, hframe.closures ▸ hm.holders, hm.idle, hm.held, hbuffer ▸ hm.top, hbuffer ▸ hm.agree⟩
  · intro v hnone
    cases hcase : s.entry v with
    | none => exact h.gone v hcase
    | some e =>
      rw [(h.entry v e hcase).alive_iff, ← h.now]
      intro hfresh
      exact absurd (VaultKeyCache.entry_sweep_eq_some.2 ⟨hcase, hfresh⟩) (by simp [hnone])
  · intro v e he
    rw [hframe.objects]
    exact h.objects v e (VaultKeyCache.entry_sweep_eq_some.1 he).1
  · rw [hframe.objects, hframe.closures]
    exact h.made

/-- what a swept cache has is the current life -/
theorem Refines.current (h : Refines graceMs s a) (hheap : Heap s) (v : V) :
    a.current graceMs v = if (s.sweep.entry v).isSome then a.life v else {} := by
  have hs := h.sweep hheap
  unfold Lives.current
  cases hcase : s.sweep.entry v with
  | none => simp [hs.gone v hcase]
  | some e =>
    obtain ⟨he, hfresh⟩ := VaultKeyCache.entry_sweep_eq_some.1 hcase
    have halive : (a.life v).Alive graceMs a.now := by
      rw [(h.entry v e he).alive_iff, ← h.now]
      exact hfresh
    simp [halive]

/-- one vault's entry is written, with its life -/
theorem Refines.put {a' : Lives V} (h : Refines graceMs s a) {e' : Entry} {l' : Life} (w : Writes s s' v e')
    (hclosures : s'.closures = s.closures ∨ s'.closures = s.closures ++ [some ⟨v, e'.object, false⟩])
    (hobjects : s.objects ≤ s'.objects) (hobject : e'.object < s'.objects) (hmatch : Matches graceMs s' v e' l')
    (hlife : a'.life = Function.update a.life v l') (hnow : a'.now = a.now) (hcalls : s'.closures.length = a'.calls) :
    Refines graceMs s' a' := by
  have hget : ∀ (i : ℕ) (c : Closure V), c.vaultId ≠ v →
      (s'.closures[i]? = some (some c) ↔ s.closures[i]? = some (some c)) := by
    intro i c hc
    rcases hclosures with hsame' | hmore
    · rw [hsame']
    · rw [hmore, getElem?_snoc]
      refine or_iff_left ?_
      rintro ⟨-, hnew⟩
      cases hnew
      exact hc rfl
  refine ⟨w.now.trans (h.now.trans hnow.symm), hcalls, ?_, ?_, ?_, ?_⟩
  · intro v₁ e₁ he
    by_cases hv : v₁ = v
    · subst hv
      rw [w.self he, hlife, Function.update_self]
      exact hmatch
    · have hm := h.entry v₁ e₁ (w.other hv he)
      have hb := w.buffers v₁ e₁ hv (w.other hv he)
      rw [hlife, Function.update_of_ne hv]
      exact ⟨hm.refs, fun i => (hm.holders i).trans (hget i ⟨v₁, _, false⟩ hv).symm, hm.idle, hm.held, hb ▸ hm.top,
        hb ▸ hm.agree⟩
  · intro v₁ hnone
    have hv : v₁ ≠ v := by
      rintro rfl
      rw [w.entry, if_pos rfl] at hnone
      cases hnone
    rw [w.entry, if_neg hv] at hnone
    rw [hlife, Function.update_of_ne hv, hnow]
    exact h.gone v₁ hnone
  · intro v₁ e₁ he
    by_cases hv : v₁ = v
    · subst hv
      exact w.self he ▸ hobject
    · exact (h.objects v₁ e₁ (w.other hv he)).trans_le hobjects
  · intro i c hc
    rcases hclosures with hsame' | hmore
    · rw [hsame'] at hc
      exact (h.made i c hc).trans_le hobjects
    · rw [hmore] at hc
      rcases getElem?_snoc.1 hc with hc | ⟨-, hnew⟩
      · exact (h.made i c hc).trans_le hobjects
      · cases hnew
        exact hobject

/-! ## Every step -/

theorem Life.top_snoc (l : Life) (generation : ℕ) (key : Bytes) :
    (l.presented ++ [(generation, key)]).argmax (·.1) = match l.top with
      | none => some (generation, key)
      | some p => if p.1 < generation then some (generation, key) else some p := by
  rw [argmax_concat]
  unfold Life.top
  cases l.presented.argmax (·.1) with
  | none | some p => rfl

theorem Matches.clashes (h : Matches graceMs s v e l) (generation : ℕ) (key : Bytes) :
    l.clashes generation key = true ↔ generation = e.generation ∧ s.buffers e.key ≠ key := by
  unfold Life.clashes
  rw [h.top, Option.any_some, Bool.and_eq_true, decide_eq_true_eq, decide_eq_true_eq]
  exact and_congr_left' eq_comm

theorem Matches.outranks (h : Matches graceMs s v e l) (generation : ℕ) :
    l.outranks generation = true ↔ generation < e.generation := by
  unfold Life.outranks
  rw [h.top]
  simp

variable {generation : ℕ}

/-- a key that is accepted beside the entry's -/
theorem Matches.accept (h : Matches graceMs s v e l) {key : Bytes} (hle : generation ≤ e.generation)
    (hclash : l.clashes generation key = false) :
    (l.presented ++ [(generation, key)]).argmax (·.1) = some (e.generation, s.buffers e.key) ∧
      ∀ p ∈ l.presented ++ [(generation, key)], p.1 = e.generation → p.2 = s.buffers e.key := by
  refine ⟨?_, ?_⟩
  · rw [Life.top_snoc, h.top]
    exact if_neg (by simpa using hle)
  · intro p hp hgen
    rcases mem_snoc.1 hp with hp | rfl
    · exact h.agree p hp hgen
    · by_contra hne
      rw [(h.clashes generation key).2 ⟨hgen, Ne.symm hne⟩] at hclash
      cases hclash

/-- a key of a higher generation takes the entry's place -/
theorem Matches.outranked (h : Matches graceMs s v e l) (key : Bytes) (hlt : e.generation < generation) :
    (l.presented ++ [(generation, key)]).argmax (·.1) = some (generation, key) ∧
      ∀ p ∈ l.presented ++ [(generation, key)], p.1 = generation → p.2 = key := by
  refine ⟨?_, ?_⟩
  · rw [Life.top_snoc, h.top]
    exact if_pos hlt
  · intro p hp hgen
    rcases mem_snoc.1 hp with hp | hp
    · have hle : p.1 ≤ e.generation := le_of_mem_argmax hp (h.top : _ ∈ l.presented.argmax (·.1))
      omega
    · rw [hp]

variable {c : Closure V}

theorem holders_snoc {closures : List (Option (Closure V))} {holders : Finset ℕ}
    (h : ∀ i, i ∈ holders ↔ closures[i]? = some (some c)) :
    (∀ i, i ∈ insert closures.length holders ↔ (closures ++ [some c])[i]? = some (some c)) ∧
      (insert closures.length holders).card = holders.card + 1 := by
  refine ⟨?_, ?_⟩
  · intro i
    rw [Finset.mem_insert, h, getElem?_snoc, or_comm, and_iff_left rfl]
  · apply Finset.card_insert_of_notMem
    rw [h]
    simp

theorem Refines.throws (h : Refines graceMs s a) : Refines graceMs s.throws { a with calls := a.calls + 1 } := by
  have hget : ∀ (i : ℕ) (c : Closure V),
      s.throws.closures[i]? = some (some c) ↔ s.closures[i]? = some (some c) := by
    intro i c
    change (s.closures ++ [none])[i]? = _ ↔ _
    rw [getElem?_snoc]
    simp
  refine ⟨h.now, by simp [VaultKeyCache.throws, h.calls], ?_, h.gone, h.objects, ?_⟩
  · intro v e he
    have hm := h.entry v e he
    exact ⟨hm.refs, fun i => (hm.holders i).trans (hget i _).symm, hm.idle, hm.held, hm.top, hm.agree⟩
  · exact fun i c hc => h.made i c ((hget i c).1 hc)

theorem entry_hold (he : s.entry v = some e) :
    s.hold v = { s.set v { e with refs := e.refs + 1, expiresAt := none } with
      closures := s.closures ++ [some ⟨v, e.object, false⟩] } := by
  unfold VaultKeyCache.hold
  rw [he]

theorem length_snoc {α : Type*} {l : List α} {x : α} {n : ℕ} (h : l.length = n) : (l ++ [x]).length = n + 1 := by
  rw [length_append, h, length_singleton]

/-- one more holder of an entry, which is written -/
theorem Matches.hold {r : VaultKeyCache V} {key : Bytes} (hrefs : e.refs = l.holders.card + 1)
    (hholders : ∀ i, i ∈ l.holders ↔ r.closures[i]? = some (some ⟨v, e.object, false⟩))
    (hheld : ∀ t, t < e.heldUntil ↔ ∃ til ∈ l.holds, t < til)
    (hclosures : s.closures = r.closures ++ [some ⟨v, e.object, false⟩])
    (htop : (l.presented ++ [(generation, key)]).argmax (·.1) = some (e.generation, s.buffers e.key))
    (hagree : ∀ p ∈ l.presented ++ [(generation, key)], p.1 = e.generation → p.2 = s.buffers e.key) :
    Matches graceMs s v e { l with
      holders := insert r.closures.length l.holders, presented := l.presented ++ [(generation, key)] } := by
  obtain ⟨hiff, hcard⟩ := holders_snoc hholders
  refine ⟨hrefs.trans hcard.symm, hclosures ▸ hiff, ?_, hheld, htop, hagree⟩
  intro hzero
  rw [hrefs] at hzero
  cases hzero

theorem refines_acquire (hheap : Heap s) (h : Refines graceMs s a) (v : V) (key : Bytes) (generation : ℕ) :
    Heap (s.acquire v key generation) ∧
      Refines graceMs (s.acquire v key generation) (a.acquire graceMs v key generation) := by
  unfold VaultKeyCache.acquire Lives.acquire
  by_cases hlen : key.length ≠ KEY_BYTES
  · rw [if_pos hlen, if_pos (.inl hlen)]
    exact ⟨hheap.leave (fun _ _ he => he) rfl rfl fun _ _ => rfl, h.throws⟩
  · rw [if_neg hlen]
    have hs := h.sweep hheap
    have hswept := hheap.sweep
    have hcurrent := h.current hheap v
    cases hcase : s.sweep.entry v with
    | none =>
      rw [hcase] at hcurrent
      have hlife : a.current graceMs v = {} := hcurrent
      have hclash : ({} : Life).clashes generation key = false := rfl
      rw [hlife, if_neg (by simp [hlen, hclash])]
      have hw := hswept.writes_create v key generation 0 none 0
      have hnew : (s.sweep.create v key generation 0 none 0).entry v = some ⟨_, _, _, _, _, _⟩ :=
        (hw.entry v).trans (if_pos rfl)
      rw [entry_hold hnew]
      have w := (hw.set (x := ⟨s.sweep.objects, s.sweep.allocated, generation, 1, none, 0⟩) rfl).closures
        (s.sweep.closures ++ [some ⟨v, s.sweep.objects, false⟩])
      have hbuffer : Function.update s.sweep.buffers s.sweep.allocated key s.sweep.allocated = key :=
        Function.update_self ..
      refine ⟨hswept.put w, hs.put w (.inr rfl) (Nat.le_succ _) (Nat.lt_succ_self _) ?_ rfl rfl ?_⟩
      · rw [← hs.calls]
        refine Matches.hold (r := s.sweep) (l := {}) rfl ?_ (by simp) rfl ?_ ?_
        · intro i
          refine iff_of_false (by simp) ?_
          intro hi
          exact absurd (hs.made i _ hi) (by simp)
        · exact congrArg some (Prod.ext rfl hbuffer.symm)
        · intro p hp _
          rw [mem_singleton.1 hp]
          exact hbuffer.symm
      · exact length_snoc hs.calls
    | some e =>
      rw [hcase] at hcurrent
      have hlife : a.current graceMs v = a.life v := hcurrent
      have hm := hs.entry v e hcase
      rw [hlife]
      dsimp only
      by_cases hlt : e.generation < generation
      · have hclash : (a.life v).clashes generation key = false := by
          rw [Bool.eq_false_iff, Ne, hm.clashes]
          exact fun heq => absurd heq.1 (by omega)
        rw [if_pos hlt, if_neg (by simp [hlen, hclash])]
        have hw := hswept.writes_rotate hcase key generation
        have hnew : (s.sweep.rotate v e key generation).entry v =
            some { e with key := s.sweep.allocated, generation := generation } := (hw.entry v).trans (if_pos rfl)
        rw [entry_hold hnew]
        have w := (hw.set (x := { e with
          key := s.sweep.allocated, generation := generation, refs := e.refs + 1, expiresAt := none }) rfl).closures
            (s.sweep.closures ++ [some ⟨v, e.object, false⟩])
        obtain ⟨htop, hagree⟩ := hm.outranked key hlt
        refine ⟨hswept.put w, hs.put w (.inr rfl) le_rfl (hs.objects v e hcase) ?_ rfl rfl ?_⟩
        · rw [← hs.calls]
          have hbuffer : Function.update (s.sweep.zero e.key).buffers s.sweep.allocated key s.sweep.allocated = key :=
            Function.update_self ..
          refine Matches.hold (r := s.sweep) (congrArg (· + 1) hm.refs) hm.holders hm.held rfl ?_ ?_
          · exact htop.trans (congrArg some (Prod.ext rfl hbuffer.symm))
          · exact fun p hp hgen => (hagree p hp hgen).trans hbuffer.symm
        · exact length_snoc hs.calls
      · rw [if_neg hlt]
        by_cases hclash : generation = e.generation ∧ s.sweep.buffers e.key ≠ key
        · rw [if_pos hclash, if_pos (.inr ((hm.clashes generation key).2 hclash))]
          exact ⟨hswept.leave (fun _ _ he => he) rfl rfl fun _ _ => rfl, hs.throws⟩
        · have hagrees : (a.life v).clashes generation key = false := by
            rw [Bool.eq_false_iff, Ne, hm.clashes]
            exact hclash
          rw [if_neg hclash, if_neg (by simp [hlen, hagrees]), entry_hold hcase]
          have w := (writes_set hcase (x := { e with refs := e.refs + 1, expiresAt := none }) rfl).closures
            (s.sweep.closures ++ [some ⟨v, e.object, false⟩])
          obtain ⟨htop, hagree⟩ := hm.accept (not_lt.1 hlt) hagrees
          refine ⟨hswept.put w, hs.put w (.inr rfl) le_rfl (hs.objects v e hcase) ?_ rfl rfl ?_⟩
          · rw [← hs.calls]
            exact Matches.hold (r := s.sweep) (congrArg (· + 1) hm.refs) hm.holders hm.held rfl htop hagree
          · exact length_snoc hs.calls

theorem entry_extend {til : ℕ} (he : s.entry v = some e) :
    s.extend v til = s.set v { e with
      heldUntil := max e.heldUntil til,
      expiresAt := if e.refs = 0 then some (max (e.expiresAt.getD 0) til) else e.expiresAt } := by
  unfold VaultKeyCache.extend
  rw [he]

/-- one more hold of an entry, which is written -/
theorem Matches.extend {s₀ : VaultKeyCache V} {e₀ : Entry} {key : Bytes} {til : ℕ} (h : Matches graceMs s₀ v e₀ l)
    (hclosures : s.closures = s₀.closures) (hobject : e.object = e₀.object) (hrefs : e.refs = e₀.refs)
    (hheld : e.heldUntil = max e₀.heldUntil til)
    (hexpires : e.expiresAt = if e₀.refs = 0 then some (max (e₀.expiresAt.getD 0) til) else e₀.expiresAt)
    (htop : (l.presented ++ [(generation, key)]).argmax (·.1) = some (e.generation, s.buffers e.key))
    (hagree : ∀ p ∈ l.presented ++ [(generation, key)], p.1 = e.generation → p.2 = s.buffers e.key)
    (requests : List ℕ) : Matches graceMs s v e { l with
      holds := l.holds ++ [til], requests := requests, presented := l.presented ++ [(generation, key)] } := by
  refine ⟨hrefs.trans h.refs, ?_, ?_, ?_, htop, hagree⟩
  · rw [hclosures, hobject]
    exact h.holders
  · intro hzero
    rw [hrefs] at hzero
    obtain ⟨x, hx, hlingers⟩ := h.idle hzero
    refine ⟨max x til, by rw [hexpires, if_pos hzero, hx]; rfl, fun t => ?_⟩
    rw [lt_max_iff, hlingers]
    simp [Life.Lingers, or_and_right, exists_or, or_assoc]
  · intro t
    rw [hheld, lt_max_iff, h.held]
    simp [or_and_right, exists_or]

theorem Lives.life_set (a : Lives V) (v : V) (l : Life) (v' : V) :
    (a.set v l).life v' = if v' = v then l else a.life v' :=
  Function.update_apply ..

/-- a request that is refused leaves the life as it was but for the request -/
theorem Refines.requested (h : Refines graceMs s a) (v : V) (til : ℕ) :
    Refines graceMs s (a.set v { a.life v with requests := (a.life v).requests ++ [til] }) := by
  refine ⟨h.now, h.calls, ?_, ?_, h.objects, h.made⟩
  · intro v' e he
    have hm := h.entry v' e he
    by_cases hv : v' = v
    · subst hv
      rw [Lives.life_set, if_pos rfl]
      exact ⟨hm.refs, hm.holders, hm.idle, hm.held, hm.top, hm.agree⟩
    · rw [Lives.life_set, if_neg hv]
      exact hm
  · intro v' hnone
    have hgone := h.gone v' hnone
    by_cases hv : v' = v
    · subst hv
      rw [Lives.life_set, if_pos rfl]
      exact hgone
    · rw [Lives.life_set, if_neg hv]
      exact hgone

theorem refines_holdForRequest (hheap : Heap s) (h : Refines graceMs s a) (v : V) (key : Bytes)
    (generation holdMs : ℕ) : Heap (s.holdForRequest v key generation holdMs) ∧
      Refines graceMs (s.holdForRequest v key generation holdMs)
        (a.holdForRequest graceMs v key generation holdMs) := by
  unfold VaultKeyCache.holdForRequest Lives.holdForRequest
  by_cases hlen : key.length ≠ KEY_BYTES
  · rw [if_pos hlen, if_pos hlen]
    exact ⟨hheap, h⟩
  · rw [if_neg hlen, if_neg hlen, ← h.now]
    have hs := h.sweep hheap
    have hswept := hheap.sweep
    have hcurrent := h.current hheap v
    obtain ⟨til, htil⟩ : ∃ til, til = s.now + holdMs := ⟨_, rfl⟩
    rw [← htil]
    cases hcase : s.sweep.entry v with
    | none =>
      rw [hcase] at hcurrent
      have hlife : a.current graceMs v = {} := hcurrent
      have hfree : ¬ (({} : Life).clashes generation key = true ∨ ({} : Life).outranks generation = true) := by
        simp [Life.clashes, Life.outranks, Life.top]
      rw [hlife, if_neg hfree]
      have w := hswept.writes_create v key generation 0 (some til) til
      have hbuffer : Function.update s.sweep.buffers s.sweep.allocated key s.sweep.allocated = key :=
        Function.update_self ..
      refine ⟨hswept.put w, hs.put w (.inl rfl) (Nat.le_succ _) (Nat.lt_succ_self _) ?_ rfl rfl hs.calls⟩
      refine ⟨rfl, ?_, fun _ => ⟨til, rfl, fun t => by simp [Life.Lingers]⟩, fun t => by simp, ?_, ?_⟩
      · intro i
        refine iff_of_false (by simp) ?_
        intro hi
        exact absurd (hs.made i _ hi) (by simp)
      · exact congrArg some (Prod.ext rfl hbuffer.symm)
      · intro p hp _
        rw [mem_singleton.1 hp]
        exact hbuffer.symm
    | some e =>
      rw [hcase] at hcurrent
      have hlife : a.current graceMs v = a.life v := hcurrent
      have hm := hs.entry v e hcase
      rw [hlife]
      dsimp only
      by_cases hlt : e.generation < generation
      · have hfree : ¬ ((a.life v).clashes generation key = true ∨ (a.life v).outranks generation = true) := by
          rw [hm.clashes, hm.outranks]
          omega
        rw [if_pos hlt, if_neg hfree]
        have hw := hswept.writes_rotate hcase key generation
        have hnew : (s.sweep.rotate v e key generation).entry v =
            some { e with key := s.sweep.allocated, generation := generation } := (hw.entry v).trans (if_pos rfl)
        rw [entry_extend hnew]
        have w := hw.set (x := { e with
          key := s.sweep.allocated, generation := generation, heldUntil := max e.heldUntil til,
          expiresAt := if e.refs = 0 then some (max (e.expiresAt.getD 0) til) else e.expiresAt }) rfl
        have hbuffer : Function.update (s.sweep.zero e.key).buffers s.sweep.allocated key s.sweep.allocated = key :=
          Function.update_self ..
        obtain ⟨htop, hagree⟩ := hm.outranked key hlt
        refine ⟨hswept.put w, hs.put w (.inl rfl) le_rfl (hs.objects v e hcase) ?_ rfl rfl hs.calls⟩
        refine hm.extend ?_ ?_ ?_ ?_ ?_ ?_ ?_ _
        · rfl
        · rfl
        · rfl
        · rfl
        · rfl
        · exact htop.trans (congrArg some (Prod.ext rfl hbuffer.symm))
        · exact fun p hp hgen => (hagree p hp hgen).trans hbuffer.symm
      · rw [if_neg hlt]
        by_cases hclash : generation = e.generation ∧ s.sweep.buffers e.key ≠ key
        · rw [if_pos hclash, if_pos (.inl ((hm.clashes generation key).2 hclash))]
          exact ⟨hswept, hs.requested v til⟩
        · rw [if_neg hclash]
          by_cases hlow : generation < e.generation
          · rw [if_pos hlow, if_pos (.inr ((hm.outranks generation).2 hlow))]
            exact ⟨hswept, hs.requested v til⟩
          · have hagrees : (a.life v).clashes generation key = false := by
              rw [Bool.eq_false_iff, Ne, hm.clashes]
              exact hclash
            have hfree : ¬ ((a.life v).clashes generation key = true ∨ (a.life v).outranks generation = true) := by
              rw [hm.clashes, hm.outranks]
              exact not_or.2 ⟨hclash, hlow⟩
            rw [if_neg hlow, if_neg hfree, entry_extend hcase]
            have w := writes_set hcase (x := { e with
              heldUntil := max e.heldUntil til,
              expiresAt := if e.refs = 0 then some (max (e.expiresAt.getD 0) til) else e.expiresAt }) rfl
            obtain ⟨htop, hagree⟩ := hm.accept (not_lt.1 hlt) hagrees
            refine ⟨hswept.put w, hs.put w (.inl rfl) le_rfl (hs.objects v e hcase) ?_ rfl rfl hs.calls⟩
            refine hm.extend ?_ ?_ ?_ ?_ ?_ ?_ ?_ _
            · rfl
            · rfl
            · rfl
            · rfl
            · rfl
            · exact htop
            · exact hagree

variable {i : ℕ}

/-- only the vault of the closure may have it as a holder, and only while its entry is there -/
theorem Refines.release_idle (h : Refines graceMs s a)
    (hnone : ∀ v e, s.entry v = some e → s.closures[i]? ≠ some (some ⟨v, e.object, false⟩)) : a.release i = a := by
  have hlife : (a.release i).life = a.life := by
    funext v
    refine if_neg ?_
    rw [h.holder_iff]
    intro hholds
    obtain ⟨e, he, hi⟩ := hholds
    exact hnone v e he hi
  calc a.release i = { a with life := (a.release i).life } := rfl
    _ = a := by rw [hlife]

/-- a closure is marked as called -/
theorem Refines.called (h : Refines graceMs s a) (hi : s.closures[i]? = some (some c))
    (hnone : ∀ e, s.entry c.vaultId = some e → e.object ≠ c.held) :
    Refines graceMs { s with closures := s.closures.set i (some { c with released := true }) } a := by
  have hlt : i < s.closures.length := (List.getElem?_eq_some_iff.1 hi).1
  refine ⟨h.now, (List.length_set ..).trans h.calls, ?_, h.gone, h.objects, ?_⟩
  · intro v e he
    have hm := h.entry v e he
    refine ⟨hm.refs, fun j => ?_, hm.idle, hm.held, hm.top, hm.agree⟩
    rw [hm.holders j]
    by_cases hji : j = i
    · subst hji
      refine iff_of_false ?_ ?_
      · intro hj
        obtain rfl := Option.some.inj (Option.some.inj (hi.symm.trans hj))
        exact hnone e he rfl
      · rw [List.getElem?_set_self hlt]
        simp
    · rw [List.getElem?_set_ne (Ne.symm hji)]
  · intro j c' hj
    by_cases hji : j = i
    · subst hji
      rw [List.getElem?_set_self hlt] at hj
      cases Option.some.inj hj
      exact h.made j c hi
    · rw [List.getElem?_set_ne (Ne.symm hji)] at hj
      exact h.made j c' hj

/-- a holder of the vault's entry lets go of it -/
theorem Refines.released (h : Refines graceMs s a) {x : Entry} (hi : s.closures[i]? = some (some c))
    (hc : c = ⟨c.vaultId, e.object, false⟩) (he : s.entry c.vaultId = some e) (hin : i ∈ (a.life c.vaultId).holders)
    (hobject : x.object = e.object) (hgen : x.generation = e.generation) (hkey : x.key = e.key)
    (hrefs : x.refs = e.refs - 1) (hheld : x.heldUntil = e.heldUntil)
    (hexpires : x.refs = 0 → x.expiresAt = some (max (s.now + graceMs) e.heldUntil)) :
    Refines graceMs (({ s with closures := s.closures.set i (some { c with released := true }) }).set c.vaultId x)
      (a.release i) := by
  have hlt : i < s.closures.length := (List.getElem?_eq_some_iff.1 hi).1
  have hself : (s.closures.set i (some { c with released := true }))[i]? = some (some { c with released := true }) :=
    List.getElem?_set_self hlt
  have hne : ∀ j, j ≠ i → (s.closures.set i (some { c with released := true }))[j]? = s.closures[j]? := fun j hj =>
    List.getElem?_set_ne (Ne.symm hj)
  have hother : ∀ v, v ≠ c.vaultId → (a.release i).life v = a.life v := by
    intro v hv
    refine if_neg ?_
    rw [h.holder_iff]
    intro hholds
    obtain ⟨e₁, _, heq⟩ := hholds
    obtain rfl := Option.some.inj (Option.some.inj (hi.symm.trans heq))
    exact hv rfl
  have hlife : (a.release i).life c.vaultId = { a.life c.vaultId with
      holders := (a.life c.vaultId).holders.erase i, released := some a.now } := if_pos hin
  refine ⟨h.now, (List.length_set ..).trans h.calls, ?_, ?_, ?_, ?_⟩
  · intro v e₁ he₁
    rw [VaultKeyCache.entry_set] at he₁
    by_cases hv : v = c.vaultId
    · rw [if_pos hv] at he₁
      cases he₁
      subst hv
      rw [hlife]
      have hm := h.entry _ e he
      refine ⟨?_, ?_, ?_, hheld ▸ hm.held, ?_, ?_⟩
      · rw [hrefs, hm.refs]
        exact (Finset.card_erase_of_mem hin).symm
      · intro j
        rw [Finset.mem_erase, hm.holders, hobject]
        by_cases hji : j = i
        · subst hji
          refine iff_of_false (fun hj => hj.1 rfl) ?_
          change (s.closures.set j (some { c with released := true }))[j]? ≠ _
          rw [hself]
          simp
        · change _ ↔ (s.closures.set i (some { c with released := true }))[j]? = _
          rw [hne j hji]
          exact and_iff_right hji
      · intro hzero
        refine ⟨_, hexpires hzero, fun t => ?_⟩
        rw [lt_max_iff, hm.held, h.now]
        simp [Life.Lingers]
      · exact hm.top.trans (by rw [hgen, hkey]; rfl)
      · rw [hgen, hkey]
        exact hm.agree
    · rw [if_neg hv] at he₁
      have hm := h.entry v e₁ he₁
      rw [hother v hv]
      refine ⟨hm.refs, fun j => ?_, hm.idle, hm.held, hm.top, hm.agree⟩
      rw [hm.holders]
      by_cases hji : j = i
      · subst hji
        refine iff_of_false ?_ ?_
        · intro hj
          obtain rfl := Option.some.inj (Option.some.inj (hi.symm.trans hj))
          exact hv rfl
        · change (s.closures.set j (some { c with released := true }))[j]? ≠ _
          rw [hself]
          simp
      · change _ ↔ (s.closures.set i (some { c with released := true }))[j]? = _
        rw [hne j hji]
  · intro v hnone
    rw [VaultKeyCache.entry_set] at hnone
    by_cases hv : v = c.vaultId
    · rw [if_pos hv] at hnone
      cases hnone
    · rw [if_neg hv] at hnone
      rw [hother v hv]
      exact h.gone v hnone
  · intro v e₁ he₁
    rw [VaultKeyCache.entry_set] at he₁
    split at he₁
    · cases he₁
      exact hobject ▸ h.objects _ e he
    · exact h.objects v e₁ he₁
  · intro j c' hj
    by_cases hji : j = i
    · subst hji
      obtain rfl := Option.some.inj (Option.some.inj (hself.symm.trans hj))
      exact h.made j c hi
    · exact h.made j c' ((hne j hji).symm.trans hj)

theorem refines_release (hheap : Heap s) (h : Refines graceMs s a) (i : ℕ) :
    Heap (s.release graceMs i) ∧ Refines graceMs (s.release graceMs i) (a.release i) := by
  unfold VaultKeyCache.release
  split
  · next c hi =>
    split
    · next hreleased =>
      rw [h.release_idle fun v e _ heq => ?_]
      · exact ⟨hheap, h⟩
      · obtain rfl := Option.some.inj (Option.some.inj (hi.symm.trans heq))
        cases hreleased
    · next hreleased =>
      have hmarked : ∀ cs, Heap { s with closures := cs } := fun cs =>
        hheap.leave (fun _ _ he => he) rfl rfl fun _ _ => rfl
      dsimp only
      split
      · next hnone =>
        have hno : ∀ e, s.entry c.vaultId = some e → e.object ≠ c.held := fun e he =>
          absurd (hnone.symm.trans he) (by simp)
        rw [h.release_idle fun v e he heq => ?_]
        · exact ⟨hmarked _, h.called hi hno⟩
        · obtain rfl := Option.some.inj (Option.some.inj (hi.symm.trans heq))
          exact hno e he rfl
      · next e he =>
        have he' : s.entry c.vaultId = some e := he
        split
        · next hother =>
          have hno : ∀ e', s.entry c.vaultId = some e' → e'.object ≠ c.held := by
            intro e' hcase
            cases he'.symm.trans hcase
            exact hother
          rw [h.release_idle fun v e₁ he₁ heq => ?_]
          · exact ⟨hmarked _, h.called hi hno⟩
          · obtain rfl := Option.some.inj (Option.some.inj (hi.symm.trans heq))
            exact hno e₁ he₁ rfl
        · next hsame =>
          have hheld : c.held = e.object := (not_not.1 hsame).symm
          have hc : c = ⟨c.vaultId, e.object, false⟩ := by
            rw [← hheld, ← Bool.eq_false_of_not_eq_true hreleased]
          have hm := h.entry _ e he'
          have hin : i ∈ (a.life c.vaultId).holders := (hm.holders i).2 (hc ▸ hi)
          refine ⟨(hmarked _).put (writes_set he rfl), ?_⟩
          exact h.released hi hc he' hin (x := { e with
            refs := e.refs - 1,
            expiresAt := if e.refs - 1 = 0 then some (max (s.now + graceMs) e.heldUntil) else e.expiresAt })
            rfl rfl rfl rfl rfl fun hzero => if_pos hzero
  · next hno =>
    rw [h.release_idle fun v e _ heq => hno _ heq]
    exact ⟨hheap, h⟩

theorem Life.Alive.of_le {t t' : ℕ} (h : l.Alive graceMs t') (hle : t ≤ t') : l.Alive graceMs t := by
  rcases h with hholders | ⟨r, hr, hlt⟩ | ⟨til, htil, hlt⟩
  · exact .inl hholders
  · exact .inr (.inl ⟨r, hr, hle.trans_lt hlt⟩)
  · exact .inr (.inr ⟨til, htil, hle.trans_lt hlt⟩)

theorem Refines.tick (h : Refines graceMs s a) (ms : ℕ) :
    Refines graceMs { s with now := s.now + ms } { a with now := a.now + ms } := by
  refine ⟨congrArg (· + ms) h.now, h.calls, ?_, ?_, h.objects, h.made⟩
  · intro v e he
    have hm := h.entry v e he
    exact ⟨hm.refs, hm.holders, hm.idle, hm.held, hm.top, hm.agree⟩
  · exact fun v hnone halive => h.gone v hnone (halive.of_le (Nat.le_add_right _ _))

/-- the copy is made in a new buffer, so the entries' keys are what they were -/
theorem Refines.get (h : Refines graceMs s a) (hheap : Heap s) (v : V) : Refines graceMs (s.get v).2 a := by
  have hs := h.sweep hheap
  unfold VaultKeyCache.get
  cases s.sweep.entry v with
  | none => exact hs
  | some e =>
    refine ⟨hs.now, hs.calls, ?_, hs.gone, hs.objects, hs.made⟩
    intro v' e' he'
    have hm := hs.entry v' e' he'
    have hbuffer : Function.update s.sweep.buffers s.sweep.allocated (s.sweep.buffers e.key) e'.key =
        s.sweep.buffers e'.key := Function.update_of_ne (hheap.sweep.allocated v' e' he').ne _ _
    exact ⟨hm.refs, hm.holders, hm.idle, hm.held, hm.top.trans (by rw [← hbuffer]; rfl),
      fun p hp hgen => (hm.agree p hp hgen).trans hbuffer.symm⟩

theorem Refines.evict (h : Refines graceMs s a) (hheap : Heap s) (v : V) :
    Refines graceMs (s.evict v) (a.set v {}) := by
  have hframe := s.frame_evict v
  refine ⟨hframe.now.trans h.now, by rw [hframe.closures, h.calls]; rfl, ?_, ?_, ?_, ?_⟩
  · intro v' e he
    rw [VaultKeyCache.entry_evict] at he
    by_cases hv : v' = v
    · rw [if_pos hv] at he
      cases he
    · rw [if_neg hv] at he
      have hm := h.entry v' e he
      have hbuffer : (s.evict v).buffers e.key = s.buffers e.key :=
        VaultKeyCache.buffers_evict fun e' he' hkey => hv (hheap.apart v' v e e' he he' hkey.symm)
      rw [Lives.life_set, if_neg hv]
      exact ⟨hm.refs, hframe.closures ▸ hm.holders, hm.idle, hm.held, hbuffer ▸ hm.top, hbuffer ▸ hm.agree⟩
  · intro v' hnone
    rw [VaultKeyCache.entry_evict] at hnone
    by_cases hv : v' = v
    · rw [Lives.life_set, if_pos hv]
      simp [Life.Alive, Life.Lingers]
    · rw [if_neg hv] at hnone
      rw [Lives.life_set, if_neg hv]
      exact h.gone v' hnone
  · intro v' e he
    rw [VaultKeyCache.entry_evict] at he
    split at he
    · cases he
    · exact hframe.objects ▸ h.objects v' e he
  · rw [hframe.objects, hframe.closures]
    exact h.made

theorem refines_step (hheap : Heap s) (h : Refines graceMs s a) (act : Action V) :
    Heap (step graceMs s act) ∧ Refines graceMs (step graceMs s act) (a.step graceMs act) := by
  cases act with
  | tick ms => exact ⟨hheap.leave (fun _ _ he => he) rfl rfl fun _ _ => rfl, h.tick ms⟩
  | acquire v key generation => exact refines_acquire hheap h v key generation
  | release i => exact refines_release hheap h i
  | holdForRequest v key generation holdMs => exact refines_holdForRequest hheap h v key generation holdMs
  | get v => exact ⟨hheap.get v, h.get hheap v⟩
  | has v | sweep => exact ⟨hheap.sweep, h.sweep hheap⟩
  | evict v => exact ⟨hheap.evict v, h.evict hheap v⟩

variable (graceMs) in
theorem refines_run (as : List (Action V)) :
    Heap (run graceMs as) ∧ Refines graceMs (run graceMs as) (Lives.run graceMs as) := by
  induction as using List.reverseRecOn with
  | nil =>
    have hentry : ∀ v : V, (({} : VaultKeyCache V).entry v) = none := fun v => AList.lookup_empty v
    refine ⟨⟨?_, ?_, by simp [run], by simp [run]⟩, ⟨rfl, rfl, ?_, ?_, ?_, by simp [run]⟩⟩
    · exact fun v e he => absurd ((hentry v).symm.trans he) (by simp)
    · exact fun v _ e _ he _ => absurd ((hentry v).symm.trans he) (by simp)
    · exact fun v e he => absurd ((hentry v).symm.trans he) (by simp)
    · exact fun v _ => by simp [Lives.run, Life.Alive, Life.Lingers]
    · exact fun v e he => absurd ((hentry v).symm.trans he) (by simp)
  | append_singleton as act ih =>
    unfold run Lives.run
    rw [Machine.run_snoc, Machine.run_snoc]
    exact refines_step ih.1 ih.2 act

/-! ## The lifetime of a key -/

theorem Refines.isSome_iff (h : Refines graceMs s a) (hheap : Heap s) (v : V) :
    (s.sweep.entry v).isSome ↔ (a.life v).Alive graceMs a.now := by
  cases hcase : s.sweep.entry v with
  | none => simp [(h.sweep hheap).gone v hcase]
  | some e =>
    obtain ⟨he, hfresh⟩ := VaultKeyCache.entry_sweep_eq_some.1 hcase
    have halive : (a.life v).Alive graceMs a.now := by
      rw [(h.entry v e he).alive_iff, ← h.now]
      exact hfresh
    simp [halive]

/-- what is returned was presented, and nothing of a higher generation was -/
theorem Refines.get_highest (h : Refines graceMs s a) (hheap : Heap s) {p : Bytes × ℕ} (hp : (s.get v).1 = some p) :
    (p.2, p.1) ∈ (a.life v).presented ∧
      ∀ q ∈ (a.life v).presented, q.1 ≤ p.2 ∧ (q.1 = p.2 → q.2 = p.1) := by
  unfold VaultKeyCache.get at hp
  cases hcase : s.sweep.entry v with
  | none =>
    rw [hcase] at hp
    cases hp
  | some e =>
    rw [hcase] at hp
    cases hp
    have hm := (h.sweep hheap).entry v e hcase
    have htop : (e.generation, s.sweep.buffers e.key) ∈ (a.life v).presented.argmax (·.1) := hm.top
    exact ⟨argmax_mem htop, fun q hq => ⟨le_of_mem_argmax hq htop, hm.agree q hq⟩⟩

/-- the closure of another entry's holder does nothing -/
theorem Refines.release_other (h : Refines graceMs s a) (hi : i ∉ (a.life v).holders) :
    (s.release graceMs i).entry v = s.entry v := by
  rw [h.holder_iff] at hi
  unfold VaultKeyCache.release
  split
  · next c hc =>
    split
    · rfl
    · next hreleased =>
      dsimp only
      split
      · rfl
      · next e he =>
        split
        · rfl
        · next hsame =>
          rw [VaultKeyCache.entry_set]
          refine if_neg ?_
          rintro rfl
          refine hi ⟨e, he, hc.trans ?_⟩
          rw [not_not.1 hsame, ← Bool.eq_false_of_not_eq_true hreleased]
  · rfl

section

variable (s : VaultKeyCache V)

@[simp] theorem VaultKeyCache.copies_sweep : s.sweep.copies = s.copies := s.frame_sweep.copies

@[simp] theorem VaultKeyCache.copies_hold (v : V) : (s.hold v).copies = s.copies := by
  unfold VaultKeyCache.hold
  split <;> rfl

@[simp] theorem VaultKeyCache.copies_extend (v : V) (til : ℕ) : (s.extend v til).copies = s.copies := by
  unfold VaultKeyCache.extend
  split <;> rfl

@[simp] theorem VaultKeyCache.copies_create (v : V) (key : Bytes) (generation refs : ℕ) (expiresAt : Option ℕ) (heldUntil : ℕ) :
    (s.create v key generation refs expiresAt heldUntil).copies = s.copies := rfl

@[simp] theorem VaultKeyCache.copies_rotate (v : V) (e : Entry) (key : Bytes) (generation : ℕ) :
    (s.rotate v e key generation).copies = s.copies := rfl

@[simp] theorem VaultKeyCache.copies_throws : s.throws.copies = s.copies := rfl

theorem VaultKeyCache.copies_acquire (v : V) (key : Bytes) (generation : ℕ) :
    (s.acquire v key generation).copies = s.copies := by
  unfold VaultKeyCache.acquire
  split
  · rfl
  · split
    · simp
    · split
      · simp
      · split <;> simp

theorem VaultKeyCache.copies_release (i : ℕ) : (s.release graceMs i).copies = s.copies := by
  unfold VaultKeyCache.release
  split
  · split
    · rfl
    · dsimp only
      split
      · rfl
      · split <;> rfl
  · rfl

theorem VaultKeyCache.copies_holdForRequest (v : V) (key : Bytes) (generation holdMs : ℕ) :
    (s.holdForRequest v key generation holdMs).copies = s.copies := by
  unfold VaultKeyCache.holdForRequest
  split
  · rfl
  · split
    · simp
    · split
      · simp
      · split
        · simp
        · split <;> simp

/-- what was handed out stays on the list -/
theorem copies_step (act : Action V) : s.copies ⊆ (step graceMs s act).copies := by
  apply subset_def.2
  intro c hc
  cases act with
  | tick ms => exact hc
  | acquire v key generation => exact (s.copies_acquire v key generation).symm ▸ hc
  | release i => exact (s.copies_release i).symm ▸ hc
  | holdForRequest v key generation holdMs => exact (s.copies_holdForRequest v key generation holdMs).symm ▸ hc
  | get v =>
    change c ∈ (s.get v).2.copies
    unfold VaultKeyCache.get
    split
    · exact s.copies_sweep.symm ▸ hc
    · exact mem_append_left _ (s.copies_sweep.symm ▸ hc)
  | has v | sweep => exact s.copies_sweep.symm ▸ hc
  | evict v => exact (s.frame_evict v).copies ▸ hc

end

theorem copies_run (as bs : List (Action V)) : (run graceMs as).copies ⊆ (run graceMs (as ++ bs)).copies := by
  induction bs using List.reverseRecOn with
  | nil =>
    rw [append_nil]
    exact List.Subset.refl _
  | append_singleton bs act ih =>
    unfold run at ih ⊢
    rw [← append_assoc, Machine.run_snoc]
    exact List.Subset.trans ih (copies_step _ act)

variable (graceMs) in
/-- **The lifetime of a key.** after every sequence of actions a vault's key is there exactly while its life goes on: an
unreleased holder, less than the grace time since the last release, or a request hold that was taken and has not run
out, and no eviction since. the key is the one of the highest generation that was presented. a release whose holder is
none of the vault's life, as after an eviction, leaves the entry as it is. what `get` handed out is never zeroed. -/
theorem key_lifetime (as : List (Action V)) :
    (∀ vaultId, ((run graceMs as).get vaultId).1.isSome ↔
      ((Lives.run graceMs as).life vaultId).Alive graceMs (Lives.run graceMs as).now) ∧
    (∀ vaultId, ((run graceMs as).has vaultId).1 = true ↔
      ((Lives.run graceMs as).life vaultId).Alive graceMs (Lives.run graceMs as).now) ∧
    (∀ vaultId p, ((run graceMs as).get vaultId).1 = some p →
      (p.2, p.1) ∈ ((Lives.run graceMs as).life vaultId).presented ∧
        ∀ q ∈ ((Lives.run graceMs as).life vaultId).presented, q.1 ≤ p.2 ∧ (q.1 = p.2 → q.2 = p.1)) ∧
    (∀ i vaultId, i ∉ ((Lives.run graceMs as).life vaultId).holders →
      ((run graceMs as).release graceMs i).entry vaultId = (run graceMs as).entry vaultId) ∧
    ∀ c ∈ (run graceMs as).copies, ∀ bs, (run graceMs (as ++ bs)).buffers c.1 = c.2 := by
  obtain ⟨hheap, h⟩ := refines_run graceMs as
  refine ⟨?_, ?_, ?_, ?_, ?_⟩
  · intro v
    rw [← h.isSome_iff hheap]
    unfold VaultKeyCache.get
    cases (run graceMs as).sweep.entry v <;> rfl
  · exact fun v => h.isSome_iff hheap v
  · exact fun v p hp => h.get_highest hheap hp
  · exact fun i v hi => h.release_other hi
  · intro c hc bs
    exact (refines_run graceMs (as ++ bs)).1.intact c (copies_run as bs hc)

/-- a request presents an older key while the newer one is in its grace time: its hold is not taken -/
theorem older_request_is_not_held : ¬ ∀ as : List (Action Unit),
    ((run KEY_CACHE_GRACE_MS as).get ()).1.isSome ↔
      ((Lives.run KEY_CACHE_GRACE_MS as).life ()).AliveByRequests KEY_CACHE_GRACE_MS
        (Lives.run KEY_CACHE_GRACE_MS as).now := by
  intro h
  have hgone := (h [.acquire () (List.replicate 32 2) 2, .release 0, .tick 540000,
    .holdForRequest () (List.replicate 32 1) 1 REQUEST_KEY_HOLD_MS, .tick 120000]).2 (by decide +kernel)
  exact absurd hgone (by decide +kernel)

end

end Baalda.KeyCache
