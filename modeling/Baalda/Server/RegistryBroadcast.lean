/-
Coalesced registry broadcasts (`VaultChannel.publishRegistryChanged`, `flushRegistry`, `flushPendingRegistry`,
`onPubsub`'s `registry-changed` branch in sync/vault-channel.ts, `shutdown` in index.ts).

A write to a vault's folders or notes opens a window for the vault on the instance that took it, or folds into the one
already open there; the window's timer, or a flush, publishes one message that names the writes' origins, none when a
write had no origin. A connection answers a message with a `registry` frame unless every origin in it is its own.

Actors, in any order:
- connections of any vault on any instance that subscribe (`join`) and go (`leave`);
- HTTP writes (`write`), on any instance, with or without an origin;
- a window's timer (`timer`), a flush of an instance's windows (`flush`);
- the topic: each subscriber takes its next message (`deliver`);
- `shutdown` of an instance, up to its first await: it asks the WebSocketServer to close, and closes the pub/sub. The
  server's `close` event, which flushes, comes on a later turn and only when the last socket has closed: a `flush`
  that follows.
An open pub/sub hands a message to every subscriber of the topic; a closed one hands it to nobody.

Ghosts: the number of a write, a window and a connection, the writes folded into a window, what a connection is owed
(the writes made by others since it joined), what it sent and skipped, and the windows published.
-/
import Mathlib.Data.List.Basic
import Mathlib.Tactic
import Baalda.Lib.Machine

namespace Baalda.RegistryBroadcast

open List

/-! ## Model -/

/-- a value that JavaScript takes for true -/
def given (origin : Option String) : Option String := origin.filter fun o => o ≠ ""

structure Write where
  seq : ℕ
  origin : Option String
deriving DecidableEq, Repr

/-- a window still open -/
structure Window where
  id : ℕ
  /-- a set -/
  origins : List String
  anonymous : Bool
  writes : List Write
deriving DecidableEq, Repr

/-- a `registry-changed` message -/
structure Msg where
  origins : List String
  window : ℕ
  writes : List Write
deriving DecidableEq, Repr

section

variable {V : Type*}

/-- an entry of `pendingRegistry` -/
structure Pending (V : Type*) where
  inst : ℕ
  vaultId : V
  window : Window
deriving DecidableEq

/-- a connection subscribed to its vault's topic -/
structure Conn (V : Type*) where
  id : ℕ
  inst : ℕ
  vaultId : V
  clientId : Option String
  /-- the topic's messages on their way to it -/
  inbox : List Msg
  owed : List Write
  /-- the messages it answered with a `registry` frame -/
  sent : List Msg
  skipped : List Msg
deriving DecidableEq

structure St (V : Type*) where
  pending : List (Pending V)
  conns : List (Conn V)
  /-- the instances whose pub/sub is closed -/
  closed : List ℕ
  nextWrite : ℕ
  nextWindow : ℕ
  nextConn : ℕ
  published : List ℕ
deriving DecidableEq

def St.start : St V := ⟨[], [], [], 0, 0, 0, []⟩

variable [DecidableEq V]

def Window.start (id : ℕ) (w : Write) : Window := ⟨id, (given w.origin).toList, (given w.origin).isNone, [w]⟩

/-- fold a write into a window already open -/
def Window.fold (win : Window) (w : Write) : Window :=
  match given w.origin with
  | some o => { win with origins := win.origins.insert o, writes := win.writes ++ [w] }
  | none => { win with anonymous := true, writes := win.writes ++ [w] }

/-- what a window says when it is published: any anonymous contributor leaves it without origins -/
def Window.message (win : Window) : Msg := ⟨if win.anonymous then [] else win.origins, win.id, win.writes⟩

/-- is this the window of the vault on the instance? -/
def Pending.isAt (i : ℕ) (v : V) (p : Pending V) : Bool := p.inst = i ∧ p.vaultId = v

/-- did the connection's own client make the write? -/
def Conn.Own (c : Conn V) (w : Write) : Prop := ∃ o, c.clientId = some o ∧ given w.origin = some o

instance (c : Conn V) (w : Write) : Decidable (c.Own w) :=
  decidable_of_iff (∃ o ∈ c.clientId, given w.origin = some o) Iff.rfl

/-- ghost: the write is owed to every connection of the vault but its own -/
def Conn.owe (v : V) (w : Write) (c : Conn V) : Conn V :=
  if c.vaultId = v ∧ ¬ c.Own w then { c with owed := c.owed ++ [w] } else c

/-- the topic takes a message for the connection -/
def Conn.take (v : V) (m : Msg) (c : Conn V) : Conn V :=
  if c.vaultId = v then { c with inbox := c.inbox ++ [m] } else c

def publish (s : St V) (i : ℕ) (v : V) (m : Msg) : St V :=
  if i ∈ s.closed then s else { s with conns := s.conns.map (Conn.take v m), published := s.published ++ [m.window] }

/-- ghost: the next write -/
def St.nextOf (s : St V) (origin : Option String) : Write := ⟨s.nextWrite, origin⟩

def St.owe (s : St V) (v : V) (w : Write) : St V :=
  { s with conns := s.conns.map (Conn.owe v w), nextWrite := s.nextWrite + 1 }

/-- `immediate`: the coalescing time is zero -/
def publishRegistryChanged (immediate : Bool) (s : St V) (i : ℕ) (v : V) (w : Write) : St V :=
  if immediate then
    publish { s with nextWindow := s.nextWindow + 1 } i v ⟨(given w.origin).toList, s.nextWindow, [w]⟩
  else if s.pending.any (Pending.isAt i v) then
    { s with pending := s.pending.map fun p => if p.isAt i v then { p with window := p.window.fold w } else p }
  else
    { s with pending := s.pending ++ [⟨i, v, .start s.nextWindow w⟩], nextWindow := s.nextWindow + 1 }

def flushRegistry (s : St V) (i : ℕ) (v : V) : St V :=
  match s.pending.find? (Pending.isAt i v) with
  | none => s
  | some entry =>
    publish { s with pending := s.pending.filter fun p => !p.isAt i v } i v entry.window.message

/-- publish every window still open on the instance -/
def flushPendingRegistry (s : St V) (i : ℕ) : St V :=
  ((s.pending.filter fun p => p.inst = i).map Pending.vaultId).foldl (fun s v => flushRegistry s i v) s

/-- the `registry-changed` branch of `onPubsub` -/
def Conn.onRegistry (c : Conn V) (m : Msg) : Conn V :=
  if c.clientId ≠ none ∧ 0 < m.origins.length ∧ ∀ o ∈ m.origins, some o = c.clientId then
    { c with skipped := c.skipped ++ [m] }
  else { c with sent := c.sent ++ [m] }

/-- the connection takes its next message -/
def Conn.next (c : Conn V) : Conn V :=
  match c.inbox with
  | [] => c
  | m :: rest => Conn.onRegistry { c with inbox := rest } m

inductive Action (V : Type*) where
  | join (i : ℕ) (v : V) (origin : Option String)
  | leave (k : ℕ)
  | write (i : ℕ) (v : V) (origin : Option String)
  | timer (i : ℕ) (v : V)
  | flush (i : ℕ)
  | deliver (k : ℕ)
  | shutdown (i : ℕ)
deriving DecidableEq

def step (immediate : Bool) (s : St V) : Action V → St V
  | .join i v origin =>
    if i ∈ s.closed then s
    else
      { s with
        conns := s.conns ++ [⟨s.nextConn, i, v, given origin, [], [], [], []⟩]
        nextConn := s.nextConn + 1 }
  | .leave k => { s with conns := s.conns.filter fun c => c.id ≠ k }
  | .write i v origin => publishRegistryChanged immediate (s.owe v (s.nextOf origin)) i v (s.nextOf origin)
  | .timer i v => flushRegistry s i v
  | .flush i => flushPendingRegistry s i
  | .deliver k => { s with conns := s.conns.map fun c => if c.id = k then c.next else c }
  | .shutdown i => { s with conns := s.conns.filter fun c => c.inst ≠ i, closed := i :: s.closed }

/-! ## What is asked of a run -/

/-- a window that will still be published -/
def Live (s : St V) (p : Pending V) : Prop := p ∈ s.pending ∧ p.inst ∉ s.closed

/-- a frame answers the write, or is on its way: its message is, or its window is still open -/
def Answered (s : St V) (c : Conn V) (w : Write) : Prop :=
  (∃ m ∈ c.sent, w ∈ m.writes) ∨ (∃ m ∈ c.inbox, w ∈ m.writes) ∨
    ∃ p, Live s p ∧ p.vaultId = c.vaultId ∧ w ∈ p.window.writes

/-- every window is published or still will be, and every write by another answered or still will be -/
structure Delivers (s : St V) : Prop where
  windows : ∀ id < s.nextWindow, id ∈ s.published ∨ ∃ p, Live s p ∧ p.window.id = id
  writes : ∀ c ∈ s.conns, ∀ w ∈ c.owed, Answered s c w

/-- no instance is shut down with a window open, nor takes a write afterwards -/
def Ordered (s : St V) : Action V → Prop
  | .shutdown i => ∀ p ∈ s.pending, p.inst ≠ i
  | .write i _ _ => i ∉ s.closed
  | _ => True

/-! ## What a message says of its writes -/

/-- unless it names no origin, every write has one of the origins it names -/
def Msg.Fits (m : Msg) : Prop :=
  m.writes ≠ [] ∧ (m.origins = [] ∨ ∀ w ∈ m.writes, ∃ o ∈ m.origins, given w.origin = some o)

def Window.Fits (win : Window) : Prop :=
  win.writes ≠ [] ∧ (win.anonymous = true ∨ ∀ w ∈ win.writes, ∃ o ∈ win.origins, given w.origin = some o)

theorem Window.fits_start (id : ℕ) (w : Write) : (Window.start id w).Fits := by
  unfold Window.start Window.Fits
  cases h : given w.origin with
  | none => exact ⟨by simp, .inl rfl⟩
  | some o => exact ⟨by simp, .inr (by simp [h])⟩

theorem Window.Fits.fold {win : Window} (h : win.Fits) (w : Write) : (win.fold w).Fits := by
  unfold Window.fold
  cases hw : given w.origin with
  | none => exact ⟨by simp, .inl rfl⟩
  | some o =>
    refine ⟨by simp, h.2.imp_right fun hall x hx => ?_⟩
    obtain hx | hx := mem_append.1 hx
    · obtain ⟨o', ho', hx'⟩ := hall x hx
      exact ⟨o', mem_insert_of_mem ho', hx'⟩
    · obtain rfl := mem_singleton.1 hx
      exact ⟨o, mem_insert_self .., hw⟩

theorem Window.Fits.message {win : Window} (h : win.Fits) : win.message.Fits := by
  refine ⟨h.1, ?_⟩
  unfold Window.message
  cases ha : win.anonymous with
  | true => exact .inl rfl
  | false => exact .inr (h.2.resolve_left (by simp [ha]))

theorem Msg.fits_single (id : ℕ) (w : Write) : Msg.Fits ⟨(given w.origin).toList, id, [w]⟩ := by
  cases h : given w.origin with
  | none => exact ⟨by simp, .inl rfl⟩
  | some o => exact ⟨by simp, .inr (by simp [h])⟩

@[simp] theorem Window.fold_id (win : Window) (w : Write) : (win.fold w).id = win.id := by
  unfold Window.fold; split <;> rfl

@[simp] theorem Window.fold_writes (win : Window) (w : Write) : (win.fold w).writes = win.writes ++ [w] := by
  unfold Window.fold; split <;> rfl

@[simp] theorem Window.message_window (win : Window) : win.message.window = win.id := rfl

@[simp] theorem Window.message_writes (win : Window) : win.message.writes = win.writes := rfl

/-! ## One connection -/

/-- the windows whose messages the connection was handed -/
def Conn.got (c : Conn V) : List ℕ := (c.sent ++ c.skipped ++ c.inbox).map Msg.window

structure Conn.Ok (published : List ℕ) (c : Conn V) : Prop where
  inbox : ∀ m ∈ c.inbox, m.Fits
  /-- it is skipped for windows of its own writes only -/
  skipped : ∀ m ∈ c.skipped, m.writes ≠ [] ∧ ∀ w ∈ m.writes, c.Own w
  owed : ∀ w ∈ c.owed, ¬ c.Own w
  once : c.got.Nodup
  published : ∀ id ∈ c.got, id ∈ published

section

variable {c : Conn V} {pub : List ℕ} {m : Msg} {v : V} {w : Write}

theorem Conn.ok_new (k i : ℕ) (v : V) (clientId : Option String) :
    Conn.Ok pub ⟨k, i, v, clientId, [], [], [], []⟩ := by
  constructor <;> simp [Conn.got]

@[simp] theorem Conn.owe_inst : (c.owe v w).inst = c.inst := by unfold Conn.owe; split <;> rfl
@[simp] theorem Conn.take_inst : (c.take v m).inst = c.inst := by unfold Conn.take; split <;> rfl
@[simp] theorem Conn.owe_vaultId : (c.owe v w).vaultId = c.vaultId := by unfold Conn.owe; split <;> rfl
@[simp] theorem Conn.take_vaultId : (c.take v m).vaultId = c.vaultId := by unfold Conn.take; split <;> rfl
@[simp] theorem Conn.owe_inbox : (c.owe v w).inbox = c.inbox := by unfold Conn.owe; split <;> rfl
@[simp] theorem Conn.owe_sent : (c.owe v w).sent = c.sent := by unfold Conn.owe; split <;> rfl
@[simp] theorem Conn.take_sent : (c.take v m).sent = c.sent := by unfold Conn.take; split <;> rfl
@[simp] theorem Conn.take_owed : (c.take v m).owed = c.owed := by unfold Conn.take; split <;> rfl

theorem Conn.mem_owe {x : Write} (h : x ∈ (c.owe v w).owed) : x ∈ c.owed ∨ x = w ∧ c.vaultId = v ∧ ¬ c.Own w := by
  unfold Conn.owe at h
  split at h
  · next hv =>
    obtain h | h := mem_append.1 h
    · exact .inl h
    · exact .inr ⟨mem_singleton.1 h, hv⟩
  · exact .inl h

theorem Conn.Ok.owe (h : c.Ok pub) (v : V) (w : Write) : (c.owe v w).Ok pub := by
  unfold Conn.owe
  split
  · next hv =>
    refine ⟨h.inbox, h.skipped, fun x hx => ?_, h.once, h.published⟩
    obtain hx | hx := mem_append.1 hx
    · exact h.owed x hx
    · exact mem_singleton.1 hx ▸ hv.2
  · exact h

theorem Conn.Ok.mono (h : c.Ok pub) (id : ℕ) : c.Ok (pub ++ [id]) :=
  ⟨h.inbox, h.skipped, h.owed, h.once, fun x hx => mem_append_left _ (h.published x hx)⟩

/-- a message of a window not published before -/
theorem Conn.Ok.take (h : c.Ok pub) (hm : m.Fits) (hnew : m.window ∉ pub) (v : V) :
    (c.take v m).Ok (pub ++ [m.window]) := by
  unfold Conn.take
  split
  · have hgot : Conn.got { c with inbox := c.inbox ++ [m] } = c.got ++ [m.window] := by
      simp only [Conn.got, map_append, map_cons, map_nil, append_assoc]
    refine ⟨fun x hx => ?_, h.skipped, h.owed, ?_, fun id hid => ?_⟩
    · obtain hx | hx := mem_append.1 hx
      · exact h.inbox x hx
      · exact mem_singleton.1 hx ▸ hm
    · rw [hgot]
      apply nodup_append.2 ⟨h.once, nodup_singleton _, ?_⟩
      intro x hx y hy hxy
      obtain rfl := mem_singleton.1 hy
      exact hnew (h.published _ (hxy ▸ hx))
    · rw [hgot] at hid
      exact mem_append.2 ((mem_append.1 hid).imp_left (h.published id))
  · exact h.mono _

/-- a message with a write by another is answered with a frame -/
theorem Conn.skip_own (hm : m.Fits) (hne : 0 < m.origins.length) (hall : ∀ o ∈ m.origins, some o = c.clientId) :
    m.writes ≠ [] ∧ ∀ w ∈ m.writes, c.Own w := by
  refine ⟨hm.1, fun w hw => ?_⟩
  obtain hnil | hfits := hm.2
  · simp [hnil] at hne
  · obtain ⟨o, ho, hw'⟩ := hfits w hw
    exact ⟨o, (hall o ho).symm, hw'⟩

theorem Conn.Ok.next (h : c.Ok pub) : c.next.Ok pub := by
  unfold Conn.next
  split
  · exact h
  next m rest hin =>
  have hm : m.Fits := h.inbox m (hin ▸ .head _ ..)
  have hrest : ∀ x ∈ rest, x.Fits := fun x hx => h.inbox x (hin ▸ .tail _ hx)
  have hgot : c.got = (c.sent ++ c.skipped ++ m :: rest).map Msg.window := by rw [Conn.got, hin]
  have hperm (c' : Conn V) (hp : (c'.sent ++ c'.skipped ++ c'.inbox).Perm (c.sent ++ c.skipped ++ m :: rest)) :
      c'.got.Nodup ∧ ∀ id ∈ c'.got, id ∈ pub := by
    have hp' : c'.got.Perm c.got := by
      rw [hgot]
      exact hp.map _
    exact ⟨hp'.nodup_iff.2 h.once, fun id hid => h.published id (hp'.mem_iff.1 hid)⟩
  unfold Conn.onRegistry
  split
  · next hself =>
    obtain ⟨honce, hpub⟩ := hperm { c with inbox := rest, skipped := c.skipped ++ [m] } (by simp)
    refine ⟨hrest, fun x hx => ?_, h.owed, honce, hpub⟩
    obtain hx | hx := mem_append.1 hx
    · exact h.skipped x hx
    · obtain rfl := mem_singleton.1 hx
      exact Conn.skip_own (c := c) hm hself.2.1 hself.2.2
  · obtain ⟨honce, hpub⟩ := hperm { c with inbox := rest, sent := c.sent ++ [m] } (by
      simp only [append_assoc, singleton_append]
      exact Perm.append_left _ perm_middle.symm)
    exact ⟨hrest, h.skipped, h.owed, honce, hpub⟩

end

/-! ## The invariant -/

def Pending.key (p : Pending V) : ℕ × V := (p.inst, p.vaultId)

structure Inv (s : St V) : Prop where
  keys : (s.pending.map Pending.key).Nodup
  ids : (s.published ++ s.pending.map fun p => p.window.id).Nodup
  bound : ∀ id ∈ s.published ++ s.pending.map fun p => p.window.id, id < s.nextWindow
  fits : ∀ p ∈ s.pending, p.window.Fits
  conns : ∀ c ∈ s.conns, c.Ok s.published

theorem inv_start : Inv (St.start : St V) := by
  constructor <;> simp [St.start]

section

variable {s : St V} {i : ℕ} {v : V} {m : Msg}

variable {p : Pending V}

theorem isAt_iff : p.isAt i v = true ↔ p.key = (i, v) := by
  simp [Pending.isAt, Pending.key]

theorem Inv.publish (h : Inv s) (hm : m.Fits) (hnew : m.window ∉ s.published)
    (hpend : m.window ∉ s.pending.map fun p => p.window.id) (hlt : m.window < s.nextWindow) (i : ℕ) (v : V) :
    Inv (publish s i v m) := by
  unfold RegistryBroadcast.publish
  split
  · exact h
  refine ⟨h.keys, ?_, fun id hid => ?_, h.fits, fun c hc => ?_⟩
  · have hp : (s.published ++ [m.window] ++ s.pending.map fun p => p.window.id).Perm
        (m.window :: (s.published ++ s.pending.map fun p => p.window.id)) := by
      rw [append_assoc]
      exact perm_middle
    refine hp.nodup_iff.2 (nodup_cons.2 ⟨?_, h.ids⟩)
    simp only [mem_append, not_or]
    exact ⟨hnew, hpend⟩
  · simp only [append_assoc, mem_append, mem_singleton] at hid
    obtain hid | rfl | hid := hid
    · exact h.bound id (mem_append_left _ hid)
    · exact hlt
    · exact h.bound id (mem_append_right _ hid)
  · obtain ⟨c₀, hc₀, rfl⟩ := mem_map.1 hc
    exact (h.conns c₀ hc₀).take hm hnew v

/-- what a flush of one window does -/
theorem flushRegistry_cases (s : St V) (i : ℕ) (v : V) :
    flushRegistry s i v = s ∧ (∀ p ∈ s.pending, p.key ≠ (i, v)) ∨
      ∃ entry ∈ s.pending, entry.key = (i, v) ∧
        flushRegistry s i v =
          publish { s with pending := s.pending.filter fun p => !p.isAt i v } i v entry.window.message := by
  unfold flushRegistry
  cases hf : s.pending.find? (Pending.isAt i v) with
  | none =>
    refine .inl ⟨rfl, fun p hp hk => ?_⟩
    exact find?_eq_none.1 hf p hp (isAt_iff.2 hk)
  | some entry =>
    exact .inr ⟨entry, mem_of_find?_eq_some hf, isAt_iff.1 (find?_some hf), rfl⟩

/-- with its window taken out, the window's number is free -/
theorem Inv.erase (h : Inv s) {entry : Pending V} (he : entry ∈ s.pending) (hk : entry.key = (i, v)) :
    Inv { s with pending := s.pending.filter fun p => !p.isAt i v } ∧ entry.window.id ∉ s.published ∧
      entry.window.id ∉ (s.pending.filter fun p => !p.isAt i v).map fun p => p.window.id := by
  have hsub : (s.pending.filter fun p => !p.isAt i v).Sublist s.pending := filter_sublist
  have hidsub := (hsub.map fun p => p.window.id).append_left s.published
  have hids := nodup_append.1 h.ids
  refine ⟨⟨h.keys.sublist (hsub.map _), h.ids.sublist hidsub, fun id hid => h.bound id (hidsub.subset hid),
    fun p hp => h.fits p (hsub.subset hp), h.conns⟩, fun hp => ?_, fun hp => ?_⟩
  · exact hids.2.2 _ hp _ (mem_map_of_mem he) rfl
  · obtain ⟨p, hp, hpid⟩ := mem_map.1 hp
    have hpe : p = entry := inj_on_of_nodup_map hids.2.1 (hsub.subset hp) he hpid
    have hnot := (mem_filter.1 hp).2
    rw [hpe, isAt_iff.2 hk] at hnot
    cases hnot

theorem Inv.flushRegistry (h : Inv s) (i : ℕ) (v : V) : Inv (flushRegistry s i v) := by
  obtain ⟨heq, -⟩ | ⟨entry, he, hk, heq⟩ := flushRegistry_cases s i v
  · rw [heq]; exact h
  · obtain ⟨hinv, hnew, hpend⟩ := h.erase he hk
    rw [heq]
    exact hinv.publish (h.fits entry he).message hnew hpend
      (h.bound _ (mem_append_right _ (mem_map_of_mem he))) i v

theorem Inv.flushPendingRegistry (h : Inv s) (i : ℕ) : Inv (flushPendingRegistry s i) := by
  unfold RegistryBroadcast.flushPendingRegistry
  generalize (s.pending.filter fun p => p.inst = i).map Pending.vaultId = vs
  induction vs generalizing s with
  | nil => exact h
  | cons v vs ih => exact ih (h.flushRegistry i v)

theorem Inv.owe (h : Inv s) (v : V) (w : Write) : Inv (s.owe v w) := by
  refine ⟨h.keys, h.ids, h.bound, h.fits, fun c hc => ?_⟩
  obtain ⟨c₀, hc₀, rfl⟩ := mem_map.1 hc
  exact (h.conns c₀ hc₀).owe v w

/-- a number not given out yet is nobody's -/
theorem Inv.fresh (h : Inv s) : s.nextWindow ∉ s.published ++ s.pending.map fun p => p.window.id :=
  fun hid => lt_irrefl _ (h.bound _ hid)

theorem map_fold_key (i : ℕ) (v : V) (w : Write) (l : List (Pending V)) :
    (l.map fun p => if p.isAt i v then { p with window := p.window.fold w } else p).map Pending.key =
      l.map Pending.key := by
  rw [map_map]
  apply map_congr_left
  intro p _
  simp only [Function.comp_apply]
  split <;> rfl

theorem map_fold_id (i : ℕ) (v : V) (w : Write) (l : List (Pending V)) :
    (l.map fun p => if p.isAt i v then { p with window := p.window.fold w } else p).map (fun p => p.window.id) =
      l.map fun p => p.window.id := by
  rw [map_map]
  apply map_congr_left
  intro p _
  simp only [Function.comp_apply]
  split
  · exact Window.fold_id ..
  · rfl

theorem Inv.publishRegistryChanged (h : Inv s) (immediate : Bool) (i : ℕ) (v : V) (w : Write) :
    Inv (publishRegistryChanged immediate s i v w) := by
  unfold RegistryBroadcast.publishRegistryChanged
  have hfresh := h.fresh
  simp only [mem_append, not_or] at hfresh
  split
  · have h₁ : Inv { s with nextWindow := s.nextWindow + 1 } :=
      ⟨h.keys, h.ids, fun id hid => (h.bound id hid).trans (Nat.lt_succ_self _), h.fits, h.conns⟩
    exact h₁.publish (Msg.fits_single ..) hfresh.1 hfresh.2 (Nat.lt_succ_self _) i v
  split
  · refine ⟨?_, ?_, ?_, fun p hp => ?_, h.conns⟩
    · rw [map_fold_key]; exact h.keys
    · rw [map_fold_id]; exact h.ids
    · rw [map_fold_id]; exact h.bound
    · obtain ⟨p₀, hp₀, rfl⟩ := mem_map.1 hp
      split
      · exact (h.fits p₀ hp₀).fold _
      · exact h.fits p₀ hp₀
  · next hany =>
    have hnone : (i, v) ∉ s.pending.map Pending.key := by
      intro hk
      obtain ⟨p, hp, hpk⟩ := mem_map.1 hk
      exact hany (any_eq_true.2 ⟨p, hp, isAt_iff.2 hpk⟩)
    refine ⟨?_, ?_, fun id hid => ?_, fun p hp => ?_, h.conns⟩
    · rw [map_append]
      apply nodup_append.2 ⟨h.keys, nodup_singleton _, ?_⟩
      intro k hk k' hk' hkk
      obtain rfl := mem_singleton.1 hk'
      obtain rfl : k = (i, v) := hkk
      exact hnone hk
    · rw [map_append, ← append_assoc]
      apply nodup_append.2 ⟨h.ids, nodup_singleton _, ?_⟩
      intro k hk k' hk' hkk
      obtain rfl := mem_singleton.1 hk'
      obtain rfl : k = s.nextWindow := hkk
      exact h.fresh hk
    · rw [map_append, ← append_assoc] at hid
      obtain hid | hid := mem_append.1 hid
      · exact (h.bound id hid).trans (Nat.lt_succ_self _)
      · obtain rfl := mem_singleton.1 hid
        exact Nat.lt_succ_self _
    · obtain hp | hp := mem_append.1 hp
      · exact h.fits p hp
      · obtain rfl := mem_singleton.1 hp
        exact Window.fits_start ..

/-- **One step.** -/
theorem step_inv (immediate : Bool) (s : St V) (a : Action V) (h : Inv s) : Inv (step immediate s a) := by
  cases a with
  | join i v origin =>
    simp only [step]
    split
    · exact h
    refine ⟨h.keys, h.ids, h.bound, h.fits, fun c hc => ?_⟩
    obtain hc | hc := mem_append.1 hc
    · exact h.conns c hc
    · obtain rfl := mem_singleton.1 hc
      exact Conn.ok_new ..
  | leave k | shutdown i => exact ⟨h.keys, h.ids, h.bound, h.fits, fun c hc => h.conns c (mem_filter.1 hc).1⟩
  | write i v origin => exact (h.owe v _).publishRegistryChanged immediate i v _
  | timer i v => exact h.flushRegistry i v
  | flush i => exact h.flushPendingRegistry i
  | deliver k =>
    refine ⟨h.keys, h.ids, h.bound, h.fits, fun c hc => ?_⟩
    obtain ⟨c₀, hc₀, rfl⟩ := mem_map.1 hc
    split
    · exact (h.conns c₀ hc₀).next
    · exact h.conns c₀ hc₀

/-! ## Nothing is lost -/

/-- while nothing is lost, no window is open on an instance that was shut down -/
theorem Delivers.open_live (hd : Delivers s) (h : Inv s) (hp : p ∈ s.pending) : p.inst ∉ s.closed := by
  have hids := nodup_append.1 h.ids
  have hmem := mem_map_of_mem (f := fun p : Pending V => p.window.id) hp
  obtain hpub | ⟨q, hq, hqid⟩ := hd.windows _ (h.bound _ (mem_append_right _ hmem))
  · exact absurd rfl (hids.2.2 _ hpub _ hmem)
  · obtain rfl : q = p := inj_on_of_nodup_map hids.2.1 hq.1 hp hqid
    exact hq.2

theorem Answered.next {c : Conn V} {w : Write} (h : Answered s c w) (hc : c.Ok s.published) (hw : w ∈ c.owed) :
    Answered s c.next w := by
  unfold Conn.next
  split
  · exact h
  next m rest hin =>
  unfold Conn.onRegistry
  obtain ⟨x, hx, hxw⟩ | ⟨x, hx, hxw⟩ | hp := h
  · split
    · exact .inl ⟨x, hx, hxw⟩
    · exact .inl ⟨x, mem_append_left _ hx, hxw⟩
  · rw [hin] at hx
    obtain rfl | hx := mem_cons.1 hx
    · split
      · next hself =>
        have hown := Conn.skip_own (c := c) (hc.inbox x (hin ▸ .head _ ..)) hself.2.1 hself.2.2
        exact absurd (hown.2 w hxw) (hc.owed w hw)
      · exact .inl ⟨x, mem_append_right _ (mem_singleton_self _), hxw⟩
    · split
      · exact .inr (.inl ⟨x, hx, hxw⟩)
      · exact .inr (.inl ⟨x, hx, hxw⟩)
  · split
    · exact .inr (.inr hp)
    · exact .inr (.inr hp)

theorem Conn.next_owed (c : Conn V) : c.next.owed = c.owed := by
  unfold Conn.next Conn.onRegistry
  split
  · rfl
  · split <;> rfl

/-- a window of an open instance is published to every connection of its vault -/
theorem Delivers.flushRegistry (hd : Delivers s) (h : Inv s) (i : ℕ) (v : V) : Delivers (flushRegistry s i v) := by
  obtain ⟨heq, -⟩ | ⟨entry, he, hk, heq⟩ := flushRegistry_cases s i v
  · rw [heq]; exact hd
  have hopen := hd.open_live h he
  have hi : entry.inst = i := congrArg Prod.fst hk
  have hv : entry.vaultId = v := congrArg Prod.snd hk
  have hkeep {p : Pending V} (hp : Live s p) : p = entry ∨ p ∈ s.pending.filter fun p => !p.isAt i v := by
    by_cases hpk : p.key = (i, v)
    · exact .inl (inj_on_of_nodup_map h.keys hp.1 he (hpk.trans hk.symm))
    · have hat : p.isAt i v = false := Bool.eq_false_iff.2 fun hat => hpk (isAt_iff.1 hat)
      exact .inr (mem_filter.2 ⟨hp.1, by rw [hat]; rfl⟩)
  rw [heq, RegistryBroadcast.publish, if_neg (hi ▸ hopen)]
  refine ⟨fun id hid => ?_, fun c hc w hw => ?_⟩
  · obtain hpub | ⟨p, hp, hpid⟩ := hd.windows id hid
    · exact .inl (mem_append_left _ hpub)
    · obtain rfl | hp' := hkeep hp
      · exact .inl (mem_append_right _ (mem_singleton.2 hpid.symm))
      · exact .inr ⟨p, ⟨hp', hp.2⟩, hpid⟩
  · obtain ⟨c₀, hc₀, rfl⟩ := mem_map.1 hc
    rw [Conn.take_owed] at hw
    have hinbox {m : Msg} (hm : m ∈ c₀.inbox) : m ∈ (c₀.take v entry.window.message).inbox := by
      unfold Conn.take
      split
      · exact mem_append_left _ hm
      · exact hm
    obtain ⟨x, hx, hxw⟩ | ⟨x, hx, hxw⟩ | ⟨p, hp, hpv, hpw⟩ := hd.writes c₀ hc₀ w hw
    · exact .inl ⟨x, by rwa [Conn.take_sent], hxw⟩
    · exact .inr (.inl ⟨x, hinbox hx, hxw⟩)
    · obtain rfl | hp' := hkeep hp
      · refine .inr (.inl ⟨p.window.message, ?_, hpw⟩)
        unfold Conn.take
        rw [if_pos (hpv.symm.trans hv)]
        exact mem_append_right _ (mem_singleton_self _)
      · exact .inr (.inr ⟨p, ⟨hp', hp.2⟩, by rwa [Conn.take_vaultId], hpw⟩)

theorem Delivers.flushPendingRegistry (hd : Delivers s) (h : Inv s) (i : ℕ) :
    Delivers (flushPendingRegistry s i) := by
  unfold RegistryBroadcast.flushPendingRegistry
  generalize (s.pending.filter fun p => p.inst = i).map Pending.vaultId = vs
  induction vs generalizing s with
  | nil => exact hd
  | cons v vs ih => exact ih (hd.flushRegistry h i v) (h.flushRegistry i v)

theorem Answered.mono {s' : St V} {c c' : Conn V} {w : Write} (h : Answered s c w) (hsent : c'.sent = c.sent)
    (hinbox : ∀ m ∈ c.inbox, m ∈ c'.inbox) (hv : c'.vaultId = c.vaultId)
    (hlive : ∀ p, Live s p → ∃ q, Live s' q ∧ q.vaultId = p.vaultId ∧ ∀ x ∈ p.window.writes, x ∈ q.window.writes) :
    Answered s' c' w := by
  obtain ⟨m, hm, hw⟩ | ⟨m, hm, hw⟩ | ⟨p, hp, hpv, hw⟩ := h
  · exact .inl ⟨m, hsent ▸ hm, hw⟩
  · exact .inr (.inl ⟨m, hinbox m hm, hw⟩)
  · obtain ⟨q, hq, hqv, hsub⟩ := hlive p hp
    exact .inr (.inr ⟨q, hq, (hqv.trans hpv).trans hv.symm, hsub w hw⟩)

/-- the window a write of an open instance is folded into, or opens, is still to be published; or it is published -/
theorem Delivers.publishRegistryChanged (hd : Delivers s) (immediate : Bool) (hi : i ∉ s.closed) (w : Write) :
    Delivers (publishRegistryChanged immediate (s.owe v w) i v w) := by
  unfold RegistryBroadcast.publishRegistryChanged
  split
  · -- published at once
    have hopen : i ∉ ({ s.owe v w with nextWindow := (s.owe v w).nextWindow + 1 } : St V).closed := hi
    rw [RegistryBroadcast.publish, if_neg hopen]
    refine ⟨fun id hid => ?_, fun c hc x hx => ?_⟩
    · obtain hlt | rfl := Nat.lt_succ_iff_lt_or_eq.1 hid
      · exact (hd.windows id hlt).imp_left (mem_append_left _)
      · exact .inl (mem_append_right _ (mem_singleton_self _))
    · simp only [St.owe, map_map] at hc
      obtain ⟨c₀, hc₀, rfl⟩ := mem_map.1 hc
      simp only [Function.comp_apply, Conn.take_owed] at hx ⊢
      obtain hx | ⟨rfl, hv, -⟩ := Conn.mem_owe hx
      · refine (hd.writes c₀ hc₀ x hx).mono (by simp) (fun m hm => ?_) (by simp) fun p hp => ⟨p, hp, rfl, fun _ h => h⟩
        unfold Conn.take
        split
        · exact mem_append_left _ (by simpa using hm)
        · simpa using hm
      · refine .inr (.inl ⟨⟨(given x.origin).toList, (s.owe v x).nextWindow, [x]⟩, ?_, mem_singleton_self x⟩)
        unfold Conn.take
        rw [if_pos (by simpa using hv)]
        exact mem_append_right _ (mem_singleton_self _)
  split
  · -- folded into the window open there
    next hany =>
    obtain ⟨q, hq, hqat⟩ := any_eq_true.1 hany
    have hlive {p : Pending V} (hp : Live s p) :
        ∃ p', p' ∈ (s.pending.map fun p => if p.isAt i v then { p with window := p.window.fold w } else p) ∧
          p'.inst ∉ s.closed ∧ p'.window.id = p.window.id ∧ p'.vaultId = p.vaultId ∧
          ∀ x ∈ p.window.writes, x ∈ p'.window.writes := by
      refine ⟨_, mem_map_of_mem hp.1, ?_⟩
      split
      · exact ⟨hp.2, Window.fold_id .., rfl, fun x hx => by simp [hx]⟩
      · exact ⟨hp.2, rfl, rfl, fun _ hx => hx⟩
    refine ⟨fun id hid => ?_, fun c hc x hx => ?_⟩
    · refine (hd.windows id hid).imp_right fun ⟨p, hp, hpid⟩ => ?_
      obtain ⟨p', hp', hopen, hid', -⟩ := hlive hp
      exact ⟨p', ⟨hp', hopen⟩, hid'.trans hpid⟩
    · obtain ⟨c₀, hc₀, rfl⟩ := mem_map.1 hc
      obtain hx | ⟨rfl, hv, -⟩ := Conn.mem_owe hx
      · refine (hd.writes c₀ hc₀ x hx).mono (by simp) (fun m hm => by simpa using hm) (by simp) fun p hp => ?_
        obtain ⟨p', hp', hopen, -, hpv, hsub⟩ := hlive hp
        exact ⟨p', ⟨hp', hopen⟩, hpv, hsub⟩
      · have hqk : q.inst = i ∧ q.vaultId = v := by simpa [Pending.isAt] using hqat
        refine .inr (.inr ⟨{ q with window := q.window.fold x }, ⟨mem_map.2 ⟨q, hq, ?_⟩, ?_⟩, ?_, ?_⟩)
        · rw [if_pos hqat]
        · exact hqk.1 ▸ hi
        · exact (hqk.2.trans hv.symm).trans Conn.owe_vaultId.symm
        · simp
  · -- a window is opened
    have hlive {p : Pending V} (hp : Live s p) (win : Window) :
        p ∈ s.pending ++ [⟨i, v, win⟩] ∧ p.inst ∉ s.closed := ⟨mem_append_left _ hp.1, hp.2⟩
    refine ⟨fun id hid => ?_, fun c hc x hx => ?_⟩
    · obtain hlt | rfl := Nat.lt_succ_iff_lt_or_eq.1 hid
      · exact (hd.windows id hlt).imp_right fun ⟨p, hp, hpid⟩ => ⟨p, hlive hp _, hpid⟩
      · exact .inr ⟨_, ⟨mem_append_right _ (mem_singleton_self _), hi⟩, rfl⟩
    · obtain ⟨c₀, hc₀, rfl⟩ := mem_map.1 hc
      obtain hx | ⟨rfl, hv, -⟩ := Conn.mem_owe hx
      · exact (hd.writes c₀ hc₀ x hx).mono (by simp) (fun m hm => by simpa using hm) (by simp) fun p hp =>
          ⟨p, hlive hp _, rfl, fun _ h => h⟩
      · exact .inr (.inr ⟨_, ⟨mem_append_right _ (mem_singleton_self _), hi⟩,
          hv.symm.trans Conn.owe_vaultId.symm, mem_singleton_self _⟩)

/-- a write that comes to an instance after its shutdown opens a window nobody hears of -/
theorem Delivers.not_after_close (hd : Delivers s) (h : Inv s) (immediate : Bool) (hi : i ∈ s.closed) (w : Write) :
    ¬ Delivers (RegistryBroadcast.publishRegistryChanged immediate (s.owe v w) i v w) := by
  intro hd'
  have hfresh := h.fresh
  simp only [mem_append, not_or] at hfresh
  have hnone : ¬ (s.owe v w).pending.any (Pending.isAt i v) = true := by
    intro hany
    obtain ⟨q, hq, hqat⟩ := any_eq_true.1 hany
    have hqi : q.inst = i := congrArg Prod.fst (isAt_iff.1 hqat)
    exact hd.open_live h hq (hqi ▸ hi)
  rw [RegistryBroadcast.publishRegistryChanged, if_neg hnone] at hd'
  split at hd'
  · have hclosed : i ∈ ({ s.owe v w with nextWindow := (s.owe v w).nextWindow + 1 } : St V).closed := hi
    rw [RegistryBroadcast.publish, if_pos hclosed] at hd'
    obtain hpub | ⟨p, hp, hpid⟩ := hd'.windows s.nextWindow (Nat.lt_succ_self _)
    · exact hfresh.1 hpub
    · exact hfresh.2 (mem_map.2 ⟨p, hp.1, hpid⟩)
  · obtain hpub | ⟨p, hp, hpid⟩ := hd'.windows s.nextWindow (Nat.lt_succ_self _)
    · exact hfresh.1 hpub
    · obtain hmem | hmem := mem_append.1 hp.1
      · exact hfresh.2 (mem_map.2 ⟨p, hmem, hpid⟩)
      · obtain rfl := mem_singleton.1 hmem
        exact hp.2 hi

/-- **One step, exactly.** While nothing is lost, a step loses nothing exactly when it is in order. -/
theorem step_delivers (immediate : Bool) (s : St V) (a : Action V) (h : Inv s) (hd : Delivers s) :
    Delivers (step immediate s a) ↔ Ordered s a := by
  cases a with
  | join i v origin =>
    refine iff_of_true ?_ trivial
    simp only [step]
    split
    · exact hd
    refine ⟨hd.windows, fun c hc w hw => ?_⟩
    obtain hc | hc := mem_append.1 hc
    · exact hd.writes c hc w hw
    · obtain rfl := mem_singleton.1 hc
      cases hw
  | leave k =>
    exact iff_of_true ⟨hd.windows, fun c hc w hw => hd.writes c (mem_filter.1 hc).1 w hw⟩ trivial
  | write i v origin =>
    constructor
    · intro hd' hi
      exact hd.not_after_close h immediate hi _ hd'
    · exact fun hi => hd.publishRegistryChanged immediate hi _
  | timer i v => exact iff_of_true (hd.flushRegistry h i v) trivial
  | flush i => exact iff_of_true (hd.flushPendingRegistry h i) trivial
  | deliver k =>
    refine iff_of_true ⟨hd.windows, fun c hc w hw => ?_⟩ trivial
    obtain ⟨c₀, hc₀, rfl⟩ := mem_map.1 hc
    split at hw
    · next hk =>
      rw [Conn.next_owed] at hw
      rw [if_pos hk]
      exact (hd.writes c₀ hc₀ w hw).next (h.conns c₀ hc₀) hw
    · next hk =>
      rw [if_neg hk]
      exact hd.writes c₀ hc₀ w hw
  | shutdown i =>
    constructor
    · intro hd' p hp hpi
      have h' : Inv (step immediate s (.shutdown i)) := step_inv immediate s _ h
      exact hd'.open_live h' hp (hpi ▸ .head _ ..)
    · intro hnone
      have hlive {p : Pending V} (hp : Live s p) : p ∈ s.pending ∧ p.inst ∉ i :: s.closed :=
        ⟨hp.1, fun hmem => (mem_cons.1 hmem).elim (hnone p hp.1) hp.2⟩
      refine ⟨fun id hid => ?_, fun c hc w hw => ?_⟩
      · exact (hd.windows id hid).imp_right fun ⟨p, hp, hpid⟩ => ⟨p, hlive hp, hpid⟩
      · exact (hd.writes c (mem_filter.1 hc).1 w hw).mono rfl (fun _ hm => hm) rfl fun p hp =>
          ⟨p, hlive hp, rfl, fun _ hx => hx⟩

/-! ## A flush publishes what is open, once -/

theorem find_isAt (h : (s.pending.map Pending.key).Nodup) (hp : p ∈ s.pending) :
    s.pending.find? (Pending.isAt p.inst p.vaultId) = some p := by
  obtain ⟨q, hq⟩ : ∃ q, s.pending.find? (Pending.isAt p.inst p.vaultId) = some q := by
    apply Option.isSome_iff_exists.1
    exact find?_isSome.2 ⟨p, hp, isAt_iff.2 rfl⟩
  have hqp : q = p :=
    inj_on_of_nodup_map h (mem_of_find?_eq_some hq) hp (isAt_iff.1 (find?_some hq))
  rw [hq, hqp]

/-- on an open instance, a flush publishes the windows open there, in order, and leaves none -/
theorem flushPendingRegistry_open (h : (s.pending.map Pending.key).Nodup) (hi : i ∉ s.closed) :
    (flushPendingRegistry s i).pending = s.pending.filter (fun p => p.inst ≠ i) ∧
      (flushPendingRegistry s i).published =
        s.published ++ (s.pending.filter fun p => p.inst = i).map fun p => p.window.id := by
  unfold RegistryBroadcast.flushPendingRegistry
  generalize hl : (s.pending.filter fun p => p.inst = i) = l
  induction l generalizing s with
  | nil =>
    refine ⟨?_, (append_nil _).symm⟩
    symm
    apply filter_eq_self.2
    intro p hp
    have hnot := filter_eq_nil_iff.1 hl p hp
    simpa using hnot
  | cons p l ih =>
    have hp : p ∈ s.pending ∧ p.inst = i := by
      have hmem : p ∈ s.pending.filter fun p => p.inst = i := by rw [hl]; exact .head _ ..
      simpa using mem_filter.1 hmem
    have hsub : (s.pending.filter fun q => !q.isAt i p.vaultId).Sublist s.pending := filter_sublist
    have hfind := find_isAt h hp.1
    rw [hp.2] at hfind
    have hflush : flushRegistry s i p.vaultId =
        { s with
          pending := s.pending.filter fun q => !q.isAt i p.vaultId
          conns := s.conns.map (Conn.take p.vaultId p.window.message)
          published := s.published ++ [p.window.id] } := by
      simp only [flushRegistry, hfind, publish, if_neg hi, Window.message_window]
    have hkeys : l.Nodup ∧ p ∉ l := by
      have hnd : (p :: l).Nodup := by
        rw [← hl]
        exact (Nodup.of_map _ h).sublist filter_sublist
      exact ⟨(nodup_cons.1 hnd).2, (nodup_cons.1 hnd).1⟩
    have hrest : (s.pending.filter fun q => !q.isAt i p.vaultId).filter (fun q => q.inst = i) = l := by
      have hat : p.isAt i p.vaultId = true := isAt_iff.2 (Prod.ext hp.2 rfl)
      rw [filter_comm, hl, filter_cons, hat]
      apply filter_eq_self.2
      intro q hq
      have hqmem : q ∈ s.pending := by
        have hmem : q ∈ s.pending.filter fun p => p.inst = i := by rw [hl]; exact .tail _ hq
        exact (mem_filter.1 hmem).1
      rw [Bool.not_eq_true']
      apply Bool.eq_false_iff.2
      intro hat
      have hqp : q = p :=
        inj_on_of_nodup_map h hqmem hp.1 ((isAt_iff.1 hat).trans (Prod.ext hp.2.symm rfl))
      exact hkeys.2 (hqp ▸ hq)
    simp only [map_cons, foldl_cons, hflush]
    obtain ⟨hpend, hpub⟩ := ih (s := { s with
      pending := s.pending.filter fun q => !q.isAt i p.vaultId
      conns := s.conns.map (Conn.take p.vaultId p.window.message)
      published := s.published ++ [p.window.id] }) (h.sublist (hsub.map _)) hi hrest
    refine ⟨hpend.trans ?_, hpub.trans ?_⟩
    · rw [filter_filter]
      apply filter_congr
      intro q _
      by_cases hq : q.inst = i
      · simp [hq]
      · simp [hq, Pending.isAt]
    · simp

end

/-! ## The law -/

/-- **Coalescing loses nothing but at shutdown.** After every run of joins, writes, timers, flushes, deliveries and
shutdowns:
- a window is published at most once, and each connection is handed its message at most once;
- a connection is skipped for a window only if every write of it carried the connection's own origin;
- a flush of an instance whose pub/sub is open publishes each window open there, once, and leaves none.
Every window is published, or open and still to be, and every write by another is answered with a frame, or is on its
way to be, all along the run, exactly when no instance is shut down with a window open nor takes a write afterwards. -/
theorem broadcasts_kept (immediate : Bool) (as : List (Action V)) :
    let s := Machine.run (step immediate) St.start as
    s.published.Nodup ∧
    (∀ c ∈ s.conns, c.got.Nodup ∧ ∀ m ∈ c.skipped, m.writes ≠ [] ∧ ∀ w ∈ m.writes, c.Own w) ∧
    (∀ i, i ∉ s.closed →
      (flushPendingRegistry s i).pending = s.pending.filter (fun p => p.inst ≠ i) ∧
        (flushPendingRegistry s i).published =
          s.published ++ (s.pending.filter fun p => p.inst = i).map fun p => p.window.id) ∧
    ((∀ n, Delivers (Machine.run (step immediate) St.start (as.take n))) ↔
      Machine.Guarded (step immediate) Ordered St.start as) := by
  have h : Inv (Machine.run (step immediate) St.start as) :=
    Machine.run_inv_all Inv (step_inv immediate) inv_start
  refine ⟨(nodup_append.1 h.ids).1, fun c hc => ⟨(h.conns c hc).once, (h.conns c hc).skipped⟩,
    fun i hi => flushPendingRegistry_open h.keys hi, ?_⟩
  have hstart : Delivers (St.start : St V) := ⟨fun _ hid => (nomatch hid), fun _ hc => (nomatch hc)⟩
  exact (Machine.guarded_iff (step_inv immediate) (step_delivers immediate) inv_start hstart as).symm

/-! ## Runs on fixed inputs -/

/-- A connection on instance 1, a write by another client on instance 0, whose shutdown begins before the timer: the
flush that follows finds the pub/sub closed, and the connection never hears of the write. -/
theorem shutdown_loses_window :
    let s := Machine.run (step false) (St.start : St ℕ)
      [.join 1 7 (some "b"), .write 0 7 (some "a"), .shutdown 0, .flush 0]
    s.pending = [] ∧ s.published = [] ∧ s.nextWindow = 1 ∧
      ∃ c ∈ s.conns, c.owed ≠ [] ∧ c.inbox = [] ∧ c.sent = [] ∧ c.skipped = [] := by
  decide +kernel

end

end Baalda.RegistryBroadcast
