/-
The desktop's vault channel (`sync/vaultSyncEngine.ts`): one WebSocket to the server, reconnected with backoff, and the
queue of updates received on it.

A state holds the engine's fields and its suspended continuations: connects that wait for the manifest (`loading`), the
`onOpen` of each socket between its awaits (`openings`), timers that wait for the vault key (`keyLaps`), the drain of the
queue (`drain`). Every action is one synchronous stretch of the source: a call, a timer, a socket event, or the
continuation of an await. Sockets keep what they were sent.

Left out: what only the status badge, presence and voice read, the frames that are handed to a callback, and the delay of a
reconnect (its timer may fire at any later time). A callback that calls the engine back is an action of its own.
-/
import Baalda.Lib.Machine

namespace Baalda.SyncEngine

variable {M : Type*}

/-! ## State -/

inductive SocketPhase where
  | connecting
  | opened
  | closed
deriving DecidableEq

structure Hello (M : Type*) where
  token : ℕ
  manifest : M
  liveOnly : Bool
  /-- ghost: had the socket opened when this was sent? -/
  afterOpen : Bool
deriving DecidableEq

structure Socket (M : Type*) where
  /-- the token minted for the attempt that made this socket -/
  token : ℕ
  phase : SocketPhase
  hasOpened : Bool
  /-- the engine's handlers are on it -/
  attached : Bool
  hellos : List (Hello M)
deriving DecidableEq

/-- an `onOpen` that awaits its token, or its manifest -/
structure Opening where
  socket : ℕ
  token : ℕ
  minted : Bool
deriving DecidableEq

structure Channel (M : Type*) where
  stopped : Bool
  backfilling : Bool
  liveOnly : Bool
  sinkReady : Bool
  waitingForSink : Bool
  /-- connects that wait for the manifest, by generation -/
  loading : List ℕ
  connectGen : ℕ
  ws : Option ℕ
  sockets : List (Socket M)
  tokenPromise : Option ℕ
  nextToken : ℕ
  openings : List Opening
  reconnectTimer : Bool
  keyWait : Option ℕ
  nextKeyWait : ℕ
  /-- reconnects that wait for a key, by the promise they wait for -/
  keyLaps : List ℕ
  sentManifest : M
deriving DecidableEq

structure Frame where
  docId : ℕ
  update : List UInt8
  /-- part of a backfill -/
  counted : Bool
deriving DecidableEq

/-- the drain loop: not running, in the handler, or past its end with its `finally` to come -/
inductive Drain where
  | idle
  | handling (frame : Frame)
  | ended
deriving DecidableEq

structure Inbound where
  queue : List Frame
  bytes : ℕ
  drain : Drain
  backpressured : Bool
  total : ℕ
  done : ℕ
  /-- ghost: every frame put in the queue -/
  accepted : List Frame
  /-- ghost: every frame given to the sink -/
  handled : List Frame
  /-- ghost: queue and drain at every idle signal -/
  idleSignals : List (List Frame × Drain)
deriving DecidableEq

structure Engine (M : Type*) where
  chan : Channel M
  inbound : Inbound
deriving DecidableEq

structure Config where
  inboundMaxBytes : ℕ
  /-- the sink has a manifest to load -/
  sinkWaits : Bool
  /-- the host can fetch the vault key -/
  ensuresKey : Bool

variable (cfg : Config)

def init (manifest : M) (liveOnly : Bool) : Engine M where
  chan :=
    { stopped := false, backfilling := false, liveOnly, sinkReady := false, waitingForSink := false, loading := [],
      connectGen := 0, ws := none, sockets := [], tokenPromise := none, nextToken := 0, openings := [],
      reconnectTimer := false, keyWait := none, nextKeyWait := 0, keyLaps := [], sentManifest := manifest }
  inbound :=
    { queue := [], bytes := 0, drain := .idle, backpressured := false, total := 0, done := 0, accepted := [],
      handled := [], idleSignals := [] }

/-! ## The channel -/

namespace Channel

/-- the socket loses its handlers and is closed -/
def closeSocket (c : Channel M) : Channel M :=
  let c := { c with tokenPromise := none, connectGen := c.connectGen + 1 }
  match c.ws with
  | none => c
  | some i => { c with ws := none, sockets := c.sockets.modify i fun s => { s with attached := false, phase := .closed } }

def scheduleReconnect (c : Channel M) : Channel M :=
  if c.stopped ∨ c.reconnectTimer then c else { c with reconnectTimer := true }

def onDisconnect (c : Channel M) : Channel M :=
  if c.stopped then c else (closeSocket { c with backfilling := false }).scheduleReconnect

/-- the socket's factory may throw -/
def openSocket (factory : Bool) (c : Channel M) : Channel M :=
  let minting := c.nextToken
  let c := { c with tokenPromise := some minting, nextToken := minting + 1 }
  if factory then
    { c with ws := some c.sockets.length, sockets := c.sockets ++ [⟨minting, .connecting, false, true, []⟩] }
  else c.scheduleReconnect

def connect (factory : Bool) (c : Channel M) : Channel M :=
  let gen := c.connectGen + 1
  let c := { c with connectGen := gen }
  if c.sinkReady ∨ ¬ cfg.sinkWaits then openSocket factory { c with sinkReady := true }
  else { c with waitingForSink := true, loading := c.loading ++ [gen] }

def requestVaultKey (c : Channel M) : Channel M :=
  if c.keyWait.isSome ∨ ¬ cfg.ensuresKey then c
  else { c with keyWait := some c.nextKeyWait, nextKeyWait := c.nextKeyWait + 1 }

/-- `stop`, but for the queue -/
def stop (c : Channel M) : Channel M :=
  closeSocket { c with stopped := true, reconnectTimer := false, backfilling := false }

def start (factory : Bool) (c : Channel M) : Channel M :=
  if c.stopped ∨ c.ws.isSome ∨ c.waitingForSink then c else c.connect cfg factory

def refresh (c : Channel M) : Channel M :=
  if c.stopped then c else (closeSocket { c with backfilling := false }).scheduleReconnect

def reconnect (liveOnly : Option Bool) (c : Channel M) : Channel M :=
  ({ c with liveOnly := liveOnly.getD c.liveOnly } : Channel M).refresh

/-- the manifest a connect waited for has loaded -/
def sinkLoads (gen : ℕ) (factory : Bool) (c : Channel M) : Channel M :=
  if gen ∈ c.loading then
    let c := { c with loading := c.loading.erase gen, waitingForSink := false, sinkReady := true }
    if c.stopped ∨ gen ≠ c.connectGen ∨ c.ws.isSome then c else c.openSocket factory
  else c

def timerFires (factory : Bool) (c : Channel M) : Channel M :=
  if c.reconnectTimer then
    let c := { c with reconnectTimer := false }
    if c.stopped then c
    else
      match c.keyWait with
      | none => c.connect cfg factory
      | some waiting => { c with keyLaps := c.keyLaps ++ [waiting] }
  else c

/-- the key a reconnect waited for is ready, or is not -/
def keyAnswers (waiting : ℕ) (ok factory : Bool) (c : Channel M) : Channel M :=
  if waiting ∈ c.keyLaps then
    let c := { c with keyLaps := c.keyLaps.erase waiting, keyWait := c.keyWait.filter fun k => k ≠ waiting }
    if c.stopped ∨ c.ws.isSome ∨ c.reconnectTimer then c
    else if ok then c.connect cfg factory
    else (c.requestVaultKey cfg).scheduleReconnect
  else c

/-- the socket opens, once: `onOpen` begins -/
def opens (i : ℕ) (c : Channel M) : Channel M :=
  match c.sockets[i]? with
  | none => c
  | some s =>
    if s.phase = .connecting then
      let c := { c with sockets := c.sockets.modify i fun s => { s with phase := .opened, hasOpened := true } }
      if s.attached then
        match c.tokenPromise with
        | some token => { c with openings := c.openings ++ [⟨i, token, false⟩] }
        | none => { c with openings := c.openings ++ [⟨i, c.nextToken, false⟩], nextToken := c.nextToken + 1 }
      else c
    else c

inductive CloseCode where
  | unauthorized
  | keyRequired
  | other
deriving DecidableEq

def handlersOn (c : Channel M) (i : ℕ) : Bool := (c.sockets[i]?).any (·.attached)

def markClosed (i : ℕ) (c : Channel M) : Channel M :=
  { c with sockets := c.sockets.modify i fun s => { s with phase := .closed } }

def closes (i : ℕ) (code : CloseCode) (c : Channel M) : Channel M :=
  if c.handlersOn i then
    let c := c.markClosed i
    match code with
    | .unauthorized => closeSocket { c with stopped := true }
    | .keyRequired => (c.requestVaultKey cfg).onDisconnect
    | .other => c.onDisconnect
  else c

def errors (i : ℕ) (c : Channel M) : Channel M :=
  if c.handlersOn i then (c.markClosed i).onDisconnect else c

/-- the opening of the socket at one of its awaits -/
def opening? (c : Channel M) (i : ℕ) (minted : Bool) : Option Opening :=
  c.openings.find? fun o => o.socket = i ∧ o.minted = minted

def tokenArrives (i : ℕ) (c : Channel M) : Channel M :=
  match c.opening? i false with
  | none => c
  | some o => { c with openings := c.openings.erase o ++ [{ o with minted := true }] }

def tokenFails (i : ℕ) (forbidden : Bool) (c : Channel M) : Channel M :=
  match c.opening? i false with
  | none => c
  | some o =>
    let c := { c with openings := c.openings.erase o }
    if forbidden then closeSocket { c with stopped := true } else c.onDisconnect

/-- the rest of `onOpen`: the hello goes to the engine's current socket; sending on one that is connecting throws -/
def manifestBuilt (i : ℕ) (manifest : M) (c : Channel M) : Channel M :=
  match c.opening? i true with
  | none => c
  | some o =>
    let c := { c with openings := c.openings.erase o, sentManifest := manifest }
    match c.ws with
    | none => c
    | some w =>
      let hello : Hello M := ⟨o.token, manifest, c.liveOnly, (c.sockets[w]?).any (·.hasOpened)⟩
      { c with
        backfilling := true
        sockets := c.sockets.modify w fun s => if s.phase = .opened then { s with hellos := s.hellos ++ [hello] } else s }

/-- a message can be received from the socket -/
def receives (c : Channel M) (i : ℕ) : Bool := (c.sockets[i]?).any fun s => s.attached ∧ s.phase = .opened

def serverErr (i : ℕ) (keyRequired : Bool) (c : Channel M) : Channel M :=
  if c.receives i then (if keyRequired then c.requestVaultKey cfg else c).onDisconnect else c

end Channel

/-! ## The queue -/

def maybeSignalIdle (e : Engine M) : Engine M :=
  let q := e.inbound
  if e.chan.stopped ∨ e.chan.backfilling ∨ q.queue ≠ [] ∨ q.drain ≠ .idle then e
  else { e with inbound := { q with idleSignals := q.idleSignals ++ [(q.queue, q.drain)] } }

/-- past the loop a paused feed resumes -/
def drainEnd (e : Engine M) : Engine M :=
  if e.inbound.backpressured ∧ ¬ e.chan.stopped then
    ⟨e.chan.scheduleReconnect, { e.inbound with drain := .ended, backpressured := false }⟩
  else { e with inbound := { e.inbound with drain := .ended } }

/-- the loop at its condition: the next frame goes to the sink -/
def drainNext (e : Engine M) : Engine M :=
  let q := e.inbound
  match q.queue with
  | [] => drainEnd e
  | frame :: rest =>
    if e.chan.stopped then drainEnd e
    else
      { e with inbound :=
          { q with
            queue := rest
            bytes := q.bytes - frame.update.length
            drain := .handling frame
            handled := q.handled ++ [frame] } }

def kickDrain (e : Engine M) : Engine M := if e.inbound.drain = .idle then drainNext e else e

def applyBackpressure (e : Engine M) : Engine M :=
  ⟨e.chan.closeSocket, { e.inbound with backpressured := true }⟩

def push (docId : ℕ) (update : List UInt8) (e : Engine M) : Engine M :=
  let q := e.inbound
  let counted := e.chan.backfilling
  let frame : Frame := ⟨docId, update, counted⟩
  { e with inbound :=
      { q with
        queue := q.queue ++ [frame]
        bytes := q.bytes + update.length
        total := if counted then q.total + 1 else q.total
        accepted := q.accepted ++ [frame] } }

def enqueueInbound (docId : ℕ) (update : List UInt8) (e : Engine M) : Engine M :=
  if e.chan.stopped then e
  else
    let e := push docId update e
    kickDrain (if ¬ e.inbound.backpressured ∧ e.inbound.bytes > cfg.inboundMaxBytes then applyBackpressure e else e)

def stop (e : Engine M) : Engine M :=
  ⟨e.chan.stop, { e.inbound with queue := [], bytes := 0, backpressured := false }⟩

inductive Outcome where
  | applied
  | failed
  /-- the vault moved out from under the engine -/
  | vaultMismatch
deriving DecidableEq

/-- the handler settles; the progress callback after it may throw, which ends the loop -/
def handlerSettles (outcome : Outcome) (progressThrows : Bool) (e : Engine M) : Engine M :=
  match e.inbound.drain with
  | .handling frame =>
    if outcome = .vaultMismatch then
      let e := stop e
      { e with inbound := { e.inbound with drain := .ended } }
    else if frame.counted then
      let e : Engine M := { e with inbound := { e.inbound with done := e.inbound.done + 1 } }
      if progressThrows then { e with inbound := { e.inbound with drain := .ended } } else drainNext e
    else drainNext e
  | _ => e

/-- the loop's `finally`: go on with frames that came since, or signal that all is applied -/
def drainSettles (e : Engine M) : Engine M :=
  if e.inbound.drain = .ended then
    let e : Engine M := { e with inbound := { e.inbound with drain := .idle } }
    if ¬ e.chan.stopped ∧ e.inbound.queue ≠ [] then kickDrain e else maybeSignalIdle e
  else e

def onReady (i : ℕ) (e : Engine M) : Engine M :=
  if e.chan.receives i then maybeSignalIdle { e with chan := { e.chan with backfilling := false } } else e

/-! ## Steps -/

inductive Action (M : Type*) where
  | start (factory : Bool)
  | refresh
  | reconnect (liveOnly : Option Bool)
  | stop
  | sinkLoads (gen : ℕ) (factory : Bool)
  | timerFires (factory : Bool)
  | keyAnswers (waiting : ℕ) (ok factory : Bool)
  | opens (i : ℕ)
  | closes (i : ℕ) (code : Channel.CloseCode)
  | errors (i : ℕ)
  | tokenArrives (i : ℕ)
  | tokenFails (i : ℕ) (forbidden : Bool)
  | manifestBuilt (i : ℕ) (manifest : M)
  | ready (i : ℕ)
  | serverErr (i : ℕ) (keyRequired : Bool)
  | frame (i : ℕ) (docId : ℕ) (update : List UInt8)
  | handlerSettles (outcome : Outcome) (progressThrows : Bool)
  | drainSettles
deriving DecidableEq

def onChan (f : Channel M → Channel M) (e : Engine M) : Engine M := { e with chan := f e.chan }

def step (e : Engine M) : Action M → Engine M
  | .start factory => onChan (Channel.start cfg factory) e
  | .refresh => onChan Channel.refresh e
  | .reconnect liveOnly => onChan (Channel.reconnect liveOnly) e
  | .stop => stop e
  | .sinkLoads gen factory => onChan (Channel.sinkLoads gen factory) e
  | .timerFires factory => onChan (Channel.timerFires cfg factory) e
  | .keyAnswers waiting ok factory => onChan (Channel.keyAnswers cfg waiting ok factory) e
  | .opens i => onChan (Channel.opens i) e
  | .closes i code => onChan (Channel.closes cfg i code) e
  | .errors i => onChan (Channel.errors i) e
  | .tokenArrives i => onChan (Channel.tokenArrives i) e
  | .tokenFails i forbidden => onChan (Channel.tokenFails i forbidden) e
  | .manifestBuilt i manifest => onChan (Channel.manifestBuilt i manifest) e
  | .ready i => onReady i e
  | .serverErr i keyRequired => onChan (Channel.serverErr cfg i keyRequired) e
  | .frame i docId update => if e.chan.receives i then enqueueInbound cfg docId update e else e
  | .handlerSettles outcome progressThrows => handlerSettles outcome progressThrows e
  | .drainSettles => drainSettles e

abbrev run (e : Engine M) (as : List (Action M)) : Engine M := Machine.run (step cfg) e as

end Baalda.SyncEngine
