/-
The server-acknowledged state vector of one document on one device (`sync/ackedSv.ts`, `VaultRegistry.recordAck`), and
the gate in front of erasing the local document.

The device records, merged by per-client maximum, the vectors the server is known to cover. Three routes feed the
record:
- `ready.covered` on the vault channel: the device records what `sentManifest` holds for the document, which `onOpen`
  sets, after two awaits, before it sends the `hello`;
- a batch push's answer: the vector of the pushed update;
- a flushed upload: the vector of the document when the upload settles, which is later than when the flush was answered
  (`uploadFlushed`, `uploadMark`); an open note confirms in one step (`confirmOpen`).

The environment: the server's store is a `Db` that loses nothing and whose vectors are exact (`Consistent`); pushes are
lost or delivered in any order; sockets close and open at any time; an `onOpen` that awaits while its socket is replaced
resumes anyway. The gate compares the document's vector with the recorded one.

`step_fires` is the one place where `step` is unfolded.
-/
import Baalda.Server.Backfill

namespace Baalda.AckedSv

open Crdt Crdt.Update Crdt.StateVector DocStore List

variable {B : Type*} (codec : VectorCodec B)

/-! ## The record -/

/-- per-client clocks of encoded bytes; garbage has none -/
def clocks (b : B) : StateVector := (codec.decode b).getD ∅

def svCovers (acked localSv : B) : Bool := decide (Covers (clocks codec acked) (clocks codec localSv))

def mergeSv (a : Option B) (b : B) : B :=
  match a with
  | none => b
  | some a => codec.encode (join (clocks codec a) (clocks codec b))

def svIsEmpty : Option B → Bool
  | none => true
  | some b => decide (∀ e ∈ clocks codec b, e.2 = 0)

/-- with a local document its vector decides; without one the file's hash, against the last agreed one -/
def unseenWork {H : Type*} [DecidableEq H] (localSv ackedSv : Option B) (fileHash diskBase : Option H) : Bool :=
  match localSv, svIsEmpty codec localSv with
  | some l, false =>
    match ackedSv with
    | none => true
    | some a => !svCovers codec a l
  | _, _ =>
    match fileHash with
    | none => false
    | some h => decide (diskBase ≠ some h)

def recordAck (prev : Option B) (sv : B) : Option B :=
  if svIsEmpty codec (some sv) then prev else some (mergeSv codec prev sv)

/-- the bytes decode to a vector `w` covers -/
def CoveredBy (w : StateVector) (b : B) : Prop := ∃ v, codec.decode b = some v ∧ Covers w v

variable {w : StateVector}

theorem CoveredBy.mono {w' : StateVector} {b : B} (hw : Covers w' w) (h : CoveredBy codec w b) :
    CoveredBy codec w' b := by
  obtain ⟨v, hv, hc⟩ := h
  exact ⟨v, hv, hw.trans hc⟩

theorem CoveredBy.clocks {b : B} (h : CoveredBy codec w b) : Covers w (clocks codec b) := by
  obtain ⟨v, hv, hc⟩ := h
  simpa [AckedSv.clocks, hv] using hc

theorem coveredBy_encode {v : StateVector} (h : Covers w v) : CoveredBy codec w (codec.encode v) :=
  ⟨v, codec.decode_encode v, h⟩

/-- a record of covered vectors stays covered -/
theorem coveredBy_recordAck {prev : Option B} {sv : B} (hp : ∀ b ∈ prev, CoveredBy codec w b)
    (hs : CoveredBy codec w sv) : ∀ b ∈ recordAck codec prev sv, CoveredBy codec w b := by
  intro b hb
  unfold recordAck at hb
  split_ifs at hb
  · exact hp b hb
  · cases hb
    cases prev with
    | none => exact hs
    | some a => exact coveredBy_encode codec (covers_join (hp a rfl).clocks hs.clocks)

variable [DecidableEq B]

/-! ## The device, its channel and the server -/

/-- a push in flight; `batch` is answered by a frame of its own -/
structure Message where
  update : Update
  batch : Bool
deriving DecidableEq

/-- an `onOpen` between its first await and its send, with the manifest's entry for the document -/
structure Opening (B : Type*) where
  socket : ℕ
  entry : Option B
deriving DecidableEq

structure St (B : Type*) where
  doc : Update
  server : Db
  acked : Option B
  messages : List Message
  /-- batch pushes applied, whose answer is in flight -/
  answers : List Update
  /-- uploads whose flush was answered and whose ack is not recorded yet: whether text was inserted since -/
  uploads : List Bool
  ws : Option ℕ
  opened : Bool
  nextWs : ℕ
  openings : List (Opening B)
  sentManifest : Option B
  /-- `hello` frames in flight: socket and manifest entry -/
  hellos : List (ℕ × Option B)
  /-- sockets whose first `hello` the server has taken; it ignores a second one -/
  heard : List ℕ
  /-- `ready` frames in flight: socket and whether `covered` names the document -/
  readies : List (ℕ × Bool)
  /-- ghost: the vectors the server judged covered, by socket -/
  judged : List (ℕ × B)
  /-- ghost: the vectors recorded for a `ready.covered`, by socket -/
  socketAcks : List (ℕ × B)
deriving DecidableEq

def init : St B where
  doc := ⊥
  server := ⟨none, [], none⟩
  acked := none
  messages := []
  answers := []
  uploads := []
  ws := none
  opened := false
  nextWs := 0
  openings := []
  sentManifest := none
  hellos := []
  heard := []
  readies := []
  judged := []
  socketAcks := []

inductive Action where
  | edit (u : Update) (online : Bool)
  | receive (u : Update)
  | storeMoves (d : Db)
  | pushState
  | deliver (i : ℕ) (d : Db)
  | lose (i : ℕ)
  | settle (i : ℕ)
  | uploadFlushed
  | uploadMark (i : ℕ)
  | confirmOpen
  | connect
  | onOpen
  | disconnect
  | buildManifest (k : ℕ)
  | resume (k : ℕ)
  | serverJudge (i : ℕ)
  | ready (i : ℕ)

/-- a local edit inserts new structs, each on top of what its client has -/
def EditOk (doc u : Update) : Prop :=
  Disjoint u.structs doc.structs ∧ ∀ i ∈ u.structs, i.clock < clock (doc ⊔ u) i.client

instance (doc u : Update) : Decidable (EditOk doc u) := inferInstanceAs (Decidable (_ ∧ _))

/-- the store loses nothing, and what it gains besides this device's pushes is not this device's -/
def OthersWork (doc : Update) (d d' : Db) : Prop :=
  Consistent d' ∧ d.stored ≤ d'.stored ∧ ∀ i ∈ d'.stored.structs, i ∈ d.stored.structs ∨ i ∉ doc.structs

instance (doc : Update) (d d' : Db) : Decidable (OthersWork doc d d') := inferInstanceAs (Decidable (_ ∧ _ ∧ _))

def localSv (s : St B) : B := codec.encode (stateVector s.doc)

/-- the `hello` goes out on whatever socket there is; one that is still connecting refuses it -/
def sendHello (s : St B) (entry : Option B) : List (ℕ × Option B) :=
  match s.ws with
  | some cur => if s.opened then s.hellos ++ [(cur, entry)] else s.hellos
  | none => s.hellos

def step (s : St B) : Action → St B
  | .edit u online =>
    if EditOk s.doc u then
      { s with
        doc := s.doc ⊔ u
        messages := if online then s.messages ++ [⟨u, false⟩] else s.messages
        uploads := s.uploads.map fun f => f || decide (u.structs ≠ ∅) }
    else s
  | .receive u => if u ≤ s.server.stored then { s with doc := s.doc ⊔ u } else s
  | .storeMoves d => if OthersWork s.doc s.server d then { s with server := d } else s
  | .pushState => { s with messages := s.messages ++ [⟨s.doc, true⟩] }
  | .deliver i d =>
    match s.messages[i]? with
    | none => s
    | some m =>
      if Consistent d ∧ d.stored = s.server.stored ⊔ m.update then
        { s with
          server := d
          messages := s.messages.eraseIdx i
          answers := if m.batch then s.answers ++ [m.update] else s.answers }
      else s
  | .lose i => { s with messages := s.messages.eraseIdx i }
  | .settle i =>
    match s.answers[i]? with
    | none => s
    | some u =>
      { s with acked := recordAck codec s.acked (codec.encode (stateVector u)), answers := s.answers.eraseIdx i }
  | .uploadFlushed => if s.doc ≤ s.server.stored then { s with uploads := s.uploads ++ [false] } else s
  | .uploadMark i =>
    match s.uploads[i]? with
    | none => s
    | some _ => { s with acked := recordAck codec s.acked (localSv codec s), uploads := s.uploads.eraseIdx i }
  | .confirmOpen =>
    if s.doc ≤ s.server.stored then { s with acked := recordAck codec s.acked (localSv codec s) } else s
  | .connect =>
    if s.ws = none then { s with ws := some s.nextWs, opened := false, nextWs := s.nextWs + 1 } else s
  | .onOpen =>
    match s.ws with
    | none => s
    | some k => if s.opened then s else { s with opened := true, openings := s.openings ++ [⟨k, none⟩] }
  | .disconnect => { s with ws := none, opened := false }
  | .buildManifest k =>
    { s with openings := s.openings.map fun o => if o.socket = k then { o with entry := some (localSv codec s) } else o }
  | .resume k =>
    match s.openings.find? fun o => o.socket = k with
    | none => s
    | some o =>
      { s with
        openings := s.openings.filter fun o => o.socket ≠ k
        sentManifest := o.entry
        hellos := sendHello s o.entry }
  | .serverJudge i =>
    match s.hellos[i]? with
    | none => s
    | some (k, entry) =>
      if k ∈ s.heard then { s with hellos := s.hellos.eraseIdx i }
      else
        match entry with
        | none => { s with hellos := s.hellos.eraseIdx i, heard := k :: s.heard, readies := s.readies ++ [(k, false)] }
        | some b =>
          { s with
            hellos := s.hellos.eraseIdx i
            heard := k :: s.heard
            readies := s.readies ++ [(k, covered (loadDocDiff codec s.server (some b)))]
            judged := if covered (loadDocDiff codec s.server (some b)) then (k, b) :: s.judged else s.judged }
  | .ready i =>
    match s.readies[i]? with
    | none => s
    | some (k, named) =>
      -- a closed socket's handlers are detached
      match s.sentManifest with
      | some b =>
        if s.ws = some k ∧ named then
          { s with
            acked := recordAck codec s.acked b
            readies := s.readies.eraseIdx i
            socketAcks := (k, b) :: s.socketAcks }
        else { s with readies := s.readies.eraseIdx i }
      | none => { s with readies := s.readies.eraseIdx i }

def run (s : St B) (as : List Action) : St B := Machine.run (step codec) s as

/-! ## What a step can do -/

/-- the enabled steps, one constructor for each branch of `step` that changes the state -/
inductive Fires (s : St B) : Action → St B → Prop where
  | edit {u : Update} (online : Bool) (hu : EditOk s.doc u) : Fires s (.edit u online)
      { s with
        doc := s.doc ⊔ u
        messages := if online then s.messages ++ [⟨u, false⟩] else s.messages
        uploads := s.uploads.map fun f => f || decide (u.structs ≠ ∅) }
  | receive {u : Update} (hu : u ≤ s.server.stored) : Fires s (.receive u) { s with doc := s.doc ⊔ u }
  | storeMoves {d : Db} (hd : OthersWork s.doc s.server d) : Fires s (.storeMoves d) { s with server := d }
  | pushState : Fires s .pushState { s with messages := s.messages ++ [⟨s.doc, true⟩] }
  | deliver {i : ℕ} {d : Db} {m : Message} (hm : m ∈ s.messages) (hc : Consistent d)
      (hd : d.stored = s.server.stored ⊔ m.update) : Fires s (.deliver i d)
      { s with
        server := d
        messages := s.messages.eraseIdx i
        answers := if m.batch then s.answers ++ [m.update] else s.answers }
  | lose (i : ℕ) : Fires s (.lose i) { s with messages := s.messages.eraseIdx i }
  | settle {i : ℕ} {u : Update} (hu : u ∈ s.answers) : Fires s (.settle i)
      { s with acked := recordAck codec s.acked (codec.encode (stateVector u)), answers := s.answers.eraseIdx i }
  | uploadFlushed (hle : s.doc ≤ s.server.stored) : Fires s .uploadFlushed { s with uploads := s.uploads ++ [false] }
  | uploadMark {i : ℕ} {f : Bool} (hf : s.uploads[i]? = some f) : Fires s (.uploadMark i)
      { s with acked := recordAck codec s.acked (localSv codec s), uploads := s.uploads.eraseIdx i }
  | confirmOpen (hle : s.doc ≤ s.server.stored) :
      Fires s .confirmOpen { s with acked := recordAck codec s.acked (localSv codec s) }
  | connect (hws : s.ws = none) :
      Fires s .connect { s with ws := some s.nextWs, opened := false, nextWs := s.nextWs + 1 }
  | onOpen {k : ℕ} (hws : s.ws = some k) (ho : s.opened = false) :
      Fires s .onOpen { s with opened := true, openings := s.openings ++ [⟨k, none⟩] }
  | disconnect : Fires s .disconnect { s with ws := none, opened := false }
  | buildManifest (k : ℕ) : Fires s (.buildManifest k)
      { s with
        openings := s.openings.map fun o => if o.socket = k then { o with entry := some (localSv codec s) } else o }
  | resume {k : ℕ} {o : Opening B} (hm : o ∈ s.openings) (hk : o.socket = k) : Fires s (.resume k)
      { s with
        openings := s.openings.filter fun o => o.socket ≠ k
        sentManifest := o.entry
        hellos := sendHello s o.entry }
  | ignoreHello (i : ℕ) : Fires s (.serverJudge i) { s with hellos := s.hellos.eraseIdx i }
  | judgeNothing {i k : ℕ} (hi : (k, none) ∈ s.hellos) (hk : k ∉ s.heard) : Fires s (.serverJudge i)
      { s with hellos := s.hellos.eraseIdx i, heard := k :: s.heard, readies := s.readies ++ [(k, false)] }
  | judge {i k : ℕ} {b : B} (hi : (k, some b) ∈ s.hellos) (hk : k ∉ s.heard) : Fires s (.serverJudge i)
      { s with
        hellos := s.hellos.eraseIdx i
        heard := k :: s.heard
        readies := s.readies ++ [(k, covered (loadDocDiff codec s.server (some b)))]
        judged := if covered (loadDocDiff codec s.server (some b)) then (k, b) :: s.judged else s.judged }
  | ignoreReady (i : ℕ) : Fires s (.ready i) { s with readies := s.readies.eraseIdx i }
  | ready {i k : ℕ} {b : B} (hi : (k, true) ∈ s.readies) (hb : s.sentManifest = some b) (hws : s.ws = some k) :
      Fires s (.ready i)
      { s with
        acked := recordAck codec s.acked b
        readies := s.readies.eraseIdx i
        socketAcks := (k, b) :: s.socketAcks }

/-- **A step fires or stays.** -/
theorem step_fires (s : St B) (a : Action) : step codec s a = s ∨ Fires codec s a (step codec s a) := by
  cases a with
  | edit u online =>
    by_cases h : EditOk s.doc u
    · rw [step, if_pos h]
      exact .inr (.edit online h)
    · rw [step, if_neg h]
      exact .inl rfl
  | receive u =>
    simp only [step]
    split_ifs with h
    · exact .inr (.receive h)
    · exact .inl rfl
  | storeMoves d =>
    simp only [step]
    split_ifs with h
    · exact .inr (.storeMoves h)
    · exact .inl rfl
  | pushState => exact .inr .pushState
  | deliver i d =>
    simp only [step]
    split
    · exact .inl rfl
    · rename_i m hm
      by_cases h : Consistent d ∧ d.stored = s.server.stored ⊔ m.update
      · rw [if_pos h]
        exact .inr (.deliver (mem_of_getElem? hm) h.1 h.2)
      · rw [if_neg h]
        exact .inl rfl
  | lose i => exact .inr (.lose i)
  | settle i =>
    simp only [step]
    split
    · exact .inl rfl
    · rename_i u hu
      exact .inr (.settle (mem_of_getElem? hu))
  | uploadFlushed =>
    simp only [step]
    split_ifs with h
    · exact .inr (.uploadFlushed h)
    · exact .inl rfl
  | uploadMark i =>
    simp only [step]
    split
    · exact .inl rfl
    · rename_i f hf
      exact .inr (.uploadMark hf)
  | confirmOpen =>
    simp only [step]
    split_ifs with h
    · exact .inr (.confirmOpen h)
    · exact .inl rfl
  | connect =>
    simp only [step]
    split_ifs with h
    · exact .inr (.connect h)
    · exact .inl rfl
  | onOpen =>
    simp only [step]
    split
    · exact .inl rfl
    · rename_i k hk
      split_ifs with ho
      · exact .inl rfl
      · exact .inr (.onOpen hk (by simpa using ho))
  | disconnect => exact .inr .disconnect
  | buildManifest k => exact .inr (.buildManifest k)
  | resume k =>
    simp only [step]
    split
    · exact .inl rfl
    · rename_i o ho
      exact .inr (.resume (mem_of_find?_eq_some ho) (by simpa using find?_some ho))
  | serverJudge i =>
    simp only [step]
    split
    · exact .inl rfl
    · rename_i k entry hi
      have hm := mem_of_getElem? hi
      right
      split_ifs with hk
      · exact .ignoreHello i
      · cases entry with
        | none => exact .judgeNothing hm hk
        | some b => exact .judge hm hk
  | ready i =>
    simp only [step]
    split
    · exact .inl rfl
    · rename_i k named hi
      right
      split
      · rename_i b hb
        by_cases h : s.ws = some k ∧ named = true
        · rw [if_pos h]
          obtain ⟨hws, rfl⟩ := h
          exact .ready (mem_of_getElem? hi) hb hws
        · rw [if_neg h]
          exact .ignoreReady i
      · exact .ignoreReady i

/-- what every firing step preserves, every step preserves -/
theorem step_preserves (P : St B → Prop) {s : St B} {a : Action} (hs : P s) (h : ∀ t, Fires codec s a t → P t) :
    P (step codec s a) := by
  rcases step_fires codec s a with he | hf
  · rwa [he]
  · exact h _ hf

/-! ## The gate -/

/-- the record says the local document holds no unsent work -/
def NoUnsentWork (s : St B) : Prop :=
  svIsEmpty codec (some (localSv codec s)) = false ∧
    unseenWork codec (some (localSv codec s)) s.acked (none : Option ℕ) none = false

instance (s : St B) : Decidable (NoUnsentWork codec s) := inferInstanceAs (Decidable (_ ∧ _))

end Baalda.AckedSv
