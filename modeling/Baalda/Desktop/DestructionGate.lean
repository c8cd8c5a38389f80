/-
The gate in front of erasing a local document: what it proves about the server.

The gate compares vectors, and a vector records neither a deletion nor which socket it was judged on. The invariant has
three parts:
- `AckInv`: every recorded or judged vector is covered by the server's store;
- `DocInv`: what the document holds behind a gap came from the server, and every deletion the server lacks hangs on a
  struct it lacks too (`Anchored`), which no message carries without the deletion;
- `SocketsOk`: on the current socket, `sentManifest` is what the `hello` carried.

`GateOk` lists what a run must not do:
- delete while every struct of the document is on the server or in flight, so that nothing still to be acknowledged
  carries the deletion;
- resume an `onOpen` after another socket has replaced its own;
- record an upload's ack after text was inserted that its flush did not send.
-/
import Baalda.Desktop.AckedSv
import Baalda.Lib.Slots

namespace Baalda.AckedSv

open Crdt Crdt.Update Crdt.StateVector DocStore List

variable {B : Type*} (codec : VectorCodec B)

/-! ## What a run must not do -/

/-- a struct of the edited document that is neither on the server nor in flight -/
def Unsent (s : St B) (u : Update) : Prop :=
  ∃ i ∈ (s.doc ⊔ u).structs, i ∉ s.server.stored.structs ∧ ∀ m ∈ s.messages, i ∉ m.update.structs

instance (s : St B) (u : Update) : Decidable (Unsent s u) := inferInstanceAs (Decidable (∃ i ∈ (s.doc ⊔ u).structs, _))

def GateOk (s : St B) : Action → Prop
  | .edit u _ => u.deletes ⊆ s.server.stored.deletes ∨ Unsent s u
  | .resume k => ∀ cur ∈ s.ws, cur = k
  | .uploadMark i => ∀ f ∈ s.uploads[i]?, f = false
  | _ => True

instance (s : St B) (a : Action) : Decidable (GateOk s a) := by unfold GateOk; split <;> infer_instance

/-! ## Acknowledged vectors -/

structure AckInv (s : St B) : Prop where
  acked : ∀ b ∈ s.acked, CoveredBy codec (stateVector s.server.stored) b
  judged : ∀ j ∈ s.judged, CoveredBy codec (stateVector s.server.stored) j.2
  answers : ∀ u ∈ s.answers, u ≤ s.server.stored
  uploads : ∀ f ∈ s.uploads, f = false → s.doc.structs ⊆ s.server.stored.structs
  store : Consistent s.server

theorem ackInv_init : AckInv codec (init : St B) := by
  refine ⟨by simp [init], by simp [init], by simp [init], by simp [init], ?_, by simp [init]⟩
  intro v hv
  simp [init, currentStateVector] at hv

variable {s : St B}

/-- the same facts over a store that has grown -/
theorem AckInv.grow {d : Db} (h : AckInv codec s) (hd : Consistent d) (hle : s.server.stored ≤ d.stored) :
    AckInv codec { s with server := d } where
  acked b hb := (h.acked b hb).mono codec (covers_of_le hle)
  judged j hj := (h.judged j hj).mono codec (covers_of_le hle)
  answers u hu := (h.answers u hu).trans hle
  uploads f hf hff := (h.uploads f hf hff).trans hle.1
  store := hd

theorem AckInv.record (h : AckInv codec s) {sv : B} (hs : CoveredBy codec (stateVector s.server.stored) sv) :
    ∀ b ∈ recordAck codec s.acked sv, CoveredBy codec (stateVector s.server.stored) b :=
  coveredBy_recordAck codec h.acked hs

variable {u : Update}

/-- a server that holds the document's structs covers its vector -/
theorem covers_of_structs {w : Update} (h : u.structs ⊆ w.structs) : Covers (stateVector w) (stateVector u) := by
  rw [covers_iff]
  intro c
  by_contra hlt
  exact clock_notMem w c (h (mem_of_lt_clock (by omega)))

/-! ## Sockets -/

structure SocketsOk (s : St B) : Prop where
  ws : ∀ k ∈ s.ws, k < s.nextWs
  openings : ∀ o ∈ s.openings, o.socket < s.nextWs
  hellos : ∀ h ∈ s.hellos, h.1 < s.nextWs
  heard : ∀ k ∈ s.heard, k < s.nextWs
  readies : ∀ r ∈ s.readies, r.1 ∈ s.heard
  /-- no `onOpen` has run for a socket still connecting -/
  unopened : s.opened = false → ∀ k ∈ s.ws, (∀ o ∈ s.openings, o.socket ≠ k) ∧ (∀ h ∈ s.hellos, h.1 ≠ k) ∧ k ∉ s.heard
  /-- while the current socket's `onOpen` awaits, nothing has been sent on it -/
  spent : ∀ k ∈ s.ws, (∃ o ∈ s.openings, o.socket = k) → (∀ h ∈ s.hellos, h.1 ≠ k) ∧ k ∉ s.heard
  hello : ∀ k ∈ s.ws, ∀ e, (k, e) ∈ s.hellos → s.sentManifest = e
  ready : ∀ k ∈ s.ws, (k, true) ∈ s.readies → ∃ b, s.sentManifest = some b ∧ (k, b) ∈ s.judged
  acks : ∀ a ∈ s.socketAcks, a ∈ s.judged

theorem socketsOk_init : SocketsOk (init : St B) := by constructor <;> simp [init]

theorem mem_sendHello {e : Option B} {h : ℕ × Option B} (hm : h ∈ sendHello s e) :
    h ∈ s.hellos ∨ (s.ws = some h.1 ∧ s.opened = true ∧ h.2 = e) := by
  unfold sendHello at hm
  split at hm
  · rename_i cur hcur
    split_ifs at hm with ho
    · rcases mem_snoc.1 hm with hm | rfl
      · exact .inl hm
      · exact .inr ⟨hcur, ho, rfl⟩
    · exact .inl hm
  · exact .inl hm

/-- only the documents, the store and the record change: the sockets do not notice -/
theorem SocketsOk.congr {t : St B} (h : SocketsOk s) (hws : t.ws = s.ws) (ho : t.opened = s.opened)
    (hn : t.nextWs = s.nextWs) (hop : t.openings = s.openings) (hm : t.sentManifest = s.sentManifest)
    (hh : t.hellos = s.hellos) (hd : t.heard = s.heard) (hr : t.readies = s.readies) (hj : t.judged = s.judged)
    (ha : t.socketAcks = s.socketAcks) : SocketsOk t := by
  constructor <;> simp only [hws, ho, hn, hop, hm, hh, hd, hr, hj, ha]
  exacts [h.ws, h.openings, h.hellos, h.heard, h.readies, h.unopened, h.spent, h.hello, h.ready, h.acks]

/-- a new socket: nothing refers to its number yet -/
theorem SocketsOk.connect (h : SocketsOk s) :
    SocketsOk { s with ws := some s.nextWs, opened := false, nextWs := s.nextWs + 1 } := by
  have hop : ∀ o ∈ s.openings, o.socket ≠ s.nextWs := fun o ho => (h.openings o ho).ne
  have hhe : ∀ x ∈ s.hellos, x.1 ≠ s.nextWs := fun x hx => (h.hellos x hx).ne
  have hhd : s.nextWs ∉ s.heard := fun hk => (h.heard _ hk).ne rfl
  refine ⟨?_, fun o ho => (h.openings o ho).trans (Nat.lt_succ_self _), fun x hx => (h.hellos x hx).trans (Nat.lt_succ_self _),
    fun k hk => (h.heard k hk).trans (Nat.lt_succ_self _), h.readies, ?_, ?_, ?_, ?_, h.acks⟩
  · rintro k hk
    cases hk
    exact Nat.lt_succ_self _
  · rintro - k hk
    cases hk
    exact ⟨hop, hhe, hhd⟩
  · rintro k hk -
    cases hk
    exact ⟨hhe, hhd⟩
  · intro k hk e he
    cases hk
    exact absurd rfl (hhe _ he)
  · intro k hk hr
    cases hk
    exact absurd (h.readies _ hr) hhd

theorem SocketsOk.onOpen {k : ℕ} (h : SocketsOk s) (hws : s.ws = some k) (ho : s.opened = false) :
    SocketsOk { s with opened := true, openings := s.openings ++ [⟨k, none⟩] } := by
  obtain ⟨-, hhe, hhd⟩ := h.unopened ho k hws
  refine ⟨h.ws, fun o hm => ?_, h.hellos, h.heard, h.readies, fun hf => by simp at hf, fun k' hk' _ => ?_, h.hello,
    h.ready, h.acks⟩
  · rcases mem_snoc.1 hm with hm | rfl
    · exact h.openings o hm
    · exact h.ws k hws
  · rw [hws] at hk'
    cases hk'
    exact ⟨hhe, hhd⟩

/-- an `onOpen` resumes with its own socket current, or with none -/
theorem SocketsOk.resume {k : ℕ} {o : Opening B} (h : SocketsOk s) (hm : o ∈ s.openings) (hk : o.socket = k)
    (hown : ∀ cur ∈ s.ws, cur = k) : SocketsOk
      { s with
        openings := s.openings.filter fun o => o.socket ≠ k
        sentManifest := o.entry
        hellos := sendHello s o.entry } := by
  have hclean : ∀ cur ∈ s.ws, (∀ x ∈ s.hellos, x.1 ≠ cur) ∧ cur ∉ s.heard := fun cur hcur =>
    h.spent cur hcur ⟨o, hm, hk.trans (hown cur hcur).symm⟩
  have hfilter : ∀ cur ∈ s.ws, ∀ x ∈ s.openings.filter (fun o => o.socket ≠ k), x.socket ≠ cur := by
    intro cur hcur x hx
    rw [hown cur hcur]
    simpa using (mem_filter.1 hx).2
  refine ⟨h.ws, fun x hx => h.openings x (mem_filter.1 hx).1, fun x hx => ?_, h.heard, h.readies, ?_, ?_, ?_, ?_,
    h.acks⟩
  · rcases mem_sendHello hx with hx | ⟨hws, -, -⟩
    · exact h.hellos x hx
    · exact h.ws _ hws
  · intro ho cur hcur
    refine ⟨hfilter cur hcur, fun x hx => ?_, (hclean cur hcur).2⟩
    rcases mem_sendHello hx with hx | ⟨-, hop, -⟩
    · exact (hclean cur hcur).1 x hx
    · exact absurd (ho.symm.trans hop) (by simp)
  · rintro cur hcur ⟨x, hx, he⟩
    exact absurd he (hfilter cur hcur x hx)
  · intro cur hcur e he
    rcases mem_sendHello he with he | ⟨-, -, he⟩
    · exact absurd rfl ((hclean cur hcur).1 _ he)
    · exact he.symm
  · intro cur hcur hr
    exact absurd (h.readies _ hr) (hclean cur hcur).2

/-- the server takes the first `hello` of a socket -/
theorem SocketsOk.judge {k : ℕ} {entry : Option B} {verdict : Bool} {i : ℕ} {j : List (ℕ × B)} (h : SocketsOk s)
    (hi : (k, entry) ∈ s.hellos) (hj : ∀ x ∈ s.judged, x ∈ j) (hv : verdict = true → ∃ b, entry = some b ∧ (k, b) ∈ j) :
    SocketsOk
      { s with
        hellos := s.hellos.eraseIdx i
        heard := k :: s.heard
        readies := s.readies ++ [(k, verdict)]
        judged := j } := by
  have hsub : ∀ x ∈ s.hellos.eraseIdx i, x ∈ s.hellos := fun x hx => (eraseIdx_sublist _ _).subset hx
  refine ⟨h.ws, h.openings, fun x hx => h.hellos x (hsub x hx), fun x hx => ?_, fun r hr => ?_, fun ho cur hcur => ?_,
    fun cur hcur hex => ?_, fun cur hcur e he => h.hello cur hcur e (hsub _ he), fun cur hcur hr => ?_,
    fun a ha => hj a (h.acks a ha)⟩
  · rcases mem_cons.1 hx with rfl | hx
    · exact h.hellos _ hi
    · exact h.heard x hx
  · rcases mem_snoc.1 hr with hr | rfl
    · exact .tail _ (h.readies r hr)
    · exact .head _
  · obtain ⟨ha, hb, hc⟩ := h.unopened ho cur hcur
    refine ⟨ha, fun x hx => hb x (hsub x hx), fun hk => ?_⟩
    rcases mem_cons.1 hk with rfl | hk
    · exact hb _ hi rfl
    · exact hc hk
  · obtain ⟨hb, hc⟩ := h.spent cur hcur hex
    refine ⟨fun x hx => hb x (hsub x hx), fun hk => ?_⟩
    rcases mem_cons.1 hk with rfl | hk
    · exact hb _ hi rfl
    · exact hc hk
  · rcases mem_snoc.1 hr with hr | hr
    · obtain ⟨b, hb, hjb⟩ := h.ready cur hcur hr
      exact ⟨b, hb, hj _ hjb⟩
    · cases hr
      obtain ⟨b, rfl, hb⟩ := hv rfl
      exact ⟨b, h.hello _ hcur _ hi, hb⟩

theorem SocketsOk.eraseHello (h : SocketsOk s) (i : ℕ) : SocketsOk { s with hellos := s.hellos.eraseIdx i } := by
  have hsub : ∀ x ∈ s.hellos.eraseIdx i, x ∈ s.hellos := fun x hx => (eraseIdx_sublist _ _).subset hx
  exact ⟨h.ws, h.openings, fun x hx => h.hellos x (hsub x hx), h.heard, h.readies,
    fun ho cur hcur => ⟨(h.unopened ho cur hcur).1, fun x hx => (h.unopened ho cur hcur).2.1 x (hsub x hx),
      (h.unopened ho cur hcur).2.2⟩,
    fun cur hcur hex => ⟨fun x hx => (h.spent cur hcur hex).1 x (hsub x hx), (h.spent cur hcur hex).2⟩,
    fun cur hcur e he => h.hello cur hcur e (hsub _ he), h.ready, h.acks⟩

theorem SocketsOk.eraseReady (h : SocketsOk s) (i : ℕ) : SocketsOk { s with readies := s.readies.eraseIdx i } := by
  have hsub : ∀ x ∈ s.readies.eraseIdx i, x ∈ s.readies := fun x hx => (eraseIdx_sublist _ _).subset hx
  exact ⟨h.ws, h.openings, h.hellos, h.heard, fun r hr => h.readies r (hsub r hr), h.unopened, h.spent, h.hello,
    fun cur hcur hr => h.ready cur hcur (hsub _ hr), h.acks⟩

/-! ## Deletions -/

/-- a struct the server lacks, which no message in flight carries without the deletion `x` -/
def Anchored (s : St B) (x : Id) : Prop :=
  ∃ i ∈ s.doc.structs, i ∉ s.server.stored.structs ∧ ∀ m ∈ s.messages, i ∈ m.update.structs → x ∈ m.update.deletes

structure DocInv (s : St B) : Prop where
  parked : parked s.doc ⊆ s.server.stored.structs
  deletes : ∀ x ∈ s.doc.deletes, x ∈ s.server.stored.deletes ∨ Anchored s x

theorem docInv_init : DocInv (init : St B) := by
  refine ⟨fun i hi => ?_, by simp [init]⟩
  exact absurd (Finset.mem_filter.1 hi).1 (Finset.notMem_empty i)

/-- what is behind a gap after a merge was behind one before, or came with the merge -/
theorem parked_sup {w : Update} {i : Id} (hi : i ∈ parked (u ⊔ w)) : i ∈ parked u ∨ i ∈ w.structs := by
  obtain ⟨hm, hle⟩ := Finset.mem_filter.1 hi
  rcases Finset.mem_union.1 hm with hm | hm
  · exact .inl (Finset.mem_filter.2 ⟨hm, (clock_mono le_sup_left _).trans hle⟩)
  · exact .inr hm

theorem DocInv.edit {online : Bool} {up : List Bool} (h : DocInv s) (hu : EditOk s.doc u)
    (hg : u.deletes ⊆ s.server.stored.deletes ∨ Unsent s u) : DocInv
      { s with
        doc := s.doc ⊔ u
        messages := if online then s.messages ++ [⟨u, false⟩] else s.messages
        uploads := up } := by
  have hmsg : ∀ m ∈ (if online then s.messages ++ [⟨u, false⟩] else s.messages), m ∈ s.messages ∨ m.update = u := by
    intro m hm
    cases online with
    | false => exact .inl hm
    | true =>
      rcases mem_snoc.1 hm with hm | hm
      · exact .inl hm
      · exact .inr (by rw [hm])
  refine ⟨fun i hi => ?_, fun x hx => ?_⟩
  · rcases parked_sup hi with hi' | hiu
    · exact h.parked hi'
    · exact absurd (hu.2 i hiu) (not_lt.2 (Finset.mem_filter.1 hi).2)
  · rcases Finset.mem_union.1 hx with hx | hx
    · rcases h.deletes x hx with hx | ⟨i, hi, his, him⟩
      · exact .inl hx
      · refine .inr ⟨i, Finset.mem_union_left _ hi, his, fun m hm hmi => ?_⟩
        rcases hmsg m hm with hm | rfl
        · exact him m hm hmi
        · exact absurd hi (Finset.disjoint_left.1 hu.1 hmi)
    · rcases hg with hg | ⟨i, hi, his, him⟩
      · exact .inl (hg hx)
      · refine .inr ⟨i, hi, his, fun m hm hmi => ?_⟩
        rcases hmsg m hm with hm | rfl
        · exact absurd hmi (him m hm)
        · exact hx

theorem DocInv.receive (h : DocInv s) (hu : u ≤ s.server.stored) : DocInv { s with doc := s.doc ⊔ u } := by
  refine ⟨fun i hi => (parked_sup hi).elim (fun hi => h.parked hi) fun hi => hu.1 hi, fun x hx => ?_⟩
  rcases Finset.mem_union.1 hx with hx | hx
  · rcases h.deletes x hx with hx | ⟨i, hi, hrest⟩
    · exact .inl hx
    · exact .inr ⟨i, Finset.mem_union_left _ hi, hrest⟩
  · exact .inl (hu.2 hx)

theorem DocInv.storeMoves {d : Db} (h : DocInv s) (hd : OthersWork s.doc s.server d) :
    DocInv { s with server := d } := by
  refine ⟨h.parked.trans hd.2.1.1, fun x hx => ?_⟩
  rcases h.deletes x hx with hx | ⟨i, hi, his, him⟩
  · exact .inl (hd.2.1.2 hx)
  · exact .inr ⟨i, hi, fun hid => (hd.2.2 i hid).elim his fun hn => hn hi, him⟩

theorem DocInv.deliver {d : Db} {m : Message} {j : ℕ} {ans : List Update} (h : DocInv s) (hm : m ∈ s.messages)
    (hd : d.stored = s.server.stored ⊔ m.update) :
    DocInv { s with server := d, messages := s.messages.eraseIdx j, answers := ans } := by
  have hle : s.server.stored ≤ d.stored := hd ▸ le_sup_left
  have hsub : ∀ x ∈ s.messages.eraseIdx j, x ∈ s.messages := fun x hx => (eraseIdx_sublist _ _).subset hx
  refine ⟨h.parked.trans hle.1, fun x hx => ?_⟩
  rcases h.deletes x hx with hx | ⟨i, hi, his, him⟩
  · exact .inl (hle.2 hx)
  · by_cases hmi : i ∈ m.update.structs
    · have hxm : x ∈ m.update.deletes := him m hm hmi
      refine .inl ?_
      rw [hd]
      exact Finset.mem_union_right _ hxm
    · refine .inr ⟨i, hi, ?_, fun m' hm' => him m' (hsub m' hm')⟩
      rw [hd]
      exact fun hid => (Finset.mem_union.1 hid).elim his hmi

/-- fewer messages, or one that carries the whole document -/
theorem DocInv.messages {ms : List Message} (h : DocInv s)
    (hms : ∀ m ∈ ms, m ∈ s.messages ∨ s.doc.deletes ⊆ m.update.deletes) : DocInv { s with messages := ms } := by
  refine ⟨h.parked, fun x hx => ?_⟩
  rcases h.deletes x hx with hx' | ⟨i, hi, his, him⟩
  · exact .inl hx'
  · exact .inr ⟨i, hi, his, fun m hm hmi => (hms m hm).elim (fun hm => him m hm hmi) fun hsub => hsub hx⟩

/-- only the record, the answers and the sockets change -/
theorem DocInv.congr {t : St B} (h : DocInv s) (hd : t.doc = s.doc) (hs : t.server = s.server)
    (hm : t.messages = s.messages) : DocInv t := by
  refine ⟨by rw [hd, hs]; exact h.parked, fun x hx => ?_⟩
  rw [hd] at hx
  unfold Anchored
  rw [hd, hs, hm]
  exact h.deletes x hx

/-! ## The gate -/

/-- a record that covers the document's vector is a record, and it covers it -/
theorem covers_of_noUnsentWork (h : NoUnsentWork codec s) :
    ∃ a ∈ s.acked, Covers (clocks codec a) (stateVector s.doc) := by
  obtain ⟨hne, hu⟩ := h
  unfold unseenWork at hu
  rw [hne] at hu
  cases ha : s.acked with
  | none => simp [ha] at hu
  | some a =>
    refine ⟨a, rfl, ?_⟩
    simpa [ha, svCovers, localSv, clocks, codec.decode_encode] using hu

structure GateInv (s : St B) : Prop where
  acks : AckInv codec s
  sockets : SocketsOk s
  doc : DocInv s

theorem GateInv.sound (h : GateInv codec s) (hn : NoUnsentWork codec s) : s.doc ≤ s.server.stored := by
  obtain ⟨a, ha, hcov⟩ := covers_of_noUnsentWork codec hn
  have hserver : Covers (stateVector s.server.stored) (stateVector s.doc) :=
    Covers.trans (h.acks.acked a ha).clocks hcov
  refine (le_iff_of_covers hserver).2 ⟨h.doc.parked, fun x hx => ?_⟩
  rcases h.doc.deletes x hx with hx | ⟨i, hi, his, -⟩
  · exact hx
  · -- a covered document has no struct the server lacks, so nothing is left to hang a deletion on
    refine absurd ?_ his
    by_cases hp : i ∈ parked s.doc
    · exact h.doc.parked hp
    · exact structs_subset_of_covers hserver hi hp

/-! ## Steps -/

variable [DecidableEq B]

/-- a vector the server judged covered is covered by what it stores -/
theorem judged_covered (h : AckInv codec s) {b : B} (hc : covered (loadDocDiff codec s.server (some b)) = true) :
    CoveredBy codec (stateVector s.server.stored) b := by
  obtain ⟨w, hw, hv⟩ := covered_sound codec hc
  rw [h.store.consulted hw] at hv
  exact hv

theorem ackInv_step {a : Action} (h : AckInv codec s) (hs : SocketsOk s) (ha : GateOk s a) :
    AckInv codec (step codec s a) := by
  refine step_preserves codec (AckInv codec) h fun t ht => ?_
  have hdoc : s.doc.structs ⊆ s.server.stored.structs →
      CoveredBy codec (stateVector s.server.stored) (localSv codec s) := fun hsub =>
    coveredBy_encode codec (covers_of_structs hsub)
  cases ht with
  | @edit u online hu =>
    refine ⟨h.acked, h.judged, h.answers, fun f hf hff => ?_, h.store⟩
    obtain ⟨g, hg, rfl⟩ := mem_map.1 hf
    obtain ⟨rfl, hnone⟩ := Bool.or_eq_false_iff.1 hff
    have hu0 : u.structs = ∅ := by simpa using hnone
    intro i hi
    rcases Finset.mem_union.1 hi with hi | hi
    · exact h.uploads _ hg rfl hi
    · rw [hu0] at hi
      exact absurd hi (Finset.notMem_empty i)
  | receive hu =>
    exact ⟨h.acked, h.judged, h.answers, fun f hf hff => Finset.union_subset (h.uploads f hf hff) hu.1, h.store⟩
  | storeMoves hd => exact h.grow codec hd.1 hd.2.1
  | @deliver i d m hm hc hd =>
    have hg := h.grow codec hc (hd ▸ le_sup_left)
    refine ⟨hg.acked, hg.judged, fun u hu => ?_, hg.uploads, hg.store⟩
    have hu' : u ∈ s.answers ∨ u = m.update := by
      cases hb : m.batch with
      | false => simp only [hb] at hu; exact .inl hu
      | true =>
        simp only [hb, if_true] at hu
        exact (mem_append.1 hu).imp_right mem_singleton.1
    rcases hu' with hu | rfl
    · exact hg.answers u hu
    · exact hd ▸ le_sup_right
  | settle hu =>
    have hc := coveredBy_encode codec (covers_of_le (h.answers _ hu))
    exact ⟨h.record codec hc, h.judged, fun w hw => h.answers w ((eraseIdx_sublist _ _).subset hw), h.uploads,
      h.store⟩
  | uploadFlushed hle =>
    refine ⟨h.acked, h.judged, h.answers, fun f hf hff => ?_, h.store⟩
    rcases mem_append.1 hf with hf | hf
    · exact h.uploads f hf hff
    · exact hle.1
  | uploadMark hf =>
    have hc := hdoc (h.uploads _ (mem_of_getElem? hf) (ha _ hf))
    exact ⟨h.record codec hc, h.judged, h.answers, fun g hg => h.uploads g ((eraseIdx_sublist _ _).subset hg),
      h.store⟩
  | confirmOpen hle => exact ⟨h.record codec (hdoc hle.1), h.judged, h.answers, h.uploads, h.store⟩
  | @judge i k b hi hk =>
    refine ⟨h.acked, fun j hj => ?_, h.answers, h.uploads, h.store⟩
    by_cases hv : covered (loadDocDiff codec s.server (some b)) = true
    · simp only [hv, if_true] at hj
      rcases mem_cons.1 hj with rfl | hj
      · exact judged_covered codec h hv
      · exact h.judged j hj
    · simp only [hv, Bool.false_eq_true, if_false] at hj
      exact h.judged j hj
  | @ready i k b hi hb hws =>
    obtain ⟨b', hb', hj⟩ := hs.ready k hws hi
    cases hb.symm.trans hb'
    exact ⟨h.record codec (h.judged _ hj), h.judged, h.answers, h.uploads, h.store⟩
  | _ => exact ⟨h.acked, h.judged, h.answers, h.uploads, h.store⟩

/-- **Step.** On the current socket `sentManifest` is what its `hello` carried. -/
theorem socketsOk_step {a : Action} (h : SocketsOk s) (ha : GateOk s a) : SocketsOk (step codec s a) := by
  refine step_preserves codec SocketsOk h fun t ht => ?_
  cases ht with
  | connect _ => exact h.connect
  | onOpen hws ho => exact h.onOpen hws ho
  | disconnect =>
    exact ⟨by simp, h.openings, h.hellos, h.heard, h.readies, by simp, by simp, by simp, by simp, h.acks⟩
  | buildManifest k =>
    have hsock : ∀ o ∈ s.openings.map (fun o => if o.socket = k then { o with entry := some (localSv codec s) } else o),
        ∃ o' ∈ s.openings, o'.socket = o.socket := by
      intro o ho
      obtain ⟨o', ho', rfl⟩ := mem_map.1 ho
      refine ⟨o', ho', ?_⟩
      split_ifs <;> rfl
    refine ⟨h.ws, fun o ho => ?_, h.hellos, h.heard, h.readies, fun hop cur hcur => ⟨fun o ho => ?_, ?_⟩,
      fun cur hcur hex => ?_, h.hello, h.ready, h.acks⟩
    · obtain ⟨o', ho', he⟩ := hsock o ho
      exact he ▸ h.openings o' ho'
    · obtain ⟨o', ho', he⟩ := hsock o ho
      exact he ▸ (h.unopened hop cur hcur).1 o' ho'
    · exact (h.unopened hop cur hcur).2
    · obtain ⟨o, ho, hoc⟩ := hex
      obtain ⟨o', ho', he⟩ := hsock o ho
      exact h.spent cur hcur ⟨o', ho', he.trans hoc⟩
  | resume hm hk => exact h.resume hm hk ha
  | ignoreHello i => exact h.eraseHello i
  | judgeNothing hi _ => exact h.judge hi (fun x hx => hx) (fun hf => by simp at hf)
  | judge hi _ =>
    refine h.judge hi (fun x hx => ?_) fun hv => ⟨_, rfl, ?_⟩
    · split_ifs
      · exact .tail _ hx
      · exact hx
    · rw [if_pos hv]
      exact .head _
  | ignoreReady i => exact h.eraseReady i
  | @ready i k b hi hb hws =>
    have he := h.eraseReady i
    refine ⟨he.ws, he.openings, he.hellos, he.heard, he.readies, he.unopened, he.spent, he.hello, he.ready, ?_⟩
    intro x hx
    rcases mem_cons.1 hx with rfl | hx
    · obtain ⟨b', hb', hj⟩ := h.ready k hws hi
      cases hb.symm.trans hb'
      exact hj
    · exact h.acks x hx
  | _ => exact h.congr rfl rfl rfl rfl rfl rfl rfl rfl rfl rfl

theorem docInv_step {a : Action} (h : DocInv s) (ha : GateOk s a) : DocInv (step codec s a) := by
  refine step_preserves codec DocInv h fun t ht => ?_
  cases ht with
  | edit online hu => exact h.edit hu ha
  | receive hu => exact h.receive hu
  | storeMoves hd => exact h.storeMoves hd
  | pushState =>
    refine h.messages fun m hm => ?_
    rcases mem_snoc.1 hm with hm | hm
    · exact .inl hm
    · rw [hm]
      exact .inr (Finset.Subset.refl _)
  | deliver hm _ hd => exact h.deliver hm hd
  | lose i => exact h.messages fun m hm => .inl ((eraseIdx_sublist _ _).subset hm)
  | _ => exact h.congr rfl rfl rfl

theorem gateInv_run {as : List Action} (h : Machine.Guarded (step codec) GateOk (init : St B) as) :
    GateInv codec (run codec init as) :=
  Machine.run_inv
    (fun _ _ hi ha => ⟨ackInv_step codec hi.acks hi.sockets ha, socketsOk_step codec hi.sockets ha,
      docInv_step codec hi.doc ha⟩)
    ⟨ackInv_init codec, socketsOk_init, docInv_init⟩ h

/-! ## Soundness -/

theorem covered_of_undecodable {d : Db} {b : B} (hb : codec.decode b = none) :
    covered (loadDocDiff codec d (some b)) = false := by
  by_contra hc
  obtain ⟨w, -, v, hv, -⟩ := covered_sound codec (by simpa using hc)
  rw [hb] at hv
  cases hv

/-- **The gate is sound, along every run that keeps to it.** When the record says a document holds no unsent work, the
server stores every struct and every deletion of it. Every vector recorded for a `ready.covered` was judged covered on
that socket, and bytes that do not decode are neither judged covered nor recorded. -/
theorem gate_is_sound (as : List Action) (h : Machine.Guarded (step codec) GateOk (init : St B) as) :
    (NoUnsentWork codec (run codec init as) → (run codec (init : St B) as).doc ≤ (run codec init as).server.stored) ∧
      (∀ a ∈ (run codec (init : St B) as).socketAcks, a ∈ (run codec init as).judged) ∧
      (∀ (d : Db) (b : B), codec.decode b = none → covered (loadDocDiff codec d (some b)) = false) ∧
      ∀ b ∈ (run codec (init : St B) as).acked, codec.decode b ≠ none := by
  have hi := gateInv_run codec h
  refine ⟨hi.sound codec, hi.sockets.acks, fun d b hb => covered_of_undecodable codec hb, fun b hb hn => ?_⟩
  obtain ⟨v, hv, -⟩ := hi.acks.acked b hb
  rw [hn] at hv
  cases hv

/-- the server with one row -/
def oneRow (u : Update) : Db := ⟨none, [⟨1, u⟩], none⟩

/-- an insertion, its batch push, and a reconnect whose `hello` the server judges -/
def ackedRun : List Action :=
  [.edit firstEdit false, .pushState, .deliver 0 (oneRow firstEdit), .settle 0, .connect, .onOpen, .buildManifest 0,
    .resume 0, .serverJudge 0, .ready 0]

theorem acked_run_is_sound :
    (run plainCodec init ackedRun).doc ≤ (run plainCodec (init : St StateVector) ackedRun).server.stored :=
  (gate_is_sound plainCodec ackedRun (by decide)).1 (by decide)

/-- after the push is acknowledged, the insertion is deleted while the device is offline -/
def deletedRun : List Action :=
  [.edit firstEdit false, .pushState, .deliver 0 (oneRow firstEdit), .settle 0, .edit deletedEdit false]

/-- **The gate passes an unsent deletion.** It changes no clock, so the record still covers the document. -/
theorem gate_passes_unsent_deletion :
    ¬ (NoUnsentWork plainCodec (run plainCodec init deletedRun) →
      (run plainCodec init deletedRun).doc ≤ (run plainCodec (init : St StateVector) deletedRun).server.stored) := by
  decide

end Baalda.AckedSv
