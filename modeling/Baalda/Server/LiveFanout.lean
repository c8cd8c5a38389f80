/-
The live fan-out of one connection, for a document `d` that stays readable: no update is lost and no gap is opened.

An update heard on the topic is covered once a live frame or a state or diff frame carries it, or when the client's
document had it at its `hello` (`CoveredIn`); until then something owes it (`Owed`): the queue of documents to resend, a resend in progress that has
not read yet or has read it, the buffer held before the readable set is known, or, for what an overflowed buffer
dropped, the handshake's backfill. A live frame opens a gap when an earlier update of its document is not covered yet
(`NoGap`): the client parks it behind a predecessor it lacks.

`FanoutOk` lists what a run must not do:
- fail a read that was the last thing owing an uncovered update;
- forward a live update while one the overflowed buffer dropped is still uncovered;
- overflow the buffer of a client whose handshake's backfill will not bring what is dropped: a live-only client, or one
  whose vectors cover all that is stored while its document lacks some of it (a deletion).
-/
import Baalda.Lib.Slots
import Baalda.Server.VaultChannel

namespace Baalda.VaultChannel

open List Option

/-! ## Covered and owed -/

/-- the frame brings the update to the client -/
def carries (u : Upd) : Event → Prop
  | .live v _ => v = u
  | .state _ covers => u ∈ covers
  | _ => False

instance (u : Upd) (e : Event) : Decidable (carries u e) := by unfold carries; split <;> infer_instance

def CoveredIn (has : List Upd) (trace : List Event) (u : Upd) : Prop := u ∈ has ∨ ∃ e ∈ trace, carries u e

instance (has : List Upd) (trace : List Event) (u : Upd) : Decidable (CoveredIn has trace u) :=
  inferInstanceAs (Decidable (_ ∨ ∃ e ∈ trace, carries u e))

/-- a backfill in this phase will send the update: it has not read yet, or has read it -/
def Phase.delivers (u : Upd) : Phase → Prop
  | .parked | .reading => True
  | .read covers => u ∈ covers
  | .finished => False

instance (u : Upd) (p : Phase) : Decidable (p.delivers u) := by unfold Phase.delivers; split <;> infer_instance

def Owing (tasks : List Task) (origin : Origin) (u : Upd) : Prop :=
  ∃ t ∈ tasks, t.origin = origin ∧ t.doc = u.doc ∧ t.phase.delivers u

instance (tasks : List Task) (origin : Origin) (u : Upd) : Decidable (Owing tasks origin u) :=
  inferInstanceAs (Decidable (∃ t ∈ tasks, _))

/-- something will still send the update; `tasks` are the backfills counted on -/
def Owed (s : St) (tasks : List Task) (u : Upd) : Prop :=
  u.doc ∈ s.pendingResync ∨ Owing tasks .resync u ∨ (∃ held ∈ s.preAclUpdates, u ∈ held) ∨
    (u ∈ s.dropped ∧ s.liveOnly = false ∧ (s.backfillStarted = false ∨ Owing tasks .handshake u))

instance (s : St) (tasks : List Task) (u : Upd) : Decidable (Owed s tasks u) := by unfold Owed; infer_instance

/-- every live frame of `d` finds the updates of `d` heard before it covered by the frames before it -/
def NoGap (d : ℕ) (has : List Upd) : List Event → List Event → Prop
  | _, [] => True
  | sent, e :: es =>
    (match e with
      | .live u heard => u.doc = d → ∀ v ∈ heard, v.doc = d → CoveredIn has sent v
      | _ => True) ∧ NoGap d has (sent ++ [e]) es

instance NoGap.decidable (d : ℕ) (has : List Upd) : ∀ sent es, Decidable (NoGap d has sent es)
  | _, [] => inferInstanceAs (Decidable True)
  | sent, e :: es =>
    have := NoGap.decidable d has (sent ++ [e]) es
    match e with
    | .live u heard =>
      inferInstanceAs (Decidable ((u.doc = d → ∀ v ∈ heard, v.doc = d → CoveredIn has sent v) ∧ _))
    | .state .. | .revoked _ | .drop _ | .bootstrap _ | .access _ => inferInstanceAs (Decidable (True ∧ _))

variable {has : List Upd} {trace : List Event} {u : Upd}

theorem CoveredIn.append (h : CoveredIn has trace u) (es : List Event) : CoveredIn has (trace ++ es) u := by
  rcases h with h | ⟨e, he, hc⟩
  · exact .inl h
  · exact .inr ⟨e, mem_append_left _ he, hc⟩

theorem coveredIn_snoc {e : Event} (h : carries u e) :
    CoveredIn has (trace ++ [e]) u := .inr ⟨e, by simp, h⟩

variable {d : ℕ}

theorem noGap_append (sent xs ys : List Event) :
    NoGap d has sent (xs ++ ys) ↔ NoGap d has sent xs ∧ NoGap d has (sent ++ xs) ys := by
  induction xs generalizing sent with
  | nil => simp [NoGap]
  | cons e xs ih =>
    simp only [cons_append, NoGap, ih, and_assoc, append_assoc, nil_append]

theorem noGap_of_noLive {es : List Event} (h : NoLive es) (sent : List Event) : NoGap d has sent es := by
  induction es generalizing sent with
  | nil => trivial
  | cons e es ih =>
    refine ⟨?_, ih (fun x hx => h x (.tail _ hx)) _⟩
    cases e with
    | live u heard => exact absurd rfl (h _ mem_cons_self u heard)
    | _ => trivial

theorem NoGap.append_noLive {es : List Event} (h : NoGap d has [] trace) (he : NoLive es) :
    NoGap d has [] (trace ++ es) := (noGap_append _ _ _).2 ⟨h, noGap_of_noLive he _⟩

variable {heard : List Upd}

theorem NoGap.append_live (h : NoGap d has [] trace) (hu : u.doc = d → ∀ v ∈ heard, v.doc = d → CoveredIn has trace v) :
    NoGap d has [] (trace ++ [.live u heard]) :=
  (noGap_append _ _ _).2 ⟨h, by simpa [NoGap] using hu⟩

variable {tasks tasks' : List Task}

theorem Owing.mono {origin : Origin} (h : Owing tasks origin u)
    (hsub : ∀ t ∈ tasks, t.origin = origin → t.doc = u.doc → t.phase.delivers u → ∃ t' ∈ tasks',
      t'.origin = origin ∧ t'.doc = u.doc ∧ t'.phase.delivers u)
    : Owing tasks' origin u := by
  obtain ⟨t, ht, ho, hd, hp⟩ := h
  exact hsub t ht ho hd hp

theorem Owing.append {origin : Origin} (h : Owing tasks origin u) (ts : List Task) :
    Owing (tasks ++ ts) origin u := h.mono fun t ht ho hd hp => ⟨t, mem_append_left _ ht, ho, hd, hp⟩

variable {s : St}

/-- the queue, the buffer and the handshake may owe more, and every backfill that will send the update still will -/
theorem Owed.mono {t : St} (h : Owed s tasks u)
    (hp : u.doc ∈ s.pendingResync → u.doc ∈ t.pendingResync ∨ Owing tasks' .resync u)
    (hb : t.preAclUpdates = s.preAclUpdates) (hd : ∀ v ∈ s.dropped, v ∈ t.dropped) (hl : t.liveOnly = s.liveOnly)
    (hs : s.backfillStarted = false → t.backfillStarted = false ∨ Owing tasks' .handshake u)
    (ht : ∀ o, Owing tasks o u → Owing tasks' o u) : Owed t tasks' u := by
  rcases h with h | h | h | ⟨hdr, hlo, h⟩
  · rcases hp h with h | h
    · exact .inl h
    · exact .inr (.inl h)
  · exact .inr (.inl (ht _ h))
  · exact .inr (.inr (.inl (by rwa [hb])))
  · refine .inr (.inr (.inr ⟨hd u hdr, by rw [hl]; exact hlo, ?_⟩))
    rcases h with h | h
    · exact hs h
    · exact .inr (ht _ h)

/-! ## What a run must not do -/

/-- some update of `d` has been heard, or is heard now -/
def Heard (d : ℕ) (s : St) (u : Upd) : Prop := u.doc = d ∨ ∃ v ∈ s.received, v.doc = d

instance (d : ℕ) (s : St) (u : Upd) : Decidable (Heard d s u) := inferInstanceAs (Decidable (_ ∨ ∃ v ∈ s.received, _))

/-- the handshake's backfill of `d` will not be empty, or the client has the update -/
def Backfilled (d : ℕ) (s : St) (u : Upd) : Prop := u ∈ s.has ∨ ∃ w ∈ committedOf s d, w ∉ s.held

instance (d : ℕ) (s : St) (u : Upd) : Decidable (Backfilled d s u) :=
  inferInstanceAs (Decidable (_ ∨ ∃ w ∈ committedOf s d, w ∉ s.held))

def FanoutOk (d : ℕ) (s : St) : Action → Prop
  -- the document stays readable
  | .setGrants granted _ => d ∈ granted
  | .receive =>
    match s.channel with
    | .update u :: _ =>
      if s.acl = .loaded then
        u.doc = d → (∀ v ∈ s.dropped, v.doc = d → CoveredIn s.has s.trace v) ∨
          d ∈ s.pendingResync ∨ resyncing s d ∨ s.blocked = true
      else
        (∃ held ∈ s.preAclUpdates, held.length < PRE_ACL_UPDATES_MAX) ∨ ¬ Heard d s u ∨
          (s.liveOnly = false ∧ ∀ v ∈ s.received ++ [u], v.doc = d → Backfilled d s v)
    | _ => True
  | .taskRead i false =>
    ∀ u ∈ s.received, u.doc = d → CoveredIn s.has s.trace u ∨ Owed s (s.tasks.eraseIdx i) u
  | _ => True

instance (d : ℕ) (s : St) (a : Action) : Decidable (FanoutOk d s a) := by
  unfold FanoutOk; repeat' split
  all_goals infer_instance

/-! ## The document stays readable -/

structure StaysReadable (d : ℕ) (s : St) : Prop where
  granted : d ∈ s.granted
  handshake : ∀ next, s.acl = .read next → d ∈ next
  readable : s.acl = .loaded → d ∈ s.readable
  refreshes : ∀ r ∈ s.refreshes, ∀ next, r.phase = .read next → d ∈ next

variable {a : Action}

theorem staysReadable_step (h : StaysReadable d s) (ha : FanoutOk d s a) : StaysReadable d (step s a) := by
  have herase : ∀ i, ∀ r ∈ s.refreshes.eraseIdx i, ∀ next, r.phase = .read next → d ∈ next := fun i r hr =>
    h.refreshes r ((eraseIdx_sublist _ _).subset hr)
  have hset : ∀ i r', (∀ next, r'.phase = .read next → d ∈ next) →
      ∀ r ∈ s.refreshes.set i r', ∀ next, r.phase = .read next → d ∈ next := fun i r' hr' r hr => by
    rcases mem_or_eq_of_mem_set hr with hr | rfl
    · exact h.refreshes r hr
    · exact hr'
  refine step_preserves (StaysReadable d) h fun t ht => ?_
  cases ht with
  | setGrants g ds => exact ⟨ha, h.handshake, h.readable, h.refreshes⟩
  | forward _ hl =>
    obtain ⟨p, l, tr, he⟩ := forwardReadable_shape _ s.received _
    rw [he]
    exact ⟨h.granted, h.handshake, h.readable, h.refreshes⟩
  | hold _ hl =>
    unfold holdUpdate
    split
    · split_ifs <;> exact ⟨h.granted, h.handshake, h.readable, h.refreshes⟩
    · exact ⟨h.granted, h.handshake, h.readable, h.refreshes⟩
  | refreshStart _ _ =>
    refine ⟨h.granted, h.handshake, h.readable, fun r hr next hp => ?_⟩
    rcases mem_snoc.1 hr with hr | hr
    · exact h.refreshes r hr next hp
    · rw [hr] at hp
      cases hp
  | aclRead hacl =>
    refine ⟨h.granted, fun next hn => ?_, fun hl => by simp at hl, h.refreshes⟩
    obtain rfl := Acl.read.inj hn
    exact h.granted
  | aclAgain hacl _ => exact ⟨h.granted, fun next hn => by simp at hn, fun hl => by simp at hl, h.refreshes⟩
  | @aclLoad next hacl _ =>
    obtain ⟨p, l, tr, he⟩ := replay_shape (openChannel s next) [] (s.preAclUpdates.getD [])
    rw [he]
    exact ⟨h.granted, fun n hn => by simp [openChannel] at hn, fun _ => h.handshake next hacl, h.refreshes⟩
  | refreshRead hi =>
    refine ⟨h.granted, h.handshake, h.readable, hset _ _ fun next hn => ?_⟩
    obtain rfl := RefreshPhase.read.inj hn
    exact h.granted
  | refreshFail hi | refreshStale hi _ => exact ⟨h.granted, h.handshake, h.readable, herase _⟩
  | @refreshApply i seq next hi hs =>
    have hn : d ∈ next := h.refreshes _ (mem_of_getElem? hi) next rfl
    obtain ⟨rs, es, ts, sl, sg, -, hrs, he⟩ := applyRefresh_shape s i seq next
    rw [he]
    refine ⟨h.granted, h.handshake, fun _ => hn, fun r hr n hp => ?_⟩
    rcases hrs r hr with hr | hne
    · exact h.refreshes r hr n hp
    · exact absurd hp (hne n)
  | refreshProbe ok hi => exact ⟨h.granted, h.handshake, h.readable, hset _ _ fun n hp => by simp at hp⟩
  | @refreshFinish i seq prev next deletedNow hi =>
    exact ⟨h.granted, h.handshake, h.readable, herase _⟩
  | _ => exact ⟨h.granted, h.handshake, h.readable, h.refreshes⟩

/-! ## The handshake, the loop, the log -/

structure FanoutOrder (s : St) : Prop where
  /-- before the readable set is known nothing is sent, and what is heard is held back or dropped -/
  early : s.acl ≠ .loaded → s.trace = [] ∧ s.pendingResync = [] ∧ s.tasks = [] ∧ s.backfillStarted = false ∧
    (∀ held ∈ s.preAclUpdates, s.received = held ∧ s.dropped = []) ∧ (s.preAclUpdates = none → s.dropped = s.received)
  noRefresh : s.acl ≠ .loaded → s.refreshes = []
  late : s.acl = .loaded → s.preAclUpdates = none
  known : ∀ u, u ∈ s.received ∨ .update u ∈ s.channel ∨ .update u ∈ s.toPublish → u ∈ s.committed
  loop : s.loop = .idle → s.pendingResync = []
  dropped : ∀ u ∈ s.dropped, u ∈ s.received

theorem fanoutOrder_init (granted : List ℕ) (committed pending held has : List Upd) (liveOnly batches bulkRegrant : Bool) :
    FanoutOrder (init granted committed pending held has liveOnly batches bulkRegrant) := by
  constructor <;> simp [init]
  exact fun u hu => .inr hu

/-- a step after the handshake that leaves the topic, the queue and the loop alone -/
theorem FanoutOrder.tail {t : St} (h : FanoutOrder s) (ha : t.acl = .loaded) (hb : t.preAclUpdates = s.preAclUpdates)
    (hs : s.acl = .loaded) (hr : t.received = s.received) (hc : t.channel = s.channel)
    (hp : t.toPublish = s.toPublish) (hm : t.committed = s.committed) (hl : t.loop = s.loop)
    (hq : t.pendingResync = s.pendingResync) (hd : t.dropped = s.dropped) : FanoutOrder t := by
  refine ⟨fun hn => absurd ha hn, fun hn => absurd ha hn, fun _ => by rw [hb]; exact h.late hs, ?_, ?_, ?_⟩
  · rw [hr, hc, hp, hm]
    exact h.known
  · rw [hl, hq]
    exact h.loop
  · rw [hd, hr]
    exact h.dropped

variable {i : ℕ}

theorem loaded_of_task (h : FanoutOrder s) {t : Task} (hi : s.tasks[i]? = some t) : s.acl = .loaded := by
  by_contra hn
  rw [(h.early hn).2.2.1] at hi
  simp at hi

theorem loaded_of_refresh (h : FanoutOrder s) {r : Refresh} (hi : s.refreshes[i]? = some r) : s.acl = .loaded := by
  by_contra hn
  rw [h.noRefresh hn] at hi
  simp at hi

theorem markPending_loop (s : St) (doc : ℕ) : (markPending s doc).loop ≠ .idle := by
  unfold markPending
  dsimp only
  split_ifs with h
  · simp
  · exact h

/-- a live update leaves the loop running when it leaves something owed -/
theorem forwardReadable_loop (h : s.loop = .idle → s.pendingResync = []) (heard : List Upd) (u : Upd) :
    (forwardReadable s heard u).loop = .idle → (forwardReadable s heard u).pendingResync = [] := by
  rcases forwardReadable_eq s heard u with ⟨-, he⟩ | ⟨-, he⟩ | ⟨-, -, -, -, he⟩
  · rw [he]
    exact h
  · rw [he]
    exact fun hl => absurd hl (markPending_loop s u.doc)
  · rw [he]
    exact h

theorem replay_loop (h : s.loop = .idle → s.pendingResync = []) (heard us : List Upd) :
    (replay s heard us).loop = .idle → (replay s heard us).pendingResync = [] := by
  induction us generalizing s heard with
  | nil => exact h
  | cons u us ih => exact ih (forwardReadable_loop h heard u) _

theorem fanoutOrder_step (h : FanoutOrder s) : FanoutOrder (step s a) := by
  have hknown : ∀ {m : Msg} {rest : List Msg}, s.channel = m :: rest →
      ∀ u, u ∈ s.received ∨ .update u ∈ rest ∨ .update u ∈ s.toPublish → u ∈ s.committed := by
    rintro m rest hc u (hu | hu | hu)
    · exact h.known u (.inl hu)
    · exact h.known u (.inr (.inl (by rw [hc]; exact .tail _ hu)))
    · exact h.known u (.inr (.inr hu))
  have hheard : ∀ {v : Upd} {rest : List Msg}, s.channel = .update v :: rest →
      ∀ u, u ∈ s.received ++ [v] ∨ .update u ∈ rest ∨ .update u ∈ s.toPublish → u ∈ s.committed := by
    rintro v rest hc u (hu | hu)
    · rcases mem_snoc.1 hu with hu | hu
      · exact h.known u (.inl hu)
      · rw [hu]
        exact h.known v (.inr (.inl (by rw [hc]; exact .head _)))
    · exact hknown hc u (.inr hu)
  have hgrow : ∀ {v : Upd}, ∀ u ∈ s.dropped, u ∈ s.received ++ [v] := fun u hu =>
    mem_append_left _ (h.dropped u hu)
  refine step_preserves FanoutOrder h fun t ht => ?_
  cases ht with
  | commit u =>
    refine ⟨h.early, h.noRefresh, h.late, fun v hv => ?_, h.loop, h.dropped⟩
    rcases hv with hv | hv | hv
    · exact mem_append_left _ (h.known v (.inl hv))
    · exact mem_append_left _ (h.known v (.inr (.inl hv)))
    · rcases mem_snoc.1 hv with hv | hv
      · exact mem_append_left _ (h.known v (.inr (.inr hv)))
      · obtain rfl := Msg.update.inj hv
        exact mem_append_right _ mem_cons_self
  | setGrants g ds =>
    refine ⟨h.early, h.noRefresh, h.late, fun v hv => h.known v ?_, h.loop, h.dropped⟩
    refine hv.imp_right (Or.imp_right fun hv => ?_)
    rcases mem_snoc.1 hv with hv | hv
    · exact hv
    · simp at hv
  | publish hm =>
    refine ⟨h.early, h.noRefresh, h.late, fun v hv => h.known v ?_, h.loop, h.dropped⟩
    rcases hv with hv | hv | hv
    · exact .inl hv
    · rcases mem_snoc.1 hv with hv | hv
      · exact .inr (.inl hv)
      · rw [hv]
        exact .inr (.inr (mem_of_getElem? hm))
    · exact .inr (.inr ((eraseIdx_sublist _ _).subset hv))
  | buffer b => exact ⟨h.early, h.noRefresh, h.late, h.known, h.loop, h.dropped⟩
  | @forward u rest hc hl =>
    have hloop := forwardReadable_loop (s := { s with channel := rest, received := s.received ++ [u] }) h.loop s.received u
    obtain ⟨p, l, tr, he⟩ := forwardReadable_shape { s with channel := rest, received := s.received ++ [u] } s.received u
    rw [he] at hloop ⊢
    exact ⟨fun hn => absurd hl hn, fun hn => absurd hl hn, h.late, hheard hc, hloop, hgrow⟩
  | @hold u rest hc hl =>
    obtain ⟨htr, hpe, hta, hbs, hsome, hnone⟩ := h.early hl
    unfold holdUpdate
    split
    · rename_i held hheld
      obtain ⟨hrec, hdr⟩ := hsome held hheld
      split_ifs
      · refine ⟨fun _ => ⟨htr, hpe, hta, hbs, fun held' hh => ?_, by simp⟩, h.noRefresh, fun hn => absurd hn hl, hheard hc,
          h.loop, hgrow⟩
        cases hh
        exact ⟨by simp [hrec], hdr⟩
      · exact ⟨fun _ => ⟨htr, hpe, hta, hbs, by simp, fun _ => rfl⟩, h.noRefresh, fun hn => absurd hn hl, hheard hc, h.loop,
        fun _ hv => hv⟩
    · rename_i hheld
      have hheld' : s.preAclUpdates = none := hheld
      exact ⟨fun _ => ⟨htr, hpe, hta, hbs, by simp [hheld'], fun _ => rfl⟩, h.noRefresh, fun hn => absurd hn hl, hheard hc,
        h.loop, fun _ hv => hv⟩
  | refreshStart hc hl =>
    exact ⟨fun hn => absurd hl hn, fun hn => absurd hl hn, h.late, hknown hc, h.loop, h.dropped⟩
  | markDirty hc hl => exact ⟨h.early, h.noRefresh, h.late, hknown hc, h.loop, h.dropped⟩
  | aclRead ha | aclAgain ha _ =>
    have hn : s.acl ≠ .loaded := by rw [ha]; simp
    exact ⟨fun _ => h.early hn, fun _ => h.noRefresh hn, fun hl => by simp at hl, h.known, h.loop, h.dropped⟩
  | @aclLoad next ha _ =>
    have hloop := replay_loop (s := openChannel s next) h.loop [] (s.preAclUpdates.getD [])
    obtain ⟨p, l, tr, he⟩ := replay_shape (openChannel s next) [] (s.preAclUpdates.getD [])
    rw [he] at hloop ⊢
    exact ⟨fun hn => absurd rfl hn, fun hn => absurd rfl hn, fun _ => rfl, h.known, hloop, h.dropped⟩
  | startBackfill hl _ _ => exact h.tail hl rfl hl rfl rfl rfl rfl rfl rfl rfl
  | refreshRead hi | refreshFail hi | refreshStale hi _ | refreshProbe ok hi =>
    have hl := loaded_of_refresh h hi
    exact h.tail hl rfl hl rfl rfl rfl rfl rfl rfl rfl
  | @refreshApply i seq next hi _ =>
    have hl := loaded_of_refresh h hi
    obtain ⟨rs, es, ts, sl, sg, -, -, he⟩ := applyRefresh_shape s i seq next
    rw [he]
    exact h.tail hl rfl hl rfl rfl rfl rfl rfl rfl rfl
  | @refreshFinish i seq prev next deletedNow hi =>
    have hl := loaded_of_refresh h hi
    exact h.tail hl rfl hl rfl rfl rfl rfl rfl rfl rfl
  | taskAdmit hi _ | taskSilent hi _ _ | taskRead hi _ _ | taskSend hi _ | taskEnd hi _ =>
    have hl := loaded_of_task h hi
    exact h.tail hl rfl hl rfl rfl rfl rfl rfl rfl rfl
  | loopExit _ hp => exact ⟨h.early, h.noRefresh, h.late, h.known, fun hl => by simp at hl, h.dropped⟩
  | @loopNext d rest hl _ hp =>
    have hloaded : s.acl = .loaded := by
      by_contra hn
      rw [(h.early hn).2.1] at hp
      simp at hp
    exact ⟨fun hn => absurd hloaded hn, h.noRefresh, h.late, h.known, fun hi => absurd (hl.symm.trans hi) (by simp),
      h.dropped⟩
  | loopFinally _ =>
    refine ⟨h.early, h.noRefresh, h.late, h.known, fun hi => ?_, h.dropped⟩
    by_contra hne
    simp only [hne, if_false] at hi
    cases hi

/-! ## What the buffer dropped -/

/-- the handshake's backfill will bring what was dropped -/
def DroppedOk (d : ℕ) (s : St) : Prop := ∀ u ∈ s.dropped, u.doc = d → Backfilled d s u

theorem droppedOk_step (h : DroppedOk d s) (ho : FanoutOrder s) (ha : FanoutOk d s a) : DroppedOk d (step s a) := by
  refine step_preserves (DroppedOk d) h fun t ht => ?_
  cases ht with
  | commit u =>
    intro v hv hd
    rcases h v hv hd with hv | ⟨w, hw, hn⟩
    · exact .inl hv
    · have hmem : w ∈ s.committed ∧ w.doc = d := by simpa [committedOf] using hw
      exact .inr ⟨w, by simp [committedOf, hmem], hn⟩
  | @forward u rest hc hl =>
    obtain ⟨p, l, tr, he⟩ := forwardReadable_shape { s with channel := rest, received := s.received ++ [u] } s.received u
    rw [he]
    exact h
  | @hold u rest hc hl =>
    simp only [FanoutOk, hc, hl, if_false] at ha
    -- the buffer is given up: the guard speaks of all that was heard
    have hgiven : ¬ (∃ held ∈ s.preAclUpdates, held.length < PRE_ACL_UPDATES_MAX) →
        ∀ v ∈ s.received ++ [u], v.doc = d → Backfilled d s v := by
      intro hfull v hv hd
      rcases ha with hroom | hno | ⟨-, hb⟩
      · exact absurd hroom hfull
      · refine absurd ?_ hno
        rcases mem_snoc.1 hv with hv | hv
        · exact .inr ⟨v, hv, hd⟩
        · exact .inl (hv ▸ hd)
      · exact hb v hv hd
    unfold holdUpdate
    split
    · rename_i held hheld
      split_ifs with hroom
      · exact h
      · refine hgiven ?_
        rintro ⟨held', hh, hlt⟩
        cases hheld.symm.trans hh
        exact hroom hlt
    · rename_i hheld
      refine hgiven ?_
      rintro ⟨held', hh, -⟩
      exact absurd (hheld.symm.trans hh) (by simp)
  | @aclLoad next hr hd =>
    obtain ⟨p, l, tr, he⟩ := replay_shape (openChannel s next) [] (s.preAclUpdates.getD [])
    rw [he]
    exact h
  | @refreshApply i seq next hi hs =>
    obtain ⟨rs, es, ts, sl, sg, -, -, he⟩ := applyRefresh_shape s i seq next
    rw [he]
    exact h
  | @refreshFinish i seq prev next deletedNow hi =>
    exact h
  | _ => exact h

/-! ## Backfills that count -/

/-- what is owed by a task is owed by the one at `i`, or by another -/
theorem owing_split {t : Task} {o : Origin} (hi : tasks[i]? = some t) (h : Owing tasks o u) :
    (t.origin = o ∧ t.doc = u.doc ∧ t.phase.delivers u) ∨ Owing (tasks.eraseIdx i) o u := by
  obtain ⟨x, hx, ho, hd, hp⟩ := h
  obtain ⟨j, hj⟩ := mem_iff_getElem?.1 hx
  by_cases hji : j = i
  · subst hji
    cases hi.symm.trans hj
    exact .inl ⟨ho, hd, hp⟩
  · exact .inr ⟨x, mem_eraseIdx_iff_getElem?.2 ⟨j, hji, hj⟩, ho, hd, hp⟩

theorem owing_of_erase {o : Origin} (h : Owing (tasks.eraseIdx i) o u) (t' : Task) : Owing (tasks.set i t') o u := by
  obtain ⟨x, hx, ho, hd, hp⟩ := h
  obtain ⟨j, hji, hj⟩ := mem_eraseIdx_iff_getElem?.1 hx
  refine ⟨x, mem_iff_getElem?.2 ⟨j, ?_⟩, ho, hd, hp⟩
  rw [getElem?_set_ne (fun h => hji h.symm)]
  exact hj

/-- the task at `i` moves on to a phase that still delivers what its old one did -/
theorem owing_setPhase {t : Task} {p : Phase} {o : Origin} (hi : s.tasks[i]? = some t)
    (hp : t.doc = u.doc → t.phase.delivers u → p.delivers u) (h : Owing s.tasks o u) :
    Owing (setPhase s i t p) o u := by
  rcases owing_split hi h with ⟨ho, hd, hdel⟩ | h
  · exact ⟨{ t with phase := p }, mem_iff_getElem?.2 ⟨i, by
      rw [setPhase, List.getElem?_set_self (List.getElem?_eq_some_iff.1 hi).1]⟩, ho, hd, hp hd hdel⟩
  · exact owing_of_erase h _

/-! ## What is heard is covered or owed -/

structure Accounted (d : ℕ) (old : List Upd) (s : St) : Prop where
  /-- what has committed and was not published before the connection is on its way here -/
  announced : ∀ u ∈ s.committed, u ∈ old ∨ u ∈ s.received ∨ .update u ∈ s.channel ∨ .update u ∈ s.toPublish
  owed : ∀ u ∈ s.received, u.doc = d → CoveredIn s.has s.trace u ∨ Owed s s.tasks u
  noGap : NoGap d s.has [] s.trace

variable {old : List Upd}

/-- a step that hears nothing and sends no live update: the rest of the log is where it was, and what was owed is -/
theorem Accounted.keep {t : St} (es : List Event) (h : Accounted d old s)
    (ha : ∀ u ∈ t.committed, u ∈ old ∨ u ∈ t.received ∨ .update u ∈ t.channel ∨ .update u ∈ t.toPublish)
    (hr : t.received = s.received) (hh : t.has = s.has) (htr : t.trace = s.trace ++ es) (hes : NoLive es)
    (ho : ∀ u ∈ s.received, u.doc = d → Owed s s.tasks u → CoveredIn t.has t.trace u ∨ Owed t t.tasks u) :
    Accounted d old t := by
  refine ⟨ha, fun u hu hd => ?_, by rw [hh, htr]; exact h.noGap.append_noLive hes⟩
  rw [hr] at hu
  rcases h.owed u hu hd with hc | hw
  · rw [hh, htr]
    exact .inl (hc.append es)
  · exact ho u hu hd hw

theorem noLive_nil : NoLive [] := fun _ he => by simp at he

theorem noLive_singleton {e : Event} (h : ∀ u heard, e ≠ .live u heard) : NoLive [e] := fun x hx => by
  rw [mem_singleton.1 hx]
  exact h

/-- a live update that is judged while everything heard before it is covered or queued -/
theorem forwardReadable_covers (hd : d ∈ s.readable)
    (hcov : ∀ v ∈ heard, v.doc = d → CoveredIn s.has s.trace v ∨ d ∈ s.pendingResync ∨ resyncing s d ∨ s.blocked = true)
    (hgap : NoGap d s.has [] s.trace) :
    NoGap d s.has [] (forwardReadable s heard u).trace ∧
      (u.doc = d → CoveredIn s.has (forwardReadable s heard u).trace u ∨ d ∈ (forwardReadable s heard u).pendingResync) := by
  rcases forwardReadable_eq s heard u with ⟨hn, he⟩ | ⟨-, he⟩ | ⟨-, hp, hr, hb, he⟩
  · rw [he]
    exact ⟨hgap, fun hu => absurd (hu ▸ hd) hn⟩
  · rw [he]
    refine ⟨hgap, fun hu => .inr ?_⟩
    simp only [markPending, hu]
    split_ifs with hm
    · exact hm
    · exact mem_append_right _ mem_cons_self
  · rw [he]
    refine ⟨hgap.append_live fun hu v hv hvd => ?_, fun _ => .inl (coveredIn_snoc rfl)⟩
    rw [hu] at hp hr
    rcases hcov v hv hvd with hc | hc | hc | hc
    · exact hc
    · exact absurd hc hp
    · exact absurd hc hr
    · exact absurd hc (by rw [hb]; simp)

theorem forwardReadable_pending (h : d ∈ s.pendingResync) : d ∈ (forwardReadable s heard u).pendingResync := by
  rcases forwardReadable_eq s heard u with ⟨-, he⟩ | ⟨-, he⟩ | ⟨-, -, -, -, he⟩
  · rw [he]
    exact h
  · rw [he]
    simp only [markPending]
    split_ifs
    · exact h
    · exact mem_append_left _ h
  · rw [he]
    exact h

theorem forwardReadable_trace {v : Upd} (h : CoveredIn has s.trace v) :
    CoveredIn has (forwardReadable s heard u).trace v := by
  rcases forwardReadable_eq s heard u with ⟨-, he⟩ | ⟨-, he⟩ | ⟨-, -, -, -, he⟩
  · rw [he]
    exact h
  · rw [he]
    exact h
  · rw [he]
    exact h.append _

/-- the buffer replayed: by induction on what is left, with what has been replayed covered or queued -/
theorem replay_covers {d : ℕ} (us : List Upd) {s : St} {heard : List Upd} (hd : d ∈ s.readable)
    (hcov : ∀ v ∈ heard, v.doc = d → CoveredIn s.has s.trace v ∨ d ∈ s.pendingResync)
    (hgap : NoGap d s.has [] s.trace) :
    NoGap d s.has [] (replay s heard us).trace ∧
      ∀ v ∈ heard ++ us, v.doc = d → CoveredIn s.has (replay s heard us).trace v ∨ d ∈ (replay s heard us).pendingResync := by
  induction us generalizing s heard with
  | nil => exact ⟨hgap, fun v hv hvd => hcov v (by simpa using hv) hvd⟩
  | cons u us ih =>
    obtain ⟨hgap', hu⟩ := forwardReadable_covers (u := u) hd
      (fun v hv hvd => (hcov v hv hvd).imp_right .inl) hgap
    obtain ⟨p, l, tr, he⟩ := forwardReadable_shape s heard u
    have hhas : (forwardReadable s heard u).has = s.has := by rw [he]
    have hread : d ∈ (forwardReadable s heard u).readable := by rw [he]; exact hd
    have hcov' : ∀ v ∈ heard ++ [u], v.doc = d →
        CoveredIn (forwardReadable s heard u).has (forwardReadable s heard u).trace v ∨
          d ∈ (forwardReadable s heard u).pendingResync := by
      intro v hv hvd
      rw [hhas]
      rcases mem_snoc.1 hv with hv | hv
      · exact (hcov v hv hvd).imp forwardReadable_trace forwardReadable_pending
      · rw [hv] at hvd ⊢
        exact hu hvd
    have hrun := @ih (forwardReadable s heard u) (heard ++ [u]) hread hcov' (by rw [hhas]; exact hgap')
    rw [hhas, append_assoc] at hrun
    exact hrun

/-! ## The invariant -/

/-- what is owed survives a step that leaves the queue, the buffer and the handshake as they are -/
theorem Owed.of_tasks {t : St} (h : Owed s tasks u) (hp : t.pendingResync = s.pendingResync)
    (hb : t.preAclUpdates = s.preAclUpdates) (hd : t.dropped = s.dropped) (hl : t.liveOnly = s.liveOnly)
    (hs : t.backfillStarted = s.backfillStarted) (ht : ∀ o, Owing tasks o u → Owing tasks' o u) : Owed t tasks' u :=
  h.mono (fun h => .inl (hp ▸ h)) hb (fun _ hv => hd ▸ hv) hl (fun h => .inl (hs ▸ h)) ht

/-- after the handshake a document nothing is owed for has nothing left to cover but what the buffer dropped -/
theorem accounted_forward {rest : List Msg} (h : Accounted d old s) (hs : StaysReadable d s) (ho : FanoutOrder s)
    (hc : s.channel = .update u :: rest) (hl : s.acl = .loaded)
    (hok : u.doc = d → (∀ v ∈ s.dropped, v.doc = d → CoveredIn s.has s.trace v) ∨ d ∈ s.pendingResync ∨
      resyncing s d ∨ s.blocked = true)
    : Accounted d old (forwardReadable { s with channel := rest, received := s.received ++ [u] } s.received u) := by
  set w : St := { s with channel := rest, received := s.received ++ [u] } with hw
  have hgap : NoGap d w.has [] (forwardReadable w s.received u).trace ∧ (u.doc = d →
      CoveredIn w.has (forwardReadable w s.received u).trace u ∨ d ∈ (forwardReadable w s.received u).pendingResync) := by
    by_cases hud : u.doc = d
    · refine forwardReadable_covers (s := w) (hs.readable hl) (fun v hv hvd => ?_) h.noGap
      rcases h.owed v hv hvd with hcov | hpend | ⟨t, ht, hto, htd, -⟩ | ⟨held, hheld, -⟩ | ⟨hdr, -, -⟩
      · exact .inl hcov
      · exact .inr (.inl (hvd ▸ hpend))
      · exact .inr (.inr (.inl ⟨t, ht, hto, htd.trans hvd⟩))
      · rw [ho.late hl] at hheld
        cases hheld
      · rcases hok hud with hcov | hrest
        · exact .inl (hcov v hdr hvd)
        · exact .inr hrest
    · refine ⟨?_, fun hd => absurd hd hud⟩
      rcases forwardReadable_eq w s.received u with ⟨-, he⟩ | ⟨-, he⟩ | ⟨-, -, -, -, he⟩
      · rw [he]
        exact h.noGap
      · rw [he]
        exact h.noGap
      · rw [he]
        exact h.noGap.append_live fun hd => absurd hd hud
  have hcov : ∀ v, CoveredIn w.has w.trace v → CoveredIn w.has (forwardReadable w s.received u).trace v := fun v hv =>
    forwardReadable_trace hv
  have hpend : ∀ {e : ℕ}, e ∈ w.pendingResync → e ∈ (forwardReadable w s.received u).pendingResync :=
    forwardReadable_pending
  obtain ⟨p, l, tr, he⟩ := forwardReadable_shape w s.received u
  rw [he] at hgap hcov hpend ⊢
  refine ⟨fun v hv => ?_, fun v hv hvd => ?_, hgap.1⟩
  · rcases h.announced v hv with hv | hv | hv | hv
    · exact .inl hv
    · exact .inr (.inl (mem_append_left _ hv))
    · rw [hc] at hv
      rcases mem_cons.1 hv with hv | hv
      · obtain rfl := Msg.update.inj hv
        exact .inr (.inl (mem_append_right _ mem_cons_self))
      · exact .inr (.inr (.inl hv))
    · exact .inr (.inr (.inr hv))
  · rcases mem_snoc.1 hv with hv | hv
    · exact (h.owed v hv hvd).imp (hcov v) fun hw =>
        hw.mono (fun h => .inl (hpend h)) rfl (fun _ h => h) rfl .inl fun _ h => h
    · rw [hv] at hvd ⊢
      exact (hgap.2 hvd).imp_right fun hq => .inl (by rw [hvd]; exact hq)

theorem accounted_hold {rest : List Msg} (h : Accounted d old s) (ho : FanoutOrder s)
    (hc : s.channel = .update u :: rest) (hl : s.acl ≠ .loaded)
    (hok : (∃ held ∈ s.preAclUpdates, held.length < PRE_ACL_UPDATES_MAX) ∨ ¬ Heard d s u ∨ (s.liveOnly = false ∧
      ∀ v ∈ s.received ++ [u], v.doc = d → Backfilled d s v))
    : Accounted d old (holdUpdate { s with channel := rest, received := s.received ++ [u] } u) := by
  obtain ⟨htr, hpe, hta, hbs, hsome, hnone⟩ := ho.early hl
  have hann : ∀ v ∈ s.committed, v ∈ old ∨ v ∈ s.received ++ [u] ∨ .update v ∈ rest ∨ .update v ∈ s.toPublish := by
    intro v hv
    rcases h.announced v hv with hv | hv | hv | hv
    · exact .inl hv
    · exact .inr (.inl (mem_append_left _ hv))
    · rw [hc] at hv
      rcases mem_cons.1 hv with hv | hv
      · obtain rfl := Msg.update.inj hv
        exact .inr (.inl (mem_append_right _ mem_cons_self))
      · exact .inr (.inr (.inl hv))
    · exact .inr (.inr (.inr hv))
  -- an update given up with the buffer is owed by the handshake's backfill, which is still to come
  have hlive : ¬ (∃ held ∈ s.preAclUpdates, held.length < PRE_ACL_UPDATES_MAX) →
      ∀ v ∈ s.received ++ [u], v.doc = d → s.liveOnly = false := by
    intro hfull v hv hvd
    rcases hok with hroom | hno | ⟨hlo, -⟩
    · exact absurd hroom hfull
    · refine absurd ?_ hno
      rcases mem_snoc.1 hv with hv | hv
      · exact .inr ⟨v, hv, hvd⟩
      · exact .inl (hv ▸ hvd)
    · exact hlo
  unfold holdUpdate
  split
  · rename_i held hheld
    obtain ⟨hrec, -⟩ := hsome held hheld
    split_ifs with hroom
    · refine ⟨hann, fun v hv hvd => .inr (.inr (.inr (.inl ⟨_, rfl, ?_⟩))), h.noGap⟩
      simpa only [hrec] using hv
    · refine ⟨hann, fun v hv hvd => .inr (.inr (.inr (.inr ⟨hv, hlive ?_ v hv hvd, .inl hbs⟩))), h.noGap⟩
      rintro ⟨held', hh, hlt⟩
      cases hheld.symm.trans hh
      exact hroom hlt
  · rename_i hheld
    refine ⟨hann, fun v hv hvd => .inr (.inr (.inr (.inr ⟨hv, hlive ?_ v hv hvd, .inl hbs⟩))), h.noGap⟩
    rintro ⟨held', hh, -⟩
    exact absurd (hheld.symm.trans hh) (by simp)

/-- the handshake: what was held back is replayed, what was dropped stays with the backfill to come -/
theorem accounted_load {d : ℕ} {old : List Upd} {s : St} {next : List ℕ} (h : Accounted d old s) (hs : StaysReadable d s)
    (ho : FanoutOrder s) (ha : s.acl = .read next) :
    Accounted d old (replay (openChannel s next) [] (s.preAclUpdates.getD [])) := by
  have hl : s.acl ≠ .loaded := by rw [ha]; simp
  obtain ⟨htr, hpe, hta, hbs, hsome, hnone⟩ := ho.early hl
  obtain ⟨hgap, hcov⟩ := @replay_covers d (s.preAclUpdates.getD []) (openChannel s next) []
    (hs.handshake next ha) (by simp) (h.noGap.append_noLive (noLive_singleton (by simp)))
  obtain ⟨p, l, tr, he⟩ := replay_shape (openChannel s next) [] (s.preAclUpdates.getD [])
  have hstart : ∀ {v : Upd}, CoveredIn s.has s.trace v →
      CoveredIn s.has (replay (openChannel s next) [] (s.preAclUpdates.getD [])).trace v := by
    rintro v (hv | ⟨e, he, -⟩)
    · exact .inl hv
    · rw [htr] at he
      cases he
  rw [he] at hgap hcov hstart ⊢
  refine ⟨h.announced, fun v hv hvd => ?_, hgap⟩
  cases hb : s.preAclUpdates with
  | some held =>
    obtain ⟨hrec, -⟩ := hsome held hb
    refine (hcov v ?_ hvd).imp_right fun hq => .inl (hvd ▸ hq)
    rw [hb]
    exact hrec ▸ hv
  | none =>
    rcases h.owed v hv hvd with hc | hq | ⟨t, ht, -⟩ | ⟨held, hh, -⟩ | hdr
    · exact .inl (hstart hc)
    · rw [hpe] at hq
      cases hq
    · rw [hta] at ht
      cases ht
    · rw [hb] at hh
      cases hh
    · exact .inr (.inr (.inr (.inr hdr)))

theorem accounted_step (h : Accounted d old s) (hs : StaysReadable d s) (ho : FanoutOrder s) (hb : DroppedOk d s)
    (ha : FanoutOk d s a) : Accounted d old (step s a) := by
  have hsame : ∀ u ∈ s.received, u.doc = d → Owed s s.tasks u → ∀ t : St, t.pendingResync = s.pendingResync →
      t.preAclUpdates = s.preAclUpdates → t.dropped = s.dropped → t.liveOnly = s.liveOnly →
      t.backfillStarted = s.backfillStarted → t.tasks = s.tasks → Owed t t.tasks u := fun u _ _ hw t hp hb hd hl hbs ht =>
    hw.of_tasks hp hb hd hl hbs fun o h => ht ▸ h
  -- a message of access control leaves the topic
  have haccess : ∀ {rest : List Msg}, s.channel = .access :: rest →
      ∀ u ∈ s.committed, u ∈ old ∨ u ∈ s.received ∨ .update u ∈ rest ∨ .update u ∈ s.toPublish := by
    intro rest hc u hu
    refine (h.announced u hu).imp_right (Or.imp_right (Or.imp_left fun hm => ?_))
    rw [hc] at hm
    exact (mem_cons.1 hm).resolve_left (by simp)
  refine step_preserves (Accounted d old) h fun t ht => ?_
  cases ht with
  | commit u =>
    refine h.keep [] (fun v hv => ?_) rfl rfl (by simp) noLive_nil fun v hv hd hw =>
      .inr (hsame v hv hd hw _ rfl rfl rfl rfl rfl rfl)
    rcases mem_snoc.1 hv with hv | hv
    · exact (h.announced v hv).imp_right (Or.imp_right (Or.imp_right (mem_append_left _)))
    · rw [hv]
      exact .inr (.inr (.inr (mem_append_right _ mem_cons_self)))
  | setGrants g ds =>
    refine h.keep [] (fun v hv => ?_) rfl rfl (by simp) noLive_nil fun v hv hd hw =>
      .inr (hsame v hv hd hw _ rfl rfl rfl rfl rfl rfl)
    exact (h.announced v hv).imp_right (Or.imp_right (Or.imp_right (mem_append_left _)))
  | @publish i m hm =>
    refine h.keep [] (fun v hv => ?_) rfl rfl (by simp) noLive_nil fun v hv hd hw =>
      .inr (hsame v hv hd hw _ rfl rfl rfl rfl rfl rfl)
    rcases h.announced v hv with hv | hv | hv | hv
    · exact .inl hv
    · exact .inr (.inl hv)
    · exact .inr (.inr (.inl (mem_append_left _ hv)))
    · obtain ⟨j, hj⟩ := mem_iff_getElem?.1 hv
      by_cases hji : j = i
      · subst hji
        cases hm.symm.trans hj
        exact .inr (.inr (.inl (mem_append_right _ mem_cons_self)))
      · exact .inr (.inr (.inr (mem_eraseIdx_iff_getElem?.2 ⟨j, hji, hj⟩)))
  | buffer b | aclRead hacl | aclAgain hacl _ | refreshRead hi | refreshFail hi | refreshStale hi _
  | refreshProbe ok hi | loopExit hl hp | loopFinally hl =>
    exact h.keep [] h.announced rfl rfl (by simp) noLive_nil fun v hv hd hw =>
      .inr (hsame v hv hd hw _ rfl rfl rfl rfl rfl rfl)
  | forward hc hl =>
    simp only [FanoutOk, hc, hl, if_true] at ha
    exact accounted_forward h hs ho hc hl ha
  | hold hc hl =>
    simp only [FanoutOk, hc, hl, if_false] at ha
    exact accounted_hold h ho hc hl ha
  | refreshStart hc hl | markDirty hc hl =>
    exact h.keep [] (haccess hc) rfl rfl (by simp) noLive_nil fun v hv hd hw =>
      .inr (hsame v hv hd hw _ rfl rfl rfl rfl rfl rfl)
  | aclLoad hacl _ => exact accounted_load h hs ho hacl
  | startBackfill hl _ _ =>
    refine h.keep [] h.announced rfl rfl (by simp) noLive_nil fun v hv hd hw => .inr ?_
    refine hw.mono .inl rfl (fun _ hv => hv) rfl (fun _ => .inr ?_) fun o hown => hown.append _
    exact ⟨⟨v.doc, .handshake, .parked⟩, mem_append_right _ (mem_map.2 ⟨v.doc, hd ▸ hs.readable hl, rfl⟩), rfl,
      rfl, trivial⟩
  | @refreshApply i seq next hi _ =>
    obtain ⟨rs, es, ts, sl, sg, hes, -, he⟩ := applyRefresh_shape s i seq next
    rw [he]
    exact h.keep es h.announced rfl rfl rfl hes fun v hv hd hw =>
      .inr (hw.of_tasks rfl rfl rfl rfl rfl fun o hown => hown.append ts)
  | @refreshFinish i seq prev next deletedNow hi =>
    obtain ⟨es, ts, sl, hes, -, he⟩ := announce_shape { s with refreshes := s.refreshes.eraseIdx i } prev next deletedNow
    rw [he]
    exact h.keep es h.announced rfl rfl rfl hes fun v hv hd hw =>
      .inr (hw.of_tasks rfl rfl rfl rfl rfl fun o hown => hown.append ts)
  | @taskAdmit i t hi hp =>
    refine h.keep [] h.announced rfl rfl (by simp) noLive_nil fun v hv hd hw => .inr ?_
    refine hw.of_tasks rfl rfl rfl rfl rfl fun o => owing_setPhase hi fun htd _ => ?_
    -- the document is still readable, so its backfill goes on to read
    rw [if_pos (htd ▸ hd ▸ hs.readable (loaded_of_task ho hi))]
    trivial
  | @taskSilent i t ok hi hp hn =>
    refine h.keep [] h.announced rfl rfl (by simp) noLive_nil fun v hv hd hw => ?_
    have herase : Owed s (s.tasks.eraseIdx i) v → ∀ w : St, w.pendingResync = s.pendingResync →
        w.preAclUpdates = s.preAclUpdates → w.dropped = s.dropped → w.liveOnly = s.liveOnly →
        w.backfillStarted = s.backfillStarted → w.tasks = setPhase s i t .finished → Owed w w.tasks v :=
      fun hw w h1 h2 h3 h4 h5 h6 => hw.of_tasks h1 h2 h3 h4 h5 fun o hown => by
        rw [h6]
        exact owing_of_erase hown _
    cases ok with
    | false =>
      -- the read failed, but nothing was owed by this task alone
      rcases ha v hv hd with hc | hc
      · exact .inl (by simpa using hc)
      · exact .inr (herase hc _ rfl rfl rfl rfl rfl rfl)
    | true =>
      by_cases htd : t.doc = v.doc
      · have hmem : v ∈ committedOf s t.doc := by
          rw [committedOf, mem_filter]
          exact ⟨ho.known v (.inl hv), by simpa using htd.symm⟩
        rcases hn.resolve_left (by simp) with hempty | ⟨horigin, hall⟩
        · rw [hempty] at hmem
          cases hmem
        · -- the client's vectors cover the document: what counted on this backfill, the client has
          rcases hw with hw | hw | hw | ⟨hdr, hlo, hw⟩
          · exact .inr (.inl hw)
          · refine .inr (.inr (.inl (owing_of_erase ((owing_split hi hw).resolve_left ?_) _)))
            rintro ⟨hres, -⟩
            exact absurd (horigin.symm.trans hres) (by simp)
          · exact .inr (.inr (.inr (.inl hw)))
          · rcases hb v hdr hd with hhas | ⟨w, hw, hnot⟩
            · exact .inl (.inl hhas)
            · rw [← hd, ← htd] at hw
              exact absurd (hall w hw) hnot
      · exact .inr (hw.of_tasks rfl rfl rfl rfl rfl fun o => owing_setPhase hi fun h => absurd h htd)
  | @taskRead i t hi hp hn =>
    refine h.keep [] h.announced rfl rfl (by simp) noLive_nil fun v hv hd hw => .inr ?_
    refine hw.of_tasks rfl rfl rfl rfl rfl fun o => owing_setPhase hi fun htd _ => ?_
    simp only [Phase.delivers, committedOf, mem_filter]
    exact ⟨ho.known v (.inl hv), by simpa using htd.symm⟩
  | @taskSend i t covers hi hp =>
    refine h.keep (if t.doc ∈ s.readable then [.state t.doc covers] else []) h.announced rfl rfl
      (by dsimp only; split_ifs <;> simp) ?_ fun v hv hd hw => ?_
    · split_ifs
      · exact noLive_singleton (by simp)
      · exact noLive_nil
    · by_cases hcov : t.doc = v.doc ∧ v ∈ covers
      · have hread : t.doc ∈ s.readable := by
          rw [hcov.1, hd]
          exact hs.readable (loaded_of_task ho hi)
        refine .inl ?_
        rw [if_pos hread]
        exact coveredIn_snoc hcov.2
      · refine .inr (hw.of_tasks rfl rfl rfl rfl rfl fun o => owing_setPhase hi fun htd hdel => ?_)
        rw [hp] at hdel
        exact absurd ⟨htd, hdel⟩ hcov
  | @taskEnd i t hi hp =>
    refine h.keep [] h.announced rfl rfl (by simp) noLive_nil fun v hv hd hw => .inr ?_
    refine hw.of_tasks rfl rfl rfl rfl rfl fun o hown => (owing_split hi hown).resolve_left ?_
    rintro ⟨-, -, hdel⟩
    rw [hp] at hdel
    exact hdel
  | @loopNext e rest hl hr hp =>
    refine h.keep [] h.announced rfl rfl (by simp) noLive_nil fun v hv hd hw => .inr ?_
    refine hw.mono (fun hq => ?_) rfl (fun _ hv => hv) rfl .inl fun o hown => hown.append _
    rw [hp] at hq
    rcases mem_cons.1 hq with hq | hq
    · exact .inr ⟨⟨e, .resync, .parked⟩, mem_append_right _ mem_cons_self, rfl, hq.symm, trivial⟩
    · exact .inl hq

end Baalda.VaultChannel
