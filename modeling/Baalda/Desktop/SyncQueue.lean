/-
The queue of received updates: what holds of its drain.

Frames go to the sink one at a time, in the order they were accepted; a handler that fails, a progress callback that throws,
backpressure and reconnects change nothing about that (`QueueInv`). While a frame is queued the loop is alive, and two of its
steps handle a frame whatever else happens between them (`drain_progress`). A stopped engine handles nothing more.
-/
import Baalda.Desktop.SyncEngine

namespace Baalda.SyncEngine

variable {M : Type*} {cfg : Config} {e : Engine M}

/-! ## A stopped engine stays stopped -/

namespace Channel

@[simp] theorem closeSocket_stopped (c : Channel M) : c.closeSocket.stopped = c.stopped := by
  unfold closeSocket
  cases c.ws <;> rfl

@[simp] theorem scheduleReconnect_stopped (c : Channel M) : c.scheduleReconnect.stopped = c.stopped := by
  unfold scheduleReconnect
  split_ifs <;> rfl

@[simp] theorem onDisconnect_stopped (c : Channel M) : c.onDisconnect.stopped = c.stopped := by
  unfold onDisconnect
  split_ifs <;> simp

@[simp] theorem openSocket_stopped (factory : Bool) (c : Channel M) : (c.openSocket factory).stopped = c.stopped := by
  unfold openSocket
  split_ifs <;> simp

@[simp] theorem connect_stopped (factory : Bool) (c : Channel M) : (c.connect cfg factory).stopped = c.stopped := by
  unfold connect
  dsimp only
  split_ifs <;> simp

@[simp] theorem requestVaultKey_stopped (c : Channel M) : (c.requestVaultKey cfg).stopped = c.stopped := by
  unfold requestVaultKey
  split_ifs <;> rfl

@[simp] theorem refresh_stopped (c : Channel M) : c.refresh.stopped = c.stopped := by
  unfold refresh
  split_ifs <;> simp

@[simp] theorem reconnect_stopped (liveOnly : Option Bool) (c : Channel M) : (c.reconnect liveOnly).stopped = c.stopped :=
  refresh_stopped _

@[simp] theorem start_stopped (factory : Bool) (c : Channel M) : (c.start cfg factory).stopped = c.stopped := by
  unfold start
  split_ifs <;> simp

@[simp] theorem sinkLoads_stopped (gen : ℕ) (factory : Bool) (c : Channel M) :
    (c.sinkLoads gen factory).stopped = c.stopped := by
  unfold sinkLoads
  dsimp only
  split_ifs <;> simp

@[simp] theorem timerFires_stopped (factory : Bool) (c : Channel M) : (c.timerFires cfg factory).stopped = c.stopped := by
  unfold timerFires
  dsimp only
  split_ifs
  · rfl
  · cases c.keyWait <;> simp
  · rfl

@[simp] theorem keyAnswers_stopped (waiting : ℕ) (ok factory : Bool) (c : Channel M) :
    (c.keyAnswers cfg waiting ok factory).stopped = c.stopped := by
  unfold keyAnswers
  dsimp only
  split_ifs <;> simp

@[simp] theorem opens_stopped (i : ℕ) (c : Channel M) : (c.opens i).stopped = c.stopped := by
  unfold opens
  cases c.sockets[i]? with
  | none => rfl
  | some s =>
    dsimp only
    split_ifs
    · cases c.tokenPromise <;> rfl
    · rfl
    · rfl

@[simp] theorem serverErr_stopped (i : ℕ) (keyRequired : Bool) (c : Channel M) :
    (c.serverErr cfg i keyRequired).stopped = c.stopped := by
  unfold serverErr
  split_ifs <;> simp

@[simp] theorem errors_stopped (i : ℕ) (c : Channel M) : (c.errors i).stopped = c.stopped := by
  unfold errors
  split_ifs
  · simp [markClosed]
  · rfl

@[simp] theorem tokenArrives_stopped (i : ℕ) (c : Channel M) : (c.tokenArrives i).stopped = c.stopped := by
  unfold tokenArrives
  cases c.opening? i false <;> rfl

@[simp] theorem manifestBuilt_stopped (i : ℕ) (manifest : M) (c : Channel M) :
    (c.manifestBuilt i manifest).stopped = c.stopped := by
  unfold manifestBuilt
  cases c.opening? i true with
  | none => rfl
  | some o =>
    cases c.ws <;> rfl

/-- the two refusals that stop the engine by themselves -/
theorem closes_stopped (i : ℕ) (code : CloseCode) {c : Channel M} (h : c.stopped = true) : (c.closes cfg i code).stopped = true := by
  unfold closes
  split_ifs
  · cases code <;> simp [markClosed, h]
  · exact h

theorem tokenFails_stopped (i : ℕ) (forbidden : Bool) {c : Channel M} (h : c.stopped = true) :
    (c.tokenFails i forbidden).stopped = true := by
  unfold tokenFails
  cases c.opening? i false with
  | none => exact h
  | some o => cases forbidden <;> simp [h]

end Channel

/-! ## First in, first out -/

structure QueueInv (e : Engine M) : Prop where
  order : e.chan.stopped = false → e.inbound.accepted = e.inbound.handled ++ e.inbound.queue
  handled : e.inbound.handled <+: e.inbound.accepted
  alive : e.chan.stopped = false → e.inbound.queue ≠ [] → e.inbound.drain ≠ .idle
  idle : ∀ signal ∈ e.inbound.idleSignals, signal = ([], .idle)

theorem queueInv_init (manifest : M) (liveOnly : Bool) : QueueInv (init manifest liveOnly) := by
  constructor <;> simp [init]

/-- what leaves the queue alone -/
theorem QueueInv.onChan (h : QueueInv e) {c : Channel M} (hstop : e.chan.stopped = true → c.stopped = true) :
    QueueInv (⟨c, e.inbound⟩ : Engine M) := by
  have hrun : c.stopped = false → e.chan.stopped = false := by
    intro hc
    cases he : e.chan.stopped with
    | false => rfl
    | true => exact absurd (hstop he) (by simp [hc])
  exact ⟨fun hc => h.order (hrun hc), h.handled, fun hc => h.alive (hrun hc), h.idle⟩

theorem QueueInv.drainEnd (h : QueueInv e) : QueueInv (drainEnd e) := by
  have hended : QueueInv ({ e with inbound := { e.inbound with drain := .ended } } : Engine M) :=
    ⟨h.order, h.handled, fun _ _ => by simp, h.idle⟩
  unfold SyncEngine.drainEnd
  split_ifs with hpaused
  · exact ⟨fun _ => h.order (by simpa using hpaused.2), h.handled, fun _ _ => by simp, h.idle⟩
  · exact hended

section

variable (horder : e.chan.stopped = false → e.inbound.accepted = e.inbound.handled ++ e.inbound.queue) (hhandled :
    e.inbound.handled <+: e.inbound.accepted) (hidle : ∀ signal ∈ e.inbound.idleSignals, signal = ([], .idle))

include horder hhandled hidle

/-- the next frame is the oldest one accepted and not handled -/
theorem queueInv_drainNext : QueueInv (drainNext e) := by
  have hend : e.chan.stopped = true ∨ e.inbound.queue = [] → QueueInv (drainEnd e) := by
    intro hover
    refine (show QueueInv e from ⟨horder, hhandled, fun hrun hne => ?_, hidle⟩).drainEnd
    rcases hover with hstop | hempty
    · simp [hstop] at hrun
    · exact absurd hempty hne
  unfold drainNext
  dsimp only
  cases hqueue : e.inbound.queue with
  | nil => exact hend (.inr hqueue)
  | cons frame rest =>
    split_ifs with hstop
    · exact hend (.inl hstop)
    · have hall : e.inbound.accepted = (e.inbound.handled ++ [frame]) ++ rest := by
        rw [horder (by simpa using hstop), hqueue]
        simp
      exact ⟨fun _ => hall, ⟨rest, hall.symm⟩, fun _ _ => by simp, hidle⟩

theorem queueInv_kickDrain : QueueInv (kickDrain e) := by
  unfold kickDrain
  split_ifs with hdrain
  · exact queueInv_drainNext horder hhandled hidle
  · exact ⟨horder, hhandled, fun _ _ => hdrain, hidle⟩

end

theorem QueueInv.enqueueInbound (h : QueueInv e) (docId : ℕ) (update : List UInt8) :
    QueueInv (enqueueInbound cfg docId update e) := by
  unfold SyncEngine.enqueueInbound
  by_cases hstop : e.chan.stopped = true
  · rw [if_pos hstop]
    exact h
  have horder : (push docId update e).inbound.accepted =
      (push docId update e).inbound.handled ++ (push docId update e).inbound.queue := by
    simp [push, h.order (by simpa using hstop)]
  have hhandled : (push docId update e).inbound.handled <+: (push docId update e).inbound.accepted :=
    ⟨_, horder.symm⟩
  dsimp only
  split_ifs
  · exact queueInv_kickDrain (fun _ => horder) hhandled h.idle
  · exact queueInv_kickDrain (fun _ => horder) hhandled h.idle

theorem QueueInv.stop (h : QueueInv e) : QueueInv (stop e) :=
  ⟨fun hrun => by simp [SyncEngine.stop, Channel.stop] at hrun, h.handled, fun _ hne => absurd rfl hne, h.idle⟩

/-- the signal is given with nothing queued and no handler running -/
theorem QueueInv.maybeSignalIdle (h : QueueInv e) : QueueInv (maybeSignalIdle e) := by
  unfold SyncEngine.maybeSignalIdle
  dsimp only
  split_ifs with hbusy
  · exact h
  · simp only [not_or, not_not] at hbusy
    obtain ⟨-, -, hqueue, hdrain⟩ := hbusy
    refine ⟨h.order, h.handled, h.alive, fun signal hsignal => ?_⟩
    rcases List.mem_append.1 hsignal with hold | hnew
    · exact h.idle signal hold
    · rw [List.mem_singleton.1 hnew, hqueue, hdrain]

theorem QueueInv.handlerSettles (h : QueueInv e) (outcome : Outcome) (progressThrows : Bool) :
    QueueInv (handlerSettles outcome progressThrows e) := by
  unfold SyncEngine.handlerSettles
  cases e.inbound.drain with
  | idle | ended => exact h
  | handling frame =>
    dsimp only
    split_ifs
    · exact ⟨h.stop.order, h.stop.handled, fun _ _ => by simp, h.idle⟩
    · exact ⟨h.order, h.handled, fun _ _ => by simp, h.idle⟩
    · exact queueInv_drainNext h.order h.handled h.idle
    · exact queueInv_drainNext h.order h.handled h.idle

theorem QueueInv.drainSettles (h : QueueInv e) : QueueInv (drainSettles e) := by
  unfold SyncEngine.drainSettles
  dsimp only
  split_ifs with hended hmore
  · exact queueInv_kickDrain h.order h.handled h.idle
  · refine QueueInv.maybeSignalIdle ⟨h.order, h.handled, fun hrun hne => ?_, h.idle⟩
    exact absurd ⟨by simpa using hrun, hne⟩ hmore
  · exact h

theorem QueueInv.onReady (h : QueueInv e) (i : ℕ) : QueueInv (onReady i e) := by
  unfold SyncEngine.onReady
  split_ifs
  · exact QueueInv.maybeSignalIdle ⟨h.order, h.handled, h.alive, h.idle⟩
  · exact h

/-- a step of the drain itself: its handler settles, or its `finally` runs -/
def drainStep (e : Engine M) : Action M → Bool
  | .handlerSettles _ _ => match e.inbound.drain with | .handling _ => true | _ => false
  | .drainSettles => e.inbound.drain = .ended
  | _ => false

/-- a step works on the channel alone, or it is one of the five that touch the queue -/
theorem step_cases (cfg : Config) (e : Engine M) (a : Action M) :
    (∃ f : Channel M → Channel M, step cfg e a = onChan f e ∧ (e.chan.stopped = true → (f e.chan).stopped = true) ∧
      drainStep e a = false) ∨
      a = .stop ∨ (∃ i, a = .ready i) ∨ (∃ i docId update, a = .frame i docId update) ∨
      (∃ outcome progressThrows, a = .handlerSettles outcome progressThrows) ∨ a = .drainSettles := by
  cases a with
  | stop => exact .inr (.inl rfl)
  | ready i => exact .inr (.inr (.inl ⟨i, rfl⟩))
  | frame i docId update => exact .inr (.inr (.inr (.inl ⟨i, docId, update, rfl⟩)))
  | handlerSettles outcome throws => exact .inr (.inr (.inr (.inr (.inl ⟨outcome, throws, rfl⟩))))
  | drainSettles => exact .inr (.inr (.inr (.inr (.inr rfl))))
  | closes i code => exact .inl ⟨_, rfl, Channel.closes_stopped i code, rfl⟩
  | tokenFails i forbidden => exact .inl ⟨_, rfl, Channel.tokenFails_stopped i forbidden, rfl⟩
  | _ => exact .inl ⟨_, rfl, by simp, rfl⟩

/-- **One step** keeps the queue in order. -/
theorem QueueInv.step (h : QueueInv e) (a : Action M) : QueueInv (step cfg e a) := by
  rcases step_cases cfg e a with ⟨f, hstep, hstop, -⟩ | rfl | ⟨i, rfl⟩ | ⟨i, docId, update, rfl⟩ | ⟨outcome, throws, rfl⟩ | rfl
  · rw [hstep]
    exact h.onChan hstop
  · exact h.stop
  · exact h.onReady i
  · unfold SyncEngine.step
    dsimp only
    split_ifs
    · exact h.enqueueInbound docId update
    · exact h
  · exact h.handlerSettles outcome throws
  · exact h.drainSettles

theorem QueueInv.run (h : QueueInv e) (as : List (Action M)) : QueueInv (run cfg e as) :=
  Machine.run_inv_all QueueInv (fun _ a hs => hs.step a) h

/-! ## A stopped engine handles nothing more -/

@[simp] theorem drainEnd_handled (e : Engine M) : (drainEnd e).inbound.handled = e.inbound.handled := by
  unfold drainEnd
  split_ifs <;> rfl

@[simp] theorem drainEnd_stopped (e : Engine M) : (drainEnd e).chan.stopped = e.chan.stopped := by
  unfold drainEnd
  split_ifs <;> simp

theorem drainNext_stopped (hstop : e.chan.stopped = true) : drainNext e = drainEnd e := by
  unfold drainNext
  dsimp only
  cases e.inbound.queue with
  | nil => rfl
  | cons frame rest => exact if_pos hstop

@[simp] theorem maybeSignalIdle_handled (e : Engine M) : (maybeSignalIdle e).inbound.handled = e.inbound.handled := by
  unfold maybeSignalIdle
  dsimp only
  split_ifs <;> rfl

@[simp] theorem maybeSignalIdle_drain (e : Engine M) : (maybeSignalIdle e).inbound.drain = e.inbound.drain := by
  unfold maybeSignalIdle
  dsimp only
  split_ifs <;> rfl

@[simp] theorem maybeSignalIdle_stopped (e : Engine M) : (maybeSignalIdle e).chan.stopped = e.chan.stopped := by
  unfold maybeSignalIdle
  dsimp only
  split_ifs <;> rfl

theorem step_stopped (cfg : Config) (a : Action M) (hstop : e.chan.stopped = true) :
    (step cfg e a).chan.stopped = true ∧ (step cfg e a).inbound.handled = e.inbound.handled := by
  rcases step_cases cfg e a with ⟨f, hstep, hkeep, -⟩ | rfl | ⟨i, rfl⟩ | ⟨i, docId, update, rfl⟩ | ⟨outcome, throws, rfl⟩ | rfl
  · rw [hstep]
    exact ⟨hkeep hstop, rfl⟩
  · exact ⟨by simp [step, stop, Channel.stop], rfl⟩
  · unfold step onReady
    dsimp only
    split_ifs
    · simp [hstop]
    · exact ⟨hstop, rfl⟩
  · unfold step enqueueInbound
    dsimp only
    split_ifs <;> exact ⟨hstop, rfl⟩
  · unfold step handlerSettles
    cases e.inbound.drain with
    | idle | ended => exact ⟨hstop, rfl⟩
    | handling frame =>
      dsimp only
      split_ifs
      · exact ⟨by simp [stop, Channel.stop], rfl⟩
      · exact ⟨hstop, rfl⟩
      · rw [drainNext_stopped (by exact hstop)]
        simp [hstop]
      · rw [drainNext_stopped hstop]
        simp [hstop]
  · unfold step drainSettles
    dsimp only
    split_ifs with hended hmore
    · exact absurd hstop hmore.1
    · simp [hstop]
    · exact ⟨hstop, rfl⟩

theorem run_stopped (cfg : Config) (as : List (Action M)) (hstop : e.chan.stopped = true) :
    (run cfg e as).chan.stopped = true ∧ (run cfg e as).inbound.handled = e.inbound.handled := by
  refine Machine.run_inv_all (fun s : Engine M => s.chan.stopped = true ∧ s.inbound.handled = e.inbound.handled) ?_
    ⟨hstop, rfl⟩
  rintro s a ⟨hs, hhandled⟩
  obtain ⟨hs', hhandled'⟩ := step_stopped cfg a hs
  exact ⟨hs', hhandled'.trans hhandled⟩

/-! ## The loop gets to every frame -/

/-- how many steps of the drain a run has -/
def drainSteps (cfg : Config) : Engine M → List (Action M) → ℕ
  | _, [] => 0
  | e, a :: as => (drainStep e a).toNat + drainSteps cfg (step cfg e a) as

def Drain.phase : Drain → ℕ
  | .idle => 0
  | .ended => 1
  | .handling _ => 2

/-- what is left to do until `n` frames are handled -/
def toGo (n : ℕ) (e : Engine M) : ℕ := 2 * (n - e.inbound.handled.length) + e.inbound.drain.phase

theorem toGo_drainNext {n : ℕ} (hrun : e.chan.stopped = false) (hne : e.inbound.queue ≠ [])
    (hlt : e.inbound.handled.length < n) : toGo n (drainNext e) = 2 * (n - e.inbound.handled.length) := by
  unfold drainNext
  dsimp only
  cases hqueue : e.inbound.queue with
  | nil => exact absurd hqueue hne
  | cons frame rest =>
    dsimp only
    rw [if_neg (by simp [hrun])]
    simp only [toGo, Drain.phase, List.length_append, List.length_singleton]
    omega

/-- while a frame waits, a step of the drain brings its turn nearer and no other step puts it off -/
theorem step_toGo {n : ℕ} (h : QueueInv e) (a : Action M) (hrun : e.chan.stopped = false)
    (hrun' : (step cfg e a).chan.stopped = false) (hlt : e.inbound.handled.length < n)
    (hn : n ≤ e.inbound.accepted.length) : toGo n (step cfg e a) + (drainStep e a).toNat ≤ toGo n e := by
  have hqueue : e.inbound.queue ≠ [] := by
    intro hempty
    have hall := congrArg List.length (h.order hrun)
    rw [hempty, List.append_nil] at hall
    omega
  have hdrain := h.alive hrun hqueue
  have hkick : ∀ e' : Engine M, e'.inbound.drain = e.inbound.drain → kickDrain e' = e' := by
    intro e' heq
    exact if_neg (by rw [heq]; exact hdrain)
  rcases step_cases cfg e a with ⟨f, hstep, -, hdrainStep⟩ | rfl | ⟨i, rfl⟩ | ⟨i, docId, update, rfl⟩ |
    ⟨outcome, throws, rfl⟩ | rfl
  · rw [hstep, hdrainStep]
    exact le_refl _
  · simp [step, stop, Channel.stop] at hrun'
  · unfold step onReady
    dsimp only
    split_ifs
    · simp [toGo, drainStep]
    · exact le_refl _
  · unfold step
    dsimp only
    split_ifs
    · unfold enqueueInbound
      rw [if_neg (by simp [hrun])]
      dsimp only
      split_ifs
      · rw [hkick (applyBackpressure (push docId update e)) rfl]
        exact le_refl _
      · rw [hkick (push docId update e) rfl]
        exact le_refl _
    · exact le_refl _
  · unfold step handlerSettles drainStep
    unfold step handlerSettles at hrun'
    cases hphase : e.inbound.drain with
    | idle => exact absurd hphase hdrain
    | ended => simp [toGo, hphase]
    | handling frame =>
      rw [hphase] at hrun'
      dsimp only at hrun' ⊢
      have hbefore : toGo n e = 2 * (n - e.inbound.handled.length) + 2 := by rw [toGo, hphase]; rfl
      rw [hbefore]
      split_ifs at hrun' ⊢ with hmismatch hcounted hthrows
      · simp [stop, Channel.stop] at hrun'
      · simp [toGo, Drain.phase]
      · have hnext := toGo_drainNext (e := { e with inbound := { e.inbound with done := e.inbound.done + 1 } }) hrun hqueue hlt
        rw [hnext]
        simp
      · rw [toGo_drainNext hrun hqueue hlt]
        simp
  · unfold step drainSettles drainStep
    dsimp only
    split_ifs with hended hmore
    · have hkicked : kickDrain ({ e with inbound := { e.inbound with drain := .idle } } : Engine M) =
          drainNext { e with inbound := { e.inbound with drain := .idle } } := if_pos rfl
      have hnext := toGo_drainNext (e := { e with inbound := { e.inbound with drain := .idle } }) hrun hqueue hlt
      rw [hkicked, hnext, toGo, hended]
      simp [Drain.phase]
    · exact absurd ⟨by simp [hrun], hqueue⟩ hmore
    · simp [hended]

/-- frames are only ever added at the end -/
structure Grows (e e' : Engine M) : Prop where
  accepted : e.inbound.accepted <+: e'.inbound.accepted
  handled : e.inbound.handled <+: e'.inbound.handled

theorem Grows.refl (e : Engine M) : Grows e e := ⟨List.prefix_rfl, List.prefix_rfl⟩

theorem Grows.trans {e e' e'' : Engine M} (h : Grows e e') (h' : Grows e' e'') : Grows e e'' :=
  ⟨h.accepted.trans h'.accepted, h.handled.trans h'.handled⟩

theorem grows_of_eq {e e' : Engine M} (haccepted : e'.inbound.accepted = e.inbound.accepted)
    (hhandled : e'.inbound.handled = e.inbound.handled) : Grows e e' :=
  ⟨by rw [haccepted], by rw [hhandled]⟩

theorem grows_drainEnd (e : Engine M) : Grows e (drainEnd e) := by
  unfold drainEnd
  split_ifs <;> exact grows_of_eq rfl rfl

theorem grows_drainNext (e : Engine M) : Grows e (drainNext e) := by
  unfold drainNext
  dsimp only
  cases e.inbound.queue with
  | nil => exact grows_drainEnd e
  | cons frame rest =>
    split_ifs
    · exact grows_drainEnd e
    · exact ⟨List.prefix_rfl, List.prefix_append _ _⟩

theorem grows_kickDrain (e : Engine M) : Grows e (kickDrain e) := by
  unfold kickDrain
  split_ifs
  · exact grows_drainNext e
  · exact Grows.refl e

theorem grows_maybeSignalIdle (e : Engine M) : Grows e (maybeSignalIdle e) := by
  unfold maybeSignalIdle
  dsimp only
  split_ifs <;> exact grows_of_eq rfl rfl

theorem grows_step (cfg : Config) (e : Engine M) (a : Action M) : Grows e (step cfg e a) := by
  rcases step_cases cfg e a with ⟨f, hstep, -⟩ | rfl | ⟨i, rfl⟩ | ⟨i, docId, update, rfl⟩ | ⟨outcome, throws, rfl⟩ | rfl
  · rw [hstep]
    exact grows_of_eq rfl rfl
  · exact grows_of_eq rfl rfl
  · unfold step onReady
    dsimp only
    split_ifs
    · exact (grows_of_eq rfl rfl : Grows e { e with chan := { e.chan with backfilling := false } }).trans
        (grows_maybeSignalIdle _)
    · exact Grows.refl e
  · have hpush : Grows e (push docId update e) := ⟨List.prefix_append _ _, List.prefix_rfl⟩
    unfold step enqueueInbound
    dsimp only
    split_ifs
    · exact Grows.refl e
    · have hpaused : Grows (push docId update e) (applyBackpressure (push docId update e)) := grows_of_eq rfl rfl
      exact hpush.trans (hpaused.trans (grows_kickDrain _))
    · exact hpush.trans (grows_kickDrain _)
    · exact Grows.refl e
  · unfold step handlerSettles
    cases e.inbound.drain with
    | idle | ended => exact Grows.refl e
    | handling frame =>
      dsimp only
      split_ifs
      · exact grows_of_eq rfl rfl
      · exact grows_of_eq rfl rfl
      · exact (grows_of_eq rfl rfl : Grows e { e with inbound := { e.inbound with done := e.inbound.done + 1 } }).trans
          (grows_drainNext _)
      · exact grows_drainNext e
  · have hidle : Grows e { e with inbound := { e.inbound with drain := .idle } } := grows_of_eq rfl rfl
    unfold step drainSettles
    dsimp only
    split_ifs
    · exact hidle.trans (grows_kickDrain _)
    · exact hidle.trans (grows_maybeSignalIdle _)
    · exact Grows.refl e

theorem grows_run (cfg : Config) (e : Engine M) (as : List (Action M)) : Grows e (run cfg e as) :=
  Machine.run_inv_all (fun s => Grows e s) (fun s a h => h.trans (grows_step cfg s a)) (Grows.refl e)

theorem run_toGo {n : ℕ} (as : List (Action M)) (h : QueueInv e) (hrun : (run cfg e as).chan.stopped = false)
    (hn : n ≤ e.inbound.accepted.length) :
    n ≤ (run cfg e as).inbound.handled.length ∨ toGo n (run cfg e as) + drainSteps cfg e as ≤ toGo n e := by
  induction as generalizing e with
  | nil => exact .inr (le_refl _)
  | cons a as ih =>
    have hnow : ∀ s : Engine M, (run cfg s as).chan.stopped = false → s.chan.stopped = false := by
      intro s hs
      by_contra hstop
      exact absurd (run_stopped cfg as (by simpa using hstop)).1 (by simp [hs])
    have hrun1 : (step cfg e a).chan.stopped = false := hnow _ hrun
    have hrun0 : e.chan.stopped = false := by
      by_contra hstop
      exact absurd (step_stopped cfg a (by simpa using hstop)).1 (by simp [hrun1])
    rcases Nat.lt_or_ge e.inbound.handled.length n with hlt | hge
    · have hstep := step_toGo h a hrun0 hrun1 hlt hn
      have haccepted := (grows_step cfg e a).accepted.length_le
      rcases ih (h.step a) hrun (hn.trans haccepted) with hdone | hrest
      · exact .inl hdone
      · refine .inr ?_
        exact (by omega : toGo n (run cfg (step cfg e a) as) + ((drainStep e a).toNat + drainSteps cfg (step cfg e a) as) ≤
          toGo n e)
    · exact .inl (hge.trans (grows_run cfg e (a :: as)).handled.length_le)

/-- **Progress.** Twice as many steps of the drain as frames are queued, and two more, handle them all, whatever happens
between these steps, unless the engine stops. -/
theorem drain_progress (h : QueueInv e) (as : List (Action M)) (hrun : (run cfg e as).chan.stopped = false)
    (hsteps : 2 * e.inbound.queue.length + 2 ≤ drainSteps cfg e as) :
    e.inbound.accepted <+: (run cfg e as).inbound.handled := by
  have hrun0 : e.chan.stopped = false := by
    by_contra hstop
    exact absurd (run_stopped cfg as (by simpa using hstop)).1 (by simp [hrun])
  have hgrows := grows_run cfg e as
  have hlen := congrArg List.length (h.order hrun0)
  rw [List.length_append] at hlen
  have hphase : e.inbound.drain.phase ≤ 2 := by cases e.inbound.drain <;> simp [Drain.phase]
  have hall : e.inbound.accepted.length ≤ (run cfg e as).inbound.handled.length := by
    rcases run_toGo as h hrun (le_refl _) with hdone | hrest
    · exact hdone
    · have hleft : toGo e.inbound.accepted.length (run cfg e as) = 0 := by
        simp only [toGo] at hrest ⊢
        omega
      simp only [toGo] at hleft
      omega
  exact List.prefix_of_prefix_length_le hgrows.accepted (h.run as).handled hall

/-! ## The queue -/

/-- **The queue of received updates.** In every state a run reaches: while the engine has not stopped, what was accepted is
what was handled, in that order, and then what is queued; once it has, what was handled is still the oldest part of it. With
twice as many steps of the drain as frames are queued, and two more, all of them are handled, whichever handlers fail and
whatever happens in between, unless the engine stops. The idle signal is only given with nothing queued and nothing handled. -/
theorem inbound_fifo (cfg : Config) (manifest : M) (liveOnly : Bool) (as : List (Action M)) :
    ((run cfg (init manifest liveOnly) as).chan.stopped = false →
      (run cfg (init manifest liveOnly) as).inbound.accepted =
        (run cfg (init manifest liveOnly) as).inbound.handled ++ (run cfg (init manifest liveOnly) as).inbound.queue) ∧
    ((run cfg (init manifest liveOnly) as).inbound.handled <+: (run cfg (init manifest liveOnly) as).inbound.accepted) ∧
    (∀ as', (run cfg (run cfg (init manifest liveOnly) as) as').chan.stopped = false →
      2 * (run cfg (init manifest liveOnly) as).inbound.queue.length + 2 ≤
        drainSteps cfg (run cfg (init manifest liveOnly) as) as' →
      (run cfg (init manifest liveOnly) as).inbound.accepted <+:
        (run cfg (run cfg (init manifest liveOnly) as) as').inbound.handled) ∧
    (∀ signal ∈ (run cfg (init manifest liveOnly) as).inbound.idleSignals, signal = ([], .idle)) := by
  have h : QueueInv (run cfg (init manifest liveOnly) as) := (queueInv_init manifest liveOnly).run as
  exact ⟨h.order, h.handled, fun as' hrun hsteps => drain_progress h as' hrun hsteps, h.idle⟩

/-- two frames, and a close with the code of a refused token while the first one is in its handler -/
def refusedRun : List (Action ℕ) :=
  [.start true, .opens 0, .tokenArrives 0, .manifestBuilt 0 4, .frame 0 1 [1], .frame 0 2 [2], .closes 0 .unauthorized,
    .handlerSettles .applied false, .drainSettles]

/-- the refusal stops the engine, without `stop`: the second frame, accepted, is never handled -/
theorem refused_frame_unhandled :
    (run ⟨100, false, false⟩ (init 0 false) refusedRun).inbound.accepted = [⟨1, [1], true⟩, ⟨2, [2], true⟩] ∧
    ∀ as, (run ⟨100, false, false⟩ (run ⟨100, false, false⟩ (init 0 false) refusedRun) as).inbound.handled =
      [⟨1, [1], true⟩] := by
  have hstopped : (run ⟨100, false, false⟩ (init 0 false) refusedRun).chan.stopped = true := by decide
  have hhandled : (run ⟨100, false, false⟩ (init 0 false) refusedRun).inbound.handled = [⟨1, [1], true⟩] := by decide
  exact ⟨by decide, fun as => (run_stopped _ as hstopped).2.trans hhandled⟩

end Baalda.SyncEngine
