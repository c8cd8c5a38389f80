/-
One socket, one hello: what holds of the vault channel's sockets.

The engine means to hold one socket, and to send each socket one `hello`: after its own open, with the token minted for it.
Two things break this. The reconnect timer connects without looking at the current socket (`start` during backoff, or the
resume after backpressure when a refresh was faster, leave one); and `onOpen` sends to whatever socket is current when its
awaits end. `Ok` excludes both; `one_socket_one_hello` is what the other steps keep.
-/
import Baalda.Desktop.SyncEngine
import Baalda.Lib.Slots

namespace Baalda.SyncEngine

open List

variable {M : Type*} {cfg : Config}

theorem getElem?_modify_some {α : Type*} {l : List α} {f : α → α} {i j : ℕ} {x : α} (h : (l.modify i f)[j]? = some x) :
    ∃ y, l[j]? = some y ∧ x = if i = j then f y else y := by
  rw [getElem?_modify, Option.map_eq_map, Option.map_eq_some_iff] at h
  obtain ⟨y, hy, rfl⟩ := h
  exact ⟨y, hy, rfl⟩

/-! ## The invariant -/

namespace Channel

structure Inv (c : Channel M) : Prop where
  current : ∀ i ∈ c.ws, ∃ s, c.sockets[i]? = some s ∧ s.phase ≠ .closed ∧ s.attached = true ∧ c.tokenPromise = some s.token
  others : ∀ (i : ℕ) (s : Socket M), c.sockets[i]? = some s → c.ws ≠ some i → s.phase = .closed ∧ s.attached = false
  stopped : c.stopped = true → c.ws = none
  unopened : ∀ (i : ℕ) (s : Socket M), c.sockets[i]? = some s → s.phase = .connecting → s.hasOpened = false
  opened : ∀ (i : ℕ) (s : Socket M), c.sockets[i]? = some s → s.phase = .opened → s.hasOpened = true
  openings : ∀ o ∈ c.openings, ∃ s, c.sockets[o.socket]? = some s ∧ s.hasOpened = true ∧ s.token = o.token ∧ s.hellos = []
  once : (c.openings.map (·.socket)).Nodup
  hellos : ∀ (i : ℕ) (s : Socket M), c.sockets[i]? = some s → s.hellos.length ≤ 1 ∧
    ∀ h ∈ s.hellos, h.afterOpen = true ∧ h.token = s.token ∧ s.hasOpened = true
  sent : ∀ i s, c.ws = some i → c.sockets[i]? = some s → ∀ h ∈ s.hellos, h.manifest = c.sentManifest

variable {c : Channel M}

/-- the invariant reads these fields only -/
theorem Inv.congr {c' : Channel M} (h : Inv c) (hws : c'.ws = c.ws) (hsockets : c'.sockets = c.sockets)
    (htoken : c'.tokenPromise = c.tokenPromise) (hopenings : c'.openings = c.openings)
    (hsent : c'.sentManifest = c.sentManifest) (hstopped : c'.stopped = true → c.ws = none) : Inv c' := by
  constructor
  · rw [hws, hsockets, htoken]; exact h.current
  · rw [hws, hsockets]; exact h.others
  · rw [hws]; exact hstopped
  · rw [hsockets]; exact h.unopened
  · rw [hsockets]; exact h.opened
  · rw [hopenings, hsockets]; exact h.openings
  · rw [hopenings]; exact h.once
  · rw [hsockets]; exact h.hellos
  · rw [hws, hsockets, hsent]; exact h.sent

/-- what closing leaves of a socket -/
theorem closeSocket_socket (h : Inv c) {j : ℕ} {s : Socket M} (hs : c.closeSocket.sockets[j]? = some s) :
    ∃ y, c.sockets[j]? = some y ∧ s = { y with attached := false, phase := .closed } := by
  unfold closeSocket at hs
  cases hws : c.ws with
  | none =>
    rw [hws] at hs
    obtain ⟨hphase, hattached⟩ := h.others j s hs (by simp [hws])
    refine ⟨s, hs, ?_⟩
    rw [← hphase, ← hattached]
  | some i =>
    rw [hws] at hs
    obtain ⟨y, hy, hif⟩ := getElem?_modify_some hs
    refine ⟨y, hy, hif.trans ?_⟩
    by_cases hij : i = j
    · rw [if_pos hij]
    · obtain ⟨hphase, hattached⟩ := h.others j y hy (by simp [hws, hij])
      rw [if_neg hij, ← hphase, ← hattached]

theorem closeSocket_lookup (j : ℕ) {y : Socket M} (hy : c.sockets[j]? = some y) :
    ∃ s, c.closeSocket.sockets[j]? = some s ∧ s.hasOpened = y.hasOpened ∧ s.token = y.token ∧ s.hellos = y.hellos := by
  unfold closeSocket
  cases c.ws with
  | none => exact ⟨y, hy, rfl, rfl, rfl⟩
  | some i =>
    refine ⟨if i = j then { y with attached := false, phase := .closed } else y, ?_, ?_⟩
    · simp only [getElem?_modify, hy]
      rfl
    · split_ifs <;> exact ⟨rfl, rfl, rfl⟩

@[simp] theorem closeSocket_ws (c : Channel M) : c.closeSocket.ws = none := by
  unfold closeSocket
  cases c.ws <;> rfl

@[simp] theorem closeSocket_openings (c : Channel M) : c.closeSocket.openings = c.openings := by
  unfold closeSocket
  cases c.ws <;> rfl

theorem Inv.closeSocket (h : Inv c) : Inv c.closeSocket := by
  constructor
  · simp
  · intro j s hs _
    obtain ⟨y, -, rfl⟩ := closeSocket_socket h hs
    exact ⟨rfl, rfl⟩
  · simp
  · intro j s hs hphase
    obtain ⟨y, -, rfl⟩ := closeSocket_socket h hs
    cases hphase
  · intro j s hs hphase
    obtain ⟨y, -, rfl⟩ := closeSocket_socket h hs
    cases hphase
  · intro o ho
    rw [closeSocket_openings] at ho
    obtain ⟨y, hy, hopened, htoken, hhellos⟩ := h.openings o ho
    obtain ⟨s, hs, hso, hst, hsh⟩ := closeSocket_lookup o.socket hy
    exact ⟨s, hs, hso.trans hopened, hst.trans htoken, hsh.trans hhellos⟩
  · rw [closeSocket_openings]
    exact h.once
  · intro j s hs
    obtain ⟨y, hy, rfl⟩ := closeSocket_socket h hs
    exact h.hellos j y hy
  · simp

theorem scheduleReconnect_eq (c : Channel M) : ∃ timer, c.scheduleReconnect = { c with reconnectTimer := timer } := by
  unfold scheduleReconnect
  split_ifs
  · exact ⟨c.reconnectTimer, rfl⟩
  · exact ⟨true, rfl⟩

theorem Inv.scheduleReconnect (h : Inv c) : Inv c.scheduleReconnect := by
  obtain ⟨timer, heq⟩ := scheduleReconnect_eq c
  rw [heq]
  exact h.congr rfl rfl rfl rfl rfl h.stopped

theorem requestVaultKey_eq (cfg : Config) (c : Channel M) :
    ∃ wait next, c.requestVaultKey cfg = { c with keyWait := wait, nextKeyWait := next } := by
  unfold requestVaultKey
  split_ifs
  · exact ⟨c.keyWait, c.nextKeyWait, rfl⟩
  · exact ⟨_, _, rfl⟩

section

variable (h : Inv c)

include h

theorem Inv.requestVaultKey : Inv (c.requestVaultKey cfg) := by
  obtain ⟨wait, next, heq⟩ := requestVaultKey_eq cfg c
  rw [heq]
  exact h.congr rfl rfl rfl rfl rfl h.stopped

/-- closing, whatever is said meanwhile of stopping, timers and backfills -/
theorem Inv.close (stopped timer backfilling : Bool) :
    Inv (Channel.closeSocket { c with stopped, reconnectTimer := timer, backfilling }) := by
  have heq : Channel.closeSocket { c with stopped, reconnectTimer := timer, backfilling } =
      { c.closeSocket with stopped, reconnectTimer := timer, backfilling } := by
    unfold Channel.closeSocket
    cases c.ws <;> rfl
  rw [heq]
  exact h.closeSocket.congr rfl rfl rfl rfl rfl fun _ => by simp

theorem Inv.onDisconnect : Inv c.onDisconnect := by
  unfold Channel.onDisconnect
  split_ifs
  · exact h
  · exact (h.close c.stopped c.reconnectTimer false).scheduleReconnect

/-- a second socket is what `openSocket` must not make -/
theorem Inv.openSocket (hws : c.ws = none) (hrun : c.stopped = false) (factory : Bool) :
    Inv (c.openSocket factory) := by
  unfold Channel.openSocket
  cases factory with
  | false =>
    refine Inv.scheduleReconnect ⟨?_, h.others, h.stopped, h.unopened, h.opened, h.openings, h.once, h.hellos, h.sent⟩
    simp [hws]
  | true =>
    have hlookup : ∀ {j : ℕ} {s : Socket M}, (c.sockets ++ [⟨c.nextToken, .connecting, false, true, []⟩])[j]? = some s →
        c.sockets[j]? = some s ∨ (j = c.sockets.length ∧ s = ⟨c.nextToken, .connecting, false, true, []⟩) := by
      intro j s hs
      exact List.getElem?_snoc.1 hs
    have hold : ∀ {j : ℕ} {s : Socket M}, c.sockets[j]? = some s →
        (c.sockets ++ [⟨c.nextToken, .connecting, false, true, []⟩])[j]? = some s := by
      intro j s hs
      exact List.getElem?_snoc_of hs _
    constructor
    · rintro i hi
      cases hi
      exact ⟨⟨c.nextToken, .connecting, false, true, []⟩, by simp, by simp, rfl, rfl⟩
    · intro j s hs hne
      rcases hlookup hs with hs | ⟨rfl, -⟩
      · exact h.others j s hs (by simp [hws])
      · exact absurd rfl hne
    · intro hstop
      exact absurd (hrun.symm.trans hstop) (by simp)
    · intro j s hs hphase
      rcases hlookup hs with hs | ⟨-, rfl⟩
      · exact h.unopened j s hs hphase
      · rfl
    · intro j s hs hphase
      rcases hlookup hs with hs | ⟨-, rfl⟩
      · exact h.opened j s hs hphase
      · cases hphase
    · intro o ho
      obtain ⟨s, hs, hrest⟩ := h.openings o ho
      exact ⟨s, hold hs, hrest⟩
    · exact h.once
    · intro j s hs
      rcases hlookup hs with hs | ⟨-, rfl⟩
      · exact h.hellos j s hs
      · simp
    · intro j s hj hs
      cases hj
      rcases hlookup hs with hs | ⟨-, rfl⟩
      · obtain ⟨hlt, -⟩ := List.getElem?_eq_some_iff.1 hs
        exact absurd hlt (lt_irrefl c.sockets.length)
      · simp

theorem Inv.connect (hws : c.sinkReady = true ∨ ¬ cfg.sinkWaits = true → c.ws = none)
    (hrun : c.stopped = false) (factory : Bool) : Inv (c.connect cfg factory) := by
  unfold Channel.connect
  dsimp only
  split_ifs with hready
  · have hconnecting : Inv { c with connectGen := c.connectGen + 1, sinkReady := true } :=
      h.congr rfl rfl rfl rfl rfl h.stopped
    exact hconnecting.openSocket (hws hready) hrun factory
  · exact h.congr rfl rfl rfl rfl rfl h.stopped

theorem Inv.start (factory : Bool) : Inv (c.start cfg factory) := by
  unfold Channel.start
  split_ifs with hskip
  · exact h
  · simp only [not_or, Bool.not_eq_true, Option.isSome_eq_false_iff, Option.isNone_iff_eq_none] at hskip
    exact h.connect (fun _ => hskip.2.1) hskip.1 factory

theorem Inv.refresh : Inv c.refresh := by
  unfold Channel.refresh
  split_ifs
  · exact h
  · exact (h.close c.stopped c.reconnectTimer false).scheduleReconnect

theorem Inv.reconnect (liveOnly : Option Bool) : Inv (c.reconnect liveOnly) := by
  have hmode : Inv { c with liveOnly := liveOnly.getD c.liveOnly } := h.congr rfl rfl rfl rfl rfl h.stopped
  exact hmode.refresh

theorem Inv.sinkLoads (gen : ℕ) (factory : Bool) : Inv (c.sinkLoads gen factory) := by
  unfold Channel.sinkLoads
  dsimp only
  have hloaded : Inv { c with loading := c.loading.erase gen, waitingForSink := false, sinkReady := true } :=
    h.congr rfl rfl rfl rfl rfl h.stopped
  split_ifs with hgen hskip
  · exact hloaded
  · simp only [not_or, Bool.not_eq_true, Option.isSome_eq_false_iff, Option.isNone_iff_eq_none] at hskip
    exact hloaded.openSocket hskip.2.2 hskip.1 factory
  · exact h

/-- the timer connects whatever the current socket is -/
theorem Inv.timerFires (hok : c.reconnectTimer = true → c.stopped = false → c.keyWait = none → c.sinkReady = true ∨
      ¬ cfg.sinkWaits = true → c.ws = none)
    (factory : Bool) : Inv (c.timerFires cfg factory) := by
  unfold Channel.timerFires
  dsimp only
  have hfired : Inv { c with reconnectTimer := false } := h.congr rfl rfl rfl rfl rfl h.stopped
  split_ifs with htimer hstop
  · exact hfired
  · have hrun : c.stopped = false := by simpa using hstop
    cases hkey : c.keyWait with
    | none => exact (hkey ▸ hfired).connect (hok htimer hrun hkey) hrun factory
    | some waiting => exact h.congr rfl rfl rfl rfl rfl h.stopped
  · exact h

theorem Inv.keyAnswers (waiting : ℕ) (ok factory : Bool) : Inv (c.keyAnswers cfg waiting ok factory) := by
  unfold Channel.keyAnswers
  dsimp only
  have hanswered : Inv { c with
      keyLaps := c.keyLaps.erase waiting, keyWait := c.keyWait.filter fun k => decide (k ≠ waiting) } :=
    h.congr rfl rfl rfl rfl rfl h.stopped
  split_ifs with hlap hskip hready
  · exact hanswered
  · simp only [not_or, Bool.not_eq_true, Option.isSome_eq_false_iff, Option.isNone_iff_eq_none] at hskip
    exact hanswered.connect (fun _ => hskip.2.1) hskip.1 factory
  · exact hanswered.requestVaultKey.scheduleReconnect
  · exact h

end

variable {i : ℕ}

/-- handlers are only on the current socket -/
theorem Inv.handlersOn (h : Inv c) (hi : c.handlersOn i = true) : c.ws = some i ∧ c.stopped = false := by
  obtain ⟨s, hs, hattached⟩ := (Option.any_eq_true _ _).1 hi
  have hws : c.ws = some i := by
    by_contra hne
    exact absurd hattached (by simp [(h.others i s hs hne).2])
  refine ⟨hws, ?_⟩
  cases hstop : c.stopped with
  | false => rfl
  | true => exact absurd (h.stopped hstop) (by simp [hws])

/-- closing what the network closed already -/
theorem closeSocket_markClosed (hws : c.ws = some i) : (c.markClosed i).closeSocket = c.closeSocket := by
  have hmodify : ∀ l : List (Socket M), (l.modify i fun s => { s with phase := .closed }).modify i
      (fun s => { s with attached := false, phase := .closed }) =
      l.modify i fun s => { s with attached := false, phase := .closed } := by
    intro l
    refine ext_getElem? fun j => ?_
    simp only [getElem?_modify]
    cases l[j]? with
    | none => rfl
    | some s => by_cases hij : i = j <;> simp [hij]
  unfold closeSocket markClosed
  rw [hws]
  simp only [hmodify]

theorem Inv.disconnected (h : Inv c) (hi : c.handlersOn i = true) : Inv (c.markClosed i).onDisconnect := by
  obtain ⟨hws, hrun⟩ := h.handlersOn hi
  have hrun' : ¬ (c.markClosed i).stopped = true := by simpa [markClosed] using hrun
  have heq : Channel.closeSocket { c.markClosed i with backfilling := false } =
      Channel.closeSocket { c with backfilling := false } :=
    closeSocket_markClosed (show ({ c with backfilling := false } : Channel M).ws = some i from hws)
  unfold Channel.onDisconnect
  rw [if_neg hrun', heq]
  exact (h.close c.stopped c.reconnectTimer false).scheduleReconnect

theorem Inv.closes (h : Inv c) (i : ℕ) (code : CloseCode) : Inv (c.closes cfg i code) := by
  unfold Channel.closes
  split_ifs with hi
  · obtain ⟨hws, hrun⟩ := h.handlersOn hi
    cases code with
    | unauthorized =>
      have heq : Channel.closeSocket { c.markClosed i with stopped := true } =
          Channel.closeSocket { c with stopped := true } :=
        closeSocket_markClosed (show ({ c with stopped := true } : Channel M).ws = some i from hws)
      show Inv (Channel.closeSocket { c.markClosed i with stopped := true })
      rw [heq]
      exact h.close true c.reconnectTimer c.backfilling
    | keyRequired =>
      obtain ⟨wait, next, heq⟩ := requestVaultKey_eq cfg (c.markClosed i)
      have hkey : Inv { c with keyWait := wait, nextKeyWait := next } := h.congr rfl rfl rfl rfl rfl h.stopped
      show Inv ((c.markClosed i).requestVaultKey cfg).onDisconnect
      rw [heq]
      exact hkey.disconnected hi
    | other => exact h.disconnected hi
  · exact h

theorem Inv.errors (h : Inv c) (i : ℕ) : Inv (c.errors i) := by
  unfold Channel.errors
  split_ifs with hi
  · exact h.disconnected hi
  · exact h

theorem Inv.serverErr (h : Inv c) (i : ℕ) (keyRequired : Bool) : Inv (c.serverErr cfg i keyRequired) := by
  unfold Channel.serverErr
  split_ifs
  · exact h.requestVaultKey.onDisconnect
  · exact h.onDisconnect
  · exact h

/-- `onOpen` begins with the token minted for its socket -/
theorem Inv.opens (h : Inv c) (i : ℕ) : Inv (c.opens i) := by
  unfold Channel.opens
  cases hs : c.sockets[i]? with
  | none => exact h
  | some s =>
    dsimp only
    by_cases hphase : s.phase = .connecting
    · rw [if_pos hphase]
      have hws : c.ws = some i := by
        by_contra hne
        exact absurd (hphase.symm.trans (h.others i s hs hne).1) (by simp)
      obtain ⟨s', hs', -, hattached, htoken⟩ := h.current i hws
      cases hs.symm.trans hs'
      have hunopened := h.unopened i s hs hphase
      have hnohello : s.hellos = [] := by
        refine eq_nil_iff_forall_not_mem.2 fun x hx => ?_
        exact absurd ((h.hellos i s hs).2 x hx).2.2 (by simp [hunopened])
      have hnone : ∀ o ∈ c.openings, o.socket ≠ i := by
        rintro o ho rfl
        obtain ⟨y, hy, hopened, -⟩ := h.openings o ho
        cases hs.symm.trans hy
        simp [hunopened] at hopened
      have hnew : (c.sockets.modify i fun s => { s with phase := .opened, hasOpened := true })[i]? =
          some { s with phase := .opened, hasOpened := true } := by
        rw [getElem?_modify_eq, hs]
        rfl
      rw [if_pos hattached, htoken]
      constructor
      · intro j hj
        cases hws.symm.trans hj
        exact ⟨_, hnew, by simp, hattached, rfl⟩
      · intro j y hy hne
        obtain ⟨x, hx, rfl⟩ := getElem?_modify_some hy
        have hij : i ≠ j := fun heq => hne (by rw [← heq]; exact hws)
        rw [if_neg hij]
        exact h.others j x hx hne
      · exact h.stopped
      · intro j y hy hconn
        obtain ⟨x, hx, rfl⟩ := getElem?_modify_some hy
        by_cases hij : i = j
        · rw [if_pos hij] at hconn
          cases hconn
        · rw [if_neg hij] at hconn ⊢
          exact h.unopened j x hx hconn
      · intro j y hy hopen
        obtain ⟨x, hx, rfl⟩ := getElem?_modify_some hy
        by_cases hij : i = j
        · rw [if_pos hij]
        · rw [if_neg hij] at hopen ⊢
          exact h.opened j x hx hopen
      · intro o ho
        rcases mem_snoc.1 ho with ho | rfl
        · obtain ⟨y, hy, hrest⟩ := h.openings o ho
          refine ⟨y, ?_, hrest⟩
          rw [getElem?_modify_ne _ _ (hnone o ho).symm]
          exact hy
        · exact ⟨_, hnew, rfl, rfl, hnohello⟩
      · rw [map_append, nodup_append]
        refine ⟨h.once, by simp, ?_⟩
        intro x hx y hy
        obtain ⟨o, ho, rfl⟩ := mem_map.1 hx
        obtain rfl : y = i := by simpa using hy
        exact hnone o ho
      · intro j y hy
        obtain ⟨x, hx, rfl⟩ := getElem?_modify_some hy
        obtain ⟨hlen, hall⟩ := h.hellos j x hx
        by_cases hij : i = j
        · rw [if_pos hij]
          exact ⟨hlen, fun z hz => ⟨(hall z hz).1, (hall z hz).2.1, rfl⟩⟩
        · rw [if_neg hij]
          exact ⟨hlen, hall⟩
      · intro j y hj hy
        cases hws.symm.trans hj
        cases hnew.symm.trans hy
        rw [hnohello]
        simp
    · rw [if_neg hphase]
      exact h

theorem mem_opening {minted : Bool} {o : Opening} (ho : c.opening? i minted = some o) :
    o ∈ c.openings ∧ o.socket = i :=
  ⟨mem_of_find?_eq_some ho, (of_decide_eq_true (find?_some ho :)).1⟩

/-- dropping an opening -/
theorem Inv.erase (h : Inv c) (o : Opening) : Inv { c with openings := c.openings.erase o } :=
  { h with
    openings := fun p hp => h.openings p (mem_of_mem_erase hp)
    once := ((erase_sublist).map _).nodup h.once }

theorem Inv.tokenArrives (h : Inv c) (i : ℕ) : Inv (c.tokenArrives i) := by
  unfold Channel.tokenArrives
  cases ho : c.opening? i false with
  | none => exact h
  | some o =>
    obtain ⟨hmem, -⟩ := mem_opening ho
    have hperm : (c.openings.erase o ++ [{ o with minted := true }]).Perm ({ o with minted := true } :: c.openings.erase o) :=
      perm_append_singleton _ _
    have hmap : ((c.openings.erase o ++ [{ o with minted := true }]).map Opening.socket).Perm
        (c.openings.map Opening.socket) :=
      (hperm.map _).trans ((perm_cons_erase hmem).map Opening.socket).symm
    refine { h with openings := ?_, once := hmap.nodup_iff.2 h.once }
    intro p hp
    rcases mem_snoc.1 hp with hp | rfl
    · exact h.openings p (mem_of_mem_erase hp)
    · exact h.openings o hmem

theorem Inv.tokenFails (h : Inv c) (i : ℕ) (forbidden : Bool) : Inv (c.tokenFails i forbidden) := by
  unfold Channel.tokenFails
  cases c.opening? i false with
  | none => exact h
  | some o =>
    cases forbidden with
    | true => exact (h.erase o).close true c.reconnectTimer c.backfilling
    | false => exact (h.erase o).onDisconnect

/-- the end of `onOpen`: the hello reaches the socket it was made for, or none -/
theorem Inv.manifestBuilt (h : Inv c) (i : ℕ) (manifest : M)
    (hok : (c.opening? i true).isSome = true → ∀ w ∈ c.ws, w ≠ i → ∀ s, c.sockets[w]? = some s → s.phase ≠ .opened) :
    Inv (c.manifestBuilt i manifest) := by
  unfold Channel.manifestBuilt
  cases ho : c.opening? i true with
  | none => exact h
  | some o =>
    obtain ⟨hmem, hsocket⟩ := mem_opening ho
    have hbuilt := h.erase o
    cases hws : c.ws with
    | none =>
      refine { hbuilt with current := ?_, others := ?_, stopped := ?_, sent := ?_ }
      · simp
      · intro j s hs _
        exact h.others j s hs (by simp [hws])
      · simp
      · simp
    | some w =>
      dsimp only
      obtain ⟨k, hk, hkphase, hkattached, hktoken⟩ := h.current w hws
      have hafter : (c.sockets[w]?).any (·.hasOpened) = k.hasOpened := by rw [hk]; rfl
      rw [hafter]
      by_cases hphase : k.phase = .opened
      · -- the current socket has opened: it is the one this `onOpen` is of
        obtain rfl : w = i := by
          by_contra hne
          exact hok (by rw [ho]; rfl) w hws hne k hk hphase
        obtain ⟨k', hk', hopened, htoken, hnohello⟩ := h.openings o hmem
        rw [hsocket] at hk'
        cases hk.symm.trans hk'
        have hnone : ∀ p ∈ c.openings.erase o, p.socket ≠ w := by
          intro p hp heq
          have hnodup := ((perm_cons_erase hmem).map (fun p : Opening => p.socket)).nodup_iff.1 h.once
          rw [map_cons, nodup_cons] at hnodup
          exact hnodup.1 (mem_map.2 ⟨p, hp, heq.trans hsocket.symm⟩)
        have hnew : (c.sockets.modify w fun s => if s.phase = .opened then
            { s with hellos := s.hellos ++ [⟨o.token, manifest, c.liveOnly, k.hasOpened⟩] } else s)[w]? =
            some { k with hellos := [⟨k.token, manifest, c.liveOnly, true⟩] } := by
          rw [getElem?_modify_eq, hk, Option.map_eq_map, Option.map_some, if_pos hphase, hnohello, htoken, hopened]
          rfl
        constructor
        · intro j hj
          cases hj
          exact ⟨_, hnew, by simp [hphase], hkattached, hktoken⟩
        · intro j s hs hne
          have hwj : w ≠ j := fun heq => hne (by rw [← heq])
          rw [getElem?_modify_ne _ _ hwj] at hs
          exact h.others j s hs (by rw [hws]; exact hne)
        · intro hstop
          exact absurd (h.stopped hstop) (by simp [hws])
        · intro j s hs hconn
          by_cases hwj : w = j
          · subst hwj
            cases hnew.symm.trans hs
            exact absurd (hphase.symm.trans hconn) (by simp)
          · rw [getElem?_modify_ne _ _ hwj] at hs
            exact h.unopened j s hs hconn
        · intro j s hs hopen
          by_cases hwj : w = j
          · subst hwj
            cases hnew.symm.trans hs
            exact hopened
          · rw [getElem?_modify_ne _ _ hwj] at hs
            exact h.opened j s hs hopen
        · intro p hp
          obtain ⟨s, hs, hrest⟩ := h.openings p (mem_of_mem_erase hp)
          refine ⟨s, ?_, hrest⟩
          rw [getElem?_modify_ne _ _ (hnone p hp).symm]
          exact hs
        · exact hbuilt.once
        · intro j s hs
          by_cases hwj : w = j
          · subst hwj
            cases hnew.symm.trans hs
            simpa using hopened
          · rw [getElem?_modify_ne _ _ hwj] at hs
            exact h.hellos j s hs
        · intro j s hj hs
          cases hj
          cases hnew.symm.trans hs
          simp
      · -- it is connecting: sending throws
        have hsame : (c.sockets.modify w fun s => if s.phase = .opened then
            { s with hellos := s.hellos ++ [⟨o.token, manifest, c.liveOnly, k.hasOpened⟩] } else s) = c.sockets := by
          refine ext_getElem? fun j => ?_
          by_cases hwj : w = j
          · subst hwj
            rw [getElem?_modify_eq, hk, Option.map_eq_map, Option.map_some, if_neg hphase]
          · rw [getElem?_modify_ne _ _ hwj]
        have hconn : k.phase = .connecting := by
          cases hp : k.phase with
          | connecting => rfl
          | opened => exact absurd hp hphase
          | closed => exact absurd hp hkphase
        have hunopened := h.unopened w k hk hconn
        rw [hsame]
        refine { hbuilt with current := ?_, others := ?_, stopped := ?_, sent := ?_ }
        · exact hws ▸ h.current
        · exact hws ▸ h.others
        · exact hws ▸ h.stopped
        · intro j s hj hs x hx
          cases hj
          cases hk.symm.trans hs
          exact absurd ((h.hellos w k hk).2 x hx).2.2 (by simp [hunopened])

end Channel

/-! ## Steps -/

open Channel

variable {e : Engine M}

theorem maybeSignalIdle_chan (e : Engine M) : (maybeSignalIdle e).chan = e.chan := by
  unfold maybeSignalIdle
  dsimp only
  split_ifs <;> rfl

section

variable (h : Inv e.chan)

include h

theorem inv_drainEnd : Inv (drainEnd e).chan := by
  unfold drainEnd
  split_ifs
  · exact h.scheduleReconnect
  · exact h

theorem inv_drainNext : Inv (drainNext e).chan := by
  unfold drainNext
  dsimp only
  cases e.inbound.queue with
  | nil => exact inv_drainEnd h
  | cons frame rest =>
    split_ifs
    · exact inv_drainEnd h
    · exact h

theorem inv_kickDrain : Inv (kickDrain e).chan := by
  unfold kickDrain
  split_ifs
  · exact inv_drainNext h
  · exact h

theorem inv_stop : Inv (stop e).chan := h.close true false false

theorem inv_enqueueInbound (docId : ℕ) (update : List UInt8) : Inv (enqueueInbound cfg docId update e).chan := by
  unfold enqueueInbound
  by_cases hstop : e.chan.stopped = true
  · rw [if_pos hstop]
    exact h
  · dsimp only
    split_ifs
    · exact inv_kickDrain (e := applyBackpressure (push docId update e)) h.closeSocket
    · exact inv_kickDrain (e := push docId update e) h

theorem inv_handlerSettles (outcome : Outcome) (progressThrows : Bool) :
    Inv (handlerSettles outcome progressThrows e).chan := by
  unfold handlerSettles
  cases e.inbound.drain with
  | handling frame =>
    dsimp only
    split_ifs
    · exact inv_stop h
    · exact h
    · exact inv_drainNext h
    · exact inv_drainNext h
  | idle | ended => exact h

theorem inv_drainSettles : Inv (drainSettles e).chan := by
  unfold drainSettles
  dsimp only
  split_ifs
  · exact inv_kickDrain h
  · rw [maybeSignalIdle_chan]
    exact h
  · exact h

theorem inv_onReady (i : ℕ) : Inv (onReady i e).chan := by
  unfold onReady
  split_ifs
  · rw [maybeSignalIdle_chan]
    exact h.congr rfl rfl rfl rfl rfl h.stopped
  · exact h

end

/-- the reconnect timer connects only while there is no current socket, and no `onOpen` of a socket that was replaced gets
its manifest while the socket in its place is open -/
def Ok (cfg : Config) (e : Engine M) : Action M → Prop
  | .timerFires _ => e.chan.reconnectTimer = true → e.chan.stopped = false → e.chan.keyWait = none →
      e.chan.sinkReady = true ∨ ¬ cfg.sinkWaits = true → e.chan.ws = none
  | .manifestBuilt i _ => (e.chan.opening? i true).isSome = true → ∀ w ∈ e.chan.ws, w ≠ i →
      ∀ s, e.chan.sockets[w]? = some s → s.phase ≠ .opened
  | _ => True

/-- **One step** that the condition allows keeps the invariant. -/
theorem step_inv (a : Action M) (h : Inv e.chan) (hok : Ok cfg e a) : Inv (step cfg e a).chan := by
  cases a with
  | start factory => exact h.start factory
  | refresh => exact h.refresh
  | reconnect liveOnly => exact h.reconnect liveOnly
  | stop => exact inv_stop h
  | sinkLoads gen factory => exact h.sinkLoads gen factory
  | timerFires factory => exact h.timerFires hok factory
  | keyAnswers waiting ok factory => exact h.keyAnswers waiting ok factory
  | opens i => exact h.opens i
  | closes i code => exact h.closes i code
  | errors i => exact h.errors i
  | tokenArrives i => exact h.tokenArrives i
  | tokenFails i forbidden => exact h.tokenFails i forbidden
  | manifestBuilt i manifest => exact h.manifestBuilt i manifest hok
  | ready i => exact inv_onReady h i
  | serverErr i keyRequired => exact h.serverErr i keyRequired
  | frame i docId update =>
    unfold step
    dsimp only
    split_ifs
    · exact inv_enqueueInbound h docId update
    · exact h
  | handlerSettles outcome progressThrows => exact inv_handlerSettles h outcome progressThrows
  | drainSettles => exact inv_drainSettles h

/-- every run whose steps meet the condition -/
theorem run_inv (as : List (Action M)) (h : Inv e.chan) (hok : Machine.Guarded (step cfg) (Ok cfg) e as) :
    Inv (run cfg e as).chan := by
  have hstep : ∀ (s : Engine M) (a : Action M), Inv s.chan → Ok cfg s a → Inv (step cfg s a).chan :=
    fun s a hi ha => step_inv a hi ha
  exact Machine.run_inv hstep h hok

theorem inv_init (manifest : M) (liveOnly : Bool) : Inv (init manifest liveOnly).chan := by
  constructor <;> simp [init]

/-! ## One socket, one hello -/

/-- neither side has closed the socket -/
def Live (e : Engine M) (i : ℕ) : Prop := ∃ s, e.chan.sockets[i]? = some s ∧ s.phase ≠ .closed

/-- **One socket, one hello.** In every state a run reaches whose steps all meet the condition: at most one socket is live;
each socket was sent at most one hello, after its own open and with the token minted for it; and `sentManifest` is the
manifest of the current socket's hello. -/
theorem one_socket_one_hello (cfg : Config) (manifest : M) (liveOnly : Bool) (as : List (Action M))
    (hok : Machine.Guarded (step cfg) (Ok cfg) (init manifest liveOnly) as) :
    (∀ i j, Live (run cfg (init manifest liveOnly) as) i → Live (run cfg (init manifest liveOnly) as) j → i = j) ∧
    (∀ (i : ℕ) (s : Socket M), (run cfg (init manifest liveOnly) as).chan.sockets[i]? = some s →
      s.hellos.length ≤ 1 ∧ ∀ h ∈ s.hellos, h.afterOpen = true ∧ h.token = s.token) ∧
    (∀ (i : ℕ) (s : Socket M), (run cfg (init manifest liveOnly) as).chan.ws = some i →
      (run cfg (init manifest liveOnly) as).chan.sockets[i]? = some s →
      ∀ h ∈ s.hellos, h.manifest = (run cfg (init manifest liveOnly) as).chan.sentManifest) := by
  have hinv := run_inv as (inv_init manifest liveOnly) hok
  have hcurrent : ∀ i, Live (run cfg (init manifest liveOnly) as) i →
      (run cfg (init manifest liveOnly) as).chan.ws = some i := by
    rintro i ⟨s, hs, hphase⟩
    by_contra hne
    exact hphase (hinv.others i s hs hne).1
  refine ⟨fun i j hi hj => ?_, fun i s hs => ?_, hinv.sent⟩
  · exact Option.some.inj ((hcurrent i hi).symm.trans (hcurrent j hj))
  · obtain ⟨hlen, hall⟩ := hinv.hellos i s hs
    exact ⟨hlen, fun h hh => ⟨(hall h hh).1, (hall h hh).2.1⟩⟩

instance (cfg : Config) (e : Engine M) (a : Action M) : Decidable (Ok cfg e a) := by
  cases a <;> unfold Ok <;> infer_instance

/-- a sink with a manifest to load, and a queue bound of two bytes -/
def smallQueue : Config := ⟨2, true, true⟩

/-- a connection, a backfill that overflows, the drain, and a second connection with its hello -/
def pauseRun : List (Action ℕ) :=
  [.start true, .sinkLoads 1 true, .opens 0, .tokenArrives 0, .manifestBuilt 0 4, .frame 0 1 [1, 2, 3],
    .handlerSettles .applied false, .drainSettles, .timerFires true, .opens 1, .tokenArrives 1,
    .manifestBuilt 1 5, .ready 1]

/-- a refresh during a pause: its timer connects, and so does the timer of the drain that resumes -/
def refreshRun : List (Action ℕ) :=
  [.start true, .sinkLoads 1 true, .opens 0, .tokenArrives 0, .manifestBuilt 0 4, .frame 0 1 [1, 2, 3], .refresh,
    .timerFires true, .handlerSettles .applied false, .drainSettles, .timerFires true]

/-- an `onOpen` whose token comes after a reconnect greets the second socket, which then greets itself -/
def lateTokenRun : List (Action ℕ) :=
  [.start true, .sinkLoads 1 true, .opens 0, .errors 0, .timerFires true, .opens 1, .tokenArrives 0, .manifestBuilt 0 4,
    .tokenArrives 1, .manifestBuilt 1 5]

theorem pauseRun_one_socket : Machine.Guarded (step smallQueue) (Ok smallQueue) (init 0 false) pauseRun ∧
    ∀ i j, Live (run smallQueue (init 0 false) pauseRun) i → Live (run smallQueue (init 0 false) pauseRun) j → i = j := by
  have hok : Machine.Guarded (step smallQueue) (Ok smallQueue) (init 0 false) pauseRun := by decide
  exact ⟨hok, (one_socket_one_hello smallQueue 0 false pauseRun hok).1⟩

/-- two sockets are live after a refresh during a pause; a late token sends a second hello, with another attempt's token -/
theorem two_sockets_two_hellos :
    (Live (run smallQueue (init 0 false) refreshRun) 1 ∧ Live (run smallQueue (init 0 false) refreshRun) 2) ∧
    ((run smallQueue (init 0 false) lateTokenRun).chan.sockets[1]?.map fun s => (s.token, s.hellos.map (·.token))) =
      some (1, [0, 1]) := by
  refine ⟨⟨⟨⟨1, .connecting, false, true, []⟩, by decide, by decide⟩,
    ⟨⟨2, .connecting, false, true, []⟩, by decide, by decide⟩⟩, by decide⟩

end Baalda.SyncEngine
