/-
The live fan-out makes progress: what is owed is sent.

Once the environment rests (no new update, no change of access, no failing read, no backpressure) the connection's own
steps come to an end, in whatever order they are taken, and they end in quiescence, where nothing is owed any more.
`work` counts what is left to do: a message of the topic outweighs all it can set off (a queued document, a refresh, a
restart of the handshake), and a refresh outweighs the backfills of what it grants.
-/
import Baalda.Server.LiveFanout

namespace Baalda.VaultChannel

open List Option

/-! ## What is left to do -/

def phaseWork : Phase → ℕ
  | .parked => 4
  | .reading => 3
  | .read _ => 2
  | .finished => 1

def taskWork (t : Task) : ℕ := phaseWork t.phase

def refreshWork (granted : ℕ) (r : Refresh) : ℕ :=
  match r.phase with
  | .reading => 4 + 8 * granted
  | .read next => 3 + 8 * next.length
  | .probing _ next => 2 + 4 * next.length
  | .probed _ next _ => 1 + 4 * next.length

def msgWork (granted : ℕ) : Msg → ℕ
  | .update _ => 8
  | .access => 5 + 8 * granted

def aclWork (granted : ℕ) : Acl → ℕ
  | .reading => 3 + 4 * granted
  | .read next => 2 + 4 * next.length
  | .loaded => 0

/-- the handshake's next reading of the set, once a message marked it dirty -/
def dirtyWork (granted : ℕ) : Bool → ℕ
  | true => 2 + 4 * granted
  | false => 0

/-- the handshake's backfill, while it has not started -/
def backfillWork (started liveOnly : Bool) (readable : ℕ) : ℕ :=
  if started = false ∧ liveOnly = false then 1 + 4 * readable else 0

theorem backfillWork_le (started liveOnly : Bool) (m n : ℕ) :
    backfillWork started liveOnly m ≤ backfillWork started liveOnly n + 4 * m := by
  unfold backfillWork
  split_ifs <;> omega

def loopWork (pending : List ℕ) : Loop → ℕ
  | .idle => 0
  | .running => 2
  | .exiting => if pending = [] then 1 else 3

def queueWork (s : St) : ℕ := 5 * s.pendingResync.length + loopWork s.pendingResync s.loop

def topicWork (s : St) : ℕ :=
  (s.channel.map (msgWork s.granted.length)).sum + (s.toPublish.map fun m => msgWork s.granted.length m + 1).sum

def work (s : St) : ℕ :=
  topicWork s + aclWork s.granted.length s.acl + dirtyWork s.granted.length s.aclDirty +
    7 * (s.preAclUpdates.getD []).length + (s.refreshes.map (refreshWork s.granted.length)).sum +
    backfillWork s.backfillStarted s.liveOnly s.readable.length +
    (s.tasks.map taskWork).sum + queueWork s

theorem markPending_queue (s : St) (doc : ℕ) : queueWork (markPending s doc) ≤ queueWork s + 7 := by
  unfold queueWork markPending
  by_cases hm : doc ∈ s.pendingResync
  · have hne : s.pendingResync ≠ [] := ne_nil_of_mem hm
    rw [if_pos hm]
    cases s.loop <;> simp [loopWork, hne]
  · rw [if_neg hm, length_append]
    cases s.loop with
    | idle | running => simp [loopWork]; omega
    | exiting => simp [loopWork]; split_ifs <;> omega

theorem forwardReadable_queue (s : St) (heard : List Upd) (u : Upd) :
    queueWork (forwardReadable s heard u) ≤ queueWork s + 7 := by
  rcases forwardReadable_eq s heard u with ⟨-, he⟩ | ⟨-, he⟩ | ⟨-, -, -, -, he⟩
  · rw [he]
    omega
  · rw [he]
    exact markPending_queue s u.doc
  · rw [he]
    exact Nat.le_add_right _ _

theorem replay_queue (s : St) (heard us : List Upd) :
    queueWork (replay s heard us) ≤ queueWork s + 7 * us.length := by
  induction us generalizing s heard with
  | nil => exact le_rfl
  | cons u us ih =>
    have hstep : queueWork (forwardReadable s heard u) ≤ queueWork s + 7 := forwardReadable_queue s heard u
    have hrest := ih (forwardReadable s heard u) (heard ++ [u])
    rw [replay, length_cons]
    omega

/-- an announcement adds at most one backfill for each document of the new set -/
theorem announce_work (s : St) (prev next deletedNow : List ℕ) :
    work (announce s prev next deletedNow) ≤ work s + 4 * next.length := by
  have hadd : (next.filter fun d => d ∉ prev).length ≤ next.length := length_filter_le _ _
  have htasks : (((next.filter fun d => d ∉ prev).map fun d => (⟨d, .grant, .parked⟩ : Task)).map taskWork).sum =
      4 * (next.filter fun d => d ∉ prev).length := by
    simp [taskWork, phaseWork, Function.comp_def, mul_comm]
  unfold announce
  dsimp only
  split_ifs
  · simp only [work, topicWork, queueWork]
    omega
  · simp only [work, topicWork, queueWork, map_append, sum_append, htasks]
    omega

/-! ## The connection's own steps -/

/-- a step of the connection or the topic, with reads that succeed -/
def Own : Action → Prop
  | .commit _ | .setGrants .. | .buffer _ | .refreshRead _ false | .taskRead _ false => False
  | _ => True

variable {s : St} {a : Action}

theorem own_lowers_work {t : St} (ht : Fires s a t) (ha : Own a) : work t < work s := by
  cases ht with
  | commit u | setGrants g ds | buffer b | refreshFail hi => exact absurd ha id
  | @publish i m hm =>
    have herase := Slots.sum_map_eraseIdx (fun m => msgWork s.granted.length m + 1) hm
    simp only [work, topicWork, queueWork, map_append, sum_append, map_cons, map_nil,
      sum_cons, sum_nil] at herase ⊢
    omega
  | @forward u rest hc hl =>
    have hq := forwardReadable_queue { s with channel := rest, received := s.received ++ [u] } s.received u
    obtain ⟨p, l, tr, he⟩ := forwardReadable_shape { s with channel := rest, received := s.received ++ [u] } s.received u
    rw [he] at hq ⊢
    simp only [work, topicWork, queueWork, hc, map_cons, sum_cons, msgWork] at hq ⊢
    omega
  | @hold u rest hc hl =>
    unfold holdUpdate
    split
    · rename_i held hheld
      have hheld' : s.preAclUpdates = some held := hheld
      split_ifs
      · simp only [work, topicWork, queueWork, hc, hheld', map_cons, sum_cons, msgWork,
          getD_some, length_append, length_singleton]
        omega
      · simp only [work, topicWork, queueWork, hc, hheld', map_cons, sum_cons, msgWork,
          getD_some, getD_none, length_nil]
        omega
    · simp only [work, topicWork, queueWork, hc, map_cons, sum_cons, msgWork]
      omega
  | @refreshStart rest hc hl =>
    simp only [work, topicWork, queueWork, hc, map_append, sum_append, map_cons,
      map_nil, sum_cons, sum_nil, msgWork, refreshWork]
    omega
  | @markDirty rest hc hl =>
    simp only [work, topicWork, queueWork, hc, map_cons, sum_cons, msgWork, dirtyWork]
    omega
  | aclRead hr =>
    have hold : aclWork s.granted.length s.acl = 3 + 4 * s.granted.length := by rw [hr]; rfl
    have hnew : aclWork s.granted.length (.read s.granted) = 2 + 4 * s.granted.length := rfl
    simp only [work, topicWork, queueWork, hold, hnew]
    omega
  | @aclAgain next hr hd =>
    have hold : aclWork s.granted.length s.acl = 2 + 4 * next.length := by rw [hr]; rfl
    have hnew : aclWork s.granted.length .reading = 3 + 4 * s.granted.length := rfl
    have hback := backfillWork_le s.backfillStarted s.liveOnly next.length s.readable.length
    simp only [work, topicWork, queueWork, hold, hnew, hd, dirtyWork]
    omega
  | @aclLoad next hr hd =>
    have hold : aclWork s.granted.length s.acl = 2 + 4 * next.length := by rw [hr]; rfl
    have hnew : aclWork s.granted.length .loaded = 0 := rfl
    have hq := replay_queue (openChannel s next) [] (s.preAclUpdates.getD [])
    obtain ⟨p, l, tr, he⟩ := replay_shape (openChannel s next) [] (s.preAclUpdates.getD [])
    rw [he] at hq ⊢
    have hback := backfillWork_le s.backfillStarted s.liveOnly next.length s.readable.length
    simp only [work, topicWork, queueWork, openChannel, hold, hnew, hd, getD_none, length_nil] at hq ⊢
    omega
  | startBackfill hl hb hm =>
    have htasks : ((s.readable.map fun d => (⟨d, .handshake, .parked⟩ : Task)).map taskWork).sum =
        4 * s.readable.length := by
      simp [taskWork, phaseWork, Function.comp_def, mul_comm]
    have hold : backfillWork false false s.readable.length = 1 + 4 * s.readable.length := rfl
    have hnew : backfillWork true false s.readable.length = 0 := rfl
    simp only [work, topicWork, queueWork, hb, hm, hold, hnew, map_append, sum_append, htasks]
    omega
  | @refreshRead i seq hi =>
    have hset := Slots.sum_map_set (refreshWork s.granted.length) hi ⟨seq, .read s.granted⟩
    simp only [work, topicWork, queueWork, refreshWork] at hset ⊢
    omega
  | @refreshStale i seq next hi hs =>
    have herase := Slots.sum_map_eraseIdx (refreshWork s.granted.length) hi
    simp only [work, topicWork, queueWork, refreshWork] at herase ⊢
    omega
  | @refreshApply i seq next hi hs =>
    have herase := Slots.sum_map_eraseIdx (refreshWork s.granted.length) hi
    have hset := Slots.sum_map_set (refreshWork s.granted.length) hi ⟨seq, .probing s.readable next⟩
    have hback := backfillWork_le s.backfillStarted s.liveOnly next.length s.readable.length
    unfold applyRefresh
    split_ifs
    · refine lt_of_le_of_lt (announce_work _ _ _ _) ?_
      simp only [replaceReadable, work, topicWork, queueWork, refreshWork] at herase ⊢
      omega
    · simp only [replaceReadable, work, topicWork, queueWork, refreshWork] at hset ⊢
      omega
  | @refreshProbe i seq prev next ok hi =>
    have hset := Slots.sum_map_set (refreshWork s.granted.length) hi ⟨seq, .probed prev next (if ok then s.deleted else [])⟩
    simp only [work, topicWork, queueWork, refreshWork] at hset ⊢
    omega
  | @refreshFinish i seq prev next deletedNow hi =>
    have herase := Slots.sum_map_eraseIdx (refreshWork s.granted.length) hi
    refine lt_of_le_of_lt (announce_work _ _ _ _) ?_
    simp only [work, topicWork, queueWork, refreshWork] at herase ⊢
    omega
  | @taskAdmit i t hi hp =>
    have hset := Slots.sum_map_set taskWork hi { t with phase := if t.doc ∈ s.readable then .reading else .finished }
    have hnew : phaseWork (if t.doc ∈ s.readable then .reading else .finished) ≤ 3 := by split_ifs <;> decide
    have hold : phaseWork t.phase = 4 := by rw [hp]; rfl
    simp only [work, topicWork, queueWork, setPhase, taskWork] at hset hnew ⊢
    omega
  | @taskSilent i t ok hi hp hn | @taskSend i t covers hi hp =>
    have hset := Slots.sum_map_set taskWork hi { t with phase := .finished }
    simp only [work, topicWork, queueWork, setPhase, taskWork, phaseWork, hp] at hset ⊢
    omega
  | @taskRead i t hi hp hn =>
    have hset := Slots.sum_map_set taskWork hi { t with phase := .read (committedOf s t.doc) }
    simp only [work, topicWork, queueWork, setPhase, taskWork, phaseWork, hp] at hset ⊢
    omega
  | @taskEnd i t hi hp =>
    have herase := Slots.sum_map_eraseIdx taskWork hi
    simp only [work, topicWork, queueWork, taskWork, phaseWork, hp] at herase ⊢
    omega
  | loopExit hl hp =>
    simp only [work, topicWork, queueWork, hl, hp, loopWork]
    simp
  | @loopNext e rest hl hr hp =>
    simp only [work, topicWork, queueWork, hl, hp, loopWork, map_append, sum_append,
      map_cons, map_nil, sum_cons, sum_nil, taskWork, phaseWork, length_cons]
    omega
  | loopFinally hl =>
    simp only [work, topicWork, queueWork, hl, loopWork]
    split_ifs <;> simp

theorem own_keeps {t : St} (ht : Fires s a t) (ha : Own a) :
    t.blocked = s.blocked ∧ t.committed = s.committed ∧ t.has = s.has := by
  cases ht with
  | commit u | setGrants g ds | buffer b => exact absurd ha id
  | @forward u rest hc hl =>
    obtain ⟨p, l, tr, he⟩ := forwardReadable_shape { s with channel := rest, received := s.received ++ [u] } s.received u
    rw [he]
    exact ⟨rfl, rfl, rfl⟩
  | hold hc hl =>
    unfold holdUpdate
    split
    · split_ifs <;> exact ⟨rfl, rfl, rfl⟩
    · exact ⟨rfl, rfl, rfl⟩
  | @aclLoad next hr hd =>
    obtain ⟨p, l, tr, he⟩ := replay_shape (openChannel s next) [] (s.preAclUpdates.getD [])
    rw [he]
    exact ⟨rfl, rfl, rfl⟩
  | @refreshApply i seq next hi hs =>
    obtain ⟨rs, es, ts, sl, sg, -, -, he⟩ := applyRefresh_shape s i seq next
    rw [he]
    exact ⟨rfl, rfl, rfl⟩
  | @refreshFinish i seq prev next deletedNow hi =>
    exact ⟨rfl, rfl, rfl⟩
  | _ => exact ⟨rfl, rfl, rfl⟩

/-! ## Quiescence -/

/-- an own step that does something, and that the run may take -/
def Advances (d : ℕ) (s : St) (a : Action) : Prop := Own a ∧ FanoutOk d s a ∧ step s a ≠ s

/-- what holds in every state of a run that `FanoutOk` allows -/
structure FanoutInv (d : ℕ) (old : List Upd) (s : St) : Prop where
  stays : StaysReadable d s
  order : FanoutOrder s
  dropped : DroppedOk d s
  accounted : Accounted d old s

variable {d : ℕ}

theorem fanoutInv_init {granted : List ℕ} (committed pending held has : List Upd)
    (liveOnly batches bulkRegrant : Bool) (hd : d ∈ granted) :
    FanoutInv d committed (init granted committed pending held has liveOnly batches bulkRegrant) := by
  refine ⟨⟨hd, by simp [init], by simp [init], by simp [init]⟩, fanoutOrder_init .., by simp [DroppedOk, init], ?_⟩
  refine ⟨fun u hu => ?_, by simp [init], trivial⟩
  rcases mem_append.1 hu with hu | hu
  · exact .inl hu
  · exact .inr (.inr (.inr (mem_map_of_mem hu)))

variable {old : List Upd}

theorem fanoutInv_step (h : FanoutInv d old s) (ha : FanoutOk d s a) : FanoutInv d old (step s a) :=
  ⟨staysReadable_step h.stays ha, fanoutOrder_step h.order, droppedOk_step h.dropped h.order ha,
    accounted_step h.accounted h.stays h.order h.dropped ha⟩

/-- once the backfills are done and nothing is queued, everything heard is covered -/
theorem heard_covered (h : FanoutInv d old s) (hacl : s.acl = .loaded)
    (hback : s.liveOnly = true ∨ s.backfillStarted = true) (htasks : s.tasks = []) (hloop : s.loop = .idle) :
    ∀ u ∈ s.received, u.doc = d → CoveredIn s.has s.trace u := by
  intro u hu hd
  rcases h.accounted.owed u hu hd with hc | hq | ⟨t, ht, -⟩ | ⟨held, hh, -⟩ | ⟨-, hlo, hbs | ⟨t, ht, -⟩⟩
  · exact hc
  · rw [h.order.loop hloop] at hq
    cases hq
  · rw [htasks] at ht
    cases ht
  · rw [h.order.late hacl] at hh
    cases hh
  · rcases hback with hb | hb
    · exact absurd (hlo.symm.trans hb) (by simp)
    · exact absurd (hbs.symm.trans hb) (by simp)
  · rw [htasks] at ht
    cases ht

theorem quiescent_covered (h : FanoutInv d old s) (hq : Quiescent s) :
    ∀ u ∈ s.committed, u ∉ old → u.doc = d → CoveredIn s.has s.trace u := by
  obtain ⟨hpub, hchan, hacl, hback, -, htasks, hloop⟩ := hq
  intro u hu hnew hd
  rcases h.accounted.announced u hu with ho | hr | hc | hp
  · exact absurd ho hnew
  · exact heard_covered h hacl hback htasks hloop u hr hd
  · rw [hchan] at hc
    cases hc
  · rw [hpub] at hp
    cases hp

/-! ## There is always a step to take -/

theorem advances_of {t : St} (ha : Own a) (hok : FanoutOk d s a) (ht : Fires s a t) (he : step s a = t) :
    Advances d s a := by
  refine ⟨ha, hok, fun hs => ?_⟩
  have hlt : work t < work s := own_lowers_work ht ha
  rw [← he, hs] at hlt
  exact lt_irrefl _ hlt

theorem task_advances {t : Task} {ts : List Task} (h : s.tasks = t :: ts) (hb : s.blocked = false) :
    ∃ a, Advances d s a := by
  have hi : s.tasks[0]? = some t := by rw [h]; rfl
  cases hp : t.phase with
  | parked => exact ⟨.taskAdmit 0, advances_of trivial trivial (.taskAdmit hi hp) (by simp [step, hi, hp, hb])⟩
  | reading =>
    by_cases hn : nothingToSend s t
    · exact ⟨.taskRead 0 true, advances_of trivial trivial (.taskSilent hi hp (.inr hn)) (by simp [step, hi, hp, hn])⟩
    · exact ⟨.taskRead 0 true, advances_of trivial trivial (.taskRead hi hp hn) (by simp [step, hi, hp, hn])⟩
  | read covers => exact ⟨.taskSend 0, advances_of trivial trivial (.taskSend hi hp) (by simp [step, hi, hp])⟩
  | finished => exact ⟨.taskEnd 0, advances_of trivial trivial (.taskEnd hi hp) (by simp [step, hi, hp])⟩

theorem refresh_advances {r : Refresh} {rs : List Refresh} (h : s.refreshes = r :: rs) : ∃ a, Advances d s a := by
  obtain ⟨seq, phase⟩ := r
  have hi : s.refreshes[0]? = some ⟨seq, phase⟩ := by rw [h]; rfl
  cases phase with
  | reading => exact ⟨.refreshRead 0 true, advances_of trivial trivial (.refreshRead hi) (by simp [step, hi])⟩
  | read next =>
    by_cases hs : seq < s.refreshApplied
    · exact ⟨.refreshApply 0, advances_of trivial trivial (.refreshStale hi hs) (by simp [step, hi, hs])⟩
    · exact ⟨.refreshApply 0, advances_of trivial trivial (.refreshApply hi (not_lt.1 hs)) (by simp [step, hi, hs])⟩
  | probing prev next =>
    exact ⟨.refreshProbe 0 true, advances_of trivial trivial (.refreshProbe true hi) (by simp [step, hi])⟩
  | probed prev next deletedNow =>
    exact ⟨.refreshFinish 0, advances_of trivial trivial (.refreshFinish hi) (by simp [step, hi])⟩

theorem loop_advances (h : s.loop ≠ .idle) (ht : s.tasks = []) : ∃ a, Advances d s a := by
  cases hl : s.loop with
  | idle => exact absurd hl h
  | running =>
    cases hp : s.pendingResync with
    | nil => exact ⟨.loopNext, advances_of trivial trivial (.loopExit hl hp) (by simp [step, hl, hp, ht])⟩
    | cons e rest =>
      exact ⟨.loopNext, advances_of trivial trivial (.loopNext hl (by simp [ht]) hp) (by simp [step, hl, hp, ht])⟩
  | exiting => exact ⟨.loopFinally, advances_of trivial trivial (.loopFinally hl) (by simp [step, hl])⟩

theorem acl_advances (h : s.acl ≠ .loaded) : ∃ a, Advances d s a := by
  cases hacl : s.acl with
  | loaded => exact absurd hacl h
  | reading => exact ⟨.aclRead, advances_of trivial trivial (.aclRead hacl) (by simp [step, hacl])⟩
  | read next =>
    cases hd : s.aclDirty with
    | true => exact ⟨.aclApply, advances_of trivial trivial (.aclAgain hacl hd) (by simp [step, hacl, hd])⟩
    | false => exact ⟨.aclApply, advances_of trivial trivial (.aclLoad hacl hd) (by simp [step, hacl, hd])⟩

/-- the next message is heard when nothing is owed: a live update then opens no gap -/
theorem receive_advances {m : Msg} {rest : List Msg} (h : FanoutInv d old s) (hacl : s.acl = .loaded)
    (hback : s.liveOnly = true ∨ s.backfillStarted = true) (htasks : s.tasks = []) (hloop : s.loop = .idle)
    (hc : s.channel = m :: rest) : ∃ a, Advances d s a := by
  have hcov : ∀ v ∈ s.dropped, v.doc = d → CoveredIn s.has s.trace v := fun v hv hd =>
    heard_covered h hacl hback htasks hloop v (h.order.dropped v hv) hd
  cases m with
  | update u =>
    have hok : FanoutOk d s .receive := by
      simp only [FanoutOk, hc, hacl, if_true]
      exact fun _ => .inl hcov
    exact ⟨.receive, advances_of trivial hok (.forward hc hacl) (by simp [step, hc, hacl])⟩
  | access =>
    have hok : FanoutOk d s .receive := by simp only [FanoutOk, hc]
    exact ⟨.receive, advances_of trivial hok (.refreshStart hc hacl) (by simp [step, hc, hacl])⟩

theorem quiescent_or_advances (h : FanoutInv d old s) (hb : s.blocked = false) :
    Quiescent s ∨ ∃ a, Advances d s a := by
  cases htasks : s.tasks with
  | cons t ts => exact .inr (task_advances htasks hb)
  | nil =>
    cases hrefreshes : s.refreshes with
    | cons r rs => exact .inr (refresh_advances hrefreshes)
    | nil =>
      by_cases hloop : s.loop = .idle
      swap
      · exact .inr (loop_advances hloop htasks)
      by_cases hacl : s.acl = .loaded
      swap
      · exact .inr (acl_advances hacl)
      by_cases hback : s.liveOnly = true ∨ s.backfillStarted = true
      swap
      · obtain ⟨hlo, hbs⟩ : s.liveOnly = false ∧ s.backfillStarted = false := by simpa using hback
        exact .inr ⟨.startBackfill, advances_of trivial trivial (.startBackfill hacl hbs hlo)
          (by simp [step, hacl, hbs, hlo])⟩
      cases hchan : s.channel with
      | cons m rest => exact .inr (receive_advances h hacl hback htasks hloop hchan)
      | nil =>
        cases hpub : s.toPublish with
        | cons m rest =>
          have hi : s.toPublish[0]? = some m := by rw [hpub]; rfl
          exact .inr ⟨.publish 0, advances_of trivial trivial (.publish hi) (by simp [step, hi])⟩
        | nil => exact .inl ⟨hpub, hchan, hacl, hback, hrefreshes, htasks, hloop⟩

/-- the connection's own steps end in quiescence, whichever are taken -/
theorem settles (h : FanoutInv d old s) (hb : s.blocked = false) :
    Machine.Inevitable step (Advances d)
      (fun t => (FanoutInv d old t ∧ t.committed = s.committed) ∧ Quiescent t) s := by
  have hfire : ∀ {t : St} {a : Action}, Advances d t a → Fires t a (step t a) := fun {t a} ha =>
    (step_fires t a).resolve_left ha.2.2
  have hstart : (FanoutInv d old s ∧ s.committed = s.committed) ∧ s.blocked = false := ⟨⟨h, rfl⟩, hb⟩
  refine Machine.inevitable_of_measure (fun t => (FanoutInv d old t ∧ t.committed = s.committed) ∧ t.blocked = false)
    work ?_ ?_ ?_ hstart
  · rintro t a ⟨⟨hi, hc⟩, hb⟩ ha
    obtain ⟨hb', hc', -⟩ := own_keeps (hfire ha) ha.1
    exact ⟨⟨fanoutInv_step hi ha.2.1, hc'.trans hc⟩, hb'.trans hb⟩
  · exact fun t a _ ha => own_lowers_work (hfire ha) ha.1
  · rintro t ⟨hi, hb⟩
    exact (quiescent_or_advances hi.1 hb).imp_left fun hq => ⟨hi, hq⟩

/-! ## Main result -/

/-- **The live fan-out loses no update.** In every run that `FanoutOk` allows (it never lets a read fail, or an overflow
drop an update, when that leaves the update with nobody to bring it, and forwards nothing past what an overflow dropped)
no live frame opens a gap; in a quiescent state every update published since the connection is covered; and from every
state with an unblocked socket the connection's own steps bring every update published by then, in whatever order they
are taken. -/
theorem fanout_loses_nothing (d : ℕ) (granted : List ℕ) (committed pending held has : List Upd)
    (liveOnly batches bulkRegrant : Bool) (as : List Action) (hd : d ∈ granted)
    (h : Machine.Guarded step (FanoutOk d) (init granted committed pending held has liveOnly batches bulkRegrant) as) :
    let s := run (init granted committed pending held has liveOnly batches bulkRegrant) as
    NoGap d s.has [] s.trace ∧
      (Quiescent s → ∀ u ∈ s.committed, u ∉ committed → u.doc = d → CoveredIn s.has s.trace u) ∧
      (s.blocked = false → Machine.Inevitable step (Advances d)
        (fun t => ∀ u ∈ s.committed, u ∉ committed → u.doc = d → CoveredIn t.has t.trace u) s) := by
  intro s
  have hinv : FanoutInv d committed s :=
    Machine.run_inv (fun _ _ hi ha => fanoutInv_step hi ha)
      (fanoutInv_init committed pending held has liveOnly batches bulkRegrant hd) h
  refine ⟨hinv.accounted.noGap, fun hq => quiescent_covered hinv hq, fun hb => (settles hinv hb).imp ?_⟩
  rintro t ⟨⟨hi, hc⟩, hq⟩
  rw [← hc]
  exact quiescent_covered hi hq

/-- the handshake of a connection to one document, its backfill (nothing stored) included -/
def opened : List Action := [.aclRead, .aclApply, .startBackfill, .taskAdmit 0, .taskRead 0 true, .taskEnd 0]

/-- an update withheld under backpressure, its resend, then an update sent live -/
def resentRun : List Action :=
  opened ++ [.commit ⟨0, 0⟩, .publish 0, .buffer true, .receive, .loopNext, .buffer false, .taskAdmit 0, .taskRead 0 true,
    .taskSend 0, .taskEnd 0, .loopNext, .loopFinally, .commit ⟨0, 1⟩, .publish 0, .receive]

theorem withheld_update_is_resent :
    let s := run (init [0] [] [] [] [] false false false) resentRun
    NoGap 0 s.has [] s.trace ∧ CoveredIn s.has s.trace ⟨0, 0⟩ ∧ CoveredIn s.has s.trace ⟨0, 1⟩ := by
  have h := fanout_loses_nothing 0 [0] [] [] [] [] false false false resentRun (by decide) (by decide)
  exact ⟨h.1, h.2.1 (by decide) ⟨0, 0⟩ (by decide) (by decide) rfl, h.2.1 (by decide) ⟨0, 1⟩ (by decide) (by decide) rfl⟩

/-- the same update withheld, and a resend whose read fails -/
def failedResendRun : List Action :=
  opened ++ [.commit ⟨0, 0⟩, .publish 0, .buffer true, .receive, .loopNext, .buffer false, .taskAdmit 0,
    .taskRead 0 false, .taskEnd 0, .loopNext, .loopFinally]

/-- **A failed resend loses the update.** `drainResync` takes the document off the queue before it reads, and
`sendDocBackfill` only logs a read that fails: nothing owes the withheld update any more. The connection is quiescent
without it, and the next live update opens a gap. -/
theorem failed_resend_loses_updates :
    let s := run (init [0] [] [] [] [] false false false) failedResendRun
    (Quiescent s ∧ ⟨0, 0⟩ ∈ s.received ∧ ¬ CoveredIn s.has s.trace ⟨0, 0⟩) ∧
      ¬ NoGap 0 s.has [] (run s [.commit ⟨0, 1⟩, .publish 0, .receive]).trace := by decide

end Baalda.VaultChannel
