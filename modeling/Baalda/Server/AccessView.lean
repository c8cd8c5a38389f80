/-
The access view of one connection: what its client takes to be readable, against what the connection serves.

`inView d` reads the frames: the readable set the handshake ended with, less what a `revoked` or `drop` frame named,
plus what a state frame or a bootstrap brought after it. A refresh publishes its set before it knows which of the
documents that fell out are deleted, so the view and the set differ while a refresh looks that up; `ViewInv` says which
refresh, which backfill or which silent change accounts for each difference.

`NotOvertaken d` keeps one interleaving out: a refresh that grants `d` again while an earlier one, which took `d` away,
still looks up whether `d` is deleted.
-/
import Baalda.Server.LiveFanout
import Baalda.Lib.Slots

namespace Baalda.VaultChannel

open Slots List

/-! ## Flags along a trace -/

section

variable (on off : Event → Bool) (b : Bool)

/-- up after an `on` frame, down after an `off` frame -/
def flag (es : List Event) : Bool := es.foldl (fun b e => on e || (b && !off e)) b

@[simp] theorem flag_nil : flag on off b [] = b := rfl

@[simp] theorem flag_cons (e : Event) (es : List Event) :
    flag on off b (e :: es) = flag on off (on e || (b && !off e)) es := rfl

theorem flag_append (xs ys : List Event) :
    flag on off b (xs ++ ys) = flag on off (flag on off b xs) ys := foldl_append

end

variable {on off : Event → Bool} {es : List Event}

theorem flag_never_on (h : ∀ e ∈ es, on e = false) (b : Bool) : flag on off b es = (b && es.all fun e => !off e) := by
  induction es generalizing b with
  | nil => simp
  | cons e es ih =>
    have hrest : ∀ x ∈ es, on x = false := fun x hx => h x (.tail _ hx)
    rw [flag_cons, ih hrest, h e mem_cons_self, all_cons, Bool.false_or, Bool.and_assoc]

theorem flag_never_off (h : ∀ e ∈ es, off e = false) (b : Bool) : flag on off b es = (b || es.any on) := by
  induction es generalizing b with
  | nil => simp
  | cons e es ih =>
    have hrest : ∀ x ∈ es, off x = false := fun x hx => h x (.tail _ hx)
    rw [flag_cons, ih hrest, h e mem_cons_self, any_cons, Bool.not_false, Bool.and_true, Bool.or_comm (on e),
      Bool.or_assoc]

/-! ## What the frames say of a document -/

def brings (d : ℕ) : Event → Bool
  | .state e _ => decide (e = d)
  | .bootstrap docs => decide (d ∈ docs)
  | _ => false

def revokes (d : ℕ) : Event → Bool
  | .revoked docs => decide (d ∈ docs)
  | .drop e => decide (e = d)
  | _ => false

/-- the readable set is replaced by one with `d` -/
def reopens (d : ℕ) : Event → Bool
  | .access docs => decide (d ∈ docs)
  | _ => false

def content (d : ℕ) : Event → Bool
  | .live u _ => decide (u.doc = d)
  | .state e _ => decide (e = d)
  | _ => false

/-- the client's view, read off the frames -/
def inView (s : St) (d : ℕ) : Bool := flag (brings d) (revokes d) (decide (d ∈ s.initial)) s.trace

/-- revoked by a frame, and the set has not held `d` since -/
def shut (d : ℕ) (trace : List Event) : Bool := flag (revokes d) (reopens d) false trace

/-- no content of `d` after a frame that revokes it, unless the set held `d` again in between -/
def NoLeak (d : ℕ) (trace : List Event) : Prop := ∀ xs e ys f zs, trace = xs ++ e :: (ys ++ f :: zs) →
  revokes d e = true → content d f = true → ∃ g ∈ ys, reopens d g = true

/-- no content of `d` is sent while `d` is shut (`b`: at the start of the frames) -/
def Sealed (d : ℕ) : Bool → List Event → Prop
  | _, [] => True
  | b, e :: es => (content d e = true → b = false) ∧ Sealed d (revokes d e || (b && !reopens d e)) es

variable {d : ℕ}

theorem sealed_append {b : Bool} (xs ys : List Event) :
    Sealed d b (xs ++ ys) ↔ Sealed d b xs ∧ Sealed d (flag (revokes d) (reopens d) b xs) ys := by
  induction xs generalizing b with
  | nil => simp [Sealed]
  | cons e xs ih => simp only [cons_append, Sealed, ih, flag_cons, and_assoc]

theorem sealed_of_no_content (h : ∀ e ∈ es, content d e = false) (b : Bool) : Sealed d b es := by
  induction es generalizing b with
  | nil => trivial
  | cons e es ih =>
    refine ⟨fun hc => ?_, ih (fun x hx => h x (.tail _ hx)) _⟩
    rw [h e mem_cons_self] at hc
    cases hc

theorem noLeak_of_sealed {trace : List Event} (h : Sealed d false trace) : NoLeak d trace := by
  intro xs e ys f zs ht he hf
  by_contra hno
  have hoff : ∀ g ∈ ys, reopens d g = false := fun g hg => by
    by_contra hg'
    exact hno ⟨g, hg, by simpa using hg'⟩
  rw [ht, sealed_append] at h
  obtain ⟨-, -, hrest⟩ := h
  rw [sealed_append] at hrest
  obtain ⟨-, hcontent, -⟩ := hrest
  have hshut := hcontent hf
  rw [flag_never_off hoff, he] at hshut
  cases hshut

/-! ## The frames of a loss -/

theorem revokedFrames_revokes (d : ℕ) (batch docs : List ℕ) :
    (revokedFrames batch docs).any (revokes d) = decide (d ∈ batch ∨ d ∈ docs) := by
  induction docs generalizing batch with
  | nil =>
    unfold revokedFrames
    split_ifs with h
    · simp [h]
    · simp [revokes]
  | cons e docs ih =>
    unfold revokedFrames
    split_ifs with h
    · rw [any_cons, ih]
      simp only [revokes, mem_append, mem_cons, not_mem_nil, false_or, ← Bool.decide_or, or_assoc]
    · rw [ih]
      simp only [mem_append, mem_cons, not_mem_nil, false_or, or_assoc]

theorem lossFrames_revokes (d : ℕ) (batches : Bool) (docs : List ℕ) :
    (lossFrames batches docs).any (revokes d) = decide (d ∈ docs) := by
  unfold lossFrames
  split_ifs with h
  · rw [revokedFrames_revokes]
    simp
  · rw [any_map, Bool.eq_iff_iff]
    simp [revokes]

/-- frames of a loss revoke, and do nothing else -/
def LossOnly (es : List Event) : Prop :=
  ∀ e ∈ es, ∀ d, brings d e = false ∧ reopens d e = false ∧ content d e = false

theorem lossOnly_revokedFrames (batch docs : List ℕ) : LossOnly (revokedFrames batch docs) := by
  induction docs generalizing batch with
  | nil =>
    intro e he d
    unfold revokedFrames at he
    split_ifs at he
    · simp at he
    · rw [mem_singleton.1 he]
      exact ⟨rfl, rfl, rfl⟩
  | cons x docs ih =>
    intro e he d
    unfold revokedFrames at he
    split_ifs at he
    · rcases mem_cons.1 he with rfl | he
      · exact ⟨rfl, rfl, rfl⟩
      · exact ih [] e he d
    · exact ih (batch ++ [x]) e he d

theorem lossOnly_lossFrames (batches : Bool) (docs : List ℕ) : LossOnly (lossFrames batches docs) := by
  unfold lossFrames
  split_ifs
  · exact lossOnly_revokedFrames [] docs
  · intro e he d
    obtain ⟨x, _, rfl⟩ := mem_map.1 he
    exact ⟨rfl, rfl, rfl⟩

/-! ## What a run must not do -/

/-- the refresh took the document away, and still looks up whether it is deleted or has yet to say so -/
def Refresh.revoking (d : ℕ) (r : Refresh) : Prop :=
  match r.phase with
  | .probing prev next | .probed prev next _ => d ∈ prev ∧ d ∉ next
  | _ => False

instance (d : ℕ) (r : Refresh) : Decidable (r.revoking d) := by unfold Refresh.revoking; split <;> infer_instance

/-- the refresh granted the document, and its backfill is yet to start -/
def Refresh.granting (d : ℕ) (r : Refresh) : Prop :=
  match r.phase with
  | .probing prev next | .probed prev next _ => d ∉ prev ∧ d ∈ next
  | _ => False

/-- no refresh grants `d` again before an earlier one has said that it took `d` away -/
def NotOvertaken (d : ℕ) (s : St) : Action → Prop
  | .refreshApply i =>
    match s.refreshes[i]? with
    | some ⟨_, .read next⟩ => d ∈ next → ∀ r ∈ s.refreshes, ¬ r.revoking d
    | _ => True
  | _ => True

instance (d : ℕ) (s : St) (a : Action) : Decidable (NotOvertaken d s a) := by
  unfold NotOvertaken; repeat' split
  all_goals infer_instance

/-! ## The set served is the set granted -/

/-- a refresh numbered from `k` on has read the set as it is, or will -/
def Refresh.fresh (granted : List ℕ) (r : Refresh) : Prop := r.phase = .reading ∨ r.phase = .read granted

/-- a message says the set moved, or a refresh failed, or the handshake is still to read it, or the refreshes started since
it moved (those numbered from `k` on) bring it or have brought it -/
def Current (s : St) : Prop :=
  (.access ∈ s.channel ∨ .access ∈ s.toPublish) ∨ s.readFailed = true ∨
    (s.acl ≠ .loaded ∧ (s.aclDirty = true ∨ ∀ next, s.acl = .read next → next = s.granted)) ∨
    (s.acl = .loaded ∧ ∃ k, (∀ r ∈ s.refreshes, k ≤ r.seq → ∀ next, r.phase = .read next → next = s.granted) ∧
      ((k ≤ s.refreshApplied ∧ s.readable = s.granted) ∨
        (s.refreshApplied < k ∧ ∃ r ∈ s.refreshes, k ≤ r.seq ∧ r.fresh s.granted)))

structure SeqOk (s : St) : Prop where
  applied : s.refreshApplied ≤ s.refreshStarted
  started : ∀ r ∈ s.refreshes, r.seq ≤ s.refreshStarted

theorem seqOk_init (granted : List ℕ) (committed pending held has : List Upd) (liveOnly batches bulkRegrant : Bool) :
    SeqOk (init granted committed pending held has liveOnly batches bulkRegrant) := by
  constructor <;> simp [init]

variable {s : St} {a : Action}

theorem seqOk_step (h : SeqOk s) : SeqOk (step s a) := by
  have herase : ∀ i, ∀ r ∈ s.refreshes.eraseIdx i, r.seq ≤ s.refreshStarted := fun i r hr =>
    h.started r ((eraseIdx_sublist _ _).subset hr)
  have hset : ∀ {i seq p q}, s.refreshes[i]? = some ⟨seq, p⟩ →
      ∀ r ∈ s.refreshes.set i ⟨seq, q⟩, r.seq ≤ s.refreshStarted := fun {i seq p q} hi r hr => by
    rcases mem_or_eq_of_mem_set hr with hr | rfl
    · exact h.started r hr
    · exact h.started ⟨seq, p⟩ (mem_of_getElem? hi)
  refine step_preserves SeqOk h fun t ht => ?_
  cases ht with
  | forward hc hl =>
    obtain ⟨p, l, tr, he⟩ := forwardReadable_shape _ s.received _
    rw [he]
    exact ⟨h.applied, h.started⟩
  | hold hc hl =>
    unfold holdUpdate
    split
    · split_ifs <;> exact ⟨h.applied, h.started⟩
    · exact ⟨h.applied, h.started⟩
  | refreshStart hc hl =>
    refine ⟨h.applied.trans (Nat.le_succ _), fun r hr => ?_⟩
    rcases mem_snoc.1 hr with hr | hr
    · exact (h.started r hr).trans (Nat.le_succ _)
    · rw [hr]
  | aclAgain hr hd => exact ⟨Nat.le_succ _, fun r hr => (h.started r hr).trans (Nat.le_succ _)⟩
  | @aclLoad next hr hd =>
    obtain ⟨p, l, tr, he⟩ := replay_shape (openChannel s next) [] (s.preAclUpdates.getD [])
    rw [he]
    exact ⟨le_rfl, h.started⟩
  | refreshRead hi | refreshProbe ok hi => exact ⟨h.applied, hset hi⟩
  | refreshFail hi | refreshStale hi _ => exact ⟨h.applied, herase _⟩
  | @refreshApply i seq next hi hs =>
    have hseq : seq ≤ s.refreshStarted := h.started ⟨seq, .read next⟩ (mem_of_getElem? hi)
    unfold applyRefresh
    split_ifs
    · exact ⟨hseq, herase _⟩
    · exact ⟨hseq, hset hi⟩
  | @refreshFinish i seq prev next deletedNow hi =>
    exact ⟨h.applied, herase _⟩
  | _ => exact ⟨h.applied, h.started⟩

theorem current_init (granted : List ℕ) (committed pending held has : List Upd) (liveOnly batches bulkRegrant : Bool) :
    Current (init granted committed pending held has liveOnly batches bulkRegrant) :=
  .inr (.inr (.inl ⟨by simp [init], .inr (by simp [init])⟩))

/-- a step that leaves the topic, the sets and the numbering alone, and of the refreshes only those that have nothing to
bring -/
theorem Current.keep {t : St} (h : Current s) (hc : t.channel = s.channel) (hp : t.toPublish = s.toPublish)
    (hf : t.readFailed = s.readFailed) (ha : t.acl = s.acl) (hd : t.aclDirty = s.aclDirty)
    (hg : t.granted = s.granted) (hr : t.readable = s.readable) (hn : t.refreshApplied = s.refreshApplied)
    (hread : ∀ r ∈ t.refreshes, ∀ next, r.phase = .read next → r ∈ s.refreshes ∨ next = s.granted)
    (hfresh : ∀ k, s.refreshApplied < k → (∃ r ∈ s.refreshes, k ≤ r.seq ∧ r.fresh s.granted) → ∃ r ∈ t.refreshes,
      k ≤ r.seq ∧ r.fresh s.granted)
    : Current t := by
  unfold Current
  rw [hc, hp, hf, ha, hd, hg, hr, hn]
  rcases h with h | h | h | ⟨hl, k, hall, hk⟩
  · exact .inl h
  · exact .inr (.inl h)
  · exact .inr (.inr (.inl h))
  · refine .inr (.inr (.inr ⟨hl, k, fun r hr hkr next hp => ?_, ?_⟩))
    · rcases hread r hr next hp with hr | hg
      · exact hall r hr hkr next hp
      · exact hg
    · exact hk.imp_right fun ⟨hlt, hex⟩ => ⟨hlt, hfresh k hlt hex⟩

theorem current_step (h : Current s) (hq : SeqOk s) (ho : FanoutOrder s) : Current (step s a) := by
  -- a message of the topic is heard: what else is there stays there
  have hrest : ∀ {u : Upd} {rest : List Msg}, s.channel = .update u :: rest → .access ∈ s.channel → Msg.access ∈ rest :=
    fun hc hm => by
      rw [hc] at hm
      exact (mem_cons.1 hm).resolve_left (by simp)
  refine step_preserves Current h fun t ht => ?_
  cases ht with
  | setGrants g ds => exact .inl (.inr (mem_append_right _ mem_cons_self))
  | commit u =>
    rcases h with (h | h) | h
    · exact .inl (.inl h)
    · exact .inl (.inr (mem_append_left _ h))
    · exact .inr h
  | @publish i m hm =>
    rcases h with (h | h) | h
    · exact .inl (.inl (mem_append_left _ h))
    · by_cases hma : m = .access
      · exact .inl (.inl (mem_append_right _ (by rw [hma]; exact .head _)))
      · have hex : ∃ y ∈ s.toPublish.eraseIdx i, y = .access := exists_mem_eraseIdx hm hma ⟨_, h, rfl⟩
        obtain ⟨y, hy, rfl⟩ := hex
        exact .inl (.inr hy)
    · exact .inr h
  | @forward u rest hc hl =>
    obtain ⟨p, l, tr, he⟩ := forwardReadable_shape { s with channel := rest, received := s.received ++ [u] } s.received u
    rw [he]
    exact h.imp_left (Or.imp_left (hrest hc))
  | @hold u rest hc hl =>
    have hw : Current { s with channel := rest, received := s.received ++ [u] } := h.imp_left (Or.imp_left (hrest hc))
    unfold holdUpdate
    split
    · split_ifs <;> exact hw
    · exact hw
  | @refreshStart rest hc hl =>
    -- the refresh that starts now reads the set as it is
    refine .inr (.inr (.inr ⟨hl, s.refreshStarted + 1, fun r hr hk next hp => ?_, .inr ⟨?_, ?_⟩⟩))
    · rcases mem_snoc.1 hr with hr | hr
      · have hle : r.seq ≤ s.refreshStarted := hq.started r hr
        omega
      · rw [hr] at hp
        cases hp
    · exact Nat.lt_succ_of_le hq.applied
    · exact ⟨⟨s.refreshStarted + 1, .reading⟩, mem_append_right _ mem_cons_self, le_rfl, .inl rfl⟩
  | markDirty hc hl => exact .inr (.inr (.inl ⟨hl, .inl rfl⟩))
  | aclRead hr =>
    refine .inr (.inr (.inl ⟨by simp, .inr fun next hn => ?_⟩))
    exact (Acl.read.inj hn).symm
  | aclAgain hr hd => exact .inr (.inr (.inl ⟨by simp, .inr fun next hn => by simp at hn⟩))
  | @aclLoad next hr hd =>
    obtain ⟨p, l, tr, he⟩ := replay_shape (openChannel s next) [] (s.preAclUpdates.getD [])
    have hn : s.acl ≠ .loaded := by rw [hr]; simp
    rw [he]
    rcases h with h | h | ⟨-, h⟩ | ⟨hl, -⟩
    · exact .inl h
    · exact .inr (.inl h)
    · have hnext : next = s.granted := (h.resolve_left (by rw [hd]; simp)) next hr
      refine .inr (.inr (.inr ⟨rfl, s.refreshStarted, fun r hm => ?_, .inl ⟨le_rfl, hnext⟩⟩))
      have hnil : s.refreshes = [] := ho.noRefresh hn
      simp only [openChannel, hnil] at hm
      cases hm
    · exact absurd hl hn
  | @refreshRead i seq hi =>
    refine h.keep rfl rfl rfl rfl rfl rfl rfl rfl (fun r hr next hp => ?_) fun k hk hex => ?_
    · rcases mem_or_eq_of_mem_set hr with hr | rfl
      · exact .inl hr
      · exact .inr (RefreshPhase.read.inj hp).symm
    · exact exists_mem_set _ hi (fun hx => ⟨hx.1, .inr rfl⟩) hex
  | refreshFail hi => exact .inr (.inl rfl)
  | @refreshStale i seq next hi hs =>
    refine h.keep rfl rfl rfl rfl rfl rfl rfl rfl
      (fun r hr _ _ => .inl ((eraseIdx_sublist _ _).subset hr)) fun k hk hex => ?_
    refine exists_mem_eraseIdx hi (fun hx => ?_) hex
    have hks : k ≤ seq := hx.1
    omega
  | @refreshApply i seq next hi hs =>
    obtain ⟨rs, es, ts, sl, sg, -, hrs, he⟩ := applyRefresh_shape s i seq next
    have hstay : ∀ k, seq < k → (∃ r ∈ s.refreshes, k ≤ r.seq ∧ r.fresh s.granted) →
        ∃ r ∈ (applyRefresh s i seq next).refreshes, k ≤ r.seq ∧ r.fresh s.granted := by
      intro k hk hex
      have hnot : ¬ (k ≤ (⟨seq, .read next⟩ : Refresh).seq ∧ (⟨seq, .read next⟩ : Refresh).fresh s.granted) := fun hx =>
        absurd hx.1 (not_le.2 hk)
      unfold applyRefresh
      split_ifs
      · exact exists_mem_eraseIdx hi hnot hex
      · exact exists_mem_set _ hi (fun hx => absurd hx hnot) hex
    rw [he] at hstay ⊢
    rcases h with h | h | ⟨hn, -⟩ | ⟨hl, k, hall, hk⟩
    · exact .inl h
    · exact .inr (.inl h)
    · exact absurd (loaded_of_refresh ho hi) hn
    · refine .inr (.inr (.inr ⟨hl, k, fun r hr hkr n hp => ?_, ?_⟩))
      · rcases hrs r hr with hr | hne
        · exact hall r hr hkr n hp
        · exact absurd hp (hne n)
      · by_cases hks : k ≤ seq
        · exact .inl ⟨hks, hall ⟨seq, .read next⟩ (mem_of_getElem? hi) hks next rfl⟩
        · rcases hk with ⟨hka, -⟩ | ⟨-, hex⟩
          · omega
          · exact .inr ⟨not_le.1 hks, hstay k (not_le.1 hks) hex⟩
  | @refreshProbe i seq prev next ok hi =>
    refine h.keep rfl rfl rfl rfl rfl rfl rfl rfl (fun r hr n hp => ?_) fun k hk hex => ?_
    · rcases mem_or_eq_of_mem_set hr with hr | rfl
      · exact .inl hr
      · cases hp
    · exact exists_mem_set _ hi (fun hx => absurd hx.2 (by simp [Refresh.fresh])) hex
  | @refreshFinish i seq prev next deletedNow hi =>
    refine h.keep rfl rfl rfl rfl rfl rfl rfl rfl
      (fun r hr _ _ => .inl ((eraseIdx_sublist _ _).subset hr)) fun k hk hex => ?_
    exact exists_mem_eraseIdx hi (fun hx => absurd hx.2 (by simp [Refresh.fresh])) hex
  | _ => exact h

/-- once no message and no refresh is under way, the set served is the set granted -/
theorem readable_of_quiescent (h : Current s) (hq : Quiescent s) (hf : s.readFailed = false) :
    s.readable = s.granted := by
  obtain ⟨hpub, hchan, hacl, -, hrefreshes, -, -⟩ := hq
  rcases h with (h | h) | h | ⟨hn, -⟩ | ⟨-, k, -, ⟨-, he⟩ | ⟨-, r, hr, -⟩⟩
  · rw [hchan] at h
    cases h
  · rw [hpub] at h
    cases h
  · exact absurd h (by rw [hf]; simp)
  · exact absurd hacl hn
  · exact he
  · rw [hrefreshes] at hr
    cases hr

/-! ## The view and the set -/

/-- a grant's backfill of `d` that may still send it -/
def Task.bringing (d : ℕ) (t : Task) : Prop := t.origin = .grant ∧ t.doc = d ∧ t.phase ≠ .finished

/-- why a readable document may be missing from the view -/
def Joining (d : ℕ) (s : St) : Prop :=
  d ∈ s.silentGain ∨ (∃ t ∈ s.tasks, t.bringing d) ∨ ∃ r ∈ s.refreshes, r.granting d

/-- why a document in the view may not be readable -/
def Leaving (d : ℕ) (s : St) : Prop := d ∈ s.silentLoss ∨ ∃ r ∈ s.refreshes, r.revoking d

structure ViewInv (d : ℕ) (s : St) : Prop where
  shutOut : shut d s.trace = true → d ∉ s.readable
  closed : Sealed d false s.trace
  revoking : ∀ r ∈ s.refreshes, r.revoking d → d ∉ s.readable
  leaving : s.acl = .loaded → inView s d = true → d ∉ s.readable → Leaving d s
  joining : s.acl = .loaded → d ∈ s.readable → inView s d = false → Joining d s

/-- frames that change neither flag of `d` -/
def QuietOn (d : ℕ) (es : List Event) : Prop := ∀ e ∈ es, brings d e = false ∧ revokes d e = false ∧ reopens d e = false

theorem quietOn_nil (d : ℕ) : QuietOn d [] := fun _ he => by simp at he

theorem quietOn_live (d : ℕ) (u : Upd) (heard : List Upd) : QuietOn d [.live u heard] := fun e he => by
  rw [mem_singleton.1 he]
  exact ⟨rfl, rfl, rfl⟩

theorem flag_quiet (h : ∀ e ∈ es, on e = false ∧ off e = false) (b : Bool) : flag on off b es = b := by
  rw [flag_never_on fun e he => (h e he).1]
  have hall : (es.all fun e => !off e) = true := all_eq_true.2 fun e he => by rw [(h e he).2]; rfl
  rw [hall, Bool.and_true]

theorem sealed_of_quiet {b : Bool} (h : QuietOn d es) (hc : ∀ e ∈ es, content d e = true → b = false) :
    Sealed d b es := by
  induction es with
  | nil => trivial
  | cons e es ih =>
    obtain ⟨-, hrev, hre⟩ := h e mem_cons_self
    refine ⟨hc e mem_cons_self, ?_⟩
    rw [hrev, hre, Bool.false_or, Bool.not_false, Bool.and_true]
    exact ih (fun x hx => h x (.tail _ hx)) fun x hx => hc x (.tail _ hx)

/-- a step that keeps the set and the view of `d`, and every reason for a difference -/
theorem ViewInv.keep {t : St} (es : List Event) (h : ViewInv d s) (hr : t.readable = s.readable) (ha : t.acl = s.acl)
    (hi : t.initial = s.initial) (htr : t.trace = s.trace ++ es) (hq : QuietOn d es)
    (hc : ∀ e ∈ es, content d e = true → d ∈ s.readable)
    (hrev : (∃ r ∈ t.refreshes, r.revoking d) → ∃ r ∈ s.refreshes, r.revoking d) (hl : Leaving d s → Leaving d t)
    (hj : d ∈ s.readable → Joining d s → Joining d t) : ViewInv d t := by
  have hview : inView t d = inView s d := by
    unfold inView
    rw [hi, htr, flag_append, flag_quiet fun e he => ⟨(hq e he).1, (hq e he).2.1⟩]
  have hshut : shut d t.trace = shut d s.trace := by
    unfold shut
    rw [htr, flag_append, flag_quiet fun e he => (hq e he).2]
  refine ⟨?_, ?_, fun r hm hd => ?_, ?_, ?_⟩
  · rw [hshut, hr]
    exact h.shutOut
  · rw [htr, sealed_append]
    refine ⟨h.closed, sealed_of_quiet hq fun e he hce => ?_⟩
    by_contra hn
    exact h.shutOut (by simpa [shut] using hn) (hc e he hce)
  · obtain ⟨r', hm', hd'⟩ := hrev ⟨r, hm, hd⟩
    rw [hr]
    exact h.revoking r' hm' hd'
  · rw [ha, hview, hr]
    exact fun hacl hv hn => hl (h.leaving hacl hv hn)
  · rw [ha, hview, hr]
    exact fun hacl hm hv => hj hm (h.joining hacl hm hv)

theorem viewInv_forward (h : ViewInv d s) (heard : List Upd) (u : Upd) : ViewInv d (forwardReadable s heard u) := by
  rcases forwardReadable_eq s heard u with ⟨-, he⟩ | ⟨-, he⟩ | ⟨hr, -, -, -, he⟩
  · rw [he]
    exact h
  · rw [he]
    exact h.keep [] rfl rfl rfl (by simp [markPending]) (quietOn_nil d) (by simp) id id fun _ => id
  · rw [he]
    refine h.keep [.live u heard] rfl rfl rfl rfl (quietOn_live d u heard) (fun e hm hc => ?_) id id fun _ => id
    rw [mem_singleton.1 hm] at hc
    have hud : u.doc = d := by simpa [content] using hc
    rwa [← hud]

theorem viewInv_replay (us : List Upd) (h : ViewInv d s) (heard : List Upd) : ViewInv d (replay s heard us) := by
  induction us generalizing s heard with
  | nil => exact h
  | cons u us ih => exact ih (viewInv_forward h heard u) _

/-- the handshake's set is the view to start from -/
theorem viewInv_open (next : List ℕ) (ho : FanoutOrder s) (hn : s.acl ≠ .loaded) :
    ViewInv d (openChannel s next) := by
  have htr : (openChannel s next).trace = [.access next] := by simp [openChannel, (ho.early hn).1]
  have hview : inView (openChannel s next) d = decide (d ∈ next) := by
    unfold inView
    rw [htr]
    simp [brings, revokes]
    rfl
  refine ⟨fun hs => ?_, ?_, fun r hr => ?_, fun _ hv hd => ?_, fun _ hd hv => ?_⟩
  · rw [htr] at hs
    simp [shut, revokes] at hs
  · rw [htr]
    exact sealed_of_no_content (by simp [content]) false
  · have hnil : s.refreshes = [] := ho.noRefresh hn
    simp only [openChannel, hnil] at hr
    cases hr
  · rw [hview] at hv
    exact absurd (of_decide_eq_true hv) hd
  · rw [hview] at hv
    exact absurd hd (of_decide_eq_false hv)

variable {next : List ℕ}

/-- a refresh replaces the set, and has yet to say what it changed -/
theorem viewInv_replace {i seq : ℕ} (h : ViewInv d s) (hi : s.refreshes[i]? = some ⟨seq, .read next⟩)
    (hok : d ∈ next → ∀ r ∈ s.refreshes, ¬ r.revoking d) :
    ViewInv d { replaceReadable s seq next with refreshes := s.refreshes.set i ⟨seq, .probing s.readable next⟩ } := by
  have hnew : (⟨seq, .probing s.readable next⟩ : Refresh) ∈ s.refreshes.set i ⟨seq, .probing s.readable next⟩ :=
    List.mem_iff_getElem?.2 ⟨i, List.getElem?_set_self (List.getElem?_eq_some_iff.1 hi).1⟩
  have hview : flag (brings d) (revokes d) (decide (d ∈ s.initial)) (s.trace ++ [.access next]) = inView s d := by
    rw [flag_append]
    simp [brings, revokes, inView]
  refine ⟨fun hs hd => ?_, ?_, fun r hr hrev hd => ?_, fun hacl hv hd => ?_, fun hacl hd hv => ?_⟩
  · simp only [replaceReadable, shut, flag_append, flag_cons, flag_nil, revokes, reopens, Bool.false_or,
      Bool.and_eq_true] at hs
    exact absurd (show d ∈ next from hd) (by simpa using hs.2)
  · simp only [replaceReadable]
    rw [sealed_append]
    exact ⟨h.closed, sealed_of_no_content (by simp [content]) _⟩
  · rcases mem_or_eq_of_mem_set hr with hr | rfl
    · exact hok hd r hr hrev
    · exact hrev.2 hd
  · have hin : inView s d = true := hview ▸ hv
    by_cases hold : d ∈ s.readable
    · exact .inr ⟨_, hnew, hold, hd⟩
    · rcases h.leaving hacl hin hold with hl | hl
      · exact .inl (mem_filter.2 ⟨hl, by simpa [replaceReadable] using hd⟩)
      · exact .inr (exists_mem_set _ hi (fun hx => absurd hx id) hl)
  · have hin : inView s d = false := hview ▸ hv
    by_cases hold : d ∈ s.readable
    · rcases h.joining hacl hold hin with hj | hj | hj
      · exact .inl (mem_filter.2 ⟨hj, by simpa using hold⟩)
      · exact .inr (.inl hj)
      · exact .inr (.inr (exists_mem_set _ hi (fun hx => absurd hx id) hj))
    · exact .inr (.inr ⟨_, hnew, hold, hd⟩)

/-- the refresh is past its lookup, or needs none -/
def Refresh.announces (r : Refresh) (prev next : List ℕ) : Prop :=
  r.phase = .probing prev next ∨ ∃ deletedNow, r.phase = .probed prev next deletedNow

variable {prev : List ℕ}

theorem revoking_iff {r : Refresh} (h : r.announces prev next) (d : ℕ) : r.revoking d ↔ d ∈ prev ∧ d ∉ next := by
  rcases h with h | ⟨dn, h⟩ <;> simp [Refresh.revoking, h]

theorem granting_iff {r : Refresh} (h : r.announces prev next) (d : ℕ) : r.granting d ↔ d ∉ prev ∧ d ∈ next := by
  rcases h with h | ⟨dn, h⟩ <;> simp [Refresh.granting, h]

/-- a refresh says what it changed: `d` leaves the view, or comes, or stays as it is -/
theorem viewInv_announce {i : ℕ} {r : Refresh} (h : ViewInv d s) (hi : s.refreshes[i]? = some r)
    (hr : r.announces prev next) (deletedNow : List ℕ) :
    ViewInv d (announce { s with refreshes := s.refreshes.eraseIdx i } prev next deletedNow) := by
  set lost := (prev.filter fun e => e ∉ next).filter fun e => e ∉ deletedNow with hlost
  set frames := lossFrames s.batches lost with hframes
  set added := next.filter fun e => e ∉ prev with hadded
  set tail : List Event := if BULK_REGRANT_MIN ≤ added.length ∧ s.bulkRegrant = true then [.bootstrap s.readable] else []
    with htail
  have hloss : LossOnly frames := lossOnly_lossFrames s.batches lost
  have hany : frames.any (revokes d) = decide (d ∈ lost) := lossFrames_revokes d s.batches lost
  have htailq : ∀ e ∈ tail, revokes d e = false ∧ reopens d e = false ∧ content d e = false := by
    intro e he
    rw [htail] at he
    split_ifs at he
    · rw [mem_singleton.1 he]
      exact ⟨rfl, rfl, rfl⟩
    · simp at he
  have hbring : tail.any (brings d) = true → d ∈ s.readable := by
    rw [htail]
    split_ifs
    · simp [brings]
    · simp
  -- what the frames make of the view and of the seal
  have hview : flag (brings d) (revokes d) (decide (d ∈ s.initial)) (s.trace ++ frames ++ tail) =
      ((inView s d && !decide (d ∈ lost)) || tail.any (brings d)) := by
    have hnone : (frames.all fun e => !revokes d e) = !decide (d ∈ lost) := by
      rw [← hany, ← not_any_eq_all_not]
    rw [flag_append, flag_append, flag_never_off fun e he => (htailq e he).1,
      flag_never_on fun e he => (hloss e he d).1, hnone]
    rfl
  have hshut : shut d (s.trace ++ frames ++ tail) = (shut d s.trace || decide (d ∈ lost)) := by
    unfold shut
    rw [flag_append, flag_append, flag_quiet fun e he => ⟨(htailq e he).1, (htailq e he).2.1⟩,
      flag_never_off fun e he => (hloss e he d).2.1, hany]
  have hgone : d ∈ lost → d ∉ s.readable := by
    intro hd
    have hmem : d ∈ prev ∧ d ∉ deletedNow ∧ d ∉ next := by simpa [hlost] using hd
    exact h.revoking r (mem_of_getElem? hi) ((revoking_iff hr d).2 ⟨hmem.1, hmem.2.2⟩)
  refine ⟨fun hs hd => ?_, ?_, fun x hx hrev => ?_, fun hacl hv hd => ?_, fun hacl hd hv => ?_⟩
  · have hs' : shut d (s.trace ++ frames ++ tail) = true := hs
    rw [hshut, Bool.or_eq_true] at hs'
    rcases hs' with hs' | hs'
    · exact h.shutOut hs' hd
    · exact hgone (of_decide_eq_true hs') hd
  · show Sealed d false (s.trace ++ frames ++ tail)
    rw [sealed_append, sealed_append]
    exact ⟨⟨h.closed, sealed_of_no_content (fun e he => (hloss e he d).2.2) _⟩,
      sealed_of_no_content (fun e he => (htailq e he).2.2) _⟩
  · exact h.revoking x ((eraseIdx_sublist _ _).subset hx) hrev
  · have hv' : ((inView s d && !decide (d ∈ lost)) || tail.any (brings d)) = true := hview ▸ hv
    rw [Bool.or_eq_true, Bool.and_eq_true] at hv'
    rcases hv' with ⟨hin, hnl⟩ | hb
    · have hnot : d ∉ lost := by simpa using hnl
      rcases h.leaving hacl hin hd with hl | hl
      · exact .inl (mem_append_left _ hl)
      · by_cases hthis : r.revoking d
        · -- it fell out as deleted
          have hpn := (revoking_iff hr d).1 hthis
          have hdel : d ∈ deletedNow := by
            by_contra hndel
            exact hnot (by simp [hlost, hpn, hndel])
          exact .inl (mem_append_right _ (by simp [hpn, hdel]))
        · exact .inr (exists_mem_eraseIdx hi hthis hl)
    · exact absurd (hbring hb) hd
  · have hv' : ((inView s d && !decide (d ∈ lost)) || tail.any (brings d)) = false := hview ▸ hv
    rw [Bool.or_eq_false_iff] at hv'
    obtain ⟨hin, hb⟩ := hv'
    have hnot : d ∉ lost := fun hm => hgone hm hd
    have hold : inView s d = false := by simpa [hnot] using hin
    have hbulk : ¬ (BULK_REGRANT_MIN ≤ added.length ∧ s.bulkRegrant = true) := fun hbulk => by
      have hnb : d ∉ s.readable := by simpa [htail, if_pos hbulk, brings] using hb
      exact hnb hd
    have htasks : (announce { s with refreshes := s.refreshes.eraseIdx i } prev next deletedNow).tasks =
        s.tasks ++ added.map fun e => ⟨e, .grant, .parked⟩ := if_neg hbulk
    rcases h.joining hacl hd hold with hj | ⟨t, ht, hj⟩ | hj
    · exact .inl hj
    · refine .inr (.inl ⟨t, ?_, hj⟩)
      rw [htasks]
      exact mem_append_left _ ht
    · by_cases hthis : r.granting d
      · have hpn := (granting_iff hr d).1 hthis
        refine .inr (.inl ⟨⟨d, .grant, .parked⟩, ?_, rfl, rfl, by simp⟩)
        rw [htasks]
        exact mem_append_right _ (mem_map.2 ⟨d, by simp [hadded, hpn], rfl⟩)
      · exact .inr (.inr (exists_mem_eraseIdx hi hthis hj))

theorem viewInv_init (d : ℕ) (granted : List ℕ) (committed pending held has : List Upd)
    (liveOnly batches bulkRegrant : Bool) :
    ViewInv d (init granted committed pending held has liveOnly batches bulkRegrant) :=
  ⟨by simp [init, shut], trivial, by simp [init], by simp [init], by simp [init]⟩

section

variable {t : St} (h : ViewInv d s) (hr : t.readable = s.readable) (ha : t.acl = s.acl) (hi : t.initial = s.initial)
    (htr : t.trace = s.trace) (hsl : t.silentLoss = s.silentLoss)

include h hr ha hi htr hsl

/-- an edit of the refreshes that loses no announcement -/
theorem ViewInv.keepRefreshes (hsg : t.silentGain = s.silentGain) (hts : t.tasks = s.tasks)
    (hrev : (∃ r ∈ t.refreshes, r.revoking d) ↔ ∃ r ∈ s.refreshes, r.revoking d)
    (hgr : (∃ r ∈ t.refreshes, r.granting d) ↔ ∃ r ∈ s.refreshes, r.granting d) : ViewInv d t := by
  refine h.keep [] hr ha hi (by rw [htr, append_nil]) (quietOn_nil d) (by simp) hrev.1 ?_ fun _ => ?_
  · rw [Leaving, Leaving, hsl]
    exact Or.imp_right hrev.2
  · rw [Joining, Joining, hsg, hts]
    exact Or.imp_right (Or.imp_right hgr.2)

/-- an edit of the backfills that loses none still bringing `d`, unless it says so -/
theorem ViewInv.keepTasks (hrs : t.refreshes = s.refreshes) (hsg : ∀ e ∈ s.silentGain, e ∈ t.silentGain)
    (hts : d ∈ s.readable → (∃ x ∈ s.tasks, x.bringing d) → d ∈ t.silentGain ∨ ∃ x ∈ t.tasks, x.bringing d) :
    ViewInv d t := by
  refine h.keep [] hr ha hi (by rw [htr, append_nil]) (quietOn_nil d) (by simp) ?_ ?_ fun hd hj => ?_
  · rw [hrs]
    exact id
  · rw [Leaving, Leaving, hsl, hrs]
    exact id
  · rcases hj with hj | hj | hj
    · exact .inl (hsg d hj)
    · exact (hts hd hj).imp_right .inl
    · exact .inr (.inr (by rw [hrs]; exact hj))

end

theorem viewInv_step (h : ViewInv d s) (ho : FanoutOrder s) (ha : NotOvertaken d s a) : ViewInv d (step s a) := by
  have herase : ∀ {i x} {P : Refresh → Prop}, s.refreshes[i]? = some x → ¬ P x →
      ((∃ r ∈ s.refreshes.eraseIdx i, P r) ↔ ∃ r ∈ s.refreshes, P r) := fun {i x P} hi hx =>
    ⟨fun ⟨r, hr, hp⟩ => ⟨r, (eraseIdx_sublist _ _).subset hr, hp⟩, exists_mem_eraseIdx hi hx⟩
  have hset : ∀ {i x y} {P : Refresh → Prop}, s.refreshes[i]? = some x → (P x ↔ P y) →
      ((∃ r ∈ s.refreshes.set i y, P r) ↔ ∃ r ∈ s.refreshes, P r) := fun {i x y P} hi hxy =>
    ⟨fun ⟨r, hr, hp⟩ => by
      rcases mem_or_eq_of_mem_set hr with hr | rfl
      · exact ⟨r, hr, hp⟩
      · exact ⟨x, mem_of_getElem? hi, hxy.2 hp⟩, exists_mem_set y hi hxy.1⟩
  refine step_preserves (ViewInv d) h fun t ht => ?_
  cases ht with
  | @forward u rest hc hl =>
    have hw : ViewInv d { s with channel := rest, received := s.received ++ [u] } :=
      ⟨h.shutOut, h.closed, h.revoking, h.leaving, h.joining⟩
    exact viewInv_forward hw s.received u
  | hold hc hl =>
    unfold holdUpdate
    split
    · split_ifs <;> exact ⟨h.shutOut, h.closed, h.revoking, h.leaving, h.joining⟩
    · exact ⟨h.shutOut, h.closed, h.revoking, h.leaving, h.joining⟩
  | @refreshStart rest hc hl =>
    have hlast : ∀ {P : Refresh → Prop}, ¬ P ⟨s.refreshStarted + 1, .reading⟩ →
        ((∃ r ∈ s.refreshes ++ [⟨s.refreshStarted + 1, .reading⟩], P r) ↔ ∃ r ∈ s.refreshes, P r) := fun {P} hno =>
      ⟨fun ⟨r, hr, hp⟩ => by
        rcases mem_append.1 hr with hr | hr
        · exact ⟨r, hr, hp⟩
        · exact absurd (mem_singleton.1 hr ▸ hp) hno, fun ⟨r, hr, hp⟩ => ⟨r, mem_append_left _ hr, hp⟩⟩
    exact h.keepRefreshes rfl rfl rfl rfl rfl rfl rfl (hlast id) (hlast id)
  | aclRead hr =>
    exact ⟨h.shutOut, h.closed, h.revoking, fun hl => by simp at hl, fun hl => by simp at hl⟩
  | @aclAgain next hr hd =>
    have hn : s.acl ≠ .loaded := by rw [hr]; simp
    refine ⟨fun hs => ?_, h.closed, fun r hm => ?_, fun hl => by simp at hl, fun hl => by simp at hl⟩
    · have hs' : shut d s.trace = true := hs
      rw [(ho.early hn).1] at hs'
      simp [shut] at hs'
    · have hm' : r ∈ s.refreshes := hm
      rw [ho.noRefresh hn] at hm'
      cases hm'
  | @aclLoad next hr hd =>
    have hn : s.acl ≠ .loaded := by rw [hr]; simp
    exact viewInv_replay _ (viewInv_open next ho hn) []
  | startBackfill hl hb hm =>
    refine h.keepTasks rfl rfl rfl rfl rfl rfl (fun _ he => he) fun _ hj => .inr ?_
    obtain ⟨x, hx, hp⟩ := hj
    exact ⟨x, mem_append_left _ hx, hp⟩
  | refreshRead hi | @refreshProbe i seq prev next ok hi =>
    exact h.keepRefreshes rfl rfl rfl rfl rfl rfl rfl (hset hi Iff.rfl) (hset hi Iff.rfl)
  | refreshFail hi | refreshStale hi _ =>
    exact h.keepRefreshes rfl rfl rfl rfl rfl rfl rfl (herase hi id) (herase hi id)
  | @refreshApply i seq next hi hs =>
    have hok : d ∈ next → ∀ r ∈ s.refreshes, ¬ r.revoking d := by
      simp only [NotOvertaken, hi] at ha
      exact ha
    have hrep := viewInv_replace h hi hok
    unfold applyRefresh
    split_ifs
    · have hlen : i < s.refreshes.length := (List.getElem?_eq_some_iff.1 hi).1
      have hann := viewInv_announce hrep (getElem?_set_self hlen) (.inl rfl) []
      rwa [eraseIdx_set_eq] at hann
    · exact hrep
  | @refreshFinish i seq prev next deletedNow hi => exact viewInv_announce h hi (.inr ⟨deletedNow, rfl⟩) deletedNow
  | @taskAdmit i t hi hp =>
    refine h.keepTasks rfl rfl rfl rfl rfl rfl (fun _ he => he) fun hd hj => .inr (exists_mem_set _ hi ?_ hj)
    rintro ⟨horigin, hdoc, -⟩
    refine ⟨horigin, hdoc, ?_⟩
    rw [hdoc, if_pos hd]
    simp
  | @taskSilent i t ok hi hp hn =>
    have hgain : ∀ e ∈ s.silentGain, e ∈ endSilently s t := by
      intro e he
      unfold endSilently
      split_ifs
      · exact mem_append_left _ he
      · exact he
    refine h.keepTasks rfl rfl rfl rfl rfl rfl hgain fun _ hj => ?_
    by_cases hthis : t.bringing d
    · refine .inl ?_
      unfold endSilently
      rw [if_pos hthis.1, hthis.2.1]
      exact mem_append_right _ mem_cons_self
    · exact .inr (exists_mem_set _ hi (fun hx => absurd hx hthis) hj)
  | @taskRead i t hi hp hn =>
    refine h.keepTasks rfl rfl rfl rfl rfl rfl (fun _ he => he) fun _ hj => .inr (exists_mem_set _ hi ?_ hj)
    rintro ⟨horigin, hdoc, -⟩
    exact ⟨horigin, hdoc, by simp⟩
  | @taskSend i t covers hi hp =>
    by_cases hsend : t.doc = d ∧ t.doc ∈ s.readable
    · -- the state frame puts the document in the view
      obtain ⟨hdoc, hread⟩ := hsend
      have hd : d ∈ s.readable := hdoc ▸ hread
      rw [if_pos hread]
      have hview : flag (brings d) (revokes d) (decide (d ∈ s.initial)) (s.trace ++ [.state t.doc covers]) = true := by
        rw [flag_append]
        simp [brings, hdoc]
      refine ⟨fun _ => ?_, ?_, h.revoking, fun _ _ hn => absurd hd hn, fun _ _ hv => absurd (hview.symm.trans hv) (by simp)⟩
      · rename_i hs
        rw [shut, flag_append] at hs
        exact h.shutOut (by simpa [shut, revokes, reopens] using hs)
      · rw [sealed_append]
        refine ⟨h.closed, fun _ => ?_, trivial⟩
        by_contra hn
        exact h.shutOut (by simpa [shut] using hn) hd
    · -- another document, or nothing sent
      refine h.keep (if t.doc ∈ s.readable then [.state t.doc covers] else []) rfl rfl rfl
        (by dsimp only; split_ifs <;> simp) ?_ ?_ id id fun hd hj => ?_
      · intro e he
        split_ifs at he with hread
        · rw [mem_singleton.1 he]
          exact ⟨by simpa [brings] using fun hdoc => hsend ⟨hdoc, hread⟩, rfl, rfl⟩
        · simp at he
      · intro e he hc
        split_ifs at he with hread
        · rw [mem_singleton.1 he] at hc
          exact absurd ⟨of_decide_eq_true hc, hread⟩ hsend
        · simp at he
      · refine hj.imp_right (Or.imp_left (exists_mem_set _ hi fun hx => ?_))
        exact absurd ⟨hx.2.1, hx.2.1 ▸ hd⟩ hsend
  | @taskEnd i t hi hp =>
    refine h.keepTasks rfl rfl rfl rfl rfl rfl (fun _ he => he) fun _ hj => .inr (exists_mem_eraseIdx hi ?_ hj)
    exact fun hx => hx.2.2 hp
  | @loopNext e rest hl hr hp =>
    refine h.keepTasks rfl rfl rfl rfl rfl rfl (fun _ he => he) fun _ hj => .inr ?_
    obtain ⟨x, hx, hb⟩ := hj
    exact ⟨x, mem_append_left _ hx, hb⟩
  | _ => exact ⟨h.shutOut, h.closed, h.revoking, h.leaving, h.joining⟩

/-! ## Main result -/

/-- what holds in every state of a run that `NotOvertaken` allows -/
structure AccessInv (d : ℕ) (s : St) : Prop where
  order : FanoutOrder s
  seq : SeqOk s
  current : Current s
  view : ViewInv d s

theorem accessInv_step (h : AccessInv d s) (ha : NotOvertaken d s a) : AccessInv d (step s a) :=
  ⟨fanoutOrder_step h.order, seqOk_step h.seq, current_step h.current h.seq h.order, viewInv_step h.view h.order ha⟩

/-- **The view follows the access.** In a quiescent state the set served is the set granted, unless a refresh failed to
read it; a document in the client's view is served, or left the set as deleted; a document served is in the view, or its
backfill ended without a frame (nothing stored, or the read failed). In every state, no content of a document follows a
frame that revokes it before the set holds it again. -/
theorem view_follows_access (d : ℕ) (granted : List ℕ) (committed pending held has : List Upd)
    (liveOnly batches bulkRegrant : Bool) (as : List Action)
    (h : Machine.Guarded step (NotOvertaken d) (init granted committed pending held has liveOnly batches bulkRegrant) as) :
    let s := run (init granted committed pending held has liveOnly batches bulkRegrant) as
    NoLeak d s.trace ∧ (Quiescent s →
      (s.readFailed = false → s.readable = s.granted) ∧
      (inView s d = true → d ∈ s.readable ∨ d ∈ s.silentLoss) ∧
      (d ∈ s.readable → inView s d = true ∨ d ∈ s.silentGain)) := by
  intro s
  have hinit : AccessInv d (init granted committed pending held has liveOnly batches bulkRegrant) :=
    ⟨fanoutOrder_init .., seqOk_init .., current_init .., viewInv_init ..⟩
  have hinv : AccessInv d s := Machine.run_inv (fun _ _ hi ha => accessInv_step hi ha) hinit h
  refine ⟨noLeak_of_sealed hinv.view.closed, fun hq => ⟨readable_of_quiescent hinv.current hq, fun hv => ?_, fun hd => ?_⟩⟩
  · obtain ⟨-, -, hacl, -, hrefreshes, -, -⟩ := hq
    by_contra hno
    rcases hinv.view.leaving hacl hv (fun hd => hno (.inl hd)) with hl | ⟨r, hr, -⟩
    · exact hno (.inr hl)
    · rw [hrefreshes] at hr
      cases hr
  · obtain ⟨-, -, hacl, -, hrefreshes, htasks, -⟩ := hq
    cases hv : inView s d with
    | true => exact .inl rfl
    | false =>
      rcases hinv.view.joining hacl hd hv with hj | ⟨t, ht, -⟩ | ⟨r, hr, -⟩
      · exact .inr hj
      · rw [htasks] at ht
        cases ht
      · rw [hrefreshes] at hr
        cases hr

/-- the handshake of a connection, live only -/
def openedLive : List Action := [.aclRead, .aclApply]

/-- document 0 is revoked, then granted again -/
def regrantRun : List Action :=
  openedLive ++ [.setGrants [] [], .publish 0, .receive, .refreshRead 0 true, .refreshApply 0, .refreshProbe 0 true,
    .refreshFinish 0, .setGrants [0] [], .publish 0, .receive, .refreshRead 0 true, .refreshApply 0, .taskAdmit 0,
    .taskRead 0 true, .taskSend 0, .taskEnd 0]

theorem regranted_doc_in_view :
    let s := run (init [0] [⟨0, 0⟩] [] [] [] true true false) regrantRun
    NoLeak 0 s.trace ∧ inView s 0 = true := by
  have h := view_follows_access 0 [0] [⟨0, 0⟩] [] [] [] true true false regrantRun (by decide)
  exact ⟨h.1, ((h.2 (by decide)).2.2 (by decide)).resolve_right (by decide)⟩

/-- document 0 is soft-deleted -/
def deletedRun : List Action :=
  openedLive ++ [.setGrants [] [0], .publish 0, .receive, .refreshRead 0 true, .refreshApply 0, .refreshProbe 0 true,
    .refreshFinish 0]

/-- **A deleted document stays in the view.** It leaves the readable set without a frame: the client learns of it from the
registry's tombstones. -/
theorem deleted_doc_stays_in_view :
    let s := run (init [0] [⟨0, 0⟩] [] [] [] true true false) deletedRun
    Quiescent s ∧ s.readable = s.granted ∧ inView s 0 = true ∧ 0 ∉ s.readable := by decide

-- what `NotOvertaken` keeps out: the second refresh grants document 0 again while the first looks up what fell out, and
-- the frame that revokes it comes last
example :
    let s := run (init [0] [⟨0, 0⟩] [] [] [] true true false) (openedLive ++ [.setGrants [] [], .publish 0, .receive,
      .refreshRead 0 true, .refreshApply 0, .setGrants [0] [], .publish 0, .receive, .refreshRead 1 true, .refreshApply 1,
      .taskAdmit 0, .taskRead 0 true, .taskSend 0, .taskEnd 0, .refreshProbe 0 true, .refreshFinish 0])
    Quiescent s ∧ s.readable = s.granted ∧ inView s 0 = false ∧ 0 ∈ s.readable := by decide

end Baalda.VaultChannel
