/-
The accounts of a batch push (`lib/sync/docBatchPush.ts DocBatchPusher.run`).

- `batch_accounting`: in every run, requests keep within the limits, at most one is on the wire, and an item is marked
  pushed only where the server answered `applied` or `skipped` for it, or it was empty on both sides. Where each throw
  is harmless (`Calm`), no run is rejected, every run that goes on as long as it can returns, and by then every item has
  one outcome and one progress report;
- `chunk_lost`: a `markPushed` that throws in `settle` leaves the rest of the chunk without either.
-/
import Baalda.Desktop.BatchInvariant

namespace Baalda.BatchPusher

open List

variable {D : Type*} [DecidableEq D]

/-! ## Every run ends -/

/-- what is left to do -/
def St.left (s : St D) : ℕ :=
  (s.items.map fun x => x.stage.weight).sum + 8 * s.pending.length + (s.chain.map Link.weight).sum + s.phase.weight

/-- the steps of a run whose throws are harmless -/
def CalmStep (width : ℕ) (s : St D) (a : Action D) : Prop := (next width s a).isSome ∧ Calm s a

namespace St

variable {s : St D} {i k : ℕ} {x : Item D} {l : Link D} {p : Prepared D} {turn : Turn} {th : Throws}

theorem left_setItem (hx : s.items[i]? = some x) (x' : Item D) :
    (s.setItem i x').left + x.stage.weight = s.left + x'.stage.weight := by
  have hsum := Slots.sum_map_set (fun x : Item D => x.stage.weight) hx x'
  simp only [left, setItem]
  omega

theorem left_setLink (hl : s.chain[k]? = some l) (l' : Link D) :
    (s.setLink k l').left + l.weight = s.left + l'.weight := by
  have hsum := Slots.sum_map_set Link.weight hl l'
  simp only [left, setLink]
  omega

theorem left_performs (s : St D) (i : ℕ) (calls : List Call) : (s.performs i calls).left = s.left := by simp [left]

theorem left_flushPending (s : St D) : s.flushPending.left ≤ s.left := by
  unfold flushPending
  split
  · exact le_rfl
  · next hne =>
    have hpos := length_pos_of_ne_nil hne
    simp only [left, map_append, map_cons, map_nil, sum_append, sum_cons, sum_nil,
      Link.weight, length_nil]
    omega

theorem left_flushIf (s : St D) (c : Bool) : (s.flushIf c).left ≤ s.left := by
  unfold flushIf
  split
  · exact left_flushPending s
  · exact le_rfl

theorem left_enqueue (s : St D) (p : Prepared D) : (s.enqueue p).left ≤ s.left + 8 := by
  have hpush : ∀ s : St D, (s.push p).left = s.left + 8 := by
    intro s
    simp only [left, push, length_append, length_singleton]
    omega
  refine (left_flushIf _ _).trans ?_
  rw [hpush]
  exact Nat.add_le_add_right (left_flushIf s _) 8

theorem open_weight {stage : Stage} (h : stage.isOpen = true) : 10 < stage.weight := by
  cases stage <;> simp_all [Stage.isOpen, Stage.weight]

theorem left_block (hx : s.items[i]? = some x) (calls : List Call) {stage : Stage}
    (hless : stage.weight < x.stage.weight) :
    ((s.performs i calls).setItem i { x with stage := stage }).left < s.left := by
  have h := left_setItem (s := s.performs i calls) (by rw [performs_items]; exact hx) { x with stage := stage }
  rw [left_performs] at h
  simp only at h
  omega

theorem left_take (hx : s.items[i]? = some x) (hopen : x.stage.isOpen = true)
    (hsound : turn.Sound x.work x.stage) : (s.take i x th turn).left < s.left := by
  have hw := open_weight hopen
  have hcaught : ∀ s : St D, s.items[i]? = some x → (s.caught i x th).left < s.left := by
    intro s hx
    exact left_block hx _ (Nat.lt_of_le_of_lt (by decide) hw)
  cases turn with
  | awaits stage =>
    have h := left_setItem hx { x with stage := stage }
    have hless := hsound.2.2
    simp only [take] at h ⊢
    omega
  | readsFile localEmpty =>
    have h := left_setItem hx { x with stage := .reading, localEmpty := localEmpty }
    have hless := hsound.2.2
    simp only [take] at h ⊢
    omega
  | stops calls =>
    simp only [take]
    split
    · have h := hcaught (s.performs i (upTo th.first calls).1) (by rw [performs_items]; exact hx)
      rwa [left_performs] at h
    · exact left_block hx calls (Nat.lt_of_le_of_lt (by decide) hw)
  | enqueues bytes seeded =>
    have h := left_setItem (s := s.enqueue ⟨i, x.work.docId, bytes, seeded⟩) (by rw [enqueue_items]; exact hx)
      { x with stage := .releasing }
    have hle := left_enqueue s ⟨i, x.work.docId, bytes, seeded⟩
    have hone : Stage.releasing.weight = 1 := rfl
    simp only [take] at h ⊢
    omega
  | throws => exact hcaught s hx

theorem left_links (hl : s.chain[k]? = some l) {l' : Link D} (hless : l'.weight < l.weight) :
    (s.setLink k l').left < s.left := by
  have h := left_setLink hl l'
  omega

end St

section

variable {work : List (DocPushWork D)} {s s' : St D} {width : ℕ} {a : Action D}

/-- every step leaves less to do -/
theorem next_left (hnext : next width s a = some s') : s'.left < s.left := by
  cases next_cases hnext with
  | phase p hless =>
    simp only [St.left, St.setPhase]
    omega
  | drains hphase =>
    have hflush := St.left_flushPending s
    have hsame := St.flushPending_phase s
    simp only [St.left, St.setPhase, hsame, hphase, Phase.weight] at hflush ⊢
    omega
  | block _ hx hunder hless => exact St.left_block hx _ hless
  | turn hx hunder hopen hsound => exact St.left_take hx hopen hsound
  | @file i x th fileBytes hx hstage =>
    have hreads : (s.reads ⟨i, x.localEmpty, fileBytes⟩).items[i]? = some x := hx
    exact St.left_take hreads (by rw [hstage]; rfl) (hstage ▸ fileTurn_sound fileBytes)
  | link hl hopen hturn hanswers hok hsame hless => exact St.left_links hl hless
  | @settles k l p rest io t hl hstage =>
    have hless : ∀ threw : Bool,
        ({ l with stage := if threw then .done else .settling rest } : Link D).weight < l.weight := by
      intro threw
      cases threw <;> simp [Link.weight, hstage]
    have hlink := St.left_links (s := s.performs p.item (upTo t (settleCalls l.answers p io)).1)
      (by rw [St.performs_chain]; exact hl) (hless (upTo t (settleCalls l.answers p io)).2)
    rw [St.left_performs] at hlink
    exact hlink

end

/-! ## Progress -/

/-- where the run stands, as its phase says -/
def St.Closed (s : St D) : Prop := match s.phase with
  | .starting => (∀ x ∈ s.items, x.stage = .queued) ∧ s.pending = [] ∧ s.chain = []
  | .draining => (∀ x ∈ s.items, x.stage = .finished) ∧ s.pending = []
  | .returned => (∀ x ∈ s.items, x.stage = .finished) ∧ s.pending = [] ∧ ∀ l ∈ s.chain, l.stage = .done
  | .packing | .rejected => True

section

variable {work : List (DocPushWork D)} {s s' : St D} {i k width : ℕ} {x : Item D} {l : Link D} {a : Action D}
  {turn : Turn} {th : Throws}

theorem closed_of_phase (h : s.phase = .packing ∨ s.phase = .rejected) : s.Closed := by
  unfold St.Closed
  rcases h with h | h
  · rw [h]; trivial
  · rw [h]; trivial

/-- an item under way: its pool has not finished -/
theorem St.Closed.packing (h : s.Closed) (hx : s.items[i]? = some x) (hq : x.stage ≠ .queued)
    (hf : x.stage ≠ .finished) : s.phase = .packing ∨ s.phase = .rejected := by
  have hmem := mem_of_getElem? hx
  unfold St.Closed at h
  cases hphase : s.phase with
  | starting => rw [hphase] at h; exact absurd (h.1 x hmem) hq
  | packing => exact .inl rfl
  | draining | returned => rw [hphase] at h; exact absurd (h.1 x hmem) hf
  | rejected => exact .inr rfl

/-- a link moves on -/
theorem St.Closed.setLink (h : s.Closed) (hl : s.chain[k]? = some l) (hstage : l.stage ≠ .done) (l' : Link D) :
    (s.setLink k l').Closed := by
  have hmem := mem_of_getElem? hl
  unfold St.Closed at h ⊢
  cases hphase : s.phase with
  | starting => rw [hphase] at h; exact absurd (h.2.2 ▸ hmem) not_mem_nil
  | packing | rejected => simp [St.setLink, hphase]
  | draining => rw [hphase] at h; simpa [St.setLink, hphase] using h
  | returned => rw [hphase] at h; exact absurd (h.2.2 l hmem) hstage

theorem take_phase : (s.take i x th turn).phase = s.phase := by
  cases turn with
  | awaits stage | readsFile localEmpty => rfl
  | stops calls =>
    simp only [St.take]
    split
    · simp [St.caught, St.setItem]
    · simp [St.setItem]
  | enqueues bytes seeded => exact St.enqueue_phase s _
  | throws => simp [St.take, St.caught, St.setItem]

theorem outstanding_eq_zero : s.outstanding = 0 ↔ ∀ l ∈ s.chain, l.stage = .done := by
  simp [St.outstanding, countP_eq_zero]

theorem next_closed (h : s.Closed) (hnext : next width s a = some s') : s'.Closed := by
  have hitem : ∀ {i : ℕ} {x : Item D} {s' : St D}, s.items[i]? = some x → x.stage ≠ .queued ∧ x.stage ≠ .finished →
      s'.phase = s.phase → s'.Closed :=
    fun hx hunder hphase => closed_of_phase (hphase ▸ h.packing hx hunder.1 hunder.2)
  cases next_cases hnext with
  | phase p hless hcalm hwhen =>
    cases p with
    | starting => cases hphase : s.phase <;> simp [hphase, Phase.weight] at hless
    | packing | rejected => trivial
    | draining =>
      rcases hwhen with ⟨-, hne, -⟩ | ⟨hphase, -⟩
      · exact absurd rfl hne
      · simp [hphase, Phase.weight] at hless
    | returned =>
      rcases hwhen with ⟨hphase, -, hempty⟩ | ⟨hphase, hout⟩
      · rw [St.Closed, hphase] at h
        refine ⟨fun x hx => ?_, h.2.1, fun l hl => ?_⟩
        · exact absurd (hempty rfl ▸ hx) not_mem_nil
        · exact absurd (h.2.2 ▸ hl) not_mem_nil
      · rw [St.Closed, hphase] at h
        exact ⟨h.1, h.2, outstanding_eq_zero.1 hout⟩
  | drains hphase hall =>
    refine ⟨?_, ?_⟩
    · rw [St.setPhase, St.flushPending_items]
      exact hall
    · simp only [St.setPhase, St.flushPending]
      split
      · next hempty => exact hempty
      · rfl
  | block _ hx hunder =>
    rcases hunder with hphase | hunder
    · exact closed_of_phase (.inl ((St.performs_phase s _ _).trans hphase))
    · exact hitem hx hunder (St.performs_phase s _ _)
  | turn hx hunder => exact hitem hx hunder take_phase
  | file hx hstage => exact hitem hx (by rw [hstage]; decide) take_phase
  | link hl hopen => exact h.setLink hl hopen _
  | @settles k l p rest io t hl hstage =>
    have hperforms : (s.performs p.item (upTo t (settleCalls l.answers p io)).1).Closed := by
      simpa [St.Closed] using h
    exact hperforms.setLink (by rw [St.performs_chain]; exact hl)
      (by rw [hstage]; simp) _

/-- a link that is not done: the first such acts -/
theorem link_acts (h : ∃ l ∈ s.chain, l.stage ≠ .done) : ∃ a, CalmStep width s a := by
  obtain ⟨l, hl, hstage⟩ := h
  have hfind : (s.chain.findIdx? fun l => l.stage ≠ .done).isSome := by
    rw [findIdx?_isSome, any_eq_true]
    exact ⟨l, hl, by simpa using hstage⟩
  obtain ⟨k, hk⟩ := Option.isSome_iff_exists.1 hfind
  obtain ⟨hlen, hfirst, hbefore⟩ := findIdx?_eq_some_iff_getElem.1 hk
  have hget : s.chain[k]? = some s.chain[k] := getElem?_eq_getElem hlen
  have hopen : s.chain[k].stage ≠ .done := by simpa using hfirst
  cases hcase : s.chain[k].stage with
  | waiting =>
    refine ⟨.sends k, ?_, trivial⟩
    have hearlier : ∀ l' ∈ s.chain.take k, l'.stage = .done := by
      intro l' hl'
      obtain ⟨j, hj, rfl⟩ := mem_iff_getElem.1 hl'
      rw [length_take] at hj
      have hdone := hbefore j (by omega)
      simpa using hdone
    simpa [next, hget, hcase, Option.filter] using hearlier
  | sending attempt => exact ⟨.answers k [], by simp [next, St.sending, hget, hcase], trivial⟩
  | settling rest =>
    cases rest with
    | nil => exact ⟨.sent k, by simp [next, hget, hcase, Option.filter], trivial⟩
    | cons p rest =>
      refine ⟨.settles k ⟨true, none⟩ none, by simp [next, St.settling, hget, hcase], fun x _ => ?_⟩
      have hnone : ∀ calls, upTo none calls = (calls, false) := by
        intro calls
        induction calls with
        | nil => rfl
        | cons c cs ih => simp [upTo, ih]
      simp [whole, hnone]
  | done => exact absurd hcase hopen

theorem at?_self (hx : s.items[i]? = some x) : s.at? i x.stage = some x := by
  simp [St.at?, hx, Option.filter]

/-- an item under way acts, when no chunk is outstanding -/
theorem item_acts (hx : s.items[i]? = some x) (hq : x.stage ≠ .queued) (hf : x.stage ≠ .finished)
    (hout : s.outstanding = 0) : ∃ a, CalmStep width s a := by
  have hat := at?_self hx
  cases hstage : x.stage with
  | queued => exact absurd hstage hq
  | slot => rw [hstage] at hat; exact ⟨.proceeds i, by simp [next, hat, hout], trivial⟩
  | ready => rw [hstage] at hat; exact ⟨.begins i (some true) none, by simp [next, hat], rfl⟩
  | acquiring => rw [hstage] at hat; exact ⟨.acquireFails i none, by simp [next, hat], rfl⟩
  | ingesting => rw [hstage] at hat; exact ⟨.ingested i none {}, by simp [next, hat], fun _ _ => rfl⟩
  | reading => rw [hstage] at hat; exact ⟨.fileRead i none {}, by simp [next, hat], trivial⟩
  | seeding => rw [hstage] at hat; exact ⟨.seeded i none {}, by simp [next, hat], rfl⟩
  | releasing => rw [hstage] at hat; exact ⟨.released i, by simp [next, hat], trivial⟩
  | finished => exact absurd hstage hf

/-- until the run is over a step can be taken that throws nothing -/
theorem step_possible (hwidth : 0 < width) : (s.phase = .returned ∨ s.phase = .rejected) ∨
    ∃ a, CalmStep width s a := by
  cases hphase : s.phase with
  | returned => exact .inl (.inl rfl)
  | rejected => exact .inl (.inr rfl)
  | starting =>
    refine .inr ⟨.starts false, ?_, fun h => (nomatch h)⟩
    by_cases hempty : s.items = []
    · simp [next, hphase, hempty]
    · simp [next, hphase, hempty]
  | draining =>
    by_cases hlink : ∃ l ∈ s.chain, l.stage ≠ .done
    · exact .inr (link_acts hlink)
    · have hout : s.outstanding = 0 := outstanding_eq_zero.2 fun l hl => not_not.1 fun hd => hlink ⟨l, hl, hd⟩
      exact .inr ⟨.returns false, by simp [next, hphase, hout], rfl⟩
  | packing =>
    by_cases hlink : ∃ l ∈ s.chain, l.stage ≠ .done
    · exact .inr (link_acts hlink)
    have hout : s.outstanding = 0 := outstanding_eq_zero.2 fun l hl => not_not.1 fun hd => hlink ⟨l, hl, hd⟩
    by_cases hactive : ∃ x ∈ s.items, x.stage ≠ .queued ∧ x.stage ≠ .finished
    · obtain ⟨x, hx, hq, hf⟩ := hactive
      obtain ⟨i, hi⟩ := mem_iff_getElem?.1 hx
      exact .inr (item_acts hi hq hf hout)
    have hidle : s.active = 0 := by
      apply countP_eq_zero.2
      intro x hx hact
      exact hactive ⟨x, hx, of_decide_eq_true hact⟩
    by_cases hqueued : ∃ x ∈ s.items, x.stage = .queued
    · obtain ⟨x, hx, hstage⟩ := hqueued
      have hfind : (s.items.findIdx? fun x => x.stage = .queued).isSome := by
        rw [findIdx?_isSome, any_eq_true]
        exact ⟨x, hx, by simpa using hstage⟩
      obtain ⟨i, hi⟩ := Option.isSome_iff_exists.1 hfind
      obtain ⟨hlen, hfirst, -⟩ := findIdx?_eq_some_iff_getElem.1 hi
      have hat : s.at? i .queued = some s.items[i] := by
        have h := at?_self (getElem?_eq_getElem hlen)
        rwa [of_decide_eq_true hfirst] at h
      exact .inr ⟨.picks, by simp [next, hphase, hidle, hwidth, hi, hat], trivial⟩
    · have hall : ∀ x ∈ s.items, x.stage = .finished := by
        intro x hx
        by_contra hf
        exact hactive ⟨x, hx, fun hq => hqueued ⟨x, hx, hq⟩, hf⟩
      exact .inr ⟨.drains, by rw [next, if_pos ⟨hphase, hall⟩]; rfl, trivial⟩

end

/-! ## The law -/

/-- `runPool`'s width -/
def lanes (concurrency : ℕ) (work : List (DocPushWork D)) : ℕ := max 1 (min (max 1 concurrency) work.length)

def Link.OnWire (l : Link D) : Prop := ∃ attempt, l.stage = .sending attempt

/-- every item ended, and in one way -/
def St.Accounted (s : St D) (work : List (DocPushWork D)) : Prop :=
  ∀ i < work.length, s.listed i = 1 ∧ s.reported i = 1

/-- what holds whatever throws -/
structure Safe (work : List (DocPushWork D)) (s : St D) : Prop where
  limits : ∀ l ∈ s.chain, l.WithinLimits
  oneOnWire : ∀ (k k' : ℕ) (l l' : Link D), s.chain[k]? = some l → s.chain[k']? = some l' →
    l.OnWire → l'.OnWire → k = k'
  marked : ∀ i ∈ s.marked, s.MayMark work i

/-- the books of a calm run -/
structure Kept (work : List (DocPushWork D)) (s : St D) : Prop where
  books : (fresh work).Keeps s
  closed : s.Closed
  answered : s.phase ≠ .rejected

section

variable {work : List (DocPushWork D)} {s s' : St D} {width : ℕ} {a : Action D}

theorem kept_fresh (work : List (DocPushWork D)) : Kept work (fresh work) where
  books := .of_eq (fun _ => rfl) rfl rfl
  closed := by
    refine ⟨fun x hx => ?_, rfl, rfl⟩
    obtain ⟨w, -, rfl⟩ := mem_map.1 hx
    rfl
  answered := fun h => (nomatch h)

/-- only a throw rejects the run -/
theorem next_answered (h : s.phase ≠ .rejected) (hcalm : Calm s a) (hnext : next width s a = some s') :
    s'.phase ≠ .rejected := by
  have hsame : s'.phase = s.phase → s'.phase ≠ .rejected := fun heq => heq ▸ h
  cases next_cases hnext with
  | phase p hless hrejected => exact hrejected hcalm
  | drains => exact fun hp => (nomatch hp)
  | block => exact hsame (St.performs_phase s _ _)
  | turn | file => exact hsame take_phase
  | link => exact h
  | settles => exact hsame (St.performs_phase s _ _)

theorem next_kept (h : Kept work s) (hcalm : Calm s a) (hnext : next width s a = some s') : Kept work s' where
  books := h.books.trans (next_keeps hcalm hnext)
  closed := next_closed h.closed hnext
  answered := next_answered h.answered hcalm hnext

theorem step_kept (width : ℕ) (s : St D) (a : Action D) (h : Kept work s) (hcalm : Calm s a) :
    Kept work (step width s a) := by
  unfold step
  cases hnext : next width s a with
  | none => exact h
  | some s' => exact next_kept h hcalm hnext

/-- what a run has returned with owes nothing -/
theorem Kept.accounted (h : Kept work s) (hreturned : s.phase = .returned) : s.Accounted work := by
  obtain ⟨hitems, hpending, hlinks⟩ : (∀ x ∈ s.items, x.stage = .finished) ∧ s.pending = [] ∧
      ∀ l ∈ s.chain, l.stage = .done := by
    have hclosed := h.closed
    rwa [St.Closed, hreturned] at hclosed
  have hnone : ∀ i, s.owed i = 0 := by
    intro i
    have hitem : (s.items[i]?.elim 0 fun x => x.stage.isOpen.toNat) = 0 := by
      cases hx : s.items[i]? with
      | none => rfl
      | some x => simp [hitems x (mem_of_getElem? hx), Stage.isOpen]
    have hchain : (s.chain.map fun l => l.owes i).sum = 0 := by
      apply sum_eq_zero
      intro n hn
      obtain ⟨l, hl, rfl⟩ := mem_map.1 hn
      simp [Link.owes, Link.unsettled, hlinks l hl]
    rw [St.owed, hitem, hpending, hchain]
    rfl
  intro i hi
  have hone : (fresh work).owed i = 1 := by simp [St.owed, fresh, hi, Stage.isOpen]
  have hlisted := h.books.listed i
  have hreported := h.books.reported i
  have hstart : (fresh work).listed i = 0 ∧ (fresh work).reported i = 0 := ⟨rfl, rfl⟩
  rw [hone, hnone, hstart.1] at hlisted
  rw [hone, hnone, hstart.2] at hreported
  exact ⟨by omega, by omega⟩

/-- at most one request is on the wire -/
theorem Inv.one_on_wire (h : Inv work s) {k k' : ℕ} {l l' : Link D} (hl : s.chain[k]? = some l)
    (hl' : s.chain[k']? = some l') (hon : l.OnWire) (hon' : l'.OnWire) : k = k' := by
  obtain ⟨n, hn⟩ := hon
  obtain ⟨n', hn'⟩ := hon'
  have hfirst : ∀ {k k' : ℕ} {l l' : Link D} {n n' : ℕ}, s.chain[k]? = some l → s.chain[k']? = some l' →
      l.stage = .sending n → l'.stage = .sending n' → ¬ k < k' := by
    intro k k' l l' n n' hl hl' hn hn' hlt
    have hmem : l ∈ s.chain.take k' := by
      apply mem_iff_getElem?.2
      exact ⟨k, by rw [getElem?_take, if_pos hlt]; exact hl⟩
    have hdone := h.earlier hl' (by rw [hn']; exact fun hw => (nomatch hw)) l hmem
    rw [hn] at hdone
    cases hdone
  exact Nat.le_antisymm (Nat.le_of_not_lt (hfirst hl' hl hn' hn)) (Nat.le_of_not_lt (hfirst hl hl' hn hn'))

end

/-- **Batch accounting.** For every work list, in every run:
- a request keeps within the limits, at most one is on the wire, and an item is marked pushed only where the server
  answered `applied` or `skipped` for it, or document, file and server were empty.

Where every throw is harmless, besides:
- the run is not rejected, and once it has returned each item is in one list and was reported once;
- whichever steps are taken, it returns. -/
theorem batch_accounting (concurrency : ℕ) (work : List (DocPushWork D)) :
    (∀ as, Safe work (run (lanes concurrency work) (fresh work) as)) ∧
    (∀ as, Machine.Guarded (step (lanes concurrency work)) Calm (fresh work) as →
      (run (lanes concurrency work) (fresh work) as).phase ≠ .rejected ∧
      ((run (lanes concurrency work) (fresh work) as).phase = .returned →
        (run (lanes concurrency work) (fresh work) as).Accounted work)) ∧
    Machine.Inevitable (step (lanes concurrency work)) (CalmStep (lanes concurrency work))
      (fun s => s.phase = .returned ∧ s.Accounted work) (fresh work) := by
  refine ⟨fun as => ?_, fun as hcalm => ?_, ?_⟩
  · have h : Inv work (run (lanes concurrency work) (fresh work) as) :=
      Machine.run_inv_all (Inv work) (step_inv _) (inv_fresh work)
    exact ⟨h.fits.links, fun k k' l l' hl hl' => h.one_on_wire hl hl', h.marked⟩
  · have h : Kept work (run (lanes concurrency work) (fresh work) as) :=
      Machine.run_inv (step_kept _) (kept_fresh work) hcalm
    exact ⟨h.answered, h.accounted⟩
  · apply Machine.inevitable_of_measure (Kept work) St.left
    · exact fun s a h hstep => step_kept _ s a h hstep.2
    · intro s a _ hstep
      obtain ⟨s', hnext⟩ := Option.isSome_iff_exists.1 hstep.1
      simp only [step, hnext, Option.getD_some]
      exact next_left hnext
    · intro s h
      have hwidth : 0 < lanes concurrency work := Nat.lt_of_lt_of_le Nat.one_pos (le_max_left _ _)
      rcases step_possible (s := s) hwidth with (hreturned | hrejected) | hstep
      · exact .inl ⟨hreturned, h.accounted hreturned⟩
      · exact absurd hrejected h.answered
      · exact .inr hstep
    · exact kept_fresh work

/-! ## Runs on fixed inputs -/

/-- two notes with text, which the server does not have -/
def twoNotes : List (DocPushWork ℕ) := [⟨1, false, false, false⟩, ⟨2, false, false, false⟩]

/-- both are packed into one chunk, and the server takes both; the first `markPushed` throws -/
def throwingRun : List (Action ℕ) :=
  [.starts false, .picks, .picks, .proceeds 0, .proceeds 1, .begins 0 (some false) none, .begins 1 (some false) none,
    .acquired 0 (some ⟨20, false, 20⟩) {}, .acquired 1 (some ⟨30, false, 30⟩) {}, .released 0, .released 1, .drains,
    .sends 0, .answers 0 [⟨1, .applied⟩, ⟨2, .applied⟩], .settles 0 ⟨true, some true⟩ (some .markPushed),
    .returns false]

/-- **A chunk is lost.** The run returns, and neither note is in a list of its answer or was reported. -/
theorem chunk_lost :
    (run (lanes 8 twoNotes) (fresh twoNotes) throwingRun).phase = .returned ∧
      ∀ i < 2, (run (lanes 8 twoNotes) (fresh twoNotes) throwingRun).listed i = 0 ∧
        (run (lanes 8 twoNotes) (fresh twoNotes) throwingRun).reported i = 0 := by
  decide +kernel

end Baalda.BatchPusher
