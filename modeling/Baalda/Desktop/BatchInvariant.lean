/-
What every step of a batch push keeps: its books, where the throws are harmless, and the shape of its chain.

- `next_keeps`: what a step lists and reports it no longer owes;
- `next_inv`: requests within the limits, links that act in turn, marks that are earned.
-/
import Baalda.Desktop.BatchPusher

namespace Baalda.BatchPusher

open List

variable {D : Type*} [DecidableEq D]

/-! ## The books -/

/-- what of a chunk is yet to be settled -/
def Link.unsettled (l : Link D) : List (Prepared D) := match l.stage with
  | .waiting | .sending _ => l.chunk
  | .settling rest => rest
  | .done => []

/-- how many of them are the item -/
def Link.owes (l : Link D) (i : ℕ) : ℕ := l.unsettled.countP fun p => p.item = i

namespace St

/-- how often the item is still to be listed and reported -/
def owed (s : St D) (i : ℕ) : ℕ :=
  (s.items[i]?.elim 0 fun x => x.stage.isOpen.toNat) + s.pending.countP (fun p => p.item = i) +
    (s.chain.map fun l => l.owes i).sum

/-- no account is changed: what is listed and reported no longer is owed -/
structure Keeps (s s' : St D) : Prop where
  listed : ∀ j, s'.listed j + s'.owed j = s.listed j + s.owed j
  reported : ∀ j, s'.reported j + s'.owed j = s.reported j + s.owed j

variable {s s' s'' : St D} {i j k : ℕ} {calls : List Call} {x x' : Item D} {l l' : Link D} {p : Prepared D}

theorem Keeps.trans (h : Keeps s s') (h' : Keeps s' s'') : Keeps s s'' :=
  ⟨fun j => (h'.listed j).trans (h.listed j), fun j => (h'.reported j).trans (h.reported j)⟩

/-- the accounts and what is owed are the same -/
theorem Keeps.of_eq (ho : ∀ j, s'.owed j = s.owed j) (hout : s'.outcomes = s.outcomes)
    (hrep : s'.reports = s.reports) : Keeps s s' := by
  constructor
  · intro j
    rw [ho, St.listed, hout, ← St.listed]
  · intro j
    rw [ho, St.reported, hrep, ← St.reported]

theorem owed_setItem (hx : s.items[i]? = some x) (x' : Item D) (j : ℕ) :
    (s.setItem i x').owed j + (if i = j then x.stage.isOpen.toNat else 0) =
      s.owed j + if i = j then x'.stage.isOpen.toNat else 0 := by
  have hi : i < s.items.length := (List.getElem?_eq_some_iff.1 hx).1
  unfold owed
  by_cases hij : i = j
  · subst hij
    simp only [setItem, List.getElem?_set_self hi, hx, Option.elim_some, if_true]
    omega
  · simp only [setItem, List.getElem?_set_ne hij, if_neg hij]

theorem owed_setLink (hl : s.chain[k]? = some l) (l' : Link D) (j : ℕ) :
    (s.setLink k l').owed j + l.owes j = s.owed j + l'.owes j := by
  have hsum := Slots.sum_map_set (fun l : Link D => l.owes j) hl l'
  simp only [owed, setLink]
  omega

theorem owed_performs (s : St D) (i : ℕ) (calls : List Call) (j : ℕ) : (s.performs i calls).owed j = s.owed j := by
  simp [owed]

theorem owed_flushPending (s : St D) (j : ℕ) : s.flushPending.owed j = s.owed j := by
  unfold flushPending
  split
  · rfl
  · simp only [owed, map_append, map_cons, map_nil, sum_append, sum_cons, sum_nil,
      countP_nil, Link.owes, Link.unsettled]
    omega

theorem owed_flushIf (s : St D) (c : Bool) (j : ℕ) : (s.flushIf c).owed j = s.owed j := by
  unfold flushIf
  split
  · exact owed_flushPending s j
  · rfl

theorem owed_push (s : St D) (p : Prepared D) (j : ℕ) :
    (s.push p).owed j = s.owed j + if p.item = j then 1 else 0 := by
  simp only [owed, push, countP_append, countP_singleton, decide_eq_true_eq]
  omega

theorem owed_enqueue (s : St D) (p : Prepared D) (j : ℕ) :
    (s.enqueue p).owed j = s.owed j + if p.item = j then 1 else 0 := by
  rw [enqueue, owed_flushIf, owed_push, owed_flushIf]

end St

namespace St

variable {s s' : St D} {i j k : ℕ} {calls : List Call} {x x' : Item D} {l l' : Link D} {p : Prepared D}
  {turn : Turn} {th : Throws}

section

variable (s) (p)

@[simp] theorem flushPending_items : s.flushPending.items = s.items := by unfold flushPending; split <;> rfl

@[simp] theorem flushPending_outcomes : s.flushPending.outcomes = s.outcomes := by unfold flushPending; split <;> rfl

@[simp] theorem flushPending_reports : s.flushPending.reports = s.reports := by unfold flushPending; split <;> rfl

@[simp] theorem flushPending_phase : s.flushPending.phase = s.phase := by unfold flushPending; split <;> rfl

/-- what no flush changes, no `enqueue` does -/
theorem enqueue_field {β : Type*} (f : St D → β) (hflush : ∀ s : St D, f s.flushPending = f s)
    (hpush : ∀ (s : St D) (p : Prepared D), f (s.push p) = f s) : f (s.enqueue p) = f s := by
  have hif : ∀ (s : St D) (c : Bool), f (s.flushIf c) = f s := by
    intro s c
    unfold flushIf
    split
    · exact hflush s
    · rfl
  rw [enqueue, hif, hpush, hif]

@[simp] theorem enqueue_items : (s.enqueue p).items = s.items :=
  enqueue_field s p St.items flushPending_items fun _ _ => rfl

@[simp] theorem enqueue_outcomes : (s.enqueue p).outcomes = s.outcomes :=
  enqueue_field s p St.outcomes flushPending_outcomes fun _ _ => rfl

@[simp] theorem enqueue_reports : (s.enqueue p).reports = s.reports :=
  enqueue_field s p St.reports flushPending_reports fun _ _ => rfl

@[simp] theorem enqueue_phase : (s.enqueue p).phase = s.phase :=
  enqueue_field s p St.phase flushPending_phase fun _ _ => rfl

end

/-- the item moves on -/
theorem keeps_moves (hx : s.items[i]? = some x) (hopen : x'.stage.isOpen = x.stage.isOpen) :
    Keeps s (s.setItem i x') := by
  refine Keeps.of_eq ?_ rfl rfl
  intro j
  have ho := owed_setItem hx x' j
  rw [hopen] at ho
  omega

/-- the item is listed once and reported once, and no longer owed -/
theorem keeps_closes (hx : s.items[i]? = some x) (hopen : x.stage.isOpen = true) (hcalls : Balanced calls)
    (hshut : x'.stage.isOpen = false) : Keeps s ((s.performs i calls).setItem i x') := by
  have ho : ∀ j, ((s.performs i calls).setItem i x').owed j + (if i = j then 1 else 0) = s.owed j := by
    intro j
    have h := owed_setItem (s := s.performs i calls) (by rw [performs_items]; exact hx) x' j
    rw [hopen, hshut, owed_performs] at h
    simpa using h
  constructor
  · intro j
    have hl : ((s.performs i calls).setItem i x').listed j = _ := listed_performs s i calls j
    rw [hl, hcalls.lists, ← ho j]
    omega
  · intro j
    have hr : ((s.performs i calls).setItem i x').reported j = _ := reported_performs s i calls j
    rw [hr, hcalls.reports, ← ho j]
    omega

/-- the item is packed -/
theorem keeps_enqueues (hx : s.items[i]? = some x) (hopen : x.stage.isOpen = true) (hp : p.item = i)
    (hshut : x'.stage.isOpen = false) : Keeps s ((s.enqueue p).setItem i x') := by
  refine Keeps.of_eq ?_ (enqueue_outcomes s p) (enqueue_reports s p)
  intro j
  have h := owed_setItem (s := s.enqueue p) (by rw [enqueue_items]; exact hx) x' j
  rw [hopen, hshut, owed_enqueue, hp] at h
  simp only [Bool.toNat_true, Bool.toNat_false, ite_self, Nat.add_zero] at h
  omega

theorem keeps_quiet (s : St D) (i : ℕ) (h : ∀ c ∈ calls, c.quiet = true) : Keeps s (s.performs i calls) := by
  obtain ⟨hlists, hreports⟩ := quiet_counts h
  constructor
  · intro j
    rw [listed_performs, owed_performs, hlists, ite_self, Nat.add_zero]
  · intro j
    rw [reported_performs, owed_performs, hreports, ite_self, Nat.add_zero]

theorem keeps_caught (hx : s.items[i]? = some x) (hopen : x.stage.isOpen = true) (hcatch : th.CatchOk) :
    Keeps s (s.caught i x th) := by
  unfold caught
  rw [hcatch]
  exact keeps_closes hx hopen (balanced_fail _) rfl

/-- a calm turn of `prepare` keeps the books -/
theorem keeps_take (hx : s.items[i]? = some x) (hopen : x.stage.isOpen = true)
    (hsound : turn.Sound x.work x.stage) (hcalm : turn.Calm th) : Keeps s (s.take i x th turn) := by
  cases turn with
  | awaits stage => exact keeps_moves hx (hsound.1.trans hopen.symm)
  | readsFile localEmpty => exact keeps_moves hx hopen.symm
  | stops calls =>
    simp only [take]
    split
    · next hthrew =>
      obtain ⟨hquiet, hcatch⟩ := hcalm hthrew
      exact (keeps_quiet s i hquiet).trans (keeps_caught (by rw [performs_items]; exact hx) hopen hcatch)
    · exact keeps_closes hx hopen hsound rfl
  | enqueues bytes seeded => exact keeps_enqueues hx hopen rfl rfl
  | throws => exact keeps_caught hx hopen hcalm

/-- a link moves on with the same items left -/
theorem keeps_links (hl : s.chain[k]? = some l) (hsame : l'.unsettled = l.unsettled) : Keeps s (s.setLink k l') := by
  refine Keeps.of_eq ?_ rfl rfl
  intro j
  have ho := owed_setLink hl l' j
  rw [Link.owes, Link.owes, hsame] at ho
  omega

/-- an item of a chunk is settled; where that throws it was the last -/
theorem keeps_settles (hl : s.chain[k]? = some l) {rest : List (Prepared D)} (hstage : l.stage = .settling (p :: rest))
    {io : SettleIO} {t : Option Listener} (hwhole : whole t (settleCalls l.answers p io))
    (hlast : (upTo t (settleCalls l.answers p io)).2 = true → rest = []) : Keeps s (s.settles k l p rest io t) := by
  have hcalls := balanced_settleCalls l.answers p io
  have ho : ∀ j, (s.settles k l p rest io t).owed j + (if p.item = j then 1 else 0) = s.owed j := by
    intro j
    have h := owed_setLink (s := s.performs p.item (settleCalls l.answers p io)) (by rw [performs_chain]; exact hl)
      { l with stage := if (upTo t (settleCalls l.answers p io)).2 then .done else .settling rest } j
    have hold : l.owes j = rest.countP (fun p => p.item = j) + if p.item = j then 1 else 0 := by
      simp [Link.owes, Link.unsettled, hstage, countP_cons]
    have hnew : ({ l with stage := if (upTo t (settleCalls l.answers p io)).2 then .done else .settling rest } :
        Link D).owes j = rest.countP fun p => p.item = j := by
      by_cases hthrew : (upTo t (settleCalls l.answers p io)).2 = true
      · simp [Link.owes, Link.unsettled, hthrew, hlast hthrew]
      · simp [Link.owes, Link.unsettled, hthrew]
    rw [owed_performs, hold, hnew] at h
    simp only [settles]
    rw [hwhole]
    omega
  constructor
  · intro j
    have h := listed_performs s p.item (settleCalls l.answers p io) j
    have hl' : (s.settles k l p rest io t).listed j = (s.performs p.item (settleCalls l.answers p io)).listed j := by
      simp only [settles]
      rw [hwhole]
      rfl
    rw [hl', h, hcalls.lists, ← ho j]
    omega
  · intro j
    have h := reported_performs s p.item (settleCalls l.answers p io) j
    have hr' : (s.settles k l p rest io t).reported j =
        (s.performs p.item (settleCalls l.answers p io)).reported j := by
      simp only [settles]
      rw [hwhole]
      rfl
    rw [hr', h, hcalls.reports, ← ho j]
    omega

end St

/-! ## The invariant -/

/-- a link that has not been answered has no answers, and settles only what it carries -/
def Link.Ok (l : Link D) : Prop := match l.stage with
  | .waiting | .sending _ => l.answers = none
  | .settling rest => rest ⊆ l.chunk
  | .done => True

/-- the open chunk and the queued ones keep within the limits -/
structure St.Fits (s : St D) : Prop where
  bytes : s.pendingBytes = (s.pending.map Prepared.bytes).sum
  few : s.pending.length ≤ BATCH_MAX_DOCS
  light : s.pendingBytes ≤ BATCH_MAX_DECODED_BYTES
  links : ∀ l ∈ s.chain, l.WithinLimits

/-- what is packed is an item of the work list -/
def IsItem (work : List (DocPushWork D)) (p : Prepared D) : Prop := ∃ w, work[p.item]? = some w ∧ p.docId = w.docId

/-- the item may be marked -/
def St.MayMark (work : List (DocPushWork D)) (s : St D) (i : ℕ) : Prop :=
  ∃ w, work[i]? = some w ∧ (s.Confirmed i w.docId ∨ s.EmptyOnBothSides i w)

structure Inv (work : List (DocPushWork D)) (s : St D) : Prop where
  works : s.items.map Item.work = work
  reading : ∀ x ∈ s.items, x.stage = .reading → x.work.serverEmpty = true ∧ x.localEmpty = true
  fits : s.Fits
  /-- a link acts only when the earlier ones are done -/
  inTurn : s.chain.Pairwise fun a b => b.stage ≠ .waiting → a.stage = .done
  ok : ∀ l ∈ s.chain, l.Ok
  pending : ∀ p ∈ s.pending, IsItem work p
  chunks : ∀ l ∈ s.chain, ∀ p ∈ l.chunk, IsItem work p
  marked : ∀ i ∈ s.marked, s.MayMark work i

section

variable {work : List (DocPushWork D)} {s : St D} {i k : ℕ} {calls : List Call} {x x' : Item D} {l l' : Link D}
  {p : Prepared D}

theorem inv_fresh (work : List (DocPushWork D)) : Inv work (fresh work) where
  works := by simp [fresh, Function.comp_def]
  reading x hx hread := by
    obtain ⟨w, -, rfl⟩ := mem_map.1 hx
    cases hread
  fits := ⟨rfl, Nat.zero_le _, Nat.zero_le _, fun l hl => (nomatch hl)⟩
  inTurn := List.Pairwise.nil
  ok l hl := (nomatch hl)
  pending p hp := (nomatch hp)
  chunks l hl := (nomatch hl)
  marked i hi := (nomatch hi)

section

variable (h : Inv work s)

include h

/-- an item is marked only where it may be -/
theorem Inv.performs (hmark : Call.markPushed ∈ calls → s.MayMark work i) :
    Inv work (s.performs i calls) where
  works := by rw [St.performs_items]; exact h.works
  reading := by rw [St.performs_items]; exact h.reading
  fits := by
    constructor
    · rw [St.performs_pendingBytes, St.performs_pending]; exact h.fits.bytes
    · rw [St.performs_pending]; exact h.fits.few
    · rw [St.performs_pendingBytes]; exact h.fits.light
    · rw [St.performs_chain]; exact h.fits.links
  inTurn := by rw [St.performs_chain]; exact h.inTurn
  ok := by rw [St.performs_chain]; exact h.ok
  pending := by rw [St.performs_pending]; exact h.pending
  chunks := by rw [St.performs_chain]; exact h.chunks
  marked j hj := by
    unfold St.MayMark St.Confirmed St.EmptyOnBothSides
    rw [St.performs_chain, St.performs_fileReads]
    rcases St.mem_marked_performs.1 hj with hold | ⟨rfl, hnew⟩
    · exact h.marked j hold
    · exact hmark hnew

theorem Inv.setItem (hx : s.items[i]? = some x) (hwork : x'.work = x.work)
    (hread : x'.stage = .reading → x'.work.serverEmpty = true ∧ x'.localEmpty = true) :
    Inv work (s.setItem i x') where
  works := by
    rw [← h.works]
    apply List.ext_getElem?
    intro j
    by_cases hij : i = j
    · subst hij
      obtain ⟨hi, hget⟩ := List.getElem?_eq_some_iff.1 hx
      simp [St.setItem, hi, hget, hwork]
    · simp [St.setItem, List.getElem?_set_ne hij]
  reading y hy := by
    rcases List.mem_or_eq_of_mem_set hy with hold | rfl
    · exact h.reading y hold
    · exact hread
  fits := ⟨h.fits.bytes, h.fits.few, h.fits.light, h.fits.links⟩
  inTurn := h.inTurn
  ok := h.ok
  pending := h.pending
  chunks := h.chunks
  marked := h.marked

theorem Inv.setPhase (phase : Phase) : Inv work (s.setPhase phase) :=
  { h with fits := ⟨h.fits.bytes, h.fits.few, h.fits.light, h.fits.links⟩ }

theorem Inv.reads (r : FileRead) : Inv work (s.reads r) where
  works := h.works
  reading := h.reading
  fits := ⟨h.fits.bytes, h.fits.few, h.fits.light, h.fits.links⟩
  inTurn := h.inTurn
  ok := h.ok
  pending := h.pending
  chunks := h.chunks
  marked j hj := by
    obtain ⟨w, hw, hconf | ⟨hserver, r', hr', hread⟩⟩ := h.marked j hj
    · exact ⟨w, hw, .inl hconf⟩
    · exact ⟨w, hw, .inr ⟨hserver, r', mem_append_left _ hr', hread⟩⟩

/-- a link keeps its chunk and what it was answered, and acts in its turn -/
theorem Inv.setLink (hl : s.chain[k]? = some l) (hchunk : l'.chunk = l.chunk)
    (hanswers : l.answers = none ∨ l'.answers = l.answers) (hok : l'.Ok)
    (hturn : (s.setLink k l').chain.Pairwise fun a b => b.stage ≠ .waiting → a.stage = .done) :
    Inv work (s.setLink k l') where
  works := h.works
  reading := h.reading
  fits := by
    refine ⟨h.fits.bytes, h.fits.few, h.fits.light, fun l'' hl'' => ?_⟩
    rcases mem_or_eq_of_mem_set hl'' with hold | rfl
    · exact h.fits.links l'' hold
    · have hwithin := h.fits.links l (mem_of_getElem? hl)
      rw [Link.WithinLimits, ← hchunk] at hwithin
      exact hwithin
  inTurn := hturn
  ok l'' hl'' := by
    rcases mem_or_eq_of_mem_set hl'' with hold | rfl
    · exact h.ok l'' hold
    · exact hok
  pending := h.pending
  chunks l'' hl'' := by
    rcases mem_or_eq_of_mem_set hl'' with hold | rfl
    · exact h.chunks l'' hold
    · rw [hchunk]
      exact h.chunks l (mem_of_getElem? hl)
  marked j hj := by
    obtain ⟨w, hw, hconf | hempty⟩ := h.marked j hj
    · refine ⟨w, hw, .inl (Slots.exists_mem_set l' hl (fun ⟨hitem, as, has, hr⟩ => ?_) hconf)⟩
      rcases hanswers with hnone | hsame
      · exact (nomatch hnone.symm.trans has)
      · exact ⟨hchunk ▸ hitem, as, hsame.trans has, hr⟩
    · exact ⟨w, hw, .inr hempty⟩

theorem Inv.flushPending : Inv work s.flushPending := by
  unfold St.flushPending
  split
  · exact h
  refine ⟨h.works, h.reading, ⟨rfl, Nat.zero_le _, Nat.zero_le _, fun l hl => ?_⟩, ?_, fun l hl => ?_,
    fun p hp => (nomatch hp), fun l hl => ?_, fun j hj => ?_⟩
  · rcases mem_snoc.1 hl with hold | rfl
    · exact h.fits.links l hold
    · exact ⟨h.fits.few, h.fits.bytes ▸ h.fits.light⟩
  · refine pairwise_append.2 ⟨h.inTurn, pairwise_singleton _ _, fun a _ b hb hwait => ?_⟩
    obtain rfl := mem_singleton.1 hb
    exact absurd rfl hwait
  · rcases mem_snoc.1 hl with hold | rfl
    · exact h.ok l hold
    · rfl
  · rcases mem_snoc.1 hl with hold | rfl
    · exact h.chunks l hold
    · exact h.pending
  · obtain ⟨w, hw, ⟨l, hl, hconf⟩ | hempty⟩ := h.marked j hj
    · exact ⟨w, hw, .inl ⟨l, mem_append_left _ hl, hconf⟩⟩
    · exact ⟨w, hw, .inr hempty⟩

theorem Inv.flushIf (c : Bool) : Inv work (s.flushIf c) := by
  unfold St.flushIf
  split
  · exact h.flushPending
  · exact h

theorem Inv.push (hp : IsItem work p) (hfew : s.pending.length < BATCH_MAX_DOCS)
    (hlight : s.pendingBytes + p.bytes ≤ BATCH_MAX_DECODED_BYTES) : Inv work (s.push p) where
  works := h.works
  reading := h.reading
  fits := by
    refine ⟨?_, ?_, hlight, h.fits.links⟩
    · simp [St.push, h.fits.bytes]
    · simpa [St.push] using hfew
  inTurn := h.inTurn
  ok := h.ok
  pending q hq := by
    rcases mem_snoc.1 hq with hold | hnew
    · exact h.pending q hold
    · exact hnew ▸ hp
  chunks := h.chunks
  marked := h.marked

/-- the open chunk is sent before it would outgrow the limits -/
theorem Inv.enqueue (hp : IsItem work p) (hsmall : p.bytes ≤ BULK_ITEM_MAX_BYTES) : Inv work (s.enqueue p) := by
  apply Inv.flushIf
  apply (h.flushIf _).push hp
  · unfold St.flushIf
    split
    · unfold St.flushPending
      split
      · next hempty => simp [hempty, BATCH_MAX_DOCS]
      · simp [BATCH_MAX_DOCS]
    · next hc =>
      by_cases hempty : s.pending = []
      · simp [hempty, BATCH_MAX_DOCS]
      · simp only [hempty, ne_eq, not_false_eq_true, decide_true, Bool.true_and, Bool.or_eq_true, decide_eq_true_eq,
          not_or] at hc
        omega
  · have hroom : BULK_ITEM_MAX_BYTES ≤ BATCH_MAX_DECODED_BYTES := by decide
    have hbytes := h.fits.bytes
    unfold St.flushIf
    split
    · unfold St.flushPending
      split
      · next hempty =>
        rw [hempty] at hbytes
        rw [hbytes]
        simp only [map_nil, sum_nil]
        omega
      · simp only
        omega
    · next hc =>
      by_cases hempty : s.pending = []
      · rw [hempty] at hbytes
        rw [hbytes]
        simp only [map_nil, sum_nil]
        omega
      · simp only [hempty, ne_eq, not_false_eq_true, decide_true, Bool.true_and, Bool.or_eq_true, decide_eq_true_eq,
          not_or] at hc
        omega

end

end

/-! ## Any step -/

/-- what is left to do for a link -/
def Link.weight (l : Link D) : ℕ := match l.stage with
  | .waiting => l.chunk.length + 6
  | .sending attempt => l.chunk.length + 2 + (ATTEMPTS - attempt)
  | .settling rest => rest.length + 1
  | .done => 0

def Phase.weight : Phase → ℕ
  | .starting => 3
  | .packing => 2
  | .draining => 1
  | .returned | .rejected => 0

section

variable {work : List (DocPushWork D)} {s s' : St D} {i k width : ℕ} {x : Item D} {l : Link D} {p : Prepared D}
  {turn : Turn} {th : Throws} {a : Action D}

theorem inv_caught (h : Inv work s) (hx : s.items[i]? = some x) (th : Throws) : Inv work (s.caught i x th) := by
  have hperforms : Inv work (s.performs i (upTo th.second (fail .thrown)).1) := by
    apply h.performs
    intro hmark
    have hin := upTo_subset hmark
    simp [fail] at hin
  exact hperforms.setItem (x := x) (by rw [St.performs_items]; exact hx) rfl (by simp)

/-- a turn of `prepare` marks only what may be marked -/
theorem inv_take (h : Inv work s) (hx : s.items[i]? = some x) (hsound : turn.Sound x.work x.stage)
    (hmarks : turn.Marks → s.MayMark work i) : Inv work (s.take i x th turn) := by
  cases turn with
  | awaits stage => exact h.setItem hx rfl fun hread => absurd hread hsound.2.1
  | readsFile localEmpty => exact h.setItem hx rfl fun _ => ⟨hsound.1, hsound.2.1⟩
  | stops calls =>
    simp only [St.take]
    split
    · exact inv_caught (h.performs fun hmark => hmarks (upTo_subset hmark)) (by rw [St.performs_items]; exact hx) th
    · exact (h.performs hmarks).setItem (x := x) (by rw [St.performs_items]; exact hx) rfl (by simp)
  | enqueues bytes seeded =>
    have hitem : IsItem work ⟨i, x.work.docId, bytes, seeded⟩ := by
      refine ⟨x.work, ?_, rfl⟩
      rw [← h.works, getElem?_map, hx]
      rfl
    exact (h.enqueue hitem hsound).setItem (x := x) (by rw [St.enqueue_items]; exact hx) rfl fun hread =>
      (nomatch hread)
  | throws => exact inv_caught h hx th

/-- a link in its turn: the earlier ones are done, the later ones wait -/
theorem inv_links (h : Inv work s) (hl : s.chain[k]? = some l) {stage : LinkStage D}
    (hearlier : ∀ l' ∈ s.chain.take k, l'.stage = .done) (hlater : stage ≠ .done → l.stage ≠ .done)
    {answers : Option (List (DocPushResult D))} (hanswers : l.answers = none ∨ answers = l.answers)
    (hok : (⟨l.chunk, stage, answers⟩ : Link D).Ok) : Inv work (s.setLink k ⟨l.chunk, stage, answers⟩) := by
  have hchunk : (⟨l.chunk, stage, answers⟩ : Link D).chunk = l.chunk := rfl
  apply h.setLink hl hchunk hanswers hok
  obtain ⟨hk, rfl⟩ := List.getElem?_eq_some_iff.1 hl
  have hsplit : s.chain = s.chain.take k ++ s.chain[k] :: s.chain.drop (k + 1) := by
    rw [List.getElem_cons_drop, List.take_append_drop]
  have hturn := h.inTurn
  rw [hsplit, List.pairwise_append, List.pairwise_cons] at hturn
  obtain ⟨hbefore, ⟨hafter, hrest⟩, -⟩ := hturn
  rw [St.setLink, List.set_eq_take_append_cons_drop, if_pos hk, List.pairwise_append, List.pairwise_cons]
  refine ⟨hbefore, ⟨fun b hb hwait => ?_, hrest⟩, fun a ha _ _ _ => hearlier a ha⟩
  by_contra hstage
  exact hlater hstage (hafter b hb hwait)

/-- a link that acts is the first that is not done -/
theorem Inv.earlier (h : Inv work s) (hl : s.chain[k]? = some l) (hwait : l.stage ≠ .waiting) :
    ∀ l' ∈ s.chain.take k, l'.stage = .done := by
  obtain ⟨hk, rfl⟩ := List.getElem?_eq_some_iff.1 hl
  have hsplit : s.chain = s.chain.take k ++ s.chain[k] :: s.chain.drop (k + 1) := by
    rw [List.getElem_cons_drop, List.take_append_drop]
  have hturn := h.inTurn
  rw [hsplit, List.pairwise_append] at hturn
  exact fun l' hl' => hturn.2.2 l' hl' _ List.mem_cons_self hwait

theorem St.sending_eq_some {n : ℕ} (h : s.sending k = some (l, n)) :
    s.chain[k]? = some l ∧ l.stage = .sending n := by
  obtain ⟨l', hl', hstage⟩ := Option.bind_eq_some_iff.1 h
  split at hstage
  · next hsending =>
    cases hstage
    exact ⟨hl', hsending⟩
  · cases hstage

theorem St.settling_eq_some {rest : List (Prepared D)} (h : s.settling k = some (l, p, rest)) :
    s.chain[k]? = some l ∧ l.stage = .settling (p :: rest) := by
  obtain ⟨l', hl', hstage⟩ := Option.bind_eq_some_iff.1 h
  split at hstage
  · next hsettling =>
    obtain ⟨rfl, heq⟩ := Prod.mk.inj (Option.some.inj hstage)
    cases heq
    exact ⟨hl', hsettling⟩
  · cases hstage

/-- only an answer `applied` or `skipped` marks -/
theorem marks_settleCalls {answers : Option (List (DocPushResult D))} {io : SettleIO}
    (h : Call.markPushed ∈ settleCalls answers p io) : ∃ as, answers = some as ∧
      ∃ r ∈ as, r.docId = p.docId ∧ (r.status = .applied ∨ r.status = .skipped) := by
  unfold settleCalls at h
  split at h
  · simp [fail] at h
  · next as =>
    split at h
    · simp [fail] at h
    · next r hr =>
      refine ⟨as, rfl, r, mem_reverse.1 (mem_of_find?_eq_some hr), ?_, ?_⟩
      · simpa using find?_some hr
      · cases hstatus : r.status with
        | applied => exact .inl rfl
        | skipped => exact .inr rfl
        | denied =>
          rw [hstatus, settle] at h
          repeat' split at h
          all_goals simp [fail] at h
        | _ => simp [hstatus, settle, fail] at h

theorem inv_settles (h : Inv work s) (hl : s.chain[k]? = some l) {rest : List (Prepared D)}
    (hstage : l.stage = .settling (p :: rest)) (io : SettleIO) (t : Option Listener) :
    Inv work (s.settles k l p rest io t) := by
  have hsub : p :: rest ⊆ l.chunk := by
    have hok := h.ok l (mem_of_getElem? hl)
    rwa [Link.Ok, hstage] at hok
  have hp : p ∈ l.chunk := hsub mem_cons_self
  have hperforms : Inv work (s.performs p.item (upTo t (settleCalls l.answers p io)).1) := by
    apply h.performs
    intro hmark
    obtain ⟨as, has, r, hr, hid, hstatus⟩ := marks_settleCalls (upTo_subset hmark)
    obtain ⟨w, hw, hdoc⟩ := h.chunks l (mem_of_getElem? hl) p hp
    exact ⟨w, hw, .inl ⟨l, mem_of_getElem? hl, ⟨p, hp, rfl⟩, as, has, r, hr, hid.trans hdoc, hstatus⟩⟩
  have hwait : l.stage ≠ .waiting := by rw [hstage]; exact fun hw => (nomatch hw)
  apply inv_links hperforms (l := l) (by rw [St.performs_chain]; exact hl)
  · rw [St.performs_chain]
    exact h.earlier hl hwait
  · intro _ hdone
    rw [hstage] at hdone
    cases hdone
  · exact .inr rfl
  · unfold Link.Ok
    split
    · next hcase => split at hcase <;> cases hcase
    · next hcase => split at hcase <;> cases hcase
    · next hcase =>
      split at hcase
      · cases hcase
      · obtain rfl := LinkStage.settling.inj hcase
        exact fun q hq => hsub (.tail _ hq)
    · trivial

end

section

variable {work : List (DocPushWork D)} {s s' : St D} {i width : ℕ} {x : Item D} {a : Action D}

/-- a block outside the `try` that marks nothing -/
theorem inv_block (h : Inv work s) (hx : s.items[i]? = some x) {calls : List Call} (hmark : Call.markPushed ∉ calls)
    {stage : Stage} (hstage : stage ≠ .reading) :
    Inv work ((s.performs i calls).setItem i { x with stage := stage }) := by
  have hperforms : Inv work (s.performs i calls) := h.performs fun hm => absurd hm hmark
  exact hperforms.setItem (x := x) (by rw [St.performs_items]; exact hx) rfl fun hread => absurd hread hstage

/-- what a step does, and when: of an item, of a link, or of the whole run -/
inductive Next (s : St D) (a : Action D) : St D → Prop where
  | phase (p : Phase) (hless : p.weight < s.phase.weight) (hcalm : Calm s a → p ≠ .rejected)
      (hwhen : s.phase = .starting ∧ p ≠ .draining ∧ (p = .returned → s.items = []) ∨
        s.phase = .draining ∧ s.outstanding = 0) : Next s a (s.setPhase p)
  | drains (hphase : s.phase = .packing) (hall : ∀ x ∈ s.items, x.stage = .finished) :
      Next s a (s.flushPending.setPhase .draining)
  /-- outside the `try` -/
  | block {i : ℕ} {x : Item D} (calls : List Call) {stage : Stage} (hx : s.items[i]? = some x)
      (hunder : s.phase = .packing ∨ x.stage ≠ .queued ∧ x.stage ≠ .finished) (hless : stage.weight < x.stage.weight)
      (hmark : Call.markPushed ∉ calls) (hread : stage ≠ .reading)
      (hbooks : Calm s a → (∀ c ∈ calls, c.quiet = true) ∧ stage.isOpen = x.stage.isOpen ∨
        x.stage.isOpen = true ∧ Balanced calls ∧ stage.isOpen = false) :
      Next s a ((s.performs i calls).setItem i { x with stage := stage })
  | turn {i : ℕ} {x : Item D} {th : Throws} {turn : Turn} (hx : s.items[i]? = some x)
      (hunder : x.stage ≠ .queued ∧ x.stage ≠ .finished) (hopen : x.stage.isOpen = true)
      (hsound : turn.Sound x.work x.stage) (hmarks : ¬ turn.Marks) (hcalm : Calm s a → turn.Calm th) :
      Next s a (s.take i x th turn)
  | file {i : ℕ} {x : Item D} {th : Throws} {fileBytes : Option ℕ} (hx : s.items[i]? = some x)
      (hstage : x.stage = .reading) (hcalm : Calm s a → (fileTurn fileBytes).Calm th) :
      Next s a ((s.reads ⟨i, x.localEmpty, fileBytes⟩).take i x th (fileTurn fileBytes))
  | link {k : ℕ} {l : Link D} {stage : LinkStage D} {answers : Option (List (DocPushResult D))} {error : Bool}
      (hl : s.chain[k]? = some l) (hopen : l.stage ≠ .done)
      (hturn : l.stage = .waiting → ∀ l' ∈ s.chain.take k, l'.stage = .done)
      (hanswers : answers = l.answers ∨ ∃ n, l.stage = .sending n)
      (hok : l.Ok → (⟨l.chunk, stage, answers⟩ : Link D).Ok)
      (hsame : (⟨l.chunk, stage, answers⟩ : Link D).unsettled = l.unsettled)
      (hless : (⟨l.chunk, stage, answers⟩ : Link D).weight < l.weight) :
      Next s a { s.setLink k ⟨l.chunk, stage, answers⟩ with transportError := error }
  | settles {k : ℕ} {l : Link D} {p : Prepared D} {rest : List (Prepared D)} {io : SettleIO} {t : Option Listener}
      (hl : s.chain[k]? = some l) (hstage : l.stage = .settling (p :: rest))
      (hcalm : Calm s a → whole t (settleCalls l.answers p io) ∧
        ((upTo t (settleCalls l.answers p io)).2 = true → rest = [])) : Next s a (s.settles k l p rest io t)

theorem notMem_upTo {t : Option Listener} {c : Call} {calls : List Call} (h : c ∉ calls) : c ∉ (upTo t calls).1 :=
  fun hc => h (upTo_subset hc)

theorem next_cases (hnext : next width s a = some s') : Next s a s' := by
  cases a with
  | starts throws =>
    simp only [next] at hnext
    split at hnext
    · cases hnext
    next hphase =>
    have hstart : s.phase = .starting := of_not_not hphase
    split at hnext
    · next hempty =>
      cases hnext
      exact .phase _ (by rw [hstart]; decide) (fun _ => by decide) (.inl ⟨hstart, by decide, fun _ => hempty⟩)
    next hne =>
    split at hnext
    · next hthrows =>
      cases hnext
      exact .phase _ (by rw [hstart]; decide) (fun hcalm => absurd (hcalm hthrows) hne)
        (.inl ⟨hstart, by decide, fun h => (nomatch h)⟩)
    · cases hnext
      exact .phase _ (by rw [hstart]; decide) (fun _ => by decide)
        (.inl ⟨hstart, by decide, fun h => (nomatch h)⟩)
  | picks =>
    simp only [next] at hnext
    split at hnext
    · next hpick =>
      obtain ⟨i, -, hi⟩ := Option.bind_eq_some_iff.1 hnext
      obtain ⟨x, hat, rfl⟩ := Option.map_eq_some_iff.1 hi
      obtain ⟨hx, hstage⟩ := St.at?_eq_some hat
      exact .block [] hx (.inl hpick.1) (by rw [hstage]; decide) (by simp) (by decide)
        fun _ => .inl ⟨by simp, by rw [hstage]; rfl⟩
    · cases hnext
  | proceeds i =>
    obtain ⟨x, hat, hslot⟩ := Option.bind_eq_some_iff.1 hnext
    obtain ⟨hx, hstage⟩ := St.at?_eq_some hat
    split at hslot
    · cases hslot
    · cases hslot
      exact .block [] hx (.inr (by rw [hstage]; decide)) (by rw [hstage]; decide) (by simp) (by decide)
        fun _ => .inl ⟨by simp, by rw [hstage]; rfl⟩
  | begins i skip t =>
    obtain ⟨x, hat, rfl⟩ := Option.map_eq_some_iff.1 hnext
    obtain ⟨hx, hstage⟩ := St.at?_eq_some hat
    have hunder : x.stage ≠ .queued ∧ x.stage ≠ .finished := by rw [hstage]; decide
    match skip with
    | none =>
      exact .block [] hx (.inr hunder) (by rw [hstage]; decide) (by simp) (by decide) fun hcalm => hcalm.elim
    | some true =>
      refine .block _ hx (.inr hunder) (by rw [hstage]; decide) (notMem_upTo (by simp)) (by decide) fun hcalm => .inr ?_
      have hwhole : (upTo t [.record .unsent, .item true]).1 = [.record .unsent, .item true] := hcalm
      exact ⟨by rw [hstage]; rfl, by rw [hwhole]; exact ⟨rfl, rfl⟩, rfl⟩
    | some false =>
      refine .block [.doc .syncing] hx (.inr hunder) ?_ (by decide) ?_ fun hcalm => .inl ⟨by simp [Call.quiet], ?_⟩
      · rw [hstage]
        split <;> decide
      · split <;> decide
      · have hdoc : t ≠ some .doc := hcalm
        rw [if_neg hdoc, hstage]
        rfl
  | acquireFails i t =>
    obtain ⟨x, hat, rfl⟩ := Option.map_eq_some_iff.1 hnext
    obtain ⟨hx, hstage⟩ := St.at?_eq_some hat
    refine .block _ hx (.inr (by rw [hstage]; decide)) (by rw [hstage]; decide) (notMem_upTo (by simp [fail])) (by decide)
      fun hcalm => .inr ?_
    have hwhole : (upTo t (fail .openFailed)).1 = fail .openFailed := hcalm
    exact ⟨by rw [hstage]; rfl, by rw [hwhole]; exact balanced_fail _, rfl⟩
  | acquired i view th =>
    obtain ⟨x, hat, rfl⟩ := Option.map_eq_some_iff.1 hnext
    obtain ⟨hx, hstage⟩ := St.at?_eq_some hat
    exact .turn hx (by rw [hstage]; decide) (by rw [hstage]; rfl) (hstage ▸ acquiredTurn_sound view)
      (acquiredTurn_marks view) fun hcalm => hcalm x hat
  | ingested i found th =>
    obtain ⟨x, hat, rfl⟩ := Option.map_eq_some_iff.1 hnext
    obtain ⟨hx, hstage⟩ := St.at?_eq_some hat
    exact .turn hx (by rw [hstage]; decide) (by rw [hstage]; rfl) (hstage ▸ ingestedTurn_sound found)
      (ingestedTurn_marks found) fun hcalm => hcalm x hat
  | fileRead i fileBytes th =>
    obtain ⟨x, hat, rfl⟩ := Option.map_eq_some_iff.1 hnext
    obtain ⟨hx, hstage⟩ := St.at?_eq_some hat
    exact .file hx hstage fun hcalm => hcalm
  | seeded i found th =>
    obtain ⟨x, hat, rfl⟩ := Option.map_eq_some_iff.1 hnext
    obtain ⟨hx, hstage⟩ := St.at?_eq_some hat
    exact .turn hx (by rw [hstage]; decide) (by rw [hstage]; rfl) (seededTurn_sound found) (seededTurn_marks found)
      fun hcalm => hcalm
  | released i =>
    obtain ⟨x, hat, rfl⟩ := Option.map_eq_some_iff.1 hnext
    obtain ⟨hx, hstage⟩ := St.at?_eq_some hat
    exact .block [] hx (.inr (by rw [hstage]; decide)) (by rw [hstage]; decide) (by simp) (by decide)
      fun _ => .inl ⟨by simp, by rw [hstage]; rfl⟩
  | drains =>
    simp only [next] at hnext
    split at hnext
    · next hall =>
      cases hnext
      exact .drains hall.1 hall.2
    · cases hnext
  | sends k =>
    obtain ⟨l, hfind, hsends⟩ := Option.bind_eq_some_iff.1 hnext
    obtain ⟨hl, hwait⟩ := Option.filter_eq_some_iff.1 hfind
    have hstage : l.stage = .waiting := of_decide_eq_true hwait
    split at hsends
    · next hearlier =>
      cases hsends
      exact .link hl (by simp [hstage]) (fun _ => hearlier) (.inl rfl) (by simp [Link.Ok, hstage])
        (by simp [Link.unsettled, hstage]) (by simp [Link.weight, hstage, ATTEMPTS])
    · cases hsends
  | attemptFails k terminal =>
    obtain ⟨⟨l, n⟩, hsending, rfl⟩ := Option.map_eq_some_iff.1 hnext
    obtain ⟨hl, hstage⟩ := St.sending_eq_some hsending
    simp only [St.attemptFails]
    split
    · exact .link hl (by simp [hstage]) (by simp [hstage]) (.inl rfl) (fun _ => by simp [Link.Ok])
        (by simp [Link.unsettled, hstage]) (by simp only [Link.weight, hstage]; omega)
    · exact .link hl (by simp [hstage]) (by simp [hstage]) (.inl rfl) (by simp [Link.Ok, hstage])
        (by simp [Link.unsettled, hstage]) (by simp only [Link.weight, hstage]; omega)
  | answers k results =>
    obtain ⟨⟨l, n⟩, hsending, rfl⟩ := Option.map_eq_some_iff.1 hnext
    obtain ⟨hl, hstage⟩ := St.sending_eq_some hsending
    exact .link hl (by simp [hstage]) (by simp [hstage]) (.inr ⟨n, hstage⟩) (fun _ => by simp [Link.Ok])
      (by simp [Link.unsettled, hstage]) (by simp only [Link.weight, hstage]; omega)
  | settles k io t =>
    obtain ⟨⟨l, p, rest⟩, hsettling, rfl⟩ := Option.map_eq_some_iff.1 hnext
    obtain ⟨hl, hstage⟩ := St.settling_eq_some hsettling
    exact .settles hl hstage fun hcalm => hcalm _ hsettling
  | sent k =>
    obtain ⟨l, hfind, rfl⟩ := Option.map_eq_some_iff.1 hnext
    obtain ⟨hl, hsettled⟩ := Option.filter_eq_some_iff.1 hfind
    have hstage : l.stage = .settling [] := of_decide_eq_true hsettled
    exact .link hl (by simp [hstage]) (by simp [hstage]) (.inl rfl) (fun _ => trivial)
      (by simp [Link.unsettled, hstage]) (by simp [Link.weight, hstage])
  | returns throws =>
    simp only [next] at hnext
    split at hnext
    · next hdrain =>
      cases hnext
      refine .phase _ (by rw [hdrain.1]; cases throws <;> decide) (fun hcalm => ?_) (.inr hdrain)
      have hquiet : throws = false := hcalm
      rw [hquiet]
      decide
    · cases hnext

theorem next_inv (h : Inv work s) (hnext : next width s a = some s') : Inv work s' := by
  cases next_cases hnext with
  | phase p => exact h.setPhase p
  | drains => exact h.flushPending.setPhase _
  | block _ hx hunder hless hmark hread => exact inv_block h hx hmark hread
  | turn hx hunder hopen hsound hmarks => exact inv_take h hx hsound fun hm => absurd hm hmarks
  | @file i x th fileBytes hx hstage =>
    obtain ⟨hserver, hlocal⟩ := h.reading x (mem_of_getElem? hx) hstage
    apply inv_take (h.reads _) hx (hstage ▸ fileTurn_sound fileBytes)
    intro hmarks
    -- the file is empty, and so was the document
    have hzero := fileTurn_marks hmarks
    refine ⟨x.work, ?_, .inr ⟨hserver, _, mem_append_right _ (mem_singleton_self _), rfl, hlocal, hzero⟩⟩
    rw [← h.works, getElem?_map, hx]
    rfl
  | @link k l stage answers error hl hopen hturn hanswers hok =>
    have hearlier : ∀ l' ∈ s.chain.take k, l'.stage = .done := by
      by_cases hwait : l.stage = .waiting
      · exact hturn hwait
      · exact h.earlier hl hwait
    have hlok := h.ok l (mem_of_getElem? hl)
    have hanswers' : l.answers = none ∨ answers = l.answers := by
      rcases hanswers with hsame | ⟨n, hn⟩
      · exact .inr hsame
      · rw [Link.Ok, hn] at hlok
        exact .inl hlok
    have hlink := inv_links h hl hearlier (fun _ => hopen) hanswers' (hok hlok)
    exact ⟨hlink.works, hlink.reading, ⟨hlink.fits.bytes, hlink.fits.few, hlink.fits.light, hlink.fits.links⟩,
      hlink.inTurn, hlink.ok, hlink.pending, hlink.chunks, hlink.marked⟩
  | settles hl hstage => exact inv_settles h hl hstage _ _

theorem step_inv (width : ℕ) (s : St D) (a : Action D) (h : Inv work s) : Inv work (step width s a) := by
  unfold step
  cases hnext : next width s a with
  | none => exact h
  | some s' => exact next_inv h hnext

/-- **Accounts.** A step whose throws are harmless keeps the books. -/
theorem next_keeps (hcalm : Calm s a) (hnext : next width s a = some s') : s.Keeps s' := by
  cases next_cases hnext with
  | phase p => exact .of_eq (fun _ => rfl) rfl rfl
  | drains => exact .of_eq (St.owed_flushPending s) (St.flushPending_outcomes s) (St.flushPending_reports s)
  | block _ hx hunder hless hmark hread hbooks =>
    rcases hbooks hcalm with ⟨hquiet, hopen⟩ | ⟨hopen, hbalanced, hshut⟩
    · exact (St.keeps_quiet s _ hquiet).trans (St.keeps_moves (by rw [St.performs_items]; exact hx) hopen)
    · exact St.keeps_closes hx hopen hbalanced hshut
  | turn hx hunder hopen hsound hmarks hturn => exact St.keeps_take hx hopen hsound (hturn hcalm)
  | @file i x th fileBytes hx hstage hturn =>
    have hreads : s.Keeps (s.reads ⟨i, x.localEmpty, fileBytes⟩) := .of_eq (fun _ => rfl) rfl rfl
    exact hreads.trans (St.keeps_take hx (by rw [hstage]; rfl) (hstage ▸ fileTurn_sound fileBytes) (hturn hcalm))
  | link hl hopen hturn hanswers hok hsame =>
    exact (St.keeps_links hl hsame).trans (.of_eq (fun _ => rfl) rfl rfl)
  | settles hl hstage hturn =>
    obtain ⟨hwhole, hlast⟩ := hturn hcalm
    exact St.keeps_settles hl hstage hwhole hlast

end

end Baalda.BatchPusher
