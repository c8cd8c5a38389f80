/-
Whether every window of the binaries' delete queue is decided (`BinaryDeleteQueue.arm`, `drain`).

An entry of `pending` makes `isPending` (and, once retried, `hasUnsettled`) true until a drain takes it. `Decided`: a
timer is armed, or the drain under way has every entry in its batch. A failed listing keeps its batch and arms; a refused
move keeps its candidate and does not. A timer that fires while a drain is under way, or while the queue is not current,
is spent.

`windows_decided`: otherwise every window is decided. `window_left_open`: the three ways out.
-/
import Baalda.Desktop.BinaryDeletes

namespace Baalda.BinaryDeletes

open List

variable {Path K Sha Id : Type*} [DecidableEq Path] [DecidableEq K] [DecidableEq Sha] [DecidableEq Id]

/-! ## What is to hold -/

/-- every entry is in the batch of the drain under way -/
def St.InBatch (s : St Path K Sha Id) : Prop := ∃ d ∈ s.drain, ∀ p ∈ s.pending, p.uid ∈ d.batch.map Pending.uid

/-- nothing is pending, or its decision is scheduled -/
def St.Decided (s : St Path K Sha Id) : Prop := s.pending = [] ∨ s.timer = true ∨ s.InBatch

section

variable (io : Io Path K Sha) (s : St Path K Sha Id)

/-- no entry is to be kept when the drain ends -/
def St.NoneKept : Prop := ∀ p ∈ s.pending, io.key p.relPath ∉ s.retained

/-- a refusal would keep an entry: the row was to be moved, in this vault, and the candidate has a window left -/
def St.wouldKeep : Bool := match s.drain with
  | some d => match d.stage with
    | .moving item renamedTo row _ => row.isSome && s.current && decide (item.attempts + 1 < maxListingRetries) &&
        (s.isPending io item.relPath || s.isPending io renamedTo)
    | _ => false
  | none => false

/-- a timer fires into a drain only if the drain decides everything, and in a queue that is current; a move is refused
only with a timer armed -/
def NoneDropped : Action Path Sha Id → Prop
  | .timerFires => s.pending = [] ∨ (s.drain = none ∧ s.current) ∨ (s.InBatch ∧ s.NoneKept io)
  | .moveAnswers false => s.timer ∨ s.wouldKeep io = false
  | _ => True

end

instance (s : St Path K Sha Id) : Decidable s.InBatch := by
  unfold St.InBatch
  cases s.drain <;> simp only [Option.mem_def] <;> infer_instance

instance (io : Io Path K Sha) (s : St Path K Sha Id) : Decidable (s.NoneKept io) := by
  unfold St.NoneKept
  infer_instance

instance (io : Io Path K Sha) (s : St Path K Sha Id) (a : Action Path Sha Id) : Decidable (NoneDropped io s a) := by
  unfold NoneDropped
  split <;> infer_instance

/-! ## Every step -/

structure St.Watched (io : Io Path K Sha) (s : St Path K Sha Id) : Prop where
  decided : s.Decided
  kept : s.timer = true ∨ s.NoneKept io
  retained : ∀ k ∈ s.retained, ∃ d ∈ s.drain, k ∈ d.window io

namespace St

variable {io : Io Path K Sha} {s s' : St Path K Sha Id} {d d' : Drain Path K Sha Id}

theorem InBatch.mem (h : s.InBatch) (hd : s.drain = some d) : ∀ p ∈ s.pending, p.uid ∈ d.batch.map Pending.uid := by
  obtain ⟨d', hd', hall⟩ := h
  rw [hd] at hd'
  cases hd'
  exact hall

theorem Watched.window (h : s.Watched io) (hd : s.drain = some d) : ∀ k ∈ s.retained, k ∈ d.window io := by
  intro k hk
  obtain ⟨d', hd', hmem⟩ := h.retained k hk
  rw [hd] at hd'
  cases hd'
  exact hmem

/-- with no drain, nothing is retained -/
theorem Watched.idle (h : s.Watched io) (hd : s.drain = none) : s.retained = [] := by
  apply eq_nil_iff_forall_not_mem.mpr
  intro k hk
  obtain ⟨d, hd', _⟩ := h.retained k hk
  rw [hd] at hd'
  cases hd'

theorem Watched.same (h : s.Watched io) (hpending : s'.pending = s.pending) (htimer : s'.timer = s.timer)
    (hretained : s'.retained = s.retained) (hdrain : s'.drain = s.drain) : s'.Watched io := by
  obtain ⟨hdecided, hkept, hwindow⟩ := h
  constructor
  · unfold Decided InBatch at hdecided ⊢
    rwa [hpending, htimer, hdrain]
  · unfold NoneKept at hkept ⊢
    rwa [htimer, hpending, hretained]
  · rwa [hretained, hdrain]

/-- the drain goes on with its batch -/
theorem Watched.goesOn (h : s.Watched io) (hd : s.drain = some d) (hd' : s'.drain = some d')
    (hbatch : d'.batch = d.batch) (hpending : s'.pending = s.pending) (htimer : s'.timer = s.timer)
    (hretained : s'.retained = s.retained) : s'.Watched io := by
  constructor
  · unfold Decided
    rw [hpending, htimer]
    rcases h.decided with hnil | harmed | hin
    · exact .inl hnil
    · exact .inr (.inl harmed)
    · refine .inr (.inr ⟨d', hd', ?_⟩)
      rw [hpending, hbatch]
      exact hin.mem hd
  · have hkept := h.kept
    unfold NoneKept at hkept ⊢
    rwa [htimer, hpending, hretained]
  · intro k hk
    rw [hretained] at hk
    refine ⟨d', hd', ?_⟩
    have hmem := h.window hd k hk
    unfold Drain.window at hmem ⊢
    rwa [hbatch]

/-- the end of a drain leaves nothing retained, and nothing pending but what has a timer -/
theorem watched_finishes (hin : s.timer = true ∨ ∀ p ∈ s.pending, p.uid ∈ d.batch.map Pending.uid)
    (hkept : s.timer = true ∨ s.NoneKept io) (hwindow : ∀ k ∈ s.retained, k ∈ d.window io) :
    (s.finishes io d).Watched io := by
  have hnil : (s.finishes io d).retained = [] := by
    apply filter_eq_nil_iff.mpr
    intro k hk
    simp [hwindow k hk]
  constructor
  · by_cases htimer : s.timer = true
    · exact .inr (.inl htimer)
    · refine .inl (filter_eq_nil_iff.mpr ?_)
      intro p hp
      have huid := hin.resolve_left htimer p hp
      have hkey := hkept.resolve_left htimer p hp
      simp [huid, hkey]
  · refine .inr ?_
    intro p _
    rw [hnil]
    exact not_mem_nil
  · rw [hnil]
    exact fun k hk => absurd hk not_mem_nil

section

variable (h : s.Watched io) (hd : s.drain = some d)

include h hd

theorem Watched.finishes (hbatch : d'.batch = d.batch) : (s.finishes io d').Watched io := by
  apply watched_finishes
  · rw [hbatch]
    rcases h.decided with hnil | harmed | hin
    · exact .inr fun p hp => absurd (hnil ▸ hp) not_mem_nil
    · exact .inl harmed
    · exact .inr (hin.mem hd)
  · exact h.kept
  · unfold Drain.window
    rw [hbatch]
    exact h.window hd

theorem Watched.checked (hbatch : d'.batch = d.batch) (switched : Bool) : (s.checked io d' switched).Watched io := by
  unfold St.checked
  split
  · exact h.finishes hd hbatch
  · exact h.goesOn hd rfl hbatch rfl rfl rfl

theorem Watched.asks : (s.asks d).Watched io := by
  unfold St.asks
  split
  · split
    · exact h.goesOn hd rfl rfl rfl rfl rfl
    · exact h
  · exact h

theorem Watched.answers (i : ℕ) (a : Answer) : (s.answers io d i a).Watched io := by
  unfold St.answers
  split
  · dsimp only
    split
    · split
      · apply h.checked hd
        rfl
      · exact h.goesOn hd rfl rfl rfl rfl rfl
    · exact h
  · exact h

theorem Watched.pairs (p : Pairing Path K Sha Id) : (s.pairs io d p).Watched io := by
  unfold St.pairs
  split
  · exact h.goesOn hd rfl rfl rfl rfl rfl
  · split
    · exact h.finishes hd rfl
    · exact h.goesOn hd rfl rfl rfl rfl rfl

theorem Watched.lists (l : Listing Path Sha Id) : (s.lists io d l).Watched io := by
  unfold St.lists
  split
  · split
    · exact h.pairs hd _
    · exact h.finishes hd rfl
  · exact h

theorem Watched.removes (l : Listing Path Sha Id)
    (deletes : List (Delete Path Sha Id)) (cursor : ℕ) (underway : List (Delete Path Sha Id)) :
    (s.removes io d l deletes cursor underway).Watched io := by
  unfold St.removes
  split
  · exact h.finishes hd rfl
  · exact h.goesOn hd rfl rfl rfl rfl rfl

theorem Watched.starts : (s.starts io d).Watched io := by
  unfold St.starts
  split
  · split
    · exact h.goesOn hd rfl rfl rfl rfl rfl
    · exact h.removes hd _ _ _ _
  · exact h

theorem Watched.deleteAnswers (i : ℕ) (removed : Bool) : (s.deleteAnswers io d i removed).Watched io := by
  unfold St.deleteAnswers
  split
  · split
    · next l deletes cursor underway _ x _ =>
      have hrest : (if removed then s.forgetFileId x.item.relPath else s).Watched io := by
        cases removed
        · exact h
        · exact h.same rfl rfl rfl rfl
      apply hrest.removes
      cases removed <;> exact hd
    · exact h
  · exact h

end

/-! ### Entries that wait for another window -/

theorem uids_bump (item : Pending Path) (p : Pending Path) (hp : p ∈ (s.bump item).pending) :
    ∃ q ∈ s.pending, q.uid = p.uid ∧ q.relPath = p.relPath := by
  obtain ⟨q, hq, rfl⟩ := mem_map.mp hp
  refine ⟨q, hq, ?_⟩
  split <;> exact ⟨rfl, rfl⟩

/-- what a failed listing keeps is of the batch -/
theorem retained_keeps (kept : List (Pending Path)) (k : K)
    (hk : k ∈ (kept.foldl (fun s item => (s.bump item).retain (io.key item.relPath)) s).retained) :
    k ∈ s.retained ∨ ∃ item ∈ kept, k = io.key item.relPath := by
  induction kept generalizing s with
  | nil => exact .inl hk
  | cons item kept ih =>
    rcases ih hk with hold | ⟨item', hitem', hkey⟩
    · rcases mem_cons.mp hold with hkey | hkeep
      · exact .inr ⟨item, .head _, hkey⟩
      · exact .inl (mem_of_mem_filter hkeep)
    · exact .inr ⟨item', mem_cons_of_mem item hitem', hkey⟩

/-- a failed listing arms a timer for what it keeps -/
theorem Watched.listingFails (h : s.Watched io) (hd : s.drain = some d) : (s.listingFails io d).Watched io := by
  unfold St.listingFails
  split
  · dsimp only
    set kept := d.batch.filter fun item => item.attempts + 1 < maxListingRetries with hkeptdef
    split
    · next hnil =>
      rw [hnil]
      exact h.finishes hd rfl
    · apply watched_finishes
      · exact .inl rfl
      · exact .inl rfl
      · intro k hk
        rcases retained_keeps kept k hk with hold | ⟨item, hitem, rfl⟩
        · exact h.window hd k hold
        · exact mem_map_of_mem (mem_of_mem_filter hitem)
  · exact h

theorem wouldKeep_moving {item : Pending Path} {renamedTo : Path} {row : Option Id} {rest : Pairing Path K Sha Id}
    (hd : s.drain = some d) (hstage : d.stage = .moving item renamedTo row rest) :
    s.wouldKeep io = (row.isSome && s.current && decide (item.attempts + 1 < maxListingRetries) &&
      (s.isPending io item.relPath || s.isPending io renamedTo)) := by
  unfold wouldKeep
  rw [hd]
  dsimp only
  rw [hstage]

theorem isPending_retain (k : K) (relPath : Path) : (s.retain k).isPending io relPath = s.isPending io relPath := rfl

theorem isPending_bump (item : Pending Path) (relPath : Path) :
    (s.bump item).isPending io relPath = s.isPending io relPath := by
  unfold isPending bump
  rw [any_map]
  congr 1
  funext p
  dsimp only [Function.comp]
  split <;> rfl

theorem not_isPending {relPath : Path} (h : s.isPending io relPath = false) :
    ∀ p ∈ s.pending, io.key p.relPath ≠ io.key relPath := by
  intro p hp heq
  have htrue : s.isPending io relPath = true := any_eq_true.mpr ⟨p, hp, by simpa using heq⟩
  rw [h] at htrue
  cases htrue

/-- entries keep their objects, and one key more is retained -/
theorem Watched.retains (h : s.Watched io) (hd : s.drain = some d) (item : Pending Path) (ks : List K)
    (hretained : ∀ k ∈ s'.retained, k ∈ s.retained ∨ k ∈ ks) (hks : ∀ k ∈ ks, k ∈ d.window io)
    (hpending : s'.pending = (s.bump item).pending) (htimer : s'.timer = s.timer) (hdrain : s'.drain = s.drain)
    (hnone : s.timer = true ∨ ∀ p ∈ s.pending, io.key p.relPath ∉ ks) : s'.Watched io := by
  have huids : ∀ p ∈ s'.pending, ∃ q ∈ s.pending, q.uid = p.uid ∧ q.relPath = p.relPath := by
    rw [hpending]
    exact uids_bump item
  constructor
  · unfold Decided InBatch
    rw [htimer, hdrain]
    rcases h.decided with hnil | harmed | hin
    · refine .inl ?_
      rw [hpending]
      unfold bump
      rw [hnil]
      rfl
    · exact .inr (.inl harmed)
    · refine .inr (.inr ⟨d, hd, ?_⟩)
      intro p hp
      obtain ⟨q, hq, huid, _⟩ := huids p hp
      rw [← huid]
      exact hin.mem hd q hq
  · rw [htimer]
    by_cases harmed : s.timer = true
    · exact .inl harmed
    · refine .inr ?_
      intro p hp hkey
      obtain ⟨q, hq, _, hpath⟩ := huids p hp
      rw [← hpath] at hkey
      rcases hretained _ hkey with hold | hnew
      · exact h.kept.resolve_left harmed q hq hold
      · exact hnone.resolve_left harmed q hq hnew
  · intro k hk
    rw [hdrain]
    refine ⟨d, hd, ?_⟩
    rcases hretained k hk with hold | hnew
    · exact h.window hd k hold
    · exact hks k hnew

/-- a refused move keeps its entries where a timer is armed -/
theorem Watched.moved (h : s.Watched io) (hd : s.drain = some d) {item : Pending Path} {renamedTo : Path}
    {row : Option Id} {rest : Pairing Path K Sha Id} (hstage : d.stage = .moving item renamedTo row rest)
    (hitem : io.key item.relPath ∈ d.window io) (hto : io.key renamedTo ∈ d.window io) (hcurrent : s.current = true)
    (ok : Bool) (hok : ok = false → s.timer = true ∨ s.wouldKeep io = false) :
    (s.moved io item renamedTo row ok).Watched io := by
  unfold St.moved
  split
  · exact h
  · next hrow =>
    split
    · unfold moveFileId
      split
      · exact h.same rfl rfl rfl rfl
      · exact h
    · next hrefused =>
      split
      · next hwindow =>
        have hrow : row.isSome = true := Option.isSome_iff_ne_none.mpr hrow
        have hnot : s.timer = true ∨ s.isPending io item.relPath = false ∧ s.isPending io renamedTo = false := by
          refine (hok (by simpa using hrefused)).imp id ?_
          intro hkeep
          rw [wouldKeep_moving hd hstage, hrow, hcurrent, decide_eq_true hwindow] at hkeep
          simpa using hkeep
        dsimp only
        rw [isPending_retain, isPending_bump]
        split
        · next hpending =>
          refine h.retains hd item [io.key item.relPath, io.key renamedTo] ?_ ?_ rfl rfl rfl ?_
          · intro k hk
            unfold retain bump at hk
            simp only [mem_cons, mem_filter, ne_eq, decide_not] at hk
            simp only [mem_cons, not_mem_nil, or_false]
            tauto
          · intro k hk
            simp only [mem_cons, not_mem_nil, or_false] at hk
            rcases hk with rfl | rfl
            · exact hitem
            · exact hto
          · refine hnot.imp id ?_
            intro hnone
            rw [hpending] at hnone
            exact absurd hnone.2 (by simp)
        · refine h.retains hd item [io.key item.relPath] ?_ ?_ rfl rfl rfl ?_
          · intro k hk
            unfold retain bump at hk
            simp only [mem_cons, mem_filter] at hk
            rcases hk with rfl | hold
            · exact .inr mem_cons_self
            · exact .inl hold.1
          · intro k hk
            obtain rfl := mem_singleton.mp hk
            exact hitem
          · refine hnot.imp id ?_
            intro hnone p hp hkey
            exact not_isPending hnone.1 p hp (mem_singleton.mp hkey)
      · exact h

end St

/-! ## Runs -/

section

variable {io : Io Path K Sha} {s : St Path K Sha Id}

namespace St

theorem Watched.noteChanged (h : s.Watched io) (relPath : Path) : (s.noteChanged io relPath).Watched io := by
  unfold St.noteChanged
  split_ifs
  · exact h.same rfl rfl rfl rfl
  · exact h.same rfl rfl rfl rfl
  · exact h.same rfl rfl rfl rfl
  · exact ⟨.inr (.inl rfl), .inl rfl, h.retained⟩

theorem Watched.suppressNext (h : s.Watched io) (relPath : Path) : (s.suppressNext io relPath).Watched io := by
  obtain ⟨hdecided, hkept, hwindow⟩ := h
  constructor
  · rcases hdecided with hnil | harmed | ⟨d, hd, hin⟩
    · refine .inl ?_
      unfold St.suppressNext
      rw [hnil]
      rfl
    · exact .inr (.inl harmed)
    · refine .inr (.inr ⟨_, Option.mem_map_of_mem _ hd, ?_⟩)
      intro p hp
      exact hin p (mem_of_mem_filter hp)
  · exact hkept.imp id fun hnone p hp => hnone p (mem_of_mem_filter hp)
  · intro k hk
    obtain ⟨d, hd, hmem⟩ := hwindow k hk
    exact ⟨_, Option.mem_map_of_mem _ hd, hmem⟩

/-- a drain that begins takes every entry -/
theorem watched_drains (hdrain : s.drain = none) (hretained : s.retained = [])
    (hcurrent : s.current = true ∨ s.pending = [] ∨ s.timer = true) : (s.drains io).Watched io := by
  have hnone : s.NoneKept io := by
    intro p _
    rw [hretained]
    exact not_mem_nil
  have hwindow : ∀ (d : Drain Path K Sha Id), ∀ k ∈ s.retained, k ∈ d.window io := by
    rw [hretained]
    exact fun d k hk => absurd hk not_mem_nil
  have hidle : s.pending = [] ∨ s.timer = true → s.Watched io := by
    intro hp
    refine ⟨hp.imp id .inl, .inr hnone, ?_⟩
    rw [hretained]
    exact fun k hk => absurd hk not_mem_nil
  unfold St.drains
  split_ifs with hsome hcur hnil hlive
  · simp [hdrain] at hsome
  · exact hidle (hcurrent.resolve_left (by simpa using hcur))
  · exact hidle (.inl hnil)
  · exact watched_finishes (.inr fun p hp => mem_map_of_mem hp) (.inr hnone) (hwindow _)
  · refine ⟨.inr (.inr ⟨_, rfl, fun p hp => mem_map_of_mem hp⟩), .inr hnone, ?_⟩
    rw [hretained]
    exact fun k hk => absurd hk not_mem_nil

theorem Watched.drains (h : s.Watched io) : (s.drains io).Watched io := by
  cases hd : s.drain with
  | none =>
    by_cases hcurrent : s.current = true
    · exact watched_drains hd (h.idle hd) (.inl hcurrent)
    · have hsame : s.drains io = s := by
        unfold St.drains
        simp [hd, hcurrent]
      rw [hsame]
      exact h
  | some d =>
    have hsame : s.drains io = s := by
      unfold St.drains
      simp [hd]
    rw [hsame]
    exact h

/-- a timer that fires when it may -/
theorem Watched.timerFires (h : s.Watched io) (hok : NoneDropped io s .timerFires) : (s.timerFires io).Watched io := by
  unfold St.timerFires
  split
  · rcases Option.eq_none_or_eq_some s.drain with hd | ⟨d, hd⟩
    · refine watched_drains (s := { s with timer := false }) hd (h.idle hd) ?_
      rcases hok with hnil | hidle | ⟨⟨d, hd', _⟩, _⟩
      · exact .inr (.inl hnil)
      · exact .inl hidle.2
      · rw [hd] at hd'
        cases hd'
    · have hsame : ({ s with timer := false } : St Path K Sha Id).drains io = { s with timer := false } := by
        unfold St.drains
        simp [hd]
      rw [hsame]
      rcases hok with hnil | hidle | ⟨hin, hnone⟩
      · refine ⟨.inl hnil, .inr ?_, h.retained⟩
        intro p hp
        exact absurd (hnil ▸ hp) not_mem_nil
      · exact absurd hidle.1 (by simp [hd])
      · exact ⟨.inr (.inr hin), .inr hnone, h.retained⟩
  · exact h

theorem Watched.moveAnswers (h : s.Watched io) (hknows : s.Ok io) {d : Drain Path K Sha Id} (hd : s.drain = some d)
    (ok : Bool) (hok : ok = false → s.timer = true ∨ s.wouldKeep io = false) : (s.moveAnswers io d ok).Watched io := by
  unfold St.moveAnswers
  split
  · next item renamedTo row rest hstage =>
    have hdrain := (hknows d hd).2
    rw [hstage] at hdrain
    obtain ⟨hasked, hto, _⟩ := hdrain
    have hitem : io.key item.relPath ∈ d.window io := mem_map_of_mem (of_mem_zip hasked).1
    unfold St.moveAnswered
    rw [hstage]
    dsimp only
    by_cases hcurrent : s.current = true
    · rw [if_pos hcurrent]
      apply (h.moved hd hstage hitem hto hcurrent ok hok).pairs
      rw [← hd]
      unfold St.moved
      dsimp only
      split_ifs
      · rfl
      · unfold moveFileId
        split <;> rfl
      all_goals rfl
    · rw [if_neg hcurrent]
      exact h.finishes hd rfl
  · exact h

end St

theorem watched_step (a : Action Path Sha Id) (hknows : s.Ok io) (h : s.Watched io) (hok : NoneDropped io s a) :
    (step io s a).Watched io := by
  have hdrain : ∀ f : Drain Path K Sha Id → St Path K Sha Id, (∀ d, s.drain = some d → (f d).Watched io) →
      (s.inDrain f).Watched io := by
    intro f hf
    unfold St.inDrain
    split
    · next d hd => exact hf d hd
    · exact h
  cases a with
  | noteChanged relPath => exact h.noteChanged relPath
  | suppressNext relPath => exact h.suppressNext relPath
  | timerFires => exact h.timerFires hok
  | drains => exact h.drains
  | asks => exact hdrain _ fun d hd => h.asks hd
  | answers i a => exact hdrain _ fun d hd => h.answers hd i a
  | lists l => exact hdrain _ fun d hd => h.lists hd l
  | listingFails => exact hdrain _ fun d hd => h.listingFails hd
  | moveAnswers ok =>
    refine hdrain _ fun d hd => h.moveAnswers hknows hd ok ?_
    rintro rfl
    exact hok
  | starts => exact hdrain _ fun d hd => h.starts hd
  | deleteAnswers i removed => exact hdrain _ fun d hd => h.deleteAnswers hd i removed
  | stop => exact ⟨.inl rfl, .inr fun p hp => absurd hp not_mem_nil, fun k hk => absurd hk not_mem_nil⟩
  | setCurrent current | setLive live => exact h.same rfl rfl rfl rfl
  | setFileId relPath id => cases id <;> exact h.same rfl rfl rfl rfl

end

/-- **Every window is decided, where none is dropped.** In a run whose timers fire into an idle and current queue, or
into a drain that decides everything pending, and whose moves are refused only with a timer armed, whatever is pending
at its end has a timer or is in the batch of the drain under way. -/
theorem windows_decided (io : Io Path K Sha) (fileIds : List (Path × Id)) (current live : Bool)
    (as : List (Action Path Sha Id)) (h : Machine.Guarded (step io) (NoneDropped io) (.fresh fileIds current live) as) :
    (run io (.fresh fileIds current live) as).Decided := by
  have hinv : (run io (.fresh fileIds current live) as).Ok io ∧ (run io (.fresh fileIds current live) as).Watched io := by
    have hstep : ∀ (s : St Path K Sha Id) (a : Action Path Sha Id), (s.Ok io ∧ s.Watched io) → NoneDropped io s a →
        (step io s a).Ok io ∧ (step io s a).Watched io :=
      fun s a hs hok => ⟨ok_step io s a hs.1, watched_step a hs.1 hs.2 hok⟩
    apply Machine.run_inv hstep _ h
    exact ⟨St.Ok.idle rfl, .inl rfl, .inr fun p hp => absurd hp not_mem_nil,
      fun k hk => absurd hk not_mem_nil⟩
  exact hinv.2.decided

/-- a renamed file, whose move is refused after another event has armed the timer -/
def refusedRun : List (Action ℕ ℕ ℕ) :=
  [.noteChanged 7, .noteChanged 8, .timerFires, .asks, .asks, .answers 0 .notFound, .answers 1 .found,
    .lists ⟨[⟨8, 5⟩], [⟨90, 5, some 7⟩]⟩, .noteChanged 8, .moveAnswers false]

theorem windows_decided_refused :
    Machine.Guarded (step plainIo) (NoneDropped plainIo) (.fresh [(7, 70)] true true) refusedRun ∧
      (run plainIo (.fresh [(7, 70)] true true) refusedRun).Decided :=
  ⟨by decide, windows_decided plainIo [(7, 70)] true true refusedRun (by decide)⟩

/-- **Windows left open.** After a move that is refused with no timer armed, after a timer that fires into a drain while
another path waits, and after one that fires while the root is missing, something is pending with nothing scheduled. -/
theorem window_left_open :
    ¬ (run plainIo (.fresh [(7, 70)] true true)
        [.noteChanged 7, .noteChanged 8, .timerFires, .asks, .asks, .answers 0 .notFound, .answers 1 .found,
          .lists ⟨[⟨8, 5⟩], [⟨90, 5, some 7⟩]⟩, .moveAnswers false]).Decided ∧
      ¬ (run plainIo (.fresh [(7, 70)] true true)
        [.noteChanged 7, .timerFires, .noteChanged 8, .timerFires]).Decided ∧
      ¬ (run plainIo (.fresh [(7, 70)] true true)
        [.noteChanged 7, .setCurrent false, .timerFires, .setCurrent true]).Decided := by
  unfold St.Decided
  refine ⟨?_, ?_, ?_⟩ <;> decide

end Baalda.BinaryDeletes
