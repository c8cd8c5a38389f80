/-
The burst brake (versions/shrink-guard.ts): several populated notes emptied by one user in one vault within a window
hold that user's content writes for a while.

The brake keeps three maps under one text key for each user and vault:
- `hits`: the sharp shrinks of a burst that has not engaged the brake yet, one for each note, with its time;
- `held`: the live hold, when it lapses and how many notes it counts;
- `heldDocs`: the notes counted into the live hold.
A hold that has lapsed is forgotten when it is next read. `prune` drops whole windows that have aged out, once there
are many of them.

The clock is read by each call, twice by `recordShrink`, and never runs backwards. A `Run` is the brake together with
everything it was asked and answered, newest first. The law is stated over that past alone (`burst`, `holdUntil`,
`holdDocs`) and knows nothing of the three maps or of pruning.
-/
import Mathlib.Data.List.AList
import Mathlib.Data.Finset.Card
import Mathlib.Data.Finset.Image
import Mathlib.Tactic
import Baalda.Lib.Machine

namespace Baalda.ShrinkBrake

open List

/-! ## Model -/

/-- one live hold: when it lapses and how many notes it counts -/
structure BrakeHold where
  untilMs : Int
  count : ℕ
deriving DecidableEq, Repr

/-- one sharp shrink of a note, with its time -/
structure Hit where
  docId : String
  atMs : Int
deriving DecidableEq, Repr

inductive Outcome where
  | engaged
  | grew
deriving DecidableEq, Repr

/-- how the brake is tuned; `sizeCap` is the number of windows from which `prune` does anything -/
structure Tuning where
  threshold : Int
  windowMs : Int
  holdMs : Int
  sizeCap : ℕ
deriving DecidableEq, Repr

structure Brake where
  hits : AList (fun _ : String => List Hit)
  held : AList (fun _ : String => BrakeHold)
  /-- the distinct notes counted into each live hold -/
  heldDocs : AList (fun _ : String => Finset String)
deriving DecidableEq

def Brake.empty : Brake := ⟨∅, ∅, ∅⟩

def key (userId vaultId : String) : String := vaultId ++ "\x00" ++ userId

/-- the live hold on this user in this vault; an expired one is forgotten on read -/
def holdOf (s : Brake) (userId vaultId : String) (now : Int) : Option BrakeHold × Brake :=
  if userId = "" then (none, s)
  else
    match s.held.lookup (key userId vaultId) with
    | none => (none, s)
    | some hold =>
      if hold.untilMs ≤ now then
        (none, { s with
          held := s.held.erase (key userId vaultId)
          heldDocs := s.heldDocs.erase (key userId vaultId) })
      else (some hold, s)

def isHeld (s : Brake) (userId vaultId : String) (now : Int) : Bool × Brake :=
  ((holdOf s userId vaultId now).1.isSome, (holdOf s userId vaultId now).2)

/-- has every shrink of the window aged out? -/
def aged (cfg : Tuning) (t : Int) (list : List Hit) : Bool := list.all fun h => cfg.windowMs < t - h.atMs

/-- bound memory: drop windows that have aged out entirely -/
def prune (cfg : Tuning) (s : Brake) (t : Int) : Brake :=
  if s.hits.entries.length < cfg.sizeCap then s
  else
    { s with
      hits := s.hits.entries.foldl (fun hits e => if aged cfg t e.2 then hits.erase e.1 else hits) s.hits }

/-- the shrinks of the burst that count at time `t`, `docId`'s own last -/
def recentHits (cfg : Tuning) (s : Brake) (k docId : String) (t : Int) : List Hit :=
  ((s.hits.lookup k).getD []).filter (fun h => t - h.atMs ≤ cfg.windowMs ∧ h.docId ≠ docId) ++ [⟨docId, t⟩]

/-- no hold is live: count the shrink into the burst, and engage the brake when it is one too many -/
def countHit (cfg : Tuning) (s : Brake) (k docId : String) (t : Int) : Option Outcome × Brake :=
  let recent := recentHits cfg s k docId t
  let s := prune cfg { s with hits := s.hits.insert k recent } t
  if (recent.length : Int) < cfg.threshold then (none, s)
  else
    (some .engaged,
      { hits := s.hits.erase k
        held := s.held.insert k ⟨t + cfg.holdMs, recent.length⟩
        heldDocs := s.heldDocs.insert k (recent.map Hit.docId).toFinset })

/-- count one sharp shrink and say what it did; `t` and `now` are the two readings of the clock -/
def recordShrink (cfg : Tuning) (s : Brake) (userId vaultId docId : String) (t now : Int) :
    Option Outcome × Brake :=
  if cfg.threshold ≤ 0 then (none, s)
  else
    match holdOf s userId vaultId now with
    | (some hold, s) =>
      match s.heldDocs.lookup (key userId vaultId) with
      | none => (none, s)
      | some docs =>
        if docId ∈ docs then (none, s)
        else
          (some .grew, { s with
            held := s.held.insert (key userId vaultId) { hold with count := (insert docId docs).card }
            heldDocs := s.heldDocs.insert (key userId vaultId) (insert docId docs) })
    | (none, s) => countHit cfg s (key userId vaultId) docId t

/-- lift a hold early; the burst count restarts from zero as well -/
def release (s : Brake) (userId vaultId : String) (now : Int) : Bool × Brake :=
  let was := isHeld s userId vaultId now
  (was.1,
    { hits := was.2.hits.erase (key userId vaultId)
      held := was.2.held.erase (key userId vaultId)
      heldDocs := was.2.heldDocs.erase (key userId vaultId) })

/-! ## Runs -/

/-- a user in a vault: a user id is never empty, and a vault id is a row's, so it holds no NUL -/
structure Actor where
  userId : String
  vaultId : String
  named : userId ≠ ""
  noNul : '\x00' ∉ vaultId.toList
deriving DecidableEq

def Actor.key (a : Actor) : String := ShrinkBrake.key a.userId a.vaultId

/-- the calls, each with its readings of the clock -/
inductive Call where
  | recordShrink (a : Actor) (docId : String) (t now : Int)
  | holdOf (a : Actor) (now : Int)
  | release (a : Actor) (now : Int)
  | prune (t : Int)
deriving DecidableEq

inductive Answer where
  | shrink (outcome : Option Outcome)
  | hold (hold : Option BrakeHold)
  | released (was : Bool)
  | done
deriving DecidableEq, Repr

/-- the readings of the clock a call makes, in order -/
def Call.reads : Call → List Int
  | .recordShrink _ _ t now => [t, now]
  | .holdOf _ now => [now]
  | .release _ now => [now]
  | .prune t => [t]

def exec (cfg : Tuning) (s : Brake) : Call → Answer × Brake
  | .recordShrink a docId t now =>
    let r := recordShrink cfg s a.userId a.vaultId docId t now
    (.shrink r.1, r.2)
  | .holdOf a now =>
    let r := holdOf s a.userId a.vaultId now
    (.hold r.1, r.2)
  | .release a now =>
    let r := release s a.userId a.vaultId now
    (.released r.1, r.2)
  | .prune t => (.done, prune cfg s t)

abbrev Past := List (Call × Answer)

/-- the brake and everything it was asked and answered, newest first -/
structure Run where
  brake : Brake
  past : Past

def Run.start : Run := ⟨Brake.empty, []⟩

def step (cfg : Tuning) (r : Run) (c : Call) : Run :=
  let e := exec cfg r.brake c
  ⟨e.2, (c, e.1) :: r.past⟩

/-- every reading of the past is at or before `t` -/
def Since (past : Past) (t : Int) : Prop := ∀ e ∈ past, ∀ x ∈ e.1.reads, x ≤ t

/-- the clock does not run backwards -/
def Clocked (r : Run) (c : Call) : Prop :=
  (∀ t ∈ c.reads, Since r.past t) ∧ c.reads.Pairwise (· ≤ ·)

instance (past : Past) (t : Int) : Decidable (Since past t) := inferInstanceAs (Decidable (∀ e ∈ past, _))

instance Clocked.decidable (r : Run) (c : Call) : Decidable (Clocked r c) := inferInstanceAs (Decidable (_ ∧ _))

/-! ## The law, from the past alone -/

/-- does this entry release the actor, or engage the brake on it? -/
def resets (a : Actor) : Call × Answer → Bool
  | (.recordShrink b _ _ _, .shrink (some .engaged)) => b = a
  | (.release b _, _) => b = a
  | _ => false

/-- when the hold engaged last on the actor, and not released since, lapses -/
def holdUntil (cfg : Tuning) (a : Actor) (past : Past) : Option Int :=
  match past.find? (resets a) with
  | some (.recordShrink _ _ t _, _) => some (t + cfg.holdMs)
  | _ => none

/-- is a hold on the actor live when the clock says `now`? -/
def Held (cfg : Tuning) (a : Actor) (past : Past) (now : Int) : Prop :=
  ∃ u, holdUntil cfg a past = some u ∧ now < u

/-- the actor's shrinks since the last reset: the note, the time of the shrink, and the reading the hold was checked
against -/
def shrinks (a : Actor) (past : Past) : List (String × Int × Int) :=
  (past.takeWhile fun e => !resets a e).filterMap fun
    | (.recordShrink b docId t now, _) => if b = a then some (docId, t, now) else none
    | _ => none

/-- the notes the actor shrank within the window before `t`, counted since the last hold ended, was released or
engaged -/
def burst (cfg : Tuning) (a : Actor) (past : Past) (t : Int) : Finset String :=
  (((shrinks a past).filter fun x =>
    ((holdUntil cfg a past).all fun u => u ≤ x.2.2) ∧ t - x.2.1 ≤ cfg.windowMs).map Prod.fst).toFinset

/-- the notes of the hold engaged last: those of the burst that engaged it, and those recorded during it -/
def holdDocs (cfg : Tuning) (a : Actor) (past : Past) : Finset String :=
  match past.dropWhile fun e => !resets a e with
  | (.recordShrink _ docId t _, _) :: before =>
    insert docId (burst cfg a before t) ∪
      (((shrinks a past).filter fun x => x.2.2 < t + cfg.holdMs).map Prod.fst).toFinset
  | _ => ∅

/-! ## Keys -/

theorem takeWhile_key {u v : String} (hv : '\x00' ∉ v.toList) :
    (key u v).toList.takeWhile (fun c => c ≠ '\x00') = v.toList := by
  have hall : ∀ c ∈ v.toList, decide (c ≠ '\x00') = true := by
    intro c hc
    exact decide_eq_true fun h => hv (h ▸ hc)
  have hnul : "\x00".toList = ['\x00'] := by decide
  simp only [key, String.toList_append, hnul, append_assoc]
  rw [takeWhile_append_of_pos hall]
  simp

/-- two actors never share a key -/
theorem Actor.key_inj {a b : Actor} (h : a.key = b.key) : a = b := by
  have hv : a.vaultId = b.vaultId := by
    apply String.toList_inj.1
    rw [← takeWhile_key (u := a.userId) a.noNul, ← takeWhile_key (u := b.userId) b.noNul]
    exact congrArg (fun k => k.toList.takeWhile fun c => c ≠ '\x00') h
  have hu : a.userId = b.userId := by
    have ht := congrArg String.toList h
    simp only [Actor.key, ShrinkBrake.key, String.toList_append, hv] at ht
    exact String.toList_inj.1 (append_cancel_left ht)
  cases a
  cases b
  simp_all

theorem Actor.key_ne {a b : Actor} (h : b ≠ a) : a.key ≠ b.key := fun hk => h (Actor.key_inj hk).symm

/-! ## Windows -/

def hitsAt (s : Brake) (k : String) : List Hit := (s.hits.lookup k).getD []

/-- the notes shrunk within the window before `t`, as the brake has them -/
def inWindow (cfg : Tuning) (s : Brake) (k : String) (t : Int) : Finset String :=
  (((hitsAt s k).filter fun h => t - h.atMs ≤ cfg.windowMs).map Hit.docId).toFinset

@[simp] theorem mem_inWindow {cfg : Tuning} {s : Brake} {k d : String} {t : Int} :
    d ∈ inWindow cfg s k t ↔ ∃ h ∈ hitsAt s k, t - h.atMs ≤ cfg.windowMs ∧ h.docId = d := by
  simp [inWindow, and_assoc]

/-- what dropping the aged windows of a list of entries leaves under a key -/
theorem lookup_foldl_erase (p : List Hit → Bool) (k : String) (es : List (Sigma fun _ : String => List Hit))
    (m : AList fun _ : String => List Hit) :
    (es.foldl (fun m e => if p e.2 then m.erase e.1 else m) m).lookup k = m.lookup k ∨
      (es.foldl (fun m e => if p e.2 then m.erase e.1 else m) m).lookup k = none ∧
        ∃ e ∈ es, e.1 = k ∧ p e.2 = true := by
  induction es generalizing m with
  | nil => exact .inl rfl
  | cons e es ih =>
    simp only [foldl_cons]
    by_cases hp : p e.2 = true
    · simp only [hp, if_true]
      obtain h | ⟨h, e', he', hk, hp'⟩ := ih (m.erase e.1)
      · by_cases hk : e.1 = k
        · exact .inr ⟨by rw [h, ← hk, AList.lookup_erase], e, .head _ .., hk, hp⟩
        · exact .inl (by rw [h, AList.lookup_erase_ne (Ne.symm hk)])
      · exact .inr ⟨h, e', .tail _ he', hk, hp'⟩
    · simp only [hp]
      obtain h | ⟨h, e', he', hk, hp'⟩ := ih m
      · exact .inl h
      · exact .inr ⟨h, e', .tail _ he', hk, hp'⟩

/-- pruning leaves a window as it is, or drops one in which nothing counts any more -/
theorem hitsAt_prune (cfg : Tuning) (s : Brake) (t : Int) (k : String) :
    hitsAt (prune cfg s t) k = hitsAt s k ∨ hitsAt (prune cfg s t) k = [] ∧ aged cfg t (hitsAt s k) = true := by
  unfold prune
  split
  · exact .inl rfl
  obtain h | ⟨h, e, he, hk, hp⟩ := lookup_foldl_erase (aged cfg t) k s.hits.entries s.hits
  · exact .inl (by simp only [hitsAt, h])
  · refine .inr ⟨by simp only [hitsAt, h, Option.getD_none], ?_⟩
    obtain ⟨k', l⟩ := e
    obtain rfl : k' = k := hk
    have hl : s.hits.lookup k' = some l := AList.mem_lookup_iff.2 he
    simpa only [hitsAt, hl, Option.getD_some] using hp

@[simp] theorem held_prune (cfg : Tuning) (s : Brake) (t : Int) : (prune cfg s t).held = s.held := by
  unfold prune; split <;> rfl

@[simp] theorem heldDocs_prune (cfg : Tuning) (s : Brake) (t : Int) : (prune cfg s t).heldDocs = s.heldDocs := by
  unfold prune; split <;> rfl

/-! ## The past -/

section

variable {cfg : Tuning} {a : Actor} {past : Past} {e : Call × Answer}

variable {t : Int}

theorem mem_burst {d : String} :
    d ∈ burst cfg a past t ↔ ∃ x ∈ shrinks a past,
      (∀ u, holdUntil cfg a past = some u → u ≤ x.2.2) ∧ t - x.2.1 ≤ cfg.windowMs ∧ x.1 = d := by
  have hall (y : Int) : ((holdUntil cfg a past).all fun u => decide (u ≤ y)) = true ↔
      ∀ u, holdUntil cfg a past = some u → u ≤ y := by
    cases holdUntil cfg a past <;> simp
  simp only [burst, mem_toFinset, mem_map, mem_filter, Bool.and_eq_true, hall, decide_eq_true_eq,
    and_assoc, Prod.exists]

/-- does this entry count a shrink of the actor, or reset its count? -/
def Silent (a : Actor) (e : Call × Answer) : Prop :=
  resets a e = false ∧ ∀ docId t now, e.1 ≠ .recordShrink a docId t now

/-- another actor's shrink is neither -/
theorem silent_other {b : Actor} (hb : b ≠ a) (docId : String) (t now : Int) (ans : Answer) :
    Silent b (.recordShrink a docId t now, ans) := by
  refine ⟨?_, fun d t' now' he => hb (Call.recordShrink.inj he).1.symm⟩
  match ans with
  | .shrink none | .shrink (some .grew) | .hold _ | .released _ | .done => rfl
  | .shrink (some .engaged) => exact decide_eq_false fun he => hb he.symm

theorem shrinks_silent (h : Silent a e) : shrinks a (e :: past) = shrinks a past := by
  obtain ⟨hr, hc⟩ := h
  simp only [shrinks, takeWhile_cons, hr, Bool.not_false, if_true, filterMap_cons]
  obtain ⟨c, ans⟩ := e
  cases c with
  | recordShrink b docId t now =>
    by_cases hb : b = a
    · exact absurd (hb ▸ rfl) (hc docId t now)
    · simp only [hb, if_false]
  | holdOf b now | release b now | prune t => rfl

theorem holdUntil_cons (h : resets a e = false) : holdUntil cfg a (e :: past) = holdUntil cfg a past := by
  simp only [holdUntil, find?_cons, h]

theorem burst_silent (h : Silent a e) (t : Int) : burst cfg a (e :: past) t = burst cfg a past t := by
  simp only [burst, shrinks_silent h, holdUntil_cons h.1]

theorem holdDocs_silent (h : Silent a e) : holdDocs cfg a (e :: past) = holdDocs cfg a past := by
  simp only [holdDocs, dropWhile_cons, h.1, Bool.not_false, if_true, shrinks_silent h]

/-- a shrink that did not engage the brake -/
def counted (a : Actor) (docId : String) (t now : Int) (o : Option Outcome) : Call × Answer :=
  (.recordShrink a docId t now, .shrink o)

variable {docId : String} {now : Int} {o : Option Outcome}

theorem resets_counted (ho : o ≠ some .engaged) : resets a (counted a docId t now o) = false := by
  match o with
  | none | some .grew => rfl
  | some .engaged => exact absurd rfl ho

theorem shrinks_counted (ho : o ≠ some .engaged) :
    shrinks a (counted a docId t now o :: past) = (docId, t, now) :: shrinks a past := by
  have hr : resets a (counted a docId t now o) = false := resets_counted ho
  unfold counted at hr ⊢
  simp [shrinks, takeWhile_cons, hr]

/-- an entry that resets the actor starts a count of nothing -/
theorem shrinks_reset (h : resets a e = true) : shrinks a (e :: past) = [] := by
  simp [shrinks, takeWhile_cons, h]

theorem burst_reset (h : resets a e = true) (t : Int) : burst cfg a (e :: past) t = ∅ := by
  simp [burst, shrinks_reset h]

theorem resets_engaged : resets a (counted a docId t now (some .engaged)) = true := by
  simp [counted, resets]

theorem holdUntil_engaged :
    holdUntil cfg a (counted a docId t now (some .engaged) :: past) = some (t + cfg.holdMs) := by
  simp only [holdUntil, find?_cons, resets_engaged]
  rfl

theorem holdDocs_engaged :
    holdDocs cfg a (counted a docId t now (some .engaged) :: past) = insert docId (burst cfg a past t) := by
  have hd : (counted a docId t now (some .engaged) :: past).dropWhile (fun e => !resets a e) =
      counted a docId t now (some .engaged) :: past := by
    rw [dropWhile_cons, resets_engaged]; rfl
  unfold holdDocs
  rw [hd]
  simp [counted, shrinks_reset (e := (.recordShrink a docId t now, .shrink (some .engaged))) resets_engaged]

/-- a shrink recorded while a hold is live is counted into the hold, and into no burst -/
theorem burst_held {u : Int} (ho : o ≠ some .engaged) (hu : holdUntil cfg a past = some u) (hnow : now < u) (t' : Int) :
    burst cfg a (counted a docId t now o :: past) t' = burst cfg a past t' := by
  ext d
  simp only [mem_burst, holdUntil_cons (resets_counted ho), shrinks_counted ho, mem_cons]
  constructor
  · rintro ⟨x, rfl | hx, hux, hrest⟩
    · have := hux u hu
      simp only at this
      omega
    · exact ⟨x, hx, hux, hrest⟩
  · intro ⟨x, hx, hrest⟩
    exact ⟨x, .inr hx, hrest⟩

theorem holdDocs_held {u : Int} (ho : o ≠ some .engaged) (hu : holdUntil cfg a past = some u) (hnow : now < u) :
    holdDocs cfg a (counted a docId t now o :: past) = insert docId (holdDocs cfg a past) := by
  have hd : (counted a docId t now o :: past).dropWhile (fun e => !resets a e) =
      past.dropWhile (fun e => !resets a e) := by
    rw [dropWhile_cons, resets_counted ho]; rfl
  have hf : past.find? (resets a) = (past.dropWhile fun e => !resets a e).head? := by
    clear hu hd
    induction past with
    | nil => rfl
    | cons e past ih =>
      cases hr : resets a e with
      | true => simp [find?_cons, dropWhile_cons, hr]
      | false => simp [find?_cons, dropWhile_cons, hr, ih]
  unfold holdDocs
  rw [hd]
  unfold holdUntil at hu
  rw [hf] at hu
  cases hdrop : past.dropWhile fun e => !resets a e with
  | nil => simp [hdrop] at hu
  | cons e before =>
    obtain ⟨c, ans⟩ := e
    rw [hdrop] at hu
    cases c with
    | recordShrink b d t₀ now₀ =>
      obtain rfl : t₀ + cfg.holdMs = u := by simpa using hu
      simp only [shrinks_counted ho, filter_cons, hnow, decide_true, if_true, map_cons,
        toFinset_cons, Finset.union_insert]
    | holdOf b now₀ | release b now₀ | prune t₀ => simp at hu

/-- a shrink recorded with no live hold is counted into the burst -/
theorem mem_burst_counted {d : String} {t' : Int} (ho : o ≠ some .engaged) (hfree : ¬ Held cfg a past now) :
    d ∈ burst cfg a (counted a docId t now o :: past) t' ↔
      docId = d ∧ t' - t ≤ cfg.windowMs ∨ d ∈ burst cfg a past t' := by
  have hu : ∀ u, holdUntil cfg a past = some u → u ≤ now := by
    intro u hu
    by_contra hlt
    exact hfree ⟨u, hu, by omega⟩
  simp only [mem_burst, holdUntil_cons (resets_counted ho), shrinks_counted ho, mem_cons]
  constructor
  · rintro ⟨x, rfl | hx, hux, hw, hd⟩
    · exact .inl ⟨hd, hw⟩
    · exact .inr ⟨x, hx, hux, hw, hd⟩
  · rintro (⟨hd, hw⟩ | ⟨x, hx, hrest⟩)
    · exact ⟨(docId, t, now), .inl rfl, hu, hw, hd⟩
    · exact ⟨x, .inr hx, hrest⟩

end

/-! ## The brake and the past agree -/

/-- the window of an actor, from the reading `c` on -/
structure Window (cfg : Tuning) (s : Brake) (past : Past) (c : Int) (a : Actor) : Prop where
  agrees : ∀ t, c ≤ t → inWindow cfg s a.key t = burst cfg a past t
  nodup : ((hitsAt s a.key).map Hit.docId).Nodup
  before : ∀ x ∈ shrinks a past, x.2.1 ≤ c

/-- the hold on an actor, at the reading `c` -/
structure Hold (cfg : Tuning) (s : Brake) (past : Past) (c : Int) (a : Actor) : Prop where
  live : ∀ hold, s.held.lookup a.key = some hold →
    holdUntil cfg a past = some hold.untilMs ∧ s.heldDocs.lookup a.key = some (holdDocs cfg a past) ∧
      hold.count = (holdDocs cfg a past).card
  lapsed : s.held.lookup a.key = none → ∀ u, holdUntil cfg a past = some u → u ≤ c

section

variable {cfg : Tuning} {a b : Actor} {s s' : Brake} {past : Past} {e : Call × Answer} {c c' : Int}

theorem Window.later (h : Window cfg s past c a) (hc : c ≤ c') : Window cfg s past c' a :=
  ⟨fun t ht => h.agrees t (hc.trans ht), h.nodup, fun x hx => (h.before x hx).trans hc⟩

theorem Hold.later (h : Hold cfg s past c a) (hc : c ≤ c') : Hold cfg s past c' a :=
  ⟨h.live, fun hl u hu => (h.lapsed hl u hu).trans hc⟩

theorem Window.congr (h : Window cfg s past c a) (hs : hitsAt s' a.key = hitsAt s a.key) :
    Window cfg s' past c a := by
  refine ⟨fun t ht => ?_, hs ▸ h.nodup, h.before⟩
  rw [← h.agrees t ht]
  simp only [inWindow, hs]

theorem Window.silent (h : Window cfg s past c a) (he : Silent a e) : Window cfg s (e :: past) c a := by
  refine ⟨fun t ht => ?_, h.nodup, fun x hx => h.before x ?_⟩
  · rw [burst_silent he, h.agrees t ht]
  · rwa [shrinks_silent he] at hx

theorem Hold.congr (h : Hold cfg s past c a) (hs : s'.held.lookup a.key = s.held.lookup a.key)
    (hd : s'.heldDocs.lookup a.key = s.heldDocs.lookup a.key) : Hold cfg s' past c a := by
  refine ⟨fun hold hl => ?_, fun hl => h.lapsed (hs ▸ hl)⟩
  rw [hd]
  exact h.live hold (hs ▸ hl)

theorem Hold.silent (h : Hold cfg s past c a) (he : Silent a e) : Hold cfg s (e :: past) c a := by
  refine ⟨fun hold hl => ?_, fun hl u hu => ?_⟩
  · rw [holdUntil_cons he.1, holdDocs_silent he]
    exact h.live hold hl
  · rw [holdUntil_cons he.1] at hu
    exact h.lapsed hl u hu

/-- pruning takes nothing that counts now or later -/
theorem Window.prune (h : Window cfg s past c a) {t : Int} (ht : t ≤ c) :
    Window cfg (prune cfg s t) past c a := by
  obtain hs | ⟨hs, haged⟩ := hitsAt_prune cfg s t a.key
  · refine ⟨fun t' ht' => ?_, hs ▸ h.nodup, h.before⟩
    rw [← h.agrees t' ht']
    simp only [inWindow, hs]
  · refine ⟨fun t' ht' => ?_, by rw [hs]; exact nodup_nil, h.before⟩
    rw [← h.agrees t' ht']
    ext d
    simp only [mem_inWindow, hs, not_mem_nil, false_and, exists_false, false_iff, not_exists]
    intro x ⟨hx, hw, _⟩
    have hold := of_decide_eq_true (all_eq_true.1 haged x hx)
    omega

theorem Hold.prune (h : Hold cfg s past c a) (t : Int) : Hold cfg (prune cfg s t) past c a :=
  ⟨by simpa using h.live, by simpa using h.lapsed⟩

/-- a live hold is read as it is -/
theorem holdOf_live (h : Hold cfg s past c a) (hc : c ≤ c') (hheld : Held cfg a past c') :
    ∃ hold, holdOf s a.userId a.vaultId c' = (some hold, s) ∧ s.held.lookup a.key = some hold ∧
      holdUntil cfg a past = some hold.untilMs ∧ c' < hold.untilMs := by
  obtain ⟨u, hu, hlt⟩ := hheld
  cases hl : s.held.lookup a.key with
  | none =>
    have hle := h.lapsed hl u hu
    omega
  | some hold =>
    have hlive := (h.live hold hl).1
    obtain rfl : hold.untilMs = u := Option.some.inj (hlive.symm.trans hu)
    refine ⟨hold, ?_, rfl, hlive, hlt⟩
    simp only [Actor.key] at hl
    simp only [holdOf, a.named, if_false, hl, if_neg (not_le.2 hlt)]

/-- with no live hold there is none to read, and none left afterwards -/
theorem holdOf_free (h : Hold cfg s past c a) (hc : c ≤ c') (hfree : ¬ Held cfg a past c') :
    ∃ s', holdOf s a.userId a.vaultId c' = (none, s') ∧ s'.hits = s.hits ∧ s'.held.lookup a.key = none ∧
      Hold cfg s' past c' a := by
  cases hl : s.held.lookup a.key with
  | none =>
    refine ⟨s, ?_, rfl, hl, h.later hc⟩
    simp only [Actor.key] at hl
    simp only [holdOf, a.named, if_false, hl]
  | some hold =>
    have hlive := (h.live hold hl).1
    have hle : hold.untilMs ≤ c' := by
      by_contra hlt
      exact hfree ⟨_, hlive, by omega⟩
    refine ⟨{ s with held := s.held.erase a.key, heldDocs := s.heldDocs.erase a.key }, ?_, rfl,
      AList.lookup_erase _ _, fun x hx => ?_, fun _ u hu => ?_⟩
    · simp only [Actor.key] at hl
      simp only [holdOf, a.named, if_false, hl, if_pos hle, Actor.key]
    · simp only [AList.lookup_erase] at hx
      cases hx
    · obtain rfl : hold.untilMs = u := Option.some.inj (hlive.symm.trans hu)
      exact hle

/-- reading one actor's hold touches no other actor's -/
theorem holdOf_other (s : Brake) {a b : Actor} (hb : b ≠ a) (now : Int) :
    (holdOf s a.userId a.vaultId now).2.hits = s.hits ∧
      (holdOf s a.userId a.vaultId now).2.held.lookup b.key = s.held.lookup b.key ∧
      (holdOf s a.userId a.vaultId now).2.heldDocs.lookup b.key = s.heldDocs.lookup b.key := by
  have hne : b.key ≠ ShrinkBrake.key a.userId a.vaultId := (Actor.key_ne hb).symm
  unfold holdOf
  split
  · exact ⟨rfl, rfl, rfl⟩
  split
  · exact ⟨rfl, rfl, rfl⟩
  split
  · exact ⟨rfl, AList.lookup_erase_ne hne, AList.lookup_erase_ne hne⟩
  · exact ⟨rfl, rfl, rfl⟩

/-! ### Counting into a burst -/

theorem mem_recentHits {k docId : String} {t : Int} {x : Hit} :
    x ∈ recentHits cfg s k docId t ↔
      (x ∈ hitsAt s k ∧ t - x.atMs ≤ cfg.windowMs ∧ x.docId ≠ docId) ∨ x = ⟨docId, t⟩ := by
  simp [recentHits, hitsAt]

theorem nodup_recentHits {k : String} (docId : String) (t : Int) (h : ((hitsAt s k).map Hit.docId).Nodup) :
    ((recentHits cfg s k docId t).map Hit.docId).Nodup := by
  unfold recentHits
  rw [map_append, nodup_append]
  refine ⟨h.sublist (filter_sublist.map _), nodup_singleton _, ?_⟩
  intro d hd d' hd'
  obtain rfl : d' = docId := by simpa using hd'
  obtain ⟨x, hx, rfl⟩ := mem_map.1 hd
  exact (of_decide_eq_true (mem_filter.1 hx).2).2

theorem docs_recentHits (k docId : String) (t : Int) :
    ((recentHits cfg s k docId t).map Hit.docId).toFinset = insert docId (inWindow cfg s k t) := by
  ext d
  simp only [mem_toFinset, mem_map, mem_recentHits, Finset.mem_insert, mem_inWindow]
  constructor
  · rintro ⟨x, ⟨hx, hw, -⟩ | rfl, rfl⟩
    · exact .inr ⟨x, hx, hw, rfl⟩
    · exact .inl rfl
  · rintro (rfl | ⟨x, hx, hw, rfl⟩)
    · exact ⟨⟨d, t⟩, .inr rfl, rfl⟩
    · by_cases hd : x.docId = docId
      · exact ⟨⟨docId, t⟩, .inr rfl, hd.symm⟩
      · exact ⟨x, .inl ⟨hx, hw, hd⟩, rfl⟩

/-- the burst a shrink is counted into has as many shrinks as notes -/
theorem length_recentHits (h : Window cfg s past c a) (docId : String) :
    (recentHits cfg s a.key docId c).length = (insert docId (burst cfg a past c)).card := by
  calc (recentHits cfg s a.key docId c).length
      = ((recentHits cfg s a.key docId c).map Hit.docId).length := (length_map _).symm
    _ = ((recentHits cfg s a.key docId c).map Hit.docId).toFinset.card :=
        (toFinset_card_of_nodup (nodup_recentHits docId c h.nodup)).symm
    _ = (insert docId (inWindow cfg s a.key c)).card := by rw [docs_recentHits]
    _ = (insert docId (burst cfg a past c)).card := by rw [h.agrees c le_rfl]

/-- a burst with the shrink counted in is what the past says of it -/
theorem Window.counted (h : Window cfg s past c a) {docId : String} {now : Int} {o : Option Outcome}
    (ho : o ≠ some .engaged) (hfree : ¬ Held cfg a past now)
    (hs : hitsAt s' a.key = recentHits cfg s a.key docId c) :
    Window cfg s' (ShrinkBrake.counted a docId c now o :: past) c a := by
  refine ⟨fun t ht => ?_, by rw [hs]; exact nodup_recentHits docId c h.nodup, fun x hx => ?_⟩
  · ext d
    rw [mem_burst_counted ho hfree, ← h.agrees t ht]
    simp only [mem_inWindow, hs, mem_recentHits]
    constructor
    · rintro ⟨x, ⟨hx, -, -⟩ | rfl, hw, hd⟩
      · exact .inr ⟨x, hx, hw, hd⟩
      · exact .inl ⟨hd, hw⟩
    · rintro (⟨hd, hw⟩ | ⟨x, hx, hw, hd⟩)
      · exact ⟨⟨docId, c⟩, .inr rfl, hw, hd⟩
      by_cases hx' : x.docId = docId
      · -- an older shrink of the same note is replaced by this one, which counts for longer
        have hin : x.docId ∈ burst cfg a past t := by
          rw [← h.agrees t ht]
          exact mem_inWindow.2 ⟨x, hx, hw, rfl⟩
        obtain ⟨y, hy, -, hyw, -⟩ := mem_burst.1 hin
        have hyc := h.before y hy
        exact ⟨⟨docId, c⟩, .inr rfl, by simp only; omega, hx'.symm.trans hd⟩
      · exact ⟨x, .inl ⟨hx, by omega, hx'⟩, hw, hd⟩
  · rw [shrinks_counted ho] at hx
    obtain rfl | hx := mem_cons.1 hx
    · exact le_rfl
    · exact h.before x hx

/-! ### One call -/

instance Held.decidable (past : Past) (now : Int) : Decidable (Held cfg a past now) :=
  decidable_of_iff (∃ u ∈ holdUntil cfg a past, now < u) Iff.rfl

/-- what the past says of the next shrink -/
def verdict (cfg : Tuning) (a : Actor) (past : Past) (docId : String) (t now : Int) : Option Outcome :=
  if cfg.threshold ≤ 0 then none
  else if Held cfg a past now then if docId ∈ holdDocs cfg a past then none else some .grew
  else if cfg.threshold ≤ (insert docId (burst cfg a past t)).card then some .engaged
  else none

/-- with no live hold, the shrink is counted into the burst, and engages the brake when it is one too many -/
theorem countHit_own (hw : Window cfg s past c a) (hh : Hold cfg s past c' a) (hnone : s.held.lookup a.key = none)
    (hc : c ≤ c') (hfree : ¬ Held cfg a past c') (docId : String) :
    let r := countHit cfg s a.key docId c
    r.1 = (if cfg.threshold ≤ (insert docId (burst cfg a past c)).card then some .engaged else none) ∧
      Window cfg r.2 (counted a docId c c' r.1 :: past) c' a ∧
        Hold cfg r.2 (counted a docId c c' r.1 :: past) c' a := by
  have hlen := length_recentHits hw docId
  have hdocs : ((recentHits cfg s a.key docId c).map Hit.docId).toFinset = insert docId (burst cfg a past c) := by
    rw [docs_recentHits, hw.agrees c le_rfl]
  unfold countHit
  by_cases hlt : ((recentHits cfg s a.key docId c).length : Int) < cfg.threshold
  · simp only [if_pos hlt]
    refine ⟨?_, ?_, fun hold hl => ?_, fun hl u hu => ?_⟩
    · rw [if_neg (by omega)]
    · have hins : hitsAt { s with hits := s.hits.insert a.key (recentHits cfg s a.key docId c) } a.key =
          recentHits cfg s a.key docId c := by
        simp only [hitsAt, AList.lookup_insert, Option.getD_some]
      exact ((hw.counted (by simp) hfree hins).prune le_rfl).later hc
    · rw [held_prune] at hl
      exact (nomatch hnone.symm.trans hl)
    · exact hh.lapsed hnone u hu
  · simp only [if_neg hlt]
    refine ⟨?_, ⟨fun t _ => ?_, ?_, fun x hx => ?_⟩, fun hold hl => ?_, fun hl => ?_⟩
    · rw [if_pos (by omega)]
    · rw [burst_reset resets_engaged]
      simp [inWindow, hitsAt]
    · simp [hitsAt]
    · rw [shrinks_reset resets_engaged] at hx
      cases hx
    · simp only [AList.lookup_insert, Option.some.injEq] at hl ⊢
      obtain rfl := hl
      rw [holdUntil_engaged, holdDocs_engaged, hdocs]
      exact ⟨rfl, rfl, hlen⟩
    · simp only [AList.lookup_insert] at hl
      cases hl

/-- **One shrink.** The verdict is the past's, and the brake and the past still agree on the actor. -/
theorem recordShrink_own (hon : 0 < cfg.threshold) (hw : Window cfg s past c a) (hh : Hold cfg s past c a)
    (hc : c ≤ c') (docId : String) :
    let r := recordShrink cfg s a.userId a.vaultId docId c c'
    r.1 = verdict cfg a past docId c c' ∧ Window cfg r.2 (counted a docId c c' r.1 :: past) c' a ∧
      Hold cfg r.2 (counted a docId c c' r.1 :: past) c' a := by
  have hoff : ¬ cfg.threshold ≤ 0 := by omega
  by_cases hheld : Held cfg a past c'
  · obtain ⟨hold, hread, hl, hu, hlt⟩ := holdOf_live hh hc hheld
    obtain ⟨-, hdocs, hcount⟩ := hh.live hold hl
    have hdocs' := hdocs
    simp only [Actor.key] at hdocs'
    have hwin {o : Option Outcome} (ho : o ≠ some .engaged) :
        Window cfg s (counted a docId c c' o :: past) c' a := by
      refine ⟨fun t ht => ?_, hw.nodup, fun x hx => ?_⟩
      · rw [burst_held ho hu hlt, hw.agrees t (hc.trans ht)]
      · rw [shrinks_counted ho] at hx
        obtain rfl | hx := mem_cons.1 hx
        · exact hc
        · exact (hw.before x hx).trans hc
    simp only [recordShrink, if_neg hoff, hread, hdocs', verdict, if_pos hheld]
    by_cases hmem : docId ∈ holdDocs cfg a past
    · simp only [if_pos hmem]
      refine ⟨trivial, hwin (by simp), fun hold' hl' => ?_, fun hl' => ?_⟩
      · rw [holdUntil_cons (resets_counted (by simp)), holdDocs_held (by simp) hu hlt, Finset.insert_eq_of_mem hmem]
        exact hh.live hold' hl'
      · rw [hl] at hl'
        cases hl'
    · simp only [if_neg hmem]
      refine ⟨trivial, (hwin (by simp)).congr rfl, fun hold' hl' => ?_, fun hl' => ?_⟩
      · simp only [Actor.key, AList.lookup_insert, Option.some.injEq] at hl' ⊢
        obtain rfl := hl'
        rw [holdUntil_cons (resets_counted (by simp)), holdDocs_held (by simp) hu hlt]
        exact ⟨hu, rfl, rfl⟩
      · simp only [Actor.key, AList.lookup_insert] at hl'
        cases hl'
  · obtain ⟨s₁, hread, hhits, hnone, hh₁⟩ := holdOf_free hh hc hheld
    have hw₁ : Window cfg s₁ past c a := hw.congr (by simp only [hitsAt, hhits])
    simp only [recordShrink, if_neg hoff, hread, verdict, if_neg hheld]
    exact countHit_own hw₁ hh₁ hnone hc hheld docId

section

variable (hw : Window cfg s past c b) (hh : Hold cfg s past c b)

include hw hh

theorem countHit_other (hb : b ≠ a) (docId : String) :
    Window cfg (countHit cfg s a.key docId c).2 past c b ∧ Hold cfg (countHit cfg s a.key docId c).2 past c b := by
  have hne : b.key ≠ a.key := (Actor.key_ne hb).symm
  have hw₁ : Window cfg { s with hits := s.hits.insert a.key (recentHits cfg s a.key docId c) } past c b :=
    hw.congr (by simp only [hitsAt, AList.lookup_insert_ne hne])
  have hh₁ : Hold cfg { s with hits := s.hits.insert a.key (recentHits cfg s a.key docId c) } past c b :=
    hh.congr rfl rfl
  simp only [countHit]
  split
  · exact ⟨hw₁.prune le_rfl, hh₁.prune c⟩
  · refine ⟨(hw₁.prune le_rfl).congr ?_, (hh₁.prune c).congr ?_ ?_⟩
    · simp only [hitsAt, AList.lookup_erase_ne hne]
    · exact AList.lookup_insert_ne hne
    · exact AList.lookup_insert_ne hne

/-- one actor's shrink touches no other actor -/
theorem recordShrink_other (hb : b ≠ a) (docId : String) (now : Int) :
    let r := recordShrink cfg s a.userId a.vaultId docId c now
    Window cfg r.2 past c b ∧ Hold cfg r.2 past c b := by
  have hne : b.key ≠ ShrinkBrake.key a.userId a.vaultId := (Actor.key_ne hb).symm
  obtain ⟨hhits, hheld, hdocs⟩ := holdOf_other s hb now
  have hw₁ : Window cfg (holdOf s a.userId a.vaultId now).2 past c b := hw.congr (by simp only [hitsAt, hhits])
  have hh₁ : Hold cfg (holdOf s a.userId a.vaultId now).2 past c b := hh.congr hheld hdocs
  unfold recordShrink
  split
  · exact ⟨hw, hh⟩
  split
  · next hold s₁ hread =>
    rw [hread] at hw₁ hh₁
    split
    · exact ⟨hw₁, hh₁⟩
    split
    · exact ⟨hw₁, hh₁⟩
    · exact ⟨hw₁.congr rfl, hh₁.congr (AList.lookup_insert_ne hne) (AList.lookup_insert_ne hne)⟩
  · next s₁ hread =>
    rw [hread] at hw₁ hh₁
    exact countHit_other hw₁ hh₁ hb docId

/-- reading a hold changes nothing the past speaks of -/
theorem holdOf_keeps (a : Actor) :
    Window cfg (holdOf s a.userId a.vaultId c).2 past c b ∧ Hold cfg (holdOf s a.userId a.vaultId c).2 past c b := by
  by_cases hb : b = a
  · obtain rfl := hb
    by_cases hheld : Held cfg b past c
    · obtain ⟨hold, hread, -⟩ := holdOf_live hh le_rfl hheld
      rw [hread]
      exact ⟨hw, hh⟩
    · obtain ⟨s₁, hread, hhits, -, hh₁⟩ := holdOf_free hh le_rfl hheld
      rw [hread]
      exact ⟨hw.congr (by simp only [hitsAt, hhits]), hh₁⟩
  · obtain ⟨hhits, hheld, hdocs⟩ := holdOf_other s hb c
    exact ⟨hw.congr (by simp only [hitsAt, hhits]), hh.congr hheld hdocs⟩

end

theorem release_own (a : Actor) (now : Int) (ans : Answer) :
    Window cfg (release s a.userId a.vaultId now).2 ((.release a now, ans) :: past) c a ∧
      Hold cfg (release s a.userId a.vaultId now).2 ((.release a now, ans) :: past) c a := by
  have hr : resets a (.release a now, ans) = true := by simp [resets]
  have hu : holdUntil cfg a ((.release a now, ans) :: past) = none := by
    simp only [holdUntil, find?_cons, hr]
  refine ⟨⟨fun t _ => ?_, ?_, fun x hx => ?_⟩, fun hold hl => ?_, fun _ u hu' => ?_⟩
  · rw [burst_reset hr]
    simp [inWindow, hitsAt, release, Actor.key]
  · simp [hitsAt, release, Actor.key]
  · rw [shrinks_reset hr] at hx
    cases hx
  · simp only [release, Actor.key, AList.lookup_erase] at hl
    cases hl
  · exact (nomatch hu.symm.trans hu')

theorem release_other (hw : Window cfg s past c b) (hh : Hold cfg s past c b) (hb : b ≠ a) :
    Window cfg (release s a.userId a.vaultId c).2 past c b ∧ Hold cfg (release s a.userId a.vaultId c).2 past c b := by
  have hne : b.key ≠ ShrinkBrake.key a.userId a.vaultId := (Actor.key_ne hb).symm
  obtain ⟨hw₁, hh₁⟩ := holdOf_keeps hw hh a
  refine ⟨hw₁.congr ?_, hh₁.congr (AList.lookup_erase_ne hne) (AList.lookup_erase_ne hne)⟩
  simp only [hitsAt, release, isHeld, AList.lookup_erase_ne hne]

end

/-! ## Whole runs -/

/-- the brake and its past agree on every actor, whenever the clock is read next -/
def Agrees (cfg : Tuning) (r : Run) : Prop :=
  ∀ c, Since r.past c → ∀ a, Window cfg r.brake r.past c a ∧ Hold cfg r.brake r.past c a

section

variable {cfg : Tuning} {r : Run}

theorem agrees_start : Agrees cfg .start := by
  intro c _ a
  refine ⟨⟨fun t _ => ?_, ?_, ?_⟩, ?_, ?_⟩
  · simp [Run.start, Brake.empty, inWindow, hitsAt, burst, shrinks]
  · simp [Run.start, Brake.empty, hitsAt]
  · simp [Run.start, shrinks]
  · simp [Run.start, Brake.empty]
  · simp [Run.start, holdUntil]

variable {c : Call}

/-- **One step.** -/
theorem step_agrees (hon : 0 < cfg.threshold) (h : Agrees cfg r) (hc : Clocked r c) : Agrees cfg (step cfg r c) := by
  intro c' hc' b
  have hreads : ∀ x ∈ c.reads, x ≤ c' := hc' _ (.head _ ..)
  obtain ⟨hsince, hmono⟩ := hc
  cases c with
  | recordShrink a docId t now =>
    have htnow : t ≤ now := by simpa [Call.reads] using hmono
    have hnow : now ≤ c' := hreads now (by simp [Call.reads])
    have hsincet := hsince t (by simp [Call.reads])
    by_cases hb : b = a
    · obtain rfl := hb
      obtain ⟨-, hw, hh⟩ := recordShrink_own hon (h t hsincet b).1 (h t hsincet b).2 htnow docId
      exact ⟨hw.later hnow, hh.later hnow⟩
    · obtain ⟨hw, hh⟩ := recordShrink_other (h t hsincet b).1 (h t hsincet b).2 hb docId now
      have hsilent (ans : Answer) : Silent b (.recordShrink a docId t now, ans) := silent_other hb docId t now ans
      exact ⟨(hw.silent (hsilent _)).later (htnow.trans hnow), (hh.silent (hsilent _)).later (htnow.trans hnow)⟩
  | holdOf a now =>
    have hsincet := hsince now (by simp [Call.reads])
    have hnow : now ≤ c' := hreads now (by simp [Call.reads])
    obtain ⟨hw, hh⟩ := holdOf_keeps (h now hsincet b).1 (h now hsincet b).2 a
    have hsilent (ans : Answer) : Silent b (.holdOf a now, ans) := ⟨rfl, fun _ _ _ he => nomatch he⟩
    exact ⟨(hw.silent (hsilent _)).later hnow, (hh.silent (hsilent _)).later hnow⟩
  | release a now =>
    have hsincet := hsince now (by simp [Call.reads])
    have hnow : now ≤ c' := hreads now (by simp [Call.reads])
    by_cases hb : b = a
    · obtain rfl := hb
      exact release_own b now _
    · obtain ⟨hw, hh⟩ := release_other (h now hsincet b).1 (h now hsincet b).2 hb
      have hsilent (ans : Answer) : Silent b (.release a now, ans) :=
        ⟨decide_eq_false fun he => hb he.symm, fun _ _ _ he => nomatch he⟩
      exact ⟨(hw.silent (hsilent _)).later hnow, (hh.silent (hsilent _)).later hnow⟩
  | prune t =>
    have hsincet := hsince t (by simp [Call.reads])
    have ht : t ≤ c' := hreads t (by simp [Call.reads])
    have hsilent (ans : Answer) : Silent b (.prune t, ans) := ⟨rfl, fun _ _ _ he => nomatch he⟩
    exact ⟨(((h t hsincet b).1.prune le_rfl).silent (hsilent _)).later ht,
      (((h t hsincet b).2.prune t).silent (hsilent _)).later ht⟩

/-- a brake that is switched off has nothing in its maps, and never engaged -/
def Off (r : Run) : Prop := r.brake = Brake.empty ∧ ∀ e ∈ r.past, e.2 ≠ .shrink (some .engaged)

theorem Off.holdUntil (h : Off r) (a : Actor) : holdUntil cfg a r.past = none := by
  unfold ShrinkBrake.holdUntil
  cases hf : r.past.find? (resets a) with
  | none => rfl
  | some e =>
    have hmem := h.2 e (mem_of_find?_eq_some hf)
    have hr := find?_some hf
    obtain ⟨c, ans⟩ := e
    cases c with
    | recordShrink b d t now =>
      match ans with
      | .shrink (some .engaged) => exact absurd rfl hmem
      | .shrink (some .grew) | .shrink none | .hold _ | .released _ | .done => cases hr
    | holdOf b now | release b now | prune t => rfl

theorem holdOf_empty (userId vaultId : String) (now : Int) :
    holdOf Brake.empty userId vaultId now = (none, Brake.empty) := by
  unfold holdOf
  split
  · rfl
  · rfl

/-- what the past says of the next call -/
def lawAnswer (cfg : Tuning) (past : Past) : Call → Answer
  | .recordShrink a docId t now => .shrink (verdict cfg a past docId t now)
  | .holdOf a now =>
    .hold <| if Held cfg a past now then (holdUntil cfg a past).map fun u => ⟨u, (holdDocs cfg a past).card⟩ else none
  | .release a now => .released (Held cfg a past now)
  | .prune _ => .done

/-- the hold a call reads is the past's -/
theorem holdOf_law (h : Agrees cfg r) {a : Actor} {now : Int} (hnow : Since r.past now) :
    (holdOf r.brake a.userId a.vaultId now).1 =
      if Held cfg a r.past now then (holdUntil cfg a r.past).map fun u => ⟨u, (holdDocs cfg a r.past).card⟩
      else none := by
  have hh := (h now hnow a).2
  by_cases hheld : Held cfg a r.past now
  · obtain ⟨hold, hread, hl, hu, -⟩ := holdOf_live hh le_rfl hheld
    have hcount := (hh.live hold hl).2.2
    rw [hread, if_pos hheld, hu, Option.map_some, ← hcount]
  · obtain ⟨s', hread, -⟩ := holdOf_free hh le_rfl hheld
    rw [hread, if_neg hheld]

/-- **One answer.** Every call answers what the past says. -/
theorem exec_law (h : 0 < cfg.threshold → Agrees cfg r) (hoff : ¬ 0 < cfg.threshold → Off r) (hc : Clocked r c) :
    (exec cfg r.brake c).1 = lawAnswer cfg r.past c := by
  by_cases hon : 0 < cfg.threshold
  · have hr := h hon
    cases c with
    | recordShrink a docId t now =>
      have hw := hr t (hc.1 t (by simp [Call.reads])) a
      have htnow : t ≤ now := by simpa [Call.reads] using hc.2
      exact congrArg Answer.shrink (recordShrink_own hon hw.1 hw.2 htnow docId).1
    | holdOf a now => exact congrArg Answer.hold (holdOf_law hr (hc.1 now (by simp [Call.reads])))
    | release a now =>
      have hread := holdOf_law hr (a := a) (hc.1 now (by simp [Call.reads]))
      simp only [exec, release, isHeld, lawAnswer, hread]
      by_cases hheld : Held cfg a r.past now
      · obtain ⟨u, hu, hlt⟩ := id hheld
        simp [hheld, hu]
      · simp [hheld]
    | prune t => rfl
  · have hfree (a : Actor) (now : Int) : ¬ Held cfg a r.past now := by
      intro ⟨u, hu, _⟩
      exact (nomatch ((hoff hon).holdUntil a).symm.trans hu)
    have hbrake := (hoff hon).1
    cases c with
    | recordShrink a docId t now => simp [exec, recordShrink, lawAnswer, verdict, not_lt.1 hon]
    | holdOf a now => simp [exec, lawAnswer, hbrake, holdOf_empty, hfree]
    | release a now => simp [exec, release, isHeld, lawAnswer, hbrake, holdOf_empty, hfree]
    | prune t => rfl

theorem exec_off (hoff : ¬ 0 < cfg.threshold) (c : Call) :
    (exec cfg Brake.empty c).2 = Brake.empty ∧ (exec cfg Brake.empty c).1 ≠ .shrink (some .engaged) := by
  cases c with
  | recordShrink a docId t now => simp [exec, recordShrink, not_lt.1 hoff]
  | holdOf a now => simp [exec, holdOf_empty]
  | release a now =>
    refine ⟨?_, fun he => nomatch he⟩
    simp only [exec, release, isHeld, holdOf_empty]
    rfl
  | prune t =>
    refine ⟨?_, fun he => nomatch he⟩
    simp only [exec, prune]
    split <;> rfl

theorem step_off (hoff : ¬ 0 < cfg.threshold) (h : Off r) : Off (step cfg r c) := by
  obtain ⟨hbrake, hpast⟩ := h
  have hexec := exec_off hoff c
  rw [← hbrake] at hexec
  refine ⟨hexec.1.trans hbrake, fun e he => ?_⟩
  obtain rfl | he := mem_cons.1 he
  · exact hexec.2
  · exact hpast e he

variable {calls : List Call}

theorem run_agrees (hon : 0 < cfg.threshold) (h : Machine.Guarded (step cfg) Clocked .start calls) :
    Agrees cfg (Machine.run (step cfg) .start calls) :=
  Machine.run_inv (fun _ _ hr hc => step_agrees hon hr hc) agrees_start h

theorem run_off (hoff : ¬ 0 < cfg.threshold) (calls : List Call) : Off (Machine.run (step cfg) .start calls) :=
  Machine.run_inv_all Off (fun _ _ hr => step_off hoff hr) ⟨rfl, fun _ he => nomatch he⟩

/-- every call of a run answers what its past says -/
theorem run_law (h : Machine.Guarded (step cfg) Clocked .start calls)
    (hc : Clocked (Machine.run (step cfg) .start calls) c) :
    (exec cfg (Machine.run (step cfg) .start calls).brake c).1 =
      lawAnswer cfg (Machine.run (step cfg) .start calls).past c :=
  exec_law (fun hon => run_agrees hon h) (fun hoff => run_off hoff calls) hc

/-! ### Without pruning -/

def Call.asks : Call → Bool
  | .prune _ => false
  | _ => true

/-- the past without its prunings -/
def asked (past : Past) : Past := past.filter fun e => e.1.asks

theorem asked_cons (e : Call × Answer) (past : Past) :
    asked (e :: past) = if e.1.asks then e :: asked past else asked past := by
  simp only [asked, filter_cons]

variable {past : Past}

theorem silent_prune {e : Call × Answer} (h : e.1.asks = false) (a : Actor) : Silent a e := by
  obtain ⟨c, ans⟩ := e
  cases c with
  | recordShrink b docId t now | holdOf b now | release b now => cases h
  | prune t => exact ⟨rfl, fun _ _ _ he => nomatch he⟩

theorem holdUntil_asked (a : Actor) : holdUntil cfg a (asked past) = holdUntil cfg a past := by
  induction past with
  | nil => rfl
  | cons e past ih =>
    rw [asked_cons]
    cases hasks : e.1.asks with
    | false => rw [if_neg (by simp), ih, holdUntil_cons (silent_prune hasks a).1]
    | true =>
      rw [if_pos rfl]
      cases hr : resets a e with
      | false => rw [holdUntil_cons hr, holdUntil_cons hr, ih]
      | true => simp only [holdUntil, find?_cons, hr]

theorem shrinks_asked (a : Actor) : shrinks a (asked past) = shrinks a past := by
  induction past with
  | nil => rfl
  | cons e past ih =>
    rw [asked_cons]
    cases hasks : e.1.asks with
    | false => rw [if_neg (by simp), ih, shrinks_silent (silent_prune hasks a)]
    | true =>
      rw [if_pos rfl]
      cases hr : resets a e with
      | true => rw [shrinks_reset hr, shrinks_reset hr]
      | false =>
        simp only [shrinks] at ih
        simp only [shrinks, takeWhile_cons, hr, Bool.not_false, if_true, filterMap_cons, ih]

theorem burst_asked (a : Actor) (t : Int) : burst cfg a (asked past) t = burst cfg a past t := by
  simp only [burst, shrinks_asked, holdUntil_asked]

theorem dropWhile_asked (a : Actor) :
    (asked past).dropWhile (fun e => !resets a e) = asked (past.dropWhile fun e => !resets a e) := by
  induction past with
  | nil => rfl
  | cons e past ih =>
    rw [asked_cons]
    cases hasks : e.1.asks with
    | false => rw [if_neg (by simp), ih, dropWhile_cons, (silent_prune hasks a).1]; rfl
    | true =>
      rw [if_pos rfl, dropWhile_cons, dropWhile_cons]
      cases hr : resets a e with
      | false => exact ih
      | true => simp [asked, hasks]

theorem holdDocs_asked (a : Actor) : holdDocs cfg a (asked past) = holdDocs cfg a past := by
  unfold holdDocs
  rw [dropWhile_asked, shrinks_asked]
  cases hd : past.dropWhile fun e => !resets a e with
  | nil => rfl
  | cons e before =>
    have hr : resets a e = true := by
      have hne : past.dropWhile (fun e => !resets a e) ≠ [] := by simp [hd]
      have hhead := head_dropWhile_not (fun e => !resets a e) hne
      simpa [hd] using hhead
    obtain ⟨c, ans⟩ := e
    cases c with
    | recordShrink b docId t now =>
      have hcons : asked ((.recordShrink b docId t now, ans) :: before) =
          (.recordShrink b docId t now, ans) :: asked before := rfl
      simp only [hcons, burst_asked]
    | holdOf b now | prune t => cases hr
    | release b now => rfl

/-- the law speaks of no pruning, and of no number of windows -/
theorem lawAnswer_asked (n : ℕ) (c : Call) :
    lawAnswer { cfg with sizeCap := n } (asked past) c = lawAnswer cfg past c := by
  have hu (a : Actor) : holdUntil { cfg with sizeCap := n } a (asked past) = holdUntil cfg a past := holdUntil_asked a
  have hb (a : Actor) (t : Int) : burst { cfg with sizeCap := n } a (asked past) t = burst cfg a past t :=
    burst_asked a t
  have hd (a : Actor) : holdDocs { cfg with sizeCap := n } a (asked past) = holdDocs cfg a past := holdDocs_asked a
  have hheld (a : Actor) (now : Int) : Held { cfg with sizeCap := n } a (asked past) now ↔ Held cfg a past now := by
    simp only [Held, hu]
  cases c with
  | recordShrink a docId t now => simp only [lawAnswer, verdict, hheld, hd, hb]
  | holdOf a now => simp only [lawAnswer, hheld, hu, hd]
  | release a now => simp only [lawAnswer, hheld]
  | prune t => rfl

theorem Clocked.asked {r : Run} (h : Clocked r c) (s : Brake) : Clocked ⟨s, ShrinkBrake.asked r.past⟩ c :=
  ⟨fun t ht e he => h.1 t ht e (mem_filter.1 he).1, h.2⟩

/-- **Pruning is not seen.** The calls of a run that are no prunings, made on a brake with any other size from which
pruning starts, get the same answers. -/
theorem run_asked (n : ℕ) (h : Machine.Guarded (step cfg) Clocked .start calls) :
    Machine.Guarded (step { cfg with sizeCap := n }) Clocked .start (calls.filter Call.asks) ∧
      (Machine.run (step { cfg with sizeCap := n }) .start (calls.filter Call.asks)).past =
        asked (Machine.run (step cfg) .start calls).past := by
  induction calls using reverseRecOn with
  | nil => exact ⟨trivial, rfl⟩
  | append_singleton calls c ih =>
    obtain ⟨hrun, hc⟩ := (Machine.guarded_snoc ..).1 h
    obtain ⟨hg, hpast⟩ := ih hrun
    rw [Machine.run_snoc, filter_append]
    cases hasks : c.asks with
    | false =>
      have hnone : [c].filter Call.asks = [] := by simp [hasks]
      rw [hnone, append_nil]
      refine ⟨hg, hpast.trans ?_⟩
      simp only [step, asked_cons, hasks]
      rfl
    | true =>
      have hone : [c].filter Call.asks = [c] := by simp [hasks]
      have hc' : Clocked (Machine.run (step { cfg with sizeCap := n }) .start (calls.filter Call.asks)) c := by
        have hasked := hc.asked (Machine.run (step { cfg with sizeCap := n }) .start (calls.filter Call.asks)).brake
        rw [← hpast] at hasked
        exact hasked
      rw [hone, Machine.run_snoc]
      refine ⟨(Machine.guarded_snoc ..).2 ⟨hg, hc'⟩, ?_⟩
      have hans := run_law hg hc'
      rw [hpast, lawAnswer_asked, ← run_law hrun hc] at hans
      simp only [step, asked_cons, hasks, if_true, hpast, hans]

end

/-! ## The law -/

/-- **The law of the brake.** After every run, whatever was recorded, read, released and pruned in it:
- a shrink engages the brake exactly when the brake is switched on, no hold on the actor is live, and the notes the
  actor shrank within the window, counted since the last hold ended, was released or engaged, reach the threshold;
- while a hold is live it counts the notes of the burst that engaged it and those recorded during it, each once;
- no further shrink moves the time it lapses;
- without the prunings, every other call gets the same answer. -/
theorem brake_law (cfg : Tuning) (calls : List Call) (h : Machine.Guarded (step cfg) Clocked .start calls) :
    let r := Machine.run (step cfg) .start calls
    (∀ a docId t now, Clocked r (.recordShrink a docId t now) →
      ((recordShrink cfg r.brake a.userId a.vaultId docId t now).1 = some .engaged ↔
        0 < cfg.threshold ∧ ¬ Held cfg a r.past now ∧
          cfg.threshold ≤ (insert docId (burst cfg a r.past t)).card)) ∧
    (∀ a now, Clocked r (.holdOf a now) → ∀ hold,
      (holdOf r.brake a.userId a.vaultId now).1 = some hold ↔
        holdUntil cfg a r.past = some hold.untilMs ∧ now < hold.untilMs ∧
          hold.count = (holdDocs cfg a r.past).card) ∧
    (∀ a b docId t now, Clocked r (.recordShrink b docId t now) → Held cfg a r.past now →
      holdUntil cfg a (step cfg r (.recordShrink b docId t now)).past = holdUntil cfg a r.past) ∧
    ∀ n, (Machine.run (step { cfg with sizeCap := n }) .start (calls.filter Call.asks)).past = asked r.past := by
  have hengaged (a docId t now) (hc : Clocked (Machine.run (step cfg) .start calls) (.recordShrink a docId t now)) :
      (recordShrink cfg (Machine.run (step cfg) .start calls).brake a.userId a.vaultId docId t now).1 =
        some .engaged ↔ 0 < cfg.threshold ∧ ¬ Held cfg a (Machine.run (step cfg) .start calls).past now ∧
          cfg.threshold ≤ (insert docId (burst cfg a (Machine.run (step cfg) .start calls).past t)).card := by
    rw [Answer.shrink.inj (run_law h hc), verdict]
    split_ifs <;> simp_all
  refine ⟨hengaged, fun a now hc hold => ?_, fun a b docId t now hc hheld => ?_, fun n => (run_asked n h).2⟩
  · rw [Answer.hold.inj (run_law h hc)]
    by_cases hheld : Held cfg a (Machine.run (step cfg) .start calls).past now
    · obtain ⟨u, hu, hlt⟩ := id hheld
      obtain ⟨untilMs, count⟩ := hold
      simp only [if_pos hheld, hu, Option.map_some, Option.some.injEq, BrakeHold.mk.injEq]
      constructor
      · rintro ⟨rfl, rfl⟩
        exact ⟨rfl, hlt, rfl⟩
      · rintro ⟨rfl, -, hcount⟩
        exact ⟨rfl, hcount.symm⟩
    · rw [if_neg hheld]
      constructor
      · exact fun hx => nomatch hx
      · intro ⟨hu, hlt, _⟩
        exact absurd ⟨_, hu, hlt⟩ hheld
  · apply holdUntil_cons
    by_cases hb : a = b
    · obtain rfl := hb
      apply resets_counted
      intro he
      exact ((hengaged a docId t now hc).1 he).2.1 hheld
    · exact (silent_other hb docId t now _).1

/-! ## Runs on fixed inputs -/

def alice : Actor := ⟨"alice", "v", by decide, by decide⟩

/-- two notes within a minute hold the user for half an hour -/
def tuning : Tuning := ⟨2, 60000, 1800000, 1024⟩

/-- the second note of a burst engages the brake -/
theorem second_note_engages :
    (recordShrink tuning (Machine.run (step tuning) .start [.recordShrink alice "a" 0 0, .prune 5]).brake
      alice.userId alice.vaultId "b" 60000 60000).1 = some .engaged :=
  ((brake_law tuning [.recordShrink alice "a" 0 0, .prune 5] (by decide +kernel)).1 alice "b" 60000 60000
    (by decide +kernel)).2 (by decide +kernel)

/-- Two notes that follow the one that engaged the brake reach the threshold again, and only grow the hold, which
counts the burst that engaged it too. A brake with threshold zero engages on nothing. -/
theorem engage_restarts :
    let r := Machine.run (step tuning) .start
      [.recordShrink alice "a" 0 0, .recordShrink alice "b" 1 1, .recordShrink alice "c" 2 2]
    Clocked r (.recordShrink alice "d" 3 3) ∧
      tuning.threshold ≤ (insert "d" (((shrinks alice r.past).filter fun x =>
        3 - x.2.1 ≤ tuning.windowMs).map Prod.fst).toFinset).card ∧
      (recordShrink tuning r.brake alice.userId alice.vaultId "d" 3 3).1 = some .grew ∧
      (holdOf r.brake alice.userId alice.vaultId 3).1 = some ⟨1800001, 3⟩ ∧
      ((shrinks alice r.past).map Prod.fst).toFinset.card = 1 ∧
      (recordShrink { tuning with threshold := 0 } Brake.empty alice.userId alice.vaultId "d" 3 3).1 = none := by
  intro r
  decide +kernel

end Baalda.ShrinkBrake
