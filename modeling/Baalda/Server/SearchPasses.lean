/-
Shared search passes (`passKey`, `joinPass`, `drainPasses` and `withPassSlot` in index/indexer.ts).

A search joins the queue of its pass key. The first one starts the key's drain, which takes a batch from the queue when
it has a slot, runs one pass for all of it, gives the slot back and looks at the queue again; between these it gives way
to everything else. A drain that has ended stays in the list, so that its place names it; `passQueues` is what is in the
list and has not ended. What a pass reads and finds is a parameter (`searchPass`), and so is the hash.

- `rows_of_passKey`: scopes with one pass key read the same rows;
- `passes_answer`: in every run each search is answered at most once, with its own result or the error of the pass that
  it was in; who is not answered is in a queue that is drained; at most two passes run, each with a waiting caller's
  key; and once no search joins any more, all are answered, whatever comes first.
-/
import Mathlib.Data.Char
import Mathlib.Data.List.Lex
import Baalda.Lib.Machine
import Baalda.Lib.Slots

namespace Baalda.SearchPasses

open List

/-! ## Scopes -/

abbrev Text := List Char

abbrev Bytes := List UInt8

def nul : Char := Char.ofNat 0

/-- an id, which has no `nul` in it -/
structure Id where
  text : Text
  plain : nul ∉ text
  deriving DecidableEq

structure DocCrypto where
  generation : ℕ
  key : Bytes
  deriving DecidableEq

structure PassScope where
  vaultId : Id
  docIds : List Id
  includeFiles : Bool
  vaultWideReader : Bool
  legacySql : Bool
  crypto : Option DocCrypto
  deriving DecidableEq

namespace PassScope

def sorted (scope : PassScope) : List Id := scope.docIds.mergeSort fun a b => decide (a.text ≤ b.text)

def flagText (b : Bool) : Text := if b then ['t', 'r', 'u', 'e'] else ['f', 'a', 'l', 's', 'e']

def generationText : Option DocCrypto → Text
  | some crypto => Nat.toDigits 10 crypto.generation
  | none => []

def pieces (scope : PassScope) : List Text :=
  [scope.vaultId.text, generationText scope.crypto, flagText scope.includeFiles, flagText scope.vaultWideReader,
    flagText scope.legacySql] ++ scope.sorted.map Id.text

/-- what a pass over the scope reads -/
structure Rows where
  vaultId : Id
  generation : Option ℕ
  includeFiles : Bool
  vaultWideReader : Bool
  legacySql : Bool
  docIds : Finset Id
  deriving DecidableEq

def rows (scope : PassScope) : Rows :=
  ⟨scope.vaultId, scope.crypto.map DocCrypto.generation, scope.includeFiles, scope.vaultWideReader, scope.legacySql,
    scope.docIds.toFinset⟩

end PassScope

variable {H : Type*} [DecidableEq H] (sha256 : Text → H)

def passKey (scope : PassScope) : H := sha256 (scope.pieces.flatMap fun piece => piece ++ [nul])

/-! ## Model -/

def SEARCH_PASS_MAX : ℕ := 8

def SEARCH_PASSES_AT_ONCE : ℕ := 2

/-- a caller of `joinPass`, and how its promise was settled, each time -/
structure PassWaiter (Q A : Type*) where
  scope : PassScope
  query : Q
  answers : List A := []

/-- where a drain is -/
inductive Stage where
  /-- it looks at its queue next -/
  | checking
  /-- in `passSlotWaiters` -/
  | waiting
  /-- the slot was handed to it -/
  | granted
  | running (batch : List ℕ)
  /-- the batch is answered, and the slot not given back yet -/
  | settled
  | ended
  deriving DecidableEq

structure Drain (H : Type*) where
  key : H
  queue : List ℕ
  stage : Stage
  deriving DecidableEq

/-- the waiters that the drain's pass is for -/
def Drain.batch (d : Drain H) : List ℕ := match d.stage with
  | .running batch => batch
  | _ => []

/-- a pass that is over -/
structure Pass (W R : Type*) where
  batch : List ℕ
  /-- what it read -/
  world : W
  result : R

variable {Q W A E : Type*}

structure St (H Q W A E : Type*) where
  waiters : List (PassWaiter Q (Except E A)) := []
  drains : List (Drain H) := []
  passesRunning : ℕ := 0
  passSlotWaiters : List ℕ := []
  passes : List (Pass W (Except E (List A))) := []

inductive Action (Q W : Type*) where
  | joins (scope : PassScope) (query : Q)
  /-- the `j`th drain looks at its queue -/
  | loops (j : ℕ)
  /-- it goes on with the slot that was handed to it -/
  | starts (j : ℕ)
  /-- its pass succeeds or throws, over what it has read -/
  | ends (j : ℕ) (world : W)
  | givesBack (j : ℕ)

variable (searchPass : W → PassScope → List Q → Except E (List A))

namespace St

variable (s : St H Q W A E)

def put (j : ℕ) (d : Drain H) : St H Q W A E := { s with drains := s.drains.set j d }

/-- the drain's slot is free: it takes its batch -/
def begin (j : ℕ) (d : Drain H) : St H Q W A E :=
  s.put j { d with queue := d.queue.drop SEARCH_PASS_MAX, stage := .running (d.queue.take SEARCH_PASS_MAX) }

/-- `withPassSlot` -/
def enter (j : ℕ) (d : Drain H) : St H Q W A E :=
  if s.passesRunning < SEARCH_PASSES_AT_ONCE then
    let s := { s with passesRunning := s.passesRunning + 1 }
    s.begin j d
  else
    let s := { s with passSlotWaiters := s.passSlotWaiters ++ [j] }
    s.put j { d with stage := .waiting }

/-- `passQueues.get(key)` -/
def queueOf (key : H) : Option ℕ := s.drains.findIdx? fun d => d.key = key ∧ d.stage ≠ .ended

def joinPass (scope : PassScope) (query : Q) : St H Q W A E :=
  let key := passKey sha256 scope
  let i := s.waiters.length
  let waiter : PassWaiter Q (Except E A) := { scope := scope, query := query }
  let s := { s with waiters := s.waiters ++ [waiter] }
  match s.queueOf key with
  | some j => match s.drains[j]? with
    | some d => s.put j { d with queue := d.queue ++ [i] }
    | none => s
  | none =>
    let fresh : Drain H := ⟨key, [i], .checking⟩
    let j := s.drains.length
    let s := { s with drains := s.drains ++ [fresh] }
    s.enter j fresh

/-- a step of the `j`th drain -/
def act (j : ℕ) (f : Drain H → St H Q W A E) : St H Q W A E := match s.drains[j]? with
  | some d => f d
  | none => s

def loops (j : ℕ) (d : Drain H) : St H Q W A E :=
  if d.stage = .checking then
    if d.queue = [] then s.put j { d with stage := .ended } else s.enter j d
  else s

def starts (j : ℕ) (d : Drain H) : St H Q W A E := if d.stage = .granted then s.begin j d else s

def answer (i : ℕ) (a : Except E A) : St H Q W A E :=
  { s with waiters := s.waiters.modify i fun w => { w with answers := w.answers ++ [a] } }

/-- the scope of the batch's first waiter is the one used -/
def scopeOf (batch : List ℕ) : Option PassScope := (batch.head?.bind (s.waiters[·]?)).map PassWaiter.scope

def resultOf (batch : List ℕ) (world : W) : Option (Except E (List A)) :=
  (s.scopeOf batch).map fun scope =>
    searchPass world scope (batch.filterMap fun i => (s.waiters[i]?).map PassWaiter.query)

def answerAll (answers : List (ℕ × Except E A)) : St H Q W A E := answers.foldl (fun s p => s.answer p.1 p.2) s

def ends (j : ℕ) (world : W) (d : Drain H) : St H Q W A E := match d.stage with
  | .running batch => match s.resultOf searchPass batch world with
    | some result =>
      let passes := s.passes ++ [⟨batch, world, result⟩]
      let s := match result with
        | .ok results => s.answerAll (batch.zip (results.map .ok))
        | .error e => s.answerAll (batch.map fun i => (i, .error e))
      let s := { s with passes := passes }
      s.put j { d with stage := .settled }
    | none => s
  | _ => s

def givesBack (j : ℕ) (d : Drain H) : St H Q W A E :=
  if d.stage = .settled then
    let s := s.put j { d with stage := .checking }
    match s.passSlotWaiters with
    | next :: rest => match s.drains[next]? with
      | some e =>
        let s := { s with passSlotWaiters := rest }
        s.put next { e with stage := .granted }
      | none => s
    | [] => { s with passesRunning := s.passesRunning - 1 }
  else s

end St

def step (s : St H Q W A E) : Action Q W → St H Q W A E
  | .joins scope query => s.joinPass sha256 scope query
  | .loops j => s.act j (s.loops j)
  | .starts j => s.act j (s.starts j)
  | .ends j world => s.act j (s.ends searchPass j world)
  | .givesBack j => s.act j (s.givesBack j)

/-! ## Pass keys -/

section

variable {sha256 : Text → H}

/-- pieces that each end with `nul`, and have none in them, can be told apart -/
theorem eq_of_terminated {ps qs : List Text} (hp : ∀ p ∈ ps, nul ∉ p) (hq : ∀ q ∈ qs, nul ∉ q)
    (h : ps.flatMap (· ++ [nul]) = qs.flatMap (· ++ [nul])) : ps = qs := by
  have htake : ∀ (p rest : Text), nul ∉ p → ((p ++ [nul]) ++ rest).takeWhile (· ≠ nul) = p := by
    intro p rest hp
    rw [append_assoc, takeWhile_append_of_pos]
    · simp
    · intro c hc
      simpa using fun heq : c = nul => hp (heq ▸ hc)
  induction ps generalizing qs with
  | nil =>
    cases qs with
    | nil => rfl
    | cons q qs => exact absurd h.symm (by simp)
  | cons p ps ih =>
    cases qs with
    | nil => simp at h
    | cons q qs =>
      rw [flatMap_cons, flatMap_cons] at h
      have hsame : p = q := by
        rw [← htake p _ (hp p mem_cons_self), h, htake q _ (hq q mem_cons_self)]
      subst hsame
      rw [ih (fun r hr => hp r (.tail _ hr)) (fun r hr => hq r (.tail _ hr))
        (append_cancel_left h)]

theorem nul_notMem_pieces (scope : PassScope) : ∀ p ∈ scope.pieces, nul ∉ p := by
  have hflag : ∀ b, nul ∉ PassScope.flagText b := by decide
  have hgeneration : nul ∉ PassScope.generationText scope.crypto := by
    unfold PassScope.generationText
    split
    · intro hmem
      have hdigit := Nat.isDigit_of_mem_toDigits (by norm_num) le_rfl hmem
      exact absurd hdigit (by decide)
    · exact not_mem_nil
  intro p hp
  rcases mem_append.1 hp with hp | hp
  · simp only [mem_cons, not_mem_nil, or_false] at hp
    rcases hp with rfl | rfl | rfl | rfl | rfl
    · exact scope.vaultId.plain
    · exact hgeneration
    · exact hflag _
    · exact hflag _
    · exact hflag _
  · obtain ⟨id, _, rfl⟩ := mem_map.1 hp
    exact id.plain

theorem Id.text_injective : Function.Injective Id.text := by
  intro a b h
  cases a
  cases b
  congr

theorem PassScope.flagText_injective : Function.Injective flagText := by decide

theorem PassScope.generationText_injective {c c' : Option DocCrypto} (h : generationText c = generationText c') :
    c.map DocCrypto.generation = c'.map DocCrypto.generation := by
  have hsome : ∀ n, Nat.toDigits 10 n ≠ [] := fun n => Nat.toDigits_ne_nil
  cases c with
  | none =>
    cases c' with
    | none => rfl
    | some d => exact absurd h.symm (hsome _)
  | some d =>
    cases c' with
    | none => exact absurd h (hsome _)
    | some d' =>
      have hback : ∀ n, Nat.ofDigitChars 10 (Nat.toDigits 10 n) 0 = n := fun n =>
        Nat.ofDigitChars_toDigits (by norm_num) le_rfl
      have heq : Nat.ofDigitChars 10 (Nat.toDigits 10 d.generation) 0 =
          Nat.ofDigitChars 10 (Nat.toDigits 10 d'.generation) 0 := congrArg (Nat.ofDigitChars 10 · 0) h
      rw [hback, hback] at heq
      exact congrArg some heq

/-- scopes with one pass key read the same rows -/
theorem rows_of_passKey (hsha : Function.Injective sha256) {scope scope' : PassScope}
    (h : passKey sha256 scope = passKey sha256 scope') : scope.rows = scope'.rows := by
  have hpieces : scope.pieces = scope'.pieces :=
    eq_of_terminated (nul_notMem_pieces scope) (nul_notMem_pieces scope') (hsha h)
  unfold PassScope.pieces at hpieces
  simp only [cons_append, nil_append, List.cons.injEq] at hpieces
  obtain ⟨hvault, hgeneration, hfiles, hwide, hlegacy, hids⟩ := hpieces
  have hsorted : scope.sorted = scope'.sorted := map_injective_iff.2 Id.text_injective hids
  have hset : scope.docIds.toFinset = scope'.docIds.toFinset := by
    have hperm : ∀ r : PassScope, r.sorted.Perm r.docIds := fun r => mergeSort_perm _ _
    exact toFinset_eq_of_perm _ _ ((hperm scope).symm.trans (hsorted ▸ hperm scope'))
  unfold PassScope.rows
  rw [Id.text_injective hvault, PassScope.generationText_injective hgeneration,
    PassScope.flagText_injective hfiles, PassScope.flagText_injective hwide, PassScope.flagText_injective hlegacy, hset]

end

/-! ## What is to hold -/

/-- the drain has a slot -/
def Stage.holds : Stage → Bool
  | .granted | .running _ | .settled => true
  | _ => false

def Stage.isRunning : Stage → Bool
  | .running _ => true
  | _ => false

/-- those that the drain is to answer -/
def Drain.pending (d : Drain H) : List ℕ := d.queue ++ d.batch

/-- `alone` is what one query finds by itself -/
structure Alone (searchPass : W → PassScope → List Q → Except E (List A)) (alone : W → PassScope.Rows → Q → A) :
    Prop where
  /-- each query's result is what it would get alone, over the rows of the scope -/
  each : ∀ world scope queries results, searchPass world scope queries = .ok results →
    results = queries.map (alone world scope.rows)

/-- every answer is the waiter's own result, or the error of the pass that it was in -/
def Answered (alone : W → PassScope.Rows → Q → A) (passes : List (Pass W (Except E (List A)))) (i : ℕ)
    (w : PassWaiter Q (Except E A)) : Prop :=
  ∀ a ∈ w.answers, ∃ p ∈ passes, i ∈ p.batch ∧ match p.result with
    | .ok _ => a = .ok (alone p.world w.scope.rows w.query)
    | .error e => a = .error e

/-- where the waiters are: with the drain of their key until they are answered -/
structure Queues (sha256 : Text → H) (waiters : List (PassWaiter Q (Except E A))) (drains : List (Drain H)) : Prop where
  keys : ∀ (j j' : ℕ) d d', drains[j]? = some d → drains[j']? = some d' → d.stage ≠ .ended → d'.stage ≠ .ended →
    d.key = d'.key → j = j'
  nodup : ∀ d ∈ drains, d.pending.Nodup
  mem : ∀ d ∈ drains, ∀ i ∈ d.pending, ∃ w, waiters[i]? = some w ∧ passKey sha256 w.scope = d.key ∧ w.answers = []
  waits : ∀ (i : ℕ) w, waiters[i]? = some w → w.answers = [] → ∃ d ∈ drains, i ∈ d.pending
  ended : ∀ d ∈ drains, d.stage = .ended → d.queue = []
  batch : ∀ d ∈ drains, d.stage.isRunning = true → d.batch ≠ []
  queued : ∀ d ∈ drains, d.stage = .waiting ∨ d.stage = .granted → d.queue ≠ []

/-- who has a slot, and who waits for one -/
structure Slots (drains : List (Drain H)) (passesRunning : ℕ) (passSlotWaiters : List ℕ) : Prop where
  running : passesRunning = drains.countP fun d => d.stage.holds
  atMost : passesRunning ≤ SEARCH_PASSES_AT_ONCE
  nodup : passSlotWaiters.Nodup
  waits : ∀ j, j ∈ passSlotWaiters ↔ ∃ d, drains[j]? = some d ∧ d.stage = .waiting
  full : passSlotWaiters ≠ [] → passesRunning = SEARCH_PASSES_AT_ONCE

structure Inv (sha256 : Text → H) (alone : W → PassScope.Rows → Q → A) (s : St H Q W A E) : Prop where
  queues : Queues sha256 s.waiters s.drains
  slots : Slots s.drains s.passesRunning s.passSlotWaiters
  once : ∀ (i : ℕ) w, s.waiters[i]? = some w → w.answers.length ≤ 1
  answered : ∀ (i : ℕ) w, s.waiters[i]? = some w → Answered alone s.passes i w
  rode : ∀ p ∈ s.passes, ∀ i ∈ p.batch, ∃ w, s.waiters[i]? = some w ∧ w.answers ≠ []
  apart : s.passes.Pairwise fun p q => ∀ i ∈ p.batch, i ∉ q.batch

/-! ## One drain -/

section

variable {sha256 : Text → H} {searchPass : W → PassScope → List Q → Except E (List A)}
  {alone : W → PassScope.Rows → Q → A} {s : St H Q W A E} {drains : List (Drain H)}
  {waiters : List (PassWaiter Q (Except E A))} {j : ℕ} {d d' : Drain H}

variable {e : Drain H}

theorem mem_of_set (h : e ∈ drains.set j d') : e = d' ∨ e ∈ drains :=
  (mem_or_eq_of_mem_set h).symm

theorem getElem?_set_cases {j' : ℕ} (h : (drains.set j d')[j']? = some e) :
    j' = j ∧ e = d' ∨ drains[j']? = some e := by
  rw [getElem?_set] at h
  split at h
  · next heq =>
    split at h
    · exact .inl ⟨heq.symm, (Option.some.inj h).symm⟩
    · cases h
  · exact .inr h

/-- live drains have keys of their own, also when one goes on -/
theorem Queues.keys_set (h : Queues sha256 waiters drains) (hd : drains[j]? = some d) (hlive : d.stage ≠ .ended)
    (hkey : d'.key = d.key) (k k' : ℕ) (e e' : Drain H) (he : (drains.set j d')[k]? = some e)
    (he' : (drains.set j d')[k']? = some e') (hstage : e.stage ≠ .ended) (hstage' : e'.stage ≠ .ended)
    (heq : e.key = e'.key) : k = k' := by
  rcases getElem?_set_cases he with ⟨hk, hed⟩ | hold
  · rcases getElem?_set_cases he' with ⟨hk', _⟩ | hold'
    · exact hk.trans hk'.symm
    · rw [hk]
      exact h.keys j k' d e' hd hold' hlive hstage' (hkey.symm.trans (hed ▸ heq))
  · rcases getElem?_set_cases he' with ⟨hk', hed'⟩ | hold'
    · rw [hk']
      exact h.keys k j e d hold hd hstage hlive ((hed' ▸ heq).trans hkey)
    · exact h.keys k k' e e' hold hold' hstage hstage' heq

/-- a drain goes on with the same waiters -/
theorem Queues.set (h : Queues sha256 waiters drains) (hd : drains[j]? = some d) (hkey : d'.key = d.key)
    (hlive : d.stage ≠ .ended) (hpending : d'.pending.Perm d.pending) (hended : d'.stage = .ended → d'.queue = [])
    (hbatch : d'.stage.isRunning = true → d'.batch ≠ [])
    (hqueued : d'.stage = .waiting ∨ d'.stage = .granted → d'.queue ≠ []) :
    Queues sha256 waiters (drains.set j d') := by
  have hmem : d ∈ drains := mem_of_getElem? hd
  refine ⟨?_, ?_, ?_, ?_, ?_, ?_, ?_⟩
  · exact h.keys_set hd hlive hkey
  · intro e he
    rcases mem_of_set he with rfl | he
    · exact hpending.nodup_iff.2 (h.nodup d hmem)
    · exact h.nodup e he
  · intro e he i hi
    rcases mem_of_set he with rfl | he
    · rw [hkey]
      exact h.mem d hmem i (hpending.mem_iff.1 hi)
    · exact h.mem e he i hi
  · intro i w hw hanswers
    obtain ⟨e, he, hi⟩ := h.waits i w hw hanswers
    by_cases heq : e = d
    · subst heq
      exact ⟨d', Slots.mem_set_self hd, hpending.mem_iff.2 hi⟩
    · exact ⟨e, Slots.mem_set_of_ne hd he heq, hi⟩
  · intro e he
    rcases mem_of_set he with rfl | he
    · exact hended
    · exact h.ended e he
  · intro e he
    rcases mem_of_set he with rfl | he
    · exact hbatch
    · exact h.batch e he
  · intro e he
    rcases mem_of_set he with rfl | he
    · exact hqueued
    · exact h.queued e he

variable {i : ℕ}

/-- a waiter is with one drain only -/
theorem Queues.apart (h : Queues sha256 waiters drains) {k : ℕ} (hd : drains[j]? = some d) (he : drains[k]? = some e)
    (hi : i ∈ d.pending) (hi' : i ∈ e.pending) : j = k := by
  obtain ⟨w, hw, hkey, -⟩ := h.mem d (mem_of_getElem? hd) i hi
  obtain ⟨w', hw', hkey', -⟩ := h.mem e (mem_of_getElem? he) i hi'
  cases hw.symm.trans hw'
  have hlive : ∀ e ∈ drains, i ∈ e.pending → e.stage ≠ .ended := by
    intro e he hi hended
    have hqueue := h.ended e he hended
    unfold Drain.pending Drain.batch at hi
    rw [hqueue, hended] at hi
    exact absurd hi not_mem_nil
  exact h.keys j k d e hd he (hlive d (mem_of_getElem? hd) hi) (hlive e (mem_of_getElem? he) hi')
    (hkey.symm.trans hkey')

/-- as many have slots after a drain's step as its stages tell -/
theorem countP_set (hd : drains[j]? = some d) (d' : Drain H) :
    (drains.set j d').countP (fun d => d.stage.holds) + d.stage.holds.toNat =
      drains.countP (fun d => d.stage.holds) + d'.stage.holds.toNat := by
  have hsum : ∀ ds : List (Drain H),
      ds.countP (fun d => d.stage.holds) = (ds.map fun d => d.stage.holds.toNat).sum := by
    intro ds
    induction ds with
    | nil => rfl
    | cons e ds ih =>
      rw [countP_cons, map_cons, sum_cons, ih]
      cases e.stage.holds <;> simp [Nat.add_comm]
  rw [hsum, hsum]
  exact Slots.sum_map_set _ hd d'

variable {n : ℕ} {slotWaiters : List ℕ}

section

variable (h : Slots drains n slotWaiters) (hd : drains[j]? = some d)

include h hd

/-- a drain goes on, and has a slot or waits for one as before -/
theorem Slots.set (hholds : d'.stage.holds = d.stage.holds) (hwaits : d'.stage = .waiting ↔ d.stage = .waiting) :
    Slots (drains.set j d') n slotWaiters := by
  have hlt : j < drains.length := (List.getElem?_eq_some_iff.1 hd).1
  refine ⟨?_, h.atMost, h.nodup, ?_, h.full⟩
  · have hcount := countP_set hd d'
    rw [hholds] at hcount
    exact h.running.trans (by omega)
  · intro k
    rw [h.waits]
    by_cases hk : k = j
    · subst hk
      rw [List.getElem?_set_self hlt, hd]
      simp [hwaits]
    · rw [List.getElem?_set_ne (Ne.symm hk)]

/-- a drain takes a free slot -/
theorem Slots.take (hfree : n < SEARCH_PASSES_AT_ONCE)
    (hchecking : d.stage = .checking) (hholds : d'.stage.holds = true) (hwaits : d'.stage ≠ .waiting) :
    Slots (drains.set j d') (n + 1) slotWaiters := by
  have hlt : j < drains.length := (List.getElem?_eq_some_iff.1 hd).1
  have hempty : slotWaiters = [] := by
    by_contra hne
    have hfull := h.full hne
    omega
  refine ⟨?_, hfree, h.nodup, ?_, fun hne => absurd hempty hne⟩
  · have hcount := countP_set hd d'
    have hrunning := h.running
    have hnot : d.stage.holds = false := by rw [hchecking]; rfl
    rw [hholds, hnot, Bool.toNat_true, Bool.toNat_false] at hcount
    omega
  · intro k
    rw [h.waits]
    by_cases hk : k = j
    · subst hk
      rw [List.getElem?_set_self hlt, hd]
      simp [hwaits, hchecking]
    · rw [List.getElem?_set_ne (Ne.symm hk)]

/-- a drain waits for a slot -/
theorem Slots.wait (hfull : ¬ n < SEARCH_PASSES_AT_ONCE)
    (hchecking : d.stage = .checking) (hwaits : d'.stage = .waiting) :
    Slots (drains.set j d') n (slotWaiters ++ [j]) := by
  have hlt : j < drains.length := (List.getElem?_eq_some_iff.1 hd).1
  have hnew : j ∉ slotWaiters := by
    rw [h.waits, hd]
    simp [hchecking]
  refine ⟨?_, h.atMost, ?_, ?_, fun _ => le_antisymm h.atMost (not_lt.1 hfull)⟩
  · have hcount := countP_set hd d'
    have hrunning := h.running
    have hnot : d.stage.holds = false := by rw [hchecking]; rfl
    have hnot' : d'.stage.holds = false := by rw [hwaits]; rfl
    rw [hnot, hnot'] at hcount
    omega
  · exact List.nodup_append.2 ⟨h.nodup, List.nodup_singleton j, fun a ha b hb => by
      rw [List.mem_singleton.1 hb]
      exact fun heq => hnew (heq ▸ ha)⟩
  · intro k
    rw [List.mem_append, h.waits, List.mem_singleton]
    by_cases hk : k = j
    · subst hk
      rw [List.getElem?_set_self hlt]
      simp [hwaits]
    · rw [List.getElem?_set_ne (Ne.symm hk)]
      simp [hk]

end

/-- nobody waits: the slot is free -/
theorem Slots.free (h : Slots drains n []) (hd : drains[j]? = some d) (hsettled : d.stage = .settled)
    (hchecking : d'.stage = .checking) : Slots (drains.set j d') (n - 1) [] := by
  have hlt : j < drains.length := (List.getElem?_eq_some_iff.1 hd).1
  have hcount := countP_set hd d'
  have hrunning := h.running
  have hatMost := h.atMost
  have hheld : d.stage.holds = true := by rw [hsettled]; rfl
  have hgiven : d'.stage.holds = false := by rw [hchecking]; rfl
  rw [hheld, hgiven, Bool.toNat_true, Bool.toNat_false] at hcount
  refine ⟨by omega, by omega, h.nodup, ?_, fun hne => absurd rfl hne⟩
  intro k
  rw [h.waits]
  by_cases hk : k = j
  · subst hk
    rw [List.getElem?_set_self hlt, hd]
    simp [hsettled, hchecking]
  · rw [List.getElem?_set_ne (Ne.symm hk)]

/-- the slot goes to the drain that has waited longest -/
theorem Slots.hand {next : ℕ} {rest : List ℕ} {e' : Drain H} (h : Slots drains n (next :: rest))
    (hd : drains[j]? = some d) (hsettled : d.stage = .settled) (hchecking : d'.stage = .checking)
    (he : (drains.set j d')[next]? = some e) (hwaiting : e.stage = .waiting) (hgranted : e'.stage = .granted) :
    Slots ((drains.set j d').set next e') n rest := by
  have hlt : j < drains.length := (List.getElem?_eq_some_iff.1 hd).1
  have hlt' : next < (drains.set j d').length := (List.getElem?_eq_some_iff.1 he).1
  have hcount := countP_set hd d'
  have hcount' := countP_set he e'
  have hrunning := h.running
  have hheld : d.stage.holds = true := by rw [hsettled]; rfl
  have hgiven : d'.stage.holds = false := by rw [hchecking]; rfl
  have hhad : e.stage.holds = false := by rw [hwaiting]; rfl
  have hhas : e'.stage.holds = true := by rw [hgranted]; rfl
  rw [hheld, hgiven, Bool.toNat_true, Bool.toNat_false] at hcount
  rw [hhad, hhas, Bool.toNat_true, Bool.toNat_false] at hcount'
  obtain ⟨hnotin, hnodup⟩ := List.nodup_cons.1 h.nodup
  refine ⟨by omega, h.atMost, hnodup, ?_, fun _ => h.full (by simp)⟩
  intro k
  have hmem := h.waits k
  by_cases hk : k = next
  · subst hk
    rw [List.getElem?_set_self hlt']
    simp [hnotin, hgranted]
  · rw [List.mem_cons, or_iff_right hk] at hmem
    rw [List.getElem?_set_ne (Ne.symm hk), hmem]
    by_cases hkj : k = j
    · subst hkj
      rw [List.getElem?_set_self hlt, hd]
      simp [hsettled, hchecking]
    · rw [List.getElem?_set_ne (Ne.symm hkj)]

/-- the first in line is a drain that waits, and not the one that has just had a slot -/
theorem Slots.next {next : ℕ} {rest : List ℕ} (h : Slots drains n (next :: rest)) (hd : drains[j]? = some d)
    (hsettled : d.stage = .settled) (d' : Drain H) : ∃ e, (drains.set j d')[next]? = some e ∧ e.stage = .waiting := by
  obtain ⟨e, he, hwaiting⟩ := (h.waits next).1 mem_cons_self
  refine ⟨e, ?_, hwaiting⟩
  rw [getElem?_set_ne]
  · exact he
  · intro heq
    rw [← heq] at he
    rw [Option.some.inj (hd.symm.trans he), hwaiting] at hsettled
    cases hsettled

/-! ## Every step -/

theorem Inv.put (h : Inv sha256 alone s) (hq : Queues sha256 s.waiters drains) (hs : Slots drains n slotWaiters) :
    Inv sha256 alone { s with drains := drains, passesRunning := n, passSlotWaiters := slotWaiters } :=
  ⟨hq, hs, h.once, h.answered, h.rode, h.apart⟩

/-- what a drain has in its queue it has in its batch and its queue then -/
theorem perm_begin (hnone : d.batch = []) : ({ d with
    queue := d.queue.drop SEARCH_PASS_MAX, stage := .running (d.queue.take SEARCH_PASS_MAX) } : Drain H).pending.Perm
      d.pending := by
  have hperm : (d.queue.drop SEARCH_PASS_MAX ++ d.queue.take SEARCH_PASS_MAX).Perm d.queue :=
    perm_append_comm.trans (List.Perm.of_eq (take_append_drop _ _))
  unfold Drain.pending
  rw [hnone, append_nil]
  exact hperm

theorem Queues.begin (h : Queues sha256 waiters drains) (hd : drains[j]? = some d) (hlive : d.stage ≠ .ended)
    (hnone : d.batch = []) (hqueue : d.queue ≠ []) : Queues sha256 waiters (drains.set j { d with
      queue := d.queue.drop SEARCH_PASS_MAX, stage := .running (d.queue.take SEARCH_PASS_MAX) }) := by
  refine h.set hd rfl hlive (perm_begin hnone) (by simp) (fun _ => ?_) (by simp)
  intro hempty
  rcases take_eq_nil_iff.1 hempty with hzero | hnil
  · simp [SEARCH_PASS_MAX] at hzero
  · exact hqueue hnil

/-- a drain that runs no pass goes on with its queue -/
theorem Queues.goTo (h : Queues sha256 waiters drains) (hd : drains[j]? = some d) (hnone : d.batch = [])
    (hlive : d.stage ≠ .ended) {stage : Stage} (hstage : stage.isRunning = false)
    (hended : stage = .ended → d.queue = []) (hqueued : stage = .waiting ∨ stage = .granted → d.queue ≠ []) :
    Queues sha256 waiters (drains.set j { d with stage := stage }) := by
  have hpending : ({ d with stage := stage } : Drain H).pending.Perm d.pending := by
    unfold Drain.pending
    rw [hnone]
    cases stage with
    | running batch => simp [Stage.isRunning] at hstage
    | _ => exact List.Perm.refl _
  refine h.set hd rfl hlive hpending hended (fun hrunning => ?_) hqueued
  exact absurd (hstage.symm.trans hrunning) (by simp)

theorem batch_eq_nil (hstage : d.stage.isRunning = false) : d.batch = [] := by
  unfold Drain.batch
  split
  · next batch hbatch =>
    rw [hbatch] at hstage
    simp [Stage.isRunning] at hstage
  · rfl

section

variable (h : Inv sha256 alone s) (hd : s.drains[j]? = some d)

include h hd

theorem Inv.enter (hchecking : d.stage = .checking) (hqueue : d.queue ≠ []) : Inv sha256 alone (s.enter j d) := by
  have hnone : d.batch = [] := batch_eq_nil (by rw [hchecking]; rfl)
  have hlive : d.stage ≠ .ended := by simp [hchecking]
  unfold St.enter
  split
  · next hfree =>
    exact h.put (h.queues.begin hd hlive hnone hqueue) (h.slots.take hd hfree hchecking rfl (by simp))
  · next hfull =>
    have hq : Queues sha256 s.waiters (s.drains.set j { d with stage := .waiting }) :=
      h.queues.goTo hd hnone hlive rfl (by simp) fun _ => hqueue
    exact h.put hq (h.slots.wait hd hfull hchecking rfl)

theorem Inv.loops : Inv sha256 alone (s.loops j d) := by
  unfold St.loops
  split
  · next hchecking =>
    split
    · next hempty =>
      have hnone : d.batch = [] := batch_eq_nil (by rw [hchecking]; rfl)
      have hq : Queues sha256 s.waiters (s.drains.set j { d with stage := .ended }) :=
        h.queues.goTo hd hnone (by simp [hchecking]) rfl (fun _ => hempty) (by simp)
      exact h.put hq (h.slots.set hd (by rw [hchecking]; rfl) (by simp [hchecking]))
    · next hqueue => exact h.enter hd hchecking hqueue
  · exact h

theorem Inv.starts : Inv sha256 alone (s.starts j d) := by
  unfold St.starts
  split
  · next hgranted =>
    have hqueue := h.queues.queued d (mem_of_getElem? hd) (.inr hgranted)
    have hnone : d.batch = [] := batch_eq_nil (by rw [hgranted]; rfl)
    have hq := h.queues.begin hd (by simp [hgranted]) hnone hqueue
    exact h.put hq (h.slots.set hd (by rw [hgranted]; rfl) (by simp [hgranted]))
  · exact h

theorem Inv.givesBack : Inv sha256 alone (s.givesBack j d) := by
  unfold St.givesBack
  split
  · next hsettled =>
    have hnone : d.batch = [] := batch_eq_nil (by rw [hsettled]; rfl)
    have hq : Queues sha256 s.waiters (s.drains.set j { d with stage := .checking }) :=
      h.queues.goTo hd hnone (by simp [hsettled]) rfl (by simp) (by simp)
    have hslots := h.slots
    dsimp only [St.put]
    split
    · next next rest hcase =>
      rw [hcase] at hslots
      obtain ⟨e, he, hwaiting⟩ := hslots.next hd hsettled { d with stage := .checking }
      rw [he]
      have hqueue := hq.queued e (mem_of_getElem? he) (.inl hwaiting)
      have hq' : Queues sha256 s.waiters ((s.drains.set j { d with stage := .checking }).set next
          { e with stage := .granted }) :=
        hq.goTo he (batch_eq_nil (by rw [hwaiting]; rfl)) (by simp [hwaiting]) rfl (by simp) fun _ => hqueue
      exact h.put hq' (hslots.hand hd hsettled rfl he hwaiting rfl)
    · next hcase =>
      rw [hcase] at hslots ⊢
      exact h.put hq (hslots.free hd hsettled rfl)
  · exact h

end

/-! ## Joining -/

section

variable (h : Queues sha256 waiters drains)

include h

/-- the waiters before it are where they were -/
theorem Queues.mem_snoc (w : PassWaiter Q (Except E A)) (he : e ∈ drains)
    (hi : i ∈ e.pending) : ∃ v, (waiters ++ [w])[i]? = some v ∧ passKey sha256 v.scope = e.key ∧ v.answers = [] := by
  obtain ⟨v, hv, hrest⟩ := h.mem e he i hi
  exact ⟨v, List.getElem?_snoc_of hv _, hrest⟩

theorem Queues.lt_length (he : e ∈ drains) (hi : i ∈ e.pending) : i < waiters.length := by
  obtain ⟨v, hv, _⟩ := h.mem e he i hi
  exact (List.getElem?_eq_some_iff.1 hv).1

/-- a new waiter in the queue of a live drain of its key -/
theorem Queues.push (hd : drains[j]? = some d) (hlive : d.stage ≠ .ended)
    {w : PassWaiter Q (Except E A)} (hkey : passKey sha256 w.scope = d.key) (hanswers : w.answers = []) :
    Queues sha256 (waiters ++ [w]) (drains.set j { d with queue := d.queue ++ [waiters.length] }) := by
  have hmem : d ∈ drains := mem_of_getElem? hd
  obtain ⟨d', hd'⟩ : ∃ d' : Drain H, d' = { d with queue := d.queue ++ [waiters.length] } := ⟨_, rfl⟩
  have hpending : d'.pending.Perm (waiters.length :: d.pending) := by
    rw [hd']
    unfold Drain.pending Drain.batch
    rw [append_assoc]
    exact perm_middle
  have hself : (waiters ++ [w])[waiters.length]? = some w := getElem?_concat_length
  rw [← hd']
  refine ⟨?_, ?_, ?_, ?_, ?_, ?_, ?_⟩
  · intro k k' e e' he he' hstage hstage' heq
    have hold : ∀ (k : ℕ) e, (drains.set j d')[k]? = some e →
        ∃ e₀, drains[k]? = some e₀ ∧ e.key = e₀.key ∧ e.stage = e₀.stage := by
      intro k e he
      rcases getElem?_set_cases he with ⟨rfl, rfl⟩ | hold
      · exact ⟨d, hd, by rw [hd'], by rw [hd']⟩
      · exact ⟨e, hold, rfl, rfl⟩
    obtain ⟨e₀, he₀, hk₀, hs₀⟩ := hold k e he
    obtain ⟨e₁, he₁, hk₁, hs₁⟩ := hold k' e' he'
    exact h.keys k k' e₀ e₁ he₀ he₁ (hs₀ ▸ hstage) (hs₁ ▸ hstage') (hk₀ ▸ hk₁ ▸ heq)
  · intro e he
    rcases mem_of_set he with rfl | he
    · refine hpending.nodup_iff.2 (nodup_cons.2 ⟨fun hin => ?_, h.nodup d hmem⟩)
      exact absurd (h.lt_length hmem hin) (lt_irrefl _)
    · exact h.nodup e he
  · intro e he i hi
    rcases mem_of_set he with rfl | he
    · rcases mem_cons.1 (hpending.mem_iff.1 hi) with rfl | hi
      · exact ⟨w, hself, by rw [hkey, hd'], hanswers⟩
      · obtain ⟨v, hv, hvk, hva⟩ := h.mem_snoc w hmem hi
        exact ⟨v, hv, by rw [hvk, hd'], hva⟩
    · exact h.mem_snoc w he hi
  · intro i v hv hva
    rcases getElem?_snoc.1 hv with hv | ⟨rfl, rfl⟩
    · obtain ⟨e, he, hi⟩ := h.waits i v hv hva
      by_cases heq : e = d
      · subst heq
        exact ⟨d', Slots.mem_set_self hd, hpending.mem_iff.2 (.tail _ hi)⟩
      · exact ⟨e, Slots.mem_set_of_ne hd he heq, hi⟩
    · exact ⟨d', Slots.mem_set_self hd, hpending.mem_iff.2 mem_cons_self⟩
  · intro e he hended
    rcases mem_of_set he with rfl | he
    · rw [hd'] at hended
      exact absurd hended hlive
    · exact h.ended e he hended
  · intro e he hrunning
    rcases mem_of_set he with rfl | he
    · rw [hd'] at hrunning ⊢
      exact h.batch d hmem hrunning
    · exact h.batch e he hrunning
  · intro e he hstage
    rcases mem_of_set he with rfl | he
    · rw [hd']
      simp
    · exact h.queued e he hstage

/-- a new waiter with a new drain, where its key has none -/
theorem Queues.fresh {w : PassWaiter Q (Except E A)} (hanswers : w.answers = [])
    (hnone : ∀ d ∈ drains, d.key = passKey sha256 w.scope → d.stage = .ended) :
    Queues sha256 (waiters ++ [w]) (drains ++ [⟨passKey sha256 w.scope, [waiters.length], .checking⟩]) := by
  have hself : (waiters ++ [w])[waiters.length]? = some w := getElem?_concat_length
  refine ⟨?_, ?_, ?_, ?_, ?_, ?_, ?_⟩
  · intro k k' e e' he he' hstage hstage' heq
    rcases getElem?_snoc.1 he with he | ⟨hk, rfl⟩
    · rcases getElem?_snoc.1 he' with he' | ⟨_, rfl⟩
      · exact h.keys k k' e e' he he' hstage hstage' heq
      · exact absurd (hnone e (mem_of_getElem? he) heq) hstage
    · rcases getElem?_snoc.1 he' with he' | ⟨hk', rfl⟩
      · exact absurd (hnone e' (mem_of_getElem? he') heq.symm) hstage'
      · exact hk.trans hk'.symm
  · intro e he
    rcases List.mem_snoc.1 he with he | he
    · exact h.nodup e he
    · rw [he]
      exact nodup_singleton _
  · intro e he i hi
    rcases List.mem_snoc.1 he with he | he
    · exact h.mem_snoc w he hi
    · rw [he] at hi ⊢
      obtain rfl := mem_singleton.1 hi
      exact ⟨w, hself, rfl, hanswers⟩
  · intro i v hv hva
    rcases getElem?_snoc.1 hv with hv | ⟨rfl, rfl⟩
    · obtain ⟨e, he, hi⟩ := h.waits i v hv hva
      exact ⟨e, mem_append_left _ he, hi⟩
    · exact ⟨_, mem_append_right _ (mem_singleton_self _), mem_singleton_self _⟩
  · intro e he hended
    rcases List.mem_snoc.1 he with he | he
    · exact h.ended e he hended
    · rw [he] at hended
      cases hended
  · intro e he hrunning
    rcases List.mem_snoc.1 he with he | he
    · exact h.batch e he hrunning
    · rw [he] at hrunning
      simp [Stage.isRunning] at hrunning
  · intro e he hstage
    rcases List.mem_snoc.1 he with he | he
    · exact h.queued e he hstage
    · rw [he]
      simp

end

theorem Slots.fresh (h : Slots drains n slotWaiters) {fresh : Drain H} (hchecking : fresh.stage = .checking) :
    Slots (drains ++ [fresh]) n slotWaiters := by
  refine ⟨?_, h.atMost, h.nodup, ?_, h.full⟩
  · rw [List.countP_append, ← h.running, List.countP_singleton, hchecking]
    rfl
  · intro k
    rw [h.waits]
    refine ⟨fun hk => ?_, fun hk => ?_⟩
    · obtain ⟨e, he, hwaiting⟩ := hk
      exact ⟨e, List.getElem?_snoc_of he _, hwaiting⟩
    · obtain ⟨e, he, hwaiting⟩ := hk
      rcases getElem?_snoc.1 he with he | ⟨_, rfl⟩
      · exact ⟨e, he, hwaiting⟩
      · rw [hchecking] at hwaiting
        cases hwaiting

theorem Inv.joinPass (h : Inv sha256 alone s) (scope : PassScope) (query : Q) :
    Inv sha256 alone (s.joinPass sha256 scope query) := by
  obtain ⟨w, hw⟩ : ∃ w : PassWaiter Q (Except E A), w = { scope := scope, query := query } := ⟨_, rfl⟩
  have hanswers : w.answers = [] := by rw [hw]
  have hscope : w.scope = scope := by rw [hw]
  have honce : ∀ (i : ℕ) v, (s.waiters ++ [w])[i]? = some v → v.answers.length ≤ 1 := by
    intro i v hv
    rcases getElem?_snoc.1 hv with hv | ⟨_, rfl⟩
    · exact h.once i v hv
    · simp [hanswers]
  have hanswered : ∀ (i : ℕ) v, (s.waiters ++ [w])[i]? = some v → Answered alone s.passes i v := by
    intro i v hv
    rcases getElem?_snoc.1 hv with hv | ⟨_, rfl⟩
    · exact h.answered i v hv
    · intro a ha
      rw [hanswers] at ha
      exact absurd ha List.not_mem_nil
  have hrode : ∀ p ∈ s.passes, ∀ i ∈ p.batch, ∃ v, (s.waiters ++ [w])[i]? = some v ∧ v.answers ≠ [] := by
    intro p hp i hi
    obtain ⟨v, hv, hsome⟩ := h.rode p hp i hi
    exact ⟨v, List.getElem?_snoc_of hv _, hsome⟩
  unfold St.joinPass
  dsimp only
  rw [← hw]
  split
  · next j hj =>
    obtain ⟨hlt, hfound, -⟩ := List.findIdx?_eq_some_iff_getElem.1 hj
    have hd : s.drains[j]? = some s.drains[j] := List.getElem?_eq_getElem hlt
    obtain ⟨hkey, hlive⟩ := of_decide_eq_true hfound
    rw [hd]
    have hq := h.queues.push hd hlive (hscope ▸ hkey.symm) hanswers
    exact ⟨hq, h.slots.set hd rfl Iff.rfl, honce, hanswered, hrode, h.apart⟩
  · next hj =>
    have hnone : ∀ d ∈ s.drains, d.key = passKey sha256 w.scope → d.stage = .ended := by
      intro d hd hkey
      have hnot := List.findIdx?_eq_none_iff.1 hj d hd
      by_contra hlive
      rw [hscope] at hkey
      simp [hkey, hlive] at hnot
    have hq := h.queues.fresh hanswers hnone
    rw [hscope] at hq
    have hfresh : (s.drains ++ [⟨passKey sha256 scope, [s.waiters.length], .checking⟩])[s.drains.length]? =
        some (⟨passKey sha256 scope, [s.waiters.length], .checking⟩ : Drain H) :=
      getElem?_concat_length
    have hinv : Inv sha256 alone { s with
        waiters := s.waiters ++ [w]
        drains := s.drains ++ [⟨passKey sha256 scope, [s.waiters.length], .checking⟩] } :=
      ⟨hq, h.slots.fresh rfl, honce, hanswered, hrode, h.apart⟩
    exact hinv.enter hfresh rfl (by simp)

/-! ## The end of a pass -/

theorem waiters_answer (s : St H Q W A E) (i : ℕ) (a : Except E A) (k : ℕ) : (s.answer i a).waiters[k]? =
    if k = i then (s.waiters[k]?).map fun w => { w with answers := w.answers ++ [a] } else s.waiters[k]? := by
  change (s.waiters.modify i _)[k]? = _
  rw [getElem?_modify]
  by_cases hk : k = i
  · subst hk
    cases s.waiters[k]? <;> simp
  · cases s.waiters[k]? <;> simp [hk, Ne.symm hk]

theorem answerAll_frame (answers : List (ℕ × Except E A)) (s : St H Q W A E) :
    (s.answerAll answers).drains = s.drains ∧ (s.answerAll answers).passesRunning = s.passesRunning ∧
      (s.answerAll answers).passSlotWaiters = s.passSlotWaiters := by
  induction answers generalizing s with
  | nil => exact ⟨rfl, rfl, rfl⟩
  | cons p answers ih => exact ih (s.answer p.1 p.2)

/-- each of the batch gets its answer, once -/
theorem answerAll_spec (answers : List (ℕ × Except E A)) (hnodup : (answers.map Prod.fst).Nodup) (s : St H Q W A E) :
    (∀ k, k ∉ answers.map Prod.fst → (s.answerAll answers).waiters[k]? = s.waiters[k]?) ∧
      ∀ p ∈ answers, (s.answerAll answers).waiters[p.1]? =
        (s.waiters[p.1]?).map fun w => { w with answers := w.answers ++ [p.2] } := by
  induction answers generalizing s with
  | nil => exact ⟨fun _ _ => rfl, by simp⟩
  | cons p answers ih =>
    obtain ⟨hnotin, hrest⟩ := nodup_cons.1 hnodup
    obtain ⟨hothers, hthese⟩ := ih hrest (s.answer p.1 p.2)
    have hunfold : s.answerAll (p :: answers) = (s.answer p.1 p.2).answerAll answers := rfl
    rw [hunfold]
    refine ⟨?_, ?_⟩
    · intro k hk
      rw [map_cons, mem_cons, not_or] at hk
      rw [hothers k hk.2, waiters_answer, if_neg hk.1]
    · intro q hq
      rcases mem_cons.1 hq with rfl | hq
      · rw [hothers q.1 hnotin, waiters_answer, if_pos rfl]
      · have hne : q.1 ≠ p.1 := fun heq => hnotin (heq ▸ mem_map_of_mem hq)
        rw [hthese q hq, waiters_answer, if_neg hne]

variable {batch : List ℕ}

/-- the results in the order of the queries, for those that are there -/
theorem zip_filterMap {B : Type*} {f : Q → B} {query : ℕ → Option Q} (h : ∀ i ∈ batch, (query i).isSome = true) :
    (batch.zip ((batch.filterMap query).map f)).map Prod.fst = batch ∧
      ∀ p ∈ batch.zip ((batch.filterMap query).map f), ∃ q, query p.1 = some q ∧ p.2 = f q := by
  induction batch with
  | nil => exact ⟨rfl, by simp⟩
  | cons i batch ih =>
    obtain ⟨q, hq⟩ := Option.isSome_iff_exists.1 (h i mem_cons_self)
    obtain ⟨hfst, hall⟩ := ih fun k hk => h k (.tail _ hk)
    rw [filterMap_cons_some hq, map_cons, zip_cons_cons]
    refine ⟨by rw [map_cons, hfst], ?_⟩
    intro p hp
    rcases mem_cons.1 hp with rfl | hp
    · exact ⟨q, hq, rfl⟩
    · exact hall p hp

/-- the waiters of the drain's batch are answered -/
theorem Queues.settle (h : Queues sha256 waiters drains) (hd : drains[j]? = some d)
    (hrunning : d.stage = .running batch) {waiters' : List (PassWaiter Q (Except E A))}
    (hothers : ∀ k, k ∉ batch → waiters'[k]? = waiters[k]?)
    (hthese : ∀ k ∈ batch, ∀ w, waiters'[k]? = some w → w.answers ≠ []) :
    Queues sha256 waiters' (drains.set j { d with stage := .settled }) := by
  have hmem : d ∈ drains := List.mem_of_getElem? hd
  have hpending : d.pending = d.queue ++ batch := by
    unfold Drain.pending Drain.batch
    rw [hrunning]
  have hqueue : ({ d with stage := .settled } : Drain H).pending = d.queue := List.append_nil _
  have hapart : ∀ i ∈ d.queue, i ∉ batch := by
    have hnodup := h.nodup d hmem
    rw [hpending] at hnodup
    exact fun i hi hb => (List.nodup_append.1 hnodup).2.2 i hi i hb rfl
  have hlive : d.stage ≠ .ended := by simp [hrunning]
  refine ⟨?_, ?_, ?_, ?_, ?_, ?_, ?_⟩
  · exact h.keys_set hd hlive rfl
  · intro e he
    rcases mem_of_set he with rfl | he
    · rw [hqueue]
      exact (h.nodup d hmem).sublist (hpending ▸ List.sublist_append_left _ _)
    · exact h.nodup e he
  · intro e he i hi
    obtain ⟨k, hk⟩ := List.mem_iff_getElem?.1 he
    rcases getElem?_set_cases hk with ⟨_, rfl⟩ | hold
    · rw [hqueue] at hi
      rw [hothers i (hapart i hi)]
      exact h.mem d hmem i (hpending ▸ List.mem_append_left _ hi)
    · by_cases hib : i ∈ batch
      · have hkj : j = k := h.apart hd hold (hpending ▸ List.mem_append_right _ hib) hi
        subst hkj
        rw [List.getElem?_set_self (List.getElem?_eq_some_iff.1 hd).1] at hk
        cases hk
        rw [hqueue] at hi
        exact absurd hib (hapart i hi)
      · rw [hothers i hib]
        exact h.mem e (List.mem_of_getElem? hold) i hi
  · intro i w hw hanswers
    have hib : i ∉ batch := fun hib => hthese i hib w hw hanswers
    rw [hothers i hib] at hw
    obtain ⟨e, he, hi⟩ := h.waits i w hw hanswers
    by_cases heq : e = d
    · subst heq
      rw [hpending] at hi
      refine ⟨_, Slots.mem_set_self hd, ?_⟩
      rw [hqueue]
      exact (List.mem_append.1 hi).resolve_right hib
    · exact ⟨e, Slots.mem_set_of_ne hd he heq, hi⟩
  · intro e he hended
    rcases mem_of_set he with rfl | he
    · cases hended
    · exact h.ended e he hended
  · intro e he hr
    rcases mem_of_set he with rfl | he
    · simp [Stage.isRunning] at hr
    · exact h.batch e he hr
  · intro e he hstage
    rcases mem_of_set he with rfl | he
    · simp at hstage
    · exact h.queued e he hstage

/-- what a pass answers each of its batch -/
theorem Inv.settle (h : Inv sha256 alone s) (hd : s.drains[j]? = some d) (hrunning : d.stage = .running batch)
    (world : W) (result : Except E (List A)) {answers : List (ℕ × Except E A)} (hfst : answers.map Prod.fst = batch)
    (hanswers : ∀ p ∈ answers, ∀ w, s.waiters[p.1]? = some w →
      match result with | .ok _ => p.2 = .ok (alone world w.scope.rows w.query) | .error e => p.2 = .error e) :
    Inv sha256 alone (St.put { s.answerAll answers with passes := s.passes ++ [⟨batch, world, result⟩] } j
      { d with stage := .settled }) := by
  have hmem : d ∈ s.drains := mem_of_getElem? hd
  have hpending : d.pending = d.queue ++ batch := by
    unfold Drain.pending Drain.batch
    rw [hrunning]
  have hnodup : (answers.map Prod.fst).Nodup := by
    rw [hfst]
    have hboth := h.queues.nodup d hmem
    rw [hpending] at hboth
    exact (nodup_append.1 hboth).2.1
  obtain ⟨hothers, hthese⟩ := answerAll_spec answers hnodup s
  obtain ⟨hdrains, hn, hsw⟩ := answerAll_frame answers s
  rw [hfst] at hothers
  have hunanswered : ∀ k ∈ batch, ∃ v, s.waiters[k]? = some v ∧ v.answers = [] := by
    intro k hk
    obtain ⟨v, hv, -, hnone⟩ := h.queues.mem d hmem k (hpending ▸ mem_append_right _ hk)
    exact ⟨v, hv, hnone⟩
  -- one of the batch had no answer, and has this one now
  have hnew : ∀ k ∈ batch, ∀ w, (s.answerAll answers).waiters[k]? = some w → ∃ p ∈ answers, ∃ v,
      p.1 = k ∧ s.waiters[k]? = some v ∧ w = { v with answers := [p.2] } := by
    intro k hk w hw
    obtain ⟨p, hp, rfl⟩ := mem_map.1 (hfst ▸ hk)
    obtain ⟨v, hv, hnone⟩ := hunanswered p.1 hk
    rw [hthese p hp, hv] at hw
    refine ⟨p, hp, v, rfl, hv, ?_⟩
    rw [← Option.some.inj hw]
    simp only [hnone, nil_append]
  have hrode : ∀ k, (k ∈ batch ∨ ∃ w, s.waiters[k]? = some w ∧ w.answers ≠ []) →
      ∃ w, (s.answerAll answers).waiters[k]? = some w ∧ w.answers ≠ [] := by
    intro k hk
    by_cases hkb : k ∈ batch
    · obtain ⟨p, hp, rfl⟩ := mem_map.1 (hfst ▸ hkb)
      obtain ⟨v, hv, -⟩ := hunanswered p.1 hkb
      exact ⟨_, (hthese p hp).trans (by rw [hv]; rfl), by simp⟩
    · rw [hothers k hkb]
      exact hk.resolve_left hkb
  refine ⟨?_, ?_, ?_, ?_, ?_, ?_⟩
  · change Queues sha256 (s.answerAll answers).waiters ((s.answerAll answers).drains.set j _)
    rw [hdrains]
    refine h.queues.settle hd hrunning hothers fun k hk w hw => ?_
    obtain ⟨p, _, v, _, _, rfl⟩ := hnew k hk w hw
    simp
  · change Slots ((s.answerAll answers).drains.set j _) (s.answerAll answers).passesRunning
      (s.answerAll answers).passSlotWaiters
    rw [hdrains, hn, hsw]
    exact h.slots.set hd (by rw [hrunning]; rfl) (by simp [hrunning])
  · intro k w hw
    by_cases hk : k ∈ batch
    · obtain ⟨p, _, v, _, _, rfl⟩ := hnew k hk w hw
      simp
    · exact h.once k w ((hothers k hk).symm.trans hw)
  · intro k w hw a ha
    by_cases hk : k ∈ batch
    · obtain ⟨p, hp, v, rfl, hv, rfl⟩ := hnew k hk w hw
      rw [mem_singleton.1 ha]
      exact ⟨_, mem_append_right _ (mem_singleton_self _), hk, hanswers p hp v hv⟩
    · obtain ⟨q, hq, hrest⟩ := h.answered k w ((hothers k hk).symm.trans hw) a ha
      exact ⟨q, mem_append_left _ hq, hrest⟩
  · intro p hp k hk
    rcases mem_snoc.1 hp with hp | hp
    · exact hrode k (.inr (h.rode p hp k hk))
    · rw [hp] at hk
      exact hrode k (.inl hk)
  · refine pairwise_append.2 ⟨h.apart, pairwise_singleton _ _, ?_⟩
    intro p hp q hq k hk hkq
    rw [mem_singleton.1 hq] at hkq
    obtain ⟨w, hw, hsome⟩ := h.rode p hp k hk
    obtain ⟨v, hv, hnone⟩ := hunanswered k hkq
    cases hw.symm.trans hv
    exact hsome hnone

theorem Inv.ends (hsha : Function.Injective sha256) (halone : Alone searchPass alone) (h : Inv sha256 alone s)
    (hd : s.drains[j]? = some d) (world : W) : Inv sha256 alone (s.ends searchPass j world d) := by
  unfold St.ends
  split
  · next batch hrunning =>
    have hmem : d ∈ s.drains := mem_of_getElem? hd
    have hbatch : d.batch = batch := by
      unfold Drain.batch
      rw [hrunning]
    have hin : ∀ i ∈ batch, ∃ w, s.waiters[i]? = some w ∧ passKey sha256 w.scope = d.key ∧ w.answers = [] := by
      intro i hi
      refine h.queues.mem d hmem i (mem_append_right _ ?_)
      rw [hbatch]
      exact hi
    split
    · next result hresult =>
      obtain ⟨scope, hscope, hresult⟩ := Option.map_eq_some_iff.1 hresult
      -- the scope used is one of the batch's, so it reads the rows of each
      have hrows : ∀ i ∈ batch, ∀ w, s.waiters[i]? = some w → w.scope.rows = scope.rows := by
        intro i hi w hw
        obtain ⟨w', hw', rfl⟩ := Option.map_eq_some_iff.1 hscope
        obtain ⟨b, hb, hw'⟩ := Option.bind_eq_some_iff.1 hw'
        obtain ⟨v, hv, hkey, -⟩ := hin i hi
        obtain ⟨v', hv', hkey', -⟩ := hin b (mem_of_mem_head? hb)
        cases hw.symm.trans hv
        cases hw'.symm.trans hv'
        exact rows_of_passKey hsha (hkey.trans hkey'.symm)
      have hquery : ∀ i ∈ batch, ((s.waiters[i]?).map PassWaiter.query).isSome = true := by
        intro i hi
        obtain ⟨w, hw, -⟩ := hin i hi
        rw [hw]
        rfl
      cases result with
      | ok results =>
        have heach := halone.each _ _ _ _ hresult
        have hmapped : results.map Except.ok = (batch.filterMap fun i => (s.waiters[i]?).map PassWaiter.query).map
            fun q => (Except.ok (alone world scope.rows q) : Except E A) := by
          rw [heach, map_map]
          rfl
        obtain ⟨hfst, hall⟩ := zip_filterMap (f := fun q => (Except.ok (alone world scope.rows q) : Except E A)) hquery
        rw [← hmapped] at hfst hall
        have hinv := h.settle hd hrunning world (.ok results) hfst fun p hp w hw => by
          obtain ⟨q, hq, hp2⟩ := hall p hp
          rw [hw] at hq
          cases hq
          have hpb : p.1 ∈ batch := hfst ▸ mem_map_of_mem hp
          rw [hp2, hrows p.1 hpb w hw]
        exact hinv
      | error e =>
        have hfst : (batch.map fun i => (i, (Except.error e : Except E A))).map Prod.fst = batch := by
          rw [map_map]
          exact map_id' _
        have hinv := h.settle hd hrunning world (.error e) hfst fun p hp w hw => by
          obtain ⟨i, _, rfl⟩ := mem_map.1 hp
          rfl
        exact hinv
    · exact h
  · exact h

theorem Inv.act (h : Inv sha256 alone s) {f : Drain H → St H Q W A E}
    (hf : ∀ d, s.drains[j]? = some d → Inv sha256 alone (f d)) : Inv sha256 alone (s.act j f) := by
  unfold St.act
  split
  · next d hd => exact hf d hd
  · exact h

theorem inv_step (hsha : Function.Injective sha256) (halone : Alone searchPass alone) (s : St H Q W A E)
    (a : Action Q W) (h : Inv sha256 alone s) : Inv sha256 alone (step sha256 searchPass s a) := by
  cases a with
  | joins scope query => exact h.joinPass scope query
  | loops j => exact h.act fun d hd => h.loops hd
  | starts j => exact h.act fun d hd => h.starts hd
  | ends j world => exact h.act fun d hd => h.ends hsha halone hd world
  | givesBack j => exact h.act fun d hd => h.givesBack hd

theorem inv_init : Inv sha256 alone ({} : St H Q W A E) := by
  refine ⟨⟨?_, ?_, ?_, ?_, ?_, ?_, ?_⟩, ⟨rfl, Nat.zero_le _, nodup_nil, ?_, ?_⟩, ?_, ?_, ?_, List.Pairwise.nil⟩
  all_goals simp

/-! ## Nobody waits for ever -/

/-- what goes on when no search joins -/
def Advances (s : St H Q W A E) : Action Q W → Prop
  | .joins _ _ => False
  | .loops j => ∃ d, s.drains[j]? = some d ∧ d.stage = .checking
  | .starts j => ∃ d, s.drains[j]? = some d ∧ d.stage = .granted
  | .ends j _ => ∃ d, s.drains[j]? = some d ∧ d.stage.isRunning = true
  | .givesBack j => ∃ d, s.drains[j]? = some d ∧ d.stage = .settled

/-- what a drain has still to do, in steps -/
def Drain.work (d : Drain H) : ℕ := match d.stage with
  | .checking => 6 * d.queue.length + 1
  | .waiting => 6 * d.queue.length
  | .granted => 6 * d.queue.length - 1
  | .running _ => 6 * d.queue.length + 3
  | .settled => 6 * d.queue.length + 2
  | .ended => 0

def St.work (s : St H Q W A E) : ℕ := (s.drains.map Drain.work).sum

theorem sum_work_set (hd : drains[j]? = some d) (hlt : d'.work < d.work) :
    ((drains.set j d').map Drain.work).sum < (drains.map Drain.work).sum := by
  have hsum := Slots.sum_map_set Drain.work hd d'
  omega

theorem work_begin (hstage : d.stage = .checking ∨ d.stage = .granted) (hqueue : d.queue ≠ []) : ({ d with
    queue := d.queue.drop SEARCH_PASS_MAX, stage := .running (d.queue.take SEARCH_PASS_MAX) } : Drain H).work <
      d.work := by
  have hpos := length_pos_iff.2 hqueue
  have hdrop : (d.queue.drop SEARCH_PASS_MAX).length = d.queue.length - 8 := length_drop
  unfold Drain.work
  rcases hstage with hstage | hstage
  · rw [hstage]
    dsimp only
    omega
  · rw [hstage]
    dsimp only
    omega

/-- the pass has a scope to read, since its batch is not empty -/
theorem Inv.resultOf_isSome (h : Inv sha256 alone s) (hd : s.drains[j]? = some d)
    (hrunning : d.stage = .running batch) : ∃ b rest w, batch = b :: rest ∧ s.waiters[b]? = some w ∧ w.answers = [] ∧
      s.scopeOf batch = some w.scope := by
  have hmem : d ∈ s.drains := mem_of_getElem? hd
  have hbatch : d.batch = batch := by
    unfold Drain.batch
    rw [hrunning]
  have hne := h.queues.batch d hmem (by rw [hrunning]; rfl)
  rw [hbatch] at hne
  obtain ⟨b, rest, rfl⟩ := exists_cons_of_ne_nil hne
  obtain ⟨w, hw, -, hnone⟩ := h.queues.mem d hmem b (mem_append_right _ (hbatch ▸ .head _))
  refine ⟨b, rest, w, rfl, hw, hnone, ?_⟩
  unfold St.scopeOf
  rw [head?_cons, Option.bind_some, hw]
  rfl

theorem Inv.work_lt (h : Inv sha256 alone s) (a : Action Q W) (ha : Advances s a) :
    (step sha256 searchPass s a).work < s.work := by
  cases a with
  | joins scope query => exact absurd ha id
  | loops j =>
    obtain ⟨d, hd, hchecking⟩ := ha
    change (s.act j (s.loops j)).work < s.work
    unfold St.act St.loops
    rw [hd]
    dsimp only
    rw [if_pos hchecking]
    split
    · refine sum_work_set hd ?_
      unfold Drain.work
      rw [hchecking]
      exact Nat.succ_pos _
    · next hqueue =>
      unfold St.enter
      split
      · exact sum_work_set hd (work_begin (.inl hchecking) hqueue)
      · refine sum_work_set hd ?_
        unfold Drain.work
        rw [hchecking]
        exact Nat.lt_succ_self _
  | starts j =>
    obtain ⟨d, hd, hgranted⟩ := ha
    have hqueue := h.queues.queued d (mem_of_getElem? hd) (Or.inr hgranted)
    change (s.act j (s.starts j)).work < s.work
    unfold St.act St.starts
    rw [hd]
    dsimp only
    rw [if_pos hgranted]
    exact sum_work_set hd (work_begin (.inr hgranted) hqueue)
  | ends j world =>
    obtain ⟨d, hd, hrunning⟩ := ha
    change (s.act j (s.ends searchPass j world)).work < s.work
    unfold St.act St.ends
    rw [hd]
    dsimp only
    split
    · next batch hbatch =>
      obtain ⟨b, rest, w, -, -, -, hscope⟩ := h.resultOf_isSome hd hbatch
      have hless : ({ d with stage := .settled } : Drain H).work < d.work := by
        unfold Drain.work
        rw [hbatch]
        exact Nat.lt_succ_self _
      have hanswered : ∀ answers : List (ℕ × Except E A),
          (((s.answerAll answers).drains.set j { d with stage := .settled }).map Drain.work).sum < s.work := by
        intro answers
        rw [(answerAll_frame answers s).1]
        exact sum_work_set hd hless
      unfold St.resultOf
      rw [hscope, Option.map_some]
      dsimp only
      split <;> exact hanswered _
    · next hnot =>
      refine absurd hrunning ?_
      unfold Stage.isRunning
      split
      · next batch hbatch => exact absurd hbatch (hnot batch)
      · simp
  | givesBack j =>
    obtain ⟨d, hd, hsettled⟩ := ha
    have hless : ({ d with stage := .checking } : Drain H).work < d.work := by
      unfold Drain.work
      rw [hsettled]
      exact Nat.lt_succ_self _
    have hslots := h.slots
    change (s.act j (s.givesBack j)).work < s.work
    unfold St.act St.givesBack
    rw [hd]
    dsimp only [St.put]
    rw [if_pos hsettled]
    split
    · next next rest hcase =>
      rw [hcase] at hslots
      obtain ⟨e, he, hwaiting⟩ := hslots.next hd hsettled { d with stage := .checking }
      rw [he]
      have hmem : e ∈ s.drains := by
        rcases mem_of_set (mem_of_getElem? he) with rfl | hmem
        · simp at hwaiting
        · exact hmem
      have hpos := length_pos_iff.2 (h.queues.queued e hmem (.inl hwaiting))
      have hless' : ({ e with stage := .granted } : Drain H).work < e.work := by
        unfold Drain.work
        rw [hwaiting]
        dsimp only
        omega
      exact (sum_work_set he hless').trans (sum_work_set hd hless)
    · exact sum_work_set hd hless

theorem Inv.advances [Inhabited W] (h : Inv sha256 alone s) :
    (∀ w ∈ s.waiters, w.answers ≠ []) ∨ ∃ a : Action Q W, Advances s a := by
  by_contra hnot
  obtain ⟨hsome, hstuck⟩ := not_or.1 hnot
  obtain ⟨w, hw, hnone⟩ : ∃ w ∈ s.waiters, w.answers = [] := by
    by_contra hall
    exact hsome fun w hw hn => hall ⟨w, hw, hn⟩
  obtain ⟨i, hi⟩ := mem_iff_getElem?.1 hw
  obtain ⟨d, hd, hpending⟩ := h.queues.waits i w hi hnone
  -- whoever has a slot goes on
  have hslot : ∀ e ∈ s.drains, e.stage.holds = false := by
    intro e he
    obtain ⟨k, hk⟩ := mem_iff_getElem?.1 he
    by_contra hholds
    cases hstage : e.stage with
    | granted => exact hstuck ⟨.starts k, e, hk, hstage⟩
    | running batch => exact hstuck ⟨.ends k default, e, hk, by rw [hstage]; rfl⟩
    | settled => exact hstuck ⟨.givesBack k, e, hk, hstage⟩
    | checking | waiting | ended => exact hholds (by rw [hstage]; rfl)
  obtain ⟨k, hk⟩ := mem_iff_getElem?.1 hd
  have hidle := hslot d hd
  cases hstage : d.stage with
  | checking => exact hstuck ⟨.loops k, d, hk, hstage⟩
  | waiting =>
    have hin : k ∈ s.passSlotWaiters := (h.slots.waits k).2 ⟨d, hk, hstage⟩
    have hfull := h.slots.full (ne_nil_of_mem hin)
    have hzero : s.drains.countP (fun d => d.stage.holds) = 0 :=
      countP_eq_zero.2 fun e he => by simp [hslot e he]
    rw [h.slots.running, hzero] at hfull
    simp [SEARCH_PASSES_AT_ONCE] at hfull
  | ended =>
    have hqueue := h.queues.ended d hd hstage
    unfold Drain.pending Drain.batch at hpending
    rw [hqueue, hstage] at hpending
    exact absurd hpending not_mem_nil
  | granted | running batch | settled => rw [hstage] at hidle; simp [Stage.holds] at hidle

/-! ## Every search is answered -/

/-- how the searches are served, at any time -/
structure Served (sha256 : Text → H) (alone : W → PassScope.Rows → Q → A) (s : St H Q W A E) : Prop where
  once : ∀ (i : ℕ) w, s.waiters[i]? = some w → w.answers.length ≤ 1
  /-- with its own result over its own rows, or the error of the pass it was in -/
  answered : ∀ (i : ℕ) w, s.waiters[i]? = some w → Answered alone s.passes i w
  /-- and it was in one pass only -/
  apart : s.passes.Pairwise fun p q => ∀ i ∈ p.batch, i ∉ q.batch
  /-- who is not answered is in the queue, or the pass, of a drain of its key that goes on -/
  drained : ∀ (i : ℕ) w, s.waiters[i]? = some w → w.answers = [] →
    ∃ d ∈ s.drains, d.stage ≠ .ended ∧ d.key = passKey sha256 w.scope ∧ i ∈ d.pending
  atMost : s.drains.countP (fun d => d.stage.isRunning) ≤ SEARCH_PASSES_AT_ONCE
  /-- the scope of a pass, with the key in it, is that of a search which waits for this pass -/
  key : ∀ d ∈ s.drains, ∀ batch, d.stage = .running batch →
    ∃ i ∈ batch, ∃ w, s.waiters[i]? = some w ∧ w.answers = [] ∧ s.scopeOf batch = some w.scope

theorem Inv.served (h : Inv sha256 alone s) : Served sha256 alone s := by
  refine ⟨h.once, h.answered, h.apart, ?_, ?_, ?_⟩
  · intro i w hw hnone
    obtain ⟨d, hd, hi⟩ := h.queues.waits i w hw hnone
    obtain ⟨w', hw', hkey, -⟩ := h.queues.mem d hd i hi
    cases hw.symm.trans hw'
    refine ⟨d, hd, fun hended => ?_, hkey.symm, hi⟩
    have hqueue := h.queues.ended d hd hended
    unfold Drain.pending Drain.batch at hi
    rw [hqueue, hended] at hi
    exact absurd hi not_mem_nil
  · have himp : ∀ d ∈ s.drains, d.stage.isRunning = true → d.stage.holds = true := by
      intro d _ hr
      cases hstage : d.stage with
      | running batch => rfl
      | _ => rw [hstage] at hr; simp [Stage.isRunning] at hr
    have hrunning := h.slots.running
    exact (countP_mono_left himp).trans (hrunning ▸ h.slots.atMost)
  · intro d hd batch hrunning
    obtain ⟨k, hk⟩ := mem_iff_getElem?.1 hd
    obtain ⟨b, rest, w, rfl, hw, hnone, hscope⟩ := h.resultOf_isSome hk hrunning
    exact ⟨b, .head _, w, hw, hnone, hscope⟩

end

section Runs

/-- what an id finds when its text is asked for -/
def found (world : ℕ) (rows : PassScope.Rows) (query : Text) : ℕ × ℕ × Text := (world, rows.docIds.card, query)

def findAll (world : ℕ) (scope : PassScope) (queries : List Text) : Except Text (List (ℕ × ℕ × Text)) :=
  if world = 0 then .error ['n', 'o'] else .ok (queries.map (found world scope.rows))

def vault : PassScope :=
  { vaultId := ⟨['v'], by decide⟩, docIds := [⟨['a'], by decide⟩, ⟨['b'], by decide⟩], includeFiles := true
    vaultWideReader := false, legacySql := false, crypto := some ⟨1, [7]⟩ }

theorem alone_findAll : Alone findAll found := by
  refine ⟨fun world scope queries results h => ?_⟩
  unfold findAll at h
  split at h
  · cases h
  · exact (Except.ok.inj h).symm

end Runs

end Baalda.SearchPasses
