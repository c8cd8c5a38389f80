/-
Appends with an idempotency key (`appendNote`, `rememberAppend` and `recallAppend` in mcp/service.ts, and the write of
mcp/doc-writer.ts under them).

A note is the log of the transactions on it. A call looks its key up, waits for the lock of the document, writes, and
remembers the key; it gives way to everything else at each await in between. The write is one step if the document is
loaded. If not, the stored state is read, the row of the update is inserted, and what follows the insert may still
throw. Who may edit, the keys of a sealed vault and the index are left out but for that they may throw.

`append_once`: the appends of one key, in every run in which no call looks it up while the key of an append that is in
the log is not remembered, and none lands after another that came since its lookup.
-/
import Baalda.Lib.Machine
import Baalda.Lib.Slots
import Baalda.Server.DocWriter

namespace Baalda.AppendKeys

open Utf16 DocWriter List

/-! ## Model -/

def APPEND_KEY_TTL_MS : ℕ := 24 * 60 * 60 * 1000

def APPEND_KEY_CAP : ℕ := 10000

/-- the document and the caller's key -/
abbrev Key (D : Type*) := D × Text

structure Request (D R : Type*) where
  docId : D
  text : Text
  expectedRevision : Option R := none
  idempotencyKey : Option Text := none
  deriving DecidableEq

/-- an empty key is none -/
def Request.key {D R : Type*} (r : Request D R) : Option (Key D) :=
  (r.idempotencyKey.filter (· ≠ [])).map fun key => (r.docId, key)

inductive Answer (R : Type*) where
  | appended (revision : R)
  | duplicate (revision : R)
  | error
  deriving DecidableEq

inductive Phase (R : Type*) where
  /-- who the caller is and what the vault's key is -/
  | starting
  /-- for the lock -/
  | waiting
  /-- it has the lock, and the stored state is read -/
  | hydrating
  /-- the row of the update is inserted -/
  | appending (revision : R)
  /-- it is there: what follows the insert -/
  | inserted (revision : R)
  /-- the write has returned -/
  | written (revision : R)
  /-- the row of the note is updated, and the index -/
  | updating (revision : R)
  | answered (answer : Answer R)
  deriving DecidableEq

structure Call (D R : Type*) where
  request : Request D R
  phase : Phase R := .starting
  /-- how many transactions there were when it looked its key up -/
  lookedUpAt : ℕ := 0
  remembered : Bool := false
  deriving DecidableEq

/-- a transaction on a note -/
inductive Row (D : Type*) where
  /-- of the `i`th call; one that inserts nothing is one too -/
  | append (i : ℕ) (key : Option (Key D)) (text : Text)
  | other (edit : Text → Text)

def textOf {D : Type*} (log : List (Row D)) : Text := log.foldl (fun current row => match row with
  | .append _ _ text => current ++ text
  | .other edit => edit current) []

structure Seen (R : Type*) where
  /-- when -/
  seenAt : ℕ
  revision : R
  deriving DecidableEq

structure St (D R : Type*) where
  logs : D → List (Row D) := fun _ => []
  locks : D → Option ℕ := fun _ => none
  /-- in the order of insertion -/
  seenAppends : List (Key D × Seen R) := []
  calls : List (Call D R) := []
  now : ℕ := 0

inductive Action (D R : Type*) where
  | tick (ms : ℕ)
  /-- another writer's transaction -/
  | other (docId : D) (edit : Text → Text)
  | begins (request : Request D R)
  | looksUp (i : ℕ)
  /-- the lock is given to it; the document is loaded or not -/
  | takes (i : ℕ) (live : Bool)
  | hydrates (i : ℕ)
  | inserts (i : ℕ)
  | returns (i : ℕ)
  | remembers (i : ℕ)
  | answers (i : ℕ)
  /-- what it awaits throws -/
  | fails (i : ℕ)

variable {D R : Type*} [DecidableEq D] [DecidableEq R] (revisionOf : Text → R) (capChars : ℕ)

def rememberAppend (seen : List (Key D × Seen R)) (key : Key D) (e : Seen R) : List (Key D × Seen R) :=
  let seen := if APPEND_KEY_CAP ≤ seen.length then seen.tail else seen
  if seen.any (·.1 = key) then seen.map fun p => if p.1 = key then (key, e) else p else seen ++ [(key, e)]

def recallAppend (seen : List (Key D × Seen R)) (key : Key D) (now : ℕ) : Option R × List (Key D × Seen R) :=
  match seen.find? (·.1 = key) with
  | none => (none, seen)
  | some hit =>
    if now - hit.2.seenAt > APPEND_KEY_TTL_MS then (none, seen.filter (·.1 ≠ key)) else (some hit.2.revision, seen)

/-- the transaction: the text after it; `none`: it throws, and nothing is applied -/
def plan (r : Request D R) (current : Text) : Option Text :=
  if r.expectedRevision.any (· ≠ revisionOf current) then none
  else match applyOps capChars current [⟨some current.length, some 0, r.text⟩] with
    | (result, none) => some result
    | (_, some _) => none

namespace St

variable (s : St D R)

def put (i : ℕ) (c : Call D R) : St D R := { s with calls := s.calls.set i c }

def lock (docId : D) (i : ℕ) : St D R := { s with locks := Function.update s.locks docId (some i) }

/-- the lock is given back, if the call has it -/
def unlock (docId : D) (i : ℕ) : St D R :=
  { s with locks := fun d => if d = docId ∧ s.locks d = some i then none else s.locks d }

def log (docId : D) (row : Row D) : St D R :=
  { s with logs := Function.update s.logs docId (s.logs docId ++ [row]) }

/-- a step of the `i`th call -/
def act (i : ℕ) (f : Call D R → St D R) : St D R := match s.calls[i]? with
  | some c => f c
  | none => s

def looksUp (i : ℕ) (c : Call D R) : St D R := match c.phase with
  | .starting =>
    let waits := { c with phase := .waiting, lookedUpAt := (s.logs c.request.docId).length }
    match c.request.key with
    | none => s.put i waits
    | some key => match recallAppend s.seenAppends key s.now with
      | (some revision, seen) => { s with seenAppends := seen }.put i
          { c with phase := .answered (.duplicate revision) }
      | (none, seen) => { s with seenAppends := seen }.put i waits
  | _ => s

def takes (i : ℕ) (live : Bool) (c : Call D R) : St D R :=
  let docId := c.request.docId
  if c.phase = .waiting ∧ s.locks docId = none then
    if live then match plan revisionOf capChars c.request (textOf (s.logs docId)) with
      | some result => (s.log docId (.append i c.request.key c.request.text)).put i
          { c with phase := .written (revisionOf result) }
      | none => s.put i { c with phase := .answered .error }
    else (s.lock docId i).put i { c with phase := .hydrating }
  else s

section

variable (i : ℕ) (c : Call D R)

def hydrates : St D R := match c.phase with
  | .hydrating => match plan revisionOf capChars c.request (textOf (s.logs c.request.docId)) with
    | some result => s.put i { c with phase := .appending (revisionOf result) }
    | none => (s.unlock c.request.docId i).put i { c with phase := .answered .error }
  | _ => s

def inserts : St D R := match c.phase with
  | .appending revision => (s.log c.request.docId (.append i c.request.key c.request.text)).put i
      { c with phase := .inserted revision }
  | _ => s

def returns : St D R := match c.phase with
  | .inserted revision => (s.unlock c.request.docId i).put i { c with phase := .written revision }
  | _ => s

def remembers : St D R := match c.phase with
  | .written revision => match c.request.key with
    | none => s.put i { c with phase := .updating revision }
    | some key => { s with seenAppends := rememberAppend s.seenAppends key ⟨s.now, revision⟩ }.put i
        { c with phase := .updating revision, remembered := true }
  | _ => s

def answers : St D R := match c.phase with
  | .updating revision => s.put i { c with phase := .answered (.appended revision) }
  | _ => s

def fails : St D R := match c.phase with
  | .waiting | .written _ | .answered _ => s
  | _ => (s.unlock c.request.docId i).put i { c with phase := .answered .error }

end

end St

def step (s : St D R) : Action D R → St D R
  | .tick ms => { s with now := s.now + ms }
  | .other docId edit => s.log docId (.other edit)
  | .begins request => { s with calls := s.calls ++ [{ request := request }] }
  | .looksUp i => s.act i (s.looksUp i)
  | .takes i live => s.act i (s.takes revisionOf capChars i live)
  | .hydrates i => s.act i (s.hydrates revisionOf capChars i)
  | .inserts i => s.act i (s.inserts i)
  | .returns i => s.act i (s.returns i)
  | .remembers i => s.act i (s.remembers i)
  | .answers i => s.act i (s.answers i)
  | .fails i => s.act i (s.fails i)

/-! ## What is to hold -/

/-- the calls that appended with the key, in order -/
def landed (k : Key D) (log : List (Row D)) : List ℕ := log.filterMap fun
  | .append i key _ => if key = some k then some i else none
  | .other _ => none

/-- the text is appended once if a call succeeds, and all calls but that one are answered as duplicates -/
structure Once (k : Key D) (s : St D R) : Prop where
  atMost : (landed k (s.logs k.1)).length ≤ 1
  duplicate : ∀ (i : ℕ) c revision, s.calls[i]? = some c → c.request.key = some k →
    c.phase = .answered (.duplicate revision) → (landed k (s.logs k.1)).length = 1
  appended : ∀ (i : ℕ) c revision, s.calls[i]? = some c → c.request.key = some k →
    c.phase = .answered (.appended revision) → landed k (s.logs k.1) = [i]

/-- the key is looked up in its lifetime only, and it is not evicted for another one -/
def Kept (k : Key D) (s : St D R) : Action D R → Prop
  | .looksUp i => ∀ c ∈ s.calls[i]?, c.request.key = some k →
      ∀ hit ∈ s.seenAppends.find? (·.1 = k), s.now - hit.2.seenAt ≤ APPEND_KEY_TTL_MS
  | .remembers i => ∀ c ∈ s.calls[i]?, c.request.key.isSome = true →
      APPEND_KEY_CAP ≤ s.seenAppends.length → ∀ oldest ∈ s.seenAppends.head?, oldest.1 ≠ k
  | _ => True

/-- no append of the key came since the `i`th call looked it up -/
def Alone (k : Key D) (s : St D R) (i : ℕ) : Prop := ∀ c ∈ s.calls[i]?, c.request.key = some k →
  landed k ((s.logs k.1).drop c.lookedUpAt) = []

/-- no call looks the key up while that of an append in the log is not remembered, and none appends after another that
came since its lookup -/
def Apart (k : Key D) (s : St D R) : Action D R → Prop
  | .looksUp i => ∀ c ∈ s.calls[i]?, c.request.key = some k →
      ∀ j ∈ landed k (s.logs k.1), ∃ d ∈ s.calls[j]?, d.remembered = true
  | .takes i true => ∀ c ∈ s.calls[i]?, c.phase = .waiting →
      (plan revisionOf capChars c.request (textOf (s.logs c.request.docId))).isSome = true → Alone k s i
  | .inserts i => Alone k s i
  | _ => True

/-! ## The invariant -/

section

variable {revisionOf : Text → R} {capChars : ℕ} {k : Key D} {s s' : St D R} {i : ℕ} {c c' : Call D R}

/-- after its lookup, and it may append -/
def Phase.underWay : Phase R → Bool
  | .waiting | .hydrating | .appending _ => true
  | _ => false

/-- its append is in the log, and it has not failed since -/
def Phase.hasLanded : Phase R → Bool
  | .inserted _ | .written _ | .updating _ | .answered (.appended _) => true
  | _ => false

def Known (k : Key D) (seen : List (Key D × Seen R)) : Prop := ∃ p ∈ seen, p.1 = k

/-- what holds of a call with the key -/
structure CallOk (k : Key D) (log : List (Row D)) (seen : List (Key D × Seen R)) (i : ℕ) (c : Call D R) : Prop where
  missed : c.phase.underWay = true → landed k (log.take c.lookedUpAt) = []
  lookedUp : c.phase.underWay = true → c.lookedUpAt ≤ log.length
  appended : c.phase.hasLanded = true → landed k log = [i]
  duplicate : ∀ revision, c.phase = .answered (.duplicate revision) → landed k log ≠ []
  kept : c.remembered = true → Known k seen

structure Inv (k : Key D) (s : St D R) : Prop where
  atMost : (landed k (s.logs k.1)).length ≤ 1
  known : Known k s.seenAppends → landed k (s.logs k.1) ≠ []
  rows : ∀ j ∈ landed k (s.logs k.1), ∃ d, s.calls[j]? = some d ∧ d.request.key = some k
  call : ∀ (i : ℕ) c, s.calls[i]? = some c → c.request.key = some k → CallOk k (s.logs k.1) s.seenAppends i c

theorem Inv.once (h : Inv k s) : Once k s := by
  refine ⟨h.atMost, ?_, ?_⟩
  · intro i c revision hc hkey hphase
    have hsome := (h.call i c hc hkey).duplicate revision hphase
    have hpos := length_pos_iff.2 hsome
    have hle := h.atMost
    omega
  · intro i c revision hc hkey hphase
    exact (h.call i c hc hkey).appended (by rw [hphase]; rfl)

@[simp] theorem landed_append (k : Key D) (log log' : List (Row D)) :
    landed k (log ++ log') = landed k log ++ landed k log' := filterMap_append

/-- what was in the log at its lookup is there still -/
theorem CallOk.longer {log : List (Row D)} {seen : List (Key D × Seen R)} (h : CallOk k log seen i c) (row : Row D)
    (hu : c.phase.underWay = true) : landed k ((log ++ [row]).take c.lookedUpAt) = [] ∧
      c.lookedUpAt ≤ (log ++ [row]).length := by
  have hle := h.lookedUp hu
  refine ⟨?_, ?_⟩
  · rw [take_append_of_le_length hle]
    exact h.missed hu
  · rw [length_append]
    exact hle.trans (Nat.le_add_right _ _)

theorem Inv.congr (h : Inv k s) (hlogs : s'.logs = s.logs) (hseen : s'.seenAppends = s.seenAppends)
    (hcalls : s'.calls = s.calls) : Inv k s' := by
  refine ⟨?_, ?_, ?_, ?_⟩
  · rw [hlogs]
    exact h.atMost
  · rw [hlogs, hseen]
    exact h.known
  · rw [hlogs, hcalls]
    exact h.rows
  · rw [hlogs, hseen, hcalls]
    exact h.call

/-- the calls after a step of the `i`th: the others are what they were -/
theorem call_put {j : ℕ} {d : Call D R} (hd : (s.put i c').calls[j]? = some d) :
    j = i ∧ d = c' ∨ j ≠ i ∧ s.calls[j]? = some d := by
  change (s.calls.set i c')[j]? = some d at hd
  rw [getElem?_set] at hd
  split at hd
  · next hij =>
    split at hd
    · exact .inl ⟨hij.symm, (Option.some.inj hd).symm⟩
    · cases hd
  · next hij => exact .inr ⟨Ne.symm hij, hd⟩

/-- a call is there still, with its request -/
theorem put_call (hc : s.calls[i]? = some c) (hrequest : c'.request = c.request) {j : ℕ}
    (h : ∃ d, s.calls[j]? = some d ∧ d.request.key = some k) :
    ∃ d, (s.put i c').calls[j]? = some d ∧ d.request.key = some k := by
  obtain ⟨d, hd, hk⟩ := h
  change ∃ d, (s.calls.set i c')[j]? = some d ∧ d.request.key = some k
  rw [List.getElem?_set]
  split
  · next hij =>
    subst hij
    cases hc.symm.trans hd
    have hlt : i < s.calls.length := (List.getElem?_eq_some_iff.1 hc).1
    exact ⟨c', if_pos hlt, hrequest ▸ hk⟩
  · exact ⟨d, hd, hk⟩

/-- a step of one call that only it sees -/
theorem Inv.put (h : Inv k s) (hc : s.calls[i]? = some c) (hrequest : c'.request = c.request)
    (hok : c'.request.key = some k → CallOk k (s.logs k.1) s.seenAppends i c') : Inv k (s.put i c') := by
  refine ⟨h.atMost, h.known, fun j hj => put_call hc hrequest (h.rows j hj), ?_⟩
  intro j d hd hkey
  rcases call_put hd with ⟨rfl, rfl⟩ | ⟨_, hd⟩
  · exact hok hkey
  · exact h.call j d hd hkey

theorem Inv.seen (h : Inv k s) {seen : List (Key D × Seen R)} (hkeep : Known k s.seenAppends → Known k seen)
    (hnew : Known k seen → landed k (s.logs k.1) ≠ []) : Inv k { s with seenAppends := seen } := by
  refine ⟨h.atMost, hnew, h.rows, ?_⟩
  intro j d hd hkey
  have hok := h.call j d hd hkey
  exact ⟨hok.missed, hok.lookedUp, hok.appended, hok.duplicate, fun hr => hkeep (hok.kept hr)⟩

/-- a transaction that is no append of the key -/
theorem Inv.log (h : Inv k s) (docId : D) {row : Row D} (hrow : landed k [row] = []) : Inv k (s.log docId row) := by
  by_cases hdoc : k.1 = docId
  · have hlog : (s.log docId row).logs k.1 = s.logs k.1 ++ [row] := by
      rw [hdoc]
      exact Function.update_self ..
    have hlanded : landed k ((s.log docId row).logs k.1) = landed k (s.logs k.1) := by
      rw [hlog, landed_append, hrow, append_nil]
    refine ⟨hlanded ▸ h.atMost, fun hk => hlanded ▸ h.known hk, hlanded ▸ h.rows, ?_⟩
    intro j d hd hkey
    have hok := h.call j d hd hkey
    exact ⟨fun hu => hlog ▸ (hok.longer row hu).1, fun hu => hlog ▸ (hok.longer row hu).2,
      fun hl => hlanded ▸ hok.appended hl, fun r hr => hlanded ▸ hok.duplicate r hr, hok.kept⟩
  · have hlog : (s.log docId row).logs k.1 = s.logs k.1 := Function.update_of_ne hdoc _ _
    refine ⟨hlog ▸ h.atMost, fun hk => hlog ▸ h.known hk, hlog ▸ h.rows, ?_⟩
    rw [hlog]
    exact h.call

theorem landed_singleton (k : Key D) (i : ℕ) (key : Option (Key D)) (text : Text) :
    landed k [.append i key text] = if key = some k then [i] else [] := by
  unfold landed
  split <;> simp_all

theorem Request.key_fst {r : Request D R} (h : r.key = some k) : r.docId = k.1 := by
  obtain ⟨key, -, hkey⟩ := Option.map_eq_some_iff.1 h
  rw [← hkey]

variable {phase : Phase R}

/-- an append of the key lands when no other has: neither before the call's lookup nor since -/
theorem Inv.lands (h : Inv k s) (hc : s.calls[i]? = some c) (hkey : c.request.key = some k)
    (hunder : c.phase.underWay = true) (halone : Alone k s i)
    (hphase : phase.underWay = false ∧ ∀ revision, phase ≠ .answered (.duplicate revision)) (text : Text) :
    Inv k ((s.log c.request.docId (.append i c.request.key text)).put i { c with phase := phase }) := by
  have hok := h.call i c hc hkey
  have hnone : landed k (s.logs k.1) = [] := by
    rw [← take_append_drop c.lookedUpAt (s.logs k.1), landed_append, hok.missed hunder,
      halone c (Option.mem_def.2 hc) hkey]
    rfl
  have hunknown : ¬ Known k s.seenAppends := fun hk => h.known hk hnone
  have hlog : (s.log c.request.docId (.append i c.request.key text)).logs k.1 =
      s.logs k.1 ++ [.append i c.request.key text] := by
    rw [c.request.key_fst hkey]
    exact Function.update_self ..
  have hlanded : landed k ((s.log c.request.docId (.append i c.request.key text)).logs k.1) = [i] := by
    rw [hlog, landed_append, hnone, landed_singleton, if_pos hkey]
    rfl
  refine ⟨(congrArg List.length hlanded).le, fun hk => absurd hk hunknown, ?_, ?_⟩
  · intro j hj
    have hji : j ∈ [i] := hlanded ▸ hj
    have hcalls : (s.log c.request.docId (.append i c.request.key text)).calls[i]? = some c := hc
    rw [mem_singleton.1 hji]
    refine put_call hcalls ?_ ⟨c, hc, hkey⟩
    rfl
  intro j d hd hk
  rcases call_put hd with ⟨rfl, rfl⟩ | ⟨hne, hd⟩
  · exact ⟨fun hu => absurd (hphase.1.symm.trans hu) (by simp), fun hu => absurd (hphase.1.symm.trans hu) (by simp),
      fun _ => hlanded, fun r hr => absurd hr (hphase.2 r), hok.kept⟩
  · have hother := h.call j d hd hk
    refine ⟨fun hu => ?_, fun hu => ?_, fun hl => ?_, fun r hr => absurd hnone (hother.duplicate r hr), hother.kept⟩
    · exact hlog ▸ (hother.longer _ hu).1
    · exact hlog ▸ (hother.longer _ hu).2
    · exact absurd (hnone.symm.trans (hother.appended hl)) (by simp)

/-! ## Every step -/

theorem known_rememberAppend {seen : List (Key D × Seen R)} (key : Key D) (e : Seen R)
    (hkept : APPEND_KEY_CAP ≤ seen.length → ∀ oldest ∈ seen.head?, oldest.1 ≠ k) :
    (Known k seen → Known k (rememberAppend seen key e)) ∧
      (Known k (rememberAppend seen key e) → key ≠ k → Known k seen) ∧ Known key (rememberAppend seen key e) := by
  have hdropped : ∀ seen' : List (Key D × Seen R), seen' = (if APPEND_KEY_CAP ≤ seen.length then seen.tail else seen) →
      (Known k seen' ↔ Known k seen) := by
    intro seen' heq
    split at heq
    · next hfull =>
      subst heq
      cases seen with
      | nil => rfl
      | cons oldest rest =>
        have hne := hkept hfull oldest rfl
        simp [Known, hne]
    · rw [heq]
  unfold rememberAppend
  obtain ⟨seen', hseen'⟩ : ∃ seen', seen' = (if APPEND_KEY_CAP ≤ seen.length then seen.tail else seen) := ⟨_, rfl⟩
  dsimp only
  rw [← hseen', ← hdropped seen' hseen']
  split
  · next hany =>
    refine ⟨?_, ?_, ?_⟩
    · intro h
      obtain ⟨p, hp, hpk⟩ := h
      refine ⟨_, mem_map_of_mem hp, ?_⟩
      split
      · next heq => exact heq ▸ hpk
      · exact hpk
    · intro h hne
      obtain ⟨q, hq, hqk⟩ := h
      obtain ⟨p, hp, rfl⟩ := mem_map.1 hq
      split at hqk
      · exact absurd hqk hne
      · exact ⟨p, hp, hqk⟩
    · obtain ⟨p, hp, hpk⟩ := any_eq_true.1 hany
      exact ⟨_, mem_map_of_mem hp, by rw [if_pos (by simpa using hpk)]⟩
  · refine ⟨?_, ?_, ⟨_, mem_append_right _ (mem_singleton_self _), rfl⟩⟩
    · intro h
      obtain ⟨p, hp, hpk⟩ := h
      exact ⟨p, mem_append_left _ hp, hpk⟩
    · intro h hne
      obtain ⟨q, hq, hqk⟩ := h
      rcases mem_append.1 hq with hq | hq
      · exact ⟨q, hq, hqk⟩
      · rw [mem_singleton.1 hq] at hqk
        exact absurd hqk hne

/-- what a lookup leaves: only an entry whose lifetime is over goes -/
theorem known_recallAppend (seen : List (Key D × Seen R)) {key : Key D} (now : ℕ)
    (hkept : key = k → ∀ hit ∈ seen.find? (·.1 = k), now - hit.2.seenAt ≤ APPEND_KEY_TTL_MS) :
    (Known k (recallAppend seen key now).2 ↔ Known k seen) ∧
      (key = k → ((recallAppend seen key now).1.isSome ↔ Known k seen)) := by
  unfold recallAppend
  cases hfind : seen.find? (·.1 = key) with
  | none =>
    refine ⟨Iff.rfl, ?_⟩
    intro heq
    subst heq
    rw [find?_eq_none] at hfind
    simp only [Option.isSome_none, Bool.false_eq_true, false_iff]
    intro h
    obtain ⟨p, hp, hpk⟩ := h
    exact hfind p hp (by simpa using hpk)
  | some hit =>
    have hmem := mem_of_find?_eq_some hfind
    have hkey : hit.1 = key := by simpa using find?_some hfind
    dsimp only
    split
    · next hover =>
      have hne : key ≠ k := by
        intro heq
        subst heq
        have hle := hkept rfl hit hfind
        omega
      refine ⟨?_, fun heq => absurd heq hne⟩
      refine ⟨?_, ?_⟩
      · intro h
        obtain ⟨p, hp, hpk⟩ := h
        exact ⟨p, (mem_filter.1 hp).1, hpk⟩
      · intro h
        obtain ⟨p, hp, hpk⟩ := h
        exact ⟨p, mem_filter.2 ⟨hp, by simpa [hpk] using hne.symm⟩, hpk⟩
    · refine ⟨Iff.rfl, ?_⟩
      intro heq
      subst heq
      exact iff_of_true rfl ⟨hit, hmem, hkey⟩

theorem Inv.act (h : Inv k s) {f : Call D R → St D R} (hf : ∀ c, s.calls[i]? = some c → Inv k (f c)) :
    Inv k (s.act i f) := by
  unfold St.act
  split
  · next c hc => exact hf c hc
  · exact h

section

variable {log : List (Row D)} {seen : List (Key D × Seen R)} (h : CallOk k log seen i c)

include h

/-- a call goes on to a phase in which it has appended nothing, or has failed -/
theorem CallOk.idle (hunder : phase.underWay = false) (hlanded : phase.hasLanded = false)
    (hduplicate : ∀ revision, phase ≠ .answered (.duplicate revision)) :
    CallOk k log seen i { c with phase := phase } := by
  refine ⟨fun hu => ?_, fun hu => ?_, fun hl => ?_, fun r hr => absurd hr (hduplicate r), h.kept⟩
  · exact absurd (hunder.symm.trans hu) (by simp)
  · exact absurd (hunder.symm.trans hu) (by simp)
  · exact absurd (hlanded.symm.trans hl) (by simp)

theorem CallOk.waits (hc : c.phase.underWay = true) (hunder : phase.underWay = true) :
    CallOk k log seen i { c with phase := phase } := by
  refine ⟨fun _ => h.missed hc, fun _ => h.lookedUp hc, fun hl => ?_, fun r hr => ?_, h.kept⟩
  · cases phase <;> simp [Phase.underWay, Phase.hasLanded] at hunder hl
  · have hr' : phase = .answered (.duplicate r) := hr
    rw [hr'] at hunder
    simp [Phase.underWay] at hunder

theorem CallOk.goesOn (hc : c.phase.hasLanded = true) (phase : Phase R) (hunder : phase.underWay = false)
    (hduplicate : ∀ revision, phase ≠ .answered (.duplicate revision)) :
    CallOk k log seen i { c with phase := phase } := by
  refine ⟨fun hu => ?_, fun hu => ?_, fun _ => h.appended hc, fun r hr => absurd hr (hduplicate r), h.kept⟩
  · exact absurd (hunder.symm.trans hu) (by simp)
  · exact absurd (hunder.symm.trans hu) (by simp)

end

section

variable (h : Inv k s)

include h

/-- the key of an append is remembered when the next call looks it up -/
theorem Inv.unknown (hc : s.calls[i]? = some c) (hkey : c.request.key = some k)
    (hapart : Apart revisionOf capChars k s (.looksUp i)) (hunknown : ¬ Known k s.seenAppends) :
    landed k (s.logs k.1) = [] := by
  apply eq_nil_iff_forall_not_mem.2
  intro j hj
  obtain ⟨d, hd, hremembered⟩ := hapart c (Option.mem_def.2 hc) hkey j hj
  obtain ⟨d', hd', hk⟩ := h.rows j hj
  obtain rfl := Option.some.inj ((Option.mem_def.1 hd).symm.trans hd')
  exact hunknown ((h.call j d hd' hk).kept hremembered)

theorem Inv.looksUp (hc : s.calls[i]? = some c) (hkept : Kept k s (.looksUp i))
    (hapart : Apart revisionOf capChars k s (.looksUp i)) : Inv k (s.looksUp i c) := by
  unfold St.looksUp
  split
  · split
    · next hnone => exact h.put hc rfl fun hk => absurd (hnone.symm.trans hk) (by simp)
    · next key hkey =>
      have hsame : key = k → c.request.key = some k := fun heq => heq ▸ hkey
      obtain ⟨hleft, hfound⟩ := known_recallAppend s.seenAppends s.now fun heq : key = k =>
        hkept c (Option.mem_def.2 hc) (hsame heq)
      have hseen : Inv k { s with seenAppends := (recallAppend s.seenAppends key s.now).2 } :=
        h.seen hleft.2 fun hk => h.known (hleft.1 hk)
      split
      · next revision seen heq =>
        rw [heq] at hleft hfound hseen
        refine hseen.put hc rfl fun hk => ?_
        have hkk : key = k := Option.some.inj (hkey.symm.trans hk)
        have hk' : Known k s.seenAppends := (hfound hkk).1 rfl
        refine ⟨fun hu => ?_, fun hu => ?_, fun hl => ?_, fun _ _ => h.known hk', fun _ => hleft.2 hk'⟩
        · simp [Phase.underWay] at hu
        · simp [Phase.underWay] at hu
        · simp [Phase.hasLanded] at hl
      · next seen heq =>
        rw [heq] at hleft hfound hseen
        refine hseen.put hc rfl fun hk => ?_
        have hkk : key = k := Option.some.inj (hkey.symm.trans hk)
        have hnone : landed k (s.logs k.1) = [] :=
          h.unknown hc (hsame hkk) hapart fun hk' => absurd ((hfound hkk).2 hk') (by simp)
        refine ⟨fun _ => ?_, fun _ => ?_, fun hl => ?_, fun r hr => ?_, fun hr => ?_⟩
        · rw [c.request.key_fst (hsame hkk), take_length]
          exact hnone
        · exact (congrArg (fun d => (s.logs d).length) (c.request.key_fst (hsame hkk))).le
        · simp [Phase.hasLanded] at hl
        · cases hr
        · exact hleft.2 ((h.call i c hc (hsame hkk)).kept hr)
  · exact h

/-- an append lands, of the key or of another -/
theorem Inv.append (hc : s.calls[i]? = some c) (hunder : c.phase.underWay = true) (halone : Alone k s i)
    (hphase : phase.underWay = false) (hduplicate : ∀ revision, phase ≠ .answered (.duplicate revision)) :
    Inv k ((s.log c.request.docId (.append i c.request.key c.request.text)).put i { c with phase := phase }) := by
  by_cases hkey : c.request.key = some k
  · exact h.lands hc hkey hunder halone ⟨hphase, hduplicate⟩ _
  · have hrow : landed k [.append i c.request.key c.request.text] = [] := by
      rw [landed_singleton, if_neg hkey]
    have hlogged := h.log c.request.docId hrow
    have hcalls : (s.log c.request.docId (.append i c.request.key c.request.text)).calls[i]? = some c := hc
    refine hlogged.put hcalls ?_ ?_
    · rfl
    · exact fun hk => absurd hk hkey

theorem Inv.unlock (docId : D) (i : ℕ) : Inv k (s.unlock docId i) := h.congr rfl rfl rfl

section

variable (hc : s.calls[i]? = some c)

include hc

theorem Inv.takes {live : Bool}
    (hapart : Apart revisionOf capChars k s (.takes i live)) : Inv k (s.takes revisionOf capChars i live c) := by
  unfold St.takes
  dsimp only
  split
  · next hwaits =>
    obtain ⟨hphase, -⟩ := hwaits
    have hunder : c.phase.underWay = true := by rw [hphase]; rfl
    split
    · next hlive =>
      subst hlive
      split
      · next result hplan =>
        have halone : Alone k s i := hapart c (Option.mem_def.2 hc) hphase (by rw [hplan]; rfl)
        exact h.append hc hunder halone rfl (by simp)
      · exact h.put hc rfl fun hk => (h.call i c hc hk).idle rfl rfl (by simp)
    · have hlocked : Inv k (s.lock c.request.docId i) := h.congr rfl rfl rfl
      exact hlocked.put hc rfl fun hk => (h.call i c hc hk).waits hunder rfl
  · exact h

theorem Inv.hydrates : Inv k (s.hydrates revisionOf capChars i c) := by
  unfold St.hydrates
  split
  · next hphase =>
    have hunder : c.phase.underWay = true := by rw [hphase]; rfl
    split
    · exact h.put hc rfl fun hk => (h.call i c hc hk).waits hunder rfl
    · exact (h.unlock _ i).put hc rfl fun hk => (h.call i c hc hk).idle rfl rfl (by simp)
  · exact h

theorem Inv.inserts (hapart : Apart revisionOf capChars k s (.inserts i)) : Inv k (s.inserts i c) := by
  unfold St.inserts
  split
  · next revision hphase => exact h.append hc (by rw [hphase]; rfl) hapart rfl (by simp)
  · exact h

theorem Inv.returns : Inv k (s.returns i c) := by
  unfold St.returns
  split
  · next revision hphase =>
    have hlanded : c.phase.hasLanded = true := by rw [hphase]; rfl
    exact (h.unlock _ i).put hc rfl fun hk => (h.call i c hc hk).goesOn hlanded _ rfl (by simp)
  · exact h

theorem Inv.remembers (hkept : Kept k s (.remembers i)) : Inv k (s.remembers i c) := by
  unfold St.remembers
  split
  · next revision hphase =>
    have hlanded : c.phase.hasLanded = true := by rw [hphase]; rfl
    split
    · next hnone => exact h.put hc rfl fun hk => absurd (hnone.symm.trans hk) (by simp)
    · next key hkey =>
      obtain ⟨hkeep, hnew, hthis⟩ := known_rememberAppend key ⟨s.now, revision⟩
        (hkept c (Option.mem_def.2 hc) (by rw [hkey]; rfl))
      have hsome : Known k (rememberAppend s.seenAppends key ⟨s.now, revision⟩) → landed k (s.logs k.1) ≠ [] := by
        intro hk
        by_cases heq : key = k
        · rw [(h.call i c hc (heq ▸ hkey)).appended hlanded]
          simp
        · exact h.known (hnew hk heq)
      refine (h.seen hkeep hsome).put hc rfl fun hk => ?_
      have hkk : key = k := Option.some.inj (hkey.symm.trans hk)
      have hon := (h.call i c hc hk).goesOn hlanded (.updating revision) rfl (by simp)
      exact ⟨hon.missed, hon.lookedUp, hon.appended, hon.duplicate, fun _ => hkk ▸ hthis⟩
  · exact h

theorem Inv.answers : Inv k (s.answers i c) := by
  unfold St.answers
  split
  · next revision hphase =>
    have hlanded : c.phase.hasLanded = true := by rw [hphase]; rfl
    exact h.put hc rfl fun hk => (h.call i c hc hk).goesOn hlanded _ rfl (by simp)
  · exact h

theorem Inv.fails : Inv k (s.fails i c) := by
  unfold St.fails
  split
  · exact h
  · exact h
  · exact h
  · exact (h.unlock _ i).put hc rfl fun hk => (h.call i c hc hk).idle rfl rfl (by simp)

end

theorem Inv.begins (request : Request D R) : Inv k { s with calls := s.calls ++ [{ request := request }] } := by
  refine ⟨h.atMost, h.known, ?_, ?_⟩
  · intro j hj
    obtain ⟨d, hd, hk⟩ := h.rows j hj
    exact ⟨d, List.getElem?_snoc_of hd _, hk⟩
  · intro j d hd hk
    rcases List.getElem?_snoc.1 hd with hd | ⟨-, rfl⟩
    · exact h.call j d hd hk
    · exact ⟨fun hu => by simp [Phase.underWay] at hu, fun hu => by simp [Phase.underWay] at hu,
        fun hl => by simp [Phase.hasLanded] at hl, fun r hr => by simp at hr,
        fun hr => by simp at hr⟩

end

theorem inv_step (a : Action D R) (h : Inv k s) (hkept : Kept k s a) (hapart : Apart revisionOf capChars k s a) :
    Inv k (step revisionOf capChars s a) := by
  cases a with
  | tick ms => exact h.congr rfl rfl rfl
  | other docId edit => exact h.log docId rfl
  | begins request => exact h.begins request
  | looksUp i => exact h.act fun c hc => h.looksUp hc hkept hapart
  | takes i live => exact h.act fun c hc => h.takes hc hapart
  | hydrates i => exact h.act fun c hc => h.hydrates hc
  | inserts i => exact h.act fun c hc => h.inserts hc hapart
  | returns i => exact h.act fun c hc => h.returns hc
  | remembers i => exact h.act fun c hc => h.remembers hc hkept
  | answers i => exact h.act fun c hc => h.answers hc
  | fails i => exact h.act fun c hc => h.fails hc

theorem inv_init (k : Key D) : Inv k ({} : St D R) := by
  refine ⟨Nat.zero_le _, ?_, ?_, ?_⟩
  · intro hk
    obtain ⟨p, hp, _⟩ := hk
    exact absurd hp not_mem_nil
  · exact fun j hj => absurd hj not_mem_nil
  · exact fun i c hc => by simp at hc

/-- **Appends with a key.** in every run in which the key is kept and the calls with it stay apart, its text is appended
once if one of them succeeds, by the call that is answered so; every other one that succeeds is a duplicate. -/
theorem append_once (k : Key D) (as : List (Action D R))
    (h : Machine.Guarded (step revisionOf capChars) (fun s a => Kept k s a ∧ Apart revisionOf capChars k s a) {} as) :
    Once k (Machine.run (step revisionOf capChars) {} as) := by
  have hinv : Inv k (Machine.run (step revisionOf capChars) {} as) :=
    Machine.run_inv (fun _ a hs ok => inv_step a hs ok.1 ok.2) (inv_init k) h
  exact hinv.once

end

section Runs

variable (k : Key D) (s : St D R)

instance Kept.decidable : ∀ a, Decidable (Kept k s a)
  | .looksUp i => inferInstanceAs (Decidable (∀ c ∈ s.calls[i]?, c.request.key = some k →
      ∀ hit ∈ s.seenAppends.find? (·.1 = k), s.now - hit.2.seenAt ≤ APPEND_KEY_TTL_MS))
  | .remembers i => inferInstanceAs (Decidable (∀ c ∈ s.calls[i]?, c.request.key.isSome = true →
      APPEND_KEY_CAP ≤ s.seenAppends.length → ∀ oldest ∈ s.seenAppends.head?, oldest.1 ≠ k))
  | .tick _ | .other _ _ | .begins _ | .takes _ _ | .hydrates _ | .inserts _ | .returns _ | .answers _ | .fails _ =>
    inferInstanceAs (Decidable True)

instance (i : ℕ) : Decidable (Alone k s i) := inferInstanceAs (Decidable (∀ c ∈ s.calls[i]?,
  c.request.key = some k → landed k ((s.logs k.1).drop c.lookedUpAt) = []))

instance Apart.decidable : ∀ a, Decidable (Apart revisionOf capChars k s a)
  | .looksUp i => inferInstanceAs (Decidable (∀ c ∈ s.calls[i]?, c.request.key = some k →
      ∀ j ∈ landed k (s.logs k.1), ∃ d ∈ s.calls[j]?, d.remembered = true))
  | .takes i true => inferInstanceAs (Decidable (∀ c ∈ s.calls[i]?, c.phase = .waiting →
      (plan revisionOf capChars c.request (textOf (s.logs c.request.docId))).isSome = true → Alone k s i))
  | .inserts i => inferInstanceAs (Decidable (Alone k s i))
  | .takes _ false | .tick _ | .other _ _ | .begins _ | .hydrates _ | .returns _ | .remembers _ | .answers _
  | .fails _ => inferInstanceAs (Decidable True)

def retried : Request Unit Text := { docId := (), text := [97], idempotencyKey := some [107] }

/-- the second call comes while the first is at its index: it is a duplicate -/
theorem late_retry_is_duplicate : Once ((), [107]) (Machine.run (step id 100) {}
    [.begins retried, .looksUp 0, .takes 0 false, .hydrates 0, .inserts 0, .begins retried, .returns 0, .remembers 0,
      .other () (· ++ [98]), .looksUp 1, .answers 0]) :=
  append_once ((), [107]) _ (by decide)

/-- the second call looks the key up before the first has written: both append -/
theorem overlapping_retries_append_twice : ¬ ∀ as : List (Action Unit Text),
    Machine.Guarded (step id 100) (Kept ((), [107])) {} as →
      Once ((), [107]) (Machine.run (step id 100) {} as) := by
  intro h
  have honce := h [.begins retried, .begins retried, .looksUp 0, .looksUp 1, .takes 0 true, .takes 1 true,
    .remembers 0, .remembers 1, .answers 0, .answers 1] (by decide)
  exact absurd honce.atMost (by decide)

end Runs

end Baalda.AppendKeys
