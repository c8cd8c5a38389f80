/-
What the bridge's compare-and-swap may replace.

`Books` is the invariant: the hashes the bridge compares reads and writes with, and the one it last observed on disk, belong
to bytes with an account, or to the file an open without a document found, or to bytes that a pass has read and waits with.
`cas_write_accounted`: in every run of `WriteOk` steps a write that carries a hash replaces only bytes with an account, and a
stale answer queues a re-read.

`WriteOk` rules out four slips. An egest takes its expected hash while a pass still waits for its recovery snapshot with these
very bytes; the file that an open without a document found is forgotten for other bytes while the echo guard still names
it; the bridge is destroyed while a pass and an egest are under way; and (a condition on `Opened`) the copy of such a file
fails without being noticed.
-/
import Baalda.Desktop.NoteBridge

namespace Baalda.Bridge

open TextDiff TextCrdt

variable {ι H : Type*}

namespace NoteBridge

/-! ## What is known of a hash -/

/-- some bytes with this hash have an account -/
def Accounted (s : NoteBridge ι H) (h : H) : Prop := ∃ a, (h, a) ∈ s.accounts

def unagreedHash (s : NoteBridge ι H) : Option H := s.unagreedFile.map Prod.snd

def observedHash (s : NoteBridge ι H) : Option H := s.observed.map Prod.fst

end NoteBridge

/-- the hash of a read whose recovery snapshot is being written -/
def IngestPhase.waiting : IngestPhase H → Option H
  | .snapshotting _ h _ => some h
  | .reading | .hashing _ | .keeping _ _ => none

/-- the hash of a read that is being saved aside -/
def IngestPhase.kept : IngestPhase H → Option H
  | .keeping _ h => some h
  | .reading | .hashing _ | .snapshotting _ _ _ => none

/-- the pass has judged its read and waits -/
def IngestPhase.holds : IngestPhase H → Bool
  | .keeping _ _ | .snapshotting _ _ _ => true
  | .reading | .hashing _ => false

namespace NoteBridge

section

variable (s : NoteBridge ι H)

def waitingHash : Option H := s.ingestPass.bind (·.phase.waiting)

def keptHash : Option H := s.ingestPass.bind (·.phase.kept)

def holds : Bool := s.ingestPass.any (·.phase.holds)

/-- the bytes last seen on disk are those a pass still waits with -/
def Unmerged : Prop := ∃ h, s.waitingHash = some h ∧ s.observedHash = some h

/-- the echo guard names the file an open without a document found -/
def NamesUnagreed : Prop := ∃ h, s.unagreedHash = some h ∧ s.lastWrittenHash = some h

end

instance [DecidableEq H] (s : NoteBridge ι H) (h : H) : Decidable (s.Accounted h) :=
  decidable_of_iff (h ∈ s.accounts.map Prod.fst) (by simp [Accounted])

instance [DecidableEq H] (s : NoteBridge ι H) : Decidable s.Unmerged :=
  decidable_of_iff (∃ h ∈ s.waitingHash, s.observedHash = some h) Iff.rfl

instance [DecidableEq H] (s : NoteBridge ι H) : Decidable s.NamesUnagreed :=
  decidable_of_iff (∃ h ∈ s.unagreedHash, s.lastWrittenHash = some h) Iff.rfl

/-- an egest forgets the unagreed file because another one was observed since -/
def MovesOn (s : NoteBridge ι H) (content : Text) : Prop :=
  ∃ u, s.unagreedFile = some u ∧ content ≠ u.1 ∧ s.observedHash ≠ some u.2

instance [DecidableEq H] (s : NoteBridge ι H) (content : Text) : Decidable (s.MovesOn content) :=
  decidable_of_iff (∃ u ∈ s.unagreedFile, content ≠ u.1 ∧ s.observedHash ≠ some u.2) Iff.rfl

end NoteBridge

namespace NoteBridge

/-! ## The invariant -/

/-- an egest under way carries an accounted hash -/
def EgestBooks (s : NoteBridge ι H) : EgestPhase ι H → Prop
  | .savingAside unagreed _ => s.unagreedFile = some unagreed ∨ s.unagreedFile = none
  | .writing _ expected _ => s.unagreedFile = none ∧ ∀ h, expected = some h → s.Accounted h
  | .answering hash _ stale => s.unagreedFile = none ∧ (stale = false → s.Accounted hash)
  | .checking | .hashing => True

structure Books (io : BridgeIO ι H) (s : NoteBridge ι H) : Prop where
  written : ∀ h, s.lastWrittenHash = some h → s.Accounted h ∨ s.unagreedHash = some h
  pending : ∀ h, s.pendingMergedFileHash = some h → s.Accounted h
  base : ∀ h, s.diskBase = some h → s.Accounted h
  observed : ∀ h, s.observedHash = some h → s.Accounted h ∨
    (s.unagreedHash = some h ∧ s.lastWrittenHash = some h ∧ s.holds = false) ∨ s.waitingHash = some h
  unagreed : ∀ u, s.unagreedFile = some u → u.2 = io.sha256 u.1
  kept : ∀ h, s.keptHash = some h → s.Accounted h
  egest : ∀ e, s.egestPass = some e → s.EgestBooks e.phase
  seeds : ∀ t, SeedPhase.hashing t ∈ s.seeds → s.Accounted (io.sha256 t)
  alive : s.destroyed = true → s.ingestPass = none

variable {io : BridgeIO ι H} {s s' : NoteBridge ι H}

theorem EgestBooks.imp {phase : EgestPhase ι H} (h : s.EgestBooks phase)
    (hun : s'.unagreedFile = s.unagreedFile ∨ s'.unagreedFile = none) (hacc : ∀ h, s.Accounted h → s'.Accounted h) :
    s'.EgestBooks phase := by
  have hnone : s.unagreedFile = none → s'.unagreedFile = none := fun hs => hun.elim (·.trans hs) id
  cases phase with
  | checking | hashing => trivial
  | savingAside u hash =>
    rcases hun with hun | hun
    · exact Or.imp hun.trans hun.trans h
    · exact .inr hun
  | writing hash expected st => exact ⟨hnone h.1, fun x hx => hacc x (h.2 x hx)⟩
  | answering hash st stale => exact ⟨hnone h.1, fun hs => hacc _ (h.2 hs)⟩

/-- What a step has to show: every hash it sets has an account, and so has that of an unagreed file it forgets while the
echo guard names it. -/
theorem Books.change (h : Books io s)
    (hlw : ∀ x, s'.lastWrittenHash = some x → s.lastWrittenHash = some x ∨ s'.Accounted x)
    (hpm : ∀ x, s'.pendingMergedFileHash = some x → s.pendingMergedFileHash = some x ∨ s'.Accounted x)
    (hbase : ∀ x, s'.diskBase = some x → s.diskBase = some x ∨ s'.Accounted x)
    (hobs : ∀ x, s'.observedHash = some x → s'.Accounted x ∨
      (s'.unagreedHash = some x ∧ s'.lastWrittenHash = some x ∧ s'.holds = false) ∨ s'.waitingHash = some x)
    (hun : s'.unagreedFile = s.unagreedFile ∨
      s'.unagreedFile = none ∧ ∀ x, s.unagreedHash = some x → s.lastWrittenHash = some x → s'.Accounted x)
    (hkept : ∀ x, s'.keptHash = some x → s.keptHash = some x ∨ s'.Accounted x)
    (hegest : ∀ e, s'.egestPass = some e → s'.EgestBooks e.phase)
    (hseeds : ∀ t, SeedPhase.hashing t ∈ s'.seeds → SeedPhase.hashing t ∈ s.seeds ∨ s'.Accounted (io.sha256 t))
    (halive : s'.destroyed = true → s'.ingestPass = none) (hacc : ∀ x, s.Accounted x → s'.Accounted x) :
    Books io s' where
  written x hx := by
    rcases hlw x hx with hold | hnew
    · rcases h.written x hold with hac | hua
      · exact .inl (hacc x hac)
      · rcases hun with hsame | ⟨-, hforgot⟩
        · exact .inr (by rw [unagreedHash, hsame]; exact hua)
        · exact .inl (hforgot x hua hold)
    · exact .inl hnew
  pending x hx := (hpm x hx).elim (fun ho => hacc x (h.pending x ho)) id
  base x hx := (hbase x hx).elim (fun ho => hacc x (h.base x ho)) id
  observed := hobs
  unagreed u hu := by
    rcases hun with hsame | ⟨hnone, -⟩
    · exact h.unagreed u (hsame ▸ hu)
    · rw [hnone] at hu
      cases hu
  kept x hx := (hkept x hx).elim (fun ho => hacc x (h.kept x ho)) id
  egest := hegest
  seeds t ht := (hseeds t ht).elim (fun ho => hacc _ (h.seeds t ho)) id
  alive := halive

/-- a step that sets no hash -/
theorem Books.frame (h : Books io s) (hashes : s'.toHashes = s.toHashes) (hobs : s'.observedHash = s.observedHash)
    (hun : s'.unagreedFile = s.unagreedFile) (hwait : s'.waitingHash = s.waitingHash)
    (hkept : s'.keptHash = s.keptHash) (hholds : s'.holds = s.holds) (hegest : s'.egestPass = s.egestPass)
    (hseeds : ∀ t, SeedPhase.hashing t ∈ s'.seeds → SeedPhase.hashing t ∈ s.seeds)
    (halive : s'.destroyed = true → s'.ingestPass = none) (hacc : s'.accounts = s.accounts) : Books io s' := by
  have hmono : ∀ x, s.Accounted x → s'.Accounted x := fun x hx => by rw [Accounted, hacc]; exact hx
  refine h.change ?_ ?_ ?_ ?_ (.inl hun) ?_ ?_ (fun t ht => .inl (hseeds t ht)) halive hmono
  · rw [hashes]; exact fun x hx => .inl hx
  · rw [hashes]; exact fun x hx => .inl hx
  · rw [hashes]; exact fun x hx => .inl hx
  · intro x hx
    rw [hobs] at hx
    rw [unagreedHash, hun, hashes, hwait, hholds]
    exact (h.observed x hx).imp (hmono x) id
  · rw [hkept]; exact fun x hx => .inl hx
  · intro e he
    exact (h.egest e (hegest ▸ he)).imp (.inl hun) hmono

end NoteBridge

namespace NoteBridge

variable {io : BridgeIO ι H} {s : NoteBridge ι H}

/-! ## An ingest pass -/

theorem Books.capture (h : Books io s) : Books io s.capture := by
  rcases s.capture_eq with heq | ⟨p, hp, -, -, heq⟩
  · rw [heq]; exact h
  · have halive : s.destroyed = true → (some { p with baseline := some s.doc } : Option (IngestPass ι H)) = none := by
      intro hd
      have hnone := h.alive hd
      rw [hp] at hnone
      cases hnone
    rw [heq]
    refine h.frame rfl rfl rfl ?_ ?_ ?_ rfl (fun _ ht => ht) halive rfl
    · simp [waitingHash, hp]
    · simp [keptHash, hp]
    · simp [holds, hp]

/-- a pass that waits with no bytes ends -/
theorem Books.endIngest (h : Books io s) (hidle : s.waitingHash = none) (job : IngestJob ι) :
    Books io (s.endIngest job) := by
  obtain ⟨d, t, heq⟩ := s.endIngest_eq job
  rw [heq]
  refine h.change (fun _ => .inl) (fun _ => .inl) (fun _ => .inl) ?_ (.inl rfl) ?_ ?_
    (fun _ => .inl) (fun _ => rfl) fun _ hx => hx
  · intro x hx
    rcases h.observed x hx with hac | ⟨hu, hl, -⟩ | hw
    · exact .inl hac
    · exact .inr (.inl ⟨hu, hl, rfl⟩)
    · rw [hidle] at hw
      cases hw
  · intro x hx
    simp [keptHash] at hx
  · exact fun e he => (h.egest e he).imp (.inl rfl) fun _ hx => hx

/-- the bridge learns what became of the bytes with a hash it reads -/
theorem Books.account (h : Books io s) (x : H) (a : Account) : Books io (s.account x a) := by
  have hmono : ∀ y, s.Accounted y → (s.account x a).Accounted y := fun y ⟨b, hb⟩ => ⟨b, .tail _ hb⟩
  refine h.change (fun _ => .inl) (fun _ => .inl) (fun _ => .inl) ?_ (.inl rfl)
    (fun _ => .inl) ?_ (fun _ => .inl) h.alive hmono
  · exact fun y hy => (h.observed y hy).imp (hmono y) id
  · exact fun e he => (h.egest e he).imp (.inl rfl) hmono

theorem accounted_account (s : NoteBridge ι H) (x : H) (a : Account) : (s.account x a).Accounted x :=
  ⟨a, .head _⟩

/-- accounted bytes are observed -/
theorem Books.observe [DecidableEq H] (h : Books io s) {x : H} (hx : s.Accounted x) : Books io (s.observe x) := by
  obtain ⟨o, ho, heq⟩ := s.observe_eq x
  rw [heq]
  refine h.change (fun _ => .inl) (fun _ => .inl) (fun _ => .inl) ?_ (.inl rfl)
    (fun _ => .inl) ?_ (fun _ => .inl) h.alive fun _ hx => hx
  · intro y hy
    have hyx : y = x := Option.some.inj (hy.symm.trans ho)
    exact .inl (hyx ▸ hx)
  · exact fun e he => (h.egest e he).imp (.inl rfl) fun _ hx => hx

theorem observe_account [DecidableEq H] (s : NoteBridge ι H) (x y : H) (a : Account) :
    (s.observe x).account y a = (s.account y a).observe x := by
  unfold NoteBridge.observe NoteBridge.account
  split_ifs <;> rfl

/-- the echo guard is set to accounted bytes, and an egest is armed -/
theorem Books.writeOut (h : Books io s) (hobs : ∀ y, s.observedHash = some y → s.Accounted y) (p : IngestPass ι H) {x : H}
    (hx : s.Accounted x) : Books io (s.writeOut p x) := by
  obtain ⟨d, t, heq⟩ := s.writeOut_eq p x
  rw [heq]
  refine h.change ?_ (fun _ => .inl) (fun _ => .inl) (fun y hy => .inl (hobs y hy)) (.inl rfl) ?_ ?_
    (fun _ => .inl) (fun _ => rfl) fun _ hx => hx
  · exact fun y hy => .inr (Option.some.inj hy ▸ hx)
  · intro y hy
    simp [keptHash] at hy
  · exact fun e he => (h.egest e he).imp (.inl rfl) fun _ hx => hx

/-- the read and the document agree -/
theorem Books.agrees (h : Books io s) (x : H) (a : Account) (st : Option (Doc ι UInt16)) :
    Books io (({ s with lastWrittenHash := some x, diskBase := some x, refused := none }.observeState x st).account x a) := by
  have hnew : ∀ y : H, some x = some y →
      (({ s with lastWrittenHash := some x, diskBase := some x, refused := none }.observeState x st).account x a).Accounted y :=
    fun y hy => ⟨a, by rw [Option.some.inj hy]; exact .head _⟩
  refine h.change (fun y hy => .inr (hnew y hy)) (fun _ => .inl) (fun y hy => .inr (hnew y hy))
    (fun y hy => .inl (hnew y hy)) (.inl rfl) (fun _ => .inl) ?_ (fun _ => .inl) h.alive ?_
  · exact fun e he => (h.egest e he).imp (.inl rfl) fun _ ⟨b, hb⟩ => ⟨b, .tail _ hb⟩
  · exact fun _ ⟨b, hb⟩ => ⟨b, .tail _ hb⟩

theorem Books.live (h : Books io s) {p : IngestPass ι H} (hp : s.ingestPass = some p) : s.destroyed = false := by
  by_contra hd
  have hnone := h.alive (Bool.eq_true_of_not_eq_false hd)
  rw [hp] at hnone
  cases hnone

end NoteBridge

/-! ## What a run must not do -/

def Verdict.mergesNow : Verdict → Bool
  | .merge _ large => !large
  | _ => false

/-- a pass's read enters the document in this step -/
def NoteBridge.entering [DecidableEq H] (io : BridgeIO ι H) (s : NoteBridge ι H) : Bool := match s.ingestPass with
  | some p => match p.phase with
    | .hashing fileText => !oversize io.cfg fileText && (s.verdict io p fileText).mergesNow
    | .snapshotting _ _ _ => true
    | _ => false
  | none => false


def WriteOk [DecidableEq H] (io : BridgeIO ι H) (s : NoteBridge ι H) : Action ι → Prop
  | .egestHashed => ∀ content ∈ s.comparing, s.lastWrittenHash ≠ some (io.sha256 content) →
      ¬s.Unmerged ∧ (s.MovesOn content → ¬s.NamesUnagreed)
  | .egestSavedAside _ => ∀ h ∈ s.saving, s.observedHash ≠ some h → ¬s.Unmerged
  | .ingestHashed | .ingestSnapshotted => s.entering io = true → ¬s.NamesUnagreed
  | .seedInserts i => ∀ fileText ∈ s.seeding i, text s.doc = [] → s.NamesUnagreed →
      s.unagreedHash = some (io.sha256 fileText)
  | .destroy => s.ingestPass.isNone = true ∨ s.egestPass.isNone = true
  | _ => True

instance [DecidableEq H] (io : BridgeIO ι H) (s : NoteBridge ι H) (a : Action ι) : Decidable (WriteOk io s a) := by
  apply @Action.casesOn ι (fun a => Decidable (WriteOk io s a)) a <;> intros <;> dsimp only [WriteOk] <;> infer_instance

namespace NoteBridge

variable {io : BridgeIO ι H} {s : NoteBridge ι H} {p : IngestPass ι H} {t : Text}

/-! ## The verdict on a read -/

theorem observedHash_observe [DecidableEq H] (s : NoteBridge ι H) (x : H) : (s.observe x).observedHash = some x := by
  obtain ⟨o, ho, heq⟩ := s.observe_eq x
  rw [heq]
  exact ho

theorem Books.seen [DecidableEq H] (h : Books io s) (x : H) (a : Account) : Books io ((s.observe x).account x a) := by
  rw [observe_account]
  exact (h.account x a).observe (accounted_account s x a)

theorem ingestPass_observe [DecidableEq H] (s : NoteBridge ι H) (x : H) : (s.observe x).ingestPass = s.ingestPass := by
  obtain ⟨o, -, heq⟩ := s.observe_eq x
  rw [heq]

theorem accounted_observe [DecidableEq H] (x y : H) (hy : s.Accounted y) : (s.observe x).Accounted y := by
  obtain ⟨o, -, heq⟩ := s.observe_eq x
  rw [heq]
  exact hy

variable {x : H}

/-- the read was an echo: it is accounted, or it is the file an open without a document found -/
theorem Books.echo [DecidableEq H] (h : Books io s) (hidle : s.waitingHash = none)
    (hecho : s.lastWrittenHash = some x ∨ s.pendingMergedFileHash = some x) (job : IngestJob ι) :
    Books io ((s.observe x).endIngest job) := by
  have hknown : s.Accounted x ∨ (s.unagreedHash = some x ∧ s.lastWrittenHash = some x) := by
    rcases hecho with hl | hp
    · exact (h.written x hl).imp id fun hu => ⟨hu, hl⟩
    · exact .inl (h.pending x hp)
  rcases hknown with hac | ⟨hu, hl⟩
  · refine (h.observe hac).endIngest ?_ job
    rw [waitingHash, ingestPass_observe]
    exact hidle
  · obtain ⟨o, ho, heq⟩ := s.observe_eq x
    rw [heq]
    obtain ⟨d, tm, hend⟩ := endIngest_eq { s with observed := o } job
    rw [hend]
    refine h.change (fun _ => .inl) (fun _ => .inl) (fun _ => .inl) ?_ (.inl rfl) ?_ ?_
      (fun _ => .inl) (fun _ => rfl) fun _ hx => hx
    · intro y hy
      have hyx : y = x := Option.some.inj (hy.symm.trans ho)
      exact .inr (.inl ⟨hyx ▸ hu, hyx ▸ hl, rfl⟩)
    · intro y hy
      simp [keptHash] at hy
    · exact fun e he => (h.egest e he).imp (.inl rfl) fun _ hx => hx

/-- the read enters the document, whatever was observed of it -/
theorem Books.applyRead (h : Books io s) (hp : s.ingestPass = some p) (hnames : ¬s.NamesUnagreed)
    {o : Option (H × Option (Doc ι UInt16))} (hobs : ∀ y, o.map Prod.fst = some y → s.Accounted y ∨ y = x)
    (r : Option Text) (diffs : List (Hunk UInt16)) :
    Books io (applyRead io { s with observed := o, refused := r } p t x diffs) := by
  have hkept : ∀ a : Account, ∀ y, s.Accounted y → ∃ b, (y, b) ∈ (x, a) :: s.accounts :=
    fun a y ⟨b, hb⟩ => ⟨b, .tail _ hb⟩
  have hnew : ∀ a : Account, ∀ y, some x = some y → ∃ b, (y, b) ∈ (x, a) :: s.accounts :=
    fun a y hy => ⟨a, by rw [Option.some.inj hy]; exact .head _⟩
  unfold NoteBridge.applyRead
  rw [if_neg (by rw [h.live hp]; decide)]
  split_ifs with hsame
  · obtain ⟨d, tm, hend⟩ := endIngest_eq
      ({ s with observed := o, refused := r, lastWrittenHash := some x }.account x .held) p.job
    rw [hend]
    refine h.change (fun y hy => .inr (hnew _ y hy)) (fun _ => .inl) (fun _ => .inl) ?_ (.inl rfl)
      ?_ ?_ (fun _ => .inl) (fun _ => rfl) (hkept _)
    · intro y hy
      rcases hobs y hy with hac | rfl
      · exact .inl (hkept _ y hac)
      · exact .inl (hnew _ y rfl)
    · intro y hy
      simp [keptHash] at hy
    · exact fun e he => (h.egest e he).imp (.inl rfl) (hkept _)
  · obtain ⟨d', clock, e', o', pm, v, tm', ho', hpm, hrep⟩ :=
      replayRead_eq { s with observed := o, refused := r } p t x io diffs
    rw [hrep]
    obtain ⟨d, tm, hend⟩ := endIngest_eq ({ s with
      doc := d', clock := clock, everHadContent := e', observed := o', refused := r, pendingMergedFileHash := pm
      egestDeferred := v, egestTimer := tm', unagreedFile := none, diskBase := some x }.account x .merged) p.job
    rw [hend]
    refine h.change (fun _ => .inl) ?_ (fun y hy => .inr (hnew _ y hy)) ?_ (.inr ⟨rfl, ?_⟩) ?_ ?_
      (fun _ => .inl) (fun _ => rfl) (hkept _)
    · intro y hy
      rcases hpm with hpm | hpm
      · exact .inl (hpm ▸ hy)
      · exact .inr (hnew _ y (hpm ▸ hy))
    · exact fun y hy => .inl (hnew _ y (ho' ▸ hy))
    · exact fun y hu hl => absurd ⟨y, hu, hl⟩ hnames
    · intro y hy
      simp [keptHash] at hy
    · exact fun e he => (h.egest e he).imp (.inr rfl) (hkept _)

/-- the pass has its read judged -/
theorem Books.judged [DecidableEq H] (h : Books io s) (hp : s.ingestPass = some p) (hphase : p.phase = .hashing t)
    (hnames : s.entering io = true → ¬s.NamesUnagreed) : Books io (judged io s p t) := by
  have hidle : s.waitingHash = none := by simp [waitingHash, hp, hphase, IngestPhase.waiting]
  have hobs : ∀ a, ∀ y, ((s.observe (io.sha256 t)).account (io.sha256 t) a).observedHash = some y →
      ((s.observe (io.sha256 t)).account (io.sha256 t) a).Accounted y := by
    intro a y hy
    have hyx : y = io.sha256 t := Option.some.inj (hy.symm.trans (observedHash_observe s (io.sha256 t)))
    rw [hyx]
    exact accounted_account _ _ _
  have hwait : ∀ a, ((s.observe (io.sha256 t)).account (io.sha256 t) a).waitingHash = none := by
    intro a
    have hpass : ((s.observe (io.sha256 t)).account (io.sha256 t) a).ingestPass = s.ingestPass :=
      ingestPass_observe s (io.sha256 t)
    rw [waitingHash, hpass]
    exact hidle
  have hrefuse : Books io ((s.observe (io.sha256 t)).refuse p t (io.sha256 t)) := by
    have hrec : Books io { (s.observe (io.sha256 t)).account (io.sha256 t) .refused with refused := some t } :=
      (h.seen (io.sha256 t) .refused).frame rfl rfl rfl rfl rfl rfl rfl (fun _ ht => ht)
        (h.seen (io.sha256 t) .refused).alive rfl
    exact hrec.endIngest (hwait .refused) p.job
  unfold NoteBridge.judged
  dsimp only
  split_ifs with hover
  · exact hrefuse
  · have hentering : s.entering io = (s.verdict io p t).mergesNow := by
      unfold NoteBridge.entering
      rw [hp]
      dsimp only
      rw [hphase]
      dsimp only
      rw [Bool.eq_false_of_not_eq_true hover]
      rfl
    rw [hentering] at hnames
    cases hv : s.verdict io p t with
    | echo => exact h.echo hidle (judge_echo hv) p.job
    | converged =>
      refine (h.agrees (io.sha256 t) .held (some s.doc)).endIngest ?_ p.job
      exact hidle
    | behindDiskBase =>
      have hac := h.base _ (judge_behindDiskBase hv)
      refine (h.observe hac).writeOut ?_ p (accounted_observe _ _ hac)
      intro y hy
      rw [observedHash_observe] at hy
      rw [← Option.some.inj hy]
      exact accounted_observe _ _ hac
    | behindBaseline moved =>
      cases moved with
      | true => exact (h.seen (io.sha256 t) .held).writeOut (hobs _) p (accounted_account _ _ _)
      | false => exact (h.seen (io.sha256 t) .held).endIngest (hwait .held) p.job
    | blank | readOnlyEmpty | unseeded => exact hrefuse
    | readOnly =>
      have hseen := h.seen (io.sha256 t) .refused
      refine hseen.change (fun _ => .inl) (fun _ => .inl) (fun _ => .inl) ?_ (.inl rfl) ?_ ?_
        (fun _ => .inl) ?_ fun _ hx => hx
      · exact fun y hy => .inl (hobs .refused y hy)
      · intro y hy
        rw [← Option.some.inj hy]
        exact .inr (accounted_account _ _ _)
      · exact fun e he => (hseen.egest e he).imp (.inl rfl) fun _ hx => hx
      · intro hd
        have hnone := hseen.alive hd
        have hpass : ((s.observe (io.sha256 t)).account (io.sha256 t) .refused).ingestPass = some p :=
          (ingestPass_observe s (io.sha256 t)).trans hp
        rw [hpass] at hnone
        cases hnone
    | nothingOwn => exact (h.seen (io.sha256 t) .merged).writeOut (hobs _) p (accounted_account _ _ _)
    | merge diffs large =>
      cases large with
      | false =>
        obtain ⟨o, ho, heq⟩ := s.observe_eq (io.sha256 t)
        rw [heq]
        refine h.applyRead hp (hnames (by rw [hv]; rfl)) (fun y hy => .inr ?_) none diffs
        exact Option.some.inj (hy.symm.trans ho)
      | true =>
        obtain ⟨o, ho, heq⟩ := s.observe_eq (io.sha256 t)
        rw [heq]
        refine h.change (fun _ => .inl) (fun _ => .inl) (fun _ => .inl) ?_ (.inl rfl) ?_ ?_
          (fun _ => .inl) ?_ fun _ hx => hx
        · exact fun y hy => .inr (.inr (ho.symm.trans hy))
        · intro y hy
          simp [keptHash, setPhase, IngestPhase.kept] at hy
        · exact fun e he => (h.egest e he).imp (.inl rfl) fun _ hx => hx
        · intro hd
          have hlive := h.live hp
          exact absurd (hlive.symm.trans hd) (by decide)

/-! ## An egest pass -/

theorem mem_accounts_cons {y : H} (a : Account) (h : s.Accounted y) : ∃ b, (y, b) ∈ (x, a) :: s.accounts :=
  h.imp fun _ hb => .tail _ hb

/-- the egest ends, or moves to a phase that carries no hash -/
theorem Books.setEgest (h : Books io s) (e : Option (EgestPass ι H)) (he : ∀ x, e = some x → s.EgestBooks x.phase) :
    Books io { s with egestPass := e } :=
  h.change (fun _ => .inl) (fun _ => .inl) (fun _ => .inl) h.observed (.inl rfl)
    (fun _ => .inl) (fun x hx => (he x hx).imp (.inl rfl) fun _ hy => hy) (fun _ => .inl) h.alive
    fun _ hx => hx

theorem Books.endEgest (h : Books io s) : Books io s.endEgest := h.setEgest none fun _ hx => by simp at hx

/-- the expected hash is that of accounted bytes -/
theorem Books.takesExpected (h : Books io s) (hun : s.unagreedFile = none)
    (hobs : ∀ y, s.observedHash = some y → s.Accounted y) (e : EgestPass ι H) (hash : H) :
    Books io (s.takesExpected e hash) := by
  refine h.setEgest _ ?_
  rintro x hx
  cases hx
  exact ⟨hun, hobs⟩

/-- with no pass waiting on them, the bytes last seen are accounted or those of the unagreed file -/
theorem Books.observed_or (h : Books io s) (hmerged : ¬s.Unmerged) {y : H} (hy : s.observedHash = some y) :
    s.Accounted y ∨ (s.unagreedHash = some y ∧ s.lastWrittenHash = some y) := by
  rcases h.observed y hy with hac | ⟨hu, hl, -⟩ | hw
  · exact .inl hac
  · exact .inr ⟨hu, hl⟩
  · exact absurd ⟨y, hw, hy⟩ hmerged

/-- the unagreed file is forgotten for an account of its bytes -/
theorem Books.settles (h : Books io s) (hx : ∀ y, s.unagreedHash = some y → s.lastWrittenHash = some y → y = x)
    (a : Account) : Books io ({ s with unagreedFile := none }.account x a) := by
  have hnew : ∀ y, y = x → ∃ b, (y, b) ∈ (x, a) :: s.accounts := fun y hy => ⟨a, hy ▸ .head _⟩
  refine h.change (fun _ => .inl) (fun _ => .inl) (fun _ => .inl) ?_ (.inr ⟨rfl, ?_⟩)
    (fun _ => .inl) ?_ (fun _ => .inl) h.alive fun _ hy => mem_accounts_cons a hy
  · intro y hy
    rcases h.observed y hy with hac | ⟨hu, hl, -⟩ | hw
    · exact .inl (mem_accounts_cons a hac)
    · exact .inl (hnew y (hx y hu hl))
    · exact .inr (.inr hw)
  · exact fun y hu hl => hnew y (hx y hu hl)
  · exact fun e he => (h.egest e he).imp (.inr rfl) fun _ hy => mem_accounts_cons a hy

theorem Books.comparesHash [DecidableEq H] (h : Books io s) (e : EgestPass ι H)
    (hok : s.lastWrittenHash ≠ some (io.sha256 e.content) →
      ¬s.Unmerged ∧ (s.MovesOn e.content → ¬s.NamesUnagreed)) :
    Books io (s.comparesHash e (io.sha256 e.content)) := by
  unfold NoteBridge.comparesHash
  split_ifs with hl
  · refine (h.settles ?_ .held).endEgest
    exact fun y _ hy => Option.some.inj (hy.symm.trans hl)
  · obtain ⟨hmerged, hmoves⟩ := hok hl
    split
    · next hun =>
      refine h.takesExpected hun ?_ e _
      intro y hy
      refine (h.observed_or hmerged hy).resolve_right ?_
      rintro ⟨hu, -⟩
      rw [unagreedHash, hun] at hu
      cases hu
    · next u hun =>
      have hunhash : ∀ y, s.unagreedHash = some y → y = u.2 := fun y hy => by
        rw [unagreedHash, hun] at hy
        exact (Option.some.inj hy).symm
      split_ifs with hsame hobs
      · refine (h.settles (fun y hu _ => hunhash y hu) .held).takesExpected rfl ?_ e _
        intro y hy
        rcases h.observed_or hmerged hy with hac | ⟨hu, -⟩
        · exact mem_accounts_cons _ hac
        · rw [hunhash y hu]
          exact accounted_account _ _ _
      · refine h.setEgest _ ?_
        rintro x hx
        cases hx
        exact .inl hun
      · have hnames := hmoves ⟨u, hun, hsame, hobs⟩
        have hdrop : Books io { s with unagreedFile := none } := by
          refine h.change (fun _ => .inl) (fun _ => .inl) (fun _ => .inl) ?_ (.inr ⟨rfl, ?_⟩)
            (fun _ => .inl) (fun e he => (h.egest e he).imp (.inr rfl) fun _ hy => hy)
            (fun _ => .inl) h.alive fun _ hy => hy
          · intro y hy
            exact .inl ((h.observed_or hmerged hy).resolve_right fun ⟨hu, hw⟩ => hnames ⟨y, hu, hw⟩)
          · exact fun y hu hw => absurd ⟨y, hu, hw⟩ hnames
        refine hdrop.takesExpected rfl ?_ e _
        intro y hy
        exact (h.observed_or hmerged hy).resolve_right fun ⟨hu, hw⟩ => hnames ⟨y, hu, hw⟩

theorem Books.egestHashed [DecidableEq H] (h : Books io s) (hok : WriteOk io s .egestHashed) : Books io (s.egestHashed io) := by
  unfold NoteBridge.egestHashed
  split
  · next e he =>
    split
    · next hphase =>
      refine h.comparesHash e (hok e.content ?_)
      simp only [comparing, he]
      obtain ⟨content, phase⟩ := e
      subst hphase
      rfl
    · exact h
  · exact h

theorem Books.egestSavedAside [DecidableEq H] (h : Books io s) {saved : Bool} (hok : WriteOk io s (.egestSavedAside saved)) :
    Books io (s.egestSavedAside saved) := by
  unfold NoteBridge.egestSavedAside
  split
  · next e he =>
    split
    · next u hash hphase =>
      have hkept : s.unagreedFile = some u ∨ s.unagreedFile = none := by
        have hbooks := h.egest e he
        rw [hphase] at hbooks
        exact hbooks
      have hnone : (if s.unagreedFile = some u then none else s.unagreedFile) = none := by
        split_ifs with hsame
        · rfl
        · exact hkept.resolve_left hsame
      have hunhash : ∀ y, s.unagreedHash = some y → y = u.2 := by
        intro y hy
        rcases hkept with hu | hu
        · rw [unagreedHash, hu] at hy
          exact (Option.some.inj hy).symm
        · rw [unagreedHash, hu] at hy
          cases hy
      have hsettled := h.settles (fun y hy _ => hunhash y hy) .savedAside
      dsimp only
      rw [hnone]
      split_ifs with hsaved hstop
      · exact hsettled.endEgest
      · refine hsettled.takesExpected rfl ?_ e hash
        intro y hy
        by_cases hyu : y = u.2
        · rw [hyu]
          exact accounted_account _ _ _
        · have hmerged : ¬s.Unmerged := by
            refine hok u.2 ?_ fun hobs => hyu (Option.some.inj (hy.symm.trans hobs))
            obtain ⟨content, phase⟩ := e
            subst hphase
            simp [saving, he]
          rcases h.observed_or hmerged hy with hac | ⟨hu, -⟩
          · exact mem_accounts_cons _ hac
          · exact absurd (hunhash y hu) hyu
      · exact h.endEgest
    · exact h
  · exact h

theorem Books.egestStarts (h : Books io s) : Books io s.egestStarts := by
  unfold NoteBridge.egestStarts
  split
  · exact h
  · split_ifs
    · exact h
    · exact h.frame rfl rfl rfl rfl rfl rfl rfl (fun _ ht => ht) h.alive rfl
    · refine (h.setEgest (some ⟨text s.doc, s.firstPhase⟩) ?_).frame rfl rfl rfl rfl rfl rfl rfl (fun _ ht => ht) h.alive rfl
      rintro x hx
      cases hx
      unfold firstPhase
      split_ifs <;> trivial

theorem Books.egestChecks (h : Books io s) (ok : Bool) : Books io (s.egestChecks ok) := by
  unfold NoteBridge.egestChecks
  split
  · split
    · split
      · exact h.endEgest.frame rfl rfl rfl rfl rfl rfl rfl (fun _ ht => ht) h.alive rfl
      · refine h.setEgest _ ?_
        rintro x hx
        cases hx
        trivial
    · exact h
  · exact h

/-- **The write.** Whether it goes through or is refused as stale, the books hold after it. -/
theorem Books.egestWrites [DecidableEq H] (h : Books io s) : Books io (s.egestWrites io) := by
  unfold NoteBridge.egestWrites
  split
  · next e he =>
    split
    · next hash expected st hphase =>
      have hbooks := h.egest e he
      rw [hphase] at hbooks
      split_ifs with hmatch
      · have hacc := (h.account hash .written).setEgest (some { e with phase := .answering hash st false }) ?_
        · exact hacc.frame rfl rfl rfl rfl rfl rfl rfl (fun _ ht => ht) h.alive rfl
        · rintro x hx
          cases hx
          exact ⟨hbooks.1, fun _ => accounted_account _ _ _⟩
      · refine h.setEgest _ ?_
        rintro x hx
        cases hx
        exact ⟨hbooks.1, fun hfalse => absurd hfalse (by decide)⟩
    · exact h
  · exact h

theorem Books.egestWriteFails (h : Books io s) : Books io s.egestWriteFails := by
  unfold NoteBridge.egestWriteFails
  split
  · split
    · unfold scheduleEgestRetry
      split_ifs
      · exact h.endEgest
      · exact h.endEgest.frame rfl rfl rfl rfl rfl rfl rfl (fun _ ht => ht) h.alive rfl
    · exact h
  · exact h

theorem Books.egestAnswered (h : Books io s) : Books io s.egestAnswered := by
  unfold NoteBridge.egestAnswered
  split
  · next e he =>
    split
    · next hash st stale hphase =>
      have hbooks := h.egest e he
      rw [hphase] at hbooks
      have hend := h.endEgest
      split_ifs with hstale hsame
      · obtain ⟨l, dirty, it, q, -, hl, heq⟩ := s.endEgest.mergeStaleFile_eq
        rw [heq]
        refine hend.change ?_ (fun _ => .inl) (fun _ => .inl) ?_ (.inl rfl) (fun _ => .inl)
          (fun x hx => by simp [NoteBridge.endEgest] at hx) (fun _ => .inl) h.alive fun _ hx => hx
        · intro y hy
          rcases hl with hl | hl
          · rw [hl] at hy
            cases hy
          · exact .inl (hl ▸ hy)
        · intro y hy
          rcases h.observed y hy with hac | ⟨hu, -⟩ | hw
          · exact .inl hac
          · rw [unagreedHash, hbooks.1] at hu
            cases hu
          · exact .inr (.inr hw)
      all_goals
        have hac := hbooks.2 (Bool.eq_false_of_not_eq_true hstale)
        have hnew : ∀ y, some hash = some y → s.Accounted y := fun y hy => Option.some.inj hy ▸ hac
        refine hend.change (fun y hy => .inr (hnew y hy)) ?_ (fun y hy => .inr (hnew y hy))
          (fun y hy => .inl (hnew y hy)) (.inl rfl) (fun _ => .inl)
          (fun x hx => by simp [NoteBridge.endEgest] at hx) (fun _ => .inl) h.alive fun _ hx => hx
        intro y hy
      · simp [NoteBridge.endEgest, observeState] at hy
      · exact .inl hy
    · exact h
  · exact h

/-! ## Seeds -/

theorem Books.setSeed (h : Books io s) (i : ℕ) (phase : SeedPhase) (hphase : ∀ t, phase ≠ .hashing t) :
    Books io { s with seeds := s.seeds.set i phase } := by
  refine h.frame rfl rfl rfl rfl rfl rfl rfl ?_ h.alive rfl
  intro t ht
  rcases List.mem_or_eq_of_mem_set ht with hold | hnew
  · exact hold
  · exact absurd hnew.symm (hphase t)

theorem Books.seedReads (h : Books io s) (i : ℕ) (ok : Bool) : Books io (s.seedReads i ok) := by
  unfold NoteBridge.seedReads
  split_ifs
  · split
    · exact h.setSeed i _ fun _ => by simp
    · exact h.setSeed i _ fun _ => by simp
  · exact h

theorem Books.seedInserts [DecidableEq H] (h : Books io s) (i : ℕ) (hok : WriteOk io s (.seedInserts i)) : Books io (s.seedInserts io i) := by
  unfold NoteBridge.seedInserts
  split
  · next t hseed =>
    have hcap := h.capture
    have hun : s.capture.unagreedFile = s.unagreedFile ∧ s.capture.toHashes = s.toHashes := by
      rcases s.capture_eq with heq | ⟨p, -, -, -, heq⟩
      · rw [heq]; exact ⟨rfl, rfl⟩
      · rw [heq]; exact ⟨rfl, rfl⟩
    split_ifs with hempty
    · have hsettled := hcap.settles (x := io.sha256 t) ?_ .merged
      · refine hsettled.change (fun _ => .inl) (fun _ => .inl) (fun _ => .inl) hsettled.observed
          (.inl rfl) (fun _ => .inl) (fun e he => (hsettled.egest e he).imp (.inl rfl) fun _ hx => hx) ?_
          hsettled.alive fun _ hx => hx
        intro t' ht'
        rcases List.mem_or_eq_of_mem_set ht' with hold | hnew
        · refine .inl ?_
          rcases s.capture_eq with heq | ⟨p, -, -, -, heq⟩
          · rw [heq]; exact hold
          · rw [heq]; exact hold
        · refine .inr ?_
          rw [SeedPhase.hashing.inj hnew]
          exact accounted_account _ _ _
      · intro y hu hl
        rw [unagreedHash, hun.1] at hu
        rw [hun.2] at hl
        have hseen := hok t (by simp [seeding, hseed]) hempty ⟨y, hu, hl⟩
        exact Option.some.inj (hu.symm.trans hseen)
    · refine hcap.frame rfl rfl rfl rfl rfl rfl rfl ?_ hcap.alive rfl
      intro t' ht'
      rcases List.mem_or_eq_of_mem_set ht' with hold | hnew
      · rcases s.capture_eq with heq | ⟨p, -, -, -, heq⟩
        · rw [heq]; exact hold
        · rw [heq]; exact hold
      · cases hnew
  · exact h

theorem Books.seedHashed (h : Books io s) (i : ℕ) : Books io (s.seedHashed io i) := by
  unfold NoteBridge.seedHashed
  split
  · next t hseed =>
    have hac : s.Accounted (io.sha256 t) := h.seeds t (List.mem_of_getElem? hseed)
    have hnew : ∀ y, some (io.sha256 t) = some y → s.Accounted y := fun y hy => Option.some.inj hy ▸ hac
    refine h.change (fun y hy => .inr (hnew y hy)) (fun _ => .inl) (fun y hy => .inr (hnew y hy))
      (fun y hy => .inl (hnew y hy)) (.inl rfl) (fun _ => .inl)
      (fun e he => (h.egest e he).imp (.inl rfl) fun _ hx => hx) ?_ h.alive fun _ hx => hx
    intro t' ht'
    rcases List.mem_or_eq_of_mem_set ht' with hold | hdone
    · exact .inl hold
    · cases hdone
  · exact h

/-! ## The other steps -/

theorem waitingHash_of_phase {p : IngestPass ι H} (hp : s.ingestPass = some p) (hphase : p.phase.waiting = none) :
    s.waitingHash = none := by
  rw [waitingHash, hp]
  exact hphase

theorem Books.ingestStarts (h : Books io s) : Books io s.ingestStarts := by
  unfold NoteBridge.ingestStarts
  split
  · next job rest hpass hqueue =>
    have hidle : s.waitingHash = none := by rw [waitingHash, hpass]; rfl
    split_ifs with hskip
    · have hdrop : Books io { s with ingestQueue := rest } :=
        h.frame rfl rfl rfl rfl rfl rfl rfl (fun _ ht => ht) h.alive rfl
      exact hdrop.endIngest hidle job
    · have hlive : s.destroyed = false := by
        simp only [Bool.or_eq_true, not_or, Bool.not_eq_true] at hskip
        exact hskip.1
      refine h.frame rfl rfl rfl hidle.symm ?_ ?_ rfl (fun _ ht => ht) ?_ rfl
      · rw [keptHash, keptHash, hpass]; rfl
      · rw [holds, holds, hpass]; rfl
      · exact fun hd => absurd (hlive.symm.trans hd) (by decide)
  · exact h

theorem Books.ingestReads (h : Books io s) (ok : Bool) : Books io (s.ingestReads ok) := by
  unfold NoteBridge.ingestReads
  split
  · next p hp =>
    split
    · next hphase =>
      have hidle : s.waitingHash = none := waitingHash_of_phase hp (by rw [hphase]; rfl)
      split
      · refine h.frame rfl rfl rfl hidle.symm ?_ ?_ rfl (fun _ ht => ht) ?_ rfl
        · rw [keptHash, keptHash, hp, Option.bind_some, hphase]; rfl
        · rw [holds, holds, hp, Option.any_some, hphase]; rfl
        · exact fun hd => absurd ((h.live hp).symm.trans hd) (by decide)
      · have hforget : Books io { s with observed := none } :=
          h.change (fun _ => .inl) (fun _ => .inl) (fun _ => .inl)
            (fun y hy => by simp [observedHash] at hy) (.inl rfl) (fun _ => .inl)
            (fun e he => (h.egest e he).imp (.inl rfl) fun _ hx => hx) (fun _ => .inl) h.alive fun _ hx => hx
        exact hforget.endIngest hidle p.job
    · exact h
  · exact h

theorem Books.ingestHashed [DecidableEq H] (h : Books io s) (hok : WriteOk io s .ingestHashed) : Books io (s.ingestHashed io) := by
  unfold NoteBridge.ingestHashed
  split
  · next p hp =>
    split
    · next t hphase => exact h.judged hp hphase hok
    · exact h
  · exact h

theorem Books.ingestKept (h : Books io s) (kept : Bool) : Books io (s.ingestKept kept) := by
  unfold NoteBridge.ingestKept
  split
  · next p hp =>
    split
    · next t x hphase =>
      have hidle : s.waitingHash = none := waitingHash_of_phase hp (by rw [hphase]; rfl)
      split_ifs with hlost hd
      · exact h.endIngest hidle p.job
      · exact (h.account x .savedAside).endIngest hidle p.job
      · refine (h.account x .savedAside).writeOut ?_ p (accounted_account _ _ _)
        intro y hy
        rcases h.observed y hy with hy' | ⟨-, -, hholds⟩ | hw
        · exact mem_accounts_cons _ hy'
        · rw [holds, hp, Option.any_some, hphase] at hholds
          simp [IngestPhase.holds] at hholds
        · rw [hidle] at hw
          cases hw
    · exact h
  · exact h

theorem Books.ingestSnapshotted [DecidableEq H] (h : Books io s) (hok : WriteOk io s .ingestSnapshotted) :
    Books io (s.ingestSnapshotted io) := by
  unfold NoteBridge.ingestSnapshotted
  split
  · next p hp =>
    split
    · next t x diffs hphase =>
      refine h.applyRead (o := s.observed) (r := s.refused) hp (hok ?_) ?_ diffs
      · unfold entering
        rw [hp]
        dsimp only
        rw [hphase]
      · intro y hy
        rcases h.observed y hy with hac | ⟨-, -, hholds⟩ | hw
        · exact .inl hac
        · rw [holds, hp, Option.any_some, hphase] at hholds
          simp [IngestPhase.holds] at hholds
        · rw [waitingHash, hp, Option.bind_some, hphase] at hw
          exact .inr (Option.some.inj hw).symm
    · exact h
  · exact h

theorem Books.edit (h : Books io s) (d : Doc ι UInt16) : Books io (s.edit d) := by
  rcases s.edit_eq d with heq | ⟨e, v, t, heq⟩
  · rw [heq]; exact h
  · rw [heq]
    exact h.capture.frame rfl rfl rfl rfl rfl rfl rfl (fun _ ht => ht) h.capture.alive rfl

theorem Books.step [DecidableEq H] (h : Books io s) (a : Action ι) (hok : WriteOk io s a) (ha : a ≠ .destroy) :
    Books io (step io s a) := by
  cases a with
  | edit d => exact h.edit d
  | external t | markReadOnly value => exact h.frame rfl rfl rfl rfl rfl rfl rfl (fun _ ht => ht) h.alive rfl
  | watcherEvent =>
    obtain ⟨d, t, heq⟩ := ingest_eq { s with event := false }
    simp only [Bridge.step]
    rw [heq]
    exact h.frame rfl rfl rfl rfl rfl rfl rfl (fun _ ht => ht) h.alive rfl
  | ingestTimerFires | egestTimerFires =>
    simp only [Bridge.step]
    split_ifs
    · exact h.frame rfl rfl rfl rfl rfl rfl rfl (fun _ ht => ht) h.alive rfl
    · exact h
  | ingestNow =>
    obtain ⟨pre, dirty, it, q, heq⟩ := s.ingestNow_eq
    simp only [Bridge.step]
    rw [heq]
    exact h.frame rfl rfl rfl rfl rfl rfl rfl (fun _ ht => ht) h.alive rfl
  | ingestStarts => exact h.ingestStarts
  | ingestReads ok => exact h.ingestReads ok
  | ingestHashed => exact h.ingestHashed hok
  | ingestKept kept => exact h.ingestKept kept
  | ingestSnapshotted => exact h.ingestSnapshotted hok
  | egestStarts => exact h.egestStarts
  | egestChecks ok => exact h.egestChecks ok
  | egestHashed => exact h.egestHashed hok
  | egestSavedAside saved => exact h.egestSavedAside hok
  | egestWrites => exact h.egestWrites
  | egestWriteFails => exact h.egestWriteFails
  | egestAnswered => exact h.egestAnswered
  | beginPull =>
    obtain ⟨pre, dirty, it, et, d, heq⟩ := s.beginPull_eq
    simp only [Bridge.step]
    rw [heq]
    exact h.frame rfl rfl rfl rfl rfl rfl rfl (fun _ ht => ht) h.alive rfl
  | reconcileAfterPull =>
    obtain ⟨pre, dirty, it, q, heq⟩ := s.reconcileAfterPull_eq
    simp only [Bridge.step]
    rw [heq]
    exact h.frame rfl rfl rfl rfl rfl rfl rfl (fun _ ht => ht) h.alive rfl
  | seedStarts =>
    simp only [Bridge.step, NoteBridge.seedStarts]
    split_ifs
    · exact h
    · exact h.frame rfl rfl rfl rfl rfl rfl rfl (fun _ ht => by simpa using ht) h.alive rfl
  | seedReads i ok => exact h.seedReads i ok
  | seedInserts i => exact h.seedInserts i hok
  | seedHashed i => exact h.seedHashed i
  | destroy => exact absurd rfl ha

/-! ## Runs -/

/-- a destroyed bridge with no egest under way writes nothing more -/
def Closed (s : NoteBridge ι H) : Prop := s.destroyed = true ∧ s.egestPass = none

theorem Closed.endIngest (h : s.Closed) (job : IngestJob ι) : (s.endIngest job).Closed := by
  obtain ⟨d, t, heq⟩ := s.endIngest_eq job
  rw [heq]
  exact h

theorem Closed.writeOut (h : s.Closed) (p : IngestPass ι H) (x : H) : (s.writeOut p x).Closed := by
  obtain ⟨d, t, heq⟩ := s.writeOut_eq p x
  rw [heq]
  exact h

theorem Closed.capture (h : s.Closed) : s.capture.Closed := by
  rcases s.capture_eq with heq | ⟨p, -, -, -, heq⟩
  · rw [heq]; exact h
  · rw [heq]; exact h

theorem Closed.applyRead (h : s.Closed) (p : IngestPass ι H) (t : Text) (x : H) (diffs : List (Hunk UInt16)) :
    (applyRead io s p t x diffs).Closed := by
  unfold NoteBridge.applyRead
  rw [if_pos h.1]
  exact h.endIngest p.job

theorem Closed.judged [DecidableEq H] (h : s.Closed) (p : IngestPass ι H) (t : Text) : (judged io s p t).Closed := by
  have hobs : (s.observe (io.sha256 t)).Closed := by
    obtain ⟨o, -, heq⟩ := s.observe_eq (io.sha256 t)
    rw [heq]
    exact h
  have hrefuse : ((s.observe (io.sha256 t)).refuse p t (io.sha256 t)).Closed := by
    obtain ⟨d, tm, heq⟩ := (s.observe (io.sha256 t)).refuse_eq p t (io.sha256 t)
    rw [heq]
    exact hobs
  unfold NoteBridge.judged
  split_ifs
  · exact hrefuse
  · split
    · exact hobs.endIngest p.job
    · exact Closed.endIngest (s := (({ s with
        lastWrittenHash := some (io.sha256 t), diskBase := some (io.sha256 t), refused := none }.observeState _ _).account
          _ _)) h p.job
    · exact hobs.writeOut p _
    · exact Closed.writeOut (s := (s.observe (io.sha256 t)).account _ _) hobs p _
    · exact Closed.endIngest (s := (s.observe (io.sha256 t)).account _ _) hobs p.job
    · exact hrefuse
    · exact hrefuse
    · exact hrefuse
    · exact hobs
    · exact Closed.writeOut (s := (s.observe (io.sha256 t)).account _ _) hobs p _
    · split_ifs
      · exact hobs
      · exact Closed.applyRead (s := { s.observe (io.sha256 t) with refused := none }) hobs p t _ _

theorem Closed.step [DecidableEq H] (h : s.Closed) (a : Action ι) : (step io s a).Closed := by
  cases a with
  | edit _ | watcherEvent | ingestNow | destroy =>
    simp only [Bridge.step, NoteBridge.edit, NoteBridge.ingest, NoteBridge.ingestNow, NoteBridge.destroy, if_pos h.1]
    exact h
  | external t | markReadOnly value => exact h
  | ingestTimerFires | egestTimerFires =>
    simp only [Bridge.step]
    split_ifs
    · exact h
    · exact h
  | ingestStarts =>
    simp only [Bridge.step, NoteBridge.ingestStarts]
    split
    · next job rest hpass hqueue =>
      split_ifs
      · exact Closed.endIngest (s := { s with ingestQueue := rest }) h job
      · exact h
    · exact h
  | ingestReads ok =>
    simp only [Bridge.step, NoteBridge.ingestReads]
    split
    · split
      · split
        · exact h
        · exact Closed.endIngest (s := { s with observed := none }) h _
      · exact h
    · exact h
  | ingestHashed =>
    simp only [Bridge.step, NoteBridge.ingestHashed]
    split
    · split
      · exact h.judged _ _
      · exact h
    · exact h
  | ingestKept kept =>
    simp only [Bridge.step, NoteBridge.ingestKept]
    split
    · split
      · split_ifs
        · exact h.endIngest _
        · exact Closed.endIngest (s := s.account _ _) h _
        · exact Closed.writeOut (s := s.account _ _) h _ _
      · exact h
    · exact h
  | ingestSnapshotted =>
    simp only [Bridge.step, NoteBridge.ingestSnapshotted]
    split
    · split
      · exact h.applyRead _ _ _ _
      · exact h
    · exact h
  | egestStarts =>
    simp only [Bridge.step, NoteBridge.egestStarts]
    split
    · exact h
    · split_ifs
      · exact h
      · exact h
      · next hd => exact absurd h.1 hd
  | egestChecks _ | egestHashed | egestSavedAside _ | egestWrites | egestWriteFails | egestAnswered =>
    simp only [Bridge.step, NoteBridge.egestChecks, NoteBridge.egestHashed, NoteBridge.egestSavedAside,
      NoteBridge.egestWrites, NoteBridge.egestWriteFails, NoteBridge.egestAnswered]
    split
    · next e he => exact absurd (h.2.symm.trans he) (by simp)
    · exact h
  | beginPull | seedStarts =>
    simp only [Bridge.step, NoteBridge.beginPull, NoteBridge.seedStarts, if_pos (Or.inl h.1)]
    exact h
  | reconcileAfterPull =>
    obtain ⟨pre, dirty, it, q, heq⟩ := s.reconcileAfterPull_eq
    simp only [Bridge.step]
    rw [heq]
    exact h
  | seedReads i ok =>
    simp only [Bridge.step, NoteBridge.seedReads]
    split_ifs
    · split
      · exact h
      · exact h
    · exact h
  | seedInserts i =>
    simp only [Bridge.step, NoteBridge.seedInserts]
    split
    · split_ifs
      · exact h.capture
      · exact h.capture
    · exact h
  | seedHashed i =>
    simp only [Bridge.step, NoteBridge.seedHashed]
    split
    · exact h
    · exact h

/-- the hash a write under way carries -/
def carried (s : NoteBridge ι H) : Option H := match s.egestPass with
  | some ⟨_, .writing _ expected _⟩ => expected
  | _ => none

/-- the write under way carries the hash of the bytes it would replace -/
def Replaces (io : BridgeIO ι H) (s : NoteBridge ι H) (h : H) : Prop := s.carried = some h ∧ s.fileHash io = h

instance [DecidableEq H] (io : BridgeIO ι H) (s : NoteBridge ι H) (h : H) : Decidable (s.Replaces io h) :=
  inferInstanceAs (Decidable (_ ∧ _))

/-- the bridge is about to be told that the file moved on -/
def ToldStale (s : NoteBridge ι H) : Prop :=
  s.destroyed = false ∧ ∃ content hash st, s.egestPass = some ⟨content, .answering hash st true⟩

/-- what a compare-and-swap may do, and what a stale one leads to -/
structure WritesSafe (io : BridgeIO ι H) [DecidableEq H] (s : NoteBridge ι H) : Prop where
  accounted : ∀ h, s.Replaces io h → s.Accounted h
  rereads : s.ToldStale → (Bridge.step io s .egestAnswered).ingestDirty = true ∧
    ∃ job, (Bridge.step io s .egestAnswered).ingestQueue = s.ingestQueue ++ [job]

def WritesInv (io : BridgeIO ι H) (s : NoteBridge ι H) : Prop := s.Closed ∨ Books io s

theorem WritesInv.step [DecidableEq H] (h : WritesInv io s) (a : Action ι) (hok : WriteOk io s a) :
    WritesInv io (Bridge.step io s a) := by
  rcases h with hclosed | hbooks
  · exact .inl (hclosed.step a)
  · by_cases ha : a = .destroy
    · subst ha
      simp only [Bridge.step, NoteBridge.destroy]
      split_ifs with hd
      · exact .inr hbooks
      · rcases hok with hpass | hegest
        · exact .inr (hbooks.frame rfl rfl rfl rfl rfl rfl rfl (fun _ ht => ht)
            (fun _ => Option.isNone_iff_eq_none.mp hpass) rfl)
        · exact .inl ⟨rfl, Option.isNone_iff_eq_none.mp hegest⟩
    · exact .inr (hbooks.step a hok ha)

theorem WritesInv.safe [DecidableEq H] (h : WritesInv io s) : WritesSafe io s where
  accounted x := by
    rintro ⟨hcarried, -⟩
    unfold carried at hcarried
    split at hcarried
    · next content hash expected st he =>
      rcases h with hclosed | hbooks
      · exact absurd (hclosed.2.symm.trans he) (by simp)
      · exact (hbooks.egest _ he).2 x hcarried
    · cases hcarried
  rereads := by
    rintro ⟨hlive, content, hash, st, he⟩
    have hstep : Bridge.step io s .egestAnswered = s.endEgest.mergeStaleFile := by
      simp only [Bridge.step, NoteBridge.egestAnswered, he, if_true]
    rw [hstep, mergeStaleFile, if_neg (by rw [endEgest, hlive]; decide)]
    exact ⟨rfl, _, rfl⟩

/-! ### Opening -/

theorem accounted_synced {b : Option H} (hx : b = some x) : ∃ a, (x, a) ∈ (b.map (·, Account.synced)).toList :=
  ⟨.synced, by simp [hx]⟩

/-- a bridge just opened, with every hash it knows on the books -/
theorem Books.opened (hp : s.pendingMergedFileHash = none) (hpass : s.ingestPass = none) (hegest : s.egestPass = none)
    (hseeds : s.seeds = []) (hlw : ∀ h, s.lastWrittenHash = some h → s.Accounted h ∨ s.unagreedHash = some h)
    (hbase : ∀ h, s.diskBase = some h → s.Accounted h)
    (hobs : ∀ h, s.observedHash = some h → s.Accounted h ∨ s.unagreedHash = some h ∧ s.lastWrittenHash = some h)
    (hun : ∀ u, s.unagreedFile = some u → u.2 = io.sha256 u.1) : Books io s where
  written := hlw
  pending h hh := by rw [hp] at hh; simp at hh
  base := hbase
  observed h hh := by
    rcases hobs h hh with hac | ⟨hu, hl⟩
    · exact .inl hac
    · exact .inr (.inl ⟨hu, hl, by rw [holds, hpass]; rfl⟩)
  unagreed := hun
  kept h hh := by rw [keptHash, hpass] at hh; cases hh
  egest e he := by rw [hegest] at he; cases he
  seeds t ht := by rw [hseeds] at ht; cases ht
  alive _ := hpass

theorem Books.loaded (o : Opened ι H) (d : Doc ι UInt16) : Books io (loaded io o d) := by
  refine Books.opened rfl rfl rfl rfl ?_ ?_ ?_ fun u hu => absurd hu (by simp [Bridge.loaded])
  · exact fun x hx => .inl ⟨.held, by rw [← Option.some.inj hx]; exact .head _⟩
  · exact fun x hx => (accounted_synced hx).imp fun _ ha => .tail _ ha
  · intro x hx
    have hbase : o.diskBase = some x := by simpa [observedHash, Bridge.loaded] using hx
    exact .inl ((accounted_synced hbase).imp fun _ ha => .tail _ ha)

theorem Books.hydrateStored (o : Opened ι H) (d : Doc ι UInt16) : Books io (hydrateStored io o d) := by
  have hbooks : Books io (Bridge.loaded io o d) := Books.loaded o d
  unfold Bridge.hydrateStored
  split_ifs
  · exact hbooks.frame rfl rfl rfl rfl rfl rfl rfl (fun _ ht => ht) hbooks.alive rfl
  · exact hbooks
  · exact hbooks.frame rfl rfl rfl rfl rfl rfl rfl (fun _ ht => ht) hbooks.alive rfl

theorem Books.hydrateSeeded (o : Opened ι H) : Books io (hydrateSeeded io o) := by
  have hfile : ∀ x, some (o.fileHash io) = some x →
      ∃ a, (x, a) ∈ (o.fileHash io, if o.file.getD [] = [] then Account.blank else .merged) ::
        (o.diskBase.map (·, Account.synced)).toList :=
    fun x hx => ⟨_, by rw [Option.some.inj hx]; exact .head _⟩
  refine Books.opened rfl rfl rfl rfl (fun x hx => .inl (hfile x hx)) ?_ ?_ fun u hu => absurd hu (by simp [Bridge.hydrateSeeded])
  · intro x hx
    simp only [Bridge.hydrateSeeded] at hx
    split_ifs at hx
    · exact (accounted_synced hx).imp fun _ ha => .tail _ ha
    · exact hfile x hx
  · intro x hx
    simp only [observedHash, Bridge.hydrateSeeded, Option.map_map, Option.map_eq_some_iff] at hx
    obtain ⟨_, -, hx⟩ := hx
    exact .inl (hfile x (by rw [← hx]; rfl))

theorem Books.hydrateUnseeded [DecidableEq H] (o : Opened ι H) (hcopied : o.copied = true) : Books io (hydrateUnseeded io o) := by
  have hobs : ∀ x, (o.file.map fun _ => (o.fileHash io, stateIfText (ι := ι) (o.file.getD []) [])).map Prod.fst = some x →
      x = o.fileHash io := by
    intro x hx
    simp only [Option.map_map, Option.map_eq_some_iff] at hx
    obtain ⟨_, -, hx⟩ := hx
    exact hx.symm
  have hsynced : ∀ a x, o.diskBase = some x →
      ∃ b, (x, b) ∈ (o.fileHash io, a) :: (o.diskBase.map (·, Account.synced)).toList :=
    fun a x hx => (accounted_synced hx).imp fun _ hb => .tail _ hb
  have hfile : ∀ a x, x = o.fileHash io →
      ∃ b, (x, b) ∈ (o.fileHash io, a) :: (o.diskBase.map (·, Account.synced)).toList :=
    fun a x hx => ⟨a, by rw [hx]; exact .head _⟩
  unfold Bridge.hydrateUnseeded
  dsimp only
  split_ifs with hblank hbase hknown
  · exact Books.opened rfl rfl rfl rfl (fun x hx => .inl (hfile _ x (Option.some.inj hx).symm)) (hsynced _)
      (fun x hx => .inl (hfile _ x (hobs x hx))) fun u hu => by cases hu
  · refine Books.opened rfl rfl rfl rfl (fun x hx => .inr hx) (fun x hx => accounted_synced hx)
      (fun x hx => .inr ?_) ?_
    · rw [hobs x hx]
      exact ⟨rfl, rfl⟩
    · intro u hu
      rw [← Option.some.inj hu]
      rfl
  · have hsame : o.diskBase = some (o.fileHash io) := hknown.resolve_right (by rw [hcopied]; decide)
    refine Books.opened rfl rfl rfl rfl (fun x hx => .inl ?_) (fun x hx => accounted_synced hx)
      (fun x hx => .inl ?_) fun u hu => absurd hu (by simp)
    · exact accounted_synced (hsame.trans hx)
    · rw [hobs x hx]
      exact accounted_synced hsame
  · exact Books.opened rfl rfl rfl rfl (fun x hx => .inl (hfile _ x (Option.some.inj hx).symm)) (hsynced _)
      (fun x hx => .inl (hfile _ x (hobs x hx))) fun u hu => by cases hu

theorem Books.hydrate [DecidableEq H] (o : Opened ι H) (hcopied : o.copied = true) : Books io (hydrate io o) := by
  unfold Bridge.hydrate
  split
  · exact Books.hydrateStored o _
  · split_ifs
    · exact Books.hydrateSeeded o
    · exact Books.hydrateUnseeded o hcopied

end NoteBridge

/-- **Nothing unaccounted is replaced.** In every state of every run of allowed steps, a write that carries a hash replaces
only bytes with an account, and a stale answer queues a re-read. -/
theorem cas_write_accounted [DecidableEq H] (io : BridgeIO ι H) (o : Opened ι H) (hcopied : o.copied = true)
    (as : List (Action ι)) (hok : Machine.Guarded (step io) (WriteOk io) (hydrate io o) as) :
    NoteBridge.WritesSafe io (run io (hydrate io o) as) :=
  (Machine.run_inv (fun _ a h ha => h.step a ha)
    (show NoteBridge.WritesInv io (hydrate io o) from .inr (NoteBridge.Books.hydrate o hcopied)) hok).safe

/-- the note reads `a` in the document and in the file, and is edited to `ab` -/
def editedRun : List (Action (ℕ × ℕ)) := .edit (typedAfter [98]) :: egestSteps

theorem edited_write_accounted :
    NoteBridge.WritesSafe (plainBridge true) (run (plainBridge true) (hydrate (plainBridge true) (fileOnly [97])) editedRun) ∧
      NoteBridge.Replaces (plainBridge true) (run (plainBridge true) (hydrate (plainBridge true) (fileOnly [97])) editedRun) [97] :=
  ⟨cas_write_accounted (plainBridge true) (fileOnly [97]) rfl editedRun (by decide), by decide⟩

/-- another program rewrites the file while an egest waits, and the read of it waits for its recovery snapshot -/
def unmerged : NoteBridge (ℕ × ℕ) Text := run (plainBridge true) (hydrate (plainBridge true) (fileOnly [97]))
  ([.edit (typedAfter [98]), .external (some [120, 121, 122, 120, 121, 122])] ++ ingestSteps ++ egestSteps)

/-- the file moves on, the write is stale, the read of it fails, and the next write is unconditional -/
def unread : NoteBridge (ℕ × ℕ) Text := run (plainBridge true) (hydrate (plainBridge true) (fileOnly [97]))
  ([.edit (typedAfter [98]), .external (some [99])] ++ egestSteps ++
    [.egestWrites, .egestAnswered, .ingestStarts, .ingestReads false, .edit (typedAfter [98, 100])] ++ egestSteps)

/-- **Bytes without an account are replaced.** A compare-and-swap replaces bytes a pass has read and not merged; and after a
stale answer whose re-read fails, a version nobody has read is overwritten. -/
theorem unaccounted_bytes_replaced :
    unmerged.Replaces (plainBridge true) [120, 121, 122, 120, 121, 122] ∧
      ¬unmerged.Accounted [120, 121, 122, 120, 121, 122] ∧
    unread.file = some [99] ∧ ¬unread.Accounted [99] ∧
      (step (plainBridge true) unread .egestWrites).file = some [97, 98, 100] := by decide +kernel

end Baalda.Bridge
