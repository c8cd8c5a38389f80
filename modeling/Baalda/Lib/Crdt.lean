/-
States of an operation-based document type as a set of structs plus a set of deletions, and the vectors and diffs two
replicas exchange.

- `Update`: the structs (one per client and clock) and the deletions a state or a message carries. Merging is the
  union of both parts, so the updates are a join-semilattice with a least element; a document, its stored log and one
  message are values of the same type.
- `clock u c`: how far the structs of client `c` reach without a gap, counted from clock 0. A deletion advances no
  clock.
- `StateVector`, `stateVector`, `Covers`: the per-client clocks, and the comparison replicas make on them;
  `VectorCodec`: their wire form.
- `diff u v`: the structs of `u` that a replica with vector `v` lacks, with all deletions of `u`.
-/
import Mathlib.Tactic

namespace Crdt

/-! ## Updates -/

/-- a struct: the client that wrote it and its position in that client's history -/
structure Id where
  client : ℕ
  clock : ℕ
deriving DecidableEq, Repr

/-- what a document, a stored row or a message carries -/
@[ext] structure Update where
  structs : Finset Id
  deletes : Finset Id
deriving DecidableEq

namespace Update

instance : PartialOrder Update :=
  PartialOrder.lift (fun u => (u.structs, u.deletes)) fun u w h => by
    simp only [Prod.mk.injEq] at h
    exact Update.ext h.1 h.2

theorem le_def {u w : Update} : u ≤ w ↔ u.structs ⊆ w.structs ∧ u.deletes ⊆ w.deletes := Iff.rfl

instance : DecidableLE Update := fun u w => decidable_of_iff (u.structs ⊆ w.structs ∧ u.deletes ⊆ w.deletes) le_def.symm

instance : SemilatticeSup Update where
  sup u w := ⟨u.structs ∪ w.structs, u.deletes ∪ w.deletes⟩
  le_sup_left _ _ := ⟨Finset.subset_union_left, Finset.subset_union_left⟩
  le_sup_right _ _ := ⟨Finset.subset_union_right, Finset.subset_union_right⟩
  sup_le _ _ _ h k := ⟨Finset.union_subset h.1 k.1, Finset.union_subset h.2 k.2⟩

instance : OrderBot Update where
  bot := ⟨∅, ∅⟩
  bot_le _ := ⟨Finset.empty_subset _, Finset.empty_subset _⟩

@[simp] theorem sup_structs (u w : Update) : (u ⊔ w).structs = u.structs ∪ w.structs := rfl

@[simp] theorem sup_deletes (u w : Update) : (u ⊔ w).deletes = u.deletes ∪ w.deletes := rfl

@[simp] theorem bot_structs : (⊥ : Update).structs = ∅ := rfl

@[simp] theorem bot_deletes : (⊥ : Update).deletes = ∅ := rfl

/-- one update holding everything the listed ones hold -/
def mergeAll (us : List Update) : Update := us.foldr (· ⊔ ·) ⊥

@[simp] theorem mergeAll_nil : mergeAll [] = ⊥ := rfl

@[simp] theorem mergeAll_cons (u : Update) (us : List Update) : mergeAll (u :: us) = u ⊔ mergeAll us := rfl

theorem mergeAll_append (us ws : List Update) : mergeAll (us ++ ws) = mergeAll us ⊔ mergeAll ws := by
  induction us with
  | nil => simp
  | cons u us ih => simp [ih, sup_assoc]

variable {us : List Update}

theorem le_mergeAll {u : Update} (h : u ∈ us) : u ≤ mergeAll us := by
  induction us with
  | nil => simp at h
  | cons w us ih =>
    rcases List.mem_cons.1 h with rfl | h
    · exact le_sup_left
    · exact (ih h).trans le_sup_right

theorem mergeAll_le {w : Update} (h : ∀ u ∈ us, u ≤ w) : mergeAll us ≤ w := by
  induction us with
  | nil => exact bot_le
  | cons u us ih => exact sup_le (h u (by simp)) (ih fun v hv => h v (by simp [hv]))

theorem mem_structs_mergeAll {i : Id} : i ∈ (mergeAll us).structs ↔ ∃ u ∈ us, i ∈ u.structs := by
  induction us with
  | nil => simp
  | cons u us ih => simp [ih]

end Update

/-! ## Clocks -/

/-- how many consecutive numbers from `k` on satisfy `p`, at most `n` -/
def runLength (p : ℕ → Bool) : ℕ → ℕ → ℕ
  | 0, k => k
  | n + 1, k => if p k then runLength p n (k + 1) else k

theorem runLength_holds (p : ℕ → Bool) (n k j : ℕ) (hk : k ≤ j) (hj : j < runLength p n k) : p j = true := by
  induction n generalizing k with
  | zero => simp only [runLength] at hj; omega
  | succ n ih =>
    simp only [runLength] at hj
    split_ifs at hj with hp
    · rcases Nat.eq_or_lt_of_le hk with rfl | hlt
      · exact hp
      · exact ih (k + 1) hlt hj
    · omega

theorem runLength_stops (p : ℕ → Bool) (n k : ℕ) : runLength p n k = k + n ∨ p (runLength p n k) = false := by
  induction n generalizing k with
  | zero => exact .inl rfl
  | succ n ih =>
    simp only [runLength]
    split_ifs with hp
    · rcases ih (k + 1) with h | h
      · exact .inl (by omega)
      · exact .inr h
    · exact .inr (by simpa using hp)

/-- the first clock of client `c` that `u` lacks: how far `c`'s structs reach without a gap -/
def clock (u : Update) (c : ℕ) : ℕ := runLength (fun k => decide (⟨c, k⟩ ∈ u.structs)) (u.structs.card + 1) 0

variable {u : Update}

theorem mem_of_lt_clock {c k : ℕ} (h : k < clock u c) : (⟨c, k⟩ : Id) ∈ u.structs := by
  simpa using runLength_holds (fun k => decide ((⟨c, k⟩ : Id) ∈ u.structs)) _ 0 k (Nat.zero_le k) h

/-- a run of structs is no longer than the number of structs there are -/
theorem clock_le_card (u : Update) (c : ℕ) : clock u c ≤ u.structs.card := by
  have hsub : (Finset.range (clock u c)).image (fun k => (⟨c, k⟩ : Id)) ⊆ u.structs := by
    intro i hi
    obtain ⟨k, hk, rfl⟩ := Finset.mem_image.1 hi
    exact mem_of_lt_clock (Finset.mem_range.1 hk)
  calc clock u c = ((Finset.range (clock u c)).image (fun k => (⟨c, k⟩ : Id))).card := by
        rw [Finset.card_image_of_injective _ (fun a b h => by simpa using h), Finset.card_range]
    _ ≤ u.structs.card := Finset.card_le_card hsub

theorem clock_notMem (u : Update) (c : ℕ) : (⟨c, clock u c⟩ : Id) ∉ u.structs := by
  rcases runLength_stops (fun k => decide ((⟨c, k⟩ : Id) ∈ u.structs)) (u.structs.card + 1) 0 with h | h
  · have hle := clock_le_card u c
    unfold clock at hle
    omega
  · simpa [clock] using h

variable {w : Update}

theorem clock_mono (h : u ≤ w) (c : ℕ) : clock u c ≤ clock w c := by
  by_contra hlt
  exact clock_notMem w c (h.1 (mem_of_lt_clock (by omega)))

/-- a client with no struct has clock 0 -/
theorem clock_eq_zero {c : ℕ} (h : c ∉ u.structs.image Id.client) : clock u c = 0 := by
  by_contra hne
  exact h (Finset.mem_image.2 ⟨⟨c, 0⟩, mem_of_lt_clock (by omega), rfl⟩)

/-- every client's structs reach from clock 0 without a gap, as in a document with nothing pending -/
def Gapless (u : Update) : Prop := ∀ i ∈ u.structs, i.clock < clock u i.client

instance (u : Update) : Decidable (Gapless u) := inferInstanceAs (Decidable (∀ i ∈ u.structs, _))

/-- the structs of `u` parked behind a gap, which its clocks do not count -/
def parked (u : Update) : Finset Id := u.structs.filter fun i => clock u i.client ≤ i.clock

theorem parked_eq_empty (h : Gapless u) : parked u = ∅ := by
  rw [parked, Finset.filter_eq_empty_iff]
  intro i hi hle
  exact absurd (h i hi) (by omega)

/-! ## State vectors -/

/-- the per-client clocks, one entry for each client with a clock above 0 -/
abbrev StateVector := Finset (ℕ × ℕ)

namespace StateVector

/-- the clock `v` records for client `c`, 0 when it names none -/
def get (v : StateVector) (c : ℕ) : ℕ := (v.filter fun e => e.1 = c).sup Prod.snd

/-- no entry of `b` is above what `a` records for that client -/
def Covers (a b : StateVector) : Prop := ∀ e ∈ b, e.2 ≤ a.get e.1

instance (a b : StateVector) : Decidable (Covers a b) := inferInstanceAs (Decidable (∀ e ∈ b, _))

theorem le_get {v : StateVector} {e : ℕ × ℕ} (h : e ∈ v) : e.2 ≤ v.get e.1 :=
  Finset.le_sup (f := Prod.snd) (Finset.mem_filter.2 ⟨h, rfl⟩)

theorem covers_refl (v : StateVector) : Covers v v := fun _ h => le_get h

variable {a b : StateVector}

theorem covers_iff_get : Covers a b ↔ ∀ c, b.get c ≤ a.get c := by
  refine ⟨fun h c => Finset.sup_le fun e he => ?_, fun h e he => (le_get he).trans (h e.1)⟩
  obtain ⟨heb, rfl⟩ := Finset.mem_filter.1 he
  exact h e heb

theorem Covers.trans {c : StateVector} (hab : Covers a b) (hbc : Covers b c) : Covers a c := by
  rw [covers_iff_get] at *
  exact fun d => (hbc d).trans (hab d)

/-- the per-client maximum of two vectors -/
def join (a b : StateVector) : StateVector := (a ∪ b).image fun e => (e.1, max (a.get e.1) (b.get e.1))

theorem le_get_join_left (a b : StateVector) (c : ℕ) : a.get c ≤ (join a b).get c := by
  refine Finset.sup_le fun e he => ?_
  obtain ⟨hea, rfl⟩ := Finset.mem_filter.1 he
  have hm : (e.1, max (a.get e.1) (b.get e.1)) ∈ join a b :=
    Finset.mem_image.2 ⟨e, Finset.mem_union_left _ hea, rfl⟩
  exact (le_get hea).trans ((le_max_left _ _).trans (le_get hm))

theorem le_get_join_right (a b : StateVector) (c : ℕ) : b.get c ≤ (join a b).get c := by
  refine Finset.sup_le fun e he => ?_
  obtain ⟨heb, rfl⟩ := Finset.mem_filter.1 he
  have hm : (e.1, max (a.get e.1) (b.get e.1)) ∈ join a b :=
    Finset.mem_image.2 ⟨e, Finset.mem_union_right _ heb, rfl⟩
  exact (le_get heb).trans ((le_max_right _ _).trans (le_get hm))

theorem get_join (a b : StateVector) (c : ℕ) : (join a b).get c = max (a.get c) (b.get c) := by
  refine le_antisymm (Finset.sup_le fun e he => ?_) (max_le (le_get_join_left a b c) (le_get_join_right a b c))
  obtain ⟨hej, rfl⟩ := Finset.mem_filter.1 he
  obtain ⟨d, _, rfl⟩ := Finset.mem_image.1 hej
  exact le_rfl

theorem covers_join {w : StateVector} (ha : Covers w a) (hb : Covers w b) : Covers w (join a b) := by
  rw [covers_iff_get] at *
  intro c
  rw [get_join]
  exact max_le (ha c) (hb c)

end StateVector

open StateVector

/-- the vector of the structs `u` holds; its deletions leave no trace in it -/
def stateVector (u : Update) : StateVector :=
  ((u.structs.image Id.client).image fun c => (c, clock u c)).filter fun e => e.2 ≠ 0

@[simp] theorem get_stateVector (u : Update) (c : ℕ) : (stateVector u).get c = clock u c := by
  apply le_antisymm
  · refine Finset.sup_le fun e he => ?_
    obtain ⟨hev, rfl⟩ := Finset.mem_filter.1 he
    obtain ⟨d, _, rfl⟩ := Finset.mem_image.1 (Finset.mem_filter.1 hev).1
    exact le_rfl
  · by_cases h : clock u c = 0
    · omega
    · have hc : c ∈ u.structs.image Id.client := by
        by_contra hc; exact h (clock_eq_zero hc)
      exact le_get (v := stateVector u) (Finset.mem_filter.2 ⟨Finset.mem_image.2 ⟨c, hc, rfl⟩, h⟩)

/-- **Comparing vectors compares clocks.** -/
theorem covers_iff : Covers (stateVector w) (stateVector u) ↔ ∀ c, clock u c ≤ clock w c := by
  simp [covers_iff_get]

theorem covers_of_le (h : u ≤ w) : Covers (stateVector w) (stateVector u) :=
  covers_iff.2 (clock_mono h)

/-- **What a covered vector promises.** Below its own vector a covered state has no struct the covering one lacks.
Structs parked behind a gap and deletions are not promised. -/
theorem structs_subset_of_covers (h : Covers (stateVector w) (stateVector u)) {i : Id} (hi : i ∈ u.structs)
    (hp : i ∉ parked u) : i ∈ w.structs := by
  have hlt : i.clock < clock u i.client := by
    by_contra hge
    exact hp (Finset.mem_filter.2 ⟨hi, by omega⟩)
  exact mem_of_lt_clock (hlt.trans_le (covers_iff.1 h i.client))

/-- a covered state adds nothing exactly when its deletions and its parked structs are already there -/
theorem le_iff_of_covers (h : Covers (stateVector w) (stateVector u)) :
    u ≤ w ↔ parked u ⊆ w.structs ∧ u.deletes ⊆ w.deletes := by
  refine ⟨fun hle => ⟨(Finset.filter_subset _ _).trans hle.1, hle.2⟩, fun ⟨hp, hd⟩ => ⟨fun i hi => ?_, hd⟩⟩
  by_cases hip : i ∈ parked u
  · exact hp hip
  · exact structs_subset_of_covers h hi hip

/-- the wire form of a vector; decoding may fail -/
structure VectorCodec (B : Type*) where
  encode : StateVector → B
  decode : B → Option StateVector
  decode_encode : ∀ v, decode (encode v) = some v

theorem VectorCodec.encode_injective {B : Type*} (codec : VectorCodec B) {v w : StateVector}
    (h : codec.encode v = codec.encode w) : v = w := by
  have hd := codec.decode_encode v
  rw [h, codec.decode_encode w] at hd
  exact (Option.some.inj hd).symm

/-- vectors that travel as they are -/
def plainCodec : VectorCodec StateVector := ⟨id, some, fun _ => rfl⟩

/-! ## Diffs -/

/-- what a replica with vector `v` lacks of `u`: the structs at or above `v`, and every deletion -/
def diff (u : Update) (v : StateVector) : Update :=
  ⟨u.structs.filter fun i => v.get i.client ≤ i.clock, u.deletes⟩

theorem diff_le (u : Update) (v : StateVector) : diff u v ≤ u := ⟨Finset.filter_subset _ _, le_rfl⟩

/-- **A diff against a replica's own vector brings it to the join.** -/
theorem sup_diff (u w : Update) : w ⊔ diff u (stateVector w) = w ⊔ u := by
  apply le_antisymm (sup_le_sup_left (diff_le _ _) _)
  refine sup_le le_sup_left ⟨fun i hi => ?_, Finset.subset_union_right⟩
  by_cases h : i.clock < clock w i.client
  · exact Finset.mem_union_left _ (mem_of_lt_clock h)
  · exact Finset.mem_union_right _ (Finset.mem_filter.2 ⟨hi, by simpa using h⟩)

end Crdt
