/-
UTF-8 as a browser reads and writes it. A string is the list of its UTF-16 code units.

- `encode` (`TextEncoder.encode`): a surrogate without its partner is written as the replacement character;
- `decode` (`TextDecoder.decode`): the decoder of the Encoding standard, one byte at a time. What is not UTF-8 is read
  as replacement characters, and a byte order mark in front is dropped;
- `decode_encode`: a well-formed string that does not begin with a byte order mark is read back as it was;
- `toText`: the same decoder when the mark is kept (Node's `Buffer`), which reads every well-formed string back;
- `repair`: a string with its lone surrogates replaced, what is left of it when it was written and read.
-/
import Mathlib.Tactic

namespace Utf8

open List

/-! ## Strings and scalar values -/

def isHigh (u : UInt16) : Bool := 0xD800 ≤ u.toNat && u.toNat < 0xDC00

def isLow (u : UInt16) : Bool := 0xDC00 ≤ u.toNat && u.toNat < 0xE000

def replacement : ℕ := 0xFFFD

def byteOrderMark : ℕ := 0xFEFF

def IsScalar (c : ℕ) : Prop := c < 0xD800 ∨ 0xE000 ≤ c ∧ c < 0x110000

/-- the scalar value of a surrogate pair -/
def paired (u v : UInt16) : ℕ := 0x10000 + (u.toNat - 0xD800) * 1024 + (v.toNat - 0xDC00)

/-- the scalar values of a string, with every lone surrogate replaced -/
def scalars : List UInt16 → List ℕ
  | [] => []
  | [u] => [if isHigh u || isLow u then replacement else u.toNat]
  | u :: v :: t =>
    if isHigh u && isLow v then paired u v :: scalars t
    else (if isHigh u || isLow u then replacement else u.toNat) :: scalars (v :: t)

/-- the code units of a scalar value -/
def units (c : ℕ) : List UInt16 :=
  if c < 0x10000 then [UInt16.ofNat c]
  else [UInt16.ofNat (0xD800 + (c - 0x10000) / 1024), UInt16.ofNat (0xDC00 + (c - 0x10000) % 1024)]

/-- every surrogate has its partner -/
inductive WellFormed : List UInt16 → Prop where
  | nil : WellFormed []
  | unit {u : UInt16} {t : List UInt16} (hhigh : isHigh u = false) (hlow : isLow u = false) (h : WellFormed t) :
    WellFormed (u :: t)
  | pair {u v : UInt16} {t : List UInt16} (hhigh : isHigh u = true) (hlow : isLow v = true) (h : WellFormed t) :
    WellFormed (u :: v :: t)

variable {t : List UInt16}

theorem WellFormed.append {s : List UInt16} (hs : WellFormed s) (ht : WellFormed t) : WellFormed (s ++ t) := by
  induction hs with
  | nil => exact ht
  | unit hhigh hlow _ ih => exact .unit hhigh hlow ih
  | pair hhigh hlow _ ih => exact .pair hhigh hlow ih

/-- what lies below the surrogates needs no partner -/
theorem WellFormed.of_lt (h : ∀ u ∈ t, u.toNat < 0xD800) : WellFormed t := by
  induction t with
  | nil => exact .nil
  | cons u t ih =>
    have hu := h u mem_cons_self
    refine .unit ?_ ?_ (ih fun v hv => h v (mem_cons_of_mem u hv))
    · simp only [isHigh, Bool.and_eq_false_iff, decide_eq_false_iff_not]
      omega
    · simp only [isLow, Bool.and_eq_false_iff, decide_eq_false_iff_not]
      omega

variable {u : UInt16}

theorem scalars_unit (hhigh : isHigh u = false) (hlow : isLow u = false) :
    scalars (u :: t) = u.toNat :: scalars t := by
  cases t with
  | nil | cons v t => simp [scalars, hhigh, hlow]

theorem scalars_pair {v : UInt16} (hhigh : isHigh u = true) (hlow : isLow v = true) :
    scalars (u :: v :: t) = paired u v :: scalars t := by
  simp [scalars, hhigh, hlow]

theorem isScalar_unit (hhigh : isHigh u = false) (hlow : isLow u = false) : IsScalar u.toNat := by
  have hlt := u.toNat_lt
  simp only [isHigh, isLow, Bool.and_eq_false_iff, decide_eq_false_iff_not] at hhigh hlow
  unfold IsScalar
  omega

theorem isScalar_pair {v : UInt16} (hhigh : isHigh u = true) (hlow : isLow v = true) : IsScalar (paired u v) := by
  simp only [isHigh, isLow, Bool.and_eq_true, decide_eq_true_eq] at hhigh hlow
  unfold IsScalar paired
  omega

theorem units_pair {v : UInt16} (hhigh : isHigh u = true) (hlow : isLow v = true) : units (paired u v) = [u, v] := by
  simp only [isHigh, isLow, Bool.and_eq_true, decide_eq_true_eq] at hhigh hlow
  unfold units paired
  rw [if_neg (by omega)]
  have hu : 0xD800 + (0x10000 + (u.toNat - 0xD800) * 1024 + (v.toNat - 0xDC00) - 0x10000) / 1024 = u.toNat := by omega
  have hv : 0xDC00 + (0x10000 + (u.toNat - 0xD800) * 1024 + (v.toNat - 0xDC00) - 0x10000) % 1024 = v.toNat := by omega
  rw [hu, hv, UInt16.ofNat_toNat, UInt16.ofNat_toNat]

theorem isScalar_of_mem_scalars (h : WellFormed t) : ∀ c ∈ scalars t, IsScalar c := by
  induction h with
  | nil => simp [scalars]
  | unit hhigh hlow _ ih =>
    rw [scalars_unit hhigh hlow]
    exact forall_mem_cons.mpr ⟨isScalar_unit hhigh hlow, ih⟩
  | pair hhigh hlow _ ih =>
    rw [scalars_pair hhigh hlow]
    exact forall_mem_cons.mpr ⟨isScalar_pair hhigh hlow, ih⟩

theorem units_scalars (h : WellFormed t) : (scalars t).flatMap units = t := by
  induction h with
  | nil => rfl
  | @unit u t hhigh hlow _ ih =>
    have hlt := u.toNat_lt
    rw [scalars_unit hhigh hlow, flatMap_cons, ih, units, if_pos (by omega), UInt16.ofNat_toNat]
    rfl
  | pair hhigh hlow _ ih =>
    rw [scalars_pair hhigh hlow, flatMap_cons, ih, units_pair hhigh hlow]
    rfl

theorem head_scalars (h : WellFormed t) (hmark : t.head? ≠ some 0xFEFF) : (scalars t).head? ≠ some byteOrderMark := by
  cases h with
  | nil => simp [scalars]
  | @unit u t hhigh hlow _ =>
    rw [scalars_unit hhigh hlow, head?_cons]
    intro heq
    refine hmark ?_
    rw [head?_cons]
    congr 1
    exact UInt16.toNat_inj.mp (Option.some.inj heq)
  | @pair u v t hhigh hlow _ =>
    rw [scalars_pair hhigh hlow, head?_cons]
    intro heq
    have hsum := Option.some.inj heq
    unfold byteOrderMark paired at hsum
    omega

/-! ## Writing -/

/-- the UTF-8 bytes of a scalar value -/
def bytes (c : ℕ) : List UInt8 :=
  if c < 0x80 then [UInt8.ofNat c]
  else if c < 0x800 then [UInt8.ofNat (0xC0 + c / 64), UInt8.ofNat (0x80 + c % 64)]
  else if c < 0x10000 then
    [UInt8.ofNat (0xE0 + c / 4096), UInt8.ofNat (0x80 + c / 64 % 64), UInt8.ofNat (0x80 + c % 64)]
  else
    [UInt8.ofNat (0xF0 + c / 262144), UInt8.ofNat (0x80 + c / 4096 % 64), UInt8.ofNat (0x80 + c / 64 % 64),
      UInt8.ofNat (0x80 + c % 64)]

def encode (t : List UInt16) : List UInt8 := (scalars t).flatMap bytes

/-! ## Reading -/

/-- a character that has begun: its bits so far, the bytes it lacks, and what the next one may be -/
structure Pending where
  point : ℕ
  left : ℕ
  lower : ℕ := 0x80
  upper : ℕ := 0xBF

/-- the first byte of a character: what it yields at once, or the character it begins -/
def lead (b : ℕ) : List ℕ × Option Pending :=
  if b < 0x80 then ([b], none)
  else if 0xC2 ≤ b ∧ b ≤ 0xDF then ([], some { point := b % 32, left := 1 })
  else if 0xE0 ≤ b ∧ b ≤ 0xEF then
    ([], some {
      point := b % 16, left := 2, lower := if b = 0xE0 then 0xA0 else 0x80, upper := if b = 0xED then 0x9F else 0xBF })
  else if 0xF0 ≤ b ∧ b ≤ 0xF4 then
    ([], some {
      point := b % 8, left := 3, lower := if b = 0xF0 then 0x90 else 0x80, upper := if b = 0xF4 then 0x8F else 0xBF })
  else ([replacement], none)

/-- the scalar values of a byte string; a byte that cannot continue a character is read again as a first one -/
def decodeFrom : Option Pending → List UInt8 → List ℕ
  | none, [] => []
  | some _, [] => [replacement]
  | none, b :: t => (lead b.toNat).1 ++ decodeFrom (lead b.toNat).2 t
  | some p, b :: t =>
    if p.lower ≤ b.toNat ∧ b.toNat ≤ p.upper then
      if p.left = 1 then (p.point * 64 + b.toNat % 64) :: decodeFrom none t
      else decodeFrom (some { point := p.point * 64 + b.toNat % 64, left := p.left - 1 }) t
    else replacement :: ((lead b.toNat).1 ++ decodeFrom (lead b.toNat).2 t)

def dropMark (cs : List ℕ) : List ℕ := if cs.head? = some byteOrderMark then cs.tail else cs

def decode (b : List UInt8) : List UInt16 := (dropMark (decodeFrom none b)).flatMap units

theorem toNat_byte {n : ℕ} (h : n < 256) : (UInt8.ofNat n).toNat = n := by
  rw [UInt8.toNat_ofNat']
  omega

theorem decodeFrom_lead {b : ℕ} (h : b < 256) (t : List UInt8) :
    decodeFrom none (UInt8.ofNat b :: t) = (lead b).1 ++ decodeFrom (lead b).2 t := by
  rw [decodeFrom, toNat_byte h]

theorem decodeFrom_last {p : Pending} {b : ℕ} (h : p.lower ≤ b ∧ b ≤ p.upper) (hlt : b < 256) (hleft : p.left = 1)
    (t : List UInt8) : decodeFrom (some p) (UInt8.ofNat b :: t) = (p.point * 64 + b % 64) :: decodeFrom none t := by
  rw [decodeFrom, toNat_byte hlt, if_pos h, if_pos hleft]

theorem decodeFrom_next {p : Pending} {b : ℕ} (h : p.lower ≤ b ∧ b ≤ p.upper) (hlt : b < 256) (hleft : p.left ≠ 1)
    (t : List UInt8) : decodeFrom (some p) (UInt8.ofNat b :: t) =
      decodeFrom (some { point := p.point * 64 + b % 64, left := p.left - 1 }) t := by
  rw [decodeFrom, toNat_byte hlt, if_pos h, if_neg hleft]

/-- a scalar value is read back from its bytes -/
theorem decodeFrom_bytes {c : ℕ} (h : IsScalar c) (t : List UInt8) :
    decodeFrom none (bytes c ++ t) = c :: decodeFrom none t := by
  unfold IsScalar at h
  unfold bytes
  split_ifs with h1 h2 h3
  · rw [singleton_append, decodeFrom_lead (by omega), lead, if_pos h1]
    rfl
  · rw [cons_append, singleton_append, decodeFrom_lead (by omega), lead, if_neg (by omega),
      if_pos (by omega), nil_append, decodeFrom_last (by dsimp only; omega) (by omega) rfl]
    congr 1
    dsimp only
    omega
  · rw [cons_append, cons_append, singleton_append, decodeFrom_lead (by omega), lead, if_neg (by omega),
      if_neg (by omega), if_pos (by omega), nil_append,
      decodeFrom_next (by dsimp only; split_ifs <;> omega) (by omega) (by dsimp only; omega),
      decodeFrom_last (by dsimp only; omega) (by omega) rfl]
    congr 1
    dsimp only
    omega
  · rw [cons_append, cons_append, cons_append, singleton_append, decodeFrom_lead (by omega), lead,
      if_neg (by omega), if_neg (by omega), if_neg (by omega), if_pos (by omega), nil_append,
      decodeFrom_next (by dsimp only; split_ifs <;> omega) (by omega) (by dsimp only; omega),
      decodeFrom_next (by dsimp only; omega) (by omega) (by dsimp only; omega),
      decodeFrom_last (by dsimp only; omega) (by omega) rfl]
    congr 1
    dsimp only
    omega

theorem decodeFrom_flatMap {cs : List ℕ} (h : ∀ c ∈ cs, IsScalar c) : decodeFrom none (cs.flatMap bytes) = cs := by
  induction cs with
  | nil => rfl
  | cons c cs ih =>
    rw [flatMap_cons, decodeFrom_bytes (h c mem_cons_self),
      ih fun d hd => h d (mem_cons_of_mem c hd)]

/-- **Round trip.** A well-formed string that does not begin with a byte order mark is read back as it was. -/
theorem decode_encode (h : WellFormed t) (hmark : t.head? ≠ some 0xFEFF) : decode (encode t) = t := by
  rw [decode, encode, decodeFrom_flatMap (isScalar_of_mem_scalars h), dropMark, if_neg (head_scalars h hmark),
    units_scalars h]

/-- a byte order mark in front is read like any other character -/
def toText (b : List UInt8) : List UInt16 := (decodeFrom none b).flatMap units

theorem toText_encode (h : WellFormed t) : toText (encode t) = t := by
  rw [toText, encode, decodeFrom_flatMap (isScalar_of_mem_scalars h), units_scalars h]

/-! ## Lone surrogates replaced -/

def repair (t : List UInt16) : List UInt16 := (scalars t).flatMap units

theorem repair_eq (h : WellFormed t) : repair t = t := units_scalars h

theorem isScalar_replaced (u : UInt16) : IsScalar (if isHigh u || isLow u then replacement else u.toNat) := by
  split
  · unfold IsScalar replacement
    omega
  · next h =>
    simp only [Bool.or_eq_true, not_or, Bool.not_eq_true] at h
    exact isScalar_unit h.1 h.2

theorem isScalar_scalars (t : List UInt16) : ∀ c ∈ scalars t, IsScalar c := by
  induction t using scalars.induct with
  | case1 => simp [scalars]
  | case2 u => simpa [scalars] using isScalar_replaced u
  | case3 u v t h ih =>
    rw [scalars, if_pos h]
    rw [Bool.and_eq_true] at h
    exact forall_mem_cons.2 ⟨isScalar_pair h.1 h.2, ih⟩
  | case4 u v t h ih =>
    rw [scalars, if_neg h]
    exact forall_mem_cons.2 ⟨isScalar_replaced u, ih⟩

theorem wellFormed_units {c : ℕ} (h : IsScalar c) : WellFormed (units c) := by
  unfold IsScalar at h
  unfold units
  split_ifs with hlt
  · refine .unit ?_ ?_ .nil
    · simp only [isHigh, UInt16.toNat_ofNat', Bool.and_eq_false_iff, decide_eq_false_iff_not]
      omega
    · simp only [isLow, UInt16.toNat_ofNat', Bool.and_eq_false_iff, decide_eq_false_iff_not]
      omega
  · refine .pair ?_ ?_ .nil
    · simp only [isHigh, UInt16.toNat_ofNat', Bool.and_eq_true, decide_eq_true_eq]
      omega
    · simp only [isLow, UInt16.toNat_ofNat', Bool.and_eq_true, decide_eq_true_eq]
      omega

theorem wellFormed_flatMap {cs : List ℕ} (h : ∀ c ∈ cs, IsScalar c) : WellFormed (cs.flatMap units) := by
  induction cs with
  | nil => exact .nil
  | cons c cs ih =>
    exact (wellFormed_units (h c mem_cons_self)).append (ih fun d hd => h d (mem_cons_of_mem c hd))

theorem wellFormed_repair (t : List UInt16) : WellFormed (repair t) := wellFormed_flatMap (isScalar_scalars t)

end Utf8
