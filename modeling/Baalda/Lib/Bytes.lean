/-
Byte strings with fixed-width numbers in them.

- `le`, `be`: the `w` bytes of a number, little- and big-endian; `ofLe`, `ofBe` read them back;
- `numbers`, `readNumbers`: a table of numbers of one width; what follows it is not looked at (`readNumbers_prefix`);
- `takeExact`: the first `n` bytes and the rest, if there are that many. `takeExact_iff`: what it takes is exactly how a
  byte string can begin.
-/
import Mathlib.Tactic

namespace Bytes

open List

/-- the `w` low bytes of a number, the lowest first -/
def le : ℕ → ℕ → List UInt8
  | 0, _ => []
  | w + 1, n => UInt8.ofNat n :: le w (n / 256)

def ofLe : List UInt8 → ℕ
  | [] => 0
  | b :: t => b.toNat + 256 * ofLe t

/-- the `w` low bytes of a number, the highest first -/
def be (w n : ℕ) : List UInt8 := (le w n).reverse

def ofBe (b : List UInt8) : ℕ := ofLe b.reverse

@[simp] theorem length_le (w n : ℕ) : (le w n).length = w := by
  induction w generalizing n with
  | zero => rfl
  | succ w ih => rw [le, length_cons, ih]

variable {w : ℕ}

theorem ofLe_le {n : ℕ} (h : n < 256 ^ w) : ofLe (le w n) = n := by
  induction w generalizing n with
  | zero =>
    have hzero : n = 0 := by simpa using h
    rw [hzero]
    rfl
  | succ w ih =>
    have hdiv : n / 256 < 256 ^ w := by
      omega
    rw [le, ofLe, ih hdiv, UInt8.toNat_ofNat']
    omega

theorem ofLe_lt (b : List UInt8) : ofLe b < 256 ^ b.length := by
  induction b with
  | nil => simp [ofLe]
  | cons x t ih =>
    have hx := x.toNat_lt
    rw [ofLe, length_cons, pow_succ]
    omega

theorem le_ofLe (b : List UInt8) : le b.length (ofLe b) = b := by
  induction b with
  | nil => rfl
  | cons x t ih =>
    have hx := x.toNat_lt
    have hdiv : (x.toNat + 256 * ofLe t) / 256 = ofLe t := by omega
    rw [length_cons, le, ofLe, hdiv, ih]
    congr 1
    apply UInt8.toNat_inj.mp
    rw [UInt8.toNat_ofNat']
    omega

/-- numbers of `w` bytes each, one after the other -/
def numbers (w : ℕ) (ns : List ℕ) : List UInt8 := ns.flatMap (le w)

/-- the first `n` of them, if there are that many bytes -/
def readNumbers (w : ℕ) : ℕ → List UInt8 → Option (List ℕ)
  | 0, _ => some []
  | n + 1, b => if b.length < w then none else (readNumbers w n (b.drop w)).map (ofLe (b.take w) :: ·)

@[simp] theorem length_numbers (w : ℕ) (ns : List ℕ) : (numbers w ns).length = ns.length * w := by
  induction ns with
  | nil => simp [numbers]
  | cons n ns ih =>
    rw [numbers, flatMap_cons, length_append, length_le, ← numbers, ih, length_cons, Nat.succ_mul]
    omega

variable {ns : List ℕ}

theorem readNumbers_numbers (h : ∀ n ∈ ns, n < 256 ^ w) (b : List UInt8) :
    readNumbers w ns.length (numbers w ns ++ b) = some ns := by
  induction ns with
  | nil => rfl
  | cons n ns ih =>
    have hhead : numbers w (n :: ns) ++ b = le w n ++ (numbers w ns ++ b) := by
      rw [numbers, flatMap_cons, append_assoc]
      rfl
    rw [hhead, length_cons, readNumbers, if_neg (by simp), drop_left' (length_le w n),
      take_left' (length_le w n), ofLe_le (h n mem_cons_self),
      ih fun m hm => h m (mem_cons_of_mem n hm)]
    rfl

theorem length_of_readNumbers {n : ℕ} {b : List UInt8} (h : readNumbers w n b = some ns) :
    ns.length = n ∧ n * w ≤ b.length := by
  induction n generalizing b ns with
  | zero =>
    cases h
    simp
  | succ n ih =>
    rw [readNumbers] at h
    split at h
    next => cases h
    next hlen =>
      obtain ⟨rest, hrest, rfl⟩ := Option.map_eq_some_iff.1 h
      obtain ⟨hcount, hbytes⟩ := ih hrest
      rw [length_drop] at hbytes
      rw [length_cons, Nat.succ_mul]
      omega

theorem readNumbers_prefix {n : ℕ} {b : List UInt8} (h : readNumbers w n b = some ns) (t : List UInt8) :
    readNumbers w n (b ++ t) = some ns := by
  induction n generalizing b ns with
  | zero => exact h
  | succ n ih =>
    rw [readNumbers] at h ⊢
    split at h
    next => cases h
    next hlen =>
      obtain ⟨rest, hrest, rfl⟩ := Option.map_eq_some_iff.1 h
      have hle : w ≤ b.length := not_lt.1 hlen
      rw [if_neg (by rw [length_append]; omega), drop_append_of_le_length hle,
        take_append_of_le_length hle, ih hrest]
      rfl

section

variable {α : Type*}

/-- the first `n` elements and the rest, if there are that many -/
def takeExact (n : ℕ) (b : List α) : Option (List α × List α) :=
  if n ≤ b.length then some (b.take n, b.drop n) else none

theorem takeExact_iff {n : ℕ} {b x y : List α} : takeExact n b = some (x, y) ↔ x.length = n ∧ b = x ++ y := by
  unfold takeExact
  constructor
  · intro h
    split_ifs at h with hn
    cases h
    exact ⟨by rw [length_take]; omega, (take_append_drop n b).symm⟩
  · rintro ⟨rfl, rfl⟩
    simp

end

end Bytes
