/-
The writer of note bodies (mcp/doc-writer.ts): edits as operations on the text's UTF-16 units.

`replacementOp` is the one operation that turns a text into another: what both have in common at the front and at the
end is left alone. `applyOps` applies operations in order, each checked against the text as it is then; what it applied
before an operation that throws stays applied.

`replacementOp_exact`: the operation gives the new text, cuts no surrogate pair of either, and leaves alone all that the
two have in common but for a half of a pair at each end.
-/
import Baalda.Lib.Utf16

namespace Baalda.DocWriter

open Utf16 List

/-! ## Model -/

/-- a number; `none`: `undefined`, or `NaN` -/
abbrev Number := Option ℤ

/-- delete `deleteLength` units at `index`, then insert `insert` there -/
structure TextOp where
  index : Number
  deleteLength : Number
  insert : Text
  deriving DecidableEq

/-- `String.prototype.slice` -/
def jsSlice (t : Text) (a b : ℤ) : Text :=
  let clamp := fun x : ℤ => if x < 0 then (t.length + x).toNat else x.toNat
  slice t (clamp a) (clamp b)

/-- `while (k < n && p(k)) k++`, with `n - k` steps left -/
def scan (p : ℕ → Bool) : ℕ → ℕ → ℕ
  | 0, k => k
  | n + 1, k => if p k then scan p n (k + 1) else k

/-- the shared units at the front that are left alone -/
def prefixLength (current next : Text) : ℕ :=
  let n := scan (fun k => current[k]? == next[k]?) (min current.length next.length) 0
  if 0 < n ∧ current[n - 1]?.any isHighSurrogate then n - 1 else n

/-- the shared units at the end that are left alone, when `front` are at the front -/
def suffixLength (current next : Text) (front : ℕ) : ℕ :=
  let n := scan (fun k => current[current.length - 1 - k]? == next[next.length - 1 - k]?)
    (min current.length next.length - front) 0
  if 0 < n ∧ current[current.length - n]?.any isLowSurrogate then n - 1 else n

def replacementOp (current next : Text) : List TextOp :=
  if current = next then []
  else
    let front : ℤ := prefixLength current next
    let back : ℤ := suffixLength current next (prefixLength current next)
    [{ index := some front
       deleteLength := some (current.length - front - back)
       insert := jsSlice next front (next.length - back) }]

inductive WriteError where
  | outOfRange (index deleteLength : Number) (length : ℕ)
  /-- NoteTooLargeError -/
  | tooLarge
  deriving DecidableEq

/-- the operation's check against the live length -/
def TextOp.inRange (op : TextOp) (length : ℕ) : Bool := match op.index, op.deleteLength with
  | some index, some deleteLength => 0 ≤ index && 0 ≤ deleteLength && index + deleteLength ≤ length
  | _, _ => false

/-- `text.delete(op.index, op.deleteLength)` and `text.insert(op.index, op.insert)` -/
def TextOp.write (op : TextOp) (text : Text) : Text :=
  splice text (op.index.getD 0).toNat (op.deleteLength.getD 0).toNat op.insert

/-- the text after the operations, or after those before the one that throws -/
def applyOps (capChars : ℕ) (text : Text) : List TextOp → Text × Option WriteError
  | [] => (text, none)
  | op :: ops =>
    if ¬ op.inRange text.length then (text, some (.outOfRange op.index op.deleteLength text.length))
    else if (capChars : ℤ) < text.length - op.deleteLength.getD 0 + op.insert.length then (text, some .tooLarge)
    else applyOps capChars (op.write text) ops

/-- the body of `setContent`'s transaction -/
def setContent (capChars : ℕ) (text content : Text) : Text × Option WriteError :=
  if capChars < content.length then (text, some .tooLarge) else applyOps capChars text (replacementOp text content)

/-! ## The scans -/

section

variable {current next : Text}

/-- where the loop ends: everything before held, and it does not hold there -/
theorem scan_spec (p : ℕ → Bool) (n k : ℕ) : k ≤ scan p n k ∧ scan p n k ≤ k + n ∧
    (∀ j, k ≤ j → j < scan p n k → p j = true) ∧ (scan p n k < k + n → p (scan p n k) = false) := by
  induction n generalizing k with
  | zero => exact ⟨le_rfl, le_rfl, fun j hj hlt => absurd hlt hj.not_gt, fun h => absurd h (lt_irrefl _)⟩
  | succ n ih =>
    unfold scan
    split
    · next hk =>
      obtain ⟨hle, hbound, hall, hstop⟩ := ih (k + 1)
      refine ⟨by omega, by omega, ?_, fun h => hstop (by omega)⟩
      intro j hj hlt
      by_cases heq : j = k
      · rw [heq]
        exact hk
      · exact hall j (by omega) hlt
    · next hk =>
      exact ⟨le_rfl, by omega, fun j hj hlt => absurd hlt hj.not_gt, fun _ => Bool.eq_false_of_not_eq_true hk⟩

/-- what both texts begin with stays, up to half a pair -/
structure Front (current next : Text) (n : ℕ) : Prop where
  le : n ≤ min current.length next.length
  same : current.take n = next.take n
  whole : ¬ Splits current n
  whole' : ¬ Splits next n
  longest : ∀ w, w <+: current → w <+: next → w.length ≤ n ∨
    w.length = n + 1 ∧ current[n]?.any isHighSurrogate = true

/-- what both texts end with behind `front` units stays, up to half a pair -/
structure Back (current next : Text) (front n : ℕ) : Prop where
  le : front + n ≤ min current.length next.length
  same : current.drop (current.length - n) = next.drop (next.length - n)
  whole : ¬ Splits current (current.length - n)
  whole' : ¬ Splits next (next.length - n)
  longest : ∀ w, w <:+ current.drop front → w <:+ next.drop front → w.length ≤ n ∨
    w.length = n + 1 ∧ current[current.length - w.length]?.any isLowSurrogate = true

theorem take_eq_of_getElem? {n : ℕ} (h : ∀ j < n, current[j]? = next[j]?) : current.take n = next.take n := by
  apply ext_getElem?
  intro i
  rw [getElem?_take, getElem?_take]
  split
  · next hi => exact h i hi
  · rfl

theorem drop_eq_of_getElem? {n : ℕ} (hle : n ≤ current.length) (hle' : n ≤ next.length)
    (h : ∀ j < n, current[current.length - 1 - j]? = next[next.length - 1 - j]?) :
    current.drop (current.length - n) = next.drop (next.length - n) := by
  apply ext_getElem?
  intro i
  rw [getElem?_drop, getElem?_drop]
  by_cases hi : i < n
  · have hsame := h (n - 1 - i) (by omega)
    have hcurrent : current.length - n + i = current.length - 1 - (n - 1 - i) := by omega
    have hnext : next.length - n + i = next.length - 1 - (n - 1 - i) := by omega
    rw [hcurrent, hnext, hsame]
  · rw [getElem?_eq_none (by omega), getElem?_eq_none (by omega)]

theorem getElem?_of_suffix {t w : Text} {front n : ℕ} (h : w <:+ t.drop front) (hn : n < w.length) :
    t[t.length - 1 - n]? = w[w.length - 1 - n]? := by
  obtain ⟨r, hr⟩ := h
  have hlen : (t.drop front).length = r.length + w.length := by rw [← hr, length_append]
  rw [length_drop] at hlen
  have hindex : t.length - 1 - n = front + (r.length + (w.length - 1 - n)) := by omega
  calc t[t.length - 1 - n]? = t[front + (r.length + (w.length - 1 - n))]? := by rw [hindex]
    _ = (t.drop front)[r.length + (w.length - 1 - n)]? := getElem?_drop.symm
    _ = (r ++ w)[r.length + (w.length - 1 - n)]? := by rw [hr]
    _ = w[w.length - 1 - n]? := by rw [getElem?_append_right (by omega), Nat.add_sub_cancel_left]

theorem front_prefixLength (current next : Text) : Front current next (prefixLength current next) := by
  obtain ⟨-, hbound, hall, hstop⟩ :=
    scan_spec (fun k => current[k]? == next[k]?) (min current.length next.length) 0
  unfold prefixLength
  dsimp only
  obtain ⟨n, hn⟩ : ∃ n, n = scan (fun k => current[k]? == next[k]?) (min current.length next.length) 0 := ⟨_, rfl⟩
  rw [← hn, zero_add] at hbound hstop
  rw [← hn] at hall ⊢
  have hsame : ∀ j < n, current[j]? = next[j]? := fun j hj => by simpa using hall j (Nat.zero_le _) hj
  have hlongest : ∀ w, w <+: current → w <+: next → w.length ≤ n := by
    intro w hw hw'
    by_contra hlt
    have hle := hw.length_le
    have hle' := hw'.length_le
    have hget : ∀ t, w <+: t → t[n]? = w[n]? := by
      intro t ht
      obtain ⟨r, rfl⟩ := ht
      exact getElem?_append_left (by omega)
    have hdiffer : (current[n]? == next[n]?) = false := hstop (by omega)
    rw [hget current hw, hget next hw'] at hdiffer
    simp at hdiffer
  split
  · next h =>
    -- the scan ended inside a pair of `current`: the high half goes with the rest
    obtain ⟨hpos, hhigh⟩ := h
    have hhigh' : next[n - 1]?.any isHighSurrogate = true := hsame (n - 1) (by omega) ▸ hhigh
    refine ⟨by omega, take_eq_of_getElem? fun j hj => hsame j (by omega), not_splits_of_high hhigh,
      not_splits_of_high hhigh', ?_⟩
    intro w hw hw'
    have hle := hlongest w hw hw'
    rcases Nat.lt_or_ge (n - 1) w.length with hlt | hge
    · exact .inr ⟨by omega, hhigh⟩
    · exact .inl hge
  · next h =>
    refine ⟨hbound, take_eq_of_getElem? hsame, ?_, ?_, fun w hw hw' => .inl (hlongest w hw hw')⟩
    · cases n with
      | zero => exact not_splits_zero
      | succ n => exact not_splits_of_not_high (by simpa using h)
    · cases n with
      | zero => exact not_splits_zero
      | succ n => exact not_splits_of_not_high (hsame n (by omega) ▸ by simpa using h)

theorem back_suffixLength {front : ℕ} (hfront : front ≤ min current.length next.length) :
    Back current next front (suffixLength current next front) := by
  obtain ⟨-, hbound, hall, hstop⟩ := scan_spec
    (fun k => current[current.length - 1 - k]? == next[next.length - 1 - k]?) (min current.length next.length - front) 0
  unfold suffixLength
  dsimp only
  obtain ⟨n, hn⟩ : ∃ n, n = scan (fun k => current[current.length - 1 - k]? == next[next.length - 1 - k]?)
    (min current.length next.length - front) 0 := ⟨_, rfl⟩
  rw [← hn, zero_add] at hbound hstop
  rw [← hn] at hall ⊢
  have hsame : ∀ j < n, current[current.length - 1 - j]? = next[next.length - 1 - j]? := fun j hj => by
    simpa using hall j (Nat.zero_le _) hj
  have hlongest : ∀ w, w <:+ current.drop front → w <:+ next.drop front → w.length ≤ n := by
    intro w hw hw'
    by_contra hlt
    have hle := hw.length_le
    have hle' := hw'.length_le
    rw [length_drop] at hle hle'
    have hdiffer : (current[current.length - 1 - n]? == next[next.length - 1 - n]?) = false := hstop (by omega)
    rw [getElem?_of_suffix hw (by omega), getElem?_of_suffix hw' (by omega)] at hdiffer
    simp at hdiffer
  have hlast : 0 < n → next[next.length - n]? = current[current.length - n]? := by
    intro hpos
    have hboth := hsame (n - 1) (by omega)
    have hcurrent : current.length - 1 - (n - 1) = current.length - n := by omega
    have hnext : next.length - 1 - (n - 1) = next.length - n := by omega
    rw [hcurrent, hnext] at hboth
    exact hboth.symm
  split
  · next h =>
    -- the scan ended inside a pair of `current`: the low half goes with the rest
    obtain ⟨hpos, hlow⟩ := h
    have hlow' : next[next.length - n]?.any isLowSurrogate = true := (hlast hpos).symm ▸ hlow
    have hcurrent : current.length - (n - 1) = current.length - n + 1 := by omega
    have hnext : next.length - (n - 1) = next.length - n + 1 := by omega
    refine ⟨by omega, drop_eq_of_getElem? (by omega) (by omega) fun j hj => hsame j (by omega), ?_, ?_, ?_⟩
    · rw [hcurrent]
      exact not_splits_of_not_high (any_not_high_of_low hlow)
    · rw [hnext]
      exact not_splits_of_not_high (any_not_high_of_low hlow')
    · intro w hw hw'
      have hle := hlongest w hw hw'
      rcases Nat.lt_or_ge (n - 1) w.length with hlt | hge
      · obtain heq : w.length = n := by omega
        exact .inr ⟨by omega, heq ▸ hlow⟩
      · exact .inl hge
  · next h =>
    refine ⟨by omega, drop_eq_of_getElem? (by omega) (by omega) hsame, ?_, ?_,
      fun w hw hw' => .inl (hlongest w hw hw')⟩
    · rcases Nat.eq_zero_or_pos n with hzero | hpos
      · exact not_splits_of_length_le (by omega)
      · exact not_splits_of_not_low (by simpa [hpos] using h)
    · rcases Nat.eq_zero_or_pos n with hzero | hpos
      · exact not_splits_of_length_le (by omega)
      · exact not_splits_of_not_low (hlast hpos ▸ by simpa [hpos] using h)

/-! ## The replacement -/

theorem jsSlice_of_le {t : Text} {a b : ℕ} : jsSlice t a b = slice t a b := by
  have hclamp : ∀ x : ℕ, (if (x : ℤ) < 0 then (t.length + (x : ℤ)).toNat else (x : ℤ).toNat) = x := by
    intro x
    rw [if_neg (by omega), Int.toNat_natCast]
  unfold jsSlice
  dsimp only
  rw [hclamp, hclamp]

/-- the two lengths of the operation are what its ends leave -/
theorem mem_replacementOp {op : TextOp} (h : op ∈ replacementOp current next) : ∃ front back : ℕ,
    op.index = some (front : ℤ) ∧ op.deleteLength = some ((current.length - front - back : ℕ) : ℤ) ∧
      op.insert = slice next front (next.length - back) ∧ Front current next front ∧ Back current next front back := by
  have hfront := front_prefixLength current next
  have hback := back_suffixLength hfront.le
  have hle := hback.le
  unfold replacementOp at h
  split at h
  · cases h
  · obtain rfl := mem_singleton.1 h
    refine ⟨_, _, rfl, ?_, ?_, hfront, hback⟩
    · exact congrArg some (by omega)
    · dsimp only
      rw [← jsSlice_of_le]
      exact congrArg _ (by omega)

/-- the piece between the ends in place of the one that was there -/
theorem splice_between {front back : ℕ} (hfront : Front current next front) (hback : Back current next front back) :
    splice current front (current.length - front - back) (slice next front (next.length - back)) = next := by
  have hle := hback.le
  have hend : front + (current.length - front - back) = current.length - back := by omega
  have htake : (next.take (next.length - back)).take front = next.take front := by
    rw [take_take, Nat.min_eq_left (by omega)]
  calc splice current front (current.length - front - back) (slice next front (next.length - back))
      = current.take front ++ slice next front (next.length - back) ++ current.drop (current.length - back) := by
        unfold splice
        rw [hend]
    _ = next.take front ++ (next.take (next.length - back)).drop front ++ next.drop (next.length - back) := by
        rw [hfront.same, hback.same]
        rfl
    _ = next.take (next.length - back) ++ next.drop (next.length - back) := by
        rw [← htake, take_append_drop]
    _ = next := take_append_drop _ _

/-- the operation is in range, and its check against the ceiling is of the new text's length -/
theorem applyOps_replacementOp (capChars : ℕ) (current next : Text) :
    applyOps capChars current (replacementOp current next) =
      if current = next ∨ next.length ≤ capChars then (next, none) else (current, some .tooLarge) := by
  by_cases heq : current = next
  · unfold replacementOp
    rw [if_pos heq, if_pos (.inl heq), heq]
    rfl
  · obtain ⟨op, hop⟩ : ∃ op, replacementOp current next = [op] := by
      unfold replacementOp
      rw [if_neg heq]
      exact ⟨_, rfl⟩
    have hmem : op ∈ replacementOp current next := hop ▸ mem_singleton_self op
    obtain ⟨front, back, hindex, hdelete, hinsert, hfront, hback⟩ := mem_replacementOp hmem
    have hle := hback.le
    have hlength : op.insert.length = next.length - back - front := by
      rw [hinsert]
      exact length_slice (by omega)
    have hrange : op.inRange current.length = true := by
      unfold TextOp.inRange
      rw [hindex, hdelete]
      simp only [Bool.and_eq_true, decide_eq_true_eq]
      omega
    have hwrite : op.write current = next := by
      unfold TextOp.write
      rw [hindex, hdelete, hinsert]
      exact splice_between hfront hback
    have hcap : (capChars : ℤ) < current.length - op.deleteLength.getD 0 + op.insert.length ↔
        ¬ next.length ≤ capChars := by
      rw [hdelete, hlength, Option.getD_some]
      omega
    rw [hop, applyOps, if_neg (by simp [hrange]), hwrite, applyOps, if_congr hcap rfl rfl]
    by_cases hfits : next.length ≤ capChars
    · rw [if_neg (by simpa using hfits), if_pos (.inr hfits)]
    · rw [if_pos hfits, if_neg (by simp [heq, hfits])]

theorem setContent_eq (capChars : ℕ) (text content : Text) : setContent capChars text content =
    if capChars < content.length then (text, some .tooLarge) else (content, none) := by
  unfold setContent
  split
  · rfl
  · next hle => rw [applyOps_replacementOp, if_pos (.inr (by omega))]

/-- operations that none throws at are all written -/
theorem applyOps_eq_none {capChars : ℕ} {text result : Text} {ops : List TextOp}
    (h : applyOps capChars text ops = (result, none)) : ops.foldl (fun text op => op.write text) text = result := by
  induction ops generalizing text with
  | nil => exact congrArg Prod.fst h
  | cons op ops ih =>
    unfold applyOps at h
    split at h
    · exact absurd (congrArg Prod.snd h) (by simp)
    · split at h
      · exact absurd (congrArg Prod.snd h) (by simp)
      · exact ih h

/-- **The replacement.** between well-formed texts the operation is in range and gives the new text. the deleted and the
inserted piece begin and end between pairs in either text (`Front.whole`, `Back.whole`), so both are well formed; what
the texts have in common at the front, and behind it at the end, stays but for at most half a pair each
(`Front.longest`, `Back.longest`). -/
theorem replacementOp_exact (current next : Text) (hcurrent : WellFormed current) (hnext : WellFormed next) :
    (∀ capChars, next.length ≤ capChars → applyOps capChars current (replacementOp current next) = (next, none)) ∧
      ∀ op ∈ replacementOp current next, ∃ front back : ℕ,
        op.index = some (front : ℤ) ∧ op.deleteLength = some (current.length - front - back : ℤ) ∧
        (op.insert.length : ℤ) = next.length - front - back ∧ WellFormed op.insert ∧
        WellFormed (slice current front (current.length - back)) ∧
        Front current next front ∧ Back current next front back := by
  refine ⟨?_, ?_⟩
  · intro capChars hle
    rw [applyOps_replacementOp, if_pos (.inr hle)]
  · intro op hop
    obtain ⟨front, back, hindex, hdelete, hinsert, hfront, hback⟩ := mem_replacementOp hop
    have hle := hback.le
    refine ⟨front, back, hindex, ?_, ?_, ?_, hcurrent.slice hfront.whole hback.whole, hfront, hback⟩
    · rw [hdelete]
      exact congrArg some (by omega)
    · rw [hinsert, length_slice (by omega)]
      omega
    · rw [hinsert]
      exact hnext.slice hfront.whole' hback.whole'

/-- two faces that share their first half: the whole pair is replaced -/
theorem faces_are_replaced_whole :
    (∀ capChars, 3 ≤ capChars →
      applyOps capChars [97, 0xd83d, 0xde00] (replacementOp [97, 0xd83d, 0xde00] [97, 0xd83d, 0xde01]) =
        ([97, 0xd83d, 0xde01], none)) ∧
      replacementOp [97, 0xd83d, 0xde00] [97, 0xd83d, 0xde01] = [⟨some 1, some 2, [0xd83d, 0xde01]⟩] :=
  ⟨(replacementOp_exact [97, 0xd83d, 0xde00] [97, 0xd83d, 0xde01] (by decide) (by decide)).1, by decide⟩

end

end Baalda.DocWriter
