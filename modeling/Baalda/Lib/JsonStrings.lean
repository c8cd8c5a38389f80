/-
Strings as JSON writes and reads them, and the arrays of two strings. A text is the list of its UTF-16 code units.

- `quote`: an escape for every unit that needs one, surrogates without a partner among them;
- `string`: the rest of a string up to its closing quote, every escape of the grammar;
- `writePair`, `readPair`: `JSON.stringify([a, b])`, and `JSON.parse` of a text where its value is such an array (white
  space between the tokens is allowed, any other value is refused).

`readPair_writePair`: what was written is read back. `wellFormed_writePair`: it has no lone surrogate, so that UTF-8
keeps it.
-/
import Baalda.Lib.Utf8

namespace JsonStrings

open Utf8 List Option

/-! ## Writing -/

/-- a lower-case hexadecimal digit -/
def hexDigit (n : ℕ) : UInt16 := UInt16.ofNat (if n < 10 then 48 + n else 87 + n)

def unicodeEscape (u : UInt16) : List UInt16 :=
  [92, 117, hexDigit (u.toNat / 4096), hexDigit (u.toNat / 256 % 16), hexDigit (u.toNat / 16 % 16),
    hexDigit (u.toNat % 16)]

/-- the letter of a unit that has a short escape -/
def shortEscape (u : UInt16) : Option UInt16 :=
  if u = 34 then some 34
  else if u = 92 then some 92
  else if u = 8 then some 98
  else if u = 12 then some 102
  else if u = 10 then some 110
  else if u = 13 then some 114
  else if u = 9 then some 116
  else none

/-- a unit of a string that is not half of a pair -/
def quoteUnit (u : UInt16) : List UInt16 := match shortEscape u with
  | some e => [92, e]
  | none => if u.toNat < 32 || isHigh u || isLow u then unicodeEscape u else [u]

def quoteUnits : List UInt16 → List UInt16
  | [] => []
  | [u] => quoteUnit u
  | u :: v :: t => if isHigh u && isLow v then u :: v :: quoteUnits t else quoteUnit u ++ quoteUnits (v :: t)

def quote (s : List UInt16) : List UInt16 := 34 :: (quoteUnits s ++ [34])

def writePair (p : List UInt16 × List UInt16) : List UInt16 := 91 :: (quote p.1 ++ 44 :: (quote p.2 ++ [93]))

/-! ## Reading -/

def isSpace (u : UInt16) : Bool := u = 32 || u = 9 || u = 10 || u = 13

def skipSpace (t : List UInt16) : List UInt16 := t.dropWhile isSpace

def hexValue (u : UInt16) : Option ℕ :=
  if 48 ≤ u.toNat ∧ u.toNat ≤ 57 then some (u.toNat - 48)
  else if 97 ≤ u.toNat ∧ u.toNat ≤ 102 then some (u.toNat - 87)
  else if 65 ≤ u.toNat ∧ u.toNat ≤ 70 then some (u.toNat - 55)
  else none

def hexUnit (a b c d : UInt16) : Option UInt16 :=
  (hexValue a).bind fun a => (hexValue b).bind fun b => (hexValue c).bind fun c =>
    (hexValue d).map fun d => UInt16.ofNat (a * 4096 + b * 256 + c * 16 + d)

/-- the unit that a letter after a backslash stands for -/
def escaped (e : UInt16) : Option UInt16 :=
  if e = 34 then some 34
  else if e = 92 then some 92
  else if e = 47 then some 47
  else if e = 98 then some 8
  else if e = 102 then some 12
  else if e = 110 then some 10
  else if e = 114 then some 13
  else if e = 116 then some 9
  else none

/-- a unit read in front of what is read after it -/
def push (u : UInt16) (p : List UInt16 × List UInt16) : List UInt16 × List UInt16 := (u :: p.1, p.2)

/-- the rest of a string and what follows its closing quote -/
def string : List UInt16 → Option (List UInt16 × List UInt16)
  | [] => none
  | u :: t =>
    if u = 34 then some ([], t)
    else if u = 92 then
      match t with
      | [] => none
      | e :: t =>
        if e = 117 then
          match t with
          | a :: b :: c :: d :: t => (hexUnit a b c d).bind fun x => (string t).map (push x)
          | _ => none
        else (escaped e).bind fun x => (string t).map (push x)
    else if u.toNat < 32 then none
    else (string t).map (push u)

/-- what follows the unit `u`, if it is the next token -/
def expect (u : UInt16) (t : List UInt16) : Option (List UInt16) := match skipSpace t with
  | [] => none
  | v :: t => if v = u then some t else none

/-- a string, and what follows it -/
def token (t : List UInt16) : Option (List UInt16 × List UInt16) := (expect 34 t).bind string

def readPair (t : List UInt16) : Option (List UInt16 × List UInt16) :=
  (expect 91 t).bind fun t => (token t).bind fun a => (expect 44 a.2).bind fun t => (token t).bind fun b =>
    (expect 93 b.2).bind fun t => if skipSpace t = [] then some (a.1, b.1) else none

/-! ## What was written is read back -/

theorem hexValue_hexDigit : ∀ n < 16, hexValue (hexDigit n) = some n := by decide

theorem hexUnit_digits (u : UInt16) : hexUnit (hexDigit (u.toNat / 4096)) (hexDigit (u.toNat / 256 % 16))
    (hexDigit (u.toNat / 16 % 16)) (hexDigit (u.toNat % 16)) = some u := by
  have hlt := u.toNat_lt
  rw [hexUnit, hexValue_hexDigit _ (by omega), hexValue_hexDigit _ (by omega), hexValue_hexDigit _ (by omega),
    hexValue_hexDigit _ (by omega)]
  have hsum : u.toNat / 4096 * 4096 + u.toNat / 256 % 16 * 256 + u.toNat / 16 % 16 * 16 + u.toNat % 16 = u.toNat := by
    omega
  simp only [bind_some, map_some, hsum, UInt16.ofNat_toNat]

variable {u : UInt16}

/-- a short escape is read as its unit, and is not the escape of a code -/
theorem escaped_shortEscape {e : UInt16} (h : shortEscape u = some e) : e ≠ 117 ∧ escaped e = some u := by
  unfold shortEscape at h
  split_ifs at h with h1 h2 h3 h4 h5 h6 h7 <;> cases h
  · exact ⟨by decide, by rw [h1]; rfl⟩
  · exact ⟨by decide, by rw [h2]; rfl⟩
  · exact ⟨by decide, by rw [h3]; rfl⟩
  · exact ⟨by decide, by rw [h4]; rfl⟩
  · exact ⟨by decide, by rw [h5]; rfl⟩
  · exact ⟨by decide, by rw [h6]; rfl⟩
  · exact ⟨by decide, by rw [h7]; rfl⟩

theorem ne_of_shortEscape (h : shortEscape u = none) : u ≠ 34 ∧ u ≠ 92 := by
  refine ⟨?_, ?_⟩
  · intro heq
    rw [heq] at h
    exact absurd h (by decide)
  · intro heq
    rw [heq] at h
    exact absurd h (by decide)

theorem string_quote (t : List UInt16) : string (34 :: t) = some ([], t) := by
  rw [string.eq_def]
  exact if_pos rfl

theorem string_escape {e : UInt16} (h : e ≠ 117) (t : List UInt16) :
    string (92 :: e :: t) = (escaped e).bind fun x => (string t).map (push x) := by
  rw [string.eq_def]
  simp [h]

theorem string_code (a b c d : UInt16) (t : List UInt16) :
    string (92 :: 117 :: a :: b :: c :: d :: t) = (hexUnit a b c d).bind fun x => (string t).map (push x) := by
  rw [string.eq_def]
  simp

/-- a unit that stands for itself -/
theorem string_plain (hquote : u ≠ 34) (hescape : u ≠ 92) (hcontrol : ¬ u.toNat < 32) (t : List UInt16) :
    string (u :: t) = (string t).map (push u) := by
  rw [string.eq_def]
  simp only [if_neg hquote, if_neg hescape, if_neg hcontrol]

theorem string_surrogate (h : 0xD800 ≤ u.toNat) (t : List UInt16) : string (u :: t) = (string t).map (push u) := by
  refine string_plain ?_ ?_ (by omega) t
  · intro heq
    rw [heq] at h
    exact absurd h (by decide)
  · intro heq
    rw [heq] at h
    exact absurd h (by decide)

theorem string_quoteUnit (u : UInt16) (t : List UInt16) : string (quoteUnit u ++ t) = (string t).map (push u) := by
  unfold quoteUnit
  cases hshort : shortEscape u with
  | some e =>
    obtain ⟨hcode, hescaped⟩ := escaped_shortEscape hshort
    simp only [cons_append, nil_append]
    rw [string_escape hcode, hescaped, bind_some]
  | none =>
    obtain ⟨hquote, hescape⟩ := ne_of_shortEscape hshort
    dsimp only
    split
    · simp only [unicodeEscape, cons_append, nil_append]
      rw [string_code, hexUnit_digits, bind_some]
    · next hplain =>
      simp only [Bool.or_eq_true, decide_eq_true_eq, not_or] at hplain
      exact string_plain hquote hescape hplain.1.1 t

theorem string_quoteUnits (s t : List UInt16) : string (quoteUnits s ++ 34 :: t) = some (s, t) := by
  induction s using quoteUnits.induct with
  | case1 => exact string_quote t
  | case2 u =>
    rw [quoteUnits, string_quoteUnit, string_quote]
    rfl
  | case3 u v s hpair ih =>
    simp only [isHigh, isLow, Bool.and_eq_true, decide_eq_true_eq] at hpair
    rw [quoteUnits, if_pos (by simpa [isHigh, isLow] using hpair), cons_append, cons_append,
      string_surrogate hpair.1.1, string_surrogate (by omega), ih]
    rfl
  | case4 u v s hpair ih =>
    rw [quoteUnits, if_neg hpair, append_assoc, string_quoteUnit, ih]
    rfl

theorem expect_cons (h : isSpace u = false) (t : List UInt16) : expect u (u :: t) = some t := by
  rw [expect, skipSpace, dropWhile_cons_of_neg (by rw [h]; decide)]
  exact if_pos rfl

theorem token_quote (s t : List UInt16) : token (quote s ++ t) = some (s, t) := by
  rw [token, quote, cons_append, append_assoc, expect_cons (by decide), bind_some]
  exact string_quoteUnits s t

/-- **Round trip.** Two strings are read back from the array of them. -/
theorem readPair_writePair (p : List UInt16 × List UInt16) : readPair (writePair p) = some p := by
  rw [readPair, writePair, expect_cons (by decide), bind_some, token_quote, bind_some,
    expect_cons (by decide), bind_some, token_quote, bind_some, expect_cons (by decide), bind_some]
  rfl

/-! ## No lone surrogate is written -/

theorem hexDigit_lt : ∀ n < 16, (hexDigit n).toNat < 0xD800 := by decide

theorem unicodeEscape_lt (u : UInt16) : ∀ v ∈ unicodeEscape u, v.toNat < 0xD800 := by
  have hlt := u.toNat_lt
  have h₁ := hexDigit_lt (u.toNat / 4096) (by omega)
  have h₂ := hexDigit_lt (u.toNat / 256 % 16) (by omega)
  have h₃ := hexDigit_lt (u.toNat / 16 % 16) (by omega)
  have h₄ := hexDigit_lt (u.toNat % 16) (by omega)
  simp [unicodeEscape, h₁, h₂, h₃, h₄]

theorem shortEscape_lt {e : UInt16} (h : shortEscape u = some e) : e.toNat < 0xD800 := by
  unfold shortEscape at h
  split_ifs at h <;> obtain rfl := some.inj h <;> decide

theorem wellFormed_quoteUnit (u : UInt16) : WellFormed (quoteUnit u) := by
  unfold quoteUnit
  cases hshort : shortEscape u with
  | some e =>
    refine .of_lt ?_
    simp [shortEscape_lt hshort]
  | none =>
    dsimp only
    split
    · exact .of_lt (unicodeEscape_lt u)
    · next hplain =>
      simp only [Bool.or_eq_true, not_or, Bool.not_eq_true] at hplain
      exact .unit hplain.1.2 hplain.2 .nil

theorem wellFormed_quoteUnits (s : List UInt16) : WellFormed (quoteUnits s) := by
  induction s using quoteUnits.induct with
  | case1 => exact .nil
  | case2 u => exact wellFormed_quoteUnit u
  | case3 u v s hpair ih =>
    rw [quoteUnits, if_pos hpair]
    rw [Bool.and_eq_true] at hpair
    exact .pair hpair.1 hpair.2 ih
  | case4 u v s hpair ih =>
    rw [quoteUnits, if_neg hpair]
    exact (wellFormed_quoteUnit u).append ih

theorem wellFormed_quote (s : List UInt16) : WellFormed (quote s) :=
  .unit (by decide) (by decide) ((wellFormed_quoteUnits s).append (.unit (by decide) (by decide) .nil))

theorem wellFormed_writePair (p : List UInt16 × List UInt16) : WellFormed (writePair p) := by
  have htail : WellFormed (quote p.2 ++ [93]) := (wellFormed_quote p.2).append (.unit (by decide) (by decide) .nil)
  exact .unit (by decide) (by decide) ((wellFormed_quote p.1).append (.unit (by decide) (by decide) htail))

end JsonStrings
