/-
Base64: bytes as text, every three of them four letters of an alphabet of 64, the last four filled up with padding.

- `encode` writes; `read` reads letters and padding without a check; `decode` is the strict reader, which accepts a text
  only when it is the one `encode` writes (no letter outside the alphabet, full padding, no bits left over).

For addresses `-` and `_` stand for the last two letters, and there is no padding (`encodeUrl`). Node reads letters of
both alphabets up to the first padding and skips everything else (`decodeUrl`); `decodeUrl_encodeUrl` is its round trip.
-/
import Mathlib.Data.List.TakeWhile
import Mathlib.Tactic

namespace Base64

open List

def alphabet : List Char := "ABCDEFGHIJKLMNOPQRSTUVWXYZabcdefghijklmnopqrstuvwxyz0123456789+/".toList

def pad : Char := '='

def letter (n : ℕ) : Char := alphabet.getD n 'A'

/-- the number a letter stands for, 0 for any other character -/
def value (c : Char) : ℕ := if c ∈ alphabet then alphabet.idxOf c else 0

def encode : List UInt8 → List Char
  | [] => []
  | [a] => [letter (a.toNat / 4), letter (a.toNat % 4 * 16), pad, pad]
  | [a, b] =>
    [letter (a.toNat / 4), letter (a.toNat % 4 * 16 + b.toNat / 16), letter (b.toNat % 16 * 4), pad]
  | a :: b :: c :: rest =>
    letter (a.toNat / 4) :: letter (a.toNat % 4 * 16 + b.toNat / 16) :: letter (b.toNat % 16 * 4 + c.toNat / 64) ::
      letter (c.toNat % 64) :: encode rest

def byte₁ (a b : Char) : UInt8 := UInt8.ofNat (value a * 4 + value b / 16)

def byte₂ (b c : Char) : UInt8 := UInt8.ofNat (value b % 16 * 16 + value c / 4)

def byte₃ (c d : Char) : UInt8 := UInt8.ofNat (value c % 4 * 64 + value d)

def read : List Char → List UInt8
  | a :: b :: c :: d :: rest =>
    if rest = [] ∧ d = pad then if c = pad then [byte₁ a b] else [byte₁ a b, byte₂ b c]
    else byte₁ a b :: byte₂ b c :: byte₃ c d :: read rest
  | _ => []

def decode (s : List Char) : Option (List UInt8) := if encode (read s) = s then some (read s) else none

theorem alphabet_ok : alphabet.length = 64 ∧ (alphabet.map Char.toNat).Nodup ∧ pad ∉ alphabet ∧
    alphabet.all fun c => c.toNat < 128 := by
  rw [show alphabet = _ from String.toList_ofList]
  decide +kernel

theorem letter_eq {n : ℕ} (h : n < alphabet.length) : letter n = alphabet[n] := by
  rw [letter, getD_eq_getElem?_getD, getElem?_eq_getElem h, Option.getD_some]

theorem letter_mem (n : ℕ) (h : n < 64) : letter n ∈ alphabet :=
  letter_eq (alphabet_ok.1 ▸ h) ▸ getElem_mem _

theorem value_letter (n : ℕ) (h : n < 64) : value (letter n) = n := by
  have hn : n < alphabet.length := alphabet_ok.1 ▸ h
  rw [value, if_pos (letter_mem n h), letter_eq hn]
  exact alphabet_ok.2.1.of_map.idxOf_getElem n hn

theorem letter_ne_pad {n : ℕ} (h : n < 64) : letter n ≠ pad := by
  intro heq
  apply alphabet_ok.2.2.1
  rw [← heq]
  exact letter_mem n h

section Bytes

variable (a b c : UInt8)

theorem byte₁_letter {x : ℕ} (hx : x / 16 = a.toNat % 4) (hlt : x < 64) :
    byte₁ (letter (a.toNat / 4)) (letter x) = a := by
  have ha := a.toNat_lt
  rw [byte₁, value_letter _ (by omega), value_letter _ hlt, hx]
  have heq : a.toNat / 4 * 4 + a.toNat % 4 = a.toNat := by omega
  rw [heq, UInt8.ofNat_toNat]

theorem byte₂_letter {x y : ℕ} (hx : x % 16 = b.toNat / 16) (hy : y / 4 = b.toNat % 16) (hxlt : x < 64)
    (hylt : y < 64) : byte₂ (letter x) (letter y) = b := by
  rw [byte₂, value_letter _ hxlt, value_letter _ hylt, hx, hy]
  have heq : b.toNat / 16 * 16 + b.toNat % 16 = b.toNat := by omega
  rw [heq, UInt8.ofNat_toNat]

theorem byte₃_letter {y : ℕ} (hy : y % 4 = c.toNat / 64) (hylt : y < 64) :
    byte₃ (letter y) (letter (c.toNat % 64)) = c := by
  rw [byte₃, value_letter _ hylt, value_letter _ (by omega), hy]
  have heq : c.toNat / 64 * 64 + c.toNat % 64 = c.toNat := by omega
  rw [heq, UInt8.ofNat_toNat]

end Bytes

theorem read_encode (bytes : List UInt8) : read (encode bytes) = bytes := by
  induction bytes using encode.induct with
  | case1 => rfl
  | case2 a =>
    rw [encode, read, if_pos ⟨rfl, rfl⟩, if_pos rfl, byte₁_letter a (by omega) (by omega)]
  | case3 a b =>
    have hb := b.toNat_lt
    rw [encode, read, if_pos ⟨rfl, rfl⟩, if_neg (letter_ne_pad (by omega)), byte₁_letter a (by omega) (by omega),
      byte₂_letter b (by omega) (by omega) (by omega) (by omega)]
  | case4 a b c rest ih =>
    have hb := b.toNat_lt
    have hc := c.toNat_lt
    have hlast : ¬ (encode rest = [] ∧ letter (c.toNat % 64) = pad) := fun h => letter_ne_pad (by omega) h.2
    rw [encode, read, if_neg hlast, ih, byte₁_letter a (by omega) (by omega),
      byte₂_letter b (by omega) (by omega) (by omega) (by omega), byte₃_letter c (by omega) (by omega)]

/-- **Strict reading.** The strict reader accepts exactly what is written, and reads it back. -/
theorem decode_eq_some {s : List Char} {bytes : List UInt8} : decode s = some bytes ↔ s = encode bytes := by
  rw [decode]
  constructor
  · intro h
    split at h
    next heq => rw [← Option.some.inj h, heq]
    next => cases h
  · rintro rfl
    rw [read_encode, if_pos rfl]

theorem length_encode (bytes : List UInt8) : (encode bytes).length = 4 * ((bytes.length + 2) / 3) := by
  induction bytes using encode.induct with
  | case1 => rfl
  | case2 a | case3 a b => simp [encode]
  | case4 a b c rest ih =>
    simp only [encode, length_cons, ih]
    omega

/-- what stands after the letters: as many paddings as the last three bytes lack -/
theorem dropWhile_encode (bytes : List UInt8) :
    (encode bytes).dropWhile (· ∈ alphabet) = replicate ((3 - bytes.length % 3) % 3) pad := by
  induction bytes using encode.induct with
  | case1 => rfl
  | case2 a =>
    have ha := a.toNat_lt
    have h₁ := letter_mem (a.toNat / 4) (by omega)
    have h₂ := letter_mem (a.toNat % 4 * 16) (by omega)
    simp [encode, h₁, h₂, alphabet_ok.2.2.1, replicate]
  | case3 a b =>
    have ha := a.toNat_lt
    have hb := b.toNat_lt
    have h₁ := letter_mem (a.toNat / 4) (by omega)
    have h₂ := letter_mem (a.toNat % 4 * 16 + b.toNat / 16) (by omega)
    have h₃ := letter_mem (b.toNat % 16 * 4) (by omega)
    simp [encode, h₁, h₂, h₃, alphabet_ok.2.2.1]
  | case4 a b c rest ih =>
    have ha := a.toNat_lt
    have hb := b.toNat_lt
    have hc := c.toNat_lt
    have h₁ := letter_mem (a.toNat / 4) (by omega)
    have h₂ := letter_mem (a.toNat % 4 * 16 + b.toNat / 16) (by omega)
    have h₃ := letter_mem (b.toNat % 16 * 4 + c.toNat / 64) (by omega)
    have h₄ := letter_mem (c.toNat % 64) (by omega)
    have hlen : (rest.length + 1 + 1 + 1) % 3 = rest.length % 3 := by omega
    simp [encode, h₁, h₂, h₃, h₄, ih, hlen]

/-- letters, then the padding -/
theorem encode_eq_append (bytes : List UInt8) : ∃ letters : List Char, (∀ c ∈ letters, c ∈ alphabet) ∧
    encode bytes = letters ++ replicate ((3 - bytes.length % 3) % 3) pad := by
  refine ⟨(encode bytes).takeWhile (· ∈ alphabet), ?_, ?_⟩
  · intro c hc
    exact of_decide_eq_true (all_eq_true.1 all_takeWhile c hc)
  · rw [← dropWhile_encode, takeWhile_append_dropWhile]

theorem encode_ascii {bytes : List UInt8} {c : Char} (h : c ∈ encode bytes) : c.toNat < 128 := by
  obtain ⟨letters, hletters, heq⟩ := encode_eq_append bytes
  rw [heq] at h
  rcases mem_append.1 h with h | h
  · exact of_decide_eq_true (all_eq_true.1 alphabet_ok.2.2.2 c (hletters c h))
  · rw [(mem_replicate.1 h).2]
    decide

/-! ## For addresses -/

def urlUnit (c : Char) : UInt16 := if c = '+' then 45 else if c = '/' then 95 else UInt16.ofNat c.toNat

/-- a letter of either alphabet -/
def urlLetter (u : UInt16) : Option Char :=
  if u = 45 then some '+'
  else if u = 95 then some '/'
  else if Char.ofNat u.toNat ∈ alphabet then some (Char.ofNat u.toNat)
  else none

def encodeUrl (bytes : List UInt8) : List UInt16 := ((encode bytes).takeWhile (· ∈ alphabet)).map urlUnit

/-- letters in fours: padding for the last ones, unless a single one is left over -/
def fill (letters : List Char) : List Char :=
  if letters.length % 4 = 1 then letters.dropLast else letters ++ replicate ((4 - letters.length % 4) % 4) pad

def decodeUrl (t : List UInt16) : List UInt8 := read (fill ((t.takeWhile (· ≠ 61)).filterMap urlLetter))

theorem urlUnit_ok {c : Char} (h : c ∈ alphabet) : urlLetter (urlUnit c) = some c ∧ urlUnit c ≠ 61 := by
  have hall : alphabet.all fun c => urlLetter (urlUnit c) = some c ∧ urlUnit c ≠ 61 := by
    unfold urlLetter
    rw [show alphabet = _ from String.toList_ofList]
    decide +kernel
  exact of_decide_eq_true (all_eq_true.1 hall c h)

theorem filterMap_urlUnit {letters : List Char} (h : ∀ c ∈ letters, c ∈ alphabet) :
    (letters.map urlUnit).filterMap urlLetter = letters := by
  induction letters with
  | nil => rfl
  | cons c letters ih =>
    rw [map_cons, filterMap_cons, (urlUnit_ok (h c mem_cons_self)).1,
      ih fun d hd => h d (mem_cons_of_mem c hd)]

/-- the letters without their padding are filled up as they were -/
theorem fill_letters (bytes : List UInt8) : fill ((encode bytes).takeWhile (· ∈ alphabet)) = encode bytes := by
  have hsplit : (encode bytes).takeWhile (· ∈ alphabet) ++ replicate ((3 - bytes.length % 3) % 3) pad =
      encode bytes := by rw [← dropWhile_encode, takeWhile_append_dropWhile]
  have hlength : ((encode bytes).takeWhile (· ∈ alphabet)).length + (3 - bytes.length % 3) % 3 =
      4 * ((bytes.length + 2) / 3) := by
    rw [← length_encode, ← congrArg length hsplit, length_append, length_replicate]
  have hpads : (4 - ((encode bytes).takeWhile (· ∈ alphabet)).length % 4) % 4 = (3 - bytes.length % 3) % 3 := by omega
  rw [fill, if_neg (by omega), hpads, hsplit]

theorem decodeUrl_encodeUrl (bytes : List UInt8) : decodeUrl (encodeUrl bytes) = bytes := by
  have hletters : ∀ c ∈ (encode bytes).takeWhile (· ∈ alphabet), c ∈ alphabet := fun c hc =>
    of_decide_eq_true (all_eq_true.1 all_takeWhile c hc)
  have hall : (encodeUrl bytes).takeWhile (· ≠ 61) = encodeUrl bytes := by
    refine takeWhile_eq_self_iff.2 fun u hu => ?_
    obtain ⟨c, hc, rfl⟩ := mem_map.1 hu
    exact decide_eq_true (urlUnit_ok (hletters c hc)).2
  rw [decodeUrl, hall, encodeUrl, filterMap_urlUnit hletters, fill_letters, read_encode]

end Base64
