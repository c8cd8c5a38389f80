/-
SQL's `LIKE … ESCAPE '\'`: `%` stands for any text, `_` for any character, and a backslash takes the next character as
it is. A text whose special characters are escaped matches itself and nothing else (`like_escape`), so with `/%` after
it, it matches exactly what begins with the text and a slash (`like_below`), and between two `%`, exactly what contains
the text (`like_contains`).
-/
import Mathlib.Tactic

namespace Like

open List

/-- a pattern that ends in a lone backslash is an error, and matches nothing here -/
def like : List Char → List Char → Bool
  | [], text => text.isEmpty
  | c :: pattern, text =>
    if c = '%' then text.tails.any fun rest => like pattern rest
    else if c = '_' then !text.isEmpty && like pattern text.tail
    else if c = '\\' then match pattern with
      | [] => false
      | literal :: pattern => text.head? = some literal && like pattern text.tail
    else text.head? = some c && like pattern text.tail

def isSpecial (c : Char) : Bool := c = '\\' || c = '%' || c = '_'

/-- `s.replace(/[\\%_]/g, (ch) => "\\" + ch)` -/
def likeEscape (s : List Char) : List Char := s.flatMap fun c => if isSpecial c then ['\\', c] else [c]

theorem like_plain {c : Char} (h : isSpecial c = false) (pattern text : List Char) :
    like (c :: pattern) text = (text.head? = some c && like pattern text.tail) := by
  have hplain : c ≠ '\\' ∧ c ≠ '%' ∧ c ≠ '_' := by simpa [isSpecial, and_assoc] using h
  rw [like.eq_def]
  simp [hplain]

theorem like_literal (c : Char) (pattern text : List Char) :
    like ('\\' :: c :: pattern) text = (text.head? = some c && like pattern text.tail) := by
  rw [like, if_neg (by decide), if_neg (by decide), if_pos rfl]

/-- a character and its escape match the same -/
theorem like_escape_cons (c : Char) (pattern text : List Char) :
    like (likeEscape [c] ++ pattern) text = (text.head? = some c && like pattern text.tail) := by
  by_cases hspecial : isSpecial c = true
  · have hescape : likeEscape [c] ++ pattern = '\\' :: c :: pattern := by simp [likeEscape, hspecial]
    rw [hescape, like_literal]
  · have hescape : likeEscape [c] ++ pattern = c :: pattern := by simp [likeEscape, hspecial]
    rw [hescape, like_plain (by simpa using hspecial)]

/-- **Escaping.** An escaped text in front of a pattern matches what begins with the text and goes on as the pattern. -/
theorem like_escape (s pattern text : List Char) :
    like (likeEscape s ++ pattern) text = true ↔ ∃ rest, text = s ++ rest ∧ like pattern rest = true := by
  induction s generalizing text with
  | nil => simp [likeEscape]
  | cons c s ih =>
    have hcons : likeEscape (c :: s) ++ pattern = likeEscape [c] ++ (likeEscape s ++ pattern) := by
      simp [likeEscape]
    rw [hcons, like_escape_cons, Bool.and_eq_true, decide_eq_true_eq, ih]
    constructor
    · rintro ⟨hhead, rest, htail, hrest⟩
      refine ⟨rest, ?_, hrest⟩
      rw [cons_append, ← htail]
      exact (cons_head?_tail hhead).symm
    · rintro ⟨rest, rfl, hrest⟩
      exact ⟨rfl, rest, rfl, hrest⟩

theorem like_any (text : List Char) : like ['%'] text = true := by
  rw [like, if_pos rfl, any_eq_true]
  exact ⟨[], (mem_tails _ _).2 nil_suffix, rfl⟩

/-- `LIKE escaped || '/%'` -/
theorem like_below (s text : List Char) :
    like (likeEscape s ++ ['/', '%']) text = true ↔ s ++ ['/'] <+: text := by
  have hslash : ∀ rest : List Char, like ['/', '%'] rest = true ↔ ['/'] <+: rest := by
    intro rest
    rw [like_plain (by decide), like_any, Bool.and_true, decide_eq_true_eq]
    cases rest with
    | nil => simp
    | cons c rest => simp [eq_comm]
  rw [like_escape]
  constructor
  · rintro ⟨rest, rfl, hrest⟩
    exact (prefix_append_right_inj s).2 ((hslash rest).1 hrest)
  · rintro ⟨rest, rfl⟩
    refine ⟨'/' :: rest, by simp, (hslash _).2 ⟨rest, rfl⟩⟩

/-- `LIKE '%' || escaped || '%'` -/
theorem like_contains (s text : List Char) :
    like ('%' :: likeEscape s ++ ['%']) text = true ↔ s <:+: text := by
  rw [cons_append, like.eq_def]
  simp only [if_true, any_eq_true]
  constructor
  · intro ⟨rest, hrest, hlike⟩
    obtain ⟨tail, rfl, -⟩ := (like_escape ..).1 hlike
    exact (prefix_append s tail).isInfix.trans ((mem_tails _ _).1 hrest).isInfix
  · intro hin
    obtain ⟨pre, tail, h⟩ := hin
    refine ⟨s ++ tail, (mem_tails _ _).2 ⟨pre, ?_⟩, (like_escape ..).2 ⟨tail, rfl, like_any tail⟩⟩
    rw [← h, append_assoc]

end Like
