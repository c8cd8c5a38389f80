/-
The words of a search (`index/search-tokens.ts`, `tokenize` in index/embedder.ts, `legacySubstringCount` in
index/indexer.ts).

A stored token set holds the words of a text, the longest runs of `[a-z0-9_]` of its lower case, each once and with
spaces between. `token_sets_count`: a word of a query is a substring of the set exactly when it is one of the lowercased
text, so that counting in the set and counting in the text agree, for one text and for a file's path and body together.
-/
import Baalda.Lib.Runs
import Mathlib.Tactic

namespace Baalda.SearchTokens

open List

abbrev Text := List Char

local instance : LawfulBEq Text := inferInstance

/-- `text.includes(word)` -/
def includes (text word : Text) : Bool := decide (word <:+: text)

/-- `parts.join(" ")` -/
def join (parts : List Text) : Text := [' '].intercalate parts

/-! ## Words -/

/-- `toLowerCase` of the language; a space is not changed and separates what is around it -/
structure LowerCase where
  toLowerCase : Text → Text
  space : ∀ a b, toLowerCase (a ++ ' ' :: b) = toLowerCase a ++ ' ' :: toLowerCase b

/-- `[a-z0-9_]` -/
def isWordChar (c : Char) : Bool := ('a' ≤ c && c ≤ 'z') || ('0' ≤ c && c ≤ '9') || c = '_'

structure IsWord (t : Text) : Prop where
  nonempty : t ≠ []
  chars : ∀ c ∈ t, isWordChar c = true

theorem IsWord.space_notMem {t : Text} (h : IsWord t) : ' ' ∉ t := fun hmem => absurd (h.chars ' ' hmem) (by decide)

section Tokens

variable (S : LowerCase)

def tokenize (text : Text) : List Text :=
  ((S.toLowerCase text).splitOnP fun c => !isWordChar c).filter (· ≠ [])

/-- a character whose lower case may differ from the database's -/
def unsafeLower (c : Char) : Bool :=
  c.val = 0x130 || c.val = 0x212a || (0x80 ≤ c.val && (S.toLowerCase [c]).any isWordChar)

def hasUnsafeLowercase (text : Text) : Bool := text.any fun c => 0x80 ≤ c.val && unsafeLower S c

/-- the words that are new, up to `max` characters -/
def collect (max : ℕ) : List Text → List Text → ℕ → Option (List Text)
  | [], parts, _ => some parts
  | t :: ts, parts, len =>
    if t ∈ parts then collect max ts parts len
    else
      let len := if parts = [] then t.length else len + 1 + t.length
      if max < len then none else collect max ts (parts ++ [t]) len

def searchTokenSet (max : ℕ) (text : Text) : Option Text :=
  if hasUnsafeLowercase S text then none else (collect max (tokenize S text) [] 0).map join

def searchTokensMax : ℕ := 64 * 1024

def sealedTokensMax : ℕ := 1024 * 1024

def sealedTokenSet (text : Text) : Option Text := searchTokenSet S sealedTokensMax text

def keywordMatchCount (qTokens : List Text) (tokenSet : Text) : ℕ := qTokens.countP (includes tokenSet)

/-- the rule before there were token sets -/
def legacySubstringCount (qTokens : List Text) (text : Text) : ℕ := qTokens.countP (includes (S.toLowerCase text))

variable {S}

variable {text : Text}

theorem isWord_of_tokenize {t : Text} (h : t ∈ tokenize S text) : IsWord t := by
  obtain ⟨hpiece, hne⟩ := mem_filter.mp h
  refine ⟨of_decide_eq_true hne, fun c hc => ?_⟩
  simpa using Runs.not_sep_of_piece hpiece c hc

variable {q : Text}

theorem includes_lower_iff (hq : IsWord q) :
    includes (S.toLowerCase text) q = true ↔ ∃ t ∈ tokenize S text, q <:+: t := by
  have hchars : ∀ c ∈ q, (!isWordChar c) = false := fun c hc => by simp [hq.chars c hc]
  unfold includes tokenize
  rw [decide_eq_true_iff, Runs.infix_iff_piece hchars]
  constructor
  · intro h
    obtain ⟨t, ht, hin⟩ := h
    refine ⟨t, mem_filter.mpr ⟨ht, decide_eq_true ?_⟩, hin⟩
    rintro rfl
    exact hq.nonempty (infix_nil.mp hin)
  · intro h
    obtain ⟨t, ht, hin⟩ := h
    exact ⟨t, (mem_filter.mp ht).1, hin⟩

variable {parts : List Text}

theorem includes_join_iff (hq : IsWord q) : includes (join parts) q = true ↔ ∃ t ∈ parts, q <:+: t := by
  unfold includes join
  rw [decide_eq_true_iff, Runs.infix_intercalate hq.space_notMem hq.nonempty]

theorem includes_append {a b : Text} (hq : IsWord q) :
    includes (a ++ ' ' :: b) q = (includes a q || includes b q) := by
  unfold includes
  rw [← Bool.decide_or, decide_eq_decide]
  exact Runs.infix_append_sep hq.space_notMem a b

variable {max : ℕ}

/-- what is collected is what was there, and the words that came -/
theorem mem_collect {ts result : List Text} {len : ℕ} (h : collect max ts parts len = some result) (t : Text) :
    t ∈ result ↔ t ∈ parts ∨ t ∈ ts := by
  induction ts generalizing parts len with
  | nil =>
    cases h
    simp
  | cons x ts ih =>
    unfold collect at h
    split at h
    · next hseen =>
      rw [ih h, mem_cons]
      constructor
      · exact fun hor => hor.imp_right .inr
      · intro hor
        rcases hor with hpart | rfl | hrest
        · exact .inl hpart
        · exact .inl hseen
        · exact .inr hrest
    · generalize (if parts = [] then x.length else len + 1 + x.length) = nextLen at h
      dsimp only at h
      split at h
      · cases h
      · rw [ih h, mem_append, mem_singleton, mem_cons, or_assoc]

theorem join_snoc (hne : parts ≠ []) (t : Text) : join (parts ++ [t]) = join parts ++ ' ' :: t := by
  unfold join
  induction parts with
  | nil => exact absurd rfl hne
  | cons p parts ih =>
    cases parts with
    | nil => rw [singleton_append, intercalate_cons_cons]; simp
    | cons p' parts =>
      rw [cons_append, cons_append, intercalate_cons_cons, ← cons_append,
        ih (cons_ne_nil _ _), intercalate_cons_cons]
      simp

/-- what is collected stays within the bound -/
theorem length_collect {ts result : List Text} {len : ℕ} (h : collect max ts parts len = some result)
    (hlen : (join parts).length = len) (hmax : len ≤ max) : (join result).length ≤ max := by
  induction ts generalizing parts len with
  | nil =>
    cases h
    omega
  | cons x ts ih =>
    unfold collect at h
    split at h
    · exact ih h hlen hmax
    · have hnext : (join (parts ++ [x])).length = if parts = [] then x.length else len + 1 + x.length := by
        split
        next hnil => rw [hnil, join, nil_append, intercalate_singleton]
        next hne =>
          rw [join_snoc hne, length_append, length_cons]
          omega
      generalize (if parts = [] then x.length else len + 1 + x.length) = nextLen at h hnext
      dsimp only at h
      split at h
      · cases h
      next hbound => exact ih h hnext (not_lt.1 hbound)

variable {tokenSet : Text}

/-- a stored set is words with spaces between, within the bound -/
theorem words_of_searchTokenSet (h : searchTokenSet S max text = some tokenSet) :
    tokenSet.length ≤ max ∧ ∃ parts, tokenSet = join parts ∧ ∀ t ∈ parts, IsWord t := by
  unfold searchTokenSet at h
  split at h
  · cases h
  obtain ⟨parts, hcollect, rfl⟩ := Option.map_eq_some_iff.mp h
  refine ⟨length_collect hcollect rfl (Nat.zero_le _), parts, rfl, fun t ht => ?_⟩
  rcases (mem_collect hcollect t).1 ht with hnone | hword
  · exact absurd hnone not_mem_nil
  · exact isWord_of_tokenize hword

/-- the words of a set are the words of the text -/
theorem includes_searchTokenSet (h : searchTokenSet S max text = some tokenSet) (hq : IsWord q) :
    includes tokenSet q = includes (S.toLowerCase text) q := by
  unfold searchTokenSet at h
  split at h
  · cases h
  obtain ⟨parts, hcollect, rfl⟩ := Option.map_eq_some_iff.mp h
  have hparts : ∀ t, t ∈ parts ↔ t ∈ tokenize S text := fun t => by simpa using mem_collect hcollect t
  rw [Bool.eq_iff_iff, includes_join_iff hq, includes_lower_iff hq]
  simp only [hparts]

/-- **A token set answers for its text.** -/
theorem keywordMatchCount_searchTokenSet (h : searchTokenSet S max text = some tokenSet) {qTokens : List Text}
    (hq : ∀ q ∈ qTokens, IsWord q) : keywordMatchCount qTokens tokenSet = legacySubstringCount S qTokens text := by
  apply countP_congr
  intro q hmem
  rw [includes_searchTokenSet h (hq q hmem)]

/-- and the sets of a path and of a body, with a space between them, answer for the two texts with a space between -/
theorem keywordMatchCount_path {max' : ℕ} {path body pathTokens tokens : Text}
    (hpath : searchTokenSet S max path = some pathTokens) (hbody : searchTokenSet S max' body = some tokens)
    {qTokens : List Text} (hq : ∀ q ∈ qTokens, IsWord q) :
    keywordMatchCount qTokens (pathTokens ++ ' ' :: tokens) =
      legacySubstringCount S qTokens (path ++ ' ' :: body) := by
  apply countP_congr
  intro q hmem
  rw [S.space, includes_append (hq q hmem), includes_append (hq q hmem), includes_searchTokenSet hpath (hq q hmem),
    includes_searchTokenSet hbody (hq q hmem)]

/-- **Token sets.** For every text and every query, a set that is stored counts the query's words as the lowercased text
does; and so do the sets of a file's path and body for `path body`. -/
theorem token_sets_count (S : LowerCase) (max : ℕ) (query : Text) (qTokens : List Text)
    (hquery : ∀ q ∈ qTokens, q ∈ tokenize S query) :
    (∀ text tokenSet, searchTokenSet S max text = some tokenSet →
      keywordMatchCount qTokens tokenSet = legacySubstringCount S qTokens text) ∧
    ∀ path body pathTokens tokens, searchTokenSet S searchTokensMax path = some pathTokens →
      searchTokenSet S max body = some tokens →
      keywordMatchCount qTokens (pathTokens ++ ' ' :: tokens) =
        legacySubstringCount S qTokens (path ++ ' ' :: body) := by
  have hwords : ∀ q ∈ qTokens, IsWord q := fun q hq => isWord_of_tokenize (hquery q hq)
  exact ⟨fun text tokenSet h => keywordMatchCount_searchTokenSet h hwords,
    fun path body pathTokens tokens hpath hbody => keywordMatchCount_path hpath hbody hwords⟩

end Tokens

section Runs

def ascii : LowerCase where
  toLowerCase text := text.map Char.toLower
  space a b := by
    rw [map_append, map_cons]
    rfl

/-- a file `plans/Q3.pdf` whose text repeats a word, asked for two words and a part of one -/
theorem token_sets_count_file :
    searchTokenSet ascii searchTokensMax "Plan the plan".toList = some "plan the".toList ∧
      keywordMatchCount ["q3".toList, "pla".toList, "he".toList]
        ("plans q3 pdf".toList ++ ' ' :: "plan the".toList) =
      legacySubstringCount ascii ["q3".toList, "pla".toList, "he".toList]
        ("plans/Q3.pdf".toList ++ ' ' :: "Plan the plan".toList) := by
  have hcount := (token_sets_count ascii searchTokensMax "Q3 pla he".toList
    ["q3".toList, "pla".toList, "he".toList] (by decide +kernel)).2
  exact ⟨by decide +kernel, hcount _ _ _ _ (by decide +kernel) (by decide +kernel)⟩

end Runs

end Baalda.SearchTokens
