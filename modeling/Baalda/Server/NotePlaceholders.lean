/-
The placeholders of one line (`renderInline` in render/note-html.ts): what has been lifted out of a line comes back when
the stash is put back, in one pass that does not look at what it puts.

`placeholders_restored_iff`: every fragment comes back once and no NUL is left, exactly if no wikilink, image or link is
lifted out with a placeholder in it, that is, with a code span, a wikilink or an image lifted out before.
-/
import Baalda.Server.NoteInline

namespace Baalda.NotePlaceholders

open Rewrite NoteInline List

/-! ## What is to hold -/

/-- the numbers that the last pass puts something for, in their order -/
def restored (text : Text) : List ℕ := (placeholders.segments text).filterMap fun
  | .char _ => none
  | .hit _ n => some n

/-- no NUL is left, and every fragment of the stash is put back once -/
structure Restored (assetUrl : Text → Option Text) (line : Text) : Prop where
  noNul : nul ∉ renderInline assetUrl line
  once : ∀ n < (lifted assetUrl line).1.length, (restored (emphasize (lifted assetUrl line).2)).count n = 1

instance (assetUrl : Text → Option Text) (line : Text) : Decidable (Restored assetUrl line) :=
  decidable_of_iff (nul ∉ renderInline assetUrl line ∧
      ∀ n < (lifted assetUrl line).1.length, (restored (emphasize (lifted assetUrl line).2)).count n = 1)
    ⟨fun h => ⟨h.1, h.2⟩, fun h => ⟨h.noNul, h.once⟩⟩

/-- what is lifted out has nothing in it that was lifted out before, and the URL of an image has no NUL -/
structure Unnested (assetUrl : Text → Option Text) (line : Text) : Prop where
  wikilinks : ∀ taken html, .hit taken (some html) ∈ wikilink.segments (afterCode line).2 → nul ∉ taken
  images : ∀ taken html, .hit taken (some html) ∈ (image assetUrl).segments (afterWikilinks line).2 →
    nul ∉ taken ∧ nul ∉ html
  links : ∀ taken html, .hit taken (some html) ∈ link.segments (afterImages assetUrl line).2 → nul ∉ taken

/-! ## Placeholders -/

/-- outside of placeholders, or inside of one with its digits so far; a placeholder reports its number -/
def holeScanner : Scanner (Option Text) Char ℕ where
  step
    | none, c => if c = nul then some (some [], []) else some (none, [])
    | some ds, c =>
      if isDigit c then some (some (ds ++ [c]), [])
      else if c = nul ∧ ds ≠ [] then some (none, [Nat.ofDigitChars 10 ds 0])
      else none

section

variable {text taken ds : Text} {s u : Option Text} {o : List ℕ} {c : Char} {n : ℕ}

theorem step_outside (h : c ≠ nul) : holeScanner.step none c = some (none, []) := if_neg h

theorem step_nul : holeScanner.step none nul = some (some [], []) := rfl

theorem step_some (ds : Text) (c : Char) : holeScanner.step (some ds) c =
    if isDigit c then some (some (ds ++ [c]), [])
    else if c = nul ∧ ds ≠ [] then some (none, [Nat.ofDigitChars 10 ds 0])
    else none := rfl

theorem step_digit (h : isDigit c = true) : holeScanner.step (some ds) c = some (some (ds ++ [c]), []) := if_pos h

theorem step_close (h : ds ≠ []) : holeScanner.step (some ds) nul = some (none, [Nat.ofDigitChars 10 ds 0]) := by
  rw [step_some, if_neg (by decide), if_pos ⟨rfl, h⟩]

/-- inside of a placeholder come digits and its end -/
theorem step_inside (h : holeScanner.step (some ds) c = some (u, o)) :
    (isDigit c = true ∧ u = some (ds ++ [c]) ∧ o = []) ∨
      (c = nul ∧ ds ≠ [] ∧ u = none ∧ o = [Nat.ofDigitChars 10 ds 0]) := by
  rw [step_some] at h
  split at h
  next hdigit =>
    cases h
    exact .inl ⟨hdigit, rfl, rfl⟩
  next =>
    split at h
    next hclose =>
      cases h
      exact .inr ⟨hclose.1, hclose.2, rfl, rfl⟩
    next => cases h

/-- neither a NUL nor a digit: it stands outside of placeholders -/
def isFrame (c : Char) : Bool := c ≠ nul && !isDigit c

theorem holeScanner_resets (h : isFrame c = true) : holeScanner.Resets none c := by
  intro s u o hstep
  obtain ⟨hnul, hdigit⟩ : c ≠ nul ∧ isDigit c = false := by simpa [isFrame] using h
  cases s with
  | none =>
    rw [step_outside hnul] at hstep
    cases hstep
    exact ⟨rfl, rfl, rfl⟩
  | some ds =>
    rcases step_inside hstep with ⟨hd, _⟩ | ⟨hn, _⟩
    · exact absurd hd (by rw [hdigit]; decide)
    · exact absurd hn hnul

theorem run_of_nul_notMem (h : nul ∉ text) : holeScanner.run none text = some (none, []) :=
  Scanner.run_quiet fun c hc => step_outside fun heq => h (heq ▸ hc)

theorem holeScanner_neutral : Neutral holeScanner none := by
  refine ⟨fun c hc => ?_, fun t ht => ?_⟩
  · have hcases : (c = '*' ∨ c = '_') ∨ c = '~' := by simpa [isMark] using hc
    rcases hcases with (rfl | rfl) | rfl <;> exact holeScanner_resets (by decide)
  · have hall : emphasisTags.all fun t => !t.contains nul := by decide +kernel
    exact run_of_nul_notMem (by simpa using all_eq_true.1 hall t ht)

theorem run_digits (h : ∀ c ∈ text, isDigit c = true) :
    holeScanner.run (some ds) text = some (some (ds ++ text), []) := by
  induction text generalizing ds with
  | nil => rw [append_nil]; rfl
  | cons c text ih =>
    have hrest := @ih (ds ++ [c]) fun d hd => h d (mem_cons_of_mem c hd)
    rw [append_assoc, singleton_append] at hrest
    exact Scanner.run_cons.2 ⟨_, [], [], step_digit (h c mem_cons_self), hrest, rfl⟩

/-- a placeholder of any digits -/
theorem run_hole (hne : ds ≠ []) (h : ∀ c ∈ ds, isDigit c = true) :
    holeScanner.run none ([nul] ++ ds ++ [nul]) = some (none, [Nat.ofDigitChars 10 ds 0]) := by
  have hclose : holeScanner.run (some ds) [nul] = some (none, [Nat.ofDigitChars 10 ds 0]) :=
    Scanner.run_cons.2 ⟨_, _, [], step_close hne, rfl, (append_nil _).symm⟩
  have hinside : holeScanner.run (some []) (ds ++ [nul]) = some (none, [Nat.ofDigitChars 10 ds 0]) :=
    Scanner.run_append.2 ⟨_, [], _, run_digits h, hclose, rfl⟩
  exact Scanner.run_cons.2 ⟨_, [], _, step_nul, hinside, rfl⟩

theorem run_placeholder (n : ℕ) : holeScanner.run none (placeholder n) = some (none, [n]) := by
  have hdigits : ∀ c ∈ Nat.toDigits 10 n, isDigit c = true := fun c hc => isDigit_of_toDigits hc
  have hrun := run_hole Nat.toDigits_ne_nil hdigits
  rwa [Nat.ofDigitChars_toDigits (by norm_num) le_rfl, append_assoc] at hrun

/-- what follows inside of a placeholder: its digits and its end -/
theorem digits_of_run (h : holeScanner.run (some ds) text = some (none, o)) : ∃ more rest o',
    text = more ++ nul :: rest ∧ (∀ c ∈ more, isDigit c = true) ∧ ds ++ more ≠ [] ∧
      o = Nat.ofDigitChars 10 (ds ++ more) 0 :: o' ∧ holeScanner.run none rest = some (none, o') := by
  induction text generalizing ds with
  | nil => exact absurd (Scanner.run_nil.1 h).1 (by simp)
  | cons c text ih =>
    obtain ⟨t, o₁, o₂, hstep, hrest, rfl⟩ := Scanner.run_cons.1 h
    rcases step_inside hstep with ⟨hdigit, rfl, rfl⟩ | ⟨rfl, hne, rfl, rfl⟩
    · obtain ⟨more, rest, o', htext, hdigits, hne, ho, hrun⟩ := ih hrest
      rw [append_assoc, singleton_append] at hne ho
      refine ⟨c :: more, rest, o', by rw [htext]; rfl, fun d hd => ?_, hne, ho, hrun⟩
      rcases mem_cons.1 hd with rfl | hd
      · exact hdigit
      · exact hdigits d hd
    · exact ⟨[], text, o₂, rfl, fun _ hc => absurd hc not_mem_nil, by simpa using hne, by simp, hrest⟩

/-- two NULs for every placeholder -/
theorem count_nul_of_run (h : holeScanner.run s text = some (u, o)) :
    text.count nul + (if s.isSome then 1 else 0) = 2 * o.length + (if u.isSome then 1 else 0) := by
  induction text generalizing s o with
  | nil =>
    obtain ⟨rfl, rfl⟩ := Scanner.run_nil.1 h
    rfl
  | cons c text ih =>
    obtain ⟨t, o₁, o₂, hstep, hrest, rfl⟩ := Scanner.run_cons.1 h
    have hcount := ih hrest
    cases s with
    | none =>
      by_cases hc : c = nul
      · subst hc
        cases hstep
        simp at hcount ⊢
        omega
      · rw [step_outside hc] at hstep
        cases hstep
        rw [count_cons_of_ne hc]
        simpa using hcount
    | some ds =>
      rcases step_inside hstep with ⟨hdigit, rfl, rfl⟩ | ⟨rfl, _, rfl, rfl⟩
      · have hc : c ≠ nul := fun heq => absurd hdigit (by rw [heq]; decide)
        rw [count_cons_of_ne hc]
        simpa using hcount
      · simp at hcount ⊢
        omega

end

/-! ## What is lifted out -/

section

variable {stash : List Text} {segs : List (Segment Char (Option Text))} {taken html text : Text} {s u : Option Text}
  {o : List ℕ} {F : Lifter} {r : List Text × Text}

/-- it begins and ends outside of placeholders -/
def Framed (taken : Text) : Prop :=
  ∃ a x b : Text, taken = a ++ x ++ b ∧ a ≠ [] ∧ b ≠ [] ∧ (∀ c ∈ a, isFrame c = true) ∧ ∀ c ∈ b, isFrame c = true

theorem Framed.run_eq (h : Framed taken) (hrun : holeScanner.run s taken = some (u, o)) : s = none ∧ u = none := by
  obtain ⟨a, x, b, rfl, ha, hb, haFrame, hbFrame⟩ := h
  obtain ⟨t, o₁, o₂, hfront, hlast, _⟩ := Scanner.run_append.1 hrun
  obtain ⟨v, o₃, o₄, hfirst, _, _⟩ := Scanner.run_append.1 hfront
  obtain ⟨hs, _, _⟩ := Scanner.run_resets ha (fun c hc => holeScanner_resets (haFrame c hc)) hfirst
  obtain ⟨_, hu, _⟩ := Scanner.run_resets hb (fun c hc => holeScanner_resets (hbFrame c hc)) hlast
  exact ⟨hs, hu⟩

/-- everything that is lifted out is framed -/
def FramedHits (segs : List (Segment Char (Option Text))) : Prop :=
  ∀ taken html, .hit taken (some html) ∈ segs → Framed taken

theorem framedHits_codeSpan (text : Text) : FramedHits (codeSpan.segments text) := by
  intro taken html h
  obtain ⟨first, rest, hfind⟩ := Finder.find_of_hit h
  obtain ⟨inner, rfl, _⟩ := findDelimited_eq hfind
  have htick : ∀ c ∈ ['`'], isFrame c = true := all_eq_true.1 (by decide)
  exact ⟨['`'], inner, ['`'], rfl, by simp, by simp, htick, htick⟩

theorem framedHits_wikilink (text : Text) : FramedHits (wikilink.segments text) := by
  intro taken html h
  obtain ⟨first, rest, hfind⟩ := Finder.find_of_hit h
  obtain ⟨opening, inner, hopening, rfl, _⟩ := findWikilink_eq hfind
  refine ⟨opening, inner, "]]".toList, rfl, ?_, by simp, ?_, all_eq_true.1 (by decide)⟩
  · rcases hopening with rfl | rfl <;> simp
  · rcases hopening with rfl | rfl <;> exact all_eq_true.1 (by decide)

theorem framed_bracketed {opening : Text} (hne : opening ≠ []) (hframe : ∀ c ∈ opening, isFrame c = true)
    (b : Bracketed) : Framed (opening ++ b.source) := by
  refine ⟨opening, b.label ++ "](".toList ++ b.target ++ b.title, [')'], ?_, hne, by simp, hframe,
    all_eq_true.1 (by decide)⟩
  simp [Bracketed.source]

theorem framedHits_image (assetUrl : Text → Option Text) (text : Text) :
    FramedHits ((image assetUrl).segments text) := by
  intro taken html h
  obtain ⟨first, rest, hfind⟩ := Finder.find_of_hit h
  obtain ⟨b, rfl, _⟩ := findBracketed_eq hfind
  exact framed_bracketed (by simp) (all_eq_true.1 (by decide)) b

theorem framedHits_link (text : Text) : FramedHits (link.segments text) := by
  intro taken html h
  obtain ⟨first, rest, hfind⟩ := Finder.find_of_hit h
  obtain ⟨b, rfl, _⟩ := findBracketed_eq hfind
  exact framed_bracketed (by simp) (all_eq_true.1 (by decide)) b

theorem length_keepAll_le (stash : List Text) (segs : List (Segment Char (Option Text))) :
    stash.length ≤ (keepAll stash segs).1.length := by
  induction segs generalizing stash with
  | nil => exact le_rfl
  | cons seg segs ih =>
    cases seg with
    | char c => exact ih stash
    | hit taken b =>
      cases b with
      | none => exact ih stash
      | some html =>
        have hrest := ih (stash ++ [html])
        rw [length_append, length_singleton] at hrest
        exact (Nat.le_succ _).trans hrest

/-- the stash after a pass -/
theorem mem_keepAll : html ∈ (keepAll stash segs).1 ↔ html ∈ stash ∨ ∃ taken, .hit taken (some html) ∈ segs := by
  induction segs generalizing stash with
  | nil => simp [keepAll]
  | cons seg segs ih =>
    cases seg with
    | char c => simpa [keepAll] using ih
    | hit taken b =>
      cases b with
      | none => simpa [keepAll] using ih
      | some html' =>
        rw [keepAll, ih]
        simp only [mem_append, mem_cons, not_mem_nil, or_false, Segment.hit.injEq, Option.some.injEq]
        constructor
        · intro h
          rcases h with (hold | rfl) | ⟨taken', hmem⟩
          · exact .inl hold
          · exact .inr ⟨taken, .inl ⟨rfl, rfl⟩⟩
          · exact .inr ⟨taken', .inr hmem⟩
        · intro h
          rcases h with hold | ⟨taken', ⟨_, rfl⟩ | hmem⟩
          · exact .inl (.inl hold)
          · exact .inl (.inr rfl)
          · exact .inr ⟨taken', hmem⟩

/-- the placeholders after a pass: of those before at most as many, and a new one for each fragment -/
theorem run_keepAll (stash : List Text) (hframed : FramedHits segs)
    (h : holeScanner.run s (segs.flatMap Segment.source) = some (u, o)) :
    ∃ o', holeScanner.run s (keepAll stash segs).2 = some (u, o') ∧
      ∀ n, o'.count n ≤ o.count n + if stash.length ≤ n ∧ n < (keepAll stash segs).1.length then 1 else 0 := by
  induction segs generalizing stash s o with
  | nil => exact ⟨o, h, fun n => Nat.le_add_right _ _⟩
  | cons seg segs ih =>
    obtain ⟨t, o₁, o₂, hseg, hrest, rfl⟩ := Scanner.run_append.1 h
    have hframed' : FramedHits segs := fun taken html hmem => hframed taken html (mem_cons_of_mem seg hmem)
    cases seg with
    | char c =>
      obtain ⟨o', hrun, hcount⟩ := ih stash hframed' hrest
      refine ⟨o₁ ++ o', Scanner.run_append.2 ⟨t, o₁, o', hseg, hrun, rfl⟩, fun n => ?_⟩
      rw [count_append, count_append, Nat.add_assoc]
      exact Nat.add_le_add_left (hcount n) _
    | hit taken b =>
      cases b with
      | none =>
        obtain ⟨o', hrun, hcount⟩ := ih stash hframed' hrest
        refine ⟨o₁ ++ o', Scanner.run_append.2 ⟨t, o₁, o', hseg, hrun, rfl⟩, fun n => ?_⟩
        rw [count_append, count_append, Nat.add_assoc]
        exact Nat.add_le_add_left (hcount n) _
      | some html =>
        obtain ⟨rfl, rfl⟩ := (hframed taken html mem_cons_self).run_eq hseg
        obtain ⟨o', hrun, hcount⟩ := ih (stash ++ [html]) hframed' hrest
        refine ⟨[stash.length] ++ o',
          Scanner.run_append.2 ⟨none, _, o', run_placeholder stash.length, hrun, rfl⟩, fun n => ?_⟩
        have hmore := hcount n
        have hle := length_keepAll_le (stash ++ [html]) segs
        rw [length_append, length_singleton] at hmore hle
        rw [count_append, count_append, count_singleton]
        have hlen : (keepAll stash (.hit taken (some html) :: segs)).1.length =
            (keepAll (stash ++ [html]) segs).1.length := rfl
        simp only [beq_iff_eq] at hmore ⊢
        split_ifs at hmore ⊢ <;> omega

/-- how many NULs go with what is lifted out -/
def lost (segs : List (Segment Char (Option Text))) : ℕ := (segs.map fun
  | .hit taken (some _) => taken.count nul
  | _ => 0).sum

theorem lost_eq_zero : lost segs = 0 ↔ ∀ taken html, .hit taken (some html) ∈ segs → nul ∉ taken := by
  unfold lost
  rw [sum_eq_zero_iff]
  constructor
  · intro h taken html hmem
    exact count_eq_zero.1 (h _ (mem_map_of_mem hmem))
  · intro h n hn
    obtain ⟨seg, hseg, rfl⟩ := mem_map.1 hn
    cases seg with
    | char c => rfl
    | hit taken b =>
      cases b with
      | none => rfl
      | some html => exact count_eq_zero.2 (h taken html hseg)

theorem count_nul_placeholder (n : ℕ) : (placeholder n).count nul = 2 := by
  have hcount := count_nul_of_run (run_placeholder n)
  simpa using hcount

/-- the NULs of a text after a pass -/
theorem count_nul_keepAll (stash : List Text) (segs : List (Segment Char (Option Text))) :
    (keepAll stash segs).2.count nul + lost segs + 2 * stash.length =
      (segs.flatMap Segment.source).count nul + 2 * (keepAll stash segs).1.length := by
  induction segs generalizing stash with
  | nil => rfl
  | cons seg segs ih =>
    rw [flatMap_cons, count_append]
    have hlost : lost (seg :: segs) = lost [seg] + lost segs := by simp [lost]
    rw [hlost]
    cases seg with
    | char c =>
      have hrest := ih stash
      have htext : (keepAll stash (.char c :: segs)).2.count nul =
          [c].count nul + (keepAll stash segs).2.count nul := by
        rw [← count_append]
        rfl
      have hstash : (keepAll stash (.char c :: segs)).1 = (keepAll stash segs).1 := rfl
      have hzero : lost [(.char c : Segment Char (Option Text))] = 0 := rfl
      rw [htext, hstash, hzero, Segment.source]
      omega
    | hit taken b =>
      cases b with
      | none =>
        have hrest := ih stash
        have htext : (keepAll stash (.hit taken none :: segs)).2.count nul =
            taken.count nul + (keepAll stash segs).2.count nul := count_append
        have hstash : (keepAll stash (.hit taken none :: segs)).1 = (keepAll stash segs).1 := rfl
        have hzero : lost [(.hit taken none : Segment Char (Option Text))] = 0 := rfl
        rw [htext, hstash, hzero, Segment.source]
        omega
      | some html =>
        have hrest := ih (stash ++ [html])
        rw [length_append, length_singleton] at hrest
        have htext : (keepAll stash (.hit taken (some html) :: segs)).2.count nul =
            2 + (keepAll (stash ++ [html]) segs).2.count nul := by
          rw [← count_nul_placeholder stash.length]
          exact count_append
        have hstash : (keepAll stash (.hit taken (some html) :: segs)).1 = (keepAll (stash ++ [html]) segs).1 := rfl
        have hone : lost [(.hit taken (some html) : Segment Char (Option Text))] = taken.count nul := by simp [lost]
        rw [htext, hstash, hone, Segment.source]
        omega

/-- a text with the placeholders of a stash, each once at most -/
def Held (r : List Text × Text) : Prop :=
  ∃ o, holeScanner.run none r.2 = some (none, o) ∧ ∀ n, o.count n ≤ if n < r.1.length then 1 else 0

theorem Held.keepAll (h : Held r) (hframed : FramedHits (F.segments r.2)) : Held (keepAll r.1 (F.segments r.2)) := by
  obtain ⟨o, hrun, hcount⟩ := h
  rw [← Finder.flatMap_source (F := F) r.2] at hrun
  obtain ⟨o', hrun', hcount'⟩ := run_keepAll r.1 hframed hrun
  refine ⟨o', hrun', fun n => ?_⟩
  have hold := hcount n
  have hnew := hcount' n
  have hle := length_keepAll_le r.1 (F.segments r.2)
  split_ifs at hold hnew ⊢ <;> omega

end

/-! ## What comes back -/

section

variable {assetUrl : Text → Option Text} {line text taken html : Text} {o : List ℕ} {first : Bool}

/-- a placeholder is found where one begins -/
theorem find_placeholder {ds rest : Text} (hne : ds ≠ []) (hdigits : ∀ c ∈ ds, isDigit c = true) :
    placeholders.find first (nul :: (ds ++ nul :: rest)) =
      some ([nul] ++ ds ++ [nul], Nat.ofDigitChars 10 ds 0) := by
  have htake : (ds ++ nul :: rest).takeWhile isDigit = ds := by
    rw [takeWhile_append_of_pos hdigits, takeWhile_cons_of_neg (by decide), append_nil]
  have hfound : delimited [nul] [nul] isDigit (nul :: (ds ++ nul :: rest)) = some ds := by
    change (if (ds ++ nul :: rest).takeWhile isDigit ≠ [] ∧
      [nul] <+: (ds ++ nul :: rest).drop ((ds ++ nul :: rest).takeWhile isDigit).length then _ else none) = _
    rw [htake, drop_left, if_pos ⟨hne, by simp⟩]
    exact congrArg some htake
  change findDelimited _ _ _ _ _ = _
  rw [findDelimited, hfound]
  rfl

/-- **Putting back.** The last pass finds the placeholders that a scanner sees, and leaves no NUL between them. -/
theorem restored_of_run (h : holeScanner.run none text = some (none, o)) :
    restored text = o ∧ ∀ c, .char c ∈ placeholders.segments text → c ≠ nul := by
  refine Finder.cut_induction (F := placeholders) (P := fun _ text segs =>
    ∀ o, holeScanner.run none text = some (none, o) →
      (segs.filterMap fun | .char _ => none | .hit _ n => some n) = o ∧ ∀ c, .char c ∈ segs → c ≠ nul)
    ?_ ?_ ?_ true text o h
  · intro _ o h
    exact ⟨(Scanner.run_nil.1 h).2.symm, fun c hc => absurd hc not_mem_nil⟩
  · intro first c t hfind ih o h
    obtain ⟨u, o₁, o₂, hstep, hrest, rfl⟩ := Scanner.run_cons.1 h
    by_cases hc : c = nul
    · subst hc
      cases hstep
      obtain ⟨ds, rest, o', rfl, hdigits, hne, _, _⟩ := digits_of_run hrest
      rw [nil_append] at hne
      rw [find_placeholder hne hdigits] at hfind
      cases hfind
    · rw [step_outside hc] at hstep
      cases hstep
      obtain ⟨hnumbers, hchars⟩ := ih o₂ hrest
      refine ⟨hnumbers, fun d hd => ?_⟩
      rcases mem_cons.1 hd with heq | hd
      · rw [Segment.char.inj heq]
        exact hc
      · exact hchars d hd
  · intro first taken n t hfind ih o h
    obtain ⟨ds, rfl, rfl, hne, hdigits, _⟩ := findDelimited_eq hfind
    obtain ⟨u, o₁, o₂, hhole, hrest, rfl⟩ := Scanner.run_append.1 h
    rw [run_hole hne hdigits] at hhole
    cases hhole
    obtain ⟨hnumbers, hchars⟩ := ih o₂ hrest
    refine ⟨by rw [filterMap_cons, hnumbers]; rfl, fun d hd => ?_⟩
    rcases mem_cons.1 hd with heq | hd
    · cases heq
    · exact hchars d hd

/-- what a code span, a wikilink and a link become has no NUL of its own -/
theorem nul_notMem_codeSpan (hfind : codeSpan.find first text = some (taken, some html)) (h : nul ∉ taken) :
    nul ∉ html := by
  obtain ⟨inner, rfl, hb, _⟩ := findDelimited_eq hfind
  cases hb
  have hinner : nul ∉ inner := fun hmem => h (by simp [hmem])
  have hopening : nul ∉ (Tag.opening "code".toList).text := by decide
  have hclosing : nul ∉ (Tag.closing "code".toList).text := by decide
  simp only [inElement, mem_append, not_or]
  exact ⟨⟨hopening, hinner⟩, hclosing⟩

theorem nul_notMem_wikilink (hfind : wikilink.find first text = some (taken, some html)) (h : nul ∉ taken) :
    nul ∉ html := by
  obtain ⟨opening, inner, _, rfl, hb, _⟩ := findWikilink_eq hfind
  cases hb
  have hlabel : nul ∉ wikilinkLabel inner := fun hmem => h (by simp [wikilinkLabel_subset inner hmem])
  have hopening : nul ∉ Tag.wikilink.text := by decide
  have hclosing : nul ∉ (Tag.closing "span".toList).text := by decide
  simp only [mem_append, not_or]
  exact ⟨⟨hopening, hlabel⟩, hclosing⟩

theorem nul_notMem_link (hfind : link.find first text = some (taken, some html)) (h : nul ∉ taken) : nul ∉ html := by
  obtain ⟨b, rfl, hb, _⟩ := findBracketed_eq hfind
  have hlabel : nul ∉ b.label := fun hmem => h (by simp [Bracketed.source, hmem])
  have htarget : nul ∉ b.target := fun hmem => h (by simp [Bracketed.source, hmem])
  unfold linkHtml at hb
  split at hb
  next =>
    cases hb
    have hopening : nul ∉ (Tag.link b.target).text := by
      change nul ∉ "<a href=\"".toList ++ b.target ++ "\" rel=\"noopener noreferrer\" target=\"_blank\">".toList
      simp only [mem_append, not_or]
      exact ⟨⟨by decide, htarget⟩, by decide⟩
    have hclosing : nul ∉ (Tag.closing "a".toList).text := by decide
    simp only [linkTo, mem_append, not_or]
    exact ⟨⟨hopening, hlabel⟩, hclosing⟩
  next => cases hb

theorem held_lifted (hline : nul ∉ line) : Held (lifted assetUrl line) := by
  have hstart : Held ([], line) := ⟨[], run_of_nul_notMem hline, fun n => by simp⟩
  have hcode : Held (afterCode line) := hstart.keepAll (framedHits_codeSpan _)
  have hwikilinks : Held (afterWikilinks line) := hcode.keepAll (framedHits_wikilink _)
  have himages : Held (afterImages assetUrl line) := hwikilinks.keepAll (framedHits_image assetUrl _)
  exact himages.keepAll (framedHits_link _)

/-- of a line without NULs, a code span has none -/
theorem nul_notMem_code (hline : nul ∉ line) {b : Option Text} (h : .hit taken b ∈ codeSpan.segments line) :
    nul ∉ taken := fun hmem => hline (Finder.mem_of_segment h hmem)

/-- the NULs that are missing before the last pass went with what was lifted out -/
theorem count_nul_lifted (hline : nul ∉ line) :
    (lifted assetUrl line).2.count nul + (lost (wikilink.segments (afterCode line).2) +
      lost ((image assetUrl).segments (afterWikilinks line).2) + lost (link.segments (afterImages assetUrl line).2)) =
        2 * (lifted assetUrl line).1.length := by
  have hcode := count_nul_keepAll [] (codeSpan.segments line)
  have hwikilinks := count_nul_keepAll (afterCode line).1 (wikilink.segments (afterCode line).2)
  have himages := count_nul_keepAll (afterWikilinks line).1 ((image assetUrl).segments (afterWikilinks line).2)
  have hlinks := count_nul_keepAll (afterImages assetUrl line).1 (link.segments (afterImages assetUrl line).2)
  rw [Finder.flatMap_source] at hcode hwikilinks himages hlinks
  have hzero : line.count nul = 0 := count_eq_zero.2 hline
  have hnone : lost (codeSpan.segments line) = 0 := lost_eq_zero.2 fun taken html h => nul_notMem_code hline h
  change (afterCode line).2.count nul + _ + _ = _ + 2 * (afterCode line).1.length at hcode
  change (afterWikilinks line).2.count nul + _ + _ = _ + 2 * (afterWikilinks line).1.length at hwikilinks
  change (afterImages assetUrl line).2.count nul + _ + _ = _ + 2 * (afterImages assetUrl line).1.length at himages
  change (lifted assetUrl line).2.count nul + _ + _ = _ + 2 * (lifted assetUrl line).1.length at hlinks
  rw [length_nil] at hcode
  omega

/-- what is in the stash -/
theorem mem_lifted : html ∈ (lifted assetUrl line).1 ↔ ∃ taken,
    .hit taken (some html) ∈ codeSpan.segments line ∨ .hit taken (some html) ∈ wikilink.segments (afterCode line).2 ∨
      .hit taken (some html) ∈ (image assetUrl).segments (afterWikilinks line).2 ∨
      .hit taken (some html) ∈ link.segments (afterImages assetUrl line).2 := by
  rw [lifted, mem_keepAll, afterImages, mem_keepAll, afterWikilinks, mem_keepAll, afterCode, mem_keepAll]
  simp only [not_mem_nil, false_or, exists_or, or_assoc]

theorem nul_notMem_stash (hline : nul ∉ line) (h : Unnested assetUrl line) (hhtml : html ∈ (lifted assetUrl line).1) :
    nul ∉ html := by
  obtain ⟨taken, hcode | hwikilink | himage | hlink⟩ := mem_lifted.1 hhtml
  · obtain ⟨first, rest, hfind⟩ := Finder.find_of_hit hcode
    exact nul_notMem_codeSpan hfind (nul_notMem_code hline hcode)
  · obtain ⟨first, rest, hfind⟩ := Finder.find_of_hit hwikilink
    exact nul_notMem_wikilink hfind (h.wikilinks taken html hwikilink)
  · exact (h.images taken html himage).2
  · obtain ⟨first, rest, hfind⟩ := Finder.find_of_hit hlink
    exact nul_notMem_link hfind (h.links taken html hlink)

/-- nothing is lost exactly if every placeholder is there once -/
theorem once_iff {k : ℕ} (hcount : ∀ n, o.count n ≤ if n < k then 1 else 0) :
    (∀ n < k, o.count n = 1) ↔ o.length = k := by
  have hnodup : o.Nodup := nodup_iff_count_le_one.2 fun n => (hcount n).trans (by split <;> omega)
  have hsub : o ⊆ range k := by
    intro n hn
    have hpos : 0 < o.count n := count_pos_iff.2 hn
    have hle := hcount n
    split at hle
    next hlt => exact mem_range.2 hlt
    next => omega
  constructor
  · intro h
    have hback : range k ⊆ o := fun n hn => count_pos_iff.1 (by rw [h n (mem_range.1 hn)]; omega)
    have hle := (hnodup.subperm hsub).length_le
    have hge := (nodup_range.subperm hback).length_le
    rw [length_range] at hle hge
    exact le_antisymm hle hge
  · intro h n hn
    have hperm := (hnodup.subperm hsub).perm_of_length_le (by rw [length_range, h])
    rw [hperm.count_eq]
    exact count_eq_one_of_mem nodup_range (mem_range.2 hn)

/-- **Placeholders.** For every line without NULs and all URLs of assets: every fragment comes back once and no NUL is
left, exactly if nothing is lifted out with a placeholder in it and no URL of an image has a NUL. -/
theorem placeholders_restored_iff (assetUrl : Text → Option Text) (line : Text) (hline : nul ∉ line) :
    Restored assetUrl line ↔ Unnested assetUrl line := by
  obtain ⟨o, hrun, hcount⟩ : Held (lifted assetUrl line) := held_lifted hline
  have hemphasized := holeScanner_neutral.emphasize hrun
  obtain ⟨hrestored, hchars⟩ := restored_of_run hemphasized
  have honce := once_iff hcount
  have hnuls := count_nul_of_run hrun
  have hlifted := @count_nul_lifted assetUrl line hline
  constructor
  · intro h
    have hlen : o.length = (lifted assetUrl line).1.length := honce.1 fun n hn => hrestored ▸ h.once n hn
    have hstash : ∀ html ∈ (lifted assetUrl line).1, nul ∉ html := by
      intro html hhtml hmem
      obtain ⟨n, hn, rfl⟩ := getElem_of_mem hhtml
      have hin : n ∈ restored (emphasize (lifted assetUrl line).2) :=
        count_pos_iff.1 (by rw [h.once n hn]; omega)
      obtain ⟨seg, hseg, hnumber⟩ := mem_filterMap.1 hin
      cases seg with
      | char c => cases hnumber
      | hit taken m =>
        obtain rfl := Option.some.inj hnumber
        refine h.noNul (mem_flatMap.2 ⟨_, hseg, ?_⟩)
        change nul ∈ (lifted assetUrl line).1.getD m []
        rwa [getD_eq_getElem?_getD, getElem?_eq_getElem hn, Option.getD_some]
    refine ⟨lost_eq_zero.1 (by omega), fun taken html himage => ⟨?_, ?_⟩, lost_eq_zero.1 (by omega)⟩
    · exact lost_eq_zero.1 (by omega) taken html himage
    · exact hstash html (mem_lifted.2 ⟨taken, .inr (.inr (.inl himage))⟩)
  · intro h
    have hwikilinks := lost_eq_zero.2 h.wikilinks
    have himages := lost_eq_zero.2 fun taken html hmem => (h.images taken html hmem).1
    have hlinks := lost_eq_zero.2 h.links
    refine ⟨fun hmem => ?_, ?_⟩
    · obtain ⟨seg, hseg, hput⟩ := mem_flatMap.1 hmem
      cases seg with
      | char c => exact hchars c hseg (mem_singleton.1 hput).symm
      | hit taken n =>
        change nul ∈ (lifted assetUrl line).1.getD n [] at hput
        rw [getD_eq_getElem?_getD] at hput
        cases hget : (lifted assetUrl line).1[n]? with
        | none =>
          rw [hget] at hput
          exact absurd hput not_mem_nil
        | some html =>
          rw [hget] at hput
          exact nul_notMem_stash hline h (mem_of_getElem? hget) hput
    · rw [hrestored]
      exact honce.2 (by omega)

section Runs

/-- the URL of the public page -/
def assetOf (rel : Text) : Option Text := some ("/p/t/a/".toList ++ rel)

/-- one of each, side by side -/
theorem restored_side_by_side : Restored assetOf "`x` [[T|l]] ![](a.png) [t](http://u)".toList := by
  refine (placeholders_restored_iff assetOf _ (by decide)).2 ⟨?_, fun taken html hmem => ?_, ?_⟩
  · exact lost_eq_zero.1 (by decide +kernel)
  · have hall : ((image assetOf).segments (afterWikilinks "`x` [[T|l]] ![](a.png) [t](http://u)".toList).2).all
        fun | .hit taken (some html) => !taken.contains nul && !html.contains nul | _ => true := by decide +kernel
    simpa using all_eq_true.1 hall _ hmem
  · exact lost_eq_zero.1 (by decide +kernel)

/-- a code span as the text of a link: the code is gone, and two NULs are left -/
theorem code_in_link_lost : ¬ Restored assetOf "[`x`](http://u)".toList := by
  decide +kernel

end Runs

end

end Baalda.NotePlaceholders
