/-
Deleting a selection of vault paths (lib/vault/mutatePaths.ts): on the server first, path by path, and then on the disk,
one by one or, from `bulkThresholdDocs` paths on, in one batch.

The two routes give the same deleted and failed paths for the same verdicts, and each path ends as one of the two. But
the removal of a folder takes what is below it, and asks nobody about a selected path there whose own delete was
refused. `delete_paths_iff`: that is the only way such a path is lost.
-/
import Mathlib.Tactic

namespace Baalda.MutatePaths

open List

/-! ## Model -/

abbrev Path := List Char

/-- `path.split("/").length` -/
def depth (path : Path) : ℕ := (path.splitOn '/').length

/-- `path` is in the folder `dir`, or in one below it -/
def Under (dir path : Path) : Prop := dir ++ ['/'] <+: path

instance (dir path : Path) : Decidable (Under dir path) := inferInstanceAs (Decidable (_ <+: _))

structure UnregisterOutcome where
  path : Path
  ok : Bool
  reason : Option String

/-- a removal from the disk; a recursive one that fails has removed some of what it was to remove -/
inductive Removal where
  | removed
  | failed (reason : String) (gone : List Path)

structure DeletePathsDeps where
  deleteDisk : Path → Removal
  /-- none: the server row is gone -/
  unregister : Path → Option String

/-- `DeletePathsResult`, and the paths that `deleteDisk` was called for -/
structure Deletion where
  deleted : List Path := []
  failed : List (Path × String) := []
  disk : List Path := []
  deriving DecidableEq

def bulkThresholdDocs : ℕ := 25

def Deletion.append (a b : Deletion) : Deletion := ⟨a.deleted ++ b.deleted, a.failed ++ b.failed, a.disk ++ b.disk⟩

variable (deps : DeletePathsDeps)

/-- the path is removed from the disk -/
def deleteOne (path : Path) : Deletion := match deps.deleteDisk path with
  | .removed => { deleted := [path], disk := [path] }
  | .failed reason _ => { failed := [(path, reason)], disk := [path] }

/-- the loop of `deletePaths` -/
def deleteEach : List Path → Deletion
  | [] => {}
  | path :: rest =>
    match deps.unregister path with
    | some reason => Deletion.append { failed := [(path, reason)] } (deleteEach rest)
    | none => (deleteOne deps path).append (deleteEach rest)

def addToLevel (path : Path) : List (ℕ × List Path) → List (ℕ × List Path)
  | [] => [(depth path, [path])]
  | (d, level) :: levels =>
    if d = depth path then (d, level ++ [path]) :: levels else (d, level) :: addToLevel path levels

def byDepthDeepestFirst (paths : List Path) : List (List Path) :=
  ((paths.foldl (fun levels path => addToLevel path levels) []).insertionSort fun a b => b.1 ≤ a.1).map Prod.snd

/-- the answer for the path: of several, the last -/
def answerFor (outcomes : List UnregisterOutcome) (path : Path) : Option UnregisterOutcome :=
  outcomes.reverse.find? fun o => o.path = path

/-- why the server has not let the path go -/
def refusalOf (outcomes : List UnregisterOutcome) (path : Path) : Option String := match answerFor outcomes path with
  | none => some "the server did not answer for this path"
  | some out => if out.ok then none else some (out.reason.getD "the server refused this delete")

/-- `ends`: the order in which the removals of a level end -/
def deleteManyPaths (ends : List Path → List Path) (unregisterMany : List Path → Except String (List UnregisterOutcome))
    (ordered : List Path) : Deletion :=
  match unregisterMany ordered with
  | .error reason => { failed := ordered.map fun path => (path, reason) }
  | .ok outcomes =>
    let refused := ordered.filterMap fun path => (refusalOf outcomes path).map fun reason => (path, reason)
    let cleared := ordered.filter fun path => refusalOf outcomes path = none
    ((byDepthDeepestFirst cleared).flatMap ends).foldr (fun path d => (deleteOne deps path).append d)
      { failed := refused }

/-- deepest first -/
def ordered (paths : List Path) : List Path := paths.insertionSort fun a b => depth b ≤ depth a

/-- a caller may leave `unregisterMany` out -/
def deletePaths (unregisterMany : Option (List Path → Except String (List UnregisterOutcome)))
    (ends : List Path → List Path) (paths : List Path) : Deletion :=
  match unregisterMany with
  | some unregisterMany =>
    if bulkThresholdDocs ≤ (ordered paths).length then deleteManyPaths deps ends unregisterMany (ordered paths)
    else deleteEach deps (ordered paths)
  | none => deleteEach deps (ordered paths)

/-! ## What is to be shown -/

/-- the removal of a folder takes what is below it, a failed one some of it -/
def Removal.Takes (path : Path) : Removal → Prop
  | .removed => True
  | .failed _ gone => path ∈ gone

instance (path : Path) : ∀ r : Removal, Decidable (r.Takes path)
  | .removed => .isTrue trivial
  | .failed _ gone => inferInstanceAs (Decidable (path ∈ gone))

/-- a run ends well: each path is in one of the lists, and none is lost whose delete the server has not let pass -/
structure Ends (paths : List Path) (d : Deletion) : Prop where
  once : (d.deleted ++ d.failed.map Prod.fst).Perm paths
  kept : ∀ dir ∈ d.disk, ∀ path ∈ paths, deps.unregister path ≠ none →
    ¬ ((path = dir ∨ Under dir path) ∧ (deps.deleteDisk dir).Takes path)

variable (unregisterMany : List Path → Except String (List UnregisterOutcome))

/-- the batch says of each path what the single delete says -/
def SameVerdicts (paths : List Path) : Prop := ∀ path ∈ paths,
  (deps.unregister path = none ↔
    ∃ outcomes, unregisterMany (ordered paths) = .ok outcomes ∧ refusalOf outcomes path = none)

/-- both routes end well, and alike -/
structure Deletes (ends : List Path → List Path) (paths : List Path) : Prop where
  each : Ends deps paths (deletePaths deps none ends paths)
  many : Ends deps paths (deletePaths deps (some unregisterMany) ends paths)
  deleted : (deletePaths deps none ends paths).deleted.Perm
    (deletePaths deps (some unregisterMany) ends paths).deleted
  failed : ((deletePaths deps none ends paths).failed.map Prod.fst).Perm
    ((deletePaths deps (some unregisterMany) ends paths).failed.map Prod.fst)

/-- no refused path is below a selected folder that the server lets go, unless its removal stops before it -/
def NoneBelow (paths : List Path) : Prop :=
  ∀ dir ∈ paths, ∀ path ∈ paths, Under dir path → deps.unregister dir = none → deps.unregister path ≠ none →
    ¬ (deps.deleteDisk dir).Takes path

/-! ## The two routes -/

variable {deps unregisterMany} {paths : List Path}

/-- the disk lets the path go -/
def diskOk (deps : DeletePathsDeps) (path : Path) : Bool := match deps.deleteDisk path with
  | .removed => true
  | .failed _ _ => false

/-- what a route does with the paths that are cleared, in some order, and the ones that are not -/
structure Does (deps : DeletePathsDeps) (cleared refused : List Path) (d : Deletion) : Prop where
  disk : d.disk.Perm cleared
  deleted : d.deleted.Perm (cleared.filter (diskOk deps))
  failed : (d.failed.map Prod.fst).Perm (cleared.filter (fun path => !diskOk deps path) ++ refused)

variable {d : Deletion}

theorem Does.clears {cleared refused : List Path} (h : Does deps cleared refused d) (path : Path) :
    Does deps (path :: cleared) refused ((deleteOne deps path).append d) := by
  obtain ⟨hdisk, hdeleted, hfailed⟩ := h
  unfold deleteOne Deletion.append
  cases hremoval : deps.deleteDisk path with
  | removed =>
    have hok : diskOk deps path = true := by simp [diskOk, hremoval]
    exact ⟨hdisk.cons path, by simpa [hok] using hdeleted, by simpa [hok] using hfailed⟩
  | failed reason gone =>
    have hok : diskOk deps path = false := by simp [diskOk, hremoval]
    exact ⟨hdisk.cons path, by simpa [hok] using hdeleted, by simpa [hok] using hfailed⟩

theorem deleteEach_does (paths : List Path) :
    Does deps (paths.filter fun path => deps.unregister path = none)
      (paths.filter fun path => deps.unregister path ≠ none) (deleteEach deps paths) := by
  induction paths with
  | nil => exact ⟨.refl _, .refl _, .refl _⟩
  | cons path rest ih =>
    unfold deleteEach
    cases hverdict : deps.unregister path with
    | some reason =>
      obtain ⟨hdisk, hdeleted, hfailed⟩ := ih
      refine ⟨by simpa [hverdict, Deletion.append] using hdisk, by simpa [hverdict, Deletion.append] using hdeleted, ?_⟩
      simp only [Deletion.append, map_append, map_cons, map_nil, singleton_append, hverdict,
        reduceCtorEq, ne_eq, not_false_eq_true, decide_true, decide_false, filter_cons]
      exact (hfailed.cons path).trans perm_middle.symm
    | none => simpa [hverdict] using ih.clears path

theorem addToLevel_perm (path : Path) (levels : List (ℕ × List Path)) :
    ((addToLevel path levels).map Prod.snd).flatten.Perm (path :: (levels.map Prod.snd).flatten) := by
  induction levels with
  | nil => exact .refl _
  | cons level levels ih =>
    obtain ⟨d, level⟩ := level
    unfold addToLevel
    split
    · simp only [map_cons, flatten_cons, append_assoc, singleton_append]
      exact perm_middle
    · simp only [map_cons, flatten_cons]
      exact (ih.append_left level).trans perm_middle

/-- each path is in one level -/
theorem byDepthDeepestFirst_perm (paths : List Path) : (byDepthDeepestFirst paths).flatten.Perm paths := by
  have hlevels : ∀ levels : List (ℕ × List Path),
      ((paths.foldl (fun levels path => addToLevel path levels) levels).map Prod.snd).flatten.Perm
        (paths ++ (levels.map Prod.snd).flatten) := by
    induction paths with
    | nil => exact fun levels => .refl _
    | cons path paths ih =>
      intro levels
      refine (ih _).trans (((addToLevel_perm path levels).append_left paths).trans ?_)
      exact perm_middle
  have hsort := ((perm_insertionSort (fun a b : ℕ × List Path => b.1 ≤ a.1)
    (paths.foldl (fun levels path => addToLevel path levels) [])).map Prod.snd).flatten
  exact hsort.trans (by simpa using hlevels [])

theorem refused_fst (outcomes : List UnregisterOutcome) (paths : List Path) :
    (paths.filterMap fun path => (refusalOf outcomes path).map fun reason => (path, reason)).map Prod.fst =
      paths.filter fun path => refusalOf outcomes path ≠ none := by
  induction paths with
  | nil => rfl
  | cons path paths ih =>
    cases hr : refusalOf outcomes path with
    | none => simpa [hr] using ih
    | some reason => simpa [hr] using ih

/-- the removals, in the order in which they end -/
theorem removals_do (l refused : List Path) {failed : List (Path × String)} (hfailed : failed.map Prod.fst = refused) :
    Does deps l refused (l.foldr (fun path d => (deleteOne deps path).append d) { failed := failed }) := by
  induction l with
  | nil => exact ⟨.refl _, .refl _, .of_eq hfailed⟩
  | cons path l ih => exact ih.clears path

theorem deleteManyPaths_does {ends : List Path → List Path} (hends : ∀ level, (ends level).Perm level)
    (hverdicts : ∀ path ∈ paths, (deps.unregister path = none ↔
      ∃ outcomes, unregisterMany paths = .ok outcomes ∧ refusalOf outcomes path = none)) :
    Does deps (paths.filter fun path => deps.unregister path = none)
      (paths.filter fun path => deps.unregister path ≠ none) (deleteManyPaths deps ends unregisterMany paths) := by
  unfold deleteManyPaths
  cases hbatch : unregisterMany paths with
  | error reason =>
    have hall : ∀ path ∈ paths, deps.unregister path ≠ none := by
      intro path hpath hnone
      obtain ⟨outcomes, hok, -⟩ := (hverdicts path hpath).1 hnone
      rw [hbatch] at hok
      cases hok
    rw [filter_eq_nil_iff.2 (by simpa using hall), filter_eq_self.2 (by simpa using hall)]
    exact ⟨.refl _, .refl _, by simp [Function.comp_def]⟩
  | ok outcomes =>
    have hsame : ∀ path ∈ paths, (refusalOf outcomes path = none ↔ deps.unregister path = none) := by
      intro path hpath
      rw [hverdicts path hpath, hbatch]
      simp
    have hcleared : paths.filter (fun path => refusalOf outcomes path = none) =
        paths.filter fun path => deps.unregister path = none :=
      filter_congr fun path hpath => by simp [hsame path hpath]
    have hrefused : paths.filter (fun path => refusalOf outcomes path ≠ none) =
        paths.filter fun path => deps.unregister path ≠ none :=
      filter_congr fun path hpath => by simp [hsame path hpath]
    dsimp only
    rw [hcleared]
    have horder : ((byDepthDeepestFirst (paths.filter fun path => deps.unregister path = none)).flatMap ends).Perm
        (paths.filter fun path => deps.unregister path = none) := by
      refine Perm.trans ?_ (byDepthDeepestFirst_perm _)
      rw [← flatMap_id]
      exact Perm.flatMap_left _ fun level _ => hends level
    obtain ⟨hdisk, hdeleted, hfailed⟩ := removals_do _ _ ((refused_fst outcomes paths).trans hrefused)
    exact ⟨hdisk.trans horder, hdeleted.trans (horder.filter _), hfailed.trans ((horder.filter _).append_right _)⟩

theorem deletePaths_does {ends : List Path → List Path} (hends : ∀ level, (ends level).Perm level)
    (hverdicts : SameVerdicts deps unregisterMany paths) {many}
    (hmany : many = none ∨ many = some unregisterMany) :
    Does deps ((ordered paths).filter fun path => deps.unregister path = none)
      ((ordered paths).filter fun path => deps.unregister path ≠ none)
      (deletePaths deps many ends paths) := by
  have hperm : (ordered paths).Perm paths := perm_insertionSort _ _
  rcases hmany with rfl | rfl
  · exact deleteEach_does (ordered paths)
  · unfold deletePaths
    dsimp only
    split
    · exact deleteManyPaths_does hends fun path hpath => hverdicts path (hperm.mem_iff.1 hpath)
    · exact deleteEach_does (ordered paths)

/-- each path is in one of the lists -/
theorem Does.once
    (h : Does deps (paths.filter fun path => deps.unregister path = none) (paths.filter fun path => deps.unregister path ≠ none) d)
    : (d.deleted ++ d.failed.map Prod.fst).Perm paths := by
  refine (h.deleted.append h.failed).trans ?_
  rw [← append_assoc]
  refine ((filter_append_perm _ _).append_right _).trans ?_
  simpa using filter_append_perm (fun path => decide (deps.unregister path = none)) paths

theorem kept_iff (h : d.disk.Perm ((ordered paths).filter fun path => deps.unregister path = none)) :
    (∀ dir ∈ d.disk, ∀ path ∈ paths, deps.unregister path ≠ none →
      ¬ ((path = dir ∨ Under dir path) ∧ (deps.deleteDisk dir).Takes path)) ↔ NoneBelow deps paths := by
  have hmem : ∀ dir, dir ∈ d.disk ↔ dir ∈ paths ∧ deps.unregister dir = none := by
    intro dir
    have hperm : (ordered paths).Perm paths := perm_insertionSort _ _
    rw [h.mem_iff, mem_filter, hperm.mem_iff]
    simp
  constructor
  · intro hkept dir hdir path hpath hunder hpass hrefused htakes
    exact hkept dir ((hmem dir).2 ⟨hdir, hpass⟩) path hpath hrefused ⟨.inr hunder, htakes⟩
  · rintro hnone dir hdir path hpath hrefused ⟨rfl | hunder, htakes⟩
    · exact hrefused ((hmem path).1 hdir).2
    · exact hnone dir ((hmem dir).1 hdir).1 path hpath hunder ((hmem dir).1 hdir).2 hrefused htakes

/-- **Deleting a selection.** Both routes give each path once and alike, and a path whose delete was refused is lost
exactly if it is below a selected folder that the server lets go. -/
theorem delete_paths_iff {ends : List Path → List Path} (hends : ∀ level, (ends level).Perm level)
    (hverdicts : SameVerdicts deps unregisterMany paths) :
    Deletes deps unregisterMany ends paths ↔ NoneBelow deps paths := by
  have hone := deletePaths_does hends hverdicts (.inl rfl)
  have hmany := deletePaths_does hends hverdicts (.inr rfl)
  have hperm : (ordered paths).Perm paths := perm_insertionSort _ _
  constructor
  · intro h
    exact (kept_iff hone.disk).1 h.each.kept
  · intro h
    refine ⟨⟨hone.once.trans hperm, (kept_iff hone.disk).2 h⟩, ⟨hmany.once.trans hperm, (kept_iff hmany.disk).2 h⟩,
      ?_, ?_⟩
    · exact hone.deleted.trans hmany.deleted.symm
    · exact hone.failed.trans hmany.failed.symm

/-- a folder, and in it a note that the server does not let go -/
def nested : DeletePathsDeps where
  deleteDisk _ := .removed
  unregister path := if path = "a/b.md".toList then some "forbidden" else none

def nestedBatch (paths : List Path) : Except String (List UnregisterOutcome) :=
  .ok (paths.map fun path => ⟨path, path ≠ "a/b.md".toList, none⟩)

/-- **The refused note is removed with its folder.** -/
theorem refused_below : ¬ Deletes nested nestedBatch id ["a".toList, "a/b.md".toList] := by
  intro h
  refine h.each.kept "a".toList (by decide) "a/b.md".toList (by decide) (by decide) ⟨.inr (by decide), trivial⟩

theorem delete_one : Deletes nested nestedBatch id ["a/b.md".toList] ↔ NoneBelow nested ["a/b.md".toList] :=
  delete_paths_iff (fun _ => .refl _) (by
    intro path hpath
    obtain rfl := mem_singleton.1 hpath
    exact ⟨fun h => by simp [nested] at h, fun ⟨outcomes, hok, hnone⟩ => by cases hok; exact absurd hnone (by decide)⟩)

end Baalda.MutatePaths
