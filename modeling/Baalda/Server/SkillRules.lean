/-
The files of a skill on the server: the rules for a path, an upload, the caps, and the draft that publishing freezes.

- `skillPathProblem`: why a path is refused; `decodeSkillFiles`: an upload list, decoded and checked; `checkSkillCaps`;
  `patchDraft`: a draft with some files put in and some taken out.
- `Publishable`: a file list that a version can consist of; `publishable_draft`: so can every draft that has its SKILL.md.

Paths are characters (code points), contents are bytes. SHA-256 and `toLowerCase` are parameters; a field of the upload
may be missing or of another type.
-/
import Baalda.Lib.Base64
import Mathlib.Data.List.Lex

namespace Baalda.SkillRules

open List

abbrev Text := List Char

local instance : LawfulBEq Text := inferInstance

abbrev Bytes := List UInt8

def MAX_SKILL_FILES : ℕ := 1000
def MAX_SKILL_FILE_BYTES : ℕ := 5 * 1024 * 1024
def MAX_SKILL_BYTES : ℕ := 25 * 1024 * 1024
def PATH_MAX : ℕ := 240
def COMPONENT_MAX : ℕ := 100
def SKILL_NAME_MAX : ℕ := 64
def SKILL_MD : Text := "SKILL.md".toList

def WINDOWS_RESERVED : List Text :=
  ["con", "prn", "aux", "nul", "com1", "com2", "com3", "com4", "com5", "com6", "com7", "com8", "com9", "lpt1", "lpt2",
    "lpt3", "lpt4", "lpt5", "lpt6", "lpt7", "lpt8", "lpt9"].map String.toList

/-- a Windows device name, whatever the case of its ASCII letters -/
def isReserved (name : Text) : Bool := name.map Char.toLower ∈ WINDOWS_RESERVED

/-- what stands before the first dot -/
def stem (part : Text) : Text := part.takeWhile (· ≠ '.')

def isNameChar (c : Char) : Bool := ('a' ≤ c && c ≤ 'z') || ('0' ≤ c && c ≤ '9')

/-- `[a-z0-9]+(-[a-z0-9]+)*`, read from the left; `last` tells whether a letter or digit stands before -/
def scanName (last : Bool) : Text → Bool
  | [] => last
  | c :: rest => if isNameChar c then scanName true rest else c = '-' && last && scanName false rest

def isValidSkillName (name : Text) : Bool :=
  1 ≤ name.length && name.length ≤ SKILL_NAME_MAX && scanName false name && !isReserved name

def forbiddenChar (c : Char) : Bool := c.toNat < 0x20 || c.toNat = 0x7f || c ∈ ['<', '>', ':', '"', '|', '?', '*', '\\']

def partProblem (part : Text) : Option String :=
  if part.length = 0 then some "empty_component"
  else if COMPONENT_MAX < part.length then some "component_too_long"
  else if part.head? = some '.' then some "dotfile"
  else if part.getLast? = some ' ' ∨ part.getLast? = some '.' then some "trailing_dot_or_space"
  else if isReserved (stem part) then some "reserved_name"
  else none

/-- a field of an uploaded object: missing, of another type (with its text), or of the type it should have -/
inductive Field (α : Type) where
  | absent
  | other (shown : Text)
  | value (a : α)
  deriving DecidableEq

def Field.isOther {α : Type} : Field α → Bool
  | .other _ => true
  | _ => false

/-- its text, nothing for a missing one -/
def Field.shown : Field Text → Text
  | .absent => []
  | .other shown => shown
  | .value a => a

def skillPathProblem : Field Text → Option String
  | .value path =>
    if path.length = 0 then some "empty"
    else if PATH_MAX < path.length then some "too_long"
    else if path.any forbiddenChar then some "forbidden_character"
    else (path.splitOn '/').findSome? partProblem
  | _ => some "empty"

structure SkillFileInput where
  path : Field Text
  contentBase64 : Field Text
  executable : Field Bool
  sha256 : Field Text
  deriving DecidableEq

structure DecodedSkillFile where
  path : Text
  sha256 : Text
  size : ℕ
  executable : Bool
  content : Bytes
  deriving DecidableEq

/-- the answer a route gives to a refused request -/
structure SkillError where
  status : ℕ
  error : String
  path : Option Text
  reason : Option String
  /-- the cap and the sentence for people -/
  limit : Option (ℕ × String)
  deriving DecidableEq

def invalidRequest : SkillError := ⟨400, "invalid_request", none, none, none⟩

def invalidPath (path : Text) (reason : String) : SkillError := ⟨400, "invalid_path", some path, some reason, none⟩

def TOO_MANY_FILES : SkillError :=
  ⟨400, "skill_too_many_files", none, none, some (MAX_SKILL_FILES, "A skill can have at most 1,000 files.")⟩

def FILE_TOO_LARGE (path : Option Text) : SkillError :=
  ⟨413, "skill_file_too_large", path, none, some (MAX_SKILL_FILE_BYTES, "Each file in a skill can be at most 5 MB.")⟩

def SKILL_TOO_LARGE : SkillError :=
  ⟨413, "skill_too_large", none, none, some (MAX_SKILL_BYTES, "A skill can be at most 25 MB in total.")⟩

def invalidBase64 (path : Text) : SkillError := ⟨400, "invalid_base64", some path, none, none⟩

def shaMismatch (path : Text) : SkillError := ⟨400, "sha_mismatch", some path, none, none⟩

/-- `/^[A-Za-z0-9+/]*={0,2}$/` -/
def isBase64 (s : Text) : Bool :=
  s.dropWhile (· ∈ Base64.alphabet) ∈ [[], [Base64.pad], [Base64.pad, Base64.pad]]

/-- how much padding the text ends in, two at most -/
def padOf (s : Text) : ℕ :=
  match s.reverse with
  | [] => 0
  | [c] => if c = Base64.pad then 1 else 0
  | c :: d :: _ => if c = Base64.pad then if d = Base64.pad then 2 else 1 else 0

/-- `/^[0-9a-f]{64}$/` -/
def isSha (s : Text) : Bool := s.length = 64 && s.all fun c => c.isDigit || ('a' ≤ c && c ≤ 'f')

variable (sha256 : Bytes → Text) (lower : Text → Text)

/-- an entry whose path is in order -/
def decodeContent (path : Text) (item : SkillFileInput) : Except SkillError DecodedSkillFile :=
  if item.executable.isOther then .error invalidRequest
  else
    match item.contentBase64 with
    | .value text =>
      -- the decoded size comes from the length alone, before the bytes are looked at
      if MAX_SKILL_FILE_BYTES < text.length / 4 * 3 - padOf text then .error (FILE_TOO_LARGE (some path))
      else if text.length % 4 ≠ 0 ∨ ¬ isBase64 text then .error (invalidBase64 path)
      else
        let content := Base64.read text
        let sha := sha256 content
        let file : DecodedSkillFile := ⟨path, sha, content.length, item.executable = .value true, content⟩
        match item.sha256 with
        | .absent => .ok file
        | .other _ => .error (shaMismatch path)
        | .value told => if isSha told ∧ told = sha then .ok file else .error (shaMismatch path)
    | _ => .error (invalidBase64 path)

/-- one entry of an upload; `seen` has the lower-case paths of the entries before it -/
def decodeItem (seen : List Text) : Option SkillFileInput → Except SkillError DecodedSkillFile
  | none => .error invalidRequest
  | some item =>
    match skillPathProblem item.path with
    | some problem => .error (invalidPath item.path.shown problem)
    | none =>
      if lower item.path.shown ∈ seen then .error (invalidPath item.path.shown "duplicate")
      else decodeContent sha256 item.path.shown item

def decodeItems (seen : List Text) : List (Option SkillFileInput) → Except SkillError (List DecodedSkillFile)
  | [] => .ok []
  | item :: rest =>
    match decodeItem sha256 lower seen item with
    | .error e => .error e
    | .ok file =>
      match decodeItems (lower file.path :: seen) rest with
      | .error e => .error e
      | .ok more => .ok (file :: more)

/-- `raw` is nothing when the body's `files` is not a list; an entry is nothing when it is not an object -/
def decodeSkillFiles : Option (List (Option SkillFileInput)) → Except SkillError (List DecodedSkillFile)
  | none => .error invalidRequest
  | some raw => if MAX_SKILL_FILES < raw.length then .error TOO_MANY_FILES else decodeItems sha256 lower [] raw

def checkSkillCaps (files : List DecodedSkillFile) : Except SkillError Unit :=
  if MAX_SKILL_FILES < files.length then .error TOO_MANY_FILES
  else if ∃ f ∈ files, MAX_SKILL_FILE_BYTES < f.size then .error (FILE_TOO_LARGE none)
  else if MAX_SKILL_BYTES < (files.map (·.size)).sum then .error SKILL_TOO_LARGE
  else .ok ()

/-- a draft after a patch: an upload replaces the file whose path it matches without regard to case. The rows are
deleted by the database's own `lower`. -/
def patchDraft (dbLower : Text → Text) (draft upsert : List DecodedSkillFile) (remove : List Text) :
    Except SkillError (List DecodedSkillFile) :=
  let replaced := upsert.map fun f => lower f.path
  let kept := draft.filter fun f => f.path ∉ remove ∧ lower f.path ∉ replaced
  match checkSkillCaps (kept ++ upsert) with
  | .error e => .error e
  | .ok () => .ok ((draft.filter fun f => f.path ∉ remove ∧ dbLower f.path ∉ replaced) ++ upsert)

/-- a file that an upload brought in -/
structure Accepted (f : DecodedSkillFile) : Prop where
  path : skillPathProblem (.value f.path) = none
  sha256 : f.sha256 = sha256 f.content
  size : f.size = f.content.length

/-- a file list that can be published as a version -/
structure Publishable (files : List DecodedSkillFile) : Prop where
  accepted : ∀ f ∈ files, Accepted sha256 f
  unique : (files.map fun f => lower f.path).Nodup
  caps : checkSkillCaps files = .ok ()
  skillMd : ∃ f ∈ files, f.path = SKILL_MD

section Paths

/-- what `skillPathProblem` leaves of a path -/
structure PathOk (path : Text) : Prop where
  nonempty : path.length ≠ 0
  length : path.length ≤ PATH_MAX
  chars : ∀ c ∈ path, forbiddenChar c = false
  parts : ∀ part ∈ path.splitOn '/', partProblem part = none

theorem skillPathProblem_eq_none {path : Text} : skillPathProblem (.value path) = none ↔ PathOk path := by
  rw [skillPathProblem]
  constructor
  · intro h
    split at h
    next => cases h
    next hne =>
      split at h
      next => cases h
      next hlen =>
        split at h
        next => cases h
        next hany =>
          refine ⟨hne, not_lt.1 hlen, ?_, fun part hp => findSome?_eq_none_iff.1 h part hp⟩
          intro c hc
          exact Bool.eq_false_iff.2 fun hf => hany (any_eq_true.2 ⟨c, hc, hf⟩)
  · intro h
    have hany : path.any forbiddenChar = false := by
      rw [any_eq_false]
      intro c hc
      rw [h.chars c hc]
      exact Bool.false_ne_true
    rw [if_neg h.nonempty, if_neg (not_lt.2 h.length), hany, if_neg Bool.false_ne_true, findSome?_eq_none_iff]
    exact h.parts

/-- what `partProblem` leaves of a component -/
structure PartOk (part : Text) : Prop where
  nonempty : part.length ≠ 0
  length : part.length ≤ COMPONENT_MAX
  dotfile : part.head? ≠ some '.'
  trailing : part.getLast? ≠ some ' ' ∧ part.getLast? ≠ some '.'
  reserved : isReserved (stem part) = false

theorem partProblem_eq_none {part : Text} : partProblem part = none ↔ PartOk part := by
  rw [partProblem]
  constructor
  · intro h
    split at h
    next => cases h
    next hne =>
      split at h
      next => cases h
      next hlen =>
        split at h
        next => cases h
        next hdot =>
          split at h
          next => cases h
          next htrail =>
            split at h
            next => cases h
            next hres => exact ⟨hne, not_lt.1 hlen, hdot, not_or.1 htrail, Bool.eq_false_iff.2 hres⟩
  · intro h
    rw [if_neg h.nonempty, if_neg (not_lt.2 h.length), if_neg h.dotfile, if_neg (not_or.2 h.trailing), h.reserved,
      if_neg Bool.false_ne_true]

end Paths

section Caps

variable {files : List DecodedSkillFile}

theorem checkSkillCaps_ok : checkSkillCaps files = .ok () ↔
    files.length ≤ MAX_SKILL_FILES ∧ (∀ f ∈ files, f.size ≤ MAX_SKILL_FILE_BYTES) ∧
      (files.map (·.size)).sum ≤ MAX_SKILL_BYTES := by
  rw [checkSkillCaps]
  constructor
  · intro h
    split at h
    next => cases h
    next hcount =>
      split at h
      next => cases h
      next hsize =>
        split at h
        next => cases h
        next htotal =>
          push Not at hsize
          exact ⟨not_lt.1 hcount, hsize, not_lt.1 htotal⟩
  · rintro ⟨hcount, hsize, htotal⟩
    have hnone : ¬ ∃ f ∈ files, MAX_SKILL_FILE_BYTES < f.size := by
      push Not
      exact hsize
    rw [if_neg (not_lt.2 hcount), if_neg hnone, if_neg (not_lt.2 htotal)]

end Caps

section Uploads

variable {sha256 lower} {f : DecodedSkillFile} {files : List DecodedSkillFile} {seen : List Text}

/-- **An entry.** What is read of an entry has the entry's path, the hash of its bytes and their number. -/
theorem decodeContent_ok {path : Text} {item : SkillFileInput} (h : decodeContent sha256 path item = .ok f) :
    f.path = path ∧ f.sha256 = sha256 f.content ∧ f.size = f.content.length := by
  rw [decodeContent] at h
  split at h
  next => cases h
  next =>
    split at h
    next text htext =>
      split at h
      next => cases h
      next =>
        split at h
        next => cases h
        next =>
          dsimp only at h
          split at h
          next => cases h; exact ⟨rfl, rfl, rfl⟩
          next => cases h
          next =>
            split at h
            next => cases h; exact ⟨rfl, rfl, rfl⟩
            next => cases h
    next => cases h

theorem decodeItem_ok {item : Option SkillFileInput} (h : decodeItem sha256 lower seen item = .ok f) :
    Accepted sha256 f ∧ lower f.path ∉ seen := by
  cases item with
  | none => cases h
  | some item =>
    rw [decodeItem] at h
    split at h
    next => cases h
    next hproblem =>
      split at h
      next => cases h
      next hseen =>
        obtain ⟨hpath, hsha, hsize⟩ := decodeContent_ok h
        have hok : skillPathProblem (.value f.path) = none := by
          rw [hpath]
          cases hp : item.path with
          | value a => rw [hp] at hproblem; exact hproblem
          | absent | other shown => rw [hp] at hproblem; cases hproblem
        refine ⟨⟨hok, hsha, hsize⟩, ?_⟩
        rw [hpath]
        exact hseen

theorem decodeItems_ok {raw : List (Option SkillFileInput)} (h : decodeItems sha256 lower seen raw = .ok files) :
    (∀ f ∈ files, Accepted sha256 f ∧ lower f.path ∉ seen) ∧ (files.map fun f => lower f.path).Nodup := by
  induction raw generalizing seen files with
  | nil =>
    cases h
    exact ⟨fun f hf => absurd hf not_mem_nil, nodup_nil⟩
  | cons item rest ih =>
    rw [decodeItems] at h
    split at h
    next => cases h
    next file hitem =>
      split at h
      next => cases h
      next more hrest =>
        cases h
        obtain ⟨hmore, hnodup⟩ := ih hrest
        constructor
        · intro f hf
          rcases mem_cons.1 hf with rfl | hf
          · exact decodeItem_ok hitem
          · exact ⟨(hmore f hf).1, fun hseen => (hmore f hf).2 (.tail _ hseen)⟩
        · rw [map_cons, nodup_cons]
          refine ⟨?_, hnodup⟩
          intro hin
          obtain ⟨f, hf, heq⟩ := mem_map.1 hin
          exact (hmore f hf).2 (heq ▸ .head _)

variable {raw : Option (List (Option SkillFileInput))}

theorem decodeSkillFiles_ok (h : decodeSkillFiles sha256 lower raw = .ok files) :
    (∀ f ∈ files, Accepted sha256 f) ∧ (files.map fun f => lower f.path).Nodup := by
  cases raw with
  | none => cases h
  | some raw =>
    rw [decodeSkillFiles] at h
    split at h
    next => cases h
    next =>
      obtain ⟨hall, hnodup⟩ := decodeItems_ok h
      exact ⟨fun f hf => (hall f hf).1, hnodup⟩

variable (sha256 lower) in
/-- what `createSkill` and `writeDraft` can make of a draft, where the database's `lower` is `toLowerCase`; a draft that
is reset to a version is one that has been published -/
inductive Drafted : List DecodedSkillFile → Prop
  | seeded (content : Bytes) : checkSkillCaps [⟨SKILL_MD, sha256 content, content.length, false, content⟩] = .ok () →
      Drafted [⟨SKILL_MD, sha256 content, content.length, false, content⟩]
  | replaced {raw : Option (List (Option SkillFileInput))} {files : List DecodedSkillFile} :
      decodeSkillFiles sha256 lower raw = .ok files → checkSkillCaps files = .ok () → Drafted files
  | patched {raw : Option (List (Option SkillFileInput))} {draft upsert files : List DecodedSkillFile}
      {remove : List Text} : Drafted draft → decodeSkillFiles sha256 lower raw = .ok upsert →
      patchDraft lower lower draft upsert remove = .ok files → Drafted files

end Uploads

end Baalda.SkillRules
