/-
The device's own rules for a skill, and the folder it writes one into.

- `validate_name`, `validate_rel_path`, `decode_payloads`: what the device refuses before anything reaches the disk.
  `validateRelPath_ok`: of the paths the server accepts, the device refuses those with a control character between
  U+0080 and U+009F, and no others. `validateName_ok`: it refuses no name that the server accepts.
- `Folder`: what lies below one folder, by path; `createDirAll`, `writeAtomicFsync`, `setMode`, and `drifted_files`, the
  walk that compares a folder with the hashes it should have.

A path inside a folder is the list of its components. Hashing and `to_lowercase` are parameters, the same as the
server's.
-/
import Baalda.Lib.OrdMap
import Baalda.Server.SkillRules
import Mathlib.Data.Char

namespace Baalda.SkillInstall

open List

open SkillRules (Text Bytes WINDOWS_RESERVED isReserved stem)

local instance : LawfulBEq Text := inferInstance

def MARKER : Text := ".baalda-managed.json".toList

/-- droppings of the system and of tools, which are no local edit -/
def DRIFT_JUNK : List Text := [".DS_Store", "Thumbs.db", "__pycache__"].map String.toList

/-- folders that an upload leaves out -/
def SKIP_DIRS : List Text :=
  ["node_modules", "__pycache__", ".venv", "venv", "dist", "build", "target", "__MACOSX"].map String.toList

def MAX_FILES : ℕ := 1000
def MAX_FILE_BYTES : ℕ := 5 * 1024 * 1024
def MAX_TOTAL_BYTES : ℕ := 25 * 1024 * 1024

/-- an error of the device: a sentence of its own, or what the file system answered -/
inductive AppError where
  | new (message : Text)
  | io
  deriving DecidableEq

abbrev AppResult := Except AppError

/-! ## Names and paths -/

/-- `len()` of a text: its bytes in UTF-8 -/
def byteLen (s : Text) : ℕ := (s.map Char.utf8Size).sum

def nameChar (c : Char) : Bool := c.isLower || c.isDigit || c = '-'

def validateName (name : Text) : AppResult Unit :=
  if name ≠ [] ∧ byteLen name ≤ 64 ∧ name.head? ≠ some '-' ∧ name.getLast? ≠ some '-' ∧ ¬ ['-', '-'] <:+: name ∧
      name.all nameChar ∧ name ∉ WINDOWS_RESERVED then
    .ok ()
  else .error (.new ("invalid skill name: ".toList ++ name))

/-- `char::is_control`: the category Cc -/
def isControl (c : Char) : Bool := c.toNat < 0x20 || (0x7f ≤ c.toNat && c.toNat ≤ 0x9f)

def notAllowed (c : Char) : Bool := isControl c || c ∈ ['<', '>', ':', '"', '|', '?', '*']

def componentProblem (component : Text) : Option String :=
  if component.length = 0 then some "empty path component"
  else if 100 < component.length then some "path component over 100 characters"
  else if component = ['.'] ∨ component = ['.', '.'] then some "relative path component"
  else if component.head? = some '.' then some "hidden file or folder"
  else if component.any notAllowed then some "character not allowed on every system"
  else if component.getLast? = some '.' ∨ component.getLast? = some ' ' then some "name ends in a dot or space"
  else if isReserved (stem component) then some "reserved Windows device name"
  else none

def validateRelPath (path : Text) : Except String Unit :=
  if path.length = 0 ∨ 240 < path.length then .error "path must be 1–240 characters"
  else if path.head? = some '/' then .error "absolute path"
  else if '\\' ∈ path then .error "backslash in path"
  else
    match (path.splitOn '/').findSome? componentProblem with
    | some problem => .error problem
    | none => .ok ()

/-! ## Payloads -/

structure SkillFilePayload where
  path : Text
  contentBase64 : Text
  sha256 : Text
  executable : Bool
  deriving DecidableEq

/-- a payload whose path, caps and hash have all been checked -/
structure Decoded where
  rel : Text
  bytes : Bytes
  sha : Text
  executable : Bool
  deriving DecidableEq

def tooLarge (path : Text) : AppError := .new ("file too large: ".toList ++ path ++ " (max 5 MiB)".toList)

variable (sha256 : Bytes → Text) (lower : Text → Text)

/-- one payload; `seen` has the lower-case paths before it, `total` their bytes -/
def decodePayload (seen : List Text) (total : ℕ) (f : SkillFilePayload) : AppResult Decoded :=
  match validateRelPath f.path with
  | .error r => .error (.new ("invalid skill path: ".toList ++ f.path ++ " (".toList ++ r.toList ++ ")".toList))
  | .ok () =>
    if lower f.path ∈ seen then .error (.new ("duplicate skill path: ".toList ++ f.path))
    else if MAX_FILE_BYTES + 3 < byteLen f.contentBase64 / 4 * 3 then .error (tooLarge f.path)
    else
      match Base64.decode f.contentBase64 with
      | none => .error (.new ("invalid base64: ".toList ++ f.path))
      | some bytes =>
        if MAX_FILE_BYTES < bytes.length then .error (tooLarge f.path)
        else if MAX_TOTAL_BYTES < total + bytes.length then .error (.new "skill too large (max 25 MiB)".toList)
        else if sha256 bytes ≠ f.sha256 then .error (.new ("sha mismatch: ".toList ++ f.path))
        else .ok ⟨f.path, bytes, sha256 bytes, f.executable⟩

def decodeFrom (seen : List Text) (total : ℕ) : List SkillFilePayload → AppResult (List Decoded)
  | [] => .ok []
  | f :: rest =>
    match decodePayload sha256 lower seen total f with
    | .error e => .error e
    | .ok d =>
      match decodeFrom (lower f.path :: seen) (total + d.bytes.length) rest with
      | .error e => .error e
      | .ok more => .ok (d :: more)

def decodePayloads (files : List SkillFilePayload) : AppResult (List Decoded) :=
  if MAX_FILES < files.length then .error (.new "too many files (max 1000)".toList)
  else
    match decodeFrom sha256 lower [] 0 files with
    | .error e => .error e
    | .ok out => .ok (out.insertionSort fun a b => a.rel ≤ b.rel)

/-! ## Folders -/

inductive Node where
  | dir
  | file (bytes : Bytes) (executable : Bool)
  | symlink
  deriving DecidableEq

def Node.isDir : Node → Bool
  | .dir => true
  | _ => false

/-- a path below a folder, component by component -/
abbrev Rel := List Text

/-- what lies below a folder -/
abbrev Folder := OrdMap Rel Node

def joinRel (rel : Text) : Rel := rel.splitOn '/'

def relString (p : Rel) : Text := intercalate ['/'] p

/-- the folders of `rest` below `base`, made where they are missing; anything else in their place stops it -/
def createDirAll (folder : Folder) (base : Rel) : Rel → AppResult Folder
  | [] => .ok folder
  | c :: rest =>
    match folder.get? (base ++ [c]) with
    | none => createDirAll (folder.insert (base ++ [c]) .dir) (base ++ [c]) rest
    | some .dir => createDirAll folder (base ++ [c]) rest
    | some _ => .error .io

/-- a file written beside its place and renamed over it, which fails on a folder. The file beside it is gone when the
call returns. -/
def writeAtomicFsync (folder : Folder) (target : Rel) (content : Bytes) : AppResult Folder :=
  match createDirAll folder [] target.dropLast with
  | .error e => .error e
  | .ok folder =>
    match folder.get? target with
    | some .dir => .error .io
    | _ => .ok (folder.insert target (.file content false))

def setMode (folder : Folder) (path : Rel) (executable : Bool) : AppResult Folder :=
  match folder.get? path with
  | some (.file bytes _) => .ok (folder.insert path (.file bytes executable))
  | some _ => .ok folder
  | none => .error .io

/-- the entries that a walk comes to: a name that is skipped is not descended into -/
def walk (skip : Text → Bool → Bool) (folder : Folder) : List (Rel × Node) :=
  folder.entries.filter fun e => e.1.dropLast.all (fun c => !skip c true) && !skip (e.1.getLastD []) e.2.isDir

def isJunk (name : Text) (_isDir : Bool) : Bool := name ∈ DRIFT_JUNK

def same (expected : OrdMap Text Text) (e : Rel × Node) : Bool :=
  match e.2, expected.get? (relString e.1) with
  | .file bytes _, some sha => sha256 bytes = sha
  | _, _ => false

/-- what of a folder is content: no droppings, no folders, not the marker at its root -/
def content (folder : Folder) : List (Rel × Node) :=
  (walk isJunk folder).filter fun e => !e.2.isDir && e.1 ≠ [MARKER]

def driftedFiles (folder : Folder) (expected : OrdMap Text Text) : List Text :=
  let present := (content folder).map fun e => relString e.1
  let edited := ((content folder).filter fun e => !same sha256 expected e).map fun e => relString e.1
  let missing := expected.keys.filter fun rel => rel ∉ present
  (OrdMap.ofList ((edited ++ missing).map fun rel => (rel, ()))).keys

section Names

theorem byteLen_ascii {s : Text} (h : ∀ c ∈ s, c.toNat < 128) : byteLen s = s.length := by
  induction s with
  | nil => rfl
  | cons c rest ih =>
    have hc : c.utf8Size = 1 := by
      have hlt : c.val.toNat < 128 := h c mem_cons_self
      rw [Char.utf8Size, if_pos]
      exact Nat.le_of_lt_succ hlt
    have hrest := ih fun d hd => h d (.tail _ hd)
    rw [byteLen] at hrest ⊢
    rw [map_cons, sum_cons, hc, hrest, length_cons, Nat.add_comm]

theorem isNameChar_facts {c : Char} (h : SkillRules.isNameChar c = true) :
    c ≠ '-' ∧ nameChar c = true ∧ c.toNat < 128 := by
  have hle : (97 ≤ c.toNat ∧ c.toNat ≤ 122) ∨ (48 ≤ c.toNat ∧ c.toNat ≤ 57) := by
    simp only [SkillRules.isNameChar, Bool.or_eq_true, Bool.and_eq_true, decide_eq_true_eq, Char.le_def,
      UInt32.le_iff_toNat_le] at h
    exact h
  refine ⟨?_, ?_, by omega⟩
  · rintro rfl
    exact absurd h (by decide)
  · rw [nameChar]
    delta Char.isLower
    simp only [Char.isDigit, Bool.or_eq_true, Bool.and_eq_true, decide_eq_true_eq, UInt32.le_iff_toNat_le, ge_iff_le]
    exact .inl hle

/-- a name that the scanner passes: its characters, its two ends, and no two hyphens side by side -/
theorem scanName_facts {last : Bool} {name : Text} (h : SkillRules.scanName last name = true) :
    (∀ c ∈ name, nameChar c = true ∧ c.toNat < 128) ∧ (last = false → name.head? ≠ some '-') ∧
      name.getLast? ≠ some '-' ∧ ¬ ['-', '-'] <:+: name := by
  induction name generalizing last with
  | nil => simp
  | cons c rest ih =>
    rw [SkillRules.scanName] at h
    split at h
    next hc =>
      obtain ⟨hne, hchar⟩ := isNameChar_facts hc
      obtain ⟨hall, _, hlast, hinfix⟩ := ih h
      refine ⟨?_, ?_, ?_, ?_⟩
      · intro d hd
        rcases mem_cons.1 hd with rfl | hd
        · exact hchar
        · exact hall d hd
      · intro _ heq
        exact hne (Option.some.inj heq)
      · cases rest with
        | nil => exact fun heq => hne (Option.some.inj heq)
        | cons d more => rwa [getLast?_cons_cons]
      · intro hin
        rcases infix_cons_iff.1 hin with hpre | hin
        · exact hne (cons_prefix_cons.1 hpre).1.symm
        · exact hinfix hin
    next =>
      simp only [Bool.and_eq_true, decide_eq_true_eq] at h
      obtain ⟨⟨rfl, rfl⟩, hrest⟩ := h
      obtain ⟨hall, hhead, hlast, hinfix⟩ := ih hrest
      refine ⟨?_, fun hf => absurd hf (by decide), ?_, ?_⟩
      · intro d hd
        rcases mem_cons.1 hd with rfl | hd
        · exact ⟨by decide, by decide⟩
        · exact hall d hd
      · cases rest with
        | nil => cases hrest
        | cons d more => rwa [getLast?_cons_cons]
      · intro hin
        rcases infix_cons_iff.1 hin with hpre | hin
        · obtain ⟨more, hmore⟩ := (cons_prefix_cons.1 hpre).2
          exact hhead rfl (by rw [← hmore]; rfl)
        · exact hinfix hin

/-- **Names.** A skill name that the server accepts is one that the device accepts. -/
theorem validateName_ok {name : Text} (h : SkillRules.isValidSkillName name = true) : validateName name = .ok () := by
  rw [SkillRules.isValidSkillName] at h
  simp only [Bool.and_eq_true, decide_eq_true_eq, Bool.not_eq_true'] at h
  obtain ⟨⟨⟨hpos, hlen⟩, hscan⟩, hres⟩ := h
  obtain ⟨hall, hhead, hlast, hinfix⟩ := scanName_facts hscan
  have hbytes : byteLen name = name.length := byteLen_ascii fun c hc => (hall c hc).2
  have hnotres : name ∉ WINDOWS_RESERVED := by
    intro hin
    have hlower : name.map Char.toLower = name :=
      (by decide : ∀ w ∈ WINDOWS_RESERVED, w.map Char.toLower = w) name hin
    rw [isReserved, hlower] at hres
    exact absurd hin (of_decide_eq_false hres)
  rw [validateName, if_pos]
  refine ⟨length_pos_iff.1 hpos, hbytes ▸ hlen, hhead rfl, hlast, hinfix, ?_, hnotres⟩
  exact all_eq_true.2 fun c hc => (hall c hc).1

end Names

section Paths

theorem splitOn_cons (c : Char) (rest : Text) :
    (c :: rest).splitOn '/' =
      if c = '/' then [] :: rest.splitOn '/' else (rest.splitOn '/').modifyHead (cons c) := by
  rw [splitOn_cons_eq_if_modifyHead]
  by_cases h : c = '/'
  · rw [if_pos h, if_pos (beq_iff_eq.2 h)]
  · rw [if_neg h, if_neg fun heq => h (beq_iff_eq.1 heq)]

/-- a character other than the slash is in a path where it is in a component -/
theorem mem_splitOn {c : Char} (hc : c ≠ '/') {path : Text} : c ∈ path ↔ ∃ part ∈ path.splitOn '/', c ∈ part := by
  induction path with
  | nil => simp
  | cons d rest ih =>
    rw [splitOn_cons, mem_cons, ih]
    split
    next heq =>
      subst heq
      simp [hc]
    next hne =>
      cases hparts : rest.splitOn '/' with
      | nil => exact absurd hparts (splitOn_ne_nil _ _)
      | cons first more =>
        simp [or_assoc]

variable {path : Text}

/-- the device's rule for a component, after the server's -/
theorem componentProblem_eq_none {part : Text} (h : SkillRules.PartOk part) :
    componentProblem part = none ↔ ∀ c ∈ part, notAllowed c = false := by
  have hdots : ¬ (part = ['.'] ∨ part = ['.', '.']) := by
    rintro (rfl | rfl)
    · exact h.dotfile rfl
    · exact h.dotfile rfl
  have hlast : ¬ (part.getLast? = some '.' ∨ part.getLast? = some ' ') :=
    fun hor => hor.elim h.trailing.2 h.trailing.1
  have hlen : ¬ 100 < part.length := not_lt.2 h.length
  rw [componentProblem, if_neg h.nonempty, if_neg hlen, if_neg hdots, if_neg h.dotfile, if_neg hlast,
    h.reserved, if_neg Bool.false_ne_true]
  constructor
  · intro hany c hc
    split at hany
    next => cases hany
    next hno => exact Bool.eq_false_iff.2 fun hf => hno (any_eq_true.2 ⟨c, hc, hf⟩)
  · intro hall
    have hany : part.any notAllowed = false := by
      rw [any_eq_false]
      intro c hc
      rw [hall c hc]
      exact Bool.false_ne_true
    rw [hany, if_neg Bool.false_ne_true]

/-- a control character that the server lets pass -/
def isC1 (c : Char) : Prop := 0x80 ≤ c.toNat ∧ c.toNat ≤ 0x9f

instance (c : Char) : Decidable (isC1 c) := inferInstanceAs (Decidable (_ ∧ _))

theorem notAllowed_iff {c : Char} (h : SkillRules.forbiddenChar c = false) : notAllowed c = true ↔ isC1 c := by
  simp only [SkillRules.forbiddenChar, Bool.or_eq_false_iff, decide_eq_false_iff_not, mem_cons,
    not_or] at h
  simp only [notAllowed, isControl, isC1, Bool.or_eq_true, Bool.and_eq_true, decide_eq_true_eq, mem_cons]
  obtain ⟨⟨h₁, h₂⟩, h₃⟩ := h
  constructor
  · rintro ((hlt | hle) | hmem)
    · exact absurd hlt h₁
    · exact ⟨by omega, hle.2⟩
    · simp_all
  · intro hle
    exact .inl (.inr ⟨by omega, hle.2⟩)

/-- **Paths.** Of the paths the server accepts the device refuses those with a control character above U+007F. -/
theorem validateRelPath_ok (h : SkillRules.skillPathProblem (.value path) = none) :
    validateRelPath path = .ok () ↔ ∀ c ∈ path, ¬ isC1 c := by
  have hok := SkillRules.skillPathProblem_eq_none.1 h
  have hparts : ∀ part ∈ path.splitOn '/', SkillRules.PartOk part :=
    fun part hp => SkillRules.partProblem_eq_none.1 (hok.parts part hp)
  have hlen : ¬ (path.length = 0 ∨ 240 < path.length) := fun hor => hor.elim hok.nonempty (not_lt.2 hok.length)
  have hslash : path.head? ≠ some '/' := by
    intro hhead
    cases path with
    | nil => cases hhead
    | cons c rest =>
      cases hhead
      apply (hparts [] _).nonempty rfl
      exact .head _
  have hback : '\\' ∉ path := by
    intro hin
    exact absurd (hok.chars _ hin) (by decide)
  rw [validateRelPath, if_neg hlen, if_neg hslash, if_neg hback]
  constructor
  · intro hnone c hc hc1
    have hne : c ≠ '/' := by
      rintro rfl
      exact absurd hc1 (by decide)
    obtain ⟨part, hp, hcp⟩ := (mem_splitOn hne).1 hc
    split at hnone
    next => cases hnone
    next hfind =>
      have hpart := (componentProblem_eq_none (hparts part hp)).1 (findSome?_eq_none_iff.1 hfind part hp) c hcp
      rw [(notAllowed_iff (hok.chars c hc)).2 hc1] at hpart
      cases hpart
  · intro hall
    have hfind : (path.splitOn '/').findSome? componentProblem = none := by
      rw [findSome?_eq_none_iff]
      intro part hp
      apply (componentProblem_eq_none (hparts part hp)).2
      intro c hcp
      by_cases hne : c = '/'
      · rw [hne]
        decide
      · have hc := (mem_splitOn hne).2 ⟨part, hp, hcp⟩
        exact Bool.eq_false_iff.2 fun hna => hall c hc ((notAllowed_iff (hok.chars c hc)).1 hna)
    rw [hfind]

theorem relString_joinRel (rel : Text) : relString (joinRel rel) = rel := intercalate_splitOn _

theorem joinRel_inj {rel rel' : Text} (h : joinRel rel = joinRel rel') : rel = rel' := by
  rw [← relString_joinRel rel, h, relString_joinRel]

end Paths

section Payloads

variable {sha256 lower} {files : List SkillRules.DecodedSkillFile} {seen : List Text} {total : ℕ}

/-- the payload of a file of a version -/
def payloadOf (f : SkillRules.DecodedSkillFile) : SkillFilePayload :=
  ⟨f.path, Base64.encode f.content, f.sha256, f.executable⟩

def decodedOf (f : SkillRules.DecodedSkillFile) : Decoded := ⟨f.path, f.content, f.sha256, f.executable⟩

theorem byteLen_encode (bytes : Bytes) : byteLen (Base64.encode bytes) = 4 * ((bytes.length + 2) / 3) := by
  rw [byteLen_ascii fun c hc => Base64.encode_ascii hc, Base64.length_encode]

theorem decodePayload_ok {f : SkillRules.DecodedSkillFile} (h : SkillRules.Accepted sha256 f)
    (hpath : ∀ c ∈ f.path, ¬ isC1 c) (hseen : lower f.path ∉ seen) (hsize : f.size ≤ MAX_FILE_BYTES)
    (htotal : total + f.size ≤ MAX_TOTAL_BYTES) :
    decodePayload sha256 lower seen total (payloadOf f) = .ok (decodedOf f) := by
  have hvalid : validateRelPath (payloadOf f).path = .ok () := (validateRelPath_ok h.path).2 hpath
  rw [h.size] at hsize htotal
  have hlen : ¬ MAX_FILE_BYTES + 3 < byteLen (payloadOf f).contentBase64 / 4 * 3 := by
    rw [payloadOf, byteLen_encode]
    omega
  have hdecode : Base64.decode (payloadOf f).contentBase64 = some f.content := Base64.decode_eq_some.2 rfl
  rw [decodePayload, hvalid]
  have hnot : lower (payloadOf f).path ∉ seen := hseen
  rw [if_neg hnot, if_neg hlen, hdecode]
  dsimp only
  have hsha : ¬ sha256 f.content ≠ (payloadOf f).sha256 := not_not.2 h.sha256.symm
  rw [if_neg (not_lt.2 hsize), if_neg (not_lt.2 htotal), if_neg hsha, ← h.sha256]
  rfl

theorem decodeFrom_ok (haccepted : ∀ f ∈ files, SkillRules.Accepted sha256 f)
    (hpath : ∀ f ∈ files, ∀ c ∈ f.path, ¬ isC1 c) (hunique : (files.map fun f => lower f.path).Nodup)
    (hseen : ∀ f ∈ files, lower f.path ∉ seen) (hsize : ∀ f ∈ files, f.size ≤ MAX_FILE_BYTES)
    (htotal : total + (files.map (·.size)).sum ≤ MAX_TOTAL_BYTES) :
    decodeFrom sha256 lower seen total (files.map payloadOf) = .ok (files.map decodedOf) := by
  induction files generalizing seen total with
  | nil => rfl
  | cons f rest ih =>
    obtain ⟨hnot, hnodup⟩ := nodup_cons.1 hunique
    rw [map_cons, sum_cons] at htotal
    have hf := haccepted f mem_cons_self
    have hitem : decodePayload sha256 lower seen total (payloadOf f) = .ok (decodedOf f) :=
      decodePayload_ok hf (hpath f mem_cons_self) (hseen f mem_cons_self) (hsize f mem_cons_self)
        (by omega)
    have hrest : decodeFrom sha256 lower (lower f.path :: seen) (total + (decodedOf f).bytes.length)
        (rest.map payloadOf) = .ok (rest.map decodedOf) := by
      apply ih (fun g hg => haccepted g (.tail _ hg)) (fun g hg => hpath g (.tail _ hg))
        hnodup _ (fun g hg => hsize g (.tail _ hg))
      · have hlen : (decodedOf f).bytes.length = f.size := hf.size.symm
        omega
      · intro g hg hin
        rcases mem_cons.1 hin with heq | hin
        · exact hnot (mem_map.2 ⟨g, hg, heq⟩)
        · exact hseen g (.tail _ hg) hin
    rw [map_cons, decodeFrom, hitem]
    dsimp only
    rw [show lower (payloadOf f).path = lower f.path from rfl, hrest]
    rfl

/-- a path that the device refuses stops the whole payload -/
theorem decodeFrom_path {payloads : List SkillFilePayload} {out : List Decoded}
    (h : decodeFrom sha256 lower seen total payloads = .ok out) : ∀ f ∈ payloads, validateRelPath f.path = .ok () := by
  induction payloads generalizing seen total out with
  | nil => exact fun f hf => absurd hf not_mem_nil
  | cons first rest ih =>
    rw [decodeFrom] at h
    split at h
    next => cases h
    next d hd =>
      split at h
      next => cases h
      next more hmore =>
        intro f hf
        rcases mem_cons.1 hf with rfl | hf
        · rw [decodePayload] at hd
          split at hd
          next => cases hd
          next hok => exact hok
        · exact ih hmore f hf

/-- **Payloads.** The payload of a version decodes when its paths have no control character above U+007F, and then to
its files in the order of their paths. -/
theorem decodePayloads_iff (h : SkillRules.Publishable sha256 lower files) {decoded : List Decoded} :
    decodePayloads sha256 lower (files.map payloadOf) = .ok decoded ↔
      (∀ f ∈ files, ∀ c ∈ f.path, ¬ isC1 c) ∧
        decoded = (files.map decodedOf).insertionSort fun a b => a.rel ≤ b.rel := by
  obtain ⟨hcount, hsize, htotal⟩ := SkillRules.checkSkillCaps_ok.1 h.caps
  have hle : ¬ MAX_FILES < (files.map payloadOf).length := by
    rw [length_map]
    exact not_lt.2 hcount
  rw [decodePayloads, if_neg hle]
  constructor
  · intro hok
    split at hok
    next => cases hok
    next out hout =>
      have hpaths : ∀ f ∈ files, ∀ c ∈ f.path, ¬ isC1 c := by
        intro f hf
        exact (validateRelPath_ok (h.accepted f hf).path).1
          (decodeFrom_path hout (payloadOf f) (mem_map_of_mem hf))
      refine ⟨hpaths, ?_⟩
      rw [decodeFrom_ok h.accepted hpaths h.unique (fun _ _ => not_mem_nil) hsize
        (by rw [Nat.zero_add]; exact htotal)] at hout
      cases hout
      exact (Except.ok.inj hok).symm
  · rintro ⟨hpaths, rfl⟩
    rw [decodeFrom_ok h.accepted hpaths h.unique (fun _ _ => not_mem_nil) hsize
      (by rw [Nat.zero_add]; exact htotal)]

end Payloads

section Folders

variable {folder folder' : Folder} {base rest p q : Rel}

/-- **Folders made.** Where the folders of a path are made, they are there, and nothing else has changed. -/
theorem createDirAll_get (h : createDirAll folder base rest = .ok folder') :
    (∀ r, r ≠ [] → r <+: rest → folder'.get? (base ++ r) = some .dir) ∧
      ∀ p, (∀ r, r ≠ [] → r <+: rest → p ≠ base ++ r) → folder'.get? p = folder.get? p := by
  induction rest generalizing folder base with
  | nil =>
    cases h
    exact ⟨fun r hne hr => absurd (prefix_nil.1 hr) hne, fun _ _ => rfl⟩
  | cons c rest ih =>
    -- the folder at `base/c` is there before the rest is made
    have hstep : ∃ mid : Folder, createDirAll mid (base ++ [c]) rest = .ok folder' ∧
        mid.get? (base ++ [c]) = some .dir ∧ ∀ p, p ≠ base ++ [c] → mid.get? p = folder.get? p := by
      rw [createDirAll] at h
      split at h
      next =>
        refine ⟨_, h, by rw [OrdMap.get?_insert, if_pos rfl], ?_⟩
        intro p hp
        rw [OrdMap.get?_insert, if_neg hp]
      next hdir => exact ⟨_, h, hdir, fun _ _ => rfl⟩
      next => cases h
    obtain ⟨mid, hmid, hdir, hother⟩ := hstep
    obtain ⟨hmade, hkept⟩ := ih hmid
    constructor
    · intro r hne hr
      cases r with
      | nil => exact absurd rfl hne
      | cons d r =>
        obtain ⟨rfl, htail⟩ := cons_prefix_cons.1 hr
        rw [append_cons]
        by_cases hr0 : r = []
        · rw [hr0, append_nil, hkept _ fun r hne _ heq => hne (self_eq_append_right.1 heq)]
          exact hdir
        · exact hmade r hr0 htail
    · intro p hp
      have hpc : p ≠ base ++ [c] := hp [c] (cons_ne_nil _ _) (cons_prefix_cons.2 ⟨rfl, nil_prefix⟩)
      rw [hkept p, hother p hpc]
      intro r hne hr heq
      rw [append_assoc] at heq
      exact hp _ (cons_ne_nil _ _) (cons_prefix_cons.2 ⟨rfl, hr⟩) heq

theorem createDirAll_free (h : createDirAll folder base rest = .ok folder') :
    ∀ r, r ≠ [] → r <+: rest → folder.get? (base ++ r) = none ∨ folder.get? (base ++ r) = some .dir := by
  induction rest generalizing folder base with
  | nil => exact fun r hne hr => absurd (prefix_nil.1 hr) hne
  | cons c rest ih =>
    intro r hne hr
    cases r with
    | nil => exact absurd rfl hne
    | cons d r =>
      obtain ⟨rfl, htail⟩ := cons_prefix_cons.1 hr
      rw [createDirAll] at h
      split at h
      next hnone =>
        by_cases hr0 : r = []
        · exact .inl (hr0 ▸ hnone)
        · have hfree := ih h r hr0 htail
          have hother : base ++ [d] ++ r ≠ base ++ [d] := fun heq => hr0 (append_right_eq_self.1 heq)
          rw [OrdMap.get?_insert, if_neg hother] at hfree
          rwa [append_cons]
      next hdir =>
        by_cases hr0 : r = []
        · exact .inr (hr0 ▸ hdir)
        · rw [append_cons]
          exact ih h r hr0 htail
      next => cases h

theorem createDirAll_ok (h : ∀ r, r ≠ [] → r <+: rest →
    folder.get? (base ++ r) = none ∨ folder.get? (base ++ r) = some .dir) :
    ∃ folder', createDirAll folder base rest = .ok folder' := by
  induction rest generalizing folder base with
  | nil => exact ⟨folder, rfl⟩
  | cons c rest ih =>
    have hc := h [c] (cons_ne_nil _ _) (cons_prefix_cons.2 ⟨rfl, nil_prefix⟩)
    have hrest : ∀ r, r ≠ [] → r <+: rest →
        folder.get? (base ++ [c] ++ r) = none ∨ folder.get? (base ++ [c] ++ r) = some .dir := by
      intro r _ hr
      rw [← append_cons]
      exact h (c :: r) (cons_ne_nil _ _) (cons_prefix_cons.2 ⟨rfl, hr⟩)
    rw [createDirAll]
    rcases hc with hc | hc
    · rw [hc]
      apply ih
      intro r hne hr
      have hother : base ++ [c] ++ r ≠ base ++ [c] := fun heq => hne (append_right_eq_self.1 heq)
      rw [OrdMap.get?_insert, if_neg hother]
      exact hrest r hne hr
    · rw [hc]
      exact ih hrest

end Folders

end Baalda.SkillInstall
