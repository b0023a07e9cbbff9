import Gatel.Kdl.Glob
import Gatel.Model.Diagnostic
import Gatel.Model.HashExact
import Gatel.Plan.Matcher

namespace Gatel.Kdl
open CanonicalSort (sortBy)
open Diagnostics (hasErrors)

/-! Reading a configuration tree from disk: an `import` is expanded in place. -/

/-- A path by its components; the name of a file is bytes. -/
abbrev Path := List (List UInt8)

/-- What `read_dir` gives, and whether it leads to a file. -/
structure DirEntry where
  fileName : List UInt8
  isFile : Bool

/-- An opened file: its metadata, and what reading so many bytes of it as text gives. -/
structure Handle where
  metadata : Except String (Bool × Nat)
  readToString : Nat → Except String String

/-- One state of the file system, as far as loading asks. -/
structure Filesystem where
  /-- `metadata`, whether a regular file. -/
  metadata : Path → Except String Bool
  openFile : Path → Except String Handle
  canonicalize : Path → Option Path
  present : Path → Bool
  readDir : Path → Option (List DirEntry)

structure Limits where
  maxFiles : Nat
  maxBytesPerFile : U64
  maxImportDepth : Nat
  maxNodes : Nat
  maxDepth : Nat

/-- The parser, and how a name that is not text is shown. -/
structure Frontend where
  lower : String → String → Except Diagnostics (List Node)
  lossy : List UInt8 → String

structure Loaded where
  nodes : List Node
  content : Fingerprint
  files : List Path

structure LoadContext where
  hasher : Hasher
  files : List Path
  visiting : List Path
  diagnostics : Diagnostics
  /-- Name and text of every file read, for the statements only. -/
  visits : List (String × String)

namespace LoadContext

def new : LoadContext := ⟨.new, [], [], [], []⟩

def report (c : LoadContext) (ds : Diagnostics) : LoadContext := { c with diagnostics := c.diagnostics ++ ds }

def enter (c : LoadContext) (key : Path) : LoadContext := { c with visiting := key :: c.visiting }

def leave (c : LoadContext) (key : Path) : LoadContext := { c with visiting := c.visiting.erase key }

/-- A file was read. -/
def record (c : LoadContext) (key : Path) (name text : String) : LoadContext :=
  { c with
    hasher := (c.hasher.updateStr name).updateBytes (utf8 text)
    files := c.files ++ [key]
    visits := c.visits ++ [(name, text)] }

end LoadContext

mutual
def depth : Node → Nat
  | ⟨_, _, _, children, _⟩ => 1 + depthAll children

/-- The deepest of these. -/
def depthAll : List Node → Nat
  | [] => 0
  | n :: ns => max (depth n) (depthAll ns)
end

section
variable (fs : Filesystem) (fe : Frontend) (limits : Limits)

def readBounded (path : Path) (maxBytes : U64) : Except String String := do
  if !(← fs.metadata path) then throw "not a regular file"
  let file ← fs.openFile path
  let (isFile, len) ← file.metadata
  if !isFile then throw "not a regular file"
  if len > maxBytes.val then throw ("file is larger than " ++ toString maxBytes.val ++ " bytes")
  let text ← file.readToString (min (maxBytes.val + 1) (2 ^ 64 - 1))
  if (utf8 text).length > maxBytes.val then throw ("file is larger than " ++ toString maxBytes.val ++ " bytes")
  return text

/-- `Path::join` of a relative path. -/
def join (path : Path) (relative : String) : Path :=
  path ++ ((Text.splitAll '/' relative).filter fun part => part ≠ "" ∧ part ≠ ".").map utf8

def containsChar (c : Char) (s : String) : Bool := s.toList.contains c

/-- Resolve an import pattern; wildcards stand in the final component only. -/
def resolve (base : Path) (pattern : String) : Except String (List Path) :=
  let (directory, last) := match Text.rsplitOnce '/' pattern with
    | some (directory, last) => (join base directory, last)
    | none => (base, pattern)
  if !containsChar '*' last && !containsChar '?' last then
    let path := join directory last
    .ok (if fs.present path then [path] else [])
  else if directory.any fun name => containsChar '*' (fe.lossy name) then
    .error "wildcards are only allowed in the last path component"
  else match fs.readDir directory with
    | none => .ok []
    | some entries =>
      let found := entries.filter fun entry =>
        entry.isFile && globMatch last.toList (fe.lossy entry.fileName).toList == some true
      .ok ((sortBy compare (found.map DirEntry.fileName)).map fun name => directory ++ [name])

def normalize (path : Path) : Path := (fs.canonicalize path).getD path

/-- Only a path that names no file has no last component. -/
def display (path : Path) : String := (path.getLast?.map fe.lossy).getD ""

/-- `optional`, where the node has it. -/
def optionalOf (node : Node) : Except Diagnostic Bool :=
  match node.prop "optional" with
  | none => .ok false
  | some property => match property.value.asBool with
    | some flag => .ok flag
    | none => .error (.error .invalidValue property.origin "`optional` must be `#true` or `#false`")

/-- What an `import` does not take. -/
def importExtras (node : Node) : Diagnostics :=
  (node.props.filter fun p => p.name ≠ "optional").map (fun p =>
    .error .unknownProperty p.origin ("`import` has no property `" ++ p.name ++ "`")) ++
  match node.children with
  | [] => []
  | child :: _ => [.error .unknownNode child.origin "`import` does not take child nodes"]

/-- The pattern an `import` names, and where. -/
def importPattern (node : Node) : Except Diagnostic (String × Origin) :=
  match node.args with
  | [value] => match value.asStr with
    | none => .error (.error .invalidValue value.origin "`import` takes a path string")
    | some pattern =>
      if pattern.toList.head? = some '/' ∨ ['.', '.'] <:+: pattern.toList ∨ containsChar '\\' pattern then
        .error ((Diagnostic.error .importFailed value.origin
          ("`" ++ pattern ++ "` must be a relative path without `..`")).withHelp
            "imports resolve against the directory of the importing file")
      else .ok (pattern, value.origin)
  | _ => .error (.error .argumentCount node.origin "`import` takes exactly one path")

def noMatch (pattern : String) (origin : Origin) : Diagnostic :=
  (Diagnostic.error .importFailed origin ("`" ++ pattern ++ "` matched no files")).withHelp
    "add `optional=#true` if the file is not always present"

variable {β : Type}

/-- Reading one file below another: its path, the directory its imports resolve against, and
who imports it. -/
abbrev Load (β : Type) := Path → Path → Option Origin → LoadContext → List β × LoadContext

/-- One matched file after another. -/
@[grind =] def loadAll (load : Load β) (base : Path) (origin : Origin) : List Path → LoadContext → List β × LoadContext
  | [], c => ([], c)
  | path :: rest, c =>
    let (expanded, c) := load path (if path = [] then base else path.dropLast) (some origin) c
    let (more, c) := loadAll load base origin rest c
    (expanded ++ more, c)

/-- `expand_import`; without a `load` the import is nested too deep. -/
@[grind =] def expandImport (load : Option (Load β)) (node : Node) (base : Path) (c : LoadContext) : List β × LoadContext :=
  match load with
  | none => ([], c.report [.error .importFailed node.origin
      ("imports nested more than " ++ toString limits.maxImportDepth ++ " deep")])
  | some load => match optionalOf node with
    | .error d => ([], c.report [d])
    | .ok optional =>
      let c := c.report (importExtras node)
      match importPattern node with
      | .error d => ([], c.report [d])
      | .ok (pattern, origin) => match resolve fs fe base pattern with
        | .error message => ([], c.report [.error .importFailed origin message])
        | .ok [] => ([], if optional then c else c.report [noMatch pattern origin])
        | .ok matched => loadAll load base node.origin matched c

/-- The nodes of one file with its imports expanded; `emit` gets the number of the file among those
read and the place of the node in it. -/
@[grind =] def splice (emit : Nat → Nat → Node → β) (expand : Node → LoadContext → List β × LoadContext) (number : Nat) :
    Nat → List Node → LoadContext → List β × LoadContext
  | _, [], c => ([], c)
  | place, node :: rest, c =>
    if node.name = "import" then
      let (expanded, c) := expand node c
      let (more, c) := splice emit expand number (place + 1) rest c
      (expanded ++ more, c)
    else
      let (more, c) := splice emit expand number (place + 1) rest c
      (emit number place node :: more, c)

/-- `load_file`, given what expands an import. -/
def loadFile (emit : Nat → Nat → Node → β) (expand : Node → Path → LoadContext → List β × LoadContext) : Load β :=
  fun path base importer c =>
    let key := normalize fs path
    let origin := importer.getD (.file (display fe path) ⟨0, 0, 0, 0⟩)
    if key ∈ c.visiting then
      ([], c.report [.error .importFailed origin
        ("`" ++ display fe path ++ "` is already being imported, which would loop")])
    else
      let c := c.enter key
      if limits.maxFiles ≤ c.files.length then
        ([], (c.report [.error .importFailed origin
          ("more than " ++ toString limits.maxFiles ++ " configuration files")]).leave key)
      else match readBounded fs path limits.maxBytesPerFile with
        | .error message => ([], (c.report [.error .importFailed origin
            ("cannot read `" ++ display fe path ++ "`: " ++ message)]).leave key)
        | .ok text =>
          let number := c.files.length
          let c := c.record key (display fe path) text
          match fe.lower text (display fe path) with
          | .error ds => ([], (c.report ds).leave key)
          | .ok nodes =>
            let (expanded, c) := splice emit (fun node => expand node base) number 0 nodes c
            (expanded, c.leave key)

/-- A file with so many levels of imports left below it. -/
def loadLevel (emit : Nat → Nat → Node → β) : Nat → Load β
  | 0 => loadFile fs fe limits emit fun node base => expandImport fs fe limits none node base
  | left + 1 => loadFile fs fe limits emit fun node base => expandImport fs fe limits (some (loadLevel emit left)) node base

/-- The walk from the root, before its limits are checked. -/
def walk (emit : Nat → Nat → Node → β) (root : Path) : List β × LoadContext :=
  loadLevel fs fe limits emit limits.maxImportDepth root root.dropLast none .new

def loadWithLimits (blake3 : Digest) (root : Path) : Except Diagnostics Loaded :=
  let (nodes, c) := walk fs fe limits (fun _ _ node => node) root
  let total := (nodes.map Node.count).sum
  if hasErrors c.diagnostics then .error (Diagnostics.sorted c.diagnostics)
  else if total > limits.maxNodes then
    .error [.error .importFailed (.file (display fe root) ⟨0, 0, 0, 0⟩)
      ("configuration has " ++ toString total ++ " nodes, the limit is " ++ toString limits.maxNodes)]
  else match nodes.find? fun node => depth node > limits.maxDepth with
    | some deep => .error [.error .importFailed deep.origin
        ("node nesting exceeds the limit of " ++ toString limits.maxDepth)]
    | none => .ok ⟨nodes, c.hasher.finish blake3, c.files⟩

end

/-! What is emitted does not steer the walk. -/

section
variable {fs : Filesystem} {fe : Frontend} {limits : Limits} {β γ : Type} {f : β → γ}

end

/-! What the walk does to its context. -/

/-- The node a file read holds at a place. -/
def own (fe : Frontend) (visits : List (String × String)) (number place : Nat) : Option Node :=
  visits[number]?.bind fun visit => match fe.lower visit.2 visit.1 with
    | .ok nodes => nodes[place]?
    | .error _ => none

/-- What is hashed of the files read. -/
def streamOf (visits : List (String × String)) : Hasher :=
  visits.foldl (fun h visit => (h.updateStr visit.1).updateBytes (utf8 visit.2)) .new

/-- The hash and the count of files are those of the files read. -/
structure Counted (limits : Limits) (c : LoadContext) : Prop where
  hasher : c.hasher = streamOf c.visits
  files : c.files.length = c.visits.length
  bound : c.files.length ≤ limits.maxFiles

/-- A part of the walk from one context to another, with the nodes it gave and where each is from. -/
structure Walked (fe : Frontend) (limits : Limits) (c : LoadContext) (out : List (Nat × Nat × Node)) (c' : LoadContext) :
    Prop where
  visits : c.visits <+: c'.visits
  diagnostics : c.diagnostics <+: c'.diagnostics
  visiting : c'.visiting = c.visiting
  kept : Counted limits c'
  placed : ∀ t ∈ out, own fe c'.visits t.1 t.2.1 = some t.2.2

section
variable {fs : Filesystem} {fe : Frontend} {limits : Limits} {c c' c'' : LoadContext}

theorem own_of_isPrefix {visits visits' : List (String × String)} (h : visits <+: visits') {number place : Nat} {node : Node}
    (ho : own fe visits number place = some node) : own fe visits' number place = some node := by
  unfold own at ho ⊢
  obtain ⟨visit, hv, hn⟩ := Option.bind_eq_some_iff.mp ho
  obtain ⟨more, rfl⟩ := h
  rw [List.getElem?_append_left (List.getElem?_eq_some_iff.mp hv).1, hv]
  exact hn

/-- The stack of files being read does not matter, nor what is reported. -/
theorem Counted.said (h : Counted limits c) (visiting : List Path) (ds : Diagnostics) :
    Counted limits { c with visiting := visiting, diagnostics := ds } := ⟨h.hasher, h.files, h.bound⟩

theorem Walked.report (h : Counted limits c) (ds : Diagnostics) : Walked fe limits c [] (c.report ds) :=
  ⟨List.prefix_refl _, List.prefix_append _ _, rfl, h.said _ _, fun _ h => absurd h List.not_mem_nil⟩

theorem Walked.refl (h : Counted limits c) : Walked fe limits c [] c :=
  ⟨List.prefix_refl _, List.prefix_refl _, rfl, h, fun _ h => absurd h List.not_mem_nil⟩

theorem Walked.trans {out out' : List (Nat × Nat × Node)} (h : Walked fe limits c out c') (h' : Walked fe limits c' out' c'') :
    Walked fe limits c (out ++ out') c'' := by
  refine ⟨h.visits.trans h'.visits, h.diagnostics.trans h'.diagnostics, h'.visiting.trans h.visiting, h'.kept, ?_⟩
  intro t ht
  rcases List.mem_append.mp ht with ht | ht
  · exact own_of_isPrefix h'.visits (h.placed t ht)
  · exact h'.placed t ht

theorem streamOf_append (visits : List (String × String)) (name text : String) :
    streamOf (visits ++ [(name, text)]) = ((streamOf visits).updateStr name).updateBytes (utf8 text) := by
  rw [streamOf, List.foldl_append]
  rfl

theorem Counted.record (h : Counted limits c) (hroom : ¬ limits.maxFiles ≤ c.files.length) (key : Path) (name text : String) :
    Counted limits ((c.enter key).record key name text) := by
  refine ⟨?_, ?_, ?_⟩
  · exact (congrArg (fun g => (g.updateStr name).updateBytes (utf8 text)) h.hasher).trans (streamOf_append _ _ _).symm
  · simp only [LoadContext.record, LoadContext.enter, List.length_append, List.length_singleton, h.files]
  · simp only [LoadContext.record, LoadContext.enter, List.length_append, List.length_singleton]
    omega

/-- The file and its base directory, and one it imports, as far as its text says. -/
def Imports (fs : Filesystem) (fe : Frontend) (limits : Limits) (p q : Path × Path) : Prop :=
  ∃ text nodes node pattern origin matched, readBounded fs p.1 limits.maxBytesPerFile = .ok text ∧
    fe.lower text (display fe p.1) = .ok nodes ∧ node ∈ nodes ∧ node.name = "import" ∧
    importPattern node = .ok (pattern, origin) ∧ resolve fs fe p.2 pattern = .ok matched ∧ q.1 ∈ matched ∧
    q.2 = if q.1 = [] then p.2 else q.1.dropLast

/-- A chain of imports from the root that comes to one file twice. -/
def Cyclic (fs : Filesystem) (fe : Frontend) (limits : Limits) (root : Path) : Prop :=
  ∃ chain, List.IsChain (Imports fs fe limits) ((root, root.dropLast) :: chain) ∧
    ¬ (((root, root.dropLast) :: chain).map fun p => normalize fs p.1).Nodup

end

/-! What the fingerprint tells. -/

section
variable {fs fs' : Filesystem} {fe : Frontend} {limits : Limits}

/-- The order in which the nodes of the files read come: the number of the file, and the place in it. -/
def order (fs : Filesystem) (fe : Frontend) (limits : Limits) (root : Path) : List (Nat × Nat) :=
  (walk fs fe limits (fun k j _ => (k, j)) root).1

/-- The files read, in turn. -/
def visits (fs : Filesystem) (fe : Frontend) (limits : Limits) (root : Path) : List (String × String) :=
  (walk fs fe limits (fun _ _ node => node) root).2.visits

/-- No two places in the files read hold the same node. -/
def Distinct (fe : Frontend) (visits : List (String × String)) : Prop :=
  ∀ p q : Nat × Nat, ∀ node, own fe visits p.1 p.2 = some node → own fe visits q.1 q.2 = some node → p = q

end

/-! One file in either of two directories. -/

namespace LoadSample

def at' (name : String) (offset length : U64) (line column : U32) : Origin := .file name ⟨offset, length, line, column⟩

def rootText : String := "import \"a/*.kdl\" optional=#true\nsite \"x\"\nimport \"b/*.kdl\" optional=#true\n"

def siteText : String := "site \"s\"\n"

/-- An optional `import` as the root has it. -/
def importAt (name pattern : String) (offset : U64) (line : U32) : Node :=
  ⟨"import", [⟨.str pattern, at' name (offset + 7) 9 line 8⟩],
    [⟨"optional", ⟨.bool true, at' name (offset + 17) 14 line 18⟩, at' name (offset + 17) 14 line 18⟩], [],
    at' name offset 31 line 1⟩

def siteAt (name host : String) (offset : U64) (line : U32) : Node :=
  ⟨"site", [⟨.str host, at' name (offset + 5) 3 line 6⟩], [], [], at' name offset 8 line 1⟩

def lower (text name : String) : Except Diagnostics (List Node) :=
  if text = rootText then .ok [importAt name "a/*.kdl" 0 1, siteAt name "x" 32 2, importAt name "b/*.kdl" 41 3]
  else if text = siteText then .ok [siteAt name "s" 0 1]
  else .ok []

def frontend : Frontend := ⟨lower, fun name => (String.fromUTF8? ⟨name.toArray⟩).getD ""⟩

def root : Path := [utf8 "gatel.kdl"]

/-- The file system where the one imported file is in this directory. -/
def filesystem (directory : String) : Filesystem :=
  let text : Path → Option String := fun path =>
    if path = root then some rootText
    else if path = [utf8 directory, utf8 "f.kdl"] then some siteText
    else none
  { metadata := fun path => if (text path).isSome then .ok true else .error "No such file or directory (os error 2)"
    openFile := fun path => match text path with
      | some text => .ok ⟨.ok (true, (utf8 text).length), fun _ => .ok text⟩
      | none => .error "No such file or directory (os error 2)"
    canonicalize := fun path => (text path).map fun _ => utf8 "srv" :: path
    present := fun path => (text path).isSome
    readDir := fun path => if path = [utf8 directory] then some [⟨utf8 "f.kdl", true⟩] else none }

def limits : Limits := ⟨256, 4194304, 8, 100000, 16⟩

def read : List (String × String) := [("gatel.kdl", rootText), ("f.kdl", siteText)]

/-- The digest of what is read. -/
def blake3 : Digest := fun written =>
  if written = (streamOf read).written then ⟨LittleEndian.bytes 32 0x860178c694600f65eaedd4f7e8b4d2be774b9f703d2092c866700a930de87f3b, LittleEndian.length_bytes 32 _⟩
  else .zero

def loads (fs : Filesystem) : Bool :=
  match loadWithLimits fs frontend limits blake3 root with
  | .ok _ => true
  | .error _ => false

theorem evaluated : (visits (filesystem "a") frontend limits root = read ∧ visits (filesystem "b") frontend limits root = read) ∧
    (loads (filesystem "a") = true ∧ loads (filesystem "b") = true) ∧
    (streamOf read).written.length < 2 ^ 64 ∧
    (walk (filesystem "a") frontend limits (fun _ _ node => node) root).1 ≠
      (walk (filesystem "b") frontend limits (fun _ _ node => node) root).1 := by decide +kernel

end LoadSample

end Gatel.Kdl
