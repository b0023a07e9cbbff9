import Gatel.Plan.RequestPath

namespace Gatel.FileServer
open RequestPath (join)

/-- `std::path::Component` on Unix. -/
inductive Component where
  | rootDir
  | curDir
  | parentDir
  | normal (part : Segment)
  deriving DecidableEq

/-- A part between slashes as a component; a single dot is one only in front. -/
def component (front : Bool) (part : Segment) : Option Component :=
  if part = [] then none
  else if part = ['.'] then (if front then some .curDir else none)
  else if part = ['.', '.'] then some .parentDir
  else some (.normal part)

/-- `Path::components`. -/
def components (text : List Char) : List Component :=
  let root : List Component := if text.head? = some '/' then [.rootDir] else []
  match text.splitOn '/' with
  | [] => root
  | first :: rest => root ++ (component true first).toList ++ rest.filterMap (component false)

/-- `u8::from_str_radix` of two characters: a leading plus is taken as a sign. -/
def fromStrRadix (high low : UInt8) : Option UInt8 :=
  if high = 43 then hex low else RequestPath.hexPair high low

/-- `percent_decode`. An escape cut by a character boundary holds no digit either. -/
def percentDecode (input : String) : Option String := (unescape fromStrRadix (utf8 input)).bind fromUtf8

def publicComponent (name : Segment) : Bool := !(name.isEmpty || name.head? == some '.' || name.any isControl)

/-- One component on top of the path so far. -/
@[grind =] def pushComponent (relative : List Segment) : Component → Option (List Segment)
  | .normal part => if publicComponent part then some (relative ++ [part]) else none
  | .curDir => some relative
  | .rootDir | .parentDir => none

def trimSlashes (path : String) : String := String.ofList (path.toList.dropWhile (· = '/'))

/-- `safe_relative`: a relative path, or a refusal. -/
def safeRelative (requestPath : String) : Option (List Segment) := do
  let decoded ← percentDecode (trimSlashes requestPath)
  if '\x00' ∈ decoded.toList then none
  else (components decoded.toList).foldlM pushComponent []

inductive Kind where
  | file
  | directory
  | other
  deriving DecidableEq

/-- What the server asks the operating system. -/
structure Files where
  canonicalize : List Segment → Option (List Segment)
  metadata : List Segment → Option Kind

inductive Target where
  | file (path : List Segment)
  | listing (path : List Segment)
  | redirect (location : String)
  | notFound
  deriving DecidableEq

structure Server where
  root : List Segment
  index : Option String
  browse : Bool
  precompressed : Bool
  fallback : Option String

/-- `Path::join` of an absolute path: one that is absolute itself takes its place. -/
def joinPath (base : List Segment) (path : String) : List Segment :=
  match path.toList with
  | '/' :: rest => rest.splitOn '/'
  | text => base ++ text.splitOn '/'

namespace Server

/-- `public_target` away from Windows: below the root, every name public. -/
def publicTarget (s : Server) (resolved : List Segment) : Bool :=
  s.root.isPrefixOf resolved && (resolved.drop s.root.length).all publicComponent

def containedFile (s : Server) (files : Files) (candidate : List Segment) : Option (List Segment) := do
  let resolved ← files.canonicalize candidate
  if s.publicTarget resolved then
    if (← files.metadata resolved) = .file then some resolved else none
  else none

/-- The part of `resolve` behind the candidate path. -/
def lookup (s : Server) (files : Files) (candidate : List Segment) (requestPath : String) : Target :=
  match files.canonicalize candidate with
  | none => .notFound
  | some resolved =>
    if s.publicTarget resolved then
      match files.metadata resolved with
      | none | some .other => .notFound
      | some .file => .file resolved
      | some .directory =>
        if requestPath.toList.getLast? ≠ some '/' then .redirect (requestPath ++ "/")
        else match s.index.bind fun index => s.containedFile files (joinPath resolved index) with
          | some path => .file path
          | none => if s.browse then .listing resolved else .notFound
    else .notFound

/-- Turn a request path into a file, refusing anything that leaves the root. -/
def resolve (s : Server) (files : Files) (requestPath : String) : Target :=
  match safeRelative requestPath with
  | none => .notFound
  | some relative => s.lookup files (s.root ++ relative) requestPath

/-- What to serve, the fallback included. -/
@[grind =] def serve (s : Server) (files : Files) (requestPath : String) : Target :=
  match s.resolve files requestPath, s.fallback with
  | .notFound, some fallback =>
    match s.resolve files fallback with
    | .file path => .file path
    | _ => .notFound
  | target, _ => target

end Server

/-- The file a routed path names below a root. -/
def named (routed : String) : List Segment := (routed.toList.splitOn '/').filter (· ≠ [])

@[grind =] def Component.name : Component → Option Segment
  | .normal part => some part
  | .rootDir | .curDir | .parentDir => none

theorem foldlM_pushComponent {parts : List Component} {acc r : List Segment}
    (h : parts.foldlM pushComponent acc = some r) :
    .rootDir ∉ parts ∧ .parentDir ∉ parts ∧ r = acc ++ parts.filterMap Component.name := by
  induction parts generalizing acc with
  | nil =>
    cases h
    simp
  | cons c parts ih =>
    rw [List.foldlM_cons] at h
    obtain ⟨acc', hc, hrest⟩ := Option.bind_eq_some_iff.mp h
    obtain ⟨hroot, hparent, hr⟩ := ih hrest
    cases c with
    | rootDir => cases hc
    | parentDir => cases hc
    | curDir =>
      cases hc
      simp [hroot, hparent, hr, Component.name, List.filterMap_cons]
    | normal part =>
      simp only [pushComponent, Option.ite_none_right_eq_some, Option.some.injEq] at hc
      obtain ⟨_, rfl⟩ := hc
      simp [hroot, hparent, hr, Component.name]

/-- Parts that name something. -/
def isName (part : Segment) : Bool := part ≠ [] ∧ part ≠ ['.'] ∧ part ≠ ['.', '.']

theorem component_name (front : Bool) (part : Segment) :
    (component front part).toList.filterMap Component.name = [part].filter isName := by
  unfold component
  by_cases hnil : part = []
  · simp [hnil, isName]
  · by_cases hdot : part = ['.']
    · cases front <;> simp [hdot, Component.name, isName, List.filterMap_cons]
    · by_cases hdots : part = ['.', '.'] <;> simp [hnil, hdot, hdots, Component.name, isName, List.filterMap_cons]

theorem filterMap_component (parts : List Segment) :
    (parts.filterMap (component false)).filterMap Component.name = parts.filter isName := by
  induction parts with
  | nil => rfl
  | cons part parts ih =>
    have hsplit : (part :: parts).filterMap (component false) =
        (component false part).toList ++ parts.filterMap (component false) := by
      cases hc : component false part <;> simp [hc]
    rw [hsplit, List.filterMap_append, component_name, ih, ← List.filter_append]
    rfl

/-- Dropping what is no component leaves the named parts. -/
theorem filterMap_components (text : List Char) :
    (components text).filterMap Component.name = (text.splitOn '/').filter isName := by
  have hroot : (if text.head? = some '/' then [Component.rootDir] else []).filterMap Component.name = [] := by
    split <;> rfl
  unfold components
  simp only
  cases hs : text.splitOn '/' with
  | nil => exact absurd hs (List.splitOn_ne_nil _ _)
  | cons first rest =>
    rw [List.filterMap_append, List.filterMap_append, hroot, component_name, filterMap_component, List.nil_append,
      ← List.filter_append]
    rfl

theorem parentDir_mem {text : List Char} (h : ['.', '.'] ∈ text.splitOn '/') : .parentDir ∈ components text := by
  unfold components
  simp only
  cases hs : text.splitOn '/' with
  | nil => exact absurd hs (List.splitOn_ne_nil _ _)
  | cons first rest =>
    rw [hs, List.mem_cons] at h
    rcases h with rfl | h
    · simp [component]
    · apply List.mem_append_right
      exact List.mem_filterMap.mpr ⟨_, h, by simp [component]⟩

/-- What `safe_relative` accepts, and what it makes of it. -/
theorem safeRelative_spec {p : String} {r : List Segment} (h : safeRelative p = some r) :
    ∃ decoded, percentDecode (trimSlashes p) = some decoded ∧ ['.', '.'] ∉ decoded.toList.splitOn '/' ∧
      r = (decoded.toList.splitOn '/').filter fun part => part ≠ [] ∧ part ≠ ['.'] := by
  obtain ⟨decoded, hdecoded, hrest⟩ := Option.bind_eq_some_iff.mp h
  simp only [Option.ite_none_left_eq_some] at hrest
  obtain ⟨_, hfold⟩ := hrest
  obtain ⟨_, hparent, hr⟩ := foldlM_pushComponent hfold
  have hdots : ['.', '.'] ∉ decoded.toList.splitOn '/' := fun hm => hparent (parentDir_mem hm)
  refine ⟨decoded, hdecoded, hdots, ?_⟩
  rw [hr, List.nil_append, filterMap_components]
  apply List.filter_congr
  intro part hp
  have hne : part ≠ ['.', '.'] := by
    rintro rfl
    exact hdots hp
  simp [isName, hne]

/-! The two decoders beside each other. -/

theorem hexPair_le (high low b : UInt8) (h : RequestPath.hexPair high low = some b) : fromStrRadix high low = some b := by
  unfold fromStrRadix
  split
  · rename_i hplus
    subst hplus
    cases h
  · exact h

theorem splitOn_slashes (n : Nat) (text : List Char) :
    (List.replicate n '/' ++ text).splitOn '/' = List.replicate n [] ++ text.splitOn '/' := by
  induction n with
  | zero => rfl
  | succ n ih =>
    have hcons := List.splitOn_append_cons_self (a := '/') [] (List.replicate n '/' ++ text)
    rw [List.nil_append, ih] at hcons
    rw [List.replicate_succ, List.cons_append, hcons, List.replicate_succ]
    rfl

/-- The slashes in front of a path, and the rest. -/
theorem slashes_append (p : String) :
    ∃ n, p.toList = List.replicate n '/' ++ (trimSlashes p).toList ∧
      utf8 p = List.replicate n 47 ++ utf8 (trimSlashes p) := by
  refine ⟨(p.toList.takeWhile (· = '/')).length, ?_⟩
  have hrep : p.toList.takeWhile (· = '/') = List.replicate (p.toList.takeWhile (· = '/')).length '/' := by
    apply List.eq_replicate_of_mem
    intro c hc
    simpa using List.mem_takeWhile_imp hc
  have hlist : p.toList = List.replicate (p.toList.takeWhile (· = '/')).length '/' ++ (trimSlashes p).toList := by
    rw [← hrep, trimSlashes, String.toList_ofList, List.takeWhile_append_dropWhile]
  refine ⟨hlist, ?_⟩
  generalize (p.toList.takeWhile (· = '/')).length = n at hlist ⊢
  rw [utf8_eq_flatMap, hlist, List.flatMap_append, utf8_eq_flatMap]
  congr 1
  clear hlist hrep
  induction n with
  | zero => rfl
  | succ n ih =>
    rw [List.replicate_succ, List.flatMap_cons, ih, List.replicate_succ]
    rfl

/-- The parts a joined path was made of are the parts it names. -/
theorem named_join {parts : List Segment} (hsep : ∀ part ∈ parts, '/' ∉ part) (hne : ∀ part ∈ parts, part ≠ [])
    {q : String} (hq : q.toList = join parts ∨ q.toList = join parts ++ ['/']) : named q = parts := by
  have hsplit : ((['/'].intercalate parts).splitOn '/').filter (· ≠ []) = parts := by
    by_cases hp : parts = []
    · simp [hp]
    · rw [List.splitOn_intercalate '/' hsep hp]
      exact List.filter_eq_self.mpr fun part hm => by simpa using hne part hm
  have hfront (text : List Char) : (('/' :: text).splitOn '/').filter (· ≠ []) = (text.splitOn '/').filter (· ≠ []) := by
    rw [← List.nil_append ('/' :: text), List.splitOn_append_cons_self, List.filter_append]
    rfl
  rw [named]
  rcases hq with he | he
  · rw [he, join, hfront, hsplit]
  · rw [he, join, List.cons_append, hfront, List.splitOn_append_cons_self, List.filter_append, hsplit]
    simp

/-- What `routing_path` made of a path that is not an asterisk. -/
theorem routingPath_spec {p q : String} (h : routingPath p = some q) (hstar : p ≠ "*") :
    p.toList.head? = some '/' ∧
      ((RequestPath.needsNormalizing p.toList = false ∧ q = p) ∨
        ∃ bytes decoded, unescape RequestPath.hexPair (utf8 p) = some bytes ∧
          fromUtf8 (bytes.map RequestPath.separator) = some decoded ∧
          q = String.ofList (RequestPath.canonical decoded.toList)) := by
  unfold routingPath at h
  rw [if_neg hstar] at h
  split at h
  · cases h
  · rename_i hhead
    refine ⟨not_not.mp hhead, ?_⟩
    split at h
    · rename_i hneeds
      simp only [Option.ite_none_left_eq_some, Option.some.injEq] at h
      exact Or.inl ⟨by simpa using hneeds, h.2.symm⟩
    · obtain ⟨bytes, hbytes, h⟩ := Option.bind_eq_some_iff.mp h
      obtain ⟨decoded, hdecoded, h⟩ := Option.bind_eq_some_iff.mp h
      simp only [Option.ite_none_left_eq_some, Option.some.injEq] at h
      exact Or.inr ⟨bytes, decoded, hbytes, hdecoded, h.2.symm⟩

/-- A path without escapes is its own decoding. -/
theorem percentDecode_plain {p : String} (h : '%' ∉ p.toList) : percentDecode p = some p := by
  have hb : (37 : UInt8) ∉ utf8 p := by
    rw [← mem_utf8_iff (c := '%') (by decide) p] at h
    exact h
  rw [percentDecode, unescape_plain hb]
  exact fromUtf8_eq_some.mpr rfl

/-- Both decoders on one path: the same text behind the slashes in front, but for the backslashes. -/
theorem decoders_agree {p : String} {bytes : List UInt8} {routed text : String}
    (hbytes : unescape RequestPath.hexPair (utf8 p) = some bytes)
    (hrouted : fromUtf8 (bytes.map RequestPath.separator) = some routed)
    (htext : percentDecode (trimSlashes p) = some text) :
    '\\' ∉ routed.toList ∧
      ('\\' ∉ text.toList → ∃ n, routed.toList = List.replicate n '/' ++ text.toList) := by
  constructor
  · intro hm
    have hb := (mem_utf8_iff (c := '\\') (by decide) routed).mpr hm
    rw [fromUtf8_eq_some.mp hrouted] at hb
    exact RequestPath.separator_ne bytes hb
  · intro hm
    obtain ⟨n, -, hutf⟩ := slashes_append p
    obtain ⟨tail, htail, hfrom⟩ := Option.bind_eq_some_iff.mp htext
    have hall := unescape_mono hexPair_le hbytes
    rw [hutf, unescape_slashes, htail, Option.map_some, Option.some.injEq] at hall
    have hno : (92 : UInt8) ∉ bytes := by
      rw [← hall, List.mem_append, not_or]
      refine ⟨fun hr => absurd (List.eq_of_mem_replicate hr) (by decide), ?_⟩
      rw [← fromUtf8_eq_some.mp hfrom]
      exact fun hb => hm ((mem_utf8_iff (c := '\\') (by decide) text).mp hb)
    rw [RequestPath.separator_id hno, ← hall] at hrouted
    obtain ⟨t, ht, he⟩ := fromUtf8_slashes hrouted
    rw [hfrom] at ht
    cases ht
    exact ⟨n, he⟩

/-- Empty parts in front do not count. -/
theorem filter_slashes (n : Nat) (text : List Char) :
    ((List.replicate n '/' ++ text).splitOn '/').filter (fun part => part ≠ [] ∧ part ≠ ['.']) =
      (text.splitOn '/').filter fun part => part ≠ [] ∧ part ≠ ['.'] := by
  rw [splitOn_slashes, List.filter_append, List.filter_replicate]
  simp

/-- The file server's path is the routed one where both decode to the same text. -/
theorem routed_join {p q decoded : String} (hq : routingPath p = some q) (hstar : p ≠ "*")
    (hdecoded : percentDecode (trimSlashes p) = some decoded) (hback : '\\' ∉ decoded.toList)
    (hdots : ['.', '.'] ∉ decoded.toList.splitOn '/') :
    q.toList = join ((decoded.toList.splitOn '/').filter fun part => part ≠ [] ∧ part ≠ ['.']) ∨
      q.toList = join ((decoded.toList.splitOn '/').filter fun part => part ≠ [] ∧ part ≠ ['.']) ++ ['/'] := by
  obtain ⟨hhead, ⟨hneeds, rfl⟩ | ⟨bytes, routed, hbytes, hrouted, rfl⟩⟩ := routingPath_spec hq hstar
  · -- Nothing to normalize: the path is routed as it is written.
    obtain ⟨hpercent, -, hdouble, hdots'⟩ := RequestPath.plain_of_not_needs hneeds
    have hdot : ['.'] ∉ q.toList.splitOn '/' := fun hm => absurd (hdots' _ hm) (by decide)
    obtain ⟨n, hlist, -⟩ := slashes_append q
    have htrim : '%' ∉ (trimSlashes q).toList := fun hm => hpercent (hlist ▸ List.mem_append_right _ hm)
    rw [percentDecode_plain htrim] at hdecoded
    cases hdecoded
    rw [← filter_slashes n, ← hlist]
    cases hq : q.toList with
    | nil =>
      rw [hq] at hhead
      cases hhead
    | cons c rest =>
      rw [hq] at hhead hdouble hdot
      cases hhead
      have hsplit : ('/' :: rest).splitOn '/' = [] :: rest.splitOn '/' :=
        List.splitOn_append_cons_self [] rest
      rw [hsplit, List.mem_cons, not_or] at hdot
      have hjoin : join (rest.splitOn '/') = '/' :: rest := by rw [join, List.intercalate_splitOn]
      rw [hsplit, List.filter_cons_of_neg (by simp), ← hjoin]
      rw [← hjoin] at hdouble
      exact RequestPath.join_filter hdot.2 (RequestPath.ne_nil_of_mem_dropLast hdouble)
  · obtain ⟨n, hlist⟩ := (decoders_agree hbytes hrouted hdecoded).2 hback
    have hno : ['.', '.'] ∉ routed.toList.splitOn '/' := by
      rw [hlist, splitOn_slashes, List.mem_append, not_or]
      exact ⟨fun hm => absurd (List.eq_of_mem_replicate hm) (by decide), hdots⟩
    rw [String.toList_ofList, ← filter_slashes n, ← hlist]
    have hfold := RequestPath.foldl_push hno []
    rw [List.nil_append] at hfold
    rw [← hfold]
    exact RequestPath.canonical_cases _

/-- A backslash may reach the file server's path, but no routed one. -/
theorem backslash_not_routed {p q decoded : String} (hq : routingPath p = some q) (hstar : p ≠ "*")
    (hdecoded : percentDecode (trimSlashes p) = some decoded) : '\\' ∉ q.toList := by
  obtain ⟨_, ⟨hneeds, rfl⟩ | ⟨bytes, routed, hbytes, hrouted, rfl⟩⟩ := routingPath_spec hq hstar
  · exact (RequestPath.plain_of_not_needs hneeds).2.1
  · rw [String.toList_ofList]
    intro hm
    exact (decoders_agree hbytes hrouted hdecoded).1 (RequestPath.mem_of_mem_canonical (by decide) hm)

/-- The file server serves the path that was routed, unless the path is an asterisk or decodes
to one with a backslash, which only routing takes for a separator. -/
theorem served_as_routed_iff {p q : String} {r : List Segment} (hq : routingPath p = some q)
    (hr : safeRelative p = some r) :
    ((q.toList = join r ∨ q.toList = join r ++ ['/']) ∧ named q = r ∧
        ∀ (server : Server) files, server.resolve files p = server.lookup files (server.root ++ named q) p) ↔
      p ≠ "*" ∧ ∀ text, percentDecode (trimSlashes p) = some text → '\\' ∉ text.toList := by
  obtain ⟨decoded, hdecoded, hdots, hparts⟩ := safeRelative_spec hr
  constructor
  · intro h
    obtain ⟨hjoin, -⟩ := h
    have hstar : p ≠ "*" := by
      rintro rfl
      have hr' : safeRelative "*" = some [['*']] := by decide
      have hq' : routingPath "*" = some "*" := rfl
      cases hr.symm.trans hr'
      cases hq.symm.trans hq'
      revert hjoin
      decide
    refine ⟨hstar, ?_⟩
    intro text htext hback
    cases hdecoded.symm.trans htext
    obtain ⟨part, hpart, hin⟩ := (RequestPath.mem_splitOn (by decide) decoded.toList).mp hback
    have hmem : '\\' ∈ join r := by
      refine (RequestPath.mem_join (by decide) r).mpr ⟨part, ?_, hin⟩
      rw [hparts, List.mem_filter]
      refine ⟨hpart, ?_⟩
      have hnil : part ≠ [] := List.ne_nil_of_mem hin
      have hdot : part ≠ ['.'] := by
        rintro rfl
        revert hin
        decide
      simp [hnil, hdot]
    apply backslash_not_routed hq hstar hdecoded
    rcases hjoin with he | he
    · rwa [he]
    · rw [he]
      exact List.mem_append_left _ hmem
  · intro h
    obtain ⟨hstar, hback⟩ := h
    have hjoin := routed_join hq hstar hdecoded (hback decoded hdecoded) hdots
    rw [← hparts] at hjoin
    have hnamed : named q = r := by
      apply named_join ?_ ?_ hjoin
      · intro part hp
        rw [hparts, List.mem_filter] at hp
        exact RequestPath.sep_not_mem_splitOn part hp.1
      · intro part hp
        rw [hparts, List.mem_filter] at hp
        exact (by simpa using hp.2 : part ≠ [] ∧ part ≠ ['.']).1
    refine ⟨hjoin, hnamed, ?_⟩
    intro server files
    rw [Server.resolve, hr, hnamed]

theorem served_as_routed_iff_dotted :
    (("/a b/" : String).toList = join [['a', ' ', 'b']] ∨ ("/a b/" : String).toList = join [['a', ' ', 'b']] ++ ['/']) ∧
      named "/a b/" = [['a', ' ', 'b']] ∧
      ∀ (server : Server) files,
        server.resolve files "//a%20b/." = server.lookup files (server.root ++ named "/a b/") "//a%20b/." := by
  refine (served_as_routed_iff (p := "//a%20b/.") (by decide) (by decide +kernel)).mpr ⟨by decide, ?_⟩
  intro text ht
  have hd : percentDecode (trimSlashes "//a%20b/.") = some "a b/." := by decide +kernel
  cases hd.symm.trans ht
  decide

/-- Routed and authorized as `/private/file`, looked up as one name with a backslash in it. -/
theorem backslash_served_elsewhere :
    routingPath "/private%5cfile" = some "/private/file" ∧
      safeRelative "/private%5cfile" = some ["private\\file".toList] ∧
      ¬ (("/private/file" : String).toList = join ["private\\file".toList] ∨
        ("/private/file" : String).toList = join ["private\\file".toList] ++ ['/']) := by
  decide +kernel

end Gatel.FileServer
