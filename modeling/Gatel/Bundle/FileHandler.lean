import Gatel.Bundle.FileListing
import Gatel.Bundle.LocalRedirect

namespace Gatel.FileServer
open CanonicalSort (sortBy mem_sortBy)
open FileListing (segment escape)

/-- What `next_entry` returns; a name that is no text cannot be asked for. -/
inductive DirEntry where
  | failed
  | unnamed
  | named (name : String)

/-- What one request sees of the file system. -/
structure FileSystem extends Files where
  opens : List Segment → Bool
  modified : List Segment → Option Nat
  readDir : List Segment → Option (List DirEntry)

/-- Index, fallback and the other settings of a `file-server`; the root is what the configuration names. -/
structure Config where
  root : String
  index : Option String
  browse : Bool
  precompressed : Bool
  fallback : Option String

/-- Resolve the root once, so every request compares against a path that is already canonical. -/
def Config.build (c : Config) (files : Files) (base : List Segment) : Option Server := do
  let root ← files.canonicalize (joinPath base c.root)
  if files.metadata root = some .directory then some ⟨root, c.index, c.browse, c.precompressed, c.fallback⟩ else none

theorem Config.build_root {c : Config} {files : Files} {base : List Segment} {s : Server} (h : c.build files base = some s) :
    files.canonicalize (joinPath base c.root) = some s.root ∧ files.metadata s.root = some .directory := by
  obtain ⟨root, hcanonical, hrest⟩ := Option.bind_eq_some_iff.mp h
  simp only [Option.ite_none_right_eq_some, Option.some.injEq] at hrest
  obtain ⟨hdirectory, rfl⟩ := hrest
  exact ⟨hcanonical, hdirectory⟩

/-! Directory browsing. -/

structure Row where
  name : String
  directory : Bool
  deriving DecidableEq

def Row.text (r : Row) : String :=
  let suffix := if r.directory then "/" else ""
  "<li><a href=\"./" ++ segment r.name ++ suffix ++ "\">" ++ escape r.name ++ suffix ++ "</a></li>\n"

def maxEntries : Nat := 10000
def maxHtmlBytes : Nat := 2 * 1024 * 1024

/-- The row of one entry, if it is shown. -/
def Server.row (s : Server) (fs : FileSystem) (directory : List Segment) (name : String) : Option Row :=
  if publicComponent name.toList then
    (fs.canonicalize (directory ++ [name.toList])).bind fun resolved =>
      if s.publicTarget resolved then
        match fs.metadata resolved with
        | some .file => some ⟨name, false⟩
        | some .directory => some ⟨name, true⟩
        | some .other | none => none
      else none
  else none

/-- The entries read so far, the bytes of their rows, and the rows. -/
@[grind =] def Server.scan (s : Server) (fs : FileSystem) (directory : List Segment) (maxEntries maxBytes : Nat) :
    Nat → Nat → List Row → List DirEntry → Except Nat (Nat × List Row)
  | _, bytes, rows, [] => .ok (bytes, rows)
  | _, _, _, .failed :: _ => .error 500
  | scanned, bytes, rows, .unnamed :: entries =>
    if maxEntries < scanned + 1 then .error 503 else s.scan fs directory maxEntries maxBytes (scanned + 1) bytes rows entries
  | scanned, bytes, rows, .named name :: entries =>
    if maxEntries < scanned + 1 then .error 503
    else match s.row fs directory name with
      | none => s.scan fs directory maxEntries maxBytes (scanned + 1) bytes rows entries
      | some row =>
        if maxBytes < bytes + row.text.utf8ByteSize then .error 503
        else s.scan fs directory maxEntries maxBytes (scanned + 1) (bytes + row.text.utf8ByteSize) (rows ++ [row]) entries

def pageHead (requestPath : String) : String :=
  "<!doctype html>\n<meta charset=\"utf-8\">\n<title>" ++ escape requestPath ++ "</title>\n<ul>\n" ++
    (if requestPath ≠ "/" then "<li><a href=\"../\">../</a></li>\n" else "")

/-- A page of these rows. -/
def page (requestPath : String) (rows : List Row) : String :=
  pageHead requestPath ++ String.join (rows.map Row.text) ++ "</ul>\n"

def Server.render (s : Server) (fs : FileSystem) (directory : List Segment) (requestPath : String) (maxEntries maxBytes : Nat) :
    Except Nat String :=
  match fs.readDir directory with
  | none => .error 404
  | some entries =>
    match s.scan fs directory maxEntries maxBytes 0 0 [] entries with
    | .error status => .error status
    | .ok (bytes, rows) =>
      if maxBytes < (pageHead requestPath).utf8ByteSize + bytes + 6 then .error 503
      else .ok (page requestPath (sortBy (fun a b => compare a.name b.name) rows))

/-! A request. -/

/-- A path with this behind its last name. -/
def withSuffix (path : List Segment) (suffix : String) : List Segment :=
  path.dropLast ++ [path.getLast?.getD [] ++ '.' :: suffix.toList]

/-- Already-compressed files beside a file, where they are no older. -/
def Server.precompressedVariants (s : Server) (fs : FileSystem) (path : List Segment) : List (List Segment × String) :=
  if s.precompressed then
    match fs.modified path with
    | none => []
    | some modified => [("br", "br"), ("zst", "zstd"), ("gz", "gzip")].filterMap fun (suffix, encoding) =>
      (s.containedFile fs.toFiles (withSuffix path suffix)).bind fun resolved =>
        (fs.modified resolved).bind fun time => if modified ≤ time then some (resolved, encoding) else none
  else []

/-- What `Accept-Encoding` comes to. -/
inductive Selection where
  | invalid
  | identity
  | coding (token : String)
  | notAcceptable

def Selection.token? : Selection → Option String
  | .coding token => some token
  | .invalid | .identity | .notAcceptable => none

inductive Answer where
  | methodNotAllowed
  | redirect (location : Option (List UInt8))
  | listing (page : Except Nat String)
  | notFound
  | notAcceptable
  | unreadable (source : List Segment)
  | file (source : List Segment) (coding : Option String)

/-- An answer, the files opened for it, and the paths resolved. -/
structure Served where
  answer : Answer
  opened : List (List Segment)
  resolved : List String

/-- `serve`, and what it resolved on the way. -/
def Server.serveTraced (s : Server) (files : Files) (requestPath : String) : Target × List String :=
  match s.resolve files requestPath, s.fallback with
  | .notFound, some fallback =>
    match s.resolve files fallback with
    | .file path => (.file path, [requestPath, fallback])
    | _ => (.notFound, [requestPath, fallback])
  | target, _ => (target, [requestPath])

/-- A file is sent as it is, or as the variant that was selected; `select` and `dynamic` are the negotiation. -/
@[grind =] def Server.handleFile (s : Server) (fs : FileSystem) (select : List String → Selection) (dynamic : List String)
    (file : List Segment) : Answer × List (List Segment) :=
  if fs.opens file then
    let variants := s.precompressedVariants fs file
    match select (variants.map Prod.snd ++ dynamic) with
    | .notAcceptable => (.notAcceptable, [file])
    | selection =>
      match selection.token?.bind fun coding => variants.find? fun variant => variant.2 = coding with
      | some (variant, coding) =>
        if fs.opens variant then (.file variant (some coding), [file, variant]) else (.unreadable variant, [file, variant])
      | none => (.file file selection.token?, [file])
  else (.unreadable file, [file])

def Server.handle (s : Server) (fs : FileSystem) (select : List String → Selection) (dynamic : List String) (method path : String)
    (query : Option String) : Served :=
  if method ≠ "GET" ∧ method ≠ "HEAD" then ⟨.methodNotAllowed, [], []⟩
  else
    let served := s.serveTraced fs.toFiles path
    match served.1 with
    | .file file => ⟨(s.handleFile fs select dynamic file).1, (s.handleFile fs select dynamic file).2, served.2⟩
    | .redirect sent => ⟨.redirect (LocalRedirect.location sent query), [], served.2⟩
    | .listing directory => ⟨.listing (s.render fs directory path maxEntries maxHtmlBytes), [], served.2⟩
    | .notFound => ⟨.notFound, [], served.2⟩

namespace Server

/-- At the root or below it, all names on the way public. -/
def Within (s : Server) (path : List Segment) (below : List Segment) : Prop :=
  path = s.root ++ below ∧ ∀ name ∈ below, name ≠ [] ∧ name.head? ≠ some '.' ∧ ∀ c ∈ name, isControl c = false

/-- A regular file at its canonical path, strictly below the root. -/
structure Contained (s : Server) (fs : FileSystem) (path : List Segment) : Prop where
  canonical : ∃ candidate, fs.canonicalize candidate = some path
  file : fs.metadata path = some .file
  below : ∃ below, below ≠ [] ∧ s.Within path below

variable {s : Server} {fs : FileSystem} {path candidate : List Segment}

theorem publicTarget_iff (s : Server) (resolved : List Segment) : s.publicTarget resolved = true ↔ ∃ below, s.Within resolved below := by
  rw [publicTarget, Bool.and_eq_true, List.isPrefixOf_iff_prefix, List.all_eq_true]
  constructor
  · intro h
    obtain ⟨⟨below, rfl⟩, hpublic⟩ := h
    rw [List.drop_left] at hpublic
    exact ⟨below, rfl, fun name hname => (FileListing.publicComponent_iff name).mp (hpublic name hname)⟩
  · intro h
    obtain ⟨below, rfl, hpublic⟩ := h
    refine ⟨⟨below, rfl⟩, ?_⟩
    rw [List.drop_left]
    exact fun name hname => (FileListing.publicComponent_iff name).mpr (hpublic name hname)

/-- What passes the check and is a file is contained, the root being none. -/
theorem contained_of_public (hroot : fs.metadata s.root = some .directory) (hcanonical : fs.canonicalize candidate = some path)
    (hpublic : s.publicTarget path = true) (hfile : fs.metadata path = some .file) : s.Contained fs path := by
  obtain ⟨below, hpath, hnames⟩ := (publicTarget_iff s path).mp hpublic
  refine ⟨⟨candidate, hcanonical⟩, hfile, below, ?_, hpath, hnames⟩
  intro hnil
  rw [hpath, hnil, List.append_nil, hroot] at hfile
  cases hfile

theorem containedFile_contained (hroot : fs.metadata s.root = some .directory)
    (h : s.containedFile fs.toFiles candidate = some path) : s.Contained fs path := by
  obtain ⟨resolved, hcanonical, hrest⟩ := Option.bind_eq_some_iff.mp h
  simp only [Option.ite_none_right_eq_some] at hrest
  obtain ⟨hpublic, hkind⟩ := hrest
  obtain ⟨kind, hmetadata, hif⟩ := Option.bind_eq_some_iff.mp hkind
  simp only [Option.ite_none_right_eq_some, Option.some.injEq] at hif
  obtain ⟨rfl, rfl⟩ := hif
  exact contained_of_public hroot hcanonical hpublic hmetadata

/-- What a candidate turns out to be, if it is served. -/
theorem lookup_spec (hroot : fs.metadata s.root = some .directory) (requestPath : String) :
    match s.lookup fs.toFiles candidate requestPath with
    | .file file => s.Contained fs file
    | .listing directory => s.publicTarget directory = true
    | .redirect _ | .notFound => True := by
  unfold lookup
  rcases hcanonical : fs.canonicalize candidate with _ | resolved
  · trivial
  · dsimp only
    by_cases hpublic : s.publicTarget resolved = true
    · rw [if_pos hpublic]
      rcases hmetadata : fs.metadata resolved with _ | _ | _ | _
      · trivial
      · exact contained_of_public hroot hcanonical hpublic hmetadata
      · dsimp only
        by_cases hlast : requestPath.toList.getLast? ≠ some '/'
        · rw [if_pos hlast]
          trivial
        · rw [if_neg hlast]
          rcases hindex : s.index.bind fun index => s.containedFile fs.toFiles (joinPath resolved index) with _ | file
          · dsimp only
            by_cases hbrowse : s.browse = true
            · rw [if_pos hbrowse]
              exact hpublic
            · rw [if_neg hbrowse]
              trivial
          · obtain ⟨index, -, hfile⟩ := Option.bind_eq_some_iff.mp hindex
            exact containedFile_contained hroot hfile
      · trivial
    · rw [if_neg hpublic]
      trivial

theorem resolve_spec (hroot : fs.metadata s.root = some .directory) (requestPath : String) :
    match s.resolve fs.toFiles requestPath with
    | .file file => s.Contained fs file
    | .listing directory => s.publicTarget directory = true
    | .redirect _ | .notFound => True := by
  unfold resolve
  cases safeRelative requestPath with
  | none => trivial
  | some relative => exact lookup_spec hroot requestPath

/-- A request is resolved, and after a miss the fallback, which yields a file or nothing. -/
theorem serveTraced_cases (s : Server) (files : Files) (requestPath : String) :
    s.serveTraced files requestPath = (s.resolve files requestPath, [requestPath]) ∨
      ∃ fallback, s.fallback = some fallback ∧ s.resolve files requestPath = .notFound ∧
        (s.serveTraced files requestPath).2 = [requestPath, fallback] ∧
        ((s.serveTraced files requestPath).1 = .notFound ∨
          ∃ file, s.resolve files fallback = .file file ∧ (s.serveTraced files requestPath).1 = .file file) := by
  unfold serveTraced
  rcases hresolve : s.resolve files requestPath with file | directory | sent | _
  · exact .inl rfl
  · exact .inl rfl
  · exact .inl rfl
  · rcases hfallback : s.fallback with _ | fallback
    · exact .inl rfl
    · right
      refine ⟨fallback, rfl, rfl, ?_⟩
      dsimp only
      rcases hagain : s.resolve files fallback with file | directory | sent | _
      · exact ⟨rfl, .inr ⟨file, rfl, rfl⟩⟩
      · exact ⟨rfl, .inl rfl⟩
      · exact ⟨rfl, .inl rfl⟩
      · exact ⟨rfl, .inl rfl⟩

/-- Tracing changes nothing of what is served. -/
theorem serveTraced_fst (s : Server) (files : Files) (requestPath : String) :
    (s.serveTraced files requestPath).1 = s.serve files requestPath := by
  unfold serveTraced serve
  rcases s.resolve files requestPath with file | directory | sent | _
  · rfl
  · rfl
  · rfl
  · rcases s.fallback with _ | fallback
    · rfl
    · dsimp only
      rcases s.resolve files fallback with file | directory | sent | _ <;> rfl

theorem serveTraced_spec (hroot : fs.metadata s.root = some .directory) (requestPath : String) :
    match (s.serveTraced fs.toFiles requestPath).1 with
    | .file file => s.Contained fs file
    | .listing directory => s.publicTarget directory = true
    | .redirect _ | .notFound => True := by
  rcases serveTraced_cases s fs.toFiles requestPath with hfirst | ⟨fallback, -, -, -, hmiss | ⟨file, hagain, hfile⟩⟩
  · rw [hfirst]
    exact resolve_spec hroot requestPath
  · rw [hmiss]
    trivial
  · have hspec := resolve_spec hroot fallback
    rw [hagain] at hspec
    rw [hfile]
    exact hspec

theorem precompressedVariants_contained (hroot : fs.metadata s.root = some .directory) {file : List Segment}
    {variant : List Segment × String} (h : variant ∈ s.precompressedVariants fs file) : s.Contained fs variant.1 := by
  unfold precompressedVariants at h
  split at h
  · split at h
    · cases h
    · obtain ⟨⟨suffix, encoding⟩, -, hv⟩ := List.mem_filterMap.mp h
      obtain ⟨resolved, hresolved, htime⟩ := Option.bind_eq_some_iff.mp hv
      obtain ⟨time, -, hif⟩ := Option.bind_eq_some_iff.mp htime
      simp only [Option.ite_none_right_eq_some, Option.some.injEq] at hif
      rw [← hif.2]
      exact containedFile_contained hroot hresolved
  · cases h

/-- Only the file itself and the variant that was selected are opened. -/
theorem handleFile_opened (hroot : fs.metadata s.root = some .directory) (select : List String → Selection)
    (dynamic : List String) {file : List Segment} (hfile : s.Contained fs file) :
    ∀ opened ∈ (s.handleFile fs select dynamic file).2, s.Contained fs opened := by
  have hone : ∀ opened ∈ [file], s.Contained fs opened := by
    intro opened h
    rw [List.mem_singleton.mp h]
    exact hfile
  unfold handleFile
  split
  · dsimp only
    split
    · exact hone
    · split
      · rename_i variant coding hfound
        have hvariant : s.Contained fs variant := by
          obtain ⟨token, -, hfind⟩ := Option.bind_eq_some_iff.mp hfound
          exact precompressedVariants_contained hroot (List.mem_of_find?_eq_some hfind)
        have htwo : ∀ opened ∈ [file, variant], s.Contained fs opened := by
          intro opened h
          rcases List.mem_cons.mp h with rfl | h
          · exact hfile
          · rw [List.mem_singleton.mp h]
            exact hvariant
        split
        · exact htwo
        · exact htwo
      · exact hone
  · exact hone

/-! Rows. -/

/-- What a row stands for: a contained file, or a public directory. -/
def RowOf (s : Server) (fs : FileSystem) (directory : List Segment) (row : Row) : Prop :=
  ∃ resolved, fs.canonicalize (directory ++ [row.name.toList]) = some resolved ∧
    (row.directory = false → s.Contained fs resolved) ∧
    (row.directory = true → fs.metadata resolved = some .directory ∧ ∃ below, s.Within resolved below)

theorem row_spec (hroot : fs.metadata s.root = some .directory) {directory : List Segment} {name : String} {row : Row}
    (h : s.row fs directory name = some row) : row.name = name ∧ s.RowOf fs directory row := by
  simp only [Server.row, Option.ite_none_right_eq_some] at h
  obtain ⟨resolved, hcanonical, hrest⟩ := Option.bind_eq_some_iff.mp h.2
  simp only [Option.ite_none_right_eq_some] at hrest
  obtain ⟨hpublic, hkind⟩ := hrest
  rcases hmetadata : fs.metadata resolved with _ | _ | _ | _
  · simp [hmetadata] at hkind
  · simp only [hmetadata, Option.some.injEq] at hkind
    subst hkind
    refine ⟨rfl, resolved, hcanonical, ?_, ?_⟩
    · exact fun _ => contained_of_public hroot hcanonical hpublic hmetadata
    · intro hdir
      cases hdir
  · simp only [hmetadata, Option.some.injEq] at hkind
    subst hkind
    refine ⟨rfl, resolved, hcanonical, ?_, ?_⟩
    · intro hdir
      cases hdir
    · exact fun _ => ⟨hmetadata, (publicTarget_iff s resolved).mp hpublic⟩
  · simp [hmetadata] at hkind

/-- Every entry that becomes a row is one. -/
theorem scan_rows (hroot : fs.metadata s.root = some .directory) {directory : List Segment} {maxEntries maxBytes : Nat}
    {entries : List DirEntry} {scanned bytes : Nat} {rows : List Row} {read : Nat × List Row}
    (hrows : ∀ row ∈ rows, s.RowOf fs directory row)
    (h : s.scan fs directory maxEntries maxBytes scanned bytes rows entries = .ok read) :
    ∀ row ∈ read.2, s.RowOf fs directory row := by
  induction entries generalizing scanned bytes rows with
  | nil =>
    cases h
    exact hrows
  | cons entry entries ih =>
    cases entry with
    | failed => cases h
    | unnamed =>
      rw [scan] at h
      split at h
      · cases h
      · exact ih hrows h
    | named name =>
      rw [scan] at h
      split at h
      · cases h
      · rcases hrow : s.row fs directory name with _ | row
        · simp only [hrow] at h
          exact ih hrows h
        · simp only [hrow] at h
          split at h
          · cases h
          · apply ih _ h
            intro other hother
            rcases List.mem_append.mp hother with hother | hother
            · exact hrows other hother
            · rw [List.mem_singleton.mp hother]
              exact (row_spec hroot hrow).2

/-- A listing is the page of rows of its directory. -/
theorem render_rows (hroot : fs.metadata s.root = some .directory) {directory : List Segment} {requestPath body : String}
    {maxEntries maxBytes : Nat} (h : s.render fs directory requestPath maxEntries maxBytes = .ok body) :
    ∃ rows, body = page requestPath rows ∧ ∀ row ∈ rows, s.RowOf fs directory row := by
  unfold render at h
  split at h
  · cases h
  · split at h
    · cases h
    · rename_i bytes rows hscan
      split at h
      · cases h
      · refine ⟨_, (Except.ok.inj h).symm, ?_⟩
        intro row hrow
        have hnone : ∀ row ∈ ([] : List Row), s.RowOf fs directory row := by simp
        exact scan_rows hroot hnone hscan row (mem_sortBy.mp hrow)

theorem handleFile_answer (s : Server) (fs : FileSystem) (select : List String → Selection) (dynamic : List String)
    (file : List Segment) (page : Except Nat String) : (s.handleFile fs select dynamic file).1 ≠ .listing page := by
  unfold handleFile
  dsimp only
  split
  · split
    · simp
    · split
      · split <;> simp
      · simp
  · simp

/-- Every file that is opened is contained, and every row of a listing stands for a contained file or a public directory at or
below the root; the fallback is resolved once at most, after a miss, and yields a file or nothing. -/
theorem handle_contained {s : Server} {fs : FileSystem} (hroot : fs.metadata s.root = some .directory)
    (select : List String → Selection) (dynamic : List String) (method path : String) (query : Option String) :
    (∀ file ∈ (s.handle fs select dynamic method path query).opened, s.Contained fs file) ∧
      (∀ body, (s.handle fs select dynamic method path query).answer = .listing (.ok body) →
        ∃ directory rows, body = page path rows ∧ s.publicTarget directory = true ∧ ∀ row ∈ rows, s.RowOf fs directory row) ∧
      ((s.handle fs select dynamic method path query).resolved = [] ∨
        (s.handle fs select dynamic method path query).resolved = [path] ∨
        ∃ fallback, s.fallback = some fallback ∧ s.resolve fs.toFiles path = .notFound ∧
          (s.handle fs select dynamic method path query).resolved = [path, fallback] ∧
          ((s.handle fs select dynamic method path query).answer = .notFound ∨
            ∃ file, s.resolve fs.toFiles fallback = .file file ∧
              (s.handle fs select dynamic method path query).answer = (s.handleFile fs select dynamic file).1)) := by
  have hspec := serveTraced_spec hroot path
  have hcases := serveTraced_cases s fs.toFiles path
  unfold handle
  by_cases hmethod : method ≠ "GET" ∧ method ≠ "HEAD"
  · rw [if_pos hmethod]
    refine ⟨by simp, ?_, .inl rfl⟩
    intro body hbody
    cases hbody
  · rw [if_neg hmethod]
    dsimp only
    rcases htraced : s.serveTraced fs.toFiles path with ⟨target, resolved⟩
    rw [htraced] at hspec hcases
    rcases hcases with hfirst | ⟨fallback, hfallback, hmiss, hlog, hyield⟩
    · obtain ⟨rfl, rfl⟩ := Prod.mk.inj hfirst
      rcases hresolve : s.resolve fs.toFiles path with file | directory | sent | _
      · rw [hresolve] at hspec
        refine ⟨handleFile_opened hroot select dynamic hspec, ?_, .inr (.inl rfl)⟩
        exact fun body hbody => absurd hbody (handleFile_answer s fs select dynamic file _)
      · rw [hresolve] at hspec
        refine ⟨by simp, ?_, .inr (.inl rfl)⟩
        intro body hbody
        obtain ⟨rows, hpage, hrows⟩ := render_rows hroot (Answer.listing.inj hbody)
        exact ⟨directory, rows, hpage, hspec, hrows⟩
      · exact ⟨by simp, by simp, .inr (.inl rfl)⟩
      · exact ⟨by simp, by simp, .inr (.inl rfl)⟩
    · dsimp only at hlog hyield hspec
      subst hlog
      rcases hyield with rfl | ⟨file, hagain, rfl⟩
      · exact ⟨by simp, by simp, .inr (.inr ⟨fallback, hfallback, hmiss, rfl, .inl rfl⟩)⟩
      · refine ⟨handleFile_opened hroot select dynamic hspec, ?_, .inr (.inr ⟨fallback, hfallback, hmiss, rfl, .inr ⟨file, hagain, rfl⟩⟩)⟩
        exact fun body hbody => absurd hbody (handleFile_answer s fs select dynamic file _)

end Server

open Server (handle_contained)

/-- A page and its compressed sibling. -/
def compressed : FileSystem where
  canonicalize path := some path
  metadata path := if path = ["srv".toList] then some .directory else some .file
  opens _ := true
  modified _ := some 0
  readDir _ := none

theorem handle_contained_compressed :
    ((⟨["srv".toList], none, false, true, none⟩ : Server).handle compressed (fun _ => .coding "br") [] "GET" "/a" none).opened =
        [["srv".toList, "a".toList], ["srv".toList, "a.br".toList]] ∧
      ∀ file ∈ ((⟨["srv".toList], none, false, true, none⟩ : Server).handle compressed (fun _ => .coding "br") [] "GET" "/a"
        none).opened, (⟨["srv".toList], none, false, true, none⟩ : Server).Contained compressed file :=
  ⟨by decide, (handle_contained (by decide) _ _ _ _ _).1⟩

/-- A root with one entry, a link to the root itself. -/
def looped : FileSystem where
  canonicalize path := if path = ["srv".toList] ∨ path = ["srv".toList, "loop".toList] then some ["srv".toList] else none
  metadata path := if path = ["srv".toList] then some .directory else none
  opens _ := false
  modified _ := none
  readDir path := if path = ["srv".toList] then some [.named "loop"] else none

def browsing : Server := ⟨["srv".toList], none, true, false, none⟩

theorem root_listed : looped.metadata browsing.root = some .directory ∧
    (browsing.handle looped (fun _ => .identity) [] "GET" "/" none).answer = .listing (.ok (page "/" [⟨"loop", true⟩])) ∧
    looped.canonicalize (browsing.root ++ ["loop".toList]) = some browsing.root ∧
    ¬ ∃ below, below ≠ [] ∧ browsing.Within browsing.root below := by
  have hrender : browsing.render looped browsing.root "/" maxEntries maxHtmlBytes = .ok (page "/" [⟨"loop", true⟩]) := by
    decide
  refine ⟨by decide, ?_, by decide, ?_⟩
  · have htraced : browsing.serveTraced looped.toFiles "/" = (.listing browsing.root, ["/"]) := by decide
    rw [Server.handle, if_neg (by decide), htraced]
    dsimp only
    rw [hrender]
  · intro h
    obtain ⟨below, hne, hroot, -⟩ := h
    exact hne (List.self_eq_append_right.mp hroot)

end Gatel.FileServer
