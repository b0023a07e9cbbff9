import Gatel.Lib.CanonicalSort
import Gatel.Model.Value

namespace Gatel
open CanonicalSort (sortBy)

inductive Code where
  | syntaxError
  | unknownNode
  | unknownProperty
  | argumentCount
  | invalidValue
  | missingField
  | duplicate
  | unresolvedReference
  | invalidScope
  | terminalArity
  | missingCapability
  | importFailed
  | invalidSecret
  | ownershipConflict
  | prepareFailed
  deriving DecidableEq, Repr

inductive Severity where
  | warning
  | error
  deriving DecidableEq, Repr

structure Diagnostic where
  code : Code
  severity : Severity
  message : String
  origin : Origin
  help : Option String
  related : Option (String × Origin)
  deriving DecidableEq

namespace Diagnostic

def error (code : Code) (origin : Origin) (message : String) : Diagnostic :=
  ⟨code, .error, message, origin, none, none⟩

def warning (code : Code) (origin : Origin) (message : String) : Diagnostic :=
  { error code origin message with severity := .warning }

def withHelp (d : Diagnostic) (help : String) : Diagnostic := { d with help := some help }

def withRelated (d : Diagnostic) (label : String) (origin : Origin) : Diagnostic :=
  { d with related := some (label, origin) }

def isError (d : Diagnostic) : Bool := d.severity == .error

@[simp] theorem isError_error (code : Code) (origin : Origin) (message : String) :
    (error code origin message).isError = true := rfl

@[simp] theorem isError_withHelp (d : Diagnostic) (help : String) :
    (d.withHelp help).isError = d.isError := rfl

@[simp] theorem isError_withRelated (d : Diagnostic) (label : String) (origin : Origin) :
    (d.withRelated label origin).isError = d.isError := rfl

end Diagnostic

/-- The accumulator of one pass. -/
abbrev Diagnostics := List Diagnostic

namespace Diagnostics

def hasErrors (ds : Diagnostics) : Bool := ds.any Diagnostic.isError

@[simp] theorem hasErrors_nil : hasErrors [] = false := rfl

@[simp] theorem hasErrors_cons (d : Diagnostic) (ds : Diagnostics) :
    hasErrors (d :: ds) = (d.isError || hasErrors ds) := rfl

@[simp] theorem hasErrors_append (ds es : Diagnostics) :
    hasErrors (ds ++ es) = (hasErrors ds || hasErrors es) := List.any_append

theorem hasErrors_flatMap {α : Type} (l : List α) (f : α → Diagnostics) :
    hasErrors (l.flatMap f) = l.any fun a => hasErrors (f a) := by
  induction l with
  | nil => rfl
  | cons a l ih => simp [ih]

def sortKey (d : Diagnostic) : String × Nat × String × Nat :=
  let file := match d.origin.kind with
    | .file name _ => name
    | _ => ""
  let offset := match d.origin.kind with
    | .file _ span => span.offset.val
    | _ => 2 ^ 64 - 1
  (file, offset, d.origin.path, d.code.ctorIdx)

/-- By source position. -/
def sorted (ds : Diagnostics) : Diagnostics :=
  sortBy (compareLex (compareOn fun d => (sortKey d).1) (compareLex (compareOn fun d => (sortKey d).2.1)
    (compareLex (compareOn fun d => (sortKey d).2.2.1) (compareOn fun d => (sortKey d).2.2.2)))) ds

end Diagnostics

/-- A decoder's result with what it reported on the way. The source passes one
growing accumulator along; what a decoder itself adds to it is kept here, so its
`error_count() > errors_before` is `hasErrors` of its own list. -/
structure Report (α : Type) where
  value : α
  diagnostics : Diagnostics

/-- A decoder that may give up: `?` and early returns keep what was reported. -/
abbrev Decode (α : Type) := Report (Option α)

namespace Decode

def ok {α : Type} (a : α) : Decode α := ⟨some a, []⟩

/-- Report and give up. -/
def fail {α : Type} (d : Diagnostic) : Decode α := ⟨none, [d]⟩

/-- Report and go on. -/
def tell (ds : Diagnostics) : Decode Unit := ⟨some (), ds⟩

def andThen {α β : Type} (r : Decode α) (f : α → Decode β) : Decode β :=
  match r.value with
  | none => ⟨none, r.diagnostics⟩
  | some a => ⟨(f a).value, r.diagnostics ++ (f a).diagnostics⟩

/-- Give up at the end if anything was an error. -/
def strict {α : Type} (r : Decode α) : Decode α :=
  if Diagnostics.hasErrors r.diagnostics then ⟨none, r.diagnostics⟩ else r

theorem strict_none {α : Type} {r : Decode α} (hr : r.value ≠ none) (h : (strict r).value = none) :
    Diagnostics.hasErrors (strict r).diagnostics = true := by
  unfold strict at h ⊢
  split at h
  · rename_i he
    rw [if_pos he]
    exact he
  · exact absurd h hr

instance : Monad Decode where
  pure := ok
  bind := andThen

theorem bind_eq_some {α β : Type} {r : Decode α} {f : α → Decode β} {b : β} :
    (r >>= f).value = some b ↔ ∃ a, r.value = some a ∧ (f a).value = some b := by
  change (andThen r f).value = some b ↔ _
  unfold andThen
  cases r.value <;> simp

end Decode

/-- The row update of the edit distance; the left cell is carried along. -/
def editRow (a : Char) : List Char → List Nat → Nat → List Nat
  | b :: bs, diagonal :: above :: previous, left =>
    let cell := min (min (diagonal + if a = b then 0 else 1) (above + 1)) (left + 1)
    cell :: editRow a bs (above :: previous) cell
  | _, _, _ => []

def editLoop (b : List Char) : List Char → Nat → List Nat → List Nat
  | [], _, previous => previous
  | a :: rest, i, previous => editLoop b rest (i + 1) ((i + 1) :: editRow a b previous (i + 1))

def editDistance (a b : String) : Nat :=
  (editLoop b.toList a.toList 0 (List.range (b.toList.length + 1))).getLastD 0

/-- The closest candidate within the budget; the first of several. -/
def didYouMean (input : String) (candidates : List String) : Option String :=
  let budget := if input.utf8ByteSize ≤ 3 then 1 else if input.utf8ByteSize ≤ 7 then 2 else 3
  let close := candidates.filterMap fun candidate =>
    let distance := editDistance input candidate
    if distance ≤ budget then some (distance, candidate) else none
  ((sortBy (compareLex (compareOn Prod.fst) (compareOn fun c => c.2.utf8ByteSize)) close).head?).map Prod.snd

example : didYouMean "prox" ["proxy", "respond", "headers", "file-server"] = some "proxy" := by decide

end Gatel
