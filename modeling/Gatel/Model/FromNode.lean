import Gatel.Model.Diagnostic

namespace Gatel
open Std (ExtTreeSet)

/-- A scalar decoder. Like every one of the program's, it reports when it gives up. -/
structure FromValue (V : Type) where
  typeHint : String
  fromValue : Value → Decode V
  reports : ∀ v, (fromValue v).value = none → Diagnostics.hasErrors (fromValue v).diagnostics = true

/-- A node decoder, derived like the ones it is used in. -/
structure FromNode (V : Type) where
  fromNode : Node → Decode V
  reports : ∀ n, (fromNode n).value = none → Diagnostics.hasErrors (fromNode n).diagnostics = true

/-- Whether a part has to be there, and what stands for it otherwise. -/
inductive Presence (V : Type) where
  | required
  | optional
  | default (value : V)

/-- One field declaration: where its value comes from. -/
inductive Field (V : Type) where
  | arg (key : String) (decoder : FromValue V) (presence : Presence V)
  | args (key : String) (decoder : FromValue V)
  | prop (key : String) (decoder : FromValue V) (presence : Presence V)
  | child (key : String) (decoder : FromNode V) (presence : Presence V)
  | children (key : String) (decoder : FromNode V)
  | restChildren

/-- The field of a decoded structure. -/
inductive Slot (V : Type) where
  | one (value : V)
  | optional (value : Option V)
  | many (values : List V)
  | rest (nodes : List Node)

/-- What a field's read leaves behind before the structure is built. -/
inductive Binding (V : Type) where
  | single (value : Option V)
  | many (values : List V)
  | rest (nodes : List Node)

namespace Field
variable {V : Type}

@[grind =] def isArg : Field V → Bool
  | .arg _ _ _ => true
  | _ => false

@[grind =] def isArgs : Field V → Bool
  | .args _ _ => true
  | _ => false

/-- The derive macro's own check: nothing positional after the remaining arguments. -/
@[grind =] def ordered : List (Field V) → Bool
  | [] => true
  | f :: fields => (!f.isArgs || fields.all fun g => !g.isArg && !g.isArgs) && ordered fields

end Field

/-- The field declarations of one structure, as the derive macro accepts them. -/
structure Declaration (V : Type) where
  fields : List (Field V)
  ordered : Field.ordered fields = true

/-- Consumes a node's parts, tracking what was used. -/
structure NodeReader where
  nextArg : Nat
  knownProps : ExtTreeSet String
  knownChildren : ExtTreeSet String
  maxArgs : Option Nat
  consumedChildren : Bool
  diagnostics : Diagnostics

namespace NodeReader
variable {V : Type}

def new : NodeReader := ⟨0, ∅, ∅, none, false, []⟩

@[grind =] def report (r : NodeReader) (ds : Diagnostics) : NodeReader := { r with diagnostics := r.diagnostics ++ ds }

/-- A required positional argument. -/
def arg (node : Node) (name : String) (d : FromValue V) (r : NodeReader) : Option V × NodeReader :=
  match node.args[r.nextArg]? with
  | some value =>
    ((d.fromValue value).value,
      { r with nextArg := r.nextArg + 1, maxArgs := some (r.nextArg + 1) }.report (d.fromValue value).diagnostics)
  | none =>
    (none, { r with maxArgs := some (r.nextArg + 1) }.report [Diagnostic.error .argumentCount (node.origin.field name)
      s!"`{node.name}` requires {name} as {d.typeHint}"])

/-- An optional positional argument. -/
def optArg (node : Node) (d : FromValue V) (r : NodeReader) : Option V × NodeReader :=
  match node.args[r.nextArg]? with
  | some value =>
    ((d.fromValue value).value,
      { r with nextArg := r.nextArg + 1, maxArgs := some (r.nextArg + 1) }.report (d.fromValue value).diagnostics)
  | none => (none, r)

/-- Every remaining positional argument. -/
def restArgs (node : Node) (d : FromValue V) (r : NodeReader) : List V × NodeReader :=
  let values := node.args.drop r.nextArg
  (values.filterMap fun value => (d.fromValue value).value,
    { r with nextArg := r.nextArg + values.length, maxArgs := none }.report
      (values.flatMap fun value => (d.fromValue value).diagnostics))

/-- A required named property. -/
def prop (node : Node) (key : String) (d : FromValue V) (r : NodeReader) : Option V × NodeReader :=
  let r := { r with knownProps := r.knownProps.insert key }
  match node.prop key with
  | some property => ((d.fromValue property.value).value, r.report (d.fromValue property.value).diagnostics)
  | none => (none, r.report [Diagnostic.error .missingField (node.origin.field key)
      s!"`{node.name}` requires the `{key}` property"])

/-- An optional named property. -/
def optProp (node : Node) (key : String) (d : FromValue V) (r : NodeReader) : Option V × NodeReader :=
  let r := { r with knownProps := r.knownProps.insert key }
  match node.prop key with
  | some property => ((d.fromValue property.value).value, r.report (d.fromValue property.value).diagnostics)
  | none => (none, r)

/-- A required child: the first of that name. -/
def child (node : Node) (name : String) (d : FromNode V) (r : NodeReader) : Option V × NodeReader :=
  let r := { r with knownChildren := r.knownChildren.insert name }
  match node.child name with
  | some child => ((d.fromNode child).value, r.report (d.fromNode child).diagnostics)
  | none => (none, r.report [Diagnostic.error .missingField (node.origin.field name)
      s!"`{node.name}` requires a `{name}` child node"])

/-- An optional child, rejecting a second declaration. -/
def optChild (node : Node) (name : String) (d : FromNode V) (r : NodeReader) : Option V × NodeReader :=
  let r := { r with knownChildren := r.knownChildren.insert name }
  match node.childrenNamed name with
  | [] => (none, r)
  | [first] => ((d.fromNode first).value, r.report (d.fromNode first).diagnostics)
  | first :: second :: _ =>
    ((d.fromNode first).value, (r.report [(Diagnostic.error .duplicate second.origin
      s!"`{name}` may only be declared once in `{node.name}`").withRelated "first declared here"
        first.origin]).report (d.fromNode first).diagnostics)

/-- Every child of that name. -/
def children (node : Node) (name : String) (d : FromNode V) (r : NodeReader) : List V × NodeReader :=
  let r := { r with knownChildren := r.knownChildren.insert name }
  ((node.childrenNamed name).filterMap fun child => (d.fromNode child).value,
    r.report ((node.childrenNamed name).flatMap fun child => (d.fromNode child).diagnostics))

def takesAnyChildren (r : NodeReader) : NodeReader := { r with consumedChildren := true }

/-- What is known, or a close guess. -/
def suggest (d : Diagnostic) (name label : String) (known : ExtTreeSet String) : Diagnostic :=
  match didYouMean name known.toList with
  | some suggestion => d.withHelp s!"did you mean `{suggestion}`?"
  | none =>
    let names := ", ".intercalate known.toList
    if known.isEmpty then d else d.withHelp s!"{label}: {names}"

/-- The arguments beyond those accepted. -/
def surplusArgs (node : Node) (r : NodeReader) : Diagnostics :=
  match r.maxArgs with
  | none => []
  | some max =>
    match node.args[max]? with
    | none => []
    | some extra =>
      let plural := if max = 1 then "" else "s"
      [Diagnostic.error .argumentCount extra.origin
        s!"`{node.name}` accepts {max} argument{plural}, found {node.args.length}"]

def unknownProps (node : Node) (r : NodeReader) : Diagnostics :=
  node.props.filterMap fun property =>
    if r.knownProps.contains property.name then none
    else some (suggest (Diagnostic.error .unknownProperty property.origin
      s!"`{node.name}` has no property `{property.name}`") property.name "known properties" r.knownProps)

def unknownChildren (node : Node) (r : NodeReader) : Diagnostics :=
  node.children.filterMap fun child =>
    if r.knownChildren.contains child.name then none
    else some (suggest (Diagnostic.error .unknownNode child.origin
      s!"`{node.name}` has no child node `{child.name}`") child.name "known child nodes" r.knownChildren)

/-- Report leftover arguments, properties and children. -/
def finish (node : Node) (r : NodeReader) : Diagnostics :=
  r.diagnostics ++ r.surplusArgs node ++ r.unknownProps node ++
    if r.consumedChildren then [] else r.unknownChildren node

end NodeReader

namespace Field
variable {V : Type}

/-- The read the derive macro generates for a field. -/
@[grind =] def read (node : Node) (f : Field V) (r : NodeReader) : Binding V × NodeReader :=
  match f with
  | .arg key d .required => let (v, r) := r.arg node key d; (.single v, r)
  | .arg _ d _ => let (v, r) := r.optArg node d; (.single v, r)
  | .args _ d => let (vs, r) := r.restArgs node d; (.many vs, r)
  | .prop key d .required => let (v, r) := r.prop node key d; (.single v, r)
  | .prop key d _ => let (v, r) := r.optProp node key d; (.single v, r)
  | .child key d .required => let (v, r) := r.child node key d; (.single v, r)
  | .child key d _ => let (v, r) := r.optChild node key d; (.single v, r)
  | .children key d => let (vs, r) := r.children node key d; (.many vs, r)
  | .restChildren => (.rest node.children, r.takesAnyChildren)

def presence : Field V → Presence V
  | .arg _ _ p => p
  | .prop _ _ p => p
  | .child _ _ p => p
  | _ => .required

/-- The field of the structure built from what was read. -/
@[grind =] def build (f : Field V) : Binding V → Option (Slot V)
  | .many values => some (.many values)
  | .rest nodes => some (.rest nodes)
  | .single value =>
    match f.presence with
    | .required => value.map .one
    | .optional => some (.optional value)
    | .default other => some (.one (value.getD other))

end Field

/-- The reads in order of declaration. -/
@[grind =] def readFields {V : Type} (node : Node) : List (Field V) → NodeReader → List (Binding V) × NodeReader
  | [], r => ([], r)
  | f :: fields, r =>
    let (binding, r) := f.read node r
    let (bindings, r) := readFields node fields r
    (binding :: bindings, r)

@[grind =] def buildFields {V : Type} : List (Field V) → List (Binding V) → Option (List (Slot V))
  | f :: fields, binding :: bindings => do
    let slot ← f.build binding
    let slots ← buildFields fields bindings
    return slot :: slots
  | _, _ => some []

/-- `from_node`, as the derive macro writes it. -/
@[grind =] def Declaration.fromNode {V : Type} (decl : Declaration V) (node : Node) : Decode (List (Slot V)) :=
  let (bindings, reader) := readFields node decl.fields .new
  let diagnostics := reader.finish node
  if Diagnostics.hasErrors diagnostics then ⟨none, diagnostics⟩
  else ⟨buildFields decl.fields bindings, diagnostics⟩

end Gatel
