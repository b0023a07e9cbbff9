import Gatel.Model.FromNode

namespace Gatel
open Diagnostics (hasErrors hasErrors_append hasErrors_flatMap)

variable {V : Type}

@[grind =] def Presence.isRequired : Presence V → Bool
  | .required => true
  | _ => false

namespace Field

/-- Reading the field reports an error; `i` positional fields stand before it. -/
@[grind =] def refuses (node : Node) (i : Nat) : Field V → Bool
  | .arg _ d p =>
    match node.args[i]? with
    | some value => hasErrors (d.fromValue value).diagnostics
    | none => p.isRequired
  | .args _ d => (node.args.drop i).any fun value => hasErrors (d.fromValue value).diagnostics
  | .prop key d p =>
    match node.prop key with
    | some property => hasErrors (d.fromValue property.value).diagnostics
    | none => p.isRequired
  | .child key d .required =>
    match node.child key with
    | some c => hasErrors (d.fromNode c).diagnostics
    | none => true
  | .child key d _ =>
    match node.childrenNamed key with
    | [] => false
    | [c] => hasErrors (d.fromNode c).diagnostics
    | _ => true
  | .children key d => (node.childrenNamed key).any fun c => hasErrors (d.fromNode c).diagnostics
  | .restChildren => false

/-- What the field reads. -/
@[grind =] def binds (node : Node) (i : Nat) : Field V → Binding V
  | .arg _ d _ => .single (node.args[i]?.bind fun value => (d.fromValue value).value)
  | .args _ d => .many ((node.args.drop i).filterMap fun value => (d.fromValue value).value)
  | .prop key d _ => .single ((node.prop key).bind fun property => (d.fromValue property.value).value)
  | .child key d _ => .single ((node.child key).bind fun c => (d.fromNode c).value)
  | .children key d => .many ((node.childrenNamed key).filterMap fun c => (d.fromNode c).value)
  | .restChildren => .rest node.children

@[grind =] def propKey? : Field V → Option String
  | .prop key _ _ => some key
  | _ => none

@[grind =] def childKey? : Field V → Option String
  | .child key _ _ => some key
  | .children key _ => some key
  | _ => none

@[grind =] def isRest : Field V → Bool
  | .restChildren => true
  | _ => false

/-- The key of a single child. -/
def singleKey? : Field V → Option String
  | .child key _ _ => some key
  | _ => none

/-- The key of a single child that has to be there. -/
def requiredKey? : Field V → Option String
  | .child key _ .required => some key
  | _ => none

end Field

/-- The arguments beyond those accepted, as `finish` finds them. -/
@[grind =] def NodeReader.surplus (node : Node) (r : NodeReader) : Option Value := r.maxArgs.bind fun max => node.args[max]?

theorem Node.child_eq_head? (node : Node) (key : String) : node.child key = (node.childrenNamed key).head? := by
  unfold Node.child Node.childrenNamed
  rw [List.head?_filter]

theorem getElem?_min (l : List Value) (i : Nat) : l[min i l.length]? = l[i]? := by
  rcases Nat.lt_or_ge i l.length with h | h
  · rw [min_eq_left h.le]
  · rw [min_eq_right h, List.getElem?_eq_none h, List.getElem?_eq_none le_rfl]

/-- Everything reading one field does to the reader. -/
structure Field.Step (node : Node) (i : Nat) (f : Field V) (r : NodeReader) : Prop where
  binding : (f.read node r).1 = f.binds node i
  errors : hasErrors (f.read node r).2.diagnostics = (hasErrors r.diagnostics || f.refuses node i)
  props : ∀ key, (f.read node r).2.knownProps.contains key =
    (r.knownProps.contains key || decide (f.propKey? = some key))
  children : ∀ key, (f.read node r).2.knownChildren.contains key =
    (r.knownChildren.contains key || decide (f.childKey? = some key))
  consumed : (f.read node r).2.consumedChildren = (r.consumedChildren || f.isRest)
  next : f.isArgs = false →
    (f.read node r).2.nextArg = if f.isArg then min (i + 1) node.args.length else r.nextArg
  surplus : (f.read node r).2.surplus node =
    if f.isArg then node.args[i + 1]? else if f.isArgs then none else r.surplus node

/-- Where the reader has to stand for a positional field: behind `i` of them. -/
structure NodeReader.At (node : Node) (i : Nat) (r : NodeReader) : Prop where
  next : r.nextArg = min i node.args.length
  surplus : node.args[i]? = none → r.surplus node = none

theorem Field.arg_step (node : Node) (i : Nat) (key : String) (d : FromValue V) (p : Presence V) (r : NodeReader)
    (hr : r.At node i) : (Field.arg key d p).Step node i r := by
  have hi : node.args[r.nextArg]? = node.args[i]? := by rw [hr.next, getElem?_min]
  have hread : (Field.arg key d p).read node r = match p with
      | .required => (.single (r.arg node key d).1, (r.arg node key d).2)
      | _ => (.single (r.optArg node d).1, (r.optArg node d).2) := by cases p <;> rfl
  cases hv : node.args[i]? with
  | some value =>
    have hlt := (List.getElem?_eq_some_iff.mp hv).1
    have hnext : r.nextArg = i := by rw [hr.next, min_eq_left hlt.le]
    have hboth : (Field.arg key d p).read node r = (.single (d.fromValue value).value,
        { r with nextArg := i + 1, maxArgs := some (i + 1) }.report (d.fromValue value).diagnostics) := by
      rw [hread]
      cases p with
      | _ => simp [NodeReader.arg, NodeReader.optArg, hv, hnext]
    have hmin : min (i + 1) node.args.length = i + 1 := min_eq_left hlt
    constructor
    all_goals
      rw [hboth]
      simp [Field.binds, Field.refuses, hv, NodeReader.report, Field.propKey?, Field.childKey?, Field.isRest,
        Field.isArg, NodeReader.surplus, hmin]
  | none =>
    have hge : node.args.length ≤ i := List.getElem?_eq_none_iff.mp hv
    have hmin : min (i + 1) node.args.length = min i node.args.length := by omega
    have hlate : node.args[i + 1]? = none := List.getElem?_eq_none (by omega)
    have hlater : node.args[r.nextArg + 1]? = none := List.getElem?_eq_none (by rw [hr.next]; omega)
    have hnext : r.nextArg = min (i + 1) node.args.length := by rw [hr.next, hmin]
    cases p with
    | required =>
      have hboth : (Field.arg key d .required).read node r = (.single none, { r with maxArgs := some (r.nextArg + 1) }.report
          [Diagnostic.error .argumentCount (node.origin.field key)
            s!"`{node.name}` requires {key} as {d.typeHint}"]) := by
        rw [hread]
        simp [NodeReader.arg, hi, hv]
      constructor
      all_goals
        rw [hboth]
        simp [Field.binds, Field.refuses, hv, NodeReader.report, Field.propKey?, Field.childKey?, Field.isRest,
          Field.isArg, NodeReader.surplus, Presence.isRequired, hlater, hlate, ← hnext]
    | optional | default other =>
      constructor
      all_goals
        rw [hread]
        simp [NodeReader.optArg, hi, hv, Field.binds, Field.refuses, Field.propKey?, Field.childKey?, Field.isRest,
          Field.isArg, Presence.isRequired, hr.surplus hv, hlate, ← hnext]

theorem contains_insert_key (known : Std.ExtTreeSet String) (key k : String) :
    (known.insert key).contains k = (known.contains k || decide (some key = some k)) := by
  rw [Std.ExtTreeSet.contains_insert, Bool.or_comm]
  congr 1
  by_cases h : key = k
  · simp [h]
  · simp [h]

/-- A field that is not positional: a key made known, and what it reports. -/
theorem Field.Step.of_named {node : Node} {i : Nat} {f : Field V} {r r' : NodeReader} {ds : Diagnostics}
    (hp : f.isArg = false) (ha : f.isArgs = false) (he : f.read node r = (f.binds node i, r'.report ds))
    (hd : hasErrors ds = f.refuses node i) (hr : r'.diagnostics = r.diagnostics)
    (hprops : ∀ key, r'.knownProps.contains key = (r.knownProps.contains key || decide (f.propKey? = some key)))
    (hchildren : ∀ key, r'.knownChildren.contains key =
      (r.knownChildren.contains key || decide (f.childKey? = some key)))
    (hconsumed : r'.consumedChildren = (r.consumedChildren || f.isRest)) (hnext : r'.nextArg = r.nextArg)
    (hmax : r'.maxArgs = r.maxArgs) : f.Step node i r := by
  constructor
  · rw [he]
  · rw [he]
    simp [NodeReader.report, hr, hd]
  · rw [he]
    exact hprops
  · rw [he]
    exact hchildren
  · rw [he]
    exact hconsumed
  · rw [he]
    simp [NodeReader.report, hp, hnext]
  · rw [he]
    simp [NodeReader.report, NodeReader.surplus, hp, ha, hmax]

theorem NodeReader.report_nil (r : NodeReader) : r.report [] = r := by
  simp [NodeReader.report]

theorem Field.prop_step (node : Node) (i : Nat) (key : String) (d : FromValue V) (p : Presence V) (r : NodeReader) :
    (Field.prop key d p).Step node i r := by
  have named : ∀ ds, (Field.prop key d p).read node r = ((Field.prop key d p).binds node i,
      { r with knownProps := r.knownProps.insert key }.report ds) →
      hasErrors ds = (Field.prop key d p).refuses node i → (Field.prop key d p).Step node i r := by
    intro ds he hd
    refine .of_named rfl rfl he hd rfl (contains_insert_key _ key) ?_ ?_ rfl rfl
    · simp [Field.childKey?]
    · simp [Field.isRest]
  cases hv : node.prop key with
  | some property =>
    refine named (d.fromValue property.value).diagnostics ?_ (by simp [Field.refuses, hv])
    cases p with
    | _ => simp [Field.read, NodeReader.prop, NodeReader.optProp, hv, Field.binds]
  | none =>
    cases p with
    | required =>
      refine named [Diagnostic.error .missingField (node.origin.field key)
        s!"`{node.name}` requires the `{key}` property"] ?_ (by simp [Field.refuses, hv, Presence.isRequired])
      simp [Field.read, NodeReader.prop, hv, Field.binds]
    | optional | default other =>
      refine named [] ?_ (by simp [Field.refuses, hv, Presence.isRequired])
      simp [Field.read, NodeReader.optProp, hv, Field.binds, NodeReader.report]

theorem Field.child_step (node : Node) (i : Nat) (key : String) (d : FromNode V) (p : Presence V) (r : NodeReader) :
    (Field.child key d p).Step node i r := by
  have named : ∀ ds, (Field.child key d p).read node r = ((Field.child key d p).binds node i,
      { r with knownChildren := r.knownChildren.insert key }.report ds) →
      hasErrors ds = (Field.child key d p).refuses node i → (Field.child key d p).Step node i r := by
    intro ds he hd
    refine .of_named rfl rfl he hd rfl ?_ (contains_insert_key _ key) ?_ rfl rfl
    · simp [Field.propKey?]
    · simp [Field.isRest]
  cases p with
  | required =>
    cases hv : node.child key with
    | some c =>
      refine named (d.fromNode c).diagnostics ?_ (by simp [Field.refuses, hv])
      simp [Field.read, NodeReader.child, hv, Field.binds]
    | none =>
      refine named [Diagnostic.error .missingField (node.origin.field key)
        s!"`{node.name}` requires a `{key}` child node"] ?_ (by simp [Field.refuses, hv])
      simp [Field.read, NodeReader.child, hv, Field.binds]
  | optional | default other =>
    have hc := node.child_eq_head? key
    cases hv : node.childrenNamed key with
    | nil =>
      refine named [] ?_ (by simp [Field.refuses, hv])
      simp [Field.read, NodeReader.optChild, hv, hc, Field.binds, NodeReader.report]
    | cons first more =>
      cases more with
      | nil =>
        refine named (d.fromNode first).diagnostics ?_ (by simp [Field.refuses, hv])
        simp [Field.read, NodeReader.optChild, hv, hc, Field.binds]
      | cons second more =>
        refine named ([(Diagnostic.error .duplicate second.origin
          s!"`{key}` may only be declared once in `{node.name}`").withRelated "first declared here"
            first.origin] ++ (d.fromNode first).diagnostics) ?_ (by simp [Field.refuses, hv])
        simp [Field.read, NodeReader.optChild, hv, hc, Field.binds, NodeReader.report]

/-- What reading a field does, in terms of the node alone. -/
theorem Field.read_step (node : Node) (i : Nat) (f : Field V) (r : NodeReader)
    (hr : f.isArg = true ∨ f.isArgs = true → r.At node i) : f.Step node i r := by
  cases f with
  | arg key d p => exact Field.arg_step node i key d p r (hr (.inl rfl))
  | args key d =>
    have hdrop : node.args.drop r.nextArg = node.args.drop i := by
      rw [(hr (.inr rfl)).next]
      rcases Nat.lt_or_ge i node.args.length with h | h
      · rw [min_eq_left h.le]
      · rw [min_eq_right h, List.drop_length, List.drop_of_length_le h]
    constructor
    all_goals
      simp [Field.read, NodeReader.restArgs, NodeReader.report, Field.binds, Field.refuses, hdrop,
        hasErrors_flatMap, Field.propKey?, Field.childKey?, Field.isRest, Field.isArg, Field.isArgs,
        NodeReader.surplus]
  | prop key d p => exact Field.prop_step node i key d p r
  | child key d p => exact Field.child_step node i key d p r
  | children key d =>
    have he : (Field.children key d).read node r = ((Field.children key d).binds node i,
        { r with knownChildren := r.knownChildren.insert key }.report
          ((node.childrenNamed key).flatMap fun c => (d.fromNode c).diagnostics)) := rfl
    refine .of_named rfl rfl he ?_ rfl ?_ (contains_insert_key _ key) ?_ rfl rfl
    · simp [Field.refuses, hasErrors_flatMap]
    · simp [Field.propKey?]
    · simp [Field.isRest]
  | restChildren =>
    have he : (Field.restChildren : Field V).read node r = ((Field.restChildren : Field V).binds node i,
        r.takesAnyChildren.report []) := by
      simp [Field.read, Field.binds, NodeReader.report]
    refine .of_named rfl rfl he rfl rfl ?_ ?_ ?_ rfl rfl
    · simp [Field.propKey?, NodeReader.takesAnyChildren]
    · simp [Field.childKey?, NodeReader.takesAnyChildren]
    · simp [Field.isRest, NodeReader.takesAnyChildren]

/-- The positional fields of a declaration, the one for the rest apart. -/
@[grind =] def argCount (fields : List (Field V)) : Nat := fields.countP Field.isArg

/-- Some field reports an error, `i` positional ones standing before the first. -/
@[grind =] def refusesFrom (node : Node) : Nat → List (Field V) → Bool
  | _, [] => false
  | i, f :: fields => f.refuses node i || refusesFrom node (i + if f.isArg then 1 else 0) fields

@[grind =] def bindsFrom (node : Node) : Nat → List (Field V) → List (Binding V)
  | _, [] => []
  | i, f :: fields => f.binds node i :: bindsFrom node (i + if f.isArg then 1 else 0) fields

/-- Everything reading the fields in order does to the reader. -/
structure ReadAll (node : Node) (i : Nat) (fields : List (Field V)) (r : NodeReader) : Prop where
  bindings : (readFields node fields r).1 = bindsFrom node i fields
  errors : hasErrors (readFields node fields r).2.diagnostics =
    (hasErrors r.diagnostics || refusesFrom node i fields)
  props : ∀ key, (readFields node fields r).2.knownProps.contains key =
    (r.knownProps.contains key || fields.any fun f => decide (f.propKey? = some key))
  children : ∀ key, (readFields node fields r).2.knownChildren.contains key =
    (r.knownChildren.contains key || fields.any fun f => decide (f.childKey? = some key))
  consumed : (readFields node fields r).2.consumedChildren = (r.consumedChildren || fields.any Field.isRest)
  surplus : (readFields node fields r).2.surplus node =
    if fields.any Field.isArgs then none
    else if fields.any Field.isArg then node.args[i + argCount fields]? else r.surplus node

def Field.positional (f : Field V) : Bool := f.isArg || f.isArgs

theorem Field.ordered_cons {f : Field V} {fields : List (Field V)} (h : Field.ordered (f :: fields) = true) :
    (f.isArgs = true → ∀ g ∈ fields, g.isArg = false ∧ g.isArgs = false) ∧ Field.ordered fields = true := by
  simp only [Field.ordered, Bool.and_eq_true, Bool.or_eq_true, Bool.not_eq_true'] at h
  refine ⟨?_, h.2⟩
  intro ha g hg
  rcases h.1 with hn | hall
  · rw [ha] at hn
    cases hn
  · simpa using List.all_eq_true.mp hall g hg

theorem leftover_cons {node : Node} {i : Nat} {f : Field V} {fields : List (Field V)} {before : Option Value}
    (hlast : f.isArgs = true → ∀ g ∈ fields, g.isArg = false ∧ g.isArgs = false) :
    (if fields.any Field.isArgs then none
      else if fields.any Field.isArg then node.args[(i + if f.isArg then 1 else 0) + argCount fields]?
      else if f.isArg then node.args[i + 1]? else if f.isArgs then none else before) =
    if (f :: fields).any Field.isArgs then none
    else if (f :: fields).any Field.isArg then node.args[i + argCount (f :: fields)]? else before := by
  rcases Bool.eq_false_or_eq_true f.isArgs with ha | ha
  · -- nothing positional follows, and nothing before it matters
    have hargs : fields.any Field.isArgs = false := by simpa using fun g hg => (hlast ha g hg).2
    have harg : fields.any Field.isArg = false := by simpa using fun g hg => (hlast ha g hg).1
    have hf : f.isArg = false := by
      cases f with
      | args => rfl
      | _ => cases ha
    rw [List.any_cons, List.any_cons, hargs, harg, hf, ha]
    rfl
  · rcases Bool.eq_false_or_eq_true (fields.any Field.isArgs) with hany | hany
    · rw [List.any_cons, hany, ha]
      rfl
    · rcases Bool.eq_false_or_eq_true f.isArg with hf | hf
      · have hcount : argCount (f :: fields) = argCount fields + 1 := by simp [argCount, hf]
        rcases Bool.eq_false_or_eq_true (fields.any Field.isArg) with hargs | hargs
        · rw [List.any_cons, List.any_cons, hany, ha, hf, hargs, hcount]
          simp only [Bool.or_self, Bool.false_eq_true, if_false, if_true]
          congr 1
          omega
        · have hzero : argCount fields = 0 := by
            rw [argCount, List.countP_eq_zero]
            intro g hg
            simpa using List.any_eq_false.mp hargs g hg
          rw [List.any_cons, List.any_cons, hany, ha, hf, hargs, hcount, hzero]
          rfl
      · have hcount : argCount (f :: fields) = argCount fields := by simp [argCount, hf]
        rw [List.any_cons, List.any_cons, hany, ha, hf, hcount]
        rfl

theorem readFields_all (node : Node) (fields : List (Field V)) (ho : Field.ordered fields = true) (i : Nat)
    (r : NodeReader) (hr : (∃ f ∈ fields, f.isArg = true ∨ f.isArgs = true) → r.At node i) :
    ReadAll node i fields r := by
  induction fields generalizing i r with
  | nil => constructor <;> simp [readFields, bindsFrom, refusesFrom]
  | cons f fields ih =>
    have hstep := f.read_step node i r fun h => hr ⟨f, List.mem_cons_self, h⟩
    obtain ⟨hlast, ho'⟩ := Field.ordered_cons ho
    have hr' : (∃ g ∈ fields, g.isArg = true ∨ g.isArgs = true) →
        (f.read node r).2.At node (i + if f.isArg then 1 else 0) := by
      rintro ⟨g, hg, hp⟩
      have hf : f.isArgs = false := by
        by_contra hn
        have hnone := hlast (by simpa using hn) g hg
        simp [hnone] at hp
      have hat := hr ⟨g, List.mem_cons_of_mem f hg, hp⟩
      cases ha : f.isArg with
      | true =>
        refine ⟨?_, ?_⟩
        · rw [hstep.next hf, ha]
          rfl
        · intro hn
          rw [hstep.surplus, ha]
          exact hn
      | false =>
        refine ⟨?_, ?_⟩
        · rw [hstep.next hf, ha]
          exact hat.next
        · intro hn
          rw [hstep.surplus, ha, hf]
          exact hat.surplus hn
    have hrest := ih ho' (i + if f.isArg then 1 else 0) (f.read node r).2 hr'
    constructor
    · simp only [readFields, bindsFrom]
      rw [hstep.binding, hrest.bindings]
    · simp only [readFields, refusesFrom]
      rw [hrest.errors, hstep.errors, Bool.or_assoc]
    · intro key
      simp only [readFields, List.any_cons]
      rw [hrest.props, hstep.props, Bool.or_assoc]
    · intro key
      simp only [readFields, List.any_cons]
      rw [hrest.children, hstep.children, Bool.or_assoc]
    · simp only [readFields, List.any_cons]
      rw [hrest.consumed, hstep.consumed, Bool.or_assoc]
    · simp only [readFields]
      rw [hrest.surplus, hstep.surplus]
      exact leftover_cons hlast

theorem hasErrors_filterMap {α : Type} (l : List α) (keep : α → Bool) (d : α → Diagnostic)
    (hd : ∀ a, (d a).isError = true) :
    hasErrors (l.filterMap fun a => if keep a then none else some (d a)) = l.any fun a => !keep a := by
  induction l with
  | nil => rfl
  | cons a l ih =>
    cases hk : keep a with
    | true => simp [hk, ih]
    | false => simp [hk, hd]

theorem NodeReader.suggest_isError (d : Diagnostic) (name label : String) (known : Std.ExtTreeSet String) :
    (NodeReader.suggest d name label known).isError = d.isError := by
  unfold NodeReader.suggest
  split
  · rfl
  · dsimp only
    split
    · rfl
    · rfl

theorem NodeReader.finish_errors (node : Node) (r : NodeReader) :
    hasErrors (r.finish node) = (hasErrors r.diagnostics || (r.surplus node).isSome ||
      (node.props.any fun p => !r.knownProps.contains p.name) ||
      (!r.consumedChildren && node.children.any fun c => !r.knownChildren.contains c.name)) := by
  have hsurplus : hasErrors (r.surplusArgs node) = (r.surplus node).isSome := by
    unfold NodeReader.surplus NodeReader.surplusArgs
    cases r.maxArgs with
    | none => rfl
    | some max =>
      cases ha : node.args[max]? with
      | none => simp [ha]
      | some extra => simp [ha]
  have hprops : hasErrors (r.unknownProps node) = node.props.any fun p => !r.knownProps.contains p.name :=
    hasErrors_filterMap _ _ _ fun p => NodeReader.suggest_isError _ _ _ _
  have hchildren : hasErrors (r.unknownChildren node) =
      node.children.any fun c => !r.knownChildren.contains c.name :=
    hasErrors_filterMap _ _ _ fun c => NodeReader.suggest_isError _ _ _ _
  rw [NodeReader.finish, hasErrors_append, hasErrors_append, hasErrors_append, hsurplus, hprops]
  cases r.consumedChildren with
  | true => rfl
  | false => simp [hchildren]

namespace Declaration

/-- The faults of a node its decoder finds: a part missing or refused, a second copy of a child
that may be absent, an argument beyond the positional fields where there are any, an undeclared
property or child. -/
structure Finds (decl : Declaration V) (node : Node) : Prop where
  intro ::
  fault : refusesFrom node 0 decl.fields = true ∨
    (decl.fields.any Field.isArg = true ∧ decl.fields.any Field.isArgs = false ∧
      argCount decl.fields < node.args.length) ∨
    (∃ p ∈ node.props, ∀ f ∈ decl.fields, f.propKey? ≠ some p.name) ∨
    (decl.fields.any Field.isRest = false ∧ ∃ c ∈ node.children, ∀ f ∈ decl.fields, f.childKey? ≠ some c.name)

theorem new_at (node : Node) : NodeReader.new.At node 0 :=
  ⟨by simp [NodeReader.new], fun _ => rfl⟩

theorem reads (decl : Declaration V) (node : Node) : ReadAll node 0 decl.fields .new :=
  readFields_all node decl.fields decl.ordered 0 .new fun _ => new_at node

/-- An error is reported exactly for those faults. -/
theorem errors_iff (decl : Declaration V) (node : Node) :
    hasErrors (decl.fromNode node).diagnostics = true ↔ decl.Finds node := by
  have hr := decl.reads node
  have hd : (decl.fromNode node).diagnostics = (readFields node decl.fields .new).2.finish node := by
    simp only [fromNode]
    split
    · rfl
    · rfl
  have hsurplus : ((readFields node decl.fields .new).2.surplus node).isSome = true ↔
      decl.fields.any Field.isArg = true ∧ decl.fields.any Field.isArgs = false ∧
        argCount decl.fields < node.args.length := by
    rw [hr.surplus]
    rcases Bool.eq_false_or_eq_true (decl.fields.any Field.isArgs) with ha | ha
    · rw [ha]
      simp
    · rcases Bool.eq_false_or_eq_true (decl.fields.any Field.isArg) with hp | hp
      · rw [ha, hp]
        simp
      · rw [ha, hp]
        simp [NodeReader.surplus, NodeReader.new]
  rw [hd, NodeReader.finish_errors, hr.errors, hr.consumed]
  simp only [hr.props, hr.children, Bool.or_eq_true, hsurplus]
  constructor
  · rintro (((h | h) | h) | h)
    · exact ⟨.inl (by simpa [NodeReader.new] using h)⟩
    · exact ⟨.inr (.inl h)⟩
    · obtain ⟨p, hp, hn⟩ := List.any_eq_true.mp h
      exact ⟨.inr (.inr (.inl ⟨p, hp, by simpa [NodeReader.new] using hn⟩))⟩
    · rw [Bool.and_eq_true] at h
      obtain ⟨c, hc, hn⟩ := List.any_eq_true.mp h.2
      exact ⟨.inr (.inr (.inr ⟨by simpa [NodeReader.new] using h.1, c, hc, by simpa [NodeReader.new] using hn⟩))⟩
  · rintro ⟨h | h | ⟨p, hp, hn⟩ | ⟨hrest, c, hc, hn⟩⟩
    · exact .inl (.inl (.inl (by simp [h])))
    · exact .inl (.inl (.inr h))
    · exact .inl (.inr (List.any_eq_true.mpr ⟨p, hp, by simpa [NodeReader.new] using hn⟩))
    · refine .inr (Bool.and_eq_true_iff.mpr ⟨by simp [hrest, NodeReader.new], ?_⟩)
      exact List.any_eq_true.mpr ⟨c, hc, by simpa [NodeReader.new] using hn⟩

end Declaration

/-- The decoded values a field of the structure holds. -/
def Slot.values : Slot V → List V
  | .one value => [value]
  | .optional value => value.toList
  | .many values => values
  | .rest _ => []

namespace Field

/-- The field holds argument `k`; `i` positional fields stand before it. -/
def TakesArg (i k : Nat) (value : Value) (slot : Slot V) : Field V → Prop
  | .arg _ d _ => k = i ∧ ∃ x, (d.fromValue value).value = some x ∧ slot.values = [x]
  | .args _ d => i ≤ k ∧ ∃ x, (d.fromValue value).value = some x ∧ slot.values[k - i]? = some x
  | _ => False

def TakesProp (property : Property) (slot : Slot V) : Field V → Prop
  | .prop key d _ => property.name = key ∧ ∃ x, (d.fromValue property.value).value = some x ∧ slot.values = [x]
  | _ => False

/-- The field holds this child, decoded or whole. -/
def TakesChild (c : Node) (slot : Slot V) : Field V → Prop
  | .child key d _ => c.name = key ∧ ∃ x, (d.fromNode c).value = some x ∧ slot.values = [x]
  | .children key d => c.name = key ∧ ∃ x, (d.fromNode c).value = some x ∧ x ∈ slot.values
  | .restChildren => ∃ nodes, slot = .rest nodes ∧ c ∈ nodes
  | _ => False

end Field

theorem FromValue.decodes (d : FromValue V) {value : Value}
    (h : hasErrors (d.fromValue value).diagnostics = false) : ∃ x, (d.fromValue value).value = some x := by
  cases hv : (d.fromValue value).value with
  | none =>
    rw [d.reports value hv] at h
    cases h
  | some x => exact ⟨x, rfl⟩

theorem FromNode.decodes (d : FromNode V) {node : Node}
    (h : hasErrors (d.fromNode node).diagnostics = false) : ∃ x, (d.fromNode node).value = some x := by
  cases hv : (d.fromNode node).value with
  | none =>
    rw [d.reports node hv] at h
    cases h
  | some x => exact ⟨x, rfl⟩

/-- Where nothing is refused, nothing is dropped. -/
theorem filterMap_decoded {α : Type} {decode : α → Decode V} {l : List α}
    (h : ∀ a ∈ l, ∃ x, (decode a).value = some x) (k : Nat) {a : α} (hk : l[k]? = some a) :
    ∃ x, (decode a).value = some x ∧ (l.filterMap fun a => (decode a).value)[k]? = some x := by
  induction l generalizing k with
  | nil => cases hk
  | cons b l ih =>
    obtain ⟨y, hy⟩ := h b List.mem_cons_self
    cases k with
    | zero =>
      cases hk
      exact ⟨y, hy, by simp [hy]⟩
    | succ k =>
      obtain ⟨x, hx, hl⟩ := ih (fun c hc => h c (List.mem_cons_of_mem b hc)) k hk
      exact ⟨x, hx, by simpa [List.filterMap_cons, hy] using hl⟩

theorem Field.build_single {f : Field V} {x : V} {slot : Slot V} (h : f.build (.single (some x)) = some slot) :
    slot.values = [x] := by
  simp only [Field.build] at h
  split at h
  all_goals
    cases h
    rfl

/-- A field that refuses nothing can be built. -/
theorem Field.build_of_accepted {node : Node} {i : Nat} {f : Field V} (h : f.refuses node i = false) :
    ∃ slot, f.build (f.binds node i) = some slot := by
  have single : ∀ value : Option V, (f.presence.isRequired = true → value ≠ none) →
      ∃ slot, f.build (.single value) = some slot := by
    intro value hv
    unfold Field.build
    cases hp : f.presence with
    | required =>
      cases value with
      | none => exact absurd rfl (hv (by rw [hp]; rfl))
      | some x => exact ⟨_, rfl⟩
    | optional => exact ⟨_, rfl⟩
    | default other => exact ⟨_, rfl⟩
  cases f with
  | arg key d p =>
    apply single
    intro hp
    cases hv : node.args[i]? with
    | none => simp [Field.refuses, hv, show p.isRequired = true from hp] at h
    | some value =>
      obtain ⟨x, hx⟩ := d.decodes (by simpa [Field.refuses, hv] using h)
      simp [hx]
  | args key d => exact ⟨_, rfl⟩
  | prop key d p =>
    apply single
    intro hp
    cases hv : node.prop key with
    | none => simp [Field.refuses, hv, show p.isRequired = true from hp] at h
    | some property =>
      obtain ⟨x, hx⟩ := d.decodes (by simpa [Field.refuses, hv] using h)
      simp [hx]
  | child key d p =>
    apply single
    intro hp
    cases p with
    | required =>
      cases hv : node.child key with
      | none => simp [Field.refuses, hv] at h
      | some c =>
        obtain ⟨x, hx⟩ := d.decodes (by simpa [Field.refuses, hv] using h)
        simp [hx]
    | optional => cases hp
    | default other => cases hp
  | children key d => exact ⟨_, rfl⟩
  | restChildren => exact ⟨_, rfl⟩

theorem argCount_take_succ (f : Field V) (fields : List (Field V)) (i j : Nat) :
    i + argCount ((f :: fields).take (j + 1)) = (i + if f.isArg then 1 else 0) + argCount (fields.take j) := by
  rw [List.take_succ_cons, argCount, List.countP_cons, argCount]
  omega

/-- Every field of the structure is built from what its declaration reads. -/
theorem buildFields_accepted {node : Node} {fields : List (Field V)} {i : Nat}
    (h : refusesFrom node i fields = false) :
    ∃ slots, buildFields fields (bindsFrom node i fields) = some slots ∧
      ∀ (j : Nat) (f : Field V), fields[j]? = some f → ∃ slot, slots[j]? = some slot ∧
        f.build (f.binds node (i + argCount (fields.take j))) = some slot ∧
        f.refuses node (i + argCount (fields.take j)) = false := by
  induction fields generalizing i with
  | nil => exact ⟨[], rfl, by simp⟩
  | cons f fields ih =>
    simp only [refusesFrom, Bool.or_eq_false_iff] at h
    obtain ⟨slot, hslot⟩ := Field.build_of_accepted h.1
    obtain ⟨slots, hslots, hall⟩ := ih h.2
    refine ⟨slot :: slots, by simp [buildFields, bindsFrom, hslot, hslots], ?_⟩
    intro j g hg
    cases j with
    | zero =>
      cases hg
      exact ⟨slot, rfl, by simpa [argCount] using hslot, by simpa [argCount] using h.1⟩
    | succ j =>
      rw [argCount_take_succ]
      exact hall j g hg

namespace Declaration

/-- Everything written in the node is somewhere in the structure. -/
structure Accounts (decl : Declaration V) (node : Node) (slots : List (Slot V)) : Prop where
  args : ∀ (k : Nat) (value : Value), node.args[k]? = some value →
    ∃ (j : Nat) (f : Field V) (slot : Slot V), decl.fields[j]? = some f ∧ slots[j]? = some slot ∧
      f.TakesArg (argCount (decl.fields.take j)) k value slot
  props : ∀ p ∈ node.props, (node.props.filter fun q => q.name == p.name).length = 1 ∧
    ∃ (j : Nat) (f : Field V) (slot : Slot V), decl.fields[j]? = some f ∧ slots[j]? = some slot ∧ f.TakesProp p slot
  children : ∀ c ∈ node.children,
    ∃ (j : Nat) (f : Field V) (slot : Slot V), decl.fields[j]? = some f ∧ slots[j]? = some slot ∧ f.TakesChild c slot
  singles : ∀ f ∈ decl.fields, ∀ key, f.singleKey? = some key → (node.childrenNamed key).length ≤ 1

/-- The node has no part the declaration has no place for, and none twice that goes in once. -/
structure Shaped (decl : Declaration V) (node : Node) : Prop where
  args : decl.fields.any Field.isArgs = true ∨ node.args.length ≤ argCount decl.fields
  props : ∀ p ∈ node.props, (∃ f ∈ decl.fields, f.propKey? = some p.name) ∧
    (node.props.filter fun q => q.name == p.name).length = 1
  children : ∀ c ∈ node.children, (∃ f ∈ decl.fields, f.childKey? = some c.name) ∨
    decl.fields.any Field.isRest = true
  singles : ∀ f ∈ decl.fields, ∀ key, f.singleKey? = some key → (node.childrenNamed key).length ≤ 1

/-- Nothing written in the node is silently ignored. -/
structure IgnoresNothing (decl : Declaration V) (node : Node) : Prop where
  accounts : hasErrors (decl.fromNode node).diagnostics = false →
    ∃ slots, (decl.fromNode node).value = some slots ∧ decl.Accounts node slots
  refuses : ¬ decl.Shaped node →
    hasErrors (decl.fromNode node).diagnostics = true ∧ (decl.fromNode node).value = none

/-- What `finish` and the reads do not look at: arguments where no field is positional, a second
property of a declared name, a second copy of a required child. -/
structure Plain (decl : Declaration V) (node : Node) : Prop where
  args : node.args ≠ [] → ∃ f ∈ decl.fields, f.isArg = true ∨ f.isArgs = true
  props : ∀ f ∈ decl.fields, ∀ key, f.propKey? = some key →
    (node.props.filter fun p => p.name == key).length ≤ 1
  children : ∀ f ∈ decl.fields, ∀ key, f.requiredKey? = some key → (node.childrenNamed key).length ≤ 1

theorem Shaped.plain {decl : Declaration V} {node : Node} (h : decl.Shaped node) : decl.Plain node := by
  refine ⟨?_, ?_, ?_⟩
  · intro hne
    rcases h.args with ha | hl
    · obtain ⟨f, hf, ha⟩ := List.any_eq_true.mp ha
      exact ⟨f, hf, .inr ha⟩
    · have hpos : 0 < argCount decl.fields := lt_of_lt_of_le (List.length_pos_of_ne_nil hne) hl
      obtain ⟨f, hf, ha⟩ := List.countP_pos_iff.mp hpos
      exact ⟨f, hf, .inl ha⟩
  · intro f hf key hk
    rcases Nat.eq_zero_or_pos (node.props.filter fun p => p.name == key).length with hz | hpos
    · omega
    · obtain ⟨p, hp⟩ := List.exists_mem_of_length_pos hpos
      obtain ⟨hp, hn⟩ := List.mem_filter.mp hp
      have := (h.props p hp).2
      rw [show p.name = key by simpa using hn] at this
      omega
  · intro f hf key hk
    refine h.singles f hf key ?_
    cases f with
    | child k d p =>
      cases p with
      | required => exact hk
      | _ => cases hk
    | _ => cases hk

section
variable {decl : Declaration V} {node : Node}

theorem not_finds (h : ¬ decl.Finds node) : refusesFrom node 0 decl.fields = false ∧
    (decl.fields.any Field.isArg = true → decl.fields.any Field.isArgs = true ∨
      node.args.length ≤ argCount decl.fields) ∧
    (∀ p ∈ node.props, ∃ f ∈ decl.fields, f.propKey? = some p.name) ∧
    (∀ c ∈ node.children, (∃ f ∈ decl.fields, f.childKey? = some c.name) ∨
      decl.fields.any Field.isRest = true) := by
  have hn : ∀ P : Prop, (P → decl.Finds node) → ¬ P := fun P hP hp => h (hP hp)
  refine ⟨?_, ?_, ?_, ?_⟩
  · simpa using hn _ fun hr => ⟨.inl hr⟩
  · intro ha
    by_contra hno
    rw [not_or, not_le, Bool.not_eq_true] at hno
    exact h ⟨.inr (.inl ⟨ha, hno.1, hno.2⟩)⟩
  · intro p hp
    by_contra hno
    exact h ⟨.inr (.inr (.inl ⟨p, hp, fun f hf he => hno ⟨f, hf, he⟩⟩))⟩
  · intro c hc
    by_contra hno
    rw [not_or, Bool.not_eq_true] at hno
    exact h ⟨.inr (.inr (.inr ⟨hno.2, c, hc, fun f hf he => hno.1 ⟨f, hf, he⟩⟩))⟩

theorem singles_of_accepted (hf : refusesFrom node 0 decl.fields = false) (hp : decl.Plain node) :
    ∀ f ∈ decl.fields, ∀ key, f.singleKey? = some key → (node.childrenNamed key).length ≤ 1 := by
  intro f hm key hk
  obtain ⟨j, hj⟩ := List.mem_iff_getElem?.mp hm
  obtain ⟨slots, -, hall⟩ := buildFields_accepted hf
  obtain ⟨slot, -, -, hr⟩ := hall j f hj
  cases f with
  | child k d p =>
    cases hk
    cases p with
    | required => exact hp.children _ hm key rfl
    | _ =>
      cases hc : node.childrenNamed key with
      | nil => simp
      | cons first more =>
        cases more with
        | nil => simp
        | cons second more => simp [Field.refuses, hc] at hr
  | _ => cases hk

theorem Plain.shaped (hp : decl.Plain node) (h : ¬ decl.Finds node) : decl.Shaped node := by
  obtain ⟨hf, hargs, hprops, hchildren⟩ := not_finds h
  refine ⟨?_, ?_, hchildren, singles_of_accepted hf hp⟩
  · by_cases ha : decl.fields.any Field.isArg = true
    · exact hargs ha
    · by_cases hne : node.args = []
      · exact .inr (by simp [hne])
      · obtain ⟨f, hm, hpos⟩ := hp.args hne
        rcases hpos with hpos | hpos
        · exact absurd (List.any_eq_true.mpr ⟨f, hm, hpos⟩) ha
        · exact .inl (List.any_eq_true.mpr ⟨f, hm, hpos⟩)
  · intro p hm
    obtain ⟨f, hf, hk⟩ := hprops p hm
    refine ⟨⟨f, hf, hk⟩, ?_⟩
    have hle := hp.props f hf p.name hk
    have hpos : 0 < (node.props.filter fun q => q.name == p.name).length :=
      List.length_pos_of_mem (List.mem_filter.mpr ⟨hm, by simp⟩)
    omega

theorem exists_arg_field {fields : List (Field V)} {k : Nat} (h : k < argCount fields) :
    ∃ (j : Nat) (f : Field V), fields[j]? = some f ∧ f.isArg = true ∧ argCount (fields.take j) = k := by
  induction fields generalizing k with
  | nil => cases h
  | cons f fields ih =>
    by_cases hf : f.isArg = true
    · cases k with
      | zero => exact ⟨0, f, rfl, hf, rfl⟩
      | succ k =>
        obtain ⟨j, g, hj, hg, hc⟩ := ih (k := k) (by simpa [argCount, hf] using h)
        refine ⟨j + 1, g, hj, hg, ?_⟩
        have := argCount_take_succ f fields 0 j
        rw [if_pos hf] at this
        omega
    · obtain ⟨j, g, hj, hg, hc⟩ := ih (k := k) (by simpa [argCount, hf] using h)
      refine ⟨j + 1, g, hj, hg, ?_⟩
      have := argCount_take_succ f fields 0 j
      rw [if_neg hf] at this
      omega

/-- The only element of its kind is the first of it. -/
theorem find?_of_unique {α : Type} {q : α → Bool} {l : List α} {a : α} (ha : a ∈ l) (hq : q a = true)
    (hl : (l.filter q).length ≤ 1) : l.find? q = some a := by
  rw [← List.head?_filter]
  have hm := List.mem_filter.mpr ⟨ha, hq⟩
  cases hf : l.filter q with
  | nil => rw [hf] at hm; cases hm
  | cons b more =>
    rw [hf] at hm hl
    have hmore : more = [] := List.eq_nil_of_length_eq_zero (by simpa using hl)
    subst hmore
    rw [List.mem_singleton.mp hm]
    rfl

theorem Shaped.accounts (hs : decl.Shaped node) {slots : List (Slot V)} (hall : ∀ (j : Nat) (f : Field V), decl.fields[j]? = some f →
      ∃ slot, slots[j]? = some slot ∧ f.build (f.binds node (0 + argCount (decl.fields.take j))) = some slot ∧
        f.refuses node (0 + argCount (decl.fields.take j)) = false) : decl.Accounts node slots := by
  simp only [Nat.zero_add] at hall
  refine ⟨?_, ?_, ?_, hs.singles⟩
  · intro k value hk
    by_cases hlt : k < argCount decl.fields
    · obtain ⟨j, f, hj, ha, hc⟩ := exists_arg_field hlt
      obtain ⟨slot, hslot, hb, hr⟩ := hall j f hj
      refine ⟨j, f, slot, hj, hslot, ?_⟩
      rw [hc] at hb hr ⊢
      cases f with
      | arg key d p =>
        obtain ⟨x, hx⟩ := d.decodes (by simpa [Field.refuses, hk] using hr)
        simp only [Field.binds, hk, Option.bind_some, hx] at hb
        exact ⟨rfl, x, hx, Field.build_single hb⟩
      | _ => cases ha
    · rcases hs.args with ha | hle
      · obtain ⟨f, hm, ha⟩ := List.any_eq_true.mp ha
        obtain ⟨j, hj⟩ := List.mem_iff_getElem?.mp hm
        obtain ⟨slot, hslot, hb, hr⟩ := hall j f hj
        refine ⟨j, f, slot, hj, hslot, ?_⟩
        have hle : argCount (decl.fields.take j) ≤ k :=
          ((List.take_sublist j decl.fields).countP_le).trans (not_lt.mp hlt)
        cases f with
        | args key d =>
          have hdec : ∀ v ∈ node.args.drop (argCount (decl.fields.take j)), ∃ x, (d.fromValue v).value = some x := by
            intro v hv
            exact d.decodes (by simpa using List.any_eq_false.mp hr v hv)
          have hget : (node.args.drop (argCount (decl.fields.take j)))[k - argCount (decl.fields.take j)]? =
              some value := by
            rw [List.getElem?_drop, Nat.add_sub_cancel' hle, hk]
          obtain ⟨x, hx, hl⟩ := filterMap_decoded hdec _ hget
          cases hb
          exact ⟨hle, x, hx, hl⟩
        | _ => cases ha
      · have := (List.getElem?_eq_some_iff.mp hk).1
        omega
  · intro p hp
    obtain ⟨⟨f, hm, hk⟩, hone⟩ := hs.props p hp
    obtain ⟨j, hj⟩ := List.mem_iff_getElem?.mp hm
    obtain ⟨slot, hslot, hb, hr⟩ := hall j f hj
    refine ⟨hone, j, f, slot, hj, hslot, ?_⟩
    cases f with
    | prop key d pres =>
      obtain rfl : key = p.name := Option.some.inj hk
      have hv : node.prop p.name = some p := find?_of_unique hp (by simp) hone.le
      obtain ⟨x, hx⟩ := d.decodes (by simpa [Field.refuses, hv] using hr)
      simp only [Field.binds, hv, Option.bind_some, hx] at hb
      exact ⟨rfl, x, hx, Field.build_single hb⟩
    | _ => cases hk
  · intro c hc
    rcases hs.children c hc with ⟨f, hm, hk⟩ | hrest
    · obtain ⟨j, hj⟩ := List.mem_iff_getElem?.mp hm
      obtain ⟨slot, hslot, hb, hr⟩ := hall j f hj
      refine ⟨j, f, slot, hj, hslot, ?_⟩
      cases f with
      | child key d pres =>
        obtain rfl : key = c.name := Option.some.inj hk
        have hle := hs.singles _ hm c.name rfl
        have hv : node.child c.name = some c := find?_of_unique hc (by simp) hle
        have hone : node.childrenNamed c.name = [c] := by
          have hh := node.child_eq_head? c.name
          rw [hv] at hh
          cases hcn : node.childrenNamed c.name with
          | nil => rw [hcn] at hh; cases hh
          | cons b more =>
            rw [hcn] at hh hle
            cases hh
            rw [List.eq_nil_of_length_eq_zero (by simpa using hle : more.length = 0)]
        have herr : hasErrors (d.fromNode c).diagnostics = false := by
          cases pres with
          | required => simpa [Field.refuses, hv] using hr
          | _ => simpa [Field.refuses, hone] using hr
        obtain ⟨x, hx⟩ := d.decodes herr
        simp only [Field.binds, hv, Option.bind_some, hx] at hb
        exact ⟨rfl, x, hx, Field.build_single hb⟩
      | children key d =>
        obtain rfl : key = c.name := Option.some.inj hk
        have hmem : c ∈ node.childrenNamed c.name := List.mem_filter.mpr ⟨hc, by simp⟩
        obtain ⟨x, hx⟩ := d.decodes (by simpa using List.any_eq_false.mp hr c hmem)
        cases hb
        exact ⟨rfl, x, hx, List.mem_filterMap.mpr ⟨c, hmem, hx⟩⟩
      | _ => cases hk
    · obtain ⟨f, hm, hrest⟩ := List.any_eq_true.mp hrest
      obtain ⟨j, hj⟩ := List.mem_iff_getElem?.mp hm
      obtain ⟨slot, hslot, hb, -⟩ := hall j f hj
      refine ⟨j, f, slot, hj, hslot, ?_⟩
      cases f with
      | restChildren =>
        cases hb
        exact ⟨node.children, rfl, hc⟩
      | _ => cases hrest

end

/-- A derived decoder gives up whenever it reports. -/
theorem value_of_errors {decl : Declaration V} {node : Node}
    (h : hasErrors (decl.fromNode node).diagnostics = true) : (decl.fromNode node).value = none := by
  simp only [fromNode] at h ⊢
  split
  · rfl
  · rename_i hn
    rw [if_neg hn] at h
    exact absurd h hn

theorem value_of_accepted {decl : Declaration V} {node : Node}
    (h : hasErrors (decl.fromNode node).diagnostics = false) :
    (decl.fromNode node).value = buildFields decl.fields (bindsFrom node 0 decl.fields) := by
  simp only [fromNode] at h ⊢
  split
  · rename_i he
    rw [if_pos he] at h
    rw [he] at h
    cases h
  · rw [(decl.reads node).bindings]

/-- Nothing is ignored exactly where the decoder finds a fault, or there is nothing it would not
look at. -/
theorem ignores_nothing_iff (decl : Declaration V) (node : Node) :
    decl.IgnoresNothing node ↔ decl.Finds node ∨ decl.Plain node := by
  constructor
  · intro h
    by_cases hfinds : decl.Finds node
    · exact .inl hfinds
    · right
      apply Shaped.plain
      by_contra hs
      exact hfinds (decl.errors_iff node |>.mp (h.refuses hs).1)
  · intro h
    by_cases hfinds : decl.Finds node
    · have herr := (decl.errors_iff node).mpr hfinds
      refine ⟨fun hn => ?_, fun _ => ⟨herr, value_of_errors herr⟩⟩
      rw [herr] at hn
      cases hn
    · have hplain := h.resolve_left hfinds
      have hs := hplain.shaped hfinds
      refine ⟨fun hn => ?_, fun hbad => absurd hs hbad⟩
      have hf := (not_finds hfinds).1
      obtain ⟨slots, hb, hall⟩ := buildFields_accepted hf
      exact ⟨slots, by rw [value_of_accepted hn, hb], hs.accounts hall⟩

namespace Sample

/-- Any text, taken as it is. -/
def text : FromValue String where
  typeHint := "a string"
  fromValue v :=
    match v.asStr with
    | some s => .ok s
    | none => .fail (Diagnostic.error .invalidValue v.origin "expected a string")
  reports v h := by
    cases ha : v.asStr with
    | none => rfl
    | some s => rw [ha] at h; cases h

def here : Origin := .file "gatel.kdl" ⟨0, 0, 1, 1⟩

def respond : Declaration String := ⟨[.arg "body" text (.default ""), .prop "content-type" text .optional], rfl⟩

/-- `respond content-type="text/plain" content-type="text/html"`. -/
def twice : Node where
  name := "respond"
  args := []
  props := [⟨"content-type", ⟨.str "text/plain", here⟩, here⟩, ⟨"content-type", ⟨.str "text/html", here⟩, here⟩]
  children := []
  origin := here

theorem repeated_property_ignored : hasErrors (respond.fromNode twice).diagnostics = false ∧
    ¬ respond.IgnoresNothing twice := by
  have hn : hasErrors (respond.fromNode twice).diagnostics = false := by decide
  refine ⟨hn, ?_⟩
  intro h
  obtain ⟨slots, -, ha⟩ := h.accounts hn
  have hp := (ha.props ⟨"content-type", ⟨.str "text/plain", here⟩, here⟩ (by simp [twice])).1
  simp [twice] at hp

end Sample

end Declaration

end Gatel
