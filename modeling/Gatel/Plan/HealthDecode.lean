import Gatel.Model.FromNodeExact
import Gatel.Plan.Decoded

namespace Gatel

/-! The `health` policy of an upstream, from its node. -/

/-- What a duration's unit is worth in milliseconds. -/
def unitMillis : String → Option Nat
  | "ms" => some 1
  | "s" => some 1000
  | "m" => some 60000
  | "h" => some 3600000
  | "d" => some 86400000
  | _ => none

theorem Duration.millis_lt {value millis : Nat} (h : value * millis < 2 ^ 64) :
    value * millis * 10 ^ 6 < 2 ^ 64 * 10 ^ 9 := by omega

/-- `500ms`, `2s`, `5m`, `1h`, `2d`; a bare number is refused. -/
def parseDuration (text : String) : Except String Duration :=
  let trimmed := Text.trim text
  let number := String.ofList (trimmed.toList.takeWhile Char.isDigit)
  let unit := String.ofList (trimmed.toList.dropWhile Char.isDigit)
  if unit = "" then .error ("`" ++ trimmed ++ "` needs a unit, for example `" ++ trimmed ++ "s`")
  else if number = "" then .error ("`" ++ trimmed ++ "` does not start with a number")
  else match Text.parseUnsigned (2 ^ 64) number with
    | none => .error ("`" ++ number ++ "` is not a whole number")
    | some value => match unitMillis unit with
      | none => .error ("unknown duration unit `" ++ unit ++ "`, expected ms, s, m, h or d")
      | some millis =>
        if h : value * millis < 2 ^ 64 then .ok ⟨value * millis * 10 ^ 6, Duration.millis_lt h⟩
        else .error ("duration `" ++ trimmed ++ "` is too large")

/-- A whole number of milliseconds that fits 64 bits. -/
def Duration.WholeMillis (d : Duration) : Prop := d.val % 10 ^ 6 = 0 ∧ d.val < 2 ^ 64 * 10 ^ 6

theorem wholeMillis_parseDuration {text : String} {d : Duration} (h : parseDuration text = .ok d) : d.WholeMillis := by
  unfold parseDuration at h
  dsimp only at h
  split at h
  · cases h
  split at h
  · cases h
  split at h
  · cases h
  split at h
  · cases h
  split at h
  · rename_i hlt
    cases h
    exact ⟨Nat.mul_mod_left _ _, Nat.mul_lt_mul_of_pos_right hlt (by decide)⟩
  · cases h

namespace Scalar

def typeName : Scalar → String
  | .null => "null"
  | .bool _ => "boolean"
  | .int _ => "integer"
  | .float _ => "float"
  | .str _ => "string"

end Scalar

/-- What the fields of a `health` node hold. -/
inductive HealthScalar where
  | text (value : String)
  | status (value : UInt16)
  | count (value : U32)
  | span (value : Duration)

namespace HealthScalar

/-- A scalar decoder that says what is wrong with the value, where the value stands. -/
def reading (hint : String) (read : Value → Except String HealthScalar) : FromValue HealthScalar where
  typeHint := hint
  fromValue v :=
    match read v with
    | .ok x => .ok x
    | .error message => .fail (.error .invalidValue v.origin message)
  reports v h := by
    cases hr : read v with
    | ok x =>
      rw [hr] at h
      cases h
    | error message => rfl

def wrongType (hint : String) (v : Value) : String := "expected " ++ hint ++ ", found " ++ v.scalar.typeName

def readText (v : Value) : Except String HealthScalar :=
  match v.asStr with
  | some written => .ok (.text written)
  | none => .error (wrongType "a string" v)

/-- An integer of a fixed width, built by `make`. -/
def readInt (type : String) (limit : Nat) (make : Nat → HealthScalar) (v : Value) : Except String HealthScalar :=
  match v.asInt with
  | none => .error (wrongType ("an integer in the range of " ++ type) v)
  | some raw =>
    if 0 ≤ raw.val ∧ raw.val < limit then .ok (make raw.val.toNat)
    else .error (toString raw.val ++ " is out of range for " ++ type)

def durationHint : String := "a duration such as `500ms`, `30s`, `5m`, `1h` or `1d`"

def readSpan (v : Value) : Except String HealthScalar :=
  match v.asStr with
  | some written => (parseDuration written).map .span
  | none => .error (wrongType durationHint v)

def string : FromValue HealthScalar := reading "a string" readText

def u16 : FromValue HealthScalar :=
  reading "an integer in the range of u16" (readInt "u16" (2 ^ 16) fun n => .status n.toUInt16)

def u32 : FromValue HealthScalar :=
  reading "an integer in the range of u32" (readInt "u32" (2 ^ 32) fun n => .count (Fin.ofNat _ n))

def duration : FromValue HealthScalar := reading durationHint readSpan

/-- Every duration read is a whole number of milliseconds. -/
def Whole : HealthScalar → Prop
  | .span d => d.WholeMillis
  | .text _ | .status _ | .count _ => True

end HealthScalar

namespace HealthNode
open HealthScalar

def fields : List (Field HealthScalar) :=
  [.arg "kind" string .required,
    .prop "path" string .optional,
    .prop "status" u16 .optional,
    .prop "host" string .optional,
    .prop "interval" duration (.default (.span (.fromSecs 5))),
    .prop "timeout" duration (.default (.span (.fromSecs 2))),
    .prop "healthy-threshold" u32 (.default (.count 1)),
    .prop "unhealthy-threshold" u32 (.default (.count 2)),
    .prop "jitter" duration .optional]

def declaration : Declaration HealthScalar := ⟨fields, rfl⟩

def text? : HealthScalar → Option String
  | .text value => some value
  | _ => none

def status? : HealthScalar → Option UInt16
  | .status value => some value
  | _ => none

def span? : HealthScalar → Option Duration
  | .span value => some value
  | _ => none

def ofSlots : List (Slot HealthScalar) → Option HealthNode
  | [.one (.text kind), .optional path, .optional status, .optional host, .one (.span interval),
      .one (.span timeout), .one (.count healthy), .one (.count unhealthy), .optional jitter] =>
    some ⟨kind, path.bind text?, status.bind status?, host.bind text?, interval, timeout, healthy, unhealthy,
      jitter.bind span?⟩
  | _ => none

/-- `from_node`, as it is derived for the structure. -/
def fromNode (node : Node) : Decode HealthNode :=
  ⟨(declaration.fromNode node).value.bind ofSlots, (declaration.fromNode node).diagnostics⟩

end HealthNode

/-! What holds of all a field's decoder gives and of its default holds of all a structure is
built from. -/

section
variable {V : Type} {P : V → Prop}

def Presence.Gives (P : V → Prop) : Presence V → Prop
  | .default v => P v
  | .required | .optional => True

/-- Every value a field can come to hold is of a kind. -/
def Field.Gives (P : V → Prop) : Field V → Prop
  | .arg _ d p | .prop _ d p => (∀ v x, (d.fromValue v).value = some x → P x) ∧ p.Gives P
  | .args _ d => ∀ v x, (d.fromValue v).value = some x → P x
  | .child _ d p => (∀ n x, (d.fromNode n).value = some x → P x) ∧ p.Gives P
  | .children _ d => ∀ n x, (d.fromNode n).value = some x → P x
  | .restChildren => True

def Binding.values : Binding V → List V
  | .single value => value.toList
  | .many values => values
  | .rest _ => []

theorem Field.read_gives {f : Field V} (h : f.Gives P) (node : Node) (r : NodeReader) :
    ∀ x ∈ (f.read node r).1.values, P x := by
  intro x hx
  cases f with
  | arg key d p =>
    have hread : ∃ v, (d.fromValue v).value = some x := by
      cases p <;> simp only [Field.read, NodeReader.arg, NodeReader.optArg] at hx <;> split at hx
      all_goals first
        | exact ⟨_, Option.mem_toList.mp hx⟩
        | cases hx
    obtain ⟨v, hv⟩ := hread
    exact h.1 v x hv
  | prop key d p =>
    have hread : ∃ v, (d.fromValue v).value = some x := by
      cases p <;> simp only [Field.read, NodeReader.prop, NodeReader.optProp] at hx <;> split at hx
      all_goals first
        | exact ⟨_, Option.mem_toList.mp hx⟩
        | cases hx
    obtain ⟨v, hv⟩ := hread
    exact h.1 v x hv
  | child key d p =>
    have hread : ∃ n, (d.fromNode n).value = some x := by
      cases p <;> simp only [Field.read, NodeReader.child, NodeReader.optChild] at hx <;> split at hx
      all_goals first
        | exact ⟨_, Option.mem_toList.mp hx⟩
        | cases hx
    obtain ⟨n, hn⟩ := hread
    exact h.1 n x hn
  | args key d =>
    obtain ⟨v, -, hv⟩ := List.mem_filterMap.mp hx
    exact h v x hv
  | children key d =>
    obtain ⟨n, -, hn⟩ := List.mem_filterMap.mp hx
    exact h n x hn
  | restChildren => cases hx

theorem Field.build_gives {f : Field V} (h : f.presence.Gives P) {b : Binding V} (hb : ∀ x ∈ b.values, P x)
    {slot : Slot V} (hs : f.build b = some slot) : ∀ x ∈ slot.values, P x := by
  cases b with
  | many values =>
    cases hs
    exact hb
  | rest nodes =>
    cases hs
    exact fun x hx => absurd hx List.not_mem_nil
  | single value =>
    unfold Field.build at hs
    dsimp only at hs
    split at hs
    · obtain ⟨v, rfl, rfl⟩ := Option.map_eq_some_iff.mp hs
      exact hb
    · cases hs
      exact hb
    · rename_i other hp
      rw [hp] at h
      cases hs
      intro x hx
      obtain rfl := List.mem_singleton.mp hx
      cases value with
      | none => exact h
      | some v => exact hb v (List.mem_singleton_self v)

theorem Field.presence_gives {f : Field V} (h : f.Gives P) : f.presence.Gives P := by
  cases f with
  | arg _ _ p => exact h.2
  | prop _ _ p => exact h.2
  | child _ _ p => exact h.2
  | args _ _ => trivial
  | children _ _ => trivial
  | restChildren => trivial

theorem buildFields_gives {fields : List (Field V)} (h : ∀ f ∈ fields, f.Gives P) (node : Node) (r : NodeReader)
    {slots : List (Slot V)} (hs : buildFields fields (readFields node fields r).1 = some slots) :
    ∀ slot ∈ slots, ∀ x ∈ slot.values, P x := by
  induction fields generalizing r slots with
  | nil =>
    cases hs
    exact fun slot hslot => absurd hslot List.not_mem_nil
  | cons f fields ih =>
    have hf := h f List.mem_cons_self
    obtain ⟨one, hone, hs⟩ := Option.bind_eq_some_iff.mp hs
    obtain ⟨rest, hrest, hs⟩ := Option.bind_eq_some_iff.mp hs
    cases hs
    intro slot hslot
    obtain rfl | hslot := List.mem_cons.mp hslot
    · exact Field.build_gives (Field.presence_gives hf) (Field.read_gives hf node r) hone
    · exact ih (fun g hg => h g (List.mem_cons_of_mem f hg)) _ hrest slot hslot

/-- What a decoded structure holds came through its decoders, or is a default. -/
theorem Declaration.gives {decl : Declaration V} (h : ∀ f ∈ decl.fields, f.Gives P) {node : Node} {slots : List (Slot V)}
    (hs : (decl.fromNode node).value = some slots) : ∀ slot ∈ slots, ∀ x ∈ slot.values, P x := by
  unfold Declaration.fromNode at hs
  dsimp only at hs
  split at hs
  · cases hs
  · exact buildFields_gives h node .new hs

end

namespace HealthNode
open HealthScalar (Whole reading)

theorem reading_gives {hint : String} {read : Value → Except String HealthScalar}
    (h : ∀ v x, read v = .ok x → Whole x) (v : Value) (x : HealthScalar)
    (hx : ((reading hint read).fromValue v).value = some x) : Whole x := by
  unfold reading at hx
  dsimp only at hx
  cases hr : read v with
  | ok y =>
    rw [hr] at hx
    cases hx
    exact h v _ hr
  | error message =>
    rw [hr] at hx
    cases hx

theorem fields_give : ∀ f ∈ declaration.fields, f.Gives Whole := by
  have htext : ∀ v x, HealthScalar.readText v = .ok x → Whole x := by
    intro v x hx
    unfold HealthScalar.readText at hx
    split at hx
    · cases hx
      trivial
    · cases hx
  have hint : ∀ (type : String) (limit : Nat) (make : Nat → HealthScalar), (∀ n, Whole (make n)) →
      ∀ v x, HealthScalar.readInt type limit make v = .ok x → Whole x := by
    intro type limit make hmake v x hx
    unfold HealthScalar.readInt at hx
    split at hx
    · cases hx
    · split at hx
      · cases hx
        exact hmake _
      · cases hx
  have hspan : ∀ v x, HealthScalar.readSpan v = .ok x → Whole x := by
    intro v x hx
    unfold HealthScalar.readSpan at hx
    split at hx
    · rename_i written _
      cases hp : parseDuration written with
      | ok d =>
        rw [hp] at hx
        cases hx
        exact wholeMillis_parseDuration hp
      | error message =>
        rw [hp] at hx
        cases hx
    · cases hx
  intro f hf
  simp only [declaration, fields, List.mem_cons, List.not_mem_nil, or_false] at hf
  rcases hf with rfl | rfl | rfl | rfl | rfl | rfl | rfl | rfl | rfl
  · exact ⟨reading_gives htext, trivial⟩
  · exact ⟨reading_gives htext, trivial⟩
  · exact ⟨reading_gives (hint "u16" (2 ^ 16) _ fun _ => trivial), trivial⟩
  · exact ⟨reading_gives htext, trivial⟩
  · exact ⟨reading_gives hspan, by decide, by decide⟩
  · exact ⟨reading_gives hspan, by decide, by decide⟩
  · exact ⟨reading_gives (hint "u32" (2 ^ 32) _ fun _ => trivial), trivial⟩
  · exact ⟨reading_gives (hint "u32" (2 ^ 32) _ fun _ => trivial), trivial⟩
  · exact ⟨reading_gives hspan, trivial⟩

/-- The durations of a decoded node are whole milliseconds. -/
theorem fromNode_whole {node : Node} {d : HealthNode} (h : (fromNode node).value = some d) :
    d.interval.WholeMillis ∧ ∀ jitter ∈ d.jitter, jitter.WholeMillis := by
  obtain ⟨slots, hslots, hd⟩ := Option.bind_eq_some_iff.mp h
  have hgives := declaration.gives fields_give hslots
  unfold ofSlots at hd
  split at hd
  · rename_i kind path status host interval timeout healthy unhealthy jitter
    cases hd
    refine ⟨hgives (.one (.span interval)) (by simp) _ (List.mem_singleton_self _), ?_⟩
    intro j hj
    obtain ⟨x, rfl, hx⟩ := Option.bind_eq_some_iff.mp hj
    have hwhole := hgives (.optional (some x)) (by simp) x (List.mem_singleton_self _)
    cases x with
    | span value =>
      cases hx
      exact hwhole
    | text _ => cases hx
    | status _ => cases hx
    | count _ => cases hx
  · cases hd

end HealthNode

/-- The health policy of an accepted upstream, and the node it was decoded from. -/
theorem decodeUpstreamBody_health {leaves : Leaves} {nodes : UpstreamNodes} {node : Node} {id : ResourceId}
    {owner : SourceId} {u : Upstream} {policy : Health}
    (h : (decodeUpstreamBody leaves nodes node id owner).value = some u) (hp : u.health = some policy) :
    ∃ child d, (nodes.health child).value = some d ∧ policy.interval = d.interval ∧
      policy.jitter = d.jitter.getD (d.interval / 10) := by
  obtain ⟨body, hb, h⟩ := Decode.bind_eq_some.mp h
  cases h
  unfold UpstreamDecode.body at hb
  split at hb
  · cases hb
  · have hb := Decode.strict_eq_some hb
    obtain ⟨_, _, hb⟩ := Decode.bind_eq_some.mp hb
    obtain ⟨_, _, hb⟩ := Decode.bind_eq_some.mp hb
    obtain ⟨balance, _, hb⟩ := Decode.bind_eq_some.mp hb
    obtain ⟨timeouts, _, hb⟩ := Decode.bind_eq_some.mp hb
    obtain ⟨pool, _, hb⟩ := Decode.bind_eq_some.mp hb
    obtain ⟨retry, _, hb⟩ := Decode.bind_eq_some.mp hb
    obtain ⟨health, hhealth, hb⟩ := Decode.bind_eq_some.mp hb
    obtain ⟨passive, _, hb⟩ := Decode.bind_eq_some.mp hb
    obtain ⟨protocol, _, hb⟩ := Decode.bind_eq_some.mp hb
    obtain ⟨resolve, _, hb⟩ := Decode.bind_eq_some.mp hb
    obtain ⟨tls, _, hb⟩ := Decode.bind_eq_some.mp hb
    obtain ⟨_, _, hb⟩ := Decode.bind_eq_some.mp hb
    cases hb
    obtain rfl : health = some policy := hp
    unfold UpstreamDecode.health at hhealth
    split at hhealth
    · cases hhealth
    · rename_i child _
      obtain ⟨d, hd, hhealth⟩ := Decode.bind_eq_some.mp hhealth
      obtain ⟨_, _, hhealth⟩ := Decode.bind_eq_some.mp hhealth
      obtain ⟨kind, _, hhealth⟩ := Decode.bind_eq_some.mp hhealth
      obtain ⟨_, _, hhealth⟩ := Decode.bind_eq_some.mp hhealth
      cases hhealth
      exact ⟨child, d, hd, rfl, rfl⟩

end Gatel
