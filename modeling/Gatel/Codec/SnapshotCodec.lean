import Gatel.Lib.Format
import Gatel.Model.Hash
import Gatel.Model.Snapshot

namespace Gatel.SnapshotCodec
open Format (Step spend)

def magic : List UInt8 := utf8 "GATELS01"
def header : Nat := 40
def maxBytes : Nat := 16 * 1024 * 1024
def maxString : Nat := 1024 * 1024
def maxSources : Nat := 256
def maxNodes : Nat := 65536
def maxValues : Nat := 262144
def maxDepth : Nat := 64

inductive Error where
  | limit
  | invalid
  deriving DecidableEq, Repr

def checksum (blake3 : Digest) (bytes : List UInt8) : Fingerprint :=
  ((Hasher.new.updateStr "gatel.snapshot.codec.v1").updateBytes bytes).finish blake3

/-- What a codec run has spent, over the whole snapshot. -/
structure Budget where
  nodes : Nat
  values : Nat
  deriving DecidableEq

def Budget.new : Budget := ⟨0, 0⟩

def Budget.node (depth : Nat) (b : Budget) : Option Budget :=
  if depth > maxDepth ∨ b.nodes + 1 > maxNodes then none else some { b with nodes := b.nodes + 1 }

def Budget.addValues (count : Nat) (b : Budget) : Option Budget :=
  if b.values + count > maxValues then none else some { b with values := b.values + count }

abbrev Codec := Step Budget Error

namespace Writer

def raw (bytes : List UInt8) : Codec Unit := Format.raw maxBytes .limit bytes

def tag (tag : UInt8) : Codec Unit := raw [tag]

def u32 (value : U32) : Codec Unit := raw (LittleEndian.bytes 4 value.val)

def u64 (value : U64) : Codec Unit := raw (LittleEndian.bytes 8 value.val)

def count (count max : Nat) : Codec Unit :=
  if count > max then throw .limit else raw (LittleEndian.bytes 4 count)

def string (text : String) : Codec Unit := do
  count (utf8 text).length maxString
  raw (utf8 text)

def location : OriginKind → Codec Unit
  | .file file span => do
    tag 0
    string file
    u64 span.offset
    u64 span.length
    u32 span.line
    u32 span.column
  | .api source pointer => do
    tag 1
    string source
    string pointer
  | .synthetic reason => do
    tag 2
    string reason

def origin (o : Origin) : Codec Unit := do
  location o.kind
  string o.path

def scalar : Scalar → Codec Unit
  | .null => tag 0
  | .bool false => tag 1
  | .bool true => tag 2
  | .int value => do
    tag 3
    raw (LittleEndian.bytes 8 value.toBits.val)
  | .float bits => do
    tag 4
    u64 bits
  | .str value => do
    tag 5
    string value

def value (v : Value) : Codec Unit := do
  scalar v.scalar
  origin v.origin

def property (p : Property) : Codec Unit := do
  string p.name
  origin p.origin
  value p.value

/-- Arguments and properties alike: charge for all, then the count, then each. -/
def items {α : Type} (write : α → Codec Unit) (l : List α) : Codec Unit := do
  spend (Budget.addValues l.length) .limit
  count l.length maxValues
  l.forM write

mutual
def node (depth : Nat) : Node → Codec Unit
  | ⟨name, args, props, children, place⟩ => do
    spend (Budget.node depth) .limit
    string name
    origin place
    items value args
    items property props
    count children.length maxNodes
    nodeLoop (depth + 1) children

@[grind =] def nodeLoop (depth : Nat) : List Node → Codec Unit
  | [] => pure ()
  | n :: ns => do
    node depth n
    nodeLoop depth ns
end

def nodes (nodes : List Node) (depth : Nat) : Codec Unit := do
  count nodes.length maxNodes
  nodeLoop depth nodes

@[grind =] def kindTag : SourceKind → UInt8
  | .file => 0
  | .admin => 1
  | .kubernetes => 2

def source (x : SourceSnapshot) : Codec Unit := do
  tag (kindTag x.source.kind)
  string x.source.name
  u64 x.rev
  raw x.content.bytes
  nodes x.nodes 1

def snapshot (s : Snapshot) : Codec Unit := do
  count s.sources.length maxSources
  s.sources.forM source

end Writer

/-- Canonical source order; argument, property and child order and float bits survive.
The header is filled in last, over the place kept for it. -/
def encode (blake3 : Digest) (s : Snapshot) : Except Error (List UInt8) :=
  match Writer.snapshot s ⟨List.replicate header 0, .new⟩ with
  | .error e => .error e
  | .ok (_, out) =>
    let body := out.bytes.drop header
    .ok (magic ++ (checksum blake3 body).bytes ++ body)

namespace Reader

def raw (count : Nat) : Codec (List UInt8) := Format.take .invalid count

def tag : Codec UInt8 := do
  let bytes ← raw 1
  pure (bytes.headD 0)

def u32 : Codec U32 := do
  let bytes ← raw 4
  pure (Fin.ofNat _ (LittleEndian.value bytes))

def u64 : Codec U64 := do
  let bytes ← raw 8
  pure (Fin.ofNat _ (LittleEndian.value bytes))

def count (max : Nat) : Codec Nat := do
  let count ← u32
  if count.val > max then throw .limit else pure count.val

def string : Codec String := do
  let count ← count maxString
  let bytes ← raw count
  match String.fromUTF8? ⟨bytes.toArray⟩ with
  | some text => pure text
  | none => throw .invalid

def fingerprint : Codec Fingerprint := do
  let bytes ← raw 32
  match Fingerprint.fromBytes? bytes with
  | some content => pure content
  | none => throw .invalid

def fileLocation : Codec Origin := do
  let file ← string
  let offset ← u64
  let length ← u64
  let line ← u32
  let column ← u32
  pure (.file file ⟨offset, length, line, column⟩)

def apiLocation : Codec Origin := do
  let source ← string
  let pointer ← string
  pure (.api source pointer)

def syntheticLocation : Codec Origin := do
  let reason ← string
  pure (.synthetic reason)

def location : Codec Origin := do
  let tag ← tag
  if tag = 0 then fileLocation
  else if tag = 1 then apiLocation
  else if tag = 2 then syntheticLocation
  else throw .invalid

def origin : Codec Origin := do
  let origin ← location
  let path ← string
  pure (origin.field path)

def intScalar : Codec Scalar := do
  let bytes ← raw 8
  pure (.int (I64.ofBits (Fin.ofNat _ (LittleEndian.value bytes))))

def floatScalar : Codec Scalar := do
  let bits ← u64
  pure (.float bits)

def strScalar : Codec Scalar := do
  let text ← string
  pure (.str text)

def scalar : Codec Scalar := do
  let tag ← tag
  if tag = 0 then pure .null
  else if tag = 1 then pure (.bool false)
  else if tag = 2 then pure (.bool true)
  else if tag = 3 then intScalar
  else if tag = 4 then floatScalar
  else if tag = 5 then strScalar
  else throw .invalid

def value : Codec Value := do
  let scalar ← scalar
  let origin ← origin
  pure ⟨scalar, origin⟩

def property : Codec Property := do
  let name ← string
  let origin ← origin
  let value ← value
  pure ⟨name, value, origin⟩

/-- Arguments and properties alike: the count, then charge for all, then each. -/
def items {α : Type} (read : Codec α) : Codec (List α) := do
  let count ← count maxValues
  spend (Budget.addValues count) .limit
  Format.replicate read count

/-- One pass of the node loop, over the reader of its children. -/
def node (children : Codec (List Node)) (depth : Nat) : Codec Node := do
  spend (Budget.node depth) .limit
  let name ← string
  let origin ← origin
  let args ← items value
  let props ← items property
  let children ← children
  pure ⟨name, args, props, children, origin⟩

/-- The recursion runs on the levels left. With none left the depth check refuses every
node before its children are looked at. -/
def nodes : Nat → Nat → Codec (List Node)
  | 0, depth => do
    let count ← count maxNodes
    Format.replicate (node (throw .limit) depth) count
  | levels + 1, depth => do
    let count ← count maxNodes
    Format.replicate (node (nodes levels (depth + 1)) depth) count

def sourceId (tag : UInt8) (name : String) : Codec SourceId :=
  if tag = 0 then pure (.file name)
  else if tag = 1 ∧ name = SourceId.admin.name then pure .admin
  else if tag = 2 then pure (.kubernetes name)
  else throw .invalid

/-- The source loop: identities must strictly increase. -/
def sources : Nat → Option SourceId → Snapshot → Codec Snapshot
  | 0, _, snapshot => pure snapshot
  | count + 1, previous, snapshot => do
    let tag ← tag
    let name ← string
    let source ← sourceId tag name
    if previous.any (fun p => compare p source ≠ .lt) then throw .invalid
    else do
      let rev ← u64
      let content ← fingerprint
      let nodes ← nodes maxDepth 1
      sources count (some source) (snapshot.insert ⟨source, rev, content, nodes⟩)

def snapshot : Codec Snapshot := do
  let count ← count maxSources
  sources count none .empty

end Reader

def decode (blake3 : Digest) (bytes : List UInt8) : Except Error Snapshot :=
  if bytes.length > maxBytes then .error .limit
  else if bytes.length < header ∨ bytes.take 8 ≠ magic ∨
      (checksum blake3 (bytes.drop header)).bytes ≠ (bytes.take header).drop 8 then
    .error .invalid
  else match Reader.snapshot ⟨bytes.drop header, .new⟩ with
    | .error e => .error e
    | .ok (s, rest) => if rest.bytes ≠ [] then .error .invalid else .ok s

end Gatel.SnapshotCodec
