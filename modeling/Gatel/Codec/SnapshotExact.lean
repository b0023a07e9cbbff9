import Gatel.Codec.SnapshotCodec

namespace Gatel.SnapshotCodec
open Format (seq nil bytes only any charge each Writes Reads)

/-! One format for each kind of value the codec handles. Writer and reader are shown to
realize it separately; that they undo each other is then immediate. -/

abbrev Wire := Format.Rel Budget

def u32F (v : U32) : Wire := bytes (LittleEndian.bytes 4 v.val)

def u64F (v : U64) : Wire := bytes (LittleEndian.bytes 8 v.val)

@[grind =] def countF (max n : Nat) : Wire := only (n ≤ max) (bytes (LittleEndian.bytes 4 n))

def stringF (s : String) : Wire := seq (countF maxString (utf8 s).length) (bytes (utf8 s))

def locationF : OriginKind → Wire
  | .file file span => seq (bytes [0]) <| seq (stringF file) <| seq (u64F span.offset) <|
      seq (u64F span.length) <| seq (u32F span.line) (u32F span.column)
  | .api source pointer => seq (bytes [1]) <| seq (stringF source) (stringF pointer)
  | .synthetic reason => seq (bytes [2]) (stringF reason)

def originF (o : Origin) : Wire := seq (locationF o.kind) (stringF o.path)

def scalarF : Scalar → Wire
  | .null => bytes [0]
  | .bool false => bytes [1]
  | .bool true => bytes [2]
  | .int value => seq (bytes [3]) (u64F value.toBits)
  | .float bits => seq (bytes [4]) (u64F bits)
  | .str value => seq (bytes [5]) (stringF value)

def valueF (v : Value) : Wire := seq (scalarF v.scalar) (originF v.origin)

def propertyF (p : Property) : Wire :=
  seq (stringF p.name) <| seq (originF p.origin) (valueF p.value)

/-- A counted list whose items are charged for together. -/
def itemsF {α : Type} (F : α → Wire) (l : List α) : Wire :=
  seq (countF maxValues l.length) <| seq (charge (Budget.addValues l.length)) (each F l)

mutual
def nodeF (depth : Nat) : Node → Wire
  | ⟨name, args, props, children, place⟩ =>
    seq (charge (Budget.node depth)) <| seq (stringF name) <| seq (originF place) <|
      seq (itemsF valueF args) <| seq (itemsF propertyF props) <|
        seq (countF maxNodes children.length) (nodeLoopF (depth + 1) children)

@[grind =] def nodeLoopF (depth : Nat) : List Node → Wire
  | [] => nil
  | n :: ns => seq (nodeF depth n) (nodeLoopF depth ns)
end

def nodesF (depth : Nat) (ns : List Node) : Wire :=
  seq (countF maxNodes ns.length) (nodeLoopF depth ns)

def sourceF (x : SourceSnapshot) : Wire :=
  seq (bytes [Writer.kindTag x.source.kind]) <| seq (stringF x.source.name) <|
    seq (u64F x.rev) <| seq (bytes x.content.bytes) (nodesF 1 x.nodes)

def snapshotF (s : Snapshot) : Wire :=
  seq (countF maxSources s.sources.length) (each sourceF s.sources)

namespace Writer

theorem raw_writes (l : List UInt8) : Writes maxBytes (raw l) (bytes l : Wire) := Writes.raw _ l

theorem count_writes (n max : Nat) : Writes maxBytes (count n max) (countF max n) :=
  (Writes.guard (raw_writes _)).congr (by simp [countF])

theorem string_writes (s : String) : Writes maxBytes (string s) (stringF s) :=
  (count_writes _ _).bind (raw_writes _)

theorem location_writes (k : OriginKind) : Writes maxBytes (location k) (locationF k) := by
  cases k with
  | file file span =>
    exact (raw_writes _).bind <| (string_writes _).bind <| (raw_writes _).bind <|
      (raw_writes _).bind <| (raw_writes _).bind (raw_writes _)
  | api source pointer => exact (raw_writes _).bind <| (string_writes _).bind (string_writes _)
  | synthetic reason => exact (raw_writes _).bind (string_writes _)

theorem origin_writes (o : Origin) : Writes maxBytes (origin o) (originF o) :=
  (location_writes _).bind (string_writes _)

theorem scalar_writes (s : Scalar) : Writes maxBytes (scalar s) (scalarF s) := by
  cases s with
  | null => exact raw_writes _
  | bool b =>
    cases b with
    | false => exact raw_writes _
    | true => exact raw_writes _
  | int value => exact (raw_writes _).bind (raw_writes _)
  | float bits => exact (raw_writes _).bind (raw_writes _)
  | str value => exact (raw_writes _).bind (string_writes _)

theorem value_writes (v : Value) : Writes maxBytes (value v) (valueF v) :=
  (scalar_writes _).bind (origin_writes _)

theorem property_writes (p : Property) : Writes maxBytes (property p) (propertyF p) :=
  (string_writes _).bind <| (origin_writes _).bind (value_writes _)

/-- The writer charges before it writes the count, the reader after it has read it. -/
theorem items_writes {α : Type} {write : α → Codec Unit} {F : α → Wire}
    (hw : ∀ a, Writes maxBytes (write a) (F a)) (l : List α) :
    Writes maxBytes (items write l) (itemsF F l) := by
  refine ((Writes.spend _ _).bind <| (count_writes _ _).bind (Writes.each l fun a _ => hw a)).congr ?_
  simp [itemsF, countF, Format.charge_seq_bytes]

mutual
theorem node_writes (depth : Nat) : ∀ n : Node, Writes maxBytes (node depth n) (nodeF depth n)
  | ⟨name, args, props, children, place⟩ => by
    rw [node, nodeF]
    exact (Writes.spend _ _).bind <| (string_writes _).bind <| (origin_writes _).bind <|
      (items_writes value_writes args).bind <| (items_writes property_writes props).bind <|
      (count_writes _ _).bind (nodeLoop_writes (depth + 1) children)

theorem nodeLoop_writes (depth : Nat) :
    ∀ ns : List Node, Writes maxBytes (nodeLoop depth ns) (nodeLoopF depth ns)
  | [] => by
    rw [nodeLoop, nodeLoopF]
    exact Writes.pure
  | n :: ns => by
    rw [nodeLoop, nodeLoopF]
    exact (node_writes depth n).bind (nodeLoop_writes depth ns)
end

theorem source_writes (x : SourceSnapshot) : Writes maxBytes (source x) (sourceF x) :=
  (raw_writes _).bind <| (string_writes _).bind <| (raw_writes _).bind <|
    (raw_writes _).bind <| (count_writes _ _).bind (nodeLoop_writes 1 x.nodes)

theorem snapshot_writes (s : Snapshot) : Writes maxBytes (snapshot s) (snapshotF s) :=
  (count_writes _ _).bind (Writes.each _ fun x _ => source_writes x)

end Writer

namespace Reader

theorem raw_reads (n : Nat) :
    Reads (raw n) (fun l => (only (l.length = n) (bytes l) : Wire)) := Reads.take _ n

theorem tag_reads : Reads tag (fun t => (bytes [t] : Wire)) := by
  refine ((raw_reads 1).bind fun l => Reads.pure _).congr ?_
  intro t
  apply Format.ext
  intro b out b'
  simp only [Format.any_apply, Format.seq_only, Format.seq_nil, Format.only_apply]
  constructor
  · intro h
    obtain ⟨l, ht, hl, hb⟩ := h
    obtain ⟨x, rfl⟩ := List.length_eq_one_iff.mp hl
    rw [ht]
    exact hb
  · intro h
    exact ⟨[t], rfl, rfl, h⟩

/-- A fixed-width number read back is the number that was written. -/
theorem number_reads {w : Nat} :
    Reads (do let l ← raw w; pure (Fin.ofNat (2 ^ (8 * w)) (LittleEndian.value l)))
      (fun v => (bytes (LittleEndian.bytes w v.val) : Wire)) := by
  have hpow : (256 : Nat) ^ w = 2 ^ (8 * w) := by rw [pow_mul]; norm_num
  refine ((raw_reads w).bind fun l => Reads.pure _).congr ?_
  intro v
  apply Format.ext
  intro b out b'
  simp only [Format.any_apply, Format.seq_only, Format.seq_nil, Format.only_apply]
  constructor
  · intro h
    obtain ⟨l, hv, rfl, hb⟩ := h
    have hval : v.val = LittleEndian.value l := by
      rw [hv]
      exact Nat.mod_eq_of_lt (hpow ▸ LittleEndian.value_lt l)
    rw [hval, LittleEndian.bytes_value]
    exact hb
  · intro h
    refine ⟨_, ?_, LittleEndian.length_bytes w v.val, h⟩
    apply Fin.ext
    rw [LittleEndian.value_bytes (show v.val < 256 ^ w by rw [hpow]; exact v.isLt)]
    exact (Nat.mod_eq_of_lt v.isLt).symm

theorem u32_reads : Reads u32 u32F := number_reads (w := 4)

theorem u64_reads : Reads u64 u64F := number_reads (w := 8)

theorem count_reads {max : Nat} (hm : max < 2 ^ 32) : Reads (count max) (countF max) := by
  refine (Reads.bind u32_reads fun n => Reads.guard (p := n.val > max) (Reads.pure n.val)).congr ?_
  intro n
  apply Format.ext
  intro b out b'
  simp only [Format.any_apply, Format.seq_only, Format.seq_nil, Format.only_apply, countF, not_lt]
  constructor
  · intro h
    obtain ⟨v, hle, rfl, hb⟩ := h
    exact ⟨hle, hb⟩
  · intro h
    exact ⟨⟨n, by omega⟩, h.1, rfl, h.2⟩

theorem string_reads : Reads string stringF := by
  refine ((count_reads (by decide)).bind fun n => (raw_reads n).bind fun l =>
    (?_ : Reads _ (fun s => (only (utf8 s = l) nil : Wire)))).congr ?_
  · cases h : String.fromUTF8? ⟨l.toArray⟩ with
    | none =>
      refine (Reads.throw _).congr ?_
      intro s
      have hs : utf8 s ≠ l := by
        intro he
        rw [fromUTF8?_eq_some.mpr he] at h
        cases h
      simp [hs]
    | some text =>
      refine (Reads.pure text).congr ?_
      intro s
      have hs : s = text ↔ utf8 s = l := by
        rw [← fromUTF8?_eq_some, h, Option.some.injEq, eq_comm]
      simp [hs]
  · intro s
    apply Format.ext
    intro b out b'
    simp [stringF, countF]

theorem fingerprint_reads : Reads fingerprint (fun f => (bytes f.bytes : Wire)) := by
  refine ((raw_reads 32).bind fun l =>
    (?_ : Reads _ (fun f => (only (f.bytes = l) nil : Wire)))).congr ?_
  · unfold Fingerprint.fromBytes?
    split
    · rename_i text h
      split at h
      · cases h
        refine (Reads.pure _).congr ?_
        intro f
        cases f
        simp
      · cases h
    · rename_i h
      split at h
      · cases h
      · rename_i hl
        refine (Reads.throw _).congr ?_
        intro f
        have hf : f.bytes ≠ l := by
          intro he
          exact hl (he ▸ f.length_bytes)
        simp [hf]
  · intro f
    apply Format.ext
    intro b out b'
    simp [f.length_bytes]

end Reader

/-- A value is written and read in one format. -/
structure Coded {α : Type} (write : α → Codec Unit) (read : Codec α) (F : α → Wire) : Prop where
  writes : ∀ a, Writes maxBytes (write a) (F a)
  reads : Reads read F

namespace Reader

theorem fileLocation_reads : Reads fileLocation (fun o => (any fun file => any fun span =>
    only (o = .file file span) (seq (stringF file) <| seq (u64F span.offset) <|
      seq (u64F span.length) <| seq (u32F span.line) (u32F span.column)) : Wire)) := by
  refine (Reads.bind string_reads fun file => Reads.bind u64_reads fun offset => Reads.bind u64_reads fun length =>
    Reads.bind u32_reads fun line => Reads.bind u32_reads fun column => Reads.pure _).congr ?_
  intro o
  apply Format.ext
  intro b out b'
  simp only [Format.seq_any, Format.seq_only, Format.seq_nil, Format.any_apply, Format.only_apply]
  constructor
  · intro h
    obtain ⟨file, offset, length, line, column, ho, hF⟩ := h
    exact ⟨file, ⟨offset, length, line, column⟩, ho, hF⟩
  · intro h
    obtain ⟨file, ⟨offset, length, line, column⟩, ho, hF⟩ := h
    exact ⟨file, offset, length, line, column, ho, hF⟩

theorem apiLocation_reads : Reads apiLocation (fun o => (any fun source => any fun pointer =>
    only (o = .api source pointer) (seq (stringF source) (stringF pointer)) : Wire)) := by
  refine (Reads.bind string_reads fun source => Reads.bind string_reads fun pointer => Reads.pure _).congr ?_
  intro o
  simp

theorem syntheticLocation_reads : Reads syntheticLocation (fun o => (any fun reason =>
    only (o = .synthetic reason) (stringF reason) : Wire)) := by
  refine (Reads.bind string_reads fun reason => Reads.pure _).congr ?_
  intro o
  simp

theorem location_reads :
    Reads location (fun o => (only (o.path = "") (locationF o.kind) : Wire)) := by
  refine (Reads.bind tag_reads fun t => Reads.ite fileLocation_reads <| Reads.ite apiLocation_reads <|
    Reads.ite syntheticLocation_reads (Reads.throw _)).congr ?_
  intro o
  apply Format.ext
  intro b out b'
  obtain ⟨kind, path⟩ := o
  simp only [Format.any_apply, Format.only_apply]
  constructor
  · intro h
    obtain ⟨t, o₁, m, o₂, ht, hG, ho⟩ := h
    split_ifs at hG with h0 h1 h2
    · obtain ⟨file, span, hk, hF⟩ := hG
      cases hk
      subst h0
      exact ⟨rfl, o₁, m, o₂, ht, hF, ho⟩
    · obtain ⟨source, pointer, hk, hF⟩ := hG
      cases hk
      subst h1
      exact ⟨rfl, o₁, m, o₂, ht, hF, ho⟩
    · obtain ⟨reason, hk, hF⟩ := hG
      cases hk
      subst h2
      exact ⟨rfl, o₁, m, o₂, ht, hF, ho⟩
    · exact hG.1.elim
  · intro h
    obtain ⟨hp, hF⟩ := h
    obtain rfl : path = "" := hp
    cases kind with
    | file file span =>
      obtain ⟨o₁, m, o₂, ht, hF, ho⟩ := hF
      exact ⟨0, o₁, m, o₂, ht, ⟨file, span, rfl, hF⟩, ho⟩
    | api source pointer =>
      obtain ⟨o₁, m, o₂, ht, hF, ho⟩ := hF
      exact ⟨1, o₁, m, o₂, ht, ⟨source, pointer, rfl, hF⟩, ho⟩
    | synthetic reason =>
      obtain ⟨o₁, m, o₂, ht, hF, ho⟩ := hF
      exact ⟨2, o₁, m, o₂, ht, ⟨reason, rfl, hF⟩, ho⟩

theorem origin_reads : Reads origin originF := by
  refine (Reads.bind location_reads fun o => Reads.bind string_reads fun path => Reads.pure _).congr ?_
  intro o
  apply Format.ext
  intro b out b'
  simp only [Format.seq_any, Format.seq_only, Format.only_seq, Format.seq_nil, Format.any_apply,
    Format.only_apply, originF]
  constructor
  · intro h
    obtain ⟨p, path, ho, hp, hF⟩ := h
    rw [Origin.field_of_empty hp] at ho
    subst ho
    exact hF
  · intro h
    exact ⟨⟨o.kind, ""⟩, o.path, by simp [Origin.field], rfl, h⟩

theorem intScalar_reads : Reads intScalar (fun s => (any fun value =>
    only (s = .int value) (u64F value.toBits) : Wire)) := by
  have hraw : intScalar = u64 >>= fun bits => pure (.int (I64.ofBits bits)) := by
    simp [intScalar, u64]
  rw [hraw]
  refine (Reads.bind u64_reads fun bits => Reads.pure _).congr ?_
  intro s
  apply Format.ext
  intro b out b'
  simp only [Format.seq_only, Format.seq_nil, Format.any_apply, Format.only_apply]
  constructor
  · intro h
    obtain ⟨bits, hs, hF⟩ := h
    exact ⟨I64.ofBits bits, hs, by rwa [I64.toBits_ofBits]⟩
  · intro h
    obtain ⟨value, hs, hF⟩ := h
    exact ⟨value.toBits, by rw [hs, I64.ofBits_toBits], hF⟩

theorem floatScalar_reads : Reads floatScalar (fun s => (any fun bits =>
    only (s = .float bits) (u64F bits) : Wire)) := by
  refine (Reads.bind u64_reads fun bits => Reads.pure _).congr ?_
  intro s
  simp

theorem strScalar_reads : Reads strScalar (fun s => (any fun value =>
    only (s = .str value) (stringF value) : Wire)) := by
  refine (Reads.bind string_reads fun value => Reads.pure _).congr ?_
  intro s
  simp

theorem scalar_reads : Reads scalar scalarF := by
  refine (Reads.bind tag_reads fun t => (Reads.pure _).ite <| (Reads.pure _).ite <|
    (Reads.pure _).ite <| Reads.ite intScalar_reads <| Reads.ite floatScalar_reads <|
    Reads.ite strScalar_reads (Reads.throw _)).congr ?_
  intro s
  apply Format.ext
  intro b out b'
  simp only [Format.any_apply]
  constructor
  · intro h
    obtain ⟨t, o₁, m, o₂, ht, hG, ho⟩ := h
    split_ifs at hG with h0 h1 h2 h3 h4 h5
    · obtain ⟨hs, hF⟩ := hG
      subst hs h0
      rw [← Format.seq_nil (scalarF _)]
      exact ⟨o₁, m, o₂, ht, hF, ho⟩
    · obtain ⟨hs, hF⟩ := hG
      subst hs h1
      rw [← Format.seq_nil (scalarF _)]
      exact ⟨o₁, m, o₂, ht, hF, ho⟩
    · obtain ⟨hs, hF⟩ := hG
      subst hs h2
      rw [← Format.seq_nil (scalarF _)]
      exact ⟨o₁, m, o₂, ht, hF, ho⟩
    · obtain ⟨value, hs, hF⟩ := hG
      subst hs h3
      exact ⟨o₁, m, o₂, ht, hF, ho⟩
    · obtain ⟨bits, hs, hF⟩ := hG
      subst hs h4
      exact ⟨o₁, m, o₂, ht, hF, ho⟩
    · obtain ⟨value, hs, hF⟩ := hG
      subst hs h5
      exact ⟨o₁, m, o₂, ht, hF, ho⟩
    · exact hG.1.elim
  · intro h
    have bare : ∀ {t : UInt8}, bytes [t] b out b' → seq (bytes [t]) nil b out b' := by
      intro t ht
      rw [Format.seq_nil]
      exact ht
    cases s with
    | null =>
      obtain ⟨o₁, m, o₂, ht, hF, ho⟩ := bare h
      exact ⟨0, o₁, m, o₂, ht, ⟨rfl, hF⟩, ho⟩
    | bool v =>
      cases v with
      | false =>
        obtain ⟨o₁, m, o₂, ht, hF, ho⟩ := bare h
        exact ⟨1, o₁, m, o₂, ht, ⟨rfl, hF⟩, ho⟩
      | true =>
        obtain ⟨o₁, m, o₂, ht, hF, ho⟩ := bare h
        exact ⟨2, o₁, m, o₂, ht, ⟨rfl, hF⟩, ho⟩
    | int value =>
      obtain ⟨o₁, m, o₂, ht, hF, ho⟩ := h
      exact ⟨3, o₁, m, o₂, ht, ⟨value, rfl, hF⟩, ho⟩
    | float bits =>
      obtain ⟨o₁, m, o₂, ht, hF, ho⟩ := h
      exact ⟨4, o₁, m, o₂, ht, ⟨bits, rfl, hF⟩, ho⟩
    | str value =>
      obtain ⟨o₁, m, o₂, ht, hF, ho⟩ := h
      exact ⟨5, o₁, m, o₂, ht, ⟨value, rfl, hF⟩, ho⟩

theorem value_reads : Reads value valueF := by
  refine (Reads.bind scalar_reads fun s => Reads.bind origin_reads fun o => Reads.pure _).congr ?_
  intro v
  apply Format.ext
  intro b out b'
  cases v
  simp [valueF]

theorem property_reads : Reads property propertyF := by
  refine (Reads.bind string_reads fun name => Reads.bind origin_reads fun o => Reads.bind value_reads fun v =>
    Reads.pure _).congr ?_
  intro p
  apply Format.ext
  intro b out b'
  cases p
  simp [propertyF]

theorem items_reads {α : Type} {read : Codec α} {F : α → Wire} (hr : Reads read F) :
    Reads (items read) (itemsF F) := by
  refine ((count_reads (by decide)).bind fun n => (Reads.spend _ _).bind fun _ =>
    hr.replicate n).congr ?_
  intro l
  apply Format.ext
  intro b out b'
  simp [itemsF, countF]

theorem each_nodeF (depth : Nat) (ns : List Node) : each (nodeF depth) ns = nodeLoopF depth ns := by
  induction ns with
  | nil => rw [each, nodeLoopF]
  | cons n ns ih => rw [each, nodeLoopF, ih]

/-- One pass of the loop, once its children are understood. -/
theorem node_reads {children : Codec (List Node)} {depth : Nat}
    (hc : depth ≤ maxDepth → Reads children (nodesF (depth + 1))) :
    Reads (node children depth) (nodeF depth) := by
  by_cases hd : depth ≤ maxDepth
  · refine ((Reads.spend _ _).bind fun _ => Reads.bind string_reads fun name => Reads.bind origin_reads fun o =>
      (items_reads value_reads).bind fun args => (items_reads property_reads).bind fun props =>
      (hc hd).bind fun children => Reads.pure _).congr ?_
    intro n
    apply Format.ext
    intro b out b'
    obtain ⟨name, args, props, children, o⟩ := n
    rw [nodeF]
    simp [nodesF]
  · -- past the last level the depth check stops reader and format alike
    have closed : ∀ b : Budget, Budget.node depth b = none := by
      intro b
      simp [Budget.node, not_le.mp hd]
    intro s n t
    obtain ⟨name, args, props, children', o⟩ := n
    rw [nodeF]
    constructor
    · intro h
      obtain ⟨_, u, hu, -⟩ := Format.bind_ok.mp h
      rw [Format.spend_ok, closed] at hu
      cases hu.2
    · intro h
      obtain ⟨_, ⟨_, m, _, hch, -⟩, -⟩ := h
      rw [Format.charge, closed] at hch
      cases hch.2

theorem nodeList_reads {children : Codec (List Node)} {depth : Nat}
    (hc : depth ≤ maxDepth → Reads children (nodesF (depth + 1))) :
    Reads (do let n ← count maxNodes; Format.replicate (node children depth) n) (nodesF depth) := by
  refine ((count_reads (by decide)).bind fun n => (node_reads hc).replicate n).congr ?_
  intro ns
  apply Format.ext
  intro b out b'
  simp [nodesF, each_nodeF]

theorem nodes_reads (levels depth : Nat) (h : depth + levels = maxDepth + 1) :
    Reads (nodes levels depth) (nodesF depth) := by
  induction levels generalizing depth with
  | zero =>
    refine nodeList_reads fun hd => ?_
    omega
  | succ levels ih => exact nodeList_reads fun _ => ih (depth + 1) (by omega)

theorem sourceId_reads (t : UInt8) (name : String) : Reads (sourceId t name)
    (fun id => (only (t = Writer.kindTag id.kind ∧ name = id.name) nil : Wire)) := by
  refine ((Reads.pure _).ite <| (Reads.pure _).ite <| (Reads.pure _).ite (Reads.throw _)).congr ?_
  intro id
  apply Format.ext
  intro b out b'
  cases id with
  | file n =>
    by_cases h0 : t = 0
    · subst h0
      simp [Writer.kindTag, SourceId.kind, SourceId.name, eq_comm]
    · split_ifs <;> simp_all [Writer.kindTag, SourceId.kind]
  | admin =>
    by_cases h1 : t = 1
    · subst h1
      by_cases hn : name = SourceId.admin.name
      · simp [hn, Writer.kindTag, SourceId.kind]
      · simp [hn]
    · split_ifs <;> simp_all [Writer.kindTag, SourceId.kind]
  | kubernetes n =>
    by_cases h2 : t = 2
    · subst h2
      simp [Writer.kindTag, SourceId.kind, SourceId.name, eq_comm]
    · split_ifs <;> simp_all [Writer.kindTag, SourceId.kind]

/-- Identities strictly increase, starting above the previous one. -/
@[grind =] def Ascending : Option SourceId → List SourceSnapshot → Prop
  | _, [] => True
  | previous, x :: l => (∀ p, previous = some p → compare p x.source = .lt) ∧
    Ascending (some x.source) l

theorem ascending_iff (previous : Option SourceId) (l : List SourceSnapshot) :
    Ascending previous l ↔ l.Pairwise (fun a b => compare a.source b.source = .lt) ∧
      ∀ p, previous = some p → ∀ x ∈ l, compare p x.source = .lt := by
  induction l generalizing previous with
  | nil => simp [Ascending]
  | cons x l ih =>
    rw [Ascending, ih, List.pairwise_cons]
    constructor
    · intro h
      obtain ⟨hx, hl, hs⟩ := h
      refine ⟨⟨hs _ rfl, hl⟩, ?_⟩
      intro p hp y hy
      rcases List.mem_cons.mp hy with rfl | hy
      · exact hx p hp
      · exact Std.TransCmp.lt_trans (hx p hp) (hs _ rfl y hy)
    · intro h
      obtain ⟨⟨hx, hl⟩, hp⟩ := h
      refine ⟨fun p he => hp p he x List.mem_cons_self, hl, ?_⟩
      intro p he
      cases he
      exact hx

theorem sources_reads (n : Nat) (previous : Option SourceId) (acc : Snapshot) :
    Reads (sources n previous acc) (fun s => (any fun l => only (l.length = n ∧
      Ascending previous l ∧ s = l.foldl Snapshot.insert acc) (each sourceF l) : Wire)) := by
  induction n generalizing previous acc with
  | zero =>
    refine (Reads.pure acc).congr ?_
    intro s
    apply Format.ext
    intro b out b'
    simp only [Format.only_apply, Format.any_apply, List.length_eq_zero_iff]
    constructor
    · intro h
      exact ⟨[], ⟨rfl, trivial, h.1⟩, h.2⟩
    · intro h
      obtain ⟨l, ⟨rfl, -, hs⟩, hF⟩ := h
      exact ⟨hs, hF⟩
  | succ n ih =>
    refine (Reads.bind tag_reads fun t => Reads.bind string_reads fun name =>
      (sourceId_reads t name).bind fun id =>
        Reads.guard (p := previous.any (fun p => compare p id ≠ .lt)) <|
        Reads.bind u64_reads fun rev => Reads.bind fingerprint_reads fun content =>
        (nodes_reads maxDepth 1 rfl).bind fun ns => ih (some id) _).congr ?_
    intro s
    apply Format.ext
    intro b out b'
    simp only [Format.any_apply, Format.seq_any, Format.seq_only, Format.only_seq,
      Format.only_apply, Format.nil_seq]
    constructor
    · intro h
      obtain ⟨t, name, id, hp, rev, content, ns, l, ⟨hl, ha, hs⟩, ⟨rfl, rfl⟩, hF⟩ := h
      refine ⟨⟨id, rev, content, ns⟩ :: l, ⟨by simp [hl], ⟨?_, ha⟩, hs⟩, ?_⟩
      · intro p hp'
        subst hp'
        simpa using hp
      · rw [each, sourceF]
        simpa using hF
    · intro h
      obtain ⟨l, ⟨hl, ha, hs⟩, hF⟩ := h
      cases l with
      | nil => simp at hl
      | cons x l =>
        refine ⟨_, _, x.source, ?_, x.rev, x.content, x.nodes, l,
          ⟨by simpa using hl, ha.2, hs⟩, ⟨rfl, rfl⟩, ?_⟩
        · cases previous with
          | none => simp
          | some p => simpa using ha.1 p rfl
        · rw [each, sourceF] at hF
          simpa using hF

/-- A strictly increasing list is exactly the contributions of the snapshot it builds. -/
theorem ascending_sources {l : List SourceSnapshot} {s : Snapshot} :
    (Ascending none l ∧ s = Snapshot.ofSources l) ↔ l = s.sources := by
  rw [ascending_iff]
  constructor
  · intro h
    obtain ⟨⟨hl, -⟩, rfl⟩ := h
    have hd : l.Pairwise (fun a b => a.source ≠ b.source) := by
      refine hl.imp ?_
      intro a b hab he
      rw [he] at hab
      simp at hab
    have hirr : Std.Irrefl (fun a b : SourceSnapshot => compare a.source b.source = .lt) :=
      ⟨fun a => by simp⟩
    have hasym : Std.Antisymm (fun a b : SourceSnapshot => compare a.source b.source = .lt) :=
      ⟨fun a b hab hba => by
        rw [@Std.OrientedCmp.eq_swap _ compare _, hab] at hba
        cases hba⟩
    exact hl.eq_of_mem_iff (Snapshot.sources_sorted _) fun x =>
      (Snapshot.mem_sources_ofSources hd).symm
  · intro h
    subst h
    exact ⟨⟨s.sources_sorted, by simp⟩, (Snapshot.ofSources_sources s).symm⟩

theorem snapshot_reads : Reads snapshot snapshotF := by
  refine ((count_reads (by decide)).bind fun n => sources_reads n none .empty).congr ?_
  intro s
  apply Format.ext
  intro b out b'
  simp only [Format.any_apply, Format.seq_any, Format.seq_only, Format.only_apply, snapshotF]
  constructor
  · intro h
    obtain ⟨n, l, ⟨rfl, ha, hs⟩, hF⟩ := h
    rw [← ascending_sources.1 ⟨ha, hs⟩]
    exact hF
  · intro h
    obtain ⟨ha, hs⟩ := ascending_sources.2 (rfl : s.sources = s.sources)
    exact ⟨_, s.sources, ⟨rfl, ha, hs⟩, h⟩

end Reader

theorem snapshot_coded : Coded Writer.snapshot Reader.snapshot snapshotF := ⟨Writer.snapshot_writes, Reader.snapshot_reads⟩

/-- What every accepted encoding looks like. -/
theorem encode_ok {blake3 : Digest} {s : Snapshot} {b : List UInt8} :
    encode blake3 s = .ok b ↔ ∃ body budget, snapshotF s .new body budget ∧
      header + body.length ≤ maxBytes ∧ b = magic ++ (checksum blake3 body).bytes ++ body := by
  have hw := Coded.writes snapshot_coded s ⟨List.replicate header 0, .new⟩
  unfold encode
  cases h : Writer.snapshot s ⟨List.replicate header 0, .new⟩ with
  | error e =>
    simp only [reduceCtorEq, false_iff]
    intro hx
    obtain ⟨body, budget, hF, hl, -⟩ := hx
    have hok := (hw ⟨List.replicate header 0 ++ body, budget⟩ (by decide)).mpr
      ⟨body, hF, rfl, by simpa using hl⟩
    rw [h] at hok
    cases hok
  | ok p =>
    obtain ⟨⟨⟩, out⟩ := p
    obtain ⟨body, hF, ho, hl⟩ := (hw out (by decide)).mp h
    have hdrop : out.bytes.drop header = body := by
      rw [ho, List.drop_append_of_le_length (by simp)]
      simp
    simp only [hdrop, Except.ok.injEq]
    rw [ho] at hl
    constructor
    · intro hb
      exact ⟨body, out.budget, hF, by simpa using hl, hb.symm⟩
    · intro hx
      obtain ⟨body', budget, hF', hl', rfl⟩ := hx
      have hok := (hw ⟨List.replicate header 0 ++ body', budget⟩ (by decide)).mpr
        ⟨body', hF', rfl, by simpa using hl'⟩
      rw [h] at hok
      simp only [Except.ok.injEq, Prod.mk.injEq, true_and] at hok
      rw [hok] at ho
      obtain rfl := List.append_cancel_left ho
      rfl

theorem length_magic : magic.length = 8 := by decide

theorem decode_ok {blake3 : Digest} {s : Snapshot} {b : List UInt8} :
    decode blake3 b = .ok s ↔ ∃ body budget, snapshotF s .new body budget ∧
      header + body.length ≤ maxBytes ∧ b = magic ++ (checksum blake3 body).bytes ++ body := by
  unfold decode
  constructor
  · intro h
    split_ifs at h with hl hh
    simp only [not_or, not_lt, not_not] at hh
    obtain ⟨hlen, hmagic, hsum⟩ := hh
    cases hr : Reader.snapshot ⟨b.drop header, .new⟩ with
    | error e => rw [hr] at h; cases h
    | ok p =>
      obtain ⟨s', rest⟩ := p
      rw [hr] at h
      simp only [ite_not] at h
      split at h
      · rename_i hrest
        cases h
        obtain ⟨body, hF, hb⟩ := (Coded.reads snapshot_coded _ _ _).mp hr
        rw [hrest, List.append_nil] at hb
        refine ⟨body, rest.budget, hF, ?_, ?_⟩
        · have hlb := congrArg List.length hb
          simp only [List.length_drop] at hlb
          omega
        · have htake : (b.take header).take 8 = magic := by
            rw [List.take_take, ← hmagic]
            rfl
          simp only at hb
          rw [← hb, hsum, ← htake, List.take_append_drop, List.take_append_drop]
      · cases h
  · intro h
    obtain ⟨body, budget, hF, hl, rfl⟩ := h
    have hhead : (magic ++ (checksum blake3 body).bytes).length = header := by
      rw [List.length_append, length_magic, Fingerprint.length_bytes]
      rfl
    have hdrop : (magic ++ (checksum blake3 body).bytes ++ body).drop header = body := by
      rw [← hhead, List.drop_left]
    have htake : (magic ++ (checksum blake3 body).bytes ++ body).take header =
        magic ++ (checksum blake3 body).bytes := by
      rw [← hhead, List.take_left]
    have hmagic : (magic ++ (checksum blake3 body).bytes ++ body).take 8 = magic := by
      rw [List.append_assoc, ← length_magic, List.take_left]
    have hsum : (magic ++ (checksum blake3 body).bytes).drop 8 = (checksum blake3 body).bytes := by
      rw [← length_magic, List.drop_left]
    have hlen : (magic ++ (checksum blake3 body).bytes ++ body).length = header + body.length := by
      rw [List.length_append, hhead]
    have hr : Reader.snapshot ⟨body, .new⟩ = .ok (s, ⟨[], budget⟩) :=
      (Coded.reads snapshot_coded _ _ _).mpr ⟨body, hF, by simp⟩
    rw [hdrop, htake, hmagic, hsum, hlen, if_neg (by omega), if_neg (by simp), hr]
    simp

/-- The codec is exact: a byte string decodes to a snapshot precisely when it is what
that snapshot encodes to. -/
theorem decode_iff_encode (blake3 : Digest) (s : Snapshot) (b : List UInt8) :
    decode blake3 b = .ok s ↔ encode blake3 s = .ok b := by
  rw [decode_ok, encode_ok]

end Gatel.SnapshotCodec
