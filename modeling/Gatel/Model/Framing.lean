import Gatel.Model.HashExact

namespace Gatel
open CanonicalSort (sortBy)

/-- One typed write. The elements of a collection are written to hashers of their own. -/
inductive Write where
  | str (value : String)
  | u64 (value : U64)
  | i64 (value : I64)
  | bool (value : Bool)
  | bytes (value : List UInt8)
  | duration (value : Duration)
  | none
  | optStr (value : Option String)
  | fingerprint (value : Fingerprint)
  | unordered (items : List (List Write))
  | ordered (items : List (List Write))

namespace Write

mutual

@[grind =] def into (blake3 : Digest) : Write → Hasher → Hasher
  | .str value, h => h.updateStr value
  | .u64 value, h => h.updateU64 value
  | .i64 value, h => h.updateI64 value
  | .bool value, h => h.updateBool value
  | .bytes value, h => h.updateBytes value
  | .duration value, h => h.updateDuration value
  | .none, h => h.updateNone
  | .optStr value, h => h.updateOptStr value
  | .fingerprint value, h => h.updateFingerprint value
  | .unordered items, h => h.updateUnordered blake3 (elements blake3 items) fun element _ => element
  | .ordered items, h => h.updateOrdered blake3 (elements blake3 items) fun element _ => element

/-- A sequence of writes. -/
@[grind =] def writeAll (blake3 : Digest) : List Write → Hasher → Hasher
  | [], h => h
  | w :: ws, h => writeAll blake3 ws (into blake3 w h)

/-- The hasher of each element. -/
@[grind =] def elements (blake3 : Digest) : List (List Write) → List Hasher
  | [] => []
  | ws :: items => writeAll blake3 ws Hasher.new :: elements blake3 items

end

variable (blake3 : Digest)

def fingerprintOf (ws : List Write) : Fingerprint := (writeAll blake3 ws Hasher.new).finish blake3

/-- The bytes a sequence of writes hands to the digest. -/
def stream (ws : List Write) : List UInt8 := (writeAll blake3 ws Hasher.new).written

/-- What an `opt_str` writes. -/
@[grind =] def read : Write → Write
  | .optStr (some value) => .str value
  | .optStr Option.none => .none
  | w => w

@[grind =] def items : Write → List (List Write)
  | .unordered items | .ordered items => items
  | _ => []

/-- A write of the sequence or of an element at any depth. -/
inductive Within : List Write → Write → Prop
  | here {ws : List Write} {w : Write} (h : w ∈ ws) : Within ws w
  | inside {ws element : List Write} {v w : Write} (h : v ∈ ws) (he : element ∈ v.items) (hw : Within element w) : Within ws w

/-- Lengths are those of values in memory. -/
def Fits : Write → Prop
  | .str value | .optStr (some value) => (utf8 value).length < 2 ^ 64
  | .bytes value => value.length < 2 ^ 64
  | .unordered items | .ordered items => items.length < 2 ^ 64
  | _ => True

/-- The streams of the elements at every depth. -/
def Elements (ws : List Write) : Set (List UInt8) := {x | ∃ v, Within ws v ∧ ∃ element ∈ v.items, x = stream blake3 element}

/-- The inputs of the digest while the sequence is fingerprinted. -/
def Streams (ws : List Write) : Set (List UInt8) := insert (stream blake3 ws) (Elements blake3 ws)

/-- Every length in the sequence is one of memory. -/
def Sized (ws : List Write) : Prop := ∀ w, Within ws w → w.Fits

mutual

/-- Equal sequences, where an `opt_str` is read as what it writes and an unordered collection as the multiset of its elements. -/
inductive Same : List Write → List Write → Prop
  | nil : Same [] []
  | plain {w w' : Write} {ws ws' : List Write} (h : w.read = w'.read) (rest : Same ws ws') : Same (w :: ws) (w' :: ws')
  | unordered {items between items' : List (List Write)} {ws ws' : List Write} (hp : items.Perm between)
      (h : SameItems between items') (rest : Same ws ws') : Same (.unordered items :: ws) (.unordered items' :: ws')
  | ordered {items items' : List (List Write)} {ws ws' : List Write} (h : SameItems items items') (rest : Same ws ws') :
      Same (.ordered items :: ws) (.ordered items' :: ws')

inductive SameItems : List (List Write) → List (List Write) → Prop
  | nil : SameItems [] []
  | cons {element element' : List Write} {items items' : List (List Write)} (h : Same element element')
      (rest : SameItems items items') : SameItems (element :: items) (element' :: items')

end

theorem elements_eq (items : List (List Write)) :
    elements blake3 items = items.map fun element => writeAll blake3 element Hasher.new := by
  induction items with
  | nil => simp [elements]
  | cons ws items ih => simp [elements, ih]

theorem into_unordered (items : List (List Write)) (h : Hasher) :
    into blake3 (.unordered items) h = h.updateUnordered blake3 items (writeAll blake3) := by
  simp [into, elements_eq, Hasher.updateUnordered, Function.comp_def]

theorem into_ordered (items : List (List Write)) (h : Hasher) :
    into blake3 (.ordered items) h = h.updateOrdered blake3 items (writeAll blake3) := by
  simp [into, elements_eq, Hasher.updateOrdered, List.flatMap_map]

theorem into_read (w : Write) (h : Hasher) : into blake3 w.read h = into blake3 w h := by
  rcases w with _ | _ | _ | _ | _ | _ | _ | (_ | _) | _ | _ | _ <;> simp [read, into, Hasher.updateOptStr]

/-! The stream of a sequence, write by write. -/

@[grind =] def tag : Write → UInt8
  | .str _ | .optStr (some _) => 1
  | .u64 _ => 2
  | .i64 _ => 3
  | .bool _ => 4
  | .bytes _ => 5
  | .duration _ => 6
  | .none | .optStr Option.none => 7
  | .fingerprint _ => 8
  | .unordered _ => 9
  | .ordered _ => 10

def digests (items : List (List Write)) : List (List UInt8) := items.map fun element => (fingerprintOf blake3 element).bytes

@[grind =] def payload : Write → List UInt8
  | .str value | .optStr (some value) => LittleEndian.bytes 8 (utf8 value).length ++ utf8 value
  | .u64 value => LittleEndian.bytes 8 value.val
  | .i64 value => LittleEndian.bytes 8 value.toBits.val
  | .bool value => [if value then 1 else 0]
  | .bytes value => LittleEndian.bytes 8 value.length ++ value
  | .duration value => LittleEndian.bytes 16 value.val
  | .none | .optStr Option.none => []
  | .fingerprint value => value.bytes
  | .unordered items => LittleEndian.bytes 8 items.length ++ (sortBy compare (digests blake3 items)).flatten
  | .ordered items => LittleEndian.bytes 8 items.length ++ (digests blake3 items).flatten

theorem into_written (w : Write) (h : Hasher) :
    (into blake3 w h).written = h.written ++ tag w :: payload blake3 w := by
  cases w with
  | unordered items =>
    have hlen : (sortBy compare (digests blake3 items)).length = items.length := by
      rw [(CanonicalSort.sortBy_perm compare _).length_eq, digests, List.length_map]
    rw [into_unordered]
    change h.written ++ 9 :: (LittleEndian.bytes 8 (sortBy compare (digests blake3 items)).length ++ _) = _
    rw [hlen]
    rfl
  | ordered items =>
    rw [into_ordered]
    change h.written ++ 10 :: (LittleEndian.bytes 8 items.length ++ _) = h.written ++ 10 :: (LittleEndian.bytes 8 items.length ++ _)
    rw [List.flatMap_def]
    rfl
  | optStr value => cases value <;> rfl
  | _ => rfl

theorem writeAll_written (ws : List Write) (h : Hasher) :
    (writeAll blake3 ws h).written = h.written ++ stream blake3 ws := by
  induction ws generalizing h with
  | nil => simp [writeAll, stream, Hasher.new]
  | cons w ws ih =>
    rw [stream, writeAll, writeAll, ih, ih (into blake3 w Hasher.new), into_written, into_written]
    simp [Hasher.new]

theorem stream_cons (w : Write) (ws : List Write) :
    stream blake3 (w :: ws) = tag w :: (payload blake3 w ++ stream blake3 ws) := by
  rw [stream, writeAll, writeAll_written, into_written]
  simp [Hasher.new]

/-- What one write says of another it is not told apart from. -/
inductive Alike (w w' : Write) : Prop
  | plain (h : w.read = w'.read)
  | unordered {items items' : List (List Write)} (hw : w = .unordered items) (hw' : w' = .unordered items')
      (h : (digests blake3 items).Perm (digests blake3 items'))
  | ordered {items items' : List (List Write)} (hw : w = .ordered items) (hw' : w' = .ordered items')
      (h : digests blake3 items = digests blake3 items')

theorem read_read (w : Write) : w.read.read = w.read := by
  rcases w with _ | _ | _ | _ | _ | _ | _ | (_ | _) | _ | _ | _ <;> rfl

theorem read_ne_optStr (w : Write) (value : Option String) : w.read ≠ .optStr value := by
  rcases w with _ | _ | _ | _ | _ | _ | _ | (_ | _) | _ | _ | _ <;> simp [read]

theorem tag_read (w : Write) : tag w.read = tag w := by
  rcases w with _ | _ | _ | _ | _ | _ | _ | (_ | _) | _ | _ | _ <;> rfl

theorem payload_read (w : Write) : payload blake3 w.read = payload blake3 w := by
  rcases w with _ | _ | _ | _ | _ | _ | _ | (_ | _) | _ | _ | _ <;> rfl

theorem fits_read (w : Write) : w.read.Fits ↔ w.Fits := by
  rcases w with _ | _ | _ | _ | _ | _ | _ | (_ | _) | _ | _ | _ <;> exact Iff.rfl

theorem Alike.of_read {w w' : Write} (h : Alike blake3 w.read w'.read) : Alike blake3 w w' := by
  have hunordered : ∀ (v : Write) items, v.read = .unordered items → v = .unordered items := by
    intro v items he
    rcases v with _ | _ | _ | _ | _ | _ | _ | (_ | _) | _ | _ | _ <;> first | exact he | cases he
  have hordered : ∀ (v : Write) items, v.read = .ordered items → v = .ordered items := by
    intro v items he
    rcases v with _ | _ | _ | _ | _ | _ | _ | (_ | _) | _ | _ | _ <;> first | exact he | cases he
  cases h with
  | plain h => exact .plain (by rwa [read_read, read_read] at h)
  | unordered hw hw' h => exact .unordered (hunordered w _ hw) (hunordered w' _ hw') h
  | ordered hw hw' h => exact .ordered (hordered w _ hw) (hordered w' _ hw') h

theorem length_digests (items : List (List Write)) : (digests blake3 items).length = items.length := List.length_map _

theorem digests_width (items : List (List Write)) : ∀ x ∈ digests blake3 items, x.length = 32 := by
  intro x hx
  obtain ⟨element, _, rfl⟩ := List.mem_map.mp hx
  exact Fingerprint.length_bytes _

/-- One write in front of anything is read back. -/
theorem payload_reads {w w' : Write} (hw : w.Fits) (hw' : w'.Fits) {r r' : List UInt8} (ht : tag w = tag w')
    (he : payload blake3 w ++ r = payload blake3 w' ++ r') : Alike blake3 w w' ∧ r = r' := by
  suffices hread : ∀ v v' : Write, (∀ o, v ≠ .optStr o) → (∀ o, v' ≠ .optStr o) → v.Fits → v'.Fits → tag v = tag v' →
      payload blake3 v ++ r = payload blake3 v' ++ r' → Alike blake3 v v' ∧ r = r' by
    obtain ⟨hsame, hr⟩ := hread w.read w'.read w.read_ne_optStr w'.read_ne_optStr ((fits_read w).mpr hw) ((fits_read w').mpr hw')
      (by rw [tag_read, tag_read, ht]) (by rw [payload_read, payload_read, he])
    exact ⟨hsame.of_read, hr⟩
  clear ht he hw hw' w w'
  intro v v' hv hv' hfit hfit' ht he
  cases v <;> cases v' <;> first | exact absurd rfl (hv _) | exact absurd rfl (hv' _) | skip
  all_goals first | (simp [tag] at ht; done) | skip
  case str.str a b =>
    obtain ⟨_, hsame, hr⟩ := PrefixCode.counted_inj (w := 1) hfit hfit' (by simp) (by simp) he
    exact ⟨.plain (by rw [Hasher.utf8_injective hsame]), hr⟩
  case u64.u64 a b =>
    obtain ⟨hsame, hr⟩ := List.append_inj he (by simp [payload])
    exact ⟨.plain (by rw [Fin.ext (LittleEndian.bytes_injective (w := 8) a.isLt b.isLt hsame)]), hr⟩
  case i64.i64 a b =>
    obtain ⟨hsame, hr⟩ := List.append_inj he (by simp [payload])
    have hbits : a.toBits = b.toBits := Fin.ext (LittleEndian.bytes_injective (w := 8) a.toBits.isLt b.toBits.isLt hsame)
    exact ⟨.plain (by rw [← I64.ofBits_toBits a, hbits, I64.ofBits_toBits]), hr⟩
  case bool.bool a b =>
    obtain ⟨hsame, hr⟩ := List.append_inj he (by simp [payload])
    refine ⟨.plain ?_, hr⟩
    cases a <;> cases b <;> simp_all [payload]
  case bytes.bytes a b =>
    obtain ⟨_, hsame, hr⟩ := PrefixCode.counted_inj (w := 1) hfit hfit' (by simp) (by simp) he
    exact ⟨.plain (by rw [hsame]), hr⟩
  case duration.duration a b =>
    obtain ⟨hsame, hr⟩ := List.append_inj he (by simp [payload])
    have ha : a.val < 256 ^ 16 := lt_of_lt_of_le a.isLt (by decide)
    have hb : b.val < 256 ^ 16 := lt_of_lt_of_le b.isLt (by decide)
    exact ⟨.plain (by rw [Fin.ext (LittleEndian.bytes_injective ha hb hsame)]), hr⟩
  case none.none => exact ⟨.plain rfl, he⟩
  case fingerprint.fingerprint a b =>
    obtain ⟨hsame, hr⟩ := List.append_inj he (by simp [payload, Fingerprint.length_bytes])
    have hab : a = b := by
      cases a
      cases b
      exact Fingerprint.mk.injEq .. ▸ hsame
    exact ⟨.plain (by rw [hab]), hr⟩
  case unordered.unordered a b =>
    have hsorted : ∀ items, (sortBy compare (digests blake3 items)).Perm (digests blake3 items) :=
      fun items => CanonicalSort.sortBy_perm compare _
    have hwidth : ∀ items, ∀ x ∈ sortBy compare (digests blake3 items), x.length = 32 := fun items x hx =>
      digests_width blake3 items x (CanonicalSort.mem_sortBy.mp hx)
    have hflat : ∀ items, (sortBy compare (digests blake3 items)).flatten.length = 32 * items.length := fun items => by
      rw [PrefixCode.length_flatten (hwidth items), (hsorted items).length_eq, length_digests]
    obtain ⟨_, hsame, hr⟩ := PrefixCode.counted_inj hfit hfit' (hflat a) (hflat b) he
    have hlist := PrefixCode.flatten_inj (by decide) (hwidth a) (hwidth b) hsame
    exact ⟨.unordered rfl rfl ((hsorted a).symm.trans ((List.Perm.of_eq hlist).trans (hsorted b))), hr⟩
  case ordered.ordered a b =>
    have hflat : ∀ items, (digests blake3 items).flatten.length = 32 * items.length := fun items => by
      rw [PrefixCode.length_flatten (digests_width blake3 items), length_digests]
    obtain ⟨_, hsame, hr⟩ := PrefixCode.counted_inj hfit hfit' (hflat a) (hflat b) he
    exact ⟨.ordered rfl rfl (PrefixCode.flatten_inj (by decide) (digests_width blake3 a) (digests_width blake3 b) hsame), hr⟩

/-! Equal streams are equal sequences, down through the collections. -/

theorem SameItems.of_forall₂ {items items' : List (List Write)} (h : List.Forall₂ Same items items') : SameItems items items' := by
  induction h with
  | nil => exact .nil
  | cons hab _ ih => exact .cons hab ih

theorem Within.tail {w v : Write} {ws : List Write} (h : Within ws v) : Within (w :: ws) v := by
  cases h with
  | here h => exact .here (List.mem_cons_of_mem w h)
  | inside h he hw => exact .inside (List.mem_cons_of_mem w h) he hw

theorem Within.element {w v : Write} {ws element : List Write} (he : element ∈ w.items) (h : Within element v) :
    Within (w :: ws) v := .inside (List.mem_cons_self ..) he h

theorem elements_tail (w : Write) (ws : List Write) : Elements blake3 ws ⊆ Elements blake3 (w :: ws) := by
  rintro x ⟨v, hv, element, he, rfl⟩
  exact ⟨v, hv.tail, element, he, rfl⟩

theorem elements_element {w : Write} {element : List Write} (he : element ∈ w.items) (ws : List Write) :
    insert (stream blake3 element) (Elements blake3 element) ⊆ Elements blake3 (w :: ws) := by
  rintro x (rfl | ⟨v, hv, element', he', rfl⟩)
  · exact ⟨w, .here (List.mem_cons_self ..), element, he, rfl⟩
  · exact ⟨v, .element he hv, element', he', rfl⟩

theorem finish_inj {element element' : List Write}
    (h : (fingerprintOf blake3 element).bytes = (fingerprintOf blake3 element').bytes) :
    blake3 (stream blake3 element) = blake3 (stream blake3 element') := by
  change (blake3 (stream blake3 element)).bytes = (blake3 (stream blake3 element')).bytes at h
  cases hx : blake3 (stream blake3 element)
  cases hy : blake3 (stream blake3 element')
  rw [hx, hy] at h
  exact Fingerprint.mk.injEq .. ▸ h

theorem sizeOf_element {w : Write} {element : List Write} (h : element ∈ w.items) : sizeOf element < sizeOf w := by
  cases w with
  | unordered items =>
    have hlt := List.sizeOf_lt_of_mem (show element ∈ items from h)
    simp only [Write.unordered.sizeOf_spec]
    omega
  | ordered items =>
    have hlt := List.sizeOf_lt_of_mem (show element ∈ items from h)
    simp only [Write.ordered.sizeOf_spec]
    omega
  | _ => simp [items] at h

theorem same_of_stream (ws ws' : List Write) (hfit : Sized ws) (hfit' : Sized ws')
    (hinj : Set.InjOn blake3 (Elements blake3 ws ∪ Elements blake3 ws')) (he : stream blake3 ws = stream blake3 ws') :
    Same ws ws' := by
  match ws, ws' with
  | [], [] => exact .nil
  | [], w' :: ws' =>
    rw [stream_cons] at he
    exact absurd he.symm (List.cons_ne_nil _ _)
  | w :: ws, [] =>
    rw [stream_cons] at he
    exact absurd he (List.cons_ne_nil _ _)
  | w :: ws, w' :: ws' =>
    rw [stream_cons, stream_cons] at he
    obtain ⟨ht, hp⟩ := List.cons.inj he
    obtain ⟨hw, hrest⟩ := payload_reads blake3 (hfit w (.here (List.mem_cons_self ..))) (hfit' w' (.here (List.mem_cons_self ..))) ht hp
    have rest : Same ws ws' := same_of_stream ws ws' (fun v hv => hfit v hv.tail) (fun v hv => hfit' v hv.tail)
      (hinj.mono (Set.union_subset_union (elements_tail blake3 w ws) (elements_tail blake3 w' ws'))) hrest
    -- Elements of one digest are the same by the induction hypothesis, as they are smaller.
    have helement : ∀ a ∈ w.items, ∀ b ∈ w'.items, (fingerprintOf blake3 a).bytes = (fingerprintOf blake3 b).bytes → Same a b := by
      intro a ha b hb hd
      have hsub := elements_element blake3 ha ws
      have hsub' := elements_element blake3 hb ws'
      have hstream := hinj (.inl (hsub (.inl rfl))) (.inr (hsub' (.inl rfl))) (finish_inj blake3 hd)
      exact same_of_stream a b (fun v hv => hfit v (.element ha hv)) (fun v hv => hfit' v (.element hb hv))
        (hinj.mono (Set.union_subset_union ((Set.subset_insert ..).trans hsub) ((Set.subset_insert ..).trans hsub'))) hstream
    cases hw with
    | plain h => exact .plain h rest
    | @unordered items items' hw hw' h =>
      subst hw hw'
      obtain ⟨between, hperm, hall⟩ := Shuffle.Shuffled.of_map_perm h
      have hsame := Shuffle.forall₂_imp_mem hall fun a ha b hb hd => helement a (hperm.mem_iff.mpr ha) b hb hd
      exact .unordered hperm (.of_forall₂ hsame) rest
    | @ordered items items' hw hw' h =>
      subst hw hw'
      have hall := List.forall₂_eq_eq_eq.symm ▸ h
      rw [digests, digests, List.forall₂_map_left_iff, List.forall₂_map_right_iff] at hall
      exact .ordered (.of_forall₂ (Shuffle.forall₂_imp_mem hall helement)) rest
termination_by sizeOf ws
decreasing_by
  · simp
  · have hlt := sizeOf_element ha
    simp only [List.cons.sizeOf_spec]
    omega

mutual

/-- Equal sequences write the same whatever the digest. -/
theorem Same.writeAll_eq {ws ws' : List Write} (h : Same ws ws') (g : Hasher) : writeAll blake3 ws g = writeAll blake3 ws' g := by
  match h with
  | .nil => rfl
  | .plain hw rest =>
    rw [writeAll, writeAll, ← into_read, hw, into_read]
    exact rest.writeAll_eq _
  | @Same.unordered items _ items' _ _ hp hi rest =>
    have hperm := hp.map fun element => writeAll blake3 element Hasher.new
    rw [← elements_eq, ← elements_eq, hi.elements_eq'] at hperm
    have hcongr : g.updateUnordered blake3 (elements blake3 items) (fun element _ => element) =
        g.updateUnordered blake3 (elements blake3 items') fun element _ => element :=
      Hasher.updateUnordered_congr (by simpa using hperm) g
    rw [writeAll, writeAll, into, into, hcongr]
    exact rest.writeAll_eq _
  | .ordered hi rest =>
    rw [writeAll, writeAll, into, into, hi.elements_eq']
    exact rest.writeAll_eq _

theorem SameItems.elements_eq' {items items' : List (List Write)} (h : SameItems items items') :
    elements blake3 items = elements blake3 items' := by
  match h with
  | .nil => rfl
  | .cons h rest => rw [elements, elements, h.writeAll_eq, rest.elements_eq']

end

/-- A fingerprint tells its sequence of writes, as far as the digest keeps apart the streams that go into it. -/
theorem writes_exact (ws ws' : List Write) (hfit : Sized ws) (hfit' : Sized ws')
    (hinj : Set.InjOn blake3 (Streams blake3 ws ∪ Streams blake3 ws')) :
    fingerprintOf blake3 ws = fingerprintOf blake3 ws' ↔ Same ws ws' := by
  constructor
  · intro h
    have hstream := hinj (.inl (.inl rfl)) (.inr (.inl rfl)) h
    exact same_of_stream blake3 ws ws' hfit hfit'
      (hinj.mono (Set.union_subset_union (Set.subset_insert ..) (Set.subset_insert ..))) hstream
  · intro h
    rw [fingerprintOf, fingerprintOf, h.writeAll_eq]

theorem elements_flat {ws : List Write} (h : ∀ w ∈ ws, w.items = []) : Elements blake3 ws = ∅ := by
  rw [Set.eq_empty_iff_forall_notMem]
  rintro x ⟨v, hv, element, he, rfl⟩
  cases hv with
  | here hv => simp [h v hv] at he
  | inside hw ha _ => simp [h _ hw] at ha

/-- A digest that keeps short streams apart. -/
def padded : Digest := fun x => ⟨(x ++ List.replicate 32 0).take 32, by simp⟩

theorem framing_split_strings : fingerprintOf padded [.str "ab", .str "c"] = fingerprintOf padded [.str "a", .str "bc"] ↔
    Same [.str "ab", .str "c"] [.str "a", .str "bc"] := by
  have hsized : ∀ a b : String, (utf8 a).length < 2 ^ 64 → (utf8 b).length < 2 ^ 64 → Sized [.str a, .str b] := by
    intro a b ha hb w hw
    cases hw with
    | here hw => rcases List.mem_pair.mp hw with rfl | rfl <;> assumption
    | inside hw he _ => rcases List.mem_pair.mp hw with rfl | rfl <;> simp [items] at he
  have hflat : ∀ a b : String, Elements padded [.str a, .str b] = ∅ := fun a b =>
    elements_flat padded (by simp [items])
  refine writes_exact padded _ _ (hsized _ _ (by decide) (by decide)) (hsized _ _ (by decide) (by decide)) ?_
  rw [Streams, Streams, hflat, hflat]
  have happart : padded (stream padded [.str "ab", .str "c"]) ≠ padded (stream padded [.str "a", .str "bc"]) := by decide
  intro x hx y hy he
  simp only [insert_empty_eq, Set.mem_union, Set.mem_singleton_iff] at hx hy
  obtain rfl | rfl := hx <;> obtain rfl | rfl := hy
  · rfl
  · exact absurd he happart
  · exact absurd he.symm happart
  · rfl

end Write

end Gatel
