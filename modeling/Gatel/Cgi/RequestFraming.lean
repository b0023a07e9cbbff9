import Gatel.Cgi.Environment
import Gatel.Cgi.Fastcgi
import Gatel.Model.HashExact
import Gatel.Plan.RequestPath

namespace Gatel.Cgi
open SortedMap (Sorted)

namespace Fastcgi

def paramsKind : UInt8 := 4

@[grind =] def record (kind : UInt8) (body : List UInt8) : Except RequestError (List UInt8) :=
  if body.length < 2 ^ 16 then
    .ok ([1, kind, 0, 1, UInt8.ofNat (body.length / 256), UInt8.ofNat body.length, 0, 0] ++ body)
  else .error .limit

/-- `u32::to_be_bytes`. -/
def u32Bytes (n : Nat) : List UInt8 :=
  [UInt8.ofNat (n / 2 ^ 24), UInt8.ofNat (n / 2 ^ 16), UInt8.ofNat (n / 2 ^ 8), UInt8.ofNat n]

def length (length : Nat) : Except RequestError (List UInt8) :=
  if 2 ^ 32 ≤ length then .error .limit
  else if length > 0x7fffffff then .error .limit
  else if length < 128 then .ok [UInt8.ofNat length]
  else .ok (u32Bytes (length ||| 0x80000000))

/-- The loop over the environment. -/
@[grind =] def paramsStream : List (String × List UInt8) → Except RequestError (List UInt8)
  | [] => .ok []
  | (name, value) :: rest => do
    let nameLength ← length (utf8 name).length
    let valueLength ← length value.length
    let stream ← paramsStream rest
    return nameLength ++ valueLength ++ utf8 name ++ value ++ stream

/-- `slice::chunks`. -/
def chunks (size : Nat) (l : List UInt8) : List (List UInt8) :=
  if l = [] ∨ size = 0 then []
  else l.take size :: chunks size (l.drop size)
termination_by l.length
decreasing_by
  have hl := List.length_pos_of_ne_nil (not_or.mp ‹_›).1
  rw [List.length_drop]
  omega

def params (env : Environment) : Except RequestError (List UInt8) := do
  let stream ← paramsStream env.values
  let records ← (chunks 65535 stream).mapM (record paramsKind)
  let last ← record paramsKind []
  return records.flatten ++ last

/-! What a backend reads. -/

/-- The records of a wire, one after another. -/
inductive Decoded : List UInt8 → List Record → Prop where
  | nil : Decoded [] []
  | cons {wire : List UInt8} {r : Record} {used : Nat} {rs : List Record} (h : decode wire = .ok (some (r, used)))
    (hrest : Decoded (wire.drop used) rs) : Decoded wire (r :: rs)

@[grind =] def readLength : List UInt8 → Option (Nat × List UInt8)
  | b :: rest =>
    if b < 128 then some (b.toNat, rest)
    else match rest with
      | b2 :: b1 :: b0 :: rest =>
        some ((b.toNat - 128) * 2 ^ 24 + b2.toNat * 2 ^ 16 + b1.toNat * 2 ^ 8 + b0.toNat, rest)
      | _ => none
  | [] => none

/-- At most so many pairs. -/
@[grind =] def readPairs : Nat → List UInt8 → Option (List (List UInt8 × List UInt8))
  | _, [] => some []
  | 0, _ => none
  | n + 1, stream => do
    let (nameLength, stream) ← readLength stream
    let (valueLength, stream) ← readLength stream
    if stream.length < nameLength + valueLength then none
    else
      let pairs ← readPairs n (stream.drop (nameLength + valueLength))
      return (stream.take nameLength, (stream.drop nameLength).take valueLength) :: pairs

theorem decode_record {kind : UInt8} {body wire : List UInt8} (h : record kind body = .ok wire) (rest : List UInt8) :
    decode (wire ++ rest) = .ok (some (⟨kind, requestId, body⟩, wire.length)) := by
  rw [record] at h
  split at h
  · rename_i hlen
    have hid : u16 0 1 = requestId := rfl
    rw [← Except.ok.inj h]
    have hroom : ¬ body.length + rest.length + 1 + 1 + 1 + 1 + 1 + 1 + 1 + 1 < 8 + body.length := by omega
    simp [decode, announced, u16_ofNat hlen, hid, hroom]
    omega
  · cases h

/-- A record that has not come whole is waited for. -/
theorem decode_partial {kind : UInt8} {body wire part : List UInt8} (h : record kind body = .ok wire) (hp : part <+: wire)
    (hne : part ≠ wire) : decode part = .ok none := by
  have hshort : part.length < wire.length :=
    lt_of_le_of_ne hp.length_le fun he => hne (hp.eq_of_length he)
  rw [record] at h
  split at h
  · rename_i hlen
    obtain ⟨more, hmore⟩ := hp
    rw [← Except.ok.inj h] at hmore hshort
    match part with
    | version :: r :: high :: low :: high' :: low' :: padding :: reserved :: rest =>
      simp only [List.cons_append, List.nil_append, List.cons.injEq] at hmore
      obtain ⟨rfl, rfl, rfl, rfl, rfl, rfl, rfl, rfl, -⟩ := hmore
      simp only [List.cons_append, List.nil_append, List.length_cons] at hshort
      simp [decode, announced, u16_ofNat hlen]
      omega
    | [] | [_] | [_, _] | [_, _, _] | [_, _, _, _] | [_, _, _, _, _] | [_, _, _, _, _, _] | [_, _, _, _, _, _, _] => rfl
  · cases h

theorem readLength_length {n : Nat} {bytes : List UInt8} (h : length n = .ok bytes) (rest : List UInt8) :
    readLength (bytes ++ rest) = some (n, rest) := by
  rw [length] at h
  split at h
  · cases h
  · split at h
    · cases h
    · split at h
      · rename_i hlow
        rw [← Except.ok.inj h]
        have hb : UInt8.ofNat n < 128 := by
          rw [UInt8.lt_iff_toNat_lt, UInt8.toNat_ofNat']
          show n % 2 ^ 8 < 128
          omega
        have hn : n % 2 ^ 8 = n := by omega
        simpa [readLength, hb] using hn
      · rename_i hhigh hlow
        have hor : n ||| 0x80000000 = 2 ^ 31 + n := by
          rw [Nat.or_comm]
          exact (Nat.two_pow_add_eq_or_of_lt (i := 31) (by omega) 1).symm
        rw [← Except.ok.inj h, hor]
        have hb : ¬ UInt8.ofNat ((2 ^ 31 + n) / 2 ^ 24) < 128 := by
          rw [UInt8.lt_iff_toNat_lt, UInt8.toNat_ofNat']
          show ¬ (2 ^ 31 + n) / 2 ^ 24 % 2 ^ 8 < 128
          omega
        simp only [u32Bytes, List.cons_append, List.nil_append]
        rw [readLength, if_neg hb]
        simp only [UInt8.toNat_ofNat']
        congr 2
        omega

theorem length_ok {n : Nat} (h : n ≤ 0x7fffffff) : ∃ bytes, length n = .ok bytes := by
  rw [length, if_neg (by omega), if_neg (by omega)]
  split
  · exact ⟨_, rfl⟩
  · exact ⟨_, rfl⟩

/-- The pairs of a stream are the ones it was made of. -/
theorem paramsStream_read {values : List (String × List UInt8)}
    (h : ∀ entry ∈ values, (utf8 entry.1).length ≤ 0x7fffffff ∧ entry.2.length ≤ 0x7fffffff) :
    ∃ stream, paramsStream values = .ok stream ∧ values.length ≤ stream.length ∧
      ∀ fuel, values.length ≤ fuel → readPairs fuel stream = some (values.map fun entry => (utf8 entry.1, entry.2)) := by
  induction values with
  | nil => exact ⟨[], rfl, le_rfl, fun fuel _ => by cases fuel <;> rfl⟩
  | cons entry values ih =>
    obtain ⟨name, value⟩ := entry
    obtain ⟨hname, hvalue⟩ := h _ List.mem_cons_self
    obtain ⟨stream, hstream, hlen, hread⟩ := ih fun entry he => h entry (List.mem_cons_of_mem _ he)
    obtain ⟨nameLength, hn⟩ := length_ok hname
    obtain ⟨valueLength, hv⟩ := length_ok hvalue
    have hwhole : paramsStream ((name, value) :: values) =
        .ok (nameLength ++ valueLength ++ utf8 name ++ value ++ stream) := by
      rw [paramsStream, hn, hv, hstream]
      rfl
    have hfirst : ∀ rest, readLength (nameLength ++ valueLength ++ utf8 name ++ value ++ rest) =
        some ((utf8 name).length, valueLength ++ utf8 name ++ value ++ rest) := by
      intro rest
      rw [List.append_assoc, List.append_assoc, List.append_assoc, readLength_length hn]
      simp
    have hsecond : readLength (valueLength ++ utf8 name ++ value ++ stream) =
        some (value.length, utf8 name ++ value ++ stream) := by
      rw [List.append_assoc, List.append_assoc, readLength_length hv]
      simp
    have hpos : 1 ≤ nameLength.length := by
      apply List.length_pos_of_ne_nil
      rintro rfl
      have hempty := readLength_length hn []
      cases hempty
    refine ⟨_, hwhole, ?_, ?_⟩
    · simp only [List.length_append, List.length_cons]
      omega
    · intro fuel hfuel
      cases fuel with
      | zero => cases hfuel
      | succ fuel =>
        have hne : nameLength ++ valueLength ++ utf8 name ++ value ++ stream ≠ [] := by
          intro he
          have hz := congrArg List.length he
          simp only [List.length_append, List.length_nil] at hz
          omega
        have hfuel : values.length ≤ fuel := by
          rw [List.length_cons] at hfuel
          omega
        rw [readPairs]
        · simp only [hfirst, hsecond, bind, Option.bind]
          rw [if_neg (by simp)]
          have hdrop : (utf8 name ++ value ++ stream).drop ((utf8 name).length + value.length) = stream := by
            rw [← List.length_append, List.drop_left]
          rw [hdrop, hread fuel hfuel]
          simp
        · exact hne

theorem chunks_flatten {size : Nat} (hs : 0 < size) (l : List UInt8) :
    (chunks size l).flatten = l ∧ ∀ c ∈ chunks size l, c ≠ [] ∧ c.length ≤ size := by
  induction l using chunks.induct size with
  | case1 l h =>
    rcases h with rfl | rfl
    · rw [chunks, if_pos (.inl rfl)]
      exact ⟨rfl, nofun⟩
    · exact absurd hs (by simp)
  | case2 l h ih =>
    rw [chunks, if_neg h]
    refine ⟨?_, ?_⟩
    · rw [List.flatten_cons, ih.1, List.take_append_drop]
    · intro c hc
      rcases List.mem_cons.mp hc with rfl | hc
      · have hl := List.length_pos_of_ne_nil (not_or.mp h).1
        refine ⟨?_, List.length_take_le _ _⟩
        intro he
        have hz := congrArg List.length he
        rw [List.length_take, List.length_nil] at hz
        omega
      · exact ih.2 c hc

theorem Decoded.record {kind : UInt8} {body wire rest : List UInt8} {rs : List Record}
    (h : Fastcgi.record kind body = .ok wire) (hrest : Decoded rest rs) :
    Decoded (wire ++ rest) (⟨kind, requestId, body⟩ :: rs) :=
  .cons (decode_record h rest) (by rwa [List.drop_left])

/-- Records of bodies that fit, one after another. -/
theorem records_decoded {kind : UInt8} {bodies : List (List UInt8)} (h : ∀ body ∈ bodies, body.length < 2 ^ 16)
    {rest : List UInt8} {rs : List Record} (hrest : Decoded rest rs) :
    ∃ wires, bodies.mapM (record kind) = .ok wires ∧
      Decoded (wires.flatten ++ rest) (bodies.map (fun body => ⟨kind, requestId, body⟩) ++ rs) := by
  induction bodies with
  | nil => exact ⟨[], rfl, hrest⟩
  | cons body bodies ih =>
    obtain ⟨wires, hwires, hdecoded⟩ := ih fun body hb => h body (List.mem_cons_of_mem _ hb)
    obtain ⟨wire, hwire⟩ : ∃ wire, record kind body = .ok wire := by
      rw [record, if_pos (h body List.mem_cons_self)]
      exact ⟨_, rfl⟩
    refine ⟨wire :: wires, ?_, ?_⟩
    · rw [List.mapM_cons, hwire, hwires]
      rfl
    · rw [List.flatten_cons, List.append_assoc]
      exact hdecoded.record hwire

theorem Decoded.unique {wire : List UInt8} {rs rs' : List Record} (h : Decoded wire rs) (h' : Decoded wire rs') : rs = rs' := by
  induction h generalizing rs' with
  | nil =>
    cases h' with
    | nil => rfl
    | cons hd => cases hd
  | cons hd _ ih =>
    cases h' with
    | nil => cases hd
    | cons hd' hrest' =>
      obtain ⟨rfl, rfl⟩ := Prod.mk.inj (Option.some.inj (Except.ok.inj (hd.symm.trans hd')))
      rw [ih hrest']

/-- What a backend makes of the parameters of a request. -/
theorem params_decoded (env : Environment) : ∃ wire, ∃ bodies : List (List UInt8), params env = .ok wire ∧
    Decoded wire (bodies.map (fun body => ⟨paramsKind, requestId, body⟩) ++ [⟨paramsKind, requestId, []⟩]) ∧
    (∀ body ∈ bodies, body ≠ [] ∧ body.length ≤ 65535) ∧
    readPairs bodies.flatten.length bodies.flatten = some (env.values.map fun entry => (utf8 entry.1, entry.2)) := by
  have hsmall : ∀ entry ∈ env.values, (utf8 entry.1).length ≤ 0x7fffffff ∧ entry.2.length ≤ 0x7fffffff := by
    intro entry he
    have hle := List.single_le_sum (fun _ _ => Nat.zero_le _) _ (List.mem_map_of_mem (f := entrySize) he)
    rw [← env.counted, entrySize] at hle
    have hbounded := env.bounded
    have hcapped := env.capped
    constructor <;> omega
  obtain ⟨stream, hstream, hlen, hread⟩ := paramsStream_read hsmall
  obtain ⟨hflat, hchunks⟩ := chunks_flatten (by decide : 0 < 65535) stream
  have hlast : record paramsKind [] = .ok [1, 4, 0, 1, 0, 0, 0, 0] := rfl
  have hend : Decoded [1, 4, 0, 1, 0, 0, 0, 0] [⟨paramsKind, requestId, []⟩] := Decoded.nil.record hlast
  obtain ⟨wires, hwires, hdecoded⟩ :=
    records_decoded (fun body hb => Nat.lt_succ_of_le (hchunks body hb).2) hend
  refine ⟨wires.flatten ++ [1, 4, 0, 1, 0, 0, 0, 0], chunks 65535 stream, ?_, hdecoded, hchunks, ?_⟩
  · rw [params, hstream]
    simp only [bind, Except.bind]
    rw [hwires, hlast]
    rfl
  · rw [hflat, hread _ hlen]

end Fastcgi

namespace Scgi

def pair (name : String) (value : List UInt8) : List UInt8 := utf8 name ++ [0] ++ value ++ [0]

/-- The digits of a length, as far as it fits. -/
def readLength (value : List UInt8) : Option Nat :=
  value.foldlM (fun n byte =>
    if 2 ^ 64 ≤ n * 10 then none
    else if 2 ^ 64 ≤ n * 10 + (byte.toNat - 48) then none
    else some (n * 10 + (byte.toNat - 48))) 0

/-- The first loop over the environment: the length it names and the size of the payload. -/
@[grind =] def scan (bodyLength : Nat) : List (String × List UInt8) → Option (List UInt8) → Nat →
    Except RequestError (Option (List UInt8) × Nat)
  | [], contentLength, size => .ok (contentLength, size)
  | (name, value) :: rest, contentLength, size =>
    if name = "SCGI" then
      if value ≠ [49] then .error .invalidEnvironment else scan bodyLength rest contentLength size
    else if name = "CONTENT_LENGTH" then
      if value = [] ∨ !value.all isDigit then .error .invalidEnvironment
      else match readLength value with
        | none => .error .bodyLength
        | some length =>
          if length ≠ bodyLength then .error .bodyLength
          else scan bodyLength rest (some value) (size + entrySize (name, value))
    else scan bodyLength rest contentLength (size + entrySize (name, value))

def headers (env : Environment) (bodyLength maxHeaders : Nat) : Except RequestError (List UInt8) := do
  let (contentLength, size) ← scan bodyLength env.values none 7
  match contentLength with
  | none => .error .invalidEnvironment
  | some contentLength =>
    if size > min maxHeaders Environment.maxBytes then .error .limit
    else
      return utf8 (toString size) ++ utf8 ":" ++ pair "CONTENT_LENGTH" contentLength ++ pair "SCGI" [49] ++
        (env.values.filter fun entry => entry.1 ≠ "CONTENT_LENGTH" && entry.1 ≠ "SCGI").flatMap
          (fun entry => pair entry.1 entry.2) ++ utf8 ","

/-! What a backend reads. -/

/-- The payload of a netstring with nothing behind it. -/
def readNetstring (wire : List UInt8) : Option (List UInt8) :=
  let digits := wire.takeWhile (· ≠ 58)
  let rest := (wire.dropWhile (· ≠ 58)).drop 1
  if digits = [] ∨ !digits.all isDigit then none
  else if rest.length = decimal digits + 1 ∧ rest.getLast? = some 44 then some (rest.take (decimal digits))
  else none

/-- Names and values between terminators. -/
@[grind =] def pairUp : List (List UInt8) → Option (List (List UInt8 × List UInt8))
  | [[]] => some []
  | name :: value :: rest => (pairUp rest).map ((name, value) :: ·)
  | _ => none

def readEntries (payload : List UInt8) : Option (List (List UInt8 × List UInt8)) := pairUp (payload.splitOn 0)

/-- The loop over the environment. -/
theorem scan_ok {bodyLength : Nat} {values : List (String × List UInt8)} {before after : Option (List UInt8)} {size total : Nat}
    (h : scan bodyLength values before size = .ok (after, total)) :
    total = size + ((values.filter fun entry => entry.1 ≠ "SCGI").map entrySize).sum ∧
    (∀ value, ("SCGI", value) ∈ values → value = [49]) ∧
    (∀ value, ("CONTENT_LENGTH", value) ∈ values → value ≠ [] ∧ value.all isDigit = true ∧ readLength value = some bodyLength) ∧
    (after = before ∨ ∃ value, after = some value ∧ ("CONTENT_LENGTH", value) ∈ values) := by
  induction values generalizing before size with
  | nil =>
    obtain ⟨rfl, rfl⟩ := Prod.mk.inj (Except.ok.inj h)
    exact ⟨rfl, nofun, nofun, .inl rfl⟩
  | cons entry values ih =>
    obtain ⟨name, value⟩ := entry
    rw [scan] at h
    split at h
    · rename_i hscgi
      split at h
      · cases h
      · rename_i hone
        obtain ⟨htotal, hs, hc, hafter⟩ := ih h
        refine ⟨?_, ?_, ?_, ?_⟩
        · rw [htotal, List.filter_cons_of_neg (by simpa using hscgi)]
        · intro value' hm
          rcases List.mem_cons.mp hm with he | hm
          · rw [(Prod.mk.inj he).2]
            exact not_not.mp hone
          · exact hs value' hm
        · intro value' hm
          rcases List.mem_cons.mp hm with he | hm
          · have hname := (Prod.mk.inj he).1
            rw [hscgi] at hname
            exact absurd hname (by decide)
          · exact hc value' hm
        · rcases hafter with rfl | ⟨v, rfl, hm⟩
          · exact .inl rfl
          · exact .inr ⟨v, rfl, List.mem_cons_of_mem _ hm⟩
    · rename_i hscgi
      have hsum : ∀ n, n + entrySize (name, value) + ((values.filter fun entry => entry.1 ≠ "SCGI").map entrySize).sum =
          n + ((((name, value) :: values).filter fun entry => entry.1 ≠ "SCGI").map entrySize).sum := by
        intro n
        rw [List.filter_cons_of_pos (by simpa using hscgi), List.map_cons, List.sum_cons, Nat.add_assoc]
      have hs' : ∀ (hs : ∀ value, ("SCGI", value) ∈ values → value = [49]) (value' : List UInt8),
          ("SCGI", value') ∈ (name, value) :: values → value' = [49] := by
        intro hs value' hm
        rcases List.mem_cons.mp hm with he | hm
        · exact absurd (Prod.mk.inj he).1.symm hscgi
        · exact hs value' hm
      split at h
      · rename_i hname
        split at h
        · cases h
        · rename_i hdigits
          rw [not_or, Bool.not_eq_true'] at hdigits
          cases hr : readLength value with
          | none =>
            rw [hr] at h
            cases h
          | some n =>
            rw [hr] at h
            dsimp only at h
            split at h
            · cases h
            · rename_i hn
              obtain ⟨htotal, hs, hc, hafter⟩ := ih h
              refine ⟨?_, hs' hs, ?_, ?_⟩
              · rw [htotal, hsum]
              · intro value' hm
                rcases List.mem_cons.mp hm with he | hm
                · rw [(Prod.mk.inj he).2]
                  exact ⟨hdigits.1, by simpa using hdigits.2, by rw [hr, not_not.mp hn]⟩
                · exact hc value' hm
              · rcases hafter with rfl | ⟨v, rfl, hm⟩
                · exact .inr ⟨value, rfl, hname ▸ List.mem_cons_self⟩
                · exact .inr ⟨v, rfl, List.mem_cons_of_mem _ hm⟩
      · rename_i hname
        obtain ⟨htotal, hs, hc, hafter⟩ := ih h
        refine ⟨?_, hs' hs, ?_, ?_⟩
        · rw [htotal, hsum]
        · intro value' hm
          rcases List.mem_cons.mp hm with he | hm
          · exact absurd (Prod.mk.inj he).1.symm hname
          · exact hc value' hm
        · rcases hafter with rfl | ⟨v, rfl, hm⟩
          · exact .inl rfl
          · exact .inr ⟨v, rfl, List.mem_cons_of_mem _ hm⟩

/-- A length as it is written is read back. -/
theorem decimal_toString (n : Nat) :
    utf8 (toString n) ≠ [] ∧ (utf8 (toString n)).all isDigit = true ∧ decimal (utf8 (toString n)) = n := by
  have hdigit : ∀ c ∈ Nat.toDigits 10 n, c.isDigit = true := fun c hc =>
    Nat.isDigit_of_mem_toDigits (by decide) (by decide) hc
  have hbytes : utf8 (toString n) = (Nat.toDigits 10 n).map fun c => UInt8.ofNat c.toNat := by
    rw [utf8_eq_flatMap, Nat.toString_eq_ofList_toDigits, String.toList_ofList]
    have hall : ∀ l : List Char, (∀ c ∈ l, c.isDigit = true) →
        l.flatMap String.utf8EncodeChar = l.map fun c => UInt8.ofNat c.toNat := by
      intro l hl
      induction l with
      | nil => rfl
      | cons c l ih =>
        have hc := hl c List.mem_cons_self
        have hlow : c.toNat < 128 := by
          simp only [Char.isDigit, Bool.and_eq_true, decide_eq_true_eq] at hc
          have hle := hc.2
          rw [UInt32.le_iff_toNat_le] at hle
          exact Nat.lt_of_le_of_lt hle (by decide)
        rw [List.flatMap_cons, Utf8.encode_ascii hlow, ih fun d hd => hl d (List.mem_cons_of_mem c hd)]
        rfl
    exact hall _ hdigit
  have hcode : ∀ c : Char, c.isDigit = true → (UInt8.ofNat c.toNat).toNat = c.toNat ∧ 48 ≤ c.toNat ∧ c.toNat ≤ 57 := by
    intro c hc
    simp only [Char.isDigit, Bool.and_eq_true, decide_eq_true_eq, ge_iff_le, UInt32.le_iff_toNat_le] at hc
    obtain ⟨hlow, hhigh⟩ := hc
    have hl : 48 ≤ c.toNat := hlow
    have hh : c.toNat ≤ 57 := hhigh
    rw [UInt8.toNat_ofNat']
    omega
  refine ⟨?_, ?_, ?_⟩
  · rw [hbytes]
    simp [Nat.toDigits_ne_nil]
  · rw [hbytes, List.all_map, List.all_eq_true]
    intro c hc
    obtain ⟨hb, hlow, hhigh⟩ := hcode c (hdigit c hc)
    simp only [Function.comp_apply, isDigit, Bool.and_eq_true, decide_eq_true_eq, UInt8.le_iff_toNat_le, hb]
    exact ⟨hlow, hhigh⟩
  · have hfold : ∀ (l : List Char) (m : Nat), (∀ c ∈ l, c.isDigit = true) →
        (l.map fun c => UInt8.ofNat c.toNat).foldl (fun n b => n * 10 + (b.toNat - 48)) m = Nat.ofDigitChars 10 l m := by
      intro l
      induction l with
      | nil => simp
      | cons c l ih =>
        intro m hl
        obtain ⟨hb, -, -⟩ := hcode c (hl c List.mem_cons_self)
        rw [List.map_cons, List.foldl_cons, hb, Nat.ofDigitChars_cons, ih _ fun d hd => hl d (List.mem_cons_of_mem c hd),
          Nat.mul_comm]
        rfl
    rw [hbytes, decimal, hfold _ _ hdigit, Nat.ofDigitChars_ten_toDigits]

theorem readNetstring_headers {payload : List UInt8} :
    readNetstring (utf8 (toString payload.length) ++ utf8 ":" ++ payload ++ utf8 ",") = some payload := by
  obtain ⟨hne, hall, hdecimal⟩ := decimal_toString payload.length
  have hcolon : utf8 ":" = [58] := by decide
  have hcomma : utf8 "," = [44] := by decide
  have hno : ∀ b ∈ utf8 (toString payload.length), (decide (b ≠ 58)) = true := by
    intro b hb
    have hd := List.all_eq_true.mp hall b hb
    apply decide_eq_true
    rintro rfl
    exact absurd hd (by decide)
  have hsplit : utf8 (toString payload.length) ++ utf8 ":" ++ payload ++ utf8 "," =
      utf8 (toString payload.length) ++ 58 :: (payload ++ [44]) := by
    rw [hcolon, hcomma]
    simp
  rw [readNetstring, hsplit]
  generalize utf8 (toString payload.length) = digits at *
  rw [List.takeWhile_append_of_pos hno, List.dropWhile_append_of_pos hno]
  have hdigits : ∀ b ∈ digits, isDigit b = true := List.all_eq_true.mp hall
  simpa [hne, hdecimal] using hdigits

/-- The name and value of an entry as bytes. -/
def written (entry : String × List UInt8) : List UInt8 × List UInt8 := (utf8 entry.1, entry.2)

theorem length_pair (entry : String × List UInt8) : (pair entry.1 entry.2).length = entrySize entry := by
  simp [pair, entrySize]
  omega

theorem length_pairs (entries : List (String × List UInt8)) :
    (entries.flatMap fun entry => pair entry.1 entry.2).length = (entries.map entrySize).sum := by
  induction entries with
  | nil => rfl
  | cons entry entries ih => rw [List.flatMap_cons, List.length_append, length_pair, ih, List.map_cons, List.sum_cons]

theorem readEntries_pairs {entries : List (String × List UInt8)} (h : ∀ entry ∈ entries, 0 ∉ utf8 entry.1 ∧ 0 ∉ entry.2) :
    readEntries (entries.flatMap fun entry => pair entry.1 entry.2) = some (entries.map written) := by
  induction entries with
  | nil => rfl
  | cons entry entries ih =>
    obtain ⟨hname, hvalue⟩ := h entry List.mem_cons_self
    have hread := ih fun e he => h e (List.mem_cons_of_mem entry he)
    rw [readEntries] at hread ⊢
    have hsplit : (entry :: entries).flatMap (fun entry => pair entry.1 entry.2) =
        utf8 entry.1 ++ 0 :: (entry.2 ++ 0 :: entries.flatMap fun entry => pair entry.1 entry.2) := by
      simp [pair]
    rw [hsplit, List.splitOn_append_cons_self_of_not_mem hname, List.splitOn_append_cons_self_of_not_mem hvalue, pairUp, hread]
    rfl

theorem validName_no_nul {name : String} (h : validName name = true) : 0 ∉ utf8 name := by
  simp only [validName, Bool.and_eq_true, List.all_eq_true] at h
  intro hm
  have hmem := (mem_utf8_iff (c := Char.ofNat 0) (by decide) name).mp hm
  exact absurd (h.1.2 _ hmem) (by decide)

/-- What a backend makes of the header of a request. -/
theorem headers_read {env : Environment} {bodyLength maxHeaders : Nat} {output : List UInt8}
    (h : headers env bodyLength maxHeaders = .ok output) :
    ∃ payload contentLength, output = utf8 (toString payload.length) ++ utf8 ":" ++ payload ++ utf8 "," ∧
      ("CONTENT_LENGTH", contentLength) ∈ env.values ∧ readLength contentLength = some bodyLength ∧
      readEntries payload = some (written ("CONTENT_LENGTH", contentLength) :: written ("SCGI", [49]) ::
        (env.values.filter fun entry => entry.1 ≠ "CONTENT_LENGTH" && entry.1 ≠ "SCGI").map written) ∧
      (∀ value, ("SCGI", value) ∈ env.values → value = [49]) := by
  rw [headers] at h
  cases hs : scan bodyLength env.values none 7 with
  | error e =>
    rw [hs] at h
    cases h
  | ok out =>
    obtain ⟨after, total⟩ := out
    obtain ⟨htotal, hscgi, hlengths, hafter⟩ := scan_ok hs
    rw [hs] at h
    simp only [bind, Except.bind] at h
    cases after with
    | none => cases h
    | some contentLength =>
      dsimp only at h
      split at h
      · cases h
      · have hmem : ("CONTENT_LENGTH", contentLength) ∈ env.values := by
          rcases hafter with hnone | ⟨value, he, hm⟩
          · cases hnone
          · rwa [Option.some.inj he]
        have hlist : ∀ entries : List (String × List UInt8), entries = ("CONTENT_LENGTH", contentLength) :: ("SCGI", [49]) ::
            (env.values.filter fun entry => entry.1 ≠ "CONTENT_LENGTH" && entry.1 ≠ "SCGI") →
            (entries.flatMap fun entry => pair entry.1 entry.2).length = total ∧
            ∀ entry ∈ entries, 0 ∉ utf8 entry.1 ∧ 0 ∉ entry.2 := by
          rintro entries rfl
          have hfiltered : Sorted (env.values.filter fun entry => entry.1 ≠ "SCGI") :=
            env.sorted.sublist List.filter_sublist
          have hmem' : ("CONTENT_LENGTH", contentLength) ∈ env.values.filter fun entry => entry.1 ≠ "SCGI" :=
            List.mem_filter.mpr ⟨hmem, decide_eq_true (show "CONTENT_LENGTH" ≠ "SCGI" by decide)⟩
          have hsum := ((hfiltered.perm_cons hmem').map entrySize).sum_eq
          rw [List.filter_filter, List.map_cons, List.sum_cons] at hsum
          constructor
          · have hsize : entrySize ("SCGI", [49]) = 7 := by decide
            rw [htotal, hsum, length_pairs, List.map_cons, List.map_cons, List.sum_cons, List.sum_cons, hsize]
            omega
          · intro entry he
            rcases List.mem_cons.mp he with rfl | he
            · exact ⟨(by decide : 0 ∉ utf8 "CONTENT_LENGTH"), (env.valid _ hmem).2⟩
            · rcases List.mem_cons.mp he with rfl | he
              · exact ⟨by decide, by simp⟩
              · obtain ⟨hname, hvalue⟩ := env.valid entry (List.mem_filter.mp he).1
                exact ⟨validName_no_nul hname, hvalue⟩
        obtain ⟨hlen, hclean⟩ := hlist _ rfl
        refine ⟨_, contentLength, ?_, hmem, (hlengths _ hmem).2.2, readEntries_pairs hclean, hscgi⟩
        rw [hlen, ← Except.ok.inj h]
        simp

theorem written_names {entries : List (String × List UInt8)} (h : (entries.map Prod.fst).Nodup) :
    ((entries.map written).map Prod.fst).Nodup := by
  have hnames : (entries.map written).map Prod.fst = (entries.map Prod.fst).map utf8 := by
    rw [List.map_map, List.map_map]
    rfl
  rw [hnames]
  exact h.map fun _ _ => Hasher.utf8_injective

end Scgi

/-- What a transport sends in front of a request body is what the environment holds. -/
structure Lossless (env : Environment) : Prop where
  params : ∃ wire, ∃ bodies : List (List UInt8), Fastcgi.params env = .ok wire ∧
    Fastcgi.Decoded wire (bodies.map (fun body => ⟨Fastcgi.paramsKind, Fastcgi.requestId, body⟩) ++
      [⟨Fastcgi.paramsKind, Fastcgi.requestId, []⟩]) ∧
    (∀ body ∈ bodies, body ≠ [] ∧ body.length ≤ 65535) ∧
    Fastcgi.readPairs bodies.flatten.length bodies.flatten = some (env.values.map fun entry => (utf8 entry.1, entry.2))
  records : ∀ kind body wire, Fastcgi.record kind body = .ok wire →
    (∀ rest, Fastcgi.decode (wire ++ rest) = .ok (some (⟨kind, Fastcgi.requestId, body⟩, wire.length))) ∧
    ∀ part, part <+: wire → part ≠ wire → Fastcgi.decode part = .ok none
  headers : ∀ bodyLength maxHeaders output, Scgi.headers env bodyLength maxHeaders = .ok output →
    ∃ payload contentLength entries, output = utf8 (toString payload.length) ++ utf8 ":" ++ payload ++ utf8 "," ∧
      Scgi.readNetstring output = some payload ∧ Scgi.readEntries payload = some entries ∧
      entries.head? = some (utf8 "CONTENT_LENGTH", contentLength) ∧ Scgi.readLength contentLength = some bodyLength ∧
      (entries.map Prod.fst).Nodup ∧ ∀ entry, entry ∈ entries ↔ entry = (utf8 "SCGI", [49]) ∨
        ∃ e ∈ env.values, e.1 ≠ "SCGI" ∧ entry = (utf8 e.1, e.2)

theorem request_lossless (env : Environment) : Lossless env where
  params := Fastcgi.params_decoded env
  records _ _ _ h := ⟨Fastcgi.decode_record h, fun _ => Fastcgi.decode_partial h⟩
  headers bodyLength maxHeaders output h := by
    obtain ⟨payload, contentLength, rfl, hmem, hread, hentries, -⟩ := Scgi.headers_read h
    refine ⟨payload, contentLength, _, rfl, Scgi.readNetstring_headers, hentries, rfl, hread, ?_, ?_⟩
    · have hothers : ((env.values.filter fun entry => entry.1 ≠ "CONTENT_LENGTH" && entry.1 ≠ "SCGI").map Prod.fst).Nodup :=
        env.sorted.keys_nodup.sublist (List.filter_sublist.map _)
      have hnames : ((("CONTENT_LENGTH", contentLength) :: ("SCGI", [49]) ::
          env.values.filter fun entry => entry.1 ≠ "CONTENT_LENGTH" && entry.1 ≠ "SCGI").map Prod.fst).Nodup := by
        rw [List.map_cons, List.map_cons]
        refine List.nodup_cons.mpr ⟨?_, List.nodup_cons.mpr ⟨?_, hothers⟩⟩
        · simp
        · simp
      exact Scgi.written_names hnames
    · intro entry
      have hother : entry ∈ (env.values.filter fun entry => entry.1 ≠ "CONTENT_LENGTH" && entry.1 ≠ "SCGI").map Scgi.written ↔
          ∃ e ∈ env.values, (e.1 ≠ "CONTENT_LENGTH" ∧ e.1 ≠ "SCGI") ∧ entry = (utf8 e.1, e.2) := by
        rw [List.mem_map]
        constructor
        · rintro ⟨e, he, rfl⟩
          obtain ⟨he, hne⟩ := List.mem_filter.mp he
          exact ⟨e, he, by simpa using hne, rfl⟩
        · rintro ⟨e, he, hne, rfl⟩
          exact ⟨e, List.mem_filter.mpr ⟨he, by simpa using hne⟩, rfl⟩
      rw [List.mem_cons, List.mem_cons, hother]
      constructor
      · rintro (rfl | rfl | ⟨e, he, ⟨-, hs⟩, rfl⟩)
        · exact .inr ⟨_, hmem, by simp, rfl⟩
        · exact .inl rfl
        · exact .inr ⟨e, he, hs, rfl⟩
      · rintro (rfl | ⟨e, he, hs, rfl⟩)
        · exact .inr (.inl rfl)
        · by_cases hc : e.1 = "CONTENT_LENGTH"
          · left
            rw [env.sorted.unique he hmem hc]
            rfl
          · exact .inr (.inr ⟨e, he, ⟨hc, hs⟩, rfl⟩)

end Gatel.Cgi
