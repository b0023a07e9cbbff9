import Gatel.Lib.Base64
import Gatel.Model.HashExact
import Gatel.Plan.Directive
import Gatel.Plan.Texts
import Gatel.Proxy.Outbound

namespace Gatel.BasicAuth

structure User where
  name : String
  hash : SecretRef
  deriving DecidableEq

/-- Users, no two of one name. -/
abbrev Users := {users : List User // (users.map User.name).Nodup}

structure Config where
  realm : String
  users : Users

/-- The prefixes bcrypt puts on its output. -/
def looksLikeBcrypt (value : String) : Bool :=
  let value := Text.trim value
  59 ≤ value.utf8ByteSize && ["$2a$", "$2b$", "$2y$"].any fun lead => lead.toList.isPrefixOf value.toList

def Users.add (users : Users) (user : User) (h : user.name ∉ users.val.map User.name) : Users :=
  ⟨users.val ++ [user], by
    rw [List.map_append, List.nodup_append]
    refine ⟨users.property, List.nodup_singleton _, ?_⟩
    rintro a ha b hb rfl
    exact h (List.mem_singleton.mp hb ▸ ha)⟩

/-- One child node: the users with it, or what is wrong with it. -/
def decodeUser (users : Users) (child : Node) : Except Diagnostic Users :=
  if child.name ≠ "user" then
    let diagnostic := Diagnostic.error .unknownNode child.origin ("`basic-auth` has no child node `" ++ child.name ++ "`")
    match didYouMean child.name ["user"] with
    | some suggestion => .error (diagnostic.withHelp ("did you mean `" ++ suggestion ++ "`?"))
    | none => .error diagnostic
  else match child.args.head?.bind Value.asStr with
    | none => .error (.error .argumentCount child.origin "`user` needs a name")
    | some name =>
      if name = "" || 256 < name.utf8ByteSize || [':', '\r', '\n', '\x00'].any name.toList.contains then
        .error (.error .invalidValue child.origin "user name must be 1..256 bytes without colon, CR, LF or NUL")
      else match (child.prop "hash").bind fun property => property.value.asStr with
        | none => .error ((Diagnostic.error .missingField child.origin ("user `" ++ name ++ "` needs a `hash`")).withHelp
            "`hash=\"env:NAME\"` or `hash=\"file:secrets/name.hash\"`")
        | some raw => match SecretRef.parse raw with
          | .error message => .error (.error .invalidSecret child.origin message)
          | .ok hash =>
            if raw.toList.head? = some '$' || looksLikeBcrypt raw then
              .error ((Diagnostic.error .invalidSecret child.origin
                ("user `" ++ name ++ "` has a hash written into the configuration")).withHelp
                  "put it in a file or an environment variable and reference it")
            else if h : name ∈ users.val.map User.name then
              .error (.error .duplicate child.origin ("user `" ++ name ++ "` is declared twice"))
            else .ok (users.add ⟨name, hash⟩ h)

def decodeUsers (children : List Node) : Report Users :=
  children.foldl (fun acc child => match decodeUser acc.value child with
    | .ok users => ⟨users, acc.diagnostics⟩
    | .error diagnostic => ⟨acc.value, acc.diagnostics ++ [diagnostic]⟩) ⟨⟨[], List.nodup_nil⟩, []⟩

def decodeRealm (node : Node) : Decode String :=
  match node.prop "realm" with
  | some property => match property.value.asStr with
    | some realm =>
      if '"' ∈ realm.toList then .fail (.error .invalidValue property.origin "a realm may not contain a quote") else .ok realm
    | none => .fail (.error .invalidValue property.origin "`realm` is a string")
  | none => .ok "restricted"

def decode (node : Node) : Decode Config :=
  if 1024 < node.children.length then .fail (.error .invalidValue node.origin "basic-auth permits at most 1024 users")
  else do
    let realm ← decodeRealm node
    let unknown := (node.props.filter fun property => property.name ≠ "realm").map fun property =>
      Diagnostic.error .unknownProperty property.origin ("`basic-auth` has no property `" ++ property.name ++ "`")
    let users := decodeUsers node.children
    let reported := unknown ++ users.diagnostics
    let missing := if users.value.val = [] && !Diagnostics.hasErrors reported then
        [(Diagnostic.error .missingField node.origin "`basic-auth` needs at least one `user`").withHelp
          "with no users it would refuse everyone, which `respond status=403` says better"]
      else []
    Decode.strict ⟨some ⟨realm, users.value⟩, reported ++ missing⟩

/-- The users with their credentials. -/
structure BasicAuthHandler (Credential : Type) where
  users : List (String × Credential)
  distinct : (users.map Prod.fst).Nodup
  challenge : List UInt8

/-- Each user with the credential its hash names. -/
def credentialsOf {Credential : Type} (secret : SecretRef → Except String String) (parse : String → Except String Credential) :
    (users : List User) → Except String {l : List (String × Credential) // l.map Prod.fst = users.map User.name}
  | [] => .ok ⟨[], rfl⟩
  | user :: users => do
    let hash ← (secret user.hash).mapError fun error => "user `" ++ user.name ++ "`: " ++ error
    let credential ← (parse hash).mapError fun error => "user `" ++ user.name ++ "`: " ++ error
    let rest ← credentialsOf secret parse users
    .ok ⟨(user.name, credential) :: rest.val, by simp [rest.property]⟩

def Config.build {Credential : Type} (c : Config) (secret : SecretRef → Except String String)
    (parse : String → Except String Credential) : Except String (BasicAuthHandler Credential) := do
  let users ← credentialsOf secret parse c.users.val
  match HeaderValue.fromStr ("Basic realm=\"" ++ c.realm ++ "\", charset=\"UTF-8\"") with
  | some challenge => .ok ⟨users.val, by rw [users.property]; exact c.users.property, challenge⟩
  | none => .error ("`" ++ c.realm ++ "` cannot appear in a realm")

/-! Credentials. -/

def table : List UInt8 :=
  "ABCDEFGHIJKLMNOPQRSTUVWXYZabcdefghijklmnopqrstuvwxyz0123456789+/".toList.map fun c => UInt8.ofNat c.toNat

structure Decoding where
  accumulator : UInt32
  bits : Nat
  out : List UInt8

/-- One letter; the accumulator is never masked. -/
def Decoding.push (d : Decoding) (byte : UInt8) : Option Decoding := do
  let value ← table.idxOf? byte
  let accumulator := (d.accumulator <<< 6) ||| UInt32.ofNat value
  let bits := d.bits + 6
  if 8 ≤ bits then
    some ⟨accumulator, bits - 8, d.out ++ [(accumulator >>> UInt32.ofNat (bits - 8)).toUInt8]⟩
  else some ⟨accumulator, bits, d.out⟩

/-- Decode canonical padded standard base64, rejecting data after padding. -/
def base64Decode (input : String) : Option (List UInt8) :=
  let bytes := utf8 input
  if input = "" || bytes.length % 4 ≠ 0 then none
  else
    let unpadded := bytes.rdropWhile (· == 0x3d)
    let padding := bytes.length - unpadded.length
    if padding > 2 then none
    else do
      let d ← unpadded.foldlM Decoding.push ⟨0, 0, []⟩
      if d.bits ≠ padding * 2 || d.accumulator &&& ((1 <<< UInt32.ofNat d.bits) - 1) ≠ 0 then none else some d.out

/-! The accumulator wraps, but only its last bits are ever read. -/

def alphabet : Base64 where
  letters := table
  pad := 0x3d
  count := by decide +kernel
  distinct := by decide +kernel
  apart := by decide +kernel

def shift (accumulator : UInt32) (value : Nat) : UInt32 := (accumulator <<< 6) ||| UInt32.ofNat value

theorem shift_toNat (accumulator : UInt32) {value : Nat} (h : value < 64) :
    (shift accumulator value).toNat = (accumulator.toNat * 64 + value) % 4294967296 := by
  have hvalue : value % 4294967296 = value := Nat.mod_eq_of_lt (by omega)
  have hor : accumulator.toNat <<< 6 % 4294967296 ||| value = (accumulator.toNat * 64 + value) % 4294967296 := by
    have hadd := Nat.shiftLeft_add_eq_or_of_lt (i := 6) h (accumulator.toNat % 67108864)
    have hwrap : accumulator.toNat <<< 6 % 4294967296 = (accumulator.toNat % 67108864) <<< 6 := by
      simp only [Nat.shiftLeft_eq]
      omega
    rw [hwrap, ← hadd, Nat.shiftLeft_eq]
    omega
  simp [shift, hvalue, hor]

theorem push_letter (d : Decoding) {value : Nat} (h : value < 64) : d.push (alphabet.letter value) =
    if 8 ≤ d.bits + 6 then
      some ⟨shift d.accumulator value, d.bits + 6 - 8,
        d.out ++ [(shift d.accumulator value >>> UInt32.ofNat (d.bits + 6 - 8)).toUInt8]⟩
    else some ⟨shift d.accumulator value, d.bits + 6, d.out⟩ := by
  have hidx : table.idxOf? (alphabet.letter value) = some value := alphabet.idxOf_iff.mpr ⟨h, rfl⟩
  simp [Decoding.push, hidx, shift]

theorem push_isSome {d d' : Decoding} {x : UInt8} (h : d.push x = some d') : ∃ v < 64, alphabet.letter v = x := by
  simp only [Decoding.push, Option.bind_eq_bind, Option.bind_eq_some_iff] at h
  obtain ⟨v, hv, _⟩ := h
  exact ⟨v, (alphabet.idxOf_iff.mp hv).1, (alphabet.idxOf_iff.mp hv).2⟩

theorem byte_toNat (accumulator : UInt32) (k : Nat) (h : k < 32) :
    ((accumulator >>> UInt32.ofNat k).toUInt8).toNat = accumulator.toNat / 2 ^ k % 256 := by
  have hk : k % 4294967296 = k := Nat.mod_eq_of_lt (by omega)
  have hk' : k % 32 = k := Nat.mod_eq_of_lt h
  simp [hk, hk', Nat.shiftRight_eq_div_pow]

theorem push_zero (a : UInt32) (out : List UInt8) {v : Nat} (h : v < 64) :
    Decoding.push ⟨a, 0, out⟩ (alphabet.letter v) = some ⟨shift a v, 6, out⟩ := by
  simp [push_letter, h]

theorem push_six (a : UInt32) (out : List UInt8) {v w : Nat} (hv : v < 64) (hw : w < 64) :
    Decoding.push ⟨shift a v, 6, out⟩ (alphabet.letter w) = some ⟨shift (shift a v) w, 4, out ++ [Base64.first v w]⟩ := by
  have h1 := shift_toNat a hv
  have h2 := shift_toNat (shift a v) hw
  have hbyte : (shift (shift a v) w >>> UInt32.ofNat 4).toUInt8 = Base64.first v w := by
    apply UInt8.toNat_inj.mp
    rw [byte_toNat _ 4 (by decide), Base64.first_toNat hv hw]
    omega
  simp only [push_letter _ hw, Nat.reduceAdd, Nat.reduceLeDiff, ↓reduceIte, Nat.reduceSub, hbyte]

theorem push_four (a : UInt32) (out : List UInt8) {w x : Nat} (hw : w < 64) (hx : x < 64) :
    Decoding.push ⟨shift a w, 4, out⟩ (alphabet.letter x) = some ⟨shift (shift a w) x, 2, out ++ [Base64.second w x]⟩ := by
  have h1 := shift_toNat a hw
  have h2 := shift_toNat (shift a w) hx
  have hbyte : (shift (shift a w) x >>> UInt32.ofNat 2).toUInt8 = Base64.second w x := by
    apply UInt8.toNat_inj.mp
    rw [byte_toNat _ 2 (by decide), Base64.second_toNat hx]
    omega
  simp only [push_letter _ hx, Nat.reduceAdd, Nat.reduceLeDiff, ↓reduceIte, Nat.reduceSub, hbyte]

theorem push_two (a : UInt32) (out : List UInt8) {x y : Nat} (hx : x < 64) (hy : y < 64) :
    Decoding.push ⟨shift a x, 2, out⟩ (alphabet.letter y) = some ⟨shift (shift a x) y, 0, out ++ [Base64.third x y]⟩ := by
  have h1 := shift_toNat a hx
  have h2 := shift_toNat (shift a x) hy
  have hbyte : (shift (shift a x) y >>> UInt32.ofNat 0).toUInt8 = Base64.third x y := by
    apply UInt8.toNat_inj.mp
    rw [byte_toNat _ 0 (by decide), Base64.third_toNat hy]
    omega
  simp only [push_letter _ hy, Nat.reduceAdd, Nat.le_refl, ↓reduceIte, Nat.reduceSub, hbyte]

/-- From no bits at all, values give their whole bytes and keep the bits behind them. -/
theorem fold_values (vs : List Nat) (hlt : ∀ v ∈ vs, v < 64) (accumulator : UInt32) (out : List UInt8) :
    ∃ a : UInt32, (vs.map alphabet.letter).foldlM Decoding.push ⟨accumulator, 0, out⟩ =
      some ⟨a, vs.length * 6 % 8, out ++ Base64.bytes vs⟩ ∧ a.toNat % 2 ^ (vs.length * 6 % 8) = Base64.left vs := by
  induction vs using Base64.bytes.induct generalizing accumulator out with
  | case1 v w x y rest ih =>
    simp only [List.mem_cons, forall_eq_or_imp] at hlt
    obtain ⟨hv, hw, hx, hy, hrest⟩ := hlt
    obtain ⟨a, hfold, hleft⟩ := ih hrest (shift (shift (shift (shift accumulator v) w) x) y)
      (out ++ [Base64.first v w, Base64.second w x, Base64.third x y])
    have hbits : (v :: w :: x :: y :: rest).length * 6 % 8 = rest.length * 6 % 8 := by
      simp only [List.length_cons]
      omega
    refine ⟨a, ?_, hbits ▸ hleft⟩
    rw [hbits, Base64.bytes, List.map_cons, List.map_cons, List.map_cons, List.map_cons, List.foldlM_cons, push_zero _ _ hv]
    simp only [Option.bind_eq_bind, Option.bind_some, List.foldlM_cons, push_six, push_four, push_two, hv, hw, hx, hy, hfold,
      List.append_assoc, List.cons_append, List.nil_append]
  | case2 v w x =>
    simp only [List.mem_cons, List.not_mem_nil, or_false, forall_eq_or_imp, forall_eq] at hlt
    obtain ⟨hv, hw, hx⟩ := hlt
    have hx' := shift_toNat (shift (shift accumulator v) w) hx
    refine ⟨shift (shift (shift accumulator v) w) x, ?_, ?_⟩
    · simp [push_zero, push_six, push_four, hv, hw, hx, Base64.bytes]
    · simp only [List.length_cons, List.length_nil, Base64.left, Nat.reduceAdd, Nat.reduceMul, Nat.reduceMod, Nat.reducePow]
      omega
  | case3 v w =>
    simp only [List.mem_cons, List.not_mem_nil, or_false, forall_eq_or_imp, forall_eq] at hlt
    obtain ⟨hv, hw⟩ := hlt
    have hw' := shift_toNat (shift accumulator v) hw
    refine ⟨shift (shift accumulator v) w, ?_, ?_⟩
    · simp [push_zero, push_six, hv, hw, Base64.bytes]
    · simp only [List.length_cons, List.length_nil, Base64.left, Nat.reduceAdd, Nat.reduceMul, Nat.reduceMod, Nat.reducePow]
      omega
  | case4 vs h4 h3 h2 =>
    rcases vs with _ | ⟨v, _ | ⟨w, _ | ⟨x, _ | ⟨y, rest⟩⟩⟩⟩
    · exact ⟨accumulator, by simp [Base64.bytes], by simp [Base64.left, Nat.mod_one]⟩
    · have hv : v < 64 := hlt v (List.mem_singleton_self v)
      have hv' := shift_toNat accumulator hv
      refine ⟨shift accumulator v, by simp [push_zero, hv, Base64.bytes], ?_⟩
      simp only [List.length_cons, List.length_nil, Base64.left, Nat.reduceAdd, Nat.reduceMul, Nat.reduceMod, Nat.reducePow]
      omega
    · exact absurd rfl (h2 v w)
    · exact absurd rfl (h3 v w x)
    · exact absurd rfl (h4 v w x y rest)

theorem letters_of_fold {l : List UInt8} {d d' : Decoding} (h : l.foldlM Decoding.push d = some d') :
    ∃ vs : List Nat, (∀ v ∈ vs, v < 64) ∧ vs.map alphabet.letter = l := by
  induction l generalizing d with
  | nil => exact ⟨[], by simp, rfl⟩
  | cons x l ih =>
    rw [List.foldlM_cons, Option.bind_eq_bind, Option.bind_eq_some_iff] at h
    obtain ⟨d₁, hx, hl⟩ := h
    obtain ⟨v, hv, hletter⟩ := push_isSome hx
    obtain ⟨vs, hvs, hmap⟩ := ih hl
    exact ⟨v :: vs, List.forall_mem_cons.mpr ⟨hv, hvs⟩, by rw [List.map_cons, hletter, hmap]⟩

/-- The mask keeps the bits that are left. -/
theorem masked_iff (accumulator : UInt32) {bits : Nat} (h : bits < 32) :
    accumulator &&& ((1 <<< UInt32.ofNat bits) - 1) = 0 ↔ accumulator.toNat % 2 ^ bits = 0 := by
  have hbits : bits % 4294967296 = bits := Nat.mod_eq_of_lt (by omega)
  have hbits' : bits % 32 = bits := Nat.mod_eq_of_lt h
  have hpow : 2 ^ bits < 2 ^ 32 := Nat.pow_lt_pow_right (by decide) h
  have hpos : 0 < 2 ^ bits := Nat.two_pow_pos bits
  have hone : (1 <<< UInt32.ofNat bits).toNat = 2 ^ bits := by
    simpa [hbits, hbits', Nat.shiftLeft_eq] using hpow
  have hmask : ((1 <<< UInt32.ofNat bits) - 1 : UInt32).toNat = 2 ^ bits - 1 := by
    rw [UInt32.toNat_sub_of_le _ _ (UInt32.le_iff_toNat_le.mpr (by rw [hone]; exact hpos)), hone]
    rfl
  rw [← UInt32.toNat_inj, UInt32.toNat_and, hmask, Nat.and_two_pow_sub_one_eq_mod]
  rfl

theorem trim_pads (vs : List Nat) (hlt : ∀ v ∈ vs, v < 64) (n : Nat) :
    (vs.map alphabet.letter ++ List.replicate n alphabet.pad).rdropWhile (· == 0x3d) = vs.map alphabet.letter := by
  induction n with
  | zero =>
    rw [List.replicate_zero, List.append_nil, List.rdropWhile_eq_self_iff]
    intro hne hpad
    obtain ⟨v, hv, hlast⟩ := List.mem_map.mp (List.getLast_mem hne)
    exact alphabet.letter_ne_pad (hlt v hv) (hlast.trans (beq_iff_eq.mp hpad))
  | succ n ih =>
    rw [List.replicate_succ', ← List.append_assoc, List.rdropWhile_concat_pos _ _ _ (by rfl), ih]

/-- Letters and pads decode when the pads count the bits that are left and these are zero. -/
theorem base64Decode_letters {s : String} {vs : List Nat} {n : Nat} (hlt : ∀ v ∈ vs, v < 64)
    (hs : utf8 s = vs.map alphabet.letter ++ List.replicate n alphabet.pad) : base64Decode s =
      if s ≠ "" ∧ (vs.length + n) % 4 = 0 ∧ n ≤ 2 ∧ vs.length * 6 % 8 = n * 2 ∧ Base64.left vs = 0 then
        some (Base64.bytes vs)
      else none := by
  obtain ⟨a, hfold, hleft⟩ := fold_values vs hlt 0 []
  have hpadding : vs.length + n - (vs.map alphabet.letter).length = n := by simp
  have hlength : (utf8 s).length = vs.length + n := by simp [hs]
  have hmask : a &&& ((1 <<< UInt32.ofNat (vs.length * 6 % 8)) - 1) = 0 ↔ Base64.left vs = 0 := by
    rw [masked_iff a (by omega), hleft]
  simp only [base64Decode, hlength]
  rw [hs, trim_pads vs hlt n, hpadding, hfold]
  by_cases hempty : s = ""
  · simp [hempty]
  by_cases hfour : (vs.length + n) % 4 = 0
  · by_cases htwo : n ≤ 2
    · by_cases hbits : vs.length * 6 % 8 = n * 2
      · rw [hbits] at hmask
        simp [hempty, hfour, htwo, hbits, hmask, -UInt32.ofNat_mul]
      · simp [hempty, hfour, htwo, hbits]
    · simp [hempty, hfour, htwo]
  · simp [hempty, hfour]

theorem base64Decode_iff (s : String) (b : List UInt8) :
    base64Decode s = some b ↔ s ≠ "" ∧ utf8 s = alphabet.encode b := by
  constructor
  · intro h
    have hletters : ∃ vs : List Nat, ∃ n, (∀ v ∈ vs, v < 64) ∧
        utf8 s = vs.map alphabet.letter ++ List.replicate n alphabet.pad := by
      have hkept := h
      simp only [base64Decode] at hkept
      split at hkept
      · exact absurd hkept nofun
      split at hkept
      · exact absurd hkept nofun
      rw [Option.bind_eq_bind, Option.bind_eq_some_iff] at hkept
      obtain ⟨d, hfold, _⟩ := hkept
      obtain ⟨vs, hlt, hmap⟩ := letters_of_fold hfold
      refine ⟨vs, ((utf8 s).rtakeWhile (· == 0x3d)).length, hlt, ?_⟩
      have htail : (utf8 s).rtakeWhile (· == 0x3d) =
          List.replicate ((utf8 s).rtakeWhile (· == 0x3d)).length alphabet.pad := by
        apply List.eq_replicate_length.mpr
        intro x hx
        have hpad := List.mem_rtakeWhile_imp hx
        exact beq_iff_eq.mp hpad
      rw [hmap, ← htail, List.rdropWhile_append_rtakeWhile]
    obtain ⟨vs, n, hlt, hs⟩ := hletters
    rw [base64Decode_letters hlt hs] at h
    split at h
    · rename_i hcanonical
      obtain ⟨hne, hfour, hn, hbits, hleft⟩ := hcanonical
      obtain rfl := Option.some.inj h
      have hvalues := Base64.values_bytes vs hlt hleft (by omega)
      have hlength := (Base64.values_length (Base64.bytes vs)).1
      rw [hvalues] at hlength
      exact ⟨hne, hs.trans ((alphabet.encode_iff hlt).mpr ⟨hvalues, by omega⟩)⟩
    · exact absurd h nofun
  · rintro ⟨hne, he⟩
    obtain ⟨hbits, hfour⟩ := Base64.values_length b
    obtain ⟨hbytes, hleft⟩ := Base64.bytes_values b
    rw [base64Decode_letters (Base64.values_lt b) he, if_pos ⟨hne, hfour, Base64.pads_le b, hbits, hleft⟩, hbytes]

/-- The user name and password of an `Authorization: Basic` header. -/
def credentials (headers : HeaderMap) : Option (String × String) :=
  match headers.getAll "authorization" with
  | [value] => do
    let header ← HeaderValue.toStr value
    let (scheme, encoded) ← Text.splitOnce ' ' header
    if Text.lower scheme ≠ "basic" then none
    else if encoded.utf8ByteSize > 1024 then none
    else
      let decoded ← base64Decode (Text.trim encoded)
      let text ← String.fromUTF8? ⟨decoded.toArray⟩
      let (name, password) ← Text.splitOnce ':' text
      if name = "" || name.utf8ByteSize > 256 || password.utf8ByteSize > 256 ||
          ['\r', '\n', '\x00'].any text.toList.contains then none
      else some (name, password)
  | _ => none

/-- Comparison whose duration does not depend on where two values first differ. -/
def constantTimeEq (a b : List UInt8) : Bool :=
  if a.length ≠ b.length then false
  else (a.zip b).foldl (fun difference pair => difference ||| (pair.1 ^^^ pair.2)) 0 == 0

namespace BasicAuthHandler
variable {Credential ε : Type}

/-- Whether the request is let in. `run` is what the executor makes of a job of so much memory. -/
def authenticate (s : BasicAuthHandler Credential) (verify : Credential → List UInt8 → Bool) (memoryBytes : Credential → Nat)
    (run : Nat → Except ε Unit) (headers : HeaderMap) : Except ε Bool :=
  match credentials headers with
  | none => .ok false
  | some (name, password) =>
    let selected := s.users.findIdx? fun user => constantTimeEq (utf8 user.1) (utf8 name)
    let index := selected.getD 0
    match s.users[index]? with
    | none => .ok false
    | some (_, credential) =>
      match run (memoryBytes credential) with
      | .error error => .error error
      | .ok () =>
        -- An unknown user still pays for one verification.
        let verified := verify credential (utf8 password)
        .ok (selected.isSome && verified)

end BasicAuthHandler

theorem fold_difference (a b : List UInt8) (h : a.length = b.length) (seen : UInt8) :
    (a.zip b).foldl (fun difference pair => difference ||| (pair.1 ^^^ pair.2)) seen = 0 ↔ seen = 0 ∧ a = b := by
  induction a generalizing b seen with
  | nil => simp [List.length_eq_zero_iff.mp h.symm]
  | cons x a ih =>
    cases b with
    | nil => simp at h
    | cons y b => simp [ih b (Nat.succ.inj h), and_assoc]

theorem constantTimeEq_iff {a b : List UInt8} : constantTimeEq a b = true ↔ a = b := by
  unfold constantTimeEq
  by_cases hlen : a.length = b.length
  · simp [hlen, fold_difference a b hlen]
  · simp only [ne_eq, hlen, not_false_eq_true, ↓reduceIte, Bool.false_eq_true, false_iff]
    exact fun he => hlen (congrArg List.length he)

/-- The one `Authorization` field is basic and says this name and password. -/
def Presented (headers : HeaderMap) (name password : String) : Prop :=
  ∃ value header scheme encoded, headers.getAll "authorization" = [value] ∧ HeaderValue.toStr value = some header ∧
    (' ' ∉ scheme.toList ∧ header.toList = scheme.toList ++ ' ' :: encoded.toList) ∧ Text.lower scheme = "basic" ∧
    encoded.utf8ByteSize ≤ 1024 ∧ utf8 (Text.trim encoded) = alphabet.encode (utf8 (name ++ ":" ++ password)) ∧
    ':' ∉ name.toList ∧ name ≠ "" ∧ name.utf8ByteSize ≤ 256 ∧ password.utf8ByteSize ≤ 256 ∧
    ∀ c ∈ ['\r', '\n', '\x00'], c ∉ name.toList ∧ c ∉ password.toList

theorem joined_iff {text name password : String} : text.toList = name.toList ++ ':' :: password.toList ↔
    text = name ++ ":" ++ password := by
  rw [← String.toList_inj]
  simp

theorem credentials_iff (headers : HeaderMap) (name password : String) :
    credentials headers = some (name, password) ↔ Presented headers name password := by
  constructor
  · intro h
    unfold credentials at h
    rcases hfields : headers.getAll "authorization" with _ | ⟨value, _ | ⟨second, rest⟩⟩
    · simp [hfields] at h
    · simp only [hfields, Option.bind_eq_bind, Option.bind_eq_some_iff] at h
      obtain ⟨header, hheader, ⟨scheme, encoded⟩, hsplit, h⟩ := h
      simp only at h
      split at h
      · exact absurd h nofun
      rename_i hscheme
      split at h
      · exact absurd h nofun
      rename_i hsize
      simp only [Option.bind_eq_some_iff] at h
      obtain ⟨decoded, hdecoded, text, htext, ⟨n, w⟩, hcolon, h⟩ := h
      simp only at h
      split at h
      · exact absurd h nofun
      rename_i hlimits
      cases h
      obtain ⟨hname, hjoined⟩ := Text.splitOnce_iff.mp hcolon
      obtain rfl := joined_iff.1 hjoined
      have hencoded := ((base64Decode_iff _ _).mp hdecoded).2
      rw [← fromUTF8?_eq_some.mp htext] at hencoded
      simp only [Bool.or_eq_true, decide_eq_true_eq, not_or] at hlimits
      obtain ⟨⟨⟨hne, hshort⟩, hshort'⟩, hplain⟩ := hlimits
      refine ⟨value, header, scheme, encoded, hfields, hheader, Text.splitOnce_iff.mp hsplit, by simpa using hscheme, by omega,
        hencoded, hname, hne, by omega, by omega, ?_⟩
      intro c hc
      have hout : c ∉ (name ++ ":" ++ password).toList := by
        intro hin
        exact hplain (List.any_eq_true.mpr ⟨c, hc, List.contains_iff_mem.mpr hin⟩)
      rw [joined_iff.2 rfl] at hout
      simp only [List.mem_append, List.mem_cons, not_or] at hout
      exact ⟨hout.1, hout.2.2⟩
    · simp [hfields] at h
  · rintro ⟨value, header, scheme, encoded, hfields, hheader, hsplit, hscheme, hsize, hencoded, hname, hne, hshort, hshort', hplain⟩
    have htext : String.fromUTF8? ⟨(utf8 (name ++ ":" ++ password)).toArray⟩ = some (name ++ ":" ++ password) :=
      fromUTF8?_eq_some.mpr rfl
    have hcolon : Text.splitOnce ':' (name ++ ":" ++ password) = some (name, password) :=
      Text.splitOnce_iff.mpr ⟨hname, joined_iff.2 rfl⟩
    have hdecoded : base64Decode (Text.trim encoded) = some (utf8 (name ++ ":" ++ password)) := by
      refine (base64Decode_iff _ _).mpr ⟨?_, hencoded⟩
      intro hempty
      rw [hempty] at hencoded
      have hnone := alphabet.encode_eq_nil.mp (hencoded.symm.trans (rfl : utf8 "" = []))
      have htext : name ++ ":" ++ password = "" := Hasher.utf8_injective hnone
      exact hne (by simpa using congrArg String.toList htext)
    have hclean : ¬ ['\r', '\n', '\x00'].any (name ++ ":" ++ password).toList.contains := by
      rw [List.any_eq_true, joined_iff.2 rfl]
      rintro ⟨c, hc, hin⟩
      obtain ⟨hout, hout'⟩ := hplain c hc
      have hcolon : c ≠ ':' := by
        rintro rfl
        simp at hc
      simp [hout, hout', hcolon] at hin
    simp only [credentials, hfields, hheader, Option.bind_eq_bind, Option.bind_some, Text.splitOnce_iff.mpr hsplit, hscheme,
      hdecoded, htext, hcolon]
    rw [if_neg (by simp), if_neg (by omega), if_neg]
    simp only [Bool.or_eq_true, decide_eq_true_eq, not_or]
    exact ⟨⟨⟨hne, by omega⟩, by omega⟩, hclean⟩

namespace BasicAuthHandler
variable {Credential ε : Type}

theorem selected_iff (s : BasicAuthHandler Credential) (name : String) (credential : Credential) :
    (∃ i, (s.users.findIdx? fun user => constantTimeEq (utf8 user.1) (utf8 name)) = some i ∧ s.users[i]? = some (name, credential)) ↔
      (name, credential) ∈ s.users := by
  constructor
  · rintro ⟨i, _, hi⟩
    exact List.mem_of_getElem? hi
  · intro hmem
    obtain ⟨i, hi, he⟩ := List.getElem_of_mem hmem
    refine ⟨i, ?_, List.getElem?_eq_some_iff.mpr ⟨hi, he⟩⟩
    rw [List.findIdx?_eq_some_iff_getElem]
    refine ⟨hi, by rw [he, constantTimeEq_iff], ?_⟩
    intro j hj hsame
    have hname := Hasher.utf8_injective (constantTimeEq_iff.1 hsame)
    have hsame' : getElem (s.users.map Prod.fst) j (by simp; omega) = getElem (s.users.map Prod.fst) i (by simpa using hi) := by
      simp [hname, he]
    have hindex := (s.distinct.getElem_inj_iff).mp hsame'
    omega

theorem authenticate_iff (s : BasicAuthHandler Credential) (verify : Credential → List UInt8 → Bool) (memoryBytes : Credential → Nat)
    (run : Nat → Except ε Unit) (headers : HeaderMap) :
    s.authenticate verify memoryBytes run headers = .ok true ↔ ∃ name password credential,
      Presented headers name password ∧ (name, credential) ∈ s.users ∧ verify credential (utf8 password) = true ∧
        run (memoryBytes credential) = .ok () := by
  constructor
  · intro h
    unfold authenticate at h
    rcases hc : credentials headers with _ | ⟨name, password⟩
    · simp [hc] at h
    rcases hs : s.users.findIdx? (fun user => constantTimeEq (utf8 user.1) (utf8 name)) with _ | i
    · simp only [hc, hs, Option.getD_none] at h
      rcases hu : s.users[0]? with _ | ⟨other, credential⟩
      · simp [hu] at h
      · rcases hr : run (memoryBytes credential) with error | _ <;> simp [hu, hr] at h
    · obtain ⟨hi, hsame, _⟩ := List.findIdx?_eq_some_iff_getElem.mp hs
      have hname := Hasher.utf8_injective (constantTimeEq_iff.1 hsame)
      have hu : s.users[i]? = some (name, s.users[i].2) := by
        rw [List.getElem?_eq_getElem hi, ← hname]
      simp only [hc, hs, Option.getD_some, hu] at h
      rcases hr : run (memoryBytes s.users[i].2) with error | _
      · simp [hr] at h
      · simp only [hr, Option.isSome_some, Bool.true_and, Except.ok.injEq] at h
        exact ⟨name, password, s.users[i].2, (credentials_iff ..).mp hc, List.mem_of_getElem? hu, h, hr⟩
  · rintro ⟨name, password, credential, hp, hmem, hv, hr⟩
    obtain ⟨i, hi, hu⟩ := (s.selected_iff name credential).mpr hmem
    simp [authenticate, (credentials_iff ..).mpr hp, hi, hu, hr, hv]

end BasicAuthHandler

open BasicAuthHandler

/-- The decoder inverts the one canonical spelling and a request is let in exactly when its own user's credential verifies. -/
theorem basicAuth_exact {Credential ε : Type} (s : BasicAuthHandler Credential) (verify : Credential → List UInt8 → Bool)
    (memoryBytes : Credential → Nat) (run : Nat → Except ε Unit) (headers : HeaderMap) :
    (∀ (text : String) (b : List UInt8), base64Decode text = some b ↔ text ≠ "" ∧ utf8 text = alphabet.encode b) ∧
      (s.authenticate verify memoryBytes run headers = .ok true ↔ ∃ name password credential,
        Presented headers name password ∧ (name, credential) ∈ s.users ∧ verify credential (utf8 password) = true ∧
          run (memoryBytes credential) = .ok ()) ∧
      ∀ name password, Presented headers name password → name ∉ s.users.map Prod.fst →
        s.authenticate verify memoryBytes run headers ≠ .ok true := by
  refine ⟨base64Decode_iff, s.authenticate_iff verify memoryBytes run headers, ?_⟩
  intro name password hp hout hok
  obtain ⟨name', password', credential, hp', hmem, _, _⟩ := (s.authenticate_iff verify memoryBytes run headers).mp hok
  have hsame := ((credentials_iff headers name password).mpr hp).symm.trans ((credentials_iff headers name' password').mpr hp')
  cases hsame
  exact hout (List.mem_map_of_mem (f := Prod.fst) hmem)

/-- A verification the executor has no room for lets nobody in. -/
theorem authenticate_busy : ¬ ∀ (s : BasicAuthHandler Unit) (verify : Unit → List UInt8 → Bool) (memoryBytes : Unit → Nat)
    (run : Nat → Except Unit Unit) (headers : HeaderMap),
    s.authenticate verify memoryBytes run headers = .ok true ↔ ∃ name password credential,
      Presented headers name password ∧ (name, credential) ∈ s.users ∧ verify credential (utf8 password) = true := by
  intro h
  let headers : HeaderMap := [("authorization", utf8 "Basic YTpi")]
  have hc : credentials headers = some ("a", "b") := by decide +kernel
  have hok := (h ⟨[("a", ())], by decide, []⟩ (fun _ _ => true) (fun _ => 0) (fun _ => .error ()) headers).mpr
    ⟨"a", "b", (), (credentials_iff ..).mp hc, by simp, rfl⟩
  simp [authenticate, hc, constantTimeEq_iff] at hok

end Gatel.BasicAuth
