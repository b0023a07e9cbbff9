import Gatel.Model.Http
import Gatel.Plan.Texts

namespace Gatel

/-! The standard library's reader of addresses: each step returns what it read and what is
left, or nothing. -/

namespace IpAddr

def digitValue (radix : Nat) (c : Char) : Option Nat :=
  let n := if c.isDigit then some (c.toNat - 48)
    else if 'a' ≤ c ∧ c ≤ 'f' then some (c.toNat - 87)
    else if 'A' ≤ c ∧ c ≤ 'F' then some (c.toNat - 55)
    else none
  n.filter (· < radix)

/-- A number of at most so many digits, below a limit; decimal ones may not be padded. -/
def readNumber (radix digits limit : Nat) (padded : Bool) (input : List Char) : Option (Nat × List Char) :=
  let read := input.takeWhile fun c => (digitValue radix c).isSome
  let value := read.foldl (fun n c => n * radix + (digitValue radix c).getD 0) 0
  if read = [] ∨ read.length > digits then none
  else if !padded && read.head? == some '0' && read.length > 1 then none
  else if value < limit then some (value, input.drop read.length) else none

/-- The separator in front of every part but the first. -/
def readSeparator (c : Char) (index : Nat) (input : List Char) : Option (List Char) :=
  if index = 0 then some input
  else match input with
    | d :: rest => if d = c then some rest else none
    | [] => none

def readOctet (index : Nat) (input : List Char) : Option (Nat × List Char) :=
  (readSeparator '.' index input).bind (readNumber 10 3 256 false)

def readIpv4 (input : List Char) : Option (List Nat × List Char) := do
  let (a, input) ← readOctet 0 input
  let (b, input) ← readOctet 1 input
  let (c, input) ← readOctet 2 input
  let (d, input) ← readOctet 3 input
  return ([a, b, c, d], input)

/-- The groups of a part of an IPv6 address, and whether it ended in a dotted tail, which
takes the place of two. -/
def readGroups : Nat → Nat → List Char → List Nat × Bool × List Char
  | 0, _, input => ([], false, input)
  | left + 1, index, input =>
    match if left = 0 then none else (readSeparator ':' index input).bind readIpv4 with
    | some (octets, rest) =>
      ([octets.getD 0 0 * 256 + octets.getD 1 0, octets.getD 2 0 * 256 + octets.getD 3 0], true, rest)
    | none =>
      match (readSeparator ':' index input).bind (readNumber 16 4 65536 true) with
      | none => ([], false, input)
      | some (group, rest) =>
        let (groups, dotted, rest) := readGroups left (index + 1) rest
        (group :: groups, dotted, rest)

def readIpv6 (input : List Char) : Option (List Nat × List Char) :=
  let (head, dotted, rest) := readGroups 8 0 input
  if head.length = 8 then some (head, rest)
  else if dotted then none
  else match rest with
    | ':' :: ':' :: rest =>
      let (tail, _, rest) := readGroups (7 - head.length) 0 rest
      some (head ++ List.replicate (8 - head.length - tail.length) 0 ++ tail, rest)
    | _ => none

def ofOctets (octets : List Nat) : IpAddr := .v4 (Vector.ofFn fun i => (octets.getD i.val 0).toUInt8)
def ofGroups (groups : List Nat) : IpAddr := .v6 (Vector.ofFn fun i => (groups.getD i.val 0).toUInt16)

/-- `str::parse::<IpAddr>`. -/
def parse (text : String) : Option IpAddr :=
  let read := match readIpv4 text.toList with
    | some (octets, rest) => some (ofOctets octets, rest)
    | none => (readIpv6 text.toList).map fun (groups, rest) => (ofGroups groups, rest)
  read.bind fun (ip, rest) => if rest = [] then some ip else none

example : parse "203.0.113.9" = some (.v4 #v[203, 0, 113, 9]) := by decide +kernel
example : parse "2001:db8::192.0.2.1" = some (.v6 #v[0x2001, 0xdb8, 0, 0, 0, 0, 0xc000, 0x201]) := by
  decide +kernel

end IpAddr

namespace Dispatcher

/-- The dispatcher's own membership test. -/
@[grind =] def inNetwork (ip network : IpAddr) (bits : Nat) : Bool :=
  match ip, network with
  | .v4 _, .v4 _ => IpAddr.masked ip.octets bits == IpAddr.masked network.octets bits
  | .v6 _, .v6 _ => IpAddr.masked ip.octets bits == IpAddr.masked network.octets bits
  | _, _ => false

def isTrusted (address : IpAddr) (trusted : List (IpAddr × Nat)) : Bool :=
  trusted.any fun network => inNetwork address network.1 network.2

/-- What the forwarding header names: the last element of its first line. -/
def forwarded (headers : HeaderMap) : Option IpAddr :=
  (((headers.get "x-forwarded-for").bind HeaderValue.toStr).bind fun value =>
    (Text.splitAll ',' value).getLast?).bind fun value => IpAddr.parse (Text.trim value)

/-- The address to attribute the request to; a peer that is no internet address has none. -/
def clientIp (trusted : List (IpAddr × Nat)) (peer : Option IpAddr) (headers : HeaderMap) : Option IpAddr :=
  peer.bind fun peer =>
    if !isTrusted peer trusted then some peer else (forwarded headers).or (some peer)

/-- The part of the forwarding header that the peer itself appended: the last element of the
last line. -/
def appended (headers : HeaderMap) : Option (List UInt8) :=
  ((headers.getAll "x-forwarded-for").getLast?).bind fun line => (line.splitOn 44).getLast?

theorem clientIp_untrusted {trusted : List (IpAddr × Nat)} {peer : IpAddr}
    (h : isTrusted peer trusted = false) (headers : HeaderMap) :
    clientIp trusted (some peer) headers = some peer := by
  simp [clientIp, h]

theorem clientIp_trusted {trusted : List (IpAddr × Nat)} {peer : IpAddr}
    (h : isTrusted peer trusted = true) (headers : HeaderMap) :
    clientIp trusted (some peer) headers = (forwarded headers).or (some peer) := by
  simp [clientIp, h]

theorem toStr_eq_some {line : List UInt8} {value : String} (h : HeaderValue.toStr line = some value) :
    value = String.ofList (line.map fun b => Char.ofNat b.toNat) ∧
      ∀ b ∈ line, (32 ≤ b ∧ b < 127) ∨ b = 9 := by
  unfold HeaderValue.toStr at h
  split at h
  · rename_i hall
    cases h
    refine ⟨rfl, ?_⟩
    intro b hb
    simpa using List.all_eq_true.mp hall b hb
  · cases h

/-- The elements of a line that reads as text. -/
theorem splitAll_toStr {line : List UInt8} {value : String} (h : HeaderValue.toStr line = some value) :
    Text.splitAll ',' value = (line.splitOn 44).map fun e => String.ofList (e.map fun b => Char.ofNat b.toNat) := by
  obtain ⟨rfl, hbytes⟩ := toStr_eq_some h
  have hsplit : (line.map fun b => Char.ofNat b.toNat).splitOn (Char.ofNat (44 : UInt8).toNat) =
      (line.splitOn 44).map (List.map fun b => Char.ofNat b.toNat) := by
    refine Text.splitOn_map (f := fun b : UInt8 => Char.ofNat b.toNat) (a := 44) ?_
    intro b hb he
    have hlt : b.toNat < 128 := by
      rcases hbytes b hb with ⟨-, hb⟩ | rfl
      · have := UInt8.lt_iff_toNat_lt.mp hb
        have h127 : (127 : UInt8).toNat = 127 := rfl
        omega
      · decide
    have hn := congrArg Char.toNat he
    rw [Char.toNat_ofNat, Char.toNat_ofNat, if_pos (Or.inl (by omega)), if_pos (by decide)] at hn
    exact UInt8.toNat_inj.mp hn
  rw [Text.splitAll, String.toList_ofList, show (',' : Char) = Char.ofNat (44 : UInt8).toNat from by decide,
    hsplit, List.map_map]
  rfl

/-- The last element of a line that reads as text. -/
theorem getLast?_splitAll {line : List UInt8} {value : String} (h : HeaderValue.toStr line = some value) :
    (Text.splitAll ',' value).getLast? =
      ((line.splitOn 44).getLast?).map fun e => String.ofList (e.map fun b => Char.ofNat b.toNat) := by
  rw [splitAll_toStr h, List.getLast?_map]

/-- The forwarding header is one line that reads as text, or there is none. -/
def OneLine (headers : HeaderMap) : Prop :=
  headers.getAll "x-forwarded-for" = [] ∨
    ∃ line, headers.getAll "x-forwarded-for" = [line] ∧ (HeaderValue.toStr line).isSome = true

theorem forwarded_of_oneLine {headers : HeaderMap} (h : OneLine headers) :
    forwarded headers = (appended headers).bind fun e =>
      IpAddr.parse (Text.trim (String.ofList (e.map fun b => Char.ofNat b.toNat))) := by
  rcases h with h | ⟨line, h, htext⟩
  · simp [forwarded, appended, HeaderMap.get, h]
  · obtain ⟨value, hvalue⟩ := Option.isSome_iff_exists.mp htext
    simp only [forwarded, appended, HeaderMap.get, h, List.head?_cons, List.getLast?_singleton,
      Option.bind_some, hvalue, getLast?_splitAll hvalue]
    cases (line.splitOn 44).getLast? with
    | none => rfl
    | some e => rfl

/-- A line of its own in front of the others decides the address. -/
theorem forwarded_cons {value : List UInt8} {ip : IpAddr} (headers : HeaderMap)
    (h : forwarded [("x-forwarded-for", value)] = some ip) :
    forwarded (("x-forwarded-for", value) :: headers) = some ip := by
  simpa [forwarded, HeaderMap.get, HeaderMap.getAll] using h

theorem appended_cons {headers : HeaderMap} (value : List UInt8)
    (h : headers.getAll "x-forwarded-for" ≠ []) :
    appended (("x-forwarded-for", value) :: headers) = appended headers := by
  have hall : HeaderMap.getAll (("x-forwarded-for", value) :: headers) "x-forwarded-for" =
      value :: headers.getAll "x-forwarded-for" := by simp [HeaderMap.getAll]
  simp only [appended, hall]
  cases hl : headers.getAll "x-forwarded-for" with
  | nil => exact absurd hl h
  | cons first rest => rw [List.getLast?_cons_cons]

theorem forwarded_sample :
    forwarded [("x-forwarded-for", utf8 "203.0.113.9")] = some (.v4 #v[203, 0, 113, 9]) ∧
      forwarded [("x-forwarded-for", utf8 "198.51.100.77")] = some (.v4 #v[198, 51, 100, 77]) := by
  decide

/-- An untrusted peer is never spoken for. From a trusted one, what the peer appended decides
the address among requests whose forwarding header is one readable line; but as soon as the
header is there, a line in front of the appended one decides it instead. -/
theorem attribution_iff (trusted : List (IpAddr × Nat)) (peer : IpAddr) :
    (isTrusted peer trusted = false →
      ∀ headers, clientIp trusted (some peer) headers = some peer) ∧
    (∀ headers headers', OneLine headers → OneLine headers' → appended headers' = appended headers →
      clientIp trusted (some peer) headers' = clientIp trusted (some peer) headers) ∧
    ∀ headers : HeaderMap,
      (∀ headers', appended headers' = appended headers →
        clientIp trusted (some peer) headers' = clientIp trusted (some peer) headers) ↔
      isTrusted peer trusted = false ∨ headers.getAll "x-forwarded-for" = [] := by
  refine ⟨clientIp_untrusted, ?_, ?_⟩
  · intro headers headers' h h' he
    rcases Bool.eq_false_or_eq_true (isTrusted peer trusted) with ht | ht
    · rw [clientIp_trusted ht, clientIp_trusted ht, forwarded_of_oneLine h, forwarded_of_oneLine h', he]
    · rw [clientIp_untrusted ht, clientIp_untrusted ht]
  · intro headers
    constructor
    · intro hall
      by_contra hno
      rw [not_or, Bool.not_eq_false] at hno
      obtain ⟨ht, hlines⟩ := hno
      -- two lines in front that name different addresses
      have h₁ := hall _ (appended_cons (utf8 "203.0.113.9") hlines)
      have h₂ := hall _ (appended_cons (utf8 "198.51.100.77") hlines)
      rw [clientIp_trusted ht, forwarded_cons headers forwarded_sample.1] at h₁
      rw [clientIp_trusted ht, forwarded_cons headers forwarded_sample.2, ← h₁] at h₂
      simp only [Option.some_or] at h₂
      exact absurd h₂ (by decide)
    · rintro (ht | hnone) headers' he
      · rw [clientIp_untrusted ht, clientIp_untrusted ht]
      · have hnone' : headers'.getAll "x-forwarded-for" = [] := by
          have hap : appended headers = none := by simp [appended, hnone]
          rw [hap] at he
          cases hl : headers'.getAll "x-forwarded-for" with
          | nil => rfl
          | cons first rest =>
            obtain ⟨last, hlast⟩ : ∃ last, (first :: rest).getLast? = some last :=
              ⟨_, List.getLast?_eq_some_getLast (List.cons_ne_nil first rest)⟩
            have hsplit : (last.splitOn 44).getLast? ≠ none := by
              rw [ne_eq, List.getLast?_eq_none_iff]
              exact List.splitOn_ne_nil _ _
            simp only [appended, hl, hlast, Option.bind_some] at he
            exact absurd he hsplit
        have hf : forwarded headers' = forwarded headers := by
          simp [forwarded, HeaderMap.get, hnone, hnone']
        simp [clientIp, hf]

namespace Sample

def trusted : List (IpAddr × Nat) := [(.v4 #v[198, 51, 100, 0], 24)]
def balancer : IpAddr := .v4 #v[198, 51, 100, 5]

/-- The line the balancer appended. -/
def honest : HeaderMap := [("x-forwarded-for", utf8 "203.0.113.9")]

/-- The same request with a line its client wrote in front. -/
def forged : HeaderMap := ("x-forwarded-for", utf8 "127.0.0.1") :: honest

theorem forged_line_believed :
    isTrusted balancer trusted = true ∧ appended forged = appended honest ∧
      clientIp trusted (some balancer) honest = some (.v4 #v[203, 0, 113, 9]) ∧
      clientIp trusted (some balancer) forged = some (.v4 #v[127, 0, 0, 1]) := by
  decide

end Sample

end Dispatcher

end Gatel
