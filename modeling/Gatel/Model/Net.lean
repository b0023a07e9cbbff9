import Gatel.Model.Value

namespace Gatel

inductive IpAddr where
  | v4 (octets : Vector UInt8 4)
  | v6 (segments : Vector UInt16 8)
  deriving DecidableEq

namespace IpAddr

def isIpv4 : IpAddr → Bool
  | .v4 _ => true
  | .v6 _ => false

def showV4 (octets : List UInt8) : String := ".".intercalate (octets.map fun b => toString b.toNat)

def showSegments (segments : List UInt16) : String :=
  ":".intercalate (segments.map fun s => String.ofList (Nat.toDigits 16 s.toNat))

/-- The longest run of zero segments, the first of several: start and length. -/
def zeroRun : List UInt16 → Nat → Nat × Nat → Nat × Nat → Nat × Nat
  | [], _, _, longest => longest
  | s :: rest, i, current, longest =>
    if s = 0 then
      let current := (if current.2 = 0 then i else current.1, current.2 + 1)
      zeroRun rest (i + 1) current (if current.2 > longest.2 then current else longest)
    else zeroRun rest (i + 1) (0, 0) longest

/-- The canonical text, IPv4-mapped addresses with their dotted tail. -/
def toText : IpAddr → String
  | .v4 octets => showV4 octets.toList
  | .v6 segments =>
    let all := segments.toList
    if all.take 6 = [0, 0, 0, 0, 0, 0xffff] then
      "::ffff:" ++ showV4 ((all.drop 6).flatMap fun s : UInt16 => [(s >>> 8).toUInt8, s.toUInt8])
    else
      let run := zeroRun all 0 (0, 0) (0, 0)
      if run.2 > 1 then
        showSegments (all.take run.1) ++ "::" ++ showSegments (all.drop (run.1 + run.2))
      else showSegments all

theorem first_lt : 0 < 4 := by decide

theorem second_lt : 1 < 4 := by decide

def isLoopback : IpAddr → Bool
  | .v4 octets =>
    have first := first_lt
    octets[0] == 127
  | .v6 segments => segments.toList == [0, 0, 0, 0, 0, 0, 0, 1]

/-- Addresses that mean something on this machine or network only. -/
def isLocal : IpAddr → Bool
  | .v4 octets =>
    have first := first_lt
    have second := second_lt
    octets[0] == 127 ||
      (octets[0] == 10 || (octets[0] == 172 && (16 : UInt8) ≤ octets[1] && octets[1] ≤ 31) ||
        (octets[0] == 192 && octets[1] == 168)) ||
      (octets[0] == 169 && octets[1] == 254)
  | .v6 segments =>
    segments.toList == [0, 0, 0, 0, 0, 0, 0, 1] || segments[0] &&& 0xfe00 == 0xfc00 ||
      segments[0] &&& 0xffc0 == 0xfe80

/-- The leading `bits` bits kept, the rest cleared. -/
@[grind =] def masked : List UInt8 → Nat → List UInt8
  | [], _ => []
  | b :: rest, bits =>
    if 8 ≤ bits then b :: masked rest (bits - 8)
    else (b &&& if bits = 0 then 0 else (0xff : UInt8) <<< (8 - bits).toUInt8) :: masked rest 0

@[grind =] def octets : IpAddr → List UInt8
  | .v4 octets => octets.toList
  | .v6 segments => segments.toList.flatMap fun s : UInt16 => [(s >>> 8).toUInt8, s.toUInt8]

/-- Membership of a network given by an address and a length in bits. -/
def inNetwork (ip network : IpAddr) (bits : Nat) : Bool :=
  match ip, network with
  | .v4 _, .v4 _ => bits ≤ 32 && masked ip.octets bits == masked network.octets bits
  | .v6 _, .v6 _ => bits ≤ 128 && masked ip.octets bits == masked network.octets bits
  | _, _ => false

end IpAddr

structure SocketAddr where
  ip : IpAddr
  port : UInt16
  /-- The zone of an IPv6 address; 0 when none was written. -/
  scope : U32
  unscoped : ip.isIpv4 = true → scope = 0
  deriving DecidableEq

def SocketAddr.toText (a : SocketAddr) : String :=
  match a.ip with
  | .v4 _ => a.ip.toText ++ ":" ++ toString a.port.toNat
  | .v6 _ =>
    let zone := if a.scope = 0 then "" else "%" ++ toString a.scope.val
    "[" ++ a.ip.toText ++ zone ++ "]:" ++ toString a.port.toNat

example : (IpAddr.v6 #v[0, 0, 0, 0, 0, 0, 0, 1]).toText = "::1" := by decide
example : (SocketAddr.mk (.v4 #v[127, 0, 0, 1]) 8080 0 (fun _ => rfl)).toText = "127.0.0.1:8080" := by decide

end Gatel
