import Gatel.Cgi.Head

namespace Gatel.Cgi.Fastcgi

/-! FastCGI framing, one request a transport. -/

def stdoutKind : UInt8 := 6

def stderrKind : UInt8 := 7

def endKind : UInt8 := 3

def requestId : Nat := 1

structure Record where
  kind : UInt8
  request : Nat
  body : List UInt8
  deriving DecidableEq

/-- `u16::from_be_bytes`. -/
def u16 (high low : UInt8) : Nat := high.toNat * 256 + low.toNat

/-- `u32::from_be_bytes`. -/
def u32 (bytes : List UInt8) : Nat := bytes.foldl (fun n b => n * 256 + b.toNat) 0

/-- The content and padding lengths a header announces. -/
@[grind =] def announced : List UInt8 → Nat × Nat
  | _ :: _ :: _ :: _ :: high :: low :: padding :: _ => (u16 high low, padding.toNat)
  | _ => (0, 0)

/-- A record and the bytes it took with its padding; nothing if the input is too short. -/
def decode (input : List UInt8) : Except ProtocolError (Option (Record × Nat)) :=
  match input with
  | version :: kind :: high :: low :: _ :: _ :: _ :: _ :: rest =>
    let size := announced input
    if version ≠ 1 then .error .invalidRecord
    else if input.length < 8 + size.1 + size.2 then .ok none
    else .ok (some (⟨kind, u16 high low, rest.take size.1⟩, 8 + size.1 + size.2))
  | _ => .ok none

inductive Event where
  | stdout (bytes : List UInt8)
  | stderr (bytes : List UInt8)
  | complete (appStatus : Nat)
  deriving DecidableEq

structure Responder where
  stdoutClosed : Bool
  stderrClosed : Bool
  ended : Bool
  stderrBytes : Nat
  stderrLimit : Nat
  deriving DecidableEq

namespace Responder

def new (stderrLimit : Nat) : Responder := ⟨false, false, false, 0, stderrLimit⟩

def accept (r : Responder) (record : Record) : Except ProtocolError (Responder × Event) :=
  if r.ended then .error .streamClosed
  else if record.request ≠ requestId then .error .unexpectedRecord
  else if record.kind = stdoutKind then
    if r.stdoutClosed then .error .streamClosed
    else .ok ({ r with stdoutClosed := record.body.isEmpty }, .stdout record.body)
  else if record.kind = stderrKind then
    if r.stderrClosed then .error .streamClosed
    else if r.stderrBytes + record.body.length ≤ r.stderrLimit then
      .ok ({ r with stderrBytes := r.stderrBytes + record.body.length, stderrClosed := record.body.isEmpty },
        .stderr record.body)
    else .error .limit
  else if record.kind = endKind then
    if record.body.length ≠ 8 then .error .invalidRecord
    else if record.body[4]? ≠ some 0 then .error .backendRejected
    -- PHP-FPM may close stdout implicitly with END_REQUEST.
    else .ok ({ r with stdoutClosed := true, stderrClosed := true, ended := true }, .complete (u32 (record.body.take 4)))
  else .error .unexpectedRecord

end Responder

/-- A record as a backend may put it on the wire. -/
structure Frame where
  kind : UInt8
  requestHigh : UInt8
  requestLow : UInt8
  reserved : UInt8
  body : List UInt8
  padding : List UInt8
  body_lt : body.length < 2 ^ 16
  padding_lt : padding.length < 2 ^ 8

namespace Frame

def record (f : Frame) : Record := ⟨f.kind, u16 f.requestHigh f.requestLow, f.body⟩

def header (f : Frame) : List UInt8 :=
  [1, f.kind, f.requestHigh, f.requestLow, UInt8.ofNat (f.body.length / 256), UInt8.ofNat f.body.length,
    UInt8.ofNat f.padding.length, f.reserved]

def bytes (f : Frame) : List UInt8 := f.header ++ (f.body ++ f.padding)

end Frame

theorem u16_ofNat {n : Nat} (h : n < 2 ^ 16) : u16 (UInt8.ofNat (n / 256)) (UInt8.ofNat n) = n := by
  simp only [u16, UInt8.toNat_ofNat']
  omega

theorem Frame.announced_header (f : Frame) : announced f.header = (f.body.length, f.padding.length) := by
  have hp := f.padding_lt
  simp only [announced, Frame.header, u16_ofNat f.body_lt, UInt8.toNat_ofNat']
  congr 1
  omega

theorem Frame.decode_header (f : Frame) : ∃ r, decode f.header = .ok r := by
  unfold decode Frame.header
  simp only [ne_eq, not_true_eq_false, if_false]
  split
  · exact ⟨_, rfl⟩
  · exact ⟨_, rfl⟩

theorem Frame.announced_bytes (f : Frame) (rest : List UInt8) : announced (f.header ++ rest) = announced f.header := by
  simp only [Frame.header, List.cons_append, announced]

theorem Frame.decode_bytes (f : Frame) :
    decode f.bytes = .ok (some (f.record, 8 + f.body.length + f.padding.length)) := by
  have ha : announced f.bytes = (f.body.length, f.padding.length) := by
    rw [Frame.bytes, f.announced_bytes, f.announced_header]
  have hl : f.bytes.length = 8 + f.body.length + f.padding.length := by
    simp [Frame.bytes, Frame.header, Nat.add_assoc]
    omega
  unfold decode
  rw [ha]
  simp only [Frame.bytes, Frame.header, List.cons_append, List.nil_append] at hl ⊢
  simp [hl, Frame.record]

/-- A header that passes and announces what follows makes a frame. -/
theorem exists_frame {header payload : List UInt8} (hh : header.length = 8) (hd : decode header ≠ .error .invalidRecord)
    (hp : payload.length = (announced header).1 + (announced header).2) : ∃ f : Frame, f.bytes = header ++ payload := by
  match header, hh with
  | [version, kind, r1, r0, high, low, padding, reserved], _ =>
    have hv : version = 1 := by
      by_contra hne
      exact hd (by simp [decode, hne])
    have hlow := low.toNat_lt
    have hhigh := high.toNat_lt
    have hpad := padding.toNat_lt
    simp only [announced, u16] at hp
    have hbody : (payload.take (high.toNat * 256 + low.toNat)).length = high.toNat * 256 + low.toNat := by
      rw [List.length_take]
      omega
    have hrest : (payload.drop (high.toNat * 256 + low.toNat)).length = padding.toNat := by
      rw [List.length_drop]
      omega
    refine ⟨⟨kind, r1, r0, reserved, payload.take (high.toNat * 256 + low.toNat),
      payload.drop (high.toNat * 256 + low.toNat), by rw [hbody]; omega, by rw [hrest]; omega⟩, ?_⟩
    have h1 : UInt8.ofNat ((high.toNat * 256 + low.toNat) / 256) = high := by
      apply UInt8.toNat_inj.mp
      rw [UInt8.toNat_ofNat']
      omega
    have h2 : UInt8.ofNat (high.toNat * 256 + low.toNat) = low := by
      apply UInt8.toNat_inj.mp
      rw [UInt8.toNat_ofNat']
      omega
    simp only [Frame.bytes, Frame.header, hbody, hrest, h1, h2, UInt8.ofNat_toNat, List.take_append_drop, hv,
      List.cons_append, List.nil_append]

end Gatel.Cgi.Fastcgi
