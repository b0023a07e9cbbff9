import Gatel.Cgi.Fastcgi
import Gatel.Cgi.Receiver

namespace Gatel.Cgi

/-! The receive loops of the three transports. -/

/-- What a read under its deadline can end in besides bytes. -/
inductive Fault where
  | io
  | timeout
  deriving DecidableEq

namespace Scgi

inductive Error where
  | fault (fault : Fault)
  | protocol (error : ProtocolError)
  deriving DecidableEq

section
variable (hasScheme : String → Bool) (headRequest : Bool)

/-- `receive` over the reads so far, an empty one being the end, and the fault after them if one came. -/
@[grind =] def receive (fault : Option Fault) (r : Receiver) : List (List UInt8) → Receiver × Option (Except Error Unit)
  | [] => (r, fault.map fun f => .error (.fault f))
  | bytes :: reads =>
    if bytes = [] then
      match r.check with
      | .error e => (r, some (.error (.protocol e)))
      | .ok _ => (r.conclude, some (.ok ()))
    else match r.take hasScheme headRequest bytes with
      | (r, some e) => (r, some (.error (.protocol e)))
      | (r, none) => receive fault r reads

end

end Scgi

namespace Stdio

inductive Error where
  | fault (fault : Fault)
  | protocol (error : ProtocolError)
  | requestLength
  | stderrLimit
  | exitFailure
  deriving DecidableEq

/-- What the futures joined in `run` wait for. -/
inductive Event where
  /-- A read of stdout; an empty one is its end. -/
  | stdout (bytes : List UInt8)
  | stdoutFault (fault : Fault)
  /-- A read of stderr by its length; zero is its end. -/
  | stderr (count : Nat)
  | stderrFault
  /-- The upload is over. -/
  | uploaded (result : Except Error Unit)
  | exited (success : Bool)
  | exitFault
  /-- The overall deadline. -/
  | elapsed
  deriving DecidableEq

structure Exchange where
  receiver : Receiver
  uploaded : Bool
  transferred : Bool
  drained : Bool
  stderrBytes : Nat
  exited : Bool
  result : Option (Except Error Nat)
  deriving DecidableEq

namespace Exchange

def new (maxHead : Nat) : Exchange := ⟨.new maxHead, false, false, false, 0, false, none⟩

/-- The first error of `try_join!` ends the exchange. -/
def fail (x : Exchange) (e : Error) : Exchange := { x with result := some (.error e) }

/-- Behind `try_join!`: the byte held back, and the end. -/
def settle (x : Exchange) : Exchange :=
  if x.transferred && x.drained && x.exited then
    { x with receiver := x.receiver.conclude, result := some (.ok x.stderrBytes) }
  else x

variable (hasScheme : String → Bool) (headRequest : Bool) (maxStderr : Nat)

/-- A turn of the `receive` inside the transfer. -/
def read (x : Exchange) (bytes : List UInt8) : Exchange :=
  if bytes = [] then
    match x.receiver.check with
    | .error e => x.fail (.protocol e)
    | .ok _ => { x with transferred := true }.settle
  else match x.receiver.take hasScheme headRequest bytes with
    | (r, some e) => { x with receiver := r }.fail (.protocol e)
    | (r, none) => { x with receiver := r }

/-- A turn of `drain`. -/
def drain (x : Exchange) (count : Nat) : Exchange :=
  if count = 0 then { x with drained := true }.settle
  else if x.stderrBytes + count ≤ maxStderr then { x with stderrBytes := x.stderrBytes + count }
  else x.fail .stderrLimit

/-- A future that is over is not polled again, and the upload is dropped with the transfer. -/
def step (x : Exchange) (e : Event) : Exchange :=
  if x.result.isSome then x
  else match e with
    | .stdout bytes => if x.transferred then x else x.read hasScheme headRequest bytes
    | .stdoutFault f => if x.transferred then x else x.fail (.fault f)
    | .stderr count => if x.drained then x else x.drain maxStderr count
    | .stderrFault => if x.drained then x else x.fail (.fault .io)
    | .uploaded (.ok _) => { x with uploaded := true }
    | .uploaded (.error e) => if x.transferred || x.uploaded then x else x.fail e
    | .exited success =>
      if x.exited then x else if success then { x with exited := true }.settle else x.fail .exitFailure
    | .exitFault => if x.exited then x else x.fail (.fault .io)
    | .elapsed => x.fail (.fault .timeout)

end Exchange

end Stdio

namespace Fastcgi

inductive Error where
  | fault (fault : Fault)
  | protocol (error : ProtocolError)
  | applicationExit (code : Nat)
  deriving DecidableEq

structure Report where
  stdoutBytes : Nat
  stderrBytes : Nat
  deriving DecidableEq

/-- The locals of `receive`. -/
structure Loop where
  receiver : Receiver
  responder : Responder
  report : Report
  deriving DecidableEq

def Loop.new (maxHead maxStderr : Nat) : Loop := ⟨.new maxHead, .new maxStderr, 0, 0⟩

/-- `read_exact` on what has come and will come. -/
def readExact (n : Nat) (wire : List UInt8) : Option (List UInt8 × List UInt8) :=
  if n ≤ wire.length then some (wire.take n, wire.drop n) else none

section
variable (hasScheme : String → Bool) (headRequest : Bool)

/-- What the loop does with an event: go on, or end. -/
@[grind =] def Loop.handle (l : Loop) (responder : Responder) : Event → Loop × Option (Except Error Report)
  | .stdout bytes =>
    let report := { l.report with stdoutBytes := (l.report.stdoutBytes + bytes.length) % 2 ^ 64 }
    match l.receiver.take hasScheme headRequest bytes with
    | (r, some e) => (⟨r, responder, report⟩, some (.error (.protocol e)))
    | (r, none) => (⟨r, responder, report⟩, none)
  | .stderr bytes =>
    ({ l with
      responder := responder
      report := { l.report with stderrBytes := (l.report.stderrBytes + bytes.length) % 2 ^ 64 } }, none)
  | .complete status =>
    match l.receiver.check with
    | .error e => ({ l with responder := responder }, some (.error (.protocol e)))
    | .ok _ =>
      if status ≠ 0 then ({ l with responder := responder }, some (.error (.applicationExit status)))
      else (⟨l.receiver.conclude, responder, l.report⟩, some (.ok l.report))

/-- `receive` over the bytes so far and the fault after them if one came; `fuel` is the wire's length. -/
@[grind =] def receiveFrom (fault : Option Fault) : Nat → Loop → List UInt8 → Loop × Option (Except Error Report)
  | 0, l, _ => (l, fault.map fun f => .error (.fault f))
  | fuel + 1, l, wire =>
    match readExact 8 wire with
    | none => (l, fault.map fun f => .error (.fault f))
    | some (header, wire) =>
      -- The header is validated before an advertised payload is read.
      match decode header with
      | .error e => (l, some (.error (.protocol e)))
      | .ok _ =>
        match readExact ((announced header).1 + (announced header).2) wire with
        | none => (l, fault.map fun f => .error (.fault f))
        | some (payload, wire) =>
          match decode (header ++ payload) with
          | .error e => (l, some (.error (.protocol e)))
          | .ok none => (l, some (.error (.protocol .invalidRecord)))
          | .ok (some (record, _)) =>
            match l.responder.accept record with
            | .error e => (l, some (.error (.protocol e)))
            | .ok (responder, event) =>
              match l.handle hasScheme headRequest responder event with
              | (l, some result) => (l, some result)
              | (l, none) => receiveFrom fault fuel l wire

def receive (maxHead maxStderr : Nat) (fault : Option Fault) (wire : List UInt8) : Loop × Option (Except Error Report) :=
  receiveFrom hasScheme headRequest fault wire.length (.new maxHead maxStderr) wire

end

end Fastcgi

/-! What each transport has received, and when it has ended properly. -/

/-- The bytes of the reads before the first empty one. -/
@[grind =] def untilEnd (reads : List (List UInt8)) : List UInt8 := (reads.takeWhile (· ≠ [])).flatten

namespace Stdio

@[grind =] def Event.read? : Event → Option (List UInt8)
  | .stdout bytes => some bytes
  | _ => none

@[grind =] def Event.count? : Event → Option Nat
  | .stderr count => some count
  | _ => none

/-- What the program has written to stdout. -/
@[grind =] def output (es : List Event) : List UInt8 := untilEnd (es.filterMap Event.read?)

/-- How much it has written to stderr. -/
@[grind =] def stderrTotal (es : List Event) : Nat := ((es.filterMap Event.count?).takeWhile (· ≠ 0)).sum

/-- An event that ends the exchange badly when it comes after `before`. -/
@[grind =] def Fails (maxStderr : Nat) (before : List Event) : Event → Prop
  | .stdout _ => False
  | .stdoutFault _ => .stdout [] ∉ before
  | .stderr count => .stderr 0 ∉ before ∧ maxStderr < stderrTotal before + count
  | .stderrFault => .stderr 0 ∉ before
  | .uploaded (.ok _) => False
  | .uploaded (.error _) => .stdout [] ∉ before ∧ .uploaded (.ok ()) ∉ before
  | .exited success => success = false ∧ .exited true ∉ before
  | .exitFault => .exited true ∉ before
  | .elapsed => True

/-- No event has. -/
def Clean (maxStderr : Nat) (es : List Event) : Prop := ∀ before e after, es = before ++ e :: after → ¬ Fails maxStderr before e

/-- Both streams are at their end and the process has exited successfully. -/
def Closed (es : List Event) : Prop := .stdout [] ∈ es ∧ .stderr 0 ∈ es ∧ .exited true ∈ es

/-- The exchange has ended properly. -/
def Ended (maxStderr : Nat) (es : List Event) : Prop := ∃ first, first <+: es ∧ Clean maxStderr first ∧ Closed first

end Stdio

namespace Fastcgi

/-- Records of the two output streams: none after the empty one of its stream, stderr within its budget. -/
structure Streams (maxStderr : Nat) (frames : List Frame) : Prop where
  request : ∀ f ∈ frames, f.record.request = requestId
  kind : ∀ f ∈ frames, f.kind = stdoutKind ∨ f.kind = stderrKind
  opened : frames.Pairwise fun f g => f.kind = g.kind → f.body ≠ []
  within : ((frames.filter (·.kind == stderrKind)).map (·.body.length)).sum ≤ maxStderr

/-- What the application has written to stdout. -/
@[grind =] def output (frames : List Frame) : List UInt8 := (frames.filter (·.kind == stdoutKind)).flatMap Frame.body

/-- END_REQUEST with status 0, of the application and of the protocol. -/
def Ends (f : Frame) : Prop :=
  f.record.request = requestId ∧ f.kind = endKind ∧ f.body.length = 8 ∧ f.body.take 5 = [0, 0, 0, 0, 0]

/-- A wire as records of the two streams, as many as there are, and what follows them. -/
structure Carries (maxStderr : Nat) (wire : List UInt8) (frames : List Frame) (more : List UInt8) : Prop where
  wire_eq : wire = frames.flatMap Frame.bytes ++ more
  streams : Streams maxStderr frames
  stops : ∀ (f : Frame) rest, more = f.bytes ++ rest → ¬ Streams maxStderr (frames ++ [f])

/-- The records are followed by the end of the request. -/
def Ended (more : List UInt8) : Prop := ∃ (f : Frame) (rest : List UInt8), more = f.bytes ++ rest ∧ Ends f

end Fastcgi

@[grind =] def Call.head? : Call → Option Head
  | .head h => some h
  | _ => none

/-- What a transport has answered with: nothing before it calls the end. -/
def answer (calls : List Call) : Option (List Head × List UInt8) :=
  if .finish ∈ calls then some (calls.filterMap Call.head?, calls.flatMap Call.bytes) else none

end Gatel.Cgi
