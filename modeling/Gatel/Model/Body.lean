import Gatel.Model.Http

namespace Gatel

inductive Frame where
  | data (bytes : List UInt8)
  | trailers (fields : HeaderMap)
  deriving DecidableEq

/-- What `data_ref` sees of a frame. -/
@[grind =] def Frame.dataBytes : Frame → List UInt8
  | .data bytes => bytes
  | .trailers _ => []

/-- How a body stops once its frames are out. -/
inductive BodyFate where
  | finished
  | failed (error : String)
  deriving DecidableEq

/-- What one `poll_frame` answers. -/
inductive Polled (ε : Type) where
  | pending
  | frame (f : Frame)
  | failed (error : ε)
  | ended
  deriving DecidableEq

/-- A body as it will come in. Whether a frame has arrived is decided poll by poll. -/
structure Body where
  frames : List Frame
  fate : BodyFate
  /-- The length is known, so that `is_end_stream` tells the end without a further poll. -/
  sized : Bool
  stopped : Bool
  deriving DecidableEq

namespace Body

def new (frames : List Frame) (fate : BodyFate) (sized : Bool) : Body := ⟨frames, fate, sized, false⟩

def poll (b : Body) (ready : Bool) : Polled String × Body :=
  if ready then
    match b.frames with
    | f :: rest => (.frame f, { b with frames := rest })
    | [] =>
      if b.stopped then (.ended, b)
      else match b.fate with
        | .finished => (.ended, { b with stopped := true })
        | .failed error => (.failed error, { b with stopped := true })
  else (.pending, b)

def isEndStream (b : Body) : Bool := b.sized && b.frames.isEmpty && b.fate == .finished

/-- The last frame is out and the end is known. -/
def Finished (b : Body) : Prop := b.fate = .finished ∧ b.frames = [] ∧ (b.sized = true ∨ b.stopped = true)

instance (b : Body) : Decidable b.Finished := inferInstanceAs (Decidable (_ ∧ _ ∧ _))

theorem poll_snd (b : Body) (ready : Bool) :
    (b.poll ready).2 =
      { b with frames := b.frames.drop ready.toNat, stopped := b.stopped || (ready && b.frames.isEmpty) } := by
  obtain ⟨frames, fate, sized, stopped⟩ := b
  cases ready
  · simp [poll]
  · cases frames with
    | cons f rest => simp [poll]
    | nil => cases stopped <;> cases fate <;> simp [poll]

/-- What is left after some polls: one frame less for each that found something. -/
theorem polls_eq (b : Body) (polls : List Bool) :
    polls.foldl (fun b ready => (b.poll ready).2) b =
      { b with
        frames := b.frames.drop (polls.count true)
        stopped := b.stopped || decide (b.frames.length < polls.count true) } := by
  induction polls generalizing b with
  | nil => simp
  | cons ready polls ih =>
    rw [List.foldl_cons, ih, poll_snd]
    cases ready
    · simp
    · cases hf : b.frames with
      | nil => simp
      | cons f rest => simp

/-- When the polls have read a body to its end. -/
theorem polls_finished_iff (frames : List Frame) (fate : BodyFate) (sized : Bool) (polls : List Bool) :
    (polls.foldl (fun b ready => (b.poll ready).2) (new frames fate sized)).Finished ↔
      fate = .finished ∧ frames.length < polls.count true + sized.toNat := by
  rw [polls_eq]
  simp only [Finished, new, Bool.false_or, List.drop_eq_nil_iff]
  refine and_congr_right fun _ => ?_
  cases sized
  · simp only [Bool.false_eq_true, false_or, Bool.toNat_false, Nat.add_zero]
    constructor
    · intro h
      exact of_decide_eq_true h.2
    · intro h
      exact ⟨h.le, decide_eq_true h⟩
  · simp only [true_or, and_true, Bool.toNat_true]
    omega

end Body

end Gatel
