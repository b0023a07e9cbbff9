import Gatel.Cgi.Sink

namespace Gatel.Cgi

/-! What the receive loops of the three transports share: the head, the length and one byte held back. -/

/-- The locals of a receive loop, and the calls it has made. -/
structure Receiver where
  decoder : Decoder
  length : Option BodyLength
  tail : Option UInt8
  calls : List Call
  deriving DecidableEq

namespace Receiver

def new (maxHead : Nat) : Receiver := ⟨.new maxHead, none, none, []⟩

/-- The byte held back, if there is one. -/
def held (r : Receiver) : List Call := (r.tail.map fun byte => Call.body [byte]).toList

/-- A piece of the body: what was held back and all but the last byte go out. -/
def forward (r : Receiver) (body : List UInt8) : Receiver × Option ProtocolError :=
  if body = [] then (r, none)
  else match r.length with
    | none => (r, some .incompleteResponse)
    | some length =>
      match length.observe body.length with
      | .error e => (r, some e)
      | .ok length =>
        ({ r with
            length := some length
            tail := body.getLast?
            calls := r.calls ++ (r.held ++ if 1 < body.length then [Call.body body.dropLast] else []) }, none)

variable (hasScheme : String → Bool) (headRequest : Bool)

/-- A piece of the backend's output, which every loop treats alike. -/
def take (r : Receiver) (bytes : List UInt8) : Receiver × Option ProtocolError :=
  match r.length with
  | some _ => r.forward bytes
  | none =>
    match r.decoder.feed hasScheme bytes with
    | .error e => (r, some e)
    | .ok (decoder, none, body) => { r with decoder := decoder }.forward body
    | .ok (decoder, some head, body) =>
      { r with decoder := decoder, length := some (.new head headRequest), calls := r.calls ++ [Call.head head] }.forward body

/-- The checks at the end of the output. -/
def check (r : Receiver) : Except ProtocolError Unit := do
  r.decoder.eof
  match r.length with
  | none => throw .incompleteResponse
  | some length => length.finish

/-- The byte held back, then the end. -/
def conclude (r : Receiver) : Receiver := { r with tail := none, calls := r.calls ++ (r.held ++ [.finish]) }

end Receiver

/-! What a transport may deliver of an output. -/

section
variable (hasScheme : String → Bool) (headRequest : Bool) (maxHead : Nat)

/-- The head an output begins with and the bytes after it. -/
def response (output : List UInt8) : Option (Head × List UInt8) :=
  match (Decoder.new maxHead).feed hasScheme output with
  | .ok (_, some head, body) => some (head, body)
  | _ => none

/-- The length a response must have, if one is known. -/
def declared (head : Head) : Option Nat := (BodyLength.new head headRequest).expected

/-- A response may still be completed, or is: its length can be counted and is not beyond the declared one. -/
def Fits (head : Head) (body : List UInt8) : Prop :=
  body.length < 2 ^ 64 ∧ ∀ n ∈ declared headRequest head, body.length ≤ n

/-- The output is a whole response. -/
def Whole (output : List UInt8) : Prop :=
  ∃ head body, response hasScheme maxHead output = some (head, body) ∧ body.length < 2 ^ 64 ∧
    ∀ n ∈ declared headRequest head, body.length = n

/-- What was called for an output: nothing, a head and a part of the body that lacks the last byte
at least, or the whole response and its end. -/
inductive Delivered (output : List UInt8) : List Call → Prop
  | nothing : Delivered output []
  | part {head : Head} {body : List UInt8} {pieces : List (List UInt8)}
      (hr : response hasScheme maxHead output = some (head, body)) (hne : [] ∉ pieces)
      (hp : pieces.flatten <+: body.dropLast)
      (hshort : ∀ n ∈ declared headRequest head, n ≠ 0 → pieces.flatten.length < n) :
      Delivered output (.head head :: pieces.map Call.body)
  | whole {head : Head} {body : List UInt8} {pieces : List (List UInt8)}
      (hr : response hasScheme maxHead output = some (head, body)) (hne : [] ∉ pieces)
      (hp : pieces.flatten = body) (hfull : ∀ n ∈ declared headRequest head, body.length = n) :
      Delivered output (.head head :: pieces.map Call.body ++ [.finish])

end


/-! Feeding in pieces is feeding at once. -/

section
variable {hasScheme : String → Bool} {headRequest : Bool} {maxHead : Nat}

namespace Decoder

theorem feedBytes_append (d : Decoder) (a b : List UInt8) :
    d.feedBytes hasScheme (a ++ b) =
      match d.feedBytes hasScheme a with
      | .error e => .error e
      | .ok (d', none, _) => d'.feedBytes hasScheme b
      | .ok (d', some head, rest) => .ok (d', some head, rest ++ b) := by
  induction a generalizing d with
  | nil => rfl
  | cons byte a ih =>
    rw [List.cons_append, feedBytes, feedBytes]
    split
    · rfl
    · dsimp only
      split
      · cases parse hasScheme (d.bytes ++ [byte]) <;> rfl
      · exact ih _

theorem feedBytes_ok {d d' : Decoder} {input rest : List UInt8} {head : Option Head}
    (h : d.feedBytes hasScheme input = .ok (d', head, rest)) :
    (head = none → rest = [] ∧ d'.finished = d.finished) ∧ (head.isSome → d'.finished = true) := by
  induction input generalizing d with
  | nil =>
    cases h
    simp
  | cons byte input ih =>
    rw [feedBytes] at h
    split at h
    · cases h
    · dsimp only at h
      split at h
      · cases hp : parse hasScheme (d.bytes ++ [byte]) with
        | error e =>
          rw [hp] at h
          cases h
        | ok parsed =>
          rw [hp] at h
          cases h
          simp
      · obtain ⟨hnone, hsome⟩ := ih h
        exact ⟨hnone, hsome⟩

theorem feed_new (input : List UInt8) :
    (Decoder.new maxHead).feed hasScheme input = (Decoder.new maxHead).feedBytes hasScheme input := rfl

end Decoder

theorem response_append {output : List UInt8} {d : Decoder} {head : Head} {body : List UInt8}
    (h : (Decoder.new maxHead).feed hasScheme output = .ok (d, some head, body)) (more : List UInt8) :
    (Decoder.new maxHead).feed hasScheme (output ++ more) = .ok (d, some head, body ++ more) := by
  rw [Decoder.feed_new] at h ⊢
  rw [Decoder.feedBytes_append, h]

theorem response_some {output : List UInt8} {head : Head} {body : List UInt8} :
    response hasScheme maxHead output = some (head, body) ↔
      ∃ d, (Decoder.new maxHead).feed hasScheme output = .ok (d, some head, body) := by
  unfold response
  constructor
  · intro h
    split at h
    · rename_i d head' body' hf
      cases h
      exact ⟨d, hf⟩
    · cases h
  · rintro ⟨d, hd⟩
    rw [hd]

theorem response_more {output : List UInt8} {head : Head} {body : List UInt8}
    (h : response hasScheme maxHead output = some (head, body)) (more : List UInt8) :
    response hasScheme maxHead (output ++ more) = some (head, body ++ more) := by
  obtain ⟨d, hd⟩ := response_some.1 h
  exact response_some.2 ⟨d, response_append hd more⟩

/-- An output that no more bytes can complete. -/
theorem not_whole_of_error {output : List UInt8} {e : ProtocolError}
    (h : (Decoder.new maxHead).feed hasScheme output = .error e) (more : List UInt8) :
    ¬ Whole hasScheme headRequest maxHead (output ++ more) := by
  rintro ⟨head, body, hr, -⟩
  obtain ⟨d, hd⟩ := response_some.1 hr
  rw [Decoder.feed_new] at h hd
  rw [Decoder.feedBytes_append, h] at hd
  cases hd

theorem not_whole_of_unfit {output : List UInt8} {head : Head} {body : List UInt8}
    (hr : response hasScheme maxHead output = some (head, body)) (h : ¬ Fits headRequest head body) (more : List UInt8) :
    ¬ Whole hasScheme headRequest maxHead (output ++ more) := by
  rintro ⟨head', body', hr', hlt, hfull⟩
  rw [response_more hr more] at hr'
  cases hr'
  rw [List.length_append] at hlt hfull
  apply h
  refine ⟨by omega, ?_⟩
  intro n hn
  have hlen := hfull n hn
  omega

/-- What no end was called for stays a part of a longer output. -/
theorem Delivered.more {output : List UInt8} {calls : List Call} (h : Delivered hasScheme headRequest maxHead output calls)
    (hf : .finish ∉ calls) (more : List UInt8) : Delivered hasScheme headRequest maxHead (output ++ more) calls := by
  cases h with
  | nothing => exact .nothing
  | @part head body pieces hr hne hp hshort =>
    refine .part (response_more hr more) hne ?_ hshort
    cases more with
    | nil => rwa [List.append_nil]
    | cons byte more =>
      rw [List.dropLast_append_of_ne_nil (List.cons_ne_nil _ _)]
      exact hp.trans ((List.dropLast_prefix body).trans (List.prefix_append _ _))
  | whole hr hne hp hfull => exact absurd (by simp) hf

/-- Nothing has failed yet: the head is still being read, or all but the last byte of the body is out. -/
inductive Holds (hasScheme : String → Bool) (headRequest : Bool) (maxHead : Nat) (output : List UInt8) : Receiver → Prop
  | waiting {d : Decoder} (hf : (Decoder.new maxHead).feed hasScheme output = .ok (d, none, []))
      (hd : d.finished = false) : Holds hasScheme headRequest maxHead output ⟨d, none, none, []⟩
  | started {d : Decoder} {head : Head} {body : List UInt8} {pieces : List (List UInt8)}
      (hf : (Decoder.new maxHead).feed hasScheme output = .ok (d, some head, body)) (hd : d.finished = true)
      (hne : [] ∉ pieces) (hp : pieces.flatten = body.dropLast) (hfit : Fits headRequest head body) :
      Holds hasScheme headRequest maxHead output
        ⟨d, some ⟨declared headRequest head, body.length⟩, body.getLast?, .head head :: pieces.map Call.body⟩

theorem observe_ok (expected : Option Nat) (received bytes : Nat) :
    (BodyLength.observe ⟨expected, received⟩ bytes = .ok ⟨expected, received + bytes⟩ ∧
      received + bytes < 2 ^ 64 ∧ ∀ n ∈ expected, received + bytes ≤ n) ∨
    (BodyLength.observe ⟨expected, received⟩ bytes = .error .bodyLength ∧
      ¬ (received + bytes < 2 ^ 64 ∧ ∀ n ∈ expected, received + bytes ≤ n)) := by
  unfold BodyLength.observe
  dsimp only
  split
  · rename_i h
    exact .inr ⟨rfl, fun hc => absurd hc.1 (by omega)⟩
  · rename_i h
    split
    · rename_i ho
      refine .inr ⟨rfl, fun hc => ?_⟩
      obtain ⟨n, hn, hlt⟩ := Option.any_eq_true .. |>.mp ho
      have := hc.2 n hn
      simp at hlt
      omega
    · rename_i ho
      refine .inl ⟨rfl, by omega, fun n hn => ?_⟩
      simp only [Option.any_eq_true, not_exists, not_and] at ho
      have := ho n hn
      simpa using this

/-- A piece behind what is held: one more byte is held instead, the rest goes out. -/
theorem Receiver.forward_started (d : Decoder) {head : Head} {body : List UInt8} (more : List UInt8) {pieces : List (List UInt8)}
    (hne : [] ∉ pieces) (hp : pieces.flatten = body.dropLast) (hfit : Fits headRequest head body) :
    (∃ pieces' : List (List UInt8), [] ∉ pieces' ∧ pieces'.flatten = (body ++ more).dropLast ∧ Fits headRequest head (body ++ more) ∧
      Receiver.forward ⟨d, some ⟨declared headRequest head, body.length⟩, body.getLast?, .head head :: pieces.map Call.body⟩
        more = (⟨d, some ⟨declared headRequest head, (body ++ more).length⟩, (body ++ more).getLast?,
          .head head :: pieces'.map Call.body⟩, none)) ∨
    (¬ Fits headRequest head (body ++ more) ∧
      ∃ e, Receiver.forward ⟨d, some ⟨declared headRequest head, body.length⟩, body.getLast?,
        .head head :: pieces.map Call.body⟩ more =
          (⟨d, some ⟨declared headRequest head, body.length⟩, body.getLast?, .head head :: pieces.map Call.body⟩, some e)) := by
  unfold Receiver.forward
  by_cases hmore : more = []
  · subst hmore
    left
    refine ⟨pieces, hne, ?_, ?_, ?_⟩
    · rwa [List.append_nil]
    · rwa [List.append_nil]
    · rw [if_pos rfl, List.append_nil]
  · rw [if_neg hmore]
    dsimp only
    rcases observe_ok (declared headRequest head) body.length more.length with
      ⟨ho, hlt, hle⟩ | ⟨ho, hnot⟩
    · left
      rw [ho]
      rw [← List.length_append] at hlt hle
      refine ⟨pieces ++ ((body.getLast?.map fun byte => [byte]).toList ++ if 1 < more.length then [more.dropLast] else []),
        ?_, ?_, ⟨hlt, hle⟩, ?_⟩
      · intro hin
        rcases List.mem_append.mp hin with hin | hin
        · exact hne hin
        · rcases List.mem_append.mp hin with hin | hin
          · cases hlast : body.getLast? <;> simp [hlast] at hin
          · split at hin
            · rename_i hlong
              have hnil := List.mem_singleton.mp hin
              have hlen := congrArg List.length hnil
              rw [List.length_dropLast] at hlen
              simp at hlen
              omega
            · cases hin
      · rw [List.dropLast_append_of_ne_nil hmore, List.flatten_append, List.flatten_append, hp, ← List.append_assoc]
        congr 1
        · cases hlast : body.getLast? with
          | none =>
            rw [List.getLast?_eq_none_iff] at hlast
            subst hlast
            rfl
          | some byte =>
            have hb := List.dropLast_append_getLast? byte hlast
            simpa using hb
        · split
          · simp
          · rename_i hshort
            cases more with
            | nil => rfl
            | cons byte more =>
              cases more with
              | nil => rfl
              | cons _ _ => exact absurd (by simp) hshort
      · have hlast : (body ++ more).getLast? = more.getLast? := List.getLast?_append_of_ne_nil _ hmore
        rw [hlast, List.length_append]
        simp only [Receiver.held, List.cons_append, List.map_append, Prod.mk.injEq, and_true, Receiver.mk.injEq, true_and]
        congr 2
        · congr 1
          · cases body.getLast? <;> rfl
          · split <;> rfl
    · right
      rw [ho]
      rw [← List.length_append] at hnot
      exact ⟨hnot, _, rfl⟩

/-- A run that failed here: nothing called after it, and no output to come can complete it. -/
structure Failed (hasScheme : String → Bool) (headRequest : Bool) (maxHead : Nat) (output : List UInt8)
    (calls : List Call) : Prop where
  delivered : Delivered hasScheme headRequest maxHead output calls
  unfinished : .finish ∉ calls
  barred : ∀ more, ¬ Whole hasScheme headRequest maxHead (output ++ more)

theorem finish_not_mem (head : Head) (pieces : List (List UInt8)) : Call.finish ∉ .head head :: pieces.map Call.body := by
  simp

theorem part_of_fits {output : List UInt8} {head : Head} {body body' : List UInt8} {pieces : List (List UInt8)}
    (hr : response hasScheme maxHead output = some (head, body')) (hne : [] ∉ pieces) (hp : pieces.flatten = body.dropLast)
    (hfit : Fits headRequest head body) (hb : body.dropLast <+: body'.dropLast) :
    Delivered hasScheme headRequest maxHead output (.head head :: pieces.map Call.body) := by
  refine .part hr hne (hp ▸ hb) ?_
  intro n hn hpos
  have hle := hfit.2 n hn
  rw [hp, List.length_dropLast]
  omega

theorem Holds.delivered {output : List UInt8} {r : Receiver} (h : Holds hasScheme headRequest maxHead output r) :
    Delivered hasScheme headRequest maxHead output r.calls ∧ .finish ∉ r.calls := by
  cases h with
  | waiting hf hd => exact ⟨.nothing, List.not_mem_nil⟩
  | started hf hd hne hp hfit =>
    exact ⟨part_of_fits (response_some.2 ⟨_, hf⟩) hne hp hfit (List.prefix_refl _), finish_not_mem _ _⟩

theorem dropLast_prefix_append (a b : List UInt8) : a.dropLast <+: (a ++ b).dropLast := by
  cases b with
  | nil => rw [List.append_nil]
  | cons byte b =>
    rw [List.dropLast_append_of_ne_nil (List.cons_ne_nil _ _)]
    exact (List.dropLast_prefix a).trans (List.prefix_append _ _)

/-- A piece of output is taken, or ends it. -/
theorem Holds.take {output : List UInt8} {r : Receiver} (h : Holds hasScheme headRequest maxHead output r)
    (bytes : List UInt8) :
    (∃ r', r.take hasScheme headRequest bytes = (r', none) ∧ Holds hasScheme headRequest maxHead (output ++ bytes) r') ∨
    (∃ r' e, r.take hasScheme headRequest bytes = (r', some e) ∧
      Failed hasScheme headRequest maxHead (output ++ bytes) r'.calls) := by
  cases h with
  | @waiting d hf hd =>
    have hwhole : (Decoder.new maxHead).feed hasScheme (output ++ bytes) = d.feedBytes hasScheme bytes := by
      rw [Decoder.feed_new] at hf ⊢
      rw [Decoder.feedBytes_append, hf]
    have hfeed : d.feed hasScheme bytes = d.feedBytes hasScheme bytes := by
      rw [Decoder.feed, hd]
      rfl
    simp only [Receiver.take, hfeed]
    cases hb : d.feedBytes hasScheme bytes with
    | error e =>
      rw [hb] at hwhole
      exact .inr ⟨_, e, rfl, .nothing, List.not_mem_nil, not_whole_of_error hwhole⟩
    | ok fed =>
      obtain ⟨d', head, body⟩ := fed
      rw [hb] at hwhole
      obtain ⟨hnone, hsome⟩ := Decoder.feedBytes_ok hb
      cases head with
      | none =>
        obtain ⟨rfl, hfin⟩ := hnone rfl
        exact .inl ⟨_, rfl, .waiting hwhole (hfin.trans hd)⟩
      | some head =>
        have hfit : Fits headRequest head [] := ⟨by simp, fun n _ => Nat.zero_le n⟩
        rcases Receiver.forward_started d' body List.not_mem_nil rfl hfit with
          ⟨pieces, hne, hp, hfit', hforward⟩ | ⟨hunfit, e, hforward⟩
        · exact .inl ⟨_, hforward, .started hwhole (hsome rfl) hne hp hfit'⟩
        · have hr := response_some.2 ⟨_, hwhole⟩
          have hpart := part_of_fits hr List.not_mem_nil rfl hfit List.nil_prefix
          exact .inr ⟨_, e, hforward, hpart, finish_not_mem head [], not_whole_of_unfit hr hunfit⟩
  | @started d head body pieces hf hd hne hp hfit =>
    have hwhole := response_append hf bytes
    have hr := response_some.2 ⟨_, hwhole⟩
    simp only [Receiver.take]
    rcases Receiver.forward_started d bytes hne hp hfit with
      ⟨pieces', hne', hp', hfit', hforward⟩ | ⟨hunfit, e, hforward⟩
    · exact .inl ⟨_, hforward, .started hwhole hd hne' hp' hfit'⟩
    · have hpart := part_of_fits hr hne hp hfit (dropLast_prefix_append body bytes)
      exact .inr ⟨_, e, hforward, hpart, finish_not_mem head pieces, not_whole_of_unfit hr hunfit⟩

/-- The checks at the end pass on whole responses. -/
theorem Holds.check {output : List UInt8} {r : Receiver} (h : Holds hasScheme headRequest maxHead output r) :
    (r.check = .ok () ∧ Whole hasScheme headRequest maxHead output ∧
      Delivered hasScheme headRequest maxHead output r.conclude.calls) ∨
    (∃ e, r.check = .error e ∧ ¬ Whole hasScheme headRequest maxHead output) := by
  cases h with
  | @waiting d hf hd =>
    right
    refine ⟨.incompleteResponse, ?_, ?_⟩
    · simp only [Receiver.check, Decoder.eof, hd]
      rfl
    · rintro ⟨head, body, hr, -⟩
      obtain ⟨d', hd'⟩ := response_some.1 hr
      rw [hf] at hd'
      cases hd'
  | @started d head body pieces hf hd hne hp hfit =>
    have hr := response_some.2 ⟨_, hf⟩
    by_cases hfull : ∀ n ∈ declared headRequest head, body.length = n
    · left
      refine ⟨?_, ⟨head, body, hr, hfit.1, hfull⟩, ?_⟩
      · have hany : (declared headRequest head).any (fun x => decide (x ≠ body.length)) = false := by
          rw [Option.any_eq_false]
          intro n hn
          have := hfull n hn
          simp [this]
        simp only [Receiver.check, Decoder.eof, hd, BodyLength.finish, hany]
        rfl
      · have hpieces := @Delivered.whole _ headRequest _ _ _ _
          (pieces ++ (body.getLast?.map fun byte => [byte]).toList) hr ?_ ?_ hfull
        · have hc : (Receiver.conclude ⟨d, some ⟨declared headRequest head, body.length⟩, body.getLast?,
              .head head :: pieces.map Call.body⟩).calls =
              .head head :: (pieces ++ (body.getLast?.map fun byte => [byte]).toList).map Call.body ++ [.finish] := by
            simp only [Receiver.conclude, Receiver.held, List.map_append]
            cases body.getLast? <;> simp
          rw [hc]
          exact hpieces
        · intro hin
          rcases List.mem_append.mp hin with hin | hin
          · exact hne hin
          · cases hlast : body.getLast? <;> simp [hlast] at hin
        · rw [List.flatten_append, hp]
          cases hlast : body.getLast? with
          | none =>
            rw [List.getLast?_eq_none_iff] at hlast
            subst hlast
            rfl
          | some byte =>
            have hb := List.dropLast_append_getLast? byte hlast
            simpa using hb
    · right
      refine ⟨.bodyLength, ?_, ?_⟩
      · have hany : (declared headRequest head).any (fun x => decide (x ≠ body.length)) = true := by
          rw [Option.any_eq_true]
          push Not at hfull
          obtain ⟨n, hn, hne'⟩ := hfull
          exact ⟨n, hn, by simp [Ne.symm hne']⟩
        simp only [Receiver.check, Decoder.eof, hd, BodyLength.finish, hany]
        rfl
      · rintro ⟨head', body', hr', -, hfull'⟩
        rw [hr] at hr'
        cases hr'
        exact hfull hfull'

end

end Gatel.Cgi
