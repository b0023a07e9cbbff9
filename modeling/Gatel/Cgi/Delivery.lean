import Gatel.Cgi.Transports

namespace Gatel.Cgi
open Run (run run_append run_cons run_nil)

/-- What is called for an output, given whether the transport has ended properly and whether it goes on. -/
structure Delivers (hasScheme : String → Bool) (headRequest : Bool) (maxHead : Nat) (output : List UInt8) (ended : Prop)
    (running : Bool) (calls : List Call) : Prop where
  delivered : Delivered hasScheme headRequest maxHead output calls
  /-- The end is called exactly for whole responses of transports that ended properly. -/
  finished : .finish ∈ calls ↔ ended ∧ Whole hasScheme headRequest maxHead output
  /-- As long as nothing has failed, everything but the last byte is passed on at once. -/
  passed : running = true → ∀ head body, response hasScheme maxHead output = some (head, body) →
    .head head ∈ calls ∧ calls.flatMap Call.bytes = body.dropLast

section
variable {hasScheme : String → Bool} {headRequest : Bool} {maxHead : Nat}

theorem flatMap_bytes (head : Head) (pieces : List (List UInt8)) :
    (Call.head head :: pieces.map Call.body).flatMap Call.bytes = pieces.flatten := by
  rw [List.flatMap_cons, List.flatMap_map, Call.bytes, List.nil_append]
  exact List.flatMap_id

theorem Holds.delivers {output : List UInt8} {r : Receiver} {ended : Prop}
    (h : Holds hasScheme headRequest maxHead output r) (hended : ¬ ended) (running : Bool) :
    Delivers hasScheme headRequest maxHead output ended running r.calls := by
  obtain ⟨hd, hf⟩ := h.delivered
  refine ⟨hd, ⟨fun hin => absurd hin hf, fun hw => absurd hw.1 hended⟩, ?_⟩
  intro _ head body hr
  obtain ⟨d, hd'⟩ := response_some.mp hr
  cases h with
  | waiting hfeed _ =>
    rw [hfeed] at hd'
    cases hd'
  | started hfeed _ hne hp hfit =>
    rw [hfeed] at hd'
    cases hd'
    exact ⟨List.mem_cons_self, (flatMap_bytes _ _).trans hp⟩

theorem Failed.delivers {output : List UInt8} {calls : List Call} (h : Failed hasScheme headRequest maxHead output calls)
    (more : List UInt8) (ended : Prop) : Delivers hasScheme headRequest maxHead (output ++ more) ended false calls := by
  refine ⟨h.delivered.more h.unfinished more, ⟨fun hin => absurd hin h.unfinished, fun hw => absurd hw.2 (h.barred more)⟩, ?_⟩
  intro hn
  cases hn

/-- The end of the output, in order. -/
theorem Holds.closes {output : List UInt8} {r : Receiver} (h : Holds hasScheme headRequest maxHead output r) :
    (r.check = .ok () ∧ Whole hasScheme headRequest maxHead output ∧
      Delivers hasScheme headRequest maxHead output True false r.conclude.calls) ∨
    (∃ e, r.check = .error e ∧ ¬ Whole hasScheme headRequest maxHead output ∧
      ∀ ended, Delivers hasScheme headRequest maxHead output ended false r.calls) := by
  rcases h.check with ⟨hc, hw, hd⟩ | ⟨e, hc, hw⟩
  · refine .inl ⟨hc, hw, hd, ⟨fun _ => ⟨trivial, hw⟩, fun _ => ?_⟩, fun hn => (by cases hn)⟩
    simp [Receiver.conclude]
  · obtain ⟨hd, hf⟩ := h.delivered
    exact .inr ⟨e, hc, hw, fun ended => ⟨hd, ⟨fun hin => absurd hin hf, fun h => absurd h.2 hw⟩, fun hn => (by cases hn)⟩⟩

theorem Delivers.congr {output : List UInt8} {a b : Prop} {running : Bool} {calls : List Call}
    (h : Delivers hasScheme headRequest maxHead output a running calls) (hab : a ↔ b) :
    Delivers hasScheme headRequest maxHead output b running calls :=
  ⟨h.delivered, h.finished.trans (and_congr_left fun _ => hab), h.passed⟩

theorem holds_new (hasScheme : String → Bool) (headRequest : Bool) (maxHead : Nat) :
    Holds hasScheme headRequest maxHead [] (.new maxHead) := .waiting rfl rfl

theorem untilEnd_cons {bytes : List UInt8} (h : bytes ≠ []) (reads : List (List UInt8)) :
    untilEnd (bytes :: reads) = bytes ++ untilEnd reads := by
  simp [untilEnd, h]

theorem Scgi.receive_delivers {done : List UInt8} {r : Receiver} (h : Holds hasScheme headRequest maxHead done r)
    (fault : Option Fault) (reads : List (List UInt8)) :
    Delivers hasScheme headRequest maxHead (done ++ untilEnd reads) ([] ∈ reads)
      (Scgi.receive hasScheme headRequest fault r reads).2.isNone
      (Scgi.receive hasScheme headRequest fault r reads).1.calls := by
  induction reads generalizing done r with
  | nil =>
    rw [untilEnd, List.takeWhile_nil, List.flatten_nil, List.append_nil]
    exact h.delivers List.not_mem_nil _
  | cons bytes reads ih =>
    rw [Scgi.receive]
    by_cases hb : bytes = []
    · subst hb
      rw [if_pos rfl]
      have hend : done ++ untilEnd ([] :: reads) = done := by simp [untilEnd]
      rw [hend]
      rcases h.closes with ⟨hc, hw, hd⟩ | ⟨e, hc, hw, hd⟩
      · rw [hc]
        exact hd.congr (by simp)
      · rw [hc]
        exact hd _
    · rw [if_neg hb, untilEnd_cons hb, ← List.append_assoc]
      have hmem : ([] ∈ bytes :: reads) ↔ [] ∈ reads := by simp [Ne.symm hb]
      rcases h.take bytes with ⟨r', ht, hr'⟩ | ⟨r', e, ht, hr'⟩
      · rw [ht]
        exact (ih hr').congr hmem.symm
      · rw [ht]
        exact hr'.delivers _ _

/-! The exchange over the pipes of a process. -/

namespace Stdio

theorem output_append (es more : List Event) :
    output (es ++ more) = if .stdout [] ∈ es then output es else output es ++ output more := by
  have hmem : [] ∈ es.filterMap Event.read? ↔ .stdout [] ∈ es := by
    rw [List.mem_filterMap]
    constructor
    · rintro ⟨e, he, hread⟩
      cases e <;> cases hread
      exact he
    · exact fun he => ⟨_, he, rfl⟩
  rw [output, untilEnd, List.filterMap_append, List.takeWhile_append]
  by_cases hin : .stdout [] ∈ es
  · rw [if_pos hin, if_neg]
    · rfl
    · intro hlen
      have hall := List.takeWhile_eq_self_iff.mp ((List.takeWhile_prefix _).eq_of_length hlen)
      simpa using hall [] (hmem.mpr hin)
  · have hall : (es.filterMap Event.read?).takeWhile (· ≠ []) = es.filterMap Event.read? := by
      rw [List.takeWhile_eq_self_iff]
      intro bytes hb
      have hne : bytes ≠ [] := by
        rintro rfl
        exact hin (hmem.mp hb)
      simp [hne]
    rw [if_neg hin, hall, if_pos rfl, List.flatten_append, output, untilEnd, hall]
    rfl

theorem stderrTotal_append (es more : List Event) :
    stderrTotal (es ++ more) = if .stderr 0 ∈ es then stderrTotal es else stderrTotal es + stderrTotal more := by
  have hmem : 0 ∈ es.filterMap Event.count? ↔ .stderr 0 ∈ es := by
    rw [List.mem_filterMap]
    constructor
    · rintro ⟨e, he, hread⟩
      cases e <;> cases hread
      exact he
    · exact fun he => ⟨_, he, rfl⟩
  rw [stderrTotal, List.filterMap_append, List.takeWhile_append]
  by_cases hin : .stderr 0 ∈ es
  · rw [if_pos hin, if_neg]
    · rfl
    · intro hlen
      have hall := List.takeWhile_eq_self_iff.mp ((List.takeWhile_prefix _).eq_of_length hlen)
      simpa using hall 0 (hmem.mpr hin)
  · have hall : (es.filterMap Event.count?).takeWhile (· ≠ 0) = es.filterMap Event.count? := by
      rw [List.takeWhile_eq_self_iff]
      intro count hb
      have hne : count ≠ 0 := by
        rintro rfl
        exact hin (hmem.mp hb)
      simp [hne]
    rw [if_neg hin, hall, if_pos rfl, List.sum_append, stderrTotal, hall]
    rfl

variable {maxStderr : Nat}

theorem clean_nil : Clean maxStderr [] := by
  intro before e after h
  simp at h

theorem clean_concat {es : List Event} {e : Event} :
    Clean maxStderr (es ++ [e]) ↔ Clean maxStderr es ∧ ¬ Fails maxStderr es e := by
  constructor
  · intro h
    refine ⟨fun before e' after he => ?_, h es e [] rfl⟩
    exact h before e' (after ++ [e]) (by rw [he, List.append_assoc, List.cons_append])
  · rintro ⟨h, hf⟩ before e' after he
    rcases List.eq_nil_or_concat' after with rfl | ⟨after, last, rfl⟩
    · obtain ⟨hes, hlast⟩ := List.append_inj' he rfl
      cases hlast
      exact hes ▸ hf
    · rw [← List.cons_append, ← List.append_assoc] at he
      exact h before e' after (List.append_inj' he rfl).1

theorem Closed.mono {a b : List Event} (h : Closed a) (hab : a <+: b) : Closed b :=
  ⟨hab.subset h.1, hab.subset h.2.1, hab.subset h.2.2⟩

/-- What happened before both streams and the process were done cannot be made good. -/
theorem not_ended_of_fails {es : List Event} {e : Event} (hc : ¬ Closed es) (hf : Fails maxStderr es e)
    (more : List Event) : ¬ Ended maxStderr (es ++ [e] ++ more) := by
  rintro ⟨first, hfirst, hclean, hclosed⟩
  have hes : es ++ [e] <+: es ++ [e] ++ more := List.prefix_append _ _
  rcases List.prefix_or_prefix_of_prefix hfirst hes with h | h
  · rcases List.prefix_concat_iff.mp h with rfl | h
    · exact (clean_concat.1 hclean).2 hf
    · exact hc (hclosed.mono h)
  · obtain ⟨rest, rfl⟩ := h
    exact hclean es e rest (by simp) hf

/-- Where an exchange stands after `es`: it goes on, or it has ended well, or it never will. -/
inductive Stands (hasScheme : String → Bool) (headRequest : Bool) (maxHead maxStderr : Nat) (es : List Event) :
    Exchange → Prop
  | running {x : Exchange} (hr : x.result = none) (hclean : Clean maxStderr es) (hclosed : ¬ Closed es)
      (holds : Holds hasScheme headRequest maxHead (output es) x.receiver)
      (ht : x.transferred = true ↔ .stdout [] ∈ es) (hw : x.transferred = true → x.receiver.check = .ok ())
      (hd : x.drained = true ↔ .stderr 0 ∈ es) (hs : x.stderrBytes = stderrTotal es) (hb : x.stderrBytes ≤ maxStderr)
      (he : x.exited = true ↔ .exited true ∈ es) (hu : x.uploaded = true ↔ .uploaded (.ok ()) ∈ es) :
      Stands hasScheme headRequest maxHead maxStderr es x
  | finished {x : Exchange} {n : Nat} (hr : x.result = some (.ok n)) (hended : Ended maxStderr es)
      (h : Delivers hasScheme headRequest maxHead (output es) True false x.receiver.calls) :
      Stands hasScheme headRequest maxHead maxStderr es x
  | failed {x : Exchange} {e : Error} (hr : x.result = some (.error e))
      (h : ∀ more, Delivers hasScheme headRequest maxHead (output (es ++ more)) (Ended maxStderr (es ++ more)) false
        x.receiver.calls) :
      Stands hasScheme headRequest maxHead maxStderr es x

section
variable {es : List Event} {x : Exchange}

theorem output_extends (es more : List Event) : ∃ later, output (es ++ more) = output es ++ later := by
  rw [output_append]
  split
  · exact ⟨[], (List.append_nil _).symm⟩
  · exact ⟨_, rfl⟩

theorem output_concat_read (bytes : List UInt8) (h : .stdout [] ∉ es) :
    output (es ++ [.stdout bytes]) = output es ++ bytes := by
  rw [output_append, if_neg h]
  by_cases hb : bytes = []
  · subst hb
    rfl
  · simp [output, untilEnd, Event.read?, hb]

theorem output_concat {e : Event} (h : e.read? = none) : output (es ++ [e]) = output es := by
  rw [output_append]
  split
  · rfl
  · simp [output, untilEnd, h]

theorem stderrTotal_concat {e : Event} (h : e.count? = none) : stderrTotal (es ++ [e]) = stderrTotal es := by
  rw [stderrTotal_append]
  split
  · rfl
  · simp [stderrTotal, h]

theorem stderrTotal_concat_count (count : Nat) (h : .stderr 0 ∉ es) :
    stderrTotal (es ++ [.stderr count]) = stderrTotal es + count := by
  rw [stderrTotal_append, if_neg h]
  by_cases hb : count = 0
  · subst hb
    rfl
  · simp [stderrTotal, Event.count?, hb]

theorem Exchange.settle_open (h : ¬ (x.transferred = true ∧ x.drained = true ∧ x.exited = true)) : x.settle = x := by
  rw [Exchange.settle, if_neg]
  simpa [and_assoc] using h

/-- Once everything an exchange has seen is accounted for, it is over or goes on. -/
theorem stands_settle (hr : x.result = none) (hclean : Clean maxStderr es)
    (holds : Holds hasScheme headRequest maxHead (output es) x.receiver)
    (ht : x.transferred = true ↔ .stdout [] ∈ es) (hw : x.transferred = true → x.receiver.check = .ok ())
    (hd : x.drained = true ↔ .stderr 0 ∈ es) (hs : x.stderrBytes = stderrTotal es) (hb : x.stderrBytes ≤ maxStderr)
    (he : x.exited = true ↔ .exited true ∈ es) (hu : x.uploaded = true ↔ .uploaded (.ok ()) ∈ es) :
    Stands hasScheme headRequest maxHead maxStderr es x.settle := by
  by_cases hall : x.transferred = true ∧ x.drained = true ∧ x.exited = true
  · obtain ⟨h1, h2, h3⟩ := hall
    have hsettle : x.settle = { x with receiver := x.receiver.conclude, result := some (.ok x.stderrBytes) } := by
      simp [Exchange.settle, h1, h2, h3]
    rw [hsettle]
    refine .finished rfl ⟨es, List.prefix_refl _, hclean, ht.mp h1, hd.mp h2, he.mp h3⟩ ?_
    rcases holds.closes with ⟨-, -, hdel⟩ | ⟨e, hc, -⟩
    · exact hdel
    · rw [hw h1] at hc
      cases hc
  · rw [Exchange.settle_open hall]
    refine .running hr hclean ?_ holds ht hw hd hs hb he hu
    rintro ⟨h1, h2, h3⟩
    exact hall ⟨ht.mpr h1, hd.mpr h2, he.mpr h3⟩

/-- An event after which the exchange cannot end properly any more. -/
theorem stands_fail {e : Event} (hclosed : ¬ Closed es) (holds : Holds hasScheme headRequest maxHead (output es) x.receiver)
    (hf : Fails maxStderr es e) (error : Error) :
    Stands hasScheme headRequest maxHead maxStderr (es ++ [e]) (x.fail error) := by
  refine .failed rfl fun more => ?_
  have hno := not_ended_of_fails hclosed hf more
  obtain ⟨later, hlater⟩ := output_extends es ([e] ++ more)
  rw [← List.append_assoc] at hlater
  rw [hlater]
  obtain ⟨hd, hfin⟩ := holds.delivered
  exact ⟨hd.more hfin later, ⟨fun hin => absurd hin hfin, fun h => absurd h.1 hno⟩, fun hn => (by cases hn)⟩

theorem Stands.read {bytes : List UInt8} (h : Stands hasScheme headRequest maxHead maxStderr es x)
    (hr : x.result = none) (ht : x.transferred = false) :
    Stands hasScheme headRequest maxHead maxStderr (es ++ [.stdout bytes]) (x.read hasScheme headRequest bytes) := by
  cases h with
  | finished hr' => rw [hr] at hr'; cases hr'
  | failed hr' => rw [hr] at hr'; cases hr'
  | running _ hclean hclosed holds htr hw hd hs hbudget he hu =>
    have hopen : .stdout [] ∉ es := fun hin => by
      rw [htr.mpr hin] at ht
      cases ht
    have hclean' : Clean maxStderr (es ++ [.stdout bytes]) := clean_concat.2 ⟨hclean, id⟩
    have hs' : x.stderrBytes = stderrTotal (es ++ [.stdout bytes]) := by rw [hs, stderrTotal_concat rfl]
    have hout := output_concat_read bytes hopen
    unfold Exchange.read
    by_cases hb : bytes = []
    · subst hb
      rw [if_pos rfl]
      rw [List.append_nil] at hout
      rcases holds.closes with ⟨hc, -, -⟩ | ⟨e, hc, hnw, hdel⟩
      · rw [hc]
        refine stands_settle hr hclean' (hout ▸ holds) ?_ (fun _ => hc) ?_ hs' hbudget ?_ ?_
        · simp
        · simpa using hd
        · simpa using he
        · simpa using hu
      · rw [hc]
        refine .failed rfl fun more => ?_
        rw [output_append, if_pos (by simp), hout]
        exact hdel _
    · rw [if_neg hb]
      rcases holds.take bytes with ⟨r', htake, hr'⟩ | ⟨r', e, htake, hr'⟩
      · rw [htake]
        have hsettle := @stands_settle _ _ _ maxStderr (es ++ [.stdout bytes]) { x with receiver := r' } hr hclean' (hout ▸ hr') ?_ ?_ ?_ hs' hbudget ?_ ?_
        · rwa [Exchange.settle_open] at hsettle
          rw [ht]
          simp
        · simpa [Ne.symm hb] using htr
        · intro hn
          rw [ht] at hn
          cases hn
        · simpa using hd
        · simpa using he
        · simpa using hu
      · rw [htake]
        refine .failed rfl fun more => ?_
        obtain ⟨later, hlater⟩ := output_extends (es ++ [.stdout bytes]) more
        rw [hlater, hout]
        exact hr'.delivers later _

theorem mem_concat_of {e f : Event} (h : e = f → f ∈ es) : f ∈ es ++ [e] ↔ f ∈ es := by
  rw [List.mem_append, List.mem_singleton]
  exact ⟨fun hin => hin.elim id fun he => h he.symm, .inl⟩

/-- An event of a source that is over, or of the upload, changes nothing the end depends on. -/
theorem stands_same {e : Event} (h : Stands hasScheme headRequest maxHead maxStderr es x) (hr : x.result = none)
    (hf : ¬ Fails maxStderr es e) (hout : output (es ++ [e]) = output es) (htotal : stderrTotal (es ++ [e]) = stderrTotal es)
    (hstdout : e = .stdout [] → .stdout [] ∈ es) (hstderr : e = .stderr 0 → .stderr 0 ∈ es)
    (hexit : e = .exited true → .exited true ∈ es) :
    Stands hasScheme headRequest maxHead maxStderr (es ++ [e])
      { x with uploaded := x.uploaded || decide (e = .uploaded (.ok ())) } := by
  cases h with
  | finished hr' => rw [hr] at hr'; cases hr'
  | failed hr' => rw [hr] at hr'; cases hr'
  | running _ hclean hclosed holds ht hw hd hs hbudget he hu =>
    have hsettle := @stands_settle _ _ _ maxStderr (es ++ [e])
      { x with uploaded := x.uploaded || decide (e = .uploaded (.ok ())) }
      hr (clean_concat.2 ⟨hclean, hf⟩) (hout ▸ holds) (ht.trans (mem_concat_of hstdout).symm) hw
      (hd.trans (mem_concat_of hstderr).symm) (htotal ▸ hs) hbudget (he.trans (mem_concat_of hexit).symm)
      (by rw [Bool.or_eq_true, decide_eq_true_iff, hu, List.mem_append, List.mem_singleton, eq_comm])
    rwa [Exchange.settle_open] at hsettle
    rintro ⟨h1, h2, h3⟩
    exact hclosed ⟨ht.mp h1, hd.mp h2, he.mp h3⟩

theorem Stands.drain {count : Nat} (h : Stands hasScheme headRequest maxHead maxStderr es x)
    (hr : x.result = none) (hopen : x.drained = false) :
    Stands hasScheme headRequest maxHead maxStderr (es ++ [.stderr count]) (x.drain maxStderr count) := by
  cases h with
  | finished hr' => rw [hr] at hr'; cases hr'
  | failed hr' => rw [hr] at hr'; cases hr'
  | running _ hclean hclosed holds ht hw hd hs hbudget he hu =>
    have hnot : .stderr 0 ∉ es := fun hin => by
      rw [hd.mpr hin] at hopen
      cases hopen
    have htotal := stderrTotal_concat_count count hnot
    have hout : output (es ++ [.stderr count]) = output es := output_concat rfl
    unfold Exchange.drain
    by_cases hzero : count = 0
    · subst hzero
      rw [if_pos rfl]
      -- the budget was kept so far, and the end adds nothing
      have hf : ¬ Fails maxStderr es (.stderr 0) := by
        rintro ⟨-, hlt⟩
        omega
      refine stands_settle hr (clean_concat.2 ⟨hclean, hf⟩) (hout ▸ holds) ?_ hw ?_ ?_ hbudget ?_ ?_
      · simpa using ht
      · simp
      · rw [htotal, hs, Nat.add_zero]
      · simpa using he
      · simpa using hu
    · rw [if_neg hzero]
      split
      · rename_i hle
        have hf : ¬ Fails maxStderr es (.stderr count) := by
          rintro ⟨-, hlt⟩
          omega
        have hsettle := @stands_settle _ _ _ maxStderr (es ++ [.stderr count])
          { x with stderrBytes := x.stderrBytes + count } hr (clean_concat.2 ⟨hclean, hf⟩) (hout ▸ holds) ?_ hw ?_ ?_ hle ?_ ?_
        · rwa [Exchange.settle_open] at hsettle
          rw [hopen]
          simp
        · simpa using ht
        · simpa [Ne.symm hzero] using hd
        · rw [htotal, hs]
        · simpa using he
        · simpa using hu
      · rename_i hgt
        have hf : Fails maxStderr es (.stderr count) := ⟨hnot, by omega⟩
        exact stands_fail hclosed holds hf _

/-- One event, whatever it is. -/
theorem Stands.step (h : Stands hasScheme headRequest maxHead maxStderr es x) (e : Event) :
    Stands hasScheme headRequest maxHead maxStderr (es ++ [e]) (x.step hasScheme headRequest maxStderr e) := by
  unfold Exchange.step
  cases h with
  | @finished n hr hended hdel =>
    rw [if_pos (by rw [hr, Option.isSome_some])]
    obtain ⟨first, hfirst, hclean, hclosed⟩ := hended
    have hin : .stdout [] ∈ es := hfirst.subset hclosed.1
    refine .finished hr ⟨first, hfirst.trans (List.prefix_append _ _), hclean, hclosed⟩ ?_
    rwa [output_append, if_pos hin]
  | @failed error hr hdel =>
    rw [if_pos (by rw [hr, Option.isSome_some])]
    refine .failed hr fun more => ?_
    rw [List.append_assoc]
    exact hdel _
  | running hr hclean hclosed holds ht hw hd hs hbudget he hu =>
    have hx : Stands hasScheme headRequest maxHead maxStderr es x :=
      .running hr hclean hclosed holds ht hw hd hs hbudget he hu
    rw [if_neg (by simp [hr])]
    cases e with
    | stdout bytes =>
      dsimp only
      split
      · rename_i htrans
        have hin := ht.mp htrans
        have hf : ¬ Fails maxStderr es (.stdout bytes) := id
        have hout : output (es ++ [.stdout bytes]) = output es := by rw [output_append, if_pos hin]
        simpa using stands_same hx hr hf hout (stderrTotal_concat rfl) (fun _ => hin) (by simp) (by simp)
      · rename_i hopen
        exact hx.read hr (by simpa using hopen)
    | stdoutFault f =>
      dsimp only
      split
      · rename_i htrans
        have hf : ¬ Fails maxStderr es (.stdoutFault f) := fun hf => hf (ht.mp htrans)
        simpa using stands_same hx hr hf (output_concat rfl) (stderrTotal_concat rfl) (by simp) (by simp) (by simp)
      · rename_i hopen
        have hf : Fails maxStderr es (.stdoutFault f) := fun hin => hopen (ht.mpr hin)
        exact stands_fail hclosed holds hf _
    | stderr count =>
      dsimp only
      split
      · rename_i hdrained
        have hin := hd.mp hdrained
        have hf : ¬ Fails maxStderr es (.stderr count) := fun hf => hf.1 hin
        have htotal : stderrTotal (es ++ [.stderr count]) = stderrTotal es := by rw [stderrTotal_append, if_pos hin]
        simpa using stands_same hx hr hf (output_concat rfl) htotal (by simp) (fun _ => hin) (by simp)
      · rename_i hopen
        exact hx.drain hr (by simpa using hopen)
    | stderrFault =>
      dsimp only
      split
      · rename_i hdrained
        have hf : ¬ Fails maxStderr es .stderrFault := fun hf => hf (hd.mp hdrained)
        simpa using stands_same hx hr hf (output_concat rfl) (stderrTotal_concat rfl) (by simp) (by simp) (by simp)
      · rename_i hopen
        have hf : Fails maxStderr es .stderrFault := fun hin => hopen (hd.mpr hin)
        exact stands_fail hclosed holds hf _
    | uploaded result =>
      cases result with
      | ok u =>
        have hf : ¬ Fails maxStderr es (.uploaded (.ok u)) := id
        simpa using stands_same hx hr hf (output_concat rfl) (stderrTotal_concat rfl) (by simp) (by simp) (by simp)
      | error error =>
        dsimp only
        split
        · rename_i hover
          have hf : ¬ Fails maxStderr es (.uploaded (.error error)) := by
            rintro ⟨h1, h2⟩
            rcases Bool.or_eq_true _ _ |>.mp hover with h | h
            · exact h1 (ht.mp h)
            · exact h2 (hu.mp h)
          simpa using stands_same hx hr hf (output_concat rfl) (stderrTotal_concat rfl) (by simp) (by simp) (by simp)
        · rename_i hopen
          rw [Bool.or_eq_true, not_or] at hopen
          have hf : Fails maxStderr es (.uploaded (.error error)) :=
            ⟨fun hin => hopen.1 (ht.mpr hin), fun hin => hopen.2 (hu.mpr hin)⟩
          exact stands_fail hclosed holds hf _
    | exited success =>
      dsimp only
      split
      · rename_i hex
        have hin := he.mp hex
        have hf : ¬ Fails maxStderr es (.exited success) := fun hf => hf.2 hin
        simpa using stands_same hx hr hf (output_concat rfl) (stderrTotal_concat rfl) (by simp) (by simp) (fun _ => hin)
      · rename_i hopen
        have hnot : .exited true ∉ es := fun hin => hopen (he.mpr hin)
        cases success with
        | false =>
          have hf : Fails maxStderr es (.exited false) := ⟨rfl, hnot⟩
          exact stands_fail hclosed holds hf _
        | true =>
          have hf : ¬ Fails maxStderr es (.exited true) := by
            rintro ⟨hfalse, -⟩
            cases hfalse
          rw [if_pos rfl]
          refine stands_settle hr (clean_concat.2 ⟨hclean, hf⟩) ?_ ?_ hw ?_ ?_ hbudget ?_ ?_
          · rwa [output_concat rfl]
          · simpa using ht
          · simpa using hd
          · rw [hs, stderrTotal_concat rfl]
          · simp
          · simpa using hu
    | exitFault =>
      dsimp only
      split
      · rename_i hex
        have hf : ¬ Fails maxStderr es .exitFault := fun hf => hf (he.mp hex)
        simpa using stands_same hx hr hf (output_concat rfl) (stderrTotal_concat rfl) (by simp) (by simp) (by simp)
      · rename_i hopen
        have hf : Fails maxStderr es .exitFault := fun hin => hopen (he.mpr hin)
        exact stands_fail hclosed holds hf _
    | elapsed =>
      have hf : Fails maxStderr es .elapsed := trivial
      exact stands_fail hclosed holds hf _

theorem stands_new : Stands hasScheme headRequest maxHead maxStderr [] (.new maxHead) := by
  refine .running rfl clean_nil ?_ (holds_new hasScheme headRequest maxHead) ?_ ?_ ?_ rfl (Nat.zero_le _) ?_ ?_
  · rintro ⟨h, -⟩
    cases h
  all_goals simp [Exchange.new]

theorem stands_run (hasScheme : String → Bool) (headRequest : Bool) (maxHead maxStderr : Nat) (es : List Event) :
    Stands hasScheme headRequest maxHead maxStderr es
      (run (Exchange.step hasScheme headRequest maxStderr) (.new maxHead) es) := by
  induction es using List.reverseRecOn with
  | nil => exact stands_new
  | append_singleton es e ih =>
    rw [run_append]
    exact ih.step e

theorem Stands.delivers (h : Stands hasScheme headRequest maxHead maxStderr es x) :
    Delivers hasScheme headRequest maxHead (output es) (Ended maxStderr es) x.result.isNone x.receiver.calls := by
  cases h with
  | running hr hclean hclosed holds =>
    rw [hr]
    refine holds.delivers ?_ true
    rintro ⟨first, hfirst, -, hc⟩
    exact hclosed (hc.mono hfirst)
  | finished hr hended hdel =>
    rw [hr]
    exact hdel.congr ⟨fun _ => hended, fun _ => trivial⟩
  | failed hr hdel =>
    rw [hr]
    have h := hdel []
    rwa [List.append_nil] at h

end

end Stdio

/-! The records of FastCGI. -/

namespace Fastcgi
variable {maxStderr : Nat}

/-- What the responder knows of the records so far. -/
structure Tracks (maxStderr : Nat) (frames : List Frame) (r : Responder) : Prop where
  streams : Streams maxStderr frames
  ended : r.ended = false
  limit : r.stderrLimit = maxStderr
  stdout : r.stdoutClosed = true ↔ ∃ f ∈ frames, f.kind = stdoutKind ∧ f.body = []
  stderr : r.stderrClosed = true ↔ ∃ f ∈ frames, f.kind = stderrKind ∧ f.body = []
  bytes : r.stderrBytes = ((frames.filter (·.kind == stderrKind)).map (·.body.length)).sum

theorem tracks_new : Tracks maxStderr [] (.new maxStderr) where
  streams := ⟨by simp, by simp, List.Pairwise.nil, Nat.zero_le _⟩
  ended := rfl
  limit := rfl
  stdout := by simp [Responder.new]
  stderr := by simp [Responder.new]
  bytes := rfl

theorem Streams.of_append {a b : List Frame} (h : Streams maxStderr (a ++ b)) : Streams maxStderr a where
  request f hf := h.request f (List.mem_append_left b hf)
  kind f hf := h.kind f (List.mem_append_left b hf)
  opened := (List.pairwise_append.mp h.opened).1
  within := by
    have hw := h.within
    rw [List.filter_append, List.map_append, List.sum_append] at hw
    omega

theorem streams_concat {frames : List Frame} (h : Streams maxStderr frames) (f : Frame) :
    Streams maxStderr (frames ++ [f]) ↔
      f.record.request = requestId ∧ (f.kind = stdoutKind ∨ f.kind = stderrKind) ∧
        (∀ g ∈ frames, g.kind = f.kind → g.body ≠ []) ∧
        (f.kind = stderrKind →
          ((frames.filter (·.kind == stderrKind)).map (·.body.length)).sum + f.body.length ≤ maxStderr) := by
  have hsum : (((frames ++ [f]).filter (·.kind == stderrKind)).map (·.body.length)).sum =
      ((frames.filter (·.kind == stderrKind)).map (·.body.length)).sum +
        if f.kind = stderrKind then f.body.length else 0 := by
    rw [List.filter_append, List.map_append, List.sum_append]
    by_cases hk : f.kind = stderrKind <;> simp [hk]
  constructor
  · intro hs
    have hin : f ∈ frames ++ [f] := List.mem_append_right _ List.mem_cons_self
    refine ⟨hs.request f hin, hs.kind f hin, ?_, ?_⟩
    · intro g hg
      exact (List.pairwise_append.mp hs.opened).2.2 g hg f List.mem_cons_self
    · intro hk
      have hw := hs.within
      rwa [hsum, if_pos hk] at hw
  · rintro ⟨hreq, hkind, hopen, hw⟩
    refine ⟨?_, ?_, ?_, ?_⟩
    · intro g hg
      rcases List.mem_append.mp hg with hg | hg
      · exact h.request g hg
      · rwa [List.mem_singleton.mp hg]
    · intro g hg
      rcases List.mem_append.mp hg with hg | hg
      · exact h.kind g hg
      · rwa [List.mem_singleton.mp hg]
    · refine List.pairwise_append.mpr ⟨h.opened, List.pairwise_singleton _ _, ?_⟩
      intro g hg f' hf'
      rw [List.mem_singleton.mp hf']
      exact hopen g hg
    · rw [hsum]
      split
      · rename_i hk
        exact hw hk
      · exact h.within

theorem exists_concat {frames : List Frame} {f : Frame} {kind : UInt8} :
    (∃ g ∈ frames ++ [f], g.kind = kind ∧ g.body = []) ↔
      (∃ g ∈ frames, g.kind = kind ∧ g.body = []) ∨ (f.kind = kind ∧ f.body = []) := by
  simp [or_and_right, exists_or]

theorem u32_take_eq_zero {body : List UInt8} (h : body.length = 8) (h4 : body[4]? = some 0) :
    u32 (body.take 4) = 0 ↔ body.take 5 = [0, 0, 0, 0, 0] := by
  match body, h with
  | [a, b, c, d, e, _, _, _], _ =>
    simp only [List.getElem?_cons_succ, List.getElem?_cons_zero, Option.some.injEq] at h4
    subst h4
    simp only [u32, List.take_succ_cons, List.take_zero, List.foldl_cons, List.foldl_nil, List.cons.injEq, and_true]
    have hz (x : UInt8) : x = 0 ↔ x.toNat = 0 := by
      rw [← UInt8.toNat_inj]
      rfl
    rw [hz a, hz b, hz c, hz d]
    omega

/-- A record of a stream is accepted exactly where the streams may go on with it. -/
theorem Tracks.accept {frames : List Frame} {r : Responder} (h : Tracks maxStderr frames r) (f : Frame) :
    (∃ r', Tracks maxStderr (frames ++ [f]) r' ∧
      ((f.kind = stdoutKind ∧ r.accept f.record = .ok (r', .stdout f.body)) ∨
        (f.kind = stderrKind ∧ r.accept f.record = .ok (r', .stderr f.body)))) ∨
    (¬ Streams maxStderr (frames ++ [f]) ∧ ((∃ e, r.accept f.record = .error e ∧ ¬ Ends f) ∨
      ∃ r' status, r.accept f.record = .ok (r', .complete status) ∧ (status = 0 ↔ Ends f))) := by
  have hs := streams_concat h.streams f
  unfold Responder.accept
  rw [if_neg (by simp [h.ended])]
  by_cases hreq : f.record.request = requestId
  · rw [if_neg (not_not.mpr hreq)]
    by_cases hout : f.kind = stdoutKind
    · have hout' : f.record.kind = stdoutKind := hout
      rw [if_pos hout']
      have hnot : f.kind ≠ stderrKind := by
        rw [hout]
        decide
      by_cases hclosed : r.stdoutClosed = true
      · right
        obtain ⟨g, hg, hk, hb⟩ := h.stdout.mp hclosed
        refine ⟨fun hgo => (hs.mp hgo).2.2.1 g hg (hk.trans hout.symm) hb, .inl ⟨.streamClosed, ?_, ?_⟩⟩
        · rw [if_pos hclosed]
        · rintro ⟨-, hend, -⟩
          rw [hout] at hend
          exact absurd hend (by decide)
      · left
        rw [if_neg hclosed]
        refine ⟨{ r with stdoutClosed := f.body.isEmpty }, ⟨hs.mpr ⟨hreq, .inl hout, ?_, fun hk => absurd hk hnot⟩, h.ended,
          h.limit, ?_, ?_, ?_⟩, .inl ⟨hout, rfl⟩⟩
        · intro g hg hk hb
          exact hclosed (h.stdout.mpr ⟨g, hg, hk.trans hout, hb⟩)
        · rw [exists_concat, ← h.stdout]
          simp [hclosed, hout]
        · rw [exists_concat, ← h.stderr]
          simp [hnot]
        · simp [h.bytes, hnot]
    · have hout' : f.record.kind ≠ stdoutKind := hout
      rw [if_neg hout']
      by_cases herr : f.kind = stderrKind
      · have herr' : f.record.kind = stderrKind := herr
        rw [if_pos herr']
        have hends : ¬ Ends f := by
          rintro ⟨-, hend, -⟩
          rw [herr] at hend
          exact absurd hend (by decide)
        by_cases hclosed : r.stderrClosed = true
        · right
          obtain ⟨g, hg, hk, hb⟩ := h.stderr.mp hclosed
          refine ⟨fun hgo => (hs.mp hgo).2.2.1 g hg (hk.trans herr.symm) hb, .inl ⟨.streamClosed, ?_, hends⟩⟩
          rw [if_pos hclosed]
        · rw [if_neg hclosed]
          by_cases hw : r.stderrBytes + f.record.body.length ≤ r.stderrLimit
          · left
            rw [if_pos hw]
            rw [h.bytes, h.limit] at hw
            refine ⟨{ r with stderrBytes := r.stderrBytes + f.body.length, stderrClosed := f.body.isEmpty },
              ⟨hs.mpr ⟨hreq, .inr herr, ?_, fun _ => hw⟩, h.ended, h.limit, ?_, ?_, ?_⟩, .inr ⟨herr, rfl⟩⟩
            · intro g hg hk hb
              exact hclosed (h.stderr.mpr ⟨g, hg, hk.trans herr, hb⟩)
            · rw [exists_concat, ← h.stdout]
              simp [hout]
            · rw [exists_concat, ← h.stderr]
              simp [hclosed, herr]
            · simp [h.bytes, herr]
          · right
            rw [if_neg hw]
            rw [h.bytes, h.limit] at hw
            exact ⟨fun hgo => hw ((hs.mp hgo).2.2.2 herr), .inl ⟨.limit, rfl, hends⟩⟩
      · have herr' : f.record.kind ≠ stderrKind := herr
        rw [if_neg herr']
        right
        refine ⟨fun hgo => (hs.mp hgo).2.1.elim hout herr, ?_⟩
        by_cases hend : f.kind = endKind
        · have hend' : f.record.kind = endKind := hend
          rw [if_pos hend']
          by_cases hlen : f.record.body.length = 8
          · rw [if_neg (not_not.mpr hlen)]
            by_cases hstatus : f.record.body[4]? = some 0
            · right
              rw [if_neg (not_not.mpr hstatus)]
              refine ⟨_, _, rfl, ?_⟩
              rw [u32_take_eq_zero hlen hstatus]
              exact ⟨fun hz => ⟨hreq, hend, hlen, hz⟩, fun hz => hz.2.2.2⟩
            · left
              rw [if_pos hstatus]
              refine ⟨_, rfl, ?_⟩
              rintro ⟨-, -, -, hz⟩
              have h5 : (f.body.take 5)[4]? = some 0 := by rw [hz]; rfl
              rw [List.getElem?_take_of_lt (by omega)] at h5
              exact hstatus h5
          · left
            rw [if_pos hlen]
            exact ⟨_, rfl, fun hz => hlen hz.2.2.1⟩
        · have hend' : f.record.kind ≠ endKind := hend
          rw [if_neg hend']
          exact .inl ⟨_, rfl, fun hz => hend hz.2.1⟩
  · right
    rw [if_pos hreq]
    exact ⟨fun hgo => hreq (hs.mp hgo).1, .inl ⟨_, rfl, fun hz => hreq hz.1⟩⟩

theorem readExact_append (a b : List UInt8) : readExact a.length (a ++ b) = some (a, b) := by
  simp [readExact]

theorem readExact_some {n : Nat} {wire first rest : List UInt8} (h : readExact n wire = some (first, rest)) :
    wire = first ++ rest ∧ first.length = n := by
  unfold readExact at h
  split at h
  · rename_i hle
    cases h
    exact ⟨(List.take_append_drop n wire).symm, List.length_take_of_le hle⟩
  · cases h

theorem Frame.length_header (f : Frame) : f.header.length = 8 := rfl

/-- A record that is there in full is decoded and handed to the responder. -/
theorem receiveFrom_frame (fault : Option Fault) (fuel : Nat) (l : Loop) (f : Frame) (rest : List UInt8) :
    receiveFrom hasScheme headRequest fault (fuel + 1) l (f.bytes ++ rest) =
      match l.responder.accept f.record with
      | .error e => (l, some (.error (.protocol e)))
      | .ok (responder, event) =>
        match l.handle hasScheme headRequest responder event with
        | (l, some result) => (l, some result)
        | (l, none) => receiveFrom hasScheme headRequest fault fuel l rest := by
  have hpayload : (announced f.header).1 + (announced f.header).2 = (f.body ++ f.padding).length := by
    rw [f.announced_header, List.length_append]
  have hbytes : f.bytes ++ rest = f.header ++ ((f.body ++ f.padding) ++ rest) := by
    rw [Frame.bytes, List.append_assoc]
  have hread : readExact 8 (f.bytes ++ rest) = some (f.header, (f.body ++ f.padding) ++ rest) := by
    rw [hbytes, ← f.length_header]
    exact readExact_append _ _
  obtain ⟨checked, hchecked⟩ := f.decode_header
  have hdecode : decode (f.header ++ (f.body ++ f.padding)) = .ok (some (f.record, 8 + f.body.length + f.padding.length)) :=
    f.decode_bytes
  rw [receiveFrom, hread]
  dsimp only
  rw [hchecked, hpayload, readExact_append]
  dsimp only
  revert hdecode
  generalize decode (f.header ++ (f.body ++ f.padding)) = decoded
  rintro rfl
  rfl

/-- What is not a record in full ends the loop where it stands, or leaves it waiting. -/
theorem receiveFrom_short (fault : Option Fault) (fuel : Nat) (l : Loop) {wire : List UInt8}
    (h : ∀ (f : Frame) rest, wire ≠ f.bytes ++ rest) :
    (receiveFrom hasScheme headRequest fault fuel l wire).1 = l := by
  cases fuel with
  | zero => rfl
  | succ fuel =>
    rw [receiveFrom]
    cases hread : readExact 8 wire with
    | none => rfl
    | some p =>
      obtain ⟨header, rest⟩ := p
      obtain ⟨hwire, hlen⟩ := readExact_some hread
      dsimp only
      cases hdecode : decode header with
      | error e => rfl
      | ok checked =>
        dsimp only
        cases hpayload : readExact ((announced header).1 + (announced header).2) rest with
        | none => rfl
        | some p =>
          obtain ⟨payload, rest'⟩ := p
          obtain ⟨hrest, hlen'⟩ := readExact_some hpayload
          obtain ⟨f, hf⟩ := exists_frame hlen (by simp [hdecode]) hlen'
          exact absurd (by rw [hwire, hrest, hf, List.append_assoc]) (h f rest')

theorem output_concat_stdout {frames : List Frame} {f : Frame} (h : f.kind = stdoutKind) :
    output (frames ++ [f]) = output frames ++ f.body := by
  simp [output, h]

theorem output_concat_stderr {frames : List Frame} {f : Frame} (h : f.kind = stderrKind) :
    output (frames ++ [f]) = output frames := by
  have hk : f.kind ≠ stdoutKind := by
    rw [h]
    decide
  simp [output, hk]

theorem output_append (a b : List Frame) : output (a ++ b) = output a ++ output b := by
  rw [output, List.filter_append, List.flatMap_append]
  rfl

/-- A wire begins with one record at most. -/
theorem Frame.bytes_inj {f g : Frame} {a b : List UInt8} (h : f.bytes ++ a = g.bytes ++ b) : f = g := by
  simp only [Frame.bytes, List.append_assoc] at h
  obtain ⟨hheader, hrest⟩ := List.append_inj h rfl
  have hsize : (f.body.length, f.padding.length) = (g.body.length, g.padding.length) := by
    rw [← f.announced_header, ← g.announced_header, hheader]
  obtain ⟨hbody, hpadding⟩ := Prod.mk.injEq .. |>.mp hsize
  obtain ⟨hb, hrest⟩ := List.append_inj hrest hbody
  obtain ⟨hp, -⟩ := List.append_inj hrest hpadding
  simp only [Frame.header, List.cons.injEq] at hheader
  cases f
  cases g
  simp_all

theorem Frame.length_bytes (f : Frame) : 8 ≤ f.bytes.length := by
  rw [Frame.bytes, List.length_append, f.length_header]
  exact Nat.le_add_right _ _

/-- The loop over the records of the two streams and whatever follows them. -/
theorem receiveFrom_delivers {done frames : List Frame} {l : Loop} {more : List UInt8} (fault : Option Fault) {fuel : Nat}
    (htracks : Tracks maxStderr done l.responder)
    (holds : Holds hasScheme headRequest maxHead (output done) l.receiver) (hs : Streams maxStderr (done ++ frames))
    (hstop : ∀ (f : Frame) rest, more = f.bytes ++ rest → ¬ Streams maxStderr (done ++ frames ++ [f]))
    (hfuel : (frames.flatMap Frame.bytes ++ more).length ≤ fuel) :
    Delivers hasScheme headRequest maxHead (output (done ++ frames)) (Ended more)
      (receiveFrom hasScheme headRequest fault fuel l (frames.flatMap Frame.bytes ++ more)).2.isNone
      (receiveFrom hasScheme headRequest fault fuel l (frames.flatMap Frame.bytes ++ more)).1.receiver.calls := by
  induction frames generalizing done l fuel with
  | nil =>
    rw [List.append_nil] at hstop ⊢
    rw [List.flatMap_nil, List.nil_append] at hfuel ⊢
    by_cases hwhole : ∃ f : Frame, ∃ rest, more = f.bytes ++ rest
    · obtain ⟨f, rest, rfl⟩ := hwhole
      have hends : Ended (f.bytes ++ rest) ↔ Ends f := by
        constructor
        · rintro ⟨g, rest', hg, hend⟩
          rwa [Frame.bytes_inj hg]
        · exact fun hend => ⟨f, rest, rfl, hend⟩
      have hlen := f.length_bytes
      rw [List.length_append] at hfuel
      obtain ⟨fuel, rfl⟩ : ∃ k, fuel = k + 1 := ⟨fuel - 1, by omega⟩
      rw [receiveFrom_frame]
      rcases htracks.accept f with ⟨r', hr', -⟩ | ⟨-, ⟨e, haccept, hnot⟩ | ⟨r', status, haccept, hstatus⟩⟩
      · exact absurd hr'.streams (hstop f rest rfl)
      · rw [haccept]
        exact holds.delivers (fun h => hnot (hends.mp h)) _
      · rw [haccept]
        simp only [Loop.handle]
        rcases holds.closes with ⟨hc, hw, hdel⟩ | ⟨e, hc, hw, hdel⟩
        · rw [hc]
          by_cases hz : status = 0
          · rw [if_neg (not_not.mpr hz)]
            exact hdel.congr ⟨fun _ => hends.mpr (hstatus.mp hz), fun _ => trivial⟩
          · rw [if_pos hz]
            exact holds.delivers (fun h => hz (hstatus.mpr (hends.mp h))) _
        · rw [hc]
          exact hdel _
    · have hnone : ∀ (f : Frame) rest, more ≠ f.bytes ++ rest := fun f rest h => hwhole ⟨f, rest, h⟩
      rw [receiveFrom_short fault fuel l hnone]
      refine holds.delivers ?_ _
      rintro ⟨f, rest, h, -⟩
      exact hnone f rest h
  | cons f frames ih =>
    have hsplit : done ++ f :: frames = done ++ [f] ++ frames := by simp
    have hbytes : (f :: frames).flatMap Frame.bytes ++ more = f.bytes ++ (frames.flatMap Frame.bytes ++ more) := by
      rw [List.flatMap_cons, List.append_assoc]
    have hlen := f.length_bytes
    rw [hbytes, List.length_append] at hfuel
    obtain ⟨fuel, rfl⟩ : ∃ k, fuel = k + 1 := ⟨fuel - 1, by omega⟩
    rw [hsplit] at hs hstop
    rw [hbytes, receiveFrom_frame, hsplit]
    rcases htracks.accept f with ⟨r', hr', ⟨hk, haccept⟩ | ⟨hk, haccept⟩⟩ | ⟨hnot, -⟩
    · rw [haccept]
      simp only [Loop.handle]
      rcases holds.take f.body with ⟨r, htake, hr⟩ | ⟨r, e, htake, hr⟩
      · rw [htake]
        rw [← output_concat_stdout hk] at hr
        exact ih hr' hr hs hstop (by omega)
      · rw [htake, output_append, output_concat_stdout hk]
        exact hr.delivers _ _
    · rw [haccept]
      simp only [Loop.handle]
      rw [← output_concat_stderr hk] at holds
      exact ih hr' holds hs hstop (by omega)
    · exact absurd hs.of_append hnot

/-- Every wire begins with the records of its streams. -/
theorem exists_carries (maxStderr : Nat) (wire : List UInt8) : ∃ frames more, Carries maxStderr wire frames more := by
  have hgo : ∀ n (done : List Frame) (rest : List UInt8), rest.length ≤ n → Streams maxStderr done →
      ∃ frames more, Carries maxStderr (done.flatMap Frame.bytes ++ rest) frames more := by
    intro n
    induction n with
    | zero =>
      intro done rest hlen hs
      refine ⟨done, rest, rfl, hs, ?_⟩
      rintro f rest' rfl
      have hf := f.length_bytes
      rw [List.length_append] at hlen
      omega
    | succ n ih =>
      intro done rest hlen hs
      by_cases hgoes : ∃ (f : Frame) (rest' : List UInt8), rest = f.bytes ++ rest' ∧ Streams maxStderr (done ++ [f])
      · obtain ⟨f, rest', rfl, hs'⟩ := hgoes
        have hf := f.length_bytes
        rw [List.length_append] at hlen
        have hnext := ih (done ++ [f]) rest' (by omega) hs'
        rwa [List.flatMap_append, List.flatMap_singleton, List.append_assoc] at hnext
      · exact ⟨done, rest, rfl, hs, fun f rest' h hs' => hgoes ⟨f, rest', h, hs'⟩⟩
  exact hgo wire.length [] wire le_rfl tracks_new.streams

theorem Carries.delivers {wire more : List UInt8} {frames : List Frame} (h : Carries maxStderr wire frames more)
    (fault : Option Fault) :
    Delivers hasScheme headRequest maxHead (output frames) (Ended more)
      (receive hasScheme headRequest maxHead maxStderr fault wire).2.isNone
      (receive hasScheme headRequest maxHead maxStderr fault wire).1.receiver.calls := by
  rw [receive, h.wire_eq]
  exact @receiveFrom_delivers _ _ _ _ [] _ _ _ fault _ tracks_new (holds_new hasScheme headRequest maxHead) h.streams h.stops le_rfl

end Fastcgi

/-- The end is called behind a whole response only. -/
theorem Delivered.answer {output : List UInt8} {calls : List Call}
    (h : Delivered hasScheme headRequest maxHead output calls) (hf : .finish ∈ calls) :
    ∃ head body, response hasScheme maxHead output = some (head, body) ∧ answer calls = some ([head], body) := by
  cases h with
  | nothing => cases hf
  | part hr hne hp hshort => exact absurd hf (finish_not_mem _ _)
  | @whole head body pieces hr hne hp hfull =>
    refine ⟨head, body, hr, ?_⟩
    have hheads : (pieces.map Call.body).filterMap Call.head? = [] := by
      rw [List.filterMap_eq_nil_iff]
      intro call hcall
      obtain ⟨piece, -, rfl⟩ := List.mem_map.mp hcall
      rfl
    rw [Cgi.answer, if_pos hf, List.filterMap_append, List.flatMap_append, flatMap_bytes, List.filterMap_cons, hheads, hp]
    simp [Call.head?, Call.bytes]

/-- Two transports that carry one output and both ended properly, or both did not, answer alike. -/
theorem Delivers.answer_eq {output : List UInt8} {a b : Prop} {ra rb : Bool} {calls calls' : List Call}
    (h : Delivers hasScheme headRequest maxHead output a ra calls)
    (h' : Delivers hasScheme headRequest maxHead output b rb calls') (hab : a ↔ b) : answer calls = answer calls' := by
  by_cases hf : .finish ∈ calls
  · have hf' : .finish ∈ calls' := h'.finished.mpr ((and_congr_left fun _ => hab).mp (h.finished.mp hf))
    obtain ⟨head, body, hr, he⟩ := h.delivered.answer hf
    obtain ⟨head', body', hr', he'⟩ := h'.delivered.answer hf'
    rw [hr] at hr'
    cases hr'
    rw [he, he']
  · have hf' : .finish ∉ calls' := fun hin => hf (h.finished.mpr ((and_congr_left fun _ => hab).mpr (h'.finished.mp hin)))
    rw [answer, answer, if_neg hf, if_neg hf']

end

/-- The three transports pass on the head an output begins with, hold the last byte of its body back, and
call the end exactly behind a whole response that ended properly; so they answer alike. -/
theorem transports_deliver (hasScheme : String → Bool) (headRequest : Bool) (maxHead maxStderr : Nat)
    (fault : Option Fault) :
    (∀ reads, Delivers hasScheme headRequest maxHead (untilEnd reads) ([] ∈ reads)
      (Scgi.receive hasScheme headRequest fault (.new maxHead) reads).2.isNone
      (Scgi.receive hasScheme headRequest fault (.new maxHead) reads).1.calls) ∧
    (∀ es, Delivers hasScheme headRequest maxHead (Stdio.output es) (Stdio.Ended maxStderr es)
      (run (Stdio.Exchange.step hasScheme headRequest maxStderr) (.new maxHead) es).result.isNone
      (run (Stdio.Exchange.step hasScheme headRequest maxStderr) (.new maxHead) es).receiver.calls) ∧
    (∀ wire, ∃ frames more, Fastcgi.Carries maxStderr wire frames more) ∧
    (∀ wire frames more, Fastcgi.Carries maxStderr wire frames more →
      Delivers hasScheme headRequest maxHead (Fastcgi.output frames) (Fastcgi.Ended more)
        (Fastcgi.receive hasScheme headRequest maxHead maxStderr fault wire).2.isNone
        (Fastcgi.receive hasScheme headRequest maxHead maxStderr fault wire).1.receiver.calls) ∧
    (∀ reads es wire frames more, Fastcgi.Carries maxStderr wire frames more → untilEnd reads = Stdio.output es →
      Stdio.output es = Fastcgi.output frames → ([] ∈ reads ↔ Stdio.Ended maxStderr es) →
      (Stdio.Ended maxStderr es ↔ Fastcgi.Ended more) →
      answer (Scgi.receive hasScheme headRequest fault (.new maxHead) reads).1.calls =
          answer (run (Stdio.Exchange.step hasScheme headRequest maxStderr) (.new maxHead) es).receiver.calls ∧
        answer (run (Stdio.Exchange.step hasScheme headRequest maxStderr) (.new maxHead) es).receiver.calls =
          answer (Fastcgi.receive hasScheme headRequest maxHead maxStderr fault wire).1.receiver.calls) := by
  have hscgi (reads : List (List UInt8)) :=
    Scgi.receive_delivers (holds_new hasScheme headRequest maxHead) fault reads
  have hcgi (es : List Stdio.Event) := (Stdio.stands_run hasScheme headRequest maxHead maxStderr es).delivers
  refine ⟨hscgi, hcgi, Fastcgi.exists_carries maxStderr, fun _ _ _ h => h.delivers fault, ?_⟩
  intro reads es wire frames more h hsame hsame' hends hends'
  have h1 := hscgi reads
  rw [List.nil_append, hsame] at h1
  have h3 := @Fastcgi.Carries.delivers hasScheme headRequest maxHead _ _ _ _ h fault
  rw [← hsame'] at h3
  exact ⟨h1.answer_eq (hcgi es) hends, (hcgi es).answer_eq h3 hends'⟩

namespace Sample

/-- A header section without a length, and a body of two bytes behind it. -/
def text : List UInt8 := utf8 "Content-Type:a\n\nhi"

def stdout (body : List UInt8) (h : body.length < 2 ^ 16) : Fastcgi.Frame :=
  ⟨6, 0, 1, 0, body, [0, 0, 0], h, by decide⟩

/-- The text in two records around a line on stderr. -/
def frames : List Fastcgi.Frame :=
  [stdout (text.take 3) (by decide), ⟨7, 0, 1, 0, [33], [], by decide, by decide⟩,
    stdout (text.drop 3) (by decide), stdout [] (by decide)]

def ending : Fastcgi.Frame := ⟨3, 0, 1, 0, [0, 0, 0, 0, 0, 0, 0, 0], [], by decide, by decide⟩

/-- The exit status comes first, and stderr ends before stdout does. -/
def events : List Stdio.Event :=
  [.exited true, .stdout (text.take 17), .stderr 5, .stderr 0, .stdout (text.drop 17), .stdout []]

theorem carries : Fastcgi.Carries 8 (frames.flatMap Fastcgi.Frame.bytes ++ ending.bytes) frames ending.bytes := by
  refine ⟨rfl, ⟨by decide, by decide, by decide, by decide⟩, ?_⟩
  intro f rest h hs
  have hf : ending = f := by
    refine Fastcgi.Frame.bytes_inj (a := []) (b := rest) ?_
    rw [List.append_nil]
    exact h
  have hkind := hs.kind f (List.mem_append_right _ List.mem_cons_self)
  rw [← hf] at hkind
  revert hkind
  decide

theorem ended : Stdio.Ended 8 events := by
  refine ⟨events, List.prefix_refl _, ?_, by decide, by decide, by decide⟩
  have hclean : Stdio.Clean 8 ([] ++ [Stdio.Event.exited true] ++ [Stdio.Event.stdout (text.take 17)] ++ [Stdio.Event.stderr 5] ++
      [Stdio.Event.stderr 0] ++ [Stdio.Event.stdout (text.drop 17)] ++ [Stdio.Event.stdout []]) := by
    simp only [Stdio.clean_concat, Stdio.Fails]
    refine ⟨⟨⟨⟨⟨⟨Stdio.clean_nil, ?_⟩, id⟩, ?_⟩, ?_⟩, id⟩, id⟩
    · rintro ⟨h, -⟩
      cases h
    · rintro ⟨-, h⟩
      revert h
      decide
    · rintro ⟨-, h⟩
      revert h
      decide
  exact hclean

end Sample

open Sample in
/-- One text over the three transports. -/
theorem transports_deliver_text :
    answer (Scgi.receive (fun _ => false) false none (.new 64) [text.take 9, text.drop 9, []]).1.calls =
        answer (run (Stdio.Exchange.step (fun _ => false) false 8) (.new 64) events).receiver.calls ∧
      answer (run (Stdio.Exchange.step (fun _ => false) false 8) (.new 64) events).receiver.calls =
        answer (Fastcgi.receive (fun _ => false) false 64 8 none
          (frames.flatMap Fastcgi.Frame.bytes ++ ending.bytes)).1.receiver.calls := by
  refine (transports_deliver (fun _ => false) false 64 8 none).2.2.2.2 [text.take 9, text.drop 9, []] events _ frames
    ending.bytes carries (by decide) (by decide) ⟨fun _ => ended, fun _ => by simp⟩
    ⟨fun _ => ⟨ending, [], (List.append_nil _).symm, by decide, by decide, by decide, by decide⟩, fun _ => ended⟩

/-- The answer to a HEAD request with a body all the same: its head alone has the declared length. -/
theorem declared_zero_reached :
    ¬ ∀ (hasScheme : String → Bool) (headRequest : Bool) (maxHead : Nat) (fault : Option Fault) (reads : List (List UInt8)),
      .finish ∉ (Scgi.receive hasScheme headRequest fault (.new maxHead) reads).1.calls →
        ∀ head, .head head ∈ (Scgi.receive hasScheme headRequest fault (.new maxHead) reads).1.calls →
          ∀ n ∈ declared headRequest head,
            ((Scgi.receive hasScheme headRequest fault (.new maxHead) reads).1.calls.flatMap Call.bytes).length < n := by
  intro h
  have hcalls : (Scgi.receive (fun _ => false) true none (.new 64) [Sample.text, []]).1.calls =
      [.head ⟨200, [("content-type", [97])], none⟩] := by decide
  have hlt := h (fun _ => false) true 64 none [Sample.text, []]
  rw [hcalls] at hlt
  exact absurd (hlt (by simp) _ List.mem_cons_self 0 rfl) (by decide)

end Gatel.Cgi
