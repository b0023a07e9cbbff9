import Gatel.Cgi.Receiver

namespace Gatel

namespace Cgi

/-! Where a head ends. -/

/-- The first prefix with a property. -/
structure Earliest {α : Type} (P : List α → Prop) (l p : List α) : Prop where
  front : p <+: l
  holds : P p
  first : ∀ q, q <+: p → P q → q = p

namespace Earliest
variable {α : Type} {P : List α → Prop} {l p p' : List α}

theorem exists_of (h : p <+: l) (hp : P p) : ∃ q, q <+: p ∧ Earliest P l q := by
  classical
  have hsome : ∃ n, P (p.take n) := ⟨p.length, by rwa [List.take_length]⟩
  refine ⟨p.take (Nat.find hsome), List.take_prefix _ _, (List.take_prefix _ _).trans h, Nat.find_spec hsome, ?_⟩
  intro q hq hpq
  have hlen := hq.length_le
  have htake : p.take q.length = q := (List.prefix_iff_eq_take.mp (hq.trans (List.take_prefix _ _))).symm
  have hmin := Nat.find_min' hsome (htake.symm ▸ hpq)
  exact hq.eq_of_length_le ((List.length_take_le _ _).trans hmin)

theorem unique (h : Earliest P l p) (h' : Earliest P l p') : p = p' := by
  rcases List.prefix_or_prefix_of_prefix h.front h'.front with hp | hp
  · exact h'.first p hp h.holds
  · exact (h.first p' hp h'.holds).symm

end Earliest

/-- The last line is complete and empty, its end a line feed with or without a carriage return. -/
def EndsEmpty (bytes : List UInt8) : Prop :=
  ∃ before, (before = [] ∨ [10] <:+ before) ∧ (bytes = before ++ [10] ∨ bytes = before ++ [13, 10])

/-- An empty line with a carriage return, behind a line without one. -/
def Mixed (bytes : List UInt8) : Prop := [10, 13, 10] <:+ bytes ∧ ¬ [13, 10, 13, 10] <:+ bytes

theorem endsEmpty_of_atEnd {bytes : List UInt8} (h : Decoder.atEnd bytes = true) : EndsEmpty bytes := by
  rw [Decoder.atEnd, Bool.or_eq_true, List.isSuffixOf_iff_suffix, List.isSuffixOf_iff_suffix] at h
  rcases h with ⟨before, rfl⟩ | ⟨before, rfl⟩
  · exact ⟨before ++ [13, 10], .inr ⟨before ++ [13], by simp⟩, .inr (by simp)⟩
  · exact ⟨before ++ [10], .inr ⟨before, rfl⟩, .inl (by simp)⟩

/-- The empty lines the decoder does not see. -/
theorem unseen_cases {bytes : List UInt8} (h : EndsEmpty bytes) (hun : Decoder.atEnd bytes = false) :
    bytes = [10] ∨ bytes = [13, 10] ∨ Mixed bytes := by
  rw [Decoder.atEnd, Bool.or_eq_false_iff] at hun
  have hfour : ¬ [13, 10, 13, 10] <:+ bytes := fun hs => by
    rw [List.isSuffixOf_iff_suffix.mpr hs] at hun
    cases hun.1
  have htwo : ¬ [10, 10] <:+ bytes := fun hs => by
    rw [List.isSuffixOf_iff_suffix.mpr hs] at hun
    cases hun.2
  obtain ⟨before, rfl | ⟨front, rfl⟩, rfl | rfl⟩ := h
  · exact .inl rfl
  · exact .inr (.inl rfl)
  · exact absurd ⟨front, by simp⟩ htwo
  · exact .inr (.inr ⟨⟨front, by simp⟩, hfour⟩)

theorem Mixed.unseen {bytes : List UInt8} (h : Mixed bytes) : Decoder.atEnd bytes = false := by
  obtain ⟨⟨front, rfl⟩, hno⟩ := h
  rw [Decoder.atEnd, Bool.or_eq_false_iff]
  constructor
  · cases hs : [13, 10, 13, 10].isSuffixOf (front ++ [10, 13, 10]) with
    | false => rfl
    | true => exact absurd (List.isSuffixOf_iff_suffix.mp hs) hno
  · simp [List.isSuffixOf, List.isPrefixOf]

/-! What the parser makes of the lines in front of it. -/

theorem parseLines_stop (f : Fields) (lines : List (List UInt8)) {raw : List UInt8} (hraw : raw = [] ∨ raw = [13])
    (more : List (List UInt8)) : parseLines f (lines ++ raw :: more) = parseLines f (lines ++ [raw]) := by
  induction lines generalizing f with
  | nil => rcases hraw with rfl | rfl <;> rfl
  | cons line lines ih =>
    rw [List.cons_append, List.cons_append, parseLines, parseLines]
    generalize (if line.getLast? = some 13 then line.dropLast else line) = line
    split
    · rfl
    · cases parseLine f line with
      | error e => rfl
      | ok f' => exact ih f'

/-- Nothing behind the first empty line is read. -/
theorem parse_front {hasScheme : String → Bool} {bytes : List UInt8} (h : EndsEmpty bytes) (more : List UInt8) :
    parse hasScheme (bytes ++ more) = parse hasScheme bytes := by
  have hlines : ∃ lines raw, (raw = [] ∨ raw = [13]) ∧
      ∀ tail, (bytes ++ tail).splitOn 10 = lines ++ raw :: tail.splitOn 10 := by
    obtain ⟨before, hbefore, hbytes⟩ := h
    obtain ⟨raw, hraw, rfl⟩ : ∃ raw, (raw = [] ∨ raw = [13]) ∧ bytes = before ++ raw ++ [10] := by
      rcases hbytes with rfl | rfl
      · exact ⟨[], .inl rfl, by simp⟩
      · exact ⟨[13], .inr rfl, by simp⟩
    have hten : (10 : UInt8) ∉ raw := by rcases hraw with rfl | rfl <;> simp
    rcases hbefore with rfl | ⟨front, rfl⟩
    · refine ⟨[], raw, hraw, ?_⟩
      intro tail
      have hsplit : [] ++ raw ++ [10] ++ tail = raw ++ 10 :: tail := by simp
      rw [hsplit, List.splitOn_append_cons_self_of_not_mem hten, List.nil_append]
    · refine ⟨front.splitOn 10, raw, hraw, ?_⟩
      intro tail
      have hsplit : front ++ [10] ++ raw ++ [10] ++ tail = front ++ 10 :: (raw ++ 10 :: tail) := by simp
      rw [hsplit, List.splitOn_append_cons_self, List.splitOn_append_cons_self_of_not_mem hten]
  obtain ⟨lines, raw, hraw, hsplit⟩ := hlines
  have hwhole : ∀ tail, parseLines ⟨[], none, none⟩ ((bytes ++ tail).splitOn 10) =
      parseLines ⟨[], none, none⟩ (lines ++ [raw]) := by
    intro tail
    rw [hsplit, parseLines_stop _ _ hraw]
  have hnil := hwhole []
  rw [List.append_nil] at hnil
  rw [parse, parse, hwhole, hnil]

/-- A head has a line. -/
theorem parse_empty (hasScheme : String → Bool) {bytes : List UInt8} (h : bytes = [10] ∨ bytes = [13, 10]) :
    parse hasScheme bytes = .error .invalidHeader := by
  rcases h with rfl | rfl <;> rfl

namespace Decoder
variable {hasScheme : String → Bool} {d d' : Decoder} {input rest : List UInt8}

/-- What has been consumed is what is buffered. -/
theorem feedBytes_buffered {head : Option Head} (hd : d.bytes.length ≤ d.limit)
    (h : d.feedBytes hasScheme input = .ok (d', head, rest)) :
    ∃ more, input = more ++ rest ∧ d'.bytes = d.bytes ++ more ∧ d'.bytes.length ≤ d.limit := by
  induction input generalizing d with
  | nil =>
    cases h
    exact ⟨[], rfl, (List.append_nil _).symm, hd⟩
  | cons byte input ih =>
    rw [feedBytes] at h
    split at h
    · cases h
    · rename_i hroom
      have hlen : (d.bytes ++ [byte]).length ≤ d.limit := by
        rw [List.length_append, List.length_singleton]
        omega
      dsimp only at h
      split at h
      · cases hp : parse hasScheme (d.bytes ++ [byte]) with
        | error e =>
          rw [hp] at h
          cases h
        | ok parsed =>
          rw [hp] at h
          cases h
          exact ⟨[byte], rfl, rfl, hlen⟩
      · obtain ⟨more, rfl, hbytes, hl⟩ := ih (d := { d with bytes := d.bytes ++ [byte] }) hlen h
        exact ⟨byte :: more, rfl, by simp [hbytes], hl⟩

/-- A head comes with the first end that is seen. -/
theorem feedBytes_head {head : Head} (h : d.feedBytes hasScheme input = .ok (d', some head, rest)) :
    ∃ more, input = more ++ rest ∧ parse hasScheme (d.bytes ++ more) = .ok head ∧ atEnd (d.bytes ++ more) = true ∧
      ∀ q, q ≠ [] → q <+: more → atEnd (d.bytes ++ q) = true → q = more := by
  induction input generalizing d with
  | nil => cases h
  | cons byte input ih =>
    rw [feedBytes] at h
    split at h
    · cases h
    · dsimp only at h
      split at h
      · rename_i hend
        cases hp : parse hasScheme (d.bytes ++ [byte]) with
        | error e =>
          rw [hp] at h
          cases h
        | ok parsed =>
          rw [hp] at h
          cases h
          refine ⟨[byte], rfl, hp, hend, ?_⟩
          intro q hq hpre _
          cases List.prefix_cons_iff.mp hpre with
          | inl hnil => exact absurd hnil hq
          | inr htail =>
            obtain ⟨t, rfl, ht⟩ := htail
            rw [List.prefix_nil.mp ht]
      · rename_i hend
        obtain ⟨more, rfl, hparse, hat, hfirst⟩ := ih h
        have hmove : ∀ q, d.bytes ++ [byte] ++ q = d.bytes ++ byte :: q := fun q => by simp
        rw [hmove] at hparse hat
        refine ⟨byte :: more, rfl, hparse, hat, ?_⟩
        intro q hq hpre hqend
        cases List.prefix_cons_iff.mp hpre with
        | inl hnil => exact absurd hnil hq
        | inr htail =>
          obtain ⟨t, rfl, ht⟩ := htail
          by_cases hnil : t = []
          · exact absurd (hnil ▸ hqend) hend
          · rw [hfirst t hnil ht (by rwa [hmove])]

/-- The first end that is seen is reached if there is room for it. -/
theorem feedBytes_of_end {more : List UInt8} (hne : more ≠ []) (hlen : (d.bytes ++ more).length ≤ d.limit)
    (hend : atEnd (d.bytes ++ more) = true) (hfirst : ∀ q, q ≠ [] → q <+: more → atEnd (d.bytes ++ q) = true → q = more)
    {head : Head} (hp : parse hasScheme (d.bytes ++ more) = .ok head) (rest : List UInt8) :
    d.feedBytes hasScheme (more ++ rest) = .ok ({ d with bytes := d.bytes ++ more, finished := true }, some head, rest) := by
  induction more generalizing d with
  | nil => exact absurd rfl hne
  | cons byte more ih =>
    have hroom : ¬ d.bytes.length = d.limit := by
      rw [List.length_append, List.length_cons] at hlen
      omega
    have hmove : ∀ q, d.bytes ++ [byte] ++ q = d.bytes ++ byte :: q := fun q => by simp
    rw [List.cons_append, feedBytes, if_neg hroom]
    dsimp only
    by_cases hnil : more = []
    · subst hnil
      rw [if_pos hend, hp]
      rfl
    · have hno : ¬ atEnd (d.bytes ++ [byte]) = true := by
        intro hat
        have hone := hfirst [byte] (List.cons_ne_nil _ _) (by simp) hat
        exact hnil (List.cons.inj hone).2.symm
      rw [if_neg hno]
      rw [← hmove] at hlen hend hp
      have hread := ih (d := { d with bytes := d.bytes ++ [byte] }) hnil hlen hend ?_ hp
      · rw [hread]
        simp
      · intro q hq hpre hat
        have hcons := hfirst (byte :: q) (List.cons_ne_nil _ _) (by simpa using hpre) (by rwa [← hmove])
        exact (List.cons.inj hcons).2

/-- Feeding one chunk after another; what is behind the head stays with the caller. -/
@[grind =] def feedAll (hasScheme : String → Bool) (d : Decoder) :
    List (List UInt8) → Except ProtocolError (Decoder × Option Head × List UInt8)
  | [] => .ok (d, none, [])
  | chunk :: chunks =>
    match d.feed hasScheme chunk with
    | .error e => .error e
    | .ok (d', none, _) => d'.feedAll hasScheme chunks
    | .ok (d', some head, rest) => .ok (d', some head, rest ++ chunks.flatten)

theorem feedAll_flatten (hd : d.finished = false) (chunks : List (List UInt8)) :
    d.feedAll hasScheme chunks = d.feed hasScheme chunks.flatten := by
  induction chunks generalizing d with
  | nil =>
    rw [feedAll, feed, hd]
    rfl
  | cons chunk chunks ih =>
    rw [feedAll, feed, feed, hd, List.flatten_cons]
    simp only [Bool.false_eq_true, ↓reduceIte]
    rw [feedBytes_append]
    cases hf : d.feedBytes hasScheme chunk with
    | error e => rfl
    | ok out =>
      obtain ⟨d', head, rest⟩ := out
      cases head with
      | some head => rfl
      | none =>
        have hopen : d'.finished = false := ((feedBytes_ok hf).1 rfl).2.trans hd
        dsimp only
        rw [ih hopen, feed, hopen]
        rfl

end Decoder

/-! What an accepted head has. -/

structure Fields.Sound (f : Fields) : Prop where
  status : ∀ code ∈ f.status, 200 ≤ code.toNat ∧ code.toNat ≤ 599
  consumed : f.headers.getAll "status" = []
  length : (f.headers.getAll "content-length").length ≤ 1
  framed : ∀ name ∈ framing, f.headers.getAll name = []

theorem parseStatus_range {value : List UInt8} {code : UInt16} (h : parseStatus value = .ok code) :
    200 ≤ code.toNat ∧ code.toNat ≤ 599 := by
  rw [parseStatus] at h
  split at h
  · cases h
  · dsimp only at h
    split at h
    · rename_i hrange
      rw [← Except.ok.inj h, UInt16.toNat_ofNat']
      omega
    · cases h

/-- What one accepted line adds. -/
theorem parseLine_ok {f f' : Fields} {line : List UInt8} (h : parseLine f line = .ok f') :
    (∃ value code, f.status = none ∧ parseStatus value = .ok code ∧ f' = { f with status := some code }) ∨
    ∃ name value contentLength, name ∉ framing ∧ name ≠ "status" ∧
      (name = "content-length" → f.headers.containsKey name = false) ∧
      f' = { f with headers := f.headers.append name value, contentLength := contentLength } := by
  simp only [parseLine, bind, Except.bind, pure, Except.pure, throw, throwThe, MonadExceptOf.throw] at h
  split at h
  · cases h
  · split at h
    · cases h
    · split at h
      · cases h
      · cases hn : headerName (line.takeWhile (· ≠ 58)) with
        | none =>
          rw [hn] at h
          cases h
        | some name =>
          rw [hn] at h
          dsimp only at h
          generalize trimAscii (List.drop 1 (List.dropWhile (fun x => decide (x ≠ 58)) line)) = value at h
          split at h
          · cases h
          · rename_i hframing
            have hframing : name ∉ framing := by simpa using hframing
            split at h
            · split at h
              · cases h
              · rename_i hnone
                cases hs : parseStatus value with
                | error e =>
                  rw [hs] at h
                  cases h
                | ok code =>
                  rw [hs] at h
                  exact .inl ⟨value, code, by simpa using hnone, hs, (Except.ok.inj h).symm⟩
            · rename_i hstatus
              split at h
              · cases h
              · rename_i hdup
                have hone : name = "content-length" → f.headers.containsKey name = false := by
                  rintro rfl
                  simpa using hdup
                split at h
                · split at h
                  · cases h
                  · split at h
                    · exact .inr ⟨name, value, _, hframing, hstatus, hone, (Except.ok.inj h).symm⟩
                    · cases h
                · split at h
                  · exact .inr ⟨name, value, _, hframing, hstatus, hone, (Except.ok.inj h).symm⟩
                  · cases h

theorem Fields.Sound.line {f f' : Fields} {line : List UInt8} (hf : f.Sound) (h : parseLine f line = .ok f') : f'.Sound := by
  rcases parseLine_ok h with ⟨value, code, -, hcode, rfl⟩ | ⟨name, value, contentLength, hname, hstatus, hone, rfl⟩
  · refine ⟨?_, hf.consumed, hf.length, hf.framed⟩
    intro code' hc
    cases hc
    exact parseStatus_range hcode
  · have hadd := fun other => HeaderMap.getAll_append_field f.headers name other value
    refine ⟨hf.status, ?_, ?_, ?_⟩
    · rw [hadd, hf.consumed, if_neg hstatus]
      rfl
    · rw [hadd]
      by_cases hn : name = "content-length"
      · have hnone := (HeaderMap.containsKey_iff f.headers name).mp (hone hn)
        rw [hn] at hnone
        simp [hnone, hn]
      · simpa [hn] using hf.length
    · intro other hother
      have hne : name ≠ other := fun he => hname (he ▸ hother)
      rw [hadd, hf.framed other hother, if_neg hne]
      rfl

theorem Fields.Sound.lines {f f' : Fields} {lines : List (List UInt8)} (hf : f.Sound) (h : parseLines f lines = .ok f') :
    f'.Sound := by
  induction lines generalizing f with
  | nil =>
    cases h
    exact hf
  | cons raw lines ih =>
    rw [parseLines] at h
    generalize (if raw.getLast? = some 13 then raw.dropLast else raw) = line at h
    split at h
    · cases h
      exact hf
    · cases hl : parseLine f line with
      | error e =>
        rw [hl] at h
        cases h
      | ok f₁ =>
        rw [hl] at h
        exact ih (hf.line hl) h

/-- A response head as the proxy may send it on. -/
structure Accepted (head : Head) : Prop where
  status : 200 ≤ head.status.toNat ∧ head.status.toNat ≤ 599
  consumed : head.headers.getAll "status" = []
  length : (head.headers.getAll "content-length").length ≤ 1
  framed : ∀ name ∈ framing, head.headers.getAll name = []

theorem parse_accepted {hasScheme : String → Bool} {bytes : List UInt8} {head : Head} (h : parse hasScheme bytes = .ok head) :
    Accepted head := by
  simp only [parse, bind, Except.bind, pure, Except.pure, throw, throwThe, MonadExceptOf.throw] at h
  cases hf : parseLines ⟨[], none, none⟩ (bytes.splitOn 10) with
  | error e =>
    rw [hf] at h
    cases h
  | ok f =>
    have hempty : Fields.Sound ⟨[], none, none⟩ := ⟨nofun, rfl, Nat.zero_le 1, fun _ _ => rfl⟩
    have hsound := hempty.lines hf
    rw [hf] at h
    dsimp only at h
    cases hs : locationStatus hasScheme f with
    | error e =>
      rw [hs] at h
      cases h
    | ok status =>
      have hrange : 200 ≤ (status.getD 200).toNat ∧ (status.getD 200).toNat ≤ 599 := by
        cases status with
        | none => simp
        | some code =>
          rw [locationStatus] at hs
          split at hs
          · split at hs
            · cases hs
            · split at hs
              · cases hs
                simp
              · cases hs
          · exact hsound.status code (Except.ok.inj hs)
      rw [hs] at h
      dsimp only at h
      split at h
      · cases h
      · split at h
        · cases h
        · cases h
          exact ⟨hrange, hsound.consumed, hsound.length, hsound.framed⟩

/-! The decoder and the first empty line. -/

/-- What the proxy relies on, of the bytes of a program. -/
structure StopsAtBody (hasScheme : String → Bool) (limit : Nat) (stream : List UInt8) : Prop where
  chunks : ∀ chunks : List (List UInt8), chunks.flatten = stream →
    (Decoder.new limit).feedAll hasScheme chunks = (Decoder.new limit).feed hasScheme stream
  buffered : ∀ d head rest, (Decoder.new limit).feed hasScheme stream = .ok (d, head, rest) →
    stream = d.bytes ++ rest ∧ d.bytes.length ≤ limit
  boundary : ∀ d head rest, (Decoder.new limit).feed hasScheme stream = .ok (d, some head, rest) →
    Earliest EndsEmpty stream d.bytes
  accepted : ∀ d head rest, (Decoder.new limit).feed hasScheme stream = .ok (d, some head, rest) → Accepted head

/-- A head goes on behind its empty line where that has a carriage return and the line before it has none, the lines up to
it are a head, and an end that is seen follows in time. -/
def Overruns (hasScheme : String → Bool) (limit : Nat) (stream : List UInt8) : Prop :=
  ∃ first more rest head, stream = first ++ more ++ rest ∧ Earliest EndsEmpty stream first ∧ Mixed first ∧
    parse hasScheme first = .ok head ∧ Decoder.atEnd (first ++ more) = true ∧
    (first ++ more).length ≤ (Decoder.new limit).limit

variable {hasScheme : String → Bool} {limit : Nat} {stream rest : List UInt8} {d : Decoder}

theorem feed_buffered {head : Option Head} (h : (Decoder.new limit).feed hasScheme stream = .ok (d, head, rest)) :
    stream = d.bytes ++ rest ∧ d.bytes.length ≤ (Decoder.new limit).limit := by
  rw [Decoder.feed_new] at h
  obtain ⟨more, rfl, hbytes, hlen⟩ := Decoder.feedBytes_buffered (Nat.zero_le _) h
  have hmore : d.bytes = more := hbytes
  rw [hmore] at hlen ⊢
  exact ⟨rfl, hlen⟩

/-- A head has been read off the bytes up to the first end that is seen. -/
theorem feed_head {head : Head} (h : (Decoder.new limit).feed hasScheme stream = .ok (d, some head, rest)) :
    parse hasScheme d.bytes = .ok head ∧ Earliest (fun l => Decoder.atEnd l = true) stream d.bytes := by
  obtain ⟨hstream, -⟩ := feed_buffered h
  rw [Decoder.feed_new] at h
  obtain ⟨more, hmore, hparse, hat, hfirst⟩ := Decoder.feedBytes_head h
  have hbytes : more = d.bytes := List.append_cancel_right (hmore.symm.trans hstream)
  subst hbytes
  refine ⟨hparse, ⟨rest, hstream.symm⟩, hat, ?_⟩
  intro q hq hend
  have hne : q ≠ [] := by
    rintro rfl
    cases hend
  exact hfirst q hne hq hend

theorem feed_of_end {bytes : List UInt8} {head : Head} (hstream : stream = bytes ++ rest)
    (hend : Earliest (fun l => Decoder.atEnd l = true) stream bytes) (hlen : bytes.length ≤ (Decoder.new limit).limit)
    (hp : parse hasScheme bytes = .ok head) :
    ∃ d, (Decoder.new limit).feed hasScheme stream = .ok (d, some head, rest) ∧ d.bytes = bytes := by
  have hne : bytes ≠ [] := by
    rintro rfl
    cases hend.holds
  rw [hstream, Decoder.feed_new]
  exact ⟨_, Decoder.feedBytes_of_end (d := .new limit) hne hlen hend.holds (fun q _ hq hat => hend.first q hq hat) hp rest, rfl⟩

/-- The decoder stops at the body exactly if it does not overrun it. -/
theorem stopsAtBody_iff (hasScheme : String → Bool) (limit : Nat) (stream : List UInt8) :
    StopsAtBody hasScheme limit stream ↔ ¬ Overruns hasScheme limit stream := by
  constructor
  · rintro h ⟨first, more, rest, head, rfl, hfirst, hmixed, hparse, hat, hlen⟩
    obtain ⟨bytes, hbytes, hend⟩ :=
      Earliest.exists_of (P := fun l => Decoder.atEnd l = true) (List.prefix_append (first ++ more) rest) hat
    have hfront : first <+: bytes := by
      rcases List.prefix_or_prefix_of_prefix hfirst.front hend.front with hp | hp
      · exact hp
      · rw [hfirst.first bytes hp (endsEmpty_of_atEnd hend.holds)]
    obtain ⟨tail, rfl⟩ := hfront
    obtain ⟨left, hleft⟩ := hend.front
    have hread : parse hasScheme (first ++ tail) = .ok head := by rw [parse_front hfirst.holds, hparse]
    have hfits := hbytes.length_le.trans hlen
    obtain ⟨d, hfeed, hd⟩ := feed_of_end hleft.symm hend (show _ ≤ (Decoder.new limit).limit from hfits) hread
    have hsame : first = first ++ tail := hfirst.unique (hd ▸ h.boundary d head left hfeed)
    have hunseen := hmixed.unseen
    rw [hsame, hend.holds] at hunseen
    cases hunseen
  · intro hno
    refine ⟨?_, ?_, ?_, ?_⟩
    · rintro chunks rfl
      exact Decoder.feedAll_flatten rfl chunks
    · intro d head rest h
      obtain ⟨hstream, hlen⟩ := feed_buffered h
      exact ⟨hstream, hlen.trans (Nat.min_le_left _ _)⟩
    · intro d head rest h
      obtain ⟨hstream, hlen⟩ := feed_buffered h
      obtain ⟨hparse, hend⟩ := feed_head h
      obtain ⟨first, hfront, hfirst⟩ := Earliest.exists_of hend.front (endsEmpty_of_atEnd hend.holds)
      obtain ⟨more, hmore⟩ := hfront
      by_cases hunseen : Decoder.atEnd first = true
      · rw [← hend.first first ⟨more, hmore⟩ hunseen]
        exact hfirst
      · have hread : parse hasScheme first = .ok head := by rw [← parse_front hfirst.holds more, hmore, hparse]
        have hmixed : Mixed first := by
          rcases unseen_cases hfirst.holds (Bool.eq_false_iff.mpr hunseen) with hten | hthirteen | hmixed
          · rw [parse_empty hasScheme (.inl hten)] at hread
            cases hread
          · rw [parse_empty hasScheme (.inr hthirteen)] at hread
            cases hread
          · exact hmixed
        refine absurd ⟨first, more, rest, head, ?_, hfirst, hmixed, hread, ?_, ?_⟩ hno
        · rw [hmore, ← hstream]
        · rw [hmore]
          exact hend.holds
        · rwa [hmore]
    · intro d head rest h
      exact parse_accepted (feed_head h).1

/-- A program that ends its field with a line feed alone and its head with both. -/
def mixedOutput : List UInt8 := utf8 "Content-Type: text/plain\n\r\nbody\n\nmore"

theorem body_swallowed : ¬ StopsAtBody (fun _ => false) 1024 mixedOutput := by
  intro h
  have hfeed : (Decoder.new 1024).feed (fun _ => false) mixedOutput =
      .ok (⟨utf8 "Content-Type: text/plain\n\r\nbody\n\n", 1024, true⟩,
        some ⟨200, [("content-type", utf8 "text/plain")], none⟩, utf8 "more") := by decide
  have hfirst := (h.boundary _ _ _ hfeed).first (utf8 "Content-Type: text/plain\n\r\n")
    (List.isPrefixOf_iff_prefix.mp (by decide))
    ⟨utf8 "Content-Type: text/plain\n", .inr (List.isSuffixOf_iff_suffix.mp (by decide)), .inr (by decide)⟩
  exact absurd hfirst (by decide)

end Cgi
end Gatel
