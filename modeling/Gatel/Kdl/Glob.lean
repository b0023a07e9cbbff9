import Mathlib

namespace Gatel.Kdl

/-- A matcher at work: what is left of the pattern and of the name and, once a star was met,
what follows the star and where in the name it resumes. -/
structure Scan where
  pattern : List Char
  name : List Char
  star : Option (List Char × List Char)

namespace Scan

/-- Back to the last star, which takes one character more. -/
def retry (s : Scan) : Bool ⊕ Scan :=
  match s.star with
  | some (after, _ :: resume) => .inr ⟨after, resume, some (after, resume)⟩
  | some (_, []) | none => .inl false

def step (s : Scan) : Bool ⊕ Scan :=
  match s.name with
  | [] => .inl (s.pattern.all (· = '*'))
  | c :: name =>
    match s.pattern with
    | x :: pattern =>
      -- A star of the name is met by a star of the pattern here, before that can open a run.
      if x = '?' || x = c then .inr ⟨pattern, name, s.star⟩
      else if x = '*' then .inr ⟨pattern, c :: name, some (pattern, c :: name)⟩
      else s.retry
    | [] => s.retry

@[grind =] def run : Nat → Scan → Option Bool
  | 0, _ => none
  | fuel + 1, s =>
    match s.step with
    | .inl result => some result
    | .inr s => run fuel s

end Scan

/-- `*` matches any run of characters, `?` matches exactly one. -/
def globMatch (pattern name : List Char) : Option Bool :=
  Scan.run ((pattern.length + 2) * (name.length + 1) ^ 2) ⟨pattern, name, none⟩

/-! What a pattern means. -/

/-- A split of the name along the pattern. `Run run rest` says which runs a star may stand for in front of the rest. -/
inductive Splits (Run : List Char → List Char → Prop) : List Char → List Char → Prop
  | nil : Splits Run [] []
  | one {x c : Char} {pattern name : List Char} (h : x = '?' ∨ x ≠ '*' ∧ x = c) (rest : Splits Run pattern name) :
      Splits Run (x :: pattern) (c :: name)
  | star {run pattern name : List Char} (h : Run run name) (rest : Splits Run pattern name) :
      Splits Run ('*' :: pattern) (run ++ name)

/-- Any run will do. -/
def Matches : List Char → List Char → Prop := Splits fun _ _ => True

/-- A star stands for `*` itself, or where the name does not go on with one. -/
def Kept : List Char → List Char → Prop := Splits fun run name => run = ['*'] ∨ (run ++ name).head? ≠ some '*'

theorem Splits.imp {Run Run' : List Char → List Char → Prop} (h : ∀ run name, Run run name → Run' run name)
    {pattern name : List Char} (hs : Splits Run pattern name) : Splits Run' pattern name := by
  induction hs with
  | nil => exact .nil
  | one hx _ ih => exact .one hx ih
  | star hrun _ ih => exact .star (h _ _ hrun) ih

theorem Kept.matches' {pattern name : List Char} (h : Kept pattern name) : Matches pattern name := h.imp fun _ _ _ => trivial

theorem kept_nil {pattern : List Char} : Kept pattern [] ↔ pattern.all (· = '*') = true := by
  induction pattern with
  | nil => exact ⟨fun _ => rfl, fun _ => Splits.nil⟩
  | cons x pattern ih =>
    rw [List.all_cons, Bool.and_eq_true, decide_eq_true_eq, ← ih]
    constructor
    · intro h
      generalize hn : ([] : List Char) = name at h
      cases h with
      | one => simp at hn
      | star hrun rest =>
        obtain ⟨rfl, rfl⟩ := List.append_eq_nil_iff.mp hn.symm
        exact ⟨rfl, rest⟩
    · rintro ⟨rfl, h⟩
      exact @Splits.star _ [] _ _ (.inr (by simp)) h

theorem not_kept_nil (c : Char) (name : List Char) : ¬ Kept [] (c :: name) := nofun

/-- What the first branch of the matcher takes, stars included. -/
def Literal (x c : Char) : Prop := x = '?' ∨ x = c

theorem kept_literal {x c : Char} {pattern name : List Char} (h : Literal x c) :
    Kept (x :: pattern) (c :: name) ↔ Kept pattern name := by
  constructor
  · intro hk
    generalize hn : c :: name = whole at hk
    cases hk with
    | one hx rest =>
      obtain ⟨rfl, rfl⟩ := List.cons.inj hn
      exact rest
    | @star run _ rest' hrun rest =>
      have hc : c = '*' := h.resolve_left (by decide) |>.symm
      obtain rfl | hrun := hrun
      · obtain ⟨_, rfl⟩ := List.cons.inj hn
        exact rest
      · rw [← hn, hc] at hrun
        exact absurd rfl hrun
  · intro hk
    by_cases hx : x = '*'
    · obtain rfl : '*' = c := (h.resolve_left (by simp [hx])) ▸ hx.symm
      subst hx
      exact @Splits.star _ ['*'] _ _ (.inl rfl) hk
    · exact Splits.one (h.imp_right fun he => ⟨hx, he⟩) hk

theorem Kept.star_split {pattern name : List Char} (h : Kept ('*' :: pattern) name) :
    ∃ run rest, name = run ++ rest ∧ Kept pattern rest := by
  cases h with
  | one hx _ =>
    obtain he | he := hx
    · exact absurd he (by decide)
    · exact absurd rfl he.1
  | star _ rest => exact ⟨_, _, rfl, rest⟩

theorem kept_star {pattern name : List Char} (h : name.head? ≠ some '*') :
    Kept ('*' :: pattern) name ↔ ∃ run rest, name = run ++ rest ∧ Kept pattern rest := by
  constructor
  · exact Kept.star_split
  · rintro ⟨run, rest, rfl, hk⟩
    exact Splits.star (.inr h) hk

/-- A later start can be caught up with: what it leaves of the name for the rest of the pattern is left here too. -/
theorem kept_later {taken passed : List Char} (h : List.Forall₂ Literal taken passed) {pattern name ahead later : List Char}
    (hname : passed ++ name = ahead ++ later) (hk : Kept (taken ++ pattern) later) :
    ∃ run rest, name = run ++ rest ∧ Kept pattern rest := by
  induction h generalizing ahead later with
  | nil => exact ⟨ahead, later, hname, hk⟩
  | @cons x c taken passed hx _ ih =>
    rw [List.cons_append] at hname hk
    cases ahead with
    | nil =>
      -- The same start: the literal run follows the split.
      rw [List.nil_append] at hname
      rw [← hname, kept_literal hx] at hk
      exact ih (List.nil_append _).symm hk
    | cons d ahead =>
      obtain ⟨rfl, hrest⟩ := List.cons.inj hname
      cases hk with
      | @one _ e _ rest _ hk =>
        have hlater : passed ++ name = (ahead ++ [e]) ++ rest := by
          rw [hrest, List.append_assoc]
          rfl
        exact ih hlater hk
      | @star run _ rest _ hk =>
        have hlater : passed ++ name = (ahead ++ run) ++ rest := by
          rw [hrest, List.append_assoc]
          rfl
        exact ih hlater hk

namespace Scan

/-- The first characters since the last star were taken one for one. -/
def Aligned (s : Scan) : Prop :=
  ∀ after resume, s.star = some (after, resume) →
    ∃ taken passed, after = taken ++ s.pattern ∧ resume = passed ++ s.name ∧ List.Forall₂ Literal taken passed

/-- What the matcher can still answer yes to. -/
def Accepts (s : Scan) : Prop :=
  Kept s.pattern s.name ∨
    ∃ after resume, s.star = some (after, resume) ∧ ∃ ahead later, resume = ahead ++ later ∧ ahead ≠ [] ∧ Kept after later

/-- A turn of the loop, branch by branch. -/
inductive Turns (s : Scan) : Prop
  | ended (hn : s.name = []) (hs : s.step = .inl (s.pattern.all (· = '*')))
  | literal {x c : Char} {pattern name : List Char} (hp : s.pattern = x :: pattern) (hn : s.name = c :: name) (h : Literal x c)
      (hs : s.step = .inr ⟨pattern, name, s.star⟩)
  | star {c : Char} {pattern name : List Char} (hp : s.pattern = '*' :: pattern) (hn : s.name = c :: name) (hc : c ≠ '*')
      (hs : s.step = .inr ⟨pattern, s.name, some (pattern, s.name)⟩)
  | retry {c : Char} {name : List Char} (hn : s.name = c :: name) (hk : ¬ Kept s.pattern s.name) (hs : s.step = s.retry)

theorem turns (s : Scan) : Turns s := by
  obtain ⟨pattern, name, star⟩ := s
  cases name with
  | nil => exact .ended rfl rfl
  | cons c name =>
    cases pattern with
    | nil => exact .retry rfl (not_kept_nil c name) rfl
    | cons x pattern =>
      by_cases hx : x = '?' ∨ x = c
      · exact .literal rfl rfl hx (by simp [step, hx])
      by_cases hstar : x = '*'
      · subst hstar
        exact .star rfl rfl (fun he => hx (.inr he.symm)) (by simp only [step, Bool.or_eq_true, decide_eq_true_eq, if_neg hx, if_true])
      · refine .retry rfl ?_ (by simp [step, hx, hstar])
        intro hk
        generalize hn : c :: name = whole at hk
        cases hk with
        | one h _ => exact hx (h.imp_right fun he => he.2.trans (List.cons.inj hn).1.symm)
        | star => exact hstar rfl

theorem retry_cases {s : Scan} (h : s.Aligned) {c : Char} {name : List Char} (hn : s.name = c :: name) :
    (s.star = none ∧ s.retry = .inl false) ∨ ∃ after d resume, s.star = some (after, d :: resume) ∧
      s.retry = .inr ⟨after, resume, some (after, resume)⟩ := by
  rcases hs : s.star with _ | ⟨after, resume⟩
  · exact .inl ⟨rfl, by simp [retry, hs]⟩
  · obtain ⟨taken, passed, _, hresume, _⟩ := h after resume hs
    cases resume with
    | nil => simp [hn] at hresume
    | cons d resume => exact .inr ⟨after, d, resume, rfl, by simp [retry, hs]⟩

theorem step_aligned {s s' : Scan} (h : s.Aligned) (hs : s.step = .inr s') : s'.Aligned := by
  have hfresh : ∀ pattern name, Aligned ⟨pattern, name, some (pattern, name)⟩ := by
    intro pattern name after resume he
    obtain ⟨rfl, rfl⟩ := Prod.mk.inj (Option.some.inj he)
    exact ⟨[], [], rfl, rfl, .nil⟩
  cases s.turns with
  | ended hn hd => simp [hd] at hs
  | @literal x c pattern name hp hn hx hd =>
    rw [hd] at hs
    cases hs
    intro after resume he
    obtain ⟨taken, passed, hafter, hresume, hall⟩ := h after resume he
    refine ⟨taken ++ [x], passed ++ [c], ?_, ?_, List.rel_append hall (.cons hx .nil)⟩
    · rw [hafter, hp, List.append_assoc]
      rfl
    · rw [hresume, hn, List.append_assoc]
      rfl
  | star hp hn hc hd =>
    rw [hd] at hs
    cases hs
    exact hfresh _ _
  | retry hn hk hd =>
    rw [hd] at hs
    obtain ⟨_, hr⟩ | ⟨after, d, resume, _, hr⟩ := retry_cases h hn
    · simp [hr] at hs
    · rw [hr] at hs
      cases hs
      exact hfresh _ _

theorem accepts_fresh {pattern name : List Char} :
    Accepts ⟨pattern, name, some (pattern, name)⟩ ↔ ∃ run rest, name = run ++ rest ∧ Kept pattern rest := by
  constructor
  · rintro (hk | ⟨after, resume, he, ahead, later, hresume, _, hk⟩)
    · exact ⟨[], name, rfl, hk⟩
    · obtain ⟨rfl, rfl⟩ := Prod.mk.inj (Option.some.inj he)
      exact ⟨ahead, later, hresume, hk⟩
  · rintro ⟨run, rest, hname, hk⟩
    by_cases hrun : run = []
    · subst hrun
      exact .inl (hname ▸ hk)
    · exact .inr ⟨pattern, name, rfl, run, rest, hname, hrun, hk⟩

theorem step_done {s : Scan} {result : Bool} (h : s.Aligned) (hs : s.step = .inl result) : result = true ↔ s.Accepts := by
  cases s.turns with
  | ended hn hd =>
    rw [hd] at hs
    cases hs
    rw [← kept_nil, Accepts, hn]
    constructor
    · exact fun hk => .inl hk
    · rintro (hk | ⟨after, resume, hstar, ahead, later, hresume, _, hk⟩)
      · exact hk
      · obtain ⟨taken, passed, rfl, hpassed, hall⟩ := h after resume hstar
        obtain ⟨run, rest, hname, hk⟩ := kept_later hall (hpassed.symm.trans hresume) hk
        rw [hn] at hname
        obtain ⟨_, rfl⟩ := List.append_eq_nil_iff.mp hname.symm
        exact hk
  | literal hp hn hx hd => simp [hd] at hs
  | star hp hn hc hd => simp [hd] at hs
  | retry hn hk hd =>
    rw [hd] at hs
    obtain ⟨hstar, hr⟩ | ⟨after, d, resume, _, hr⟩ := retry_cases h hn
    · rw [hr] at hs
      cases hs
      simp [Accepts, hk, hstar]
    · simp [hr] at hs

theorem step_accepts {s s' : Scan} (h : s.Aligned) (hs : s.step = .inr s') : s'.Accepts ↔ s.Accepts := by
  cases s.turns with
  | ended hn hd => simp [hd] at hs
  | literal hp hn hx hd =>
    rw [hd] at hs
    cases hs
    simp only [Accepts, hp, hn, kept_literal hx]
  | @star c pattern name hp hn hc hd =>
    rw [hd] at hs
    cases hs
    have hhead : s.name.head? ≠ some '*' := by simp [hn, hc]
    rw [accepts_fresh, ← kept_star hhead, ← hp]
    constructor
    · exact fun hk => .inl hk
    · rintro (hk | ⟨after, resume, hstar, ahead, later, hresume, _, hk⟩)
      · exact hk
      · -- The star that is forgotten has nothing to offer that this one has not.
        obtain ⟨taken, passed, rfl, hpassed, hall⟩ := h after resume hstar
        obtain ⟨run, rest, hname, hk⟩ := kept_later hall (hpassed.symm.trans hresume) hk
        rw [hp] at hk ⊢
        obtain ⟨run', rest', rfl, hk'⟩ := hk.star_split
        exact (kept_star hhead).mpr ⟨run ++ run', rest', by rw [hname, List.append_assoc], hk'⟩
  | retry hn hk hd =>
    rw [hd] at hs
    obtain ⟨_, hr⟩ | ⟨after, d, resume, hstar, hr⟩ := retry_cases h hn
    · simp [hr] at hs
    · rw [hr] at hs
      cases hs
      rw [accepts_fresh, Accepts]
      constructor
      · rintro ⟨run, rest, rfl, hkept⟩
        exact .inr ⟨after, _, hstar, d :: run, rest, rfl, by simp, hkept⟩
      · rintro (hkept | ⟨after', resume', he, ahead, later, hresume, hne, hkept⟩)
        · exact absurd hkept hk
        · rw [hstar] at he
          obtain ⟨rfl, rfl⟩ := Prod.mk.inj (Option.some.inj he)
          cases ahead with
          | nil => exact absurd rfl hne
          | cons e ahead => exact ⟨ahead, later, (List.cons.inj hresume).2, hkept⟩

theorem run_accepts {s : Scan} (h : s.Aligned) {fuel : Nat} {result : Bool} (hr : run fuel s = some result) :
    result = true ↔ s.Accepts := by
  induction fuel generalizing s with
  | zero => simp [run] at hr
  | succ fuel ih =>
    rw [run] at hr
    rcases hs : s.step with done | s'
    · rw [hs] at hr
      cases hr
      exact step_done h hs
    · rw [hs] at hr
      rw [ih (step_aligned h hs) hr, step_accepts h hs]

/-- Steps left: the stars, then the places to resume from, then the name. -/
def weight (bound : Nat) (s : Scan) : Nat :=
  ((s.star.elim (s.pattern.length + 1) fun star => star.1.length) * (bound + 1) +
    s.star.elim bound fun star => star.2.length) * (bound + 1) + s.name.length

theorem weight_lt {bound high low high' low' name name' : Nat} (hname : name' ≤ bound)
    (h : high' * (bound + 1) + low' < high * (bound + 1) + low) :
    (high' * (bound + 1) + low') * (bound + 1) + name' < (high * (bound + 1) + low) * (bound + 1) + name := by
  have hmul := Nat.mul_le_mul_right (bound + 1) (Nat.succ_le_of_lt h)
  rw [Nat.succ_mul] at hmul
  omega

theorem step_weight {bound : Nat} {s s' : Scan} (h : s.Aligned) (hb : s.name.length ≤ bound)
    (hb' : ∀ star, s.star = some star → star.2.length ≤ bound) (hs : s.step = .inr s') :
    s'.weight bound < s.weight bound ∧ s'.name.length ≤ bound ∧ ∀ star, s'.star = some star → star.2.length ≤ bound := by
  cases s.turns with
  | ended hn hd => simp [hd] at hs
  | literal hp hn hx hd =>
    rw [hd] at hs
    cases hs
    rw [hn, List.length_cons] at hb
    refine ⟨?_, Nat.le_of_succ_le hb, hb'⟩
    simp only [weight, hp, hn, List.length_cons]
    cases s.star with
    | none => exact weight_lt (by omega) (by simp only [Option.elim_none, Nat.succ_mul]; omega)
    | some star => simp only [Option.elim_some]; omega
  | @star c pattern name hp hn hc hd =>
    rw [hd] at hs
    cases hs
    have hsame : ∀ star, some (pattern, s.name) = some star → star.2.length ≤ bound := by
      rintro star ⟨⟩
      exact hb
    refine ⟨weight_lt hb ?_, hb, hsame⟩
    simp only [Option.elim_some]
    have hmul : ∀ longer low, pattern.length + 1 ≤ longer →
        pattern.length * (bound + 1) + s.name.length < longer * (bound + 1) + low := by
      intro longer low hle
      have hle' := Nat.mul_le_mul_right (bound + 1) hle
      rw [Nat.succ_mul] at hle'
      omega
    rcases hstar : s.star with _ | ⟨after, resume⟩
    · exact hmul _ _ (by simp [hp])
    · obtain ⟨taken, _, rfl, _, _⟩ := h after resume hstar
      exact hmul _ _ (by simp only [hp, Option.elim_some, List.length_append, List.length_cons]; omega)
  | retry hn hk hd =>
    rw [hd] at hs
    obtain ⟨_, hr⟩ | ⟨after, d, resume, hstar, hr⟩ := retry_cases h hn
    · simp [hr] at hs
    · rw [hr] at hs
      cases hs
      have hresume := hb' _ hstar
      simp only [List.length_cons] at hresume
      have hshort : resume.length ≤ bound := by omega
      refine ⟨?_, hshort, ?_⟩
      · rw [weight, weight, hstar]
        exact weight_lt hshort (by simp)
      · rintro star ⟨⟩
        exact hshort

theorem run_isSome {bound fuel : Nat} {s : Scan} (h : s.Aligned) (hb : s.name.length ≤ bound)
    (hb' : ∀ star, s.star = some star → star.2.length ≤ bound) (hf : s.weight bound < fuel) : (run fuel s).isSome := by
  induction fuel generalizing s with
  | zero => omega
  | succ fuel ih =>
    rw [run]
    rcases hs : s.step with done | s'
    · rfl
    · obtain ⟨hw, hn, hstar⟩ := step_weight h hb hb' hs
      exact ih (step_aligned h hs) hn hstar (by omega)

end Scan

/-- The matcher always answers, and yes for the splits that leave the stars of the name to the stars of the pattern. -/
theorem globMatch_kept (pattern name : List Char) : ∃ result, globMatch pattern name = some result ∧ (result = true ↔ Kept pattern name) := by
  have haligned : Scan.Aligned ⟨pattern, name, none⟩ := nofun
  have hsome : (globMatch pattern name).isSome := by
    refine @Scan.run_isSome name.length _ _ haligned (le_refl _) nofun ?_
    simp only [Scan.weight, Option.elim_none]
    have hlt := @Scan.weight_lt name.length (pattern.length + 2) 0 (pattern.length + 1) name.length 0 name.length (le_refl name.length) (by simp only [Nat.succ_mul]; omega)
    simpa [pow_two, Nat.mul_assoc] using hlt
  obtain ⟨result, hr⟩ := Option.isSome_iff_exists.mp hsome
  refine ⟨result, hr, ?_⟩
  rw [Scan.run_accepts haligned hr]
  simp [Scan.Accepts]

/-- The matcher is right exactly when a name that matches also does so with no star for a run that starts at a `*` of the
name, that `*` alone excepted. -/
theorem globMatch_iff (pattern name : List Char) :
    (∃ result, globMatch pattern name = some result ∧ (result = true ↔ Matches pattern name)) ↔
      (Matches pattern name → Kept pattern name) := by
  obtain ⟨result, hr, hresult⟩ := globMatch_kept pattern name
  constructor
  · rintro ⟨result', hr', hmatches⟩ hm
    rw [hr] at hr'
    cases hr'
    exact hresult.mp (hmatches.mpr hm)
  · intro h
    exact ⟨result, hr, hresult.trans ⟨Kept.matches', h⟩⟩

/-- The star takes the `*` it is compared with and nothing else. -/
theorem star_in_name : ¬ ∀ pattern name : List Char,
    ∃ result, globMatch pattern name = some result ∧ (result = true ↔ Matches pattern name) := by
  intro h
  obtain ⟨result, hr, hm⟩ := h ['*', 'b'] ['*', 'a', 'b']
  have hfalse : globMatch ['*', 'b'] ['*', 'a', 'b'] = some false := by decide
  rw [hfalse] at hr
  cases hr
  have hmatches : Matches ['*', 'b'] ['*', 'a', 'b'] :=
    @Splits.star _ ['*', 'a'] _ _ trivial (.one (.inr ⟨by decide, rfl⟩) .nil)
  exact absurd (hm.mpr hmatches) (by decide)

/-- Without a `*` in the name there is nothing to get wrong. -/
theorem kept_of_not_mem {pattern name : List Char} (h : '*' ∉ name) (hm : Matches pattern name) : Kept pattern name := by
  induction hm with
  | nil => exact .nil
  | one hx _ ih => exact .one hx (ih fun hc => h (List.mem_cons_of_mem _ hc))
  | @star run pattern name _ _ ih =>
    refine .star (.inr ?_) (ih fun hc => h (List.mem_append_right run hc))
    exact fun hhead => h (List.mem_of_mem_head? hhead)

end Gatel.Kdl
