import Gatel.Proxy.RequestHost

namespace Gatel.Proxy

/-- The authority of a URI, as it is written there. -/
structure UriAuthority extends Authority where
  userinfo : Option (List Char)

def UriAuthority.written (u : UriAuthority) : List Char := u.userinfo.elim u.text fun info => info ++ '@' :: u.text

/-- `authority`: the URI comes first on purpose. -/
def authority (uri : Option UriAuthority) (headers : HeaderMap) : Option String :=
  match uri with
  | some u => some (String.ofList u.written)
  | none => (((headers.get "host").bind HeaderValue.toStr).map Text.trim).filter (· ≠ "")

/-! A written authority names one host. -/

theorem takeWhile_ne {c : Char} {l : List Char} (h : c ∉ l) (rest : Option (List Char)) :
    (l ++ rest.elim [] fun r => c :: r).takeWhile (· ≠ c) = l := by
  have hl : ∀ d ∈ l, decide (d ≠ c) = true := by
    intro d hd
    refine decide_eq_true fun he => ?_
    subst he
    exact h hd
  rw [List.takeWhile_append_of_pos hl]
  cases rest <;> simp

theorem Authority.not_mem (a : Authority) {c : Char} (hn : isNameChar c = false) (hl : isLiteralChar c = false)
    (hd : c.isDigit = false) (hc : c ≠ ':' ∧ c ≠ '[' ∧ c ≠ ']') : c ∉ a.text := by
  intro h
  rcases List.mem_append.mp h with h | h
  · cases hh : a.host with
    | name chars ok =>
      rw [hh] at h
      exact absurd (ok _ h) (by rw [hn]; exact Bool.false_ne_true)
    | literal chars ok colons =>
      rw [hh, Host.text, List.mem_append, List.mem_cons, List.mem_singleton] at h
      rcases h with (h | h) | h
      · exact hc.2.1 h
      · exact absurd (ok _ h) (by rw [hl]; exact Bool.false_ne_true)
      · exact hc.2.2 h
  · cases hp : a.port with
    | none =>
      rw [hp] at h
      cases h
    | some p =>
      rw [hp] at h
      rcases List.mem_cons.mp h with h | h
      · exact hc.1 h
      · exact absurd (a.digits p hp _ h) (by rw [hd]; exact Bool.false_ne_true)

/-- Only a literal is written with brackets. -/
theorem Authority.bracket_mem (a : Authority) : '[' ∈ a.text ↔ a.host.isLiteral = true := by
  cases hh : a.host with
  | literal chars ok colons =>
    rw [Authority.text, hh, Host.text]
    simp [Host.isLiteral]
  | name chars ok =>
    rw [Authority.text, hh, Host.text]
    constructor
    · intro h
      rcases List.mem_append.mp h with h | h
      · exact absurd (ok _ h) (by decide)
      · cases hp : a.port with
        | none =>
          rw [hp] at h
          cases h
        | some p =>
          rw [hp] at h
          obtain h | h := List.mem_cons.mp h
          · exact absurd h (by decide)
          · exact absurd h (a.port_not_mem hp (.inr (.inl rfl)))
    · exact fun h => absurd h Bool.false_ne_true

theorem Authority.host_of_text {a b : Authority} (h : a.text = b.text) : a.host.bare = b.host.bare := by
  have hsame : a.host.isLiteral = true ↔ b.host.isLiteral = true := by rw [← a.bracket_mem, h, b.bracket_mem]
  cases ha : a.host with
  | name chars ok =>
    cases hb : b.host with
    | name chars' ok' =>
      have htext : chars ++ (a.port.elim [] fun p => ':' :: p) = chars' ++ b.port.elim [] fun p => ':' :: p := by
        rwa [Authority.text, Authority.text, ha, hb] at h
      have htake := congrArg (List.takeWhile (· ≠ ':')) htext
      rwa [takeWhile_ne (Host.colon_not_mem ok), takeWhile_ne (Host.colon_not_mem ok')] at htake
    | literal chars' ok' colons' =>
      rw [ha, hb] at hsame
      exact absurd (hsame.mpr rfl) Bool.false_ne_true
  | literal chars ok colons =>
    cases hb : b.host with
    | name chars' ok' =>
      rw [ha, hb] at hsame
      exact absurd (hsame.mp rfl) Bool.false_ne_true
    | literal chars' ok' colons' =>
      have hclose : ∀ {l : List Char}, (∀ c ∈ l, isLiteralChar c = true) → ']' ∉ l := fun hl hc =>
        absurd (hl _ hc) (by decide)
      have htext : chars ++ ((some (a.port.elim [] fun p => ':' :: p)).elim [] fun r => ']' :: r) =
          chars' ++ (some (b.port.elim [] fun p => ':' :: p)).elim [] fun r => ']' :: r := by
        rw [Authority.text, Authority.text, ha, hb] at h
        simpa [Host.text] using h
      have htake := congrArg (List.takeWhile (· ≠ ']')) htext
      rwa [takeWhile_ne (hclose ok), takeWhile_ne (hclose ok')] at htake

theorem UriAuthority.text_of_written {u v : UriAuthority} (h : u.written = v.written) : u.text = v.text := by
  have hat : ∀ w : UriAuthority, '@' ∉ w.text := fun w =>
    w.not_mem (by decide) (by decide) (by decide) ⟨by decide, by decide, by decide⟩
  have hback : ∀ w : UriAuthority, (w.written.reverse.takeWhile (· ≠ '@')).reverse = w.text := by
    intro w
    have hw : '@' ∉ w.text.reverse := fun hc => hat w (List.mem_reverse.mp hc)
    have hrev : w.written.reverse = w.text.reverse ++ (w.userinfo.map List.reverse).elim [] fun r => '@' :: r := by
      rw [UriAuthority.written]
      cases w.userinfo <;> simp
    rw [hrev, takeWhile_ne hw, List.reverse_reverse]
  rw [← hback u, h, hback v]

theorem UriAuthority.host_of_written {u v : UriAuthority} (h : u.written = v.written) : u.host.lowered = v.host.lowered := by
  rw [Host.lowered, Authority.host_of_text (text_of_written h), Host.lowered]

/-! What `request_host` makes of any text. -/

/-- A port at the end of a text, with no bracket before it. -/
def EndsInPort (head port : List Char) : Prop :=
  head.getLast? ≠ some ']' ∧ ∃ digits, port = ':' :: digits ∧ ∀ c ∈ digits, c.isDigit = true

/-- A host between blanks and any number of brackets. -/
def Wraps (text : List Char) (x : Host) : Prop :=
  ∃ lead opens core closes trail : List Char, text = lead ++ (opens ++ core ++ closes) ++ trail ∧
    (∀ c ∈ lead, Text.isWhitespace c = true) ∧ (∀ c ∈ trail, Text.isWhitespace c = true) ∧ (∀ c ∈ opens, c = '[') ∧
    (∀ c ∈ closes, c = ']') ∧ Text.lower (String.ofList core) = x.lowered

/-- A text that `x` can be made out of: its port goes, then what stands around it. -/
def Taken (text : List Char) (x : Host) : Prop :=
  ∃ head port : List Char, text = head ++ port ∧ Wraps head x ∧
    (EndsInPort head port ∨ (port = [] ∧ ∀ h t : List Char, text = h ++ t → ¬ EndsInPort h t))

/-- The text without its port. -/
def unported (raw : String) : String := match Text.rsplitOnce ':' raw with
  | some (head, tail) => if !Text.endsWith head "]" && tail.toList.all Char.isDigit then head else raw
  | none => raw

theorem endsWith_bracket (l : List Char) : Text.endsWith (String.ofList l) "]" = true ↔ l.getLast? = some ']' := by
  have hb : "]".toList.reverse = [']'] := rfl
  rw [Text.endsWith, hb, String.toList_ofList, List.isPrefixOf_iff_prefix, List.getLast?_eq_head?_reverse]
  cases l.reverse with
  | nil => simp
  | cons c rest => simp [List.cons_prefix_cons, eq_comm]

theorem unported_port {head port : List Char} (h : EndsInPort head port) :
    unported (String.ofList (head ++ port)) = String.ofList head := by
  obtain ⟨hlast, digits, rfl, hdigits⟩ := h
  have hend : Text.endsWith (String.ofList head) "]" = false :=
    Bool.eq_false_iff.mpr fun he => hlast ((endsWith_bracket head).mp he)
  have hall : digits.all Char.isDigit = true := List.all_eq_true.mpr hdigits
  rw [unported, Text.rsplitOnce_last _ fun hc => (digit_ne (hdigits _ hc)).1 rfl]
  simp only [String.toList_ofList, hend, hall, Bool.not_false, Bool.and_self, if_true]

theorem unported_none {text : List Char} (h : ∀ head tail : List Char, text = head ++ tail → ¬ EndsInPort head tail) :
    unported (String.ofList text) = String.ofList text := by
  by_cases hmem : ':' ∈ text
  · obtain ⟨after, before, hsplit, hlast⟩ := List.eq_append_cons_of_mem (List.mem_reverse.mpr hmem)
    have htext : text = before.reverse ++ ':' :: after.reverse := by
      have hrev := congrArg List.reverse hsplit
      simpa using hrev
    have hkeep : (!Text.endsWith (String.ofList before.reverse) "]" && after.reverse.all Char.isDigit) = false := by
      refine Bool.eq_false_iff.mpr fun hport => h before.reverse _ htext ?_
      obtain ⟨hend, hdigits⟩ := (Bool.and_eq_true _ _).mp hport
      refine ⟨fun hlast' => ?_, after.reverse, rfl, List.all_eq_true.mp hdigits⟩
      rw [(endsWith_bracket _).mpr hlast'] at hend
      exact Bool.false_ne_true hend
    rw [htext, unported, Text.rsplitOnce_last _ fun hc => hlast (List.mem_reverse.mp hc)]
    simp only [String.toList_ofList, hkeep, Bool.false_eq_true, if_false]
  · rw [unported, Text.rsplitOnce_none hmem]

theorem Printed.of_toLower {c d : Char} (hd : Printed d) (h : c.toLower = d.toLower) : Printed c := by
  obtain ⟨hlow, hhigh⟩ := hd
  by_cases hc : 65 ≤ c.toNat ∧ c.toNat ≤ 90
  · exact ⟨by omega, by omega⟩
  · rw [toLower_of_not_upper hc] at h
    subst h
    by_cases hupper : 65 ≤ d.toNat ∧ d.toNat ≤ 90
    · have hnat := toNat_toLower hupper.1 hupper.2
      exact ⟨by omega, by omega⟩
    · rw [toLower_of_not_upper hupper]
      exact ⟨hlow, hhigh⟩

theorem Host.bare_printed (h : Host) : ∀ c ∈ h.bare, Printed c := by
  intro c hc
  cases h with
  | name chars ok => exact printed_of_nameChar (ok c hc)
  | literal chars ok _ => exact printed_of_literalChar (ok c hc)

theorem cleaned_iff (text : List Char) (x : Host) : cleaned (String.ofList text) = x.lowered ↔ Wraps text x := by
  constructor
  · intro h
    obtain ⟨lead, trail, hlead, htrail, htext⟩ := Text.exists_around Text.isWhitespace Text.isWhitespace text
    obtain ⟨opens, closes, hopens, hcloses, hcore⟩ := Text.exists_around (· = '[') (· = ']')
      ((text.dropWhile Text.isWhitespace).reverse.dropWhile Text.isWhitespace).reverse
    rw [hcore] at htext
    refine ⟨lead, opens, _, closes, trail, htext, hlead, htrail, fun c hc => of_decide_eq_true (hopens c hc),
      fun c hc => of_decide_eq_true (hcloses c hc), ?_⟩
    rw [← h, cleaned, Text.trim, String.toList_ofList, String.toList_ofList]
  · rintro ⟨lead, opens, core, closes, trail, rfl, hlead, htrail, hopens, hcloses, hcore⟩
    have hmap := map_toLower_of_lower hcore
    have hfrom : ∀ c ∈ core, ∃ d ∈ x.bare, c.toLower = d.toLower := by
      intro c hc
      obtain ⟨d, hd, he⟩ := List.mem_map.mp (hmap ▸ List.mem_map_of_mem hc)
      exact ⟨d, hd, he.symm⟩
    have hprinted : ∀ c ∈ opens ++ core ++ closes, Text.isWhitespace c = false := by
      intro c hc
      rcases List.mem_append.mp hc with hc | hc
      · rcases List.mem_append.mp hc with hc | hc
        · rw [hopens c hc]
          decide
        · obtain ⟨d, hd, he⟩ := hfrom c hc
          exact (Printed.of_toLower (x.bare_printed d hd) he).not_blank
      · rw [hcloses c hc]
        decide
    have hplain : ∀ c ∈ core, decide (c = '[') = false ∧ decide (c = ']') = false := by
      intro c hc
      have hno : ∀ b : Char, b = '[' ∨ b = ']' → decide (c = b) = false := by
        intro b hb
        refine decide_eq_false fun he => x.bare_not_mem hb ?_
        have hlow : b.toNat < 97 ∧ b.toLower = b := by rcases hb with rfl | rfl <;> decide
        rw [← mem_map_toLower hlow.1 hlow.2, ← hmap, mem_map_toLower hlow.1 hlow.2, ← he]
        exact hc
      exact ⟨hno _ (.inl rfl), hno _ (.inr rfl)⟩
    rw [cleaned, Text.trim_around hlead htrail hprinted, String.toList_ofList,
      Text.strip_around (fun c hc => decide_eq_true (hopens c hc)) (fun c hc => decide_eq_true (hcloses c hc)) hplain]
    exact hcore

theorem hostOf_eq_unported (raw : String) : hostOf raw = cleaned (unported raw) := rfl

theorem hostOf_taken (text : List Char) (x : Host) : hostOf (String.ofList text) = x.lowered ↔ Taken text x := by
  rw [hostOf_eq_unported]
  constructor
  · intro h
    by_cases hport : ∃ head tail : List Char, text = head ++ tail ∧ EndsInPort head tail
    · obtain ⟨head, tail, rfl, hend⟩ := hport
      rw [unported_port hend] at h
      exact ⟨head, tail, rfl, (cleaned_iff head x).mp h, .inl hend⟩
    · have hnone : ∀ head tail : List Char, text = head ++ tail → ¬ EndsInPort head tail :=
        fun head tail he hend => hport ⟨head, tail, he, hend⟩
      rw [unported_none hnone] at h
      exact ⟨text, [], by simp, (cleaned_iff text x).mp h, .inr ⟨rfl, hnone⟩⟩
  · rintro ⟨head, port, rfl, hwraps, hend | ⟨rfl, hnone⟩⟩
    · rw [unported_port hend]
      exact (cleaned_iff head x).mpr hwraps
    · rw [unported_none hnone, List.append_nil]
      exact (cleaned_iff head x).mpr hwraps

/-! One request, one host. -/

/-- A text that spells an authority, with blanks around it. -/
def Spells (text : List Char) (lead : List Char) (a : Authority) (trail : List Char) : Prop :=
  Blank lead ∧ Blank trail ∧ text = lead ++ a.text ++ trail

/-- A Host field for `x`: an authority for it, with a port only behind a name and at the very end,
or else a text that spells no authority and that `x` can be made out of. -/
def Agrees (text : List Char) (x : Host) : Prop :=
  (∃ (lead : List Char) (a : Authority) (trail : List Char), Spells text lead a trail ∧
    (a.port = none ∨ (a.host.isLiteral = false ∧ trail = [])) ∧ a.host.lowered = x.lowered) ∨
  ((∀ (lead : List Char) (a : Authority) (trail : List Char), ¬ Spells text lead a trail) ∧ Taken text x)

theorem hostOf_agrees (text : List Char) (x : Host) : hostOf (String.ofList text) = x.lowered ↔ Agrees text x := by
  constructor
  · intro h
    by_cases hspells : ∃ (lead : List Char) (a : Authority) (trail : List Char), Spells text lead a trail
    · obtain ⟨lead, a, trail, hs⟩ := hspells
      have hgood := h
      rw [hs.2.2, hostOf_iff hs.1 hs.2.1] at hgood
      exact .inl ⟨lead, a, trail, hs, hgood⟩
    · exact .inr ⟨fun lead a trail hs => hspells ⟨lead, a, trail, hs⟩, (hostOf_taken text x).mp h⟩
  · rintro (⟨lead, a, trail, ⟨hl, ht, rfl⟩, hgood⟩ | ⟨_, htaken⟩)
    · exact (hostOf_iff hl ht a x).mpr hgood
    · exact (hostOf_taken text x).mpr htaken

/-- Sites are looked up by the host of the authority that a request is cached, redirected and vouched
for under, unless a readable Host field says something else. -/
theorem request_host_authority_iff {uri : Option UriAuthority} {r : Request} {named : UriAuthority}
    (hu : r.uriHost = uri.map fun u => String.ofList u.host.text)
    (h : authority uri r.headers = some (String.ofList named.written)) :
    r.host = named.host.lowered ↔ ∀ text : String, r.hostField = some text → Agrees text.toList named.host := by
  cases hfield : r.hostField with
  | some text =>
    rw [Request.host_of_field hfield, ← String.ofList_toList (s := text), hostOf_agrees, String.ofList_toList]
    exact ⟨fun ha t ht => Option.some.inj ht ▸ ha, fun ha => ha text rfl⟩
  | none =>
    have hhost : r.host = named.host.lowered := by
      cases uri with
      | none =>
        change ((r.hostField.map Text.trim).filter (· ≠ "")) = _ at h
        rw [hfield] at h
        cases h
      | some u =>
        rw [Request.host_of_uri hfield hu]
        exact UriAuthority.host_of_written (String.ofList_injective (Option.some.inj h))
    simp [hhost]

/-- `/` with `u` in the URI and `field` in the Host field. -/
def seeking (u : UriAuthority) (field : String) : Request :=
  ⟨"GET", some "/", some (String.ofList u.host.text), [("host", field.toUTF8.toList)], none⟩

def siteB : UriAuthority := ⟨⟨.name "b.example".toList (List.all_eq_true.mp (by decide)), none, Authority.no_digits⟩, none⟩

theorem request_host_authority_iff_same :
    (seeking siteB "B.example:80").host = siteB.host.lowered ↔
      ∀ text : String, (seeking siteB "B.example:80").hostField = some text → Agrees text.toList siteB.host :=
  @request_host_authority_iff (some siteB) (seeking siteB "B.example:80") siteB rfl rfl

/-- Routed as `a.example` and cached as `b.example`. -/
theorem request_host_other : ¬ ∀ (uri : Option UriAuthority) (r : Request) (named : UriAuthority),
    r.uriHost = uri.map (fun u => String.ofList u.host.text) →
    authority uri r.headers = some (String.ofList named.written) → r.host = named.host.lowered := by
  intro h
  have hhost := h (some siteB) (seeking siteB "a.example") siteB rfl rfl
  exact absurd hhost (by decide +kernel)

end Gatel.Proxy
