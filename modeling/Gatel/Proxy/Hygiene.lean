import Gatel.Model.NetText
import Gatel.Proxy.Outbound
import Gatel.Server.ClientAddress

namespace Gatel

namespace Proxy
open HeaderMap

/-! Nomination, on the bytes of the lines. -/

def lowerByte (b : UInt8) : UInt8 := if 65 ≤ b ∧ b ≤ 90 then b + 32 else b

/-- The bytes as characters, one by one. -/
def spelled (bytes : List UInt8) : String := String.ofList (bytes.map fun b => Char.ofNat b.toNat)

def isBlank (b : UInt8) : Bool := b == 32 || b == 9

def trimBlank (bytes : List UInt8) : List UInt8 := ((bytes.dropWhile isBlank).reverse.dropWhile isBlank).reverse

/-- One of the elements of a line is the name, in any letter case. -/
def NominatedBy (value : List UInt8) (name : String) : Prop :=
  ∃ piece ∈ value.splitOn 44, spelled ((trimBlank piece).map lowerByte) = name

def Nominated (headers : HeaderMap) (name : String) : Prop :=
  ∃ value ∈ headers.getAll "connection", NominatedBy value name

/-- Nominated, but only by lines that do not read as text. -/
def Unheard (headers : HeaderMap) (name : String) : Prop :=
  Nominated headers name ∧ ∀ value ∈ headers.getAll "connection", (HeaderValue.toStr value).isSome = true → ¬ NominatedBy value name

def Readable (b : UInt8) : Prop := (32 ≤ b ∧ b < 127) ∨ b = 9

theorem Readable.lt {b : UInt8} (h : Readable b) : b.toNat < 127 ∧ (32 ≤ b.toNat ∨ b.toNat = 9) := by
  rcases h with ⟨hlow, hhigh⟩ | rfl
  · have hl := UInt8.le_iff_toNat_le.mp hlow
    have hh := UInt8.lt_iff_toNat_lt.mp hhigh
    exact ⟨hh, .inl hl⟩
  · decide

theorem toNat_ofNat_of_lt {n : Nat} (h : n < 128) : (Char.ofNat n).toNat = n := by
  rw [Char.toNat_ofNat, if_pos (.inl (by omega))]

theorem isWhitespace_ofNat {b : UInt8} (h : Readable b) : Text.isWhitespace (Char.ofNat b.toNat) = isBlank b := by
  obtain ⟨hlt, hlow⟩ := h.lt
  have hblank : isBlank b = true ↔ b.toNat = 32 ∨ b.toNat = 9 := by
    rw [isBlank, Bool.or_eq_true, beq_iff_eq, beq_iff_eq, ← UInt8.toNat_inj, ← UInt8.toNat_inj]
    rfl
  rw [Bool.eq_iff_iff, hblank, Text.isWhitespace, toNat_ofNat_of_lt (by omega)]
  simp only [Bool.or_eq_true, Bool.and_eq_true, decide_eq_true_eq, beq_iff_eq]
  omega

theorem toLower_ofNat {b : UInt8} (h : Readable b) : (Char.ofNat b.toNat).toLower = Char.ofNat (lowerByte b).toNat := by
  have hall : ∀ n < 127, (Char.ofNat n).toLower = Char.ofNat (lowerByte (UInt8.ofNat n)).toNat := by decide
  have hb := hall b.toNat h.lt.1
  rwa [UInt8.ofNat_toNat] at hb

theorem dropWhile_map_of {α β : Type} {f : α → β} {p : β → Bool} {q : α → Bool} {l : List α} (h : ∀ x ∈ l, p (f x) = q x) :
    (l.map f).dropWhile p = (l.dropWhile q).map f := by
  induction l with
  | nil => rfl
  | cons x l ih =>
    rw [List.map_cons, List.dropWhile_cons, List.dropWhile_cons, h x List.mem_cons_self]
    split
    · exact ih fun y hy => h y (List.mem_cons_of_mem _ hy)
    · rfl

theorem trim_ofBytes {e : List UInt8} (h : ∀ b ∈ e, Readable b) :
    Text.trim (String.ofList (e.map fun b => Char.ofNat b.toNat)) =
      String.ofList ((trimBlank e).map fun b => Char.ofNat b.toNat) := by
  have hdrop : ∀ x ∈ e.dropWhile isBlank, Readable x := fun x hx => h x ((List.dropWhile_suffix _).subset hx)
  rw [Text.trim, String.toList_ofList, dropWhile_map_of fun b hb => isWhitespace_ofNat (h b hb), ← List.map_reverse,
    dropWhile_map_of fun b hb => isWhitespace_ofNat (hdrop b (List.mem_reverse.mp hb)), ← List.map_reverse]
  rfl

theorem mem_of_mem_trimBlank {e : List UInt8} {b : UInt8} (h : b ∈ trimBlank e) : b ∈ e :=
  (List.dropWhile_suffix isBlank).subset (List.mem_reverse.mp ((List.dropWhile_suffix isBlank).subset (List.mem_reverse.mp h)))

/-- What is done to a token of text is done to its bytes. -/
theorem lower_trim {e : List UInt8} (h : ∀ b ∈ e, Readable b) :
    Text.lower (Text.trim (String.ofList (e.map fun b => Char.ofNat b.toNat))) = spelled ((trimBlank e).map lowerByte) := by
  rw [trim_ofBytes h, Text.lower, String.toList_ofList, spelled, List.map_map, List.map_map]
  congr 1
  exact List.map_congr_left fun b hb => toLower_ofNat (h b (mem_of_mem_trimBlank hb))

theorem mem_of_mem_splitOn {α : Type} [DecidableEq α] {a x : α} {l piece : List α} (hp : piece ∈ l.splitOn a) (hx : x ∈ piece) :
    x ∈ l := by
  induction l generalizing piece with
  | nil =>
    rw [List.splitOn_nil, List.mem_singleton] at hp
    subst hp
    cases hx
  | cons y l ih =>
    rw [List.splitOn_cons_eq_if_modifyHead] at hp
    split at hp
    · rcases List.mem_cons.mp hp with rfl | hp
      · cases hx
      · exact List.mem_cons_of_mem _ (ih hp hx)
    · cases hs : l.splitOn a with
      | nil => exact absurd hs (List.splitOn_ne_nil a l)
      | cons first rest =>
        rw [hs] at hp ih
        rcases List.mem_cons.mp hp with rfl | hp
        · rcases List.mem_cons.mp hx with rfl | hx
          · exact List.mem_cons_self
          · exact List.mem_cons_of_mem _ (ih List.mem_cons_self hx)
        · exact List.mem_cons_of_mem _ (ih (List.mem_cons_of_mem _ hp) hx)

/-- The tokens of a line that reads as text are the names that its bytes nominate. -/
theorem mem_tokens {value : List UInt8} {text : String} (h : HeaderValue.toStr value = some text) (name : String) :
    name ∈ (Text.splitAll ',' text).map (fun token => Text.lower (Text.trim token)) ↔ NominatedBy value name := by
  obtain ⟨_, hbytes⟩ := Dispatcher.toStr_eq_some h
  rw [Dispatcher.splitAll_toStr h, List.map_map, List.mem_map, NominatedBy]
  refine exists_congr fun piece => and_congr_right fun hpiece => ?_
  rw [Function.comp_apply, lower_trim fun b hb => hbytes b (mem_of_mem_splitOn hpiece hb)]

theorem connectionTokens_iff (headers : HeaderMap) (name : String) :
    (connectionTokens headers).contains name = true ↔
      ∃ value ∈ headers.getAll "connection", (HeaderValue.toStr value).isSome = true ∧ NominatedBy value name := by
  rw [List.contains_iff_mem, connectionTokens, List.mem_flatMap]
  constructor
  · rintro ⟨text, htext, hname⟩
    obtain ⟨value, hvalue, hread⟩ := List.mem_filterMap.mp htext
    exact ⟨value, hvalue, by rw [hread]; rfl, (mem_tokens hread name).mp hname⟩
  · rintro ⟨value, hvalue, hread, hnom⟩
    obtain ⟨text, htext⟩ := Option.isSome_iff_exists.mp hread
    exact ⟨text, List.mem_filterMap.mpr ⟨value, hvalue, htext⟩, (mem_tokens htext name).mpr hnom⟩

/-- Every name that is nominated is a token, or unheard. -/
theorem nominated_iff (headers : HeaderMap) (name : String) :
    Nominated headers name ↔ (connectionTokens headers).contains name = true ∨ Unheard headers name := by
  rw [connectionTokens_iff]
  constructor
  · intro hnom
    by_cases hread : ∃ value ∈ headers.getAll "connection", (HeaderValue.toStr value).isSome = true ∧ NominatedBy value name
    · exact .inl hread
    · exact .inr ⟨hnom, fun value hvalue hsome hby => hread ⟨value, hvalue, hsome, hby⟩⟩
  · rintro (⟨value, hvalue, _, hby⟩ | ⟨hnom, _⟩)
    · exact ⟨value, hvalue, hby⟩
    · exact hnom

theorem Unheard.not_token {headers : HeaderMap} {name : String} (h : Unheard headers name) :
    (connectionTokens headers).contains name = false := by
  refine Bool.eq_false_iff.mpr fun htoken => ?_
  obtain ⟨value, hvalue, hread, hby⟩ := (connectionTokens_iff headers name).mp htoken
  exact h.2 value hvalue hread hby

/-! The three maps that are written. -/

/-- One field of the switch, the backend's first. -/
def carry (headers own : HeaderMap) (name : String) : HeaderMap :=
  match headers.get name with
  | some value => own.insert name value
  | none => own

/-- The head that `start_tunnel` writes: the fields of the switch, then all that is not for one hop. -/
def tunnelHead (own headers : HeaderMap) : HeaderMap :=
  ["connection", "upgrade"].foldl (carry headers) own ++ headers.filter fun field => !hopByHop.contains field.1

/-- The fields that a request carries on the proxy's own behalf. -/
def ownFields : List String := ["host", "x-forwarded-for", "x-forwarded-host", "x-forwarded-proto"]

theorem ownFields_not_hop : ∀ name ∈ ownFields, name ∉ hopByHop := by decide

/-- The pair that is put back for an upgrade. -/
def upgradePair (f : Forward) (name : String) : List (List UInt8) :=
  match f.upgradeTo.bind HeaderValue.fromStr with
  | some protocol => if name = "upgrade" then [protocol] else if name = "connection" then [utf8 "upgrade"] else []
  | none => []

/-- What a request may carry on. -/
structure RequestClean (headers : HeaderMap) (f : Forward) (out : HeaderMap) : Prop where
  hop : ∀ name ∈ hopByHop, out.getAll name = upgradePair f name
  nominated : ∀ name ∉ ownFields, name ∉ hopByHop → Nominated headers name → out.getAll name = []
  kept : ∀ name ∉ ownFields, name ∉ hopByHop → ¬ Nominated headers name → out.getAll name = headers.getAll name
  host : ∃ value, HeaderValue.fromStr f.host = some value ∧ out.getAll "host" = [value] ∧
    out.getAll "x-forwarded-host" = [value]
  proto : out.getAll "x-forwarded-proto" = [utf8 (if f.tls then "https" else "http")]
  address : out.getAll "x-forwarded-for" = (f.clientIp.bind fun ip => HeaderValue.fromStr ip.toText).toList

/-- What an answer may carry on, behind the fields already there. -/
structure ResponseClean (headers : HeaderMap) (write : HeaderMap → HeaderMap) : Prop where
  hop : ∀ own, ∀ name ∈ hopByHop, (write own).getAll name = own.getAll name
  nominated : ∀ own, ∀ name ∉ hopByHop, Nominated headers name → (write own).getAll name = own.getAll name
  kept : ∀ own, ∀ name ∉ hopByHop, ¬ Nominated headers name → (write own).getAll name = own.getAll name ++ headers.getAll name

/-- What a 101 may carry on: the same, but for one pair of `Connection` and `Upgrade`. -/
structure SwitchClean (headers : HeaderMap) (write : HeaderMap → HeaderMap) : Prop where
  pair : ∀ own, ∀ name ∈ ["connection", "upgrade"],
    (write own).getAll name = (headers.get name).elim (own.getAll name) fun value => [value]
  hop : ∀ own, ∀ name ∈ hopByHop, name ∉ ["connection", "upgrade"] → (write own).getAll name = own.getAll name
  nominated : ∀ own, ∀ name ∉ hopByHop, Nominated headers name → (write own).getAll name = own.getAll name
  kept : ∀ own, ∀ name ∉ hopByHop, ¬ Nominated headers name → (write own).getAll name = own.getAll name ++ headers.getAll name

theorem getAll_endToEnd (headers : HeaderMap) (name : String) : (endToEnd headers).getAll name =
    if hopByHop.contains name = true ∨ (connectionTokens headers).contains name = true then [] else headers.getAll name := by
  have hfilter := getAll_filter headers
    (fun name => !(hopByHop.contains name || (connectionTokens headers).contains name)) name
  rw [endToEnd, hfilter]
  cases hopByHop.contains name <;> cases (connectionTokens headers).contains name <;> simp

theorem endToEnd_hop (headers : HeaderMap) {name : String} (h : name ∈ hopByHop) : (endToEnd headers).getAll name = [] := by
  rw [getAll_endToEnd, if_pos (.inl (List.contains_iff_mem.mpr h))]

theorem endToEnd_kept {headers : HeaderMap} {name : String} (h : name ∉ hopByHop) (hn : ¬ Nominated headers name) :
    (endToEnd headers).getAll name = headers.getAll name := by
  rw [getAll_endToEnd, if_neg]
  rintro (hhop | htoken)
  · exact h (List.contains_iff_mem.mp hhop)
  · exact hn ((nominated_iff headers name).mpr (.inl htoken))

theorem endToEnd_address (headers : HeaderMap) : (endToEnd headers).getAll "x-forwarded-for" = [] ↔
    (connectionTokens headers).contains "x-forwarded-for" = true ∨ headers.getAll "x-forwarded-for" = [] := by
  have hhop : hopByHop.contains "x-forwarded-for" = false := by decide
  rw [getAll_endToEnd, hhop]
  cases (connectionTokens headers).contains "x-forwarded-for" <;> simp

/-- A nominated field is stripped unless nobody heard it. -/
theorem endToEnd_nominated {headers : HeaderMap} {name : String} (h : name ∉ hopByHop) (hn : Nominated headers name) :
    (endToEnd headers).getAll name = [] ↔ ¬ (Unheard headers name ∧ headers.getAll name ≠ []) := by
  rw [getAll_endToEnd]
  rcases (nominated_iff headers name).mp hn with htoken | hunheard
  · rw [if_pos (.inr htoken)]
    refine iff_of_true rfl fun hu => ?_
    rw [hu.1.not_token] at htoken
    exact Bool.false_ne_true htoken
  · rw [if_neg]
    · exact ⟨fun hnil hu => hu.2 hnil, fun hu => not_not.mp fun hne => hu ⟨hunheard, hne⟩⟩
    · rintro (hhop | htoken)
      · exact h (List.contains_iff_mem.mp hhop)
      · rw [hunheard.not_token] at htoken
        exact Bool.false_ne_true htoken

/-- An answer is clean unless one of its fields is nominated by unreadable lines only. -/
theorem responseClean_iff (headers : HeaderMap) : ResponseClean headers (fun own => writeHead own headers) ↔
    ∀ field ∈ headers, field.1 ∉ hopByHop → ¬ Unheard headers field.1 := by
  have hwrite : ∀ own name, (writeHead own headers).getAll name = own.getAll name ++ (endToEnd headers).getAll name :=
    fun own name => getAll_append own _ name
  constructor
  · intro h field hfield hhop hunheard
    have hnone := h.nominated [] field.1 hhop hunheard.1
    rw [hwrite] at hnone
    refine (endToEnd_nominated hhop hunheard.1).mp hnone ⟨hunheard, fun hnil => ?_⟩
    have hmem : field.2 ∈ headers.getAll field.1 := mem_getAll.mpr hfield
    rw [hnil] at hmem
    cases hmem
  · intro h
    refine ⟨fun own name hhop => ?_, fun own name hhop hn => ?_, fun own name hhop hn => ?_⟩
    · rw [hwrite, endToEnd_hop headers hhop, List.append_nil]
    · rw [hwrite, (endToEnd_nominated hhop hn).mpr, List.append_nil]
      rintro ⟨hunheard, hne⟩
      obtain ⟨value, hvalue⟩ := List.exists_mem_of_ne_nil _ hne
      exact h _ (mem_getAll.mp hvalue) hhop hunheard
    · rw [hwrite, endToEnd_kept hhop hn]

theorem getAll_carry_ne (headers own : HeaderMap) {name other : String} (h : other ≠ name) :
    (carry headers own name).getAll other = own.getAll other := by
  rw [carry]
  cases headers.get name with
  | none => rfl
  | some value => exact getAll_insert_ne own h value

theorem getAll_carry_self (headers own : HeaderMap) (name : String) :
    (carry headers own name).getAll name = (headers.get name).elim (own.getAll name) fun value => [value] := by
  rw [carry]
  cases headers.get name with
  | none => rfl
  | some value => exact getAll_insert_self own name value

/-- A 101 is clean unless it nominates a field of its own. -/
theorem switchClean_iff (headers : HeaderMap) : SwitchClean headers (fun own => tunnelHead own headers) ↔
    ∀ field ∈ headers, field.1 ∉ hopByHop → ¬ Nominated headers field.1 := by
  have hrest : ∀ name, HeaderMap.getAll (headers.filter fun field => !hopByHop.contains field.1) name =
      if name ∈ hopByHop then [] else headers.getAll name := by
    intro name
    rw [getAll_filter headers (fun name => !hopByHop.contains name) name]
    by_cases hhop : name ∈ hopByHop <;> simp [hhop]
  have hwrite : ∀ own name, name ≠ "connection" → name ≠ "upgrade" → (tunnelHead own headers).getAll name =
      own.getAll name ++ if name ∈ hopByHop then [] else headers.getAll name := by
    intro own name hc hu
    rw [tunnelHead, getAll_append, hrest, List.foldl_cons, List.foldl_cons, List.foldl_nil, getAll_carry_ne _ _ hu,
      getAll_carry_ne _ _ hc]
  have hnot : ∀ {name : String}, name ∉ hopByHop → name ≠ "connection" ∧ name ≠ "upgrade" := by
    intro name h
    constructor
    · rintro rfl
      exact h (by decide)
    · rintro rfl
      exact h (by decide)
  constructor
  · intro h field hfield hhop hnominated
    have hnone := h.nominated [] field.1 hhop hnominated
    rw [hwrite [] field.1 (hnot hhop).1 (hnot hhop).2, if_neg hhop] at hnone
    have hnil : headers.getAll field.1 = [] := hnone
    have hmem : field.2 ∈ headers.getAll field.1 := mem_getAll.mpr hfield
    rw [hnil] at hmem
    cases hmem
  · intro h
    refine ⟨fun own name hname => ?_, fun own name hhop hname => ?_, fun own name hhop hn => ?_, fun own name hhop _ => ?_⟩
    · rw [tunnelHead, getAll_append, hrest, List.foldl_cons, List.foldl_cons, List.foldl_nil]
      rcases List.mem_cons.mp hname with rfl | hname
      · rw [getAll_carry_ne _ _ (by decide), getAll_carry_self, if_pos (by decide), List.append_nil]
      · obtain rfl := List.mem_singleton.mp hname
        rw [getAll_carry_self, getAll_carry_ne _ _ (by decide), if_pos (by decide), List.append_nil]
    · rw [List.mem_cons, List.mem_singleton, not_or] at hname
      rw [hwrite own name hname.1 hname.2, if_pos hhop, List.append_nil]
    · have hnil : headers.getAll name = [] := by
        by_contra hne
        obtain ⟨value, hvalue⟩ := List.exists_mem_of_ne_nil _ hne
        exact h _ (mem_getAll.mp hvalue) hhop hn
      rw [hwrite own name (hnot hhop).1 (hnot hhop).2, if_neg hhop, hnil, List.append_nil]
    · rw [hwrite own name (hnot hhop).1 (hnot hhop).2, if_neg hhop]

/-! The request. -/

theorem fromStr_toText (ip : IpAddr) : ∃ value, HeaderValue.fromStr ip.toText = some value := by
  have hall : (ip.toText.toList.all fun c => (32 ≤ c.toNat && c.toNat < 127) || c.toNat == 9) = true := by
    refine List.all_eq_true.mpr fun c hc => ?_
    by_cases hdot : c = '.'
    · rw [hdot]
      decide
    · by_cases hcolon : c = ':'
      · rw [hcolon]
        decide
      · by_cases hdigit : ∃ d : Fin 16, c = d.val.digitChar
        · obtain ⟨d, hd⟩ := hdigit
          rw [hd]
          have hdigits : ∀ d : Fin 16,
              ((32 ≤ d.val.digitChar.toNat && d.val.digitChar.toNat < 127) || d.val.digitChar.toNat == 9) = true := by decide
          exact hdigits d
        · exact absurd hc (IpAddr.not_mem_toText hdot hcolon (not_exists.mp hdigit))
  exact ⟨_, by rw [HeaderValue.fromStr, if_pos hall]⟩

theorem getAll_insertAddress (headers : HeaderMap) (clientIp : Option IpAddr) (name : String) :
    (insertAddress headers clientIp).getAll name = if name = "x-forwarded-for" ∧ clientIp.isSome = true then
      (clientIp.bind fun ip => HeaderValue.fromStr ip.toText).toList else headers.getAll name := by
  cases clientIp with
  | none => simp [insertAddress]
  | some ip =>
    obtain ⟨value, hvalue⟩ := fromStr_toText ip
    simp only [insertAddress, insertText, hvalue, Option.isSome_some, and_true, Option.bind_some, Option.toList_some]
    split
    · rename_i hname
      rw [hname, getAll_insert_self]
    · rename_i hname
      rw [getAll_insert_ne _ hname]

theorem getAll_insertUpgrade (headers : HeaderMap) (f : Forward) (name : String) :
    (insertUpgrade headers f.upgradeTo).getAll name =
      if name ∈ ["upgrade", "connection"] ∧ (f.upgradeTo.bind HeaderValue.fromStr).isSome = true then upgradePair f name
      else headers.getAll name := by
  cases hup : f.upgradeTo with
  | none => simp [insertUpgrade]
  | some protocol =>
    cases hvalue : HeaderValue.fromStr protocol with
    | none => simp [insertUpgrade, hvalue]
    | some value =>
      simp only [insertUpgrade, hvalue, upgradePair, hup, Option.bind_some, Option.isSome_some, and_true]
      by_cases hc : name = "connection"
      · rw [hc, getAll_insert_self, if_pos (by decide), if_neg (by decide), if_pos rfl]
      · rw [getAll_insert_ne _ hc]
        by_cases hu : name = "upgrade"
        · rw [hu, getAll_insert_self, if_pos (by decide), if_pos rfl]
        · rw [getAll_insert_ne _ hu, if_neg (by simp [hu, hc])]

variable {headers out : HeaderMap} {f : Forward}

theorem outgoing_getAll (h : outgoingHeaders headers f = some out) :
    ∃ value, HeaderValue.fromStr f.host = some value ∧ ∀ name, out.getAll name =
      if name ∈ ["upgrade", "connection"] ∧ (f.upgradeTo.bind HeaderValue.fromStr).isSome = true then upgradePair f name
      else if name = "x-forwarded-proto" then [utf8 (if f.tls then "https" else "http")]
      else if name = "x-forwarded-host" then [value]
      else if name = "x-forwarded-for" ∧ f.clientIp.isSome = true then
        (f.clientIp.bind fun ip => HeaderValue.fromStr ip.toText).toList
      else if name = "host" then [value] else (endToEnd headers).getAll name := by
  obtain ⟨value, hvalue, hout⟩ := Option.bind_eq_some_iff.mp h
  refine ⟨value, hvalue, fun name => ?_⟩
  obtain rfl := Option.some.inj hout
  rw [getAll_insertUpgrade]
  refine if_congr Iff.rfl rfl ?_
  have hinsert : ∀ (m : HeaderMap) (field : String) (v : List UInt8),
      (m.insert field v).getAll name = if name = field then [v] else m.getAll name := by
    intro m field v
    by_cases hname : name = field
    · rw [if_pos hname, hname, getAll_insert_self]
    · rw [if_neg hname, getAll_insert_ne _ hname]
  have htext : insertText (insertAddress ((endToEnd headers).insert "host" value) f.clientIp) "x-forwarded-host" f.host =
      (insertAddress ((endToEnd headers).insert "host" value) f.clientIp).insert "x-forwarded-host" value := by
    rw [insertText, hvalue]
  rw [hinsert, htext, hinsert, getAll_insertAddress, hinsert]

/-- The names that come from the client are read off the rebuilt map. -/
theorem outgoing_rest (h : outgoingHeaders headers f = some out) {name : String} (hown : name ∉ ownFields)
    (hhop : name ∉ hopByHop) : out.getAll name = (endToEnd headers).getAll name := by
  obtain ⟨value, _, hall⟩ := outgoing_getAll h
  have hpair : ¬ (name ∈ ["upgrade", "connection"] ∧ (f.upgradeTo.bind HeaderValue.fromStr).isSome = true) := by
    rintro ⟨hname, _⟩
    rcases List.mem_cons.mp hname with rfl | hname
    · exact hhop (by decide)
    · obtain rfl := List.mem_singleton.mp hname
      exact hhop (by decide)
  simp only [ownFields, List.mem_cons, List.not_mem_nil, or_false, not_or] at hown
  rw [hall, if_neg hpair, if_neg hown.2.2.2, if_neg hown.2.2.1, if_neg fun hf => hown.2.1 hf.1, if_neg hown.1]

/-- A request is clean unless one of its fields is nominated by unreadable lines only, or it
brings an address of its own and the proxy knows none. -/
theorem requestClean_iff (h : outgoingHeaders headers f = some out) : RequestClean headers f out ↔
    (∀ field ∈ headers, field.1 ∉ ownFields → field.1 ∉ hopByHop → ¬ Unheard headers field.1) ∧
      (f.clientIp = none → (connectionTokens headers).contains "x-forwarded-for" = true ∨
        headers.getAll "x-forwarded-for" = []) := by
  rw [← endToEnd_address]
  obtain ⟨value, hvalue, hall⟩ := outgoing_getAll h
  have haddress : out.getAll "x-forwarded-for" = if f.clientIp.isSome = true then
      (f.clientIp.bind fun ip => HeaderValue.fromStr ip.toText).toList else (endToEnd headers).getAll "x-forwarded-for" := by
    rw [hall, if_neg (by simp), if_neg (by decide), if_neg (by decide)]
    by_cases hsome : f.clientIp.isSome = true
    · rw [if_pos ⟨rfl, hsome⟩, if_pos hsome]
    · rw [if_neg fun hf => hsome hf.2, if_neg (by decide), if_neg hsome]
  constructor
  · intro hclean
    constructor
    · intro field hfield hown hhop hunheard
      have hnone := hclean.nominated field.1 hown hhop hunheard.1
      rw [outgoing_rest h hown hhop] at hnone
      refine (endToEnd_nominated hhop hunheard.1).mp hnone ⟨hunheard, fun hnil => ?_⟩
      have hmem : field.2 ∈ headers.getAll field.1 := mem_getAll.mpr hfield
      rw [hnil] at hmem
      cases hmem
    · intro hip
      have hfor := hclean.address
      rw [haddress, hip] at hfor
      exact hfor
  · rintro ⟨hheard, hip⟩
    refine ⟨fun name hhop => ?_, fun name hown hhop hn => ?_, fun name hown hhop hn => ?_, ⟨value, hvalue, ?_, ?_⟩, ?_, ?_⟩
    · by_cases hpair : name ∈ ["upgrade", "connection"] ∧ (f.upgradeTo.bind HeaderValue.fromStr).isSome = true
      · rw [hall, if_pos hpair]
      · have hnot : ∀ other ∈ ownFields, name ≠ other := by
          rintro other hother rfl
          exact ownFields_not_hop _ hother hhop
        rw [hall, if_neg hpair, if_neg (hnot _ (by decide)), if_neg (hnot _ (by decide)),
          if_neg fun hf => hnot _ (by decide) hf.1, if_neg (hnot _ (by decide)), endToEnd_hop headers hhop, upgradePair]
        cases hup : f.upgradeTo.bind HeaderValue.fromStr with
        | none => rfl
        | some protocol =>
          rw [hup] at hpair
          have hname : name ≠ "upgrade" ∧ name ≠ "connection" := by simpa using hpair
          dsimp only
          rw [if_neg hname.1, if_neg hname.2]
    · rw [outgoing_rest h hown hhop, endToEnd_nominated hhop hn]
      rintro ⟨hunheard, hne⟩
      obtain ⟨v, hv⟩ := List.exists_mem_of_ne_nil _ hne
      exact hheard _ (mem_getAll.mp hv) hown hhop hunheard
    · rw [outgoing_rest h hown hhop, endToEnd_kept hhop hn]
    · rw [hall, if_neg (by simp), if_neg (by decide), if_neg (by decide), if_neg (by simp), if_pos rfl]
    · rw [hall, if_neg (by simp), if_neg (by decide), if_pos rfl]
    · rw [hall, if_neg (by simp), if_pos rfl]
    · rw [haddress]
      cases hclient : f.clientIp with
      | none => rw [hip hclient]; rfl
      | some ip => rfl

/-- Forwarding is clean in both directions, unless a field that is present is nominated by lines
that do not read as text, a client of no known address brings one of its own, or a 101 nominates a
field that it carries. -/
theorem forwarding_clean_iff (request response switch : HeaderMap) (f : Forward) :
    ((∀ out, outgoingHeaders request f = some out → RequestClean request f out) ↔
      ((HeaderValue.fromStr f.host).isSome = true →
        (∀ field ∈ request, field.1 ∉ ownFields → field.1 ∉ hopByHop → ¬ Unheard request field.1) ∧
          (f.clientIp = none → (connectionTokens request).contains "x-forwarded-for" = true ∨
            request.getAll "x-forwarded-for" = []))) ∧
    (ResponseClean response (fun own => writeHead own response) ↔
      ∀ field ∈ response, field.1 ∉ hopByHop → ¬ Unheard response field.1) ∧
    (SwitchClean switch (fun own => tunnelHead own switch) ↔
      ∀ field ∈ switch, field.1 ∉ hopByHop → ¬ Nominated switch field.1) := by
  refine ⟨⟨fun h hhost => ?_, fun h out hout => ?_⟩, responseClean_iff response, switchClean_iff switch⟩
  · obtain ⟨value, hvalue⟩ := Option.isSome_iff_exists.mp hhost
    have hout : (outgoingHeaders request f).isSome = true := by
      rw [outgoingHeaders, hvalue]
      rfl
    obtain ⟨out, hout⟩ := Option.isSome_iff_exists.mp hout
    exact (requestClean_iff hout).mp (h out hout)
  · obtain ⟨value, hvalue, _⟩ := outgoing_getAll hout
    exact (requestClean_iff hout).mpr (h (by rw [hvalue]; rfl))

/-- `x-role` is nominated in a line with a byte that is no text, and goes on. -/
theorem forwarding_unheard : ¬ ∀ (request : HeaderMap) (f : Forward) (out : HeaderMap),
    outgoingHeaders request f = some out → RequestClean request f out := by
  intro h
  have hclean := h [("connection", "x-role,".toUTF8.toList ++ [0xff]), ("x-role", "admin".toUTF8.toList)]
    ⟨"/", "a.example", none, false, none⟩ _ rfl
  have hnominated : Nominated [("connection", "x-role,".toUTF8.toList ++ [0xff]), ("x-role", "admin".toUTF8.toList)] "x-role" :=
    ⟨"x-role,".toUTF8.toList ++ [0xff], by decide +kernel, "x-role".toUTF8.toList, by decide +kernel, by decide +kernel⟩
  have hnone := hclean.nominated "x-role" (by decide) (by decide) hnominated
  exact absurd hnone (by decide +kernel)

end Proxy
end Gatel
