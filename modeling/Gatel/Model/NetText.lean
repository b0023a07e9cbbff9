import Gatel.Lib.Separated
import Gatel.Model.Net

namespace Gatel
open Separated (intercalate_inj split_inj mem_intercalate mem_intercalate_sep toDigits_inj not_mem_toDigits)

theorem toList_inj {s t : String} (h : s.toList = t.toList) : s = t := String.toList_inj.mp h

theorem toString_inj {m n : Nat} (h : toString m = toString n) : m = n := by
  have hd := congrArg String.toList h
  simp only [Nat.toString_eq_repr, Nat.toList_repr] at hd
  exact toDigits_inj (by decide) (by decide) hd

theorem not_mem_toString {n : Nat} {c : Char} (hc : ∀ d : Fin 16, c ≠ d.val.digitChar) : c ∉ (toString n).toList := by
  rw [Nat.toString_eq_repr, Nat.toList_repr]
  exact not_mem_toDigits (by decide) (by decide) hc

namespace IpAddr

theorem toList_showV4 (octets : List UInt8) :
    (showV4 octets).toList = ['.'].intercalate (octets.map fun b => (toString b.toNat).toList) := by
  rw [showV4, String.toList_intercalate, List.map_map]
  rfl

theorem toList_showSegments (segments : List UInt16) :
    (showSegments segments).toList = [':'].intercalate (segments.map fun s => Nat.toDigits 16 s.toNat) := by
  rw [showSegments, String.toList_intercalate, List.map_map]
  simp [Function.comp_def]

theorem showV4_inj {a b : List UInt8} (ha : a ≠ []) (hb : b ≠ []) (h : showV4 a = showV4 b) : a = b := by
  have hl := congrArg String.toList h
  rw [toList_showV4, toList_showV4] at hl
  have hdot : ∀ l : List UInt8, ∀ x ∈ l.map fun b => (toString b.toNat).toList, '.' ∉ x := by
    intro l x hx
    obtain ⟨o, _, rfl⟩ := List.mem_map.mp hx
    exact not_mem_toString (by decide)
  have he := intercalate_inj (hdot a) (hdot b) (by simpa using ha) (by simpa using hb) hl
  exact List.map_injective_iff.mpr (fun o o' ho => UInt8.toNat_inj.mp (toString_inj (toList_inj ho))) he

theorem not_mem_showV4 {octets : List UInt8} {c : Char} (hdot : c ≠ '.') (hc : ∀ d : Fin 16, c ≠ d.val.digitChar) :
    c ∉ (showV4 octets).toList := by
  intro h
  rw [toList_showV4] at h
  obtain rfl | ⟨x, hx, hm⟩ := mem_intercalate h
  · exact hdot rfl
  · obtain ⟨o, _, rfl⟩ := List.mem_map.mp hx
    exact not_mem_toString hc hm

theorem not_mem_showSegments {segments : List UInt16} {c : Char} (hcolon : c ≠ ':')
    (hc : ∀ d : Fin 16, c ≠ d.val.digitChar) : c ∉ (showSegments segments).toList := by
  intro h
  rw [toList_showSegments] at h
  obtain rfl | ⟨x, hx, hm⟩ := mem_intercalate h
  · exact hcolon rfl
  · obtain ⟨o, _, rfl⟩ := List.mem_map.mp hx
    exact not_mem_toDigits (by decide) (by decide) hc hm

/-- The fields a list of segments is split into again. -/
def fields (segments : List UInt16) : List (List Char) :=
  if segments = [] then [[]] else segments.map fun s => Nat.toDigits 16 s.toNat

theorem splitOn_showSegments (segments : List UInt16) : (showSegments segments).toList.splitOn ':' = fields segments := by
  rw [toList_showSegments, fields]
  split
  · rename_i h
    rw [h]
    rfl
  · rename_i h
    refine List.splitOn_intercalate ':' ?_ (by simpa using h)
    intro x hx
    obtain ⟨o, _, rfl⟩ := List.mem_map.mp hx
    exact not_mem_toDigits (by decide) (by decide) (by decide)

theorem segments_inj {a b : List UInt16} (h : (a.map fun s => Nat.toDigits 16 s.toNat) =
    b.map fun s => Nat.toDigits 16 s.toNat) : a = b :=
  List.map_injective_iff.mpr (fun o o' ho => UInt16.toNat_inj.mp (toDigits_inj (by decide) (by decide) ho)) h

/-- A run of zero segments inside the address. -/
def IsZeroRun (all : List UInt16) (run : Nat × Nat) : Prop :=
  run.1 + run.2 ≤ all.length ∧ ∀ j, run.1 ≤ j → j < run.1 + run.2 → all[j]? = some 0

theorem isZeroRun_zeroRun (all rest : List UInt16) (i : Nat) (current longest : Nat × Nat)
    (hr : all.drop i = rest) (hi : i ≤ all.length)
    (hc : current.2 = 0 ∨ (current.1 + current.2 = i ∧ IsZeroRun all current)) (hl : IsZeroRun all longest) :
    IsZeroRun all (zeroRun rest i current longest) := by
  induction rest generalizing i current longest with
  | nil => exact hl
  | cons s rest ih =>
    have hs : all[i]? = some s := by
      rw [← List.head?_drop, hr]
      rfl
    have hlt : i < all.length := (List.getElem?_eq_some_iff.mp hs).1
    have hr' : all.drop (i + 1) = rest := by
      rw [← List.drop_drop, hr]
      rfl
    unfold zeroRun
    split
    · rename_i hz
      subst hz
      -- the current run grows by this segment
      have hgrow : IsZeroRun all (if current.2 = 0 then i else current.1, current.2 + 1) := by
        by_cases h0 : current.2 = 0
        · simp only [h0, ↓reduceIte, Nat.zero_add]
          refine ⟨hlt, ?_⟩
          intro j h1 h2
          obtain rfl : j = i := by simp only at h1 h2; omega
          exact hs
        · obtain ⟨hsum, hrun⟩ := hc.resolve_left h0
          simp only [h0, ↓reduceIte]
          refine ⟨by simp only; omega, ?_⟩
          intro j h1 h2
          by_cases hj : j < current.1 + current.2
          · exact hrun.2 j h1 hj
          · obtain rfl : j = i := by simp only at h1 h2; omega
            exact hs
      have hend : (if current.2 = 0 then i else current.1) + (current.2 + 1) = i + 1 := by
        by_cases h0 : current.2 = 0
        · simp [h0]
        · have := (hc.resolve_left h0).1
          simp only [h0, ↓reduceIte]
          omega
      generalize (if current.2 = 0 then i else current.1) = start at hgrow hend ⊢
      refine ih (i + 1) _ _ hr' hlt (Or.inr ⟨hend, hgrow⟩) ?_
      split
      · exact hgrow
      · exact hl
    · exact ih (i + 1) _ _ hr' hlt (Or.inl rfl) hl

theorem zeroRun_zero (all : List UInt16) : IsZeroRun all (zeroRun all 0 (0, 0) (0, 0)) := by
  refine isZeroRun_zeroRun all all 0 _ _ rfl (Nat.zero_le _) (Or.inl rfl) ⟨Nat.zero_le _, ?_⟩
  intro j _ h2
  simp at h2

theorem digits_ne_nil (segments : List UInt16) : ∀ x ∈ segments.map fun s => Nat.toDigits 16 s.toNat, x ≠ [] := by
  intro x hx
  obtain ⟨s, _, rfl⟩ := List.mem_map.mp hx
  exact Nat.toDigits_ne_nil

theorem takeWhile_fields (segments : List UInt16) (rest : List (List Char)) :
    (fields segments ++ [] :: rest).takeWhile (fun x => decide (x ≠ [])) =
      segments.map fun s => Nat.toDigits 16 s.toNat := by
  unfold fields
  split
  · rename_i h
    simp [h]
  · rw [List.takeWhile_append_of_pos]
    · simp
    · intro x hx
      simpa using digits_ne_nil segments x hx

theorem takeWhile_reverse_fields (segments : List UInt16) (rest : List (List Char)) :
    (rest ++ [] :: fields segments).reverse.takeWhile (fun x => decide (x ≠ [])) =
      (segments.map fun s => Nat.toDigits 16 s.toNat).reverse := by
  unfold fields
  rw [List.reverse_append, List.reverse_cons, List.append_assoc]
  split
  · rename_i h
    simp [h]
  · rw [List.takeWhile_append_of_pos]
    · simp
    · intro x hx
      simpa using digits_ne_nil segments x (List.mem_reverse.mp hx)

/-- The compressed form: what stands on each side of the gap. -/
def compressed (all : List UInt16) (run : Nat × Nat) : String :=
  showSegments (all.take run.1) ++ "::" ++ showSegments (all.drop (run.1 + run.2))

theorem splitOn_compressed (all : List UInt16) (run : Nat × Nat) :
    (compressed all run).toList.splitOn ':' = fields (all.take run.1) ++ [] :: fields (all.drop (run.1 + run.2)) := by
  have hcat : (compressed all run).toList = (showSegments (all.take run.1)).toList ++
      ':' :: ([] ++ ':' :: (showSegments (all.drop (run.1 + run.2))).toList) := by
    simp [compressed]
  have hsplit : ∀ x y : List Char, (x ++ ':' :: y).splitOn ':' = x.splitOn ':' ++ y.splitOn ':' :=
    fun x y => List.splitOnP_append_cons x y (by simp)
  rw [hcat, hsplit, hsplit, splitOn_showSegments, splitOn_showSegments]
  rfl

/-- Both sides of the gap leave its length, so the whole address is known. -/
theorem compressed_inj {a b : List UInt16} (hlen : a.length = b.length) {r r' : Nat × Nat} (hr : IsZeroRun a r)
    (hr' : IsZeroRun b r') (h : compressed a r = compressed b r') : a = b := by
  have hs : fields (a.take r.1) ++ [] :: fields (a.drop (r.1 + r.2)) =
      fields (b.take r'.1) ++ [] :: fields (b.drop (r'.1 + r'.2)) := by
    rw [← splitOn_compressed, ← splitOn_compressed, h]
  have hleft : a.take r.1 = b.take r'.1 := by
    refine segments_inj ?_
    rw [← takeWhile_fields _ (fields (a.drop (r.1 + r.2))), hs, takeWhile_fields]
  have hright : a.drop (r.1 + r.2) = b.drop (r'.1 + r'.2) := by
    refine segments_inj (List.reverse_injective ?_)
    rw [← takeWhile_reverse_fields _ (fields (a.take r.1)), hs, takeWhile_reverse_fields]
  obtain ⟨hb, hz⟩ := hr
  obtain ⟨hb', hz'⟩ := hr'
  have h1 : r.1 = r'.1 := by
    have := congrArg List.length hleft
    simp only [List.length_take] at this
    omega
  have h2 : r.2 = r'.2 := by
    have := congrArg List.length hright
    simp only [List.length_drop] at this
    omega
  apply List.ext_getElem?
  intro j
  by_cases hj : j < r.1
  · rw [← List.getElem?_take_of_lt hj, hleft, List.getElem?_take_of_lt (h1 ▸ hj)]
  · by_cases hj' : j < r.1 + r.2
    · rw [hz j (by omega) hj', hz' j (by omega) (by omega)]
    · have hd := congrArg (fun l => l[j - (r.1 + r.2)]?) hright
      simp only [List.getElem?_drop] at hd
      rw [show r.1 + r.2 + (j - (r.1 + r.2)) = j by omega, show r'.1 + r'.2 + (j - (r.1 + r.2)) = j by omega] at hd
      exact hd

/-- The text of an address that is not IPv4-mapped. -/
def plainV6 (all : List UInt16) : String :=
  if (zeroRun all 0 (0, 0) (0, 0)).2 > 1 then compressed all (zeroRun all 0 (0, 0) (0, 0)) else showSegments all

theorem plainV6_inj {a b : List UInt16} (hlen : a.length = b.length) (ha : a ≠ []) (h : plainV6 a = plainV6 b) :
    a = b := by
  have hb : b ≠ [] := by
    rintro rfl
    exact ha (List.length_eq_zero_iff.mp hlen)
  have hmixed : ∀ {x y : List UInt16} {r : Nat × Nat}, y ≠ [] → compressed x r ≠ showSegments y := by
    intro x y r hy he
    have hs := congrArg (fun s : String => s.toList.splitOn ':') he
    simp only [splitOn_compressed, splitOn_showSegments, fields, hy, ↓reduceIte] at hs
    have hm : ([] : List Char) ∈ y.map fun s => Nat.toDigits 16 s.toNat := by
      rw [← hs]
      simp
    exact digits_ne_nil y [] hm rfl
  unfold plainV6 at h
  split at h
  · split at h
    · exact compressed_inj hlen (zeroRun_zero a) (zeroRun_zero b) h
    · exact absurd h (hmixed hb)
  · split at h
    · exact absurd h.symm (hmixed ha)
    · have hs := congrArg (fun s : String => s.toList.splitOn ':') h
      simp only [splitOn_showSegments, fields, ha, hb, ↓reduceIte] at hs
      exact segments_inj hs

theorem not_mem_plainV6 {all : List UInt16} {c : Char} (hcolon : c ≠ ':') (hc : ∀ d : Fin 16, c ≠ d.val.digitChar) :
    c ∉ (plainV6 all).toList := by
  unfold plainV6 compressed
  split
  · simp only [String.toList_append, List.mem_append, not_or]
    exact ⟨⟨not_mem_showSegments hcolon hc, by simpa using hcolon⟩, not_mem_showSegments hcolon hc⟩
  · exact not_mem_showSegments hcolon hc

theorem colon_mem_plainV6 {all : List UInt16} (hl : 2 ≤ all.length) : ':' ∈ (plainV6 all).toList := by
  unfold plainV6 compressed
  split
  · simp
  · rw [toList_showSegments]
    match all, hl with
    | a :: b :: all, _ => exact mem_intercalate_sep _ _ _

/-- The octets of the dotted tail. -/
def tailOctets (all : List UInt16) : List UInt8 :=
  (all.drop 6).flatMap fun s : UInt16 => [(s >>> 8).toUInt8, s.toUInt8]

theorem octets_inj {s t : UInt16} (hh : (s >>> 8).toUInt8 = (t >>> 8).toUInt8) (hl : s.toUInt8 = t.toUInt8) : s = t := by
  have h1 := congrArg UInt8.toNat hh
  have h2 := congrArg UInt8.toNat hl
  have hs := s.toNat_lt
  have ht := t.toNat_lt
  simp only [UInt16.toNat_toUInt8, UInt16.toNat_shiftRight] at h1 h2
  apply UInt16.toNat_inj.mp
  simp only [UInt16.reduceToNat, Nat.reduceMod, Nat.shiftRight_eq_div_pow] at h1
  omega

theorem tailOctets_inj {a b : List UInt16} (ha : a.length = 8) (hb : b.length = 8) (h : tailOctets a = tailOctets b) :
    a.drop 6 = b.drop 6 := by
  have hpair : ∀ {l : List UInt16}, l.length = 8 → ∃ x y, l.drop 6 = [x, y] := by
    intro l hl
    match hd : l.drop 6 with
    | [x, y] => exact ⟨x, y, rfl⟩
    | [] | [_] | _ :: _ :: _ :: _ =>
      have := congrArg List.length hd
      simp only [List.length_drop, List.length_nil, List.length_cons] at this
      omega
  obtain ⟨x, y, hx⟩ := hpair ha
  obtain ⟨x', y', hx'⟩ := hpair hb
  simp only [tailOctets, hx, hx', List.flatMap_cons, List.flatMap_nil, List.append_nil, List.cons_append,
    List.nil_append, List.cons.injEq] at h
  obtain ⟨h1, h2, h3, h4, -⟩ := h
  rw [hx, hx', octets_inj h1 h2, octets_inj h3 h4]

theorem toText_v6 (segments : Vector UInt16 8) : toText (.v6 segments) =
    if segments.toList.take 6 = [0, 0, 0, 0, 0, 0xffff] then "::ffff:" ++ showV4 (tailOctets segments.toList)
    else plainV6 segments.toList := rfl

theorem tailOctets_ne_nil {l : List UInt16} (hl : l.length = 8) : 2 ≤ (tailOctets l).length := by
  simp [tailOctets, List.length_flatMap, hl]

theorem dot_mem_showV4 {octets : List UInt8} (hl : 2 ≤ octets.length) : '.' ∈ (showV4 octets).toList := by
  rw [toList_showV4]
  match octets, hl with
  | a :: b :: octets, _ => exact mem_intercalate_sep _ _ _

/-- An address is told by its text. -/
theorem toText_inj {a b : IpAddr} (h : a.toText = b.toText) : a = b := by
  have hcolon : ∀ s : Vector UInt16 8, ':' ∈ (toText (.v6 s)).toList := by
    intro s
    rw [toText_v6]
    split
    · simp
    · exact colon_mem_plainV6 (by simp)
  have hv4 : ∀ o : Vector UInt8 4, ':' ∉ (toText (.v4 o)).toList := fun o =>
    not_mem_showV4 (by decide) (by decide)
  match a, b with
  | .v4 a, .v4 b =>
    have he := showV4_inj (a := a.toList) (b := b.toList) (by simp) (by simp) h
    rw [Vector.toList_inj.mp he]
  | .v4 a, .v6 b => exact absurd (h ▸ hcolon b) (hv4 a)
  | .v6 a, .v4 b => exact absurd (h.symm ▸ hcolon a) (hv4 b)
  | .v6 a, .v6 b =>
    have ha : a.toList.length = 8 := by simp
    have hb : b.toList.length = 8 := by simp
    have hmixed : ∀ {x y : List UInt16}, x.length = 8 → "::ffff:" ++ showV4 (tailOctets x) ≠ plainV6 y := by
      intro x y hx he
      have hdot : '.' ∈ ("::ffff:" ++ showV4 (tailOctets x)).toList := by
        rw [String.toList_append]
        exact List.mem_append_right _ (dot_mem_showV4 (tailOctets_ne_nil hx))
      rw [he] at hdot
      exact not_mem_plainV6 (by decide) (by decide) hdot
    suffices he : a.toList = b.toList by rw [Vector.toList_inj.mp he]
    rw [toText_v6, toText_v6] at h
    split at h
    · rename_i hma
      split at h
      · rename_i hmb
        have hl := congrArg String.toList h
        rw [String.toList_append, String.toList_append] at hl
        have hs := showV4_inj (by have := tailOctets_ne_nil ha; intro he; simp [he] at this)
          (by have := tailOctets_ne_nil hb; intro he; simp [he] at this) (toList_inj (List.append_cancel_left hl))
        rw [← List.take_append_drop 6 a.toList, ← List.take_append_drop 6 b.toList, hma, hmb,
          tailOctets_inj ha hb hs]
      · exact absurd h (hmixed ha)
    · split at h
      · exact absurd h.symm (hmixed hb)
      · exact plainV6_inj (ha.trans hb.symm) (by intro he; simp [he] at ha) h

theorem not_mem_toText {a : IpAddr} {c : Char} (hdot : c ≠ '.') (hcolon : c ≠ ':')
    (hc : ∀ d : Fin 16, c ≠ d.val.digitChar) : c ∉ a.toText.toList := by
  match a with
  | .v4 octets => exact not_mem_showV4 hdot hc
  | .v6 segments =>
    rw [toText_v6]
    split
    · have hf : c ≠ 'f' := hc 15
      rw [String.toList_append]
      simp [not_mem_showV4 hdot hc, hcolon, hf]
    · exact not_mem_plainV6 hcolon hc

end IpAddr

namespace SocketAddr

/-- What stands between the brackets of an IPv6 socket address. -/
def zone (a : SocketAddr) : String := if a.scope = 0 then "" else "%" ++ toString a.scope.val

theorem scope_inj {a b : SocketAddr} (h : a.ip.toText ++ a.zone = b.ip.toText ++ b.zone) :
    a.ip = b.ip ∧ a.scope = b.scope := by
  have hp : ∀ ip : IpAddr, '%' ∉ ip.toText.toList := fun ip =>
    IpAddr.not_mem_toText (by decide) (by decide) (by decide)
  have hl := congrArg String.toList h
  unfold zone at hl
  split at hl
  · rename_i ha
    split at hl
    · rename_i hb
      simp only [String.append_empty] at hl
      exact ⟨IpAddr.toText_inj (toList_inj hl), ha.trans hb.symm⟩
    · refine absurd ?_ (hp a.ip)
      simp only [String.append_empty] at hl
      rw [hl]
      simp
  · split at hl
    · refine absurd ?_ (hp b.ip)
      simp only [String.append_empty] at hl
      rw [← hl]
      simp
    · simp only [String.toList_append] at hl
      obtain ⟨hi, hz⟩ := split_inj (hp a.ip) (hp b.ip) hl
      exact ⟨IpAddr.toText_inj (toList_inj hi), Fin.ext (toString_inj (toList_inj hz))⟩

/-- A socket address is told by its text. -/
theorem toText_inj {a b : SocketAddr} (h : a.toText = b.toText) : a = b := by
  have hport : ∀ {p q : UInt16}, (toString p.toNat).toList = (toString q.toNat).toList → p = q := fun h =>
    UInt16.toNat_inj.mp (toString_inj (toList_inj h))
  have hhead : ∀ {o : Vector UInt8 4} {p : UInt16} {rest : List Char},
      ((IpAddr.v4 o).toText ++ ":" ++ toString p.toNat).toList ≠ '[' :: rest := by
    intro o p rest he
    have hm : '[' ∈ ((IpAddr.v4 o).toText ++ ":" ++ toString p.toNat).toList := he ▸ List.mem_cons_self
    simp only [String.toList_append, List.mem_append] at hm
    obtain (hm | hm) | hm := hm
    · exact IpAddr.not_mem_toText (by decide) (by decide) (by decide) hm
    · simp at hm
    · exact not_mem_toString (by decide) hm
  have hl := congrArg String.toList h
  obtain ⟨ip, port, scope, hz⟩ := a
  obtain ⟨ip', port', scope', hz'⟩ := b
  match ip, ip' with
  | .v4 o, .v4 o' =>
    simp only [toText, String.toList_append, List.append_assoc] at hl
    have hc : ∀ o : Vector UInt8 4, ':' ∉ (IpAddr.v4 o).toText.toList := fun o =>
      IpAddr.not_mem_showV4 (by decide) (by decide)
    obtain ⟨hi, hp⟩ := split_inj (hc o) (hc o') hl
    obtain rfl := hport hp
    obtain rfl := (hz rfl).trans (hz' rfl).symm
    obtain h' := IpAddr.toText_inj (toList_inj hi)
    cases h'
    rfl
  | .v4 o, .v6 s' =>
    refine absurd hl ?_
    simpa [toText] using hhead
  | .v6 s, .v4 o' =>
    refine absurd hl.symm ?_
    simpa [toText] using hhead
  | .v6 s, .v6 s' =>
    have htext : ∀ a : SocketAddr, a.ip.isIpv4 = false →
        a.toText.toList = '[' :: ((a.ip.toText ++ a.zone).toList ++ ']' :: ':' :: (toString a.port.toNat).toList) := by
      intro a ha
      unfold toText zone
      split
      · rename_i he
        rw [he] at ha
        cases ha
      · simp
    have hb : ∀ a : SocketAddr, ']' ∉ (a.ip.toText ++ a.zone).toList := by
      intro a hm
      rw [String.toList_append, List.mem_append] at hm
      obtain hm | hm := hm
      · exact IpAddr.not_mem_toText (by decide) (by decide) (by decide) hm
      · unfold zone at hm
        split at hm
        · simp at hm
        · simp only [String.toList_append, List.mem_append] at hm
          obtain hm | hm := hm
          · simp at hm
          · exact not_mem_toString (by decide) hm
    rw [htext _ rfl, htext _ rfl, List.cons.injEq] at hl
    obtain ⟨hi, hp⟩ := split_inj (hb _) (hb _) hl.2
    obtain ⟨hip, hscope⟩ := scope_inj (toList_inj hi)
    simp only [List.cons.injEq, true_and] at hp
    obtain rfl := hport hp
    cases hip
    cases hscope
    rfl

end SocketAddr

end Gatel
