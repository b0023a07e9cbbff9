import Gatel.Lib.KeepFirst
import Gatel.Plan.SiteOrder

namespace Gatel.Frontend
open Gatel.Diagnostics (hasErrors)
open KeepFirst (Event record declared offered)
open Shuffle (Shuffled)

variable (fe : Frontend)

/-! What one top-level node adds to the pass. -/

def siteOutcome (item : SourceId × Node) : Yield Site :=
  if item.2.name = "site" then fe.site item.2 item.1 else .fail []

def upstreamDecoded (item : SourceId × Node) : Decode Upstream :=
  if item.2.name = "upstream" then fe.upstream item.2 item.1 else ⟨none, []⟩

/-- A named upstream is always recorded, an inline one only under a new identity. -/
def events (item : SourceId × Node) : List (Event Upstream) :=
  (fe.siteOutcome item).inline.map .offer ++ (fe.upstreamDecoded item).value.toList.map .declare

def isGlobal (item : SourceId × Node) : Bool := item.2.name = "global" ∧ item.1.kind = .file

/-- What an item other than a file's `global` reports. -/
def itemSaid (item : SourceId × Node) : Diagnostics :=
  (fe.siteOutcome item).diagnostics ++ (fe.upstreamDecoded item).diagnostics ++
    (if item.2.name = "global" then
      [.error .ownershipConflict item.2.origin "only file sources may declare global host configuration"] else []) ++
    if item.2.name = "global" ∨ item.2.name = "site" ∨ item.2.name = "upstream" then []
    else [Pass.unknownNode item.2]

theorem shareUpstream_eq (upstreams : List Upstream) (u : Upstream) :
    shareUpstream upstreams u = KeepFirst.offer Upstream.id upstreams u := rfl

theorem foldl_share (inline upstreams : List Upstream) :
    inline.foldl shareUpstream upstreams = (inline.map Event.offer).foldl (record Upstream.id) upstreams := by
  rw [List.foldl_map]
  rfl

theorem step_eq (p : Pass) {item : SourceId × Node} (hg : isGlobal item = false) :
    p.step fe item = { p with
      sites := p.sites ++ (fe.siteOutcome item).value.toList
      upstreams := (fe.events item).foldl (record Upstream.id) p.upstreams
      diagnostics := p.diagnostics ++ fe.itemSaid item } := by
  obtain ⟨owner, node⟩ := item
  simp only [isGlobal, decide_eq_false_iff_not, not_and] at hg
  by_cases hn : node.name = "global"
  · have hk := hg hn
    simp [Pass.step, hn, hk, Pass.said, siteOutcome, upstreamDecoded, events, itemSaid, Yield.fail]
  · by_cases hs : node.name = "site"
    · simp [Pass.step, hs, Pass.said, siteOutcome, upstreamDecoded, events, itemSaid, foldl_share]
    · by_cases hu : node.name = "upstream"
      · cases hv : (fe.upstream node owner).value with
        | none => simp [Pass.step, hu, Pass.said, siteOutcome, upstreamDecoded, events, itemSaid, Yield.fail, hv]
        | some u =>
          simp [Pass.step, hu, Pass.said, siteOutcome, upstreamDecoded, events, itemSaid, Yield.fail, hv, record]
      · simp [Pass.step, hn, hs, hu, Pass.said, siteOutcome, upstreamDecoded, events, itemSaid, Yield.fail]

def globalOf (items : List (SourceId × Node)) : Option (Global × List Listener × Origin) :=
  items.findSome? fun item => (fe.global item.2 item.1).value.map fun g => (g.1, g.2, item.2.origin)

def globalErrs : List (SourceId × Node) → Bool
  | [] => false
  | [only] => hasErrors (fe.global only.2 only.1).diagnostics
  | _ :: _ :: _ => true

structure PassSummary (items : List (SourceId × Node)) (p : Pass) : Prop where
  global : p.global = fe.globalOf (items.filter isGlobal)
  sites : p.sites = items.flatMap fun item => (fe.siteOutcome item).value.toList
  upstreams : p.upstreams = (items.flatMap fe.events).foldl (record Upstream.id) []
  errors : hasErrors p.diagnostics =
    ((items.filter fun i => !isGlobal i).any (fun i => hasErrors (fe.itemSaid i)) ||
      fe.globalErrs (items.filter isGlobal))

theorem other_summary {items : List (SourceId × Node)} {p : Pass} (h : PassSummary fe items p)
    {item : SourceId × Node} (hg : isGlobal item = false) :
    PassSummary fe (items ++ [item]) (p.step fe item) := by
  obtain ⟨h1, h2, h3, h4⟩ := h
  have hf : (items ++ [item]).filter isGlobal = items.filter isGlobal := by simp [hg]
  have hn : (items ++ [item]).filter (fun i => !isGlobal i) = items.filter (fun i => !isGlobal i) ++ [item] := by
    simp [hg]
  rw [step_eq fe p hg]
  refine ⟨?_, ?_, ?_, ?_⟩
  · rw [hf]; exact h1
  · simp [h2]
  · simp [h3]
  · rw [hf, hn]
    simp only [Diagnostics.hasErrors_append, h4, List.any_append, List.any_cons, List.any_nil, Bool.or_false]
    ac_rfl

theorem global_summary {items : List (SourceId × Node)} {p : Pass} (h : PassSummary fe items p)
    {item : SourceId × Node} (hg : isGlobal item = true) :
    PassSummary fe (items ++ [item]) (p.step fe item) := by
  obtain ⟨h1, h2, h3, h4⟩ := h
  obtain ⟨owner, node⟩ := item
  have hf : (items ++ [(owner, node)]).filter isGlobal = items.filter isGlobal ++ [(owner, node)] := by simp [hg]
  have hn : (items ++ [(owner, node)]).filter (fun i => !isGlobal i) = items.filter (fun i => !isGlobal i) := by
    simp [hg]
  simp only [isGlobal, decide_eq_true_eq] at hg
  have hs : fe.siteOutcome (owner, node) = .fail [] := by simp [siteOutcome, hg.1]
  have hu : fe.upstreamDecoded (owner, node) = ⟨none, []⟩ := by simp [upstreamDecoded, hg.1]
  have hstep : p.step fe (owner, node) = p.globalNode fe owner node := by simp [Pass.step, hg.1, hg.2]
  have e2 : p.sites = (items ++ [(owner, node)]).flatMap fun item => (fe.siteOutcome item).value.toList := by
    simp [h2, hs, Yield.fail]
  have e3 : p.upstreams = ((items ++ [(owner, node)]).flatMap fe.events).foldl (record Upstream.id) [] := by
    simp [h3, events, hs, hu, Yield.fail]
  rw [hstep]
  unfold Pass.globalNode
  cases hl : items.filter isGlobal with
  | nil =>
    rw [hl] at h1 h4
    have hnone : p.global = none := h1
    rw [hnone]
    refine ⟨?_, e2, e3, ?_⟩
    · simp only [hf, hl, globalOf, List.nil_append, List.findSome?_cons, List.findSome?_nil]
      cases (fe.global node owner).value <;> rfl
    · simp only [hf, hl, hn, Pass.said, Diagnostics.hasErrors_append, h4, globalErrs, List.nil_append, Bool.or_false]
  | cons first rest =>
    have herrs : fe.globalErrs ((items ++ [(owner, node)]).filter isGlobal) = true := by
      rw [hf, hl]
      cases rest <;> rfl
    rw [hl] at h1 h4
    cases hb : p.global with
    | some g =>
      refine ⟨?_, e2, e3, ?_⟩
      · rw [hf, hl, globalOf, List.findSome?_append]
        have hg1 := h1
        rw [hb, globalOf] at hg1
        show p.global = _
        rw [hb, ← hg1]
        rfl
      · rw [herrs]
        simp [Pass.said]
    | none =>
      -- the first `global` was dropped, so its error is already there
      have hfail : (fe.global first.2 first.1).value = none := by
        rw [h1, globalOf, List.findSome?_cons] at hb
        cases hv : (fe.global first.2 first.1).value with
        | none => rfl
        | some t => simp [hv] at hb
      have hseen : hasErrors p.diagnostics = true := by
        have hone : fe.globalErrs (first :: rest) = true := by
          cases rest with
          | nil => exact fe.global_none hfail
          | cons _ _ => rfl
        rw [h4, hone]
        simp
      refine ⟨?_, e2, e3, ?_⟩
      · rw [hf, hl, globalOf, List.findSome?_append]
        rw [h1, globalOf] at hb
        rw [hb]
        simp only [Option.none_or, List.findSome?_cons, List.findSome?_nil]
        cases (fe.global node owner).value <;> rfl
      · rw [herrs]
        simp [Pass.said, hseen]

theorem pass_summary (items : List (SourceId × Node)) :
    PassSummary fe items (items.foldl (Pass.step fe) Pass.start) := by
  induction items using List.reverseRecOn with
  | nil => exact ⟨rfl, rfl, rfl, rfl⟩
  | append_singleton items item ih =>
    rw [List.foldl_append, List.foldl_cons, List.foldl_nil]
    cases hg : isGlobal item with
    | true => exact global_summary fe ih hg
    | false => exact other_summary fe ih hg

end Gatel.Frontend
