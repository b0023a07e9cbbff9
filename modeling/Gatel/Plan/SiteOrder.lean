import Gatel.Plan.RouteOrder

namespace Gatel.Frontend
open Gatel.Diagnostics (hasErrors)
open Shuffle (Shuffled)

variable (fe : Frontend) (id : ResourceId) (host : HostMatch) (owner : SourceId)

/-! What one child of a site adds, by the kind of node it is. -/

def siteRouted (child : Node) : Yield Route :=
  if child.name = "route" then fe.route child id host owner else .fail []

def siteDecoded (child : Node) : Decode DirectiveInstance :=
  if child.name = "route" ∨ child.name = "tls" then ⟨none, []⟩
  else fe.registry.decode fe.blake3 child .site

def siteMiddleware (child : Node) : List DirectiveInstance :=
  (fe.siteDecoded child).value.toList.filter fun d => !d.metadata.role.isTerminal

/-- A terminal has no place in a site. -/
def misplaced (child : Node) : Diagnostics :=
  ((fe.siteDecoded child).value.toList.filter fun d => d.metadata.role.isTerminal).map fun d =>
    (Diagnostic.error .invalidScope child.origin
      ("`" ++ d.metadata.name ++ "` is a terminal and belongs in a route")).withHelp
        "a site cannot answer a request by itself"

def siteSaid (child : Node) : Diagnostics :=
  (fe.siteRouted id host owner child).diagnostics ++ (fe.siteDecoded child).diagnostics ++ fe.misplaced child

theorem siteChild_eq (b : SiteBody) {child : Node} (ht : child.name ≠ "tls") :
    fe.siteChild id host owner b child = { b with
      directives := b.directives ++ fe.siteMiddleware child
      routes := b.routes ++ (fe.siteRouted id host owner child).value.toList
      inline := b.inline ++ (fe.siteRouted id host owner child).inline
      diagnostics := b.diagnostics ++ fe.siteSaid id host owner child } := by
  unfold siteChild
  by_cases hr : child.name = "route"
  · simp [hr, siteRouted, siteMiddleware, siteSaid, siteDecoded, misplaced]
  · simp only [hr, ht, siteDirective, siteRouted, siteMiddleware, siteSaid, siteDecoded, misplaced, or_self,
      ↓reduceIte, Yield.fail]
    cases hv : (fe.registry.decode fe.blake3 child .site).value with
    | none => simp
    | some d =>
      by_cases hterm : d.metadata.role.isTerminal = true
      · simp [hterm]
      · simp [hterm]

def isTls (child : Node) : Bool := child.name = "tls"

/-- The first `tls` child that decodes. -/
def tlsOf (children : List Node) : Option SiteTls := children.findSome? fun c => (siteTls c).value

@[grind =] def tlsErrs : List Node → Bool
  | [] => false
  | [only] => hasErrors (siteTls only).diagnostics
  | _ :: _ :: _ => true

theorem certificateSource_none {node : Node} (h : (certificateSource node).value = none) :
    hasErrors (certificateSource node).diagnostics = true := by
  have hm : (certificateSource.manual node).value = none →
      hasErrors (certificateSource.manual node).diagnostics = true := by
    unfold certificateSource.manual
    dsimp only
    cases (siteSecret node "cert").value with
    | none => simp
    | some c =>
      cases (siteSecret node "key").value with
      | none => simp
      | some k => simp
  unfold certificateSource at h ⊢
  split at h
  · split at h
    · cases h
    · cases h
    · simp [Decode.fail]
    · rename_i heq
      simpa [heq] using hm h
  · rename_i heq
    simpa using hm h

theorem clientAuth_none {node : Node} (h : (clientAuth node).value = none) :
    hasErrors (clientAuth node).diagnostics = true := by
  unfold clientAuth at h ⊢
  split at h
  · cases h
  · split at h
    · rfl
    · split at h
      · rfl
      · cases h

/-- A `tls` node that does not decode has said why. -/
theorem siteTls_none {node : Node} (h : (siteTls node).value = none) :
    hasErrors (siteTls node).diagnostics = true := by
  unfold siteTls at h ⊢
  simp only [bind, Decode.andThen] at h ⊢
  cases hs : (certificateSource node).value with
  | none => simpa [hs] using certificateSource_none hs
  | some source =>
    simp only [hs] at h ⊢
    cases ha : (clientAuth node).value with
    | none => simp [clientAuth_none ha]
    | some auth => simp [ha, Decode.tell, pure, Decode.ok] at h

structure SiteSummary (heading : Diagnostics) (children : List Node) (b : SiteBody) : Prop where
  tls : b.tls = tlsOf (children.filter isTls)
  directives : b.directives = children.flatMap fe.siteMiddleware
  routes : b.routes = children.flatMap fun c => (fe.siteRouted id host owner c).value.toList
  inline : b.inline = children.flatMap fun c => (fe.siteRouted id host owner c).inline
  errors : hasErrors b.diagnostics = (hasErrors heading ||
    (children.filter fun c => !isTls c).any (fun c => hasErrors (fe.siteSaid id host owner c)) ||
    tlsErrs (children.filter isTls))

theorem nonTls_summary {heading : Diagnostics} {children : List Node} {b : SiteBody}
    (h : SiteSummary fe id host owner heading children b) {child : Node} (ht : child.name ≠ "tls") :
    SiteSummary fe id host owner heading (children ++ [child]) (fe.siteChild id host owner b child) := by
  obtain ⟨h1, h2, h3, h4, h5⟩ := h
  have hf : (children ++ [child]).filter isTls = children.filter isTls := by simp [isTls, ht]
  have hn : (children ++ [child]).filter (fun c => !isTls c) = children.filter (fun c => !isTls c) ++ [child] := by
    simp [isTls, ht]
  rw [siteChild_eq fe id host owner b ht]
  refine ⟨?_, ?_, ?_, ?_, ?_⟩
  · rw [hf]; exact h1
  · simp [h2]
  · simp [h3]
  · simp [h4]
  · rw [hf, hn]
    simp only [Diagnostics.hasErrors_append, h5, List.any_append, List.any_cons, List.any_nil, Bool.or_false]
    ac_rfl

theorem tls_summary {heading : Diagnostics} {children : List Node} {b : SiteBody}
    (h : SiteSummary fe id host owner heading children b) {child : Node} (ht : child.name = "tls") :
    SiteSummary fe id host owner heading (children ++ [child]) (fe.siteChild id host owner b child) := by
  obtain ⟨h1, h2, h3, h4, h5⟩ := h
  have hf : (children ++ [child]).filter isTls = children.filter isTls ++ [child] := by simp [isTls, ht]
  have hn : (children ++ [child]).filter (fun c => !isTls c) = children.filter (fun c => !isTls c) := by
    simp [isTls, ht]
  have hr : fe.siteRouted id host owner child = .fail [] := by simp [siteRouted, ht]
  have hd : fe.siteDecoded child = ⟨none, []⟩ := by simp [siteDecoded, ht]
  have hb : fe.siteChild id host owner b child = siteTlsChild b child := by simp [siteChild, ht]
  have hrest : b.directives = (children ++ [child]).flatMap fe.siteMiddleware ∧
      (b.routes = (children ++ [child]).flatMap fun c => (fe.siteRouted id host owner c).value.toList) ∧
      b.inline = (children ++ [child]).flatMap fun c => (fe.siteRouted id host owner c).inline := by
    refine ⟨?_, ?_, ?_⟩
    · simp [h2, siteMiddleware, hd]
    · simp [h3, hr, Yield.fail]
    · simp [h4, hr, Yield.fail]
  obtain ⟨e2, e3, e4⟩ := hrest
  rw [hb]
  unfold siteTlsChild
  cases hl : children.filter isTls with
  | nil =>
    rw [hl] at h1 h5
    have hnone : b.tls = none := h1
    rw [hnone]
    refine ⟨?_, e2, e3, e4, ?_⟩
    · simp only [hf, hl, tlsOf, List.nil_append, List.findSome?_cons, List.findSome?_nil]
      cases (siteTls child).value <;> rfl
    · simp [hf, hl, hn, h5, tlsErrs]
  | cons first rest =>
    have herrs : tlsErrs ((children ++ [child]).filter isTls) = true := by
      rw [hf, hl]
      cases rest <;> rfl
    rw [hl] at h1 h5
    cases hb : b.tls with
    | some tls =>
      refine ⟨?_, e2, e3, e4, ?_⟩
      · rw [hf, hl, tlsOf, List.findSome?_append]
        rw [h1] at hb
        unfold tlsOf at hb
        rw [hb]
        rfl
      · rw [herrs]
        simp
    | none =>
      -- the first `tls` child did not decode, so its error is already there
      have hfail : (siteTls first).value = none := by
        rw [h1, tlsOf, List.findSome?_cons] at hb
        cases hv : (siteTls first).value with
        | none => rfl
        | some t => simp [hv] at hb
      have hseen : hasErrors b.diagnostics = true := by
        have hone : tlsErrs (first :: rest) = true := by
          cases rest with
          | nil => exact siteTls_none hfail
          | cons _ _ => rfl
        rw [h5, hone]
        simp
      refine ⟨?_, e2, e3, e4, ?_⟩
      · rw [hf, hl, tlsOf, List.findSome?_append]
        rw [h1] at hb
        unfold tlsOf at hb
        rw [hb]
        simp only [Option.none_or, List.findSome?_cons, List.findSome?_nil]
        cases (siteTls child).value <;> rfl
      · rw [herrs]
        simp [hseen]

theorem siteBody_summary (node : Node) (heading : Diagnostics) :
    SiteSummary fe id host owner heading node.children (fe.siteBody node id host owner heading) := by
  have hall : ∀ children : List Node, SiteSummary fe id host owner heading children
      (children.foldl (fe.siteChild id host owner) ⟨none, [], [], [], heading⟩) := by
    intro children
    induction children using List.reverseRecOn with
    | nil => exact ⟨rfl, rfl, rfl, rfl, by simp [tlsErrs]⟩
    | append_singleton children child ih =>
      rw [List.foldl_append, List.foldl_cons, List.foldl_nil]
      by_cases ht : child.name = "tls"
      · exact tls_summary fe id host owner ih ht
      · exact nonTls_summary fe id host owner ih ht
  exact hall node.children

/-- A child of a site: a route may have its own children reordered. -/
def ChildReordered (c c' : Node) : Prop := c = c' ∨ (c.name = "route" ∧ RouteReordered c c')

theorem ChildReordered.refl (c : Node) : ChildReordered c c := Or.inl rfl

theorem ChildReordered.symm {c c' : Node} (h : ChildReordered c c') : ChildReordered c' c := by
  obtain rfl | ⟨hn, hr⟩ := h
  · exact Or.inl rfl
  · exact Or.inr ⟨hr.name ▸ hn, hr.symm⟩

theorem ChildReordered.name {c c' : Node} (h : ChildReordered c c') : c.name = c'.name := by
  obtain rfl | ⟨_, hr⟩ := h
  · rfl
  · exact hr.name

/-- A site with its routes and directives in another order. -/
structure SiteReordered (n n' : Node) : Prop where
  name : n.name = n'.name
  args : n.args = n'.args
  props : n.props = n'.props
  origin : n.origin = n'.origin
  children : Shuffled ChildReordered n.children n'.children

theorem SiteReordered.symm {n n' : Node} (h : SiteReordered n n') : SiteReordered n' n :=
  ⟨h.name.symm, h.args.symm, h.props.symm, h.origin.symm, h.children.symm fun _ _ => ChildReordered.symm⟩

theorem siteRouted_reordered {c c' : Node} (h : ChildReordered c c') :
    SameOutcome (fe.siteRouted id host owner c) (fe.siteRouted id host owner c') := by
  obtain rfl | ⟨hn, hr⟩ := h
  · exact ⟨rfl, .refl _, rfl⟩
  · have hn' : c'.name = "route" := hr.name ▸ hn
    simp only [siteRouted, hn, hn', ↓reduceIte]
    exact route_reordered fe id owner hr host

theorem siteDecoded_reordered {c c' : Node} (h : ChildReordered c c') :
    fe.siteDecoded c = fe.siteDecoded c' ∧ fe.misplaced c = fe.misplaced c' := by
  obtain rfl | ⟨hn, hr⟩ := h
  · exact ⟨rfl, rfl⟩
  · have hn' : c'.name = "route" := hr.name ▸ hn
    simp [misplaced, siteDecoded, hn, hn']

theorem siteSaid_reordered {c c' : Node} (h : ChildReordered c c') :
    hasErrors (fe.siteSaid id host owner c) = hasErrors (fe.siteSaid id host owner c') := by
  obtain ⟨hd, hm⟩ := siteDecoded_reordered fe h
  simp only [siteSaid, Diagnostics.hasErrors_append, hd, hm, (siteRouted_reordered fe id host owner h).errors]

/-- Two or more `tls` children are an error in every order; one is one. -/
theorem tls_perm {ts ts' : List Node} (h : ts.Perm ts') :
    tlsErrs ts = tlsErrs ts' ∧ (tlsErrs ts = false → tlsOf ts = tlsOf ts') := by
  match ts, ts', h with
  | [], ts', h =>
    obtain rfl := h.nil_eq
    exact ⟨rfl, fun _ => rfl⟩
  | [t], ts', h =>
    obtain rfl := h.singleton_eq
    exact ⟨rfl, fun _ => rfl⟩
  | a :: b :: ts, ts', h =>
    have hl := h.length_eq
    match ts', hl with
    | a' :: b' :: ts', _ => exact ⟨rfl, fun hf => by simp [tlsErrs] at hf⟩

structure SiteBodiesAgree (b b' : SiteBody) : Prop where
  errors : hasErrors b.diagnostics = hasErrors b'.diagnostics
  inline : b.inline.Perm b'.inline
  directives : b.directives.Perm b'.directives
  routes : b.routes.Perm b'.routes
  tls : hasErrors b.diagnostics = false → b.tls = b'.tls

theorem siteBody_reordered {n n' : Node} (h : SiteReordered n n') (heading : Diagnostics) :
    SiteBodiesAgree (fe.siteBody n id host owner heading) (fe.siteBody n' id host owner heading) := by
  have hb := fe.siteBody_summary id host owner n heading
  have hb' := fe.siteBody_summary id host owner n' heading
  have htls : (n.children.filter isTls).Perm (n'.children.filter isTls) := by
    refine h.children.filter_perm ?_ ?_
    · intro a b hab
      simp [isTls, hab.name]
    · intro a b hab hp
      obtain rfl | ⟨hn, _⟩ := hab
      · rfl
      · simp [isTls, hn] at hp
  obtain ⟨hte, htv⟩ := tls_perm htls
  have hany : ((n.children.filter fun c => !isTls c).any fun c => hasErrors (fe.siteSaid id host owner c)) =
      (n'.children.filter fun c => !isTls c).any fun c => hasErrors (fe.siteSaid id host owner c) := by
    rw [List.any_filter, List.any_filter]
    refine h.children.any_eq ?_
    intro a b hab
    simp only [isTls, hab.name, siteSaid_reordered fe id host owner hab]
  have herr : hasErrors (fe.siteBody n id host owner heading).diagnostics =
      hasErrors (fe.siteBody n' id host owner heading).diagnostics := by
    rw [hb.errors, hb'.errors, hany, hte]
  refine ⟨herr, ?_, ?_, ?_, ?_⟩
  · rw [hb.inline, hb'.inline]
    refine h.children.flatMap_perm ?_
    intro a b hab
    exact (siteRouted_reordered fe id host owner hab).inline
  · rw [hb.directives, hb'.directives]
    refine h.children.flatMap_perm ?_
    intro a b hab
    rw [siteMiddleware, siteMiddleware, (siteDecoded_reordered fe hab).1]
  · rw [hb.routes, hb'.routes]
    refine h.children.flatMap_perm ?_
    intro a b hab
    rw [(siteRouted_reordered fe id host owner hab).value]
  · intro hclean
    rw [hb.tls, hb'.tls]
    refine htv ?_
    rw [hb.errors] at hclean
    simp only [Bool.or_eq_false_iff] at hclean
    exact hclean.2

/-- The same site with its routes in another order. -/
def SiteAlike (a b : Site) : Prop := b = { a with routes := b.routes } ∧ a.routes.Perm b.routes

theorem SiteAlike.refl (a : Site) : SiteAlike a a := ⟨rfl, .refl _⟩

theorem siteTail_agree {n n' : Node} {b b' : SiteBody} (h : SiteBodiesAgree b b') :
    hasErrors (siteTail n host b) = hasErrors (siteTail n' host b') := by
  have hr : b.routes.isEmpty = b'.routes.isEmpty := by
    have := h.routes.length_eq
    cases hb : b.routes <;> cases hb' : b'.routes <;> grind
  simp only [siteTail, Diagnostics.hasErrors_append, hr, h.errors, rejectDuplicate_perm h.directives]
  split <;> rfl

/-- What reordering a site changes: the order of its routes and of the inline
upstreams met in them. -/
structure SiteOutcomeAlike (a b : Yield Site) : Prop where
  errors : hasErrors a.diagnostics = hasErrors b.diagnostics
  inline : a.inline.Perm b.inline
  value : Option.Rel SiteAlike a.value b.value

theorem site_reordered {n n' : Node} (h : SiteReordered n n') :
    SiteOutcomeAlike (fe.site n owner) (fe.site n' owner) := by
  unfold site
  rw [h.args, h.props, h.origin]
  cases n'.args.head?.bind fun v => v.asStr.map fun raw => (v, raw) with
  | none => exact ⟨rfl, .refl _, .none⟩
  | some first =>
    obtain ⟨value, raw⟩ := first
    dsimp only
    cases HostMatch.parse raw with
    | error message => exact ⟨rfl, .refl _, .none⟩
    | ok host =>
      dsimp only
      generalize n'.props.foldl siteProp _ = props
      cases (ownedName .site owner n'.origin props.explicit (fe.siteId host owner props.listeners)).value with
      | none => exact ⟨rfl, .refl _, .none⟩
      | some id =>
        dsimp only
        have hb := siteBody_reordered fe id host owner h props.diagnostics
        have ht := @siteTail_agree host n n' _ _ hb
        generalize hg : fe.siteBody n id host owner props.diagnostics = b at hb ht ⊢
        generalize hg' : fe.siteBody n' id host owner props.diagnostics = b' at hb ht ⊢
        have he : hasErrors (b.diagnostics ++ siteTail n host b) =
            hasErrors (b'.diagnostics ++ siteTail n' host b') := by
          simp only [Diagnostics.hasErrors_append, hb.errors, ht]
        refine ⟨he, hb.inline, ?_⟩
        cases hc : hasErrors (b.diagnostics ++ siteTail n host b) with
        | true =>
          have hc' := he ▸ hc
          simp only [hc', ↓reduceIte]
          exact .none
        | false =>
          have hc' := he ▸ hc
          simp only [hc', Bool.false_eq_true, ↓reduceIte]
          simp only [Diagnostics.hasErrors_append, siteTail, Bool.or_eq_false_iff] at hc
          obtain ⟨hclean, -, hdup⟩ := hc
          rw [rejectDuplicateDirectives_clean] at hdup
          refine .some ⟨?_, hb.routes⟩
          rw [hb.tls hclean, ownAll_perm fe hb.directives hdup]

end Gatel.Frontend
