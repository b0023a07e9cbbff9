import Gatel.Lib.Shuffle
import Gatel.Plan.Normalize

namespace Gatel.Frontend
open CanonicalSort (sortBy sortBy_eq_of_perm)
open Gatel.Diagnostics (hasErrors)

variable (fe : Frontend) (site : ResourceId) (owner : SourceId)

/-! What one child of a route adds, by the kind of node it is. -/

def routeMatchers (child : Node) : List Matcher :=
  if child.name = "match" then (parseMatchNode fe.leaves child).value else []

def routeDecoded (child : Node) : Decode DirectiveInstance :=
  if child.name = "method" ∨ child.name = "match" ∨ child.name = "proxy" then ⟨none, []⟩
  else fe.registry.decode fe.blake3 child .route

def routeMiddleware (child : Node) : List DirectiveInstance :=
  (fe.routeDecoded child).value.toList.filter fun d => !d.metadata.role.isTerminal

def routeProxied (child : Node) : Yield Terminal :=
  if child.name = "proxy" then fe.proxy child site owner else .fail []

def routeTerminals (child : Node) : List (Terminal × Origin) :=
  (fe.routeProxied site owner child).value.toList.map (fun t => (t, child.origin)) ++
    ((fe.routeDecoded child).value.toList.filter fun d => d.metadata.role.isTerminal).map fun d =>
      (.directive d, child.origin)

/-- What a child other than `method` reports. -/
def routeSaid (child : Node) : Diagnostics :=
  (fe.routeDecoded child).diagnostics ++ (fe.routeProxied site owner child).diagnostics ++
    if child.name = "match" then (parseMatchNode fe.leaves child).diagnostics else []

theorem routeChild_eq (b : RouteBody) {child : Node} (hm : child.name ≠ "method") :
    fe.routeChild site owner b child = { b with
      matchers := b.matchers ++ fe.routeMatchers child
      directives := b.directives ++ fe.routeMiddleware child
      terminals := b.terminals ++ fe.routeTerminals site owner child
      inline := b.inline ++ (fe.routeProxied site owner child).inline
      diagnostics := b.diagnostics ++ fe.routeSaid site owner child } := by
  unfold routeChild
  rw [if_neg hm]
  by_cases hmatch : child.name = "match"
  · simp [hmatch, routeMatchers, routeMiddleware, routeTerminals, routeSaid, routeDecoded, routeProxied,
      Yield.fail]
  · by_cases hproxy : child.name = "proxy"
    · simp [hproxy, routeMatchers, routeMiddleware, routeTerminals, routeSaid, routeDecoded, routeProxied]
    · simp only [hmatch, hproxy, routeDirective, routeMatchers, routeMiddleware, routeTerminals, routeSaid,
        routeDecoded, routeProxied, Yield.fail, hm, or_self, ↓reduceIte]
      cases hv : (fe.registry.decode fe.blake3 child .route).value with
      | none => simp
      | some d =>
        by_cases ht : d.metadata.role.isTerminal = true
        · simp [ht]
        · simp [ht]

def isMethod (child : Node) : Bool := child.name = "method"

def methodsOf (child : Node) : Except String MethodMatch :=
  let names := child.args.filterMap Value.asStr
  if names.length ≠ child.args.length then .error "methods must be strings" else MethodMatch.parse names

/-- The methods of a route from its `method` children: the first one counts. -/
def routeMethods : List Node → MethodMatch
  | [] => .any
  | first :: _ => match methodsOf first with
    | .ok methods => methods
    | .error _ => .any

def methodErrs : List Node → Bool
  | [] => false
  | [only] => match methodsOf only with
    | .ok _ => false
    | .error _ => true
  | _ :: _ :: _ => true

structure RouteSummary (heading : Diagnostics) (children : List Node) (b : RouteBody) : Prop where
  methods : b.methods = routeMethods (children.filter isMethod)
  declared : b.methodOrigin = (children.filter isMethod).head?.map Node.origin
  matchers : b.matchers = children.flatMap fe.routeMatchers
  directives : b.directives = children.flatMap fe.routeMiddleware
  terminals : b.terminals = children.flatMap (fe.routeTerminals site owner)
  inline : b.inline = children.flatMap fun child => (fe.routeProxied site owner child).inline
  errors : hasErrors b.diagnostics = (hasErrors heading ||
    (children.filter fun c => !isMethod c).any (fun c => hasErrors (fe.routeSaid site owner c)) ||
    methodErrs (children.filter isMethod))

theorem nonMethod_summary {heading : Diagnostics} {children : List Node} {b : RouteBody}
    (h : RouteSummary fe site owner heading children b) {child : Node} (hm : child.name ≠ "method") :
    RouteSummary fe site owner heading (children ++ [child]) (fe.routeChild site owner b child) := by
  obtain ⟨h1, h2, h3, h4, h5, h6, h7⟩ := h
  have hf : (children ++ [child]).filter isMethod = children.filter isMethod := by simp [isMethod, hm]
  have hn : (children ++ [child]).filter (fun c => !isMethod c) =
      children.filter (fun c => !isMethod c) ++ [child] := by simp [isMethod, hm]
  rw [routeChild_eq fe site owner b hm]
  refine ⟨?_, ?_, ?_, ?_, ?_, ?_, ?_⟩
  · rw [hf]; exact h1
  · rw [hf]; exact h2
  · simp [h3]
  · simp [h4]
  · simp [h5]
  · simp [h6]
  · rw [hf, hn]
    simp only [Diagnostics.hasErrors_append, h7, List.any_append, List.any_cons, List.any_nil, Bool.or_false]
    ac_rfl

theorem routeMethod_first {b : RouteBody} (hb : b.methodOrigin = none) (child : Node) :
    routeMethod b child = match methodsOf child with
      | .ok methods => { b with methodOrigin := some child.origin, methods := methods }
      | .error message => { b with methodOrigin := some child.origin, diagnostics := b.diagnostics ++
          [.error .invalidValue child.origin message] } := by
  unfold routeMethod methodsOf
  rw [hb]
  dsimp only
  split
  · rfl
  · cases MethodMatch.parse (child.args.filterMap Value.asStr) <;> rfl

theorem routeMethod_again {b : RouteBody} {o : Origin} (hb : b.methodOrigin = some o) (child : Node) :
    routeMethod b child = { b with diagnostics := b.diagnostics ++ [(Diagnostic.error .duplicate child.origin
      "`method` may only be declared once").withRelated "first declared here" o] } := by
  unfold routeMethod
  rw [hb]

theorem method_summary {heading : Diagnostics} {children : List Node} {b : RouteBody}
    (h : RouteSummary fe site owner heading children b) {child : Node} (hm : child.name = "method") :
    RouteSummary fe site owner heading (children ++ [child]) (fe.routeChild site owner b child) := by
  obtain ⟨h1, h2, h3, h4, h5, h6, h7⟩ := h
  have hf : (children ++ [child]).filter isMethod = children.filter isMethod ++ [child] := by
    simp [isMethod, hm]
  have hn : (children ++ [child]).filter (fun c => !isMethod c) = children.filter (fun c => !isMethod c) := by
    simp [isMethod, hm]
  have hd : fe.routeDecoded child = ⟨none, []⟩ := by simp [routeDecoded, hm]
  have hp : fe.routeProxied site owner child = .fail [] := by simp [routeProxied, hm]
  have hx : fe.routeMatchers child = [] := by simp [routeMatchers, hm]
  have hb : fe.routeChild site owner b child = routeMethod b child := by simp [routeChild, hm]
  rw [hb]
  have hrest : ∀ b' : RouteBody, b'.matchers = b.matchers → b'.directives = b.directives →
      b'.terminals = b.terminals → b'.inline = b.inline →
      b'.matchers = (children ++ [child]).flatMap fe.routeMatchers ∧
      b'.directives = (children ++ [child]).flatMap fe.routeMiddleware ∧
      b'.terminals = (children ++ [child]).flatMap (fe.routeTerminals site owner) ∧
      b'.inline = (children ++ [child]).flatMap fun c => (fe.routeProxied site owner c).inline := by
    intro b' e3 e4 e5 e6
    rw [e3, e4, e5, e6]
    refine ⟨?_, ?_, ?_, ?_⟩
    · simp [h3, hx]
    · simp [h4, routeMiddleware, hd]
    · simp [h5, routeTerminals, hd, hp, Yield.fail]
    · simp [h6, hp, Yield.fail]
  cases hl : children.filter isMethod with
  | nil =>
    rw [hl] at h1 h2 h7
    rw [routeMethod_first h2]
    cases hp : methodsOf child with
    | ok methods =>
      obtain ⟨e3, e4, e5, e6⟩ := hrest { b with methodOrigin := some child.origin, methods := methods }
        rfl rfl rfl rfl
      refine ⟨?_, ?_, e3, e4, e5, e6, ?_⟩
      · simp [hf, hl, routeMethods, hp]
      · simp [hf, hl]
      · simp [hf, hl, hn, h7, methodErrs, hp]
    | error message =>
      obtain ⟨e3, e4, e5, e6⟩ := hrest { b with methodOrigin := some child.origin, diagnostics := b.diagnostics ++
        [.error .invalidValue child.origin message] } rfl rfl rfl rfl
      refine ⟨?_, ?_, e3, e4, e5, e6, ?_⟩
      · simp [hf, hl, routeMethods, hp, h1]
      · simp [hf, hl]
      · simp [hf, hl, methodErrs, hp]
  | cons first rest =>
    rw [hl] at h1 h2 h7
    rw [routeMethod_again h2]
    obtain ⟨e3, e4, e5, e6⟩ := hrest { b with diagnostics := b.diagnostics ++
      [(Diagnostic.error .duplicate child.origin
        "`method` may only be declared once").withRelated "first declared here" first.origin] } rfl rfl rfl rfl
    refine ⟨?_, ?_, e3, e4, e5, e6, ?_⟩
    · simp [hf, hl, h1, routeMethods]
    · simp [hf, hl, h2]
    · cases rest with
      | nil => simp [hf, hl, methodErrs]
      | cons second rest => simp [hf, hl, methodErrs]

theorem routeBody_summary (node : Node) (heading : Diagnostics) :
    RouteSummary fe site owner heading node.children (fe.routeBody node site owner heading) := by
  have hall : ∀ children : List Node, RouteSummary fe site owner heading children
      (children.foldl (fe.routeChild site owner) ⟨.any, none, [], [], [], [], heading⟩) := by
    intro children
    induction children using List.reverseRecOn with
    | nil => exact ⟨rfl, rfl, rfl, rfl, rfl, rfl, by simp [methodErrs]⟩
    | append_singleton children child ih =>
      rw [List.foldl_append, List.foldl_cons, List.foldl_nil]
      by_cases hm : child.name = "method"
      · exact method_summary fe site owner ih hm
      · exact nonMethod_summary fe site owner ih hm
  exact hall node.children

/-- A route with its children in another order; its conditions keep theirs. -/
structure RouteReordered (n n' : Node) : Prop where
  name : n.name = n'.name
  args : n.args = n'.args
  props : n.props = n'.props
  origin : n.origin = n'.origin
  children : n.children.Perm n'.children
  conditions : (n.children.filter fun c => c.name = "match") = n'.children.filter fun c => c.name = "match"

theorem RouteReordered.refl (n : Node) : RouteReordered n n := ⟨rfl, rfl, rfl, rfl, .refl _, rfl⟩

theorem RouteReordered.symm {n n' : Node} (h : RouteReordered n n') : RouteReordered n' n :=
  ⟨h.name.symm, h.args.symm, h.props.symm, h.origin.symm, h.children.symm, h.conditions.symm⟩

theorem flatMap_routeMatchers (children : List Node) :
    children.flatMap fe.routeMatchers =
      (children.filter fun c => c.name = "match").flatMap fe.routeMatchers := by
  induction children with
  | nil => rfl
  | cons c children ih =>
    by_cases hc : c.name = "match"
    · simp [hc, ih]
    · simp [hc, ih, routeMatchers]

/-- Two or more `method` children are an error in every order; one is one. -/
theorem methods_perm {ms ms' : List Node} (h : ms.Perm ms') :
    methodErrs ms = methodErrs ms' ∧ (methodErrs ms = false → routeMethods ms = routeMethods ms') := by
  match ms, ms', h with
  | [], ms', h =>
    obtain rfl := h.nil_eq
    exact ⟨rfl, fun _ => rfl⟩
  | [m], ms', h =>
    obtain rfl := h.singleton_eq
    exact ⟨rfl, fun _ => rfl⟩
  | a :: b :: ms, ms', h =>
    have hl := h.length_eq
    match ms', hl with
    | a' :: b' :: ms', _ => exact ⟨rfl, fun hf => by simp [methodErrs] at hf⟩

structure BodiesAgree (b b' : RouteBody) : Prop where
  errors : hasErrors b.diagnostics = hasErrors b'.diagnostics
  inline : b.inline.Perm b'.inline
  directives : b.directives.Perm b'.directives
  terminals : b.terminals.Perm b'.terminals
  matchers : b.matchers = b'.matchers
  methods : hasErrors b.diagnostics = false → b.methods = b'.methods

theorem routeBody_reordered {n n' : Node} (h : RouteReordered n n') (heading : Diagnostics) :
    BodiesAgree (fe.routeBody n site owner heading) (fe.routeBody n' site owner heading) := by
  have hb := fe.routeBody_summary site owner n heading
  have hb' := fe.routeBody_summary site owner n' heading
  obtain ⟨hme, hmv⟩ := methods_perm (h.children.filter isMethod)
  have herr : hasErrors (fe.routeBody n site owner heading).diagnostics =
      hasErrors (fe.routeBody n' site owner heading).diagnostics := by
    rw [hb.errors, hb'.errors, (h.children.filter _).any_eq, hme]
  refine ⟨herr, ?_, ?_, ?_, ?_, ?_⟩
  · rw [hb.inline, hb'.inline]
    exact h.children.flatMap_right _
  · rw [hb.directives, hb'.directives]
    exact h.children.flatMap_right _
  · rw [hb.terminals, hb'.terminals]
    exact h.children.flatMap_right _
  · rw [hb.matchers, hb'.matchers, flatMap_routeMatchers, h.conditions, ← flatMap_routeMatchers]
  · intro hclean
    rw [hb.methods, hb'.methods]
    refine hmv ?_
    rw [hb.errors] at hclean
    simp only [Bool.or_eq_false_iff] at hclean
    exact hclean.2

/-- Directives without a repeated name come out the same from every order. -/
theorem ownAll_perm {ds ds' : List DirectiveInstance} (hp : ds.Perm ds')
    (hn : (ds.map fun d => d.metadata.name).Nodup) (id : ResourceId) :
    fe.ownAll id ds = fe.ownAll id ds' := by
  unfold ownAll
  rw [sortBy_eq_of_perm hp]
  intro a ha b hb he
  exact List.inj_on_of_nodup_map hn ha hb (DirectiveInstance.name_eq_of_compareKey he)

theorem rejectDuplicate_perm {ds ds' : List DirectiveInstance} (hp : ds.Perm ds') :
    hasErrors (rejectDuplicateDirectives ds) = hasErrors (rejectDuplicateDirectives ds') := by
  have h := rejectDuplicateDirectives_clean ds
  have h' := rejectDuplicateDirectives_clean ds'
  rw [(hp.map fun d => d.metadata.name).nodup_iff, ← h'] at h
  cases hd : hasErrors (rejectDuplicateDirectives ds) with
  | false => exact (h.mp hd).symm
  | true =>
    cases hd' : hasErrors (rejectDuplicateDirectives ds') with
    | true => rfl
    | false => rw [h.mpr hd'] at hd; cases hd

/-- With exactly one terminal, what is left is the identity and the directives. -/
theorem routeTail_one (node : Node) (rawPath : String) (host : HostMatch) (path : PathMatch)
    (explicit : Option String) {b : RouteBody} {t : Terminal} {o : Origin} (ht : b.terminals = [(t, o)]) :
    fe.routeTail node rawPath site host owner path explicit b =
      match (ownedName .route owner node.origin explicit (fe.routeId site host owner path b)).value with
      | none => ⟨none, (ownedName .route owner node.origin explicit (fe.routeId site host owner path b)).diagnostics⟩
      | some id => ⟨some ⟨id, path, b.methods, b.matchers, fe.ownAll id b.directives, fe.ownTerminal id t, node.origin⟩,
          (ownedName .route owner node.origin explicit (fe.routeId site host owner path b)).diagnostics ++
            rejectDuplicateDirectives b.directives⟩ := by
  have hs : soleTerminal node rawPath b = .ok t := by simp [soleTerminal, ht]
  unfold routeTail
  rw [hs]
  show Decode.andThen (Decode.ok t) _ = _
  simp only [Decode.andThen, Decode.ok, List.nil_append, bind]
  cases (ownedName .route owner node.origin explicit (fe.routeId site host owner path b)).value with
  | none => rfl
  | some id => simp [Decode.tell, pure, Decode.ok]

/-- Any other number of terminals is an error, unless one was reported before. -/
theorem routeTail_other (node : Node) (rawPath : String) (host : HostMatch) (path : PathMatch)
    (explicit : Option String) {b : RouteBody} (ht : b.terminals.length ≠ 1)
    (hb : hasErrors b.diagnostics = false) :
    (fe.routeTail node rawPath site host owner path explicit b).value = none ∧
      hasErrors (fe.routeTail node rawPath site host owner path explicit b).diagnostics = true := by
  have hs : (soleTerminal node rawPath b).value = none ∧
      hasErrors (soleTerminal node rawPath b).diagnostics = true := by
    unfold soleTerminal
    match hl : b.terminals with
    | [] => simp [hb, Decode.fail]
    | [t] => rw [hl] at ht; exact absurd rfl ht
    | first :: second :: rest => simp [Decode.fail]
  have ht : fe.routeTail node rawPath site host owner path explicit b =
      ⟨none, (soleTerminal node rawPath b).diagnostics⟩ := by
    unfold routeTail
    show Decode.andThen (soleTerminal node rawPath b) _ = _
    rw [Decode.andThen, hs.1]
  rw [ht]
  exact ⟨rfl, hs.2⟩

theorem routeTail_agree {n n' : Node} (ho : n.origin = n'.origin) (rawPath : String) (host : HostMatch)
    (path : PathMatch) (explicit : Option String) {b b' : RouteBody} (h : BodiesAgree b b')
    (hb : hasErrors b.diagnostics = false) :
    hasErrors (fe.routeTail n rawPath site host owner path explicit b).diagnostics =
        hasErrors (fe.routeTail n' rawPath site host owner path explicit b').diagnostics ∧
      (hasErrors (fe.routeTail n rawPath site host owner path explicit b).diagnostics = false →
        (fe.routeTail n rawPath site host owner path explicit b).value =
          (fe.routeTail n' rawPath site host owner path explicit b').value) := by
  have hb' : hasErrors b'.diagnostics = false := h.errors ▸ hb
  by_cases hl : b.terminals.length = 1
  · obtain ⟨⟨t, o⟩, ht⟩ := List.length_eq_one_iff.mp hl
    have ht' : b'.terminals = [(t, o)] := by
      have hp := h.terminals
      rw [ht] at hp
      exact hp.singleton_eq.symm
    have hid : fe.routeId site host owner path b = fe.routeId site host owner path b' := by
      unfold routeId
      rw [h.matchers, h.methods hb]
    rw [routeTail_one fe site owner n rawPath host path explicit ht,
      routeTail_one fe site owner n' rawPath host path explicit ht', hid, ho]
    cases (ownedName .route owner n'.origin explicit (fe.routeId site host owner path b')).value with
    | none => exact ⟨rfl, fun _ => rfl⟩
    | some id =>
      dsimp only
      simp only [Diagnostics.hasErrors_append, rejectDuplicate_perm h.directives, true_and]
      intro hclean
      rw [Bool.or_eq_false_iff, ← rejectDuplicate_perm h.directives, rejectDuplicateDirectives_clean] at hclean
      rw [ownAll_perm fe h.directives hclean.2, h.methods hb, h.matchers]
  · have hl' : b'.terminals.length ≠ 1 := fun he => hl (h.terminals.length_eq.trans he)
    obtain ⟨-, he⟩ := routeTail_other fe site owner n rawPath host path explicit hl hb
    obtain ⟨-, he'⟩ := routeTail_other fe site owner n' rawPath host path explicit hl' hb'
    rw [he, he']
    exact ⟨rfl, fun hf => by cases hf⟩

/-- Two outcomes the rest of the pass cannot tell apart, but for the order in which
the inline upstreams were met. -/
structure SameOutcome {α : Type} (a b : Yield α) : Prop where
  errors : hasErrors a.diagnostics = hasErrors b.diagnostics
  inline : a.inline.Perm b.inline
  value : a.value = b.value

theorem route_reordered {n n' : Node} (h : RouteReordered n n') (host : HostMatch) :
    SameOutcome (fe.route n site host owner) (fe.route n' site host owner) := by
  unfold route
  rw [h.args, h.props]
  cases n'.args.head?.bind fun v => v.asStr.map fun raw => (v, raw) with
  | none => rw [h.origin]; exact ⟨rfl, .refl _, rfl⟩
  | some first =>
    obtain ⟨value, raw⟩ := first
    dsimp only
    cases PathMatch.parse fe.leaves raw with
    | error message => exact ⟨rfl, .refl _, rfl⟩
    | ok path =>
      dsimp only
      generalize n'.props.foldl (idProp "route") ⟨none, []⟩ = props
      have hb := routeBody_reordered fe site owner h props.diagnostics
      cases hc : hasErrors (fe.routeBody n site owner props.diagnostics).diagnostics with
      | true =>
        have hc' := hb.errors ▸ hc
        refine ⟨?_, hb.inline, ?_⟩
        · simp [hc, hc']
        · simp [hc, hc']
      | false =>
        have hc' := hb.errors ▸ hc
        obtain ⟨he, hv⟩ := routeTail_agree fe site owner h.origin raw host path props.value hb hc
        refine ⟨?_, hb.inline, ?_⟩
        · simp [hc, hc', he]
        · cases hd : hasErrors (fe.routeTail n raw site host owner path props.value
              (fe.routeBody n site owner props.diagnostics)).diagnostics with
          | true =>
            have hd' := he ▸ hd
            simp [hc, hc', hd, hd']
          | false =>
            have hd' := he ▸ hd
            simp [hc, hc', hd, hd', hv hd]

end Gatel.Frontend
