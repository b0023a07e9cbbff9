import Gatel.Plan.Spec

namespace Gatel
open CanonicalSort (sortBy)

/-- Whether one middleware has to run before another of the same chain. -/
def mustRunBefore (a b : DirectiveInstance) : Bool :=
  let phaseBefore := a.scope == b.scope && a.metadata.role.phaseOrder < b.metadata.role.phaseOrder
  let effectBefore := a.metadata.effects.any fun left => b.metadata.effects.any left.mustPrecede
  -- a site cache may not answer ahead of a route's guard, so this one crosses scopes
  let guardBeforeCache := a.metadata.role.phase == some .guard && b.metadata.effects.contains .cacheLookup
  a.metadata.before.contains b.metadata.name || phaseBefore || effectBefore || guardBeforeCache

def chainEdges (chain : List DirectiveInstance) : List (List Bool) :=
  chain.mapIdx fun i a => chain.mapIdx fun j b => i != j && mustRunBefore a b

def chainConflicts (chain : List DirectiveInstance) : Diagnostics :=
  (chain.mapIdx fun i a => (chain.mapIdx fun j b =>
    if i != j && a.metadata.conflicts.contains b.metadata.name then
      [(Diagnostic.error .invalidValue a.origin ("`" ++ a.metadata.name ++ "` conflicts with `" ++
        b.metadata.name ++ "` in this execution chain")).withRelated "conflicting directive" b.origin]
    else []).flatten).flatten

def incomingCounts (edges : List (List Bool)) (n : Nat) : List Nat :=
  (List.range n).map fun j => (edges.filter fun row => row.getD j false).length

/-- One pick a round: the first directive nothing unpicked has to precede. -/
@[grind =] def pickLoop (chain : List DirectiveInstance) (edges : List (List Bool)) :
    Nat → List Bool → List Nat → List DirectiveInstance → Except Diagnostics (List DirectiveInstance)
  | 0, _, _, result => .ok result
  | rounds + 1, selected, incoming, result =>
    let free := (List.range chain.length).filter fun j => !selected.getD j false
    match free.find? fun j => incoming.getD j 0 == 0 with
    | some next => match chain[next]? with
      | some picked =>
        let row := edges.getD next []
        pickLoop chain edges rounds (selected.set next true)
          (incoming.mapIdx fun j count => count - (row.getD j false).toNat) (result ++ [picked])
      | none => .ok result
    | none =>
      let blocked := free.filterMap fun j => chain[j]?
      .error [.error .invalidValue ((blocked.head?.map fun d => d.origin).getD (.synthetic ""))
        ("plugin ordering cycle: " ++ " -> ".intercalate (blocked.map fun d => d.metadata.name))]

/-- Compose middleware only. -/
def orderChain (chain : List DirectiveInstance) : Except Diagnostics (List DirectiveInstance) :=
  let chain := sortBy DirectiveInstance.compareKey chain
  let conflicts := chainConflicts chain
  if conflicts.hasErrors then .error conflicts
  else
    let edges := chainEdges chain
    pickLoop chain edges chain.length (chain.map fun _ => false) (incomingCounts edges chain.length) []

/-- What one middleware has against the route's terminal. -/
def terminalConflict (terminal : Terminal) (item : DirectiveInstance) : Diagnostics :=
  let facts := match terminal with
    | .directive d => some d.metadata
    | .proxy _ => none
  let conflict := item.metadata.conflicts.contains terminal.name ||
    facts.any fun m => m.conflicts.contains item.metadata.name
  let reverse := facts.any fun m => m.before.contains item.metadata.name ||
    m.effects.any fun left => item.metadata.effects.any left.mustPrecede
  if conflict || reverse then
    let message :=
      if conflict then
        "`" ++ item.metadata.name ++ "` conflicts with terminal `" ++ terminal.name ++ "`"
      else
        "terminal `" ++ terminal.name ++ "` requires execution before `" ++ item.metadata.name ++
          "`, but terminals must execute last"
    let d := Diagnostic.error .invalidValue item.origin message
    match terminal with
    | .directive t => [d.withRelated "terminal directive" t.origin]
    | .proxy _ => [d]
  else []

/-- The fixed terminal boundary first, then the middleware order. -/
def orderRoute (chain : List DirectiveInstance) (terminal : Terminal) :
    Except Diagnostics (List DirectiveInstance) :=
  let conflicts := chain.flatMap (terminalConflict terminal)
  if Diagnostics.hasErrors conflicts then .error conflicts else orderChain chain

end Gatel
