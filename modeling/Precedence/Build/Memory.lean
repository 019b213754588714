import Precedence.Build.Setup
import Precedence.Graph.Marks
import Precedence.Table

/-!
Order between memory accesses. The walk from bottom to top keeps a small set of later accesses from
which all others can be reached along order edges; an earlier access is put in order with those of
the set it may touch and then takes the place of those it stands in for.

An alias oracle may separate two accesses. If the later one is a store, it stood in for others, so
the search goes on to the accesses it was itself put before. An access that is separated from the
one that takes its place in the set is kept aside as rejected and looked at again by every earlier
access.
-/
namespace Precedence

/-- Cycles from a store to a later load. -/
def storeLoadLatency : Nat := 1

/-- The latency of an order edge between two memory accesses. -/
def orderLatency (earlier later : Instr) : Nat :=
  if earlier.mayStore && later.mayLoad then storeLoadLatency else 0

/-- Two accesses need an order at all. -/
def conflicts (a b : Instr) : Bool := a.mayStore || b.mayStore

/-- Two accesses can touch the same bytes, judging by their identified objects alone. -/
def mayTouch (a b : Instr) : Bool :=
  match a.underlyingObject, b.underlyingObject with
  | some o, some p => o.id == p.id
  | some o, none => o.mayAlias
  | none, some p => p.mayAlias
  | none, none => true

/-- Once `i` is put before `j`, everything earlier that can touch `j` meets `i` first. -/
def covers (i j : Instr) : Bool :=
  i.mayStore &&
    match i.underlyingObject with
    | none => true
    | some o => j.underlyingObject == some o

/-- What the memory walk looks things up in. -/
structure MemoryScope where
  block : Block
  oracle : Option Oracle
  options : Options

/-- The instruction of a node that must have one. -/
def MemoryScope.instr (m : MemoryScope) (g : Graph) (id : NodeId) : Except Fault Instr := do
  match ← g.instr id m.block with
  | some i => return i
  | none => throw (.noInstruction id)

/-- Asks the oracle whether two accesses never touch the same byte. It is not asked about an access
that everything is ordered against. -/
def separates (m : MemoryScope) (i j : Instr) (d : Draft) : Except Fault (Bool × Draft) :=
  match m.oracle with
  | none => .ok (false, d)
  | some oracle =>
      if i.isGlobalAccess || j.isGlobalAccess then .ok (false, d)
      else do
        let answer ← oracle i j
        return (answer == .no, { d with asked := (i, j) :: d.asked })

/-- Those of some accesses that `i` conflicts with, global accesses left out. -/
def keepConflicting (m : MemoryScope) (g : Graph) (i : Instr) :
    List NodeId → Except Fault (List NodeId)
  | [] => .ok []
  | id :: rest => do
      let j ← m.instr g id
      let kept ← keepConflicting m g i rest
      return if !j.isGlobalAccess && conflicts i j then id :: kept else kept

/-- The accesses that a separated store was put before and that `i` conflicts with. -/
def coveredBy (m : MemoryScope) (i : Instr) (store : NodeId) (g : Graph) :
    Except Fault (List NodeId) := do
  let n ← g.node store
  let after := n.succs.filter fun d => d.kind == .order && d.node != .exit
  keepConflicting m g i (after.map Dep.node)

/-- The outcome of putting one access before another. -/
structure Visit where
  draft : Draft
  /-- an edge was added; otherwise the oracle separated the two -/
  linked : Bool
  /-- where to go on -/
  next : List NodeId

/-- Puts `su` before `target` unless the oracle separates them. Behind too many separated accesses
it is not asked any more. -/
def visitChain (m : MemoryScope) (su target : NodeId) (depth : Nat) (d : Draft) :
    Except Fault Visit := do
  let i ← m.instr d.graph su
  let j ← m.instr d.graph target
  let (apart, d) ← if depth < m.options.maxChainDepth then separates m i j d else pure (false, d)
  if apart then
    let next ← if j.mayStore then coveredBy m i target d.graph else pure []
    return { draft := { d with omitted := d.omitted + 1 }, linked := false, next }
  else
    let d ← d.withDep target (.order su (orderLatency i j))
    return { draft := d, linked := true, next := [] }

/-- Visits the accesses of `todo`, each with the number of separated accesses in front of it, and
those found on the way, depth first. The marks are on those visited before. -/
def followChain (m : MemoryScope) (su : NodeId) :
    (todo : List (NodeId × Nat)) → (met : Marks) → Draft → Except Fault Draft
  | [], _, d => .ok d
  | (target, depth) :: todo, met, d =>
      if _h : target ≠ su ∧ met.isFresh target then
        match visitChain m su target depth d with
        | .error e => .error e
        | .ok v =>
            followChain m su (v.next.map (fun id => (id, depth + 1)) ++ todo) (met.mark target)
              v.draft
      else followChain m su todo met d
termination_by todo met => (met.freshCount, todo.length)
decreasing_by
  · exact Prod.Lex.left _ _ (by have := Marks.freshCount_mark _h.2; omega)
  · exact Prod.Lex.right _ (by simp)

/-- Puts `su` before `target` and, if the oracle separates the two, before what `target` stood in
for. The answer tells whether the edge to `target` was added. -/
def chain (m : MemoryScope) (su target : NodeId) (d : Draft) : Except Fault (Bool × Draft) := do
  if su = target then
    return (false, d)
  let v ← visitChain m su target 0 d
  let met := (Marks.blank v.draft.graph.nodes.size).mark target
  let d ← followChain m su (v.next.map fun id => (id, 1)) met v.draft
  return (v.linked, d)

/-- Puts `su` before one more access, and adds it to those that `su` was separated from. -/
def chainStep (m : MemoryScope) (su : NodeId) (apart : List NodeId × Draft) (target : NodeId) :
    Except Fault (List NodeId × Draft) := do
  let (linked, d) ← chain m su target apart.2
  return (if linked then apart.1 else apart.1 ++ [target], d)

/-- Puts `su` before several accesses in turn, and gives those it was separated from. -/
def chainAll (m : MemoryScope) (su : NodeId) (targets : List NodeId) (d : Draft) :
    Except Fault (List NodeId × Draft) :=
  targets.foldlM (chainStep m su) ([], d)

/-- The later accesses that earlier ones still have to meet. -/
structure MemoryChains where
  /-- the nearest access that everything is ordered against -/
  barrier : Option NodeId := none
  /-- the nearest store to an unknown object -/
  aliasChain : Option NodeId := none
  /-- loads from unknown objects -/
  pendingLoads : List NodeId := []
  /-- the nearest store to each object that other pointers reach -/
  sharedDefs : Table NodeId := {}
  /-- the loads from each such object -/
  sharedUses : Table (List NodeId) := {}
  /-- the same for objects that no other pointer reaches -/
  privateDefs : Table NodeId := {}
  privateUses : Table (List NodeId) := {}
  /-- accesses separated from one that took their place -/
  rejected : List NodeId := []

namespace MemoryChains

def defOf (c : MemoryChains) (o : MemObject) : Option NodeId :=
  (if o.mayAlias then c.sharedDefs else c.privateDefs).get? o.id

def usesOf (c : MemoryChains) (o : MemObject) : List NodeId :=
  ((if o.mayAlias then c.sharedUses else c.privateUses).get? o.id).getD []

/-- A store to an object takes the place of what was known about it. -/
def setDef (c : MemoryChains) (o : MemObject) (su : NodeId) : MemoryChains :=
  if o.mayAlias then
    { c with sharedDefs := c.sharedDefs.insert o.id su, sharedUses := c.sharedUses.erase o.id }
  else
    { c with privateDefs := c.privateDefs.insert o.id su, privateUses := c.privateUses.erase o.id }

/-- A load from an object joins what is known about it. -/
def addUse (c : MemoryChains) (o : MemObject) (su : NodeId) : MemoryChains :=
  let uses := c.usesOf o ++ [su]
  if o.mayAlias then { c with sharedUses := c.sharedUses.insert o.id uses }
  else { c with privateUses := c.privateUses.insert o.id uses }

/-- Everything that is known, in the order in which a global access meets it. -/
def all (c : MemoryChains) : List NodeId :=
  c.barrier.toList ++ c.aliasChain.toList ++ c.pendingLoads ++ c.sharedDefs.values
    ++ c.sharedUses.values.flatten ++ c.privateDefs.values ++ c.privateUses.values.flatten
    ++ c.rejected

def reject (c : MemoryChains) (nodes : List NodeId) : MemoryChains :=
  { c with
    rejected := nodes.foldl (fun kept n => if kept.contains n then kept else kept ++ [n]) c.rejected }

end MemoryChains

/-- The state of the memory walk. -/
structure MemoryWalk where
  chains : MemoryChains := {}
  draft : Draft

namespace MemoryWalk

/-- Puts `su` before a rejected access without asking, and keeps the access among `kept` unless `su`
stands in for it from now on. -/
def orderRejected (m : MemoryScope) (su : NodeId) (i : Instr) (kept : List NodeId × Draft)
    (n : NodeId) : Except Fault (List NodeId × Draft) := do
  let (kept, d) := kept
  let j ← m.instr d.graph n
  let d ← d.withDep n (.order su (orderLatency i j))
  return (if covers i j then kept else kept ++ [n], d)

/-- The same with a question to the oracle, if the two accesses need an order at all. -/
def reviewRejected (m : MemoryScope) (su : NodeId) (i : Instr) (kept : List NodeId × Draft)
    (n : NodeId) : Except Fault (List NodeId × Draft) := do
  let (kept, d) := kept
  let j ← m.instr d.graph n
  if !conflicts i j || !mayTouch i j then
    return (kept ++ [n], d)
  let (linked, d) ← chain m su n d
  return (if linked && covers i j then kept else kept ++ [n], d)

/-- Looks again at the rejected accesses. When there are too many, a store asks no more. -/
def checkRejected (m : MemoryScope) (su : NodeId) (i : Instr) (w : MemoryWalk) :
    Except Fault MemoryWalk := do
  let step :=
    if m.options.maxRejected < w.chains.rejected.length && i.mayStore then orderRejected m su i
    else reviewRejected m su i
  let (rejected, draft) ← w.chains.rejected.foldlM step ([], w.draft)
  return { chains := { w.chains with rejected }, draft }

/-- Puts `su` before several accesses in turn. -/
def chainTo (m : MemoryScope) (su : NodeId) (targets : List NodeId) (w : MemoryWalk) :
    Except Fault (List NodeId × MemoryWalk) := do
  let (apart, draft) ← chainAll m su targets w.draft
  return (apart, { w with draft })

/-- Puts `su` before the nearest access that everything is ordered against. -/
def orderAgainstBarrier (su : NodeId) (w : MemoryWalk) : Except Fault MemoryWalk := do
  match w.chains.barrier with
  | none => return w
  | some barrier =>
      let draft ← w.draft.withDep barrier (.order su 0)
      return { w with draft }

/-- A global access meets everything and replaces it. -/
def addGlobal (m : MemoryScope) (su : NodeId) (w : MemoryWalk) : Except Fault MemoryWalk := do
  let (_, w) ← w.chainTo m su w.chains.all
  return { w with chains := { barrier := some su, aliasChain := some su } }

/-- A store to an identified object meets the accesses to it, and those to unknown objects if they
can reach it. -/
def addObjectStore (m : MemoryScope) (su : NodeId) (i : Instr) (o : MemObject) (w : MemoryWalk) :
    Except Fault MemoryWalk := do
  let (apart, w) ← w.chainTo m su ((w.chains.defOf o).toList ++ w.chains.usesOf o)
  let w := { w with chains := w.chains.setDef o su }
  let unknown := if o.mayAlias then w.chains.pendingLoads ++ w.chains.aliasChain.toList else []
  let (_, w) ← w.chainTo m su unknown
  let w ← w.checkRejected m su i
  return { w with chains := w.chains.reject apart }

/-- A store to an unknown object meets all accesses but those to objects it cannot reach, and takes
their place. -/
def addUnknownStore (m : MemoryScope) (su : NodeId) (i : Instr) (w : MemoryWalk) :
    Except Fault MemoryWalk := do
  let c := w.chains
  let targets :=
    c.aliasChain.toList ++ c.pendingLoads ++ c.sharedDefs.values ++ c.sharedUses.values.flatten
  let w := { w with chains := { c with pendingLoads := [], sharedDefs := {}, sharedUses := {} } }
  let w ← w.checkRejected m su i
  let (apart, w) ← w.chainTo m su targets
  return { w with chains := { w.chains.reject apart with aliasChain := some su } }

/-- A store also comes before the exit, as a preference. -/
def addStore (m : MemoryScope) (su : NodeId) (i : Instr) (w : MemoryWalk) :
    Except Fault MemoryWalk := do
  let w ← match i.underlyingObject with
    | some o => w.addObjectStore m su i o
    | none => w.addUnknownStore m su i
  let w ← w.orderAgainstBarrier su
  let draft ← w.draft.withDep .exit (.artificial su)
  return { w with draft }

/-- A load meets stores only. -/
def addLoad (m : MemoryScope) (su : NodeId) (i : Instr) (w : MemoryWalk) :
    Except Fault MemoryWalk := do
  let c := w.chains
  let w ← match i.underlyingObject with
    | some o => do
        let (_, w) ← w.chainTo m su
          ((c.defOf o).toList ++ if o.mayAlias then c.aliasChain.toList else [])
        pure { w with chains := c.addUse o su }
    | none => do
        let (_, w) ← w.chainTo m su (c.sharedDefs.values ++ c.aliasChain.toList)
        pure { w with chains := { c with pendingLoads := c.pendingLoads ++ [su] } }
  let w ← w.checkRejected m su i
  w.orderAgainstBarrier su

/-- Adds the memory edges of an instruction. Loads from memory that never changes have none. -/
def add (m : MemoryScope) (su : NodeId) (i : Instr) (w : MemoryWalk) : Except Fault MemoryWalk :=
  if i.isGlobalAccess then w.addGlobal m su
  else if i.mayStore then w.addStore m su i
  else if i.mayLoad && !i.isInvariantLoad then w.addLoad m su i
  else .ok w

end MemoryWalk

end Precedence
