import Precedence.Graph.Basic
import Precedence.Machine.Text

/-!
Printed forms of a graph. A listing names each node by its position, a dump by its instruction;
both go on with the node's edges, one to a line.
-/
namespace Precedence

def Dep.text (d : Dep) : String :=
  d.node.text ++ ": " ++ d.kind.text ++ " latency=" ++ toString d.latency ++
    match d.reg with
    | some r => " reg=" ++ r.text
    | none => ""

namespace Node

private def edgeLines (title : String) (deps : List Dep) : List String :=
  if deps.isEmpty then [] else ("  " ++ title ++ ":") :: deps.map fun d => "    " ++ d.text

/-- A line of counts, then the edges that enter and those that leave. -/
def lines (n : Node) : List String :=
  ("  # preds: " ++ toString n.preds.length ++ "  # succs: " ++ toString n.succs.length
    ++ "  latency: " ++ toString n.latency ++ if n.scheduleHigh then "  schedule-high" else "")
    :: edgeLines "Predecessors" n.preds ++ edgeLines "Successors" n.succs

end Node

namespace Graph

def name (g : Graph) : String := "sched-" ++ Region.text ⟨g.block, g.start, g.stop⟩

private def ofLines (lines : List String) : String := String.join (lines.map fun l => l ++ "\n")

private def labelOf (id : NodeId) (n : Node) (b : Block) : String :=
  match n.instr.bind fun i => b.instrs[i]? with
  | some i => id.text ++ ": " ++ i.text
  | none =>
      match id with
      | .exit => "<exit>"
      | .unit _ => "<entry>"

/-- What a drawing of the graph writes into a node. -/
def label (g : Graph) (id : NodeId) (b : Block) : Except Fault String := do
  let n ← g.node id
  return labelOf id n b

def dump (g : Graph) (b : Block) : String :=
  ofLines ((g.name ++ ":") :: g.entries.flatMap fun (id, n) => labelOf id n b :: n.lines)

private def heading (id : NodeId) (n : Node) : String :=
  match n.instr with
  | some i => id.text ++ " (instr " ++ toString i ++ ")"
  | none => id.text

def text (g : Graph) : String :=
  ofLines ((g.name ++ ":") :: g.entries.flatMap fun (id, n) => heading id n :: n.lines)

end Graph

end Precedence
