import Precedence.Fault

/-!
Why a graph or a schedule is turned down. A rejection is an ordinary answer about a graph that was
filled in or scheduled wrongly; `Failure` sets it beside the faults, which end a computation.
-/
namespace Precedence

/-- What is wrong with a proposed schedule. -/
inductive ScheduleFlaw where
  | wrongLength (scheduled units : Nat)
  | notAUnit (node : NodeId)
  | repeated (node : NodeId)
  | beforePredecessor (node pred : NodeId)
deriving DecidableEq

def ScheduleFlaw.message : ScheduleFlaw → String
  | wrongLength scheduled units =>
      toString scheduled ++ " nodes scheduled, region has " ++ toString units
  | notAUnit n => n.text ++ " is not a region node"
  | repeated n => n.text ++ " scheduled twice"
  | beforePredecessor n p => n.text ++ " scheduled before its predecessor " ++ p.text

inductive Rejection where
  | cycle (node : NodeId)
  | asymmetricEdge (pred succ : NodeId)
  | danglingEdge (node : NodeId)
  | invalidSchedule (flaw : ScheduleFlaw)
deriving DecidableEq

def Rejection.message : Rejection → String
  | cycle n => "Dependency cycle through " ++ n.text
  | asymmetricEdge p s =>
      "Edge " ++ p.text ++ " -> " ++ s.text ++ " is missing on one of its ends"
  | danglingEdge n => "Edge refers to unknown node " ++ n.text
  | invalidSchedule flaw => "Invalid schedule: " ++ flaw.message

inductive Failure where
  | rejected (r : Rejection)
  | fault (f : Fault)
deriving DecidableEq

/-- A computation that rejects nothing, as a step of one that may. -/
def Fault.lift {α : Type} (x : Except Fault α) : Except Failure α := x.mapError Failure.fault

end Precedence
