/-!
What a user can choose about the construction of graphs.
-/
namespace Precedence

structure Options where
  /-- registers have been allocated, so a virtual register is a mistake -/
  afterAllocation : Bool := false
  /-- every latency is one, whatever the target says -/
  unitLatencies : Bool := false
  /-- how far the search behind a separated memory access goes -/
  maxChainDepth : Nat := 16
  /-- how many separated memory accesses are remembered one by one -/
  maxRejected : Nat := 64
  /-- look for values carried around a loop -/
  analyzeLoops : Bool := true
deriving DecidableEq, Inhabited

namespace Options

def withAfterAllocation (o : Options) (b : Bool) : Options := { o with afterAllocation := b }
def withUnitLatencies (o : Options) (b : Bool) : Options := { o with unitLatencies := b }
def withMaxChainDepth (o : Options) (n : Nat) : Options := { o with maxChainDepth := n }
def withMaxRejected (o : Options) (n : Nat) : Options := { o with maxRejected := n }
def withAnalyzeLoops (o : Options) (b : Bool) : Options := { o with analyzeLoops := b }

end Options

end Precedence
