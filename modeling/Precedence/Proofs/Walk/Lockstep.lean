import Precedence.Proofs.Graph.Kept
import Precedence.Proofs.Sparse.Same

/-!
Two walks side by side. Registers and barriers look at the nodes of a graph and otherwise only add
edges to it. Two walks that know the same of the registers therefore add the same edges, one after
the other, whatever else tells their graphs apart.
-/
namespace Precedence

/-- A relation between drafts with the same nodes, kept when the same is done to both. -/
structure Lockstep (D : Draft → Draft → Prop) : Prop where
  bare : ∀ {d d' : Draft}, D d d' → d.graph.bare = d'.graph.bare
  withDep : ∀ {d d' : Draft}, D d d' → ∀ succ dep,
    Alike D (d.withDep succ dep) (d'.withDep succ dep)
  scheduleHigh : ∀ {d d' : Draft}, D d d' → ∀ id,
    Alike (fun g g' => D { d with graph := g } { d' with graph := g' })
      (d.graph.modifyNode id fun n => { n with scheduleHigh := true })
      (d'.graph.modifyNode id fun n => { n with scheduleHigh := true })
  hint : ∀ {d d' : Draft}, D d d' →
    D { d with hints := d.hints + 1 } { d' with hints := d'.hints + 1 }

/-- Edges with the same earlier end are added to both drafts or to neither. -/
theorem Draft.withDep_alike {D : Draft → Draft → Prop} {d d' : Draft} {succ : NodeId}
    {dep dep' : Dep} (hl : d.graph.Linked) (hl' : d'.graph.Linked)
    (hbare : d.graph.bare = d'.graph.bare) (hnode : dep.node = dep'.node)
    (hok : ∀ g g', d.graph.withDep succ dep = .ok g → d'.graph.withDep succ dep' = .ok g' →
      D { d with graph := g } { d' with graph := g' }) :
    Alike D (d.withDep succ dep) (d'.withDep succ dep') :=
  ((Graph.withDep_alike hl hl' hbare succ hnode).of_ok hok).bind fun _ _ hg => .pure hg

theorem lockstep_eq : Lockstep Eq where
  bare h := h ▸ rfl
  withDep h _ _ := h ▸ .refl (fun _ => rfl) _
  scheduleHigh h _ := h ▸ (Alike.refl (fun _ => rfl) _).mono fun _ _ hg => hg ▸ rfl
  hint h := h ▸ rfl

variable {D : Draft → Draft → Prop} {s : Setup} {reads : LoopReads} {b : Block} {su later : NodeId}
  {i : Instr} {pos physical virtual : Nat} {o : RegOperand} {reg : Reg} {shared : List Reg}
  {d d' : Draft} {t t' : Tracker} {r r' : RegState} {g g' : Graph}

/-! Latencies -/

/-- Latencies are a matter of the nodes alone. -/
theorem latency_alike (h : g.bare = g'.bare) (id : NodeId) :
    Alike (fun n n' => n.latency = n'.latency) (g.node id) (g'.node id) :=
  (Graph.node_alike h id).mono fun n n' hn => by
    have hlatency : n.bare.latency = n'.bare.latency := congrArg Node.latency hn
    exact hlatency

theorem Setup.loopHint_eq (h : g.bare = g'.bare) (writer : NodeId) :
    s.loopHint reads g writer reg = s.loopHint reads g' writer reg := by
  unfold loopHint
  split
  · rfl
  refine Alike.eq (Alike.bind_same fun block => ?_)
  split
  · exact .error _
  refine Alike.bind_same fun operand => ?_
  rw [Graph.block_eq_of_bare h]
  split
  · refine (latency_alike h writer).bind fun n n' hn => ?_
    rw [hn]
    exact .refl (fun _ => rfl) _
  · exact .refl (fun _ => rfl) _

theorem valueLatency_eq (h : g.bare = g'.bare) (su : NodeId) (reader : Option (Instr × Nat)) :
    valueLatency s g su reader = valueLatency s g' su reader := by
  refine Alike.eq ((latency_alike h su).bind fun n n' hn => ?_)
  rw [hn]
  exact .refl (fun _ => rfl) _

namespace Lockstep

/-- Both refine an edge to the same one, and their graphs stay related. -/
def Refined (D : Draft → Draft → Prop) (d d' : Draft) (rf rf' : Refinement) : Prop :=
  rf.dep = rf'.dep ∧ rf.hinted = rf'.hinted ∧
    D { d with graph := rf.graph } { d' with graph := rf'.graph }

theorem refineAtExit (hD : Lockstep D) (h : D d d') (writer : NodeId) (dep : Dep) :
    Alike (Refined D d d') (s.refineAtExit reads d.graph writer i pos reg dep)
      (s.refineAtExit reads d'.graph writer i pos reg dep) := by
  unfold Setup.refineAtExit
  rw [Setup.loopHint_eq (hD.bare h)]
  refine Alike.bind_same fun hint => ?_
  cases hint with
  | none => exact .ok ⟨rfl, rfl, h⟩
  | latency cycles => exact .ok ⟨rfl, rfl, h⟩
  | scheduleHigh => exact (hD.scheduleHigh h writer).bind fun g g' hg => .ok ⟨rfl, rfl, hg⟩

theorem refine (hD : Lockstep D) (h : D d d') (writer reader : NodeId) (dep : Dep) :
    Alike (Refined D d d') (s.refine reads d.graph writer reader dep)
      (s.refine reads d'.graph writer reader dep) := by
  unfold Setup.refine Setup.blockOf
  rw [Graph.block_eq_of_bare (hD.bare h)]
  simp only [Graph.instr_eq_of_bare (hD.bare h)]
  split
  · exact .ok ⟨rfl, rfl, h⟩
  split
  · exact .ok ⟨rfl, rfl, h⟩
  refine Alike.bind_same fun block => Alike.bind_same fun i => ?_
  split
  · exact .ok ⟨rfl, rfl, h⟩
  split
  · exact .ok ⟨rfl, rfl, h⟩
  -- to a reader without an instruction the edge is refined as to the exit
  split <;> refine Alike.bind_same fun j => ?_ <;> cases j
  · exact (hD.refineAtExit h writer dep).bind fun rf rf' hrf => .ok ⟨by rw [hrf.1], hrf.2⟩
  · exact .ok ⟨rfl, rfl, h⟩
  · exact (hD.refineAtExit h writer dep).bind fun rf rf' hrf => .ok ⟨by rw [hrf.1], hrf.2⟩
  · exact .ok ⟨rfl, rfl, h⟩

theorem addValue (hD : Lockstep D) (h : D d d') (writer reader : NodeId) (dep : Dep) :
    Alike D (d.addValue s reads writer reader dep) (d'.addValue s reads writer reader dep) := by
  have hsplit : ∀ d : Draft, d.addValue s reads writer reader dep = (do
      let rf ← s.refine reads d.graph writer reader dep
      let e ← ({ d with graph := rf.graph } : Draft).withDep reader rf.dep
      return if rf.hinted then { e with hints := e.hints + 1 } else e) := by
    intro d
    unfold Draft.addValue Draft.withDep
    cases s.refine reads d.graph writer reader dep with
    | error => rfl
    | ok rf =>
      simp only [bind, Except.bind]
      cases rf.graph.withDep reader rf.dep with
      | error => rfl
      | ok g => cases rf.hinted <;> rfl
  rw [hsplit, hsplit]
  refine (hD.refine h writer reader dep).bind fun rf rf' ⟨hdep, hhinted, hrf⟩ => ?_
  rw [hdep, hhinted]
  refine (hD.withDep hrf reader rf'.dep).bind fun e e' he => .pure ?_
  split
  · exact hD.hint he
  · exact he

/-! Physical registers -/

/-- Two targets may give different latencies to an output edge. -/
theorem linkWrite (hD : Lockstep D) (h : D d d') (time : Timing)
    (houtput : ∀ j, Alike D
      (d.withDep later (.output su (s.timing.outputLatency i pos j) reg))
      (d'.withDep later (.output su (time.outputLatency i pos j) reg))) :
    Alike D (linkWrite s b su i pos o reg d later)
      (linkWrite { s with timing := time } b su i pos o reg d' later) := by
  unfold Precedence.linkWrite
  rw [Graph.instr_eq_of_bare (hD.bare h)]
  split
  · exact .ok h
  refine Alike.bind_same fun j => ?_
  split
  · exact .ok h
  split
  · exact .ok h
  · exact houtput _

theorem linkRead (hD : Lockstep D) (h : D d d') :
    Alike D (linkRead s reads b su pos reg d later) (linkRead s reads b su pos reg d' later) := by
  unfold Precedence.linkRead
  simp only [Graph.instr_eq_of_bare (hD.bare h), valueLatency_eq (hD.bare h)]
  split
  · exact .ok h
  split <;> exact Alike.bind_same fun j => Alike.bind_same fun latency => hD.addValue h _ _ _

theorem linkOverwrite (hD : Lockstep D) (h : D d d') :
    Alike D (linkOverwrite su reg d later) (linkOverwrite su reg d' later) := by
  unfold Precedence.linkOverwrite
  split
  · exact .ok h
  · exact hD.withDep h _ _

/-- A loop over everything recorded for several registers. -/
theorem foldlM_nodes {m m' : RegNodes} {f f' : Reg → Draft → NodeId → Except Fault Draft}
    (hm : m.Same physical m')
    (step : ∀ reg later d d', D d d' → Alike D (f reg d later) (f' reg d' later)) (h : D d d') :
    Alike D
      (shared.foldlM (fun d reg => do
        let later ← m.get reg
        later.foldlM (f reg) d) d)
      (shared.foldlM (fun d reg => do
        let later ← m'.get reg
        later.foldlM (f' reg) d) d') := by
  refine Alike.foldlM (fun reg _ d d' h => ?_) h
  rw [hm.get_eq]
  exact Alike.bind_same fun nodes => Alike.foldlM (fun n _ => step reg n) h

theorem dropCalls_eq (h : g.bare = g'.bare) (nodes : List NodeId) :
    dropCalls g nodes = dropCalls g' nodes := by
  have hcall : ∀ k : Nat, g.nodes[k]?.map Node.isCall = g'.nodes[k]?.map Node.isCall := by
    intro k
    have hview : g.bare.nodes[k]?.map Node.isCall = g'.bare.nodes[k]?.map Node.isCall := by rw [h]
    simpa [Graph.bare, Graph.mapNodes, Function.comp_def, Node.bare] using hview
  simp only [dropCalls, hcall]

end Lockstep

theorem Tracker.Same.hide {n : NodeId} {isCall : Bool} (h : t.Same physical t')
    (hg : g.bare = g'.bare) :
    Alike (Tracker.Same physical) (t.hide g n isCall o) (t'.hide g' n isCall o) := by
  unfold Tracker.hide
  simp only [Lockstep.dropCalls_eq hg]
  refine (h.uses.erase o.reg).bind fun uses uses' huses => ?_
  split
  · exact (h.defs.alter o.reg _).bind fun _ _ hdefs => .pure ⟨hdefs, huses⟩
  · exact (h.defs.erase o.reg).bind fun defs defs' hdefs =>
      (RegNodes.Same.alter hdefs o.reg _).bind fun _ _ hdefs => .pure ⟨hdefs, huses⟩

/-- The registers are the same, and the drafts are related. -/
def Tracker.Beside (physical : Nat) (D : Draft → Draft → Prop) (p p' : Tracker × Draft) : Prop :=
  p.1.Same physical p'.1 ∧ D p.2 p'.2

def RegState.Beside (physical virtual : Nat) (D : Draft → Draft → Prop) (p p' : RegState × Draft) :
    Prop :=
  p.1.Same physical virtual p'.1 ∧ D p.2 p'.2

namespace Lockstep

theorem readPhysical (hD : Lockstep D) (ht : t.Same physical t') (h : D d d') :
    Alike (Tracker.Beside physical D) (readPhysical s su reg t d)
      (readPhysical s su reg t' d') := by
  refine Alike.bind_same fun shared => ?_
  have hoverwrites : Alike D (linkOverwrites su t shared d) (linkOverwrites su t' shared d') :=
    foldlM_nodes ht.defs (fun _ _ _ _ h => hD.linkOverwrite h) h
  refine hoverwrites.bind fun d₁ d₁' h₁ => ?_
  exact (ht.recordUse reg su).bind fun _ _ ht => .pure ⟨ht, h₁⟩

/-! Virtual registers -/

theorem linkWaiting (hD : Lockstep D) (h : D d d') (waiting : NodeId × Nat) :
    Alike D (linkWaiting s reads su pos reg d waiting)
      (linkWaiting s reads su pos reg d' waiting) := by
  unfold Precedence.linkWaiting
  split
  · exact .ok h
  · refine (latency_alike (hD.bare h) su).bind fun n n' hn => ?_
    rw [hn]
    exact hD.addValue h _ _ _

theorem linkNearest (hD : Lockstep D) (h : D d d') (time : Timing) (nearest : Option NodeId)
    (houtput : ∀ later j, Alike D
      (d.withDep later (.output su (s.timing.outputLatency i pos j) reg))
      (d'.withDep later (.output su (time.outputLatency i pos j) reg))) :
    Alike D (linkNearest s b su i pos reg nearest d)
      (linkNearest { s with timing := time } b su i pos reg nearest d') := by
  unfold Precedence.linkNearest
  split
  · exact .ok h
  split
  · exact .ok h
  rw [Graph.instr_eq_of_bare (hD.bare h)]
  refine Alike.bind_same fun j => ?_
  split
  · exact .ok h
  · exact houtput _ _

theorem readVirtual (hD : Lockstep D) {index : Nat} (hr : r.Same physical virtual r')
    (h : D d d') : Alike (RegState.Beside physical virtual D) (readVirtual su pos reg index r d)
      (readVirtual su pos reg index r' d') := by
  unfold Precedence.readVirtual
  rw [hr.virtualDefs.get?_eq]
  have hoverwrites : ∀ nodes : List NodeId, Alike D (nodes.foldlM (Precedence.linkOverwrite su reg) d)
      (nodes.foldlM (Precedence.linkOverwrite su reg) d') :=
    fun nodes => Alike.foldlM (fun _ _ _ _ h => hD.linkOverwrite h) h
  refine (hoverwrites _).bind fun d₁ d₁' h₁ => ?_
  exact (hr.virtualUses.alter index _).bind fun uses uses' huses =>
    .pure ⟨⟨hr.tracker, hr.virtualDefs, huses⟩, h₁⟩

theorem readOperand (hD : Lockstep D) (hr : r.Same physical virtual r') (h : D d d') :
    Alike (RegState.Beside physical virtual D) (readOperand s su pos o r d)
      (readOperand s su pos o r' d') := by
  refine Alike.bind_same fun c => ?_
  cases c with
  | physical =>
    exact (hD.readPhysical hr.tracker h).bind fun p p' hp => .pure ⟨hr.withTracker hp.1, hp.2⟩
  | virtual index => exact hD.readVirtual hr h
  | unknown => exact .ok ⟨hr, h⟩

end Lockstep

/-! One instruction -/

/-- Drafts stay related when a write is linked on both sides, even if the target of the second side
says about time what `t` says. -/
structure LinkedAlike (D : Draft → Draft → Prop) (s : Setup) (t : Timing) (reads : LoopReads)
    (b : Block) : Prop extends Lockstep D where
  linkWrite : ∀ {d d' : Draft}, D d d' → ∀ su i pos o reg later,
    Alike D (linkWrite s b su i pos o reg d later)
      (linkWrite { s with timing := t } b su i pos o reg d' later)
  linkRead : ∀ {d d' : Draft}, D d d' → ∀ su pos reg later,
    Alike D (linkRead s reads b su pos reg d later)
      (linkRead { s with timing := t } reads b su pos reg d' later)
  linkWaiting : ∀ {d d' : Draft}, D d d' → ∀ su pos reg waiting,
    Alike D (linkWaiting s reads su pos reg d waiting)
      (linkWaiting { s with timing := t } reads su pos reg d' waiting)
  linkNearest : ∀ {d d' : Draft}, D d d' → ∀ su i pos reg nearest,
    Alike D (linkNearest s b su i pos reg nearest d)
      (linkNearest { s with timing := t } b su i pos reg nearest d')

theorem Lockstep.linkedAlike (hD : Lockstep D) : LinkedAlike D s s.timing reads b where
  toLockstep := hD
  linkWrite h _ _ _ _ _ _ := hD.linkWrite h s.timing fun _ => hD.withDep h _ _
  linkRead h _ _ _ _ := hD.linkRead h
  linkWaiting h _ _ _ := hD.linkWaiting h
  linkNearest h _ _ _ _ nearest :=
    hD.linkNearest h s.timing nearest fun _ _ => hD.withDep h _ _

namespace LinkedAlike

variable {time : Timing}

theorem writePhysical (hD : LinkedAlike D s time reads b) (ht : t.Same physical t') (h : D d d') :
    Alike (Tracker.Beside physical D) (writePhysical s reads b su i pos o t d)
      (writePhysical { s with timing := time } reads b su i pos o t' d') := by
  refine Alike.bind_same fun shared => ?_
  have hwrites : Alike D (linkWrites s b su i pos o t shared d)
      (linkWrites { s with timing := time } b su i pos o t' shared d') :=
    Lockstep.foldlM_nodes ht.defs (fun _ _ _ _ h => hD.linkWrite h _ _ _ _ _ _) h
  refine hwrites.bind fun d₁ d₁' h₁ => ?_
  have hreads : Alike D (linkReads s reads b su pos t shared d₁)
      (linkReads { s with timing := time } reads b su pos t' shared d₁') :=
    Lockstep.foldlM_nodes ht.uses (fun _ _ _ _ h => hD.linkRead h _ _ _ _) h₁
  refine hreads.bind fun d₂ d₂' h₂ => ?_
  exact (ht.hide (hD.bare h₂)).bind fun _ _ ht => .pure ⟨ht, h₂⟩

theorem writeVirtual (hD : LinkedAlike D s time reads b) {index : Nat}
    (hr : r.Same physical virtual r') (h : D d d') : Alike (RegState.Beside physical virtual D)
      (writeVirtual s reads b su i pos reg index r d)
      (writeVirtual { s with timing := time } reads b su i pos reg index r' d') := by
  refine (hr.virtualUses.fetch index).bind fun ⟨waiting, uses⟩ ⟨_, uses'⟩ ⟨hwaiting, huses⟩ => ?_
  obtain rfl : waiting = _ := hwaiting
  refine (Alike.foldlM (fun w _ d d' h => hD.linkWaiting h _ _ _ w) h).bind fun d₁ d₁' h₁ => ?_
  refine (SparseMap.Same.alter huses index _).bind fun uses uses' huses => ?_
  refine (hr.virtualDefs.fetch index).bind fun ⟨nearest, defs⟩ ⟨_, defs'⟩ ⟨hnearest, hdefs⟩ => ?_
  obtain rfl : nearest = _ := hnearest
  refine (hD.linkNearest h₁ _ _ _ _ nearest).bind fun d₂ d₂' h₂ => ?_
  exact (SparseMap.Same.alter hdefs index _).bind fun defs defs' hdefs =>
    .pure ⟨⟨hr.tracker, hdefs, huses⟩, h₂⟩

theorem writeOperand (hD : LinkedAlike D s time reads b) (hr : r.Same physical virtual r')
    (h : D d d') : Alike (RegState.Beside physical virtual D) (writeOperand s reads b su i pos o r d)
      (writeOperand { s with timing := time } reads b su i pos o r' d') := by
  refine Alike.bind_same fun c => ?_
  cases c with
  | physical =>
    exact (hD.writePhysical hr.tracker h).bind fun p p' hp => .pure ⟨hr.withTracker hp.1, hp.2⟩
  | virtual index => exact hD.writeVirtual hr h
  | unknown => exact .ok ⟨hr, h⟩

theorem addRegisterDeps (hD : LinkedAlike D s time reads b) (hr : r.Same physical virtual r')
    (h : D d d') : Alike (RegState.Beside physical virtual D) (addRegisterDeps s reads b su i r d)
      (addRegisterDeps { s with timing := time } reads b su i r' d') := by
  have hstart : RegState.Beside physical virtual D (r, d) (r', d') := ⟨hr, h⟩
  refine Alike.bind (R := RegState.Beside physical virtual D) ?_ fun p p' hp => ?_
  · exact Alike.foldlM (fun e _ p p' hp => hD.writeOperand hp.1 hp.2) hstart
  · exact Alike.foldlM (fun e _ q q' hq => hD.readOperand hq.1 hq.2) hp

end LinkedAlike

namespace Lockstep

theorem addRegisterDeps (hD : Lockstep D) (hr : r.Same physical virtual r') (h : D d d') :
    Alike (RegState.Beside physical virtual D) (addRegisterDeps s reads b su i r d)
      (addRegisterDeps s reads b su i r' d') :=
  hD.linkedAlike.addRegisterDeps hr h

/-! Barriers -/

theorem orderBefore (hD : Lockstep D) (h : D d d') (nodes : List NodeId) :
    Alike D (d.orderBefore su nodes) (d'.orderBefore su nodes) :=
  Alike.foldlM (fun n _ _ _ h => hD.withDep h n _) h

end Lockstep

theorem Tracker.Same.recordOperands (h : t.Same physical t') :
    Alike (Tracker.Same physical) (t.recordOperands s su i) (t'.recordOperands s su i) := by
  refine Alike.foldlM (fun e _ t t' h => ?_) h
  obtain ⟨pos, o⟩ := e
  dsimp only
  split
  · exact .ok h
  split
  · exact h.recordDef _ _
  split
  · exact h.recordUse _ _
  · exact .ok h

theorem Tracker.Same.restart (h : t.Same physical t') :
    Alike (Tracker.Same physical) (t.restart s su i) (t'.restart s su i) := by
  unfold Tracker.restart
  rw [h.exitReads_eq]
  exact (Alike.foldlM (fun reg _ _ _ h => h.recordUse reg .exit) h.clear).bind fun _ _ h =>
    h.recordOperands

namespace Lockstep

/-- The same barriers come about, whatever tells the drafts apart. -/
theorem addBarrierDeps (hD : Lockstep D) {c : Barriers} (ht : t.Same physical t') (h : D d d') :
    Alike (fun p p' => p.1 = p'.1 ∧ Tracker.Beside physical D p.2 p'.2)
      (addBarrierDeps s su i c t d) (addBarrierDeps s su i c t' d') := by
  unfold Precedence.addBarrierDeps
  split
  · exact (hD.orderBefore h _).bind fun d d' h => ht.restart.bind fun t t' ht => .pure ⟨rfl, ht, h⟩
  · exact (hD.orderBefore h _).bind fun d d' h => .pure ⟨rfl, ht, h⟩

end Lockstep

/-! The exit -/

theorem RegState.Same.recordExitRead (hr : r.Same physical virtual r') :
    Alike (RegState.Same physical virtual) (r.recordExitRead reg) (r'.recordExitRead reg) := by
  unfold RegState.recordExitRead
  rw [hr.tracker.uses.get_eq]
  refine Alike.bind_same fun nodes => ?_
  split
  · exact .ok hr
  · exact (hr.tracker.recordUse reg .exit).bind fun _ _ ht => .pure (hr.withTracker ht)

theorem readAtExit_alike {boundary : Option Instr} (hr : r.Same physical virtual r') :
    Alike (RegState.Same physical virtual) (readAtExit s b boundary r)
      (readAtExit s b boundary r') := by
  have hboundary : ∀ i : Instr, Alike (RegState.Same physical virtual) (readAtBoundary s i r)
      (readAtBoundary s i r') := by
    intro i
    refine Alike.foldlM (fun e _ r r' hr => ?_) hr
    obtain ⟨pos, o⟩ := e
    refine Alike.bind_same fun c => ?_
    cases c with
    | physical => exact hr.recordExitRead
    | virtual index =>
      exact (hr.virtualUses.alter index _).bind fun _ _ huses =>
        .pure ⟨hr.tracker, hr.virtualDefs, huses⟩
    | unknown => exact .ok hr
  have hsuccessors : ∀ r r' : RegState, r.Same physical virtual r' →
      Alike (RegState.Same physical virtual) (readAtSuccessors s b r)
        (readAtSuccessors s b r') := by
    intro r r' hr
    refine Alike.foldlM (fun id _ r r' hr => ?_) hr
    refine Alike.bind_same fun succ => Alike.foldlM (fun reg _ r r' hr => ?_) hr
    split
    · exact hr.recordExitRead
    · exact .ok hr
  unfold readAtExit
  cases boundary with
  | none => exact hsuccessors r r' hr
  | some i =>
    refine (hboundary i).bind fun r r' hr => ?_
    split
    · exact .ok hr
    · exact hsuccessors r r' hr

end Precedence
