import Precedence.Proofs.Graph.Latencies
import Precedence.Proofs.Walk.Memory
import Precedence.Proofs.Walk.Registers

/-!
The edges that one step of the walk asks for, with their latencies. Registers ask for data edges,
which are refined, and for anti and output edges; barriers ask for order edges without latency; memory
puts an instruction before the accesses that it meets and those found behind separated ones, each time
with the latency of the pair, and before the nearest global access without latency.
-/
namespace Precedence

/-! Loops -/

/-- A loop asks for what its rounds ask for. -/
theorem Graph.GrowsBy.of_foldlM {α β : Type} {asked : NodeId → Dep → Prop} (graph : β → Graph)
    {f : β → α → Except Fault β} {l : List α} {p q : β}
    (step : ∀ a ∈ l, ∀ u v, (graph p).GrowsBy asked (graph u) → f u a = .ok v →
      (graph u).GrowsBy asked (graph v))
    (h : l.foldlM f p = .ok q) : (graph p).GrowsBy asked (graph q) :=
  foldlM_keeps (fun u => (graph p).GrowsBy asked (graph u))
    (fun a ha u v hu hv => hu.trans (step a ha u v hu hv)) .refl h

variable {s : Setup} {reads : LoopReads} {b : Block} {su later : NodeId} {i : Instr} {pos : Nat}
  {o : RegOperand} {t t' : Tracker} {r r' : RegState} {reg : Reg} {shared : List Reg}
  {d d' : Draft} {g : Graph} {dep : Dep} {asked : NodeId → Dep → Prop}

theorem Draft.withDep_growsBy (h : d.withDep later dep = .ok d') (hdep : asked later dep) :
    d.graph.GrowsBy asked d'.graph := by
  simp only [withDep, bind_eq_ok, pure_eq_ok] at h
  obtain ⟨g, hg, rfl⟩ := h
  exact .edge .refl hdep hg

theorem Draft.hasAtLeast_withDep (h : d.withDep later dep = .ok d') :
    d'.graph.HasAtLeast later dep := by
  simp only [withDep, bind_eq_ok, pure_eq_ok] at h
  obtain ⟨g, hg, rfl⟩ := h
  exact Graph.hasAtLeast_withDep hg

/-! Registers -/

/-- A data edge from `su` as it is asked for before refinement. The first operand of a later
instruction that reads a physical register decides on its latency, and the latency of a virtual
register is that of the node. -/
inductive ValueRequest (s : Setup) (b : Block) (g : Graph) (su later : NodeId) : Dep → Prop
  | physical {pos latency : Nat} {reg : Reg} {j : Option Instr}
      (reader : (if later = .exit then .ok none else g.instr later b) = .ok j)
      (value : valueLatency s g su
        (j.bind fun j => (j.findUse reg).map fun pos' => (j, pos')) = .ok latency) :
      ValueRequest s b g su later (.data su latency reg (some pos) (j.bind fun j => j.findUse reg))
  | virtual {pos pos' : Nat} {reg : Reg} {n : Node} (plain : ¬s.regs.isPhysical reg)
      (node : g.node su = .ok n) :
      ValueRequest s b g su later (.data su n.latency reg (some pos) (some pos'))

/-- What the registers ask for on behalf of `su`; the edges there are do not matter for that. -/
inductive RegisterRequest (s : Setup) (reads : LoopReads) (b : Block) (g : Graph) (su : NodeId) :
    NodeId → Dep → Prop
  | output (later : NodeId) (latency : Nat) (reg : Reg) :
      RegisterRequest s reads b g su later (.output su latency reg)
  | anti (later : NodeId) (reg : Reg) : RegisterRequest s reads b g su later (.anti su reg)
  | value {later : NodeId} {dep : Dep} {e : Graph} {rf : Refinement} (same : e.bare = g.bare)
      (asked : ValueRequest s b e su later dep) (refined : s.refine reads e su later dep = .ok rf) :
      RegisterRequest s reads b g su later rf.dep

/-- Refinement marks a node at most. -/
theorem Setup.refine_growsBy {writer reader : NodeId} {rf : Refinement}
    (h : s.refine reads g writer reader dep = .ok rf) : g.GrowsBy asked rf.graph := by
  rcases (refine_cases h).2 with hg | hg
  · exact hg ▸ .refl
  · exact .mark .refl hg

theorem Draft.addValue_growsBy {writer reader : NodeId}
    (h : d.addValue s reads writer reader dep = .ok d')
    (hrf : ∀ rf, s.refine reads d.graph writer reader dep = .ok rf → asked reader rf.dep) :
    d.graph.GrowsBy asked d'.graph := by
  simp only [addValue, bind_eq_ok, pure_eq_ok] at h
  obtain ⟨rf, href, g, hg, rfl⟩ := h
  exact .edge (Setup.refine_growsBy href) (hrf rf href) hg

section

variable (hd : d.graph.bare = g.bare)

theorem linkWrite_growsBy (h : linkWrite s b su i pos o reg d later = .ok d') :
    d.graph.GrowsBy (RegisterRequest s reads b g su) d'.graph := by
  rcases linkWrite_cases h with ⟨rfl, -⟩ | ⟨-, -, j, -, -, h⟩
  · exact .refl
  · exact Draft.withDep_growsBy h (.output later _ reg)

theorem linkOverwrite_growsBy (h : linkOverwrite su reg d later = .ok d') :
    d.graph.GrowsBy (RegisterRequest s reads b g su) d'.graph := by
  rcases linkOverwrite_cases h with ⟨-, rfl⟩ | ⟨-, -, h⟩
  · exact .refl
  · exact Draft.withDep_growsBy h (.anti later reg)

theorem linkNearest_growsBy {nearest : Option NodeId}
    (h : linkNearest s b su i pos reg nearest d = .ok d') :
    d.graph.GrowsBy (RegisterRequest s reads b g su) d'.graph := by
  rcases linkNearest_cases h with ⟨rfl, -⟩ | ⟨later, j, -, -, -, h⟩
  · exact .refl
  · exact Draft.withDep_growsBy h (.output later _ reg)

include hd

theorem linkRead_growsBy (h : linkRead s reads b su pos reg d later = .ok d') :
    d.graph.GrowsBy (RegisterRequest s reads b g su) d'.graph := by
  rcases linkRead_cases h with ⟨-, rfl⟩ | ⟨-, j, latency, hj, hlatency, h⟩
  · exact .refl
  · exact Draft.addValue_growsBy h fun rf hrf => .value hd (.physical hj hlatency) hrf

theorem linkWaiting_growsBy {waiting : NodeId × Nat} (hp : ¬s.regs.isPhysical reg)
    (h : linkWaiting s reads su pos reg d waiting = .ok d') :
    d.graph.GrowsBy (RegisterRequest s reads b g su) d'.graph := by
  rcases linkWaiting_cases h with ⟨-, rfl⟩ | ⟨-, n, hn, h⟩
  · exact .refl
  · exact Draft.addValue_growsBy h fun rf hrf => .value hd (.virtual hp hn) hrf

/-- A loop over everything recorded for several registers. -/
theorem foldlM_nodes_growsBy {m : RegNodes} {f : Reg → Draft → NodeId → Except Fault Draft}
    (step : ∀ a n e e', e.graph.bare = g.bare → f a e n = .ok e' →
      e.graph.GrowsBy asked e'.graph)
    (h : shared.foldlM (fun d a => do
      let later ← m.get a
      later.foldlM (f a) d) d = .ok d') : d.graph.GrowsBy asked d'.graph := by
  refine .of_foldlM Draft.graph (fun a _ e e' he h => ?_) h
  obtain ⟨nodes, -, h⟩ := bind_eq_ok.mp h
  exact .of_foldlM Draft.graph (fun n _ v v' hv h =>
    step a n v v' (hv.bare_eq.trans (he.bare_eq.trans hd)) h) h

theorem writePhysical_growsBy (h : writePhysical s reads b su i pos o t d = .ok (t', d')) :
    d.graph.GrowsBy (RegisterRequest s reads b g su) d'.graph := by
  simp only [writePhysical, bind_eq_ok, pure_eq_ok, Prod.mk.injEq] at h
  obtain ⟨shared, -, d₁, h₁, d₂, h₂, t₂, -, -, rfl⟩ := h
  have hwrites : d.graph.GrowsBy (RegisterRequest s reads b g su) d₁.graph :=
    foldlM_nodes_growsBy hd (fun _ _ _ _ _ h => linkWrite_growsBy h) h₁
  exact hwrites.trans (foldlM_nodes_growsBy (hwrites.bare_eq.trans hd)
    (fun _ _ _ _ he h => linkRead_growsBy he h) h₂)

theorem readPhysical_growsBy (h : readPhysical s su reg t d = .ok (t', d')) :
    d.graph.GrowsBy (RegisterRequest s reads b g su) d'.graph := by
  simp only [readPhysical, bind_eq_ok, pure_eq_ok, Prod.mk.injEq] at h
  obtain ⟨shared, -, d₁, h₁, t₁, -, -, rfl⟩ := h
  exact foldlM_nodes_growsBy hd (fun _ _ _ _ _ h => linkOverwrite_growsBy h) h₁

theorem writeVirtual_growsBy {index : Nat} (hp : ¬s.regs.isPhysical reg)
    (h : writeVirtual s reads b su i pos reg index r d = .ok (r', d')) :
    d.graph.GrowsBy (RegisterRequest s reads b g su) d'.graph := by
  simp only [writeVirtual, bind_eq_ok, pure_eq_ok, Prod.mk.injEq, Prod.exists] at h
  obtain ⟨waiting, uses, -, d₁, h₁, uses', -, nearest, defs, -, d₂, h₂, defs', -, -, rfl⟩ := h
  have hreads : d.graph.GrowsBy (RegisterRequest s reads b g su) d₁.graph :=
    .of_foldlM Draft.graph (fun _ _ e e' he h => linkWaiting_growsBy (he.bare_eq.trans hd) hp h) h₁
  exact hreads.trans (linkNearest_growsBy h₂)

omit hd in
theorem readVirtual_growsBy {index : Nat}
    (h : readVirtual su pos reg index r d = .ok (r', d')) :
    d.graph.GrowsBy (RegisterRequest s reads b g su) d'.graph := by
  simp only [readVirtual, bind_eq_ok, pure_eq_ok, Prod.mk.injEq] at h
  obtain ⟨d₁, h₁, uses, -, -, rfl⟩ := h
  exact .of_foldlM Draft.graph (fun _ _ e e' _ h => linkOverwrite_growsBy h) h₁

theorem writeOperand_growsBy (h : writeOperand s reads b su i pos o r d = .ok (r', d')) :
    d.graph.GrowsBy (RegisterRequest s reads b g su) d'.graph := by
  simp only [writeOperand, bind_eq_ok] at h
  obtain ⟨c, hc, h⟩ := h
  rcases Setup.classify_cases hc with ⟨rfl, -⟩ | ⟨rfl, hp, -⟩ | ⟨rfl, -⟩
  · simp only [bind_eq_ok, pure_eq_ok, Prod.exists, Prod.mk.injEq] at h
    obtain ⟨t', d₁, h, -, rfl⟩ := h
    exact writePhysical_growsBy hd h
  · exact writeVirtual_growsBy hd hp h
  · cases h
    exact .refl

theorem readOperand_growsBy (h : readOperand s su pos o r d = .ok (r', d')) :
    d.graph.GrowsBy (RegisterRequest s reads b g su) d'.graph := by
  simp only [readOperand, bind_eq_ok] at h
  obtain ⟨c, hc, h⟩ := h
  rcases Setup.classify_cases hc with ⟨rfl, -⟩ | ⟨rfl, -⟩ | ⟨rfl, -⟩
  · simp only [bind_eq_ok, pure_eq_ok, Prod.exists, Prod.mk.injEq] at h
    obtain ⟨t', d₁, h, -, rfl⟩ := h
    exact readPhysical_growsBy hd h
  · exact readVirtual_growsBy h
  · cases h
    exact .refl

theorem addRegisterDeps_growsBy (h : addRegisterDeps s reads b su i r d = .ok (r', d')) :
    d.graph.GrowsBy (RegisterRequest s reads b g su) d'.graph := by
  simp only [addRegisterDeps, bind_eq_ok] at h
  obtain ⟨p, hwrites, hreads⟩ := h
  have hp : d.graph.GrowsBy (RegisterRequest s reads b g su) p.2.graph :=
    .of_foldlM (fun u : RegState × Draft => u.2.graph) (fun e _ u v hu h =>
      writeOperand_growsBy (r := u.1) (d := u.2) (hu.bare_eq.trans hd) h) hwrites
  exact hp.trans (.of_foldlM (fun u : RegState × Draft => u.2.graph) (fun e _ u v hu h =>
    readOperand_growsBy (r := u.1) (d := u.2)
      (hu.bare_eq.trans (hp.bare_eq.trans hd)) h) hreads)

end

end Precedence
