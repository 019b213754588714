import Precedence.Proofs.Walk.Growth

/-!
Which edges a computation adds to a graph: exactly those of some set, or none outside of it.
-/
namespace Precedence

/-- A set of edges, each with its ends, its kind and its register. -/
abbrev EdgeSet := NodeId → NodeId → Kind → Option Reg → Prop

/-- The edges that state the constraint of `dep` to `succ`; there is just one. -/
def Dep.edge (dep : Dep) (succ : NodeId) : EdgeSet := fun p s k r =>
  p = dep.node ∧ s = succ ∧ k = dep.kind ∧ r = dep.reg

namespace Graph

/-- The graph has grown by the edges of a set. -/
structure Adds (g g' : Graph) (new : EdgeSet) : Prop where
  grows : g.Grows g'
  edge_iff : ∀ p s k r, g'.HasEdge p s k r ↔ g.HasEdge p s k r ∨ new p s k r

/-- The graph has grown by edges of a set at most. -/
structure AddsOnly (g g' : Graph) (allowed : EdgeSet) : Prop where
  grows : g.Grows g'
  edge : ∀ p s k r, g'.HasEdge p s k r → g.HasEdge p s k r ∨ allowed p s k r

variable {g g' g'' : Graph} {new new' : EdgeSet}

theorem Adds.none (g : Graph) : g.Adds g fun _ _ _ _ => False :=
  ⟨.refl g, fun p s k r => by simp⟩

theorem Adds.congr (h : g.Adds g' new) (heq : ∀ p s k r, new p s k r ↔ new' p s k r) :
    g.Adds g' new' :=
  ⟨h.grows, fun p s k r => by rw [h.edge_iff, heq]⟩

theorem Adds.trans (h : g.Adds g' new) (h' : g'.Adds g'' new') :
    g.Adds g'' fun p s k r => new p s k r ∨ new' p s k r :=
  ⟨h.grows.trans h'.grows, fun p s k r => by rw [h'.edge_iff, h.edge_iff, or_assoc]⟩

theorem Adds.only (h : g.Adds g' new) : g.AddsOnly g' new :=
  ⟨h.grows, fun p s k r => (h.edge_iff p s k r).mp⟩

theorem AddsOnly.refl (g : Graph) (allowed : EdgeSet) : g.AddsOnly g allowed :=
  ⟨.refl g, fun _ _ _ _ => .inl⟩

theorem AddsOnly.mono (h : g.AddsOnly g' new) (hsub : ∀ p s k r, new p s k r → new' p s k r) :
    g.AddsOnly g' new' :=
  ⟨h.grows, fun p s k r he => (h.edge p s k r he).imp_right (hsub p s k r)⟩

theorem AddsOnly.trans (h : g.AddsOnly g' new) (h' : g'.AddsOnly g'' new) : g.AddsOnly g'' new :=
  ⟨h.grows.trans h'.grows,
    fun p s k r he => (h'.edge p s k r he).elim (h.edge p s k r) .inr⟩

end Graph

namespace Draft

variable {d d' : Draft} {b : Block} {units : List Instr}

theorem withDep_adds {succ : NodeId} {dep : Dep} (hl : d.graph.Linked)
    (h : d.withDep succ dep = .ok d') : d.graph.Adds d'.graph (dep.edge succ) := by
  simp only [withDep, bind_eq_ok, pure_eq_ok] at h
  obtain ⟨g, hg, rfl⟩ := h
  exact ⟨Graph.grows_withDep hg, fun p s k r => Graph.hasEdge_withDep_iff hl hg⟩

theorem addValue_adds {s : Setup} {reads : LoopReads} {writer reader : NodeId} {dep : Dep}
    (ht : s.timing.AdjustsLatencyOnly) (hl : d.graph.Linked)
    (h : d.addValue s reads writer reader dep = .ok d') :
    d.graph.Adds d'.graph (dep.edge reader) := by
  simp only [addValue, bind_eq_ok, pure_eq_ok] at h
  obtain ⟨rf, hrf, g, hg, rfl⟩ := h
  obtain ⟨⟨hgrows, hout⟩, hconstraint⟩ := Setup.refine_ok hrf
  refine ⟨hgrows.trans (Graph.grows_withDep hg), fun p s k r => ?_⟩
  have hc := hconstraint ht
  simp only [Dep.constraint, Prod.mk.injEq] at hc
  rw [Graph.hasEdge_withDep_iff (hgrows.linked hl) hg, Graph.HasEdge, hout, hc.1, hc.2.1, hc.2.2]
  rfl

/-- A loop adds what its rounds add. -/
theorem foldlM_adds {α : Type} {f : Draft → α → Except Fault Draft} {l : List α}
    {new : α → EdgeSet}
    (step : ∀ a ∈ l, ∀ d d', d.graph.Wraps b units → f d a = .ok d' →
      d.graph.Adds d'.graph (new a))
    (hw : d.graph.Wraps b units) (h : l.foldlM f d = .ok d') :
    d.graph.Adds d'.graph fun p s k r => ∃ a ∈ l, new a p s k r := by
  induction l generalizing d with
  | nil =>
    rw [List.foldlM_nil, pure_eq_ok] at h
    exact h ▸ (Graph.Adds.none d.graph).congr (by simp)
  | cons a l ih =>
    rw [List.foldlM_cons, bind_eq_ok] at h
    obtain ⟨e, he, h⟩ := h
    have hfirst := step a List.mem_cons_self d e hw he
    have hrest := ih (fun c hc => step c (List.mem_cons_of_mem a hc)) (hw.grows hfirst.grows) h
    exact (hfirst.trans hrest).congr (by simp)

end Draft

end Precedence
