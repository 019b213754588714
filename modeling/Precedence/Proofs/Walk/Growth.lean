import Precedence.Proofs.Walk.Units

/-!
Graphs under construction only grow, and edges that carry a value are added as they were asked for,
whatever refines their latency.
-/
namespace Precedence

/-- The last word of a target on an edge is about its latency alone. -/
def Timing.AdjustsLatencyOnly (t : Timing) : Prop :=
  ∀ i o d, ∃ latency, t.adjust i o d = { d with latency }

theorem Timing.adjustsLatencyOnly_unit : Timing.unit.AdjustsLatencyOnly :=
  fun _ _ d => ⟨d.latency, rfl⟩

namespace Setup

variable {s : Setup} {reads : LoopReads} {g : Graph}

/-- An edge to the exit takes another latency, and its writer a mark at most. -/
theorem refineAtExit_cases {writer : NodeId} {i : Instr} {pos : Nat} {reg : Reg} {d : Dep}
    {rf : Refinement} (h : s.refineAtExit reads g writer i pos reg d = .ok rf) :
    (∃ latency, rf.dep = { d with latency }) ∧ (rf.graph = g ∨
      g.modifyNode writer (fun n => { n with scheduleHigh := true }) = .ok rf.graph) := by
  simp only [refineAtExit, bind_eq_ok] at h
  obtain ⟨hint, -, h⟩ := h
  split at h
  · cases h
    exact ⟨⟨_, rfl⟩, .inl rfl⟩
  · simp only [bind_eq_ok, pure_eq_ok] at h
    obtain ⟨g', hg, rfl⟩ := h
    exact ⟨⟨d.latency, rfl⟩, .inr hg⟩
  · cases h
    exact ⟨⟨_, rfl⟩, .inl rfl⟩

/-- A refined edge is the one asked for, or what the target makes of its value with some latency; the
writer takes a mark at most. -/
theorem refine_cases {writer reader : NodeId} {d : Dep} {rf : Refinement}
    (h : s.refine reads g writer reader d = .ok rf) :
    (rf.dep = d ∨ (d.kind = .data ∧
        ∃ i o latency, rf.dep = s.timing.adjust i o { d with latency })) ∧
      (rf.graph = g ∨
        g.modifyNode writer (fun n => { n with scheduleHigh := true }) = .ok rf.graph) := by
  unfold refine at h
  split at h
  · cases h
    exact ⟨.inl rfl, .inl rfl⟩
  next hdata =>
    replace hdata : d.kind = .data := by
      simp only [Bool.or_eq_true, bne_iff_ne, not_or, not_not] at hdata
      exact hdata.2
    split at h
    · cases h
      exact ⟨.inl rfl, .inl rfl⟩
    simp only [bind_eq_ok] at h
    obtain ⟨b, -, o, -, h⟩ := h
    split at h
    · cases h
      exact ⟨.inl rfl, .inl rfl⟩
    split at h
    · cases h
      exact ⟨.inl rfl, .inl rfl⟩
    -- a reader without an instruction is refined as the exit is
    split at h <;> obtain ⟨j, -, h⟩ := bind_eq_ok.mp h <;> cases j <;>
      simp only [bind_eq_ok, pure_eq_ok] at h
    case isTrue.none | isFalse.none =>
      obtain ⟨rf', hrf, rfl⟩ := h
      obtain ⟨⟨latency, hd⟩, hg⟩ := refineAtExit_cases hrf
      exact ⟨.inr ⟨hdata, _, _, latency, congrArg _ hd⟩, hg⟩
    case isTrue.some | isFalse.some =>
      subst h
      exact ⟨.inr ⟨hdata, _, _, _, rfl⟩, .inl rfl⟩

/-- Refinement leaves all edges alone. -/
theorem refine_ok {writer reader : NodeId} {d : Dep} {rf : Refinement}
    (h : s.refine reads g writer reader d = .ok rf) :
    (g.Grows rf.graph ∧ rf.graph.outgoing = g.outgoing) ∧
      (s.timing.AdjustsLatencyOnly → rf.dep.constraint = d.constraint) := by
  obtain ⟨hdep, hgraph⟩ := refine_cases h
  constructor
  · rcases hgraph with hg | hg
    · rw [hg]
      exact ⟨.refl g, rfl⟩
    · exact Graph.grows_modifyNode hg (fun _ => rfl) (fun _ => rfl) fun _ => rfl
  · intro ht
    rcases hdep with hd | ⟨-, i, o, latency, hd⟩
    · rw [hd]
    · obtain ⟨latency', he⟩ := ht i o { d with latency }
      rw [hd, he]
      rfl

end Setup

namespace Draft

variable {d d' : Draft} {b : Block} {units : List Instr}

theorem withDep_ok {succ : NodeId} {dep : Dep} (h : d.withDep succ dep = .ok d') :
    d.graph.Grows d'.graph ∧
      (d.graph.Linked → d'.graph.HasEdge dep.node succ dep.kind dep.reg) := by
  simp only [withDep, bind_eq_ok, pure_eq_ok] at h
  obtain ⟨g, hg, rfl⟩ := h
  exact ⟨Graph.grows_withDep hg, fun hl => Graph.hasEdge_withDep hl hg⟩

theorem addValue_ok {s : Setup} {reads : LoopReads} {writer reader : NodeId} {dep : Dep}
    (h : d.addValue s reads writer reader dep = .ok d') :
    d.graph.Grows d'.graph ∧ (s.timing.AdjustsLatencyOnly → d.graph.Linked →
      d'.graph.HasEdge dep.node reader dep.kind dep.reg) := by
  simp only [addValue, bind_eq_ok, pure_eq_ok] at h
  obtain ⟨rf, hrf, g, hg, rfl⟩ := h
  obtain ⟨⟨hgrows, -⟩, hconstraint⟩ := Setup.refine_ok hrf
  refine ⟨hgrows.trans (Graph.grows_withDep hg), fun ht hl => ?_⟩
  have hedge := Graph.hasEdge_withDep (hgrows.linked hl) hg
  have hc := hconstraint ht
  simp only [Dep.constraint, Prod.mk.injEq] at hc
  rwa [hc.1, hc.2.1, hc.2.2] at hedge

/-- What a loop over `l` adds for one element, and no later round can take away, it has added for
all of them in the end. -/
theorem foldlM_links {α : Type} {f : Draft → α → Except Fault Draft} {l : List α}
    (Q : α → Graph → Prop) (mono : ∀ a g g', Q a g → g.Grows g' → Q a g')
    (step : ∀ a ∈ l, ∀ d d', d.graph.Wraps b units → f d a = .ok d' →
      d.graph.Grows d'.graph ∧ Q a d'.graph)
    (hw : d.graph.Wraps b units) (h : l.foldlM f d = .ok d') :
    d.graph.Grows d'.graph ∧ ∀ a ∈ l, Q a d'.graph := by
  have hround : ∀ a ∈ l, ∀ e e', e.graph.Wraps b units ∧ d.graph.Grows e.graph → f e a = .ok e' →
      (e'.graph.Wraps b units ∧ d.graph.Grows e'.graph) ∧ e.graph.Grows e'.graph := by
    intro a ha e e' he hf
    obtain ⟨hg, -⟩ := step a ha e e' he.1 hf
    exact ⟨⟨he.1.grows hg, he.2.trans hg⟩, hg⟩
  refine ⟨(foldlM_keeps _ (fun a ha e e' he hf => (hround a ha e e' he hf).1)
    ⟨hw, .refl _⟩ h).2, fun a ha => ?_⟩
  obtain ⟨e, e', he, -, hf, hrest⟩ := foldlM_round _ (fun e e' => e.graph.Grows e'.graph)
    (fun e => .refl _) (fun _ _ _ => .trans) hround ⟨hw, .refl _⟩ h ha
  exact mono a _ _ (step a ha e e' he.1 hf).2 hrest

end Draft

/-! Loops that keep some of their elements -/

/-- What a loop over nodes that keeps some of them leaves behind: every node has had its round, and
every node that has been kept was so in a round of its own. -/
structure Collected (b : Block) (units : List Instr)
    (f : List NodeId × Draft → NodeId → Except Fault (List NodeId × Draft)) (l : List NodeId)
    (p q : List NodeId × Draft) : Prop where
  grows : p.2.graph.Grows q.2.graph
  subset : p.1 ⊆ q.1
  sublist : q.1.Sublist (p.1 ++ l)
  round : ∀ n ∈ l, ∃ u v, u.2.graph.Wraps b units ∧ f u n = .ok v ∧ p.2.graph.Grows u.2.graph ∧
    v.2.graph.Grows q.2.graph ∧ v.1 ⊆ q.1
  kept : ∀ n ∈ q.1, n ∈ p.1 ∨
    ∃ u v, u.2.graph.Wraps b units ∧ f u n = .ok v ∧ v.1 = u.1 ++ [n]

theorem collected_of_foldlM {b : Block} {units : List Instr}
    {f : List NodeId × Draft → NodeId → Except Fault (List NodeId × Draft)} {l : List NodeId}
    {p q : List NodeId × Draft}
    (step : ∀ n ∈ l, ∀ u v, u.2.graph.Wraps b units → f u n = .ok v →
      u.2.graph.Grows v.2.graph ∧ (v.1 = u.1 ∨ v.1 = u.1 ++ [n]))
    (hw : p.2.graph.Wraps b units) (h : l.foldlM f p = .ok q) : Collected b units f l p q := by
  induction l generalizing p with
  | nil =>
    rw [List.foldlM_nil, pure_eq_ok] at h
    subst h
    exact ⟨.refl _, List.Subset.refl _, by simp, by simp, fun n => .inl⟩
  | cons a l ih =>
    rw [List.foldlM_cons, bind_eq_ok] at h
    obtain ⟨u, hu, h⟩ := h
    obtain ⟨hg, hau⟩ := step a List.mem_cons_self p u hw hu
    have hrest := ih (fun n hn => step n (List.mem_cons_of_mem a hn)) (hw.grows hg) h
    have hsub : p.1 ⊆ u.1 := by
      rcases hau with hau | hau
      · rw [hau]
        exact List.Subset.refl _
      · rw [hau]
        exact List.subset_append_left _ _
    refine ⟨hg.trans hrest.grows, List.Subset.trans hsub hrest.subset, hrest.sublist.trans ?_,
      fun n hn => ?_, fun n hn => ?_⟩
    · rcases hau with hau | hau
      · rw [hau]
        exact (List.sublist_cons_self a l).append_left p.1
      · rw [hau, List.append_assoc, List.singleton_append]
    · rcases List.mem_cons.mp hn with rfl | hn
      · exact ⟨p, u, hw, hu, .refl _, hrest.grows, hrest.subset⟩
      · obtain ⟨v, v', hv, hf, hgv, hg', hsub'⟩ := hrest.round n hn
        exact ⟨v, v', hv, hf, hg.trans hgv, hg', hsub'⟩
    · rcases hrest.kept n hn with hn | hn
      · rcases hau with hau | hau
        · exact .inl (hau ▸ hn)
        · rcases List.mem_append.mp (hau ▸ hn) with hn | hn
          · exact .inl hn
          · obtain rfl := List.mem_singleton.mp hn
            exact .inr ⟨p, u, hw, hu, hau⟩
      · exact .inr hn

end Precedence
