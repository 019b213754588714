import Precedence.Proofs.Graph.Cycles
import Precedence.Proofs.Graph.Paths

/-!
What a graph answers when it is asked. The structural check accepts exactly the graphs whose edges are
known at both ends and form no cycle, also among graphs that were filled in by hand, and the search for
a path says exactly where one leads.
-/
namespace Precedence.Graph

variable {g : Graph}

/-! The structural check -/

/-- Whether entries repeat is seen at the nodes that are there. -/
theorem distinct_of_entries (h : ∀ e ∈ g.entries, (e.2.preds.map Dep.constraint).Nodup ∧
    (e.2.succs.map Dep.constraint).Nodup) : g.Distinct := by
  have hnode : ∀ id, (g.incoming id).Nodup ∧ (g.outgoing id).Nodup := by
    intro id
    cases hn : g.node? id with
    | none => simp [incoming, outgoing, predsOf_eq, succsOf_eq, hn]
    | some n => simpa [incoming, outgoing, predsOf_eq, succsOf_eq, hn] using h _ (mem_entries.mpr hn)
  exact ⟨fun s => (hnode s).1, fun p => (hnode p).2⟩

/-- The check of a graph in which no node repeats a constraint and nothing leaves the exit always comes to
an answer. It accepts exactly the graphs whose entries name nodes and have their counterparts there and
whose units lie on no cycle. What it reports otherwise is an entry that names no node, an edge that is
known at one of its ends only, or, where there are neither, the first unit on a cycle or behind one. An
edge from the exit needs no exception: nothing leaves the exit, so it is known at its end only. -/
theorem verify_iff_consistent (hd : g.Distinct) (hexit : g.exit.succs = []) :
    (∀ f, g.verify ≠ .error (.fault f)) ∧
    (g.verify = .ok () ↔ g.Consistent ∧ g.Acyclic) ∧
    ∀ flaw, g.verify = .error (.rejected flaw) → g.Flawed flaw ∨
      (g.Consistent ∧ ∃ i, flaw = .cycle (.unit i) ∧ IsLeast {i | g.BehindCycle (.unit i)} i) := by
  rcases edgeFlaw?_cases g with ⟨-, hconsistent⟩ | ⟨flaw, hflaw, hf⟩
  · have hl := hconsistent.linked hexit
    rcases order_or_cycle hl hd with ⟨schedule, horder, -, hacyclic⟩ | ⟨i, herror, hleast⟩
    · have hverify : g.verify = .ok () := by rw [verify_eq hl, horder, Except.map]
      rw [hverify]
      exact ⟨by simp, iff_of_true rfl ⟨hconsistent, hacyclic⟩, by simp⟩
    · have hverify : g.verify = .error (.rejected (.cycle (.unit i))) := by
        rw [verify_eq hl, herror, Except.map]
      rw [hverify]
      refine ⟨by simp, iff_of_false (by simp) fun h => hl.not_acyclic hleast.1 h.2, ?_⟩
      rintro _ ⟨⟩
      exact .inr ⟨hconsistent, i, rfl, hleast⟩
  · have hverify : g.verify = .error (.rejected flaw) := by rw [verify, hflaw]
    rw [hverify]
    refine ⟨by simp, iff_of_false (by simp) fun h => hf.not_consistent h.1, ?_⟩
    rintro _ ⟨⟩
    exact .inl hf

/-- Two edges between the same units and one to the exit, with latencies that the ends disagree on. -/
theorem consistent_of_verified :
    let first : Node := { succs := [.data (.unit 1) 3 ⟨1⟩ none none, .order (.unit 1) 0] }
    let second : Node :=
      { preds := [.order (.unit 0) 5, .data (.unit 0) 3 ⟨1⟩ none none], succs := [.artificial .exit] }
    let g : Graph := { block := ⟨0⟩, start := 0, stop := 2, nodes := #[first, second]
                       exit := { preds := [.artificial (.unit 1)] } }
    g.Distinct ∧ g.exit.succs = [] ∧ g.verify = .ok () ∧ g.Consistent ∧ g.Acyclic := by
  intro first second g
  have hd : g.Distinct := distinct_of_entries (by decide)
  have hverify : g.verify = .ok () := by cbv
  obtain ⟨-, hiff, -⟩ := verify_iff_consistent hd rfl
  exact ⟨hd, rfl, hverify, hiff.mp hverify⟩

/-! The search for a path -/

variable {block : BlockId} {start stop : Nat} {positions : List Nat} {calls : List Request}
  {answers : List Bool}

/-- Whatever edges have been added to a graph, with cycles or without, the search from any of its nodes
ends, and it says yes exactly for the node itself and the nodes that a path of edges leads to. -/
theorem reaches_decides_path
    (h : (ofPositions block start stop positions).addDeps calls = .ok (g, answers)) {source : NodeId}
    (hsource : g.hasNode source) (target : NodeId) :
    ∃ b, g.reaches source target = .ok b ∧
      (b = true ↔ source = target ∨ Relation.TransGen g.Joins source target) := by
  obtain ⟨hl, -⟩ := stored_of_addDeps h
  obtain ⟨b, hb, hpath⟩ := reaches_iff_path hl target (hasNode_iff.mp hsource)
  refine ⟨b, hb, hpath.trans ?_⟩
  rw [Path, Relation.reflTransGen_iff_eq_or_transGen, eq_comm]

/-- From a unit in front of a cycle a path leads through it to the exit; none leads back to the unit, from
the cycle or from the exit. -/
theorem reaches_through_cycle :
    let calls : List Request := [⟨.unit 1, .order (.unit 0) 0⟩, ⟨.unit 2, .order (.unit 1) 0⟩,
      ⟨.unit 1, .order (.unit 2) 0⟩, ⟨.exit, .artificial (.unit 2)⟩]
    ∃ g answers, (ofPositions ⟨0⟩ 0 3 [0, 1, 2]).addDeps calls = .ok (g, answers) ∧
      g.hasNode (.unit 0) ∧ g.reaches (.unit 0) .exit = .ok true ∧
      g.hasNode (.unit 1) ∧ g.reaches (.unit 1) (.unit 0) = .ok false ∧
      g.hasNode .exit ∧ g.reaches .exit (.unit 0) = .ok false := by
  intro calls
  have hcalls : ((ofPositions ⟨0⟩ 0 3 [0, 1, 2]).addDeps calls).map
      (fun built => decide (built.1.hasNode (.unit 0) ∧ built.1.hasNode (.unit 1) ∧
        (.unit 1, .order, none) ∈ built.1.outgoing (.unit 0) ∧
        (.unit 2, .order, none) ∈ built.1.outgoing (.unit 1) ∧
        (.exit, .artificial, none) ∈ built.1.outgoing (.unit 2) ∧
        built.1.incoming (.unit 0) = [])) = .ok true := by decide
  obtain ⟨⟨g, answers⟩, h, hzero, hone, hfirst, hsecond, hlast, hin⟩ := exists_of_map_decide hcalls
  -- no edge leads to the first unit
  have hnot : ∀ p, ¬Relation.TransGen g.Joins p (.unit 0) := by
    intro p hp
    obtain ⟨k, -, kind, reg, hedge⟩ := Relation.TransGen.tail'_iff.mp hp
    have hmem := ((stored_of_addDeps h).1.mirror ..).mpr hedge
    rw [hin] at hmem
    exact List.not_mem_nil hmem
  have hpath : Relation.TransGen g.Joins (.unit 0) .exit :=
    .head ⟨_, _, hfirst⟩ (.head ⟨_, _, hsecond⟩ (.single ⟨_, _, hlast⟩))
  obtain ⟨b, hb, hyes⟩ := reaches_decides_path h hzero .exit
  obtain ⟨c, hc, hback⟩ := reaches_decides_path h hone (.unit 0)
  have hthere : g.hasNode .exit := rfl
  obtain ⟨e, he, hexit⟩ := reaches_decides_path h hthere (.unit 0)
  simp only [hpath, hnot, or_true, or_false, iff_true, reduceCtorEq, NodeId.unit.injEq, one_ne_zero,
    iff_false, Bool.not_eq_true] at hyes hback hexit
  subst hyes hback hexit
  exact ⟨g, answers, h, hzero, hb, hone, hc, hthere, he⟩

end Precedence.Graph
