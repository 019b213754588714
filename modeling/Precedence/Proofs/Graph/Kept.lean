import Precedence.Proofs.Graph.Edges
import Precedence.Proofs.Outcomes

/-!
A graph with the edges of some kinds only, and a graph with no edges at all. Of the edges that state
one constraint all have one kind, so adding an edge of a kind that stays behind is seen by the rest
of the graph as if the other kinds were not there, and adding any other edge is not seen at all.
-/
namespace Precedence

/-- A node with the edges of some kinds. -/
def Node.only (keep : Kind → Bool) (n : Node) : Node :=
  { n with
    preds := n.preds.filter fun d => keep d.kind
    succs := n.succs.filter fun d => keep d.kind }

/-- What a node wraps. -/
def Node.bare (n : Node) : Node := { instr := n.instr, latency := n.latency, isCall := n.isCall }

theorem Dep.kind_of_sameConstraint {d e : Dep} (h : e.sameConstraint d) : e.kind = d.kind :=
  congrArg (fun c => c.2.1) (Dep.sameConstraint_iff.mp h)

namespace Dep

variable {keep : Kind → Bool} {d : Dep} {deps : List Dep}

theorem filter_relabel (h : keep d.kind) :
    (d.relabel deps).filter (fun e => keep e.kind) =
      d.relabel (deps.filter fun e => keep e.kind) := by
  induction deps with
  | nil => rfl
  | cons e rest ih =>
    by_cases hsame : e.sameConstraint d
    · have hk : keep e.kind := kind_of_sameConstraint hsame ▸ h
      simp [relabel, hsame, hk]
    · by_cases hk : keep e.kind <;> simp [relabel, hsame, hk, ih]

theorem filter_relabel_of_not (h : keep d.kind = false) :
    (d.relabel deps).filter (fun e => keep e.kind) = deps.filter fun e => keep e.kind := by
  induction deps with
  | nil => rfl
  | cons e rest ih =>
    by_cases hsame : e.sameConstraint d
    · have hk : keep e.kind = false := kind_of_sameConstraint hsame ▸ h
      simp [relabel, hsame, hk]
    · simp [relabel, hsame, ih, List.filter_cons]

/-- An edge is found among all edges just as among those of its kind. -/
theorem find?_filter_kind (h : keep d.kind) :
    (deps.filter fun e => keep e.kind).find? (fun e => e.sameConstraint d) =
      deps.find? fun e => e.sameConstraint d := by
  rw [List.find?_filter]
  congr 1
  funext e
  by_cases hsame : e.sameConstraint d
  · simp [hsame, kind_of_sameConstraint hsame, h]
  · simp [hsame]

end Dep

namespace Graph

/-- Changes all nodes, the exit included. -/
def mapNodes (f : Node → Node) (g : Graph) : Graph :=
  { g with nodes := g.nodes.map f, exit := f g.exit }

/-- The graph with the edges of some kinds. -/
def only (keep : Kind → Bool) (g : Graph) : Graph := g.mapNodes (Node.only keep)

/-- The graph without edges: what it is about and what its nodes wrap. -/
def bare (g : Graph) : Graph := g.mapNodes Node.bare

variable {f : Node → Node} {g g' : Graph} {id succ : NodeId} {change change' : Node → Node} {dep : Dep}
  {keep : Kind → Bool}

theorem node?_mapNodes : (g.mapNodes f).node? id = (g.node? id).map f := by
  cases id <;> simp [node?, mapNodes]

theorem node_mapNodes : (g.mapNodes f).node id = (g.node id).map f := by
  cases id with
  | exit => rfl
  | unit i =>
    simp only [node, mapNodes, Array.getElem?_map]
    cases g.nodes[i]? <;> rfl

theorem mapNodes_mapNodes {f' : Node → Node} :
    (g.mapNodes f).mapNodes f' = g.mapNodes (f' ∘ f) := by
  simp [mapNodes]

theorem bare_only : (g.only keep).bare = g.bare := mapNodes_mapNodes

/-- A change of one node, seen through a view of all nodes. -/
theorem modifyNode_mapNodes (hf : ∀ n, f (change n) = change' (f n))
    (h : g.modifyNode id change = .ok g') :
    (g.mapNodes f).modifyNode id change' = .ok (g'.mapNodes f) := by
  cases id with
  | exit =>
    cases h
    simp [modifyNode, mapNodes, hf]
  | unit i =>
    simp only [modifyNode] at h
    split at h
    next hi =>
      cases h
      simp only [modifyNode, mapNodes, Array.size_map, if_pos hi]
      congr 2
      ext j hj
      · simp
      · simp only [Array.getElem_modify, Array.getElem_map]
        split <;> simp [hf]
    next => cases h

/-- A view that does not show a change. -/
theorem mapNodes_modifyNode (hf : ∀ n, f (change n) = f n) (h : g.modifyNode id change = .ok g') :
    g'.mapNodes f = g.mapNodes f := by
  have hview : (g.mapNodes f).modifyNode id (fun n => n) = .ok (g'.mapNodes f) :=
    modifyNode_mapNodes hf h
  cases id with
  | exit => exact (Except.ok.inj hview).symm
  | unit i =>
    simp only [modifyNode] at hview
    split at hview
    · rw [show (g.mapNodes f).nodes.modify i (fun n => n) = (g.mapNodes f).nodes from
        Array.ext (by simp) (by simp [Array.getElem_modify])] at hview
      exact (Except.ok.inj hview).symm
    · cases hview

variable {pred : NodeId} {ins outs ins' outs' : List Dep → List Dep}

/-- A change at the two ends of an edge, seen through a view of all nodes. -/
theorem modifyEnds_mapNodes
    (hins : ∀ n, f { n with preds := ins n.preds } = { f n with preds := ins' (f n).preds })
    (houts : ∀ n, f { n with succs := outs n.succs } = { f n with succs := outs' (f n).succs })
    (h : g.modifyEnds succ pred ins outs = .ok g') :
    (g.mapNodes f).modifyEnds succ pred ins' outs' = .ok (g'.mapNodes f) := by
  simp only [modifyEnds, bind_eq_ok] at h ⊢
  obtain ⟨g₁, h₁, h₂⟩ := h
  exact ⟨_, modifyNode_mapNodes hins h₁, modifyNode_mapNodes houts h₂⟩

/-- A view that shows a change at neither end. -/
theorem mapNodes_modifyEnds (hins : ∀ n, f { n with preds := ins n.preds } = f n)
    (houts : ∀ n, f { n with succs := outs n.succs } = f n)
    (h : g.modifyEnds succ pred ins outs = .ok g') : g'.mapNodes f = g.mapNodes f := by
  simp only [modifyEnds, bind_eq_ok] at h
  obtain ⟨g₁, h₁, h₂⟩ := h
  exact (mapNodes_modifyNode houts h₂).trans (mapNodes_modifyNode hins h₁)

theorem predsOf_mapNodes {V : List Dep → List Dep} (hV : ∀ n, (f n).preds = V n.preds)
    (hnil : V [] = []) : (g.mapNodes f).predsOf id = V (g.predsOf id) := by
  rw [predsOf_eq, predsOf_eq, node?_mapNodes]
  cases g.node? id <;> simp [hV, hnil]

theorem isSome_node?_mapNodes : ((g.mapNodes f).node? id).isSome = (g.node? id).isSome := by
  rw [node?_mapNodes, Option.isSome_map]

theorem bare_withDep (h : g.withDep succ dep = .ok g') : g'.bare = g.bare := by
  obtain ⟨-, -, -, h⟩ := withDep_eq_ok.mp h
  split at h
  · split at h
    · exact mapNodes_modifyEnds (fun _ => rfl) (fun _ => rfl) h
    · rw [h]
  · exact mapNodes_modifyEnds (fun _ => rfl) (fun _ => rfl) h

/-- An edge of another kind does not show. -/
theorem only_withDep_of_not (hk : keep dep.kind = false) (h : g.withDep succ dep = .ok g') :
    g'.only keep = g.only keep := by
  have hfacing : keep (dep.facing succ).kind = false := hk
  obtain ⟨-, -, -, h⟩ := withDep_eq_ok.mp h
  split at h
  · split at h
    · exact mapNodes_modifyEnds (fun n => by simp [Node.only, Dep.filter_relabel_of_not hk])
        (fun n => by simp [Node.only, Dep.filter_relabel_of_not hfacing]) h
    · rw [h]
  · exact mapNodes_modifyEnds (fun n => by simp [Node.only, hk])
      (fun n => by simp [Node.only, hfacing]) h

/-- An edge of a kept kind is added as if the other kinds were not there. -/
theorem only_withDep (hk : keep dep.kind) (h : g.withDep succ dep = .ok g') :
    (g.only keep).withDep succ dep = .ok (g'.only keep) := by
  have hfacing : keep (dep.facing succ).kind := hk
  obtain ⟨hself, hexit, hsucc, h⟩ := withDep_eq_ok.mp h
  refine withDep_eq_ok.mpr ⟨hself, hexit, isSome_node?_mapNodes.trans hsucc, ?_⟩
  have hpreds : (g.only keep).predsOf succ = (g.predsOf succ).filter fun e => keep e.kind :=
    predsOf_mapNodes (fun _ => rfl) rfl
  rw [hpreds, Dep.find?_filter_kind hk]
  split at h
  next old hold =>
    split at h
    next hlt =>
      rw [if_pos hlt]
      exact modifyEnds_mapNodes (fun n => by simp [Node.only, Dep.filter_relabel hk])
        (fun n => by simp [Node.only, Dep.filter_relabel hfacing]) h
    next hle => rw [if_neg hle, h]
  next hnone =>
    exact modifyEnds_mapNodes (fun n => by simp [Node.only, hk])
      (fun n => by simp [Node.only, hfacing]) h

/-! What graphs with the same nodes have in common -/

theorem node_alike (h : g.mapNodes f = g'.mapNodes f) (id : NodeId) :
    Alike (fun n n' => f n = f n') (g.node id) (g'.node id) := by
  have hview : (g.node id).map f = (g'.node id).map f := by
    rw [← node_mapNodes, ← node_mapNodes, h]
  cases hn : g.node id <;> cases hn' : g'.node id <;> simp only [hn, hn', Except.map] at hview
  · exact Except.error.inj hview ▸ .error _
  · cases hview
  · cases hview
  · exact .ok (Except.ok.inj hview)

theorem instr_eq_of_bare (h : g.bare = g'.bare) (id : NodeId) (b : Block) :
    g.instr id b = g'.instr id b := by
  refine Alike.eq ((node_alike h id).bind fun n n' hn => .pure ?_)
  have hinstr : n.bare.instr = n'.bare.instr := congrArg Node.instr hn
  exact congrArg (fun p : Option Nat => p.bind fun i => b.instrs[i]?) hinstr

theorem block_eq_of_bare (h : g.bare = g'.bare) : g.block = g'.block := by
  have hblock : g.bare.block = g'.bare.block := congrArg block h
  exact hblock

theorem size_eq_of_bare (h : g.bare = g'.bare) : g.nodes.size = g'.nodes.size := by
  have hsize := congrArg (fun g => g.nodes.size) h
  simpa [bare, mapNodes] using hsize

/-! Whether an edge can be added -/

theorem isSome_node?_of_bare (h : g.bare = g'.bare) : (g.node? id).isSome = (g'.node? id).isSome := by
  have hview := congrArg (fun g => (Graph.node? g id).isSome) h
  simpa [bare, node?_mapNodes] using hview

theorem exists_modifyNode (change : Node → Node) (h : (g.node? id).isSome) :
    ∃ g', g.modifyNode id change = .ok g' := by
  cases id with
  | exit => exact ⟨_, rfl⟩
  | unit i =>
    have hi : i < g.nodes.size := by simpa [node?] using h
    exact ⟨_, if_pos hi⟩

theorem modifyNode_absent (h : (g.node? id).isSome = false) :
    g.modifyNode id change = .error .indexOutOfBounds := by
  cases id with
  | exit => simp [node?] at h
  | unit i =>
    have hi : ¬i < g.nodes.size := by simpa [node?] using h
    exact if_neg hi

theorem node_absent (h : (g.node? id).isSome = false) : g.node id = .error .indexOutOfBounds := by
  cases id with
  | exit => simp [node?] at h
  | unit i =>
    have hi : g.nodes[i]? = none := by simpa [node?] using h
    simp [node, hi]

/-- Two different nodes can be joined if both are there and the earlier one is not the exit. -/
theorem exists_withDep (hself : dep.node ≠ succ) (hexit : dep.node ≠ .exit)
    (hsucc : (g.node? succ).isSome) (hpred : (g.node? dep.node).isSome) :
    ∃ g', g.withDep succ dep = .ok g' := by
  have hends : ∀ ins outs, ∃ g', g.modifyEnds succ dep.node ins outs = .ok g' := by
    intro ins outs
    obtain ⟨g₁, h₁⟩ := exists_modifyNode (fun n => { n with preds := ins n.preds }) hsucc
    have hpred₁ : (g₁.node? dep.node).isSome := by
      rwa [(node?_modifyNode h₁).2, Function.update_of_ne hself]
    obtain ⟨g₂, h₂⟩ := exists_modifyNode (fun n => { n with succs := outs n.succs }) hpred₁
    exact ⟨g₂, bind_eq_ok.mpr ⟨g₁, h₁, h₂⟩⟩
  simp only [withDep_eq_ok, ne_eq, hself, hexit, hsucc, not_false_eq_true, true_and]
  split
  · split
    · exact hends _ _
    · exact ⟨g, rfl⟩
  · exact hends _ _

theorem Linked.isSome_of_incoming (hl : g.Linked) {c : NodeId × Kind × Option Reg}
    (h : c ∈ g.incoming succ) : (g.node? c.1).isSome := by
  have hedge : (succ, c.2.1, c.2.2) ∈ g.outgoing c.1 := (hl.mirror c.1 succ c.2.1 c.2.2).mp h
  cases hn : g.node? c.1 with
  | some n => rfl
  | none => simp [outgoing, succsOf_eq, hn] at hedge

/-- Whatever edges there are, none can be added at a node that is not there. -/
theorem withDep_absent (hl : g.Linked) (hself : dep.node ≠ succ) (hexit : dep.node ≠ .exit)
    (h : (g.node? succ).isSome → (g.node? dep.node).isSome = false) :
    g.withDep succ dep = .error .indexOutOfBounds := by
  simp only [withDep, addDep, if_neg hself, if_neg hexit]
  cases hsucc : (g.node? succ).isSome with
  | false =>
    rw [node_absent hsucc]
    rfl
  | true =>
    obtain ⟨target, htarget⟩ := Option.isSome_iff_exists.mp hsucc
    have hnone : target.preds.find? (fun e => e.sameConstraint dep) = none := by
      refine List.find?_eq_none.mpr fun e he hsame => ?_
      have hmem : dep.constraint ∈ g.incoming succ := by
        rw [incoming, predsOf_eq, htarget, ← Dep.sameConstraint_iff.mp hsame]
        exact List.mem_map_of_mem he
      have hpred := hl.isSome_of_incoming hmem
      rw [show dep.constraint.1 = dep.node from rfl, h hsucc] at hpred
      cases hpred
    obtain ⟨g₁, h₁⟩ := exists_modifyNode (fun n => { n with preds := n.preds ++ [dep] }) hsucc
    have hpred₁ : (g₁.node? dep.node).isSome = false := by
      rw [(node?_modifyNode h₁).2, Function.update_of_ne hself]
      exact h hsucc
    simp only [node_eq_ok.mpr htarget, hnone, h₁, modifyNode_absent hpred₁, bind, Except.bind]

/-- Whether an edge can be added depends on the nodes alone. -/
theorem withDep_alike (hl : g.Linked) (hl' : g'.Linked) (hbare : g.bare = g'.bare) (succ : NodeId)
    {dep dep' : Dep} (hdep : dep.node = dep'.node) :
    Alike (fun _ _ => True) (g.withDep succ dep) (g'.withDep succ dep') := by
  by_cases hself : dep.node = succ
  · simp only [withDep, addDep, if_pos hself, if_pos (hdep ▸ hself)]
    exact .error _
  by_cases hexit : dep.node = .exit
  · simp only [withDep, addDep, if_neg hself, if_neg (hdep ▸ hself), if_pos hexit,
      if_pos (hdep ▸ hexit)]
    exact .error _
  by_cases h : (g.node? succ).isSome ∧ (g.node? dep.node).isSome
  · obtain ⟨g₁, h₁⟩ := exists_withDep hself hexit h.1 h.2
    obtain ⟨g₂, h₂⟩ := exists_withDep (hdep ▸ hself) (hdep ▸ hexit)
      (isSome_node?_of_bare hbare ▸ h.1) (isSome_node?_of_bare hbare ▸ hdep ▸ h.2)
    rw [h₁, h₂]
    exact .ok trivial
  · have habsent : (g.node? succ).isSome → (g.node? dep.node).isSome = false := by simpa using h
    rw [withDep_absent hl hself hexit habsent,
      withDep_absent hl' (hdep ▸ hself) (hdep ▸ hexit) fun hs => by
        rw [← isSome_node?_of_bare hbare] at hs ⊢
        exact hdep ▸ habsent hs]
    exact .error _

/-- Whether a node can be changed depends on whether it is there. -/
theorem modifyNode_alike (hbare : g.bare = g'.bare) :
    Alike (fun _ _ => True) (g.modifyNode id change) (g'.modifyNode id change') := by
  have hnode : (g.node? id).isSome = (g'.node? id).isSome := isSome_node?_of_bare hbare
  cases hid : (g.node? id).isSome with
  | false =>
    rw [modifyNode_absent hid, modifyNode_absent (hnode ▸ hid)]
    exact .error _
  | true =>
    obtain ⟨e, he⟩ := exists_modifyNode change hid
    obtain ⟨e', he'⟩ := exists_modifyNode change' (hnode ▸ hid)
    rw [he, he']
    exact .ok trivial

end Graph

end Precedence
