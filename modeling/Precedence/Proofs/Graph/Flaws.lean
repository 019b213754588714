import Precedence.Graph.Verify
import Precedence.Proofs.Graph.Edges

/-!
Flaws of single edges. A graph that was filled in by hand may have entries that name no node, or that
nothing at their other end answers to. The search for a flaw finds none exactly in a graph whose edges
are known at both ends, and what it finds is a flaw.
-/
namespace Precedence.Graph

variable {g : Graph} {id p s : NodeId} {d : Dep} {k : Kind} {r : Option Reg}

theorem hasNode_iff : g.hasNode id ↔ (g.position id).isSome := by
  cases id with
  | exit => simp [hasNode, position, node?]
  | unit i => rw [position_unit_isSome, hasNode, decide_eq_true_iff]

/-- A node with an edge that leaves it is there. -/
theorem present_of_hasEdge (h : g.HasEdge p s k r) : (g.position p).isSome := by
  cases p with
  | exit => simp [position, node?]
  | unit i =>
    rw [position_unit_isSome]
    by_contra hi
    simp [HasEdge, outgoing, succsOf, hi] at h

theorem any_sameConstraint (deps : List Dep) (d : Dep) :
    (deps.any fun e => e.sameConstraint d) ↔ d.constraint ∈ deps.map Dep.constraint := by
  simp only [List.any_eq_true, Dep.sameConstraint_iff, List.mem_map]

/-- Every entry names a node, and has a counterpart of the same kind and register there. -/
structure Consistent (g : Graph) : Prop where
  named : ∀ id, ∀ d ∈ g.predsOf id ++ g.succsOf id, g.hasNode d.node
  paired : ∀ p s k r, (p, k, r) ∈ g.incoming s ↔ g.HasEdge p s k r

theorem Consistent.linked (h : g.Consistent) (hexit : g.exit.succs = []) : g.Linked := by
  refine ⟨h.paired, fun p s k r he => ?_, by simp [outgoing, succsOf, hexit]⟩
  obtain ⟨d, hd, heq⟩ := List.mem_map.mp he
  obtain rfl : d.node = s := congrArg Prod.fst heq
  exact hasNode_iff.mp (h.named p d (List.mem_append_right _ hd))

theorem Linked.consistent (hl : g.Linked) : g.Consistent := by
  refine ⟨fun id d hd => hasNode_iff.mpr ?_, hl.mirror⟩
  rcases List.mem_append.mp hd with hd | hd
  · exact present_of_hasEdge ((hl.mirror ..).mp (List.mem_map_of_mem hd))
  · exact hl.present _ _ _ _ (List.mem_map_of_mem hd)

/-- What a flaw says: some entry names a node that is not there, or an edge is known at one of its ends
only. -/
inductive Flawed (g : Graph) : Rejection → Prop
  | dangling {id : NodeId} {d : Dep} (entry : d ∈ g.predsOf id ++ g.succsOf id)
      (absent : ¬g.hasNode d.node) : Flawed g (.danglingEdge d.node)
  | lopsided {p s : NodeId} {k : Kind} {r : Option Reg}
      (unpaired : ¬((p, k, r) ∈ g.incoming s ↔ g.HasEdge p s k r)) : Flawed g (.asymmetricEdge p s)

theorem Flawed.not_consistent {flaw : Rejection} (h : g.Flawed flaw) : ¬g.Consistent := by
  intro hc
  cases h with
  | dangling entry absent => exact absent (hc.named _ _ entry)
  | lopsided unpaired => exact unpaired (hc.paired ..)

/-- The first find in a list, where what is found for each element is known. -/
theorem findSome?_cases {α β : Type} {l : List α} {f : α → Option β} {P : α → Prop} {F : β → Prop}
    (h : ∀ a ∈ l, (f a = none ∧ P a) ∨ ∃ b, f a = some b ∧ F b) :
    (l.findSome? f = none ∧ ∀ a ∈ l, P a) ∨ ∃ b, l.findSome? f = some b ∧ F b := by
  induction l with
  | nil => exact .inl ⟨rfl, by simp⟩
  | cons a rest ih =>
    rw [List.findSome?_cons]
    rcases h a List.mem_cons_self with ⟨hnone, ha⟩ | ⟨b, hsome, hb⟩
    · rw [hnone]
      exact (ih fun c hc => h c (List.mem_cons_of_mem a hc)).imp_left fun ⟨hrest, hall⟩ =>
        ⟨hrest, List.forall_mem_cons.mpr ⟨ha, hall⟩⟩
    · exact .inr ⟨b, by rw [hsome], hb⟩

theorem predFlaw?_cases (hd : d ∈ g.predsOf id) :
    (g.predFlaw? id d = none ∧ g.hasNode d.node ∧ g.HasEdge d.node id d.kind d.reg) ∨
      ∃ flaw, g.predFlaw? id d = some flaw ∧ g.Flawed flaw := by
  unfold predFlaw?
  by_cases hnode : g.hasNode d.node
  · have hany := any_sameConstraint (g.succsOf d.node) (d.facing id)
    by_cases hedge : g.HasEdge d.node id d.kind d.reg
    · exact .inl ⟨by simp [hnode, hany.mpr hedge], hnode, hedge⟩
    · have hin : (d.node, d.kind, d.reg) ∈ g.incoming id := List.mem_map_of_mem hd
      refine .inr ⟨_, ?_, .lopsided fun hiff => hedge (hiff.mp hin)⟩
      rw [hnode, if_neg (by decide), if_neg (mt hany.mp hedge)]
  · exact .inr ⟨_, by simp [hnode], .dangling (List.mem_append_left _ hd) hnode⟩

theorem succFlaw?_cases (hd : d ∈ g.succsOf id) :
    (g.succFlaw? id d = none ∧ g.hasNode d.node ∧ (id, d.kind, d.reg) ∈ g.incoming d.node) ∨
      ∃ flaw, g.succFlaw? id d = some flaw ∧ g.Flawed flaw := by
  unfold succFlaw?
  by_cases hnode : g.hasNode d.node
  · have hany := any_sameConstraint (g.predsOf d.node) (d.facing id)
    by_cases hin : (id, d.kind, d.reg) ∈ g.incoming d.node
    · exact .inl ⟨by simp [hnode, hany.mpr hin], hnode, hin⟩
    · have hedge : g.HasEdge id d.node d.kind d.reg := List.mem_map_of_mem hd
      refine .inr ⟨_, ?_, .lopsided fun hiff => hin (hiff.mpr hedge)⟩
      rw [hnode, if_neg (by decide), if_neg (mt hany.mp hin)]
  · exact .inr ⟨_, by simp [hnode], .dangling (List.mem_append_right _ hd) hnode⟩

theorem nodeFlaw?_cases {n : Node} (hn : g.node? id = some n) :
    (g.nodeFlaw? id n = none ∧
      (∀ d ∈ g.predsOf id, g.hasNode d.node ∧ g.HasEdge d.node id d.kind d.reg) ∧
      ∀ d ∈ g.succsOf id, g.hasNode d.node ∧ (id, d.kind, d.reg) ∈ g.incoming d.node) ∨
      ∃ flaw, g.nodeFlaw? id n = some flaw ∧ g.Flawed flaw := by
  have hpreds : g.predsOf id = n.preds := by simp [predsOf_eq, hn]
  have hsuccs : g.succsOf id = n.succs := by simp [succsOf_eq, hn]
  rw [nodeFlaw?, ← hpreds, ← hsuccs]
  rcases findSome?_cases fun d (hd : d ∈ g.predsOf id) => predFlaw?_cases hd with
    ⟨hnone, hp⟩ | ⟨flaw, hflaw, h⟩
  · rw [hnone, Option.none_or]
    exact (findSome?_cases fun d hd => succFlaw?_cases hd).imp_left fun ⟨hnone, hs⟩ =>
      ⟨hnone, hp, hs⟩
  · exact .inr ⟨flaw, by rw [hflaw, Option.some_or], h⟩

/-- The search finds nothing in a graph whose edges are known at both ends, and otherwise a flaw. -/
theorem edgeFlaw?_cases (g : Graph) : (g.edgeFlaw? = none ∧ g.Consistent) ∨
    ∃ flaw, g.edgeFlaw? = some flaw ∧ g.Flawed flaw := by
  refine (findSome?_cases fun e he => nodeFlaw?_cases (mem_entries.mp he)).imp_left
    fun ⟨hnone, hall⟩ => ⟨hnone, ?_⟩
  -- a name that no node bears has no entries
  have hnode : ∀ id, (∀ d ∈ g.predsOf id, g.hasNode d.node ∧ g.HasEdge d.node id d.kind d.reg) ∧
      ∀ d ∈ g.succsOf id, g.hasNode d.node ∧ (id, d.kind, d.reg) ∈ g.incoming d.node := by
    intro id
    cases hn : g.node? id with
    | none => simp [predsOf_eq, succsOf_eq, hn]
    | some n => exact hall (id, n) (mem_entries.mpr hn)
  refine ⟨fun id d hd => ?_, fun p s k r => ⟨fun hin => ?_, fun hedge => ?_⟩⟩
  · rcases List.mem_append.mp hd with hd | hd
    · exact ((hnode id).1 d hd).1
    · exact ((hnode id).2 d hd).1
  · obtain ⟨d, hd, ⟨⟩⟩ := List.mem_map.mp hin
    exact ((hnode s).1 d hd).2
  · obtain ⟨d, hd, ⟨⟩⟩ := List.mem_map.mp hedge
    exact ((hnode p).2 d hd).2

theorem edgeFlaw?_eq_none (hl : g.Linked) : g.edgeFlaw? = none := by
  rcases edgeFlaw?_cases g with ⟨h, -⟩ | ⟨flaw, -, h⟩
  · exact h
  · exact absurd hl.consistent h.not_consistent

end Precedence.Graph
