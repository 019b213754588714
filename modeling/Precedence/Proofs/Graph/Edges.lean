import Mathlib.Logic.Function.Basic
import Mathlib.Logic.Relation
import Precedence.Graph.Basic
import Precedence.Proofs.Returns

/-!
What `Graph.addDep` does to a graph, seen through the constraints that enter and leave its nodes.
Latencies and operands are left aside: two edges with the same ends, kind and register count as one.
Nothing is ever taken away from a graph, which is what `Graph.Grows` says.
-/
namespace Precedence

/-- The part of an edge that says what it asks for. -/
def Dep.constraint (d : Dep) : NodeId × Kind × Option Reg := (d.node, d.kind, d.reg)

theorem Dep.sameConstraint_iff {d e : Dep} : d.sameConstraint e ↔ d.constraint = e.constraint := by
  simp [Dep.sameConstraint, Dep.constraint, and_assoc]

theorem Dep.constraint_of_find? {d e : Dep} {deps : List Dep}
    (h : deps.find? (fun f => f.sameConstraint d) = some e) : e.constraint = d.constraint := by
  simpa [sameConstraint_iff] using List.find?_some h

theorem Dep.constraint_relabel (d : Dep) (deps : List Dep) :
    (d.relabel deps).map Dep.constraint = deps.map Dep.constraint := by
  induction deps with
  | nil => rfl
  | cons e rest ih =>
    simp only [Dep.relabel]
    split
    · rfl
    · simp [ih]

/-- The entry that states the constraint of `d` takes its latency, and no other entry changes. -/
theorem Dep.mem_relabel {d e : Dep} {deps : List Dep} (h : (deps.map Dep.constraint).Nodup) :
    e ∈ d.relabel deps ↔ (e ∈ deps ∧ e.constraint ≠ d.constraint) ∨
      ∃ f ∈ deps, f.constraint = d.constraint ∧ e = { f with latency := d.latency } := by
  induction deps with
  | nil => simp [relabel]
  | cons f rest ih =>
    rw [List.map_cons, List.nodup_cons] at h
    simp only [relabel]
    split
    next hsame =>
      rw [sameConstraint_iff] at hsame
      -- no entry behind the first one states the same constraint
      have hrest : ∀ e ∈ rest, e.constraint ≠ d.constraint := fun e he heq =>
        h.1 (List.mem_map.mpr ⟨e, he, heq.trans hsame.symm⟩)
      simp only [List.mem_cons]
      constructor
      · rintro (rfl | he)
        · exact .inr ⟨f, .inl rfl, hsame, rfl⟩
        · exact .inl ⟨.inr he, hrest e he⟩
      · rintro (⟨rfl | he, hne⟩ | ⟨f', rfl | hf', heq, rfl⟩)
        · exact absurd hsame hne
        · exact .inr he
        · exact .inl rfl
        · exact absurd heq (hrest f' hf')
    next hother =>
      rw [sameConstraint_iff] at hother
      simp only [List.mem_cons, ih h.2]
      constructor
      · rintro (rfl | ⟨he, hne⟩ | ⟨f', hf', hrest⟩)
        · exact .inl ⟨.inl rfl, hother⟩
        · exact .inl ⟨.inr he, hne⟩
        · exact .inr ⟨f', .inr hf', hrest⟩
      · rintro (⟨rfl | he, hne⟩ | ⟨f', rfl | hf', heq, he⟩)
        · exact .inl rfl
        · exact .inr (.inl ⟨he, hne⟩)
        · exact absurd heq hother
        · exact .inr (.inr ⟨f', hf', heq, he⟩)

namespace Graph

/-- The node of a name, if there is one. -/
def node? (g : Graph) : NodeId → Option Node
  | .exit => some g.exit
  | .unit i => g.nodes[i]?

theorem node_eq_ok {g : Graph} {id : NodeId} {n : Node} :
    g.node id = .ok n ↔ g.node? id = some n := by
  cases id with
  | exit => simp [node, node?]
  | unit i => cases h : g.nodes[i]? <;> simp [node, node?, h]

theorem predsOf_eq (g : Graph) (id : NodeId) :
    g.predsOf id = ((g.node? id).map Node.preds).getD [] := by
  cases id <;> rfl

theorem succsOf_eq (g : Graph) (id : NodeId) :
    g.succsOf id = ((g.node? id).map Node.succs).getD [] := by
  cases id <;> rfl

theorem mem_entries {g : Graph} {id : NodeId} {n : Node} :
    (id, n) ∈ g.entries ↔ g.node? id = some n := by
  simp only [entries, List.mem_append, List.mem_map, Prod.exists, List.mem_singleton, Prod.mk.injEq,
    List.mem_zipIdx_iff_getElem?, Array.getElem?_toList]
  cases id with
  | exit => simp [node?, eq_comm]
  | unit k => simp [node?]

theorem mem_edges {g : Graph} {p s : NodeId} {d : Dep} :
    (p, s, d) ∈ g.edges ↔ d.node = p ∧ d ∈ g.predsOf s := by
  simp only [edges, List.mem_flatMap, Prod.exists, List.mem_map, Prod.mk.injEq, predsOf_eq,
    mem_entries]
  constructor
  · rintro ⟨id, n, hn, d, hd, rfl, rfl, rfl⟩
    simp [hn, hd]
  · rintro ⟨rfl, hd⟩
    cases hn : g.node? s with
    | none => simp [hn] at hd
    | some n =>
      rw [hn] at hd
      exact ⟨s, n, hn, d, hd, rfl, rfl, rfl⟩

theorem node?_modifyNode {g g' : Graph} {id : NodeId} {change : Node → Node}
    (h : g.modifyNode id change = .ok g') :
    (g.node? id).isSome ∧
      g'.node? = Function.update g.node? id ((g.node? id).map change) := by
  cases id with
  | exit =>
    cases h
    refine ⟨rfl, funext fun x => ?_⟩
    cases x <;> simp [node?, Function.update]
  | unit i =>
    simp only [modifyNode] at h
    split at h
    · cases h
      refine ⟨by simpa [node?], funext fun x => ?_⟩
      cases x with
      | exit => simp [node?, Function.update]
      | unit j =>
        by_cases hj : j = i
        · subst hj
          simp [node?, Array.getElem?_modify]
        · simp [node?, Array.getElem?_modify, hj, Ne.symm hj]
    · cases h

/-- The constraints that enter a node. -/
def incoming (g : Graph) (s : NodeId) : List (NodeId × Kind × Option Reg) :=
  (g.predsOf s).map Dep.constraint

/-- The constraints that leave a node. -/
def outgoing (g : Graph) (p : NodeId) : List (NodeId × Kind × Option Reg) :=
  (g.succsOf p).map Dep.constraint

/-- The position of the instruction that a node wraps; nothing if there is no such node. -/
def position (g : Graph) (id : NodeId) : Option (Option Nat) := (g.node? id).map Node.instr

theorem position_unit_isSome {g : Graph} {i : Nat} :
    (g.position (.unit i)).isSome ↔ i < g.nodes.size := by
  simp [position, node?]

/-- What a graph is about, apart from its nodes. -/
def outline (g : Graph) : Graph := { g with nodes := #[], exit := {} }

/-- A change of one node that keeps its instruction. -/
theorem entries_modifyNode {g g' : Graph} {id : NodeId} {change : Node → Node}
    (ins outs : List Dep → List Dep) (h : g.modifyNode id change = .ok g')
    (hinstr : ∀ n, (change n).instr = n.instr) (hpreds : ∀ n, (change n).preds = ins n.preds)
    (hsuccs : ∀ n, (change n).succs = outs n.succs) :
    g'.position = g.position ∧ g'.outline = g.outline ∧
      g'.predsOf = Function.update g.predsOf id (ins (g.predsOf id)) ∧
      g'.succsOf = Function.update g.succsOf id (outs (g.succsOf id)) := by
  have houtline : g'.outline = g.outline := by
    unfold modifyNode at h
    repeat' split at h
    all_goals cases h
    all_goals rfl
  obtain ⟨hsome, h⟩ := node?_modifyNode h
  obtain ⟨n, hn⟩ := Option.isSome_iff_exists.mp hsome
  refine ⟨funext fun x => ?_, houtline, funext fun x => ?_, funext fun x => ?_⟩ <;>
    by_cases hx : x = id
  · subst hx
    simp [position, h, hn, hinstr]
  · simp [position, h, hx]
  · subst hx
    simp [predsOf_eq, h, hn, hpreds]
  · simp [predsOf_eq, h, hx]
  · subst hx
    simp [succsOf_eq, h, hn, hsuccs]
  · simp [succsOf_eq, h, hx]

/-- Changes the edges that enter one node, and then those that leave another. -/
def modifyEnds (g : Graph) (succ pred : NodeId) (ins outs : List Dep → List Dep) :
    Except Fault Graph := do
  let g ← g.modifyNode succ fun n => { n with preds := ins n.preds }
  g.modifyNode pred fun n => { n with succs := outs n.succs }

theorem entries_modifyEnds {g g' : Graph} {succ pred : NodeId} {ins outs : List Dep → List Dep}
    (h : g.modifyEnds succ pred ins outs = .ok g') :
    (succ ≠ pred → (g.node? pred).isSome) ∧ g'.position = g.position ∧ g'.outline = g.outline ∧
      g'.predsOf = Function.update g.predsOf succ (ins (g.predsOf succ)) ∧
      g'.succsOf = Function.update g.succsOf pred (outs (g.succsOf pred)) := by
  simp only [modifyEnds, bind_eq_ok] at h
  obtain ⟨g₁, h₁, h₂⟩ := h
  obtain ⟨p₁, l₁, i₁, o₁⟩ := entries_modifyNode ins id h₁ (fun _ => rfl) (fun _ => rfl)
    fun _ => rfl
  obtain ⟨p₂, l₂, i₂, o₂⟩ := entries_modifyNode id outs h₂ (fun _ => rfl) (fun _ => rfl)
    fun _ => rfl
  simp only [id_eq, Function.update_eq_self] at o₁ i₂
  refine ⟨fun hne => ?_, p₂.trans p₁, l₂.trans l₁, i₂.trans i₁, o₁ ▸ o₂⟩
  have hpred := (node?_modifyNode h₂).1
  rwa [(node?_modifyNode h₁).2, Function.update_of_ne hne.symm] at hpred

/-- All that adding an edge can do: of an edge that states the constraint already it raises the
latency, and otherwise the edge comes last at both of its ends. -/
theorem withDep_eq_ok {g g' : Graph} {succ : NodeId} {dep : Dep} :
    g.withDep succ dep = .ok g' ↔
      dep.node ≠ succ ∧ dep.node ≠ .exit ∧ (g.node? succ).isSome ∧
        match (g.predsOf succ).find? fun e => e.sameConstraint dep with
        | some old =>
            if old.latency < dep.latency then
              g.modifyEnds succ dep.node dep.relabel (dep.facing succ).relabel = .ok g'
            else g = g'
        | none =>
            g.modifyEnds succ dep.node (· ++ [dep]) (· ++ [dep.facing succ]) = .ok g' := by
  unfold withDep addDep
  by_cases hself : dep.node = succ
  · rw [if_pos hself]
    exact iff_of_false (by simp [bind_eq_ok, throw_eq_ok]) fun h => h.1 hself
  by_cases hexit : dep.node = .exit
  · rw [if_neg hself, if_pos hexit]
    exact iff_of_false (by simp [bind_eq_ok, throw_eq_ok]) fun h => h.2.1 hexit
  rw [if_neg hself, if_neg hexit]
  cases hsucc : g.node? succ with
  | none => simp [bind_eq_ok, node_eq_ok, hsucc]
  | some target =>
    have hends : ∀ (ins outs : List Dep → List Dep) (new : Bool), (∃ e fresh, (do
        let g ← g.modifyNode succ fun n => { n with preds := ins n.preds }
        let g ← g.modifyNode dep.node fun n => { n with succs := outs n.succs }
        return (g, new)) = .ok (e, fresh) ∧ e = g') ↔
        g.modifyEnds succ dep.node ins outs = .ok g' := by
      intro ins outs new
      simp only [modifyEnds, bind_eq_ok, pure_eq_ok, Prod.mk.injEq]
      constructor
      · rintro ⟨_, _, ⟨g₁, h₁, _, h₂, rfl, -⟩, rfl⟩
        exact ⟨g₁, h₁, h₂⟩
      · rintro ⟨g₁, h₁, h₂⟩
        exact ⟨g', new, ⟨g₁, h₁, g', h₂, rfl, rfl⟩, rfl⟩
    have hpreds : g.predsOf succ = target.preds := by simp [predsOf_eq, hsucc]
    rw [hpreds]
    simp only [bind_eq_ok, node_eq_ok, hsucc, Option.some.injEq, exists_eq_left', Prod.exists,
      pure_eq_ok, ne_eq, hself, hexit, not_false_eq_true, Option.isSome_some, true_and]
    cases target.preds.find? fun e => e.sameConstraint dep with
    | some old =>
      by_cases hlt : old.latency < dep.latency
      · simp only [if_pos hlt]
        exact hends _ _ false
      · simp [hlt, pure_eq_ok]
    | none => exact hends (· ++ [dep]) (· ++ [dep.facing succ]) true

/-- An added edge changes no entry, or raises the latency of an entry at both of its ends, or comes
last at both of its ends. -/
theorem withDep_entries {g g' : Graph} {succ : NodeId} {dep : Dep}
    (h : g.withDep succ dep = .ok g') :
    dep.node ≠ succ ∧ dep.node ≠ .exit ∧ (g.node? succ).isSome ∧ g'.position = g.position ∧
      g'.outline = g.outline ∧
      ((dep.constraint ∈ g.incoming succ ∧ g'.predsOf = g.predsOf ∧ g'.succsOf = g.succsOf) ∨
        (dep.constraint ∈ g.incoming succ ∧
          g'.predsOf = Function.update g.predsOf succ (dep.relabel (g.predsOf succ)) ∧
          g'.succsOf = Function.update g.succsOf dep.node
            ((dep.facing succ).relabel (g.succsOf dep.node))) ∨
        (dep.constraint ∉ g.incoming succ ∧ (g.node? dep.node).isSome ∧
          g'.predsOf = Function.update g.predsOf succ (g.predsOf succ ++ [dep]) ∧
          g'.succsOf = Function.update g.succsOf dep.node
            (g.succsOf dep.node ++ [dep.facing succ]))) := by
  obtain ⟨hself, hexit, hsucc, h⟩ := withDep_eq_ok.mp h
  refine ⟨hself, hexit, hsucc, ?_⟩
  split at h
  next old hold =>
    have hmem : dep.constraint ∈ g.incoming succ := by
      rw [incoming, ← Dep.constraint_of_find? hold]
      exact List.mem_map_of_mem (List.mem_of_find?_eq_some hold)
    split at h
    · obtain ⟨-, hposition, houtline, hpreds, hsuccs⟩ := entries_modifyEnds h
      exact ⟨hposition, houtline, .inr (.inl ⟨hmem, hpreds, hsuccs⟩)⟩
    · subst h
      exact ⟨rfl, rfl, .inl ⟨hmem, rfl, rfl⟩⟩
  next hnone =>
    have hnew : dep.constraint ∉ g.incoming succ := by
      rw [incoming, List.mem_map]
      rintro ⟨e, he, heq⟩
      exact List.find?_eq_none.mp hnone e he (Dep.sameConstraint_iff.mpr heq)
    obtain ⟨hpred, hposition, houtline, hpreds, hsuccs⟩ := entries_modifyEnds h
    exact ⟨hposition, houtline, .inr (.inr ⟨hnew, hpred (Ne.symm hself), hpreds, hsuccs⟩)⟩

/-- The constraints of a graph whose entries change at one node. -/
theorem incoming_update {g g' : Graph} {id : NodeId} {deps : List Dep}
    (h : g'.predsOf = Function.update g.predsOf id deps) :
    g'.incoming = Function.update g.incoming id (deps.map Dep.constraint) := by
  funext x
  by_cases hx : x = id
  · subst hx
    simp [incoming, h]
  · simp [incoming, h, hx]

theorem outgoing_update {g g' : Graph} {id : NodeId} {deps : List Dep}
    (h : g'.succsOf = Function.update g.succsOf id deps) :
    g'.outgoing = Function.update g.outgoing id (deps.map Dep.constraint) := by
  funext x
  by_cases hx : x = id
  · subst hx
    simp [outgoing, h]
  · simp [outgoing, h, hx]

/-- An added edge either states a constraint that is there already, and then no constraint changes,
or it comes last at both of its ends. -/
theorem withDep_cases {g g' : Graph} {succ : NodeId} {dep : Dep}
    (h : g.withDep succ dep = .ok g') :
    dep.node ≠ succ ∧ dep.node ≠ .exit ∧ (g.node? succ).isSome ∧ g'.position = g.position ∧
      ((dep.constraint ∈ g.incoming succ ∧ g'.incoming = g.incoming ∧ g'.outgoing = g.outgoing) ∨
        (dep.constraint ∉ g.incoming succ ∧ (g.node? dep.node).isSome ∧
          g'.incoming = Function.update g.incoming succ (g.incoming succ ++ [dep.constraint]) ∧
          g'.outgoing = Function.update g.outgoing dep.node
            (g.outgoing dep.node ++ [(succ, dep.kind, dep.reg)]))) := by
  obtain ⟨hself, hexit, hsucc, hp, -, hentries⟩ := withDep_entries h
  refine ⟨hself, hexit, hsucc, hp, ?_⟩
  rcases hentries with ⟨hmem, hi, ho⟩ | ⟨hmem, hi, ho⟩ | ⟨hnew, hpred, hi, ho⟩
  · exact .inl ⟨hmem, by funext x; simp [incoming, hi], by funext x; simp [outgoing, ho]⟩
  · refine .inl ⟨hmem, (incoming_update hi).trans ?_, (outgoing_update ho).trans ?_⟩
    · rw [Dep.constraint_relabel]
      exact Function.update_eq_self succ g.incoming
    · rw [Dep.constraint_relabel]
      exact Function.update_eq_self dep.node g.outgoing
  · refine .inr ⟨hnew, hpred, (incoming_update hi).trans ?_, (outgoing_update ho).trans ?_⟩
    · simp [incoming]
    · simp [outgoing, Dep.constraint, Dep.facing]

/-- Every edge is stored alike at both of its ends, once at each. -/
structure Mirrored (g : Graph) : Prop where
  incoming_nodup : ∀ s, (g.incoming s).Nodup
  outgoing_nodup : ∀ p, (g.outgoing p).Nodup
  of_preds : ∀ s, ∀ d ∈ g.predsOf s, d.facing s ∈ g.succsOf d.node
  of_succs : ∀ p, ∀ d ∈ g.succsOf p, d.facing p ∈ g.predsOf d.node

section

variable {P S : NodeId → List Dep} {s : NodeId} {d : Dep}

/-- Entries with a counterpart keep it when one of them and its counterpart take another latency. -/
theorem facing_relabel (hP : ((P s).map Dep.constraint).Nodup)
    (hS : ((S d.node).map Dep.constraint).Nodup) (h : ∀ x, ∀ e ∈ P x, e.facing x ∈ S e.node) :
    ∀ x, ∀ e ∈ Function.update P s (d.relabel (P s)) x,
      e.facing x ∈ Function.update S d.node ((d.facing s).relabel (S d.node)) e.node := by
  intro x e he
  -- an entry that states another constraint than `d` has a counterpart that states another one
  have hother : e.facing x ∈ S e.node → (x, e.constraint) ≠ (s, d.constraint) →
      e.facing x ∈ Function.update S d.node ((d.facing s).relabel (S d.node)) e.node := by
    intro hmem hne
    by_cases hd : e.node = d.node
    · rw [hd, Function.update_self]
      refine (Dep.mem_relabel hS).mpr (.inl ⟨hd ▸ hmem, fun heq => hne ?_⟩)
      simp_all [Dep.constraint, Dep.facing]
    · rwa [Function.update_of_ne hd]
  by_cases hx : x = s
  · subst hx
    rw [Function.update_self, Dep.mem_relabel hP] at he
    rcases he with ⟨he, hne⟩ | ⟨f, hf, heq, rfl⟩
    · exact hother (h x e he) fun heq => hne (congrArg Prod.snd heq)
    · have hnode : f.node = d.node := congrArg Prod.fst heq
      rw [hnode, Function.update_self]
      refine (Dep.mem_relabel hS).mpr (.inr ⟨f.facing x, hnode ▸ h x f hf, ?_, rfl⟩)
      simp_all [Dep.constraint, Dep.facing]
  · rw [Function.update_of_ne hx] at he
    exact hother (h x e he) fun heq => hx (congrArg Prod.fst heq)

/-- The same when an entry and its counterpart come last. -/
theorem facing_append (h : ∀ x, ∀ e ∈ P x, e.facing x ∈ S e.node) :
    ∀ x, ∀ e ∈ Function.update P s (P s ++ [d]) x,
      e.facing x ∈ Function.update S d.node (S d.node ++ [d.facing s]) e.node := by
  intro x e he
  have hold : e ∈ P x → e.facing x ∈ Function.update S d.node (S d.node ++ [d.facing s]) e.node := by
    intro he
    by_cases hd : e.node = d.node
    · rw [hd, Function.update_self]
      exact List.mem_append_left _ (hd ▸ h x e he)
    · rw [Function.update_of_ne hd]
      exact h x e he
  by_cases hx : x = s
  · subst hx
    rw [Function.update_self, List.mem_append, List.mem_singleton] at he
    rcases he with he | rfl
    · exact hold he
    · simp
  · rw [Function.update_of_ne hx] at he
    exact hold he

end

theorem Mirrored.of_eq {g g' : Graph} (hm : g.Mirrored) (hi : g'.predsOf = g.predsOf)
    (ho : g'.succsOf = g.succsOf) : g'.Mirrored := by
  refine ⟨fun s => ?_, fun p => ?_, ?_, ?_⟩
  · rw [incoming, hi]
    exact hm.incoming_nodup s
  · rw [outgoing, ho]
    exact hm.outgoing_nodup p
  · rw [hi, ho]
    exact hm.of_preds
  · rw [hi, ho]
    exact hm.of_succs

theorem Mirrored.withDep {g g' : Graph} {succ : NodeId} {dep : Dep} (hm : g.Mirrored)
    (h : g.withDep succ dep = .ok g') : g'.Mirrored := by
  obtain ⟨-, -, -, -, -, hentries⟩ := withDep_entries h
  rcases hentries with ⟨-, hi, ho⟩ | ⟨-, hi, ho⟩ | ⟨hnew, -, hi, ho⟩
  · exact hm.of_eq hi ho
  · refine ⟨fun s => ?_, fun p => ?_, ?_, ?_⟩
    · rw [incoming_update hi, Dep.constraint_relabel]
      exact (Function.update_eq_self succ g.incoming).symm ▸ hm.incoming_nodup s
    · rw [outgoing_update ho, Dep.constraint_relabel]
      exact (Function.update_eq_self dep.node g.outgoing).symm ▸ hm.outgoing_nodup p
    · rw [hi, ho]
      exact facing_relabel (hm.incoming_nodup succ) (hm.outgoing_nodup dep.node) hm.of_preds
    · rw [hi, ho]
      exact facing_relabel (d := dep.facing succ) (hm.outgoing_nodup dep.node)
        (hm.incoming_nodup succ) hm.of_succs
  · -- the entry would be there at the other end as well
    have hnew' : (dep.facing succ).constraint ∉ g.outgoing dep.node := by
      intro hmem
      obtain ⟨e, he, heq⟩ := List.mem_map.mp hmem
      simp only [Dep.constraint, Dep.facing, Prod.mk.injEq] at heq
      refine hnew (List.mem_map.mpr ⟨_, heq.1 ▸ hm.of_succs dep.node e he, ?_⟩)
      simp [Dep.constraint, Dep.facing, heq.2]
    refine ⟨fun s => ?_, fun p => ?_, ?_, ?_⟩
    · rw [incoming_update hi]
      by_cases hs : s = succ
      · subst hs
        rw [Function.update_self, List.map_append, List.map_singleton, ← List.concat_eq_append]
        exact List.Nodup.concat hnew (hm.incoming_nodup s)
      · rw [Function.update_of_ne hs]
        exact hm.incoming_nodup s
    · rw [outgoing_update ho]
      by_cases hp : p = dep.node
      · subst hp
        rw [Function.update_self, List.map_append, List.map_singleton, ← List.concat_eq_append]
        exact List.Nodup.concat hnew' (hm.outgoing_nodup dep.node)
      · rw [Function.update_of_ne hp]
        exact hm.outgoing_nodup p
    · rw [hi, ho]
      exact facing_append hm.of_preds
    · rw [hi, ho]
      exact facing_append (d := dep.facing succ) hm.of_succs

theorem mirrored_of_no_edges {g : Graph} (hpreds : ∀ id, g.predsOf id = [])
    (hsuccs : ∀ id, g.succsOf id = []) : g.Mirrored := by
  constructor <;> simp [incoming, outgoing, hpreds, hsuccs]

/-- An edge of one kind, for one register or none, leads from `p` to `s`. -/
def HasEdge (g : Graph) (p s : NodeId) (k : Kind) (r : Option Reg) : Prop :=
  (s, k, r) ∈ g.outgoing p

/-- Some edge leads from `p` to `s`. -/
def Joins (g : Graph) (p s : NodeId) : Prop := ∃ k r, g.HasEdge p s k r

/-- A path of edges leads from one node to another; the empty path counts. -/
def Path (g : Graph) : NodeId → NodeId → Prop := Relation.ReflTransGen g.Joins

/-- Every edge is known at both ends, both ends are there, and none leaves the exit. -/
structure Linked (g : Graph) : Prop where
  mirror : ∀ p s k r, (p, k, r) ∈ g.incoming s ↔ g.HasEdge p s k r
  present : ∀ p s k r, g.HasEdge p s k r → (g.position s).isSome
  exit_last : g.outgoing .exit = []

theorem Linked.joins_iff {g : Graph} (hl : g.Linked) {p s : NodeId} :
    g.Joins p s ↔ ∃ d ∈ g.predsOf s, d.node = p := by
  constructor
  · rintro ⟨kind, reg, hedge⟩
    obtain ⟨d, hd, heq⟩ := List.mem_map.mp ((hl.mirror ..).mpr hedge)
    exact ⟨d, hd, congrArg Prod.fst heq⟩
  · rintro ⟨d, hd, rfl⟩
    exact ⟨d.kind, d.reg, (hl.mirror ..).mp (List.mem_map_of_mem hd)⟩

theorem Linked.hasEdge_of_mem_edges {g : Graph} (hl : g.Linked) {p s : NodeId} {d : Dep}
    (h : (p, s, d) ∈ g.edges) : g.HasEdge p s d.kind d.reg := by
  obtain ⟨rfl, hd⟩ := mem_edges.mp h
  exact (hl.mirror ..).mp (List.mem_map_of_mem hd)

theorem linked_of_no_edges {g : Graph} (hpreds : ∀ id, g.predsOf id = [])
    (hsuccs : ∀ id, g.succsOf id = []) : g.Linked := by
  refine ⟨fun p s k r => ?_, fun p s k r h => ?_, by simp [outgoing, hsuccs]⟩
  · simp [HasEdge, incoming, outgoing, hpreds, hsuccs]
  · simp [HasEdge, outgoing, hsuccs] at h

/-- The nodes stay what they are, edges are only added, and the two ends of each keep agreeing. -/
structure Grows (g g' : Graph) : Prop where
  position : g'.position = g.position
  outline : g'.outline = g.outline
  edges : ∀ p s k r, g.HasEdge p s k r → g'.HasEdge p s k r
  linked : g.Linked → g'.Linked
  mirrored : g.Mirrored → g'.Mirrored

theorem Grows.refl (g : Graph) : g.Grows g := ⟨rfl, rfl, fun _ _ _ _ h => h, id, id⟩

theorem Grows.trans {g g' g'' : Graph} (h : g.Grows g') (h' : g'.Grows g'') : g.Grows g'' :=
  ⟨h'.position.trans h.position, h'.outline.trans h.outline,
    fun p s k r he => h'.edges p s k r (h.edges p s k r he),
    fun hl => h'.linked (h.linked hl), fun hm => h'.mirrored (h.mirrored hm)⟩

theorem Grows.path {g g' : Graph} (h : g.Grows g') {p s : NodeId} (hp : g.Path p s) :
    g'.Path p s :=
  Relation.ReflTransGen.mono (fun a b ⟨k, r, he⟩ => ⟨k, r, h.edges a b k r he⟩) _ _ hp

theorem HasEdge.path {g : Graph} {p s : NodeId} {k : Kind} {r : Option Reg}
    (h : g.HasEdge p s k r) : g.Path p s := Relation.ReflTransGen.single ⟨k, r, h⟩

/-- A graph with the same constraints as before agrees at both ends as before. -/
theorem Linked.of_eq {g g' : Graph} (hl : g.Linked) (hp : g'.position = g.position)
    (hi : g'.incoming = g.incoming) (ho : g'.outgoing = g.outgoing) : g'.Linked := by
  have hedge : ∀ p s k r, g'.HasEdge p s k r ↔ g.HasEdge p s k r := by
    intro p s k r
    rw [HasEdge, HasEdge, ho]
  refine ⟨fun p s k r => ?_, fun p s k r he => ?_, ?_⟩
  · rw [hedge, hi]
    exact hl.mirror p s k r
  · rw [hp]
    exact hl.present p s k r ((hedge p s k r).mp he)
  · rw [ho, hl.exit_last]

/-- A change of one node that keeps its instruction and its edges. -/
theorem grows_modifyNode {g g' : Graph} {id : NodeId} {change : Node → Node}
    (h : g.modifyNode id change = .ok g') (hinstr : ∀ n, (change n).instr = n.instr)
    (hpreds : ∀ n, (change n).preds = n.preds) (hsuccs : ∀ n, (change n).succs = n.succs) :
    g.Grows g' ∧ g'.outgoing = g.outgoing := by
  obtain ⟨hp, hl, hi, ho⟩ := entries_modifyNode (fun deps => deps) (fun deps => deps) h hinstr
    hpreds hsuccs
  simp only [Function.update_eq_self] at hi ho
  have hin : g'.incoming = g.incoming := by
    funext x
    simp [incoming, hi]
  have hout : g'.outgoing = g.outgoing := by
    funext x
    simp [outgoing, ho]
  exact ⟨⟨hp, hl, fun p s k r he => by rwa [HasEdge, hout], fun hg => hg.of_eq hp hin hout,
    fun hm => hm.of_eq hi ho⟩, hout⟩

theorem grows_withDep {g g' : Graph} {succ : NodeId} {dep : Dep}
    (h : g.withDep succ dep = .ok g') : g.Grows g' := by
  have hlist := (withDep_entries h).2.2.2.2.1
  obtain ⟨hself, hexit, hsucc, hp, ⟨-, hi, ho⟩ | ⟨hnew, hpred, hi, ho⟩⟩ := withDep_cases h
  · exact ⟨hp, hlist, fun p s k r he => by rwa [HasEdge, ho], fun hl => hl.of_eq hp hi ho,
      fun hm => hm.withDep h⟩
  · have hout : ∀ p s k r, g'.HasEdge p s k r ↔
        g.HasEdge p s k r ∨ (p = dep.node ∧ s = succ ∧ k = dep.kind ∧ r = dep.reg) := by
      intro p s k r
      by_cases hpn : p = dep.node
      · subst hpn
        simp [HasEdge, ho]
      · simp [HasEdge, ho, hpn]
    have hin : ∀ p s k r, (p, k, r) ∈ g'.incoming s ↔
        (p, k, r) ∈ g.incoming s ∨ (p = dep.node ∧ s = succ ∧ k = dep.kind ∧ r = dep.reg) := by
      intro p s k r
      by_cases hs : s = succ
      · subst hs
        simp [hi, Dep.constraint]
      · simp [hi, hs]
    refine ⟨hp, hlist, fun p s k r he => (hout p s k r).mpr (.inl he), fun hl => ⟨?_, ?_, ?_⟩,
      fun hm => hm.withDep h⟩
    · intro p s k r
      rw [hout, hin, hl.mirror]
    · intro p s k r he
      rw [hp]
      rcases (hout p s k r).mp he with he | ⟨-, rfl, -, -⟩
      · exact hl.present p s k r he
      · simpa [position] using hsucc
    · rw [ho, Function.update_of_ne (Ne.symm hexit), hl.exit_last]

/-- The edge that was asked for is there afterwards, whether or not it is new, and no other one has
come. -/
theorem hasEdge_withDep_iff {g g' : Graph} {succ : NodeId} {dep : Dep} (hl : g.Linked)
    (h : g.withDep succ dep = .ok g') {p s : NodeId} {k : Kind} {r : Option Reg} :
    g'.HasEdge p s k r ↔
      g.HasEdge p s k r ∨ (p = dep.node ∧ s = succ ∧ k = dep.kind ∧ r = dep.reg) := by
  obtain ⟨-, -, -, -, ⟨hmem, -, ho⟩ | ⟨-, -, -, ho⟩⟩ := withDep_cases h
  · rw [HasEdge, ho]
    refine ⟨.inl, fun he => he.elim id ?_⟩
    rintro ⟨rfl, rfl, rfl, rfl⟩
    exact (hl.mirror ..).mp hmem
  · by_cases hpn : p = dep.node
    · subst hpn
      simp [HasEdge, ho]
    · simp [HasEdge, ho, hpn]

theorem hasEdge_withDep {g g' : Graph} {succ : NodeId} {dep : Dep} (hl : g.Linked)
    (h : g.withDep succ dep = .ok g') : g'.HasEdge dep.node succ dep.kind dep.reg :=
  (hasEdge_withDep_iff hl h).mpr (.inr ⟨rfl, rfl, rfl, rfl⟩)

end Graph

end Precedence
