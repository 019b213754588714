import Precedence.Proofs.Graph.Kept

/-!
How long an edge makes its second end wait. Of all that is asked for under one constraint only the
greatest latency counts, so the latency of an edge is known from what was asked for, whatever the
order. `Graph.GrowsBy` keeps track of just that.
-/
namespace Precedence

/-- What the entries of a node become when `d` is asked for: the entry that states its constraint
takes the greater latency, and if there is none, `d` comes last. -/
def Dep.merge (d : Dep) : List Dep → List Dep
  | [] => [d]
  | e :: rest =>
      if e.sameConstraint d then { e with latency := max e.latency d.latency } :: rest
      else e :: d.merge rest

/-- The latency of the first entry that states a constraint. -/
def Dep.latencyIn (c : NodeId × Kind × Option Reg) (deps : List Dep) : Option Nat :=
  (deps.find? fun e => e.constraint = c).map Dep.latency

namespace Dep

variable {d e : Dep} {deps : List Dep} {c : NodeId × Kind × Option Reg}

theorem merge_of_same {rest : List Dep} (h : e.sameConstraint d) :
    d.merge (e :: rest) = { e with latency := max e.latency d.latency } :: rest :=
  if_pos h

theorem merge_of_other {rest : List Dep} (h : ¬e.sameConstraint d) :
    d.merge (e :: rest) = e :: d.merge rest :=
  if_neg h

theorem merge_of_none (h : deps.find? (fun e => e.sameConstraint d) = none) :
    d.merge deps = deps ++ [d] := by
  induction deps with
  | nil => rfl
  | cons e rest ih =>
    rw [List.find?_cons] at h
    split at h
    · cases h
    next hother => rw [merge_of_other (by simp [hother]), ih h, List.cons_append]

theorem merge_of_lt (h : deps.find? (fun e => e.sameConstraint d) = some e)
    (hlt : e.latency < d.latency) : d.merge deps = d.relabel deps := by
  induction deps with
  | nil => cases h
  | cons f rest ih =>
    rw [List.find?_cons] at h
    split at h
    next hsame =>
      cases h
      rw [merge_of_same hsame, Nat.max_eq_right hlt.le]
      simp [relabel, hsame]
    next hother =>
      rw [merge_of_other (by simp [hother]), ih h]
      simp [relabel, hother]

theorem merge_of_le (h : deps.find? (fun e => e.sameConstraint d) = some e)
    (hle : d.latency ≤ e.latency) : d.merge deps = deps := by
  induction deps with
  | nil => cases h
  | cons f rest ih =>
    rw [List.find?_cons] at h
    split at h
    next hsame =>
      cases h
      rw [merge_of_same hsame, Nat.max_eq_left hle]
    next hother => rw [merge_of_other (by simp [hother]), ih h]

/-- Where no two entries state one constraint, the entry that states that of `d` is found. -/
theorem find?_of_mem (hnodup : (deps.map Dep.constraint).Nodup) (h : e ∈ deps)
    (hsame : e.constraint = d.constraint) : deps.find? (fun f => f.sameConstraint d) = some e := by
  induction deps with
  | nil => cases h
  | cons f rest ih =>
    rw [List.map_cons, List.nodup_cons] at hnodup
    rw [List.find?_cons]
    rcases List.mem_cons.mp h with rfl | h
    · simp [sameConstraint_iff.mpr hsame]
    · have hother : ¬f.sameConstraint d := fun hf =>
        hnodup.1 (sameConstraint_iff.mp hf |>.trans hsame.symm ▸ List.mem_map_of_mem h)
      simp only [hother, ih hnodup.2 h]

theorem latencyIn_cons : latencyIn c (e :: deps) =
    if e.constraint = c then some e.latency else latencyIn c deps := by
  simp only [latencyIn, List.find?_cons]
  by_cases h : e.constraint = c <;> simp [h]

/-- The constraint that is asked for takes the greater latency, and no other one changes. -/
theorem latencyIn_merge : latencyIn c (d.merge deps) =
    if c = d.constraint then some (max ((latencyIn c deps).getD 0) d.latency)
    else latencyIn c deps := by
  induction deps with
  | nil => by_cases h : c = d.constraint <;> simp [merge, latencyIn, h, eq_comm (a := d.constraint)]
  | cons e rest ih =>
    by_cases hsame : e.constraint = d.constraint
    · have hraised : ({ e with latency := max e.latency d.latency } : Dep).constraint =
          d.constraint := hsame
      rw [merge_of_same (sameConstraint_iff.mpr hsame), latencyIn_cons, latencyIn_cons, hraised,
        hsame]
      by_cases h : d.constraint = c <;> simp [h, eq_comm (a := c)]
    · rw [merge_of_other (mt sameConstraint_iff.mp hsame), latencyIn_cons, latencyIn_cons, ih]
      by_cases h : e.constraint = c
      · subst h
        simp [hsame]
      · simp [h]

/-- Where no two entries state one constraint, every entry has the latency of its constraint. -/
theorem latencyIn_of_mem (hnodup : (deps.map Dep.constraint).Nodup) (h : e ∈ deps) :
    latencyIn e.constraint deps = some e.latency := by
  induction deps with
  | nil => cases h
  | cons f rest ih =>
    rw [List.map_cons, List.nodup_cons] at hnodup
    rw [latencyIn_cons]
    rcases List.mem_cons.mp h with rfl | h
    · simp
    · have hother : f.constraint ≠ e.constraint := fun heq =>
        hnodup.1 (heq ▸ List.mem_map_of_mem h)
      rw [if_neg hother, ih hnodup.2 h]

end Dep

namespace Graph

variable {g g' g'' : Graph} {succ s id p : NodeId} {dep d : Dep} {c : NodeId × Kind × Option Reg}
  {l : Nat} {asked asked' : NodeId → Dep → Prop}

/-- An added edge changes the entries of the later node only, and does so by its latency. -/
theorem predsOf_withDep (h : g.withDep succ dep = .ok g') :
    g'.predsOf = Function.update g.predsOf succ (dep.merge (g.predsOf succ)) := by
  obtain ⟨-, -, -, h⟩ := withDep_eq_ok.mp h
  split at h
  next old hold =>
    split at h
    next hlt =>
      rw [Dep.merge_of_lt hold hlt]
      exact (entries_modifyEnds h).2.2.2.1
    next hle => rw [← h, Dep.merge_of_le hold (Nat.le_of_not_lt hle), Function.update_eq_self]
  next hnone =>
    rw [Dep.merge_of_none hnone]
    exact (entries_modifyEnds h).2.2.2.1

/-- The same at the earlier node, where the edges are stored alike at both ends. -/
theorem Mirrored.succsOf_withDep (hm : g.Mirrored) (h : g.withDep succ dep = .ok g') :
    g'.succsOf =
      Function.update g.succsOf dep.node ((dep.facing succ).merge (g.succsOf dep.node)) := by
  obtain ⟨-, -, -, h⟩ := withDep_eq_ok.mp h
  split at h
  next old hold =>
    -- the counterpart of the entry is the only one that states its constraint at the other end
    have hsame := Dep.constraint_of_find? hold
    have hnode : old.node = dep.node := congrArg Prod.fst hsame
    have hother : old.facing succ ∈ g.succsOf dep.node :=
      hnode ▸ hm.of_preds succ old (List.mem_of_find?_eq_some hold)
    have hfound : (g.succsOf dep.node).find? (fun e => e.sameConstraint (dep.facing succ)) =
        some (old.facing succ) := by
      refine Dep.find?_of_mem (hm.outgoing_nodup dep.node) hother ?_
      simp_all [Dep.constraint, Dep.facing]
    split at h
    next hlt =>
      rw [Dep.merge_of_lt hfound hlt]
      exact (entries_modifyEnds h).2.2.2.2
    next hle =>
      rw [← h, Dep.merge_of_le hfound (Nat.le_of_not_lt hle), Function.update_eq_self]
  next hnone =>
    have hfound : (g.succsOf dep.node).find? (fun e => e.sameConstraint (dep.facing succ)) =
        none := by
      refine List.find?_eq_none.mpr fun e he hsame => ?_
      have hcon := Dep.sameConstraint_iff.mp hsame
      simp only [Dep.constraint, Dep.facing, Prod.mk.injEq] at hcon
      refine List.find?_eq_none.mp hnone _ (hcon.1 ▸ hm.of_succs dep.node e he) ?_
      simp [Dep.sameConstraint_iff, Dep.constraint, Dep.facing, hcon.2]
    rw [Dep.merge_of_none hfound]
    exact (entries_modifyEnds h).2.2.2.2

/-- The latency of the edge into a node that states a constraint, if there is one. -/
def latency? (g : Graph) (s : NodeId) (c : NodeId × Kind × Option Reg) : Option Nat :=
  Dep.latencyIn c (g.predsOf s)

theorem latency?_withDep (h : g.withDep succ dep = .ok g') : g'.latency? s c =
    if s = succ ∧ c = dep.constraint then some (max ((g.latency? s c).getD 0) dep.latency)
    else g.latency? s c := by
  rw [latency?, latency?, predsOf_withDep h]
  by_cases hs : s = succ
  · subst hs
    rw [Function.update_self, Dep.latencyIn_merge]
    simp
  · simp [hs]

theorem Mirrored.latency?_of_mem_edges (hm : g.Mirrored) (h : (p, s, d) ∈ g.edges) :
    g.latency? s (p, d.kind, d.reg) = some d.latency := by
  obtain ⟨rfl, hd⟩ := mem_edges.mp h
  exact Dep.latencyIn_of_mem (hm.incoming_nodup s) hd

theorem latency?_of_no_edges (h : ∀ id, g.predsOf id = []) : g.latency? s c = none := by
  simp [latency?, Dep.latencyIn, h]

theorem latency?_modifyNode {change : Node → Node} (h : g.modifyNode id change = .ok g')
    (hinstr : ∀ n, (change n).instr = n.instr) (hpreds : ∀ n, (change n).preds = n.preds)
    (hsuccs : ∀ n, (change n).succs = n.succs) : g'.latency? s c = g.latency? s c := by
  obtain ⟨-, -, hi, -⟩ := entries_modifyNode (fun deps => deps) (fun deps => deps) h hinstr hpreds
    hsuccs
  rw [latency?, latency?, hi, Function.update_eq_self]

/-- The edge that `dep` asks for is there, and has at least the latency asked for. -/
def HasAtLeast (g : Graph) (succ : NodeId) (dep : Dep) : Prop :=
  ∃ l, g.latency? succ dep.constraint = some l ∧ dep.latency ≤ l

theorem hasAtLeast_withDep (h : g.withDep succ dep = .ok g') : g'.HasAtLeast succ dep := by
  rw [HasAtLeast, latency?_withDep h, if_pos ⟨rfl, rfl⟩]
  exact ⟨_, rfl, le_max_right _ _⟩

/-! Edges asked for one after the other -/

/-- The graph has grown by edges that were asked for, each with the node that it leads to, and by
marks on its nodes. -/
inductive GrowsBy (asked : NodeId → Dep → Prop) (g : Graph) : Graph → Prop
  | refl : GrowsBy asked g g
  | edge {e e' : Graph} {succ : NodeId} {dep : Dep} (before : GrowsBy asked g e)
      (allowed : asked succ dep) (added : e.withDep succ dep = .ok e') : GrowsBy asked g e'
  | mark {e e' : Graph} {id : NodeId} (before : GrowsBy asked g e)
      (marked : e.modifyNode id (fun n => { n with scheduleHigh := true }) = .ok e') :
      GrowsBy asked g e'

namespace GrowsBy

theorem mono (h : g.GrowsBy asked g') (hsub : ∀ s dep, asked s dep → asked' s dep) :
    g.GrowsBy asked' g' := by
  induction h with
  | refl => exact .refl
  | edge _ allowed added ih => exact .edge ih (hsub _ _ allowed) added
  | mark _ marked ih => exact .mark ih marked

theorem trans (h : g.GrowsBy asked g') (h' : g'.GrowsBy asked g'') : g.GrowsBy asked g'' := by
  induction h' with
  | refl => exact h
  | edge _ allowed added ih => exact .edge ih allowed added
  | mark _ marked ih => exact .mark ih marked

theorem grows (h : g.GrowsBy asked g') : g.Grows g' := by
  induction h with
  | refl => exact .refl g
  | edge _ _ added ih => exact ih.trans (grows_withDep added)
  | mark _ marked ih =>
    exact ih.trans (grows_modifyNode marked (fun _ => rfl) (fun _ => rfl) fun _ => rfl).1

theorem bare_eq (h : g.GrowsBy asked g') : g'.bare = g.bare := by
  induction h with
  | refl => rfl
  | edge _ _ added ih => exact (bare_withDep added).trans ih
  | mark _ marked ih =>
    have hmark : ∀ n : Node, ({ n with scheduleHigh := true } : Node).bare = n.bare := fun _ => rfl
    exact (mapNodes_modifyNode hmark marked).trans ih

/-- Every latency is an old one, or it was asked for. -/
theorem latency? (h : g.GrowsBy asked g') (hl : g'.latency? s c = some l) :
    g.latency? s c = some l ∨ ∃ dep, asked s dep ∧ dep.constraint = c ∧ dep.latency = l := by
  induction h generalizing l with
  | refl => exact .inl hl
  | @edge e e' succ dep _ allowed added ih =>
    rw [latency?_withDep added] at hl
    split at hl
    next hhere =>
      obtain ⟨rfl, rfl⟩ := hhere
      have hnew : dep.latency = l → ∃ f, asked s f ∧ f.constraint = dep.constraint ∧
          f.latency = l := fun heq => ⟨dep, allowed, rfl, heq⟩
      rw [Option.some.injEq] at hl
      cases hold : e.latency? s dep.constraint with
      | none => exact .inr (hnew (by simpa [hold] using hl))
      | some k =>
        rw [hold, Option.getD_some] at hl
        rcases Nat.le_total k dep.latency with hle | hle
        · exact .inr (hnew (Nat.max_eq_right hle ▸ hl))
        · exact ih (hold.trans (congrArg some (Nat.max_eq_left hle ▸ hl)))
    next => exact ih hl
  | mark _ marked ih =>
    rw [latency?_modifyNode marked (fun _ => rfl) (fun _ => rfl) fun _ => rfl] at hl
    exact ih hl

/-- No latency is ever lowered. -/
theorem hasAtLeast (h : g.GrowsBy asked g') (hd : g.HasAtLeast s d) : g'.HasAtLeast s d := by
  induction h with
  | refl => exact hd
  | @edge e e' succ dep _ _ added ih =>
    obtain ⟨l, hl, hle⟩ := ih
    rw [HasAtLeast, latency?_withDep added, hl]
    split
    · exact ⟨_, rfl, hle.trans (le_max_left _ _)⟩
    · exact ⟨l, rfl, hle⟩
  | mark _ marked ih =>
    rw [HasAtLeast, latency?_modifyNode marked (fun _ => rfl) (fun _ => rfl) fun _ => rfl]
    exact ih

end GrowsBy

end Graph

end Precedence
