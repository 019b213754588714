import Mathlib.Data.List.Induction
import Precedence.Proofs.Graph.Latencies
import Precedence.Proofs.Graph.Sorted

/-!
Graphs that are put together edge by edge. Whatever is asked for, and in which order, a graph has one
entry for each constraint at each of its two ends: they stand in the order in which the constraints
were first asked for, and each has the operands of the first request and the greatest latency of all.
-/
namespace Precedence

/-- An edge that is asked for, with the node that it leads to. -/
structure Request where
  succ : NodeId
  dep : Dep
deriving DecidableEq

namespace Request

/-- Requests of one key ask for one constraint between the same two nodes. -/
def key (c : Request) : NodeId × NodeId × Kind × Option Reg := (c.succ, c.dep.constraint)

/-- The edge as its first node has it. -/
def mirrored (c : Request) : Dep := c.dep.facing c.succ

/-- The request with another latency. -/
def withLatency (c : Request) (latency : Nat) : Request := { c with dep := { c.dep with latency } }

/-- The requests that are the first of their key. -/
def firsts (calls : List Request) : List Request := calls.eraseDupsBy fun a b => a.key == b.key

/-- The greatest latency that is asked for under a key. -/
def greatest (calls : List Request) (k : NodeId × NodeId × Kind × Option Reg) : Nat :=
  ((calls.filter fun c => c.key = k).map fun c => c.dep.latency).foldl max 0

/-- What requests come to: the first one of every key, with the greatest latency of its key. -/
def kept (calls : List Request) : List Request :=
  (firsts calls).map fun c => c.withLatency (greatest calls c.key)

/-- What requests come to when `c` is added to them: the one of its key takes the greater latency, and
if there is none, `c` comes last. -/
def merge (c : Request) : List Request → List Request
  | [] => [c]
  | d :: rest =>
      if d.key = c.key then d.withLatency (max d.dep.latency c.dep.latency) :: rest
      else d :: c.merge rest

variable {c d : Request} {calls : List Request} {k : NodeId × NodeId × Kind × Option Reg} {l : Nat}

@[simp]
theorem key_withLatency : (c.withLatency l).key = c.key := rfl

theorem greatest_concat : greatest (calls ++ [c]) k =
    if c.key = k then max (greatest calls k) c.dep.latency else greatest calls k := by
  by_cases h : c.key = k <;> simp [greatest, h]

theorem greatest_of_not_mem (h : k ∉ calls.map key) : greatest calls k = 0 := by
  have hnone : (calls.filter fun c => c.key = k) = [] := by
    rw [List.filter_eq_nil_iff]
    intro d hd
    rw [decide_eq_true_iff]
    rintro rfl
    exact h (List.mem_map_of_mem hd)
  simp [greatest, hnone]

@[simp]
theorem firsts_nil : firsts [] = [] := rfl

theorem firsts_cons :
    firsts (c :: calls) = c :: firsts (calls.filter fun d => d.key ≠ c.key) := by
  rw [firsts, List.eraseDupsBy_cons, firsts]
  congr 2
  exact List.filter_congr fun d _ => by simp

theorem firsts_concat : firsts (calls ++ [c]) =
    if c.key ∈ calls.map key then firsts calls else firsts calls ++ [c] := by
  induction hlen : calls.length using Nat.strong_induction_on generalizing calls with
  | _ n ih =>
    cases calls with
    | nil => simp [firsts_cons]
    | cons a calls =>
      have hshort : (calls.filter fun d => d.key ≠ a.key).length < n := by
        rw [← hlen, List.length_cons]
        exact Nat.lt_succ_of_le (List.length_filter_le ..)
      rw [List.cons_append, firsts_cons, firsts_cons, List.filter_append]
      by_cases hca : c.key = a.key
      · simp [hca]
      · have hkeeps : [c].filter (fun d => d.key ≠ a.key) = [c] := by simp [hca]
        have hmem : c.key ∈ (calls.filter fun d => d.key ≠ a.key).map key ↔
            c.key ∈ calls.map key := by
          simp only [List.mem_map, List.mem_filter, decide_eq_true_eq]
          constructor
          · rintro ⟨d, ⟨hd, -⟩, heq⟩
            exact ⟨d, hd, heq⟩
          · rintro ⟨d, hd, heq⟩
            exact ⟨d, ⟨hd, heq ▸ hca⟩, heq⟩
        rw [hkeeps, ih _ hshort rfl, if_congr hmem rfl rfl]
        by_cases hc : c.key ∈ calls.map key
        · simp [hc]
        · simp [hc, hca]

/-- Every key has one first request. -/
theorem key_firsts (calls : List Request) : ((firsts calls).map key).Nodup ∧
    ∀ k, k ∈ (firsts calls).map key ↔ k ∈ calls.map key := by
  induction calls using List.reverseRecOn with
  | nil => exact ⟨List.nodup_nil, fun k => Iff.rfl⟩
  | append_singleton calls c ih =>
    obtain ⟨hnodup, hmem⟩ := ih
    rw [firsts_concat]
    split
    next hc =>
      refine ⟨hnodup, fun k => (hmem k).trans ?_⟩
      rw [List.map_append, List.mem_append, List.map_singleton, List.mem_singleton]
      refine ⟨.inl, fun hk => hk.elim id ?_⟩
      rintro rfl
      exact hc
    next hc =>
      rw [List.map_append, List.map_singleton]
      refine ⟨?_, fun k => by simp [hmem]⟩
      rw [← List.concat_eq_append]
      exact List.Nodup.concat (fun h => hc ((hmem _).mp h)) hnodup

theorem map_key_kept (calls : List Request) : (kept calls).map key = (firsts calls).map key := by
  simp [kept, Function.comp_def]

/-- A request is merged into those that have the latency of their key. -/
theorem merge_map {m : NodeId × NodeId × Kind × Option Reg → Nat} {firsts : List Request}
    (h : (firsts.map key).Nodup) :
    c.merge (firsts.map fun d => d.withLatency (m d.key)) =
      if c.key ∈ firsts.map key then
        firsts.map fun d => d.withLatency (if c.key = d.key then max (m d.key) c.dep.latency
          else m d.key)
      else firsts.map (fun d => d.withLatency (m d.key)) ++ [c] := by
  induction firsts with
  | nil => rfl
  | cons d rest ih =>
    rw [List.map_cons, List.nodup_cons] at h
    rw [List.map_cons, merge, key_withLatency]
    by_cases hd : d.key = c.key
    · -- no later one is of the same key
      have hrest : ∀ e ∈ rest, c.key ≠ e.key := fun e he heq =>
        h.1 (hd.trans heq ▸ List.mem_map_of_mem he)
      rw [if_pos hd, if_pos (by simp [hd]), List.map_cons, if_pos hd.symm]
      congr 1
      exact List.map_congr_left fun e he => by rw [if_neg (hrest e he)]
    · rw [if_neg hd, ih h.2]
      by_cases hc : c.key ∈ rest.map key
      · simp [hc, Ne.symm hd]
      · simp [hc, Ne.symm hd]

theorem kept_concat : kept (calls ++ [c]) = c.merge (kept calls) := by
  obtain ⟨hnodup, hmem⟩ := key_firsts calls
  rw [kept, kept, merge_map hnodup, if_congr (hmem _) rfl rfl, firsts_concat]
  simp only [greatest_concat]
  split
  next hc => rfl
  next hc =>
    rw [List.map_append, List.map_singleton, if_pos rfl, greatest_of_not_mem hc, Nat.zero_max]
    congr 1
    refine List.map_congr_left fun d hd => ?_
    have hne : c.key ≠ d.key := fun heq => hc (heq ▸ (hmem _).mp (List.mem_map_of_mem hd))
    rw [if_neg hne]

/-- The entries that requests leave at one of the ends: `here` tells which requests concern the node,
and `view` is how the node has them. -/
theorem map_filter_merge (here : Request → Bool) (view : Request → Dep)
    (hview : ∀ d l, view (d.withLatency l) = { view d with latency := l })
    (hhere : ∀ c d, d.key = c.key → here d = here c)
    (hkey : ∀ c d, here c → here d → (d.key = c.key ↔ (view d).constraint = (view c).constraint))
    (hlatency : ∀ d, (view d).latency = d.dep.latency) (l : List Request) :
    ((c.merge l).filter here).map view =
      if here c then (view c).merge ((l.filter here).map view) else (l.filter here).map view := by
  induction l with
  | nil => by_cases hc : here c <;> simp [merge, hc, Dep.merge]
  | cons d rest ih =>
    have hraised := hhere d (d.withLatency (max d.dep.latency c.dep.latency)) rfl
    rw [merge]
    by_cases hd : here d
    · by_cases hsame : d.key = c.key
      · have hc : here c := hhere c d hsame ▸ hd
        have hcon := Dep.sameConstraint_iff.mpr ((hkey c d hc hd).mp hsame)
        simp [hsame, hraised, hd, hc, Dep.merge_of_same hcon, hview, hlatency]
      · by_cases hc : here c
        · have hcon := mt Dep.sameConstraint_iff.mp (mt (hkey c d hc hd).mpr hsame)
          simp [hsame, hd, hc, ih, Dep.merge_of_other hcon]
        · simp [hsame, hd, hc, ih]
    · by_cases hsame : d.key = c.key
      · have hc : ¬here c := hhere c d hsame ▸ hd
        simp [hsame, hraised, hd, hc]
      · simp [hsame, hd, ih]

/-- The keys that are left are those that were asked for. -/
theorem exists_kept (k : NodeId × NodeId × Kind × Option Reg) :
    (∃ d ∈ kept calls, d.key = k) ↔ k ∈ calls.map key := by
  rw [← List.mem_map, map_key_kept, (key_firsts calls).2]

end Request

namespace Graph

variable {g g' : Graph} {c : Request} {before calls : List Request} {block : BlockId}
  {start stop : Nat} {positions : List Nat}

/-! Graphs without edges -/

/-- A graph with one unit for each position and no edges. -/
def ofPositions (block : BlockId) (start stop : Nat) (positions : List Nat) : Graph :=
  positions.foldl (fun g pos => (g.addNode pos).1) { block, start, stop }

theorem foldl_addNode (g : Graph) (positions : List Nat) :
    positions.foldl (fun g pos => (g.addNode pos).1) g = { g with
      nodes := (g.nodes.toList ++ positions.map fun pos => ({ instr := some pos } : Node)).toArray } := by
  induction positions generalizing g with
  | nil => simp
  | cons pos rest ih =>
    rw [List.foldl_cons, ih]
    simp [addNode]

theorem no_edges_ofPositions (id : NodeId) :
    (ofPositions block start stop positions).predsOf id = [] ∧
      (ofPositions block start stop positions).succsOf id = [] := by
  rw [ofPositions, foldl_addNode]
  cases id with
  | exit => exact ⟨rfl, rfl⟩
  | unit i => cases h : positions[i]? <;> simp [predsOf, succsOf, h]

theorem linked_ofPositions : (ofPositions block start stop positions).Linked :=
  linked_of_no_edges (fun id => (no_edges_ofPositions id).1) fun id => (no_edges_ofPositions id).2

theorem mirrored_ofPositions : (ofPositions block start stop positions).Mirrored :=
  mirrored_of_no_edges (fun id => (no_edges_ofPositions id).1) fun id => (no_edges_ofPositions id).2

/-! Adding edges -/

/-- A request that can be met: it joins two different nodes of the graph, and the earlier one is not
the exit. -/
structure Allows (g : Graph) (c : Request) : Prop where
  distinct : c.dep.node ≠ c.succ
  not_exit : c.dep.node ≠ .exit
  hasPred : g.hasNode c.dep.node
  hasSucc : g.hasNode c.succ

/-- Adds edges one after the other. The answers tell which of them were new. -/
def addDeps (g : Graph) : List Request → Except Fault (Graph × List Bool)
  | [] => .ok (g, [])
  | c :: calls => do
      let (g, isNew) ← g.addDep c.succ c.dep
      let (g, answers) ← g.addDeps calls
      return (g, isNew :: answers)

theorem withDep_of_addDep {succ : NodeId} {dep : Dep} {isNew : Bool}
    (h : g.addDep succ dep = .ok (g', isNew)) : g.withDep succ dep = .ok g' :=
  bind_eq_ok.mpr ⟨(g', isNew), h, rfl⟩

/-- The answer says whether the constraint was there already. -/
theorem addDep_answer {succ : NodeId} {dep : Dep} {isNew : Bool}
    (h : g.addDep succ dep = .ok (g', isNew)) : isNew = decide (dep.constraint ∉ g.incoming succ) := by
  obtain ⟨hself, hexit, -⟩ := withDep_eq_ok.mp (withDep_of_addDep h)
  unfold addDep at h
  rw [if_neg hself, if_neg hexit] at h
  obtain ⟨target, htarget, h⟩ := bind_eq_ok.mp h
  have hincoming : g.incoming succ = target.preds.map Dep.constraint := by
    simp [incoming, predsOf_eq, node_eq_ok.mp htarget]
  rw [hincoming]
  split at h
  next old hold =>
    have hmem : dep.constraint ∈ target.preds.map Dep.constraint :=
      Dep.constraint_of_find? hold ▸ List.mem_map_of_mem (List.mem_of_find?_eq_some hold)
    have hanswer : isNew = false := by
      split at h
      · simp only [bind_eq_ok, pure_eq_ok, Prod.mk.injEq] at h
        obtain ⟨_, _, _, _, -, hanswer⟩ := h
        exact hanswer.symm
      · simp only [pure_eq_ok, Prod.mk.injEq] at h
        exact h.2.symm
    simp [hanswer, hmem]
  next hnone =>
    have hnot : dep.constraint ∉ target.preds.map Dep.constraint := by
      rw [List.mem_map]
      rintro ⟨e, he, heq⟩
      exact List.find?_eq_none.mp hnone e he (Dep.sameConstraint_iff.mpr heq)
    simp only [bind_eq_ok, pure_eq_ok, Prod.mk.injEq] at h
    obtain ⟨_, _, _, _, -, hanswer⟩ := h
    simp [← hanswer, hnot]

theorem Allows.grows (h : g.Allows c) (hg : g.Grows g') : g'.Allows c := by
  have hnode : ∀ id, g.hasNode id → g'.hasNode id := fun id hid => by
    rw [hasNode_iff, hg.position]
    exact hasNode_iff.mp hid
  exact ⟨h.distinct, h.not_exit, hnode _ h.hasPred, hnode _ h.hasSucc⟩

theorem Allows.exists_addDep (h : g.Allows c) : ∃ g' isNew, g.addDep c.succ c.dep = .ok (g', isNew) := by
  have hnode : ∀ id, g.hasNode id → (g.node? id).isSome := fun id hid => by
    simpa [position] using hasNode_iff.mp hid
  obtain ⟨g', hg'⟩ := exists_withDep h.distinct h.not_exit (hnode _ h.hasSucc) (hnode _ h.hasPred)
  obtain ⟨⟨g₁, isNew⟩, hadd, -⟩ := bind_eq_ok.mp hg'
  exact ⟨g₁, isNew, hadd⟩

theorem grows_addDeps {answers : List Bool} (h : g.addDeps calls = .ok (g', answers)) :
    g.Grows g' := by
  induction calls generalizing g answers with
  | nil =>
    cases h
    exact .refl _
  | cons c calls ih =>
    simp only [addDeps, bind_eq_ok] at h
    obtain ⟨⟨g₁, isNew⟩, hadd, ⟨g₂, later⟩, hrest, h⟩ := h
    cases h
    exact (grows_withDep (withDep_of_addDep hadd)).trans (ih hrest)

/-! What is there in the end -/

/-- The edges of the graph are those that the requests come to. -/
structure Holds (g : Graph) (calls : List Request) : Prop where
  preds : ∀ s, g.predsOf s = ((Request.kept calls).filter fun c => c.succ = s).map Request.dep
  succs : ∀ p, g.succsOf p =
    ((Request.kept calls).filter fun c => c.dep.node = p).map Request.mirrored

theorem holds_ofPositions : (ofPositions block start stop positions).Holds [] :=
  ⟨fun s => (no_edges_ofPositions s).1, fun p => (no_edges_ofPositions p).2⟩

theorem Holds.mem_incoming (h : g.Holds calls) {s : NodeId} {k : NodeId × Kind × Option Reg} :
    k ∈ g.incoming s ↔ (s, k) ∈ calls.map Request.key := by
  rw [incoming, h.preds, ← Request.exists_kept]
  simp [Request.key, and_assoc]

/-- One more request changes the entries at both ends of its edge, and no others. -/
theorem Holds.withDep (h : g.Holds calls) (hm : g.Mirrored) (hg : g.withDep c.succ c.dep = .ok g') :
    g'.Holds (calls ++ [c]) := by
  refine ⟨fun s => ?_, fun p => ?_⟩
  · rw [predsOf_withDep hg, Request.kept_concat, Request.map_filter_merge _ _ (fun _ _ => rfl)
      (fun c d hkey => ?_) (fun c d hc hd => ?_) (fun _ => rfl), Function.update_apply]
    · by_cases hs : c.succ = s
      · simp [hs, h.preds]
      · simp [hs, h.preds, eq_comm (a := s)]
    · simp_all [Request.key]
    · simp_all [Request.key]
  · rw [hm.succsOf_withDep hg, Request.kept_concat,
      Request.map_filter_merge _ Request.mirrored (fun _ _ => rfl) (fun c d hkey => ?_)
        (fun c d hc hd => ?_) (fun _ => rfl), Function.update_apply]
    · by_cases hp : c.dep.node = p
      · simp [hp, h.succs, Request.mirrored]
      · simp [hp, h.succs, eq_comm (a := p)]
    · simp_all [Request.key, Dep.constraint]
    · simp_all [Request.key, Request.mirrored, Dep.constraint, Dep.facing]

/-- Of the entries of a node just one states the constraint of a request. -/
theorem Holds.countP_eq_one (h : g.Holds calls) (hm : g.Mirrored) (hc : c ∈ calls) :
    (g.predsOf c.succ).countP (fun e => e.sameConstraint c.dep) = 1 ∧
      (g.succsOf c.dep.node).countP (fun e => e.sameConstraint c.mirrored) = 1 := by
  have hcount : ∀ {deps : List Dep} {d : Dep}, (deps.map Dep.constraint).Nodup →
      d.constraint ∈ deps.map Dep.constraint → deps.countP (fun e => e.sameConstraint d) = 1 := by
    intro deps d hnodup hmem
    rw [← List.count_eq_one_of_mem hnodup hmem, List.count, List.countP_map]
    refine List.countP_congr fun e _ => ?_
    rw [Dep.sameConstraint_iff, Function.comp_apply, beq_iff_eq]
  have hin : c.dep.constraint ∈ g.incoming c.succ :=
    h.mem_incoming.mpr (List.mem_map_of_mem (f := Request.key) hc)
  obtain ⟨e, he, heq⟩ := List.mem_map.mp hin
  refine ⟨hcount (hm.incoming_nodup _) hin, hcount (hm.outgoing_nodup _) ?_⟩
  have hnode : e.node = c.dep.node := congrArg Prod.fst heq
  refine List.mem_map.mpr ⟨e.facing c.succ, hnode ▸ hm.of_preds c.succ e he, ?_⟩
  simp_all [Request.mirrored, Dep.constraint, Dep.facing]

/-- Requests that can be met are met one after the other. -/
theorem Holds.addDeps (h : g.Holds before) (hm : g.Mirrored) (hcalls : ∀ c ∈ calls, g.Allows c) :
    ∃ g' answers, g.addDeps calls = .ok (g', answers) ∧ g'.Mirrored ∧ g'.Holds (before ++ calls) ∧
      answers.length = calls.length ∧ ∀ front c back, calls = front ++ c :: back →
        answers[front.length]? = some (decide (c.key ∉ (before ++ front).map Request.key)) := by
  induction calls generalizing g before with
  | nil => exact ⟨g, [], rfl, hm, by simpa using h, rfl, by simp⟩
  | cons c calls ih =>
    obtain ⟨g₁, isNew, hadd⟩ := (hcalls c List.mem_cons_self).exists_addDep
    have hwith := withDep_of_addDep hadd
    have hg := grows_withDep hwith
    obtain ⟨g', answers, hrest, hm', hholds, hlen, hanswers⟩ := ih (h.withDep hm hwith)
      (hg.mirrored hm) fun d hd => (hcalls d (List.mem_cons_of_mem c hd)).grows hg
    refine ⟨g', isNew :: answers, ?_, hm', by simpa using hholds, by simp [hlen], ?_⟩
    · simp [Graph.addDeps, hadd, hrest, bind, Except.bind, pure, Except.pure]
    intro front d back heq
    cases front with
    | nil =>
      obtain ⟨rfl, -⟩ := List.cons.inj heq
      rw [addDep_answer hadd, List.append_nil]
      exact congrArg some (decide_eq_decide.mpr (not_congr h.mem_incoming))
    | cons a front =>
      obtain ⟨rfl, hrest⟩ := List.cons.inj heq
      simpa using hanswers front d back hrest

/-- A graph that edges are added to keeps the greatest latencies. Requests that can be met are met, and
in the end every node has one entry for each constraint that was asked for, and no others: in the order
of the first requests, with the operands of the first one and the greatest latency of all. An answer
says that no earlier request was of the same key. -/
theorem addDeps_ofPositions
    (hcalls : ∀ c ∈ calls, (ofPositions block start stop positions).Allows c) :
    ∃ g answers, (ofPositions block start stop positions).addDeps calls = .ok (g, answers) ∧
      g.Holds calls ∧
      (∀ c ∈ calls, (g.predsOf c.succ).countP (fun e => e.sameConstraint c.dep) = 1 ∧
        (g.succsOf c.dep.node).countP (fun e => e.sameConstraint c.mirrored) = 1) ∧
      answers.length = calls.length ∧ ∀ front c back, calls = front ++ c :: back →
        answers[front.length]? = some (decide (c.key ∉ front.map Request.key)) := by
  obtain ⟨g, answers, hadd, hm, hholds, hanswers⟩ :=
    holds_ofPositions.addDeps mirrored_ofPositions hcalls
  exact ⟨g, answers, hadd, hholds, fun c hc => hholds.countP_eq_one hm hc, hanswers⟩

/-- Three requests of one key and one of another: the second asks for the greatest latency, the first one
gives the operands, and only the first of each key is new. -/
theorem addDeps_of_repeated_requests :
    let data (latency : Nat) (reg : Reg) (pos : Nat) : Request :=
      ⟨.unit 1, .data (.unit 0) latency reg (some pos) none⟩
    let calls := [data 1 ⟨1⟩ 0, data 4 ⟨1⟩ 7, data 2 ⟨1⟩ 8, data 1 ⟨2⟩ 3, ⟨.exit, .artificial (.unit 1)⟩]
    ∃ g answers, (ofPositions ⟨0⟩ 0 2 [0, 1]).addDeps calls = .ok (g, answers) ∧
      g.predsOf (.unit 1) =
        [.data (.unit 0) 4 ⟨1⟩ (some 0) none, .data (.unit 0) 1 ⟨2⟩ (some 3) none] ∧
      g.succsOf (.unit 0) =
        [.data (.unit 1) 4 ⟨1⟩ (some 0) none, .data (.unit 1) 1 ⟨2⟩ (some 3) none] ∧
      answers[1]? = some false ∧ answers[3]? = some true := by
  intro data calls
  have hcalls : ∀ c ∈ calls, (ofPositions ⟨0⟩ 0 2 [0, 1]).Allows c := by
    intro c hc
    simp only [calls, List.mem_cons, List.not_mem_nil, or_false] at hc
    rcases hc with rfl | rfl | rfl | rfl | rfl <;>
      exact ⟨by decide, by decide, by decide, by decide⟩
  obtain ⟨g, answers, hadd, hholds, -, -, hanswers⟩ := addDeps_ofPositions hcalls
  exact ⟨g, answers, hadd, (hholds.preds _).trans (by decide), (hholds.succs _).trans (by decide),
    hanswers [data 1 ⟨1⟩ 0] _ _ rfl, hanswers [data 1 ⟨1⟩ 0, data 4 ⟨1⟩ 7, data 2 ⟨1⟩ 8] _ _ rfl⟩

end Graph

end Precedence
