import Precedence.Proofs.Graph.Kept
import Precedence.Proofs.Walk.Memory

/-!
The memory walk always gets to its end. Every access it meets is a later unit, the search behind a
separated store visits units only, and so no node is missing and none is put before itself; what is
left to fail is the oracle.
-/
namespace Precedence

/-- An oracle, if there is one, answers every question about some instructions. -/
def Answers (oracle : Option Oracle) (instrs : List Instr) : Prop :=
  ∀ answer, oracle = some answer → ∀ i ∈ instrs, ∀ j ∈ instrs, ∃ a, answer i j = .ok a

theorem answers_none {instrs : List Instr} : Answers none instrs := nofun

theorem Answers.mono {oracle : Option Oracle} {instrs instrs' : List Instr}
    (h : Answers oracle instrs) (hsub : instrs' ⊆ instrs) : Answers oracle instrs' :=
  fun answer ho i hi j hj => h answer ho i (hsub hi) j (hsub hj)

/-- A graph with one node for each unit of a block, the same nodes as those of a given graph. -/
structure Graph.Over (g₀ : Graph) (b : Block) (units : List Instr) (g : Graph) : Prop where
  wraps : g.Wraps b units
  bare : g.bare = g₀.bare

variable {m : MemoryScope} {units : List Instr} {su t depth : Nat} {i j : Instr} {g g₀ : Graph}
  {d : Draft} {w : MemoryWalk} {o : MemObject} {n : NodeId}

theorem Graph.Wraps.isSome_node? {b : Block} (hw : g.Wraps b units) (ht : t < units.length) :
    (g.node? (.unit t)).isSome := by
  simpa [Graph.node?, hw.size_eq] using ht

/-- An edge can be added from any unit to any other node. -/
theorem Draft.withDep_returns {b : Block} {dep : Dep} (hd : g₀.Over b units d.graph)
    (hsu : su < units.length) (hdep : dep.node = .unit su) (hn : (d.graph.node? n).isSome)
    (hne : n ≠ .unit su) : Returns (d.withDep n dep) fun d' => g₀.Over b units d'.graph := by
  have hpred : (d.graph.node? dep.node).isSome := hdep ▸ hd.wraps.isSome_node? hsu
  have hself : dep.node ≠ n := fun h => hne (h.symm.trans hdep)
  have hexit : dep.node ≠ .exit := by
    rw [hdep]
    exact NodeId.noConfusion
  obtain ⟨g, hg⟩ := Graph.exists_withDep hself hexit hn hpred
  exact ⟨{ d with graph := g }, bind_eq_ok.mpr ⟨g, hg, rfl⟩, hd.wraps.grows (Graph.grows_withDep hg),
    (Graph.bare_withDep hg).trans hd.bare⟩

theorem MemoryScope.instr_returns (hw : g.Wraps m.block units) (ht : t < units.length) :
    Returns (m.instr g (.unit t)) fun j => units[t]? = some j := by
  have hj : units[t]? = some units[t] := List.getElem?_eq_getElem ht
  refine ⟨units[t], ?_, hj⟩
  rw [instr, hw.instr_unit t _ hj]
  rfl

theorem separates_returns (ha : Answers m.oracle units) (hi : i ∈ units) (hj : j ∈ units) :
    Returns (separates m i j d) fun p => p.2.graph = d.graph := by
  unfold separates
  split
  · exact .ok rfl
  next oracle horacle =>
    split
    · exact .ok rfl
    · obtain ⟨answer, hanswer⟩ := ha oracle horacle i hi j hj
      rw [hanswer]
      exact .ok rfl

theorem keepConflicting_returns {l : List NodeId} (hw : g.Wraps m.block units)
    (h : ∀ n ∈ l, ∃ t, n = .unit t ∧ t < units.length) :
    Returns (keepConflicting m g i l) fun _ => True := by
  induction l with
  | nil => exact .ok trivial
  | cons n l ih =>
    obtain ⟨t, rfl, ht⟩ := h n List.mem_cons_self
    exact (MemoryScope.instr_returns hw ht).bind fun j _ =>
      (ih fun n hn => h n (List.mem_cons_of_mem _ hn)).bind fun kept _ => .pure trivial

theorem coveredBy_returns (hw : g.Wraps m.block units) (ht : t < units.length) :
    Returns (coveredBy m i (.unit t) g) fun _ => True := by
  obtain ⟨n, hn⟩ := Option.isSome_iff_exists.mp (hw.isSome_node? ht)
  refine (returns_of_eq (Graph.node_eq_ok.mpr hn)).bind fun n' hn' => ?_
  subst hn'
  refine keepConflicting_returns hw fun id hid => ?_
  obtain ⟨e, he, rfl⟩ := List.mem_map.mp hid
  simp only [List.mem_filter, Bool.and_eq_true, bne_iff_ne] at he
  obtain ⟨hmem, -, hexit⟩ := he
  -- the far end of an edge is there
  have hedge : g.HasEdge (.unit t) e.node e.kind e.reg := by
    rw [Graph.HasEdge, Graph.outgoing, Graph.succsOf_eq, hn]
    exact List.mem_map.mpr ⟨e, hmem, rfl⟩
  have hthere := hw.linked.present _ _ _ _ hedge
  cases hnode : e.node with
  | exit => exact absurd hnode hexit
  | unit z => exact ⟨z, rfl, hw.size_eq ▸ Graph.position_unit_isSome.mp (hnode ▸ hthere)⟩

/-- A unit can be put before any other unit. -/
theorem Draft.order_returns {b : Block} {latency : Nat} (hd : g₀.Over b units d.graph)
    (hsu : su < units.length) (ht : t < units.length) (hne : su ≠ t) :
    Returns (d.withDep (.unit t) (.order (.unit su) latency))
      fun d' => g₀.Over b units d'.graph :=
  Draft.withDep_returns hd hsu rfl (hd.wraps.isSome_node? ht) (by simpa using hne.symm)

theorem visitChain_returns (ha : Answers m.oracle units) (hd : g₀.Over m.block units d.graph)
    (hsu : su < units.length) (ht : t < units.length) (hne : su ≠ t) :
    Returns (visitChain m (.unit su) (.unit t) depth d)
      fun v => g₀.Over m.block units v.draft.graph := by
  refine (MemoryScope.instr_returns hd.wraps hsu).bind fun i hi =>
    (MemoryScope.instr_returns hd.wraps ht).bind fun j hj => ?_
  have hrest : ∀ p : Bool × Draft, p.2.graph = d.graph → Returns (if p.1 then do
        let next ← if j.mayStore then coveredBy m i (.unit t) p.2.graph else pure []
        pure ⟨{ p.2 with omitted := p.2.omitted + 1 }, false, next⟩
      else do
        let d ← p.2.withDep (.unit t) (.order (.unit su) (orderLatency i j))
        pure ⟨d, true, []⟩ : Except Fault Visit)
      fun v => g₀.Over m.block units v.draft.graph := by
    intro p hp
    have hdp : g₀.Over m.block units p.2.graph := hp ▸ hd
    split
    · split
      · exact (coveredBy_returns hdp.wraps ht).bind fun _ _ => .pure hdp
      · exact .ok hdp
    · exact (Draft.order_returns hdp hsu ht hne).bind fun _ hd => .pure hd
  by_cases hdepth : depth < m.options.maxChainDepth
  · simp only [if_pos hdepth]
    exact (separates_returns ha (List.mem_of_getElem? hi) (List.mem_of_getElem? hj)).bind hrest
  · simp only [if_neg hdepth]
    exact hrest (false, d) rfl

theorem followChain_returns (ha : Answers m.oracle units) {todo : List (NodeId × Nat)} {met : Marks}
    (hd : g₀.Over m.block units d.graph) (hsu : su < units.length)
    (hsize : met.flags.size = units.length) :
    Returns (followChain m (.unit su) todo met d) fun d' => g₀.Over m.block units d'.graph := by
  -- only units are fresh
  have hunit : ∀ {met : Marks} {n : NodeId}, met.flags.size = units.length → met.isFresh n →
      ∃ t, n = .unit t ∧ t < units.length := by
    intro met n hsize hfresh
    cases n with
    | exit => simp [Marks.isFresh] at hfresh
    | unit t =>
      simp only [Marks.isFresh, beq_iff_eq, Array.getElem?_eq_some_iff] at hfresh
      exact ⟨t, rfl, hsize ▸ hfresh.1⟩
  have hvisit : ∀ {met : Marks} {target : NodeId} {depth : Nat} {d : Draft},
      g₀.Over m.block units d.graph → met.flags.size = units.length →
      target ≠ .unit su ∧ met.isFresh target →
      Returns (visitChain m (.unit su) target depth d)
        fun v => g₀.Over m.block units v.draft.graph := by
    intro met target depth d hd hsize hfresh
    obtain ⟨t, rfl, ht⟩ := hunit hsize hfresh.2
    exact visitChain_returns ha hd hsu ht fun heq => hfresh.1 (heq ▸ rfl)
  fun_induction followChain m (.unit su) todo met d with
  | case1 => exact .ok hd
  | case2 target depth todo met d hfresh e he =>
    obtain ⟨v, hv, -⟩ := hvisit hd hsize hfresh
    rw [hv] at he
    cases he
  | case3 target depth todo met d hfresh v hv ih =>
    obtain ⟨v', hv', hd'⟩ := hvisit hd hsize hfresh
    obtain rfl := Except.ok.inj (hv.symm.trans hv')
    obtain ⟨t, rfl, -⟩ := hunit hsize hfresh.2
    exact ih hd' (by simpa [Marks.mark] using hsize)
  | case4 target depth todo met d hold ih => exact ih hd hsize

theorem chain_returns (ha : Answers m.oracle units) (hd : g₀.Over m.block units d.graph)
    (hlt : su < t) (ht : t < units.length) :
    Returns (chain m (.unit su) (.unit t) d) fun p => g₀.Over m.block units p.2.graph := by
  have hne : NodeId.unit su ≠ .unit t := by simpa using hlt.ne
  unfold chain
  rw [if_neg hne]
  refine (visitChain_returns ha hd (hlt.trans ht) ht hlt.ne).bind fun v hv => ?_
  exact (followChain_returns ha hv (hlt.trans ht)
    (by simpa [Marks.mark, Marks.blank] using hv.wraps.size_eq)).bind fun _ hd => .pure hd

theorem chainAll_returns {targets : List NodeId} (ha : Answers m.oracle units)
    (hd : g₀.Over m.block units d.graph)
    (hlater : ∀ n ∈ targets, IsUnit units (su + 1) (fun _ => True) n) :
    Returns (chainAll m (.unit su) targets d) fun p => g₀.Over m.block units p.2.graph := by
  refine returns_foldlM (fun p : List NodeId × Draft => g₀.Over m.block units p.2.graph)
    (fun n hn p hp => ?_) hd
  obtain ⟨t, rfl, hlt, ht⟩ := (hlater n hn).later
  exact (chain_returns ha hp hlt ht).bind fun q hq => .pure hq

/-- The two ways to look again at a rejected access. -/
theorem orderRejected_returns {p : List NodeId × Draft} (hp : g₀.Over m.block units p.2.graph)
    (hlt : su < t) (ht : t < units.length) :
    Returns (MemoryWalk.orderRejected m (.unit su) i p (.unit t))
      fun q => g₀.Over m.block units q.2.graph :=
  (MemoryScope.instr_returns hp.wraps ht).bind fun _ _ =>
    (Draft.order_returns hp (hlt.trans ht) ht hlt.ne).bind fun _ hd => .pure hd

theorem reviewRejected_returns {p : List NodeId × Draft} (ha : Answers m.oracle units)
    (hp : g₀.Over m.block units p.2.graph) (hlt : su < t) (ht : t < units.length) :
    Returns (MemoryWalk.reviewRejected m (.unit su) i p (.unit t))
      fun q => g₀.Over m.block units q.2.graph := by
  refine (MemoryScope.instr_returns hp.wraps ht).bind fun j _ => ?_
  split
  · exact .ok hp
  · exact (chain_returns ha hp hlt ht).bind fun q hq => .pure hq

namespace MemoryWalk

theorem chainTo_returns {targets : List NodeId} (ha : Answers m.oracle units)
    (hw : g₀.Over m.block units w.draft.graph)
    (hlater : ∀ n ∈ targets, IsUnit units (su + 1) (fun _ => True) n) :
    Returns (w.chainTo m (.unit su) targets)
      fun p => p.2.chains = w.chains ∧ g₀.Over m.block units p.2.draft.graph :=
  (chainAll_returns ha hw hlater).bind fun _ hd => .pure ⟨rfl, hd⟩

theorem checkRejected_returns (ha : Answers m.oracle units) (hw : g₀.Over m.block units w.draft.graph)
    (hlater : ∀ n ∈ w.chains.rejected, IsUnit units (su + 1) (fun _ => True) n) :
    Returns (w.checkRejected m (.unit su) i)
      fun w' => w'.chains.barrier = w.chains.barrier ∧ g₀.Over m.block units w'.draft.graph := by
  have hloop : Returns (w.chains.rejected.foldlM
      (if m.options.maxRejected < w.chains.rejected.length && i.mayStore then
        orderRejected m (.unit su) i else reviewRejected m (.unit su) i) ([], w.draft))
      fun q => g₀.Over m.block units q.2.graph := by
    refine returns_foldlM (fun p : List NodeId × Draft => g₀.Over m.block units p.2.graph)
      (fun n hn p hp => ?_) hw
    obtain ⟨t, rfl, hlt, ht⟩ := (hlater n hn).later
    split
    · exact orderRejected_returns hp hlt ht
    · exact reviewRejected_returns ha hp hlt ht
  exact hloop.bind fun q hq => .pure ⟨rfl, hq⟩

theorem orderAgainstBarrier_returns {b : Block} (hw : g₀.Over b units w.draft.graph)
    (hb : ∀ n, w.chains.barrier = some n → IsUnit units (su + 1) (fun _ => True) n) :
    Returns (w.orderAgainstBarrier (.unit su)) fun w' => g₀.Over b units w'.draft.graph := by
  unfold orderAgainstBarrier
  split
  · exact .ok hw
  next n hn =>
    obtain ⟨t, rfl, hlt, ht⟩ := (hb n hn).later
    exact (Draft.order_returns hw (hlt.trans ht) ht hlt.ne).bind fun _ hd => .pure hd

variable (ha : Answers m.oracle units) (hw : g₀.Over m.block units w.draft.graph)
  (hf : w.chains.Filed m.oracle units (su + 1))

include ha hw hf

theorem addGlobal_returns :
    Returns (w.addGlobal m (.unit su)) fun w' => g₀.Over m.block units w'.draft.graph :=
  (chainTo_returns ha hw fun _ hn => hf.isUnit hn).bind fun _ ⟨_, hw'⟩ => .pure hw'

theorem addObjectStore_returns : Returns (w.addObjectStore m (.unit su) i o) fun w' =>
    w'.chains.barrier = w.chains.barrier ∧ g₀.Over m.block units w'.draft.graph := by
  obtain ⟨hb, ha', hp, hr⟩ := MemoryChains.setDef_rest w.chains o (.unit su)
  refine (chainTo_returns ha hw fun n hn => hf.isUnit ?_).bind fun ⟨apart, w₁⟩ ⟨hc₁, hw₁⟩ => ?_
  · rw [List.mem_append, Option.mem_toList] at hn
    exact hn.elim MemoryChains.defOf_mem_all MemoryChains.usesOf_mem_all
  obtain ⟨c₁, d₁⟩ := w₁
  obtain rfl : c₁ = w.chains := hc₁
  simp only [hp, ha']
  refine (chainTo_returns (w := ⟨w.chains.setDef o (.unit su), d₁⟩) ha hw₁
    fun n hn => hf.isUnit ?_).bind fun ⟨_, w₂⟩ ⟨hc₂, hw₂⟩ => ?_
  · split at hn
    · rw [List.mem_append, Option.mem_toList] at hn
      exact hn.elim MemoryChains.pendingLoads_mem_all MemoryChains.aliasChain_mem_all
    · simp at hn
  refine (checkRejected_returns ha hw₂ fun n hn => hf.isUnit ?_).bind fun w₃ ⟨hb₃, hw₃⟩ => ?_
  · rw [hc₂, hr] at hn
    exact MemoryChains.rejected_mem_all hn
  · exact .pure ⟨hb₃.trans (by rw [hc₂, hb]), hw₃⟩

theorem addUnknownStore_returns : Returns (w.addUnknownStore m (.unit su) i) fun w' =>
    w'.chains.barrier = w.chains.barrier ∧ g₀.Over m.block units w'.draft.graph := by
  have hcheck := checkRejected_returns (i := i) (w := ⟨w.chains.hidden, w.draft⟩) ha hw
    fun n hn => hf.isUnit (MemoryChains.rejected_mem_all hn)
  refine hcheck.bind fun w₁ ⟨hb₁, hw₁⟩ => ?_
  refine (chainTo_returns ha hw₁ fun n hn => hf.isUnit ?_).bind fun ⟨_, w₂⟩ ⟨hc₂, hw₂⟩ => ?_
  · simp only [List.mem_append, Option.mem_toList, MemoryChains.mem_sharedDefs,
      MemoryChains.mem_sharedUses] at hn
    rcases hn with ((hn | hn) | ⟨o, -, hn⟩) | ⟨o, -, hn⟩
    · exact MemoryChains.aliasChain_mem_all hn
    · exact MemoryChains.pendingLoads_mem_all hn
    · exact MemoryChains.defOf_mem_all hn
    · exact MemoryChains.usesOf_mem_all hn
  · exact .pure ⟨(congrArg MemoryChains.barrier hc₂).trans hb₁, hw₂⟩

theorem addStore_returns (hsu : su < units.length) : Returns (w.addStore m (.unit su) i)
    fun w' => g₀.Over m.block units w'.draft.graph := by
  have hlast : ∀ v : MemoryWalk, v.chains.barrier = w.chains.barrier ∧
      g₀.Over m.block units v.draft.graph → Returns (do
        let v ← v.orderAgainstBarrier (.unit su)
        let draft ← v.draft.withDep .exit (.artificial (.unit su))
        pure { v with draft } : Except Fault MemoryWalk)
      fun w' => g₀.Over m.block units w'.draft.graph := by
    intro v ⟨hb, hv⟩
    refine (orderAgainstBarrier_returns hv fun n hn => hf.isUnit
      (MemoryChains.barrier_mem_all (hb ▸ hn))).bind fun u hu => ?_
    exact (Draft.withDep_returns (n := .exit) hu hsu rfl rfl nofun).bind fun _ hd => .pure hd
  unfold addStore
  split
  · exact (addObjectStore_returns ha hw hf).bind hlast
  · exact (addUnknownStore_returns ha hw hf).bind hlast

theorem addLoad_returns : Returns (w.addLoad m (.unit su) i)
    fun w' => g₀.Over m.block units w'.draft.graph := by
  have hlast : ∀ v : MemoryWalk, v.chains.barrier = w.chains.barrier →
      v.chains.rejected = w.chains.rejected → g₀.Over m.block units v.draft.graph → Returns (do
        let v ← v.checkRejected m (.unit su) i
        v.orderAgainstBarrier (.unit su)) fun w' => g₀.Over m.block units w'.draft.graph := by
    intro v hb hr hv
    refine (checkRejected_returns ha hv fun n hn => hf.isUnit
      (MemoryChains.rejected_mem_all (hr ▸ hn))).bind fun u ⟨hbu, hu⟩ => ?_
    exact orderAgainstBarrier_returns hu fun n hn => hf.isUnit
      (MemoryChains.barrier_mem_all (hb ▸ hbu ▸ hn))
  unfold addLoad
  split
  next o ho =>
    obtain ⟨hb, -, -, hr⟩ := MemoryChains.addUse_rest w.chains o (.unit su)
    refine (chainTo_returns ha hw fun n hn => hf.isUnit ?_).bind fun ⟨_, w₁⟩ ⟨_, hw₁⟩ =>
      hlast _ hb hr hw₁
    simp only [List.mem_append, Option.mem_toList, List.mem_ite_nil_right] at hn
    rcases hn with hn | ⟨-, hn⟩
    · exact MemoryChains.defOf_mem_all hn
    · exact MemoryChains.aliasChain_mem_all hn
  next ho =>
    refine (chainTo_returns ha hw fun n hn => hf.isUnit ?_).bind fun ⟨_, w₁⟩ ⟨_, hw₁⟩ =>
      hlast _ rfl rfl hw₁
    simp only [List.mem_append, Option.mem_toList, MemoryChains.mem_sharedDefs] at hn
    rcases hn with ⟨o, -, hn⟩ | hn
    · exact MemoryChains.defOf_mem_all hn
    · exact MemoryChains.aliasChain_mem_all hn

/-- With an oracle that answers, the memory walk takes its next step. -/
theorem add_returns (hi : units[su]? = some i) : Returns (w.add m (.unit su) i)
    fun w' => MemoryStep m units su i w w' ∧ g₀.Over m.block units w'.draft.graph := by
  suffices h : Returns (w.add m (.unit su) i) fun w' => g₀.Over m.block units w'.draft.graph from
    h.mono fun w' hw' hover => ⟨add_ok hw.wraps hi hf hw', hover⟩
  unfold add
  split
  · exact addGlobal_returns ha hw hf
  split
  · exact addStore_returns ha hw hf (List.getElem?_eq_some_iff.mp hi).1
  split
  · exact addLoad_returns ha hw hf
  · exact .ok hw

end MemoryWalk

end Precedence
