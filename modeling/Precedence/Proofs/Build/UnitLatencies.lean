import Precedence.Machine.Construct
import Precedence.Proofs.Build.Reuse
import Precedence.Proofs.Graph.OutputLatencies
import Precedence.Proofs.Walk.Chain

/-!
Graphs whose latencies are all to be one. The target is then asked about time in one place only: an
output edge takes the latency that the target gives to two writes. Two targets that differ in what
they say about time build the same graph but for those latencies, and the very same graph if they
agree about two writes.
-/
namespace Precedence

variable {s : Setup} {time : Timing} {reads : LoopReads} {b : Block} {su later succ : NodeId}
  {i : Instr} {pos : Nat} {o : RegOperand} {reg : Reg} {d d' : Draft} {dep dep' : Dep}
  {m : MemoryScope} {D : Draft → Draft → Prop}

/-! What is not asked -/

theorem Draft.addValue_of_unit (hunit : s.options.unitLatencies) (writer reader : NodeId) :
    d.addValue s reads writer reader dep = d.withDep reader dep := by
  simp [Draft.addValue, Draft.withDep, Setup.refine, hunit]

theorem valueLatency_of_unit (time : Timing) (hunit : s.options.unitLatencies) {g : Graph}
    (reader : Option (Instr × Nat)) :
    valueLatency { s with timing := time } g su reader = valueLatency s g su reader := by
  simp [valueLatency, Setup.addressLatency, hunit]

theorem linkRead_of_unit (time : Timing) (hunit : s.options.unitLatencies) :
    linkRead { s with timing := time } reads b su pos reg d later =
      linkRead s reads b su pos reg d later := by
  have hunit' : ({ s with timing := time } : Setup).options.unitLatencies := hunit
  simp only [linkRead, valueLatency_of_unit time hunit, Draft.addValue_of_unit hunit,
    Draft.addValue_of_unit hunit']

theorem linkWaiting_of_unit (time : Timing) (hunit : s.options.unitLatencies)
    (waiting : NodeId × Nat) :
    linkWaiting { s with timing := time } reads su pos reg d waiting =
      linkWaiting s reads su pos reg d waiting := by
  have hunit' : ({ s with timing := time } : Setup).options.unitLatencies := hunit
  simp only [linkWaiting, Draft.addValue_of_unit hunit, Draft.addValue_of_unit hunit']

theorem Setup.unlinked_of_unit (time : Timing) (hunit : s.options.unitLatencies) (r : Region) :
    ({ s with timing := time } : Setup).unlinked b r = s.unlinked b r := by
  simp [Setup.unlinked, Setup.nodeOf, Setup.instrLatency, hunit]

/-- With unit latencies the target has a say in output edges only. -/
theorem Lockstep.linkedAlike_of_unit (hD : Lockstep D) (hunit : s.options.unitLatencies)
    (houtput : ∀ {d d'}, D d d' → ∀ su i pos j reg later,
      Alike D (d.withDep later (.output su (s.timing.outputLatency i pos j) reg))
        (d'.withDep later (.output su (time.outputLatency i pos j) reg))) :
    LinkedAlike D s time reads b where
  toLockstep := hD
  linkWrite h _ _ _ _ _ _ := hD.linkWrite h time fun _ => houtput h _ _ _ _ _ _
  linkRead h _ _ _ _ := by
    rw [linkRead_of_unit time hunit]
    exact hD.linkRead h
  linkWaiting h _ _ _ waiting := by
    rw [linkWaiting_of_unit time hunit]
    exact hD.linkWaiting h waiting
  linkNearest h _ _ _ _ nearest :=
    hD.linkNearest h time nearest fun _ _ => houtput h _ _ _ _ _ _

/-! Drafts that differ in output latencies -/

/-- The graphs have the same nodes and the same edges, with the same latencies but for those of
output edges. -/
structure OutputsAside (d d' : Draft) : Prop where
  linked : d.graph.Linked
  linked' : d'.graph.Linked
  rest : d.graph.withoutOutputLatencies = d'.graph.withoutOutputLatencies

namespace OutputsAside

theorem refl {g : Graph} (h : g.Linked) : OutputsAside { graph := g } { graph := g } := ⟨h, h, rfl⟩

theorem bare (h : OutputsAside d d') : d.graph.bare = d'.graph.bare := by
  rw [← Graph.bare_withoutOutputLatencies, h.rest, Graph.bare_withoutOutputLatencies]

/-- Edges are added to both that differ in the latency of an output at most. -/
theorem withDep (h : OutputsAside d d')
    (hdep : dep.withoutOutputLatency = dep'.withoutOutputLatency) :
    Alike OutputsAside (d.withDep succ dep) (d'.withDep succ dep') := by
  have hnode : dep.node = dep'.node := by
    rw [← Dep.node_withoutOutputLatency, hdep, Dep.node_withoutOutputLatency]
  refine Draft.withDep_alike h.linked h.linked' h.bare hnode fun g g' hg hg' =>
    ⟨(Graph.grows_withDep hg).linked h.linked, (Graph.grows_withDep hg').linked h.linked', ?_⟩
  have hview := Graph.withoutOutputLatencies_withDep hg
  rw [h.rest, hdep] at hview
  exact Except.ok.inj (hview.symm.trans (Graph.withoutOutputLatencies_withDep hg'))

end OutputsAside

theorem lockstep_outputsAside : Lockstep OutputsAside where
  bare h := h.bare
  withDep h _ _ := h.withDep rfl
  scheduleHigh h id := by
    refine (Graph.modifyNode_alike h.bare).of_ok fun g g' hg hg' => ?_
    obtain ⟨hgrows, -⟩ := Graph.grows_modifyNode hg (fun _ => rfl) (fun _ => rfl) fun _ => rfl
    obtain ⟨hgrows', -⟩ := Graph.grows_modifyNode hg' (fun _ => rfl) (fun _ => rfl) fun _ => rfl
    refine ⟨hgrows.linked h.linked, hgrows'.linked h.linked', ?_⟩
    have hview := Graph.withoutOutputLatencies_scheduleHigh hg
    rw [h.rest] at hview
    exact Except.ok.inj (hview.symm.trans (Graph.withoutOutputLatencies_scheduleHigh hg'))
  hint h := ⟨h.linked, h.linked', h.rest⟩

/-! Memory -/

theorem MemoryScope.instr_eq_of_bare {g g' : Graph} (h : g.bare = g'.bare) (id : NodeId) :
    m.instr g id = m.instr g' id := by
  unfold MemoryScope.instr
  rw [Graph.instr_eq_of_bare h]

theorem keepConflicting_eq {g g' : Graph} (h : g.bare = g'.bare) (nodes : List NodeId) :
    keepConflicting m g i nodes = keepConflicting m g' i nodes := by
  induction nodes with
  | nil => rfl
  | cons id rest ih => rw [keepConflicting, keepConflicting, ih, MemoryScope.instr_eq_of_bare h]

/-- The accesses behind a store are found along order edges. -/
theorem OutputsAside.coveredBy_eq (h : OutputsAside d d') (store : NodeId) :
    coveredBy m i store d.graph = coveredBy m i store d'.graph := by
  have hafter : ∀ deps : List Dep,
      (deps.filter fun e => e.kind == .order && e.node != .exit).map Dep.node =
        ((deps.map Dep.withoutOutputLatency).filter
          fun e => e.kind == .order && e.node != .exit).map Dep.node := by
    intro deps
    simp [List.filter_map, Function.comp_def]
  refine Alike.eq ((Graph.node_alike h.rest store).bind fun n n' hn => ?_)
  have hsuccs : n.succs.map Dep.withoutOutputLatency = n'.succs.map Dep.withoutOutputLatency :=
    congrArg Node.succs hn
  dsimp only
  rw [hafter n.succs, hsuccs, ← hafter, keepConflicting_eq h.bare]
  exact .refl (fun _ => rfl) _

theorem OutputsAside.separates (h : OutputsAside d d') (j : Instr) :
    Alike (Draft.Beside OutputsAside) (separates m i j d) (separates m i j d') := by
  unfold Precedence.separates
  split
  · exact .ok ⟨rfl, h⟩
  split
  · exact .ok ⟨rfl, h⟩
  · exact Alike.bind_same fun answer => .pure ⟨rfl, h.linked, h.linked', h.rest⟩

theorem OutputsAside.askApart (h : OutputsAside d d') (depth : Nat) (j : Instr) :
    Alike (Draft.Beside OutputsAside) (askApart m i j depth d) (askApart m i j depth d') := by
  unfold Precedence.askApart
  split
  · exact h.separates j
  · exact .ok ⟨rfl, h⟩

theorem endVisit_alike {j : Instr} {p p' : Bool × Draft} (h : Draft.Beside OutputsAside p p') :
    Alike (Visit.Beside OutputsAside) (endVisit m su succ i j p) (endVisit m su succ i j p') := by
  obtain ⟨hapart, hdraft⟩ := h
  unfold endVisit behind
  rw [hapart, hdraft.coveredBy_eq]
  split
  · exact Alike.bind_same fun next =>
      .pure ⟨rfl, rfl, hdraft.linked, hdraft.linked', hdraft.rest⟩
  · exact (hdraft.withDep rfl).bind fun v v' hv => .pure ⟨rfl, rfl, hv⟩

theorem memoryLockstep_outputsAside : MemoryLockstep OutputsAside m m where
  toLockstep := lockstep_outputsAside
  block := rfl
  visit {d d'} h su target depth := by
    rw [visitChain_eq, visitChain_eq]
    simp only [MemoryScope.instr_eq_of_bare h.bare]
    refine Alike.bind_same fun i => Alike.bind_same fun j => ?_
    exact (h.askApart depth j).bind fun p p' hp => endVisit_alike hp

/-! Regions -/

namespace Builder

variable {b b' : Builder} {r : Region} {oracle : Option Oracle}

/-- With unit latencies two builds are related by whatever output edges keep. -/
theorem buildRegion_beside_of_unit (hunit : s.options.unitLatencies) (hb : b.Usable s)
    (hb' : b'.Usable { s with timing := time }) (hrefl : ∀ g : Graph, g.Linked →
      D { graph := g } { graph := g })
    (hmemory : ∀ m, MemoryLockstep D m m)
    (houtput : ∀ {d d'}, D d d' → ∀ su i pos j reg later,
      Alike D (d.withDep later (.output su (s.timing.outputLatency i pos j) reg))
        (d'.withDep later (.output su (time.outputLatency i pos j) reg))) :
    Alike (fun p p' => ∃ d d', D d d' ∧ p.2 = d.graph ∧ p'.2 = d'.graph)
      (b.buildRegion s r oracle) (b'.buildRegion { s with timing := time } r oracle) := by
  have hstart : Alike (fun c c' => Same s.regs.count s.func.virtualCount c c' ∧
      c.stats = b.stats ∧ c'.stats = b'.stats) (b.start s r)
      (b'.start { s with timing := time } r) := start_alike hb.fits hb'.fits r
  refine hstart.bind fun c c' hc => ?_
  refine (hc.1.build_beside (D := D) (fun block r => ?_) fun _ block _ _ => ?_).mono fun p p' hp => ?_
  · rw [Setup.unlinked_of_unit time hunit]
    refine (Alike.refl (fun _ => rfl) _).of_ok fun g g' hg hg' => ?_
    obtain rfl : g = g' := Except.ok.inj (hg.symm.trans hg')
    exact hrefl g (Graph.wraps_unlinked hg).linked
  · exact ⟨(hmemory ⟨block, oracle, s.options⟩).linkedAlike_of_unit hunit houtput, hmemory _⟩
  · obtain ⟨d, d', hd, hg, hg', -⟩ := hp.drafts
    exact ⟨d, d', hd, hg, hg'⟩

/-- With unit latencies a graph does not depend on what the target says about time, the latencies of
output edges aside: any two targets fail with the same fault or have the same graph built but for
those, and the very same graph if they agree about two writes of one register. -/
theorem buildRegion_of_unit (hunit : s.options.unitLatencies) (hb : b.Usable s)
    (hb' : b'.Usable { s with timing := time }) (r : Region) (oracle : Option Oracle) :
    Alike (fun p p' => p.2.withoutOutputLatencies = p'.2.withoutOutputLatencies ∧
        ((∀ i pos j, s.timing.outputLatency i pos j = time.outputLatency i pos j) → p.2 = p'.2))
      (b.buildRegion s r oracle) (b'.buildRegion { s with timing := time } r oracle) := by
  have haside : Alike (fun p p' => p.2.withoutOutputLatencies = p'.2.withoutOutputLatencies)
      (b.buildRegion s r oracle) (b'.buildRegion { s with timing := time } r oracle) := by
    refine (buildRegion_beside_of_unit hunit hb hb' (fun _ => .refl)
      (fun _ => memoryLockstep_outputsAside) fun h su i pos j reg later => h.withDep ?_).mono ?_
    · simp [Dep.withoutOutputLatency, Dep.output]
    · rintro p p' ⟨d, d', hd, hg, hg'⟩
      rw [hg, hg', hd.rest]
  by_cases hagree : ∀ i pos j, s.timing.outputLatency i pos j = time.outputLatency i pos j
  · have hsame : Alike (fun p p' => p.2 = p'.2) (b.buildRegion s r oracle)
        (b'.buildRegion { s with timing := time } r oracle) := by
      refine (buildRegion_beside_of_unit hunit hb hb' (D := Eq) (fun _ _ => rfl)
        (fun _ => memoryLockstep_eq) fun h su i pos j reg later => ?_).mono ?_
      · rw [h, hagree]
        exact .refl (fun _ => rfl) _
      · rintro p p' ⟨d, d', rfl, hg, hg'⟩
        rw [hg, hg']
    exact (haside.and hsame).mono fun p p' h => ⟨h.1, fun _ => h.2⟩
  · exact haside.mono fun p p' h => ⟨h, fun h' => absurd h' hagree⟩

/-- A value takes one cycle to an address, although the target has four other answers for it. -/
theorem unit_latency_of_address :
    let write := ({ opcode := "op" } : Instr).withDef ⟨1⟩
    let load := (((({ opcode := "ld" } : Instr).withDef ⟨1⟩).withAddress ⟨1⟩)).loading (.unknown 4)
    let s := { Setup.straightLine { count := 4 } [write, load] with
      options := { unitLatencies := true } }
    let time := ({ default := 5, addressLatency := 3 } : TimingTable).timing.withRows
      { operand := [(("op", 0, "ld", 1), 9)], adjust := [(("op", some "ld"), 4)] }
    let value : NodeId × NodeId × Dep := (.unit 0, .unit 1, .data (.unit 0) 1 ⟨1⟩ (some 0) (some 1))
    ∃ c c' g, ({} : Builder).buildRegion s ⟨⟨0⟩, 0, 2⟩ none = .ok (c, g) ∧
      ({} : Builder).buildRegion { s with timing := time } ⟨⟨0⟩, 0, 2⟩ none = .ok (c', g) ∧
      value ∈ g.edges := by
  intro write load s time value
  have hedge : ((({} : Builder).buildRegion s ⟨⟨0⟩, 0, 2⟩ none).map
      fun p => decide (value ∈ p.2.edges)) = .ok true := by cbv
  obtain ⟨⟨c, g⟩, h, he⟩ := exists_of_map_decide hedge
  have hfresh : ({} : Builder).Usable { s with timing := time } := .fresh
  have halike := buildRegion_of_unit (s := s) rfl .fresh hfresh ⟨⟨0⟩, 0, 2⟩ none
  rw [h] at halike
  obtain ⟨⟨c', g'⟩, h', -, hsame⟩ := halike.exists_ok
  obtain rfl : g = g' := hsame fun _ _ _ => rfl
  exact ⟨c, c', g, h, h', he⟩

/-- Between two writes a target is heard in spite of unit latencies. -/
theorem output_latency_despite_unit :
    let write (opcode : String) := ({ opcode } : Instr).withDef ⟨1⟩
    let s := { Setup.straightLine { count := 4 } [write "a", write "b"] with
      options := { unitLatencies := true } }
    let time := Timing.unit.withRows { output := [(("a", "b"), 7)] }
    let slow : NodeId × NodeId × Dep := (.unit 0, .unit 1, .output (.unit 0) 7 ⟨1⟩)
    ∃ c g c' g', ({} : Builder).buildRegion s ⟨⟨0⟩, 0, 2⟩ none = .ok (c, g) ∧
      ({} : Builder).buildRegion { s with timing := time } ⟨⟨0⟩, 0, 2⟩ none = .ok (c', g') ∧
      slow ∉ g.edges ∧ slow ∈ g'.edges ∧ g ≠ g' := by
  intro write s time slow
  have hunit : ((({} : Builder).buildRegion s ⟨⟨0⟩, 0, 2⟩ none).map
      fun p => decide (slow ∉ p.2.edges)) = .ok true := by cbv
  have hslow : ((({} : Builder).buildRegion { s with timing := time } ⟨⟨0⟩, 0, 2⟩ none).map
      fun p => decide (slow ∈ p.2.edges)) = .ok true := by cbv
  obtain ⟨⟨c, g⟩, h, hout⟩ := exists_of_map_decide hunit
  obtain ⟨⟨c', g'⟩, h', hin⟩ := exists_of_map_decide hslow
  exact ⟨c, g, c', g', h, h', hout, hin, fun heq => hout (heq ▸ hin)⟩

end Builder

end Precedence
