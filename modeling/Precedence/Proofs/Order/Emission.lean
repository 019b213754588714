import Precedence.Proofs.Order.Shape

/-!
What a finished graph makes of schedules. It accepts those that keep to the edges and turns down all
others. The instruction order of a schedule puts behind each unit the debug values that stand behind it
in the block, so nothing is lost, and a schedule in program order gives the region back as it is.
-/
namespace Precedence

/-- The units in the order of their numbers. -/
def Graph.programOrder (g : Graph) : List NodeId := (List.range g.nodes.size).map .unit

/-- How a finished graph answers to schedules: unit `k` wraps the instruction at the position numbered
`k`, a schedule that keeps to the edges becomes the opening debug values and then its instructions, each
with the debug values behind it, and any other list of nodes is turned down. -/
structure Graph.Emits (g : Graph) (r : Region) (b : Block) : Prop where
  numbered : g.nodes.toList.map Node.instr = (r.unitPositions b).map some
  accepts : ∀ schedule, g.Admits schedule →
    g.emitOrder schedule = .ok (r.emitted b (g.positionsOf schedule)) ∧
      (r.emitted b (g.positionsOf schedule)).Perm (List.range' r.start (r.stop - r.start))
  rejects : ∀ schedule, ¬g.Admits schedule →
    ∃ flaw, g.emitOrder schedule = .error (.rejected (.invalidSchedule flaw))
  restores : g.Admits g.programOrder →
    g.emitOrder g.programOrder = .ok (List.range' r.start (r.stop - r.start))

namespace Walk.Course

variable {s : Setup} {r : Region} {oracle : Option Oracle} {block : Block} {first last : Walk}

/-- Edges that lead forward in number let the units be taken in this order. -/
theorem admits_programOrder (h : Course s r oracle block first last)
    (ht : s.timing.AdjustsLatencyOnly) :
    last.draft.graph.Admits last.draft.graph.programOrder := by
  refine Graph.admits_iff.mpr ⟨_, rfl, .refl _, fun front i back heq d hd => ?_⟩
  obtain ⟨kind, reg, hedge⟩ := h.grows.2.1.joins_iff.mpr ⟨d, hd, rfl⟩
  obtain ⟨x, hnode, hx, hexit | ⟨y, hy, hxy, -⟩⟩ := h.forward ht hedge
  · cases hexit
  · cases hy
    have hpair := List.pairwise_lt_range (n := last.draft.graph.nodes.size)
    rw [heq, List.pairwise_append, List.pairwise_cons] at hpair
    have hmem := List.mem_range.mpr hx
    rw [heq, List.mem_append, List.mem_cons] at hmem
    refine ⟨x, hmem.resolve_right ?_, hnode⟩
    rintro (rfl | hback)
    · exact Nat.lt_irrefl _ hxy
    · exact Nat.lt_asymm hxy (hpair.2.1.1 x hback)

theorem emits (h : Course s r oracle block first last)
    (hroom : checkRoom (r.stop - r.start) 8 = .ok ()) : last.draft.graph.Emits r block where
  numbered := h.numbered
  accepts schedule hadmits := ⟨h.emitOrder_eq hadmits hroom,
    Region.emitted_perm h.start_le h.stop_le (h.positionsOf_perm hadmits)⟩
  rejects schedule hnot := h.grows.2.1.emitOrder_rejects hnot
  restores hadmits := by
    rw [h.emitOrder_eq hadmits hroom, Graph.programOrder, Graph.positionsOf_range h.numbered,
      Region.emitted_unitPositions h.start_le h.stop_le]

end Walk.Course

variable {s : Setup} {b b' : Builder} {r : Region} {oracle : Option Oracle} {g : Graph}

/-- Every graph that is built accepts just the schedules that keep to its edges and puts the debug
values back, whatever the target says of the edges; the program order is one of these schedules if the
target speaks about latencies alone. Room for the positions is there whenever there is room for the
instructions themselves. -/
theorem emits_of_build (hb : b.Usable s) (h : b.buildRegion s r oracle = .ok (b', g))
    (hroom : checkRoom (r.stop - r.start) 8 = .ok ()) :
    ∃ block, s.func.block r.block = .ok block ∧ g.Emits r block ∧
      (s.timing.AdjustsLatencyOnly → g.Admits g.programOrder) := by
  obtain ⟨block, first, last, hcourse, rfl⟩ := Builder.course hb h
  exact ⟨block, hcourse.block_eq, hcourse.emits hroom, hcourse.admits_programOrder⟩

/-- Two independent instructions change places, each with the debug values behind it. -/
theorem emitOrder_of_exchange :
    let op : Instr := { opcode := "op" }
    let s := Setup.straightLine { count := 3 } [.debugValue ⟨1⟩, .debugValue ⟨2⟩, op.withDef ⟨1⟩,
      .debugValue ⟨1⟩, op.withDef ⟨2⟩, .debugValue ⟨2⟩, .debugValue ⟨1⟩]
    ∃ b' g, ({} : Builder).buildRegion s ⟨⟨0⟩, 0, 7⟩ none = .ok (b', g) ∧
      g.emitOrder [.unit 1, .unit 0] = .ok [0, 1, 4, 5, 6, 2, 3] ∧
      g.emitOrder g.programOrder = .ok [0, 1, 2, 3, 4, 5, 6] ∧
      ∃ flaw, g.emitOrder [.unit 1, .exit] = .error (.rejected (.invalidSchedule flaw)) := by
  intro op s
  have hbuilt : (({} : Builder).buildRegion s ⟨⟨0⟩, 0, 7⟩ none).map (fun built =>
      decide (built.2.nodes.size = 2 ∧ built.2.predsOf (.unit 0) = [] ∧
        built.2.predsOf (.unit 1) = [] ∧ built.2.positionsOf [.unit 1, .unit 0] = [4, 2])) =
      .ok true := by cbv
  obtain ⟨⟨b', g⟩, h, hsize, hpreds₀, hpreds₁, hpositions⟩ := exists_of_map_decide hbuilt
  obtain ⟨block, hblock, hemits, hprogram⟩ := emits_of_build .fresh h rfl
  cases hblock
  have hadmits : g.Admits [.unit 1, .unit 0] := by
    refine ⟨by simp only [hsize]; decide, fun front n back heq d hd => ?_⟩
    have hn : n ∈ [NodeId.unit 1, .unit 0] := heq ▸ List.mem_append_right _ List.mem_cons_self
    simp only [List.mem_cons, List.not_mem_nil, or_false] at hn
    rcases hn with rfl | rfl
    · exact absurd (hpreds₁ ▸ hd) List.not_mem_nil
    · exact absurd (hpreds₀ ▸ hd) List.not_mem_nil
  have hnot : ¬g.Admits [.unit 1, .exit] := fun hadmits => by
    simpa using hadmits.perm.mem_iff.mp (by simp : NodeId.exit ∈ [NodeId.unit 1, .exit])
  refine ⟨b', g, h, ?_, hemits.restores (hprogram Timing.adjustsLatencyOnly_unit),
    hemits.rejects _ hnot⟩
  rw [(hemits.accepts _ hadmits).1, hpositions]
  rfl

end Precedence
