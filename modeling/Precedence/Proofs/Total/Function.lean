import Precedence.Machine.Construct
import Precedence.Proofs.Build.Reuse
import Precedence.Proofs.Flow.Reachable
import Precedence.Proofs.Order.Shape
import Precedence.Proofs.Regions
import Precedence.Proofs.Total.Registers

/-!
Building the regions of a function always gets to its end. The regions of a block hold no boundaries,
so that all their instructions can become nodes, and from one unit to the next the walk has recorded
nothing but later units and the exit.
-/
namespace Precedence

variable {s : Setup} {block : Block} {r : Region} {oracle : Option Oracle} {units : List Instr}
  {su : Nat} {i : Instr} {w : Walk}

namespace Region.Plain

variable (hr : r.Plain block)

include hr

/-- No unit of the region is a terminator or a label. -/
theorem checkInside_units {e : Nat × Instr} (he : e ∈ r.units block) :
    e.2.checkInside = .ok () := by
  have hpos : e.1 ∈ List.range' r.start (r.stop - r.start) := by
    rw [← map_fst_body hr.stop_le]
    exact List.mem_map_of_mem (List.mem_of_mem_filter he)
  rw [List.mem_range'_1, Nat.add_sub_cancel' hr.start_lt.le] at hpos
  have hno := hr.inside e.1 e.2 hpos.1 hpos.2 (getElem?_of_mem_units he)
  simp only [Instr.isBoundary, Bool.or_eq_true, not_or, Bool.not_eq_true] at hno
  simp [Instr.checkInside, hno.1]

/-- The region has a graph to start from, with room in all latencies. -/
theorem unlinked_returns (hblock : s.func.block r.block = .ok block) (hs : s.Bounded) :
    Returns (s.unlinked block r) (Ground s block ((r.units block).map Prod.snd)) := by
  have hchecks : ((r.units block).forM fun e => e.2.checkInside) = .ok () :=
    forM_ok fun _ he => hr.checkInside_units he
  have hlatency : ∀ i, s.instrLatency i + s.addressLatency < 0x100000000 := by
    intro i
    unfold Setup.instrLatency Setup.addressLatency
    split
    · decide
    · exact hs.latency i
  obtain ⟨g, hg⟩ : ∃ g, s.unlinked block r = .ok g := ⟨_, bind_eq_ok.mpr ⟨(), hchecks, rfl⟩⟩
  have hwraps := Graph.wraps_unlinked hg
  refine ⟨g, hg, ?_⟩
  obtain rfl := Graph.unlinked_ok hg
  refine ⟨hblock, hwraps, fun k n hn => ?_⟩
  simp only [Graph.node?, List.getElem?_toArray, List.getElem?_map, Option.map_eq_some_iff] at hn
  obtain ⟨e, -, rfl⟩ := hn
  exact hlatency e.2

end Region.Plain

/-! Walks -/

namespace Walk

/-- What a step relies on: all that has been recorded behind unit `k` is there. -/
structure Underway (s : Setup) (b : Block) (oracle : Option Oracle) (units : List Instr) (k : Nat)
    (w : Walk) : Prop where
  steady : Steady s b units (w.regs, w.draft)
  barriers : w.barriers.From units k
  filed : w.chains.Filed oracle units k

theorem Underway.step_returns (h : Underway s block oracle units (su + 1) w) (hs : s.Bounded)
    (ha : Answers oracle units) (hi : units[su]? = some i)
    (hknows : ∀ e ∈ i.regOperands, s.Knows e.2.reg) :
    Returns (w.step s {} block oracle (.unit su) i) (Underway s block oracle units su) := by
  have hsu := (List.getElem?_eq_some_iff.mp hi).1
  refine (addRegisterDeps_returns h.steady hs hsu hknows).bind fun ⟨r, d⟩ hr => ?_
  refine (addBarrierDeps_returns hr.regs.tracker hr.ground h.barriers hsu hknows).bind
    fun ⟨c, t, d⟩ ⟨hc, ht, hd⟩ => ?_
  have hmemory := MemoryWalk.add_returns (m := ⟨block, oracle, s.options⟩) (w := ⟨w.chains, d⟩) ha
    ⟨hd.wraps, rfl⟩ h.filed hi
  exact hmemory.bind fun m ⟨hm, hover⟩ =>
    .pure ⟨⟨hr.regs.withTracker ht, hd.of_over hover⟩, hc, hm.filed hi h.filed⟩

/-- The walk gets down to unit `k`. -/
theorem Underway.downTo_returns (h : Underway s block oracle units units.length w) (hs : s.Bounded)
    (ha : Answers oracle units) (hknows : ∀ i ∈ units, ∀ e ∈ i.regOperands, s.Knows e.2.reg) {k : Nat}
    (hk : k ≤ units.length) :
    Returns (downTo s {} block oracle units k w) (Underway s block oracle units k) := by
  induction hk using Nat.decreasingInduction with
  | self => exact ⟨w, downTo_length w, h⟩
  | of_succ k hk ih =>
    have hi : units[k]? = some units[k] := List.getElem?_eq_getElem hk
    rw [downTo_succ hi]
    exact ih.bind fun v hv => hv.step_returns hs ha hi (hknows _ (List.getElem_mem hk))

end Walk

/-! Functions -/

/-- The registers of a function have their places: what operands name is known, and the physical
registers that blocks expect on entry are registers of the target. -/
structure Setup.KnowsAll (s : Setup) : Prop where
  operands : ∀ b ∈ s.func.blocks, ∀ i ∈ b.instrs.toList, ∀ e ∈ i.regOperands, s.Knows e.2.reg
  liveIns : ∀ b ∈ s.func.blocks, ∀ reg ∈ b.liveIns,
    s.regs.isPhysical reg → reg.number < s.regs.count

namespace Builder

variable {b : Builder}

section

variable (hf : s.func.WellFormed) (hknows : s.KnowsAll) (hs : s.Bounded) (hloops : s.loops = none)

include hf hknows hs hloops

theorem buildRegion_returns (hb : b.Usable s) (hmem : block ∈ s.func.blocks) (hr : r.Plain block)
    (ha : Answers oracle block.instrs.toList) :
    Returns (b.buildRegion s r oracle) fun p => p.1.Usable s := by
  have hblock : s.func.block r.block = .ok block := hr.block ▸ hf.block_eq hmem
  have hunits : s.unitsOf r ⊆ block.instrs.toList := by
    rw [unitsOf_eq hblock]
    intro i hi
    obtain ⟨e, he, rfl⟩ := List.mem_map.mp hi
    exact Array.mem_toList_iff.mpr (Array.mem_of_getElem? (Region.getElem?_of_mem_units he))
  have hreads : readsFor s r {} = .ok {} := by simp [readsFor, hloops]
  obtain ⟨c, hc, hcreads, hcregs⟩ : ∃ c, b.start s r = .ok c ∧ c.loopReads = {} ∧
      c.regs = b.regs.clear.reserve s.regs.count s.func.virtualCount := by
    rw [start_eq hblock hr.start_lt.le hr.stop_le, hreads]
    exact ⟨_, rfl, rfl, rfl⟩
  obtain ⟨graph, hgraph, hground⟩ := hr.unlinked_returns hblock hs
  rw [← unitsOf_eq hblock] at hground
  have hexit : Returns (readAtExit s block (r.exitInstr block) c.regs)
      (RegState.Holds s.regs.count s.func.virtualCount (There (s.unitsOf r))) := by
    refine readAtExit_returns (hcregs ▸ hb.fits.holds_reserve_clear) (fun i hi => ?_)
      fun id hid => ?_
    · exact hknows.operands _ hmem i (Array.mem_toList_iff.mpr (Array.mem_of_getElem? hi))
    · obtain ⟨b', hb', hmem', -⟩ := s.func.block_ok (hf.successors _ hmem id hid)
      exact ⟨b', hb', hknows.liveIns b' hmem'⟩
  obtain ⟨regs, hregs, hholds⟩ := hexit
  have hunderway : Walk.Underway s block oracle (s.unitsOf r) (s.unitsOf r).length
      { regs, draft := { graph } } := by
    refine ⟨⟨hholds, hground⟩, fun id hid => ?_, MemoryChains.filed_empty⟩
    exact absurd hid List.not_mem_nil
  obtain ⟨w, hw, -⟩ := hunderway.downTo_returns hs (ha.mono hunits)
    (fun i hi => hknows.operands _ hmem i (hunits hi)) (Nat.zero_le _)
  obtain ⟨c', hc'⟩ := build_of_downTo (start_ok hc).1 hblock hgraph hregs (hcreads ▸ hw)
  exact ⟨(c', w.draft.graph), bind_eq_ok.mpr ⟨c, hc, hc'⟩, .build (.start hb hc) hc'⟩

theorem buildAll_returns {l : List Region} (hb : b.Usable s)
    (hl : ∀ r ∈ l, ∃ block ∈ s.func.blocks, r.Plain block)
    (ha : ∀ block ∈ s.func.blocks, Answers oracle block.instrs.toList) :
    Returns (buildAll s oracle l b) fun p => p.2.map Prod.fst = l := by
  induction l generalizing b with
  | nil => exact .ok rfl
  | cons r rest ih =>
    obtain ⟨block, hmem, hr⟩ := hl r List.mem_cons_self
    refine (buildRegion_returns hf hknows hs hloops hb hmem hr (ha block hmem)).bind
      fun ⟨b', g⟩ hb' => ?_
    refine (ih hb' fun r hr => hl r (List.mem_cons_of_mem _ hr)).bind fun p hp => .pure ?_
    rw [List.map_cons, hp]

end

/-- A function that is well formed is built. When the register file has room for all its physical
registers, its virtual ones are in use and not allocated yet, latencies leave room for the cycles
of an address and the oracle answers every question about two instructions of one block, a builder
that looks for no loops returns one graph for each region. -/
theorem buildFunction_returns {f : RegisterFile} (hf : s.func.WellFormed) (hregs : s.regs = f.info)
    (hknows : s.KnowsAll) (htiming : s.timing.AdjustsLatencyOnly)
    (hlatency : ∀ i, s.timing.instrLatency i + s.timing.addressLatency < 0x100000000)
    (hloops : s.loops = none)
    (ha : ∀ block ∈ s.func.blocks, Answers oracle block.instrs.toList) (hb : b.Usable s) :
    ∃ b' built, b.buildFunction s oracle = .ok (b', built) ∧
      built.map Prod.fst = regionsOf s.func := by
  have hs : s.Bounded := by
    refine ⟨htiming, hlatency, fun reg => ?_⟩
    rw [hregs]
    exact f.overlaps_returns
  have hplain : ∀ r ∈ regionsOf s.func, ∃ block ∈ s.func.blocks, r.Plain block := by
    intro r hr
    obtain ⟨block, hmem, hr⟩ := List.mem_flatMap.mp hr
    exact ⟨block, hmem, Block.plain_of_mem_regions hr⟩
  obtain ⟨⟨b', built⟩, hbuilt, hmap⟩ := buildAll_returns hf hknows hs hloops hb hplain ha
  exact ⟨b', built, hbuilt, hmap⟩

/-- A loop of two blocks with a call, stores through an address, registers that share storage, a
virtual register and debug values, built by a builder that knows nothing of the loop. -/
theorem buildFunction_with_loop :
    let v : Reg := ⟨Reg.firstVirtual⟩
    let op : Instr := { opcode := "op" }
    let slot (offset : Int) : MemOperand := .ofPrivate 7 offset 4
    let f : Function := { blocks := [
        { id := ⟨0⟩, successors := [⟨1⟩], instrs := #[
          (op.withDef v).withUse ⟨1⟩,
          (op.withAddress v).storing (slot 0),
          .debugValue v,
          (op.withImplicitDef ⟨2⟩).calling,
          ((op.withDef ⟨1⟩).withAddress v).loading (slot 4)] },
        { id := ⟨1⟩, successors := [⟨1⟩, ⟨0⟩], liveIns := [⟨1⟩, v], instrs := #[
          op.labelling,
          (op.withDef ⟨2⟩).withUse v,
          (op.withUse ⟨1⟩).storing (.unknown 4),
          (op.withUse ⟨3⟩).terminating] }], virtualCount := 1 }
    let file : RegisterFile := { count := 4, shared := [(⟨1⟩, ⟨2⟩)] }
    let s : Setup := {
      func := f, regs := file.info
      timing := { instrLatency := fun i => if i.mayLoad then 4 else 1, addressLatency := 3
                  adjust := fun _ _ d => { d with latency := 2 } } }
    ∃ b' built, ({} : Builder).buildFunction s (some Oracle.offsets) = .ok (b', built) ∧
      built.map Prod.fst = [⟨⟨0⟩, 0, 5⟩, ⟨⟨1⟩, 1, 3⟩] := by
  intro v op slot f file s
  have hlatency : ∀ i, s.timing.instrLatency i + s.timing.addressLatency < 0x100000000 := by
    intro i
    change (if i.mayLoad then 4 else 1) + 3 < 0x100000000
    split <;> decide
  have hanswers : ∀ block ∈ f.blocks, Answers (some Oracle.offsets) block.instrs.toList := by
    rintro block hblock _ ⟨⟩ i hi j hj
    have hall : ∀ block ∈ f.blocks, ∀ i ∈ block.instrs.toList, ∀ j ∈ block.instrs.toList,
        (Oracle.offsets i j).isOk := by decide
    exact exists_of_isOk (hall block hblock i hi j hj)
  exact buildFunction_returns (s := s) ⟨by decide, by decide⟩ rfl ⟨by decide, by decide⟩
    (fun _ _ _ => ⟨2, rfl⟩) hlatency rfl hanswers .fresh

end Builder

end Precedence
