import Precedence.Proofs.Order.Values
import Precedence.Proofs.Walk.Sources

/-!
How long a read of a physical register waits for a write. All operands of the write and of the read
give the same latency when the target tells them apart by nothing but the opcodes. Whether the value
is used as an address is judged by the first operand that reads it.
-/
namespace Precedence

/-- The first operand that reads exactly `a` feeds an address. -/
def Instr.addressesFirst (j : Instr) (a : Reg) : Bool :=
  (j.useOperands.find? fun o => o.2.reg == a).any fun o => o.2.isAddress

/-- The latency of a value of register `a` from `i` to `j`, before refinement. -/
def Setup.valueLatencyOf (s : Setup) (i j : Instr) (a : Reg) : Nat :=
  s.instrLatency i + if j.addressesFirst a && j.accessesMemory then s.addressLatency else 0

variable {s : Setup} {reads : LoopReads} {block : Block} {r : Region} {start e : Graph} {x : Nat}
  {i j : Instr} {a : Reg} {su later : NodeId} {pos latency : Nat}

section

variable (h : s.unlinked block r = .ok start) (hbare : e.bare = start.bare)

include h hbare

/-- Edges do not change which block a graph is about. -/
theorem Setup.blockOf_of_bare : s.blockOf e = s.func.block r.block := by
  simp only [unlinked, bind_eq_ok, pure_eq_ok] at h
  obtain ⟨-, -, rfl⟩ := h
  rw [blockOf, Graph.block_eq_of_bare hbare]

/-- Nor do they change the latency of a node, which is that of its instruction. -/
theorem Setup.latency_of_bare (hi : ((r.units block).map Prod.snd)[x]? = some i) {n : Node}
    (hn : e.node (.unit x) = .ok n) : n.latency = s.instrLatency i := by
  obtain ⟨n', hn', hsame⟩ := (hn ▸ Graph.node_alike hbare (.unit x)).exists_ok
  have hlatency : n.bare.latency = n'.bare.latency := congrArg Node.latency hsame
  simp only [unlinked, bind_eq_ok, pure_eq_ok] at h
  obtain ⟨-, -, rfl⟩ := h
  rw [List.getElem?_map, Option.map_eq_some_iff] at hi
  obtain ⟨⟨pos, i⟩, hpos, rfl⟩ := hi
  simp only [Graph.node_eq_ok, Graph.node?, List.getElem?_toArray, List.getElem?_map, hpos,
    Option.map_some, Option.some.injEq] at hn'
  rw [← hn'] at hlatency
  exact hlatency

end

theorem valueLatency_eq_of_node {n : Node} (hn : e.node su = .ok n)
    (hlatency : n.latency = s.instrLatency i)
    (h : valueLatency s e su ((j.findUse a).map fun pos => (j, pos)) = .ok latency) :
    latency = s.valueLatencyOf i j a := by
  simp only [valueLatency, hn, Instr.findUse] at h
  rw [Setup.valueLatencyOf, ← hlatency]
  cases hfirst : j.useOperands.find? fun o => o.2.reg == a with
  | none =>
    have hplain : j.addressesFirst a = false := by simp [Instr.addressesFirst, hfirst]
    simp only [hfirst, Option.map_none] at h
    cases h
    simp [hplain]
  | some first =>
    have haddress : j.addressesFirst a = first.2.isAddress := by
      simp [Instr.addressesFirst, hfirst]
    have hmem : (first.1, first.2) ∈ j.regOperands :=
      List.mem_of_mem_filter (List.mem_of_find?_eq_some hfirst)
    simp only [hfirst, Option.map_some, bind, Except.bind, j.regOperandAt_of_mem hmem] at h
    rw [haddress]
    split at h
    next hadded =>
      rw [addLatency] at h
      split at h
      · cases h
        rw [if_pos hadded]
      · cases h
    next hplain =>
      cases h
      rw [if_neg hplain, Nat.add_zero]

/-- Between two units the target decides by the operands, and without its word the latency stays. -/
theorem Setup.refine_units (hlatencies : s.options.unitLatencies = false)
    (hblock : s.blockOf e = .ok block) (hi : e.instr su block = .ok (some i))
    (hne : later ≠ .exit) (hj : e.instr later block = .ok (some j)) {use : Option Nat} :
    s.refine reads e su later (.data su latency a (some pos) use) = .ok {
      graph := e
      dep := s.timing.adjust i (some j)
        (.data su ((s.operandLatency i pos j a).getD latency) a (some pos) use) } := by
  simp [refine, hlatencies, Dep.data, hblock, hi, hne, hj, bind, Except.bind, pure, Except.pure]

/-- A table knows all operands of a pair or none. -/
theorem TimingTable.operandLatency_eq {t : TimingTable} (ht : s.timing = t.timing)
    (ha : a ∈ j.uses) :
    s.operandLatency i pos j a = t.forwarding.lookup (i.opcode, j.opcode) := by
  obtain ⟨o, ho, rfl⟩ := List.mem_map.mp ha
  have hlist : j.useOperands.filterMap (fun p => if p.2.reg = o.2.reg then
      s.timing.operandLatency i pos j p.1 else none) =
      (j.useOperands.filter fun p => p.2.reg = o.2.reg).filterMap
        fun _ => t.forwarding.lookup (i.opcode, j.opcode) := by
    rw [List.filterMap_filter]
    simp [ht, timing]
  have hmem : o ∈ j.useOperands.filter fun p => p.2.reg = o.2.reg := by simp [ho]
  rw [Setup.operandLatency, hlist]
  cases t.forwarding.lookup (i.opcode, j.opcode) with
  | none => simp
  | some l =>
    rw [List.filterMap_eq_map', List.map_const']
    exact List.max?_replicate_of_pos (List.length_pos_of_mem hmem)

namespace Builder

variable {b b' : Builder} {oracle : Option Oracle} {g : Graph} {y : Nat} {d : Dep}

/-- The latency of an edge for a physical register, whatever operands wrote and read it: what the
target makes of its word on two operands or, if it has none, of the latency before refinement. -/
theorem Sources.value_latency (h : Sources s b r oracle block start reads g)
    (ht : s.timing.AdjustsLatencyOnly) (hlatencies : s.options.unitLatencies = false)
    (he : (.unit x, .unit y, d) ∈ g.edges) (hdata : d.kind = .data) (hreg : d.reg = some a)
    (ha : s.regs.isPhysical a) (hi : (s.unitsOf r)[x]? = some i)
    (hj : (s.unitsOf r)[y]? = some j) :
    ∃ pos, d.latency = (s.timing.adjust i (some j) (.data (.unit x)
      ((s.operandLatency i pos j a).getD (s.valueLatencyOf i j a)) a (some pos)
      (j.findUse a))).latency := by
  obtain ⟨x', i', v, dep, hv, hasked, hnode, hkind, hreg', hlatency⟩ := h.exists_request he
  rw [hdata] at hkind
  rw [hreg] at hreg'
  have hunits := unitsOf_eq h.block_eq
  have hwraps := Graph.wraps_unlinked h.unlinked
  rw [← hunits] at hwraps
  cases hasked with
  | barrier known => cases hkind
  | memory tracked asked => cases asked <;> cases hkind
  | register asked =>
    cases asked with
    | output => cases hkind
    | anti => cases hkind
    | @value dep e rf same asked refined =>
      have hconstraint := (Setup.refine_ok refined).2 ht
      simp only [Dep.constraint, Prod.mk.injEq, hnode, hreg'] at hconstraint
      have hbare := same.trans hv.bare
      cases asked with
      | virtual plain node =>
        cases hconstraint.2.2
        exact absurd ha plain
      | @physical pos latency reg j' reader value =>
        cases hconstraint.1
        cases hconstraint.2.2
        have hinstr : ∀ {k l}, (s.unitsOf r)[k]? = some l →
            e.instr (.unit k) block = .ok (some l) := by
          intro k l hl
          rw [Graph.instr_eq_of_bare hbare]
          exact hwraps.instr_unit k l hl
        obtain rfl : j' = some j := by
          rw [if_neg (by simp), hinstr hj] at reader
          exact (Except.ok.inj reader).symm
        have hblock := (Setup.blockOf_of_bare h.unlinked hbare).trans h.block_eq
        simp only [Option.bind_some] at value refined
        obtain ⟨n, hn, -⟩ := bind_eq_ok.mp value
        have hnode := Setup.latency_of_bare h.unlinked hbare (hunits ▸ hi) hn
        obtain rfl := valueLatency_eq_of_node hn hnode value
        rw [Setup.refine_units hlatencies hblock (hinstr hi) (by simp) (hinstr hj)] at refined
        cases refined
        exact ⟨pos, hlatency.symm⟩

/-- With a table of latencies, a value in a physical register takes as long as the table says for
the two opcodes. If it says nothing, it takes the latency of the write, and the extra cycles of an
address if the read is an access whose first operand that reads the register feeds an address. -/
theorem value_latency_of_table {f : RegisterFile} {t : TimingTable} (hregs : s.regs = f.info)
    (htiming : s.timing = t.timing) (hlatencies : s.options.unitLatencies = false)
    (hb : b.Usable s) (h : b.buildRegion s r oracle = .ok (b', g)) (ha : a.isPlain)
    (he : (.unit x, .unit y, d) ∈ g.edges) (hdata : d.kind = .data) (hreg : d.reg = some a)
    (hi : (s.unitsOf r)[x]? = some i) (hj : (s.unitsOf r)[y]? = some j) :
    d.latency = (t.forwarding.lookup (i.opcode, j.opcode)).getD
      (t.timing.instrLatency i +
        if j.addressesFirst a && j.accessesMemory then t.addressLatency else 0) := by
  have hadjust : s.timing.AdjustsLatencyOnly := by
    rw [htiming]
    exact fun _ _ e => ⟨e.latency, rfl⟩
  have horderly := f.orderly hregs hadjust
  have hp : s.regs.isPhysical a := by simp [hregs, RegisterFile.info, ha]
  obtain ⟨block, start, reads, hsources⟩ := sources hb h
  have hreads : a ∈ j.uses := by
    obtain ⟨block, first, last, hcourse, rfl⟩ := course hb h
    have hedge := hcourse.grows.2.1.hasEdge_of_mem_edges he
    rw [hdata, hreg, (hcourse.valuesLinked hadjust (.inl hp)
      fun _ => horderly.overlaps_self a).data.unit_iff] at hedge
    obtain ⟨-, ⟨j', hj', huse⟩, -⟩ := hedge
    exact Option.some.inj (hj.symm.trans hj') ▸ huse
  obtain ⟨pos, hlatency⟩ := hsources.value_latency hadjust hlatencies he hdata hreg hp hi hj
  rw [TimingTable.operandLatency_eq htiming hreads] at hlatency
  simpa [Setup.valueLatencyOf, Setup.instrLatency, Setup.addressLatency, hlatencies, htiming,
    TimingTable.timing, Dep.data] using hlatency

/-- A store waits longer for its address than for the value it stores. -/
theorem value_latency_of_address :
    let f : RegisterFile := { count := 4 }
    let write := ({ opcode := "op" } : Instr).withDef ⟨1⟩
    let store := ((({ opcode := "st" } : Instr).withAddress ⟨1⟩).withUse ⟨1⟩).storing (.unknown 4)
    let t : TimingTable := { addressLatency := 2 }
    let s := { Setup.straightLine f [write, store] with timing := t.timing }
    ∃ b' g d, ({} : Builder).buildRegion s ⟨⟨0⟩, 0, 2⟩ none = .ok (b', g) ∧
      (.unit 0, .unit 1, d) ∈ g.edges ∧ d.kind = .data ∧ d.latency = 3 := by
  intro f write store t s
  have hedge : ((({} : Builder).buildRegion s ⟨⟨0⟩, 0, 2⟩ none).map
      fun p => decide ((.unit 0, .unit 1, .data (.unit 0) 3 ⟨1⟩ (some 0) (some 0)) ∈ p.2.edges)) =
      .ok true := by cbv
  obtain ⟨⟨b', g⟩, h, he⟩ := exists_of_map_decide hedge
  refine ⟨b', g, _, h, he, rfl, ?_⟩
  exact value_latency_of_table (f := f) (t := t) rfl rfl rfl .fresh h (a := ⟨1⟩) rfl he rfl rfl rfl
    rfl

/-- A store that names the value it stores in front of its address does not wait for the address. -/
theorem value_latency_of_stored_address :
    let f : RegisterFile := { count := 4 }
    let write := ({ opcode := "op" } : Instr).withDef ⟨1⟩
    let store := ((({ opcode := "st" } : Instr).withUse ⟨1⟩).withAddress ⟨1⟩).storing (.unknown 4)
    let t : TimingTable := { addressLatency := 2 }
    let s := { Setup.straightLine f [write, store] with timing := t.timing }
    ∃ b' g d, ({} : Builder).buildRegion s ⟨⟨0⟩, 0, 2⟩ none = .ok (b', g) ∧
      (.unit 0, .unit 1, d) ∈ g.edges ∧ d.kind = .data ∧ d.reg = some ⟨1⟩ ∧
      store.accessesMemory ∧ (∃ o ∈ store.useOperands, o.2.reg = ⟨1⟩ ∧ o.2.isAddress) ∧
      t.forwarding.lookup (write.opcode, store.opcode) = none ∧
      d.latency ≠ t.timing.instrLatency write + t.addressLatency := by
  intro f write store t s
  have hedge : ((({} : Builder).buildRegion s ⟨⟨0⟩, 0, 2⟩ none).map
      fun p => decide ((.unit 0, .unit 1, .data (.unit 0) 1 ⟨1⟩ (some 0) (some 0)) ∈ p.2.edges)) =
      .ok true := by cbv
  obtain ⟨⟨b', g⟩, h, he⟩ := exists_of_map_decide hedge
  exact ⟨b', g, _, h, he, rfl, rfl, rfl, by decide, rfl, by decide⟩

end Builder

end Precedence
