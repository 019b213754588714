import Precedence.Proofs.Order.Memory
import Precedence.Proofs.Walk.Clashes
import Precedence.Proofs.Walk.Sources

/-!
Why one unit is put in order before another, and how long it makes the other wait. Barriers are in
order with what is around them and accesses with what they may touch. Beyond that an order can only
be what a target makes of a value.
-/
namespace Precedence

/-- The target makes an order of some value, and puts the instruction at `p` first. -/
def Timing.Reorders (t : Timing) (p : NodeId) : Prop :=
  ∃ i o d, d.kind = .data ∧ (t.adjust i o d).kind = .order ∧ (t.adjust i o d).node = p

theorem Timing.AdjustsLatencyOnly.not_reorders {t : Timing} (ht : t.AdjustsLatencyOnly)
    {p : NodeId} : ¬t.Reorders p := by
  rintro ⟨i, o, d, hdata, horder, -⟩
  obtain ⟨latency, he⟩ := ht i o d
  rw [he] at horder
  simp [hdata] at horder

/-- The instruction accesses memory, or describes private memory without an access to it. -/
def Instr.namesMemory (i : Instr) : Bool := i.accessesMemory || i.spansPrivateObjects

/-- Why `i` is put before `j`, unless an oracle is asked. -/
inductive OrderReason (i j : Instr) : Prop
  | barrier (either : i.isBarrier ∨ j.isBarrier)
  | global (first : i.namesMemory) (second : j.namesMemory)
      (either : i.isGlobalAccess ∨ j.isGlobalAccess)
  | touch (first : i.accessesMutable) (second : j.accessesMutable) (conflict : conflicts i j)
      (touch : mayTouch i j)

/-- What puts `i` before `j`, at `y`, with which latency, when the accesses of `c` are known. -/
inductive OrderSource (oracle : Option Oracle) (c : MemoryChains) (y : Nat) (i j : Instr) :
    Nat → Prop
  | barrier (either : i.isBarrier ∨ j.isBarrier) : OrderSource oracle c y i j 0
  | met (first : i.isTracked) (second : j.isTracked) (mem : .unit y ∈ c.meets i) :
      OrderSource oracle c y i j (orderLatency i j)
  | found (asked : oracle.isSome) (first : i.isGlobalAccess = false)
      (second : j.isGlobalAccess = false) : OrderSource oracle c y i j (orderLatency i j)
  | behind (first : i.isTracked) (second : j.isTracked) (described : i.isGlobalAccess = false)
      (barrier : j.isGlobalAccess) : OrderSource oracle c y i j 0

section

variable {s : Setup} {reads : LoopReads} {b : Block} {g : Graph} {su n : NodeId} {dep : Dep}
  {i j : Instr}

/-- Registers ask for an order only where the target makes one of a value. -/
theorem RegisterRequest.reorders (h : RegisterRequest s reads b g su n dep)
    (horder : dep.kind = .order) : s.timing.Reorders dep.node := by
  cases h with
  | output => cases horder
  | anti => cases horder
  | @value dep e rf same asked refined =>
    rcases (Setup.refine_cases refined).1 with hsame | ⟨hdata, i, o, latency, hadjust⟩
    · rw [hsame] at horder
      cases asked <;> cases horder
    · rw [hadjust] at horder ⊢
      exact ⟨i, o, { dep with latency }, hdata, horder, rfl⟩

theorem Instr.namesMemory_of_isTracked (h : i.isTracked) (hi : ¬i.isBarrier) : i.namesMemory := by
  simp only [isTracked, isGlobalAccess, hasOrderedAccess, accessesMemory, namesMemory,
    Bool.or_eq_true, Bool.and_eq_true, hi, Bool.false_eq_true, false_or] at h ⊢
  tauto

theorem Instr.accessesMutable_of_isTracked (h : i.isTracked) (hi : i.isGlobalAccess = false) :
    i.accessesMutable := by
  simp only [isTracked, hi, Bool.false_or, Bool.or_eq_true, Bool.and_eq_true] at h
  rcases h with hstore | ⟨hload, hinvariant⟩
  · simp [accessesMutable, accessesMemory, isInvariantLoad, hstore]
  · simp [accessesMutable, accessesMemory, hload, hinvariant]

/-- A store takes part in the order of memory, so the latency of a pair needs one that does. -/
theorem orderLatency_of_untracked (h : i.isTracked = false) : orderLatency i j = 0 := by
  simp only [Instr.isTracked, Bool.or_eq_false_iff] at h
  simp [orderLatency, h.1.2]

/-- Loads that nothing else is ordered against are not put before each other. -/
theorem OrderReason.conflicts (h : OrderReason i j) :
    i.isGlobalAccess ∨ j.isGlobalAccess ∨ conflicts i j := by
  cases h with
  | barrier either =>
    exact (either.imp Instr.isGlobalAccess_of_isBarrier
      Instr.isGlobalAccess_of_isBarrier).imp_right .inl
  | global first second either => exact either.imp_right .inl
  | touch first second conflict touch => exact .inr (.inr conflict)

/-- Without an oracle, everything that asks for an order has a reason to. -/
theorem OrderSource.reason {c : MemoryChains} {units : List Instr} {k y latency : Nat}
    (h : OrderSource none c y i j latency) (hf : c.Filed none units k) (hj : units[y]? = some j) :
    OrderReason i j := by
  by_cases hbar : i.isBarrier ∨ j.isBarrier
  · exact .barrier hbar
  rw [not_or] at hbar
  have hglobal : i.isTracked → j.isTracked → i.isGlobalAccess ∨ j.isGlobalAccess →
      OrderReason i j := fun first second =>
    .global (i.namesMemory_of_isTracked first hbar.1) (j.namesMemory_of_isTracked second hbar.2)
  cases h with
  | barrier either => exact absurd either (not_or.mpr hbar)
  | met first second mem =>
    by_cases heither : i.isGlobalAccess ∨ j.isGlobalAccess
    · exact hglobal first second heither
    · simp only [not_or, Bool.not_eq_true] at heither
      rw [MemoryChains.meets, heither.1, if_neg Bool.false_ne_true] at mem
      rcases hf.clash mem hj with hi | hj | ⟨hconflict, htouch⟩
      · simp [heither.1] at hi
      · simp [heither.2] at hj
      · exact .touch (i.accessesMutable_of_isTracked first heither.1)
          (j.accessesMutable_of_isTracked second heither.2) hconflict htouch
  | found asked => cases asked
  | behind first second described barrier => exact hglobal first second (.inr barrier)

namespace OrderSource

variable {oracle : Option Oracle} {c : MemoryChains} {y latency : Nat}

theorem latency_le (h : OrderSource oracle c y i j latency) : latency ≤ orderLatency i j := by
  cases h with
  | barrier | behind => exact Nat.zero_le _
  | met | found => exact le_rfl

/-- Two described accesses wait for each other as the pair does. -/
theorem latency_eq (h : OrderSource oracle c y i j latency)
    (hd : ¬(i.isGlobalAccess ∨ j.isGlobalAccess)) : latency = orderLatency i j := by
  cases h with
  | barrier either =>
    exact absurd (either.imp Instr.isGlobalAccess_of_isBarrier
      Instr.isGlobalAccess_of_isBarrier) hd
  | met | found => rfl
  | behind first second described barrier => exact absurd (.inr barrier) hd

/-- An access that is met by way of something else does not wait. -/
theorem latency_eq_zero (h : OrderSource oracle c y i j latency)
    (hglobal : i.isGlobalAccess ∨ j.isGlobalAccess) (hmet : .unit y ∉ c.meets i) : latency = 0 := by
  cases h with
  | barrier | behind => rfl
  | met first second mem => exact absurd mem hmet
  | found asked first second => simp [first, second] at hglobal

end OrderSource

end

namespace Builder

variable {s : Setup} {b b' : Builder} {r : Region} {oracle : Option Oracle} {block : Block}
  {start g : Graph} {reads : LoopReads} {x y : Nat} {i j : Instr} {d : Dep}

/-- An order between two units is what a target makes of a value, or it comes from a barrier or from
memory, as the walk finds it at the first of the two. -/
theorem Sources.order (h : Sources s b r oracle block start reads g)
    (he : (.unit x, .unit y, d) ∈ g.edges) (horder : d.kind = .order)
    (hi : (s.unitsOf r)[x]? = some i) (hj : (s.unitsOf r)[y]? = some j) :
    s.timing.Reorders (.unit x) ∨ (d.reg = none ∧ ∃ v, ComesTo s b r oracle block start x i v ∧
      OrderSource oracle v.chains y i j d.latency) := by
  obtain ⟨x', i', v, dep, hv, hasked, hnode, hkind, hreg, hlatency⟩ := h.exists_request he
  rw [horder] at hkind
  -- all requests but those of registers name the unit they are for
  have hhere : dep.node = .unit x' → i' = i ∧ ComesTo s b r oracle block start x i v := by
    intro hself
    obtain rfl : x' = x := by simpa [hself] using hnode
    obtain rfl := Option.some.inj (hv.instr.symm.trans hi)
    exact ⟨rfl, hv⟩
  cases hasked with
  | register asked => exact .inl (hnode ▸ asked.reorders hkind)
  | barrier known =>
    obtain ⟨rfl, hv⟩ := hhere rfl
    refine .inr ⟨hreg.symm, v, hv, hlatency ▸ .barrier ?_⟩
    rcases known with hlast | ⟨hbar, -⟩
    · exact .inr ((hv.known.last _ hlast).instr hj)
    · exact .inl hbar
  | memory tracked asked =>
    cases asked with
    | met unit mem =>
      obtain ⟨rfl, hv⟩ := hhere rfl
      obtain rfl := Option.some.inj (unit.symm.trans hj)
      refine .inr ⟨hreg.symm, v, hv, hlatency ▸ .met tracked ?_ mem⟩
      refine (hv.known.tracked _ ?_).instr hj
      unfold MemoryChains.meets at mem
      split at mem
      · exact mem
      · exact MemoryChains.mem_all_of_mem_targets mem
    | found unit asked first second =>
      obtain ⟨rfl, hv⟩ := hhere rfl
      obtain rfl := Option.some.inj (unit.symm.trans hj)
      exact .inr ⟨hreg.symm, v, hv, hlatency ▸ .found asked first second⟩
    | behind described barrier =>
      obtain ⟨rfl, hv⟩ := hhere rfl
      refine .inr ⟨hreg.symm, v, hv, hlatency ▸ .behind tracked ?_ described ?_⟩
      · exact (hv.known.tracked _ (MemoryChains.barrier_mem_all barrier)).instr hj
      · exact (hv.sound.filed.barrier _ barrier).instr hj

/-! Reasons -/

/-- Without an oracle no order is spurious: one of the two is a barrier, or both take part in the
order of memory and one of them is a global access, or they conflict and may touch. Two loads that
are no global accesses are never in order. -/
theorem orderReason_without_oracle (hb : b.Usable s) (h : b.buildRegion s r none = .ok (b', g))
    (he : (.unit x, .unit y, d) ∈ g.edges) (horder : d.kind = .order)
    (hi : (s.unitsOf r)[x]? = some i) (hj : (s.unitsOf r)[y]? = some j) :
    s.timing.Reorders (.unit x) ∨
      (OrderReason i j ∧ (i.isGlobalAccess ∨ j.isGlobalAccess ∨ conflicts i j)) := by
  obtain ⟨block, start, reads, hsources⟩ := sources hb h
  rcases hsources.order he horder hi hj with hreorders | ⟨-, v, hv, hsource⟩
  · exact .inl hreorders
  · have hreason := hsource.reason hv.sound.filed hj
    exact .inr ⟨hreason, hreason.conflicts⟩

/-- Two stores to one private object. -/
theorem orderReason_of_stores :
    let slot := ({ opcode := "st" } : Instr).storing (.ofPrivate 7 0 4)
    let s := Setup.straightLine { count := 1 } [slot, slot]
    ∃ b' g d, ({} : Builder).buildRegion s ⟨⟨0⟩, 0, 2⟩ none = .ok (b', g) ∧
      (.unit 0, .unit 1, d) ∈ g.edges ∧ d.kind = .order ∧ OrderReason slot slot := by
  intro slot s
  have hedge : ((({} : Builder).buildRegion s ⟨⟨0⟩, 0, 2⟩ none).map
      fun p => decide ((.unit 0, .unit 1, .order (.unit 0) 0) ∈ p.2.edges)) = .ok true := by cbv
  obtain ⟨⟨b', g⟩, h, he⟩ := exists_of_map_decide hedge
  refine ⟨b', g, _, h, he, rfl, ?_⟩
  exact ((orderReason_without_oracle .fresh h he rfl rfl rfl).resolve_left
    Timing.adjustsLatencyOnly_unit.not_reorders).1

/-- An instruction that describes private memory beside other memory is put before a load, although
it neither loads nor stores. -/
theorem order_without_access :
    let op : Instr := { opcode := "op" }
    let describe := (op.withOperand (.mem (.ofPrivate 7 0 4))).withOperand (.mem (.unknown 4))
    let load := ({ opcode := "ld" } : Instr).loading (.unknown 4)
    let s := Setup.straightLine { count := 1 } [describe, load]
    ∃ b' g, ({} : Builder).buildRegion s ⟨⟨0⟩, 0, 2⟩ none = .ok (b', g) ∧
      (.unit 0, .unit 1, .order (.unit 0) 0) ∈ g.edges ∧
      ¬(describe.isBarrier ∨ load.isBarrier ∨ (describe.accessesMemory ∧ load.accessesMemory ∧
        (describe.isGlobalAccess ∨ load.isGlobalAccess ∨
          (conflicts describe load ∧ mayTouch describe load)))) := by
  intro op describe load s
  have hedge : ((({} : Builder).buildRegion s ⟨⟨0⟩, 0, 2⟩ none).map
      fun p => decide ((.unit 0, .unit 1, .order (.unit 0) 0) ∈ p.2.edges)) = .ok true := by cbv
  obtain ⟨⟨b', g⟩, h, he⟩ := exists_of_map_decide hedge
  exact ⟨b', g, h, he, by decide⟩

/-! Latencies -/

/-- Unit `y` is among those that unit `x` is put before first of all. -/
def MeetsAt (s : Setup) (b : Builder) (r : Region) (oracle : Option Oracle) (x y : Nat) : Prop :=
  ∃ v i, b.walkTo s r oracle (x + 1) = .ok v ∧ (s.unitsOf r)[x]? = some i ∧
    .unit y ∈ v.chains.meets i

/-- The latency of an order is that of the pair, when no global access is among the two or the first
still meets the second. It is zero when all that is left of the second is a barrier or a global
access in its place. -/
theorem order_latency (hb : b.Usable s) (h : b.buildRegion s r oracle = .ok (b', g))
    (he : (.unit x, .unit y, d) ∈ g.edges) (horder : d.kind = .order)
    (hi : (s.unitsOf r)[x]? = some i) (hj : (s.unitsOf r)[y]? = some j) :
    s.timing.Reorders (.unit x) ∨
      ((¬(i.isGlobalAccess ∨ j.isGlobalAccess) ∨ b.MeetsAt s r oracle x y →
          d.latency = orderLatency i j) ∧
        (i.isGlobalAccess ∨ j.isGlobalAccess → ¬b.MeetsAt s r oracle x y → d.latency = 0)) := by
  obtain ⟨block, start, reads, hsources⟩ := sources hb h
  rcases hsources.order he horder hi hj with hreorders | ⟨hreg, v, hv, hsource⟩
  · exact .inl hreorders
  refine .inr ⟨fun hlong => ?_, fun hglobal hmet => ?_⟩
  · by_cases hglobal : i.isGlobalAccess ∨ j.isGlobalAccess
    · obtain ⟨v', i', hv', hi', hmem⟩ := hlong.resolve_left (not_not.mpr hglobal)
      obtain rfl := Except.ok.inj (hv.walk.symm.trans hv')
      obtain rfl := Option.some.inj (hi.symm.trans hi')
      refine hsource.latency_le.antisymm ?_
      cases htracked : i.isTracked with
      | false => simp [orderLatency_of_untracked htracked]
      | true =>
        obtain ⟨l, hl, hle⟩ := hsources.linked x i v hv htracked y j hmem hj hglobal
        have hlatency := hsources.mirrored.latency?_of_mem_edges he
        rw [horder, hreg] at hlatency
        obtain rfl := Option.some.inj (hl.symm.trans hlatency)
        exact hle
    · exact hsource.latency_eq hglobal
  · exact hsource.latency_eq_zero hglobal fun hmem => hmet ⟨v, i, hv.walk, hi, hmem⟩

/-- A load from an unknown object waits for a store to one. -/
theorem order_latency_of_unknown_store :
    let store := ({ opcode := "st" } : Instr).storing (.unknown 4)
    let load := ({ opcode := "ld" } : Instr).loading (.unknown 4)
    let s := Setup.straightLine { count := 1 } [store, load]
    ∃ b' g d, ({} : Builder).buildRegion s ⟨⟨0⟩, 0, 2⟩ none = .ok (b', g) ∧
      (.unit 0, .unit 1, d) ∈ g.edges ∧ d.kind = .order ∧ d.latency = storeLoadLatency := by
  intro store load s
  have hedge : ((({} : Builder).buildRegion s ⟨⟨0⟩, 0, 2⟩ none).map
      fun p => decide ((.unit 0, .unit 1, .order (.unit 0) 1) ∈ p.2.edges)) = .ok true := by cbv
  obtain ⟨⟨b', g⟩, h, he⟩ := exists_of_map_decide hedge
  refine ⟨b', g, _, h, he, rfl, ?_⟩
  exact ((order_latency .fresh h he rfl rfl rfl).resolve_left
    Timing.adjustsLatencyOnly_unit.not_reorders).1 (.inl (by decide))

/-- A volatile load does not wait for a store to private memory, which comes before it without
latency only. -/
theorem order_latency_of_private_store :
    let store := ({ opcode := "st" } : Instr).storing (.ofPrivate 7 0 4)
    let load := ({ opcode := "ld" } : Instr).loading { size := 4, isVolatile := true }
    let s := Setup.straightLine { count := 1 } [store, load]
    ∃ b' g, ({} : Builder).buildRegion s ⟨⟨0⟩, 0, 2⟩ none = .ok (b', g) ∧
      (.unit 0, .unit 1, .order (.unit 0) 0) ∈ g.edges ∧
      store.mayStore ∧ load.mayLoad ∧ (Dep.order (.unit 0) 0).latency ≠ storeLoadLatency := by
  intro store load s
  have hedge : ((({} : Builder).buildRegion s ⟨⟨0⟩, 0, 2⟩ none).map
      fun p => decide ((.unit 0, .unit 1, .order (.unit 0) 0) ∈ p.2.edges)) = .ok true := by cbv
  obtain ⟨⟨b', g⟩, h, he⟩ := exists_of_map_decide hedge
  exact ⟨b', g, h, he, rfl, rfl, by decide⟩

end Builder

end Precedence
