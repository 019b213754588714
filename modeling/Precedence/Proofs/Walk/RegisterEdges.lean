import Precedence.Proofs.Walk.Added
import Precedence.Proofs.Walk.Registers

/-!
The edges that register operands bring, exactly. A write leads to every node recorded for the storage
it shares, a read to every recorded write, and no operand leads anywhere else.
-/
namespace Precedence

/-- Node `n` is a unit that writes `reg`, and the order of its writes and of the write `o` matters. -/
def WriteMatters (units : List Instr) (o : RegOperand) (reg : Reg) (n : NodeId) : Prop :=
  ∃ y j, n = .unit y ∧ units[y]? = some j ∧ ¬(o.isDead ∧ j.defIsDead reg)

/-- The edges of a write in `su` to what a tracker has recorded for the registers of a list. -/
def writeEdges (units : List Instr) (su : Nat) (o : RegOperand) (t : Tracker) (shared : List Reg) :
    EdgeSet := fun p n k r =>
  p = .unit su ∧ n ≠ .unit su ∧ ∃ a ∈ shared, r = some a ∧
    ((k = .output ∧ n ∈ t.defs.nodesOf a ∧ WriteMatters units o a n) ∨
      (k = .data ∧ n ∈ t.uses.nodesOf a))

/-- The edges of a read in the same way. -/
def readEdges (su : Nat) (t : Tracker) (shared : List Reg) : EdgeSet := fun p n k r =>
  p = .unit su ∧ n ≠ .unit su ∧ n ≠ .exit ∧ k = .anti ∧
    ∃ a ∈ shared, r = some a ∧ n ∈ t.defs.nodesOf a

/-- The edges of a write of a virtual register to the reads that wait for it and to the nearest write
below. -/
def virtualWriteEdges (su : Nat) (reg : Reg) (r : RegState) : EdgeSet := fun p n k a =>
  p = .unit su ∧ n ≠ .unit su ∧ a = some reg ∧
    ((k = .data ∧ n ∈ (r.virtualUses.valueAt reg.virtualPosition).map Prod.fst) ∨
      (k = .output ∧ r.virtualDefs.valueAt reg.virtualPosition = some n))

/-- The edge of a read of a virtual register to the nearest write below. -/
def virtualReadEdges (su : Nat) (reg : Reg) (r : RegState) : EdgeSet := fun p n k a =>
  p = .unit su ∧ n ≠ .unit su ∧ n ≠ .exit ∧ a = some reg ∧ k = .anti ∧
    r.virtualDefs.valueAt reg.virtualPosition = some n

section

variable {s : Setup} {reads : LoopReads} {b : Block} {units : List Instr} {su pos : Nat} {i : Instr}
  {o : RegOperand} {t t' : Tracker} {r r' : RegState} {reg : Reg} {shared : List Reg}
  {d d' : Draft} {later : NodeId}

/-! Physical registers -/

theorem linkWrite_adds (hw : d.graph.Wraps b units)
    (h : linkWrite s b (.unit su) i pos o reg d later = .ok d') :
    d.graph.Adds d'.graph fun p n k r => p = .unit su ∧ n ≠ .unit su ∧ r = some reg ∧
      k = .output ∧ n = later ∧ WriteMatters units o reg later := by
  rcases linkWrite_cases h with ⟨rfl, hskip⟩ | ⟨hne, hexit, j, hj, hlive, h⟩
  · refine (Graph.Adds.none d'.graph).congr fun p n k r => ⟨False.elim, ?_⟩
    rintro ⟨-, hne, -, -, rfl, y, j, rfl, hj, hlive⟩
    rcases hskip with hself | hexit | hnone | ⟨u, hu, hdead⟩
    · exact hne hself
    · cases hexit
    · obtain ⟨u, ⟨⟩, -⟩ := hw.exists_instr hnone
    · obtain ⟨_, ⟨⟩, hu⟩ := hw.exists_instr hu
      obtain rfl := Option.some.inj (hu.symm.trans hj)
      exact hlive hdead
  · cases later with
    | exit => exact absurd rfl hexit
    | unit y =>
      obtain ⟨_, ⟨⟩, hu⟩ := hw.exists_instr hj
      refine (Draft.withDep_adds hw.linked h).congr fun p n k r => ⟨?_, ?_⟩
      · rintro ⟨rfl, rfl, rfl, rfl⟩
        exact ⟨rfl, hne, rfl, rfl, rfl, y, j, rfl, hu, hlive⟩
      · rintro ⟨rfl, -, rfl, rfl, rfl, -⟩
        exact ⟨rfl, rfl, rfl, rfl⟩

theorem linkRead_adds (ht : s.timing.AdjustsLatencyOnly) (hw : d.graph.Wraps b units)
    (h : linkRead s reads b (.unit su) pos reg d later = .ok d') :
    d.graph.Adds d'.graph fun p n k r =>
      p = .unit su ∧ n ≠ .unit su ∧ r = some reg ∧ k = .data ∧ n = later := by
  rcases linkRead_cases h with ⟨hself, rfl⟩ | ⟨hne, j, latency, -, -, h⟩
  · exact (Graph.Adds.none d'.graph).congr fun p n k r =>
      ⟨False.elim, fun ⟨_, hne, _, _, heq⟩ => hne (heq.trans hself)⟩
  · refine (Draft.addValue_adds ht hw.linked h).congr fun p n k r => ⟨?_, ?_⟩
    · rintro ⟨rfl, rfl, rfl, rfl⟩
      exact ⟨rfl, hne, rfl, rfl, rfl⟩
    · rintro ⟨rfl, -, rfl, rfl, rfl⟩
      exact ⟨rfl, rfl, rfl, rfl⟩

theorem linkOverwrite_adds (hw : d.graph.Wraps b units)
    (h : linkOverwrite (.unit su) reg d later = .ok d') :
    d.graph.Adds d'.graph fun p n k r =>
      p = .unit su ∧ n ≠ .unit su ∧ n ≠ .exit ∧ r = some reg ∧ k = .anti ∧ n = later := by
  rcases linkOverwrite_cases h with ⟨hskip, rfl⟩ | ⟨hne, hexit, h⟩
  · refine (Graph.Adds.none d'.graph).congr fun p n k r => ⟨False.elim, ?_⟩
    rintro ⟨-, hne, hexit, -, -, rfl⟩
    exact hskip.elim hne hexit
  · refine (Draft.withDep_adds hw.linked h).congr fun p n k r => ⟨?_, ?_⟩
    · rintro ⟨rfl, rfl, rfl, rfl⟩
      exact ⟨rfl, hne, hexit, rfl, rfl, rfl⟩
    · rintro ⟨rfl, -, -, rfl, rfl, rfl⟩
      exact ⟨rfl, rfl, rfl, rfl⟩

/-- A loop over everything recorded for several registers adds what is added for each node. -/
theorem foldlM_nodes_adds {m : RegNodes} {f : Reg → Draft → NodeId → Except Fault Draft}
    {new : Reg → NodeId → EdgeSet}
    (step : ∀ a n d d', d.graph.Wraps b units → f a d n = .ok d' →
      d.graph.Adds d'.graph (new a n))
    (hw : d.graph.Wraps b units)
    (h : shared.foldlM (fun d a => do
      let later ← m.get a
      later.foldlM (f a) d) d = .ok d') :
    d.graph.Adds d'.graph fun p n k r => ∃ a ∈ shared, ∃ later ∈ m.nodesOf a, new a later p n k r := by
  refine Draft.foldlM_adds (fun a _ e e' he h => ?_) hw h
  simp only [bind_eq_ok] at h
  obtain ⟨nodes, hnodes, h⟩ := h
  obtain rfl := RegNodes.get_ok hnodes
  exact Draft.foldlM_adds (fun n _ => step a n) he h

theorem writePhysical_adds (ht : s.timing.AdjustsLatencyOnly) (hw : d.graph.Wraps b units)
    (hs : t.Sound) (h : writePhysical s reads b (.unit su) i pos o t d = .ok (t', d')) :
    Tracker.Hides (.unit su) i.isCall o t t' ∧ ∃ shared, s.regs.overlaps o.reg = .ok shared ∧
      d.graph.Adds d'.graph (writeEdges units su o t shared) := by
  simp only [writePhysical, bind_eq_ok, pure_eq_ok, Prod.mk.injEq] at h
  obtain ⟨shared, hshared, d₁, h₁, d₂, h₂, t₂, hhide, rfl, rfl⟩ := h
  have hadds₁ := foldlM_nodes_adds (fun a n e e' he h => linkWrite_adds he h) hw h₁
  have hadds₂ := foldlM_nodes_adds (fun a n e e' he h => linkRead_adds ht he h)
    (hw.grows hadds₁.grows) h₂
  refine ⟨Tracker.hide_ok hs hhide, shared, hshared,
    (hadds₁.trans hadds₂).congr fun p n k r => ⟨?_, ?_⟩⟩
  · rintro (⟨a, ha, n, hn, rfl, hne, rfl, rfl, rfl, hm⟩ | ⟨a, ha, n, hn, rfl, hne, rfl, rfl, rfl⟩)
    · exact ⟨rfl, hne, a, ha, rfl, .inl ⟨rfl, hn, hm⟩⟩
    · exact ⟨rfl, hne, a, ha, rfl, .inr ⟨rfl, hn⟩⟩
  · rintro ⟨rfl, hne, a, ha, rfl, ⟨rfl, hn, hm⟩ | ⟨rfl, hn⟩⟩
    · exact .inl ⟨a, ha, n, hn, rfl, hne, rfl, rfl, rfl, hm⟩
    · exact .inr ⟨a, ha, n, hn, rfl, hne, rfl, rfl, rfl⟩

theorem readPhysical_adds (hw : d.graph.Wraps b units) (hs : t.Sound)
    (h : readPhysical s (.unit su) reg t d = .ok (t', d')) :
    (t'.defs = t.defs ∧
      t'.uses.nodesOf = Function.update t.uses.nodesOf reg (t.uses.nodesOf reg ++ [.unit su])) ∧
    ∃ shared, s.regs.overlaps reg = .ok shared ∧
      d.graph.Adds d'.graph (readEdges su t shared) := by
  simp only [readPhysical, bind_eq_ok, pure_eq_ok, Prod.mk.injEq] at h
  obtain ⟨shared, hshared, d₁, h₁, t₁, ht, rfl, rfl⟩ := h
  refine ⟨(Tracker.recordUse_ok hs ht).2, shared, hshared,
    (foldlM_nodes_adds (fun a n e e' he h => linkOverwrite_adds he h) hw h₁).congr
      fun p n k r => ⟨?_, ?_⟩⟩
  · rintro ⟨a, ha, n, hn, rfl, hne, hexit, rfl, rfl, rfl⟩
    exact ⟨rfl, hne, hexit, rfl, a, ha, rfl, hn⟩
  · rintro ⟨rfl, hne, hexit, rfl, a, ha, rfl, hn⟩
    exact ⟨a, ha, n, hn, rfl, hne, hexit, rfl, rfl, rfl⟩

/-! Virtual registers -/

theorem linkWaiting_adds {waiting : NodeId × Nat} (ht : s.timing.AdjustsLatencyOnly)
    (hw : d.graph.Wraps b units)
    (h : linkWaiting s reads (.unit su) pos reg d waiting = .ok d') :
    d.graph.Adds d'.graph fun p n k r =>
      p = .unit su ∧ n ≠ .unit su ∧ r = some reg ∧ k = .data ∧ n = waiting.1 := by
  rcases linkWaiting_cases h with ⟨hself, rfl⟩ | ⟨hne, n, -, h⟩
  · exact (Graph.Adds.none d'.graph).congr fun p n k r =>
      ⟨False.elim, fun ⟨_, hne, _, _, heq⟩ => hne (heq.trans hself)⟩
  · refine (Draft.addValue_adds ht hw.linked h).congr fun p n k r => ⟨?_, ?_⟩
    · rintro ⟨rfl, rfl, rfl, rfl⟩
      exact ⟨rfl, hne, rfl, rfl, rfl⟩
    · rintro ⟨rfl, -, rfl, rfl, rfl⟩
      exact ⟨rfl, rfl, rfl, rfl⟩

theorem linkNearest_adds {nearest : Option NodeId} (hw : d.graph.Wraps b units)
    (hunit : nearest ≠ some .exit)
    (h : linkNearest s b (.unit su) i pos reg nearest d = .ok d') :
    d.graph.Adds d'.graph fun p n k r =>
      p = .unit su ∧ n ≠ .unit su ∧ r = some reg ∧ k = .output ∧ nearest = some n := by
  rcases linkNearest_cases h with ⟨rfl, hskip⟩ | ⟨later, j, rfl, hne, -, h⟩
  · refine (Graph.Adds.none d'.graph).congr fun p n k r => ⟨False.elim, ?_⟩
    rintro ⟨-, hne, -, -, hn⟩
    rcases hskip n hn with hself | hnone
    · exact hne hself
    · cases n with
      | exit => exact hunit hn
      | unit y => obtain ⟨u, ⟨⟩, -⟩ := hw.exists_instr hnone
  · refine (Draft.withDep_adds hw.linked h).congr fun p n k r => ⟨?_, ?_⟩
    · rintro ⟨rfl, rfl, rfl, rfl⟩
      exact ⟨rfl, hne, rfl, rfl, rfl⟩
    · rintro ⟨rfl, -, rfl, rfl, heq⟩
      exact ⟨rfl, (Option.some.inj heq).symm, rfl, rfl⟩

/-- What a write of a virtual register does to the maps. -/
structure VirtualWritten (n : NodeId) (reg : Reg) (r r' : RegState) : Prop where
  tracker : r'.tracker = r.tracker
  uses : r'.virtualUses.valueAt = Function.update r.virtualUses.valueAt reg.virtualPosition []
  defs : r'.virtualDefs.valueAt = Function.update r.virtualDefs.valueAt reg.virtualPosition (some n)

theorem writeVirtual_adds (ht : s.timing.AdjustsLatencyOnly) (hw : d.graph.Wraps b units)
    (hr : r.Sound) (hunit : r.virtualDefs.valueAt reg.virtualPosition ≠ some .exit)
    (h : writeVirtual s reads b (.unit su) i pos reg reg.virtualPosition r d = .ok (r', d')) :
    VirtualWritten (.unit su) reg r r' ∧
      d.graph.Adds d'.graph (virtualWriteEdges su reg r) := by
  simp only [writeVirtual, bind_eq_ok, pure_eq_ok, Prod.mk.injEq, Prod.exists] at h
  obtain ⟨waiting, uses, huses, d₁, h₁, uses', huses', nearest, defs, hdefs, d₂, h₂, defs',
    hdefs', rfl, rfl⟩ := h
  obtain ⟨hus, -, huv, rfl⟩ := SparseMap.fetch_ok hr.virtualUses huses
  obtain ⟨-, -, huv'⟩ := SparseMap.alter_ok hus huses'
  obtain ⟨hds, -, hdv, rfl⟩ := SparseMap.fetch_ok hr.virtualDefs hdefs
  obtain ⟨-, -, hdv'⟩ := SparseMap.alter_ok hds hdefs'
  have hadds₁ := Draft.foldlM_adds (fun e _ d d' hd h => linkWaiting_adds ht hd h) hw h₁
  have hadds₂ := linkNearest_adds (hw.grows hadds₁.grows) hunit h₂
  refine ⟨⟨rfl, by rw [← huv, huv'], by rw [← hdv, hdv']⟩,
    (hadds₁.trans hadds₂).congr fun p n k a => ⟨?_, ?_⟩⟩
  · rintro (⟨e, he, rfl, hne, rfl, rfl, rfl⟩ | ⟨rfl, hne, rfl, rfl, hn⟩)
    · exact ⟨rfl, hne, rfl, .inl ⟨rfl, List.mem_map_of_mem he⟩⟩
    · exact ⟨rfl, hne, rfl, .inr ⟨rfl, hn⟩⟩
  · rintro ⟨rfl, hne, rfl, ⟨rfl, hn⟩ | ⟨rfl, hn⟩⟩
    · obtain ⟨e, he, rfl⟩ := List.mem_map.mp hn
      exact .inl ⟨e, he, rfl, hne, rfl, rfl, rfl⟩
    · exact .inr ⟨rfl, hne, rfl, rfl, hn⟩

theorem readVirtual_adds (hw : d.graph.Wraps b units) (hr : r.Sound)
    (h : readVirtual (.unit su) pos reg reg.virtualPosition r d = .ok (r', d')) :
    (∃ uses, r' = { r with virtualUses := uses } ∧ uses.valueAt = Function.update
      r.virtualUses.valueAt reg.virtualPosition
      (r.virtualUses.valueAt reg.virtualPosition ++ [(.unit su, pos)])) ∧
    d.graph.Adds d'.graph (virtualReadEdges su reg r) := by
  simp only [readVirtual, bind_eq_ok, pure_eq_ok, Prod.mk.injEq] at h
  obtain ⟨d₁, h₁, uses, huses, rfl, rfl⟩ := h
  obtain ⟨-, -, huv⟩ := SparseMap.alter_ok hr.virtualUses huses
  have hvalue : ∀ n, n ∈ (r.virtualDefs.get? reg.virtualPosition).join.toList ↔
      r.virtualDefs.valueAt reg.virtualPosition = some n := by
    intro n
    rw [SparseMap.valueAt, Option.mem_toList]
    cases r.virtualDefs.get? reg.virtualPosition with
    | none => exact Iff.rfl
    | some v => exact Iff.rfl
  refine ⟨⟨uses, rfl, huv⟩, (Draft.foldlM_adds (fun n _ d d' hd h => linkOverwrite_adds hd h) hw
    h₁).congr fun p n k a => ⟨?_, ?_⟩⟩
  · rintro ⟨n, hn, rfl, hne, hexit, rfl, rfl, rfl⟩
    exact ⟨rfl, hne, hexit, rfl, rfl, (hvalue n).mp hn⟩
  · rintro ⟨rfl, hne, hexit, rfl, rfl, hn⟩
    exact ⟨n, (hvalue n).mpr hn, rfl, hne, hexit, rfl, rfl, rfl⟩

/-! Operands of any kind -/

/-- Physical registers alone have their nodes recorded in the tracker, and the nearest write of a
virtual register is a unit. -/
structure RegState.Tidy (s : Setup) (r : RegState) : Prop where
  defs : ∀ a, ¬s.regs.isPhysical a → r.tracker.defs.nodesOf a = []
  uses : ∀ a, ¬s.regs.isPhysical a → r.tracker.uses.nodesOf a = []
  nearest : ∀ key, r.virtualDefs.valueAt key ≠ some .exit

/-- What a written operand `o` of unit `su` has done. -/
inductive OperandWritten (s : Setup) (units : List Instr) (su : Nat) (i : Instr) (o : RegOperand)
    (p q : RegState × Draft) : Prop
  | physical (plain : s.regs.isPhysical o.reg) (t : Tracker) (shared : List Reg)
      (overlaps : s.regs.overlaps o.reg = .ok shared)
      (hides : Tracker.Hides (.unit su) i.isCall o p.1.tracker t)
      (regs : q.1 = { p.1 with tracker := t })
      (adds : p.2.graph.Adds q.2.graph (writeEdges units su o p.1.tracker shared))
  | virtual (plain : ¬s.regs.isPhysical o.reg) (isVirtual : o.reg.isVirtual)
      (written : VirtualWritten (.unit su) o.reg p.1 q.1)
      (adds : p.2.graph.Adds q.2.graph (virtualWriteEdges su o.reg p.1))
  | unknown (plain : ¬s.regs.isPhysical o.reg) (notVirtual : ¬o.reg.isVirtual) (same : q = p)

/-- What a read operand `o` of unit `su`, at `pos`, has done. -/
inductive OperandRead (s : Setup) (su : Nat) (pos : Nat) (o : RegOperand)
    (p q : RegState × Draft) : Prop
  | physical (plain : s.regs.isPhysical o.reg) (t : Tracker) (shared : List Reg)
      (overlaps : s.regs.overlaps o.reg = .ok shared) (defs : t.defs = p.1.tracker.defs)
      (uses : t.uses.nodesOf = Function.update p.1.tracker.uses.nodesOf o.reg
        (p.1.tracker.uses.nodesOf o.reg ++ [.unit su]))
      (regs : q.1 = { p.1 with tracker := t })
      (adds : p.2.graph.Adds q.2.graph (readEdges su p.1.tracker shared))
  | virtual (plain : ¬s.regs.isPhysical o.reg) (isVirtual : o.reg.isVirtual)
      (uses : SparseMap (List (NodeId × Nat))) (regs : q.1 = { p.1 with virtualUses := uses })
      (values : uses.valueAt = Function.update p.1.virtualUses.valueAt o.reg.virtualPosition
        (p.1.virtualUses.valueAt o.reg.virtualPosition ++ [(.unit su, pos)]))
      (adds : p.2.graph.Adds q.2.graph (virtualReadEdges su o.reg p.1))
  | unknown (plain : ¬s.regs.isPhysical o.reg) (notVirtual : ¬o.reg.isVirtual) (same : q = p)

theorem writeOperand_cases (ht : s.timing.AdjustsLatencyOnly) (hw : d.graph.Wraps b units)
    (hr : r.Sound) (htidy : r.Tidy s)
    (h : writeOperand s reads b (.unit su) i pos o r d = .ok (r', d')) :
    OperandWritten s units su i o (r, d) (r', d') := by
  simp only [writeOperand, bind_eq_ok] at h
  obtain ⟨c, hc, h⟩ := h
  rcases Setup.classify_cases hc with ⟨rfl, hp⟩ | ⟨rfl, hp, hv⟩ | ⟨rfl, hp, hv⟩
  · simp only [bind_eq_ok, pure_eq_ok, Prod.exists, Prod.mk.injEq] at h
    obtain ⟨t, d₁, h, rfl, rfl⟩ := h
    obtain ⟨hhides, shared, hshared, hadds⟩ := writePhysical_adds ht hw hr.tracker h
    exact .physical hp t shared hshared hhides rfl hadds
  · obtain ⟨hwritten, hadds⟩ := writeVirtual_adds ht hw hr (htidy.nearest _) h
    exact .virtual hp hv hwritten hadds
  · cases h
    exact .unknown hp hv rfl

theorem readOperand_cases (hw : d.graph.Wraps b units) (hr : r.Sound)
    (h : readOperand s (.unit su) pos o r d = .ok (r', d')) :
    OperandRead s su pos o (r, d) (r', d') := by
  simp only [readOperand, bind_eq_ok] at h
  obtain ⟨c, hc, h⟩ := h
  rcases Setup.classify_cases hc with ⟨rfl, hp⟩ | ⟨rfl, hp, hv⟩ | ⟨rfl, hp, hv⟩
  · simp only [bind_eq_ok, pure_eq_ok, Prod.exists, Prod.mk.injEq] at h
    obtain ⟨t, d₁, h, rfl, rfl⟩ := h
    obtain ⟨⟨hdefs, huses⟩, shared, hshared, hadds⟩ := readPhysical_adds hw hr.tracker h
    exact .physical hp t shared hshared hdefs huses rfl hadds
  · obtain ⟨⟨uses, hregs, hvalues⟩, hadds⟩ := readVirtual_adds hw hr h
    exact .virtual hp hv uses hregs hvalues hadds
  · cases h
    exact .unknown hp hv rfl

theorem OperandWritten.tidy {p q : RegState × Draft} (h : OperandWritten s units su i o p q)
    (htidy : p.1.Tidy s) : q.1.Tidy s := by
  cases h with
  | physical hp t shared _ hhides hregs _ =>
    rw [hregs]
    have hne : ∀ a, ¬s.regs.isPhysical a → a ≠ o.reg := fun a ha heq => ha (heq ▸ hp)
    refine ⟨fun a ha => ?_, fun a ha => ?_, htidy.nearest⟩
    · exact (hhides.other a (hne a ha)).trans (htidy.defs a ha)
    · rw [hhides.uses, Function.update_of_ne (hne a ha)]
      exact htidy.uses a ha
  | virtual _ _ hwritten _ =>
    refine ⟨fun a ha => ?_, fun a ha => ?_, fun key => ?_⟩
    · exact hwritten.tracker ▸ htidy.defs a ha
    · exact hwritten.tracker ▸ htidy.uses a ha
    · rw [hwritten.defs]
      by_cases hkey : key = o.reg.virtualPosition
      · simp [hkey]
      · rw [Function.update_of_ne hkey]
        exact htidy.nearest key
  | unknown _ _ hsame => exact hsame ▸ htidy

/-! What is known of one register, be it physical or virtual -/

/-- The registers that the walk keeps track of. -/
def Setup.Tracks (s : Setup) (a : Reg) : Prop := s.regs.isPhysical a ∨ a.isVirtual

/-- The nodes that read a register and that no write hides. -/
def RegState.readers (s : Setup) (r : RegState) (a : Reg) : List NodeId :=
  if s.regs.isPhysical a then r.tracker.uses.nodesOf a
  else (r.virtualUses.valueAt a.virtualPosition).map Prod.fst

/-- The nodes that write a register and that no write hides. -/
def RegState.writers (s : Setup) (r : RegState) (a : Reg) : List NodeId :=
  if s.regs.isPhysical a then r.tracker.defs.nodesOf a
  else (r.virtualDefs.valueAt a.virtualPosition).toList

theorem Reg.virtualPosition_inj {a a' : Reg} (h : a.isVirtual) (h' : a'.isVirtual)
    (heq : a.virtualPosition = a'.virtualPosition) : a = a' := by
  simp only [isVirtual, decide_eq_true_eq] at h h'
  simp only [virtualPosition] at heq
  exact Reg.number_inj.mp (by omega)

/-- Node `n` has become a reader of some registers, and nothing else is new. -/
structure ReadBy (s : Setup) (n : NodeId) (new : Reg → Prop) (r r' : RegState) : Prop where
  defs : r'.tracker.defs = r.tracker.defs
  virtualDefs : r'.virtualDefs = r.virtualDefs
  tidy : r.Tidy s → r'.Tidy s
  readers : ∀ a, s.Tracks a → ∀ m, m ∈ r'.readers s a ↔ m ∈ r.readers s a ∨ (m = n ∧ new a)

namespace ReadBy

variable {n : NodeId} {new new' : Reg → Prop} {r'' : RegState}

theorem nothing (s : Setup) (n : NodeId) (r : RegState) : ReadBy s n (fun _ => False) r r :=
  ⟨rfl, rfl, id, by simp⟩

theorem congr (h : ReadBy s n new r r') (heq : ∀ a, s.Tracks a → (new a ↔ new' a)) :
    ReadBy s n new' r r' :=
  ⟨h.defs, h.virtualDefs, h.tidy, fun a ha m => by rw [h.readers a ha, heq a ha]⟩

theorem trans (h : ReadBy s n new r r') (h' : ReadBy s n new' r' r'') :
    ReadBy s n (fun a => new a ∨ new' a) r r'' :=
  ⟨h'.defs.trans h.defs, h'.virtualDefs.trans h.virtualDefs, fun ht => h'.tidy (h.tidy ht),
    fun a ha m => by rw [h'.readers a ha, h.readers a ha, and_or_left, or_assoc]⟩

theorem writers (h : ReadBy s n new r r') (a : Reg) : r'.writers s a = r.writers s a := by
  rw [RegState.writers, RegState.writers, h.defs, h.virtualDefs]

/-- A loop over operands makes `n` a reader of what the rounds make it a reader of. -/
theorem of_rounds {α β : Type} {R : α → β → β → Prop} {l : List α} {p q : β}
    (regs : β → RegState) (new : α → Reg → Prop)
    (round : ∀ e u v, R e u v → ReadBy s n (new e) (regs u) (regs v)) (h : Rounds R l p q) :
    ReadBy s n (fun a => ∃ e ∈ l, new e a) (regs p) (regs q) := by
  induction h with
  | nil p => exact (ReadBy.nothing s n (regs p)).congr (by simp)
  | cons first _ ih => exact ((round _ _ _ first).trans ih).congr (by simp)

theorem of_foldlM {α : Type} {f : RegState → α → Except Fault RegState} {l : List α}
    {new : α → Reg → Prop}
    (step : ∀ e ∈ l, ∀ u u' : RegState, u.Sound → f u e = .ok u' → u'.Sound ∧ ReadBy s n (new e) u u')
    (hr : r.Sound) (h : l.foldlM f r = .ok r') :
    r'.Sound ∧ ReadBy s n (fun a => ∃ e ∈ l, new e a) r r' := by
  obtain ⟨hsound, hrounds⟩ := rounds_of_foldlM RegState.Sound step hr h
  exact ⟨hsound, of_rounds id new (fun _ _ _ hread => hread) hrounds⟩

/-- A physical register has one more reader. -/
theorem of_tracker (hp : s.regs.isPhysical reg) (hdefs : t.defs = r.tracker.defs)
    (huses : ∀ a m, m ∈ t.uses.nodesOf a ↔ m ∈ r.tracker.uses.nodesOf a ∨ (a = reg ∧ m = n)) :
    ReadBy s n (· = reg) r { r with tracker := t } := by
  refine ⟨hdefs, rfl, fun ht => ⟨fun a ha => ?_, fun a ha => ?_, ht.nearest⟩, fun a ha m => ?_⟩
  · exact hdefs ▸ ht.defs a ha
  · rw [List.eq_nil_iff_forall_not_mem]
    rintro m hm
    rcases (huses a m).mp hm with hm | ⟨rfl, -⟩
    · simp [ht.uses a ha] at hm
    · exact ha hp
  · by_cases hpa : s.regs.isPhysical a
    · simp only [RegState.readers, if_pos hpa, huses, and_comm]
    · have hne : a ≠ reg := fun heq => hpa (heq ▸ hp)
      simp [RegState.readers, hpa, hne]

/-- A virtual register has one more reader. -/
theorem of_virtual {uses : SparseMap (List (NodeId × Nat))} (hp : ¬s.regs.isPhysical reg)
    (hv : reg.isVirtual)
    (huses : uses.valueAt = Function.update r.virtualUses.valueAt reg.virtualPosition
      (r.virtualUses.valueAt reg.virtualPosition ++ [(n, pos)])) :
    ReadBy s n (· = reg) r { r with virtualUses := uses } := by
  refine ⟨rfl, rfl, fun ht => ⟨ht.defs, ht.uses, ht.nearest⟩, fun a ha m => ?_⟩
  by_cases hpa : s.regs.isPhysical a
  · have hne : a ≠ reg := fun heq => hp (heq ▸ hpa)
    simp [RegState.readers, hpa, hne]
  · simp only [RegState.readers, if_neg hpa, huses]
    by_cases heq : a = reg
    · subst heq
      simp
    · have hpos : a.virtualPosition ≠ reg.virtualPosition :=
        fun h => heq (Reg.virtualPosition_inj (ha.resolve_left hpa) hv h)
      simp [hpos, heq]

end ReadBy

theorem OperandRead.readBy {p q : RegState × Draft} (h : OperandRead s su pos o p q) :
    ReadBy s (.unit su) (· = o.reg) p.1 q.1 := by
  cases h with
  | physical hp t shared _ hdefs huses hregs _ =>
    rw [hregs]
    refine .of_tracker hp hdefs fun a m => ?_
    by_cases ha : a = o.reg
    · subst ha
      simp [huses]
    · simp [huses, ha]
  | virtual hp hv uses hregs hvalues _ =>
    rw [hregs]
    exact .of_virtual hp hv hvalues
  | unknown hp hv hsame =>
    rw [hsame]
    refine (ReadBy.nothing s _ p.1).congr fun a ha => ⟨False.elim, ?_⟩
    rintro rfl
    exact ha.elim hp hv

/-- A write hides the readers of its register. -/
theorem OperandWritten.readers {p q : RegState × Draft} (h : OperandWritten s units su i o p q)
    {a : Reg} (ha : s.Tracks a) :
    q.1.readers s a = if a = o.reg then [] else p.1.readers s a := by
  cases h with
  | physical hp t shared _ hhides hregs _ =>
    rw [hregs]
    by_cases hpa : s.regs.isPhysical a
    · simp only [RegState.readers, if_pos hpa, hhides.uses, Function.update_apply]
    · have hne : a ≠ o.reg := fun heq => hpa (heq ▸ hp)
      simp [RegState.readers, hpa, hne]
  | virtual hp hv hwritten _ =>
    by_cases hpa : s.regs.isPhysical a
    · have hne : a ≠ o.reg := fun heq => hp (heq ▸ hpa)
      simp [RegState.readers, hpa, hne, hwritten.tracker]
    · simp only [RegState.readers, if_neg hpa, hwritten.uses]
      by_cases heq : a = o.reg
      · simp [heq]
      · have hpos : a.virtualPosition ≠ o.reg.virtualPosition :=
          fun h => heq (Reg.virtualPosition_inj (ha.resolve_left hpa) hv h)
        simp [hpos, heq]
  | unknown hp hv hsame =>
    rw [hsame, if_neg]
    rintro rfl
    exact ha.elim hp hv

/-- No writers but the unit at hand are new. -/
theorem OperandWritten.writers {p q : RegState × Draft} (h : OperandWritten s units su i o p q)
    {a : Reg} (ha : s.Tracks a) {m : NodeId} (hm : m ∈ q.1.writers s a) :
    (m = .unit su ∧ a = o.reg) ∨ m ∈ p.1.writers s a := by
  cases h with
  | physical hp t shared _ hhides hregs _ =>
    rw [hregs] at hm
    by_cases hpa : s.regs.isPhysical a
    · simp only [RegState.writers, if_pos hpa] at hm ⊢
      by_cases heq : a = o.reg
      · subst heq
        exact (hhides.only m hm).imp_left fun hm => ⟨hm, rfl⟩
      · exact .inr (hhides.other a heq ▸ hm)
    · right
      simpa [RegState.writers, hpa] using hm
  | virtual hp hv hwritten _ =>
    by_cases hpa : s.regs.isPhysical a
    · simp only [RegState.writers, if_pos hpa, hwritten.tracker] at hm ⊢
      exact .inr hm
    · simp only [RegState.writers, if_neg hpa, hwritten.defs] at hm ⊢
      by_cases hpos : a.virtualPosition = o.reg.virtualPosition
      · have heq := Reg.virtualPosition_inj (ha.resolve_left hpa) hv hpos
        left
        simpa [hpos, heq] using hm
      · rw [Function.update_of_ne hpos] at hm
        exact .inr hm
  | unknown hp hv hsame => exact .inr (hsame ▸ hm)

/-- The walk knows that node `m` reads or writes a register. -/
def RegState.Knows (s : Setup) (r : RegState) (a : Reg) (m : NodeId) : Prop :=
  m ∈ r.readers s a ∨ m ∈ r.writers s a

theorem RegState.Tidy.isPhysical {r : RegState} (ht : r.Tidy s) {a : Reg} {m : NodeId}
    (h : m ∈ r.tracker.uses.nodesOf a ∨ m ∈ r.tracker.defs.nodesOf a) : s.regs.isPhysical a := by
  by_contra hp
  rcases h with h | h
  · simp [ht.uses a hp] at h
  · simp [ht.defs a hp] at h

theorem RegState.Tidy.knows {r : RegState} (ht : r.Tidy s) {a : Reg} {m : NodeId}
    (h : m ∈ r.tracker.uses.nodesOf a ∨ m ∈ r.tracker.defs.nodesOf a) :
    s.Tracks a ∧ r.Knows s a m := by
  have hp := ht.isPhysical h
  simpa [Setup.Tracks, Knows, readers, writers, hp] using h

/-- The edges from unit `su` to what is known of registers. -/
def knownEdges (s : Setup) (su : Nat) (r : RegState) : EdgeSet := fun p n k a =>
  p = .unit su ∧ n ≠ .unit su ∧ k ≠ .order ∧ ∃ reg, a = some reg ∧ s.Tracks reg ∧ r.Knows s reg n

/-- Unit `su` has been put before what is known of registers at most, and nothing but `su` itself
has become known. -/
structure JoinsKnown (s : Setup) (su : Nat) (p q : RegState × Draft) : Prop where
  tidy : q.1.Tidy s
  knows : ∀ a, s.Tracks a → ∀ m, q.1.Knows s a m → m = .unit su ∨ p.1.Knows s a m
  adds : p.2.graph.AddsOnly q.2.graph (knownEdges s su p.1)

theorem JoinsKnown.refl {p : RegState × Draft} (ht : p.1.Tidy s) : JoinsKnown s su p p :=
  ⟨ht, fun _ _ _ => .inr, .refl _ _⟩

theorem JoinsKnown.trans {p q u : RegState × Draft} (h : JoinsKnown s su p q)
    (h' : JoinsKnown s su q u) : JoinsKnown s su p u := by
  refine ⟨h'.tidy, fun a ha m hm => ?_, h.adds.trans (h'.adds.mono ?_)⟩
  · exact (h'.knows a ha m hm).elim .inl (h.knows a ha m)
  · rintro x n k r ⟨rfl, hne, hk, a, rfl, ha, hn⟩
    exact ⟨rfl, hne, hk, a, rfl, ha, (h.knows a ha n hn).resolve_left hne⟩

theorem OperandWritten.joins {p q : RegState × Draft} (h : OperandWritten s units su i o p q)
    (ht : p.1.Tidy s) : JoinsKnown s su p q := by
  refine ⟨h.tidy ht, fun a ha m hm => ?_, ?_⟩
  · rcases hm with hm | hm
    · rw [h.readers ha] at hm
      split at hm
      · cases hm
      · exact .inr (.inl hm)
    · exact (h.writers ha hm).imp And.left .inr
  · cases h with
    | physical _ t shared _ _ _ hadds =>
      refine hadds.only.mono ?_
      rintro x n k r ⟨rfl, hne, a, -, rfl, ⟨rfl, hn, -⟩ | ⟨rfl, hn⟩⟩
      · exact ⟨rfl, hne, nofun, a, rfl, ht.knows (.inr hn)⟩
      · exact ⟨rfl, hne, nofun, a, rfl, ht.knows (.inl hn)⟩
    | virtual hp hv _ hadds =>
      refine hadds.only.mono ?_
      rintro x n k r ⟨rfl, hne, rfl, ⟨rfl, hn⟩ | ⟨rfl, hn⟩⟩
      · exact ⟨rfl, hne, nofun, _, rfl, .inr hv, .inl (by rwa [RegState.readers, if_neg hp])⟩
      · exact ⟨rfl, hne, nofun, _, rfl, .inr hv, .inr (by simpa [RegState.writers, hp] using hn)⟩
    | unknown _ _ hsame => exact hsame ▸ .refl _ _

theorem OperandRead.joins {p q : RegState × Draft} (h : OperandRead s su pos o p q)
    (ht : p.1.Tidy s) : JoinsKnown s su p q := by
  have hread := h.readBy
  refine ⟨hread.tidy ht, fun a ha m hm => ?_, ?_⟩
  · rw [RegState.Knows, hread.readers a ha, hread.writers] at hm
    rcases hm with (hm | ⟨hm, -⟩) | hm
    · exact .inr (.inl hm)
    · exact .inl hm
    · exact .inr (.inr hm)
  · cases h with
    | physical _ t shared _ _ _ _ hadds =>
      refine hadds.only.mono ?_
      rintro x n k r ⟨rfl, hne, -, rfl, a, -, rfl, hn⟩
      exact ⟨rfl, hne, nofun, a, rfl, ht.knows (.inr hn)⟩
    | virtual hp hv _ _ _ hadds =>
      refine hadds.only.mono ?_
      rintro x n k r ⟨rfl, hne, -, rfl, rfl, hn⟩
      exact ⟨rfl, hne, nofun, _, rfl, .inr hv, .inr (by simpa [RegState.writers, hp] using hn)⟩
    | unknown _ _ hsame => exact hsame ▸ .refl _ _

/-- An instruction links its written operands one after the other, and then its read operands. -/
theorem addRegisterDeps_rounds (ht : s.timing.AdjustsLatencyOnly) (hw : d.graph.Wraps b units)
    (hr : r.Sound) (htidy : r.Tidy s) (hi : units[su]? = some i)
    (h : addRegisterDeps s reads b (.unit su) i r d = .ok (r', d')) :
    r'.Tidy s ∧ ∃ p, Rounds (fun e => OperandWritten s units su i e.2) i.defOperands (r, d) p ∧
      Rounds (fun e => OperandRead s su e.1 e.2) i.useOperands p (r', d') := by
  simp only [addRegisterDeps, bind_eq_ok] at h
  obtain ⟨p, hdefs, huses⟩ := h
  obtain ⟨⟨hpw, hpr, hpt⟩, hwritten⟩ := rounds_of_foldlM
    (fun p : RegState × Draft => p.2.graph.Wraps b units ∧ p.1.Sound ∧ p.1.Tidy s)
    (R := fun e => OperandWritten s units su i e.2) (fun e he u v hu hf => by
      obtain ⟨huw, hus, hut⟩ := hu
      have hstep := writeOperand_ok (r := u.1) (d := u.2) huw hus hi he hf
      have hcases := writeOperand_cases (r := u.1) (d := u.2) ht huw hus hut hf
      exact ⟨⟨huw.grows hstep.keeps.grows, hstep.sound, hcases.tidy hut⟩, hcases⟩)
    ⟨hw, hr, htidy⟩ hdefs
  obtain ⟨⟨-, -, htidy'⟩, hread⟩ := rounds_of_foldlM
    (fun p : RegState × Draft => p.2.graph.Wraps b units ∧ p.1.Sound ∧ p.1.Tidy s)
    (R := fun e => OperandRead s su e.1 e.2) (fun e he u v hu hf => by
      obtain ⟨huw, hus, hut⟩ := hu
      have hstep : OperandStep s units su i e.2 u v :=
        readOperand_ok huw hus (List.mem_filter.mp he).2 hf
      have hcases := readOperand_cases (r := u.1) (d := u.2) huw hus hf
      exact ⟨⟨huw.grows hstep.keeps.grows, hstep.sound, hcases.readBy.tidy hut⟩, hcases⟩)
    ⟨hpw, hpr, hpt⟩ huses
  exact ⟨htidy', p, hwritten, hread⟩

end

end Precedence
