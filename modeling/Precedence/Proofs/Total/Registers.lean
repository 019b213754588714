import Precedence.Build.Walk
import Precedence.Proofs.Sparse.Holding
import Precedence.Proofs.Total.Memory
import Precedence.Proofs.Walk.Lockstep

/-!
Registers and barriers always get to their end. The registers of a function that is well formed have
their places in the maps of the walk, all that is recorded there are nodes of the graph, and every
latency has room for the cycles that an address costs.
-/
namespace Precedence

/-- A register that operands may name: a physical one of the target, or a virtual one that is in use
and not allocated yet. -/
structure Setup.Knows (s : Setup) (reg : Reg) : Prop where
  physical : s.regs.isPhysical reg → reg.number < s.regs.count
  virtual : reg.isVirtual →
    s.options.afterAllocation = false ∧ reg.virtualPosition < s.func.virtualCount

instance (s : Setup) (reg : Reg) : Decidable (s.Knows reg) :=
  decidable_of_iff ((s.regs.isPhysical reg → reg.number < s.regs.count) ∧
    (reg.isVirtual → s.options.afterAllocation = false ∧ reg.virtualPosition < s.func.virtualCount))
    ⟨fun h => ⟨h.1, h.2⟩, fun h => ⟨h.physical, h.virtual⟩⟩

/-- What a target must promise for edges to be added: refinement leaves their ends alone, latencies
have room for an address, and what shares storage with one of its registers is one of them. -/
structure Setup.Bounded (s : Setup) : Prop where
  adjusts : s.timing.AdjustsLatencyOnly
  latency : ∀ i, s.timing.instrLatency i + s.timing.addressLatency < 0x100000000
  overlaps : ∀ reg, reg.number < s.regs.count →
    Returns (s.regs.overlaps reg) fun shared => ∀ reg' ∈ shared, reg'.number < s.regs.count

theorem RegisterFile.overlaps_returns (f : RegisterFile) {reg : Reg} (h : reg.number < f.count) :
    Returns (f.overlaps reg) fun shared => ∀ reg' ∈ shared, reg'.number < f.count := by
  rw [RegisterFile.overlaps, if_pos h]
  refine .ok fun reg' hmem => ?_
  rcases List.mem_cons.mp hmem with rfl | hmem
  · exact h
  · obtain ⟨p, hp, hpartner⟩ := List.mem_filterMap.mp (List.mem_eraseDups.mp hmem)
    unfold partner at hpartner
    split at hpartner
    · exact Option.some.inj hpartner ▸ (f.shared_lt p hp).2
    · split at hpartner
      · exact Option.some.inj hpartner ▸ (f.shared_lt p hp).1
      · cases hpartner

/-- The name of a node of the graph of some units. -/
def There (units : List Instr) (id : NodeId) : Prop := ∀ k, id = .unit k → k < units.length

theorem there_exit {units : List Instr} : There units .exit := nofun

theorem there_unit {units : List Instr} {k : Nat} (h : k < units.length) : There units (.unit k) := by
  rintro _ ⟨⟩
  exact h

/-- What the edges of a region are added to: one node for each unit of the block, whose latency has
room for an address. -/
structure Ground (s : Setup) (b : Block) (units : List Instr) (g : Graph) : Prop where
  block : s.blockOf g = .ok b
  wraps : g.Wraps b units
  latency : ∀ k n, g.node? (.unit k) = some n → n.latency + s.addressLatency < 0x100000000

variable {s : Setup} {b : Block} {units : List Instr} {su pos : Nat} {i j : Instr}
  {o : RegOperand} {reg : Reg} {shared : List Reg} {g g' : Graph} {d : Draft} {t : Tracker}
  {r : RegState} {later id : NodeId} {dep : Dep}

namespace Ground

theorem of_over (h : Ground s b units g) (hover : g.Over b units g') : Ground s b units g' := by
  refine ⟨?_, hover.wraps, fun k n hn => ?_⟩
  · rw [Setup.blockOf, Graph.block_eq_of_bare hover.bare]
    exact h.block
  · have halike := latency_alike hover.bare (.unit k)
    rw [Graph.node_eq_ok.mpr hn] at halike
    obtain ⟨n', hn', hlatency⟩ := halike.exists_ok
    rw [hlatency]
    exact h.latency k n' (Graph.node_eq_ok.mp hn')

theorem isSome_node? (h : Ground s b units g) (hid : There units id) : (g.node? id).isSome := by
  cases id with
  | exit => rfl
  | unit k => exact h.wraps.isSome_node? (hid k rfl)

theorem node_returns (h : Ground s b units g) (hsu : su < units.length) :
    Returns (g.node (.unit su)) fun n => n.latency + s.addressLatency < 0x100000000 := by
  obtain ⟨n, hn⟩ := Option.isSome_iff_exists.mp (h.isSome_node? (there_unit hsu))
  exact ⟨n, Graph.node_eq_ok.mpr hn, h.latency su n hn⟩

theorem instr_returns (h : Ground s b units g) (hid : There units id) :
    Returns (g.instr id b) fun _ => True := by
  obtain ⟨n, hn⟩ := Option.isSome_iff_exists.mp (h.isSome_node? hid)
  exact (returns_of_eq (Graph.node_eq_ok.mpr hn)).bind fun _ _ => .pure trivial

theorem withDep_returns (h : Ground s b units d.graph) (hsu : su < units.length)
    (hdep : dep.node = .unit su) (hlater : There units later) (hne : later ≠ .unit su) :
    Returns (d.withDep later dep) fun d' => Ground s b units d'.graph :=
  (Draft.withDep_returns ⟨h.wraps, rfl⟩ hsu hdep (h.isSome_node? hlater) hne).mono
    fun _ _ => h.of_over

end Ground

/-! Latencies -/

theorem Instr.regOperandAt_returns (h : j.findUse reg = some pos) :
    Returns (j.regOperandAt pos) fun _ => True := by
  obtain ⟨⟨pos, o⟩, hfind, rfl⟩ := Option.map_eq_some_iff.mp h
  exact ⟨o, j.regOperandAt_of_mem (List.mem_of_mem_filter (List.mem_of_find?_eq_some hfind)), trivial⟩

theorem valueLatency_returns {reader : Option (Instr × Nat)} (h : Ground s b units g)
    (hsu : su < units.length)
    (hreader : ∀ j pos, reader = some (j, pos) → j.findUse reg = some pos) :
    Returns (valueLatency s g (.unit su) reader) fun _ => True := by
  refine (h.node_returns hsu).bind fun n hn => ?_
  cases reader with
  | none => exact .ok trivial
  | some p =>
    obtain ⟨j, pos⟩ := p
    refine (Instr.regOperandAt_returns (hreader j pos rfl)).bind fun o _ => ?_
    split
    · rw [addLatency, if_pos hn]
      exact .ok trivial
    · exact .ok trivial

/-- Without loop-carried reads, refinement leaves the graph alone. -/
theorem Setup.refine_returns (h : Ground s b units g) (hsu : su < units.length)
    (hlater : There units later) :
    Returns (s.refine {} g (.unit su) later dep) fun rf => rf.graph = g := by
  have hexit : ∀ i pos reg, Returns (s.refineAtExit {} g (.unit su) i pos reg dep)
      fun rf => rf.graph = g := by
    intro i pos reg
    have hhint : s.loopHint {} g (.unit su) reg = .ok .none := by
      simp [loopHint, LoopReads.ofReg, pure, Except.pure]
    exact (returns_of_eq hhint).bind fun hint hnone => hnone ▸ .ok rfl
  unfold refine
  split
  · exact .ok rfl
  split
  · exact .ok rfl
  refine (returns_of_eq h.block).bind fun b' hb' => ?_
  subst hb'
  refine (h.instr_returns (there_unit hsu)).bind fun i _ => ?_
  split
  · exact .ok rfl
  split
  · exact .ok rfl
  split <;> refine (Returns.mono (P := fun _ => True) ?_ fun _ _ => id).bind fun j _ => ?_
  · exact .ok trivial
  · cases j with
    | none => exact (hexit _ _ _).bind fun rf hrf => .pure hrf
    | some j => exact .ok rfl
  · exact h.instr_returns hlater
  · cases j with
    | none => exact (hexit _ _ _).bind fun rf hrf => .pure hrf
    | some j => exact .ok rfl

theorem Ground.addValue_returns (h : Ground s b units d.graph) (hs : s.Bounded)
    (hsu : su < units.length) (hdep : dep.node = .unit su) (hlater : There units later)
    (hne : later ≠ .unit su) :
    Returns (d.addValue s {} (.unit su) later dep) fun d' => Ground s b units d'.graph := by
  obtain ⟨rf, hrf, hgraph⟩ : Returns (s.refine {} d.graph (.unit su) later dep)
      fun rf => rf.graph = d.graph := s.refine_returns h hsu hlater
  have hconstraint : rf.dep.constraint = dep.constraint := (Setup.refine_ok hrf).2 hs.adjusts
  have hnode : rf.dep.node = .unit su := (congrArg Prod.fst hconstraint).trans hdep
  have hground : Ground s b units ({ d with graph := rf.graph } : Draft).graph := hgraph ▸ h
  obtain ⟨d', hd', hd⟩ := hground.withDep_returns hsu hnode hlater hne
  simp only [Draft.withDep, bind_eq_ok, pure_eq_ok] at hd'
  obtain ⟨g, hg, rfl⟩ := hd'
  exact ⟨_, bind_eq_ok.mpr ⟨rf, hrf, bind_eq_ok.mpr ⟨g, hg, rfl⟩⟩, hd⟩

/-! Physical registers -/

section

variable (hd : Ground s b units d.graph) (hsu : su < units.length) (hlater : There units later)

include hd hsu hlater

theorem linkWrite_returns : Returns (linkWrite s b (.unit su) i pos o reg d later)
    fun d' => Ground s b units d'.graph := by
  unfold linkWrite
  split
  · exact .ok hd
  next hne =>
    refine (hd.instr_returns hlater).bind fun j _ => ?_
    split
    · exact .ok hd
    split
    · exact .ok hd
    · exact hd.withDep_returns hsu rfl hlater fun h => hne (.inl h)

theorem linkRead_returns (hs : s.Bounded) : Returns (linkRead s {} b (.unit su) pos reg d later)
    fun d' => Ground s b units d'.graph := by
  unfold linkRead
  split
  · exact .ok hd
  next hne =>
    have hlast : ∀ j : Option Instr, Returns (do
        let reader := j.bind fun j => (j.findUse reg).map fun pos' => (j, pos')
        let latency ← valueLatency s d.graph (.unit su) reader
        d.addValue s {} (.unit su) later
          (.data (.unit su) latency reg (some pos) (reader.map Prod.snd)))
        fun d' => Ground s b units d'.graph := by
      intro j
      have hreader : ∀ j' pos', (j.bind fun j => (j.findUse reg).map fun pos' => (j, pos')) =
          some (j', pos') → j'.findUse reg = some pos' := by
        intro j' pos' h
        obtain ⟨j, -, h⟩ := Option.bind_eq_some_iff.mp h
        obtain ⟨pos, hpos, heq⟩ := Option.map_eq_some_iff.mp h
        cases heq
        exact hpos
      exact (valueLatency_returns hd hsu hreader).bind fun latency _ =>
        hd.addValue_returns hs hsu rfl hlater hne
    split
    · exact hlast none
    · exact (hd.instr_returns hlater).bind fun j _ => hlast j

theorem linkOverwrite_returns : Returns (linkOverwrite (.unit su) reg d later)
    fun d' => Ground s b units d'.graph := by
  unfold linkOverwrite
  split
  · exact .ok hd
  next hne => exact hd.withDep_returns hsu rfl hlater fun h => hne (.inl h)

end

/-- A loop over everything recorded for several registers. -/
theorem foldlM_nodes_returns {m : RegNodes} {n : Nat} {f : Reg → Draft → NodeId → Except Fault Draft}
    (hm : m.Holds n (There units)) (hshared : ∀ reg ∈ shared, reg.number < n)
    (step : ∀ reg (d : Draft) later, Ground s b units d.graph → There units later →
      Returns (f reg d later) fun d' => Ground s b units d'.graph)
    (hd : Ground s b units d.graph) :
    Returns (shared.foldlM (fun d reg => do
      let later ← m.get reg
      later.foldlM (f reg) d) d) fun d' => Ground s b units d'.graph := by
  refine returns_foldlM (fun d : Draft => Ground s b units d.graph) (fun reg hreg d hd => ?_) hd
  refine (hm.get (hshared reg hreg)).bind fun nodes hnodes => ?_
  exact returns_foldlM (fun d : Draft => Ground s b units d.graph)
    (fun later hlater d hd => step reg d later hd (hnodes later hlater)) hd

theorem Tracker.Holds.hide_returns {n : Nat} {isCall : Bool} (ht : t.Holds n (There units))
    (hreg : o.reg.number < n) (hsu : su < units.length) :
    Returns (t.hide g (.unit su) isCall o) (Tracker.Holds n (There units)) := by
  have hlast : ∀ defs uses : RegNodes, defs.Holds n (There units) → uses.Holds n (There units) →
      Returns (do
        let defs ← defs.alter o.reg fun nodes =>
          (if isCall then dropCalls g nodes else nodes) ++ [.unit su]
        pure { defs, uses } : Except Fault Tracker) (Tracker.Holds n (There units)) := by
    intro defs uses hdefs huses
    refine (hdefs.alter hreg fun nodes hnodes k hk => ?_).bind fun defs hdefs =>
      .pure ⟨hdefs, huses⟩
    rcases List.mem_append.mp hk with hk | hk
    · split at hk
      · exact hnodes k (dropCalls_subset hk)
      · exact hnodes k hk
    · exact List.mem_singleton.mp hk ▸ there_unit hsu
  refine (ht.uses.erase hreg).bind fun uses huses => ?_
  by_cases hdead : o.isDead
  · simp only [hdead, if_true]
    exact hlast t.defs uses ht.defs huses
  · simp only [hdead, Bool.false_eq_true, if_false]
    exact (ht.defs.erase hreg).bind fun defs hdefs => hlast defs uses hdefs huses

section

variable (hs : s.Bounded) (hd : Ground s b units d.graph) (hsu : su < units.length)

include hs hd hsu

theorem writePhysical_returns (ht : t.Holds s.regs.count (There units))
    (hreg : o.reg.number < s.regs.count) :
    Returns (writePhysical s {} b (.unit su) i pos o t d)
      fun p => p.1.Holds s.regs.count (There units) ∧ Ground s b units p.2.graph := by
  refine (hs.overlaps o.reg hreg).bind fun shared hshared => ?_
  have hwrites : ∀ d : Draft, Ground s b units d.graph →
      Returns (linkWrites s b (.unit su) i pos o t shared d)
        fun d' => Ground s b units d'.graph := fun d hd =>
    foldlM_nodes_returns ht.defs hshared (fun _ _ _ hd hl => linkWrite_returns hd hsu hl) hd
  have hreads : ∀ d : Draft, Ground s b units d.graph →
      Returns (linkReads s {} b (.unit su) pos t shared d)
        fun d' => Ground s b units d'.graph := fun d hd =>
    foldlM_nodes_returns ht.uses hshared (fun _ _ _ hd hl => linkRead_returns hd hsu hl hs) hd
  exact (hwrites d hd).bind fun d₁ hd₁ => (hreads d₁ hd₁).bind fun d₂ hd₂ =>
    (ht.hide_returns hreg hsu).bind fun t' ht' => .pure ⟨ht', hd₂⟩

theorem readPhysical_returns (ht : t.Holds s.regs.count (There units))
    (hreg : reg.number < s.regs.count) :
    Returns (readPhysical s (.unit su) reg t d)
      fun p => p.1.Holds s.regs.count (There units) ∧ Ground s b units p.2.graph := by
  refine (hs.overlaps reg hreg).bind fun shared hshared => ?_
  have hoverwrites : Returns (linkOverwrites (.unit su) t shared d)
      fun d' => Ground s b units d'.graph :=
    foldlM_nodes_returns ht.defs hshared (fun _ _ _ hd hl => linkOverwrite_returns hd hsu hl) hd
  exact hoverwrites.bind fun d₁ hd₁ =>
    (ht.recordUse hreg (there_unit hsu)).bind fun t' ht' => .pure ⟨ht', hd₁⟩

end

/-! Virtual registers -/

/-- The walk between two instructions, as far as registers are concerned. -/
structure Steady (s : Setup) (b : Block) (units : List Instr) (p : RegState × Draft) : Prop where
  regs : p.1.Holds s.regs.count s.func.virtualCount (There units)
  ground : Ground s b units p.2.graph

theorem linkNearest_returns {nearest : Option NodeId} (hd : Ground s b units d.graph)
    (hsu : su < units.length) (hnearest : ∀ id, nearest = some id → There units id) :
    Returns (linkNearest s b (.unit su) i pos reg nearest d)
      fun d' => Ground s b units d'.graph := by
  cases nearest with
  | none => exact .ok hd
  | some later =>
    simp only [linkNearest]
    split
    · exact .ok hd
    next hne =>
      refine (hd.instr_returns (hnearest later rfl)).bind fun j _ => ?_
      split
      · exact .ok hd
      · exact hd.withDep_returns hsu rfl (hnearest later rfl) hne

section

variable {index : Nat} (h : Steady s b units (r, d)) (hsu : su < units.length)
  (hindex : index < s.func.virtualCount)

include h hsu hindex

theorem writeVirtual_returns (hs : s.Bounded) :
    Returns (writeVirtual s {} b (.unit su) i pos reg index r d) (Steady s b units) := by
  refine (h.regs.virtualUses.fetch hindex).bind fun ⟨waiting, uses⟩ ⟨hwaiting, huses⟩ => ?_
  have hlinks : Returns (waiting.foldlM (linkWaiting s {} (.unit su) pos reg) d)
      fun d' => Ground s b units d'.graph := by
    refine returns_foldlM (fun d : Draft => Ground s b units d.graph) (fun w hw d hd => ?_) h.ground
    unfold linkWaiting
    split
    · exact .ok hd
    next hne =>
      exact (hd.node_returns hsu).bind fun n _ =>
        hd.addValue_returns hs hsu rfl (hwaiting w hw) hne
  refine hlinks.bind fun d₁ hd₁ => ?_
  refine (huses.alter hindex fun _ _ _ he => absurd he List.not_mem_nil).bind fun uses huses => ?_
  refine (h.regs.virtualDefs.fetch hindex).bind fun ⟨nearest, defs⟩ ⟨hnearest, hdefs⟩ => ?_
  refine (linkNearest_returns hd₁ hsu hnearest).bind fun d₂ hd₂ => ?_
  have hself : ∀ id, some (NodeId.unit su) = some id → There units id := by
    rintro _ ⟨⟩
    exact there_unit hsu
  exact (hdefs.alter hindex fun _ _ => hself).bind fun defs hdefs =>
    .pure ⟨⟨h.regs.tracker, hdefs, huses⟩, hd₂⟩

theorem readVirtual_returns :
    Returns (readVirtual (.unit su) pos reg index r d) (Steady s b units) := by
  have hlinks : Returns ((r.virtualDefs.get? index).join.toList.foldlM
      (linkOverwrite (.unit su) reg) d) fun d' => Ground s b units d'.graph := by
    refine returns_foldlM (fun d : Draft => Ground s b units d.graph)
      (fun later hlater d hd => linkOverwrite_returns hd hsu ?_) h.ground
    have hnearest := h.regs.virtualDefs.getD index later
    rw [Option.mem_toList] at hlater
    exact hnearest (by rw [Option.join_eq_some_iff.mp hlater, Option.getD_some])
  refine hlinks.bind fun d₁ hd₁ => ?_
  refine (h.regs.virtualUses.alter hindex fun waiting hwaiting e he => ?_).bind fun uses huses =>
    .pure ⟨⟨h.regs.tracker, h.regs.virtualDefs, huses⟩, hd₁⟩
  rcases List.mem_append.mp he with he | he
  · exact hwaiting e he
  · exact List.mem_singleton.mp he ▸ there_unit hsu

end

/-! One instruction -/

theorem Setup.Knows.classify_returns (h : s.Knows reg) : Returns (s.classify reg) fun c =>
    (c = .physical → reg.number < s.regs.count) ∧
      ∀ index, c = .virtual index → index < s.func.virtualCount := by
  unfold Setup.classify
  split
  next hp => exact .ok ⟨fun _ => h.physical hp, nofun⟩
  next hp =>
    split
    next hv =>
      obtain ⟨hbefore, hlt⟩ := h.virtual hv
      rw [hbefore]
      exact .ok ⟨nofun, fun index heq => RegClass.virtual.inj heq ▸ hlt⟩
    next hv => exact .ok ⟨nofun, nofun⟩

section

variable (h : Steady s b units (r, d)) (hs : s.Bounded) (hsu : su < units.length)

include h hs hsu

theorem writeOperand_returns (ho : s.Knows o.reg) :
    Returns (writeOperand s {} b (.unit su) i pos o r d) (Steady s b units) := by
  refine ho.classify_returns.bind fun c ⟨hphysical, hvirtual⟩ => ?_
  cases c with
  | physical =>
    exact (writePhysical_returns hs h.ground hsu h.regs.tracker (hphysical rfl)).bind
      fun p hp => .pure ⟨h.regs.withTracker hp.1, hp.2⟩
  | virtual index => exact writeVirtual_returns h hsu (hvirtual index rfl) hs
  | unknown => exact .ok h

theorem readOperand_returns (ho : s.Knows o.reg) :
    Returns (readOperand s (.unit su) pos o r d) (Steady s b units) := by
  refine ho.classify_returns.bind fun c ⟨hphysical, hvirtual⟩ => ?_
  cases c with
  | physical =>
    exact (readPhysical_returns hs h.ground hsu h.regs.tracker (hphysical rfl)).bind
      fun p hp => .pure ⟨h.regs.withTracker hp.1, hp.2⟩
  | virtual index => exact readVirtual_returns h hsu (hvirtual index rfl)
  | unknown => exact .ok h

/-- All register operands of an instruction can be linked. -/
theorem addRegisterDeps_returns (hi : ∀ e ∈ i.regOperands, s.Knows e.2.reg) :
    Returns (addRegisterDeps s {} b (.unit su) i r d) (Steady s b units) := by
  refine Returns.bind (P := Steady s b units) ?_ fun p hp => ?_
  · exact returns_foldlM (Steady s b units) (fun e he p hp =>
      writeOperand_returns hp hs hsu (hi e (List.mem_of_mem_filter he))) h
  · exact returns_foldlM (Steady s b units) (fun e he p hp =>
      readOperand_returns hp hs hsu (hi e (List.mem_of_mem_filter he))) hp

end

/-! Barriers -/

/-- The barrier below and the nodes above it are units, `k` or later ones. -/
def Barriers.From (c : Barriers) (units : List Instr) (k : Nat) : Prop :=
  ∀ id ∈ c.since ++ c.last.toList, ∃ t, id = .unit t ∧ k ≤ t ∧ t < units.length

theorem Ground.orderBefore_returns {nodes : List NodeId} (h : Ground s b units d.graph)
    (hsu : su < units.length)
    (hnodes : ∀ id ∈ nodes, ∃ t, id = .unit t ∧ su + 1 ≤ t ∧ t < units.length) :
    Returns (d.orderBefore (.unit su) nodes) fun d' => Ground s b units d'.graph := by
  refine returns_foldlM (fun d : Draft => Ground s b units d.graph) (fun id hid d hd => ?_) h
  obtain ⟨t, rfl, hlt, ht⟩ := hnodes id hid
  refine hd.withDep_returns hsu rfl (there_unit ht) ?_
  rintro ⟨⟩
  exact Nat.lt_irrefl _ hlt

theorem Tracker.Holds.restart_returns (ht : t.Holds s.regs.count (There units))
    (hsu : su < units.length) (hi : ∀ e ∈ i.regOperands, s.Knows e.2.reg) :
    Returns (t.restart s (.unit su) i) (Tracker.Holds s.regs.count (There units)) := by
  refine Returns.bind (P := Tracker.Holds s.regs.count (There units)) ?_ fun kept hkept => ?_
  · exact returns_foldlM _ (fun reg hreg t' ht' =>
      ht'.recordUse (ht.lt_of_mem_exitReads hreg) there_exit) ht.clear
  · refine returns_foldlM _ (fun e he t' ht' => ?_) hkept
    obtain ⟨pos, o⟩ := e
    have hphysical := (hi (pos, o) he).physical
    dsimp only
    by_cases hp : s.regs.isPhysical o.reg
    · simp only [hp, Bool.not_true, Bool.false_eq_true, if_false]
      split
      · exact ht'.recordDef (hphysical hp) (there_unit hsu)
      split
      · exact ht'.recordUse (hphysical hp) (there_unit hsu)
      · exact .ok ht'
    · simp only [hp, Bool.not_false, if_true]
      exact .ok ht'

theorem addBarrierDeps_returns {c : Barriers} (ht : t.Holds s.regs.count (There units))
    (hd : Ground s b units d.graph) (hc : c.From units (su + 1)) (hsu : su < units.length)
    (hi : ∀ e ∈ i.regOperands, s.Knows e.2.reg) :
    Returns (addBarrierDeps s (.unit su) i c t d) fun p => p.1.From units su ∧
      p.2.1.Holds s.regs.count (There units) ∧ Ground s b units p.2.2.graph := by
  have hself : ∀ id ∈ [NodeId.unit su], ∃ t, id = .unit t ∧ su ≤ t ∧ t < units.length := by
    simpa using hsu
  have hlater : c.From units su := fun id hid => by
    obtain ⟨t, rfl, hle, ht⟩ := hc id hid
    exact ⟨t, rfl, Nat.le_of_succ_le hle, ht⟩
  unfold addBarrierDeps
  split
  · exact (hd.orderBefore_returns hsu hc).bind fun d' hd' =>
      (ht.restart_returns hsu hi).bind fun t' ht' => .pure ⟨by simpa [Barriers.From] using hself,
        ht', hd'⟩
  · refine (hd.orderBefore_returns hsu fun id hid => hc id (List.mem_append_right _ hid)).bind
      fun d' hd' => .pure ⟨fun id hid => ?_, ht, hd'⟩
    simp only [List.append_assoc, List.mem_append] at hid
    rcases hid with hid | hid | hid
    · exact hlater id (List.mem_append_left _ hid)
    · exact hself id hid
    · exact hlater id (List.mem_append_right _ hid)

/-! The exit -/

section

variable (h : r.Holds s.regs.count s.func.virtualCount (There units))

include h

theorem recordExitRead_returns (hreg : reg.number < s.regs.count) :
    Returns (r.recordExitRead reg)
      (RegState.Holds s.regs.count s.func.virtualCount (There units)) := by
  refine (h.tracker.uses.get hreg).bind fun nodes _ => ?_
  split
  · exact .ok h
  · exact (h.tracker.recordUse hreg there_exit).bind fun t ht => .pure (h.withTracker ht)

theorem readAtBoundary_returns (hi : ∀ e ∈ i.regOperands, s.Knows e.2.reg) :
    Returns (readAtBoundary s i r)
      (RegState.Holds s.regs.count s.func.virtualCount (There units)) := by
  refine returns_foldlM _ (fun e he r hr => ?_) h
  obtain ⟨pos, o⟩ := e
  refine (hi (pos, o) (List.mem_of_mem_filter he)).classify_returns.bind
    fun c ⟨hphysical, hvirtual⟩ => ?_
  cases c with
  | physical => exact recordExitRead_returns hr (hphysical rfl)
  | virtual index =>
    refine (hr.virtualUses.alter (hvirtual index rfl) fun waiting hwaiting e he => ?_).bind
      fun uses huses => .pure ⟨hr.tracker, hr.virtualDefs, huses⟩
    rcases List.mem_append.mp he with he | he
    · exact hwaiting e he
    · exact List.mem_singleton.mp he ▸ there_exit
  | unknown => exact .ok hr

theorem readAtSuccessors_returns (hsucc : ∀ id ∈ b.successors, ∃ b', s.func.block id = .ok b' ∧
      ∀ reg ∈ b'.liveIns, s.regs.isPhysical reg → reg.number < s.regs.count) :
    Returns (readAtSuccessors s b r)
      (RegState.Holds s.regs.count s.func.virtualCount (There units)) := by
  refine returns_foldlM _ (fun id hid r hr => ?_) h
  obtain ⟨b', hb', hlive⟩ := hsucc id hid
  refine (returns_of_eq hb').bind fun b'' hb'' => ?_
  subst hb''
  refine returns_foldlM _ (fun reg hreg r hr => ?_) hr
  split
  next hp => exact recordExitRead_returns hr (hlive reg hreg hp)
  next => exact .ok hr

/-- Whatever ends a region, all that is read behind it can be recorded. -/
theorem readAtExit_returns {boundary : Option Instr}
    (hboundary : ∀ i, boundary = some i → ∀ e ∈ i.regOperands, s.Knows e.2.reg)
    (hsucc : ∀ id ∈ b.successors, ∃ b', s.func.block id = .ok b' ∧
      ∀ reg ∈ b'.liveIns, s.regs.isPhysical reg → reg.number < s.regs.count) :
    Returns (readAtExit s b boundary r)
      (RegState.Holds s.regs.count s.func.virtualCount (There units)) := by
  cases boundary with
  | none => exact readAtSuccessors_returns h hsucc
  | some i =>
    refine (readAtBoundary_returns h (hboundary i rfl)).bind fun r hr => ?_
    split
    · exact .ok hr
    · exact readAtSuccessors_returns hr hsucc

end

end Precedence
