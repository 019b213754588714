import Precedence.Proofs.Walk.Steps

/-!
The walk through a region that has been built, from the graph without edges to the finished one.
Whatever the builder was used for before, the walk begins with register maps that hold nothing but
what the code behind the region reads, and so the register maps of each step are known exactly.
-/
namespace Precedence

/-- Register maps without anything in them. -/
structure RegState.Blank (r : RegState) : Prop where
  defs : ∀ a, r.tracker.defs.nodesOf a = []
  uses : ∀ a, r.tracker.uses.nodesOf a = []
  virtualDefs : ∀ n, r.virtualDefs.valueAt n = none
  virtualUses : ∀ n, r.virtualUses.valueAt n = []

/-- Clearing leaves nothing, and making room adds nothing. -/
theorem RegState.blank_reserve_clear {r : RegState} (h : r.Sound) (physical virtual : Nat) :
    (r.clear.reserve physical virtual).Blank := by
  have hvalue : ∀ {α : Type} [Inhabited α] {m : SparseMap α}, m.Sound → ∀ n key,
      (m.clear.reserve n).valueAt key = default := by
    intro α _ m hm n key
    obtain ⟨hc, -, hv⟩ := SparseMap.clear_spec hm
    rw [(SparseMap.reserve_spec hc n).2, hv]
  exact ⟨fun a => hvalue h.tracker.defs _ _, fun a => hvalue h.tracker.uses _ _,
    hvalue h.virtualDefs _, hvalue h.virtualUses _⟩

namespace RegState.Blank

variable {s : Setup} {r : RegState}

theorem tidy (h : r.Blank) (s : Setup) : r.Tidy s :=
  ⟨fun a _ => h.defs a, fun a _ => h.uses a, fun key => by simp [h.virtualDefs]⟩

theorem readers_eq (h : r.Blank) (a : Reg) : r.readers s a = [] := by
  simp [readers, h.uses, h.virtualUses]

theorem writers_eq (h : r.Blank) (a : Reg) : r.writers s a = [] := by
  simp [writers, h.defs, h.virtualDefs]

end RegState.Blank

/-! What is read behind a region -/

/-- The instruction that ends a region reads a register. -/
def Setup.BoundaryReads (s : Setup) (r : Region) (a : Reg) : Prop :=
  ∃ b, s.func.block r.block = .ok b ∧ ∃ i, r.exitInstr b = some i ∧ a ∈ i.uses

/-- A successor of the block expects a register, and it is not a call that ends the region. -/
def Setup.LiveOut (s : Setup) (r : Region) (a : Reg) : Prop :=
  ∃ b, s.func.block r.block = .ok b ∧ (∀ i, r.exitInstr b = some i → i.isCall = false) ∧
    ∃ id ∈ b.successors, ∃ b', s.func.block id = .ok b' ∧ a ∈ b'.liveIns

/-- The exit of a region reads a register; the successors matter for the physical ones alone. -/
def Setup.ExitReads (s : Setup) (r : Region) (a : Reg) : Prop :=
  s.BoundaryReads r a ∨ (s.regs.isPhysical a ∧ s.LiveOut r a)

/-! One step -/

namespace Walk.Stepped

variable {s : Setup} {b : Block} {oracle : Option Oracle} {units : List Instr} {su : Nat}
  {i : Instr} {w w' : Walk} {r : RegState} {d₁ d₂ : Draft}

/-- The operands of the instruction have been linked one after the other. -/
theorem rounds (h : Stepped s b oracle units su i w w' r d₁ d₂) (ht : s.timing.AdjustsLatencyOnly)
    (hw : w.Sound b oracle units (su + 1)) (hi : units[su]? = some i) (htidy : w.regs.Tidy s) :
    r.Tidy s ∧ ∃ p,
      Rounds (fun e => OperandWritten s units su i e.2) i.defOperands (w.regs, w.draft) p ∧
      Rounds (fun e => OperandRead s su e.1 e.2) i.useOperands p (r, d₁) := by
  obtain ⟨reads, hlinked⟩ := h.linked
  exact addRegisterDeps_rounds ht hw.wraps hw.regs htidy hi hlinked

theorem tracker_restarted (h : Stepped s b oracle units su i w w' r d₁ d₂) (hi : i.isBarrier) :
    Tracker.Restarted s (.unit su) i r.tracker w'.regs.tracker :=
  (h.barriers.barrier hi).2 h.registers.sound.tracker

theorem regs_eq (h : Stepped s b oracle units su i w w' r d₁ d₂) (hi : ¬i.isBarrier) :
    w'.regs = r := by
  rw [h.virtual, (h.barriers.plain hi).2]

theorem tidy (h : Stepped s b oracle units su i w w' r d₁ d₂) (hr : r.Tidy s) :
    w'.regs.Tidy s := by
  by_cases hi : i.isBarrier
  · have hrestart := h.tracker_restarted hi
    refine ⟨fun a ha => ?_, fun a ha => ?_, fun key => ?_⟩
    · rw [List.eq_nil_iff_forall_not_mem]
      intro n hn
      exact ha ((hrestart.defs_iff a n).mp hn).1
    · rw [List.eq_nil_iff_forall_not_mem]
      intro n hn
      rcases (hrestart.uses_iff a n).mp hn with ⟨-, hexit⟩ | ⟨hp, -⟩
      · simp [hr.uses a ha] at hexit
      · exact ha hp
    · rw [h.virtual]
      exact hr.nearest key
  · rw [h.regs_eq hi]
    exact hr

end Walk.Stepped

/-! The whole walk -/

/-- The walk that builds the graph of a region, with its first and its last state. -/
structure Walk.Course (s : Setup) (r : Region) (oracle : Option Oracle) (block : Block)
    (first last : Walk) : Prop where
  block_eq : s.func.block r.block = .ok block
  start_le : r.start ≤ r.stop
  stop_le : r.stop ≤ block.instrs.size
  graph : s.unlinked block r = .ok first.draft.graph
  regs : ∃ blank : RegState, blank.Sound ∧ blank.Blank ∧
    readAtExit s block (r.exitInstr block) blank = .ok first.regs
  barriers : first.barriers = {}
  chains : first.chains = {}
  walk : ∃ reads, Walk.downTo s reads block oracle (s.unitsOf r) 0 first = .ok last

namespace Walk.Course

variable {s : Setup} {r : Region} {oracle : Option Oracle} {block : Block} {first last : Walk}

theorem units_eq (h : Course s r oracle block first last) :
    s.unitsOf r = (r.units block).map Prod.snd := Builder.unitsOf_eq h.block_eq

theorem sound_first (h : Course s r oracle block first last) :
    first.Sound block oracle (s.unitsOf r) (s.unitsOf r).length := by
  obtain ⟨blank, hsound, -, hregs⟩ := h.regs
  refine ⟨h.units_eq ▸ Graph.wraps_unlinked h.graph, (readAtExit_ok hsound hregs).1, ?_⟩
  rw [h.chains]
  exact MemoryChains.filed_empty

theorem no_edges (h : Course s r oracle block first last) {p n : NodeId} {k : Kind}
    {a : Option Reg} : ¬first.draft.graph.HasEdge p n k a := by
  simp [Graph.HasEdge, Graph.outgoing, (Graph.no_edges_unlinked h.graph).2]

/-- At the start the exit is known to read what it reads, and nothing else is known. -/
theorem first_reads (h : Course s r oracle block first last) :
    first.regs.Tidy s ∧ ∀ a, s.Tracks a → first.regs.writers s a = [] ∧
      ∀ n, n ∈ first.regs.readers s a ↔ n = .exit ∧ s.ExitReads r a := by
  obtain ⟨blank, hsound, hblank, hregs⟩ := h.regs
  have hread := (readAtExit_ok hsound hregs).2
  refine ⟨hread.tidy (hblank.tidy s), fun a ha => ⟨?_, fun n => ?_⟩⟩
  · rw [hread.writers, hblank.writers_eq]
  · rw [hread.readers a ha, hblank.readers_eq]
    simp only [List.not_mem_nil, false_or, Setup.ExitReads, Setup.BoundaryReads, Setup.LiveOut,
      h.block_eq, Except.ok.injEq, exists_eq_left', and_left_comm]

/-- What holds at the start and is handed on by every step holds at the end; each step may rely on
what the walk keeps anyway. -/
theorem induction (h : Course s r oracle block first last) (ht : s.timing.AdjustsLatencyOnly)
    (P : Nat → Walk → Prop) (start : P (s.unitsOf r).length first)
    (step : ∀ su i v w r' d₁ d₂, (s.unitsOf r)[su]? = some i →
      v.Sound block oracle (s.unitsOf r) (su + 1) → v.regs.Tidy s → P (su + 1) v →
      Walk.Stepped s block oracle (s.unitsOf r) su i v w r' d₁ d₂ → P su w) :
    last.Sound block oracle (s.unitsOf r) 0 ∧ P 0 last := by
  obtain ⟨reads, hwalk⟩ := h.walk
  obtain ⟨hsound, -, hP⟩ := Walk.downTo_induction
    (fun k w => w.Sound block oracle (s.unitsOf r) k ∧ w.regs.Tidy s ∧ P k w)
    ⟨h.sound_first, h.first_reads.1, start⟩
    (fun k i v w hi _ ⟨hv, htidy, hP⟩ hw => by
      obtain ⟨r', d₁, d₂, hstep⟩ := Walk.step_ok hv hi hw
      exact ⟨Walk.step_sound hv hi hw, hstep.tidy (hstep.rounds ht hv hi htidy).1,
        step k i v w r' d₁ d₂ hi hv htidy hP hstep⟩)
    (Nat.zero_le _) hwalk
  exact ⟨hsound, hP⟩

/-- The graph grows all along, and its edges stay stored alike at both ends, whatever the target says
of them. -/
theorem grows (h : Course s r oracle block first last) :
    first.draft.graph.Grows last.draft.graph ∧ last.draft.graph.Linked ∧
      last.draft.graph.Mirrored := by
  obtain ⟨reads, hwalk⟩ := h.walk
  obtain ⟨hsound, hgrows⟩ := Walk.downTo_induction
    (fun k w => w.Sound block oracle (s.unitsOf r) k ∧ first.draft.graph.Grows w.draft.graph)
    ⟨h.sound_first, .refl _⟩
    (fun k i v w hi _ ⟨hv, hgrows⟩ hw => by
      obtain ⟨r', d₁, d₂, hstep⟩ := Walk.step_ok hv hi hw
      exact ⟨Walk.step_sound hv hi hw, hgrows.trans hstep.grows⟩)
    (Nat.zero_le _) hwalk
  obtain ⟨hpreds, hsuccs⟩ := Graph.no_edges_unlinked h.graph
  exact ⟨hgrows, hsound.wraps.linked, hgrows.mirrored (Graph.mirrored_of_no_edges hpreds hsuccs)⟩

end Walk.Course

/-- Every graph that is built has such a walk behind it. -/
theorem Builder.course {s : Setup} {b b' : Builder} {r : Region} {oracle : Option Oracle} {g : Graph}
    (hb : b.Usable s) (h : b.buildRegion s r oracle = .ok (b', g)) :
    ∃ block first last, Walk.Course s r oracle block first last ∧ g = last.draft.graph := by
  simp only [buildRegion, bind_eq_ok] at h
  obtain ⟨c, hc, h⟩ := h
  obtain ⟨hregion, hregs⟩ := start_ok hc
  obtain ⟨block, graph, regs, last, hblock, hgraph, hread, hwalk, -, rfl⟩ := build_ok hregion h
  obtain ⟨hle, hstop⟩ : r.start ≤ r.stop ∧ r.stop ≤ block.instrs.size := by
    simp only [start, hblock, bind_eq_ok] at hc
    obtain ⟨_, ⟨⟩, hc⟩ := hc
    split at hc
    · simp [bind_eq_ok, throw_eq_ok] at hc
    next hbounds => exact not_not.mp hbounds
  refine ⟨block, { regs, draft := { graph } }, last, ⟨hblock, hle, hstop, hgraph, ?_, rfl, rfl,
    c.loopReads, hwalk⟩, rfl⟩
  refine ⟨c.regs, (Usable.start hb hc).regs_sound, ?_, hread⟩
  rw [hregs]
  exact RegState.blank_reserve_clear hb.regs_sound _ _

end Precedence
