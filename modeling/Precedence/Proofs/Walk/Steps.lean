import Precedence.Proofs.Walk.Barriers
import Precedence.Proofs.Walk.Memory

/-!
One step of the walk, and the walk as a whole. What every step needs of its start holds at the
start of the walk through any region, whatever the builder was used for before, and is handed on
from unit to unit.
-/
namespace Precedence

/-! Register maps that were used before -/

namespace RegState

variable {s : Setup} {r r' : RegState} {reg : Reg}

theorem Sound.clear (h : r.Sound) : r.clear.Sound :=
  ⟨Tracker.clear_sound h.tracker, (SparseMap.clear_spec h.virtualDefs).1,
    (SparseMap.clear_spec h.virtualUses).1⟩

theorem Sound.reserve (h : r.Sound) (physical virtual : Nat) :
    (r.reserve physical virtual).Sound :=
  ⟨⟨(SparseMap.reserve_spec h.tracker.defs physical).1,
      (SparseMap.reserve_spec h.tracker.uses physical).1⟩,
    (SparseMap.reserve_spec h.virtualDefs virtual).1,
    (SparseMap.reserve_spec h.virtualUses virtual).1⟩

theorem sound_empty : ({} : RegState).Sound :=
  ⟨⟨SparseMap.sound_empty, SparseMap.sound_empty⟩, SparseMap.sound_empty, SparseMap.sound_empty⟩

/-- The exit becomes a reader of a physical register, if it is none yet. -/
theorem recordExitRead_ok (hr : r.Sound) (hp : s.regs.isPhysical reg)
    (h : r.recordExitRead reg = .ok r') : r'.Sound ∧ ReadBy s .exit (· = reg) r r' := by
  simp only [recordExitRead, bind_eq_ok] at h
  obtain ⟨nodes, hnodes, h⟩ := h
  obtain rfl := RegNodes.get_ok hnodes
  split at h
  next hthere =>
    cases h
    refine ⟨hr, .of_tracker hp rfl fun a m => ⟨.inl, ?_⟩⟩
    rintro (hm | ⟨rfl, rfl⟩)
    · exact hm
    · simpa using hthere
  · simp only [bind_eq_ok, pure_eq_ok] at h
    obtain ⟨t, ht, rfl⟩ := h
    obtain ⟨hsound, hdefs, huses⟩ := Tracker.recordUse_ok hr.tracker ht
    refine ⟨⟨hsound, hr.virtualDefs, hr.virtualUses⟩, .of_tracker hp hdefs fun a m => ?_⟩
    by_cases ha : a = reg
    · subst ha
      simp [huses]
    · simp [huses, ha]

end RegState

theorem readAtBoundary_ok {s : Setup} {i : Instr} {r r' : RegState} (hr : r.Sound)
    (h : readAtBoundary s i r = .ok r') : r'.Sound ∧ ReadBy s .exit (· ∈ i.uses) r r' := by
  have hread : r'.Sound ∧ ReadBy s .exit (fun a => ∃ e ∈ i.useOperands, a = e.2.reg) r r' := by
    refine ReadBy.of_foldlM (fun e _ u u' hu h => ?_) hr h
    simp only [bind_eq_ok] at h
    obtain ⟨c, hc, h⟩ := h
    rcases Setup.classify_cases hc with ⟨rfl, hp⟩ | ⟨rfl, hp, hv⟩ | ⟨rfl, hp, hv⟩
    · exact RegState.recordExitRead_ok hu hp h
    · simp only [bind_eq_ok, pure_eq_ok] at h
      obtain ⟨uses, huses, rfl⟩ := h
      obtain ⟨hsound, -, hvalues⟩ := SparseMap.alter_ok hu.virtualUses huses
      exact ⟨⟨hu.tracker, hu.virtualDefs, hsound⟩, .of_virtual hp hv hvalues⟩
    · cases h
      refine ⟨hu, (ReadBy.nothing s .exit u).congr fun a ha => ⟨False.elim, ?_⟩⟩
      rintro rfl
      exact ha.elim hp hv
  exact ⟨hread.1, hread.2.congr fun a _ => by simp [Instr.uses, eq_comm]⟩

theorem readAtSuccessors_ok {s : Setup} {b : Block} {r r' : RegState} (hr : r.Sound)
    (h : readAtSuccessors s b r = .ok r') : r'.Sound ∧ ReadBy s .exit
      (fun a => s.regs.isPhysical a ∧ ∃ id ∈ b.successors, ∃ b', s.func.block id = .ok b' ∧
        a ∈ b'.liveIns) r r' := by
  have hreg : ∀ (reg : Reg) (u u' : RegState), u.Sound →
      (if s.regs.isPhysical reg then u.recordExitRead reg else pure u) = .ok u' →
      u'.Sound ∧ ReadBy s .exit (fun a => s.regs.isPhysical a ∧ a = reg) u u' := by
    intro reg u u' hu h
    split at h
    next hp =>
      obtain ⟨hsound, hread⟩ := RegState.recordExitRead_ok hu hp h
      exact ⟨hsound, hread.congr fun a _ => by simp_all⟩
    next hp =>
      cases h
      refine ⟨hu, (ReadBy.nothing s .exit u).congr fun a _ => ⟨False.elim, ?_⟩⟩
      rintro ⟨ha, rfl⟩
      exact hp ha
  have hround : ∀ (id : BlockId) (u u' : RegState), u.Sound →
      (do
        let succ ← s.func.block id
        succ.liveIns.foldlM (fun (v : RegState) reg =>
          if s.regs.isPhysical reg then v.recordExitRead reg else pure v) u) = .ok u' →
      u'.Sound ∧ ReadBy s .exit (fun a => s.regs.isPhysical a ∧
        ∃ b', s.func.block id = .ok b' ∧ a ∈ b'.liveIns) u u' := by
    intro id u u' hu h
    simp only [bind_eq_ok] at h
    obtain ⟨succ, hsucc, h⟩ := h
    obtain ⟨hsound, hread⟩ := ReadBy.of_foldlM (fun reg _ => hreg reg) hu h
    exact ⟨hsound, hread.congr fun a _ => by simp [hsucc, and_comm]⟩
  obtain ⟨hsound, hread⟩ := ReadBy.of_foldlM (fun id _ => hround id) hr h
  refine ⟨hsound, hread.congr fun a _ => ⟨?_, ?_⟩⟩
  · rintro ⟨id, hid, hp, hlive⟩
    exact ⟨hp, id, hid, hlive⟩
  · rintro ⟨hp, id, hid, hlive⟩
    exact ⟨id, hid, hp, hlive⟩

/-- What the code behind a region reads becomes known as read by the exit. -/
theorem readAtExit_ok {s : Setup} {b : Block} {boundary : Option Instr} {r r' : RegState}
    (hr : r.Sound) (h : readAtExit s b boundary r = .ok r') : r'.Sound ∧ ReadBy s .exit
      (fun a => (∃ i, boundary = some i ∧ a ∈ i.uses) ∨
        ((∀ i, boundary = some i → i.isCall = false) ∧ s.regs.isPhysical a ∧
          ∃ id ∈ b.successors, ∃ b', s.func.block id = .ok b' ∧ a ∈ b'.liveIns)) r r' := by
  cases boundary with
  | none =>
    obtain ⟨hsound, hread⟩ := readAtSuccessors_ok hr h
    exact ⟨hsound, hread.congr fun a _ => by simp⟩
  | some i =>
    simp only [readAtExit, bind_eq_ok] at h
    obtain ⟨v, hv, h⟩ := h
    obtain ⟨hvs, hvr⟩ := readAtBoundary_ok hr hv
    split at h
    next hcall =>
      cases h
      exact ⟨hvs, hvr.congr fun a _ => by simp_all⟩
    next hcall =>
      obtain ⟨hsound, hread⟩ := readAtSuccessors_ok hvs h
      exact ⟨hsound, (hvr.trans hread).congr fun a _ => by simp_all⟩

/-! Steps -/

namespace Walk

variable {s : Setup} {reads : LoopReads} {b : Block} {oracle : Option Oracle} {units : List Instr}
  {su : Nat} {i : Instr} {w w' : Walk}

/-- What a step relies on: the graph has a node for each unit, the register maps hold what was put
into them, and the accesses are filed. -/
structure Sound (b : Block) (oracle : Option Oracle) (units : List Instr) (k : Nat) (w : Walk) :
    Prop where
  wraps : w.draft.graph.Wraps b units
  regs : w.regs.Sound
  filed : w.chains.Filed oracle units k

/-- The parts of a step: registers, barriers and memory, one after the other. -/
structure Stepped (s : Setup) (b : Block) (oracle : Option Oracle) (units : List Instr) (su : Nat)
    (i : Instr) (w w' : Walk) (r : RegState) (d₁ d₂ : Draft) : Prop where
  linked : ∃ reads, addRegisterDeps s reads b (.unit su) i w.regs w.draft = .ok (r, d₁)
  registers : Linking s units su i (i.defOperands ++ i.useOperands) (w.regs, w.draft) (r, d₁)
  barriers : BarrierStep s su i w.barriers r.tracker d₁ w'.barriers w'.regs.tracker d₂
  memory : MemoryStep ⟨b, oracle, s.options⟩ units su i ⟨w.chains, d₂⟩ ⟨w'.chains, w'.draft⟩
  virtual : w'.regs = { r with tracker := w'.regs.tracker }

theorem step_ok (hw : w.Sound b oracle units (su + 1)) (hi : units[su]? = some i)
    (h : w.step s reads b oracle (.unit su) i = .ok w') :
    ∃ r d₁ d₂, Stepped s b oracle units su i w w' r d₁ d₂ := by
  simp only [step, bind_eq_ok, pure_eq_ok, Prod.exists] at h
  obtain ⟨r, d₁, h₁, barriers, t, d₂, h₂, m, h₃, rfl⟩ := h
  have hlink := addRegisterDeps_ok hw.wraps hw.regs hi h₁
  have hw₁ := hw.wraps.grows hlink.keeps.grows
  have hbar := addBarrierDeps_ok hw₁ h₂
  have hmem := add_ok (m := ⟨b, oracle, s.options⟩) (w := ⟨w.chains, d₂⟩) (hw₁.grows hbar.grows)
    hi hw.filed h₃
  exact ⟨r, d₁, d₂, ⟨reads, h₁⟩, hlink, hbar, hmem, rfl⟩

theorem Stepped.grows {r : RegState} {d₁ d₂ : Draft}
    (h : Stepped s b oracle units su i w w' r d₁ d₂) : w.draft.graph.Grows w'.draft.graph :=
  h.registers.keeps.grows.trans (h.barriers.grows.trans h.memory.grows)

theorem step_sound (hw : w.Sound b oracle units (su + 1)) (hi : units[su]? = some i)
    (h : w.step s reads b oracle (.unit su) i = .ok w') : w'.Sound b oracle units su := by
  obtain ⟨r, d₁, d₂, hstep⟩ := step_ok hw hi h
  refine ⟨hw.wraps.grows hstep.grows, ?_, hstep.memory.filed hi hw.filed⟩
  have hr := hstep.registers.sound
  rw [hstep.virtual]
  exact ⟨hstep.barriers.sound hr.tracker, hr.virtualDefs, hr.virtualUses⟩

end Walk

/-! Builders -/

/-- A builder at some point of its use. -/
inductive Builder.Usable (s : Setup) : Builder → Prop
  | fresh : Usable s {}
  | reset {b : Builder} (hb : Usable s b) : Usable s b.reset
  | start {b b' : Builder} {r : Region} (hb : Usable s b) (h : b.start s r = .ok b') :
      Usable s b'
  | build {b b' : Builder} {oracle : Option Oracle} {g : Graph} (hb : Usable s b)
      (h : b.build s oracle = .ok (b', g)) : Usable s b'
  | refine {b b' : Builder} {g : Graph} {writer reader : NodeId} {d : Dep} {rf : Refinement}
      (hb : Usable s b) (h : b.refine s g writer reader d = .ok (b', rf)) : Usable s b'

namespace Builder

variable {s : Setup} {b b' : Builder} {r : Region} {oracle : Option Oracle} {g : Graph}
  {w : Walk} {k : Nat}

/-- The block of a region and the units of the graph that is built from it. -/
theorem unitsOf_eq {block : Block} (h : s.func.block r.block = .ok block) :
    s.unitsOf r = (r.units block).map Prod.snd := by
  simp [Setup.unitsOf, h]

/-- A walk that gets to its end is all that a build can fail in. -/
theorem build_of_downTo {block : Block} {graph : Graph} {regs : RegState}
    (hr : b.region = some r) (hblock : s.func.block r.block = .ok block)
    (hgraph : s.unlinked block r = .ok graph)
    (hregs : readAtExit s block (r.exitInstr block) b.regs = .ok regs)
    (hw : Walk.downTo s b.loopReads block oracle (s.unitsOf r) 0 { regs, draft := { graph } } =
      .ok w) : ∃ b', b.build s oracle = .ok (b', w.draft.graph) := by
  rw [unitsOf_eq hblock, ← Walk.run_eq_downTo] at hw
  simp only [build, hr, bind_eq_ok, pure_eq_ok, Prod.mk.injEq]
  exact ⟨_, block, hblock, graph, hgraph, regs, hregs, w, hw, rfl, rfl⟩

/-- The walk through a region is sound all the way, whatever the registers were used for. -/
theorem downTo_sound (hb : b.regs.Sound) {reads : LoopReads} {block : Block} {graph : Graph}
    {regs : RegState} (hblock : s.func.block r.block = .ok block)
    (hgraph : s.unlinked block r = .ok graph)
    (hregs : readAtExit s block (r.exitInstr block) b.regs = .ok regs)
    (hk : k ≤ (s.unitsOf r).length)
    (hw : Walk.downTo s reads block oracle (s.unitsOf r) k { regs, draft := { graph } } = .ok w) :
    w.Sound block oracle (s.unitsOf r) k :=
  Walk.downTo_induction (Walk.Sound block oracle (s.unitsOf r))
    ⟨unitsOf_eq hblock ▸ Graph.wraps_unlinked hgraph, (readAtExit_ok hb hregs).1,
      MemoryChains.filed_empty⟩
    (fun _ _ _ _ hi _ hv h => Walk.step_sound hv hi h) hk hw

theorem Usable.regs_sound (h : b.Usable s) : b.regs.Sound := by
  induction h with
  | fresh => exact RegState.sound_empty
  | reset _ ih => exact ih.clear
  | start _ h ih =>
    rw [(start_ok h).2]
    exact ih.clear.reserve _ _
  | @build b b' oracle g hb h ih =>
    cases hr : b.region with
    | none => simp [Builder.build, hr, throw_eq_ok] at h
    | some r =>
      obtain ⟨block, graph, regs, w, hblock, hgraph, hregs, hw, hb', -⟩ := build_ok hr h
      rw [hb']
      rw [Walk.run_eq_downTo] at hw
      exact (downTo_sound ih hblock hgraph hregs (Nat.zero_le _) hw).regs.clear
  | refine _ h ih =>
    simp only [Builder.refine, bind_eq_ok, pure_eq_ok, Prod.mk.injEq] at h
    obtain ⟨rf, -, rfl, -⟩ := h
    exact ih

/-- What holds when the walk through a region begins, and what every step hands on, holds all the
way. -/
theorem walkTo_induction (P : Nat → Walk → Prop) (hb : b.Usable s)
    (start : ∀ w : Walk, w.barriers = {} → w.chains = {} → P (s.unitsOf r).length w)
    (step : ∀ block su i v v' r' d₁ d₂, (s.unitsOf r)[su]? = some i →
      b.walkTo s r oracle (su + 1) = .ok v → v.Sound block oracle (s.unitsOf r) (su + 1) →
      P (su + 1) v → Walk.Stepped s block oracle (s.unitsOf r) su i v v' r' d₁ d₂ → P su v')
    (hk : k ≤ (s.unitsOf r).length) (h : b.walkTo s r oracle k = .ok w) :
    ∃ block, w.Sound block oracle (s.unitsOf r) k ∧ P k w := by
  simp only [walkTo, bind_eq_ok] at h
  obtain ⟨c, hc, block, hblock, graph, hgraph, regs, hregs, hw⟩ := h
  have hregs_sound := (Usable.start hb hc).regs_sound
  refine ⟨block, downTo_sound hregs_sound hblock hgraph hregs hk hw, ?_⟩
  refine Walk.downTo_induction P (start _ rfl rfl) (fun su i v v' hi hv hP hstep => ?_) hk hw
  have hlt := (List.getElem?_eq_some_iff.mp hi).1
  have hvs := downTo_sound hregs_sound hblock hgraph hregs hlt hv
  obtain ⟨r', d₁, d₂, hstepped⟩ := Walk.step_ok hvs hi hstep
  refine step block su i v v' r' d₁ d₂ hi ?_ hvs hP hstepped
  simp only [walkTo, bind_eq_ok]
  exact ⟨c, hc, block, hblock, graph, hgraph, regs, hregs, hv⟩

/-- The same for the finished graph of the region. -/
theorem buildRegion_induction (P : Nat → Walk → Prop) (hb : b.Usable s)
    (start : ∀ w : Walk, w.barriers = {} → w.chains = {} → P (s.unitsOf r).length w)
    (step : ∀ block su i v v' r' d₁ d₂, (s.unitsOf r)[su]? = some i →
      b.walkTo s r oracle (su + 1) = .ok v → v.Sound block oracle (s.unitsOf r) (su + 1) →
      P (su + 1) v → Walk.Stepped s block oracle (s.unitsOf r) su i v v' r' d₁ d₂ → P su v')
    (h : b.buildRegion s r oracle = .ok (b', g)) :
    ∃ block w, w.Sound block oracle (s.unitsOf r) 0 ∧ P 0 w ∧ g = w.draft.graph := by
  obtain ⟨w, hw, rfl⟩ := walkTo_of_buildRegion h
  obtain ⟨block, hsound, hP⟩ := walkTo_induction P hb start step (Nat.zero_le _) hw
  exact ⟨block, w, hsound, hP, rfl⟩

end Builder

end Precedence
