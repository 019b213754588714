import Precedence.Build.Builder
import Precedence.Proofs.Walk.MemoryLockstep

/-!
Builds side by side. Two builders that know the same of the registers take the same steps, whatever
tells their drafts apart, as long as every step keeps the drafts together: in the end they have met
the same accesses, and their graphs are as far apart as the drafts.
-/
namespace Precedence

variable {D : Draft → Draft → Prop} {s : Setup} {time : Timing} {reads : LoopReads} {block : Block}
  {oracle oracle' : Option Oracle} {physical virtual : Nat}

/-- Both targets keep the drafts together, and so do both oracles. -/
structure WalkLockstep (D : Draft → Draft → Prop) (s : Setup) (time : Timing) (reads : LoopReads)
    (block : Block) (oracle oracle' : Option Oracle) : Prop where
  registers : LinkedAlike D s time reads block
  memory : MemoryLockstep D ⟨block, oracle, s.options⟩ ⟨block, oracle', s.options⟩

theorem walkLockstep_eq : WalkLockstep Eq s s.timing reads block oracle oracle :=
  ⟨lockstep_eq.linkedAlike, memoryLockstep_eq⟩

namespace Walk

/-- Two walks that know the same and whose drafts are related. -/
structure Beside (physical virtual : Nat) (D : Draft → Draft → Prop) (w w' : Walk) : Prop where
  regs : w.regs.Same physical virtual w'.regs
  barriers : w.barriers = w'.barriers
  chains : w.chains = w'.chains
  draft : D w.draft w'.draft

variable {w w' : Walk} {su : NodeId} {i : Instr} {units : List Instr}

theorem Beside.step (h : w.Beside physical virtual D w')
    (hD : WalkLockstep D s time reads block oracle oracle') :
    Alike (Beside physical virtual D) (w.step s reads block oracle su i)
      (w'.step { s with timing := time } reads block oracle' su i) := by
  unfold Walk.step
  rw [h.barriers, h.chains]
  refine (hD.registers.addRegisterDeps h.regs h.draft).bind fun p p' hp => ?_
  have hbarriers : Alike (fun q q' => q.1 = q'.1 ∧ Tracker.Beside physical D q.2 q'.2)
      (addBarrierDeps s su i w'.barriers p.1.tracker p.2)
      (addBarrierDeps { s with timing := time } su i w'.barriers p'.1.tracker p'.2) :=
    hD.registers.addBarrierDeps (s := s) hp.1.tracker hp.2
  refine hbarriers.bind fun ⟨c, t, d⟩ ⟨_, t', d'⟩ ⟨hc, ht, hd⟩ => ?_
  obtain rfl : c = _ := hc
  have hmemory : MemoryWalk.Beside D ⟨w'.chains, d⟩ ⟨w'.chains, d'⟩ := ⟨rfl, hd⟩
  exact (hD.memory.add hmemory (.inl rfl)).bind fun m m' hm =>
    .pure ⟨hp.1.withTracker ht, rfl, hm.chains, hm.draft⟩

theorem Beside.run (h : w.Beside physical virtual D w')
    (hD : WalkLockstep D s time reads block oracle oracle') :
    Alike (Beside physical virtual D) (run s reads block oracle units w)
      (run { s with timing := time } reads block oracle' units w') :=
  Alike.foldlM (fun _ _ _ _ h => h.step hD) h

end Walk

namespace Builder

variable {b b' : Builder}

/-- Two builders that take the same region in hand and know the same of its registers. -/
structure Same (physical virtual : Nat) (b b' : Builder) : Prop where
  regs : b.regs.Same physical virtual b'.regs
  loopReads : b.loopReads = b'.loopReads
  region : b.region = b'.region

/-- What two builds have in common: their drafts are related, and each has counted its own on top of
the counts before. Nothing is left of the region. -/
structure BuiltBeside (physical virtual : Nat) (D : Draft → Draft → Prop) (b b' : Builder)
    (p p' : Builder × Graph) : Prop where
  regs : p.1.regs.Same physical virtual p'.1.regs
  loopReads : p.1.loopReads = {}
  drafts : ∃ d d', D d d' ∧ p.2 = d.graph ∧ p'.2 = d'.graph ∧
    p.1.stats = b.stats.record d ∧ p'.1.stats = b'.stats.record d'

theorem Same.build_beside (h : b.Same physical virtual b')
    (hunlinked : ∀ block r, Alike (fun g g' => D { graph := g } { graph := g' })
      (s.unlinked block r) ({ s with timing := time }.unlinked block r))
    (hD : ∀ r block, b'.region = some r → s.func.block r.block = .ok block →
      WalkLockstep D s time b'.loopReads block oracle oracle') :
    Alike (BuiltBeside physical virtual D b b') (b.build s oracle)
      (b'.build { s with timing := time } oracle') := by
  unfold Builder.build
  rw [h.region, h.loopReads]
  split
  · exact .error _
  next r hr =>
  refine Alike.bind_same_ok fun block hblock => ?_
  refine (hunlinked block _).bind fun graph graph' hgraph => ?_
  refine (readAtExit_alike (s := s) h.regs).bind fun regs regs' hregs => ?_
  have hstart : Walk.Beside physical virtual D { regs, draft := { graph } }
      { regs := regs', draft := { graph := graph' } } := ⟨hregs, rfl, rfl, hgraph⟩
  exact (hstart.run (hD r block hr hblock)).bind fun w w' hw =>
    .pure ⟨hw.regs.clear, rfl, w.draft, w'.draft, hw.draft, rfl, rfl, rfl, rfl⟩

end Builder

end Precedence
