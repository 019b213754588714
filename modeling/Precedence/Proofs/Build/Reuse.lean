import Mathlib
import Precedence.Machine.Construct
import Precedence.Proofs.Build.Beside
import Precedence.Proofs.Walk.Steps

/-!
A builder that has been used before builds what a fresh one builds. The register maps are cleared and
keep nothing but storage, and everything else that a build reads is made anew for the region; only
the counts go on from where they were.
-/
namespace Precedence

namespace Stats

instance : Add Stats where
  add st st' :=
    { regions := st.regions + st'.regions
      nodes := st.nodes + st'.nodes
      dataEdges := st.dataEdges + st'.dataEdges
      antiEdges := st.antiEdges + st'.antiEdges
      outputEdges := st.outputEdges + st'.outputEdges
      orderEdges := st.orderEdges + st'.orderEdges
      artificialEdges := st.artificialEdges + st'.artificialEdges
      queries := st.queries + st'.queries
      omitted := st.omitted + st'.omitted
      hints := st.hints + st'.hints }

end Stats

namespace Builder

variable {s : Setup} {b b' c c' : Builder} {r : Region} {oracle : Option Oracle}
  {physical virtual : Nat}

/-- What two builds have in common: the graph, and what was counted for it on top of the counts
before. Nothing is left of the region. -/
structure BuiltAlike (physical virtual : Nat) (b b' : Builder) (p p' : Builder × Graph) : Prop where
  graph : p.2 = p'.2
  regs : p.1.regs.Same physical virtual p'.1.regs
  loopReads : p.1.loopReads = {}
  stats : ∃ d : Draft, p.1.stats = b.stats.record d ∧ p'.1.stats = b'.stats.record d ∧
    d.graph = p.2

theorem Same.build (h : b.Same physical virtual b') :
    Alike (BuiltAlike physical virtual b b') (b.build s oracle) (b'.build s oracle) := by
  have hbeside : Alike (BuiltBeside physical virtual Eq b b') (b.build s oracle)
      (b'.build s oracle) :=
    h.build_beside (fun block r => (Alike.refl (fun _ => rfl) (s.unlinked block r)).mono
      fun _ _ hg => hg ▸ rfl) fun _ _ _ _ => walkLockstep_eq
  refine hbeside.mono fun p p' hp => ?_
  obtain ⟨d, _, rfl, hg, hg', hstats, hstats'⟩ := hp.drafts
  exact ⟨hg.trans hg'.symm, hp.regs, hp.loopReads, d, hstats, hstats', hg.symm⟩

/-- Along any use of a builder its register maps are sound and have room for the registers of the
function and the target at most. -/
theorem Usable.fits (h : b.Usable s) : b.regs.Fits s.regs.count s.func.virtualCount := by
  induction h with
  | fresh => exact RegState.fits_empty
  | reset _ ih => exact ih.clear
  | start _ h ih =>
    rw [(start_ok h).2]
    exact ⟨_, le_rfl, _, le_rfl, ih.same_reserve_clear ih⟩
  | @build b b' oracle g hb h ih =>
    obtain ⟨p, hp, v, hv, hregs⟩ := ih
    have hself : Alike (BuiltAlike p v b b) (b.build s oracle) (b.build s oracle) :=
      Same.build ⟨hregs, rfl, rfl⟩
    rw [h] at hself
    obtain ⟨q, hq, hbuilt⟩ := hself.exists_ok
    cases hq
    exact ⟨p, hp, v, hv, hbuilt.regs⟩
  | refine _ h ih =>
    simp only [Builder.refine, bind_eq_ok, pure_eq_ok, Prod.mk.injEq] at h
    obtain ⟨rf, -, rfl, -⟩ := h
    exact ih

/-- Taking a region in hand leaves no difference between two builders but the counts. -/
theorem start_alike (hb : b.regs.Fits s.regs.count s.func.virtualCount)
    (hb' : b'.regs.Fits s.regs.count s.func.virtualCount) (r : Region) :
    Alike (fun c c' => Same s.regs.count s.func.virtualCount c c' ∧ c.stats = b.stats ∧
      c'.stats = b'.stats) (b.start s r) (b'.start s r) := by
  unfold Builder.start
  refine Alike.bind_same fun block => ?_
  split
  · exact .error _
  exact Alike.bind_same fun reads => .pure ⟨⟨hb.same_reserve_clear hb', rfl, rfl⟩, rfl, rfl⟩

/-- What is asked of a builder. -/
inductive Call where
  | start (r : Region)
  | build (oracle : Option Oracle)
  | buildRegion (r : Region) (oracle : Option Oracle)

end Builder

end Precedence
