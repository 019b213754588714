import Precedence.Proofs.Build.Reuse

/-!
Oracles that separate nothing. A build that asks such an oracle goes side by side with one that asks
none: every visit ends in an edge, so nothing is rejected, and the limits on rejected accesses and
on the depth of a search are never looked at.
-/
namespace Precedence

variable {s : Setup} {reads : LoopReads} {block : Block} {oracle : Oracle} {o o' : Options}
  {su target : NodeId} {i j : Instr} {units : List Instr} {depth limit : Nat} {d d' : Draft}

/-- No two instructions of the block are kept apart: the oracle is not asked, or it answers and never
separates. -/
def SeparatesNothing (oracle : Oracle) (o : Options) (block : Block) : Prop :=
  o.maxChainDepth = 0 ∨
    ∀ i ∈ block.instrs, ∀ j ∈ block.instrs, ∃ answer, oracle i j = .ok answer ∧ answer ≠ .no

/-- The same graph on both sides and nothing left out on either; questions may have been asked. -/
structure Unomitted (d d' : Draft) : Prop where
  graph : d.graph = d'.graph
  hints : d.hints = d'.hints
  omitted : d.omitted = 0
  omitted' : d'.omitted = 0

theorem Unomitted.withGraph (h : Unomitted d d') (g : Graph) :
    Unomitted { d with graph := g } { d' with graph := g } :=
  ⟨rfl, h.hints, h.omitted, h.omitted'⟩

theorem lockstep_unomitted : Lockstep Unomitted where
  bare h := congrArg Graph.bare h.graph
  withDep h succ dep := by
    unfold Draft.withDep
    rw [h.graph]
    exact Alike.bind_same fun g => .pure (h.withGraph g)
  scheduleHigh h id := by
    rw [h.graph]
    exact (Alike.refl (fun _ => rfl) _).mono fun g _ hg => hg ▸ h.withGraph g
  hint h := ⟨h.graph, congrArg (· + 1) h.hints, h.omitted, h.omitted'⟩

/-! Visits -/

theorem MemoryScope.instr_mem {m : MemoryScope} {g : Graph} {id : NodeId}
    (h : m.instr g id = .ok i) : i ∈ m.block.instrs := by
  simp only [instr, Graph.instr, bind_eq_ok, pure_eq_ok] at h
  obtain ⟨_, ⟨n, -, rfl⟩, h⟩ := h
  cases hi : n.instr.bind fun k => m.block.instrs[k]? with
  | none => simp [hi, throw_eq_ok] at h
  | some i' =>
    simp only [hi, pure_eq_ok] at h
    subst h
    obtain ⟨k, -, hk⟩ := Option.bind_eq_some_iff.mp hi
    exact Array.mem_of_getElem? hk

theorem askApart_unseparated (horacle : SeparatesNothing oracle o block) (hi : i ∈ block.instrs)
    (hj : j ∈ block.instrs) (depth : Nat) (d : Draft) :
    ∃ asked, askApart ⟨block, some oracle, o⟩ i j depth d = .ok (false, { d with asked }) := by
  unfold askApart
  split
  next hdepth =>
    rcases horacle with hzero | hanswer
    · dsimp only at hdepth
      omega
    · obtain ⟨answer, hans, hno⟩ := hanswer i hi j hj
      have hapart : (answer == .no) = false := beq_eq_false_iff_ne.mpr hno
      unfold separates
      dsimp only
      split
      · exact ⟨d.asked, rfl⟩
      · exact ⟨(i, j) :: d.asked, by rw [hans, ← hapart]; rfl⟩
  next => exact ⟨d.asked, rfl⟩

theorem askApart_none (d : Draft) :
    askApart ⟨block, none, o⟩ i j depth d = .ok (false, d) := by
  unfold askApart separates
  split <;> rfl

/-- Whether the oracle is asked or not, the visit adds its edge. -/
theorem memoryLockstep_unseparated (horacle : SeparatesNothing oracle o block) :
    MemoryLockstep Unomitted ⟨block, some oracle, o⟩ ⟨block, none, o'⟩ where
  toLockstep := lockstep_unomitted
  block := rfl
  visit {d d'} h su target depth := by
    rw [visitChain_eq, visitChain_eq]
    have hinstr : ∀ id, MemoryScope.instr ⟨block, none, o'⟩ d'.graph id =
        MemoryScope.instr ⟨block, some oracle, o⟩ d.graph id := by
      intro id
      rw [h.graph]
      rfl
    rw [hinstr, hinstr]
    refine Alike.bind_same_ok fun i hi => Alike.bind_same_ok fun j hj => ?_
    obtain ⟨asked, hasked⟩ := askApart_unseparated horacle (MemoryScope.instr_mem hi)
      (MemoryScope.instr_mem hj) depth d
    rw [hasked, askApart_none]
    have hdraft : Unomitted { d with asked } d' := ⟨h.graph, h.hints, h.omitted, h.omitted'⟩
    exact (lockstep_unomitted.withDep hdraft target _).bind fun e e' he => .pure ⟨rfl, rfl, he⟩

theorem memoryLockstep_unasked : MemoryLockstep Eq ⟨block, none, o⟩ ⟨block, none, o'⟩ where
  toLockstep := lockstep_eq
  block := rfl
  visit {d d'} h su target depth := by
    subst h
    rw [visitChain_eq, visitChain_eq]
    simp only [askApart_none]
    exact .refl (fun _ => ⟨rfl, rfl, rfl⟩) _

theorem MemoryWalk.eq_of_beside {w w' : MemoryWalk} (h : w.Beside Eq w') : w = w' := by
  obtain ⟨chains, draft⟩ := w
  obtain ⟨chains', draft'⟩ := w'
  obtain ⟨rfl, rfl⟩ := h
  rfl

/-! Limits without an oracle -/

/-- The setup with other limits for the walk through memory. -/
def Setup.withLimits (s : Setup) (depth limit : Nat) : Setup :=
  { s with options := (s.options.withMaxChainDepth depth).withMaxRejected limit }

namespace Walk

variable {w w' : Walk} {k : Nat}

theorem step_withLimits (hw : w.chains.rejected = []) :
    w.step (s.withLimits depth limit) reads block none su i = w.step s reads block none su i := by
  have hlock : MemoryLockstep Eq ⟨block, none, (s.withLimits depth limit).options⟩
      ⟨block, none, s.options⟩ := memoryLockstep_unasked
  have hmemory : ∀ draft : Draft, MemoryWalk.add ⟨block, none, (s.withLimits depth limit).options⟩
      su i ⟨w.chains, draft⟩ = MemoryWalk.add ⟨block, none, s.options⟩ su i ⟨w.chains, draft⟩ := by
    intro draft
    have hstart : MemoryWalk.Beside Eq ⟨w.chains, draft⟩ ⟨w.chains, draft⟩ := ⟨rfl, rfl⟩
    exact ((hlock.add hstart (.inr hw)).mono fun _ _ => MemoryWalk.eq_of_beside).eq
  unfold step
  simp only [hmemory]
  rfl

/-- Without an oracle nothing is rejected at any point of a walk, so no step looks at a limit. -/
theorem downTo_withLimits (hw : w.Sound block none units units.length) (hk : k ≤ units.length) :
    downTo (s.withLimits depth limit) reads block none units k w =
      downTo s reads block none units k w := by
  obtain ⟨n, hn⟩ : ∃ n, k + n = units.length := ⟨_, Nat.add_sub_cancel' hk⟩
  induction n generalizing k with
  | zero =>
    obtain rfl : k = units.length := hn
    rw [downTo_length, downTo_length]
  | succ n ih =>
    have hi : units[k]? = some units[k] := List.getElem?_eq_getElem (by omega)
    rw [downTo_succ hi, downTo_succ hi, ih (by omega) (by omega)]
    refine Alike.eq (Alike.bind_same_ok fun v hv => ?_)
    have hsound : v.Sound block none units (k + 1) :=
      downTo_induction (Walk.Sound block none units) hw
        (fun _ _ _ _ hi _ hv h => step_sound hv hi h) (by omega) hv
    rw [step_withLimits (hsound.filed.unasked rfl)]
    exact .refl (fun _ => rfl) _

end Walk

theorem Stats.omitted_record (st : Stats) (h : d.omitted = 0) :
    (st.record d).omitted = st.omitted := by
  show st.omitted + d.omitted = st.omitted
  rw [h, Nat.add_zero]

namespace Builder

variable {b b' : Builder} {r : Region}

theorem build_withLimits (hb : b.regs.Sound) :
    b.build (s.withLimits depth limit) none = b.build s none := by
  unfold build
  split
  · rfl
  next r hr =>
  refine Alike.eq (Alike.bind_same_ok fun block hblock => ?_)
  refine Alike.bind_same_ok fun graph hgraph => Alike.bind_same_ok fun regs hregs => ?_
  have hstart : Walk.Sound block none ((r.units block).map Prod.snd)
      ((r.units block).map Prod.snd).length { regs, draft := { graph } } :=
    ⟨Graph.wraps_unlinked hgraph, (readAtExit_ok hb hregs).1, MemoryChains.filed_empty⟩
  rw [Walk.run_eq_downTo, Walk.run_eq_downTo]
  have hrun : Walk.downTo (s.withLimits depth limit) b.loopReads block none
      ((r.units block).map Prod.snd) 0 { regs, draft := { graph } } =
      Walk.downTo s b.loopReads block none ((r.units block).map Prod.snd) 0
        { regs, draft := { graph } } := Walk.downTo_withLimits hstart (Nat.zero_le _)
  rw [hrun]
  exact .refl (fun _ => rfl) _

/-- An oracle that separates nothing changes nothing. A region is built with it exactly when it is
built without one, whatever the limits there, the two graphs are the same, and no edge is counted as
left out. -/
theorem buildRegion_of_unseparated (hb : b.Usable s) (hb' : b'.Usable (s.withLimits depth limit))
    (r : Region) (horacle : ∀ block, s.func.block r.block = .ok block →
      SeparatesNothing oracle s.options block) :
    Alike (fun p p' => p.2 = p'.2 ∧ p.1.stats.omitted = b.stats.omitted ∧
        p'.1.stats.omitted = b'.stats.omitted)
      (b.buildRegion s r (some oracle)) (b'.buildRegion (s.withLimits depth limit) r none) := by
  have hstart : Alike (fun c c' => Same s.regs.count s.func.virtualCount c c' ∧
      c.stats = b.stats ∧ c'.stats = b'.stats) (b.start s r)
      (b'.start (s.withLimits depth limit) r) := start_alike hb.fits hb'.fits r
  have hstarted : Alike (fun _ c' => b'.start (s.withLimits depth limit) r = .ok c') (b.start s r)
      (b'.start (s.withLimits depth limit) r) := hstart.of_ok fun _ _ _ hc' => hc'
  refine (hstart.and hstarted).bind fun c c' ⟨⟨hsame, hstats, hstats'⟩, hc'⟩ => ?_
  rw [build_withLimits (Usable.start hb' hc').regs_sound]
  have hbuild : Alike (BuiltBeside s.regs.count s.func.virtualCount Unomitted c c')
      (c.build s (some oracle)) (c'.build s none) := by
    refine hsame.build_beside (fun block r => ?_) fun r' block hr' hblock => ?_
    · exact (Alike.refl (fun _ => rfl) (s.unlinked block r)).mono
        fun _ _ hg => ⟨hg, rfl, rfl, rfl⟩
    · obtain rfl : r = r' := Option.some.inj ((start_ok hc').1.symm.trans hr')
      exact ⟨lockstep_unomitted.linkedAlike, memoryLockstep_unseparated (horacle block hblock)⟩
  refine hbuild.mono fun p p' hp => ?_
  obtain ⟨d, d', hd, hg, hg', hcount, hcount'⟩ := hp.drafts
  refine ⟨by rw [hg, hg', hd.graph], ?_, ?_⟩
  · rw [hcount, Stats.omitted_record c.stats hd.omitted, hstats]
  · rw [hcount', Stats.omitted_record c'.stats hd.omitted', hstats']

/-- A store, a store to bytes that it shares, and a load from all of them: the byte ranges separate
nothing. Where the stores are apart, the oracle has to be kept from saying so. -/
theorem buildRegion_of_shared_bytes :
    let store (offset : Int) := ({ opcode := "st" } : Instr).storing (.ofPrivate 7 offset 4)
    let load := (({ opcode := "ld" } : Instr).withDef ⟨0⟩).loading (.ofPrivate 7 1 8)
    let shared := Setup.straightLine { count := 1 } [store 0, store 2, load]
    let apart := { Setup.straightLine { count := 1 } [store 0, store 4, load] with
      options := { maxChainDepth := 0 } }
    let edge : NodeId × NodeId × Dep := (.unit 0, .unit 1, .order (.unit 0) 0)
    (∃ c c' g, ({} : Builder).buildRegion shared ⟨⟨0⟩, 0, 3⟩ (some Oracle.offsets) = .ok (c, g) ∧
      ({} : Builder).buildRegion (shared.withLimits 3 0) ⟨⟨0⟩, 0, 3⟩ none = .ok (c', g) ∧
      edge ∈ g.edges ∧ c.stats.omitted = 0) ∧
    ∃ c c' g, ({} : Builder).buildRegion apart ⟨⟨0⟩, 0, 3⟩ (some Oracle.offsets) = .ok (c, g) ∧
      ({} : Builder).buildRegion (apart.withLimits 3 0) ⟨⟨0⟩, 0, 3⟩ none = .ok (c', g) ∧
      edge ∈ g.edges ∧ c.stats.omitted = 0 := by
  intro store load shared apart edge
  have hshared : ∀ block, shared.func.block ⟨0⟩ = .ok block →
      SeparatesNothing Oracle.offsets shared.options block := by
    intro block hblock
    obtain rfl : { id := ⟨0⟩, instrs := #[store 0, store 2, load] } = block := Except.ok.inj hblock
    have hanswers : ∀ i ∈ #[store 0, store 2, load], ∀ j ∈ #[store 0, store 2, load],
        (Oracle.offsets i j).map (fun answer => decide (answer ≠ .no)) = .ok true := by decide
    exact .inr fun i hi j hj => exists_of_map_decide (hanswers i hi j hj)
  have hapart : ∀ block, apart.func.block ⟨0⟩ = .ok block →
      SeparatesNothing Oracle.offsets apart.options block := fun _ _ => .inl rfl
  have hfresh : ∀ s : Setup, ({} : Builder).Usable s := fun _ => .fresh
  have hedge : ((({} : Builder).buildRegion shared ⟨⟨0⟩, 0, 3⟩ (some Oracle.offsets)).map
      fun p => decide (edge ∈ p.2.edges)) = .ok true := by cbv
  have hedge' : ((({} : Builder).buildRegion apart ⟨⟨0⟩, 0, 3⟩ (some Oracle.offsets)).map
      fun p => decide (edge ∈ p.2.edges)) = .ok true := by cbv
  obtain ⟨⟨c, g⟩, h, he⟩ := exists_of_map_decide hedge
  obtain ⟨⟨e, f⟩, h', he'⟩ := exists_of_map_decide hedge'
  have halike := buildRegion_of_unseparated (hfresh shared) (hfresh (shared.withLimits 3 0))
    ⟨⟨0⟩, 0, 3⟩ hshared
  have halike' := buildRegion_of_unseparated (hfresh apart) (hfresh (apart.withLimits 3 0))
    ⟨⟨0⟩, 0, 3⟩ hapart
  rw [h] at halike
  rw [h'] at halike'
  obtain ⟨⟨c', g'⟩, hnone, rfl, homitted, -⟩ := halike.exists_ok
  obtain ⟨⟨e', f'⟩, hnone', rfl, homitted', -⟩ := halike'.exists_ok
  exact ⟨⟨c, c', _, h, hnone, he, homitted⟩, e, e', _, h', hnone', he', homitted'⟩

end Builder

end Precedence
