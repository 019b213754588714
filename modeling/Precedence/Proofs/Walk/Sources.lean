import Precedence.Proofs.Walk.Course
import Precedence.Proofs.Walk.MemoryRequests

/-!
Where the edges of a finished graph come from. Every edge was asked for at some step of the walk, and
its latency is the greatest that was asked for.
-/
namespace Precedence

variable {s : Setup} {reads : LoopReads} {block : Block} {oracle : Option Oracle}
  {units : List Instr} {su : Nat} {i : Instr}

namespace Walk

variable {w w' : Walk}

/-- What one step of the walk asks for. -/
inductive Request (s : Setup) (reads : LoopReads) (block : Block) (oracle : Option Oracle)
    (units : List Instr) (w : Walk) (su : Nat) (i : Instr) : NodeId → Dep → Prop
  | register {n : NodeId} {dep : Dep}
      (asked : RegisterRequest s reads block w.draft.graph (.unit su) n dep) :
      Request s reads block oracle units w su i n dep
  | barrier {n : NodeId} (known : w.barriers.last = some n ∨ (i.isBarrier ∧ n ∈ w.barriers.since)) :
      Request s reads block oracle units w su i n (.order (.unit su) 0)
  | memory {n : NodeId} {dep : Dep} (tracked : i.isTracked)
      (asked : MemoryRequest ⟨block, oracle, s.options⟩ units w.chains su i n dep) :
      Request s reads block oracle units w su i n dep

theorem addBarrierDeps_growsBy {c c' : Barriers} {t t' : Tracker} {d d' : Draft}
    {asked : NodeId → Dep → Prop}
    (hasked : ∀ n, c.last = some n ∨ (i.isBarrier ∧ n ∈ c.since) → asked n (.order (.unit su) 0))
    (h : addBarrierDeps s (.unit su) i c t d = .ok (c', t', d')) :
    d.graph.GrowsBy asked d'.graph := by
  have hall : ∀ {nodes : List NodeId} {e : Draft},
      (∀ n ∈ nodes, c.last = some n ∨ (i.isBarrier ∧ n ∈ c.since)) →
      d.orderBefore (.unit su) nodes = .ok e → d.graph.GrowsBy asked e.graph := fun hnodes h =>
    .of_foldlM Draft.graph (fun n hn _ _ _ h => Draft.withDep_growsBy h (hasked n (hnodes n hn))) h
  unfold addBarrierDeps at h
  split at h
  next hbarrier =>
    simp only [bind_eq_ok, pure_eq_ok, Prod.mk.injEq] at h
    obtain ⟨d₁, hd, t₁, -, -, -, rfl⟩ := h
    refine hall (fun n hn => ?_) hd
    rw [List.mem_append, Option.mem_toList] at hn
    exact hn.symm.imp_right fun hn => ⟨hbarrier, hn⟩
  next =>
    simp only [bind_eq_ok, pure_eq_ok, Prod.mk.injEq] at h
    obtain ⟨d₁, hd, -, -, rfl⟩ := h
    exact hall (fun n hn => .inl (Option.mem_toList.mp hn)) hd

/-- What a step has done: it has added what it asked for, and an access has its edge to every known
one that it meets if no oracle is asked about the two. -/
structure Answered (s : Setup) (reads : LoopReads) (block : Block) (oracle : Option Oracle)
    (units : List Instr) (w : Walk) (su : Nat) (i : Instr) (g : Graph) : Prop where
  growsBy : w.draft.graph.GrowsBy (Request s reads block oracle units w su i) g
  linked : i.isTracked → ∀ t j, .unit t ∈ w.chains.meets i → units[t]? = some j →
    i.isGlobalAccess ∨ j.isGlobalAccess →
    g.HasAtLeast (.unit t) (.order (.unit su) (orderLatency i j))

theorem step_answered (hw : w.Sound block oracle units (su + 1)) (hi : units[su]? = some i)
    (h : w.step s reads block oracle (.unit su) i = .ok w') :
    Answered s reads block oracle units w su i w'.draft.graph := by
  simp only [step, bind_eq_ok, pure_eq_ok, Prod.exists] at h
  obtain ⟨r, d₁, h₁, barriers, t, d₂, h₂, m, h₃, rfl⟩ := h
  have hregisters : w.draft.graph.GrowsBy (Request s reads block oracle units w su i) d₁.graph :=
    (addRegisterDeps_growsBy rfl h₁).mono fun _ _ => .register
  have hbarriers := hregisters.trans (addBarrierDeps_growsBy (fun n => .barrier) h₂)
  have hmemory := add_requested (m := ⟨block, oracle, s.options⟩) (w := ⟨w.chains, d₂⟩)
    (hw.wraps.grows hbarriers.grows) hi hw.filed h₃
  rcases hmemory with ⟨htracked, hput⟩ | ⟨hother, rfl⟩
  · exact ⟨hbarriers.trans (hput.growsBy.mono fun _ _ => .memory htracked), fun _ => hput.linked⟩
  · exact ⟨hbarriers, fun htracked => by simp [hother] at htracked⟩

/-- What the walk keeps in sight: the nearest barrier is one, and memory keeps track of all accesses
that are known. -/
structure Known (units : List Instr) (k : Nat) (w : Walk) : Prop where
  last : ∀ n, w.barriers.last = some n → IsUnit units k (fun j => j.isBarrier) n
  since : ∀ n ∈ w.barriers.since, IsUnit units k (fun _ => True) n
  tracked : ∀ n ∈ w.chains.all, IsUnit units k (fun j => j.isTracked) n

theorem Known.step (hk : w.Known units (su + 1)) (hw : w.Sound block oracle units (su + 1))
    (hi : units[su]? = some i) (h : w.step s reads block oracle (.unit su) i = .ok w') :
    w'.Known units su := by
  have hself : IsUnit units su (fun _ => True) (.unit su) := ⟨su, i, rfl, le_rfl, hi, trivial⟩
  obtain ⟨r, d₁, d₂, hstep⟩ := step_ok hw hi h
  have hlater := fun n hn => (hk.tracked n hn).mono su.le_succ fun _ => id
  refine ⟨fun n hn => ?_, fun n hn => ?_, ?_⟩
  · by_cases hbar : i.isBarrier
    · rw [(hstep.barriers.barrier hbar).1] at hn
      cases hn
      exact ⟨su, i, rfl, le_rfl, hi, hbar⟩
    · rw [(hstep.barriers.plain hbar).1] at hn
      exact (hk.last n hn).mono su.le_succ fun _ => id
  · by_cases hbar : i.isBarrier
    · simp [(hstep.barriers.barrier hbar).1] at hn
    · rw [(hstep.barriers.plain hbar).1, List.mem_append, List.mem_singleton] at hn
      rcases hn with hn | rfl
      · exact (hk.since n hn).mono su.le_succ fun _ => id
      · exact hself
  · cases hit : i.isTracked with
    | true => exact hstep.memory.all (fun _ => hlater) ⟨su, i, rfl, le_rfl, hi, hit⟩
    | false =>
      have hsame : w'.chains = w.chains := by
        simp only [Walk.step, bind_eq_ok, pure_eq_ok, Prod.exists] at h
        obtain ⟨r, d₁, -, barriers, t, d₂, -, m, h₃, rfl⟩ := h
        simp only [Instr.isTracked, Bool.or_eq_false_iff] at hit
        obtain ⟨⟨hglobal, hstore⟩, hload⟩ := hit
        simp only [MemoryWalk.add, hglobal, hstore, hload, Bool.false_eq_true, if_false,
          Except.ok.injEq] at h₃
        rw [← h₃]
      rw [hsame]
      exact hlater

end Walk

namespace Builder

variable {b b' : Builder} {r : Region} {g : Graph}

/-- The walk through a region comes to unit `x`, the instruction `i`, as `v`. -/
structure ComesTo (s : Setup) (b : Builder) (r : Region) (oracle : Option Oracle) (block : Block)
    (start : Graph) (x : Nat) (i : Instr) (v : Walk) : Prop where
  instr : (s.unitsOf r)[x]? = some i
  walk : b.walkTo s r oracle (x + 1) = .ok v
  sound : v.Sound block oracle (s.unitsOf r) (x + 1)
  known : v.Known (s.unitsOf r) (x + 1)
  bare : v.draft.graph.bare = start.bare

/-- Where the edges of a finished graph come from: it has grown, from a graph without edges, by what
the steps of the walk ask for, each as the walk comes to its unit. -/
structure Sources (s : Setup) (b : Builder) (r : Region) (oracle : Option Oracle) (block : Block)
    (start : Graph) (reads : LoopReads) (g : Graph) : Prop where
  block_eq : s.func.block r.block = .ok block
  unlinked : s.unlinked block r = .ok start
  growsBy : start.GrowsBy (fun n dep => ∃ x i v, ComesTo s b r oracle block start x i v ∧
    v.Request s reads block oracle (s.unitsOf r) x i n dep) g
  linked : ∀ x i v, ComesTo s b r oracle block start x i v → i.isTracked → ∀ t j,
    .unit t ∈ v.chains.meets i → (s.unitsOf r)[t]? = some j →
    i.isGlobalAccess ∨ j.isGlobalAccess →
    g.HasAtLeast (.unit t) (.order (.unit x) (orderLatency i j))

theorem sources (hb : b.Usable s) (h : b.buildRegion s r oracle = .ok (b', g)) :
    ∃ block start reads, Sources s b r oracle block start reads g := by
  obtain ⟨w, hw, rfl⟩ := walkTo_of_buildRegion h
  simp only [walkTo, bind_eq_ok] at hw
  obtain ⟨c, hc, block, hblock, start, hgraph, regs, hregs, hw⟩ := hw
  have hwalk : ∀ k v, Walk.downTo s c.loopReads block oracle (s.unitsOf r) k
      { regs, draft := { graph := start } } = .ok v → b.walkTo s r oracle k = .ok v := by
    intro k v hv
    simp only [walkTo, bind_eq_ok]
    exact ⟨c, hc, block, hblock, start, hgraph, regs, hregs, hv⟩
  -- all four hold from unit `k` on
  have hall := Walk.downTo_induction (fun k w =>
    w.Sound block oracle (s.unitsOf r) k ∧ w.Known (s.unitsOf r) k ∧
      start.GrowsBy (fun n dep => ∃ x i v, ComesTo s b r oracle block start x i v ∧
        v.Request s c.loopReads block oracle (s.unitsOf r) x i n dep) w.draft.graph ∧
      ∀ x i v, k ≤ x → ComesTo s b r oracle block start x i v → i.isTracked → ∀ t j,
        .unit t ∈ v.chains.meets i → (s.unitsOf r)[t]? = some j →
        i.isGlobalAccess ∨ j.isGlobalAccess →
        w.draft.graph.HasAtLeast (.unit t) (.order (.unit x) (orderLatency i j)))
    ⟨⟨unitsOf_eq hblock ▸ Graph.wraps_unlinked hgraph,
        (readAtExit_ok (Usable.start hb hc).regs_sound hregs).1, MemoryChains.filed_empty⟩,
      ⟨by simp, by simp, fun n hn => ?_⟩, .refl, fun x i v hx hv =>
        absurd hv.instr (not_unit_of_length_le hx)⟩
    (fun k i v v' hi hv hbefore hstep => ?_) (Nat.zero_le _) hw
  · obtain ⟨-, -, hgrows, hlinked⟩ := hall
    exact ⟨block, start, c.loopReads, hblock, hgraph, hgrows, fun x i v => hlinked x i v x.zero_le⟩
  · simp [MemoryChains.mem_all, MemoryChains.defOf, MemoryChains.usesOf] at hn
  · obtain ⟨hsound, hknown, hgrows, hlinked⟩ := hbefore
    have hcome : ComesTo s b r oracle block start k i v :=
      ⟨hi, hwalk _ v hv, hsound, hknown, hgrows.bare_eq⟩
    have hanswered := Walk.step_answered hsound hi hstep
    refine ⟨Walk.step_sound hsound hi hstep, hknown.step hsound hi hstep,
      hgrows.trans (hanswered.growsBy.mono fun n dep hdep => ⟨k, i, v, hcome, hdep⟩),
      fun x j u hx hu ht t l hmet hl hglobal => ?_⟩
    rcases Nat.eq_or_lt_of_le hx with rfl | hx
    · obtain rfl := Option.some.inj (hi.symm.trans hu.instr)
      obtain rfl := Except.ok.inj (hcome.walk.symm.trans hu.walk)
      exact hanswered.linked ht t l hmet hl hglobal
    · exact hanswered.growsBy.hasAtLeast (hlinked x j u hx hu ht t l hmet hl hglobal)

namespace Sources

variable {start : Graph} {p n : NodeId} {d : Dep}

theorem mirrored (h : Sources s b r oracle block start reads g) : g.Mirrored := by
  obtain ⟨hpreds, hsuccs⟩ := Graph.no_edges_unlinked h.unlinked
  exact h.growsBy.grows.mirrored (Graph.mirrored_of_no_edges hpreds hsuccs)

/-- Every edge was asked for, with its latency, when the walk came to some unit. -/
theorem exists_request (h : Sources s b r oracle block start reads g) (he : (p, n, d) ∈ g.edges) :
    ∃ x i v dep, ComesTo s b r oracle block start x i v ∧
      v.Request s reads block oracle (s.unitsOf r) x i n dep ∧
      dep.node = p ∧ dep.kind = d.kind ∧ dep.reg = d.reg ∧ dep.latency = d.latency := by
  have hlatency := h.mirrored.latency?_of_mem_edges he
  have hnone := Graph.latency?_of_no_edges (s := n) (c := (p, d.kind, d.reg))
    (Graph.no_edges_unlinked h.unlinked).1
  rcases h.growsBy.latency? hlatency with hold | ⟨dep, ⟨x, i, v, hv, hdep⟩, hc, hl⟩
  · rw [hnone] at hold
    cases hold
  · simp only [Dep.constraint, Prod.mk.injEq] at hc
    exact ⟨x, i, v, dep, hv, hdep, hc.1, hc.2.1, hc.2.2, hl⟩

end Sources

end Builder

end Precedence
