import Precedence.Proofs.Build.Reuse
import Precedence.Proofs.Order.Memory
import Precedence.Proofs.Total.Memory
import Precedence.Proofs.Walk.Clashes

/-!
A build that asks an oracle beside one that asks none. The two walks know the same registers and the
same barriers all along; they differ in the accesses that memory keeps in sight. Without an oracle
every access is put before all later ones that it clashes with, one way or another, and so whatever
the search behind separated accesses adds is a path of the other graph already.
-/
namespace Precedence

theorem Graph.bare_withoutOrder {g : Graph} : g.withoutOrder.bare = g.bare := bare_only

/-- The second graph has the nodes of the first and the same edges, those that order memory aside,
and it has a path wherever the first one has an edge. -/
structure Tighter (d d' : Draft) : Prop where
  linked : d.graph.Linked
  linked' : d'.graph.Linked
  rest : d.graph.withoutOrder = d'.graph.withoutOrder
  path : ∀ p n, d.graph.Joins p n → d'.graph.Path p n

theorem Tighter.bare {d d' : Draft} (h : Tighter d d') : d.graph.bare = d'.graph.bare := by
  rw [← Graph.bare_withoutOrder, h.rest, Graph.bare_withoutOrder]

/-- An edge of a kind that is kept is added to what is left of two graphs alike. -/
theorem Graph.withoutOrder_withDep {g g' e e' : Graph} {succ : NodeId} {dep : Dep}
    (h : g.withoutOrder = g'.withoutOrder) (he : g.withDep succ dep = .ok e)
    (he' : g'.withDep succ dep = .ok e') : e.withoutOrder = e'.withoutOrder := by
  by_cases hk : (dep.kind != .order) = true
  · have hview : g.withoutOrder.withDep succ dep = .ok e.withoutOrder := only_withDep hk he
    have hview' : g'.withoutOrder.withDep succ dep = .ok e'.withoutOrder := only_withDep hk he'
    rw [h] at hview
    exact Except.ok.inj (hview.symm.trans hview')
  · rw [Bool.not_eq_true] at hk
    have hview : e.withoutOrder = g.withoutOrder := only_withDep_of_not hk he
    have hview' : e'.withoutOrder = g'.withoutOrder := only_withDep_of_not hk he'
    rw [hview, h, hview']

theorem lockstep_tighter : Lockstep Tighter where
  bare h := h.bare
  withDep {d d'} h succ dep := by
    refine Draft.withDep_alike h.linked h.linked' h.bare rfl fun g g' hg hg' => ?_
    have hgrows' := Graph.grows_withDep hg'
    refine ⟨(Graph.grows_withDep hg).linked h.linked, hgrows'.linked h.linked',
      Graph.withoutOrder_withDep h.rest hg hg', fun p n ⟨k, r, he⟩ => ?_⟩
    rcases (Graph.hasEdge_withDep_iff h.linked hg).mp he with he | ⟨rfl, rfl, rfl, rfl⟩
    · exact hgrows'.path (h.path p n ⟨k, r, he⟩)
    · exact (Graph.hasEdge_withDep h.linked' hg').path
  scheduleHigh {d d'} h id := by
    refine (Graph.modifyNode_alike h.bare).of_ok fun g g' hg hg' => ?_
    obtain ⟨hgrows, hout⟩ := Graph.grows_modifyNode hg (fun _ => rfl) (fun _ => rfl) fun _ => rfl
    obtain ⟨hgrows', -⟩ := Graph.grows_modifyNode hg' (fun _ => rfl) (fun _ => rfl) fun _ => rfl
    refine ⟨hgrows.linked h.linked, hgrows'.linked h.linked', ?_, fun p n ⟨k, r, he⟩ => ?_⟩
    · have hview : ∀ {g e : Graph},
          g.modifyNode id (fun n => { n with scheduleHigh := true }) = .ok e →
          g.withoutOrder.modifyNode id (fun n => { n with scheduleHigh := true }) =
            .ok e.withoutOrder := Graph.modifyNode_mapNodes fun _ => rfl
      have hview₁ := hview hg
      rw [h.rest] at hview₁
      exact Except.ok.inj (hview₁.symm.trans (hview hg'))
    · rw [Graph.HasEdge, hout] at he
      exact hgrows'.path (h.path p n ⟨k, r, he⟩)
  hint h := ⟨h.linked, h.linked', h.rest, h.path⟩

/-! Memory -/

theorem MemoryWalk.add_of_untracked {m : MemoryScope} {su : NodeId} {i : Instr} {w : MemoryWalk}
    (h : i.isTracked = false) : w.add m su i = .ok w := by
  simp only [Instr.isTracked, Bool.or_eq_false_iff] at h
  obtain ⟨⟨hglobal, hstore⟩, hload⟩ := h
  simp [add, hglobal, hstore, hload]

section

variable {m m' : MemoryScope} {units : List Instr} {su : Nat} {i : Instr} {w v w' v' : MemoryWalk}

/-- If all that an access clashes with is a path away in the second graph in the end, so is all that
it is put before in the first one. -/
theorem Tighter.add (h : Tighter w.draft w'.draft) (hi : units[su]? = some i)
    (hw : w.draft.graph.Wraps m.block units) (hw' : w'.draft.graph.Wraps m'.block units)
    (hf : w.chains.Filed m.oracle units (su + 1)) (hf' : w'.chains.Filed m'.oracle units (su + 1))
    (hroom : w.chains.rejected.length ≤ m.options.maxRejected)
    (hroom' : w'.chains.rejected.length ≤ m'.options.maxRejected)
    (hv : w.add m (.unit su) i = .ok v) (hv' : w'.add m' (.unit su) i = .ok v')
    (hpath : ∀ t j, .unit t ∈ w.chains.all → units[t]? = some j → Clash i j →
      v'.draft.graph.Path (.unit su) (.unit t)) : Tighter v.draft v'.draft := by
  have hgrows' := (add_ok hw' hi hf' hv').grows
  have hsealed : Sealed units su (fun t => v'.draft.graph.Path (.unit su) (.unit t))
      w.draft.graph := fun t j z r _ ht _ _ he =>
    ht.trans (hgrows'.path (h.path _ _ ⟨_, _, he⟩))
  have hclosed : Closed m units su i (fun t => v'.draft.graph.Path (.unit su) (.unit t)) w :=
    ⟨hw, hi, hf, hroom, hsealed, hpath⟩
  have hclosed' : Closed m' units su i (fun _ => True) w' :=
    ⟨hw', hi, hf', hroom', fun _ _ _ _ _ _ _ _ _ => trivial, fun _ _ _ _ _ => trivial⟩
  obtain ⟨d, hd, hexit⟩ := hclosed.add hv
  obtain ⟨d', hd', hexit'⟩ := hclosed'.add hv'
  have hrest : d.graph.withoutOrder = d'.graph.withoutOrder := by rw [hd.rest, h.rest, hd'.rest]
  have hlinked := hd.adds.grows.linked h.linked
  have hlinked' := hd'.adds.grows.linked h.linked'
  have hedges : ∀ p n, d.graph.Joins p n → v'.draft.graph.Path p n := by
    rintro p n ⟨k, r, he⟩
    rcases hd.adds.edge p n k r he with he | ⟨rfl, -, -, t, rfl, ht⟩
    · exact hgrows'.path (h.path p n ⟨k, r, he⟩)
    · exact ht
  split at hexit
  next hstore =>
    rw [if_pos hstore] at hexit'
    have hadds := Draft.withDep_adds hlinked hexit
    have hadds' := Draft.withDep_adds hlinked' hexit'
    simp only [Draft.withDep, bind_eq_ok, pure_eq_ok] at hexit hexit'
    obtain ⟨g, hg, hgv⟩ := hexit
    obtain ⟨g', hg', hgv'⟩ := hexit'
    refine ⟨hadds.grows.linked hlinked, hadds'.grows.linked hlinked', ?_, ?_⟩
    · rw [← hgv, ← hgv']
      exact Graph.withoutOrder_withDep hrest hg hg'
    · rintro p n ⟨k, r, he⟩
      rcases (hadds.edge_iff p n k r).mp he with he | he
      · exact hedges p n ⟨k, r, he⟩
      · exact Graph.HasEdge.path ((hadds'.edge_iff p n k r).mpr (.inr he))
  next hstore =>
    rw [if_neg hstore] at hexit'
    subst hexit hexit'
    exact ⟨hlinked, hlinked', hrest, hedges⟩

end

/-! Walks -/

/-- The walk that asks an oracle, and the one that asks none, before unit `k`. -/
structure Walk.Loosened (s : Setup) (b : Block) (oracle : Oracle) (units : List Instr) (k : Nat)
    (w w' : Walk) : Prop where
  sound : w.Sound b (some oracle) units k
  sound' : w'.Sound b none units k
  regs : w.regs.Same s.regs.count s.func.virtualCount w'.regs
  barriers : w.barriers = w'.barriers
  drafts : Tighter w.draft w'.draft
  tracked : ∀ n ∈ w.chains.all, IsUnit units k (fun j => j.isTracked) n
  ordered : MemoryOrdered none units (fun _ _ => False) k w'

section

variable {s : Setup} {reads : LoopReads} {block : Block} {oracle : Oracle} {units : List Instr}
  {su : Nat} {i : Instr} {w w' v : Walk}

theorem Walk.Loosened.step (h : Walk.Loosened s block oracle units (su + 1) w w')
    (hagree : ObjectsAgree units) (hroom : units.length ≤ s.options.maxRejected)
    (hi : units[su]? = some i) (hv : w.step s reads block (some oracle) (.unit su) i = .ok v) :
    ∃ v', w'.step s reads block none (.unit su) i = .ok v' ∧
      Walk.Loosened s block oracle units su v v' := by
  have hsound := Walk.step_sound h.sound hi hv
  simp only [Walk.step, bind_eq_ok, pure_eq_ok, Prod.exists] at hv
  obtain ⟨r, d₁, h₁, c, t, d₂, h₂, mv, hmv, rfl⟩ := hv
  -- registers and barriers go along, and memory always gets to its end
  obtain ⟨⟨r', d₁'⟩, h₁', hr, hd₁⟩ :=
    (h₁ ▸ lockstep_tighter.addRegisterDeps h.regs h.drafts).exists_ok
  obtain ⟨⟨c', t', d₂'⟩, h₂', rfl, ht, hd₂⟩ :=
    (h₂ ▸ lockstep_tighter.addBarrierDeps (s := s) (i := i) (c := w.barriers)
      hr.tracker hd₁).exists_ok
  have hw := (h.sound.wraps.grows (addRegisterDeps_ok h.sound.wraps h.sound.regs hi h₁).keeps.grows)
  have hw' := (h.sound'.wraps.grows
    (addRegisterDeps_ok h.sound'.wraps h.sound'.regs hi h₁').keeps.grows)
  have hw₂ := hw.grows (addBarrierDeps_ok hw h₂).grows
  have hw₂' := hw'.grows (addBarrierDeps_ok hw' h₂').grows
  obtain ⟨mv', hmv', -⟩ := MemoryWalk.add_returns (m := ⟨block, none, s.options⟩)
    (w := ⟨w'.chains, d₂'⟩) answers_none ⟨hw₂', rfl⟩ h.sound'.filed hi
  have hv' : w'.step s reads block none (.unit su) i = .ok
      { regs := { r' with tracker := t' }, barriers := c, chains := mv'.chains,
        draft := mv'.draft } := by
    simp only [Walk.step, bind_eq_ok, pure_eq_ok, Prod.exists]
    exact ⟨r', d₁', h₁', c, t', d₂', h.barriers ▸ h₂', mv', hmv', rfl⟩
  have hnone : w'.chains.rejected = [] := h.sound'.filed.unasked rfl
  obtain ⟨_, _, _, hstepped⟩ := Walk.step_ok h.sound' hi hv'
  have hordered := h.ordered.step hagree hi h.sound'.filed
    (fun x hx => by simpa [hnone] using hx.full) hstepped
  have hmemory : Tighter mv.draft mv'.draft ∧
      ∀ n ∈ mv.chains.all, IsUnit units su (fun j => j.isTracked) n := by
    have hlater := fun n hn => (h.tracked n hn).mono su.le_succ fun _ => id
    cases hit : i.isTracked with
    | false =>
      rw [MemoryWalk.add_of_untracked hit, Except.ok.injEq] at hmv hmv'
      subst hmv hmv'
      exact ⟨hd₂, hlater⟩
    | true =>
      refine ⟨hd₂.add hi hw₂ hw₂' h.sound.filed h.sound'.filed
          (h.sound.filed.rejected_length_le.trans hroom) (by simp [hnone]) hmv hmv'
          fun t j hmem hj hclash => ?_,
        (add_ok hw₂ hi h.sound.filed hmv).all (fun _ => hlater) ⟨su, i, rfl, le_rfl, hi, hit⟩⟩
      obtain ⟨_, ⟨⟩, hlt, -⟩ := (h.tracked _ hmem).later
      obtain ⟨hglobal, htouch⟩ := hordered.ordered su t i j le_rfl hlt hi hj hit
        ((h.tracked _ hmem).instr hj)
      rcases hclash with hg | hg | ⟨hc, hm⟩
      · exact hglobal (.inl hg)
      · exact hglobal (.inr hg)
      · have hnone : ¬Separated none i j := by
          rintro ⟨answer, ho, -⟩
          cases ho
        rcases htouch hc hm hnone with hpath | hlost
        · exact hpath
        · obtain ⟨-, -, -, hlost, -⟩ := hlost
          exact hlost.elim
  exact ⟨_, hv', hsound, Walk.step_sound h.sound' hi hv', hr.withTracker ht, rfl, hmemory.1,
    hmemory.2, hordered⟩

/-- Beside a walk that asks an oracle, the walk that asks none gets as far. -/
theorem Walk.Loosened.downTo {w₀ w₀' : Walk}
    (h : Walk.Loosened s block oracle units units.length w₀ w₀') (hagree : ObjectsAgree units)
    (hroom : units.length ≤ s.options.maxRejected) {k : Nat} (hk : k ≤ units.length)
    (hw : Walk.downTo s reads block (some oracle) units k w₀ = .ok w) :
    ∃ w', Walk.downTo s reads block none units k w₀' = .ok w' ∧
      Walk.Loosened s block oracle units k w w' := by
  refine Walk.downTo_induction (fun k w => ∃ w', Walk.downTo s reads block none units k w₀' = .ok w' ∧
    Walk.Loosened s block oracle units k w w') ⟨w₀', Walk.downTo_length w₀', h⟩
    (fun su i v u hi _ ⟨v', hv', hloose⟩ hu => ?_) hk hw
  obtain ⟨u', hu', hloose'⟩ := hloose.step hagree hroom hi hu
  refine ⟨u', ?_, hloose'⟩
  rw [Walk.downTo_succ hi, hv']
  exact hu'

end

/-! Regions -/

theorem Tighter.refl {d : Draft} (h : d.graph.Linked) : Tighter d d :=
  ⟨h, h, rfl, fun _ _ ⟨_, _, he⟩ => he.path⟩

namespace Builder

variable {s : Setup} {b b' c : Builder} {r : Region} {oracle : Oracle} {g : Graph}

/-- An oracle only takes orders away. With room for all rejected accesses, a region that is built
with an oracle is built without one as well. The two graphs have the same nodes, the same debug
values and the same edges, those that order memory aside, and where the first has an edge the second
has a path. -/
theorem reaches_without_oracle (hb : b.Usable s) (hb' : b'.Usable s)
    (hagree : ObjectsAgree (s.unitsOf r)) (hroom : (s.unitsOf r).length ≤ s.options.maxRejected)
    (h : b.buildRegion s r (some oracle) = .ok (c, g)) :
    ∃ c' g', b'.buildRegion s r none = .ok (c', g') ∧ g.withoutOrder = g'.withoutOrder ∧
      ∀ p n d, (p, n, d) ∈ g.edges → g'.reaches p n = .ok true := by
  simp only [buildRegion, bind_eq_ok] at h
  obtain ⟨e, he, h⟩ := h
  obtain ⟨e', he', ⟨hsame, -, -⟩⟩ := (he ▸ start_alike hb.fits hb'.fits r).exists_ok
  obtain ⟨block, graph, regs, w, hblock, hgraph, hregs, hw, -, rfl⟩ := build_ok (start_ok he).1 h
  obtain ⟨regs', hregs', hsame'⟩ := (hregs ▸ readAtExit_alike hsame.regs).exists_ok
  have hwraps : graph.Wraps block (s.unitsOf r) := unitsOf_eq hblock ▸ Graph.wraps_unlinked hgraph
  have hstart : Walk.Loosened s block oracle (s.unitsOf r) (s.unitsOf r).length
      { regs, draft := { graph } } { regs := regs', draft := { graph } } := by
    refine ⟨⟨hwraps, (readAtExit_ok (Usable.start hb he).regs_sound hregs).1,
        MemoryChains.filed_empty⟩,
      ⟨hwraps, (readAtExit_ok (Usable.start hb' he').regs_sound hregs').1,
        MemoryChains.filed_empty⟩, hsame', rfl, .refl hwraps.linked, fun n hn => ?_, .start⟩
    simp [MemoryChains.mem_all, MemoryChains.defOf, MemoryChains.usesOf] at hn
  obtain ⟨w', hw', hloose⟩ := hstart.downTo hagree hroom (Nat.zero_le _) hw
  obtain ⟨c', hc'⟩ := build_of_downTo (start_ok he').1 hblock hgraph hregs'
    (hsame.loopReads ▸ hw')
  refine ⟨c', w'.draft.graph, bind_eq_ok.mpr ⟨e', he', hc'⟩, hloose.drafts.rest, fun p n d hd => ?_⟩
  have hedge := hloose.drafts.linked.hasEdge_of_mem_edges hd
  have hthere : (w.draft.graph.node? p).isSome :=
    hloose.drafts.linked.isSome_of_incoming ((hloose.drafts.linked.mirror ..).mpr hedge)
  refine Graph.reaches_of_path hloose.drafts.linked' ?_ (hloose.drafts.path p n ⟨_, _, hedge⟩)
  rw [Graph.position, Option.isSome_map, ← Graph.isSome_node?_of_bare hloose.drafts.bare]
  exact hthere

/-- Three stores, of which an oracle keeps the first and the last in order. It puts the one right
before the other, where the graph without an oracle goes by way of the store in between. -/
theorem reaches_across_store_in_between :
    let slot (offset : Int) := ({ opcode := "st" } : Instr).storing (.ofPrivate 7 offset 4)
    let s := Setup.straightLine { count := 1 } [slot 0, slot 4, slot 0]
    let direct : NodeId × NodeId × Dep := (.unit 0, .unit 2, .order (.unit 0) 0)
    ∃ c g c' g', ({} : Builder).buildRegion s ⟨⟨0⟩, 0, 3⟩ (some Oracle.offsets) = .ok (c, g) ∧
      ({} : Builder).buildRegion s ⟨⟨0⟩, 0, 3⟩ none = .ok (c', g') ∧
      g.withoutOrder = g'.withoutOrder ∧ direct ∈ g.edges ∧ direct ∉ g'.edges ∧
      g'.reaches (.unit 0) (.unit 2) = .ok true := by
  intro slot s direct
  have hedge : ((({} : Builder).buildRegion s ⟨⟨0⟩, 0, 3⟩ (some Oracle.offsets)).map
      fun p => decide (direct ∈ p.2.edges)) = .ok true := by cbv
  have hno : ((({} : Builder).buildRegion s ⟨⟨0⟩, 0, 3⟩ none).map
      fun p => decide (direct ∈ p.2.edges)) = .ok false := by cbv
  cases h : ({} : Builder).buildRegion s ⟨⟨0⟩, 0, 3⟩ (some Oracle.offsets) with
  | error e => simp [h, Except.map] at hedge
  | ok p =>
    obtain ⟨c, g⟩ := p
    simp only [h, Except.map, Except.ok.injEq, decide_eq_true_eq] at hedge
    obtain ⟨c', g', h', hrest, hreaches⟩ :=
      reaches_without_oracle .fresh .fresh (by decide) (by decide) h
    simp only [h', Except.map, Except.ok.injEq, decide_eq_false_iff_not] at hno
    exact ⟨c, g, c', g', rfl, h', hrest, hedge, hno, hreaches _ _ _ hedge⟩

end Builder

end Precedence
