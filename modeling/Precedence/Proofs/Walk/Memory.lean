import Precedence.Proofs.Walk.Rejected

/-!
What one access leaves behind in the memory walk. It is linked to every known access that it
conflicts with and may touch, and every known access stays known or is replaced.
-/
namespace Precedence

variable {m : MemoryScope} {units : List Instr} {su t : Nat} {i j : Instr} {o : MemObject}
  {n : NodeId} {d d' : Draft} {w w' : MemoryWalk}

/-- The edges that memory adds at most: order edges into a set of units, and the preference for a
store to come before the exit. -/
def memoryEdges (su : Nat) (P : Nat → Prop) : EdgeSet := fun p n k r =>
  orderEdges su P p n k r ∨ (Dep.artificial (.unit su)).edge .exit p n k r

/-- What an access that is not global leaves behind. -/
structure AccessStep (m : MemoryScope) (units : List Instr) (su : Nat) (i : Instr)
    (w w' : MemoryWalk) : Prop where
  grows : w.draft.graph.Grows w'.draft.graph
  adds : ∀ P, Sealed units su P w.draft.graph → (∀ t, .unit t ∈ w.chains.all → P t) →
    w.draft.graph.AddsOnly w'.draft.graph (memoryEdges su P)
  filed : w'.chains.Filed m.oracle units su
  barrier : w'.chains.barrier = w.chains.barrier
  self : .unit su ∈ w'.chains.all
  all : ∀ Q : NodeId → Prop, (∀ n ∈ w.chains.all, Q n) → Q (.unit su) → ∀ n ∈ w'.chains.all, Q n
  keeps : ∀ n ∈ w.chains.all, n ∈ w'.chains.all ∨
    Replaced m units su i w'.draft.graph w.chains.rejected n
  meets : ObjectsAgree units → ∀ t j, .unit t ∈ w.chains.all → units[t]? = some j →
    j.isGlobalAccess = false → conflicts i j → mayTouch i j →
    Meets m units su i w.draft.graph w'.draft.graph t

theorem chainTo_ok {targets apart : List NodeId} (hw : w.draft.graph.Wraps m.block units)
    (hi : units[su]? = some i) (hlater : ∀ n ∈ targets, IsUnit units (su + 1) (fun _ => True) n)
    (h : w.chainTo m (.unit su) targets = .ok (apart, w')) :
    ∃ d, w' = { w with draft := d } ∧
      ChainedAll m units su i targets apart w.draft.graph d.graph := by
  simp only [MemoryWalk.chainTo, bind_eq_ok, pure_eq_ok, Prod.mk.injEq, Prod.exists] at h
  obtain ⟨apart', d, h, rfl, rfl⟩ := h
  exact ⟨d, rfl, chainAll_ok hw hi (fun n hn => (hlater n hn).later) h⟩

namespace ChainedAll

variable {targets apart : List NodeId} {g g' : Graph}

theorem isUnit (h : ChainedAll m units su i targets apart g g')
    (hlater : ∀ n ∈ targets, IsUnit units (su + 1) (fun _ => True) n) :
    ∀ n ∈ apart, IsUnit units su (fun j => j.isGlobalAccess = false) n := by
  intro n hn
  obtain ⟨hmem, t, rfl, -, j, hj, hd, -⟩ := h.separated n hn
  obtain ⟨t', heq, hlt, -⟩ := (hlater _ hmem).later
  cases heq
  exact ⟨t, j, rfl, hlt.le, hj, hd⟩

theorem apart_eq_nil (h : ChainedAll m units su i targets apart g g') (ho : m.oracle = none) :
    apart = [] := by
  apply List.eq_nil_iff_forall_not_mem.mpr
  intro n hn
  obtain ⟨-, t, -, -, j, -, -, oracle, horacle, -⟩ := h.separated n hn
  simp [ho] at horacle

/-- A target has been replaced by the store that was linked to it, if that shadows it. -/
theorem replaced {rejected : List NodeId} (h : ChainedAll m units su i targets apart g g')
    (hlater : ∀ n ∈ targets, IsUnit units (su + 1) (fun _ => True) n) (hstore : i.mayStore)
    (hn : n ∈ targets) (hs : ObjectsAgree units → ∀ t j, n = .unit t → units[t]? = some j →
      j.isGlobalAccess = false → Shadows units i j) :
    n ∈ apart ∨ Replaced m units su i g' rejected n := by
  obtain ⟨t, rfl, -, -⟩ := (hlater n hn).later
  refine (h.edge t hn).imp_right fun he => ⟨hstore, he, fun ha t j ht hj hd => ?_⟩
  exact .inl (hs ha t j ht hj hd)

end ChainedAll

theorem Rechecked.meets_of_targets {c : MemoryChains} {kept : List NodeId} {g₀ g g' : Graph}
    (h : Rechecked m units su i c.rejected kept g g') (hi : i ∈ units)
    (hf : c.Filed m.oracle units (su + 1)) (hg : g₀.Grows g) {g₁ : Graph} (hg' : g'.Grows g₁)
    (htargets : ∀ t, .unit t ∈ c.targets i → Meets m units su i g₀ g₁ t) :
    ObjectsAgree units → ∀ t j, .unit t ∈ c.all → units[t]? = some j →
      j.isGlobalAccess = false → conflicts i j → mayTouch i j →
      Meets m units su i g₀ g₁ t := by
  intro hagree t j hn hj hd hc ht
  rcases hf.mem_targets hagree hi hn hj hd hc ht with hn | hn
  · exact htargets t hn
  · exact (h.meets t j hn hj hc ht).grows hg hg'

theorem orderAgainstBarrier_ok (hw : w.draft.graph.Wraps m.block units)
    (hunit : ∀ n, w.chains.barrier = some n → ∃ t, n = .unit t)
    (h : w.orderAgainstBarrier (.unit su) = .ok w') :
    ∃ d, w' = { w with draft := d } ∧
      w.draft.graph.AddsOnly d.graph (orderEdges su fun t => w.chains.barrier = some (.unit t)) ∧
      ∀ n, w.chains.barrier = some n → d.graph.Path (.unit su) n := by
  unfold MemoryWalk.orderAgainstBarrier at h
  split at h
  next hnone =>
    cases h
    exact ⟨w.draft, rfl, .refl _ _, by simp [hnone]⟩
  next barrier hbarrier =>
    simp only [bind_eq_ok, pure_eq_ok] at h
    obtain ⟨d, hd, rfl⟩ := h
    have hadds := Draft.withDep_adds hw.linked hd
    refine ⟨d, rfl, hadds.only.mono ?_, fun n hn => ?_⟩
    · rintro p n k r ⟨rfl, rfl, rfl, rfl⟩
      obtain ⟨t, rfl⟩ := hunit n hbarrier
      exact ⟨rfl, rfl, rfl, t, rfl, hbarrier⟩
    · obtain rfl := Option.some.inj (hbarrier.symm.trans hn)
      exact ((hadds.edge_iff ..).mpr (.inr ⟨rfl, rfl, rfl, rfl⟩) : d.graph.HasEdge _ _ _ _).path

theorem AccessStep.extend {d : Draft} (h : AccessStep m units su i w w')
    (hadds : ∀ P, (∀ t, .unit t ∈ w.chains.all → P t) →
      w'.draft.graph.AddsOnly d.graph (memoryEdges su P)) :
    AccessStep m units su i w { w' with draft := d } := by
  have hg := (hadds (fun _ => True) fun _ _ => trivial).grows
  exact {
    grows := h.grows.trans hg
    adds := fun P hP hall => (h.adds P hP hall).trans (hadds P hall)
    filed := h.filed
    barrier := h.barrier
    self := h.self
    all := h.all
    keeps := fun n hn => (h.keeps n hn).imp_right (·.grows hg)
    meets := fun ha t j hn hj hd hc ht => (h.meets ha t j hn hj hd hc ht).grows (.refl _) hg }

/-- The step before the nearest global access has been put behind the access. -/
theorem AccessStep.extend_barrier {d : Draft} {v : MemoryWalk} (h : AccessStep m units su i w v)
    (hadds : v.draft.graph.AddsOnly d.graph
      (orderEdges su fun t => v.chains.barrier = some (.unit t))) :
    AccessStep m units su i w { v with draft := d } := by
  refine h.extend fun P hall => hadds.mono fun p n k r hmem => .inl ?_
  refine orderEdges_mono (fun t ht => hall t ?_) p n k r hmem
  exact MemoryChains.barrier_mem_all (h.barrier.symm.trans ht)

/-! Stores -/

theorem addObjectStore_ok (hw : w.draft.graph.Wraps m.block units)
    (hi : units[su]? = some i) (hd : i.isGlobalAccess = false) (hstore : i.mayStore)
    (ho : i.underlyingObject = some o) (hf : w.chains.Filed m.oracle units (su + 1))
    (h : w.addObjectStore m (.unit su) i o = .ok w') : AccessStep m units su i w w' := by
  simp only [MemoryWalk.addObjectStore, bind_eq_ok, pure_eq_ok, Prod.exists] at h
  obtain ⟨apart, w₁, h₁, apart', w₂, h₂, w₃, h₃, rfl⟩ := h
  have hmem₁ : ∀ n ∈ (w.chains.defOf o).toList ++ w.chains.usesOf o, n ∈ w.chains.all := by
    intro n hn
    rw [List.mem_append, Option.mem_toList] at hn
    exact hn.elim MemoryChains.defOf_mem_all MemoryChains.usesOf_mem_all
  have hlater₁ := fun n hn => hf.isUnit (hmem₁ n hn)
  obtain ⟨d₁, rfl, hchain₁⟩ := chainTo_ok hw hi hlater₁ h₁
  obtain ⟨hb, ha, hp, hr⟩ := MemoryChains.setDef_rest w.chains o (.unit su)
  simp only [hp, ha] at h₂
  have hmem₂ : ∀ n ∈ (if o.mayAlias then w.chains.pendingLoads ++ w.chains.aliasChain.toList
      else []), n ∈ w.chains.all := by
    intro n hn
    split at hn
    · rw [List.mem_append, Option.mem_toList] at hn
      exact hn.elim MemoryChains.pendingLoads_mem_all MemoryChains.aliasChain_mem_all
    · simp at hn
  have hlater₂ := fun n hn => hf.isUnit (hmem₂ n hn)
  have hw₁ := hw.grows hchain₁.grows
  obtain ⟨d₂, rfl, hchain₂⟩ := chainTo_ok hw₁ hi hlater₂ h₂
  obtain ⟨kept, d₃, rfl, hcheck⟩ := checkRejected_ok (hw₁.grows hchain₂.grows) hi
    (fun n hn => hf.isUnit (MemoryChains.rejected_mem_all (hr ▸ hn))) h₃
  rw [hr] at hcheck
  have hg₂ := hchain₂.grows.trans hcheck.grows
  refine ⟨hchain₁.grows.trans hg₂, fun P hP hall => ?_, ?_, hb, ?_, fun Q hall hsu => ?_,
    fun n hn => ?_,
    hcheck.meets_of_targets (List.mem_of_getElem? hi) hf
      (hchain₁.grows.trans hchain₂.grows) (.refl _) fun t ht => ?_⟩
  · have hadds₁ := hchain₁.adds P hP fun t ht => hall t (hmem₁ _ ht)
    have hP₁ := hP.of_orderEdges hadds₁
    have hadds₂ := hchain₂.adds P hP₁ fun t ht => hall t (hmem₂ _ ht)
    have hadds₃ := hcheck.adds P (hP₁.of_orderEdges hadds₂)
      fun t ht => hall t (MemoryChains.rejected_mem_all ht)
    exact (hadds₁.trans (hadds₂.trans hadds₃)).mono fun _ _ _ _ => .inl
  · exact (((hf.mono su.le_succ).setDef ⟨su, i, rfl, le_rfl, hi, hd, hstore, ho⟩).withRejected
      (hr ▸ hcheck.sublist)).reject (hchain₁.isUnit hlater₁) hchain₁.apart_eq_nil
  · have hself : (w.chains.setDef o (.unit su)).defOf o = some (.unit su) := by
      rw [MemoryChains.defOf_setDef, if_pos rfl]
    exact MemoryChains.defOf_mem_all hself
  · exact MemoryChains.all_objectStore hall hsu
      (fun n hn => hall n (hmem₁ n (hchain₁.separated n hn).1)) (hr ▸ hcheck.sublist.subset)
  · refine MemoryChains.mem_all_of_objectStore hn (fun hn => ?_) (hcheck.keeps n)
    have hreplaced : n ∈ apart ∨ Replaced m units su i d₁.graph w.chains.rejected n := by
      apply hchain₁.replaced hlater₁ hstore (by simpa using hn)
      rintro - t j rfl hj -
      refine shadows_of_eq (Eq.trans ?_ ho.symm)
      rcases hn with hn | hn
      · exact ((hf.defs o _ hn).instr hj).2.2
      · exact ((hf.uses o _ hn).instr hj).2.2
    exact hreplaced.imp_right (·.grows hg₂)
  · simp only [MemoryChains.targets, ho, hstore, if_true] at ht
    rcases List.mem_append.mp ht with ht | ht
    · exact (hchain₁.meets t ht).grows (.refl _) hg₂
    · exact (hchain₂.meets t ht).grows hchain₁.grows hcheck.grows

theorem addUnknownStore_ok (hw : w.draft.graph.Wraps m.block units)
    (hi : units[su]? = some i) (hstore : i.mayStore) (ho : i.underlyingObject = none)
    (hf : w.chains.Filed m.oracle units (su + 1))
    (h : w.addUnknownStore m (.unit su) i = .ok w') : AccessStep m units su i w w' := by
  simp only [MemoryWalk.addUnknownStore, bind_eq_ok, pure_eq_ok, Prod.exists] at h
  obtain ⟨w₁, h₁, apart, w₂, h₂, rfl⟩ := h
  obtain ⟨kept, d₁, rfl, hcheck⟩ := checkRejected_ok (w := ⟨w.chains.hidden, w.draft⟩) hw hi
    (fun n hn => hf.isUnit (MemoryChains.rejected_mem_all hn)) h₁
  change Rechecked m units su i w.chains.rejected kept w.draft.graph d₁.graph at hcheck
  have hw₁ := hw.grows hcheck.grows
  have htargets : ∀ n, n ∈ w.chains.aliasChain.toList ++ w.chains.pendingLoads ++
      w.chains.sharedDefs.values ++ w.chains.sharedUses.values.flatten ↔
      w.chains.aliasChain = some n ∨ n ∈ w.chains.pendingLoads ∨ n ∈ w.chains.sharedDefs.values ∨
        n ∈ w.chains.sharedUses.values.flatten := by
    intro n
    rw [List.mem_append, List.mem_append, List.mem_append, Option.mem_toList, or_assoc, or_assoc]
  have hmem : ∀ n ∈ w.chains.aliasChain.toList ++ w.chains.pendingLoads ++
      w.chains.sharedDefs.values ++ w.chains.sharedUses.values.flatten, n ∈ w.chains.all := by
    intro n hn
    rw [htargets, MemoryChains.mem_sharedDefs, MemoryChains.mem_sharedUses] at hn
    rcases hn with hn | hn | ⟨o, -, hn⟩ | ⟨o, -, hn⟩
    · exact MemoryChains.aliasChain_mem_all hn
    · exact MemoryChains.pendingLoads_mem_all hn
    · exact MemoryChains.defOf_mem_all hn
    · exact MemoryChains.usesOf_mem_all hn
  have hlater := fun n hn => hf.isUnit (hmem n hn)
  obtain ⟨d₂, rfl, hchain⟩ := chainTo_ok hw₁ hi hlater h₂
  refine ⟨hcheck.grows.trans hchain.grows, fun P hP hall => ?_, ?_, rfl, ?_,
    fun Q hall hsu => ?_, fun n hn => ?_,
    hcheck.meets_of_targets (List.mem_of_getElem? hi) hf (.refl _) hchain.grows
      fun t ht => ?_⟩
  · have hadds₁ := hcheck.adds P hP fun t ht => hall t (MemoryChains.rejected_mem_all ht)
    have hadds₂ := hchain.adds P (hP.of_orderEdges hadds₁) fun t ht => hall t (hmem _ ht)
    exact (hadds₁.trans hadds₂).mono fun _ _ _ _ => .inl
  · have hf' := (((hf.mono su.le_succ).hidden).withRejected hcheck.sublist).reject
      (hchain.isUnit hlater) hchain.apart_eq_nil
    exact { hf' with
      aliasChain := fun n hn => by
        obtain rfl := Option.some.inj hn
        exact ⟨su, i, rfl, le_rfl, hi, .inr ⟨hstore, ho⟩⟩ }
  · exact MemoryChains.aliasChain_mem_all rfl
  · exact MemoryChains.all_unknownStore hall hsu
      (fun n hn => hall n (hmem n (hchain.separated n hn).1)) hcheck.sublist.subset
  · refine MemoryChains.mem_all_of_unknownStore hn (fun hn => ?_) fun hn =>
      (hcheck.keeps n hn).imp_right (·.grows hchain.grows)
    apply hchain.replaced hlater hstore ((htargets n).mpr hn)
    rintro hagree t j rfl hj hjd
    apply shadows_of_reachable hagree (List.mem_of_getElem? hj) ho
    intro p hp
    rw [MemoryChains.mem_sharedDefs, MemoryChains.mem_sharedUses] at hn
    rcases hn with hn | hn | ⟨q, hq, hn⟩ | ⟨q, hq, hn⟩
    · rcases (hf.aliasChain _ hn).instr hj with hj' | ⟨-, hjo⟩
      · simp [hj'] at hjd
      · simp [hjo] at hp
    · simp [((hf.pendingLoads _ hn).instr hj).2.2] at hp
    · have := ((hf.defs q _ hn).instr hj).2.2
      simp_all
    · have := ((hf.uses q _ hn).instr hj).2.2
      simp_all
  · refine (hchain.meets t ?_).grows hcheck.grows (.refl _)
    simp only [MemoryChains.targets, ho, hstore, if_true, List.mem_append] at ht ⊢
    tauto

theorem addStore_ok (hw : w.draft.graph.Wraps m.block units) (hi : units[su]? = some i)
    (hd : i.isGlobalAccess = false) (hstore : i.mayStore)
    (hf : w.chains.Filed m.oracle units (su + 1)) (h : w.addStore m (.unit su) i = .ok w') :
    AccessStep m units su i w w' ∧
      ∀ n, w.chains.barrier = some n → w'.draft.graph.Path (.unit su) n := by
  have hlast : ∀ v, AccessStep m units su i w v → (do
        let v ← v.orderAgainstBarrier (.unit su)
        let draft ← v.draft.withDep .exit (.artificial (.unit su))
        pure { v with draft } : Except Fault MemoryWalk) = .ok w' →
      AccessStep m units su i w w' ∧
        ∀ n, w.chains.barrier = some n → w'.draft.graph.Path (.unit su) n := by
    intro v hv h
    simp only [bind_eq_ok, pure_eq_ok] at h
    obtain ⟨u, hu, d', hd', rfl⟩ := h
    have hwv := hw.grows hv.grows
    obtain ⟨d, rfl, hadds, hp⟩ := orderAgainstBarrier_ok hwv (hv.filed.exists_barrier) hu
    have hadds' := Draft.withDep_adds (hwv.grows hadds.grows).linked hd'
    refine ⟨(hv.extend_barrier hadds).extend fun P _ => hadds'.only.mono fun _ _ _ _ => .inr,
      fun n hn => hadds'.grows.path (hp n (hv.barrier.trans hn))⟩
  simp only [MemoryWalk.addStore] at h
  split at h
  next o ho =>
    obtain ⟨v, hv, h⟩ := bind_eq_ok.mp h
    exact hlast v (addObjectStore_ok hw hi hd hstore ho hf hv) h
  next ho =>
    obtain ⟨v, hv, h⟩ := bind_eq_ok.mp h
    exact hlast v (addUnknownStore_ok hw hi hstore ho hf hv) h

/-! Loads -/

theorem chainTo_checkRejected_ok {targets apart : List NodeId} {w₁ : MemoryWalk}
    (filed : MemoryChains) (hw : w.draft.graph.Wraps m.block units)
    (hi : units[su]? = some i) (hf : w.chains.Filed m.oracle units (su + 1))
    (htargets : ∀ n, n ∈ targets ↔ n ∈ w.chains.targets i)
    (hr : filed.rejected = w.chains.rejected)
    (hc : w.chainTo m (.unit su) targets = .ok (apart, w₁))
    (h : MemoryWalk.checkRejected m (.unit su) i { w₁ with chains := filed } = .ok w') :
    ∃ kept d, w' = ⟨{ filed with rejected := kept }, d⟩ ∧
      w.draft.graph.Grows d.graph ∧
      (∀ P, Sealed units su P w.draft.graph → (∀ t, .unit t ∈ w.chains.all → P t) →
        w.draft.graph.AddsOnly d.graph (memoryEdges su P)) ∧
      kept.Sublist w.chains.rejected ∧
      (∀ n ∈ w.chains.rejected, n ∈ kept ∨ Replaced m units su i d.graph w.chains.rejected n) ∧
      (ObjectsAgree units → ∀ t j, .unit t ∈ w.chains.all → units[t]? = some j →
        j.isGlobalAccess = false → conflicts i j → mayTouch i j →
        Meets m units su i w.draft.graph d.graph t) := by
  have hmem : ∀ n ∈ targets, n ∈ w.chains.all :=
    fun n hn => MemoryChains.mem_all_of_mem_targets ((htargets n).mp hn)
  obtain ⟨d₁, rfl, hchain⟩ := chainTo_ok hw hi (fun n hn => hf.isUnit (hmem n hn)) hc
  obtain ⟨kept, d, rfl, hcheck⟩ := checkRejected_ok (hw.grows hchain.grows) hi
    (fun n hn => hf.isUnit (MemoryChains.rejected_mem_all (hr ▸ hn))) h
  rw [hr] at hcheck
  refine ⟨kept, d, rfl, hchain.grows.trans hcheck.grows, fun P hP hall => ?_, hcheck.sublist,
    hcheck.keeps, hcheck.meets_of_targets (List.mem_of_getElem? hi) hf hchain.grows (.refl _)
      fun t ht => (hchain.meets t ((htargets _).mpr ht)).grows (.refl _) hcheck.grows⟩
  have hadds₁ := hchain.adds P hP fun t ht => hall t (hmem _ ht)
  have hadds₂ := hcheck.adds P (hP.of_orderEdges hadds₁)
    fun t ht => hall t (MemoryChains.rejected_mem_all ht)
  exact (hadds₁.trans hadds₂).mono fun _ _ _ _ => .inl

theorem addLoad_ok (hw : w.draft.graph.Wraps m.block units)
    (hi : units[su]? = some i) (hd : i.isGlobalAccess = false) (hload : i.mayStore = false)
    (hf : w.chains.Filed m.oracle units (su + 1)) (h : w.addLoad m (.unit su) i = .ok w') :
    AccessStep m units su i w w' ∧
      ∀ n, w.chains.barrier = some n → w'.draft.graph.Path (.unit su) n := by
  -- the barrier is met behind everything else, whatever the load reads from
  have hlast : ∀ v, AccessStep m units su i w v → v.orderAgainstBarrier (.unit su) = .ok w' →
      AccessStep m units su i w w' ∧
        ∀ n, w.chains.barrier = some n → w'.draft.graph.Path (.unit su) n := by
    intro v hv h
    obtain ⟨d, rfl, hadds, hp⟩ :=
      orderAgainstBarrier_ok (hw.grows hv.grows) (hv.filed.exists_barrier) h
    exact ⟨hv.extend_barrier hadds, hv.barrier ▸ hp⟩
  simp only [MemoryWalk.addLoad] at h
  split at h
  next o ho =>
    simp only [bind_eq_ok, pure_eq_ok, Prod.exists] at h
    obtain ⟨apart, w₂, hc, _, rfl, v, hv, h⟩ := h
    obtain ⟨hb, ha, hp, hr⟩ := MemoryChains.addUse_rest w.chains o (.unit su)
    have htargets : ∀ n, n ∈ (w.chains.defOf o).toList ++
        (if o.mayAlias then w.chains.aliasChain.toList else []) ↔ n ∈ w.chains.targets i := by
      intro n
      simp [MemoryChains.targets, ho, hload]
    obtain ⟨kept, d, rfl, hg, hadds, hsub, hkeeps, hmeets⟩ :=
      chainTo_checkRejected_ok _ hw hi hf htargets hr hc hv
    refine hlast _ ?_ h
    refine ⟨hg, hadds, ?_, hb, ?_,
      fun Q hall hsu => MemoryChains.all_objectLoad hall hsu hsub.subset, fun n hn => ?_, hmeets⟩
    · exact ((hf.mono su.le_succ).addUse ⟨su, i, rfl, le_rfl, hi, hd, hload, ho⟩).withRejected
        (hr ▸ hsub)
    · have hself : .unit su ∈ (w.chains.addUse o (.unit su)).usesOf o := by
        simp [MemoryChains.usesOf_addUse]
      exact MemoryChains.usesOf_mem_all hself
    · exact MemoryChains.mem_all_of_objectLoad hn (hkeeps n)
  next ho =>
    simp only [bind_eq_ok, pure_eq_ok, Prod.exists] at h
    obtain ⟨apart, w₂, hc, _, rfl, v, hv, h⟩ := h
    have htargets : ∀ n, n ∈ w.chains.sharedDefs.values ++ w.chains.aliasChain.toList ↔
        n ∈ w.chains.targets i := by
      intro n
      simp [MemoryChains.targets, ho, hload, or_comm]
    obtain ⟨kept, d, rfl, hg, hadds, hsub, hkeeps, hmeets⟩ :=
      chainTo_checkRejected_ok { w.chains with pendingLoads := w.chains.pendingLoads ++ [.unit su] }
        hw hi hf htargets rfl hc hv
    refine hlast _ ?_ h
    refine ⟨hg, hadds, ?_, rfl, ?_,
      fun Q hall hsu => MemoryChains.all_unknownLoad hall hsu hsub.subset, fun n hn => ?_, hmeets⟩
    · have hf' := (hf.mono su.le_succ).withRejected hsub
      exact { hf' with
        pendingLoads := fun n hn => by
          rcases List.mem_append.mp hn with hn | hn
          · exact hf'.pendingLoads n hn
          · obtain rfl := List.mem_singleton.mp hn
            exact ⟨su, i, rfl, le_rfl, hi, hd, hload, ho⟩ }
    · exact MemoryChains.pendingLoads_mem_all (List.mem_append_right _ (List.mem_singleton_self _))
    · have hstay := MemoryChains.mem_all_of_unknownLoad (.unit su) hn (hkeeps n)
      exact hstay

/-! All accesses -/

/-- The memory walk keeps track of the access. -/
def Instr.isTracked (i : Instr) : Bool :=
  i.isGlobalAccess || i.mayStore || (i.mayLoad && !i.isInvariantLoad)

theorem Instr.isGlobalAccess_of_isBarrier {i : Instr} (h : i.isBarrier) : i.isGlobalAccess := by
  simp [isGlobalAccess, h]

theorem Instr.isGlobalAccess_of_untracked {i : Instr} (h : i.isTracked = false) :
    i.isGlobalAccess = false := by
  simp only [isTracked, Bool.or_eq_false_iff] at h
  exact h.1.1

theorem addGlobal_ok (hw : w.draft.graph.Wraps m.block units) (hi : units[su]? = some i)
    (hd : i.isGlobalAccess) (hf : w.chains.Filed m.oracle units (su + 1))
    (h : w.addGlobal m (.unit su) = .ok w') :
    w.draft.graph.Grows w'.draft.graph ∧
      (∀ P, Sealed units su P w.draft.graph → (∀ t, .unit t ∈ w.chains.all → P t) →
        w.draft.graph.AddsOnly w'.draft.graph (memoryEdges su P)) ∧
      w'.chains = { barrier := some (.unit su), aliasChain := some (.unit su) } ∧
      ∀ n ∈ w.chains.all, w'.draft.graph.Path (.unit su) n := by
  simp only [MemoryWalk.addGlobal, bind_eq_ok, pure_eq_ok, Prod.exists] at h
  obtain ⟨apart, w₁, hc, rfl⟩ := h
  obtain ⟨d, rfl, hchain⟩ := chainTo_ok hw hi (fun n => hf.isUnit) hc
  refine ⟨hchain.grows,
    fun P hP hall => (hchain.adds P hP hall).mono fun _ _ _ _ => .inl, rfl, fun n hn => ?_⟩
  obtain ⟨t, rfl, -, -⟩ := (hf.isUnit hn).later
  rcases hchain.edge t hn with ha | he
  · obtain ⟨-, t', -, hglobal, -⟩ := hchain.separated _ ha
    simp [hd] at hglobal
  · exact he.path

/-- What any instruction leaves behind in the memory walk. -/
inductive MemoryStep (m : MemoryScope) (units : List Instr) (su : Nat) (i : Instr)
    (w w' : MemoryWalk) : Prop
  | global (tracked : i.isGlobalAccess) (grows : w.draft.graph.Grows w'.draft.graph)
      (chains : w'.chains = { barrier := some (.unit su), aliasChain := some (.unit su) })
      (meets : ∀ n ∈ w.chains.all, w'.draft.graph.Path (.unit su) n)
      (adds : ∀ P, Sealed units su P w.draft.graph → (∀ t, .unit t ∈ w.chains.all → P t) →
        w.draft.graph.AddsOnly w'.draft.graph (memoryEdges su P))
  | access (described : i.isGlobalAccess = false) (step : AccessStep m units su i w w')
      (behind : ∀ n, w.chains.barrier = some n → w'.draft.graph.Path (.unit su) n)
  | other (untracked : i.isTracked = false) (same : w' = w)

theorem add_ok (hw : w.draft.graph.Wraps m.block units) (hi : units[su]? = some i)
    (hf : w.chains.Filed m.oracle units (su + 1)) (h : w.add m (.unit su) i = .ok w') :
    MemoryStep m units su i w w' := by
  unfold MemoryWalk.add at h
  split at h
  next hglobal =>
    obtain ⟨hg, ha, hc, hm⟩ := addGlobal_ok hw hi hglobal hf h
    exact .global hglobal hg hc hm ha
  next hd =>
    rw [Bool.not_eq_true] at hd
    split at h
    next hstore =>
      obtain ⟨hstep, hb⟩ := addStore_ok hw hi hd hstore hf h
      exact .access hd hstep hb
    next hload =>
      rw [Bool.not_eq_true] at hload
      split at h
      next =>
        obtain ⟨hstep, hb⟩ := addLoad_ok hw hi hd hload hf h
        exact .access hd hstep hb
      next hother =>
        cases h
        exact .other (by simpa [Instr.isTracked, hd, hload] using hother) rfl

theorem MemoryStep.grows (h : MemoryStep m units su i w w') :
    w.draft.graph.Grows w'.draft.graph := by
  cases h with
  | global _ hg _ _ _ => exact hg
  | access _ hstep _ => exact hstep.grows
  | other _ hsame => exact hsame ▸ .refl _

theorem MemoryStep.filed (h : MemoryStep m units su i w w') (hi : units[su]? = some i)
    (hf : w.chains.Filed m.oracle units (su + 1)) : w'.chains.Filed m.oracle units su := by
  cases h with
  | global hd _ hc _ _ =>
    rw [hc]
    exact { MemoryChains.filed_empty with
      barrier := fun n hn => by
        obtain rfl := Option.some.inj hn
        exact ⟨su, i, rfl, le_rfl, hi, hd⟩
      aliasChain := fun n hn => by
        obtain rfl := Option.some.inj hn
        exact ⟨su, i, rfl, le_rfl, hi, .inl hd⟩ }
  | access _ hstep _ => exact hstep.filed
  | other _ hsame => exact hsame ▸ hf.mono su.le_succ

/-- Memory orders an instruction before known accesses, and before accesses that these are ordered
before. -/
theorem MemoryStep.adds (h : MemoryStep m units su i w w') {P : Nat → Prop}
    (hP : Sealed units su P w.draft.graph) (hall : ∀ t, .unit t ∈ w.chains.all → P t) :
    w.draft.graph.AddsOnly w'.draft.graph (memoryEdges su P) := by
  cases h with
  | global _ _ _ _ ha => exact ha P hP hall
  | access _ hstep _ => exact hstep.adds P hP hall
  | other _ hsame => exact hsame ▸ .refl _ _

/-- Behind a global access the access itself is all that is known; any other access joins what is
known. -/
theorem MemoryStep.all (h : MemoryStep m units su i w w') {Q : NodeId → Prop}
    (hall : i.isGlobalAccess = false → ∀ n ∈ w.chains.all, Q n) (hsu : Q (.unit su)) :
    ∀ n ∈ w'.chains.all, Q n := by
  cases h with
  | global _ _ hc _ _ =>
    intro n hn
    rw [hc] at hn
    exact MemoryChains.eq_of_mem_all_global hn ▸ hsu
  | access hd hstep _ => exact hstep.all Q (hall hd) hsu
  | other hu hsame => exact hsame ▸ hall (Instr.isGlobalAccess_of_untracked hu)

end Precedence
