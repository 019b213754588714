import Precedence.Proofs.Walk.Requests

/-!
The edges that memory asks for. An instruction is put before the accesses that it meets, before those
found behind separated ones and before rejected ones, each time with the latency of the pair. An edge
to or from a global access is never left out, since no oracle is asked about it.
-/
namespace Precedence

/-- The accesses that an instruction is put before first of all: everything that is known, if it is a
global access, and what it may touch, judging by the files, if it is not. -/
def MemoryChains.meets (c : MemoryChains) (i : Instr) : List NodeId :=
  if i.isGlobalAccess then c.all else c.targets i

/-- What memory asks for on behalf of `i`, at `su`, when the accesses of `c` are known. -/
inductive MemoryRequest (m : MemoryScope) (units : List Instr) (c : MemoryChains) (su : Nat)
    (i : Instr) : NodeId → Dep → Prop
  | met {t : Nat} {j : Instr} (unit : units[t]? = some j) (mem : .unit t ∈ c.meets i) :
      MemoryRequest m units c su i (.unit t) (.order (.unit su) (orderLatency i j))
  /-- found behind a separated access, or rejected -/
  | found {t : Nat} {j : Instr} (unit : units[t]? = some j) (oracle : m.oracle.isSome)
      (first : i.isGlobalAccess = false) (second : j.isGlobalAccess = false) :
      MemoryRequest m units c su i (.unit t) (.order (.unit su) (orderLatency i j))
  | behind {n : NodeId} (described : i.isGlobalAccess = false) (barrier : c.barrier = some n) :
      MemoryRequest m units c su i n (.order (.unit su) 0)
  | preference : MemoryRequest m units c su i .exit (.artificial (.unit su))

/-- The edge that puts `i`, at `su`, before the access at a node is among those asked for. -/
def MayPrecede (asked : NodeId → Dep → Prop) (units : List Instr) (su : Nat) (i : Instr)
    (n : NodeId) : Prop :=
  ∃ t, n = .unit t ∧ ∀ j, units[t]? = some j → asked n (.order (.unit su) (orderLatency i j))

variable {m : MemoryScope} {units : List Instr} {su t depth : Nat} {i j : Instr} {o : MemObject}
  {n : NodeId} {g : Graph} {d d' : Draft} {w w' : MemoryWalk} {asked : NodeId → Dep → Prop}
  {targets apart : List NodeId}

/-! Searches -/

theorem keepConflicting_described {l kept : List NodeId}
    (h : keepConflicting m g i l = .ok kept) (hn : n ∈ kept) :
    ∃ j, m.instr g n = .ok j ∧ j.isGlobalAccess = false := by
  induction l generalizing kept with
  | nil =>
    cases h
    simp at hn
  | cons e l ih =>
    simp only [keepConflicting, bind_eq_ok, pure_eq_ok] at h
    obtain ⟨j, hj, rest, hrest, rfl⟩ := h
    split at hn
    next hkeep =>
      rcases List.mem_cons.mp hn with rfl | hn
      · simp only [Bool.and_eq_true, Bool.not_eq_true'] at hkeep
        exact ⟨j, hj, hkeep.1⟩
      · exact ih hrest hn
    next => exact ih hrest hn

theorem coveredBy_described {l : List NodeId} (hw : g.Wraps m.block units)
    (h : coveredBy m i (.unit t) g = .ok l) (hn : n ∈ l) :
    ∃ z k, n = .unit z ∧ units[z]? = some k ∧ k.isGlobalAccess = false := by
  have hexit := ((coveredBy_ok hw h).1 n hn).1
  simp only [coveredBy, bind_eq_ok] at h
  obtain ⟨node, -, h⟩ := h
  obtain ⟨k, hk, hd⟩ := keepConflicting_described h hn
  cases n with
  | exit => exact absurd rfl hexit
  | unit z => exact ⟨z, k, rfl, MemoryScope.instr_ok hw hk, hd⟩

/-- Nothing is asked about an access that everything is ordered against. -/
theorem separates_global (h : i.isGlobalAccess ∨ j.isGlobalAccess) :
    separates m i j d = .ok (false, d) := by
  have hglobal : (i.isGlobalAccess || j.isGlobalAccess) = true := by simpa using h
  unfold separates
  split
  · rfl
  · rw [if_pos hglobal]

theorem visitChain_linked (hw : d.graph.Wraps m.block units) (hi : units[su]? = some i)
    (hj : units[t]? = some j) (hglobal : i.isGlobalAccess ∨ j.isGlobalAccess) {v : Visit}
    (h : visitChain m (.unit su) (.unit t) depth d = .ok v) :
    v.draft.graph.HasAtLeast (.unit t) (.order (.unit su) (orderLatency i j)) ∧ v.next = [] := by
  simp only [visitChain_eq, bind_eq_ok] at h
  obtain ⟨i', hi', j', hj', p, hask, h⟩ := h
  obtain rfl := Option.some.inj (hi.symm.trans (MemoryScope.instr_ok hw hi'))
  obtain rfl := Option.some.inj (hj.symm.trans (MemoryScope.instr_ok hw hj'))
  obtain rfl : p = (false, d) := by
    simp only [askApart, separates_global hglobal, ite_self] at hask
    exact (Except.ok.inj hask).symm
  rcases endVisit_ok h with ⟨hapart, -⟩ | ⟨-, d₁, hd, rfl⟩
  · cases hapart
  · exact ⟨Draft.hasAtLeast_withDep hd, rfl⟩

section

variable (hw : d.graph.Wraps m.block units) (hi : units[su]? = some i)
  (hfound : i.isGlobalAccess = false → m.oracle.isSome → ∀ z k, units[z]? = some k →
    k.isGlobalAccess = false → asked (.unit z) (.order (.unit su) (orderLatency i k)))

include hw hi hfound

theorem visitChain_growsBy {v : Visit} (ht : MayPrecede asked units su i (.unit t))
    (h : visitChain m (.unit su) (.unit t) depth d = .ok v) :
    d.graph.GrowsBy asked v.draft.graph ∧ ∀ n ∈ v.next, MayPrecede asked units su i n := by
  have hvisit := visitChain_ok hw hi h
  simp only [visitChain_eq, bind_eq_ok] at h
  obtain ⟨i', hi', j, hj, ⟨apart, d₁⟩, hask, h⟩ := h
  obtain rfl := Option.some.inj (hi.symm.trans (MemoryScope.instr_ok hw hi'))
  replace hj := MemoryScope.instr_ok hw hj
  obtain ⟨_, ⟨⟩, ht⟩ := ht
  obtain ⟨hgraph, -⟩ := askApart_ok hask
  obtain ⟨hgrows, hnext⟩ : d.graph.GrowsBy asked v.draft.graph ∧
      ∀ n ∈ v.next, ∃ z k, n = .unit z ∧ units[z]? = some k ∧ k.isGlobalAccess = false := by
    rcases endVisit_ok h with ⟨-, next, hnext, rfl⟩ | ⟨-, d₂, hd, rfl⟩
    · refine ⟨hgraph ▸ .refl, fun n hn => ?_⟩
      unfold behind at hnext
      split at hnext
      · exact coveredBy_described (hgraph ▸ hw) hnext hn
      · obtain rfl := Except.ok.inj hnext
        cases hn
    · exact ⟨hgraph ▸ Draft.withDep_growsBy hd (ht j hj), by simp⟩
  refine ⟨hgrows, fun n hn => ?_⟩
  obtain ⟨z, k, rfl, hk, hd⟩ := hnext n hn
  obtain ⟨hglobal, -, -, -, oracle, horacle, -⟩ := hvisit.apart (hvisit.found _ hn).1
  refine ⟨z, rfl, fun k' hk' => ?_⟩
  obtain rfl := Option.some.inj (hk.symm.trans hk')
  exact hfound hglobal (by simp [horacle]) z k hk hd

theorem followChain_growsBy {todo : List (NodeId × Nat)} {met : Marks}
    (htodo : ∀ e ∈ todo, MayPrecede asked units su i e.1)
    (h : followChain m (.unit su) todo met d = .ok d') : d.graph.GrowsBy asked d'.graph := by
  fun_induction followChain m (.unit su) todo met d with
  | case1 met d =>
    cases h
    exact .refl
  | case2 => cases h
  | case3 target depth todo met d hfresh v hv ih =>
    obtain ⟨t, rfl, ht⟩ := htodo _ List.mem_cons_self
    obtain ⟨hgrows, hnext⟩ := visitChain_growsBy hw hi hfound ⟨t, rfl, ht⟩ hv
    refine hgrows.trans (ih (hw.grows hgrows.grows) (fun e he => ?_) h)
    rcases List.mem_append.mp he with he | he
    · obtain ⟨n, hn, rfl⟩ := List.mem_map.mp he
      exact hnext n hn
    · exact htodo e (List.mem_cons_of_mem _ he)
  | case4 target depth todo met d hold ih =>
    exact ih hw (fun e he => htodo e (List.mem_cons_of_mem _ he)) h

theorem chain_growsBy {linked : Bool} (ht : MayPrecede asked units su i n)
    (h : chain m (.unit su) n d = .ok (linked, d')) : d.graph.GrowsBy asked d'.graph := by
  obtain ⟨t, rfl, ht⟩ := ht
  unfold chain at h
  split at h
  · cases h
    exact .refl
  · simp only [bind_eq_ok, pure_eq_ok, Prod.mk.injEq] at h
    obtain ⟨v, hv, d₁, hd, -, rfl⟩ := h
    obtain ⟨hgrows, hnext⟩ := visitChain_growsBy hw hi hfound ⟨t, rfl, ht⟩ hv
    refine hgrows.trans (followChain_growsBy (hw.grows hgrows.grows) hi hfound (fun e he => ?_) hd)
    obtain ⟨n, hn, rfl⟩ := List.mem_map.mp he
    exact hnext n hn

omit hfound in
theorem chain_linked {linked : Bool} (hlt : su < t) (hj : units[t]? = some j)
    (hglobal : i.isGlobalAccess ∨ j.isGlobalAccess)
    (h : chain m (.unit su) (.unit t) d = .ok (linked, d')) :
    d'.graph.HasAtLeast (.unit t) (.order (.unit su) (orderLatency i j)) := by
  unfold chain at h
  split at h
  next heq => simp at heq; omega
  next =>
    simp only [bind_eq_ok, pure_eq_ok, Prod.mk.injEq] at h
    obtain ⟨v, hv, d₁, hd, -, rfl⟩ := h
    obtain ⟨hedge, hnext⟩ := visitChain_linked hw hi hj hglobal hv
    simp only [hnext, List.map_nil, followChain, Except.ok.injEq] at hd
    exact hd ▸ hedge

end

/-! Loops over accesses -/

/-- The instruction at `su` has been put before accesses, and in the end before those of a list that
no oracle is asked about. -/
structure PutBefore (asked : NodeId → Dep → Prop) (units : List Instr) (su : Nat) (i : Instr)
    (targets : List NodeId) (g g' : Graph) : Prop where
  growsBy : g.GrowsBy asked g'
  linked : ∀ t j, .unit t ∈ targets → units[t]? = some j → i.isGlobalAccess ∨ j.isGlobalAccess →
    g'.HasAtLeast (.unit t) (.order (.unit su) (orderLatency i j))

namespace PutBefore

variable {targets' : List NodeId} {g' g'' : Graph}

theorem of_growsBy (h : g.GrowsBy asked g') : PutBefore asked units su i [] g g' :=
  ⟨h, fun _ _ hn => absurd hn List.not_mem_nil⟩

theorem trans (h : PutBefore asked units su i targets g g')
    (h' : PutBefore asked units su i targets' g' g'') :
    PutBefore asked units su i (targets ++ targets') g g'' := by
  refine ⟨h.growsBy.trans h'.growsBy, fun t j hn hj hglobal => ?_⟩
  rcases List.mem_append.mp hn with hn | hn
  · exact h'.growsBy.hasAtLeast (h.linked t j hn hj hglobal)
  · exact h'.linked t j hn hj hglobal

theorem mono (h : PutBefore asked units su i targets g g') (hsub : targets' ⊆ targets) :
    PutBefore asked units su i targets' g g' :=
  ⟨h.growsBy, fun t j hn => h.linked t j (hsub hn)⟩

end PutBefore

section

variable (hw : w.draft.graph.Wraps m.block units) (hi : units[su]? = some i)
  (hfound : i.isGlobalAccess = false → m.oracle.isSome → ∀ z k, units[z]? = some k →
    k.isGlobalAccess = false → asked (.unit z) (.order (.unit su) (orderLatency i k)))

include hw hi hfound

theorem chainTo_putBefore (hlater : ∀ n ∈ targets, IsUnit units (su + 1) (fun _ => True) n)
    (hasked : ∀ n ∈ targets, MayPrecede asked units su i n)
    (h : w.chainTo m (.unit su) targets = .ok (apart, w')) : w'.chains = w.chains ∧
      PutBefore asked units su i targets w.draft.graph w'.draft.graph := by
  simp only [MemoryWalk.chainTo, bind_eq_ok, pure_eq_ok, Prod.mk.injEq, Prod.exists] at h
  obtain ⟨_, d, h, -, rfl⟩ := h
  have hround : ∀ n ∈ targets, ∀ p q : List NodeId × Draft, p.2.graph.Wraps m.block units →
      chainStep m (.unit su) p n = .ok q →
      q.2.graph.Wraps m.block units ∧ p.2.graph.GrowsBy asked q.2.graph := by
    intro n hn p q hp h
    simp only [chainStep, bind_eq_ok, pure_eq_ok, Prod.exists] at h
    obtain ⟨linked, d₁, hchain, rfl⟩ := h
    have hgrows := chain_growsBy hp hi hfound (hasked n hn) hchain
    exact ⟨hp.grows hgrows.grows, hgrows⟩
  refine ⟨rfl, ?_, fun t j hn hj hglobal => ?_⟩
  · exact (foldlM_keeps (fun p : List NodeId × Draft =>
        p.2.graph.Wraps m.block units ∧ w.draft.graph.GrowsBy asked p.2.graph)
      (fun n hn p q hp hq => ⟨(hround n hn p q hp.1 hq).1, hp.2.trans (hround n hn p q hp.1 hq).2⟩)
      ⟨hw, .refl⟩ h).2
  · obtain ⟨p, q, hp, -, hpq, hq⟩ := foldlM_round _
      (fun p q : List NodeId × Draft => p.2.graph.GrowsBy asked q.2.graph) (fun _ => .refl)
      (fun _ _ _ => .trans) hround hw h hn
    obtain ⟨_, ⟨⟩, hlt, -⟩ := (hlater _ hn).later
    simp only [chainStep, bind_eq_ok, pure_eq_ok, Prod.exists] at hpq
    obtain ⟨linked, d₁, hchain, rfl⟩ := hpq
    exact hq.hasAtLeast (chain_linked hp hi hlt hj hglobal hchain)

theorem checkRejected_growsBy (hasked : ∀ n ∈ w.chains.rejected, MayPrecede asked units su i n)
    (h : w.checkRejected m (.unit su) i = .ok w') :
    w'.chains.barrier = w.chains.barrier ∧ w.draft.graph.GrowsBy asked w'.draft.graph := by
  simp only [MemoryWalk.checkRejected, bind_eq_ok, pure_eq_ok, Prod.exists] at h
  obtain ⟨kept, d, h, rfl⟩ := h
  refine ⟨rfl, ?_⟩
  have hall : ∀ {f : List NodeId × Draft → NodeId → Except Fault (List NodeId × Draft)},
      (∀ n ∈ w.chains.rejected, ∀ p q, p.2.graph.Wraps m.block units → f p n = .ok q →
        p.2.graph.GrowsBy asked q.2.graph) →
      w.chains.rejected.foldlM f ([], w.draft) = .ok (kept, d) →
      w.draft.graph.GrowsBy asked d.graph := fun hstep h =>
    .of_foldlM (fun p : List NodeId × Draft => p.2.graph)
      (fun n hn p q hp hq => hstep n hn p q (hw.grows hp.grows) hq) h
  split at h
  · refine hall (fun n hn p q hp hq => ?_) h
    obtain ⟨t, rfl, ht⟩ := hasked n hn
    simp only [MemoryWalk.orderRejected, bind_eq_ok, pure_eq_ok] at hq
    obtain ⟨j, hj, d₁, hd, rfl⟩ := hq
    exact Draft.withDep_growsBy hd (ht j (MemoryScope.instr_ok hp hj))
  · refine hall (fun n hn p q hp hq => ?_) h
    simp only [MemoryWalk.reviewRejected, bind_eq_ok] at hq
    obtain ⟨j, -, hq⟩ := hq
    split at hq
    · cases hq
      exact .refl
    · simp only [bind_eq_ok, pure_eq_ok, Prod.exists] at hq
      obtain ⟨linked, d₁, hchain, rfl⟩ := hq
      exact chain_growsBy hp hi hfound (hasked n hn) hchain

end

theorem orderAgainstBarrier_growsBy
    (hasked : ∀ n, w.chains.barrier = some n → asked n (.order (.unit su) 0))
    (h : w.orderAgainstBarrier (.unit su) = .ok w') :
    w.draft.graph.GrowsBy asked w'.draft.graph := by
  unfold MemoryWalk.orderAgainstBarrier at h
  split at h
  · cases h
    exact .refl
  next n hn =>
    simp only [bind_eq_ok, pure_eq_ok] at h
    obtain ⟨d, hd, rfl⟩ := h
    exact Draft.withDep_growsBy hd (hasked n hn)

/-! Accesses -/

/-- What memory adds on behalf of an instruction. -/
def MemoryWalk.Requested (m : MemoryScope) (units : List Instr) (su : Nat) (i : Instr)
    (w w' : MemoryWalk) : Prop :=
  PutBefore (MemoryRequest m units w.chains su i) units su i (w.chains.meets i) w.draft.graph
    w'.draft.graph

section

variable (hw : w.draft.graph.Wraps m.block units) (hi : units[su]? = some i)
  (hf : w.chains.Filed m.oracle units (su + 1))

theorem MemoryRequest.of_found {c : MemoryChains} (hi : i.isGlobalAccess = false)
    (ho : m.oracle.isSome) (z : Nat) (k : Instr) (hk : units[z]? = some k)
    (hd : k.isGlobalAccess = false) :
    MemoryRequest m units c su i (.unit z) (.order (.unit su) (orderLatency i k)) :=
  .found hk ho hi hd

include hf

theorem mayPrecede_meets (hn : n ∈ w.chains.meets i) :
    IsUnit units (su + 1) (fun _ => True) n ∧
      MayPrecede (MemoryRequest m units w.chains su i) units su i n := by
  have hall : n ∈ w.chains.all := by
    unfold MemoryChains.meets at hn
    split at hn
    · exact hn
    · exact MemoryChains.mem_all_of_mem_targets hn
  have hunit := hf.isUnit hall
  obtain ⟨t, rfl, -⟩ := hunit.later
  exact ⟨hunit, t, rfl, fun j hj => .met hj hn⟩

theorem mayPrecede_rejected (hd : i.isGlobalAccess = false) (hn : n ∈ w.chains.rejected) :
    MayPrecede (MemoryRequest m units w.chains su i) units su i n := by
  obtain ⟨t, j, rfl, -, hj, hjd⟩ := hf.rejected n hn
  have horacle : m.oracle.isSome := by
    cases ho : m.oracle with
    | none => simp [hf.unasked ho] at hn
    | some oracle => rfl
  refine ⟨t, rfl, fun j' hj' => ?_⟩
  obtain rfl := Option.some.inj (hj.symm.trans hj')
  exact .found hj horacle hd hjd

include hw hi

theorem addGlobal_requested (hglobal : i.isGlobalAccess)
    (h : w.addGlobal m (.unit su) = .ok w') : w.Requested m units su i w' := by
  simp only [MemoryWalk.addGlobal, bind_eq_ok, pure_eq_ok, Prod.exists] at h
  obtain ⟨apart, w₁, hc, rfl⟩ := h
  have hall : w.chains.meets i = w.chains.all := if_pos hglobal
  rw [← hall] at hc
  exact (chainTo_putBefore hw hi MemoryRequest.of_found
    (fun n hn => (mayPrecede_meets hf hn).1) (fun n hn => (mayPrecede_meets hf hn).2) hc).2

theorem addObjectStore_requested (hd : i.isGlobalAccess = false) (hstore : i.mayStore)
    (ho : i.underlyingObject = some o) (h : w.addObjectStore m (.unit su) i o = .ok w') :
    w'.chains.barrier = w.chains.barrier ∧ w.Requested m units su i w' := by
  simp only [MemoryWalk.addObjectStore, bind_eq_ok, pure_eq_ok, Prod.exists] at h
  obtain ⟨apart, ⟨c₁, d₁⟩, h₁, apart', ⟨c₂, d₂⟩, h₂, w₃, h₃, rfl⟩ := h
  obtain ⟨hb, ha, hp, hr⟩ := MemoryChains.setDef_rest w.chains o (.unit su)
  have hmeets : w.chains.meets i = (w.chains.defOf o).toList ++ w.chains.usesOf o ++
      if o.mayAlias then w.chains.pendingLoads ++ w.chains.aliasChain.toList else [] := by
    simp [MemoryChains.meets, hd, MemoryChains.targets, ho, hstore]
  have hmet := fun n hn => mayPrecede_meets (i := i) hf (n := n) (hmeets ▸ hn)
  have hmet₁ := fun n hn => hmet n (List.mem_append_left _ hn)
  have hmet₂ := fun n hn => hmet n (List.mem_append_right _ hn)
  obtain ⟨rfl, hput₁⟩ := chainTo_putBefore hw hi MemoryRequest.of_found
    (fun n hn => (hmet₁ n hn).1) (fun n hn => (hmet₁ n hn).2) h₁
  simp only [hp, ha] at h₂
  have hw₁ := hw.grows hput₁.growsBy.grows
  obtain ⟨hc₂, hput₂⟩ := chainTo_putBefore (w := ⟨w.chains.setDef o (.unit su), d₁⟩) hw₁ hi
    MemoryRequest.of_found (fun n hn => (hmet₂ n hn).1) (fun n hn => (hmet₂ n hn).2) h₂
  obtain rfl : c₂ = w.chains.setDef o (.unit su) := hc₂
  obtain ⟨hb₃, hgrows⟩ := checkRejected_growsBy (hw₁.grows hput₂.growsBy.grows) hi
    MemoryRequest.of_found (fun n hn => mayPrecede_rejected hf hd (hr ▸ hn)) h₃
  refine ⟨hb₃.trans hb, ?_⟩
  rw [MemoryWalk.Requested, hmeets]
  exact ((hput₁.trans hput₂).trans (.of_growsBy hgrows)).mono (List.subset_append_left _ _)

theorem addUnknownStore_requested (hd : i.isGlobalAccess = false) (hstore : i.mayStore)
    (ho : i.underlyingObject = none) (h : w.addUnknownStore m (.unit su) i = .ok w') :
    w'.chains.barrier = w.chains.barrier ∧ w.Requested m units su i w' := by
  simp only [MemoryWalk.addUnknownStore, bind_eq_ok, pure_eq_ok, Prod.exists] at h
  obtain ⟨w₁, h₁, apart, w₂, h₂, rfl⟩ := h
  obtain ⟨hb₁, hgrows⟩ := checkRejected_growsBy (w := ⟨w.chains.hidden, w.draft⟩) hw hi
    MemoryRequest.of_found (fun n hn => mayPrecede_rejected hf hd hn) h₁
  have hmeets : ∀ n, n ∈ w.chains.aliasChain.toList ++ w.chains.pendingLoads ++
      w.chains.sharedDefs.values ++ w.chains.sharedUses.values.flatten ↔
      n ∈ w.chains.meets i := by
    intro n
    simp only [MemoryChains.meets, hd, MemoryChains.targets, ho, hstore, Bool.false_eq_true,
      if_false, if_true, List.mem_append]
    tauto
  obtain ⟨hc₂, hput⟩ := chainTo_putBefore (hw.grows hgrows.grows) hi MemoryRequest.of_found
    (fun n hn => (mayPrecede_meets hf ((hmeets n).mp hn)).1)
    (fun n hn => (mayPrecede_meets hf ((hmeets n).mp hn)).2) h₂
  refine ⟨(congrArg MemoryChains.barrier hc₂).trans hb₁, ?_⟩
  exact ((PutBefore.of_growsBy hgrows).trans hput).mono fun n hn => (hmeets n).mpr hn

theorem addStore_requested (hd : i.isGlobalAccess = false) (hstore : i.mayStore)
    (h : w.addStore m (.unit su) i = .ok w') : w.Requested m units su i w' := by
  have hlast : ∀ v : MemoryWalk,
      v.chains.barrier = w.chains.barrier ∧ w.Requested m units su i v → (do
        let v ← v.orderAgainstBarrier (.unit su)
        let draft ← v.draft.withDep .exit (.artificial (.unit su))
        pure { v with draft } : Except Fault MemoryWalk) = .ok w' →
      w.Requested m units su i w' := by
    intro v ⟨hb, hv⟩ h
    simp only [bind_eq_ok, pure_eq_ok] at h
    obtain ⟨u, hu, d, hdep, rfl⟩ := h
    have hbehind : v.draft.graph.GrowsBy (MemoryRequest m units w.chains su i) u.draft.graph :=
      orderAgainstBarrier_growsBy (fun n hn => .behind hd (hb ▸ hn)) hu
    exact (hv.trans (.of_growsBy (hbehind.trans (Draft.withDep_growsBy hdep .preference)))).mono
      (List.subset_append_left _ _)
  simp only [MemoryWalk.addStore] at h
  split at h
  next o ho =>
    obtain ⟨v, hv, h⟩ := bind_eq_ok.mp h
    exact hlast v (addObjectStore_requested hw hi hf hd hstore ho hv) h
  next ho =>
    obtain ⟨v, hv, h⟩ := bind_eq_ok.mp h
    exact hlast v (addUnknownStore_requested hw hi hf hd hstore ho hv) h

theorem addLoad_requested (hd : i.isGlobalAccess = false) (hload : i.mayStore = false)
    (h : w.addLoad m (.unit su) i = .ok w') : w.Requested m units su i w' := by
  -- the rejected accesses and the barrier stay where they are, whatever the load reads from
  have hlast : ∀ (targets apart : List NodeId) (v : MemoryWalk) (c : MemoryChains),
      (∀ n, n ∈ targets ↔ n ∈ w.chains.meets i) →
      w.chainTo m (.unit su) targets = .ok (apart, v) →
      c.barrier = w.chains.barrier → c.rejected = w.chains.rejected → (do
        let v ← MemoryWalk.checkRejected m (.unit su) i { v with chains := c }
        v.orderAgainstBarrier (.unit su)) = .ok w' → w.Requested m units su i w' := by
    intro targets apart v c htargets hv hb hr h
    obtain ⟨-, hput⟩ := chainTo_putBefore hw hi MemoryRequest.of_found
      (fun n hn => (mayPrecede_meets hf ((htargets n).mp hn)).1)
      (fun n hn => (mayPrecede_meets hf ((htargets n).mp hn)).2) hv
    obtain ⟨u, hu, h⟩ := bind_eq_ok.mp h
    obtain ⟨hbu, hgrows⟩ := checkRejected_growsBy (w := { v with chains := c })
      (hw.grows hput.growsBy.grows) hi MemoryRequest.of_found
      (fun n hn => mayPrecede_rejected hf hd (hr ▸ hn)) hu
    have hbehind : u.draft.graph.GrowsBy (MemoryRequest m units w.chains su i) w'.draft.graph :=
      orderAgainstBarrier_growsBy (fun n hn => .behind hd (hb ▸ hbu ▸ hn)) h
    refine (hput.trans (.of_growsBy (hgrows.trans hbehind))).mono fun n hn => ?_
    exact List.mem_append_left _ ((htargets n).mpr hn)
  simp only [MemoryWalk.addLoad] at h
  split at h
  next o ho =>
    simp only [bind_eq_ok, pure_eq_ok, Prod.exists] at h
    obtain ⟨apart, v, hv, _, rfl, h⟩ := h
    obtain ⟨hb, -, -, hr⟩ := MemoryChains.addUse_rest w.chains o (.unit su)
    refine hlast _ apart v _ (fun n => ?_) hv hb hr (bind_eq_ok.mpr h)
    simp [MemoryChains.meets, hd, MemoryChains.targets, ho, hload]
  next ho =>
    simp only [bind_eq_ok, pure_eq_ok, Prod.exists] at h
    obtain ⟨apart, v, hv, _, rfl, h⟩ := h
    refine hlast _ apart v { w.chains with pendingLoads := w.chains.pendingLoads ++ [.unit su] }
      (fun n => ?_) hv rfl rfl (bind_eq_ok.mpr h)
    simp [MemoryChains.meets, hd, MemoryChains.targets, ho, hload, or_comm]

/-- Memory asks for the edges of a tracked access and for nothing on behalf of other instructions. -/
theorem add_requested (h : w.add m (.unit su) i = .ok w') :
    (i.isTracked ∧ w.Requested m units su i w') ∨ (i.isTracked = false ∧ w' = w) := by
  unfold MemoryWalk.add at h
  split at h
  next hglobal =>
    exact .inl ⟨by simp [Instr.isTracked, hglobal], addGlobal_requested hw hi hf hglobal h⟩
  next hd =>
    rw [Bool.not_eq_true] at hd
    split at h
    next hstore =>
      exact .inl ⟨by simp [Instr.isTracked, hstore], addStore_requested hw hi hf hd hstore h⟩
    next hload =>
      rw [Bool.not_eq_true] at hload
      split at h
      next hread =>
        exact .inl ⟨by simp [Instr.isTracked, hread], addLoad_requested hw hi hf hd hload h⟩
      next hother =>
        cases h
        exact .inr ⟨by simpa [Instr.isTracked, hd, hload] using hother, rfl⟩

end

end Precedence
