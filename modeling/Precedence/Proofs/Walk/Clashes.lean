import Precedence.Proofs.Graph.Kept
import Precedence.Proofs.Walk.Memory

/-!
What memory adds at most. While there is room for all rejected accesses, an access is put before
accesses that it clashes with and before those that these are put before themselves. Nothing but
edges that order memory tells the graph from what it was before, until a store is put before the
exit.
-/
namespace Precedence

/-- The graph without the edges that order memory. -/
def Graph.withoutOrder (g : Graph) : Graph := g.only (· != .order)

/-- Memory keeps two accesses in order, unless an oracle separates them. -/
def Clash (i j : Instr) : Prop :=
  i.isGlobalAccess ∨ j.isGlobalAccess ∨ (conflicts i j ∧ mayTouch i j)

/-- Unit `su` has been put before units of a set, and all other edges are as they were. -/
structure Ordered (su : Nat) (P : Nat → Prop) (d d' : Draft) : Prop where
  adds : d.graph.AddsOnly d'.graph (orderEdges su P)
  rest : d'.graph.withoutOrder = d.graph.withoutOrder

/-- A node is a unit behind `su`, and one of a set if its instruction is as `p` says. -/
def Within (units : List Instr) (su : Nat) (P : Nat → Prop) (p : Instr → Prop) (n : NodeId) :
    Prop :=
  ∃ t j, n = .unit t ∧ su < t ∧ units[t]? = some j ∧ (p j → P t)

variable {m : MemoryScope} {units : List Instr} {su t k depth latency : Nat} {P : Nat → Prop}
  {i j : Instr} {o : MemObject} {oracle : Option Oracle} {n target : NodeId} {d d' d'' : Draft}
  {v v' w w' : MemoryWalk}

namespace Ordered

theorem refl (d : Draft) : Ordered su P d d := ⟨.refl _ _, rfl⟩

theorem trans (h : Ordered su P d d') (h' : Ordered su P d' d'') : Ordered su P d d'' :=
  ⟨h.adds.trans h'.adds, h'.rest.trans h.rest⟩

theorem wraps {b : Block} (h : Ordered su P d d') (hw : d.graph.Wraps b units) :
    d'.graph.Wraps b units := hw.grows h.adds.grows

theorem sealed (h : Ordered su P d d') (hP : Sealed units su P d.graph) :
    Sealed units su P d'.graph := hP.of_orderEdges h.adds

end Ordered

/-! Searches -/

theorem Draft.withoutOrder_withDep (h : d.withDep n (.order target latency) = .ok d') :
    d'.graph.withoutOrder = d.graph.withoutOrder := by
  simp only [withDep, bind_eq_ok, pure_eq_ok] at h
  obtain ⟨g, hg, rfl⟩ := h
  exact Graph.only_withDep_of_not rfl hg

theorem withoutOrder_visitChain {visit : Visit} {self : NodeId}
    (h : visitChain m self target depth d = .ok visit) :
    visit.draft.graph.withoutOrder = d.graph.withoutOrder := by
  simp only [visitChain_eq, bind_eq_ok] at h
  obtain ⟨i, -, j, -, ⟨apart, d₁⟩, hask, h⟩ := h
  obtain ⟨hgraph, -⟩ := askApart_ok hask
  rw [← hgraph]
  rcases endVisit_ok h with ⟨-, next, -, rfl⟩ | ⟨-, d₂, hd, rfl⟩
  · rfl
  · exact Draft.withoutOrder_withDep hd

theorem withoutOrder_followChain {self : NodeId} {todo : List (NodeId × Nat)} {met : Marks}
    (h : followChain m self todo met d = .ok d') :
    d'.graph.withoutOrder = d.graph.withoutOrder := by
  fun_induction followChain m self todo met d with
  | case1 =>
    cases h
    rfl
  | case2 => cases h
  | case3 target depth todo met d hfresh visit hvisit ih =>
    exact (ih h).trans (withoutOrder_visitChain hvisit)
  | case4 target depth todo met d hold ih => exact ih h

theorem chain_ordered {linked : Bool} (hw : d.graph.Wraps m.block units)
    (hi : units[su]? = some i) (hlt : su < t) (ht : t < units.length)
    (hP : Sealed units su P d.graph) (hPt : P t)
    (h : chain m (.unit su) (.unit t) d = .ok (linked, d')) : Ordered su P d d' := by
  refine ⟨(chain_ok hw hi hlt ht h).adds P hP hPt, ?_⟩
  unfold chain at h
  split at h
  · cases h
    rfl
  · simp only [bind_eq_ok, pure_eq_ok, Prod.mk.injEq] at h
    obtain ⟨visit, hvisit, d₁, hd, -, rfl⟩ := h
    exact (withoutOrder_followChain hd).trans (withoutOrder_visitChain hvisit)

/-- A loop whose rounds put `su` before units of a set. -/
theorem ordered_foldlM {f : List NodeId × Draft → NodeId → Except Fault (List NodeId × Draft)}
    {l : List NodeId} {p q : List NodeId × Draft} (hw : p.2.graph.Wraps m.block units)
    (hP : Sealed units su P p.2.graph)
    (step : ∀ n ∈ l, ∀ x y, x.2.graph.Wraps m.block units → Sealed units su P x.2.graph →
      f x n = .ok y → Ordered su P x.2 y.2)
    (h : l.foldlM f p = .ok q) : Ordered su P p.2 q.2 :=
  foldlM_keeps (fun x => Ordered su P p.2 x.2)
    (fun n hn x y hx hy => hx.trans (step n hn x y (hx.wraps hw) (hx.sealed hP) hy)) (.refl _) h

section

variable (hw : v.draft.graph.Wraps m.block units) (hi : units[su]? = some i)
  (hP : Sealed units su P v.draft.graph)

include hw hi hP

theorem chainTo_ordered {targets apart : List NodeId}
    (htargets : ∀ n ∈ targets, Within units su P (fun _ => True) n)
    (h : v.chainTo m (.unit su) targets = .ok (apart, v')) :
    v'.chains = v.chains ∧ Ordered su P v.draft v'.draft := by
  simp only [MemoryWalk.chainTo, bind_eq_ok, pure_eq_ok, Prod.mk.injEq, Prod.exists] at h
  obtain ⟨_, d, h, -, rfl⟩ := h
  refine ⟨rfl, ordered_foldlM (p := ([], v.draft)) hw hP (fun n hn x y hx hPx h => ?_) h⟩
  obtain ⟨t, j, rfl, hlt, hj, hPt⟩ := htargets n hn
  simp only [chainStep, bind_eq_ok, pure_eq_ok, Prod.exists] at h
  obtain ⟨linked, d₁, hchain, rfl⟩ := h
  exact chain_ordered hx hi hlt (List.getElem?_eq_some_iff.mp hj).1 hPx (hPt trivial) hchain

/-- A rejected access that `su` does not clash with is left alone, as long as there is room for
all of them. -/
theorem checkRejected_ordered (hroom : v.chains.rejected.length ≤ m.options.maxRejected)
    (hrejected : ∀ n ∈ v.chains.rejected,
      Within units su P (fun j => conflicts i j ∧ mayTouch i j) n)
    (h : v.checkRejected m (.unit su) i = .ok v') :
    v'.chains.barrier = v.chains.barrier ∧ Ordered su P v.draft v'.draft := by
  have hfull : (m.options.maxRejected < v.chains.rejected.length && i.mayStore) = false := by
    rw [decide_eq_false (Nat.not_lt.mpr hroom), Bool.false_and]
  simp only [MemoryWalk.checkRejected, hfull, bind_eq_ok, pure_eq_ok, Prod.exists] at h
  obtain ⟨kept, d, h, rfl⟩ := h
  refine ⟨rfl, ordered_foldlM (p := ([], v.draft)) hw hP (fun n hn x y hx hPx h => ?_) h⟩
  obtain ⟨t, j, rfl, hlt, hj, hPt⟩ := hrejected n hn
  simp only [Bool.false_eq_true, if_false, MemoryWalk.reviewRejected, bind_eq_ok] at h
  obtain ⟨j', hj', h⟩ := h
  obtain rfl := Option.some.inj (hj.symm.trans (MemoryScope.instr_ok hx hj'))
  split at h
  · cases h
    exact .refl _
  next hskip =>
    simp only [bind_eq_ok, pure_eq_ok, Prod.exists] at h
    obtain ⟨linked, d₁, hchain, rfl⟩ := h
    refine chain_ordered hx hi hlt (List.getElem?_eq_some_iff.mp hj).1 hPx (hPt ?_) hchain
    simpa [not_or] using hskip

end

theorem orderAgainstBarrier_ordered (hw : v.draft.graph.Wraps m.block units)
    (hbarrier : ∀ n, v.chains.barrier = some n → Within units su P (fun _ => True) n)
    (h : v.orderAgainstBarrier (.unit su) = .ok v') : Ordered su P v.draft v'.draft := by
  unfold MemoryWalk.orderAgainstBarrier at h
  split at h
  · cases h
    exact .refl _
  next n hn =>
    simp only [bind_eq_ok, pure_eq_ok] at h
    obtain ⟨d, hd, rfl⟩ := h
    obtain ⟨t, j, rfl, -, -, hPt⟩ := hbarrier n hn
    refine ⟨(Draft.withDep_adds hw.linked hd).only.mono ?_, Draft.withoutOrder_withDep hd⟩
    rintro p n k r ⟨rfl, rfl, rfl, rfl⟩
    exact ⟨rfl, rfl, rfl, t, rfl, hPt trivial⟩

/-! Accesses -/

/-- What an access is linked to, rejected accesses aside, it clashes with. -/
theorem MemoryChains.Filed.clash {c : MemoryChains} (h : c.Filed oracle units k)
    (hn : .unit t ∈ c.targets i) (hj : units[t]? = some j) : Clash i j := by
  have haliases : c.aliasChain = some (.unit t) → j.isGlobalAccess ∨
      (j.mayStore ∧ j.underlyingObject = none) := fun hn => (h.aliasChain _ hn).instr hj
  unfold targets at hn
  split at hn
  next o ho =>
    simp only [List.mem_append, Option.mem_toList, List.mem_ite_nil_right] at hn
    rcases hn with (hn | ⟨hs, hn⟩) | ⟨ha, ⟨hs, hn⟩ | hn⟩
    · obtain ⟨-, hs, hjo⟩ := (h.defs o _ hn).instr hj
      exact .inr (.inr (by simp [conflicts, mayTouch, ho, hs, hjo]))
    · obtain ⟨-, -, hjo⟩ := (h.uses o _ hn).instr hj
      exact .inr (.inr (by simp [conflicts, mayTouch, ho, hs, hjo]))
    · obtain ⟨-, -, hjo⟩ := (h.pendingLoads _ hn).instr hj
      exact .inr (.inr (by simp [conflicts, mayTouch, ho, ha, hs, hjo]))
    · rcases haliases hn with hj | ⟨hs, hjo⟩
      · exact .inr (.inl hj)
      · exact .inr (.inr (by simp [conflicts, mayTouch, ho, ha, hs, hjo]))
  next ho =>
    simp only [List.mem_append, Option.mem_toList, List.mem_ite_nil_right, mem_sharedDefs,
      mem_sharedUses] at hn
    rcases hn with (hn | ⟨p, hp, hn⟩) | ⟨hs, hn | ⟨p, hp, hn⟩⟩
    · rcases haliases hn with hj | ⟨hs, hjo⟩
      · exact .inr (.inl hj)
      · exact .inr (.inr (by simp [conflicts, mayTouch, ho, hs, hjo]))
    · obtain ⟨-, hs, hjo⟩ := (h.defs p _ hn).instr hj
      exact .inr (.inr (by simp [conflicts, mayTouch, ho, hp, hs, hjo]))
    · obtain ⟨-, -, hjo⟩ := (h.pendingLoads _ hn).instr hj
      exact .inr (.inr (by simp [conflicts, mayTouch, ho, hs, hjo]))
    · obtain ⟨-, -, hjo⟩ := (h.uses p _ hn).instr hj
      exact .inr (.inr (by simp [conflicts, mayTouch, ho, hp, hs, hjo]))

/-- A set that no edge leaves holds everything known that an access clashes with. -/
structure Closed (m : MemoryScope) (units : List Instr) (su : Nat) (i : Instr) (P : Nat → Prop)
    (w : MemoryWalk) : Prop where
  wraps : w.draft.graph.Wraps m.block units
  instr : units[su]? = some i
  filed : w.chains.Filed m.oracle units (su + 1)
  room : w.chains.rejected.length ≤ m.options.maxRejected
  sealed : Sealed units su P w.draft.graph
  all : ∀ t j, .unit t ∈ w.chains.all → units[t]? = some j → Clash i j → P t

namespace Closed

variable (h : Closed m units su i P w)

include h

theorem within (hn : n ∈ w.chains.all) : Within units su P (Clash i) n := by
  obtain ⟨t, j, rfl, hlt, hj, -⟩ := h.filed.isUnit hn
  exact ⟨t, j, rfl, hlt, hj, h.all t j hn hj⟩

theorem within_targets (hn : n ∈ w.chains.targets i) : Within units su P (fun _ => True) n := by
  obtain ⟨t, j, rfl, hlt, hj, hPt⟩ := h.within (MemoryChains.mem_all_of_mem_targets hn)
  exact ⟨t, j, rfl, hlt, hj, fun _ => hPt (h.filed.clash hn hj)⟩

theorem within_rejected (hn : n ∈ w.chains.rejected) :
    Within units su P (fun j => conflicts i j ∧ mayTouch i j) n := by
  obtain ⟨t, j, rfl, hlt, hj, hPt⟩ := h.within (MemoryChains.rejected_mem_all hn)
  exact ⟨t, j, rfl, hlt, hj, fun hc => hPt (.inr (.inr hc))⟩

theorem within_barrier (hn : w.chains.barrier = some n) :
    Within units su P (fun _ => True) n := by
  obtain ⟨t, j, rfl, hlt, hj, hPt⟩ := h.within (MemoryChains.barrier_mem_all hn)
  exact ⟨t, j, rfl, hlt, hj, fun _ => hPt (.inr (.inl ((h.filed.barrier _ hn).instr hj)))⟩

theorem addGlobal (hglobal : i.isGlobalAccess) (hw' : w.addGlobal m (.unit su) = .ok w') :
    Ordered su P w.draft w'.draft := by
  simp only [MemoryWalk.addGlobal, bind_eq_ok, pure_eq_ok, Prod.exists] at hw'
  obtain ⟨apart, w₁, hc, rfl⟩ := hw'
  refine (chainTo_ordered h.wraps h.instr h.sealed (fun n hn => ?_) hc).2
  obtain ⟨t, j, rfl, hlt, hj, hPt⟩ := h.within hn
  exact ⟨t, j, rfl, hlt, hj, fun _ => hPt (.inl hglobal)⟩

theorem addObjectStore (hstore : i.mayStore) (ho : i.underlyingObject = some o)
    (hw' : w.addObjectStore m (.unit su) i o = .ok w') :
    w'.chains.barrier = w.chains.barrier ∧ Ordered su P w.draft w'.draft := by
  simp only [MemoryWalk.addObjectStore, bind_eq_ok, pure_eq_ok, Prod.exists] at hw'
  obtain ⟨apart, ⟨c₁, d₁⟩, h₁, apart', ⟨c₂, d₂⟩, h₂, w₃, h₃, rfl⟩ := hw'
  obtain ⟨hb, ha, hp, hr⟩ := MemoryChains.setDef_rest w.chains o (.unit su)
  obtain ⟨hc₁, ho₁⟩ := chainTo_ordered h.wraps h.instr h.sealed (fun n hn => h.within_targets (by
    simp only [MemoryChains.targets, ho, hstore, if_true, List.mem_append] at hn ⊢
    exact .inl hn)) h₁
  obtain rfl : c₁ = w.chains := hc₁
  simp only [hp, ha] at h₂
  obtain ⟨hc₂, ho₂⟩ := chainTo_ordered (v := ⟨w.chains.setDef o (.unit su), d₁⟩)
    (ho₁.wraps h.wraps) h.instr (ho₁.sealed h.sealed) (fun n hn => h.within_targets (by
      simp only [MemoryChains.targets, ho, hstore, if_true, List.mem_append]
      exact .inr hn)) h₂
  obtain rfl : c₂ = w.chains.setDef o (.unit su) := hc₂
  have ho₁₂ := ho₁.trans ho₂
  obtain ⟨hb₃, ho₃⟩ := checkRejected_ordered (ho₁₂.wraps h.wraps) h.instr (ho₁₂.sealed h.sealed)
    (hr ▸ h.room) (fun n hn => h.within_rejected (hr ▸ hn)) h₃
  exact ⟨hb₃.trans hb, ho₁₂.trans ho₃⟩

theorem addUnknownStore (hstore : i.mayStore) (ho : i.underlyingObject = none)
    (hw' : w.addUnknownStore m (.unit su) i = .ok w') :
    w'.chains.barrier = w.chains.barrier ∧ Ordered su P w.draft w'.draft := by
  simp only [MemoryWalk.addUnknownStore, bind_eq_ok, pure_eq_ok, Prod.exists] at hw'
  obtain ⟨w₁, h₁, apart, w₂, h₂, rfl⟩ := hw'
  obtain ⟨hb₁, ho₁⟩ := checkRejected_ordered (v := ⟨w.chains.hidden, w.draft⟩) h.wraps h.instr
    h.sealed h.room (fun n hn => h.within_rejected hn) h₁
  obtain ⟨hc₂, ho₂⟩ := chainTo_ordered (ho₁.wraps h.wraps) h.instr (ho₁.sealed h.sealed)
    (fun n hn => h.within_targets (by
      simp only [MemoryChains.targets, ho, hstore, if_true, List.mem_append] at hn ⊢
      tauto)) h₂
  exact ⟨(congrArg MemoryChains.barrier hc₂).trans hb₁, ho₁.trans ho₂⟩

/-- A store is put before accesses first, and before the exit last. -/
theorem addStore (hstore : i.mayStore) (hw' : w.addStore m (.unit su) i = .ok w') :
    ∃ d, Ordered su P w.draft d ∧ d.withDep .exit (.artificial (.unit su)) = .ok w'.draft := by
  have hlast : ∀ v : MemoryWalk,
      v.chains.barrier = w.chains.barrier ∧ Ordered su P w.draft v.draft → (do
        let v ← v.orderAgainstBarrier (.unit su)
        let draft ← v.draft.withDep .exit (.artificial (.unit su))
        pure { v with draft } : Except Fault MemoryWalk) = .ok w' →
      ∃ d, Ordered su P w.draft d ∧ d.withDep .exit (.artificial (.unit su)) = .ok w'.draft := by
    intro v ⟨hb, hv⟩ hw'
    simp only [bind_eq_ok, pure_eq_ok] at hw'
    obtain ⟨u, hu, d, hd, rfl⟩ := hw'
    have hou := orderAgainstBarrier_ordered (hv.wraps h.wraps)
      (fun n hn => h.within_barrier (hb ▸ hn)) hu
    exact ⟨u.draft, hv.trans hou, hd⟩
  simp only [MemoryWalk.addStore] at hw'
  split at hw'
  next o ho =>
    obtain ⟨v, hv, hw'⟩ := bind_eq_ok.mp hw'
    exact hlast v (h.addObjectStore hstore ho hv) hw'
  next ho =>
    obtain ⟨v, hv, hw'⟩ := bind_eq_ok.mp hw'
    exact hlast v (h.addUnknownStore hstore ho hv) hw'

theorem addLoad (hload : i.mayStore = false) (hw' : w.addLoad m (.unit su) i = .ok w') :
    Ordered su P w.draft w'.draft := by
  -- the rejected accesses and the barrier stay where they are, whatever the load reads from
  have hlast : ∀ (targets apart : List NodeId) (v : MemoryWalk) (c : MemoryChains),
      (∀ n ∈ targets, n ∈ w.chains.targets i) → w.chainTo m (.unit su) targets = .ok (apart, v) →
      c.barrier = w.chains.barrier → c.rejected = w.chains.rejected → (do
        let v ← MemoryWalk.checkRejected m (.unit su) i { v with chains := c }
        v.orderAgainstBarrier (.unit su)) = .ok w' → Ordered su P w.draft w'.draft := by
    intro targets apart v c htargets hv hb hr hw'
    obtain ⟨-, hov⟩ := chainTo_ordered h.wraps h.instr h.sealed
      (fun n hn => h.within_targets (htargets n hn)) hv
    obtain ⟨u, hu, hw'⟩ := bind_eq_ok.mp hw'
    obtain ⟨hbu, hou⟩ := checkRejected_ordered (v := { v with chains := c }) (hov.wraps h.wraps)
      h.instr (hov.sealed h.sealed) (hr ▸ h.room) (fun n hn => h.within_rejected (hr ▸ hn)) hu
    have hou := hov.trans hou
    exact hou.trans (orderAgainstBarrier_ordered (hou.wraps h.wraps)
      (fun n hn => h.within_barrier (hb ▸ hbu ▸ hn)) hw')
  simp only [MemoryWalk.addLoad] at hw'
  split at hw'
  next o ho =>
    simp only [bind_eq_ok, pure_eq_ok, Prod.exists] at hw'
    obtain ⟨apart, v, hv, _, rfl, hw'⟩ := hw'
    obtain ⟨hb, -, -, hr⟩ := MemoryChains.addUse_rest w.chains o (.unit su)
    refine hlast _ apart v _ (fun n hn => ?_) hv hb hr (bind_eq_ok.mpr hw')
    simpa [MemoryChains.targets, ho, hload] using hn
  next ho =>
    simp only [bind_eq_ok, pure_eq_ok, Prod.exists] at hw'
    obtain ⟨apart, v, hv, _, rfl, hw'⟩ := hw'
    refine hlast _ apart v { w.chains with pendingLoads := w.chains.pendingLoads ++ [.unit su] }
      (fun n hn => ?_) hv rfl rfl (bind_eq_ok.mpr hw')
    simpa [MemoryChains.targets, ho, hload, or_comm] using hn

/-- An instruction is put before accesses that it clashes with, and before the exit if it is a
described store. -/
theorem add (hw' : w.add m (.unit su) i = .ok w') : ∃ d, Ordered su P w.draft d ∧
    if i.isGlobalAccess = false ∧ i.mayStore then
      d.withDep .exit (.artificial (.unit su)) = .ok w'.draft
    else w'.draft = d := by
  unfold MemoryWalk.add at hw'
  split at hw'
  next hglobal => exact ⟨_, h.addGlobal hglobal hw', by simp [hglobal]⟩
  next hd =>
    rw [Bool.not_eq_true] at hd
    split at hw'
    next hstore =>
      obtain ⟨d, hod, hdep⟩ := h.addStore hstore hw'
      exact ⟨d, hod, by rwa [if_pos ⟨hd, hstore⟩]⟩
    next hload =>
      rw [Bool.not_eq_true] at hload
      split at hw'
      · exact ⟨_, h.addLoad hload hw', by simp [hload]⟩
      · cases hw'
        exact ⟨_, .refl _, by simp [hload]⟩

end Closed

end Precedence
