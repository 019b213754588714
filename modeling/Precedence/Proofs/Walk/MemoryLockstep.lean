import Precedence.Proofs.Walk.Accesses
import Precedence.Proofs.Walk.Lockstep

/-!
Memory side by side. Which accesses are known is a matter of the instructions and of what has been
separated, so two walks that know the same accesses go on knowing the same ones, as long as every
visit of an access ends alike on both sides.
-/
namespace Precedence

/-- The drafts are related, and what comes with them is the same. -/
def Draft.Beside {α : Type} (D : Draft → Draft → Prop) (p p' : α × Draft) : Prop :=
  p.1 = p'.1 ∧ D p.2 p'.2

/-- Both visits end in an edge or both do not, they go on with the same accesses, and the drafts are
related. -/
structure Visit.Beside (D : Draft → Draft → Prop) (v v' : Visit) : Prop where
  linked : v.linked = v'.linked
  next : v.next = v'.next
  draft : D v.draft v'.draft

/-- The same accesses are known, and the drafts are related. -/
structure MemoryWalk.Beside (D : Draft → Draft → Prop) (w w' : MemoryWalk) : Prop where
  chains : w.chains = w'.chains
  draft : D w.draft w'.draft

/-- A relation between drafts that is kept when an access is visited on both sides. -/
structure MemoryLockstep (D : Draft → Draft → Prop) (m m' : MemoryScope) : Prop
    extends Lockstep D where
  block : m.block = m'.block
  visit : ∀ {d d' : Draft}, D d d' → ∀ su target depth,
    Alike (Visit.Beside D) (visitChain m su target depth d) (visitChain m' su target depth d')

theorem memoryLockstep_eq {m : MemoryScope} : MemoryLockstep Eq m m where
  toLockstep := lockstep_eq
  block := rfl
  visit h _ _ _ := h ▸ .refl (fun _ => ⟨rfl, rfl, rfl⟩) _

/-- Rejected accesses are looked at in the same way: as many of them are remembered on both sides, or
there are none. -/
def SameReview (m m' : MemoryScope) (c : MemoryChains) : Prop :=
  m.options.maxRejected = m'.options.maxRejected ∨ c.rejected = []

theorem SameReview.of_rejected {m m' : MemoryScope} {c c' : MemoryChains} (h : SameReview m m' c)
    (hc : c'.rejected = c.rejected) : SameReview m m' c' :=
  h.imp_right hc.trans

namespace MemoryLockstep

variable {D : Draft → Draft → Prop} {m m' : MemoryScope} {su target : NodeId} {i : Instr}
  {d d' : Draft} {w w' : MemoryWalk} {targets : List NodeId}

theorem instr_eq (hD : MemoryLockstep D m m') (h : D d d') (id : NodeId) :
    m.instr d.graph id = m'.instr d'.graph id := by
  unfold MemoryScope.instr
  rw [hD.block, Graph.instr_eq_of_bare (hD.bare h)]

/-! Searches -/

theorem followChain (hD : MemoryLockstep D m m') {todo : List (NodeId × Nat)} {met : Marks}
    (h : D d d') : Alike D (followChain m su todo met d) (followChain m' su todo met d') := by
  fun_induction Precedence.followChain m su todo met d generalizing d' with
  | case1 met d =>
    rw [Precedence.followChain]
    exact .ok h
  | case2 target depth todo met d hfresh e hv =>
    have hvisit := hD.visit h su target depth
    rw [hv] at hvisit
    rw [Precedence.followChain, dif_pos hfresh]
    generalize visitChain m' su target depth d' = outcome at hvisit ⊢
    cases hvisit
    exact .error e
  | case3 target depth todo met d hfresh v hv ih =>
    obtain ⟨v', hv', hbeside⟩ := (hv ▸ hD.visit h su target depth).exists_ok
    rw [Precedence.followChain, dif_pos hfresh, hv']
    simp only [← hbeside.next]
    exact ih hbeside.draft
  | case4 target depth todo met d hold ih =>
    rw [Precedence.followChain, dif_neg hold]
    exact ih h

theorem chain (hD : MemoryLockstep D m m') (h : D d d') :
    Alike (Draft.Beside D) (chain m su target d) (chain m' su target d') := by
  unfold Precedence.chain
  split
  · exact .ok ⟨rfl, h⟩
  refine (hD.visit h su target 0).bind fun v v' hv => ?_
  rw [hv.next, Graph.size_eq_of_bare (hD.bare hv.draft), hv.linked]
  exact (hD.followChain hv.draft).bind fun e e' he => .pure ⟨rfl, he⟩

theorem chainTo (hD : MemoryLockstep D m m') (h : w.Beside D w') :
    Alike (fun p p' => p.1 = p'.1 ∧ p.2.Beside D p'.2 ∧ p.2.chains = w.chains)
      (w.chainTo m su targets) (w'.chainTo m' su targets) := by
  have hall : Alike (Draft.Beside D) (chainAll m su targets w.draft)
      (chainAll m' su targets w'.draft) := by
    refine Alike.foldlM (fun n _ p p' hp => ?_) ⟨rfl, h.draft⟩
    refine (hD.chain hp.2).bind fun q q' hq => .pure ⟨?_, hq.2⟩
    dsimp only
    rw [hq.1, hp.1]
  exact hall.bind fun p p' hp => .pure ⟨hp.1, ⟨h.chains, hp.2⟩, rfl⟩

/-! Rejected accesses -/

theorem orderRejected (hD : MemoryLockstep D m m') (h : D d d') (kept : List NodeId) (n : NodeId) :
    Alike (Draft.Beside D) (MemoryWalk.orderRejected m su i (kept, d) n)
      (MemoryWalk.orderRejected m' su i (kept, d') n) := by
  unfold MemoryWalk.orderRejected
  dsimp only
  rw [hD.instr_eq h]
  exact Alike.bind_same fun j => (hD.withDep h n _).bind fun e e' he => .pure ⟨rfl, he⟩

theorem reviewRejected (hD : MemoryLockstep D m m') (h : D d d') (kept : List NodeId)
    (n : NodeId) : Alike (Draft.Beside D) (MemoryWalk.reviewRejected m su i (kept, d) n)
      (MemoryWalk.reviewRejected m' su i (kept, d') n) := by
  unfold MemoryWalk.reviewRejected
  dsimp only
  rw [hD.instr_eq h]
  refine Alike.bind_same fun j => ?_
  split
  · exact .pure ⟨rfl, h⟩
  · refine (hD.chain h).bind fun q q' hq => .pure ⟨?_, hq.2⟩
    rw [hq.1]

theorem checkRejected (hD : MemoryLockstep D m m') (h : w.Beside D w')
    (hreview : SameReview m m' w.chains) :
    Alike (MemoryWalk.Beside D) (w.checkRejected m su i) (w'.checkRejected m' su i) := by
  unfold MemoryWalk.checkRejected
  rw [← h.chains]
  have hstart : Draft.Beside D (([] : List NodeId), w.draft) ([], w'.draft) := ⟨rfl, h.draft⟩
  rcases hreview with hmax | hnone
  case inr =>
    rw [hnone]
    exact .pure ⟨rfl, h.draft⟩
  rw [hmax]
  refine Alike.bind (R := Draft.Beside D) ?_ fun p p' hp => .pure ⟨by rw [hp.1], hp.2⟩
  split
  · refine Alike.foldlM (fun n _ ⟨kept, d⟩ ⟨_, d'⟩ ⟨hkept, h⟩ => ?_) hstart
    obtain rfl : kept = _ := hkept
    exact hD.orderRejected h kept n
  · refine Alike.foldlM (fun n _ ⟨kept, d⟩ ⟨_, d'⟩ ⟨hkept, h⟩ => ?_) hstart
    obtain rfl : kept = _ := hkept
    exact hD.reviewRejected h kept n

/-! Accesses -/

theorem orderAgainstBarrier (hD : MemoryLockstep D m m') (h : w.Beside D w') :
    Alike (MemoryWalk.Beside D) (w.orderAgainstBarrier su) (w'.orderAgainstBarrier su) := by
  unfold MemoryWalk.orderAgainstBarrier
  rw [h.chains]
  split
  · exact .pure h
  · exact (hD.withDep h.draft _ _).bind fun e e' he => .pure ⟨rfl, he⟩

theorem addGlobal (hD : MemoryLockstep D m m') (h : w.Beside D w') :
    Alike (MemoryWalk.Beside D) (w.addGlobal m su) (w'.addGlobal m' su) := by
  unfold MemoryWalk.addGlobal
  rw [h.chains]
  exact (hD.chainTo h).bind fun p p' hp => .pure ⟨rfl, hp.2.1.draft⟩

theorem addObjectStore (hD : MemoryLockstep D m m') {o : MemObject} (h : w.Beside D w')
    (hreview : SameReview m m' w.chains) :
    Alike (MemoryWalk.Beside D) (w.addObjectStore m su i o) (w'.addObjectStore m' su i o) := by
  unfold MemoryWalk.addObjectStore
  rw [← h.chains]
  refine (hD.chainTo h).bind fun ⟨apart, w₁⟩ ⟨_, w₁'⟩ ⟨hapart, h₁, hc₁⟩ => ?_
  obtain rfl : apart = _ := hapart
  have hset : MemoryWalk.Beside D { w₁ with chains := w₁.chains.setDef o su }
      { w₁' with chains := w₁'.chains.setDef o su } := ⟨by rw [h₁.chains], h₁.draft⟩
  dsimp only
  rw [← h₁.chains] at hset ⊢
  refine (hD.chainTo hset).bind fun ⟨_, w₂⟩ ⟨_, w₂'⟩ ⟨_, h₂, hc₂⟩ => ?_
  have hrejected : w₂.chains.rejected = w.chains.rejected := by
    dsimp only at hc₁ hc₂
    rw [hc₂, (MemoryChains.setDef_rest _ o su).2.2.2, hc₁]
  exact (hD.checkRejected h₂ (hreview.of_rejected hrejected)).bind fun w₃ w₃' h₃ =>
    .pure ⟨by rw [h₃.chains], h₃.draft⟩

theorem addUnknownStore (hD : MemoryLockstep D m m') (h : w.Beside D w')
    (hreview : SameReview m m' w.chains) :
    Alike (MemoryWalk.Beside D) (w.addUnknownStore m su i) (w'.addUnknownStore m' su i) := by
  unfold MemoryWalk.addUnknownStore
  have hhidden : MemoryWalk.Beside D
      { w with chains := { w.chains with
        pendingLoads := [], sharedDefs := {}, sharedUses := {} } }
      { w' with chains := { w.chains with
        pendingLoads := [], sharedDefs := {}, sharedUses := {} } } := ⟨rfl, h.draft⟩
  rw [← h.chains]
  refine (hD.checkRejected hhidden (hreview.of_rejected rfl)).bind fun w₁ w₁' h₁ => ?_
  refine (hD.chainTo h₁).bind fun ⟨apart, w₂⟩ ⟨_, w₂'⟩ ⟨hapart, h₂, _⟩ => ?_
  obtain rfl : apart = _ := hapart
  exact .pure ⟨by dsimp only; rw [h₂.chains], h₂.draft⟩

theorem addStore (hD : MemoryLockstep D m m') (h : w.Beside D w')
    (hreview : SameReview m m' w.chains) :
    Alike (MemoryWalk.Beside D) (w.addStore m su i) (w'.addStore m' su i) := by
  have hlast : ∀ v v' : MemoryWalk, v.Beside D v' → Alike (MemoryWalk.Beside D)
      (do
        let v ← v.orderAgainstBarrier su
        let draft ← v.draft.withDep .exit (.artificial su)
        return { v with draft })
      (do
        let v ← v'.orderAgainstBarrier su
        let draft ← v.draft.withDep .exit (.artificial su)
        return { v with draft }) := fun v v' hv =>
    (hD.orderAgainstBarrier hv).bind fun u u' hu =>
      (hD.withDep hu.draft _ _).bind fun e e' he => .pure ⟨hu.chains, he⟩
  unfold MemoryWalk.addStore
  cases i.underlyingObject with
  | some o => exact (hD.addObjectStore h hreview).bind hlast
  | none => exact (hD.addUnknownStore h hreview).bind hlast

theorem addLoad (hD : MemoryLockstep D m m') (h : w.Beside D w')
    (hreview : SameReview m m' w.chains) :
    Alike (MemoryWalk.Beside D) (w.addLoad m su i) (w'.addLoad m' su i) := by
  have hlast : ∀ v v' : MemoryWalk, v.Beside D v' → v.chains.rejected = w.chains.rejected →
      Alike (MemoryWalk.Beside D)
        (do
          let v ← v.checkRejected m su i
          v.orderAgainstBarrier su)
        (do
          let v ← v'.checkRejected m' su i
          v.orderAgainstBarrier su) := fun v v' hv hrejected =>
    (hD.checkRejected hv (hreview.of_rejected hrejected)).bind fun u u' hu =>
      hD.orderAgainstBarrier hu
  unfold MemoryWalk.addLoad
  rw [← h.chains]
  cases i.underlyingObject with
  | some o =>
    exact (hD.chainTo h).bind fun p p' hp =>
      hlast _ _ ⟨rfl, hp.2.1.draft⟩ (MemoryChains.addUse_rest w.chains o su).2.2.2
  | none => exact (hD.chainTo h).bind fun p p' hp => hlast _ _ ⟨rfl, hp.2.1.draft⟩ rfl

/-- The same accesses become known on both sides, and the drafts stay related. -/
theorem add (hD : MemoryLockstep D m m') (h : w.Beside D w') (hreview : SameReview m m' w.chains) :
    Alike (MemoryWalk.Beside D) (w.add m su i) (w'.add m' su i) := by
  unfold MemoryWalk.add
  split
  · exact hD.addGlobal h
  split
  · exact hD.addStore h hreview
  split
  · exact hD.addLoad h hreview
  · exact .ok h

end MemoryLockstep

end Precedence
