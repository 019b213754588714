import Mathlib.Data.List.Nodup
import Mathlib.Data.List.Pairwise
import Precedence.Proofs.Flow.Reachable

/-!
The order in which a depth-first search finishes the blocks it meets. Read backwards it lists every
reachable block once, begins with the entry, and has some predecessor of every other block in front
of it.
-/
namespace Precedence

variable {next : BlockId → List BlockId} {fresh : BlockSet} {found : List BlockId}
  {root a b : BlockId}

/-- Blocks met by a search that starts at `root`, in an order in which each comes after a block that
led to it. -/
structure Discovered (next : BlockId → List BlockId) (root : BlockId) (fresh : BlockSet)
    (found : List BlockId) : Prop where
  head : found.head? = some root
  nodup : found.Nodup
  taken : ∀ b ∈ found, ¬fresh.contains b
  led : ∀ b ∈ found, b = root ∨ ∃ a, b ∈ next a ∧ [a, b].Sublist found

/-- A block that is met next may be put at any place behind the one that led to it. -/
theorem Discovered.insert {front back : List BlockId}
    (h : Discovered next root fresh (front ++ back)) (ha : a ∈ front) (hb : b ∈ next a)
    (hfresh : fresh.contains b) :
    Discovered next root (fresh.erase b) (front ++ b :: back) := by
  have hnew : b ∉ front ++ back := fun hmem => h.taken b hmem hfresh
  have hgrow : (front ++ back).Sublist (front ++ b :: back) :=
    (List.sublist_cons_self b back).append_left front
  have hperm : (front ++ b :: back).Perm (b :: (front ++ back)) := List.perm_middle
  refine ⟨?_, hperm.nodup_iff.mpr (List.nodup_cons.mpr ⟨hnew, h.nodup⟩), fun c hc => ?_,
    fun c hc => ?_⟩
  · obtain ⟨c, front', rfl⟩ := List.exists_cons_of_ne_nil (List.ne_nil_of_mem ha)
    exact h.head
  · rw [BlockSet.contains_erase, Bool.and_eq_true, not_and]
    intro hne
    have hc' : c ∈ front ++ back :=
      (List.mem_cons.mp (hperm.mem_iff.mp hc)).resolve_left (by simpa using hne)
    exact h.taken c hc'
  · rcases List.mem_cons.mp (hperm.mem_iff.mp hc) with rfl | hc'
    · refine .inr ⟨a, hb, ?_⟩
      exact (List.singleton_sublist.mpr ha).append (List.singleton_sublist.mpr List.mem_cons_self)
    · exact (h.led c hc').imp_right fun ⟨d, hcd, hsub⟩ => ⟨d, hcd, hsub.trans hgrow⟩

/-- Through the whole search, the open blocks from the bottom of the stack up, followed by the
finished ones, form such an order; a block that is finished keeps its place. -/
theorem discovered_finishOrder {stack : List (BlockId × List BlockId)} {done : List BlockId}
    (hstack : ∀ frame ∈ stack, ∀ s ∈ frame.2, s ∈ next frame.1)
    (h : Discovered next root fresh ((stack.map Prod.fst).reverse ++ done)) :
    ∃ rest, Discovered next root rest (finishOrder next stack fresh done).reverse := by
  fun_induction finishOrder next stack fresh done with
  | case1 fresh done => exact ⟨fresh, by simpa using h⟩
  | case2 c stack fresh done ih =>
    exact ih (fun frame hframe => hstack frame (List.mem_cons_of_mem _ hframe)) (by simpa using h)
  | case3 c s later stack fresh done hs ih =>
    have hsc : s ∈ next c := hstack _ List.mem_cons_self s List.mem_cons_self
    refine ih ?_ ?_
    · rintro frame hframe t ht
      rcases List.mem_cons.mp hframe with rfl | hframe
      · exact ht
      · rcases List.mem_cons.mp hframe with rfl | hframe
        · exact hstack _ List.mem_cons_self t (List.mem_cons_of_mem s ht)
        · exact hstack frame (List.mem_cons_of_mem _ hframe) t ht
    · have hc : c ∈ (((c, s :: later) :: stack).map Prod.fst).reverse := by simp
      simpa using h.insert hc hsc hs
  | case4 c s later stack fresh done hs ih =>
    refine ih ?_ (by simpa using h)
    rintro frame hframe t ht
    rcases List.mem_cons.mp hframe with rfl | hframe
    · exact hstack _ List.mem_cons_self t (List.mem_cons_of_mem s ht)
    · exact hstack frame (List.mem_cons_of_mem _ hframe) t ht

namespace FlowGraph

variable {g : FlowGraph}

/-- What a search from the entry makes of a graph: in reverse post-order the reachable blocks stand
once each, the entry first and every other block behind one of its predecessors. -/
structure Searched (g : FlowGraph) : Prop where
  names : g.blocks.Nodup
  mem_iff : ∀ b, b ∈ g.reversePostOrder ↔ g.Reaches b
  head : g.reversePostOrder.head? = some g.entry
  nodup : g.reversePostOrder.Nodup
  led : ∀ b, g.Reaches b → b = g.entry ∨ ∃ a, g.Arc a b ∧ [a, b].Sublist g.reversePostOrder

/-- The order of the reachable blocks comes from a search that begins at the entry, with no other block
discovered yet. -/
theorem postOrder_eq {f : Function} (hnames : (f.blocks.map Block.id).Nodup)
    (hentry : f.hasBlock f.entry) (hg : ofFunction f = .ok g) :
    g.postOrder = finishOrder (fun b => g.succTable.listAt b.number)
      [(g.entry, g.succTable.listAt g.entry.number)]
      ((BlockSet.ofList g.blocks).erase g.entry) [] := by
  unfold ofFunction at hg
  simp only at hg
  split at hg
  next hempty =>
    rw [List.isEmpty_iff, List.map_eq_nil_iff] at hempty
    simp [Function.hasBlock, hempty] at hentry
  next =>
    split at hg
    next => cases hg
    next succs hsuccs =>
      obtain rfl := Except.ok.inj hg
      obtain ⟨l₁, l₂, hrows, -⟩ := List.lookup_eq_some_iff.mp hsuccs
      have hrow : (f.entry, succs) ∈ f.blocks.map fun b => (b.id, b.successors.filter f.hasBlock) :=
        List.mem_reverse.mp (hrows ▸ by simp)
      rw [listAt_succTable (by simpa [blocks, Function.comp_def] using hnames) hrow]
      rfl

theorem searched_of_ofFunction {f : Function} (hnames : (f.blocks.map Block.id).Nodup)
    (hentry : f.hasBlock f.entry) (hg : ofFunction f = .ok g) : g.Searched := by
  obtain ⟨g', hg', hent, hblocks, harc, hpost⟩ := ofFunction_ok hnames hentry
  obtain rfl : g = g' := Except.ok.inj (hg.symm.trans hg')
  have hgnames : g.blocks.Nodup := hblocks ▸ hnames
  have hmem : ∀ b, b ∈ g.reversePostOrder ↔ g.Reaches b := by
    simpa [reversePostOrder] using hpost
  have hfound : ∃ rest, Discovered (fun a => g.succTable.listAt a.number) g.entry rest
      g.reversePostOrder := by
    rw [reversePostOrder, postOrder_eq hnames hentry hg]
    refine discovered_finishOrder (fun frame hframe s hs => ?_)
      ⟨rfl, List.nodup_singleton _, fun b hb => ?_, fun b hb => .inl (List.mem_singleton.mp hb)⟩
    · obtain rfl := List.mem_singleton.mp hframe
      exact hs
    · rw [List.mem_singleton.mp hb]
      simp [BlockSet.contains_erase]
  obtain ⟨rest, hfound⟩ := hfound
  refine ⟨hgnames, hmem, hfound.head, hfound.nodup, fun b hb => ?_⟩
  rcases hfound.led b ((hmem b).mpr hb) with rfl | ⟨a, hba, hsub⟩
  · exact .inl rfl
  · exact .inr ⟨a, (mem_succTable hgnames).mp hba, hsub⟩

end FlowGraph

end Precedence
