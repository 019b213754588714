import Precedence.Proofs.Flow.Dominance

/-!
The dominator tree. Its parents are the immediate dominators, so climbing it from a block meets all
blocks that every way from the entry to the block passes through, and no others.
-/
namespace Precedence

namespace DomTree

variable {g : FlowGraph} {t : DomTree} {a b : BlockId} {height i : Nat}

/-- The reachable blocks with their immediate dominators. -/
def pairs (g : FlowGraph) : List (BlockId × BlockId) :=
  g.reversePostOrder.filterMap fun b => (g.reachable.idom? b).map fun a => (b, a)

theorem parents_ofGraph : (ofGraph g).parents =
    (pairs g).foldl (fun t e => t.insert e.1.number e.2) {} := by
  rw [pairs, List.foldl_filterMap]
  refine congrArg (fun f => List.foldl f _ _) ?_
  funext t b
  cases g.reachable.idom? b <;> rfl

theorem mem_pairs (hs : g.Searched) : (b, a) ∈ pairs g ↔ g.reachable.idom? b = some a := by
  simp only [pairs, List.mem_filterMap, Option.map_eq_some_iff, Prod.mk.injEq]
  constructor
  · rintro ⟨b, -, a, ha, rfl, rfl⟩
    exact ha
  · intro ha
    obtain ⟨i, -, hi, -⟩ := hs.idom?_eq_some.mp ha
    exact ⟨b, List.mem_of_getElem? hi, a, ha, rfl, rfl⟩

theorem nodup_pairs (hs : g.Searched) : ((pairs g).map fun e => e.1.number).Nodup := by
  rw [pairs, List.map_filterMap]
  refine hs.nodup.filterMap fun b b' n hn hn' => BlockId.number_inj.mp ?_
  simp only [Option.map_map, Option.mem_def, Option.map_eq_some_iff] at hn hn'
  obtain ⟨_, _, hn⟩ := hn
  obtain ⟨_, _, hn'⟩ := hn'
  exact hn.trans hn'.symm

/-- The parents in the tree are the immediate dominators. -/
theorem parent?_ofGraph (hs : g.Searched) : (ofGraph g).parent? b = g.reachable.idom? b := by
  refine Option.ext fun a => ?_
  rw [parent?, parents_ofGraph, Table.get?_foldl_insert (nodup_pairs hs), ← mem_pairs hs]
  simp [BlockId.number_inj]

/-- With enough height, climbing from a block meets the blocks on its line. -/
theorem climbs_ofGraph (hs : g.Searched) (hi : g.reversePostOrder[i]? = some b)
    (hheight : i ≤ height) :
    (ofGraph g).climbs a height b ↔ ∃ k ∈ g.links.line i, g.reversePostOrder[k]? = some a := by
  have hself : (∃ k, k = i ∧ g.reversePostOrder[k]? = some a) ↔ a = b := by
    rw [exists_eq_left, hi, Option.some.injEq, eq_comm]
  induction height generalizing b i with
  | zero =>
    obtain rfl : i = 0 := Nat.le_zero.mp hheight
    rw [climbs, beq_iff_eq, ← hself]
    simp only [Links.line_zero, List.mem_singleton]
  | succ height ih =>
    rw [climbs, parent?_ofGraph hs, Bool.or_eq_true, beq_iff_eq, ← hself]
    cases hb : g.reachable.idom? b with
    | none =>
      -- without a link above it, a reached block is the entry
      obtain rfl : b = g.entry := by
        by_contra hne
        obtain ⟨a, ha⟩ := hs.exists_idom? ((hs.mem_iff b).mp (List.mem_of_getElem? hi)) hne
        rw [hb] at ha
        cases ha
      obtain rfl := hs.eq_of_getElem? hi hs.getElem?_zero
      simp [Links.line_zero]
    | some up =>
      obtain ⟨i', j, hi', hj, hup⟩ := hs.idom?_eq_some.mp hb
      obtain rfl := hs.eq_of_getElem? hi hi'
      have hlt := g.links.earlier i j hj
      have hline : ∀ k, k ∈ g.links.line i ↔ k = i ∨ k ∈ g.links.line j := by
        intro k
        rw [Links.mem_line, hj]
        simp
      have hself' : (∃ k, k = j ∧ g.reversePostOrder[k]? = some a) ↔ a = up := by
        rw [exists_eq_left, hup, Option.some.injEq, eq_comm]
      simp only [ih hup (by omega) hself', hline, or_and_right, exists_or]

/-- No block stands higher in the tree than it has parents. -/
theorem le_size_parents (hs : g.Searched) (hi : g.reversePostOrder[i]? = some b) :
    i ≤ (ofGraph g).parents.size := by
  obtain ⟨rest, horder⟩ : ∃ rest, g.reversePostOrder = g.entry :: rest :=
    List.head?_eq_some_iff.mp hs.head
  have hnodup : (g.entry :: rest).Nodup := horder ▸ hs.nodup
  have hkeys : ∀ n ∈ rest.map BlockId.number, n ∈ (ofGraph g).parents.keys := by
    intro n hn
    obtain ⟨c, hc, rfl⟩ := List.mem_map.mp hn
    have hreach : g.Reaches c := (hs.mem_iff c).mp (horder ▸ List.mem_cons_of_mem _ hc)
    obtain ⟨a, ha⟩ := hs.exists_idom? hreach fun heq =>
      (List.nodup_cons.mp hnodup).1 (heq ▸ hc)
    rw [← parent?_ofGraph hs, parent?, Std.TreeMap.get?_eq_getElem?] at ha
    rw [Std.TreeMap.mem_keys, Std.TreeMap.mem_iff_isSome_getElem?, ha, Option.isSome_some]
  have hrest : (rest.map BlockId.number).Nodup :=
    (List.nodup_cons.mp hnodup).2.map fun a b h => BlockId.number_inj.mp h
  have hlength := (hrest.subperm hkeys).length_le
  have hlt := (List.getElem?_eq_some_iff.mp hi).1
  rw [List.length_map, Std.TreeMap.length_keys] at hlength
  rw [horder, List.length_cons] at hlt
  omega

theorem dominates_ofGraph (hs : g.Searched) (hb : g.Reaches b) :
    (ofGraph g).dominates a b ↔ ¬Avoids g.Arc a g.entry b := by
  obtain ⟨i, hi⟩ := hs.exists_position hb
  rw [dominates, climbs_ofGraph hs hi (le_size_parents hs hi)]
  constructor
  · rintro ⟨k, hline, hk⟩
    exact (hs.mem_line_iff hi hk).mp hline
  · intro havoid
    have ha : g.Reaches a := by
      by_contra ha
      exact havoid (.of_not_reaches hb ha)
    obtain ⟨k, hk⟩ := hs.exists_position ha
    exact ⟨k, (hs.mem_line_iff hi hk).mpr havoid, hk⟩

end DomTree

namespace Function

variable {f : Function}

/-- The passes over the blocks of a function end when one of them changes nothing. What is found then
is dominance by ways: the graph and its tree both say that `a` dominates a reachable `b` just when
every way from the entry to `b` passes through `a`, and name the only immediate dominator there is.
Neither the entry nor a block that is not reached has one. -/
theorem dominators_exact (hnames : (f.blocks.map Block.id).Nodup) (hentry : f.hasBlock f.entry) :
    ∃ g, FlowGraph.ofFunction f = .ok g ∧ g.links.pass g.rowsOfPreds = g.links ∧
      (∀ a b, f.Reaches b → (g.dominates a b ↔ f.Dominates a b) ∧
        ((DomTree.ofGraph g).dominates a b ↔ f.Dominates a b)) ∧
      (∀ b, f.Reaches b → b ≠ f.entry → ∃ d, g.reachable.idom? b = some d ∧
        (DomTree.ofGraph g).parent? b = some d ∧ ∀ c, f.ImmediatelyDominates c b ↔ c = d) ∧
      ∀ b, b = f.entry ∨ ¬f.Reaches b →
        g.reachable.idom? b = none ∧ (DomTree.ofGraph g).parent? b = none := by
  obtain ⟨g, hg, hflow⟩ := exists_hasFlow hnames hentry
  have hs := hflow.searched
  refine ⟨g, hg, hs.pass_links, fun a b hb => ⟨hflow.dominates_iff hb, ?_⟩,
    fun b hb hne => ?_, fun b hb => ?_⟩
  · rw [DomTree.dominates_ofGraph hs (hflow.reaches_iff.mpr hb), hflow.not_avoids_iff]
  · obtain ⟨d, hd⟩ := hs.exists_idom? (hflow.reaches_iff.mpr hb) (hflow.entry ▸ hne)
    exact ⟨d, hd, (DomTree.parent?_ofGraph hs).trans hd,
      fun c => hflow.immediatelyDominates_iff hd⟩
  · have hnone : g.reachable.idom? b = none := by
      rcases hb with rfl | hb
      · exact hflow.entry ▸ hs.idom?_entry
      · exact hs.idom?_unreached (mt hflow.reaches_iff.mp hb)
    exact ⟨hnone, (DomTree.parent?_ofGraph hs).trans hnone⟩

/-- Two blocks that lead to each other and are both entered from outside, of which one leads on,
twice, to a block with edges back to the entry and to no block at all; a last block is not reached. -/
theorem dominators_of_irreducible :
    let f : Function := { blocks := [{ id := ⟨0⟩, successors := [⟨1⟩, ⟨2⟩] },
      { id := ⟨1⟩, successors := [⟨2⟩, ⟨3⟩, ⟨3⟩] }, { id := ⟨2⟩, successors := [⟨1⟩] },
      { id := ⟨3⟩, successors := [⟨0⟩, ⟨9⟩] }, { id := ⟨4⟩, successors := [⟨2⟩, ⟨4⟩] }] }
    ∃ g, FlowGraph.ofFunction f = .ok g ∧ g.dominates ⟨1⟩ ⟨3⟩ ∧
      ¬(DomTree.ofGraph g).dominates ⟨2⟩ ⟨3⟩ ∧ g.reachable.idom? ⟨3⟩ = some ⟨1⟩ ∧
      g.reachable.idom? ⟨0⟩ = none := by
  intro f
  obtain ⟨g, hg, -, hdom, hidom, hnone⟩ := dominators_exact (f := f) (by decide) (by decide)
  have hlast : f.Edge ⟨1⟩ ⟨3⟩ := ⟨f.blocks[1], by decide, rfl, by decide, by decide⟩
  have hthree : Way f.Edge ⟨0⟩ ⟨3⟩ [⟨0⟩, ⟨1⟩, ⟨3⟩] :=
    .go ⟨f.blocks[0], by decide, rfl, by decide, by decide⟩ (.go hlast (.stay _))
  -- the last block is entered from one block only
  have hpred : ∀ block ∈ f.blocks, ⟨3⟩ ∈ block.successors → block.id = ⟨1⟩ := by decide
  have hone : f.Dominates ⟨1⟩ ⟨3⟩ := by
    refine dominates_iff_not_avoids.mpr fun havoid => ?_
    rcases havoid.eq_or_last with heq | ⟨a, ha, block, hblock, rfl, hsucc, -⟩
    · cases heq
    · exact ha.right_ne (hpred block hblock hsucc)
  have htwo : ¬f.Dominates ⟨2⟩ ⟨3⟩ := fun h => absurd (h _ hthree) (by decide)
  obtain ⟨d, hd, -, hunique⟩ := hidom ⟨3⟩ ⟨_, hthree⟩ (by decide)
  have hid : f.ImmediatelyDominates ⟨1⟩ ⟨3⟩ := by
    refine ⟨⟨hone, by decide⟩, fun c hc _ way hway => ?_⟩
    exact (List.mem_append.mp (hc.1 _ (hway.snoc hlast))).resolve_right fun hmem =>
      hc.2 (List.mem_singleton.mp hmem)
  exact ⟨g, hg, (hdom _ _ ⟨_, hthree⟩).1.mpr hone, mt (hdom _ _ ⟨_, hthree⟩).2.mp htwo,
    (hunique _).mp hid ▸ hd, (hnone _ (.inl rfl)).1⟩

end Function

end Precedence
