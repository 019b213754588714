import Mathlib.Data.List.Nodup
import Precedence.Proofs.Flow.Finish
import Precedence.Proofs.Flow.Passes
import Precedence.Proofs.Flow.Ways

/-!
Dominators. The passes over the reachable blocks come to an end, and what they have found then is
dominance: one block dominates another just when every way from the entry to the other passes
through it.
-/
namespace Precedence

namespace FlowGraph

variable {g : FlowGraph} {a b c : BlockId} {i j k p : Nat}

/-- Control may go from the block at one position to that at another. -/
def ArcAt (g : FlowGraph) (p i : Nat) : Prop :=
  ∃ a b, g.reversePostOrder[p]? = some a ∧ g.reversePostOrder[i]? = some b ∧ g.Arc a b

theorem Searched.position?_eq_some (hs : g.Searched) :
    g.reachable.position? b = some i ↔ g.reversePostOrder[i]? = some b := by
  have hkeys : (g.reversePostOrder.zipIdx.map Prod.fst).Nodup := by
    rw [List.zipIdx_map_fst]
    exact hs.nodup
  rw [Reachable.position?, reachable, positions,
    Table.get?_foldl_insert (BlockId.nodup_numbers hkeys)]
  simp only [BlockId.number_inj, Prod.exists, List.mem_zipIdx_iff_getElem?,
    Std.TreeMap.get?_eq_getElem?, Std.TreeMap.getElem?_emptyc, reduceCtorEq, and_false, or_false]
  constructor
  · rintro ⟨b, i, h, rfl, rfl⟩
    exact h
  · intro h
    exact ⟨b, i, h, rfl, rfl⟩

theorem Searched.eq_of_getElem? (hs : g.Searched) (hi : g.reversePostOrder[i]? = some b)
    (hj : g.reversePostOrder[j]? = some b) : i = j :=
  Option.some.inj ((hs.position?_eq_some.mpr hi).symm.trans (hs.position?_eq_some.mpr hj))

theorem Searched.exists_position (hs : g.Searched) (hb : g.Reaches b) :
    ∃ i : Nat, g.reversePostOrder[i]? = some b :=
  List.mem_iff_getElem?.mp ((hs.mem_iff b).mpr hb)

theorem Searched.getElem?_zero (hs : g.Searched) : g.reversePostOrder[0]? = some g.entry := by
  rw [← List.head?_eq_getElem?, hs.head]

theorem arcAt_iff (hi : g.reversePostOrder[i]? = some b) :
    g.ArcAt p i ↔ ∃ a, g.Arc a b ∧ g.reversePostOrder[p]? = some a := by
  constructor
  · rintro ⟨a, b', ha, hb', harc⟩
    obtain rfl := Option.some.inj (hi.symm.trans hb')
    exact ⟨a, harc, ha⟩
  · rintro ⟨a, harc, ha⟩
    exact ⟨a, b, ha, hi, harc⟩

/-- The search was led to every block but the entry from one in front of it. -/
theorem Searched.exists_arcAt_lt (hs : g.Searched) (hpos : 0 < i)
    (hi : i < g.reversePostOrder.length) : ∃ p, g.ArcAt p i ∧ p < i := by
  have hib := List.getElem?_eq_getElem hi
  set b := g.reversePostOrder[i]
  have hne : b ≠ g.entry := fun heq =>
    hpos.ne (hs.eq_of_getElem? hs.getElem?_zero (heq ▸ hib))
  obtain ⟨a, harc, hsub⟩ := (hs.led b ((hs.mem_iff b).mp (List.getElem_mem hi))).resolve_left hne
  have hall : g.reversePostOrder.Pairwise fun x y => ∃ p q : Nat, p < q ∧
      g.reversePostOrder[p]? = some x ∧ g.reversePostOrder[q]? = some y :=
    List.pairwise_iff_getElem.mpr fun p q hp hq hpq =>
      ⟨p, q, hpq, List.getElem?_eq_getElem hp, List.getElem?_eq_getElem hq⟩
  obtain ⟨p, q, hpq, hpa, hqb⟩ := List.pairwise_iff_forall_sublist.mp hall hsub
  obtain rfl := hs.eq_of_getElem? hqb hib
  exact ⟨p, (arcAt_iff hib).mpr ⟨a, harc, hpa⟩, hpq⟩

theorem Searched.map_fst_rowsOfPreds (hs : g.Searched) :
    g.rowsOfPreds.map Prod.fst = List.range' 1 (g.reversePostOrder.length - 1) := by
  obtain ⟨rest, horder⟩ : ∃ rest, g.reversePostOrder = g.entry :: rest :=
    List.head?_eq_some_iff.mp hs.head
  have hrest : g.entry ∉ rest := (List.nodup_cons.mp (horder ▸ hs.nodup)).1
  have hfilter : (g.reversePostOrder.zipIdx.filter fun e => e.1 != g.entry) = rest.zipIdx 1 := by
    rw [horder, List.zipIdx_cons, List.filter_cons_of_neg (by simp), List.filter_eq_self]
    intro e he
    have hmem : e.1 ∈ rest := List.fst_mem_of_mem_zipIdx he
    simpa using fun heq : e.1 = g.entry => hrest (heq ▸ hmem)
  rw [rowsOfPreds, hfilter, List.map_map, horder]
  exact List.zipIdx_map_snd 1 rest

theorem Searched.mem_row (hs : g.Searched) {row : Nat × List Nat} (hrow : row ∈ g.rowsOfPreds) :
    p ∈ row.2 ↔ g.ArcAt p row.1 := by
  simp only [rowsOfPreds, List.mem_map, List.mem_filter, Prod.exists] at hrow
  obtain ⟨b, i, ⟨hib, -⟩, rfl⟩ := hrow
  rw [List.mem_zipIdx_iff_getElem?] at hib
  simp only [List.mem_filterMap, mem_predTable, arcAt_iff hib]
  refine exists_congr fun a => and_congr_right fun _ => ?_
  exact hs.position?_eq_some

/-- The rows that the passes go over give the predecessors of all reachable blocks but the entry. -/
theorem Searched.layout (hs : g.Searched) : Layout g.ArcAt g.postOrder.length g.rowsOfPreds := by
  have hlength : g.postOrder.length = g.reversePostOrder.length := by simp [reversePostOrder]
  rw [hlength]
  exact {
    positive := (List.getElem?_eq_some_iff.mp hs.getElem?_zero).1
    inside := by
      rintro p i ⟨a, -, ha, -⟩
      exact (List.getElem?_eq_some_iff.mp ha).1
    ascending := fun i hpos hi => hs.exists_arcAt_lt hpos hi
    positions := hs.map_fst_rowsOfPreds
    mem_iff := fun row hrow p => hs.mem_row hrow }

/-- Ways between blocks and between their positions avoid the same. -/
theorem Searched.bypass_iff (hs : g.Searched) (hi : g.reversePostOrder[i]? = some b)
    (hk : g.reversePostOrder[k]? = some a) :
    Bypass g.ArcAt k i ↔ Avoids g.Arc a g.entry b := by
  have hentry := hs.getElem?_zero
  rw [Avoids.iff_reflTransGen]
  refine and_congr ⟨?_, ?_⟩ ⟨fun hway => ?_, fun hway => ?_⟩
  · rintro hne rfl
    exact hne (hs.eq_of_getElem? hk hentry)
  · rintro hne rfl
    exact hne (Option.some.inj (hentry.symm.trans hk))
  · induction hway generalizing b with
    | refl => exact Option.some.inj (hentry.symm.trans hi) ▸ .refl
    | tail _ hstep ih =>
      obtain ⟨x, y, hx, hy, harc⟩ := hstep.1
      obtain rfl := Option.some.inj (hi.symm.trans hy)
      refine (ih hx).tail ⟨harc, ?_⟩
      rintro rfl
      exact hstep.2 (hs.eq_of_getElem? hy hk)
  · induction hway generalizing i with
    | refl => exact hs.eq_of_getElem? hentry hi ▸ .refl
    | @tail x y hway hstep ih =>
      have hx : g.Reaches x := Relation.ReflTransGen.mono (fun _ _ h => h.1) _ _ hway
      obtain ⟨p, hp⟩ := hs.exists_position hx
      refine (ih hp).tail ⟨⟨x, y, hp, hi, hstep.1⟩, ?_⟩
      rintro rfl
      exact hstep.2 (Option.some.inj (hi.symm.trans hk))

/-- On the line of a block stand the blocks that no way to it avoids. -/
theorem Searched.mem_line_iff (hs : g.Searched) (hi : g.reversePostOrder[i]? = some b)
    (hk : g.reversePostOrder[k]? = some a) :
    k ∈ g.links.line i ↔ ¬Avoids g.Arc a g.entry b := by
  have hlt : i < g.postOrder.length := by
    have := (List.getElem?_eq_some_iff.mp hi).1
    simpa [reversePostOrder] using this
  rw [← hs.bypass_iff hi hk]
  exact (Links.mem_line_settle hs.layout).2 i hlt k

/-- The passes end when one of them changes nothing. -/
theorem Searched.pass_links (hs : g.Searched) : g.links.pass g.rowsOfPreds = g.links :=
  (Links.mem_line_settle hs.layout).1

theorem Searched.dominates_iff (hs : g.Searched) (hb : g.Reaches b) :
    g.dominates a b ↔ ¬Avoids g.Arc a g.entry b := by
  obtain ⟨i, hi⟩ := hs.exists_position hb
  rw [dominates, Reachable.dominates, hs.position?_eq_some.mpr hi, Bool.or_eq_true, beq_iff_eq]
  by_cases ha : g.Reaches a
  · obtain ⟨k, hk⟩ := hs.exists_position ha
    rw [hs.position?_eq_some.mpr hk, ← hs.mem_line_iff hi hk]
    simp only [reachable, Links.climbs_iff]
    constructor
    · rintro (rfl | ⟨hmem, -⟩)
      · exact hs.eq_of_getElem? hk hi ▸ Links.self_mem_line
      · exact hmem
    · intro hmem
      by_cases hki : k = i
      · subst hki
        exact .inl (Option.some.inj (hk.symm.trans hi))
      · exact .inr ⟨hmem, hki⟩
  · have hnone : g.reachable.position? a = none := by
      refine Option.eq_none_iff_forall_ne_some.mpr fun k hk => ha ?_
      exact (hs.mem_iff a).mp (List.mem_of_getElem? (hs.position?_eq_some.mp hk))
    rw [hnone]
    have hway : Avoids g.Arc a g.entry b := .of_not_reaches hb ha
    simpa [hway] using fun heq : a = b => ha (heq ▸ hb)

/-- A reached block but the entry is linked to the block nearest above it. -/
theorem Searched.idom?_eq_some (hs : g.Searched) :
    g.reachable.idom? b = some a ↔ ∃ i j, g.reversePostOrder[i]? = some b ∧
      g.links.up? i = some j ∧ g.reversePostOrder[j]? = some a := by
  simp only [Reachable.idom?, Option.bind_eq_some_iff, hs.position?_eq_some, exists_and_left]
  rfl

theorem Searched.idom?_entry (hs : g.Searched) : g.reachable.idom? g.entry = none := by
  refine Option.eq_none_iff_forall_ne_some.mpr fun a ha => ?_
  obtain ⟨i, j, hi, hj, -⟩ := hs.idom?_eq_some.mp ha
  obtain rfl := hs.eq_of_getElem? hi hs.getElem?_zero
  exact absurd (g.links.earlier 0 j hj) (Nat.not_lt_zero j)

theorem Searched.idom?_unreached (hs : g.Searched) (hb : ¬g.Reaches b) :
    g.reachable.idom? b = none := by
  refine Option.eq_none_iff_forall_ne_some.mpr fun a ha => hb ?_
  obtain ⟨i, -, hi, -⟩ := hs.idom?_eq_some.mp ha
  exact (hs.mem_iff b).mp (List.mem_of_getElem? hi)

theorem Searched.exists_idom? (hs : g.Searched) (hb : g.Reaches b) (hne : b ≠ g.entry) :
    ∃ a, g.reachable.idom? b = some a := by
  obtain ⟨i, hi⟩ := hs.exists_position hb
  -- no way from the entry avoids it, so the entry is above every block
  have hentry : 0 ∈ g.links.line i :=
    (hs.mem_line_iff hi hs.getElem?_zero).mpr fun havoid => havoid.left_ne rfl
  have hpos : 0 ≠ i := by
    rintro rfl
    exact hne (Option.some.inj (hi.symm.trans hs.getElem?_zero))
  obtain ⟨j, hj, -⟩ := (Links.mem_line.mp hentry).resolve_left hpos
  have hlt := (g.links.earlier i j hj).trans (List.getElem?_eq_some_iff.mp hi).1
  exact ⟨_, hs.idom?_eq_some.mpr ⟨i, j, hi, hj, List.getElem?_eq_getElem hlt⟩⟩

/-- Above a block stand its immediate dominator and all that is above that. -/
theorem Searched.not_avoids_iff_of_idom? (hs : g.Searched) (ha : g.reachable.idom? b = some a)
    (hne : c ≠ b) : ¬Avoids g.Arc c g.entry b ↔ ¬Avoids g.Arc c g.entry a := by
  obtain ⟨i, j, hi, hj, hja⟩ := hs.idom?_eq_some.mp ha
  by_cases hc : g.Reaches c
  · obtain ⟨k, hk⟩ := hs.exists_position hc
    have hki : k ≠ i := by
      rintro rfl
      exact hne (Option.some.inj (hk.symm.trans hi))
    rw [← hs.mem_line_iff hi hk, ← hs.mem_line_iff hja hk, Links.mem_line]
    simp [hki, hj]
  · have hb : Avoids g.Arc c g.entry b :=
      .of_not_reaches ((hs.mem_iff b).mp (List.mem_of_getElem? hi)) hc
    have ha : Avoids g.Arc c g.entry a :=
      .of_not_reaches ((hs.mem_iff a).mp (List.mem_of_getElem? hja)) hc
    simp [hb, ha]

theorem Searched.ne_of_idom? (hs : g.Searched) (ha : g.reachable.idom? b = some a) : a ≠ b := by
  rintro rfl
  obtain ⟨i, j, hi, hj, hja⟩ := hs.idom?_eq_some.mp ha
  exact (g.links.earlier i j hj).ne (hs.eq_of_getElem? hja hi)

end FlowGraph

/-- The search from the entry has been made in a graph whose arcs are the edges of a function. -/
structure Function.HasFlow (f : Function) (g : FlowGraph) : Prop where
  hasEntry : f.hasBlock f.entry
  searched : g.Searched
  entry : g.entry = f.entry
  blocks : g.blocks = f.blocks.map Block.id
  arc : g.Arc = f.Edge

namespace Function

variable {f : Function} {g : FlowGraph} {a b c : BlockId}

theorem exists_hasFlow (hnames : (f.blocks.map Block.id).Nodup) (hentry : f.hasBlock f.entry) :
    ∃ g, FlowGraph.ofFunction f = .ok g ∧ f.HasFlow g := by
  obtain ⟨g, hg, hent, hblocks, harc, -⟩ := FlowGraph.ofFunction_ok hnames hentry
  refine ⟨g, hg, hentry, FlowGraph.searched_of_ofFunction hnames hentry hg, hent, hblocks, ?_⟩
  funext a b
  exact propext (harc a b)

namespace HasFlow

theorem names (h : f.HasFlow g) : (f.blocks.map Block.id).Nodup := h.blocks ▸ h.searched.names

theorem reaches_iff (h : f.HasFlow g) : g.Reaches b ↔ f.Reaches b := by
  rw [Function.reaches_iff, FlowGraph.Reaches, h.arc, h.entry]

theorem mem_postOrder (h : f.HasFlow g) : b ∈ g.postOrder ↔ f.Reaches b := by
  rw [← h.reaches_iff, ← h.searched.mem_iff, FlowGraph.reversePostOrder, List.mem_reverse]

theorem mem_succs (h : f.HasFlow g) : b ∈ g.succTable.listAt a.number ↔ f.Edge a b := by
  rw [FlowGraph.mem_succTable h.searched.names, h.arc]

theorem not_avoids_iff (h : f.HasFlow g) : ¬Avoids g.Arc a g.entry b ↔ f.Dominates a b := by
  rw [dominates_iff_not_avoids, h.arc, h.entry]

theorem dominates_iff (h : f.HasFlow g) (hb : f.Reaches b) :
    g.dominates a b ↔ f.Dominates a b := by
  rw [h.searched.dominates_iff (h.reaches_iff.mpr hb), h.not_avoids_iff]

/-- The graph knows of no dominators of a block that is not reached, but for the block itself. -/
theorem eq_or_reaches_of_dominates (h : f.HasFlow g) (hab : g.dominates a b) :
    a = b ∨ f.Reaches b := by
  rw [or_iff_not_imp_right]
  intro hb
  have hnone : g.reachable.position? b = none := by
    rw [← Option.not_isSome_iff_eq_none, FlowGraph.isSome_position?, h.mem_postOrder]
    exact hb
  rw [FlowGraph.dominates, Reachable.dominates, hnone] at hab
  simpa using hab

/-- Two blocks dominate each other only if they are the same. -/
theorem antisymm (h : f.HasFlow g) (ha : f.Reaches a) (hab : f.Dominates a b)
    (hba : f.Dominates b a) : a = b := by
  obtain ⟨i, hi⟩ := h.searched.exists_position (h.reaches_iff.mpr ha)
  obtain ⟨j, hj⟩ := h.searched.exists_position (h.reaches_iff.mpr (hba.reaches ha))
  rw [← h.not_avoids_iff, ← h.searched.mem_line_iff hj hi] at hab
  rw [← h.not_avoids_iff, ← h.searched.mem_line_iff hi hj] at hba
  have hij := (Links.le_of_mem_line hab).antisymm (Links.le_of_mem_line hba)
  exact Option.some.inj (hi.symm.trans (hij ▸ hj))

/-- Two blocks that dominate a third are one above the other. -/
theorem total (h : f.HasFlow g) (hc : f.Reaches c) (hac : f.Dominates a c)
    (hbc : f.Dominates b c) : f.Dominates a b ∨ f.Dominates b a := by
  obtain ⟨i, hi⟩ := h.searched.exists_position (h.reaches_iff.mpr (hac.reaches hc))
  obtain ⟨j, hj⟩ := h.searched.exists_position (h.reaches_iff.mpr (hbc.reaches hc))
  obtain ⟨k, hk⟩ := h.searched.exists_position (h.reaches_iff.mpr hc)
  rw [← h.not_avoids_iff, ← h.searched.mem_line_iff hk hi] at hac
  rw [← h.not_avoids_iff, ← h.searched.mem_line_iff hk hj] at hbc
  rw [← h.not_avoids_iff, ← h.not_avoids_iff, ← h.searched.mem_line_iff hj hi,
    ← h.searched.mem_line_iff hi hj]
  exact (Nat.le_total i j).imp (Links.mem_line_of_le hac hbc) (Links.mem_line_of_le hbc hac)

/-- What lies below a block can be reached from it without going back above it. -/
theorem avoids_of_dominates (h : f.HasFlow g) (hab : f.StrictlyDominates a b)
    (hbc : f.Dominates b c) (hc : f.Reaches c) : Avoids f.Edge a b c := by
  have hb : f.Reaches b := hbc.reaches hc
  have hentry : Avoids f.Edge b f.entry a := by
    by_contra hba
    exact hab.2 (h.antisymm (hab.1.reaches hb) hab.1 (dominates_iff_not_avoids.mpr hba))
  -- along a way, either `b` has not been met or the rest since then avoids `a`: at `a` itself,
  -- the way so far may be exchanged for one that does not meet `b`
  have hway : ∀ x, f.Reaches x → Avoids f.Edge b f.entry x ∨ Avoids f.Edge a b x := by
    intro x hx
    rw [Function.reaches_iff] at hx
    induction hx with
    | refl =>
      by_cases heq : f.entry = b
      · subst heq
        exact .inr (.refl hab.2.symm)
      · exact .inl (.refl heq)
    | @tail x y _ hxy ih =>
      by_cases hyb : y = b
      · subst hyb
        exact .inr (.refl hab.2.symm)
      by_cases hya : y = a
      · exact .inl (hya ▸ hentry)
      exact ih.imp (fun hx => hx.tail hxy hyb) (fun hx => hx.tail hxy hya)
  exact (hway c hc).resolve_left (dominates_iff_not_avoids.mp hbc)

/-- The immediate dominator that the passes find is the only one. -/
theorem immediatelyDominates_iff (h : f.HasFlow g) (ha : g.reachable.idom? b = some a) :
    f.ImmediatelyDominates c b ↔ c = a := by
  have hstrict : ∀ c, f.StrictlyDominates c b ↔ f.Dominates c a ∧ c ≠ b := by
    intro c
    refine and_congr_left fun hne => ?_
    rw [← h.not_avoids_iff, ← h.not_avoids_iff, h.searched.not_avoids_iff_of_idom? ha hne]
  have hab : f.StrictlyDominates a b :=
    (hstrict a).mpr ⟨dominates_self, h.searched.ne_of_idom? ha⟩
  have hreach : f.Reaches b := by
    by_contra hb
    rw [h.searched.idom?_unreached (mt h.reaches_iff.mp hb)] at ha
    cases ha
  constructor
  · rintro ⟨hcb, hleast⟩
    by_contra hne
    have hca := ((hstrict c).mp hcb).1
    exact hne (h.antisymm (hcb.1.reaches hreach) hca (hleast a hab (Ne.symm hne)))
  · rintro rfl
    exact ⟨hab, fun d hd _ => ((hstrict d).mp hd).1⟩

end HasFlow

end Function

end Precedence
