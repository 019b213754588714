import Precedence.Proofs.Flow.DomTree
import Precedence.Proofs.Flow.NaturalLoops

/-!
A loop in the order of the dominator tree. The immediate dominator of a block of a loop is a block
of the loop as well, unless the block is the header; so a walk down the tree from the header that
does not leave the loop meets all its reached blocks.
-/
namespace Precedence

variable {f : Function} {g : FlowGraph} {lp : Loop} {keep : BlockId → Bool} {depth : Nat}
  {a b c d : BlockId}

/-- One block comes before another on the way down the dominator tree: it stands above the other, or
they are below siblings, or are siblings, of which the function names the first one first. -/
def Function.Precedes (f : Function) (b c : BlockId) : Prop :=
  f.StrictlyDominates b c ∨ ∃ d x y, f.ImmediatelyDominates d x ∧ f.ImmediatelyDominates d y ∧
    [x, y].Sublist (f.blocks.map Block.id) ∧ f.Dominates x b ∧ f.Dominates y c

theorem not_sublist_swap {l : List BlockId} (hl : l.Nodup) (hab : [a, b].Sublist l) :
    ¬[b, a].Sublist l := by
  induction l with
  | nil => simp at hab
  | cons c l ih =>
    intro hba
    rw [List.nodup_cons] at hl
    rw [List.cons_sublist_cons'] at hab hba
    rcases hab with hab | ⟨rfl, hab⟩ <;> rcases hba with hba | ⟨rfl, hba⟩
    · exact ih hl.2 hab hba
    · exact hl.1 (hab.subset (by simp))
    · exact hl.1 (hba.subset (by simp))
    · exact hl.1 (List.singleton_sublist.mp hab)

namespace Function.HasFlow

/-- The parent of a reached block in the tree is its immediate dominator. -/
theorem parent?_eq_some_iff (h : f.HasFlow g) (hb : f.Reaches b) :
    (DomTree.ofGraph g).parent? b = some a ↔ f.ImmediatelyDominates a b := by
  rw [DomTree.parent?_ofGraph h.searched]
  refine ⟨fun ha => (h.immediatelyDominates_iff ha).mpr rfl, fun hab => ?_⟩
  have hne : b ≠ g.entry := h.entry ▸ hab.1.ne_entry
  obtain ⟨d, hd⟩ := h.searched.exists_idom? (h.reaches_iff.mpr hb) hne
  exact (h.immediatelyDominates_iff hd).mp hab ▸ hd

theorem mem_treeBlocks (h : f.HasFlow g) : b ∈ (DomTree.ofGraph g).blocks ↔ f.Reaches b := by
  rw [← List.contains_iff_mem]
  refine DomTree.contains_ofGraph.trans ?_
  rw [h.mem_postOrder, and_iff_right_iff_imp, h.blocks]
  exact fun hb => Function.hasBlock_iff.mp (hb.hasBlock h.hasEntry)

theorem mem_children (h : f.HasFlow g) :
    c ∈ (DomTree.ofGraph g).children b ↔ f.Reaches c ∧ f.ImmediatelyDominates b c := by
  rw [DomTree.children, List.mem_filter, h.mem_treeBlocks, beq_iff_eq]
  exact and_congr_right h.parent?_eq_some_iff

/-- A block is below one of several siblings at most. -/
theorem sibling_unique (h : f.HasFlow g) (ha : f.ImmediatelyDominates d a)
    (hb : f.ImmediatelyDominates d b) (hc : f.Reaches c) (hac : f.Dominates a c)
    (hbc : f.Dominates b c) : a = b := by
  have hone : ∀ x y, f.ImmediatelyDominates d x → f.ImmediatelyDominates d y → f.Reaches y →
      f.Dominates x y → x = y := by
    intro x y hx hy hreach hxy
    by_contra hne
    have hxd : f.Dominates x d := hy.2 x ⟨hxy, hne⟩ hx.1.2.symm
    exact hx.1.2 (h.antisymm (hy.1.1.reaches hreach) hx.1.1 hxd)
  rcases h.total hc hac hbc with hab | hba
  · exact hone a b ha hb (hbc.reaches hc) hab
  · exact (hone b a hb ha (hac.reaches hc) hba).symm

/-- Of two blocks above a third, where one stands above the other, its child towards the third stands
above the other, too. -/
theorem child_dominates (h : f.HasFlow g) (ha : f.ImmediatelyDominates d a) (hc : f.Reaches c)
    (hac : f.Dominates a c) (hbc : f.Dominates b c) (hdb : f.StrictlyDominates d b) :
    f.Dominates a b := by
  rcases h.total hc hac hbc with hab | hba
  · exact hab
  by_cases heq : b = a
  · exact heq ▸ Function.dominates_self
  have hbd : f.Dominates b d := ha.2 b ⟨hba, heq⟩ hdb.2.symm
  exact absurd (h.antisymm (hdb.1.reaches (hbc.reaches hc)) hdb.1 hbd) hdb.2

theorem precedes_asymm (h : f.HasFlow g) (hb : f.Reaches b) (hc : f.Reaches c)
    (hbc : f.Precedes b c) : ¬f.Precedes c b := by
  have hne : ∀ {x y}, [x, y].Sublist (f.blocks.map Block.id) → x ≠ y := fun hsub => by
    simpa using h.names.sublist hsub
  rintro hcb
  rcases hbc with hbc | ⟨d, x, y, hx, hy, hxy, hxb, hyc⟩ <;>
    rcases hcb with hcb | ⟨d', x', y', hx', hy', hxy', hxc', hyb'⟩
  · exact hbc.2 (h.antisymm hb hbc.1 hcb.1)
  · exact hne hxy' (h.sibling_unique hx' hy' hc hxc' (hyb'.trans hbc.1))
  · exact hne hxy (h.sibling_unique hx hy hb hxb (hyc.trans hcb.1))
  · have hdb := hx.1.1.trans hxb
    have hdc := hy.1.1.trans hyc
    have hdb' := hy'.1.1.trans hyb'
    have hdc' := hx'.1.1.trans hxc'
    by_cases heq : d = d'
    · subst heq
      obtain rfl := h.sibling_unique hx hy' hb hxb hyb'
      obtain rfl := h.sibling_unique hy hx' hc hyc hxc'
      exact not_sublist_swap h.names hxy hxy'
    -- the siblings further up would both stand above the parent of those further down
    rcases h.total hb hdb hdb' with hdd | hdd
    · exact hne hxy (h.sibling_unique hx hy (hdb'.reaches hb)
        (h.child_dominates hx hb hxb hdb' ⟨hdd, heq⟩) (h.child_dominates hy hc hyc hdc' ⟨hdd, heq⟩))
    · exact hne hxy' (h.sibling_unique hx' hy' (hdb.reaches hb)
        (h.child_dominates hx' hc hxc' hdc ⟨hdd, Ne.symm heq⟩)
        (h.child_dominates hy' hb hyb' hdb ⟨hdd, Ne.symm heq⟩))

end Function.HasFlow

/-- With a block of a loop, its immediate dominator is in the loop, but for the header. -/
theorem Loops.contains_of_immediatelyDominates (h : f.HasFlow g) (hlp : lp ∈ (compute g).loops)
    (hb : f.Reaches b) (hmem : lp.contains b) (hne : b ≠ lp.header)
    (hab : f.ImmediatelyDominates a b) : lp.contains a := by
  by_cases heq : lp.header = a
  · exact heq ▸ contains_header hlp
  have hheader : f.Dominates lp.header b := header_dominates h hlp hb hmem
  have habove : f.Dominates lp.header a := hab.2 _ ⟨hheader, hne.symm⟩ heq
  obtain ⟨t, hcloses, hway⟩ := ((contains_iff h hlp).mp hmem).resolve_left hne
  -- a way from the immediate dominator to the block need not go back to the header
  have hdown := h.avoids_of_dominates ⟨habove, heq⟩ hab.1.1 hb
  exact (contains_iff h hlp).mpr (.inr ⟨t, hcloses, hdown.trans hway⟩)

namespace DomTree

variable {t : DomTree}

theorem self_mem_preorder : b ∈ t.preorder keep depth b := by
  cases depth <;> simp [preorder]

/-- A walk goes on to the children that are to be kept. -/
theorem mem_preorder_of_child (h : c ∈ t.preorder keep depth b) (hd : d ∈ t.children c)
    (hkeep : keep d) : d ∈ t.preorder keep (depth + 1) b := by
  induction depth generalizing b with
  | zero =>
    obtain rfl := List.mem_singleton.mp h
    rw [preorder, List.mem_cons, List.mem_flatMap]
    exact .inr ⟨d, List.mem_filter.mpr ⟨hd, hkeep⟩, self_mem_preorder⟩
  | succ depth ih =>
    rw [preorder, List.mem_cons, List.mem_flatMap] at h ⊢
    rcases h with rfl | ⟨child, hchild, hc⟩
    · exact .inr ⟨d, List.mem_filter.mpr ⟨hd, hkeep⟩, self_mem_preorder⟩
    · exact .inr ⟨child, hchild, ih hc⟩

theorem dominates_of_mem_preorder (h : f.HasFlow g)
    (hc : c ∈ (ofGraph g).preorder keep depth b) : f.Dominates b c := by
  induction depth generalizing b with
  | zero =>
    obtain rfl := List.mem_singleton.mp hc
    exact Function.dominates_self
  | succ depth ih =>
    rw [preorder, List.mem_cons, List.mem_flatMap] at hc
    rcases hc with rfl | ⟨child, hchild, hc⟩
    · exact Function.dominates_self
    · exact (h.mem_children.mp (List.mem_of_mem_filter hchild)).2.1.1.trans (ih hc)

/-- The walk goes down the tree, and through siblings in function order. -/
theorem pairwise_preorder (h : f.HasFlow g) :
    ((ofGraph g).preorder keep depth b).Pairwise f.Precedes := by
  induction depth generalizing b with
  | zero => exact List.pairwise_singleton _ _
  | succ depth ih =>
    rw [preorder, List.pairwise_cons, List.pairwise_flatMap]
    refine ⟨fun c hc => .inl ?_, fun child _ => ih, ?_⟩
    · obtain ⟨child, hchild, hc⟩ := List.mem_flatMap.mp hc
      obtain ⟨hreach, himm⟩ := h.mem_children.mp (List.mem_of_mem_filter hchild)
      have hdown : f.Dominates child c := dominates_of_mem_preorder h hc
      refine ⟨himm.1.1.trans hdown, ?_⟩
      rintro rfl
      exact himm.1.2 (h.antisymm (himm.1.1.reaches hreach) himm.1.1 hdown)
    · refine List.pairwise_iff_forall_sublist.mpr fun {x y} hsub c hc d hd => .inr ?_
      have hx := List.mem_of_mem_filter (hsub.subset List.mem_cons_self)
      have hy := List.mem_of_mem_filter (hsub.subset (List.mem_cons_of_mem x List.mem_cons_self))
      have hids : [x, y].Sublist (f.blocks.map Block.id) := by
        refine hsub.trans (List.filter_sublist.trans ?_)
        rw [← h.blocks]
        exact List.filter_sublist.trans List.filter_sublist
      exact ⟨b, x, y, (h.mem_children.mp hx).2, (h.mem_children.mp hy).2, hids,
        dominates_of_mem_preorder h hc, dominates_of_mem_preorder h hd⟩

/-- No reached block has more blocks above it than the tree has blocks. -/
theorem lt_length_blocks (h : f.HasFlow g) {i : Nat} (hi : g.reversePostOrder[i]? = some b) :
    i < (ofGraph g).blocks.length := by
  have hsub : ∀ c ∈ g.reversePostOrder, c ∈ (ofGraph g).blocks := fun c hc =>
    h.mem_treeBlocks.mpr (h.reaches_iff.mp ((h.searched.mem_iff c).mp hc))
  exact (List.getElem?_eq_some_iff.mp hi).1.trans_le (h.searched.nodup.subperm hsub).length_le

/-- Every reached block of a loop but the header is the child of one that stands in front of it. -/
theorem exists_parent_of_loop (h : f.HasFlow g) (hlp : lp ∈ (Loops.compute g).loops) {i : Nat}
    (hi : g.reversePostOrder[i]? = some b) (hmem : lp.contains b) (hne : b ≠ lp.header) :
    ∃ d, ∃ j < i, g.reversePostOrder[j]? = some d ∧ lp.contains d ∧
      b ∈ (ofGraph g).children d := by
  have hb : g.Reaches b := (h.searched.mem_iff b).mp (List.mem_of_getElem? hi)
  have hb' : f.Reaches b := h.reaches_iff.mp hb
  have hstrict : f.StrictlyDominates lp.header b :=
    ⟨Loops.header_dominates h hlp hb' hmem, hne.symm⟩
  obtain ⟨d, hd⟩ := h.searched.exists_idom? hb (h.entry ▸ hstrict.ne_entry)
  have himm : f.ImmediatelyDominates d b := (h.immediatelyDominates_iff hd).mpr rfl
  obtain ⟨i', j, hi', hj, hjd⟩ := h.searched.idom?_eq_some.mp hd
  obtain rfl := h.searched.eq_of_getElem? hi hi'
  exact ⟨d, j, g.links.earlier i j hj, hjd,
    Loops.contains_of_immediatelyDominates h hlp hb' hmem hne himm, h.mem_children.mpr ⟨hb', himm⟩⟩

/-- From the header down, the walk meets every reached block of a loop at the depth of its position
at the latest. -/
theorem mem_preorder_of_loop (h : f.HasFlow g) (hlp : lp ∈ (Loops.compute g).loops) {i : Nat}
    (hi : g.reversePostOrder[i]? = some b) (hmem : lp.contains b) (hdepth : i ≤ depth) :
    b ∈ (ofGraph g).preorder lp.contains depth lp.header := by
  induction depth generalizing b i with
  | zero =>
    by_cases hne : b = lp.header
    · exact hne ▸ self_mem_preorder
    obtain ⟨d, j, hji, -⟩ := exists_parent_of_loop h hlp hi hmem hne
    omega
  | succ depth ih =>
    by_cases hne : b = lp.header
    · exact hne ▸ self_mem_preorder
    obtain ⟨d, j, hji, hj, hd, hchild⟩ := exists_parent_of_loop h hlp hi hmem hne
    exact mem_preorder_of_child (ih hj hd (by omega)) hchild hmem

/-- The walk down the tree through a loop with a reached header visits the reached blocks of the
loop. -/
theorem mem_subtree_iff (h : f.HasFlow g) (hlp : lp ∈ (Loops.compute g).loops)
    (hheader : f.Reaches lp.header) :
    b ∈ (ofGraph g).subtree lp.contains lp.header ↔ f.Reaches b ∧ lp.contains b := by
  rw [subtree_eq_preorder]
  constructor
  · intro hb
    rcases mem_preorder hb with rfl | ⟨hblock, hkeep⟩
    · exact ⟨hheader, Loops.contains_header hlp⟩
    · exact ⟨h.mem_treeBlocks.mp hblock, hkeep⟩
  · rintro ⟨hb, hmem⟩
    obtain ⟨i, hi⟩ := h.searched.exists_position (h.reaches_iff.mpr hb)
    exact mem_preorder_of_loop h hlp hi hmem (lt_length_blocks h hi).le

theorem pairwise_subtree (h : f.HasFlow g) :
    ((ofGraph g).subtree keep b).Pairwise f.Precedes := by
  rw [subtree_eq_preorder]
  exact pairwise_preorder h

/-- No block is visited twice. -/
theorem nodup_subtree (h : f.HasFlow g) (hlp : lp ∈ (Loops.compute g).loops)
    (hheader : f.Reaches lp.header) :
    ((ofGraph g).subtree lp.contains lp.header).Nodup := by
  refine (pairwise_subtree h).imp_of_mem fun {b c} hb _ hbc heq => ?_
  subst heq
  have hreach := ((mem_subtree_iff h hlp hheader).mp hb).1
  exact h.precedes_asymm hreach hreach hbc hbc

/-- The order of the walk is the only one in which all visited blocks come as in the tree. -/
theorem eq_subtree_of_perm (h : f.HasFlow g) (hlp : lp ∈ (Loops.compute g).loops)
    (hheader : f.Reaches lp.header) {order : List BlockId}
    (hperm : order.Perm ((ofGraph g).subtree lp.contains lp.header))
    (horder : order.Pairwise f.Precedes) :
    order = (ofGraph g).subtree lp.contains lp.header := by
  refine hperm.eq_of_pairwise (fun b c hb hc hbc hcb => ?_) horder (pairwise_subtree h)
  have hreach : ∀ x ∈ (ofGraph g).subtree lp.contains lp.header, f.Reaches x := fun x hx =>
    ((mem_subtree_iff h hlp hheader).mp hx).1
  exact absurd hcb (h.precedes_asymm (hreach b (hperm.mem_iff.mp hb)) (hreach c hc) hbc)

end DomTree

end Precedence
