import Precedence.Proofs.Flow.Dominance
import Precedence.Proofs.Flow.Loops

/-!
Natural loops. A loop holds its header and the blocks that get to the tail of a closing edge without
passing the header. The header dominates all of these that are reached; so two loops that share a
reached block are nested, and the innermost one around a block is the smallest.
-/
namespace Precedence

/-- Every block of the one loop is a block of the other. -/
def Loop.Inside (l l' : Loop) : Prop := ∀ b, l.contains b → l'.contains b

/-- The other loop has a block more at least. -/
def Loop.StrictlyInside (l l' : Loop) : Prop := l.Inside l' ∧ ¬l'.Inside l

namespace Loops

variable {f : Function} {g : FlowGraph} {lp lp' : Loop} {b c tail header : BlockId}

/-- The search backwards from a tail finds the blocks that get to it without passing the header. -/
theorem mem_bodyOf_iff (htail : tail ∈ g.blocks) :
    b ∈ bodyOf g tail header ↔ b = header ∨ Avoids g.Arc header b tail := by
  have hfresh : ∀ x, ((BlockSet.ofList g.blocks).erase header).contains x ↔
      x ≠ header ∧ x ∈ g.blocks := by
    intro x
    simp [BlockSet.contains_erase, BlockSet.contains_ofList_iff]
  rw [mem_bodyOf]
  refine or_congr_right ⟨?_, ?_⟩
  · rintro ⟨t, ht, hfind, hway⟩
    obtain rfl := List.mem_singleton.mp ht
    induction hway with
    | refl => exact .refl ((hfresh t).mp hfind).1
    | tail _ hstep ih =>
      exact ih.head (FlowGraph.mem_predTable.mp hstep.1) ((hfresh _).mp hstep.2).1
  · rintro ⟨way, hway, havoid⟩
    induction hway with
    | stay t =>
      have hne : t ≠ header := fun heq => havoid (by simp [heq])
      exact ⟨t, List.mem_cons_self, (hfresh t).mpr ⟨hne, htail⟩, .refl⟩
    | @go a c t way hstep _ ih =>
      obtain ⟨t', ht', hfind, hback⟩ := ih htail fun hmem => havoid (List.mem_cons_of_mem a hmem)
      have hne : a ≠ header := fun heq => havoid (by simp [heq])
      refine ⟨t', ht', hfind, hback.tail ⟨FlowGraph.mem_predTable.mpr hstep, ?_⟩⟩
      exact (hfresh a).mpr ⟨hne, hstep.left_mem⟩

/-- The header dominates the tail of a closing edge, unless that is the header itself. -/
theorem dominates_of_closes (h : f.HasFlow g) (ht : Closes g tail header) (hne : tail ≠ header) :
    f.Reaches tail ∧ f.Dominates header tail := by
  have hreach := (h.eq_or_reaches_of_dominates ht.2).resolve_left hne.symm
  exact ⟨hreach, (h.dominates_iff hreach).mp ht.2⟩

section

variable (h : f.HasFlow g) (hlp : lp ∈ (compute g).loops) (hlp' : lp' ∈ (compute g).loops)
include h hlp

theorem contains_iff : lp.contains b ↔ b = lp.header ∨
    ∃ t, Closes g t lp.header ∧ Avoids f.Edge lp.header b t := by
  rw [Loop.contains, List.contains_iff_mem, mem_blocks_iff h.searched.names hlp, ← h.arc]
  constructor
  · rintro ⟨t, hcloses, hb⟩
    exact ((mem_bodyOf_iff hcloses.1.left_mem).mp hb).imp_right fun hb => ⟨t, hcloses, hb⟩
  · rintro (rfl | ⟨t, hcloses, hb⟩)
    · obtain ⟨t, hcloses⟩ := (exists_loop_iff h.searched.names).mp ⟨lp, hlp, rfl⟩
      exact ⟨t, hcloses, (mem_bodyOf_iff hcloses.1.left_mem).mpr (.inl rfl)⟩
    · exact ⟨t, hcloses, (mem_bodyOf_iff hcloses.1.left_mem).mpr (.inr hb)⟩

/-- The header of a loop dominates its reached blocks. -/
theorem header_dominates (hb : f.Reaches b) (hmem : lp.contains b) :
    f.Dominates lp.header b := by
  rcases (contains_iff h hlp).mp hmem with rfl | ⟨t, hcloses, hway⟩
  · exact Function.dominates_self
  refine Function.dominates_iff_not_avoids.mpr fun havoid => ?_
  have hdom := (dominates_of_closes h hcloses hway.right_ne).2
  exact Function.dominates_iff_not_avoids.mp hdom (havoid.trans hway)

include hlp'

/-- If the header of one loop strictly dominates that of another one, and both loops share a reached
block, the other loop lies inside. -/
theorem strictlyInside_of_dominates (hb : f.Reaches b) (hmem : lp.contains b)
    (hmem' : lp'.contains b) (hdom : f.StrictlyDominates lp.header lp'.header) :
    lp'.StrictlyInside lp := by
  have hbelow : f.Dominates lp'.header b := header_dominates h hlp' hb hmem'
  have hreach' : f.Reaches lp'.header := hbelow.reaches hb
  have hnot : ¬f.Dominates lp'.header lp.header := fun hback =>
    hdom.2 (h.antisymm (hdom.1.reaches hreach') hdom.1 hback)
  -- from the inner header the shared block leads on to a tail of the outer loop
  have hheader : lp.contains lp'.header := by
    have hway := h.avoids_of_dominates hdom hbelow hb
    rcases (contains_iff h hlp).mp hmem with rfl | ⟨t, hcloses, hrest⟩
    · exact absurd rfl hway.right_ne
    · exact (contains_iff h hlp).mpr (.inr ⟨t, hcloses, hway.trans hrest⟩)
  refine ⟨fun c hc => ?_, fun hinside => hnot ?_⟩
  · rcases (contains_iff h hlp').mp hc with rfl | ⟨t', hcloses', hway⟩
    · exact hheader
    obtain ⟨hreach, hdom'⟩ := dominates_of_closes h hcloses' hway.right_ne
    obtain ⟨t, hcloses, hrest⟩ := ((contains_iff h hlp).mp hheader).resolve_left hdom.2.symm
    -- a way through the outer header would lead past the inner one to its tail
    have havoid : Avoids f.Edge lp.header c t' := by
      obtain ⟨way, hway, hnone⟩ := hway
      refine ⟨way, hway, fun hthrough => ?_⟩
      obtain ⟨back, hback, hsub⟩ := hway.behind hthrough
      have hfront : Avoids f.Edge lp'.header f.entry lp.header := by
        by_contra hfront
        exact hnot (Function.dominates_iff_not_avoids.mpr hfront)
      refine Function.dominates_iff_not_avoids.mp hdom' (hfront.trans ⟨back, hback, fun hmem => ?_⟩)
      exact hnone (hsub _ hmem)
    refine (contains_iff h hlp).mpr (.inr ⟨t, hcloses, ?_⟩)
    exact (havoid.tail (h.arc ▸ hcloses'.1) hdom.2.symm).trans hrest
  · exact header_dominates h hlp' (hdom.1.reaches hreach')
      (hinside _ (contains_header hlp))

end

/-- Two loops that share a reached block are nested. -/
theorem strictlyInside_or (h : f.HasFlow g) (hlp : lp ∈ (compute g).loops)
    (hlp' : lp' ∈ (compute g).loops) (hne : lp ≠ lp') (hb : f.Reaches b) (hmem : lp.contains b)
    (hmem' : lp'.contains b) : lp.StrictlyInside lp' ∨ lp'.StrictlyInside lp := by
  have hheader : lp.header ≠ lp'.header := fun heq => hne (eq_of_header_eq hlp hlp' heq)
  rcases h.total hb (header_dominates h hlp hb hmem) (header_dominates h hlp' hb hmem') with
    hdom | hdom
  · exact .inr (strictlyInside_of_dominates h hlp hlp' hb hmem hmem' ⟨hdom, hheader⟩)
  · exact .inl (strictlyInside_of_dominates h hlp' hlp hb hmem' hmem ⟨hdom, hheader.symm⟩)

theorem length_lt_of_strictlyInside (hlp : lp ∈ (compute g).loops)
    (h : lp.StrictlyInside lp') : lp.blocks.length < lp'.blocks.length := by
  have hsub : ∀ b ∈ lp.blocks, b ∈ lp'.blocks := fun b hb =>
    List.contains_iff_mem.mp (h.1 b (List.contains_iff_mem.mpr hb))
  have hsubperm := (nodup_blocks hlp).subperm hsub
  refine lt_of_le_of_ne hsubperm.length_le fun heq => h.2 fun b hb => ?_
  have hperm := hsubperm.perm_of_length_le heq.ge
  exact List.contains_iff_mem.mpr (hperm.mem_iff.mpr (List.contains_iff_mem.mp hb))

/-- The innermost loop around a reached block lies inside all loops around it. -/
theorem inside_of_around (h : f.HasFlow g) (hb : f.Reaches b)
    (haround : (compute g).around b = some lp) (hlp' : lp' ∈ (compute g).loops)
    (hmem' : lp'.contains b) : lp.Inside lp' := by
  obtain ⟨hlp, hmem, hleast⟩ := around_eq_some haround
  by_cases hne : lp = lp'
  · exact hne ▸ fun _ hc => hc
  rcases strictlyInside_or h hlp hlp' hne hb hmem hmem' with hinside | hinside
  · exact hinside.1
  · have hlt := length_lt_of_strictlyInside hlp' hinside
    have hle := hleast lp' hlp' hmem'
    omega

/-! Depths -/

/-- Counting one loop adds one to the depth of each of its blocks. -/
theorem getD_count {blocks : List BlockId} (hnodup : blocks.Nodup) (t : Table Nat) :
    (blocks.foldl (fun t b => t.insert b.number (t.getD b.number 0 + 1)) t).getD b.number 0 =
      t.getD b.number 0 + if blocks.contains b then 1 else 0 := by
  induction blocks generalizing t with
  | nil => simp
  | cons c blocks ih =>
    rw [List.nodup_cons] at hnodup
    rw [List.foldl_cons, ih hnodup.2, Std.TreeMap.getD_insert]
    by_cases hcb : c = b
    · subst hcb
      simp [hnodup.1]
    · simp [hcb, Ne.symm hcb, BlockId.number_inj]

/-- The depth of a block is the number of loops around it. -/
theorem depth_eq_countP {l : Loops} (hnodup : ∀ lp ∈ l.loops, lp.blocks.Nodup) :
    l.depth b = l.loops.countP fun lp => lp.contains b := by
  have hfold : ∀ (loops : List Loop) (t : Table Nat), (∀ lp ∈ loops, lp.blocks.Nodup) →
      (loops.foldl (fun t lp => lp.blocks.foldl (fun t b =>
        t.insert b.number (t.getD b.number 0 + 1)) t) t).getD b.number 0 =
        t.getD b.number 0 + loops.countP fun lp => lp.contains b := by
    intro loops
    induction loops with
    | nil => simp
    | cons lp loops ih =>
      intro t hnodup
      rw [List.forall_mem_cons] at hnodup
      rw [List.foldl_cons, ih _ hnodup.2, getD_count hnodup.1, List.countP_cons, Loop.contains]
      omega
  rw [depth, depths, hfold _ _ hnodup]
  simp

end Loops

namespace Function

variable {f : Function}

/-- The loops of a function are its natural loops: one for each block that dominates the source of
an edge to it, with all that gets to such a source without passing the header. The depth of a block
is the number of loops around it; loops that share a reached block are nested, and the innermost one
around a reached block lies inside all that are around it. -/
theorem loops_natural (hnames : (f.blocks.map Block.id).Nodup) (hentry : f.hasBlock f.entry) :
    ∃ g, FlowGraph.ofFunction f = .ok g ∧
      let l := Loops.compute g
      (l.loops.map Loop.header).Nodup ∧
      (∀ h, (∃ lp ∈ l.loops, lp.header = h) ↔ ∃ t, f.Edge t h ∧ g.dominates h t) ∧
      (∀ lp ∈ l.loops, ∀ b, lp.contains b ↔ b = lp.header ∨
        ∃ t, (f.Edge t lp.header ∧ g.dominates lp.header t) ∧ Avoids f.Edge lp.header b t) ∧
      (∀ b, l.depth b = l.loops.countP fun lp => lp.contains b) ∧
      (∀ lp ∈ l.loops, ∀ lp' ∈ l.loops, lp ≠ lp' →
        ∀ b, f.Reaches b → lp.contains b → lp'.contains b →
          lp.StrictlyInside lp' ∨ lp'.StrictlyInside lp) ∧
      ∀ b, f.Reaches b → (∃ lp ∈ l.loops, lp.contains b) →
        ∃ lp ∈ l.loops, l.around b = some lp ∧ lp.contains b ∧
          ∀ lp' ∈ l.loops, lp'.contains b → lp.Inside lp' := by
  obtain ⟨g, hg, hflow⟩ := exists_hasFlow hnames hentry
  have hcloses : ∀ t h, Loops.Closes g t h ↔ f.Edge t h ∧ g.dominates h t := fun t h => by
    rw [Loops.Closes, hflow.arc]
  refine ⟨g, hg, Loops.nodup_headers, fun h => ?_, fun lp hlp b => ?_,
    fun b => Loops.depth_eq_countP fun lp hlp => Loops.nodup_blocks hlp,
    fun lp hlp lp' hlp' hne b => Loops.strictlyInside_or hflow hlp hlp' hne, ?_⟩
  · simp only [Loops.exists_loop_iff hflow.searched.names, hcloses]
  · simpa only [hcloses] using Loops.contains_iff (b := b) hflow hlp
  · rintro b hb ⟨lp', hlp', hmem'⟩
    cases haround : (Loops.compute g).around b with
    | none => exact absurd hmem' (Loops.around_eq_none haround lp' hlp')
    | some lp =>
      obtain ⟨hlp, hmem, -⟩ := Loops.around_eq_some haround
      exact ⟨lp, hlp, rfl, hmem, fun lp' => Loops.inside_of_around hflow hb haround⟩

/-- A block with an edge to itself and one back to the entry, and a block that is not reached but
leads into the loop of the entry. -/
theorem loops_of_entry :
    let f : Function := { blocks := [{ id := ⟨0⟩, successors := [⟨1⟩] },
      { id := ⟨1⟩, successors := [⟨1⟩, ⟨0⟩] }, { id := ⟨2⟩, successors := [⟨1⟩] }] }
    ∃ g, FlowGraph.ofFunction f = .ok g ∧ ∃ outer ∈ (Loops.compute g).loops,
      ∃ inner ∈ (Loops.compute g).loops, outer.header = ⟨0⟩ ∧ inner.header = ⟨1⟩ ∧
        outer.contains ⟨2⟩ ∧ (outer.StrictlyInside inner ∨ inner.StrictlyInside outer) := by
  intro f
  obtain ⟨g, hg, -, hheader, hmem, -, hnested, -⟩ :=
    loops_natural (f := f) (by decide) (by decide)
  obtain ⟨g', hg', hflow⟩ := exists_hasFlow (f := f) (by decide) (by decide)
  obtain rfl : g = g' := Except.ok.inj (hg.symm.trans hg')
  have h01 : f.Edge ⟨0⟩ ⟨1⟩ := ⟨f.blocks[0], by decide, rfl, by decide, by decide⟩
  have h11 : f.Edge ⟨1⟩ ⟨1⟩ := ⟨f.blocks[1], by decide, rfl, by decide, by decide⟩
  have h10 : f.Edge ⟨1⟩ ⟨0⟩ := ⟨f.blocks[1], by decide, rfl, by decide, by decide⟩
  have h21 : f.Edge ⟨2⟩ ⟨1⟩ := ⟨f.blocks[2], by decide, rfl, by decide, by decide⟩
  have hone : f.Reaches ⟨1⟩ := ⟨_, .go h01 (.stay _)⟩
  have hdom0 : g.dominates ⟨0⟩ ⟨1⟩ := (hflow.dominates_iff hone).mpr fun _ hway => hway.first_mem
  have hdom1 : g.dominates ⟨1⟩ ⟨1⟩ := (hflow.dominates_iff hone).mpr dominates_self
  obtain ⟨outer, houter, h0⟩ := (hheader ⟨0⟩).mpr ⟨⟨1⟩, h10, hdom0⟩
  obtain ⟨inner, hinner, h1⟩ := (hheader ⟨1⟩).mpr ⟨⟨1⟩, h11, hdom1⟩
  have htail : Avoids f.Edge ⟨0⟩ ⟨1⟩ ⟨1⟩ := .refl (by decide)
  have hin : ∀ b, Avoids f.Edge ⟨0⟩ b ⟨1⟩ → outer.contains b := fun b hb =>
    (hmem outer houter b).mpr (.inr ⟨⟨1⟩, h0 ▸ ⟨h10, hdom0⟩, h0 ▸ hb⟩)
  have hne : outer ≠ inner := fun heq => absurd (h0.symm.trans (heq ▸ h1)) (by decide)
  exact ⟨g, hg, outer, houter, inner, hinner, h0, h1, hin _ (htail.head h21 (by decide)),
    hnested outer houter inner hinner hne ⟨1⟩ hone (hin _ htail)
      ((hmem inner hinner ⟨1⟩).mpr (.inl h1.symm))⟩

end Function

end Precedence
