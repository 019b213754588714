import Mathlib
import Precedence.Build.Builder
import Precedence.Proofs.Flow.Closing
import Precedence.Proofs.Outcomes
import Precedence.Proofs.Walk.Units

/-!
Loops found in the control flow of a function, and what a builder makes of them. A loop contains its
header, and the entry reaches its header unless the loop is a single block with an edge to itself,
which then has no place in the dominator tree. Only such a block keeps a builder from taking a
region in hand.
-/
namespace Precedence

namespace Loops

variable {g : FlowGraph} {l : Loops} {lp : Loop} {a b : BlockId}

theorem contains_header (h : lp ∈ (compute g).loops) : lp.contains lp.header :=
  List.contains_iff_mem.mpr (header_mem_blocks h)

/-- Some edge closes a loop. -/
theorem exists_arc (hnames : g.blocks.Nodup) (h : lp ∈ (compute g).loops) :
    ∃ t, g.Arc t lp.header := by
  obtain ⟨t, hcloses⟩ := (exists_loop_iff hnames).mp ⟨lp, h, rfl⟩
  exact ⟨t, hcloses.1⟩

/-- A loop whose header the entry does not reach is a block with an edge to itself. -/
theorem blocks_of_unreached (hnames : g.blocks.Nodup)
    (hpost : ∀ b, b ∈ g.postOrder ↔ g.Reaches b) (h : lp ∈ (compute g).loops)
    (hheader : ¬g.Reaches lp.header) :
    g.Arc lp.header lp.header ∧ lp.blocks = [lp.header] := by
  have hself : ∀ tail, Closes g tail lp.header → tail = lp.header := fun tail hcloses =>
    (FlowGraph.eq_of_dominates_unreached hpost hheader hcloses.2).symm
  have hmem : ∀ b, b ∈ lp.blocks ↔ b ∈ [lp.header] := by
    intro b
    rw [List.mem_singleton]
    constructor
    · intro hb
      obtain ⟨tail, hcloses, hb⟩ := (mem_blocks_iff hnames h).mp hb
      obtain rfl := hself tail hcloses
      refine (mem_bodyOf.mp hb).elim id ?_
      rintro ⟨t, ht, hinside, -⟩
      simp [List.mem_singleton.mp ht, BlockSet.contains_erase] at hinside
    · rintro rfl
      exact header_mem_blocks h
  obtain ⟨tail, hcloses⟩ := (exists_loop_iff hnames).mp ⟨lp, h, rfl⟩
  obtain rfl := hself tail hcloses
  exact ⟨hcloses.1, List.perm_singleton.mp
    ((List.perm_ext_iff_of_nodup (nodup_blocks h) (List.nodup_singleton _)).mpr hmem)⟩

theorem exists_loop_of_arc (hnames : g.blocks.Nodup) (h : g.Arc a a) :
    ∃ lp ∈ (compute g).loops, lp.header = a :=
  (exists_loop_iff hnames).mpr ⟨a, h, by simp [FlowGraph.dominates, Reachable.dominates]⟩

/-- The smallest of some loops is one of them. -/
theorem foldl_smaller (lp : Loop) (rest : List Loop) :
    rest.foldl smaller lp ∈ lp :: rest ∧
      ∀ lp' ∈ lp :: rest, (rest.foldl smaller lp).blocks.length ≤ lp'.blocks.length := by
  induction rest generalizing lp with
  | nil => simp
  | cons next rest ih =>
    obtain ⟨hmem, hleast⟩ := ih (smaller lp next)
    have hsmaller : (smaller lp next = lp ∨ smaller lp next = next) ∧
        (smaller lp next).blocks.length ≤ lp.blocks.length ∧
        (smaller lp next).blocks.length ≤ next.blocks.length := by
      unfold smaller
      split
      · exact ⟨.inr rfl, by omega, le_rfl⟩
      · exact ⟨.inl rfl, le_rfl, by omega⟩
    obtain ⟨hone, hfst, hsnd⟩ := hsmaller
    have hfold := hleast _ List.mem_cons_self
    rw [List.foldl_cons]
    refine ⟨?_, fun lp' hlp' => ?_⟩
    · rcases List.mem_cons.mp hmem with h | h
      · rw [h]
        rcases hone with h' | h' <;> simp [h']
      · exact List.mem_cons_of_mem _ (List.mem_cons_of_mem _ h)
    · rcases List.mem_cons.mp hlp' with rfl | hlp'
      · exact hfold.trans hfst
      · rcases List.mem_cons.mp hlp' with rfl | hlp'
        · exact hfold.trans hsnd
        · exact hleast lp' (List.mem_cons_of_mem _ hlp')

/-- The innermost loop around a block is one of the smallest that contain it. -/
theorem around_eq_some (h : l.around b = some lp) : lp ∈ l.loops ∧ lp.contains b ∧
    ∀ lp' ∈ l.loops, lp'.contains b → lp.blocks.length ≤ lp'.blocks.length := by
  unfold around at h
  split at h
  · cases h
  next first rest heq =>
    cases h
    obtain ⟨hmem, hleast⟩ := foldl_smaller first rest
    rw [← heq] at hmem hleast
    obtain ⟨hloop, hb⟩ := List.mem_filter.mp hmem
    exact ⟨hloop, hb, fun lp' hlp' hb' => hleast lp' (List.mem_filter.mpr ⟨hlp', hb'⟩)⟩

theorem around_eq_none (h : l.around b = none) : ∀ lp ∈ l.loops, ¬lp.contains b := by
  unfold around at h
  split at h
  next heq => exact List.filter_eq_nil_iff.mp heq
  · cases h

/-- The innermost loop around a block has a header that the entry does not reach just when the block
is not reached itself and has an edge to itself. -/
theorem around_unreached (hnames : g.blocks.Nodup)
    (hpost : ∀ b, b ∈ g.postOrder ↔ g.Reaches b) :
    (∃ lp, (compute g).around b = some lp ∧ ¬g.Reaches lp.header) ↔ ¬g.Reaches b ∧ g.Arc b b := by
  constructor
  · rintro ⟨lp, haround, hheader⟩
    obtain ⟨hlp, hb, -⟩ := around_eq_some haround
    obtain ⟨harc, hblocks⟩ := blocks_of_unreached hnames hpost hlp hheader
    obtain rfl : b = lp.header := by simpa [Loop.contains, hblocks] using hb
    exact ⟨hheader, harc⟩
  · rintro ⟨hb, harc⟩
    obtain ⟨self, hself, rfl⟩ := exists_loop_of_arc hnames harc
    have hcontains := contains_header hself
    cases haround : (compute g).around self.header with
    | none => exact absurd hcontains (around_eq_none haround self hself)
    | some lp =>
      refine ⟨lp, rfl, ?_⟩
      obtain ⟨hlp, hmem, hleast⟩ := around_eq_some haround
      have hlen := hleast self hself hcontains
      rw [(blocks_of_unreached hnames hpost hself hb).2] at hlen
      -- a loop of one block is around no block but its header
      have hheader := contains_header hlp
      match hblocks : lp.blocks, hlen with
      | [], _ => simp [Loop.contains, hblocks] at hheader
      | [x], _ =>
        obtain rfl : lp.header = x := by simpa [Loop.contains, hblocks] using hheader
        obtain heq : self.header = lp.header := by simpa [Loop.contains, hblocks] using hmem
        exact heq ▸ hb

end Loops

namespace DomTree

theorem contains_ofGraph {g : FlowGraph} {b : BlockId} :
    (ofGraph g).contains b ↔ b ∈ g.blocks ∧ b ∈ g.postOrder := by
  simp [contains, ofGraph, FlowGraph.isSome_position?]

theorem mem_preorder {t : DomTree} {keep : BlockId → Bool} {depth : Nat} {b c : BlockId}
    (h : c ∈ t.preorder keep depth b) : c = b ∨ c ∈ t.blocks ∧ keep c := by
  induction depth generalizing b with
  | zero => exact .inl (List.mem_singleton.mp h)
  | succ depth ih =>
    simp only [preorder, List.mem_cons, List.mem_flatMap, List.mem_filter] at h
    rcases h with rfl | ⟨child, ⟨hchild, hkeep⟩, hc⟩
    · exact .inl rfl
    · rcases ih hc with rfl | hc
      · exact .inr ⟨(List.mem_filter.mp hchild).1, hkeep⟩
      · exact .inr hc

end DomTree

namespace LoopReads

variable {f : Function} {tree : DomTree} {loop : Loop}

/-- Looking through a loop finds an answer if the tree has its header, and names that blocks bear. -/
theorem visit_ok (hheader : loop.contains loop.header) (htree : tree.contains loop.header)
    (hblocks : ∀ b ∈ tree.blocks, f.hasBlock b) :
    Returns (visit {} f tree loop) fun _ => True := by
  have hblock : ∀ id ∈ tree.subtree loop.contains loop.header, ∃ b, f.block id = .ok b := by
    intro id hid
    rw [DomTree.subtree_eq_preorder] at hid
    have hmem : id ∈ tree.blocks := by
      rcases DomTree.mem_preorder hid with rfl | ⟨hid, -⟩
      · exact List.contains_iff_mem.mp htree
      · exact hid
    obtain ⟨b, hb, -⟩ := f.block_ok (hblocks id hmem)
    exact ⟨b, hb⟩
  obtain ⟨header, hok, -⟩ := f.block_ok (hblocks _ (List.contains_iff_mem.mp htree))
  obtain ⟨found, hfound⟩ : ∃ found, ((tree.subtree loop.contains loop.header).mapM fun id => do
      let b ← f.block id
      return readsIn id b) = .ok found := by
    refine returns_mapM fun id hid => ?_
    obtain ⟨b, hb⟩ := hblock id hid
    exact ⟨readsIn id b, bind_eq_ok.mpr ⟨b, hb, rfl⟩⟩
  unfold visit
  rw [if_neg (by simp), if_neg (by simp [hheader]), if_neg (by simp [htree])]
  refine (returns_of_eq hok).bind fun _ heq => ?_
  subst heq
  split
  · exact .pure trivial
  · exact (returns_of_eq hfound).bind fun _ _ => .pure trivial

/-- A header that the tree lacks is a fault. -/
theorem visit_unreached (hheader : loop.contains loop.header)
    (htree : tree.contains loop.header = false) :
    visit {} f tree loop = .error (.headerUnreachable loop.header) := by
  simp [visit, hheader, htree, bind, Except.bind, throw, throwThe,
    MonadExceptOf.throw]

/-- Looking through a loop finds an answer just when the tree has its header. -/
theorem visit_returns_iff (hheader : loop.contains loop.header)
    (hblocks : ∀ b ∈ tree.blocks, f.hasBlock b) :
    (∃ reads, visit {} f tree loop = .ok reads) ↔ tree.contains loop.header := by
  constructor
  · rintro ⟨reads, hreads⟩
    by_contra htree
    rw [visit_unreached hheader (Bool.eq_false_iff.mpr htree)] at hreads
    cases hreads
  · intro htree
    obtain ⟨reads, hreads, -⟩ := visit_ok hheader htree hblocks
    exact ⟨reads, hreads⟩

end LoopReads

/-! Builders that know the loops of their function -/

/-- The dominator tree and the loops found in the control flow of a function. -/
def LoopContext.ofGraph (g : FlowGraph) : LoopContext := ⟨.ofGraph g, .compute g⟩

namespace Builder

/-- A region is taken in hand just when the innermost loop around its block, if there is one, has its
header in the dominator tree. -/
theorem start_iff_of_around {s : Setup} {b : Builder} {r : Region} {block : Block} {g : FlowGraph}
    (hloops : s.loops = some (.ofGraph g)) (hanalyze : s.options.analyzeLoops)
    (hnamed : ∀ c ∈ g.blocks, s.func.hasBlock c) (hblock : s.func.block r.block = .ok block)
    (hstart : r.start ≤ r.stop) (hstop : r.stop ≤ block.instrs.size) :
    (∃ b', b.start s r = .ok b') ↔
      ∀ lp, (Loops.compute g).around r.block = some lp →
        (DomTree.ofGraph g).contains lp.header := by
  rw [start_eq hblock hstart hstop]
  simp only [readsFor, hloops, hanalyze, if_true, LoopContext.ofGraph]
  cases haround : (Loops.compute g).around r.block with
  | none => simp [Except.bind]
  | some lp =>
    have hheader := Loops.contains_header (Loops.around_eq_some haround).1
    have hvisit : (∃ reads, LoopReads.visit {} s.func (.ofGraph g) lp = .ok reads) ↔
        (DomTree.ofGraph g).contains lp.header :=
      LoopReads.visit_returns_iff hheader fun c hc =>
        hnamed c (DomTree.contains_ofGraph.mp (List.contains_iff_mem.mpr hc)).1
    simp only [Option.some.injEq, forall_eq', ← hvisit]
    constructor
    · rintro ⟨b', hb'⟩
      obtain ⟨reads, hreads, -⟩ := bind_eq_ok.mp hb'
      exact ⟨reads, hreads⟩
    · rintro ⟨reads, hreads⟩
      exact ⟨_, bind_eq_ok.mpr ⟨reads, hreads, rfl⟩⟩

/-- A builder that knows the loops of its function takes in hand every region of every block, but
for a block that the entry does not reach and that has an edge to itself: the loop that this edge
closes has its header outside the dominator tree. -/
theorem start_iff_of_loops {f : Function} (hf : f.WellFormed) (hentry : f.hasBlock f.entry) :
    ∃ g, FlowGraph.ofFunction f = .ok g ∧ ∀ s : Setup, s.func = f →
      s.loops = some (.ofGraph g) → s.options.analyzeLoops →
      ∀ (b : Builder) (r : Region) (block : Block), f.block r.block = .ok block →
        r.start ≤ r.stop → r.stop ≤ block.instrs.size →
        ((∃ b', b.start s r = .ok b') ↔ g.isReachable r.block ∨ r.block ∉ block.successors) := by
  obtain ⟨g, hg, -, hblocks, harc, hpost⟩ := FlowGraph.ofFunction_ok hf.names hentry
  refine ⟨g, hg, ?_⟩
  rintro s rfl hloops hanalyze b r block hblock hstart hstop
  have hnames : g.blocks.Nodup := hblocks ▸ hf.names
  have hnamed : ∀ c ∈ g.blocks, s.func.hasBlock c := fun c hc =>
    Function.hasBlock_iff.mpr (hblocks ▸ hc)
  obtain ⟨hmem, hid⟩ := Function.mem_of_block hblock
  have hself : g.Arc r.block r.block ↔ r.block ∈ block.successors := by
    rw [harc]
    constructor
    · rintro ⟨block', hblock', heq, hsucc, -⟩
      rwa [List.inj_on_of_nodup_map hf.names hmem hblock' (hid.trans heq.symm)]
    · intro hsucc
      exact ⟨block, hmem, hid, hsucc, hf.successors _ hmem _ hsucc⟩
  have hreach : g.isReachable r.block ↔ g.Reaches r.block := by
    simp [FlowGraph.isReachable, hpost]
  have htree : ∀ lp, (Loops.compute g).around r.block = some lp →
      ((DomTree.ofGraph g).contains lp.header ↔ g.Reaches lp.header) := by
    intro lp haround
    obtain ⟨t, ht⟩ := Loops.exists_arc hnames (Loops.around_eq_some haround).1
    obtain ⟨-, -, -, -, hheader⟩ := (harc _ _).mp ht
    rw [DomTree.contains_ofGraph, hpost, hblocks, and_iff_right (Function.hasBlock_iff.mp hheader)]
  have hall := not_congr (Loops.around_unreached (b := r.block) hnames hpost)
  push Not at hall
  calc (∃ b', b.start s r = .ok b')
      ↔ ∀ lp, (Loops.compute g).around r.block = some lp → g.Reaches lp.header := by
        rw [start_iff_of_around hloops hanalyze hnamed hblock hstart hstop]
        exact forall₂_congr htree
    _ ↔ (¬g.Reaches r.block → ¬g.Arc r.block r.block) := hall
    _ ↔ g.isReachable r.block ∨ r.block ∉ block.successors := by
        rw [hreach, hself, or_iff_not_imp_left]

/-- A block with two edges to itself that the entry reaches, and that an unreached block leads to. -/
theorem start_in_self_loop :
    let f : Function := { blocks := [{ id := ⟨0⟩, successors := [⟨1⟩] },
      { id := ⟨1⟩, successors := [⟨1⟩, ⟨1⟩], instrs := #[{ opcode := "nop" }] },
      { id := ⟨2⟩, successors := [⟨1⟩, ⟨2⟩] }] }
    let s (g : FlowGraph) : Setup := { func := f, regs := RegisterFile.info { count := 1 },
                                       timing := .unit, loops := some (.ofGraph g) }
    ∃ g, FlowGraph.ofFunction f = .ok g ∧
      ∃ b', ({} : Builder).start (s g) ⟨⟨1⟩, 0, 1⟩ = .ok b' := by
  intro f s
  have hf : f.WellFormed := ⟨by decide, by decide⟩
  obtain ⟨g, hg, hstart⟩ := start_iff_of_loops hf (by decide)
  have hreach : (FlowGraph.ofFunction f).map (·.isReachable ⟨1⟩) = .ok true := by cbv
  rw [hg] at hreach
  refine ⟨g, hg, (hstart (s g) rfl rfl rfl {} ⟨⟨1⟩, 0, 1⟩ _ rfl (by decide) (by decide)).mpr
    (.inl (Except.ok.inj hreach))⟩

/-- An unreached block with an edge to itself is a loop whose header the dominator tree lacks. -/
theorem not_start_of_unreached_loop :
    let f : Function := { blocks := [{ id := ⟨0⟩ },
      { id := ⟨1⟩, successors := [⟨1⟩], instrs := #[{ opcode := "nop" }] }] }
    let s (g : FlowGraph) : Setup := { func := f, regs := RegisterFile.info { count := 1 },
                                       timing := .unit, loops := some (.ofGraph g) }
    f.WellFormed ∧ f.hasBlock f.entry ∧ ∃ g, FlowGraph.ofFunction f = .ok g ∧
      ({} : Builder).start (s g) ⟨⟨1⟩, 0, 1⟩ = .error (.headerUnreachable ⟨1⟩) := by
  intro f s
  have hf : f.WellFormed := ⟨by decide, by decide⟩
  obtain ⟨g, hg, -⟩ := FlowGraph.ofFunction_ok hf.names (by decide)
  have hfault : (FlowGraph.ofFunction f).bind (fun g =>
      ({} : Builder).start (s g) ⟨⟨1⟩, 0, 1⟩) = .error (.headerUnreachable ⟨1⟩) := by cbv
  rw [hg] at hfault
  exact ⟨hf, by decide, g, hg, hfault⟩

end Builder

end Precedence
