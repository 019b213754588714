import Precedence.Proofs.Flow.LiveWays
import Precedence.Proofs.Flow.Preorder

/-!
Where a loop last reads the registers that its header expects. The reads of a block are listed in
the order of its instructions and operands, those of a loop in the order in which the walk down the
dominator tree visits its blocks; of each register the last one stays.
-/
namespace Precedence

namespace LoopRead

/-- The operand reads `r`, in an instruction that is no debug value and has `count` others in front
of it in its block. -/
def Names (f : Function) (r : Reg) (read : LoopRead) : Prop :=
  ∃ i o, (f.instrsOf read.block)[read.instr]? = some i ∧ i.isDebugValue = false ∧
    (read.operand, o) ∈ i.useOperands ∧ o.reg = r ∧
    read.count = ((f.instrsOf read.block).take read.instr).countP fun j => !j.isDebugValue

theorem exists_names_iff {f : Function} {r : Reg} {b : BlockId} :
    (∃ read : LoopRead, read.block = b ∧ read.Names f r) ↔ ∃ i ∈ f.instrsOf b, i.Reads r := by
  constructor
  · rintro ⟨read, rfl, i, o, hi, hnot, ho, rfl, -⟩
    exact ⟨i, List.mem_of_getElem? hi, hnot, List.mem_map.mpr ⟨_, ho, rfl⟩⟩
  · rintro ⟨i, hi, hnot, hr⟩
    obtain ⟨instr, hinstr⟩ := List.mem_iff_getElem?.mp hi
    obtain ⟨⟨operand, o⟩, ho, rfl⟩ := List.mem_map.mp hr
    let before := ((f.instrsOf b).take instr).countP fun j => !j.isDebugValue
    exact ⟨⟨b, instr, operand, before⟩, rfl, i, o, hinstr, hnot, ho, rfl, rfl⟩

/-- In the same block, one read comes before another. -/
def Earlier (read read' : LoopRead) : Prop :=
  read.instr < read'.instr ∨ read.instr = read'.instr ∧ read.operand < read'.operand

/-- One read comes before another if the blocks of a list are gone through in order. -/
def Before (order : List BlockId) (read read' : LoopRead) : Prop :=
  [read.block, read'.block].Sublist order ∨ read.block = read'.block ∧ read.Earlier read'

end LoopRead

namespace LoopReads

variable {f : Function} {block : BlockId} {instrs : List Instr} {pos count : Nat} {r : Reg}
  {read : LoopRead}

theorem mem_readsFrom : (r, read) ∈ readsFrom block pos count instrs ↔
    ∃ k i o, instrs[k]? = some i ∧ i.isDebugValue = false ∧ (read.operand, o) ∈ i.useOperands ∧
      o.reg = r ∧ read.block = block ∧ read.instr = pos + k ∧
      read.count = count + (instrs.take k).countP fun j => !j.isDebugValue := by
  induction instrs generalizing pos count with
  | nil => simp [readsFrom]
  | cons i rest ih =>
    rw [readsFrom]
    by_cases hdebug : i.isDebugValue
    · rw [if_pos hdebug, ih]
      constructor
      · rintro ⟨k, j, o, hj, hnot, ho, hr, hblock, hinstr, hcount⟩
        refine ⟨k + 1, j, o, hj, hnot, ho, hr, hblock, by omega, ?_⟩
        simpa [hdebug] using hcount
      · rintro ⟨k, j, o, hj, hnot, ho, hr, hblock, hinstr, hcount⟩
        cases k with
        | zero => simp_all
        | succ k =>
          refine ⟨k, j, o, hj, hnot, ho, hr, hblock, by omega, ?_⟩
          simpa [hdebug] using hcount
    · rw [if_neg hdebug, List.mem_append, ih, List.mem_map]
      constructor
      · rintro (⟨⟨operand, o⟩, ho, heq⟩ | ⟨k, j, o, hj, hnot, ho, hr, hblock, hinstr, hcount⟩)
        · cases heq
          exact ⟨0, i, o, rfl, Bool.eq_false_iff.mpr hdebug, ho, rfl, rfl, rfl, by simp⟩
        · refine ⟨k + 1, j, o, hj, hnot, ho, hr, hblock, by omega, ?_⟩
          simp [hdebug, hcount]
          omega
      · rintro ⟨k, j, o, hj, hnot, ho, rfl, rfl, hinstr, hcount⟩
        cases k with
        | zero =>
          obtain rfl : i = j := by simpa using hj
          obtain ⟨block, instr, operand, count'⟩ := read
          obtain rfl : instr = pos := hinstr
          obtain rfl : count' = count := by simpa using hcount
          exact .inl ⟨(operand, o), ho, rfl⟩
        | succ k =>
          refine .inr ⟨k, j, o, hj, hnot, ho, rfl, rfl, by omega, ?_⟩
          simp [hdebug] at hcount
          omega

theorem pairwise_useOperands (i : Instr) : i.useOperands.Pairwise fun e e' => e.1 < e'.1 := by
  have hpos : i.operands.zipIdx.Pairwise fun e e' => e.2 < e'.2 := by
    rw [← List.pairwise_map, List.zipIdx_map_snd]
    exact List.pairwise_lt_range'
  have hfst : ∀ (e : Operand × Nat) b, (e.1.reg?.bind fun o =>
      if o.reg.isNone then none else some (e.2, o)) = some b → b.1 = e.2 := by
    intro e b hb
    obtain ⟨o, -, ho⟩ := Option.bind_eq_some_iff.mp hb
    split at ho <;> cases ho
    rfl
  refine .filter _ (List.pairwise_filterMap.mpr (hpos.imp fun {e e'} hlt b hb b' hb' => ?_))
  rw [hfst e b hb, hfst e' b' hb']
  exact hlt

theorem pairwise_readsFrom :
    (readsFrom block pos count instrs).Pairwise fun e e' => e.2.Earlier e'.2 := by
  induction instrs generalizing pos count with
  | nil => exact List.Pairwise.nil
  | cons i rest ih =>
    rw [readsFrom]
    split
    · exact ih
    · rw [List.pairwise_append]
      refine ⟨?_, ih, ?_⟩
      · exact List.pairwise_map.mpr ((pairwise_useOperands i).imp fun h => .inr ⟨rfl, h⟩)
      · rintro e he ⟨r', read'⟩ he'
        obtain ⟨⟨operand, o⟩, -, rfl⟩ := List.mem_map.mp he
        obtain ⟨k, -, -, -, -, -, -, -, hinstr, -⟩ := mem_readsFrom.1 he'
        exact .inl (show pos < read'.instr by omega)

/-- The reads of some blocks, in order. -/
def readsOf (f : Function) (order : List BlockId) : List (Reg × LoopRead) :=
  order.flatMap fun b => readsFrom b 0 0 (f.instrsOf b)

theorem mem_readsOf {order : List BlockId} :
    (r, read) ∈ readsOf f order ↔ read.block ∈ order ∧ read.Names f r := by
  simp only [readsOf, List.mem_flatMap, mem_readsFrom, LoopRead.Names]
  constructor
  · rintro ⟨b, hb, k, i, o, hi, hnot, ho, hr, rfl, hinstr, hcount⟩
    obtain rfl : read.instr = k := by omega
    exact ⟨hb, i, o, hi, hnot, ho, hr, by omega⟩
  · rintro ⟨hb, i, o, hi, hnot, ho, hr, hcount⟩
    exact ⟨_, hb, read.instr, i, o, hi, hnot, ho, hr, rfl, by omega, by omega⟩

theorem pairwise_readsOf {order : List BlockId} :
    (readsOf f order).Pairwise fun e e' => e.2.Before order e'.2 := by
  refine List.pairwise_flatMap.mpr ⟨fun b _ => ?_, ?_⟩
  · refine pairwise_readsFrom.imp_of_mem fun {e e'} he he' hearlier => .inr ⟨?_, hearlier⟩
    obtain ⟨-, -, -, -, -, -, -, hb, -⟩ := mem_readsFrom.1 he
    obtain ⟨-, -, -, -, -, -, -, hb', -⟩ := mem_readsFrom.1 he'
    exact hb.trans hb'.symm
  · refine List.pairwise_iff_forall_sublist.mpr fun {b b'} hsub e he e' he' => .inl ?_
    obtain ⟨-, -, -, -, -, -, -, hb, -⟩ := mem_readsFrom.1 he
    obtain ⟨-, -, -, -, -, -, -, hb', -⟩ := mem_readsFrom.1 he'
    rwa [hb, hb']

theorem ofReg_insert {t : LoopReads} {s : Reg} :
    ofReg (t.insert s.number read) r = if s = r then some read else ofReg t r := by
  rw [ofReg, ofReg, Std.TreeMap.get?_eq_getElem?, Std.TreeMap.getElem?_insert]
  simp only [Std.compare_eq_iff_eq, Reg.number_inj, Std.TreeMap.get?_eq_getElem?]

/-- The table that some reads make, one after the other. -/
def collect (reads : List (Reg × LoopRead)) : LoopReads :=
  reads.foldl (fun t (r, read) => t.insert r.number read) {}

/-- Of the reads of a register, the last one stays. -/
theorem ofReg_collect {reads : List (Reg × LoopRead)} {R : LoopRead → LoopRead → Prop}
    (hreads : reads.Pairwise fun e e' => R e.2 e'.2) :
    ((∃ read, (collect reads).ofReg r = some read) ↔ ∃ read, (r, read) ∈ reads) ∧
      ∀ read, (collect reads).ofReg r = some read →
        (r, read) ∈ reads ∧ ∀ read', (r, read') ∈ reads → read' = read ∨ R read' read := by
  induction reads using List.reverseRecOn with
  | nil => simp [collect, ofReg]
  | append_singleton reads e ih =>
    obtain ⟨s, last⟩ := e
    rw [List.pairwise_append] at hreads
    obtain ⟨hreads, -, hlast⟩ := hreads
    rw [collect, List.foldl_concat, ← collect, ofReg_insert]
    simp only [List.mem_append, List.mem_singleton, Prod.mk.injEq]
    by_cases hsr : s = r
    · subst hsr
      rw [if_pos rfl]
      refine ⟨⟨fun _ => ⟨last, .inr ⟨rfl, rfl⟩⟩, fun _ => ⟨last, rfl⟩⟩, ?_⟩
      rintro read heq
      obtain rfl := Option.some.inj heq
      refine ⟨.inr ⟨rfl, rfl⟩, fun read' hread' => ?_⟩
      rcases hread' with hread' | ⟨-, rfl⟩
      · exact .inr (hlast _ hread' _ List.mem_cons_self)
      · exact .inl rfl
    · simp only [if_neg hsr, Ne.symm hsr, false_and, or_false]
      exact ih hreads

/-- Going through the blocks of the walk finds their reads in order. -/
theorem mapM_readsIn {order : List BlockId} (hblocks : ∀ b ∈ order, f.hasBlock b) :
    (order.mapM fun id => do
      let b ← f.block id
      return readsIn id b) = .ok (order.map fun b => readsFrom b 0 0 (f.instrsOf b)) := by
  induction order with
  | nil => rfl
  | cons b order ih =>
    rw [List.forall_mem_cons] at hblocks
    obtain ⟨block, hblock, -⟩ := f.block_ok hblocks.1
    have hread : (do
        let c ← f.block b
        return readsIn b c) = Except.ok (readsFrom b 0 0 (f.instrsOf b)) := by
      rw [hblock, Function.instrsOf_eq hblock]
      rfl
    rw [List.mapM_cons, hread, ih hblocks.2]
    rfl

/-- With a reached header, looking through a loop collects the reads of the registers that the
header expects. -/
theorem visit_eq {tree : DomTree} {loop : Loop} {header : Block}
    (hheader : loop.contains loop.header) (htree : tree.contains loop.header)
    (hblock : f.block loop.header = .ok header)
    (hblocks : ∀ b ∈ tree.subtree loop.contains loop.header, f.hasBlock b) :
    visit {} f tree loop = .ok (collect
      ((readsOf f (tree.subtree loop.contains loop.header)).filter fun e =>
        header.liveIns.contains e.1)) := by
  unfold visit
  rw [if_neg (by simp), if_neg (by simp [hheader]), if_neg (by simp [htree]), hblock]
  by_cases hempty : header.liveIns.isEmpty
  · have hnone : ((readsOf f (tree.subtree loop.contains loop.header)).filter fun e =>
        header.liveIns.contains e.1) = [] := by
      simp [List.isEmpty_iff.mp hempty]
    rw [hnone]
    simp [hempty, bind, Except.bind, pure, Except.pure, collect]
  · have hmapM := mapM_readsIn hblocks
    simp only [bind, Except.bind, pure, Except.pure] at hmapM ⊢
    rw [if_neg hempty, hmapM]
    rfl

/-- The walk that looks through a loop with a reached header visits each reached block of the loop
once and no other block, in preorder of the dominator tree with siblings in function order, which is
the only such order. It finds a read of a register just when the header expects the register and an
instruction of such a block reads it, and then the last such read. -/
theorem visit_covers_loop (hnames : (f.blocks.map Block.id).Nodup) (hentry : f.hasBlock f.entry) :
    ∃ g, FlowGraph.ofFunction f = .ok g ∧
      ∀ lp ∈ (Loops.compute g).loops, f.Reaches lp.header →
        let order := (DomTree.ofGraph g).subtree lp.contains lp.header
        order.Nodup ∧ (∀ b, b ∈ order ↔ f.Reaches b ∧ lp.contains b) ∧ order.Pairwise f.Precedes ∧
        (∀ order' : List BlockId, order'.Perm order → order'.Pairwise f.Precedes → order' = order) ∧
        ∃ header reads, f.block lp.header = .ok header ∧
          visit {} f (DomTree.ofGraph g) lp = .ok reads ∧
          ∀ r, ((∃ read, reads.ofReg r = some read) ↔ r ∈ header.liveIns ∧
              ∃ b, f.Reaches b ∧ lp.contains b ∧ ∃ i ∈ f.instrsOf b, i.Reads r) ∧
            ∀ read, reads.ofReg r = some read → read.block ∈ order ∧ read.Names f r ∧
              ∀ read', read'.block ∈ order → read'.Names f r →
                read' = read ∨ read'.Before order read := by
  obtain ⟨g, hg, hflow⟩ := Function.exists_hasFlow hnames hentry
  refine ⟨g, hg, fun lp hlp hheader => ?_⟩
  intro order
  have horder : ∀ b, b ∈ order ↔ f.Reaches b ∧ lp.contains b := fun b =>
    DomTree.mem_subtree_iff hflow hlp hheader
  obtain ⟨header, hblock, -⟩ := f.block_ok (hheader.hasBlock hentry)
  have htree : (DomTree.ofGraph g).contains lp.header :=
    List.contains_iff_mem.mpr (hflow.mem_treeBlocks.mpr hheader)
  have hvisit := visit_eq (Loops.contains_header hlp) htree hblock
    fun b hb => ((horder b).mp hb).1.hasBlock hentry
  refine ⟨DomTree.nodup_subtree hflow hlp hheader, horder, DomTree.pairwise_subtree hflow,
    fun _ => DomTree.eq_subtree_of_perm hflow hlp hheader, header, _, hblock, hvisit, fun r => ?_⟩
  have hcarried : ∀ read, (r, read) ∈ (readsOf f order).filter (fun e =>
      header.liveIns.contains e.1) ↔ r ∈ header.liveIns ∧ read.block ∈ order ∧ read.Names f r := by
    intro read
    rw [List.mem_filter, mem_readsOf, List.contains_iff_mem, and_comm]
  have hpairwise : ((readsOf f order).filter fun e => header.liveIns.contains e.1).Pairwise
      fun e e' => e.2.Before order e'.2 := pairwise_readsOf.filter _
  obtain ⟨hsome, hlast⟩ := ofReg_collect (r := r) hpairwise
  refine ⟨?_, fun read hread => ?_⟩
  · rw [hsome]
    simp only [hcarried, exists_and_left]
    refine and_congr_right fun _ => ⟨?_, ?_⟩
    · rintro ⟨read, hb, hnames⟩
      obtain ⟨hreach, hmem⟩ := (horder _).mp hb
      exact ⟨read.block, hreach, hmem, LoopRead.exists_names_iff.mp ⟨read, rfl, hnames⟩⟩
    · rintro ⟨b, hreach, hmem, hread⟩
      obtain ⟨read, rfl, hnames⟩ := LoopRead.exists_names_iff.mpr hread
      exact ⟨read, (horder _).mpr ⟨hreach, hmem⟩, hnames⟩
  · obtain ⟨hmem, hbefore⟩ := hlast read hread
    obtain ⟨hr, hblock, hnames⟩ := (hcarried read).mp hmem
    exact ⟨hblock, hnames, fun read' hblock' hnames' =>
      hbefore read' ((hcarried read').mpr ⟨hr, hblock', hnames'⟩)⟩

/-- A loop of two blocks, whose header expects one of the two registers that its other block reads;
a block that is not reached is in the loop as well and reads the register later on. -/
theorem visit_loop_of_entry :
    let f : Function := { blocks := [
      { id := ⟨0⟩, successors := [⟨1⟩], liveIns := [⟨1⟩] },
      { id := ⟨1⟩, successors := [⟨0⟩], instrs := #[
        { opcode := "dbg", operands := [.reg { reg := ⟨1⟩ }], flags := { isDebugValue := true } },
        { opcode := "add", operands := [.reg { reg := ⟨3⟩, isDef := true }, .reg { reg := ⟨1⟩ },
          .reg { reg := ⟨2⟩ }] }] },
      { id := ⟨2⟩, successors := [⟨1⟩], instrs := #[
        { opcode := "use", operands := [.reg { reg := ⟨1⟩ }] }] }] }
    ∃ g, FlowGraph.ofFunction f = .ok g ∧ ∃ lp ∈ (Loops.compute g).loops, lp.header = ⟨0⟩ ∧
      ∃ reads, visit {} f (DomTree.ofGraph g) lp = .ok reads ∧
        (∃ read, reads.ofReg ⟨1⟩ = some read ∧ read.block ≠ ⟨2⟩) ∧ reads.ofReg ⟨2⟩ = none := by
  intro f
  obtain ⟨g, hg, hvisit⟩ := visit_covers_loop (f := f) (by decide) (by decide)
  obtain ⟨g', hg', hflow⟩ := Function.exists_hasFlow (f := f) (by decide) (by decide)
  obtain rfl : g = g' := Except.ok.inj (hg.symm.trans hg')
  have h01 : f.Edge ⟨0⟩ ⟨1⟩ := ⟨f.blocks[0], by decide, rfl, by decide, by decide⟩
  have h10 : f.Edge ⟨1⟩ ⟨0⟩ := ⟨f.blocks[1], by decide, rfl, by decide, by decide⟩
  have hzero : f.Reaches ⟨0⟩ := ⟨_, .stay _⟩
  have hone : f.Reaches ⟨1⟩ := hzero.tail h01
  have hunentered : ∀ block ∈ f.blocks, ⟨2⟩ ∉ block.successors := by decide
  have htwo : ¬f.Reaches ⟨2⟩ := by
    intro h
    rcases h.eq_or_entered with heq | ⟨a, block, hblock, -, hsucc, -⟩
    · cases heq
    · exact hunentered block hblock hsucc
  have hcloses : Loops.Closes g ⟨1⟩ ⟨0⟩ :=
    ⟨hflow.arc ▸ h10, (hflow.dominates_iff hone).mpr fun _ hway => hway.first_mem⟩
  obtain ⟨lp, hlp, hheader⟩ := (Loops.exists_loop_iff hflow.searched.names).mpr ⟨_, hcloses⟩
  have hmem : lp.contains ⟨1⟩ := (Loops.contains_iff hflow hlp).mpr
    (.inr ⟨⟨1⟩, hheader ▸ hcloses, .refl (hheader ▸ by decide)⟩)
  obtain ⟨-, horder, -, -, header, reads, hblock, hreads, hfound⟩ := hvisit lp hlp (hheader ▸ hzero)
  obtain rfl : f.blocks[0] = header := by
    rw [hheader] at hblock
    exact Except.ok.inj hblock
  refine ⟨g, hg, lp, hlp, hheader, reads, hreads, ?_, ?_⟩
  · obtain ⟨read, hread⟩ := (hfound ⟨1⟩).1.mpr ⟨List.mem_cons_self, ⟨1⟩, hone, hmem,
      f.blocks[1].instrs[1], List.mem_of_getElem? (i := 1) rfl, rfl, by decide⟩
    refine ⟨read, hread, fun heq => htwo ?_⟩
    exact heq ▸ ((horder _).mp ((hfound ⟨1⟩).2 read hread).1).1
  · refine Option.eq_none_iff_forall_ne_some.mpr fun read hread => ?_
    exact absurd ((hfound ⟨2⟩).1.mp ⟨read, hread⟩).1 (by decide)

end LoopReads

end Precedence
