import Mathlib.Algebra.Order.BigOperators.Group.List
import Precedence.Proofs.Flow.Dominance
import Precedence.Proofs.Flow.LiveWays

/-!
Liveness. The passes over the blocks only ever add registers, and add none that is not read first on
some way on; so they come to an end, and then the set of each reachable block holds all such
registers.
-/
namespace Precedence

namespace Liveness

variable {f : Function} {succs : BlockId → List BlockId} {blocks : List BlockId} {l l' : Liveness}
  {b c : BlockId} {r : Reg}

def outOf (l : Liveness) (b : BlockId) : RegSet := (l.liveOut.get? b.number).getD .empty

/-- What is live at the end of a block, if `l` is right about its successors. -/
def outFrom (succs : BlockId → List BlockId) (l : Liveness) (b : BlockId) : RegSet :=
  (succs b).foldl (fun s succ => s.union (l.inOf succ)) .empty

/-- What is live at the start of a block, if `l` is right about its successors. -/
def inFrom (f : Function) (succs : BlockId → List BlockId) (l : Liveness) (b : BlockId) : RegSet :=
  liveBeforeAll (outFrom succs l b) (f.instrsOf b)

theorem visit_eq : visit f succs l b =
    { liveIn := l.liveIn.insert b.number (inFrom f succs l b)
      liveOut := l.liveOut.insert b.number (outFrom succs l b) } :=
  rfl

theorem inOf_visit :
    (visit f succs l b).inOf c = if b = c then inFrom f succs l b else l.inOf c := by
  rw [visit_eq, inOf, Std.TreeMap.get?_eq_getElem?, Std.TreeMap.getElem?_insert]
  simp only [Std.compare_eq_iff_eq, BlockId.number_inj]
  split <;> rfl

theorem outOf_visit :
    (visit f succs l b).outOf c = if b = c then outFrom succs l b else l.outOf c := by
  rw [visit_eq, outOf, Std.TreeMap.get?_eq_getElem?, Std.TreeMap.getElem?_insert]
  simp only [Std.compare_eq_iff_eq, BlockId.number_inj]
  split <;> rfl

theorem mem_outFrom : r ∈ (outFrom succs l b).regs ↔ ∃ c ∈ succs b, r ∈ (l.inOf c).regs := by
  rw [outFrom, RegSet.mem_foldl_union]
  simp [RegSet.empty]

/-- No set of `l` has a register that the set of `l'` lacks. -/
structure Within (l l' : Liveness) : Prop where
  inOf : ∀ b, (l.inOf b).regs ⊆ (l'.inOf b).regs
  outOf : ∀ b, (l.outOf b).regs ⊆ (l'.outOf b).regs

theorem Within.refl : Within l l := ⟨fun _ => List.Subset.refl _, fun _ => List.Subset.refl _⟩

theorem Within.trans {l'' : Liveness} (h : Within l l') (h' : Within l' l'') : Within l l'' :=
  ⟨fun b => List.Subset.trans (h.inOf b) (h'.inOf b),
    fun b => List.Subset.trans (h.outOf b) (h'.outOf b)⟩

theorem Within.outFrom (h : Within l l') : (outFrom succs l b).regs ⊆ (outFrom succs l' b).regs := by
  intro r hr
  obtain ⟨c, hc, hr⟩ := mem_outFrom.mp hr
  exact mem_outFrom.mpr ⟨c, hc, h.inOf c hr⟩

/-- Every block of the function has its sets. -/
structure Keyed (f : Function) (l : Liveness) : Prop where
  liveIn : ∀ n, l.liveIn.contains n ↔ ∃ b ∈ f.blocks, b.id.number = n
  liveOut : ∀ n, l.liveOut.contains n ↔ ∃ b ∈ f.blocks, b.id.number = n

theorem Keyed.visit (h : Keyed f l) (hnamed : ∃ block ∈ f.blocks, block.id = b) :
    Keyed f (visit f succs l b) := by
  have hkey : ∀ n, b.number = n → ∃ block ∈ f.blocks, block.id.number = n := by
    rintro n rfl
    obtain ⟨block, hblock, rfl⟩ := hnamed
    exact ⟨block, hblock, rfl⟩
  constructor <;> intro n
  · rw [visit_eq, Std.TreeMap.contains_insert, Bool.or_eq_true, h.liveIn, beq_iff_eq,
      Std.compare_eq_iff_eq, or_iff_right_of_imp (hkey n)]
  · rw [visit_eq, Std.TreeMap.contains_insert, Bool.or_eq_true, h.liveOut, beq_iff_eq,
      Std.compare_eq_iff_eq, or_iff_right_of_imp (hkey n)]

/-- What holds after any number of visits to the blocks of a list: the sets would only grow if their
blocks were visited next, they hold physical registers that are read first on some way on, and those
of other blocks are empty. -/
structure Partial (f : Function) (succs : BlockId → List BlockId) (blocks : List BlockId)
    (l : Liveness) : Prop where
  keyed : Keyed f l
  growsIn : ∀ b, (l.inOf b).regs ⊆ (inFrom f succs l b).regs
  growsOut : ∀ b, (l.outOf b).regs ⊆ (outFrom succs l b).regs
  physical : ∀ b, ∀ r ∈ (l.inOf b).regs, r.isVirtual = false
  live : ∀ b, ∀ r ∈ (l.inOf b).regs, f.Live r b
  untouched : ∀ b, b ∉ blocks → l.inOf b = .empty ∧ l.outOf b = .empty

namespace Partial

theorem physical_inFrom (h : Partial f succs blocks l) (hr : r ∈ (inFrom f succs l b).regs) :
    r.isVirtual = false := by
  refine isVirtual_of_mem_liveBeforeAll (fun r hr => ?_) hr
  obtain ⟨c, -, hr⟩ := mem_outFrom.mp hr
  exact h.physical c r hr

theorem mem_inFrom (hr : r.isVirtual = false) : r ∈ (inFrom f succs l b).regs ↔
    ReadsFirst r (f.instrsOf b) ∨
      (∃ c ∈ succs b, r ∈ (l.inOf c).regs) ∧ ∀ i ∈ f.instrsOf b, ¬i.Writes r := by
  rw [inFrom, mem_liveBeforeAll hr, mem_outFrom]

theorem inFrom_subset (h : Partial f succs blocks l) (hle : Within l l') :
    (inFrom f succs l b).regs ⊆ (inFrom f succs l' b).regs := by
  intro r hr
  have hphys := h.physical_inFrom hr
  rw [mem_inFrom hphys] at hr ⊢
  exact hr.imp_right fun ⟨⟨c, hc, hr⟩, hnone⟩ => ⟨⟨c, hc, hle.inOf c hr⟩, hnone⟩

theorem live_of_mem_inFrom (h : Partial f succs blocks l) (hsuccs : ∀ a c, c ∈ succs a ↔ f.Edge a c)
    (hr : r ∈ (inFrom f succs l b).regs) : f.Live r b := by
  rw [mem_inFrom (h.physical_inFrom hr)] at hr
  refine Function.live_iff.mpr (hr.imp_right fun ⟨⟨c, hc, hr⟩, hnone⟩ => ?_)
  exact ⟨hnone, c, (hsuccs b c).mp hc, h.live c r hr⟩

theorem within_visit (h : Partial f succs blocks l) : Within l (visit f succs l b) where
  inOf c := by
    rw [inOf_visit]
    split
    next heq => exact heq ▸ h.growsIn b
    next => exact List.Subset.refl _
  outOf c := by
    rw [outOf_visit]
    split
    next heq => exact heq ▸ h.growsOut b
    next => exact List.Subset.refl _

theorem visit (hsuccs : ∀ a c, c ∈ succs a ↔ f.Edge a c) (h : Partial f succs blocks l)
    (hb : b ∈ blocks) (hnamed : ∃ block ∈ f.blocks, block.id = b) :
    Partial f succs blocks (visit f succs l b) := by
  have hle : Within l (Liveness.visit f succs l b) := h.within_visit
  refine ⟨h.keyed.visit hnamed, fun c => ?_, fun c => ?_, fun c r hr => ?_, fun c r hr => ?_,
    fun c hc => ?_⟩
  · rw [inOf_visit]
    split
    next heq => exact heq ▸ h.inFrom_subset hle
    next => exact List.Subset.trans (h.growsIn c) (h.inFrom_subset hle)
  · rw [outOf_visit]
    split
    next heq => exact heq ▸ hle.outFrom
    next => exact List.Subset.trans (h.growsOut c) hle.outFrom
  · rw [inOf_visit] at hr
    split at hr
    next => exact h.physical_inFrom hr
    next => exact h.physical c r hr
  · rw [inOf_visit] at hr
    split at hr
    next heq => exact heq ▸ h.live_of_mem_inFrom hsuccs hr
    next => exact h.live c r hr
  · have hne : b ≠ c := fun heq => hc (heq ▸ hb)
    rw [inOf_visit, outOf_visit, if_neg hne, if_neg hne]
    exact h.untouched c hc

/-- A pass over some of the blocks adds to each of them all that a visit would have added before. -/
theorem pass (hsuccs : ∀ a c, c ∈ succs a ↔ f.Edge a c) (h : Partial f succs blocks l)
    {bs : List BlockId} (hbs : bs ⊆ blocks)
    (hnamed : ∀ b ∈ blocks, ∃ block ∈ f.blocks, block.id = b) :
    Partial f succs blocks (pass f succs bs l) ∧ Within l (pass f succs bs l) ∧
      ∀ b ∈ bs, (inFrom f succs l b).regs ⊆ ((Liveness.pass f succs bs l).inOf b).regs ∧
        (outFrom succs l b).regs ⊆ ((Liveness.pass f succs bs l).outOf b).regs := by
  induction bs generalizing l with
  | nil => exact ⟨h, .refl, by simp⟩
  | cons b bs ih =>
    rw [List.cons_subset] at hbs
    have hvisit := h.visit hsuccs hbs.1 (hnamed b hbs.1)
    have hle : Within l (Liveness.visit f succs l b) := h.within_visit
    obtain ⟨hrest, hle', hcovers⟩ := ih hvisit hbs.2
    rw [show Liveness.pass f succs (b :: bs) l =
      Liveness.pass f succs bs (Liveness.visit f succs l b) from rfl]
    refine ⟨hrest, hle.trans hle', List.forall_mem_cons.mpr ⟨⟨?_, ?_⟩, fun c hc => ⟨?_, ?_⟩⟩⟩
    · refine List.Subset.trans ?_ (hle'.inOf b)
      rw [inOf_visit, if_pos rfl]
      exact List.Subset.refl _
    · refine List.Subset.trans ?_ (hle'.outOf b)
      rw [outOf_visit, if_pos rfl]
      exact List.Subset.refl _
    · exact List.Subset.trans (h.inFrom_subset hle) (hcovers c hc).1
    · exact List.Subset.trans hle.outFrom (hcovers c hc).2

theorem start (hnames : (f.blocks.map Block.id).Nodup) : Partial f succs blocks (start f) := by
  have hget : ∀ n s, (Liveness.start f).liveIn.get? n = some s → s = .empty := by
    intro n s hs
    rw [Liveness.start, Table.get?_foldl_insert (BlockId.nodup_numbers hnames)] at hs
    obtain ⟨-, -, -, rfl⟩ | ⟨-, hs⟩ := hs
    · rfl
    · simp at hs
  have hin : ∀ b, (Liveness.start f).inOf b = .empty := by
    intro b
    cases hb : (Liveness.start f).liveIn.get? b.number with
    | none => rw [inOf, hb, Option.getD_none]
    | some s => rw [inOf, hb, Option.getD_some, hget _ s hb]
  have hout : ∀ b, (Liveness.start f).outOf b = .empty := hin
  have hkeyed : ∀ n, (Liveness.start f).liveIn.contains n ↔ ∃ b ∈ f.blocks, b.id.number = n := by
    intro n
    rw [Liveness.start, Table.contains_foldl_insert]
    simp
  refine ⟨⟨hkeyed, hkeyed⟩, ?_, ?_, ?_, ?_, fun b _ => ⟨hin b, hout b⟩⟩ <;>
    simp [hin, hout, RegSet.empty]

end Partial

/-! The end of the passes -/

/-- How many registers the sets of the blocks hold in all. -/
def size (f : Function) (l : Liveness) : Nat :=
  (f.blocks.map fun b => (l.inOf b.id).regs.length + (l.outOf b.id).regs.length).sum

/-- Only registers that operands name can be live, so there is a bound on the sets. -/
theorem Partial.size_le (h : Partial f succs blocks l) : size f l ≤ rounds f := by
  have hin : ∀ b, (l.inOf b).regs.length ≤ f.namedRegs.length := fun b =>
    RegSet.length_le fun r hr => (h.live b r hr).mem_namedRegs
  have hout : ∀ b, (l.outOf b).regs.length ≤ f.namedRegs.length := fun b =>
    RegSet.length_le fun r hr => by
      obtain ⟨c, -, hr⟩ := mem_outFrom.mp (h.growsOut b hr)
      exact (h.live c r hr).mem_namedRegs
  set operands := f.blocks.flatMap fun b => b.instrs.toList.flatMap fun i => i.operands with hops
  have hnamed : f.namedRegs.length ≤ operands.length := List.length_filterMap_le _ _
  have hblock : ∀ n ∈ f.blocks.map (fun b =>
      (l.inOf b.id).regs.length + (l.outOf b.id).regs.length), n ≤ 2 * operands.length := by
    intro n hn
    obtain ⟨b, -, rfl⟩ := List.mem_map.mp hn
    have hin := hin b.id
    have hout := hout b.id
    omega
  have hsum := List.sum_le_card_nsmul _ _ hblock
  rw [List.length_map, smul_eq_mul] at hsum
  calc size f l ≤ f.blocks.length * (2 * operands.length) := hsum
    _ ≤ rounds f := by
        rw [rounds, ← hops, Nat.mul_left_comm, Nat.mul_assoc]
        exact Nat.le_succ _

theorem toList_eq {t t' : Table RegSet} (hkeys : ∀ n, t.contains n ↔ t'.contains n)
    (hsets : ∀ n, t.contains n → (t.get? n).getD .empty = (t'.get? n).getD .empty) :
    t.toList = t'.toList := by
  refine (Std.TreeMap.Equiv.of_forall_constGet?_eq fun n => ?_).toList_eq
  have hkey := hkeys n
  have hset := hsets n
  simp only [Std.TreeMap.contains_eq_isSome_getElem?, Std.TreeMap.get?_eq_getElem?] at hkey hset
  cases h : t[n]? <;> cases h' : t'[n]? <;> simp_all

theorem agrees_of_eq (hl : Keyed f l) (hl' : Keyed f l')
    (h : ∀ b ∈ f.blocks, l.inOf b.id = l'.inOf b.id ∧ l.outOf b.id = l'.outOf b.id) :
    l'.agrees l := by
  simp only [agrees, Bool.and_eq_true, beq_iff_eq]
  constructor
  · refine (toList_eq (fun n => (hl.liveIn n).trans (hl'.liveIn n).symm) fun n hn => ?_).symm
    obtain ⟨b, hb, rfl⟩ := (hl.liveIn n).mp hn
    exact (h b hb).1
  · refine (toList_eq (fun n => (hl.liveOut n).trans (hl'.liveOut n).symm) fun n hn => ?_).symm
    obtain ⟨b, hb, rfl⟩ := (hl.liveOut n).mp hn
    exact (h b hb).2

theorem eq_of_agrees (h : l'.agrees l) (b : BlockId) :
    l.inOf b = l'.inOf b ∧ l.outOf b = l'.outOf b := by
  simp only [agrees, Bool.and_eq_true, beq_iff_eq, ← Std.TreeMap.equiv_iff_toList_eq] at h
  simp only [inOf, outOf, Std.TreeMap.get?_eq_getElem?, h.1.getElem?_eq, h.2.getElem?_eq, and_self]

/-- Sets that grow and do not stay the same become larger. -/
theorem size_lt (hl : Keyed f l) (hl' : Keyed f l') (hle : Within l l') (h : ¬l'.agrees l) :
    size f l < size f l' := by
  have hin : ∀ b, (l.inOf b).regs.length ≤ (l'.inOf b).regs.length := fun b =>
    RegSet.length_le (hle.inOf b)
  have hout : ∀ b, (l.outOf b).regs.length ≤ (l'.outOf b).regs.length := fun b =>
    RegSet.length_le (hle.outOf b)
  refine List.sum_lt_sum _ _ (fun b _ => Nat.add_le_add (hin b.id) (hout b.id)) ?_
  by_contra hnone
  push Not at hnone
  refine h (agrees_of_eq hl hl' fun b hb => ?_)
  have hsum := hnone b hb
  have hin := hin b.id
  have hout := hout b.id
  exact ⟨RegSet.eq_of_subset (hle.inOf _) (by omega), RegSet.eq_of_subset (hle.outOf _) (by omega)⟩

section

variable (hsuccs : ∀ a c, c ∈ succs a ↔ f.Edge a c)
  (hnamed : ∀ b ∈ blocks, ∃ block ∈ f.blocks, block.id = b)
include hsuccs hnamed

/-- With as many rounds as the sets can still take registers, the passes go on until one of them
changes nothing. -/
theorem Partial.settle {left : Nat} (h : Partial f succs blocks l) (hleft : rounds f ≤ size f l + left) :
    Partial f succs blocks (settle f succs blocks left l) ∧
      (Liveness.pass f succs blocks (settle f succs blocks left l)).agrees
        (settle f succs blocks left l) := by
  induction left generalizing l with
  | zero =>
    obtain ⟨hpass, hle, -⟩ := h.pass hsuccs (List.Subset.refl blocks) hnamed
    refine ⟨h, ?_⟩
    by_contra hchanged
    have hlt := size_lt h.keyed hpass.keyed hle hchanged
    have hmost := hpass.size_le
    omega
  | succ left ih =>
    obtain ⟨hpass, hle, -⟩ := h.pass hsuccs (List.Subset.refl blocks) hnamed
    rw [Liveness.settle]
    by_cases hsame : (Liveness.pass f succs blocks l).agrees l
    · rw [if_pos hsame]
      exact ⟨h, hsame⟩
    · rw [if_neg hsame]
      have hlt := size_lt h.keyed hpass.keyed hle hsame
      exact ih hpass (by omega)

/-- When a pass changes nothing, the sets of the blocks that it goes over are what a visit makes
of them. -/
theorem Partial.eq_of_agrees (h : Partial f succs blocks l)
    (hsame : (Liveness.pass f succs blocks l).agrees l) (hb : b ∈ blocks) :
    (r ∈ (l.inOf b).regs ↔ r ∈ (inFrom f succs l b).regs) ∧
      (r ∈ (l.outOf b).regs ↔ r ∈ (outFrom succs l b).regs) := by
  obtain ⟨-, -, hcovers⟩ := h.pass hsuccs (List.Subset.refl blocks) hnamed
  obtain ⟨hin, hout⟩ := Liveness.eq_of_agrees hsame b
  obtain ⟨hcin, hcout⟩ := hcovers b hb
  rw [← hin] at hcin
  rw [← hout] at hcout
  exact ⟨⟨fun hr => h.growsIn b hr, fun hr => hcin hr⟩,
    fun hr => h.growsOut b hr, fun hr => hcout hr⟩

/-- Then no register is missed that is read first on some way on. -/
theorem Partial.mem_of_live (h : Partial f succs blocks l)
    (hsame : (Liveness.pass f succs blocks l).agrees l)
    (hclosed : ∀ a ∈ blocks, ∀ c, f.Edge a c → c ∈ blocks) (hr : r.isVirtual = false)
    (hb : b ∈ blocks) (hlive : f.Live r b) : r ∈ (l.inOf b).regs := by
  obtain ⟨d, way, hway, hreads⟩ := hlive
  induction hway with
  | stay b =>
    rw [(h.eq_of_agrees hsuccs hnamed hsame hb).1, mem_inFrom hr]
    exact .inl (by simpa using hreads)
  | @go b c d way hedge hway ih =>
    rw [List.flatMap_cons, readsFirst_append] at hreads
    rw [(h.eq_of_agrees hsuccs hnamed hsame hb).1, mem_inFrom hr]
    refine hreads.imp_right fun ⟨hnone, hreads⟩ => ⟨⟨c, (hsuccs b c).mpr hedge, ?_⟩, hnone⟩
    exact ih (hclosed b hb c hedge) hreads

end

theorem Keyed.get?_eq (h : Keyed f l) {block : Block} (hblock : block ∈ f.blocks) :
    l.liveIn.get? block.id.number = some (l.inOf block.id) ∧
      l.liveOut.get? block.id.number = some (l.outOf block.id) := by
  have hin := (h.liveIn _).mpr ⟨block, hblock, rfl⟩
  have hout := (h.liveOut _).mpr ⟨block, hblock, rfl⟩
  rw [Std.TreeMap.contains_eq_isSome_getElem?, ← Std.TreeMap.get?_eq_getElem?,
    Option.isSome_iff_exists] at hin hout
  obtain ⟨s, hs⟩ := hin
  obtain ⟨s', hs'⟩ := hout
  exact ⟨by rw [inOf, hs, Option.getD_some], by rw [outOf, hs', Option.getD_some]⟩

/-- The passes over the reachable blocks of a function come to an end. -/
theorem partial_compute {g : FlowGraph} (h : f.HasFlow g)
    (hsuccs : ∀ a c, c ∈ g.succTable.listAt a.number ↔ f.Edge a c)
    (hnamed : ∀ b ∈ g.postOrder, ∃ block ∈ f.blocks, block.id = b) :
    Partial f (fun b => g.succTable.listAt b.number) g.postOrder (compute f g) ∧
      (pass f (fun b => g.succTable.listAt b.number) g.postOrder (compute f g)).agrees
        (compute f g) :=
  (Partial.start h.names).settle hsuccs hnamed (Nat.le_add_left _ _)

end Liveness

namespace Function

variable {f : Function}

/-- The passes over the blocks of a function end when one of them changes nothing. What is found then
is liveness by ways: a register is live at the start of a reachable block just when it is a physical
one and some way on from there reads it before it is written, and live at its end just when it is
live at the start of a successor. Nothing is live in the other blocks. Each block takes the ascending
list of what is live at its start. -/
theorem liveness_exact (hnames : (f.blocks.map Block.id).Nodup) (hentry : f.hasBlock f.entry) :
    ∃ g, FlowGraph.ofFunction f = .ok g ∧
      let l := Liveness.compute f g
      (Liveness.pass f (fun b => g.succTable.listAt b.number) g.postOrder l).agrees l ∧
      (∀ b ∈ f.blocks, l.liveIn.get? b.id.number = some (l.inOf b.id) ∧
        l.liveOut.get? b.id.number = some (l.outOf b.id)) ∧
      (∀ b, f.Reaches b → ∀ r,
        (r ∈ (l.inOf b).regs ↔ r.isVirtual = false ∧ f.Live r b) ∧
        (r ∈ (l.outOf b).regs ↔ ∃ c, f.Edge b c ∧ r ∈ (l.inOf c).regs)) ∧
      (∀ b, ¬f.Reaches b → l.inOf b = .empty ∧ l.outOf b = .empty) ∧
      (∀ b, (l.inOf b).regs.Pairwise fun r s => r.number < s.number) ∧
      l.applyLiveIns f =
        { f with blocks := f.blocks.map fun b => { b with liveIns := (l.inOf b.id).regs } } := by
  obtain ⟨g, hg, hflow⟩ := exists_hasFlow hnames hentry
  have hsuccs : ∀ a c, c ∈ g.succTable.listAt a.number ↔ f.Edge a c := fun a c => hflow.mem_succs
  have hnamed : ∀ b ∈ g.postOrder, ∃ block ∈ f.blocks, block.id = b := fun b hb => by
    simpa [hasBlock] using (hflow.mem_postOrder.mp hb).hasBlock hentry
  obtain ⟨hpartial, hsame⟩ := Liveness.partial_compute hflow hsuccs hnamed
  refine ⟨g, hg, hsame, fun b hb => hpartial.keyed.get?_eq hb,
    fun b hb r => ⟨⟨fun hr => ?_, ?_⟩, ?_⟩, fun b hb => ?_, fun b => RegSet.ascending _, ?_⟩
  · exact ⟨hpartial.physical b r hr, hpartial.live b r hr⟩
  · rintro ⟨hr, hlive⟩
    refine hpartial.mem_of_live hsuccs hnamed hsame (fun a ha c hac => ?_) hr
      (hflow.mem_postOrder.mpr hb) hlive
    exact hflow.mem_postOrder.mpr ((hflow.mem_postOrder.mp ha).tail hac)
  · rw [(hpartial.eq_of_agrees hsuccs hnamed hsame (hflow.mem_postOrder.mpr hb)).2,
      Liveness.mem_outFrom]
    simp only [hsuccs]
  · exact hpartial.untouched b (mt hflow.mem_postOrder.mp hb)
  · unfold Liveness.applyLiveIns
    congr 1
    refine List.map_congr_left fun b hb => ?_
    rw [(hpartial.keyed.get?_eq hb).1]

/-- A register that is written in front of a loop, and in the loop written and, by the same
instruction, read; a debug value and an operand marked undefined name others, and a block that is not
reached reads one. -/
theorem liveness_around_loop :
    let f : Function := { blocks := [
      { id := ⟨0⟩, successors := [⟨1⟩], instrs := #[
        { opcode := "mov", operands := [.reg { reg := ⟨1⟩, isDef := true }] }] },
      { id := ⟨1⟩, successors := [⟨1⟩, ⟨9⟩], instrs := #[
        { opcode := "dbg", operands := [.reg { reg := ⟨5⟩ }], flags := { isDebugValue := true } },
        { opcode := "add", operands := [.reg { reg := ⟨1⟩, isDef := true }, .reg { reg := ⟨1⟩ },
          .reg { reg := ⟨6⟩, isUndefined := true }] }] },
      { id := ⟨2⟩, successors := [⟨1⟩], instrs := #[
        { opcode := "ret", operands := [.reg { reg := ⟨7⟩ }] }] }] }
    ∃ g, FlowGraph.ofFunction f = .ok g ∧
      ⟨1⟩ ∈ ((Liveness.compute f g).inOf ⟨1⟩).regs ∧ ⟨1⟩ ∈ ((Liveness.compute f g).outOf ⟨0⟩).regs ∧
      ⟨1⟩ ∉ ((Liveness.compute f g).inOf ⟨0⟩).regs ∧
      (Liveness.compute f g).inOf ⟨2⟩ = .empty := by
  intro f
  obtain ⟨g, hg, -, -, hlive, hempty, -⟩ := liveness_exact (f := f) (by decide) (by decide)
  have hedge : f.Edge ⟨0⟩ ⟨1⟩ := ⟨f.blocks[0], by decide, rfl, by decide, by decide⟩
  have hzero : f.Reaches ⟨0⟩ := ⟨_, .stay _⟩
  have hread : f.Live ⟨1⟩ ⟨1⟩ := by
    refine live_iff.mpr (.inl ⟨[f.blocks[1].instrs[0]], f.blocks[1].instrs[1], [], rfl, ?_, ?_⟩)
    · exact ⟨rfl, by decide⟩
    · simp [f, Instr.Writes, Instr.isDebugValue]
  have hone := ((hlive ⟨1⟩ (hzero.tail hedge) ⟨1⟩).1).mpr ⟨rfl, hread⟩
  refine ⟨g, hg, hone, ((hlive ⟨0⟩ hzero ⟨1⟩).2).mpr ⟨⟨1⟩, hedge, hone⟩, fun h => ?_,
    (hempty ⟨2⟩ fun h => ?_).1⟩
  · -- the first instruction of the entry writes it without reading it
    have hwrite : (f.blocks[0].instrs[0]).Writes ⟨1⟩ := ⟨rfl, by decide⟩
    have hnoread : ¬(f.blocks[0].instrs[0]).Reads ⟨1⟩ := fun h => absurd h.2 (by decide)
    rcases live_iff.mp (((hlive ⟨0⟩ hzero ⟨1⟩).1).mp h).2 with h | ⟨h, -⟩
    · rcases readsFirst_cons.mp h with h | ⟨h, -⟩
      · exact hnoread h
      · exact h hwrite
    · exact h _ List.mem_cons_self hwrite
  · have hnone : ∀ block ∈ f.blocks, ⟨2⟩ ∉ block.successors := by decide
    rcases h.eq_or_entered with heq | ⟨a, block, hblock, -, hsucc, -⟩
    · cases heq
    · exact hnone block hblock hsucc

end Function

end Precedence
