import Mathlib.Order.Nat
import Precedence.Region

/-!
The regions that a block is cut into. They lie between its boundaries in program order, none of them can
be made longer, and together they hold every instruction that is not a boundary.
-/
namespace Precedence

namespace Region

/-- The position is one of the region's. -/
def Holds (r : Region) (pos : Nat) : Prop := r.start ≤ pos ∧ pos < r.stop

/-- A region as blocks are cut into them: some instructions of the block and no boundary. -/
structure Plain (r : Region) (b : Block) : Prop where
  block : r.block = b.id
  start_lt : r.start < r.stop
  stop_le : r.stop ≤ b.instrs.size
  inside : ∀ pos i, r.start ≤ pos → pos < r.stop → b.instrs[pos]? = some i → ¬i.isBoundary

/-- The region goes as far as it can: what stands right before or right behind it, if anything does, is
a boundary. -/
structure Maximal (r : Region) (b : Block) : Prop where
  before : ∀ pos i, pos + 1 = r.start → b.instrs[pos]? = some i → i.isBoundary
  behind : ∀ i, r.exitInstr b = some i → i.isBoundary

theorem Plain.exists_instr {r : Region} {b : Block} (h : r.Plain b) {pos : Nat} (hpos : r.Holds pos) :
    ∃ i, b.instrs[pos]? = some i ∧ ¬i.isBoundary := by
  have hi := Array.getElem?_eq_getElem (hpos.2.trans_le h.stop_le)
  exact ⟨_, hi, h.inside pos _ hpos.1 hpos.2 hi⟩

end Region

namespace Block

variable {b : Block} {start pos : Nat} {regions : List Region}

/-- The block from `start` on is cut into these regions. A boundary, at least, stands between two of
them, and their positions are those of the instructions that are not boundaries. -/
structure CutInto (b : Block) (start : Nat) (regions : List Region) : Prop where
  plain : ∀ r ∈ regions, r.Plain b
  maximal : ∀ r ∈ regions, r.Maximal b
  ascending : regions.Pairwise fun r r' => r.stop < r'.start
  covers : ∀ pos, (∃ r ∈ regions, r.Holds pos) ↔
    start ≤ pos ∧ ∃ i, b.instrs[pos]? = some i ∧ ¬i.isBoundary

theorem CutInto.start_le (h : b.CutInto start regions) {r : Region} (hr : r ∈ regions) :
    start ≤ r.start :=
  ((h.covers r.start).mp ⟨r, hr, le_rfl, (h.plain r hr).start_lt⟩).1

theorem cutInto_end : b.CutInto (b.instrs.size + 1) [] where
  plain := by simp
  maximal := by simp
  ascending := .nil
  covers pos := by
    have hnone : b.instrs.size + 1 ≤ pos → b.instrs[pos]? = none := fun h =>
      Array.getElem?_eq_none (by omega)
    simp +contextual [hnone]

/-- A piece between two boundaries, or between a boundary and an end of the block, comes before what
the block is cut into from there on. -/
theorem CutInto.cut_append (h : b.CutInto (pos + 1) regions) (hle : start ≤ pos)
    (hpos : pos ≤ b.instrs.size)
    (hbefore : ∀ p i, p + 1 = start → b.instrs[p]? = some i → i.isBoundary)
    (hopen : ∀ p i, start ≤ p → p < pos → b.instrs[p]? = some i → ¬i.isBoundary)
    (hend : ∀ i, b.instrs[pos]? = some i → i.isBoundary) :
    b.CutInto start (cut b.id start pos ++ regions) := by
  have hmem : ∀ r, r ∈ cut b.id start pos ↔ start < pos ∧ r = ⟨b.id, start, pos⟩ := by
    intro r
    unfold cut
    split <;> simp [*]
  refine ⟨fun r hr => ?_, fun r hr => ?_, ?_, fun p => ⟨?_, ?_⟩⟩
  · rcases List.mem_append.mp hr with hr | hr
    · obtain ⟨hlt, rfl⟩ := (hmem r).mp hr
      exact ⟨rfl, hlt, hpos, hopen⟩
    · exact h.plain r hr
  · rcases List.mem_append.mp hr with hr | hr
    · obtain ⟨-, rfl⟩ := (hmem r).mp hr
      exact ⟨hbefore, hend⟩
    · exact h.maximal r hr
  · refine List.pairwise_append.mpr ⟨?_, h.ascending, fun r hr r' hr' => ?_⟩
    · unfold cut
      split <;> simp
    · obtain ⟨-, rfl⟩ := (hmem r).mp hr
      exact h.start_le hr'
  · rintro ⟨r, hr, hp⟩
    rcases List.mem_append.mp hr with hr | hr
    · obtain ⟨hlt, rfl⟩ := (hmem r).mp hr
      exact ⟨hp.1, Region.Plain.exists_instr ⟨rfl, hlt, hpos, hopen⟩ hp⟩
    · obtain ⟨hge, hi⟩ := (h.covers p).mp ⟨r, hr, hp⟩
      exact ⟨by omega, hi⟩
  · rintro ⟨hge, i, hi, hno⟩
    rcases lt_trichotomy p pos with hlt | rfl | hgt
    · exact ⟨_, List.mem_append_left _ ((hmem _).mpr ⟨by omega, rfl⟩), hge, hlt⟩
    · exact absurd (hend i hi) hno
    · obtain ⟨r, hr, hp⟩ := (h.covers p).mpr ⟨hgt, i, hi, hno⟩
      exact ⟨r, List.mem_append_right _ hr, hp⟩

/-- What has been cut off behind `pos`: no boundary stands from there up to the end of the open piece, and
from its end on the block is cut into the regions found. -/
structure CutsFrom (b : Block) (pos : Nat) (c : Cuts) : Prop where
  le_stop : pos ≤ c.stop
  stop_le : c.stop ≤ b.instrs.size
  inside : ∀ p i, pos ≤ p → p < c.stop → b.instrs[p]? = some i → ¬i.isBoundary
  behind : ∀ i, b.instrs[c.stop]? = some i → i.isBoundary
  found : b.CutInto (c.stop + 1) c.found

theorem cutsFrom_end : b.CutsFrom b.instrs.size { stop := b.instrs.size } where
  le_stop := le_rfl
  stop_le := le_rfl
  inside _ _ hge hlt := absurd hlt (Nat.not_lt.mpr hge)
  behind := by simp
  found := cutInto_end

theorem CutsFrom.cutAt {c : Cuts} (h : b.CutsFrom (pos + 1) c) (hlt : pos < b.instrs.size) :
    b.CutsFrom pos (cutAt b.id (b.instrs[pos], pos) c) := by
  have hat : ∀ i, b.instrs[pos]? = some i → i = b.instrs[pos] := by simp [hlt, eq_comm]
  unfold Block.cutAt
  split
  next hboundary =>
    have hend : ∀ i, b.instrs[pos]? = some i → i.isBoundary := fun i hi => hat i hi ▸ hboundary
    have hbefore : ∀ p i, p + 1 = pos + 1 → b.instrs[p]? = some i → i.isBoundary := by
      rintro p i ⟨⟩ hi
      exact hend i hi
    exact ⟨le_rfl, hlt.le, fun p i hge hp => absurd hp (Nat.not_lt.mpr hge), hend,
      h.found.cut_append h.le_stop h.stop_le hbefore h.inside h.behind⟩
  next hplain =>
    refine ⟨(Nat.le_succ pos).trans h.le_stop, h.stop_le, fun p i hge hp hi => ?_, h.behind, h.found⟩
    rcases hge.eq_or_lt with rfl | hgt
    · exact hat i hi ▸ hplain
    · exact h.inside p i hgt hp hi

theorem cutsFrom_foldr (hpos : pos ≤ b.instrs.size) : b.CutsFrom pos
    ((b.instrs.toList.zipIdx.drop pos).foldr (cutAt b.id) { stop := b.instrs.size }) := by
  induction hpos using Nat.decreasingInduction with
  | self =>
    rw [List.drop_eq_nil_of_le (by simp)]
    exact cutsFrom_end
  | of_succ pos hlt ih =>
    rw [List.drop_eq_getElem_cons (by simpa using hlt), List.foldr_cons]
    simpa using ih.cutAt hlt

/-- A block of any shape is cut into its regions. -/
theorem cutInto_regions (b : Block) : b.CutInto 0 b.regions := by
  have h := b.cutsFrom_foldr (Nat.zero_le _)
  exact h.found.cut_append h.le_stop h.stop_le (fun _ _ hp => absurd hp (Nat.succ_ne_zero _))
    h.inside h.behind

/-- Every region of a block is cut out of it without boundaries. -/
theorem plain_of_mem_regions {r : Region} (hr : r ∈ b.regions) : r.Plain b :=
  b.cutInto_regions.plain r hr

end Block

end Precedence
