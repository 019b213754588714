import Precedence.Proofs.Flow.Reachable
import Precedence.Proofs.Order.Shape
import Precedence.Proofs.Regions

/-!
What the graphs of a function cover. A block is cut into its regions, the graphs are built for exactly
these regions in turn, and each instruction that is neither a boundary nor a debug value has one node
among all the nodes of all the graphs.
-/
namespace Precedence

/-! The nodes of one graph -/

namespace Walk.Course

variable {s : Setup} {r : Region} {oracle : Option Oracle} {block : Block} {first last : Walk}
  {pos : Nat} {n : NodeId}

theorem graph_block (h : Course s r oracle block first last) :
    last.draft.graph.block = r.block := by
  have houtline := congrArg Graph.block h.grows.1.outline
  rwa [Graph.unlinked_ok h.graph] at houtline

/-- The exit wraps the instruction behind the region, and the units wrap those of the region that are not
debug values. -/
theorem position_eq_some (h : Course s r oracle block first last) :
    last.draft.graph.position n = some (some pos) ↔
      (n = .exit ∧ pos = r.stop ∧ (r.exitInstr block).isSome) ∨
      ∃ k, n = .unit k ∧ (r.unitPositions block)[k]? = some pos := by
  cases n with
  | exit =>
    rw [h.grows.1.position, Graph.unlinked_ok h.graph]
    cases r.exitInstr block <;> simp [Graph.position, Graph.node?, eq_comm]
  | unit k =>
    have hk := congrArg (·[k]?) h.numbered
    simp only [List.getElem?_map, Array.getElem?_toList] at hk
    simp [Graph.position, Graph.node?, hk]

/-- A node of the graph wraps an instruction that is neither a boundary nor a debug value exactly if the
region has its position. -/
theorem exists_position_iff (h : Course s r oracle block first last) (hr : r.Maximal block)
    {i : Instr} (hi : block.instrs[pos]? = some i) (hdebug : ¬i.isDebugValue)
    (hboundary : ¬i.isBoundary) :
    (∃ n, last.draft.graph.position n = some (some pos)) ↔ r.Holds pos := by
  have hunit : pos ∈ r.unitPositions block ↔ r.Holds pos := by
    simp [Region.unitPositions, List.mem_filter, List.mem_range'_1, Nat.add_sub_cancel' h.start_le,
      hi, hdebug, Region.Holds]
  simp only [h.position_eq_some, ← hunit, List.mem_iff_getElem?]
  constructor
  · rintro ⟨n, ⟨-, rfl, -⟩ | ⟨k, -, hk⟩⟩
    · exact absurd (hr.behind i hi) hboundary
    · exact ⟨k, hk⟩
  · rintro ⟨k, hk⟩
    exact ⟨.unit k, .inr ⟨k, rfl, hk⟩⟩

/-- No two nodes of the graph wrap one instruction of the region. -/
theorem position_inj (h : Course s r oracle block first last) (hpos : r.Holds pos) {m : NodeId}
    (hn : last.draft.graph.position n = some (some pos))
    (hm : last.draft.graph.position m = some (some pos)) : n = m := by
  have hunit : ∀ {n}, last.draft.graph.position n = some (some pos) →
      ∃ k, n = .unit k ∧ (r.unitPositions block)[k]? = some pos := by
    intro n hn
    rcases h.position_eq_some.mp hn with ⟨-, rfl, -⟩ | hk
    · exact absurd hpos.2 (lt_irrefl _)
    · exact hk
  obtain ⟨k, rfl, hk⟩ := hunit hn
  obtain ⟨l, rfl, hl⟩ := hunit hm
  have hnodup : (r.unitPositions block).Nodup := List.Nodup.filter _ List.nodup_range'
  have hlt : k < (r.unitPositions block).length := (List.getElem?_eq_some_iff.mp hk).1
  rw [(List.getElem?_inj hlt hnodup).mp (hk.trans hl.symm)]

end Walk.Course

/-! The regions of a function -/

namespace Region

/-- The regions are of different blocks, or the first one ends before the other begins. -/
def Before (r r' : Region) : Prop := r.block = r'.block → r.stop < r'.start

/-- Of regions in order, no two hold one position of one block. -/
theorem index_eq_of_holds {regions : List Region} (h : regions.Pairwise Before) {k l pos : Nat}
    {r r' : Region} (hk : regions[k]? = some r) (hl : regions[l]? = some r')
    (hblock : r.block = r'.block) (hpos : r.Holds pos) (hpos' : r'.Holds pos) : k = l := by
  have hbefore : ∀ {k l : Nat} {r r' : Region}, k < l → regions[k]? = some r →
      regions[l]? = some r' → r.block = r'.block → r.Holds pos → ¬r'.Holds pos := by
    intro k l r r' hkl hk hl hblock hpos hpos'
    obtain ⟨hk', rfl⟩ := List.getElem?_eq_some_iff.mp hk
    obtain ⟨hl', rfl⟩ := List.getElem?_eq_some_iff.mp hl
    have hlt := List.pairwise_iff_getElem.mp h k l hk' hl' hkl hblock
    exact absurd (hpos.2.trans hlt) (Nat.not_lt.mpr hpos'.1)
  rcases lt_trichotomy k l with hkl | rfl | hlk
  · exact absurd hpos' (hbefore hkl hk hl hblock hpos)
  · rfl
  · exact absurd hpos (hbefore hlk hl hk hblock.symm hpos')

end Region

namespace Builder

variable {s : Setup} {b b' : Builder} {oracle : Option Oracle} {built : List (Region × Graph)}

theorem pairwise_regionsOf {f : Function} (hids : (f.blocks.map Block.id).Nodup) :
    (regionsOf f).Pairwise Region.Before := by
  refine List.pairwise_flatMap.mpr ⟨fun block _ => ?_, (List.pairwise_map.mp hids).imp ?_⟩
  · exact block.cutInto_regions.ascending.imp fun {r r'} (hlt : r.stop < r'.start) _ => hlt
  · intro b b' hne r hr r' hr' heq
    rw [(Block.plain_of_mem_regions hr).block, (Block.plain_of_mem_regions hr').block] at heq
    exact absurd heq hne

/-- Regions that are built in turn are all built, each by a builder that is fit for it. -/
theorem built_of_buildAll {regions : List Region} (hb : b.Usable s)
    (h : buildAll s oracle regions b = .ok (b', built)) :
    built.map Prod.fst = regions ∧ ∀ e ∈ built, ∃ c c' : Builder, c.Usable s ∧
      c.buildRegion s e.1 oracle = .ok (c', e.2) := by
  induction regions generalizing b built with
  | nil =>
    cases h
    exact ⟨rfl, by simp⟩
  | cons r rest ih =>
    simp only [buildAll, bind_eq_ok, pure_eq_ok] at h
    obtain ⟨⟨c, g⟩, hregion, ⟨d, tail⟩, hrest, h⟩ := h
    cases h
    have hc : c.Usable s := by
      obtain ⟨a, hstart, hbuild⟩ := bind_eq_ok.mp hregion
      exact .build (.start hb hstart) hbuild
    obtain ⟨hmap, hall⟩ := ih hc hrest
    exact ⟨by rw [List.map_cons, hmap], List.forall_mem_cons.mpr ⟨⟨b, c, hb, hregion⟩, hall⟩⟩

/-- Behind every graph stands a walk through its region, one of those of a block of the function. -/
theorem course_of_built (hb : b.Usable s) (hids : (s.func.blocks.map Block.id).Nodup)
    (h : b.buildFunction s oracle = .ok (b', built)) {e : Region × Graph} (he : e ∈ built) :
    ∃ block ∈ s.func.blocks, e.1 ∈ block.regions ∧ ∃ first last,
      Walk.Course s e.1 oracle block first last ∧ e.2 = last.draft.graph := by
  obtain ⟨hmap, hall⟩ := built_of_buildAll hb h
  have hregion : e.1 ∈ regionsOf s.func := hmap ▸ List.mem_map_of_mem he
  obtain ⟨block, hmem, hr⟩ := List.mem_flatMap.mp hregion
  obtain ⟨_, _, husable, hbuild⟩ := hall e he
  obtain ⟨c, first, last, hcourse, hgraph⟩ := course husable hbuild
  obtain ⟨hc, hid⟩ := Function.mem_of_block hcourse.block_eq
  rw [(Block.plain_of_mem_regions hr).block] at hid
  obtain rfl := List.inj_on_of_nodup_map hids hc hmem hid
  exact ⟨c, hmem, hr, first, last, hcourse, hgraph⟩

/-- A node, given by the number of its graph in the run and its name there, wraps the instruction at
`pos` of the block named `id`. -/
def WrappedAt (built : List (Region × Graph)) (id : BlockId) (pos : Nat) (p : Nat × NodeId) : Prop :=
  ∃ e, built[p.1]? = some e ∧ e.2.block = id ∧ e.2.position p.2 = some (some pos)

/-- In a run through a function, one node wraps an instruction that is neither a boundary nor a debug
value. -/
theorem existsUnique_wrappedAt (hb : b.Usable s) (hids : (s.func.blocks.map Block.id).Nodup)
    (h : b.buildFunction s oracle = .ok (b', built)) {block : Block} (hmem : block ∈ s.func.blocks)
    {pos : Nat} {i : Instr} (hi : block.instrs[pos]? = some i) (hdebug : ¬i.isDebugValue)
    (hboundary : ¬i.isBoundary) : ∃! p, WrappedAt built block.id pos p := by
  obtain ⟨hmap, -⟩ := built_of_buildAll hb h
  -- whether a graph has the instruction is decided by its region
  have hgraph : ∀ e ∈ built, e.2.block = e.1.block ∧ (e.1.block = block.id →
      ((∃ n, e.2.position n = some (some pos)) ↔ e.1.Holds pos) ∧ ∀ m n, e.1.Holds pos →
        e.2.position m = some (some pos) → e.2.position n = some (some pos) → m = n) := by
    intro e he
    obtain ⟨c, hc, hr, first, last, hcourse, heq⟩ := course_of_built hb hids h he
    rw [heq]
    refine ⟨hcourse.graph_block, fun hid => ?_⟩
    rw [(Block.plain_of_mem_regions hr).block] at hid
    obtain rfl := List.inj_on_of_nodup_map hids hc hmem hid
    exact ⟨hcourse.exists_position_iff (c.cutInto_regions.maximal _ hr) hi hdebug hboundary,
      fun m n hpos => hcourse.position_inj hpos⟩
  obtain ⟨r, hr, hpos⟩ :=
    (block.cutInto_regions.covers pos).mpr ⟨Nat.zero_le _, i, hi, hboundary⟩
  obtain ⟨e, he, rfl⟩ : ∃ e ∈ built, e.1 = r := by
    rw [← List.mem_map, hmap]
    exact List.mem_flatMap_of_mem hmem hr
  have hid : e.1.block = block.id := (Block.plain_of_mem_regions hr).block
  obtain ⟨hsame, hdecides⟩ := hgraph e he
  obtain ⟨n, hn⟩ := (hdecides hid).1.mpr hpos
  obtain ⟨k, hk⟩ := List.mem_iff_getElem?.mp he
  refine ⟨(k, n), ⟨e, hk, hsame.trans hid, hn⟩, ?_⟩
  rintro ⟨l, m⟩ ⟨e', hl, hid', hm⟩
  obtain ⟨hsame', hdecides'⟩ := hgraph e' (List.mem_of_getElem? hl)
  rw [hsame'] at hid'
  obtain rfl : l = k := by
    refine Region.index_eq_of_holds (hmap ▸ pairwise_regionsOf hids) ?_ ?_ (hid'.trans hid.symm)
      ((hdecides' hid').1.mp ⟨m, hm⟩) hpos
    · rw [List.getElem?_map, hl, Option.map_some]
    · rw [List.getElem?_map, hk, Option.map_some]
  obtain rfl := Option.some.inj (hk.symm.trans hl)
  rw [(hdecides hid).2 m n hpos hm hn]

/-- Every block, whatever it is made of, is cut into its regions: they lie in it in ascending order, none
is empty, has a boundary or can be made longer, and their positions are those of all instructions that
are not boundaries. A function whose blocks have distinct names is built region by region, block after
block; then each instruction that is neither a boundary nor a debug value is wrapped by one node of one
graph, and by no other, the exits of the regions included. -/
theorem regions_partition_blocks :
    (∀ block : Block, block.CutInto 0 block.regions) ∧
    ∀ {s : Setup} {b b' : Builder} {oracle : Option Oracle} {built : List (Region × Graph)},
      b.Usable s → (s.func.blocks.map Block.id).Nodup →
      b.buildFunction s oracle = .ok (b', built) →
      built.map Prod.fst = s.func.blocks.flatMap Block.regions ∧
      ∀ block ∈ s.func.blocks, ∀ pos i, block.instrs[pos]? = some i → ¬i.isDebugValue →
        ¬i.isBoundary → ∃! p, WrappedAt built block.id pos p := by
  refine ⟨Block.cutInto_regions, fun hb hids h => ⟨(built_of_buildAll hb h).1, ?_⟩⟩
  intro block hmem pos i hi hdebug hboundary
  exact existsUnique_wrappedAt hb hids h hmem hi hdebug hboundary

/-- A block that begins and ends with boundaries, with two of them next to each other and a debug value,
and one without any. -/
theorem wrapped_once_of_two_blocks :
    let op : Instr := { opcode := "op" }
    let blocks : List Block := [
      { id := ⟨0⟩, instrs := #[op.labelling, op.withDef ⟨1⟩, .debugValue ⟨1⟩, op.withUse ⟨1⟩,
          op.labelling, op.terminating] },
      { id := ⟨1⟩, instrs := #[op.withDef ⟨2⟩] }]
    let s : Setup := {
      func := { blocks }, regs := ({ count := 4 } : RegisterFile).info, timing := .unit }
    ∃ b' built, ({} : Builder).buildFunction s none = .ok (b', built) ∧
      built.map Prod.fst = [⟨⟨0⟩, 1, 4⟩, ⟨⟨1⟩, 0, 1⟩] ∧
      (∃! p, WrappedAt built ⟨0⟩ 3 p) ∧ ∃! p, WrappedAt built ⟨1⟩ 0 p := by
  intro op blocks s
  have hok : (({} : Builder).buildFunction s none).isOk = true := by cbv
  obtain ⟨⟨b', built⟩, h⟩ := exists_of_isOk hok
  obtain ⟨-, hrun⟩ := regions_partition_blocks
  obtain ⟨hmap, hwrapped⟩ := hrun (s := s) .fresh (by decide) h
  exact ⟨b', built, h, hmap, hwrapped blocks[0] (by decide) 3 _ rfl (by decide) (by decide),
    hwrapped blocks[1] (by decide) 0 _ rfl (by decide) (by decide)⟩

end Builder

end Precedence
