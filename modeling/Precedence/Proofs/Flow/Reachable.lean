import Precedence.Flow.Dominators
import Precedence.Proofs.Flow.Search
import Precedence.Proofs.Returns

/-!
The blocks that the entry of a function reaches. The depth-first search finishes exactly these, and
a block that is not among them dominates none but itself.
-/
namespace Precedence

/-- Block names are distinct, and every successor names a block. -/
structure Function.WellFormed (f : Function) : Prop where
  names : (f.blocks.map Block.id).Nodup
  successors : ∀ b ∈ f.blocks, ∀ id ∈ b.successors, f.hasBlock id

theorem Function.hasBlock_iff {f : Function} {id : BlockId} :
    f.hasBlock id ↔ id ∈ f.blocks.map Block.id := by
  simp [hasBlock]

/-- A name in use finds a block that bears it. -/
theorem Function.block_ok {f : Function} {id : BlockId} (h : f.hasBlock id) :
    ∃ b, f.block id = .ok b ∧ b ∈ f.blocks ∧ b.id = id := by
  cases hfind : f.blocks.find? fun b => b.id == id with
  | none =>
    simp only [hasBlock, List.any_eq_true] at h
    obtain ⟨b, hb, hid⟩ := h
    exact absurd hid (List.find?_eq_none.mp hfind b hb)
  | some b =>
    refine ⟨b, by simp [block, hfind], List.mem_of_find?_eq_some hfind, ?_⟩
    simpa using List.find?_some hfind

/-- Under distinct names, a name stands for every block that bears it. -/
theorem Function.WellFormed.block_eq {f : Function} (hf : f.WellFormed) {b : Block}
    (hb : b ∈ f.blocks) : f.block b.id = .ok b := by
  obtain ⟨c, hc, hmem, hid⟩ := f.block_ok (hasBlock_iff.mpr (List.mem_map_of_mem hb))
  rwa [List.inj_on_of_nodup_map hf.names hmem hb hid] at hc

theorem Function.mem_of_block {f : Function} {id : BlockId} {b : Block} (h : f.block id = .ok b) :
    b ∈ f.blocks ∧ b.id = id := by
  unfold block at h
  split at h
  next c hfind =>
    cases h
    exact ⟨List.mem_of_find?_eq_some hfind, by simpa using List.find?_some hfind⟩
  next => cases h

theorem BlockId.nodup_numbers {α : Type} {key : α → BlockId} {l : List α}
    (h : (l.map key).Nodup) : (l.map fun e => (key e).number).Nodup := by
  rw [← Function.comp_def BlockId.number, ← List.map_map]
  exact h.map fun a b heq => BlockId.number_inj.mp heq

theorem BlockSet.contains_ofList_iff {blocks : List BlockId} {b : BlockId} :
    (BlockSet.ofList blocks).contains b ↔ b ∈ blocks := by
  rw [BlockSet.contains_ofList, List.contains_iff_mem]

theorem FoundFrom.congr {next next' : BlockId → List BlockId} {todo todo' : List BlockId}
    {fresh : BlockSet} {b : BlockId} (hnext : ∀ a c, c ∈ next a ↔ c ∈ next' a)
    (htodo : ∀ a, a ∈ todo ↔ a ∈ todo') :
    FoundFrom next todo fresh b ↔ FoundFrom next' todo' fresh b := by
  have hstep : StepInside next fresh = StepInside next' fresh := by
    funext a c
    simp only [StepInside, hnext]
  simp only [FoundFrom, hstep, htodo]

namespace FlowGraph

variable {g : FlowGraph} {a b c : BlockId}

/-- Control may go from `a` to `b`. -/
def Arc (g : FlowGraph) (a b : BlockId) : Prop := (a, b) ∈ g.arcs

/-- A way leads from the entry to `b`. -/
def Reaches (g : FlowGraph) (b : BlockId) : Prop := Relation.ReflTransGen g.Arc g.entry b

theorem arc_iff : g.Arc a b ↔ ∃ succs, (a, succs) ∈ g.rows ∧ b ∈ succs := by
  simp only [Arc, arcs, List.mem_flatMap, List.mem_map, Prod.mk.injEq, Prod.exists]
  constructor
  · rintro ⟨x, succs, hrow, y, hy, rfl, rfl⟩
    exact ⟨succs, hrow, hy⟩
  · rintro ⟨succs, hrow, hb⟩
    exact ⟨a, succs, hrow, b, hb, rfl, rfl⟩

theorem Arc.left_mem (h : g.Arc a b) : a ∈ g.blocks := by
  obtain ⟨succs, hrow, -⟩ := arc_iff.mp h
  exact List.mem_map_of_mem hrow

theorem mem_predTable : a ∈ g.predTable.listAt b.number ↔ g.Arc a b := by
  rw [predTable, Table.listAt_gather]
  simp only [List.mem_map, List.mem_filter, beq_iff_eq, Prod.exists, Arc]
  constructor
  · rintro ⟨n, y, ⟨⟨z, ⟨m⟩, harc, heq⟩, rfl⟩, rfl⟩
    cases heq
    exact harc
  · intro harc
    exact ⟨b.number, a, ⟨⟨a, b, harc, rfl⟩, rfl⟩, rfl⟩

theorem get?_succTable (hnames : g.blocks.Nodup) {succs : List BlockId} :
    g.succTable.get? a.number = some succs ↔ (a, succs) ∈ g.rows := by
  rw [succTable, Table.get?_foldl_insert (BlockId.nodup_numbers hnames)]
  simp [BlockId.number_inj]

theorem mem_succTable (hnames : g.blocks.Nodup) :
    b ∈ g.succTable.listAt a.number ↔ g.Arc a b := by
  simp only [Table.mem_listAt, get?_succTable hnames, arc_iff]

theorem listAt_succTable (hnames : g.blocks.Nodup) {succs : List BlockId}
    (h : (a, succs) ∈ g.rows) : g.succTable.listAt a.number = succs := by
  have hget := (get?_succTable hnames).mpr h
  rw [Std.TreeMap.get?_eq_getElem?] at hget
  rw [Table.listAt, Std.TreeMap.getD_eq_getD_getElem?, hget, Option.getD_some]

/-- Under distinct names, the row of a name is the one that looking it up finds. -/
theorem lookup_reverse_eq {rows : List (BlockId × List BlockId)} {succs : List BlockId}
    (h : (rows.map Prod.fst).Nodup) (hrow : (a, succs) ∈ rows) :
    rows.reverse.lookup a = some succs := by
  cases hlookup : rows.reverse.lookup a with
  | none =>
    have := List.lookup_eq_none_iff.mp hlookup _ (List.mem_reverse.mpr hrow)
    simp at this
  | some succs' =>
    obtain ⟨l₁, l₂, heq, -⟩ := List.lookup_eq_some_iff.mp hlookup
    have hrow' : (a, succs') ∈ rows := List.mem_reverse.mp (heq ▸ by simp)
    rw [Prod.mk.inj (List.inj_on_of_nodup_map h hrow' hrow rfl) |>.2]

/-- The search that starts out with the successors of the entry finishes what the entry reaches. -/
theorem mem_finishOrder_entry {succs : List BlockId} (hnames : g.blocks.Nodup)
    (hentry : g.entry ∈ g.blocks) (hinside : ∀ a c, g.Arc a c → c ∈ g.blocks)
    (hsuccs : ∀ c, c ∈ succs ↔ g.Arc g.entry c) :
    b ∈ finishOrder (fun a => g.succTable.listAt a.number) [(g.entry, succs)]
      ((BlockSet.ofList g.blocks).erase g.entry) [] ↔ g.Reaches b := by
  -- the table gives each arc once more
  have hstep : StepInside (fun a => g.succTable.listAt a.number) (.ofList g.blocks) = g.Arc := by
    funext a c
    rw [StepInside, mem_succTable hnames, BlockSet.contains_ofList_iff, eq_iff_iff,
      and_iff_left_iff_imp]
    exact hinside a c
  have hnext : ∀ c, c ∈ [(g.entry, succs)].flatMap Prod.snd ↔
      c ∈ g.succTable.listAt g.entry.number ++ [] := by
    intro c
    rw [List.append_nil, mem_succTable hnames, ← hsuccs]
    simp
  have hfresh : (BlockSet.ofList g.blocks).contains g.entry :=
    BlockSet.contains_ofList_iff.mpr hentry
  calc b ∈ finishOrder (fun a => g.succTable.listAt a.number) [(g.entry, succs)]
        ((BlockSet.ofList g.blocks).erase g.entry) []
      ↔ b = g.entry ∨ FoundFrom (fun a => g.succTable.listAt a.number)
          (g.succTable.listAt g.entry.number ++ []) ((BlockSet.ofList g.blocks).erase g.entry) b := by
        rw [mem_finishOrder, FoundFrom.congr (fun _ _ => Iff.rfl) hnext]
        simp
    _ ↔ FoundFrom (fun a => g.succTable.listAt a.number) [g.entry] (.ofList g.blocks) b :=
        (foundFrom_cons_of_fresh hfresh).symm
    _ ↔ g.Reaches b := by
        rw [Reaches, ← hstep]
        simp [FoundFrom, hfresh]

/-- The control flow of a function in which names are distinct and the entry exists: the search from
the entry finishes what the entry reaches. -/
theorem ofFunction_ok {f : Function} (hnames : (f.blocks.map Block.id).Nodup)
    (hentry : f.hasBlock f.entry) :
    ∃ g, ofFunction f = .ok g ∧ g.entry = f.entry ∧ g.blocks = f.blocks.map Block.id ∧
      (∀ a b, g.Arc a b ↔
        ∃ block ∈ f.blocks, block.id = a ∧ b ∈ block.successors ∧ f.hasBlock b) ∧
      ∀ b, b ∈ g.postOrder ↔ g.Reaches b := by
  set rows := f.blocks.map fun b => (b.id, b.successors.filter f.hasBlock) with hrows
  have hblocks : rows.map Prod.fst = f.blocks.map Block.id := by
    simp [hrows, Function.comp_def]
  let g : FlowGraph := { entry := f.entry, rows, postOrder := [] }
  have hgblocks : g.blocks = f.blocks.map Block.id := hblocks
  have hnodup : g.blocks.Nodup := hgblocks ▸ hnames
  have harc : ∀ a b, g.Arc a b ↔
      ∃ block ∈ f.blocks, block.id = a ∧ b ∈ block.successors ∧ f.hasBlock b := by
    intro a b
    rw [arc_iff]
    simp only [g, hrows, List.mem_map, Prod.mk.injEq]
    constructor
    · rintro ⟨succs, ⟨block, hblock, rfl, rfl⟩, hb⟩
      exact ⟨block, hblock, rfl, List.mem_filter.mp hb⟩
    · rintro ⟨block, hblock, rfl, hb⟩
      exact ⟨_, ⟨block, hblock, rfl, rfl⟩, List.mem_filter.mpr hb⟩
  -- the row of the entry is the one that the search starts out with
  obtain ⟨entry, hmem, hid⟩ := List.mem_map.mp (Function.hasBlock_iff.mp hentry)
  have hrow : (f.entry, entry.successors.filter f.hasBlock) ∈ rows :=
    List.mem_map.mpr ⟨entry, hmem, by rw [hid]⟩
  have hlookup := lookup_reverse_eq (hblocks ▸ hnames) hrow
  have hne : rows.isEmpty = false := List.isEmpty_eq_false_iff_exists_mem.mpr ⟨_, hrow⟩
  have hsuccs : ∀ c, c ∈ entry.successors.filter f.hasBlock ↔ g.Arc f.entry c := by
    intro c
    rw [harc, List.mem_filter]
    constructor
    · intro hc
      exact ⟨entry, hmem, hid, hc⟩
    · rintro ⟨block, hblock, heq, hc⟩
      rwa [List.inj_on_of_nodup_map hnames hmem hblock (hid.trans heq.symm)]
  have hinside : ∀ a c, g.Arc a c → c ∈ g.blocks := by
    intro a c hac
    obtain ⟨-, -, -, -, hc⟩ := (harc a c).mp hac
    exact hgblocks ▸ Function.hasBlock_iff.mp hc
  let order := finishOrder (fun a => g.succTable.listAt a.number)
    [(f.entry, entry.successors.filter f.hasBlock)] ((BlockSet.ofList g.blocks).erase f.entry) []
  exact ⟨{ g with postOrder := order },
    by simp [ofFunction, ← hrows, hne, succs?, hlookup, g, order], rfl, hgblocks, harc, fun _ =>
      mem_finishOrder_entry hnodup (hgblocks ▸ Function.hasBlock_iff.mp hentry) hinside hsuccs⟩

/-- The finished blocks are those that have a position. -/
theorem isSome_position? : (g.reachable.position? b).isSome ↔ b ∈ g.postOrder := by
  rw [Reachable.position?, Std.TreeMap.get?_eq_getElem?, Std.TreeMap.isSome_getElem?_eq_contains]
  simp only [reachable, positions, Table.contains_foldl_insert, Std.TreeMap.contains_emptyc,
    Bool.false_eq_true, or_false, Prod.exists, List.mem_zipIdx_iff_getElem?]
  rw [← List.mem_reverse, List.mem_iff_getElem?]
  constructor
  · rintro ⟨⟨n⟩, i, h, rfl⟩
    exact ⟨i, h⟩
  · rintro ⟨i, h⟩
    exact ⟨b, i, h, rfl⟩

/-- A block that the entry does not reach dominates itself only. -/
theorem eq_of_dominates_unreached (hpost : ∀ b, b ∈ g.postOrder ↔ g.Reaches b) (ha : ¬g.Reaches a)
    (h : g.dominates a b) : a = b := by
  have hnone : g.reachable.position? a = none := by
    rw [← Option.not_isSome_iff_eq_none, isSome_position?, hpost]
    exact ha
  simpa [dominates, Reachable.dominates, hnone] using h

end FlowGraph

end Precedence
