import Precedence.Flow.Loops
import Precedence.Proofs.Flow.Reachable

/-!
The edges that close loops, and the loops they make. The search from the tail of each edge gives a
body; the loop of a header is the union of the bodies of all edges that close it.
-/
namespace Precedence

namespace Loops

variable {g : FlowGraph} {lp : Loop} {a b tail header : BlockId}

/-- An edge closes a loop if it leads to a block that dominates its source. -/
def Closes (g : FlowGraph) (tail header : BlockId) : Prop :=
  g.Arc tail header ∧ g.dominates header tail

theorem mem_closing (hnames : g.blocks.Nodup) :
    (tail, header) ∈ closing g ↔ Closes g tail header := by
  simp only [closing, List.mem_flatMap, List.mem_map, List.mem_filter, Prod.mk.injEq,
    FlowGraph.mem_succTable hnames]
  constructor
  · rintro ⟨t, -, h, ⟨harc, hdom⟩, rfl, rfl⟩
    exact ⟨harc, hdom⟩
  · rintro ⟨harc, hdom⟩
    obtain ⟨succs, hrow, -⟩ := FlowGraph.arc_iff.mp harc
    exact ⟨tail, List.mem_map_of_mem hrow, header, ⟨harc, hdom⟩, rfl, rfl⟩

/-- The blocks that one edge puts into the loop of its header. -/
def bodyOf (g : FlowGraph) (tail header : BlockId) : List BlockId :=
  body (fun b => g.predTable.listAt b.number) (.ofList g.blocks) tail header

theorem mem_bodyOf : b ∈ bodyOf g tail header ↔ b = header ∨
    FoundFrom (fun b => g.predTable.listAt b.number) [tail]
      ((BlockSet.ofList g.blocks).erase header) b := by
  rw [bodyOf, body, List.mem_cons, mem_spread]

theorem nodup_bodyOf : (bodyOf g tail header).Nodup := by
  refine List.nodup_cons.mpr ⟨fun hmem => ?_, nodup_spread⟩
  simpa [BlockSet.contains_erase] using (mem_spread.mp hmem).inside

theorem get?_extend {t : Table Loop} {n : Nat} {blocks : List BlockId} :
    (extend t header blocks).get? n =
      if header.number = n then
        some ⟨header, blocksAt t header ++
          blocks.filter fun b => !(BlockSet.ofList (blocksAt t header)).contains b⟩
      else t.get? n := by
  rw [extend, Std.TreeMap.get?_eq_getElem?, Std.TreeMap.getElem?_insert]
  simp only [Std.compare_eq_iff_eq, Std.TreeMap.get?_eq_getElem?]

theorem mem_blocksAt_extend {t : Table Loop} {blocks : List BlockId} :
    b ∈ blocksAt (extend t header blocks) a ↔ b ∈ blocksAt t a ∨ header = a ∧ b ∈ blocks := by
  rw [blocksAt, get?_extend]
  by_cases h : header = a
  · subst h
    rw [if_pos rfl]
    simp only [Option.map_some, Option.getD_some, List.mem_append, List.mem_filter,
      Bool.not_eq_true', Bool.eq_false_iff, ne_eq, BlockSet.contains_ofList_iff, true_and]
    tauto
  · rw [if_neg fun heq => h (BlockId.number_inj.mp heq)]
    simp [blocksAt, h]

theorem nodup_blocksAt_extend {t : Table Loop} {blocks : List BlockId} (h : blocks.Nodup)
    (ht : ∀ a, (blocksAt t a).Nodup) : (blocksAt (extend t header blocks) a).Nodup := by
  rw [blocksAt, get?_extend]
  split
  · refine List.nodup_append.mpr ⟨ht header, h.filter _, ?_⟩
    rintro b hb c hc rfl
    rw [List.mem_filter, BlockSet.contains_ofList] at hc
    simp [hb] at hc
  · exact ht a

/-- The loops made by some edges, under the numbers of their headers: a loop for every header, with
the blocks of all bodies. -/
structure Gathered (bodies : BlockId × BlockId → List BlockId) (edges : List (BlockId × BlockId))
    (t : Table Loop) : Prop where
  contains_iff : ∀ a : BlockId, t.contains a.number ↔ ∃ e ∈ edges, e.2 = a
  header : ∀ n lp, t.get? n = some lp → lp.header.number = n
  mem_iff : ∀ a b, b ∈ blocksAt t a ↔ ∃ e ∈ edges, e.2 = a ∧ b ∈ bodies e
  nodup : ∀ a, (blocksAt t a).Nodup

theorem Gathered.extend {bodies : BlockId × BlockId → List BlockId}
    {edges : List (BlockId × BlockId)} {t : Table Loop} (h : Gathered bodies edges t)
    {e : BlockId × BlockId} (hbody : (bodies e).Nodup) :
    Gathered bodies (edges ++ [e]) (extend t e.2 (bodies e)) where
  contains_iff a := by
    rw [Loops.extend, Std.TreeMap.contains_insert, Bool.or_eq_true, h.contains_iff, beq_iff_eq,
      Std.compare_eq_iff_eq, BlockId.number_inj]
    simp only [List.mem_append, List.mem_singleton]
    grind
  header n lp hlp := by
    rw [get?_extend] at hlp
    split at hlp
    next heq => exact Option.some.inj hlp ▸ heq
    next => exact h.header n lp hlp
  mem_iff a b := by
    rw [mem_blocksAt_extend, h.mem_iff]
    simp only [List.mem_append, List.mem_singleton]
    grind
  nodup _ := nodup_blocksAt_extend hbody h.nodup

theorem gathered_foldl {bodies : BlockId × BlockId → List BlockId}
    (hbodies : ∀ e, (bodies e).Nodup) (edges : List (BlockId × BlockId)) :
    Gathered bodies edges (edges.foldl (fun t e => extend t e.2 (bodies e)) {}) := by
  induction edges using List.reverseRecOn with
  | nil => exact ⟨by simp, by simp, by simp [blocksAt], by simp [blocksAt]⟩
  | append_singleton edges e ih =>
    rw [List.foldl_concat]
    exact ih.extend (hbodies e)

/-- The loops of a graph, under the numbers of their headers. -/
theorem exists_gathered : ∃ t, Gathered (fun e => bodyOf g e.1 e.2) (closing g) t ∧
    (compute g).loops = t.toList.map Prod.snd :=
  ⟨_, gathered_foldl (fun _ => nodup_bodyOf) (closing g), rfl⟩

theorem mem_map_snd {t : Table Loop} : lp ∈ t.toList.map Prod.snd ↔ ∃ n, t.get? n = some lp := by
  simp only [List.mem_map, Prod.exists, Std.TreeMap.mem_toList_iff_getElem?_eq_some,
    Std.TreeMap.get?_eq_getElem?, exists_eq_right]

/-- No two loops have the same header. -/
theorem nodup_headers : ((compute g).loops.map Loop.header).Nodup := by
  obtain ⟨t, ht, hloops⟩ := exists_gathered (g := g)
  have hkey : ∀ e ∈ t.toList, e.2.header.number = e.1 := fun e he =>
    ht.header _ _ (Std.TreeMap.mem_toList_iff_getElem?_eq_some.mp he)
  rw [hloops, List.map_map]
  refine List.pairwise_map.mpr (t.distinct_keys_toList.imp_of_mem fun he he' hne heq => hne ?_)
  rw [Std.compare_eq_iff_eq, ← hkey _ he, ← hkey _ he']
  exact congrArg BlockId.number heq

/-- A block heads a loop just when some edge closes one there. -/
theorem exists_loop_iff (hnames : g.blocks.Nodup) :
    (∃ lp ∈ (compute g).loops, lp.header = header) ↔ ∃ tail, Closes g tail header := by
  obtain ⟨t, ht, hloops⟩ := exists_gathered (g := g)
  have hedges : (∃ tail, Closes g tail header) ↔ t.contains header.number := by
    rw [ht.contains_iff]
    simp [mem_closing hnames]
  rw [hedges, Std.TreeMap.contains_eq_isSome_getElem?, Option.isSome_iff_exists]
  constructor
  · rintro ⟨lp, hlp, rfl⟩
    obtain ⟨n, hn⟩ := mem_map_snd.mp (hloops ▸ hlp)
    exact ⟨lp, ht.header n lp hn ▸ hn⟩
  · rintro ⟨lp, hlp⟩
    exact ⟨lp, hloops ▸ mem_map_snd.mpr ⟨_, hlp⟩, BlockId.number_inj.mp (ht.header _ lp hlp)⟩

theorem blocks_eq_blocksAt {t : Table Loop} {n : Nat} (h : t.get? n = some lp)
    (hheader : lp.header.number = n) : lp.blocks = blocksAt t lp.header := by
  rw [blocksAt, hheader, h, Option.map_some, Option.getD_some]

/-- A loop holds the blocks of the bodies of all edges that close it. -/
theorem mem_blocks_iff (hnames : g.blocks.Nodup) (h : lp ∈ (compute g).loops) :
    b ∈ lp.blocks ↔ ∃ tail, Closes g tail lp.header ∧ b ∈ bodyOf g tail lp.header := by
  obtain ⟨t, ht, hloops⟩ := exists_gathered (g := g)
  obtain ⟨n, hn⟩ := mem_map_snd.mp (hloops ▸ h)
  rw [blocks_eq_blocksAt hn (ht.header n lp hn), ht.mem_iff]
  simp [mem_closing hnames]

theorem header_mem_blocks (h : lp ∈ (compute g).loops) : lp.header ∈ lp.blocks := by
  obtain ⟨t, ht, hloops⟩ := exists_gathered (g := g)
  obtain ⟨n, hn⟩ := mem_map_snd.mp (hloops ▸ h)
  have hheader := ht.header n lp hn
  have hcontains : t.contains lp.header.number := by
    rw [hheader, Std.TreeMap.contains_eq_isSome_getElem?, ← Std.TreeMap.get?_eq_getElem?, hn,
      Option.isSome_some]
  obtain ⟨e, he, heq⟩ := (ht.contains_iff _).mp hcontains
  rw [blocks_eq_blocksAt hn hheader, ht.mem_iff]
  exact ⟨e, he, heq, mem_bodyOf.mpr (.inl heq.symm)⟩

theorem nodup_blocks (h : lp ∈ (compute g).loops) : lp.blocks.Nodup := by
  obtain ⟨t, ht, hloops⟩ := exists_gathered (g := g)
  obtain ⟨n, hn⟩ := mem_map_snd.mp (hloops ▸ h)
  rw [blocks_eq_blocksAt hn (ht.header n lp hn)]
  exact ht.nodup _

/-- Different loops have different headers. -/
theorem eq_of_header_eq {lp' : Loop} (h : lp ∈ (compute g).loops) (h' : lp' ∈ (compute g).loops)
    (heq : lp.header = lp'.header) : lp = lp' := by
  obtain ⟨t, ht, hloops⟩ := exists_gathered (g := g)
  obtain ⟨n, hn⟩ := mem_map_snd.mp (hloops ▸ h)
  obtain ⟨n', hn'⟩ := mem_map_snd.mp (hloops ▸ h')
  obtain rfl : n = n' := by rw [← ht.header n lp hn, ← ht.header n' lp' hn', heq]
  exact Option.some.inj (hn.symm.trans hn')

end Loops

end Precedence
