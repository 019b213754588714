import Precedence.Machine.Construct
import Precedence.Proofs.Graph.Additions
import Precedence.Proofs.Total.Memory

/-!
A search leaves nothing uncovered, in any graph whose edges lead forward.
-/
namespace Precedence

variable {m : MemoryScope} {units : List Instr} {su t : Nat} {i : Instr} {d : Draft}

/-! Graphs whose edges lead forward -/

/-- A graph with one node for each unit, whose edges lead from earlier units to later ones and to the
exit. -/
structure Graph.Forward (g : Graph) (b : Block) (units : List Instr) : Prop where
  wraps : g.Wraps b units
  lt : ∀ p n k r, g.HasEdge (.unit p) (.unit n) k r → p < n

namespace Graph

variable {g g' : Graph} {b : Block}

theorem Forward.withDep {succ : NodeId} {dep : Dep} {p : Nat} (h : g.Forward b units)
    (hp : dep.node = .unit p) (hlater : ∀ n, succ = .unit n → p < n)
    (hadd : g.withDep succ dep = .ok g') : g'.Forward b units := by
  refine ⟨h.wraps.grows (grows_withDep hadd), ?_⟩
  intro q n k r hedge
  rcases (hasEdge_withDep_iff h.wraps.linked hadd).mp hedge with hold | ⟨hq, hn, -, -⟩
  · exact h.lt q n k r hold
  · obtain rfl : q = p := NodeId.unit.inj (hq.trans hp)
    exact hlater n hn.symm

theorem forward_ofPositions {block : BlockId} {start stop : Nat} {positions : List Nat}
    (hunits : positions.map (b.instrs[·]?) = units.map some) :
    (ofPositions block start stop positions).Forward b units := by
  have hnodes : (ofPositions block start stop positions).nodes =
      (positions.map fun pos => ({ instr := some pos } : Node)).toArray := by
    rw [ofPositions, foldl_addNode]
    rfl
  have hsize : positions.length = units.length := by
    simpa using congrArg List.length hunits
  refine ⟨⟨linked_ofPositions, ?_, by simpa [hnodes] using hsize⟩, ?_⟩
  · intro k i hk
    have hat := congrArg (fun l => l[k]?) hunits
    simp only [List.getElem?_map, hk, Option.map_some, Option.map_eq_some_iff] at hat
    obtain ⟨pos, hpos, hinstr⟩ := hat
    exact instr_eq_ok.mpr ⟨some pos, by simp [position, node?, hnodes, hpos], hinstr⟩
  · intro p n k r hedge
    simp [HasEdge, outgoing, (no_edges_ofPositions _).2] at hedge

/-- What is built from units by adding edges that lead forward has no others. -/
theorem forward_of_addDeps {block : BlockId} {start stop : Nat} {positions : List Nat}
    {calls : List Request} {answers : List Bool}
    (hunits : positions.map (b.instrs[·]?) = units.map some)
    (hcalls : ∀ c ∈ calls, ∃ p, c.dep.node = .unit p ∧ ∀ n, c.succ = .unit n → p < n)
    (h : (ofPositions block start stop positions).addDeps calls = .ok (g, answers)) :
    g.Forward b units := by
  have hstart : (ofPositions block start stop positions).Forward b units :=
    forward_ofPositions hunits
  generalize ofPositions block start stop positions = g₀ at h hstart
  induction calls generalizing g₀ answers with
  | nil =>
    cases h
    exact hstart
  | cons c calls ih =>
    simp only [addDeps, bind_eq_ok] at h
    obtain ⟨⟨g₁, isNew⟩, hadd, ⟨g₂, later⟩, hrest, h⟩ := h
    cases h
    obtain ⟨p, hp, hlater⟩ := hcalls c List.mem_cons_self
    exact ih (fun c hc => hcalls c (List.mem_cons_of_mem _ hc)) g₁ hrest
      (hstart.withDep hp hlater (withDep_of_addDep hadd))

end Graph

/-- A search leaves nothing uncovered. In a graph whose edges lead forward it comes to an end if the
oracle answers. It visits units one by one, the target first and none twice, and asks one question
at most at each. Every unit it visits is ordered behind the access or is apart from it in answer to
the question; behind one that is apart and may store, everything is visited that comes after it and
conflicts with the access. No edge is added but to visited units, and the result tells whether
there had to be one to the target. -/
theorem chain_leaves_nothing_uncovered (hd : d.graph.Forward m.block units)
    (hi : units[su]? = some i) (hlt : su < t) (ht : t < units.length) :
    (Answers m.oracle units → ∃ p, chain m (.unit su) (.unit t) d = .ok p) ∧
    ∀ linked d', chain m (.unit su) (.unit t) d = .ok (linked, d') → ∃ visits : List Stop,
      Follows m (.unit su) [(.unit t, 0)] (.blank units.length) d visits d' ∧
      (visits.map Stop.unit).Nodup ∧ ⟨t, 0⟩ ∈ visits ∧
      d'.asked = (visits.filterMap fun s => s.question? m units i).reverse ++ d.asked ∧
      (∀ s ∈ visits, d'.graph.HasEdge (.unit su) (.unit s.unit) .order none ∨
        s.RuledOut m units i) ∧
      (∀ s ∈ visits, s.RuledOut m units i → ∀ j, units[s.unit]? = some j → j.mayStore →
        ∀ y k r, units[y]? = some k → d'.graph.HasEdge (.unit s.unit) (.unit y) .order r →
          k.isGlobalAccess = false → conflicts i k → y ∈ visits.map Stop.unit) ∧
      d.graph.AddsOnly d'.graph (orderEdges su fun x => x ∈ visits.map Stop.unit) ∧
      (linked = true ↔ ¬Stop.RuledOut ⟨t, 0⟩ m units i) := by
  constructor
  · intro hanswers
    have hover : d.graph.Over m.block units d.graph := ⟨hd.wraps, rfl⟩
    obtain ⟨p, hp, -⟩ := chain_returns hanswers hover hlt ht
    exact ⟨p, hp⟩
  · intro linked d' h
    obtain ⟨behind, hfollows, hlinked⟩ := chain_follows hd.wraps hi hlt.ne ht h
    have hswept := hfollows.swept hd.wraps hi (by simp [Marks.blank])
    have hsealed : Sealed units su (su < ·) d.graph :=
      fun x j z r _ hx _ _ hedge => hx.trans (hd.lt x z _ r hedge)
    have hlater : ∀ s ∈ (⟨t, 0⟩ :: behind : List Stop), su < s.unit :=
      hfollows.inside hd.wraps hi hsealed (by simpa using hlt)
    refine ⟨_, hfollows, hswept.nodup, List.mem_cons_self, hswept.asked, hswept.answered, ?_,
      hswept.adds, hlinked⟩
    intro s hs hruled j hj hstore y k r hk hedge hglobal hconflict
    have hy : y ≠ su := by
      rintro rfl
      rcases hswept.adds.edge _ _ _ _ hedge with hold | ⟨hsu, -⟩
      · have := hd.lt _ _ _ _ hold
        have := hlater s hs
        omega
      · have := hlater s hs
        have := NodeId.unit.inj hsu
        omega
    exact (hswept.covered s hs hruled j hj hstore y k r hy hk hglobal hconflict hedge).resolve_left
      (Marks.not_isMet_blank y)

/-- A store that is apart from a later one, which had been put before a load from an unknown object. The
search goes on to the load, and the oracle knows nothing about it. -/
theorem chain_behind_separated_store :
    let store (offset : Int) := ({ opcode := "st" } : Instr).storing (.ofPrivate 7 offset 4)
    let load := (({ opcode := "ld" } : Instr).withDef ⟨2⟩).loading (.unknown 4)
    let units := [store 0, store 4, load]
    let m : MemoryScope := ⟨{ id := ⟨0⟩, instrs := units.toArray }, some Oracle.offsets, {}⟩
    let calls : List Request := [⟨.unit 2, .order (.unit 1) 1⟩]
    ∃ g answers d', (Graph.ofPositions ⟨0⟩ 0 3 [0, 1, 2]).addDeps calls = .ok (g, answers) ∧
      g.Forward m.block units ∧ Answers m.oracle units ∧
      chain m (.unit 0) (.unit 1) { graph := g } = .ok (false, d') ∧
      d'.graph.HasEdge (.unit 0) (.unit 2) .order none := by
  intro store load units m calls
  have hcalls : ((Graph.ofPositions ⟨0⟩ 0 3 [0, 1, 2]).addDeps calls).map
      (fun built => decide ((.unit 2, .order, none) ∈ built.1.outgoing (.unit 1))) = .ok true := by
    decide
  obtain ⟨⟨g, answers⟩, h, hedge⟩ := exists_of_map_decide hcalls
  have hforward : g.Forward m.block units :=
    Graph.forward_of_addDeps rfl (by simp [calls, Dep.order]) h
  have hanswers : Answers m.oracle units := by
    intro oracle horacle i hi j hj
    cases horacle
    have hall : ∀ i ∈ units, ∀ j ∈ units,
        (Oracle.offsets i j).map (fun _ => decide True) = .ok true := by decide
    obtain ⟨answer, hanswer, -⟩ := exists_of_map_decide (hall i hi j hj)
    exact ⟨answer, hanswer⟩
  have hlt : 0 < 1 := by decide
  have hlen : 1 < units.length := by decide
  obtain ⟨hreturns, hsearch⟩ := chain_leaves_nothing_uncovered (d := { graph := g }) hforward
    (show units[0]? = some (store 0) from rfl) hlt hlen
  obtain ⟨⟨linked, d'⟩, hchain⟩ := hreturns hanswers
  obtain ⟨visits, -, -, hfirst, -, hanswered, hcovered, hadds, hlinked⟩ := hsearch linked d' hchain
  have hruled : Stop.RuledOut ⟨1, 0⟩ m units (store 0) :=
    ⟨store 4, rfl, by decide, Oracle.offsets, rfl, by decide⟩
  obtain rfl : linked = false := by
    rw [← Bool.not_eq_true, hlinked, not_not]
    exact hruled
  have hmem : 2 ∈ visits.map Stop.unit :=
    hcovered _ hfirst hruled (store 4) rfl rfl 2 load none rfl (hadds.grows.edges _ _ _ _ hedge) rfl
      rfl
  obtain ⟨s, hs, hunit⟩ := List.mem_map.mp hmem
  refine ⟨g, answers, d', h, hforward, hanswers, hchain, ?_⟩
  rcases hanswered s hs with hnew | ⟨j, hj, -, oracle, horacle, hno⟩
  · exact hunit ▸ hnew
  · -- about the load the oracle says that nothing is known
    rw [hunit] at hj
    cases hj
    cases horacle
    exact absurd hno (by decide)

end Precedence
