import Precedence.Build.Memory
import Precedence.Proofs.Graph.Paths
import Precedence.Proofs.Walk.Added

/-!
The visits of one search. A search that puts an access before another one visits units one by one,
each of them once, and what it leaves behind is told by the list of its visits: which questions were
asked, which edges are new, and that behind every access on whose word an edge was left out nothing
has been passed over.
-/
namespace Precedence

/-- The oracle rules out that the first access touches what the second one does. -/
def Separated (oracle : Option Oracle) (i j : Instr) : Prop :=
  ∃ answer, oracle = some answer ∧ answer i j = .ok .no

section

variable {m : MemoryScope} {units : List Instr} {su t depth : Nat} {i j : Instr} {g g' : Graph}
  {d d' : Draft}

theorem MemoryScope.instr_ok (hw : g.Wraps m.block units) (h : m.instr g (.unit t) = .ok j) :
    units[t]? = some j := by
  simp only [instr, bind_eq_ok] at h
  obtain ⟨o, ho, h⟩ := h
  obtain ⟨k, rfl, hk⟩ := hw.exists_instr ho
  cases h
  exact hk

theorem keepConflicting_ok {l kept : List NodeId} (h : keepConflicting m g i l = .ok kept) :
    (∀ n ∈ kept, n ∈ l) ∧ ∀ n ∈ l, ∃ j, m.instr g n = .ok j ∧
      (j.isGlobalAccess = false → conflicts i j → n ∈ kept) := by
  induction l generalizing kept with
  | nil =>
    cases h
    simp
  | cons n l ih =>
    simp only [keepConflicting, bind_eq_ok, pure_eq_ok] at h
    obtain ⟨j, hj, rest, hrest, rfl⟩ := h
    obtain ⟨hsub, hkept⟩ := ih hrest
    refine ⟨fun n' hn' => ?_, fun n' hn' => ?_⟩
    · split at hn'
      · rcases List.mem_cons.mp hn' with rfl | hn'
        · exact List.mem_cons_self
        · exact List.mem_cons_of_mem n (hsub n' hn')
      · exact List.mem_cons_of_mem n (hsub n' hn')
    · rcases List.mem_cons.mp hn' with rfl | hn'
      · exact ⟨j, hj, fun hd hc => by simp [hd, hc]⟩
      · obtain ⟨j', hj', hin⟩ := hkept n' hn'
        refine ⟨j', hj', fun hd hc => ?_⟩
        have := hin hd hc
        split <;> simp [this]

theorem coveredBy_ok {l : List NodeId} (hw : g.Wraps m.block units)
    (h : coveredBy m i (.unit t) g = .ok l) :
    (∀ n ∈ l, n ≠ .exit ∧ ∃ r, g.HasEdge (.unit t) n .order r) ∧ ∀ z k r, units[z]? = some k →
      k.isGlobalAccess = false → conflicts i k → g.HasEdge (.unit t) (.unit z) .order r →
      .unit z ∈ l := by
  simp only [coveredBy, bind_eq_ok, Graph.node_eq_ok] at h
  obtain ⟨n, hn, h⟩ := h
  have hsuccs : g.succsOf (.unit t) = n.succs := by simp [Graph.succsOf_eq, hn]
  obtain ⟨hsub, hkept⟩ := keepConflicting_ok h
  refine ⟨fun n' hn' => ?_, fun z k r hk hd hc he => ?_⟩
  · obtain ⟨e, he, rfl⟩ := List.mem_map.mp (hsub n' hn')
    simp only [List.mem_filter, Bool.and_eq_true, beq_iff_eq, bne_iff_ne] at he
    obtain ⟨hmem, hkind, hexit⟩ := he
    exact ⟨hexit, e.reg, hkind ▸ List.mem_map_of_mem (hsuccs ▸ hmem)⟩
  · obtain ⟨e, hmem, hec⟩ := List.mem_map.mp he
    simp only [Dep.constraint, Prod.mk.injEq] at hec
    obtain ⟨hnode, hkind, -⟩ := hec
    obtain ⟨j, hj, hin⟩ := hkept (.unit z) (List.mem_map.mpr ⟨e, List.mem_filter.mpr
      ⟨hsuccs ▸ hmem, by simp [hnode, hkind]⟩, hnode⟩)
    obtain rfl := Option.some.inj (hk.symm.trans (MemoryScope.instr_ok hw hj))
    exact hin hd hc

/-! The two halves of a visit -/

/-- Whether the oracle is asked about two accesses, the second one behind so many separated ones. -/
def asks (m : MemoryScope) (depth : Nat) (i j : Instr) : Bool :=
  m.oracle.isSome && decide (depth < m.options.maxChainDepth) && !i.isGlobalAccess &&
    !j.isGlobalAccess

/-- Whether two accesses are apart, as far as the oracle is asked. -/
def askApart (m : MemoryScope) (i j : Instr) (depth : Nat) (d : Draft) :
    Except Fault (Bool × Draft) :=
  if depth < m.options.maxChainDepth then separates m i j d else .ok (false, d)

/-- Where to go on behind an access that `i` is apart from. -/
def behind (m : MemoryScope) (i j : Instr) (target : NodeId) (g : Graph) :
    Except Fault (List NodeId) :=
  if j.mayStore then coveredBy m i target g else .ok []

/-- Ends the visit of `target`, which `su` is apart from or not. -/
def endVisit (m : MemoryScope) (su target : NodeId) (i j : Instr) (p : Bool × Draft) :
    Except Fault Visit := do
  if p.1 then
    let next ← behind m i j target p.2.graph
    return { draft := { p.2 with omitted := p.2.omitted + 1 }, linked := false, next }
  else
    let d ← p.2.withDep target (.order su (orderLatency i j))
    return { draft := d, linked := true, next := [] }

theorem visitChain_eq (self target : NodeId) : visitChain m self target depth d = (do
    let i ← m.instr d.graph self
    let j ← m.instr d.graph target
    let p ← askApart m i j depth d
    endVisit m self target i j p) := by
  unfold visitChain askApart endVisit behind
  refine bind_congr fun i => bind_congr fun j => ?_
  by_cases hdepth : depth < m.options.maxChainDepth
  · simp only [if_pos hdepth]
    refine bind_congr fun ⟨apart, e⟩ => ?_
    by_cases hstore : j.mayStore <;> simp only [hstore] <;> rfl
  · simp only [if_neg hdepth]
    rfl

/-- Two accesses are apart exactly if the oracle is asked about them and separates them. -/
theorem askApart_exact {apart : Bool} (h : askApart m i j depth d = .ok (apart, d')) :
    d'.graph = d.graph ∧ (apart = true ↔ asks m depth i j ∧ Separated m.oracle i j) ∧
      d'.asked = (if asks m depth i j then [(i, j)] else []) ++ d.asked := by
  have hunasked : asks m depth i j = false → apart = false ∧ d' = d →
      d'.graph = d.graph ∧ (apart = true ↔ asks m depth i j ∧ Separated m.oracle i j) ∧
        d'.asked = (if asks m depth i j then [(i, j)] else []) ++ d.asked := by
    rintro hasks ⟨rfl, rfl⟩
    simp [hasks]
  unfold askApart at h
  split at h
  next hdepth =>
    unfold separates at h
    split at h
    next horacle =>
      cases h
      exact hunasked (by simp [asks, horacle]) ⟨rfl, rfl⟩
    next oracle horacle =>
      split at h
      next hglobal =>
        cases h
        refine hunasked ?_ ⟨rfl, rfl⟩
        rcases Bool.or_eq_true_iff.mp hglobal with hg | hg <;> simp [asks, hg]
      next hglobal =>
        simp only [bind_eq_ok, pure_eq_ok, Prod.mk.injEq] at h
        obtain ⟨answer, hanswer, rfl, rfl⟩ := h
        have hasks : asks m depth i j = true := by
          simp only [Bool.or_eq_true, not_or, Bool.not_eq_true] at hglobal
          simp [asks, horacle, hdepth, hglobal.1, hglobal.2]
        have hno : (answer == .no) = true ↔ Separated m.oracle i j := by
          rw [beq_iff_eq]
          constructor
          · rintro rfl
            exact ⟨oracle, horacle, hanswer⟩
          · rintro ⟨oracle', horacle', hanswer'⟩
            obtain rfl := Option.some.inj (horacle.symm.trans horacle')
            exact Except.ok.inj (hanswer.symm.trans hanswer')
        simp [hasks, hno]
  next hdepth =>
    cases h
    exact hunasked (by simp [asks, hdepth]) ⟨rfl, rfl⟩

theorem asks_described (h : asks m depth i j) :
    i.isGlobalAccess = false ∧ j.isGlobalAccess = false := by
  simp only [asks, Bool.and_eq_true, Bool.not_eq_true'] at h
  exact ⟨h.1.2, h.2⟩

theorem askApart_ok {apart : Bool} (h : askApart m i j depth d = .ok (apart, d')) :
    d'.graph = d.graph ∧ (apart → i.isGlobalAccess = false ∧ j.isGlobalAccess = false ∧
      Separated m.oracle i j) := by
  obtain ⟨hgraph, hapart, -⟩ := askApart_exact h
  refine ⟨hgraph, fun hno => ?_⟩
  obtain ⟨hasks, hsep⟩ := hapart.mp hno
  exact ⟨(asks_described hasks).1, (asks_described hasks).2, hsep⟩

theorem endVisit_ok {self target : NodeId} {p : Bool × Draft} {v : Visit}
    (h : endVisit m self target i j p = .ok v) :
    (p.1 = true ∧ ∃ next, behind m i j target p.2.graph = .ok next ∧
      v = ⟨{ p.2 with omitted := p.2.omitted + 1 }, false, next⟩) ∨
    (p.1 = false ∧ ∃ d', p.2.withDep target (.order self (orderLatency i j)) = .ok d' ∧
      v = ⟨d', true, []⟩) := by
  unfold endVisit at h
  split at h
  next hapart =>
    simp only [bind_eq_ok, pure_eq_ok] at h
    obtain ⟨next, hnext, rfl⟩ := h
    exact .inl ⟨hapart, next, hnext, rfl⟩
  next hlinked =>
    simp only [bind_eq_ok, pure_eq_ok] at h
    obtain ⟨d', hd, rfl⟩ := h
    exact .inr ⟨by simpa using hlinked, d', hd, rfl⟩

/-- The edges by which memory orders `su` before units of a set. -/
def orderEdges (su : Nat) (P : Nat → Prop) : EdgeSet := fun p n k r =>
  p = .unit su ∧ r = none ∧ k = .order ∧ ∃ t, n = .unit t ∧ P t

/-- Two described accesses that the oracle separates, the second one at `t`. -/
def Apart (m : MemoryScope) (units : List Instr) (i : Instr) (t : Nat) : Prop :=
  i.isGlobalAccess = false ∧
    ∃ j, units[t]? = some j ∧ j.isGlobalAccess = false ∧ Separated m.oracle i j

/-- What a visit of the access at `t` leaves behind: an edge, or two separated accesses and all that
the later one stands in for to be visited next. -/
structure Visited (m : MemoryScope) (units : List Instr) (su : Nat) (i : Instr) (t : Nat)
    (d : Draft) (v : Visit) : Prop where
  adds : d.graph.AddsOnly v.draft.graph (orderEdges su (· = t))
  found : ∀ n ∈ v.next, v.linked = false ∧ n ≠ .exit ∧ ∃ r, d.graph.HasEdge (.unit t) n .order r
  linked : v.linked → v.draft.graph.HasEdge (.unit su) (.unit t) .order none
  apart : v.linked = false → Apart m units i t
  next : v.linked = false → ∀ j, units[t]? = some j → j.mayStore → ∀ z k r, units[z]? = some k →
    k.isGlobalAccess = false → conflicts i k →
    d.graph.HasEdge (.unit t) (.unit z) .order r → .unit z ∈ v.next

theorem Visited.grows {v : Visit} (h : Visited m units su i t d v) :
    d.graph.Grows v.draft.graph := h.adds.grows

theorem visitChain_ok {v : Visit} (hw : d.graph.Wraps m.block units) (hi : units[su]? = some i)
    (h : visitChain m (.unit su) (.unit t) depth d = .ok v) : Visited m units su i t d v := by
  simp only [visitChain_eq, bind_eq_ok] at h
  obtain ⟨i', hi', j, hj, ⟨apart, d₁⟩, hask, h⟩ := h
  obtain rfl := Option.some.inj (hi.symm.trans (MemoryScope.instr_ok hw hi'))
  replace hj := MemoryScope.instr_ok hw hj
  obtain ⟨hgraph, hapart⟩ := askApart_ok hask
  rcases endVisit_ok h with ⟨rfl, next, hnext, rfl⟩ | ⟨rfl, d₂, hdep, rfl⟩
  · obtain ⟨hig, hjg, hsep⟩ := hapart rfl
    rw [hgraph, behind] at hnext
    split at hnext
    next =>
      obtain ⟨hfound, hcovered⟩ := coveredBy_ok hw hnext
      exact ⟨hgraph ▸ .refl _ _, fun n hn => ⟨rfl, hfound n hn⟩, nofun,
        fun _ => ⟨hig, j, hj, hjg, hsep⟩, fun _ _ _ _ => hcovered⟩
    next hstore =>
      obtain rfl := Except.ok.inj hnext
      refine ⟨hgraph ▸ .refl _ _, by simp, nofun, fun _ => ⟨hig, j, hj, hjg, hsep⟩,
        fun _ j' hj' hs => ?_⟩
      obtain rfl := Option.some.inj (hj.symm.trans hj')
      exact absurd hs hstore
  · have hadds := Draft.withDep_adds (hgraph ▸ hw.linked) hdep
    rw [hgraph] at hadds
    refine ⟨hadds.only.mono ?_, by simp, fun _ => ?_, nofun, nofun⟩
    · rintro p n k r ⟨rfl, rfl, rfl, rfl⟩
      exact ⟨rfl, rfl, rfl, t, rfl, rfl⟩
    · exact (hadds.edge_iff ..).mpr (.inr ⟨rfl, rfl, rfl, rfl⟩)

/-- A set of units that order edges from the described accesses in it do not leave, those from `su`
aside. -/
def Sealed (units : List Instr) (su : Nat) (P : Nat → Prop) (g : Graph) : Prop :=
  ∀ t j z r, t ≠ su → P t → units[t]? = some j → j.isGlobalAccess = false →
    g.HasEdge (.unit t) (.unit z) .order r → P z

variable {P : Nat → Prop}

/-- Edges that leave `su` break no seal. -/
theorem Sealed.of_adds {new : EdgeSet} (h : Sealed units su P g) (hg : g.AddsOnly g' new)
    (hnew : ∀ p n k r, new p n k r → p = .unit su) : Sealed units su P g' := by
  intro t j z r hne ht hj hd he
  rcases hg.edge _ _ _ _ he with he | hmem
  · exact h t j z r hne ht hj hd he
  · cases hnew _ _ _ _ hmem
    exact absurd rfl hne

theorem Sealed.of_orderEdges {Q : Nat → Prop} (h : Sealed units su P g)
    (hg : g.AddsOnly g' (orderEdges su Q)) : Sealed units su P g' :=
  h.of_adds hg fun _ _ _ _ hmem => hmem.1

theorem orderEdges_mono {Q : Nat → Prop} (h : ∀ t, P t → Q t) :
    ∀ p n k r, orderEdges su P p n k r → orderEdges su Q p n k r := by
  rintro p n k r ⟨rfl, rfl, rfl, t, rfl, ht⟩
  exact ⟨rfl, rfl, rfl, t, rfl, h t ht⟩

/-- A search that begins in a sealed set stays in it. -/
theorem Visited.next_mem {v : Visit} (h : Visited m units su i t d v)
    (hP : Sealed units su P d.graph) (hne : t ≠ su) (ht : P t) : ∀ n ∈ v.next, ∃ z, n = .unit z ∧ P z := by
  intro n hn
  obtain ⟨hlinked, hexit, r, he⟩ := h.found n hn
  obtain ⟨-, j, hj, hd, -⟩ := h.apart hlinked
  cases n with
  | exit => exact absurd rfl hexit
  | unit z => exact ⟨z, rfl, hP t j z r hne ht hj hd he⟩

end

/-! All visits -/

/-- The visit of a unit behind so many separated accesses. -/
structure Stop where
  unit : Nat
  depth : Nat
deriving DecidableEq

namespace Stop

variable {m : MemoryScope} {units : List Instr} {i j : Instr}

/-- The question that is put to the oracle at a stop. -/
def question? (s : Stop) (m : MemoryScope) (units : List Instr) (i : Instr) :
    Option (Instr × Instr) :=
  (units[s.unit]?.filter (asks m s.depth i)).map fun j => (i, j)

/-- The oracle is asked at a stop and says that the two never touch the same byte. -/
def RuledOut (s : Stop) (m : MemoryScope) (units : List Instr) (i : Instr) : Prop :=
  ∃ j, units[s.unit]? = some j ∧ asks m s.depth i j ∧ Separated m.oracle i j

end Stop

/-- The visits of a search, one after the other: nodes that are not units, the access itself and units
that carry a mark are passed over, and what a visit finds is visited before all the rest. -/
inductive Follows (m : MemoryScope) (su : NodeId) :
    List (NodeId × Nat) → Marks → Draft → List Stop → Draft → Prop
  | done (met : Marks) (d : Draft) : Follows m su [] met d [] d
  | skip {target : NodeId} {depth : Nat} {todo : List (NodeId × Nat)} {met : Marks} {d d' : Draft}
      {visits : List Stop} (old : ¬(target ≠ su ∧ met.isFresh target))
      (rest : Follows m su todo met d visits d') :
      Follows m su ((target, depth) :: todo) met d visits d'
  | visit {t depth : Nat} {todo : List (NodeId × Nat)} {met : Marks} {d d' : Draft} {v : Visit}
      {visits : List Stop} (new : .unit t ≠ su ∧ met.isFresh (.unit t))
      (first : visitChain m su (.unit t) depth d = .ok v)
      (rest : Follows m su (v.next.map (fun id => (id, depth + 1)) ++ todo) (met.mark (.unit t))
        v.draft visits d') :
      Follows m su ((.unit t, depth) :: todo) met d (⟨t, depth⟩ :: visits) d'

variable {m : MemoryScope} {units : List Instr} {su t depth : Nat} {i j : Instr}
  {d d' : Draft} {todo : List (NodeId × Nat)} {met : Marks} {visits : List Stop} {v : Visit}

theorem Stop.RuledOut.apart {s : Stop} (h : s.RuledOut m units i) : Apart m units i s.unit := by
  obtain ⟨j, hj, hasks, hsep⟩ := h
  exact ⟨(asks_described hasks).1, j, hj, (asks_described hasks).2, hsep⟩

theorem followChain_eq_ok {su : NodeId} :
    followChain m su todo met d = .ok d' ↔ ∃ visits, Follows m su todo met d visits d' := by
  constructor
  · intro h
    fun_induction followChain m su todo met d with
    | case1 met d =>
      cases h
      exact ⟨[], .done met _⟩
    | case2 => cases h
    | case3 target depth todo met d hfresh v hv ih =>
      obtain ⟨visits, hrest⟩ := ih h
      cases target with
      | exit => simp [Marks.isFresh] at hfresh
      | unit t => exact ⟨_, .visit hfresh hv hrest⟩
    | case4 target depth todo met d hold ih =>
      obtain ⟨visits, hrest⟩ := ih h
      exact ⟨visits, .skip hold hrest⟩
  · rintro ⟨visits, h⟩
    induction h with
    | done => rw [followChain]
    | skip old _ ih => rw [followChain, dif_neg old, ih]
    | visit new first _ ih =>
      rw [followChain, dif_pos new, first]
      exact ih

/-- A visit asks no more than its own question, and it adds its edge unless the answer rules that
out. -/
theorem visitChain_exact (hw : d.graph.Wraps m.block units) (hi : units[su]? = some i)
    (h : visitChain m (.unit su) (.unit t) depth d = .ok v) :
    (v.linked = true ↔ ¬Stop.RuledOut ⟨t, depth⟩ m units i) ∧
      v.draft.asked = (Stop.question? ⟨t, depth⟩ m units i).toList ++ d.asked := by
  simp only [visitChain_eq, bind_eq_ok] at h
  obtain ⟨i', hi', j, hj, ⟨apart, d₁⟩, hask, h⟩ := h
  obtain rfl := Option.some.inj (hi.symm.trans (MemoryScope.instr_ok hw hi'))
  replace hj := MemoryScope.instr_ok hw hj
  obtain ⟨-, hapart, hasked⟩ := askApart_exact hask
  have hruled : Stop.RuledOut ⟨t, depth⟩ m units i ↔ apart = true := by
    rw [hapart]
    constructor
    · rintro ⟨k, hk, hno⟩
      obtain rfl := Option.some.inj (hj.symm.trans hk)
      exact hno
    · exact fun hno => ⟨j, hj, hno⟩
  have hquestion : (Stop.question? ⟨t, depth⟩ m units i).toList =
      if asks m depth i j then [(i, j)] else [] := by
    cases hasks : asks m depth i j <;> simp [Stop.question?, hj, Option.filter, hasks]
  rw [hquestion, hruled, ← hasked]
  rcases endVisit_ok h with ⟨rfl, next, -, rfl⟩ | ⟨rfl, d₂, hdep, rfl⟩
  · simp
  · simp only [Draft.withDep, bind_eq_ok, pure_eq_ok] at hdep
    obtain ⟨g, -, rfl⟩ := hdep
    simp

/-- What the visits of a search come to. -/
structure Swept (m : MemoryScope) (units : List Instr) (su : Nat) (i : Instr)
    (todo : List (NodeId × Nat)) (met : Marks) (d : Draft) (visits : List Stop) (d' : Draft) :
    Prop where
  adds : d.graph.AddsOnly d'.graph (orderEdges su fun t => t ∈ visits.map Stop.unit)
  nodup : (visits.map Stop.unit).Nodup
  fresh : ∀ t ∈ visits.map Stop.unit, ¬met.IsMet t
  asked : d'.asked = (visits.filterMap fun s => s.question? m units i).reverse ++ d.asked
  answered : ∀ s ∈ visits, d'.graph.HasEdge (.unit su) (.unit s.unit) .order none ∨
    s.RuledOut m units i
  todo : ∀ e ∈ todo, ∀ t, e.1 = .unit t → t ≠ su → t < units.length →
    met.IsMet t ∨ t ∈ visits.map Stop.unit
  covered : ∀ s ∈ visits, s.RuledOut m units i → ∀ j, units[s.unit]? = some j → j.mayStore →
    ∀ y k r, y ≠ su → units[y]? = some k → k.isGlobalAccess = false → conflicts i k →
      d'.graph.HasEdge (.unit s.unit) (.unit y) .order r → met.IsMet y ∨ y ∈ visits.map Stop.unit

namespace Swept

theorem done (met : Marks) (d : Draft) : Swept m units su i [] met d [] d where
  adds := .refl _ _
  nodup := List.nodup_nil
  fresh := nofun
  asked := rfl
  answered := nofun
  todo := nofun
  covered := nofun

theorem skip {target : NodeId} (hsize : met.flags.size = units.length)
    (hold : ¬(target ≠ .unit su ∧ met.isFresh target))
    (h : Swept m units su i todo met d visits d') :
    Swept m units su i ((target, depth) :: todo) met d visits d' :=
  { h with
    todo := by
      intro e he t het hne hlt
      rcases List.mem_cons.mp he with rfl | he
      · obtain rfl : target = .unit t := het
        have hmet : met.IsMet t := Marks.isMet_of_not_fresh (hsize ▸ hlt)
          fun hfresh => hold ⟨by simpa using hne, hfresh⟩
        exact .inl hmet
      · exact h.todo e he t het hne hlt }

theorem visit (hw : d.graph.Wraps m.block units) (hi : units[su]? = some i)
    (hnew : .unit t ≠ NodeId.unit su ∧ met.isFresh (.unit t))
    (hfirst : visitChain m (.unit su) (.unit t) depth d = .ok v)
    (h : Swept m units su i (v.next.map (fun id => (id, depth + 1)) ++ todo) (met.mark (.unit t))
      v.draft visits d') :
    Swept m units su i ((.unit t, depth) :: todo) met d (⟨t, depth⟩ :: visits) d' := by
  have hvisit := visitChain_ok hw hi hfirst
  obtain ⟨hlinked, hasked⟩ := visitChain_exact hw hi hfirst
  obtain ⟨hlt, hunmarked⟩ : ∃ hlt : t < met.flags.size, met.flags[t] = false := by
    simpa [Marks.isFresh, Array.getElem?_eq_some_iff] using hnew.2
  have hmark : ∀ u, (met.mark (.unit t)).IsMet u ↔ u = t ∨ met.IsMet u :=
    fun u => Marks.isMet_mark hlt
  have hadds : d.graph.AddsOnly d'.graph
      (orderEdges su fun u => u ∈ (⟨t, depth⟩ :: visits).map Stop.unit) := by
    refine (hvisit.adds.mono (orderEdges_mono ?_)).trans (h.adds.mono (orderEdges_mono ?_))
    · rintro u rfl
      exact List.mem_cons_self
    · exact fun u => List.mem_cons_of_mem t
  -- what the marks of the rest say, in terms of the marks before
  have hseen : ∀ u, (met.mark (.unit t)).IsMet u ∨ u ∈ visits.map Stop.unit →
      met.IsMet u ∨ u ∈ (⟨t, depth⟩ :: visits).map Stop.unit := by
    rintro u (hu | hu)
    · rcases (hmark u).mp hu with rfl | hu
      · exact .inr List.mem_cons_self
      · exact .inl hu
    · exact .inr (List.mem_cons_of_mem t hu)
  constructor
  case adds => exact hadds
  case nodup =>
    rw [List.map_cons, List.nodup_cons]
    exact ⟨fun hmem => h.fresh t hmem ((hmark t).mpr (.inl rfl)), h.nodup⟩
  case fresh =>
    intro u hu
    rcases List.mem_cons.mp hu with rfl | hu
    · simp [Marks.IsMet, hlt, hunmarked]
    · exact fun hmet => h.fresh u hu ((hmark u).mpr (.inr hmet))
  case asked =>
    rw [h.asked, hasked, List.filterMap_cons]
    cases Stop.question? ⟨t, depth⟩ m units i <;> simp
  case answered =>
    intro s hs
    rcases List.mem_cons.mp hs with rfl | hs
    · by_cases hruled : Stop.RuledOut ⟨t, depth⟩ m units i
      · exact .inr hruled
      · exact .inl (h.adds.grows.edges _ _ _ _ (hvisit.linked (hlinked.mpr hruled)))
    · exact h.answered s hs
  case todo =>
    intro e he u heu hu hlen
    rcases List.mem_cons.mp he with rfl | he
    · cases heu
      exact .inr List.mem_cons_self
    · exact hseen u (h.todo e (List.mem_append_right _ he) u heu hu hlen)
  case covered =>
    intro s hs hruled j hj hstore y k r hy hk hglobal hconflict hedge
    apply hseen y
    rcases List.mem_cons.mp hs with rfl | hs
    · -- only edges that leave the access itself are new, so this one was there at the visit
      have hold : d.graph.HasEdge (.unit t) (.unit y) .order r := by
        rcases hadds.edge _ _ _ _ hedge with hold | ⟨hsu, -⟩
        · exact hold
        · exact absurd hsu hnew.1
      have hunlinked : v.linked = false := by
        rw [← Bool.not_eq_true, hlinked, not_not]
        exact hruled
      have hnext := hvisit.next hunlinked j hj hstore y k r hk hglobal hconflict hold
      have htodo : (NodeId.unit y, depth + 1) ∈ v.next.map fun id => (id, depth + 1) :=
        List.mem_map_of_mem hnext
      have hlen : y < units.length := (List.getElem?_eq_some_iff.mp hk).1
      exact h.todo _ (List.mem_append_left _ htodo) y rfl hy hlen
    · exact h.covered s hs hruled j hj hstore y k r hy hk hglobal hconflict hedge

end Swept

namespace Follows

theorem swept (h : Follows m (.unit su) todo met d visits d') (hw : d.graph.Wraps m.block units)
    (hi : units[su]? = some i) (hsize : met.flags.size = units.length) :
    Swept m units su i todo met d visits d' := by
  induction h with
  | done met d => exact .done met d
  | skip old _ ih => exact (ih hw hsize).skip hsize old
  | visit new first _ ih =>
    have hgrows := (visitChain_ok hw hi first).grows
    exact .visit hw hi new first (ih (hw.grows hgrows) (by simpa [Marks.mark] using hsize))

/-- A search that begins in a sealed set visits no unit outside of it. -/
theorem inside {P : Nat → Prop} (h : Follows m (.unit su) todo met d visits d')
    (hw : d.graph.Wraps m.block units) (hi : units[su]? = some i)
    (hP : Sealed units su P d.graph) (htodo : ∀ e ∈ todo, ∃ t, e.1 = .unit t ∧ P t) :
    ∀ s ∈ visits, P s.unit := by
  induction h with
  | done => simp
  | skip old _ ih => exact ih hw hP fun e he => htodo e (List.mem_cons_of_mem _ he)
  | @visit t depth todo met d d' v visits new first _ ih =>
    obtain ⟨_, heq, ht⟩ := htodo _ List.mem_cons_self
    cases heq
    have hvisit := visitChain_ok hw hi first
    have hrest := ih (hw.grows hvisit.grows) (hP.of_orderEdges hvisit.adds) (by
      intro e he
      rcases List.mem_append.mp he with he | he
      · obtain ⟨n, hn, rfl⟩ := List.mem_map.mp he
        exact hvisit.next_mem hP (by simpa using new.1) ht n hn
      · exact htodo e (List.mem_cons_of_mem _ he))
    intro s hs
    rcases List.mem_cons.mp hs with rfl | hs
    · exact ht
    · exact hrest s hs

end Follows

/-- A search for one target is its visit and the visits behind it. -/
theorem chain_follows {linked : Bool} (hw : d.graph.Wraps m.block units) (hi : units[su]? = some i)
    (hne : su ≠ t) (ht : t < units.length)
    (h : chain m (.unit su) (.unit t) d = .ok (linked, d')) :
    ∃ behind, Follows m (.unit su) [(.unit t, 0)] (.blank units.length) d (⟨t, 0⟩ :: behind) d' ∧
      (linked = true ↔ ¬Stop.RuledOut ⟨t, 0⟩ m units i) := by
  unfold chain at h
  rw [if_neg (by simpa using hne)] at h
  simp only [bind_eq_ok, pure_eq_ok, Prod.mk.injEq] at h
  obtain ⟨v, hv, d₁, hd, rfl, rfl⟩ := h
  have hgrows := (visitChain_ok hw hi hv).grows
  rw [(hw.grows hgrows).size_eq] at hd
  obtain ⟨behind, hfollows⟩ := followChain_eq_ok.mp hd
  have hnew : NodeId.unit t ≠ .unit su ∧ (Marks.blank units.length).isFresh (.unit t) := by
    simp [Marks.isFresh, Marks.blank, ht, hne.symm]
  exact ⟨behind, .visit hnew hv (by simpa using hfollows), (visitChain_exact hw hi hv).1⟩

end Precedence
