import Precedence.Proofs.Graph.Emitted
import Precedence.Proofs.Order.Registers
import Precedence.Proofs.Walk.Confined

/-!
The shape of a finished graph. Barriers cut it: everything is ordered against them, and no edge leads
across one but for a virtual register. All edges lead forward and are stored alike at both ends, so
there is a topological order; it is accepted as a schedule, and its instruction order is made of the
positions of the region.
-/
namespace Precedence

/-! Positions -/

namespace Region

variable {r : Region} {b : Block}

/-- The positions of the instructions that become nodes. -/
def unitPositions (r : Region) (b : Block) : List Nat :=
  (List.range' r.start (r.stop - r.start)).filter fun pos =>
    b.instrs[pos]?.any fun i => !i.isDebugValue

theorem map_fst_body (hstop : r.stop ≤ b.instrs.size) :
    (r.body b).map Prod.fst = List.range' r.start (r.stop - r.start) := by
  have hlen : (b.instrs.toList.take r.stop).length = r.stop := by simpa using hstop
  calc (r.body b).map Prod.fst
      = ((b.instrs.toList.take r.stop).zipIdx.map Prod.snd).drop r.start := by
        simp [body, List.map_drop, Function.comp_def]
    _ = List.range' r.start (r.stop - r.start) := by
        rw [List.zipIdx_map_snd, hlen, List.drop_range', Nat.mul_one, Nat.zero_add]

/-- Instructions are picked out of a region by their positions. -/
theorem map_fst_filter_body (hstop : r.stop ≤ b.instrs.size) (p : Instr → Bool) :
    ((r.body b).filter fun e => p e.2).map Prod.fst =
      (List.range' r.start (r.stop - r.start)).filter fun pos => b.instrs[pos]?.any p := by
  rw [← map_fst_body hstop, List.filter_map]
  refine congrArg _ (List.filter_congr fun e he => ?_)
  simp [getElem?_of_mem_body he]

theorem map_fst_units (hstop : r.stop ≤ b.instrs.size) :
    (r.units b).map Prod.fst = r.unitPositions b :=
  map_fst_filter_body hstop fun i => !i.isDebugValue

theorem debugPositions_eq (hstop : r.stop ≤ b.instrs.size) : r.debugPositions b =
    (List.range' r.start (r.stop - r.start)).filter fun pos =>
      b.instrs[pos]?.any fun i => i.isDebugValue :=
  map_fst_filter_body hstop fun i => i.isDebugValue

theorem mem_debugPositions (hle : r.start ≤ r.stop) (hstop : r.stop ≤ b.instrs.size) {t : Nat} :
    t ∈ r.debugPositions b ↔
      r.start ≤ t ∧ t < r.stop ∧ b.instrs[t]?.any fun i => i.isDebugValue := by
  rw [debugPositions_eq hstop, List.mem_filter, List.mem_range'_1, Nat.add_sub_cancel' hle, and_assoc]

/-! Runs of debug values -/

/-- The debug values that stand from `pos` on without a gap, up to the end of the region. -/
def debugRun (r : Region) (b : Block) (pos : Nat) : List Nat :=
  (List.range' pos (r.stop - pos)).takeWhile fun t => b.instrs[t]?.any fun i => i.isDebugValue

/-- The debug values that open the region, and then each of the positions with the debug values right
behind it. -/
def emitted (r : Region) (b : Block) (positions : List Nat) : List Nat :=
  r.debugRun b r.start ++ positions.flatMap fun pos => pos :: r.debugRun b (pos + 1)

theorem debugRun_eq (hle : r.start ≤ r.stop) (hstop : r.stop ≤ b.instrs.size) {pos : Nat}
    (hpos : r.start ≤ pos) : r.debugRun b pos =
      if pos ∈ r.debugPositions b then pos :: r.debugRun b (pos + 1) else [] := by
  simp only [mem_debugPositions hle hstop, hpos, true_and]
  by_cases hlt : pos < r.stop
  · rw [debugRun, show r.stop - pos = r.stop - (pos + 1) + 1 by omega, List.range'_succ,
      List.takeWhile_cons]
    simp only [hlt, true_and]
    rfl
  · simp [debugRun, hlt, Nat.sub_eq_zero_of_le (not_lt.mp hlt)]

/-- A run of debug values that ends has been found. -/
theorem debugRun_eq_range' (hle : r.start ≤ r.stop) (hstop : r.stop ≤ b.instrs.size) {pos n : Nat}
    (hpos : r.start ≤ pos) (hrun : ∀ t, pos ≤ t → t < pos + n → t ∈ r.debugPositions b)
    (hend : pos + n ∉ r.debugPositions b) : r.debugRun b pos = List.range' pos n := by
  induction n generalizing pos with
  | zero => exact (debugRun_eq hle hstop hpos).trans (if_neg hend)
  | succ n ih =>
    have hrest : r.debugRun b (pos + 1) = List.range' (pos + 1) n := by
      apply ih (by omega) (fun t ht htn => hrun t (by omega) (by omega))
      rwa [show pos + 1 + n = pos + (n + 1) by omega]
    rw [debugRun_eq hle hstop hpos, if_pos (hrun pos le_rfl (by omega)), hrest, List.range'_succ]

/-- What a position brings along is the run of debug values right behind it. -/
theorem withDebug_eq (hle : r.start ≤ r.stop) (hstop : r.stop ≤ b.instrs.size) {pos : Nat}
    (hpos : r.start ≤ pos) :
    Graph.withDebug (Graph.anchors ((r.debugPositions b).filter (· != r.start))) pos =
      pos :: r.debugRun b (pos + 1) := by
  have hdebug : ∀ t, pos < t → (t ∈ (r.debugPositions b).filter (· != r.start) ↔
      t ∈ r.debugPositions b) := by
    intro t ht
    rw [List.mem_filter, bne_iff_ne, and_iff_left]
    omega
  have hnodup : (r.debugPositions b).Nodup := by
    rw [debugPositions_eq hstop]
    exact List.Nodup.filter _ List.nodup_range'
  have hafter : ∀ q ∈ (r.debugPositions b).filter (· != r.start), 0 < q := by
    intro q hq
    obtain ⟨hq, hne⟩ := List.mem_filter.mp hq
    have hstart := ((mem_debugPositions hle hstop).mp hq).1
    rw [bne_iff_ne] at hne
    omega
  obtain ⟨n, heq, hrun, hend⟩ := Graph.withDebug_eq (hnodup.filter _) hafter pos
  have hbehind : r.debugRun b (pos + 1) = List.range' (pos + 1) n := by
    refine debugRun_eq_range' hle hstop (by omega) (fun t ht htn => ?_) fun hmem => hend ?_
    · exact (hdebug t (by omega)).mp (hrun t (by omega) (by omega))
    · rw [show pos + n + 1 = pos + 1 + n by omega]
      exact (hdebug _ (by omega)).mpr hmem
  rw [heq, List.range'_succ, hbehind]

/-- What an opening debug value brings along opens the region. -/
theorem flatMap_openingDebug (hle : r.start ≤ r.stop) (hstop : r.stop ≤ b.instrs.size) :
    ((r.debugPositions b).find? (· == r.start)).toList.flatMap
      (Graph.withDebug (Graph.anchors ((r.debugPositions b).filter (· != r.start)))) =
      r.debugRun b r.start := by
  rw [debugRun_eq hle hstop le_rfl]
  cases hfind : (r.debugPositions b).find? (· == r.start) with
  | none =>
    have hnot : r.start ∉ r.debugPositions b := fun hmem => by
      simpa using List.find?_eq_none.mp hfind _ hmem
    rw [if_neg hnot]
    rfl
  | some t =>
    obtain rfl : t = r.start := by simpa using List.find?_some hfind
    rw [if_pos (List.mem_of_find?_eq_some hfind), Option.toList_some, List.flatMap_singleton,
      withDebug_eq hle hstop le_rfl]

/-- The units of a region in program order, with the debug values that they bring along, are the whole
region. -/
theorem emitted_unitPositions (hle : r.start ≤ r.stop) (hstop : r.stop ≤ b.instrs.size) :
    r.emitted b (r.unitPositions b) = List.range' r.start (r.stop - r.start) := by
  suffices hfrom : ∀ n pos, r.start ≤ pos → pos + n = r.stop → r.debugRun b pos ++
      ((List.range' pos n).filter fun t => b.instrs[t]?.any fun i => !i.isDebugValue).flatMap
        (fun t => t :: r.debugRun b (t + 1)) = List.range' pos n from
    hfrom _ _ le_rfl (Nat.add_sub_cancel' hle)
  intro n
  induction n with
  | zero =>
    rintro pos - rfl
    simp [debugRun]
  | succ n ih =>
    intro pos hpos hend
    have hlt : pos < b.instrs.size := by omega
    have hdebug : pos ∈ r.debugPositions b ↔ b.instrs[pos].isDebugValue := by
      simp [mem_debugPositions hle hstop, hpos, hlt, show pos < r.stop by omega]
    have hrest := ih (pos + 1) (by omega) (by omega)
    rw [debugRun_eq hle hstop hpos, List.range'_succ, List.filter_cons]
    cases hvalue : b.instrs[pos].isDebugValue with
    | true => simpa [hlt, hdebug, hvalue] using hrest
    | false => simpa [hlt, hdebug, hvalue] using hrest

theorem emitted_perm (hle : r.start ≤ r.stop) (hstop : r.stop ≤ b.instrs.size) {positions : List Nat}
    (h : positions.Perm (r.unitPositions b)) :
    (r.emitted b positions).Perm (List.range' r.start (r.stop - r.start)) := by
  rw [← emitted_unitPositions hle hstop]
  exact (h.flatMap_right _).append_left _

end Region

/-! Finished graphs -/

theorem Graph.map_instr_eq {g g' : Graph} (h : g'.position = g.position) :
    g'.nodes.toList.map Node.instr = g.nodes.toList.map Node.instr := by
  apply List.ext_getElem?
  intro i
  have hi := congrFun h (.unit i)
  simpa [position, node?] using hi

/-- What a finished graph is like: unit `k` wraps the instruction at the position numbered `k`, all
edges lead forward and are stored alike at both ends, and there is a topological order. The instruction
order of that one has all positions of the region, as far as there is room for them. -/
structure Graph.WellFormed (g : Graph) (r : Region) (b : Block) : Prop where
  numbered : g.nodes.toList.map Node.instr = (r.unitPositions b).map some
  inverse : ∀ pos id, g.nodeOf pos = some id ↔ ∃ k, id = .unit k ∧ (r.unitPositions b)[k]? = some pos
  forward : ∀ p n kind a, g.HasEdge p n kind a → ∃ x, p = .unit x ∧ x < g.nodes.size ∧
    (n = .exit ∨ ∃ y, n = .unit y ∧ x < y ∧ y < g.nodes.size)
  mirrored : g.Mirrored
  verified : g.verify = .ok ()
  scheduled : ∃ order, g.topologicalOrder = .ok (order ++ [.exit]) ∧
    (checkRoom (r.stop - r.start) 8 = .ok () → ∃ positions, g.emitOrder order = .ok positions ∧
      positions.Perm (List.range' r.start (r.stop - r.start)))

namespace Walk.Course

variable {s : Setup} {r : Region} {oracle : Option Oracle} {block : Block} {first last : Walk}

/-- What a graph says of its region has not changed since the start. -/
theorem outline (h : Course s r oracle block first last) :
    last.draft.graph.start = r.start ∧ last.draft.graph.stop = r.stop ∧
      last.draft.graph.debugValues =
        Graph.anchors ((r.debugPositions block).filter (· != r.start)) ∧
      last.draft.graph.openingDebug = (r.debugPositions block).find? (· == r.start) := by
  have houtline := h.grows.1.outline
  rw [Graph.unlinked_ok h.graph] at houtline
  simp only [Graph.outline, Graph.mk.injEq] at houtline
  obtain ⟨-, hstart, hstop, -, -, hdebug, hopening⟩ := houtline
  exact ⟨hstart, hstop, hdebug, hopening⟩

theorem numbered (h : Course s r oracle block first last) :
    last.draft.graph.nodes.toList.map Node.instr = (r.unitPositions block).map some := by
  rw [Graph.map_instr_eq h.grows.1.position, ← Region.map_fst_units h.stop_le,
    Graph.unlinked_ok h.graph]
  simp [Setup.nodeOf, Function.comp_def]

/-- Edges lead forward, since nothing but the exit and later units is ever in reach. -/
theorem forward (h : Course s r oracle block first last) (ht : s.timing.AdjustsLatencyOnly)
    {p n : NodeId} {kind : Kind} {a : Option Reg} (he : last.draft.graph.HasEdge p n kind a) :
    ∃ x, p = .unit x ∧ x < last.draft.graph.nodes.size ∧
      (n = .exit ∨ ∃ y, n = .unit y ∧ x < y ∧ y < last.draft.graph.nodes.size) := by
  obtain ⟨x, rfl, -, hfenced⟩ := (h.confined ht).edges p n kind a he
  have hfrom : n.IsFrom (x + 1) := hfenced.elim NodeId.InReach.isFrom And.left
  refine ⟨x, rfl, Graph.position_unit_isSome.mp (Graph.present_of_hasEdge he), ?_⟩
  cases n with
  | exit => exact .inl rfl
  | unit y =>
    have hy := h.grows.2.1.present _ _ _ _ he
    exact .inr ⟨y, rfl, hfrom, Graph.position_unit_isSome.mp hy⟩

/-- A schedule that keeps to the edges names the instructions of the region, each once. -/
theorem positionsOf_perm (h : Course s r oracle block first last) {schedule : List NodeId}
    (hadmits : last.draft.graph.Admits schedule) :
    (last.draft.graph.positionsOf schedule).Perm (r.unitPositions block) := by
  rw [← Graph.positionsOf_range h.numbered]
  exact hadmits.perm.filterMap _

/-- The instruction order of a schedule that keeps to the edges. -/
theorem emitOrder_eq (h : Course s r oracle block first last) {schedule : List NodeId}
    (hadmits : last.draft.graph.Admits schedule) (hroom : checkRoom (r.stop - r.start) 8 = .ok ()) :
    last.draft.graph.emitOrder schedule =
      .ok (r.emitted block (last.draft.graph.positionsOf schedule)) := by
  obtain ⟨hstart, hstop, hdebug, hopening⟩ := h.outline
  have hunits : ∀ pos ∈ last.draft.graph.positionsOf schedule, r.start ≤ pos := by
    intro pos hpos
    have hunit := (h.positionsOf_perm hadmits).mem_iff.mp hpos
    exact (List.mem_range'_1.mp (List.mem_filter.mp hunit).1).1
  rw [hadmits.emitOrder_eq (by rw [hstart, hstop]; exact h.start_le)
    (by rw [hstart, hstop]; exact hroom), hdebug, hopening, List.flatMap_append,
    Region.flatMap_openingDebug h.start_le h.stop_le, Region.emitted]
  congr 2
  exact List.flatMap_congr fun pos hpos => Region.withDebug_eq h.start_le h.stop_le (hunits pos hpos)

theorem wellFormed (h : Course s r oracle block first last) (ht : s.timing.AdjustsLatencyOnly) :
    last.draft.graph.WellFormed r block := by
  obtain ⟨-, hlinked, hmirrored⟩ := h.grows
  have hwf : WellFounded fun a b : Nat => last.draft.graph.Joins (.unit a) (.unit b) := by
    refine Subrelation.wf (fun {a b} hab => ?_) Nat.lt_wfRel.wf
    obtain ⟨kind, reg, he⟩ := hab
    obtain ⟨x, hx, -, hexit | ⟨y, hy, hlt, -⟩⟩ := h.forward ht he
    · cases hexit
    · cases hx
      cases hy
      exact hlt
  obtain ⟨l, horder, hperm, hinorder⟩ := Graph.topologicalOrder_ok hlinked hmirrored.distinct hwf
  have hnumbered := h.numbered
  have hadmits : last.draft.graph.Admits (l.map .unit) :=
    Graph.admits_iff.mpr ⟨l, rfl, hperm, hinorder⟩
  have hlt : (r.unitPositions block).Pairwise (· < ·) := List.Pairwise.filter _ List.pairwise_lt_range'
  exact {
    numbered := hnumbered
    inverse := fun pos id => Graph.nodeOf_eq_some hnumbered hlt
    forward := fun p n kind a => h.forward ht
    mirrored := hmirrored
    verified := Graph.verify_ok hlinked hmirrored.distinct hwf
    scheduled := ⟨l.map .unit, horder, fun hroom => ⟨_, h.emitOrder_eq hadmits hroom,
      Region.emitted_perm h.start_le h.stop_le (h.positionsOf_perm hadmits)⟩⟩ }

end Walk.Course

/-! What a builder promises -/

section

variable {s : Setup} {b b' : Builder} {r : Region} {oracle : Option Oracle} {g : Graph}

/-- A barrier cuts a region: all units are ordered against it, and what joins the two sides carries a
virtual register. -/
theorem barrier_cuts (htiming : s.timing.AdjustsLatencyOnly) (hb : b.Usable s)
    (h : b.buildRegion s r oracle = .ok (b', g)) {z : Nat} {i : Instr}
    (hi : (s.unitsOf r)[z]? = some i) (hbar : i.isBarrier) :
    (∀ x, x < z → g.reaches (.unit x) (.unit z) = .ok true) ∧
    (∀ y, z < y → y < (s.unitsOf r).length → g.reaches (.unit z) (.unit y) = .ok true) ∧
    ∀ x y kind a, g.HasEdge (.unit x) (.unit y) kind a → (x < z ∧ z < y) ∨ (y < z ∧ z < x) →
      ∃ v, a = some v ∧ v.isVirtual := by
  obtain ⟨hl, hsize, hpath⟩ := Builder.path_of_registers hb h
  have hz := (List.getElem?_eq_some_iff.mp hi).1
  have hreaches : ∀ x y j k, x < y → (s.unitsOf r)[x]? = some j → (s.unitsOf r)[y]? = some k →
      j.isBarrier ∨ k.isBarrier → g.reaches (.unit x) (.unit y) = .ok true := by
    intro x y j k hxy hj hk hbars
    refine Graph.reaches_of_path hl ?_ (hpath x y j k hxy hj hk (hbars.imp_right .inl))
    rw [Graph.position_unit_isSome, hsize]
    exact (List.getElem?_eq_some_iff.mp hj).1
  refine ⟨fun x hx => ?_, fun y hy hlen => ?_, fun x y kind a he hbetween => ?_⟩
  · exact hreaches x z _ i hx (List.getElem?_eq_getElem (by omega)) hi (.inr hbar)
  · exact hreaches z y i _ hy hi (List.getElem?_eq_getElem hlen) (.inl hbar)
  · obtain ⟨block, first, last, hcourse, rfl⟩ := Builder.course hb h
    obtain ⟨x', hx, -, hfenced⟩ := (hcourse.confined htiming).edges _ _ _ _ he
    cases hx
    rcases hfenced with ⟨hxy, hno⟩ | ⟨hxy, -, hvirtual⟩
    · refine absurd hbar (hno z i ?_ ?_ hi) <;> omega
    · exact hvirtual

/-- A call between a write and a read leaves no edge between them, but both are ordered against it. -/
theorem call_cuts_value :
    let op : Instr := { opcode := "op" }
    let call := ({ opcode := "call" } : Instr).calling
    let s := Setup.straightLine { count := 2 } [op.withDef ⟨1⟩, call, op.withUse ⟨1⟩]
    ∃ b' g, ({} : Builder).buildRegion s ⟨⟨0⟩, 0, 3⟩ none = .ok (b', g) ∧
      g.reaches (.unit 0) (.unit 1) = .ok true ∧ g.reaches (.unit 1) (.unit 2) = .ok true ∧
      ¬g.HasEdge (.unit 0) (.unit 2) .data (some ⟨1⟩) := by
  intro op call s
  have hok : (({} : Builder).buildRegion s ⟨⟨0⟩, 0, 3⟩ none).isOk = true := by cbv
  obtain ⟨⟨b', g⟩, h⟩ := exists_of_isOk hok
  obtain ⟨hfront, hback, hcross⟩ := barrier_cuts Timing.adjustsLatencyOnly_unit .fresh h
    (z := 1) (i := call) rfl rfl
  refine ⟨b', g, h, hfront 0 (by decide), hback 2 (by decide) (by decide), fun he => ?_⟩
  obtain ⟨v, hv, hvirtual⟩ := hcross 0 2 _ _ he (.inl (by decide))
  obtain rfl := Option.some.inj hv
  exact absurd hvirtual (by decide)

/-- Every graph that is built is well formed and has a schedule. -/
theorem wellFormed_of_build (htiming : s.timing.AdjustsLatencyOnly) (hb : b.Usable s)
    (h : b.buildRegion s r oracle = .ok (b', g)) :
    ∃ block, s.func.block r.block = .ok block ∧ g.WellFormed r block := by
  obtain ⟨block, first, last, hcourse, rfl⟩ := Builder.course hb h
  exact ⟨block, hcourse.block_eq, hcourse.wellFormed htiming⟩

/-- A debug value between a write and a read finds its place in the instruction order again. -/
theorem schedule_with_debugValue :
    let op : Instr := { opcode := "op" }
    let s := Setup.straightLine { count := 2 }
      [op.withDef ⟨1⟩, .debugValue ⟨1⟩, op.withUse ⟨1⟩]
    ∃ b' g order positions, ({} : Builder).buildRegion s ⟨⟨0⟩, 0, 3⟩ none = .ok (b', g) ∧
      g.verify = .ok () ∧ g.topologicalOrder = .ok (order ++ [.exit]) ∧
      g.emitOrder order = .ok positions ∧ positions.Perm [0, 1, 2] := by
  intro op s
  have hok : (({} : Builder).buildRegion s ⟨⟨0⟩, 0, 3⟩ none).isOk = true := by cbv
  obtain ⟨⟨b', g⟩, h⟩ := exists_of_isOk hok
  obtain ⟨block, -, hformed⟩ := wellFormed_of_build Timing.adjustsLatencyOnly_unit .fresh h
  obtain ⟨order, horder, hemit⟩ := hformed.scheduled
  obtain ⟨positions, hpositions, hperm⟩ := hemit rfl
  exact ⟨b', g, order, positions, h, hformed.verified, horder, hpositions, hperm⟩

end

end Precedence
