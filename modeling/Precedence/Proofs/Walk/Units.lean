import Precedence.Build.Builder
import Precedence.Proofs.Graph.Edges

/-!
The units of a region and the walk that visits them from the last to the first. A graph wraps its
units when it has one node for each, in order; what the walk keeps from one unit to the next holds
of the graph it ends with.
-/
namespace Precedence

/-- The instructions of a region that become nodes, in program order. -/
def Setup.unitsOf (s : Setup) (r : Region) : List Instr :=
  match s.func.block r.block with
  | .ok b => (r.units b).map Prod.snd
  | .error _ => []

/-- One block of straight-line code. -/
def Setup.straightLine (f : RegisterFile) (instrs : List Instr) : Setup where
  func := { blocks := [{ id := ⟨0⟩, instrs := instrs.toArray }] }
  regs := f.info
  timing := .unit

/-! Units from some position on -/

theorem not_unit_of_length_le {units : List Instr} {x : Nat} {i : Instr} (hx : units.length ≤ x) :
    units[x]? ≠ some i := by
  simp [List.getElem?_eq_none hx]

theorem this_or_later {units : List Instr} {su x : Nat} {i j : Instr} (hi : units[su]? = some i)
    (hx : su ≤ x) (hj : units[x]? = some j) : (x = su ∧ j = i) ∨ su < x := by
  rcases Nat.eq_or_lt_of_le hx with rfl | hx
  · exact .inl ⟨rfl, Option.some.inj (hj.symm.trans hi)⟩
  · exact .inr hx

/-- Unit `y` is in sight of unit `k`: from `k` on, no unit in front of `y` hides what is behind it. -/
def InSight (units : List Instr) (hides : Instr → Prop) (k y : Nat) : Prop :=
  k ≤ y ∧ ∀ z i, k ≤ z → z < y → units[z]? = some i → ¬hides i

theorem InSight.self {units : List Instr} {hides : Instr → Prop} (k : Nat) :
    InSight units hides k k :=
  ⟨le_rfl, fun _ _ hz hzk => absurd hzk (Nat.not_lt.mpr hz)⟩

theorem inSight_iff {units : List Instr} {hides : Instr → Prop} {su y : Nat} {i : Instr}
    (hi : units[su]? = some i) :
    InSight units hides su y ↔ y = su ∨ (¬hides i ∧ InSight units hides (su + 1) y) := by
  constructor
  · rintro ⟨hle, hno⟩
    rcases Nat.eq_or_lt_of_le hle with rfl | hlt
    · exact .inl rfl
    · exact .inr ⟨hno su i le_rfl hlt hi, hlt, fun z j hz => hno z j (by omega)⟩
  · rintro (rfl | ⟨hi', hlt, hno⟩)
    · exact .self y
    · refine ⟨by omega, fun z j hz hzy hj => ?_⟩
      rcases this_or_later hi hz hj with ⟨-, rfl⟩ | hz
      · exact hi'
      · exact hno z j hz hzy hj

theorem InSight.trans {units : List Instr} {hides : Instr → Prop} {k y z : Nat} {i : Instr}
    (h : InSight units hides k y) (hi : units[y]? = some i) (hy : ¬hides i)
    (h' : InSight units hides (y + 1) z) : InSight units hides k z := by
  obtain ⟨hky, hno⟩ := h
  obtain ⟨hyz, hno'⟩ := h'
  refine ⟨by omega, fun u j hu huz hj => ?_⟩
  by_cases huy : u < y
  · exact hno u j hu huy hj
  · rcases this_or_later hi (by omega) hj with ⟨-, rfl⟩ | hlt
    · exact hy
    · exact hno' u j hlt huz hj

theorem Instr.regOperandAt_of_mem (i : Instr) {pos : Nat} {o : RegOperand}
    (h : (pos, o) ∈ i.regOperands) : i.regOperandAt pos = .ok o := by
  simp only [regOperands, List.mem_filterMap, Prod.exists, List.mem_zipIdx_iff_getElem?] at h
  obtain ⟨operand, k, hk, hreg⟩ := h
  obtain ⟨o', ho', hsome⟩ := Option.bind_eq_some_iff.mp hreg
  split at hsome
  · cases hsome
  · cases hsome
    cases operand with
    | reg o =>
      cases ho'
      rw [regOperandAt, hk]
    | imm value => cases ho'
    | mem m => cases ho'
    | other => cases ho'

theorem Region.getElem?_of_mem_body {r : Region} {b : Block} {e : Nat × Instr}
    (h : e ∈ r.body b) : b.instrs[e.1]? = some e.2 := by
  simp only [body, List.mem_map] at h
  obtain ⟨⟨j, q⟩, hmem, rfl⟩ := h
  have hq := List.mem_zipIdx_iff_getElem?.mp (List.mem_of_mem_drop hmem)
  rw [List.getElem?_take] at hq
  split at hq
  · simpa using hq
  · cases hq

theorem Region.getElem?_of_mem_units {r : Region} {b : Block} {pos : Nat} {i : Instr}
    (h : (pos, i) ∈ r.units b) : b.instrs[pos]? = some i :=
  getElem?_of_mem_body (List.mem_filter.mp h).1

namespace Graph

theorem instr_eq_ok {g : Graph} {id : NodeId} {b : Block} {o : Option Instr} :
    g.instr id b = .ok o ↔ ∃ p, g.position id = some p ∧ p.bind (b.instrs[·]?) = o := by
  simp only [instr, bind_eq_ok, node_eq_ok, pure_eq_ok, position, Option.map_eq_some_iff]
  constructor
  · rintro ⟨n, hn, h⟩
    exact ⟨n.instr, ⟨n, hn, rfl⟩, h⟩
  · rintro ⟨p, ⟨n, hn, rfl⟩, h⟩
    exact ⟨n, hn, h⟩

/-- One node for each unit, in order, with edges that agree at both ends. -/
structure Wraps (g : Graph) (b : Block) (units : List Instr) : Prop where
  linked : g.Linked
  instr_unit : ∀ k i, units[k]? = some i → g.instr (.unit k) b = .ok (some i)
  size_eq : g.nodes.size = units.length

theorem size_eq_of_position {g g' : Graph} (h : g'.position = g.position) :
    g'.nodes.size = g.nodes.size := by
  have hiff : ∀ i, i < g'.nodes.size ↔ i < g.nodes.size := fun i => by
    rw [← position_unit_isSome, ← position_unit_isSome, h]
  have h₁ := hiff g.nodes.size
  have h₂ := hiff g'.nodes.size
  omega

theorem Wraps.grows {g g' : Graph} {b : Block} {units : List Instr} (hw : g.Wraps b units)
    (h : g.Grows g') : g'.Wraps b units := by
  refine ⟨h.linked hw.linked, fun k i hk => ?_, (size_eq_of_position h.position).trans hw.size_eq⟩
  have := hw.instr_unit k i hk
  rw [instr_eq_ok] at this ⊢
  rwa [h.position]

/-- What is found at a unit is the instruction it stands for. -/
theorem Wraps.exists_instr {g : Graph} {b : Block} {units : List Instr} (hw : g.Wraps b units)
    {k : Nat} {o : Option Instr} (h : g.instr (.unit k) b = .ok o) :
    ∃ i, o = some i ∧ units[k]? = some i := by
  obtain ⟨p, hp, -⟩ := instr_eq_ok.mp h
  have hk : k < units.length := by
    rw [← hw.size_eq, ← position_unit_isSome, hp]
    rfl
  have hi : units[k]? = some units[k] := List.getElem?_eq_getElem hk
  exact ⟨_, (Except.ok.inj ((hw.instr_unit k _ hi).symm.trans h)).symm, hi⟩

theorem unlinked_ok {s : Setup} {b : Block} {r : Region} {g : Graph} (h : s.unlinked b r = .ok g) :
    g = { block := r.block, start := r.start, stop := r.stop
          nodes := ((r.units b).map fun (pos, i) => s.nodeOf pos i).toArray
          exit := { instr := (r.exitInstr b).map fun _ => r.stop }
          debugValues := ((r.debugPositions b).filter (· != r.start)).map fun pos => (pos, pos - 1)
          openingDebug := (r.debugPositions b).find? (· == r.start) } := by
  simp only [Setup.unlinked, bind_eq_ok, pure_eq_ok] at h
  obtain ⟨-, -, rfl⟩ := h
  rfl

theorem no_edges_unlinked {s : Setup} {b : Block} {r : Region} {g : Graph}
    (h : s.unlinked b r = .ok g) : (∀ id, g.predsOf id = []) ∧ ∀ id, g.succsOf id = [] := by
  obtain rfl := unlinked_ok h
  refine ⟨fun id => ?_, fun id => ?_⟩
  · cases id with
    | exit => rfl
    | unit k => cases hk : (r.units b)[k]? <;> simp [predsOf, hk, Setup.nodeOf]
  · cases id with
    | exit => rfl
    | unit k => cases hk : (r.units b)[k]? <;> simp [succsOf, hk, Setup.nodeOf]

theorem wraps_unlinked {s : Setup} {b : Block} {r : Region} {g : Graph}
    (h : s.unlinked b r = .ok g) : g.Wraps b ((r.units b).map Prod.snd) := by
  obtain ⟨hpreds, hsuccs⟩ := no_edges_unlinked h
  obtain rfl := unlinked_ok h
  refine ⟨linked_of_no_edges hpreds hsuccs, fun k i hk => ?_, by simp⟩
  obtain ⟨⟨pos, j⟩, hpos, rfl⟩ := List.getElem?_map .. ▸ hk |> Option.map_eq_some_iff.mp
  rw [instr_eq_ok]
  refine ⟨some pos, by simp [position, node?, hpos, Setup.nodeOf], ?_⟩
  exact Region.getElem?_of_mem_units (List.mem_of_getElem? hpos)

end Graph

namespace Walk

variable {s : Setup} {reads : LoopReads} {b : Block} {oracle : Option Oracle} {units : List Instr}

/-- Walks through the units from the last one down to unit `k`. -/
def downTo (s : Setup) (reads : LoopReads) (b : Block) (oracle : Option Oracle)
    (units : List Instr) (k : Nat) (w : Walk) : Except Fault Walk :=
  (units.zipIdx.drop k).reverse.foldlM (fun w (i, k) => w.step s reads b oracle (.unit k) i) w

theorem run_eq_downTo (w : Walk) :
    run s reads b oracle units w = downTo s reads b oracle units 0 w := rfl

theorem downTo_length (w : Walk) :
    downTo s reads b oracle units units.length w = .ok w := by
  simp [downTo, List.drop_eq_nil_of_le, pure, Except.pure]

theorem downTo_succ {k : Nat} {i : Instr} (hk : units[k]? = some i) (w : Walk) :
    downTo s reads b oracle units k w =
      downTo s reads b oracle units (k + 1) w >>= fun v => v.step s reads b oracle (.unit k) i := by
  obtain ⟨hlt, rfl⟩ := List.getElem?_eq_some_iff.mp hk
  have hdrop : units.zipIdx.drop k = (units[k], k) :: units.zipIdx.drop (k + 1) := by
    rw [List.drop_eq_getElem_cons (by simpa using hlt)]
    simp
  simp [downTo, hdrop]

/-- What every unit's step passes on to the next unit holds all along the walk. -/
theorem downTo_induction {w : Walk} (P : Nat → Walk → Prop) (start : P units.length w)
    (step : ∀ k i v v', units[k]? = some i → downTo s reads b oracle units (k + 1) w = .ok v →
      P (k + 1) v → v.step s reads b oracle (.unit k) i = .ok v' → P k v')
    {k : Nat} (hk : k ≤ units.length) {w' : Walk} (h : downTo s reads b oracle units k w = .ok w') :
    P k w' := by
  obtain ⟨n, hn⟩ : ∃ n, k + n = units.length := ⟨_, Nat.add_sub_cancel' hk⟩
  induction n generalizing k w' with
  | zero =>
    obtain rfl : k = units.length := hn
    rw [downTo_length] at h
    cases h
    exact start
  | succ n ih =>
    obtain ⟨i, hi⟩ : ∃ i, units[k]? = some i :=
      ⟨_, List.getElem?_eq_getElem (show k < units.length by omega)⟩
    rw [downTo_succ hi, bind_eq_ok] at h
    obtain ⟨u, hu, h⟩ := h
    exact step k i u w' hi hu (ih (by omega) hu (by omega)) h

end Walk

namespace Builder

/-- The walk through a region as far as unit `k`, seen from a builder that takes the region in
hand. -/
def walkTo (s : Setup) (b : Builder) (r : Region) (oracle : Option Oracle) (k : Nat) :
    Except Fault Walk := do
  let b ← b.start s r
  let block ← s.func.block r.block
  let graph ← s.unlinked block r
  let regs ← readAtExit s block (r.exitInstr block) b.regs
  Walk.downTo s b.loopReads block oracle (s.unitsOf r) k { regs, draft := { graph } }

theorem start_ok {s : Setup} {b b' : Builder} {r : Region} (h : b.start s r = .ok b') :
    b'.region = some r ∧ b'.regs = b.regs.clear.reserve s.regs.count s.func.virtualCount := by
  simp only [start, bind_eq_ok] at h
  obtain ⟨block, -, h⟩ := h
  split at h
  · simp [bind_eq_ok, throw_eq_ok] at h
  · simp only [bind_eq_ok, pure_eq_ok] at h
    obtain ⟨reads, -, rfl⟩ := h
    exact ⟨rfl, rfl⟩

/-- A region inside its block is taken in hand as soon as the loop-carried reads are known. -/
theorem start_eq {s : Setup} {b : Builder} {r : Region} {block : Block}
    (hblock : s.func.block r.block = .ok block) (hstart : r.start ≤ r.stop)
    (hstop : r.stop ≤ block.instrs.size) :
    b.start s r = (readsFor s r {}).bind fun loopReads => .ok { b.reset with
      regs := b.reset.regs.reserve s.regs.count s.func.virtualCount
      loopReads
      region := some r } := by
  simp [start, hblock, hstart, hstop, bind, Except.bind, pure, Except.pure, reset]

theorem build_ok {s : Setup} {b b' : Builder} {oracle : Option Oracle} {g : Graph} {r : Region}
    (hr : b.region = some r) (h : b.build s oracle = .ok (b', g)) :
    ∃ block graph regs w, s.func.block r.block = .ok block ∧ s.unlinked block r = .ok graph ∧
      readAtExit s block (r.exitInstr block) b.regs = .ok regs ∧
      Walk.run s b.loopReads block oracle (s.unitsOf r) { regs, draft := { graph } } = .ok w ∧
      b'.regs = w.regs.clear ∧ g = w.draft.graph := by
  simp only [build, hr, bind_eq_ok, pure_eq_ok, Prod.mk.injEq] at h
  obtain ⟨block, hblock, graph, hgraph, regs, hregs, w, hw, rfl, rfl⟩ := h
  refine ⟨block, graph, regs, w, hblock, hgraph, hregs, ?_, rfl, rfl⟩
  simpa [Setup.unitsOf, hblock] using hw

/-- The graph of a region is what the walk down to its first unit leaves. -/
theorem walkTo_of_buildRegion {s : Setup} {b b' : Builder} {r : Region} {oracle : Option Oracle}
    {g : Graph} (h : b.buildRegion s r oracle = .ok (b', g)) :
    ∃ w, b.walkTo s r oracle 0 = .ok w ∧ g = w.draft.graph := by
  simp only [buildRegion, bind_eq_ok] at h
  obtain ⟨c, hc, h⟩ := h
  obtain ⟨block, graph, regs, w, hblock, hgraph, hregs, hw, -, rfl⟩ := build_ok (start_ok hc).1 h
  refine ⟨w, ?_, rfl⟩
  simp only [walkTo, bind_eq_ok]
  exact ⟨c, hc, block, hblock, graph, hgraph, regs, hregs, hw⟩

end Builder

end Precedence
