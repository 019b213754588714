import Mathlib.Data.List.Nodup
import Precedence.Proofs.Graph.Accepted
import Precedence.Proofs.Graph.Sorted

/-!
The instruction order of a schedule, and the numbering of the units by their positions. The schedules
that are accepted are those that keep to the edges; all others are turned down, and nothing else can
go wrong. Every debug value follows the instruction it stood behind, so a unit brings along the run of
debug values right behind it.
-/
namespace Precedence.Graph

/-! Schedules that are in order -/

theorem firstMissing_eq_none {g : Graph} {placed : List Nat} {deps : List Dep}
    (h : ∀ d ∈ deps, ∃ k ∈ placed, d.node = .unit k) (hplaced : ∀ k ∈ placed, k < g.nodes.size) :
    g.firstMissing placed deps = .ok none := by
  induction deps with
  | nil => rfl
  | cons d deps ih =>
    obtain ⟨k, hk, hd⟩ := h d List.mem_cons_self
    have hrest := ih fun e he => h e (List.mem_cons_of_mem d he)
    simp [firstMissing, hd, hk, hplaced k hk, hrest]

theorem foldlM_place_ok {g : Graph} {front back placed : List Nat} (h : g.InOrder (front ++ back))
    (hnodup : (front ++ back).Nodup) (hlt : ∀ i ∈ front ++ back, i < g.nodes.size)
    (hplaced : ∀ k, k ∈ placed ↔ k ∈ front) :
    ∃ placed', (back.map NodeId.unit).foldlM g.place placed = .ok placed' := by
  induction back generalizing front placed with
  | nil => exact ⟨placed, rfl⟩
  | cons i back ih =>
    have hi : i < g.nodes.size := hlt i (by simp)
    have hnew : i ∉ placed := by
      rw [hplaced]
      intro hmem
      exact (List.nodup_append.mp hnodup).2.2 i hmem i List.mem_cons_self rfl
    have hpreds : ∀ d ∈ g.nodes[i].preds, ∃ k ∈ placed, d.node = .unit k := by
      intro d hd
      obtain ⟨k, hk, hdk⟩ := h front i back rfl d (by simpa [predsOf, hi] using hd)
      exact ⟨k, (hplaced k).mpr hk, hdk⟩
    have hmissing : g.firstMissing placed g.nodes[i].preds = .ok none :=
      firstMissing_eq_none hpreds fun k hk => hlt k (List.mem_append_left _ ((hplaced k).mp hk))
    have hplace : g.place placed (.unit i) = .ok (i :: placed) := by
      simp [place, hi, hnew, hmissing, Fault.lift, Except.mapError, bind, Except.bind, pure,
        Except.pure]
    rw [List.append_cons] at h hnodup hlt
    have hplaced' : ∀ k, k ∈ i :: placed ↔ k ∈ front ++ [i] := fun k => by
      rw [List.mem_cons, hplaced, List.mem_append, List.mem_singleton, or_comm]
    obtain ⟨placed', hrest⟩ := ih h hnodup hlt hplaced'
    refine ⟨placed', ?_⟩
    rw [List.map_cons, List.foldlM_cons, hplace]
    exact hrest

/-- A schedule keeps to the edges exactly if it is as long as it should be and its units can be placed
one after the other. -/
theorem admits_iff_placed {g : Graph} {schedule : List NodeId} : g.Admits schedule ↔
    schedule.length = g.nodes.size ∧ ∃ placed, schedule.foldlM g.place [] = .ok placed := by
  rw [admits_iff]
  constructor
  · rintro ⟨l, rfl, hperm, horder⟩
    refine ⟨by simpa using hperm.length_eq, ?_⟩
    rw [← List.nil_append l] at horder hperm
    exact foldlM_place_ok horder (hperm.nodup_iff.mpr List.nodup_range)
      (fun i hi => List.mem_range.mp (hperm.mem_iff.mp hi)) fun k => Iff.rfl
  · rintro ⟨hlen, placed, hplaced⟩
    obtain ⟨l, rfl, horder, hnodup, hlt⟩ :=
      inOrder_of_foldlM_place .nil List.nodup_nil (by simp) (fun k => Iff.rfl) hplaced
    rw [List.nil_append] at horder hnodup hlt
    rw [List.length_map] at hlen
    have hsub : l ⊆ List.range g.nodes.size := fun b hb => List.mem_range.mpr (hlt b hb)
    exact ⟨l, rfl, (hnodup.subperm hsub).perm_of_length_le (by simp [hlen]), horder⟩

/-- The instruction positions of the nodes that a schedule names, in its order. -/
def positionsOf (g : Graph) (schedule : List NodeId) : List Nat :=
  schedule.filterMap fun id => (g.position id).join

theorem join_position_unit {g : Graph} (i : Nat) :
    (g.position (.unit i)).join = g.nodes[i]?.bind Node.instr := by
  cases hi : g.nodes[i]? <;> simp [position, node?, hi]

theorem Admits.emitOrder_eq {g : Graph} {schedule : List NodeId} (h : g.Admits schedule)
    (hle : g.start ≤ g.stop) (hroom : checkRoom (g.stop - g.start) 8 = .ok ()) :
    g.emitOrder schedule = .ok ((g.openingDebug.toList ++ g.positionsOf schedule).flatMap
      (withDebug g.debugValues)) := by
  obtain ⟨hlen, placed, hplaced⟩ := admits_iff_placed.mp h
  obtain ⟨l, rfl, -, -⟩ := admits_iff.mp h
  simp [emitOrder, hlen, hplaced, positionsOf, join_position_unit, subCount, hle, hroom, Fault.lift,
    Except.mapError, List.filterMap_map, bind, Except.bind, pure, Except.pure]

/-! Schedules that are turned down -/

/-- Edges that come from units can be looked through. -/
theorem exists_firstMissing {g : Graph} {deps : List Dep}
    (h : ∀ d ∈ deps, ∃ k < g.nodes.size, d.node = .unit k) (placed : List Nat) :
    ∃ missing, g.firstMissing placed deps = .ok missing := by
  induction deps with
  | nil => exact ⟨none, rfl⟩
  | cons d deps ih =>
    obtain ⟨k, hk, hd⟩ := h d List.mem_cons_self
    obtain ⟨missing, hrest⟩ := ih fun e he => h e (List.mem_cons_of_mem d he)
    by_cases hplaced : k ∈ placed
    · exact ⟨missing, by simpa [firstMissing, hd, hk, hplaced] using hrest⟩
    · exact ⟨some d.node, by simp [firstMissing, hd, hk, hplaced]⟩

/-- A node is placed, or the schedule is turned down. -/
theorem Linked.place_cases {g : Graph} (hl : g.Linked) (placed : List Nat) (id : NodeId) :
    (∃ placed', g.place placed id = .ok placed') ∨
      ∃ flaw, g.place placed id = .error (.rejected (.invalidSchedule flaw)) := by
  unfold place
  split
  · exact .inr ⟨_, rfl⟩
  next i =>
    split
    · exact .inr ⟨_, rfl⟩
    next n hn =>
      have hpreds : ∀ d ∈ n.preds, ∃ k < g.nodes.size, d.node = .unit k := by
        intro d hd
        have hd' : d ∈ g.predsOf (.unit i) := by simpa [predsOf, hn] using hd
        exact hl.exists_of_joins (hl.joins_iff.mpr ⟨d, hd', rfl⟩)
      obtain ⟨missing, hmissing⟩ := exists_firstMissing hpreds placed
      rw [hmissing]
      split
      · exact .inr ⟨_, rfl⟩
      · cases missing with
        | none => exact .inl ⟨_, rfl⟩
        | some pred => exact .inr ⟨_, rfl⟩

theorem Linked.foldlM_place_cases {g : Graph} (hl : g.Linked) (schedule : List NodeId)
    (placed : List Nat) : (∃ placed', schedule.foldlM g.place placed = .ok placed') ∨
      ∃ flaw, schedule.foldlM g.place placed = .error (.rejected (.invalidSchedule flaw)) := by
  induction schedule generalizing placed with
  | nil => exact .inl ⟨placed, rfl⟩
  | cons id schedule ih =>
    rw [List.foldlM_cons]
    rcases hl.place_cases placed id with ⟨placed₁, h₁⟩ | ⟨flaw, hflaw⟩
    · rw [h₁]
      exact ih placed₁
    · exact .inr ⟨flaw, by rw [hflaw]; rfl⟩

theorem Linked.emitOrder_rejects {g : Graph} (hl : g.Linked) {schedule : List NodeId}
    (h : ¬g.Admits schedule) :
    ∃ flaw, g.emitOrder schedule = .error (.rejected (.invalidSchedule flaw)) := by
  unfold emitOrder
  split
  · exact ⟨_, rfl⟩
  next hlen =>
    rcases hl.foldlM_place_cases schedule [] with hplaced | ⟨flaw, hflaw⟩
    · exact absurd (admits_iff_placed.mpr ⟨not_not.mp hlen, hplaced⟩) h
    · rw [hflaw]
      exact ⟨flaw, rfl⟩

/-- An accepted schedule is a linear extension of the graph: it lists the units, each once, and no
path leads from a unit to an earlier one. -/
theorem emitOrder_ok {g : Graph} (hl : g.Linked) {schedule : List NodeId} {positions : List Nat}
    (h : g.emitOrder schedule = .ok positions) :
    ∃ l : List Nat, schedule = l.map .unit ∧ l.Perm (List.range g.nodes.size) ∧
      l.Pairwise fun a b => ¬g.Path (.unit b) (.unit a) := by
  have hadmits : g.Admits schedule := by
    by_contra hnot
    obtain ⟨flaw, hflaw⟩ := hl.emitOrder_rejects hnot
    rw [hflaw] at h
    cases h
  obtain ⟨l, rfl, hperm, horder⟩ := admits_iff.mp hadmits
  exact ⟨l, rfl, hperm, horder.pairwise hl (hperm.nodup_iff.mpr List.nodup_range)⟩

/-! Debug values -/

/-- Debug values, each anchored to the position in front of it. -/
def anchors (debug : List Nat) : List (Nat × Nat) := debug.map fun pos => (pos, pos - 1)

theorem anchoredAt_anchors {debug : List Nat} (hnodup : debug.Nodup) (hpos : ∀ q ∈ debug, 0 < q)
    (pos : Nat) : anchoredAt (anchors debug) pos = if pos + 1 ∈ debug then [pos + 1] else [] := by
  have hfilter : anchoredAt (anchors debug) pos = debug.filter (· == pos + 1) := by
    simp only [anchoredAt, anchors, List.filter_map, List.map_map]
    refine (List.map_id _).trans (List.filter_congr fun q hq => ?_)
    have := hpos q hq
    rw [Function.comp_apply, Bool.eq_iff_iff, beq_iff_eq, beq_iff_eq]
    omega
  rw [hfilter, List.filter_beq]
  split
  next hmem => rw [List.count_eq_one_of_mem hnodup hmem, List.replicate_one]
  next hmem => rw [List.count_eq_zero_of_not_mem hmem, List.replicate_zero]

theorem anchoredElsewhere_anchors (debug : List Nat) (pos : Nat) :
    anchoredElsewhere (anchors debug) pos = anchors (debug.filter fun q => q - 1 != pos) := by
  simp [anchoredElsewhere, anchors, List.filter_map, Function.comp_def]

/-- A position brings along the debug values that follow it without a gap. -/
theorem withDebug_eq {debug : List Nat} (hnodup : debug.Nodup) (hpos : ∀ q ∈ debug, 0 < q)
    (pos : Nat) : ∃ n, withDebug (anchors debug) pos = List.range' pos (n + 1) ∧
      (∀ t, pos < t → t ≤ pos + n → t ∈ debug) ∧ pos + n + 1 ∉ debug := by
  induction hlen : debug.length using Nat.strong_induction_on generalizing debug pos with
  | _ len ih =>
    rw [withDebug, anchoredElsewhere_anchors, anchoredAt_anchors hnodup hpos]
    by_cases hnext : pos + 1 ∈ debug
    · have hshort : (debug.filter fun q => q - 1 != pos).length < debug.length :=
        List.length_filter_lt_length_iff_exists.mpr ⟨pos + 1, hnext, by simp⟩
      obtain ⟨n, heq, hrun, hstop⟩ := ih _ (hlen ▸ hshort) (hnodup.filter _)
        (fun q hq => hpos q (List.mem_filter.mp hq).1) (pos + 1) rfl
      refine ⟨n + 1, ?_, fun t ht htn => ?_, fun hmem => hstop ?_⟩
      · rw [dif_pos (by simpa [anchors] using hshort), if_pos hnext, List.flatMap_singleton, heq]
        exact (List.range'_succ ..).symm
      · rcases Nat.eq_or_lt_of_le (Nat.succ_le_of_lt ht) with rfl | ht
        · exact hnext
        · exact (List.mem_filter.mp (hrun t ht (by omega))).1
      · refine List.mem_filter.mpr ⟨?_, ?_⟩
        · rwa [show pos + 1 + n + 1 = pos + (n + 1) + 1 by omega]
        · rw [bne_iff_ne]
          omega
    · refine ⟨0, ?_, fun t ht htn => by omega, hnext⟩
      split <;> simp

/-! Units by their positions -/

theorem bisect_eq {g : Graph} {positions : List Nat} {pos k : Nat}
    (hinstr : ∀ j : Nat, g.nodes[j]?.bind Node.instr = positions[j]?)
    (hlt : positions.Pairwise (· < ·)) (hk : positions[k]? = some pos) {base size : Nat}
    (hbase : base ≤ k) (hsize : k < base + size) (hbound : base + size ≤ positions.length) :
    g.bisect pos base size = k := by
  have hkey := List.getElem?_eq_some_iff.mp hk
  fun_induction bisect g pos base size with
  | case1 base size hone => omega
  | case2 base size hmany mid after ih =>
    have hmid : mid < positions.length := by omega
    have hafter : after = decide (pos < positions[mid]) := by
      simp [after, hinstr, hmid]
    have hmono : ∀ a b (ha : a < positions.length) (hb : b < positions.length), a ≤ b →
        positions[a] ≤ positions[b] := by
      intro a b ha hb hab
      rcases Nat.eq_or_lt_of_le hab with rfl | hab
      · exact le_rfl
      · exact (List.pairwise_iff_getElem.mp hlt a b ha hb hab).le
    obtain ⟨hkl, rfl⟩ := hkey
    by_cases h : positions[k] < positions[mid]
    · have hkm : k < mid := by
        by_contra hge
        exact absurd (hmono mid k hmid hkl (by omega)) (by omega)
      simp only [hafter, h, decide_true, ↓reduceIte, ↓reduceDIte] at ih ⊢
      exact ih hbase (by omega) (by omega)
    · have hmk : mid ≤ k := by
        by_contra hlt'
        exact h (List.pairwise_iff_getElem.mp hlt k mid hkl hmid (by omega))
      simp only [hafter, h, decide_false, Bool.false_eq_true, ↓reduceIte, ↓reduceDIte] at ih ⊢
      exact ih hmk (by omega) (by omega)

theorem instr_getElem? {g : Graph} {positions : List Nat}
    (hinstr : g.nodes.toList.map Node.instr = positions.map some) (j : Nat) :
    g.nodes[j]?.bind Node.instr = positions[j]? := by
  have := congrArg (·[j]?) hinstr
  simp only [List.getElem?_map, Array.getElem?_toList] at this
  cases hn : g.nodes[j]? <;> cases hp : positions[j]? <;> simp_all

theorem filterMap_range_getElem? {α : Type} (l : List α) :
    (List.range l.length).filterMap (fun i => l[i]?) = l := by
  induction l with
  | nil => rfl
  | cons a l ih =>
    rw [List.length_cons, List.range_succ_eq_map, List.filterMap_cons, List.filterMap_map]
    simpa [Function.comp_def] using ih

/-- The units in the order of their numbers name the positions by which they are numbered. -/
theorem positionsOf_range {g : Graph} {positions : List Nat}
    (hinstr : g.nodes.toList.map Node.instr = positions.map some) :
    g.positionsOf ((List.range g.nodes.size).map .unit) = positions := by
  have hlen : g.nodes.size = positions.length := by simpa using congrArg List.length hinstr
  rw [hlen, positionsOf, List.filterMap_map]
  simpa only [Function.comp_def, join_position_unit, instr_getElem? hinstr] using
    filterMap_range_getElem? positions

/-- Looking up a position is the inverse of the numbering of the units. -/
theorem nodeOf_eq_some {g : Graph} {positions : List Nat}
    (hinstr : g.nodes.toList.map Node.instr = positions.map some)
    (hlt : positions.Pairwise (· < ·)) {pos : Nat} {id : NodeId} :
    g.nodeOf pos = some id ↔ ∃ k, id = .unit k ∧ positions[k]? = some pos := by
  have hget := instr_getElem? hinstr
  have hlen : g.nodes.size = positions.length := by simpa using congrArg List.length hinstr
  simp only [nodeOf, hget, beq_iff_eq, Option.ite_none_right_eq_some, Option.some.injEq]
  constructor
  · rintro ⟨hpos, rfl⟩
    exact ⟨_, rfl, hpos⟩
  · rintro ⟨k, rfl, hk⟩
    have hkl := (List.getElem?_eq_some_iff.mp hk).1
    have hbisect : g.bisect pos 0 g.nodes.size = k :=
      bisect_eq hget hlt hk (Nat.zero_le k) (by omega) (by omega)
    rw [hbisect]
    exact ⟨hk, rfl⟩

end Precedence.Graph
