import Mathlib.Data.List.Perm.Subperm
import Mathlib.Order.WellFounded
import Precedence.Graph.Order
import Precedence.Proofs.Graph.Accepted
import Precedence.Proofs.Graph.Flaws

/-!
The topological order of a graph whose edges are known at both ends. A unit that has not been
taken waits for exactly its edges from units that have not been taken either, so a unit becomes ready
with the last of its predecessors, and what is left over when nothing is ready is held back by
something that is left over as well.
-/
namespace Precedence

/-! Releasing units -/

/-- The edges of a list that lead to unit `j`. -/
def edgesTo (deps : List Dep) (j : Nat) : Nat := deps.countP fun d => d.node == .unit j

theorem edgesTo_pos {deps : List Dep} {j : Nat} :
    0 < edgesTo deps j ↔ ∃ d ∈ deps, d.node = .unit j := by
  simp [edgesTo, List.countP_pos_iff]

namespace Graph

/-- Counts that leave room for all edges of a list are lowered by these edges, and the units whose
count reaches zero become ready, each once. -/
theorem foldlM_release {deps : List Dep} {r : Readiness} {rest : Nat → Nat} {n : Nat}
    (hsize : r.waiting.size = n) (hlt : ∀ d ∈ deps, ∀ j, d.node = .unit j → j < n)
    (hcount : ∀ j < n, r.waiting[j]? = some (rest j + edgesTo deps j)) :
    ∃ waiting new, deps.foldlM Readiness.release r = .ok ⟨r.ready ++ new, waiting⟩ ∧
      waiting.size = n ∧ (∀ j < n, waiting[j]? = some (rest j)) ∧ new.Nodup ∧
      ∀ j, j ∈ new ↔ rest j = 0 ∧ 0 < edgesTo deps j := by
  induction deps generalizing r with
  | nil => exact ⟨r.waiting, [], by simp [pure, Except.pure], hsize, by simpa [edgesTo] using hcount,
      List.nodup_nil, by simp [edgesTo]⟩
  | cons d deps ih =>
    have hlt' := fun e he => hlt e (List.mem_cons_of_mem d he)
    rw [List.foldlM_cons]
    cases hd : d.node with
    | exit =>
      have hto : ∀ j, edgesTo (d :: deps) j = edgesTo deps j := by simp [edgesTo, hd]
      simp only [hto] at hcount ⊢
      simpa [Readiness.release, hd, bind, Except.bind] using ih hsize hlt' hcount
    | unit i =>
      have hi := hlt d List.mem_cons_self i hd
      have hto : ∀ j, edgesTo (d :: deps) j = edgesTo deps j + if j = i then 1 else 0 := by
        intro j
        simp only [edgesTo, List.countP_cons, hd, beq_iff_eq, NodeId.unit.injEq, eq_comm (a := j)]
      have hwait := hcount i hi
      rw [hto, if_pos rfl, ← Nat.add_assoc] at hwait
      -- the count of `i` goes down by one, and the others stay
      have hcount' : ∀ j < n, (r.waiting.set! i (rest i + edgesTo deps i))[j]? =
          some (rest j + edgesTo deps j) := by
        intro j hj
        rw [Array.set!_eq_setIfInBounds, Array.getElem?_setIfInBounds]
        by_cases hji : i = j
        · subst hji
          simp [hsize, hj]
        · rw [if_neg hji, hcount j hj, hto, if_neg (Ne.symm hji), Nat.add_zero]
      have hsize' : (r.waiting.set! i (rest i + edgesTo deps i)).size = n := by simpa using hsize
      cases hrest : rest i + edgesTo deps i with
      | zero =>
        rw [hrest] at hwait hcount' hsize'
        obtain ⟨waiting, new, hfold, hws, hw, hnodup, hnew⟩ :=
          ih (r := ⟨r.ready ++ [i], r.waiting.set! i 0⟩) hsize' hlt' hcount'
        have hnot : i ∉ new := fun h => by have := (hnew i).mp h; omega
        refine ⟨waiting, i :: new, ?_, hws, hw, List.nodup_cons.mpr ⟨hnot, hnodup⟩, fun j => ?_⟩
        · simpa [Readiness.release, hd, hwait, bind, Except.bind] using hfold
        · rw [List.mem_cons, hnew, hto]
          by_cases hji : j = i
          · subst hji
            simp [show rest j = 0 by omega]
          · simp [hji]
      | succ k =>
        rw [hrest] at hwait hcount' hsize'
        obtain ⟨waiting, new, hfold, hws, hw, hnodup, hnew⟩ :=
          ih (r := ⟨r.ready, r.waiting.set! i (k + 1)⟩) hsize' hlt' hcount'
        refine ⟨waiting, new, ?_, hws, hw, hnodup, fun j => ?_⟩
        · simpa [Readiness.release, hd, hwait, bind, Except.bind] using hfold
        · rw [hnew, hto]
          by_cases hji : j = i
          · subst hji
            simp only [if_true]
            omega
          · simp [hji]

/-! Taking units -/

/-- The number of edges that hold unit `i` back when the units of `taken` have been taken. -/
def heldBy (g : Graph) (taken : List Nat) (i : Nat) : Nat :=
  (g.predsOf (.unit i)).countP fun d => decide (∀ k ∈ taken, d.node ≠ .unit k)

theorem heldBy_eq_zero {g : Graph} {taken : List Nat} {i : Nat} :
    g.heldBy taken i = 0 ↔ ∀ d ∈ g.predsOf (.unit i), ∃ k ∈ taken, d.node = .unit k := by
  simp [heldBy, List.countP_eq_zero]

/-- No node has two entries that state one constraint. -/
structure Distinct (g : Graph) : Prop where
  incoming_nodup : ∀ s, (g.incoming s).Nodup
  outgoing_nodup : ∀ p, (g.outgoing p).Nodup

theorem Mirrored.distinct {g : Graph} (hm : g.Mirrored) : g.Distinct :=
  ⟨hm.incoming_nodup, hm.outgoing_nodup⟩

/-- As many edges enter unit `j` from unit `i` as leave unit `i` for unit `j`. -/
theorem Linked.edgesTo_eq {g : Graph} (hl : g.Linked) (hd : g.Distinct) (i j : Nat) :
    edgesTo (g.predsOf (.unit j)) i = edgesTo (g.succsOf (.unit i)) j := by
  have hnodup : ∀ {l : List (NodeId × Kind × Option Reg)} (n : NodeId), l.Nodup →
      ((l.filter fun c => c.1 == n).map Prod.snd).Nodup := by
    intro l n h
    refine List.Nodup.map_on (fun c hc e he heq => ?_) (h.filter _)
    simp only [List.mem_filter, beq_iff_eq] at hc he
    exact Prod.ext (hc.2.trans he.2.symm) heq
  have hperm : (((g.incoming (.unit j)).filter fun c => c.1 == .unit i).map Prod.snd).Perm
      (((g.outgoing (.unit i)).filter fun c => c.1 == .unit j).map Prod.snd) := by
    refine (List.perm_ext_iff_of_nodup (hnodup _ (hd.incoming_nodup _))
      (hnodup _ (hd.outgoing_nodup _))).mpr fun ⟨kind, reg⟩ => ?_
    simpa [HasEdge] using hl.mirror (.unit i) (.unit j) kind reg
  simpa [edgesTo, incoming, outgoing, List.countP_eq_length_filter, List.filter_map,
    Function.comp_def, Dep.constraint] using hperm.length_eq

theorem Linked.heldBy_concat {g : Graph} (hl : g.Linked) (hd : g.Distinct) {taken : List Nat}
    {i : Nat} (hi : i ∉ taken) (j : Nat) :
    g.heldBy taken j = g.heldBy (taken ++ [i]) j + edgesTo (g.succsOf (.unit i)) j := by
  rw [← hl.edgesTo_eq hd i j]
  unfold heldBy edgesTo
  induction g.predsOf (.unit j) with
  | nil => rfl
  | cons d deps ih =>
    simp only [List.countP_cons, ih]
    by_cases hdi : d.node = .unit i
    · have hfree : ∀ k ∈ taken, d.node ≠ .unit k := by
        rintro k hk heq
        cases hdi.symm.trans heq
        exact hi hk
      have hheld : ¬∀ k ∈ taken ++ [i], d.node ≠ .unit k := fun h => h i (by simp) hdi
      rw [if_pos (decide_eq_true hfree), if_neg (by simpa using hheld), if_pos (by simp [hdi])]
      omega
    · have hsame : (∀ k ∈ taken ++ [i], d.node ≠ .unit k) ↔ ∀ k ∈ taken, d.node ≠ .unit k := by
        simp [or_imp, forall_and, hdi]
      simp only [hsame, beq_iff_eq, if_neg hdi]
      omega

/-- Where the search for an order stands when the units of `taken` have been taken: what nothing
holds back has been taken or is ready, and the counts of the others are right. -/
structure Progress (g : Graph) (taken : List Nat) (r : Readiness) : Prop where
  nodup : (taken ++ r.ready).Nodup
  size_eq : r.waiting.size = g.nodes.size
  count : ∀ i < g.nodes.size, r.waiting[i]? = some (g.heldBy taken i)
  free : ∀ i, i ∈ taken ++ r.ready ↔ i < g.nodes.size ∧ g.heldBy taken i = 0
  inOrder : g.InOrder taken

theorem progress_readiness (g : Graph) : g.Progress [] g.readiness := by
  have hheld : ∀ i, g.heldBy [] i = (g.predsOf (.unit i)).length := by simp [heldBy]
  refine ⟨?_, by simp [readiness], fun i hi => ?_, fun i => ?_, .nil⟩
  · exact List.nodup_range.filter _
  · simp [readiness, hheld, predsOf, hi]
  · simp [readiness, hheld]

theorem Progress.take {g : Graph} (hl : g.Linked) (hd : g.Distinct) {taken later : List Nat}
    {r : Readiness} {i : Nat} (hr : g.Progress taken r) (hready : r.ready = i :: later) :
    ∃ r', (g.succsOf (.unit i)).foldlM Readiness.release { r with ready := later } = .ok r' ∧
      g.Progress (taken ++ [i]) r' := by
  have hnodup := hr.nodup
  rw [hready, List.append_cons] at hnodup
  have hi : i ∉ taken := by
    intro h
    have := List.nodup_append.mp (List.nodup_append.mp hnodup).1
    exact this.2.2 i h i (by simp) rfl
  have hlt : ∀ d ∈ g.succsOf (.unit i), ∀ j, d.node = .unit j → j < g.nodes.size := by
    intro d hd j hj
    rw [← position_unit_isSome, ← hj]
    exact hl.present _ _ _ _ (List.mem_map_of_mem hd)
  have hcount := hr.count
  simp only [hl.heldBy_concat hd hi] at hcount
  obtain ⟨waiting, new, hfold, hsize, hwaiting, hnew, hmem⟩ :=
    foldlM_release (r := { r with ready := later }) hr.size_eq hlt hcount
  refine ⟨_, hfold, ?_, hsize, hwaiting, fun j => ?_, hr.inOrder.concat ?_⟩
  · rw [← List.append_assoc]
    refine List.nodup_append.mpr ⟨hnodup, hnew, fun j hj k hk heq => ?_⟩
    -- what has just become ready was held back before
    subst heq
    have hfree := ((hr.free j).mp (by rwa [hready, List.append_cons])).2
    rw [hl.heldBy_concat hd hi] at hfree
    have := (hmem j).mp hk
    omega
  · have hfree := hr.free j
    rw [hready, List.append_cons, hl.heldBy_concat hd hi] at hfree
    rw [← List.append_assoc, List.mem_append, hfree, hmem]
    constructor
    · rintro (⟨hj, hheld⟩ | ⟨hheld, hto⟩)
      · exact ⟨hj, by omega⟩
      · obtain ⟨d, hd, hdj⟩ := edgesTo_pos.mp hto
        exact ⟨hlt d hd j hdj, hheld⟩
    · rintro ⟨hj, hheld⟩
      rcases Nat.eq_zero_or_pos (edgesTo (g.succsOf (.unit i)) j) with hto | hto
      · exact .inl ⟨hj, by omega⟩
      · exact .inr ⟨hheld, hto⟩
  · exact heldBy_eq_zero.mp ((hr.free i).mp (by simp [hready])).2

/-- Rounds of taking units go on until there are no more rounds or nothing is ready. -/
theorem takeReady_ok {g : Graph} (hl : g.Linked) (hd : g.Distinct) (rounds : Nat)
    {taken : List Nat} {r : Readiness} (hr : g.Progress taken r) :
    ∃ more r', g.takeReady rounds r = .ok (more, r') ∧ g.Progress (taken ++ more) r' ∧
      (more.length = rounds ∨ r'.ready = []) := by
  induction rounds generalizing taken r with
  | zero => exact ⟨[], r, rfl, by simpa using hr, .inl rfl⟩
  | succ rounds ih =>
    unfold takeReady
    cases hready : r.ready with
    | nil => exact ⟨[], r, rfl, by simpa using hr, .inr hready⟩
    | cons i later =>
      obtain ⟨r₁, hrelease, hr₁⟩ := hr.take hl hd hready
      obtain ⟨more, r', htake, hr', hend⟩ := ih hr₁
      have hi := ((hr.free i).mp (by simp [hready])).1
      have hnode : g.node (.unit i) = .ok g.nodes[i] := by simp [node, hi]
      have hsuccs : g.succsOf (.unit i) = g.nodes[i].succs := by simp [succsOf, hi]
      rw [hsuccs] at hrelease
      refine ⟨i :: more, r', ?_, ?_, hend.imp_left (by simp)⟩
      · simp [hnode, hrelease, htake, bind, Except.bind, pure, Except.pure]
      · rwa [List.append_cons]

/-- What edges leave is a unit. -/
theorem Linked.exists_of_joins {g : Graph} (hl : g.Linked) {p s : NodeId} (h : g.Joins p s) :
    ∃ k < g.nodes.size, p = .unit k := by
  obtain ⟨kind, reg, hedge⟩ := h
  cases p with
  | exit => simp [HasEdge, hl.exit_last] at hedge
  | unit k => exact ⟨k, position_unit_isSome.mp (present_of_hasEdge hedge), rfl⟩

/-- When nothing is ready, every unit that has not been taken waits for another one. -/
theorem Progress.waits {g : Graph} (hl : g.Linked) {taken : List Nat} {r : Readiness}
    (hr : g.Progress taken r) (hready : r.ready = []) {i : Nat} (hi : i < g.nodes.size)
    (hnot : i ∉ taken) : ∃ k, g.Joins (.unit k) (.unit i) ∧ k < g.nodes.size ∧ k ∉ taken := by
  have hheld : g.heldBy taken i ≠ 0 := by
    intro h
    have := (hr.free i).mpr ⟨hi, h⟩
    simp [hready, hnot] at this
  rw [Ne, heldBy_eq_zero] at hheld
  push Not at hheld
  obtain ⟨d, hd, hfree⟩ := hheld
  have hjoins : g.Joins d.node (.unit i) := hl.joins_iff.mpr ⟨d, hd, rfl⟩
  obtain ⟨k, hk, hnode⟩ := hl.exists_of_joins hjoins
  exact ⟨k, hnode ▸ hjoins, hk, fun hmem => hfree k hmem hnode⟩

/-- Everything that leads to a unit that has been taken is taken before it, so no path goes back from
it for ever. -/
theorem InOrder.acc {g : Graph} (hl : g.Linked) {l : List Nat} (h : g.InOrder l) :
    ∀ i ∈ l, Acc g.Joins (.unit i) := by
  induction l using List.reverseRecOn with
  | nil => simp
  | append_singleton l i ih =>
    have hacc := ih h.left
    intro j hj
    rcases List.mem_append.mp hj with hj | hj
    · exact hacc j hj
    · obtain rfl := List.mem_singleton.mp hj
      refine Acc.intro _ fun p hp => ?_
      obtain ⟨d, hd, rfl⟩ := hl.joins_iff.mp hp
      obtain ⟨k, hk, hnode⟩ := h l j [] rfl d hd
      exact hnode ▸ hacc k hk

/-- When nothing is ready, a unit that has not been taken could be traced back for ever. -/
theorem Progress.mem_of_acc {g : Graph} (hl : g.Linked) {taken : List Nat} {r : Readiness}
    (hr : g.Progress taken r) (hready : r.ready = []) {i : Nat} (hi : i < g.nodes.size)
    (hacc : Acc g.Joins (.unit i)) : i ∈ taken := by
  generalize hn : NodeId.unit i = n at hacc
  induction hacc generalizing i with
  | intro n _ ih =>
    subst hn
    by_contra hnot
    obtain ⟨k, hjoins, hk, hknot⟩ := hr.waits hl hready hi hnot
    exact hknot (ih _ hjoins hk rfl)

/-- The unit that is reported is the first one that has not been taken. -/
theorem Progress.stuck_eq {g : Graph} {taken : List Nat} {r : Readiness} (hr : g.Progress taken r)
    (hready : r.ready = []) {i : Nat} (hi : i < g.nodes.size) (hnot : i ∉ taken)
    (hfirst : ∀ j < i, j ∈ taken) : r.stuck = .unit i := by
  have hwaiting : ∀ (j : Nat) (hj : j < r.waiting.toList.length),
      r.waiting.toList[j] = g.heldBy taken j := by
    intro j hj
    rw [Array.length_toList, hr.size_eq] at hj
    have hcount := hr.count j hj
    rw [Array.getElem?_eq_some_iff] at hcount
    obtain ⟨_, hcount⟩ := hcount
    rw [Array.getElem_toList, hcount]
  have hfree : ∀ j, j ∈ taken ↔ j < g.nodes.size ∧ g.heldBy taken j = 0 := by
    simpa [hready] using hr.free
  have hlen : i < r.waiting.toList.length := by simpa [hr.size_eq] using hi
  have hfind : r.waiting.toList.findIdx? (fun k => 0 < k) = some i := by
    rw [List.findIdx?_eq_some_iff_getElem]
    refine ⟨hlen, ?_, fun j hj => ?_⟩
    · rw [hwaiting i hlen, decide_eq_true_iff, Nat.pos_iff_ne_zero]
      exact fun h => hnot ((hfree i).mpr ⟨hi, h⟩)
    · rw [hwaiting j (hj.trans hlen), decide_eq_true_iff, Nat.pos_iff_ne_zero, not_not]
      exact ((hfree j).mp (hfirst j hj)).2
  rw [Readiness.stuck, hfind]

/-- The search for an order puts all units in order, and then the exit. It fails only for a unit that
could be traced back for ever, and reports the first such unit. -/
theorem topologicalOrder_cases {g : Graph} (hl : g.Linked) (hd : g.Distinct) :
    (∃ l : List Nat, g.topologicalOrder = .ok (l.map .unit ++ [.exit]) ∧
      l.Perm (List.range g.nodes.size) ∧ g.InOrder l) ∨
    ∃ i < g.nodes.size, g.topologicalOrder = .error (.rejected (.cycle (.unit i))) ∧
      ¬Acc g.Joins (.unit i) ∧ ∀ j < i, Acc g.Joins (.unit j) := by
  obtain ⟨taken, r, htake, hr, hend⟩ := takeReady_ok hl hd g.nodes.size g.progress_readiness
  rw [List.nil_append] at hr
  have hnodup := (List.nodup_append.mp hr.nodup).1
  have hsub : taken ⊆ List.range g.nodes.size := by
    intro i hi
    exact List.mem_range.mpr ((hr.free i).mp (List.mem_append_left _ hi)).1
  by_cases hlen : taken.length = g.nodes.size
  · refine .inl ⟨taken, ?_, (hnodup.subperm hsub).perm_of_length_le (by simp [hlen]), hr.inOrder⟩
    simp [topologicalOrder, htake, Fault.lift, Except.mapError, hlen, bind, Except.bind, pure,
      Except.pure]
  · right
    have hready : r.ready = [] := hend.resolve_left hlen
    have hleft : ∃ i, i < g.nodes.size ∧ i ∉ taken := by
      by_contra hall
      push Not at hall
      have hperm := (List.perm_ext_iff_of_nodup hnodup List.nodup_range).mpr fun i =>
        ⟨@hsub i, fun hi => hall i (List.mem_range.mp hi)⟩
      exact hlen (by simpa using hperm.length_eq)
    obtain ⟨⟨hi, hnot⟩, hmin⟩ := Nat.find_spec hleft, @Nat.find_min _ _ hleft
    have hfirst : ∀ j < Nat.find hleft, j ∈ taken := by
      intro j hj
      by_contra hj'
      exact hmin hj ⟨hj.trans hi, hj'⟩
    refine ⟨Nat.find hleft, hi, ?_, fun hacc => hnot (hr.mem_of_acc hl hready hi hacc),
      fun j hj => hr.inOrder.acc hl j (hfirst j hj)⟩
    simp [topologicalOrder, htake, Fault.lift, Except.mapError, hlen,
      hr.stuck_eq hready hi hnot hfirst, bind, Except.bind, throw, throwThe, MonadExceptOf.throw]

/-- A graph without cycles has a topological order: all its units, each behind everything with an
edge to it, and then the exit. -/
theorem topologicalOrder_ok {g : Graph} (hl : g.Linked) (hd : g.Distinct)
    (hwf : WellFounded fun a b : Nat => g.Joins (.unit a) (.unit b)) :
    ∃ l : List Nat, g.topologicalOrder = .ok (l.map .unit ++ [.exit]) ∧
      l.Perm (List.range g.nodes.size) ∧ g.InOrder l := by
  have hacc : ∀ i : Nat, Acc g.Joins (.unit i) := by
    intro i
    induction i using hwf.induction with
    | _ i ih =>
      refine Acc.intro _ fun p hp => ?_
      obtain ⟨k, -, rfl⟩ := hl.exists_of_joins hp
      exact ih k hp
  rcases topologicalOrder_cases hl hd with h | ⟨i, -, -, hnot, -⟩
  · exact h
  · exact absurd (hacc i) hnot

/-! The structural check -/

/-- Edges that are known at both ends have no flaws, so the check is whether there is an order. -/
theorem verify_eq {g : Graph} (hl : g.Linked) : g.verify = g.topologicalOrder.map fun _ => () := by
  rw [verify, edgeFlaw?_eq_none hl]
  cases g.topologicalOrder <;> rfl

theorem verify_ok {g : Graph} (hl : g.Linked) (hd : g.Distinct)
    (hwf : WellFounded fun a b : Nat => g.Joins (.unit a) (.unit b)) : g.verify = .ok () := by
  obtain ⟨l, horder, -, -⟩ := topologicalOrder_ok hl hd hwf
  rw [verify_eq hl, horder]
  rfl

/-! Schedules -/

/-- A schedule that keeps to the edges: every unit once, and everything with an edge to it in front of
it. -/
structure Admits (g : Graph) (schedule : List NodeId) : Prop where
  perm : schedule.Perm ((List.range g.nodes.size).map .unit)
  inOrder : ∀ front n back, schedule = front ++ n :: back → ∀ d ∈ g.predsOf n, d.node ∈ front

theorem admits_iff {g : Graph} {schedule : List NodeId} : g.Admits schedule ↔
    ∃ l : List Nat, schedule = l.map .unit ∧ l.Perm (List.range g.nodes.size) ∧ g.InOrder l := by
  constructor
  · intro h
    obtain ⟨l, rfl⟩ : ∃ l : List Nat, l.map NodeId.unit = schedule := by
      have hunits : ∀ n ∈ schedule, ∃ i : Nat, NodeId.unit i = n := by
        intro n hn
        obtain ⟨i, -, hi⟩ := List.mem_map.mp (h.perm.mem_iff.mp hn)
        exact ⟨i, hi⟩
      exact (Set.range_list_map NodeId.unit).ge hunits
    refine ⟨l, rfl, (List.map_perm_map_iff fun a b => NodeId.unit.inj).mp h.perm, ?_⟩
    intro front i back heq d hd
    have hmem := h.inOrder (front.map .unit) (.unit i) (back.map .unit) (by simp [heq]) d hd
    obtain ⟨k, hk, hnode⟩ := List.mem_map.mp hmem
    exact ⟨k, hk, hnode.symm⟩
  · rintro ⟨l, rfl, hperm, horder⟩
    refine ⟨hperm.map _, fun front n back heq d hd => ?_⟩
    obtain ⟨front, rest, rfl, rfl, hrest⟩ := List.map_eq_append_iff.mp heq
    obtain ⟨i, back, rfl, rfl, rfl⟩ := List.map_eq_cons_iff.mp hrest
    obtain ⟨k, hk, hnode⟩ := horder front i back rfl d hd
    exact hnode ▸ List.mem_map_of_mem hk

end Graph

end Precedence
