import Precedence.Graph.Reach
import Precedence.Proofs.Graph.Edges

/-!
The search behind `Graph.reaches` decides whether there is a path. What it finds lies behind the edges it
began with, and a search that gives up has seen a set of units that no edge leaves and that the target is
not in.
-/
namespace Precedence

namespace Marks

/-- The unit carries a mark. -/
def IsMet (m : Marks) (i : Nat) : Prop := m.flags[i]? = some true

theorem isMet_mark {m : Marks} {i j : Nat} (hi : i < m.flags.size) :
    (m.mark (.unit i)).IsMet j ↔ j = i ∨ m.IsMet j := by
  by_cases h : j = i
  · subst h
    simp [mark, IsMet, hi]
  · simp [mark, IsMet, h, Ne.symm h]

theorem not_isMet_blank {n : Nat} (i : Nat) : ¬(blank n).IsMet i := by
  simp [IsMet, blank, Array.getElem?_replicate]

theorem isMet_of_not_fresh {m : Marks} {i : Nat} (hi : i < m.flags.size)
    (h : ¬ m.isFresh (.unit i)) : m.IsMet i := by
  cases hf : m.flags[i] <;> simp_all [isFresh, IsMet]

end Marks

namespace Graph

theorem present_of_mem_succsOf {g : Graph} (hl : g.Linked) {id : NodeId} {d : Dep}
    (hd : d ∈ g.succsOf id) : (g.position d.node).isSome :=
  hl.present id d.node d.kind d.reg (List.mem_map_of_mem hd)

/-- A node other than the target, and a seen one if it is a unit. -/
def Inside (target : NodeId) (seen : Nat → Prop) (n : NodeId) : Prop :=
  n ≠ target ∧ ∀ i, n = .unit i → seen i

/-- What a search that gives up leaves behind: a set of seen units that no edge leaves, as far as
they were not met before the search began. -/
structure Exhausted (g : Graph) (target : NodeId) (seen : Nat → Prop) (deps : List Dep)
    (found : List Nat) (met : Marks) : Prop where
  met_seen : ∀ i, met.IsMet i → seen i
  deps_inside : ∀ d ∈ deps, Inside target seen d.node
  found_inside : ∀ i ∈ found, ∀ d ∈ g.succsOf (.unit i), Inside target seen d.node
  seen_inside : ∀ i, seen i → ¬ met.IsMet i → ∀ d ∈ g.succsOf (.unit i), Inside target seen d.node

/-- What a search that says yes has found: a path to the target from behind one of its edges, or from
behind an edge of a unit that it has found. -/
def Finds (g : Graph) (target : NodeId) (deps : List Dep) (found : List Nat) : Prop :=
  ∃ d, (d ∈ deps ∨ ∃ i ∈ found, d ∈ g.succsOf (.unit i)) ∧ g.Path d.node target

theorem Finds.cons {g : Graph} {target : NodeId} {d : Dep} {deps : List Dep} {found : List Nat}
    (h : g.Finds target deps found) : g.Finds target (d :: deps) found := by
  obtain ⟨e, he, hpath⟩ := h
  exact ⟨e, he.imp_left (List.mem_cons_of_mem d), hpath⟩

/-- A unit that has just been met is behind the edge that leads to it. -/
theorem Finds.of_met {g : Graph} {target : NodeId} {d : Dep} {deps : List Dep} {found : List Nat}
    {i : Nat} (hd : d.node = .unit i) (h : g.Finds target deps (i :: found)) :
    g.Finds target (d :: deps) found := by
  obtain ⟨e, he | ⟨j, hj, he⟩, hpath⟩ := h
  · exact ⟨e, .inl (List.mem_cons_of_mem d he), hpath⟩
  · rcases List.mem_cons.mp hj with rfl | hj
    · have hjoins : g.Joins (.unit j) e.node := ⟨e.kind, e.reg, List.mem_map_of_mem he⟩
      exact ⟨d, .inl List.mem_cons_self, hd ▸ .head hjoins hpath⟩
    · exact ⟨e, .inr ⟨j, hj, he⟩, hpath⟩

theorem search_cases {g : Graph} (hl : g.Linked) (target : NodeId) (deps : List Dep)
    (found : List Nat) (met : Marks) (hsize : met.flags.size = g.nodes.size)
    (hdeps : ∀ d ∈ deps, (g.position d.node).isSome) (hfound : ∀ i ∈ found, i < g.nodes.size) :
    (g.search target deps found met = .ok true ∧ g.Finds target deps found) ∨
      (g.search target deps found met = .ok false ∧
        ∃ seen, g.Exhausted target seen deps found met) := by
  fun_induction search g target deps found met with
  | case1 met =>
    exact .inr ⟨rfl, met.IsMet, fun _ => id, by simp, by simp, fun i h h' => absurd h h'⟩
  | case2 i found met n hn ih =>
    have hsuccs : g.succsOf (.unit i) = n.succs := by simp [succsOf, hn]
    have hdeps' : ∀ d ∈ n.succs, (g.position d.node).isSome :=
      fun d hd => present_of_mem_succsOf hl (hsuccs ▸ hd)
    refine (ih hsize hdeps' fun j hj => hfound j (List.mem_cons_of_mem i hj)).imp
      (And.imp_right ?_) (And.imp_right ?_)
    · rintro ⟨d, hd | ⟨j, hj, hd⟩, hpath⟩
      · exact ⟨d, .inr ⟨i, List.mem_cons_self, hsuccs ▸ hd⟩, hpath⟩
      · exact ⟨d, .inr ⟨j, List.mem_cons_of_mem i hj, hd⟩, hpath⟩
    · rintro ⟨seen, h⟩
      refine ⟨seen, h.met_seen, by simp, fun j hj => ?_, h.seen_inside⟩
      rcases List.mem_cons.mp hj with rfl | hj
      · exact hsuccs ▸ h.deps_inside
      · exact h.found_inside j hj
  | case3 i found met hn =>
    have := hfound i List.mem_cons_self
    simp [this] at hn
  | case4 d deps found met htarget =>
    exact .inl ⟨rfl, d, .inl List.mem_cons_self, htarget ▸ .refl⟩
  | case5 d deps found met htarget hexit ih =>
    refine (ih hsize (fun e he => hdeps e (List.mem_cons_of_mem d he)) hfound).imp
      (And.imp_right Finds.cons) (And.imp_right ?_)
    rintro ⟨seen, h⟩
    refine ⟨seen, h.met_seen, fun e he => ?_, h.found_inside, h.seen_inside⟩
    rcases List.mem_cons.mp he with rfl | he
    · exact ⟨htarget, fun i hi => by simp [hexit] at hi⟩
    · exact h.deps_inside e he
  | case6 d deps found met htarget i hi hfresh ih =>
    have hlt : i < g.nodes.size := by
      have := hdeps d List.mem_cons_self
      rwa [hi, position_unit_isSome] at this
    have hmark := fun j => Marks.isMet_mark (j := j) (hsize ▸ hlt)
    refine (ih (by simpa [Marks.mark]) (fun e he => hdeps e (List.mem_cons_of_mem d he))
      (fun j hj => ?_)).imp (And.imp_right (Finds.of_met hi)) (And.imp_right ?_)
    · rcases List.mem_cons.mp hj with rfl | hj
      · exact hlt
      · exact hfound j hj
    · rintro ⟨seen, h⟩
      refine ⟨seen, fun j hj => h.met_seen j ((hmark j).mpr (.inr hj)), fun e he => ?_,
        fun j hj => h.found_inside j (List.mem_cons_of_mem i hj), fun j hj hmet => ?_⟩
      · rcases List.mem_cons.mp he with rfl | he
        · refine ⟨htarget, fun j hj => ?_⟩
          cases hi.symm.trans hj
          exact h.met_seen i ((hmark i).mpr (.inl rfl))
        · exact h.deps_inside e he
      · by_cases hji : j = i
        · exact hji ▸ h.found_inside i List.mem_cons_self
        · exact h.seen_inside j hj (by simp [hmark, hji, hmet])
  | case7 d deps found met htarget i hi hfresh hlt ih =>
    refine (ih hsize (fun e he => hdeps e (List.mem_cons_of_mem d he)) hfound).imp
      (And.imp_right Finds.cons) (And.imp_right ?_)
    rintro ⟨seen, h⟩
    refine ⟨seen, h.met_seen, fun e he => ?_, h.found_inside, h.seen_inside⟩
    rcases List.mem_cons.mp he with rfl | he
    · refine ⟨htarget, fun j hj => ?_⟩
      cases hi.symm.trans hj
      exact h.met_seen i (Marks.isMet_of_not_fresh (hsize ▸ hlt) hfresh)
    · exact h.deps_inside e he
  | case8 d deps found met htarget i hi hfresh hlt =>
    have := hdeps d List.mem_cons_self
    rw [hi, position_unit_isSome] at this
    exact absurd this hlt

/-- Asked about a node that is there, `reaches` answers, and it says yes exactly where a path leads. -/
theorem reaches_iff_path {g : Graph} (hl : g.Linked) {source : NodeId} (target : NodeId)
    (hsource : (g.position source).isSome) :
    ∃ b, g.reaches source target = .ok b ∧ (b = true ↔ g.Path source target) := by
  unfold reaches
  split
  next heq => exact ⟨true, rfl, iff_of_true rfl (heq ▸ .refl)⟩
  next hne =>
    obtain ⟨n, hn⟩ : ∃ n, g.node? source = some n := by
      simpa [position, Option.isSome_iff_exists] using hsource
    have hsuccs : g.succsOf source = n.succs := by simp [succsOf_eq, hn]
    simp only [node_eq_ok.mpr hn, bind, Except.bind]
    rcases search_cases hl target n.succs [] (.blank g.nodes.size) (by simp [Marks.blank])
      (fun d hd => present_of_mem_succsOf hl (hsuccs ▸ hd)) (by simp) with
      ⟨hyes, d, hd | ⟨i, hi, -⟩, hpath⟩ | ⟨hno, seen, h⟩
    · have hjoins : g.Joins source d.node := ⟨d.kind, d.reg, List.mem_map_of_mem (hsuccs ▸ hd)⟩
      exact ⟨true, hyes, iff_of_true rfl (.head hjoins hpath)⟩
    · cases hi
    · refine ⟨false, hno, iff_of_false Bool.false_ne_true fun hpath => ?_⟩
      -- everything a path leads to from `source` would be inside the exhausted set
      have hinside : ∀ id, g.Path source id → id = source ∨ Inside target seen id := by
        intro id hp
        induction hp with
        | refl => exact .inl rfl
        | @tail x y _ hxy ih =>
          obtain ⟨k, r, he⟩ := hxy
          obtain ⟨d, hd, hdc⟩ := List.mem_map.mp he
          obtain rfl : d.node = y := congrArg Prod.fst hdc
          right
          rcases ih with rfl | ⟨-, hx⟩
          · exact h.deps_inside d (hsuccs ▸ hd)
          · cases x with
            | exit =>
              have := hl.exit_last
              simp only [outgoing, List.map_eq_nil_iff] at this
              simp [this] at hd
            | unit i => exact h.seen_inside i (hx i rfl) (by simp [Marks.IsMet, Marks.blank,
                Array.getElem?_replicate]) d hd
      rcases hinside target hpath with heq | hin
      · exact hne heq.symm
      · exact hin.1 rfl

/-- Where a path leads, `reaches` answers yes. -/
theorem reaches_of_path {g : Graph} (hl : g.Linked) {source target : NodeId}
    (hsource : (g.position source).isSome) (hpath : g.Path source target) :
    g.reaches source target = .ok true := by
  obtain ⟨b, hb, hiff⟩ := reaches_iff_path hl target hsource
  rw [hb, hiff.mpr hpath]

end Graph

end Precedence
