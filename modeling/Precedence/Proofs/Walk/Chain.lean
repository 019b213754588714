import Precedence.Proofs.Walk.Visits

/-!
The search behind a separated store. Whatever a later access stands in for along a chain of stores
is reached from the earlier one, unless the oracle separates the two themselves: the search never
stops at a store before it has looked behind it.
-/
namespace Precedence

/-- Unit `x` is behind unit `y` along order edges between stores; `x` itself may be a load. -/
inductive StoreChain (g : Graph) (units : List Instr) : Nat → Nat → Prop
  | refl (x : Nat) : StoreChain g units x x
  | step {x y z : Nat} {j k : Instr} (first : units[y]? = some j) (store : j.mayStore)
      (second : units[z]? = some k) (described : k.isGlobalAccess = false) (lt : y < z)
      (edge : g.HasEdge (.unit y) (.unit z) .order none) (tail : StoreChain g units z x) :
      StoreChain g units y x

namespace StoreChain

variable {g g' : Graph} {units : List Instr} {x y : Nat} {i j k : Instr}

theorem grows (h : StoreChain g units y x) (hg : g.Grows g') : StoreChain g' units y x := by
  induction h with
  | refl => exact .refl _
  | step hj hs hk hd hlt he _ ih => exact .step hj hs hk hd hlt (hg.edges _ _ _ _ he) ih

theorem path (h : StoreChain g units y x) : g.Path (.unit y) (.unit x) := by
  induction h with
  | refl => exact .refl
  | step _ _ _ _ _ he _ ih => exact he.path.trans ih

/-- An access that conflicts with the end of a chain conflicts with all of it. -/
theorem conflicts (h : StoreChain g units y x) (hy : units[y]? = some j) (hx : units[x]? = some k)
    (hc : conflicts i k) : Precedence.conflicts i j := by
  cases h with
  | refl =>
    obtain rfl := Option.some.inj (hy.symm.trans hx)
    exact hc
  | step hj hs =>
    obtain rfl := Option.some.inj (hy.symm.trans hj)
    simp [Precedence.conflicts, hs]

end StoreChain

section

variable {m : MemoryScope} {units : List Instr} {su t : Nat} {i : Instr} {g g' : Graph}
  {d d' : Draft} {P : Nat → Prop}

/-- Linking `i`, at `su`, to the access at `t` has put it before everything that `t` stands in for,
as far as the two conflict and are not separated themselves. -/
def Meets (m : MemoryScope) (units : List Instr) (su : Nat) (i : Instr) (g g' : Graph) (t : Nat) :
    Prop :=
  ∀ x k, StoreChain g units t x → units[x]? = some k → conflicts i k → ¬Separated m.oracle i k →
    g'.Path (.unit su) (.unit x)

theorem Meets.grows {g₁ g₂ g₃ g₄ : Graph} (h : Meets m units su i g₂ g₃ t) (hg : g₁.Grows g₂)
    (hg' : g₃.Grows g₄) : Meets m units su i g₁ g₄ t :=
  fun x k hx hk hc hs => hg'.path (h x k (hx.grows hg) hk hc hs)

theorem meets_of_hasEdge (hg : g.Grows g') (he : g'.HasEdge (.unit su) (.unit t) .order none) :
    Meets m units su i g g' t :=
  fun _ _ hx _ _ _ => he.path.trans (hx.grows hg).path

/-- Where nothing behind a visited unit was passed over, the access comes before all that the unit
stands in for. -/
theorem Swept.meets {met : Marks} {todo : List (NodeId × Nat)} {visits : List Stop}
    (h : Swept m units su i todo met d visits d') (hmet : ∀ x, ¬met.IsMet x) (hlt : su < t)
    (ht : t ∈ visits.map Stop.unit) : Meets m units su i d.graph d'.graph t := by
  have hgrows := h.adds.grows
  intro x k hchain hk hc hsep
  induction hchain with
  | refl x =>
    obtain ⟨s, hs, rfl⟩ := List.mem_map.mp ht
    rcases h.answered s hs with he | ⟨k', hk', -, hs⟩
    · exact he.path
    · obtain rfl := Option.some.inj (hk.symm.trans hk')
      exact absurd hs hsep
  | @step x y z j l hj hstore hl hd hyz he tail ih =>
    obtain ⟨s, hs, rfl⟩ := List.mem_map.mp ht
    rcases h.answered s hs with hlink | hruled
    · exact hlink.path.trans ((hgrows.edges _ _ _ _ he).path.trans (tail.grows hgrows).path)
    · have hne : z ≠ su := by omega
      have hz := h.covered s hs hruled j hj hstore z l none hne hl hd (tail.conflicts hl hk hc)
        (hgrows.edges _ _ _ _ he)
      exact ih (by omega) (hz.resolve_left (hmet z)) hk

/-- What `chain` leaves behind for the access at `t`. -/
structure Chained (m : MemoryScope) (units : List Instr) (su : Nat) (i : Instr) (t : Nat)
    (g g' : Graph) (linked : Bool) : Prop where
  grows : g.Grows g'
  adds : ∀ P, Sealed units su P g → P t → g.AddsOnly g' (orderEdges su P)
  edge : linked → g'.HasEdge (.unit su) (.unit t) .order none
  apart : linked = false → Apart m units i t
  meets : Meets m units su i g g' t

theorem chain_ok {linked : Bool} (hw : d.graph.Wraps m.block units) (hi : units[su]? = some i)
    (hlt : su < t) (ht : t < units.length)
    (h : chain m (.unit su) (.unit t) d = .ok (linked, d')) :
    Chained m units su i t d.graph d'.graph linked := by
  obtain ⟨behind, hfollows, hlinked⟩ := chain_follows hw hi hlt.ne ht h
  have hswept := hfollows.swept hw hi (by simp [Marks.blank])
  have hfirst : (⟨t, 0⟩ : Stop) ∈ (⟨t, 0⟩ :: behind : List Stop) := List.mem_cons_self
  constructor
  case grows => exact hswept.adds.grows
  case adds =>
    intro P hP hPt
    have hinside := hfollows.inside hw hi hP (by simpa using hPt)
    refine hswept.adds.mono (orderEdges_mono fun u hu => ?_)
    obtain ⟨s, hs, rfl⟩ := List.mem_map.mp hu
    exact hinside s hs
  case edge => exact fun hl => (hswept.answered _ hfirst).resolve_right (hlinked.mp hl)
  case apart =>
    intro hl
    have hruled : Stop.RuledOut ⟨t, 0⟩ m units i := by
      by_contra hno
      exact Bool.false_ne_true (hl.symm.trans (hlinked.mpr hno))
    exact hruled.apart
  case meets => exact hswept.meets Marks.not_isMet_blank hlt (List.mem_map_of_mem hfirst)

/-- A loop that adds order edges into a sealed set in every round. -/
theorem Sealed.foldlM_adds
    {f : List NodeId × Draft → NodeId → Except Fault (List NodeId × Draft)} {l : List NodeId}
    {p q : List NodeId × Draft} (hP : Sealed units su P p.2.graph)
    (step : ∀ n ∈ l, ∀ u v, u.2.graph.Wraps m.block units → Sealed units su P u.2.graph →
      f u n = .ok v → u.2.graph.AddsOnly v.2.graph (orderEdges su P))
    (hw : p.2.graph.Wraps m.block units) (h : l.foldlM f p = .ok q) :
    p.2.graph.AddsOnly q.2.graph (orderEdges su P) :=
  foldlM_keeps (fun u => p.2.graph.AddsOnly u.2.graph (orderEdges su P))
    (fun n hn u v hu hv => hu.trans
      (step n hn u v (hw.grows hu.grows) (hP.of_orderEdges hu) hv)) (.refl _ _) h

/-- The same for `chainAll` and all of its targets. -/
structure ChainedAll (m : MemoryScope) (units : List Instr) (su : Nat) (i : Instr)
    (targets apart : List NodeId) (g g' : Graph) : Prop where
  grows : g.Grows g'
  adds : ∀ P, Sealed units su P g → (∀ t, .unit t ∈ targets → P t) →
    g.AddsOnly g' (orderEdges su P)
  separated : ∀ n ∈ apart, n ∈ targets ∧ ∃ t, n = .unit t ∧ Apart m units i t
  edge : ∀ t, .unit t ∈ targets → .unit t ∈ apart ∨ g'.HasEdge (.unit su) (.unit t) .order none
  meets : ∀ t, .unit t ∈ targets → Meets m units su i g g' t

theorem chainAll_ok {targets apart : List NodeId} (hw : d.graph.Wraps m.block units)
    (hi : units[su]? = some i)
    (hlater : ∀ n ∈ targets, ∃ t, n = .unit t ∧ su < t ∧ t < units.length)
    (h : chainAll m (.unit su) targets d = .ok (apart, d')) :
    ChainedAll m units su i targets apart d.graph d'.graph := by
  have hstep : ∀ n ∈ targets, ∀ p q, p.2.graph.Wraps m.block units →
      chainStep m (.unit su) p n = .ok q → ∃ t linked, n = .unit t ∧
        Chained m units su i t p.2.graph q.2.graph linked ∧
        q.1 = if linked then p.1 else p.1 ++ [n] := by
    intro n hn p q hp h
    obtain ⟨t, rfl, hlt, ht⟩ := hlater n hn
    simp only [chainStep, bind_eq_ok, pure_eq_ok, Prod.exists] at h
    obtain ⟨linked, d₁, hchain, rfl⟩ := h
    exact ⟨t, linked, rfl, chain_ok hp hi hlt ht hchain, rfl⟩
  have hall := collected_of_foldlM (fun n hn p q hp h => by
    obtain ⟨t, linked, rfl, hchain, hq⟩ := hstep n hn p q hp h
    refine ⟨hchain.grows, ?_⟩
    cases linked with
    | true => exact .inl hq
    | false => exact .inr hq) hw h
  refine ⟨hall.grows, fun P hP hPt => ?_, fun n hn => ?_, fun t ht => ?_, fun t ht => ?_⟩
  · refine hP.foldlM_adds (p := ([], d)) (fun n hn u v hu hPu hv => ?_) hw h
    obtain ⟨t, linked, rfl, hchain, -⟩ := hstep n hn u v hu hv
    exact hchain.adds P hPu (hPt t hn)
  · have hmem : n ∈ targets := by simpa using hall.sublist.subset hn
    obtain ⟨p, q, hp, hq, hnew⟩ := (hall.kept n hn).resolve_left (by simp)
    obtain ⟨t, linked, rfl, hchain, heq⟩ := hstep n hmem p q hp hq
    refine ⟨hmem, t, rfl, hchain.apart ?_⟩
    cases linked with
    | true => simp [hnew] at heq
    | false => rfl
  · obtain ⟨p, q, hp, hq, -, hg, hsub⟩ := hall.round _ ht
    obtain ⟨t', linked, heq, hchain, hnew⟩ := hstep _ ht p q hp hq
    cases heq
    cases linked with
    | true => exact .inr (hg.edges _ _ _ _ (hchain.edge rfl))
    | false => exact .inl (hsub (by simp [hnew]))
  · obtain ⟨p, q, hp, hq, hpg, hg, -⟩ := hall.round _ ht
    obtain ⟨t', linked, heq, hchain, -⟩ := hstep _ ht p q hp hq
    cases heq
    exact hchain.meets.grows hpg hg

end

end Precedence
