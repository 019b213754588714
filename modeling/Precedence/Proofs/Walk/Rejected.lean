import Precedence.Proofs.Walk.Accesses
import Precedence.Proofs.Walk.Chain

/-!
The second look at rejected accesses. A store takes the place of a rejected access only when it has
been put before it and whatever meets the access meets the store as well. There is one exception:
when the list has grown too long, a store to an unknown object replaces private accesses too,
although nothing that touches those meets such a store.
-/
namespace Precedence

variable {m : MemoryScope} {units : List Instr} {su t : Nat} {i j : Instr} {n : NodeId}
  {d d' : Draft} {w w' : MemoryWalk}

/-- The store `i` to an unknown object replaces a rejected private access, because the list of
rejected accesses is too long. -/
structure Overrun (m : MemoryScope) (i j : Instr) (rejected : List NodeId) (n : NodeId) :
    Prop where
  store : i.mayStore
  full : m.options.maxRejected < rejected.length
  mem : n ∈ rejected
  unknown : i.underlyingObject = none
  hidden : ∃ o, j.underlyingObject = some o ∧ o.mayAlias = false

/-- The store `i`, at `su`, has been put before the access at `n` and replaces it. -/
structure Replaced (m : MemoryScope) (units : List Instr) (su : Nat) (i : Instr) (g : Graph)
    (rejected : List NodeId) (n : NodeId) : Prop where
  store : i.mayStore
  edge : g.HasEdge (.unit su) n .order none
  shadows : ObjectsAgree units → ∀ t j, n = .unit t → units[t]? = some j →
    j.isGlobalAccess = false → Shadows units i j ∨ Overrun m i j rejected n

theorem Replaced.grows {g g' : Graph} {rejected : List NodeId}
    (h : Replaced m units su i g rejected n) (hg : g.Grows g') :
    Replaced m units su i g' rejected n :=
  ⟨h.store, hg.edges _ _ _ _ h.edge, h.shadows⟩

/-- A covering store shadows what it covers, private accesses aside if it has no object itself. -/
theorem shadows_of_covers (hagree : ObjectsAgree units) (hj : j ∈ units) (hc : covers i j) :
    Shadows units i j ∨
      (i.underlyingObject = none ∧ ∃ o, j.underlyingObject = some o ∧ o.mayAlias = false) := by
  simp only [covers, Bool.and_eq_true] at hc
  cases hi : i.underlyingObject with
  | some o =>
    simp only [hi, beq_iff_eq] at hc
    exact .inl (shadows_of_eq (hc.2.trans hi.symm))
  | none =>
    by_cases h : ∀ o, j.underlyingObject = some o → o.mayAlias
    · exact .inl (shadows_of_reachable hagree hj hi h)
    · push Not at h
      obtain ⟨o, ho, hp⟩ := h
      exact .inr ⟨rfl, o, ho, by simpa using hp⟩

/-- What a second look at the access at `t` leaves behind. -/
structure Reviewed (m : MemoryScope) (units : List Instr) (su : Nat) (i : Instr)
    (rejected : List NodeId) (t : Nat) (j : Instr) (p q : List NodeId × Draft) : Prop where
  grows : p.2.graph.Grows q.2.graph
  adds : ∀ P, Sealed units su P p.2.graph → P t →
    p.2.graph.AddsOnly q.2.graph (orderEdges su P)
  keeps : q.1 = p.1 ++ [.unit t] ∨
    q.1 = p.1 ∧ Replaced m units su i q.2.graph rejected (.unit t)
  meets : conflicts i j → mayTouch i j → Meets m units su i p.2.graph q.2.graph t

section

variable {rejected : List NodeId} {p q : List NodeId × Draft}

theorem orderRejected_ok (hw : p.2.graph.Wraps m.block units)
    (hj : units[t]? = some j) (hstore : i.mayStore) (hmem : .unit t ∈ rejected)
    (hfull : m.options.maxRejected < rejected.length)
    (h : MemoryWalk.orderRejected m (.unit su) i p (.unit t) = .ok q) :
    Reviewed m units su i rejected t j p q := by
  simp only [MemoryWalk.orderRejected, bind_eq_ok, pure_eq_ok] at h
  obtain ⟨j', hj', d, hd, rfl⟩ := h
  obtain rfl := Option.some.inj (hj.symm.trans (MemoryScope.instr_ok hw hj'))
  obtain ⟨hg, he⟩ := Draft.withDep_ok hd
  refine ⟨hg, fun P _ ht => ?_, ?_, fun _ _ => meets_of_hasEdge hg (he hw.linked)⟩
  · refine (Draft.withDep_adds hw.linked hd).only.mono ?_
    rintro p n k r ⟨rfl, rfl, rfl, rfl⟩
    exact ⟨rfl, rfl, rfl, t, rfl, ht⟩
  by_cases hc : covers i j
  · refine .inr ⟨by simp [hc], hstore, he hw.linked, ?_⟩
    rintro hagree t j' ⟨⟩ hj' -
    obtain rfl := Option.some.inj (hj.symm.trans hj')
    exact (shadows_of_covers hagree (List.mem_of_getElem? hj) hc).imp_right
      fun ⟨hi, ho⟩ => ⟨hstore, hfull, hmem, hi, ho⟩
  · exact .inl (by simp [hc])

theorem reviewRejected_ok (hw : p.2.graph.Wraps m.block units)
    (hi : units[su]? = some i) (hj : units[t]? = some j) (hlt : su < t)
    (h : MemoryWalk.reviewRejected m (.unit su) i p (.unit t) = .ok q) :
    Reviewed m units su i rejected t j p q := by
  simp only [MemoryWalk.reviewRejected, bind_eq_ok] at h
  obtain ⟨j', hj', h⟩ := h
  obtain rfl := Option.some.inj (hj.symm.trans (MemoryScope.instr_ok hw hj'))
  split at h
  next hskip =>
    cases h
    refine ⟨.refl _, fun _ _ _ => .refl _ _, .inl rfl, fun hc ht => ?_⟩
    simp [hc, ht] at hskip
  next htouch =>
    simp only [bind_eq_ok, pure_eq_ok, Prod.exists] at h
    obtain ⟨linked, d, hchain, rfl⟩ := h
    have ht : t < units.length := (List.getElem?_eq_some_iff.mp hj).1
    have hchain := chain_ok hw hi hlt ht hchain
    refine ⟨hchain.grows, hchain.adds, ?_, fun _ _ => hchain.meets⟩
    by_cases hc : linked ∧ covers i j
    · have hstore : i.mayStore := by
        have := hc.2
        simp only [covers, Bool.and_eq_true] at this
        exact this.1
      refine .inr ⟨by simp [hc.1, hc.2], hstore, hchain.edge hc.1, ?_⟩
      rintro hagree t j' ⟨⟩ hj' -
      obtain rfl := Option.some.inj (hj.symm.trans hj')
      left
      rcases shadows_of_covers hagree (List.mem_of_getElem? hj) hc.2 with hs | ⟨hio, o, ho, hp⟩
      · exact hs
      · simp [mayTouch, hio, ho, hp] at htouch
    · exact .inl (by simp [hc])

end

/-- What the second look at all rejected accesses leaves behind; `kept` are those still rejected. -/
structure Rechecked (m : MemoryScope) (units : List Instr) (su : Nat) (i : Instr)
    (rejected kept : List NodeId) (g g' : Graph) : Prop where
  grows : g.Grows g'
  adds : ∀ P, Sealed units su P g → (∀ t, .unit t ∈ rejected → P t) →
    g.AddsOnly g' (orderEdges su P)
  sublist : kept.Sublist rejected
  keeps : ∀ n ∈ rejected, n ∈ kept ∨ Replaced m units su i g' rejected n
  meets : ∀ t j, .unit t ∈ rejected → units[t]? = some j → conflicts i j → mayTouch i j →
    Meets m units su i g g' t

theorem rechecked_of_foldlM
    {f : List NodeId × Draft → NodeId → Except Fault (List NodeId × Draft)}
    {rejected kept : List NodeId}
    (step : ∀ n ∈ rejected, ∀ p q, p.2.graph.Wraps m.block units → f p n = .ok q →
      ∃ t j, n = .unit t ∧ units[t]? = some j ∧ Reviewed m units su i rejected t j p q)
    (hw : d.graph.Wraps m.block units) (h : rejected.foldlM f ([], d) = .ok (kept, d')) :
    Rechecked m units su i rejected kept d.graph d'.graph := by
  have hall := collected_of_foldlM (fun n hn p q hp h => by
    obtain ⟨t, j, rfl, -, hr⟩ := step n hn p q hp h
    refine ⟨hr.grows, ?_⟩
    rcases hr.keeps with hq | ⟨hq, -⟩
    · exact .inr hq
    · exact .inl hq) hw h
  refine ⟨hall.grows, fun P hP hPt => ?_, by simpa using hall.sublist, fun n hn => ?_,
    fun t j ht hj hc hm => ?_⟩
  · refine hP.foldlM_adds (p := ([], d)) (fun n hn u v hu hPu hv => ?_) hw h
    obtain ⟨t, j, rfl, -, hr⟩ := step n hn u v hu hv
    exact hr.adds P hPu (hPt t hn)
  · obtain ⟨p, q, hp, hq, -, hg, hsub⟩ := hall.round n hn
    obtain ⟨t, j, rfl, -, hr⟩ := step n hn p q hp hq
    rcases hr.keeps with hq | ⟨-, hq⟩
    · exact .inl (hsub (by simp [hq]))
    · exact .inr (hq.grows hg)
  · obtain ⟨p, q, hp, hq, hpg, hg, -⟩ := hall.round _ ht
    obtain ⟨t', j', heq, hj', hr⟩ := step _ ht p q hp hq
    cases heq
    obtain rfl := Option.some.inj (hj.symm.trans hj')
    exact (hr.meets hc hm).grows hpg hg

theorem checkRejected_ok (hw : w.draft.graph.Wraps m.block units)
    (hi : units[su]? = some i)
    (hlater : ∀ n ∈ w.chains.rejected, IsUnit units (su + 1) (fun _ => True) n)
    (h : w.checkRejected m (.unit su) i = .ok w') :
    ∃ kept d, w' = ⟨{ w.chains with rejected := kept }, d⟩ ∧
      Rechecked m units su i w.chains.rejected kept w.draft.graph d.graph := by
  simp only [MemoryWalk.checkRejected, bind_eq_ok, pure_eq_ok, Prod.exists] at h
  obtain ⟨kept, d, h, rfl⟩ := h
  refine ⟨kept, d, rfl, ?_⟩
  split at h
  next hfull =>
    simp only [Bool.and_eq_true, decide_eq_true_eq] at hfull
    refine rechecked_of_foldlM (fun n hn p q hp h => ?_) hw h
    obtain ⟨t, j, rfl, -, hj, -⟩ := hlater n hn
    exact ⟨t, j, rfl, hj, orderRejected_ok hp hj hfull.2 hn hfull.1 h⟩
  next =>
    refine rechecked_of_foldlM (fun n hn p q hp h => ?_) hw h
    obtain ⟨t, j, rfl, hlt, hj, -⟩ := hlater n hn
    exact ⟨t, j, rfl, hj, reviewRejected_ok hp hi hj hlt h⟩

end Precedence
