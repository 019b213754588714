import Precedence.Proofs.Sparse.Maps
import Precedence.Proofs.Walk.Growth

/-!
What an earlier unit meets of the registers of the units below it. A write that the walk has
forgotten is behind a write it still knows, and so is a forgotten read; linking a unit to what is
known therefore puts it before everything it interferes with, and the unit then stands in for
whatever it hides.
-/
namespace Precedence

/-- Two operands for the same storage, the first of an earlier unit, must stay in order. Neither
two reads nor two dead writes need to, nor does a read behind a dead write. -/
def RegOperand.Interferes (a b : RegOperand) : Prop :=
  (a.isDef ∧ ¬a.isDead ∧ b.reads) ∨ (a.reads ∧ b.isDef) ∨
    (a.isDef ∧ b.isDef ∧ ¬(a.isDead ∧ b.isDead))

theorem RegOperand.not_isDef_of_reads {o : RegOperand} (h : o.reads) : o.isDef = false := by
  simp only [reads, Bool.and_eq_true, Bool.not_eq_true'] at h
  exact h.1

theorem RegOperand.Interferes.operand {a b : RegOperand} (h : a.Interferes b) :
    a.isDef ∨ a.reads := by
  rcases h with ⟨h, -⟩ | ⟨h, -⟩ | ⟨h, -⟩
  · exact .inl h
  · exact .inr h
  · exact .inl h

/-- Two registers share storage: physical ones as far as the target says so, virtual ones when they
are the same. -/
inductive Setup.SharesStorage (s : Setup) (a b : Reg) : Prop
  | physical (fst : s.classify a = .ok .physical) (snd : s.classify b = .ok .physical)
      (shared : ∀ l, s.regs.overlaps a = .ok l → b ∈ l)
  | virtual (fst : a.isVirtual) (plain : ¬s.regs.isPhysical a) (same : b = a)

/-- What a target must promise for its registers to be kept in order: refinement leaves the ends of
an edge alone, and a register shares its own storage. -/
structure Setup.Orderly (s : Setup) : Prop where
  adjusts : s.timing.AdjustsLatencyOnly
  overlaps_self : ∀ r shared, s.regs.overlaps r = .ok shared → r ∈ shared

/-- Unit `x` is behind some unit of a list. -/
def Graph.Behind (g : Graph) (nodes : List NodeId) (x : Nat) : Prop :=
  ∃ k, .unit k ∈ nodes ∧ g.Path (.unit k) (.unit x)

theorem Graph.Behind.grows {g g' : Graph} {nodes : List NodeId} {x : Nat}
    (h : g.Behind nodes x) (hg : g.Grows g') : g'.Behind nodes x := by
  obtain ⟨k, hk, hp⟩ := h
  exact ⟨k, hk, hg.path hp⟩

/-- Operand `o` of unit `x` is known to the walk by what it has recorded for the register: a write
is behind a recorded write, and a read is recorded itself or behind a recorded write. -/
structure Guard (g : Graph) (defs uses : List NodeId) (x : Nat) (o : RegOperand) : Prop where
  write : o.isDef → g.Behind defs x
  read : o.reads → .unit x ∈ uses ∨ g.Behind defs x

theorem Guard.grows {g g' : Graph} {defs uses : List NodeId} {x : Nat} {o : RegOperand}
    (h : Guard g defs uses x o) (hg : g.Grows g') : Guard g' defs uses x o :=
  ⟨fun ho => (h.write ho).grows hg, fun ho => (h.read ho).imp_right (·.grows hg)⟩

/-- A unit that comes before everything recorded can replace it. -/
theorem Guard.replace {g : Graph} {defs uses defs' uses' : List NodeId} {su x : Nat}
    {o : RegOperand} (h : Guard g defs uses x o) (hsu : .unit su ∈ defs')
    (hdefs : ∀ k, .unit k ∈ defs → .unit k ∈ defs' ∨ g.Path (.unit su) (.unit k))
    (huses : ∀ n ∈ uses, g.Path (.unit su) n) : Guard g defs' uses' x o := by
  have hbehind : g.Behind defs x → g.Behind defs' x := by
    rintro ⟨k, hk, hp⟩
    rcases hdefs k hk with hk | hk
    · exact ⟨k, hk, hp⟩
    · exact ⟨su, hsu, hk.trans hp⟩
  refine ⟨fun ho => hbehind (h.write ho), fun ho => .inr ?_⟩
  rcases h.read ho with hx | hx
  · exact ⟨su, hsu, huses _ hx⟩
  · exact hbehind hx

/-- The physical registers of the units from `x` on, as far as the walk knows them: of the writes
that are not dead, it knows one that is not dead either. -/
structure Tracker.Guards (units : List Instr) (g : Graph) (t : Tracker) (x : Nat)
    (o : RegOperand) : Prop
    extends toGuard : Guard g (t.defs.nodesOf o.reg) (t.uses.nodesOf o.reg) x o where
  live : o.isDef → ¬o.isDead → ∃ k i, .unit k ∈ t.defs.nodesOf o.reg ∧
    g.Path (.unit k) (.unit x) ∧ units[k]? = some i ∧ ¬i.defIsDead o.reg

theorem Tracker.Guards.grows {units : List Instr} {g g' : Graph} {t : Tracker} {x : Nat}
    {o : RegOperand} (h : t.Guards units g x o) (hg : g.Grows g') : t.Guards units g' x o := by
  refine ⟨h.toGuard.grows hg, fun ho hd => ?_⟩
  obtain ⟨k, i, hk, hp, hi⟩ := h.live ho hd
  exact ⟨k, i, hk, hg.path hp, hi⟩

/-- The virtual registers in the same way; here every write takes the place of what is below. -/
def RegState.Guards (g : Graph) (r : RegState) (x : Nat) (o : RegOperand) : Prop :=
  Guard g (r.virtualDefs.valueAt o.reg.virtualPosition).toList
    ((r.virtualUses.valueAt o.reg.virtualPosition).map Prod.fst) x o

/-- The maps of a tracker hold what was put into them. -/
structure Tracker.Sound (t : Tracker) : Prop where
  defs : t.defs.map.Sound
  uses : t.uses.map.Sound

namespace Tracker

variable {t t' : Tracker} {r : Reg} {n : NodeId}

theorem recordDef_ok (ht : t.Sound) (h : t.recordDef r n = .ok t') :
    t'.Sound ∧ t'.uses = t.uses ∧
      t'.defs.nodesOf = Function.update t.defs.nodesOf r (t.defs.nodesOf r ++ [n]) := by
  simp only [recordDef, RegNodes.push, bind_eq_ok, pure_eq_ok] at h
  obtain ⟨defs, hdefs, rfl⟩ := h
  obtain ⟨hs, hd⟩ := RegNodes.alter_ok ht.defs hdefs
  exact ⟨⟨hs, ht.uses⟩, rfl, hd⟩

theorem recordUse_ok (ht : t.Sound) (h : t.recordUse r n = .ok t') :
    t'.Sound ∧ t'.defs = t.defs ∧
      t'.uses.nodesOf = Function.update t.uses.nodesOf r (t.uses.nodesOf r ++ [n]) := by
  simp only [recordUse, RegNodes.push, bind_eq_ok, pure_eq_ok] at h
  obtain ⟨uses, huses, rfl⟩ := h
  obtain ⟨hs, hu⟩ := RegNodes.alter_ok ht.uses huses
  exact ⟨⟨ht.defs, hs⟩, rfl, hu⟩

end Tracker

/-- All register maps of the walk hold what was put into them. -/
structure RegState.Sound (r : RegState) : Prop where
  tracker : r.tracker.Sound
  virtualDefs : r.virtualDefs.Sound
  virtualUses : r.virtualUses.Sound

section

variable {s : Setup} {reads : LoopReads} {b : Block} {units : List Instr} {su pos : Nat} {i : Instr}
  {o : RegOperand} {t t' : Tracker} {r r' : RegState} {reg : Reg} {shared : List Reg}
  {d d' : Draft} {later : NodeId}

/-! All that a link can do -/

section

variable {self : NodeId}

/-- An output edge is left out at the node itself, at the exit and between two dead writes. -/
theorem linkWrite_cases (h : linkWrite s b self i pos o reg d later = .ok d') :
    (d' = d ∧ (later = self ∨ later = .exit ∨ d.graph.instr later b = .ok none ∨
      ∃ j, d.graph.instr later b = .ok (some j) ∧ o.isDead ∧ j.defIsDead reg)) ∨
    (later ≠ self ∧ later ≠ .exit ∧ ∃ j, d.graph.instr later b = .ok (some j) ∧
      ¬(o.isDead ∧ j.defIsDead reg) ∧
      d.withDep later (.output self (s.timing.outputLatency i pos j) reg) = .ok d') := by
  unfold linkWrite at h
  split at h
  next hskip =>
    cases h
    exact .inl ⟨rfl, hskip.imp_right .inl⟩
  next hgo =>
    rw [not_or] at hgo
    obtain ⟨j, hj, h⟩ := bind_eq_ok.mp h
    cases j with
    | none =>
      cases h
      exact .inl ⟨rfl, .inr (.inr (.inl hj))⟩
    | some j =>
      dsimp only at h
      split at h
      next hdead =>
        cases h
        exact .inl ⟨rfl, .inr (.inr (.inr ⟨j, hj, by simpa using hdead⟩))⟩
      next hlive => exact .inr ⟨hgo.1, hgo.2, j, hj, by simpa using hlive, h⟩

theorem linkRead_cases (h : linkRead s reads b self pos reg d later = .ok d') :
    (later = self ∧ d' = d) ∨ (later ≠ self ∧ ∃ j latency,
      (if later = .exit then .ok none else d.graph.instr later b) = .ok j ∧
      valueLatency s d.graph self
        (j.bind fun j => (j.findUse reg).map fun pos' => (j, pos')) = .ok latency ∧
      d.addValue s reads self later (.data self latency reg (some pos)
        (j.bind fun j => j.findUse reg)) = .ok d') := by
  have hoperand : ∀ j : Option Instr,
      (j.bind fun j => (j.findUse reg).map fun pos' => (j, pos')).map Prod.snd =
        j.bind fun j => j.findUse reg := by
    intro j
    cases j with
    | none => rfl
    | some j => cases hu : j.findUse reg <;> simp [hu]
  unfold linkRead at h
  split at h
  next hself =>
    cases h
    exact .inl ⟨hself, rfl⟩
  next hne =>
    refine .inr ⟨hne, ?_⟩
    split at h
    next hexit =>
      obtain ⟨j, hj, h⟩ := bind_eq_ok.mp h
      obtain ⟨latency, hlatency, h⟩ := bind_eq_ok.mp h
      exact ⟨j, latency, by rwa [if_pos hexit], hlatency, hoperand j ▸ h⟩
    next hexit =>
      obtain ⟨j, hj, h⟩ := bind_eq_ok.mp h
      obtain ⟨latency, hlatency, h⟩ := bind_eq_ok.mp h
      exact ⟨j, latency, by rwa [if_neg hexit], hlatency, hoperand j ▸ h⟩

theorem linkOverwrite_cases (h : linkOverwrite self reg d later = .ok d') :
    ((later = self ∨ later = .exit) ∧ d' = d) ∨
      (later ≠ self ∧ later ≠ .exit ∧ d.withDep later (.anti self reg) = .ok d') := by
  unfold linkOverwrite at h
  split at h
  next hskip =>
    cases h
    exact .inl ⟨hskip, rfl⟩
  next hgo =>
    rw [not_or] at hgo
    exact .inr ⟨hgo.1, hgo.2, h⟩

theorem linkWaiting_cases {waiting : NodeId × Nat}
    (h : linkWaiting s reads self pos reg d waiting = .ok d') :
    (waiting.1 = self ∧ d' = d) ∨ (waiting.1 ≠ self ∧ ∃ n, d.graph.node self = .ok n ∧
      d.addValue s reads self waiting.1
        (.data self n.latency reg (some pos) (some waiting.2)) = .ok d') := by
  unfold linkWaiting at h
  split at h
  next hself =>
    cases h
    exact .inl ⟨hself, rfl⟩
  next hne => exact .inr ⟨hne, bind_eq_ok.mp h⟩

theorem linkNearest_cases {nearest : Option NodeId}
    (h : linkNearest s b self i pos reg nearest d = .ok d') :
    (d' = d ∧ ∀ later, nearest = some later →
      later = self ∨ d.graph.instr later b = .ok none) ∨
    ∃ later j, nearest = some later ∧ later ≠ self ∧ d.graph.instr later b = .ok (some j) ∧
      d.withDep later (.output self (s.timing.outputLatency i pos j) reg) = .ok d' := by
  unfold linkNearest at h
  split at h
  · cases h
    exact .inl ⟨rfl, nofun⟩
  next later =>
    split at h
    next hself =>
      cases h
      refine .inl ⟨rfl, ?_⟩
      rintro _ ⟨⟩
      exact .inl hself
    next hne =>
      obtain ⟨j, hj, h⟩ := bind_eq_ok.mp h
      cases j with
      | none =>
        cases h
        refine .inl ⟨rfl, ?_⟩
        rintro _ ⟨⟩
        exact .inr hj
      | some j => exact .inr ⟨later, j, rfl, hne, hj, h⟩

end

/-! Edges to what is recorded -/

theorem linkWrite_ok (hw : d.graph.Wraps b units)
    (h : linkWrite s b (.unit su) i pos o reg d later = .ok d') :
    d.graph.Grows d'.graph ∧ ∀ k, later = .unit k → d'.graph.Path (.unit su) later ∨
      (o.isDead ∧ ∃ j, units[k]? = some j ∧ j.defIsDead reg) := by
  rcases linkWrite_cases h with ⟨rfl, hskip⟩ | ⟨-, -, j, -, -, h⟩
  · refine ⟨.refl _, ?_⟩
    rintro k rfl
    rcases hskip with hself | hexit | hnone | ⟨j, hj, hdead, hjdead⟩
    · exact .inl (hself ▸ .refl)
    · cases hexit
    · obtain ⟨u, ⟨⟩, -⟩ := hw.exists_instr hnone
    · obtain ⟨_, ⟨⟩, hu⟩ := hw.exists_instr hj
      exact .inr ⟨hdead, j, hu, hjdead⟩
  · obtain ⟨hg, he⟩ := Draft.withDep_ok h
    exact ⟨hg, fun _ _ => .inl (he hw.linked).path⟩

theorem linkRead_ok (hw : d.graph.Wraps b units)
    (h : linkRead s reads b (.unit su) pos reg d later = .ok d') :
    d.graph.Grows d'.graph ∧ (s.Orderly → d'.graph.Path (.unit su) later) := by
  rcases linkRead_cases h with ⟨hself, rfl⟩ | ⟨-, j, latency, -, -, h⟩
  · exact ⟨.refl _, fun _ => hself ▸ .refl⟩
  · obtain ⟨hg, he⟩ := Draft.addValue_ok h
    exact ⟨hg, fun hs => (he hs.adjusts hw.linked).path⟩

theorem linkOverwrite_ok (hw : d.graph.Wraps b units)
    (h : linkOverwrite (.unit su) reg d later = .ok d') :
    d.graph.Grows d'.graph ∧ ∀ k, later = .unit k → d'.graph.Path (.unit su) later := by
  rcases linkOverwrite_cases h with ⟨hskip, rfl⟩ | ⟨-, -, h⟩
  · refine ⟨.refl _, ?_⟩
    rintro k rfl
    rcases hskip with hself | hexit
    · exact hself ▸ .refl
    · cases hexit
  · obtain ⟨hg, he⟩ := Draft.withDep_ok h
    exact ⟨hg, fun _ _ => (he hw.linked).path⟩

/-- A loop over everything recorded for several registers. -/
theorem foldlM_nodes {m : RegNodes} {f : Reg → Draft → NodeId → Except Fault Draft}
    (Q : Reg → NodeId → Graph → Prop) (mono : ∀ r n g g', Q r n g → g.Grows g' → Q r n g')
    (step : ∀ r n d d', d.graph.Wraps b units → f r d n = .ok d' →
      d.graph.Grows d'.graph ∧ Q r n d'.graph)
    (hw : d.graph.Wraps b units)
    (h : shared.foldlM (fun d r => do
      let later ← m.get r
      later.foldlM (f r) d) d = .ok d') :
    d.graph.Grows d'.graph ∧ ∀ r ∈ shared, ∀ n ∈ m.nodesOf r, Q r n d'.graph := by
  refine Draft.foldlM_links (fun r g => ∀ n ∈ m.nodesOf r, Q r n g)
    (fun r g g' hQ hg n hn => mono r n g g' (hQ n hn) hg) (fun r _ e e' he h => ?_) hw h
  simp only [bind_eq_ok] at h
  obtain ⟨nodes, hnodes, h⟩ := h
  obtain rfl := RegNodes.get_ok hnodes
  exact Draft.foldlM_links (Q r) (mono r) (fun n _ => step r n) he h

/-! What a write hides -/

/-- What the tracker `t` becomes when `n` writes the register of `o`: the reads recorded for it are
gone, and so may be the writes, but a dead write hides no others unless it is a call. -/
structure Tracker.Hides (n : NodeId) (isCall : Bool) (o : RegOperand) (t t' : Tracker) : Prop where
  sound : t'.Sound
  uses : t'.uses.nodesOf = Function.update t.uses.nodesOf o.reg []
  other : ∀ r ≠ o.reg, t'.defs.nodesOf r = t.defs.nodesOf r
  self : n ∈ t'.defs.nodesOf o.reg
  only : ∀ k ∈ t'.defs.nodesOf o.reg, k = n ∨ k ∈ t.defs.nodesOf o.reg
  dead : isCall = false → o.isDead → ∀ k ∈ t.defs.nodesOf o.reg, k ∈ t'.defs.nodesOf o.reg

theorem dropCalls_subset {g : Graph} {nodes : List NodeId} : dropCalls g nodes ⊆ nodes := by
  intro n hn
  rw [dropCalls, List.mem_reverse] at hn
  exact List.mem_reverse.mp ((List.dropWhile_sublist _).subset hn)

theorem Tracker.hide_ok {n : NodeId} {g : Graph} {isCall : Bool} (ht : t.Sound)
    (h : t.hide g n isCall o = .ok t') : Tracker.Hides n isCall o t t' := by
  simp only [hide, bind_eq_ok] at h
  obtain ⟨uses, huses, h⟩ := h
  obtain ⟨hus, hu⟩ := RegNodes.erase_ok ht.uses huses
  obtain ⟨defs, hdefs, hother, hsub, hkept, h⟩ : ∃ defs : RegNodes, defs.map.Sound ∧
      (∀ r ≠ o.reg, defs.nodesOf r = t.defs.nodesOf r) ∧
      defs.nodesOf o.reg ⊆ t.defs.nodesOf o.reg ∧ (o.isDead → defs = t.defs) ∧
      (defs.alter o.reg fun nodes => (if isCall then dropCalls g nodes else nodes) ++ [n]) >>=
        (fun defs => pure { defs, uses }) = .ok t' := by
    split at h
    next hd =>
      exact ⟨t.defs, ht.defs, fun _ _ => rfl, List.Subset.refl _, fun _ => rfl, h⟩
    next hd =>
      obtain ⟨defs, hdefs, h⟩ := bind_eq_ok.mp h
      obtain ⟨hds, hdv⟩ := RegNodes.erase_ok ht.defs hdefs
      exact ⟨defs, hds, fun r hr => by rw [hdv, Function.update_of_ne hr], by simp [hdv],
        fun ho => absurd ho hd, h⟩
  simp only [bind_eq_ok, pure_eq_ok] at h
  obtain ⟨defs', halter, rfl⟩ := h
  obtain ⟨hds, hd⟩ := RegNodes.alter_ok hdefs halter
  refine ⟨⟨hds, hus⟩, hu, fun r hr => ?_, by simp [hd], fun k hk => ?_, fun hc ho k hk => ?_⟩
  · simp only [hd, Function.update_of_ne hr, hother r hr]
  · rw [hd, Function.update_self, List.mem_append, List.mem_singleton] at hk
    refine hk.symm.imp_right fun hk => hsub ?_
    split at hk
    · exact dropCalls_subset hk
    · exact hk
  · simp [hd, hc, hkept ho, hk]

/-! Physical registers -/

/-- What linking operand `o` of unit `su` to the physical registers leaves behind: `su` comes before
all that `o` interferes with, `o` is known from now on, and unless a call has made the walk forget
other calls, so is all that was known. -/
structure PhysicalStep (s : Setup) (units : List Instr) (su : Nat) (i : Instr) (o : RegOperand)
    (t : Tracker) (d : Draft) (t' : Tracker) (d' : Draft) : Prop where
  sound : t'.Sound
  grows : d.graph.Grows d'.graph
  keeps : s.Orderly → i.isCall = false →
    ∀ x o', t.Guards units d.graph x o' → t'.Guards units d'.graph x o'
  own : s.Orderly → t'.Guards units d'.graph su o
  meets : s.Orderly → ∃ shared, s.regs.overlaps o.reg = .ok shared ∧ ∀ x o', o'.reg ∈ shared →
    o.Interferes o' → t.Guards units d.graph x o' → d'.graph.Path (.unit su) (.unit x)

theorem Instr.not_defIsDead (ho : (pos, o) ∈ i.defOperands) (hd : ¬o.isDead) :
    ¬i.defIsDead o.reg := by
  intro h
  simp only [defIsDead, List.all_eq_true] at h
  simpa [hd] using h _ ho

/-- What a write, operand `o` of unit `su`, has been put before: everything recorded for the
registers in `shared`, dead writes aside if it is dead itself. -/
structure WriteLinked (s : Setup) (units : List Instr) (su : Nat) (o : RegOperand) (t : Tracker)
    (shared : List Reg) (g : Graph) : Prop where
  writes : ∀ r ∈ shared, ∀ k, .unit k ∈ t.defs.nodesOf r → g.Path (.unit su) (.unit k) ∨
    (o.isDead ∧ ∃ j, units[k]? = some j ∧ j.defIsDead r)
  reads : s.Orderly → ∀ r ∈ shared, ∀ n ∈ t.uses.nodesOf r, g.Path (.unit su) n

namespace WriteLinked

variable {g : Graph} {x : Nat} {o' : RegOperand}

theorem meets (h : WriteLinked s units su o t shared g) (hs : s.Orderly) (hdef : o.isDef)
    (hmem : o'.reg ∈ shared) (hint : o.Interferes o') (hx : t.Guards units g x o') :
    g.Path (.unit su) (.unit x) := by
  rcases hint with ⟨-, hd, hr⟩ | ⟨hr, -⟩ | ⟨-, hdef', hd⟩
  · -- a read behind a live write
    rcases hx.read hr with hx | ⟨k, hk, hp⟩
    · exact h.reads hs _ hmem _ hx
    · rcases h.writes _ hmem k hk with hp' | ⟨hd', -⟩
      · exact hp'.trans hp
      · exact absurd hd' hd
  · simp [RegOperand.not_isDef_of_reads hr] at hdef
  · by_cases hd' : o'.isDead
    · obtain ⟨k, hk, hp⟩ := hx.write hdef'
      rcases h.writes _ hmem k hk with hp' | ⟨hdo, -⟩
      · exact hp'.trans hp
      · exact absurd ⟨hdo, hd'⟩ hd
    · -- a live write is behind one that is recorded and not dead
      obtain ⟨k, j, hk, hp, hj, hlive⟩ := hx.live hdef' hd'
      rcases h.writes _ hmem k hk with hp' | ⟨-, j', hj', hdead⟩
      · exact hp'.trans hp
      · rw [hj, Option.some.injEq] at hj'
        exact absurd (hj' ▸ hdead) hlive

/-- A write that is not a call may hide what it has been put before. -/
theorem guards (h : WriteLinked s units su o t shared g) (hs : s.Orderly) (hself : o.reg ∈ shared)
    (hi : units[su]? = some i) (ho : (pos, o) ∈ i.defOperands)
    (hhide : Tracker.Hides (.unit su) false o t t') (hx : t.Guards units g x o') :
    t'.Guards units g x o' := by
  by_cases hreg : o'.reg = o.reg
  · have hstay : ∀ k, .unit k ∈ t.defs.nodesOf o.reg → .unit k ∈ t'.defs.nodesOf o.reg ∨
        g.Path (.unit su) (.unit k) := by
      intro k hk
      rcases h.writes _ hself k hk with hp | ⟨hd, -⟩
      · exact .inr hp
      · exact .inl (hhide.dead rfl hd _ hk)
    refine ⟨?_, fun hdef hlive => ?_⟩
    · have hguard := hx.toGuard
      rw [hreg] at hguard ⊢
      exact hguard.replace hhide.self hstay (h.reads hs _ hself)
    · obtain ⟨k, j, hk, hp, hj, hlive⟩ := hx.live hdef hlive
      rw [hreg] at hk hlive ⊢
      by_cases hd : o.isDead
      · exact ⟨k, j, hhide.dead rfl hd _ hk, hp, hj, hlive⟩
      · rcases h.writes _ hself k hk with hp' | ⟨hd', -⟩
        · exact ⟨su, i, hhide.self, hp'.trans hp, hi, Instr.not_defIsDead ho hd⟩
        · exact absurd hd' hd
  · have huses : t'.uses.nodesOf o'.reg = t.uses.nodesOf o'.reg := by
      rw [hhide.uses, Function.update_of_ne hreg]
    have hdefs := hhide.other _ hreg
    refine ⟨?_, fun hdef hlive => ?_⟩
    · rw [hdefs, huses]
      exact hx.toGuard
    · rw [hdefs]
      exact hx.live hdef hlive

end WriteLinked

theorem writePhysical_ok (hw : d.graph.Wraps b units) (ht : t.Sound) (hi : units[su]? = some i)
    (ho : (pos, o) ∈ i.defOperands)
    (h : writePhysical s reads b (.unit su) i pos o t d = .ok (t', d')) :
    PhysicalStep s units su i o t d t' d' := by
  simp only [writePhysical, bind_eq_ok, pure_eq_ok, Prod.mk.injEq] at h
  obtain ⟨shared, hshared, d₁, h₁, d₂, h₂, t₂, hhide, rfl, rfl⟩ := h
  have hdef : o.isDef := (List.mem_filter.mp ho).2
  obtain ⟨hg₁, hwrites⟩ := foldlM_nodes
    (fun r n g => ∀ k, n = .unit k → g.Path (.unit su) n ∨
      (o.isDead ∧ ∃ j, units[k]? = some j ∧ j.defIsDead r))
    (fun r n g g' hQ hg k hk => (hQ k hk).imp_left hg.path)
    (fun r n e e' he h => linkWrite_ok he h) hw h₁
  obtain ⟨hg₂, hreads⟩ := foldlM_nodes (fun _ n g => s.Orderly → g.Path (.unit su) n)
    (fun r n g g' hQ hg hs => hg.path (hQ hs)) (fun r n e e' he h => linkRead_ok he h)
    (hw.grows hg₁) h₂
  have hg := hg₁.trans hg₂
  have hlinked : WriteLinked s units su o t shared d₂.graph :=
    ⟨fun r hr k hk => (hwrites r hr _ hk k rfl).imp_left hg₂.path,
      fun hs r hr n hn => hreads r hr n hn hs⟩
  have hhide := Tracker.hide_ok ht hhide
  refine ⟨hhide.sound, hg, fun hs hcall x o' hx => ?_, fun hs => ⟨⟨fun _ => ?_, fun hr => ?_⟩,
    fun _ hd => ?_⟩, fun hs => ⟨shared, hshared, fun x o' hmem hint hx => ?_⟩⟩
  · exact hlinked.guards hs (hs.overlaps_self _ _ hshared) hi ho (hcall ▸ hhide) (hx.grows hg)
  · exact ⟨su, hhide.self, .refl⟩
  · simp [RegOperand.not_isDef_of_reads hr] at hdef
  · exact ⟨su, i, hhide.self, .refl, hi, Instr.not_defIsDead ho hd⟩
  · exact hlinked.meets hs hdef hmem hint (hx.grows hg)

theorem readPhysical_ok (hw : d.graph.Wraps b units) (ht : t.Sound) (ho : o.reads)
    (h : readPhysical s (.unit su) o.reg t d = .ok (t', d')) :
    PhysicalStep s units su i o t d t' d' := by
  simp only [readPhysical, bind_eq_ok, pure_eq_ok, Prod.mk.injEq] at h
  obtain ⟨shared, hshared, d₁, h₁, t₁, huses, rfl, rfl⟩ := h
  have hdef := RegOperand.not_isDef_of_reads ho
  obtain ⟨hg, hwrites⟩ := foldlM_nodes (fun _ n g => ∀ k, n = .unit k → g.Path (.unit su) n)
    (fun r n g g' hQ hg k hk => hg.path (hQ k hk)) (fun r n e e' he h => linkOverwrite_ok he h)
    hw h₁
  obtain ⟨hsound, hd, hu⟩ := Tracker.recordUse_ok ht huses
  refine ⟨hsound, hg, fun hs _ x o' hx => ?_, fun hs => ⟨⟨?_, fun _ => .inl ?_⟩, ?_⟩,
    fun hs => ⟨shared, hshared, fun x o' hmem' hint hx => ?_⟩⟩
  · have hx' := hx.grows hg
    refine ⟨⟨hd ▸ hx'.write, fun hr => hd ▸ (hx'.read hr).imp_left fun hx' => ?_⟩,
      hd ▸ hx'.live⟩
    by_cases hreg : o'.reg = o.reg
    · rw [hreg] at hx' ⊢
      simp [hu, hx']
    · simpa [hu, hreg] using hx'
  · simp [hdef]
  · simp [hu]
  · simp [hdef]
  · simp only [RegOperand.Interferes, hdef, Bool.false_eq_true, false_and, or_false,
      false_or] at hint
    obtain ⟨k, hk, hp⟩ := (hx.grows hg).write hint.2
    exact (hwrites _ hmem' _ hk k rfl).trans hp

/-! Virtual registers -/

/-- The same for a virtual register, where calls are nothing special. -/
structure VirtualStep (s : Setup) (su : Nat) (o : RegOperand) (r : RegState) (d : Draft)
    (r' : RegState) (d' : Draft) : Prop where
  sound : r'.Sound
  tracker : r'.tracker = r.tracker
  grows : d.graph.Grows d'.graph
  keeps : s.Orderly → ∀ x o', r.Guards d.graph x o' → r'.Guards d'.graph x o'
  own : s.Orderly → r'.Guards d'.graph su o
  meets : s.Orderly → ∀ x o', o'.reg = o.reg → o.Interferes o' → r.Guards d.graph x o' →
    d'.graph.Path (.unit su) (.unit x)

theorem linkWaiting_ok {waiting : NodeId × Nat} (hw : d.graph.Wraps b units)
    (h : linkWaiting s reads (.unit su) pos reg d waiting = .ok d') :
    d.graph.Grows d'.graph ∧ (s.Orderly → d'.graph.Path (.unit su) waiting.1) := by
  rcases linkWaiting_cases h with ⟨hself, rfl⟩ | ⟨-, n, -, h⟩
  · exact ⟨.refl _, fun _ => hself ▸ .refl⟩
  · obtain ⟨hg, he⟩ := Draft.addValue_ok h
    exact ⟨hg, fun hs => (he hs.adjusts hw.linked).path⟩

theorem linkNearest_ok {nearest : Option NodeId} (hw : d.graph.Wraps b units)
    (h : linkNearest s b (.unit su) i pos reg nearest d = .ok d') :
    d.graph.Grows d'.graph ∧ ∀ k, nearest = some (.unit k) →
      d'.graph.Path (.unit su) (.unit k) := by
  rcases linkNearest_cases h with ⟨rfl, hskip⟩ | ⟨later, j, rfl, -, -, h⟩
  · refine ⟨.refl _, fun k hk => ?_⟩
    rcases hskip _ hk with hself | hnone
    · exact hself ▸ .refl
    · obtain ⟨u, ⟨⟩, -⟩ := hw.exists_instr hnone
  · obtain ⟨hg, he⟩ := Draft.withDep_ok h
    refine ⟨hg, ?_⟩
    rintro k ⟨⟩
    exact (he hw.linked).path

theorem writeVirtual_ok (hw : d.graph.Wraps b units) (hr : r.Sound) (ho : o.isDef)
    (h : writeVirtual s reads b (.unit su) i pos o.reg o.reg.virtualPosition r d = .ok (r', d')) :
    VirtualStep s su o r d r' d' := by
  simp only [writeVirtual, bind_eq_ok, pure_eq_ok, Prod.mk.injEq, Prod.exists] at h
  obtain ⟨waiting, uses, huses, d₁, h₁, uses', huses', nearest, defs, hdefs, d₂, h₂, defs',
    hdefs', rfl, rfl⟩ := h
  obtain ⟨hus, -, huv, rfl⟩ := SparseMap.fetch_ok hr.virtualUses huses
  obtain ⟨hus', -, huv'⟩ := SparseMap.alter_ok hus huses'
  obtain ⟨hds, -, hdv, rfl⟩ := SparseMap.fetch_ok hr.virtualDefs hdefs
  obtain ⟨hds', -, hdv'⟩ := SparseMap.alter_ok hds hdefs'
  obtain ⟨hg₁, hreads⟩ := Draft.foldlM_links
    (fun (n : NodeId × Nat) g => s.Orderly → g.Path (.unit su) n.1)
    (fun n g g' hQ hg hs => hg.path (hQ hs))
    (fun n _ e e' he h => linkWaiting_ok he h) hw h₁
  obtain ⟨hg₂, hwrite⟩ := linkNearest_ok (hw.grows hg₁) h₂
  have hg := hg₁.trans hg₂
  have huses : ∀ n ∈ (r.virtualUses.valueAt o.reg.virtualPosition).map Prod.fst, s.Orderly →
      d₂.graph.Path (.unit su) n := by
    intro n hn hs
    obtain ⟨e, he, rfl⟩ := List.mem_map.mp hn
    exact hg₂.path (hreads e he hs)
  refine ⟨⟨hr.tracker, hds', hus'⟩, rfl, hg, fun hs x o' hx => ?_,
    fun hs => ⟨fun _ => ⟨su, by simp [hdv'], .refl⟩, fun ho' => ?_⟩,
    fun hs x o' hreg hint hx => ?_⟩
  · have hx' : RegState.Guards d₂.graph r x o' := Guard.grows hx hg
    unfold RegState.Guards at hx' ⊢
    by_cases hpos : o'.reg.virtualPosition = o.reg.virtualPosition
    · rw [hpos] at hx' ⊢
      exact hx'.replace (by simp [hdv']) (fun k hk => .inr (hwrite k (by simpa using hk)))
        fun n hn => huses n hn hs
    · simpa [hdv', huv', hdv, huv, hpos] using hx'
  · simp [RegOperand.not_isDef_of_reads ho'] at ho
  · have hx' : RegState.Guards d₂.graph r x o' := Guard.grows hx hg
    have hbehind : d₂.graph.Behind (r.virtualDefs.valueAt o.reg.virtualPosition).toList x →
        d₂.graph.Path (.unit su) (.unit x) := by
      rintro ⟨k, hk, hp⟩
      exact (hwrite k (by simpa using hk)).trans hp
    unfold RegState.Guards at hx'
    rw [hreg] at hx'
    rcases hint with ⟨-, -, ho'⟩ | ⟨ho', -⟩ | ⟨-, ho', -⟩
    · rcases hx'.read ho' with hx' | hx'
      · exact huses _ hx' hs
      · exact hbehind hx'
    · simp [RegOperand.not_isDef_of_reads ho'] at ho
    · exact hbehind (hx'.write ho')

theorem readVirtual_ok (hw : d.graph.Wraps b units) (hr : r.Sound) (ho : o.reads)
    (h : readVirtual (.unit su) pos o.reg o.reg.virtualPosition r d = .ok (r', d')) :
    VirtualStep s su o r d r' d' := by
  simp only [readVirtual, bind_eq_ok, pure_eq_ok, Prod.mk.injEq] at h
  obtain ⟨d₁, h₁, uses, huses, rfl, rfl⟩ := h
  have hdef := RegOperand.not_isDef_of_reads ho
  obtain ⟨hus, -, huv⟩ := SparseMap.alter_ok hr.virtualUses huses
  obtain ⟨hg, hwrites⟩ := Draft.foldlM_links
    (fun (n : NodeId) g => ∀ k, n = .unit k → g.Path (.unit su) n)
    (fun n g g' hQ hg k hk => hg.path (hQ k hk)) (fun n _ e e' he h => linkOverwrite_ok he h) hw h₁
  have hjoin : ∀ k, (r.virtualDefs.valueAt o.reg.virtualPosition) = some (.unit k) →
      d₁.graph.Path (.unit su) (.unit k) := by
    intro k hk
    refine hwrites (.unit k) ?_ k rfl
    rw [SparseMap.valueAt] at hk
    cases hget : r.virtualDefs.get? o.reg.virtualPosition with
    | none =>
      rw [hget] at hk
      cases hk
    | some v =>
      rw [hget] at hk
      simp_all
  refine ⟨⟨hr.tracker, hr.virtualDefs, hus⟩, rfl, hg, fun hs x o' hx => ?_,
    fun hs => ⟨?_, fun _ => .inl (by simp [huv])⟩, fun hs x o' hreg hint hx => ?_⟩
  · have hx' : RegState.Guards d₁.graph r x o' := Guard.grows hx hg
    refine ⟨hx'.write, fun ho' => (hx'.read ho').imp_left fun hn => ?_⟩
    by_cases hpos : o'.reg.virtualPosition = o.reg.virtualPosition
    · rw [hpos] at hn ⊢
      simp only [huv, Function.update_self, List.map_append, List.mem_append]
      exact .inl hn
    · simpa [huv, hpos] using hn
  · simp [hdef]
  · simp only [RegOperand.Interferes, hdef, Bool.false_eq_true, false_and, or_false,
      false_or] at hint
    have hx' : RegState.Guards d₁.graph r x o' := Guard.grows hx hg
    unfold RegState.Guards at hx'
    rw [hreg] at hx'
    obtain ⟨k, hk, hp⟩ := hx'.write hint.2
    exact (hjoin k (by simpa using hk)).trans hp

/-! One instruction -/

/-- Edges are only added, and what was known of the registers stays known; the physical ones may be
forgotten for a call. -/
structure Keeps (s : Setup) (units : List Instr) (i : Instr) (p q : RegState × Draft) : Prop where
  grows : p.2.graph.Grows q.2.graph
  physical : s.Orderly → i.isCall = false → ∀ x o,
    p.1.tracker.Guards units p.2.graph x o → q.1.tracker.Guards units q.2.graph x o
  virtual : s.Orderly → ∀ x o, p.1.Guards p.2.graph x o → q.1.Guards q.2.graph x o

theorem Keeps.refl (p : RegState × Draft) : Keeps s units i p p :=
  ⟨.refl _, fun _ _ _ _ h => h, fun _ _ _ h => h⟩

theorem Keeps.trans {p q u : RegState × Draft} (h : Keeps s units i p q)
    (h' : Keeps s units i q u) : Keeps s units i p u :=
  ⟨h.grows.trans h'.grows, fun hs hc x o hx => h'.physical hs hc x o (h.physical hs hc x o hx),
    fun hs x o hx => h'.virtual hs x o (h.virtual hs x o hx)⟩

/-- What linking one operand leaves behind, whatever it names. -/
structure OperandStep (s : Setup) (units : List Instr) (su : Nat) (i : Instr) (o : RegOperand)
    (p q : RegState × Draft) : Prop where
  sound : q.1.Sound
  keeps : Keeps s units i p q
  classified : ∃ c, s.classify o.reg = .ok c
  own_physical : s.Orderly → s.classify o.reg = .ok .physical →
    q.1.tracker.Guards units q.2.graph su o
  own_virtual : s.Orderly → ∀ v, s.classify o.reg = .ok (.virtual v) → q.1.Guards q.2.graph su o
  meets_physical : s.Orderly → s.classify o.reg = .ok .physical →
    ∃ shared, s.regs.overlaps o.reg = .ok shared ∧ ∀ x o', o'.reg ∈ shared → o.Interferes o' →
      p.1.tracker.Guards units p.2.graph x o' → q.2.graph.Path (.unit su) (.unit x)
  meets_virtual : s.Orderly → ∀ v, s.classify o.reg = .ok (.virtual v) → ∀ x o', o'.reg = o.reg →
    o.Interferes o' → p.1.Guards p.2.graph x o' → q.2.graph.Path (.unit su) (.unit x)

theorem PhysicalStep.operandStep (hr : r.Sound) (hc : s.classify o.reg = .ok .physical)
    (h : PhysicalStep s units su i o r.tracker d t' d') :
    OperandStep s units su i o (r, d) ({ r with tracker := t' }, d') where
  sound := ⟨h.sound, hr.virtualDefs, hr.virtualUses⟩
  keeps := ⟨h.grows, h.keeps, fun _ _ _ hx => Guard.grows hx h.grows⟩
  classified := ⟨_, hc⟩
  own_physical hs _ := h.own hs
  own_virtual _ v hv := by simp [hc] at hv
  meets_physical hs _ := h.meets hs
  meets_virtual _ v hv := by simp [hc] at hv

theorem VirtualStep.operandStep {v : Nat} (hc : s.classify o.reg = .ok (.virtual v))
    (h : VirtualStep s su o r d r' d') : OperandStep s units su i o (r, d) (r', d') where
  sound := h.sound
  keeps := ⟨h.grows, fun _ _ x o' hx => h.tracker ▸ hx.grows h.grows, h.keeps⟩
  classified := ⟨_, hc⟩
  own_physical _ hp := by simp [hc] at hp
  own_virtual hs _ _ := h.own hs
  meets_physical _ hp := by simp [hc] at hp
  meets_virtual hs _ _ := h.meets hs

theorem OperandStep.unknown {p : RegState × Draft} (hr : p.1.Sound)
    (hc : s.classify o.reg = .ok .unknown) : OperandStep s units su i o p p where
  sound := hr
  keeps := .refl p
  classified := ⟨_, hc⟩
  own_physical _ hp := by simp [hc] at hp
  own_virtual _ v hv := by simp [hc] at hv
  meets_physical _ hp := by simp [hc] at hp
  meets_virtual _ v hv := by simp [hc] at hv

theorem Setup.classify_cases {c : RegClass} (h : s.classify reg = .ok c) :
    (c = .physical ∧ s.regs.isPhysical reg) ∨
      (c = .virtual reg.virtualPosition ∧ ¬s.regs.isPhysical reg ∧ reg.isVirtual) ∨
      (c = .unknown ∧ ¬s.regs.isPhysical reg ∧ ¬reg.isVirtual) := by
  unfold classify at h
  repeat' split at h
  all_goals simp_all

theorem Setup.classify_eq_physical : s.classify reg = .ok .physical ↔ s.regs.isPhysical reg := by
  unfold classify
  repeat' split
  all_goals simp_all

theorem Setup.classify_of_virtual {c : RegClass} (h : s.classify reg = .ok c)
    (hv : reg.isVirtual) (hp : ¬s.regs.isPhysical reg) : c = .virtual reg.virtualPosition := by
  rcases classify_cases h with ⟨-, hphysical⟩ | ⟨rfl, -⟩ | ⟨-, -, hunknown⟩
  · exact absurd hphysical hp
  · rfl
  · exact absurd hv hunknown

theorem writeOperand_ok (hw : d.graph.Wraps b units) (hr : r.Sound) (hi : units[su]? = some i)
    (ho : (pos, o) ∈ i.defOperands)
    (h : writeOperand s reads b (.unit su) i pos o r d = .ok (r', d')) :
    OperandStep s units su i o (r, d) (r', d') := by
  simp only [writeOperand, bind_eq_ok] at h
  obtain ⟨c, hc, h⟩ := h
  rcases Setup.classify_cases hc with ⟨rfl, -⟩ | ⟨rfl, -⟩ | ⟨rfl, -⟩
  · simp only [bind_eq_ok, pure_eq_ok, Prod.exists, Prod.mk.injEq] at h
    obtain ⟨t', d₁, h, rfl, rfl⟩ := h
    exact (writePhysical_ok hw hr.tracker hi ho h).operandStep hr hc
  · exact (writeVirtual_ok hw hr (List.mem_filter.mp ho).2 h).operandStep hc
  · cases h
    exact .unknown hr hc

theorem readOperand_ok (hw : d.graph.Wraps b units) (hr : r.Sound) (ho : o.reads)
    (h : readOperand s (.unit su) pos o r d = .ok (r', d')) :
    OperandStep s units su i o (r, d) (r', d') := by
  simp only [readOperand, bind_eq_ok] at h
  obtain ⟨c, hc, h⟩ := h
  rcases Setup.classify_cases hc with ⟨rfl, -⟩ | ⟨rfl, -⟩ | ⟨rfl, -⟩
  · simp only [bind_eq_ok, pure_eq_ok, Prod.exists, Prod.mk.injEq] at h
    obtain ⟨t', d₁, h, rfl, rfl⟩ := h
    exact (readPhysical_ok hw hr.tracker ho h).operandStep hr hc
  · exact (readVirtual_ok hw hr ho h).operandStep hc
  · cases h
    exact .unknown hr hc

/-- Every operand of a list has been linked at some point between two states of the walk. -/
structure Linking (s : Setup) (units : List Instr) (su : Nat) (i : Instr)
    (l : List (Nat × RegOperand)) (p q : RegState × Draft) : Prop where
  sound : q.1.Sound
  keeps : Keeps s units i p q
  round : ∀ e ∈ l, ∃ u v, Keeps s units i p u ∧ OperandStep s units su i e.2 u v ∧
    Keeps s units i v q

theorem linking_of_foldlM {l : List (Nat × RegOperand)} {p q : RegState × Draft}
    {f : RegState × Draft → Nat × RegOperand → Except Fault (RegState × Draft)}
    (step : ∀ e ∈ l, ∀ u v, u.2.graph.Wraps b units → u.1.Sound → f u e = .ok v →
      OperandStep s units su i e.2 u v)
    (hw : p.2.graph.Wraps b units) (hr : p.1.Sound) (h : l.foldlM f p = .ok q) :
    Linking s units su i l p q := by
  have hround : ∀ e ∈ l, ∀ u v, (u.2.graph.Wraps b units ∧ u.1.Sound ∧ Keeps s units i p u) →
      f u e = .ok v →
      (v.2.graph.Wraps b units ∧ v.1.Sound ∧ Keeps s units i p v) ∧ Keeps s units i u v := by
    rintro e he u v ⟨huw, hus, huk⟩ hf
    have hstep := step e he u v huw hus hf
    exact ⟨⟨huw.grows hstep.keeps.grows, hstep.sound, huk.trans hstep.keeps⟩, hstep.keeps⟩
  obtain ⟨-, hsound, hkeeps⟩ := foldlM_keeps _ (fun e he u v hu hf => (hround e he u v hu hf).1)
    ⟨hw, hr, .refl p⟩ h
  refine ⟨hsound, hkeeps, fun e he => ?_⟩
  obtain ⟨u, v, ⟨huw, hus, huk⟩, -, hf, hv⟩ := foldlM_round _ (Keeps s units i) .refl
    (fun _ _ _ => .trans) hround ⟨hw, hr, .refl p⟩ h he
  exact ⟨u, v, huk, step e he u v huw hus hf, hv⟩

theorem addRegisterDeps_ok (hw : d.graph.Wraps b units) (hr : r.Sound) (hi : units[su]? = some i)
    (h : addRegisterDeps s reads b (.unit su) i r d = .ok (r', d')) :
    Linking s units su i (i.defOperands ++ i.useOperands) (r, d) (r', d') := by
  simp only [addRegisterDeps, bind_eq_ok] at h
  obtain ⟨p, hdefs, huses⟩ := h
  have h₁ : Linking s units su i i.defOperands (r, d) p := linking_of_foldlM
    (fun e he u v huw hus hf => writeOperand_ok (r := u.1) (d := u.2) huw hus hi he hf) hw hr hdefs
  have h₂ : Linking s units su i i.useOperands p (r', d') := linking_of_foldlM
    (fun e he u v huw hus hf =>
      readOperand_ok (r := u.1) (d := u.2) huw hus (List.mem_filter.mp he).2 hf)
    (hw.grows h₁.keeps.grows) h₁.sound huses
  refine ⟨h₂.sound, h₁.keeps.trans h₂.keeps, fun e he => ?_⟩
  rcases List.mem_append.mp he with he | he
  · obtain ⟨u, v, hu, hstep, hv⟩ := h₁.round e he
    exact ⟨u, v, hu, hstep, hv.trans h₂.keeps⟩
  · obtain ⟨u, v, hu, hstep, hv⟩ := h₂.round e he
    exact ⟨u, v, h₁.keeps.trans hu, hstep, hv⟩

/-! What an instruction meets and how it is known from then on -/

namespace Linking

variable {p q : RegState × Draft} {e : Nat × RegOperand}

theorem mem_operands (he : e ∈ i.regOperands) (h : e.2.isDef ∨ e.2.reads) :
    e ∈ i.defOperands ++ i.useOperands := by
  rcases h with h | h
  · exact List.mem_append_left _ (List.mem_filter.mpr ⟨he, h⟩)
  · exact List.mem_append_right _ (List.mem_filter.mpr ⟨he, h⟩)

/-- A virtual register is accessed before register allocation only. -/
theorem classify_virtual (h : Linking s units su i (i.defOperands ++ i.useOperands) p q)
    (he : e ∈ i.regOperands) (hop : e.2.isDef ∨ e.2.reads) (hv : e.2.reg.isVirtual)
    (hp : ¬s.regs.isPhysical e.2.reg) :
    s.classify e.2.reg = .ok (.virtual e.2.reg.virtualPosition) := by
  obtain ⟨u, v, -, hstep, -⟩ := h.round e (mem_operands he hop)
  obtain ⟨c, hc⟩ := hstep.classified
  exact Setup.classify_of_virtual hc hv hp ▸ hc

theorem own_physical (h : Linking s units su i (i.defOperands ++ i.useOperands) p q)
    (hs : s.Orderly) (hcall : i.isCall = false) (he : e ∈ i.regOperands)
    (hc : s.classify e.2.reg = .ok .physical) : q.1.tracker.Guards units q.2.graph su e.2 := by
  by_cases hop : e.2.isDef ∨ e.2.reads
  · obtain ⟨u, v, -, hstep, hv⟩ := h.round e (mem_operands he hop)
    exact hv.physical hs hcall su e.2 (hstep.own_physical hs hc)
  · exact ⟨⟨fun hd => absurd (.inl hd) hop, fun hr => absurd (.inr hr) hop⟩,
      fun hd => absurd (.inl hd) hop⟩

theorem own_virtual (h : Linking s units su i (i.defOperands ++ i.useOperands) p q)
    (hs : s.Orderly) (he : e ∈ i.regOperands) {v : Nat}
    (hc : s.classify e.2.reg = .ok (.virtual v)) : q.1.Guards q.2.graph su e.2 := by
  by_cases hop : e.2.isDef ∨ e.2.reads
  · obtain ⟨u, w, -, hstep, hw⟩ := h.round e (mem_operands he hop)
    exact hw.virtual hs su e.2 (hstep.own_virtual hs v hc)
  · exact ⟨fun hd => absurd (.inl hd) hop, fun hr => absurd (.inr hr) hop⟩

theorem meets_physical (h : Linking s units su i (i.defOperands ++ i.useOperands) p q)
    (hs : s.Orderly) (hcall : i.isCall = false) (he : e ∈ i.regOperands)
    (hc : s.classify e.2.reg = .ok .physical) {x : Nat} (hint : e.2.Interferes o)
    (hshared : ∀ shared, s.regs.overlaps e.2.reg = .ok shared → o.reg ∈ shared)
    (hx : p.1.tracker.Guards units p.2.graph x o) : q.2.graph.Path (.unit su) (.unit x) := by
  obtain ⟨u, v, hu, hstep, hv⟩ := h.round e (mem_operands he hint.operand)
  obtain ⟨shared, hoverlaps, hmeets⟩ := hstep.meets_physical hs hc
  exact hv.grows.path (hmeets x o (hshared shared hoverlaps) hint (hu.physical hs hcall x o hx))

theorem meets_virtual (h : Linking s units su i (i.defOperands ++ i.useOperands) p q)
    (hs : s.Orderly) (he : e ∈ i.regOperands) {v : Nat}
    (hc : s.classify e.2.reg = .ok (.virtual v)) {x : Nat} (hint : e.2.Interferes o)
    (hreg : o.reg = e.2.reg) (hx : p.1.Guards p.2.graph x o) :
    q.2.graph.Path (.unit su) (.unit x) := by
  obtain ⟨u, w, hu, hstep, hw⟩ := h.round e (mem_operands he hint.operand)
  exact hw.grows.path (hstep.meets_virtual hs v hc x o hreg hint (hu.virtual hs x o hx))

end Linking

end

end Precedence
