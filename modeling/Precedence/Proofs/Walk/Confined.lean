import Precedence.Proofs.Walk.Course

/-!
What the walk knows never reaches past the nearest barrier, virtual registers apart: a barrier makes
the tracker forget all units behind it, stands in for the units that the next one must be put in
front of, and hides all accesses. The edges are therefore confined to the stretches between barriers
as well, and every edge leads to a later node.
-/
namespace Precedence

/-- Node `n` is the exit, unit `k` or a later one. -/
def NodeId.IsFrom (k : Nat) : NodeId → Prop
  | .exit => True
  | .unit y => k ≤ y

/-- Node `n` is the exit, or a unit from `k` on with no barrier in between. -/
def NodeId.InReach (units : List Instr) (k : Nat) : NodeId → Prop
  | .exit => True
  | .unit y => InSight units (fun i => i.isBarrier) k y

/-- An edge from unit `x` leads to a later node, and past a barrier only for the sake of a virtual
register. -/
def Fenced (units : List Instr) (x : Nat) (n : NodeId) (kind : Kind) (a : Option Reg) : Prop :=
  n.InReach units (x + 1) ∨ (n.IsFrom (x + 1) ∧ kind ≠ .order ∧ ∃ v, a = some v ∧ v.isVirtual)

/-- Everything that the walk knows of the units from `k` on is in reach, and so are the ends of all
edges. -/
structure Confined (s : Setup) (units : List Instr) (k : Nat) (w : Walk) : Prop where
  known : ∀ a n, s.Tracks a → w.regs.Knows s a n →
    n.InReach units k ∨ (n.IsFrom k ∧ a.isVirtual)
  since : ∀ n ∈ w.barriers.since, n.InReach units k
  last : ∀ n, w.barriers.last = some n → n.InReach units k
  accesses : ∀ n ∈ w.chains.all, n.InReach units k
  edges : ∀ p n kind a, w.draft.graph.HasEdge p n kind a →
    ∃ x, p = .unit x ∧ k ≤ x ∧ Fenced units x n kind a

namespace NodeId

variable {units : List Instr} {su : Nat} {i : Instr} {n : NodeId}

theorem IsFrom.step (h : n.IsFrom (su + 1)) : n.IsFrom su := by
  cases n with
  | exit => trivial
  | unit y => exact Nat.le_of_succ_le h

theorem InReach.isFrom {k : Nat} (h : n.InReach units k) : n.IsFrom k := by
  cases n with
  | exit => trivial
  | unit y => exact h.1

theorem InReach.self (k : Nat) : (NodeId.unit k).InReach units k := InSight.self k

theorem InReach.step (h : n.InReach units (su + 1)) (hi : units[su]? = some i)
    (hbar : ¬i.isBarrier) : n.InReach units su := by
  cases n with
  | exit => trivial
  | unit y => exact (inSight_iff hi).mpr (.inr ⟨hbar, h⟩)

end NodeId

namespace Walk.Stepped

variable {s : Setup} {b : Block} {oracle : Option Oracle} {units : List Instr} {su : Nat}
  {i : Instr} {w w' : Walk} {r : RegState} {d₁ d₂ : Draft} {a : Reg} {n : NodeId}

/-- The registers link a unit to what is known of them, and only the unit itself becomes known. -/
theorem joins (h : Stepped s b oracle units su i w w' r d₁ d₂) (ht : s.timing.AdjustsLatencyOnly)
    (hw : w.Sound b oracle units (su + 1)) (hi : units[su]? = some i) (htidy : w.regs.Tidy s) :
    JoinsKnown s su (w.regs, w.draft) (r, d₁) := by
  obtain ⟨-, p, hwritten, hread⟩ := h.rounds ht hw hi htidy
  -- the operands are joined one by one as long as the maps are tidy
  have hwritten' := hwritten.relates (fun p q => p.1.Tidy s → JoinsKnown s su p q)
    (fun _ => .refl) (fun _ _ _ h₁ h₂ hp => (h₁ hp).trans (h₂ (h₁ hp).tidy))
    fun _ _ _ hround => hround.joins
  have hread' := hread.relates (fun p q => p.1.Tidy s → JoinsKnown s su p q)
    (fun _ => .refl) (fun _ _ _ h₁ h₂ hp => (h₁ hp).trans (h₂ (h₁ hp).tidy))
    fun _ _ _ hround => hround.joins
  exact (hwritten' htidy).trans (hread' (hwritten' htidy).tidy)

/-- Of a physical register, a barrier leaves known the exit and itself at most. -/
theorem knows (h : Stepped s b oracle units su i w w' r d₁ d₂) (hn : w'.regs.Knows s a n) :
    (i.isBarrier ∧ s.regs.isPhysical a ∧ (n = .exit ∨ n = .unit su)) ∨
      ((i.isBarrier → ¬s.regs.isPhysical a) ∧ r.Knows s a n) := by
  by_cases hbar : i.isBarrier
  · by_cases hp : s.regs.isPhysical a
    · refine .inl ⟨hbar, hp, ?_⟩
      have hrestart := h.tracker_restarted hbar
      simp only [RegState.Knows, RegState.readers, RegState.writers, if_pos hp, hrestart.uses_iff,
        hrestart.defs_iff] at hn
      tauto
    · refine .inr ⟨fun _ => hp, ?_⟩
      rw [h.virtual] at hn
      simpa only [RegState.Knows, RegState.readers, RegState.writers, if_neg hp] using hn
  · rw [h.regs_eq hbar] at hn
    exact .inr ⟨fun hbar' => absurd hbar' hbar, hn⟩

end Walk.Stepped

namespace Confined

variable {s : Setup} {b : Block} {oracle : Option Oracle} {units : List Instr} {su : Nat}
  {i : Instr} {v w : Walk} {r : RegState} {d₁ d₂ : Draft}

theorem edges_step (hv : Confined s units (su + 1) v) (ht : s.timing.AdjustsLatencyOnly)
    (hi : units[su]? = some i) (hs : v.Sound b oracle units (su + 1)) (htidy : v.regs.Tidy s)
    (h : Walk.Stepped s b oracle units su i v w r d₁ d₂) {p n : NodeId} {kind : Kind}
    {a : Option Reg} (he : w.draft.graph.HasEdge p n kind a) :
    ∃ x, p = .unit x ∧ su ≤ x ∧ Fenced units x n kind a := by
  have hregs := (h.joins ht hs hi htidy).adds
  have hbars := h.barriers.adds
  -- order edges lead from accesses in reach to such accesses, so the search stays in reach
  have hsealed : Sealed units su (InSight units (fun i => i.isBarrier) (su + 1)) v.draft.graph := by
    intro t j z a hne ht hj hd he
    obtain ⟨x, hx, -, hfenced⟩ := hv.edges _ _ _ _ he
    cases hx
    rcases hfenced with hreach | ⟨-, hkind, -⟩
    · refine ht.trans hj (fun hbar => ?_) hreach
      simp [Instr.isGlobalAccess_of_isBarrier hbar] at hd
    · exact absurd rfl hkind
  have hsealed' := (hsealed.of_adds hregs fun _ _ _ _ hnew => hnew.1).of_adds hbars
    fun _ _ _ _ hnew => hnew.1
  have hmemory := h.memory.adds hsealed' fun t hmem => hv.accesses _ hmem
  rcases hmemory.edge _ _ _ _ he with he | ⟨rfl, rfl, rfl, z, rfl, hz⟩ | ⟨rfl, rfl, -, -⟩
  · rcases hbars.edge _ _ _ _ he with he | ⟨rfl, rfl, rfl, hn⟩
    · rcases hregs.edge _ _ _ _ he with he | ⟨rfl, -, hkind, a, rfl, ha, hn⟩
      · obtain ⟨x, rfl, hx, hfenced⟩ := hv.edges _ _ _ _ he
        exact ⟨x, rfl, Nat.le_of_succ_le hx, hfenced⟩
      · refine ⟨su, rfl, le_rfl, (hv.known a n ha hn).imp_right ?_⟩
        rintro ⟨hfrom, hvirtual⟩
        exact ⟨hfrom, hkind, a, rfl, hvirtual⟩
    · refine ⟨su, rfl, le_rfl, .inl ?_⟩
      rcases hn with hn | ⟨-, hn⟩
      · exact hv.last n hn
      · exact hv.since n hn
  · exact ⟨su, rfl, le_rfl, .inl hz⟩
  · exact ⟨su, rfl, le_rfl, .inl trivial⟩

theorem step (hv : Confined s units (su + 1) v) (ht : s.timing.AdjustsLatencyOnly)
    (hi : units[su]? = some i) (hs : v.Sound b oracle units (su + 1)) (htidy : v.regs.Tidy s)
    (h : Walk.Stepped s b oracle units su i v w r d₁ d₂) : Confined s units su w where
  known a n ha hn := by
    rcases h.knows hn with ⟨-, -, rfl | rfl⟩ | ⟨hbar, hn⟩
    · exact .inl trivial
    · exact .inl (.self su)
    · rcases (h.joins ht hs hi htidy).knows a ha n hn with rfl | hn
      · exact .inl (.self su)
      · rcases hv.known a n ha hn with hreach | ⟨hfrom, hvirtual⟩
        · by_cases hib : i.isBarrier
          · exact .inr ⟨hreach.isFrom.step, ha.resolve_left (hbar hib)⟩
          · exact .inl (hreach.step hi hib)
        · exact .inr ⟨hfrom.step, hvirtual⟩
  since n hn := by
    by_cases hib : i.isBarrier
    · simp [(h.barriers.barrier hib).1] at hn
    · rw [(h.barriers.plain hib).1, List.mem_append, List.mem_singleton] at hn
      rcases hn with hn | rfl
      · exact (hv.since n hn).step hi hib
      · exact .self su
  last n hn := by
    by_cases hib : i.isBarrier
    · rw [(h.barriers.barrier hib).1] at hn
      cases hn
      exact .self su
    · rw [(h.barriers.plain hib).1] at hn
      exact (hv.last n hn).step hi hib
  accesses := h.memory.all
    (fun hd n hn => (hv.accesses n hn).step hi fun hib => by
      simp [Instr.isGlobalAccess_of_isBarrier hib] at hd) (.self su)
  edges _ _ _ _ he := hv.edges_step ht hi hs htidy h he

end Confined

theorem Walk.Course.confined {s : Setup} {r : Region} {oracle : Option Oracle} {block : Block}
    {first last : Walk} (h : Walk.Course s r oracle block first last)
    (ht : s.timing.AdjustsLatencyOnly) : Confined s (s.unitsOf r) 0 last := by
  refine (h.induction ht (Confined s (s.unitsOf r)) ?_
    fun su i v w r' d₁ d₂ hi hs htidy hv hstep => hv.step ht hi hs htidy hstep).2
  refine ⟨fun a n ha hn => ?_, ?_, ?_, fun n hn => ?_, fun p n kind a he => absurd he h.no_edges⟩
  · obtain ⟨hwriters, hreaders⟩ := h.first_reads.2 a ha
    rw [RegState.Knows, hwriters, hreaders] at hn
    rcases hn with ⟨rfl, -⟩ | hn
    · exact .inl trivial
    · cases hn
  · simp [h.barriers]
  · simp [h.barriers]
  · obtain ⟨t, j, -, hle, hj, -⟩ := h.sound_first.filed.isUnit hn
    exact absurd hj (not_unit_of_length_le hle)

end Precedence
