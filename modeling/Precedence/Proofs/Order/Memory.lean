import Mathlib
import Precedence.Machine.Construct
import Precedence.Proofs.Graph.Paths
import Precedence.Proofs.Walk.Steps

/-!
Order between memory accesses. A tracked access is behind the nearest global access, or every access
that must come before it meets it through a chain of stores that begins at a known one. The one way
to lose an access is to replace a private access by a store to an unknown object.
-/
namespace Precedence

/-- An access like `i` meets the one at `x`, by way of a known access and a chain of stores. -/
def Exposed (c : MemoryChains) (g : Graph) (units : List Instr) (i : Instr) (x : Nat) : Prop :=
  ∃ y l, .unit y ∈ c.all ∧ units[y]? = some l ∧ l.isGlobalAccess = false ∧ conflicts i l ∧
    mayTouch i l ∧ StoreChain g units y x

theorem Exposed.grows {c : MemoryChains} {g g' : Graph} {units : List Instr} {i : Instr} {x : Nat}
    (h : Exposed c g units i x) (hg : g.Grows g') : Exposed c g' units i x := by
  obtain ⟨y, l, hy, hl, hd, hc, ht, hchain⟩ := h
  exact ⟨y, l, hy, hl, hd, hc, ht, hchain.grows hg⟩

/-- Unit `u` stores to an unknown object while there are more rejected accesses than are remembered
one by one, and the accesses through which the private access at `y` is known are all among them. -/
structure Overruns (limit : Nat) (units : List Instr) (c : MemoryChains) (g : Graph) (u y : Nat) :
    Prop where
  store : ∃ i, units[u]? = some i ∧ i.isGlobalAccess = false ∧ i.mayStore ∧
    i.underlyingObject = none
  full : limit < c.rejected.length
  hidden : ∃ o j, units[y]? = some j ∧ j.underlyingObject = some o ∧ o.mayAlias = false ∧
    (∃ t k, .unit t ∈ c.rejected ∧ units[t]? = some k ∧ k.underlyingObject = some o ∧
      StoreChain g units t y) ∧
    ∀ t k, .unit t ∈ c.all → units[t]? = some k → k.isGlobalAccess = false →
      k.underlyingObject = some o → StoreChain g units t y → .unit t ∈ c.rejected

/-- A unit from `k` on has lost sight of the access at `x`, and no global access has been met since;
`lost u x` says that unit `u` lost it. -/
def Forgotten (units : List Instr) (lost : Nat → Nat → Prop) (k x : Nat) : Prop :=
  ∃ u, k ≤ u ∧ u < x ∧ lost u x ∧
    ∀ z l, k ≤ z → z < u → units[z]? = some l → l.isGlobalAccess = false

theorem Forgotten.step {units : List Instr} {lost : Nat → Nat → Prop} {su x : Nat} {i : Instr}
    (h : Forgotten units lost (su + 1) x) (hi : units[su]? = some i)
    (hd : i.isGlobalAccess = false) : Forgotten units lost su x := by
  obtain ⟨u, hu, hux, hl, hz⟩ := h
  refine ⟨u, by omega, hux, hl, fun z l hsz hzu hl => ?_⟩
  rcases Nat.eq_or_lt_of_le hsz with rfl | hsz
  · exact Option.some.inj (hi.symm.trans hl) ▸ hd
  · exact hz z l hsz hzu hl

/-- The access `j`, at `x`, is behind the nearest global access, or those that must come before it
meet it unless it has been forgotten. -/
def Remembered (units : List Instr) (lost : Nat → Nat → Prop) (k : Nat) (c : MemoryChains)
    (g : Graph) (x : Nat) (j : Instr) : Prop :=
  (∃ n, c.barrier = some n ∧ g.Path n (.unit x)) ∨
    (j.isGlobalAccess = false ∧ ∀ i ∈ units, i.isGlobalAccess = false → conflicts i j →
      mayTouch i j → Forgotten units lost k x ∨ Exposed c g units i x)

/-- What the walk knows of the accesses from `k` on, and the order it has made. -/
structure MemoryOrdered (oracle : Option Oracle) (units : List Instr) (lost : Nat → Nat → Prop)
    (k : Nat) (w : Walk) : Prop where
  reached : ∀ x j, k ≤ x → units[x]? = some j → j.isTracked →
    ∃ n ∈ w.chains.all, w.draft.graph.Path n (.unit x)
  known : ∀ x j, k ≤ x → units[x]? = some j → j.isTracked →
    Remembered units lost k w.chains w.draft.graph x j
  ordered : ∀ x y i j, k ≤ x → x < y → units[x]? = some i → units[y]? = some j → i.isTracked →
    j.isTracked →
    (i.isGlobalAccess ∨ j.isGlobalAccess → w.draft.graph.Path (.unit x) (.unit y)) ∧
      (conflicts i j → mayTouch i j → ¬Separated oracle i j →
        w.draft.graph.Path (.unit x) (.unit y) ∨ Forgotten units lost (x + 1) y)

/-- A private access touches accesses to the same object only. -/
theorem ObjectsAgree.private_eq {units : List Instr} (hagree : ObjectsAgree units) {i j : Instr}
    (hi : i ∈ units) (hj : j ∈ units) {o : MemObject} (ho : j.underlyingObject = some o)
    (hp : o.mayAlias = false) (ht : mayTouch i j) : i.underlyingObject = some o := by
  cases hio : i.underlyingObject with
  | none => simp [mayTouch, hio, ho, hp] at ht
  | some p =>
    simp only [mayTouch, hio, ho, beq_iff_eq] at ht
    rw [hagree.eq hi hj hio ho ht]

theorem mayTouch_comm {i j : Instr} : mayTouch i j = mayTouch j i := by
  unfold mayTouch
  cases i.underlyingObject <;> cases j.underlyingObject <;> simp [eq_comm]

namespace MemoryOrdered

variable {s : Setup} {b : Block} {oracle : Option Oracle} {units : List Instr}
  {lost : Nat → Nat → Prop} {su x y : Nat} {i j : Instr} {v w : Walk} {r : RegState}
  {d₁ d₂ : Draft}

theorem start : MemoryOrdered oracle units lost units.length w where
  reached _ _ hx hi := absurd hi (not_unit_of_length_le hx)
  known _ _ hx hi := absurd hi (not_unit_of_length_le hx)
  ordered _ _ _ _ hx _ hi := absurd hi (not_unit_of_length_le hx)

/-- A known access that another one is met through is still known after a step or has been replaced
by one that can take over, unless it was private and has been overrun. -/
theorem exposed_of_keeps {m : MemoryScope} {c c' : MemoryChains} {d d' : Draft} {g : Graph}
    (hagree : ObjectsAgree units) (hf : c.Filed m.oracle units (su + 1))
    (hi : units[su]? = some i) (hd : i.isGlobalAccess = false)
    (hstep : AccessStep m units su i ⟨c, d⟩ ⟨c', d'⟩) (hg : g.Grows d.graph) {k l : Instr}
    (hk : k ∈ units) (hy : .unit y ∈ c.all) (hl : units[y]? = some l)
    (hld : l.isGlobalAccess = false) (hkl : conflicts k l) (htl : mayTouch k l)
    (hchain : StoreChain g units y x) :
    Overrun m i l c.rejected (.unit y) ∨ Exposed c' d'.graph units k x := by
  have hchain' := hchain.grows (hg.trans hstep.grows)
  rcases hstep.keeps _ hy with hy' | hrep
  · exact .inr ⟨y, l, hy', hl, hld, hkl, htl, hchain'⟩
  · apply (hrep.shadows hagree y l rfl hl hld).symm.imp_right
    intro hs
    obtain ⟨t, ht, hlt, -⟩ := (hf.isUnit hy).later
    cases ht
    exact ⟨su, i, hstep.self, hi, hd, by simp [conflicts, hrep.store], hs k hk htl,
      .step hi hrep.store hl hld hlt hrep.edge hchain'⟩

theorem exposed_step {m : MemoryScope} {c c' : MemoryChains} {d d' : Draft} {g : Graph}
    (hagree : ObjectsAgree units) (hf : c.Filed m.oracle units (su + 1))
    (hi : units[su]? = some i) (hd : i.isGlobalAccess = false)
    (hstep : AccessStep m units su i ⟨c, d⟩ ⟨c', d'⟩) (hg : g.Grows d.graph) {k : Instr}
    (hk : k ∈ units) (hj : units[x]? = some j) (hc : conflicts k j) (ht : mayTouch k j)
    (h : Exposed c g units k x) :
    Overruns m.options.maxRejected units c g su x ∨ Exposed c' d'.graph units k x := by
  obtain ⟨y, l, hy, hl, hld, hkl, htl, hchain⟩ := h
  rcases exposed_of_keeps hagree hf hi hd hstep hg hk hy hl hld hkl htl hchain with hover | hexp
  · obtain ⟨o, ho, hp⟩ := hover.hidden
    have hko := hagree.private_eq hk (List.mem_of_getElem? hl) ho hp htl
    have hjo := hagree.private_eq (List.mem_of_getElem? hj) hk hko hp (mayTouch_comm ▸ ht)
    by_cases hall : ∀ t q, .unit t ∈ c.all → units[t]? = some q → q.isGlobalAccess = false →
        q.underlyingObject = some o → StoreChain g units t x → .unit t ∈ c.rejected
    · exact .inl ⟨⟨i, hi, hd, hover.store, hover.unknown⟩, hover.full,
        o, j, hj, hjo, hp, ⟨y, l, hover.mem, hl, ho, hchain⟩, hall⟩
    · -- a known access that has not been rejected cannot be overrun
      push Not at hall
      obtain ⟨t, q, hmem, hq, hqd, hqo, htx, hnot⟩ := hall
      have htq : mayTouch k q := by simp [mayTouch, hko, hqo]
      exact .inr ((exposed_of_keeps hagree hf hi hd hstep hg hk hmem hq hqd
        (htx.conflicts hq hj hc) htq htx).resolve_left fun ho => hnot ho.mem)
  · exact .inr hexp

/-- The accesses from the unit at hand on, after a step. -/
theorem reached_step (hv : MemoryOrdered oracle units lost (su + 1) v) (hi : units[su]? = some i)
    (h : Walk.Stepped s b oracle units su i v w r d₁ d₂) (hx : su ≤ x) (hj : units[x]? = some j)
    (hjt : j.isTracked) : ∃ n ∈ w.chains.all, w.draft.graph.Path n (.unit x) := by
  have hlater : su < x → ∃ n ∈ v.chains.all, w.draft.graph.Path n (.unit x) := by
    intro hlt
    obtain ⟨n, hn, hp⟩ := hv.reached x j hlt hj hjt
    exact ⟨n, hn, h.grows.path hp⟩
  cases h.memory with
  | global hid _ hc hmeets =>
    have hself : .unit su ∈ w.chains.all := by
      rw [show w.chains = _ from hc]
      exact MemoryChains.barrier_mem_all rfl
    rcases this_or_later hi hx hj with ⟨rfl, -⟩ | hx
    · exact ⟨_, hself, .refl⟩
    · obtain ⟨n, hn, hp⟩ := hlater hx
      exact ⟨_, hself, (hmeets n hn).trans hp⟩
  | access hid hstep _ =>
    rcases this_or_later hi hx hj with ⟨rfl, -⟩ | hx
    · exact ⟨_, hstep.self, .refl⟩
    · obtain ⟨n, hn, hp⟩ := hlater hx
      rcases hstep.keeps n hn with hn | hrep
      · exact ⟨n, hn, hp⟩
      · exact ⟨_, hstep.self, hrep.edge.path.trans hp⟩
  | other hiu hsame =>
    rcases this_or_later hi hx hj with ⟨-, rfl⟩ | hx
    · simp [hjt] at hiu
    · have hc : w.chains = v.chains := congrArg MemoryWalk.chains hsame
      exact hc ▸ hlater hx

theorem known_step (hagree : ObjectsAgree units) (hv : MemoryOrdered oracle units lost (su + 1) v)
    (hi : units[su]? = some i) (hf : v.chains.Filed oracle units (su + 1))
    (hlost : ∀ x, Overruns s.options.maxRejected units v.chains v.draft.graph su x → lost su x)
    (h : Walk.Stepped s b oracle units su i v w r d₁ d₂) (hx : su ≤ x) (hj : units[x]? = some j)
    (hjt : j.isTracked) : Remembered units lost su w.chains w.draft.graph x j := by
  have hg := h.grows
  have hg₂ := h.registers.keeps.grows.trans h.barriers.grows
  cases h.memory with
  | global hid _ hc hmeets =>
    obtain ⟨n, hn, hp⟩ := reached_step hv hi h hx hj hjt
    rw [show w.chains = _ from hc] at hn ⊢
    obtain rfl := MemoryChains.eq_of_mem_all_global hn
    exact .inl ⟨.unit su, rfl, hp⟩
  | access hid hstep _ =>
    rcases this_or_later hi hx hj with ⟨rfl, rfl⟩ | hx
    · exact .inr ⟨hid, fun k _ _ hc ht => .inr ⟨x, j, hstep.self, hj, hid, hc, ht, .refl x⟩⟩
    · rcases hv.known x j hx hj hjt with ⟨n, hn, hp⟩ | ⟨hjd, hexp⟩
      · exact .inl ⟨n, hstep.barrier.trans hn, hg.path hp⟩
      · refine .inr ⟨hjd, fun k hk hkd hc ht => ?_⟩
        rcases hexp k hk hkd hc ht with hl | hexp
        · exact .inl (hl.step hi hid)
        · apply (exposed_step hagree hf hi hid hstep hg₂ hk hj hc ht hexp).imp_left
          intro ho
          exact ⟨su, le_rfl, hx, hlost x ho, fun z l _ _ => by omega⟩
  | other hiu hsame =>
    have hc : w.chains = v.chains := congrArg MemoryWalk.chains hsame
    rcases this_or_later hi hx hj with ⟨-, rfl⟩ | hx
    · simp [hjt] at hiu
    · rw [hc]
      rcases hv.known x j hx hj hjt with ⟨n, hn, hp⟩ | ⟨hjd, hexp⟩
      · exact .inl ⟨n, hn, hg.path hp⟩
      · refine .inr ⟨hjd, fun k hk hkd hc ht => ?_⟩
        exact (hexp k hk hkd hc ht).imp
          (fun hl => hl.step hi (Instr.isGlobalAccess_of_untracked hiu)) fun he => he.grows hg

/-- The unit at hand comes before every later access that it must come before. -/
theorem path_of_step (hagree : ObjectsAgree units)
    (hv : MemoryOrdered oracle units lost (su + 1) v) (hi : units[su]? = some i)
    (h : Walk.Stepped s b oracle units su i v w r d₁ d₂) (hlt : su < y) (hj : units[y]? = some j)
    (hit : i.isTracked) (hjt : j.isTracked) :
    (i.isGlobalAccess ∨ j.isGlobalAccess → w.draft.graph.Path (.unit su) (.unit y)) ∧
      (conflicts i j → mayTouch i j → ¬Separated oracle i j →
        w.draft.graph.Path (.unit su) (.unit y) ∨ Forgotten units lost (su + 1) y) := by
  have hg := h.grows
  cases h.memory with
  | global hid _ hc hmeets =>
    obtain ⟨n, hn, hp⟩ := hv.reached y j hlt hj hjt
    have hpath := (hmeets n hn).trans (hg.path hp)
    exact ⟨fun _ => hpath, fun _ _ _ => .inl hpath⟩
  | access hid hstep hbehind =>
    rcases hv.known y j hlt hj hjt with ⟨n, hn, hp⟩ | ⟨hjd, hexp⟩
    · have hpath := (hbehind n hn).trans (hg.path hp)
      exact ⟨fun _ => hpath, fun _ _ _ => .inl hpath⟩
    · refine ⟨fun hglobal => by simp [hid, hjd] at hglobal, fun hc ht hsep => ?_⟩
      rcases hexp i (List.mem_of_getElem? hi) hid hc ht with
        hl | ⟨z, l, hz, hl, hld, hil, htl, hchain⟩
      · exact .inr hl
      · left
        exact hstep.meets hagree z l hz hl hld hil htl y j
          (hchain.grows (h.registers.keeps.grows.trans h.barriers.grows)) hj hc hsep
  | other hiu _ => simp [hit] at hiu

theorem step (hagree : ObjectsAgree units) (hv : MemoryOrdered oracle units lost (su + 1) v)
    (hi : units[su]? = some i) (hf : v.chains.Filed oracle units (su + 1))
    (hlost : ∀ x, Overruns s.options.maxRejected units v.chains v.draft.graph su x → lost su x)
    (h : Walk.Stepped s b oracle units su i v w r d₁ d₂) :
    MemoryOrdered oracle units lost su w := by
  refine ⟨fun x j => reached_step hv hi h, fun x j => known_step hagree hv hi hf hlost h,
    fun x y j k hx hxy hj hk hjt hkt => ?_⟩
  rcases this_or_later hi hx hj with ⟨rfl, rfl⟩ | hx
  · exact path_of_step hagree hv hj h hxy hk hjt hkt
  · obtain ⟨hglobal, htouch⟩ := hv.ordered x y j k hx hxy hj hk hjt hkt
    exact ⟨fun hgl => h.grows.path (hglobal hgl),
      fun hc ht hs => (htouch hc ht hs).imp_left h.grows.path⟩

end MemoryOrdered

/-- While the region is built, unit `u` overruns the access at `y`. -/
def Builder.Overrun (s : Setup) (b : Builder) (r : Region) (oracle : Option Oracle) (u y : Nat) :
    Prop :=
  ∃ w, b.walkTo s r oracle (u + 1) = .ok w ∧
    Overruns s.options.maxRejected (s.unitsOf r) w.chains w.draft.graph u y

namespace Builder

variable {s : Setup} {b b' : Builder} {r : Region} {oracle : Option Oracle} {g : Graph} {u y : Nat}

theorem Overrun.filed (h : b.Overrun s r oracle u y) (hb : b.Usable s) :
    ∃ c : MemoryChains, c.Filed oracle (s.unitsOf r) (u + 1) ∧
      s.options.maxRejected < c.rejected.length := by
  obtain ⟨w, hw, ho⟩ := h
  obtain ⟨i, hi, -⟩ := ho.store
  obtain ⟨block, hsound, -⟩ := walkTo_induction (fun _ _ => True) hb (fun _ _ _ => trivial)
    (fun _ _ _ _ _ _ _ _ _ _ _ _ _ => trivial) (List.getElem?_eq_some_iff.mp hi).1 hw
  exact ⟨w.chains, hsound.filed, ho.full⟩

/-- Only private accesses are overrun. -/
theorem Overrun.isPrivate (h : b.Overrun s r oracle u y) {j : Instr}
    (hj : (s.unitsOf r)[y]? = some j) :
    ∃ o, j.underlyingObject = some o ∧ o.mayAlias = false := by
  obtain ⟨w, -, ho⟩ := h
  obtain ⟨o, k, hk, hko, hp, -⟩ := ho.hidden
  obtain rfl := Option.some.inj (hj.symm.trans hk)
  exact ⟨o, hko, hp⟩

/-- A list of rejected accesses with room for all units never overflows. -/
theorem Overrun.limit_lt (h : b.Overrun s r oracle u y) (hb : b.Usable s) :
    s.options.maxRejected < (s.unitsOf r).length := by
  obtain ⟨c, hf, hlt⟩ := h.filed hb
  exact hlt.trans_le hf.rejected_length_le

/-- Without an oracle, no access is rejected. -/
theorem not_overrun_none (hb : b.Usable s) : ¬b.Overrun s r none u y := by
  intro h
  obtain ⟨c, hf, hlt⟩ := h.filed hb
  simp [hf.unasked rfl] at hlt

/-- A finished graph has a path from each access to every later one that memory keeps behind it,
unless a unit in between overruns the later one. -/
theorem path_of_memory (hagree : ObjectsAgree (s.unitsOf r)) (hb : b.Usable s)
    (h : b.buildRegion s r oracle = .ok (b', g)) :
    g.Linked ∧ g.nodes.size = (s.unitsOf r).length ∧
      ∀ x y i j, x < y → (s.unitsOf r)[x]? = some i → (s.unitsOf r)[y]? = some j →
        i.isTracked → j.isTracked →
        (i.isGlobalAccess ∨ j.isGlobalAccess → g.Path (.unit x) (.unit y)) ∧
          (conflicts i j → mayTouch i j → ¬Separated oracle i j →
            g.Path (.unit x) (.unit y) ∨
              Forgotten (s.unitsOf r) (b.Overrun s r oracle) (x + 1) y) := by
  obtain ⟨block, w, hsound, hw, rfl⟩ := buildRegion_induction
    (MemoryOrdered oracle (s.unitsOf r) (b.Overrun s r oracle)) hb (fun w _ _ => .start)
    (fun block su i v v' r' d₁ d₂ hi hto hv hP hstep =>
      hP.step hagree hi hv.filed (fun x hx => ⟨v, hto, hx⟩) hstep) h
  exact ⟨hsound.wraps.linked, hsound.wraps.size_eq,
    fun x y i j hxy hi hj => hw.ordered x y i j x.zero_le hxy hi hj⟩

end Builder

/-! Memory operands -/

/-- Two memory operands may touch the same bytes, judging by their objects. -/
def MemOperand.mayTouch (m n : MemOperand) : Bool :=
  match m.object, n.object with
  | some o, some p => o.id == p.id
  | some o, none => o.mayAlias
  | none, some p => p.mayAlias
  | none, none => true

/-- Some memory operand of an instruction may touch what one of the other does. -/
def OperandsTouch (i j : Instr) : Prop :=
  ∃ m ∈ i.memOperands, ∃ n ∈ j.memOperands, m.mayTouch n

instance (i j : Instr) : Decidable (OperandsTouch i j) :=
  inferInstanceAs (Decidable (∃ m ∈ i.memOperands, ∃ n ∈ j.memOperands, m.mayTouch n))

/-- The instruction loads or stores, and what it accesses may change. -/
def Instr.accessesMutable (i : Instr) : Bool := i.accessesMemory && !i.isInvariantLoad

theorem Instr.isTracked_of_accessesMutable {i : Instr} (h : i.accessesMutable) : i.isTracked := by
  simp only [accessesMutable, accessesMemory, Bool.and_eq_true, Bool.or_eq_true] at h
  simp only [isTracked, Bool.or_eq_true, Bool.and_eq_true]
  tauto

/-- The object of a described access is that of each of its memory operands, or there is none and
other pointers reach all objects that the operands name. -/
theorem Instr.object_of_mem {i : Instr} (hi : i.accessesMutable) (hd : i.isGlobalAccess = false)
    {m : MemOperand} (hm : m ∈ i.memOperands) : i.underlyingObject = m.object ∨
      (i.underlyingObject = none ∧ ∀ o, m.object = some o → o.mayAlias) := by
  have hspan : i.spansPrivateObjects = false := by
    simp only [isGlobalAccess, Bool.or_eq_false_iff] at hd
    exact hd.2
  have hvar : i.isInvariantLoad = false := by
    simp only [accessesMutable, Bool.and_eq_true, Bool.not_eq_true'] at hi
    exact hi.2
  rcases hops : i.memOperands with _ | ⟨n, _ | ⟨n', rest⟩⟩
  · simp [hops] at hm
  · obtain rfl : m = n := by simpa [hops] using hm
    exact .inl (by simp [underlyingObject, hops])
  · refine .inr ⟨by simp [underlyingObject, hops], fun o ho => ?_⟩
    have hprivate : ∀ n ∈ i.memOperands, n.isPrivate = false := by
      simpa [spansPrivateObjects, hvar, hops] using hspan
    simpa [MemOperand.isPrivate, ho] using hprivate m hm

theorem mayTouch_of_operands {units : List Instr} (hagree : ObjectsAgree units) {i j : Instr}
    (hi : i ∈ units) (hj : j ∈ units) (hia : i.accessesMutable) (hja : j.accessesMutable)
    (hid : i.isGlobalAccess = false) (hjd : j.isGlobalAccess = false) (h : OperandsTouch i j) :
    mayTouch i j := by
  obtain ⟨m, hm, n, hn, h⟩ := h
  have hsame : ∀ o p, m.object = some o → n.object = some p → o.id = p.id →
      o.mayAlias = p.mayAlias := fun o p ho hp => hagree i hi j hj m hm n hn o ho p hp
  unfold MemOperand.mayTouch at h
  unfold mayTouch
  rcases i.object_of_mem hia hid hm with hio | ⟨hio, hmo⟩ <;>
    rcases j.object_of_mem hja hjd hn with hjo | ⟨hjo, hno⟩ <;>
    rw [hio, hjo] <;> cases hmo' : m.object <;> cases hno' : n.object <;> simp_all

/-! Paths found -/

section

variable {s : Setup} {b b' : Builder} {r : Region} {oracle : Option Oracle} {g : Graph} {x y : Nat}
  {i j : Instr}

theorem Builder.path_or_forgotten (hb : b.Usable s) (hagree : ObjectsAgree (s.unitsOf r))
    (h : b.buildRegion s r oracle = .ok (b', g)) (hxy : x < y)
    (hi : (s.unitsOf r)[x]? = some i) (hj : (s.unitsOf r)[y]? = some j)
    (hia : i.accessesMutable) (hja : j.accessesMutable)
    (hdep : i.isGlobalAccess ∨ j.isGlobalAccess ∨
      (conflicts i j ∧ OperandsTouch i j ∧ ¬Separated oracle i j)) :
    g.Path (.unit x) (.unit y) ∨ (i.isGlobalAccess = false ∧ j.isGlobalAccess = false ∧
      Forgotten (s.unitsOf r) (b.Overrun s r oracle) (x + 1) y) := by
  obtain ⟨-, -, hpath⟩ := b.path_of_memory hagree hb h
  obtain ⟨hglobal, htouch⟩ := hpath x y i j hxy hi hj (i.isTracked_of_accessesMutable hia)
    (j.isTracked_of_accessesMutable hja)
  by_cases hg : i.isGlobalAccess ∨ j.isGlobalAccess
  · exact .inl (hglobal hg)
  · have hd := hg
    simp only [not_or, Bool.not_eq_true] at hd
    rcases hdep with hi' | hj' | ⟨hc, ht, hs⟩
    · exact absurd (.inl hi') hg
    · exact absurd (.inr hj') hg
    · have hm := mayTouch_of_operands hagree (List.mem_of_getElem? hi) (List.mem_of_getElem? hj)
        hia hja hd.1 hd.2 ht
      exact (htouch hc hm hs).imp_right fun ho => ⟨hd.1, hd.2, ho⟩

theorem Builder.reaches_or_forgotten (hb : b.Usable s) (hagree : ObjectsAgree (s.unitsOf r))
    (h : b.buildRegion s r oracle = .ok (b', g)) (hxy : x < y)
    (hi : (s.unitsOf r)[x]? = some i) (hj : (s.unitsOf r)[y]? = some j)
    (hia : i.accessesMutable) (hja : j.accessesMutable)
    (hdep : i.isGlobalAccess ∨ j.isGlobalAccess ∨
      (conflicts i j ∧ OperandsTouch i j ∧ ¬Separated oracle i j)) :
    g.reaches (.unit x) (.unit y) = .ok true ∨ (i.isGlobalAccess = false ∧
      j.isGlobalAccess = false ∧
        Forgotten (s.unitsOf r) (b.Overrun s r oracle) (x + 1) y) := by
  obtain ⟨hl, hsize, -⟩ := b.path_of_memory hagree hb h
  refine (b.path_or_forgotten hb hagree h hxy hi hj hia hja hdep).imp_left
    (Graph.reaches_of_path hl ?_)
  rw [Graph.position_unit_isSome, hsize]
  exact (List.getElem?_eq_some_iff.mp hi).1

/-- With room for all rejected accesses, an oracle loses no order that it does not rule out itself,
whatever it separates and however far the search behind separated accesses goes. -/
theorem reaches_of_unseparated (hb : b.Usable s) (hagree : ObjectsAgree (s.unitsOf r))
    (h : b.buildRegion s r oracle = .ok (b', g))
    (hroom : (s.unitsOf r).length ≤ s.options.maxRejected) (hxy : x < y)
    (hi : (s.unitsOf r)[x]? = some i) (hj : (s.unitsOf r)[y]? = some j)
    (hia : i.accessesMutable) (hja : j.accessesMutable)
    (hdep : i.isGlobalAccess ∨ j.isGlobalAccess ∨
      (conflicts i j ∧ OperandsTouch i j ∧ ¬Separated oracle i j)) :
    g.reaches (.unit x) (.unit y) = .ok true := by
  rcases Builder.reaches_or_forgotten hb hagree h hxy hi hj hia hja hdep with
    hreach | ⟨-, -, u, -, -, ho, -⟩
  · exact hreach
  · have := ho.limit_lt hb
    omega

/-- Accesses that overlap, with one in between that overlaps neither. -/
theorem reaches_across_separated :
    let slot (offset : Int) := ({ opcode := "st" } : Instr).storing (.ofPrivate 7 offset 4)
    let s := Setup.straightLine { count := 1 } [slot 0, slot 4, slot 0]
    ∃ b' g, ({} : Builder).buildRegion s ⟨⟨0⟩, 0, 3⟩ (some Oracle.offsets) = .ok (b', g) ∧
      g.reaches (.unit 0) (.unit 2) = .ok true := by
  intro slot s
  have hok : (({} : Builder).buildRegion s ⟨⟨0⟩, 0, 3⟩ (some Oracle.offsets)).isOk = true := by cbv
  obtain ⟨⟨b', g⟩, h⟩ := exists_of_isOk hok
  have hmust : Oracle.offsets (slot 0) (slot 0) = .ok .must := by cbv
  refine ⟨b', g, h, reaches_of_unseparated .fresh (by decide) h (by decide) (by decide) rfl rfl
    (by decide) (by decide) (.inr (.inr ⟨rfl, by decide, ?_⟩))⟩
  rintro ⟨oracle, ⟨⟩, hno⟩
  simp [hmust] at hno

/-- However small the room for rejected accesses, described accesses that may touch stay in order
unless the later one has been forgotten: a store to an unknown object, met when too many accesses
are rejected, has replaced all private accesses through which it was known. -/
theorem reaches_unless_forgotten (hb : b.Usable s) (hagree : ObjectsAgree (s.unitsOf r))
    (h : b.buildRegion s r oracle = .ok (b', g)) (hxy : x < y)
    (hi : (s.unitsOf r)[x]? = some i) (hj : (s.unitsOf r)[y]? = some j)
    (hia : i.accessesMutable) (hja : j.accessesMutable) (hc : conflicts i j)
    (ht : OperandsTouch i j) (hs : ¬Separated oracle i j)
    (hlost : ¬Forgotten (s.unitsOf r) (b.Overrun s r oracle) (x + 1) y) :
    g.reaches (.unit x) (.unit y) = .ok true :=
  (Builder.reaches_or_forgotten hb hagree h hxy hi hj hia hja
    (.inr (.inr ⟨hc, ht, hs⟩))).resolve_right fun ho => hlost ho.2.2

/-- Accesses to an object that other pointers reach are never forgotten. -/
theorem reaches_despite_overflow :
    let slot (offset : Int) := ({ opcode := "st" } : Instr).storing (.ofObject 7 offset 4)
    let wild := ({ opcode := "st" } : Instr).storing (.unknown 4)
    let s := { Setup.straightLine { count := 1 } [slot 0, wild, slot 4, slot 0] with
      options := { maxRejected := 0 } }
    ∃ b' g, ({} : Builder).buildRegion s ⟨⟨0⟩, 0, 4⟩ (some Oracle.offsets) = .ok (b', g) ∧
      g.reaches (.unit 0) (.unit 3) = .ok true := by
  intro slot wild s
  have hok : (({} : Builder).buildRegion s ⟨⟨0⟩, 0, 4⟩ (some Oracle.offsets)).isOk = true := by cbv
  obtain ⟨⟨b', g⟩, h⟩ := exists_of_isOk hok
  have hmust : Oracle.offsets (slot 0) (slot 0) = .ok .must := by cbv
  refine ⟨b', g, h, reaches_unless_forgotten .fresh (by decide) h (by decide) rfl rfl
    (by decide) (by decide) rfl (by decide) ?_ ?_⟩
  · rintro ⟨oracle, ⟨⟩, hno⟩
    simp [hmust] at hno
  · rintro ⟨u, -, -, hover, -⟩
    obtain ⟨o, ho, hp⟩ := hover.isPrivate (j := slot 0) rfl
    cases ho
    cases hp

/-- The first and the last store write the same private bytes, and nothing orders them: the store to
an unknown object replaces the last one, which was rejected, and the first one does not meet it. -/
theorem not_reaches_of_overflow :
    let slot (offset : Int) := ({ opcode := "st" } : Instr).storing (.ofPrivate 7 offset 4)
    let wild := ({ opcode := "st" } : Instr).storing (.unknown 4)
    let s := { Setup.straightLine { count := 1 } [slot 0, wild, slot 4, slot 0] with
      options := { maxRejected := 0 } }
    ∃ b' g, ({} : Builder).buildRegion s ⟨⟨0⟩, 0, 4⟩ (some Oracle.offsets) = .ok (b', g) ∧
      ObjectsAgree (s.unitsOf ⟨⟨0⟩, 0, 4⟩) ∧ conflicts (slot 0) (slot 0) ∧
      OperandsTouch (slot 0) (slot 0) ∧ ¬Separated (some Oracle.offsets) (slot 0) (slot 0) ∧
      g.reaches (.unit 0) (.unit 3) = .ok false := by
  intro slot wild s
  have hreach : ((({} : Builder).buildRegion s ⟨⟨0⟩, 0, 4⟩ (some Oracle.offsets)).bind
      fun p => p.2.reaches (.unit 0) (.unit 3)) = .ok false := by cbv
  obtain ⟨⟨b', g⟩, h, hno⟩ := bind_eq_ok.mp hreach
  have hmust : Oracle.offsets (slot 0) (slot 0) = .ok .must := by cbv
  refine ⟨b', g, h, by decide, rfl, by decide, ?_, hno⟩
  rintro ⟨oracle, ⟨⟩, hsep⟩
  simp [hmust] at hsep

end

end Precedence
