import Mathlib
import Precedence.Machine.Construct
import Precedence.Proofs.Graph.Paths
import Precedence.Proofs.Walk.Steps

/-!
Order that registers and barriers ask for. Of the units met since the nearest barrier the walk
knows all registers; what lies behind the barrier is ordered by it.
-/
namespace Precedence

theorem Instr.isCall_eq_false {i : Instr} (h : ¬i.isBarrier) : i.isCall = false := by
  simp only [isBarrier, Bool.not_eq_true, Bool.or_eq_false_iff] at h
  exact h.1

/-- Some register operand of an instruction interferes with one of a later instruction. -/
def Setup.Interfere (s : Setup) (i j : Instr) : Prop :=
  ∃ e ∈ i.regOperands, ∃ f ∈ j.regOperands, e.2.Interferes f.2 ∧ s.SharesStorage e.2.reg f.2.reg

/-- What the walk knows of the registers of the units from `k` on, and the order it has made. -/
structure RegistersOrdered (s : Setup) (units : List Instr) (k : Nat) (w : Walk) : Prop where
  covers : ∀ x i, k ≤ x → units[x]? = some i → w.barriers.Covers w.draft.graph x
  plain : ∀ x i, .unit x ∈ w.barriers.since → units[x]? = some i → i.isBarrier = false
  physical : s.Orderly → ∀ x i, .unit x ∈ w.barriers.since → units[x]? = some i →
    ∀ e ∈ i.regOperands, s.classify e.2.reg = .ok .physical →
      w.regs.tracker.Guards units w.draft.graph x e.2
  virtual : s.Orderly → ∀ x i, k ≤ x → units[x]? = some i → ∀ e ∈ i.regOperands,
    ∀ v, s.classify e.2.reg = .ok (.virtual v) → w.regs.Guards w.draft.graph x e.2
  ordered : ∀ x y i j, k ≤ x → x < y → units[x]? = some i → units[y]? = some j →
    i.isBarrier ∨ j.isBarrier ∨ (s.Orderly ∧ s.Interfere i j) →
    w.draft.graph.Path (.unit x) (.unit y)

namespace RegistersOrdered

variable {s : Setup} {b : Block} {oracle : Option Oracle} {units : List Instr} {su y : Nat}
  {i j : Instr} {v w : Walk} {r : RegState} {d₁ d₂ : Draft}

theorem start (hb : w.barriers = {}) : RegistersOrdered s units units.length w := by
  refine ⟨fun x i hx hi => absurd hi (not_unit_of_length_le hx), fun x i hx => ?_,
    fun _ x i hx => ?_, fun _ x i hx hi => absurd hi (not_unit_of_length_le hx),
    fun x y i j hx _ hi => absurd hi (not_unit_of_length_le hx)⟩
  · simp [hb] at hx
  · simp [hb] at hx

/-- The unit at hand comes before every later one that it must come before. -/
theorem path_of_step (hv : RegistersOrdered s units (su + 1) v)
    (h : Walk.Stepped s b oracle units su i v w r d₁ d₂) (hlt : su < y) (hj : units[y]? = some j)
    (hdep : i.isBarrier ∨ j.isBarrier ∨ (s.Orderly ∧ s.Interfere i j)) :
    w.draft.graph.Path (.unit su) (.unit y) := by
  have hcovers := (hv.covers y j hlt hj).grows h.registers.keeps.grows
  by_cases hbar : i.isBarrier ∨ .unit y ∉ v.barriers.since
  · exact h.memory.grows.path (h.barriers.meets y hcovers hbar)
  · -- neither is a barrier, and the registers of the later one are known
    push Not at hbar
    obtain ⟨hi, hsince⟩ := hbar
    have hcall := Instr.isCall_eq_false hi
    have hjb := hv.plain y j hsince hj
    rcases hdep with hb | hb | ⟨hs, e, he, f, hf, hint, hshare⟩
    · exact absurd hb hi
    · simp [hjb] at hb
    · apply (h.barriers.grows.trans h.memory.grows).path
      cases hshare with
      | physical hec hfc hshared =>
        exact h.registers.meets_physical hs hcall he hec hint hshared
          (hv.physical hs y j hsince hj f hf hfc)
      | virtual hev hep hsame =>
        have hec := h.registers.classify_virtual he hint.operand hev hep
        apply h.registers.meets_virtual hs he hec hint hsame
        exact hv.virtual hs y j hlt hj f hf _ (hsame ▸ hec)

theorem step (hv : RegistersOrdered s units (su + 1) v) (hi : units[su]? = some i)
    (h : Walk.Stepped s b oracle units su i v w r d₁ d₂) : RegistersOrdered s units su w := by
  have hg := h.grows
  have hg₂ := h.barriers.grows.trans h.memory.grows
  refine ⟨fun x j hx hj => ?_, fun x j hx hj => ?_, fun hs x j hx hj e he hc => ?_,
    fun hs x j hx hj e he n hc => ?_, fun x y j k hx hxy hj hk hdep => ?_⟩
  · refine (h.barriers.covers x ?_).grows h.memory.grows
    rcases this_or_later hi hx hj with ⟨rfl, -⟩ | hx
    · exact .inr rfl
    · exact .inl ((hv.covers x j hx hj).grows h.registers.keeps.grows)
  · obtain ⟨hib, -, hx | rfl⟩ := h.barriers.since x hx
    · exact hv.plain x j hx hj
    · obtain rfl := Option.some.inj (hj.symm.trans hi)
      simpa using hib
  · obtain ⟨hib, ht, hx⟩ := h.barriers.since x hx
    have hcall := Instr.isCall_eq_false hib
    rw [ht]
    rcases hx with hx | rfl
    · exact (h.registers.keeps.physical hs hcall x e.2
        (hv.physical hs x j hx hj e he hc)).grows hg₂
    · obtain rfl := Option.some.inj (hj.symm.trans hi)
      exact (h.registers.own_physical hs hcall he hc).grows hg₂
  · rw [h.virtual]
    rcases this_or_later hi hx hj with ⟨rfl, rfl⟩ | hx
    · exact Guard.grows (h.registers.own_virtual hs he hc) hg₂
    · exact Guard.grows (h.registers.keeps.virtual hs x e.2 (hv.virtual hs x j hx hj e he n hc)) hg₂
  · rcases this_or_later hi hx hj with ⟨rfl, rfl⟩ | hx
    · exact path_of_step hv h hxy hk hdep
    · exact hg.path (hv.ordered x y j k hx hxy hj hk hdep)

end RegistersOrdered

namespace Builder

variable {s : Setup} {b b' : Builder} {r : Region} {oracle : Option Oracle} {g : Graph}

/-- A finished graph has a path from each unit to every later one that a register or a barrier keeps
behind it. -/
theorem path_of_registers (hb : b.Usable s) (h : b.buildRegion s r oracle = .ok (b', g)) :
    g.Linked ∧ g.nodes.size = (s.unitsOf r).length ∧
      ∀ x y i j, x < y → (s.unitsOf r)[x]? = some i → (s.unitsOf r)[y]? = some j →
        i.isBarrier ∨ j.isBarrier ∨ (s.Orderly ∧ s.Interfere i j) →
        g.Path (.unit x) (.unit y) := by
  obtain ⟨block, w, hsound, hw, rfl⟩ := buildRegion_induction
    (RegistersOrdered s (s.unitsOf r)) hb (fun w hw _ => .start hw)
    (fun block su i v v' r' d₁ d₂ hi _ _ hv hstep => hv.step hi hstep) h
  exact ⟨hsound.wraps.linked, hsound.wraps.size_eq,
    fun x y i j hxy hi hj => hw.ordered x y i j x.zero_le hxy hi hj⟩

end Builder

/-! Register files -/

namespace RegisterFile

/-- Two registers are the same or declared to share storage. -/
def Overlap (f : RegisterFile) (a b : Reg) : Prop :=
  a = b ∨ (a, b) ∈ f.shared ∨ (b, a) ∈ f.shared

theorem Overlap.mem {f : RegisterFile} {a b : Reg} (h : f.Overlap a b) {l : List Reg}
    (hl : f.overlaps a = .ok l) : b ∈ l := by
  unfold overlaps at hl
  split at hl
  · cases hl
    rw [List.mem_cons, List.mem_eraseDups, List.mem_filterMap]
    rcases h with rfl | h | h
    · exact .inl rfl
    · exact .inr ⟨_, h, by simp [partner]⟩
    · by_cases hba : b = a
      · exact .inl hba
      · exact .inr ⟨_, h, by simp [partner, hba]⟩
  · cases hl

theorem Overlap.of_mem {f : RegisterFile} {a b : Reg} {l : List Reg} (hl : f.overlaps a = .ok l)
    (h : b ∈ l) : f.Overlap a b := by
  unfold overlaps at hl
  split at hl
  · cases hl
    rw [List.mem_cons, List.mem_eraseDups, List.mem_filterMap] at h
    rcases h with rfl | ⟨⟨c, d⟩, hmem, hpartner⟩
    · exact .inl rfl
    · simp only [partner] at hpartner
      split at hpartner
      next hc =>
        cases hpartner
        exact .inr (.inl (hc ▸ hmem))
      next =>
        split at hpartner
        next hd =>
          cases hpartner
          exact .inr (.inr (hd ▸ hmem))
        next => cases hpartner
  · cases hl

theorem orderly {s : Setup} {f : RegisterFile} (hregs : s.regs = f.info)
    (htiming : s.timing.AdjustsLatencyOnly) : s.Orderly :=
  ⟨htiming, fun r l hl => by
    rw [hregs] at hl
    exact Overlap.mem (.inl rfl) hl⟩

theorem classify_eq {s : Setup} {f : RegisterFile} (hregs : s.regs = f.info) {r : Reg}
    (hr : r.isPlain) : s.classify r = .ok .physical := by
  rw [Setup.classify_eq_physical, hregs]
  exact hr

theorem sharesStorage {s : Setup} {f : RegisterFile} (hregs : s.regs = f.info) {a b : Reg}
    (ha : a.isPlain) (hb : b.isPlain) (h : f.Overlap a b) : s.SharesStorage a b :=
  .physical (classify_eq hregs ha) (classify_eq hregs hb) fun l hl => by
    rw [hregs] at hl
    exact h.mem hl

end RegisterFile

/-- Two units that access overlapping physical registers, at least one of them to write, are
connected in program order. Dead writes need no order among themselves, and no read waits for
one. -/
theorem reaches_of_physical_conflict {s : Setup} {f : RegisterFile} (hregs : s.regs = f.info)
    (htiming : s.timing.AdjustsLatencyOnly) {b b' : Builder} (hb : b.Usable s) {r : Region}
    {oracle : Option Oracle} {g : Graph} (h : b.buildRegion s r oracle = .ok (b', g)) {x y : Nat}
    (hxy : x < y) {i j : Instr} (hi : (s.unitsOf r)[x]? = some i) (hj : (s.unitsOf r)[y]? = some j)
    {e e' : Nat × RegOperand} (he : e ∈ i.regOperands) (he' : e' ∈ j.regOperands)
    (hp : e.2.reg.isPlain) (hp' : e'.2.reg.isPlain) (hover : f.Overlap e.2.reg e'.2.reg)
    (hint : e.2.Interferes e'.2) : g.reaches (.unit x) (.unit y) = .ok true := by
  obtain ⟨hl, hsize, hpath⟩ := Builder.path_of_registers hb h
  refine Graph.reaches_of_path hl ?_ (hpath x y i j hxy hi hj (.inr (.inr
    ⟨f.orderly hregs htiming, e, he, e', he', hint, f.sharesStorage hregs hp hp' hover⟩)))
  rw [Graph.position_unit_isSome, hsize]
  exact (List.getElem?_eq_some_iff.mp hi).1

/-- A write of one register, then a read of another one that shares its storage. -/
theorem reaches_subregister_read :
    let f : RegisterFile := { count := 3, shared := [(⟨1⟩, ⟨2⟩)] }
    let s := Setup.straightLine f [({ opcode := "add" } : Instr).withDef ⟨1⟩,
      ({ opcode := "use" } : Instr).withUse ⟨2⟩]
    ∃ b' g, ({} : Builder).buildRegion s ⟨⟨0⟩, 0, 2⟩ none = .ok (b', g) ∧
      g.reaches (.unit 0) (.unit 1) = .ok true := by
  intro f s
  have hok : (({} : Builder).buildRegion s ⟨⟨0⟩, 0, 2⟩ none).isOk = true := by cbv
  obtain ⟨⟨b', g⟩, h⟩ := exists_of_isOk hok
  have hwrite : (0, { reg := ⟨1⟩, isDef := true }) ∈
      (({ opcode := "add" } : Instr).withDef ⟨1⟩).regOperands := by decide
  have hread : (0, { reg := ⟨2⟩ }) ∈
      (({ opcode := "use" } : Instr).withUse ⟨2⟩).regOperands := by decide
  exact ⟨b', g, h, reaches_of_physical_conflict (f := f) rfl Timing.adjustsLatencyOnly_unit .fresh h
    (by decide) rfl rfl hwrite hread rfl rfl (.inr (.inl (by decide)))
    (.inl ⟨rfl, by decide, rfl⟩)⟩

end Precedence
