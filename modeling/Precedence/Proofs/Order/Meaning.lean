import Precedence.Proofs.Graph.Emitted
import Precedence.Proofs.Order.Memory
import Precedence.Proofs.Order.Registers

/-!
What a schedule means. Two instructions depend on each other through a barrier, a register or
memory. Steps that do not depend on each other may be exchanged as far as the meaning of a program
goes, and the graph keeps all others in program order; so whatever order the graph accepts, the last
state is that of the program order.
-/
namespace Precedence

universe u

/-! Steps in some order -/

section

variable {α : Type} {σ : Type u} {step : α → σ → σ} {must : α → α → Prop} {l m : List α} {a : α}

/-- The state after the steps of a list, one after the other. -/
def executeAll (step : α → σ → σ) (l : List α) (start : σ) : σ :=
  l.foldl (fun state a => step a state) start

@[simp]
theorem executeAll_cons (start : σ) :
    executeAll step (a :: l) start = executeAll step l (step a start) := rfl

@[simp]
theorem executeAll_append (start : σ) :
    executeAll step (l ++ m) start = executeAll step m (executeAll step l start) :=
  List.foldl_append

/-- A step that can be exchanged with all steps of a list can be made before them. -/
theorem step_executeAll (h : ∀ c ∈ l, ∀ state, step a (step c state) = step c (step a state))
    (start : σ) : step a (executeAll step l start) = executeAll step l (step a start) := by
  induction l generalizing start with
  | nil => rfl
  | cons c l ih =>
    rw [executeAll_cons, executeAll_cons, ← h c List.mem_cons_self]
    exact ih (fun d hd => h d (List.mem_cons_of_mem c hd)) (step c start)

/-- Two orders of the same steps lead to the same state when each pair can be exchanged, or has to
stay in the order of `l` and does so in `m`. -/
theorem executeAll_eq_of_perm (hperm : m.Perm l)
    (hl : l.Pairwise fun a b => must a b ∨ ∀ state, step a (step b state) = step b (step a state))
    (hm : m.Pairwise fun a b => ¬must b a) (start : σ) :
    executeAll step m start = executeAll step l start := by
  induction l generalizing m start with
  | nil => rw [hperm.eq_nil]
  | cons a l ih =>
    obtain ⟨m₁, m₂, rfl⟩ := List.append_of_mem (hperm.mem_iff.mpr List.mem_cons_self)
    have hrest : (m₁ ++ m₂).Perm l := (List.perm_cons a).mp (List.perm_middle.symm.trans hperm)
    obtain ⟨hhead, hl⟩ := List.pairwise_cons.mp hl
    -- nothing in front of `a` has to stay behind it
    have hfront : ∀ c ∈ m₁, ∀ state, step a (step c state) = step c (step a state) := by
      intro c hc
      have hno : ¬must a c := (List.pairwise_append.mp hm).2.2 c hc a List.mem_cons_self
      exact (hhead c (hrest.subset (List.mem_append_left m₂ hc))).resolve_left hno
    calc executeAll step (m₁ ++ a :: m₂) start
        = executeAll step m₂ (step a (executeAll step m₁ start)) := by simp
      _ = executeAll step (m₁ ++ m₂) (step a start) := by
        rw [step_executeAll hfront, executeAll_append]
      _ = executeAll step l (step a start) :=
        ih hrest hl (hm.sublist ((List.sublist_cons_self a m₂).append_left m₁)) _

end

/-! Dependence -/

/-- Two registers share storage: they are the same virtual one, or physical ones that overlap. -/
def RegisterFile.SameStorage (f : RegisterFile) (a b : Reg) : Prop :=
  (a.isVirtual ∧ b = a) ∨ (a.isPlain ∧ b.isPlain ∧ f.Overlap a b)

/-- The later instruction `j` depends on the earlier instruction `i`. -/
inductive RegisterFile.Dependent (f : RegisterFile) (i j : Instr) : Prop
  | barrier (h : i.isBarrier ∨ j.isBarrier)
  | register (e e' : Nat × RegOperand) (fst : e ∈ i.regOperands) (snd : e' ∈ j.regOperands)
      (shared : f.SameStorage e.2.reg e'.2.reg) (interferes : e.2.Interferes e'.2)
  | memory (fst : i.accessesMutable) (snd : j.accessesMutable)
      (touch : i.isGlobalAccess ∨ j.isGlobalAccess ∨ (conflicts i j ∧ OperandsTouch i j))

section

variable {s : Setup} {f : RegisterFile} {b b' : Builder} {r : Region} {g : Graph}

theorem RegisterFile.SameStorage.sharesStorage {a b : Reg} (h : f.SameStorage a b)
    (hregs : s.regs = f.info) : s.SharesStorage a b := by
  rcases h with ⟨ha, hab⟩ | ⟨ha, hb, hover⟩
  · exact .virtual ha (by simp [hregs, info, Reg.isPlain, ha]) hab
  · exact f.sharesStorage hregs ha hb hover

/-- Without an oracle, a finished graph has a path from each unit to every later one that depends
on it. -/
theorem Builder.path_of_dependent (hregs : s.regs = f.info)
    (htiming : s.timing.AdjustsLatencyOnly) (hb : b.Usable s)
    (hagree : ObjectsAgree (s.unitsOf r)) (h : b.buildRegion s r none = .ok (b', g)) {x y : Nat}
    (hxy : x < y) {i j : Instr} (hi : (s.unitsOf r)[x]? = some i) (hj : (s.unitsOf r)[y]? = some j)
    (hdep : f.Dependent i j) : g.Path (.unit x) (.unit y) := by
  obtain ⟨-, -, hregisters⟩ := b.path_of_registers hb h
  cases hdep with
  | barrier hbar => exact hregisters x y i j hxy hi hj (hbar.imp_right .inl)
  | register e e' he he' hshared hint =>
    exact hregisters x y i j hxy hi hj (.inr (.inr ⟨f.orderly hregs htiming,
      e, he, e', he', hint, hshared.sharesStorage hregs⟩))
  | memory hia hja htouch =>
    have hasked : ¬Separated none i j := by
      rintro ⟨oracle, ⟨⟩, -⟩
    rcases b.path_or_forgotten hb hagree h hxy hi hj hia hja
      (htouch.imp_right (Or.imp_right fun ⟨hc, ht⟩ => ⟨hc, ht, hasked⟩)) with
      hp | ⟨-, -, u, -, -, ho, -⟩
    · exact hp
    · exact absurd ho (Builder.not_overrun_none hb)

/-- Every accepted schedule means the same as the program order: when steps that do not depend on
each other can be exchanged, both end in the same state. -/
theorem executeAll_schedule_eq (hregs : s.regs = f.info) (htiming : s.timing.AdjustsLatencyOnly)
    (hb : b.Usable s) (hagree : ObjectsAgree (s.unitsOf r))
    (h : b.buildRegion s r none = .ok (b', g)) {schedule : List NodeId} {positions : List Nat}
    (hschedule : g.emitOrder schedule = .ok positions) {σ : Type u} {step : NodeId → σ → σ}
    (hcomm : ∀ x y i j, x < y → (s.unitsOf r)[x]? = some i → (s.unitsOf r)[y]? = some j →
      ¬f.Dependent i j → ∀ state,
      step (.unit x) (step (.unit y) state) = step (.unit y) (step (.unit x) state))
    (start : σ) : executeAll step schedule start =
      executeAll step ((List.range (s.unitsOf r).length).map .unit) start := by
  obtain ⟨hl, hsize, -⟩ := b.path_of_registers hb h
  obtain ⟨l, rfl, hperm, hpair⟩ := Graph.emitOrder_ok hl hschedule
  rw [hsize] at hperm
  have hkept : (l.map NodeId.unit).Pairwise fun a b => ¬g.Path b a := List.pairwise_map.mpr hpair
  refine executeAll_eq_of_perm (hperm.map _) ?_ hkept start
  refine List.pairwise_map.mpr (List.pairwise_lt_range.imp_of_mem fun {x y} hx hy hxy => ?_)
  obtain ⟨i, hi⟩ : ∃ i, (s.unitsOf r)[x]? = some i :=
    ⟨_, List.getElem?_eq_getElem (List.mem_range.mp hx)⟩
  obtain ⟨j, hj⟩ : ∃ j, (s.unitsOf r)[y]? = some j :=
    ⟨_, List.getElem?_eq_getElem (List.mem_range.mp hy)⟩
  by_cases hdep : f.Dependent i j
  · exact .inl (Builder.path_of_dependent hregs htiming hb hagree h hxy hi hj hdep)
  · exact .inr (hcomm x y i j hxy hi hj hdep)

/-- A copy of one register and a write of another may change places. -/
theorem executeAll_copy_eq :
    let f : RegisterFile := { count := 4 }
    let op : Instr := { opcode := "mov" }
    let s := Setup.straightLine f
      [op.withDef ⟨1⟩, (op.withDef ⟨2⟩).withUse ⟨1⟩, op.withDef ⟨3⟩]
    let step : NodeId → Nat × Nat × Nat → Nat × Nat × Nat
      | .unit 0, (_, v, w) => (5, v, w)
      | .unit 1, (u, _, w) => (u, u, w)
      | _, (u, v, _) => (u, v, 9)
    ∃ b' g positions, ({} : Builder).buildRegion s ⟨⟨0⟩, 0, 3⟩ none = .ok (b', g) ∧
      g.emitOrder [.unit 2, .unit 0, .unit 1] = .ok positions ∧
      executeAll step [.unit 2, .unit 0, .unit 1] (0, 0, 0) =
        executeAll step [.unit 0, .unit 1, .unit 2] (0, 0, 0) := by
  intro f op s step
  have hpositions : ((({} : Builder).buildRegion s ⟨⟨0⟩, 0, 3⟩ none).mapError Failure.fault).bind
      (fun p => p.2.emitOrder [.unit 2, .unit 0, .unit 1]) = .ok [2, 0, 1] := by cbv
  obtain ⟨⟨b', g⟩, h, hschedule⟩ := bind_eq_ok.mp hpositions
  replace h := Graph.lift_eq_ok.mp h
  refine ⟨b', g, _, h, hschedule, executeAll_schedule_eq (f := f) rfl Timing.adjustsLatencyOnly_unit
    .fresh (by decide) h hschedule (fun x y i j hxy hi hj hdep state => ?_) (0, 0, 0)⟩
  have hy : y < 3 := (List.getElem?_eq_some_iff.mp hj).1
  obtain ⟨rfl, rfl⟩ | ⟨rfl, rfl⟩ | ⟨rfl, rfl⟩ :
      (x = 0 ∧ y = 1) ∨ (x = 0 ∧ y = 2) ∨ (x = 1 ∧ y = 2) := by omega
  · cases hi
    cases hj
    refine absurd ?_ hdep
    exact .register (0, { reg := ⟨1⟩, isDef := true }) (1, { reg := ⟨1⟩ }) (by decide) (by decide)
      (.inr ⟨rfl, rfl, .inl rfl⟩) (.inl ⟨rfl, by decide, rfl⟩)
  · rfl
  · rfl

end

end Precedence
