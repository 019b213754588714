import Precedence.Proofs.Walk.Course

/-!
What a whole instruction does to the knowledge of one register and to the edges that carry it. Its
writes come first: they are linked to the readers and writers known so far and hide them. Its reads
are then linked to the writers that are left, and the instruction becomes a reader itself.
-/
namespace Precedence

/-- A barrier makes the walk forget the units that read a register, if it is a physical one. -/
def Setup.Forgets (s : Setup) (a : Reg) (i : Instr) : Prop := s.regs.isPhysical a ∧ i.isBarrier

section

variable {s : Setup} {units : List Instr} {su pos : Nat} {i : Instr} {o : RegOperand}
  {p q : RegState × Draft} {a : Reg} {x n : NodeId} {k : Kind}

namespace Setup.SharesStorage

variable {a' : Reg}

theorem physical_iff (hp : s.regs.isPhysical a) {shared : List Reg}
    (hshared : s.regs.overlaps a = .ok shared) :
    s.SharesStorage a a' ↔ s.regs.isPhysical a' ∧ a' ∈ shared := by
  constructor
  · intro h
    cases h with
    | physical _ hp' hmem => exact ⟨classify_eq_physical.mp hp', hmem shared hshared⟩
    | virtual _ hnot => exact absurd hp hnot
  · rintro ⟨hp', hmem⟩
    refine .physical (classify_eq_physical.mpr hp) (classify_eq_physical.mpr hp') fun l hl => ?_
    rw [hshared, Except.ok.injEq] at hl
    exact hl ▸ hmem

theorem virtual_iff (hp : ¬s.regs.isPhysical a) (hv : a.isVirtual) :
    s.SharesStorage a a' ↔ a' = a := by
  constructor
  · intro h
    cases h with
    | physical hnot => exact absurd (classify_eq_physical.mp hnot) hp
    | virtual _ _ hsame => exact hsame
  · exact .virtual hv hp

theorem unknown_iff (hp : ¬s.regs.isPhysical a) (hv : ¬a.isVirtual) :
    s.SharesStorage a a' ↔ False := by
  constructor
  · intro h
    cases h with
    | physical hnot => exact hp (classify_eq_physical.mp hnot)
    | virtual hnot => exact hv hnot
  · exact False.elim

/-- A virtual register shares storage with no other one. -/
theorem iff_eq (hv : a.isVirtual) (hp : ¬s.regs.isPhysical a) :
    s.SharesStorage a' a ↔ a' = a := by
  constructor
  · intro h
    cases h with
    | physical _ hnot => exact absurd (classify_eq_physical.mp hnot) hp
    | virtual _ _ hsame => exact hsame.symm
  · rintro rfl
    exact .virtual hv hp rfl

theorem exists_iff_mem (hv : a.isVirtual) (hp : ¬s.regs.isPhysical a)
    {l : List (Nat × RegOperand)} :
    (∃ e ∈ l, s.SharesStorage e.2.reg a) ↔ a ∈ l.map fun e => e.2.reg := by
  simp [iff_eq hv hp]

end Setup.SharesStorage

/-! One operand -/

/-- A write is linked to the known readers and writers of all registers that share its
storage. -/
theorem OperandWritten.edge_iff (h : OperandWritten s units su i o p q) (ht : p.1.Tidy s) :
    q.2.graph.HasEdge x n k (some a) ↔ p.2.graph.HasEdge x n k (some a) ∨
      (x = .unit su ∧ n ≠ .unit su ∧ s.SharesStorage o.reg a ∧ ((k = .data ∧ n ∈ p.1.readers s a) ∨
        (k = .output ∧ n ∈ p.1.writers s a ∧
          (s.regs.isPhysical a → WriteMatters units o a n)))) := by
  cases h with
  | physical hp t shared hshared _ _ hadds =>
    rw [hadds.edge_iff, Setup.SharesStorage.physical_iff hp hshared]
    refine or_congr_right ⟨?_, ?_⟩
    · rintro ⟨rfl, hne, a', hmem, heq, hk⟩
      obtain rfl := Option.some.inj heq
      -- what is recorded for a register in the tracker makes it a physical one
      have hpa : s.regs.isPhysical a := by
        rcases hk with ⟨-, hn, -⟩ | ⟨-, hn⟩
        · exact ht.isPhysical (.inr hn)
        · exact ht.isPhysical (.inl hn)
      refine ⟨rfl, hne, ⟨hpa, hmem⟩, ?_⟩
      rw [RegState.readers, RegState.writers, if_pos hpa, if_pos hpa]
      refine hk.symm.imp_right ?_
      rintro ⟨rfl, hn, hm⟩
      exact ⟨rfl, hn, fun _ => hm⟩
    · rintro ⟨rfl, hne, ⟨hpa, hmem⟩, hk⟩
      simp only [RegState.readers, RegState.writers, if_pos hpa] at hk
      refine ⟨rfl, hne, a, hmem, rfl, hk.symm.imp_left ?_⟩
      rintro ⟨rfl, hn, hm⟩
      exact ⟨rfl, hn, hm hpa⟩
  | virtual hp hv _ hadds =>
    rw [hadds.edge_iff, Setup.SharesStorage.virtual_iff hp hv]
    refine or_congr_right ⟨?_, ?_⟩
    · rintro ⟨rfl, hne, heq, hk⟩
      obtain rfl := Option.some.inj heq
      refine ⟨rfl, hne, rfl, ?_⟩
      rw [RegState.readers, RegState.writers, if_neg hp, if_neg hp, Option.mem_toList]
      refine hk.imp_right ?_
      rintro ⟨hk, hn⟩
      exact ⟨hk, hn, fun hpo => absurd hpo hp⟩
    · rintro ⟨rfl, hne, rfl, hk⟩
      simp only [RegState.readers, RegState.writers, if_neg hp, Option.mem_toList] at hk
      refine ⟨rfl, hne, rfl, hk.imp_right ?_⟩
      rintro ⟨hk, hn, -⟩
      exact ⟨hk, hn⟩
  | unknown hp hv hsame =>
    subst hsame
    simp [Setup.SharesStorage.unknown_iff hp hv]

/-- A read is linked to the known writers of all registers that share its storage. -/
theorem OperandRead.edge_iff (h : OperandRead s su pos o p q) (ht : p.1.Tidy s) :
    q.2.graph.HasEdge x n k (some a) ↔ p.2.graph.HasEdge x n k (some a) ∨
      (x = .unit su ∧ n ≠ .unit su ∧ n ≠ .exit ∧ k = .anti ∧ s.SharesStorage o.reg a ∧
        n ∈ p.1.writers s a) := by
  cases h with
  | physical hp t shared hshared _ _ _ hadds =>
    rw [hadds.edge_iff, Setup.SharesStorage.physical_iff hp hshared]
    refine or_congr_right ⟨?_, ?_⟩
    · rintro ⟨rfl, hne, hexit, rfl, a', hmem, heq, hn⟩
      obtain rfl := Option.some.inj heq
      have hpa := ht.isPhysical (.inr hn)
      exact ⟨rfl, hne, hexit, rfl, ⟨hpa, hmem⟩, by simpa [RegState.writers, hpa] using hn⟩
    · rintro ⟨rfl, hne, hexit, rfl, ⟨hpa, hmem⟩, hn⟩
      exact ⟨rfl, hne, hexit, rfl, a, hmem, rfl, by simpa [RegState.writers, hpa] using hn⟩
  | virtual hp hv _ _ _ hadds =>
    rw [hadds.edge_iff, Setup.SharesStorage.virtual_iff hp hv]
    refine or_congr_right ⟨?_, ?_⟩
    · rintro ⟨rfl, hne, hexit, heq, rfl, hn⟩
      obtain rfl := Option.some.inj heq
      exact ⟨rfl, hne, hexit, rfl, rfl, by simpa [RegState.writers, hp] using hn⟩
    · rintro ⟨rfl, hne, hexit, rfl, rfl, hn⟩
      exact ⟨rfl, hne, hexit, rfl, rfl, by simpa [RegState.writers, hp] using hn⟩
  | unknown hp hv hsame =>
    subst hsame
    simp [Setup.SharesStorage.unknown_iff hp hv]

/-- A write of a virtual register takes the place of the writers known before. -/
theorem OperandWritten.writers_of_virtual (h : OperandWritten s units su i o p q)
    (hv : a.isVirtual) (hp : ¬s.regs.isPhysical a) :
    q.1.writers s a = if a = o.reg then [.unit su] else p.1.writers s a := by
  simp only [RegState.writers, if_neg hp]
  cases h with
  | physical hpo t _ _ _ hregs _ =>
    have hne : a ≠ o.reg := fun heq => hp (heq ▸ hpo)
    rw [hregs, if_neg hne]
  | virtual hpo hvo hwritten _ =>
    rw [hwritten.defs]
    by_cases heq : a = o.reg
    · simp [heq]
    · have hpos : a.virtualPosition ≠ o.reg.virtualPosition :=
        fun h => heq (Reg.virtualPosition_inj hv hvo h)
      rw [Function.update_of_ne hpos, if_neg heq]
  | unknown hpo hvo hsame =>
    have hne : a ≠ o.reg := fun heq => hvo (heq ▸ hv)
    rw [hsame, if_neg hne]

/-- The target does not forget to say that a physical register shares its own storage. -/
def Setup.SharesOwn (s : Setup) (a : Reg) : Prop :=
  s.regs.isPhysical a → ∀ shared, s.regs.overlaps a = .ok shared → a ∈ shared

theorem OperandWritten.sharesStorage_self (h : OperandWritten s units su i o p q) (ha : s.Tracks o.reg)
    (hself : s.SharesOwn o.reg) : s.SharesStorage o.reg o.reg := by
  cases h with
  | physical hp t shared hshared =>
    exact (Setup.SharesStorage.physical_iff hp hshared).mpr ⟨hp, hself hp shared hshared⟩
  | virtual hp hv => exact .virtual hv hp rfl
  | unknown hp hv => exact absurd ha (not_or.mpr ⟨hp, hv⟩)

/-! All written operands -/

section

variable {l : List (Nat × RegOperand)} (h : Rounds (fun e => OperandWritten s units su i e.2) l p q)

include h

theorem tidy_of_written (ht : p.1.Tidy s) : q.1.Tidy s := by
  induction h with
  | nil p => exact ht
  | cons first _ ih => exact ih (first.tidy ht)

theorem readers_of_written (ha : s.Tracks a) :
    q.1.readers s a = if a ∈ l.map (fun e => e.2.reg) then [] else p.1.readers s a := by
  induction h with
  | nil p => simp
  | @cons e l p p' q first _ ih =>
    rw [ih, first.readers ha]
    by_cases heq : a = e.2.reg
    · simp [heq]
    · simp only [List.map_cons, List.mem_cons, heq, false_or, if_false]

theorem writers_of_written (hv : a.isVirtual) (hp : ¬s.regs.isPhysical a) :
    q.1.writers s a =
      if a ∈ l.map (fun e => e.2.reg) then [.unit su] else p.1.writers s a := by
  induction h with
  | nil p => simp
  | @cons e l p p' q first _ ih =>
    rw [ih, first.writers_of_virtual hv hp]
    by_cases heq : a = e.2.reg
    · simp [heq]
    · simp only [List.map_cons, List.mem_cons, heq, false_or, if_false]

/-- The writes are linked to the readers known before the first of them. A later write of the same
register finds them gone, but then they have their edges already. -/
theorem data_of_written (ht : p.1.Tidy s) (ha : s.Tracks a) (hself : s.SharesOwn a) :
    q.2.graph.HasEdge x n .data (some a) ↔ p.2.graph.HasEdge x n .data (some a) ∨
      (x = .unit su ∧ n ≠ .unit su ∧ n ∈ p.1.readers s a ∧ ∃ e ∈ l, s.SharesStorage e.2.reg a) := by
  induction h with
  | nil p => simp
  | @cons e l p p' q first _ ih =>
    rw [ih (first.tidy ht), first.edge_iff ht, first.readers ha]
    by_cases heq : a = e.2.reg
    · subst heq
      simp [first.sharesStorage_self ha hself]
    · simp only [if_neg heq, List.mem_cons, exists_eq_or_imp, reduceCtorEq, false_and, or_false,
        true_and]
      tauto

/-- Only the first write of a virtual register finds the writers known before. -/
theorem output_of_written (ht : p.1.Tidy s) (hv : a.isVirtual) (hp : ¬s.regs.isPhysical a) :
    q.2.graph.HasEdge x n .output (some a) ↔ p.2.graph.HasEdge x n .output (some a) ∨
      (x = .unit su ∧ n ≠ .unit su ∧ n ∈ p.1.writers s a ∧ a ∈ l.map fun e => e.2.reg) := by
  induction h with
  | nil p => simp
  | @cons e l p p' q first _ ih =>
    rw [ih (first.tidy ht), first.edge_iff ht, first.writers_of_virtual hv hp]
    by_cases heq : a = e.2.reg
    · subst heq
      have hshare : s.SharesStorage e.2.reg e.2.reg := .virtual hv hp rfl
      simp only [hshare, hp, if_true, List.map_cons, List.mem_cons, true_or, reduceCtorEq,
        false_and, false_or, Bool.false_eq_true, false_implies, and_true, true_and]
      tauto
    · have hshare : ¬s.SharesStorage e.2.reg a := by
        rw [Setup.SharesStorage.iff_eq hv hp]
        exact fun h => heq h.symm
      simp [heq, hshare]

theorem edge_of_written (ht : p.1.Tidy s) (hdata : k ≠ .data) (houtput : k ≠ .output) :
    q.2.graph.HasEdge x n k (some a) ↔ p.2.graph.HasEdge x n k (some a) := by
  induction h with
  | nil p => rfl
  | @cons e l p p' q first _ ih =>
    rw [ih (first.tidy ht), first.edge_iff ht]
    simp [hdata, houtput]

end

/-! All read operands -/

/-- The reads are linked to the writers that the writes have left, all of them to the same ones. -/
theorem edge_of_read {l : List (Nat × RegOperand)}
    (h : Rounds (fun e => OperandRead s su e.1 e.2) l p q) (ht : p.1.Tidy s) :
    q.2.graph.HasEdge x n k (some a) ↔ p.2.graph.HasEdge x n k (some a) ∨
      (x = .unit su ∧ n ≠ .unit su ∧ n ≠ .exit ∧ k = .anti ∧ (∃ e ∈ l, s.SharesStorage e.2.reg a) ∧
        n ∈ p.1.writers s a) := by
  induction h with
  | nil p => simp
  | @cons e l p p' q first _ ih =>
    rw [ih (first.readBy.tidy ht), first.edge_iff ht, first.readBy.writers]
    simp only [List.mem_cons, exists_eq_or_imp]
    tauto

end

/-! One instruction -/

namespace Walk.Stepped

variable {s : Setup} {b : Block} {oracle : Option Oracle} {units : List Instr} {su : Nat}
  {i : Instr} {w w' : Walk} {r : RegState} {d₁ d₂ : Draft} {a : Reg} {x n : NodeId} {k : Kind}

/-- Barriers and memory add no edges that carry a register. -/
theorem edge_iff_registers (h : Stepped s b oracle units su i w w' r d₁ d₂) :
    w'.draft.graph.HasEdge x n k (some a) ↔ d₁.graph.HasEdge x n k (some a) := by
  constructor
  · intro he
    have hmemory := h.memory.adds (P := fun _ => True) (fun _ _ _ _ _ _ _ _ _ => trivial)
      fun _ _ => trivial
    rcases hmemory.edge _ _ _ _ he with he | ⟨-, hnone, -⟩ | ⟨-, -, -, hnone⟩
    · rcases h.barriers.adds.edge _ _ _ _ he with he | ⟨-, hnone, -⟩
      · exact he
      · cases hnone
    · cases hnone
    · cases hnone
  · exact (h.barriers.grows.trans h.memory.grows).edges _ _ _ _

section

variable (h : Stepped s b oracle units su i w w' r d₁ d₂) (ht : s.timing.AdjustsLatencyOnly)
  (hw : w.Sound b oracle units (su + 1)) (hi : units[su]? = some i) (htidy : w.regs.Tidy s)

include h ht hw hi htidy

theorem data_iff (ha : s.Tracks a) (hself : s.SharesOwn a) :
    w'.draft.graph.HasEdge x n .data (some a) ↔ w.draft.graph.HasEdge x n .data (some a) ∨
      (x = .unit su ∧ n ≠ .unit su ∧ n ∈ w.regs.readers s a ∧
        ∃ e ∈ i.defOperands, s.SharesStorage e.2.reg a) := by
  obtain ⟨-, p, hwritten, hread⟩ := h.rounds ht hw hi htidy
  rw [h.edge_iff_registers, edge_of_read hread (tidy_of_written hwritten htidy),
    data_of_written hwritten htidy ha hself]
  simp

/-- The exit stays a reader until a write hides it; the units in front of a barrier do not see those
behind it. -/
theorem mem_readers (ha : s.Tracks a) : n ∈ w'.regs.readers s a ↔
    (n ∈ w.regs.readers s a ∧ a ∉ i.defs ∧ (n = .exit ∨ ¬s.Forgets a i)) ∨
      (n = .unit su ∧ a ∈ i.uses) := by
  obtain ⟨-, p, hwritten, hread⟩ := h.rounds ht hw hi htidy
  have hregisters : ∀ m, m ∈ r.readers s a ↔
      (m ∈ w.regs.readers s a ∧ a ∉ i.defs) ∨ (m = .unit su ∧ a ∈ i.uses) := by
    intro m
    have hby := ReadBy.of_rounds Prod.fst (fun e a => a = e.2.reg)
      (fun _ _ _ hround => OperandRead.readBy hround) hread
    rw [hby.readers a ha, readers_of_written hwritten ha, Instr.defs, Instr.uses]
    by_cases hdef : a ∈ i.defOperands.map fun e => e.2.reg <;> simp [hdef, eq_comm]
  by_cases hforget : s.Forgets a i
  · obtain ⟨hp, hbar⟩ := hforget
    have hrestart := (h.tracker_restarted hbar).uses_iff a n
    have hexit := hregisters .exit
    simp only [RegState.readers, if_pos hp] at hexit ⊢
    rw [hrestart, hexit]
    simp only [Setup.Forgets, hp, hbar]
    constructor
    · rintro (⟨rfl, ⟨hn, hdef⟩ | ⟨hnot, -⟩⟩ | ⟨-, huse, rfl⟩)
      · exact .inl ⟨hn, hdef, .inl rfl⟩
      · cases hnot
      · exact .inr ⟨rfl, huse⟩
    · rintro (⟨hn, hdef, rfl | hnot⟩ | ⟨rfl, huse⟩)
      · exact .inl ⟨rfl, .inl ⟨hn, hdef⟩⟩
      · exact absurd ⟨trivial, trivial⟩ hnot
      · exact .inr ⟨trivial, huse, rfl⟩
  · have hkeep : w'.regs.readers s a = r.readers s a := by
      by_cases hbar : i.isBarrier
      · have hp : ¬s.regs.isPhysical a := fun hp => hforget ⟨hp, hbar⟩
        rw [h.virtual]
        simp only [RegState.readers, if_neg hp]
      · rw [h.regs_eq hbar]
    rw [hkeep, hregisters]
    simp [hforget]

theorem other_iff (hdata : k ≠ .data) (houtput : k ≠ .output) (hanti : k ≠ .anti) :
    w'.draft.graph.HasEdge x n k (some a) ↔ w.draft.graph.HasEdge x n k (some a) := by
  obtain ⟨-, p, hwritten, hread⟩ := h.rounds ht hw hi htidy
  rw [h.edge_iff_registers, edge_of_read hread (tidy_of_written hwritten htidy),
    edge_of_written hwritten htidy hdata houtput]
  simp [hanti]

variable (hv : a.isVirtual) (hp : ¬s.regs.isPhysical a)

include hv hp

theorem writers_of_virtual :
    w'.regs.writers s a = if a ∈ i.defs then [.unit su] else w.regs.writers s a := by
  obtain ⟨-, p, hwritten, hread⟩ := h.rounds ht hw hi htidy
  have hby := ReadBy.of_rounds Prod.fst (fun e a => a = e.2.reg)
    (fun _ _ _ hround => OperandRead.readBy hround) hread
  have hkeep : w'.regs.writers s a = r.writers s a := by
    rw [h.virtual]
    simp only [RegState.writers, if_neg hp]
  rw [hkeep, hby.writers, writers_of_written hwritten hv hp, Instr.defs]

theorem output_iff : w'.draft.graph.HasEdge x n .output (some a) ↔
    w.draft.graph.HasEdge x n .output (some a) ∨
      (x = .unit su ∧ n ≠ .unit su ∧ n ∈ w.regs.writers s a ∧ a ∈ i.defs) := by
  obtain ⟨-, p, hwritten, hread⟩ := h.rounds ht hw hi htidy
  rw [h.edge_iff_registers, edge_of_read hread (tidy_of_written hwritten htidy),
    output_of_written hwritten htidy hv hp, Instr.defs]
  simp

/-- An instruction that also writes the register finds no writer but itself. -/
theorem anti_iff : w'.draft.graph.HasEdge x n .anti (some a) ↔
    w.draft.graph.HasEdge x n .anti (some a) ∨
      (x = .unit su ∧ n ≠ .unit su ∧ n ≠ .exit ∧ n ∈ w.regs.writers s a ∧ a ∈ i.uses ∧
        a ∉ i.defs) := by
  obtain ⟨-, p, hwritten, hread⟩ := h.rounds ht hw hi htidy
  rw [h.edge_iff_registers, edge_of_read hread (tidy_of_written hwritten htidy),
    edge_of_written (k := .anti) hwritten htidy nofun nofun, writers_of_written hwritten hv hp,
    Setup.SharesStorage.exists_iff_mem hv hp, Instr.defs, Instr.uses]
  by_cases hdef : a ∈ i.defOperands.map fun e => e.2.reg
  · simp only [if_pos hdef, List.mem_singleton]
    tauto
  · simp only [if_neg hdef]
    tauto

end

end Walk.Stepped

end Precedence
