import Precedence.Flow.Liveness
import Precedence.Proofs.Flow.Ways

/-!
Registers read before they are written. What is live before a run of instructions is either read in
it first, or is live behind it and not written in it; so a register is live at the start of a block
just when some way on from there reads it first.
-/
namespace Precedence

variable {r : Reg} {i : Instr} {instrs instrs' : List Instr} {s after : RegSet}

namespace RegSet

theorem mem_foldl_insert {regs : List Reg} :
    r ∈ (regs.foldl (fun s r => s.insert r) s).regs ↔ r ∈ regs ∨ r ∈ s.regs := by
  induction regs generalizing s with
  | nil => simp
  | cons t regs ih =>
    rw [List.foldl_cons, ih, insert, mem_insertReg, List.mem_cons, or_assoc, or_left_comm]

theorem mem_foldl_erase {regs : List Reg} :
    r ∈ (regs.foldl RegSet.erase s).regs ↔ r ∈ s.regs ∧ r ∉ regs := by
  induction regs generalizing s with
  | nil => simp
  | cons t regs ih =>
    rw [List.foldl_cons, ih, erase, List.mem_filter, bne_iff_ne, List.mem_cons, not_or, and_assoc]

theorem mem_foldl_union {sets : BlockId → RegSet} {bs : List BlockId} :
    r ∈ (bs.foldl (fun s b => s.union (sets b)) s).regs ↔
      r ∈ s.regs ∨ ∃ b ∈ bs, r ∈ (sets b).regs := by
  induction bs generalizing s with
  | nil => simp
  | cons b bs ih =>
    simp only [List.foldl_cons, ih, List.mem_cons, exists_eq_or_imp]
    rw [union, mem_unionRegs, or_assoc]

theorem nodup_regs : s.regs.Nodup := by
  refine s.ascending.imp fun hlt heq => ?_
  subst heq
  exact Nat.lt_irrefl _ hlt

theorem length_le {regs : List Reg} (h : s.regs ⊆ regs) : s.regs.length ≤ regs.length :=
  (nodup_regs.subperm h).length_le

/-- A set inside another one is smaller unless they are equal. -/
theorem eq_of_subset {t : RegSet} (h : s.regs ⊆ t.regs) (hlength : t.regs.length ≤ s.regs.length) :
    s = t := by
  have hperm : s.regs.Perm t.regs := (nodup_regs.subperm h).perm_of_length_le hlength
  have hregs : s.regs = t.regs := hperm.eq_of_pairwise
    (fun a b _ _ hab hba => absurd hab (Nat.lt_asymm hba)) s.ascending t.ascending
  obtain ⟨regs, _⟩ := s
  obtain ⟨regs', _⟩ := t
  obtain rfl : regs = regs' := hregs
  rfl

end RegSet

namespace Instr

theorem exists_operand_of_mem_uses (h : r ∈ i.uses) :
    ∃ o, Operand.reg o ∈ i.operands ∧ o.reg = r := by
  simp only [uses, useOperands, regOperands, List.mem_map, List.mem_filter, List.mem_filterMap,
    Option.bind_eq_some_iff] at h
  obtain ⟨e, ⟨⟨⟨operand, pos⟩, hmem, o, hreg, he⟩, -⟩, rfl⟩ := h
  obtain rfl : operand = .reg o := by
    cases operand <;> simp_all [Operand.reg?]
  obtain rfl : (pos, o) = e := by
    split at he <;> simp_all
  exact ⟨o, List.fst_mem_of_mem_zipIdx hmem, rfl⟩

/-- The instruction reads the register and is no debug value. -/
def Reads (i : Instr) (r : Reg) : Prop := i.isDebugValue = false ∧ r ∈ i.uses

/-- The instruction writes the register and is no debug value. -/
def Writes (i : Instr) (r : Reg) : Prop := i.isDebugValue = false ∧ r ∈ i.defs

theorem mem_liveBefore (hr : r.isVirtual = false) :
    r ∈ (i.liveBefore after).regs ↔ i.Reads r ∨ r ∈ after.regs ∧ ¬i.Writes r := by
  unfold liveBefore
  split
  next hdebug => simp [Reads, Writes, hdebug]
  next hdebug =>
    simp only [RegSet.mem_foldl_insert, RegSet.mem_foldl_erase, List.mem_filter, hr, Reads, Writes,
      Bool.eq_false_iff.mpr hdebug]
    simp

theorem isVirtual_of_mem_liveBefore (hafter : ∀ r ∈ after.regs, r.isVirtual = false)
    (h : r ∈ (i.liveBefore after).regs) : r.isVirtual = false := by
  unfold liveBefore at h
  split at h
  · exact hafter r h
  · rw [RegSet.mem_foldl_insert, RegSet.mem_foldl_erase] at h
    rcases h with h | ⟨h, -⟩
    · simpa using (List.mem_filter.mp h).2
    · exact hafter r h

end Instr

/-- Some instruction of the list reads the register, and none before it writes it. -/
def ReadsFirst (r : Reg) (instrs : List Instr) : Prop :=
  ∃ front i back, instrs = front ++ i :: back ∧ i.Reads r ∧ ∀ j ∈ front, ¬j.Writes r

theorem not_readsFirst_nil : ¬ReadsFirst r [] := by
  rintro ⟨front, i, back, h, -⟩
  simp at h

theorem readsFirst_cons :
    ReadsFirst r (i :: instrs) ↔ i.Reads r ∨ ¬i.Writes r ∧ ReadsFirst r instrs := by
  constructor
  · rintro ⟨front, j, back, heq, hj, hfront⟩
    cases front with
    | nil =>
      obtain ⟨rfl, rfl⟩ := List.cons.inj heq
      exact .inl hj
    | cons k front =>
      obtain ⟨rfl, rfl⟩ := List.cons.inj heq
      rw [List.forall_mem_cons] at hfront
      exact .inr ⟨hfront.1, front, j, back, rfl, hj, hfront.2⟩
  · rintro (hi | ⟨hi, front, j, back, rfl, hj, hfront⟩)
    · exact ⟨[], i, instrs, rfl, hi, by simp⟩
    · exact ⟨i :: front, j, back, rfl, hj, List.forall_mem_cons.mpr ⟨hi, hfront⟩⟩

theorem readsFirst_append : ReadsFirst r (instrs ++ instrs') ↔
    ReadsFirst r instrs ∨ (∀ i ∈ instrs, ¬i.Writes r) ∧ ReadsFirst r instrs' := by
  induction instrs with
  | nil => simp [not_readsFirst_nil]
  | cons i instrs ih =>
    rw [List.cons_append, readsFirst_cons, readsFirst_cons, ih, List.forall_mem_cons]
    tauto

theorem mem_liveBeforeAll (hr : r.isVirtual = false) :
    r ∈ (liveBeforeAll after instrs).regs ↔
      ReadsFirst r instrs ∨ r ∈ after.regs ∧ ∀ i ∈ instrs, ¬i.Writes r := by
  induction instrs with
  | nil => simp [liveBeforeAll, not_readsFirst_nil]
  | cons i instrs ih =>
    rw [liveBeforeAll, List.foldr_cons, ← liveBeforeAll, Instr.mem_liveBefore hr, ih,
      readsFirst_cons, List.forall_mem_cons]
    tauto

theorem isVirtual_of_mem_liveBeforeAll (hafter : ∀ r ∈ after.regs, r.isVirtual = false)
    (h : r ∈ (liveBeforeAll after instrs).regs) : r.isVirtual = false := by
  induction instrs generalizing r with
  | nil => exact hafter r h
  | cons i instrs ih => exact Instr.isVirtual_of_mem_liveBefore (fun _ => ih) h

namespace Function

variable {f : Function} {b : BlockId}

/-- The instructions of the block that bears a name. -/
def instrsOf (f : Function) (b : BlockId) : List Instr :=
  ((f.blocks.find? fun c => c.id == b).map fun c => c.instrs.toList).getD []

theorem instrsOf_eq {block : Block} (h : f.block b = .ok block) :
    f.instrsOf b = block.instrs.toList := by
  unfold Function.block at h
  split at h
  next c hfind =>
    cases h
    rw [instrsOf, hfind, Option.map_some, Option.getD_some]
  next => cases h

/-- On some way from the start of the block on, the register is read before it is written. -/
def Live (f : Function) (r : Reg) (b : BlockId) : Prop :=
  ∃ c way, Way f.Edge b c way ∧ ReadsFirst r (way.flatMap f.instrsOf)

/-- A register that is live is read in the block itself, or it is live at the start of a successor
and not written in between. -/
theorem live_iff : f.Live r b ↔ ReadsFirst r (f.instrsOf b) ∨
    (∀ i ∈ f.instrsOf b, ¬i.Writes r) ∧ ∃ c, f.Edge b c ∧ f.Live r c := by
  constructor
  · rintro ⟨d, way, hway, hreads⟩
    cases hway with
    | stay => exact .inl (by simpa using hreads)
    | @go _ c _ way hedge hrest =>
      rw [List.flatMap_cons, readsFirst_append] at hreads
      exact hreads.imp_right fun ⟨hnone, hreads⟩ => ⟨hnone, c, hedge, d, way, hrest, hreads⟩
  · rintro (hreads | ⟨hnone, c, hedge, d, way, hway, hreads⟩)
    · exact ⟨b, [b], .stay b, by simpa using hreads⟩
    · refine ⟨d, b :: way, .go hedge hway, ?_⟩
      rw [List.flatMap_cons, readsFirst_append]
      exact .inr ⟨hnone, hreads⟩

/-- The registers that operands name, one entry for each register operand. -/
def namedRegs (f : Function) : List Reg :=
  (f.blocks.flatMap fun b => b.instrs.toList.flatMap fun i => i.operands).filterMap fun o =>
    o.reg?.map RegOperand.reg

theorem Live.mem_namedRegs (h : f.Live r b) : r ∈ f.namedRegs := by
  obtain ⟨-, way, -, front, i, back, heq, ⟨-, hread⟩, -⟩ := h
  have hi : i ∈ way.flatMap f.instrsOf := heq ▸ by simp
  obtain ⟨c, -, hi⟩ := List.mem_flatMap.mp hi
  obtain ⟨block, hblock, hi⟩ : ∃ block ∈ f.blocks, i ∈ block.instrs.toList := by
    unfold instrsOf at hi
    cases hfind : f.blocks.find? fun b => b.id == c with
    | none => simp [hfind] at hi
    | some block => exact ⟨block, List.mem_of_find?_eq_some hfind, by simpa [hfind] using hi⟩
  obtain ⟨o, ho, rfl⟩ := i.exists_operand_of_mem_uses hread
  exact List.mem_filterMap.mpr ⟨.reg o, List.mem_flatMap.mpr
    ⟨block, hblock, List.mem_flatMap.mpr ⟨i, hi, ho⟩⟩, rfl⟩

end Function

end Precedence
