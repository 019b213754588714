import Precedence.Proofs.Order.Registers
import Precedence.Proofs.Walk.Reaching

/-!
Where values go. The walk meets the readers of a register before its writers, so at every unit the
readers it knows are those that a value written there would reach. The edges that carry a register
are therefore exactly those that the text of the region asks for.
-/
namespace Precedence

/-- Unit `x` writes a register. -/
def WritesAt (units : List Instr) (a : Reg) (x : Nat) : Prop :=
  ∃ i, units[x]? = some i ∧ a ∈ i.defs

/-- Unit `x` reads a register. -/
def ReadsAt (units : List Instr) (a : Reg) (x : Nat) : Prop :=
  ∃ i, units[x]? = some i ∧ a ∈ i.uses

/-- A value that register `a` holds in front of unit `k` is read in a node: no write is in between,
and nothing that hides the reading unit; the exit is hidden by writes alone. -/
def ReadFrom (units : List Instr) (hides : Instr → Prop) (atExit : Prop) (a : Reg) (k : Nat) :
    NodeId → Prop
  | .unit y => ReadsAt units a y ∧ InSight units (fun i => a ∈ i.defs ∨ hides i) k y
  | .exit => atExit ∧ ∀ z i, k ≤ z → units[z]? = some i → a ∉ i.defs

/-- The first write of a register from unit `k` on. -/
def FirstWrite (units : List Instr) (a : Reg) (k : Nat) : NodeId → Prop
  | .unit y => WritesAt units a y ∧ InSight units (fun i => a ∈ i.defs) k y
  | .exit => False

section

variable {units : List Instr} {hides : Instr → Prop} {atExit : Prop} {a : Reg} {su : Nat}
  {i : Instr} {n : NodeId}

theorem readFrom_length :
    ReadFrom units hides atExit a units.length n ↔ n = .exit ∧ atExit := by
  cases n with
  | exit =>
    simp only [ReadFrom, true_and, and_iff_left_iff_imp]
    exact fun _ z j hz hj => absurd hj (not_unit_of_length_le hz)
  | unit y =>
    simp only [ReadFrom, reduceCtorEq, false_and, iff_false]
    rintro ⟨⟨j, hj, -⟩, hle, -⟩
    exact not_unit_of_length_le hle hj

theorem readFrom_iff (hi : units[su]? = some i) : ReadFrom units hides atExit a su n ↔
    (ReadFrom units hides atExit a (su + 1) n ∧ a ∉ i.defs ∧ (n = .exit ∨ ¬hides i)) ∨
      (n = .unit su ∧ a ∈ i.uses) := by
  cases n with
  | exit =>
    constructor
    · rintro ⟨hexit, hno⟩
      exact .inl ⟨⟨hexit, fun z j hz => hno z j (by omega)⟩, hno su i le_rfl hi, .inl rfl⟩
    · rintro (⟨⟨hexit, hno⟩, hdef, -⟩ | ⟨hnot, -⟩)
      · refine ⟨hexit, fun z j hz hj => ?_⟩
        rcases this_or_later hi hz hj with ⟨-, rfl⟩ | hz
        · exact hdef
        · exact hno z j hz hj
      · cases hnot
  | unit y =>
    simp only [ReadFrom, inSight_iff hi, reduceCtorEq, false_or, NodeId.unit.injEq, not_or]
    constructor
    · rintro ⟨hread, rfl | ⟨⟨hdef, hhide⟩, hsight⟩⟩
      · obtain ⟨j, hj, huse⟩ := hread
        obtain rfl := Option.some.inj (hj.symm.trans hi)
        exact .inr ⟨rfl, huse⟩
      · exact .inl ⟨⟨hread, hsight⟩, hdef, hhide⟩
    · rintro (⟨⟨hread, hsight⟩, hdef, hhide⟩ | ⟨rfl, huse⟩)
      · exact ⟨hread, .inr ⟨⟨hdef, hhide⟩, hsight⟩⟩
      · exact ⟨⟨i, hi, huse⟩, .inl rfl⟩

theorem ReadFrom.ne (h : ReadFrom units hides atExit a (su + 1) n) : n ≠ .unit su := by
  rintro rfl
  obtain ⟨-, hle, -⟩ := h
  omega

theorem firstWrite_length : ¬FirstWrite units a units.length n := by
  cases n with
  | exit => exact id
  | unit y =>
    rintro ⟨⟨j, hj, -⟩, hle, -⟩
    exact not_unit_of_length_le hle hj

theorem firstWrite_iff (hi : units[su]? = some i) : FirstWrite units a su n ↔
    (FirstWrite units a (su + 1) n ∧ a ∉ i.defs) ∨ (n = .unit su ∧ a ∈ i.defs) := by
  cases n with
  | exit => simp [FirstWrite]
  | unit y =>
    simp only [FirstWrite, inSight_iff hi, NodeId.unit.injEq]
    constructor
    · rintro ⟨hwrite, rfl | ⟨hdef, hsight⟩⟩
      · obtain ⟨j, hj, hdef⟩ := hwrite
        obtain rfl := Option.some.inj (hj.symm.trans hi)
        exact .inr ⟨rfl, hdef⟩
      · exact .inl ⟨⟨hwrite, hsight⟩, hdef⟩
    · rintro (⟨⟨hwrite, hsight⟩, hdef⟩ | ⟨rfl, hdef⟩)
      · exact ⟨hwrite, .inr ⟨hdef, hsight⟩⟩
      · exact ⟨⟨i, hi, hdef⟩, .inl rfl⟩

theorem FirstWrite.ne (h : FirstWrite units a (su + 1) n) : n ≠ .unit su ∧ n ≠ .exit := by
  constructor
  · rintro rfl
    obtain ⟨-, hle, -⟩ := h
    omega
  · rintro rfl
    exact h

/-- The edges of one kind that carry register `a` are those from the units `x`, from `k` on, to the
nodes that `Q` relates `x` to. -/
def Graph.EdgesFrom (g : Graph) (kind : Kind) (a : Reg) (k : Nat) (Q : Nat → NodeId → Prop) : Prop :=
  ∀ p n, g.HasEdge p n kind (some a) ↔ ∃ x, p = .unit x ∧ k ≤ x ∧ Q x n

theorem Graph.EdgesFrom.step {g g' : Graph} {kind : Kind} {Q : Nat → NodeId → Prop}
    (h : g.EdgesFrom kind a (su + 1) Q) (hnew : ∀ p n, g'.HasEdge p n kind (some a) ↔
      g.HasEdge p n kind (some a) ∨ (p = .unit su ∧ Q su n)) : g'.EdgesFrom kind a su Q := by
  intro p n
  rw [hnew, h p n]
  constructor
  · rintro (⟨x, rfl, hx, hQ⟩ | ⟨rfl, hQ⟩)
    · exact ⟨x, rfl, by omega, hQ⟩
    · exact ⟨su, rfl, le_rfl, hQ⟩
  · rintro ⟨x, rfl, hx, hQ⟩
    rcases Nat.eq_or_lt_of_le hx with rfl | hx
    · exact .inr ⟨rfl, hQ⟩
    · exact .inl ⟨x, rfl, hx, hQ⟩

theorem Graph.EdgesFrom.iff_exists {g : Graph} {kind : Kind} {Q : Nat → NodeId → Prop}
    (h : g.EdgesFrom kind a 0 Q) (p n : NodeId) :
    g.HasEdge p n kind (some a) ↔ ∃ x, p = .unit x ∧ Q x n := by
  simpa using h p n

theorem Graph.EdgesFrom.unit_iff {g : Graph} {kind : Kind} {Q : Nat → NodeId → Prop}
    (h : g.EdgesFrom kind a 0 Q) (x : Nat) (n : NodeId) :
    g.HasEdge (.unit x) n kind (some a) ↔ Q x n := by
  simp [h.iff_exists]

end

namespace Walk.Course

variable {s : Setup} {r : Region} {oracle : Option Oracle} {block : Block} {first last : Walk}
  {a : Reg} {p n : NodeId}

/-- Before the walk there are no edges, and no unit is left that could have one. -/
theorem edgesFrom_first (h : Course s r oracle block first last) {kind : Kind}
    {Q : Nat → NodeId → Prop} (hQ : ∀ x m, Q x m → ∃ i, (s.unitsOf r)[x]? = some i) :
    first.draft.graph.EdgesFrom kind a (s.unitsOf r).length Q := by
  intro p m
  refine iff_of_false h.no_edges ?_
  rintro ⟨x, -, hx, hxm⟩
  obtain ⟨i, hi⟩ := hQ x m hxm
  exact not_unit_of_length_le hx hi

end Walk.Course

/-- What the walk has done for the values of a register from unit `k` on: it knows their readers,
and every write of the storage has its edges to them. -/
structure ValuesLinked (s : Setup) (units : List Instr) (atExit : Prop) (a : Reg) (k : Nat)
    (w : Walk) : Prop where
  readers : ∀ n, n ∈ w.regs.readers s a ↔ ReadFrom units (s.Forgets a) atExit a k n
  data : w.draft.graph.EdgesFrom .data a k fun x n =>
    (∃ i, units[x]? = some i ∧ ∃ e ∈ i.defOperands, s.SharesStorage e.2.reg a) ∧
      ReadFrom units (s.Forgets a) atExit a (x + 1) n

/-- What it has done for the writes of a virtual register: it knows the nearest one, and every read
and write above that one has its edge. -/
structure WritesLinked (s : Setup) (units : List Instr) (a : Reg) (k : Nat) (w : Walk) : Prop where
  writers : ∀ n, n ∈ w.regs.writers s a ↔ FirstWrite units a k n
  output : w.draft.graph.EdgesFrom .output a k fun x n =>
    WritesAt units a x ∧ FirstWrite units a (x + 1) n
  anti : w.draft.graph.EdgesFrom .anti a k fun x n =>
    ReadsAt units a x ∧ ¬WritesAt units a x ∧ FirstWrite units a (x + 1) n

section

variable {s : Setup} {b : Block} {oracle : Option Oracle} {units : List Instr} {su : Nat}
  {i : Instr} {v w : Walk} {r : RegState} {d₁ d₂ : Draft} {a : Reg} {atExit : Prop}

theorem ValuesLinked.step (h : ValuesLinked s units atExit a (su + 1) v)
    (ht : s.timing.AdjustsLatencyOnly) (ha : s.Tracks a) (hself : s.SharesOwn a)
    (hi : units[su]? = some i) (hv : v.Sound b oracle units (su + 1)) (htidy : v.regs.Tidy s)
    (hstep : Walk.Stepped s b oracle units su i v w r d₁ d₂) :
    ValuesLinked s units atExit a su w := by
  refine ⟨fun n => ?_, h.data.step fun p n => ?_⟩
  · rw [hstep.mem_readers ht hv hi htidy ha, h.readers, readFrom_iff hi]
  · rw [hstep.data_iff ht hv hi htidy ha hself, h.readers]
    refine or_congr_right ⟨?_, ?_⟩
    · rintro ⟨rfl, -, hread, hshare⟩
      exact ⟨rfl, ⟨i, hi, hshare⟩, hread⟩
    · rintro ⟨rfl, ⟨j, hj, hshare⟩, hread⟩
      obtain rfl := Option.some.inj (hj.symm.trans hi)
      exact ⟨rfl, hread.ne, hread, hshare⟩

theorem WritesLinked.step (h : WritesLinked s units a (su + 1) v)
    (ht : s.timing.AdjustsLatencyOnly) (hvirtual : a.isVirtual) (hp : ¬s.regs.isPhysical a)
    (hi : units[su]? = some i) (hv : v.Sound b oracle units (su + 1)) (htidy : v.regs.Tidy s)
    (hstep : Walk.Stepped s b oracle units su i v w r d₁ d₂) : WritesLinked s units a su w := by
  have hwrites : WritesAt units a su ↔ a ∈ i.defs := by simp [WritesAt, hi]
  have hreads : ReadsAt units a su ↔ a ∈ i.uses := by simp [ReadsAt, hi]
  refine ⟨fun n => ?_, h.output.step fun p n => ?_, h.anti.step fun p n => ?_⟩
  · rw [hstep.writers_of_virtual ht hv hi htidy hvirtual hp, firstWrite_iff hi, ← h.writers]
    by_cases hdef : a ∈ i.defs <;> simp [hdef]
  · rw [hstep.output_iff ht hv hi htidy hvirtual hp, h.writers, hwrites]
    refine or_congr_right ⟨?_, ?_⟩
    · rintro ⟨rfl, -, hfirst, hdef⟩
      exact ⟨rfl, hdef, hfirst⟩
    · rintro ⟨rfl, hdef, hfirst⟩
      exact ⟨rfl, hfirst.ne.1, hfirst, hdef⟩
  · rw [hstep.anti_iff ht hv hi htidy hvirtual hp, h.writers, hwrites, hreads]
    refine or_congr_right ⟨?_, ?_⟩
    · rintro ⟨rfl, -, -, hfirst, huse, hdef⟩
      exact ⟨rfl, huse, hdef, hfirst⟩
    · rintro ⟨rfl, huse, hdef, hfirst⟩
      exact ⟨rfl, hfirst.ne.1, hfirst.ne.2, hfirst, huse, hdef⟩

end

namespace Walk.Course

variable {s : Setup} {r : Region} {oracle : Option Oracle} {block : Block} {first last : Walk}
  {a : Reg} {p n : NodeId}

theorem valuesLinked (h : Course s r oracle block first last) (ht : s.timing.AdjustsLatencyOnly)
    (ha : s.Tracks a) (hself : s.SharesOwn a) :
    ValuesLinked s (s.unitsOf r) (s.ExitReads r a) a 0 last := by
  refine (h.induction ht (ValuesLinked s (s.unitsOf r) (s.ExitReads r a) a) ?_
    fun su i v w r' d₁ d₂ hi hv htidy hlinked => hlinked.step ht ha hself hi hv htidy).2
  refine ⟨fun m => ?_, h.edgesFrom_first fun x m ⟨⟨i, hi, _⟩, _⟩ => ⟨i, hi⟩⟩
  rw [readFrom_length, (h.first_reads.2 a ha).2]

theorem writesLinked (h : Course s r oracle block first last) (ht : s.timing.AdjustsLatencyOnly)
    (hv : a.isVirtual) (hp : ¬s.regs.isPhysical a) : WritesLinked s (s.unitsOf r) a 0 last := by
  refine (h.induction ht (WritesLinked s (s.unitsOf r) a) ?_
    fun su i v w r' d₁ d₂ hi hvs htidy hlinked => hlinked.step ht hv hp hi hvs htidy).2
  refine ⟨fun m => ?_, h.edgesFrom_first fun x m ⟨⟨i, hi, _⟩, _⟩ => ⟨i, hi⟩,
    h.edgesFrom_first fun x m ⟨⟨i, hi, _⟩, _⟩ => ⟨i, hi⟩⟩
  simp [(h.first_reads.2 a (.inr hv)).1, firstWrite_length]

/-- Only data, output and anti edges carry a register. -/
theorem kind_of_register (h : Course s r oracle block first last)
    (ht : s.timing.AdjustsLatencyOnly) {kind : Kind}
    (he : last.draft.graph.HasEdge p n kind (some a)) :
    kind = .data ∨ kind = .output ∨ kind = .anti := by
  by_contra hkind
  simp only [not_or] at hkind
  obtain ⟨hdata, houtput, hanti⟩ := hkind
  obtain ⟨-, hno⟩ := h.induction ht (fun _ w => ¬w.draft.graph.HasEdge p n kind (some a))
    h.no_edges fun su i v w r' d₁ d₂ hi hv htidy hno hstep => by
      rwa [hstep.other_iff ht hv hi htidy hdata houtput hanti]
  exact hno he

/-- The target knows the registers that the units write. -/
theorem overlaps_ok (h : Course s r oracle block first last) (ht : s.Orderly) {x : Nat} {i : Instr}
    (hi : (s.unitsOf r)[x]? = some i) {e : Nat × RegOperand} (he : e ∈ i.defOperands)
    (hp : s.regs.isPhysical e.2.reg) : ∃ shared, s.regs.overlaps e.2.reg = .ok shared := by
  refine (h.induction ht.adjusts (fun k _ => k ≤ x → ∃ shared, s.regs.overlaps e.2.reg = .ok shared)
    (fun hx => absurd hi (not_unit_of_length_le hx))
    fun su j v w r' d₁ d₂ hj hv _ hlater hstep hx => ?_).2 (Nat.zero_le x)
  rcases this_or_later hj hx hi with ⟨-, rfl⟩ | hx
  · obtain ⟨u, v, -, hround, -⟩ := hstep.registers.round e (List.mem_append_left _ he)
    obtain ⟨shared, hshared, -⟩ :=
      hround.meets_physical ht (Setup.classify_eq_physical.mpr hp)
    exact ⟨shared, hshared⟩
  · exact hlater hx

end Walk.Course

/-! The edges of one register -/

/-- The edges that carry a virtual register join neighbours: a write and the reads before the next
write, a read or a write and the next write. A unit that also writes the register is no reader as far
as the next write goes. -/
inductive NeighbourEdge (units : List Instr) (v : Reg) (atExit : Prop) :
    NodeId → NodeId → Kind → Prop
  | value {x y : Nat} (lt : x < y) (write : WritesAt units v x) (read : ReadsAt units v y)
      (unwritten : ∀ z, x < z → z < y → ¬WritesAt units v z) :
      NeighbourEdge units v atExit (.unit x) (.unit y) .data
  | result {x : Nat} (write : WritesAt units v x) (read : atExit)
      (unwritten : ∀ z, x < z → ¬WritesAt units v z) :
      NeighbourEdge units v atExit (.unit x) .exit .data
  | overwrite {x y : Nat} (lt : x < y) (read : ReadsAt units v x) (keeps : ¬WritesAt units v x)
      (write : WritesAt units v y) (nearest : ∀ z, x < z → z < y → ¬WritesAt units v z) :
      NeighbourEdge units v atExit (.unit x) (.unit y) .anti
  | rewrite {x y : Nat} (lt : x < y) (first : WritesAt units v x) (second : WritesAt units v y)
      (nearest : ∀ z, x < z → z < y → ¬WritesAt units v z) :
      NeighbourEdge units v atExit (.unit x) (.unit y) .output

theorem inSight_unwritten {units : List Instr} {a : Reg} {x y : Nat} :
    InSight units (fun i => a ∈ i.defs) (x + 1) y ↔
      x < y ∧ ∀ z, x < z → z < y → ¬WritesAt units a z := by
  constructor
  · rintro ⟨hlt, hno⟩
    refine ⟨hlt, ?_⟩
    rintro z hxz hzy ⟨j, hj, hdef⟩
    exact hno z j hxz hzy hj hdef
  · rintro ⟨hlt, hno⟩
    exact ⟨hlt, fun z j hxz hzy hj hdef => hno z hxz hzy ⟨j, hj, hdef⟩⟩

theorem unwritten_iff {units : List Instr} {a : Reg} {x : Nat} :
    (∀ z i, x + 1 ≤ z → units[z]? = some i → a ∉ i.defs) ↔ ∀ z, x < z → ¬WritesAt units a z := by
  constructor
  · rintro hno z hxz ⟨i, hi, hdef⟩
    exact hno z i hxz hi hdef
  · intro hno z i hxz hi hdef
    exact hno z hxz ⟨i, hi, hdef⟩

section

variable {units : List Instr} {v : Reg} {atExit : Prop} {p n : NodeId}

theorem neighbourEdge_data : NeighbourEdge units v atExit p n .data ↔
    ∃ x, p = .unit x ∧ WritesAt units v x ∧ ReadFrom units (fun _ => False) atExit v (x + 1) n := by
  constructor
  · intro h
    cases h with
    | @value x y lt write read unwritten =>
      refine ⟨x, rfl, write, read, ?_⟩
      simpa only [or_false] using inSight_unwritten.mpr ⟨lt, unwritten⟩
    | @result x write read unwritten => exact ⟨x, rfl, write, read, unwritten_iff.mpr unwritten⟩
  · rintro ⟨x, rfl, hwrite, hread⟩
    cases n with
    | exit => exact .result hwrite hread.1 (unwritten_iff.mp hread.2)
    | unit y =>
      obtain ⟨hread, hsight⟩ := hread
      simp only [or_false, inSight_unwritten] at hsight
      exact .value hsight.1 hwrite hread hsight.2

theorem neighbourEdge_output : NeighbourEdge units v atExit p n .output ↔
    ∃ x, p = .unit x ∧ WritesAt units v x ∧ FirstWrite units v (x + 1) n := by
  constructor
  · intro h
    cases h with
    | @rewrite x y lt first second nearest =>
      exact ⟨x, rfl, first, second, inSight_unwritten.mpr ⟨lt, nearest⟩⟩
  · rintro ⟨x, rfl, hfirst, hnext⟩
    cases n with
    | exit => exact hnext.elim
    | unit y =>
      obtain ⟨hlt, hno⟩ := inSight_unwritten.mp hnext.2
      exact .rewrite hlt hfirst hnext.1 hno

theorem neighbourEdge_anti : NeighbourEdge units v atExit p n .anti ↔ ∃ x, p = .unit x ∧
    ReadsAt units v x ∧ ¬WritesAt units v x ∧ FirstWrite units v (x + 1) n := by
  constructor
  · intro h
    cases h with
    | @overwrite x y lt read keeps write nearest =>
      exact ⟨x, rfl, read, keeps, write, inSight_unwritten.mpr ⟨lt, nearest⟩⟩
  · rintro ⟨x, rfl, hread, hkeeps, hnext⟩
    cases n with
    | exit => exact hnext.elim
    | unit y =>
      obtain ⟨hlt, hno⟩ := inSight_unwritten.mp hnext.2
      exact .overwrite hlt hread hkeeps hnext.1 hno

end

/-- Unit `x` writes a physical register that overlaps `a`. -/
def RegisterFile.WritesStorage (f : RegisterFile) (units : List Instr) (a : Reg) (x : Nat) : Prop :=
  ∃ i, units[x]? = some i ∧ ∃ e ∈ i.defOperands, e.2.reg.isPlain ∧ f.Overlap e.2.reg a

theorem Walk.Course.writesStorage_iff {s : Setup} {r : Region} {oracle : Option Oracle}
    {block : Block} {first last : Walk} (h : Walk.Course s r oracle block first last)
    {f : RegisterFile} (hregs : s.regs = f.info) (ht : s.Orderly) {a : Reg} (ha : a.isPlain)
    {x : Nat} : (∃ i, (s.unitsOf r)[x]? = some i ∧
      ∃ e ∈ i.defOperands, s.SharesStorage e.2.reg a) ↔ f.WritesStorage (s.unitsOf r) a x := by
  refine exists_congr fun i => and_congr_right fun hi => exists_congr fun e =>
    and_congr_right fun he => ⟨fun hshare => ?_, fun ⟨hplain, hover⟩ => ?_⟩
  · cases hshare with
    | physical hpe _ hshared =>
      have hplain := Setup.classify_eq_physical.mp hpe
      obtain ⟨l, hl⟩ := h.overlaps_ok ht hi he hplain
      have hmem := hshared l hl
      rw [hregs] at hplain hl
      exact ⟨hplain, .of_mem hl hmem⟩
    | virtual _ hpe hsame =>
      rw [← hsame, hregs] at hpe
      exact absurd ha hpe
  · exact f.sharesStorage hregs hplain ha hover

theorem inSight_unforgotten {s : Setup} {units : List Instr} {a : Reg} (hp : s.regs.isPhysical a)
    {x y : Nat} : InSight units (fun i => a ∈ i.defs ∨ s.Forgets a i) (x + 1) y ↔
      x < y ∧ ∀ z i, x < z → z < y → units[z]? = some i → ¬i.isBarrier ∧ a ∉ i.defs := by
  simp only [InSight, Setup.Forgets, hp, true_and, not_or, and_comm (a := a ∉ _)]
  exact Iff.rfl

section

variable {s : Setup} {b b' : Builder} {r : Region} {oracle : Option Oracle} {g : Graph}

/-- The edges that carry a virtual register are exactly those between neighbours, whatever barriers
are in between. -/
theorem virtual_edge_iff (htiming : s.timing.AdjustsLatencyOnly) (hb : b.Usable s)
    (h : b.buildRegion s r oracle = .ok (b', g)) {v : Reg} (hv : v.isVirtual)
    (hp : ¬s.regs.isPhysical v) {p t : NodeId} {k : Kind} :
    g.HasEdge p t k (some v) ↔ NeighbourEdge (s.unitsOf r) v (s.BoundaryReads r v) p t k := by
  obtain ⟨block, first, last, hcourse, rfl⟩ := Builder.course hb h
  have hvalues := hcourse.valuesLinked htiming (.inr hv) fun hnot => absurd hnot hp
  have hwrites := hcourse.writesLinked htiming hv hp
  have hother : k ≠ .data → k ≠ .output → k ≠ .anti →
      ¬last.draft.graph.HasEdge p t k (some v) := by
    intro hdata houtput hanti he
    rcases hcourse.kind_of_register htiming he with rfl | rfl | rfl <;> contradiction
  cases k with
  | data =>
    have hforgets : s.Forgets v = fun _ => False := by simp [funext_iff, Setup.Forgets, hp]
    have hexit : s.ExitReads r v ↔ s.BoundaryReads r v := by simp [Setup.ExitReads, hp]
    rw [hvalues.data.iff_exists, neighbourEdge_data, hforgets, hexit]
    simp only [Setup.SharesStorage.exists_iff_mem hv hp]
    exact Iff.rfl
  | output => exact (hwrites.output.iff_exists p t).trans neighbourEdge_output.symm
  | anti => exact (hwrites.anti.iff_exists p t).trans neighbourEdge_anti.symm
  | order =>
    refine iff_of_false (hother (by decide) (by decide) (by decide)) ?_
    rintro ⟨⟩
  | artificial =>
    refine iff_of_false (hother (by decide) (by decide) (by decide)) ?_
    rintro ⟨⟩

/-- A call does not come between the neighbours of a virtual register. -/
theorem virtual_edges_across_call :
    let v : Reg := ⟨Reg.firstVirtual⟩
    let op : Instr := { opcode := "op" }
    let call := ({ opcode := "call" } : Instr).calling
    let block : Block :=
      { id := ⟨0⟩, instrs := #[op.withDef v, call, op.withUse v, op.withDef v] }
    let s : Setup :=
      { Setup.straightLine { count := 1 } [] with func := { blocks := [block], virtualCount := 1 } }
    ∃ b' g, ({} : Builder).buildRegion s ⟨⟨0⟩, 0, 4⟩ none = .ok (b', g) ∧
      g.HasEdge (.unit 0) (.unit 2) .data (some v) ∧
      g.HasEdge (.unit 2) (.unit 3) .anti (some v) ∧
      g.HasEdge (.unit 0) (.unit 3) .output (some v) := by
  intro v op call block s
  have hok : (({} : Builder).buildRegion s ⟨⟨0⟩, 0, 4⟩ none).isOk = true := by cbv
  obtain ⟨⟨b', g⟩, h⟩ := exists_of_isOk hok
  have hedges := fun p t k => virtual_edge_iff (s := s) (p := p) (t := t) (k := k)
    Timing.adjustsLatencyOnly_unit .fresh h (v := v) (by decide) (by decide)
  have hbetween : ∀ z, 0 < z → z < 3 → ¬WritesAt (s.unitsOf ⟨⟨0⟩, 0, 4⟩) v z := by
    rintro z hz hz' ⟨i, hi, hdef⟩
    obtain rfl | rfl : z = 1 ∨ z = 2 := by omega
    · cases hi
      exact absurd hdef (by decide)
    · cases hi
      exact absurd hdef (by decide)
  have hkeeps : ¬WritesAt (s.unitsOf ⟨⟨0⟩, 0, 4⟩) v 2 := hbetween 2 (by decide) (by decide)
  refine ⟨b', g, h, (hedges ..).mpr ?_, (hedges ..).mpr ?_, (hedges ..).mpr ?_⟩
  · exact .value (by decide) ⟨_, rfl, by decide⟩ ⟨_, rfl, by decide⟩
      fun z hz hz' => hbetween z hz (by omega)
  · exact .overwrite (by decide) ⟨_, rfl, by decide⟩ hkeeps ⟨_, rfl, by decide⟩
      fun z hz hz' => by omega
  · exact .rewrite (by decide) ⟨_, rfl, by decide⟩ ⟨_, rfl, by decide⟩ hbetween

/-- A value in a physical register reaches the units that read that very register up to the next
barrier or write of it, and the exit up to the next write only. Any write of overlapping storage is
where such a value may come from. -/
theorem physical_value_iff {f : RegisterFile} (hregs : s.regs = f.info)
    (htiming : s.timing.AdjustsLatencyOnly) (hb : b.Usable s)
    (h : b.buildRegion s r oracle = .ok (b', g)) {a : Reg} (ha : a.isPlain) :
    (∀ x y, g.HasEdge (.unit x) (.unit y) .data (some a) ↔ x < y ∧
      f.WritesStorage (s.unitsOf r) a x ∧ ReadsAt (s.unitsOf r) a y ∧
      ∀ z k, x < z → z < y → (s.unitsOf r)[z]? = some k → ¬k.isBarrier ∧ a ∉ k.defs) ∧
    ∀ x, g.HasEdge (.unit x) .exit .data (some a) ↔
      (s.BoundaryReads r a ∨ s.LiveOut r a) ∧ f.WritesStorage (s.unitsOf r) a x ∧
      ∀ z, x < z → ¬WritesAt (s.unitsOf r) a z := by
  obtain ⟨block, first, last, hcourse, rfl⟩ := Builder.course hb h
  have horderly := f.orderly hregs htiming
  have hp : s.regs.isPhysical a := by simp [hregs, RegisterFile.info, ha]
  have hdata := (hcourse.valuesLinked htiming (.inl hp) fun _ => horderly.overlaps_self a).data
  simp only [hcourse.writesStorage_iff hregs horderly ha] at hdata
  refine ⟨fun x y => ?_, fun x => ?_⟩
  · rw [hdata.unit_iff, ReadFrom, inSight_unforgotten hp]
    tauto
  · rw [hdata.unit_iff, ReadFrom, unwritten_iff, Setup.ExitReads]
    tauto

/-- A call hides the reader in front of it from what is above, but not the exit. -/
theorem physical_value_at_exit :
    let f : RegisterFile := { count := 3, shared := [(⟨1⟩, ⟨2⟩)] }
    let op : Instr := { opcode := "op" }
    let call := ({ opcode := "call" } : Instr).calling
    let s := Setup.straightLine f [op.withDef ⟨1⟩, call, op.withUse ⟨2⟩, op.withUse ⟨2⟩]
    ∃ b' g, ({} : Builder).buildRegion s ⟨⟨0⟩, 0, 3⟩ none = .ok (b', g) ∧
      ¬g.HasEdge (.unit 0) (.unit 2) .data (some ⟨2⟩) ∧
      g.HasEdge (.unit 0) .exit .data (some ⟨2⟩) := by
  intro f op call s
  have hok : (({} : Builder).buildRegion s ⟨⟨0⟩, 0, 3⟩ none).isOk = true := by cbv
  obtain ⟨⟨b', g⟩, h⟩ := exists_of_isOk hok
  obtain ⟨hunits, hexit⟩ := physical_value_iff (f := f) rfl Timing.adjustsLatencyOnly_unit .fresh h
    (a := ⟨2⟩) rfl
  refine ⟨b', g, h, fun he => ?_, (hexit 0).mpr ⟨?_, ?_, ?_⟩⟩
  · obtain ⟨-, -, -, hno⟩ := (hunits 0 2).mp he
    exact (hno 1 call (by decide) (by decide) rfl).1 rfl
  · exact .inl ⟨_, rfl, _, rfl, by decide⟩
  · exact ⟨_, rfl, (0, { reg := ⟨1⟩, isDef := true }), by decide, rfl, .inr (.inl (by decide))⟩
  · rintro z hz ⟨i, hi, hdef⟩
    have hlt := (List.getElem?_eq_some_iff.mp hi).1
    obtain rfl | rfl : z = 1 ∨ z = 2 := by
      have : z < 3 := hlt
      omega
    · cases hi
      exact absurd hdef (by decide)
    · cases hi
      exact absurd hdef (by decide)

end

end Precedence
