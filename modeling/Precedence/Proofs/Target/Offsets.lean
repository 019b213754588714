import Mathlib.Data.List.Basic
import Precedence.Machine.Construct
import Precedence.Proofs.Outcomes
import Precedence.Target.Alias

/-!
Answers of the oracle that compares offsets. What two operands have to do with each other depends on
neither their order nor their company, and the answer for two instructions says whether some pair is
vague and whether some pair is exact. So the answer is the same from both sides and for operands in any
order, it separates only what shares no byte, and where it promises one place all that overlaps is the
same bytes.
-/
namespace Precedence

namespace MemOperand

/-- The first byte behind the access has an offset of 64 bits. -/
def InRange (m : MemOperand) : Prop :=
  -0x8000000000000000 ≤ m.offset + m.size ∧ m.offset + m.size < 0x8000000000000000

instance : DecidablePred InRange := fun _ => inferInstanceAs (Decidable (_ ∧ _))

/-- The number of the object that is named. -/
def objectId (m : MemOperand) : Option Nat := m.object.map MemObject.id

/-- The byte at an address of an object is among those described. -/
def Covers (m : MemOperand) (id : Nat) (address : Int) : Prop :=
  m.objectId = some id ∧ m.offset ≤ address ∧ address < m.offset + m.size

/-- One byte is described by both. -/
def Shares (m n : MemOperand) : Prop := ∃ id address, m.Covers id address ∧ n.Covers id address

/-- Both name one object, and neither lies behind the other. An access of no bytes overlaps what it
stands in the middle of. -/
def Overlaps (m n : MemOperand) : Prop :=
  (∃ id, m.objectId = some id ∧ n.objectId = some id) ∧
    m.offset < n.offset + n.size ∧ n.offset < m.offset + m.size

/-- Both describe the same bytes of one object. -/
def Exact (m n : MemOperand) : Prop := m.Overlaps n ∧ m.offset = n.offset ∧ m.size = n.size

/-- Nothing is known of the two: one of them names no object, or they overlap and are not the same
bytes. -/
def Vague (m n : MemOperand) : Prop :=
  m.object = none ∨ n.object = none ∨ (m.Overlaps n ∧ ¬m.Exact n)

variable {m n : MemOperand}

theorem Shares.overlaps (h : m.Shares n) : m.Overlaps n := by
  obtain ⟨id, address, ⟨hm, hlo, hhi⟩, hn, hlo', hhi'⟩ := h
  exact ⟨⟨id, hm, hn⟩, by omega, by omega⟩

/-- What overlaps exactly has a byte to share: an access of no bytes does not overlap itself. -/
theorem Exact.shares (h : m.Exact n) : m.Shares n := by
  obtain ⟨⟨⟨id, hm, hn⟩, hlt, hlt'⟩, hoffset, -⟩ := h
  exact ⟨id, m.offset, ⟨hm, by omega, by omega⟩, hn, by omega, by omega⟩

theorem Overlaps.named (h : m.Overlaps n) : m.object ≠ none ∧ n.object ≠ none := by
  obtain ⟨⟨id, hm, hn⟩, -⟩ := h
  exact ⟨fun hnone => by simp [objectId, hnone] at hm, fun hnone => by simp [objectId, hnone] at hn⟩

theorem overlaps_iff {o p : MemObject} (ho : m.object = some o) (hp : n.object = some p) :
    m.Overlaps n ↔ o.id = p.id ∧ m.offset < n.offset + n.size ∧ n.offset < m.offset + m.size := by
  simp [Overlaps, objectId, ho, hp, eq_comm]

theorem overlaps_comm : m.Overlaps n ↔ n.Overlaps m := by
  simp only [Overlaps, and_comm]

theorem exact_comm : m.Exact n ↔ n.Exact m := by
  simp only [Exact, overlaps_comm (m := m), eq_comm]

theorem vague_comm : m.Vague n ↔ n.Vague m := by
  simp only [Vague, overlaps_comm (m := m), exact_comm (m := m), or_left_comm]

theorem rangesOverlap_eq (hm : m.InRange) (hn : n.InRange) :
    m.rangesOverlap n =
      .ok (decide (m.offset < n.offset + n.size ∧ n.offset < m.offset + m.size)) := by
  have hadd : ∀ k : MemOperand, k.InRange → addOffset k.offset k.size = .ok (k.offset + k.size) :=
    fun k hk => if_pos hk
  simp [rangesOverlap, hadd m hm, hadd n hn, bind, Except.bind, pure, Except.pure]

/-- The answer for two operands that name their objects. -/
theorem alias_eq [Decidable (m.Overlaps n)] (hm : m.InRange) (hn : n.InRange)
    (ho : m.object ≠ none) (hp : n.object ≠ none) : m.alias n = .ok (if m.Overlaps n then
      if m.offset = n.offset ∧ m.size = n.size then .must else .may else .no) := by
  obtain ⟨o, ho⟩ := Option.ne_none_iff_exists'.mp ho
  obtain ⟨p, hp⟩ := Option.ne_none_iff_exists'.mp hp
  have hover := overlaps_iff ho hp
  simp only [MemOperand.alias, ho, hp, rangesOverlap_eq hm hn]
  by_cases hid : o.id = p.id
  · rw [and_iff_right hid] at hover
    rw [if_neg (not_not.mpr hid), decide_eq_decide.mpr hover.symm]
    by_cases h : m.Overlaps n
    · rw [decide_eq_true h, if_pos h]
      rfl
    · rw [decide_eq_false h, if_neg h]
      rfl
  · rw [if_pos hid, if_neg fun h => hid (hover.mp h).1]

/-- What the answer for two operands says. -/
theorem alias_returns (hm : m.InRange) (hn : n.InRange) :
    Returns (m.alias n) fun a => (a = .may ↔ m.Vague n) ∧ (a = .must ↔ m.Exact n) := by
  classical
  by_cases hnamed : m.object = none ∨ n.object = none
  · have halias : m.alias n = .ok .may := by
      rcases hnamed with ho | hp
      · simp [MemOperand.alias, ho]
      · cases ho : m.object <;> simp [MemOperand.alias, ho, hp]
    have hexact : ¬m.Exact n := fun h => (not_or.mpr h.1.named) hnamed
    exact ⟨.may, halias, iff_of_true rfl (or_assoc.mp (.inl hnamed)), iff_of_false nofun hexact⟩
  · obtain ⟨ho, hp⟩ := not_or.mp hnamed
    refine ⟨_, alias_eq hm hn ho hp, ?_⟩
    simp only [Vague, Exact, ho, hp, false_or]
    by_cases hover : m.Overlaps n
    · by_cases hsame : m.offset = n.offset ∧ m.size = n.size
      · simp [hover, hsame]
      · simp [hover, hsame]
    · simp [hover]

end MemOperand

namespace Oracle

variable {ms ns ms' ns' : List MemOperand} {x y : AliasAnswer}

/-- What the answer for two lists of operands says: nothing is known if a list is empty or some pair is
vague, and otherwise the bytes are the same if some pair is exact. -/
structure Compares (ms ns : List MemOperand) (x : AliasAnswer) : Prop where
  may_iff : x = .may ↔ ms = [] ∨ ns = [] ∨ ∃ m ∈ ms, ∃ n ∈ ns, m.Vague n
  must_iff : x = .must ↔ x ≠ .may ∧ ∃ m ∈ ms, ∃ n ∈ ns, m.Exact n

namespace Compares

/-- Two lists have one answer. -/
theorem unique (h : Compares ms ns x) (h' : Compares ms ns y) : x = y := by
  have hmay := h.may_iff.trans h'.may_iff.symm
  have hmust := h.must_iff.trans ((and_congr_left' (not_congr hmay)).trans h'.must_iff.symm)
  cases x <;> cases y <;> simp_all

/-- The lists change places. -/
theorem symm (h : Compares ms ns x) : Compares ns ms x := by
  have hswap : ∀ {R : MemOperand → MemOperand → Prop}, (∀ {m n}, R m n ↔ R n m) →
      ((∃ m ∈ ms, ∃ n ∈ ns, R m n) ↔ ∃ n ∈ ns, ∃ m ∈ ms, R n m) := fun hR =>
    ⟨fun ⟨m, hm, n, hn, h⟩ => ⟨n, hn, m, hm, hR.mp h⟩, fun ⟨n, hn, m, hm, h⟩ => ⟨m, hm, n, hn, hR.mp h⟩⟩
  obtain ⟨hmay, hmust⟩ := h
  rw [hswap MemOperand.vague_comm, or_left_comm] at hmay
  rw [hswap MemOperand.exact_comm] at hmust
  exact ⟨hmay, hmust⟩

/-- The order inside the lists does not matter. -/
theorem perm (h : Compares ms ns x) (hm : ms'.Perm ms) (hn : ns'.Perm ns) : Compares ms' ns' x := by
  have hnil : ∀ {l l' : List MemOperand}, l'.Perm l → (l = [] ↔ l' = []) := fun h =>
    ⟨fun hl => List.perm_nil.mp (hl ▸ h), fun hl => List.perm_nil.mp (hl ▸ h.symm)⟩
  obtain ⟨hmay, hmust⟩ := h
  simp only [hnil hm, hnil hn, ← hm.mem_iff, ← hn.mem_iff] at hmay hmust
  exact ⟨hmay, hmust⟩

/-- An answer that says something: all objects are named, and what overlaps is exact. -/
theorem known (h : Compares ms ns x) (hx : x ≠ .may) : ms ≠ [] ∧ ns ≠ [] ∧
    (∀ m ∈ ms ++ ns, m.object ≠ none) ∧ ∀ m ∈ ms, ∀ n ∈ ns, m.Overlaps n → m.Exact n := by
  have hclear := mt h.may_iff.mpr hx
  simp only [not_or, not_exists, not_and] at hclear
  obtain ⟨hms, hns, hclear⟩ := hclear
  obtain ⟨m₀, hm₀⟩ := List.exists_mem_of_ne_nil ms hms
  obtain ⟨n₀, hn₀⟩ := List.exists_mem_of_ne_nil ns hns
  refine ⟨hms, hns, fun m hm hnone => ?_, fun m hm n hn hover => ?_⟩
  · rcases List.mem_append.mp hm with hm | hm
    · exact hclear m hm n₀ hn₀ (.inl hnone)
    · exact hclear m₀ hm₀ m hm (.inr (.inl hnone))
  · by_contra hexact
    exact hclear m hm n hn (.inr (.inr ⟨hover, hexact⟩))

end Compares

/-- Pairs of operands are compared one after the other: a vague one decides, and of the others an exact
one is enough. -/
theorem ofPairs_returns {l : List (MemOperand × MemOperand)}
    (h : ∀ p ∈ l, p.1.InRange ∧ p.2.InRange) : Returns (ofPairs l) fun x =>
      (x = .may ↔ ∃ p ∈ l, p.1.Vague p.2) ∧ (x = .must ↔ x ≠ .may ∧ ∃ p ∈ l, p.1.Exact p.2) := by
  induction l with
  | nil => exact .ok (by simp)
  | cons p rest ih =>
    obtain ⟨m, n⟩ := p
    obtain ⟨hm, hn⟩ := h (m, n) List.mem_cons_self
    obtain ⟨y, hy, hmay, hmust⟩ := ih fun q hq => h q (List.mem_cons_of_mem _ hq)
    obtain ⟨x, hx, hvague, hexact⟩ := MemOperand.alias_returns hm hn
    simp only [List.exists_mem_cons_iff, ← hvague, ← hexact, ← hmay]
    rw [ofPairs, hx, hy]
    cases x with
    | no => exact ⟨y, rfl, by simp, by simpa using hmust⟩
    | may => exact ⟨.may, rfl, by simp, by simp⟩
    | must =>
      by_cases hy : y = .may
      · exact ⟨.may, by rw [hy]; rfl, by simp [hy], by simp⟩
      · exact ⟨.must, by simp [hy, bind, Except.bind, pure, Except.pure], by simp [hy], by simp⟩

theorem mem_pairs {p : MemOperand × MemOperand} : p ∈ pairs ms ns ↔ p.1 ∈ ms ∧ p.2 ∈ ns := by
  simp [pairs, Prod.ext_iff]

/-- What the answer for two instructions says. -/
theorem offsets_returns {i j : Instr} (hi : ∀ m ∈ i.memOperands, m.InRange)
    (hj : ∀ m ∈ j.memOperands, m.InRange) :
    Returns (offsets i j) (Compares i.memOperands j.memOperands) := by
  have hrange : ∀ p ∈ pairs i.memOperands j.memOperands, p.1.InRange ∧ p.2.InRange := fun p hp =>
    ⟨hi _ (mem_pairs.mp hp).1, hj _ (mem_pairs.mp hp).2⟩
  obtain ⟨x, hx, hmay, hmust⟩ := ofPairs_returns hrange
  simp only [mem_pairs, Prod.exists, and_assoc, exists_and_left] at hmay hmust
  unfold offsets
  by_cases hempty : i.memOperands = [] ∨ j.memOperands = []
  · rw [if_pos (by simpa using hempty)]
    refine .ok ⟨iff_of_true rfl (or_assoc.mp (.inl hempty)), iff_of_false nofun fun h => h.1 rfl⟩
  · rw [if_neg (by simpa using hempty)]
    refine ⟨x, hx, ?_, hmust⟩
    rw [hmay, ← or_assoc]
    exact (or_iff_right hempty).symm

/-- Comparing offsets answers every question about instructions whose bytes have offsets of 64 bits. The
answer is the same from both sides, and the order of the operands does not matter. Two instructions are
separated only if both have operands, all of them name objects, and no byte is described by both. They are
said to touch one place only if all operands name objects, some byte is described by both, and all operands
that overlap describe the same bytes. -/
theorem offsets_apart_or_exact {i j : Instr} (hi : ∀ m ∈ i.memOperands, m.InRange)
    (hj : ∀ m ∈ j.memOperands, m.InRange) :
    (∃ x, offsets i j = .ok x) ∧ offsets i j = offsets j i ∧
    (∀ i' j' : Instr, i'.memOperands.Perm i.memOperands → j'.memOperands.Perm j.memOperands →
      offsets i' j' = offsets i j) ∧
    (offsets i j = .ok .no → i.memOperands ≠ [] ∧ j.memOperands ≠ [] ∧
      (∀ m ∈ i.memOperands ++ j.memOperands, m.object ≠ none) ∧
      ∀ m ∈ i.memOperands, ∀ n ∈ j.memOperands, ¬m.Shares n) ∧
    (offsets i j = .ok .must → (∀ m ∈ i.memOperands ++ j.memOperands, m.object ≠ none) ∧
      (∃ m ∈ i.memOperands, ∃ n ∈ j.memOperands, m.Shares n) ∧
      ∀ m ∈ i.memOperands, ∀ n ∈ j.memOperands, m.Overlaps n →
        m.objectId = n.objectId ∧ m.offset = n.offset ∧ m.size = n.size) := by
  obtain ⟨x, hx, hcompares⟩ := offsets_returns hi hj
  refine ⟨⟨x, hx⟩, ?_, fun i' j' hi' hj' => ?_, fun hno => ?_, fun hmust => ?_⟩
  · obtain ⟨y, hy, hcompares'⟩ := offsets_returns hj hi
    rw [hx, hy, hcompares.unique hcompares'.symm]
  · obtain ⟨y, hy, hcompares'⟩ := offsets_returns (fun m hm => hi m (hi'.mem_iff.mp hm))
      fun m hm => hj m (hj'.mem_iff.mp hm)
    rw [hx, hy, hcompares'.unique (hcompares.perm hi' hj')]
  · obtain rfl := Except.ok.inj (hx.symm.trans hno)
    obtain ⟨hi₀, hj₀, hnamed, hover⟩ := hcompares.known nofun
    refine ⟨hi₀, hj₀, hnamed, fun m hm n hn hshares => ?_⟩
    exact absurd (hcompares.must_iff.mpr ⟨nofun, m, hm, n, hn, hover m hm n hn hshares.overlaps⟩) nofun
  · obtain rfl := Except.ok.inj (hx.symm.trans hmust)
    obtain ⟨-, -, hnamed, hover⟩ := hcompares.known nofun
    obtain ⟨-, m, hm, n, hn, hexact⟩ := hcompares.must_iff.mp rfl
    refine ⟨hnamed, ⟨m, hm, n, hn, hexact.shares⟩, fun m hm n hn h => ?_⟩
    obtain ⟨⟨⟨id, hm', hn'⟩, -⟩, hsame⟩ := hover m hm n hn h
    exact ⟨hm'.trans hn'.symm, hsame⟩

/-- Two instructions that touch one field, each along with an object of its own. -/
theorem offsets_of_one_field :
    let field : MemOperand := .ofObject 1 4 4
    let i := (({ opcode := "move" } : Instr).loading field).storing (.ofPrivate 2 4 8)
    let j := (({ opcode := "move" } : Instr).loading (.ofObject 3 0 8)).storing field
    let i' := (({ opcode := "move" } : Instr).storing (.ofPrivate 2 4 8)).loading field
    offsets i j = .ok .must ∧ offsets j i = .ok .must ∧ offsets i' j = .ok .must ∧
      (∃ m ∈ i.memOperands, ∃ n ∈ j.memOperands, m.Shares n) ∧
      ∀ m ∈ i.memOperands, ∀ n ∈ j.memOperands, m.Overlaps n →
        m.objectId = n.objectId ∧ m.offset = n.offset ∧ m.size = n.size := by
  intro field i j i'
  have hi : ∀ m ∈ i.memOperands, m.InRange := by decide
  have hj : ∀ m ∈ j.memOperands, m.InRange := by decide
  obtain ⟨-, hsymm, hperm, -, hmust⟩ := offsets_apart_or_exact hi hj
  have hanswer : offsets i j = .ok .must := by decide
  obtain ⟨-, hshares, hover⟩ := hmust hanswer
  exact ⟨hanswer, hsymm ▸ hanswer, (hperm i' j (List.Perm.swap ..) (.refl _)).trans hanswer, hshares,
    hover⟩

end Oracle

end Precedence
