import Mathlib.Order.Nat
import Mathlib.Tactic.Tauto
import Precedence.Flow.Links

/-!
Climbing along links. The line of a block is the block itself and all that can be met on the way up
from it; two blocks on one line lie on the lines of each other, the later one below. Linking a block
anew takes everything below it along.
-/
namespace Precedence.Links

variable {d : Links} {i j k : Nat}

/-- A block and those above it, from the bottom up. -/
def line (d : Links) (i : Nat) : List Nat :=
  i ::
    match _ : d.up? i with
    | some j => d.line j
    | none => []
termination_by i
decreasing_by
  rename_i h
  exact d.earlier _ _ h

theorem mem_line : k ∈ d.line i ↔ k = i ∨ ∃ j, d.up? i = some j ∧ k ∈ d.line j := by
  rw [line]
  split
  next j hj => simp [hj]
  next hnone => simp [hnone]

theorem self_mem_line : i ∈ d.line i := mem_line.2 (.inl rfl)

theorem mem_line_of_up? (hj : d.up? i = some j) (hk : k ∈ d.line j) : k ∈ d.line i :=
  mem_line.2 (.inr ⟨j, hj, hk⟩)

/-- What is above a block stands in front of it. -/
theorem le_of_mem_line (h : k ∈ d.line i) : k ≤ i := by
  induction i using Nat.strongRecOn with
  | ind i ih =>
    rcases mem_line.1 h with rfl | ⟨j, hj, hk⟩
    · exact Nat.le_refl k
    · exact (ih j (d.earlier i j hj) hk).trans (d.earlier i j hj).le

theorem line_zero : d.line 0 = [0] := by
  rw [line]
  split
  next j hj => exact absurd (d.earlier 0 j hj) (Nat.not_lt_zero j)
  next => rfl

theorem mem_line_trans (hk : k ∈ d.line j) (hj : j ∈ d.line i) : k ∈ d.line i := by
  induction i using Nat.strongRecOn with
  | ind i ih =>
    rcases mem_line.1 hj with rfl | ⟨l, hl, hj⟩
    · exact hk
    · exact mem_line_of_up? hl (ih l (d.earlier i l hl) hj)

/-- Of two blocks on one line, the earlier is on the line of the other. -/
theorem mem_line_of_le (hk : k ∈ d.line i) (hj : j ∈ d.line i) (h : k ≤ j) : k ∈ d.line j := by
  induction i using Nat.strongRecOn with
  | ind i ih =>
    rcases mem_line.1 hj with rfl | ⟨l, hl, hjl⟩
    · exact hk
    have hli := d.earlier i l hl
    have hji := le_of_mem_line hjl
    obtain ⟨l', hl', hkl⟩ := (mem_line.1 hk).resolve_left (by omega)
    obtain rfl := Option.some.inj (hl.symm.trans hl')
    exact ih l hli hkl hjl

theorem climbs_iff : d.climbs k i ↔ k ∈ d.line i ∧ k ≠ i := by
  induction i using Nat.strongRecOn with
  | ind i ih =>
    rw [climbs]
    split
    next j hj =>
      have hlt := d.earlier i j hj
      rw [Bool.or_eq_true, beq_iff_eq, ih j hlt]
      constructor
      · rintro (rfl | ⟨hk, -⟩)
        · exact ⟨mem_line_of_up? hj self_mem_line, hlt.ne⟩
        · exact ⟨mem_line_of_up? hj hk, ((le_of_mem_line hk).trans_lt hlt).ne⟩
      · rintro ⟨hk, hne⟩
        obtain ⟨j', hj', hk⟩ := (mem_line.1 hk).resolve_left hne
        obtain rfl := Option.some.inj (hj.symm.trans hj')
        by_cases hjk : j = k
        · exact .inl hjk
        · exact .inr ⟨hk, Ne.symm hjk⟩
    next hnone =>
      simp only [Bool.false_eq_true, false_iff, not_and, not_not]
      intro hk
      refine (mem_line.1 hk).elim id ?_
      rintro ⟨j, hj, -⟩
      rw [hnone] at hj
      cases hj

/-! Links all of which lead to blocks of which something is known -/

/-- Every link leads to the entry or to a block that is linked itself. -/
def Closed (d : Links) : Prop := ∀ i j, d.up? i = some j → d.knows j

theorem knows_zero : d.knows 0 := rfl

theorem knows_of_up? (h : d.up? i = some j) : d.knows i := by simp [knows, h]

theorem exists_up? (h : d.knows i) (hi : i ≠ 0) : ∃ j, d.up? i = some j := by
  simpa [knows, hi, Option.isSome_iff_exists] using h

theorem Closed.knows_of_mem_line (hd : d.Closed) (hi : d.knows i) (hk : k ∈ d.line i) :
    d.knows k := by
  induction i using Nat.strongRecOn with
  | ind i ih =>
    rcases mem_line.1 hk with rfl | ⟨j, hj, hk⟩
    · exact hi
    · exact ih j (d.earlier i j hj) (hd i j hj) hk

/-- Where two ways up meet, everything above both goes on. -/
theorem Closed.mem_line_meet (hd : d.Closed) (hi : d.knows i) (hj : d.knows j) :
    k ∈ d.line (d.meet i j) ↔ k ∈ d.line i ∧ k ∈ d.line j := by
  fun_induction meet d i j with
  | case1 j => exact (and_self_iff).symm
  | case2 i j hne hlt l hl ih =>
    rw [ih (hd i l hl) hj, mem_line (i := i)]
    constructor
    · rintro ⟨hk, hkj⟩
      exact ⟨.inr ⟨l, hl, hk⟩, hkj⟩
    · rintro ⟨rfl | ⟨l', hl', hk⟩, hkj⟩
      · exact absurd (le_of_mem_line hkj) (Nat.not_le_of_lt hlt)
      · obtain rfl := Option.some.inj (hl.symm.trans hl')
        exact ⟨hk, hkj⟩
  | case3 i j hne hlt hnone =>
    obtain ⟨l, hl⟩ := exists_up? hi (by omega)
    rw [hnone] at hl
    cases hl
  | case4 i j hne hle l hl ih =>
    rw [ih hi (hd j l hl), mem_line (i := j)]
    constructor
    · rintro ⟨hki, hk⟩
      exact ⟨hki, .inr ⟨l, hl, hk⟩⟩
    · rintro ⟨hki, rfl | ⟨l', hl', hk⟩⟩
      · have := le_of_mem_line hki
        omega
      · obtain rfl := Option.some.inj (hl.symm.trans hl')
        exact ⟨hki, hk⟩
  | case5 i j hne hle hnone =>
    obtain ⟨l, hl⟩ := exists_up? hj (by omega)
    rw [hnone] at hl
    cases hl

theorem Closed.mem_line_foldl_meet (hd : d.Closed) (hi : d.knows i) {ps : List Nat}
    (hps : ∀ p ∈ ps, d.knows p) :
    k ∈ d.line (ps.foldl (fun j p => d.meet p j) i) ↔ k ∈ d.line i ∧ ∀ p ∈ ps, k ∈ d.line p := by
  induction ps generalizing i with
  | nil => simp
  | cons p ps ih =>
    have hp := hps p List.mem_cons_self
    have hmeet : d.knows (d.meet p i) :=
      hd.knows_of_mem_line hp ((hd.mem_line_meet hp hi).mp self_mem_line).1
    rw [List.foldl_cons, ih hmeet fun q hq => hps q (List.mem_cons_of_mem p hq),
      hd.mem_line_meet hp hi, List.forall_mem_cons]
    tauto

/-! Linking a block anew -/

theorem size_set {h : j < i} : (d.set i j h).up.size = d.up.size := by simp [set]

theorem up?_set {h : j < i} (hi : i < d.up.size) :
    (d.set i j h).up? k = if k = i then some j else d.up? k := by
  simp only [up?, set, Array.getElem?_setIfInBounds]
  by_cases hik : i = k
  · subst hik
    simp [hi]
  · simp [hik, Ne.symm hik]

theorem set_eq_self {h : j < i} (hj : d.up? i = some j) : d.set i j h = d := by
  obtain ⟨up, earlier⟩ := d
  simp only [set, mk.injEq]
  have hup : up[i]? = some (some j) := Option.join_eq_some_iff.mp hj
  refine Array.ext_getElem? fun k => ?_
  rw [Array.getElem?_setIfInBounds]
  split
  next hik =>
    subst hik
    rw [if_pos (Array.getElem?_eq_some_iff.mp hup).1, hup]
  next => rfl

theorem mem_line_set_of_not_mem {h : j < i} (hi : i < d.up.size) {l : Nat} (hl : i ∉ d.line l) :
    k ∈ (d.set i j h).line l ↔ k ∈ d.line l := by
  induction l using Nat.strongRecOn generalizing k with
  | ind l ih =>
    have hne : l ≠ i := fun heq => hl (heq ▸ self_mem_line)
    rw [mem_line, up?_set hi, if_neg hne, mem_line (i := l)]
    refine or_congr_right (exists_congr fun m => and_congr_right fun hm => ?_)
    exact ih m (d.earlier l m hm) fun hmem => hl (mem_line_of_up? hm hmem)

/-- A line through the block that is linked anew is left as far as that block. -/
theorem mem_line_set_of_mem {h : j < i} (hi : i < d.up.size) {l : Nat} (hl : i ∈ d.line l) :
    k ∈ (d.set i j h).line l ↔ i ≤ k ∧ k ∈ d.line l ∨ k ∈ d.line j := by
  induction l using Nat.strongRecOn generalizing k with
  | ind l ih =>
    rcases mem_line.1 hl with rfl | ⟨m, hm, him⟩
    · rw [mem_line, up?_set hi, if_pos rfl]
      have hj : k ∈ (d.set i j h).line j ↔ k ∈ d.line j :=
        mem_line_set_of_not_mem hi fun hmem => Nat.not_le_of_lt h (le_of_mem_line hmem)
      simp only [Option.some.injEq, exists_eq_left', hj]
      refine or_congr_left ⟨?_, fun ⟨hle, hk⟩ => ?_⟩
      · rintro rfl
        exact ⟨le_rfl, self_mem_line⟩
      · exact (le_of_mem_line hk).antisymm hle
    · have hil : i < l := (le_of_mem_line him).trans_lt (d.earlier l m hm)
      rw [mem_line, up?_set hi, if_neg hil.ne', mem_line (i := l)]
      simp only [hm, Option.some.injEq, exists_eq_left', ih m (d.earlier l m hm) him]
      constructor
      · rintro (rfl | ⟨hle, hk⟩ | hk)
        · exact .inl ⟨hil.le, .inl rfl⟩
        · exact .inl ⟨hle, .inr hk⟩
        · exact .inr hk
      · tauto

end Precedence.Links
