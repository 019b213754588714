import Mathlib.Algebra.BigOperators.Group.Finset.Basic
import Mathlib.Algebra.Order.BigOperators.Group.Finset
import Mathlib.Logic.Relation
import Precedence.Proofs.Flow.Lines

/-!
Passes that link blocks to their immediate dominators. Whatever the order in which links change, at
any moment the line of a block holds all its dominators, and a link can only move up along the line
that it belongs to; so the passes come to an end, and then the line of a block holds nothing but its
dominators.

The second fact is not local: when a link moves up, lines of blocks further down lose members, and a
block seen later in the pass might find its old link bypassed. What saves it is that the links of
the current pass agree along ascending edges, which lead from the old link down to the block.
-/
namespace Precedence

variable {E : Nat → Nat → Prop} {n i j k p v : Nat} {rows : List (Nat × List Nat)}

/-- A way leads from the entry to `i` that avoids `k`. -/
def Bypass (E : Nat → Nat → Prop) (k i : Nat) : Prop :=
  k ≠ 0 ∧ Relation.ReflTransGen (fun a b => E a b ∧ b ≠ k) 0 i

/-- A way of ascending edges. -/
def Ascends (E : Nat → Nat → Prop) : Nat → Nat → Prop :=
  Relation.ReflTransGen fun a b => E a b ∧ a < b

theorem Ascends.le (h : Ascends E j i) : j ≤ i := by
  induction h with
  | refl => exact le_rfl
  | tail _ hstep ih => exact ih.trans hstep.2.le

theorem Bypass.step (h : Bypass E k p) (hedge : E p i) (hne : i ≠ k) : Bypass E k i :=
  ⟨h.1, h.2.tail ⟨hedge, hne⟩⟩

/-- Behind a block a way that ascends meets no block in front of it. -/
theorem Bypass.ascend (h : Bypass E k j) (hway : Ascends E j i) (hlt : k < j) : Bypass E k i := by
  induction hway with
  | refl => exact h
  | tail hbefore hstep ih =>
    exact ih.step hstep.1 (hlt.trans_le ((Ascends.le hbefore).trans hstep.2.le)).ne'

/-- The rows give the predecessors of all positions behind the entry, in order, and each of these
has a predecessor in front of it. -/
structure Layout (E : Nat → Nat → Prop) (n : Nat) (rows : List (Nat × List Nat)) : Prop where
  positive : 0 < n
  inside : ∀ p i, E p i → p < n
  ascending : ∀ i, 0 < i → i < n → ∃ p, E p i ∧ p < i
  positions : rows.map Prod.fst = List.range' 1 (n - 1)
  mem_iff : ∀ row ∈ rows, ∀ p, p ∈ row.2 ↔ E p row.1

namespace Links

variable {d : Links}

/-- What holds of the links at the moment when a pass has looked at all positions before `v`. -/
structure Midway (E : Nat → Nat → Prop) (n v : Nat) (d : Links) : Prop where
  size : d.up.size = n
  closed : d.Closed
  /-- edges lead from each block's link down to the block -/
  ascends : ∀ i j, d.up? i = some j → Ascends E j i
  /-- the links of this pass agree with all ascending edges -/
  settled : ∀ p i, E p i → p < i → i < v → ∃ j, d.up? i = some j ∧ j ∈ d.line p
  /-- nothing above all predecessors of a block stands behind its link -/
  nearest : ∀ i j, d.up? i = some j → ∀ k, (∀ p, E p i → d.knows p → k ∈ d.line p) → k ≤ j
  /-- what cannot be bypassed is on the line -/
  sound : ∀ i k, d.knows i → ¬Bypass E k i → k ∈ d.line i

theorem up?_start : (start n).up? i = none := by
  simp only [up?, start, Array.getElem?_replicate]
  split <;> rfl

theorem midway_start : Midway E n 1 (start n) where
  size := by simp [start]
  closed i j h := by simp [up?_start] at h
  ascends i j h := by simp [up?_start] at h
  settled p i _ hlt hi := by omega
  nearest i j h := by simp [up?_start] at h
  sound i k hi hk := by
    obtain rfl : i = 0 := by simpa [knows, up?_start] using hi
    obtain rfl : k = 0 := by
      by_contra hne
      exact hk ⟨hne, .refl⟩
    exact self_mem_line

/-- What holds late in a pass held earlier, and holds when the next pass starts. -/
theorem Midway.anti {v' : Nat} (h : Midway E n v d) (hle : v' ≤ v) : Midway E n v' d :=
  { h with settled := fun p i hedge hlt hi => h.settled p i hedge hlt (hi.trans_le hle) }

theorem Midway.ascends_of_mem_line (h : Midway E n v d) (hk : k ∈ d.line i) : Ascends E k i := by
  induction i using Nat.strongRecOn with
  | ind i ih =>
    rcases mem_line.mp hk with rfl | ⟨j, hj, hk⟩
    · exact .refl
    · exact (ih j (d.earlier i j hj) hk).trans (h.ascends i j hj)

theorem Midway.knows_of_lt (hrows : Layout E n rows) (h : Midway E n v d) (hv : v ≤ n)
    (hi : i < v) : d.knows i := by
  rcases Nat.eq_zero_or_pos i with rfl | hpos
  · exact knows_zero
  · obtain ⟨p, hedge, hlt⟩ := hrows.ascending i hpos (hi.trans_le hv)
    obtain ⟨j, hj, -⟩ := h.settled p i hedge hlt hi
    exact knows_of_up? hj

/-- Looking at a position means to link it to the nearest block above all predecessors of which
something is known. -/
theorem Midway.relink_eq (hrows : Layout E n rows) (h : Midway E n v d) (hpos : 0 < v) (hv : v < n)
    {ps : List Nat} (hps : ∀ p, p ∈ ps ↔ E p v) :
    ∃ (m : Nat) (hm : m < v), d.relink v ps = d.set v m hm ∧
      ∀ k, k ∈ d.line m ↔ ∀ p, E p v → d.knows p → k ∈ d.line p := by
  obtain ⟨p, hedge, hlt⟩ := hrows.ascending v hpos hv
  have hp := h.knows_of_lt hrows hv.le hlt
  have hmem : p ∈ ps.filter d.knows := List.mem_filter.mpr ⟨(hps p).mpr hedge, hp⟩
  cases hfilter : ps.filter d.knows with
  | nil => simp [hfilter] at hmem
  | cons q rest =>
    have hknown : ∀ r, r ∈ q :: rest ↔ E r v ∧ d.knows r := by
      intro r
      rw [← hfilter, List.mem_filter, hps]
    set m := rest.foldl (fun j p => d.meet p j) q with hmdef
    have hline : ∀ k, k ∈ d.line m ↔ ∀ p, E p v → d.knows p → k ∈ d.line p := by
      intro k
      have hall : (k ∈ d.line q ∧ ∀ p ∈ rest, k ∈ d.line p) ↔ ∀ p ∈ q :: rest, k ∈ d.line p := by
        simp only [List.forall_mem_cons]
      rw [hmdef, h.closed.mem_line_foldl_meet ((hknown q).mp List.mem_cons_self).2
        fun r hr => ((hknown r).mp (List.mem_cons_of_mem q hr)).2, hall]
      simp only [hknown, and_imp]
    have hm : m < v := (le_of_mem_line ((hline m).mp self_mem_line p hedge hp)).trans_lt hlt
    exact ⟨m, hm, by simp [relink, hfilter, ← hmdef, hm], hline⟩

/-- A new link lies on the line of the old one. -/
theorem Midway.mem_line_old (h : Midway E n v d) {m o : Nat} (ho : d.up? v = some o)
    (hm : ∀ k, k ∈ d.line m ↔ ∀ p, E p v → d.knows p → k ∈ d.line p)
    (hknown : ∀ p, p < v → d.knows p) : m ∈ d.line o := by
  have hle : m ≤ o := h.nearest v o ho m fun p hp hk => (hm m).mp self_mem_line p hp hk
  -- along the ascending way from the old link to a predecessor, lines lose nothing so early
  have hway : ∀ y, Ascends E o y → y < v → m ∈ d.line y → m ∈ d.line o := by
    intro y hy
    induction hy with
    | refl => exact fun _ hmem => hmem
    | @tail x y hx hstep ih =>
      intro hyv hmem
      obtain ⟨j, hj, hjx⟩ := h.settled x y hstep.1 hstep.2 hyv
      have hne : m ≠ y := (hle.trans_lt ((Ascends.le hx).trans_lt hstep.2)).ne
      obtain ⟨j', hj', hmj⟩ := (mem_line.mp hmem).resolve_left hne
      obtain rfl := Option.some.inj (hj.symm.trans hj')
      exact ih (hstep.2.trans hyv) (mem_line_trans hmj hjx)
  cases h.ascends v o ho with
  | refl => exact absurd (d.earlier v v ho) (lt_irrefl v)
  | @tail p _ hop hpv =>
    exact hway p hop hpv.2 ((hm m).mp self_mem_line p hpv.1 (hknown p hpv.2))

/-- A link that is set anew takes nothing onto a line that was not on it. -/
theorem Midway.mem_line_of_set (h : Midway E n v d) (hv : v < n) {m : Nat} {hmv : m < v}
    (hold : ∀ o, d.up? v = some o → m ∈ d.line o) (hpos : 0 < v) (hi : d.knows i)
    (hk : k ∈ (d.set v m hmv).line i) : k ∈ d.line i := by
  have hsize : v < d.up.size := h.size.symm ▸ hv
  by_cases hvi : v ∈ d.line i
  · refine ((mem_line_set_of_mem hsize hvi).mp hk).elim And.right fun hkm => ?_
    obtain ⟨o, ho⟩ := exists_up? (h.closed.knows_of_mem_line hi hvi) hpos.ne'
    exact mem_line_trans (mem_line_of_up? ho (mem_line_trans hkm (hold o ho))) hvi
  · exact (mem_line_set_of_not_mem hsize hvi).mp hk

/-- Everything that holds midway through a pass holds when the next position has been looked at. -/
theorem Midway.relink (hrows : Layout E n rows) (h : Midway E n v d) (hpos : 0 < v) (hv : v < n)
    {ps : List Nat} (hps : ∀ p, p ∈ ps ↔ E p v) : Midway E n (v + 1) (d.relink v ps) := by
  obtain ⟨m, hmv, heq, hm⟩ := h.relink_eq hrows hpos hv hps
  have hknown : ∀ p, p < v → d.knows p := fun p hp => h.knows_of_lt hrows hv.le hp
  obtain ⟨f, hf, hfv⟩ := hrows.ascending v hpos hv
  have hmf : m ∈ d.line f := (hm m).mp self_mem_line f hf (hknown f hfv)
  have hsize : v < d.up.size := h.size.symm ▸ hv
  have hup : ∀ i, (d.set v m hmv).up? i = if i = v then some m else d.up? i := fun i => up?_set hsize
  have hknows : ∀ i, (d.set v m hmv).knows i ↔ i = v ∨ d.knows i := by
    intro i
    simp only [knows, hup]
    split <;> simp_all
  have hshrink : ∀ {i k}, d.knows i → k ∈ (d.set v m hmv).line i → k ∈ d.line i :=
    h.mem_line_of_set hv (fun o ho => h.mem_line_old ho hm hknown) hpos
  have hclear : ∀ {p k}, p < v → (k ∈ (d.set v m hmv).line p ↔ k ∈ d.line p) := fun hp =>
    mem_line_set_of_not_mem hsize fun hmem => Nat.not_le_of_lt hp (le_of_mem_line hmem)
  rw [heq]
  refine ⟨size_set.trans h.size, fun i j hj => ?_, fun i j hj => ?_, fun p i hedge hlt hi => ?_,
    fun i j hj k hk => ?_, fun i k hi hk => ?_⟩
  · rw [hup] at hj
    rw [hknows]
    split at hj
    · obtain rfl := Option.some.inj hj
      exact .inr (h.closed.knows_of_mem_line (hknown f hfv) hmf)
    · exact .inr (h.closed i j hj)
  · rw [hup] at hj
    split at hj
    next hiv =>
      obtain rfl := Option.some.inj hj
      exact hiv ▸ (h.ascends_of_mem_line hmf).tail ⟨hf, hfv⟩
    next => exact h.ascends i j hj
  · rw [hup]
    rcases (Nat.lt_succ_iff_lt_or_eq.mp hi) with hiv | rfl
    · obtain ⟨j, hj, hjp⟩ := h.settled p i hedge hlt hiv
      exact ⟨j, by rw [if_neg hiv.ne, hj], (hclear (hlt.trans hiv)).mpr hjp⟩
    · exact ⟨m, if_pos rfl, (hclear hlt).mpr ((hm m).mp self_mem_line p hedge (hknown p hlt))⟩
  · have hbefore : ∀ p, E p i → d.knows p → k ∈ d.line p := fun p hedge hp =>
      hshrink hp (hk p hedge ((hknows p).mpr (.inr hp)))
    rw [hup] at hj
    split at hj
    next hiv =>
      obtain rfl := Option.some.inj hj
      exact le_of_mem_line ((hm k).mpr (hiv ▸ hbefore))
    next => exact h.nearest i j hj k hbefore
  · by_cases hvi : v ∈ d.line i
    · rw [mem_line_set_of_mem hsize hvi]
      rcases Nat.lt_or_ge k v with hkv | hvk
      · -- what dominates `i` in front of `v` dominates `v` and all its predecessors
        have hkv' : ¬Bypass E k v := fun hby => hk (hby.ascend (h.ascends_of_mem_line hvi) hkv)
        exact .inr ((hm k).mpr fun p hedge hp =>
          h.sound p k hp fun hby => hkv' (hby.step hedge hkv.ne'))
      · rcases (hknows i).mp hi with rfl | hi
        · have hki : k = i := by
            by_contra hne
            have hkf := h.sound f k (hknown f hfv) fun hby => hk (hby.step hf (Ne.symm hne))
            exact absurd (le_of_mem_line hkf) (by omega)
          exact .inl ⟨hvk, hki ▸ self_mem_line⟩
        · exact .inl ⟨hvk, h.sound i k hi hk⟩
    · rw [mem_line_set_of_not_mem hsize hvi]
      refine h.sound i k (((hknows i).mp hi).resolve_left ?_) hk
      rintro rfl
      exact hvi self_mem_line

/-- How far the links are from the entry in all; a missing link counts as the farthest. -/
def distance (n : Nat) (d : Links) : Nat := ∑ i ∈ Finset.range n, (d.up? i).getD n

theorem distance_le : (start n).distance n ≤ n * n := by
  simp [distance, up?_start]

/-- Looking at a position changes nothing or brings its link closer to the entry. -/
theorem Midway.relink_eq_or_lt (hrows : Layout E n rows) (h : Midway E n v d) (hpos : 0 < v)
    (hv : v < n) {ps : List Nat} (hps : ∀ p, p ∈ ps ↔ E p v) :
    d.relink v ps = d ∨ (d.relink v ps).distance n < d.distance n := by
  obtain ⟨m, hmv, heq, hm⟩ := h.relink_eq hrows hpos hv hps
  have hsize : v < d.up.size := h.size.symm ▸ hv
  rw [heq]
  by_cases hup : d.up? v = some m
  · exact .inl (set_eq_self hup)
  have hlt : m < (d.up? v).getD n := by
    cases ho : d.up? v with
    | none => exact hmv.trans hv
    | some o =>
      have hmo := h.mem_line_old ho hm fun p hp => h.knows_of_lt hrows hv.le hp
      refine lt_of_le_of_ne (le_of_mem_line hmo) fun heq => hup ?_
      rw [ho, heq]
      rfl
  refine .inr (Finset.sum_lt_sum (fun i _ => ?_) ⟨v, Finset.mem_range.mpr hv, ?_⟩)
  · rw [up?_set hsize]
    split
    next hiv => exact hiv ▸ hlt.le
    next => exact le_rfl
  · rw [up?_set hsize, if_pos rfl]
    exact hlt

/-- A pass over the positions from `v` on changes nothing anywhere, or brings the links closer to
the entry. -/
theorem Midway.pass (hrows : Layout E n rows) {rest : List (Nat × List Nat)} (h : Midway E n v d)
    (hpos : 0 < v) (hrest : ∀ row ∈ rest, ∀ p, p ∈ row.2 ↔ E p row.1)
    (hfst : rest.map Prod.fst = List.range' v (n - v)) (hv : v ≤ n) :
    Midway E n n (d.pass rest) ∧
      (d.pass rest = d ∧ (∀ row ∈ rest, d.relink row.1 row.2 = d) ∨
        (d.pass rest).distance n < d.distance n) := by
  induction rest generalizing v d with
  | nil =>
    have hvn : n - v = 0 := by simpa using hfst.symm
    obtain rfl : v = n := by omega
    exact ⟨h, .inl ⟨rfl, by simp⟩⟩
  | cons row rest ih =>
    obtain ⟨u, ps⟩ := row
    cases hlen : n - v with
    | zero => simp [hlen] at hfst
    | succ len =>
      rw [hlen, List.map_cons, List.range'_succ, List.cons.injEq] at hfst
      obtain ⟨rfl, hfst⟩ := hfst
      have hps := hrest _ List.mem_cons_self
      obtain ⟨hend, hpass⟩ := ih (h.relink hrows hpos (by omega) hps) (by omega)
        (fun row hrow => hrest row (List.mem_cons_of_mem _ hrow))
        (by rw [hfst]; congr 1; omega) (by omega)
      refine ⟨hend, ?_⟩
      have hstep := h.relink_eq_or_lt hrows hpos (by omega) hps
      rw [show d.pass ((u, ps) :: rest) = (d.relink u ps).pass rest from rfl]
      rcases hstep with heq | hlt
      · rw [heq] at hpass ⊢
        exact hpass.imp_left fun ⟨hsame, hall⟩ => ⟨hsame, List.forall_mem_cons.mpr ⟨heq, hall⟩⟩
      · exact .inr (hpass.elim (fun hsame => hsame.1.symm ▸ hlt) (·.trans hlt))

/-- With as many rounds as the links are away from the entry, the passes go on until one of them
changes nothing. -/
theorem Midway.settle (hrows : Layout E n rows) {rounds : Nat} (h : Midway E n 1 d)
    (hrounds : d.distance n ≤ rounds) :
    Midway E n n (settle rows rounds d) ∧
      (settle rows rounds d).pass rows = settle rows rounds d ∧
      ∀ row ∈ rows, (settle rows rounds d).relink row.1 row.2 = settle rows rounds d := by
  induction rounds generalizing d with
  | zero =>
    obtain ⟨hend, hpass | hlt⟩ :=
      h.pass hrows zero_lt_one hrows.mem_iff hrows.positions hrows.positive
    · exact ⟨hpass.1 ▸ hend, hpass⟩
    · omega
  | succ rounds ih =>
    obtain ⟨hend, hpass⟩ :=
      h.pass hrows zero_lt_one hrows.mem_iff hrows.positions hrows.positive
    rw [Links.settle]
    by_cases hsame : d.pass rows = d
    · rw [if_pos hsame]
      refine ⟨hsame ▸ hend, hpass.elim id fun hlt => ?_⟩
      rw [hsame] at hlt
      exact absurd hlt (lt_irrefl _)
    · rw [if_neg hsame]
      refine ih (hend.anti hrows.positive) ?_
      have := hpass.resolve_left fun h => hsame h.1
      omega

/-- When no position changes any more, a line holds nothing but dominators. -/
theorem Midway.not_bypass (hrows : Layout E n rows) (h : Midway E n n d)
    (hsame : ∀ row ∈ rows, d.relink row.1 row.2 = d) (hk : k ∈ d.line i) : ¬Bypass E k i := by
  rintro ⟨hzero, hway⟩
  induction hway with
  | refl =>
    rw [line_zero, List.mem_singleton] at hk
    exact hzero hk
  | @tail x y _ hstep ih =>
    obtain ⟨j, hj, hkj⟩ := (mem_line.mp hk).resolve_left (Ne.symm hstep.2)
    have hpos : 0 < y := (Nat.zero_le j).trans_lt (d.earlier y j hj)
    have hy : y < n := by
      obtain ⟨hy, -⟩ := Array.getElem?_eq_some_iff.mp (Option.join_eq_some_iff.mp hj)
      exact h.size ▸ hy
    obtain ⟨row, hrow, rfl⟩ : ∃ row ∈ rows, row.1 = y := by
      rw [← List.mem_map, hrows.positions, List.mem_range'_1]
      omega
    obtain ⟨m, hmy, heq, hm⟩ :=
      (h.anti hy.le).relink_eq hrows hpos hy (hrows.mem_iff row hrow)
    have hjm : d.up? row.1 = some m := by
      conv_lhs => rw [← hsame row hrow, heq, up?_set (h.size.symm ▸ hy), if_pos rfl]
    obtain rfl := Option.some.inj (hj.symm.trans hjm)
    have hx : d.knows x := h.knows_of_lt hrows le_rfl (hrows.inside _ _ hstep.1)
    exact ih (mem_line_trans hkj ((hm j).mp self_mem_line x hstep.1 hx))

/-- The passes end when one of them changes nothing, and then the line of every position holds
exactly what no way from the entry to it can bypass. -/
theorem mem_line_settle (hrows : Layout E n rows) :
    (settle rows (n * n) (start n)).pass rows = settle rows (n * n) (start n) ∧
      ∀ i < n, ∀ k, k ∈ (settle rows (n * n) (start n)).line i ↔ ¬Bypass E k i := by
  obtain ⟨hend, hpass, hsame⟩ := midway_start.settle hrows (distance_le (n := n))
  exact ⟨hpass, fun i hi k => ⟨hend.not_bypass hrows hsame,
    hend.sound i k (hend.knows_of_lt hrows le_rfl hi)⟩⟩

end Links

end Precedence
