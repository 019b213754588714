import Mathlib.Logic.Relation
import Mathlib.Tactic.Tauto
import Precedence.Proofs.Flow.Reachable

/-!
Ways through the blocks of a function. A way is the list of the blocks that control runs through,
both ends included. Which blocks can be reached, which dominate which and which registers are live
are all said in terms of ways.
-/
namespace Precedence

variable {step : BlockId → BlockId → Prop} {a b c d : BlockId} {way way' : List BlockId}

/-- Steps lead from `a` through the blocks of a list, in that order, to `b`. -/
inductive Way (step : BlockId → BlockId → Prop) : BlockId → BlockId → List BlockId → Prop
  | stay (a : BlockId) : Way step a a [a]
  | go {a b c : BlockId} {way : List BlockId} :
      step a b → Way step b c way → Way step a c (a :: way)

namespace Way

theorem first_mem (h : Way step a b way) : a ∈ way := by
  cases h <;> exact List.mem_cons_self

theorem last_mem (h : Way step a b way) : b ∈ way := by
  induction h with
  | stay => exact List.mem_cons_self
  | go _ _ ih => exact List.mem_cons_of_mem _ ih

theorem trans (h : Way step a b way) (h' : Way step b c way') :
    ∃ whole, Way step a c whole ∧ ∀ x, x ∈ whole ↔ x ∈ way ∨ x ∈ way' := by
  induction h with
  | stay a =>
    refine ⟨way', h', fun x => ?_⟩
    rw [List.mem_singleton, iff_or_self]
    rintro rfl
    exact h'.first_mem
  | go hstep _ ih =>
    obtain ⟨whole, hwhole, hmem⟩ := ih h'
    refine ⟨_, .go hstep hwhole, fun x => ?_⟩
    simp only [List.mem_cons, hmem, or_assoc]

theorem snoc (h : Way step a b way) (hstep : step b c) : Way step a c (way ++ [c]) := by
  induction h with
  | stay a => exact .go hstep (.stay c)
  | go hfirst _ ih => exact .go hfirst (ih hstep)

/-- Up to each of its blocks a way is a way. -/
theorem upTo (h : Way step a b way) (hc : c ∈ way) :
    ∃ front, Way step a c front ∧ ∀ x ∈ front, x ∈ way := by
  induction h with
  | stay a =>
    obtain rfl := List.mem_singleton.mp hc
    exact ⟨[c], .stay c, fun x hx => hx⟩
  | @go a b' b way hstep _ ih =>
    rcases List.mem_cons.mp hc with rfl | hc
    · exact ⟨[c], .stay c, fun x hx => List.mem_singleton.mp hx ▸ List.mem_cons_self⟩
    · obtain ⟨front, hfront, hsub⟩ := ih hc
      exact ⟨a :: front, .go hstep hfront, List.cons_subset_cons a hsub⟩

/-- From each of its blocks on a way is a way. -/
theorem behind (h : Way step a b way) (hc : c ∈ way) :
    ∃ back, Way step c b back ∧ ∀ x ∈ back, x ∈ way := by
  induction h with
  | stay a =>
    obtain rfl := List.mem_singleton.mp hc
    exact ⟨[c], .stay c, fun x hx => hx⟩
  | @go a b' b way hstep hrest ih =>
    rcases List.mem_cons.mp hc with rfl | hc
    · exact ⟨c :: way, .go hstep hrest, fun x hx => hx⟩
    · obtain ⟨back, hback, hsub⟩ := ih hc
      exact ⟨back, hback, fun x hx => List.mem_cons_of_mem a (hsub x hx)⟩

end Way

/-- Ways inside a set of blocks are what steps into that set lead along. -/
theorem exists_way_iff {p : BlockId → Prop} :
    (∃ way, Way step a b way ∧ ∀ x ∈ way, p x) ↔
      p a ∧ Relation.ReflTransGen (fun x y => step x y ∧ p y) a b := by
  constructor
  · rintro ⟨way, hway, hall⟩
    induction hway with
    | stay a => exact ⟨hall a List.mem_cons_self, .refl⟩
    | go hstep _ ih =>
      obtain ⟨hb, hrest⟩ := ih fun x hx => hall x (List.mem_cons_of_mem _ hx)
      exact ⟨hall _ List.mem_cons_self, .head ⟨hstep, hb⟩ hrest⟩
  · rintro ⟨ha, hsteps⟩
    induction hsteps with
    | refl => exact ⟨[a], .stay a, fun x hx => List.mem_singleton.mp hx ▸ ha⟩
    | @tail x y _ hxy ih =>
      obtain ⟨way, hway, hall⟩ := ih
      refine ⟨way ++ [y], hway.snoc hxy.1, fun z hz => ?_⟩
      rcases List.mem_append.mp hz with hz | hz
      · exact hall z hz
      · exact List.mem_singleton.mp hz ▸ hxy.2

theorem exists_way_iff_reflTransGen :
    (∃ way, Way step a b way) ↔ Relation.ReflTransGen step a b := by
  simpa using @exists_way_iff step a b fun _ => True

/-! Ways that avoid a block -/

/-- Some way from `a` to `b` does not pass through `c`. -/
def Avoids (step : BlockId → BlockId → Prop) (c a b : BlockId) : Prop :=
  ∃ way, Way step a b way ∧ c ∉ way

namespace Avoids

theorem iff_reflTransGen :
    Avoids step c a b ↔ a ≠ c ∧ Relation.ReflTransGen (fun x y => step x y ∧ y ≠ c) a b := by
  refine Iff.trans ?_ (exists_way_iff (p := fun x => x ≠ c))
  refine exists_congr fun way => and_congr_right fun _ => ?_
  exact ⟨fun h x hx heq => h (heq ▸ hx), fun h hc => h c hc rfl⟩

theorem refl (h : a ≠ c) : Avoids step c a a :=
  ⟨[a], .stay a, fun hc => h (List.mem_singleton.mp hc).symm⟩

theorem trans (h : Avoids step c a b) (h' : Avoids step c b d) : Avoids step c a d := by
  obtain ⟨way, hway, hc⟩ := h
  obtain ⟨way', hway', hc'⟩ := h'
  obtain ⟨whole, hwhole, hmem⟩ := hway.trans hway'
  exact ⟨whole, hwhole, fun h => ((hmem c).mp h).elim hc hc'⟩

theorem tail (h : Avoids step c a b) (hstep : step b d) (hd : d ≠ c) : Avoids step c a d := by
  obtain ⟨way, hway, hc⟩ := h
  refine ⟨way ++ [d], hway.snoc hstep, fun hmem => ?_⟩
  rcases List.mem_append.mp hmem with hmem | hmem
  · exact hc hmem
  · exact hd (List.mem_singleton.mp hmem).symm

theorem head (h : Avoids step c b d) (hstep : step a b) (ha : a ≠ c) : Avoids step c a d := by
  obtain ⟨way, hway, hc⟩ := h
  exact ⟨a :: way, .go hstep hway, fun hmem => (List.mem_cons.mp hmem).elim (ha ·.symm) hc⟩

theorem eq_or_last (h : Avoids step c a b) : a = b ∨ ∃ d, Avoids step c a d ∧ step d b := by
  obtain ⟨hne, hway⟩ := iff_reflTransGen.mp h
  rcases hway.cases_tail with heq | ⟨d, hd, hstep, -⟩
  · exact .inl heq.symm
  · exact .inr ⟨d, iff_reflTransGen.mpr ⟨hne, hd⟩, hstep⟩

theorem left_ne (h : Avoids step c a b) : a ≠ c := by
  obtain ⟨way, hway, hc⟩ := h
  exact fun heq => hc (heq ▸ hway.first_mem)

theorem right_ne (h : Avoids step c a b) : b ≠ c := by
  obtain ⟨way, hway, hc⟩ := h
  exact fun heq => hc (heq ▸ hway.last_mem)

/-- A block that cannot be reached is avoided. -/
theorem of_not_reaches (h : Relation.ReflTransGen step a b)
    (hc : ¬Relation.ReflTransGen step a c) : Avoids step c a b := by
  obtain ⟨way, hway⟩ := exists_way_iff_reflTransGen.mpr h
  refine ⟨way, hway, fun hmem => hc ?_⟩
  obtain ⟨front, hfront, -⟩ := hway.upTo hmem
  exact exists_way_iff_reflTransGen.mp ⟨front, hfront⟩

end Avoids

/-! Control flow in a function -/

namespace Function

variable {f : Function}

/-- Control may go from `a` to `b`: both name blocks, and `b` is a successor of `a`. -/
def Edge (f : Function) (a b : BlockId) : Prop :=
  ∃ block ∈ f.blocks, block.id = a ∧ b ∈ block.successors ∧ f.hasBlock b

/-- Some way leads from the entry to `b`. -/
def Reaches (f : Function) (b : BlockId) : Prop := ∃ way, Way f.Edge f.entry b way

/-- Every way from the entry to `b` passes through `a`. -/
def Dominates (f : Function) (a b : BlockId) : Prop := ∀ way, Way f.Edge f.entry b way → a ∈ way

def StrictlyDominates (f : Function) (a b : BlockId) : Prop := f.Dominates a b ∧ a ≠ b

/-- A strict dominator that all other strict dominators dominate. -/
def ImmediatelyDominates (f : Function) (a b : BlockId) : Prop :=
  f.StrictlyDominates a b ∧ ∀ c, f.StrictlyDominates c b → c ≠ a → f.Dominates c a

theorem dominates_iff_not_avoids : f.Dominates a b ↔ ¬Avoids f.Edge a f.entry b := by
  simp only [Dominates, Avoids, not_exists, not_and, not_not]

theorem reaches_iff : f.Reaches b ↔ Relation.ReflTransGen f.Edge f.entry b :=
  exists_way_iff_reflTransGen

theorem Reaches.tail (h : f.Reaches a) (hedge : f.Edge a b) : f.Reaches b := by
  obtain ⟨way, hway⟩ := h
  exact ⟨_, hway.snoc hedge⟩

/-- A reached block is the entry or entered from another one. -/
theorem Reaches.eq_or_entered (h : f.Reaches b) : b = f.entry ∨ ∃ a, f.Edge a b :=
  (reaches_iff.mp h).cases_tail.imp_right fun ⟨a, _, hedge⟩ => ⟨a, hedge⟩

theorem Reaches.hasBlock (hentry : f.hasBlock f.entry) (h : f.Reaches b) : f.hasBlock b := by
  rcases h.eq_or_entered with rfl | ⟨a, block, -, -, -, hb⟩
  · exact hentry
  · exact hb

theorem dominates_self : f.Dominates a a := fun _ hway => hway.last_mem

theorem Dominates.reaches (h : f.Dominates a b) (hb : f.Reaches b) : f.Reaches a := by
  obtain ⟨way, hway⟩ := hb
  obtain ⟨front, hfront, -⟩ := hway.upTo (h way hway)
  exact ⟨front, hfront⟩

theorem Dominates.trans (h : f.Dominates a b) (h' : f.Dominates b c) : f.Dominates a c := by
  intro way hway
  obtain ⟨front, hfront, hsub⟩ := hway.upTo (h' way hway)
  exact hsub a (h front hfront)

/-- Nothing stands above the entry. -/
theorem StrictlyDominates.ne_entry (h : f.StrictlyDominates a b) : b ≠ f.entry := by
  rintro rfl
  exact h.2 (List.mem_singleton.mp (h.1 _ (.stay _)))

end Function

end Precedence
