import Mathlib.Logic.Relation
import Mathlib.Tactic.Tauto
import Precedence.Flow.Graph
import Precedence.Flow.Spread

/-!
What the searches through a flow graph find. Both the depth-first search and the search for all that
can be reached take blocks out of a set as they meet them; either way they find the blocks to which
a way leads that stays inside the set.
-/
namespace Precedence

variable {next : BlockId → List BlockId} {fresh : BlockSet} {todo : List BlockId} {a b c : BlockId}

/-- One step along a relation between blocks that ends inside a set. -/
def StepInside (next : BlockId → List BlockId) (fresh : BlockSet) (a b : BlockId) : Prop :=
  b ∈ next a ∧ fresh.contains b

/-- A way inside the set leads from one of the blocks of `todo` to `b`. -/
def FoundFrom (next : BlockId → List BlockId) (todo : List BlockId) (fresh : BlockSet)
    (b : BlockId) : Prop :=
  ∃ a ∈ todo, fresh.contains a ∧ Relation.ReflTransGen (StepInside next fresh) a b

theorem foundFrom_nil : ¬FoundFrom next [] fresh b := by
  rintro ⟨a, ha, -⟩
  simp at ha

theorem foundFrom_cons_of_not_fresh (h : ¬fresh.contains c) :
    FoundFrom next (c :: todo) fresh b ↔ FoundFrom next todo fresh b := by
  constructor
  · rintro ⟨a, ha, hfresh, hway⟩
    rcases List.mem_cons.mp ha with rfl | ha
    · exact absurd hfresh h
    · exact ⟨a, ha, hfresh, hway⟩
  · rintro ⟨a, ha, hfresh, hway⟩
    exact ⟨a, List.mem_cons_of_mem c ha, hfresh, hway⟩

/-- A way inside a set either ends at `c`, or what follows its last visit to `c` avoids `c`. -/
theorem foundFrom_erase_of_way (ha : fresh.contains a)
    (hway : Relation.ReflTransGen (StepInside next fresh) a b) :
    b = c ∨ FoundFrom next (a :: next c) (fresh.erase c) b := by
  induction hway with
  | refl =>
    by_cases hac : a = c
    · exact .inl hac
    · exact .inr ⟨a, List.mem_cons_self, by simp [BlockSet.contains_erase, hac, ha], .refl⟩
  | @tail x y _ hxy ih =>
    by_cases hyc : y = c
    · exact .inl hyc
    have hy : (fresh.erase c).contains y := by
      simpa [BlockSet.contains_erase, hyc] using hxy.2
    rcases ih with rfl | ⟨z, hz, hfresh, hzx⟩
    · exact .inr ⟨y, List.mem_cons_of_mem a hxy.1, hy, .refl⟩
    · exact .inr ⟨z, hz, hfresh, hzx.tail ⟨hxy.1, hy⟩⟩

theorem StepInside.of_erase (h : StepInside next (fresh.erase c) a b) :
    StepInside next fresh a b := by
  refine ⟨h.1, ?_⟩
  have := h.2
  rw [BlockSet.contains_erase, Bool.and_eq_true] at this
  exact this.2

theorem foundFrom_cons_of_fresh (h : fresh.contains c) :
    FoundFrom next (c :: todo) fresh b ↔
      b = c ∨ FoundFrom next (next c ++ todo) (fresh.erase c) b := by
  constructor
  · rintro ⟨a, ha, hfresh, hway⟩
    refine (foundFrom_erase_of_way (c := c) hfresh hway).imp_right ?_
    rintro ⟨z, hz, hzfresh, hzway⟩
    refine ⟨z, ?_, hzfresh, hzway⟩
    rcases List.mem_cons.mp hz with rfl | hz
    · rcases List.mem_cons.mp ha with rfl | ha
      · simp [BlockSet.contains_erase] at hzfresh
      · exact List.mem_append_right _ ha
    · exact List.mem_append_left _ hz
  · rintro (rfl | ⟨a, ha, hfresh, hway⟩)
    · exact ⟨b, List.mem_cons_self, h, .refl⟩
    have hfresh' : fresh.contains a := by
      rw [BlockSet.contains_erase, Bool.and_eq_true] at hfresh
      exact hfresh.2
    have hway' : Relation.ReflTransGen (StepInside next fresh) a b :=
      Relation.ReflTransGen.mono (fun _ _ => StepInside.of_erase) _ _ hway
    rcases List.mem_append.mp ha with ha | ha
    · exact ⟨c, List.mem_cons_self, h, .head ⟨ha, hfresh'⟩ hway'⟩
    · exact ⟨a, List.mem_cons_of_mem c ha, hfresh', hway'⟩

theorem mem_spread : b ∈ spread next todo fresh ↔ FoundFrom next todo fresh b := by
  fun_induction spread next todo fresh with
  | case1 => simpa using foundFrom_nil
  | case2 fresh c todo hc ih => rw [List.mem_cons, ih, foundFrom_cons_of_fresh hc]
  | case3 fresh c todo hc ih => rw [ih, foundFrom_cons_of_not_fresh hc]

theorem FoundFrom.inside (h : FoundFrom next todo fresh b) : fresh.contains b := by
  obtain ⟨a, -, hfresh, hway⟩ := h
  cases hway with
  | refl => exact hfresh
  | tail _ hstep => exact hstep.2

theorem nodup_spread : (spread next todo fresh).Nodup := by
  fun_induction spread next todo fresh with
  | case1 => exact List.nodup_nil
  | case2 fresh c todo hc ih =>
    refine List.nodup_cons.mpr ⟨fun hmem => ?_, ih⟩
    simpa [BlockSet.contains_erase] using (mem_spread.mp hmem).inside
  | case3 fresh c todo hc ih => exact ih

/-- What a depth-first search finishes: the blocks finished before, those that are open, and what
can be found from the successors that these have not looked at. -/
theorem mem_finishOrder {stack : List (BlockId × List BlockId)} {done : List BlockId} :
    b ∈ finishOrder next stack fresh done ↔
      b ∈ done ∨ b ∈ stack.map Prod.fst ∨ FoundFrom next (stack.flatMap Prod.snd) fresh b := by
  fun_induction finishOrder next stack fresh done with
  | case1 fresh done => simp [foundFrom_nil]
  | case2 c stack fresh done ih =>
    rw [ih]
    simp only [List.map_cons, List.mem_cons, List.flatMap_cons, List.nil_append]
    tauto
  | case3 c s later stack fresh done hs ih =>
    rw [ih]
    simp only [List.map_cons, List.mem_cons, List.flatMap_cons, List.cons_append,
      foundFrom_cons_of_fresh hs]
    tauto
  | case4 c s later stack fresh done hs ih =>
    rw [ih]
    simp only [List.map_cons, List.flatMap_cons, List.cons_append,
      foundFrom_cons_of_not_fresh hs]

end Precedence
