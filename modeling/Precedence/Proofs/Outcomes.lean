import Precedence.Proofs.Returns

/-!
Outcomes of computations. A computation that must return is described by what holds of its value, and
two computations that must agree by a relation between their values: they fail alike or return
related values. Either description is carried through a sequence of computations and a loop.
-/
namespace Precedence

variable {ε α β γ δ : Type}

/-! Computations that must return -/

/-- The computation returns, with a value that satisfies `P`. -/
def Returns (x : Except ε α) (P : α → Prop) : Prop := ∃ a, x = .ok a ∧ P a

namespace Returns

variable {x : Except ε α} {f : α → Except ε β} {P Q : α → Prop} {R : β → Prop} {a : α}

theorem ok (h : P a) : Returns (.ok a : Except ε α) P := ⟨a, rfl, h⟩

theorem pure (h : P a) : Returns (Pure.pure a : Except ε α) P := ⟨a, rfl, h⟩

theorem bind (h : Returns x P) (hf : ∀ a, P a → Returns (f a) R) : Returns (x >>= f) R := by
  obtain ⟨a, rfl, ha⟩ := h
  exact hf a ha

/-- What the value satisfies may be read off the computation itself. -/
theorem mono (h : Returns x P) (hmono : ∀ a, x = .ok a → P a → Q a) : Returns x Q := by
  obtain ⟨a, ha, hP⟩ := h
  exact ⟨a, ha, hmono a ha hP⟩

end Returns

theorem returns_of_eq {x : Except ε α} {a : α} (h : x = .ok a) : Returns x fun b => b = a :=
  ⟨a, h, rfl⟩

/-- A loop returns when every round does and keeps `P`, on which the rounds may rely. -/
theorem returns_foldlM {f : β → α → Except ε β} {l : List α} {s : β} (P : β → Prop)
    (step : ∀ a ∈ l, ∀ s, P s → Returns (f s a) P) (hs : P s) : Returns (l.foldlM f s) P := by
  induction l generalizing s with
  | nil => exact .pure hs
  | cons a l ih =>
    rw [List.foldlM_cons]
    exact (step a List.mem_cons_self s hs).bind fun t ht =>
      ih (fun b hb => step b (List.mem_cons_of_mem a hb)) ht

theorem forM_ok {f : α → Except ε PUnit} {l : List α} (h : ∀ a ∈ l, f a = .ok ()) :
    l.forM f = .ok () := by
  induction l with
  | nil => rfl
  | cons a l ih =>
    exact bind_eq_ok.mpr
      ⟨(), h a List.mem_cons_self, ih fun b hb => h b (List.mem_cons_of_mem a hb)⟩

theorem returns_mapM {f : α → Except ε β} {l : List α} (h : ∀ a ∈ l, ∃ b, f a = .ok b) :
    ∃ bs, l.mapM f = .ok bs := by
  induction l with
  | nil => exact ⟨[], rfl⟩
  | cons a l ih =>
    obtain ⟨b, hb⟩ := h a List.mem_cons_self
    obtain ⟨bs, hbs⟩ := ih fun c hc => h c (List.mem_cons_of_mem a hc)
    refine ⟨b :: bs, ?_⟩
    rw [List.mapM_cons, bind_eq_ok]
    exact ⟨b, hb, bind_eq_ok.mpr ⟨bs, hbs, rfl⟩⟩

/-! Computations that must agree -/

/-- Both computations fail with one error, or both return and `R` relates the values. -/
inductive Alike (R : α → β → Prop) : Except ε α → Except ε β → Prop
  | error (e : ε) : Alike R (.error e) (.error e)
  | ok {a : α} {b : β} (h : R a b) : Alike R (.ok a) (.ok b)

namespace Alike

variable {x : Except ε α} {y : Except ε β} {R : α → β → Prop}

theorem pure {a : α} {b : β} (h : R a b) :
    Alike R (Pure.pure a : Except ε α) (Pure.pure b : Except ε β) := .ok h

theorem refl {S : α → α → Prop} (hR : ∀ a, S a a) (z : Except ε α) : Alike S z z := by
  cases z with
  | error e => exact .error e
  | ok a => exact .ok (hR a)

theorem bind {S : γ → δ → Prop} {f : α → Except ε γ} {g : β → Except ε δ} (h : Alike R x y)
    (hfg : ∀ a b, R a b → Alike S (f a) (g b)) : Alike S (x >>= f) (y >>= g) := by
  cases h with
  | error e => exact .error e
  | ok hab => exact hfg _ _ hab

/-- Both go on from what one and the same computation returns. -/
theorem bind_same_ok {S : γ → δ → Prop} {f : α → Except ε γ} {g : α → Except ε δ}
    (hfg : ∀ a, x = .ok a → Alike S (f a) (g a)) : Alike S (x >>= f) (x >>= g) := by
  cases x with
  | error e => exact .error e
  | ok a => exact hfg a rfl

theorem bind_same {S : γ → δ → Prop} {f : α → Except ε γ} {g : α → Except ε δ}
    (hfg : ∀ a, Alike S (f a) (g a)) : Alike S (x >>= f) (x >>= g) :=
  bind_same_ok fun a _ => hfg a

theorem mono {S : α → β → Prop} (h : Alike R x y) (hRS : ∀ a b, R a b → S a b) : Alike S x y := by
  cases h with
  | error e => exact .error e
  | ok hab => exact .ok (hRS _ _ hab)

theorem eq {z : Except ε α} (h : Alike Eq x z) : x = z := by
  cases h with
  | error e => rfl
  | ok hab => rw [hab]

/-- Where two computations are known to fail alike, what they return is all that matters. -/
theorem of_ok {S : α → β → Prop} (h : Alike R x y)
    (hok : ∀ a b, x = .ok a → y = .ok b → S a b) : Alike S x y := by
  cases h with
  | error e => exact .error e
  | ok hab => exact .ok (hok _ _ rfl rfl)

theorem and {S : α → β → Prop} (h : Alike R x y) (h' : Alike S x y) :
    Alike (fun a b => R a b ∧ S a b) x y := by
  cases h with
  | error e => exact .error e
  | ok hR =>
    cases h' with
    | ok hS => exact .ok ⟨hR, hS⟩

theorem symm (h : Alike R x y) : Alike (fun b a => R a b) y x := by
  cases h with
  | error e => exact .error e
  | ok hab => exact .ok hab

/-- Where one of the two returns, so does the other one. -/
theorem exists_ok {a : α} (h : Alike R (.ok a) y) : ∃ b, y = .ok b ∧ R a b := by
  cases h with
  | ok hab => exact ⟨_, rfl, hab⟩

/-- The same loop from related states, with rounds that keep the relation. -/
theorem foldlM {f : α → γ → Except ε α} {g : β → γ → Except ε β} {l : List γ} {a : α} {b : β}
    (step : ∀ c ∈ l, ∀ a b, R a b → Alike R (f a c) (g b c)) (h : R a b) :
    Alike R (l.foldlM f a) (l.foldlM g b) := by
  induction l generalizing a b with
  | nil => exact .ok h
  | cons c l ih =>
    rw [List.foldlM_cons, List.foldlM_cons]
    exact (step c List.mem_cons_self a b h).bind fun s t hst =>
      ih (fun d hd => step d (List.mem_cons_of_mem c hd)) hst

end Alike

end Precedence
