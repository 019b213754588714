import Mathlib.Tactic

/-!
Computations that return. Nearly every statement about a builder begins with a computation that has
returned a value; here it is taken apart into the computations it was put together from, and a loop
into its rounds.
-/
namespace Precedence

variable {ε α β : Type}

theorem bind_eq_ok {x : Except ε α} {f : α → Except ε β} {b : β} :
    x >>= f = .ok b ↔ ∃ a, x = .ok a ∧ f a = .ok b := by
  cases x with
  | error e => simp [bind, Except.bind]
  | ok a => simp [bind, Except.bind]

theorem pure_eq_ok {a b : α} : (pure a : Except ε α) = .ok b ↔ a = b := by
  simp [pure, Except.pure]

theorem throw_eq_ok {e : ε} {a : α} : (throw e : Except ε α) = .ok a ↔ False :=
  ⟨nofun, False.elim⟩

theorem exists_of_isOk {x : Except ε α} (h : x.isOk) : ∃ a, x = .ok a := by
  cases x with
  | error e => simp [Except.isOk, Except.toBool] at h
  | ok a => exact ⟨a, rfl⟩

theorem exists_of_map_decide {x : Except ε α} {P : α → Prop} [DecidablePred P]
    (h : x.map (fun a => decide (P a)) = .ok true) : ∃ a, x = .ok a ∧ P a := by
  cases x with
  | error e => simp [Except.map] at h
  | ok a => exact ⟨a, rfl, by simpa [Except.map] using h⟩

/-- What every round of a loop keeps holds at its end. -/
theorem foldlM_keeps {f : β → α → Except ε β} {l : List α} {s s' : β} (P : β → Prop)
    (step : ∀ a ∈ l, ∀ s s', P s → f s a = .ok s' → P s') (hs : P s)
    (h : l.foldlM f s = .ok s') : P s' := by
  induction l generalizing s with
  | nil =>
    rw [List.foldlM_nil, pure_eq_ok] at h
    exact h ▸ hs
  | cons a l ih =>
    rw [List.foldlM_cons, bind_eq_ok] at h
    obtain ⟨t, ht, h⟩ := h
    exact ih (fun b hb => step b (List.mem_cons_of_mem a hb))
      (step a List.mem_cons_self s t hs ht) h

/-- Every element of a list gets its round: the rounds before it keep `P`, and `R` relates the
state right behind it to the last one. -/
theorem foldlM_round {f : β → α → Except ε β} {l : List α} {s s' : β} (P : β → Prop)
    (R : β → β → Prop) (refl : ∀ s, R s s) (trans : ∀ s t u, R s t → R t u → R s u)
    (step : ∀ a ∈ l, ∀ s s', P s → f s a = .ok s' → P s' ∧ R s s') (hs : P s)
    (h : l.foldlM f s = .ok s') {a : α} (ha : a ∈ l) :
    ∃ t t', P t ∧ R s t ∧ f t a = .ok t' ∧ R t' s' := by
  induction l generalizing s with
  | nil => simp at ha
  | cons b l ih =>
    rw [List.foldlM_cons, bind_eq_ok] at h
    obtain ⟨t, ht, h⟩ := h
    have hstep := fun c hc => step c (List.mem_cons_of_mem b hc)
    obtain ⟨htP, hst⟩ := step b List.mem_cons_self s t hs ht
    rcases List.mem_cons.mp ha with rfl | ha
    · have hrest := foldlM_keeps (fun u => P u ∧ R t u)
        (fun c hc u u' hu hcu => ⟨(hstep c hc u u' hu.1 hcu).1,
          trans _ _ _ hu.2 (hstep c hc u u' hu.1 hcu).2⟩) ⟨htP, refl t⟩ h
      exact ⟨s, t, hs, refl s, ht, hrest.2⟩
    · obtain ⟨u, u', hu, htu, huu, hus⟩ := ih hstep htP h ha
      exact ⟨u, u', hu, trans _ _ _ hst htu, huu, hus⟩

/-- The rounds of a loop over a list, each of them related by `R`. -/
inductive Rounds (R : α → β → β → Prop) : List α → β → β → Prop
  | nil (s : β) : Rounds R [] s s
  | cons {a : α} {l : List α} {s t u : β} (first : R a s t) (rest : Rounds R l t u) :
      Rounds R (a :: l) s u

/-- Rounds that keep `P`, and that `P` lets be related by `R`. -/
theorem rounds_of_foldlM {f : β → α → Except ε β} {l : List α} {s s' : β} (P : β → Prop)
    {R : α → β → β → Prop}
    (step : ∀ a ∈ l, ∀ s s', P s → f s a = .ok s' → P s' ∧ R a s s') (hs : P s)
    (h : l.foldlM f s = .ok s') : P s' ∧ Rounds R l s s' := by
  induction l generalizing s with
  | nil =>
    rw [List.foldlM_nil, pure_eq_ok] at h
    exact h ▸ ⟨hs, .nil s⟩
  | cons a l ih =>
    rw [List.foldlM_cons, bind_eq_ok] at h
    obtain ⟨t, ht, h⟩ := h
    obtain ⟨htP, hst⟩ := step a List.mem_cons_self s t hs ht
    obtain ⟨hP, hrest⟩ := ih (fun b hb => step b (List.mem_cons_of_mem a hb)) htP h
    exact ⟨hP, .cons hst hrest⟩

theorem Rounds.relates {R : α → β → β → Prop} {l : List α} {s s' : β} (T : β → β → Prop)
    (refl : ∀ s, T s s) (trans : ∀ s t u, T s t → T t u → T s u)
    (round : ∀ a s t, R a s t → T s t) (h : Rounds R l s s') : T s s' := by
  induction h with
  | nil s => exact refl s
  | cons first _ ih => exact trans _ _ _ (round _ _ _ first) ih

end Precedence
