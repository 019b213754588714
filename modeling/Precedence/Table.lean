import Std.Data.TreeMap

/-!
Finite maps with numbers as keys, walked through in ascending order of the keys.
-/
namespace Precedence

abbrev Table (α : Type) := Std.TreeMap Nat α

namespace Table

variable {α : Type}

/-- The list under a key, empty if there is none. -/
def listAt (t : Table (List α)) (key : Nat) : List α := t.getD key []

theorem mem_listAt {t : Table (List α)} {key : Nat} {x : α} :
    x ∈ t.listAt key ↔ ∃ l, t.get? key = some l ∧ x ∈ l := by
  rw [listAt, Std.TreeMap.getD_eq_getD_getElem?, Std.TreeMap.get?_eq_getElem?]
  cases t[key]? <;> simp

/-- Gathers values under their keys, those of one key in the order given. -/
def gather (pairs : List (Nat × α)) : Table (List α) :=
  pairs.foldr (fun e t => t.insert e.1 (e.2 :: t.listAt e.1)) {}

theorem listAt_gather {key : Nat} (pairs : List (Nat × α)) :
    (gather pairs).listAt key = (pairs.filter fun e => e.1 == key).map Prod.snd := by
  induction pairs with
  | nil => simp [gather, listAt]
  | cons e rest ih =>
    simp only [gather, listAt] at ih
    simp only [gather, listAt, List.foldr_cons, Std.TreeMap.getD_insert]
    by_cases h : e.1 = key
    · subst h
      simp [ih]
    · simp [h, ih]

section Insertions

variable {β : Type} {key : β → Nat} {value : β → α}

/-- After insertions under different keys, each key has the value that was inserted under it. -/
theorem get?_foldl_insert {l : List β} {t : Table α} {n : Nat} {x : α} (h : (l.map key).Nodup) :
    (l.foldl (fun t e => t.insert (key e) (value e)) t).get? n = some x ↔
      (∃ e ∈ l, key e = n ∧ value e = x) ∨ (n ∉ l.map key ∧ t.get? n = some x) := by
  induction l generalizing t with
  | nil => simp
  | cons e rest ih =>
    rw [List.map_cons, List.nodup_cons] at h
    rw [List.foldl_cons, ih h.2, Std.TreeMap.get?_eq_getElem?, Std.TreeMap.getElem?_insert]
    by_cases hn : key e = n
    · subst hn
      -- no later insertion is under the same key
      have hnone : ∀ e' ∈ rest, key e' ≠ key e := fun e' he' heq =>
        h.1 (List.mem_map.2 ⟨e', he', heq⟩)
      simp only [h.1, List.mem_cons, List.map_cons]
      grind
    · simp only [List.mem_cons, List.map_cons]
      grind

theorem contains_foldl_insert {l : List β} {t : Table α} {n : Nat} :
    (l.foldl (fun t e => t.insert (key e) (value e)) t).contains n ↔
      (∃ e ∈ l, key e = n) ∨ t.contains n := by
  induction l generalizing t with
  | nil => simp
  | cons e rest ih =>
    rw [List.foldl_cons, ih, Std.TreeMap.contains_insert]
    simp only [List.mem_cons, Bool.or_eq_true, beq_iff_eq, Std.compare_eq_iff_eq]
    grind

end Insertions

end Table

end Precedence
