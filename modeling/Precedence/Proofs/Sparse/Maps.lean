import Precedence.Sparse.Tracker
import Precedence.Proofs.Returns

/-!
Sparse maps hold what was put into them. A map answers the default value for a key it does not have,
so its contents are one function of the key, and every operation is described by what it does to
that function.
-/
namespace Precedence

namespace SparseKeys

/-- Every member's slot is the place where the member stands. -/
def Consistent (s : SparseKeys) : Prop :=
  ∀ i key : Nat, s.dense[i]? = some key → s.slots[key]? = some i

theorem place?_eq_some {s : SparseKeys} {key slot : Nat} :
    s.place? key = some slot ↔ s.slots[key]? = some slot ∧ s.dense[slot]? = some key := by
  simp [place?, Option.filter_eq_some_iff]

/-- Where some member has a place there is a last member. -/
theorem back?_of_place? {s : SparseKeys} {key slot : Nat} (h : s.place? key = some slot) :
    ∃ last, s.dense.back? = some last := by
  have hpos := (Array.getElem?_eq_some_iff.mp (place?_eq_some.mp h).2).1
  rw [Array.back?_eq_getElem?]
  exact ⟨_, Array.getElem?_eq_getElem (by omega)⟩

theorem contains_iff {s : SparseKeys} (hs : s.Consistent) {key : Nat} :
    s.contains key ↔ ∃ i : Nat, s.dense[i]? = some key := by
  simp only [contains, Option.isSome_iff_exists, place?_eq_some]
  exact ⟨fun ⟨i, h⟩ => ⟨i, h.2⟩, fun ⟨i, h⟩ => ⟨i, hs i key h, h⟩⟩

theorem Consistent.place_unique {s : SparseKeys} (hs : s.Consistent) {i j key : Nat}
    (hi : s.dense[i]? = some key) (hj : s.dense[j]? = some key) : i = j :=
  Option.some.inj ((hs i key hi).symm.trans (hs j key hj))

theorem Consistent.lt_limit {s : SparseKeys} (hs : s.Consistent) {key : Nat}
    (h : s.contains key) : key < s.limit := by
  obtain ⟨i, hi⟩ := (contains_iff hs).mp h
  exact (Array.getElem?_eq_some_iff.mp (hs i key hi)).1

theorem insert_ok {s s' : SparseKeys} {key : Nat} {new : Bool} (hs : s.Consistent)
    (h : s.insert key = .ok (s', new)) :
    s'.Consistent ∧ key < s.limit ∧ s'.limit = s.limit ∧ new = !s.contains key ∧
      ∀ k, s'.contains k = (decide (k = key) || s.contains k) := by
  simp only [insert] at h
  split at h
  next hlt =>
    by_cases hc : s.contains key
    · simp only [hc, if_true, Except.ok.injEq, Prod.mk.injEq] at h
      obtain ⟨rfl, rfl⟩ := h
      exact ⟨hs, hlt, rfl, by simp [hc], fun k => by by_cases hk : k = key <;> simp [hk, hc]⟩
    · simp only [hc, Bool.false_eq_true, if_false, Except.ok.injEq, Prod.mk.injEq] at h
      obtain ⟨rfl, rfl⟩ := h
      have hout : ∀ i : Nat, s.dense[i]? ≠ some key :=
        fun i hi => hc ((contains_iff hs).mpr ⟨i, hi⟩)
      have hs' : Consistent ⟨s.slots.set! key s.dense.size, s.dense.push key⟩ := by
        intro i k hk
        simp only [limit] at hlt
        simp only [Array.getElem?_push] at hk
        by_cases hi : i = s.dense.size
        · simp_all
        · rw [if_neg hi] at hk
          have hne : key ≠ k := fun h => hout i (h ▸ hk)
          simp [hne, hs i k hk]
      refine ⟨hs', hlt, by simp [limit], by simp [hc], fun k => ?_⟩
      rw [Bool.eq_iff_iff, Bool.or_eq_true, decide_eq_true_eq, contains_iff hs', contains_iff hs]
      simp only [Array.getElem?_push]
      constructor
      · rintro ⟨i, hi⟩
        split at hi
        · exact .inl (Option.some.inj hi).symm
        · exact .inr ⟨i, hi⟩
      · rintro (rfl | ⟨i, hi⟩)
        · exact ⟨s.dense.size, by simp⟩
        · have := (Array.getElem?_eq_some_iff.mp hi).1
          exact ⟨i, by rw [if_neg (by omega), hi]⟩
  next => cases h

/-- The last key is taken off. -/
theorem pop_spec {s : SparseKeys} (hs : s.Consistent) {key : Nat}
    (hkey : s.dense[s.dense.size - 1]? = some key) :
    ({ s with dense := s.dense.pop } : SparseKeys).Consistent ∧
      ∀ k, ({ s with dense := s.dense.pop } : SparseKeys).contains k =
        (decide (k ≠ key) && s.contains k) := by
  have hs' : Consistent { s with dense := s.dense.pop } := by
    intro i k hk
    simp only [Array.getElem?_pop] at hk
    split at hk
    · exact hs i k hk
    · cases hk
  refine ⟨hs', fun k => ?_⟩
  rw [Bool.eq_iff_iff, Bool.and_eq_true, decide_eq_true_eq, contains_iff hs', contains_iff hs]
  simp only [Array.getElem?_pop]
  constructor
  · rintro ⟨i, hi⟩
    split at hi
    next hlt =>
      refine ⟨?_, i, hi⟩
      rintro rfl
      have := hs.place_unique hi hkey
      omega
    next => cases hi
  · rintro ⟨hne, i, hi⟩
    have hlt := (Array.getElem?_eq_some_iff.mp hi).1
    have hi' : i ≠ s.dense.size - 1 := by
      rintro rfl
      exact hne (Option.some.inj (hi.symm.trans hkey))
    exact ⟨i, by rw [if_pos (by omega), hi]⟩

/-- A key in front of the last one is taken off, and the last one moves to its place. -/
theorem move_spec {s : SparseKeys} (hs : s.Consistent) {key last slot : Nat}
    (hkey : s.dense[slot]? = some key) (hlast : s.dense[s.dense.size - 1]? = some last)
    (hne : last ≠ key) :
    (⟨s.slots.set! last slot, (s.dense.set! slot last).pop⟩ : SparseKeys).Consistent ∧
      ∀ k, (⟨s.slots.set! last slot, (s.dense.set! slot last).pop⟩ : SparseKeys).contains k =
        (decide (k ≠ key) && s.contains k) := by
  have hlt := (Array.getElem?_eq_some_iff.mp hkey).1
  have hplace : slot ≠ s.dense.size - 1 := by
    rintro rfl
    exact hne (Option.some.inj (hlast.symm.trans hkey))
  have hview : ∀ i : Nat, ((s.dense.set! slot last).pop)[i]? =
      if i < s.dense.size - 1 then (if i = slot then some last else s.dense[i]?) else none := by
    intro i
    simp only [Array.set!_eq_setIfInBounds, Array.getElem?_pop, Array.size_setIfInBounds,
      Array.getElem?_setIfInBounds, hlt, if_true, eq_comm (a := slot)]
  have hs' : Consistent ⟨s.slots.set! last slot, (s.dense.set! slot last).pop⟩ := by
    intro i k hk
    rw [hview] at hk
    split at hk
    next hi =>
      split at hk
      next hislot =>
        obtain rfl := Option.some.inj hk
        have hlast' := (Array.getElem?_eq_some_iff.mp (hs _ _ hlast)).1
        simp [hlast', hislot]
      next =>
        have hlk : last ≠ k := by
          rintro rfl
          have := hs.place_unique hk hlast
          omega
        simp [hlk, hs i k hk]
    next => cases hk
  refine ⟨hs', fun k => ?_⟩
  rw [Bool.eq_iff_iff, Bool.and_eq_true, decide_eq_true_eq, contains_iff hs', contains_iff hs]
  simp only [hview]
  constructor
  · rintro ⟨i, hi⟩
    split at hi
    next =>
      split at hi
      next =>
        obtain rfl := Option.some.inj hi
        exact ⟨hne, _, hlast⟩
      next hislot =>
        refine ⟨?_, i, hi⟩
        rintro rfl
        exact hislot (hs.place_unique hi hkey)
    next => cases hi
  · rintro ⟨hkk, i, hi⟩
    have hi' := (Array.getElem?_eq_some_iff.mp hi).1
    by_cases hi'' : i = s.dense.size - 1
    · obtain rfl : k = last := Option.some.inj ((hi''.symm ▸ hi).symm.trans hlast)
      exact ⟨slot, by rw [if_pos (by omega), if_pos rfl]⟩
    · refine ⟨i, ?_⟩
      rw [if_pos (by omega), if_neg, hi]
      rintro rfl
      exact hkk (Option.some.inj (hi.symm.trans hkey))

theorem erase_spec {s : SparseKeys} (hs : s.Consistent) (key : Nat) :
    (s.erase key).Consistent ∧ (s.erase key).limit = s.limit ∧
      ∀ k, (s.erase key).contains k = (decide (k ≠ key) && s.contains k) := by
  unfold erase
  split
  next slot last hslot hlast =>
    obtain ⟨-, hkey⟩ := place?_eq_some.mp hslot
    rw [Array.back?_eq_getElem?] at hlast
    split
    next heq =>
      obtain ⟨hs', hcontains⟩ := pop_spec hs (heq ▸ hlast)
      exact ⟨hs', rfl, hcontains⟩
    next hne =>
      obtain ⟨hs', hcontains⟩ := move_spec hs hkey hlast hne
      exact ⟨hs', by simp [limit], hcontains⟩
  next h =>
    refine ⟨hs, rfl, fun k => ?_⟩
    rw [Bool.eq_iff_iff, Bool.and_eq_true, decide_eq_true_eq]
    refine ⟨fun hk => ⟨?_, hk⟩, And.right⟩
    rintro rfl
    obtain ⟨i, hi⟩ := Option.isSome_iff_exists.mp hk
    obtain ⟨last, hlast⟩ := back?_of_place? hi
    exact h i last hi hlast

theorem clear_spec (s : SparseKeys) :
    s.clear.Consistent ∧ ∀ k, s.clear.contains k = false := by
  have hs : s.clear.Consistent := fun i key h => by simp [clear] at h
  exact ⟨hs, fun k => by rw [← Bool.not_eq_true, contains_iff hs]; simp [clear]⟩

theorem reserve_spec {s : SparseKeys} (hs : s.Consistent) (n : Nat) :
    (s.reserve n).Consistent ∧ ∀ k, (s.reserve n).contains k = s.contains k := by
  have hs' : (s.reserve n).Consistent := by
    intro i key h
    have hlt := (Array.getElem?_eq_some_iff.mp (hs i key h)).1
    simp only [reserve]
    rw [Array.getElem?_append_left hlt]
    exact hs i key h
  exact ⟨hs', fun k => by rw [Bool.eq_iff_iff, contains_iff hs', contains_iff hs]; rfl⟩

end SparseKeys

namespace SparseMap

variable {α : Type} [Inhabited α]

/-- The value under a key, the default value if there is none. -/
def valueAt (m : SparseMap α) (key : Nat) : α := (m.get? key).getD default

/-- The keys are consistent, and there is room for a value under each of them. -/
structure Sound (m : SparseMap α) : Prop where
  keys : m.keys.Consistent
  room : m.values.size = m.limit

theorem valueAt_eq {m : SparseMap α} {key : Nat} :
    m.valueAt key = bif m.contains key then m.values[key]?.getD default else default := by
  unfold valueAt get?
  cases m.contains key <;> simp

theorem mem_toList {m : SparseMap α} (hm : m.Sound) {key : Nat} {value : α} :
    (key, value) ∈ m.toList ↔ m.contains key ∧ m.valueAt key = value := by
  have hmem : key ∈ m.keys.toList ↔ m.contains key := by
    rw [contains, SparseKeys.contains_iff hm.keys, SparseKeys.toList, Array.mem_toList_iff,
      Array.mem_iff_getElem?]
  simp only [toList, List.mem_map, Prod.mk.injEq]
  constructor
  · rintro ⟨key, hkey, rfl, rfl⟩
    have hc := hmem.mp hkey
    exact ⟨hc, by simp [valueAt_eq, hc]⟩
  · rintro ⟨hc, rfl⟩
    exact ⟨key, hmem.mpr hc, rfl, by simp [valueAt_eq, hc]⟩

theorem touch_ok {m m' : SparseMap α} {key : Nat} (hm : m.Sound) (h : m.touch key = .ok m') :
    m'.Sound ∧ m'.limit = m.limit ∧ m'.contains key ∧ m'.valueAt = m.valueAt := by
  simp only [touch, bind_eq_ok, pure_eq_ok, Prod.exists] at h
  obtain ⟨keys, new, hk, rfl⟩ := h
  obtain ⟨hkeys, hlt, hlimit, rfl, hcontains⟩ := SparseKeys.insert_ok hm.keys hk
  refine ⟨⟨hkeys, ?_⟩, hlimit, by simp [contains, hcontains], funext fun k => ?_⟩
  · split <;> simp [hm.room, limit, hlimit]
  · simp only [valueAt_eq, contains, hcontains]
    by_cases hkk : k = key
    · subst hkk
      by_cases hc : m.keys.contains k
      · simp [hc]
      · have : k < m.values.size := hm.room ▸ hlt
        simp [hc, this]
    · by_cases hc : m.keys.contains key
      · simp [hc, hkk]
      · simp [hc, hkk, Ne.symm hkk]

theorem modify_spec {m : SparseMap α} {key : Nat} (hm : m.Sound) (hc : m.contains key)
    (change : α → α) :
    (m.modify key change).Sound ∧ (m.modify key change).limit = m.limit ∧
      (m.modify key change).valueAt = Function.update m.valueAt key (change (m.valueAt key)) := by
  have hlt : key < m.values.size := hm.room ▸ hm.keys.lt_limit hc
  unfold modify
  rw [if_pos hc]
  refine ⟨⟨hm.keys, by simpa [limit] using hm.room⟩, rfl, funext fun k => ?_⟩
  simp only [contains] at hc
  by_cases hk : k = key
  · subst hk
    simp [valueAt_eq, contains, hc, hlt, Array.getElem_modify]
  · simp [valueAt_eq, contains, hk, Ne.symm hk, Array.getElem?_modify]

/-- To alter the value of a key is to give the key a value and to modify that. -/
theorem alter_eq_ok {m m' : SparseMap α} {key : Nat} {change : α → α} (hm : m.Sound) :
    m.alter key change = .ok m' ↔ ∃ t, m.touch key = .ok t ∧ t.modify key change = m' := by
  simp only [alter, bind_eq_ok, pure_eq_ok]
  refine exists_congr fun t => and_congr_right fun ht => ?_
  rw [modify, if_pos (touch_ok hm ht).2.2.1]

theorem alter_ok {m m' : SparseMap α} {key : Nat} {change : α → α} (hm : m.Sound)
    (h : m.alter key change = .ok m') :
    m'.Sound ∧ m'.limit = m.limit ∧
      m'.valueAt = Function.update m.valueAt key (change (m.valueAt key)) := by
  obtain ⟨t, ht, rfl⟩ := (alter_eq_ok hm).mp h
  obtain ⟨hsound, hlimit, hc, hv⟩ := touch_ok hm ht
  obtain ⟨hsound', hlimit', hv'⟩ := modify_spec hsound hc change
  exact ⟨hsound', hlimit'.trans hlimit, by rw [hv', hv]⟩

theorem fetch_ok {m m' : SparseMap α} {key : Nat} {value : α} (hm : m.Sound)
    (h : m.fetch key = .ok (value, m')) :
    m'.Sound ∧ m'.limit = m.limit ∧ m'.valueAt = m.valueAt ∧ value = m.valueAt key := by
  simp only [fetch, bind_eq_ok, pure_eq_ok, Prod.mk.injEq] at h
  obtain ⟨t, ht, rfl, rfl⟩ := h
  obtain ⟨hsound, hlimit, -, hv⟩ := touch_ok hm ht
  exact ⟨hsound, hlimit, hv, congrFun hv key⟩

theorem erase_spec {m : SparseMap α} (hm : m.Sound) (key : Nat) :
    (m.erase key).Sound ∧ (m.erase key).limit = m.limit ∧
      (m.erase key).valueAt = Function.update m.valueAt key default := by
  unfold erase
  split
  next hc =>
    obtain ⟨hkeys, hlimit, hcontains⟩ := SparseKeys.erase_spec hm.keys key
    refine ⟨⟨hkeys, by simpa [limit, hlimit] using hm.room⟩, hlimit, funext fun k => ?_⟩
    by_cases hk : k = key
    · subst hk
      simp [valueAt_eq, contains, hcontains]
    · simp [valueAt_eq, contains, hcontains, hk, Ne.symm hk]
  next hc =>
    refine ⟨hm, rfl, (Function.update_eq_self_iff.mpr ?_).symm⟩
    simp [valueAt_eq, hc]

theorem clear_spec {m : SparseMap α} (hm : m.Sound) :
    m.clear.Sound ∧ m.clear.limit = m.limit ∧ m.clear.valueAt = fun _ => default := by
  obtain ⟨hkeys, hcontains⟩ := SparseKeys.clear_spec m.keys
  refine ⟨⟨hkeys, ?_⟩, rfl, funext fun k => ?_⟩
  · have hsize : ∀ (keys : List Nat) (values : Array α),
        (keys.foldl (fun values key => values.set! key default) values).size = values.size := by
      intro keys
      induction keys with
      | nil => exact fun values => rfl
      | cons key keys ih => exact fun values => (ih _).trans (by simp)
    exact (hsize m.keys.toList m.values).trans hm.room
  · simp [valueAt_eq, contains, clear, hcontains]

theorem reserve_spec {m : SparseMap α} (hm : m.Sound) (n : Nat) :
    (m.reserve n).Sound ∧ (m.reserve n).valueAt = m.valueAt := by
  obtain ⟨hkeys, hcontains⟩ := SparseKeys.reserve_spec hm.keys n
  have hroom := hm.room
  refine ⟨⟨hkeys, ?_⟩, funext fun k => ?_⟩
  · simp only [limit, SparseKeys.limit] at hroom
    simp [reserve, widened, limit, SparseKeys.limit, SparseKeys.reserve, hroom]
  · simp only [valueAt_eq, contains, reserve, hcontains]
    by_cases hc : m.keys.contains k
    · have hlt : k < m.values.size := hroom ▸ hm.keys.lt_limit hc
      simp [hc, widened, Array.getElem?_append_left hlt]
    · simp [hc]

omit [Inhabited α] in
theorem sound_empty : ({} : SparseMap α).Sound := ⟨fun i key h => by simp at h, rfl⟩

end SparseMap

namespace RegNodes

/-- The nodes recorded for a register. -/
def nodesOf (m : RegNodes) (r : Reg) : List NodeId := m.map.valueAt r.number

theorem mem_toList {m : RegNodes} (hm : m.map.Sound) {r : Reg} {n : NodeId} :
    (∃ nodes, (r, nodes) ∈ m.toList ∧ n ∈ nodes) ↔ n ∈ m.nodesOf r := by
  simp only [toList, List.mem_map, Prod.mk.injEq, Prod.exists]
  constructor
  · rintro ⟨nodes, ⟨key, nodes, hmem, rfl, rfl⟩, hn⟩
    rw [nodesOf, ((SparseMap.mem_toList hm).mp hmem).2]
    exact hn
  · intro hn
    refine ⟨_, ⟨r.number, _, (SparseMap.mem_toList hm).mpr ⟨?_, rfl⟩, rfl, rfl⟩, hn⟩
    by_contra hc
    rw [nodesOf, SparseMap.valueAt_eq, eq_false_of_ne_true hc] at hn
    exact List.not_mem_nil hn

theorem nodesOf_update {m m' : RegNodes} {r : Reg} {nodes : List NodeId}
    (h : m'.map.valueAt = Function.update m.map.valueAt r.number nodes) :
    m'.nodesOf = Function.update m.nodesOf r nodes := by
  funext r'
  by_cases hr : r' = r
  · subst hr
    simp [nodesOf, h]
  · have hn : r'.number ≠ r.number := fun hn => hr (Reg.number_inj.mp hn)
    simp [nodesOf, h, hr, hn]

theorem get_ok {m : RegNodes} {r : Reg} {nodes : List NodeId} (h : m.get r = .ok nodes) :
    nodes = m.nodesOf r := by
  simp only [get, key] at h
  split at h
  · cases h
    rfl
  · cases h

theorem alter_ok {m m' : RegNodes} {r : Reg} {change : List NodeId → List NodeId}
    (hm : m.map.Sound) (h : m.alter r change = .ok m') :
    m'.map.Sound ∧ m'.nodesOf = Function.update m.nodesOf r (change (m.nodesOf r)) := by
  simp only [alter, key, bind_eq_ok, pure_eq_ok] at h
  obtain ⟨key, hk, map, hmap, rfl⟩ := h
  split at hk
  · cases hk
    obtain ⟨hs, -, hv⟩ := SparseMap.alter_ok hm hmap
    exact ⟨hs, nodesOf_update hv⟩
  · cases hk

theorem erase_ok {m m' : RegNodes} {r : Reg} (hm : m.map.Sound) (h : m.erase r = .ok m') :
    m'.map.Sound ∧ m'.nodesOf = Function.update m.nodesOf r [] := by
  simp only [erase, key, bind_eq_ok, pure_eq_ok] at h
  obtain ⟨key, hk, rfl⟩ := h
  split at hk
  · cases hk
    obtain ⟨hs, -, hv⟩ := SparseMap.erase_spec hm r.number
    exact ⟨hs, nodesOf_update hv⟩
  · cases hk

end RegNodes

end Precedence
