import Precedence.Build.Barrier
import Precedence.Proofs.Outcomes
import Precedence.Proofs.Walk.Registers

/-!
Sparse maps that cannot be told apart. Two maps with the same keys in the same order, the same values
under them and the same limit answer every question alike and stay so under every operation,
whatever their slots and values held before; what was left behind by a clear or an erase is never
seen again. The limit is named, so that a map that is the same as itself has kept its limit.
-/
namespace Precedence

namespace SparseKeys

theorem insert_of_lt {s : SparseKeys} {key : Nat} (h : key < s.limit) : ∃ s' new,
    s.insert key = .ok (s', new) ∧ s'.dense = if s.contains key then s.dense else s.dense.push key := by
  unfold insert
  rw [if_pos h]
  split <;> exact ⟨_, _, rfl, rfl⟩

theorem insert_of_not_lt {s : SparseKeys} {key : Nat} (h : ¬key < s.limit) :
    s.insert key = .error (.keyOutsideUniverse key s.limit) := by
  unfold insert
  rw [if_neg h]

variable {s s' : SparseKeys}

theorem contains_eq_of_dense (hs : s.Consistent) (hs' : s'.Consistent) (h : s.dense = s'.dense)
    (key : Nat) : s.contains key = s'.contains key := by
  rw [Bool.eq_iff_iff, contains_iff hs, contains_iff hs', h]

theorem place?_eq_of_dense (hs : s.Consistent) (hs' : s'.Consistent) (h : s.dense = s'.dense)
    (key : Nat) : s.place? key = s'.place? key := by
  ext slot
  rw [place?_eq_some, place?_eq_some, h]
  constructor
  · rintro ⟨-, hkey⟩
    exact ⟨hs' _ _ hkey, hkey⟩
  · rintro ⟨-, hkey⟩
    exact ⟨hs _ _ (h ▸ hkey), hkey⟩

theorem erase_dense (hs : s.Consistent) (hs' : s'.Consistent) (h : s.dense = s'.dense)
    (key : Nat) : (s.erase key).dense = (s'.erase key).dense := by
  unfold erase
  rw [place?_eq_of_dense hs hs' h, h]
  split
  · split <;> rfl
  · exact h

end SparseKeys

namespace SparseMap

variable {α : Type} [Inhabited α] {m m' : SparseMap α} {key n : Nat}

theorem touch_of_lt (h : key < m.limit) : ∃ m', m.touch key = .ok m' ∧
    m'.keys.dense = if m.contains key then m.keys.dense else m.keys.dense.push key := by
  obtain ⟨keys, new, hinsert, hdense⟩ := SparseKeys.insert_of_lt h
  exact ⟨_, bind_eq_ok.mpr ⟨(keys, new), hinsert, rfl⟩, hdense⟩

theorem touch_of_not_lt (h : ¬key < m.limit) :
    m.touch key = .error (.keyOutsideUniverse key m.limit) := by
  simp only [touch, SparseKeys.insert_of_not_lt h, bind, Except.bind]
  rfl

theorem alter_of_lt (change : α → α) (h : key < m.limit) : ∃ m', m.alter key change = .ok m' ∧
    m'.keys.dense = if m.contains key then m.keys.dense else m.keys.dense.push key := by
  obtain ⟨t, ht, hdense⟩ := touch_of_lt h
  exact ⟨_, bind_eq_ok.mpr ⟨t, ht, rfl⟩, hdense⟩

theorem alter_of_not_lt (change : α → α) (h : ¬key < m.limit) :
    m.alter key change = .error (.keyOutsideUniverse key m.limit) := by
  simp only [alter, touch_of_not_lt h, bind, Except.bind]

theorem get?_eq (hm : m.Sound) :
    m.get? key = if m.contains key then some (m.valueAt key) else none := by
  unfold valueAt get?
  split
  next hc =>
    have hlt : key < m.values.size := hm.room ▸ hm.keys.lt_limit hc
    simp [hlt]
  next => rfl

/-- Both maps are sound, have room for keys below `n` and hold the same keys, in one order, with the
same values. -/
structure Same (n : Nat) (m m' : SparseMap α) : Prop where
  fst : m.Sound
  snd : m'.Sound
  fst_limit : m.limit = n
  snd_limit : m'.limit = n
  dense : m.keys.dense = m'.keys.dense
  valueAt : m.valueAt = m'.valueAt

theorem Same.refl (h : m.Sound) : Same m.limit m m := ⟨h, h, rfl, rfl, rfl, rfl⟩

theorem limit_reserve_clear (h : m.limit ≤ n) : (m.clear.reserve n).limit = n := by
  have hlimit : (m.clear.reserve n).limit = m.limit + (n - m.limit) := by
    simp [SparseMap.limit, SparseKeys.limit, SparseMap.reserve, SparseKeys.reserve, SparseMap.clear,
      SparseKeys.clear]
  omega

/-- Whatever two maps held, clearing them and making room leaves no difference. -/
theorem same_reserve_clear (hm : m.Sound) (hm' : m'.Sound) (h : m.limit ≤ n) (h' : m'.limit ≤ n) :
    Same n (m.clear.reserve n) (m'.clear.reserve n) := by
  obtain ⟨hs, -, hv⟩ := clear_spec hm
  obtain ⟨hs', -, hv'⟩ := clear_spec hm'
  obtain ⟨hr, hrv⟩ := reserve_spec hs n
  obtain ⟨hr', hrv'⟩ := reserve_spec hs' n
  exact ⟨hr, hr', limit_reserve_clear h, limit_reserve_clear h', rfl, by rw [hrv, hrv', hv, hv']⟩

theorem Same.limit_eq (h : Same n m m') : m.limit = m'.limit := h.fst_limit.trans h.snd_limit.symm

theorem Same.contains_eq (h : Same n m m') : m.contains key = m'.contains key :=
  SparseKeys.contains_eq_of_dense h.fst.keys h.snd.keys h.dense key

theorem Same.get?_eq (h : Same n m m') : m.get? key = m'.get? key := by
  rw [SparseMap.get?_eq h.fst, SparseMap.get?_eq h.snd, h.contains_eq, h.valueAt]

theorem toList_eq (hm : m.Sound) :
    m.toList = m.keys.toList.map fun key => (key, m.valueAt key) := by
  refine List.map_congr_left fun key hkey => ?_
  have hc : m.contains key := by
    rw [contains, SparseKeys.contains_iff hm.keys, ← Array.mem_iff_getElem?]
    exact Array.mem_toList_iff.mp hkey
  simp [valueAt_eq, hc]

theorem Same.toList_eq (h : Same n m m') : m.toList = m'.toList := by
  rw [SparseMap.toList_eq h.fst, SparseMap.toList_eq h.snd, SparseKeys.toList, SparseKeys.toList,
    h.dense, h.valueAt]

theorem Same.touch (h : Same n m m') (key : Nat) : Alike (Same n) (m.touch key) (m'.touch key) := by
  by_cases hlt : key < m.limit
  · obtain ⟨t, ht, hdense⟩ := touch_of_lt hlt
    obtain ⟨t', ht', hdense'⟩ := touch_of_lt (h.limit_eq ▸ hlt)
    obtain ⟨hs, hlimit, -, hv⟩ := touch_ok h.fst ht
    obtain ⟨hs', hlimit', -, hv'⟩ := touch_ok h.snd ht'
    rw [ht, ht']
    exact .ok ⟨hs, hs', hlimit.trans h.fst_limit, hlimit'.trans h.snd_limit,
      by rw [hdense, hdense', h.contains_eq, h.dense], hv.trans (h.valueAt.trans hv'.symm)⟩
  · rw [touch_of_not_lt hlt, touch_of_not_lt (h.limit_eq ▸ hlt), h.limit_eq]
    exact .error _

theorem Same.alter (h : Same n m m') (key : Nat) (change : α → α) :
    Alike (Same n) (m.alter key change) (m'.alter key change) := by
  by_cases hlt : key < m.limit
  · obtain ⟨t, ht, hdense⟩ := alter_of_lt change hlt
    obtain ⟨t', ht', hdense'⟩ := alter_of_lt change (h.limit_eq ▸ hlt)
    obtain ⟨hs, hlimit, hv⟩ := alter_ok h.fst ht
    obtain ⟨hs', hlimit', hv'⟩ := alter_ok h.snd ht'
    rw [ht, ht']
    exact .ok ⟨hs, hs', hlimit.trans h.fst_limit, hlimit'.trans h.snd_limit,
      by rw [hdense, hdense', h.contains_eq, h.dense], by rw [hv, hv', h.valueAt]⟩
  · rw [alter_of_not_lt change hlt, alter_of_not_lt change (h.limit_eq ▸ hlt), h.limit_eq]
    exact .error _

theorem Same.fetch (h : Same n m m') (key : Nat) :
    Alike (fun p p' => p.1 = p'.1 ∧ Same n p.2 p'.2) (m.fetch key) (m'.fetch key) :=
  (h.touch key).bind fun _ _ ht => .pure ⟨by rw [ht.get?_eq], ht⟩

theorem Same.erase (h : Same n m m') (key : Nat) : Same n (m.erase key) (m'.erase key) := by
  obtain ⟨hs, hlimit, hv⟩ := erase_spec h.fst key
  obtain ⟨hs', hlimit', hv'⟩ := erase_spec h.snd key
  refine ⟨hs, hs', hlimit.trans h.fst_limit, hlimit'.trans h.snd_limit, ?_, by rw [hv, hv', h.valueAt]⟩
  unfold SparseMap.erase
  rw [h.contains_eq]
  split
  · exact SparseKeys.erase_dense h.fst.keys h.snd.keys h.dense key
  · exact h.dense

theorem Same.clear (h : Same n m m') : Same n m.clear m'.clear := by
  obtain ⟨hs, hlimit, hv⟩ := clear_spec h.fst
  obtain ⟨hs', hlimit', hv'⟩ := clear_spec h.snd
  exact ⟨hs, hs', hlimit.trans h.fst_limit, hlimit'.trans h.snd_limit, rfl, hv.trans hv'.symm⟩

end SparseMap

/-! Registers -/

namespace RegNodes

variable {m m' : RegNodes} {n : Nat}

/-- Both record the same nodes for the same registers, registered in one order. -/
def Same (n : Nat) (m m' : RegNodes) : Prop := m.map.Same n m'.map

theorem Same.key_eq (h : Same n m m') (r : Reg) : m.key r = m'.key r := by
  simp only [key, show m.limit = m'.limit from h.limit_eq]

theorem Same.get_eq (h : Same n m m') (r : Reg) : m.get r = m'.get r := by
  simp only [RegNodes.get, h.key_eq, SparseMap.Same.get?_eq h]

theorem Same.toList_eq (h : Same n m m') : m.toList = m'.toList := by
  simp only [toList, SparseMap.Same.toList_eq h]

theorem Same.alter (h : Same n m m') (r : Reg) (change : List NodeId → List NodeId) :
    Alike (Same n) (m.alter r change) (m'.alter r change) := by
  simp only [RegNodes.alter, h.key_eq]
  exact Alike.bind_same fun key =>
    (SparseMap.Same.alter h key change).bind fun _ _ ht => .pure ht

theorem Same.erase (h : Same n m m') (r : Reg) : Alike (Same n) (m.erase r) (m'.erase r) := by
  simp only [RegNodes.erase, h.key_eq]
  exact Alike.bind_same fun key => .pure (SparseMap.Same.erase h key)

theorem Same.clear (h : Same n m m') : Same n m.clear m'.clear := SparseMap.Same.clear h

end RegNodes

namespace Tracker

variable {t t' : Tracker} {n : Nat}

/-- Both record the same writes and the same reads. -/
structure Same (n : Nat) (t t' : Tracker) : Prop where
  defs : t.defs.Same n t'.defs
  uses : t.uses.Same n t'.uses

theorem Same.recordDef (h : Same n t t') (r : Reg) (su : NodeId) :
    Alike (Same n) (t.recordDef r su) (t'.recordDef r su) :=
  (h.defs.alter r _).bind fun _ _ hd => .pure ⟨hd, h.uses⟩

theorem Same.recordUse (h : Same n t t') (r : Reg) (su : NodeId) :
    Alike (Same n) (t.recordUse r su) (t'.recordUse r su) :=
  (h.uses.alter r _).bind fun _ _ hu => .pure ⟨h.defs, hu⟩

theorem Same.clear (h : Same n t t') : Same n t.clear t'.clear := ⟨h.defs.clear, h.uses.clear⟩

theorem Same.exitReads_eq (h : Same n t t') : t.exitReads = t'.exitReads := by
  simp only [exitReads, h.uses.toList_eq]

end Tracker

namespace RegState

variable {r r' : RegState} {physical virtual : Nat}

/-- Both know the same about every register. -/
structure Same (physical virtual : Nat) (r r' : RegState) : Prop where
  tracker : r.tracker.Same physical r'.tracker
  virtualDefs : r.virtualDefs.Same virtual r'.virtualDefs
  virtualUses : r.virtualUses.Same virtual r'.virtualUses

theorem Same.withTracker {t t' : Tracker} (h : Same physical virtual r r') (ht : t.Same physical t') :
    Same physical virtual { r with tracker := t } { r' with tracker := t' } :=
  ⟨ht, h.virtualDefs, h.virtualUses⟩

theorem Same.clear (h : Same physical virtual r r') : Same physical virtual r.clear r'.clear :=
  ⟨h.tracker.clear, h.virtualDefs.clear, h.virtualUses.clear⟩

/-- The maps are sound and have room for so many registers at most. -/
def Fits (physical virtual : Nat) (r : RegState) : Prop :=
  ∃ p ≤ physical, ∃ v ≤ virtual, r.Same p v r

theorem fits_empty : ({} : RegState).Fits physical virtual :=
  ⟨0, Nat.zero_le _, 0, Nat.zero_le _, ⟨.refl SparseMap.sound_empty, .refl SparseMap.sound_empty⟩,
    .refl SparseMap.sound_empty, .refl SparseMap.sound_empty⟩

theorem Fits.clear (h : r.Fits physical virtual) : r.clear.Fits physical virtual := by
  obtain ⟨p, hp, v, hv, hr⟩ := h
  exact ⟨p, hp, v, hv, hr.clear⟩

/-- Whatever two register states were used for, clearing them and making room leaves no
difference. -/
theorem Fits.same_reserve_clear (h : r.Fits physical virtual) (h' : r'.Fits physical virtual) :
    Same physical virtual (r.clear.reserve physical virtual)
      (r'.clear.reserve physical virtual) := by
  obtain ⟨p, hp, v, hv, ⟨hd, hu⟩, hvd, hvu⟩ := h
  obtain ⟨p', hp', v', hv', ⟨hd', hu'⟩, hvd', hvu'⟩ := h'
  have hmap : ∀ {α : Type} [Inhabited α] {m m' : SparseMap α} {k k' n : Nat}, m.Same k m →
      m'.Same k' m' → k ≤ n → k' ≤ n → (m.clear.reserve n).Same n (m'.clear.reserve n) :=
    fun hm hm' hk hk' => SparseMap.same_reserve_clear hm.fst hm'.fst (hm.fst_limit.trans_le hk)
      (hm'.fst_limit.trans_le hk')
  exact ⟨⟨hmap hd hd' hp hp', hmap hu hu' hp hp'⟩, hmap hvd hvd' hv hv', hmap hvu hvu' hv hv'⟩

end RegState

end Precedence
