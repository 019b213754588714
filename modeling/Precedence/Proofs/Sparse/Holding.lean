import Precedence.Proofs.Sparse.Same

/-!
Sparse maps whose values all satisfy some predicate. Below the limit every operation returns, and it
keeps the predicate if the default value has it and the change of a value does.
-/
namespace Precedence

namespace SparseMap

variable {α : Type} [Inhabited α] {m : SparseMap α} {P : α → Prop} {n key : Nat}

/-- There is room for keys below `n`, and what is under any key satisfies `P`. -/
structure Holds (n : Nat) (P : α → Prop) (m : SparseMap α) : Prop where
  sound : m.Sound
  limit : m.limit = n
  all : ∀ key, P (m.valueAt key)

namespace Holds

variable (h : m.Holds n P)

include h

theorem getD (key : Nat) : P ((m.get? key).getD default) := h.all key

theorem touch (hkey : key < n) : Returns (m.touch key) (Holds n P) := by
  obtain ⟨t, ht, -⟩ := touch_of_lt (h.limit ▸ hkey)
  obtain ⟨hsound, hlimit, -, hvalues⟩ := touch_ok h.sound ht
  exact ⟨t, ht, hsound, hlimit.trans h.limit, hvalues ▸ h.all⟩

theorem alter {change : α → α} (hkey : key < n) (hchange : ∀ v, P v → P (change v)) :
    Returns (m.alter key change) (Holds n P) := by
  obtain ⟨t, ht, -⟩ := alter_of_lt change (h.limit ▸ hkey)
  obtain ⟨hsound, hlimit, hvalues⟩ := alter_ok h.sound ht
  refine ⟨t, ht, hsound, hlimit.trans h.limit, fun k => ?_⟩
  by_cases hk : k = key
  · subst hk
    simpa [hvalues] using hchange _ (h.all k)
  · simpa [hvalues, hk] using h.all k

theorem fetch (hkey : key < n) : Returns (m.fetch key) fun p => P p.1 ∧ p.2.Holds n P :=
  (h.touch hkey).bind fun _ ht => .pure ⟨ht.getD key, ht⟩

theorem erase (hdefault : P default) (key : Nat) : (m.erase key).Holds n P := by
  obtain ⟨hsound, hlimit, hvalues⟩ := erase_spec h.sound key
  refine ⟨hsound, hlimit.trans h.limit, fun k => ?_⟩
  by_cases hk : k = key
  · subst hk
    simpa [hvalues] using hdefault
  · simpa [hvalues, hk] using h.all k

theorem clear (hdefault : P default) : m.clear.Holds n P := by
  obtain ⟨hsound, hlimit, hvalues⟩ := clear_spec h.sound
  exact ⟨hsound, hlimit.trans h.limit, fun k => by simpa [hvalues] using hdefault⟩

/-- Keys are below the limit. -/
theorem lt_of_mem_toList {value : α} (hmem : (key, value) ∈ m.toList) : key < n :=
  h.limit ▸ h.sound.keys.lt_limit ((mem_toList h.sound).mp hmem).1

end Holds

/-- A map that has been cleared holds nothing but default values. -/
theorem holds_reserve_clear (hm : m.Sound) (hlimit : m.limit ≤ n) (hdefault : P default) :
    (m.clear.reserve n).Holds n P := by
  obtain ⟨hsound, -, hclear⟩ := clear_spec hm
  obtain ⟨hsound', hvalues⟩ := reserve_spec hsound n
  exact ⟨hsound', limit_reserve_clear hlimit, fun k => by simpa [hvalues, hclear] using hdefault⟩

end SparseMap

variable {P : NodeId → Prop} {n physical virtual : Nat} {id : NodeId} {reg : Reg}

namespace RegNodes

variable {m : RegNodes}

/-- There is room for registers below `n`, and all recorded nodes satisfy `P`. -/
def Holds (n : Nat) (P : NodeId → Prop) (m : RegNodes) : Prop :=
  m.map.Holds n fun nodes => ∀ id ∈ nodes, P id

namespace Holds

variable (h : m.Holds n P)

include h

theorem key (hreg : reg.number < n) : m.key reg = .ok reg.number := by
  have hlimit : m.limit = n := SparseMap.Holds.limit h
  rw [RegNodes.key, hlimit, if_pos hreg]

theorem get (hreg : reg.number < n) : Returns (m.get reg) fun nodes => ∀ id ∈ nodes, P id := by
  simp only [RegNodes.get, h.key hreg, bind, Except.bind]
  exact .pure (SparseMap.Holds.getD h reg.number)

theorem alter {change : List NodeId → List NodeId} (hreg : reg.number < n)
    (hchange : ∀ nodes : List NodeId, (∀ id ∈ nodes, P id) → ∀ id ∈ change nodes, P id) :
    Returns (m.alter reg change) (Holds n P) := by
  simp only [RegNodes.alter, h.key hreg]
  exact (SparseMap.Holds.alter h hreg hchange).bind fun _ ht => .pure ht

theorem push (hreg : reg.number < n) (hid : P id) : Returns (m.push reg id) (Holds n P) := by
  refine h.alter hreg fun nodes hnodes k hk => ?_
  rcases List.mem_append.mp hk with hk | hk
  · exact hnodes k hk
  · exact List.mem_singleton.mp hk ▸ hid

theorem erase (hreg : reg.number < n) : Returns (m.erase reg) (Holds n P) := by
  simp only [RegNodes.erase, h.key hreg]
  exact .pure (SparseMap.Holds.erase h (List.forall_mem_nil P) reg.number)

theorem clear : m.clear.Holds n P := SparseMap.Holds.clear h (List.forall_mem_nil P)

theorem lt_of_mem_toList {nodes : List NodeId} (hmem : (reg, nodes) ∈ m.toList) :
    reg.number < n := by
  simp only [toList, List.mem_map, Prod.mk.injEq, Prod.exists] at hmem
  obtain ⟨key, nodes, hmem, rfl, rfl⟩ := hmem
  exact SparseMap.Holds.lt_of_mem_toList h hmem

end Holds

end RegNodes

namespace Tracker

variable {t : Tracker}

structure Holds (n : Nat) (P : NodeId → Prop) (t : Tracker) : Prop where
  defs : t.defs.Holds n P
  uses : t.uses.Holds n P

namespace Holds

variable (h : t.Holds n P)

include h

theorem recordDef (hreg : reg.number < n) (hid : P id) :
    Returns (t.recordDef reg id) (Holds n P) :=
  (h.defs.push hreg hid).bind fun _ hdefs => .pure ⟨hdefs, h.uses⟩

theorem recordUse (hreg : reg.number < n) (hid : P id) :
    Returns (t.recordUse reg id) (Holds n P) :=
  (h.uses.push hreg hid).bind fun _ huses => .pure ⟨h.defs, huses⟩

theorem clear : t.clear.Holds n P := ⟨h.defs.clear, h.uses.clear⟩

theorem lt_of_mem_exitReads (hmem : reg ∈ t.exitReads) : reg.number < n := by
  simp only [exitReads, List.mem_map, List.mem_filter] at hmem
  obtain ⟨e, ⟨hmem, -⟩, rfl⟩ := hmem
  exact h.uses.lt_of_mem_toList hmem

end Holds

end Tracker

/-- All that is recorded for physical and for virtual registers satisfies `P`. -/
structure RegState.Holds (physical virtual : Nat) (P : NodeId → Prop) (r : RegState) : Prop where
  tracker : r.tracker.Holds physical P
  virtualDefs : r.virtualDefs.Holds virtual fun nearest => ∀ id, nearest = some id → P id
  virtualUses : r.virtualUses.Holds virtual fun waiting => ∀ e ∈ waiting, P e.1

theorem RegState.Holds.withTracker {r : RegState} {t : Tracker} (h : r.Holds physical virtual P)
    (ht : t.Holds physical P) : RegState.Holds physical virtual P { r with tracker := t } :=
  ⟨ht, h.virtualDefs, h.virtualUses⟩

theorem RegState.Fits.holds_reserve_clear {r : RegState} (h : r.Fits physical virtual) :
    (r.clear.reserve physical virtual).Holds physical virtual P := by
  obtain ⟨p, hp, v, hv, ⟨hd, hu⟩, hvd, hvu⟩ := h
  exact ⟨⟨SparseMap.holds_reserve_clear hd.fst (hd.fst_limit.trans_le hp) nofun,
      SparseMap.holds_reserve_clear hu.fst (hu.fst_limit.trans_le hp) nofun⟩,
    SparseMap.holds_reserve_clear hvd.fst (hvd.fst_limit.trans_le hv) nofun,
    SparseMap.holds_reserve_clear hvu.fst (hvu.fst_limit.trans_le hv) nofun⟩

end Precedence
