import Precedence.Build.Memory
import Precedence.Proofs.Walk.Units

/-!
The later accesses that the memory walk keeps, each filed under its kind: the nearest stores and the
loads above them by object, those without an object apart, and the rejected ones together.
-/
namespace Precedence

theorem Table.mem_values {α : Type} {t : Table α} {v : α} :
    v ∈ t.values ↔ ∃ key : Nat, t.get? key = some v := by
  have h : t.values = t.toList.map Prod.snd := by
    show t.inner.inner.values = (Std.DTreeMap.Internal.Impl.Const.toList t.inner.inner).map Prod.snd
    rw [Std.DTreeMap.Internal.Impl.values_eq_map_snd,
      Std.DTreeMap.Internal.Impl.Const.toList_eq_toListModel_map]
    simp
  simp only [h, List.mem_map, Std.TreeMap.get?_eq_getElem?,
    ← Std.TreeMap.mem_toList_iff_getElem?_eq_some, Prod.exists]
  constructor
  · rintro ⟨key, v, hm, rfl⟩
    exact ⟨key, hm⟩
  · rintro ⟨key, hm⟩
    exact ⟨key, v, hm, rfl⟩

namespace MemoryChains

variable {c : MemoryChains} {o p : MemObject} {n su : NodeId}

theorem mem_defs (a : Bool) : n ∈ (if a then c.sharedDefs else c.privateDefs).values ↔
    ∃ o, o.mayAlias = a ∧ c.defOf o = some n := by
  rw [Table.mem_values]
  constructor
  · rintro ⟨id, h⟩
    exact ⟨⟨id, a⟩, rfl, h⟩
  · rintro ⟨o, rfl, h⟩
    exact ⟨o.id, h⟩

theorem mem_sharedDefs : n ∈ c.sharedDefs.values ↔ ∃ o, o.mayAlias ∧ c.defOf o = some n :=
  mem_defs true

theorem mem_uses (a : Bool) : n ∈ (if a then c.sharedUses else c.privateUses).values.flatten ↔
    ∃ o, o.mayAlias = a ∧ n ∈ c.usesOf o := by
  have hgetD : ∀ l : Option (List NodeId), n ∈ l.getD [] ↔ ∃ l', l = some l' ∧ n ∈ l' := by
    intro l
    cases l <;> simp
  simp only [List.mem_flatten, Table.mem_values]
  constructor
  · rintro ⟨l, ⟨id, h⟩, hn⟩
    exact ⟨⟨id, a⟩, rfl, (hgetD _).mpr ⟨l, h, hn⟩⟩
  · rintro ⟨o, rfl, h⟩
    obtain ⟨l, hl, hn⟩ := (hgetD _).mp h
    exact ⟨l, ⟨o.id, hl⟩, hn⟩

theorem mem_sharedUses : n ∈ c.sharedUses.values.flatten ↔ ∃ o, o.mayAlias ∧ n ∈ c.usesOf o :=
  mem_uses true

/-- The files an access can be in. -/
theorem mem_all : n ∈ c.all ↔ c.barrier = some n ∨ c.aliasChain = some n ∨ n ∈ c.pendingLoads ∨
    (∃ o, c.defOf o = some n) ∨ (∃ o, n ∈ c.usesOf o) ∨ n ∈ c.rejected := by
  have hdefs : (∃ o, c.defOf o = some n) ↔
      n ∈ c.sharedDefs.values ∨ n ∈ c.privateDefs.values := by
    rw [mem_sharedDefs, show n ∈ c.privateDefs.values ↔ _ from mem_defs false, ← exists_or]
    exact exists_congr fun o => by cases o.mayAlias <;> simp
  have huses : (∃ o, n ∈ c.usesOf o) ↔
      n ∈ c.sharedUses.values.flatten ∨ n ∈ c.privateUses.values.flatten := by
    rw [mem_sharedUses, show n ∈ c.privateUses.values.flatten ↔ _ from mem_uses false, ← exists_or]
    exact exists_congr fun o => by cases o.mayAlias <;> simp
  simp only [all, List.mem_append, Option.mem_toList, hdefs, huses, or_assoc, or_left_comm]

theorem barrier_mem_all (h : c.barrier = some n) : n ∈ c.all := mem_all.2 (.inl h)

theorem aliasChain_mem_all (h : c.aliasChain = some n) : n ∈ c.all := mem_all.2 (.inr (.inl h))

theorem pendingLoads_mem_all (h : n ∈ c.pendingLoads) : n ∈ c.all :=
  mem_all.2 (.inr (.inr (.inl h)))

theorem defOf_mem_all (h : c.defOf o = some n) : n ∈ c.all :=
  mem_all.2 (.inr (.inr (.inr (.inl ⟨o, h⟩))))

theorem usesOf_mem_all (h : n ∈ c.usesOf o) : n ∈ c.all :=
  mem_all.2 (.inr (.inr (.inr (.inr (.inl ⟨o, h⟩)))))

theorem rejected_mem_all (h : n ∈ c.rejected) : n ∈ c.all :=
  mem_all.2 (.inr (.inr (.inr (.inr (.inr h)))))

theorem defOf_setDef : (c.setDef o su).defOf p = if p = o then some su else c.defOf p := by
  obtain ⟨id, a⟩ := o
  obtain ⟨id', a'⟩ := p
  cases a <;> cases a' <;>
    simp [setDef, defOf, Std.TreeMap.getElem?_insert, eq_comm (a := id)]

theorem usesOf_setDef : (c.setDef o su).usesOf p = if p = o then [] else c.usesOf p := by
  obtain ⟨id, a⟩ := o
  obtain ⟨id', a'⟩ := p
  cases a <;> cases a' <;> by_cases h : id = id' <;>
    simp [setDef, usesOf, Std.TreeMap.getElem?_erase, h, eq_comm (a := id')]

theorem defOf_addUse : (c.addUse o su).defOf p = c.defOf p := by
  simp only [addUse, defOf]
  cases o.mayAlias <;> rfl

theorem usesOf_addUse :
    (c.addUse o su).usesOf p = if p = o then c.usesOf o ++ [su] else c.usesOf p := by
  obtain ⟨id, a⟩ := o
  obtain ⟨id', a'⟩ := p
  cases a <;> cases a' <;> by_cases h : id = id' <;>
    simp [addUse, usesOf, Std.TreeMap.getElem?_insert, h, eq_comm (a := id')]

/-- Behind a global access nothing but the access itself is known. -/
theorem eq_of_mem_all_global
    (h : n ∈ ({ barrier := some su, aliasChain := some su } : MemoryChains).all) : n = su := by
  rcases mem_all.1 h with h | h | h | ⟨o, h⟩ | ⟨o, h⟩ | h
  · exact (Option.some.inj h).symm
  · exact (Option.some.inj h).symm
  · simp at h
  · simp [defOf] at h
  · simp [usesOf] at h
  · simp at h

/-- A store to an object changes nothing else. -/
theorem setDef_rest (c : MemoryChains) (o : MemObject) (su : NodeId) :
    (c.setDef o su).barrier = c.barrier ∧ (c.setDef o su).aliasChain = c.aliasChain ∧
    (c.setDef o su).pendingLoads = c.pendingLoads ∧ (c.setDef o su).rejected = c.rejected := by
  unfold setDef
  split <;> exact ⟨rfl, rfl, rfl, rfl⟩

/-- A load from an object changes nothing else. -/
theorem addUse_rest (c : MemoryChains) (o : MemObject) (su : NodeId) :
    (c.addUse o su).barrier = c.barrier ∧ (c.addUse o su).aliasChain = c.aliasChain ∧
    (c.addUse o su).pendingLoads = c.pendingLoads ∧ (c.addUse o su).rejected = c.rejected := by
  unfold addUse
  split <;> exact ⟨rfl, rfl, rfl, rfl⟩

theorem mem_reject {nodes : List NodeId} :
    n ∈ (c.reject nodes).rejected ↔ n ∈ c.rejected ∨ n ∈ nodes := by
  show n ∈ nodes.foldl _ c.rejected ↔ _
  generalize c.rejected = kept
  induction nodes generalizing kept with
  | nil => simp
  | cons m nodes ih =>
    rw [List.foldl_cons, ih, List.mem_cons]
    split
    next hm =>
      have hm : n = m → n ∈ kept := fun h => h ▸ List.contains_iff_mem.mp hm
      tauto
    next => rw [List.mem_append, List.mem_singleton, or_assoc]

theorem nodup_reject {nodes : List NodeId} (h : c.rejected.Nodup) :
    (c.reject nodes).rejected.Nodup := by
  show (nodes.foldl _ c.rejected).Nodup
  generalize c.rejected = kept at h
  induction nodes generalizing kept with
  | nil => exact h
  | cons m nodes ih =>
    rw [List.foldl_cons]
    apply ih
    split
    · exact h
    next hm =>
      rw [List.nodup_append]
      refine ⟨h, List.nodup_singleton m, fun a ha b hb hab => hm ?_⟩
      rw [← List.mem_singleton.mp hb, ← hab]
      exact List.contains_iff_mem.mpr ha

end MemoryChains

/-- Memory operands that name one object agree on whether other pointers reach it. -/
def ObjectsAgree (units : List Instr) : Prop :=
  ∀ i ∈ units, ∀ j ∈ units, ∀ m ∈ i.memOperands, ∀ n ∈ j.memOperands, ∀ o ∈ m.object,
    ∀ p ∈ n.object, o.id = p.id → o.mayAlias = p.mayAlias

instance (units : List Instr) : Decidable (ObjectsAgree units) :=
  inferInstanceAs (Decidable (∀ i ∈ units, ∀ j ∈ units, ∀ m ∈ i.memOperands, ∀ n ∈ j.memOperands,
    ∀ o ∈ m.object, ∀ p ∈ n.object, o.id = p.id → o.mayAlias = p.mayAlias))

theorem Instr.exists_memOperand {i : Instr} {o : MemObject} (h : i.underlyingObject = some o) :
    ∃ m ∈ i.memOperands, m.object = some o := by
  unfold underlyingObject at h
  split at h
  next m hm => exact ⟨m, by simp [hm], h⟩
  next => cases h

theorem ObjectsAgree.eq {units : List Instr} (h : ObjectsAgree units) {i j : Instr} (hi : i ∈ units)
    (hj : j ∈ units) {o p : MemObject} (ho : i.underlyingObject = some o)
    (hp : j.underlyingObject = some p) (hid : o.id = p.id) : o = p := by
  obtain ⟨m, hm, hmo⟩ := i.exists_memOperand ho
  obtain ⟨n, hn, hno⟩ := j.exists_memOperand hp
  have := h i hi j hj m hm n hn o hmo p hno hid
  cases o
  cases p
  simp_all

/-- Every access that can touch what `j` touches can touch what `i` touches. -/
def Shadows (units : List Instr) (i j : Instr) : Prop :=
  ∀ k ∈ units, mayTouch k j → mayTouch k i

theorem shadows_of_eq {units : List Instr} {i j : Instr}
    (h : j.underlyingObject = i.underlyingObject) : Shadows units i j := by
  intro k _ hk
  rwa [mayTouch, ← h]

/-- An access without an object stands in for everything but private accesses. -/
theorem shadows_of_reachable {units : List Instr} (hagree : ObjectsAgree units) {i j : Instr}
    (hj : j ∈ units) (hi : i.underlyingObject = none)
    (h : ∀ o, j.underlyingObject = some o → o.mayAlias) : Shadows units i j := by
  intro k hk ht
  unfold mayTouch at ht ⊢
  rw [hi]
  cases hko : k.underlyingObject with
  | none => rfl
  | some p =>
    cases hjo : j.underlyingObject with
    | none => simpa [hko, hjo] using ht
    | some o =>
      simp only [hko, hjo, beq_iff_eq] at ht
      rw [hagree.eq hk hj hko hjo ht]
      exact h o hjo

/-- A node is a unit, `k` or a later one, with an instruction as `p` says. -/
def IsUnit (units : List Instr) (k : Nat) (p : Instr → Prop) (n : NodeId) : Prop :=
  ∃ t j, n = .unit t ∧ k ≤ t ∧ units[t]? = some j ∧ p j

theorem IsUnit.mono {units : List Instr} {k k' : Nat} {p q : Instr → Prop} {n : NodeId}
    (h : IsUnit units k p n) (hk : k' ≤ k) (hq : ∀ j, p j → q j) : IsUnit units k' q n := by
  obtain ⟨t, j, rfl, hle, hj, hp⟩ := h
  exact ⟨t, j, rfl, hk.trans hle, hj, hq j hp⟩

theorem IsUnit.instr {units : List Instr} {k t : Nat} {p : Instr → Prop} {j : Instr}
    (h : IsUnit units k p (.unit t)) (hj : units[t]? = some j) : p j := by
  obtain ⟨t', j', heq, -, hj', hp⟩ := h
  cases heq
  exact Option.some.inj (hj.symm.trans hj') ▸ hp

theorem IsUnit.later {units : List Instr} {k : Nat} {p : Instr → Prop} {n : NodeId}
    (h : IsUnit units (k + 1) p n) : ∃ t, n = .unit t ∧ k < t ∧ t < units.length := by
  obtain ⟨t, j, rfl, hle, hj, -⟩ := h
  exact ⟨t, rfl, hle, (List.getElem?_eq_some_iff.mp hj).1⟩

namespace MemoryChains

/-- Every access is in the file of its kind, and accesses are rejected only on an oracle's word. -/
structure Filed (oracle : Option Oracle) (units : List Instr) (k : Nat) (c : MemoryChains) :
    Prop where
  barrier : ∀ n, c.barrier = some n → IsUnit units k (fun j => j.isGlobalAccess) n
  aliasChain : ∀ n, c.aliasChain = some n →
    IsUnit units k (fun j => j.isGlobalAccess ∨ (j.mayStore ∧ j.underlyingObject = none)) n
  pendingLoads : ∀ n ∈ c.pendingLoads, IsUnit units k
    (fun j => j.isGlobalAccess = false ∧ j.mayStore = false ∧ j.underlyingObject = none) n
  defs : ∀ o n, c.defOf o = some n → IsUnit units k
    (fun j => j.isGlobalAccess = false ∧ j.mayStore ∧ j.underlyingObject = some o) n
  uses : ∀ o, ∀ n ∈ c.usesOf o, IsUnit units k
    (fun j => j.isGlobalAccess = false ∧ j.mayStore = false ∧ j.underlyingObject = some o) n
  rejected : ∀ n ∈ c.rejected, IsUnit units k (fun j => j.isGlobalAccess = false) n
  nodup : c.rejected.Nodup
  unasked : oracle = none → c.rejected = []

variable {oracle : Option Oracle} {units : List Instr} {k k' : Nat} {c : MemoryChains}

theorem filed_empty : ({} : MemoryChains).Filed oracle units k := by
  refine ⟨nofun, nofun, nofun, fun o n h => ?_, fun o n h => ?_, nofun, List.nodup_nil,
    fun _ => rfl⟩
  · simp [defOf] at h
  · simp [usesOf] at h

theorem Filed.mono (h : c.Filed oracle units k) (hk : k' ≤ k) : c.Filed oracle units k' where
  barrier n hn := (h.barrier n hn).mono hk fun _ => id
  aliasChain n hn := (h.aliasChain n hn).mono hk fun _ => id
  pendingLoads n hn := (h.pendingLoads n hn).mono hk fun _ => id
  defs o n hn := (h.defs o n hn).mono hk fun _ => id
  uses o n hn := (h.uses o n hn).mono hk fun _ => id
  rejected n hn := (h.rejected n hn).mono hk fun _ => id
  nodup := h.nodup
  unasked := h.unasked

theorem Filed.isUnit (h : c.Filed oracle units k) {n : NodeId} (hn : n ∈ c.all) :
    IsUnit units k (fun _ => True) n := by
  rcases mem_all.1 hn with hn | hn | hn | ⟨o, hn⟩ | ⟨o, hn⟩ | hn
  · exact (h.barrier n hn).mono le_rfl fun _ _ => trivial
  · exact (h.aliasChain n hn).mono le_rfl fun _ _ => trivial
  · exact (h.pendingLoads n hn).mono le_rfl fun _ _ => trivial
  · exact (h.defs o n hn).mono le_rfl fun _ _ => trivial
  · exact (h.uses o n hn).mono le_rfl fun _ _ => trivial
  · exact (h.rejected n hn).mono le_rfl fun _ _ => trivial

theorem Filed.exists_barrier (h : c.Filed oracle units k) :
    ∀ n, c.barrier = some n → ∃ t, n = .unit t := by
  intro n hn
  obtain ⟨t, -, rfl, -⟩ := h.barrier n hn
  exact ⟨t, rfl⟩

theorem Filed.withRejected (h : c.Filed oracle units k) {nodes : List NodeId}
    (hsub : nodes.Sublist c.rejected) : ({ c with rejected := nodes }).Filed oracle units k :=
  { h with
    rejected := fun n hn => h.rejected n (hsub.subset hn)
    nodup := h.nodup.sublist hsub
    unasked := fun ho => List.sublist_nil.mp (h.unasked ho ▸ hsub) }

theorem Filed.reject (h : c.Filed oracle units k) {nodes : List NodeId}
    (hnodes : ∀ n ∈ nodes, IsUnit units k (fun j => j.isGlobalAccess = false) n)
    (hnone : oracle = none → nodes = []) : (c.reject nodes).Filed oracle units k :=
  { h with
    rejected := fun n hn => (mem_reject.1 hn).elim (h.rejected n) (hnodes n)
    nodup := nodup_reject h.nodup
    unasked := fun ho => by
      show (c.reject nodes).rejected = []
      simp [MemoryChains.reject, h.unasked ho, hnone ho] }

theorem Filed.setDef {o : MemObject} {su : NodeId} (h : c.Filed oracle units k)
    (hsu : IsUnit units k
      (fun j => j.isGlobalAccess = false ∧ j.mayStore ∧ j.underlyingObject = some o) su) :
    (c.setDef o su).Filed oracle units k := by
  obtain ⟨hb, ha, hp, hr⟩ := setDef_rest c o su
  refine ⟨hb ▸ h.barrier, ha ▸ h.aliasChain, hp ▸ h.pendingLoads, fun p n hn => ?_,
    fun p n hn => ?_, hr ▸ h.rejected, hr ▸ h.nodup, hr ▸ h.unasked⟩
  · rw [defOf_setDef] at hn
    split at hn
    next heq =>
      cases hn
      exact heq ▸ hsu
    next => exact h.defs p n hn
  · rw [usesOf_setDef] at hn
    split at hn
    next => simp at hn
    next => exact h.uses p n hn

theorem Filed.addUse {o : MemObject} {su : NodeId} (h : c.Filed oracle units k)
    (hsu : IsUnit units k
      (fun j => j.isGlobalAccess = false ∧ j.mayStore = false ∧ j.underlyingObject = some o) su) :
    (c.addUse o su).Filed oracle units k := by
  obtain ⟨hb, ha, hp, hr⟩ := addUse_rest c o su
  refine ⟨hb ▸ h.barrier, ha ▸ h.aliasChain, hp ▸ h.pendingLoads, fun p n hn => ?_,
    fun p n hn => ?_, hr ▸ h.rejected, hr ▸ h.nodup, hr ▸ h.unasked⟩
  · rw [defOf_addUse] at hn
    exact h.defs p n hn
  · rw [usesOf_addUse] at hn
    split at hn
    next heq =>
      rcases List.mem_append.mp hn with hn | hn
      · exact heq ▸ h.uses o n hn
      · obtain rfl := List.mem_singleton.mp hn
        exact heq ▸ hsu
    next => exact h.uses p n hn

/-- The accesses that a store to an unknown object leaves in their files. -/
def hidden (c : MemoryChains) : MemoryChains :=
  { c with pendingLoads := [], sharedDefs := {}, sharedUses := {} }

theorem defOf_hidden {o : MemObject} :
    c.hidden.defOf o = if o.mayAlias then none else c.defOf o := by
  cases h : o.mayAlias <;> simp [hidden, defOf, h]

theorem usesOf_hidden {o : MemObject} :
    c.hidden.usesOf o = if o.mayAlias then [] else c.usesOf o := by
  cases h : o.mayAlias <;> simp [hidden, usesOf, h]

theorem Filed.hidden (h : c.Filed oracle units k) : c.hidden.Filed oracle units k := by
  refine ⟨h.barrier, h.aliasChain, nofun, fun o n hn => ?_, fun o n hn => ?_, h.rejected, h.nodup,
    h.unasked⟩
  · rw [defOf_hidden] at hn
    split at hn
    · cases hn
    · exact h.defs o n hn
  · rw [usesOf_hidden] at hn
    split at hn
    · simp at hn
    · exact h.uses o n hn

/-! What stays on file. Each statement is about one access and what becomes of it if it does not
stay where it is. -/

section

variable {o : MemObject} {n su : NodeId} {apart kept : List NodeId} {R : Prop}

theorem mem_all_of_objectStore (hn : n ∈ c.all)
    (htarget : c.defOf o = some n ∨ n ∈ c.usesOf o → n ∈ apart ∨ R)
    (hkept : n ∈ c.rejected → n ∈ kept ∨ R) :
    n ∈ ({ c.setDef o su with rejected := kept }.reject apart).all ∨ R := by
  obtain ⟨hb, ha, hp, -⟩ := setDef_rest c o su
  have hreject : n ∈ kept ∨ n ∈ apart →
      n ∈ ({ c.setDef o su with rejected := kept }.reject apart).all :=
    fun h => rejected_mem_all (mem_reject.2 h)
  rcases mem_all.1 hn with hn | hn | hn | ⟨p, hn⟩ | ⟨p, hn⟩ | hn
  · exact .inl (barrier_mem_all (hb.trans hn))
  · exact .inl (aliasChain_mem_all (ha.trans hn))
  · exact .inl (pendingLoads_mem_all (hp ▸ hn))
  · by_cases hpo : p = o
    · exact (htarget (.inl (hpo ▸ hn))).imp_left fun h => hreject (.inr h)
    · have hdef : (c.setDef o su).defOf p = some n := by rw [defOf_setDef, if_neg hpo, hn]
      exact .inl (defOf_mem_all hdef)
  · by_cases hpo : p = o
    · exact (htarget (.inr (hpo ▸ hn))).imp_left fun h => hreject (.inr h)
    · have huse : n ∈ (c.setDef o su).usesOf p := by rwa [usesOf_setDef, if_neg hpo]
      exact .inl (usesOf_mem_all huse)
  · exact (hkept hn).imp_left fun h => hreject (.inl h)

theorem mem_all_of_unknownStore (hn : n ∈ c.all)
    (htarget : c.aliasChain = some n ∨ n ∈ c.pendingLoads ∨ n ∈ c.sharedDefs.values ∨
      n ∈ c.sharedUses.values.flatten → n ∈ apart ∨ R)
    (hkept : n ∈ c.rejected → n ∈ kept ∨ R) :
    n ∈ ({ { c.hidden with rejected := kept }.reject apart with aliasChain := some su }).all ∨
      R := by
  have hreject : n ∈ kept ∨ n ∈ apart →
      n ∈ ({ { c.hidden with rejected := kept }.reject apart with aliasChain := some su }).all :=
    fun h => rejected_mem_all (mem_reject.2 h)
  rcases mem_all.1 hn with hn | hn | hn | ⟨p, hn⟩ | ⟨p, hn⟩ | hn
  · exact .inl (barrier_mem_all hn)
  · exact (htarget (.inl hn)).imp_left fun h => hreject (.inr h)
  · exact (htarget (.inr (.inl hn))).imp_left fun h => hreject (.inr h)
  · by_cases hp : p.mayAlias
    · have hshared := mem_sharedDefs.2 ⟨p, hp, hn⟩
      exact (htarget (.inr (.inr (.inl hshared)))).imp_left fun h => hreject (.inr h)
    · have hdef : c.hidden.defOf p = some n := by rw [defOf_hidden, if_neg hp, hn]
      exact .inl (defOf_mem_all hdef)
  · by_cases hp : p.mayAlias
    · have hshared := mem_sharedUses.2 ⟨p, hp, hn⟩
      exact (htarget (.inr (.inr (.inr hshared)))).imp_left fun h => hreject (.inr h)
    · have huse : n ∈ c.hidden.usesOf p := by rwa [usesOf_hidden, if_neg hp]
      exact .inl (usesOf_mem_all huse)
  · exact (hkept hn).imp_left fun h => hreject (.inl h)

theorem mem_all_of_objectLoad (hn : n ∈ c.all) (hkept : n ∈ c.rejected → n ∈ kept ∨ R) :
    n ∈ ({ c.addUse o su with rejected := kept }).all ∨ R := by
  obtain ⟨hb, ha, hp, -⟩ := addUse_rest c o su
  rcases mem_all.1 hn with hn | hn | hn | ⟨p, hn⟩ | ⟨p, hn⟩ | hn
  · exact .inl (barrier_mem_all (hb.trans hn))
  · exact .inl (aliasChain_mem_all (ha.trans hn))
  · exact .inl (pendingLoads_mem_all (hp ▸ hn))
  · exact .inl (defOf_mem_all (defOf_addUse.trans hn))
  · have huse : n ∈ (c.addUse o su).usesOf p := by
      rw [usesOf_addUse]
      split
      next hpo => exact List.mem_append_left _ (hpo ▸ hn)
      next => exact hn
    exact .inl (usesOf_mem_all huse)
  · exact (hkept hn).imp_left fun h => rejected_mem_all h

theorem mem_all_of_unknownLoad (su : NodeId) (hn : n ∈ c.all)
    (hkept : n ∈ c.rejected → n ∈ kept ∨ R) :
    n ∈ ({ c with pendingLoads := c.pendingLoads ++ [su], rejected := kept }).all ∨ R := by
  rcases mem_all.1 hn with hn | hn | hn | ⟨p, hn⟩ | ⟨p, hn⟩ | hn
  · exact .inl (barrier_mem_all hn)
  · exact .inl (aliasChain_mem_all hn)
  · exact .inl (pendingLoads_mem_all (List.mem_append_left _ hn))
  · exact .inl (defOf_mem_all (o := p) hn)
  · exact .inl (usesOf_mem_all (o := p) hn)
  · exact (hkept hn).imp_left fun h => rejected_mem_all h

/-! And nothing comes on file but the access itself. -/

variable {Q : NodeId → Prop}

theorem all_objectStore (hall : ∀ n ∈ c.all, Q n) (hsu : Q su)
    (hapart : ∀ n ∈ apart, Q n) (hkept : kept ⊆ c.rejected) :
    ∀ n ∈ ({ c.setDef o su with rejected := kept }.reject apart).all, Q n := by
  obtain ⟨hb, ha, hp, -⟩ := setDef_rest c o su
  intro n hn
  rcases mem_all.1 hn with hn | hn | hn | ⟨p, hn⟩ | ⟨p, hn⟩ | hn
  · exact hall n (barrier_mem_all (hb.symm.trans hn))
  · exact hall n (aliasChain_mem_all (ha.symm.trans hn))
  · exact hall n (pendingLoads_mem_all (hp ▸ hn))
  · replace hn : (c.setDef o su).defOf p = some n := hn
    rw [defOf_setDef] at hn
    split at hn
    · exact Option.some.inj hn ▸ hsu
    · exact hall n (defOf_mem_all hn)
  · replace hn : n ∈ (c.setDef o su).usesOf p := hn
    rw [usesOf_setDef] at hn
    split at hn
    · simp at hn
    · exact hall n (usesOf_mem_all hn)
  · rcases mem_reject.1 hn with hn | hn
    · exact hall n (rejected_mem_all (hkept hn))
    · exact hapart n hn

theorem all_unknownStore (hall : ∀ n ∈ c.all, Q n) (hsu : Q su)
    (hapart : ∀ n ∈ apart, Q n) (hkept : kept ⊆ c.rejected) :
    ∀ n ∈ ({ { c.hidden with rejected := kept }.reject apart with aliasChain := some su }).all,
      Q n := by
  intro n hn
  rcases mem_all.1 hn with hn | hn | hn | ⟨p, hn⟩ | ⟨p, hn⟩ | hn
  · exact hall n (barrier_mem_all hn)
  · exact Option.some.inj hn ▸ hsu
  · simp [MemoryChains.reject, hidden] at hn
  · replace hn : c.hidden.defOf p = some n := hn
    rw [defOf_hidden] at hn
    split at hn
    · cases hn
    · exact hall n (defOf_mem_all hn)
  · replace hn : n ∈ c.hidden.usesOf p := hn
    rw [usesOf_hidden] at hn
    split at hn
    · simp at hn
    · exact hall n (usesOf_mem_all hn)
  · rcases mem_reject.1 hn with hn | hn
    · exact hall n (rejected_mem_all (hkept hn))
    · exact hapart n hn

theorem all_objectLoad (hall : ∀ n ∈ c.all, Q n) (hsu : Q su) (hkept : kept ⊆ c.rejected) :
    ∀ n ∈ ({ c.addUse o su with rejected := kept }).all, Q n := by
  obtain ⟨hb, ha, hp, -⟩ := addUse_rest c o su
  intro n hn
  rcases mem_all.1 hn with hn | hn | hn | ⟨p, hn⟩ | ⟨p, hn⟩ | hn
  · exact hall n (barrier_mem_all (hb.symm.trans hn))
  · exact hall n (aliasChain_mem_all (ha.symm.trans hn))
  · exact hall n (pendingLoads_mem_all (hp ▸ hn))
  · replace hn : (c.addUse o su).defOf p = some n := hn
    rw [defOf_addUse] at hn
    exact hall n (defOf_mem_all hn)
  · replace hn : n ∈ (c.addUse o su).usesOf p := hn
    rw [usesOf_addUse] at hn
    split at hn
    · rcases List.mem_append.mp hn with hn | hn
      · exact hall n (usesOf_mem_all hn)
      · exact List.mem_singleton.mp hn ▸ hsu
    · exact hall n (usesOf_mem_all hn)
  · exact hall n (rejected_mem_all (hkept hn))

theorem all_unknownLoad (hall : ∀ n ∈ c.all, Q n) (hsu : Q su) (hkept : kept ⊆ c.rejected) :
    ∀ n ∈ ({ c with pendingLoads := c.pendingLoads ++ [su], rejected := kept }).all, Q n := by
  intro n hn
  rcases mem_all.1 hn with hn | hn | hn | ⟨p, hn⟩ | ⟨p, hn⟩ | hn
  · exact hall n (barrier_mem_all hn)
  · exact hall n (aliasChain_mem_all hn)
  · rcases List.mem_append.mp hn with hn | hn
    · exact hall n (pendingLoads_mem_all hn)
    · exact List.mem_singleton.mp hn ▸ hsu
  · exact hall n (defOf_mem_all (o := p) hn)
  · exact hall n (usesOf_mem_all (o := p) hn)
  · exact hall n (rejected_mem_all (hkept hn))

end

/-- What an access is linked to, rejected accesses aside: all that it conflicts with and may touch,
judging by the files. -/
def targets (c : MemoryChains) (i : Instr) : List NodeId :=
  match i.underlyingObject with
  | some o => (c.defOf o).toList ++ (if i.mayStore then c.usesOf o else [])
      ++ if o.mayAlias then
          (if i.mayStore then c.pendingLoads else []) ++ c.aliasChain.toList
        else []
  | none => c.aliasChain.toList ++ c.sharedDefs.values
      ++ if i.mayStore then c.pendingLoads ++ c.sharedUses.values.flatten else []

theorem mem_all_of_mem_targets {i : Instr} {n : NodeId} (h : n ∈ c.targets i) : n ∈ c.all := by
  unfold targets at h
  split at h
  next o ho =>
    simp only [List.mem_append, Option.mem_toList, List.mem_ite_nil_right] at h
    rcases h with (h | h) | ⟨-, h | h⟩
    · exact defOf_mem_all h
    · exact usesOf_mem_all h.2
    · exact pendingLoads_mem_all h.2
    · exact aliasChain_mem_all h
  next ho =>
    simp only [List.mem_append, Option.mem_toList, List.mem_ite_nil_right, mem_sharedDefs,
      mem_sharedUses] at h
    rcases h with (h | ⟨o, -, h⟩) | ⟨-, h | ⟨o, -, h⟩⟩
    · exact aliasChain_mem_all h
    · exact defOf_mem_all h
    · exact pendingLoads_mem_all h
    · exact usesOf_mem_all h

theorem Filed.mem_targets {i j : Instr} {t : Nat} (hagree : ObjectsAgree units)
    (h : c.Filed oracle units k) (hi : i ∈ units) (hn : .unit t ∈ c.all) (hj : units[t]? = some j)
    (hd : j.isGlobalAccess = false) (hc : conflicts i j) (ht : mayTouch i j) :
    .unit t ∈ c.targets i ∨ .unit t ∈ c.rejected := by
  have hstore : j.mayStore = false → i.mayStore := fun hj => by simpa [conflicts, hj] using hc
  -- an access without an object is met by all but private accesses
  have hunknown : j.underlyingObject = none →
      (c.aliasChain = some (.unit t) ∨ (i.mayStore ∧ .unit t ∈ c.pendingLoads)) →
      .unit t ∈ c.targets i := by
    intro hjo hn
    cases hio : i.underlyingObject with
    | none => rcases hn with hn | ⟨hs, hn⟩ <;> simp [targets, *]
    | some o =>
      have ho : o.mayAlias := by simpa [mayTouch, hio, hjo] using ht
      rcases hn with hn | ⟨hs, hn⟩ <;> simp [targets, *]
  -- an access to an object is met by those to the same object and, if it can be, by the others
  have hknown : ∀ p, j.underlyingObject = some p →
      (c.defOf p = some (.unit t) ∨ (i.mayStore ∧ .unit t ∈ c.usesOf p)) →
      .unit t ∈ c.targets i := by
    intro p hjp hn
    cases hio : i.underlyingObject with
    | none =>
      have hp : p.mayAlias := by simpa [mayTouch, hio, hjp] using ht
      rcases hn with hn | ⟨hs, hn⟩
      · simp only [targets, hio, List.mem_append]
        exact .inl (.inr (mem_sharedDefs.2 ⟨p, hp, hn⟩))
      · simp only [targets, hio, hs, if_true, List.mem_append]
        exact .inr (.inr (mem_sharedUses.2 ⟨p, hp, hn⟩))
    | some o =>
      obtain rfl : o = p := by
        simp only [mayTouch, hio, hjp, beq_iff_eq] at ht
        exact hagree.eq hi (List.mem_of_getElem? hj) hio hjp ht
      rcases hn with hn | ⟨hs, hn⟩ <;> simp [targets, *]
  rcases mem_all.1 hn with hn | hn | hn | ⟨p, hn⟩ | ⟨p, hn⟩ | hn
  · simp [(h.barrier _ hn).instr hj] at hd
  · rcases (h.aliasChain _ hn).instr hj with hg | ⟨-, hjo⟩
    · simp [hg] at hd
    · exact .inl (hunknown hjo (.inl hn))
  · obtain ⟨-, hs, hjo⟩ := (h.pendingLoads _ hn).instr hj
    exact .inl (hunknown hjo (.inr ⟨hstore hs, hn⟩))
  · exact .inl (hknown p ((h.defs p _ hn).instr hj).2.2 (.inl hn))
  · obtain ⟨-, hs, hjp⟩ := (h.uses p _ hn).instr hj
    exact .inl (hknown p hjp (.inr ⟨hstore hs, hn⟩))
  · exact .inr hn

/-- There are no more rejected accesses than units. -/
theorem Filed.rejected_length_le (h : c.Filed oracle units k) :
    c.rejected.length ≤ units.length := by
  have hsub : c.rejected ⊆ (List.range units.length).map NodeId.unit := by
    intro n hn
    obtain ⟨t, j, rfl, -, hj, -⟩ := h.rejected n hn
    have := (List.getElem?_eq_some_iff.mp hj).1
    simpa using this
  simpa using (h.nodup.subperm hsub).length_le

end MemoryChains

end Precedence
