import Precedence.Proofs.Sparse.Same

/-!
Sparse maps are finite maps with an order of insertion. What a map stands for is a limit and a list
of keys with their values, and every sequence of calls gets the answers that such a list gives: a
new key goes behind the others with the default value, and the last key takes the place of one that
is erased. Slots and values that an erase or a clear has left behind are never seen.
-/
namespace Precedence

section Calls

variable {σ τ γ α : Type}

/-- Calls one after another, and their answers. -/
def runCalls (call : σ → γ → Except Fault (α × σ)) : σ → List γ → Except Fault (List α × σ)
  | s, [] => .ok ([], s)
  | s, c :: calls => do
      let (first, s) ← call s c
      let (rest, s) ← runCalls call s calls
      return (first :: rest, s)

/-- The answers of something that always has one. -/
def answers (next : τ → γ → α × τ) : τ → List γ → List α × τ
  | t, [] => ([], t)
  | t, c :: calls =>
      let rest := answers next (next t c).2 calls
      ((next t c).1 :: rest.1, rest.2)

/-- Every call is allowed when its turn comes. -/
def permits (allows : τ → γ → Bool) (next : τ → γ → α × τ) : τ → List γ → Bool
  | _, [] => true
  | t, c :: calls => allows t c && permits allows next (next t c).2 calls

/-- If `R` lasts through every call and the answers agree, they agree for all calls together. -/
theorem runCalls_eq {call : σ → γ → Except Fault (α × σ)} {next : τ → γ → α × τ}
    {allows : τ → γ → Bool} (R : σ → τ → Prop) {s : σ} {t : τ} (h : R s t) {calls : List γ}
    (hcalls : permits allows next t calls)
    (step : ∀ s t c, R s t → allows t c →
      ∃ s', call s c = .ok ((next t c).1, s') ∧ R s' (next t c).2) :
    ∃ s', runCalls call s calls = .ok ((answers next t calls).1, s') ∧
      R s' (answers next t calls).2 := by
  induction calls generalizing s t with
  | nil => exact ⟨s, rfl, h⟩
  | cons c calls ih =>
    obtain ⟨hc, hcalls⟩ := Bool.and_eq_true_iff.mp hcalls
    obtain ⟨s₁, hfirst, h₁⟩ := step s t c h hc
    obtain ⟨s₂, hrest, h₂⟩ := ih h₁ hcalls
    have hrun : runCalls call s (c :: calls) = .ok ((answers next t (c :: calls)).1, s₂) := by
      simp only [runCalls, bind_eq_ok, pure_eq_ok, Prod.exists]
      exact ⟨_, s₁, hfirst, _, s₂, hrest, rfl⟩
    exact ⟨s₂, hrun, h₂⟩

end Calls

section TakeOut

variable {α β : Type}

/-- Takes the first entry with `p` out and puts the last one in its place. -/
def takeOut (p : α → Bool) (l : List α) : List α :=
  match l.findIdx? p, l.getLast? with
  | some i, some last => (l.set i last).dropLast
  | _, _ => l

theorem takeOut_map (f : α → β) (p : β → Bool) (l : List α) :
    takeOut p (l.map f) = (takeOut (p ∘ f) l).map f := by
  unfold takeOut
  rw [List.findIdx?_map, List.getLast?_map]
  cases l.findIdx? (p ∘ f) with
  | none => rfl
  | some i =>
    cases l.getLast? with
    | none => rfl
    | some last => simp [List.map_dropLast, List.map_set]

theorem mem_of_mem_takeOut {p : α → Bool} {l : List α} {a : α} (h : a ∈ takeOut p l) : a ∈ l := by
  unfold takeOut at h
  split at h
  next i last _ hlast =>
    rcases List.mem_or_eq_of_mem_set (List.mem_of_mem_dropLast h) with h | rfl
    · exact h
    · exact List.mem_of_getLast? hlast
  next => exact h

end TakeOut

/-- A limit for keys, and the keys below it that have values, in order. -/
structure Listing (α : Type) where
  limit : Nat := 0
  entries : List (Nat × α) := []

namespace Listing

variable {α : Type}

def keys (l : Listing α) : List Nat := l.entries.map Prod.fst

def contains (l : Listing α) (key : Nat) : Bool := l.keys.contains key

def get? (l : Listing α) (key : Nat) : Option α :=
  (l.entries.find? fun e => e.1 == key).map Prod.snd

/-- The limit never goes down. -/
def grow (l : Listing α) (n : Nat) : Listing α := { l with limit := max l.limit n }

/-- Puts a new key behind the others, with the default value. -/
def touch [Inhabited α] (l : Listing α) (key : Nat) : Listing α :=
  if l.contains key then l else { l with entries := l.entries ++ [(key, default)] }

def modify (l : Listing α) (key : Nat) (change : α → α) : Listing α :=
  { l with entries := l.entries.map fun e => (e.1, if e.1 = key then change e.2 else e.2) }

def erase (l : Listing α) (key : Nat) : Listing α :=
  { l with entries := takeOut (fun e => e.1 == key) l.entries }

def clear (l : Listing α) : Listing α := { l with entries := [] }

theorem keys_touch [Inhabited α] (l : Listing α) (key : Nat) :
    (l.touch key).keys = if l.contains key then l.keys else l.keys ++ [key] := by
  unfold touch
  split <;> simp [keys]

theorem limit_touch [Inhabited α] (l : Listing α) (key : Nat) : (l.touch key).limit = l.limit := by
  unfold touch
  split <;> rfl

theorem keys_modify (l : Listing α) (key : Nat) (change : α → α) :
    (l.modify key change).keys = l.keys := by
  simp [keys, modify]

theorem keys_erase (l : Listing α) (key : Nat) :
    (l.erase key).keys = takeOut (fun k => k == key) l.keys :=
  (takeOut_map Prod.fst (fun k => k == key) l.entries).symm

end Listing

/-! Sets -/

namespace SparseKeys

variable {α : Type} {s : SparseKeys} {l : Listing α}

theorem Consistent.nodup (hs : s.Consistent) : s.toList.Nodup := by
  rw [List.nodup_iff_getElem?_ne_getElem?]
  intro i j hij hj heq
  have hkey : s.dense[j]? = some s.toList[j] := by simp [toList]
  have hi : s.dense[i]? = some s.toList[j] := by
    rw [← hkey]
    simpa [toList] using heq
  have := hs.place_unique hi hkey
  omega

theorem contains_eq_of_toList (hs : s.Consistent) {keys : List Nat} (h : s.toList = keys)
    (key : Nat) : s.contains key = keys.contains key := by
  rw [Bool.eq_iff_iff, contains_iff hs, ← Array.mem_iff_getElem?, List.contains_iff_mem, ← h,
    toList, Array.mem_toList_iff]

theorem Consistent.mem_lt_limit (hs : s.Consistent) {key : Nat} (h : key ∈ s.toList) :
    key < s.limit := by
  apply hs.lt_limit
  rw [contains_eq_of_toList hs rfl]
  exact List.contains_iff_mem.mpr h

/-- There are never more members than numbers below the limit. -/
theorem Consistent.size_le (hs : s.Consistent) : s.size ≤ s.limit := by
  have hsub : s.toList ⊆ List.range s.limit :=
    fun key h => List.mem_range.mpr (hs.mem_lt_limit h)
  have hlength := hs.nodup.length_le_of_subset hsub
  rwa [List.length_range] at hlength

/-- A number that is not a member leaves a place for itself. -/
theorem Consistent.size_lt (hs : s.Consistent) {key : Nat} (hlt : key < s.limit)
    (hkey : key ∉ s.toList) : s.size < s.limit := by
  have hnodup : (key :: s.toList).Nodup := List.nodup_cons.mpr ⟨hkey, hs.nodup⟩
  have hsub : key :: s.toList ⊆ List.range s.limit := by
    intro k hk
    rcases List.mem_cons.mp hk with rfl | hk
    · exact List.mem_range.mpr hlt
    · exact List.mem_range.mpr (hs.mem_lt_limit hk)
  have hlength := hnodup.length_le_of_subset hsub
  rwa [List.length_cons, List.length_range] at hlength

/-- A member is found at its place. -/
theorem Consistent.findIdx?_eq (hs : s.Consistent) {key slot : Nat} (h : s.place? key = some slot) :
    s.toList.findIdx? (fun k => k == key) = some slot := by
  obtain ⟨-, hkey⟩ := place?_eq_some.mp h
  obtain ⟨hlt, hget⟩ := Array.getElem?_eq_some_iff.mp hkey
  rw [List.findIdx?_eq_some_iff_getElem]
  refine ⟨hlt, by simpa [toList] using hget, fun j hj hother => ?_⟩
  have hj' : s.dense[j]? = some key := by
    rw [Array.getElem?_eq_some_iff]
    exact ⟨by omega, by simpa [toList] using hother⟩
  have := hs.place_unique hj' hkey
  omega

theorem toList_erase (hs : s.Consistent) (key : Nat) :
    (s.erase key).toList = takeOut (fun k => k == key) s.toList := by
  unfold erase takeOut
  split
  next slot last hslot hlast =>
    have hlast' : s.toList.getLast? = some last := by
      rw [toList, Array.getLast?_toList, hlast]
    simp only [hs.findIdx?_eq hslot, hlast']
    split
    next heq =>
      -- the member that goes is the last one
      obtain ⟨-, hkey⟩ := place?_eq_some.mp hslot
      obtain ⟨hlt, hget⟩ := Array.getElem?_eq_some_iff.mp hkey
      have hself : s.toList.set slot last = s.toList := by
        rw [heq, ← hget]
        exact List.set_getElem_self hlt
      rw [hself, toList, toList, Array.toList_pop]
    next =>
      rw [toList, toList, Array.toList_pop, Array.set!_eq_setIfInBounds, Array.toList_setIfInBounds]
  next hnone =>
    have hplace : s.place? key = none := by
      by_contra hsome
      obtain ⟨slot, hslot⟩ := Option.ne_none_iff_exists'.mp hsome
      obtain ⟨last, hlast⟩ := back?_of_place? hslot
      exact hnone slot last hslot hlast
    have hout : s.toList.findIdx? (fun k => k == key) = none := by
      rw [List.findIdx?_eq_none_iff]
      intro k hk
      by_contra hkey
      obtain rfl : k = key := by simpa using hkey
      rw [← List.contains_iff_mem, ← contains_eq_of_toList hs rfl, contains, hplace] at hk
      cases hk
    simp only [hout]

/-- The set has the listing's keys in the listing's order, with the same limit. Slots and keys of 32
bits are wide enough for it. -/
structure Lists (s : SparseKeys) (l : Listing α) : Prop where
  consistent : s.Consistent
  limit : s.limit = l.limit
  toList : s.toList = l.keys
  slots : ∀ slot ∈ s.slots, slot < s.limit
  few : l.limit ≤ 0x100000000

namespace Lists

theorem empty : ({} : SparseKeys).Lists ({} : Listing α) where
  consistent i key h := by simp at h
  limit := rfl
  toList := rfl
  slots slot h := by simp at h
  few := Nat.zero_le _

theorem contains (h : s.Lists l) (key : Nat) : s.contains key = l.contains key :=
  contains_eq_of_toList h.consistent h.toList key

theorem nodup (h : s.Lists l) : l.keys.Nodup := h.toList ▸ h.consistent.nodup

theorem narrow (h : s.Lists l) : ∀ n ∈ s.slots.toList ++ s.dense.toList, n < 0x100000000 := by
  intro n hn
  have hfew : s.limit ≤ 0x100000000 := h.limit ▸ h.few
  rcases List.mem_append.mp hn with hslot | hkey
  · have := h.slots n (Array.mem_toList_iff.mp hslot)
    omega
  · have := h.consistent.mem_lt_limit hkey
    omega

theorem grow (h : s.Lists l) {n : Nat} (hn : n ≤ 0x100000000) :
    s.grow n = .ok (s.reserve n) ∧ (s.reserve n).Lists (l.grow n) := by
  have hlimit : (s.reserve n).limit = max l.limit n := by
    rw [← h.limit]
    simp only [SparseKeys.limit, reserve, Array.size_append, Array.size_replicate]
    omega
  constructor
  · have hroom : n * 4 < 0x8000000000000000 := by omega
    simp only [SparseKeys.grow, checkRoom, if_pos hroom]
    rfl
  · refine ⟨(reserve_spec h.consistent n).1, hlimit, h.toList, ?_, max_le h.few hn⟩
    intro slot hslot
    rw [hlimit]
    simp only [reserve, Array.mem_append, Array.mem_replicate] at hslot
    rcases hslot with hslot | ⟨hroom, rfl⟩
    · have := h.slots slot hslot
      have := h.limit
      omega
    · omega

theorem insert [Inhabited α] (h : s.Lists l) {key : Nat} (hlt : key < l.limit) :
    ∃ s', s.insert key = .ok (s', !l.contains key) ∧ s'.Lists (l.touch key) := by
  rw [← h.limit] at hlt
  cases hc : l.contains key with
  | true =>
    have hcs : s.contains key = true := (h.contains key).trans hc
    refine ⟨s, by simp [SparseKeys.insert, hlt, hcs], ?_⟩
    rw [Listing.touch, if_pos hc]
    exact h
  | false =>
    have hcs : s.contains key = false := (h.contains key).trans hc
    have hinsert : s.insert key =
        .ok (⟨s.slots.set! key s.dense.size, s.dense.push key⟩, true) := by
      simp [SparseKeys.insert, hlt, hcs]
    obtain ⟨hconsistent, -, hlimit, -⟩ := insert_ok h.consistent hinsert
    refine ⟨_, hinsert, hconsistent, ?_, ?_, ?_, ?_⟩
    · rw [hlimit, h.limit, Listing.limit_touch]
    · rw [Listing.keys_touch, hc, ← h.toList]
      simp [SparseKeys.toList]
    · -- the new slot is the number of members, which is below the limit while a key is missing
      have hkey : key ∉ s.toList := by
        rw [← List.contains_iff_mem, ← contains_eq_of_toList h.consistent rfl, hcs]
        exact Bool.false_ne_true
      have hsize := h.consistent.size_lt hlt hkey
      intro slot hslot
      rw [hlimit]
      rw [Array.set!_eq_setIfInBounds] at hslot
      rcases Array.mem_or_eq_of_mem_setIfInBounds hslot with hslot | rfl
      · exact h.slots slot hslot
      · exact hsize
    · rw [Listing.limit_touch]
      exact h.few

theorem erase (h : s.Lists l) (key : Nat) : (s.erase key).Lists (l.erase key) := by
  obtain ⟨hconsistent, hlimit, -⟩ := erase_spec h.consistent key
  refine ⟨hconsistent, hlimit.trans h.limit, ?_, ?_, h.few⟩
  · rw [toList_erase h.consistent, Listing.keys_erase, h.toList]
  · intro slot hslot
    rw [hlimit]
    unfold SparseKeys.erase at hslot
    split at hslot
    next place last hplace _ =>
      have hsize : place < s.size := (Array.getElem?_eq_some_iff.mp (place?_eq_some.mp hplace).2).1
      have hle := h.consistent.size_le
      split at hslot
      · exact h.slots slot hslot
      · rw [Array.set!_eq_setIfInBounds] at hslot
        rcases Array.mem_or_eq_of_mem_setIfInBounds hslot with hslot | rfl
        · exact h.slots slot hslot
        · omega
    next => exact h.slots slot hslot

theorem clear (h : s.Lists l) : s.clear.Lists l.clear :=
  ⟨(clear_spec s).1, h.limit, rfl, h.slots, h.few⟩

end Lists

inductive Call
  | grow (n : Nat)
  | insert (key : Nat)
  | erase (key : Nat)
  | contains (key : Nat)
  | clear
  | toList
  | size
  | limit

inductive Answer
  | done
  | found (yes : Bool)
  | number (n : Nat)
  | keys (keys : List Nat)
deriving DecidableEq

def call (s : SparseKeys) : Call → Except Fault (Answer × SparseKeys)
  | .grow n => do
      let s ← s.grow n
      return (.done, s)
  | .insert key => do
      let (s, new) ← s.insert key
      return (.found new, s)
  | .erase key => .ok (.found (s.contains key), s.erase key)
  | .contains key => .ok (.found (s.contains key), s)
  | .clear => .ok (.done, s.clear)
  | .toList => .ok (.keys s.toList, s)
  | .size => .ok (.number s.size, s)
  | .limit => .ok (.number s.limit, s)

/-- The answer of a listing in place of a set, and the listing after the call. -/
def Call.on (l : Listing Unit) : Call → Answer × Listing Unit
  | .grow n => (.done, l.grow n)
  | .insert key => (.found (!l.contains key), l.touch key)
  | .erase key => (.found (l.contains key), l.erase key)
  | .contains key => (.found (l.contains key), l)
  | .clear => (.done, l.clear)
  | .toList => (.keys l.keys, l)
  | .size => (.number l.keys.length, l)
  | .limit => (.number l.limit, l)

/-- No limit above 2^32 is asked for, and nothing at or above the limit is inserted. -/
def Call.proper (l : Listing Unit) : Call → Bool
  | .grow n => n ≤ 0x100000000
  | .insert key => key < l.limit
  | _ => true

theorem Lists.call {l : Listing Unit} (h : s.Lists l) {c : Call} (hc : c.proper l) :
    ∃ s', s.call c = .ok ((c.on l).1, s') ∧ s'.Lists (c.on l).2 := by
  cases c with
  | grow n =>
    obtain ⟨hgrow, hlists⟩ := h.grow (of_decide_eq_true hc)
    exact ⟨_, bind_eq_ok.mpr ⟨_, hgrow, rfl⟩, hlists⟩
  | insert key =>
    obtain ⟨s', hinsert, hlists⟩ := h.insert (of_decide_eq_true hc)
    exact ⟨s', bind_eq_ok.mpr ⟨_, hinsert, rfl⟩, hlists⟩
  | erase key =>
    exact ⟨s.erase key, by simp only [SparseKeys.call, Call.on, h.contains], h.erase key⟩
  | contains key => exact ⟨s, by simp only [SparseKeys.call, Call.on, h.contains], h⟩
  | clear => exact ⟨s.clear, rfl, h.clear⟩
  | toList => exact ⟨s, by simp only [SparseKeys.call, Call.on, h.toList], h⟩
  | size => exact ⟨s, by simp only [SparseKeys.call, Call.on, ← h.toList]; rfl, h⟩
  | limit => exact ⟨s, by simp only [SparseKeys.call, Call.on, h.limit], h⟩

end SparseKeys

/-! Maps -/

namespace SparseMap

variable {α : Type} [Inhabited α] {m : SparseMap α} {l : Listing α}

omit [Inhabited α] in
theorem erase_keys_of_not_contains {s : SparseKeys} {key : Nat} (h : ¬s.contains key) :
    s.erase key = s := by
  have hplace : s.place? key = none := by simpa [SparseKeys.contains] using h
  simp only [SparseKeys.erase, hplace]

/-- The map's keys are those of the listing, and it has the listing's values under them. -/
structure Lists (m : SparseMap α) (l : Listing α) : Prop where
  keys : m.keys.Lists l
  room : m.values.size = m.limit
  values : ∀ e ∈ l.entries, m.valueAt e.1 = e.2

namespace Lists

theorem empty : ({} : SparseMap α).Lists {} where
  keys := .empty
  room := rfl
  values e h := by simp at h

variable (h : m.Lists l)

include h

theorem sound : m.Sound := ⟨h.keys.consistent, h.room⟩

theorem contains (key : Nat) : m.contains key = l.contains key := h.keys.contains key

theorem toList : m.toList = l.entries := by
  have hentries : l.entries.map (fun e => (e.1, m.valueAt e.1)) = l.entries.map id := by
    apply List.map_congr_left
    intro e he
    rw [h.values e he]
    rfl
  rw [toList_eq h.sound, h.keys.toList, Listing.keys, List.map_map]
  exact hentries.trans (List.map_id _)

theorem get? (key : Nat) : m.get? key = l.get? key := by
  rw [get?_eq h.sound, h.contains, Listing.get?]
  cases hfind : l.entries.find? fun e => e.1 == key with
  | none =>
    have hout : l.contains key = false := by
      rw [← Bool.not_eq_true, Listing.contains, List.contains_iff_mem]
      intro hin
      obtain ⟨e, he, rfl⟩ := List.mem_map.mp hin
      have hother := List.find?_eq_none.mp hfind e he
      exact hother (beq_self_eq_true e.1)
    rw [hout]
    rfl
  | some e =>
    have hmem := List.mem_of_find?_eq_some hfind
    obtain rfl : e.1 = key := by simpa using List.find?_some hfind
    have hin : l.contains e.1 = true := by
      rw [Listing.contains, List.contains_iff_mem]
      exact List.mem_map_of_mem hmem
    rw [hin, h.values e hmem]
    rfl

theorem grow {n : Nat} (hn : n ≤ 0x100000000) :
    m.grow n = .ok (m.reserve n) ∧ (m.reserve n).Lists (l.grow n) := by
  obtain ⟨hgrow, hkeys⟩ := h.keys.grow hn
  obtain ⟨hsound, hvalues⟩ := reserve_spec h.sound n
  constructor
  · simp only [SparseMap.grow, hgrow]
    rfl
  · exact ⟨hkeys, hsound.room, fun e he => hvalues ▸ h.values e he⟩

theorem touch {key : Nat} (hlt : key < l.limit) :
    ∃ m', m.touch key = .ok m' ∧ m'.Lists (l.touch key) := by
  obtain ⟨keys, hinsert, hkeys⟩ := h.keys.insert hlt
  have htouch : m.touch key = .ok
      ⟨keys, if !l.contains key then m.values.set! key default else m.values⟩ := by
    simp only [SparseMap.touch, hinsert]
    rfl
  obtain ⟨hsound, -, -, hvalues⟩ := touch_ok h.sound htouch
  refine ⟨_, htouch, hkeys, hsound.room, ?_⟩
  rw [hvalues]
  intro e he
  unfold Listing.touch at he
  split at he
  next => exact h.values e he
  next hout =>
    rcases List.mem_append.mp he with he | he
    · exact h.values e he
    · -- an absent key has the default value, whatever is stored
      obtain rfl := List.mem_singleton.mp he
      rw [valueAt_eq, h.contains, eq_false_of_ne_true hout]
      rfl

theorem modify (key : Nat) (change : α → α) :
    (m.modify key change).Lists (l.modify key change) := by
  have hkeys : (m.modify key change).keys.Lists (l.modify key change) := by
    have hsame : (m.modify key change).keys = m.keys := by
      unfold SparseMap.modify
      split <;> rfl
    rw [hsame]
    exact ⟨h.keys.consistent, h.keys.limit, by rw [Listing.keys_modify, h.keys.toList],
      h.keys.slots, h.keys.few⟩
  by_cases hc : m.contains key
  · obtain ⟨hsound, -, hvalues⟩ := modify_spec h.sound hc change
    refine ⟨hkeys, hsound.room, ?_⟩
    intro e hin
    obtain ⟨e, he, rfl⟩ := List.mem_map.mp hin
    rw [hvalues, ← h.values e he]
    by_cases hk : e.1 = key
    · simp [hk]
    · simp [hk]
  · have hsame : m.modify key change = m := by rw [SparseMap.modify, if_neg hc]
    refine ⟨hkeys, hsame.symm ▸ h.room, ?_⟩
    intro e hin
    obtain ⟨e, he, rfl⟩ := List.mem_map.mp hin
    have hk : e.1 ≠ key := by
      rintro rfl
      rw [h.contains, Listing.contains, List.contains_iff_mem] at hc
      exact hc (List.mem_map_of_mem he)
    rw [hsame, if_neg hk]
    exact h.values e he

theorem alter {key : Nat} (hlt : key < l.limit) (change : α → α) :
    ∃ m', m.alter key change = .ok m' ∧ m'.Lists ((l.touch key).modify key change) := by
  obtain ⟨t, ht, hlists⟩ := h.touch hlt
  exact ⟨t.modify key change, (alter_eq_ok h.sound).mpr ⟨t, ht, rfl⟩, hlists.modify key change⟩

/-- What an entry is handed out with is the value of its key, the default value if it had none. -/
theorem fetch {key : Nat} (hlt : key < l.limit) :
    ∃ m', m.fetch key = .ok ((l.get? key).getD default, m') ∧ m'.Lists (l.touch key) := by
  obtain ⟨t, ht, hlists⟩ := h.touch hlt
  have hfetch : m.fetch key = .ok ((t.get? key).getD default, t) :=
    bind_eq_ok.mpr ⟨t, ht, rfl⟩
  have hvalue := (fetch_ok h.sound hfetch).2.2.2
  rw [valueAt, h.get?] at hvalue
  exact ⟨t, hvalue ▸ hfetch, hlists⟩

theorem erase (key : Nat) : (m.erase key).Lists (l.erase key) := by
  have hkeys : (m.erase key).keys = m.keys.erase key := by
    unfold SparseMap.erase
    split
    next => rfl
    next hout => exact (erase_keys_of_not_contains hout).symm
  obtain ⟨hsound, -, hvalues⟩ := erase_spec h.sound key
  have hlists : (m.erase key).keys.Lists (l.erase key) := hkeys ▸ h.keys.erase key
  refine ⟨hlists, hsound.room, ?_⟩
  intro e he
  have hne : e.1 ≠ key := by
    have hin : (m.erase key).keys.contains e.1 = true := by
      rw [hlists.contains, Listing.contains, List.contains_iff_mem]
      exact List.mem_map_of_mem he
    rw [hkeys, (SparseKeys.erase_spec h.keys.consistent key).2.2] at hin
    simp only [Bool.and_eq_true, decide_eq_true_eq] at hin
    exact hin.1
  rw [hvalues, Function.update_of_ne hne]
  exact h.values e (mem_of_mem_takeOut he)

theorem clear : m.clear.Lists l.clear where
  keys := h.keys.clear
  room := (clear_spec h.sound).1.room
  values e he := by simp [Listing.clear] at he

end Lists

inductive Call (α : Type)
  | grow (n : Nat)
  | fetch (key : Nat)
  | alter (key : Nat) (change : α → α)
  | modify (key : Nat) (change : α → α)
  | erase (key : Nat)
  | contains (key : Nat)
  | get (key : Nat)
  | clear
  | keys
  | toList
  | size
  | limit

inductive Answer (α : Type)
  | done
  | found (yes : Bool)
  | number (n : Nat)
  | value (value : Option α)
  | keys (keys : List Nat)
  | entries (entries : List (Nat × α))
deriving DecidableEq

def call (m : SparseMap α) : Call α → Except Fault (Answer α × SparseMap α)
  | .grow n => do
      let m ← m.grow n
      return (.done, m)
  | .fetch key => do
      let (value, m) ← m.fetch key
      return (.value (some value), m)
  | .alter key change => do
      let m ← m.alter key change
      return (.done, m)
  | .modify key change => .ok (.value (m.get? key), m.modify key change)
  | .erase key => .ok (.done, m.erase key)
  | .contains key => .ok (.found (m.contains key), m)
  | .get key => .ok (.value (m.get? key), m)
  | .clear => .ok (.done, m.clear)
  | .keys => .ok (.keys m.keys.toList, m)
  | .toList => .ok (.entries m.toList, m)
  | .size => .ok (.number m.size, m)
  | .limit => .ok (.number m.limit, m)

/-- The answer of a listing in place of a map, and the listing after the call. -/
def Call.on (l : Listing α) : Call α → Answer α × Listing α
  | .grow n => (.done, l.grow n)
  | .fetch key => (.value (some ((l.get? key).getD default)), l.touch key)
  | .alter key change => (.done, (l.touch key).modify key change)
  | .modify key change => (.value (l.get? key), l.modify key change)
  | .erase key => (.done, l.erase key)
  | .contains key => (.found (l.contains key), l)
  | .get key => (.value (l.get? key), l)
  | .clear => (.done, l.clear)
  | .keys => (.keys l.keys, l)
  | .toList => (.entries l.entries, l)
  | .size => (.number l.keys.length, l)
  | .limit => (.number l.limit, l)

/-- No limit above 2^32 is asked for, and no entry at or above the limit. -/
def Call.proper (l : Listing α) : Call α → Bool
  | .grow n => n ≤ 0x100000000
  | .fetch key | .alter key _ => key < l.limit
  | _ => true

theorem Lists.call (h : m.Lists l) {c : Call α} (hc : c.proper l) :
    ∃ m', m.call c = .ok ((c.on l).1, m') ∧ m'.Lists (c.on l).2 := by
  cases c with
  | grow n =>
    obtain ⟨hgrow, hlists⟩ := h.grow (of_decide_eq_true hc)
    exact ⟨_, bind_eq_ok.mpr ⟨_, hgrow, rfl⟩, hlists⟩
  | fetch key =>
    obtain ⟨m', hfetch, hlists⟩ := h.fetch (of_decide_eq_true hc)
    exact ⟨m', bind_eq_ok.mpr ⟨_, hfetch, rfl⟩, hlists⟩
  | alter key change =>
    obtain ⟨m', halter, hlists⟩ := h.alter (of_decide_eq_true hc) change
    exact ⟨m', bind_eq_ok.mpr ⟨_, halter, rfl⟩, hlists⟩
  | modify key change =>
    exact ⟨_, by simp only [SparseMap.call, Call.on, h.get?], h.modify key change⟩
  | erase key => exact ⟨_, rfl, h.erase key⟩
  | contains key => exact ⟨m, by simp only [SparseMap.call, Call.on, h.contains], h⟩
  | get key => exact ⟨m, by simp only [SparseMap.call, Call.on, h.get?], h⟩
  | clear => exact ⟨_, rfl, h.clear⟩
  | keys => exact ⟨m, by simp only [SparseMap.call, Call.on, h.keys.toList], h⟩
  | toList => exact ⟨m, by simp only [SparseMap.call, Call.on, h.toList], h⟩
  | size => exact ⟨m, by simp only [SparseMap.call, Call.on, ← h.keys.toList]; rfl, h⟩
  | limit => exact ⟨m, by simp only [SparseMap.call, Call.on, ← h.keys.limit]; rfl, h⟩

end SparseMap

/-- Every sequence of calls on a new set or map is answered as by a list that has each key once.
Numbers of 32 bits are enough for what is stored. -/
theorem sparse_answers_eq_listing :
    (∀ calls : List SparseKeys.Call,
      permits SparseKeys.Call.proper SparseKeys.Call.on {} calls →
      let (given, l) := answers SparseKeys.Call.on {} calls
      ∃ s, runCalls SparseKeys.call {} calls = .ok (given, s) ∧
        s.limit = l.limit ∧ s.toList = l.keys ∧ l.keys.Nodup ∧
        ∀ n ∈ s.slots.toList ++ s.dense.toList, n < 0x100000000) ∧
    ∀ (α : Type) [Inhabited α] (calls : List (SparseMap.Call α)),
      permits SparseMap.Call.proper SparseMap.Call.on {} calls →
      let (given, l) := answers SparseMap.Call.on {} calls
      ∃ m, runCalls SparseMap.call {} calls = .ok (given, m) ∧
        m.limit = l.limit ∧ m.toList = l.entries ∧ l.keys.Nodup ∧
        ∀ n ∈ m.keys.slots.toList ++ m.keys.dense.toList, n < 0x100000000 := by
  constructor
  · intro calls hcalls
    obtain ⟨s, hrun, hlists⟩ := runCalls_eq SparseKeys.Lists .empty hcalls
      fun s l c h hc => h.call hc
    exact ⟨s, hrun, hlists.limit, hlists.toList, hlists.nodup, hlists.narrow⟩
  · intro α _ calls hcalls
    obtain ⟨m, hrun, hlists⟩ := runCalls_eq SparseMap.Lists .empty hcalls
      fun m l c h hc => h.call hc
    exact ⟨m, hrun, hlists.keys.limit, hlists.toList, hlists.keys.nodup, hlists.keys.narrow⟩

/-- An erase in the middle, a key that comes back after it and one that comes back after a clear. -/
theorem sparse_answers_of_reentry :
    let keys : List SparseKeys.Call :=
      [.grow 8, .insert 5, .insert 2, .insert 7, .erase 5, .toList, .erase 7, .insert 5, .toList,
        .clear, .insert 3, .contains 5, .grow 4, .limit]
    let calls : List (SparseMap.Call Nat) :=
      [.grow 4, .alter 1 (· + 10), .alter 3 (· + 30), .alter 0 (· + 7), .erase 1, .toList,
        .fetch 1, .modify 3 (· + 1), .clear, .get 3, .grow 9, .fetch 3, .alter 8 (· + 2), .toList]
    permits SparseKeys.Call.proper SparseKeys.Call.on {} keys ∧
      permits SparseMap.Call.proper SparseMap.Call.on {} calls ∧
      (∃ s, runCalls SparseKeys.call {} keys = .ok
        ([.done, .found true, .found true, .found true, .found true, .keys [7, 2], .found true,
          .found true, .keys [2, 5], .done, .found true, .found false, .done, .number 8], s) ∧
        s.toList = [3]) ∧
      ∃ m, runCalls SparseMap.call {} calls = .ok
        ([.done, .done, .done, .done, .done, .entries [(0, 7), (3, 30)], .value (some 0),
          .value (some 30), .done, .value none, .done, .value (some 0), .done,
          .entries [(3, 0), (8, 2)]], m) ∧
        m.toList = [(3, 0), (8, 2)] := by
  intro keys calls
  have hkeys : permits SparseKeys.Call.proper SparseKeys.Call.on {} keys := by decide
  have hcalls : permits SparseMap.Call.proper SparseMap.Call.on {} calls := by decide
  obtain ⟨s, hrun, -, hlist, -⟩ := sparse_answers_eq_listing.1 keys hkeys
  obtain ⟨m, hrun', -, hlist', -⟩ := sparse_answers_eq_listing.2 Nat calls hcalls
  exact ⟨hkeys, hcalls, ⟨s, hrun, hlist⟩, m, hrun', hlist'⟩

end Precedence
