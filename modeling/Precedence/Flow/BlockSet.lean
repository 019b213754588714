import Std.Data.TreeSet
import Precedence.Machine.Reg

/-!
Sets of blocks, from which searches take the blocks they meet.
-/
namespace Precedence

structure BlockSet where
  numbers : Std.TreeSet Nat

namespace BlockSet

def ofList (blocks : List BlockId) : BlockSet := ⟨.ofList (blocks.map BlockId.number)⟩

def contains (s : BlockSet) (b : BlockId) : Bool := s.numbers.contains b.number

def erase (s : BlockSet) (b : BlockId) : BlockSet := ⟨s.numbers.erase b.number⟩

def size (s : BlockSet) : Nat := s.numbers.size

theorem contains_ofList {blocks : List BlockId} {b : BlockId} :
    (ofList blocks).contains b = blocks.contains b := by
  rw [Bool.eq_iff_iff]
  simp only [contains, ofList, Std.TreeSet.contains_ofList, List.contains_iff_mem, List.mem_map]
  constructor
  · rintro ⟨c, hc, h⟩
    rwa [← show c = b by cases b; cases c; simp_all]
  · intro hb
    exact ⟨b, hb, rfl⟩

theorem contains_erase {s : BlockSet} {a b : BlockId} :
    (s.erase a).contains b = (b != a && s.contains b) := by
  obtain ⟨m⟩ := a
  obtain ⟨n⟩ := b
  by_cases h : n = m
  · simp [contains, erase, Std.TreeSet.contains_erase, h]
  · simp [contains, erase, Std.TreeSet.contains_erase, bne, Bool.beq_eq_decide_eq, h, Ne.symm h]

theorem size_erase_lt {s : BlockSet} {b : BlockId} (h : s.contains b) :
    (s.erase b).size < s.size := by
  have hne : s.numbers.isEmpty = false := Std.TreeSet.isEmpty_eq_false_of_contains h
  rw [Std.TreeSet.isEmpty_eq_size_eq_zero] at hne
  have hsize : s.numbers.size ≠ 0 := by simpa using hne
  simp only [contains] at h
  simp only [size, erase, Std.TreeSet.size_erase, if_pos h]
  omega

end BlockSet

end Precedence
