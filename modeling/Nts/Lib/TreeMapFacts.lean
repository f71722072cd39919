import Mathlib

/-!
# Sorted maps whose order is equality-lawful

`Std.TreeMap` compares keys through `compare`. Where that order decides
equality, reading after a write is a plain case split on the key, and for
machine words the entries are listed in increasing order.
-/

namespace Std.TreeMap

section
variable {κ ν : Type*} [Ord κ] [TransOrd κ] [LawfulEqOrd κ] [DecidableEq κ] (m : Std.TreeMap κ ν) (k k' : κ)

theorem getElem?_insert_ite (v : ν) : (m.insert k v)[k']? = if k' = k then some v else m[k']? := by
  rw [getElem?_insert]
  simp only [LawfulEqOrd.compare_eq_iff_eq, @eq_comm _ k k']

theorem getElem?_erase_ite : (m.erase k)[k']? = if k' = k then none else m[k']? := by
  rw [getElem?_erase]
  simp only [LawfulEqOrd.compare_eq_iff_eq, @eq_comm _ k k']

end

/-- The entries of a map keyed by machine words come in increasing order. -/
theorem toList_sorted {w : Nat} {ν : Type*} (m : Std.TreeMap (BitVec w) ν) : m.toList.Pairwise fun a b => a.1 < b.1 := by
  have ordered : m.toList.Pairwise fun a b => compare a.1 b.1 = .lt := ordered_keys_toList
  exact ordered.imp fun less => compareOfLessAndEq_eq_lt.mp less

end Std.TreeMap
