import Mathlib

/-!
# Finite maps and their entries

Facts about Mathlib's `Finmap` that sums over a map's entries need: what one key
contributes to `entries`, and when a list enumerates a map.
-/

namespace Finmap

section
variable {α : Type*} {β : α → Type*} [DecidableEq α]

/-- The entry under `a`, split off. -/
theorem entries_of_lookup {s : Finmap β} {a : α} {b : β a} (stored : s.lookup a = some b) :
    s.entries = ⟨a, b⟩ ::ₘ (s.erase a).entries := by
  have whole : (s.erase a).insert a b = s := by
    apply ext_lookup
    intro x
    by_cases eq : x = a
    · subst eq
      rw [lookup_insert, stored]
    · rw [lookup_insert_of_ne _ eq, lookup_erase_ne eq]
  conv_lhs => rw [← whole]
  exact entries_insert_of_notMem notMem_erase_self

/-- Overwriting forgets what was stored before. -/
theorem entries_insert (s : Finmap β) (a : α) (b : β a) :
    (s.insert a b).entries = ⟨a, b⟩ ::ₘ (s.erase a).entries := by
  have same : s.insert a b = (s.erase a).insert a b := by
    apply ext_lookup
    intro x
    by_cases eq : x = a
    · subst eq
      rw [lookup_insert, lookup_insert]
    · rw [lookup_insert_of_ne _ eq, lookup_insert_of_ne _ eq, lookup_erase_ne eq]
  rw [same]
  exact entries_insert_of_notMem notMem_erase_self

/-- Erasing an absent key changes nothing. -/
theorem erase_of_notMem {s : Finmap β} {a : α} (absent : a ∉ s) : s.erase a = s := by
  apply ext_lookup
  intro x
  by_cases eq : x = a
  · subst eq
    rw [lookup_erase, lookup_eq_none.mpr absent]
  · rw [lookup_erase_ne eq]

theorem lookup_erase_ite (s : Finmap β) (a x : α) :
    (s.erase a).lookup x = if x = a then none else s.lookup x := by
  by_cases eq : x = a
  · subst eq
    simp
  · simp [eq, lookup_erase_ne]

end

section
variable {κ ν : Type*} [DecidableEq κ]

theorem lookup_insert_ite (s : Finmap fun _ : κ => ν) (a x : κ) (b : ν) :
    (s.insert a b).lookup x = if x = a then some b else s.lookup x := by
  by_cases eq : x = a
  · subst eq
    simp
  · simp [eq, lookup_insert_of_ne]

/-- Erasing what was just inserted. -/
theorem erase_insert_self (s : Finmap fun _ : κ => ν) (a : κ) (b : ν) : (s.insert a b).erase a = s.erase a := by
  apply ext_lookup
  intro x
  rw [lookup_erase_ite, lookup_erase_ite, lookup_insert_ite]
  split <;> rfl

/-- A list without repeated keys that stores what the map stores lists the map's entries. -/
theorem entries_eq_of_list {s : Finmap fun _ : κ => ν} {l : List (κ × ν)} (nodup : (l.map Prod.fst).Nodup)
    (same : ∀ k v, (k, v) ∈ l ↔ s.lookup k = some v) :
    s.entries = ((l.map fun e => (⟨e.1, e.2⟩ : Σ _ : κ, ν) : List _) : Multiset _) := by
  have inj : Function.Injective fun e : κ × ν => (⟨e.1, e.2⟩ : Σ _ : κ, ν) := by
    rintro ⟨k, v⟩ ⟨k', v'⟩ eq
    simpa using eq
  apply (Multiset.Nodup.ext s.nodup_entries ?_).mpr
  · rintro ⟨k, v⟩
    rw [← lookup_eq_some_iff, Multiset.mem_coe, List.mem_map]
    constructor
    · intro stored
      exact ⟨(k, v), (same k v).mpr stored, rfl⟩
    · rintro ⟨⟨k', v'⟩, member, eq⟩
      cases eq
      exact (same k' v').mp member
  · rw [Multiset.coe_nodup]
    exact (List.Nodup.of_map _ nodup).map inj

/-- Such a list has as many elements as the map has keys. -/
theorem card_keys_of_list {s : Finmap fun _ : κ => ν} {l : List (κ × ν)} (nodup : (l.map Prod.fst).Nodup)
    (same : ∀ k v, (k, v) ∈ l ↔ s.lookup k = some v) : s.keys.card = l.length := by
  have entries := entries_eq_of_list nodup same
  change Multiset.card (s.entries.map Sigma.fst) = l.length
  rw [entries, Multiset.card_map, Multiset.coe_card, List.length_map]

/-! ## Weighing a map -/

/-- The sum of the weights of the stored values. -/
def total (s : Finmap fun _ : κ => ν) (w : ν → Nat) : Nat := (s.entries.map fun e => w e.2).sum

variable {s : Finmap fun _ : κ => ν} {k : κ} {v : ν}

theorem total_of_lookup (stored : s.lookup k = some v) (w : ν → Nat) : s.total w = w v + (s.erase k).total w := by
  rw [total, entries_of_lookup stored, Multiset.map_cons, Multiset.sum_cons]
  rfl

theorem total_insert (s : Finmap fun _ : κ => ν) (k : κ) (v : ν) (w : ν → Nat) :
    (s.insert k v).total w = w v + (s.erase k).total w := by
  rw [total, entries_insert, Multiset.map_cons, Multiset.sum_cons]
  rfl

theorem total_insert_new (absent : k ∉ s) (v : ν) (w : ν → Nat) : (s.insert k v).total w = w v + s.total w := by
  rw [total_insert, erase_of_notMem absent]

/-- A map weighed by a list that enumerates it. -/
theorem total_of_list {l : List (κ × ν)} (nodup : (l.map Prod.fst).Nodup)
    (same : ∀ k v, (k, v) ∈ l ↔ s.lookup k = some v) (w : ν → Nat) : s.total w = (l.map fun e => w e.2).sum := by
  rw [total, entries_eq_of_list nodup same, Multiset.map_coe, Multiset.sum_coe, List.map_map]
  rfl

omit [DecidableEq κ] in
/-- Weighing every value by one counts the keys. -/
theorem total_one (s : Finmap fun _ : κ => ν) : (s.total fun _ => 1) = s.keys.card := by
  change (s.entries.map fun _ => 1).sum = Multiset.card (s.entries.map Sigma.fst)
  rw [Multiset.map_const', Multiset.sum_replicate, Multiset.card_map, smul_eq_mul, mul_one]

theorem mem_entries_iff {e : Σ _ : κ, ν} : e ∈ s.entries ↔ s.lookup e.1 = some e.2 := by
  obtain ⟨k, v⟩ := e
  exact lookup_eq_some_iff.symm

theorem le_total (stored : s.lookup k = some v) (w : ν → Nat) : w v ≤ s.total w := by
  rw [total_of_lookup stored]
  exact Nat.le_add_right _ _

/-- A bound on every weight bounds the sum. -/
theorem total_le {w : ν → Nat} {bound : Nat} (each : ∀ k v, s.lookup k = some v → w v ≤ bound) :
    s.total w ≤ bound * s.keys.card := by
  have below : ∀ x ∈ s.entries.map fun e => w e.2, x ≤ bound := by
    intro x member
    obtain ⟨e, stored, rfl⟩ := Multiset.mem_map.mp member
    exact each e.1 e.2 (mem_entries_iff.mp stored)
  have sum := Multiset.sum_le_card_nsmul _ _ below
  rw [Multiset.card_map, smul_eq_mul, mul_comm] at sum
  have card : s.keys.card = Multiset.card s.entries := Multiset.card_map Sigma.fst s.entries
  rw [card]
  exact sum

/-- A map with positive weight has an entry with positive weight. -/
theorem exists_of_total_ne_zero {w : ν → Nat} (positive : s.total w ≠ 0) : ∃ k v, s.lookup k = some v ∧ w v ≠ 0 := by
  by_contra none
  apply positive
  apply Multiset.sum_eq_zero
  intro x member
  obtain ⟨e, stored, rfl⟩ := Multiset.mem_map.mp member
  by_contra weighs
  exact none ⟨e.1, e.2, mem_entries_iff.mp stored, weighs⟩

end

end Finmap
