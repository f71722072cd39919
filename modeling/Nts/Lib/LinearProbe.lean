import Nts.Lib.Runs

/-!
# Open addressing with linear probing on a ring

A ring of `n` positions, each empty or holding one key with its value; every
key has a home position and is looked for by walking forward from there. The
walk is right as long as no probe chain is broken: each position from a key's
home to the key itself is occupied (`Linked`).

`OnWay a q b` is "the walk from `a` reaches `q` before it reaches `b`". All ring
arguments are stated with it and with the forward distance `dist`, so they are
linear arithmetic and never mention `%`.

`Stops` is what a finished probe has established; `Linked.insert` stores a key
there. Deletion without tombstones goes through `Gap`: the ring with a hole at
`h` whose entries before the cursor have been checked. `Gap.keep`, `Gap.move` and
`Gap.close` are the three outcomes of one step of the backward shift.
-/

namespace LinearProbe

/-! ## The ring -/

/-- The position after `i`. -/
def succ (n i : Nat) : Nat := if i + 1 = n then 0 else i + 1

/-- Steps forward from `a` to `b`. -/
def dist (n a b : Nat) : Nat := if a ≤ b then b - a else b + n - a

/-- The walk forward from `a` passes `q` before it arrives at `b`. -/
def OnWay (a q b : Nat) : Prop := (a ≤ q ∧ q < b) ∨ (b < a ∧ (a ≤ q ∨ q < b))

variable {n : Nat}

theorem succ_lt {i : Nat} (hi : i < n) : succ n i < n := by
  unfold succ; split <;> omega

theorem succ_eq_mod {i : Nat} (hi : i < n) : succ n i = (i + 1) % n := by
  unfold succ
  split
  · next last => rw [last, Nat.mod_self]
  · rw [Nat.mod_eq_of_lt (by omega)]

theorem dist_eq_mod {a b : Nat} (ha : a < n) (hb : b < n) : dist n a b = (b + n - a) % n := by
  unfold dist
  split
  · rw [show b + n - a = (b - a) + n by omega, Nat.add_mod_right, Nat.mod_eq_of_lt (by omega)]
  · rw [Nat.mod_eq_of_lt (by omega)]

theorem dist_lt {a b : Nat} (ha : a < n) (hb : b < n) : dist n a b < n := by
  unfold dist; split <;> omega

theorem dist_succ {a b : Nat} (ha : a < n) (hb : b < n) (ne : a ≠ b) : dist n (succ n a) b + 1 = dist n a b := by
  unfold dist succ; split <;> split <;> split <;> omega

theorem dist_eq_zero {a b : Nat} (ha : a < n) : dist n a b = 0 ↔ a = b := by
  unfold dist; split <;> omega

/-- The test a backward shift makes on ring distances: the home lies strictly
after the hole and not after `j` exactly when the walk from home to `j` avoids the hole. -/
theorem dist_le_iff {hole j home : Nat} (hh : hole < n) (hj : j < n) (hm : home < n) (ne : j ≠ hole) :
    dist n hole home ≤ dist n hole j ∧ dist n hole home ≠ 0 ↔ ¬ OnWay home hole j := by
  unfold dist OnWay; split <;> split <;> omega

/-- What the walk passes is nearer than where it ends. -/
theorem onWay_iff_dist {a q b : Nat} (ha : a < n) (hq : q < n) (hb : b < n) : OnWay a q b ↔ dist n a q < dist n a b := by
  unfold dist OnWay; split <;> split <;> omega

/-- The position a number of steps forward, and back to the number. -/
theorem add_dist_mod {a b : Nat} (ha : a < n) (hb : b < n) : (a + dist n a b) % n = b := by
  unfold dist
  split
  · rw [show a + (b - a) = b by omega, Nat.mod_eq_of_lt hb]
  · rw [show a + (b + n - a) = b + n by omega, Nat.add_mod_right, Nat.mod_eq_of_lt hb]

theorem dist_add_mod {a m : Nat} (ha : a < n) (hm : m < n) : dist n a ((a + m) % n) = m := by
  by_cases wraps : a + m < n
  · rw [Nat.mod_eq_of_lt wraps]
    unfold dist; split <;> omega
  · rw [Nat.mod_eq_sub_mod (by omega), Nat.mod_eq_of_lt (by omega)]
    unfold dist; split <;> omega

theorem onWay_succ {a q b : Nat} (ha : a < n) (hq : q < n) (ne : succ n b ≠ a) :
    OnWay a q (succ n b) ↔ OnWay a q b ∨ q = b := by
  unfold succ at ne ⊢
  unfold OnWay
  split at ne <;> split <;> omega

theorem not_onWay_self (a q : Nat) : ¬ OnWay a q a := by
  unfold OnWay; omega

/-- Walk forward from `i` to the first position where `stop` holds; `none` when
`fuel` steps do not reach one. -/
def seek (stop : Nat → Bool) (next : Nat → Nat) : Nat → Nat → Option Nat
  | 0, _ => none
  | fuel + 1, i => if stop i then some i else seek stop next fuel (next i)

/-- A walk that has somewhere to stop ends within one round, and has passed
only positions where it must go on. -/
theorem seek_spec (stop : Nat → Bool) {next : Nat → Nat} (step : ∀ i < n, next i = succ n i)
    {home e : Nat} (hhome : home < n) (he : e < n) (ends : stop e = true) :
    ∃ j < n, seek stop next n home = some j ∧ stop j = true ∧ ∀ q < n, OnWay home q j → stop q = false := by
  -- the invariant carried along the walk: nothing passed so far stops it, `e` is still ahead
  have walk : ∀ fuel i, i < n → dist n i e < fuel → (∀ q < n, OnWay home q i → stop q = false) →
      ∃ j < n, seek stop next fuel i = some j ∧ stop j = true ∧ ∀ q < n, OnWay home q j → stop q = false := by
    intro fuel
    induction fuel with
    | zero => intro i _ less; omega
    | succ fuel ih =>
      intro i hi less passed
      by_cases here : stop i = true
      · exact ⟨i, hi, by simp [seek, here], here, passed⟩
      · have ne : i ≠ e := fun eq => here (eq ▸ ends)
        have closer := dist_succ hi he ne
        have fresh : succ n i ≠ home := by
          intro back
          have : OnWay home e i ∨ e = i := by
            unfold OnWay
            unfold succ at back
            split at back <;> omega
          rcases this with onWay | eq
          · rw [passed e he onWay] at ends; cases ends
          · exact ne eq.symm
        have passed' : ∀ q < n, OnWay home q (succ n i) → stop q = false := by
          intro q hq onWay
          rcases (onWay_succ hhome hq fresh).mp onWay with before | rfl
          · exact passed q hq before
          · simpa using here
        obtain ⟨j, hj, found, rest⟩ := ih (succ n i) (succ_lt hi) (by omega) passed'
        exact ⟨j, hj, by simp [seek, here, step i hi, found], rest⟩
  exact walk n home hhome (dist_lt hhome he) (fun q _ onWay => (not_onWay_self home q onWay).elim)

/-! ## Linked rings -/

variable {κ ν : Type*} {home : κ → Nat}

/-- What each position holds. -/
abbrev Ring (κ ν : Type*) := Nat → Option (κ × ν)

/-- The pair is stored somewhere on the ring. -/
def Holds (n : Nat) (r : Ring κ ν) (k : κ) (v : ν) : Prop := ∃ p < n, r p = some (k, v)

/-- No probe chain is broken, and no key is stored twice. -/
structure Linked (n : Nat) (home : κ → Nat) (r : Ring κ ν) : Prop where
  chain : ∀ p < n, ∀ k v, r p = some (k, v) → ∀ q < n, OnWay (home k) q p → r q ≠ none
  distinct : ∀ p < n, ∀ q < n, ∀ k v w, r p = some (k, v) → r q = some (k, w) → p = q

/-- Where the probe for `k` stops: at `k` or at an empty position, having passed other keys only. -/
structure Stops (n : Nat) (home : κ → Nat) (r : Ring κ ν) (k : κ) (i : Nat) : Prop where
  bound : i < n
  here : r i = none ∨ ∃ v, r i = some (k, v)
  passed : ∀ q < n, OnWay (home k) q i → ∃ k' v, r q = some (k', v) ∧ k' ≠ k

/-- A probe that stops at an empty position proves the key absent. -/
theorem Stops.absent {r : Ring κ ν} {k : κ} {i : Nat} (linked : Linked n home r)
    (stops : Stops n home r k i) (empty : r i = none) : ∀ v, ¬ Holds n r k v := by
  rintro v ⟨p, hp, stored⟩
  have apart : p ≠ i := by rintro rfl; rw [empty] at stored; cases stored
  by_cases before : OnWay (home k) p i
  · obtain ⟨k', v', other, ne⟩ := stops.passed p hp before
    rw [stored] at other
    cases other
    exact ne rfl
  · have bound := stops.bound
    have onWay : OnWay (home k) i p := by unfold OnWay at before ⊢; omega
    exact linked.chain p hp k v stored i bound onWay empty

/-- A probe that stops at its key finds the only value stored under it. -/
theorem Stops.found {r : Ring κ ν} {k : κ} {i : Nat} {v : ν} (linked : Linked n home r)
    (stops : Stops n home r k i) (here : r i = some (k, v)) (w : ν) : Holds n r k w ↔ w = v := by
  constructor
  · rintro ⟨p, hp, stored⟩
    obtain rfl := linked.distinct p hp i stops.bound k w v stored here
    rw [here] at stored
    cases stored
    rfl
  · rintro rfl
    exact ⟨i, stops.bound, here⟩

/-- Storing a new key where its probe stopped keeps the ring linked. -/
theorem Linked.insert {r : Ring κ ν} {k : κ} {i : Nat} (linked : Linked n home r)
    (stops : Stops n home r k i) (empty : r i = none) (v : ν) :
    Linked n home (Function.update r i (some (k, v))) := by
  have absent := stops.absent linked empty
  constructor
  · intro p hp k' v' stored q hq onWay
    by_cases here : q = i
    · simp [here]
    · rw [Function.update_of_ne here]
      by_cases there : p = i
      · subst there
        simp only [Function.update_self, Option.some.injEq, Prod.mk.injEq] at stored
        obtain ⟨rfl, rfl⟩ := stored
        obtain ⟨_, _, occupied, _⟩ := stops.passed q hq onWay
        simp [occupied]
      · rw [Function.update_of_ne there] at stored
        exact linked.chain p hp k' v' stored q hq onWay
  · intro p hp q hq k' v' w' left right
    by_cases hpi : p = i <;> by_cases hqi : q = i
    · rw [hpi, hqi]
    · subst hpi
      rw [Function.update_of_ne hqi] at right
      simp only [Function.update_self, Option.some.injEq, Prod.mk.injEq] at left
      obtain ⟨rfl, rfl⟩ := left
      exact (absent w' ⟨q, hq, right⟩).elim
    · subst hqi
      rw [Function.update_of_ne hpi] at left
      simp only [Function.update_self, Option.some.injEq, Prod.mk.injEq] at right
      obtain ⟨rfl, rfl⟩ := right
      exact (absent v' ⟨p, hp, left⟩).elim
    · rw [Function.update_of_ne hpi] at left
      rw [Function.update_of_ne hqi] at right
      exact linked.distinct p hp q hq k' v' w' left right

/-- Writing a value over an empty position adds exactly that pair. -/
theorem holds_update {r : Ring κ ν} {i : Nat} (hi : i < n) (empty : r i = none) (k : κ) (v : ν) (k' : κ) (v' : ν) :
    Holds n (Function.update r i (some (k, v))) k' v' ↔ (k' = k ∧ v' = v) ∨ Holds n r k' v' := by
  constructor
  · rintro ⟨p, hp, stored⟩
    by_cases here : p = i
    · subst here
      simp only [Function.update_self, Option.some.injEq, Prod.mk.injEq] at stored
      exact Or.inl ⟨stored.1.symm, stored.2.symm⟩
    · rw [Function.update_of_ne here] at stored
      exact Or.inr ⟨p, hp, stored⟩
  · rintro (⟨rfl, rfl⟩ | ⟨p, hp, stored⟩)
    · exact ⟨i, hi, by simp⟩
    · have ne : p ≠ i := by rintro rfl; rw [empty] at stored; cases stored
      exact ⟨p, hp, by rw [Function.update_of_ne ne]; exact stored⟩

/-- Overwriting the value under a key keeps the ring linked. -/
theorem Linked.setValue {r : Ring κ ν} {k : κ} {i : Nat} {v : ν} (linked : Linked n home r)
    (here : r i = some (k, v)) (w : ν) : Linked n home (Function.update r i (some (k, w))) := by
  -- the same keys sit at the same positions
  have keys : ∀ p k' v', Function.update r i (some (k, w)) p = some (k', v') → ∃ v'', r p = some (k', v'') := by
    intro p k' v' stored
    by_cases eq : p = i
    · subst eq
      simp only [Function.update_self, Option.some.injEq, Prod.mk.injEq] at stored
      exact ⟨v, stored.1 ▸ here⟩
    · rw [Function.update_of_ne eq] at stored
      exact ⟨v', stored⟩
  constructor
  · intro p hp k' v' stored q hq onWay
    obtain ⟨v'', stored'⟩ := keys p k' v' stored
    have occupied := linked.chain p hp k' v'' stored' q hq onWay
    by_cases eq : q = i
    · simp [eq]
    · rw [Function.update_of_ne eq]; exact occupied
  · intro p hp q hq k' v' w' left right
    obtain ⟨v₁, left'⟩ := keys p k' v' left
    obtain ⟨v₂, right'⟩ := keys q k' w' right
    exact linked.distinct p hp q hq k' v₁ v₂ left' right'

/-- Overwriting the value under a key changes what is held under that key only. -/
theorem Linked.holds_setValue {r : Ring κ ν} {k : κ} {i : Nat} {v : ν} (linked : Linked n home r) (hi : i < n)
    (here : r i = some (k, v)) (w : ν) (k' : κ) (v' : ν) :
    Holds n (Function.update r i (some (k, w))) k' v' ↔
      (k' = k ∧ v' = w) ∨ (k' ≠ k ∧ Holds n r k' v') := by
  have linked' := linked.setValue here w
  by_cases eq : k' = k
  · subst eq
    simp only [true_and, ne_eq, not_true_eq_false, false_and, or_false]
    constructor
    · rintro ⟨p, hp, stored⟩
      obtain rfl := linked'.distinct p hp i hi k' v' w stored (by simp)
      simp only [Function.update_self, Option.some.injEq, Prod.mk.injEq, true_and] at stored
      exact stored.symm
    · rintro rfl
      exact ⟨i, hi, by simp⟩
  · simp only [eq, false_and, ne_eq, not_false_eq_true, true_and, false_or]
    constructor
    · rintro ⟨p, hp, stored⟩
      have ne : p ≠ i := by
        rintro rfl
        simp only [Function.update_self, Option.some.injEq, Prod.mk.injEq] at stored
        exact eq stored.1.symm
      rw [Function.update_of_ne ne] at stored
      exact ⟨p, hp, stored⟩
    · rintro ⟨p, hp, stored⟩
      have ne : p ≠ i := by
        rintro rfl
        rw [here] at stored
        simp only [Option.some.injEq, Prod.mk.injEq] at stored
        exact eq stored.1.symm
      exact ⟨p, hp, by rw [Function.update_of_ne ne]; exact stored⟩

/-! ## Deletion by backward shift -/

/-- A ring with a hole at `h`, in the middle of a backward shift whose next
position to look at is `c`: only the hole may break a chain, and it breaks no
chain of an entry between the hole and the cursor. -/
structure Gap (n : Nat) (home : κ → Nat) (r : Ring κ ν) (h c : Nat) : Prop where
  hole : r h = none
  chain : ∀ p < n, ∀ k v, r p = some (k, v) → ∀ q < n, OnWay (home k) q p → r q ≠ none ∨ q = h
  seen : ∀ p < n, ∀ k v, r p = some (k, v) → OnWay (home k) h p → ¬ OnWay (succ n h) p c
  distinct : ∀ p < n, ∀ q < n, ∀ k v w, r p = some (k, v) → r q = some (k, w) → p = q

/-- Emptying a position of a linked ring opens a gap there. -/
theorem Linked.gap {r : Ring κ ν} (linked : Linked n home r) (h : Nat) :
    Gap n home (Function.update r h none) h (succ n h) where
  hole := by simp
  chain := by
    intro p hp k v stored q hq onWay
    have ne : p ≠ h := by rintro rfl; simp at stored
    rw [Function.update_of_ne ne] at stored
    by_cases eq : q = h
    · exact Or.inr eq
    · rw [Function.update_of_ne eq]
      exact Or.inl (linked.chain p hp k v stored q hq onWay)
  seen := fun p _ k v _ _ => not_onWay_self _ p
  distinct := by
    intro p hp q hq k v w left right
    have nep : p ≠ h := by rintro rfl; simp at left
    have neq : q ≠ h := by rintro rfl; simp at right
    rw [Function.update_of_ne nep] at left
    rw [Function.update_of_ne neq] at right
    exact linked.distinct p hp q hq k v w left right

/-- The entry at the cursor does not need the hole: look further. -/
theorem Gap.keep {r : Ring κ ν} {h c : Nat} {k : κ} {v : ν} (gap : Gap n home r h c) (hh : h < n) (hc : c < n)
    (here : r c = some (k, v)) (stays : ¬ OnWay (home k) h c) : Gap n home r h (succ n c) where
  hole := gap.hole
  chain := gap.chain
  seen := by
    intro p hp k' v' stored onWay seen
    have ne : succ n c ≠ succ n h := by
      have : c ≠ h := by rintro rfl; rw [gap.hole] at here; cases here
      unfold succ; split <;> split <;> omega
    rcases (onWay_succ (succ_lt hh) hp ne).mp seen with before | rfl
    · exact gap.seen p hp k' v' stored onWay before
    · rw [here] at stored
      cases stored
      exact stays onWay
  distinct := gap.distinct

/-- The entry at the cursor needs the hole filled: move it there, the hole is now at the cursor. -/
theorem Gap.move {r : Ring κ ν} {h c : Nat} {k : κ} {v : ν} (gap : Gap n home r h c) (hh : h < n) (hc : c < n)
    (hhome : home k < n) (here : r c = some (k, v)) (moves : OnWay (home k) h c) :
    Gap n home (Function.update (Function.update r h (some (k, v))) c none) c (succ n c) := by
  have apart : c ≠ h := by rintro rfl; rw [gap.hole] at here; cases here
  -- an entry of the new ring is the moved one or an untouched one
  have entry : ∀ p k' v', Function.update (Function.update r h (some (k, v))) c none p = some (k', v') →
      p ≠ c ∧ ((p = h ∧ k' = k ∧ v' = v) ∨ (p ≠ h ∧ r p = some (k', v'))) := by
    intro p k' v' stored
    have nec : p ≠ c := by rintro rfl; simp at stored
    rw [Function.update_of_ne nec] at stored
    refine ⟨nec, ?_⟩
    by_cases eq : p = h
    · subst eq
      simp only [Function.update_self, Option.some.injEq, Prod.mk.injEq] at stored
      exact Or.inl ⟨rfl, stored.1.symm, stored.2.symm⟩
    · rw [Function.update_of_ne eq] at stored
      exact Or.inr ⟨eq, stored⟩
  have occupied : ∀ q, q ≠ c → (r q ≠ none ∨ q = h) →
      Function.update (Function.update r h (some (k, v))) c none q ≠ none := by
    intro q nec old
    rw [Function.update_of_ne nec]
    by_cases eq : q = h
    · simp [eq]
    · rw [Function.update_of_ne eq]
      exact old.resolve_right eq
  constructor
  · simp
  · intro p hp k' v' stored q hq onWay
    by_cases eq : q = c
    · exact Or.inr eq
    refine Or.inl (occupied q eq ?_)
    obtain ⟨_, ⟨rfl, rfl, rfl⟩ | ⟨_, stored⟩⟩ := entry p k' v' stored
    · -- the moved entry: its way to the hole is the first part of its old way
      exact gap.chain c hc k' v' here q hq (by unfold OnWay at *; omega)
    · exact gap.chain p hp k' v' stored q hq onWay
  · exact fun p _ _ _ _ _ => not_onWay_self _ p
  · intro p hp q hq k' v' w left right
    obtain ⟨nep, hp'⟩ := entry p k' v' left
    obtain ⟨neq, hq'⟩ := entry q k' w right
    rcases hp' with ⟨eqp, eqk, _⟩ | ⟨_, stored⟩ <;> rcases hq' with ⟨eqq, eqk', _⟩ | ⟨_, stored'⟩
    · rw [eqp, eqq]
    · exact (neq (gap.distinct q hq c hc k' w v stored' (eqk ▸ here))).elim
    · exact (nep (gap.distinct p hp c hc k' v' v stored (eqk' ▸ here))).elim
    · exact gap.distinct p hp q hq k' v' w stored stored'

/-- Moving an entry into the hole changes nothing about what the ring holds. -/
theorem Gap.holds_move {r : Ring κ ν} {h c : Nat} {k : κ} {v : ν} (gap : Gap n home r h c) (hh : h < n)
    (hc : c < n) (here : r c = some (k, v)) (k' : κ) (v' : ν) :
    Holds n (Function.update (Function.update r h (some (k, v))) c none) k' v' ↔ Holds n r k' v' := by
  have apart : h ≠ c := by rintro rfl; rw [gap.hole] at here; cases here
  constructor
  · rintro ⟨p, hp, stored⟩
    have nec : p ≠ c := by rintro rfl; simp at stored
    rw [Function.update_of_ne nec] at stored
    by_cases eq : p = h
    · subst eq
      simp only [Function.update_self] at stored
      exact ⟨c, hc, by rw [here, stored]⟩
    · rw [Function.update_of_ne eq] at stored
      exact ⟨p, hp, stored⟩
  · rintro ⟨p, hp, stored⟩
    by_cases eq : p = c
    · subst eq
      exact ⟨h, hh, by rw [Function.update_of_ne apart, Function.update_self, ← here, stored]⟩
    · have neh : p ≠ h := by rintro rfl; rw [gap.hole] at stored; cases stored
      exact ⟨p, hp, by rw [Function.update_of_ne eq, Function.update_of_ne neh]; exact stored⟩

/-- The cursor reached an empty position: no chain needs the hole any more. -/
theorem Gap.close {r : Ring κ ν} {h c : Nat} (gap : Gap n home r h c) (hhome : ∀ k, home k < n) (hh : h < n)
    (hc : c < n) (ne : c ≠ h) (empty : r c = none) : Linked n home r where
  chain := by
    intro p hp k v stored q hq onWay
    rcases gap.chain p hp k v stored q hq onWay with occupied | rfl
    · exact occupied
    · -- an entry beyond the hole lies beyond the cursor too, so its way crosses the cursor
      have beyond := gap.seen p hp k v stored onWay
      have apart : p ≠ c := by rintro rfl; rw [empty] at stored; cases stored
      have apart' : p ≠ q := by rintro rfl; exact absurd gap.hole (by simp [stored])
      have hm := hhome k
      have crosses : OnWay (home k) c p := by
        unfold succ at beyond
        unfold OnWay at *
        split at beyond <;> omega
      rcases gap.chain p hp k v stored c hc crosses with occupied | eq
      · exact absurd empty occupied
      · exact absurd eq ne
  distinct := gap.distinct

/-- Emptying the position of a key forgets exactly that key. -/
theorem Linked.holds_erase {r : Ring κ ν} {k : κ} {v : ν} {h : Nat} (linked : Linked n home r) (hh : h < n)
    (here : r h = some (k, v)) (k' : κ) (v' : ν) :
    Holds n (Function.update r h none) k' v' ↔ k' ≠ k ∧ Holds n r k' v' := by
  constructor
  · rintro ⟨p, hp, stored⟩
    have ne : p ≠ h := by rintro rfl; simp at stored
    rw [Function.update_of_ne ne] at stored
    refine ⟨?_, p, hp, stored⟩
    rintro rfl
    exact ne (linked.distinct p hp h hh k' v' v stored here)
  · rintro ⟨ne, p, hp, stored⟩
    have nep : p ≠ h := by
      rintro rfl
      rw [here] at stored
      cases stored
      exact ne rfl
    exact ⟨p, hp, by rw [Function.update_of_ne nep]; exact stored⟩

end LinearProbe
