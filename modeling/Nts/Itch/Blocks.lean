import Nts.Itch.Framing
import Nts.Lib.Runs

/-!
# The grammar of framed streams

A block is a message of 1 to 65535 bytes behind its length. `parse` cuts a
buffer into its leading blocks and what is left; the framer's walk is `parse`,
and reads nothing outside its buffer.
-/

namespace Nts.Itch
open Reading

abbrev Byte := BitVec 8

/-- The two bytes of a length prefix. -/
def lengthBytes (n : Nat) : List Byte := [.ofNat 8 (n / 256), .ofNat 8 n]

/-- A message behind its length. -/
def block (m : List Byte) : List Byte := lengthBytes m.length ++ m

/-- A message that can be framed. -/
def Framed (m : List Byte) : Prop := 1 ≤ m.length ∧ m.length ≤ 65535

instance (m : List Byte) : Decidable (Framed m) := inferInstanceAs (Decidable (_ ∧ _))

theorem bigEndian_lengthBytes {n : Nat} (fits : n ≤ 65535) : bigEndian (lengthBytes n) = n := by
  simp only [bigEndian, lengthBytes, List.foldl_cons, List.foldl_nil, BitVec.toNat_ofNat]
  omega

theorem lengthBytes_bigEndian (hi lo : Byte) : lengthBytes (bigEndian [hi, lo]) = [hi, lo] := by
  have hiLt := hi.isLt
  have loLt := lo.isLt
  simp only [bigEndian, lengthBytes, List.foldl_cons, List.foldl_nil, List.cons.injEq, and_true, ← BitVec.toNat_inj,
    BitVec.toNat_ofNat]
  omega

theorem length_block (m : List Byte) : (block m).length = 2 + m.length := by
  simp only [block, lengthBytes, List.length_append, List.length_cons, List.length_nil]

/-- The first block of some bytes, if they start with a complete one, and the rest. -/
def splitBlock : List Byte → Option (List Byte × List Byte)
  | hi :: lo :: rest =>
    if bigEndian [hi, lo] = 0 ∨ rest.length < bigEndian [hi, lo] then none
    else some (rest.take (bigEndian [hi, lo]), rest.drop (bigEndian [hi, lo]))
  | _ => none

theorem splitBlock_eq_some {bytes m rest : List Byte} :
    splitBlock bytes = some (m, rest) ↔ bytes = block m ++ rest ∧ Framed m := by
  constructor
  · intro split
    match bytes with
    | [] => cases split
    | [_] => cases split
    | hi :: lo :: tail =>
      have small := bigEndian_lt [hi, lo]
      simp only [splitBlock] at split
      split at split
      · cases split
      · next complete =>
        obtain ⟨rfl, rfl⟩ := Prod.mk.inj (Option.some.inj split)
        have size : (tail.take (bigEndian [hi, lo])).length = bigEndian [hi, lo] := by
          rw [List.length_take]
          omega
        refine ⟨?_, ?_⟩
        · rw [block, size, lengthBytes_bigEndian, List.append_assoc, List.take_append_drop]
          rfl
        · rw [Framed, size]
          simp only [List.length_cons, List.length_nil] at small
          omega
  · rintro ⟨rfl, least, most⟩
    have size := bigEndian_lengthBytes most
    simp only [lengthBytes] at size
    simp only [block, lengthBytes, List.cons_append, List.nil_append, splitBlock, size, List.length_append]
    rw [if_neg (by omega), List.take_left', List.drop_left'] <;> rfl

theorem splitBlock_shorter {bytes m rest : List Byte} (split : splitBlock bytes = some (m, rest)) :
    rest.length < bytes.length := by
  obtain ⟨rfl, _⟩ := splitBlock_eq_some.mp split
  rw [List.length_append, length_block]
  omega

/-- The leading blocks of some bytes and what is left behind them. -/
def parse (bytes : List Byte) : List (List Byte) × List Byte :=
  match split : splitBlock bytes with
  | none => ([], bytes)
  | some (m, rest) =>
    have := splitBlock_shorter split
    (m :: (parse rest).1, (parse rest).2)
termination_by bytes.length

theorem parse_none {bytes : List Byte} (split : splitBlock bytes = none) : parse bytes = ([], bytes) := by
  rw [parse]
  split
  · rfl
  · next other => rw [split] at other; cases other

theorem parse_some {bytes m rest : List Byte} (split : splitBlock bytes = some (m, rest)) :
    parse bytes = (m :: (parse rest).1, (parse rest).2) := by
  rw [parse]
  split
  · next other => rw [split] at other; cases other
  · next other =>
    rw [split] at other
    cases other
    rfl

/-- Cutting loses nothing, every piece is a block, and no complete block is left. -/
theorem parse_spec (bytes : List Byte) : (parse bytes).1.flatMap block ++ (parse bytes).2 = bytes ∧
    (∀ m ∈ (parse bytes).1, Framed m) ∧ splitBlock (parse bytes).2 = none := by
  induction length : bytes.length using Nat.strongRecOn generalizing bytes with
  | ind n ih =>
    cases split : splitBlock bytes with
    | none =>
      rw [parse_none split]
      exact ⟨rfl, fun _ member => (List.not_mem_nil member).elim, split⟩
    | some pair =>
      obtain ⟨m, rest⟩ := pair
      have shorter := splitBlock_shorter split
      obtain ⟨whole, sized, stuck⟩ := ih rest.length (by omega) rest rfl
      obtain ⟨rfl, framed⟩ := splitBlock_eq_some.mp split
      rw [parse_some split]
      refine ⟨?_, ?_, stuck⟩
      · rw [List.flatMap_cons, List.append_assoc, whole]
      · intro m' member
        rcases List.mem_cons.mp member with rfl | later
        · exact framed
        · exact sized m' later

/-- Messages that are framed one after the other come back, in front of whatever follows. -/
theorem parse_flatMap {ms : List (List Byte)} (framed : ∀ m ∈ ms, Framed m) (rest : List Byte) :
    parse (ms.flatMap block ++ rest) = (ms ++ (parse rest).1, (parse rest).2) := by
  induction ms with
  | nil => rfl
  | cons m ms ih =>
    have split : splitBlock ((m :: ms).flatMap block ++ rest) = some (m, ms.flatMap block ++ rest) := by
      rw [splitBlock_eq_some, List.flatMap_cons, List.append_assoc]
      exact ⟨rfl, framed m List.mem_cons_self⟩
    rw [parse_some split, ih fun m' later => framed m' (List.mem_cons_of_mem _ later)]
    rfl

/-- The parse of a concatenation of blocks. -/
theorem parse_blocks {ms : List (List Byte)} (framed : ∀ m ∈ ms, Framed m) : parse (ms.flatMap block) = (ms, []) := by
  have whole := parse_flatMap framed []
  rwa [List.append_nil, parse_none (show splitBlock [] = none from rfl), List.append_nil] at whole

/-! ## The walk -/

/-- The states a loop runs its body in, each with its view. -/
def visits {σ : Type} (step : σ → MessageView → σ) : σ → List MessageView → List (σ × MessageView)
  | _, [] => []
  | s, mv :: mvs => (s, mv) :: visits step (step s mv) mvs

theorem mem_of_visits {σ : Type} {step : σ → MessageView → σ} {s : σ} {mvs : List MessageView} {v : σ × MessageView}
    (visited : v ∈ visits step s mvs) : v.2 ∈ mvs := by
  induction mvs generalizing s with
  | nil => cases visited
  | cons mv mvs ih =>
    rcases List.mem_cons.mp visited with rfl | later
    · exact List.mem_cons_self
    · exact List.mem_cons_of_mem _ (ih later)

/-- The views of blocks laid out from `p` on. -/
def viewsFrom (p : Nat) : List (List Byte) → List MessageView
  | [] => []
  | m :: ms => ⟨p + 2, m.length⟩ :: viewsFrom (p + 2 + m.length) ms

/-- The bytes of a view. -/
def MessageView.bytes (mem : Memory) (mv : MessageView) : List Byte := bytesAt mem mv.data mv.size

/-- The views of the blocks in memory show their messages. -/
theorem viewsFrom_bytes {mem : Memory} {p n : Nat} {ms : List (List Byte)} {rest : List Byte}
    (here : bytesAt mem p n = ms.flatMap block ++ rest) : (viewsFrom p ms).map (MessageView.bytes mem) = ms := by
  induction ms generalizing p n with
  | nil => rfl
  | cons m ms ih =>
    have total := congrArg List.length here
    simp only [length_bytesAt, List.flatMap_cons, List.length_append, length_block] at total
    obtain ⟨k, rfl⟩ : ∃ k, n = 2 + (m.length + k) := ⟨n - 2 - m.length, by omega⟩
    rw [bytesAt_add, bytesAt_add, List.flatMap_cons, block, List.append_assoc, List.append_assoc] at here
    obtain ⟨_, here⟩ := List.append_inj here (by simp [lengthBytes])
    obtain ⟨first, here⟩ := List.append_inj here (by simp)
    rw [viewsFrom, List.map_cons, MessageView.bytes, first, ih here]

/-- They lie inside the bytes they were parsed from, one behind the other. -/
theorem viewsFrom_inside {p : Nat} {ms : List (List Byte)} {mv : MessageView} (member : mv ∈ viewsFrom p ms) :
    p + 2 ≤ mv.data ∧ mv.data + mv.size ≤ p + (ms.flatMap block).length := by
  induction ms generalizing p with
  | nil => cases member
  | cons m ms ih =>
    rw [List.flatMap_cons, List.length_append, length_block]
    rcases List.mem_cons.mp member with rfl | later
    · dsimp only
      omega
    · have := ih later
      omega

/-- Every view shows a message of a block. -/
theorem size_of_viewsFrom {p : Nat} {ms : List (List Byte)} (framed : ∀ m ∈ ms, Framed m) {mv : MessageView}
    (member : mv ∈ viewsFrom p ms) : 1 ≤ mv.size ∧ mv.size ≤ 65535 := by
  induction ms generalizing p with
  | nil => cases member
  | cons m ms ih =>
    rcases List.mem_cons.mp member with rfl | later
    · exact framed m List.mem_cons_self
    · exact ih (fun m' inside => framed m' (List.mem_cons_of_mem _ inside)) later

namespace Framer
variable {mem : Memory} {f : Framer}

/-- The bytes a framer has not walked over yet. -/
def rest (mem : Memory) (f : Framer) : List Byte := bytesAt mem (f.data + f.pos) (f.size - f.pos)

/-- `next` reads the prefix only, inside the buffer. -/
theorem within_next (mem : Memory) (f : Framer) : Within mem f.next f.data f.size := by
  unfold next
  split
  · exact within_pure mem _
  · simp only [within_bind]
    refine ⟨(within_be16 _).mpr (by omega), ?_⟩
    split
    · exact within_pure mem _
    · split <;> exact within_pure mem _

/-- `next` splits off the first block. -/
theorem next_value (mem : Memory) (f : Framer) : f.next.value mem =
    match splitBlock (f.rest mem) with
    | none => (none, f)
    | some (m, _) => (some ⟨f.data + f.pos + 2, m.length⟩, { f with pos := f.pos + (2 + m.length) }) := by
  unfold next rest
  by_cases short : f.size - f.pos < 2
  · rw [if_pos short]
    have split : splitBlock (bytesAt mem (f.data + f.pos) (f.size - f.pos)) = none := by
      have length := length_bytesAt mem (f.data + f.pos) (f.size - f.pos)
      match bytesAt mem (f.data + f.pos) (f.size - f.pos), length with
      | [], _ => rfl
      | [_], _ => rfl
      | _ :: _ :: _, length =>
        simp only [List.length_cons] at length
        omega
    rw [split]
    rfl
  · rw [if_neg short]
    obtain ⟨n, long⟩ : ∃ n, f.size - f.pos = 2 + n := ⟨f.size - f.pos - 2, by omega⟩
    have value := value_be16 mem (f.data + f.pos)
    have layout : bytesAt mem (f.data + f.pos) (2 + n) =
        mem (f.data + f.pos) :: mem (f.data + f.pos + 1) :: bytesAt mem (f.data + f.pos + 2) n := by
      rw [bytesAt_add, bytesAt_succ, bytesAt_succ]
      rfl
    have two : bytesAt mem (f.data + f.pos) 2 = [mem (f.data + f.pos), mem (f.data + f.pos + 1)] := by
      rw [bytesAt_succ, bytesAt_succ]
      rfl
    rw [two] at value
    rw [long, layout, Nat.add_sub_cancel_left]
    simp only [value_bind, splitBlock, length_bytesAt, ← value]
    have zero : (be16 (f.data + f.pos)).value mem = 0#16 ↔ ((be16 (f.data + f.pos)).value mem).toNat = 0 := by
      rw [← BitVec.toNat_inj]
      rfl
    by_cases empty : (be16 (f.data + f.pos)).value mem = 0#16
    · rw [if_pos empty, if_pos (Or.inl (zero.mp empty))]
      rfl
    · by_cases beyond : n < ((be16 (f.data + f.pos)).value mem).toNat
      · rw [if_neg empty, if_pos beyond, if_pos (Or.inr beyond)]
        rfl
      · rw [if_neg empty, if_neg beyond, if_neg (not_or.mpr ⟨mt zero.mpr empty, beyond⟩)]
        have size : ((bytesAt mem (f.data + f.pos + 2) n).take ((be16 (f.data + f.pos)).value mem).toNat).length =
            ((be16 (f.data + f.pos)).value mem).toNat := by
          rw [List.length_take, length_bytesAt]
          omega
        dsimp only
        rw [size]
        rfl

/-- What is left after a block was split off. -/
theorem rest_next {m rest : List Byte} (inside : f.pos ≤ f.size) (split : splitBlock (f.rest mem) = some (m, rest)) :
    f.pos + (2 + m.length) ≤ f.size ∧ Framer.rest mem { f with pos := f.pos + (2 + m.length) } = rest := by
  obtain ⟨whole, _⟩ := splitBlock_eq_some.mp split
  have total := congrArg List.length whole
  rw [Framer.rest, length_bytesAt, List.length_append, length_block] at total
  refine ⟨by omega, ?_⟩
  rw [Framer.rest, show f.size - f.pos = (2 + m.length) + rest.length by omega, bytesAt_add] at whole
  obtain ⟨_, tail⟩ := List.append_inj whole (by simp [length_block])
  rw [Framer.rest, show f.data + (f.pos + (2 + m.length)) = f.data + f.pos + (2 + m.length) by omega,
    show f.size - (f.pos + (2 + m.length)) = rest.length by omega]
  exact tail

/-- **The walk is the parse.** With fuel for every byte left, the loop runs its
body on the views of exactly the leading blocks and stops behind the last. -/
theorem forEach_value {σ : Type} (body : σ → MessageView → Reading σ) {fuel : Nat} (s : σ) (inside : f.pos ≤ f.size)
    (enough : (f.rest mem).length < fuel) : (forEach body fuel f s).value mem =
      ((viewsFrom (f.data + f.pos) (parse (f.rest mem)).1).foldl (fun s mv => (body s mv).value mem) s,
        { f with pos := f.size - (parse (f.rest mem)).2.length }) := by
  induction fuel generalizing f s with
  | zero => omega
  | succ fuel ih =>
    simp only [forEach, value_bind, next_value]
    cases split : splitBlock (f.rest mem) with
    | none =>
      rw [parse_none split]
      have length : f.size - (f.rest mem).length = f.pos := by
        rw [Framer.rest, length_bytesAt]
        omega
      simp only [length]
      rfl
    | some pair =>
      obtain ⟨m, rest⟩ := pair
      obtain ⟨inside', left⟩ := rest_next inside split
      have shorter := splitBlock_shorter split
      simp only [value_bind]
      rw [ih _ inside' (by rw [left]; omega), left, parse_some split]
      simp only [viewsFrom, List.foldl_cons]
      rw [show f.data + (f.pos + (2 + m.length)) = f.data + f.pos + 2 + m.length by omega]

/-- A loop with a `break` runs its body on the views of the leading blocks, to the `break` or to the last. -/
theorem forEachUntil_value {σ : Type} (body : σ → MessageView → Reading (σ × Bool)) {fuel : Nat} (s : σ)
    (inside : f.pos ≤ f.size) (enough : (f.rest mem).length < fuel) :
    (((forEachUntil body fuel f s).value mem).1, ((forEachUntil body fuel f s).value mem).2.2) =
        Runs.afterUntil (fun s mv => (body s mv).value mem) s (viewsFrom (f.data + f.pos) (parse (f.rest mem)).1) ∧
      (((forEachUntil body fuel f s).value mem).2.2 = false →
        ((forEachUntil body fuel f s).value mem).2.1 = { f with pos := f.size - (parse (f.rest mem)).2.length }) := by
  induction fuel generalizing f s with
  | zero => omega
  | succ fuel ih =>
    simp only [forEachUntil, value_bind, next_value]
    cases split : splitBlock (f.rest mem) with
    | none =>
      rw [parse_none split]
      have length : f.size - (f.rest mem).length = f.pos := by
        rw [Framer.rest, length_bytesAt]
        omega
      refine ⟨rfl, fun _ => ?_⟩
      rw [length]
      rfl
    | some pair =>
      obtain ⟨m, rest⟩ := pair
      obtain ⟨inside', left⟩ := rest_next inside split
      have shorter := splitBlock_shorter split
      simp only [value_bind]
      rw [parse_some split, viewsFrom, Runs.afterUntil]
      by_cases ends : ((body s ⟨f.data + f.pos + 2, m.length⟩).value mem).2 = true
      · rw [if_pos ends, if_pos ends]
        exact ⟨rfl, fun other => by cases other⟩
      · rw [if_neg ends, if_neg ends]
        obtain ⟨states, position⟩ := ih (f := { f with pos := f.pos + (2 + m.length) })
          ((body s ⟨f.data + f.pos + 2, m.length⟩).value mem).1 inside' (by rw [left]; omega)
        rw [left] at states position
        dsimp only at states position
        rw [show f.data + (f.pos + (2 + m.length)) = f.data + f.pos + 2 + m.length by omega] at states
        exact ⟨states, position⟩

theorem walk_value {σ : Type} (body : σ → MessageView → Reading σ) (s : σ) (start : f.pos = 0) :
    (f.walk body s).value mem = ((viewsFrom f.data (parse (bytesAt mem f.data f.size)).1).foldl
      (fun s mv => (body s mv).value mem) s, { f with pos := f.size - (parse (bytesAt mem f.data f.size)).2.length }) := by
  have all : f.rest mem = bytesAt mem f.data f.size := by
    rw [Framer.rest, start]
    rfl
  rw [walk, forEach_value body s (by omega) (by rw [all, length_bytesAt]; omega), all, start]
  rfl

/-- The views handed out are those of the leading blocks. -/
theorem handedOut_eq (start : f.pos = 0) : f.handedOut mem = viewsFrom f.data (parse (bytesAt mem f.data f.size)).1 := by
  rw [handedOut, walk_value _ _ start]
  have collect : ∀ mvs acc : List MessageView, mvs.foldl (fun acc mv => acc ++ [mv]) acc = acc ++ mvs := by
    intro mvs
    induction mvs with
    | nil => simp
    | cons mv mvs ih => simp [ih]
  exact collect _ []

variable (mem) in
theorem walkUntil_value {σ : Type} (body : σ → MessageView → Reading (σ × Bool)) (s : σ) (start : f.pos = 0) :
    (((f.walkUntil body s).value mem).1, ((f.walkUntil body s).value mem).2.2) =
        Runs.afterUntil (fun s mv => (body s mv).value mem) s (f.handedOut mem) ∧
      (((f.walkUntil body s).value mem).2.2 = false →
        ((f.walkUntil body s).value mem).2.1 = { f with pos := f.size - (parse (bytesAt mem f.data f.size)).2.length }) := by
  have all : f.rest mem = bytesAt mem f.data f.size := by
    rw [Framer.rest, start]
    rfl
  have enough : (f.rest mem).length < f.size + 1 := by
    rw [all, length_bytesAt]
    omega
  obtain ⟨states, position⟩ := forEachUntil_value body s (by omega : f.pos ≤ f.size) enough
  rw [all, start] at states
  rw [all] at position
  rw [handedOut_eq start]
  exact ⟨states, position⟩

/-- The loop stays inside the buffer when its body does, on every view it is run on. -/
theorem forEach_within {σ : Type} {body : σ → MessageView → Reading σ} {fuel : Nat} {s : σ} (inside : f.pos ≤ f.size)
    (bodies : ∀ v ∈ visits (fun s mv => (body s mv).value mem) s (viewsFrom (f.data + f.pos) (parse (f.rest mem)).1),
      Within mem (body v.1 v.2) f.data f.size) : Within mem (forEach body fuel f s) f.data f.size := by
  induction fuel generalizing f s with
  | zero => exact within_pure mem _
  | succ fuel ih =>
    simp only [forEach, within_bind, next_value]
    refine ⟨within_next mem f, ?_⟩
    cases split : splitBlock (f.rest mem) with
    | none => exact within_pure mem _
    | some pair =>
      obtain ⟨m, rest⟩ := pair
      obtain ⟨inside', left⟩ := rest_next inside split
      rw [parse_some split] at bodies
      simp only [viewsFrom, visits, List.mem_cons, forall_eq_or_imp] at bodies
      obtain ⟨here, later⟩ := bodies
      simp only [within_bind]
      refine ⟨here, ih (f := { f with pos := f.pos + (2 + m.length) }) inside' ?_⟩
      rw [left]
      dsimp only
      rwa [show f.data + (f.pos + (2 + m.length)) = f.data + f.pos + 2 + m.length by omega]

/-- The walk has consumed the buffer exactly when nothing is left of the parse. -/
theorem walk_exhausted {σ : Type} (body : σ → MessageView → Reading σ) (s : σ) (start : f.pos = 0) :
    ((f.walk body s).value mem).2.exhausted = true ↔ (parse (bytesAt mem f.data f.size)).2 = [] := by
  have whole := congrArg List.length (parse_spec (bytesAt mem f.data f.size)).1
  rw [List.length_append, length_bytesAt] at whole
  rw [walk_value body s start, exhausted, beq_iff_eq, ← List.length_eq_zero_iff]
  dsimp only
  omega

end Framer
end Nts.Itch
