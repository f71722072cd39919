import Nts.Itch.Blocks

/-!
# What the framer accepts

`next` called again and again cuts a buffer into its leading blocks, and refuses from
then on. `afterCalls` follows single calls, so that what holds between two of them can be
said; `nextWord` is `next` in the words of the source, whose sums and differences could wrap.
-/

namespace Nts.Itch.Framer
open Reading

/-- The framer after `n` calls of `next`. -/
def afterCalls (mem : Memory) (f : Framer) : Nat → Framer
  | 0 => f
  | n + 1 => afterCalls mem (f.next.value mem).2 n

/-- What the call behind `n` others answers; `none` is `false`. -/
def answerTo (mem : Memory) (f : Framer) (n : Nat) : Option MessageView := ((f.afterCalls mem n).next.value mem).1

/-- `next` with the `size_t` arithmetic of the source. -/
def nextWord (data : Nat) (size pos : BitVec 64) : Reading (Option MessageView × BitVec 64) :=
  if size - pos < 2#64 then pure (none, pos)
  else do
    let msgLen ← be16 (data + pos.toNat)
    if msgLen = 0#16 then pure (none, pos)
    else if size - pos - 2#64 < msgLen.setWidth 64 then pure (none, pos)
    else pure (some ⟨data + pos.toNat + 2, msgLen.toNat⟩, pos + (2#64 + msgLen.setWidth 64))

section
variable {mem : Memory} {f : Framer}

/-- Up to the end of a buffer no sum and no difference of `next` wraps. -/
theorem nextWord_value (mem : Memory) (data : Nat) {size pos : BitVec 64} (inside : pos ≤ size) :
    (nextWord data size pos).value mem =
      ((Framer.next ⟨data, size.toNat, pos.toNat⟩).value mem |>.1,
        .ofNat 64 ((Framer.next ⟨data, size.toNat, pos.toNat⟩).value mem).2.pos) := by
  have same : BitVec.ofNat 64 pos.toNat = pos := by rw [BitVec.ofNat_toNat, BitVec.setWidth_eq]
  have left : (size - pos).toNat = size.toNat - pos.toNat := BitVec.toNat_sub_of_le inside
  have short : size - pos < 2#64 ↔ size.toNat - pos.toNat < 2 := by
    rw [BitVec.lt_def, left]
    rfl
  unfold nextWord Framer.next
  by_cases tooShort : size.toNat - pos.toNat < 2
  · rw [if_pos (short.mpr tooShort), if_pos tooShort]
    simp only [value_pure, same]
  · rw [if_neg (mt short.mp tooShort), if_neg tooShort]
    simp only [value_bind]
    generalize (be16 (data + pos.toNat)).value mem = msgLen
    have narrow := msgLen.isLt
    have wide := size.isLt
    have fits : (size - pos - 2#64 < msgLen.setWidth 64) ↔ size.toNat - pos.toNat - 2 < msgLen.toNat := by
      rw [BitVec.lt_def, BitVec.toNat_sub_of_le (by rw [BitVec.le_def, left, BitVec.toNat_ofNat]; omega), left,
        BitVec.toNat_setWidth, BitVec.toNat_ofNat]
      omega
    by_cases zero : msgLen = 0#16
    · rw [if_pos zero, if_pos zero]
      simp only [value_pure, same]
    · rw [if_neg zero, if_neg zero]
      by_cases beyond : size.toNat - pos.toNat - 2 < msgLen.toNat
      · rw [if_pos (fits.mpr beyond), if_pos beyond]
        simp only [value_pure, same]
      · rw [if_neg (mt fits.mp beyond), if_neg beyond]
        simp only [value_pure]
        congr 1
        apply BitVec.eq_of_toNat_eq
        simp only [BitVec.toNat_add, BitVec.toNat_setWidth, BitVec.toNat_ofNat]
        omega

/-! ## Call by call -/

/-- What `n` calls leave: the framer of the same buffer in front of the blocks that were not handed out. -/
theorem afterCalls_spec (inside : f.pos ≤ f.size) (n : Nat) :
    (f.afterCalls mem n).data = f.data ∧ (f.afterCalls mem n).size = f.size ∧ (f.afterCalls mem n).pos ≤ f.size ∧
      (f.afterCalls mem n).rest mem = ((parse (f.rest mem)).1.drop n).flatMap block ++ (parse (f.rest mem)).2 ∧
      f.answerTo mem n = (viewsFrom (f.data + f.pos) (parse (f.rest mem)).1)[n]? := by
  induction n generalizing f with
  | zero =>
    refine ⟨rfl, rfl, inside, ?_, ?_⟩
    · rw [afterCalls, List.drop_zero, (parse_spec _).1]
    · rw [answerTo, afterCalls, next_value]
      cases split : splitBlock (f.rest mem) with
      | none => rw [parse_none split]; rfl
      | some pair => rw [parse_some split]; rfl
  | succ n ih =>
    have step : f.answerTo mem (n + 1) = (f.next.value mem).2.answerTo mem n := rfl
    rw [step, afterCalls, next_value]
    cases split : splitBlock (f.rest mem) with
    | none =>
      -- a refused call changes nothing, so the next one is refused as well
      obtain ⟨data, size, bound, rest, answer⟩ := ih inside
      rw [parse_none split] at rest answer ⊢
      exact ⟨data, size, bound, by rw [rest, List.drop_nil, List.drop_nil], answer⟩
    | some pair =>
      obtain ⟨m, rest⟩ := pair
      obtain ⟨inside', left⟩ := rest_next inside split
      obtain ⟨data, size, bound, rest', answer⟩ := ih (f := { f with pos := f.pos + (2 + m.length) }) inside'
      rw [left] at rest' answer
      rw [parse_some split]
      refine ⟨data, size, bound, rest', ?_⟩
      dsimp only at answer ⊢
      rw [answer, show f.data + (f.pos + (2 + m.length)) = f.data + f.pos + 2 + m.length by omega]
      rfl

end

/-- The calls of `next` on a buffer are the parse of its bytes: `views` are handed out, in order, and nothing
afterwards. -/
structure WalksGrammar (mem : Memory) (data : Nat) (size : BitVec 64) (views : List MessageView) : Prop where
  /-- Call by call, the views and then `false` for good. -/
  answers : ∀ n, answerTo mem ⟨data, size.toNat, 0⟩ n = views[n]?
  /-- Each view is non-empty and inside the buffer. -/
  inside : ∀ mv ∈ views, 1 ≤ mv.size ∧ data ≤ mv.data ∧ mv.data + mv.size ≤ data + size.toNat
  /-- The bytes before `offset()` are the views behind their lengths. -/
  consumed : bytesAt mem data (afterCalls mem ⟨data, size.toNat, 0⟩ views.length).offset =
    (views.map (MessageView.bytes mem)).flatMap block
  /-- No complete non-empty block starts at `offset()`. -/
  maximal : ∀ m rest, Framed m → bytesAt mem (data + (afterCalls mem ⟨data, size.toNat, 0⟩ views.length).offset)
    (size.toNat - (afterCalls mem ⟨data, size.toNat, 0⟩ views.length).offset) ≠ block m ++ rest
  /-- Between any two calls `pos_` is inside the buffer and the arithmetic of the next call does not wrap. -/
  bounded : ∀ n, (afterCalls mem ⟨data, size.toNat, 0⟩ n).pos ≤ size.toNat ∧
    (nextWord data size (.ofNat 64 (afterCalls mem ⟨data, size.toNat, 0⟩ n).pos)).value mem =
      (answerTo mem ⟨data, size.toNat, 0⟩ n, .ofNat 64 (afterCalls mem ⟨data, size.toNat, 0⟩ (n + 1)).pos)
  /-- `exhausted()` behind the walk: the buffer is blocks and nothing else. -/
  exhausted : (afterCalls mem ⟨data, size.toNat, 0⟩ views.length).exhausted = true ↔
    ∃ ms : List (List Byte), (∀ m ∈ ms, Framed m) ∧ bytesAt mem data size.toNat = ms.flatMap block
  /-- Encoded messages come back. -/
  decodes : ∀ ms : List (List Byte), (∀ m ∈ ms, Framed m) → bytesAt mem data size.toNat = ms.flatMap block →
    views.map (MessageView.bytes mem) = ms ∧
      (afterCalls mem ⟨data, size.toNat, 0⟩ views.length).exhausted = true

/-- `afterCalls` from either end. -/
theorem afterCalls_succ (mem : Memory) (f : Framer) (n : Nat) :
    f.afterCalls mem (n + 1) = ((f.afterCalls mem n).next.value mem).2 := by
  induction n generalizing f with
  | zero => rfl
  | succ n ih => exact ih _

/-- **The framer accepts exactly the length-prefixed grammar**: for every buffer, what repeated
calls hand out is the one maximal sequence of blocks it starts with. -/
theorem framer_walks_grammar (mem : Memory) (data : Nat) (size : BitVec 64) :
    WalksGrammar mem data size (handedOut mem ⟨data, size.toNat, 0⟩) := by
  have start : (⟨data, size.toNat, 0⟩ : Framer).rest mem = bytesAt mem data size.toNat := rfl
  have views : handedOut mem ⟨data, size.toNat, 0⟩ = viewsFrom data (parse (bytesAt mem data size.toNat)).1 :=
    handedOut_eq rfl
  have spec := fun n => @afterCalls_spec mem ⟨data, size.toNat, 0⟩ (Nat.zero_le _) n
  obtain ⟨whole, framed, stuck⟩ := parse_spec (bytesAt mem data size.toNat)
  have shown := viewsFrom_bytes whole.symm
  have total := congrArg List.length whole
  rw [List.length_append, length_bytesAt] at total
  have count : (viewsFrom data (parse (bytesAt mem data size.toNat)).1).length =
      (parse (bytesAt mem data size.toNat)).1.length := by
    have lengths := congrArg List.length shown
    rwa [List.length_map] at lengths
  -- behind the walk only the bytes that start no block are left
  obtain ⟨sameData, sameSize, bound, rest, _⟩ := spec (handedOut mem ⟨data, size.toNat, 0⟩).length
  rw [start, views, count, List.drop_length, List.flatMap_nil, List.nil_append] at rest
  rw [views, count] at sameData sameSize bound
  have offset : (afterCalls mem ⟨data, size.toNat, 0⟩ (parse (bytesAt mem data size.toNat)).1.length).pos =
      ((parse (bytesAt mem data size.toNat)).1.flatMap block).length := by
    have length := congrArg List.length rest
    rw [Framer.rest, length_bytesAt, sameSize] at length
    dsimp only at length bound
    omega
  have exhausted : (afterCalls mem ⟨data, size.toNat, 0⟩ (parse (bytesAt mem data size.toNat)).1.length).exhausted = true ↔
      (parse (bytesAt mem data size.toNat)).2 = [] := by
    rw [Framer.exhausted, beq_iff_eq, sameSize, offset, ← List.length_eq_zero_iff]
    dsimp only
    omega
  rw [views]
  refine ⟨fun n => (spec n).2.2.2.2, ?_, ?_, ?_, ?_, ?_, ?_⟩
  · intro mv member
    have inside := viewsFrom_inside member
    have sized := size_of_viewsFrom framed member
    omega
  · rw [count, shown, Framer.offset, offset]
    obtain ⟨k, split⟩ : ∃ k, size.toNat = ((parse (bytesAt mem data size.toNat)).1.flatMap block).length + k :=
      ⟨_, total.symm⟩
    have front := whole
    conv_rhs at front => rw [split, bytesAt_add]
    exact (List.append_inj front (by rw [length_bytesAt])).1.symm
  · intro m behind complete starts
    rw [count, Framer.offset] at starts
    have here := rest
    rw [Framer.rest, sameData, sameSize] at here
    dsimp only at here
    rw [here] at starts
    rw [splitBlock_eq_some.mpr ⟨starts, complete⟩] at stuck
    cases stuck
  · intro n
    obtain ⟨data', size', bound', _⟩ := spec n
    have word : (BitVec.ofNat 64 (afterCalls mem ⟨data, size.toNat, 0⟩ n).pos).toNat =
        (afterCalls mem ⟨data, size.toNat, 0⟩ n).pos := by
      have wide := size.isLt
      dsimp only at bound'
      rw [BitVec.toNat_ofNat, Nat.mod_eq_of_lt (by omega)]
    have state : (⟨data, size.toNat, (afterCalls mem ⟨data, size.toNat, 0⟩ n).pos⟩ : Framer) =
        afterCalls mem ⟨data, size.toNat, 0⟩ n := by
      rw [Framer.mk.injEq]
      exact ⟨data'.symm, size'.symm, rfl⟩
    refine ⟨bound', ?_⟩
    rw [nextWord_value mem data (by rw [BitVec.le_def, word]; exact bound'), word, state, afterCalls_succ]
    rfl
  · rw [count, exhausted]
    constructor
    · intro nothing
      rw [nothing, List.append_nil] at whole
      exact ⟨_, framed, whole.symm⟩
    · rintro ⟨ms, framed', blocks⟩
      rw [blocks, parse_blocks framed']
  · intro ms framed' blocks
    rw [count, exhausted, shown, blocks, parse_blocks framed']
    exact ⟨rfl, rfl⟩

end Nts.Itch.Framer
