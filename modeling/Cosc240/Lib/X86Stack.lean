import Cosc240.Lib.X86

/-!
# The stack in a flat memory

A program can be followed with a list of words for the stack and with other bytes that it only
reads. As long as these bytes are apart from the stack and the list is no longer than there is
room, the program does the same on one flat memory, where the words are bytes behind `esp`.

- `byteOf`, `load32`, `withWord`, `store32`: words in a memory of bytes, the lowest byte first, with
  the round trip `load32_withWord`.
- `Flat` and `flat`: one memory for everything. Where it has no byte, an access faults.
- `Split` and `split`: the stack as a list with its top first, room for so many words, and the other
  bytes.
- `Words`, `InStack`: words in memory from an address on, and the addresses of a stack that grows
  down from a base.
- `Flattens`: the relation between the two. The stack is where the flat memory has it, and the other
  bytes are somewhere else.

Main results:

- `Flattens.push` and `Flattens.pop`: the two operations on the stack keep the relation.
- `flat_simulates`: a flat memory is as good as a list and some data. With `runs_simulates` this
  holds of whole runs.
-/

namespace Lib

namespace X86

/-! ## Words in memory -/

/-- Byte `i` of a word, the lowest one first. -/
def byteOf (v : UInt32) (i : Nat) : UInt8 := UInt8.ofNat (v.toNat / 256 ^ i)

/-- The word at address `a`. -/
def load32 (bytes : UInt32 → Option UInt8) (a : UInt32) : Option UInt32 := do
  let b₀ ← bytes a
  let b₁ ← bytes (a + 1)
  let b₂ ← bytes (a + 2)
  let b₃ ← bytes (a + 3)
  return UInt32.ofNat (b₀.toNat + 256 * b₁.toNat + 65536 * b₂.toNat + 16777216 * b₃.toNat)

/-- The memory with the word at address `a`. -/
def withWord (bytes : UInt32 → Option UInt8) (a v : UInt32) : UInt32 → Option UInt8 := fun x =>
  if (x - a).toNat < 4 then some (byteOf v (x - a).toNat) else bytes x

/-- Put a word at address `a`, if there is memory. -/
def store32 (bytes : UInt32 → Option UInt8) (a v : UInt32) : Option (UInt32 → Option UInt8) :=
  if (bytes a).isSome ∧ (bytes (a + 1)).isSome ∧ (bytes (a + 2)).isSome ∧
      (bytes (a + 3)).isSome then
    some (withWord bytes a v)
  else none

theorem load32_congr {bytes bytes' : UInt32 → Option UInt8} {a : UInt32}
    (h : ∀ i < 4, bytes' (a + UInt32.ofNat i) = bytes (a + UInt32.ofNat i)) :
    load32 bytes' a = load32 bytes a := by
  have h₀ := h 0 (by decide)
  rw [show a + UInt32.ofNat 0 = a by grind] at h₀
  unfold load32
  rw [h₀, show bytes' (a + 1) = _ from h 1 (by decide),
    show bytes' (a + 2) = _ from h 2 (by decide), show bytes' (a + 3) = _ from h 3 (by decide)]
  rfl

/-- What is loaded is what was stored. -/
theorem load32_withWord (bytes : UInt32 → Option UInt8) (a v : UInt32) :
    load32 (withWord bytes a v) a = some v := by
  have hv := v.toNat_lt
  unfold load32 withWord
  rw [show a - a = 0 by grind, show a + 1 - a = 1 by grind, show a + 2 - a = 2 by grind,
    show a + 3 - a = 3 by grind]
  show some (UInt32.ofNat ((byteOf v 0).toNat + 256 * (byteOf v 1).toNat +
    65536 * (byteOf v 2).toNat + 16777216 * (byteOf v 3).toNat)) = _
  unfold byteOf
  rw [UInt8.toNat_ofNat', UInt8.toNat_ofNat', UInt8.toNat_ofNat', UInt8.toNat_ofNat']
  congr 1
  rw [← UInt32.toNat_inj, UInt32.toNat_ofNat']
  omega

/-! ## The two stores -/

/-- One memory for everything. Where it has no byte, an access faults. -/
structure Flat where
  esp : UInt32
  bytes : UInt32 → Option UInt8

/-- Pushing and popping in a flat memory. -/
def flat : Store Flat where
  push s v := (store32 s.bytes (s.esp - 4) v).map fun bytes => { esp := s.esp - 4, bytes }
  pop s := (load32 s.bytes s.esp).map fun v => (v, { s with esp := s.esp + 4 })
  byte s a := s.bytes a

/-- The stack, its top first, and what else there is to read. -/
structure Split where
  stack : List UInt32
  data : UInt32 → Option UInt8

/-- Pushing and popping with room for so many words. -/
def split (room : Nat) : Store Split where
  push s v := if s.stack.length < room then some { s with stack := v :: s.stack } else none
  pop s :=
    match s.stack with
    | [] => none
    | v :: stack => some (v, { s with stack })
  byte s a := s.data a

/-- These words are in memory from address `a` on. -/
def Words (bytes : UInt32 → Option UInt8) : UInt32 → List UInt32 → Prop
  | _, [] => True
  | a, v :: l => load32 bytes a = some v ∧ Words bytes (a + 4) l

/-- The addresses of the stack that grows down from `base`. -/
def InStack (base : UInt32) (room : Nat) (a : UInt32) : Prop :=
  0 < (base - a).toNat ∧ (base - a).toNat ≤ 4 * room

/-- The stack is where the flat memory has it, and the data is somewhere else. -/
structure Flattens (base : UInt32) (room : Nat) (s : Flat) (s' : Split) : Prop where
  depth : s'.stack.length ≤ room
  esp : s.esp = base - 4 * UInt32.ofNat s'.stack.length
  words : Words s.bytes s.esp s'.stack
  data : ∀ a b, s'.data a = some b → s.bytes a = some b
  apart : ∀ a, InStack base room a → s'.data a = none
  mapped : ∀ a, InStack base room a → (s.bytes a).isSome

variable {base : UInt32} {room : Nat}

theorem Words.congr {bytes bytes' : UInt32 → Option UInt8} {a : UInt32} {l : List UInt32}
    (h : Words bytes a l)
    (hsame : ∀ i < 4 * l.length, bytes' (a + UInt32.ofNat i) = bytes (a + UInt32.ofNat i)) :
    Words bytes' a l := by
  induction l generalizing a with
  | nil => trivial
  | cons v l ih =>
    obtain ⟨hload, hrest⟩ := h
    rw [List.length_cons] at hsame
    constructor
    · rw [load32_congr (fun i hi => hsame i (by omega)), hload]
    · refine ih hrest ?_
      intro i hi
      have hshift : a + 4 + UInt32.ofNat i = a + UInt32.ofNat (i + 4) := by
        rw [UInt32.ofNat_add]
        grind
      rw [hshift]
      exact hsame (i + 4) (by omega)

/-- `n` words below the base, and a byte of the last one of them. -/
theorem toNat_below {n i : Nat} (hn : 4 * n < 2 ^ 32) (hi : i ≤ 4 * n) (base : UInt32) :
    (base - (base - 4 * UInt32.ofNat n + UInt32.ofNat i)).toNat = 4 * n - i := by
  have hsub : base - (base - 4 * UInt32.ofNat n + UInt32.ofNat i) =
      UInt32.ofNat (4 * n) - UInt32.ofNat i := by
    rw [UInt32.ofNat_mul]
    show _ = 4 * UInt32.ofNat n - UInt32.ofNat i
    grind
  rw [hsub, UInt32.toNat_sub, UInt32.toNat_ofNat', UInt32.toNat_ofNat']
  omega

theorem Flattens.push {s : Flat} {s' t' : Split} {v : UInt32} (hroom : 4 * room < 2 ^ 32)
    (h : Flattens base room s s') (hpush : (split room).push s' v = some t') :
    ∃ t, flat.push s v = some t ∧ Flattens base room t t' := by
  have hdepth : s'.stack.length < room ∧ t' = { s' with stack := v :: s'.stack } := by
    unfold split at hpush
    dsimp only at hpush
    by_cases hlt : s'.stack.length < room
    · rw [if_pos hlt] at hpush
      exact ⟨hlt, (Option.some.inj hpush).symm⟩
    · rw [if_neg hlt] at hpush
      cases hpush
  obtain ⟨hlt, rfl⟩ := hdepth
  have hesp : s.esp - 4 = base - 4 * UInt32.ofNat (s'.stack.length + 1) := by
    rw [h.esp, UInt32.ofNat_add]
    grind
  -- the four bytes of the new word are stack
  have hinside : ∀ i < 4, InStack base room (s.esp - 4 + UInt32.ofNat i) := by
    intro i hi
    unfold InStack
    rw [hesp, toNat_below (by omega) (by omega)]
    omega
  have hmapped : ∀ i < 4, (s.bytes (s.esp - 4 + UInt32.ofNat i)).isSome :=
    fun i hi => h.mapped _ (hinside i hi)
  have hmapped₀ := hmapped 0 (by decide)
  rw [show s.esp - 4 + UInt32.ofNat 0 = s.esp - 4 by grind] at hmapped₀
  have hstore : flat.push s v =
      some { esp := s.esp - 4, bytes := withWord s.bytes (s.esp - 4) v } := by
    unfold flat store32
    dsimp only
    rw [if_pos ⟨hmapped₀, hmapped 1 (by decide), hmapped 2 (by decide), hmapped 3 (by decide)⟩]
    rfl
  refine ⟨_, hstore, ?_⟩
  constructor
  · exact hlt
  · exact hesp
  · constructor
    · exact load32_withWord _ _ _
    · rw [show s.esp - 4 + 4 = s.esp by grind]
      refine h.words.congr ?_
      intro i hi
      have hsub : s.esp + UInt32.ofNat i - (s.esp - 4) = UInt32.ofNat (i + 4) := by
        rw [UInt32.ofNat_add]
        grind
      refine if_neg ?_
      rw [hsub, UInt32.toNat_ofNat', Nat.mod_eq_of_lt (by omega)]
      omega
  · intro a b hdata
    have hout : ¬ (a - (s.esp - 4)).toNat < 4 := by
      intro hin
      have hstack := hinside _ hin
      rw [UInt32.ofNat_toNat, show s.esp - 4 + (a - (s.esp - 4)) = a by grind] at hstack
      rw [h.apart a hstack] at hdata
      cases hdata
    exact (if_neg hout).trans (h.data a b hdata)
  · exact h.apart
  · intro a ha
    show (withWord s.bytes (s.esp - 4) v a).isSome
    unfold withWord
    split
    · rfl
    · exact h.mapped a ha

theorem Flattens.pop {s : Flat} {s' t' : Split} {v : UInt32} (h : Flattens base room s s')
    (hpop : (split room).pop s' = some (v, t')) :
    ∃ t, flat.pop s = some (v, t) ∧ Flattens base room t t' := by
  obtain ⟨stack, data⟩ := s'
  cases stack with
  | nil => cases hpop
  | cons w stack =>
    obtain ⟨rfl, rfl⟩ := Prod.mk.inj (Option.some.inj hpop)
    obtain ⟨hload, hwords⟩ := h.words
    have hdepth := h.depth
    rw [List.length_cons] at hdepth
    refine ⟨{ s with esp := s.esp + 4 }, ?_, ?_⟩
    · unfold flat
      dsimp only
      rw [hload]
      rfl
    · constructor
      · exact Nat.le_of_succ_le hdepth
      · have hesp := h.esp
        rw [List.length_cons, UInt32.ofNat_add] at hesp
        show s.esp + 4 = base - 4 * UInt32.ofNat stack.length
        rw [hesp]
        grind
      · exact hwords
      · exact h.data
      · exact h.apart
      · exact h.mapped

/-- **A flat memory is as good as a list and some data.** -/
theorem flat_simulates (base : UInt32) (hroom : 4 * room < 2 ^ 32) :
    flat.Simulates (split room) (Flattens base room) where
  push h hpush := h.push hroom hpush
  pop h hpop := h.pop hpop
  byte h hbyte := h.data _ _ hbyte

end X86

end Lib
