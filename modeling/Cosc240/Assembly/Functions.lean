import Cosc240.Lib.X86Stack

/-!
# The functions of tutorial 2

`functions.asm` line by line, for every program that includes it. A function is entered with
the address to return to on the stack, and its argument is in `eax`.

- `functions`: the lines of tutorial2/functions.asm:4–51, which are `slen`, `sprint` and `quit`, as
  a program of `Lib.X86`. `Label` are its labels and those of the program that includes it.
- `Holds`: a string with the zero that ends it is in the memory.
- `Apart`: a string is apart from a stack, and from the words that will be pushed on it.

The functions are followed with a list of words for the stack first, and the runs are then carried
over to a flat memory by `flat_simulates` (`Lib.X86Stack`):

- `nextchar_finished`: the loop of `slen` goes on to the zero, by induction on what is left of the
  string.
- `slen_returns`: `slen` returns the length, and leaves the other registers alone.
- `sprint_returns`: `sprint` prints the string, and only `eax` is another one afterwards.

Main result:

- `sprint_prints`: in memory, `sprint` prints a string that is apart from the return address and the
  six words below it, and returns. All registers but `eax` are what they were, and so is the memory
  outside these words.
-/

namespace Cosc240

open Lib X86

namespace Assembly

/-- The labels of `functions.asm` and of the program that includes it. -/
inductive Label where
  | slen | nextchar | finished | sprint | quit | start
  deriving DecidableEq, Repr

/-- `functions.asm`. -/
def functions : List (Instruction Label) :=
  [.label .slen,
    .push .ebx,
    .mov .ebx .eax,
    .label .nextchar,
    .cmpByte .eax 0,
    .jz .finished,
    .inc .eax,
    .jmp .nextchar,
    .label .finished,
    .sub .eax .ebx,
    .pop .ebx,
    .ret,
    .label .sprint,
    .push .edx,
    .push .ecx,
    .push .ebx,
    .push .eax,
    .call .slen,
    .mov .edx .eax,
    .pop .eax,
    .mov .ecx .eax,
    .load .ebx 1,
    .load .eax 4,
    .int80,
    .pop .ebx,
    .pop .ecx,
    .pop .edx,
    .ret,
    .label .quit,
    .load .ebx 0,
    .load .eax 1,
    .int80,
    .ret]

/-- A string with the zero that ends it. -/
def Holds (bytes : UInt32 → Option UInt8) : UInt32 → List UInt8 → Prop
  | a, [] => bytes a = some 0
  | a, c :: text => bytes a = some c ∧ c ≠ 0 ∧ Holds bytes (a + 1) text

instance decidableHolds (bytes : UInt32 → Option UInt8) :
    (a : UInt32) → (text : List UInt8) → Decidable (Holds bytes a text)
  | a, [] => inferInstanceAs (Decidable (bytes a = some 0))
  | a, c :: text =>
    have := decidableHolds bytes (a + 1) text
    inferInstanceAs (Decidable (bytes a = some c ∧ c ≠ 0 ∧ Holds bytes (a + 1) text))

variable {rest : List (Instruction Label)} {room : Nat} {regs : Register → UInt32} {zf : Bool}
  {ra : UInt32} {stack : List UInt32} {data : UInt32 → Option UInt8} {output text : List UInt8}

/-! ## With a list for the stack -/

theorem split_push (hroom : stack.length < room) (v : UInt32) :
    (split room).push ⟨stack, data⟩ v = some ⟨v :: stack, data⟩ := if_pos hroom

/-- The loop of `slen` goes on to the zero. -/
theorem nextchar_finished (rest : List (Instruction Label)) (room : Nat) (zf : Bool)
    (stack : List UInt32) (output : List UInt8) (htext : Holds data (regs .eax) text) :
    ∃ zf', Runs (split room) (functions ++ rest)
      ⟨regs, zf, 3, ⟨stack, data⟩, output, none⟩
      ⟨Function.update regs .eax (regs .eax + UInt32.ofNat text.length), zf', 8, ⟨stack, data⟩,
        output, none⟩ := by
  induction text generalizing regs zf with
  | nil =>
    have hcmp : step (split room) (functions ++ rest) ⟨regs, zf, 4, ⟨stack, data⟩, output, none⟩ =
        some ⟨regs, true, 5, ⟨stack, data⟩, output, none⟩ := by
      show (data (regs .eax)).map _ = _
      rw [show data (regs .eax) = some 0 from htext]
      rfl
    have hend : Function.update regs .eax (regs .eax + UInt32.ofNat 0) = regs := by
      rw [show regs .eax + UInt32.ofNat 0 = regs .eax by grind, Function.update_eq_self]
    refine ⟨true, .step rfl (.step hcmp (.step rfl ?_))⟩
    rw [List.length_nil, hend]
    exact .refl
  | cons c text ih =>
    obtain ⟨hbyte, hc, htext⟩ := htext
    have hcmp : step (split room) (functions ++ rest) ⟨regs, zf, 4, ⟨stack, data⟩, output, none⟩ =
        some ⟨regs, false, 5, ⟨stack, data⟩, output, none⟩ := by
      show (data (regs .eax)).map _ = _
      rw [hbyte, show (false : Bool) = (c == 0) from (beq_eq_false_iff_ne.mpr hc).symm]
      rfl
    -- the next character is in the register when the loop starts again
    have hnext : Holds data (Function.update regs .eax (regs .eax + 1) .eax) text := by
      rw [Function.update_self]
      exact htext
    obtain ⟨zf', hruns⟩ := ih (regs .eax + 1 == 0) hnext
    have hend : Function.update (Function.update regs .eax (regs .eax + 1)) .eax
        (Function.update regs .eax (regs .eax + 1) .eax + UInt32.ofNat text.length) =
        Function.update regs .eax (regs .eax + UInt32.ofNat (text.length + 1)) := by
      rw [Function.update_idem, Function.update_self, UInt32.ofNat_add]
      congr 1
      grind
    rw [hend] at hruns
    exact ⟨zf', .step rfl (.step hcmp (.step rfl (.step rfl (.step rfl hruns))))⟩

theorem step_push (regs : Register → UInt32) (zf : Bool) (data : UInt32 → Option UInt8)
    (output : List UInt8) {eip : Nat} {r : Register} (hroom : stack.length < room)
    (hi : (functions ++ rest)[eip]? = some (.push r)) :
    step (split room) (functions ++ rest) ⟨regs, zf, eip, ⟨stack, data⟩, output, none⟩ =
      some ⟨regs, zf, eip + 1, ⟨regs r :: stack, data⟩, output, none⟩ := by
  rw [step_of_fetch rfl hi, exec, split_push hroom]
  rfl

/-- **`slen`** returns the length of the string, and leaves the other registers alone. -/
theorem slen_returns (rest : List (Instruction Label)) (zf : Bool) (ra : UInt32)
    (output : List UInt8) (hroom : stack.length + 1 < room)
    (htext : Holds data (regs .eax) text) :
    ∃ zf', Runs (split room) (functions ++ rest)
      ⟨regs, zf, 0, ⟨ra :: stack, data⟩, output, none⟩
      ⟨Function.update regs .eax (UInt32.ofNat text.length), zf', ra.toNat, ⟨stack, data⟩,
        output, none⟩ := by
  have hpush := step_push regs zf data output (show (ra :: stack).length < room from hroom)
    (show (functions ++ rest)[1]? = some (.push .ebx) from rfl)
  have htext' : Holds data (Function.update regs .ebx (regs .eax) .eax) text := htext
  obtain ⟨zf', hloop⟩ :=
    nextchar_finished rest room zf (regs .ebx :: ra :: stack) output htext'
  have hregs : Function.update (Function.update (Function.update
      (Function.update regs .ebx (regs .eax)) .eax (regs .eax + UInt32.ofNat text.length)) .eax
      (regs .eax + UInt32.ofNat text.length - regs .eax)) .ebx (regs .ebx) =
      Function.update regs .eax (UInt32.ofNat text.length) := by
    rw [show regs .eax + UInt32.ofNat text.length - regs .eax = UInt32.ofNat text.length by grind]
    funext r
    cases r <;> rfl
  refine ⟨regs .eax + UInt32.ofNat text.length - regs .eax == 0, ?_⟩
  rw [← hregs]
  refine .step rfl (.step hpush (.step rfl (hloop.trans ?_)))
  -- from `finished` on
  exact .step rfl (.step rfl (.step rfl (.step rfl .refl)))

/-- `write` reads the string. -/
theorem readBytes_text {a : UInt32} (htext : Holds data a text) :
    readBytes (split room) ⟨stack, data⟩ a text.length = some text := by
  induction text generalizing a with
  | nil => rfl
  | cons c text ih =>
    obtain ⟨hbyte, -, htext⟩ := htext
    show (data a).bind _ = _
    rw [hbyte]
    show (readBytes (split room) ⟨stack, data⟩ (a + 1) text.length).bind _ = _
    rw [ih htext]
    rfl

/-- The system call of `sprint`. -/
theorem step_write (rest : List (Instruction Label)) (room : Nat) (zf : Bool)
    (stack : List UInt32) (output : List UInt8) (hlength : text.length < 2 ^ 32)
    (htext : Holds data (regs .ecx) text)
    (heax : regs .eax = 4) (hebx : regs .ebx = 1) (hedx : regs .edx = UInt32.ofNat text.length) :
    step (split room) (functions ++ rest) ⟨regs, zf, 23, ⟨stack, data⟩, output, none⟩ =
      some ⟨Function.update regs .eax (regs .edx), zf, 24, ⟨stack, data⟩, output ++ text,
        none⟩ := by
  have hread : readBytes (split room) ⟨stack, data⟩ (regs .ecx) (regs .edx).toNat = some text := by
    rw [hedx, UInt32.toNat_ofNat', Nat.mod_eq_of_lt hlength]
    exact readBytes_text htext
  rw [step_of_fetch rfl (show (functions ++ rest)[23]? = some .int80 from rfl), exec, syscall]
  dsimp only
  rw [if_neg (by rw [heax]; decide), if_pos ⟨heax, hebx⟩, hread]
  rfl

/-- The registers when `sprint` calls `write`. -/
def writing (regs : Register → UInt32) (length : UInt32) : Register → UInt32
  | .eax => 4
  | .ebx => 1
  | .ecx => regs .eax
  | .edx => length

/-- **`sprint`** prints the string. Only `eax` is another one afterwards. -/
theorem sprint_returns (rest : List (Instruction Label)) (zf : Bool) (ra : UInt32)
    (output : List UInt8) (hroom : stack.length + 7 ≤ room) (hlength : text.length < 2 ^ 32)
    (htext : Holds data (regs .eax) text) :
    ∃ zf', Runs (split room) (functions ++ rest)
      ⟨regs, zf, 12, ⟨ra :: stack, data⟩, output, none⟩
      ⟨Function.update regs .eax (UInt32.ofNat text.length), zf', ra.toNat, ⟨stack, data⟩,
        output ++ text, none⟩ := by
  -- the registers are saved
  have hedx := step_push regs zf data output
    (show (ra :: stack).length < room by rw [List.length_cons]; omega)
    (show (functions ++ rest)[13]? = some (.push .edx) from rfl)
  have hecx := step_push regs zf data output
    (show (regs .edx :: ra :: stack).length < room by simp only [List.length_cons]; omega)
    (show (functions ++ rest)[14]? = some (.push .ecx) from rfl)
  have hebx := step_push regs zf data output
    (show (regs .ecx :: regs .edx :: ra :: stack).length < room by
      simp only [List.length_cons]; omega)
    (show (functions ++ rest)[15]? = some (.push .ebx) from rfl)
  have heax := step_push regs zf data output
    (show (regs .ebx :: regs .ecx :: regs .edx :: ra :: stack).length < room by
      simp only [List.length_cons]; omega)
    (show (functions ++ rest)[16]? = some (.push .eax) from rfl)
  -- the call
  have hcall : step (split room) (functions ++ rest) ⟨regs, zf, 17,
      ⟨regs .eax :: regs .ebx :: regs .ecx :: regs .edx :: ra :: stack, data⟩, output, none⟩ =
      some ⟨regs, zf, 0, ⟨18 :: regs .eax :: regs .ebx :: regs .ecx :: regs .edx :: ra :: stack,
        data⟩, output, none⟩ := by
    rw [step_of_fetch rfl (show (functions ++ rest)[17]? = some (.call .slen) from rfl), exec,
      split_push (by simp only [List.length_cons]; omega)]
    rfl
  obtain ⟨zf', hslen⟩ := slen_returns rest zf 18 output
    (show (regs .eax :: regs .ebx :: regs .ecx :: regs .edx :: ra :: stack).length + 1 < room by
      simp only [List.length_cons]; omega) htext
  -- the arguments of the system call
  have hargs : Function.update (Function.update (Function.update (Function.update
      (Function.update (Function.update regs .eax (UInt32.ofNat text.length)) .edx
        (UInt32.ofNat text.length)) .eax (regs .eax)) .ecx (regs .eax)) .ebx 1) .eax 4 =
      writing regs (UInt32.ofNat text.length) := by
    funext r
    cases r <;> rfl
  have hprepare : Runs (split room) (functions ++ rest)
      ⟨Function.update regs .eax (UInt32.ofNat text.length), zf', 18,
        ⟨regs .eax :: regs .ebx :: regs .ecx :: regs .edx :: ra :: stack, data⟩, output, none⟩
      ⟨writing regs (UInt32.ofNat text.length), zf', 23,
        ⟨regs .ebx :: regs .ecx :: regs .edx :: ra :: stack, data⟩, output, none⟩ := by
    rw [← hargs]
    exact .step rfl (.step rfl (.step rfl (.step rfl (.step rfl .refl))))
  have hwrite := step_write rest room zf'
    (regs .ebx :: regs .ecx :: regs .edx :: ra :: stack) output hlength
    (show Holds data (writing regs (UInt32.ofNat text.length) .ecx) text from htext) rfl rfl rfl
  -- the registers are restored
  have hrestore : Function.update (Function.update (Function.update
      (Function.update (writing regs (UInt32.ofNat text.length)) .eax (UInt32.ofNat text.length))
      .ebx (regs .ebx)) .ecx (regs .ecx)) .edx (regs .edx) =
      Function.update regs .eax (UInt32.ofNat text.length) := by
    funext r
    cases r <;> rfl
  refine ⟨zf', ?_⟩
  rw [← hrestore]
  refine .step rfl (.step hedx (.step hecx (.step hebx (.step heax (.step hcall ?_)))))
  refine hslen.trans (hprepare.trans (.step hwrite ?_))
  exact .step rfl (.step rfl (.step rfl (.step rfl .refl)))

/-! ## In a flat memory -/

/-- The data of a flat memory is what is not stack. -/
def outside (base : UInt32) (room : Nat) (bytes : UInt32 → Option UInt8) :
    UInt32 → Option UInt8 := fun a =>
  if 0 < (base - a).toNat ∧ (base - a).toNat ≤ 4 * room then none else bytes a

variable {base esp : UInt32} {bytes : UInt32 → Option UInt8}

theorem outside_of_not_inStack {a : UInt32} (h : ¬ InStack base room a) :
    outside base room bytes a = bytes a := if_neg h

/-- A string is apart from the stack. -/
def Apart (base : UInt32) (room : Nat) (a : UInt32) (text : List UInt8) : Prop :=
  ∀ i ≤ text.length, ¬ InStack base room (a + UInt32.ofNat i)

instance (base : UInt32) (room : Nat) (a : UInt32) (text : List UInt8) :
    Decidable (Apart base room a text) :=
  inferInstanceAs (Decidable (∀ i ≤ text.length, ¬ (0 < (base - (a + UInt32.ofNat i)).toNat ∧
    (base - (a + UInt32.ofNat i)).toNat ≤ 4 * room)))

theorem Apart.holds {a : UInt32} (h : Apart base room a text) (htext : Holds bytes a text) :
    Holds (outside base room bytes) a text := by
  have hfirst : ¬ InStack base room a := by
    have := h 0 (Nat.zero_le _)
    rwa [show a + UInt32.ofNat 0 = a by grind] at this
  induction text generalizing a with
  | nil => exact (outside_of_not_inStack hfirst).trans htext
  | cons c text ih =>
    obtain ⟨hbyte, hc, htext⟩ := htext
    have hrest : Apart base room (a + 1) text := by
      intro i hi
      have hshift : a + 1 + UInt32.ofNat i = a + UInt32.ofNat (i + 1) := by
        rw [UInt32.ofNat_add]
        grind
      rw [hshift]
      exact h (i + 1) (Nat.succ_le_succ hi)
    refine ⟨(outside_of_not_inStack hfirst).trans hbyte, hc, ih hrest htext ?_⟩
    have := hrest 0 (Nat.zero_le _)
    rwa [show a + 1 + UInt32.ofNat 0 = a + 1 by grind] at this

/-- A string that is apart from a stack does not go all around the memory. -/
theorem Apart.length_lt {a : UInt32} (h : Apart base room a text) (hroom : 0 < room) :
    text.length < 2 ^ 32 := by
  by_contra hle
  have hmem := h (base - 4 - a).toNat (by have := (base - 4 - a).toNat_lt; omega)
  rw [UInt32.ofNat_toNat, show a + (base - 4 - a) = base - 4 by grind, InStack,
    show base - (base - 4) = 4 by grind] at hmem
  exact hmem ⟨by decide, by show 4 ≤ _; omega⟩

/-- The flat memory as a stack with these words on it. -/
theorem flattens_outside {stack : List UInt32} (hdepth : stack.length ≤ room)
    (hesp : esp = base - 4 * UInt32.ofNat stack.length) (hwords : Words bytes esp stack)
    (hmapped : ∀ a, InStack base room a → (bytes a).isSome) :
    Flattens base room ⟨esp, bytes⟩ ⟨stack, outside base room bytes⟩ := by
  constructor
  · exact hdepth
  · exact hesp
  · exact hwords
  · intro a b hb
    by_cases hstack : InStack base room a
    · have hnone : outside base room bytes a = none := if_pos hstack
      exact absurd (hnone.symm.trans hb) (by simp)
    · exact (outside_of_not_inStack hstack).symm.trans hb
  · exact fun a ha => if_pos ha
  · exact hmapped

/-- **`sprint` in memory.** Any program that includes `functions.asm` can call it, with a string
that is apart from the return address and the six words below it. It prints the string and
returns, all registers but `eax` are what they were, and so is the memory outside these words. -/
theorem sprint_prints (rest : List (Instruction Label)) (regs : Register → UInt32) (zf : Bool)
    (esp ra : UInt32) (bytes : UInt32 → Option UInt8) (output text : List UInt8)
    (hra : load32 bytes esp = some ra)
    (hmapped : ∀ a, InStack (esp + 4) 7 a → (bytes a).isSome)
    (htext : Holds bytes (regs .eax) text) (hapart : Apart (esp + 4) 7 (regs .eax) text) :
    ∃ zf' bytes', Runs flat (functions ++ rest)
        ⟨regs, zf, 12, ⟨esp, bytes⟩, output, none⟩
        ⟨Function.update regs .eax (UInt32.ofNat text.length), zf', ra.toNat,
          ⟨esp + 4, bytes'⟩, output ++ text, none⟩ ∧
      ∀ a b, ¬ InStack (esp + 4) 7 a → bytes a = some b → bytes' a = some b := by
  have hflattens : Flattens (esp + 4) 7 ⟨esp, bytes⟩ ⟨[ra], outside (esp + 4) 7 bytes⟩ := by
    refine flattens_outside (show 1 ≤ 7 by decide) ?_ ⟨hra, trivial⟩ hmapped
    show esp = esp + 4 - 4 * 1
    grind
  obtain ⟨zf', hruns⟩ := sprint_returns rest zf ra output
    (show ([] : List UInt32).length + 7 ≤ 7 by decide) (hapart.length_lt (by decide))
    (hapart.holds htext)
  obtain ⟨⟨esp', bytes'⟩, hflat, h'⟩ :=
    runs_simulates (flat_simulates (esp + 4) (by decide)) hflattens hruns
  have hesp' : esp' = esp + 4 := by
    refine h'.esp.trans ?_
    show esp + 4 - 4 * 0 = esp + 4
    grind
  subst hesp'
  refine ⟨zf', bytes', hflat, ?_⟩
  intro a b ha hb
  exact h'.data a b ((outside_of_not_inStack ha).trans hb)

/-- A memory with a short string, and zeros everywhere else. -/
def greetingAt (a : UInt32) : Option UInt8 :=
  some (if a = 0x1000 then 72 else if a = 0x1001 then 105 else 0)

/-- The string is far below the stack, and the caller is line 0. -/
theorem sprint_prints_greeting :
    ∃ zf' bytes', Runs flat functions
        ⟨fun _ => 0x1000, false, 12, ⟨0x2000, greetingAt⟩, [], none⟩
        ⟨Function.update (fun _ => 0x1000) .eax 2, zf', 0, ⟨0x2004, bytes'⟩, [72, 105], none⟩ ∧
      bytes' 0x1000 = some 72 := by
  obtain ⟨zf', bytes', hruns, hframe⟩ := sprint_prints [] (fun _ => 0x1000) false 0x2000 0
    greetingAt [] [72, 105] (by decide) (fun _ _ => rfl) (by decide) (by decide)
  rw [List.append_nil] at hruns
  exact ⟨zf', bytes', hruns, hframe 0x1000 72 (by unfold InStack; decide) rfl⟩

end Assembly

end Cosc240
