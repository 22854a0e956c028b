import Cosc240.Assembly.Functions

/-!
# The program of tutorial 2

`hello.asm` includes `functions.asm` at its start (hello.asm:6), so its own lines come behind.

- `start`: `_start` (hello.asm:15–23), with the addresses that the linker gives to the two messages.
- `hello`: the whole program, the included lines first.
- `text1` and `text2`: the messages (hello.asm:9–10), without the zeros that end them.

The program is followed through its three calls with a list for the stack, and then on a flat
memory:

- `sprint_call`: a call of `sprint` from `_start`, from the `mov` in front of it to the line behind
  it.
- `start_prints`: the whole program, with a list for the stack.

Main result:

- `hello_prints`: wherever the linker and the system put two strings and the stack, and whatever is
  in the registers and in the rest of the memory, the program prints one string behind the other and
  exits with status 0. No access faults as long as there are seven words of stack. The witness has
  the two messages at `0x0804A000`.
-/

namespace Cosc240

open Lib X86

namespace Assembly

/-- `_start`, with the addresses that the linker gives to the two messages. -/
def start (msg1 msg2 : UInt32) : List (Instruction Label) :=
  [.label .start,
    .load .eax msg1,
    .call .sprint,
    .load .eax msg2,
    .call .sprint,
    .call .quit]

/-- `hello.asm`. -/
def hello (msg1 msg2 : UInt32) : List (Instruction Label) := functions ++ start msg1 msg2

/-- The first message, without the zero. -/
def text1 : List UInt8 :=
  "Hello, brave new world!".toList.map (fun c => UInt8.ofNat c.toNat) ++ [0x0A]

/-- The second message, without the zero. -/
def text2 : List UInt8 :=
  "This is how we recycle in NASM.".toList.map (fun c => UInt8.ofNat c.toNat) ++ [0x0A]

variable {msg1 msg2 : UInt32} {room : Nat} {data : UInt32 → Option UInt8}
  {first second output : List UInt8}

/-- A call of `sprint` from `_start`. -/
theorem sprint_call (msg1 msg2 : UInt32) (eip : Nat) {text : List UInt8}
    (regs : Register → UInt32) (zf : Bool) (output : List UInt8)
    (hi : (hello msg1 msg2)[eip]? = some (.call .sprint)) (heip : eip + 1 < 2 ^ 32)
    (hlength : text.length < 2 ^ 32) (htext : Holds data (regs .eax) text) :
    ∃ regs' zf', Runs (split 7) (hello msg1 msg2)
      ⟨regs, zf, eip, ⟨[], data⟩, output, none⟩
      ⟨regs', zf', eip + 1, ⟨[], data⟩, output ++ text, none⟩ := by
  have hcall : step (split 7) (hello msg1 msg2) ⟨regs, zf, eip, ⟨[], data⟩, output, none⟩ =
      some ⟨regs, zf, 12, ⟨[UInt32.ofNat (eip + 1)], data⟩, output, none⟩ := by
    rw [step_of_fetch rfl hi]
    rfl
  obtain ⟨zf', hruns⟩ := sprint_returns (start msg1 msg2) zf (UInt32.ofNat (eip + 1)) output
    (show ([] : List UInt32).length + 7 ≤ 7 by decide) hlength htext
  rw [UInt32.toNat_ofNat', Nat.mod_eq_of_lt heip] at hruns
  exact ⟨_, zf', .step hcall hruns⟩

/-- The whole program, with a list for the stack. -/
theorem start_prints (regs : Register → UInt32) (zf : Bool) (output : List UInt8)
    (hlength : first.length < 2 ^ 32 ∧ second.length < 2 ^ 32)
    (hfirst : Holds data msg1 first) (hsecond : Holds data msg2 second) :
    ∃ m', Runs (split 7) (hello msg1 msg2) ⟨regs, zf, 33, ⟨[], data⟩, output, none⟩ m' ∧
      m'.status = some 0 ∧ m'.output = output ++ first ++ second := by
  obtain ⟨regs₁, zf₁, hruns₁⟩ := sprint_call msg1 msg2 35 (Function.update regs .eax msg1) zf
    output rfl (by decide) hlength.1 hfirst
  obtain ⟨regs₂, zf₂, hruns₂⟩ := sprint_call msg1 msg2 37 (Function.update regs₁ .eax msg2) zf₁
    (output ++ first) rfl (by decide) hlength.2 hsecond
  have hquit : ∃ m', Runs (split 7) (hello msg1 msg2)
      ⟨regs₂, zf₂, 38, ⟨[], data⟩, output ++ first ++ second, none⟩ m' ∧
      m'.status = some 0 ∧ m'.output = output ++ first ++ second :=
    ⟨_, .step rfl (.step rfl (.step rfl (.step rfl (.step rfl .refl)))), rfl, rfl⟩
  obtain ⟨m', hruns, hend⟩ := hquit
  exact ⟨m', .step rfl (.step rfl (hruns₁.trans (.step rfl (hruns₂.trans hruns)))), hend⟩

/-- **The program of tutorial 2.** Wherever the linker and the system put two strings and the
stack, and whatever is in the registers and in the rest of the memory, the program prints one
string behind the other and exits with status 0. No access faults as long as there are seven
words of stack. -/
theorem hello_prints (msg1 msg2 esp : UInt32) (regs : Register → UInt32) (zf : Bool)
    (bytes : UInt32 → Option UInt8)
    (hmapped : ∀ a, InStack esp 7 a → (bytes a).isSome)
    (hfirst : Holds bytes msg1 first) (hfirst_apart : Apart esp 7 msg1 first)
    (hsecond : Holds bytes msg2 second) (hsecond_apart : Apart esp 7 msg2 second) :
    ∃ m', Runs flat (hello msg1 msg2) ⟨regs, zf, 33, ⟨esp, bytes⟩, [], none⟩ m' ∧
      m'.status = some 0 ∧ m'.output = first ++ second := by
  have hflattens : Flattens esp 7 ⟨esp, bytes⟩ ⟨[], outside esp 7 bytes⟩ := by
    refine flattens_outside (Nat.zero_le _) ?_ trivial hmapped
    show esp = esp - 4 * 0
    grind
  obtain ⟨m', hruns, hstatus, houtput⟩ := start_prints regs zf []
    ⟨hfirst_apart.length_lt (by decide), hsecond_apart.length_lt (by decide)⟩
    (hfirst_apart.holds hfirst) (hsecond_apart.holds hsecond)
  obtain ⟨t, hflat, -⟩ := runs_simulates (flat_simulates esp (by decide)) hflattens hruns
  exact ⟨_, hflat, hstatus, houtput⟩

/-- The two messages at `0x0804A000`, one behind the other, and zeros everywhere else. -/
def loaded (a : UInt32) : Option UInt8 :=
  some ((text1 ++ [0] ++ text2 ++ [0]).getD (a - 0x0804A000).toNat 0)

/-- The messages of `hello.asm`. -/
theorem hello_prints_loaded :
    ∃ m', Runs flat (hello 0x0804A000 0x0804A019)
        ⟨fun _ => 0, false, 33, ⟨0xFFFFD000, loaded⟩, [], none⟩ m' ∧
      m'.status = some 0 ∧ m'.output = text1 ++ text2 :=
  hello_prints 0x0804A000 0x0804A019 0xFFFFD000 (fun _ => 0) false loaded
    (fun _ _ => rfl) (by decide) (by decide) (by decide) (by decide)

end Assembly

end Cosc240
