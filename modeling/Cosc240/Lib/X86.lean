import Mathlib.Algebra.GroupWithZero.Nat
import Mathlib.Logic.Function.Basic
import Mathlib.Logic.Relation

/-!
# A few instructions of a 32-bit x86 processor under Linux

Programs are lists of lines, as an assembler reads them, and `eip` is the number of a line.
What a store does with pushed words and with bytes is left open, so that one program can be
run on the bytes of a flat memory and on a list of words.

- `Register`, `Instruction`: the general registers, and the moves, pushes, pops, arithmetic, jumps,
  calls and interrupts that small programs need. A label is a line of its own that does nothing.
- `Store`: what the processor needs of a memory. Each of its operations can fault, and then there is
  no next state.
- `Machine`: the registers, the flags, the memory, what has been written, and the exit status.
- `exec`, `step`, `Runs`: one instruction, one step of a program that has not exited, and any number
  of steps. `syscall` is `exit`, and `write` on the standard output.

Main results:

- `Runs.step` and `Runs.trans`: runs are put together from steps and from other runs.
- `Store.Simulates`: what one store does, another one does too. `exec_simulates` carries this over
  to an instruction, `step_simulates` to a step, and `runs_simulates` to the runs of every program.
-/

namespace Lib

namespace X86

/-- The general registers that are needed. -/
inductive Register where
  | eax | ebx | ecx | edx
  deriving DecidableEq, Repr

/-- One line of a program. -/
inductive Instruction (L : Type) where
  | label (name : L)
  | push (r : Register)
  | pop (r : Register)
  | mov (r s : Register)
  /-- `mov r, v`. -/
  | load (r : Register) (v : UInt32)
  /-- `cmp byte [r], v`. -/
  | cmpByte (r : Register) (v : UInt8)
  | jz (name : L)
  | jmp (name : L)
  | call (name : L)
  | ret
  | inc (r : Register)
  | sub (r s : Register)
  /-- `int 80h`. -/
  | int80
  deriving DecidableEq, Repr

/-- What the processor needs of a memory. Each of these can fault. -/
structure Store (S : Type) where
  push : S → UInt32 → Option S
  pop : S → Option (UInt32 × S)
  byte : S → UInt32 → Option UInt8

/-- The processor, its memory, and what the program has done so far. -/
structure Machine (S : Type) where
  regs : Register → UInt32
  zf : Bool
  eip : Nat
  memory : S
  /-- What has been written to the standard output. -/
  output : List UInt8
  /-- The status, once the program has exited. -/
  status : Option UInt32

variable {L S S' : Type} [DecidableEq L]

/-- The line with the label. -/
def target (p : List (Instruction L)) (name : L) : Option Nat := p.idxOf? (.label name)

/-- The `n` bytes from address `a` on. -/
def readBytes (M : Store S) (memory : S) (a : UInt32) : Nat → Option (List UInt8)
  | 0 => some []
  | n + 1 => do
    let b ← M.byte memory a
    let rest ← readBytes M memory (a + 1) n
    return b :: rest

/-- The system calls `exit` and `write` on the standard output, which takes all bytes. -/
def syscall (M : Store S) (m : Machine S) : Option (Machine S) :=
  if m.regs .eax = 1 then some { m with status := some (m.regs .ebx) }
  else if m.regs .eax = 4 ∧ m.regs .ebx = 1 then
    (readBytes M m.memory (m.regs .ecx) (m.regs .edx).toNat).map fun bytes =>
      { m with
        regs := Function.update m.regs .eax (m.regs .edx)
        output := m.output ++ bytes }
  else none

/-- One instruction. -/
def exec (M : Store S) (p : List (Instruction L)) (m : Machine S) :
    Instruction L → Option (Machine S)
  | .label _ => some { m with eip := m.eip + 1 }
  | .push r => (M.push m.memory (m.regs r)).map fun memory =>
    { m with memory, eip := m.eip + 1 }
  | .pop r => (M.pop m.memory).map fun (v, memory) =>
    { m with regs := Function.update m.regs r v, memory, eip := m.eip + 1 }
  | .mov r s => some
    { m with regs := Function.update m.regs r (m.regs s), eip := m.eip + 1 }
  | .load r v => some { m with regs := Function.update m.regs r v, eip := m.eip + 1 }
  | .cmpByte r v => (M.byte m.memory (m.regs r)).map fun b =>
    { m with zf := b == v, eip := m.eip + 1 }
  | .jz name =>
    if m.zf then (target p name).map fun eip => { m with eip }
    else some { m with eip := m.eip + 1 }
  | .jmp name => (target p name).map fun eip => { m with eip }
  | .call name => do
    let memory ← M.push m.memory (UInt32.ofNat (m.eip + 1))
    let eip ← target p name
    return { m with memory, eip }
  | .ret => (M.pop m.memory).map fun (v, memory) => { m with memory, eip := v.toNat }
  | .inc r =>
    let v := m.regs r + 1
    some { m with regs := Function.update m.regs r v, zf := v == 0, eip := m.eip + 1 }
  | .sub r s =>
    let v := m.regs r - m.regs s
    some { m with regs := Function.update m.regs r v, zf := v == 0, eip := m.eip + 1 }
  | .int80 => (syscall M m).map fun m => { m with eip := m.eip + 1 }

/-- One step, as long as the program has not exited. -/
def step (M : Store S) (p : List (Instruction L)) (m : Machine S) : Option (Machine S) :=
  match m.status, p[m.eip]? with
  | none, some i => exec M p m i
  | _, _ => none

/-- Any number of steps. -/
def Runs (M : Store S) (p : List (Instruction L)) : Machine S → Machine S → Prop :=
  Relation.ReflTransGen fun m m' => step M p m = some m'

theorem step_of_fetch {M : Store S} {p : List (Instruction L)} {m : Machine S}
    {i : Instruction L} (hstatus : m.status = none) (hi : p[m.eip]? = some i) :
    step M p m = exec M p m i := by
  rw [step, hstatus, hi]

theorem Runs.step {M : Store S} {p : List (Instruction L)} {m m₁ m' : Machine S}
    (hstep : X86.step M p m = some m₁) (h : Runs M p m₁ m') : Runs M p m m' :=
  Relation.ReflTransGen.head hstep h

theorem Runs.trans {M : Store S} {p : List (Instruction L)} {m m₁ m' : Machine S}
    (h : Runs M p m m₁) (h' : Runs M p m₁ m') : Runs M p m m' :=
  Relation.ReflTransGen.trans h h'

/-! ## Simulation -/

/-- The machine with another memory. -/
def Machine.withMemory (m : Machine S) (memory : S') : Machine S' where
  regs := m.regs
  zf := m.zf
  eip := m.eip
  memory := memory
  output := m.output
  status := m.status

/-- What the second store does, the first one does too. -/
structure Store.Simulates (M : Store S) (M' : Store S') (R : S → S' → Prop) : Prop where
  push : ∀ {s s' v t'}, R s s' → M'.push s' v = some t' → ∃ t, M.push s v = some t ∧ R t t'
  pop : ∀ {s s' v t'}, R s s' → M'.pop s' = some (v, t') → ∃ t, M.pop s = some (v, t) ∧ R t t'
  byte : ∀ {s s' a b}, R s s' → M'.byte s' a = some b → M.byte s a = some b

variable {M : Store S} {M' : Store S'} {R : S → S' → Prop} {p : List (Instruction L)}

theorem readBytes_simulates (hM : M.Simulates M' R) {s : S} {s' : S'} (h : R s s')
    {n : Nat} {a : UInt32} {bytes : List UInt8} (hread : readBytes M' s' a n = some bytes) :
    readBytes M s a n = some bytes := by
  induction n generalizing a bytes with
  | zero => exact hread
  | succ n ih =>
    rw [readBytes] at hread
    obtain ⟨b, hb, hread⟩ := Option.bind_eq_some_iff.mp hread
    obtain ⟨rest, hrest, hread⟩ := Option.bind_eq_some_iff.mp hread
    rw [readBytes, hM.byte h hb]
    show (readBytes M s (a + 1) n).bind _ = _
    rw [ih hrest]
    exact hread

/-- **One instruction.** -/
theorem exec_simulates (hM : M.Simulates M' R) {m m' : Machine S'} {s : S} (h : R s m.memory)
    {i : Instruction L} (hexec : exec M' p m i = some m') :
    ∃ t, exec M p (m.withMemory s) i = some (m'.withMemory t) ∧ R t m'.memory := by
  cases i with
  | label name =>
    obtain rfl := Option.some.inj hexec
    exact ⟨s, rfl, h⟩
  | mov r q =>
    obtain rfl := Option.some.inj hexec
    exact ⟨s, rfl, h⟩
  | load r v =>
    obtain rfl := Option.some.inj hexec
    exact ⟨s, rfl, h⟩
  | inc r =>
    obtain rfl := Option.some.inj hexec
    exact ⟨s, rfl, h⟩
  | sub r q =>
    obtain rfl := Option.some.inj hexec
    exact ⟨s, rfl, h⟩
  | push r =>
    obtain ⟨memory, hpush, rfl⟩ := Option.map_eq_some_iff.mp hexec
    obtain ⟨t, hpush', ht⟩ := hM.push h hpush
    exact ⟨t, Option.map_eq_some_iff.mpr ⟨t, hpush', rfl⟩, ht⟩
  | pop r =>
    obtain ⟨⟨v, memory⟩, hpop, rfl⟩ := Option.map_eq_some_iff.mp hexec
    obtain ⟨t, hpop', ht⟩ := hM.pop h hpop
    exact ⟨t, Option.map_eq_some_iff.mpr ⟨(v, t), hpop', rfl⟩, ht⟩
  | ret =>
    obtain ⟨⟨v, memory⟩, hpop, rfl⟩ := Option.map_eq_some_iff.mp hexec
    obtain ⟨t, hpop', ht⟩ := hM.pop h hpop
    exact ⟨t, Option.map_eq_some_iff.mpr ⟨(v, t), hpop', rfl⟩, ht⟩
  | cmpByte r v =>
    obtain ⟨b, hbyte, rfl⟩ := Option.map_eq_some_iff.mp hexec
    exact ⟨s, Option.map_eq_some_iff.mpr ⟨b, hM.byte h hbyte, rfl⟩, h⟩
  | jmp name =>
    obtain ⟨eip, heip, rfl⟩ := Option.map_eq_some_iff.mp hexec
    exact ⟨s, Option.map_eq_some_iff.mpr ⟨eip, heip, rfl⟩, h⟩
  | jz name =>
    rw [exec] at hexec ⊢
    by_cases hzf : m.zf = true
    · rw [if_pos hzf] at hexec
      rw [if_pos (show (m.withMemory s).zf = true from hzf)]
      obtain ⟨eip, heip, rfl⟩ := Option.map_eq_some_iff.mp hexec
      exact ⟨s, Option.map_eq_some_iff.mpr ⟨eip, heip, rfl⟩, h⟩
    · rw [if_neg hzf] at hexec
      rw [if_neg (show ¬ (m.withMemory s).zf = true from hzf)]
      obtain rfl := Option.some.inj hexec
      exact ⟨s, rfl, h⟩
  | call name =>
    obtain ⟨memory, hpush, hexec⟩ := Option.bind_eq_some_iff.mp hexec
    obtain ⟨eip, heip, hexec⟩ := Option.bind_eq_some_iff.mp hexec
    obtain rfl := Option.some.inj hexec
    obtain ⟨t, hpush', ht⟩ := hM.push h hpush
    refine ⟨t, Option.bind_eq_some_iff.mpr ⟨t, hpush', ?_⟩, ht⟩
    exact Option.bind_eq_some_iff.mpr ⟨eip, heip, rfl⟩
  | int80 =>
    obtain ⟨m₁, hsyscall, rfl⟩ := Option.map_eq_some_iff.mp hexec
    have hcall : ∃ t, syscall M (m.withMemory s) = some (m₁.withMemory t) ∧ R t m₁.memory := by
      unfold syscall at hsyscall ⊢
      by_cases hexit : m.regs .eax = 1
      · rw [if_pos hexit] at hsyscall
        rw [if_pos (show (m.withMemory s).regs .eax = 1 from hexit)]
        obtain rfl := Option.some.inj hsyscall
        exact ⟨s, rfl, h⟩
      · rw [if_neg hexit] at hsyscall
        rw [if_neg (show ¬ (m.withMemory s).regs .eax = 1 from hexit)]
        by_cases hwrite : m.regs .eax = 4 ∧ m.regs .ebx = 1
        · rw [if_pos hwrite] at hsyscall
          rw [if_pos (show (m.withMemory s).regs .eax = 4 ∧ (m.withMemory s).regs .ebx = 1
            from hwrite)]
          obtain ⟨bytes, hbytes, rfl⟩ := Option.map_eq_some_iff.mp hsyscall
          exact ⟨s, Option.map_eq_some_iff.mpr ⟨bytes, readBytes_simulates hM h hbytes, rfl⟩, h⟩
        · rw [if_neg hwrite] at hsyscall
          cases hsyscall
    obtain ⟨t, hcall, ht⟩ := hcall
    exact ⟨t, Option.map_eq_some_iff.mpr ⟨_, hcall, rfl⟩, ht⟩

/-- **One step.** -/
theorem step_simulates (hM : M.Simulates M' R) {m m' : Machine S'} {s : S} (h : R s m.memory)
    (hstep : step M' p m = some m') :
    ∃ t, step M p (m.withMemory s) = some (m'.withMemory t) ∧ R t m'.memory := by
  rw [step] at hstep ⊢
  show ∃ t, (match m.status, p[m.eip]? with
    | none, some i => exec M p (m.withMemory s) i
    | _, _ => none) = _ ∧ _
  split at hstep
  · exact exec_simulates hM h hstep
  · cases hstep

/-- **Whole runs.** -/
theorem runs_simulates (hM : M.Simulates M' R) {m m' : Machine S'} {s : S} (h : R s m.memory)
    (hruns : Runs M' p m m') :
    ∃ t, Runs M p (m.withMemory s) (m'.withMemory t) ∧ R t m'.memory := by
  induction hruns with
  | refl => exact ⟨s, .refl, h⟩
  | tail _ hstep ih =>
    obtain ⟨t₁, hruns, h₁⟩ := ih
    obtain ⟨t, hstep', ht⟩ := step_simulates hM h₁ hstep
    exact ⟨t, hruns.tail hstep', ht⟩

end X86

end Lib
