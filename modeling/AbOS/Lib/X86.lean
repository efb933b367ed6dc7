import AbOS.Lib.ByteStore
import AbOS.Lib.Run
import Mathlib.Logic.Function.Basic

/-!
# Instructions of the 80386

The few instructions that a routine without jumps needs: the stack, moves between registers and
memory, `XOR`, `DIV` and the return.  A routine is a list of instructions, and `Run.exec step` runs
it.  `DIV` has no result on a divide error, which is a divisor of 0 or a quotient of more than 32
bits.

The flags are left out: no instruction here reads them.
-/

set_option autoImplicit false

namespace X86

inductive Reg where
  | eax
  | ebx
  | ecx
  | edx
  | esi
  | ebp
  | esp
  deriving DecidableEq, Repr

/-- The registers and the memory; `eip` is only set by a return. -/
structure Cpu where
  reg : Reg → BitVec 32
  mem : ByteStore
  eip : BitVec 32

inductive Instr where
  | push (src : Reg)
  | pop (dst : Reg)
  | mov (dst src : Reg)
  | load (dst base : Reg) (disp : BitVec 32)
  | store (base : Reg) (disp : BitVec 32) (src : Reg)
  | xor (dst src : Reg)
  | div (src : Reg)
  | ret
  deriving DecidableEq, Repr

/-- The word at an address. -/
def word (m : ByteStore) (a : BitVec 32) : BitVec 32 := BitVec.ofNat 32 (m.readWord a.toNat)

def setWord (m : ByteStore) (a v : BitVec 32) : ByteStore := m.writeWord a.toNat v.toNat

/-- `DIV`: quotient and remainder of `EDX:EAX`, or a divide error. -/
def divide (edx eax divisor : BitVec 32) : Option (BitVec 32 × BitVec 32) :=
  if divisor = 0 then none
  else if 2 ^ 32 ≤ (edx ++ eax).toNat / divisor.toNat then none
  else some (BitVec.ofNat 32 ((edx ++ eax).toNat / divisor.toNat),
    BitVec.ofNat 32 ((edx ++ eax).toNat % divisor.toNat))

theorem toNat_append32 (x y : BitVec 32) : (x ++ y).toNat = 2 ^ 32 * x.toNat + y.toNat := by
  rw [BitVec.toNat_append, ← Nat.shiftLeft_add_eq_or_of_lt y.isLt, Nat.shiftLeft_eq, Nat.mul_comm]

/-- There is no divide error when the high half is less than the divisor. -/
theorem divide_eq (edx eax divisor : BitVec 32) (h : edx.toNat < divisor.toNat) :
    ∃ q r, divide edx eax divisor = some (q, r) ∧
      q.toNat = (2 ^ 32 * edx.toNat + eax.toNat) / divisor.toNat ∧
      r.toNat = (2 ^ 32 * edx.toNat + eax.toNat) % divisor.toNat := by
  have hzero : divisor ≠ 0 := fun he ↦ by
    rw [he] at h
    exact absurd h (Nat.not_lt_zero _)
  have hlt : (2 ^ 32 * edx.toNat + eax.toNat) / divisor.toNat < 2 ^ 32 := by
    refine Nat.div_lt_of_lt_mul ?_
    have heax := eax.isLt
    calc 2 ^ 32 * edx.toNat + eax.toNat < 2 ^ 32 * (edx.toNat + 1) := by omega
      _ ≤ 2 ^ 32 * divisor.toNat := Nat.mul_le_mul_left _ h
      _ = divisor.toNat * 2 ^ 32 := Nat.mul_comm _ _
  have hmod : (2 ^ 32 * edx.toNat + eax.toNat) % divisor.toNat < 2 ^ 32 :=
    Nat.lt_trans (Nat.mod_lt _ (Nat.zero_lt_of_lt h)) divisor.isLt
  refine ⟨BitVec.ofNat 32 ((2 ^ 32 * edx.toNat + eax.toNat) / divisor.toNat),
    BitVec.ofNat 32 ((2 ^ 32 * edx.toNat + eax.toNat) % divisor.toNat), ?_, ?_, ?_⟩
  · rw [divide, if_neg hzero, toNat_append32, if_neg (Nat.not_le.mpr hlt)]
  · rw [BitVec.toNat_ofNat, Nat.mod_eq_of_lt hlt]
  · rw [BitVec.toNat_ofNat, Nat.mod_eq_of_lt hmod]

namespace Cpu

def set (s : Cpu) (r : Reg) (v : BitVec 32) : Cpu :=
  { s with reg := Function.update s.reg r v }

def setWord (s : Cpu) (a v : BitVec 32) : Cpu := { s with mem := X86.setWord s.mem a v }

def step (s : Cpu) : Instr → Option Cpu
  | .push src => some ((s.set .esp (s.reg .esp - 4)).setWord (s.reg .esp - 4) (s.reg src))
  | .pop dst => some ((s.set .esp (s.reg .esp + 4)).set dst (word s.mem (s.reg .esp)))
  | .mov dst src => some (s.set dst (s.reg src))
  | .load dst base disp => some (s.set dst (word s.mem (s.reg base + disp)))
  | .store base disp src => some (s.setWord (s.reg base + disp) (s.reg src))
  | .xor dst src => some (s.set dst (s.reg dst ^^^ s.reg src))
  | .div src =>
    match divide (s.reg .edx) (s.reg .eax) (s.reg src) with
    | none => none
    | some (q, r) => some ((s.set .eax q).set .edx r)
  | .ret => some { s.set .esp (s.reg .esp + 4) with eip := word s.mem (s.reg .esp) }

end Cpu

/-! ## Memory -/

variable {m : ByteStore} {a b v : BitVec 32}

theorem word_setWord_self : word (setWord m a v) a = v := by
  rw [word, setWord, ByteStore.readWord_writeWord v.isLt, BitVec.ofNat_toNat, BitVec.setWidth_eq]

theorem word_setWord_of_apart (h : b.toNat + 4 ≤ a.toNat ∨ a.toNat + 4 ≤ b.toNat) :
    word (setWord m a v) b = word m b := by
  rw [word, setWord, ByteStore.readWord_writeWord_of_apart h]
  rfl

/-! ## Registers -/

namespace Cpu

variable {s : Cpu} {r r' : Reg}

@[simp] theorem reg_set_self (s : Cpu) (r : Reg) (v : BitVec 32) : (s.set r v).reg r = v :=
  Function.update_self ..

@[simp] theorem reg_set_of_ne (h : r' ≠ r) (v : BitVec 32) : (s.set r v).reg r' = s.reg r' :=
  Function.update_of_ne h ..

@[simp] theorem mem_set (s : Cpu) (r : Reg) (v : BitVec 32) : (s.set r v).mem = s.mem := rfl

@[simp] theorem reg_setWord (s : Cpu) (a v : BitVec 32) : (s.setWord a v).reg = s.reg := rfl

@[simp] theorem mem_setWord (s : Cpu) (a v : BitVec 32) :
    (s.setWord a v).mem = X86.setWord s.mem a v := rfl

end Cpu

end X86
