import AbOS.Lib.Extent
import AbOS.Lib.X86
import AbOS.Terminal.Printf

/-!
# The division routine

`_x86_div64_32` divides 64 bits by 32 with two `DIV` instructions.  `x86Div64_32` is what it
computes; here is the routine itself, as the list of its instructions.

When it is called as C calls a function, with two places for the results that are apart from each
other and from its part of the stack, it comes back with both results stored (`exec_code`).  There
is no divide error, whatever is divided (`x86Div64_32_exact`).
-/

set_option autoImplicit false

namespace AbOS

open X86

/-- `_x86_div64_32`, as it stands in `x86.s`. -/
def x86Div64_32Code : List Instr :=
  [.push .ebp,
    .mov .ebp .esp,
    .push .ebx,
    .xor .edx .edx,
    .load .eax .ebp 12,
    .load .ecx .ebp 16,
    .div .ecx,
    .mov .ebx .eax,
    .load .eax .ebp 8,
    .div .ecx,
    .load .esi .ebp 20,
    .store .esi 0 .eax,
    .store .esi 4 .ebx,
    .load .esi .ebp 24,
    .store .esi 0 .edx,
    .pop .ebx,
    .pop .ebp,
    .ret]

/-- `s` is at the first instruction: the arguments are on the stack, and the results have room. -/
structure Called (s : Cpu) (dividend : BitVec 64) (divisor quotient remainder : BitVec 32) :
    Prop where
  room : 8 ≤ (s.reg .esp).toNat
  top : (s.reg .esp).toNat + 24 ≤ 2 ^ 32
  argLow : word s.mem (s.reg .esp + 4) = dividend.extractLsb' 0 32
  argHigh : word s.mem (s.reg .esp + 8) = dividend.extractLsb' 32 32
  argDivisor : word s.mem (s.reg .esp + 12) = divisor
  argQuotient : word s.mem (s.reg .esp + 16) = quotient
  argRemainder : word s.mem (s.reg .esp + 20) = remainder
  quotientFits : quotient.toNat + 8 ≤ 2 ^ 32
  remainderFits : remainder.toNat + 4 ≤ 2 ^ 32
  quotientApart : quotient.toNat + 16 ≤ (s.reg .esp).toNat ∨
    (s.reg .esp).toNat + 24 ≤ quotient.toNat
  remainderApart : remainder.toNat + 12 ≤ (s.reg .esp).toNat ∨
    (s.reg .esp).toNat + 24 ≤ remainder.toNat
  apart : quotient.toNat + 8 ≤ remainder.toNat ∨ remainder.toNat + 4 ≤ quotient.toNat

/-- `t` is behind the return: the results are stored, and the stack, `EBP` and `EBX` are as they
were. -/
structure Returned (s t : Cpu) (quotient remainder : BitVec 32) (q : BitVec 64)
    (r : BitVec 32) : Prop where
  storedQuotient : word t.mem (quotient + 4) ++ word t.mem quotient = q
  storedRemainder : word t.mem remainder = r
  eip : t.eip = word s.mem (s.reg .esp)
  esp : t.reg .esp = s.reg .esp + 4
  ebp : t.reg .ebp = s.reg .ebp
  ebx : t.reg .ebx = s.reg .ebx

/-! ## The parts of the routine -/

/-- The first three instructions. -/
theorem exec_prologue (s : Cpu) : ∃ t,
    Run.exec Cpu.step s [.push .ebp, .mov .ebp .esp, .push .ebx] = some t ∧
      t.reg .ebp = s.reg .esp - 4 ∧ t.reg .esp = s.reg .esp - 4 - 4 ∧
      t.mem = setWord (setWord s.mem (s.reg .esp - 4) (s.reg .ebp)) (s.reg .esp - 4 - 4)
        (s.reg .ebx) := ⟨_, rfl, rfl, rfl, rfl⟩

/-- The two divisions leave the halves of the quotient in `EBX` and `EAX`. -/
theorem exec_division {s : Cpu} {dividend q : BitVec 64} {divisor r : BitVec 32}
    (hlow : word s.mem (s.reg .ebp + 8) = dividend.extractLsb' 0 32)
    (hhigh : word s.mem (s.reg .ebp + 12) = dividend.extractLsb' 32 32)
    (hdivisor : word s.mem (s.reg .ebp + 16) = divisor)
    (hdiv : x86Div64_32 dividend divisor = some (q, r)) : ∃ t,
    Run.exec Cpu.step s [.xor .edx .edx, .load .eax .ebp 12, .load .ecx .ebp 16, .div .ecx,
      .mov .ebx .eax, .load .eax .ebp 8, .div .ecx] = some t ∧ t.reg .ebx ++ t.reg .eax = q ∧
      t.reg .edx = r ∧ t.reg .ebp = s.reg .ebp ∧ t.reg .esp = s.reg .esp ∧ t.mem = s.mem := by
  rw [x86Div64_32] at hdiv
  split at hdiv
  · cases hdiv
  · rename_i ebx edx hfirst
    split at hdiv
    · cases hdiv
    · rename_i eax edx' hsecond
      cases hdiv
      simp only [BitVec.ofNat_eq_ofNat] at hlow hhigh hdivisor hfirst
      simp [Run.exec, Cpu.step, hlow, hhigh, hdivisor, hfirst, hsecond]

/-- The stores; the place for the remainder is looked up after the quotient has been stored. -/
theorem exec_results {s : Cpu} {quotient remainder : BitVec 32}
    (hquotient : word s.mem (s.reg .ebp + 20) = quotient)
    (hremainder : word (setWord (setWord s.mem quotient (s.reg .eax)) (quotient + 4) (s.reg .ebx))
      (s.reg .ebp + 24) = remainder) : ∃ t,
    Run.exec Cpu.step s [.load .esi .ebp 20, .store .esi 0 .eax, .store .esi 4 .ebx,
      .load .esi .ebp 24, .store .esi 0 .edx] = some t ∧
      t.mem = setWord (setWord (setWord s.mem quotient (s.reg .eax)) (quotient + 4) (s.reg .ebx))
        remainder (s.reg .edx) ∧ t.reg .esp = s.reg .esp := by
  simp only [BitVec.ofNat_eq_ofNat] at hquotient hremainder
  simp [Run.exec, Cpu.step, hquotient, hremainder]

/-- The last three instructions. -/
theorem exec_epilogue (s : Cpu) : ∃ t,
    Run.exec Cpu.step s [.pop .ebx, .pop .ebp, .ret] = some t ∧
      t.mem = s.mem ∧ t.reg .ebx = word s.mem (s.reg .esp) ∧
      t.reg .ebp = word s.mem (s.reg .esp + 4) ∧
      t.eip = word s.mem (s.reg .esp + 4 + 4) ∧ t.reg .esp = s.reg .esp + 4 + 4 + 4 :=
  ⟨_, rfl, rfl, rfl, rfl, rfl, rfl⟩

/-! ## The whole routine -/

section call

variable {s : Cpu} {dividend q : BitVec 64} {divisor quotient remainder r : BitVec 32}

/-- The results are not stored over the routine's part of the stack. -/
theorem Called.word_setWord (h : Called s dividend divisor quotient remainder) (m : ByteStore)
    {a : BitVec 32} (hle : (s.reg .esp).toNat ≤ a.toNat + 8)
    (hlt : a.toNat + 4 ≤ (s.reg .esp).toNat + 24) (v w : BitVec 32) :
    word (setWord (setWord m quotient v) (quotient + 4) w) a = word m a ∧
      word (setWord m remainder v) a = word m a := by
  have hfits := h.quotientFits
  have hquotient := h.quotientApart
  have hremainder := h.remainderApart
  refine ⟨?_, word_setWord_of_apart (by omega)⟩
  rw [word_setWord_of_apart (by bv_omega), word_setWord_of_apart (by omega)]

/-- What is pushed lies in front of the return address and the arguments. -/
theorem Called.word_prologue (h : Called s dividend divisor quotient remainder) {a : BitVec 32}
    (hle : (s.reg .esp).toNat ≤ a.toNat) (v w : BitVec 32) :
    word (setWord (setWord s.mem (s.reg .esp - 4) v) (s.reg .esp - 4 - 4) w) a = word s.mem a := by
  have hroom := h.room
  rw [word_setWord_of_apart (by bv_omega), word_setWord_of_apart (by bv_omega)]

/-- **The routine** stores what `x86Div64_32` says. -/
theorem exec_code (h : Called s dividend divisor quotient remainder)
    (hdiv : x86Div64_32 dividend divisor = some (q, r)) : ∃ t,
    Run.exec Cpu.step s x86Div64_32Code = some t ∧ Returned s t quotient remainder q r := by
  have hroom := h.room
  have htop := h.top
  have hfits := h.quotientFits
  have hapart := h.apart
  obtain ⟨s₁, hrun₁, hebp₁, hesp₁, hmem₁⟩ := exec_prologue s
  have hargument : ∀ k : BitVec 32, k.toNat ≤ 20 →
      word s₁.mem (s₁.reg .ebp + (k + 4)) = word s.mem (s.reg .esp + k) := by
    intro k hk
    have haddress : s₁.reg .ebp + (k + 4) = s.reg .esp + k := by
      rw [hebp₁]
      bv_omega
    rw [haddress, hmem₁, h.word_prologue (by bv_omega)]
  obtain ⟨s₂, hrun₂, hq, hr, hebp₂, hesp₂, hmem₂⟩ := exec_division
    ((hargument 4 (by decide)).trans h.argLow) ((hargument 8 (by decide)).trans h.argHigh)
    ((hargument 12 (by decide)).trans h.argDivisor) hdiv
  rw [← hebp₂, ← hmem₂] at hargument
  have hlast : word (setWord (setWord s₂.mem quotient (s₂.reg .eax)) (quotient + 4) (s₂.reg .ebx))
      (s₂.reg .ebp + 24) = remainder := by
    rw [(h.word_setWord s₂.mem (by bv_omega) (by bv_omega) _ _).1]
    exact (hargument 20 (by decide)).trans h.argRemainder
  obtain ⟨s₃, hrun₃, hmem₃, hesp₃⟩ :=
    exec_results ((hargument 16 (by decide)).trans h.argQuotient) hlast
  obtain ⟨t, hrun₄, hmem₄, hebx, hebp, heip, hesp⟩ := exec_epilogue s₃
  have hrun : Run.exec Cpu.step s x86Div64_32Code = some t :=
    Run.exec_append.mpr ⟨s₁, hrun₁, Run.exec_append.mpr
      ⟨s₂, hrun₂, Run.exec_append.mpr ⟨s₃, hrun₃, hrun₄⟩⟩⟩
  -- what the routine has on the stack is not overwritten
  have hstack : ∀ a : BitVec 32, (s.reg .esp).toNat ≤ a.toNat + 8 →
      a.toNat + 4 ≤ (s.reg .esp).toNat + 24 → word s₃.mem a = word s₁.mem a := by
    intro a hle hlt
    rw [hmem₃, (h.word_setWord _ hle hlt _ 0).2, (h.word_setWord _ hle hlt _ _).1, hmem₂]
  rw [hesp₃, hesp₂, hesp₁] at hebx hebp heip hesp
  have hup : s.reg .esp - 4 - 4 + 4 = s.reg .esp - 4 := by bv_omega
  have hup' : s.reg .esp - 4 + 4 = s.reg .esp := by bv_omega
  rw [hup] at hebp heip hesp
  rw [hup'] at heip hesp
  have hhigh : word t.mem (quotient + 4) = s₂.reg .ebx := by
    rw [hmem₄, hmem₃, word_setWord_of_apart (by bv_omega), word_setWord_self]
  have hlow : word t.mem quotient = s₂.reg .eax := by
    rw [hmem₄, hmem₃, word_setWord_of_apart (by omega), word_setWord_of_apart (by bv_omega),
      word_setWord_self]
  refine ⟨t, hrun, ?_, ?_, ?_, hesp, ?_, ?_⟩
  · rw [hhigh, hlow, hq]
  · rw [hmem₄, hmem₃, word_setWord_self, hr]
  · rw [heip, hstack _ (by omega) (by omega), hmem₁, h.word_prologue (Nat.le_refl _)]
  · rw [hebp, hstack _ (by bv_omega) (by bv_omega), hmem₁, word_setWord_of_apart (by bv_omega),
      word_setWord_self]
  · rw [hebx, hstack _ (by bv_omega) (by bv_omega), hmem₁, word_setWord_self]

end call

/-- **The division is exact.**  The two `DIV` instructions give a quotient and a remainder for every
dividend and every divisor but 0, and every call of the routine stores these. -/
theorem x86Div64_32_exact (dividend : BitVec 64) {divisor : BitVec 32} (h : divisor ≠ 0) : ∃ q r,
    x86Div64_32 dividend divisor = some (q, r) ∧
      dividend.toNat = q.toNat * divisor.toNat + r.toNat ∧ r.toNat < divisor.toNat ∧
      ∀ s quotient remainder, Called s dividend divisor quotient remainder → ∃ t,
        Run.exec Cpu.step s x86Div64_32Code = some t ∧
          Returned s t quotient remainder q r := by
  have hpos : 0 < divisor.toNat :=
    Nat.pos_of_ne_zero fun hzero ↦ h (BitVec.eq_of_toNat_eq hzero)
  obtain ⟨q, r, hdiv, hq, hr⟩ := x86Div64_32_eq dividend hpos
  refine ⟨q, r, hdiv, ?_, ?_, fun s quotient remainder hcalled ↦ exec_code hcalled hdiv⟩
  · rw [hq, hr]
    exact (Nat.div_add_mod' _ _).symm
  · rw [hr]
    exact Nat.mod_lt _ hpos

/-- A call that divides `0x1234567890` by 7, with the stack at `0x1000`. -/
def callSeven : Cpu where
  reg r := if r = .esp then 0x1000 else 0
  mem a := [0x00, 0x00, 0x10, 0x00, 0x90, 0x78, 0x56, 0x34, 0x12, 0x00, 0x00, 0x00,
    0x07, 0x00, 0x00, 0x00, 0x00, 0x20, 0x00, 0x00, 0x00, 0x30, 0x00, 0x00].getD (a - 0x1000) 0
  eip := 0

theorem x86Div64_32_exact_seven : ∃ q r, x86Div64_32 0x1234567890 7 = some (q, r) ∧
    (0x1234567890 : BitVec 64).toNat = q.toNat * (7 : BitVec 32).toNat + r.toNat ∧
      r.toNat < (7 : BitVec 32).toNat ∧
      ∃ t, Run.exec Cpu.step callSeven x86Div64_32Code = some t ∧
        Returned callSeven t 0x2000 0x3000 q r := by
  have hseven : (7 : BitVec 32) ≠ 0 := by decide
  obtain ⟨q, r, hdiv, hexact, hlt, hcall⟩ := x86Div64_32_exact 0x1234567890 hseven
  refine ⟨q, r, hdiv, hexact, hlt, hcall callSeven 0x2000 0x3000 ?_⟩
  exact ⟨by decide, by decide, by decide, by decide, by decide, by decide, by decide, by decide,
    by decide, by decide, by decide, by decide⟩

end AbOS
