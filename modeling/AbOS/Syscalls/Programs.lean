import AbOS.Lib.Run
import AbOS.Syscalls.Close

/-!
# Running a program

`exec` of the shell and `sys_exit` are two halves of one protocol.  The first opens the file, moves
`user_stack` up by a page, maps a new frame there and enters the program with the descriptor in
`EDX`; the second closes that descriptor, moves `user_stack` back and calls `shell` again.

A `Launcher` is the kernel with `user_stack` and the program that runs, and an event is `exec`,
`sys_exit`, or anything else, which may do to the kernel what it likes: neither a program nor
another command of the shell has access to `user_stack`.

`user_stack` is balanced.  The rest is not.  The stack pointer of every program is `USER_STACK`, and
the page that was mapped for it is another one, so a history returns what it takes exactly when it
runs no program (`Launcher.returnsResources_iff`).  Nor does `sys_exit` take the page of the stack
back: its frame stays in use (`Launcher.exec_exit_leaks`).
-/

set_option autoImplicit false

namespace AbOS

/-- `USER_STACK`. -/
def userStackPointer : ℕ := 0xBFFFF000

/-- The value of `user_stack` in its definition. -/
def userStackStart : ℕ := 0xB0000000

/-- A program: its descriptor, in `EDX`, its entry point and its stack pointer; and, for the
specification, the kernel and `user_stack` before its `exec`. -/
structure Program where
  descriptor : ℤ
  entry : ℕ
  stackPointer : ℕ
  kernelBefore : Kernel
  stackBefore : ℕ

/-- The kernel, `user_stack`, and the program if one runs. -/
structure Launcher where
  kernel : Kernel
  userStack : ℕ
  running : Option Program

/-- `exec` with a path and what `sys_open` finds in `ECX`, up to the `iret`; `sys_exit` with a value
in `EDX`; or anything else that the program or the shell does, with the kernel that results. -/
inductive LauncherEvent where
  | exec (path : List UInt8) (flags leftover : ℕ)
  | exit (fd : ℤ)
  | other (kernel : Kernel)

namespace Launcher

/-- The shell after boot. -/
def start (kernel : Kernel) : Launcher := ⟨kernel, userStackStart, none⟩

/-- The branch of `exec` in `shell`, behind the call of `open`. -/
def enter (s : Launcher) (fd : ℤ) (kernel : Kernel) : Launcher :=
  let userStack := (s.userStack + pageSize) % 2 ^ 32
  { kernel := { kernel with vmm := kernel.vmm.mapPages Vmm.freshFrame userStack 1 }
    userStack
    running := some {
      descriptor := fd
      entry := (kernel.openFileTable fd.toNat).address
      stackPointer := userStackPointer
      kernelBefore := s.kernel
      stackBefore := s.userStack } }

/-- `sys_exit`, up to the call of `shell`. -/
def sysExit (s : Launcher) (fd : ℤ) : Launcher :=
  if fd < 0 then { s with running := none }
  else
    { kernel := (s.kernel.sysClose fd).2
      userStack := (s.userStack + (2 ^ 32 - pageSize)) % 2 ^ 32
      running := none }

def step (s : Launcher) : LauncherEvent → Option Launcher
  | .exec path flags leftover =>
    if s.running.isSome then none
    else
      (s.kernel.sysOpen path flags leftover).map fun (fd, kernel) ↦
        if fd < 0 then { s with kernel } else s.enter fd kernel
  | .exit fd => if s.running.isSome then some (s.sysExit fd) else none
  | .other kernel => some { s with kernel }

/-- Each program ends with the descriptor it was given. -/
def OwnDescriptor (s : Launcher) : LauncherEvent → Prop
  | .exit fd => ∀ p, s.running = some p → fd = p.descriptor
  | _ => True

/-- The addresses that `user_stack` is meant to go through. -/
def StackAddress (v : ℕ) : Prop := userStackStart ≤ v ∧ v < 0xC0000000

/-- What the kernel had before is there again, but for frames that have become page tables. -/
structure Returned (p : Program) (t : Launcher) : Prop where
  userStack : t.userStack = p.stackBefore
  pages : ∀ v, StackAddress v → (t.kernel.vmm.walk v = none ↔ p.kernelBefore.vmm.walk v = none)
  frames : ∃ tables : List ℕ, tables.Nodup ∧
    (∀ b ∈ tables, t.kernel.vmm.IsPaging b ∧ p.kernelBefore.vmm.pmm.isSet b = false) ∧
    (∀ b, t.kernel.vmm.pmm.isSet b =
      (decide (b ∈ tables) || p.kernelBefore.vmm.pmm.isSet b)) ∧
    t.kernel.vmm.pmm.usedBlocks =
      p.kernelBefore.vmm.pmm.usedBlocks + BitVec.ofNat 32 tables.length

/-- **Running a program takes nothing**: its stack pointer lies in the page that `exec` maps for it,
and its exit gives back what was taken. -/
def ReturnsResources (s : Launcher) (e : LauncherEvent) : Prop :=
  ∀ t, s.step e = some t →
    match e with
    | .exec .. => ∀ p, t.running = some p → p.stackPointer / pageSize = t.userStack / pageSize
    | .exit _ => ∀ p, s.running = some p → Returned p t
    | .other _ => True

/-- `exec` is given a path that leads to no file. -/
def StartsNothing (s : Launcher) : LauncherEvent → Prop
  | .exec path .. => (s.kernel.fs.getInode path).iNumber = 0
  | _ => True

/-- `user_stack` is where it was at the start, or one page further for the program that runs. -/
def Inv (s : Launcher) : Prop :=
  match s.running with
  | none => s.userStack = userStackStart
  | some p => s.userStack = userStackStart + pageSize ∧ 0 ≤ p.descriptor

variable {s t : Launcher} {path : List UInt8} {flags leftover : ℕ}

/-! ## Single events -/

/-- `exec` comes back to the prompt when the path leads to no file, and starts a program when it
leads to one. -/
theorem step_exec (h : s.step (.exec path flags leftover) = some t) : s.running = none ∧
    ((s.kernel.fs.getInode path).iNumber = 0 ∧ t = s ∨
      (s.kernel.fs.getInode path).iNumber ≠ 0 ∧ ∃ fd kernel, 0 ≤ fd ∧
        s.kernel.sysOpen path flags leftover = some (fd, kernel) ∧ t = s.enter fd kernel) := by
  rw [step] at h
  split at h
  · cases h
  · rename_i hrunning
    refine ⟨Option.not_isSome_iff_eq_none.mp hrunning, ?_⟩
    obtain ⟨⟨fd, kernel⟩, hopen, rfl⟩ := Option.map_eq_some_iff.mp h
    rcases Kernel.sysOpen_cases hopen rfl with ⟨hzero, rfl, rfl⟩ | ⟨hne, hfd, -⟩
    · exact Or.inl ⟨hzero, if_pos (by decide)⟩
    · have hpos : 0 ≤ fd := hfd ▸ Int.natCast_nonneg _
      exact Or.inr ⟨hne, fd, kernel, hpos, hopen, if_neg (Int.not_lt.mpr hpos)⟩

theorem step_exit {fd : ℤ} (h : s.step (.exit fd) = some t) :
    (∃ p, s.running = some p) ∧ t = s.sysExit fd := by
  rw [step] at h
  split at h
  · cases h
    exact ⟨Option.isSome_iff_exists.mp ‹_›, rfl⟩
  · cases h

/-- **`user_stack` is balanced.** -/
theorem Inv.step {e : LauncherEvent} (h : s.Inv) (hown : s.OwnDescriptor e)
    (hstep : s.step e = some t) : t.Inv := by
  cases e with
  | exec path flags leftover =>
    obtain ⟨hrunning, ⟨-, rfl⟩ | ⟨-, fd, kernel, hfd, -, rfl⟩⟩ := step_exec hstep
    · exact h
    · rw [Inv, hrunning] at h
      have hstack : s.userStack = userStackStart := h
      refine ⟨?_, hfd⟩
      show (s.userStack + pageSize) % 2 ^ 32 = _
      rw [hstack]
      decide
  | exit fd =>
    obtain ⟨⟨p, hp⟩, rfl⟩ := step_exit hstep
    rw [Inv, hp] at h
    obtain ⟨hstack, hpos⟩ : s.userStack = userStackStart + pageSize ∧ 0 ≤ p.descriptor := h
    rw [hown p hp, sysExit, if_neg (Int.not_lt.mpr hpos)]
    show (s.userStack + (2 ^ 32 - pageSize)) % 2 ^ 32 = userStackStart
    rw [hstack]
    decide
  | other kernel =>
    cases hstep
    exact h

/-- A program's stack pointer lies in another page than the one that was mapped. -/
theorem not_stackMapped (h : s.Inv) (hrunning : s.running = none) (fd : ℤ) (kernel : Kernel) :
    userStackPointer / pageSize ≠ (s.enter fd kernel).userStack / pageSize := by
  rw [Inv, hrunning] at h
  have hstack : s.userStack = userStackStart := h
  show _ ≠ (s.userStack + pageSize) % 2 ^ 32 / pageSize
  rw [hstack]
  decide

/-- An event that returns what it takes starts no program. -/
theorem startsNothing_of_returns {e : LauncherEvent} (h : s.Inv) (hreturns : s.ReturnsResources e)
    (hstep : s.step e = some t) : s.StartsNothing e := by
  cases e with
  | exec path flags leftover =>
    obtain ⟨hrunning, ⟨hzero, -⟩ | ⟨-, fd, kernel, -, -, rfl⟩⟩ := step_exec hstep
    · exact hzero
    · exact absurd (hreturns _ hstep _ rfl) (not_stackMapped h hrunning fd kernel)
  | _ => trivial

end Launcher

/-! ## What an exit leaves behind -/

namespace Vmm

/-- `map_address` gives no frame back. -/
theorem isSet_mapAddressFuel {b : ℕ} : ∀ (fuel : ℕ) {m : Vmm} (phys virt flags : ℕ),
    m.pmm.isSet b = true → (mapAddressFuel fuel m phys virt flags).2.pmm.isSet b = true
  | 0, _, _, _, _, h => h
  | fuel + 1, m, phys, virt, flags, h => by
    have hq := Pmm.isSet_allocateBlocks h 1
    rw [mapAddressFuel]
    split
    · rename_i h0
      rw [createPageTable, if_pos h0]
      dsimp only
      by_cases hblock : (m.pmm.allocateBlocks 1).1 = 0
      · rw [if_pos hblock]
        exact hq
      · rw [if_neg hblock]
        exact isSet_mapAddressFuel fuel _ _ _ hq
    · exact h

/-- The bits that `sys_close` clears are those of addresses of pages. -/
theorem freedBits_mod {m : Vmm} {address n b : ℕ} (h : b ∈ m.freedBits address n) :
    b % 4096 = 0 := by
  obtain ⟨-, e, rfl⟩ := exists_entry_freedBits h
  rw [frameOf, show 4096 = 2 ^ 12 by decide, Nat.and_mod_two_pow]
  exact Nat.and_zero _

end Vmm

/-- The other bits are kept. -/
theorem Kernel.isSet_sysClose (s : Kernel) (fd : ℤ) {b : ℕ} (hb : b % 4096 ≠ 0) :
    (s.sysClose fd).2.vmm.pmm.isSet b = s.vmm.pmm.isSet b := by
  have hclose : ∀ address n, (s.vmm.closePages address n).pmm.isSet b = s.vmm.pmm.isSet b := by
    intro address n
    rw [Vmm.closePages_eq]
    dsimp only
    rw [Pmm.isSet_foldl_freeBlocks fun b hb ↦ (Vmm.mem_freedBits hb).2,
      decide_eq_false fun hmem ↦ hb (Vmm.freedBits_mod hmem)]
    rfl
  rw [sysClose]
  split
  · rfl
  · dsimp only
    split
    · rfl
    · split
      · exact hclose _ _
      · rfl

namespace Launcher

variable {s t u : Launcher} {path : List UInt8} {flags leftover b : ℕ}

/-- **The frame of the stack is not given back**: a program that does nothing but exit leaves it in
use, unless its number happens to be the address of a page. -/
theorem exec_exit_leaks {p : Program} {kernel : Kernel}
    (hopen : s.kernel.sysOpen path flags leftover = some (p.descriptor, kernel))
    (hexec : s.step (.exec path flags leftover) = some u) (hp : u.running = some p)
    (hexit : u.step (.exit p.descriptor) = some t)
    (hfind : kernel.vmm.pmm.findFreeBlocks 1 = some b) (hb : b % 4096 ≠ 0) :
    kernel.vmm.pmm.isSet b = false ∧ t.kernel.vmm.pmm.isSet b = true := by
  refine ⟨(Pmm.findFreeBlocks_one_lt hfind).2.1, ?_⟩
  obtain ⟨hrunning, ⟨-, rfl⟩ | ⟨-, fd, kernel', hfd, hopen', rfl⟩⟩ := step_exec hexec
  · rw [hrunning] at hp
    cases hp
  · rw [hopen] at hopen'
    obtain ⟨rfl, rfl⟩ : p.descriptor = fd ∧ kernel = kernel' := by simpa using hopen'
    obtain ⟨-, rfl⟩ := step_exit hexit
    rw [sysExit, if_neg (Int.not_lt.mpr hfd)]
    dsimp only
    rw [Kernel.isSet_sysClose _ _ hb]
    have hset : kernel.vmm.afterFrame.pmm.isSet b = true := by
      show (kernel.vmm.pmm.allocateBlocks 1).2.isSet b = true
      rw [(Pmm.allocateBlocks_one hfind).2.2, decide_eq_true rfl, Bool.true_or]
    exact Vmm.isSet_mapAddressFuel _ _ _ _ hset

/-! ## Histories -/

/-- **A history returns what its programs take** exactly when it runs none. -/
theorem returnsResources_iff {kernel : Kernel} {events : List LauncherEvent}
    (hrun : Run.exec step (start kernel) events = some t)
    (hown : Run.Meets step OwnDescriptor (start kernel) events) :
    Run.Meets step ReturnsResources (start kernel) events ↔
      Run.Meets step StartsNothing (start kernel) events := by
  constructor
  · intro hreturns
    refine Run.Meets.mono_of_exec (C := fun s e ↦ ∀ t, s.step e = some t → s.StartsNothing e)
      (fun s e t hstep hC ↦ hC t hstep) hrun ?_
    refine Run.Meets.of_invariant Inv (fun s e t h hC hstep ↦ h.step hC.2 hstep)
      (fun s e h hC t hstep ↦ ?_) rfl (hreturns.and hown)
    exact startsNothing_of_returns h hC.1 hstep
  · refine Run.Meets.of_invariant (fun s ↦ s.running = none) (fun s e t h hC hstep ↦ ?_)
      (fun s e h hC t hstep ↦ ?_) rfl
    · cases e with
      | exec path flags leftover =>
        obtain ⟨-, ⟨-, rfl⟩ | ⟨hne, -⟩⟩ := step_exec hstep
        · exact h
        · exact absurd hC hne
      | exit fd =>
        obtain ⟨-, rfl⟩ := step_exit hstep
        rw [sysExit]
        split <;> rfl
      | other kernel =>
        cases hstep
        exact h
    · cases e with
      | exec path flags leftover =>
        intro p hp
        obtain ⟨-, ⟨-, rfl⟩ | ⟨hne, -⟩⟩ := step_exec hstep
        · rw [h] at hp
          cases hp
        · exact absurd hC hne
      | exit fd =>
        intro p hp
        rw [h] at hp
        cases hp
      | other kernel => trivial

theorem step_twoFiles : (start Kernel.twoFiles).step (.exec [0x61] 0x21 0) =
    some ((start Kernel.twoFiles).enter 0 Kernel.oneOpen) := by
  have hopen : (start Kernel.twoFiles).kernel.sysOpen [0x61] 0x21 0 = some (0, Kernel.oneOpen) :=
    Kernel.twoFiles_sysOpen
  rw [step, if_neg (by decide), hopen]
  rfl

/-- The file `a` is executed and exits. -/
theorem not_returnsResources_cycle : ∃ t,
    Run.exec step (start Kernel.twoFiles) [.exec [0x61] 0x21 0, .exit 0] = some t ∧
    t.userStack = userStackStart ∧
    ¬ Run.Meets step ReturnsResources (start Kernel.twoFiles) [.exec [0x61] 0x21 0, .exit 0] := by
  have hrun : Run.exec step (start Kernel.twoFiles) [.exec [0x61] 0x21 0, .exit 0] =
      some (((start Kernel.twoFiles).enter 0 Kernel.oneOpen).sysExit 0) :=
    Run.exec_cons.mpr ⟨_, step_twoFiles, rfl⟩
  have hown : Run.Meets step OwnDescriptor (start Kernel.twoFiles) [.exec [0x61] 0x21 0, .exit 0] := by
    refine .cons trivial step_twoFiles ⟨fun p hp ↦ ?_, fun _ _ ↦ trivial⟩
    cases hp
    rfl
  refine ⟨_, hrun, rfl, fun hreturns ↦ ?_⟩
  have hzero : (Kernel.twoFiles.fs.getInode [0x61]).iNumber = 0 :=
    ((returnsResources_iff hrun hown).mp hreturns).1
  have hfile : Kernel.twoFiles.fs.getInode [0x61] =
      diskInode Kernel.twoFilesDisk Kernel.oneEntrySuperblock 4 :=
    Kernel.twoFiles_getInode 0 (by decide)
  rw [hfile] at hzero
  exact absurd (hzero.symm.trans (Kernel.twoFiles_diskInode 0 (by decide)).1) (by decide)

/-- The file `a` is executed: its stack pointer is far from its stack. -/
theorem not_returnsResources_twoFiles : ∃ t,
    (start Kernel.twoFiles).step (.exec [0x61] 0x21 0) = some t ∧
    (∃ p, t.running = some p ∧ p.descriptor = 0 ∧ p.stackPointer = 0xBFFFF000) ∧
    t.userStack = 0xB0001000 ∧ ¬ (start Kernel.twoFiles).ReturnsResources (.exec [0x61] 0x21 0) := by
  refine ⟨_, step_twoFiles, ⟨_, rfl, rfl, rfl⟩, rfl, fun hreturns ↦ ?_⟩
  exact not_stackMapped (s := start Kernel.twoFiles) rfl rfl _ _ (hreturns _ step_twoFiles _ rfl)

end Launcher

end AbOS
