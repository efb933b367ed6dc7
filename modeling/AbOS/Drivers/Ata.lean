import AbOS.Fs.Inode
import AbOS.Lib.Ports
import AbOS.Lib.Run
import Mathlib.Data.Nat.Bitwise

/-!
# The disk driver

Everything above it takes `rw_sectors` for a copy between the disk and memory.  What it does is to
write six registers, and then to wait for the drive before each sector and to move 256 words through
one port.  It never looks at anything but the busy bit.

`rwSectors` is the driver, over any ports.  `Ata` is what is documented of a drive with 28-bit
addresses: it is busy for a while before each sector it hands out, and after each sector it gets, for
as long as it likes (`Ata.delays`); the data port gives any words when there is no sector to move
(`Ata.idleWords`), and forgets what comes then; a command that comes while the drive is busy is lost.
The results are about any device that behaves so (`IsAta`).

* `Ready.rwSectors_read`, `Ready.rwSectors_write` — from a drive that is ready, as many sectors are
  moved as it is told, whatever the delays, and the drive is ready again.  The flush at the end of a
  write reaches the drive only if the last sector takes it no longer than the 15 reads in between.
* `rwSectors_copies_iff` — the call is the copy that it stands for exactly for 1 to 256 sectors: with
  0 the drive is left with sectors to move, and beyond 256 the loop goes on when the drive, which has
  been told a number of eight bits, has nothing more.
* `runCalls_refines` — a whole run of calls does to the disk and to memory what the copies do.
-/

set_option autoImplicit false

namespace AbOS

open ByteStore

universe u v

/-! ## The driver -/

section Driver

variable {σ : Type u} (D : Ports σ)

/-- `READ`. -/
def ataRead : ℕ := 0x20

/-- `WRITE`. -/
def ataWrite : ℕ := 0x30

/-- The registers for the sectors `starting_sector` and after, and the command. -/
def selectSectors (sectors startingSector readwrite : ℕ) : List (ℕ × ℕ) :=
  [(0x1F6, 0xE0 ||| (startingSector >>> 24 &&& 0x0F)), (0x1F2, sectors % 2 ^ 8),
    (0x1F3, startingSector &&& 0xFF), (0x1F4, startingSector >>> 8 &&& 0xFF),
    (0x1F5, startingSector >>> 16 &&& 0xFF), (0x1F7, readwrite)]

/-- The loop of `rw_sectors` that reads. -/
def readLoop (fuel : ℕ) : ℕ → ℕ → σ × ByteStore → Option (σ × ByteStore)
  | 0, _, s => some s
  | n + 1, address, (s, m) =>
    (D.poll 0x1F7 (1 <<< 7) fuel s).bind fun s ↦
      (D.inWords 0x1F0 256 address (s, m)).bind fun r ↦
        (D.skip 0x3F6 15 r.1).bind fun s ↦ readLoop fuel n (address + 512) (s, r.2)

/-- The loop that writes. -/
def writeLoop (fuel : ℕ) (m : ByteStore) : ℕ → ℕ → σ → Option σ
  | 0, _, s => some s
  | n + 1, address, s =>
    (D.poll 0x1F7 (1 <<< 7) fuel s).bind fun s ↦
      (D.outWords 0x1F0 m 256 address s).bind fun s ↦
        (D.skip 0x3F6 15 s).bind (writeLoop fuel m n (address + 512))

/-- `rw_sectors`, with at most `fuel` turns of each waiting loop. -/
def rwSectors (fuel sectors startingSector address readwrite : ℕ) (s : σ × ByteStore) :
    Option (σ × ByteStore) :=
  (D.outs (selectSectors sectors startingSector readwrite) s.1).bind fun t ↦
    if readwrite = ataRead then readLoop D fuel sectors address (t, s.2)
    else if readwrite = ataWrite then
      ((writeLoop D fuel s.2 sectors address t).bind fun t ↦
        (D.outb t 0x1F7 0xE7).bind (D.poll 0x1F7 (1 <<< 7) fuel)).map (·, s.2)
    else some (t, s.2)

variable {D} {fuel fuel' n k address : ℕ} {s s' : σ} {m m' : ByteStore}

/-- The loop in two parts. -/
theorem readLoop_add (r : σ × ByteStore) : readLoop D fuel (n + k) address r =
    (readLoop D fuel n address r).bind (readLoop D fuel k (address + 512 * n)) := by
  induction n generalizing address r with
  | zero => rw [Nat.zero_add]; rfl
  | succ n ih =>
    rw [Nat.succ_add, readLoop, readLoop, Option.bind_assoc]
    refine Option.bind_congr fun s _ ↦ ?_
    rw [Option.bind_assoc]
    refine Option.bind_congr fun r _ ↦ ?_
    rw [Option.bind_assoc]
    refine Option.bind_congr fun s _ ↦ ?_
    rw [ih, show address + 512 + 512 * n = address + 512 * (n + 1) by omega]

theorem writeLoop_add : writeLoop D fuel m (n + k) address s =
    (writeLoop D fuel m n address s).bind (writeLoop D fuel m k (address + 512 * n)) := by
  induction n generalizing address s with
  | zero => rw [Nat.zero_add]; rfl
  | succ n ih =>
    rw [Nat.succ_add, writeLoop, writeLoop, Option.bind_assoc]
    refine Option.bind_congr fun s _ ↦ ?_
    rw [Option.bind_assoc]
    refine Option.bind_congr fun s _ ↦ ?_
    rw [Option.bind_assoc]
    refine Option.bind_congr fun s _ ↦ ?_
    rw [ih, show address + 512 + 512 * n = address + 512 * (n + 1) by omega]

section Mono

variable (hle : fuel ≤ fuel')
include hle

/-- More turns of the waiting loops change nothing. -/
theorem readLoop_mono {r r' : σ × ByteStore} (h : readLoop D fuel n address r = some r') :
    readLoop D fuel' n address r = some r' := by
  induction n generalizing address r with
  | zero => exact h
  | succ n ih =>
    obtain ⟨u, hpoll, h⟩ := Option.bind_eq_some_iff.mp h
    obtain ⟨q, hin, h⟩ := Option.bind_eq_some_iff.mp h
    obtain ⟨v, hskip, hrest⟩ := Option.bind_eq_some_iff.mp h
    rw [readLoop, Ports.poll_mono hle hpoll, Option.bind_some, hin, Option.bind_some, hskip,
      Option.bind_some, ih hrest]

theorem writeLoop_mono (h : writeLoop D fuel m n address s = some s') :
    writeLoop D fuel' m n address s = some s' := by
  induction n generalizing address s with
  | zero => exact h
  | succ n ih =>
    obtain ⟨u, hpoll, h⟩ := Option.bind_eq_some_iff.mp h
    obtain ⟨q, hout, h⟩ := Option.bind_eq_some_iff.mp h
    obtain ⟨v, hskip, hrest⟩ := Option.bind_eq_some_iff.mp h
    rw [writeLoop, Ports.poll_mono hle hpoll, Option.bind_some, hout, Option.bind_some, hskip,
      Option.bind_some, ih hrest]

theorem rwSectors_mono {sectors startingSector readwrite : ℕ} {r r' : σ × ByteStore}
    (h : rwSectors D fuel sectors startingSector address readwrite r = some r') :
    rwSectors D fuel' sectors startingSector address readwrite r = some r' := by
  obtain ⟨t, houts, h⟩ := Option.bind_eq_some_iff.mp h
  rw [rwSectors, houts, Option.bind_some]
  split_ifs at h ⊢
  · exact readLoop_mono hle h
  · obtain ⟨v, hv, rfl⟩ := Option.map_eq_some_iff.mp h
    obtain ⟨w, hloop, hv⟩ := Option.bind_eq_some_iff.mp hv
    obtain ⟨x, hout, hpoll⟩ := Option.bind_eq_some_iff.mp hv
    rw [writeLoop_mono hle hloop, Option.bind_some, hout, Option.bind_some,
      Ports.poll_mono hle hpoll, Option.map_some]
  · exact h

end Mono

/-! ### The driver of a device that follows another one -/

section Follows

variable {τ : Type v} {E : Ports τ} {view : σ → τ} {t : τ} (h : D.Follows E (1 <<< 7) view)
include h

theorem readLoop_follows (hrun : readLoop E fuel n address (view s, m) = some (t, m')) :
    ∃ s', readLoop D fuel n address (s, m) = some (s', m') ∧ view s' = t := by
  induction n generalizing address s m with
  | zero =>
    obtain ⟨rfl, rfl⟩ := Prod.mk.inj (Option.some.inj hrun)
    exact ⟨s, rfl, rfl⟩
  | succ n ih =>
    obtain ⟨t₁, hpoll, hrun⟩ := Option.bind_eq_some_iff.mp hrun
    obtain ⟨⟨t₂, m₂⟩, hin, hrun⟩ := Option.bind_eq_some_iff.mp hrun
    obtain ⟨t₃, hskip, hrest⟩ := Option.bind_eq_some_iff.mp hrun
    obtain ⟨s₁, hpoll', rfl⟩ := h.poll hpoll
    obtain ⟨s₂, hin', rfl⟩ := h.inWords hin
    obtain ⟨s₃, hskip', rfl⟩ := h.skip hskip
    obtain ⟨s', hrest', hview⟩ := ih hrest
    refine ⟨s', ?_, hview⟩
    rw [readLoop, hpoll', Option.bind_some, hin', Option.bind_some, hskip', Option.bind_some, hrest']

theorem writeLoop_follows (hrun : writeLoop E fuel m n address (view s) = some t) :
    ∃ s', writeLoop D fuel m n address s = some s' ∧ view s' = t := by
  induction n generalizing address s with
  | zero => exact ⟨s, rfl, Option.some.inj hrun⟩
  | succ n ih =>
    obtain ⟨t₁, hpoll, hrun⟩ := Option.bind_eq_some_iff.mp hrun
    obtain ⟨t₂, hout, hrun⟩ := Option.bind_eq_some_iff.mp hrun
    obtain ⟨t₃, hskip, hrest⟩ := Option.bind_eq_some_iff.mp hrun
    obtain ⟨s₁, hpoll', rfl⟩ := h.poll hpoll
    obtain ⟨s₂, hout', rfl⟩ := h.outWords hout
    obtain ⟨s₃, hskip', rfl⟩ := h.skip hskip
    obtain ⟨s', hrest', hview⟩ := ih hrest
    refine ⟨s', ?_, hview⟩
    rw [writeLoop, hpoll', Option.bind_some, hout', Option.bind_some, hskip', Option.bind_some,
      hrest']

/-- **The driver does the same to a device that follows another one.** -/
theorem rwSectors_follows {sectors startingSector readwrite : ℕ}
    (hrun : rwSectors E fuel sectors startingSector address readwrite (view s, m) = some (t, m')) :
    ∃ s', rwSectors D fuel sectors startingSector address readwrite (s, m) = some (s', m') ∧
      view s' = t := by
  obtain ⟨t₁, houts, hrun⟩ := Option.bind_eq_some_iff.mp hrun
  obtain ⟨s₁, houts', rfl⟩ := h.outs houts
  rw [rwSectors, houts', Option.bind_some]
  split_ifs at hrun ⊢
  · exact readLoop_follows h hrun
  · obtain ⟨t₂, hwrite, heq⟩ := Option.map_eq_some_iff.mp hrun
    obtain ⟨rfl, rfl⟩ := Prod.mk.inj heq
    obtain ⟨t₃, hloop, hwrite⟩ := Option.bind_eq_some_iff.mp hwrite
    obtain ⟨t₄, hout, hpoll⟩ := Option.bind_eq_some_iff.mp hwrite
    obtain ⟨s₃, hloop', rfl⟩ := writeLoop_follows h hloop
    obtain ⟨s₄, hout', rfl⟩ := h.outb _ _ _ _ hout
    obtain ⟨s₅, hpoll', rfl⟩ := h.poll hpoll
    refine ⟨s₅, ?_, rfl⟩
    rw [hloop', Option.bind_some, hout', Option.bind_some, hpoll', Option.map_some]
  · obtain ⟨rfl, rfl⟩ := Prod.mk.inj (Option.some.inj hrun)
    exact ⟨s₁, rfl, rfl⟩

end Follows

end Driver

/-! ## The drive -/

/-- What a drive is doing: `left` sectors are to be moved, the one at `lba` now, and `data` is what is
still to come of it, or what has come. -/
inductive AtaPhase where
  | idle
  | reading (lba left : ℕ) (data : List UInt8)
  | writing (lba left : ℕ) (data : List UInt8)
  deriving DecidableEq

/-- A drive.  It is busy for another `busy` reads of its status, and `delays` are the times for which
it will be busy next; `idleWords` are what the data port gives while there is no sector. -/
structure Ata where
  disk : ByteStore
  drive : ℕ
  sectorCount : ℕ
  lbaLow : ℕ
  lbaMid : ℕ
  lbaHigh : ℕ
  phase : AtaPhase
  busy : ℕ
  delays : ℕ → ℕ
  idleWords : ℕ → ℕ
  flushes : ℕ

namespace Ata

/-- The next time for which the drive is busy begins. -/
def wait (a : Ata) : Ata := { a with busy := a.delays 0, delays := fun i ↦ a.delays (1 + i) }

/-- A read of the status is over. -/
def tick (a : Ata) : Ata := { a with busy := a.busy - 1 }

/-- The drive is no longer busy. -/
def settle (a : Ata) : Ata := { a with busy := 0 }

/-- The 15 reads of the alternate status are over. -/
def pause (a : Ata) : Ata := { a with busy := a.busy - 15 }

/-- The address in the registers. -/
def lba (a : Ata) : ℕ :=
  a.drive % 2 ^ 4 * 2 ^ 24 + a.lbaHigh * 2 ^ 16 + a.lbaMid * 2 ^ 8 + a.lbaLow

/-- The number of sectors in the registers; 0 stands for 256. -/
def count (a : Ata) : ℕ := if a.sectorCount = 0 then 256 else a.sectorCount

/-- `BSY`, or `DRDY` and `DSC`, with `DRQ` if data can be moved. -/
def status (a : Ata) : ℕ := if a.busy ≠ 0 then 0x80 else if a.phase = .idle then 0x50 else 0x58

/-- The commands READ SECTORS, WRITE SECTORS and FLUSH CACHE. -/
def command (a : Ata) (v : ℕ) : Option Ata :=
  if v = 0x20 then
    some { a with phase := .reading a.lba a.count (a.disk.slice (a.lba * 512) 512) }.wait
  else if v = 0x30 then some { a with phase := .writing a.lba a.count [] }.wait
  else if v = 0xE7 then some { a with flushes := a.flushes + 1 }.wait
  else none

/-- The sector has been read. -/
def nextRead (a : Ata) (lba left : ℕ) : Ata :=
  if left = 1 then { a with phase := .idle }
  else { a with phase := .reading (lba + 1) (left - 1) (a.disk.slice ((lba + 1) * 512) 512) }.wait

/-- The sector has come. -/
def nextWrite (a : Ata) (lba left : ℕ) (data : List UInt8) : Ata :=
  { a with
    disk := a.disk.splice (lba * 512) data
    phase := if left = 1 then .idle else .writing (lba + 1) (left - 1) [] }.wait

/-- The status port and its alternate. -/
def inb (a : Ata) (port : ℕ) : Option (ℕ × Ata) :=
  if port = 0x1F7 ∨ port = 0x3F6 then some (a.status, a.tick) else none

/-- A register of a drive that has nothing to do. -/
def register (a : Ata) (port v : ℕ) : Option Ata :=
  if port = 0x1F6 then some { a with drive := v }
  else if port = 0x1F2 then some { a with sectorCount := v }
  else if port = 0x1F3 then some { a with lbaLow := v }
  else if port = 0x1F4 then some { a with lbaMid := v }
  else if port = 0x1F5 then some { a with lbaHigh := v }
  else if port = 0x1F7 then a.command v
  else none

/-- The registers may not be written before the drive is done; a command to a busy drive is lost. -/
def outb (a : Ata) (port v : ℕ) : Option Ata :=
  if a.busy ≠ 0 then if port = 0x1F7 then some a else none
  else if a.phase ≠ .idle then none
  else a.register port v

/-- A word of the sector, or any word if there is none. -/
def inw (a : Ata) (port : ℕ) : Option (ℕ × Ata) :=
  if port = 0x1F0 ∧ a.busy = 0 then
    match a.phase with
    | .reading lba left (b₀ :: b₁ :: rest) =>
      some (ofLe [b₀, b₁],
        if rest = [] then a.nextRead lba left else { a with phase := .reading lba left rest })
    | .idle => some (a.idleWords 0, { a with idleWords := fun i ↦ a.idleWords (1 + i) })
    | _ => none
  else none

/-- A word for the sector; it is lost if there is none. -/
def outw (a : Ata) (port v : ℕ) : Option Ata :=
  if port = 0x1F0 ∧ a.busy = 0 then
    match a.phase with
    | .writing lba left data =>
      some (if (data ++ leBytes 2 v).length = 512 then a.nextWrite lba left (data ++ leBytes 2 v)
        else { a with phase := .writing lba left (data ++ leBytes 2 v) })
    | .idle => some a
    | _ => none
  else none

/-- The drive at its ports. -/
def ports : Ports Ata := ⟨inb, outb, inw, outw⟩

/-- The device is a drive, and `view` is its state as far as it is documented; of the status only
the busy bit matters. -/
def IsAta {σ : Type u} (D : Ports σ) (view : σ → Ata) : Prop := D.Follows ports (1 <<< 7) view

/-- The drive has nothing to do. -/
structure Ready (a : Ata) : Prop where
  busy : a.busy = 0
  phase : a.phase = .idle

/-! ## What the accesses of the driver do -/

variable {a : Ata} {lba left : ℕ}

theorem inb_of_busy (h : a.busy ≠ 0) : ports.inb a 0x1F7 = some (0x80, a.tick) := by
  show a.inb 0x1F7 = _
  rw [inb, if_pos (Or.inl rfl), status, if_pos h]

theorem inb_of_not_busy (h : a.busy = 0) :
    ∃ v, ports.inb a 0x1F7 = some (v, a.settle) ∧ v &&& 1 <<< 7 = 0 := by
  have htick : a.tick = a.settle := by rw [tick, h, settle]
  refine ⟨a.status, ?_, ?_⟩
  · show a.inb 0x1F7 = _
    rw [inb, if_pos (Or.inl rfl), htick]
  · rw [status, if_neg (not_not.mpr h)]
    split <;> rfl

/-- **Waiting for the drive.** -/
theorem poll_eq {fuel : ℕ} (h : a.busy < fuel) :
    ports.poll 0x1F7 (1 <<< 7) fuel a = some a.settle :=
  Ports.poll_eq busy settle (fun s hs ↦ ⟨0x80, s.tick, inb_of_busy hs, by decide,
    Nat.sub_lt (Nat.pos_of_ne_zero hs) Nat.one_pos, rfl⟩) (fun _ hs ↦ inb_of_not_busy hs) h

theorem poll_eq_or (fuel : ℕ) (a : Ata) : ports.poll 0x1F7 (1 <<< 7) fuel a = none ∨
    ports.poll 0x1F7 (1 <<< 7) fuel a = some a.settle :=
  Ports.poll_eq_or busy settle (fun s hs ↦ ⟨0x80, s.tick, inb_of_busy hs, by decide, rfl⟩)
    (fun _ hs ↦ inb_of_not_busy hs) fuel a

theorem iterate_tick (a : Ata) (n : ℕ) : tick^[n] a = { a with busy := a.busy - n } := by
  induction n generalizing a with
  | zero => rfl
  | succ n ih =>
    rw [Function.iterate_succ_apply, ih, tick]
    dsimp only
    rw [Nat.sub_sub, Nat.add_comm]

/-- The reads of the alternate status. -/
theorem skip_eq (a : Ata) : ports.skip 0x3F6 15 a = some a.pause := by
  have hin : ∀ s, ∃ v, ports.inb s 0x3F6 = some (v, tick s) := fun s ↦
    ⟨s.status, by
      show s.inb 0x3F6 = _
      rw [inb, if_pos (Or.inr rfl)]⟩
  rw [Ports.skip_eq tick hin, iterate_tick, pause]

/-- The words of a list of bytes. -/
def words : List UInt8 → List ℕ
  | b₀ :: b₁ :: bs => ofLe [b₀, b₁] :: words bs
  | _ => []

theorem flatMap_words : ∀ (data : List UInt8), data.length % 2 = 0 →
    (words data).flatMap (leBytes 2) = data ∧ (words data).length = data.length / 2
  | [], _ => ⟨rfl, rfl⟩
  | [_], h => absurd h Nat.one_ne_zero
  | b₀ :: b₁ :: bs, h => by
    rw [List.length_cons, List.length_cons] at h
    obtain ⟨hflat, hlen⟩ := flatMap_words bs (by omega)
    refine ⟨?_, ?_⟩
    · rw [words, List.flatMap_cons, hflat]
      exact congrArg (· ++ bs) (leBytes_ofLe [b₀, b₁])
    · rw [words, List.length_cons, hlen, List.length_cons, List.length_cons]
      omega

/-- **A sector is handed out**, word by word. -/
theorem delivers (lba left : ℕ) (hbusy : a.busy = 0) :
    ∀ (data : List UInt8), data ≠ [] → data.length % 2 = 0 →
      ports.Delivers 0x1F0 { a with phase := .reading lba left data } (words data)
        (a.nextRead lba left)
  | [], h, _ => absurd rfl h
  | [_], _, h => absurd h Nat.one_ne_zero
  | [b₀, b₁], _, _ => by
    rw [words, words, Ports.Delivers]
    · refine ⟨_, if_pos ⟨rfl, hbusy⟩, rfl⟩
    · intro _ _ _ h
      cases h
  | b₀ :: b₁ :: b₂ :: bs, _, h => by
    rw [words, Ports.Delivers]
    refine ⟨_, if_pos ⟨rfl, hbusy⟩, ?_⟩
    rw [if_neg (List.cons_ne_nil _ _)]
    exact delivers lba left hbusy (b₂ :: bs) (List.cons_ne_nil _ _) (by
      simp only [List.length_cons] at h ⊢
      omega)

/-- **A sector is taken in.** -/
theorem takes (lba left : ℕ) (hbusy : a.busy = 0) {ws : List ℕ} {data : List UInt8} (hne : ws ≠ [])
    (hlen : data.length + 2 * ws.length = 512) :
    ports.Takes 0x1F0 { a with phase := .writing lba left data } ws
      (a.nextWrite lba left (data ++ ws.flatMap (leBytes 2))) := by
  induction ws generalizing data with
  | nil => exact absurd rfl hne
  | cons w ws ih =>
    rw [List.length_cons] at hlen
    have hlen' : (data ++ leBytes 2 w).length = data.length + 2 := by
      rw [List.length_append, length_leBytes]
    rw [Ports.Takes]
    refine ⟨_, if_pos ⟨rfl, hbusy⟩, ?_⟩
    rw [List.flatMap_cons, ← List.append_assoc]
    cases ws with
    | nil =>
      rw [if_pos (hlen'.trans hlen), List.flatMap_nil, List.append_nil]
      rfl
    | cons v vs =>
      rw [List.length_cons] at hlen
      rw [if_neg (by omega)]
      exact ih (List.cons_ne_nil _ _) (by rw [hlen', List.length_cons]; omega)

/-- Words of memory, as bytes. -/
theorem flatMap_slice (m : ByteStore) (x n : ℕ) :
    ((List.range n).map fun i ↦ ofLe (m.slice (x + 2 * i) 2)).flatMap (leBytes 2) =
      m.slice x (2 * n) := by
  induction n with
  | zero => rfl
  | succ n ih =>
    have hword := leBytes_ofLe (m.slice (x + 2 * n) 2)
    rw [length_slice] at hword
    rw [List.range_succ, List.map_append, List.flatMap_append, ih, List.map_singleton,
      List.flatMap_singleton, hword, Nat.mul_succ, slice_append]

/-! ## The loops -/

/-- A sector that is ready goes to memory. -/
theorem inWords_eq {data : List UInt8} (hphase : a.phase = .reading lba left data)
    (hdata : data.length = 512) (address : ℕ) (m : ByteStore) :
    ports.inWords 0x1F0 256 address (a.settle, m) =
      some (a.settle.nextRead lba left, m.splice address data) := by
  obtain ⟨hflat, hlen⟩ := flatMap_words data (by rw [hdata])
  have hne : data ≠ [] := fun h ↦ by
    rw [h] at hdata
    exact absurd hdata (by decide)
  have hsector := delivers (a := a.settle) lba left rfl data hne (by rw [hdata])
  have hsame : { a.settle with phase := .reading lba left data } = a.settle := by
    rw [← hphase, settle]
  rw [hsame] at hsector
  have hin := Ports.inWords_of_delivers hsector address m
  rwa [hlen, hdata, hflat] at hin

/-- One turn of the loop that reads. -/
theorem readLoop_succ {data : List UInt8} (hphase : a.phase = .reading lba left data)
    (hdata : data.length = 512) {fuel : ℕ} (hbusy : a.busy < fuel) (n address : ℕ)
    (m : ByteStore) : readLoop ports fuel (n + 1) address (a, m) =
      readLoop ports fuel n (address + 512)
        ((a.settle.nextRead lba left).pause, m.splice address data) := by
  rw [readLoop, poll_eq hbusy, Option.bind_some, inWords_eq hphase hdata, Option.bind_some, skip_eq,
    Option.bind_some]

/-- **Reading**: the sectors from `lba` on come to memory, and the drive is done. -/
theorem readLoop_eq (hphase : a.phase = .reading lba (left + 1) (a.disk.slice (lba * 512) 512))
    {fuel : ℕ} (hbusy : a.busy < fuel) (hfuel : ∀ i < left, a.delays i < fuel) (address : ℕ)
    (m : ByteStore) : readLoop ports fuel (left + 1) address (a, m) =
      some ({ a with phase := .idle, busy := 0, delays := fun i ↦ a.delays (left + i) },
        m.splice address (a.disk.slice (lba * 512) ((left + 1) * 512))) := by
  induction left generalizing a lba address m with
  | zero =>
    have hshift : (fun i ↦ a.delays (0 + i)) = a.delays := funext fun i ↦ by rw [Nat.zero_add]
    rw [readLoop_succ hphase (length_slice ..) hbusy, hshift]
    rfl
  | succ left ih =>
    -- the next sector is in the buffer, and the drive is busy again
    obtain ⟨b, hb⟩ : ∃ b, b = (a.settle.nextRead lba (left + 1 + 1)).pause := ⟨_, rfl⟩
    have hnext : b = { a with
        phase := .reading (lba + 1) (left + 1) (a.disk.slice ((lba + 1) * 512) 512)
        busy := a.delays 0 - 15
        delays := fun i ↦ a.delays (1 + i) } := by
      rw [hb, nextRead, if_neg (by omega)]
      rfl
    have hle : a.delays 0 - 15 < fuel :=
      Nat.lt_of_le_of_lt (Nat.sub_le _ _) (hfuel 0 (Nat.succ_pos _))
    have hphase' : b.phase = .reading (lba + 1) (left + 1) (b.disk.slice ((lba + 1) * 512) 512) := by
      rw [hnext]
    have hrest := ih hphase' (by rw [hnext]; exact hle)
      (fun i hi ↦ by rw [hnext]; exact hfuel (1 + i) (by omega))
      (address + 512) (m.splice address (a.disk.slice (lba * 512) 512))
    have hdelays : (fun i ↦ a.delays (1 + (left + i))) = fun i ↦ a.delays (left + 1 + i) :=
      funext fun i ↦ by rw [Nat.add_comm left 1, Nat.add_assoc]
    have hsplit : (left + 1 + 1) * 512 = 512 + (left + 1) * 512 := by omega
    rw [readLoop_succ hphase (length_slice ..) hbusy, ← hb, hrest, hnext]
    dsimp only
    rw [hdelays, hsplit, slice_append, splice_append, length_slice, ← Nat.succ_mul]

/-- A sector of memory goes to the drive. -/
theorem outWords_eq (hphase : a.phase = .writing lba left []) (m : ByteStore) (address : ℕ) :
    ports.outWords 0x1F0 m 256 address a.settle =
      some (a.settle.nextWrite lba left (m.slice address 512)) := by
  obtain ⟨ws, hws⟩ : ∃ ws, ws = (List.range 256).map fun i ↦ ofLe (m.slice (address + 2 * i) 2) :=
    ⟨_, rfl⟩
  have hlen : ws.length = 256 := by rw [hws, List.length_map, List.length_range]
  have hne : ws ≠ [] := fun h ↦ by
    rw [h] at hlen
    exact absurd hlen (by decide)
  have hempty : ([] : List UInt8).length + 2 * ws.length = 512 := by rw [hlen]; rfl
  have hsector := takes (a := a.settle) lba left rfl hne hempty
  have hsame : { a.settle with phase := .writing lba left [] } = a.settle := by
    rw [← hphase, settle]
  rw [hsame, hws, flatMap_slice, List.nil_append] at hsector
  exact Ports.outWords_of_takes hsector

/-- One turn of the loop that writes. -/
theorem writeLoop_succ (hphase : a.phase = .writing lba left []) {fuel : ℕ} (hbusy : a.busy < fuel)
    (m : ByteStore) (n address : ℕ) : writeLoop ports fuel m (n + 1) address a =
      writeLoop ports fuel m n (address + 512)
        (a.settle.nextWrite lba left (m.slice address 512)).pause := by
  rw [writeLoop, poll_eq hbusy, Option.bind_some, outWords_eq hphase, Option.bind_some, skip_eq,
    Option.bind_some]

/-- **Writing**: the sectors of memory come to the disk. -/
theorem writeLoop_eq (hphase : a.phase = .writing lba (left + 1) []) {fuel : ℕ}
    (hbusy : a.busy < fuel) (hfuel : ∀ i < left, a.delays i < fuel) (m : ByteStore)
    (address : ℕ) : writeLoop ports fuel m (left + 1) address a =
      some { a with
        disk := a.disk.splice (lba * 512) (m.slice address ((left + 1) * 512))
        phase := .idle
        busy := a.delays left - 15
        delays := fun i ↦ a.delays (left + 1 + i) } := by
  induction left generalizing a lba address with
  | zero =>
    rw [writeLoop_succ hphase hbusy]
    rfl
  | succ left ih =>
    obtain ⟨b, hb⟩ : ∃ b, b = (a.settle.nextWrite lba (left + 1 + 1) (m.slice address 512)).pause :=
      ⟨_, rfl⟩
    have hnext : b = { a with
        disk := a.disk.splice (lba * 512) (m.slice address 512)
        phase := .writing (lba + 1) (left + 1) []
        busy := a.delays 0 - 15
        delays := fun i ↦ a.delays (1 + i) } := by
      rw [hb, nextWrite, if_neg (by omega)]
      rfl
    have hle : a.delays 0 - 15 < fuel :=
      Nat.lt_of_le_of_lt (Nat.sub_le _ _) (hfuel 0 (Nat.succ_pos _))
    have hphase' : b.phase = .writing (lba + 1) (left + 1) [] := by rw [hnext]
    have hrest := ih hphase' (by rw [hnext]; exact hle)
      (fun i hi ↦ by rw [hnext]; exact hfuel (1 + i) (by omega)) (address + 512)
    have hdelays : (fun i ↦ a.delays (1 + (left + 1 + i))) = fun i ↦ a.delays (left + 1 + 1 + i) :=
      funext fun i ↦ congrArg a.delays (by omega)
    have hsplit : (left + 1 + 1) * 512 = 512 + (left + 1) * 512 := by omega
    rw [writeLoop_succ hphase hbusy, ← hb, hrest, hnext]
    dsimp only
    rw [hdelays, hsplit, slice_append, splice_append, length_slice, ← Nat.succ_mul,
      Nat.add_comm 1 left]

/-! ## One call -/

/-- The registers of a call. -/
def selected (a : Ata) (sectors startingSector : ℕ) : Ata :=
  { a with
    drive := 0xE0 ||| (startingSector >>> 24 &&& 0x0F)
    sectorCount := sectors % 2 ^ 8
    lbaLow := startingSector &&& 0xFF
    lbaMid := startingSector >>> 8 &&& 0xFF
    lbaHigh := startingSector >>> 16 &&& 0xFF }

/-- The drive sees 28 bits of the address. -/
theorem lba_selected (a : Ata) (sectors startingSector : ℕ) :
    (a.selected sectors startingSector).lba = startingSector % 2 ^ 28 := by
  have hbyte : ∀ x, x &&& 0xFF = x % 2 ^ 8 := fun x ↦ Nat.and_two_pow_sub_one_eq_mod x 8
  have hdrive : (0xE0 ||| (startingSector >>> 24 &&& 0x0F)) % 2 ^ 4 =
      startingSector / 2 ^ 24 % 2 ^ 4 := by
    rw [Nat.or_mod_two_pow, show 0x0F = 2 ^ 4 - 1 from rfl, Nat.and_two_pow_sub_one_eq_mod,
      Nat.mod_mod, Nat.shiftRight_eq_div_pow, show 0xE0 % 2 ^ 4 = 0 from rfl, Nat.zero_or]
  rw [lba, selected]
  dsimp only
  rw [hdrive, hbyte, hbyte, hbyte, Nat.shiftRight_eq_div_pow, Nat.shiftRight_eq_div_pow]
  omega

/-- The number of sectors that the drive is told: 256 for 0. -/
def toldCount (sectors : ℕ) : ℕ := if sectors % 2 ^ 8 = 0 then 256 else sectors % 2 ^ 8

theorem toldCount_eq_iff {sectors : ℕ} :
    toldCount sectors = sectors ↔ 1 ≤ sectors ∧ sectors ≤ 256 := by
  rw [toldCount]
  split_ifs <;> omega

/-- One register after the other. -/
theorem Ready.outs_cons (h : a.Ready) {port v : ℕ} (vs : List (ℕ × ℕ)) {b : Ata}
    (hreg : a.register port v = some b) : ports.outs ((port, v) :: vs) a = ports.outs vs b := by
  have hout : ports.outb a port v = some b := by
    show a.outb port v = _
    rw [outb, if_neg (not_not.mpr h.busy), if_neg (not_not.mpr h.phase), hreg]
  rw [Ports.outs, hout, Option.bind_some]

/-- **The registers are set**, and the command is given. -/
theorem Ready.outs (h : a.Ready) {sectors startingSector readwrite : ℕ} {b : Ata}
    (hcommand : (a.selected sectors startingSector).command readwrite = some b) :
    ports.outs (selectSectors sectors startingSector readwrite) a = some b := by
  have hstep : ∀ {b c : Ata} {port v : ℕ} {vs : List (ℕ × ℕ)}, b.busy = a.busy →
      b.phase = a.phase → b.register port v = some c →
      ports.outs ((port, v) :: vs) b = ports.outs vs c := fun hbusy hphase hreg ↦
    Ready.outs_cons ⟨hbusy.trans h.busy, hphase.trans h.phase⟩ _ hreg
  refine (hstep rfl rfl (by rfl)).trans ?_
  refine (hstep (by rfl) (by rfl) (by rfl)).trans ?_
  refine (hstep (by rfl) (by rfl) (by rfl)).trans ?_
  refine (hstep (by rfl) (by rfl) (by rfl)).trans ?_
  refine (hstep (by rfl) (by rfl) (by rfl)).trans ?_
  exact hstep rfl rfl hcommand

/-- The drive after the command to read. -/
def readStarted (a : Ata) (sectors startingSector : ℕ) : Ata :=
  { a.selected sectors startingSector with
    phase := .reading (startingSector % 2 ^ 28) (toldCount sectors)
      (a.disk.slice (startingSector % 2 ^ 28 * 512) 512)
    busy := a.delays 0
    delays := fun i ↦ a.delays (1 + i) }

/-- The drive after the command to write. -/
def writeStarted (a : Ata) (sectors startingSector : ℕ) : Ata :=
  { a.selected sectors startingSector with
    phase := .writing (startingSector % 2 ^ 28) (toldCount sectors) []
    busy := a.delays 0
    delays := fun i ↦ a.delays (1 + i) }

theorem Ready.outs_read (h : a.Ready) (sectors startingSector : ℕ) :
    ports.outs (selectSectors sectors startingSector ataRead) a =
      some (a.readStarted sectors startingSector) := by
  refine h.outs ?_
  rw [readStarted, ← lba_selected a sectors startingSector]
  rfl

theorem Ready.outs_write (h : a.Ready) (sectors startingSector : ℕ) :
    ports.outs (selectSectors sectors startingSector ataWrite) a =
      some (a.writeStarted sectors startingSector) := by
  refine h.outs ?_
  rw [writeStarted, ← lba_selected a sectors startingSector]
  rfl

/-- What a call leaves of a drive: nothing to do, and `n` of the delays have passed. -/
structure After (a a' : Ata) (n : ℕ) : Prop extends a'.Ready where
  delays : a'.delays = fun i ↦ a.delays (n + i)

theorem toldCount_le {sectors : ℕ} (hpos : 1 ≤ sectors) :
    1 ≤ toldCount sectors ∧ toldCount sectors ≤ sectors := by
  rw [toldCount]
  split_ifs <;> omega

/-! ### A drive that has nothing to do -/

/-- The next `n` words of the data port, as bytes. -/
def idleBytes (a : Ata) (n : ℕ) : List UInt8 := ((List.range n).map a.idleWords).flatMap (leBytes 2)

/-- These words have been read. -/
def idled (a : Ata) (n : ℕ) : Ata := { a with idleWords := fun i ↦ a.idleWords (n + i) }

theorem idleBytes_add (a : Ata) (n k : ℕ) :
    a.idleBytes (n + k) = a.idleBytes n ++ (a.idled n).idleBytes k := by
  rw [idleBytes, List.range_add, List.map_append, List.flatMap_append, List.map_map]
  rfl

theorem length_idleBytes (a : Ata) (n : ℕ) : (a.idleBytes n).length = 2 * n := by
  induction n with
  | zero => rfl
  | succ n ih =>
    rw [idleBytes_add, List.length_append, ih]
    rfl

theorem idled_zero (a : Ata) : a.idled 0 = a := by
  rw [idled]
  simp only [Nat.zero_add]

theorem idled_idled (a : Ata) (n k : ℕ) : (a.idled n).idled k = a.idled (n + k) :=
  congrArg (fun ws ↦ { a with idleWords := ws }) (funext fun _ ↦ congrArg a.idleWords (by omega))

theorem Ready.idled (h : a.Ready) (n : ℕ) : (a.idled n).Ready := ⟨h.busy, h.phase⟩

theorem Ready.settle (h : a.Ready) : a.settle = a := by
  obtain ⟨hbusy, -⟩ := h
  cases a
  cases hbusy
  rfl

theorem Ready.pause (h : a.Ready) : a.pause = a := by
  obtain ⟨hbusy, -⟩ := h
  cases a
  cases hbusy
  rfl

/-- The data port gives words all the same. -/
theorem Ready.delivers (h : a.Ready) (n : ℕ) :
    ports.Delivers 0x1F0 a ((List.range n).map a.idleWords) (a.idled n) := by
  induction n generalizing a with
  | zero =>
    rw [List.range_zero, List.map_nil, Ports.Delivers, idled_zero]
  | succ n ih =>
    rw [List.range_succ_eq_map, List.map_cons, List.map_map, Ports.Delivers]
    refine ⟨a.idled 1, ?_, ?_⟩
    · show a.inw 0x1F0 = _
      rw [Ata.idled, inw, if_pos ⟨rfl, h.busy⟩, h.phase]
    · have hrest := ih (h.idled 1)
      rw [idled_idled, Nat.add_comm 1 n] at hrest
      refine Eq.subst (motive := fun ws ↦ ports.Delivers 0x1F0 (a.idled 1) ws (a.idled (n + 1))) ?_
        hrest
      exact List.map_congr_left fun i _ ↦ congrArg a.idleWords (Nat.add_comm 1 i)

/-- **The loop that reads** takes what the data port gives. -/
theorem Ready.readLoop_eq (h : a.Ready) {fuel : ℕ} (hfuel : 0 < fuel) (n address : ℕ)
    (m : ByteStore) : readLoop ports fuel n address (a, m) =
      some (a.idled (256 * n), m.splice address (a.idleBytes (256 * n))) := by
  induction n generalizing a address m with
  | zero =>
    refine congrArg some (Prod.ext a.idled_zero.symm (funext fun x ↦ (splice_of_not_mem ?_).symm))
    rw [length_idleBytes]
    omega
  | succ n ih =>
    have hin := Ports.inWords_of_delivers (h.delivers 256) address m
    rw [List.length_map, List.length_range] at hin
    rw [readLoop, poll_eq (by rw [h.busy]; exact hfuel), Option.bind_some, h.settle, hin,
      Option.bind_some, skip_eq, Option.bind_some, (h.idled 256).pause, ih (h.idled 256), idled_idled,
      show 256 * (n + 1) = 256 + 256 * n by omega, idleBytes_add, splice_append, length_idleBytes]
    rfl

/-- **The loop that writes** has no effect, except that it waits. -/
theorem writeLoop_of_idle (hphase : a.phase = .idle) {fuel : ℕ} (hbusy : a.busy < fuel)
    (m : ByteStore) (n address : ℕ) :
    writeLoop ports fuel m n address a = some (if n = 0 then a else a.settle) := by
  induction n generalizing a address with
  | zero => rfl
  | succ n ih =>
    have hready : a.settle.Ready := ⟨rfl, hphase⟩
    have htakes : ∀ ws : List ℕ, ports.Takes 0x1F0 a.settle ws a.settle := fun ws ↦ by
      induction ws with
      | nil =>
        rw [Ports.Takes]
      | cons w ws ih =>
        rw [Ports.Takes]
        refine ⟨a.settle, ?_, ih⟩
        show a.settle.outw 0x1F0 w = _
        rw [outw, if_pos ⟨rfl, rfl⟩, hready.phase]
    rw [writeLoop, poll_eq hbusy, Option.bind_some, Ports.outWords_of_takes (htakes _),
      Option.bind_some, skip_eq, Option.bind_some, hready.pause,
      ih hready.phase (Nat.lt_of_le_of_lt (Nat.zero_le _) hbusy), if_neg (Nat.succ_ne_zero n)]
    split_ifs <;> rfl

/-! ### The whole call -/

/-- **`rw_sectors` reads**, whatever the delays: the sectors that the drive has been told, and then
what the data port gives. -/
theorem Ready.rwSectors_read (h : a.Ready) {sectors : ℕ} (hpos : 1 ≤ sectors)
    (startingSector : ℕ) : ∃ a' : Ata, After a a' (toldCount sectors) ∧
      a'.disk = a.disk ∧ a'.flushes = a.flushes ∧ ∀ fuel address m,
        (∀ i < toldCount sectors, a.delays i < fuel) →
        rwSectors ports fuel sectors startingSector address ataRead (a, m) =
          some (a', m.splice address (readSectors a.disk (toldCount sectors) startingSector ++
            a.idleBytes (256 * (sectors - toldCount sectors)))) := by
  obtain ⟨hone, hle⟩ := toldCount_le hpos
  obtain ⟨n, hn⟩ : ∃ n, toldCount sectors = n + 1 := ⟨toldCount sectors - 1, by omega⟩
  obtain ⟨k, hk⟩ := Nat.exists_eq_add_of_le hle
  obtain ⟨c, hc⟩ : ∃ c, c = a.readStarted sectors startingSector := ⟨_, rfl⟩
  rw [hn] at hk ⊢
  have hphase : c.phase = .reading (startingSector % 2 ^ 28) (n + 1)
      (c.disk.slice (startingSector % 2 ^ 28 * 512) 512) := by
    rw [hc, readStarted, hn]
    rfl
  have hbusy : c.busy = a.delays 0 := by rw [hc, readStarted]
  have hdelays : ∀ i, c.delays i = a.delays (1 + i) := fun i ↦ by rw [hc, readStarted]
  have hdisk : c.disk = a.disk := by rw [hc, readStarted, selected]
  have hwords : c.idleWords = a.idleWords := by rw [hc, readStarted, selected]
  -- the drive after the sectors that it has been told
  obtain ⟨d, hd⟩ : ∃ d : Ata, d = { c with
    phase := .idle, busy := 0, delays := fun i ↦ c.delays (n + i) } := ⟨_, rfl⟩
  have hready : d.Ready := by rw [hd]; exact ⟨rfl, rfl⟩
  refine ⟨d.idled (256 * k), ⟨hready.idled _, ?_⟩, ?_, ?_, fun fuel address m hfuel ↦ ?_⟩
  · rw [hd]
    exact funext fun i ↦ (hdelays (n + i)).trans (congrArg a.delays (by omega))
  · rw [hd]
    exact hdisk
  · rw [hd, hc]
    rfl
  · have hread := Ata.readLoop_eq hphase (hbusy ▸ hfuel 0 (Nat.succ_pos n))
      (fun i hi ↦ hdelays i ▸ hfuel (1 + i) (by omega)) address m
    rw [← hd] at hread
    have hidle : d.idleBytes (256 * k) = a.idleBytes (256 * k) := by
      rw [idleBytes, idleBytes, hd, ← hwords]
    rw [rwSectors, h.outs_read, Option.bind_some, if_pos rfl, ← hc, hk, readLoop_add, hread,
      Option.bind_some, hready.readLoop_eq (Nat.zero_lt_of_lt (hfuel 0 (Nat.succ_pos n))), hidle,
      hdisk, splice_append, Nat.add_sub_cancel_left, readSectors, length_slice, sectorAddress,
      fsSector, Nat.mul_comm 512]

/-- What the flush leaves. -/
def flushed (a : Ata) : Ata :=
  if a.busy = 0 then { a with flushes := a.flushes + 1 }.wait.settle else a.settle

/-- The flush is lost on a busy drive, and the driver waits in both cases. -/
theorem flush_eq (hphase : a.phase = .idle) {fuel : ℕ} (hbusy : a.busy < fuel)
    (hfuel : a.delays 0 < fuel) :
    (ports.outb a 0x1F7 0xE7).bind (ports.poll 0x1F7 (1 <<< 7) fuel) = some a.flushed := by
  rw [flushed]
  by_cases hready : a.busy = 0
  · have hout : ports.outb a 0x1F7 0xE7 = some { a with flushes := a.flushes + 1 }.wait := by
      show a.outb 0x1F7 0xE7 = _
      rw [outb, if_neg (not_not.mpr hready), if_neg (not_not.mpr hphase)]
      rfl
    rw [hout, Option.bind_some, if_pos hready]
    exact poll_eq hfuel
  · have hout : ports.outb a 0x1F7 0xE7 = some a := by
      show a.outb 0x1F7 0xE7 = _
      rw [outb, if_pos hready, if_pos rfl]
    rw [hout, Option.bind_some, if_neg hready, poll_eq hbusy]

/-- The drive after the sectors that it has been told. -/
def written (a : Ata) (sectors startingSector : ℕ) (bs : List UInt8) : Ata :=
  { a.writeStarted sectors startingSector with
    disk := a.disk.splice (startingSector % 2 ^ 28 * 512) bs
    phase := .idle
    busy := a.delays (toldCount sectors) - 15
    delays := fun i ↦ a.delays (toldCount sectors + 1 + i) }

theorem writeLoop_told {sectors : ℕ} (hpos : 1 ≤ sectors) (startingSector : ℕ) {fuel : ℕ}
    (hfuel : ∀ i ≤ toldCount sectors, a.delays i < fuel) (m : ByteStore) (address : ℕ) :
    writeLoop ports fuel m (toldCount sectors) address (a.writeStarted sectors startingSector) =
      some (a.written sectors startingSector (m.slice address (toldCount sectors * 512))) := by
  obtain ⟨n, hn⟩ : ∃ n, toldCount sectors = n + 1 :=
    ⟨toldCount sectors - 1, by have := (toldCount_le hpos).1; omega⟩
  obtain ⟨c, hc⟩ : ∃ c, c = a.writeStarted sectors startingSector := ⟨_, rfl⟩
  have hphase : c.phase = .writing (startingSector % 2 ^ 28) (n + 1) [] := by
    rw [hc, writeStarted, hn]
  have hstart : c.busy = a.delays 0 := by rw [hc, writeStarted]
  have hshift : ∀ i, c.delays i = a.delays (1 + i) := fun i ↦ by rw [hc, writeStarted]
  have hdisk : c.disk = a.disk := by rw [hc, writeStarted, selected]
  have hdelays : (fun i ↦ c.delays (n + 1 + i)) = fun i ↦ a.delays (n + 1 + 1 + i) :=
    funext fun i ↦ (hshift (n + 1 + i)).trans (congrArg a.delays (by omega))
  have hwrite := writeLoop_eq hphase (hstart ▸ hfuel 0 (Nat.zero_le _))
    (fun i hi ↦ hshift i ▸ hfuel (1 + i) (by omega)) m address
  rw [written, ← hc, hn, hwrite, hshift, hdelays, hdisk, Nat.add_comm 1 n]

/-- **`rw_sectors` writes**, and whether the flush counts. -/
theorem Ready.rwSectors_write (h : a.Ready) {sectors : ℕ} (hpos : 1 ≤ sectors)
    (startingSector address : ℕ) (m : ByteStore) : ∃ a' : Ata,
      After a a' (toldCount sectors + 1 +
        if toldCount sectors < sectors ∨ a.delays (toldCount sectors) ≤ 15 then 1 else 0) ∧
      a'.disk =
        writeSectors a.disk startingSector (m.slice address (toldCount sectors * fsSector)) ∧
      a'.flushes = a.flushes +
        (if toldCount sectors < sectors ∨ a.delays (toldCount sectors) ≤ 15 then 1 else 0) ∧
      ∀ fuel, (∀ i ≤ toldCount sectors + 1, a.delays i < fuel) →
        rwSectors ports fuel sectors startingSector address ataWrite (a, m) = some (a', m) := by
  obtain ⟨hone, hle⟩ := toldCount_le hpos
  obtain ⟨k, hk⟩ := Nat.exists_eq_add_of_le hle
  obtain ⟨d, hd⟩ : ∃ d, d = a.written sectors startingSector
    (m.slice address (toldCount sectors * 512)) := ⟨_, rfl⟩
  have hphase : d.phase = .idle := by rw [hd, written]
  have hbusy : d.busy = a.delays (toldCount sectors) - 15 := by rw [hd, written]
  have hdelays : ∀ i, d.delays i = a.delays (toldCount sectors + 1 + i) := fun i ↦ by rw [hd, written]
  have hflushes : d.flushes = a.flushes := by rw [hd]; rfl
  have hdisk : d.disk =
      writeSectors a.disk startingSector (m.slice address (toldCount sectors * fsSector)) := by
    rw [hd]
    rfl
  -- the rest of the loop waits until the drive is no longer busy
  obtain ⟨e, he⟩ : ∃ e, e = if k = 0 then d else d.settle := ⟨_, rfl⟩
  have hidle : e.phase = .idle := by rw [he]; split_ifs <;> exact hphase
  have hle' : e.busy ≤ a.delays (toldCount sectors) - 15 := by
    rw [he, ← hbusy]
    split_ifs
    · exact Nat.le_refl _
    · exact Nat.zero_le _
  have hsame : e.delays = d.delays ∧ e.flushes = d.flushes ∧ e.disk = d.disk := by
    rw [he]
    split_ifs <;> exact ⟨rfl, rfl, rfl⟩
  have hready : e.busy = 0 ↔ toldCount sectors < sectors ∨ a.delays (toldCount sectors) ≤ 15 := by
    rw [he]
    split_ifs with hzero
    · rw [hbusy, Nat.sub_eq_zero_iff_le]
      omega
    · exact iff_of_true rfl (Or.inl (by omega))
  refine ⟨e.flushed, ?_, ?_, ?_, fun fuel hfuel ↦ ?_⟩
  · rw [flushed]
    by_cases hin : toldCount sectors < sectors ∨ a.delays (toldCount sectors) ≤ 15
    · rw [if_pos (hready.mpr hin), if_pos hin]
      refine ⟨⟨rfl, hidle⟩, funext fun i ↦ ?_⟩
      exact (congrFun hsame.1 (1 + i)).trans
        ((hdelays (1 + i)).trans (congrArg a.delays (by omega)))
    · rw [if_neg (fun hd ↦ hin (hready.mp hd)), if_neg hin]
      exact ⟨⟨rfl, hidle⟩, hsame.1.trans (funext hdelays)⟩
  · rw [flushed]
    split <;> exact hsame.2.2.trans hdisk
  · rw [flushed, ← hflushes, ← hsame.2.1]
    by_cases hin : toldCount sectors < sectors ∨ a.delays (toldCount sectors) ≤ 15
    · rw [if_pos (hready.mpr hin), if_pos hin]
      rfl
    · rw [if_neg (fun hd ↦ hin (hready.mp hd)), if_neg hin]
      rfl
  · have htold := writeLoop_told hpos startingSector (fun i hi ↦ hfuel i (by omega)) m address
    have hlt : a.delays (toldCount sectors) - 15 < fuel :=
      Nat.lt_of_le_of_lt (Nat.sub_le _ _) (hfuel _ (by omega))
    have hflush := flush_eq hidle (Nat.lt_of_le_of_lt hle' hlt)
      (by rw [hsame.1, hdelays]; exact hfuel (toldCount sectors + 1 + 0) (by omega))
    have hloop : writeLoop ports fuel m (toldCount sectors + k) address
        (a.writeStarted sectors startingSector) = some e := by
      rw [writeLoop_add, htold, ← hd, Option.bind_some, writeLoop_of_idle hphase (hbusy ▸ hlt), ← he]
    rw [← hk] at hloop
    rw [rwSectors, h.outs_write, Option.bind_some, if_neg (by decide), if_pos rfl, hloop,
      Option.bind_some, hflush]
    rfl

/-! ## Calls for no sector -/

/-- A call for no sector leaves the drive with a sector that nobody moves. -/
theorem Ready.rwSectors_zero (h : a.Ready) {readwrite : ℕ}
    (hrw : readwrite = ataRead ∨ readwrite = ataWrite) (fuel startingSector address : ℕ)
    (m : ByteStore) {r : Ata × ByteStore}
    (hcall : rwSectors ports fuel 0 startingSector address readwrite (a, m) = some r) :
    ¬ r.1.Ready := by
  intro hready
  rcases hrw with rfl | rfl
  · rw [rwSectors, h.outs_read, Option.bind_some, if_pos rfl, readLoop, Option.some.injEq] at hcall
    have hphase := hready.phase
    rw [← hcall, readStarted] at hphase
    cases hphase
  · rw [rwSectors, h.outs_write, Option.bind_some, if_neg (by decide), if_pos rfl, writeLoop,
      Option.bind_some] at hcall
    obtain ⟨c, hc⟩ : ∃ c, c = a.writeStarted 0 startingSector := ⟨_, rfl⟩
    have hwriting : c.phase ≠ .idle := by
      rw [hc, writeStarted]
      exact fun hphase ↦ by cases hphase
    rw [← hc] at hcall
    by_cases hbusy : c.busy = 0
    · have hout : ports.outb c 0x1F7 0xE7 = none := by
        show c.outb 0x1F7 0xE7 = none
        rw [outb, if_neg (not_not.mpr hbusy), if_pos hwriting]
      rw [hout] at hcall
      cases hcall
    · have hout : ports.outb c 0x1F7 0xE7 = some c := by
        show c.outb 0x1F7 0xE7 = _
        rw [outb, if_pos hbusy, if_pos rfl]
      rw [hout, Option.bind_some] at hcall
      rcases poll_eq_or fuel c with hpoll | hpoll
      · rw [hpoll] at hcall
        cases hcall
      · rw [hpoll, Option.map_some, Option.some.injEq] at hcall
        rw [← hcall] at hready
        exact hwriting hready.phase

/-- Finitely many delays have a bound. -/
theorem exists_fuel (delays : ℕ → ℕ) (n : ℕ) : ∃ fuel, ∀ i ≤ n, delays i < fuel := by
  induction n with
  | zero => exact ⟨delays 0 + 1, fun i hi ↦ by rw [Nat.le_zero.mp hi]; exact Nat.lt_succ_self _⟩
  | succ n ih =>
    obtain ⟨fuel, hfuel⟩ := ih
    refine ⟨max fuel (delays (n + 1) + 1), fun i hi ↦ ?_⟩
    rcases Nat.eq_or_lt_of_le hi with rfl | hlt
    · exact Nat.lt_of_lt_of_le (Nat.lt_succ_self _) (Nat.le_max_right ..)
    · exact Nat.lt_of_lt_of_le (hfuel i (Nat.le_of_lt_succ hlt)) (Nat.le_max_left ..)

/-- A drive that takes longer for each sector than for the one before. -/
def slowing (disk : ByteStore) : Ata :=
  { disk, drive := 0, sectorCount := 0, lbaLow := 0, lbaMid := 0, lbaHigh := 0, phase := .idle
    busy := 0, delays := fun i ↦ 10 * i, idleWords := fun _ ↦ 0, flushes := 0 }

theorem slowing_ready (disk : ByteStore) : (slowing disk).Ready := ⟨rfl, rfl⟩

/-! ## Runs -/

/-- A call of `rw_sectors`. -/
structure SectorCall where
  write : Bool
  sectors : ℕ
  startingSector : ℕ
  address : ℕ
  deriving DecidableEq, Repr

/-- The command of the call. -/
def SectorCall.command (c : SectorCall) : ℕ := if c.write then ataWrite else ataRead

/-- The call, as the driver performs it. -/
def callStep {σ : Type u} (D : Ports σ) (fuel : ℕ) (s : σ × ByteStore) (c : SectorCall) :
    Option (σ × ByteStore) :=
  rwSectors D fuel c.sectors c.startingSector c.address c.command s

/-- The call as a copy between the disk and memory. -/
def SectorCall.copy (c : SectorCall) (s : ByteStore × ByteStore) : ByteStore × ByteStore :=
  if c.write then (writeSectors s.1 c.startingSector (s.2.slice c.address (c.sectors * fsSector)), s.2)
  else (s.1, s.2.splice c.address (readSectors s.1 c.sectors c.startingSector))

/-- **A call is a copy** of as many sectors as the drive has been told; for 1 to 256 sectors these are
all. -/
theorem Ready.callStep_eq (h : a.Ready) {c : SectorCall} (hpos : 1 ≤ c.sectors)
    (hle : c.sectors ≤ 256) (m : ByteStore) : ∃ fuel, ∃ a' : Ata, ∃ m', a'.Ready ∧
      callStep ports fuel (a, m) c = some (a', m') ∧ (a'.disk, m') = c.copy (a.disk, m) := by
  have htold := toldCount_eq_iff.mpr ⟨hpos, hle⟩
  obtain ⟨fuel, hfuel⟩ := exists_fuel a.delays (c.sectors + 1)
  obtain ⟨write, sectors, startingSector, address⟩ := c
  cases write with
  | false =>
    obtain ⟨b, hafter, hdisk, -, hcall⟩ := h.rwSectors_read hpos startingSector
    refine ⟨fuel, b, _, hafter.toReady, hcall fuel address m fun i hi ↦ hfuel i (by omega), ?_⟩
    have hnone : a.idleBytes (256 * (sectors - sectors)) = [] := by rw [Nat.sub_self]; rfl
    dsimp only at htold
    rw [hdisk, htold, hnone, List.append_nil]
    rfl
  | true =>
    obtain ⟨b, hafter, hdisk, -, hcall⟩ := h.rwSectors_write hpos startingSector address m
    dsimp only at htold
    refine ⟨fuel, b, m, hafter.toReady, hcall fuel fun i hi ↦ hfuel i ?_, ?_⟩
    · dsimp only at hi ⊢
      omega
    rw [hdisk, htold]
    rfl

/-- A disk of ones, on a drive that is never busy and gives zeros. -/
def ones : Ata :=
  { disk := fun _ ↦ 1, drive := 0, sectorCount := 0, lbaLow := 0, lbaMid := 0, lbaHigh := 0
    phase := .idle, busy := 0, delays := fun _ ↦ 0, idleWords := fun _ ↦ 0, flushes := 0 }

theorem ones_ready : ones.Ready := ⟨rfl, rfl⟩

theorem getD_idleBytes_ones (n i : ℕ) : (ones.idleBytes n).getD i 0 = 0 := by
  have hzero : ∀ b ∈ ones.idleBytes n, b = 0 := by
    simp [idleBytes, ones, leBytes]
  rcases Nat.lt_or_ge i (ones.idleBytes n).length with hi | hi
  · rw [List.getD_eq_getElem _ _ hi]
    exact hzero _ (List.getElem_mem hi)
  · exact List.getD_eq_default _ _ hi

/-- **Too many sectors**: the first of those that the drive has not been told is not copied. -/
theorem ones_not_copy {c : SectorCall} (hmany : 256 < c.sectors) {fuel : ℕ} {a' : Ata}
    {m' : ByteStore} (hcall : callStep ports fuel (ones, fun _ ↦ 2) c = some (a', m')) :
    (a'.disk, m') ≠ c.copy (ones.disk, fun _ ↦ 2) := by
  obtain ⟨write, sectors, startingSector, address⟩ := c
  dsimp only at hmany
  have htold : toldCount sectors < sectors := by
    rw [toldCount]
    split_ifs <;> omega
  have hout : toldCount sectors * 512 < sectors * 512 := Nat.mul_lt_mul_of_pos_right htold (by decide)
  intro heq
  cases write with
  | false =>
    -- memory gets zeros from the drive
    obtain ⟨b, -, -, -, hb⟩ := ones_ready.rwSectors_read (show 1 ≤ sectors by omega) startingSector
    have hcall' : rwSectors ports (fuel + 1) sectors startingSector address ataRead (ones, fun _ ↦ 2) =
      some (a', m') := rwSectors_mono (Nat.le_add_right fuel 1) hcall
    rw [hb (fuel + 1) address _ fun _ _ ↦ Nat.succ_pos fuel, Option.some.injEq, Prod.mk.injEq] at hcall'
    have hbyte : m' (address + toldCount sectors * 512) =
        (ByteStore.splice (fun _ ↦ 2) address (readSectors ones.disk sectors startingSector))
          (address + toldCount sectors * 512) :=
      congrFun (congrArg Prod.snd heq) _
    have hlength : (readSectors ones.disk (toldCount sectors) startingSector).length =
        toldCount sectors * 512 := length_slice ..
    rw [← hcall'.2, splice_of_mem, splice_of_mem, List.getD_append_right, hlength, Nat.sub_self,
      getD_idleBytes_ones, readSectors, fsSector, getD_slice _ _ _ _ hout] at hbyte
    · have hone : (0 : UInt8) = 1 := hbyte
      exact absurd hone (by decide)
    · exact hlength.le
    · rw [readSectors, length_slice]
      exact hout
    · have hrest : 0 < (ones.idleBytes (256 * (sectors - toldCount sectors))).length := by
        rw [length_idleBytes]
        omega
      rw [List.length_append, hlength]
      exact Nat.lt_add_of_pos_right hrest
  | true =>
    obtain ⟨b, -, hdisk, -, hb⟩ :=
      ones_ready.rwSectors_write (show 1 ≤ sectors by omega) startingSector address fun _ ↦ 2
    have hcall' :
      rwSectors ports (fuel + 1) sectors startingSector address ataWrite (ones, fun _ ↦ 2) =
      some (a', m') := rwSectors_mono (Nat.le_add_right fuel 1) hcall
    rw [hb (fuel + 1) fun _ _ ↦ Nat.succ_pos fuel, Option.some.injEq, Prod.mk.injEq] at hcall'
    have hbyte : a'.disk (sectorAddress startingSector + toldCount sectors * 512) =
        writeSectors ones.disk startingSector (ByteStore.slice (fun _ ↦ 2) address (sectors * 512))
          (sectorAddress startingSector + toldCount sectors * 512) :=
      congrFun (congrArg Prod.fst heq) _
    rw [← hcall'.1, hdisk, writeSectors, writeSectors, splice_of_not_mem, splice_of_mem,
      getD_slice _ _ _ _ hout] at hbyte
    · have hone : (1 : UInt8) = 2 := hbyte
      exact absurd hone (by decide)
    · rw [length_slice]
      exact hout
    · rw [length_slice]
      exact Or.inr le_rfl

/-- **Which calls are copies**, whatever the drive: those for 1 to 256 sectors. -/
theorem rwSectors_copies_iff (c : SectorCall) :
    (∀ (σ : Type) (D : Ports σ) (view : σ → Ata), IsAta D view → ∀ s m, (view s).Ready →
      ∃ fuel t m', callStep D fuel (s, m) c = some (t, m') ∧ (view t).Ready ∧
        ((view t).disk, m') = c.copy ((view s).disk, m)) ↔ 1 ≤ c.sectors ∧ c.sectors ≤ 256 := by
  constructor
  · intro h
    by_contra hn
    obtain ⟨fuel, t, m', hcall, hready, hcopy⟩ :=
      h Ata ports id (Ports.Follows.refl ports _) ones (fun _ ↦ 2) ones_ready
    rcases Nat.eq_zero_or_pos c.sectors with hzero | hpos
    · rw [callStep, hzero] at hcall
      refine ones_ready.rwSectors_zero ?_ fuel c.startingSector c.address _ hcall hready
      rw [SectorCall.command]
      split_ifs
      · exact Or.inr rfl
      · exact Or.inl rfl
    · exact ones_not_copy (by omega) hcall hcopy
  · rintro ⟨hpos, hle⟩ σ D view hD s m hs
    obtain ⟨fuel, a', m', hready, hcall, hcopy⟩ := hs.callStep_eq hpos hle m
    obtain ⟨t, hcall', rfl⟩ := rwSectors_follows hD hcall
    exact ⟨fuel, t, m', hcall', hready, hcopy⟩

theorem runCalls_mono {σ : Type u} {D : Ports σ} {fuel fuel' : ℕ} (hle : fuel ≤ fuel')
    {calls : List SectorCall} {r r' : σ × ByteStore}
    (h : Run.exec (callStep D fuel) r calls = some r') :
    Run.exec (callStep D fuel') r calls = some r' := by
  induction calls generalizing r with
  | nil => exact h
  | cons c calls ih =>
    obtain ⟨q, hcall, hrest⟩ := Option.bind_eq_some_iff.mp h
    have hcall' : callStep D fuel' r c = some q := rwSectors_mono hle hcall
    rw [Run.exec, hcall', Option.bind_some, ih hrest]

theorem runCalls_follows {σ : Type u} {D : Ports σ} {view : σ → Ata} (hD : IsAta D view) {fuel : ℕ}
    {calls : List SectorCall} {s : σ} {a' : Ata} {m m' : ByteStore}
    (h : Run.exec (callStep ports fuel) (view s, m) calls = some (a', m')) :
    ∃ t, Run.exec (callStep D fuel) (s, m) calls = some (t, m') ∧ view t = a' := by
  induction calls generalizing s m with
  | nil =>
    obtain ⟨rfl, rfl⟩ := Prod.mk.inj (Option.some.inj h)
    exact ⟨s, rfl, rfl⟩
  | cons c calls ih =>
    obtain ⟨⟨b, m₁⟩, hcall, hrest⟩ := Option.bind_eq_some_iff.mp h
    obtain ⟨s₁, hcall', rfl⟩ := rwSectors_follows hD hcall
    obtain ⟨t, hrest', hview⟩ := ih hrest
    have hstep : callStep D fuel (s, m) c = some (s₁, m₁) := hcall'
    exact ⟨t, by rw [Run.exec, hstep, Option.bind_some, hrest'], hview⟩

/-- A run of calls on the documented drive. -/
theorem Ready.runCalls_eq (h : a.Ready) (m : ByteStore) (calls : List SectorCall)
    (hcalls : ∀ c ∈ calls, 1 ≤ c.sectors ∧ c.sectors ≤ 256) :
    ∃ fuel, ∃ a' : Ata, ∃ m', a'.Ready ∧ Run.exec (callStep ports fuel) (a, m) calls = some (a', m') ∧
      (a'.disk, m') = calls.foldl (fun s c ↦ c.copy s) (a.disk, m) := by
  induction calls generalizing a m with
  | nil => exact ⟨0, a, m, h, rfl, rfl⟩
  | cons c calls ih =>
    obtain ⟨hpos, hle⟩ := hcalls c List.mem_cons_self
    obtain ⟨fuel₁, b, m₁, hb, hcall, hcopy⟩ := h.callStep_eq hpos hle m
    obtain ⟨fuel₂, a', m', ha', hrun, hrest⟩ :=
      ih hb m₁ fun c' hc' ↦ hcalls c' (List.mem_cons_of_mem _ hc')
    refine ⟨max fuel₁ fuel₂, a', m', ha', ?_, ?_⟩
    · have hcall' : callStep ports (max fuel₁ fuel₂) (a, m) c = some (b, m₁) :=
        rwSectors_mono (Nat.le_max_left ..) hcall
      rw [Run.exec, hcall', Option.bind_some]
      exact runCalls_mono (Nat.le_max_right ..) hrun
    · rw [List.foldl_cons, ← hcopy, hrest]

/-- **Every run of calls is a run of copies.**  The drive takes as long as it likes before and after
each sector: with enough turns for its waiting loops the driver ends, the drive is ready again, and
disk and memory are as after the copies. -/
theorem runCalls_refines {σ : Type u} {D : Ports σ} {view : σ → Ata} (hD : IsAta D view) {s : σ}
    (h : (view s).Ready) (m : ByteStore) (calls : List SectorCall)
    (hcalls : ∀ c ∈ calls, 1 ≤ c.sectors ∧ c.sectors ≤ 256) :
    ∃ fuel₀ t m', (view t).Ready ∧ (∀ fuel, fuel₀ ≤ fuel →
        Run.exec (callStep D fuel) (s, m) calls = some (t, m')) ∧
      ((view t).disk, m') = calls.foldl (fun s c ↦ c.copy s) ((view s).disk, m) := by
  obtain ⟨fuel, a', m', hready, hrun, hcopies⟩ := h.runCalls_eq m calls hcalls
  obtain ⟨t, hrun', rfl⟩ := runCalls_follows hD hrun
  exact ⟨fuel, t, m', hready, fun fuel' hle ↦ runCalls_mono hle hrun', hcopies⟩

/-- A sector is read and written to another place, where a second read finds it. -/
theorem slowing_run : ∃ fuel₀, ∃ a' : Ata, ∃ m', a'.Ready ∧ (∀ fuel, fuel₀ ≤ fuel →
      Run.exec (callStep ports fuel) (slowing fun x ↦ UInt8.ofNat x, fun _ ↦ 0)
        [⟨false, 1, 3, 0x500⟩, ⟨true, 1, 5, 0x500⟩, ⟨false, 1, 5, 0x900⟩] = some (a', m')) ∧
    m' (0x900 + 20) = 20 := by
  obtain ⟨fuel₀, a', m', hready, hrun, hcopies⟩ := runCalls_refines
    (show IsAta ports id from Ports.Follows.refl ports _) (slowing_ready fun x ↦ UInt8.ofNat x)
    (fun _ ↦ 0)
    [⟨false, 1, 3, 0x500⟩, ⟨true, 1, 5, 0x500⟩, ⟨false, 1, 5, 0x900⟩] (by decide)
  refine ⟨fuel₀, a', m', hready, hrun, ?_⟩
  rw [(Prod.mk.inj hcopies).2]
  decide +kernel

end Ata

end AbOS
