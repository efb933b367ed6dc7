import AbOS.Lib.ByteStore
import AbOS.Memory.Boot

/-!
# The memory map, from the BIOS to the allocator

`do_e820` asks the BIOS for one region after the other, keeps those that have a length and are not to
be ignored, and counts them in 16 bits.  `prekernel_main` reads the count in 32 bits.  When the first
call sets carry, or `EBX` is 0 after it, `do_e820` takes that for an error and stores no count, which
`prekernel_main` does not look at.

The BIOS is any function from its state and the continuation value in `EBX` to an answer; `Lists` says
which regions it reports.

* `E820.Holds.loop` — the table after the loop.
* `smapEntries_iff` — `prekernel_main` goes through exactly the regions that are to be kept if and
  only if the two bytes behind the count were 0 before, or, after an error, the whole count was right
  before.
-/

set_option autoImplicit false

namespace AbOS

open ByteStore

/-! ## The loop -/

/-- What the BIOS gives back: carry, registers, and what it has written to `ES:DI`. -/
structure BiosAnswer where
  carry : Bool
  eax : ℕ
  ebx : ℕ
  ecx : ℕ
  buffer : List UInt8

/-- The registers of `do_e820` that live through the loop, the memory, and the state of the BIOS. -/
structure E820 (β : Type) where
  memory : ByteStore
  di : ℕ
  bp : ℕ
  ebx : ℕ
  bios : β

/-- `mmap_ent`. -/
def mmapEnt : ℕ := 0xA000

/-- `SMAP`. -/
def smap : ℕ := 0x0534D4150

namespace E820

variable {β : Type} (bios : β → ℕ → BiosAnswer × β)

/-- The word behind the entry is preset, and the BIOS is called. -/
def int15 (s : E820 β) : BiosAnswer × E820 β :=
  let r := bios s.bios s.ebx
  (r.1, { s with
    memory := (s.memory.writeWord ((s.di + 20) % 2 ^ 16) 1).splice s.di r.1.buffer
    ebx := r.1.ebx
    bios := r.2 })

/-- `.jmpin`, `.notext` and `.skipentry`. -/
def jmpin (ecx : ℕ) (s : E820 β) : E820 β :=
  if ecx % 2 ^ 16 = 0 then s
  else if 20 < ecx % 2 ^ 8 ∧ (s.memory ((s.di + 20) % 2 ^ 16)).toNat % 2 = 0 then s
  else if s.memory.readWord ((s.di + 8) % 2 ^ 16) ||| s.memory.readWord ((s.di + 12) % 2 ^ 16) = 0
    then s
  else { s with di := (s.di + 24) % 2 ^ 16, bp := (s.bp + 1) % 2 ^ 16 }

/-- The loop, from the test of `EBX` on. -/
def e820lp : ℕ → E820 β → Option (E820 β)
  | 0, _ => none
  | fuel + 1, s =>
    if s.ebx = 0 then some s
    else
      let (a, s) := s.int15 bios
      if a.carry then some s else e820lp fuel (s.jmpin a.ecx)

end E820

/-- `do_e820`: the carry flag, which nobody looks at, and the memory. -/
def doE820 {β : Type} (bios : β → ℕ → BiosAnswer × β) (fuel : ℕ) (memory : ByteStore) (b : β) :
    Option (Bool × ByteStore) :=
  let (a, s) := E820.int15 bios ⟨memory, mmapEnt + 4, 0, 0, b⟩
  if a.carry ∨ a.eax ≠ smap ∨ a.ebx = 0 then some (true, s.memory)
  else ((s.jmpin a.ecx).e820lp bios fuel).map fun s ↦
    (false, s.memory.splice mmapEnt (leBytes 2 s.bp))

/-- The entries that `prekernel_main` goes through. -/
def smapEntries (m : ByteStore) : List SmapEntry :=
  (List.range (m.readWord mmapEnt)).map fun i ↦
    let a := (mmapEnt + 4 + 24 * i) % 2 ^ 32
    { baseAddress := BitVec.ofNat 64 (ofLe (m.slice a 8))
      length := BitVec.ofNat 64 (ofLe (m.slice (a + 8) 8))
      type := BitVec.ofNat 32 (m.readWord (a + 16)) }

/-! ## What the BIOS reports -/

/-- A region, in 20 bytes or with the four of ACPI. -/
structure BiosRegion where
  baseAddress : BitVec 64
  length : BitVec 64
  type : BitVec 32
  acpi : Option (BitVec 32)

namespace BiosRegion

def smapEntry (r : BiosRegion) : SmapEntry := ⟨r.baseAddress, r.length, r.type⟩

/-- The first 20 bytes. -/
def head (r : BiosRegion) : List UInt8 :=
  leBytes 8 r.baseAddress.toNat ++ (leBytes 8 r.length.toNat ++ leBytes 4 r.type.toNat)

/-- What the BIOS writes. -/
def bytes (r : BiosRegion) : List UInt8 := r.head ++ (r.acpi.elim [] fun a ↦ leBytes 4 a.toNat)

/-- What stands in the table. -/
def record (r : BiosRegion) : List UInt8 := r.head ++ leBytes 4 (r.acpi.getD 1).toNat

/-- The region is to be kept: it has a length, and ACPI does not say that it is to be ignored. -/
def kept (r : BiosRegion) : Bool := r.length != 0 && r.acpi.all fun a ↦ a.toNat % 2 == 1

@[simp] theorem length_head (r : BiosRegion) : r.head.length = 20 := by simp [head]

@[simp] theorem length_record (r : BiosRegion) : r.record.length = 24 := by simp [record]

theorem length_bytes (r : BiosRegion) : r.bytes.length = if r.acpi.isSome then 24 else 20 := by
  rw [bytes, List.length_append, length_head]
  cases r.acpi <;> simp

end BiosRegion

/-- The answer is the region. -/
structure BiosAnswer.Gives (a : BiosAnswer) (r : BiosRegion) : Prop where
  carry : a.carry = false
  ecx : a.ecx = r.bytes.length
  buffer : a.buffer = r.bytes

/-- The BIOS goes on with these regions: after the last one `EBX` is 0, or there is an error. -/
inductive Lists {β : Type} (bios : β → ℕ → BiosAnswer × β) : β → ℕ → List BiosRegion → Prop where
  | done {b b' : β} {ebx : ℕ} {a : BiosAnswer} (h : bios b ebx = (a, b')) (hcarry : a.carry = true)
    (hbuffer : a.buffer.length ≤ 24) : Lists bios b ebx []
  | last {b b' : β} {ebx : ℕ} {a : BiosAnswer} {r : BiosRegion} (h : bios b ebx = (a, b'))
    (hgives : a.Gives r) (hend : a.ebx = 0) : Lists bios b ebx [r]
  | more {b b' : β} {ebx : ℕ} {a : BiosAnswer} {r : BiosRegion} {rs : List BiosRegion}
    (h : bios b ebx = (a, b')) (hgives : a.Gives r) (hgoes : a.ebx ≠ 0)
    (hrest : Lists bios b' a.ebx rs) : Lists bios b ebx (r :: rs)

/-! ## A record in memory -/

section Record

variable {m : ByteStore} {a : ℕ} {r : BiosRegion}

/-- The numbers of 64, 64 and 32 bits. -/
theorem BiosRegion.fields (h : m.slice a 24 = r.record) :
    ofLe (m.slice a 8) = r.baseAddress.toNat ∧ ofLe (m.slice (a + 8) 8) = r.length.toNat ∧
      m.readWord (a + 16) = r.type.toNat ∧ m.readWord (a + 20) = (r.acpi.getD 1).toNat := by
  rw [show 24 = 8 + (8 + (4 + 4)) from rfl, slice_append, slice_append, slice_append, record, head,
    List.append_assoc, List.append_assoc] at h
  obtain ⟨hbase, h⟩ := List.append_inj h (by rw [length_slice, length_leBytes])
  obtain ⟨hlength, h⟩ := List.append_inj h (by rw [length_slice, length_leBytes])
  obtain ⟨htype, hacpi⟩ := List.append_inj h (by rw [length_slice, length_leBytes])
  rw [Nat.add_assoc] at htype
  rw [Nat.add_assoc, Nat.add_assoc] at hacpi
  refine ⟨?_, ?_, ?_, ?_⟩
  · rw [hbase, ofLe_leBytes]
    exact Nat.mod_eq_of_lt r.baseAddress.isLt
  · rw [hlength, ofLe_leBytes]
    exact Nat.mod_eq_of_lt r.length.isLt
  · rw [readWord, htype, ofLe_leBytes]
    exact Nat.mod_eq_of_lt r.type.isLt
  · rw [readWord, hacpi, ofLe_leBytes]
    exact Nat.mod_eq_of_lt (r.acpi.getD 1).isLt

/-- `OR` of the two halves is 0 for an empty region. -/
theorem BiosRegion.length_eq_zero_iff (h : m.slice a 24 = r.record) :
    m.readWord (a + 8) ||| m.readWord (a + 12) = 0 ↔ r.length = 0 := by
  obtain ⟨-, hlength, -⟩ := BiosRegion.fields h
  rw [show 8 = 4 + 4 from rfl, slice_append, ofLe_append, length_slice] at hlength
  have hhalves : m.readWord (a + 8) + 256 ^ 4 * m.readWord (a + 12) = r.length.toNat := hlength
  rw [Nat.or_eq_zero_iff, ← BitVec.toNat_inj, ← hhalves]
  show _ ↔ _ = 0
  omega

end Record

/-! ## The table -/

namespace E820

variable {β : Type} {bios : β → ℕ → BiosAnswer × β} {m₀ : ByteStore} {rs : List BiosRegion}
  {r : BiosRegion} {s : E820 β} {a : BiosAnswer} {b : β}

/-- The regions that are in the table; in front of it nothing has changed. -/
structure Holds (m₀ : ByteStore) (rs : List BiosRegion) (s : E820 β) : Prop where
  di : s.di = mmapEnt + 4 + 24 * rs.length
  bp : s.bp = rs.length
  table : s.memory.slice (mmapEnt + 4) (24 * rs.length) = rs.flatMap BiosRegion.record
  front : ∀ x < mmapEnt + 4, s.memory x = m₀ x

/-- Memory after a call. -/
def answered (s : E820 β) (a : BiosAnswer) : ByteStore :=
  (s.memory.writeWord ((s.di + 20) % 2 ^ 16) 1).splice s.di a.buffer

@[simp] theorem jmpin_ebx (ecx : ℕ) (s : E820 β) : (jmpin ecx s).ebx = s.ebx := by
  rw [jmpin]
  split_ifs <;> rfl

@[simp] theorem jmpin_memory (ecx : ℕ) (s : E820 β) : (jmpin ecx s).memory = s.memory := by
  rw [jmpin]
  split_ifs <;> rfl

@[simp] theorem jmpin_bios (ecx : ℕ) (s : E820 β) : (jmpin ecx s).bios = s.bios := by
  rw [jmpin]
  split_ifs <;> rfl

theorem int15_eq (h : bios s.bios s.ebx = (a, b)) :
    s.int15 bios = (a, { s with memory := s.answered a, ebx := a.ebx, bios := b }) := by
  rw [int15, h]
  rfl

/-- In front of the entry nothing happens. -/
theorem answered_front (hdi : s.di + 24 ≤ 2 ^ 16) {x : ℕ} (hx : x < s.di) :
    s.answered a x = s.memory x := by
  rw [answered, splice_of_not_mem (Or.inl hx), writeWord_of_not_mem]
  rw [Nat.mod_eq_of_lt (by omega)]
  omega

/-- The entry is the record of the region: without the four bytes of ACPI, the preset word stays. -/
theorem answered_record (hdi : s.di + 24 ≤ 2 ^ 16) (h : a.Gives r) :
    (s.answered a).slice s.di 24 = r.record := by
  have hhead := r.length_head
  rw [answered, Nat.mod_eq_of_lt (by omega), h.buffer, BiosRegion.bytes, BiosRegion.record]
  cases hacpi : r.acpi with
  | some w =>
    have hlen : (r.head ++ leBytes 4 w.toNat).length = 24 := by
      rw [List.length_append, hhead, length_leBytes]
    have hself := slice_splice_self (s.memory.writeWord (s.di + 20) 1) s.di
      (r.head ++ leBytes 4 w.toNat)
    rw [hlen] at hself
    exact hself
  | none =>
    have hself := slice_splice_self (s.memory.writeWord (s.di + 20) 1) s.di r.head
    have hword := slice_splice_self s.memory (s.di + 20) (leBytes 4 1)
    rw [hhead] at hself
    rw [length_leBytes] at hword
    rw [Option.elim_none, List.append_nil, show 24 = 20 + 4 from rfl, slice_append, hself,
      slice_splice_of_apart (Or.inr (by rw [hhead])), writeWord, hword]
    rfl

/-- **An answer**: the region is kept, or its entry will be overwritten. -/
theorem Holds.answer (h : Holds m₀ rs s) (hroom : rs.length < 1022) (hgives : a.Gives r)
    (ebx : ℕ) (b : β) :
    Holds m₀ (rs ++ if r.kept then [r] else [])
      (jmpin a.ecx { s with memory := s.answered a, ebx, bios := b }) := by
  obtain ⟨hdi, hbp, htable, hfront⟩ := h
  rw [mmapEnt] at hdi
  have hfits : s.di + 24 ≤ 2 ^ 16 := by omega
  have hrecord := answered_record hfits hgives
  have hbefore : ∀ x < s.di, s.answered a x = s.memory x := fun x ↦ answered_front hfits
  -- nothing is kept
  have hskip : Holds m₀ (rs ++ []) { s with memory := s.answered a, ebx, bios := b } := by
    rw [List.append_nil]
    refine ⟨hdi, hbp, ?_, fun x hx ↦ (hbefore x ?_).trans (hfront x hx)⟩
    · rw [← htable]
      exact slice_congr fun k hk ↦ hbefore _ (by rw [mmapEnt]; omega)
    · rw [mmapEnt] at hx
      omega
  obtain ⟨-, -, -, hacpi⟩ := BiosRegion.fields hrecord
  have hlength := BiosRegion.length_eq_zero_iff hrecord
  have hbit : (s.answered a (s.di + 20)).toNat % 2 = (r.acpi.getD 1).toNat % 2 := by
    rw [← hacpi, readWord_eq]
    omega
  have hecx := hgives.ecx.trans r.length_bytes
  have hcx : ¬ a.ecx % 2 ^ 16 = 0 := by
    rw [hecx]
    split_ifs <;> decide
  have hignored : (20 < a.ecx % 2 ^ 8 ∧ (r.acpi.getD 1).toNat % 2 = 0) ↔
      (r.acpi.all fun w ↦ w.toNat % 2 == 1) = false := by
    rw [hecx]
    cases r.acpi with
    | none => exact iff_of_false (fun hh ↦ absurd hh.1 (by decide)) (by decide)
    | some w => simp
  rw [jmpin, if_neg hcx]
  dsimp only
  rw [Nat.mod_eq_of_lt (show s.di + 20 < 2 ^ 16 by omega),
    Nat.mod_eq_of_lt (show s.di + 8 < 2 ^ 16 by omega),
    Nat.mod_eq_of_lt (show s.di + 12 < 2 ^ 16 by omega), hbit]
  cases hall : r.acpi.all fun w ↦ w.toNat % 2 == 1 with
  | false =>
    rw [if_pos (hignored.mpr hall), BiosRegion.kept, hall, Bool.and_false, if_neg Bool.false_ne_true]
    exact hskip
  | true =>
    have hlisted : ¬ (20 < a.ecx % 2 ^ 8 ∧ (r.acpi.getD 1).toNat % 2 = 0) := fun hh ↦ by
      rw [hignored.mp hh] at hall
      cases hall
    rw [if_neg hlisted, BiosRegion.kept, hall, Bool.and_true]
    by_cases hzero : r.length = 0
    · rw [if_pos (hlength.mpr hzero), hzero, bne_self_eq_false, if_neg Bool.false_ne_true]
      exact hskip
    · rw [if_neg fun hh ↦ hzero (hlength.mp hh), if_pos (bne_iff_ne.mpr hzero)]
      refine ⟨?_, ?_, ?_, fun x hx ↦ (hbefore x ?_).trans (hfront x hx)⟩
      · dsimp only
        rw [Nat.mod_eq_of_lt (by omega), hdi, mmapEnt, List.length_append, List.length_singleton]
        omega
      · dsimp only
        rw [hbp, List.length_append, List.length_singleton, Nat.mod_eq_of_lt (by omega)]
      · dsimp only
        rw [List.length_append, List.length_singleton, Nat.mul_add, slice_append,
          List.flatMap_append, List.flatMap_singleton, ← htable, ← hrecord, hdi, mmapEnt]
        refine congrArg (· ++ _) (slice_congr fun k hk ↦ hbefore _ ?_)
        omega
      · rw [mmapEnt] at hx
        omega

/-- **The loop**: what is kept of the regions that the BIOS goes on with comes behind the table. -/
theorem Holds.loop {rs' : List BiosRegion} {c : ℕ} (hlists : Lists bios b c rs') :
    ∀ {rs : List BiosRegion} {s : E820 β} {fuel : ℕ}, s.bios = b → s.ebx = c → c ≠ 0 →
      Holds m₀ rs s → rs.length + rs'.length ≤ 1022 → rs'.length + 1 < fuel →
      ∃ t, e820lp bios fuel s = some t ∧ Holds m₀ (rs ++ rs'.filter BiosRegion.kept) t := by
  induction hlists with
  | @done b b' ebx a h hcarry hbuffer =>
    intro rs s fuel hb hc hne hs hroom hfuel
    obtain ⟨n, rfl⟩ : ∃ n, fuel = n + 1 := ⟨fuel - 1, by omega⟩
    have hcall := int15_eq (by rw [hb, hc]; exact h)
    refine ⟨{ s with memory := s.answered a, ebx := a.ebx, bios := b' }, ?_, ?_⟩
    · rw [e820lp, if_neg (hc ▸ hne), hcall]
      exact if_pos hcarry
    · obtain ⟨hdi, hbp, htable, hfront⟩ := hs
      rw [List.length_nil] at hroom
      have hfits : s.di + 24 ≤ 2 ^ 16 := by rw [hdi, mmapEnt]; omega
      rw [List.filter_nil, List.append_nil]
      refine ⟨hdi, hbp, ?_, fun x hx ↦ (answered_front hfits ?_).trans (hfront x hx)⟩
      · rw [← htable]
        exact slice_congr fun k hk ↦ answered_front hfits (by omega)
      · omega
  | @last b b' ebx a r h hgives hend =>
    intro rs s fuel hb hc hne hs hroom hfuel
    obtain ⟨n, rfl⟩ : ∃ n, fuel = n + 2 := ⟨fuel - 2, by rw [List.length_singleton] at hfuel; omega⟩
    have hcall := int15_eq (by rw [hb, hc]; exact h)
    rw [List.length_singleton] at hroom
    have hone := hs.answer (by omega) hgives a.ebx b'
    have hfilter : [r].filter BiosRegion.kept = if r.kept then [r] else [] := by
      rw [List.filter_singleton, Bool.cond_eq_ite]
    refine ⟨_, ?_, hfilter ▸ hone⟩
    rw [e820lp, if_neg (hc ▸ hne), hcall]
    dsimp only
    rw [if_neg (by rw [hgives.carry]; decide), e820lp, if_pos (by rw [jmpin_ebx]; exact hend)]
  | @more b b' ebx a r rs' h hgives hgoes hrest ih =>
    intro rs s fuel hb hc hne hs hroom hfuel
    rw [List.length_cons] at hroom hfuel
    obtain ⟨n, rfl⟩ : ∃ n, fuel = n + 1 := ⟨fuel - 1, by omega⟩
    have hcall := int15_eq (by rw [hb, hc]; exact h)
    have hone := hs.answer (by omega) hgives a.ebx b'
    have hlen : (rs ++ if r.kept then [r] else []).length ≤ rs.length + 1 := by
      rw [List.length_append]
      split_ifs <;> simp
    obtain ⟨t, ht, hholds⟩ := ih (by rw [jmpin_bios]) (by rw [jmpin_ebx]) hgoes hone
      (by omega) (show rs'.length + 1 < n by omega)
    refine ⟨t, ?_, ?_⟩
    · rw [e820lp, if_neg (hc ▸ hne), hcall]
      dsimp only
      rw [if_neg (by rw [hgives.carry]; decide), ht]
    · rw [List.append_assoc] at hholds
      rw [List.filter_cons]
      split_ifs at hholds ⊢ <;> exact hholds

/-- An entry of the table. -/
theorem Holds.record (h : Holds m₀ rs s) {i : ℕ} (hi : i < rs.length) :
    s.memory.slice (mmapEnt + 4 + 24 * i) 24 = rs[i].record := by
  have hsplit : rs = rs.take i ++ rs[i] :: rs.drop (i + 1) := by
    rw [← List.drop_eq_getElem_cons hi, List.take_append_drop]
  have hlen : (rs.take i).length = i := List.length_take_of_le (by omega)
  have hflat : ((rs.take i).flatMap BiosRegion.record).length = 24 * i := by
    rw [List.length_flatMap]
    simp [Nat.min_eq_left (Nat.le_of_lt hi), Nat.mul_comm]
  have htable := h.table
  have hsize : 24 * rs.length = 24 * i + (24 + 24 * (rs.length - i - 1)) := by omega
  rw [hsize, slice_append, slice_append] at htable
  rw [hsplit, List.flatMap_append, List.flatMap_cons] at htable
  obtain ⟨-, h2⟩ := List.append_inj htable (by rw [length_slice, hflat])
  exact (List.append_inj h2 (by rw [length_slice, BiosRegion.length_record])).1

end E820

/-! ## The whole way -/

section Reports

variable {β : Type} {bios : β → ℕ → BiosAnswer × β} {b b' : β} {a : BiosAnswer} {r : BiosRegion}
  {rs : List BiosRegion} {fuel : ℕ}

/-- The table, and the 16 bits of its count. -/
theorem doE820_eq (hfirst : bios b 0 = (a, b')) (hgives : a.Gives r) (hsmap : a.eax = smap)
    (hgoes : a.ebx ≠ 0) (hrest : Lists bios b' a.ebx rs) (hroom : rs.length < 1022)
    (hfuel : rs.length + 1 < fuel) (memory : ByteStore) :
    ∃ s : E820 β, E820.Holds memory ((r :: rs).filter BiosRegion.kept) s ∧
      doE820 bios fuel memory b = some (false, s.memory.splice mmapEnt (leBytes 2 s.bp)) := by
  have hempty : E820.Holds memory [] (⟨memory, mmapEnt + 4, 0, 0, b⟩ : E820 β) :=
    ⟨rfl, rfl, rfl, fun x hx ↦ rfl⟩
  have hone := hempty.answer (by decide) hgives a.ebx b'
  have hlen : ([] ++ if r.kept then [r] else []).length ≤ 1 := by
    split_ifs <;> simp
  obtain ⟨s, hs, hholds⟩ := E820.Holds.loop hrest (by rw [E820.jmpin_bios])
    (by rw [E820.jmpin_ebx]) hgoes hone (by omega) hfuel
  refine ⟨s, ?_, ?_⟩
  · rw [List.nil_append] at hholds
    rw [List.filter_cons]
    split_ifs at hholds ⊢ <;> exact hholds
  · have hcall := E820.int15_eq (s := ⟨memory, mmapEnt + 4, 0, 0, b⟩) hfirst
    rw [doE820, hcall]
    dsimp only
    rw [if_neg (by simp [hgives.carry, hsmap, hgoes]), hs]
    rfl

/-- The memory that `do_e820` leaves. -/
def counted (s : E820 β) : ByteStore := s.memory.splice mmapEnt (leBytes 2 s.bp)

/-- The count, in 32 bits: nobody writes the upper two bytes. -/
theorem readWord_counted {m₀ : ByteStore} {rs : List BiosRegion} {s : E820 β}
    (h : E820.Holds m₀ rs s) (hroom : rs.length ≤ 1023) :
    (counted s).readWord mmapEnt =
      rs.length + 2 ^ 16 * ((m₀ (mmapEnt + 2)).toNat + 256 * (m₀ (mmapEnt + 3)).toNat) := by
  have hself := slice_splice_self s.memory mmapEnt (leBytes 2 s.bp)
  rw [length_leBytes] at hself
  have hupper : ∀ k, k < 2 → counted s (mmapEnt + 2 + k) = m₀ (mmapEnt + 2 + k) := by
    intro k hk
    rw [counted, splice_of_not_mem (by rw [length_leBytes]; omega)]
    exact h.front _ (by omega)
  rw [readWord, show 4 = 2 + 2 from rfl, slice_append, ofLe_append, length_slice]
  rw [slice_congr hupper, counted, hself, ofLe_leBytes, h.bp, Nat.mod_eq_of_lt (by omega),
    slice_succ, slice_succ]
  simp only [slice, ofLe, List.range_zero, List.map_nil]
  rw [Nat.mul_zero, Nat.add_zero]
  rfl

/-- **Every entry is the region that the BIOS has reported**, if the count is right. -/
theorem smapEntries_eq_iff {m : ByteStore} {rs : List BiosRegion} (hroom : rs.length ≤ 1023)
    (hrecords : ∀ (i : ℕ) (hi : i < rs.length), m.slice (mmapEnt + 4 + 24 * i) 24 = rs[i].record) :
    smapEntries m = rs.map BiosRegion.smapEntry ↔ m.readWord mmapEnt = rs.length := by
  constructor
  · intro heq
    have hlen := congrArg List.length heq
    rwa [smapEntries, List.length_map, List.length_map, List.length_range] at hlen
  · intro hcount
    rw [smapEntries, hcount]
    refine List.ext_getElem (by simp) fun i h1 h2 ↦ ?_
    rw [List.length_map] at h2
    obtain ⟨hbase, hlength, htype, -⟩ := BiosRegion.fields (hrecords i h2)
    have haddress : (mmapEnt + 4 + 24 * i) % 2 ^ 32 = mmapEnt + 4 + 24 * i := by
      rw [mmapEnt]
      exact Nat.mod_eq_of_lt (by omega)
    rw [List.getElem_map, List.getElem_map, List.getElem_range]
    dsimp only
    rw [haddress, hbase, hlength, htype, BitVec.ofNat_toNat, BitVec.ofNat_toNat, BitVec.ofNat_toNat]
    rfl

/-- The table without errors. -/
theorem smapEntries_counted {m₀ : ByteStore} {rs : List BiosRegion} {s : E820 β}
    (h : E820.Holds m₀ rs s) (hroom : rs.length ≤ 1023) :
    smapEntries (counted s) = rs.map BiosRegion.smapEntry ↔
      m₀ (mmapEnt + 2) = 0 ∧ m₀ (mmapEnt + 3) = 0 := by
  rw [smapEntries_eq_iff hroom fun i hi ↦ ?_, readWord_counted h hroom, ← UInt8.toNat_inj,
    ← UInt8.toNat_inj]
  · show _ ↔ _ = 0 ∧ _ = 0
    omega
  · rw [← h.record hi, counted]
    exact slice_splice_of_apart (Or.inr (by rw [length_leBytes]; omega))

/-- What is free in the end, when the regions to be kept have been read. -/
theorem isSet_of_smapEntries {t : ByteStore} (bitmap : ℕ → BitVec 32)
    (h : smapEntries t = (rs.filter BiosRegion.kept).map BiosRegion.smapEntry) {block : ℕ}
    (hpos : 0 < block) (hlt : block < 0xFFFFF) :
    (prekernelRegions bitmap (smapEntries t)).isSet block = false ↔
      (∃ r ∈ rs, r.kept = true ∧ r.smapEntry.Frees block) ∧ 0x12 ≤ block ∧
        ¬ (0x100 ≤ block ∧ block < 0x114) := by
  rw [h, isSet_prekernelRegions bitmap _ hpos hlt]
  refine and_congr_left fun _ ↦ ⟨?_, ?_⟩
  · rintro ⟨e, he, hfrees⟩
    obtain ⟨r, hr, rfl⟩ := List.mem_map.mp he
    obtain ⟨hmem, hkept⟩ := List.mem_filter.mp hr
    exact ⟨r, hmem, hkept, hfrees⟩
  · rintro ⟨r, hmem, hkept, hfrees⟩
    exact ⟨_, List.mem_map.mpr ⟨r, List.mem_filter.mpr ⟨hmem, hkept⟩, rfl⟩, hfrees⟩

/-- The first call sets carry, or `EBX` is 0 after it: there is at most one region. -/
def EndsAtOnce (bios : β → ℕ → BiosAnswer × β) (b : β) : Prop :=
  (bios b 0).1.carry = true ∨ (bios b 0).1.ebx = 0

instance (bios : β → ℕ → BiosAnswer × β) (b : β) : Decidable (EndsAtOnce bios b) :=
  inferInstanceAs (Decidable (_ ∨ _))

/-- After an error the table holds the region, but nothing has been counted. -/
theorem doE820_endsAtOnce (hlists : Lists bios b 0 rs) (hends : EndsAtOnce bios b)
    (fuel : ℕ) (memory : ByteStore) :
    ∃ t, doE820 bios fuel memory b = some (true, t) ∧
      (smapEntries t = (rs.filter BiosRegion.kept).map BiosRegion.smapEntry ↔
        memory.readWord mmapEnt = (rs.filter BiosRegion.kept).length) := by
  have hempty : E820.Holds memory [] (⟨memory, mmapEnt + 4, 0, 0, b⟩ : E820 β) :=
    ⟨rfl, rfl, rfl, fun x hx ↦ rfl⟩
  have hcall := E820.int15_eq (s := ⟨memory, mmapEnt + 4, 0, 0, b⟩) (Prod.eta (bios b 0)).symm
  refine ⟨(⟨memory, mmapEnt + 4, 0, 0, b⟩ : E820 β).answered (bios b 0).1, ?_, ?_⟩
  · rw [doE820, hcall]
    dsimp only
    rw [if_pos (hends.imp id Or.inr)]
  have hcount : ∀ a : BiosAnswer, (E820.answered (⟨memory, mmapEnt + 4, 0, 0, b⟩ : E820 β) a).readWord
      mmapEnt = memory.readWord mmapEnt := fun a ↦ readWord_congr fun k hk ↦
    E820.answered_front (show mmapEnt + 4 + 24 ≤ 2 ^ 16 by decide)
      (show mmapEnt + k < mmapEnt + 4 by omega)
  rw [← hcount (bios b 0).1]
  rcases hlists with ⟨h, hcarry, -⟩ | ⟨h, hgives, -⟩ | ⟨h, hgives, hgoes, hrest⟩
  · exact smapEntries_eq_iff (Nat.zero_le _) fun i hi ↦ absurd hi (Nat.not_lt_zero i)
  · rename_i a r
    have hone := hempty.answer (by decide) hgives a.ebx b
    rw [List.nil_append] at hone
    have hfilter : [r].filter BiosRegion.kept = if r.kept then [r] else [] := by
      rw [List.filter_singleton, Bool.cond_eq_ite]
    rw [hfilter, h]
    refine smapEntries_eq_iff (by split_ifs <;> simp) fun i hi ↦ ?_
    have hrecord := hone.record hi
    rwa [E820.jmpin_memory] at hrecord
  · rw [EndsAtOnce, h] at hends
    exact absurd hends (not_or.mpr ⟨by rw [hgives.carry]; decide, hgoes⟩)

/-- **From the BIOS to the allocator**: `prekernel_main` goes through the regions that are to be kept
if and only if the two bytes behind the count were 0, or if it is wrong about there being an error and
the count was right by chance; then the free blocks are theirs. -/
theorem smapEntries_iff (hlists : Lists bios b 0 rs)
    (hsmap : rs ≠ [] → (bios b 0).1.eax = smap) (hroom : rs.length ≤ 1022)
    (hfuel : rs.length < fuel) (memory : ByteStore) :
    ∃ t, doE820 bios fuel memory b = some (decide (EndsAtOnce bios b), t) ∧
      (smapEntries t = (rs.filter BiosRegion.kept).map BiosRegion.smapEntry ↔
        if EndsAtOnce bios b then memory.readWord mmapEnt = (rs.filter BiosRegion.kept).length
        else memory (mmapEnt + 2) = 0 ∧ memory (mmapEnt + 3) = 0) ∧
      (smapEntries t = (rs.filter BiosRegion.kept).map BiosRegion.smapEntry →
        ∀ bitmap block, 0 < block → block < 0xFFFFF →
          ((prekernelRegions bitmap (smapEntries t)).isSet block = false ↔
            (∃ r ∈ rs, r.kept = true ∧ r.smapEntry.Frees block) ∧ 0x12 ≤ block ∧
              ¬ (0x100 ≤ block ∧ block < 0x114))) := by
  by_cases hends : EndsAtOnce bios b
  · obtain ⟨t, ht, hentries⟩ := doE820_endsAtOnce hlists hends fuel memory
    rw [decide_eq_true hends]
    refine ⟨t, ht, ?_, fun heq bitmap block ↦ isSet_of_smapEntries bitmap heq⟩
    rw [if_pos hends]
    exact hentries
  · obtain ⟨a, b', r, rs', hfirst, hgives, hgoes, hrest, rfl⟩ : ∃ a b' r rs', bios b 0 = (a, b') ∧
        a.Gives r ∧ a.ebx ≠ 0 ∧ Lists bios b' a.ebx rs' ∧ rs = r :: rs' := by
      rcases hlists with ⟨h, hcarry, -⟩ | ⟨h, -, hend⟩ | ⟨h, hgives, hgoes, hrest⟩
      · exact absurd (Or.inl (by rw [h]; exact hcarry)) hends
      · exact absurd (Or.inr (by rw [h]; exact hend)) hends
      · exact ⟨_, _, _, _, h, hgives, hgoes, hrest, rfl⟩
    have heax : a.eax = smap := by
      have hall := hsmap (List.cons_ne_nil _ _)
      rwa [hfirst] at hall
    rw [List.length_cons] at hroom hfuel
    obtain ⟨s, hholds, ht⟩ := doE820_eq hfirst hgives heax hgoes hrest (by omega) (by omega) memory
    have hfew : ((r :: rs').filter BiosRegion.kept).length ≤ 1023 := by
      have := List.length_filter_le BiosRegion.kept (r :: rs')
      rw [List.length_cons] at this
      omega
    rw [decide_eq_false hends]
    refine ⟨counted s, ht, ?_, fun heq bitmap block ↦ isSet_of_smapEntries bitmap heq⟩
    rw [if_neg hends]
    exact smapEntries_counted hholds hfew

end Reports

/-- The memory map of a PC; the third region is to be ignored, and the fourth has no length. -/
def pcRegions : List BiosRegion :=
  [⟨0, 0x9FC00, 1, none⟩, ⟨0x100000, 0x7EE0000, 1, some 1⟩, ⟨0x7FE0000, 0x10000, 1, some 0⟩,
    ⟨0x7FF0000, 0, 1, some 1⟩, ⟨0xFFFC0000, 0x40000, 2, none⟩]

/-- The BIOS that reports one region after the other. -/
def pcBios (k ebx : ℕ) : BiosAnswer × ℕ :=
  match pcRegions[k]? with
  | none => (⟨true, 0, ebx, 0, []⟩, k)
  | some r => (⟨false, smap, if k = 4 then 0 else k + 1, r.bytes.length, r.bytes⟩, k + 1)

/-- Block `0x200` is free, but block `0x7FE0`, which is to be ignored, is not. -/
theorem smapEntries_iff_pc :
    ∃ t, doE820 pcBios 8 (fun _ ↦ 0) 0 = some (false, t) ∧
      smapEntries t = [⟨0, 0x9FC00, 1⟩, ⟨0x100000, 0x7EE0000, 1⟩, ⟨0xFFFC0000, 0x40000, 2⟩] ∧
      ∀ bitmap, (prekernelRegions bitmap (smapEntries t)).isSet 0x200 = false ∧
        (prekernelRegions bitmap (smapEntries t)).isSet 0x7FE0 = true := by
  have hlists : Lists pcBios 0 0 pcRegions :=
    .more rfl ⟨rfl, rfl, rfl⟩ (by decide) <| .more rfl ⟨rfl, rfl, rfl⟩ (by decide) <|
      .more rfl ⟨rfl, rfl, rfl⟩ (by decide) <| .more rfl ⟨rfl, rfl, rfl⟩ (by decide) <|
        .last rfl ⟨rfl, rfl, rfl⟩ rfl
  obtain ⟨t, ht, hentries, hfree⟩ := @smapEntries_iff _ pcBios 0 _ 8 hlists (fun _ ↦ rfl)
    (by decide) (by decide) fun _ ↦ 0
  have hends : ¬ EndsAtOnce pcBios 0 := by decide
  rw [if_neg hends] at hentries
  have hread := hentries.mpr ⟨rfl, rfl⟩
  refine ⟨t, ht, hread, fun bitmap ↦ ⟨?_, ?_⟩⟩
  · refine (hfree hread bitmap 0x200 (by decide) (by decide)).mpr ⟨?_, by decide, by decide⟩
    exact ⟨_, .tail _ (.head _), by decide, by decide⟩
  · by_contra h
    obtain ⟨⟨r, hr, hkept, hfrees⟩, -⟩ :=
      (hfree hread bitmap 0x7FE0 (by decide) (by decide)).mp (Bool.eq_false_iff.mpr h)
    revert r
    decide

end AbOS
