import AbOS.Memory.Clients

/-!
# The kernel's view of memory

The kernel reaches the pages of files, and the buffers of its callers, at virtual addresses.  An
access to a missing page goes through `page_fault_handler` first (`touch`); should the page still be
missing then, the processor faults for ever, and the model has no result.

`memset`, `memcpy` and the transfers of `rw_sectors` are loops over such accesses.  On pages that are
present and hold data, not page tables, such a loop changes the bytes it is about and no
translation: `SameTables` says so, and `storeBytes_spec`, `loadBytes_spec` and `memcpy_spec` describe
the loops.
-/

set_option autoImplicit false

namespace AbOS

namespace Vmm

/-- The physical address that an access to `v` reaches. -/
def touch (m : Vmm) (v : ℕ) : Option (ℕ × Vmm) :=
  match m.walk v with
  | some (frame, _) => some (frame + v % pageSize, m)
  | none =>
    let m := m.pageFaultHandler v 0
    (m.walk v).map fun (frame, _) ↦ (frame + v % pageSize, m)

/-- Read the bytes from `v` on. -/
def loadBytes (m : Vmm) (v : ℕ) : ℕ → Option (List UInt8 × Vmm)
  | 0 => some ([], m)
  | n + 1 => (loadBytes m v n).bind fun (bs, m) ↦
    (m.touch ((v + n) % 2 ^ 32)).map fun (p, m) ↦ (bs ++ [m.ram p], m)

/-- Write the bytes from `v` on. -/
def storeBytes (m : Vmm) (v : ℕ) : List UInt8 → Option Vmm
  | [] => some m
  | b :: bs => (m.touch (v % 2 ^ 32)).bind fun (p, m) ↦ storeBytes (m.setRam p b) (v + 1) bs

/-- `memset`. -/
def memset (m : Vmm) (v : ℕ) (value : UInt8) (length : ℕ) : Option Vmm :=
  m.storeBytes v (List.replicate length value)

/-- `memcpy`, byte by byte from the front. -/
def memcpy (m : Vmm) (dst src : ℕ) : ℕ → Option Vmm
  | 0 => some m
  | i + 1 => (memcpy m dst src i).bind fun m ↦
    (m.touch ((src + i) % 2 ^ 32)).bind fun (p, m) ↦
      let b := m.ram p
      (m.touch ((dst + i) % 2 ^ 32)).map fun (q, m) ↦ m.setRam q b

theorem length_of_loadBytes {m m' : Vmm} {v n : ℕ} {bs : List UInt8}
    (h : m.loadBytes v n = some (bs, m')) : bs.length = n := by
  induction n generalizing bs m' with
  | zero => cases h; rfl
  | succ n ih =>
    obtain ⟨⟨bs', m₁⟩, hload, h⟩ := Option.bind_eq_some_iff.mp h
    obtain ⟨⟨p, m₂⟩, -, h⟩ := Option.map_eq_some_iff.mp h
    cases h
    rw [List.length_append, ih hload]
    rfl

/-! ## Loops over present pages -/

variable {m m' : Vmm}

theorem touch_of_translate {v p : ℕ} (h : m.translate v = some p) : m.touch v = some (p, m) := by
  obtain ⟨⟨frame, flags⟩, hwalk, rfl⟩ := Option.map_eq_some_iff.mp h
  rw [touch, hwalk]

/-- The addresses `P` of `n` bytes of data from `v` on. -/
def DataAt (m : Vmm) (v n : ℕ) (P : ℕ → ℕ) : Prop :=
  ∀ k, k < n → m.translate ((v + k) % 2 ^ 32) = some (P k) ∧ ¬ m.IsPaging (P k / 4096)

theorem SameTables.dataAt (h : SameTables m m') (hdir : m.directory % 4096 = 0) {v n : ℕ}
    {P : ℕ → ℕ} (hP : m.DataAt v n P) : m'.DataAt v n P := fun k hk ↦ by
  rw [h.translate hdir (Nat.mod_lt _ (by omega)), h.isPaging_iff hdir]
  exact hP k hk

theorem loadBytes_spec {v n : ℕ} {P : ℕ → ℕ}
    (hP : ∀ k, k < n → m.translate ((v + k) % 2 ^ 32) = some (P k)) :
    m.loadBytes v n = some ((List.range n).map fun k ↦ m.ram (P k), m) := by
  induction n with
  | zero => rfl
  | succ n ih =>
    rw [loadBytes, ih fun k hk ↦ hP k (by omega), Option.bind_some]
    dsimp only
    rw [touch_of_translate (hP n (by omega)), Option.map_some, List.range_succ, List.map_append]
    rfl

/-- Storing bytes of data leaves each byte as it is, or puts one of the stored ones there. -/
theorem storeBytes_written (hdir : m.directory % 4096 = 0) {v : ℕ} (bs : List UInt8) {P : ℕ → ℕ}
    (hP : m.DataAt v bs.length P) :
    ∃ m', m.storeBytes v bs = some m' ∧ SameTables m m' ∧
      ∀ x, ((∀ k < bs.length, x ≠ P k) ∧ m'.ram x = m.ram x) ∨
        ∃ k < bs.length, P k = x ∧ m'.ram x = bs.getD k 0 := by
  induction bs generalizing m v P with
  | nil =>
    exact ⟨m, rfl, SameTables.refl m, fun x ↦ Or.inl ⟨fun k hk ↦ absurd hk (Nat.not_lt_zero k), rfl⟩⟩
  | cons b bs ih =>
    obtain ⟨htrans, hpaging⟩ := hP 0 (Nat.zero_lt_succ _)
    rw [Nat.add_zero] at htrans
    have hsame := sameTables_setRam hpaging b
    have hrest : (m.setRam (P 0) b).DataAt (v + 1) bs.length (fun k ↦ P (k + 1)) :=
      hsame.dataAt hdir fun k hk ↦ by
        have hk' := hP (k + 1) (Nat.succ_lt_succ hk)
        rwa [← Nat.add_assoc, Nat.add_right_comm] at hk'
    obtain ⟨m', hm', hsame', hram⟩ := ih (m := m.setRam (P 0) b) hdir hrest
    refine ⟨m', ?_, hsame.trans hdir hsame', fun x ↦ ?_⟩
    · rw [storeBytes, touch_of_translate htrans]
      exact hm'
    · rcases hram x with ⟨hne, hx⟩ | ⟨k, hk, hkx, hx⟩
      · rw [hx]
        by_cases h0 : x = P 0
        · exact Or.inr ⟨0, Nat.zero_lt_succ _, h0.symm, by rw [h0]; exact Function.update_self ..⟩
        · refine Or.inl ⟨fun k hk ↦ ?_, Function.update_of_ne h0 ..⟩
          cases k with
          | zero => exact h0
          | succ k => exact hne k (Nat.lt_of_succ_lt_succ hk)
      · exact Or.inr ⟨k + 1, Nat.succ_lt_succ hk, hkx, hx⟩

/-- **Storing bytes of data.** -/
theorem storeBytes_spec (hdir : m.directory % 4096 = 0) {v : ℕ} (bs : List UInt8) {P : ℕ → ℕ}
    (hP : m.DataAt v bs.length P) :
    ∃ m', m.storeBytes v bs = some m' ∧ SameTables m m' ∧
      (∀ x, (∀ k, k < bs.length → x ≠ P k) → m'.ram x = m.ram x) ∧
      ((∀ j k, j < k → k < bs.length → P j ≠ P k) →
        ∀ k, k < bs.length → m'.ram (P k) = bs.getD k 0) := by
  obtain ⟨m', hm', hsame, hram⟩ := storeBytes_written hdir bs hP
  refine ⟨m', hm', hsame, fun x hx ↦ ?_, fun hinj k hk ↦ ?_⟩
  · rcases hram x with ⟨-, hkeep⟩ | ⟨k, hk, hkx, -⟩
    · exact hkeep
    · exact absurd hkx.symm (hx k hk)
  · rcases hram (P k) with ⟨hne, -⟩ | ⟨j, hj, hjk, hx⟩
    · exact absurd rfl (hne k hk)
    · rcases Nat.lt_trichotomy j k with hlt | rfl | hgt
      · exact absurd hjk (hinj j k hlt hk)
      · exact hx
      · exact absurd hjk.symm (hinj k j hgt hj)

theorem memset_spec (hdir : m.directory % 4096 = 0) {v n : ℕ} {P : ℕ → ℕ} (hP : m.DataAt v n P)
    (b : UInt8) : ∃ m', m.memset v b n = some m' ∧ SameTables m m' ∧
      ∀ x, (∀ k, k < n → x ≠ P k) → m'.ram x = m.ram x := by
  obtain ⟨m', hm', hsame, hout, -⟩ := storeBytes_spec hdir (List.replicate n b)
    (by rwa [List.length_replicate])
  rw [List.length_replicate] at hout
  exact ⟨m', hm', hsame, hout⟩

/-- Copying present bytes to bytes of data, none of which is stored to before it is copied. -/
theorem memcpy_spec (hdir : m.directory % 4096 = 0) {dst src n : ℕ} {P Q : ℕ → ℕ}
    (hP : m.DataAt dst n P)
    (hQ : ∀ k, k < n → m.translate ((src + k) % 2 ^ 32) = some (Q k)) :
    ∃ m', m.memcpy dst src n = some m' ∧ SameTables m m' ∧
      (∀ x, (∀ k, k < n → x ≠ P k) → m'.ram x = m.ram x) ∧
      ((∀ j k, j < k → k < n → P j ≠ P k) → (∀ j k, j < k → k < n → Q k ≠ P j) →
        ∀ k, k < n → m'.ram (P k) = m.ram (Q k)) := by
  induction n with
  | zero =>
    exact ⟨m, rfl, SameTables.refl m, fun _ _ ↦ rfl, fun _ _ k hk ↦ absurd hk (Nat.not_lt_zero k)⟩
  | succ n ih =>
    obtain ⟨m₁, hm₁, hsame, hout, hin⟩ :=
      ih (fun k hk ↦ hP k (by omega)) fun k hk ↦ hQ k (by omega)
    have hlt : ∀ a, a % 2 ^ 32 < 2 ^ 32 := fun a ↦ Nat.mod_lt _ (by omega)
    have hsrc := (hsame.translate hdir (hlt _)).trans (hQ n (by omega))
    obtain ⟨hdst, hpaging⟩ := hsame.dataAt hdir hP n (by omega)
    refine ⟨m₁.setRam (P n) (m₁.ram (Q n)), ?_, hsame.trans hdir (sameTables_setRam hpaging _),
      fun x hx ↦ ?_, fun hinj hapart k hk ↦ ?_⟩
    · rw [memcpy, hm₁, Option.bind_some, touch_of_translate hsrc, Option.bind_some]
      dsimp only
      rw [touch_of_translate hdst]
      rfl
    · rw [← hout x fun k hk ↦ hx k (by omega)]
      exact Function.update_of_ne (hx n (by omega)) ..
    · rcases Nat.lt_succ_iff_lt_or_eq.mp hk with hk | rfl
      · rw [← hin (fun i j hij hj ↦ hinj i j hij (by omega)) (fun i j hij hj ↦
          hapart i j hij (by omega)) k hk]
        exact Function.update_of_ne (hinj k n hk (by omega)) ..
      · rw [← hout (Q k) fun i hi ↦ hapart i k (by omega) (by omega)]
        exact Function.update_self ..

/-! ## Pages of data -/

/-- The `n` pages from `address` on lead to the frames `f j`, which are different ones and hold
data. -/
structure Region (m : Vmm) (address n : ℕ) (f : ℕ → ℕ) : Prop where
  aligned : address % pageSize = 0
  walk : ∀ j < n, ∃ flags, m.walk ((address + j * pageSize) % 2 ^ 32) = some (f j * 4096, flags)
  data : ∀ j < n, ¬ m.IsPaging (f j)
  inj : ∀ i j, i < j → j < n → f i ≠ f j

/-- The physical address of the byte `x` of a region. -/
def frameByte (f : ℕ → ℕ) (x : ℕ) : ℕ := f (x / pageSize) * pageSize + x % pageSize

theorem frameByte_div (f : ℕ → ℕ) (x : ℕ) : frameByte f x / 4096 = f (x / pageSize) := by
  rw [frameByte, pageSize]
  omega

theorem Region.mono {address n n' : ℕ} {f : ℕ → ℕ} (h : m.Region address n f) (hn : n' ≤ n) :
    m.Region address n' f :=
  ⟨h.aligned, fun j hj ↦ h.walk j (by omega), fun j hj ↦ h.data j (by omega),
    fun i j hij hj ↦ h.inj i j hij (by omega)⟩

section Region

variable {address n : ℕ} {f : ℕ → ℕ} (h : m.Region address n f)
include h

theorem Region.dataAt {a k : ℕ} (hak : k = 0 ∨ a + k ≤ n * pageSize) :
    m.DataAt (address + a) k fun i ↦ frameByte f (a + i) := fun i hi ↦ by
  have hal := h.aligned
  rw [pageSize] at hal hak
  have hpage : (a + i) / 4096 < n := by omega
  obtain ⟨flags, hwalk⟩ := h.walk _ hpage
  refine ⟨?_, ?_⟩
  · have hsame : (address + a + i) % 2 ^ 32 / 4096 =
        (address + (a + i) / 4096 * pageSize) % 2 ^ 32 / 4096 := by
      rw [pageSize]
      omega
    rw [translate, walk_page hsame, hwalk, Option.map_some]
    dsimp only
    rw [frameByte, pageSize]
    congr 2
    omega
  · dsimp only
    rw [frameByte_div]
    exact h.data _ hpage

theorem Region.frameByte_ne {x y : ℕ} (hxy : x ≠ y) (hx : x < n * pageSize)
    (hy : y < n * pageSize) : frameByte f x ≠ frameByte f y := fun heq ↦ by
  have hdiv : f (x / pageSize) = f (y / pageSize) := by
    rw [← frameByte_div f x, ← frameByte_div f y, heq]
  have hpage : ∀ {z : ℕ}, z < n * pageSize → z / pageSize < n := fun hz ↦
    Nat.div_lt_of_lt_mul (by rwa [Nat.mul_comm])
  rcases Nat.lt_trichotomy (x / pageSize) (y / pageSize) with hlt | hpages | hlt
  · exact h.inj _ _ hlt (hpage hy) hdiv
  · simp only [frameByte] at heq
    rw [hpages] at heq
    rw [pageSize] at *
    omega
  · exact h.inj _ _ hlt (hpage hx) hdiv.symm

theorem Region.sameTables (hsame : SameTables m m') (hdir : m.directory % 4096 = 0) :
    m'.Region address n f where
  aligned := h.aligned
  walk := fun j hj ↦ by
    rw [hsame.walk hdir (Nat.mod_lt _ (by decide))]
    exact h.walk j hj
  data := fun j hj ↦ by
    rw [hsame.isPaging_iff hdir]
    exact h.data j hj
  inj := h.inj

end Region

end Vmm

end AbOS
