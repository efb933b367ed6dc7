import Mathlib.Algebra.GroupWithZero.Nat
import Mathlib.Data.List.GetD

/-!
# Byte stores

A `ByteStore` is a function from addresses to bytes: physical memory, a disk image, the contents
of a file.  `slice` reads a range of it, `splice` overwrites a range by a list of bytes and `fill`
by one repeated byte.  Numbers are stored little-endian, as the machine does: `leBytes` and `ofLe`
convert, and `readWord` and `writeWord` are the 32-bit case.

Each operation has one lemma for the bytes it writes and one for the bytes it leaves alone;
`slice_congr` and `readWord_congr` turn the latter into facts about whole reads.

`writeAt` is the write to a byte array that grows as far as it is written.

`splices` performs a list of writes.  It changes nothing exactly if each byte already holds what the
last write to it puts there (`splices_eq_self_iff`).
-/

set_option autoImplicit false

/-- A byte for each address. -/
abbrev ByteStore := ℕ → UInt8

namespace ByteStore

/-- The `n` bytes from `a` on. -/
def slice (m : ByteStore) (a n : ℕ) : List UInt8 := (List.range n).map fun i ↦ m (a + i)

/-- Overwrite the bytes from `a` on by `bs`. -/
def splice (m : ByteStore) (a : ℕ) (bs : List UInt8) : ByteStore :=
  fun x ↦ if a ≤ x ∧ x < a + bs.length then bs.getD (x - a) 0 else m x

/-- Overwrite the `n` bytes from `a` on by `b`. -/
def fill (m : ByteStore) (a : ℕ) (b : UInt8) (n : ℕ) : ByteStore :=
  fun x ↦ if a ≤ x ∧ x < a + n then b else m x

/-- The little-endian bytes of `v`. -/
def leBytes : ℕ → ℕ → List UInt8
  | 0, _ => []
  | n + 1, v => UInt8.ofNat v :: leBytes n (v / 256)

/-- The number that little-endian bytes stand for. -/
def ofLe : List UInt8 → ℕ
  | [] => 0
  | b :: bs => b.toNat + 256 * ofLe bs

/-- The 32-bit word at `a`. -/
def readWord (m : ByteStore) (a : ℕ) : ℕ := ofLe (m.slice a 4)

/-- Store a 32-bit word at `a`. -/
def writeWord (m : ByteStore) (a v : ℕ) : ByteStore := m.splice a (leBytes 4 v)

/-! ## Reading and writing ranges -/

@[simp] theorem length_slice (m : ByteStore) (a n : ℕ) : (m.slice a n).length = n := by
  simp [slice]

theorem getD_slice (m : ByteStore) (a n i : ℕ) (h : i < n) : (m.slice a n).getD i 0 = m (a + i) := by
  rw [List.getD_eq_getElem _ _ (by simpa using h)]
  simp [slice]

theorem slice_congr {m m' : ByteStore} {a n : ℕ} (h : ∀ k, k < n → m' (a + k) = m (a + k)) :
    m'.slice a n = m.slice a n := by
  rw [slice, slice]
  exact List.map_congr_left fun i hi ↦ h i (List.mem_range.mp hi)

theorem slice_append (m : ByteStore) (a n k : ℕ) :
    m.slice a (n + k) = m.slice a n ++ m.slice (a + n) k := by
  rw [slice, slice, slice, List.range_add, List.map_append, List.map_map]
  congr 1
  exact List.map_congr_left fun i _ ↦ by rw [Function.comp, Nat.add_assoc]

theorem slice_succ (m : ByteStore) (a n : ℕ) : m.slice a (n + 1) = m a :: m.slice (a + 1) n := by
  rw [Nat.add_comm n 1, slice_append]
  simp [slice]

theorem splice_of_mem {m : ByteStore} {a : ℕ} {bs : List UInt8} {i : ℕ} (h : i < bs.length) :
    m.splice a bs (a + i) = bs.getD i 0 := by
  rw [splice, if_pos (by omega)]
  congr 1
  omega

theorem splice_of_not_mem {m : ByteStore} {a : ℕ} {bs : List UInt8} {x : ℕ}
    (h : x < a ∨ a + bs.length ≤ x) : m.splice a bs x = m x := by
  rw [splice, if_neg (by omega)]

@[simp] theorem slice_splice_self (m : ByteStore) (a : ℕ) (bs : List UInt8) :
    (m.splice a bs).slice a bs.length = bs := by
  refine List.ext_getElem (by simp) fun i h1 h2 ↦ ?_
  simp only [slice, List.getElem_map, List.getElem_range]
  rw [splice_of_mem h2, List.getD_eq_getElem _ _ h2]

theorem slice_splice_of_apart {m : ByteStore} {a b n : ℕ} {bs : List UInt8}
    (h : b + n ≤ a ∨ a + bs.length ≤ b) : (m.splice a bs).slice b n = m.slice b n :=
  slice_congr fun _ _ ↦ splice_of_not_mem (by omega)

/-- Two splices, the second one right behind the first. -/
theorem splice_append (m : ByteStore) (a : ℕ) (bs cs : List UInt8) :
    m.splice a (bs ++ cs) = (m.splice a bs).splice (a + bs.length) cs := by
  funext x
  by_cases hbs : a ≤ x ∧ x < a + bs.length
  · obtain ⟨i, rfl⟩ := Nat.exists_eq_add_of_le hbs.1
    rw [splice_of_mem (by rw [List.length_append]; omega), splice_of_not_mem (by omega),
      splice_of_mem (by omega), List.getD_append _ _ _ _ (by omega)]
  · by_cases hcs : a + bs.length ≤ x ∧ x < a + bs.length + cs.length
    · obtain ⟨i, rfl⟩ := Nat.exists_eq_add_of_le hcs.1
      rw [splice_of_mem (by omega), Nat.add_assoc, splice_of_mem (by rw [List.length_append]; omega),
        List.getD_append_right _ _ _ _ (by omega), Nat.add_sub_cancel_left]
    · rw [splice_of_not_mem (by rw [List.length_append]; omega), splice_of_not_mem (by omega),
        splice_of_not_mem (by omega)]

/-- Reading a range, overwriting a part of it and writing it back overwrites that part. -/
theorem splice_slice_splice {m : ByteStore} {a b n : ℕ} {bs : List UInt8} (h : b + bs.length ≤ n) :
    m.splice a ((splice (fun x ↦ m (a + x)) b bs).slice 0 n) = m.splice (a + b) bs := by
  funext x
  by_cases hx : a ≤ x ∧ x < a + n
  · obtain ⟨i, rfl⟩ : ∃ i, x = a + i := ⟨x - a, by omega⟩
    rw [splice_of_mem (by rw [length_slice]; omega), getD_slice _ _ _ _ (by omega), Nat.zero_add]
    by_cases hi : b ≤ i ∧ i < b + bs.length
    · obtain ⟨j, rfl⟩ : ∃ j, i = b + j := ⟨i - b, by omega⟩
      rw [splice_of_mem (by omega), ← Nat.add_assoc, splice_of_mem (by omega)]
    · rw [splice_of_not_mem (by omega), splice_of_not_mem (by omega)]
  · rw [splice_of_not_mem (by rw [length_slice]; omega), splice_of_not_mem (by omega)]

theorem fill_of_mem {m : ByteStore} {a n x : ℕ} {b : UInt8} (h : a ≤ x ∧ x < a + n) :
    m.fill a b n x = b := if_pos h

theorem fill_of_not_mem {m : ByteStore} {a n x : ℕ} {b : UInt8} (h : x < a ∨ a + n ≤ x) :
    m.fill a b n x = m x := if_neg (by omega)

/-! ## Little-endian numbers -/

@[simp] theorem length_leBytes (n v : ℕ) : (leBytes n v).length = n := by
  induction n generalizing v with
  | zero => rfl
  | succ n ih => rw [leBytes, List.length_cons, ih]

theorem ofLe_leBytes (n v : ℕ) : ofLe (leBytes n v) = v % 256 ^ n := by
  induction n generalizing v with
  | zero => simp [leBytes, ofLe, Nat.mod_one]
  | succ n ih =>
    rw [leBytes, ofLe, ih, Nat.pow_succ, Nat.mul_comm (256 ^ n), Nat.mod_mul,
      UInt8.toNat_ofNat']

theorem ofLe_lt (bs : List UInt8) : ofLe bs < 256 ^ bs.length := by
  induction bs with
  | nil => simp [ofLe]
  | cons b bs ih =>
    have hb := b.toNat_lt
    rw [ofLe, List.length_cons, Nat.pow_succ]
    omega

theorem leBytes_ofLe (bs : List UInt8) : leBytes bs.length (ofLe bs) = bs := by
  induction bs with
  | nil => rfl
  | cons b bs ih =>
    have hb := b.toNat_lt
    rw [List.length_cons, leBytes, ofLe]
    congr 1
    · apply UInt8.toNat_inj.mp
      rw [UInt8.toNat_ofNat']
      omega
    · rw [show (b.toNat + 256 * ofLe bs) / 256 = ofLe bs by omega, ih]

theorem ofLe_append (bs cs : List UInt8) :
    ofLe (bs ++ cs) = ofLe bs + 256 ^ bs.length * ofLe cs := by
  induction bs with
  | nil => simp [ofLe]
  | cons b bs ih =>
    rw [List.cons_append, ofLe, ofLe, ih, List.length_cons, Nat.pow_succ, Nat.mul_add,
      ← Nat.add_assoc, ← Nat.mul_assoc, Nat.mul_comm 256 (256 ^ _)]

theorem readWord_lt (m : ByteStore) (a : ℕ) : m.readWord a < 2 ^ 32 := by
  have := ofLe_lt (m.slice a 4)
  rwa [length_slice] at this

theorem readWord_eq (m : ByteStore) (a : ℕ) :
    m.readWord a = (m a).toNat + 0x100 * (m (a + 1)).toNat + 0x10000 * (m (a + 2)).toNat +
      0x1000000 * (m (a + 3)).toNat := by
  rw [readWord, slice_succ, slice_succ, slice_succ, slice_succ]
  simp only [slice, ofLe, List.range_zero, List.map_nil]
  rw [show a + 1 + 1 = a + 2 from rfl, show a + 2 + 1 = a + 3 from rfl]
  omega

theorem readWord_congr {m m' : ByteStore} {a : ℕ} (h : ∀ k, k < 4 → m' (a + k) = m (a + k)) :
    m'.readWord a = m.readWord a := by
  rw [readWord, readWord, slice_congr h]

/-- Four zero bytes are the word 0. -/
theorem readWord_of_zero {m : ByteStore} {a : ℕ} (h : ∀ k, k < 4 → m (a + k) = 0) :
    m.readWord a = 0 := by
  have h0 := h 0 (by decide)
  rw [Nat.add_zero] at h0
  rw [readWord_eq, h0, h 1 (by decide), h 2 (by decide), h 3 (by decide)]
  rfl

theorem readWord_writeWord {m : ByteStore} {a v : ℕ} (hv : v < 2 ^ 32) :
    (m.writeWord a v).readWord a = v := by
  have h := slice_splice_self m a (leBytes 4 v)
  rw [length_leBytes] at h
  rw [readWord, writeWord, h, ofLe_leBytes]
  exact Nat.mod_eq_of_lt hv

/-- The bytes of the words `w` from `a` on. -/
def words (a : ℕ) (w : ℕ → ℕ) : ByteStore := fun x ↦
  (leBytes 4 (w ((x - a) / 4))).getD ((x - a) % 4) 0

theorem readWord_words {a i : ℕ} {w : ℕ → ℕ} (hw : w i < 2 ^ 32) :
    (words a w).readWord (a + 4 * i) = w i := by
  have hslice : (words a w).slice (a + 4 * i) 4 = leBytes 4 (w i) := by
    refine List.ext_getElem (by rw [length_slice, length_leBytes]) fun k hk hk' ↦ ?_
    rw [length_slice] at hk
    have hword : a + 4 * i + k - a = 4 * i + k := by omega
    have hdiv : (4 * i + k) / 4 = i := by omega
    have hmod : (4 * i + k) % 4 = k := by omega
    simp only [slice, List.getElem_map, List.getElem_range]
    rw [words, hword, hdiv, hmod, List.getD_eq_getElem _ _ hk']
  rw [readWord, hslice, ofLe_leBytes]
  exact Nat.mod_eq_of_lt hw

/-- Writing back what is there changes nothing. -/
theorem writeWord_readWord (m : ByteStore) (a : ℕ) : m.writeWord a (m.readWord a) = m := by
  have hbytes : leBytes 4 (m.readWord a) = m.slice a 4 := by
    have h := leBytes_ofLe (m.slice a 4)
    rwa [length_slice] at h
  funext x
  rw [writeWord, hbytes]
  by_cases hx : a ≤ x ∧ x < a + 4
  · obtain ⟨i, rfl⟩ : ∃ i, x = a + i := ⟨x - a, by omega⟩
    rw [splice_of_mem (by rw [length_slice]; omega), getD_slice _ _ _ _ (by omega)]
  · rw [splice_of_not_mem (by rw [length_slice]; omega)]

theorem writeWord_of_not_mem {m : ByteStore} {a v x : ℕ} (h : x < a ∨ a + 4 ≤ x) :
    m.writeWord a v x = m x := splice_of_not_mem (by simpa using h)

theorem readWord_writeWord_of_apart {m : ByteStore} {a b v : ℕ} (h : b + 4 ≤ a ∨ a + 4 ≤ b) :
    (m.writeWord a v).readWord b = m.readWord b :=
  readWord_congr fun _ _ ↦ writeWord_of_not_mem (by omega)

theorem readWord_fill_of_apart {m : ByteStore} {a b n : ℕ} {v : UInt8}
    (h : b + 4 ≤ a ∨ a + n ≤ b) : (m.fill a v n).readWord b = m.readWord b :=
  readWord_congr fun _ _ ↦ fill_of_not_mem (by omega)

theorem readWord_fill_zero {m : ByteStore} {a b n : ℕ} (h : a ≤ b ∧ b + 4 ≤ a + n) :
    (m.fill a 0 n).readWord b = 0 :=
  readWord_of_zero fun _ _ ↦ fill_of_mem (by omega)

/-! ## Byte arrays -/

/-- The contents of a byte array after `bs` has been written at `pos`; a gap is filled with
zeros. -/
def writeAt (contents : List UInt8) (pos : ℕ) (bs : List UInt8) : List UInt8 :=
  (splice (fun y ↦ contents.getD y 0) pos bs).slice 0 (max contents.length (pos + bs.length))

@[simp] theorem length_writeAt (contents : List UInt8) (pos : ℕ) (bs : List UInt8) :
    (writeAt contents pos bs).length = max contents.length (pos + bs.length) := length_slice ..

/-- A range holds a list when it does so byte by byte. -/
theorem slice_eq_iff {m : ByteStore} {bs : List UInt8} {n : ℕ} :
    m.slice 0 n = bs ↔ bs.length = n ∧ ∀ y < n, m y = bs.getD y 0 := by
  constructor
  · rintro rfl
    exact ⟨length_slice .., fun y hy ↦ by rw [getD_slice _ _ _ _ hy, Nat.zero_add]⟩
  · rintro ⟨rfl, h⟩
    refine List.ext_getElem (length_slice ..) fun i h₁ h₂ ↦ ?_
    rw [← List.getD_eq_getElem _ 0 h₁, ← List.getD_eq_getElem _ 0 h₂, getD_slice _ _ _ _ h₂,
      Nat.zero_add, h i h₂]

/-- A store holds what a write leaves when it has the written bytes, and the old ones elsewhere. -/
theorem slice_eq_writeAt {m : ByteStore} {contents bs : List UInt8} {pos n : ℕ}
    (hn : n = max contents.length (pos + bs.length)) (hin : ∀ k < bs.length, m (pos + k) = bs.getD k 0)
    (hout : ∀ y < n, ¬ (pos ≤ y ∧ y < pos + bs.length) → m y = contents.getD y 0) :
    m.slice 0 n = writeAt contents pos bs := by
  rw [writeAt, ← hn]
  refine slice_congr fun y hy ↦ ?_
  rw [Nat.zero_add]
  by_cases h : pos ≤ y ∧ y < pos + bs.length
  · obtain ⟨k, rfl⟩ := Nat.exists_eq_add_of_le h.1
    rw [hin k (by omega), splice_of_mem (by omega)]
  · rw [hout y hy h, splice_of_not_mem (by omega)]

theorem getD_writeAt {contents bs : List UInt8} {pos k : ℕ} (hk : k < bs.length) :
    (writeAt contents pos bs).getD (pos + k) 0 = bs.getD k 0 := by
  rw [writeAt, getD_slice _ _ _ _ (by omega), Nat.zero_add, splice_of_mem hk]

theorem writeAt_nil {contents : List UInt8} {pos : ℕ} (h : pos ≤ contents.length) :
    writeAt contents pos [] = contents := by
  have hself : slice (fun y ↦ contents.getD y 0) 0 contents.length = contents :=
    slice_eq_iff.mpr ⟨rfl, fun _ _ ↦ rfl⟩
  rw [← slice_eq_writeAt (m := fun y ↦ contents.getD y 0) rfl (fun _ hk ↦ absurd hk (by simp))
    fun _ _ _ ↦ rfl, List.length_nil, Nat.add_zero, Nat.max_eq_left h, hself]

/-! ## Lists of writes -/

/-- Perform the writes in order. -/
def splices (m : ByteStore) (ws : List (ℕ × List UInt8)) : ByteStore :=
  ws.foldl (fun m w ↦ m.splice w.1 w.2) m

/-- The write reaches the byte at `x`. -/
def Reaches (w : ℕ × List UInt8) (x : ℕ) : Prop := w.1 ≤ x ∧ x < w.1 + w.2.length

instance (w : ℕ × List UInt8) (x : ℕ) : Decidable (Reaches w x) := inferInstanceAs (Decidable (_ ∧ _))

@[simp] theorem splices_nil (m : ByteStore) : m.splices [] = m := rfl

@[simp] theorem splices_cons (m : ByteStore) (w : ℕ × List UInt8) (ws : List (ℕ × List UInt8)) :
    m.splices (w :: ws) = (m.splice w.1 w.2).splices ws := rfl

theorem splices_append (m : ByteStore) (ws ws' : List (ℕ × List UInt8)) :
    m.splices (ws ++ ws') = (m.splices ws).splices ws' := List.foldl_append

/-- A byte that no write reaches is left alone. -/
theorem splices_of_not_reached {m : ByteStore} {ws : List (ℕ × List UInt8)} {x : ℕ}
    (h : ∀ w ∈ ws, ¬ Reaches w x) : m.splices ws x = m x := by
  induction ws generalizing m with
  | nil => rfl
  | cons w ws ih =>
    rw [splices_cons, ih fun w' hw' ↦ h w' (List.mem_cons_of_mem _ hw')]
    have hw := h w List.mem_cons_self
    exact splice_of_not_mem (by rw [Reaches] at hw; omega)

/-- What was written stands there, unless a later write touches it. -/
theorem slice_splices_self (m : ByteStore) (ws ws' : List (ℕ × List UInt8)) {a n : ℕ}
    {bs : List UInt8} (hn : bs.length = n)
    (h : ∀ w ∈ ws', w.1 + w.2.length ≤ a ∨ a + n ≤ w.1) :
    (m.splices (ws ++ (a, bs) :: ws')).slice a n = bs := by
  subst hn
  rw [splices_append, splices_cons]
  refine Eq.trans (slice_congr fun k hk ↦ splices_of_not_reached fun w hw ↦ ?_)
    (slice_splice_self (m.splices ws) a bs)
  have := h w hw
  rw [Reaches]
  omega

/-- What the last write that reaches the byte at `x` puts there. -/
def lastWritten (x : ℕ) : List (ℕ × List UInt8) → Option UInt8
  | [] => none
  | w :: ws => (lastWritten x ws).or (if Reaches w x then some (w.2.getD (x - w.1) 0) else none)

theorem splices_apply (m : ByteStore) (ws : List (ℕ × List UInt8)) (x : ℕ) :
    m.splices ws x = (lastWritten x ws).getD (m x) := by
  induction ws generalizing m with
  | nil => rfl
  | cons w ws ih =>
    rw [splices_cons, ih, lastWritten]
    cases lastWritten x ws with
    | some b => rfl
    | none =>
      rw [Option.none_or, Option.getD_none, splice]
      by_cases hx : Reaches w x
      · rw [if_pos hx]
        exact if_pos hx
      · rw [if_neg hx]
        exact if_neg hx

/-- **Writes change nothing** exactly if each byte already holds what is written to it last. -/
theorem splices_eq_self_iff {m : ByteStore} {ws : List (ℕ × List UInt8)} :
    m.splices ws = m ↔ ∀ x b, lastWritten x ws = some b → m x = b := by
  constructor
  · intro h x b hb
    have hx := congrFun h x
    rw [splices_apply, hb] at hx
    exact hx.symm
  · intro h
    funext x
    rw [splices_apply]
    cases hb : lastWritten x ws with
    | none => rfl
    | some b => exact (h x b hb).symm

end ByteStore
