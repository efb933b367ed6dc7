import Mathlib.Data.List.Chain
import AbOS.Memory.HeapLinks

/-!
# Splitting, merging and freeing

The laws of the three operations on the list, for every list whose nodes fill a range of addresses
(`Heap.Tiled`):

* serving a request from a free node keeps the range filled, and every other node
  (`conserves_iff`).  A size whose sum with the 20 bytes of a node wraps around breaks this.
* `merge_free_blocks` joins two free neighbours and goes on behind them, so the next one is not
  compared with the joined node, and its `prev` still leads to the node that is gone.  What is left
  are the free neighbours at the very end (`coalesces_iff`).
* `malloc_free` never advances, so it can free the first node only, and only when there is another
  one behind it (`freesBlock_iff`).
-/

set_option autoImplicit false

namespace AbOS

namespace Heap

/-- The nodes of the heap's list fill the addresses from `a` up to `b`, in order. -/
structure Tiled (h : Heap) (a : ℕ) (ns : List Node) (b : ℕ) : Prop where
  nodes : Nodes h.mem h.mallocHead ns 0
  tiles : Extent.Tiles a (ns.map Node.extent) b
  le : b ≤ 2 ^ 32

/-- **Splitting conserves the heap**: `malloc_next` returns the block of a free node `n`, the nodes
fill the range as before and the others stay.  In the place of `n` there is a node in use that is
large enough, and maybe another one inside the bytes of `n`. -/
def Conserves (h : Heap) (a : ℕ) (ns : List Node) (b size : ℕ) : Prop :=
  ∃ (ptr : ℕ) (h' : Heap) (ns' : List Node) (n k : Node),
    h.mallocNext size = some (ptr, h') ∧ h'.Tiled a ns' b ∧
    (ns'.map fun j ↦ j.size + nodeBytes).sum = (ns.map fun j ↦ j.size + nodeBytes).sum ∧
    n ∈ ns ∧ n.free = true ∧ h.search size = some n.addr ∧
    k ∈ ns' ∧ k.addr = n.addr ∧ k.free = false ∧ size ≤ k.size ∧ ptr = n.addr + nodeBytes ∧
    (∀ j ∈ ns, j ≠ n → j ∈ ns') ∧
    ∀ j ∈ ns', j ∈ ns ∨ j = k ∨
      (n.addr + nodeBytes ≤ j.addr ∧ j.addr + nodeBytes ≤ n.addr + nodeBytes + n.size)

/-- No two neighbours are both free. -/
def NoFreePair (ns : List Node) : Prop := ns.IsChain fun n k ↦ ¬ (n.free = true ∧ k.free = true)

/-- **Merging coalesces completely**: it ends, with the range filled as before, the same nodes in
use, no two free neighbours and `prev` leading back, and doing it again changes nothing. -/
def Coalesces (h : Heap) (a : ℕ) (ns : List Node) (b : ℕ) : Prop :=
  ∃ (h' : Heap) (ns' : List Node), h.mergeFreeBlocks = some h' ∧ h'.Tiled a ns' b ∧
    (∀ n : Node, n.free = false → (n ∈ ns' ↔ n ∈ ns)) ∧ NoFreePair ns' ∧
    Prevs h'.mem 0 (ns'.map Node.addr) ∧ h'.mergeFreeBlocks = some h'

/-- The loop of `malloc_free` at `temp`, cut off after `fuel` rounds. -/
def mallocFreeFuel (h : Heap) (ptr : ℕ) : ℕ → ℕ → Option Heap
  | 0, _ => none
  | fuel + 1, temp =>
    if (readNode h.mem temp).next ≠ 0 then
      if (readNode h.mem temp).address = ptr then
        mergeFreeBlocks { h with mem := setFree h.mem temp true }
      else
        -- `temp` stays where it is
        mallocFreeFuel h ptr fuel temp
    else some h

/-- The bytes of `n` lie in a free node of the list. -/
def CoveredFree (ns : List Node) (n : Node) : Prop :=
  ∃ k ∈ ns, k.free = true ∧ k.addr ≤ n.addr ∧
    n.addr + nodeBytes + n.size ≤ k.addr + nodeBytes + k.size

/-- **Freeing a block**: `malloc_free` ends, with the range filled as before.  The bytes of the node
with this pointer are free, as are those of the nodes that were; the other nodes in use stay, and
there are no more of them.  A pointer of no node changes nothing. -/
def FreesBlock (h : Heap) (a : ℕ) (ns : List Node) (b ptr : ℕ) : Prop :=
  ∃ (fuel : ℕ) (h' : Heap) (ns' : List Node), h.mallocFreeFuel ptr fuel h.mallocHead = some h' ∧
    h'.Tiled a ns' b ∧
    (∀ n ∈ ns, (readNode h.mem n.addr).address = ptr → CoveredFree ns' n) ∧
    (∀ n ∈ ns, n.free = true → CoveredFree ns' n) ∧
    (∀ n : Node, n.free = false →
      (n ∈ ns' ↔ n ∈ ns ∧ (readNode h.mem n.addr).address ≠ ptr)) ∧
    ((∀ n ∈ ns, (readNode h.mem n.addr).address ≠ ptr) → h' = h)

/-- The pointer is that of the first node, which is not the only one, and the other nodes with it
are free already.  Of a single node, it is not the pointer, or the node is free already. -/
def FreesHead (h : Heap) (ptr : ℕ) : List Node → Prop
  | [] => False
  | [n] => (readNode h.mem n.addr).address = ptr → n.free = true
  | n :: ns => (readNode h.mem n.addr).address = ptr ∧
    ∀ k ∈ ns, (readNode h.mem k.addr).address = ptr → k.free = true

theorem prevs_of_fields {m m' : ByteStore} {prev : ℕ} {ns : List Node}
    (h : Prevs m prev (ns.map Node.addr))
    (hm : ∀ n ∈ ns, (readNode m' n.addr).prev = (readNode m n.addr).prev) :
    Prevs m' prev (ns.map Node.addr) := h.congr fun x hx ↦ by
  obtain ⟨n, hn, rfl⟩ := List.mem_map.mp hx
  exact hm n hn

instance decidableNodes (m : ByteStore) :
    ∀ (p : ℕ) (ns : List Node) (q : ℕ), Decidable (Nodes m p ns q)
  | p, [], q => inferInstanceAs (Decidable (p = q))
  | p, _ :: ns, q =>
    have := decidableNodes m (readNode m p).next ns q
    inferInstanceAs (Decidable (_ ∧ _))

instance decidablePrevs (m : ByteStore) : ∀ (prev : ℕ) (as : List ℕ), Decidable (Prevs m prev as)
  | _, [] => inferInstanceAs (Decidable True)
  | prev, a :: as =>
    have := decidablePrevs m a as
    inferInstanceAs (Decidable ((readNode m a).prev = prev ∧ _))

section Tiled

variable {h : Heap} {ns ns₁ ns₂ : List Node} {n : Node} {a b : ℕ}

theorem Tiled.length_lt (ht : h.Tiled a ns b) : ns.length < listFuel := by
  have hlen := ht.tiles.length_le fun e he ↦ by
    obtain ⟨n, -, rfl⟩ := List.mem_map.mp he
    simp only [Node.extent, nodeBytes]
    omega
  have hle := ht.le
  rw [List.length_map] at hlen
  rw [listFuel]
  cases ns with
  | nil => exact Nat.two_pow_pos 32
  | cons n ns =>
    -- the first node is not at 0
    obtain ⟨haddr, hne, -⟩ := ht.nodes
    have hstart : n.addr = a := ht.tiles.1
    omega

theorem Tiled.within (ht : h.Tiled a ns b) (hn : n ∈ ns) :
    a ≤ n.addr ∧ n.addr + nodeBytes + n.size ≤ b := by
  have hwithin := ht.tiles.within (List.mem_map_of_mem hn)
  simp only [Node.extent] at hwithin
  omega

theorem Tiled.node (ht : h.Tiled a ns b) (hn : n ∈ ns) :
    n.addr ≠ 0 ∧ (readNode h.mem n.addr).size = n.size ∧ (readNode h.mem n.addr).free = n.free := by
  obtain ⟨ns₁, ns₂, rfl⟩ := List.append_of_mem hn
  obtain ⟨r, -, hr⟩ := nodes_append.mp ht.nodes
  obtain ⟨rfl, hne, hsize, hfree, -⟩ := hr
  exact ⟨hne, hsize, hfree⟩

/-- The nodes take up all of the range. -/
theorem Tiled.sum_eq (ht : h.Tiled a ns b) :
    a + (ns.map fun j ↦ j.size + nodeBytes).sum = b := by
  have hsum := ht.tiles.sum_len
  rw [List.map_map] at hsum
  rw [← hsum]
  refine congrArg (fun l ↦ a + List.sum l) (List.map_congr_left fun j _ ↦ ?_)
  exact Nat.add_comm ..

/-- A node gives way to others that fill its bytes. -/
theorem Tiled.replace (ht : h.Tiled a (ns₁ ++ n :: ns₂) b) (m : ByteStore) (ks : List Node)
    (hout : ∀ x, x < n.addr ∨ n.addr + nodeBytes + n.size ≤ x → m x = h.mem x)
    (hks : Nodes m n.addr ks (readNode h.mem n.addr).next)
    (hfill : Extent.Tiles n.addr (ks.map Node.extent) (n.addr + (nodeBytes + n.size))) :
    Tiled { h with mem := m } a (ns₁ ++ ks ++ ns₂) b := by
  refine ⟨ht.nodes.replace ht.tiles hout hks, ?_, ht.le⟩
  have htiles := ht.tiles
  rw [List.map_append, List.map_cons, Extent.tiles_append] at htiles
  obtain ⟨c, ht₁, hc, ht₂⟩ := htiles
  obtain rfl : n.addr = c := hc
  rw [List.map_append, List.map_append]
  exact Extent.tiles_append.mpr ⟨_, Extent.tiles_append.mpr ⟨_, ht₁, hfill⟩, ht₂⟩

/-- A node with another flag. -/
theorem Tiled.setFree (ht : h.Tiled a (ns₁ ++ n :: ns₂) b) (v : Bool) :
    Tiled { h with mem := AbOS.setFree h.mem n.addr v } a
      (ns₁ ++ { n with free := v } :: ns₂) b := by
  obtain ⟨hne, hsize, -⟩ := ht.node (n := n) (by simp)
  have hnew := ht.replace (AbOS.setFree h.mem n.addr v) [{ n with free := v }]
    (fun x hx ↦ setFree_of_not_mem (by omega)) ?_ ?_
  · rwa [List.append_assoc, List.singleton_append] at hnew
  · refine ⟨rfl, hne, ?_, ?_, ?_⟩ <;> rw [readNode_setFree_self]
    · exact hsize
    · rfl
  · exact ⟨rfl, rfl⟩

/-! ## Splitting -/

/-- **What the search serves**: the node, and the list with the block taken out of it. -/
theorem Tiled.serve (ht : h.Tiled a (ns₁ ++ n :: ns₂) b) (hfree : n.free = true) {size : ℕ}
    (hfit : size + nodeBytes ≤ n.size) : ∃ (h' : Heap) (k : Node) (ks : List Node),
    h.serve n.addr size = some (n.addr + nodeBytes, h') ∧ h'.Tiled a (ns₁ ++ (k :: ks) ++ ns₂) b ∧
    k.addr = n.addr ∧ k.free = false ∧ size ≤ k.size ∧
    ∀ j ∈ ks, n.addr + nodeBytes ≤ j.addr ∧ j.addr + nodeBytes ≤ n.addr + nodeBytes + n.size := by
  have hn : n ∈ ns₁ ++ n :: ns₂ := by simp
  obtain ⟨hne, hsize, hnfree⟩ := ht.node hn
  have hw := (ht.within hn).2
  have hle := ht.le
  have hmod : (size + nodeBytes) % 2 ^ 32 = size + nodeBytes := Nat.mod_eq_of_lt (by omega)
  rw [Heap.serve, hmod, hsize]
  rcases hfit.eq_or_lt with heq | hlt
  · -- the node is taken as it is
    have hlt : n.addr + nodeBytes < 2 ^ 32 := by
      rw [nodeBytes] at *
      omega
    rw [if_pos heq.symm, Nat.mod_eq_of_lt hlt]
    refine ⟨_, { n with free := false }, [], rfl, ?_, rfl, rfl, Nat.le_of_add_right_le hfit,
      fun j hj ↦ absurd hj List.not_mem_nil⟩
    have hset := ht.setFree false
    rwa [List.append_assoc, List.singleton_append]
  · rw [if_neg (Nat.ne_of_gt hlt), splitBlocks, hnfree, if_pos hfree, hsize, hmod, if_pos hlt.le]
    obtain ⟨h₁, h₂, h₃⟩ := splitNode_spec h.mem n.addr size (by omega) (by rw [hsize]; exact hlt.le)
    dsimp only
    rw [h₁]
    refine ⟨_, ⟨n.addr, size, false⟩,
      [⟨n.addr + nodeBytes + size, n.size - size - nodeBytes, true⟩], rfl, ?_, rfl, rfl,
      Nat.le_refl _, fun j hj ↦ ?_⟩
    · refine ht.replace _ _ (fun x hx ↦ h₃ x (by omega) (by omega)) ⟨rfl, hne, ?_, ?_, ?_⟩
        ⟨rfl, ?_, ?_⟩
      · rw [h₁]
      · rw [h₁]
      · rw [h₁]
        refine ⟨rfl, by dsimp only; omega, ?_, ?_, ?_⟩ <;> rw [h₂]
        · rw [hsize]
        · rfl
      · simp only [Node.extent]
        omega
      · simp only [Node.extent, List.map_nil, Extent.Tiles]
        omega
    · obtain rfl := List.mem_singleton.mp hj
      dsimp only
      omega

/-- The block that is served lies below the end of the range. -/
theorem Conserves.lt {size : ℕ} (hc : Conserves h a ns b size) : size + nodeBytes < 2 ^ 32 := by
  obtain ⟨ptr, h', ns', n, k, -, ht', -, -, -, -, hk, -, -, hsize, -⟩ := hc
  have hwithin := (ht'.within hk).2
  have hne := (ht'.node hk).1
  have hle := ht'.le
  omega

/-- **Splitting conserves the heap** exactly when the size of the request and of a node do not wrap
around. -/
theorem conserves_iff (ht : h.Tiled a ns b) {size : BitVec 32} (hpos : size.toNat ≠ 0)
    (hserved : (h.search size.toNat).isSome) :
    Conserves h a ns b size.toNat ↔ size.toNat + nodeBytes < 2 ^ 32 := by
  constructor
  · exact Conserves.lt
  · intro hlt
    have hsearch : h.search size.toNat = (ns.find? fun n ↦ Fits size.toNat n).map Node.addr :=
      searchFuel_eq ht.nodes ht.length_lt
    rw [hsearch, Option.isSome_map] at hserved
    obtain ⟨n, hfind⟩ := Option.isSome_iff_exists.mp hserved
    rw [hfind] at hsearch
    obtain ⟨hfree, hfit⟩ : Fits size.toNat n := by simpa using List.find?_some hfind
    rw [Nat.mod_eq_of_lt hlt] at hfit
    have hn := List.mem_of_find?_eq_some hfind
    obtain ⟨ns₁, ns₂, rfl⟩ := List.append_of_mem hn
    obtain ⟨h', k, ks, hserve, ht', haddr, hused, hsize, hinside⟩ := ht.serve hfree hfit
    have hcall : h.mallocNext size.toNat = some (n.addr + nodeBytes, h') := by
      rw [mallocNext, if_neg hpos, mallocNextFuel_eq ht.nodes ht.length_lt, hfind]
      exact hserve
    have hsum := ht.sum_eq
    have hsum' := ht'.sum_eq
    refine ⟨_, h', _, n, k, hcall, ht', by omega, hn, hfree, hsearch, by simp, haddr, hused, hsize,
      rfl, fun j hj hne ↦ ?_, fun j hj ↦ ?_⟩
    · rcases List.mem_append.mp hj with hj | hj
      · simp [hj]
      · simp [(List.mem_cons.mp hj).resolve_left hne]
    · simp only [List.mem_append, List.mem_cons] at hj ⊢
      rcases hj with (hj | hj | hj) | hj
      · exact Or.inl (Or.inl hj)
      · exact Or.inr (Or.inl hj)
      · exact Or.inr (Or.inr (hinside j hj))
      · exact Or.inl (Or.inr (Or.inr hj))

/-- The heap of `init_malloc`. -/
theorem start_tiled (mem : ByteStore) (fresh : ℕ → ByteStore) :
    (HeapLinks.start mem fresh).heap.Tiled mallocStart [⟨mallocStart, pageSize - nodeBytes, true⟩]
      (mallocStart + pageSize) where
  nodes := (HeapRun.start_holds mem fresh).chain.nodes
  tiles := (HeapRun.start_holds mem fresh).tiles
  le := by decide

/-- A first block. -/
theorem conserves_start : Conserves (HeapLinks.start (fun _ ↦ 0) fun _ _ ↦ 0).heap mallocStart
    [⟨mallocStart, pageSize - nodeBytes, true⟩] (mallocStart + pageSize) 1000 :=
  (conserves_iff (start_tiled ..) (show (1000 : BitVec 32).toNat ≠ 0 by decide)
    (by decide +kernel)).mpr (by decide)

/-- A block of nearly 4 GiB is served from a page. -/
theorem not_conserves_start :
    ((HeapLinks.start (fun _ ↦ 0) fun _ _ ↦ 0).heap.Tiled mallocStart
      [⟨mallocStart, pageSize - nodeBytes, true⟩] (mallocStart + pageSize)) ∧
    ((HeapLinks.start (fun _ ↦ 0) fun _ _ ↦ 0).heap.search (0xFFFFFFF0 : BitVec 32).toNat).isSome ∧
    ¬ Conserves (HeapLinks.start (fun _ ↦ 0) fun _ _ ↦ 0).heap mallocStart
      [⟨mallocStart, pageSize - nodeBytes, true⟩] (mallocStart + pageSize)
      (0xFFFFFFF0 : BitVec 32).toNat :=
  ⟨start_tiled .., by decide +kernel, fun hc ↦ absurd hc.lt (by decide)⟩

/-! ## Merging -/

/-- What `merge_free_blocks` leaves of a list that fills a range. -/
theorem Tiled.mergeFreeBlocks (ht : h.Tiled a ns b) : ∃ h', h.mergeFreeBlocks = some h' ∧
    h'.Tiled a (mergeNodes ns) b ∧
    ∀ n ∈ ns, (readNode h'.mem n.addr).prev = (readNode h.mem n.addr).prev := by
  obtain ⟨m, hm, hnodes, hout⟩ := mergeFuel_nodes listFuel ht.nodes ht.tiles ht.le ht.length_lt
  refine ⟨{ h with mem := m }, ?_, ⟨hnodes, mergeNodes_tiles ht.tiles, ht.le⟩, fun n hn ↦ ?_⟩
  · rw [Heap.mergeFreeBlocks, hm]
    rfl
  · exact (fields_of_merged ht.tiles hout hn).1

theorem Tiled.nodup (ht : h.Tiled a ns b) : (ns.map Node.addr).Nodup :=
  (pairwise_addr_of_tiles ht.tiles).imp Nat.ne_of_lt

theorem Tiled.unique {a' b' : ℕ} (ht : h.Tiled a ns₁ b) (ht' : h.Tiled a' ns₂ b') : ns₁ = ns₂ :=
  ht.nodes.unique ht'.nodes

/-- The first node keeps its place and its flag. -/
theorem head?_mergeNodes (ns : List Node) :
    (mergeNodes ns).head?.map (fun n ↦ (n.addr, n.free)) =
      ns.head?.map fun n ↦ (n.addr, n.free) := by
  match ns with
  | [] => rfl
  | [n] => rfl
  | n :: k :: ns =>
    rw [mergeNodes]
    split <;> rfl

/-- Free neighbours at the very end are merged, so none are left. -/
theorem noFreePair_mergeNodes : ∀ {ns : List Node},
    NoFreePair ns.dropLast → NoFreePair (mergeNodes ns)
  | [], _ => List.IsChain.nil
  | [_], _ => List.IsChain.singleton _
  | n :: k :: ns, h => by
    rw [mergeNodes]
    split
    · rename_i hfree
      rw [Bool.and_eq_true] at hfree
      cases ns with
      | nil => exact List.IsChain.singleton _
      | cons l ns => exact absurd hfree (List.isChain_cons_cons.mp h).1
    · rename_i hfree
      rw [Bool.and_eq_true] at hfree
      rw [List.dropLast_cons_cons] at h
      refine (noFreePair_mergeNodes h.tail).cons fun j hj ↦ ?_
      have hhead := head?_mergeNodes (k :: ns)
      rw [Option.mem_def.mp hj] at hhead
      obtain ⟨-, hflag⟩ := Prod.ext_iff.mp (Option.some.inj hhead)
      rw [show j.free = k.free from hflag]
      exact hfree

/-- **The links back** survive the merge exactly when it joins no two nodes with one behind them. -/
theorem prevs_mergeNodes_iff {m : ByteStore} : ∀ {ns : List Node} {prev : ℕ},
    (ns.map Node.addr).Nodup → Prevs m prev (ns.map Node.addr) →
      (Prevs m prev ((mergeNodes ns).map Node.addr) ↔ NoFreePair ns.dropLast)
  | [], _, _, _ => ⟨fun _ ↦ List.IsChain.nil, fun _ ↦ trivial⟩
  | [_], _, _, h => ⟨fun _ ↦ List.IsChain.nil, fun _ ↦ h⟩
  | n :: k :: ns, prev, hnd, h => by
    rw [List.map_cons, List.nodup_cons] at hnd
    rw [mergeNodes]
    split
    · rename_i hfree
      rw [Bool.and_eq_true] at hfree
      cases ns with
      | nil => exact ⟨fun _ ↦ List.IsChain.singleton _, fun _ ↦ ⟨h.1, trivial⟩⟩
      | cons l ns =>
        refine ⟨fun hnew ↦ ?_, fun hpair ↦ absurd hfree (List.isChain_cons_cons.mp hpair).1⟩
        -- the node behind the pair has the link to the one that is gone
        have hnew := hnew.2
        have hhead := head?_mergeNodes (l :: ns)
        cases hns : mergeNodes (l :: ns) with
        | nil => exact absurd hns (mergeNodes_ne_nil l ns)
        | cons j js =>
          rw [hns] at hhead hnew
          obtain ⟨haddr, -⟩ := Prod.ext_iff.mp (Option.some.inj hhead)
          have hprev : (readNode m l.addr).prev = n.addr := by
            rw [← show j.addr = l.addr from haddr]
            exact hnew.1
          exact absurd (hprev.symm.trans h.2.2.1) fun heq ↦ hnd.1 (heq ▸ List.mem_cons_self)
    · rename_i hfree
      rw [Bool.and_eq_true] at hfree
      rw [List.dropLast_cons_cons, List.map_cons, Prevs, prevs_mergeNodes_iff hnd.2 h.2]
      constructor
      · rintro ⟨-, hpair⟩
        refine hpair.cons fun j hj ↦ ?_
        cases ns with
        | nil => exact absurd hj (by simp)
        | cons l ns =>
          obtain rfl : k = j := by simpa using hj
          exact hfree
      · exact fun hpair ↦ ⟨h.1, hpair.tail⟩

/-- Without free neighbours there is nothing to do. -/
theorem mergeFuel_of_noFreePair {m : ByteStore} {p fuel : ℕ} (hn : Nodes m p ns 0)
    (hpair : NoFreePair ns) (hfuel : ns.length < fuel) : mergeFuel fuel p m = some m := by
  induction ns generalizing p fuel with
  | nil =>
    obtain ⟨fuel, rfl⟩ : ∃ k, fuel = k + 1 := ⟨fuel - 1, by omega⟩
    rw [mergeFuel, if_neg fun hcon ↦ hcon.1 hn]
  | cons n ns ih =>
    rw [List.length_cons] at hfuel
    obtain ⟨fuel, rfl⟩ : ∃ k, fuel = k + 1 := ⟨fuel - 1, by omega⟩
    obtain ⟨rfl, hne, -, hfree, hnext⟩ := hn
    rw [mergeFuel]
    split
    · cases ns with
      | nil =>
        rename_i hcon
        exact absurd hnext hcon.2
      | cons k ns =>
        obtain ⟨hk, hpair⟩ := List.isChain_cons_cons.mp hpair
        have hkfree : (readNode m (readNode m n.addr).next).free = k.free := hnext.2.2.2.1
        have hstep : mergeStep m n.addr = m := by
          rw [mergeStep, hfree, hkfree, if_neg]
          rw [Bool.and_eq_true]
          exact hk
        dsimp only
        rw [hstep]
        exact ih hnext hpair (by omega)
    · rfl

theorem Coalesces.noFreePair (hc : Coalesces h a ns b) (ht : h.Tiled a ns b)
    (hprev : Prevs h.mem 0 (ns.map Node.addr)) : NoFreePair ns.dropLast := by
  obtain ⟨h', hmerged, ht', hfields⟩ := ht.mergeFreeBlocks
  obtain ⟨h₁, ns', hmerge, ht₁, -, -, hprev₁, -⟩ := hc
  obtain rfl := Option.some.inj (hmerged.symm.trans hmerge)
  obtain rfl := ht'.unique ht₁
  exact (prevs_mergeNodes_iff ht.nodup (prevs_of_fields hprev hfields)).mp hprev₁

/-- **Merging coalesces completely** exactly when no two neighbours are free, except for the last
two. -/
theorem coalesces_iff (ht : h.Tiled a ns b) (hprev : Prevs h.mem 0 (ns.map Node.addr)) :
    Coalesces h a ns b ↔ NoFreePair ns.dropLast := by
  refine ⟨fun hc ↦ hc.noFreePair ht hprev, fun hpair ↦ ?_⟩
  obtain ⟨h', hmerged, ht', hfields⟩ := ht.mergeFreeBlocks
  have hpair' := noFreePair_mergeNodes hpair
  refine ⟨h', _, hmerged, ht', fun n hn ↦ mem_mergeNodes_iff hn, hpair',
    (prevs_mergeNodes_iff ht.nodup (prevs_of_fields hprev hfields)).mpr hpair, ?_⟩
  rw [Heap.mergeFreeBlocks, mergeFuel_of_noFreePair ht'.nodes hpair' ht'.length_lt]
  rfl

/-- The state after a run whose nodes are these. -/
theorem exists_tiled_of_run (ops : List LinkOp) (ns : List Node) (hb : b ≤ 2 ^ 32)
    (htiles : Extent.Tiles a (ns.map Node.extent) b)
    (hrun : (Run.exec HeapLinks.step (HeapLinks.start (fun _ ↦ 0) fun _ _ ↦ 0) ops).any
      (fun s ↦ Nodes s.heap.mem s.heap.mallocHead ns 0 ∧ Prevs s.heap.mem 0 (ns.map Node.addr)) =
        true) :
    ∃ s, Run.exec HeapLinks.step (HeapLinks.start (fun _ ↦ 0) fun _ _ ↦ 0) ops = some s ∧
      s.heap.Tiled a ns b ∧ Prevs s.heap.mem 0 (ns.map Node.addr) := by
  obtain ⟨s, hs, hnodes⟩ := (Option.any_eq_true _ _).mp hrun
  obtain ⟨hnodes, hprevs⟩ := of_decide_eq_true hnodes
  exact ⟨s, hs, ⟨hnodes, htiles, hb⟩, hprevs⟩

/-- A block is freed, and the rest of the page lies behind it. -/
theorem coalesces_start : ∃ s, Run.exec HeapLinks.step
    (HeapLinks.start (fun _ ↦ 0) fun _ _ ↦ 0) [.mallocNext 1000, .free 0x400000] = some s ∧
      Coalesces s.heap mallocStart [⟨0x400000, 1000, true⟩, ⟨0x4003FC, 3056, true⟩]
        (mallocStart + pageSize) := by
  obtain ⟨s, hs, ht, hprevs⟩ := exists_tiled_of_run (a := mallocStart) (b := mallocStart + pageSize)
    [.mallocNext 1000, .free 0x400000] [⟨0x400000, 1000, true⟩, ⟨0x4003FC, 3056, true⟩]
    (by decide) ⟨rfl, rfl, rfl⟩ (by decide +kernel)
  exact ⟨s, hs, (coalesces_iff ht hprevs).mpr (List.IsChain.singleton _)⟩

/-- Two blocks are freed, and the rest of the page lies behind them. -/
theorem not_coalesces_start : ∃ s, Run.exec HeapLinks.step
    (HeapLinks.start (fun _ ↦ 0) fun _ _ ↦ 0)
      [.mallocNext 100, .mallocNext 100, .free 0x400000, .free 0x400078] = some s ∧
    s.heap.Tiled mallocStart [⟨0x400000, 100, true⟩, ⟨0x400078, 100, true⟩, ⟨0x4000F0, 3836, true⟩]
      (mallocStart + pageSize) ∧
    Prevs s.heap.mem 0 [0x400000, 0x400078, 0x4000F0] ∧
    ¬ Coalesces s.heap mallocStart
      [⟨0x400000, 100, true⟩, ⟨0x400078, 100, true⟩, ⟨0x4000F0, 3836, true⟩]
      (mallocStart + pageSize) := by
  obtain ⟨s, hs, ht, hprevs⟩ := exists_tiled_of_run (a := mallocStart) (b := mallocStart + pageSize)
    [.mallocNext 100, .mallocNext 100, .free 0x400000, .free 0x400078]
    [⟨0x400000, 100, true⟩, ⟨0x400078, 100, true⟩, ⟨0x4000F0, 3836, true⟩]
    (by decide) ⟨rfl, rfl, rfl, rfl⟩ (by decide +kernel)
  refine ⟨s, hs, ht, hprevs, fun hc ↦ ?_⟩
  exact (List.isChain_cons_cons.mp (hc.noFreePair ht hprevs)).1 ⟨rfl, rfl⟩

/-! ## Freeing -/

/-- The bytes of a free node stay free. -/
theorem coveredFree_mergeNodes : ∀ {ns : List Node} {a b : ℕ} {n : Node},
    Extent.Tiles a (ns.map Node.extent) b → n ∈ ns → n.free = true → CoveredFree (mergeNodes ns) n
  | [], _, _, _, _, hn, _ => absurd hn List.not_mem_nil
  | [_], _, _, n, _, hn, hfree => ⟨n, hn, hfree, Nat.le_refl _, Nat.le_refl _⟩
  | i :: k :: ns, a, b, n, ht, hn, hfree => by
    obtain ⟨hi, hk, ht⟩ := ht
    simp only [Node.extent] at hi hk
    rw [mergeNodes]
    split
    · rename_i hboth
      rw [Bool.and_eq_true] at hboth
      rcases List.mem_cons.mp hn with rfl | hn
      · exact ⟨_, List.mem_cons_self, hfree, Nat.le_refl _, by dsimp only; omega⟩
      rcases List.mem_cons.mp hn with rfl | hn
      · exact ⟨_, List.mem_cons_self, hboth.1, by dsimp only; omega, by dsimp only; omega⟩
      · obtain ⟨j, hj, hcovers⟩ := coveredFree_mergeNodes ht hn hfree
        exact ⟨j, List.mem_cons_of_mem _ hj, hcovers⟩
    · rcases List.mem_cons.mp hn with rfl | hn
      · exact ⟨n, List.mem_cons_self, hfree, Nat.le_refl _, Nat.le_refl _⟩
      · have htail : Extent.Tiles (a + i.extent.len) ((k :: ns).map Node.extent) b := ⟨hk, ht⟩
        obtain ⟨j, hj, hcovers⟩ := coveredFree_mergeNodes htail hn hfree
        exact ⟨j, List.mem_cons_of_mem _ hj, hcovers⟩

/-- **The loop never moves on.** -/
theorem mallocFreeFuel_eq_none {ptr temp : ℕ} (hnext : (readNode h.mem temp).next ≠ 0)
    (hptr : (readNode h.mem temp).address ≠ ptr) (fuel : ℕ) :
    h.mallocFreeFuel ptr fuel temp = none := by
  induction fuel with
  | zero => rfl
  | succ fuel ih => rw [mallocFreeFuel, if_pos hnext, if_neg hptr, ih]

/-- The only node is free already, or stays in use. -/
theorem freesBlock_singleton_iff (ht : h.Tiled a [n] b) {ptr : ℕ} :
    FreesBlock h a [n] b ptr ↔ FreesHead h ptr [n] := by
  obtain ⟨hhead, -, -, -, hend⟩ := ht.nodes
  have hround (fuel : ℕ) : h.mallocFreeFuel ptr (fuel + 1) h.mallocHead = some h := by
    rw [mallocFreeFuel, if_neg fun hcon ↦ hcon hend]
  constructor
  · rintro ⟨fuel, h', ns', hcall, ht', hfreed, -⟩ hptr
    cases fuel with
    | zero => cases hcall
    | succ fuel =>
      obtain rfl := Option.some.inj ((hround fuel).symm.trans hcall)
      obtain rfl := ht.unique ht'
      obtain ⟨k, hk, hfree, -⟩ := hfreed n List.mem_cons_self hptr
      rwa [List.mem_singleton.mp hk] at hfree
  · intro hhead
    have hcovered : ∀ k ∈ [n], k.free = true → CoveredFree [n] k := fun k hk hfree ↦
      ⟨k, hk, hfree, Nat.le_refl _, Nat.le_refl _⟩
    refine ⟨1, h, [n], hround 0, ht, fun k hk hptr ↦ ?_, hcovered,
      fun k hused ↦ ⟨fun hk ↦ ⟨hk, fun hptr ↦ ?_⟩, And.left⟩, fun _ ↦ rfl⟩
    · obtain rfl := List.mem_singleton.mp hk
      exact hcovered k hk (hhead hptr)
    · obtain rfl := List.mem_singleton.mp hk
      exact absurd (hused.symm.trans (hhead hptr)) Bool.false_ne_true

/-- Of several nodes only the first one is found. -/
theorem freesBlock_cons_cons_iff {k : Node} (ht : h.Tiled a (n :: k :: ns) b) {ptr : ℕ} :
    FreesBlock h a (n :: k :: ns) b ptr ↔ FreesHead h ptr (n :: k :: ns) := by
  have hn : n.addr = h.mallocHead := ht.nodes.1
  have hnext : (readNode h.mem h.mallocHead).next ≠ 0 := ht.nodes.2.2.2.2.2.1
  -- what the merge makes of the list with the first node free
  have hset : Tiled { h with mem := AbOS.setFree h.mem n.addr true } a
      ({ n with free := true } :: k :: ns) b :=
    Tiled.setFree (show h.Tiled a ([] ++ n :: k :: ns) b from ht) true
  obtain ⟨h', hmerged, ht', -⟩ := hset.mergeFreeBlocks
  have hround (fuel : ℕ) (hptr : (readNode h.mem n.addr).address = ptr) :
      h.mallocFreeFuel ptr (fuel + 1) h.mallocHead = some h' := by
    rw [mallocFreeFuel, if_pos hnext, if_pos (hn ▸ hptr), ← hn, ← hmerged, hn]
  constructor
  · rintro ⟨fuel, h₁, ns', hcall, ht₁, -, -, hused, -⟩
    have hptr : (readNode h.mem n.addr).address = ptr := by
      by_contra hptr
      rw [hn] at hptr
      rw [mallocFreeFuel_eq_none hnext hptr] at hcall
      cases hcall
    refine ⟨hptr, fun j hj hjptr ↦ ?_⟩
    cases fuel with
    | zero => cases hcall
    | succ fuel =>
      obtain rfl := Option.some.inj ((hround fuel hptr).symm.trans hcall)
      obtain rfl := ht'.unique ht₁
      by_contra hjfree
      rw [Bool.not_eq_true] at hjfree
      have hmem := (mem_mergeNodes_iff hjfree).mpr (List.mem_cons_of_mem { n with free := true } hj)
      exact ((hused j hjfree).mp hmem).2 hjptr
  · rintro ⟨hptr, hothers⟩
    have hcovered : ∀ j ∈ n :: k :: ns, (j ∈ k :: ns → j.free = true) →
        CoveredFree (mergeNodes ({ n with free := true } :: k :: ns)) j := fun j hj hfree ↦ by
      rcases List.mem_cons.mp hj with rfl | hj
      · exact coveredFree_mergeNodes (n := { j with free := true }) hset.tiles
          List.mem_cons_self rfl
      · exact coveredFree_mergeNodes hset.tiles (List.mem_cons_of_mem _ hj) (hfree hj)
    refine ⟨1, h', _, hround 0 hptr, ht', fun j hj hjptr ↦ hcovered j hj fun hj ↦ hothers j hj hjptr,
      fun j hj hfree ↦ hcovered j hj fun _ ↦ hfree,
      fun j hused ↦ ⟨fun hj ↦ ?_, fun ⟨hj, hjptr⟩ ↦ ?_⟩, fun hnone ↦ ?_⟩
    · rcases List.mem_cons.mp ((mem_mergeNodes_iff hused).mp hj) with rfl | hj
      · cases hused
      · refine ⟨List.mem_cons_of_mem _ hj, fun hjptr ↦ ?_⟩
        exact absurd (hused.symm.trans (hothers j hj hjptr)) Bool.false_ne_true
    · rcases List.mem_cons.mp hj with rfl | hj
      · exact absurd hptr hjptr
      · exact (mem_mergeNodes_iff hused).mpr (List.mem_cons_of_mem _ hj)
    · exact absurd hptr (hnone n List.mem_cons_self)

/-- **Freeing a block** works exactly when it is the block of the first node, and another node lies
behind it. -/
theorem freesBlock_iff (ht : h.Tiled a ns b) (hne : ns ≠ []) {ptr : ℕ} :
    FreesBlock h a ns b ptr ↔ FreesHead h ptr ns := by
  match ns, hne with
  | [n], _ => exact freesBlock_singleton_iff ht
  | n :: k :: ns, _ => exact freesBlock_cons_cons_iff ht

/-- The first page after two requests, and what its nodes hold. -/
theorem exists_tiled_twoBlocks : ∃ s, Run.exec HeapLinks.step
    (HeapLinks.start (fun _ ↦ 0) fun _ _ ↦ 0) [.mallocNext 100, .mallocNext 100] = some s ∧
      s.heap.Tiled mallocStart
        [⟨0x400000, 100, false⟩, ⟨0x400078, 100, false⟩, ⟨0x4000F0, 3836, true⟩]
        (mallocStart + pageSize) ∧
      (readNode s.heap.mem s.heap.mallocHead).next = 0x400078 ∧
      (readNode s.heap.mem s.heap.mallocHead).address = 0x400014 ∧
      (readNode s.heap.mem 0x400000).address = 0x400014 ∧
      (readNode s.heap.mem 0x400078).address = 0x40008C ∧
      (readNode s.heap.mem 0x4000F0).address = 0x400104 := by
  have hnodes : (Run.exec HeapLinks.step (HeapLinks.start (fun _ ↦ 0) fun _ _ ↦ 0)
      [.mallocNext 100, .mallocNext 100]).map (fun s ↦
        ((readNode s.heap.mem s.heap.mallocHead).next,
          (readNode s.heap.mem s.heap.mallocHead).address, (readNode s.heap.mem 0x400000).address,
          (readNode s.heap.mem 0x400078).address, (readNode s.heap.mem 0x4000F0).address)) =
      some (0x400078, 0x400014, 0x400014, 0x40008C, 0x400104) := by
    decide +kernel
  obtain ⟨s, hs, ht, -⟩ := exists_tiled_of_run (a := mallocStart) (b := mallocStart + pageSize)
    [.mallocNext 100, .mallocNext 100]
    [⟨0x400000, 100, false⟩, ⟨0x400078, 100, false⟩, ⟨0x4000F0, 3836, true⟩]
    (by decide) ⟨rfl, rfl, rfl, rfl⟩ (by decide +kernel)
  rw [hs] at hnodes
  simp only [Option.map_some, Option.some.injEq, Prod.mk.injEq] at hnodes
  exact ⟨s, hs, ht, hnodes⟩

/-- Of two blocks the first one is freed. -/
theorem freesBlock_start : ∃ s, Run.exec HeapLinks.step
    (HeapLinks.start (fun _ ↦ 0) fun _ _ ↦ 0) [.mallocNext 100, .mallocNext 100] = some s ∧
      FreesBlock s.heap mallocStart
        [⟨0x400000, 100, false⟩, ⟨0x400078, 100, false⟩, ⟨0x4000F0, 3836, true⟩]
        (mallocStart + pageSize) 0x400014 := by
  obtain ⟨s, hs, ht, -, -, hfirst, hothers⟩ := exists_tiled_twoBlocks
  refine ⟨s, hs, (freesBlock_iff ht (List.cons_ne_nil _ _)).mpr ⟨hfirst, ?_⟩⟩
  simp [hothers]

/-- Of two blocks the second one is freed. -/
theorem not_freesBlock_start : ∃ s, Run.exec HeapLinks.step
    (HeapLinks.start (fun _ ↦ 0) fun _ _ ↦ 0) [.mallocNext 100, .mallocNext 100] = some s ∧
      s.heap.Tiled mallocStart
        [⟨0x400000, 100, false⟩, ⟨0x400078, 100, false⟩, ⟨0x4000F0, 3836, true⟩]
        (mallocStart + pageSize) ∧
      (readNode s.heap.mem 0x400078).address = 0x40008C ∧
      (∀ fuel, s.heap.mallocFreeFuel 0x40008C fuel s.heap.mallocHead = none) ∧
      ¬ FreesBlock s.heap mallocStart
        [⟨0x400000, 100, false⟩, ⟨0x400078, 100, false⟩, ⟨0x4000F0, 3836, true⟩]
        (mallocStart + pageSize) 0x40008C := by
  obtain ⟨s, hs, ht, hnext, hhead, -, hsecond, -⟩ := exists_tiled_twoBlocks
  have hnone : ∀ fuel, s.heap.mallocFreeFuel 0x40008C fuel s.heap.mallocHead = none :=
    mallocFreeFuel_eq_none (by rw [hnext]; decide) (by rw [hhead]; decide)
  refine ⟨s, hs, ht, hsecond, hnone, fun ⟨fuel, h', ns', hcall, _⟩ ↦ ?_⟩
  rw [hnone] at hcall
  cases hcall

end Tiled

end Heap

end AbOS
