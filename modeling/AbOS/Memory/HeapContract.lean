import AbOS.Lib.Run
import AbOS.Memory.Malloc

/-!
# What the heap promises its clients

A client may write to every byte of a block it got from `malloc_next`.  That does no harm as long
as the block lies in pages of the heap and shares no byte with another block in use or with a node
of the list (`Contract`).

The invariant behind it says that the nodes fill the page `init_malloc` mapped, and that every
block in use lies in a node of its own (`Holds`).  It breaks as soon as the heap grows for the
second time: `malloc_more_pages` returns the address of the new node instead of the address behind
it, so the block covers its own node (`not_contract_start`).  The first growth starts at address 0,
because `init_malloc` leaves `heap_end` at 0, and so returns NULL.  As long as requests are met from
free nodes otherwise, the contract holds (`contract_of_meets`).
-/

set_option autoImplicit false

namespace AbOS

/-- The heap and the blocks that its clients hold. -/
structure HeapRun where
  heap : Heap
  /-- Pointer and size of each request that was met. -/
  live : List Extent

inductive HeapOp
  /-- `malloc_next(size)`. -/
  | mallocNext (size : BitVec 32)
  /-- `merge_free_blocks()`. -/
  | mergeFreeBlocks
  /-- A client writes to the `i`-th block. -/
  | write (i : ℕ) (bytes : List UInt8)

namespace HeapRun

/-- The heap of `init_malloc`.  All globals are zero before it. -/
def start (mem : ByteStore) (fresh : ℕ → ByteStore) : HeapRun :=
  ⟨Heap.initMalloc ⟨mem, 0, 0, 0, fresh, []⟩, []⟩

/-- One operation; `none` if it does not return, or if a client leaves its block. -/
def step (s : HeapRun) : HeapOp → Option HeapRun
  | .mallocNext size => (s.heap.mallocNext size.toNat).map fun (ptr, heap) ↦
    ⟨heap, if ptr = 0 then s.live else s.live ++ [⟨ptr, size.toNat⟩]⟩
  | .mergeFreeBlocks => s.heap.mergeFreeBlocks.map fun heap ↦ { s with heap }
  | .write i bytes => s.live[i]?.bind fun e ↦
    if bytes.length ≤ e.len then
      some { s with heap := { s.heap with mem := s.heap.mem.splice e.start bytes } }
    else none

/-- The request is for nothing, or a listed free node has room for it and for a node behind it, or
it makes the heap grow for the first time, below its own start. -/
def Served (s : HeapRun) : HeapOp → Prop
  | .mallocNext size => size.toNat = 0 ∨
    (size.toNat + nodeBytes < 2 ^ 32 ∧ ∃ p, Listed s.heap.mem s.heap.mallocHead p ∧
      (readNode s.heap.mem p).free = true ∧
      size.toNat + nodeBytes ≤ (readNode s.heap.mem p).size) ∨
    (s.heap.heapEnd = 0 ∧ mallocPages size.toNat * pageSize ≤ mallocStart)
  | _ => True

/-- **The contract**: the blocks lie in mapped pages, apart from each other and from the listed
nodes, so that filling one of them changes no other and no node. -/
structure Contract (s : HeapRun) : Prop where
  mapped : ∀ e ∈ s.live, ∀ x, e.Covers x → x / pageSize ∈ s.heap.mapped
  apart : s.live.Pairwise Extent.Apart
  nodes : ∀ e ∈ s.live, ∀ p, Listed s.heap.mem s.heap.mallocHead p → e.Apart ⟨p, nodeBytes⟩
  write : ∀ (i : ℕ) (e : Extent) (bytes : List UInt8), s.live[i]? = some e → bytes.length = e.len →
    (∀ (j : ℕ) (f : Extent), j ≠ i → s.live[j]? = some f →
      (s.heap.mem.splice e.start bytes).slice f.start f.len = s.heap.mem.slice f.start f.len) ∧
    ∀ p, Listed s.heap.mem s.heap.mallocHead p →
      (s.heap.mem.splice e.start bytes).slice p nodeBytes = s.heap.mem.slice p nodeBytes

/-- The invariant: the nodes fill the first page, and each block in use lies in one of them. -/
structure Holds (s : HeapRun) (ns : List Node) : Prop where
  head : s.heap.mallocHead = mallocStart
  page : mallocStart / pageSize ∈ s.heap.mapped
  chain : Chain s.heap.mem mallocStart ns 0
  tiles : Extent.Tiles mallocStart (ns.map Node.extent) (mallocStart + pageSize)
  live : ∀ e ∈ s.live, ∃ n ∈ ns, n.free = false ∧ n.addr + nodeBytes ≤ e.start ∧
    e.start + e.len ≤ n.addr + nodeBytes + n.size
  apart : s.live.Pairwise Extent.Apart

section Holds

variable {s t : HeapRun} {ns ns₁ ns₂ : List Node} {n : Node}

theorem Holds.within (h : s.Holds ns) (hn : n ∈ ns) :
    mallocStart ≤ n.addr ∧ n.addr + nodeBytes + n.size ≤ mallocStart + pageSize := by
  have := h.tiles.within (List.mem_map_of_mem hn)
  simp only [Node.extent] at this
  omega

theorem Holds.length_lt (h : s.Holds ns) : ns.length < listFuel := by
  have hlen := h.tiles.length_le fun e he ↦ by
    obtain ⟨n, -, rfl⟩ := List.mem_map.mp he
    simp only [Node.extent, nodeBytes]
    omega
  rw [List.length_map] at hlen
  rw [listFuel]
  rw [pageSize] at hlen
  omega

theorem Holds.ne_nil (h : s.Holds ns) : ns ≠ [] := by
  rintro rfl
  exact absurd (show mallocStart = 0 from h.chain) (by decide)

/-- Two nodes of the list are one or apart. -/
theorem Holds.eq_or_apart (h : s.Holds ns) {k : Node} (hn : n ∈ ns) (hk : k ∈ ns) :
    n = k ∨ n.addr + nodeBytes + n.size ≤ k.addr ∨ k.addr + nodeBytes + k.size ≤ n.addr :=
  eq_or_apart_of_tiles h.tiles hn hk

/-- A block in use has no byte in common with any node. -/
theorem Holds.apart_node (h : s.Holds ns) {e : Extent} (he : e ∈ s.live) (hn : n ∈ ns) :
    e.Apart ⟨n.addr, nodeBytes⟩ := by
  obtain ⟨k, hk, -, h1, h2⟩ := h.live e he
  rcases h.eq_or_apart hn hk with rfl | h3 | h3
  · exact (Extent.apart_of_le (e := ⟨n.addr, nodeBytes⟩) h1).symm
  · exact (Extent.apart_of_le (e := ⟨n.addr, nodeBytes⟩) (by simp only; omega)).symm
  · exact Extent.apart_of_le (by simp only; omega)

/-- **The invariant gives the contract.** -/
theorem Holds.contract (h : s.Holds ns) : s.Contract where
  mapped := fun e he x hx ↦ by
    obtain ⟨n, hn, -, h1, h2⟩ := h.live e he
    have hw := h.within hn
    have h3 := hx.1
    have h4 := hx.2
    rw [show x / pageSize = mallocStart / pageSize by
      rw [mallocStart, pageSize] at *; omega]
    exact h.page
  apart := h.apart
  nodes := fun e he p hp ↦ by
    rw [h.head, h.chain.listed_iff] at hp
    obtain ⟨n, hn, rfl⟩ := hp
    exact h.apart_node he hn
  write := fun i e bytes hi hlen ↦ by
    have hout : ∀ f : Extent, e.Apart f →
        (s.heap.mem.splice e.start bytes).slice f.start f.len = s.heap.mem.slice f.start f.len :=
      fun f hf ↦ ByteStore.slice_congr fun k hk ↦ by
        have := hf.symm (f.start + k) ⟨Nat.le_add_right .., by omega⟩
        rw [Extent.Covers, ← hlen] at this
        exact ByteStore.splice_of_not_mem (by omega)
    refine ⟨fun j f hj hf ↦ hout f ?_, fun p hp ↦ hout ⟨p, nodeBytes⟩ ?_⟩
    · obtain ⟨hi', hie⟩ := List.getElem?_eq_some_iff.mp hi
      obtain ⟨hj', hjf⟩ := List.getElem?_eq_some_iff.mp hf
      rcases Nat.lt_or_gt_of_ne hj with hlt | hlt
      · exact (hjf ▸ hie ▸ List.pairwise_iff_getElem.mp h.apart j i hj' hi' hlt : f.Apart e).symm
      · exact hjf ▸ hie ▸ List.pairwise_iff_getElem.mp h.apart i j hi' hj' hlt
    · rw [h.head, h.chain.listed_iff] at hp
      obtain ⟨n, hn, rfl⟩ := hp
      exact h.apart_node (List.mem_of_getElem? hi) hn

/-- A change of memory outside the nodes, and a mapping of more pages, keep the invariant. -/
theorem Holds.congr (h : s.Holds ns) {heap : Heap} (hhead : heap.mallocHead = s.heap.mallocHead)
    (hmapped : ∀ i ∈ s.heap.mapped, i ∈ heap.mapped)
    (hmem : ∀ n ∈ ns, readNode heap.mem n.addr = readNode s.heap.mem n.addr) :
    Holds ⟨heap, s.live⟩ ns where
  head := hhead.trans h.head
  page := hmapped _ h.page
  chain := h.chain.congr hmem
  tiles := h.tiles
  live := h.live
  apart := h.apart

/-- **Serving a request**: a free node is replaced by nodes that fill the same bytes, the first of
them in use and large enough for the block. -/
theorem Holds.replace (h : s.Holds (ns₁ ++ n :: ns₂)) (hfree : n.free = true) {m : ByteStore}
    (k : Node) (ks : List Node) (size : ℕ)
    (hout : ∀ x, x < n.addr ∨ n.addr + nodeBytes + n.size ≤ x → m x = s.heap.mem x)
    (hchain : Chain m n.addr (k :: ks) (readNode s.heap.mem n.addr).next)
    (htiles : Extent.Tiles n.addr ((k :: ks).map Node.extent) (n.addr + (nodeBytes + n.size)))
    (hk : k.free = false) (hsize : size ≤ k.size) :
    Holds ⟨{ s.heap with mem := m }, s.live ++ [⟨n.addr + nodeBytes, size⟩]⟩
      (ns₁ ++ (k :: ks) ++ ns₂) := by
  have hn : n ∈ ns₁ ++ n :: ns₂ := by simp
  obtain ⟨p, hc₁, hc₂⟩ := chain_append.mp h.chain
  have ht := h.tiles
  rw [List.map_append, List.map_cons, Extent.tiles_append] at ht
  obtain ⟨c, ht₁, htn, ht₂⟩ := ht
  obtain ⟨rfl, -, -, -, -, hc₃⟩ := hc₂
  obtain rfl : n.addr = c := htn
  have hkaddr : k.addr = n.addr := hchain.1
  have hroom : k.addr + nodeBytes + k.size ≤ n.addr + nodeBytes + n.size := by
    have := (htiles.within (e := k.extent) (by simp)).2
    simp only [Node.extent] at this
    omega
  -- the other nodes lie outside the bytes of `n`
  have hsame : ∀ j ∈ ns₁ ++ ns₂, readNode m j.addr = readNode s.heap.mem j.addr := by
    intro j hj
    have hjout : j.addr + nodeBytes ≤ n.addr ∨ n.addr + nodeBytes + n.size ≤ j.addr := by
      rcases List.mem_append.mp hj with hj | hj
      · have := (ht₁.within (List.mem_map_of_mem hj)).2
        simp only [Node.extent] at this
        omega
      · have := (ht₂.within (List.mem_map_of_mem hj)).1
        simp only [Node.extent] at this
        omega
    exact readNode_congr fun x h1 h2 ↦ hout x (by omega)
  refine ⟨h.head, h.page, ?_, ?_, ?_, ?_⟩
  · refine chain_append.mpr ⟨_, chain_append.mpr ⟨_, hc₁.congr fun j hj ↦ ?_, hchain⟩,
      hc₃.congr fun j hj ↦ ?_⟩
    · exact hsame j (List.mem_append_left _ hj)
    · exact hsame j (List.mem_append_right _ hj)
  · rw [List.map_append, List.map_append]
    exact Extent.tiles_append.mpr ⟨_, Extent.tiles_append.mpr ⟨_, ht₁, htiles⟩, ht₂⟩
  · intro e he
    rcases List.mem_append.mp he with he | he
    · obtain ⟨j, hj, hjfree, hje⟩ := h.live e he
      refine ⟨j, ?_, hjfree, hje⟩
      rcases List.mem_append.mp hj with hj | hj
      · simp [hj]
      rcases List.mem_cons.mp hj with rfl | hj
      · exact absurd (hfree.symm.trans hjfree) (by decide)
      · simp [hj]
    · obtain rfl := List.mem_singleton.mp he
      exact ⟨k, by simp, hk, by simp only; omega, by simp only; omega⟩
  · refine List.pairwise_append.mpr ⟨h.apart, List.pairwise_singleton .., fun e he f hf ↦ ?_⟩
    obtain rfl := List.mem_singleton.mp hf
    obtain ⟨j, hj, hjfree, h1, h2⟩ := h.live e he
    rcases h.eq_or_apart hn hj with rfl | h3 | h3
    · exact absurd (hfree.symm.trans hjfree) (by decide)
    · exact (Extent.apart_of_le (e := ⟨n.addr + nodeBytes, size⟩) (by simp only; omega)).symm
    · exact Extent.apart_of_le (by simp only; omega)

/-- A free node is split in the node of the user and a node for the rest. -/
theorem Holds.split (h : s.Holds (ns₁ ++ n :: ns₂)) (hfree : n.free = true) {size : ℕ}
    (hroom : size + nodeBytes < n.size) :
    Holds ⟨{ s.heap with mem := Heap.splitNode s.heap.mem n.addr size },
      s.live ++ [⟨n.addr + nodeBytes, size⟩]⟩
      (ns₁ ++ [⟨n.addr, size, false⟩,
        ⟨n.addr + nodeBytes + size, n.size - size - nodeBytes, true⟩] ++ ns₂) := by
  have hn : n ∈ ns₁ ++ n :: ns₂ := by simp
  obtain ⟨hne, hsize, -⟩ := h.chain.node hn
  have hw := h.within hn
  have hbase : mallocStart + pageSize < 2 ^ 32 := by decide
  obtain ⟨h1, h2, h3⟩ := Heap.splitNode_spec s.heap.mem n.addr size (by omega) (by omega)
  refine h.replace hfree ⟨n.addr, size, false⟩
    [⟨n.addr + nodeBytes + size, n.size - size - nodeBytes, true⟩] size
    (fun x hx ↦ h3 x (by omega) (by omega)) ?_ ?_ rfl (Nat.le_refl _)
  · refine ⟨rfl, hne, by rw [h1], by rw [h1], fun _ ↦ by rw [h1], ?_⟩
    rw [h1]
    refine ⟨rfl, by simp only; omega, by rw [h2, hsize], by rw [h2], fun _ ↦ by rw [h2], ?_⟩
    rw [h2]
    rfl
  · refine ⟨rfl, ?_, ?_⟩ <;> simp only [Node.extent, List.map_nil, Extent.Tiles] <;> omega

/-- A request that a free node has room for. -/
theorem Holds.mallocNext_fit (h : s.Holds ns) {size : ℕ} (hpos : size ≠ 0)
    (hlt : size + nodeBytes < 2 ^ 32)
    (hfit : ∃ n ∈ ns, n.free = true ∧ size + nodeBytes ≤ n.size) :
    ∃ ptr heap ns', s.heap.mallocNext size = some (ptr, heap) ∧ ptr ≠ 0 ∧
      Holds ⟨heap, s.live ++ [⟨ptr, size⟩]⟩ ns' := by
  rw [Heap.mallocNext, if_neg hpos, h.head, Heap.mallocNextFuel_eq h.chain.nodes h.length_lt]
  have hsome : (ns.find? fun n ↦ Heap.Fits size n).isSome = true := by
    obtain ⟨n, hn, hfree, hle⟩ := hfit
    rw [List.find?_isSome]
    exact ⟨n, hn, decide_eq_true ⟨hfree, by rwa [Nat.mod_eq_of_lt hlt]⟩⟩
  obtain ⟨n, hfind⟩ := Option.isSome_iff_exists.mp hsome
  rw [hfind]
  dsimp only
  have hmem := List.mem_of_find?_eq_some hfind
  obtain ⟨hfree, hle⟩ : Heap.Fits size n := by simpa using List.find?_some hfind
  rw [Nat.mod_eq_of_lt hlt] at hle
  obtain ⟨ns₁, ns₂, rfl⟩ := List.append_of_mem hmem
  obtain ⟨hne, hsize, hnfree⟩ := h.chain.node hmem
  have hw := h.within hmem
  rw [mallocStart, pageSize] at hw
  have haddr : (n.addr + nodeBytes) % 2 ^ 32 = n.addr + nodeBytes := Nat.mod_eq_of_lt (by omega)
  have hlink : (readNode s.heap.mem n.addr).next ≠ 0 →
      (readNode s.heap.mem n.addr).address = n.addr + nodeBytes := by
    obtain ⟨p, -, rfl, -, -, -, h5, -⟩ := chain_append.mp h.chain
    exact h5
  rw [Heap.serve, hsize, Nat.mod_eq_of_lt hlt, haddr]
  split
  · -- the node is taken as it is
    rename_i heq
    refine ⟨_, _, _, rfl, by rw [nodeBytes]; omega, h.replace hfree ⟨n.addr, n.size, false⟩
      [] size (fun x hx ↦ setFree_of_not_mem (by omega)) ?_ ⟨rfl, rfl⟩ rfl (by
        simp only
        omega)⟩
    refine ⟨rfl, hne, ?_, ?_, ?_, ?_⟩ <;> rw [readNode_setFree_self]
    · exact hsize
    · exact hlink
    · rfl
  · -- the node is split
    rename_i hneq
    have hgt : size + nodeBytes < n.size := by omega
    obtain ⟨h1, -, -⟩ := Heap.splitNode_spec s.heap.mem n.addr size (by omega) (by omega)
    refine ⟨n.addr + nodeBytes, _, _, ?_, by rw [nodeBytes]; omega, h.split hfree hgt⟩
    rw [Heap.splitBlocks, hnfree, if_pos hfree, hsize, Nat.mod_eq_of_lt hlt, if_pos hle]
    dsimp only
    rw [h1]

/-- The first growth: the new node at 0 looks like the end of the list, and the result is NULL. -/
theorem Holds.grow_zero (h : s.Holds ns) {size : ℕ} (hend : s.heap.heapEnd = 0)
    (hroom : mallocPages size * pageSize ≤ mallocStart) :
    ∃ heap, s.heap.grow size = some (0, heap) ∧ Holds ⟨heap, s.live⟩ ns := by
  obtain ⟨init, last, rfl⟩ : ∃ init last, ns = init ++ [last] :=
    ⟨_, _, (List.dropLast_append_getLast h.ne_nil).symm⟩
  have hlen := h.length_lt
  rw [List.length_append] at hlen
  have hlast : last ∈ init ++ [last] := by simp
  have hnext : (readNode s.heap.mem last.addr).next = 0 := by
    obtain ⟨p, -, rfl, -, -, -, -, h6⟩ := chain_append.mp h.chain
    exact h6
  have hw := h.within hlast
  rw [Heap.grow, Heap.mallocMorePages, hend, h.head,
    Heap.lastNodeFuel_eq h.chain (Nat.lt_of_le_of_lt (Nat.le_add_right ..) hlen)]
  rw [Option.map_some, Option.bind_some]
  dsimp only
  -- the nodes are where they were, and the last one keeps its link
  have hmapped : ∀ n ∈ init ++ [last],
      readNode (s.heap.mapPages 0 (mallocPages size)).mem n.addr = readNode s.heap.mem n.addr :=
    fun n hn ↦ readNode_congr fun x hx _ ↦ by
      have := h.within hn
      rw [mallocStart] at *
      exact Heap.mapPages_mem (Nat.zero_mod _) (by omega) (by omega)
  have hbase : mallocStart + pageSize < 2 ^ 32 ∧ nodeBytes ≤ mallocStart := by decide
  obtain ⟨hnew, hold, hout⟩ := Heap.linkNode_spec
    (s.heap.mapPages 0 (mallocPages size)).mem 0 last.addr (mallocPages size) (by decide) (by omega)
    (Or.inr (by omega))
  have hmem : ∀ n ∈ init ++ [last],
      readNode (Heap.linkNode (s.heap.mapPages 0 (mallocPages size)).mem 0 (mallocPages size)
        last.addr) n.addr = readNode s.heap.mem n.addr := by
    intro n hn
    have hwn := h.within hn
    rcases h.eq_or_apart hn hlast with rfl | hapart
    · rw [hold, hmapped n hn, ← hnext]
    · rw [← hmapped n hn]
      exact readNode_congr fun x hx hx' ↦ hout x (by omega) (by omega)
  have hholds : Holds ⟨{ s.heap.mapPages 0 (mallocPages size) with
      mem := Heap.linkNode (s.heap.mapPages 0 (mallocPages size)).mem 0 (mallocPages size) last.addr
      heapEnd := (0 + mallocPages size * pageSize) % 2 ^ 32
      totalMallocPages := mallocPages size }, s.live⟩ (init ++ [last]) :=
    h.congr Heap.mapPages_mallocHead (fun i ↦ Heap.mem_mapPages_mapped) hmem
  refine ⟨_, ?_, hholds⟩
  have hc := hholds.chain
  rw [← h.head, ← Heap.mapPages_mallocHead] at hc
  rw [hnew]
  dsimp only
  split
  · exact Heap.splitGrownFuel_zero hc h.ne_nil h.length_lt.le
  · rfl

/-- **Each request that is served** returns, and keeps the invariant. -/
theorem Holds.mallocNext (h : s.Holds ns) {size : BitVec 32} (hop : s.Served (.mallocNext size)) :
    ∃ ptr heap, s.heap.mallocNext size.toNat = some (ptr, heap) ∧ ∃ ns',
      Holds ⟨heap, if ptr = 0 then s.live else s.live ++ [⟨ptr, size.toNat⟩]⟩ ns' := by
  by_cases hzero : size.toNat = 0
  · exact ⟨0, s.heap, by rw [Heap.mallocNext, if_pos hzero], ns, h⟩
  by_cases hfit : size.toNat + nodeBytes < 2 ^ 32 ∧
      ∃ n ∈ ns, n.free = true ∧ size.toNat + nodeBytes ≤ n.size
  · obtain ⟨ptr, heap, ns', hcall, hptr, hholds⟩ := h.mallocNext_fit hzero hfit.1 hfit.2
    exact ⟨ptr, heap, hcall, ns', by rwa [if_neg hptr]⟩
  · rcases hop with hop | ⟨hlt, p, hp, hfree, hle⟩ | ⟨hend, hroom⟩
    · exact absurd hop hzero
    · rw [h.head, h.chain.listed_iff] at hp
      obtain ⟨n, hn, rfl⟩ := hp
      obtain ⟨-, hsize, hnfree⟩ := h.chain.node hn
      exact absurd ⟨hlt, n, hn, hnfree ▸ hfree, hsize ▸ hle⟩ hfit
    · obtain ⟨heap, hgrow, hholds⟩ := h.grow_zero hend hroom
      refine ⟨0, heap, ?_, ns, hholds⟩
      have hnone : (ns.find? fun n ↦ Heap.Fits size.toNat n) = none := by
        have hlt := (Heap.le_mallocPages size.toNat).trans hroom
        have hbase : mallocStart + nodeBytes < 2 ^ 32 := by decide
        rw [List.find?_eq_none]
        intro n hn hcon
        obtain ⟨hfree, hle⟩ : Heap.Fits size.toNat n := by simpa using hcon
        rw [Nat.mod_eq_of_lt (by omega)] at hle
        exact hfit ⟨by omega, n, hn, hfree, hle⟩
      rw [Heap.mallocNext, if_neg hzero, h.head, Heap.mallocNextFuel_eq h.chain.nodes h.length_lt,
        hnone]
      exact hgrow

/-- Merging returns, and keeps the invariant. -/
theorem Holds.mergeFreeBlocks (h : s.Holds ns) :
    ∃ heap, s.heap.mergeFreeBlocks = some heap ∧ Holds ⟨heap, s.live⟩ (Heap.mergeNodes ns) := by
  obtain ⟨m, hm, hc, -⟩ := Heap.mergeFuel_chain h.chain h.tiles (by decide) h.length_lt
  rw [← h.head] at hm
  refine ⟨{ s.heap with mem := m }, ?_, h.head, h.page, hc, Heap.mergeNodes_tiles h.tiles, ?_,
    h.apart⟩
  · rw [Heap.mergeFreeBlocks, hm]
    rfl
  · intro e he
    obtain ⟨n, hn, hfree, hne⟩ := h.live e he
    exact ⟨n, (Heap.mem_mergeNodes_iff hfree).mpr hn, hfree, hne⟩

theorem Holds.step (h : s.Holds ns) {op : HeapOp} (hop : s.Served op) (ht : s.step op = some t) :
    ∃ ns', t.Holds ns' := by
  cases op with
  | mallocNext size =>
    rw [HeapRun.step] at ht
    obtain ⟨⟨ptr, heap⟩, hcall, rfl⟩ := Option.map_eq_some_iff.mp ht
    obtain ⟨ptr', heap', hcall', ns', hholds⟩ := h.mallocNext hop
    cases hcall.symm.trans hcall'
    exact ⟨ns', hholds⟩
  | mergeFreeBlocks =>
    obtain ⟨heap, hcall, hholds⟩ := h.mergeFreeBlocks
    rw [HeapRun.step, hcall] at ht
    cases ht
    exact ⟨_, hholds⟩
  | write i bytes =>
    obtain ⟨e, he, hstep⟩ := Option.bind_eq_some_iff.mp ht
    split at hstep
    · rename_i hlen
      cases hstep
      refine ⟨ns, h.congr rfl (fun _ ↦ id) fun n hn ↦ ?_⟩
      have hapart := h.apart_node (List.mem_of_getElem? he) hn
      refine readNode_congr fun x hx hx' ↦ ByteStore.splice_of_not_mem ?_
      have := hapart.symm x ⟨hx, hx'⟩
      rw [Extent.Covers] at this
      omega
    · exact absurd hstep (by simp)

end Holds

/-! ## Runs -/

/-- `init_malloc` makes one free node of the page it maps. -/
theorem start_holds (mem : ByteStore) (fresh : ℕ → ByteStore) :
    (start mem fresh).Holds [⟨mallocStart, pageSize - nodeBytes, true⟩] where
  head := rfl
  page := List.mem_cons_self
  chain := by
    simp (disch := decide) only [start, Heap.initMalloc, Chain, readNode_setPrev_self,
      readNode_setNext_self, readNode_setFree_self, readNode_setSize_self]
    exact ⟨trivial, by decide, trivial, trivial, fun h ↦ absurd rfl h, trivial⟩
  tiles := by
    refine ⟨rfl, ?_⟩
    show mallocStart + (nodeBytes + (pageSize - nodeBytes)) = mallocStart + pageSize
    decide
  live := fun e he ↦ absurd he List.not_mem_nil
  apart := List.Pairwise.nil

/-- **The heap keeps its contract** in every run in which each request is served, and in each state
of such a run the calls return. -/
theorem contract_of_meets {mem : ByteStore} {fresh : ℕ → ByteStore} {ops : List HeapOp}
    {s : HeapRun} (hserved : Run.Meets step Served (start mem fresh) ops)
    (hrun : Run.exec step (start mem fresh) ops = some s) :
    s.Contract ∧ (∀ size, s.Served (.mallocNext size) → (s.step (.mallocNext size)).isSome) ∧
      (s.step .mergeFreeBlocks).isSome := by
  obtain ⟨ns, h⟩ := hserved.invariant (fun s ↦ ∃ ns, s.Holds ns)
    (fun _ _ _ ⟨_, h⟩ hop ht ↦ h.step hop ht) ⟨_, start_holds mem fresh⟩ hrun
  refine ⟨h.contract, fun size hop ↦ ?_, ?_⟩
  · obtain ⟨ptr, heap, hcall, -⟩ := h.mallocNext hop
    rw [step, hcall]
    rfl
  · obtain ⟨heap, hcall, -⟩ := h.mergeFreeBlocks
    rw [step, hcall]
    rfl

/-- A first block, a merge, and a request of two pages, which the first growth of the heap answers with
address 0. -/
theorem contract_start : ∃ s, Run.exec step (start (fun _ ↦ 0) fun _ _ ↦ 0)
    [.mallocNext 1000, .mergeFreeBlocks, .mallocNext 8192] = some s ∧ s.live = [⟨0x400014, 1000⟩] ∧
      s.Contract := by
  have hend : ((Run.exec step (start (fun _ ↦ 0) fun _ _ ↦ 0)
      [.mallocNext 1000, .mergeFreeBlocks]).map fun s ↦ s.heap.heapEnd) = some 0 := by
    decide +kernel
  have hlive : ((Run.exec step (start (fun _ ↦ 0) fun _ _ ↦ 0)
      [.mallocNext 1000, .mergeFreeBlocks, .mallocNext 8192]).map live) =
        some [⟨0x400014, 1000⟩] := by
    decide +kernel
  have hserved : Run.Meets step Served (start (fun _ ↦ 0) fun _ _ ↦ 0)
      [.mallocNext 1000, .mergeFreeBlocks, .mallocNext 8192] := by
    refine ⟨?_, fun t ht ↦ ⟨trivial, fun t' ht' ↦ ⟨?_, fun _ _ ↦ trivial⟩⟩⟩
    · exact Or.inr (Or.inl ⟨by decide, 0x400000, Listed.head (by decide), by decide +kernel,
        by decide +kernel⟩)
    · rw [Run.exec_cons.mpr ⟨t, ht, Run.exec_cons.mpr ⟨t', ht', rfl⟩⟩] at hend
      exact Or.inr (Or.inr ⟨Option.some.inj hend, by decide⟩)
  obtain ⟨s, hs, hlive⟩ := Option.map_eq_some_iff.mp hlive
  exact ⟨s, hs, hlive, (contract_of_meets hserved hs).1⟩

/-- The second growth of the heap returns the address of the new node. -/
theorem not_contract_start : ∃ s, Run.exec step (start (fun _ ↦ 0) fun _ _ ↦ 0)
    [.mallocNext 5000, .mallocNext 5000] = some s ∧ ¬ s.Contract := by
  have hrun : ((Run.exec step (start (fun _ ↦ 0) fun _ _ ↦ 0)
      [.mallocNext 5000, .mallocNext 5000]).map fun s ↦ (s.live, s.heap.mallocHead,
        (readNode s.heap.mem 0x400000).next)) = some ([⟨0x2000, 5000⟩], 0x400000, 0x2000) := by
    decide +kernel
  obtain ⟨s, hs, heq⟩ := Option.map_eq_some_iff.mp hrun
  obtain ⟨hlive, hhead, hnext⟩ : s.live = [⟨0x2000, 5000⟩] ∧ s.heap.mallocHead = 0x400000 ∧
      (readNode s.heap.mem 0x400000).next = 0x2000 := by simpa using heq
  refine ⟨s, hs, fun hcon ↦ ?_⟩
  have hlisted : Listed s.heap.mem s.heap.mallocHead 0x2000 := by
    have hfirst : Listed s.heap.mem s.heap.mallocHead 0x400000 := hhead ▸ Listed.head (by omega)
    exact hnext ▸ hfirst.next (by omega)
  exact hcon.nodes ⟨0x2000, 5000⟩ (by simp [hlive]) 0x2000 hlisted 0x2000 (by decide) (by decide)

end HeapRun

end AbOS
