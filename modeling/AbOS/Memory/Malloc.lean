import AbOS.Lib.Extent
import AbOS.Memory.Clients

/-!
# The kernel heap

`malloc_next` serves a request from the first node of a doubly linked list that is large enough,
and maps new pages behind `heap_end` when there is none.  The nodes lie in the memory that is
handed out, each in front of its block, so the model keeps them where they are: `Heap.mem` is the
virtual memory as the kernel sees it, and every function reads and writes the 20 bytes of a
`malloc_node_t` there.

A list in memory may have no end, so the loops take fuel and return `none` when it runs out.  What
they do on a list that does end is stated over `Nodes`, the list as a sequence of `Node`s:
`mallocNextFuel_eq` for the search, `splitNode_spec` for the cut, `mergeFuel_nodes` for
`merge_free_blocks`.  In a `Chain` the nodes store the addresses of their blocks as well.
-/

set_option autoImplicit false

namespace AbOS

/-! ## Nodes in memory -/

/-- `malloc_node_t`. -/
@[ext] structure MallocNode where
  size : ℕ
  free : Bool
  next : ℕ
  prev : ℕ
  address : ℕ
  deriving DecidableEq, Repr

/-- `sizeof(malloc_node_t)`: `free` is a byte, with three bytes of padding behind it. -/
def nodeBytes : ℕ := 20

/-- The node at `p`. -/
def readNode (m : ByteStore) (p : ℕ) : MallocNode where
  size := m.readWord p
  free := m (p + 4) != 0
  next := m.readWord (p + 8)
  prev := m.readWord (p + 12)
  address := m.readWord (p + 16)

def setSize (m : ByteStore) (p v : ℕ) : ByteStore := m.writeWord p v

def setFree (m : ByteStore) (p : ℕ) (v : Bool) : ByteStore := m.fill (p + 4) (if v then 1 else 0) 1

def setNext (m : ByteStore) (p v : ℕ) : ByteStore := m.writeWord (p + 8) v

def setPrev (m : ByteStore) (p v : ℕ) : ByteStore := m.writeWord (p + 12) v

def setAddress (m : ByteStore) (p v : ℕ) : ByteStore := m.writeWord (p + 16) v

/-- The kernel heap: its globals, the memory they point into, and what mapping brings in. -/
structure Heap where
  /-- The byte at each virtual address. -/
  mem : ByteStore
  mallocHead : ℕ
  heapEnd : ℕ
  totalMallocPages : ℕ
  /-- What the frames hold that the allocator hands out next, in this order. -/
  fresh : ℕ → ByteStore
  /-- The pages that the heap has mapped. -/
  mapped : List ℕ

/-- How far the loops follow a list: there are no more node addresses than this. -/
@[irreducible] def listFuel : ℕ := 2 ^ 32

namespace Heap

/-! ## The functions of the allocator -/

/-- Map the page of `virt` to the next frame. -/
def mapPage (h : Heap) (virt : ℕ) : Heap :=
  { h with
    mem := fun x ↦ if x / pageSize = virt / pageSize then h.fresh 0 (x % pageSize) else h.mem x
    fresh := fun i ↦ h.fresh (i + 1)
    mapped := virt / pageSize :: h.mapped }

/-- The loop of `map_address` calls over the pages from `virt` on. -/
def mapPages (h : Heap) (virt : ℕ) : ℕ → Heap
  | 0 => h
  | i + 1 => (mapPages h virt i).mapPage ((virt + i * pageSize) % 2 ^ 32)

/-- `init_malloc` on a heap whose globals are zero; `address` of the first node is not set. -/
def initMalloc (h : Heap) : Heap :=
  let h := h.mapPage mallocStart
  let m := setSize h.mem mallocStart (pageSize - nodeBytes)
  let m := setFree m mallocStart true
  let m := setNext m mallocStart 0
  let m := setPrev m mallocStart 0
  { h with
    mem := m
    mallocHead := mallocStart
    totalMallocPages := 1 }

/-- The loop that looks for the last node. -/
def lastNodeFuel (m : ByteStore) : ℕ → ℕ → Option ℕ
  | 0, _ => none
  | fuel + 1, temp =>
    if (readNode m temp).next ≠ 0 then lastNodeFuel m fuel (readNode m temp).next else some temp

/-- The stores of `malloc_more_pages`: the new node, and the link to it in the last one. -/
def linkNode (m : ByteStore) (virt total temp : ℕ) : ByteStore :=
  let m := setSize m virt ((total * pageSize + (2 ^ 32 - nodeBytes)) % 2 ^ 32)
  let m := setFree m virt false
  let m := setNext m virt 0
  let m := setPrev m virt temp
  let m := setAddress m virt virt
  setNext m temp virt

/-- `malloc_more_pages`. -/
def mallocMorePages (h : Heap) (size : ℕ) : Option (ℕ × Heap) :=
  let total := mallocPages size
  let virt := h.heapEnd
  (lastNodeFuel h.mem listFuel h.mallocHead).map fun temp ↦
    let h := h.mapPages virt total
    let m := linkNode h.mem virt total temp
    ((readNode m virt).address,
      { h with
        mem := m
        heapEnd := (virt + total * pageSize) % 2 ^ 32
        totalMallocPages := total })

/-- The stores of `split_blocks`: the free rest gets a node of its own behind the block. -/
def splitNode (m : ByteStore) (node size : ℕ) : ByteStore :=
  let old := (node + size + nodeBytes) % 2 ^ 32
  let m := setNext m old (readNode m node).next
  let m := setPrev m old node
  let m := setSize m old (((readNode m node).size + (2 ^ 32 - size) + (2 ^ 32 - nodeBytes)) % 2 ^ 32)
  let m := setFree m old true
  let m := setAddress m old ((old + nodeBytes) % 2 ^ 32)
  let m := setNext m node old
  let m := setPrev m node (readNode m node).prev
  let m := setSize m node size
  let m := setFree m node false
  setAddress m node ((node + nodeBytes) % 2 ^ 32)

/-- `split_blocks`; the first component is the pointer it returns. -/
def splitBlocks (h : Heap) (node size : ℕ) : Option (ℕ × Heap) :=
  if (readNode h.mem node).free then
    if (readNode h.mem node).size ≥ (size + nodeBytes) % 2 ^ 32 then
      let m := splitNode h.mem node size
      some ((readNode m node).address, { h with mem := m })
    else h.mallocMorePages size
  else some (0, h)

/-- The stores of one round of `merge_free_blocks`. -/
def mergeStep (m : ByteStore) (temp : ℕ) : ByteStore :=
  if (readNode m temp).free && (readNode m (readNode m temp).next).free then
    let m := setSize m temp (((readNode m temp).size +
      ((readNode m (readNode m temp).next).size + nodeBytes)) % 2 ^ 32)
    setNext m temp (readNode m (readNode m temp).next).next
  else m

/-- `merge_free_blocks`, from `temp` on. -/
def mergeFuel : ℕ → ℕ → ByteStore → Option ByteStore
  | 0, _, _ => none
  | fuel + 1, temp, m =>
    if temp ≠ 0 ∧ (readNode m temp).next ≠ 0 then
      let m := mergeStep m temp
      mergeFuel fuel (readNode m temp).next m
    else some m

/-- `merge_free_blocks`. -/
def mergeFreeBlocks (h : Heap) : Option Heap :=
  (mergeFuel listFuel h.mallocHead h.mem).map fun m ↦ { h with mem := m }

/-- The loop after `malloc_more_pages`, which looks for the new node by its address.  It stops in
front of the last node. -/
def splitGrownFuel (h : Heap) (ptr size : ℕ) : ℕ → ℕ → Option (ℕ × Heap)
  | 0, _ => none
  | fuel + 1, cur =>
    if (readNode h.mem cur).next ≠ 0 then
      if (readNode h.mem cur).address = ptr then h.splitBlocks cur size
      else splitGrownFuel h ptr size fuel (readNode h.mem cur).next
    else some (ptr, h)

/-- `malloc_next` after its search. -/
def grow (h : Heap) (size : ℕ) : Option (ℕ × Heap) :=
  (h.mallocMorePages size).bind fun (ptr, h) ↦
    if size < pageSize then h.splitGrownFuel ptr size listFuel h.mallocHead else some (ptr, h)

/-- The search of `malloc_next`, from `temp` on. -/
def mallocNextFuel (h : Heap) (size : ℕ) : ℕ → ℕ → Option (ℕ × Heap)
  | 0, _ => none
  | fuel + 1, temp =>
    if temp = 0 then h.grow size
    else if (readNode h.mem temp).free ∧
        (readNode h.mem temp).size = (size + nodeBytes) % 2 ^ 32 then
      some ((temp + nodeBytes) % 2 ^ 32, { h with mem := setFree h.mem temp false })
    else if (readNode h.mem temp).free ∧
        (readNode h.mem temp).size > (size + nodeBytes) % 2 ^ 32 then
      h.splitBlocks temp size
    else mallocNextFuel h size fuel (readNode h.mem temp).next

/-- `malloc_next`; the first component is the pointer it returns. -/
def mallocNext (h : Heap) (size : ℕ) : Option (ℕ × Heap) :=
  if size = 0 then some (0, h) else h.mallocNextFuel size listFuel h.mallocHead

end Heap

/-! ## Reading a node after a store -/

section Stores

variable {m m' : ByteStore} {p q v : ℕ} {b : Bool}

theorem readNode_congr (h : ∀ x, p ≤ x → x < p + nodeBytes → m' x = m x) :
    readNode m' p = readNode m p := by
  rw [nodeBytes] at h
  rw [readNode, readNode, h (p + 4) (by omega) (by omega),
    ByteStore.readWord_congr fun k hk ↦ h (p + k) (by omega) (by omega),
    ByteStore.readWord_congr fun k hk ↦ h (p + 8 + k) (by omega) (by omega),
    ByteStore.readWord_congr fun k hk ↦ h (p + 12 + k) (by omega) (by omega),
    ByteStore.readWord_congr fun k hk ↦ h (p + 16 + k) (by omega) (by omega)]

theorem setSize_of_not_mem {x : ℕ} (h : x < p ∨ p + nodeBytes ≤ x) : setSize m p v x = m x :=
  ByteStore.writeWord_of_not_mem (by rw [nodeBytes] at h; omega)

theorem setFree_of_not_mem {x : ℕ} (h : x < p ∨ p + nodeBytes ≤ x) : setFree m p b x = m x :=
  ByteStore.fill_of_not_mem (by rw [nodeBytes] at h; omega)

theorem setNext_of_not_mem {x : ℕ} (h : x < p ∨ p + nodeBytes ≤ x) : setNext m p v x = m x :=
  ByteStore.writeWord_of_not_mem (by rw [nodeBytes] at h; omega)

theorem setPrev_of_not_mem {x : ℕ} (h : x < p ∨ p + nodeBytes ≤ x) : setPrev m p v x = m x :=
  ByteStore.writeWord_of_not_mem (by rw [nodeBytes] at h; omega)

theorem setAddress_of_not_mem {x : ℕ} (h : x < p ∨ p + nodeBytes ≤ x) :
    setAddress m p v x = m x :=
  ByteStore.writeWord_of_not_mem (by rw [nodeBytes] at h; omega)

theorem readNode_setSize_self (hv : v < 2 ^ 32) :
    readNode (setSize m p v) p = { readNode m p with size := v } := by
  simp (disch := omega) only [readNode, setSize, ByteStore.readWord_writeWord hv,
    ByteStore.readWord_writeWord_of_apart, ByteStore.writeWord_of_not_mem]

theorem readNode_setFree_self : readNode (setFree m p b) p = { readNode m p with free := b } := by
  have h : ((if b then 1 else 0 : UInt8) != 0) = b := by cases b <;> rfl
  simp (disch := omega) only [readNode, setFree, ByteStore.readWord_fill_of_apart,
    ByteStore.fill_of_mem, h]

theorem readNode_setNext_self (hv : v < 2 ^ 32) :
    readNode (setNext m p v) p = { readNode m p with next := v } := by
  simp (disch := omega) only [readNode, setNext, ByteStore.readWord_writeWord hv,
    ByteStore.readWord_writeWord_of_apart, ByteStore.writeWord_of_not_mem]

theorem readNode_setPrev_self (hv : v < 2 ^ 32) :
    readNode (setPrev m p v) p = { readNode m p with prev := v } := by
  simp (disch := omega) only [readNode, setPrev, ByteStore.readWord_writeWord hv,
    ByteStore.readWord_writeWord_of_apart, ByteStore.writeWord_of_not_mem]

theorem readNode_setAddress_self (hv : v < 2 ^ 32) :
    readNode (setAddress m p v) p = { readNode m p with address := v } := by
  simp (disch := omega) only [readNode, setAddress, ByteStore.readWord_writeWord hv,
    ByteStore.readWord_writeWord_of_apart, ByteStore.writeWord_of_not_mem]

/-- A store into one node is not seen in another. -/
theorem readNode_of_apart (hset : ∀ x, x < p ∨ p + nodeBytes ≤ x → m' x = m x)
    (h : p + nodeBytes ≤ q ∨ q + nodeBytes ≤ p) : readNode m' q = readNode m q :=
  readNode_congr fun x _ _ ↦ hset x (by omega)

theorem readNode_setSize (h : p + nodeBytes ≤ q ∨ q + nodeBytes ≤ p) :
    readNode (setSize m p v) q = readNode m q := readNode_of_apart (fun _ ↦ setSize_of_not_mem) h

theorem readNode_setFree (h : p + nodeBytes ≤ q ∨ q + nodeBytes ≤ p) :
    readNode (setFree m p b) q = readNode m q := readNode_of_apart (fun _ ↦ setFree_of_not_mem) h

theorem readNode_setNext (h : p + nodeBytes ≤ q ∨ q + nodeBytes ≤ p) :
    readNode (setNext m p v) q = readNode m q := readNode_of_apart (fun _ ↦ setNext_of_not_mem) h

theorem readNode_setPrev (h : p + nodeBytes ≤ q ∨ q + nodeBytes ≤ p) :
    readNode (setPrev m p v) q = readNode m q := readNode_of_apart (fun _ ↦ setPrev_of_not_mem) h

theorem readNode_setAddress (h : p + nodeBytes ≤ q ∨ q + nodeBytes ≤ p) :
    readNode (setAddress m p v) q = readNode m q :=
  readNode_of_apart (fun _ ↦ setAddress_of_not_mem) h

theorem readNode_size_lt (m : ByteStore) (p : ℕ) : (readNode m p).size < 2 ^ 32 :=
  ByteStore.readWord_lt m p

theorem readNode_next_lt (m : ByteStore) (p : ℕ) : (readNode m p).next < 2 ^ 32 :=
  ByteStore.readWord_lt m (p + 8)

theorem readNode_prev_lt (m : ByteStore) (p : ℕ) : (readNode m p).prev < 2 ^ 32 :=
  ByteStore.readWord_lt m (p + 12)

end Stores

namespace Heap

/-- **What `split_blocks` stores**, when the block and the node behind it fit below the end of the
address space. -/
theorem splitNode_spec (m : ByteStore) (node size : ℕ)
    (hroom : node + nodeBytes + size + nodeBytes < 2 ^ 32)
    (hfit : size + nodeBytes ≤ (readNode m node).size) :
    readNode (splitNode m node size) node =
        ⟨size, false, node + nodeBytes + size, (readNode m node).prev, node + nodeBytes⟩ ∧
      readNode (splitNode m node size) (node + nodeBytes + size) =
        ⟨(readNode m node).size - size - nodeBytes, true, (readNode m node).next, node,
          node + nodeBytes + size + nodeBytes⟩ ∧
      ∀ x, x < node ∨ node + nodeBytes ≤ x →
        x < node + nodeBytes + size ∨ node + nodeBytes + size + nodeBytes ≤ x →
          splitNode m node size x = m x := by
  have hsize := readNode_size_lt m node
  have hnext := readNode_next_lt m node
  have hprev := readNode_prev_lt m node
  have hold : (node + size + nodeBytes) % 2 ^ 32 = node + nodeBytes + size := by omega
  have hold' : (node + nodeBytes + size + nodeBytes) % 2 ^ 32 =
      node + nodeBytes + size + nodeBytes := by omega
  have hnode : (node + nodeBytes) % 2 ^ 32 = node + nodeBytes := by omega
  have hrest : ((readNode m node).size + (2 ^ 32 - size) + (2 ^ 32 - nodeBytes)) % 2 ^ 32 =
      (readNode m node).size - size - nodeBytes := by omega
  have hlt : (readNode m node).size - size - nodeBytes < 2 ^ 32 := by omega
  refine ⟨?_, ?_, fun x hx hx' ↦ ?_⟩
  · simp (disch := omega) only [splitNode, hold, hold', hnode, hrest, readNode_setSize_self,
      readNode_setFree_self, readNode_setNext_self, readNode_setPrev_self,
      readNode_setAddress_self, readNode_setSize, readNode_setFree, readNode_setNext,
      readNode_setPrev, readNode_setAddress]
  · simp (disch := omega) only [splitNode, hold, hold', hnode, hrest, readNode_setSize_self,
      readNode_setFree_self, readNode_setNext_self, readNode_setPrev_self,
      readNode_setAddress_self, readNode_setSize, readNode_setFree, readNode_setNext,
      readNode_setPrev, readNode_setAddress]
  · simp (disch := omega) only [splitNode, hold, setSize_of_not_mem, setFree_of_not_mem,
      setNext_of_not_mem, setPrev_of_not_mem, setAddress_of_not_mem]

end Heap

/-! ## The list as a sequence -/

/-- A node without its links. -/
structure Node where
  addr : ℕ
  size : ℕ
  free : Bool
  deriving DecidableEq, Repr

/-- The bytes of the node and of its block. -/
def Node.extent (n : Node) : Extent := ⟨n.addr, nodeBytes + n.size⟩

/-- The links lead from `p` through the nodes of the list to `q`, and a node in front of another
one stores the address of its own block. -/
def Chain (m : ByteStore) : ℕ → List Node → ℕ → Prop
  | p, [], q => p = q
  | p, n :: ns, q => n.addr = p ∧ p ≠ 0 ∧ (readNode m p).size = n.size ∧
    (readNode m p).free = n.free ∧
    ((readNode m p).next ≠ 0 → (readNode m p).address = p + nodeBytes) ∧
    Chain m (readNode m p).next ns q

/-- The links lead from `p` through the nodes of the list to `q`, whatever they store for their
blocks. -/
def Nodes (m : ByteStore) : ℕ → List Node → ℕ → Prop
  | p, [], q => p = q
  | p, n :: ns, q => n.addr = p ∧ p ≠ 0 ∧ (readNode m p).size = n.size ∧
    (readNode m p).free = n.free ∧ Nodes m (readNode m p).next ns q

/-- `p` is a node of the list from `head` on. -/
inductive Listed (m : ByteStore) (head : ℕ) : ℕ → Prop
  | head : head ≠ 0 → Listed m head head
  | next {p : ℕ} : Listed m head p → (readNode m p).next ≠ 0 → Listed m head (readNode m p).next

section Chain

variable {m m' : ByteStore} {p q : ℕ} {ns ns₁ ns₂ : List Node} {n : Node}

/-- Two nodes of a list that fills a range are one or apart. -/
theorem eq_or_apart_of_tiles {a b : ℕ} {k : Node} (ht : Extent.Tiles a (ns.map Node.extent) b)
    (hn : n ∈ ns) (hk : k ∈ ns) :
    n = k ∨ n.addr + nodeBytes + n.size ≤ k.addr ∨ k.addr + nodeBytes + k.size ≤ n.addr := by
  obtain ⟨ns₁, ns₂, rfl⟩ := List.append_of_mem hn
  rw [List.map_append, List.map_cons, Extent.tiles_append] at ht
  obtain ⟨c, ht₁, hc, ht₂⟩ := ht
  simp only [List.mem_append, List.mem_cons] at hk
  simp only [Node.extent] at hc ht₂
  rcases hk with hk | rfl | hk
  · have := ht₁.within (List.mem_map_of_mem hk)
    simp only [Node.extent] at this
    omega
  · exact Or.inl rfl
  · have := ht₂.within (List.mem_map_of_mem hk)
    simp only [Node.extent] at this
    omega

theorem chain_append :
    Chain m p (ns₁ ++ ns₂) q ↔ ∃ r, Chain m p ns₁ r ∧ Chain m r ns₂ q := by
  induction ns₁ generalizing p with
  | nil => simp [Chain]
  | cons n ns₁ ih =>
    rw [List.cons_append, Chain, ih]
    constructor
    · rintro ⟨h1, h2, h3, h4, h5, r, h6, h7⟩; exact ⟨r, ⟨h1, h2, h3, h4, h5, h6⟩, h7⟩
    · rintro ⟨r, ⟨h1, h2, h3, h4, h5, h6⟩, h7⟩; exact ⟨h1, h2, h3, h4, h5, r, h6, h7⟩

/-- A list survives any change outside its nodes. -/
theorem Chain.congr (h : Chain m p ns q)
    (hm : ∀ n ∈ ns, readNode m' n.addr = readNode m n.addr) : Chain m' p ns q := by
  induction ns generalizing p with
  | nil => exact h
  | cons n ns ih =>
    obtain ⟨rfl, h2, h3, h4, h5, h6⟩ := h
    have hn := hm n List.mem_cons_self
    refine ⟨rfl, h2, by rw [hn, h3], by rw [hn, h4], by rwa [hn], ?_⟩
    rw [hn]
    exact ih h6 fun k hk ↦ hm k (List.mem_cons_of_mem _ hk)

/-- The header of a listed node. -/
theorem Chain.node (h : Chain m p ns q) (hn : n ∈ ns) :
    n.addr ≠ 0 ∧ (readNode m n.addr).size = n.size ∧ (readNode m n.addr).free = n.free := by
  induction ns generalizing p with
  | nil => exact absurd hn List.not_mem_nil
  | cons k ns ih =>
    obtain ⟨rfl, h2, h3, h4, -, h6⟩ := h
    rcases List.mem_cons.mp hn with rfl | hn
    · exact ⟨h2, h3, h4⟩
    · exact ih h6 hn

theorem Chain.listed_mem (h : Chain m p ns 0) {head : ℕ} (hp : p = 0 ∨ Listed m head p)
    (hn : n ∈ ns) : Listed m head n.addr := by
  induction ns generalizing p with
  | nil => exact absurd hn List.not_mem_nil
  | cons k ns ih =>
    obtain ⟨rfl, h2, -, -, -, h6⟩ := h
    have hk := hp.resolve_left h2
    rcases List.mem_cons.mp hn with rfl | hn
    · exact hk
    · refine ih h6 ?_ hn
      by_cases h0 : (readNode m k.addr).next = 0
      · exact Or.inl h0
      · exact Or.inr (Listed.next hk h0)

theorem nodes_append :
    Nodes m p (ns₁ ++ ns₂) q ↔ ∃ r, Nodes m p ns₁ r ∧ Nodes m r ns₂ q := by
  induction ns₁ generalizing p with
  | nil => simp [Nodes]
  | cons n ns₁ ih =>
    rw [List.cons_append, Nodes, ih]
    constructor
    · rintro ⟨h1, h2, h3, h4, r, h5, h6⟩; exact ⟨r, ⟨h1, h2, h3, h4, h5⟩, h6⟩
    · rintro ⟨r, ⟨h1, h2, h3, h4, h5⟩, h6⟩; exact ⟨h1, h2, h3, h4, r, h5, h6⟩

theorem Nodes.congr (h : Nodes m p ns q)
    (hm : ∀ n ∈ ns, readNode m' n.addr = readNode m n.addr) : Nodes m' p ns q := by
  induction ns generalizing p with
  | nil => exact h
  | cons n ns ih =>
    obtain ⟨rfl, h2, h3, h4, h5⟩ := h
    have hn := hm n List.mem_cons_self
    refine ⟨rfl, h2, by rw [hn, h3], by rw [hn, h4], ?_⟩
    rw [hn]
    exact ih h5 fun k hk ↦ hm k (List.mem_cons_of_mem _ hk)

/-- **A chain** is a list in which all nodes but the last one store the address of their block. -/
theorem chain_iff : Chain m p ns 0 ↔ Nodes m p ns 0 ∧
    ∀ n ∈ ns.dropLast, (readNode m n.addr).address = n.addr + nodeBytes := by
  induction ns generalizing p with
  | nil => simp [Chain, Nodes]
  | cons n ns ih =>
    cases ns with
    | nil =>
      refine ⟨fun ⟨h1, h2, h3, h4, _, h6⟩ ↦ ⟨⟨h1, h2, h3, h4, h6⟩, fun n hn ↦ ?_⟩,
        fun ⟨⟨h1, h2, h3, h4, h5⟩, _⟩ ↦ ⟨h1, h2, h3, h4, fun hne ↦ absurd h5 hne, h5⟩⟩
      exact absurd hn List.not_mem_nil
    | cons k ns =>
      rw [Chain, ih, Nodes, List.dropLast_cons_cons, List.forall_mem_cons]
      constructor
      · rintro ⟨rfl, h2, h3, h4, h5, h6, h7⟩
        have hne : (readNode m n.addr).next ≠ 0 := h6.2.1
        exact ⟨⟨rfl, h2, h3, h4, h6⟩, h5 hne, h7⟩
      · rintro ⟨⟨rfl, h2, h3, h4, h5⟩, h6, h7⟩
        exact ⟨rfl, h2, h3, h4, fun _ ↦ h6, h5, h7⟩

/-- A list in memory is one sequence only. -/
theorem Nodes.unique {ns' : List Node} (h : Nodes m p ns 0) (h' : Nodes m p ns' 0) : ns = ns' := by
  induction ns generalizing p ns' with
  | nil =>
    cases ns' with
    | nil => rfl
    | cons k ns' => exact absurd h h'.2.1
  | cons n ns ih =>
    cases ns' with
    | nil => exact absurd h' h.2.1
    | cons k ns' =>
      obtain ⟨haddr, -, hsize, hfree, hnext⟩ := h
      obtain ⟨haddr', -, hsize', hfree', hnext'⟩ := h'
      rw [ih hnext hnext', List.cons.injEq]
      refine ⟨?_, rfl⟩
      obtain ⟨naddr, nsize, nfree⟩ := n
      obtain ⟨kaddr, ksize, kfree⟩ := k
      rw [Node.mk.injEq]
      exact ⟨haddr.trans haddr'.symm, hsize.symm.trans hsize', hfree.symm.trans hfree'⟩

/-- A node gives way to others in its bytes. -/
theorem Nodes.replace {a b : ℕ} {ks : List Node} (h : Nodes m p (ns₁ ++ n :: ns₂) 0)
    (ht : Extent.Tiles a ((ns₁ ++ n :: ns₂).map Node.extent) b)
    (hout : ∀ x, x < n.addr ∨ n.addr + nodeBytes + n.size ≤ x → m' x = m x)
    (hks : Nodes m' n.addr ks (readNode m n.addr).next) : Nodes m' p (ns₁ ++ ks ++ ns₂) 0 := by
  obtain ⟨r, h₁, h₂⟩ := nodes_append.mp h
  obtain ⟨rfl, -, -, -, h₃⟩ := h₂
  -- the other nodes lie outside the bytes of `n`
  have hsame : ∀ j ∈ ns₁ ++ ns₂, readNode m' j.addr = readNode m j.addr := fun j hj ↦
    readNode_congr fun x hx hx' ↦ hout x <| by
      have hn : n ∈ ns₁ ++ n :: ns₂ := by simp
      rw [List.map_append, List.map_cons, Extent.tiles_append] at ht
      obtain ⟨c, ht₁, hc, ht₂⟩ := ht
      simp only [Node.extent] at hc ht₂
      rcases List.mem_append.mp hj with hj | hj
      · have := (ht₁.within (List.mem_map_of_mem hj)).2
        simp only [Node.extent] at this
        omega
      · have := (ht₂.within (List.mem_map_of_mem hj)).1
        simp only [Node.extent] at this
        omega
  refine nodes_append.mpr ⟨_, nodes_append.mpr ⟨_, h₁.congr fun j hj ↦ ?_, hks⟩,
    h₃.congr fun j hj ↦ ?_⟩
  · exact hsame j (List.mem_append_left _ hj)
  · exact hsame j (List.mem_append_right _ hj)

theorem Chain.nodes (h : Chain m p ns 0) : Nodes m p ns 0 := (chain_iff.mp h).1

/-- **The listed nodes** are those of the sequence. -/
theorem Chain.listed_iff (h : Chain m p ns 0) :
    Listed m p q ↔ ∃ n ∈ ns, n.addr = q := by
  constructor
  · intro hq
    induction hq with
    | head h0 =>
      cases ns with
      | nil => exact absurd h h0
      | cons n ns => exact ⟨n, List.mem_cons_self, h.1⟩
    | @next r _ h0 ih =>
      obtain ⟨n, hn, rfl⟩ := ih
      obtain ⟨ns₁, ns₂, rfl⟩ := List.append_of_mem hn
      obtain ⟨r, -, hr⟩ := chain_append.mp h
      obtain ⟨rfl, -, -, -, -, hnext⟩ := hr
      cases ns₂ with
      | nil => exact absurd hnext h0
      | cons k ns₂ => exact ⟨k, by simp, hnext.1⟩
  · rintro ⟨n, hn, rfl⟩
    refine h.listed_mem ?_ hn
    by_cases h0 : p = 0
    · exact Or.inl h0
    · exact Or.inr (Listed.head h0)

end Chain

namespace Heap

/-! ## Mapping pages -/

section Mapping

variable {h : Heap} {virt n : ℕ}

@[simp] theorem mapPages_mallocHead : (h.mapPages virt n).mallocHead = h.mallocHead := by
  induction n with
  | zero => rfl
  | succ n ih => rw [mapPages, mapPage, ih]

theorem mem_mapPages_mapped {i : ℕ} (hi : i ∈ h.mapped) : i ∈ (h.mapPages virt n).mapped := by
  induction n with
  | zero => exact hi
  | succ n ih => exact List.mem_cons_of_mem _ ih

/-- Memory outside the mapped pages keeps its contents. -/
theorem mapPages_mem (hvirt : virt % pageSize = 0) (hroom : virt + n * pageSize ≤ 2 ^ 32) {x : ℕ}
    (hx : x < virt ∨ virt + n * pageSize ≤ x) : (h.mapPages virt n).mem x = h.mem x := by
  induction n with
  | zero => rfl
  | succ n ih =>
    rw [Nat.succ_mul] at hroom hx
    have hpos : 0 < pageSize := by decide
    have hlt : virt + n * pageSize < 2 ^ 32 := by omega
    have hpage : x / pageSize ≠ (virt + n * pageSize) / pageSize := fun heq ↦ by
      rw [Nat.add_mul_div_right _ _ hpos] at heq
      have h₁ := Nat.div_add_mod' x pageSize
      have h₂ := Nat.div_add_mod' virt pageSize
      have h₃ := Nat.mod_lt x hpos
      rw [heq, Nat.add_mul, Nat.add_assoc] at h₁
      omega
    rw [mapPages, mapPage, Nat.mod_eq_of_lt hlt]
    dsimp only
    rw [if_neg hpage]
    exact ih (by omega) (by omega)

end Mapping

theorem le_mallocPages (size : ℕ) : size ≤ mallocPages size * pageSize := by
  have h := Nat.div_add_mod' size pageSize
  have hlt := Nat.mod_lt size (show 0 < pageSize by decide)
  rw [mallocPages]
  split
  · rw [Nat.succ_mul]
    omega
  · omega

/-! ## The loops on a list that ends -/

/-- The node can serve a request of `size` bytes. -/
def Fits (size : ℕ) (n : Node) : Prop := n.free = true ∧ (size + nodeBytes) % 2 ^ 32 ≤ n.size

instance (size : ℕ) (n : Node) : Decidable (Fits size n) := inferInstanceAs (Decidable (_ ∧ _))

/-- What the search of `malloc_next` does with the node it stops at. -/
def serve (h : Heap) (temp size : ℕ) : Option (ℕ × Heap) :=
  if (readNode h.mem temp).size = (size + nodeBytes) % 2 ^ 32 then
    some ((temp + nodeBytes) % 2 ^ 32, { h with mem := setFree h.mem temp false })
  else h.splitBlocks temp size

/-- **First fit**: the search stops at the first node that can serve the request. -/
theorem mallocNextFuel_eq {h : Heap} {size fuel p : ℕ} {ns : List Node}
    (hc : Nodes h.mem p ns 0) (hfuel : ns.length < fuel) :
    h.mallocNextFuel size fuel p =
      match ns.find? fun n ↦ Fits size n with
      | some n => h.serve n.addr size
      | none => h.grow size := by
  induction ns generalizing p fuel with
  | nil =>
    obtain ⟨fuel, rfl⟩ : ∃ k, fuel = k + 1 := ⟨fuel - 1, by simp at hfuel; omega⟩
    rw [mallocNextFuel, if_pos (show p = 0 from hc)]
    rfl
  | cons n ns ih =>
    obtain ⟨fuel, rfl⟩ : ∃ k, fuel = k + 1 := ⟨fuel - 1, by rw [List.length_cons] at hfuel; omega⟩
    obtain ⟨rfl, h2, h3, h4, h6⟩ := hc
    rw [mallocNextFuel, if_neg h2, List.find?_cons]
    by_cases hfit : Fits size n
    · rw [decide_eq_true hfit]
      rw [h3, h4]
      rcases Nat.eq_or_lt_of_le hfit.2 with heq | hlt
      · rw [if_pos ⟨hfit.1, heq.symm⟩]
        simp only [serve, h3, if_pos heq.symm]
      · rw [if_neg (fun hcon ↦ absurd hcon.2 (by omega)), if_pos ⟨hfit.1, hlt⟩]
        simp only [serve, h3, if_neg (show n.size ≠ (size + nodeBytes) % 2 ^ 32 by omega)]
    · rw [decide_eq_false hfit, h3, h4,
        if_neg fun hcon ↦ hfit ⟨hcon.1, by omega⟩, if_neg fun hcon ↦ hfit ⟨hcon.1, by omega⟩]
      exact ih h6 (by rw [List.length_cons] at hfuel; omega)

theorem lastNodeFuel_eq {m : ByteStore} {fuel p : ℕ} {ns : List Node} {n : Node}
    (hc : Chain m p (ns ++ [n]) 0) (hfuel : ns.length < fuel) :
    lastNodeFuel m fuel p = some n.addr := by
  induction ns generalizing p fuel with
  | nil =>
    obtain ⟨fuel, rfl⟩ : ∃ k, fuel = k + 1 := ⟨fuel - 1, by simp at hfuel; omega⟩
    obtain ⟨rfl, -, -, -, -, h6⟩ := hc
    rw [lastNodeFuel, if_neg fun hcon ↦ hcon h6]
  | cons k ns ih =>
    obtain ⟨fuel, rfl⟩ : ∃ k, fuel = k + 1 := ⟨fuel - 1, by rw [List.length_cons] at hfuel; omega⟩
    obtain ⟨rfl, -, -, -, -, h6⟩ := hc
    have hnext : (readNode m k.addr).next ≠ 0 := by
      cases ns with
      | nil => exact h6.1 ▸ (h6.2.1)
      | cons k' ns => exact h6.1 ▸ (h6.2.1)
    rw [lastNodeFuel, if_pos hnext]
    exact ih h6 (by rw [List.length_cons] at hfuel; omega)

/-- A node in front of another one never has the address 0, so the loop after a growth at 0 runs
to the end. -/
theorem splitGrownFuel_zero {h : Heap} {size fuel p : ℕ} {ns : List Node}
    (hc : Chain h.mem p ns 0) (hne : ns ≠ []) (hfuel : ns.length ≤ fuel) :
    h.splitGrownFuel 0 size fuel p = some (0, h) := by
  induction ns generalizing p fuel with
  | nil => exact absurd rfl hne
  | cons n ns ih =>
    obtain ⟨fuel, rfl⟩ : ∃ k, fuel = k + 1 := ⟨fuel - 1, by rw [List.length_cons] at hfuel; omega⟩
    obtain ⟨rfl, -, -, -, h5, h6⟩ := hc
    rw [splitGrownFuel]
    split
    · rename_i hnext
      have haddr := h5 hnext
      rw [if_neg (by rw [nodeBytes] at haddr; omega)]
      refine ih h6 ?_ (by rw [List.length_cons] at hfuel; omega)
      rintro rfl
      exact hnext h6
    · rfl

/-- `merge_free_blocks` on the sequence: a pair of free nodes becomes one, and the loop goes on
behind it. -/
def mergeNodes : List Node → List Node
  | [] => []
  | [n] => [n]
  | n :: k :: ns =>
    if n.free && k.free then { n with size := n.size + (k.size + nodeBytes) } :: mergeNodes ns
    else n :: mergeNodes (k :: ns)

/-- What `malloc_more_pages` stores: the pointer in the new node is that of the node itself. -/
theorem linkNode_spec (m : ByteStore) (virt temp total : ℕ) (hvirt : virt < 2 ^ 32)
    (htemp : temp < 2 ^ 32) (hapart : temp + nodeBytes ≤ virt ∨ virt + nodeBytes ≤ temp) :
    readNode (linkNode m virt total temp) virt =
        ⟨(total * pageSize + (2 ^ 32 - nodeBytes)) % 2 ^ 32, false, 0, temp, virt⟩ ∧
      readNode (linkNode m virt total temp) temp = { readNode m temp with next := virt } ∧
      ∀ x, x < virt ∨ virt + nodeBytes ≤ x → x < temp ∨ temp + nodeBytes ≤ x →
        linkNode m virt total temp x = m x := by
  have hsize : (total * pageSize + (2 ^ 32 - nodeBytes)) % 2 ^ 32 < 2 ^ 32 :=
    Nat.mod_lt _ (by decide)
  refine ⟨?_, ?_, fun x hx hx' ↦ ?_⟩
  · simp (disch := omega) only [linkNode, readNode_setSize_self, readNode_setFree_self,
      readNode_setNext_self, readNode_setPrev_self, readNode_setAddress_self, readNode_setNext]
  · simp (disch := omega) only [linkNode, readNode_setNext_self, readNode_setSize,
      readNode_setFree, readNode_setNext, readNode_setPrev, readNode_setAddress]
  · simp (disch := omega) only [linkNode, setSize_of_not_mem, setFree_of_not_mem,
      setNext_of_not_mem, setPrev_of_not_mem, setAddress_of_not_mem]

/-- One round joins two free neighbours; it writes to the size and the link of the first one. -/
theorem mergeStep_spec {m : ByteStore} {p : ℕ}
    (hfree : (readNode m p).free = true ∧ (readNode m (readNode m p).next).free = true)
    (hafter : p + nodeBytes ≤ (readNode m p).next)
    (hroom : (readNode m p).size + ((readNode m (readNode m p).next).size + nodeBytes) < 2 ^ 32) :
    readNode (mergeStep m p) p = { readNode m p with
        size := (readNode m p).size + ((readNode m (readNode m p).next).size + nodeBytes)
        next := (readNode m (readNode m p).next).next } ∧
      ∀ x, x < p ∨ p + 12 ≤ x → mergeStep m p x = m x := by
  have hnext := readNode_next_lt m (readNode m p).next
  have hboth : ((readNode m p).free && (readNode m (readNode m p).next).free) = true := by
    rw [hfree.1, hfree.2]
    rfl
  refine ⟨?_, fun x hx ↦ ?_⟩
  · simp (disch := omega) only [mergeStep, if_pos hboth, Nat.mod_eq_of_lt hroom,
      readNode_setSize_self, readNode_setNext_self, readNode_setSize]
  · simp only [mergeStep, if_pos hboth]
    rw [setNext, ByteStore.writeWord_of_not_mem (by omega), setSize,
      ByteStore.writeWord_of_not_mem (by omega)]

/-- **Merging** joins neighbours of a list that fills a range and writes to the sizes and links of
its nodes only. -/
theorem mergeFuel_nodes : ∀ (fuel : ℕ) {m : ByteStore} {p a b : ℕ} {ns : List Node},
    Nodes m p ns 0 → Extent.Tiles a (ns.map Node.extent) b → b ≤ 2 ^ 32 → ns.length < fuel →
      ∃ m', mergeFuel fuel p m = some m' ∧ Nodes m' p (mergeNodes ns) 0 ∧
        ∀ x, (∀ n ∈ ns, x < n.addr ∨ n.addr + 12 ≤ x) → m' x = m x
  | 0, _, _, _, _, _, _, _, _, hfuel => absurd hfuel (Nat.not_lt_zero _)
  | fuel + 1, m, p, a, b, [], hc, _, _, _ => by
    refine ⟨m, ?_, hc, fun _ _ ↦ rfl⟩
    rw [mergeFuel, if_neg fun hcon ↦ hcon.1 hc]
  | fuel + 1, m, p, a, b, [n], hc, _, _, _ => by
    refine ⟨m, ?_, hc, fun _ _ ↦ rfl⟩
    obtain ⟨rfl, -, -, -, h6⟩ := hc
    rw [mergeFuel, if_neg fun hcon ↦ hcon.2 h6]
  | fuel + 1, m, p, a, b, n :: k :: ns, hc, ht, hb, hfuel => by
    have hkb := ht.within (e := k.extent) (by simp)
    obtain ⟨hn, ht⟩ := ht
    have hrest : ∀ j ∈ k :: ns, n.addr + nodeBytes ≤ j.addr := fun j hj ↦ by
      have hj' := (ht.within (List.mem_map_of_mem hj)).1
      simp only [Node.extent] at hj' hn
      omega
    have hkn := hrest k List.mem_cons_self
    obtain ⟨rfl, h2, h3, h4, h6⟩ := hc
    have hknext : k.addr = (readNode m n.addr).next := h6.1
    have hne : (readNode m n.addr).next ≠ 0 := h6.2.1
    rw [mergeFuel, if_pos ⟨h2, hne⟩, mergeNodes]
    by_cases hfree : (n.free && k.free) = true
    · -- the first node takes the second over, and the loop goes on behind both
      obtain ⟨-, -, k3, k4, k6⟩ := h6
      rw [Bool.and_eq_true] at hfree
      have hkaddr := ht.1
      simp only [Node.extent] at hkb hn hkaddr
      obtain ⟨hstep, hout⟩ := mergeStep_spec (m := m) (p := n.addr)
        ⟨h4.trans hfree.1, k4.trans hfree.2⟩ (hknext ▸ hkn) (by rw [h3, k3]; omega)
      have hc₁ : Nodes (mergeStep m n.addr) (readNode (mergeStep m n.addr) n.addr).next ns 0 := by
        rw [hstep]
        refine k6.congr fun j hj ↦ readNode_of_apart (fun x hx ↦ hout x ?_)
          (Or.inl (hrest j (List.mem_cons_of_mem _ hj)))
        rw [nodeBytes] at hx
        omega
      obtain ⟨m', hm', hc', hout'⟩ := mergeFuel_nodes fuel hc₁ ht.2 hb
        (by simp only [List.length_cons] at hfuel; omega)
      have hn' : readNode m' n.addr = readNode (mergeStep m n.addr) n.addr :=
        readNode_congr fun x _ hx ↦ hout' x fun j hj ↦
          Or.inl (hx.trans_le (hrest j (List.mem_cons_of_mem _ hj)))
      refine ⟨m', hm', ?_, fun x hx ↦ ?_⟩
      · rw [if_pos (by rw [hfree.1, hfree.2]; rfl)]
        refine ⟨rfl, h2, ?_, ?_, ?_⟩
        · rw [hn', hstep, h3, k3]
        · rw [hn', hstep, h4]
        · rw [hn']
          exact hc'
      · rw [hout' x fun j hj ↦ hx j (List.mem_cons_of_mem _ (List.mem_cons_of_mem _ hj)),
          hout x (hx n List.mem_cons_self)]
    · have hstep : mergeStep m n.addr = m := by
        rw [mergeStep, h4, h6.2.2.2.1, if_neg hfree]
      obtain ⟨m', hm', hc', hout'⟩ := mergeFuel_nodes fuel h6 ht hb
        (by simp only [List.length_cons] at hfuel ⊢; omega)
      have hn' : readNode m' n.addr = readNode m n.addr :=
        readNode_congr fun x _ hx ↦ hout' x fun j hj ↦ Or.inl (hx.trans_le (hrest j hj))
      refine ⟨m', by rw [hstep]; exact hm', ?_, fun x hx ↦
        hout' x fun j hj ↦ hx j (List.mem_cons_of_mem _ hj)⟩
      rw [if_neg hfree]
      exact ⟨rfl, h2, by rw [hn', h3], by rw [hn', h4], by rw [hn']; exact hc'⟩

theorem mergeNodes_ne_nil (n : Node) (ns : List Node) : mergeNodes (n :: ns) ≠ [] := by
  cases ns with
  | nil => exact List.cons_ne_nil _ _
  | cons k ns =>
    rw [mergeNodes]
    split <;> exact List.cons_ne_nil _ _

/-- Merging changes neither `prev` nor `address` of any node. -/
theorem fields_of_merged {m m' : ByteStore} {a b : ℕ} {ns : List Node} {j : Node}
    (ht : Extent.Tiles a (ns.map Node.extent) b)
    (hout : ∀ x, (∀ n ∈ ns, x < n.addr ∨ n.addr + 12 ≤ x) → m' x = m x) (hj : j ∈ ns) :
    (readNode m' j.addr).prev = (readNode m j.addr).prev ∧
      (readNode m' j.addr).address = (readNode m j.addr).address := by
  have hsame : ∀ k, 12 ≤ k → k < 20 → m' (j.addr + k) = m (j.addr + k) := fun k h₁ h₂ ↦
    hout _ fun n hn ↦ by
      rcases eq_or_apart_of_tiles ht hn hj with rfl | hapart | hapart
      · exact Or.inr (by omega)
      · exact Or.inr (by rw [nodeBytes] at hapart; omega)
      · exact Or.inl (by rw [nodeBytes] at hapart; omega)
  refine ⟨ByteStore.readWord_congr fun k hk ↦ ?_, ByteStore.readWord_congr fun k hk ↦ ?_⟩
  · rw [Nat.add_assoc]
    exact hsame _ (by omega) (by omega)
  · rw [Nat.add_assoc]
    exact hsame _ (by omega) (by omega)

/-- A merged node has the address of one that was there, and is only the last one if that was. -/
theorem mem_dropLast_mergeNodes : ∀ {ns : List Node} {j : Node}, j ∈ (mergeNodes ns).dropLast →
    ∃ n ∈ ns.dropLast, n.addr = j.addr
  | [], _, h => absurd h List.not_mem_nil
  | [_], _, h => absurd h List.not_mem_nil
  | n :: k :: ns, j, h => by
    rw [mergeNodes] at h
    rw [List.dropLast_cons_cons]
    split at h
    · cases ns with
      | nil => exact absurd h List.not_mem_nil
      | cons i ns =>
        rw [List.dropLast_cons_of_ne_nil (mergeNodes_ne_nil i ns)] at h
        rcases List.mem_cons.mp h with rfl | h
        · exact ⟨n, List.mem_cons_self, rfl⟩
        · obtain ⟨n₀, hn₀, haddr⟩ := mem_dropLast_mergeNodes h
          exact ⟨n₀, List.mem_cons_of_mem _ (List.mem_cons_of_mem _ hn₀), haddr⟩
    · rw [List.dropLast_cons_of_ne_nil (mergeNodes_ne_nil k ns)] at h
      rcases List.mem_cons.mp h with rfl | h
      · exact ⟨j, List.mem_cons_self, rfl⟩
      · obtain ⟨n₀, hn₀, haddr⟩ := mem_dropLast_mergeNodes h
        exact ⟨n₀, List.mem_cons_of_mem _ hn₀, haddr⟩

/-- Merging a chain: the addresses of the blocks lie behind what it writes to. -/
theorem mergeFuel_chain {fuel : ℕ} {m : ByteStore} {p a b : ℕ} {ns : List Node}
    (hc : Chain m p ns 0) (ht : Extent.Tiles a (ns.map Node.extent) b) (hb : b ≤ 2 ^ 32)
    (hfuel : ns.length < fuel) : ∃ m', mergeFuel fuel p m = some m' ∧ Chain m' p (mergeNodes ns) 0 ∧
      ∀ x, (∀ n ∈ ns, x < n.addr ∨ n.addr + 12 ≤ x) → m' x = m x := by
  obtain ⟨hnodes, haddress⟩ := chain_iff.mp hc
  obtain ⟨m', hm', hnodes', hout⟩ := mergeFuel_nodes fuel hnodes ht hb hfuel
  refine ⟨m', hm', chain_iff.mpr ⟨hnodes', fun j hj ↦ ?_⟩, hout⟩
  obtain ⟨n, hn, haddr⟩ := mem_dropLast_mergeNodes hj
  rw [← haddr, ← haddress n hn]
  exact (fields_of_merged ht hout (List.dropLast_subset _ hn)).2

theorem mergeNodes_tiles : ∀ {ns : List Node} {a b : ℕ},
    Extent.Tiles a (ns.map Node.extent) b → Extent.Tiles a ((mergeNodes ns).map Node.extent) b
  | [], _, _, h => h
  | [_], _, _, h => h
  | n :: k :: ns, a, b, h => by
    obtain ⟨hn, hk, ht⟩ := h
    rw [mergeNodes]
    split
    · refine ⟨hn, ?_⟩
      rw [show a + n.extent.len + k.extent.len = a + (nodeBytes + (n.size + (k.size + nodeBytes)))
        by simp only [Node.extent]; omega] at ht
      exact mergeNodes_tiles ht
    · have htail : Extent.Tiles (a + n.extent.len) ((k :: ns).map Node.extent) b := ⟨hk, ht⟩
      exact ⟨hn, mergeNodes_tiles htail⟩

/-- A node in use is not merged, and none appears. -/
theorem mem_mergeNodes_iff : ∀ {ns : List Node} {j : Node},
    j.free = false → (j ∈ mergeNodes ns ↔ j ∈ ns)
  | [], _, _ => Iff.rfl
  | [_], _, _ => Iff.rfl
  | n :: k :: ns, j, hj => by
    rw [mergeNodes]
    split
    · rename_i hfree
      rw [Bool.and_eq_true] at hfree
      have hne : ∀ i : Node, i.free = true → j ≠ i := fun i hi he ↦
        Bool.false_ne_true (hj.symm.trans ((congrArg Node.free he).trans hi))
      rw [List.mem_cons, List.mem_cons, List.mem_cons, mem_mergeNodes_iff hj,
        or_iff_right (hne { n with size := n.size + (k.size + nodeBytes) } hfree.1),
        or_iff_right (hne n hfree.1), or_iff_right (hne k hfree.2)]
    · rw [List.mem_cons, List.mem_cons, mem_mergeNodes_iff hj]

end Heap

end AbOS
