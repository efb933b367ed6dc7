import AbOS.Memory.HeapContract

/-!
# The links of the heap

The nodes of the heap form a doubly linked list, and each keeps the address of its block for
`malloc_free` to compare with.  `WellLinked` says what the links and the addresses are meant to be.

`split_blocks` puts a node behind the one it splits, and `merge_free_blocks` takes one out, but
neither of them sets `prev` in the node that comes after: a split or a merge is right at the end of
the list only.  `init_malloc` leaves `address` of the first node unset, and a request of just its
size takes it as it is.  Runs that avoid these keep the list well linked (`wellLinked_of_meets`).
-/

set_option autoImplicit false

namespace AbOS

/-- The nodes from `p` on have the addresses of the list, the links lead to the end, and `prev`
leads back, from `p` to `prev`. -/
def Links (m : ByteStore) : ℕ → ℕ → List ℕ → Prop
  | _, p, [] => p = 0
  | prev, p, a :: as => p = a ∧ p ≠ 0 ∧ (readNode m p).prev = prev ∧
    Links m p (readNode m p).next as

namespace Heap

/-- The node that the search of `malloc_next` stops at. -/
def searchFuel (m : ByteStore) (size : ℕ) : ℕ → ℕ → Option ℕ
  | 0, _ => none
  | fuel + 1, temp =>
    if temp = 0 then none
    else if (readNode m temp).free ∧ (readNode m temp).size ≥ (size + nodeBytes) % 2 ^ 32 then
      some temp
    else searchFuel m size fuel (readNode m temp).next

/-- The search from the first node on. -/
def search (h : Heap) (size : ℕ) : Option ℕ := searchFuel h.mem size listFuel h.mallocHead

end Heap

/-- The heap, and for each node the pointer that the call returned which took it. -/
structure HeapLinks where
  heap : Heap
  pointer : ℕ → ℕ

inductive LinkOp
  /-- `malloc_next(size)`. -/
  | mallocNext (size : BitVec 32)
  /-- `merge_free_blocks()`. -/
  | mergeFreeBlocks
  /-- The node at `p` is freed. -/
  | free (p : ℕ)

namespace HeapLinks

/-- The heap of `init_malloc`. -/
def start (mem : ByteStore) (fresh : ℕ → ByteStore) : HeapLinks :=
  ⟨Heap.initMalloc ⟨mem, 0, 0, 0, fresh, []⟩, fun _ ↦ 0⟩

/-- The pointers after a call that returned `ptr`: it is that of the node which the call took. -/
def pointerAfter (s : HeapLinks) (ptr : ℕ) (heap : Heap) (p : ℕ) : ℕ :=
  if (readNode s.heap.mem p).free ∧ ¬ (readNode heap.mem p).free then ptr else s.pointer p

/-- One operation. -/
def step (s : HeapLinks) : LinkOp → Option HeapLinks
  | .mallocNext size => (s.heap.mallocNext size.toNat).map fun (ptr, heap) ↦
    ⟨heap, s.pointerAfter ptr heap⟩
  | .mergeFreeBlocks => s.heap.mergeFreeBlocks.map fun heap ↦ { s with heap }
  | .free p => some { s with heap := { s.heap with mem := setFree s.heap.mem p true } }

/-- The request is for nothing or there is a free node to serve it, and only nodes of the list that
are in use are freed. -/
def FromList (s : HeapLinks) : LinkOp → Prop
  | .mallocNext size => size.toNat = 0 ∨ (s.heap.search size.toNat).isSome
  | .mergeFreeBlocks => True
  | .free p => Listed s.heap.mem s.heap.mallocHead p ∧ (readNode s.heap.mem p).free = false

/-- **The list is as it should be**: it ends, its addresses increase, `prev` leads back from each
node to the one before, and a node in use has the address that was returned for it. -/
def WellLinked (s : HeapLinks) : Prop :=
  ∃ as : List ℕ, Links s.heap.mem 0 s.heap.mallocHead as ∧ as.Pairwise (· < ·) ∧
    ∀ p ∈ as, (readNode s.heap.mem p).free = false →
      (readNode s.heap.mem p).address = s.pointer p

/-- A node that is taken as it is has its address already; a node that is split is the last one,
and the size does not wrap around; of two free neighbours that are merged the second is the last
node. -/
def LinksKept (s : HeapLinks) : LinkOp → Prop
  | .mallocNext size => size.toNat ≠ 0 → ∀ p, s.heap.search size.toNat = some p →
    if (readNode s.heap.mem p).size = (size.toNat + nodeBytes) % 2 ^ 32 then
      (readNode s.heap.mem p).address = (p + nodeBytes) % 2 ^ 32
    else (readNode s.heap.mem p).next = 0 ∧ size.toNat + nodeBytes < 2 ^ 32
  | .mergeFreeBlocks => ∀ p, Listed s.heap.mem s.heap.mallocHead p →
    (readNode s.heap.mem p).next ≠ 0 → (readNode s.heap.mem p).free = true →
    (readNode s.heap.mem (readNode s.heap.mem p).next).free = true →
      (readNode s.heap.mem (readNode s.heap.mem p).next).next = 0
  | .free _ => True

end HeapLinks

/-! ## Links and sequences of nodes -/

/-- `prev` leads back through the addresses. -/
def Prevs (m : ByteStore) : ℕ → List ℕ → Prop
  | _, [] => True
  | prev, a :: as => (readNode m a).prev = prev ∧ Prevs m a as

section Prevs

variable {m m' : ByteStore} {prev p : ℕ}

theorem prevs_append {as bs : List ℕ} :
    Prevs m prev (as ++ bs) ↔ Prevs m prev as ∧ Prevs m (as.getLastD prev) bs := by
  induction as generalizing prev with
  | nil => simp [Prevs]
  | cons a as ih => rw [List.cons_append, Prevs, Prevs, ih, List.getLastD_cons, and_assoc]

theorem Prevs.congr {as : List ℕ} (h : Prevs m prev as)
    (hm : ∀ a ∈ as, (readNode m' a).prev = (readNode m a).prev) : Prevs m' prev as := by
  induction as generalizing prev with
  | nil => trivial
  | cons a as ih =>
    exact ⟨(hm a List.mem_cons_self).trans h.1, ih h.2 fun b hb ↦ hm b (List.mem_cons_of_mem _ hb)⟩

theorem Chain.links {ns : List Node} (h : Chain m p ns 0)
    (hprev : Prevs m prev (ns.map Node.addr)) : Links m prev p (ns.map Node.addr) := by
  induction ns generalizing p prev with
  | nil => exact h
  | cons n ns ih =>
    obtain ⟨rfl, h2, -, -, -, h6⟩ := h
    exact ⟨rfl, h2, hprev.1, ih h6 hprev.2⟩

theorem pairwise_addr_of_tiles {ns : List Node} {a b : ℕ}
    (h : Extent.Tiles a (ns.map Node.extent) b) : (ns.map Node.addr).Pairwise (· < ·) := by
  induction ns generalizing a with
  | nil => exact List.Pairwise.nil
  | cons n ns ih =>
    obtain ⟨hn, ht⟩ := h
    refine List.pairwise_cons.mpr ⟨fun c hc ↦ ?_, ih ht⟩
    obtain ⟨k, hk, rfl⟩ := List.mem_map.mp hc
    have := (ht.within (List.mem_map_of_mem hk)).1
    simp only [Node.extent] at this hn
    rw [nodeBytes] at this
    omega

end Prevs

/-! ## The search -/

/-- The search stops at the first node that can serve the request. -/
theorem Heap.searchFuel_eq {m : ByteStore} {size fuel p : ℕ} {ns : List Node}
    (hc : Nodes m p ns 0) (hfuel : ns.length < fuel) :
    Heap.searchFuel m size fuel p = (ns.find? fun n ↦ Heap.Fits size n).map Node.addr := by
  induction ns generalizing p fuel with
  | nil =>
    obtain ⟨fuel, rfl⟩ : ∃ k, fuel = k + 1 := ⟨fuel - 1, by simp at hfuel; omega⟩
    rw [searchFuel, if_pos (show p = 0 from hc)]
    rfl
  | cons n ns ih =>
    obtain ⟨fuel, rfl⟩ : ∃ k, fuel = k + 1 := ⟨fuel - 1, by rw [List.length_cons] at hfuel; omega⟩
    obtain ⟨rfl, h2, h3, h4, h6⟩ := hc
    rw [searchFuel, if_neg h2, List.find?_cons, h3, h4]
    by_cases hfit : Fits size n
    · rw [decide_eq_true hfit, if_pos (show _ ∧ _ from hfit)]
      rfl
    · rw [decide_eq_false hfit, if_neg (show ¬ (_ ∧ _) from hfit)]
      exact ih h6 (by rw [List.length_cons] at hfuel; omega)

namespace HeapLinks

/-! ## One operation -/

/-- The invariant: the nodes fill the first page, and links and addresses are right. -/
structure Linked (s : HeapLinks) (ns : List Node) : Prop where
  holds : HeapRun.Holds ⟨s.heap, []⟩ ns
  prevs : Prevs s.heap.mem 0 (ns.map Node.addr)
  given : ∀ n ∈ ns, n.free = false → (readNode s.heap.mem n.addr).address = n.addr + nodeBytes ∧
    s.pointer n.addr = n.addr + nodeBytes

section Linked

variable {s t : HeapLinks} {ns ns₁ ns₂ : List Node} {n : Node} {heap : Heap}

theorem Linked.wellLinked (h : s.Linked ns) : s.WellLinked := by
  refine ⟨ns.map Node.addr, ?_, pairwise_addr_of_tiles h.holds.tiles, fun p hp hused ↦ ?_⟩
  · rw [h.holds.head]
    exact h.holds.chain.links h.prevs
  · obtain ⟨n, hn, rfl⟩ := List.mem_map.mp hp
    rw [(h.holds.chain.node hn).2.2] at hused
    obtain ⟨haddress, hpointer⟩ := h.given n hn hused
    rw [haddress, hpointer]

/-- The nodes before and behind a node lie outside its bytes. -/
theorem outside_of_tiles {a b : ℕ}
    (h : Extent.Tiles a ((ns₁ ++ n :: ns₂).map Node.extent) b) :
    (∀ j ∈ ns₁, j.addr + nodeBytes + j.size ≤ n.addr) ∧
      ∀ j ∈ ns₂, n.addr + nodeBytes + n.size ≤ j.addr := by
  rw [List.map_append, List.map_cons, Extent.tiles_append] at h
  obtain ⟨c, ht₁, hc, ht₂⟩ := h
  simp only [Node.extent] at hc ht₂
  refine ⟨fun j hj ↦ ?_, fun j hj ↦ ?_⟩
  · have := (ht₁.within (List.mem_map_of_mem hj)).2
    simp only [Node.extent] at this
    omega
  · have := (ht₂.within (List.mem_map_of_mem hj)).1
    simp only [Node.extent] at this
    omega

/-- A flag of a node is changed. -/
theorem holds_setFree (h : HeapRun.Holds ⟨heap, []⟩ (ns₁ ++ n :: ns₂)) (b : Bool) :
    HeapRun.Holds ⟨{ heap with mem := setFree heap.mem n.addr b }, []⟩
      (ns₁ ++ { n with free := b } :: ns₂) := by
  obtain ⟨hbefore, hbehind⟩ := outside_of_tiles h.tiles
  obtain ⟨p, hc₁, hc₂⟩ := chain_append.mp h.chain
  obtain ⟨rfl, h2, h3, -, h5, h6⟩ := hc₂
  refine ⟨h.head, h.page, chain_append.mpr ⟨n.addr, hc₁.congr fun j hj ↦ ?_, ?_⟩, ?_,
    fun e he ↦ absurd he List.not_mem_nil, List.Pairwise.nil⟩
  · have := hbefore j hj
    exact readNode_setFree (by omega)
  · refine ⟨rfl, h2, ?_, ?_, ?_, ?_⟩ <;> dsimp only <;> rw [readNode_setFree_self]
    · exact h3
    · exact h5
    · exact h6.congr fun j hj ↦ by
        have := hbehind j hj
        exact readNode_setFree (by omega)
  · have htiles := h.tiles
    rw [List.map_append, List.map_cons] at htiles ⊢
    exact htiles

/-- No other field of any node changes with it. -/
theorem readNode_setFree_fields (h : HeapRun.Holds ⟨heap, []⟩ (ns₁ ++ n :: ns₂)) (b : Bool)
    {j : Node} (hj : j ∈ ns₁ ++ n :: ns₂) :
    (readNode (setFree heap.mem n.addr b) j.addr).prev = (readNode heap.mem j.addr).prev ∧
      (readNode (setFree heap.mem n.addr b) j.addr).address =
        (readNode heap.mem j.addr).address := by
  obtain ⟨hbefore, hbehind⟩ := outside_of_tiles h.tiles
  rcases List.mem_append.mp hj with hj | hj
  · have := hbefore j hj
    rw [readNode_setFree (by omega)]
    exact ⟨rfl, rfl⟩
  rcases List.mem_cons.mp hj with rfl | hj
  · rw [readNode_setFree_self]
    exact ⟨rfl, rfl⟩
  · have := hbehind j hj
    rw [readNode_setFree (by omega)]
    exact ⟨rfl, rfl⟩

theorem pointerAfter_of_used {ptr p : ℕ} (h : (readNode s.heap.mem p).free = false) :
    s.pointerAfter ptr heap p = s.pointer p :=
  if_neg fun hh ↦ absurd (h.symm.trans hh.1) Bool.false_ne_true

theorem pointerAfter_of_taken {ptr p : ℕ} (h : (readNode s.heap.mem p).free = true)
    (h' : (readNode heap.mem p).free = false) : s.pointerAfter ptr heap p = ptr :=
  if_pos ⟨h, fun hh ↦ absurd (h'.symm.trans hh) Bool.false_ne_true⟩

/-- A node is taken as it is, or freed. -/
theorem Linked.setFree (h : s.Linked (ns₁ ++ n :: ns₂)) (b : Bool) {pointer : ℕ → ℕ}
    (hnew : b = false → (readNode s.heap.mem n.addr).address = n.addr + nodeBytes ∧
      pointer n.addr = n.addr + nodeBytes)
    (hold : ∀ j ∈ ns₁ ++ n :: ns₂, j.free = false → pointer j.addr = s.pointer j.addr) :
    Linked ⟨{ s.heap with mem := AbOS.setFree s.heap.mem n.addr b }, pointer⟩
      (ns₁ ++ { n with free := b } :: ns₂) := by
  have hn : n ∈ ns₁ ++ n :: ns₂ := by simp
  have hfields := fun j (hj : j ∈ ns₁ ++ n :: ns₂) ↦ readNode_setFree_fields h.holds b hj
  have hother : ∀ j ∈ ns₁ ++ n :: ns₂, j.free = false →
      (readNode (AbOS.setFree s.heap.mem n.addr b) j.addr).address = j.addr + nodeBytes ∧
        pointer j.addr = j.addr + nodeBytes := fun j hj hused ↦ by
    obtain ⟨hadd, hptr⟩ := h.given j hj hused
    exact ⟨(hfields j hj).2.trans hadd, (hold j hj hused).trans hptr⟩
  refine ⟨holds_setFree h.holds b, ?_, fun j hj hused ↦ ?_⟩
  · have hprevs := h.prevs
    rw [List.map_append, List.map_cons] at hprevs ⊢
    refine hprevs.congr fun a ha ↦ ?_
    rw [← List.map_cons, ← List.map_append] at ha
    obtain ⟨j, hj, rfl⟩ := List.mem_map.mp ha
    exact (hfields j hj).1
  · rcases List.mem_append.mp hj with hj | hj
    · exact hother j (List.mem_append_left _ hj) hused
    rcases List.mem_cons.mp hj with rfl | hj
    · obtain ⟨hadd, hptr⟩ := hnew hused
      exact ⟨(hfields n hn).2.trans hadd, hptr⟩
    · exact hother j (List.mem_append_right _ (List.mem_cons_of_mem _ hj)) hused

theorem holds_nil {live : List Extent} (h : HeapRun.Holds ⟨heap, live⟩ ns) :
    HeapRun.Holds ⟨heap, []⟩ ns :=
  ⟨h.head, h.page, h.chain, h.tiles, fun _ he ↦ absurd he List.not_mem_nil, List.Pairwise.nil⟩

/-- The last node is split. -/
theorem Linked.split (h : s.Linked (ns₁ ++ [n])) (hfree : n.free = true) {size : ℕ}
    (hroom : size + nodeBytes < n.size) :
    Linked ⟨{ s.heap with mem := Heap.splitNode s.heap.mem n.addr size },
      s.pointerAfter (n.addr + nodeBytes)
        { s.heap with mem := Heap.splitNode s.heap.mem n.addr size }⟩
      (ns₁ ++ [⟨n.addr, size, false⟩,
        ⟨n.addr + nodeBytes + size, n.size - size - nodeBytes, true⟩]) := by
  have hn : n ∈ ns₁ ++ [n] := by simp
  obtain ⟨-, hsize, hnfree⟩ : n.addr ≠ 0 ∧ (readNode s.heap.mem n.addr).size = n.size ∧
      (readNode s.heap.mem n.addr).free = n.free := h.holds.chain.node hn
  have hw := h.holds.within hn
  have hbase : mallocStart + pageSize < 2 ^ 32 := by decide
  obtain ⟨h1, h2, h3⟩ := Heap.splitNode_spec s.heap.mem n.addr size (by omega) (by omega)
  obtain ⟨hbefore, -⟩ := outside_of_tiles h.holds.tiles
  have hsame : ∀ j ∈ ns₁, readNode (Heap.splitNode s.heap.mem n.addr size) j.addr =
      readNode s.heap.mem j.addr := fun j hj ↦ readNode_congr fun x _ hx ↦ by
    have := hbefore j hj
    exact h3 x (by omega) (by omega)
  have hprevs := h.prevs
  rw [List.map_append, prevs_append] at hprevs
  refine ⟨?_, ?_, fun j hj hused ↦ ?_⟩
  · have hnew := h.holds.split hfree hroom
    rw [List.append_nil] at hnew
    exact holds_nil hnew
  · dsimp only
    rw [List.map_append, prevs_append]
    refine ⟨hprevs.1.congr fun a ha ↦ ?_, ?_, ?_, trivial⟩
    · obtain ⟨j, hj, rfl⟩ := List.mem_map.mp ha
      rw [hsame j hj]
    · rw [h1]
      exact hprevs.2.1
    · rw [h2]
  · rcases List.mem_append.mp hj with hj | hj
    · have hmem : j ∈ ns₁ ++ [n] := List.mem_append_left _ hj
      obtain ⟨hadd, hptr⟩ := h.given j hmem hused
      dsimp only
      rw [hsame j hj, pointerAfter_of_used ((h.holds.chain.node hmem).2.2.trans hused)]
      exact ⟨hadd, hptr⟩
    rcases List.mem_cons.mp hj with rfl | hj
    · refine ⟨by rw [h1], pointerAfter_of_taken (hnfree.trans hfree) (by rw [h1])⟩
    · rw [List.mem_singleton.mp hj] at hused
      cases hused

/-- Nothing lies behind the last node. -/
theorem Linked.eq_nil_of_next (h : s.Linked (ns₁ ++ n :: ns₂))
    (hnext : (readNode s.heap.mem n.addr).next = 0) : ns₂ = [] := by
  obtain ⟨p, -, hc⟩ := chain_append.mp h.holds.chain
  obtain ⟨rfl, -, -, -, -, hc⟩ := hc
  cases ns₂ with
  | nil => rfl
  | cons k ns₂ => exact absurd hnext hc.2.1

theorem Linked.mallocNext (h : s.Linked ns) {size : BitVec 32}
    (hfrom : s.FromList (.mallocNext size)) (hkept : s.LinksKept (.mallocNext size))
    (hcall : s.step (.mallocNext size) = some t) : ∃ ns', t.Linked ns' := by
  obtain ⟨⟨ptr, heap⟩, hret, rfl⟩ := Option.map_eq_some_iff.mp hcall
  by_cases hzero : size.toNat = 0
  · -- nothing happens
    rw [Heap.mallocNext, if_pos hzero] at hret
    cases hret
    refine ⟨ns, h.holds, h.prevs, fun n hn hused ↦ ?_⟩
    obtain ⟨hadd, hptr⟩ := h.given n hn hused
    exact ⟨hadd, (pointerAfter_of_used ((h.holds.chain.node hn).2.2.trans hused)).trans hptr⟩
  have hfuel := h.holds.length_lt
  have hchain : Chain s.heap.mem s.heap.mallocHead ns 0 := by
    have hhead : s.heap.mallocHead = mallocStart := h.holds.head
    rw [hhead]
    exact h.holds.chain
  have hsearch : s.heap.search size.toNat =
      (ns.find? fun n ↦ Heap.Fits size.toNat n).map Node.addr := Heap.searchFuel_eq hchain.nodes hfuel
  rw [Heap.mallocNext, if_neg hzero, Heap.mallocNextFuel_eq hchain.nodes hfuel] at hret
  have hsome := hfrom.resolve_left hzero
  have hserved := hkept hzero
  rw [hsearch] at hsome hserved
  cases hfind : ns.find? fun n ↦ Heap.Fits size.toNat n with
  | none =>
    rw [hfind] at hsome
    exact absurd hsome Bool.false_ne_true
  | some n =>
    rw [hfind] at hret hserved
    obtain ⟨hfree, hle⟩ : Heap.Fits size.toNat n := by simpa using List.find?_some hfind
    obtain ⟨ns₁, ns₂, rfl⟩ := List.append_of_mem (List.mem_of_find?_eq_some hfind)
    have hn : n ∈ ns₁ ++ n :: ns₂ := by simp
    have hserved := hserved n.addr rfl
    obtain ⟨hne, hsize, hnfree⟩ : n.addr ≠ 0 ∧ (readNode s.heap.mem n.addr).size = n.size ∧
        (readNode s.heap.mem n.addr).free = n.free := h.holds.chain.node hn
    have hw := h.holds.within hn
    have hbase : mallocStart + pageSize < 2 ^ 32 := by decide
    have haddr : (n.addr + nodeBytes) % 2 ^ 32 = n.addr + nodeBytes := Nat.mod_eq_of_lt (by omega)
    rw [hsize, haddr] at hserved
    dsimp only at hret
    rw [Heap.serve, hsize, haddr] at hret
    by_cases hexact : n.size = (size.toNat + nodeBytes) % 2 ^ 32
    · -- the node is taken as it is
      rw [if_pos hexact] at hret hserved
      cases hret
      refine ⟨_, h.setFree false (fun _ ↦ ⟨hserved, ?_⟩) fun j hj hused ↦ ?_⟩
      · refine pointerAfter_of_taken (hnfree.trans hfree) ?_
        dsimp only
        rw [readNode_setFree_self]
      · exact pointerAfter_of_used ((h.holds.chain.node hj).2.2.trans hused)
    · -- the node is split, and is the last one
      rw [if_neg hexact] at hret hserved
      obtain rfl := h.eq_nil_of_next hserved.1
      rw [Nat.mod_eq_of_lt hserved.2] at hexact hle
      have hptr : (readNode (Heap.splitNode s.heap.mem n.addr size.toNat) n.addr).address =
          n.addr + nodeBytes := by
        rw [(Heap.splitNode_spec s.heap.mem n.addr size.toNat (by omega) (by omega)).1]
      rw [Heap.splitBlocks, hnfree, if_pos hfree, hsize, Nat.mod_eq_of_lt hserved.2, if_pos hle] at hret
      dsimp only at hret
      rw [hptr] at hret
      cases hret
      exact ⟨_, h.split hfree (by omega)⟩

/-- Merging two free neighbours at the end only. -/
theorem mergeNodes_eq_or : ∀ ns : List Node,
    (∀ ns₁ n k ns₂, ns = ns₁ ++ n :: k :: ns₂ → n.free = true → k.free = true → ns₂ = []) →
      Heap.mergeNodes ns = ns ∨ ∃ ns₁ n k, ns = ns₁ ++ [n, k] ∧ n.free = true ∧
        Heap.mergeNodes ns = ns₁ ++ [{ n with size := n.size + (k.size + nodeBytes) }]
  | [], _ => Or.inl rfl
  | [_], _ => Or.inl rfl
  | n :: k :: ns, hlast => by
    rw [Heap.mergeNodes]
    by_cases hfree : (n.free && k.free) = true
    · rw [if_pos hfree]
      rw [Bool.and_eq_true] at hfree
      obtain rfl := hlast [] n k ns rfl hfree.1 hfree.2
      exact Or.inr ⟨[], n, k, rfl, hfree.1, rfl⟩
    · rw [if_neg hfree]
      rcases mergeNodes_eq_or (k :: ns) fun ns₁ i j ns₂ heq ↦
        hlast (n :: ns₁) i j ns₂ (by rw [heq]; rfl) with heq | ⟨ns₁, i, j, heq, hi, hmerged⟩
      · rw [heq]
        exact Or.inl rfl
      · rw [hmerged, heq]
        exact Or.inr ⟨n :: ns₁, i, j, rfl, hi, rfl⟩

theorem Linked.mergeFreeBlocks (h : s.Linked ns) (hkept : s.LinksKept .mergeFreeBlocks)
    (hcall : s.step .mergeFreeBlocks = some t) : ∃ ns', t.Linked ns' := by
  obtain ⟨m, hm, -, hout⟩ := Heap.mergeFuel_chain h.holds.chain h.holds.tiles (by decide)
    h.holds.length_lt
  obtain ⟨heap, hheap, hholds⟩ := h.holds.mergeFreeBlocks
  rw [step, hheap] at hcall
  cases hcall
  have hhead : s.heap.mallocHead = mallocStart := h.holds.head
  rw [← hhead] at hm
  obtain rfl : { s.heap with mem := m } = heap := by
    rw [Heap.mergeFreeBlocks, hm] at hheap
    exact Option.some.inj hheap
  -- the fields behind the links stay
  have hfields : ∀ j ∈ ns, (readNode m j.addr).prev = (readNode s.heap.mem j.addr).prev ∧
      (readNode m j.addr).address = (readNode s.heap.mem j.addr).address := fun j hj ↦
    Heap.fields_of_merged h.holds.tiles hout hj
  have hprevs : Prevs m 0 (ns.map Node.addr) := h.prevs.congr fun a ha ↦ by
    obtain ⟨j, hj, rfl⟩ := List.mem_map.mp ha
    exact (hfields j hj).1
  have hgiven : ∀ n ∈ ns, n.free = false → (readNode m n.addr).address = n.addr + nodeBytes ∧
      s.pointer n.addr = n.addr + nodeBytes := fun n hn hused ↦ by
    rw [(hfields n hn).2]
    exact h.given n hn hused
  have hchain : Chain s.heap.mem s.heap.mallocHead ns 0 := hhead ▸ h.holds.chain
  have hcases := mergeNodes_eq_or ns fun ns₁ n k ns₂ heq hn hk ↦ by
    subst heq
    have hk' : k ∈ ns₁ ++ n :: k :: ns₂ := by simp
    have hnode : (readNode s.heap.mem n.addr).next = k.addr := by
      obtain ⟨p, -, hc⟩ := chain_append.mp hchain
      obtain ⟨rfl, -, -, -, -, hc⟩ := hc
      exact hc.1.symm
    have hsplit : s.Linked ((ns₁ ++ [n]) ++ k :: ns₂) := by
      rw [List.append_assoc]
      exact h
    refine hsplit.eq_nil_of_next ?_
    have hlast := hkept n.addr (hchain.listed_iff.mpr ⟨n, by simp, rfl⟩)
    rw [hnode] at hlast
    exact hlast (hchain.node hk').1 ((hchain.node (by simp)).2.2.trans hn)
      ((hchain.node hk').2.2.trans hk)
  refine ⟨Heap.mergeNodes ns, hholds, ?_, fun j hj hused ↦ ?_⟩
  · rcases hcases with heq | ⟨ns₁, n, k, rfl, -, hmerged⟩
    · rw [heq]
      exact hprevs
    · rw [hmerged]
      rw [List.map_append, prevs_append] at hprevs ⊢
      exact ⟨hprevs.1, hprevs.2.1, trivial⟩
  · rcases hcases with heq | ⟨ns₁, n, k, rfl, hn, hmerged⟩
    · exact hgiven j (heq ▸ hj) hused
    · rw [hmerged] at hj
      rcases List.mem_append.mp hj with hj | hj
      · exact hgiven j (List.mem_append_left _ hj) hused
      · rw [List.mem_singleton.mp hj] at hused
        exact absurd (hused.symm.trans hn) Bool.false_ne_true

theorem Linked.free (h : s.Linked ns) {p : ℕ} (hfrom : s.FromList (.free p))
    (hcall : s.step (.free p) = some t) : ∃ ns', t.Linked ns' := by
  cases hcall
  have hhead : s.heap.mallocHead = mallocStart := h.holds.head
  have hchain : Chain s.heap.mem s.heap.mallocHead ns 0 := hhead ▸ h.holds.chain
  obtain ⟨n, hn, rfl⟩ := hchain.listed_iff.mp hfrom.1
  obtain ⟨ns₁, ns₂, rfl⟩ := List.append_of_mem hn
  exact ⟨_, h.setFree true (fun hh ↦ absurd hh (by decide)) fun _ _ _ ↦ rfl⟩

theorem Linked.step {op : LinkOp} (h : s.Linked ns) (hfrom : s.FromList op)
    (hkept : s.LinksKept op) (hcall : s.step op = some t) : ∃ ns', t.Linked ns' := by
  cases op with
  | mallocNext size => exact h.mallocNext hfrom hkept hcall
  | mergeFreeBlocks => exact h.mergeFreeBlocks hkept hcall
  | free p => exact h.free hfrom hcall

end Linked

/-! ## Runs -/

theorem start_linked (mem : ByteStore) (fresh : ℕ → ByteStore) :
    (start mem fresh).Linked [⟨mallocStart, pageSize - nodeBytes, true⟩] where
  holds := HeapRun.start_holds mem fresh
  prevs := by
    refine ⟨?_, trivial⟩
    simp (disch := decide) only [start, Heap.initMalloc, readNode_setPrev_self]
  given := fun n hn hused ↦ by
    rw [List.mem_singleton.mp hn] at hused
    cases hused

/-- **The list stays as it should be** in every run that is served from it and keeps its links. -/
theorem wellLinked_of_meets {mem : ByteStore} {fresh : ℕ → ByteStore} {ops : List LinkOp}
    {s : HeapLinks} (hfrom : Run.Meets step FromList (start mem fresh) ops)
    (hkept : Run.Meets step LinksKept (start mem fresh) ops)
    (hrun : Run.exec step (start mem fresh) ops = some s) : s.WellLinked := by
  obtain ⟨ns, h⟩ := (hfrom.and hkept).invariant (fun s ↦ ∃ ns, s.Linked ns)
    (fun _ _ _ ⟨_, h⟩ ⟨hop, hop'⟩ hcall ↦ h.step hop hop' hcall) ⟨_, start_linked mem fresh⟩ hrun
  exact h.wellLinked

/-- The first node is split, freed and merged with the rest of the page. -/
theorem wellLinked_start : ∃ s, Run.exec step (start (fun _ ↦ 0) fun _ _ ↦ 0)
    [.mallocNext 1000, .free 0x400000, .mergeFreeBlocks] = some s ∧ s.WellLinked := by
  have hruns : (Run.exec step (start (fun _ ↦ 0) fun _ _ ↦ 0)
      [.mallocNext 1000, .free 0x400000, .mergeFreeBlocks]).isSome = true := by
    decide +kernel
  have hone : ((Run.exec step (start (fun _ ↦ 0) fun _ _ ↦ 0) [.mallocNext 1000]).map fun s ↦
      (s.heap.mallocHead, (readNode s.heap.mem 0x400000).free)) = some (0x400000, false) := by
    decide +kernel
  have htwo : ((Run.exec step (start (fun _ ↦ 0) fun _ _ ↦ 0)
      [.mallocNext 1000, .free 0x400000]).map fun s ↦ (s.heap.mallocHead,
        (readNode s.heap.mem 0x400000).next, (readNode s.heap.mem 0x4003FC).next)) =
        some (0x400000, 0x4003FC, 0) := by
    decide +kernel
  obtain ⟨s, hs⟩ := Option.isSome_iff_exists.mp hruns
  refine ⟨s, hs, wellLinked_of_meets ?_ ?_ hs⟩
  · refine ⟨Or.inr (by decide +kernel), fun t ht ↦ ⟨?_, fun _ _ ↦ ⟨trivial, fun _ _ ↦ trivial⟩⟩⟩
    rw [Run.exec_singleton ht] at hone
    obtain ⟨hhead, hfree⟩ := Prod.ext_iff.mp (Option.some.inj hone)
    dsimp only at hhead hfree
    exact ⟨hhead ▸ Listed.head (by rw [hhead]; decide), hfree⟩
  · refine ⟨fun _ p hp ↦ ?_, fun t ht ↦ ⟨trivial, fun u hu ↦ ⟨?_, fun _ _ ↦ trivial⟩⟩⟩
    · have hfirst : (start (fun _ ↦ 0) fun _ _ ↦ 0).heap.search (1000 : BitVec 32).toNat =
          some 0x400000 := by decide +kernel
      obtain rfl := Option.some.inj (hfirst.symm.trans hp)
      decide +kernel
    · rw [Run.exec_cons.mpr ⟨t, ht, Run.exec_singleton hu⟩] at htwo
      obtain ⟨hhead, hnext, hlast⟩ : u.heap.mallocHead = 0x400000 ∧
          (readNode u.heap.mem 0x400000).next = 0x4003FC ∧
            (readNode u.heap.mem 0x4003FC).next = 0 := by simpa using htwo
      -- there are two nodes
      have hlisted : ∀ p, Listed u.heap.mem u.heap.mallocHead p → p = 0x400000 ∨ p = 0x4003FC := by
        intro p hp
        induction hp with
        | head => exact Or.inl hhead
        | next _ hne ih =>
          rcases ih with rfl | rfl
          · exact Or.inr hnext
          · exact absurd hlast hne
      intro p hp hne _ _
      rcases hlisted p hp with rfl | rfl
      · rw [hnext, hlast]
      · exact absurd hlast hne

/-- A split in the middle of the list leaves the node behind with the link to the node it knew. -/
theorem not_wellLinked_start : ∃ s, Run.exec step (start (fun _ ↦ 0) fun _ _ ↦ 0)
    [.mallocNext 100, .mallocNext 100, .free 0x400000, .mallocNext 10] = some s ∧
      ¬ s.WellLinked := by
  have hrun : ((Run.exec step (start (fun _ ↦ 0) fun _ _ ↦ 0)
      [.mallocNext 100, .mallocNext 100, .free 0x400000, .mallocNext 10]).map fun s ↦
        (s.heap.mallocHead, (readNode s.heap.mem 0x400000).next,
          (readNode s.heap.mem 0x40001E).next, (readNode s.heap.mem 0x400078).prev)) =
        some (0x400000, 0x40001E, 0x400078, 0x400000) := by
    decide +kernel
  obtain ⟨s, hs, heq⟩ := Option.map_eq_some_iff.mp hrun
  obtain ⟨hhead, hnext, hnext', hprev⟩ : s.heap.mallocHead = 0x400000 ∧
      (readNode s.heap.mem 0x400000).next = 0x40001E ∧
      (readNode s.heap.mem 0x40001E).next = 0x400078 ∧
      (readNode s.heap.mem 0x400078).prev = 0x400000 := by simpa using heq
  refine ⟨s, hs, fun ⟨as, hlinks, _⟩ ↦ ?_⟩
  rw [hhead] at hlinks
  rcases as with _ | ⟨a, _ | ⟨b, _ | ⟨c, as⟩⟩⟩
  · exact absurd (show 0x400000 = 0 from hlinks) (by decide)
  · obtain ⟨-, -, -, hend⟩ := hlinks
    exact absurd (hnext.symm.trans hend) (by decide)
  · obtain ⟨-, -, -, hlinks⟩ := hlinks
    rw [hnext] at hlinks
    obtain ⟨-, -, -, hend⟩ := hlinks
    exact absurd (hnext'.symm.trans hend) (by decide)
  · obtain ⟨-, -, -, hlinks⟩ := hlinks
    rw [hnext] at hlinks
    obtain ⟨-, -, -, hlinks⟩ := hlinks
    rw [hnext'] at hlinks
    obtain ⟨-, -, hback, -⟩ := hlinks
    exact absurd (hprev.symm.trans hback) (by decide)

end HeapLinks

end AbOS
