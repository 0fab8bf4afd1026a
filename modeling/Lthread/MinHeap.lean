import Lthread.HeapOrder
import Lthread.Memory

namespace Lthread

open HeapOrder

/-- `struct lthread_min_heap_node`, 16 bytes. -/
structure Node where
  data : ℕ
  key : BitVec 64
  deriving DecidableEq, Repr

def Node.rank (x : Node) : ℕ := x.key.toNat

/-- `struct lthread_min_heap`. -/
structure MinHeap where
  arr : Block Node
  count : ℕ
  capacity : ℕ

/-- `lthread_min_heap_create`. The product in the argument of `malloc` is a `size_t`, and
`fresh` is what is in the memory. -/
def minHeapCreate (alloc : Allocator) (fresh : ℕ → Node) (capacity : BitVec 64) :
    Option MinHeap :=
  let bytes := capacity.toNat * 16 % 2 ^ 64
  if alloc.grants 24 then
    if alloc.grants bytes then some ⟨⟨bytes / 16, fresh⟩, 0, capacity.toNat⟩ else none
  else none

/-- `_lthread_min_heap_heapify_bottom_top`. -/
def bottomTopLoop : ℕ → Block Node → ℕ → Except MemFault (Block Node)
  | 0, _, _ => .error .endless
  | fuel + 1, b, index =>
    if index = 0 then .ok b
    else do
      let parentNode := (index - 1) / 2
      let temp ← b.read parentNode
      let x ← b.read index
      if temp.key ≤ x.key then .ok b
      else do
        let b ← b.write parentNode x
        let b ← b.write index temp
        bottomTopLoop fuel b parentNode

/-- `heapify_bottom_top`, which comes to an end because `index` gets smaller. -/
def heapifyBottomTop (b : Block Node) (index : ℕ) : Except MemFault (Block Node) :=
  bottomTopLoop (index + 1) b index

/-- One of the two tests of `heapify_top_bottom`: `child` when it is there and its key is below
the key of `min`. -/
def lesser (count : ℕ) (b : Block Node) (child min : ℕ) : Except MemFault ℕ :=
  if child < count then do
    let x ← b.read child
    let y ← b.read min
    .ok (if x.key < y.key then child else min)
  else .ok min

/-- `_lthread_min_heap_heapify_top_bottom`: the call on the swapped child is followed by the
next turn of the `for (;;)` on the same parent. An array has fewer than `2 ^ 59` nodes, so that
twice an index does not wrap. -/
def topBottomLoop (count : ℕ) : ℕ → Block Node → ℕ → Except MemFault (Block Node)
  | 0, _, _ => .error .endless
  | fuel + 1, b, parentNode => do
    let left := parentNode * 2 + 1
    let right := parentNode * 2 + 2
    let min ← lesser count b left parentNode
    let min ← lesser count b right min
    if min = parentNode then .ok b
    else do
      let temp ← b.read min
      let x ← b.read parentNode
      let b ← b.write min x
      let b ← b.write parentNode temp
      let b ← topBottomLoop count fuel b min
      topBottomLoop count fuel b parentNode

/-- `heapify_top_bottom`, with as many turns as the keys can need. -/
def heapifyTopBottom (count : ℕ) (b : Block Node) (parentNode : ℕ) :
    Except MemFault (Block Node) :=
  topBottomLoop count (weight Node.rank b.cell count + 1) b parentNode

/-- The first part of `lthread_min_heap_insert`: a full heap gets more memory. The code does not
look at the result of `realloc`. -/
def minHeapGrow (alloc : Allocator) (h : MinHeap) : Except MemFault MinHeap :=
  if h.count = h.capacity then
    let capacity := (h.capacity + (h.capacity + 1) % 2 ^ 64 / 2) % 2 ^ 64
    let bytes := capacity * 16 % 2 ^ 64
    if alloc.grants bytes then
      .ok { h with arr := { h.arr with size := bytes / 16 }, capacity := capacity }
    else .error .noMemory
  else .ok h

/-- `lthread_min_heap_insert`. -/
def minHeapInsert (alloc : Allocator) (h : MinHeap) (node : Node) : Except MemFault MinHeap := do
  let h ← minHeapGrow alloc h
  let arr ← h.arr.write h.count node
  let arr ← heapifyBottomTop arr h.count
  .ok { h with arr := arr, count := h.count + 1 }

/-- `lthread_min_heap_pop`. -/
def minHeapPop (h : MinHeap) : Except MemFault (Node × MinHeap) := do
  let pop ← h.arr.read 0
  let last ← h.arr.read (h.count - 1)
  let arr ← h.arr.write 0 last
  let arr ← heapifyTopBottom (h.count - 1) arr 0
  .ok (pop, { h with arr := arr, count := h.count - 1 })

end Lthread
