import Lthread.SiftDown

namespace Lthread

open HeapOrder

variable {alloc : Allocator} {b : Block Node} {h h' h₀ : MinHeap} {x : Node} {n i : ℕ}

theorem bottomTopLoop_succ (fuel : ℕ) (hi : i ≠ 0) (hb : i < b.size) :
    bottomTopLoop (fuel + 1) b i =
      if (b.cell ((i - 1) / 2)).rank ≤ (b.cell i).rank then .ok b
      else bottomTopLoop fuel { b with cell := swap b.cell ((i - 1) / 2) i } ((i - 1) / 2) := by
  have hp := (isChild_parent hi).lt.trans hb
  simp only [bottomTopLoop, if_neg hi, Block.read, Block.write, if_pos hb, if_pos hp, bind,
    Except.bind, Node.rank, BitVec.le_def]
  rfl

theorem bottomTopLoop_spec {fuel : ℕ} (hf : i < fuel) (hb : i < b.size) :
    ∃ a', bottomTopLoop fuel b i = .ok { b with cell := a' } ∧
      Rearranges (fun j => j ≤ i) b.cell a' ∧
      (i < n → UpOrdered Node.rank b.cell n i → IsHeap Node.rank a' n) := by
  induction fuel generalizing b i with
  | zero => exact absurd hf (Nat.not_lt_zero i)
  | succ fuel ih =>
    by_cases hi : i = 0
    · subst hi
      refine ⟨b.cell, rfl, .refl _ _, ?_⟩
      intro _ ho
      exact ho.isHeap fun h => absurd rfl h
    · rw [bottomTopLoop_succ fuel hi hb]
      have hlt := (isChild_parent hi).lt
      by_cases hle : (b.cell ((i - 1) / 2)).rank ≤ (b.cell i).rank
      · rw [if_pos hle]
        refine ⟨b.cell, rfl, .refl _ _, ?_⟩
        intro _ ho
        exact ho.isHeap fun _ => hle
      · rw [if_neg hle]
        obtain ⟨a', hrun, hr, ho'⟩ := ih
          (b := { b with cell := swap b.cell ((i - 1) / 2) i }) (i := (i - 1) / 2) (by omega)
          (hlt.trans hb)
        refine ⟨a', hrun, ?_, ?_⟩
        · have hswap := Rearranges.swap (P := fun j => j ≤ i) b.cell hlt.le le_rfl
          exact hswap.trans (hr.mono fun j hj => hj.trans hlt.le)
        · intro hn ho
          exact ho' (hlt.trans hn) (ho.swap hi hn (Nat.lt_of_not_le hle))

def MinHeap.contents (h : MinHeap) : Multiset Node := nodes h.arr.cell h.count

def MinHeap.InOrder (h : MinHeap) : Prop := IsHeap Node.rank h.arr.cell h.count

def MinHeap.Fits (h : MinHeap) : Prop := h.count ≤ h.arr.size

theorem minHeapGrow_ok (hg : minHeapGrow alloc h = .ok h') :
    h'.arr.cell = h.arr.cell ∧ h'.count = h.count := by
  unfold minHeapGrow at hg
  split at hg
  · dsimp only at hg
    split at hg
    · cases hg
      exact ⟨rfl, rfl⟩
    · cases hg
  · cases hg
    exact ⟨rfl, rfl⟩

theorem minHeapInsert_of_grow {g : MinHeap} (hg : minHeapGrow alloc h = .ok g)
    (hlt : g.count < g.arr.size) :
    ∃ h', minHeapInsert alloc h x = .ok h' ∧ h'.arr.size = g.arr.size ∧ h'.capacity = g.capacity ∧
      h'.count = h.count + 1 ∧ h'.contents = x ::ₘ h.contents ∧ (h.InOrder → h'.InOrder) := by
  obtain ⟨hcell, hcount⟩ := minHeapGrow_ok hg
  obtain ⟨a', hrun, hr, ho⟩ := bottomTopLoop_spec (n := g.count + 1)
    (b := { g.arr with cell := Function.update g.arr.cell g.count x })
    (Nat.lt_succ_self g.count) hlt
  refine ⟨{ g with arr := { g.arr with cell := a' }, count := g.count + 1 }, ?_, rfl, rfl,
    by rw [hcount], ?_, ?_⟩
  · simp only [minHeapInsert, hg, bind, Except.bind, Block.write_of_lt hlt, heapifyBottomTop, hrun]
  · calc nodes a' (g.count + 1)
        = nodes (Function.update g.arr.cell g.count x) (g.count + 1) :=
          hr.nodes_eq fun j hj => Nat.lt_succ_of_le hj
      _ = x ::ₘ nodes h.arr.cell h.count := by rw [nodes_update_last, hcell, hcount]
  · intro hin
    apply ho (Nat.lt_succ_self _)
    apply IsHeap.upOrdered_update
    rwa [hcell, hcount]

theorem minHeapPop_spec (hfit : h.Fits) (hpos : 0 < h.count) :
    ∃ h', minHeapPop h = .ok (h.arr.cell 0, h') ∧ h'.arr.size = h.arr.size ∧
      h'.capacity = h.capacity ∧ h'.count + 1 = h.count ∧
      h.contents = h.arr.cell 0 ::ₘ h'.contents ∧ (h.InOrder → h'.InOrder) := by
  obtain ⟨n, hn⟩ : ∃ n, h.count = n + 1 := Nat.exists_eq_succ_of_ne_zero hpos.ne'
  have hns : n < h.arr.size := by
    rw [MinHeap.Fits, hn] at hfit
    exact hfit
  have h0 : 0 < h.arr.size := Nat.zero_lt_of_lt hns
  obtain ⟨a', hrun, hr, ho⟩ := exists_topBottomLoop_eq n 0
    (b := { h.arr with cell := Function.update h.arr.cell 0 (h.arr.cell n) }) hns.le
  refine ⟨{ h with arr := { h.arr with cell := a' }, count := n }, ?_, rfl, rfl, hn.symm, ?_, ?_⟩
  · have hrun' := hrun _ (Nat.lt_succ_self _)
    simp only [minHeapPop, bind, Except.bind, Block.read_of_lt h0, hn, Nat.add_sub_cancel,
      Block.read_of_lt hns, Block.write_of_lt h0, heapifyTopBottom, hrun']
  · calc nodes h.arr.cell h.count
        = h.arr.cell 0 ::ₘ nodes (Function.update h.arr.cell 0 (h.arr.cell n)) n := by
          rw [hn, nodes_update_first]
      _ = h.arr.cell 0 ::ₘ nodes a' n := by rw [hr.nodes_eq fun i hi => hi.2]
  · intro hin
    rw [MinHeap.InOrder, hn] at hin
    exact isHeap_iff_ordered.mpr (ho fun c hc => hin.ordered_update _ hc).2

/-- The heaps that inserts and pops make of `h₀`, with the nodes that went in and those that came
out, the latest last. A pop is made on a heap that is not empty. -/
inductive HeapRun (alloc : Allocator) (h₀ : MinHeap) : MinHeap → List Node → List Node → Prop where
  | create : HeapRun alloc h₀ h₀ [] []
  | insert {h h' : MinHeap} {inserted popped : List Node} (x : Node) :
      HeapRun alloc h₀ h inserted popped → minHeapInsert alloc h x = .ok h' →
      HeapRun alloc h₀ h' (inserted ++ [x]) popped
  | pop {h h' : MinHeap} {inserted popped : List Node} {x : Node} :
      HeapRun alloc h₀ h inserted popped → 0 < h.count → minHeapPop h = .ok (x, h') →
      HeapRun alloc h₀ h' inserted (popped ++ [x])

variable {inserted popped : List Node} {fresh : ℕ → Node} {capacity : BitVec 64}

theorem minHeapCreate_eq_some (hc : minHeapCreate alloc fresh capacity = some h₀) :
    alloc.grants (capacity.toNat * 16 % 2 ^ 64) = true ∧
    h₀ = ⟨⟨capacity.toNat * 16 % 2 ^ 64 / 16, fresh⟩, 0, capacity.toNat⟩ := by
  simp only [minHeapCreate] at hc
  rw [Option.ite_none_right_eq_some, Option.ite_none_right_eq_some] at hc
  obtain ⟨-, hg, hc⟩ := hc
  exact ⟨hg, (Option.some.inj hc).symm⟩

theorem minHeapCreate_generous (hlt : capacity.toNat * 16 < 2 ^ 63) :
    minHeapCreate .generous fresh capacity =
      some ⟨⟨capacity.toNat, fresh⟩, 0, capacity.toNat⟩ := by
  simp only [minHeapCreate, Allocator.generous, decide_eq_true_eq]
  rw [if_pos (by decide), if_pos (by omega)]
  congr
  omega

theorem minHeapInsert_ok (hi : minHeapInsert alloc h x = .ok h') :
    h'.Fits ∧ h'.count = h.count + 1 ∧ h'.contents = x ::ₘ h.contents ∧
      (h.InOrder → h'.InOrder) := by
  cases hg : minHeapGrow alloc h with
  | error e =>
    simp only [minHeapInsert, hg, bind, Except.bind] at hi
    cases hi
  | ok g =>
    have hlt : g.count < g.arr.size := by
      by_contra hge
      simp only [minHeapInsert, hg, bind, Except.bind, Block.write, if_neg hge] at hi
      cases hi
    obtain ⟨h₁, hrun, hsize, -, hcount, hcont, hord⟩ := minHeapInsert_of_grow (x := x) hg hlt
    cases hrun.symm.trans hi
    rw [(minHeapGrow_ok hg).2] at hlt
    exact ⟨by rw [MinHeap.Fits, hsize, hcount]; exact hlt, hcount, hcont, hord⟩

structure Serves (h : MinHeap) (inserted popped : List Node) : Prop where
  fits : h.Fits
  inOrder : h.InOrder
  balance : (popped : Multiset Node) + h.contents = inserted

theorem HeapRun.serves (hr : HeapRun alloc h₀ h inserted popped) (h₀c : h₀.count = 0) :
    Serves h inserted popped := by
  induction hr with
  | create =>
    constructor
    · rw [MinHeap.Fits, h₀c]
      exact Nat.zero_le _
    · intro c _ hn
      omega
    · rw [MinHeap.contents, h₀c]
      rfl
  | insert x _ hi ih =>
    obtain ⟨hfit, -, hcont, hord⟩ := minHeapInsert_ok hi
    refine ⟨hfit, hord ih.inOrder, ?_⟩
    rw [hcont, Multiset.add_cons, ih.balance, ← Multiset.coe_add, Multiset.coe_singleton,
      add_comm, Multiset.singleton_add]
  | @pop h h' inserted popped x _ hpos hp ih =>
    obtain ⟨h₁, hrun, hsize, -, hcount, hcont, hord⟩ := minHeapPop_spec ih.fits hpos
    cases hrun.symm.trans hp
    have hfit := ih.fits
    refine ⟨?_, hord ih.inOrder, ?_⟩
    · rw [MinHeap.Fits] at hfit ⊢
      omega
    · rw [← ih.balance, hcont, ← Multiset.coe_add, add_assoc]
      rfl

structure MinHeap.Bounded (h : MinHeap) : Prop where
  pos : 1 ≤ h.capacity
  count_le : h.count ≤ h.capacity
  size_eq : h.arr.size = h.capacity
  bytes_lt : h.capacity * 16 < 2 ^ 63

theorem MinHeap.Bounded.of_eq {g : MinHeap} (hg : g.Bounded) (hcap : h.capacity = g.capacity)
    (hsize : h.arr.size = g.arr.size) (hcount : h.count ≤ g.capacity) : h.Bounded where
  pos := hcap ▸ hg.pos
  count_le := hcap ▸ hcount
  size_eq := by rw [hsize, hcap, hg.size_eq]
  bytes_lt := hcap ▸ hg.bytes_lt

theorem MinHeap.Bounded.grow (hb : h.Bounded) (hg : minHeapGrow alloc h = .ok h') :
    h'.Bounded ∧ h'.count < h'.capacity := by
  have ⟨hpos, hle, hsize, hbytes⟩ := hb
  unfold minHeapGrow at hg
  split at hg
  case isTrue hfull =>
    have hcap : (h.capacity + (h.capacity + 1) % 2 ^ 64 / 2) % 2 ^ 64 =
        h.capacity + (h.capacity + 1) / 2 := by omega
    simp only [hcap] at hg
    split at hg
    case isTrue hgr =>
      have hlt := alloc.grants_lt _ hgr
      cases hg
      refine ⟨⟨?_, ?_, ?_, ?_⟩, ?_⟩ <;> dsimp only <;> omega
    case isFalse => cases hg
  case isFalse hfull =>
    cases hg
    exact ⟨hb, by omega⟩

theorem minHeapGrow_error {e : MemFault} (hg : minHeapGrow alloc h = .error e) :
    e = .noMemory := by
  unfold minHeapGrow at hg
  split at hg
  · dsimp only at hg
    split at hg
    · cases hg
    · exact (Except.error.inj hg).symm
  · cases hg

theorem MinHeap.Bounded.insert (hb : h.Bounded) (alloc : Allocator) (x : Node) :
    minHeapInsert alloc h x = .error .noMemory ∨
    ∃ h', minHeapInsert alloc h x = .ok h' ∧ h'.Bounded := by
  cases hg : minHeapGrow alloc h with
  | error e =>
    apply Or.inl
    simp only [minHeapInsert, hg, bind, Except.bind, minHeapGrow_error hg]
  | ok g =>
    obtain ⟨hbg, hlt⟩ := hb.grow hg
    obtain ⟨h', hi, hsize, hcap, hcount, -⟩ :=
      minHeapInsert_of_grow (x := x) hg (hbg.size_eq ▸ hlt)
    rw [(minHeapGrow_ok hg).2] at hlt
    exact .inr ⟨h', hi, hbg.of_eq hcap hsize (hcount ▸ hlt)⟩

theorem MinHeap.Bounded.insert_returns (hb : h.Bounded) (alloc : Allocator) (x : Node) :
    minHeapInsert alloc h x = .error .noMemory ∨ ∃ h', minHeapInsert alloc h x = .ok h' := by
  obtain hno | ⟨h', hi, -⟩ := hb.insert alloc x
  · exact .inl hno
  · exact .inr ⟨h', hi⟩

theorem MinHeap.Bounded.fits (hb : h.Bounded) : h.Fits := by
  rw [MinHeap.Fits, hb.size_eq]
  exact hb.count_le

theorem MinHeap.Bounded.pop (hb : h.Bounded) (hpos : 0 < h.count) :
    ∃ h', minHeapPop h = .ok (h.arr.cell 0, h') ∧ h'.Bounded := by
  obtain ⟨h', hp, hsize, hcap, hcount, -⟩ := minHeapPop_spec hb.fits hpos
  have hle := hb.count_le
  exact ⟨h', hp, hb.of_eq hcap hsize (by omega)⟩

theorem HeapRun.bounded (hr : HeapRun alloc h₀ h inserted popped) (hb : h₀.Bounded) :
    h.Bounded := by
  induction hr with
  | create => exact hb
  | insert x _ hi ih =>
    obtain hno | ⟨h₁, hi₁, hb₁⟩ := ih.insert alloc x
    · cases hno.symm.trans hi
    · cases hi₁.symm.trans hi
      exact hb₁
  | pop _ hpos hp ih =>
    obtain ⟨h₁, hp₁, hb₁⟩ := ih.pop hpos
    cases hp₁.symm.trans hp
    exact hb₁

theorem minHeapCreate_bounded (hc : minHeapCreate alloc fresh capacity = some h₀)
    (hpos : 1 ≤ capacity.toNat) (hlt : capacity.toNat < 2 ^ 60) : h₀.Bounded := by
  obtain ⟨hg, rfl⟩ := minHeapCreate_eq_some hc
  have := alloc.grants_lt _ hg
  constructor <;> dsimp only <;> omega

def popMany : ℕ → MinHeap → Except MemFault (List Node × MinHeap)
  | 0, h => .ok ([], h)
  | n + 1, h => do
    let (x, h) ← minHeapPop h
    let (xs, h) ← popMany n h
    .ok (x :: xs, h)

theorem MinHeap.InOrder.root_le (ho : h.InOrder) {y : Node} (hy : y ∈ h.contents) :
    (h.arr.cell 0).key ≤ y.key := by
  obtain ⟨i, hi, rfl⟩ := mem_nodes.mp hy
  rw [BitVec.le_def]
  exact IsHeap.root_le ho hi

theorem popMany_sorted (hn : h.count = n) (hfit : h.Fits) (ho : h.InOrder) :
    ∃ xs h', popMany n h = .ok (xs, h') ∧ h'.count = 0 ∧ (xs : Multiset Node) = h.contents ∧
      xs.Pairwise fun x y => x.key ≤ y.key := by
  induction n generalizing h with
  | zero =>
    refine ⟨[], h, rfl, hn, ?_, .nil⟩
    rw [MinHeap.contents, hn]
    rfl
  | succ n ih =>
    obtain ⟨h₁, hp, hsize, -, hcount, hcont, hord⟩ := minHeapPop_spec hfit (hn ▸ Nat.succ_pos n)
    have hfit₁ : h₁.Fits := by
      rw [MinHeap.Fits] at hfit ⊢
      omega
    obtain ⟨xs, h', hrun, h0, hxs, hsorted⟩ := ih (by omega) hfit₁ (hord ho)
    refine ⟨h.arr.cell 0 :: xs, h', ?_, h0, ?_, ?_⟩
    · simp only [popMany, bind, Except.bind, hp, hrun]
    · rw [hcont, ← hxs]
      rfl
    · apply List.Pairwise.cons _ hsorted
      intro y hy
      apply ho.root_le
      rw [hcont, Multiset.mem_cons, ← hxs]
      exact .inr hy

/-- The heap is a priority queue. Whatever has been inserted and popped, it is in order, has what
was inserted and not yet popped, pops a node whose key is minimal, and is emptied in the order of
the keys. An insert that has its memory comes to its end. -/
theorem minHeap_priority_queue (hc : minHeapCreate alloc fresh capacity = some h₀)
    (hr : HeapRun alloc h₀ h inserted popped) :
    h.InOrder ∧ (popped : Multiset Node) + h.contents = inserted ∧
    (1 ≤ capacity.toNat → h₀.arr.size = h₀.capacity → ∀ x,
      minHeapInsert alloc h x = .error .noMemory ∨ ∃ h', minHeapInsert alloc h x = .ok h') ∧
    (0 < h.count → ∃ x h', minHeapPop h = .ok (x, h') ∧ x ∈ h.contents ∧
      ∀ y ∈ h.contents, x.key ≤ y.key) ∧
    ∃ xs h', popMany h.count h = .ok (xs, h') ∧ h'.count = 0 ∧
      (xs : Multiset Node) = h.contents ∧ xs.Pairwise fun x y => x.key ≤ y.key := by
  have hnew := (minHeapCreate_eq_some hc).2
  obtain ⟨hfit, ho, hbal⟩ := hr.serves (by rw [hnew])
  refine ⟨ho, hbal, ?_, ?_, popMany_sorted rfl hfit ho⟩
  · intro hpos hsize x
    have hlt : capacity.toNat < 2 ^ 60 := by
      rw [hnew] at hsize
      dsimp only at hsize
      omega
    exact (hr.bounded (minHeapCreate_bounded hc hpos hlt)).insert_returns alloc x
  · intro hpos
    obtain ⟨h', hp, -⟩ := minHeapPop_spec hfit hpos
    exact ⟨_, h', hp, mem_nodes.mpr ⟨0, hpos, rfl⟩, fun y hy => ho.root_le hy⟩

/-- A heap that is created for one node and gets two. -/
theorem minHeap_priority_queue_two : ∃ h₀ h, minHeapCreate .generous (fun _ => ⟨0, 0⟩) 1 = some h₀ ∧
    HeapRun .generous h₀ h [⟨1, 7⟩, ⟨2, 5⟩] [] ∧ h.InOrder ∧
    h.contents = ([⟨1, 7⟩, ⟨2, 5⟩] : List Node) := by
  have hc : minHeapCreate .generous (fun _ => ⟨0, 0⟩) 1 =
      some ⟨⟨1, fun _ => ⟨0, 0⟩⟩, 0, 1⟩ := minHeapCreate_generous (by decide)
  have hr : HeapRun .generous ⟨⟨1, fun _ => ⟨0, 0⟩⟩, 0, 1⟩ _ [⟨1, 7⟩, ⟨2, 5⟩] [] :=
    .insert ⟨2, 5⟩ (.insert ⟨1, 7⟩ .create rfl) rfl
  obtain ⟨ho, hbal, -⟩ := minHeap_priority_queue hc hr
  exact ⟨_, _, hc, hr, ho, by simpa using hbal⟩

/-- An insert in `h` stays in the array: the node is stored below `capacity`, in an array of
`capacity` elements, and no index is out of its bounds afterwards. -/
def InsertInBounds (alloc : Allocator) (h : MinHeap) (x : Node) : Prop :=
  (∀ g, minHeapGrow alloc h = .ok g → g.count < g.capacity ∧ g.arr.size = g.capacity) ∧
  (minHeapInsert alloc h x = .error .noMemory ∨ ∃ h', minHeapInsert alloc h x = .ok h')

/-- A pop from `h` stays in the array of `capacity` elements. -/
def PopInBounds (h : MinHeap) : Prop :=
  h.arr.size = h.capacity ∧ ∃ r, minHeapPop h = .ok r

/-- All accesses of all inserts and pops are in bounds when the heap was created for at least one
node and for no more than have a size in bytes. -/
theorem minHeap_in_bounds_iff (hc : minHeapCreate alloc fresh capacity = some h₀) :
    (∀ h inserted popped, HeapRun alloc h₀ h inserted popped →
      (∀ x, InsertInBounds alloc h x) ∧ (0 < h.count → PopInBounds h)) ↔
    1 ≤ capacity.toNat ∧ capacity.toNat < 2 ^ 60 := by
  constructor
  · intro hall
    obtain ⟨hg, rfl⟩ := minHeapCreate_eq_some hc
    have hstore := ((hall _ _ _ .create).1 ⟨0, 0⟩).1
    by_cases h0 : capacity.toNat = 0
    · -- The full heap of no node grows by half a node, which is none.
      simp only [minHeapGrow, h0] at hstore hg
      obtain ⟨hroom, -⟩ := hstore _ (if_pos hg)
      dsimp only at hroom
      omega
    · obtain ⟨-, hsize⟩ := hstore _ (if_neg fun h => h0 h.symm)
      dsimp only at hsize
      omega
  · rintro ⟨hpos, hlt⟩ h inserted popped hr
    have hb := hr.bounded (minHeapCreate_bounded hc hpos hlt)
    constructor
    · intro x
      constructor
      · intro g hg
        obtain ⟨hbg, hroom⟩ := hb.grow hg
        exact ⟨hroom, hbg.size_eq⟩
      · exact hb.insert_returns alloc x
    · intro hcount
      obtain ⟨h', hp, -⟩ := hb.pop hcount
      exact ⟨hb.size_eq, _, hp⟩

theorem minHeap_in_bounds_iff_one :
    ∃ h₀, minHeapCreate .generous (fun _ => ⟨0, 0⟩) 1 = some h₀ ∧
      InsertInBounds .generous h₀ ⟨1, 7⟩ := by
  have hc : minHeapCreate .generous (fun _ => ⟨0, 0⟩) 1 =
      some ⟨⟨1, fun _ => ⟨0, 0⟩⟩, 0, 1⟩ := minHeapCreate_generous (by decide)
  exact ⟨_, hc, (((minHeap_in_bounds_iff hc).mpr (by decide)) _ _ _ .create).1 _⟩

/-- A heap that is created for no node stays one for no node, and its first insert writes outside
of the array. -/
theorem insert_outside_empty_array :
    ∃ h₀, minHeapCreate .generous (fun _ => ⟨0, 0⟩) 0 = some h₀ ∧
      HeapRun .generous h₀ h₀ [] [] ∧
      minHeapInsert .generous h₀ ⟨1, 7⟩ = .error .outOfBounds ∧
      ¬ InsertInBounds .generous h₀ ⟨1, 7⟩ := by
  have hc : minHeapCreate .generous (fun _ => ⟨0, 0⟩) 0 =
      some ⟨⟨0, fun _ => ⟨0, 0⟩⟩, 0, 0⟩ := minHeapCreate_generous (by decide)
  have hi : minHeapInsert .generous ⟨⟨0, fun _ => ⟨0, 0⟩⟩, 0, 0⟩ ⟨1, 7⟩ = .error .outOfBounds := rfl
  refine ⟨_, hc, .create, hi, ?_⟩
  rintro ⟨-, hno | ⟨h', hok⟩⟩
  · cases hi.symm.trans hno
  · cases hi.symm.trans hok

end Lthread
