import Mathlib.Algebra.Group.Nat.Defs
import Mathlib.Logic.Function.Basic

namespace Lthread

/-- How a piece of code that works on an array can go wrong: it touches what does not belong
to the array, its request is refused, or it does not come to an end. -/
inductive MemFault where
  | outOfBounds | noMemory | endless
  deriving DecidableEq, Repr

/-- Which requests `malloc`, `calloc` and `realloc` meet. No object has more than `PTRDIFF_MAX`
bytes, so a larger request is refused. -/
structure Allocator where
  grants : ℕ → Bool
  grants_lt : ∀ n, grants n = true → n < 2 ^ 63

def Allocator.generous : Allocator := ⟨fun n => decide (n < 2 ^ 63), fun _ h => of_decide_eq_true h⟩

structure Block (α : Type*) where
  size : ℕ
  cell : ℕ → α

variable {α : Type*} {b : Block α} {i : ℕ} {x : α}

def Block.read (b : Block α) (i : ℕ) : Except MemFault α :=
  if i < b.size then .ok (b.cell i) else .error .outOfBounds

def Block.write (b : Block α) (i : ℕ) (x : α) : Except MemFault (Block α) :=
  if i < b.size then .ok { b with cell := Function.update b.cell i x } else .error .outOfBounds

theorem Block.read_of_lt (h : i < b.size) : b.read i = .ok (b.cell i) := if_pos h

theorem Block.write_of_lt (h : i < b.size) :
    b.write i x = .ok { b with cell := Function.update b.cell i x } := if_pos h

def Block.writeAll (b : Block α) : ℕ → List α → Except MemFault (Block α)
  | _, [] => .ok b
  | i, x :: xs => (b.write i x).bind fun b => b.writeAll (i + 1) xs

def Block.ofList (size : ℕ) (d : α) (l : List α) : Block α := ⟨size, fun i => l.getD i d⟩

variable {size : ℕ} {d : α} {l xs : List α}

theorem Block.ofList_write (h : l.length < size) :
    (ofList size d l).write l.length x = .ok (ofList size d (l ++ [x])) := by
  rw [Block.write_of_lt (show l.length < (ofList size d l).size from h)]
  simp only [ofList, Except.ok.injEq, Block.mk.injEq, true_and]
  funext i
  by_cases hi : i = l.length
  · subst hi
    simp
  · rw [Function.update_of_ne hi]
    rcases Nat.lt_or_gt_of_ne hi with hlt | hgt
    · simp [List.getElem?_append_left hlt]
    · have hlen : (l ++ [x]).length ≤ i := by
        rw [List.length_append, List.length_singleton]
        exact hgt
      simp only [List.getD_eq_getElem?_getD, List.getElem?_eq_none (Nat.le_of_lt hgt),
        List.getElem?_eq_none hlen]

theorem Block.ofList_writeAll (h : l.length + xs.length ≤ size) :
    (ofList size d l).writeAll l.length xs = .ok (ofList size d (l ++ xs)) := by
  induction xs generalizing l with
  | nil => rw [List.append_nil]; rfl
  | cons x xs ih =>
    rw [List.length_cons] at h
    have hnext := ih (l := l ++ [x]) (by rw [List.length_append, List.length_singleton]; omega)
    rw [List.length_append, List.length_singleton, List.append_assoc, List.singleton_append] at hnext
    rw [writeAll, ofList_write (by omega)]
    exact hnext

theorem Block.writeAll_overrun (hi : i ≤ b.size) (h : b.size < i + xs.length) :
    b.writeAll i xs = .error .outOfBounds := by
  induction xs generalizing b i with
  | nil =>
    rw [List.length_nil] at h
    omega
  | cons x xs ih =>
    rw [List.length_cons] at h
    rw [writeAll]
    by_cases hlt : i < b.size
    · rw [write_of_lt hlt]
      apply ih
      · exact hlt
      · show b.size < i + 1 + xs.length
        omega
    · rw [write, if_neg hlt]
      rfl

theorem Block.ofList_append_replicate (size : ℕ) (d : α) (l : List α) (k : ℕ) :
    ofList size d (l ++ List.replicate k d) = ofList size d l := by
  simp only [ofList, Block.mk.injEq, true_and]
  funext i
  rcases Nat.lt_or_ge i l.length with hi | hi
  · simp [List.getElem?_append_left hi]
  · simp only [List.getD_eq_getElem?_getD, List.getElem?_append_right hi,
      List.getElem?_eq_none hi, Option.getD_none]
    by_cases hk : i - l.length < k <;> simp [hk]

end Lthread
