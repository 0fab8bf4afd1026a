import Mathlib.Data.List.Basic
import Mathlib.Order.Lattice

namespace Lthread.StreamMerge

variable {α β : Type*} [LinearOrder β] (key : α → β)

def first : List (Option α) → Option (ℕ × α)
  | [] => none
  | none :: xs => (first xs).map fun r => (r.1 + 1, r.2)
  | some x :: xs =>
    match first xs with
    | none => some (0, x)
    | some (i, y) => if key x ≤ key y then some (0, x) else some (i + 1, y)

/-- The streams merged one after the other. -/
def mergeAll (ss : List (List α)) : List α :=
  ss.foldr (fun s t => s.merge t fun x y => decide (key x ≤ key y)) []

variable {key} {ss : List (List α)} {x : α} {i : ℕ}

theorem mergeAll_cons (s : List α) (ss : List (List α)) :
    mergeAll key (s :: ss) = s.merge (mergeAll key ss) fun x y => decide (key x ≤ key y) := rfl

theorem mergeAll_of_first_none (h : first key (ss.map List.head?) = none) :
    mergeAll key ss = [] := by
  induction ss with
  | nil => rfl
  | cons s ss ih =>
    cases s with
    | nil =>
      rw [mergeAll_cons, List.nil_merge]
      exact ih (Option.map_eq_none_iff.mp h)
    | cons x xs =>
      simp only [List.map_cons, List.head?_cons, first] at h
      split at h
      · cases h
      · split at h <;> cases h

theorem exists_of_first (h : first key (ss.map List.head?) = some (i, x)) :
    ∃ xs, ss[i]? = some (x :: xs) ∧ mergeAll key ss = x :: mergeAll key (ss.set i xs) := by
  induction ss generalizing i x with
  | nil => cases h
  | cons s ss ih =>
    cases s with
    | nil =>
      obtain ⟨⟨j, y⟩, hy, he⟩ := Option.map_eq_some_iff.mp h
      cases he
      obtain ⟨ys, hget, htake⟩ := ih hy
      refine ⟨ys, hget, ?_⟩
      rw [List.set_cons_succ, mergeAll_cons, mergeAll_cons, List.nil_merge, List.nil_merge, htake]
    | cons z zs =>
      simp only [List.map_cons, List.head?_cons, first] at h
      split at h
      case h_1 hnone =>
        cases h
        refine ⟨zs, rfl, ?_⟩
        rw [List.set_cons_zero, mergeAll_cons, mergeAll_cons, mergeAll_of_first_none hnone,
          List.merge_right, List.merge_right]
      case h_2 j y hy =>
        obtain ⟨ys, hget, htake⟩ := ih hy
        split at h
        case isTrue hle =>
          cases h
          refine ⟨zs, rfl, ?_⟩
          rw [List.set_cons_zero, mergeAll_cons, mergeAll_cons, htake]
          exact List.cons_merge_cons_pos _ _ _ (decide_eq_true hle)
        case isFalse hle =>
          cases h
          refine ⟨ys, hget, ?_⟩
          rw [List.set_cons_succ, mergeAll_cons, mergeAll_cons, htake]
          exact List.cons_merge_cons_neg _ _ _ (by simpa using hle)

theorem mergeAll_perm (ss : List (List α)) : (mergeAll key ss).Perm ss.flatten := by
  induction ss with
  | nil => exact List.Perm.refl []
  | cons s ss ih =>
    rw [mergeAll_cons, List.flatten_cons]
    exact (List.merge_perm_append _).trans (ih.append_left s)

section Sublist

variable {le : α → α → Bool}

theorem sublist_merge_left (l r : List α) : l.Sublist (l.merge r le) := by
  induction l generalizing r with
  | nil => exact List.nil_sublist _
  | cons x l ih =>
    induction r with
    | nil => rw [List.merge_right]
    | cons y r ihr =>
      rw [List.cons_merge_cons]
      split
      · exact (ih _).cons_cons x
      · exact ihr.cons y

theorem sublist_merge_right (l r : List α) : r.Sublist (l.merge r le) := by
  induction l generalizing r with
  | nil => rw [List.nil_merge]
  | cons x l ih =>
    induction r with
    | nil => exact List.nil_sublist _
    | cons y r ihr =>
      rw [List.cons_merge_cons]
      split
      · exact (ih _).cons x
      · exact ihr.cons_cons y

end Sublist

theorem sublist_mergeAll {s : List α} (h : s ∈ ss) : s.Sublist (mergeAll key ss) := by
  induction ss with
  | nil => cases h
  | cons t ss ih =>
    rw [mergeAll_cons]
    rcases List.mem_cons.mp h with rfl | h
    · exact sublist_merge_left _ _
    · exact (ih h).trans (sublist_merge_right _ _)

section Sorted

theorem pairwise_mergeAll (h : ∀ s ∈ ss, s.Pairwise fun x y => key x ≤ key y) :
    (mergeAll key ss).Pairwise fun x y => key x ≤ key y := by
  induction ss with
  | nil => exact List.Pairwise.nil
  | cons s ss ih =>
    obtain ⟨hs, hss⟩ := List.forall_mem_cons.mp h
    have htrans : ∀ x y z : α, decide (key x ≤ key y) = true → decide (key y ≤ key z) = true →
        decide (key x ≤ key z) = true := by
      intro x y z hxy hyz
      exact decide_eq_true (le_trans (of_decide_eq_true hxy) (of_decide_eq_true hyz))
    have htotal : ∀ x y : α, (decide (key x ≤ key y) || decide (key y ≤ key x)) = true := by
      intro x y
      simpa using le_total (key x) (key y)
    have hmerge := List.pairwise_merge htrans htotal s (mergeAll key ss) (by simpa using hs)
      (by simpa using ih hss)
    rw [mergeAll_cons]
    simpa using hmerge

theorem filter_merge {k : β} {l r : List α} (hl : l.Pairwise fun x y => key x ≤ key y) :
    (l.merge r fun x y => decide (key x ≤ key y)).filter (fun x => decide (key x = k)) =
      (l ++ r).filter fun x => decide (key x = k) := by
  induction l generalizing r with
  | nil => rw [List.nil_merge, List.nil_append]
  | cons x l ih =>
    obtain ⟨hx, hl'⟩ := List.pairwise_cons.mp hl
    induction r with
    | nil => rw [List.merge_right, List.append_nil]
    | cons y r ihr =>
      rw [List.cons_merge_cons]
      split
      case isTrue => rw [List.cons_append, List.filter_cons, List.filter_cons, ih hl']
      case isFalse hle =>
        -- Everything of the left list comes after `y`, so `y` meets nothing with its key there.
        have hlt : key y < key x := by simpa using hle
        rw [List.filter_cons, ihr, List.filter_append, List.filter_append,
          List.filter_cons (x := y)]
        by_cases hy : key y = k
        · have hnone : (x :: l).filter (fun z => decide (key z = k)) = [] := by
            apply List.filter_eq_nil_iff.mpr
            intro z hz
            have hxz : key x ≤ key z := by
              rcases List.mem_cons.mp hz with rfl | hz
              · exact le_refl _
              · exact hx z hz
            have hyz : key y < key z := lt_of_lt_of_le hlt hxz
            simpa [← hy] using ne_of_gt hyz
          rw [hnone, List.nil_append, List.nil_append]
        · rw [if_neg (by simpa using hy), if_neg (by simpa using hy)]

theorem filter_mergeAll (h : ∀ s ∈ ss, s.Pairwise fun x y => key x ≤ key y) (k : β) :
    (mergeAll key ss).filter (fun x => decide (key x = k)) =
      ss.flatten.filter fun x => decide (key x = k) := by
  induction ss with
  | nil => rfl
  | cons s ss ih =>
    obtain ⟨hs, hss⟩ := List.forall_mem_cons.mp h
    rw [mergeAll_cons, filter_merge hs, List.flatten_cons, List.filter_append, List.filter_append,
      ih hss]

end Sorted

end Lthread.StreamMerge
