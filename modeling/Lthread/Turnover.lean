import Mathlib.Data.List.Nodup

namespace Lthread.Runs

variable {α : Type*} {X X' : α → Prop} {ins outs : List α}

/-- How a step changes a set: what enters was outside, what leaves was inside. -/
structure Turnover (X X' : α → Prop) (ins outs : List α) : Prop where
  nodup_ins : ins.Nodup
  nodup_outs : outs.Nodup
  fresh : ∀ a ∈ ins, ¬ X a
  inside : ∀ a ∈ outs, X a
  mem_iff : ∀ a, X' a ↔ X a ∧ a ∉ outs ∨ a ∈ ins

theorem Turnover.same (h : ∀ a, X' a ↔ X a) : Turnover X X' [] [] where
  nodup_ins := List.nodup_nil
  nodup_outs := List.nodup_nil
  fresh := by simp
  inside := by simp
  mem_iff := by simpa using h

theorem Turnover.enter {a : α} (ha : ¬ X a) (h : ∀ b, X' b ↔ X b ∨ b = a) :
    Turnover X X' [a] [] where
  nodup_ins := List.nodup_singleton a
  nodup_outs := List.nodup_nil
  fresh := by simpa using ha
  inside := by simp
  mem_iff := by simpa using h

theorem Turnover.leave {a : α} (ha : X a) (h : ∀ b, X' b ↔ X b ∧ b ≠ a) :
    Turnover X X' [] [a] where
  nodup_ins := List.nodup_nil
  nodup_outs := List.nodup_singleton a
  fresh := by simp
  inside := by simpa using ha
  mem_iff := by simpa using h

theorem Turnover.congr {X'' : α → Prop} (h : Turnover X X' ins outs) (hX : ∀ a, X'' a ↔ X' a) :
    Turnover X X'' ins outs :=
  { h with mem_iff := fun a => (hX a).trans (h.mem_iff a) }

def Accounted (X : α → Prop) (entered left : α → ℕ) : Prop :=
  ∀ a, (X a → entered a = left a + 1) ∧ (¬ X a → entered a = left a)

theorem Accounted.step [DecidableEq α] {entered left : α → ℕ} (h : Accounted X entered left)
    (hT : Turnover X X' ins outs) :
    Accounted X' (fun a => entered a + ins.count a) (fun a => left a + outs.count a) := by
  intro a
  obtain ⟨hin, hout⟩ := h a
  simp only [hT.mem_iff a]
  by_cases hX : X a
  · have hnot : a ∉ ins := fun ha => hT.fresh a ha hX
    rw [List.count_eq_zero.mpr hnot, hin hX]
    by_cases ha : a ∈ outs
    · rw [List.count_eq_one_of_mem hT.nodup_outs ha]
      simp [ha, hnot]
    · rw [List.count_eq_zero.mpr ha]
      simp [ha, hX]
  · have hnot : a ∉ outs := fun ha => hX (hT.inside a ha)
    rw [List.count_eq_zero.mpr hnot, hout hX]
    by_cases ha : a ∈ ins
    · rw [List.count_eq_one_of_mem hT.nodup_ins ha]
      simp [ha]
    · rw [List.count_eq_zero.mpr ha]
      simp [ha, hX]

end Lthread.Runs
