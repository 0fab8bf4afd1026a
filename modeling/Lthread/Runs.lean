import Mathlib.Data.List.Basic

namespace Lthread.Runs

variable {σ ℓ : Type*} {step : σ → ℓ → Option σ} {ok : σ → ℓ → Prop} {init : σ}

/-- The states reached from `init` by steps that `ok` admits in the state they
are taken from. -/
inductive Reach (step : σ → ℓ → Option σ) (ok : σ → ℓ → Prop) (init : σ) : σ → Prop where
  | init : Reach step ok init init
  | next {s s' : σ} {l : ℓ} : Reach step ok init s → ok s l → step s l = some s' →
      Reach step ok init s'

def run (step : σ → ℓ → Option σ) (ok : σ → ℓ → Prop) [∀ s l, Decidable (ok s l)] :
    σ → List ℓ → Option σ
  | s, [] => some s
  | s, l :: ls => if ok s l then (step s l).bind (run step ok · ls) else none

/-- Every step that the list takes from `s` on satisfies `Q`. -/
def Along (step : σ → ℓ → Option σ) (Q : σ → ℓ → σ → Prop) : σ → List ℓ → Prop
  | _, [] => True
  | s, l :: ls => ∀ s', step s l = some s' → Q s l s' ∧ Along step Q s' ls

variable {s s' : σ}

theorem Reach.invariant {I : σ → Prop} (h : Reach step ok init s) (h₀ : I init)
    (hI : ∀ {s s' : σ} {l : ℓ}, Reach step ok init s → I s → ok s l → step s l = some s' → I s') :
    I s := by
  induction h with
  | init => exact h₀
  | next hr hok hs ih => exact hI hr ih hok hs

theorem Reach.mono {ok' : σ → ℓ → Prop} (h : Reach step ok init s)
    (hok : ∀ s l, ok s l → ok' s l) : Reach step ok' init s := by
  induction h with
  | init => exact .init
  | next _ hl hs ih => exact .next ih (hok _ _ hl) hs

theorem Reach.run [∀ s l, Decidable (ok s l)] {ls : List ℓ} (h : Reach step ok init s)
    (hr : run step ok s ls = some s') : Reach step ok init s' := by
  induction ls generalizing s with
  | nil =>
    cases hr
    exact h
  | cons l ls ih =>
    simp only [Runs.run] at hr
    split at hr
    · obtain ⟨s₁, h₁, h₂⟩ := Option.bind_eq_some_iff.mp hr
      exact ih (h.next ‹_› h₁) h₂
    · cases hr

theorem exists_reach_of_run [∀ s l, Decidable (ok s l)] {Q : σ → Prop} [DecidablePred Q]
    (ls : List ℓ) (h : (Runs.run step ok init ls).any (fun s => decide (Q s)) = true) :
    ∃ s, Reach step ok init s ∧ Q s := by
  cases hr : Runs.run step ok init ls with
  | none =>
    rw [hr] at h
    cases h
  | some s =>
    rw [hr] at h
    exact ⟨s, Reach.init.run hr, of_decide_eq_true h⟩

theorem along_congr {I : σ → Prop} {Q Q' : σ → ℓ → σ → Prop} (h₀ : I s)
    (hI : ∀ {s s' : σ} {l : ℓ}, I s → step s l = some s' → I s')
    (hQ : ∀ {s s' : σ} {l : ℓ}, I s → step s l = some s' → (Q s l s' ↔ Q' s l s')) (ls : List ℓ) :
    Along step Q s ls ↔ Along step Q' s ls := by
  induction ls generalizing s with
  | nil => exact Iff.rfl
  | cons l ls ih =>
    constructor
    · intro h s' hs
      exact ⟨(hQ h₀ hs).mp (h s' hs).1, (ih (hI h₀ hs)).mp (h s' hs).2⟩
    · intro h s' hs
      exact ⟨(hQ h₀ hs).mpr (h s' hs).1, (ih (hI h₀ hs)).mpr (h s' hs).2⟩

theorem Along.last {Q : σ → ℓ → σ → Prop} [∀ s l, Decidable (ok s l)] {ls : List ℓ} {l : ℓ}
    {s₁ s₂ : σ} (h : Along step Q s (ls ++ [l])) (hr : Runs.run step ok s ls = some s₁)
    (hs : step s₁ l = some s₂) : Q s₁ l s₂ := by
  induction ls generalizing s with
  | nil =>
    cases hr
    exact (h s₂ hs).1
  | cons k ls ih =>
    simp only [Runs.run] at hr
    split at hr
    · obtain ⟨s', h₁, h₂⟩ := Option.bind_eq_some_iff.mp hr
      exact ih (h s' h₁).2 h₂
    · cases hr

theorem exists_step_of_run [∀ s l, Decidable (ok s l)] {Q : σ → σ → Prop}
    [∀ s s', Decidable (Q s s')] (ls : List ℓ) (l : ℓ)
    (h : ((Runs.run step ok init ls).any fun s => (step s l).any fun s' => decide (Q s s')) = true) :
    ∃ s s', Runs.run step ok init ls = some s ∧ step s l = some s' ∧ Q s s' := by
  cases hr : Runs.run step ok init ls with
  | none =>
    rw [hr] at h
    cases h
  | some s =>
    rw [hr, Option.any_some] at h
    cases hs : step s l with
    | none =>
      rw [hs] at h
      cases h
    | some s' =>
      rw [hs] at h
      exact ⟨s, s', rfl, hs, of_decide_eq_true h⟩

section History

variable {γ : Type*} {note : γ → σ → ℓ → σ → γ} {p : σ × γ}

/-- The step function with a history variable beside the state. The history sees every
step and has no part in it. -/
def withHistory (step : σ → ℓ → Option σ) (note : γ → σ → ℓ → σ → γ) (p : σ × γ) (l : ℓ) :
    Option (σ × γ) :=
  (step p.1 l).map fun s' => (s', note p.2 p.1 l s')

theorem withHistory_eq_some {p' : σ × γ} {l : ℓ} :
    withHistory step note p l = some p' ↔ step p.1 l = some p'.1 ∧ p'.2 = note p.2 p.1 l p'.1 := by
  unfold withHistory
  rw [Option.map_eq_some_iff]
  constructor
  · rintro ⟨s', hs, rfl⟩
    exact ⟨hs, rfl⟩
  · rintro ⟨hs, hp⟩
    exact ⟨p'.1, hs, by rw [← hp]⟩

variable {okH : σ × γ → ℓ → Prop} {initH : σ × γ}

theorem Reach.forget (h : Reach (withHistory step note) okH initH p)
    (hok : ∀ p l, okH p l → ok p.1 l) : Reach step ok initH.1 p.1 := by
  induction h with
  | init => exact .init
  | next _ hl hs ih => exact ih.next (hok _ _ hl) (withHistory_eq_some.mp hs).1

theorem Reach.history {I : σ → γ → Prop} (h : Reach (withHistory step note) okH initH p)
    (h₀ : I initH.1 initH.2)
    (hI : ∀ {s s' : σ} {g : γ} {l : ℓ}, Reach (withHistory step note) okH initH (s, g) → I s g →
      okH (s, g) l → step s l = some s' → I s' (note g s l s')) : I p.1 p.2 := by
  apply h.invariant (I := fun p => I p.1 p.2) h₀
  rintro ⟨s, g⟩ ⟨s', g'⟩ l hr hp hl hs
  obtain ⟨hs, hg⟩ := withHistory_eq_some.mp hs
  dsimp only at hs hg
  rw [hg]
  exact hI hr hp hl hs

end History

end Lthread.Runs
