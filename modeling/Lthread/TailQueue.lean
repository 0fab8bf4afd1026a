import Mathlib.Data.List.Nodup
import Mathlib.Logic.Function.Basic

namespace Lthread

open Function (update)

/-- Where a pointer to a node is kept: `&(head)->tqh_first` or `&(elm)->field.tqe_next`. -/
inductive TailqLoc (Q α : Type*) where
  | head (q : Q)
  | next (x : α)
  deriving DecidableEq, Repr

/-- `TAILQ_HEAD` of every queue and `TAILQ_ENTRY` of every node. -/
structure TailqMem (Q α : Type*) where
  first : Q → Option α
  last : Q → TailqLoc Q α
  next : α → Option α
  prev : α → TailqLoc Q α

variable {Q α : Type*}

namespace TailqMem

def load (M : TailqMem Q α) : TailqLoc Q α → Option α
  | .head q => M.first q
  | .next x => M.next x

variable [DecidableEq Q] [DecidableEq α]

def store (M : TailqMem Q α) (p : TailqLoc Q α) (v : Option α) : TailqMem Q α :=
  match p with
  | .head q => { M with first := update M.first q v }
  | .next x => { M with next := update M.next x v }

def setPrev (M : TailqMem Q α) (x : α) (p : TailqLoc Q α) : TailqMem Q α :=
  { M with prev := update M.prev x p }

def setLast (M : TailqMem Q α) (q : Q) (p : TailqLoc Q α) : TailqMem Q α :=
  { M with last := update M.last q p }

end TailqMem

section Macros

variable [DecidableEq Q] [DecidableEq α]

/-- `TAILQ_INIT` of all queues. -/
def tailqInit (next : α → Option α) (prev : α → TailqLoc Q α) : TailqMem Q α :=
  ⟨fun _ => none, .head, next, prev⟩

/-- `TAILQ_INSERT_TAIL`. -/
def tailqInsertTail (M : TailqMem Q α) (q : Q) (elm : α) : TailqMem Q α :=
  let M := M.store (.next elm) none
  let M := M.setPrev elm (M.last q)
  let M := M.store (M.last q) (some elm)
  M.setLast q (.next elm)

/-- `TAILQ_REMOVE`. -/
def tailqRemove (M : TailqMem Q α) (q : Q) (elm : α) : TailqMem Q α :=
  let M := match M.next elm with
    | some x => M.setPrev x (M.prev elm)
    | none => M.setLast q (M.prev elm)
  M.store (M.prev elm) (M.next elm)

/-- `TAILQ_FOREACH` with a counter, as in `_lthread_cond_num_blocked`. -/
def tailqCount (M : TailqMem Q α) : ℕ → Option α → ℕ → Option ℕ
  | _, none, result => some result
  | 0, some _, _ => none
  | fuel + 1, some x, result => tailqCount M fuel (M.next x) (result + 1)

end Macros

namespace TailqMem

def Chain (M : TailqMem Q α) : TailqLoc Q α → List α → TailqLoc Q α → Prop
  | p, [], p' => p = p'
  | p, x :: l, p' => M.load p = some x ∧ M.prev x = p ∧ Chain M (.next x) l p'

/-- The queues hold these lists. -/
structure Holds (M : TailqMem Q α) (L : Q → List α) : Prop where
  chain : ∀ q, M.Chain (.head q) (L q) (M.last q)
  last : ∀ q, M.load (M.last q) = none
  nodup : ∀ q, (L q).Nodup
  once : ∀ q q' x, x ∈ L q → x ∈ L q' → q = q'

variable {M M' : TailqMem Q α} {L : Q → List α} {p p' : TailqLoc Q α} {q : Q} {x y : α}
  {l l' : List α} {v : Option α}

theorem chain_append : M.Chain p (l ++ l') p' ↔ ∃ p'', M.Chain p l p'' ∧ M.Chain p'' l' p' := by
  induction l generalizing p with
  | nil => simp [Chain]
  | cons x l ih =>
    simp only [List.cons_append, Chain, ih]
    constructor
    · rintro ⟨hx, hp, p'', h₁, h₂⟩
      exact ⟨p'', ⟨hx, hp, h₁⟩, h₂⟩
    · rintro ⟨p'', ⟨hx, hp, h₁⟩, h₂⟩
      exact ⟨hx, hp, p'', h₁, h₂⟩

theorem Chain.end_eq (h : M.Chain p l p') : p' = (l.getLast?.map .next).getD p := by
  induction l generalizing p with
  | nil => exact h.symm
  | cons x l ih =>
    rw [ih h.2.2]
    cases l with
    | nil => rfl
    | cons y l => simp [List.getLast?_cons]

theorem Chain.congr (h : M.Chain p l p') (hn : l.Nodup) (hp : ∀ x ∈ l, p ≠ .next x)
    (hload : ∀ p₁, p₁ = p ∨ (∃ y ∈ l, p₁ = .next y) → p₁ ≠ p' → M'.load p₁ = M.load p₁)
    (hprev : ∀ x ∈ l, M'.prev x = M.prev x) : M'.Chain p l p' := by
  induction l generalizing p with
  | nil => exact h
  | cons x l ih =>
    obtain ⟨hx, hpx, hl⟩ := h
    obtain ⟨hxl, hn⟩ := List.nodup_cons.mp hn
    have hend : p ≠ p' := by
      rw [hl.end_eq]
      cases hlast : l.getLast? with
      | none => exact hp x List.mem_cons_self
      | some y => exact hp y (List.mem_cons_of_mem _ (List.mem_of_getLast? hlast))
    refine ⟨?_, ?_, ih hl hn ?_ ?_ ?_⟩
    · rw [hload p (.inl rfl) hend, hx]
    · rw [hprev x List.mem_cons_self, hpx]
    · intro y hy he
      cases he
      exact hxl hy
    · intro p₁ hp₁ hne
      refine hload p₁ (.inr ?_) hne
      obtain rfl | ⟨z, hz, rfl⟩ := hp₁
      · exact ⟨x, List.mem_cons_self, rfl⟩
      · exact ⟨z, List.mem_cons_of_mem _ hz, rfl⟩
    · exact fun y hy => hprev y (List.mem_cons_of_mem _ hy)

def Owns (L : Q → List α) (q : Q) (p : TailqLoc Q α) : Prop := p = .head q ∨ ∃ x ∈ L q, p = .next x

theorem Holds.owns_last (h : M.Holds L) (q : Q) : Owns L q (M.last q) := by
  rw [(h.chain q).end_eq]
  cases hlast : (L q).getLast? with
  | none => exact .inl rfl
  | some x => exact .inr ⟨x, List.mem_of_getLast? hlast, rfl⟩

theorem Holds.owns_inj {q' : Q} (h : M.Holds L) (hq : Owns L q p) (hq' : Owns L q' p) : q = q' := by
  obtain rfl | ⟨x, hx, rfl⟩ := hq
  · obtain he | ⟨x, hx, he⟩ := hq'
    · exact TailqLoc.head.inj he
    · cases he
  · obtain he | ⟨y, hy, he⟩ := hq'
    · cases he
    · cases he
      exact h.once q q' x hx hy

theorem Holds.first_eq (h : M.Holds L) (q : Q) : M.first q = (L q).head? := by
  have hc := h.chain q
  cases hL : L q with
  | nil =>
    have hlast := h.last q
    rw [hL] at hc
    rw [← show _ = _ from hc] at hlast
    exact hlast
  | cons x l =>
    rw [hL] at hc
    exact hc.1

theorem Holds.chain_of_ne (h : M.Holds L) (hlast : M'.last q = M.last q)
    (hload : ∀ p, Owns L q p → M'.load p = M.load p)
    (hprev : ∀ x ∈ L q, M'.prev x = M.prev x) :
    M'.Chain (.head q) (L q) (M'.last q) ∧ M'.load (M'.last q) = none := by
  rw [hlast]
  refine ⟨(h.chain q).congr (h.nodup q) (fun _ _ => nofun) (fun p hp _ => hload p hp) hprev, ?_⟩
  rw [hload _ (h.owns_last q)]
  exact h.last q

theorem Holds.split (h : M.Holds L) (hL : L q = l ++ x :: l') :
    M.Chain (.head q) l (M.prev x) ∧ M.load (M.prev x) = some x ∧ M.Chain (.next x) l' (M.last q) ∧
      M.next x = l'.head? := by
  have hc := h.chain q
  rw [hL, chain_append] at hc
  obtain ⟨p, hl, hx, rfl, hl'⟩ := hc
  refine ⟨hl, hx, hl', ?_⟩
  cases l' with
  | nil =>
    have hlast := h.last q
    rw [← show _ = _ from hl'] at hlast
    exact hlast
  | cons y l' => exact hl'.1

theorem Chain.count {fuel k : ℕ} (h : M.Chain p l p') (hend : M.load p' = none)
    (hfuel : l.length ≤ fuel) : tailqCount M fuel (M.load p) k = some (k + l.length) := by
  induction l generalizing p fuel k with
  | nil =>
    rw [show p = p' from h, hend]
    cases fuel <;> rfl
  | cons x l ih =>
    obtain ⟨hx, -, hl⟩ := h
    rw [List.length_cons] at hfuel
    obtain ⟨fuel, rfl⟩ : ∃ n, fuel = n + 1 := ⟨fuel - 1, by omega⟩
    have hrest := ih (k := k + 1) hl (by omega : l.length ≤ fuel)
    rw [hx, tailqCount, List.length_cons, show k + (l.length + 1) = k + 1 + l.length by omega]
    exact hrest

theorem holds_init (next : α → Option α) (prev : α → TailqLoc Q α) :
    (tailqInit next prev).Holds fun _ => [] :=
  ⟨fun _ => rfl, fun _ => rfl, fun _ => List.nodup_nil, fun _ _ _ h => by cases h⟩

@[simp]
theorem load_setPrev [DecidableEq α] : (M.setPrev x p').load p = M.load p := by
  cases p <;> rfl

@[simp]
theorem prev_setPrev [DecidableEq α] : (M.setPrev x p).prev = update M.prev x p := rfl

@[simp]
theorem last_setPrev [DecidableEq α] : (M.setPrev x p).last = M.last := rfl

@[simp]
theorem load_setLast [DecidableEq Q] : (M.setLast q p').load p = M.load p := by
  cases p <;> rfl

@[simp]
theorem prev_setLast [DecidableEq Q] : (M.setLast q p).prev = M.prev := rfl

@[simp]
theorem last_setLast [DecidableEq Q] : (M.setLast q p).last = update M.last q p := rfl

variable [DecidableEq Q] [DecidableEq α]

@[simp]
theorem load_store : (M.store p v).load p = v := by
  cases p <;> simp [store, load]

theorem load_store_of_ne (h : p' ≠ p) : (M.store p v).load p' = M.load p' := by
  cases p with
  | head q =>
    cases p' with
    | head q' => exact Function.update_of_ne (fun he => h (congrArg _ he)) _ _
    | next x' => rfl
  | next x =>
    cases p' with
    | head q' => rfl
    | next x' => exact Function.update_of_ne (fun he => h (congrArg _ he)) _ _

@[simp]
theorem prev_store : (M.store p v).prev = M.prev := by
  cases p <;> rfl

@[simp]
theorem last_store : (M.store p v).last = M.last := by
  cases p <;> rfl

theorem prev_insertTail : (tailqInsertTail M q x).prev = update M.prev x (M.last q) := by
  simp [tailqInsertTail]

theorem last_insertTail : (tailqInsertTail M q x).last = update M.last q (.next x) := by
  simp [tailqInsertTail]

theorem load_insertTail_last : (tailqInsertTail M q x).load (M.last q) = some x := by
  simp [tailqInsertTail]

theorem load_insertTail_next (h : M.last q ≠ .next x) :
    (tailqInsertTail M q x).load (.next x) = none := by
  simp only [tailqInsertTail, load_setLast, last_setPrev, last_store]
  rw [load_store_of_ne h.symm, load_setPrev, load_store]

theorem load_insertTail_of_ne (h : p ≠ M.last q) (h' : p ≠ .next x) :
    (tailqInsertTail M q x).load p = M.load p := by
  simp only [tailqInsertTail, load_setLast, last_setPrev, last_store]
  rw [load_store_of_ne h, load_setPrev, load_store_of_ne h']

/-- `TAILQ_INSERT_TAIL` of a node that is in no queue. -/
theorem Holds.insertTail (h : M.Holds L) (hx : ∀ q, x ∉ L q) (q : Q) :
    (tailqInsertTail M q x).Holds (update L q (L q ++ [x])) := by
  have hne : ∀ q', ¬ Owns L q' (.next x) := by
    rintro q' (he | ⟨y, hy, he⟩)
    · cases he
    · cases he
      exact hx q' hy
  have hlx : M.last q ≠ .next x := fun he => hne q (he ▸ h.owns_last q)
  have hprev : ∀ q', ∀ y ∈ L q', (tailqInsertTail M q x).prev y = M.prev y := by
    intro q' y hy
    rw [prev_insertTail, Function.update_of_ne]
    rintro rfl
    exact hx q' hy
  have hother : ∀ q', q' ≠ q → (tailqInsertTail M q x).Chain (.head q') (L q')
      ((tailqInsertTail M q x).last q') ∧
      (tailqInsertTail M q x).load ((tailqInsertTail M q x).last q') = none := by
    intro q' hq'
    refine h.chain_of_ne (by rw [last_insertTail, Function.update_of_ne hq']) ?_ (hprev q')
    intro p hp
    refine load_insertTail_of_ne ?_ ?_
    · rintro rfl
      exact hq' (h.owns_inj hp (h.owns_last q))
    · rintro rfl
      exact hne q' hp
  have hself : (tailqInsertTail M q x).Chain (.head q) (L q ++ [x]) (.next x) := by
    refine chain_append.mpr ⟨M.last q, ?_, load_insertTail_last, ?_, rfl⟩
    · refine (h.chain q).congr (h.nodup q) (fun _ _ => nofun) ?_ (hprev q)
      intro p hp hpl
      refine load_insertTail_of_ne hpl ?_
      rintro rfl
      exact hne q hp
    · rw [prev_insertTail, Function.update_self]
  constructor
  · intro q'
    by_cases hq' : q' = q
    · subst hq'
      rw [last_insertTail, Function.update_self, Function.update_self]
      exact hself
    · rw [Function.update_of_ne hq']
      exact (hother q' hq').1
  · intro q'
    by_cases hq' : q' = q
    · subst hq'
      rw [last_insertTail, Function.update_self]
      exact load_insertTail_next hlx
    · exact (hother q' hq').2
  · intro q'
    by_cases hq' : q' = q
    · subst hq'
      rw [Function.update_self]
      exact List.nodup_append.mpr ⟨h.nodup q', List.nodup_singleton x, fun y hy z hz he =>
        hx q' (List.mem_singleton.mp hz ▸ he ▸ hy)⟩
    · simpa [hq'] using h.nodup q'
  · intro q₁ q₂ y h₁ h₂
    by_cases hy : y = x
    · subst hy
      have hin : ∀ q', y ∈ update L q (L q ++ [y]) q' → q' = q := by
        intro q' hm
        by_contra hq'
        rw [Function.update_of_ne hq'] at hm
        exact hx q' hm
      rw [hin q₁ h₁, hin q₂ h₂]
    · have hin : ∀ q', y ∈ update L q (L q ++ [x]) q' → y ∈ L q' := by
        intro q' hm
        by_cases hq' : q' = q
        · subst hq'
          simpa [hy] using hm
        · simpa [hq'] using hm
      exact h.once q₁ q₂ y (hin q₁ h₁) (hin q₂ h₂)

theorem load_remove_of_ne (h : p ≠ M.prev x) (hne : M.next x ≠ some x) :
    (tailqRemove M q x).load p = M.load p := by
  cases hn : M.next x with
  | none =>
    simp only [tailqRemove, hn, prev_setLast]
    rw [load_store_of_ne h, load_setLast]
  | some y =>
    have hyx : x ≠ y := fun he => hne (he ▸ hn)
    simp only [tailqRemove, hn, prev_setPrev, Function.update_of_ne hyx]
    rw [load_store_of_ne h, load_setPrev]

theorem load_remove_prev (hne : M.next x ≠ some x) :
    (tailqRemove M q x).load (M.prev x) = M.next x := by
  cases hn : M.next x with
  | none =>
    simp only [tailqRemove, hn, prev_setLast, load_store]
    exact hn
  | some y =>
    have hyx : x ≠ y := fun he => hne (he ▸ hn)
    simp only [tailqRemove, hn, prev_setPrev, Function.update_of_ne hyx, load_store]
    exact hn

theorem prev_remove_of_ne (h : M.next x ≠ some y) : (tailqRemove M q x).prev y = M.prev y := by
  cases hn : M.next x with
  | none => simp [tailqRemove, hn]
  | some z =>
    have hyz : y ≠ z := fun he => h (he ▸ hn)
    simp [tailqRemove, hn, hyz]

theorem prev_remove_next (h : M.next x = some y) : (tailqRemove M q x).prev y = M.prev x := by
  simp [tailqRemove, h]

theorem last_remove_of_ne {q' : Q} (h : q' ≠ q) : (tailqRemove M q x).last q' = M.last q' := by
  cases hn : M.next x <;> simp [tailqRemove, hn, h]

theorem last_remove : (tailqRemove M q x).last q =
    if M.next x = none then M.prev x else M.last q := by
  cases hn : M.next x <;> simp [tailqRemove, hn]

/-- `TAILQ_REMOVE` of a node of the queue. -/
theorem Holds.remove (h : M.Holds L) (hx : x ∈ L q) :
    (tailqRemove M q x).Holds (update L q ((L q).erase x)) := by
  obtain ⟨l₁, l₂, hL⟩ := List.append_of_mem hx
  obtain ⟨hc₁, hload, hc₂, hnext⟩ := h.split hL
  have hn := h.nodup q
  rw [hL] at hn
  obtain ⟨hn₁, hn₂, hdis⟩ := List.nodup_append.mp hn
  obtain ⟨hx₂, hn₂⟩ := List.nodup_cons.mp hn₂
  have hx₁ : x ∉ l₁ := fun hz => hdis x hz x List.mem_cons_self rfl
  have herase : (L q).erase x = l₁ ++ l₂ := by
    rw [hL, List.erase_append_right _ hx₁, List.erase_cons_head]
  have hself : M.next x ≠ some x := by
    rw [hnext]
    exact fun he => hx₂ (List.mem_of_head? he)
  have hmem₁ : ∀ y ∈ l₁, y ∈ L q := fun y hy => by simp [hL, hy]
  have hmem₂ : ∀ y ∈ l₂, y ∈ L q := fun y hy => by simp [hL, hy]
  -- the pointer to `x` is before it in the queue
  have hprev : M.prev x = .head q ∨ ∃ y ∈ l₁, M.prev x = .next y := by
    rw [hc₁.end_eq]
    cases hlast : l₁.getLast? with
    | none => exact .inl rfl
    | some y => exact .inr ⟨y, List.mem_of_getLast? hlast, rfl⟩
  have howns : Owns L q (M.prev x) := by
    obtain he | ⟨y, hy, he⟩ := hprev
    · exact .inl he
    · exact .inr ⟨y, hmem₁ y hy, he⟩
  have hafter : ∀ y ∈ l₂, (.next y : TailqLoc Q α) ≠ M.prev x := by
    intro y hy he
    obtain he' | ⟨z, hz, he'⟩ := hprev
    · cases he.trans he'
    · cases he.trans he'
      exact hdis y hz y (List.mem_cons_of_mem _ hy) rfl
  have hother : ∀ q', q' ≠ q → (tailqRemove M q x).Chain (.head q') (L q')
      ((tailqRemove M q x).last q') ∧
      (tailqRemove M q x).load ((tailqRemove M q x).last q') = none := by
    intro q' hq'
    refine h.chain_of_ne (last_remove_of_ne hq') ?_ ?_
    · intro p hp
      refine load_remove_of_ne ?_ hself
      rintro rfl
      exact hq' (h.owns_inj hp howns)
    · intro y hy
      refine prev_remove_of_ne ?_
      rw [hnext]
      exact fun he => hq' (h.once q' q y hy (hmem₂ y (List.mem_of_head? he)))
  have hfront : (tailqRemove M q x).Chain (.head q) l₁ (M.prev x) := by
    refine hc₁.congr hn₁ (fun _ _ => nofun) (fun p _ hp => load_remove_of_ne hp hself) ?_
    intro y hy
    refine prev_remove_of_ne ?_
    rw [hnext]
    exact fun he => hdis y hy y (List.mem_cons_of_mem _ (List.mem_of_head? he)) rfl
  have hchain : (tailqRemove M q x).Chain (.head q) (l₁ ++ l₂) ((tailqRemove M q x).last q) ∧
      (tailqRemove M q x).load ((tailqRemove M q x).last q) = none := by
    cases l₂ with
    | nil =>
      have hnone : M.next x = none := hnext
      rw [last_remove, if_pos hnone, List.append_nil]
      exact ⟨hfront, (load_remove_prev hself).trans hnone⟩
    | cons y l₃ =>
      have hsome : M.next x = some y := hnext
      have hne : M.next x ≠ none := by simp [hsome]
      obtain ⟨hyl, hn₃⟩ := List.nodup_cons.mp hn₂
      rw [last_remove, if_neg hne]
      refine ⟨chain_append.mpr ⟨_, hfront, ?_, prev_remove_next hsome, hc₂.2.2.congr hn₃ ?_ ?_ ?_⟩, ?_⟩
      · exact (load_remove_prev hself).trans hsome
      · intro z hz he
        cases he
        exact hyl hz
      · intro p hp _
        refine load_remove_of_ne ?_ hself
        obtain rfl | ⟨z, hz, rfl⟩ := hp
        · exact hafter y List.mem_cons_self
        · exact hafter z (List.mem_cons_of_mem _ hz)
      · intro z hz
        refine prev_remove_of_ne ?_
        rw [hsome]
        intro he
        cases he
        exact hyl hz
      · rw [load_remove_of_ne ?_ hself]
        · exact h.last q
        · rw [hc₂.2.2.end_eq]
          cases hlast : l₃.getLast? with
          | none => exact hafter y List.mem_cons_self
          | some z => exact hafter z (List.mem_cons_of_mem _ (List.mem_of_getLast? hlast))
  rw [herase]
  constructor
  · intro q'
    by_cases hq' : q' = q
    · subst hq'
      rw [Function.update_self]
      exact hchain.1
    · rw [Function.update_of_ne hq']
      exact (hother q' hq').1
  · intro q'
    by_cases hq' : q' = q
    · subst hq'
      exact hchain.2
    · exact (hother q' hq').2
  · intro q'
    by_cases hq' : q' = q
    · subst hq'
      rw [Function.update_self, ← herase]
      exact (h.nodup q').erase x
    · rw [Function.update_of_ne hq']
      exact h.nodup q'
  · have hin : ∀ q' y, y ∈ update L q (l₁ ++ l₂) q' → y ∈ L q' := by
      intro q' y hm
      by_cases hq' : q' = q
      · subst hq'
        rw [Function.update_self, ← herase] at hm
        exact List.mem_of_mem_erase hm
      · rwa [Function.update_of_ne hq'] at hm
    exact fun q₁ q₂ y h₁ h₂ => h.once q₁ q₂ y (hin q₁ y h₁) (hin q₂ y h₂)

end TailqMem

end Lthread
