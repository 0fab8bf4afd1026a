import Mathlib.Data.List.Induction
import Mathlib.Data.Nat.Basic
import Lthread.StreamMerge
import Lthread.Trace

namespace Lthread

open Bytes StreamMerge

/-- The loop of `get_next_event`, with `i_result` and `result` in `best`. -/
def scanEvents : List (Option ReadEvent) → ℕ → Option (ℕ × ReadEvent) → Option (ℕ × ReadEvent)
  | [], _, best => best
  | none :: events, i, best => scanEvents events (i + 1) best
  | some e :: events, i, none => scanEvents events (i + 1) (some (i, e))
  | some e :: events, i, some best =>
    scanEvents events (i + 1) (some (if e.timestamp < best.2.timestamp then (i, e) else best))

/-- `get_next_event`, with what it leaves in `events` and of the files. -/
def getNextEvent (events : List (Option ReadEvent)) (files : List (List UInt8)) :
    Except ReadFault (Option ReadEvent × List (Option ReadEvent) × List (List UInt8)) :=
  match scanEvents events 0 none with
  | none => .ok (none, events, files)
  | some (i, result) => do
    let (e, f) ← readEvent (files.getD i [])
    .ok (some result, events.set i e, files.set i f)

/-- An event as `read_events` yields it: `time` counts from the first event, so it can be
negative. -/
structure MergedEvent where
  time : ℤ
  lthread : ℕ
  event : ℕ
  fd : ℤ
  deriving DecidableEq, Repr

def ReadEvent.since (t₀ : ℕ) (e : ReadEvent) : MergedEvent :=
  ⟨e.timestamp - t₀, e.lthread, e.event, e.fd⟩

/-- The `while` loop of `read_events`. -/
def mergeLoop : ℕ → Option ℕ → List (Option ReadEvent) → List (List UInt8) →
    Except ReadFault (List MergedEvent)
  | 0, _, _, _ => .error .endless
  | fuel + 1, t₀, events, files => do
    let (result, events, files) ← getNextEvent events files
    match result with
    | none => .ok []
    | some e => do
      let t₀ := t₀.getD e.timestamp
      let rest ← mergeLoop fuel (some t₀) events files
      .ok (e.since t₀ :: rest)

/-- `read_events` of the opened files. -/
def readTraces (fuel : ℕ) (files : List (List UInt8)) : Except ReadFault (List MergedEvent) := do
  let current ← files.mapM readEvent
  mergeLoop fuel none (current.map Prod.fst) (current.map Prod.snd)

/-- A counter of the script and the `events_t` that goes with it. -/
structure Series where
  num : ℤ
  points : List (ℤ × ℤ)
  deriving DecidableEq, Repr

def Series.count (s : Series) (time d : ℤ) : Series := ⟨s.num + d, s.points ++ [(time, s.num + d)]⟩

structure Plots where
  numLthreads : Series := ⟨0, []⟩
  numWaiting : Series := ⟨0, []⟩
  numRunning : Series := ⟨0, []⟩
  deriving DecidableEq, Repr

/-- The body of the `for` loop of the script. -/
def Plots.event (p : Plots) (e : MergedEvent) : Plots :=
  if e.event = 0 then { p with numLthreads := p.numLthreads.count e.time 1 }
  else if e.event = 1 then { p with numLthreads := p.numLthreads.count e.time (-1) }
  else if e.event = 4 then { p with numWaiting := p.numWaiting.count e.time 1 }
  else if e.event = 5 then { p with numWaiting := p.numWaiting.count e.time (-1) }
  else if e.event = 3 then { p with numRunning := p.numRunning.count e.time 1 }
  else if e.event = 2 then { p with numRunning := p.numRunning.count e.time (-1) }
  else p

/-- The script, up to the plotting. -/
def analyzeTrace (fuel : ℕ) (files : List (List UInt8)) : Except ReadFault Plots := do
  let events ← readTraces fuel files
  .ok (events.foldl Plots.event {})

section Scan

variable {es : List (Option ReadEvent)}

theorem scanEvents_some (i : ℕ) (best : ℕ × ReadEvent) :
    scanEvents es i (some best) =
      match first ReadEvent.timestamp es with
      | none => some best
      | some (j, e) => some (if e.timestamp < best.2.timestamp then (i + j, e) else best) := by
  induction es generalizing i best with
  | nil => rfl
  | cons e es ih =>
    cases e with
    | none =>
      simp only [scanEvents, first, ih]
      cases first ReadEvent.timestamp es with
      | none => rfl
      | some r => simp only [Option.map_some, Nat.add_comm r.1 1, Nat.add_assoc]
    | some e =>
      simp only [scanEvents, first, ih]
      cases first ReadEvent.timestamp es with
      | none => rfl
      | some r =>
        have hi : i + 1 + r.1 = i + (r.1 + 1) := by omega
        by_cases hbest : e.timestamp < best.2.timestamp
        · by_cases hle : e.timestamp ≤ r.2.timestamp
          · simp only [if_pos hbest, if_pos hle, if_neg (Nat.not_lt.mpr hle), Nat.add_zero]
          · have hlt : r.2.timestamp < best.2.timestamp := by omega
            simp only [if_pos hbest, if_neg hle, if_pos (Nat.lt_of_not_le hle), if_pos hlt, hi]
        · by_cases hle : e.timestamp ≤ r.2.timestamp
          · have hlt : ¬ r.2.timestamp < best.2.timestamp := by omega
            simp only [if_neg hbest, if_pos hle, if_neg hlt]
          · simp only [if_neg hbest, if_neg hle, hi]

theorem scanEvents_none (i : ℕ) :
    scanEvents es i none = (first ReadEvent.timestamp es).map fun r => (i + r.1, r.2) := by
  induction es generalizing i with
  | nil => rfl
  | cons e es ih =>
    cases e with
    | none =>
      simp only [scanEvents, first, ih, Option.map_map]
      congr 1
      funext r
      simp only [Function.comp_apply, Nat.add_comm r.1 1, Nat.add_assoc]
    | some e =>
      simp only [scanEvents, first, scanEvents_some]
      cases first ReadEvent.timestamp es with
      | none => rfl
      | some r =>
        have hi : i + 1 + r.1 = i + (r.1 + 1) := by omega
        by_cases hle : e.timestamp ≤ r.2.timestamp
        · simp only [if_pos hle, if_neg (Nat.not_lt.mpr hle), Option.map_some, Nat.add_zero]
        · simp only [if_neg hle, if_pos (Nat.lt_of_not_le hle), Option.map_some, hi]

end Scan

section Files

variable {f : List UInt8} {es : List ReadEvent} {ss : List (List ReadEvent)}
  {files : List (List UInt8)}

def Unread (f : List UInt8) (es : List ReadEvent) : Prop :=
  ∃ (events : List TraceEvent) (rest : List UInt8),
    f = events.flatMap TraceEvent.record ++ (encode 8 0 ++ rest) ∧ es = events.map TraceEvent.toRead

theorem Unread.readEvent (h : Unread f es) :
    ∃ f', readEvent f = .ok (es.head?, f') ∧ (es ≠ [] → Unread f' es.tail) := by
  obtain ⟨events, rest, rfl, rfl⟩ := h
  cases events with
  | nil => exact ⟨rest, readEvent_terminator, fun h => absurd rfl h⟩
  | cons e events =>
    refine ⟨events.flatMap TraceEvent.record ++ (encode 8 0 ++ rest), ?_, fun _ =>
      ⟨events, rest, rfl, rfl⟩⟩
    rw [List.flatMap_cons, List.append_assoc, readEvent_record]
    rfl

structure HeadsRead (ss : List (List ReadEvent)) (events : List (Option ReadEvent))
    (files : List (List UInt8)) : Prop where
  events_eq : events = ss.map List.head?
  length_eq : files.length = ss.length
  unread : ∀ i es, ss[i]? = some es → es ≠ [] → Unread (files.getD i []) es.tail

theorem headsRead_mapM (h : List.Forall₂ Unread files ss) :
    ∃ current, files.mapM readEvent = .ok current ∧
      HeadsRead ss (current.map Prod.fst) (current.map Prod.snd) := by
  induction h with
  | nil => exact ⟨[], rfl, rfl, rfl, fun i es hi => by simp at hi⟩
  | @cons f es files ss hf _ ih =>
    obtain ⟨f', hread, htail⟩ := hf.readEvent
    obtain ⟨current, hcurrent, hheads⟩ := ih
    refine ⟨(es.head?, f') :: current, ?_, ?_, ?_, ?_⟩
    · rw [List.mapM_cons, hread, hcurrent]
      rfl
    · rw [List.map_cons, List.map_cons, hheads.events_eq]
    · rw [List.map_cons, List.length_cons, List.length_cons, hheads.length_eq]
    · intro i es' hi hne
      cases i with
      | zero =>
        cases hi
        exact htail hne
      | succ i => exact hheads.unread i es' hi hne

variable {events : List (Option ReadEvent)}

theorem HeadsRead.getNextEvent (h : HeadsRead ss events files) :
    (mergeAll ReadEvent.timestamp ss = [] ∧ getNextEvent events files = .ok (none, events, files)) ∨
    ∃ e ss' events' files', mergeAll ReadEvent.timestamp ss = e :: mergeAll ReadEvent.timestamp ss' ∧
      getNextEvent events files = .ok (some e, events', files') ∧ HeadsRead ss' events' files' := by
  have hscan : scanEvents events 0 none =
      (first ReadEvent.timestamp events).map fun r => (0 + r.1, r.2) := scanEvents_none 0
  rw [h.events_eq] at hscan
  cases hfirst : first ReadEvent.timestamp (ss.map List.head?) with
  | none =>
    left
    rw [hfirst] at hscan
    refine ⟨mergeAll_of_first_none hfirst, ?_⟩
    rw [Lthread.getNextEvent, h.events_eq, hscan]
    rfl
  | some r =>
    obtain ⟨i, e⟩ := r
    right
    rw [hfirst, Option.map_some, Nat.zero_add] at hscan
    obtain ⟨es, hi, hmerge⟩ := exists_of_first hfirst
    obtain ⟨f', hread, htail⟩ := (h.unread i _ hi (List.cons_ne_nil _ _)).readEvent
    refine ⟨e, ss.set i es, (ss.map List.head?).set i es.head?, files.set i f', hmerge, ?_,
      List.map_set.symm, ?_, ?_⟩
    · rw [Lthread.getNextEvent, h.events_eq, hscan]
      simp only [hread, bind, Except.bind, List.tail_cons]
    · rw [List.length_set, List.length_set, h.length_eq]
    · intro j es' hj hne
      have hlt : i < files.length := h.length_eq ▸ (List.getElem?_eq_some_iff.mp hi).1
      by_cases hij : i = j
      · subst hij
        rw [List.getElem?_set_self (h.length_eq ▸ hlt)] at hj
        cases hj
        rw [List.getD_eq_getElem?_getD, List.getElem?_set_self hlt]
        exact htail hne
      · rw [List.getElem?_set_ne hij] at hj
        rw [List.getD_eq_getElem?_getD, List.getElem?_set_ne hij, ← List.getD_eq_getElem?_getD]
        exact h.unread j es' hj hne

/-- The loop of `read_events` yields the merged streams. -/
theorem HeadsRead.mergeLoop (h : HeadsRead ss events files) (t₀ : Option ℕ) {fuel : ℕ}
    (hfuel : (mergeAll ReadEvent.timestamp ss).length < fuel) :
    mergeLoop fuel t₀ events files =
      .ok ((mergeAll ReadEvent.timestamp ss).map
        (ReadEvent.since (t₀.getD (((mergeAll ReadEvent.timestamp ss).head?.map
          ReadEvent.timestamp).getD 0)))) := by
  induction fuel generalizing ss events files t₀ with
  | zero => cases hfuel
  | succ fuel ih =>
    rcases h.getNextEvent with ⟨hnil, hnext⟩ | ⟨e, ss', events', files', hmerge, hnext, h'⟩
    · simp only [Lthread.mergeLoop, hnext, bind, Except.bind, hnil, List.map_nil]
    · rw [hmerge, List.length_cons] at hfuel
      have hrest := ih h' (some (t₀.getD e.timestamp)) (by omega)
      simp only [Lthread.mergeLoop, hnext, bind, Except.bind, hrest, hmerge, List.map_cons,
        List.head?_cons, Option.map_some, Option.getD_some]

end Files

section Runs

variable {size : ℕ} {runs : List (List TraceEvent)}

/-- The files that schedulers leave when they record these events. -/
def traceFiles (size : ℕ) (runs : List (List TraceEvent)) :
    Except MemFault (List (List UInt8)) :=
  runs.mapM fun events => (traceEvents (traceCreate size) events).map TraceSched.file

def timeline (runs : List (List TraceEvent)) : List ReadEvent :=
  mergeAll ReadEvent.timestamp (runs.map (List.map TraceEvent.toRead))

def sinceFirst (es : List ReadEvent) : List MergedEvent :=
  es.map (ReadEvent.since ((es.head?.map ReadEvent.timestamp).getD 0))

theorem exists_traceFiles (h : ∀ events ∈ runs, 19 * events.length + 8 ≤ size) :
    ∃ files, traceFiles size runs = .ok files ∧
      List.Forall₂ Unread files (runs.map (List.map TraceEvent.toRead)) := by
  induction runs with
  | nil => exact ⟨[], rfl, .nil⟩
  | cons events runs ih =>
    obtain ⟨hfit, hfits⟩ := List.forall_mem_cons.mp h
    obtain ⟨files, hfiles, hunread⟩ := ih hfits
    have hrun := traceEvents_create (by omega : 8 ≤ size) events
    rw [if_pos hfit] at hrun
    have hlen : (events.flatMap TraceEvent.record).length + 8 ≤ size := by
      rw [length_records]
      exact hfit
    refine ⟨_ :: files, ?_, .cons ⟨events, _, file_tracing hlen, rfl⟩ hunread⟩
    rw [traceFiles] at hfiles ⊢
    rw [List.mapM_cons, hrun, hfiles]
    rfl

theorem timeline_perm (runs : List (List TraceEvent)) :
    (timeline runs).Perm (runs.flatten.map TraceEvent.toRead) := by
  rw [List.map_flatten]
  exact mergeAll_perm _

theorem readTraces_eq {files : List (List UInt8)}
    (h : List.Forall₂ Unread files (runs.map (List.map TraceEvent.toRead))) {fuel : ℕ}
    (hfuel : runs.flatten.length < fuel) :
    readTraces fuel files = .ok (sinceFirst (timeline runs)) := by
  obtain ⟨current, hcurrent, hheads⟩ := headsRead_mapM h
  have hlen : (timeline runs).length < fuel := by
    rwa [(timeline_perm runs).length_eq, List.length_map]
  simp only [readTraces, hcurrent, bind, Except.bind, hheads.mergeLoop none hlen]
  rfl

theorem pairwise_toRead (h : ∀ events ∈ runs, events.Pairwise fun e e' => e.now ≤ e'.now) :
    ∀ es ∈ runs.map (List.map TraceEvent.toRead),
      es.Pairwise fun e e' => e.timestamp ≤ e'.timestamp := by
  intro es hes
  obtain ⟨events, hmem, rfl⟩ := List.mem_map.mp hes
  exact List.pairwise_map.mpr (h events hmem)

/-- The schedulers' files, as long as everything fits: the script reads every recorded event once,
those of one scheduler in the order in which it has recorded them. When no scheduler's clock goes
back, the events are in the order of time, and those of the same time in the order of the files. -/
theorem trace_files_merge (hfit : ∀ events ∈ runs, 19 * events.length + 8 ≤ size) :
    ∃ files es, traceFiles size runs = .ok files ∧
      (∀ fuel, runs.flatten.length < fuel → readTraces fuel files = .ok (sinceFirst es)) ∧
      es.Perm (runs.flatten.map TraceEvent.toRead) ∧
      (∀ events ∈ runs, (events.map TraceEvent.toRead).Sublist es) ∧
      ((∀ events ∈ runs, events.Pairwise fun e e' => e.now ≤ e'.now) →
        (es.Pairwise fun e e' => e.timestamp ≤ e'.timestamp) ∧
        ∀ t, es.filter (fun e => decide (e.timestamp = t)) =
          (runs.flatten.map TraceEvent.toRead).filter fun e => decide (e.timestamp = t)) := by
  obtain ⟨files, hfiles, hunread⟩ := exists_traceFiles hfit
  refine ⟨files, timeline runs, hfiles, fun fuel hfuel => readTraces_eq hunread hfuel,
    timeline_perm runs, fun events hmem => sublist_mergeAll (List.mem_map_of_mem hmem), ?_⟩
  intro hclock
  refine ⟨pairwise_mergeAll (pairwise_toRead hclock), fun t => ?_⟩
  rw [List.map_flatten]
  exact filter_mergeAll (pairwise_toRead hclock) t

def twoRuns : List (List TraceEvent) :=
  [[⟨0x7f00, 17, 0, -1, by decide⟩],
    [⟨0x7f00, 20, 3, -1, by decide⟩, ⟨0x7f00, 22, 4, 7, by decide⟩]]

/-- In files with room for two events. -/
theorem trace_files_merge_two : ∃ files es, traceFiles 46 twoRuns = .ok files ∧
    readTraces 4 files = .ok (sinceFirst es) ∧ es.length = 3 := by
  have hfit : ∀ events ∈ twoRuns, 19 * events.length + 8 ≤ 46 := by simp [twoRuns]
  obtain ⟨files, es, hfiles, hread, hperm, -⟩ := trace_files_merge hfit
  exact ⟨files, es, hfiles, hread 4 (by decide), hperm.length_eq⟩

end Runs

section Counting

variable {up down : ℕ} {s : Series} {e : MergedEvent} {es : List MergedEvent}

def Series.track (up down : ℕ) (s : Series) (e : MergedEvent) : Series :=
  if e.event = up then s.count e.time 1
  else if e.event = down then s.count e.time (-1)
  else s

def numUpTo (code : ℕ) (t : ℤ) (es : List MergedEvent) : ℤ :=
  es.countP fun e => decide (e.event = code ∧ e.time ≤ t)

theorem Plots.foldl_event (p : Plots) (es : List MergedEvent) :
    es.foldl Plots.event p =
      ⟨es.foldl (Series.track 0 1) p.numLthreads, es.foldl (Series.track 4 5) p.numWaiting,
        es.foldl (Series.track 3 2) p.numRunning⟩ := by
  induction es generalizing p with
  | nil => rfl
  | cons e es ih =>
    have hevent : p.event e = ⟨p.numLthreads.track 0 1 e, p.numWaiting.track 4 5 e,
        p.numRunning.track 3 2 e⟩ := by
      unfold Plots.event Series.track
      split_ifs <;> first | rfl | omega
    rw [List.foldl_cons, List.foldl_cons, List.foldl_cons, List.foldl_cons, hevent, ih]

theorem numUpTo_append (code : ℕ) (t : ℤ) (es : List MergedEvent) (e : MergedEvent) :
    numUpTo code t (es ++ [e]) =
      numUpTo code t es + if e.event = code ∧ e.time ≤ t then 1 else 0 := by
  unfold numUpTo
  rw [List.countP_append, List.countP_singleton]
  by_cases he : e.event = code ∧ e.time ≤ t
  · rw [if_pos (decide_eq_true he), if_pos he]
    rfl
  · rw [if_neg (by simpa using he), if_neg he]
    rfl

theorem numUpTo_eq_countP {code : ℕ} {t : ℤ} (h : ∀ e ∈ es, e.time ≤ t) :
    numUpTo code t es = es.countP fun e => decide (e.event = code) := by
  unfold numUpTo
  congr 1
  refine List.countP_congr fun e he => ?_
  simp [h e he]

structure Series.Counts (s : Series) (up down : ℕ) (es : List MergedEvent) : Prop where
  num : s.num = es.countP (fun e => decide (e.event = up)) -
    es.countP (fun e => decide (e.event = down))
  times : s.points.map Prod.fst =
    (es.filter fun e => decide (e.event = up ∨ e.event = down)).map MergedEvent.time
  values : ∀ l₁ p l₂, s.points = l₁ ++ p :: l₂ → (∀ q ∈ l₂, p.1 < q.1) →
    p.2 = numUpTo up p.1 es - numUpTo down p.1 es

theorem Series.Counts.count {d : ℤ} (h : s.Counts up down es)
    (hlast : ∀ e' ∈ es, e'.time ≤ e.time) (hd : d = (if e.event = up then 1 else 0) -
      if e.event = down then 1 else 0) (he : e.event = up ∨ e.event = down) :
    (s.count e.time d).Counts up down (es ++ [e]) := by
  have hnum : s.num + d = (es ++ [e]).countP (fun e => decide (e.event = up)) -
      (es ++ [e]).countP (fun e => decide (e.event = down)) := by
    rw [h.num, hd]
    simp only [List.countP_append, List.countP_singleton, decide_eq_true_eq]
    split_ifs <;> push_cast <;> omega
  have hall : ∀ e' ∈ es ++ [e], e'.time ≤ e.time := by
    intro e' he'
    obtain he' | he' := List.mem_append.mp he'
    · exact hlast e' he'
    · rw [List.mem_singleton.mp he']
  refine { num := hnum, times := ?_, values := ?_ }
  · simp [Series.count, h.times, List.filter_append, he]
  · intro l₁ p l₂ hp hlt
    change s.points ++ [(e.time, s.num + d)] = l₁ ++ p :: l₂ at hp
    rcases List.eq_nil_or_concat l₂ with rfl | ⟨l, q, rfl⟩
    · obtain ⟨-, hpe⟩ := List.append_inj' hp rfl
      cases hpe
      rw [numUpTo_eq_countP hall, numUpTo_eq_countP hall]
      exact hnum
    · have hp' : s.points ++ [(e.time, s.num + d)] = (l₁ ++ p :: l) ++ [q] := by
        rw [List.append_assoc]
        simpa using hp
      obtain ⟨hpoints, hqe⟩ := List.append_inj' hp' rfl
      cases hqe
      have hpe : ¬ e.time ≤ p.1 := Int.not_le.mpr (hlt (e.time, s.num + d) (by simp))
      rw [numUpTo_append, numUpTo_append, if_neg (hpe ·.2), if_neg (hpe ·.2), Int.add_zero,
        Int.add_zero]
      exact h.values l₁ p l hpoints fun q hq => hlt q (by simp [hq])

theorem Series.Counts.track (h : s.Counts up down es) (hne : up ≠ down)
    (hlast : ∀ e' ∈ es, e'.time ≤ e.time) :
    (s.track up down e).Counts up down (es ++ [e]) := by
  unfold Series.track
  split_ifs with hup hdown
  · have hdown : e.event ≠ down := hup ▸ hne
    exact h.count hlast (by simp [hup, hne]) (.inl hup)
  · exact h.count hlast (by simp [hdown, Ne.symm hne]) (.inr hdown)
  · refine { num := ?_, times := ?_, values := fun l₁ p l₂ hp hlt => ?_ }
    · simp [h.num, hup, hdown]
    · simp [h.times, hup, hdown]
    · rw [numUpTo_append, numUpTo_append, if_neg (hup ·.1), if_neg (hdown ·.1), Int.add_zero,
        Int.add_zero]
      exact h.values l₁ p l₂ hp hlt

theorem Series.foldl_track (hne : up ≠ down) (hsorted : es.Pairwise fun e e' => e.time ≤ e'.time) :
    (es.foldl (Series.track up down) ⟨0, []⟩).Counts up down es := by
  induction es using List.reverseRecOn with
  | nil => exact { num := rfl, times := rfl, values := fun l₁ p l₂ hp => by simp at hp }
  | append_singleton es e ih =>
    obtain ⟨hes, -, hlast⟩ := List.pairwise_append.mp hsorted
    rw [List.foldl_append, List.foldl_cons, List.foldl_nil]
    exact (ih hes).track hne fun e' he' => hlast e' he' e (by simp)

def numRecorded (runs : List (List TraceEvent)) (code t₀ : ℕ) (t : ℤ) : ℤ :=
  runs.flatten.countP fun e => decide (e.event.toNat = code ∧ (e.now.toNat : ℤ) - t₀ ≤ t)

theorem numUpTo_since (runs : List (List TraceEvent)) (code t₀ : ℕ) (t : ℤ) :
    numUpTo code t ((timeline runs).map (ReadEvent.since t₀)) = numRecorded runs code t₀ t := by
  unfold numUpTo numRecorded
  rw [List.countP_map, (timeline_perm runs).countP_eq, List.countP_map]
  rfl

end Counting

def firstTime (runs : List (List TraceEvent)) : ℕ :=
  ((timeline runs).head?.map ReadEvent.timestamp).getD 0

theorem firstTime_le {runs : List (List TraceEvent)}
    (hsorted : (timeline runs).Pairwise fun e e' => e.timestamp ≤ e'.timestamp) :
    ∀ e ∈ runs.flatten, firstTime runs ≤ e.now.toNat := by
  intro e he
  have hmem : e.toRead ∈ timeline runs :=
    (timeline_perm runs).mem_iff.mpr (List.mem_map_of_mem he)
  rw [firstTime]
  cases htl : timeline runs with
  | nil => exact Nat.zero_le _
  | cons e₀ es =>
    rw [htl] at hsorted hmem
    rcases List.mem_cons.mp hmem with h | h
    · rw [← h]
      exact Nat.le_refl _
    · exact (List.pairwise_cons.mp hsorted).1 _ h

theorem exists_firstTime {runs : List (List TraceEvent)} (h : runs.flatten ≠ []) :
    ∃ e ∈ runs.flatten, e.now.toNat = firstTime runs := by
  rw [firstTime]
  cases htl : timeline runs with
  | nil =>
    have hnil := (timeline_perm runs).symm
    rw [htl] at hnil
    exact absurd (List.map_eq_nil_iff.mp hnil.eq_nil) h
  | cons e₀ es =>
    have hmem : e₀ ∈ timeline runs := by
      rw [htl]
      exact List.mem_cons_self
    obtain ⟨e, he, rfl⟩ := List.mem_map.mp ((timeline_perm runs).mem_iff.mp hmem)
    exact ⟨e, he, rfl⟩

/-- The points of one plot: they are in the order of time, there is one for each recorded event
that begins or ends what is counted, and the last point of a time has the number of events
recorded until then that begin it less the number of those that end it. -/
structure Series.Shows (s : Series) (runs : List (List TraceEvent)) (t₀ up down : ℕ) : Prop where
  sorted : s.points.Pairwise fun p q => p.1 ≤ q.1
  times : (s.points.map Prod.fst).Perm
    ((runs.flatten.filter fun e => decide (e.event.toNat = up ∨ e.event.toNat = down)).map
      fun e => (e.now.toNat : ℤ) - t₀)
  values : ∀ l₁ p l₂, s.points = l₁ ++ p :: l₂ → (∀ q ∈ l₂, p.1 < q.1) →
    p.2 = numRecorded runs up t₀ p.1 - numRecorded runs down t₀ p.1

theorem Series.Counts.shows {s : Series} {runs : List (List TraceEvent)} {up down t₀ : ℕ}
    (h : s.Counts up down ((timeline runs).map (ReadEvent.since t₀)))
    (hsorted : ((timeline runs).map (ReadEvent.since t₀)).Pairwise fun e e' => e.time ≤ e'.time) :
    s.Shows runs t₀ up down where
  sorted := by
    have htimes : (s.points.map Prod.fst).Pairwise fun t t' => t ≤ t' := by
      rw [h.times]
      exact List.pairwise_map.mpr (hsorted.sublist List.filter_sublist)
    exact List.pairwise_map.mp htimes
  times := by
    rw [h.times, List.filter_map, List.map_map]
    refine (((timeline_perm runs).filter _).map _).trans ?_
    rw [List.filter_map, List.map_map]
    exact List.Perm.refl _
  values l₁ p l₂ hp hlt := by
    rw [← numUpTo_since, ← numUpTo_since]
    exact h.values l₁ p l₂ hp hlt

/-- The plots of the script, when everything fits and no scheduler's clock goes back: with the
earliest event at time 0, each plot has a point for each event that begins or ends something (an
lthread, a wait, a resume), and the last point of a time counts what has begun until then less
what has ended. -/
theorem trace_plots_count {size : ℕ} {runs : List (List TraceEvent)}
    (hfit : ∀ events ∈ runs, 19 * events.length + 8 ≤ size)
    (hclock : ∀ events ∈ runs, events.Pairwise fun e e' => e.now ≤ e'.now) :
    ∃ files plots t₀, traceFiles size runs = .ok files ∧
      (∀ fuel, runs.flatten.length < fuel → analyzeTrace fuel files = .ok plots) ∧
      (∀ e ∈ runs.flatten, t₀ ≤ e.now.toNat) ∧
      (runs.flatten ≠ [] → ∃ e ∈ runs.flatten, e.now.toNat = t₀) ∧
      plots.numLthreads.Shows runs t₀ 0 1 ∧ plots.numWaiting.Shows runs t₀ 4 5 ∧
      plots.numRunning.Shows runs t₀ 3 2 := by
  obtain ⟨files, hfiles, hunread⟩ := exists_traceFiles hfit
  have hsorted := pairwise_mergeAll (pairwise_toRead hclock)
  have htimes : (sinceFirst (timeline runs)).Pairwise fun e e' => e.time ≤ e'.time := by
    apply List.pairwise_map.mpr
    exact hsorted.imp fun hle => Int.sub_le_sub_right (Int.ofNat_le.mpr hle) _
  have hshows : ∀ up down, up ≠ down →
      ((sinceFirst (timeline runs)).foldl (Series.track up down) ⟨0, []⟩).Shows runs
        (firstTime runs) up down :=
    fun up down hne => (Series.foldl_track hne htimes).shows htimes
  refine ⟨files, (sinceFirst (timeline runs)).foldl Plots.event {}, firstTime runs, hfiles, ?_,
    firstTime_le hsorted, exists_firstTime, ?_⟩
  · intro fuel hfuel
    simp only [analyzeTrace, readTraces_eq hunread hfuel, bind, Except.bind]
  · rw [Plots.foldl_event]
    exact ⟨hshows 0 1 (by decide), hshows 4 5 (by decide), hshows 3 2 (by decide)⟩

theorem trace_plots_count_two : ∃ files plots, traceFiles 46 twoRuns = .ok files ∧
    analyzeTrace 4 files = .ok plots ∧ plots.numRunning.points = [(3, 1)] := by
  have hfit : ∀ events ∈ twoRuns, 19 * events.length + 8 ≤ 46 := by simp [twoRuns]
  have hclock : ∀ events ∈ twoRuns, events.Pairwise fun e e' => e.now ≤ e'.now := by
    simp [twoRuns]
  obtain ⟨files, plots, t₀, hfiles, hread, hmin, hfirst, -, -, hrunning⟩ :=
    trace_plots_count hfit hclock
  have ht₀ : t₀ = 17 := by
    have hle : t₀ ≤ 17 := hmin ⟨0x7f00, 17, 0, -1, by decide⟩ (by simp [twoRuns])
    obtain ⟨e, he, rfl⟩ := hfirst (by simp [twoRuns])
    have hmem : e.now.toNat = 17 ∨ e.now.toNat = 20 ∨ e.now.toNat = 22 := by
      simp only [twoRuns, List.flatten_cons, List.flatten_nil, List.mem_append, List.mem_cons,
        List.not_mem_nil, or_false] at he
      obtain rfl | rfl | rfl := he <;> simp
    omega
  subst ht₀
  refine ⟨files, plots, hfiles, hread 4 (by decide), ?_⟩
  have htimes : plots.numRunning.points.map Prod.fst = [3] :=
    List.perm_singleton.mp (hrunning.times.trans (List.Perm.of_eq (by decide)))
  obtain ⟨⟨t, v⟩, hp, ht⟩ := List.map_eq_singleton_iff.mp htimes
  obtain rfl : t = 3 := ht
  have hvalue := hrunning.values [] (3, v) [] hp (by simp)
  have hone : numRecorded twoRuns 3 17 3 - numRecorded twoRuns 2 17 3 = 1 := by decide
  rw [hp, show v = 1 from hvalue.trans hone]

end Lthread
