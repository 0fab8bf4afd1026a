import Lthread.State
import Lthread.OrderedTree

namespace Lthread

open Function (update)

variable {m : ℕ}

/-- The loop of `lthread_run` that sets `last_sched->sched_neighbor`. -/
def linkNeighbors : List (Fin (m + 1)) → Fin (m + 1) → (Fin (m + 1) → Fin (m + 1)) →
    (Fin (m + 1) → Fin (m + 1))
  | [], _, next => next
  | i :: rest, last, next => linkNeighbors rest i (update next last i)

/-- `sched_neighbor` as `lthread_run` leaves it; nothing writes it afterwards. -/
def schedNeighbor : Fin (m + 1) → Fin (m + 1) :=
  linkNeighbors (List.finRange (m + 1)) (Fin.last m) id

/-- `pthread_cond_signal` on the condition only the scheduler itself waits on. -/
def SchedPc.signal : SchedPc m → SchedPc m
  | .parked deep timeout _ => .parked deep timeout true
  | p => p

def poolEndDeepSleep (s : State m) (i : Fin (m + 1)) : State m :=
  { s with asleep := update s.asleep i false }

/-- The flag of the caller is set and all flags are read. -/
def poolBeginDeepSleep (s : State m) (i : Fin (m + 1)) : Bool × State m :=
  let asleep := update s.asleep i true
  (decide (∀ j, asleep j = true), { s with asleep := asleep })

/-- The `switch` of `_lthread_sched_wake_unsafe`, one line for each field. -/
def schedWakeUnsafe (s : State m) (i : Fin (m + 1)) : State m :=
  { s with
    blockState := update s.blockState i
      (match s.blockState i with | .willBlock => .wontBlock | b => b)
    asleep := match s.blockState i with
      | .isBlocking => (poolEndDeepSleep s i).asleep
      | _ => s.asleep
    schedPc := match s.blockState i with
      | .isBlocking => update s.schedPc i (s.schedPc i).signal
      | _ => s.schedPc }

/-- `TAILQ_INSERT_TAIL(&lt->sched->ready, lt, ready_next)`. -/
def insertReady (s : State m) (t : ℕ) : Except Fault (State m) :=
  if ∃ k, t ∈ s.ready k then .error .readyLink
  else .ok { s with ready := update s.ready (s.sched t) (s.ready (s.sched t) ++ [t]) }

def schedPushReadyUnsafe (s : State m) (i : Fin (m + 1)) (t : ℕ) : Except Fault (State m) :=
  if s.currentLthread (s.sched t) = some t then
    .ok (schedWakeUnsafe { s with needsResched := update s.needsResched t true } i)
  else do
    let s ← insertReady s t
    return schedWakeUnsafe s i

def deschedSleepUnsafe (s : State m) (t : ℕ) : Except Fault (State m) :=
  if t ∈ s.sleeping (s.sched t) then
    schedPushReadyUnsafe
      { s with sleeping := update s.sleeping (s.sched t) ((s.sleeping (s.sched t)).erase t) }
      (s.sched t) t
  else .error .sleepUnlink

/-- The loop of `_lthread_schedule_expired`. Every turn takes a node out of the
tree, so its size bounds the number of turns. -/
def expireLoop (i : Fin (m + 1)) (now : BitVec 64) : ℕ → State m → Except Fault (State m)
  | 0, s => .ok s
  | fuel + 1, s =>
    match s.sleeping i with
    | [] => .ok s
    | t :: _ =>
      if s.sleepUsecs t ≤ now then do
        let s ← deschedSleepUnsafe s t
        expireLoop i now fuel s
      else .ok s

def scheduleExpired (s : State m) (i : Fin (m + 1)) (now : BitVec 64) : Except Fault (State m) :=
  expireLoop i now (s.sleeping i).length s

/-- `while (RB_INSERT(...)) ++lt->sleep_usecs`, started at `key`. A tree refuses
at most as many keys as it has nodes. -/
def sleepInsert (usecs : ℕ → BitVec 64) (t : ℕ) (tree : List ℕ) :
    ℕ → BitVec 64 → Option (BitVec 64 × List ℕ)
  | 0, _ => none
  | fuel + 1, key =>
    match OrderedTree.insert (fun u => (update usecs t key u).toNat) t tree with
    | some tree => some (key, tree)
    | none => sleepInsert usecs t tree fuel (key + 1)

/-- The critical section of `_lthread_sched_sleep`. -/
def schedSleep (s : State m) (t : ℕ) (msecs : BitVec 64) : Except Fault (State m) :=
  let i := s.sched t
  let s := { s with stSleeping := update s.stSleeping t true }
  if msecs = 0 then .ok { s with sleepUsecs := update s.sleepUsecs t 0 }
  else if ∃ k, t ∈ s.sleeping k then .error .sleepLink
  else
    match sleepInsert s.sleepUsecs t (s.sleeping i) ((s.sleeping i).length + 1)
        (s.usecNow + msecs * 1000) with
    | none => .error .sleepLoop
    | some (key, tree) => .ok { s with
        sleepUsecs := update s.sleepUsecs t key
        sleeping := update s.sleeping i tree
        deadline := update s.deadline t (s.usecNow.toNat + 1000 * msecs.toNat) }

/-- `_lthread_yield` up to the switch into `_lthread_resume`. -/
def ltYield (s : State m) (i : Fin (m + 1)) (t : ℕ) : Except Fault (State m) :=
  if s.sched t = i then .ok { s with schedPc := update s.schedPc i (.leave t) }
  else .error .yieldSched

/-- `_lthread_resume` up to `mco_resume`. -/
def resumeEnter (s : State m) (i : Fin (m + 1)) (t : ℕ) : Except Fault (State m) :=
  if s.sched t ≠ i then .error .resumeSched
  else if s.isRunning t then .error .resumeRunning
  else .ok { s with
    schedPc := update s.schedPc i (.running t)
    currentLthread := update s.currentLthread i (some t)
    isRunning := update s.isRunning t true }

/-- `_lthread_free`: with `USE_MINICORO` the memory is given back. -/
def ltFree (s : State m) (t : ℕ) : State m :=
  { s with freed := update s.freed t true, frees := update s.frees t (s.frees t + 1) }

/-- The `needs_resched` branch of `_lthread_resume`: it wakes no scheduler. -/
def reschedule (s : State m) (t : ℕ) : Except Fault (State m) :=
  if s.needsResched t then
    (insertReady s t).map fun s => { s with needsResched := update s.needsResched t false }
  else .ok s

/-- `_lthread_resume` after `mco_resume`. -/
def resumeLeave (s : State m) (i : Fin (m + 1)) (t : ℕ) : Except Fault (State m) := do
  let s ← reschedule { s with
    schedPc := update s.schedPc i .expire
    isRunning := update s.isRunning t false
    currentLthread := update s.currentLthread i none
    stSleeping := update s.stSleeping t false
    sleepUsecs := update s.sleepUsecs t 0 } t
  return if s.stExited t then ltFree s t else s

/-- `_lthread_sched_pop_ready(victim)` for scheduler `i`, with the position of
`_lthread_pop_ready` after an empty queue. -/
def popReady (s : State m) (i victim : Fin (m + 1)) (next : SchedPc m) : State m :=
  match s.ready victim with
  | [] => { s with schedPc := update s.schedPc i next }
  | t :: rest => { s with
      ready := update s.ready victim rest
      schedPc := update s.schedPc i
        (if schedNeighbor i = i then .setSched t else .wakeNeighbor t) }

/-- The head of the `for` loop of `_lthread_pop_ready`. -/
def stealFrom (i victim : Fin (m + 1)) : SchedPc m :=
  if victim = i then .popBlock else .steal victim

def schedIsdone (s : State m) (i : Fin (m + 1)) : Bool :=
  (s.sleeping i).isEmpty && (s.ready i).isEmpty

def pollerHasPendingEvents (s : State m) : Bool := s.numPendingEvents ≠ 0

def minTimeout (s : State m) (i : Fin (m + 1)) : BitVec 64 :=
  match s.sleeping i with
  | [] => 1
  | t :: _ => if s.usecNow < s.sleepUsecs t then s.sleepUsecs t else 1

/-- The second half of the loop of `_lthread_run_sched`, up to the call of
`_lthread_pool_begin_deep_sleep` or of `lthread_os_cond_wait`. -/
def schedBlock (s : State m) (i : Fin (m + 1)) : Except Fault (State m) :=
  if s.blockState i = .wontBlock then
    .ok { s with
      blockState := update s.blockState i .willBlock
      schedPc := update s.schedPc i .expire }
  else
    let s := { s with blockState := update s.blockState i .isBlocking }
    if schedIsdone s i && !pollerHasPendingEvents s then
      .ok { s with schedPc := update s.schedPc i .beginDeepSleep }
    else if 0 < minTimeout s i then
      .ok { s with schedPc := update s.schedPc i (.parked false (minTimeout s i) false) }
    else .error .minTimeout

/-- `_lthread_pool_begin_deep_sleep` and what follows it under `sched->mutex`. -/
def schedDeepSleep (s : State m) (i : Fin (m + 1)) : State m :=
  match poolBeginDeepSleep s i with
  | (true, s) => { s with
      blockState := update s.blockState i .willBlock
      schedPc := update s.schedPc i .exiting }
  | (false, s) => { s with schedPc := update s.schedPc i (.parked true 0 false) }

/-- The return of `lthread_os_cond_wait`. -/
def schedUnpark (s : State m) (i : Fin (m + 1)) (deepSleep : Bool) : State m :=
  let s := if deepSleep then poolEndDeepSleep s i else s
  { s with
    blockState := update s.blockState i .willBlock
    schedPc := update s.schedPc i .expire }

end Lthread
