import Lthread.Poller
import Lthread.Cond

namespace Lthread

open Function (update)

variable {m : ℕ}

/-- A call an lthread makes from its own code. `socket` stands for every call
that makes the kernel hand out the descriptor. -/
inductive Op where
  | spawn
  | yield
  | sleep (msecs : BitVec 64)
  | waitFd (fd : ℕ) (e : Event)
  | condLock (c : ℕ)
  | condWait (c : ℕ) (timeout : BitVec 64)
  | condUnlockSignal (c : ℕ)
  | socket (fd : ℕ)
  | close (fd : ℕ)
  | exit
  | ret
  deriving DecidableEq, Repr

/-- Who takes the next step. `sched` moves `_lthread_run_sched` on (`trylock` is
the outcome of a `pthread_mutex_trylock` made there), `unpark` ends a condition
wait, with or without a signal, `call` and `cont` run the current lthread. An
event that no registration explains is `inject`ed. -/
inductive Label (m : ℕ) where
  | tick (usecs : ℕ)
  | sched (i : Fin (m + 1)) (trylock : Bool)
  | unpark (i : Fin (m + 1))
  | call (i : Fin (m + 1)) (op : Op)
  | cont (i : Fin (m + 1))
  | poller
  | kevent (k : ℕ)
  | fire (fd : ℕ) (e : Event) (isEof : Bool)
  | inject (ev : KEvent)
  deriving DecidableEq, Repr

/-- `lthread_create` on scheduler `i`. The lthread of the model is the address
`calloc` returns, so it is a new one. -/
def ltCreate (s : State m) (i : Fin (m + 1)) : Except Fault (State m) :=
  let t := s.numLthreads
  schedPushReadyUnsafe
    { s with
      numLthreads := t + 1
      sched := update s.sched t i
      pc := update s.pc t .user } i t

/-- `_lthread_sched_wake(sched->sched_neighbor)` unless the scheduler is alone. -/
def wakeNeighbor (s : State m) (i : Fin (m + 1)) (next : SchedPc m) : Option (State m) :=
  if schedNeighbor i = i then some { s with schedPc := update s.schedPc i next }
  else if s.mutexFree (schedNeighbor i) then
    let s := schedWakeUnsafe s (schedNeighbor i)
    some { s with schedPc := update s.schedPc i next }
  else none

/-- The next critical section of `_lthread_run_sched` on scheduler `i`. -/
def schedStep (s : State m) (i : Fin (m + 1)) (trylock : Bool) :
    Option (Except Fault (State m)) :=
  match s.schedPc i with
  | .expire => some (.ok { s with schedPc := update s.schedPc i (.expiring s.usecNow) })
  | .expiring now => some do
      let s ← scheduleExpired s i now
      return { s with schedPc := update s.schedPc i .popOwn }
  | .popOwn =>
    let next := stealFrom i (schedNeighbor i)
    some (.ok (if trylock then popReady s i i next
      else { s with schedPc := update s.schedPc i next }))
  | .steal victim =>
    let next := stealFrom i (schedNeighbor victim)
    some (.ok (if trylock && decide (s.mutexFree victim) then popReady s i victim next
      else { s with schedPc := update s.schedPc i next }))
  | .popBlock => some (.ok (popReady s i i .block))
  | .wakeNeighbor t => (wakeNeighbor s i (.setSched t)).map .ok
  | .setSched t => some (.ok { s with
      sched := update s.sched t i
      schedPc := update s.schedPc i (.resume t) })
  | .resume t => some (resumeEnter s i t)
  | .leave t => some (resumeLeave s i t)
  | .block => some (schedBlock s i)
  | .beginDeepSleep => some (.ok (schedDeepSleep s i))
  | .exiting => (wakeNeighbor s i .finished).map .ok
  | .running _ | .parked _ _ _ | .finished => none

/-- The lthread `t`, current on `i` and in its own code, makes a call. -/
def callStep (s : State m) (i : Fin (m + 1)) (t : ℕ) : Op → Option (Except Fault (State m))
  | .spawn => some (ltCreate s i)
  | .yield => some (ltYield { s with needsResched := update s.needsResched t true } i t)
  | .sleep msecs => some do
      let s ← schedSleep s t msecs
      ltYield { s with pc := update s.pc t (.slept msecs) } i t
  | .waitFd fd e => some do
      let s ← pollerAddWaitingLthread s t fd e
      return { s with pc := update s.pc t (.register fd e) }
  | .condLock c => if s.condMutex c = none then some (condLock s c t) else none
  | .condWait c timeout =>
    if s.condMutex c = none then some (condSignal s c t (.wait timeout)) else none
  | .condUnlockSignal c =>
    if s.condMutex c = none then some (condSignal s c t .unlock) else none
  | .socket fd =>
    if s.isOpen fd then none else some (.ok { s with isOpen := update s.isOpen fd true })
  | .close fd => if s.isOpen fd then some (.ok (kernelClose s fd)) else none
  | .exit => some (ltYield { s with
      stExited := update s.stExited t true
      pc := update s.pc t .exited } i t)
  | .ret => some (.ok { s with
      pc := update s.pc t .returned
      schedPc := update s.schedPc i (.leave t) })

/-- The lthread `t`, current on `i`, goes on inside the call it has made. -/
def contStep (s : State m) (i : Fin (m + 1)) (t : ℕ) : Option (Except Fault (State m)) :=
  match s.pc t with
  | .register fd e => some do
      let s ← pollerRegisterEvent s fd e
      ltYield { s with pc := update s.pc t (.waitFd fd e) } i t
  | .waitFd _ _ => some (.ok { s with
      stFdEof := update s.stFdEof t false
      ret := update s.ret t (if s.stFdEof t then -1 else 0)
      pc := update s.pc t .user })
  | .slept _ => some (.ok { s with pc := update s.pc t .user })
  | .condLocked c => some (condLockReturn s c t)
  | .condSleep c timeout call => some do
      let s ← schedSleep s t timeout
      ltYield { s with pc := update s.pc t (.condWake c timeout call) } i t
  | .condWake c _ call => if s.condMutex c = none then some (condWaitReturn s c t call) else none
  | .condSignal c u next =>
    if s.mutexFree (s.sched u) then
      some do
        let s ← wakeup s u
        condSignalled s c t next
    else none
  | .unborn | .user | .exited | .returned => none

/-- `lthread_current`, while the scheduler is inside `mco_resume`. -/
def ltCurrent (s : State m) (i : Fin (m + 1)) : Option ℕ :=
  match s.schedPc i with
  | .running _ => s.currentLthread i
  | _ => none

def exec (s : State m) : Label m → Option (Except Fault (State m))
  | .tick usecs => some (.ok { s with clock := s.clock + usecs })
  | .sched i trylock => schedStep s i trylock
  | .unpark i =>
    match s.schedPc i with
    | .parked deepSleep _ _ => some (.ok (schedUnpark s i deepSleep))
    | _ => none
  | .call i op =>
    match ltCurrent s i with
    | some t => if s.pc t = .user then callStep s i t op else none
    | none => none
  | .cont i =>
    match ltCurrent s i with
    | some t => contStep s i t
    | none => none
  | .poller => pollerStep s
  | .kevent k => (keventReturn s k).map .ok
  | .fire fd e isEof => (kernelFire s fd e isEof).map .ok
  | .inject ev => some (.ok { s with fired := s.fired ++ [ev] })

/-- One step of the pool. A failed assertion ends the run. -/
def step (s : State m) (l : Label m) : Option (State m) :=
  if s.fault.isSome then none
  else
    match exec s l with
    | none => none
    | some (.ok s') => some s'
    | some (.error f) => some { s with fault := some f }

def Label.scheds (i : Fin (m + 1)) (k : ℕ) : List (Label m) := List.replicate k (.sched i true)

/-- The pool before `lthread_run` spawns the main lthread. -/
def State.empty (m : ℕ) (clock : ℕ) (isOpen : ℕ → Bool) : State m where
  clock := clock
  schedPc _ := .expire
  currentLthread _ := none
  blockState _ := .willBlock
  sleeping _ := []
  ready _ := []
  asleep _ := false
  numLthreads := 0
  pc _ := .unborn
  sched _ := 0
  stWaitRead _ := false
  stWaitWrite _ := false
  stExited _ := false
  stSleeping _ := false
  stFdEof _ := false
  fdWait _ := 0
  sleepUsecs _ := 0
  isBlocked _ := false
  isRunning _ := false
  needsResched _ := false
  freed _ := false
  ret _ := 0
  blockedLthreads _ := []
  owner _ := none
  condMutex _ := none
  pollerPc := .poll
  waiting := []
  numPendingEvents := 0
  armed _ _ := false
  fired := []
  isOpen := isOpen
  fault := none
  deadline _ := 0
  frees _ := 0
  holds _ _ := false

/-- `lthread_run` when it starts its threads: the main lthread is in the ready
queue of scheduler 0. -/
def State.init (m : ℕ) (clock : ℕ) (isOpen : ℕ → Bool) : State m :=
  match ltCreate (State.empty m clock isOpen) 0 with
  | .ok s => s
  | .error _ => State.empty m clock isOpen

end Lthread
