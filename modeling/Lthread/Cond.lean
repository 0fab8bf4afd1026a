import Lthread.Scheduler

namespace Lthread

open Function (update)

variable {m : ℕ}

/-- `_lthread_cond_release`. -/
def condRelease (s : State m) (c self : ℕ) : Except Fault (State m) :=
  if s.owner c = some self then .ok { s with owner := update s.owner c none }
  else .error .release

/-- `_lthread_cond_acquire`. -/
def condAcquire (s : State m) (c self : ℕ) : Except Fault (State m) :=
  if s.owner c = none then .ok { s with owner := update s.owner c (some self) }
  else .error .acquire

/-- `_lthread_cond_wait` up to the release of `c->mutex`. -/
def condBlock (s : State m) (c self : ℕ) (timeout : BitVec 64) (call : CondCall) :
    Except Fault (State m) :=
  if s.isBlocked self then .error .waiterBlocked
  else .ok { s with
    blockedLthreads := update s.blockedLthreads c (s.blockedLthreads c ++ [self])
    isBlocked := update s.isBlocked self true
    condMutex := update s.condMutex c none
    pc := update s.pc self (.condSleep c timeout call) }

/-- What the callers of `_lthread_cond_signal` do when it has returned. -/
def condSignalled (s : State m) (c self : ℕ) : AfterSignal → Except Fault (State m)
  | .unlock => .ok { s with
      condMutex := update s.condMutex c none
      pc := update s.pc self .user }
  | .wait timeout => condBlock s c self timeout .wait

/-- `_lthread_cond_signal` up to `_lthread_wakeup`. -/
def condSignal (s : State m) (c self : ℕ) (next : AfterSignal) : Except Fault (State m) := do
  let first := (s.blockedLthreads c).head?
  let s := { s with holds := update s.holds self (update (s.holds self) c false) }
  let s ← condRelease s c self
  match first with
  | none => condSignalled s c self next
  | some t =>
    if s.isBlocked t then
      let s := { s with
        blockedLthreads := update s.blockedLthreads c ((s.blockedLthreads c).erase t)
        isBlocked := update s.isBlocked t false }
      let s ← condAcquire s c t
      return { s with
        condMutex := update s.condMutex c (some self)
        pc := update s.pc self (.condSignal c t next) }
    else .error .signalUnblocked

/-- `_lthread_wakeup`: the turn of the loop that finds `lt->sched` unchanged. -/
def wakeup (s : State m) (t : ℕ) : Except Fault (State m) :=
  if s.sleepUsecs t ≠ 0 then deschedSleepUnsafe s t
  else schedPushReadyUnsafe s (s.sched t) t

/-- `lthread_cond_lock` up to the release of `c->mutex`. -/
def condLock (s : State m) (c self : ℕ) : Except Fault (State m) :=
  if s.owner c = some self then .error .lockByOwner
  else if (s.owner c).isSome then condBlock s c self 0 .lock
  else do
    let s ← condAcquire s c self
    return { s with pc := update s.pc self (.condLocked c) }

/-- The last `assert` of `lthread_cond_lock`, after the release of `c->mutex`. -/
def condLockReturn (s : State m) (c self : ℕ) : Except Fault (State m) :=
  if s.owner c = some self then .ok { s with
    pc := update s.pc self .user
    holds := update s.holds self (update (s.holds self) c true) }
  else .error .lockOwner

/-- `_lthread_cond_wait` after `lthread_sleep`, and the rest of its caller's
critical section. -/
def condWaitReturn (s : State m) (c self : ℕ) (call : CondCall) : Except Fault (State m) :=
  if s.owner c ≠ some self then
    if s.isBlocked self then
      match call with
      | .lock => .error .lockOwner
      | .wait => .ok { s with
          blockedLthreads := update s.blockedLthreads c ((s.blockedLthreads c).erase self)
          isBlocked := update s.isBlocked self false
          ret := update s.ret self (-2)
          pc := update s.pc self .user }
    else .error .waiterUnblocked
  else if s.isBlocked self then .error .ownerBlocked
  else
    match call with
    | .lock => .ok { s with pc := update s.pc self (.condLocked c) }
    | .wait => .ok { s with
        ret := update s.ret self 0
        pc := update s.pc self .user
        holds := update s.holds self (update (s.holds self) c true) }

end Lthread
