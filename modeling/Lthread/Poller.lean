import Lthread.Scheduler

namespace Lthread

open Function (update)

variable {m : ℕ}

/-- `fd_key` of an lthread with the given `fd_wait` and `LT_ST_WAIT_READ` bit. -/
def fdKey (fdWait : BitVec 16) (waitRead : Bool) : BitVec 32 :=
  if waitRead then fdWait.setWidth 32 ||| (0#32 <<< 16) else fdWait.setWidth 32 ||| (1#32 <<< 16)

def State.waitKey (s : State m) (t : ℕ) : ℕ := (fdKey (s.fdWait t) (s.stWaitRead t)).toNat

def pollerAddWaitingLthread (s : State m) (t : ℕ) (fd : ℕ) (e : Event) :
    Except Fault (State m) :=
  if s.stWaitRead t || s.stWaitWrite t then .error .waitBits
  else
    let s := match e with
      | .read => { s with stWaitRead := update s.stWaitRead t true }
      | .write => { s with stWaitWrite := update s.stWaitWrite t true }
    let s := { s with fdWait := update s.fdWait t (BitVec.ofNat 16 fd) }
    match OrderedTree.insert s.waitKey t s.waiting with
    | none => .error .waitKey
    | some waiting => .ok { s with
        waiting := waiting
        numPendingEvents := s.numPendingEvents + 1 }

/-- `lthread_poller_ev_register_rd` and `lthread_poller_ev_register_wr`: `EV_ADD`
makes a registration or keeps the one that is there, and fails with `EBADF` on a
descriptor that is not open. -/
def pollerRegisterEvent (s : State m) (fd : ℕ) (e : Event) : Except Fault (State m) :=
  if s.isOpen fd then
    .ok { s with armed := update s.armed fd (update (s.armed fd) e true) }
  else .error .kevent

/-- `_lthread_poller_desched_event`: look up, unlink and clear the wait. -/
def pollerDeschedEvent (s : State m) (fd : ℕ) (dir : Event) : Option ℕ × State m :=
  match OrderedTree.find s.waitKey (fdKey (BitVec.ofNat 16 fd) (dir = .read)).toNat s.waiting with
  | none => (none, s)
  | some t => (some t, { s with
      waiting := s.waiting.erase t
      stWaitRead := if dir = .read then update s.stWaitRead t false else s.stWaitRead
      stWaitWrite := if dir = .write then update s.stWaitWrite t false else s.stWaitWrite
      fdWait := update s.fdWait t (BitVec.ofInt 16 (-1)) })

/-- `_lthread_poller_handle_event` between the two sections on `poller->mutex`:
the EOF bit, then `_lthread_desched_event`. -/
def pollerPushEvent (s : State m) (t : ℕ) (isEof : Bool) : Except Fault (State m) :=
  let s := { s with stFdEof := if isEof then update s.stFdEof t true else s.stFdEof }
  schedPushReadyUnsafe s (s.sched t) t

/-- The next turn of the `for` loop of `lthread_poller_poll`. -/
def nextEvent : List KEvent → PollerPc
  | [] => .poll
  | ev :: rest => .desched ev .read none rest

/-- After `_lthread_poller_handle_event` has returned `lt` for direction `dir`. -/
def handledEvent (s : State m) (ev : KEvent) (dir : Event) (ltRead lt : Option ℕ)
    (rest : List KEvent) : Except Fault (State m) :=
  match dir with
  | .read => .ok { s with pollerPc := .desched ev .write lt rest }
  | .write =>
    if ltRead.isSome || lt.isSome then .ok { s with pollerPc := nextEvent rest }
    else .error .noWaiter

/-- One critical section of the poller thread. -/
def pollerStep (s : State m) : Option (Except Fault (State m)) :=
  match s.pollerPc with
  | .poll => none
  | .desched ev dir ltRead rest =>
    match pollerDeschedEvent s ev.fd dir with
    | (none, s) => some (handledEvent s ev dir ltRead none rest)
    | (some t, s) => some (.ok { s with pollerPc := .push t ev dir ltRead rest })
  | .push t ev dir ltRead rest =>
    if s.mutexFree (s.sched t) then
      some do
        let s ← pollerPushEvent s t ev.isEof
        return { s with pollerPc := .account t ev dir ltRead rest }
    else none
  | .account t ev dir ltRead rest =>
    some (handledEvent { s with numPendingEvents := s.numPendingEvents - 1 } ev dir ltRead
      (some t) rest)

/-- `LT_MAX_EVENTS`. -/
def maxEvents : ℕ := 1024

/-- `kevent` hands the oldest `k` undelivered events to the poller. -/
def keventReturn (s : State m) (k : ℕ) : Option (State m) :=
  if s.pollerPc = .poll ∧ k ≤ maxEvents ∧ k ≤ s.fired.length then
    some { s with pollerPc := nextEvent (s.fired.take k), fired := s.fired.drop k }
  else none

/-- A one-shot registration fires: it is gone and becomes an undelivered event. -/
def kernelFire (s : State m) (fd : ℕ) (e : Event) (isEof : Bool) : Option (State m) :=
  if s.armed fd e then
    some { s with
      armed := update s.armed fd (update (s.armed fd) e false)
      fired := s.fired ++ [⟨fd, e, isEof⟩] }
  else none

/-- `close`: the kernel drops the registrations and the undelivered events. -/
def kernelClose (s : State m) (fd : ℕ) : State m :=
  { s with
    isOpen := update s.isOpen fd false
    armed := update s.armed fd fun _ => false
    fired := s.fired.filter fun ev => ev.fd ≠ fd }

end Lthread
