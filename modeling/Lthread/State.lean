import Mathlib.Data.Fin.Basic
import Mathlib.Data.Fintype.Basic
import Mathlib.Logic.Function.Basic

namespace Lthread

/-- `lthread_sched_block_state_t`. -/
inductive BlockState where
  | willBlock | wontBlock | isBlocking
  deriving DecidableEq, Repr

/-- `enum lthread_event`. -/
inductive Event where
  | read | write
  deriving DecidableEq, Repr

/-- One `struct kevent` as the kernel hands it out: `ident`, `filter` and the
`EV_EOF` flag. -/
structure KEvent where
  fd : ℕ
  filter : Event
  isEof : Bool
  deriving DecidableEq, Repr

/-- The two callers of `_lthread_cond_wait`. -/
inductive CondCall where
  | lock | wait
  deriving DecidableEq, Repr

/-- What is left to do under `c->mutex` once `_lthread_cond_signal` returns. -/
inductive AfterSignal where
  | unlock
  | wait (timeout : BitVec 64)
  deriving DecidableEq, Repr

/-- Where the code of one lthread stands. A critical section runs in one step,
so the values name the points between two sections. -/
inductive Pc where
  | unborn
  | user
  | register (fd : ℕ) (e : Event)
  | waitFd (fd : ℕ) (e : Event)
  | slept (msecs : BitVec 64)
  | condLocked (c : ℕ)
  | condSleep (c : ℕ) (timeout : BitVec 64) (call : CondCall)
  | condWake (c : ℕ) (timeout : BitVec 64) (call : CondCall)
  | condSignal (c : ℕ) (lt : ℕ) (next : AfterSignal)
  | exited
  | returned
  deriving DecidableEq, Repr

/-- Where the OS thread of one scheduler stands in `_lthread_run_sched`. The
local variable `lt` of the functions it calls is an argument. -/
inductive SchedPc (m : ℕ) where
  | expire
  | expiring (now : BitVec 64)
  | popOwn
  | steal (victim : Fin (m + 1))
  | popBlock
  | wakeNeighbor (lt : ℕ)
  | setSched (lt : ℕ)
  | resume (lt : ℕ)
  | running (lt : ℕ)
  | leave (lt : ℕ)
  | block
  | beginDeepSleep
  | parked (deepSleep : Bool) (timeout : BitVec 64) (signalled : Bool)
  | exiting
  | finished
  deriving DecidableEq, Repr

/-- Where the poller thread stands in `lthread_poller_poll`. `ltRead` is the
local variable `lt_read` and `rest` the unread part of `eventlist`. -/
inductive PollerPc where
  | poll
  | desched (ev : KEvent) (dir : Event) (ltRead : Option ℕ) (rest : List KEvent)
  | push (lt : ℕ) (ev : KEvent) (dir : Event) (ltRead : Option ℕ) (rest : List KEvent)
  | account (lt : ℕ) (ev : KEvent) (dir : Event) (ltRead : Option ℕ) (rest : List KEvent)
  deriving DecidableEq, Repr

/-- What ends a run of the model: a failed `assert`, or an operation on a queue or tree whose node
is linked elsewhere already or is not in it. The code does not check the latter. It breaks the
links and goes on, and the sequences of the state would no longer be those of the pointers. -/
inductive Fault where
  | resumeSched | resumeRunning | yieldSched | minTimeout
  | waitBits | waitKey | noWaiter | kevent
  | lockByOwner | lockOwner | acquire | release
  | waiterBlocked | waiterUnblocked | ownerBlocked | signalUnblocked
  | readyLink | sleepLink | sleepUnlink | sleepLoop
  deriving DecidableEq, Repr

/-- The faults that are not failed assertions but broken links. -/
def Fault.isLink : Fault → Bool
  | .readyLink | .sleepLink | .sleepUnlink => true
  | _ => false

/-- The state of one pool with `m` auxiliary threads. The fields of
`struct lthread_sched` are indexed by scheduler, those of `struct lthread` by
lthread and those of `struct lthread_cond` by condition variable. A TAILQ is a
list and a red-black tree is its in-order sequence of nodes. -/
structure State (m : ℕ) where
  clock : ℕ
  schedPc : Fin (m + 1) → SchedPc m
  currentLthread : Fin (m + 1) → Option ℕ
  blockState : Fin (m + 1) → BlockState
  sleeping : Fin (m + 1) → List ℕ
  ready : Fin (m + 1) → List ℕ
  asleep : Fin (m + 1) → Bool
  numLthreads : ℕ
  pc : ℕ → Pc
  sched : ℕ → Fin (m + 1)
  stWaitRead : ℕ → Bool
  stWaitWrite : ℕ → Bool
  stExited : ℕ → Bool
  stSleeping : ℕ → Bool
  stFdEof : ℕ → Bool
  fdWait : ℕ → BitVec 16
  sleepUsecs : ℕ → BitVec 64
  isBlocked : ℕ → Bool
  isRunning : ℕ → Bool
  needsResched : ℕ → Bool
  freed : ℕ → Bool
  ret : ℕ → Int
  blockedLthreads : ℕ → List ℕ
  owner : ℕ → Option ℕ
  condMutex : ℕ → Option ℕ
  pollerPc : PollerPc
  waiting : List ℕ
  numPendingEvents : ℕ
  armed : ℕ → Event → Bool
  fired : List KEvent
  isOpen : ℕ → Bool
  fault : Option Fault
  /-- History variable: the clock reading of the last `lthread_sleep` plus the
  time it asked for, without wrapping. -/
  deadline : ℕ → ℕ
  /-- History variable: the number of `_lthread_free` calls with the lthread. -/
  frees : ℕ → ℕ
  /-- History variable: the lthread has completed a lock or a wait on the
  condition variable and has not called wait or unlock on it since. -/
  holds : ℕ → ℕ → Bool

variable {m : ℕ}

/-- `lthread_exit` and the return of `lthread_func` end an lthread. -/
def State.live (s : State m) (t : ℕ) : Prop :=
  s.pc t ≠ .unborn ∧ s.pc t ≠ .exited ∧ s.pc t ≠ .returned

/-- The run has not come to an operation that breaks the links of a queue or tree. -/
def State.Unbroken (s : State m) : Prop := ∀ f, s.fault = some f → f.isLink = false

/-- `_lthread_run_sched` keeps `sched->mutex` from one step to the next only
between `lthread_poller_has_pending_events` and `_lthread_pool_begin_deep_sleep`. -/
def State.mutexFree (s : State m) (i : Fin (m + 1)) : Prop := s.schedPc i ≠ .beginDeepSleep

instance (s : State m) (i : Fin (m + 1)) : Decidable (s.mutexFree i) :=
  inferInstanceAs (Decidable (_ ≠ _))

/-- `_lthread_usec_now`. -/
def State.usecNow (s : State m) : BitVec 64 := BitVec.ofNat 64 s.clock

end Lthread
