import Lthread.RbForest
import Lthread.StepCases
import Lthread.TailQueue

namespace Lthread

open Function (update)

variable {m : ℕ}

/-- The heads of all queues and trees of one pool and the link fields of its lthreads:
`ready_next`, `blocked_next`, `sleep_node` and `wait_node`. -/
structure Pointers (m : ℕ) where
  ready : TailqMem (Fin (m + 1)) ℕ
  blocked : TailqMem ℕ ℕ
  sleeping : RbForest (Fin (m + 1)) ℕ
  waiting : RbTree ℕ

namespace Pointers

def init (P : Pointers m) : Pointers m where
  ready := tailqInit P.ready.next P.ready.prev
  blocked := tailqInit P.blocked.next P.blocked.prev
  sleeping := ⟨fun _ => none, P.sleeping.entry⟩
  waiting := ⟨none, P.waiting.entry⟩

def start (P : Pointers m) : Pointers m :=
  { P.init with ready := tailqInsertTail P.init.ready ⟨0, m.succ_pos⟩ 0 }

/-- `_lthread_sched_push_ready_unsafe` of a lthread `t` that belongs to scheduler `i`. -/
def schedPushReadyUnsafe (s : State m) (P : Pointers m) (i : Fin (m + 1)) (t : ℕ) : Pointers m :=
  if s.currentLthread i = some t then P
  else { P with ready := tailqInsertTail P.ready i t }

def deschedSleepUnsafe (fuel : ℕ) (s : State m) (P : Pointers m) (t : ℕ) :
    Except RbFault (Pointers m) := do
  let tree ← rbRemove fuel (P.sleeping.tree (s.sched t)) t
  return schedPushReadyUnsafe s { P with sleeping := P.sleeping.setTree (s.sched t) tree } (s.sched t) t

/-- The loop of `_lthread_schedule_expired`. -/
def expireLoop (fuel : ℕ) (s : State m) (i : Fin (m + 1)) (now : BitVec 64) :
    ℕ → Pointers m → Except RbFault (Pointers m)
  | 0, _ => .error .endless
  | turns + 1, P => do
    match ← rbMin fuel (P.sleeping.tree i) with
    | none => return P
    | some t =>
      if s.sleepUsecs t ≤ now then
        let P ← deschedSleepUnsafe fuel s P t
        expireLoop fuel s i now turns P
      else return P

/-- `_lthread_sleep_cmp` with `key` in the field `sleep_usecs` of lthread `t`. -/
def sleepCmp (usecs : ℕ → BitVec 64) (t : ℕ) (key : BitVec 64) : ℕ → ℕ → Int :=
  keyCmp fun u => (update usecs t key u).toNat

/-- `while (RB_INSERT(...)) ++lt->sleep_usecs`. -/
def sleepInsert (fuel : ℕ) (usecs : ℕ → BitVec 64) (t : ℕ) :
    ℕ → BitVec 64 → RbTree ℕ → Except RbFault (RbTree ℕ)
  | 0, _, _ => .error .endless
  | turns + 1, key, tree => do
    let (tree, taken) ← rbInsert fuel (sleepCmp usecs t key) tree t
    match taken with
    | none => return tree
    | some _ => sleepInsert fuel usecs t turns (key + 1) tree

def schedSleep (fuel : ℕ) (s : State m) (P : Pointers m) (t : ℕ) (msecs : BitVec 64) :
    Except RbFault (Pointers m) :=
  if msecs = 0 then .ok P
  else do
    let tree ← sleepInsert fuel s.sleepUsecs t fuel (s.usecNow + msecs * 1000)
      (P.sleeping.tree (s.sched t))
    return { P with sleeping := P.sleeping.setTree (s.sched t) tree }

/-- The `needs_resched` branch of `_lthread_resume`. -/
def reschedule (s : State m) (P : Pointers m) (t : ℕ) : Pointers m :=
  if s.needsResched t then { P with ready := tailqInsertTail P.ready (s.sched t) t } else P

/-- `_lthread_sched_pop_ready` under the mutex. -/
def popReady (P : Pointers m) (victim : Fin (m + 1)) : Pointers m :=
  match P.ready.first victim with
  | none => P
  | some t => { P with ready := tailqRemove P.ready victim t }

def schedIsdone (P : Pointers m) (i : Fin (m + 1)) : Bool :=
  (P.sleeping.root i).isNone && (P.ready.first i).isNone

def minTimeout (fuel : ℕ) (s : State m) (P : Pointers m) (i : Fin (m + 1)) :
    Except RbFault (BitVec 64) := do
  match ← rbMin fuel (P.sleeping.tree i) with
  | none => return 1
  | some t => return if s.usecNow < s.sleepUsecs t then s.sleepUsecs t else 1

/-- `_lthread_cond_wait` up to the release of `c->mutex`. -/
def condBlock (P : Pointers m) (c self : ℕ) : Pointers m :=
  { P with blocked := tailqInsertTail P.blocked c self }

def condSignalled (P : Pointers m) (c self : ℕ) : AfterSignal → Pointers m
  | .unlock => P
  | .wait _ => P.condBlock c self

/-- `_lthread_cond_signal` up to the call of `_lthread_wakeup`. -/
def condSignal (P : Pointers m) (c self : ℕ) (next : AfterSignal) : Pointers m :=
  match P.blocked.first c with
  | none => P.condSignalled c self next
  | some t => { P with blocked := tailqRemove P.blocked c t }

def wakeup (fuel : ℕ) (s : State m) (P : Pointers m) (t : ℕ) : Except RbFault (Pointers m) :=
  if s.sleepUsecs t ≠ 0 then deschedSleepUnsafe fuel s P t
  else .ok (schedPushReadyUnsafe s P (s.sched t) t)

def condLock (s : State m) (P : Pointers m) (c self : ℕ) : Pointers m :=
  if (s.owner c).isSome then P.condBlock c self else P

/-- `_lthread_cond_wait` after `lthread_sleep`. -/
def condWaitReturn (s : State m) (P : Pointers m) (c self : ℕ) : Pointers m :=
  if s.owner c ≠ some self then { P with blocked := tailqRemove P.blocked c self } else P

/-- `_lthread_cond_num_blocked`. -/
def condNumBlocked (fuel : ℕ) (P : Pointers m) (c : ℕ) : Option ℕ :=
  tailqCount P.blocked fuel (P.blocked.first c) 0

def pollerAddWaitingLthread (fuel : ℕ) (s : State m) (P : Pointers m) (t fd : ℕ) (e : Event) :
    Except RbFault (Pointers m) := do
  let (tree, _) ← rbInsert fuel (keyCmp (s.withWait t fd e).waitKey) P.waiting t
  return { P with waiting := tree }

/-- `RB_FIND` in `_lthread_poller_desched_event`: `find_lt` has the key of the event. -/
def pollerFind (fuel : ℕ) (s : State m) (P : Pointers m) (fd : ℕ) (dir : Event) :
    Except RbFault (Option ℕ) :=
  rbFind P.waiting (fun u => keyCmp id (fdKey (BitVec.ofNat 16 fd) (dir = .read)).toNat (s.waitKey u))
    fuel P.waiting.root

def pollerDeschedEvent (fuel : ℕ) (s : State m) (P : Pointers m) (fd : ℕ) (dir : Event) :
    Except RbFault (Pointers m) := do
  match ← pollerFind fuel s P fd dir with
  | none => return P
  | some t =>
    let tree ← rbRemove fuel P.waiting t
    return { P with waiting := tree }

/-- What the next section of `_lthread_run_sched` does. -/
def schedStep (fuel : ℕ) (s : State m) (P : Pointers m) (i : Fin (m + 1)) (trylock : Bool) :
    Except RbFault (Pointers m) :=
  match s.schedPc i with
  | .expiring now => expireLoop fuel s i now fuel P
  | .popOwn => .ok (if trylock then P.popReady i else P)
  | .steal victim => .ok (if trylock && decide (s.mutexFree victim) then P.popReady victim else P)
  | .popBlock => .ok (P.popReady i)
  | .leave t => .ok (reschedule s P t)
  | _ => .ok P

def callStep (fuel : ℕ) (s : State m) (P : Pointers m) (i : Fin (m + 1)) (t : ℕ) :
    Op → Except RbFault (Pointers m)
  | .spawn => .ok (schedPushReadyUnsafe s P i s.numLthreads)
  | .sleep msecs => schedSleep fuel s P t msecs
  | .waitFd fd e => pollerAddWaitingLthread fuel s P t fd e
  | .condLock c => .ok (condLock s P c t)
  | .condWait c timeout => .ok (P.condSignal c t (.wait timeout))
  | .condUnlockSignal c => .ok (P.condSignal c t .unlock)
  | .yield | .socket _ | .close _ | .exit | .ret => .ok P

def contStep (fuel : ℕ) (s : State m) (P : Pointers m) (t : ℕ) : Except RbFault (Pointers m) :=
  match s.pc t with
  | .condSleep _ timeout _ => schedSleep fuel s P t timeout
  | .condWake c _ _ => .ok (condWaitReturn s P c t)
  | .condSignal c u next => do
    let P ← wakeup fuel s P u
    return P.condSignalled c t next
  | _ => .ok P

def pollerStep (fuel : ℕ) (s : State m) (P : Pointers m) : Except RbFault (Pointers m) :=
  match s.pollerPc with
  | .desched ev dir _ _ => pollerDeschedEvent fuel s P ev.fd dir
  | .push t _ _ _ _ => .ok (schedPushReadyUnsafe s P (s.sched t) t)
  | .poll | .account _ _ _ _ _ => .ok P

/-- What a step of the pool does to the pointers. -/
def step (fuel : ℕ) (s : State m) (P : Pointers m) : Label m → Except RbFault (Pointers m)
  | .sched i trylock => schedStep fuel s P i trylock
  | .call i op =>
    match ltCurrent s i with
    | some t => callStep fuel s P i t op
    | none => .ok P
  | .cont i =>
    match ltCurrent s i with
    | some t => contStep fuel s P t
    | none => .ok P
  | .poller => pollerStep fuel s P
  | .tick _ | .unpark _ | .kevent _ | .fire _ _ _ | .inject _ => .ok P

/-- The pointers after one more step, with one turn more for every loop than there are lthreads. -/
def note (r : Except RbFault (Pointers m)) (s : State m) (l : Label m) (_ : State m) :
    Except RbFault (Pointers m) := do
  let P ← r
  P.step (s.numLthreads + 1) s l

end Pointers

abbrev stepPointers : State m × Except RbFault (Pointers m) → Label m →
    Option (State m × Except RbFault (Pointers m)) :=
  Runs.withHistory step Pointers.note

end Lthread
