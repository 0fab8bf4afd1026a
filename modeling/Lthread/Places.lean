import Lthread.StepCases

namespace Lthread

variable {m : ℕ}

inductive Hold where
  | popped | running | leaving
  deriving DecidableEq

inductive Run (m : ℕ) where
  | off
  | ready (i : Fin (m + 1))
  | held (i : Fin (m + 1)) (h : Hold)
  deriving DecidableEq

inductive Io where
  | none | waiting | hands
  deriving DecidableEq

inductive CondPlace where
  | none
  | blocked (c : ℕ)
  | hands (c : ℕ)
  deriving DecidableEq

structure Places (m : ℕ) where
  run : ℕ → Run m
  tree : ℕ → Option (Fin (m + 1))
  io : ℕ → Io
  cond : ℕ → CondPlace

def SchedPc.holds : SchedPc m → Option (ℕ × Hold)
  | .wakeNeighbor t | .setSched t | .resume t => some (t, .popped)
  | .running t => some (t, .running)
  | .leave t => some (t, .leaving)
  | _ => none

def SchedPc.current : SchedPc m → Option ℕ
  | .running t | .leave t => some t
  | _ => none

def PollerPc.hands : PollerPc → Option ℕ
  | .push t _ _ _ _ => some t
  | _ => none

/-- The places are those the pool's own data show. -/
structure Agree (s : State m) (P : Places m) : Prop where
  ready : ∀ i t, (s.ready i).count t = if P.run t = .ready i then 1 else 0
  held : ∀ i t h, (s.schedPc i).holds = some (t, h) ↔ P.run t = .held i h
  current : ∀ i, s.currentLthread i = (s.schedPc i).current
  tree : ∀ i t, (s.sleeping i).count t = if P.tree t = some i then 1 else 0
  waiting : ∀ t, s.waiting.count t = if P.io t = .waiting then 1 else 0
  hands : ∀ t, s.pollerPc.hands = some t ↔ P.io t = .hands
  blocked : ∀ c t, (s.blockedLthreads c).count t = if P.cond t = .blocked c then 1 else 0
  signal : ∀ c t, (∃ u k, s.pc u = .condSignal c t k) ↔ P.cond t = .hands c

structure Wakers where
  resched : Bool
  tree : Bool
  io : Io
  cond : CondPlace
  deriving DecidableEq

def Wakers.idle : Wakers := ⟨false, false, .none, .none⟩
def Wakers.again : Wakers := ⟨true, false, .none, .none⟩
def Wakers.onIo (w : Io) : Wakers := ⟨false, false, w, .none⟩
def Wakers.onCond (tree : Bool) (p : CondPlace) : Wakers := ⟨false, tree, .none, p⟩

inductive Kind where
  | off | ready | running | leaving
  deriving DecidableEq

def Run.kind : Run m → Kind
  | .off => .off
  | .ready _ | .held _ .popped => .ready
  | .held _ .running => .running
  | .held _ .leaving => .leaving

def isTimed (msecs : BitVec 64) : Bool := decide (msecs ≠ 0)

def Pc.isTimedWait : Pc → Bool
  | .condSleep _ timeout _ | .condWake _ timeout _ => isTimed timeout
  | _ => false

def Pc.isWait : Pc → Bool
  | .register _ _ | .waitFd _ _ => true
  | _ => false

def OffRow (p : Pc) (w : Wakers) (owns : Bool) : Prop :=
  match p with
  | .unborn | .exited | .returned => w = .idle
  | .slept msecs => w = ⟨false, isTimed msecs, .none, .none⟩
  | .waitFd _ _ => w = .onIo .waiting ∨ w = .onIo .hands
  | .condWake c timeout _ =>
    w = .onCond (isTimed timeout) (.blocked c) ∧ owns = false ∨
      w = .onCond (isTimed timeout) (.hands c) ∧ owns = true
  | .user | .register _ _ | .condLocked _ | .condSleep _ _ _ | .condSignal _ _ _ => False

def WokenRow (c : ℕ) (timeout : BitVec 64) (w : Wakers) (owns : Bool) : Prop :=
  w = .idle ∧ owns = true ∨ isTimed timeout = true ∧
    (w = .onCond false (.blocked c) ∧ owns = false ∨ w = .onCond false (.hands c) ∧ owns = true)

def ReadyRow (p : Pc) (w : Wakers) (owns : Bool) : Prop :=
  match p with
  | .user | .slept _ | .waitFd _ _ => w = .idle
  | .condWake c timeout _ => WokenRow c timeout w owns
  | .unborn | .register _ _ | .condLocked _ | .condSleep _ _ _ | .condSignal _ _ _ | .exited
  | .returned => False

def RunningRow (p : Pc) (w : Wakers) (owns : Bool) : Prop :=
  match p with
  | .user | .slept _ | .waitFd _ _ | .condSignal _ _ _ => w = .idle
  | .condWake c timeout _ => WokenRow c timeout w owns
  | .condLocked _ => w = .idle ∧ owns = true
  | .register _ _ => w = .again ∨ w = .onIo .waiting ∨ w = .onIo .hands
  | .condSleep c timeout _ => w = .onCond false (.blocked c) ∧ owns = false ∨
      w = .onCond false (.hands c) ∧ owns = true ∨
      isTimed timeout = false ∧ w = .again ∧ owns = true
  | .unborn | .exited | .returned => False

def LeavingRow (p : Pc) (w : Wakers) (clear owns : Bool) : Prop :=
  match p with
  | .user => w = .again ∧ clear = true
  | .slept msecs => w = ⟨false, isTimed msecs, .none, .none⟩ ∧ (isTimed msecs = true ∨ clear = true)
  | .waitFd _ _ => (w = .again ∨ w = .onIo .waiting ∨ w = .onIo .hands) ∧ clear = true
  | .condWake c timeout _ => (w = .onCond (isTimed timeout) (.blocked c) ∧ owns = false ∨
      w = .onCond (isTimed timeout) (.hands c) ∧ owns = true ∨ w = .again ∧ owns = true) ∧
      (isTimed timeout = true ∨ clear = true)
  | .exited | .returned => w = .idle ∧ clear = true
  | .unborn | .register _ _ | .condLocked _ | .condSleep _ _ _ | .condSignal _ _ _ => False

def Row (k : Kind) (p : Pc) (w : Wakers) (clear owns : Bool) : Prop :=
  match k with
  | .off => OffRow p w owns ∧ clear = true
  | .ready => ReadyRow p w owns ∧ clear = true
  | .running => RunningRow p w owns ∧ clear = true
  | .leaving => LeavingRow p w clear owns

structure View (m : ℕ) where
  pc : Pc
  sched : Fin (m + 1)
  needsResched : Bool
  clear : Bool
  owns : Bool
  isBlocked : Bool
  isRunning : Bool
  stExited : Bool
  freed : Bool
  run : Run m
  tree : Option (Fin (m + 1))
  io : Io
  cond : CondPlace

def Pc.owns (p : Pc) (owner : ℕ → Option ℕ) (t : ℕ) : Bool :=
  match p with
  | .condSleep c _ _ | .condWake c _ _ | .condLocked c => owner c = some t
  | _ => false

def view (s : State m) (P : Places m) (t : ℕ) : View m where
  pc := s.pc t
  sched := s.sched t
  needsResched := s.needsResched t
  clear := s.sleepUsecs t = 0
  owns := (s.pc t).owns s.owner t
  isBlocked := s.isBlocked t
  isRunning := s.isRunning t
  stExited := s.stExited t
  freed := s.freed t
  run := P.run t
  tree := P.tree t
  io := P.io t
  cond := P.cond t

structure Fits (v : View m) : Prop where
  row : Row v.run.kind v.pc ⟨v.needsResched, v.tree.isSome, v.io, v.cond⟩ v.clear v.owns
  lock : ∀ c timeout, v.pc = .condSleep c timeout .lock ∨ v.pc = .condWake c timeout .lock →
    isTimed timeout = false
  ready : ∀ i, v.run = .ready i → v.sched = i
  held : ∀ i h, v.run = .held i h → h ≠ .popped → v.sched = i
  tree : ∀ i, v.tree = some i → v.sched = i
  blocked : v.isBlocked = true ↔ ∃ c, v.cond = .blocked c
  running : v.isRunning = true ↔ v.run.kind = .running ∨ v.run.kind = .leaving
  exited : v.stExited = true ↔ v.pc = .exited
  freed : v.freed = true → v.pc = .exited ∧ v.run = .off

structure Inv (s : State m) (P : Places m) : Prop extends Agree s P where
  fits : ∀ t, Fits (view s P t)
  resume : ∀ i t, s.schedPc i = .resume t → s.sched t = i
  mutex : ∀ c t, s.condMutex c = some t ↔ ∃ u k, s.pc t = .condSignal c u k
  unborn : ∀ t, s.pc t = .unborn ↔ s.numLthreads ≤ t

end Lthread
