import Lthread.Step

namespace Lthread

inductive Errno where
  | eagain
  | other (code : ℕ)
  deriving DecidableEq, Repr

/-- What an input or output call of the system returns: the number of bytes, or -1 with
`errno`. -/
structure SysResult where
  ret : ℤ
  errno : Errno
  valid : -1 ≤ ret
  deriving DecidableEq

def SysResult.wouldBlock (r : SysResult) : Bool := r.ret = -1 && r.errno = .eagain

inductive Syscall where
  | recv (fd : ℕ) (length : BitVec 64) (flags : BitVec 32)
  | read (fd : ℕ) (length : BitVec 64)
  | recvmsg (fd : ℕ) (flags : BitVec 32)
  | recvfrom (fd : ℕ) (length : BitVec 64) (flags : BitVec 32)
  | sendmsg (fd : ℕ) (flags : BitVec 32)
  | sendto (fd : ℕ) (length : BitVec 64) (flags : BitVec 32)
  deriving DecidableEq, Repr

/-- What one call of a wrapper meets: the results of its successive system calls, and of
the successive waits for `e` on `fd` whether the event that ends the wait has the EOF flag.
`flag` is `FLAG`, which is `MSG_NOSIGNAL` unless the system is a BSD. -/
structure World where
  sys : Syscall → ℕ → SysResult
  isEof : ℕ → Event → ℕ → Bool
  flag : BitVec 32

/-- The bit `LT_ST_FDEOF` after `_lthread_poller_handle_event`. -/
def fdEofHandled (bit isEof : Bool) : Bool := if isEof then true else bit

/-- The end of `_lthread_wait_fd`: what it returns and the bit it leaves. -/
def waitFdReturn (bit : Bool) : ℤ × Bool := if bit then (-1, false) else (0, bit)

/-- The body that both macros share, for the system call `y`, from its `k`-th turn on and
with `bit` for `LT_ST_FDEOF`. The number of system calls made is returned too. -/
def ioLoop (world : World) (y : Syscall) (fd : ℕ) (e : Event) :
    ℕ → ℕ → Bool → Option (ℤ × ℕ)
  | 0, _, _ => none
  | fuel + 1, k, bit =>
    let r := world.sys y k
    if r.ret = -1 then
      if r.errno = .eagain then
        let (ret, bit) := waitFdReturn (fdEofHandled bit (world.isEof fd e k))
        if ret = -1 then some (-1, k + 1)
        else ioLoop world y fd e fuel (k + 1) bit
      else some (-1, k + 1)
    else if r.ret < 0 then ioLoop world y fd e fuel (k + 1) bit
    else some (r.ret, k + 1)

/-- The values a call returns, given enough turns of its loop. -/
def Returns (call : ℕ → Option (ℤ × ℕ)) (r : ℤ × ℕ) : Prop := ∃ fuel, call fuel = some r

variable (world : World) (fd : ℕ) (length : BitVec 64) (flags : BitVec 32)

/-- `LTHREAD_RECV`; the bit is clear when no wait is going on. -/
def ltRecvMacro (y : Syscall) (fuel : ℕ) : Option (ℤ × ℕ) := ioLoop world y fd .read fuel 0 false

/-- `LTHREAD_SEND`. -/
def ltSendMacro (y : Syscall) (fuel : ℕ) : Option (ℤ × ℕ) := ioLoop world y fd .write fuel 0 false

def ltRecv (_timeout : BitVec 64) : ℕ → Option (ℤ × ℕ) :=
  ltRecvMacro world fd (.recv fd length (flags ||| world.flag))

def ltRead (_timeout : BitVec 64) : ℕ → Option (ℤ × ℕ) :=
  ltRecvMacro world fd (.read fd length)

def ltRecvmsg (_timeout : BitVec 64) : ℕ → Option (ℤ × ℕ) :=
  ltRecvMacro world fd (.recvmsg fd (flags ||| world.flag))

def ltRecvfrom (_timeout : BitVec 64) : ℕ → Option (ℤ × ℕ) :=
  ltRecvMacro world fd (.recvfrom fd length (flags ||| world.flag))

def ltSendmsg : ℕ → Option (ℤ × ℕ) :=
  ltSendMacro world fd (.sendmsg fd (flags ||| world.flag))

def ltSendto : ℕ → Option (ℤ × ℕ) :=
  ltSendMacro world fd (.sendto fd length (flags ||| world.flag))

end Lthread
