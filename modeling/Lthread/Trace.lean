import Mathlib.Data.Int.Notation
import Lthread.Bytes
import Lthread.Memory

namespace Lthread

open Bytes

/-- What is recorded of an event: `lt`, which an assert says is not null, the time, the event's code
and `lt->fd_wait`. -/
structure TraceEvent where
  lt : BitVec 64
  now : BitVec 64
  event : BitVec 8
  fdWait : BitVec 16
  lt_ne : lt ≠ 0

/-- The trace fields of `struct lthread_sched`. `tracePtr` is the mapped file. -/
structure TraceSched where
  tracePtr : Block UInt8
  traceSize : ℕ
  traceOffset : ℕ

/-- The trace part of `_lthread_sched_create`: a new file of `size` bytes. -/
def traceCreate (size : ℕ) : TraceSched := ⟨⟨size, fun _ => 0⟩, size, 0⟩

/-- `_lthread_trace_data`; a field that does not fit is left out. -/
def traceData (s : TraceSched) (bytes : List UInt8) : Except MemFault TraceSched :=
  if s.traceOffset + bytes.length ≤ s.traceSize then do
    let ptr ← s.tracePtr.writeAll s.traceOffset bytes
    .ok { s with tracePtr := ptr, traceOffset := s.traceOffset + bytes.length }
  else .ok s

/-- `_lthread_trace_event_unsafe`. -/
def traceEventUnsafe (s : TraceSched) (e : TraceEvent) : Except MemFault TraceSched := do
  let s ← traceData s (encode 8 e.lt.toNat)
  let s ← traceData s (encode 8 e.now.toNat)
  let s ← traceData s (encode 1 e.event.toNat)
  let s ← traceData s (encode 2 e.fdWait.toNat)
  -- The terminator is stored without a look at the end of the file.
  let ptr ← s.tracePtr.writeAll s.traceOffset (encode 8 0)
  .ok { s with tracePtr := ptr }

def traceEvents : TraceSched → List TraceEvent → Except MemFault TraceSched
  | s, [] => .ok s
  | s, e :: es => do
    let s ← traceEventUnsafe s e
    traceEvents s es

def TraceSched.file (s : TraceSched) : List UInt8 :=
  (List.range s.tracePtr.size).map s.tracePtr.cell

/-- How reading a trace can go wrong: `struct.unpack` raises an error when it is given too few
bytes. -/
inductive ReadFault where
  | structError | endless
  deriving DecidableEq, Repr

/-- What `read_event` returns, with Python's numbers. -/
structure ReadEvent where
  timestamp : ℕ
  lthread : ℕ
  event : ℕ
  fd : ℤ
  deriving DecidableEq, Repr

/-- `struct.unpack(.., f.read(n))[0]` for an unsigned format, and what is left of the file. -/
def unpack (n : ℕ) (f : List UInt8) : Except ReadFault (ℕ × List UInt8) :=
  if (f.take n).length = n then .ok (decode (f.take n), f.drop n) else .error .structError

/-- `read_event`. -/
def readEvent (f : List UInt8) : Except ReadFault (Option ReadEvent × List UInt8) := do
  let (lthread, f) ← unpack 8 f
  if lthread = 0 then .ok (none, f)
  else do
    let (timestamp, f) ← unpack 8 f
    let (event, f) ← unpack 1 f
    let (fd, f) ← unpack 2 f
    .ok (some ⟨timestamp, lthread, event, Int.bmod fd (2 ^ 16)⟩, f)

def readEvents : ℕ → List UInt8 → Except ReadFault (List ReadEvent)
  | 0, _ => .error .endless
  | fuel + 1, f => do
    let (e, f) ← readEvent f
    match e with
    | none => .ok []
    | some e => do
      let es ← readEvents fuel f
      .ok (e :: es)

def TraceEvent.toRead (e : TraceEvent) : ReadEvent :=
  ⟨e.now.toNat, e.lt.toNat, e.event.toNat, e.fdWait.toInt⟩

/-- The trace of `events` in a file of `size` bytes can be trusted: nothing was written behind the
end of the file, and reading it gives the first of the events, all of them when they and
the terminator fit. -/
def TraceDecodes (size : ℕ) (events : List TraceEvent) : Prop :=
  ∃ s, traceEvents (traceCreate size) events = .ok s ∧
    ∃ n fuel, readEvents fuel s.file = .ok ((events.take n).map TraceEvent.toRead) ∧
      (19 * events.length + 8 ≤ size → events.length ≤ n)

def TraceEvent.record (e : TraceEvent) : List UInt8 :=
  encode 8 e.lt.toNat ++ encode 8 e.now.toNat ++ encode 1 e.event.toNat ++ encode 2 e.fdWait.toNat

theorem TraceEvent.length_record (e : TraceEvent) : e.record.length = 19 := by
  simp [TraceEvent.record]

theorem length_records (es : List TraceEvent) :
    (es.flatMap TraceEvent.record).length = 19 * es.length := by
  induction es with
  | nil => rfl
  | cons e es ih =>
    rw [List.flatMap_cons, List.length_append, ih, e.length_record, List.length_cons]
    omega

section Writing

variable {size : ℕ} {bytes l : List UInt8} {e : TraceEvent}

def tracing (size : ℕ) (bytes : List UInt8) : TraceSched :=
  ⟨.ofList size 0 bytes, size, bytes.length⟩

theorem traceCreate_eq (size : ℕ) : traceCreate size = tracing size [] := by
  simp [traceCreate, tracing, Block.ofList]

theorem traceData_fits (h : bytes.length + l.length ≤ size) :
    traceData (tracing size bytes) l = .ok (tracing size (bytes ++ l)) := by
  simp only [traceData, tracing, if_pos h, Block.ofList_writeAll h, bind, Except.bind,
    List.length_append]

theorem traceData_full (h : size < bytes.length + l.length) :
    traceData (tracing size bytes) l = .ok (tracing size bytes) := by
  exact if_neg (Nat.not_le_of_lt h)

theorem exists_traceData (size : ℕ) (bytes l : List UInt8) :
    ∃ bytes', traceData (tracing size bytes) l = .ok (tracing size bytes') ∧
      ((bytes'.length = bytes.length + l.length ∧ bytes'.length ≤ size) ∨
        (bytes'.length = bytes.length ∧ size < bytes.length + l.length)) := by
  rcases Nat.lt_or_ge size (bytes.length + l.length) with h | h
  · exact ⟨bytes, traceData_full h, .inr ⟨rfl, h⟩⟩
  · have hlen : (bytes ++ l).length = bytes.length + l.length := List.length_append
    exact ⟨bytes ++ l, traceData_fits h, .inl ⟨hlen, hlen ▸ h⟩⟩

theorem traceEventUnsafe_fits (h : bytes.length + 27 ≤ size) :
    traceEventUnsafe (tracing size bytes) e = .ok (tracing size (bytes ++ e.record)) := by
  have hzero : (Block.ofList size 0 (bytes ++ e.record)).writeAll (bytes ++ e.record).length
      (encode 8 0) = .ok (.ofList size 0 (bytes ++ e.record)) := by
    rw [Block.ofList_writeAll, encode_zero, Block.ofList_append_replicate]
    rw [List.length_append, e.length_record, length_encode]
    omega
  have happend : bytes ++ encode 8 e.lt.toNat ++ encode 8 e.now.toNat ++ encode 1 e.event.toNat ++
      encode 2 e.fdWait.toNat = bytes ++ e.record := by
    simp only [TraceEvent.record, List.append_assoc]
  unfold traceEventUnsafe
  rw [traceData_fits (by rw [length_encode]; omega)]
  simp only [bind, Except.bind]
  rw [traceData_fits (by simp only [List.length_append, length_encode]; omega)]
  simp only
  rw [traceData_fits (by simp only [List.length_append, length_encode]; omega)]
  simp only
  rw [traceData_fits (by simp only [List.length_append, length_encode]; omega)]
  simp only
  rw [happend]
  simp only [tracing, hzero]

theorem traceEventUnsafe_overrun (hroom : bytes.length + 8 ≤ size) (h : size < bytes.length + 27) :
    traceEventUnsafe (tracing size bytes) e = .error .outOfBounds := by
  obtain ⟨b₁, h₁, hl₁⟩ := exists_traceData size bytes (encode 8 e.lt.toNat)
  obtain ⟨b₂, h₂, hl₂⟩ := exists_traceData size b₁ (encode 8 e.now.toNat)
  obtain ⟨b₃, h₃, hl₃⟩ := exists_traceData size b₂ (encode 1 e.event.toNat)
  obtain ⟨b₄, h₄, hl₄⟩ := exists_traceData size b₃ (encode 2 e.fdWait.toNat)
  rw [length_encode] at hl₁ hl₂ hl₃ hl₄
  have hover : (Block.ofList size 0 b₄).writeAll b₄.length (encode 8 0) = .error .outOfBounds := by
    apply Block.writeAll_overrun
    · show b₄.length ≤ size
      omega
    · rw [length_encode]
      show size < b₄.length + 8
      omega
  unfold traceEventUnsafe
  simp only [bind, Except.bind, h₁, h₂, h₃, h₄]
  simp only [tracing, hover]

theorem traceEvents_tracing (bytes : List UInt8) (es : List TraceEvent)
    (hroom : bytes.length + 8 ≤ size) :
    traceEvents (tracing size bytes) es =
      if bytes.length + 19 * es.length + 8 ≤ size then
        .ok (tracing size (bytes ++ es.flatMap TraceEvent.record))
      else .error .outOfBounds := by
  induction es generalizing bytes with
  | nil =>
    rw [List.flatMap_nil, List.append_nil, if_pos (by simpa using hroom)]
    rfl
  | cons e es ih =>
    simp only [traceEvents, bind, Except.bind, List.length_cons]
    by_cases hfit : bytes.length + 27 ≤ size
    · have hlen : (bytes ++ e.record).length = bytes.length + 19 := by
        rw [List.length_append, e.length_record]
      have hiff : bytes.length + 19 + 19 * es.length + 8 ≤ size ↔
          bytes.length + 19 * (es.length + 1) + 8 ≤ size := by omega
      rw [traceEventUnsafe_fits hfit]
      simp only
      rw [ih _ (by omega), hlen, List.flatMap_cons, List.append_assoc]
      simp only [hiff]
    · rw [traceEventUnsafe_overrun hroom (by omega), if_neg (by omega)]

end Writing

section Reading

variable {f : List UInt8} {n x : ℕ}

theorem unpack_encode (h : x < 256 ^ n) : unpack n (encode n x ++ f) = .ok (x, f) := by
  have htake : (encode n x ++ f).take n = encode n x := List.take_left' (length_encode n x)
  have hdrop : (encode n x ++ f).drop n = f := List.drop_left' (length_encode n x)
  rw [unpack, htake, hdrop, length_encode, if_pos rfl, decode_encode h]

theorem readEvent_record (e : TraceEvent) :
    readEvent (e.record ++ f) = .ok (some e.toRead, f) := by
  have hlt : e.lt.toNat ≠ 0 := fun h => e.lt_ne (BitVec.eq_of_toNat_eq h)
  simp only [readEvent, TraceEvent.record, List.append_assoc, bind, Except.bind,
    unpack_encode (n := 8) e.lt.isLt, unpack_encode (n := 8) e.now.isLt,
    unpack_encode (n := 1) e.event.isLt, unpack_encode (n := 2) e.fdWait.isLt, if_neg hlt,
    TraceEvent.toRead, BitVec.toInt_eq_toNat_bmod]

theorem readEvent_terminator : readEvent (encode 8 0 ++ f) = .ok (none, f) := by
  simp only [readEvent, bind, Except.bind, unpack_encode (show 0 < 256 ^ 8 by decide), if_true]

theorem readEvents_records (es : List TraceEvent) :
    readEvents (es.length + 1) (es.flatMap TraceEvent.record ++ (encode 8 0 ++ f)) =
      .ok (es.map TraceEvent.toRead) := by
  induction es with
  | nil =>
    rw [List.flatMap_nil, List.nil_append, readEvents, readEvent_terminator]
    rfl
  | cons e es ih =>
    rw [List.flatMap_cons, List.append_assoc, List.length_cons, readEvents, readEvent_record]
    simp only [bind, Except.bind, ih, List.map_cons]

end Reading

theorem file_tracing {size : ℕ} {bytes : List UInt8} (h : bytes.length + 8 ≤ size) :
    (tracing size bytes).file =
      bytes ++ (encode 8 0 ++ List.replicate (size - bytes.length - 8) 0) := by
  rw [encode_zero, List.replicate_append_replicate]
  apply List.ext_getElem
  · simp [TraceSched.file, tracing, Block.ofList]
    omega
  · intro i h₁ h₂
    rcases Nat.lt_or_ge i bytes.length with hi | hi
    · simp [TraceSched.file, tracing, Block.ofList, hi]
    · simp [TraceSched.file, tracing, Block.ofList, hi]

theorem traceEvents_create {size : ℕ} (hsize : 8 ≤ size) (events : List TraceEvent) :
    traceEvents (traceCreate size) events =
      if 19 * events.length + 8 ≤ size then
        .ok (tracing size (events.flatMap TraceEvent.record))
      else .error .outOfBounds := by
  have hrun := traceEvents_tracing [] events (by simpa using hsize)
  rwa [← traceCreate_eq, List.length_nil, Nat.zero_add, List.nil_append] at hrun

/-- A trace can be trusted as long as the events and the terminator fit in the file. -/
theorem trace_decodes_iff {size : ℕ} (hsize : 8 ≤ size) (events : List TraceEvent) :
    TraceDecodes size events ↔ 19 * events.length + 8 ≤ size := by
  have hrun := traceEvents_create hsize events
  constructor
  · rintro ⟨s, hs, -⟩
    by_contra hlt
    rw [hrun, if_neg hlt] at hs
    cases hs
  · intro hfit
    rw [if_pos hfit] at hrun
    refine ⟨_, hrun, events.length, events.length + 1, ?_, fun _ => Nat.le_refl _⟩
    rw [file_tracing (by rw [length_records]; exact hfit), readEvents_records, List.take_length]

/-- A file with room for one event and the terminator. -/
theorem trace_decodes_iff_single :
    8 ≤ 27 ∧ TraceDecodes 27 [⟨0x7f00, 17, 3, -1, by decide⟩] :=
  ⟨by decide, (trace_decodes_iff (by decide) _).mpr (by decide)⟩

/-- The file of `1 << 26` bytes that the code makes: after 3532045 events the next one sends its
terminator over the end. -/
theorem trace_terminator_overrun :
    traceEvents (traceCreate (1 <<< 26))
        (List.replicate 3532046 ⟨0x7f00, 17, 3, -1, by decide⟩) = .error .outOfBounds ∧
      ¬ TraceDecodes (1 <<< 26) (List.replicate 3532046 ⟨0x7f00, 17, 3, -1, by decide⟩) := by
  have hrun : traceEvents (traceCreate (1 <<< 26))
      (List.replicate 3532046 ⟨0x7f00, 17, 3, -1, by decide⟩) = .error .outOfBounds := by
    rw [traceEvents_create (by decide), List.length_replicate, if_neg (by decide)]
  refine ⟨hrun, ?_⟩
  rintro ⟨s, hs, -⟩
  cases hrun.symm.trans hs

end Lthread
