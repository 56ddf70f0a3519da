import Mathlib.Logic.Function.Basic
import WifiSpeaker.Common.Cyclic
import WifiSpeaker.Common.Runs

namespace WifiSpeaker.DataBuffer
open Common

def numberOfBuffer : Nat := 5

def lengthOfBuffer : Nat := 5120

theorem numberOfBuffer_gt : 1 < numberOfBuffer := by decide

theorem lengthOfBuffer_pos : 0 < lengthOfBuffer := by decide

/-- `data_buffer_state_e`. -/
inductive BufferState
  | prepared
  | unprepared
  deriving DecidableEq, Repr

/-- `data_buffer_s`. While the slot is unprepared `used` is the writer's fill
offset; while it is prepared the same field is the reader's read offset. -/
structure Slot where
  buffer : List UInt8
  used : Int
  dataBufferState : BufferState
  deriving DecidableEq, Repr

/-- The statics of `data_buffer.c`. -/
structure Ring where
  dataBuffer : Fin numberOfBuffer → Slot
  currentWriteBuffer : Fin numberOfBuffer
  currentReadBuffer : Fin numberOfBuffer
  bufferUsed : Int

/-- Zeroed static storage; the enumerator 0 is `B_PREPARED`. -/
def boot : Ring where
  dataBuffer _ := ⟨List.replicate lengthOfBuffer 0,0,.prepared⟩
  currentWriteBuffer := ⟨0,by decide⟩
  currentReadBuffer := ⟨0,by decide⟩
  bufferUsed := 0

def initDataBuffer (r : Ring) : Ring :=
  { r with dataBuffer := fun i => { r.dataBuffer i with used := 0, dataBufferState := .unprepared } }

/-- Integer division of C truncates towards zero. -/
def getBufferPercent (r : Ring) : Int := (r.bufferUsed * 100).tdiv numberOfBuffer

/-- Store a slot. -/
def Ring.put (r : Ring) (i : Fin numberOfBuffer) (slot : Slot) : Ring :=
  { r with dataBuffer := Function.update r.dataBuffer i slot }

/-- The assignment `current->used = 0` both tasks make to the slot they move to. -/
def Ring.clearUsed (r : Ring) (i : Fin numberOfBuffer) : Ring :=
  r.put i { r.dataBuffer i with used := 0 }

/-- One `memcpy` between a slot and a caller's buffer: the slot, the offset and
size arguments, and the bytes moved. -/
structure Copy where
  slot : Fin numberOfBuffer
  offset : Int
  size : Int
  bytes : List UInt8
  deriving DecidableEq, Repr

/-- The locals of a running `buffer_write_data` at its loop head. -/
structure WriteCall where
  current : Fin numberOfBuffer
  data : List UInt8
  size : Int
  deriving DecidableEq, Repr

/-- The locals of a running `buffer_read_data` at its loop head. -/
structure ReadCall where
  current : Fin numberOfBuffer
  size : Int
  dataRead : Int
  deriving DecidableEq, Repr

def bufferWriteData (r : Ring) (data : List UInt8) (size : Int) : WriteCall :=
  ⟨r.currentWriteBuffer,data,size⟩

def bufferReadData (r : Ring) (size : Int) : ReadCall := ⟨r.currentReadBuffer,size,0⟩

/-- `LENGTH_OF_BUFFER - current->used`. -/
def Ring.remain (r : Ring) (current : Fin numberOfBuffer) : Int :=
  lengthOfBuffer - (r.dataBuffer current).used

/-- `memcpy(current->buffer + current->used, data, n)`. -/
def WriteCall.copy (r : Ring) (c : WriteCall) (n : Int) : Copy :=
  ⟨c.current,(r.dataBuffer c.current).used,n,c.data.take n.toNat⟩

/-- `memcpy(data, current->buffer + current->used, n)`. -/
def ReadCall.copy (r : Ring) (c : ReadCall) (n : Int) : Copy :=
  let slot := r.dataBuffer c.current
  ⟨c.current,slot.used,n,(slot.buffer.drop slot.used.toNat).take n.toNat⟩

/-- The copied bytes go into the slot's memory. -/
def Slot.store (slot : Slot) (copy : Copy) : List UInt8 :=
  memcpy slot.buffer copy.offset.toNat copy.bytes

/-- The rest of the data fits below the end of the slot: the last pass. -/
def Ring.fill (r : Ring) (c : WriteCall) : Ring :=
  let slot := r.dataBuffer c.current
  r.put c.current { slot with
    buffer := slot.store (c.copy r c.size), used := slot.used + c.size }

/-- The pass fills the slot, hands it to the reader and moves on. -/
def Ring.commit (r : Ring) (c : WriteCall) : Ring :=
  let slot := r.dataBuffer c.current
  let full : Slot := ⟨slot.store (c.copy r (r.remain c.current)),0,.prepared⟩
  let next := ahead r.currentWriteBuffer 1
  { (r.put c.current full).clearUsed next with
    currentWriteBuffer := next, bufferUsed := r.bufferUsed + 1 }

/-- The rest of the request is inside the slot: the last pass. -/
def Ring.consume (r : Ring) (c : ReadCall) : Ring :=
  let slot := r.dataBuffer c.current
  r.put c.current { slot with used := slot.used + c.size }

/-- The pass empties the slot, hands it to the writer and moves on. -/
def Ring.release (r : Ring) (c : ReadCall) : Ring :=
  let slot := r.dataBuffer c.current
  let next := ahead r.currentReadBuffer 1
  { (r.put c.current { slot with used := 0, dataBufferState := .unprepared }).clearUsed next with
    currentReadBuffer := next, bufferUsed := r.bufferUsed - 1 }

/-- One pass of the loop of `buffer_write_data`: the ring, the locals unless
the call returned, and the copy. No result while the pass spins on `B_PREPARED`. -/
def writePass (r : Ring) (c : WriteCall) : Option (Ring × Option WriteCall × Option Copy) :=
  if c.size ≤ 0 then some (r,none,none)
  else if (r.dataBuffer c.current).dataBufferState = .prepared then none
  else
    let remain := r.remain c.current
    if c.size < remain then some (r.fill c,none,some (c.copy r c.size))
    else
      let next := (r.commit c).currentWriteBuffer
      some (r.commit c,some ⟨next,c.data.drop remain.toNat,c.size - remain⟩,some (c.copy r remain))

/-- One pass of the loop of `buffer_read_data`; the second component is the
locals, or the value returned. No result while the pass spins on `B_UNPREPARED`. -/
def readPass (r : Ring) (c : ReadCall) : Option (Ring × (ReadCall ⊕ Int) × Option Copy) :=
  if c.size ≤ 0 then some (r,.inr 0,none)
  else if (r.dataBuffer c.current).dataBufferState = .unprepared then none
  else
    let remain := r.remain c.current
    if c.size < remain then
      some (r.consume c,.inr (c.dataRead + c.size),some (c.copy r c.size))
    else
      let next := (r.release c).currentReadBuffer
      some (r.release c,.inl ⟨next,c.size - remain,c.dataRead + remain⟩,some (c.copy r remain))

/-- One writer task and one reader task on the ring. The two logs hold every
copy made so far, oldest first; the code does not keep them. -/
structure State where
  ring : Ring
  writer : Option WriteCall
  reader : Option ReadCall
  writes : List Copy
  reads : List Copy

inductive Act
  | callWrite (data : List UInt8) (size : Int)
  | passWrite
  | callRead (size : Int)
  | passRead
  deriving DecidableEq, Repr

/-- A call starts when its task is between calls; its data has at least `size`
bytes. A pass is one atomic step and waits while it would spin. -/
def step (s : State) : Act → Option State
  | .callWrite data size =>
    if s.writer = none ∧ size ≤ data.length then
      some { s with writer := some (bufferWriteData s.ring data size) }
    else none
  | .passWrite => do
    let (r,c,copy) ← writePass s.ring (← s.writer)
    return { s with ring := r, writer := c, writes := s.writes ++ copy.toList }
  | .callRead size =>
    if s.reader = none then some { s with reader := some (bufferReadData s.ring size) } else none
  | .passRead => do
    let (r,c,copy) ← readPass s.ring (← s.reader)
    return { s with ring := r, reader := c.getLeft?, reads := s.reads ++ copy.toList }

def system : System State Act where
  init := ⟨initDataBuffer boot,none,none,[],[]⟩
  step := step

/-- All bytes the writer has copied into the ring. -/
def State.copiedIn (s : State) : List UInt8 := s.writes.flatMap Copy.bytes

/-- All bytes the reader has copied out of the ring. -/
def State.copiedOut (s : State) : List UInt8 := s.reads.flatMap Copy.bytes

end WifiSpeaker.DataBuffer
