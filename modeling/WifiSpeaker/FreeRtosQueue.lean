import WifiSpeaker.Common.Answers
import WifiSpeaker.Common.Cyclic

namespace WifiSpeaker.FreeRtosQueue
open Common

/-- `Queue_t` with its storage. The pointers are offsets from `pcHead`; a
semaphore is a queue of items without bytes. -/
structure QueueT (uxItemSize : Nat) where
  uxLength : Nat
  storage : List UInt8
  uxMessagesWaiting : Nat
  pcWriteTo : Nat
  pcReadFrom : Nat
  deriving DecidableEq, Repr

/-- `xCopyPosition`. -/
inductive Position
  | sendToBack
  | sendToFront
  | overwrite
  deriving DecidableEq, Repr

/-- The storage `xQueueGenericCreate` has allocated, with whatever the heap held. -/
structure Heap (uxQueueLength uxItemSize : Nat) where
  bytes : List UInt8
  size : bytes.length = uxQueueLength * uxItemSize
  deriving DecidableEq, Repr

variable {uxItemSize : Nat}

def QueueT.pcTail (q : QueueT uxItemSize) : Nat := q.uxLength * uxItemSize

def xQueueGenericReset (q : QueueT uxItemSize) : QueueT uxItemSize :=
  { q with
    uxMessagesWaiting := 0
    pcWriteTo := 0
    pcReadFrom := (q.uxLength - 1) * uxItemSize }

/-- `xQueueGenericCreate`: a new queue is reset. -/
def xQueueGenericCreate (heap : Heap uxQueueLength uxItemSize) : QueueT uxItemSize :=
  xQueueGenericReset ⟨uxQueueLength,heap.bytes,0,0,0⟩

/-- The write pointer goes on behind the copied item. -/
def QueueT.copyToBack (q : QueueT uxItemSize) (item : Object uxItemSize) :
    QueueT uxItemSize :=
  let pcWriteTo := q.pcWriteTo + uxItemSize
  { q with
    storage := memcpy q.storage q.pcWriteTo item.bytes
    pcWriteTo := if pcWriteTo ≥ q.pcTail then 0 else pcWriteTo }

/-- The read pointer stands on the item received last, so the copy goes there and
the pointer goes back. -/
def QueueT.copyToFront (q : QueueT uxItemSize) (item : Object uxItemSize) :
    QueueT uxItemSize :=
  { q with
    storage := memcpy q.storage q.pcReadFrom item.bytes
    pcReadFrom :=
      if q.pcReadFrom < uxItemSize then q.pcTail - uxItemSize else q.pcReadFrom - uxItemSize }

def prvCopyDataToQueue (q : QueueT uxItemSize) (item : Object uxItemSize) (position : Position) :
    QueueT uxItemSize :=
  let q :=
    if uxItemSize = 0 then q
    else match position with
      | .sendToBack => q.copyToBack item
      | .sendToFront => q.copyToFront item
      | .overwrite =>
        let q := q.copyToFront item
        if q.uxMessagesWaiting > 0 then { q with uxMessagesWaiting := q.uxMessagesWaiting - 1 }
        else q
  { q with uxMessagesWaiting := q.uxMessagesWaiting + 1 }

/-- The read pointer goes on to the oldest item, which is copied out. -/
def prvCopyDataFromQueue (q : QueueT uxItemSize) : QueueT uxItemSize × List UInt8 :=
  if uxItemSize ≠ 0 then
    let pcReadFrom := q.pcReadFrom + uxItemSize
    let pcReadFrom := if pcReadFrom ≥ q.pcTail then 0 else pcReadFrom
    ({ q with pcReadFrom := pcReadFrom },(q.storage.drop pcReadFrom).take uxItemSize)
  else (q,[])

/-- One look of `xQueueGenericSend` or `xQueueGenericSendFromISR` at the queue,
inside the critical section. No result where there is no room: the task waits or
gives up. -/
def xQueueGenericSend (q : QueueT uxItemSize) (item : Object uxItemSize) (position : Position) :
    Option (QueueT uxItemSize) :=
  if q.uxMessagesWaiting < q.uxLength ∨ position = .overwrite then
    some (prvCopyDataToQueue q item position)
  else none

/-- One look of `xQueueGenericReceive` or `xQueueReceiveFromISR` at the queue. -/
def xQueueGenericReceive (q : QueueT uxItemSize) (justPeeking : Bool) :
    Option (List UInt8 × QueueT uxItemSize) :=
  if q.uxMessagesWaiting > 0 then
    let (next,item) := prvCopyDataFromQueue q
    if justPeeking then some (item,{ next with pcReadFrom := q.pcReadFrom })
    else some (item,{ next with uxMessagesWaiting := q.uxMessagesWaiting - 1 })
  else none

def xQueueIsQueueFullFromISR (q : QueueT uxItemSize) : Bool := q.uxMessagesWaiting = q.uxLength

/-- What a send has come to. -/
def QueueT.sent (q : QueueT uxItemSize) (item : Object uxItemSize) (position : Position) :
    Answer (List UInt8) × QueueT uxItemSize :=
  match xQueueGenericSend q item position with
  | some q => (.done,q)
  | none => (.full,q)

/-- What a receive has come to. -/
def QueueT.received (q : QueueT uxItemSize) (justPeeking : Bool) :
    Answer (List UInt8) × QueueT uxItemSize :=
  match xQueueGenericReceive q justPeeking with
  | some (item,q) => (.item item,q)
  | none => (.empty,q)

/-- The calls of all tasks and interrupts, each in its critical section. The
assertion on `queueOVERWRITE` stops a call on a queue of more than one place. -/
def step (q : QueueT uxItemSize) :
    Request (Object uxItemSize) → Answer (List UInt8) × QueueT uxItemSize
  | .sendToBack item => q.sent item .sendToBack
  | .sendToFront item => q.sent item .sendToFront
  | .overwrite item => if q.uxLength ≠ 1 then (.refused,q) else q.sent item .overwrite
  | .receive => q.received false
  | .peek => q.received true
  | .reset => (.done,xQueueGenericReset q)

def system (heap : Heap uxQueueLength uxItemSize) :
    Machine (QueueT uxItemSize) (Request (Object uxItemSize)) (Answer (List UInt8)) where
  init := xQueueGenericCreate heap
  step := step

end WifiSpeaker.FreeRtosQueue
