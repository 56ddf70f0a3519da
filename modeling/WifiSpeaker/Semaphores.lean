import WifiSpeaker.FreeRtosQueue
import WifiSpeaker.SpiRamFifo

namespace WifiSpeaker.Semaphores
open Common FreeRtosQueue SpiRamFifo

/-- No result where the semaphore is not available: the task waits. -/
def xSemaphoreTake (q : QueueT 0) : Option (QueueT 0) :=
  (xQueueGenericReceive q false).map Prod.snd

/-- It does not wait: a semaphore that is available stays so. -/
def xSemaphoreGive (q : QueueT 0) : QueueT 0 := (q.sent ⟨[],rfl⟩ .sendToBack).2

/-- A binary semaphore or a mutex, with the heap behind it: one place, and given. -/
def created (heap : Heap 1 0) : QueueT 0 := xSemaphoreGive (xQueueGenericCreate heap)

/-- No semaphore stops a thread. -/
def allSet (f : Fifo) : Fifo := { f with semCanRead := true, semCanWrite := true, mux := true }

/-- The FIFO with its semaphores as `queue.c` keeps them; the flags in `base` stay set. -/
structure Port where
  base : State
  semCanRead : QueueT 0
  semCanWrite : QueueT 0
  mux : QueueT 0

def Port.takeMux (p : Port) : Option Port :=
  (xSemaphoreTake p.mux).map (fun mux => { p with mux := mux })

def Port.giveMux (p : Port) : Port := { p with mux := xSemaphoreGive p.mux }

def Port.takeCanRead (p : Port) : Option Port :=
  (xSemaphoreTake p.semCanRead).map (fun semCanRead => { p with semCanRead := semCanRead })

def Port.giveCanRead (p : Port) : Port := { p with semCanRead := xSemaphoreGive p.semCanRead }

def Port.takeCanWrite (p : Port) : Option Port :=
  (xSemaphoreTake p.semCanWrite).map (fun semCanWrite => { p with semCanWrite := semCanWrite })

def Port.giveCanWrite (p : Port) : Port := { p with semCanWrite := xSemaphoreGive p.semCanWrite }

/-- The calls in the next step of the writing thread. -/
def Port.writerCalls (p : Port) : Option Port :=
  match p.base.writer with
  | .idle => some p
  | .loop _ _ => some p
  | .mux _ _ _ => p.takeMux.map Port.giveMux
  | .canWrite _ _ => p.takeCanWrite
  | .giveCanRead _ _ => some p.giveCanRead
  | .fill => p.takeMux.map Port.giveMux

/-- The calls in the next step of the reading thread. -/
def Port.readerCalls (p : Port) : Option Port :=
  match p.base.reader with
  | .idle => some p
  | .entry _ => some p
  | .loop _ _ => some p
  | .mux _ _ _ => p.takeMux.map Port.giveMux
  | .lowmark _ _ => some p
  | .canRead _ _ => p.takeCanRead
  | .giveCanWrite _ _ => some p.giveCanWrite
  | .resetMux => p.takeMux.map Port.giveCanWrite
  | .resetCanRead => p.takeCanRead.map Port.giveMux

/-- What the step does besides. -/
def Port.goesOn (p : Port) (a : Act) : Option Port :=
  (SpiRamFifo.step p.base a).map
    (fun base => { p with base := { base with fifo := allSet base.fifo } })

/-- A thread takes its step when no call of it has to wait. -/
def step (p : Port) : Act → Option Port
  | .writer => p.writerCalls.bind (·.goesOn .writer)
  | .reader => p.readerCalls.bind (·.goesOn .reader)
  | a => p.goesOn a

def system (semCanRead semCanWrite mux : Heap 1 0) : System Port Act where
  init := ⟨SpiRamFifo.system.init,created semCanRead,created semCanWrite,created mux⟩
  step := step

end WifiSpeaker.Semaphores
