import WifiSpeaker.FreeRtosQueue
import WifiSpeaker.I2s

namespace WifiSpeaker.I2sQueue
open Common FreeRtosQueue I2s

variable {c : Config}

/-- `dma->buf`: what `i2s_create_dma_queue` has allocated, each buffer at another
address. -/
structure Layout (c : Config) where
  buf : c.Desc → Object 4
  distinct : Function.Injective buf

/-- The buffer a received pointer is the address of. -/
def Layout.bufferAt (l : Layout c) (ptr : List UInt8) : Option c.Desc :=
  (List.finRange c.dmaBufCount).find? (fun d => (l.buf d).bytes = ptr)

/-- The port with `dma->queue` as `queue.c` keeps it; the list in `base` stays empty. -/
structure Port (c : Config) where
  base : I2s.State c
  queue : QueueT 4

/-- A full buffer, or none yet: `xQueueReceive` writes the next pointer to `curr_ptr`. -/
def Port.acquire (l : Layout c) (p : Port c) : Option (Port c) :=
  if p.base.rwPos = c.bufSize ∨ p.base.currPtr = none then
    match xQueueGenericReceive p.queue false with
    | none => none
    | some (ptr,queue) => some ⟨{ p.base with currPtr := l.bufferAt ptr, rwPos := 0 },queue⟩
  else some p

def Port.store (p : Port c) (bytes : List UInt8) : Port c := { p with base := p.base.store bytes }

/-- `i2s_push_sample`. -/
def Port.i2sPushSample (l : Layout c) (p : Port c) (sample : Object c.sampleSize) : Port c × Nat :=
  match p.acquire l with
  | none => (p,0)
  | some p => (p.store sample.bytes,c.sampleSize)

def Port.await (p : Port c) (writing : Option (List UInt8)) : Port c :=
  { p with base := { p.base with writing := writing } }

/-- One pass of the loop of `i2s_write_bytes`. -/
def Port.writePass (l : Layout c) (p : Port c) (src : List UInt8) : Port c :=
  if src.length > 0 then
    match p.acquire l with
    | none => p.await none
    | some p =>
      let bytesCanWrite := min (c.bufSize - p.base.rwPos) src.length
      (p.store (src.take bytesCanWrite)).await (some (src.drop bytesCanWrite))
  else p.await none

def Port.enter (p : Port c) (isr : Isr c) : Port c := { p with base := { p.base with isr := isr } }

/-- The steps of a port whose calls of the queue are those of `queue.c`. -/
def step (l : Layout c) (p : Port c) : Act c → Option (Port c)
  | .pushSample sample =>
    if p.base.writing.isNone then some (p.i2sPushSample l sample).1 else none
  | .writePass => p.base.writing.map (p.writePass l)
  | .interrupt =>
    match p.base.isr, p.base.outEof with
    | .idle, some finishDesc =>
      if xQueueIsQueueFullFromISR p.queue then some (p.enter (.drop finishDesc))
      else some (p.enter (.send finishDesc))
    | _, _ => none
  | .isrDrop =>
    match p.base.isr with
    | .drop finishDesc =>
      some { p.enter (.send finishDesc) with queue := (p.queue.received false).2 }
    | _ => none
  | .isrSend =>
    match p.base.isr with
    | .send finishDesc =>
      some { p.enter .clear with queue := (p.queue.sent (l.buf finishDesc) .sendToBack).2 }
    | _ => none
  | a => (I2s.step p.base a).map (fun base => { p with base := base })

/-- `xQueueCreate(dma_buf_count - 1, sizeof(char*))`. -/
def system (l : Layout c) (heap : Heap c.queueLength 4) : System (Port c) (Act c) where
  init := ⟨(I2s.system c).init,xQueueGenericCreate heap⟩
  step := step l

end WifiSpeaker.I2sQueue
