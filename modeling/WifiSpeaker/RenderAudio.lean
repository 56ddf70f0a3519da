import WifiSpeaker.RenderSamples
import WifiSpeaker.SpiRamFifo

namespace WifiSpeaker.RenderAudio
open Common Wire SpiRamFifo

/-- `sizeof(render_buffer)`, which is also what every read asks for. -/
def sizeofRenderBuffer : Nat := 1024

/-- What the tasks share: the FIFO, the global `wfx` and the rate the renderer
remembers. -/
structure Shared where
  fifo : Fifo
  wfx : WaveFormatEx
  sampleRate : UInt32

/-- The three calls of `render_samples`: a whole buffer, the rest at the end of
the data, and the sixteen zero bytes behind it. -/
inductive Part
  | whole
  | rest (bytesToRead : Int)
  | zeros
  deriving DecidableEq, Repr

/-- The `uint32_t` length of the call. -/
def Part.bufLen : Part → UInt32
  | .whole => 1024
  | .rest bytesToRead => UInt32.ofInt bytesToRead
  | .zeros => 16

/-- Where a task is: in `spiRamFifoRead` with so many bytes of the read in its
buffer, in `render_samples`, behind the loop in `spiRamFifoReset`, or deleted. -/
inductive Place
  | read (r : Reader) (filled : Nat)
  | render (part : Part) (call : RenderSamples.Place)
  | reset (r : Reader)
  | deleted
  deriving DecidableEq, Repr

/-- The stack of a task from `render_buffer` on. -/
structure Task where
  place : Place
  renderBuffer : Nat → UInt8

/-- What the memory holds behind a `memcpy` to offset `off`. -/
def overwrite (memory : Nat → UInt8) (off : Nat) (src : List UInt8) : Nat → UInt8 :=
  fun k => if k < off then memory k else src.getD (k - off) (memory k)

/-- Entry of the task: the first read, into whatever the stack held. -/
def renderAudio (stack : Nat → UInt8) : Task := ⟨.read (.entry sizeofRenderBuffer) 0,stack⟩

/-- The code behind the return of a read. -/
def afterRead (bytesToRead : Int) : Place :=
  if bytesToRead < sizeofRenderBuffer then .render (.rest bytesToRead) .entry
  else .render .whole .entry

/-- The code behind the return of a `render_samples`: the next read, the zeros,
or the `break` and the reset. -/
def Task.afterRender (t : Task) : Part → Task
  | .whole => { t with place := .read (.entry sizeofRenderBuffer) 0 }
  | .rest _ =>
    { place := .render .zeros .entry
      renderBuffer := overwrite t.renderBuffer 0 (List.replicate 16 0) }
  | .zeros => { t with place := .reset .resetMux }

/-- The task with what one step of `spiRamFifoRead` has put into its buffer or
returned. -/
def Task.reads (t : Task) (r : Reader) (filled : Nat) : List Event → Task
  | [.spiRamRead _ _ bytes] =>
    ⟨.read r (filled + bytes.length),overwrite t.renderBuffer filled bytes⟩
  | [.readReturns bytesToRead] => { t with place := afterRead bytesToRead }
  | _ => { t with place := .read r filled }

inductive Act
  | fifo
  | samples (a : RenderSamples.Act)
  deriving DecidableEq, Repr

/-- What a step has changed, with the events of the FIFO and the pushes. -/
structure Out where
  task : Task
  shared : Shared
  events : List Event
  pushes : List RenderSamples.Push

/-- The task has not passed the `break` at the end of the data. -/
def Place.alive : Place → Bool
  | .read _ _ => true
  | .render _ _ => true
  | .reset _ => false
  | .deleted => false

def Task.alive (t : Task) : Bool := t.place.alive

def Task.step (t : Task) (s : Shared) : Act → Option Out
  | .fifo =>
    match t.place with
    | .read r filled => do
      let (fifo,r',events) ← r.step s.fifo
      return ⟨t.reads r' filled events,{ s with fifo := fifo },events,[]⟩
    | .reset r => do
      let (fifo,r',events) ← r.step s.fifo
      let place := if r' = .idle then .deleted else .reset r'
      return ⟨{ t with place := place },{ s with fifo := fifo },events,[]⟩
    | _ => none
  | .samples a =>
    match t.place with
    | .render part call => do
      let call' ← RenderSamples.step t.renderBuffer part.bufLen s.wfx ⟨s.sampleRate,call,[],[],[]⟩ a
      let task :=
        if call'.place = .returned then t.afterRender part
        else { t with place := .render part call'.place }
      return ⟨task,{ s with sampleRate := call'.sampleRate },[],call'.pushes⟩
    | _ => none

end WifiSpeaker.RenderAudio
