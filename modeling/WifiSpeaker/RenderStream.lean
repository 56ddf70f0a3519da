import WifiSpeaker.RenderAudio

namespace WifiSpeaker.RenderStream
open Common Wire
open SpiRamFifo hiding State Act step system
open RenderAudio hiding Act
open RenderSamples (Push)

/-- One `render_audio` task and one thread that writes the FIFO. The logs hold
what both have done to the FIFO since the task began, and its pushes. -/
structure State where
  shared : Shared
  writer : Writer
  task : Task
  trace : List Event
  pushes : List Push

/-- The writing thread is called or takes a step; the task takes a step on the
FIFO, or one of `render_samples` with a result of the driver. -/
inductive Act
  | callWrite (buff : List UInt8) (buffLen : Int)
  | callFill
  | writer
  | fifo
  | enter (ret : Int)
  | turn (bytesPushed : Int)
  deriving DecidableEq, Repr

/-- One step of the task. -/
def State.renderAudio (s : State) (a : RenderAudio.Act) : Option State := do
  let out ← s.task.step s.shared a
  return { s with
    shared := out.shared, task := out.task
    trace := s.trace ++ out.events, pushes := s.pushes ++ out.pushes }

/-- Nothing but `renderer_init` sets `renderer_status`, so that a turn always sees
`INITIALIZED`. -/
def step (s : State) : Act → Option State
  | .callWrite buff buffLen =>
    if s.writer = .idle ∧ buffLen ≤ buff.length then
      some { s with writer := .loop buff buffLen }
    else none
  | .callFill => if s.writer = .idle then some { s with writer := .fill } else none
  | .writer => do
    let (fifo,writer,events) ← s.writer.step s.shared.fifo
    return { s with
      shared := { s.shared with fifo := fifo }, writer := writer, trace := s.trace ++ events }
  | .fifo => s.renderAudio .fifo
  | .enter ret => s.renderAudio (.samples (.enter ret))
  | .turn bytesPushed => s.renderAudio (.samples (.turn .initialized bytesPushed))

/-- A task that begins on a FIFO with a history, while the writing thread may be
anywhere. -/
def system (base : SpiRamFifo.State) (wfx : WaveFormatEx) (sampleRate : UInt32)
    (stack : Nat → UInt8) : System State Act where
  init := ⟨⟨base.fifo,wfx,sampleRate⟩,base.writer,renderAudio stack,[],[]⟩
  step := step

/-- The bytes the reads of the task have taken from the FIFO, in order. -/
def consumed (trace : List Event) : List UInt8 :=
  trace.flatMap (fun e => match e with
    | .spiRamRead _ _ bytes => bytes
    | _ => [])

/-- The bytes the writing thread has stored, in order. -/
def stored (trace : List Event) : List UInt8 :=
  trace.flatMap (fun e => match e with
    | .spiRamWrite _ _ bytes => bytes
    | _ => [])

end WifiSpeaker.RenderStream
