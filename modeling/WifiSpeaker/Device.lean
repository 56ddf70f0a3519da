import WifiSpeaker.Server
import WifiSpeaker.Speaker

namespace WifiSpeaker.Device
open Common Wire
open DataBuffer (Ring boot initDataBuffer)
open PrcessCharacter (RenderCall rendersOf zeroStack bootWfx)
open Server (AudioThread Reader ThreadAct)
open Speaker (argument dac)

/-- One connection on the device: the ring and the global format, the
`audio_thread` of the connection, the `prcess_character` it has created, the
renderer and the port. The log holds all that `recv` has put into its buffer. -/
structure State where
  ring : Ring
  wfx : WaveFormatEx
  thread : AudioThread
  reader : Option Reader
  renderer : Renderer.State
  port : I2s.State dac
  received : List UInt8

/-- A step of the thread, a step of the task outside of `render_samples`, or a step
inside of it or of the hardware. -/
inductive Act
  | thread (act : ThreadAct)
  | reader
  | speaker (act : Speaker.Act)
  deriving DecidableEq, Repr

/-- What a step of the thread brings in from the socket. -/
def delivered : ThreadAct → List UInt8
  | .recv (.bytes data _) => data
  | _ => []

/-- The renderer and the port without a byte stream of their own. -/
def State.speaker (s : State) : Speaker.State :=
  ⟨⟨zeroStack,s.wfx,[],[]⟩,s.renderer,s.port⟩

/-- The renderer once the task has gone on behind a read, into `render_samples` if it
has come to it. -/
def afterRead (beyond : Nat → UInt8) (r : Renderer.State) : List RenderCall → Option Renderer.State
  | [] => some r
  | call :: _ => Renderer.step r (.renderSamples (argument beyond call))

/-- The task reads only when its call of `render_samples` is over, and nobody else
moves `current_read_buffer`: the next read may be noted as soon as the last one has
returned. -/
def step (beyond : Nat → UInt8) (s : State) : Act → Option State
  | .thread act => do
    let (thread,ring,readers,_) ← s.thread.step 0 s.ring s.thread.client act
    return { s with
      ring := ring
      thread := thread
      reader := s.reader.or readers.head?
      received := s.received ++ delivered act }
  | .reader => do
    if s.renderer.call.isSome then none else
    let (reader,ring,wfx,events) ← Reader.step s.ring s.wfx (← s.reader)
    let renderer ← afterRead beyond s.renderer (rendersOf events)
    return { s with ring := ring, wfx := wfx, reader := some reader, renderer := renderer }
  | .speaker (.read _) => none
  | .speaker act => do
    let t ← Speaker.step beyond s.speaker act
    return { s with renderer := t.renderer, port := t.port }

/-- The device behind `renderer_init` once the thread has copied its socket. -/
def device (client : Int) (beyond : Nat → UInt8) (sampleRate : UInt32) : System State Act where
  init :=
    { ring := initDataBuffer boot
      wfx := bootWfx
      thread := ⟨.recv,client,0⟩
      reader := none
      renderer := Renderer.rendererInit sampleRate Renderer.espOk
      port := (I2s.system dac).init
      received := [] }
  step := step beyond

end WifiSpeaker.Device
