import WifiSpeaker.BufferProcessor
import WifiSpeaker.Sender

namespace WifiSpeaker.Capture
open Common Wire
open BufferProcessor (Config Converter HostBuffer)

variable {α δ : Type}

/-- The stream `main` opens: two channels of 16-bit samples, interleaved, in user
buffers of 1024 frames. -/
def stream (inputConverter : Converter α UInt16 δ) : Config α UInt16 δ where
  framesPerUserBuffer := 1024
  inputChannelCount := 2
  userInputIsInterleaved := true
  inputConverter := inputConverter
  frames := Nat.succ_pos 1023
  channels := Nat.two_pos

/-- A user buffer in memory. -/
def bytes (samples : List UInt16) : List UInt8 := samples.flatMap le16

theorem length_bytes (samples : List UInt16) : (bytes samples).length = samples.length * 2 := by
  induction samples with
  | nil => rfl
  | cons x samples ih =>
    rw [bytes,List.flatMap_cons,List.length_append,length_le16,← bytes,ih,List.length_cons]
    omega

/-- The buffer processor with `recordCallback` behind it, and the sending thread. -/
structure State (inputConverter : Converter α UInt16 δ) where
  bp : BufferProcessor.State (stream inputConverter)
  sender : Sender.State

inductive Act (inputConverter : Converter α UInt16 δ)
  | process (first : HostBuffer (stream inputConverter))
      (second : Option (HostBuffer (stream inputConverter)))
  | turn
  | poll
  | send
  | clear

variable {inputConverter : Converter α UInt16 δ}

theorem length_buffer (buffer : (stream inputConverter).TempBuffer) :
    (bytes buffer.items).length = 4096 := by
  rw [length_bytes,buffer.size]
  exact (by decide : 1024 * 2 * 2 = 4096)

/-- A user buffer as `recordCallback` gets it. -/
def block (buffer : (stream inputConverter).TempBuffer) : Sender.Block where
  framesPerBuffer := 1024
  inputBuffer := bytes buffer.items
  frames := (length_buffer buffer).trans (by decide)
  addressable := by
    rw [length_buffer]
    decide

/-- `recordCallback` returns `paContinue`; a turn that has called it has logged its
buffer. -/
def step (s : State inputConverter) : Act inputConverter → Option (State inputConverter)
  | .process first second => do
    return { s with bp := ← BufferProcessor.step s.bp (.process first second) }
  | .turn => do
    let bp ← BufferProcessor.step s.bp (.turn .paContinue)
    match bp.calls.drop s.bp.calls.length with
    | [] => return { s with bp := bp }
    | buffer :: _ => return ⟨bp,← Sender.step s.sender (.callback (block buffer))⟩
  | .poll => do return { s with sender := ← Sender.step s.sender .poll }
  | .send => do return { s with sender := ← Sender.step s.sender .send }
  | .clear => do return { s with sender := ← Sender.step s.sender .clear }

def system (inputConverter : Converter α UInt16 δ) (temp : (stream inputConverter).TempBuffer)
    (dither : δ) (heap : Sender.Heap) (sizeBuffer : Nat) :
    System (State inputConverter) (Act inputConverter) where
  init := ⟨(BufferProcessor.system (stream inputConverter) temp dither).init,
    (Sender.system heap sizeBuffer).init⟩
  step := step

end WifiSpeaker.Capture
