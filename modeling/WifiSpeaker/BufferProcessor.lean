import Mathlib.Data.List.FinRange
import Mathlib.Data.List.Forall2
import Mathlib.Logic.Function.Basic
import WifiSpeaker.Common.Runs
import WifiSpeaker.Common.Strided

namespace WifiSpeaker.BufferProcessor
open Common

/-- `PaStreamCallbackResult`. -/
inductive CallbackResult
  | paContinue
  | paComplete
  | paAbort
  deriving DecidableEq, Repr

/-- A converter turns the samples of one channel into as many of another format; it
may carry a dither generator along. What a sample may become is `rel`. -/
structure Converter (α β δ : Type) where
  convert : List α → δ → List β × δ
  rel : α → β → Prop
  sound : ∀ xs d, List.Forall₂ rel xs (convert xs d).1

/-- What `PaUtil_InitializeBufferProcessor` settles for a stream with input channels
only and user buffers that the host buffers do not fit. -/
structure Config (α β δ : Type) where
  framesPerUserBuffer : Nat
  inputChannelCount : Nat
  userInputIsInterleaved : Bool
  inputConverter : Converter α β δ
  frames : 0 < framesPerUserBuffer
  channels : 0 < inputChannelCount

variable {α β δ : Type} {c : Config α β δ}

abbrev Config.Channel (c : Config α β δ) : Type := Fin c.inputChannelCount

/-- `tempInputBuffer` in samples: as many frames as a user buffer has. -/
abbrev Config.TempBuffer (c : Config α β δ) : Type :=
  Buffer β (c.framesPerUserBuffer * c.inputChannelCount)

/-- A host buffer: its channels behind their data pointers, and the frame count. -/
structure HostBuffer (c : Config α β δ) where
  channel : c.Channel → List α
  frameCount : Nat
  size : ∀ i, (channel i).length = frameCount

/-- The data pointers advanced by some frames. -/
def HostBuffer.advance (h : HostBuffer c) (frameCount : Nat) : HostBuffer c where
  channel := fun i => (h.channel i).drop frameCount
  frameCount := h.frameCount - frameCount
  size := fun i => by rw [List.length_drop,h.size]

/-- Where a sample of a channel goes in `tempInputBuffer`, and how far the next one
of the channel is. -/
def Config.dest (c : Config α β δ) (i : c.Channel) (frame : Nat) : Nat :=
  if c.userInputIsInterleaved then frame * c.inputChannelCount + i
  else frame + i * c.framesPerUserBuffer

def Config.destSampleStride (c : Config α β δ) : Nat :=
  if c.userInputIsInterleaved then c.inputChannelCount else 1

/-- The buffer processor and the host buffers it has still to get through. The logs
hold what was supplied, taken and converted of each channel, and the buffers handed
to `streamCallback`. -/
structure State (c : Config α β δ) where
  framesInTempInputBuffer : Nat
  tempInputBuffer : c.TempBuffer
  ditherGenerator : δ
  streamCallbackResult : CallbackResult
  todo : List (HostBuffer c)
  supplied : c.Channel → List α
  taken : c.Channel → List α
  converted : c.Channel → List β
  calls : List c.TempBuffer

/-- The converter on the next frames of one channel. -/
def State.convertChannel (s : State c) (host : HostBuffer c) (frameCount : Nat) (i : c.Channel) :
    State c :=
  let samples := (host.channel i).take frameCount
  let (out,ditherGenerator) := c.inputConverter.convert samples s.ditherGenerator
  { s with
    tempInputBuffer :=
      s.tempInputBuffer.strided (c.dest i s.framesInTempInputBuffer) c.destSampleStride out
    ditherGenerator := ditherGenerator
    taken := Function.update s.taken i (s.taken i ++ samples)
    converted := Function.update s.converted i (s.converted i ++ out) }

/-- The loop over the channels. -/
def State.convertChannels (s : State c) (host : HostBuffer c) (frameCount : Nat)
    (is : List c.Channel) : State c :=
  is.foldl (fun s i => s.convertChannel host frameCount i) s

/-- `frameCount` of a turn. -/
def State.frameCount (s : State c) (host : HostBuffer c) : Nat :=
  if s.framesInTempInputBuffer + host.frameCount > c.framesPerUserBuffer then
    c.framesPerUserBuffer - s.framesInTempInputBuffer
  else host.frameCount

/-- The end of a turn: a full temporary buffer goes to the callback, unless an earlier
one has asked to stop, and is emptied. -/
def State.finish (s : State c) (ret : CallbackResult) : State c :=
  if s.framesInTempInputBuffer = c.framesPerUserBuffer then
    if s.streamCallbackResult = .paContinue then
      { s with
        framesInTempInputBuffer := 0
        streamCallbackResult := ret
        calls := s.calls ++ [s.tempInputBuffer] }
    else { s with framesInTempInputBuffer := 0 }
  else s

/-- One turn of the loop of `AdaptingInputOnlyProcess`. The loop ends with the host
buffer; an empty one gets a turn as well. -/
def State.turn (s : State c) (host : HostBuffer c) (rest : List (HostBuffer c))
    (ret : CallbackResult) : State c :=
  let n := s.frameCount host
  let s := s.convertChannels host n (List.finRange c.inputChannelCount)
  let s := { s with framesInTempInputBuffer := s.framesInTempInputBuffer + n }
  { s.finish ret with
    todo := if host.frameCount - n > 0 then host.advance n :: rest else rest }

/-- `WaspiHostProcessingLoop` begins a round with one or two host buffers; the other
action is a turn of the loop, with what the callback returns if it is called. -/
inductive Act (c : Config α β δ)
  | process (first : HostBuffer c) (second : Option (HostBuffer c))
  | turn (ret : CallbackResult)

/-- `PaUtil_EndBufferProcessing` looks at the second buffer only if it has frames. -/
def step (s : State c) : Act c → Option (State c)
  | .process first second =>
    if s.todo.isEmpty then
      let rest := second.toList.filter (fun h => h.frameCount > 0)
      some { s with
        streamCallbackResult := .paContinue
        todo := first :: rest
        supplied := fun i => s.supplied i ++ (first :: rest).flatMap (fun h => h.channel i) }
    else none
  | .turn ret =>
    match s.todo with
    | [] => none
    | host :: rest => some (s.turn host rest ret)

/-- A stream with a temporary buffer and a generator as the heap holds them. -/
def system (c : Config α β δ) (temp : c.TempBuffer) (dither : δ) :
    System (State c) (Act c) where
  init :=
    { framesInTempInputBuffer := 0
      tempInputBuffer := temp
      ditherGenerator := dither
      streamCallbackResult := .paContinue
      todo := []
      supplied := fun _ => []
      taken := fun _ => []
      converted := fun _ => []
      calls := [] }
  step := step

end WifiSpeaker.BufferProcessor
