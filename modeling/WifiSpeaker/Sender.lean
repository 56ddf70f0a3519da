import WifiSpeaker.Common.Runs
import WifiSpeaker.Wire

namespace WifiSpeaker.Sender
open Common Wire

/-- The fields of `UserData` the callback and the sending thread share. -/
structure UserData where
  audioData : List UInt8
  dataState : Int
  sizeBuffer : Nat
  deriving DecidableEq, Repr

/-- What PortAudio hands to one callback: `framesPerBuffer` frames of two 16-bit
samples, in one object of a 32-bit address space. -/
structure Block where
  framesPerBuffer : UInt32
  inputBuffer : List UInt8
  frames : inputBuffer.length = framesPerBuffer.toNat * 4
  addressable : inputBuffer.length < 2 ^ 32
  deriving DecidableEq, Repr

/-- The buffer as `main` allocates it, 1024 frames of four bytes, a command and
a `WAVEFORMATEX2`, with whatever the heap held. -/
structure Heap where
  bytes : List UInt8
  size : bytes.length = 1024 * 2 * 2 + 4 + sizeofWaveFormatEx
  deriving DecidableEq, Repr

/-- The callback stores a frame in the buffer and flags it; the second component
tells whether it printed `data overwrite`. The program is called with 1024 frames, which
the buffer has room for; a block of more than 1028 would go behind it. -/
def recordCallback (u : UserData) (b : Block) : UserData × Bool :=
  let tcpCommand := TcpCommand.sendData.code
  let audioData := memcpy u.audioData 0 (le32 tcpCommand)
  let overwrite := u.dataState = 1
  let dataLength := b.framesPerBuffer * 4
  let audioData := memcpy audioData 4 (le32 dataLength)
  let audioData := memcpy audioData 8 (b.inputBuffer.take dataLength.toNat)
  (⟨audioData,1,8 + dataLength.toNat⟩,overwrite)

/-- Where `threadFunctionSendData` is in its loop. -/
inductive Place
  | poll
  | send
  | clear
  deriving DecidableEq, Repr

/-- The two threads of the sender. The captured blocks, the buffers sent and
the number of `data overwrite` lines are kept for the accounting only. -/
structure State where
  uData : UserData
  thread : Place
  captured : List Block
  wire : List (List UInt8)
  reports : Nat
  deriving DecidableEq, Repr

inductive Act
  | callback (b : Block)
  | poll
  | send
  | clear
  deriving DecidableEq, Repr

def step (s : State) : Act → Option State
  | .callback b =>
    let (uData,overwrite) := recordCallback s.uData b
    some { s with
      uData := uData
      captured := s.captured ++ [b]
      reports := s.reports + if overwrite then 1 else 0 }
  | .poll =>
    if s.thread = .poll then
      some { s with thread := if s.uData.dataState = 1 then .send else .poll }
    else none
  | .send =>
    if s.thread = .send then
      some { s with
        thread := .clear, wire := s.wire ++ [s.uData.audioData.take s.uData.sizeBuffer] }
    else none
  | .clear =>
    if s.thread = .clear then
      some { s with thread := .poll, uData := { s.uData with dataState := 0 } }
    else none

/-- `size_buffer` is not assigned before the first callback. -/
def system (heap : Heap) (sizeBuffer : Nat) : System State Act where
  init := ⟨⟨heap.bytes,0,sizeBuffer⟩,.poll,[],[],0⟩
  step := step

end WifiSpeaker.Sender
