import WifiSpeaker.Clients

namespace WifiSpeaker.MTSClient
open Common Wire PrcessCharacter Clients

def dataLength : Nat := 5120

/-- `sizeof(wav_hdr)`. -/
def sizeofWavHdr : Nat := 44

/-- `sizeof(buffer)` in `_tmain`. -/
def sizeofBuffer : Nat := dataLength + 5

/-- The fields of `wav_hdr` that `_tmain` uses. -/
structure WavHdr where
  audioFormat : UInt16
  numOfChan : UInt16
  samplesPerSec : UInt32
  bytesPerSec : UInt32
  blockAlign : UInt16
  bitsPerSample : UInt16
  deriving DecidableEq, Repr

/-- The fields at their offsets. -/
def WavHdr.ofBytes (bs : List UInt8) : WavHdr where
  audioFormat := word ((bs.drop 20).take 2)
  numOfChan := word ((bs.drop 22).take 2)
  samplesPerSec := dword ((bs.drop 24).take 4)
  bytesPerSec := dword ((bs.drop 28).take 4)
  blockAlign := word ((bs.drop 32).take 2)
  bitsPerSample := word ((bs.drop 34).take 2)

/-- What the locals of `_tmain` hold before it assigns them. -/
structure Junk where
  wavHeader : Object sizeofWavHdr
  fillFullStruct : UInt16
  buffer : Object sizeofBuffer
  deriving DecidableEq, Repr

/-- The assignments to `wfx`; `fillFullStruct` gets none. -/
def wfxOf (wavHeader : WavHdr) (fillFullStruct : UInt16) : WaveFormatEx where
  wFormatTag := wavHeader.audioFormat
  nChannels := wavHeader.numOfChan
  nSamplesPerSec := wavHeader.samplesPerSec
  nAvgBytesPerSec := wavHeader.bytesPerSec
  nBlockAlign := wavHeader.blockAlign
  wBitsPerSample := wavHeader.bitsPerSample
  cbSize := 0
  fillFullStruct := fillFullStruct

/-- `buffer[0] = command`: a command takes one byte here. -/
def command (c : TcpCommand) : List UInt8 := [c.code.toUInt8]

/-- The buffer and the length of the header message. -/
def headerMessage (buffer : List UInt8) (wfx : WaveFormatEx) : List UInt8 × Nat :=
  let buffer := memcpy buffer 0 (command .sendHeader)
  let temp := UInt32.ofNat sizeofWaveFormatEx
  let buffer := memcpy buffer 1 (le32 temp)
  let buffer := memcpy buffer 5 wfx.toBytes
  (buffer,sizeofWaveFormatEx + 5)

/-- The buffer and the length of the message for a block that `ReadFile` put
behind the first five bytes. A short block is followed by a `memset` that starts
at `buffer + readBytes`. -/
def dataMessage (buffer : List UInt8) (readBytes : Nat) : List UInt8 × Nat :=
  let buffer := memcpy buffer 1 (le32 (UInt32.ofNat readBytes))
  let buffer :=
    if readBytes < dataLength then
      memcpy buffer readBytes (List.replicate (sizeofBuffer - readBytes) 0)
    else buffer
  (buffer,readBytes + 5)

/-- Where `_tmain` is: before the header message, in the wait for its ACK, at
the head of the playback loop, in the wait for the ACK of a block, or behind. -/
inductive Place
  | header
  | ackHeader
  | read
  | ackData
  | done
  deriving DecidableEq, Repr

/-- `_tmain` once it is connected: what is left of the file, the blocks read from
it, and the buffers sent. -/
structure State where
  place : Place
  wfx : WaveFormatEx
  buffer : List UInt8
  file : List UInt8
  blocks : List (List UInt8)
  sent : List (List UInt8)
  deriving DecidableEq, Repr

/-- What the socket and the file contribute to a step: the bytes of one `recv`
and the number of bytes of one `ReadFile`, if it succeeds. -/
inductive Act
  | send
  | recv (bytes : List UInt8)
  | readFile (readBytes : Option Nat)
  deriving DecidableEq, Repr

/-- Both waits leave at the first `recv` behind which the buffer starts with an ACK. -/
def State.recv (s : State) (bytes : List UInt8) : State :=
  let buffer := memcpy s.buffer 0 bytes
  if buffer.take 1 = command .sendAck then { s with buffer := buffer, place := .read }
  else { s with buffer := buffer }

/-- A message goes out whole, and `buffer[0]` is cleared for the wait. -/
def State.send (s : State) (message : List UInt8 × Nat) (next : Place) : State :=
  { s with
    place := next
    buffer := memcpy message.1 0 [0]
    sent := s.sent ++ [message.1.take message.2] }

/-- The body of the playback loop up to its `send`. -/
def State.play (s : State) (readBytes : Nat) : State :=
  let block := s.file.take readBytes
  let buffer := memcpy s.buffer 0 (command .sendData)
  let buffer := memcpy buffer 5 block
  let s := { s with file := s.file.drop readBytes }
  if readBytes = 0 then { s with buffer := buffer, place := .done }
  else { s with blocks := s.blocks ++ [block] }.send (dataMessage buffer readBytes) .ackData

def step (s : State) : Act → Option State
  | .send =>
    match s.place with
    | .header => some (s.send (headerMessage s.buffer s.wfx) .ackHeader)
    | _ => none
  | .recv bytes =>
    if (s.place = .ackHeader ∨ s.place = .ackData) ∧ bytes.length ≤ 512 then some (s.recv bytes)
    else none
  | .readFile none =>
    if s.place = .read then
      some { s with buffer := memcpy s.buffer 0 (command .sendData), place := .done }
    else none
  | .readFile (some readBytes) =>
    if s.place = .read ∧ readBytes ≤ dataLength ∧ readBytes ≤ s.file.length then
      some (s.play readBytes)
    else none

/-- `_tmain` on a file, from whatever the stack held. -/
def tmain (file : List UInt8) (junk : Junk) : System State Act where
  init :=
    let wavHeader := WavHdr.ofBytes (junk.wavHeader.write (file.take sizeofWavHdr)).bytes
    ⟨.header,wfxOf wavHeader junk.fillFullStruct,junk.buffer.bytes,file.drop sizeofWavHdr,[],[]⟩
  step := step

/-- `prcess_character` on a byte stream and the messages it has got through. -/
structure Decoding where
  receiver : Receiver
  decoded : List Message
  deriving DecidableEq, Repr

def decoder (stack : Task) (wfx : WaveFormatEx) (input : List UInt8) : System Decoding Int where
  init := ⟨(receiver stack wfx input).init,[]⟩
  step s readByte := (s.receiver.step readByte).map (fun r =>
    ⟨r,s.decoded ++ (finished s.receiver r).toList⟩)

end WifiSpeaker.MTSClient
