import WifiSpeaker.Common.Bytes

namespace WifiSpeaker.Wire
open Common

/-- `TCP_COMMAND`, the same enumeration in `tcp_perf.c` and in the sender's
`wav.h`; both compilers give it four bytes. -/
inductive TcpCommand
  | unKnow
  | sendHeader
  | sendData
  | sendAck
  deriving DecidableEq, Repr

def TcpCommand.code : TcpCommand → UInt32
  | .unKnow => 0
  | .sendHeader => 1
  | .sendData => 2
  | .sendAck => 3

/-- `WAVEFORMATEX`; the sender's `WAVEFORMATEX2` has the same fields, with
`frameIndex` in the place of `fillFullStruct`. -/
structure WaveFormatEx where
  wFormatTag : UInt16
  nChannels : UInt16
  nSamplesPerSec : UInt32
  nAvgBytesPerSec : UInt32
  nBlockAlign : UInt16
  wBitsPerSample : UInt16
  cbSize : UInt16
  fillFullStruct : UInt16
  deriving DecidableEq, Repr

/-- `sizeof(WAVEFORMATEX)`. Every field is aligned, so there is no padding. -/
def sizeofWaveFormatEx : Nat := 20

/-- The bytes of the structure in memory. -/
def WaveFormatEx.toBytes (w : WaveFormatEx) : List UInt8 :=
  le16 w.wFormatTag ++ (le16 w.nChannels ++ (le32 w.nSamplesPerSec ++ (le32 w.nAvgBytesPerSec ++
    (le16 w.nBlockAlign ++ (le16 w.wBitsPerSample ++ (le16 w.cbSize ++ le16 w.fillFullStruct))))))

/-- The structure a piece of memory holds. -/
def WaveFormatEx.ofBytes (bs : List UInt8) : WaveFormatEx where
  wFormatTag := word (bs.take 2)
  nChannels := word ((bs.drop 2).take 2)
  nSamplesPerSec := dword ((bs.drop 4).take 4)
  nAvgBytesPerSec := dword ((bs.drop 8).take 4)
  nBlockAlign := word ((bs.drop 12).take 2)
  wBitsPerSample := word ((bs.drop 14).take 2)
  cbSize := word ((bs.drop 16).take 2)
  fillFullStruct := word ((bs.drop 18).take 2)

@[simp] theorem WaveFormatEx.length_toBytes (w : WaveFormatEx) :
    w.toBytes.length = sizeofWaveFormatEx := by
  simp [WaveFormatEx.toBytes,sizeofWaveFormatEx]

theorem WaveFormatEx.ofBytes_toBytes (w : WaveFormatEx) : WaveFormatEx.ofBytes w.toBytes = w := by
  cases w
  simp [WaveFormatEx.ofBytes,WaveFormatEx.toBytes,List.drop_append,
    List.drop_of_length_le,List.take_of_length_le,word_le16,dword_le32]

/-- The structure as an object the receiver copies into. -/
def WaveFormatEx.object (w : WaveFormatEx) : Object sizeofWaveFormatEx :=
  ⟨w.toBytes,w.length_toBytes⟩

/-- One message of the protocol. -/
inductive Message
  | other (command : UInt32)
      (neither : command ≠ TcpCommand.sendHeader.code ∧ command ≠ TcpCommand.sendData.code)
  | header (wfx : WaveFormatEx)
  | data (payload : List UInt8)
  deriving DecidableEq, Repr

/-- The bytes of a message on the wire. -/
def Message.encode : Message → List UInt8
  | .other command _ => le32 command
  | .header wfx =>
    le32 TcpCommand.sendHeader.code ++ (le32 (UInt32.ofNat sizeofWaveFormatEx) ++ wfx.toBytes)
  | .data payload =>
    le32 TcpCommand.sendData.code ++ (le32 (UInt32.ofNat payload.length) ++ payload)

def encode (ms : List Message) : List UInt8 := ms.flatMap Message.encode

end WifiSpeaker.Wire
