import WifiSpeaker.Common.Multiplex
import WifiSpeaker.Server

namespace WifiSpeaker.Clients
open Common Multiplex Wire PrcessCharacter

/-- Connected clients, the byte queue their threads write into, and the task
that reads it. `line` holds what each client has still to send and everything
written so far; `decoded` lists the messages the task has got through. -/
structure State (ι : Type) where
  line : Line ι UInt8
  receiver : Receiver
  decoded : List Message

/-- A thread writes the bytes of one `recv`, or one read of the task returns. -/
inductive Act (ι : Type)
  | chunk (i : ι) (n : Nat)
  | read (readByte : Int)
  deriving DecidableEq, Repr

/-- The message a step of the task has finished: a command without a length,
the format it has stored, or the bytes it has handed to `render_samples`. -/
def finished (r r' : Receiver) : Option Message :=
  match r.task.place, r'.task.place with
  | .command, .command =>
    if neither : r'.task.tcpCommand ≠ TcpCommand.sendHeader.code ∧
        r'.task.tcpCommand ≠ TcpCommand.sendData.code then
      some (.other r'.task.tcpCommand neither)
    else none
  | .header, _ => some (.header r'.wfx)
  | .data, _ => some (.data (r'.task.buffer.bytes.take r.task.lengthData.toNat))
  | _, _ => none

variable {ι : Type} [DecidableEq ι]

/-- The whole of a chunk is one atomic write. -/
def step (s : State ι) : Act ι → Option (State ι)
  | .chunk i n =>
    if 1 ≤ n ∧ n ≤ Server.sizeofChunk ∧ n ≤ (s.line.unsent i).length then
      some { s with
        line := s.line.push i n
        receiver := { s.receiver with
          input := s.receiver.input ++ (s.line.unsent i).take n } }
    else none
  | .read readByte => do
    let r ← s.receiver.step readByte
    return { s with receiver := r, decoded := s.decoded ++ (finished s.receiver r).toList }

/-- Every client sends its own list of messages. -/
def system (junk : Task) (wfx : WaveFormatEx) (messages : ι → List Message) :
    System (State ι) (Act ι) where
  init := ⟨⟨fun i => encode (messages i),[]⟩,(receiver junk wfx []).init,[]⟩
  step := step

end WifiSpeaker.Clients
