import WifiSpeaker.I2sClock
import WifiSpeaker.RenderSamples

namespace WifiSpeaker.PrcessCharacter
open Common Wire
open I2sClock (i2sSetClk)
open RenderSamples (numSamples)

/-- The destinations `prcess_character` passes to `buffer_read_data`. -/
inductive Dest
  | tcpCommand
  | lengthData
  | wfx
  | buffer
  deriving DecidableEq, Repr

/-- `sizeof(int[4096])`. -/
def sizeofBuffer : Nat := 16384

def Dest.size : Dest → Nat
  | .tcpCommand => 4
  | .lengthData => 4
  | .wfx => sizeofWaveFormatEx
  | .buffer => sizeofBuffer

/-- The read the task is waiting in. -/
inductive Place
  | command
  | headerLength
  | header
  | dataLength
  | data
  deriving DecidableEq, Repr

/-- The locals of `prcess_character`. -/
structure Task where
  place : Place
  tcpCommand : UInt32
  lengthData : UInt32
  buffer : Object sizeofBuffer
  deriving DecidableEq, Repr

/-- A call `render_samples(buffer, length_data, &wfx)`, with the number of bytes
the read before it put into `buffer`. -/
structure RenderCall where
  buf : Object sizeofBuffer
  bufLen : UInt32
  bufDesc : WaveFormatEx
  filled : Nat
  deriving DecidableEq, Repr

/-- The `ESP_LOGE` lines of the loop with their arguments. -/
inductive Log
  | getLengthHeaderError
  | headerDataError
  | getHeaderError
  | getLengthDataError (readByte : Int)
  | dataLengthVeryLarge (readByte : Int)
  | dataLengthBelowZero (lengthData : UInt32)
  | getDataError (readByte : Int) (lengthData : Int)
  deriving DecidableEq, Repr

inductive Event
  | read (dest : Dest) (size : Int)
  | log (line : Log)
  | render (call : RenderCall)
  deriving DecidableEq, Repr

/-- The destination and size of the read the task waits in. The length, a
`DWORD`, becomes the `int` parameter of `buffer_read_data`. -/
def Task.request (t : Task) : Dest × Int :=
  match t.place with
  | .command => (.tcpCommand,4)
  | .headerLength => (.lengthData,4)
  | .dataLength => (.lengthData,4)
  | .header => (.wfx,signed t.lengthData)
  | .data => (.buffer,signed t.lengthData)

def logIf (c : Prop) [Decidable c] (line : Log) : List Event := if c then [.log line] else []

/-- `read_byte != length_data` compares as unsigned. -/
def unequal (readByte : Int) (length : UInt32) : Prop := UInt32.ofInt readByte ≠ length

instance (readByte : Int) (length : UInt32) : Decidable (unequal readByte length) :=
  inferInstanceAs (Decidable (_ ≠ _))

/-- The code from the return of one `buffer_read_data` to the next call: the
locals, the global `wfx`, and what it logs and renders on the way. -/
def Task.resume (t : Task) (wfx : WaveFormatEx) (readByte : Int) (got : List UInt8) :
    Task × WaveFormatEx × List Event :=
  match t.place with
  | .command =>
    let command := dword got
    let place :=
      if command = TcpCommand.sendHeader.code then .headerLength
      else if command = TcpCommand.sendData.code then .dataLength
      else .command
    ({ t with tcpCommand := command, place := place },wfx,[])
  | .headerLength =>
    let length := dword got
    ({ t with lengthData := length, place := .header },wfx,
      logIf (readByte ≠ 4) .getLengthHeaderError ++
      logIf (length ≠ UInt32.ofNat sizeofWaveFormatEx) .headerDataError)
  | .header =>
    ({ t with place := .command },WaveFormatEx.ofBytes (wfx.object.write got).bytes,
      logIf (unequal readByte t.lengthData) .getHeaderError)
  | .dataLength =>
    let length := dword got
    ({ t with lengthData := length, place := .data },wfx,
      logIf (readByte ≠ 4) (.getLengthDataError readByte) ++
      logIf (readByte > 4096) (.dataLengthVeryLarge readByte) ++
      logIf (length < 0) (.dataLengthBelowZero length))
  | .data =>
    let buffer := t.buffer.write got
    ({ t with buffer := buffer, place := .command },wfx,
      logIf (unequal readByte t.lengthData) (.getDataError readByte (signed t.lengthData)) ++
      [.render ⟨buffer,t.lengthData,wfx,got.length⟩])

/-- Entry of the task: the locals are whatever the stack held. -/
def prcessCharacter (junk : Task) : Task := { junk with place := .command }

/-- The three assignments to the global before the loop. -/
def defaultWfx (wfx : WaveFormatEx) : WaveFormatEx :=
  { wfx with nChannels := 2, wBitsPerSample := 16, nSamplesPerSec := 48000 }

/-- The global before any task has run: zeroed static storage. -/
def bootWfx : WaveFormatEx := ⟨0,0,0,0,0,0,0,0⟩

/-- A stack that happens to be zeroed. -/
def zeroStack : Task := ⟨.command,0,0,⟨List.replicate sizeofBuffer 0,List.length_replicate⟩⟩

/-- The task reading a byte stream: what is still to come of it, and every
read asked for, line logged and call made so far. -/
structure Receiver where
  task : Task
  wfx : WaveFormatEx
  input : List UInt8
  trace : List Event
  deriving DecidableEq, Repr

/-- The bytes a read delivers: none for a size that is not positive. -/
def Task.wants (t : Task) : Nat := t.request.2.toNat

/-- One read returns and the task goes on to the next, through `render_samples` if
it comes to that. The read waits until the stream has its bytes; the action is the
value it returns, which only the log lines look at. -/
def Receiver.step (r : Receiver) (readByte : Int) : Option Receiver :=
  if r.input.length < r.task.wants then none
  else
    let (task,wfx,events) := r.task.resume r.wfx readByte (r.input.take r.task.wants)
    some ⟨task,wfx,r.input.drop r.task.wants,
      r.trace ++ (events ++ [.read task.request.1 task.request.2])⟩

/-- The calls of `render_samples` in a trace. -/
def rendersOf (es : List Event) : List RenderCall :=
  es.filterMap (fun
    | .render call => some call
    | _ => none)

def Receiver.renders (r : Receiver) : List RenderCall := rendersOf r.trace

/-- `renderer_config->sample_rate` in `create_renderer_config`. -/
def configuredRate : UInt32 := 44100

/-- The rate `renderer_instance` remembers behind some calls: that of the last. -/
def rememberedRate (calls : List RenderCall) : UInt32 :=
  (calls.getLast?.map (fun call => call.bufDesc.nSamplesPerSec)).getD configuredRate

/-- The call never comes back. It sets a rate that is not the remembered one and
`i2s_set_clk` divides by zero over it, or it divides by its own format. -/
def RenderCall.traps (remembered : UInt32) (call : RenderCall) : Bool :=
  (remembered ≠ call.bufDesc.nSamplesPerSec &&
    i2sSetClk .dacBuiltIn call.bufDesc.nSamplesPerSec 16 = .trapped) ||
  (numSamples call.bufLen call.bufDesc).isNone

/-- The task is still in its last call of `render_samples`, for good. -/
def Receiver.trapped (r : Receiver) : Bool :=
  match r.renders.reverse with
  | [] => false
  | call :: before => call.traps (rememberedRate before.reverse)

/-- The task in a call that does not come back: the read behind it is not asked for. -/
def Receiver.inCall (r : Receiver) : Receiver := { r with trace := r.trace.dropLast }

def Receiver.settled (r : Receiver) : Receiver := if r.trapped then r.inCall else r

/-- One read returns to a task that is not stuck in `render_samples`. -/
def Receiver.next (r : Receiver) (readByte : Int) : Option Receiver :=
  if r.trapped then none else (r.step readByte).map Receiver.settled

/-- `prcess_character` on a byte stream, from any stack and any earlier `wfx`. -/
def receiver (junk : Task) (wfx : WaveFormatEx) (input : List UInt8) : System Receiver Int where
  init := ⟨prcessCharacter junk,defaultWfx wfx,input,[.read .tcpCommand 4]⟩
  step := Receiver.next

end WifiSpeaker.PrcessCharacter
