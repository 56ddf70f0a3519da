import WifiSpeaker.I2s
import WifiSpeaker.PrcessCharacter
import WifiSpeaker.Renderer

namespace WifiSpeaker.Speaker
open Common Wire PrcessCharacter
open I2sClock (i2sSetClk)
open Renderer (espOk espFail)

theorem dac_count : 2 ≤ 32 ∧ 32 ≤ 128 := by decide

theorem dac_len : 8 ≤ 64 ∧ 64 ≤ 1024 := by decide

theorem dac_bits : 16 % 8 = 0 ∧ 16 ≤ 16 ∧ 16 ≤ 32 := by decide

/-- The port `init_i2s` installs: 32 buffers of 64 stereo samples of 16 bits. -/
def dac : I2s.Config where
  dmaBufCount := 32
  dmaBufLen := 64
  bitsPerSample := 16
  channelNum := I2s.ChannelFmt.rightLeft.channelNum
  count := dac_count
  len := dac_len
  bits := dac_bits
  channels := .inr rfl

example : I2s.i2sDriverInstall 32 64 16 .rightLeft = some dac := rfl

/-- The speaker: the task in `prcess_character`, the renderer with the call of
`render_samples` that task is in, and the port. -/
structure State where
  receiver : Receiver
  renderer : Renderer.State
  port : I2s.State dac

/-- The task goes on behind a read, into `render_samples` or through a turn of its
loop; the DMA and the interrupt of the port take a step. -/
inductive Act
  | read (readByte : Int)
  | enter
  | turn
  | fetch
  | interrupt
  | isrDrop
  | isrSend
  | isrClear
  deriving DecidableEq, Repr

/-- A call as the renderer sees it, with the memory behind the buffer. -/
def argument (beyond : Nat → UInt8) (call : RenderCall) : Renderer.Call where
  buf := fun k => (call.buf.bytes[k]?).getD (beyond k)
  bufLen := call.bufLen
  bufDesc := call.bufDesc

/-- The rate the call at its entry sets. -/
def State.newRate (s : State) : Option UInt32 :=
  match s.renderer.call with
  | some (c,.entry) =>
    if s.renderer.sampleRate = c.bufDesc.nSamplesPerSec then none
    else some c.bufDesc.nSamplesPerSec
  | _ => none

/-- The sample the next turn of the loop hands to `i2s_push_sample`. -/
def State.word (s : State) : Option (Object dac.sampleSize) :=
  match s.renderer.call with
  | some (c,.loop l) => if l.more then some ⟨le32 (l.push c.buf 0).sample,length_le32 _⟩ else none
  | _ => none

/-- What an action asks of the port. -/
def State.portAct (s : State) : Act → Option (I2s.Act dac)
  | .read _ => none
  | .enter =>
    match s.newRate.map (i2sSetClk .dacBuiltIn · 16) with
    | some (.started _) => some .setClk
    | _ => none
  | .turn => s.word.map .pushSample
  | .fetch => some .fetch
  | .interrupt => some .interrupt
  | .isrDrop => some .isrDrop
  | .isrSend => some .isrSend
  | .isrClear => some .isrClear

/-- The task and the renderer. A read returns when no call is under way, and may
begin one; the results of the driver go back into the call. -/
def State.task (s : State) (beyond : Nat → UInt8) : Act → Option (Receiver × Renderer.State)
  | .read readByte => do
    if s.renderer.call.isSome then none else
    let receiver ← s.receiver.step readByte
    match receiver.renders.drop s.receiver.renders.length with
    | [] => return (receiver,s.renderer)
    | call :: _ =>
      return (receiver,← Renderer.step s.renderer (.renderSamples (argument beyond call)))
  | .enter =>
    match s.newRate.map (i2sSetClk .dacBuiltIn · 16) with
    | some .refused => do return (s.receiver,← Renderer.step s.renderer (.enter espFail))
    | some .trapped =>
      some (s.receiver,{ s.renderer with call := s.renderer.call.map (fun c => (c.1,.trapped)) })
    | _ => do return (s.receiver,← Renderer.step s.renderer (.enter espOk))
  | .turn => do
    let bytesPushed := (s.word.map (fun w => (I2s.i2sPushSample s.port w).2)).getD 0
    return (s.receiver,← Renderer.step s.renderer (.turn bytesPushed))
  | _ => some (s.receiver,s.renderer)

def State.portStep (s : State) (a : Act) : Option (I2s.State dac) :=
  match s.portAct a with
  | none => some s.port
  | some b => I2s.step s.port b

def step (beyond : Nat → UInt8) (s : State) (a : Act) : Option State := do
  let port ← s.portStep a
  let (receiver,renderer) ← s.task beyond a
  return ⟨receiver,renderer,port⟩

/-- The speaker behind `renderer_init`, with a byte stream to come. -/
def speaker (junk : Task) (wfx : WaveFormatEx) (beyond : Nat → UInt8) (sampleRate : UInt32)
    (input : List UInt8) : System State Act where
  init := ⟨(receiver junk wfx input).init,Renderer.rendererInit sampleRate espOk,
    (I2s.system dac).init⟩
  step := step beyond

end WifiSpeaker.Speaker
