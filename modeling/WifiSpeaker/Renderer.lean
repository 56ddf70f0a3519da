import WifiSpeaker.RenderSamples

namespace WifiSpeaker.Renderer
open Common Wire
open RenderSamples (ComponentStatus Place Push)

def espOk : Int := 0

def espFail : Int := -1

/-- The arguments of a call of `render_samples`. -/
structure Call where
  buf : Nat → UInt8
  bufLen : UInt32
  bufDesc : WaveFormatEx

/-- The rate the hardware is at: that of the last `i2s_set_sample_rates` that
returned `ESP_OK`. -/
def hardwareRate (rates : List (UInt32 × Int)) : Option UInt32 :=
  ((rates.filter (fun call => call.2 = espOk)).getLast?).map Prod.fst

/-- A word handed to the driver, with the rate of the hardware and the rate the
renderer remembers at that moment. -/
structure Played where
  hardware : Option UInt32
  remembered : UInt32
  push : Push
  deriving DecidableEq, Repr

/-- The statics of `audio_render.c` and the call under way. The logs hold the
calls of `i2s_set_sample_rates` with their results and the words pushed. -/
structure State where
  rendererStatus : ComponentStatus
  sampleRate : UInt32
  call : Option (Call × Place)
  rates : List (UInt32 × Int)
  played : List Played

/-- `renderer_init`; the last argument is what `i2s_set_sample_rates` returns. -/
def rendererInit (sampleRate : UInt32) (ret : Int) : State where
  rendererStatus := .initialized
  sampleRate := sampleRate
  call := none
  rates := [(sampleRate,ret)]
  played := []

/-- A call begins, or goes on with a result of the driver. -/
inductive Act
  | renderSamples (c : Call)
  | enter (ret : Int)
  | turn (bytesPushed : Int)

/-- The step of a call that an action stands for. Nothing but `renderer_init`
sets the status. -/
def State.act (s : State) : Act → Option RenderSamples.Act
  | .renderSamples _ => none
  | .enter ret => some (.enter ret)
  | .turn bytesPushed => some (.turn s.rendererStatus bytesPushed)

/-- What a step of `render_samples` has left behind. -/
def State.after (s : State) (c : Call) (r : RenderSamples.State) : State :=
  { s with
    sampleRate := r.sampleRate
    call := if r.place = .returned then none else some (c,r.place)
    rates := s.rates ++ r.rates
    played := s.played ++ r.pushes.map (⟨hardwareRate s.rates,s.sampleRate,·⟩) }

def step (s : State) : Act → Option State
  | .renderSamples c => if s.call.isNone then some { s with call := some (c,.entry) } else none
  | a => do
    let (c,place) ← s.call
    let r ← RenderSamples.step c.buf c.bufLen c.bufDesc ⟨s.sampleRate,place,[],[],[]⟩ (← s.act a)
    return s.after c r

/-- Any calls of `render_samples`, one after the other, behind a `renderer_init`
that set its rate. -/
def system (sampleRate : UInt32) : System State Act where
  init := rendererInit sampleRate espOk
  step := step

end WifiSpeaker.Renderer
