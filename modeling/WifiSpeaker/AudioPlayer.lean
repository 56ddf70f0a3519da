import WifiSpeaker.RenderAudio

namespace WifiSpeaker.AudioPlayer
open Common Wire SpiRamFifo RenderAudio
open RenderSamples (ComponentStatus)

/-- `player_command_t`. -/
inductive PlayerCommand
  | none
  | start
  | stop
  deriving DecidableEq, Repr

/-- `uint8_t fill_level = (bytes_in_buf * 100) / spiRamFifoLen()`. -/
def fillLevel (bytesInBuf : Int) : UInt8 := UInt8.ofInt ((bytesInBuf * 100).tdiv spiRamSize)

def minFillLvl : UInt8 := 50

/-- `enough_buffer` for a fill of the FIFO. -/
def enoughBuffer (bytesInBuf : Int) : Bool := fillLevel bytesInBuf > minFillLvl

/-- Where a call of `audio_stream_consumer` is: before its look at `command`, in
the branch for a stop, in `spiRamFifoWrite`, in `spiRamFifoFill`, before the test
of `decoder_status`, before `xTaskCreate`, behind it, or at the end. -/
inductive Consumer
  | idle
  | entry (recvBuf : List UInt8) (bytesRead : Int)
  | stopped
  | write (w : Writer)
  | fill
  | check (bytesInBuf : Int)
  | create (bytesInBuf : Int)
  | created (bytesInBuf : Int)
  | done (bytesInBuf : Int)
  deriving DecidableEq, Repr

/-- The `ESP_LOG` lines with their arguments. -/
inductive Log
  | errorCreating
  | startRenderAudio (fillLevel : UInt8)
  | bufferFill (fillLevel : UInt8) (bytesInBuf : Int)
  deriving DecidableEq, Repr

/-- The return of a call: its value, the fill level it computed, if it came that
far, and the number of `render_audio` tasks alive at that moment. -/
structure Return where
  value : Int
  fillLevel : Option UInt8
  alive : Nat
  deriving DecidableEq, Repr

/-- The statics of `audio_player.c`, the thread that calls `audio_stream_consumer`
and the `render_audio` tasks created so far. -/
structure State where
  shared : Shared
  t : Nat
  command : PlayerCommand
  decoderCommand : PlayerCommand
  decoderStatus : ComponentStatus
  consumer : Consumer
  tasks : List Task
  logs : List Log
  returns : List Return

/-- A call starts, another thread stops the player or stores a format, the
calling thread or a task takes a step. A new task finds some memory as its stack,
unless its creation fails. -/
inductive Act
  | call (recvBuf : List UInt8) (bytesRead : Int)
  | audioPlayerStop
  | format (wfx : WaveFormatEx)
  | consumer
  | xTaskCreate (stack : Option (Nat → UInt8))
  | task (i : Nat) (a : RenderAudio.Act)

def State.alive (s : State) : Nat := s.tasks.countP Task.alive

def State.return (s : State) (value : Int) (fillLevel : Option UInt8) : State :=
  { s with consumer := .idle, returns := s.returns ++ [⟨value,fillLevel,s.alive⟩] }

/-- One step of the calling thread outside `xTaskCreate`. -/
def State.audioStreamConsumer (s : State) : Option State :=
  match s.consumer with
  | .idle => none
  | .entry recvBuf bytesRead =>
    if s.command = .stop then some { s with consumer := .stopped }
    else if bytesRead > 0 then some { s with consumer := .write (.loop recvBuf bytesRead) }
    else some { s with consumer := .fill }
  | .stopped =>
    let s := { s with decoderCommand := .stop, command := .none }
    some (s.return (-1) none)
  | .write .idle => some { s with consumer := .fill }
  | .write w => do
    let (fifo,w',_) ← w.step s.shared.fifo
    return { s with shared := { s.shared with fifo := fifo }, consumer := .write w' }
  | .fill =>
    if s.shared.fifo.mux then some { s with consumer := .check s.shared.fifo.fifoFill } else none
  | .check bytesInBuf =>
    if s.decoderStatus ≠ .running ∧ enoughBuffer bytesInBuf then
      some { s with consumer := .create bytesInBuf }
    else some { s with consumer := .done bytesInBuf }
  | .create _ => none
  | .created bytesInBuf =>
    some { s with
      consumer := .done bytesInBuf
      decoderStatus := .running
      logs := s.logs ++ [.startRenderAudio (fillLevel bytesInBuf)] }
  | .done bytesInBuf =>
    let t := (s.t + 1) &&& 255
    let logs := if t = 1 then [.bufferFill (fillLevel bytesInBuf) bytesInBuf] else []
    let s := { s with t := t, logs := s.logs ++ logs }
    some (s.return 0 (fillLevel bytesInBuf))

def State.xTaskCreate (s : State) (stack : Option (Nat → UInt8)) : Option State :=
  match s.consumer with
  | .create bytesInBuf =>
    match stack with
    | some stack =>
      some { s with consumer := .created bytesInBuf, tasks := s.tasks ++ [renderAudio stack] }
    | none =>
      let s := { s with logs := s.logs ++ [Log.errorCreating] }
      some (s.return (-1) (fillLevel bytesInBuf))
  | _ => none

def step (s : State) : Act → Option State
  | .call recvBuf bytesRead =>
    if s.consumer = .idle ∧ bytesRead ≤ recvBuf.length then
      some { s with consumer := .entry recvBuf bytesRead }
    else none
  | .audioPlayerStop => some { s with command := .stop }
  | .format wfx => some { s with shared := { s.shared with wfx := wfx } }
  | .consumer => s.audioStreamConsumer
  | .xTaskCreate stack => s.xTaskCreate stack
  | .task i a => do
    let t ← s.tasks[i]?
    let out ← t.step s.shared a
    return { s with shared := out.shared, tasks := s.tasks.set i out.task }

/-- The player behind `spiRamFifoInit`, with any format and rate before it. -/
def system (wfx : WaveFormatEx) (sampleRate : UInt32) : System State Act where
  init := ⟨⟨spiRamFifoInit,wfx,sampleRate⟩,0,.none,.none,.uninitialized,.idle,[],[],[]⟩
  step := step

end WifiSpeaker.AudioPlayer
