import Mathlib.Logic.Function.Basic
import WifiSpeaker.SpiRamFifo

namespace WifiSpeaker.Producers
open Common SpiRamFifo

variable {ι : Type} [DecidableEq ι]

/-- Any number of writing threads, one for each connection, and one reading thread. -/
structure State (ι : Type) where
  fifo : Fifo
  writers : ι → Writer
  reader : Reader
  trace : List Event

inductive Act (ι : Type)
  | callWrite (i : ι) (buff : List UInt8) (buffLen : Int)
  | callFill (i : ι)
  | writer (i : ι)
  | callRead (len : Int)
  | callReset
  | reader

def State.move (s : State ι) (i : ι) (w : Writer) : State ι :=
  { s with writers := Function.update s.writers i w }

/-- Each thread takes the steps it takes alone. -/
def step (s : State ι) : Act ι → Option (State ι)
  | .callWrite i buff buffLen =>
    if s.writers i = .idle ∧ buffLen ≤ buff.length then some (s.move i (.loop buff buffLen))
    else none
  | .callFill i => if s.writers i = .idle then some (s.move i .fill) else none
  | .writer i => do
    let (fifo,writer,events) ← (s.writers i).step s.fifo
    return { s.move i writer with fifo := fifo, trace := s.trace ++ events }
  | .callRead len => if s.reader = .idle then some { s with reader := .entry len } else none
  | .callReset => if s.reader = .idle then some { s with reader := .resetMux } else none
  | .reader => do
    let (fifo,reader,events) ← s.reader.step s.fifo
    return { s with fifo := fifo, reader := reader, trace := s.trace ++ events }

def system (ι : Type) [DecidableEq ι] : System (State ι) (Act ι) where
  init := ⟨spiRamFifoInit,fun _ => .idle,.idle,[]⟩
  step := step

end WifiSpeaker.Producers
