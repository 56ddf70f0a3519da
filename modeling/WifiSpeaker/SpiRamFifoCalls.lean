import WifiSpeaker.SpiRamFifo

namespace WifiSpeaker.SpiRamFifo
open Common

/-- A call of `spiRamFifoRead`: its argument, what the FIFO held when the call
clamped it, and what the call has stored in `buff`. -/
structure ReadCall where
  len : Int
  fifoFill : Int
  oldest : List UInt8
  buff : List UInt8
  deriving DecidableEq, Repr

def ReadCall.clamp (f : Fifo) (len : Int) : ReadCall :=
  ⟨len,f.fifoFill,window f.fakespiram f.fifoRpos.toNat f.fifoFill.toNat,[]⟩

/-- A call that returned, with its return value. -/
structure ReadReturn where
  call : ReadCall
  m : Int
  deriving DecidableEq, Repr

/-- The two threads with the local `n` of `spiRamFifoWrite` and a record of the
read calls. -/
structure Recorded where
  base : State
  n : Int
  call : ReadCall
  returns : List ReadReturn
  deriving DecidableEq, Repr

/-- The record follows the threads: `n` is assigned at the head of the loop; a
read opens its entry where it clamps, adds what it copies, and closes the entry
when it returns. -/
def record (s : Recorded) (t : State) : Act → Recorded
  | .writer =>
    match t.writer with
    | .mux _ _ n => { s with base := t, n := n }
    | _ => { s with base := t }
  | .reader =>
    let call :=
      match s.base.reader with
      | .entry len => ReadCall.clamp s.base.fifo len
      | _ => s.call
    match s.base.reader.step s.base.fifo with
    | some (_,_,[.spiRamRead _ _ bytes]) =>
      { s with base := t, call := { call with buff := call.buff ++ bytes } }
    | some (_,_,[.readReturns m]) =>
      { s with base := t, call := call, returns := s.returns ++ [⟨call,m⟩] }
    | _ => { s with base := t, call := call }
  | _ => { s with base := t }

def recorded : System Recorded Act where
  init := ⟨system.init,0,⟨0,0,[],[]⟩,[]⟩
  step s a := (step s.base a).map (fun t => record s t a)

end WifiSpeaker.SpiRamFifo
