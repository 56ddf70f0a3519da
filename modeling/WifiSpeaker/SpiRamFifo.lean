import WifiSpeaker.Common.Cyclic
import WifiSpeaker.Common.Runs

namespace WifiSpeaker.SpiRamFifo
open Common

def spiRamSize : Nat := 128000

def spiReadSize : Nat := 64

/-- Low watermark where the reader thread is restarted. -/
def fifoLowmark : Nat := 112 * 1024

/-- The statics of `spiram_fifo.c`. A semaphore is `true` while it is available. -/
structure Fifo where
  fakespiram : List UInt8
  fifoRpos : Int
  fifoWpos : Int
  fifoFill : Int
  fifoOvfCnt : Int
  fifoUdrCnt : Int
  semCanRead : Bool
  semCanWrite : Bool
  mux : Bool
  deriving DecidableEq, Repr

/-- `vSemaphoreCreateBinary` gives the semaphore it creates. -/
def spiRamFifoInit : Fifo where
  fakespiram := List.replicate spiRamSize 0
  fifoRpos := 0
  fifoWpos := 0
  fifoFill := 0
  fifoOvfCnt := 0
  fifoUdrCnt := 0
  semCanRead := true
  semCanWrite := true
  mux := true

/-- What the threads do that the callers or the other thread can see. -/
inductive Event
  | spiRamWrite (pos n : Int) (bytes : List UInt8)
  | spiRamRead (pos n : Int) (bytes : List UInt8)
  | canRead
  | reset
  | resetDone
  | readReturns (m : Int)
  | fillReturns (ret : Int)
  deriving DecidableEq, Repr

/-- The size of the next chunk: no more than `SPIREADSIZE`, and not past the
end of the array. -/
def chunkSize (len pos : Int) : Int :=
  let n := len
  let n := if n > spiReadSize then (spiReadSize : Int) else n
  if n > spiRamSize - pos then spiRamSize - pos else n

/-- A position moved on, back to the start at the end of the array. -/
def wrap (pos : Int) : Int := if pos ≥ spiRamSize then 0 else pos

/-- The critical section of a write that has room. -/
def Fifo.store (f : Fifo) (buff : List UInt8) (n : Int) : Fifo :=
  { f with
    fakespiram := memcpy f.fakespiram f.fifoWpos.toNat (buff.take n.toNat)
    fifoFill := f.fifoFill + n
    fifoWpos := wrap (f.fifoWpos + n) }

/-- The bytes `spiRamRead` copies out. -/
def Fifo.bytes (f : Fifo) (n : Int) : List UInt8 :=
  (f.fakespiram.drop f.fifoRpos.toNat).take n.toNat

/-- The critical section of a read that finds its bytes. -/
def Fifo.load (f : Fifo) (n : Int) : Fifo :=
  { f with fifoFill := f.fifoFill - n, fifoRpos := wrap (f.fifoRpos + n) }

/-- Where a thread that calls `spiRamFifoWrite` and `spiRamFifoFill` is: at the
head of the loop, before `mux`, in the wait for `semCanWrite`, before its give
of `semCanRead`, or before `mux` in `spiRamFifoFill`. -/
inductive Writer
  | idle
  | loop (buff : List UInt8) (buffLen : Int)
  | mux (buff : List UInt8) (buffLen n : Int)
  | canWrite (buff : List UInt8) (buffLen : Int)
  | giveCanRead (buff : List UInt8) (buffLen : Int)
  | fill
  deriving DecidableEq, Repr

/-- One step of the writing thread. It has none while it waits, or between calls. -/
def Writer.step (f : Fifo) : Writer → Option (Fifo × Writer × List Event)
  | .idle => none
  | .loop buff buffLen =>
    if buffLen > 0 then some (f,.mux buff buffLen (chunkSize buffLen f.fifoWpos),[])
    else some (f,.idle,[])
  | .mux buff buffLen n =>
    if f.mux then
      if spiRamSize - f.fifoFill < n then
        some ({ f with fifoOvfCnt := f.fifoOvfCnt + 1 },.canWrite buff buffLen,[])
      else
        some (f.store buff n,.giveCanRead (buff.drop n.toNat) (buffLen - n),
          [.spiRamWrite f.fifoWpos n (buff.take n.toNat)])
    else none
  | .canWrite buff buffLen =>
    if f.semCanWrite then some ({ f with semCanWrite := false },.loop buff buffLen,[]) else none
  | .giveCanRead buff buffLen => some ({ f with semCanRead := true },.loop buff buffLen,[.canRead])
  | .fill => if f.mux then some (f,.idle,[.fillReturns f.fifoFill]) else none

/-- Where a thread that calls `spiRamFifoRead` and `spiRamFifoReset` is: at the
entry of a read, at the head of its loop, before `mux`, at the test against the
low watermark, in the wait for `semCanRead`, before its give of `semCanWrite`;
before `mux` in a reset, or in the reset's wait for `semCanRead`. -/
inductive Reader
  | idle
  | entry (len : Int)
  | loop (len m : Int)
  | mux (len m n : Int)
  | lowmark (len m : Int)
  | canRead (len m : Int)
  | giveCanWrite (len m : Int)
  | resetMux
  | resetCanRead
  deriving DecidableEq, Repr

/-- One step of the reading thread. The reset keeps `mux` over its wait; what it does up
to there (clears the positions and counters, gives `semCanWrite`, takes `mux`) is one step. -/
def Reader.step (f : Fifo) : Reader → Option (Fifo × Reader × List Event)
  | .idle => none
  | .entry len =>
    if len ≤ 0 then some (f,.idle,[.readReturns 0])
    else
      let len := if len > f.fifoFill then f.fifoFill else len
      some (f,.loop len len,[])
  | .loop len m =>
    if len > 0 then some (f,.mux len m (chunkSize len f.fifoRpos),[])
    else some (f,.idle,[.readReturns m])
  | .mux len m n =>
    if f.mux then
      if f.fifoFill < n then
        some ({ f with fifoUdrCnt := f.fifoUdrCnt + 1 },.lowmark len m,[])
      else
        some (f.load n,.giveCanWrite (len - n) m,[.spiRamRead f.fifoRpos n (f.bytes n)])
    else none
  | .lowmark len m =>
    if f.fifoFill < fifoLowmark then some (f,.canRead len m,[]) else some (f,.loop len m,[])
  | .canRead len m =>
    if f.semCanRead then some ({ f with semCanRead := false },.loop len m,[]) else none
  | .giveCanWrite len m => some ({ f with semCanWrite := true },.loop len m,[])
  | .resetMux =>
    if f.mux then
      some ({ f with
        fifoRpos := 0, fifoWpos := 0, fifoFill := 0, fifoOvfCnt := 0, fifoUdrCnt := 0,
        semCanWrite := true, mux := false },.resetCanRead,[.reset])
    else none
  | .resetCanRead =>
    if f.semCanRead then some ({ f with semCanRead := false, mux := true },.idle,[.resetDone])
    else none

/-- One writing and one reading thread. -/
structure State where
  fifo : Fifo
  writer : Writer
  reader : Reader
  trace : List Event
  deriving DecidableEq, Repr

inductive Act
  | callWrite (buff : List UInt8) (buffLen : Int)
  | callFill
  | writer
  | callRead (len : Int)
  | callReset
  | reader
  deriving DecidableEq, Repr

/-- A call starts when its thread is between calls; a buffer to be written has
at least `buffLen` bytes. -/
def step (s : State) : Act → Option State
  | .callWrite buff buffLen =>
    if s.writer = .idle ∧ buffLen ≤ buff.length then
      some { s with writer := .loop buff buffLen }
    else none
  | .callFill => if s.writer = .idle then some { s with writer := .fill } else none
  | .writer => do
    let (fifo,writer,events) ← s.writer.step s.fifo
    return { s with fifo := fifo, writer := writer, trace := s.trace ++ events }
  | .callRead len => if s.reader = .idle then some { s with reader := .entry len } else none
  | .callReset => if s.reader = .idle then some { s with reader := .resetMux } else none
  | .reader => do
    let (fifo,reader,events) ← s.reader.step s.fifo
    return { s with fifo := fifo, reader := reader, trace := s.trace ++ events }

def system : System State Act where
  init := ⟨spiRamFifoInit,.idle,.idle,[]⟩
  step := step

/-- The bytes stored and the bytes delivered since the last reset. -/
structure Account where
  stored : List UInt8
  delivered : List UInt8
  deriving DecidableEq, Repr

def Account.add (a : Account) : Event → Account
  | .spiRamWrite _ _ bytes => { a with stored := a.stored ++ bytes }
  | .spiRamRead _ _ bytes => { a with delivered := a.delivered ++ bytes }
  | .reset => ⟨[],[]⟩
  | _ => a

def account (trace : List Event) : Account := trace.foldl Account.add ⟨[],[]⟩

end WifiSpeaker.SpiRamFifo
