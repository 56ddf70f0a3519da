import WifiSpeaker.DataBuffer

namespace WifiSpeaker.DataBuffer
open Common

/-- How a call ends when nothing else touches the ring: it returns, or it spins
on the flag of its slot for ever. -/
inductive Ending
  | returned
  | spins
  deriving DecidableEq, Repr

/-- The loop of `buffer_write_data` alone on the ring, to its end. -/
inductive WriteEnds : Ring → WriteCall → Ring → Ending → Prop
  | returned (pass : writePass r c = some (t,none,copy)) : WriteEnds r c t .returned
  | spins (pass : writePass r c = none) : WriteEnds r c r .spins
  | more (pass : writePass r c = some (r₁,some c₁,copy)) (rest : WriteEnds r₁ c₁ t e) :
      WriteEnds r c t e

/-- The loop of `buffer_read_data` alone on the ring, to its end, with the bytes
it stored in the caller's buffer. -/
inductive ReadEnds : Ring → ReadCall → Ring → List UInt8 → Ending → Prop
  | returned (pass : readPass r d = some (t,.inr value,copy)) :
      ReadEnds r d t (copy.toList.flatMap Copy.bytes) .returned
  | spins (pass : readPass r d = none) : ReadEnds r d r [] .spins
  | more (pass : readPass r d = some (r₁,.inl d₁,copy)) (rest : ReadEnds r₁ d₁ t bytes e) :
      ReadEnds r d t (copy.toList.flatMap Copy.bytes ++ bytes) e

/-- `buffer_write_data(data, size)` where `size` is the length of the data. -/
def Writes (r : Ring) (data : List UInt8) : Ring → Ending → Prop :=
  WriteEnds r (bufferWriteData r data data.length)

/-- `buffer_read_data(data, size)`. -/
def Reads (r : Ring) (size : Nat) : Ring → List UInt8 → Ending → Prop :=
  ReadEnds r (bufferReadData r size)

/-- Two writes in a row. The second one starts only if the first returns. -/
def WritesTwo (r : Ring) (a b : List UInt8) (t : Ring) (e : Ending) : Prop :=
  (Writes r a t .spins ∧ e = .spins) ∨ ∃ m, Writes r a m .returned ∧ Writes m b t e

/-- Two reads in a row into adjacent parts of one buffer. -/
def ReadsTwo (r : Ring) (m n : Nat) (t : Ring) (bytes : List UInt8) (e : Ending) : Prop :=
  (Reads r m t bytes .spins ∧ e = .spins) ∨
    ∃ u first rest, Reads r m u first .returned ∧ Reads u n t rest e ∧ bytes = first ++ rest

/-- A call of `buffer_read_data` and the copies it has made. -/
structure ReadLog where
  size : Int
  copies : List Copy
  deriving DecidableEq, Repr

/-- What the call has stored in the caller's buffer. -/
def ReadLog.stored (l : ReadLog) : List UInt8 := l.copies.flatMap Copy.bytes

/-- A call that returned, with its return value. -/
structure Return where
  call : ReadLog
  value : Int
  deriving DecidableEq, Repr

/-- The two tasks on the ring with a record of the read calls. -/
structure Recorded where
  base : State
  call : ReadLog
  returns : List Return

/-- The record follows the reader: a call opens an entry, a pass adds its copy,
and a return closes it. -/
def record (s : Recorded) (t : State) : Act → Recorded
  | .callRead size => { s with base := t, call := ⟨size,[]⟩ }
  | .passRead =>
    match s.base.reader.bind (readPass s.base.ring) with
    | some (_,.inl _,copy) =>
      { s with base := t, call := { s.call with copies := s.call.copies ++ copy.toList } }
    | some (_,.inr value,copy) =>
      let call := { s.call with copies := s.call.copies ++ copy.toList }
      ⟨t,call,s.returns ++ [⟨call,value⟩]⟩
    | none => { s with base := t }
  | _ => { s with base := t }

def recorded : System Recorded Act where
  init := ⟨system.init,⟨0,[]⟩,[]⟩
  step s a := (step s.base a).map (fun t => record s t a)

end WifiSpeaker.DataBuffer
