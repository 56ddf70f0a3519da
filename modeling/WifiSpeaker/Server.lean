import WifiSpeaker.DataBuffer
import WifiSpeaker.PrcessCharacter

namespace WifiSpeaker.Server
open Common Wire
open DataBuffer (Ring WriteCall ReadCall boot initDataBuffer getBufferPercent bufferWriteData
  bufferReadData writePass readPass)
open PrcessCharacter (Task prcessCharacter defaultWfx bootWfx)

/-- `sizeof(buffer)` in `audio_thread`. -/
def sizeofChunk : Nat := 1024

/-- What `recv` comes back with: −1, or the bytes it put into the buffer. No
bytes at all is the orderly close of the peer. -/
inductive RecvResult
  | error
  | bytes (data : List UInt8) (fits : data.length ≤ sizeofChunk)
  deriving DecidableEq, Repr

def RecvResult.lengthReceive : RecvResult → Int
  | .error => -1
  | .bytes data _ => data.length

/-- Where an `audio_thread` task is. -/
inductive Place
  | start
  | recv
  | write (call : WriteCall)
  | check
  | create
  | exit
  | ended
  deriving DecidableEq, Repr

/-- The frame of an `audio_thread` task. -/
structure AudioThread where
  place : Place
  client : Int
  renderStatus : Int
  deriving DecidableEq, Repr

/-- A `prcess_character` task: created and not yet run, or inside one of its
reads with the bytes that read has delivered. It has no end. -/
inductive Reader
  | created (stack : Task)
  | reading (task : Task) (call : ReadCall) (got : List UInt8)
  deriving DecidableEq, Repr

/-- Where `listen_tcp_server` is; `error_handle` does not return. -/
inductive Listener
  | accept
  | create
  | errorHandle
  deriving DecidableEq, Repr

/-- What the sockets and the reader tasks see. -/
inductive Event
  | accepted (client : Int)
  | received (thread : Nat) (client : Int) (lengthReceive : Int)
  | closed (thread : Nat) (client : Int)
  | reader (k : Nat) (event : PrcessCharacter.Event)
  deriving DecidableEq, Repr

/-- The server. `client` is the one variable of the accept loop that every new
task is handed the address of. -/
structure State where
  ring : Ring
  wfx : WaveFormatEx
  listener : Listener
  client : Int
  threads : List AudioThread
  readers : List Reader
  trace : List Event

/-- The steps of an `audio_thread`. The results of `recv` and of `xTaskCreate`
are up to the network and the heap; a task that is created gets some stack. -/
inductive ThreadAct
  | copy
  | recv (result : RecvResult)
  | write
  | check
  | create (stack : Option Task)
  | close
  deriving DecidableEq, Repr

inductive Act
  | accept (client : Int)
  | spawn (created : Bool)
  | thread (i : Nat) (act : ThreadAct)
  | reader (k : Nat)
  deriving DecidableEq, Repr

/-- One step of an `audio_thread`: its frame, the ring, the reader it creates
and what the socket sees. -/
def AudioThread.step (t : AudioThread) (i : Nat) (ring : Ring) (client : Int) (act : ThreadAct) :
    Option (AudioThread × Ring × List Reader × List Event) :=
  match t.place, act with
  | .start, .copy => some (⟨.recv,client,0⟩,ring,[],[])
  | .recv, .recv .error =>
    some ({ t with place := .exit },ring,[],[.received i t.client (-1)])
  | .recv, .recv (.bytes data fits) =>
    let lengthReceive := (RecvResult.bytes data fits).lengthReceive
    some ({ t with place := .write (bufferWriteData ring data lengthReceive) },ring,[],
      [.received i t.client lengthReceive])
  | .write call, .write => do
    let (ring,next,_) ← writePass ring call
    return ({ t with place := next.elim .check .write },ring,[],[])
  | .check, .check =>
    if getBufferPercent ring > 50 ∧ t.renderStatus = 0 then
      some ({ t with place := .create, renderStatus := 1 },ring,[],[])
    else some ({ t with place := .recv },ring,[],[])
  | .create, .create stack =>
    some ({ t with place := .recv },ring,stack.toList.map .created,[])
  | .exit, .close => some ({ t with place := .ended },ring,[],[.closed i t.client])
  | _, _ => none

/-- One step of a `prcess_character`: its entry, or one pass of the read it is
in, and behind the last pass the code up to the next read. -/
def Reader.step (ring : Ring) (wfx : WaveFormatEx) :
    Reader → Option (Reader × Ring × WaveFormatEx × List PrcessCharacter.Event)
  | .created stack =>
    let task := prcessCharacter stack
    let (dest,size) := task.request
    some (.reading task (bufferReadData ring size) [],ring,defaultWfx wfx,[.read dest size])
  | .reading task call got => do
    let (ring,next,copy) ← readPass ring call
    let got := got ++ copy.elim [] DataBuffer.Copy.bytes
    match next with
    | .inl call => return (.reading task call got,ring,wfx,[])
    | .inr readByte =>
      let (task,wfx,events) := task.resume wfx readByte got
      let (dest,size) := task.request
      return (.reading task (bufferReadData ring size) [],ring,wfx,events ++ [.read dest size])

def step (s : State) : Act → Option State
  | .accept client =>
    if s.listener = .accept then
      if client < 0 then some { s with client := client, listener := .errorHandle }
      else some { s with
        client := client, listener := .create, trace := s.trace ++ [.accepted client] }
    else none
  | .spawn created =>
    if s.listener = .create then
      some { s with
        listener := .accept
        threads := s.threads ++ if created then [⟨.start,0,0⟩] else [] }
    else none
  | .thread i act => do
    let t ← s.threads[i]?
    let (t,ring,readers,events) ← t.step i s.ring s.client act
    return { s with
      ring := ring
      threads := s.threads.set i t
      readers := s.readers ++ readers
      trace := s.trace ++ events }
  | .reader k => do
    let r ← s.readers[k]?
    let (r,ring,wfx,events) ← r.step s.ring s.wfx
    return { s with
      ring := ring
      wfx := wfx
      readers := s.readers.set k r
      trace := s.trace ++ events.map (.reader k) }

/-- The server once `app_main` has started `listen_tcp_server`. -/
def system : System State Act where
  init := ⟨initDataBuffer boot,bootWfx,.accept,0,[],[],[]⟩
  step := step

end WifiSpeaker.Server
