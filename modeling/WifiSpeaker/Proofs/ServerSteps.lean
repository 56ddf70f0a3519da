import WifiSpeaker.Server

namespace WifiSpeaker.Proofs.ServerSteps
open Common Server
open DataBuffer (Ring getBufferPercent bufferWriteData writePass)

/-- Everything one step of an `audio_thread` can do. -/
inductive ThreadMove (t : AudioThread) (i : Nat) (ring : Ring) (client : Int) :
    ThreadAct → AudioThread → Ring → List Reader → List Event → Prop
  | copy (spot : t.place = .start) : ThreadMove t i ring client .copy ⟨.recv,client,0⟩ ring [] []
  | recvError (spot : t.place = .recv) :
      ThreadMove t i ring client (.recv .error) { t with place := .exit } ring []
        [.received i t.client (-1)]
  | recvBytes (spot : t.place = .recv) (data : List UInt8) (fits : data.length ≤ sizeofChunk) :
      ThreadMove t i ring client (.recv (.bytes data fits))
        { t with place := .write (bufferWriteData ring data data.length) } ring []
        [.received i t.client data.length]
  | write (spot : t.place = .write call) (pass : writePass ring call = some (ring',next,copied)) :
      ThreadMove t i ring client .write { t with place := next.elim .check .write } ring' [] []
  | checkPassed (spot : t.place = .check) (full : getBufferPercent ring > 50)
      (fresh : t.renderStatus = 0) :
      ThreadMove t i ring client .check { t with place := .create, renderStatus := 1 } ring [] []
  | checkFailed (spot : t.place = .check)
      (held : ¬ (getBufferPercent ring > 50 ∧ t.renderStatus = 0)) :
      ThreadMove t i ring client .check { t with place := .recv } ring [] []
  | create (spot : t.place = .create) (stack : Option PrcessCharacter.Task) :
      ThreadMove t i ring client (.create stack) { t with place := .recv } ring
        (stack.toList.map .created) []
  | close (spot : t.place = .exit) :
      ThreadMove t i ring client .close { t with place := .ended } ring [] [.closed i t.client]

theorem thread_move (h : AudioThread.step t i ring client act = some (t',ring',readers,events)) :
    ThreadMove t i ring client act t' ring' readers events := by
  unfold AudioThread.step at h
  split at h
  · rename_i spot
    cases h
    exact .copy spot
  · rename_i spot
    cases h
    exact .recvError spot
  · rename_i data fits spot
    cases h
    exact .recvBytes spot data fits
  · rename_i call spot
    obtain ⟨⟨ring'',next,copied⟩,pass,hr⟩ := Option.bind_eq_some_iff.mp h
    cases hr
    exact .write spot pass
  · rename_i spot
    split at h
    · rename_i hc
      cases h
      exact .checkPassed spot hc.1 hc.2
    · rename_i hc
      cases h
      exact .checkFailed spot hc
  · rename_i stack spot
    cases h
    exact .create spot stack
  · rename_i spot
    cases h
    exact .close spot
  · cases h

/-- Everything one step of the server can do. -/
inductive Move (s : State) : Act → State → Prop
  | acceptError (spot : s.listener = .accept) (negative : client < 0) :
      Move s (.accept client) { s with client := client, listener := .errorHandle }
  | accept (spot : s.listener = .accept) (descriptor : 0 ≤ client) :
      Move s (.accept client) { s with
        client := client, listener := .create, trace := s.trace ++ [.accepted client] }
  | spawn (spot : s.listener = .create) (created : Bool) :
      Move s (.spawn created) { s with
        listener := .accept, threads := s.threads ++ if created then [⟨.start,0,0⟩] else [] }
  | thread (found : s.threads[i]? = some t)
      (moved : ThreadMove t i s.ring s.client act t' ring readers events) :
      Move s (.thread i act) { s with
        ring := ring
        threads := s.threads.set i t'
        readers := s.readers ++ readers
        trace := s.trace ++ events }
  | reader (found : s.readers[k]? = some r)
      (read : Reader.step s.ring s.wfx r = some (r',ring,wfx,events)) :
      Move s (.reader k) { s with
        ring := ring
        wfx := wfx
        readers := s.readers.set k r'
        trace := s.trace ++ events.map (.reader k) }

theorem step_move (h : step s a = some s') : Move s a s' := by
  cases a with
  | accept client =>
    simp only [step,Option.ite_none_right_eq_some] at h
    obtain ⟨spot,h⟩ := h
    split at h
    · rename_i hn
      cases h
      exact .acceptError spot hn
    · rename_i hn
      cases h
      exact .accept spot (Int.not_lt.mp hn)
  | spawn created =>
    simp only [step,Option.ite_none_right_eq_some,Option.some.injEq] at h
    obtain ⟨spot,rfl⟩ := h
    exact .spawn spot created
  | thread i act =>
    obtain ⟨t,found,h⟩ := Option.bind_eq_some_iff.mp h
    obtain ⟨⟨t',ring,readers,events⟩,moved,h⟩ := Option.bind_eq_some_iff.mp h
    cases h
    exact .thread found (thread_move moved)
  | reader k =>
    obtain ⟨r,found,h⟩ := Option.bind_eq_some_iff.mp h
    obtain ⟨⟨r',ring,wfx,events⟩,read,h⟩ := Option.bind_eq_some_iff.mp h
    cases h
    exact .reader found read

end WifiSpeaker.Proofs.ServerSteps
