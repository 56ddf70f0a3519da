import WifiSpeaker.SpiRamFifo

namespace WifiSpeaker.Proofs.FifoSteps
open Common SpiRamFifo

/-- Everything one step of the writing thread can do. -/
inductive WriterMove (f : Fifo) : Writer → Fifo → Writer → List Event → Prop
  | size (more : 0 < buffLen) :
      WriterMove f (.loop buff buffLen) f (.mux buff buffLen (chunkSize buffLen f.fifoWpos)) []
  | returns (done : buffLen ≤ 0) : WriterMove f (.loop buff buffLen) f .idle []
  | full (free : f.mux = true) (lacks : spiRamSize - f.fifoFill < n) :
      WriterMove f (.mux buff buffLen n) { f with fifoOvfCnt := f.fifoOvfCnt + 1 }
        (.canWrite buff buffLen) []
  | store (free : f.mux = true) (room : n ≤ spiRamSize - f.fifoFill) :
      WriterMove f (.mux buff buffLen n) (f.store buff n)
        (.giveCanRead (buff.drop n.toNat) (buffLen - n))
        [.spiRamWrite f.fifoWpos n (buff.take n.toNat)]
  | woken (given : f.semCanWrite = true) :
      WriterMove f (.canWrite buff buffLen) { f with semCanWrite := false } (.loop buff buffLen) []
  | give :
      WriterMove f (.giveCanRead buff buffLen) { f with semCanRead := true } (.loop buff buffLen)
        [.canRead]
  | fill (free : f.mux = true) : WriterMove f .fill f .idle [.fillReturns f.fifoFill]

theorem writer_move (h : Writer.step f w = some (f',w',events)) : WriterMove f w f' w' events := by
  unfold Writer.step at h
  split at h
  · cases h
  · split at h
    · rename_i hmore
      cases h
      exact .size hmore
    · rename_i hdone
      cases h
      exact .returns (Int.not_lt.mp hdone)
  · split at h
    · rename_i hfree
      split at h
      · rename_i hlacks
        cases h
        exact .full hfree hlacks
      · rename_i hroom
        cases h
        exact .store hfree (Int.not_lt.mp hroom)
    · cases h
  · split at h
    · rename_i hgiven
      cases h
      exact .woken hgiven
    · cases h
  · cases h
    exact .give
  · split at h
    · rename_i hfree
      cases h
      exact .fill hfree
    · cases h

/-- The statics behind the critical section of a reset. -/
def cleared (f : Fifo) : Fifo :=
  { f with
    fifoRpos := 0, fifoWpos := 0, fifoFill := 0, fifoOvfCnt := 0, fifoUdrCnt := 0,
    semCanWrite := true, mux := false }

/-- Everything one step of the reading thread can do. -/
inductive ReaderMove (f : Fifo) : Reader → Fifo → Reader → List Event → Prop
  | nothing (none : len ≤ 0) : ReaderMove f (.entry len) f .idle [.readReturns 0]
  | clamp (some : 0 < len) :
      ReaderMove f (.entry len) f (.loop (min len f.fifoFill) (min len f.fifoFill)) []
  | size (more : 0 < len) : ReaderMove f (.loop len m) f (.mux len m (chunkSize len f.fifoRpos)) []
  | returns (done : len ≤ 0) : ReaderMove f (.loop len m) f .idle [.readReturns m]
  | short (free : f.mux = true) (lacks : f.fifoFill < n) :
      ReaderMove f (.mux len m n) { f with fifoUdrCnt := f.fifoUdrCnt + 1 } (.lowmark len m) []
  | load (free : f.mux = true) (there : n ≤ f.fifoFill) :
      ReaderMove f (.mux len m n) (f.load n) (.giveCanWrite (len - n) m)
        [.spiRamRead f.fifoRpos n (f.bytes n)]
  | low (under : f.fifoFill < fifoLowmark) : ReaderMove f (.lowmark len m) f (.canRead len m) []
  | high (above : fifoLowmark ≤ f.fifoFill) : ReaderMove f (.lowmark len m) f (.loop len m) []
  | woken (given : f.semCanRead = true) :
      ReaderMove f (.canRead len m) { f with semCanRead := false } (.loop len m) []
  | give : ReaderMove f (.giveCanWrite len m) { f with semCanWrite := true } (.loop len m) []
  | reset (free : f.mux = true) : ReaderMove f .resetMux (cleared f) .resetCanRead [.reset]
  | resetDone (given : f.semCanRead = true) :
      ReaderMove f .resetCanRead { f with semCanRead := false, mux := true } .idle [.resetDone]

theorem reader_move (h : Reader.step f r = some (f',r',events)) : ReaderMove f r f' r' events := by
  unfold Reader.step at h
  split at h
  · cases h
  · rename_i len
    split at h
    · rename_i hnone
      cases h
      exact .nothing hnone
    · rename_i hsome
      have hmin : (if len > f.fifoFill then f.fifoFill else len) = min len f.fifoFill := by
        split <;> omega
      simp only [hmin] at h
      cases h
      exact .clamp (Int.not_le.mp hsome)
  · split at h
    · rename_i hmore
      cases h
      exact .size hmore
    · rename_i hdone
      cases h
      exact .returns (Int.not_lt.mp hdone)
  · split at h
    · rename_i hfree
      split at h
      · rename_i hlacks
        cases h
        exact .short hfree hlacks
      · rename_i hthere
        cases h
        exact .load hfree (Int.not_lt.mp hthere)
    · cases h
  · split at h
    · rename_i hunder
      cases h
      exact .low hunder
    · rename_i habove
      cases h
      exact .high (Int.not_lt.mp habove)
  · split at h
    · rename_i hgiven
      cases h
      exact .woken hgiven
    · cases h
  · cases h
    exact .give
  · split at h
    · rename_i hfree
      cases h
      exact .reset hfree
    · cases h
  · split at h
    · rename_i hgiven
      cases h
      exact .resetDone hgiven
    · cases h

/-- Everything one step of the two threads can do. -/
inductive ThreadsMove (s : State) : Act → State → Prop
  | callWrite (idle : s.writer = .idle) (fits : buffLen ≤ buff.length) :
      ThreadsMove s (.callWrite buff buffLen) { s with writer := .loop buff buffLen }
  | callFill (idle : s.writer = .idle) : ThreadsMove s .callFill { s with writer := .fill }
  | writer (move : WriterMove s.fifo s.writer f' w' events) :
      ThreadsMove s .writer ⟨f',w',s.reader,s.trace ++ events⟩
  | callRead (idle : s.reader = .idle) :
      ThreadsMove s (.callRead len) { s with reader := .entry len }
  | callReset (idle : s.reader = .idle) : ThreadsMove s .callReset { s with reader := .resetMux }
  | reader (move : ReaderMove s.fifo s.reader f' r' events) :
      ThreadsMove s .reader ⟨f',s.writer,r',s.trace ++ events⟩

theorem threads_move (h : step s a = some t) : ThreadsMove s a t := by
  cases a with
  | callWrite buff buffLen =>
    simp only [step,Option.ite_none_right_eq_some,Option.some.injEq] at h
    obtain ⟨⟨hidle,hfits⟩,rfl⟩ := h
    exact .callWrite hidle hfits
  | callFill =>
    simp only [step,Option.ite_none_right_eq_some,Option.some.injEq] at h
    obtain ⟨hidle,rfl⟩ := h
    exact .callFill hidle
  | callRead len =>
    simp only [step,Option.ite_none_right_eq_some,Option.some.injEq] at h
    obtain ⟨hidle,rfl⟩ := h
    exact .callRead hidle
  | callReset =>
    simp only [step,Option.ite_none_right_eq_some,Option.some.injEq] at h
    obtain ⟨hidle,rfl⟩ := h
    exact .callReset hidle
  | writer =>
    obtain ⟨⟨f',w',events⟩,hstep,h⟩ := Option.bind_eq_some_iff.mp h
    cases h
    exact .writer (writer_move hstep)
  | reader =>
    obtain ⟨⟨f',r',events⟩,hstep,h⟩ := Option.bind_eq_some_iff.mp h
    cases h
    exact .reader (reader_move hstep)

theorem WriterMove.takes (h : WriterMove f w f' w' events) : w.step f = some (f',w',events) := by
  cases h with
  | size more => simp [Writer.step,more]
  | returns done => simp [Writer.step,Int.not_lt.mpr done]
  | full free lacks => simp [Writer.step,free,lacks]
  | store free room => simp [Writer.step,free,Int.not_lt.mpr room]
  | woken given => simp [Writer.step,given]
  | give => rfl
  | fill free => simp [Writer.step,free]

theorem ReaderMove.takes (h : ReaderMove f r f' r' events) : r.step f = some (f',r',events) := by
  cases h with
  | nothing hnone => simp [Reader.step,hnone]
  | @clamp len hsome =>
    have hmin : (if len > f.fifoFill then f.fifoFill else len) = min len f.fifoFill := by
      split <;> omega
    simp [Reader.step,Int.not_le.mpr hsome,hmin]
  | size more => simp [Reader.step,more]
  | returns done => simp [Reader.step,Int.not_lt.mpr done]
  | short free lacks => simp [Reader.step,free,lacks]
  | load free there => simp [Reader.step,free,Int.not_lt.mpr there]
  | low under => simp [Reader.step,under]
  | high above => simp [Reader.step,Int.not_lt.mpr above]
  | woken given => simp [Reader.step,given]
  | give => rfl
  | reset free =>
    simp [Reader.step,free]
    rfl
  | resetDone given => simp [Reader.step,given]

/-- A chunk of full size, away from the end of the array. -/
theorem chunkSize_whole {len pos : Int} (hlen : 64 ≤ len) (hpos : pos + 64 ≤ spiRamSize) :
    chunkSize len pos = 64 := by
  simp only [chunkSize,spiReadSize]
  split_ifs <;> omega

theorem wrap_inside {pos : Int} (h : pos < spiRamSize) : wrap pos = pos := if_neg (Int.not_le.mpr h)

end WifiSpeaker.Proofs.FifoSteps
