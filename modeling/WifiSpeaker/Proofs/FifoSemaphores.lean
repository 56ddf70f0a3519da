import WifiSpeaker.Proofs.QueueAnswers
import WifiSpeaker.Semaphores

namespace WifiSpeaker.Proofs.FifoSemaphores
open Common FreeRtosQueue SpiRamFifo Semaphores

/-- A queue of one place without bytes, and whether it is given. -/
structure Given (q : QueueT 0) (given : Bool) : Prop where
  holds : ∃ k, QueueAnswers.Holds q k (List.replicate given.toNat ⟨[],rfl⟩)
  length : q.uxLength = 1

theorem Given.take (h : Given q true) : ∃ r, xSemaphoreTake q = some r ∧ Given r false := by
  obtain ⟨k,hk⟩ := h.holds
  change QueueAnswers.Holds q k [⟨[],rfl⟩] at hk
  obtain ⟨r,hr,hnext⟩ := hk.receive
  have hlength := QueueAnswers.step_length q .receive
  simp only [FreeRtosQueue.step,QueueT.received,hr] at hlength
  exact ⟨r,by rw [xSemaphoreTake,hr]; rfl,hnext,hlength.trans h.length⟩

theorem Given.wait (h : Given q false) : xSemaphoreTake q = none := by
  obtain ⟨k,hk⟩ := h.holds
  have hnone : xQueueGenericReceive q false = none := if_neg (by simp [hk.count])
  rw [xSemaphoreTake,hnone]
  rfl

theorem Given.give (h : Given q given) : Given (xSemaphoreGive q) true := by
  obtain ⟨k,hk⟩ := h.holds
  have hnext := (QueueAnswers.step_agrees (r := .sendToBack ⟨[],rfl⟩) nofun hk).2
  refine ⟨?_,(QueueAnswers.step_length q (.sendToBack ⟨[],rfl⟩)).trans h.length⟩
  rw [h.length] at hnext
  cases given <;> exact hnext

theorem created_given (heap : Heap 1 0) : Given (created heap) true := by
  have hempty : Given (xQueueGenericCreate heap) false :=
    ⟨⟨0,QueueAnswers.create_holds heap Nat.one_pos⟩,rfl⟩
  exact hempty.give

/-- The port over `queue.c` and the port over flags are in the same state. -/
structure Shows (p : Port) (s : State) : Prop where
  base : p.base = { s with fifo := allSet s.fifo }
  canRead : Given p.semCanRead s.fifo.semCanRead
  canWrite : Given p.semCanWrite s.fifo.semCanWrite
  mux : Given p.mux s.fifo.mux

section
variable {p : Port} {s : State}

/-- `mux` is free before and behind a critical section. -/
theorem locked (h : Given p.mux true) :
    ∃ mux, p.takeMux.map Port.giveMux = some { p with mux := mux } ∧ Given mux true := by
  obtain ⟨mux,hm,hg⟩ := h.take
  exact ⟨xSemaphoreGive mux,by rw [Port.takeMux,hm]; rfl,hg.give⟩

theorem waits (h : Given p.mux false) : p.takeMux = none := by
  rw [Port.takeMux,h.wait]
  rfl

theorem writer_shows (h : Shows p s) :
    Option.Rel Shows (Semaphores.step p .writer) (SpiRamFifo.step s .writer) := by
  obtain ⟨base,canRead,canWrite,mux⟩ := p
  obtain ⟨f,w,r,trace⟩ := s
  obtain rfl := h.base
  cases w with
  | idle => exact .none
  | loop buff len =>
    simp only [Semaphores.step,Port.writerCalls,Port.goesOn,SpiRamFifo.step,Writer.step,
      Option.bind_some]
    split_ifs
    · exact .some ⟨rfl,h.canRead,h.canWrite,h.mux⟩
    · exact .some ⟨rfl,h.canRead,h.canWrite,h.mux⟩
  | mux buff len n =>
    simp only [Semaphores.step,Port.writerCalls,SpiRamFifo.step,Writer.step]
    cases hf : f.mux with
    | false =>
      rw [waits (by simpa [hf] using h.mux)]
      exact .none
    | true =>
      obtain ⟨mux',hm,hg⟩ := locked (p := ⟨_,canRead,canWrite,mux⟩) (by simpa [hf] using h.mux)
      rw [hm]
      simp only [Port.goesOn,SpiRamFifo.step,Writer.step,Option.bind_some,allSet,if_true]
      split_ifs
      · exact Option.Rel.some (Shows.mk rfl h.canRead h.canWrite hg)
      · exact Option.Rel.some (Shows.mk rfl h.canRead h.canWrite (hf ▸ hg))
  | canWrite buff len =>
    simp only [Semaphores.step,Port.writerCalls,SpiRamFifo.step,Writer.step,Port.takeCanWrite]
    cases hf : f.semCanWrite with
    | false =>
      rw [Given.wait (by simpa [hf] using h.canWrite)]
      exact .none
    | true =>
      obtain ⟨canWrite',hm,hg⟩ := Given.take (q := canWrite) (by simpa [hf] using h.canWrite)
      rw [hm]
      exact .some ⟨rfl,h.canRead,hg,h.mux⟩
  | giveCanRead buff len => exact .some ⟨rfl,h.canRead.give,h.canWrite,h.mux⟩
  | fill =>
    simp only [Semaphores.step,Port.writerCalls,SpiRamFifo.step,Writer.step]
    cases hf : f.mux with
    | false =>
      rw [waits (by simpa [hf] using h.mux)]
      exact .none
    | true =>
      obtain ⟨mux',hm,hg⟩ := locked (p := ⟨_,canRead,canWrite,mux⟩) (by simpa [hf] using h.mux)
      rw [hm]
      exact .some ⟨rfl,h.canRead,h.canWrite,hf ▸ hg⟩

theorem reader_shows (h : Shows p s) :
    Option.Rel Shows (Semaphores.step p .reader) (SpiRamFifo.step s .reader) := by
  obtain ⟨base,canRead,canWrite,mux⟩ := p
  obtain ⟨f,w,r,trace⟩ := s
  obtain rfl := h.base
  cases r with
  | idle => exact .none
  | entry len =>
    simp only [Semaphores.step,Port.readerCalls,Port.goesOn,SpiRamFifo.step,Reader.step,
      Option.bind_some,allSet]
    split_ifs
    · exact Option.Rel.some (Shows.mk rfl h.canRead h.canWrite h.mux)
    · exact Option.Rel.some (Shows.mk rfl h.canRead h.canWrite h.mux)
    · exact Option.Rel.some (Shows.mk rfl h.canRead h.canWrite h.mux)
  | loop len m =>
    simp only [Semaphores.step,Port.readerCalls,Port.goesOn,SpiRamFifo.step,Reader.step,
      Option.bind_some]
    split_ifs
    · exact .some ⟨rfl,h.canRead,h.canWrite,h.mux⟩
    · exact .some ⟨rfl,h.canRead,h.canWrite,h.mux⟩
  | mux len m n =>
    simp only [Semaphores.step,Port.readerCalls,SpiRamFifo.step,Reader.step]
    cases hf : f.mux with
    | false =>
      rw [waits (by simpa [hf] using h.mux)]
      exact .none
    | true =>
      obtain ⟨mux',hm,hg⟩ := locked (p := ⟨_,canRead,canWrite,mux⟩) (by simpa [hf] using h.mux)
      rw [hm]
      simp only [Port.goesOn,SpiRamFifo.step,Reader.step,Option.bind_some,allSet,if_true]
      split_ifs
      · exact Option.Rel.some (Shows.mk rfl h.canRead h.canWrite hg)
      · exact Option.Rel.some (Shows.mk rfl h.canRead h.canWrite (hf ▸ hg))
  | lowmark len m =>
    simp only [Semaphores.step,Port.readerCalls,Port.goesOn,SpiRamFifo.step,Reader.step,
      Option.bind_some,allSet]
    split_ifs
    · exact Option.Rel.some (Shows.mk rfl h.canRead h.canWrite h.mux)
    · exact Option.Rel.some (Shows.mk rfl h.canRead h.canWrite h.mux)
  | canRead len m =>
    simp only [Semaphores.step,Port.readerCalls,SpiRamFifo.step,Reader.step,Port.takeCanRead]
    cases hf : f.semCanRead with
    | false =>
      rw [Given.wait (by simpa [hf] using h.canRead)]
      exact .none
    | true =>
      obtain ⟨canRead',hm,hg⟩ := Given.take (q := canRead) (by simpa [hf] using h.canRead)
      rw [hm]
      exact .some ⟨rfl,hg,h.canWrite,h.mux⟩
  | giveCanWrite len m => exact .some ⟨rfl,h.canRead,h.canWrite.give,h.mux⟩
  | resetMux =>
    simp only [Semaphores.step,Port.readerCalls,SpiRamFifo.step,Reader.step]
    cases hf : f.mux with
    | false =>
      rw [waits (by simpa [hf] using h.mux)]
      exact .none
    | true =>
      obtain ⟨mux',hm,hg⟩ := Given.take (q := mux) (by simpa [hf] using h.mux)
      simp only [Port.takeMux,hm]
      exact .some ⟨rfl,h.canRead,h.canWrite.give,hg⟩
  | resetCanRead =>
    simp only [Semaphores.step,Port.readerCalls,SpiRamFifo.step,Reader.step,Port.takeCanRead]
    cases hf : f.semCanRead with
    | false =>
      rw [Given.wait (by simpa [hf] using h.canRead)]
      exact .none
    | true =>
      obtain ⟨canRead',hm,hg⟩ := Given.take (q := canRead) (by simpa [hf] using h.canRead)
      rw [hm]
      exact .some ⟨rfl,hg,h.canWrite,h.mux.give⟩

/-- A call starts. -/
theorem Shows.start (h : Shows p s) (w : Writer) (r : Reader) :
    Shows { p with base := { p.base with fifo := allSet p.base.fifo, writer := w, reader := r } }
      { s with writer := w, reader := r } := by
  refine ⟨?_,h.canRead,h.canWrite,h.mux⟩
  simp only [h.base]
  rfl

/-- Both take an action, or neither does. -/
theorem step_shows (h : Shows p s) (a : Act) :
    Option.Rel Shows (Semaphores.step p a) (SpiRamFifo.step s a) := by
  have hwriter : p.base.writer = s.writer := by rw [h.base]
  have hreader : p.base.reader = s.reader := by rw [h.base]
  cases a with
  | writer => exact writer_shows h
  | reader => exact reader_shows h
  | callWrite buff buffLen =>
    simp only [Semaphores.step,Port.goesOn,SpiRamFifo.step,hwriter]
    split_ifs
    · exact .some (hreader ▸ h.start (.loop buff buffLen) s.reader)
    · exact .none
  | callFill =>
    simp only [Semaphores.step,Port.goesOn,SpiRamFifo.step,hwriter]
    split_ifs
    · exact .some (hreader ▸ h.start .fill s.reader)
    · exact .none
  | callRead len =>
    simp only [Semaphores.step,Port.goesOn,SpiRamFifo.step,hreader]
    split_ifs
    · exact .some (hwriter ▸ h.start s.writer (.entry len))
    · exact .none
  | callReset =>
    simp only [Semaphores.step,Port.goesOn,SpiRamFifo.step,hreader]
    split_ifs
    · exact .some (hwriter ▸ h.start s.writer .resetMux)
    · exact .none

end

/-- The FIFO over flags and the FIFO over the semaphores of `queue.c` have the same
runs, which end in states that show one another. -/
theorem same_runs (canRead canWrite mux : Heap 1 0) (acts : List Act) :
    (∀ p, (Semaphores.system canRead canWrite mux).Run (fun _ _ => True) acts p →
      ∃ s, SpiRamFifo.system.Run (fun _ _ => True) acts s ∧ Shows p s) ∧
    ∀ s, SpiRamFifo.system.Run (fun _ _ => True) acts s →
      ∃ p, (Semaphores.system canRead canWrite mux).Run (fun _ _ => True) acts p ∧ Shows p s := by
  have hinit : Shows (Semaphores.system canRead canWrite mux).init SpiRamFifo.system.init :=
    ⟨rfl,created_given canRead,created_given canWrite,created_given mux⟩
  constructor
  · intro p hr
    exact hr.lockstep hinit (fun _ _ a h => step_shows h a) (fun _ _ _ _ _ => trivial)
  · intro s hr
    exact hr.lockstep (R := fun s p => Shows p s) hinit
      (fun _ _ a h => System.rel_swap (step_shows h a)) (fun _ _ _ _ _ => trivial)

end WifiSpeaker.Proofs.FifoSemaphores
