import WifiSpeaker.I2sQueue
import WifiSpeaker.Proofs.I2sOrder
import WifiSpeaker.Proofs.QueueAnswers

namespace WifiSpeaker.Proofs.FreeBuffers
open Common FreeRtosQueue I2s I2sQueue QueueAnswers

section
variable {c : Config} {l : Layout c} {p : Port c} {s : I2s.State c}

/-- The port over `queue.c` and the port over a list are in the same state, and the
storage holds the addresses of the list's buffers. -/
structure Shows (l : Layout c) (p : Port c) (s : I2s.State c) : Prop where
  base : p.base = { s with queue := [] }
  holds : ∃ k, Holds p.queue k (s.queue.map l.buf)
  length : p.queue.uxLength = c.queueLength

theorem bufferAt_buf (l : Layout c) (d : c.Desc) : l.bufferAt (l.buf d).bytes = some d := by
  have hfound : (l.bufferAt (l.buf d).bytes).isSome := by
    rw [Layout.bufferAt,List.find?_isSome]
    exact ⟨d,List.mem_finRange d,by simp⟩
  obtain ⟨e,he⟩ := Option.isSome_iff_exists.mp hfound
  have hbytes : (l.buf e).bytes = (l.buf d).bytes := by
    simpa using List.find?_some he
  have hbuf : l.buf e = l.buf d := by
    cases hx : l.buf e
    cases hy : l.buf d
    rw [hx,hy] at hbytes
    cases hbytes
    rfl
  rw [he,l.distinct hbuf]

theorem Shows.full (h : Shows l p s) :
    xQueueIsQueueFullFromISR p.queue = decide (s.queue.length = c.queueLength) := by
  obtain ⟨k,hk⟩ := h.holds
  rw [xQueueIsQueueFullFromISR,hk.count,h.length,List.length_map]

theorem Shows.empty (h : Shows l p s) (hq : s.queue = []) :
    xQueueGenericReceive p.queue false = none := by
  obtain ⟨k,hk⟩ := h.holds
  rw [hq] at hk
  exact if_neg (by simp [hk.count])

/-- The oldest buffer is received. -/
theorem Shows.receive (h : Shows l p s) (hq : s.queue = ptr :: rest) :
    ∃ next, xQueueGenericReceive p.queue false = some ((l.buf ptr).bytes,next) ∧
      (∃ k, Holds next k (rest.map l.buf)) ∧ next.uxLength = c.queueLength := by
  obtain ⟨k,hk⟩ := h.holds
  rw [hq] at hk
  obtain ⟨next,hs,hnext⟩ := hk.receive
  have hlength := step_length p.queue .receive
  simp only [FreeRtosQueue.step,QueueT.received,hs] at hlength
  exact ⟨next,hs,hnext,hlength.trans h.length⟩

/-- A change that neither looks at the queue nor touches it. -/
theorem Shows.change (h : Shows l p s) {f : I2s.State c → I2s.State c}
    (hf : ∀ queue, f { s with queue := queue } = { f s with queue := queue }) :
    Shows l { p with base := f p.base } (f s) := by
  have hqueue := congrArg I2s.State.queue (hf s.queue)
  change (f s).queue = s.queue at hqueue
  refine ⟨?_,?_,h.length⟩
  · rw [h.base,hf]
  · rw [hqueue]
    exact h.holds

theorem Shows.enter (h : Shows l p s) (isr : Isr c) :
    Shows l (p.enter isr) { s with isr := isr } :=
  h.change (f := fun s => { s with isr := isr }) (fun _ => rfl)

theorem Shows.await (h : Shows l p s) (writing : Option (List UInt8)) :
    Shows l (p.await writing) { s with writing := writing } :=
  h.change (f := fun s => { s with writing := writing }) (fun _ => rfl)

theorem Shows.store (h : Shows l p s) (bytes : List UInt8) :
    Shows l (p.store bytes) (s.store bytes) := by
  apply h.change (f := fun s => s.store bytes)
  intro queue
  cases hc : s.currPtr <;> simp only [State.store,hc]

theorem Shows.fetch (h : Shows l p s) : Shows l { p with base := p.base.fetch } s.fetch := by
  apply h.change
  intro queue
  simp only [State.fetch]
  split_ifs <;> rfl

theorem Shows.acquire (h : Shows l p s) : Option.Rel (Shows l) (p.acquire l) s.acquire := by
  have hrest : (p.base.rwPos = c.bufSize ∨ p.base.currPtr = none) =
      (s.rwPos = c.bufSize ∨ s.currPtr = none) := by
    rw [h.base]
  unfold Port.acquire State.acquire
  simp only [hrest]
  split_ifs
  · cases hq : s.queue with
    | nil =>
      rw [h.empty hq]
      exact .none
    | cons ptr rest =>
      obtain ⟨next,hs,hnext,hlength⟩ := h.receive hq
      rw [hs]
      refine .some ⟨?_,hnext,hlength⟩
      simp only [bufferAt_buf,h.base]
  · exact .some h

theorem Shows.push (h : Shows l p s) (sample : Object c.sampleSize) :
    Shows l (p.i2sPushSample l sample).1 (i2sPushSample s sample).1 ∧
      (p.i2sPushSample l sample).2 = (i2sPushSample s sample).2 := by
  have hboth := h.acquire
  unfold Port.i2sPushSample i2sPushSample
  generalize p.acquire l = x at hboth ⊢
  generalize s.acquire = y at hboth ⊢
  cases hboth with
  | none => exact ⟨h,rfl⟩
  | some h => exact ⟨h.store sample.bytes,rfl⟩

theorem Shows.writePass (h : Shows l p s) (src : List UInt8) :
    Shows l (p.writePass l src) (s.writePass src) := by
  have hboth := h.acquire
  unfold Port.writePass State.writePass
  split_ifs
  · generalize p.acquire l = x at hboth ⊢
    generalize s.acquire = y at hboth ⊢
    cases hboth with
    | none => exact h.await none
    | @some p' s' h =>
      have hpos : p'.base.rwPos = s'.rwPos := by rw [h.base]
      simp only [hpos]
      exact (h.store _).await _
  · exact h.await none

/-- A call of the queue with the same call of the list. -/
theorem Shows.call (h : Shows l p s) (r : Request (Object 4)) (isr : Isr c)
    (hq : (boundedStep c.queueLength (s.queue.map l.buf) r).2 = queue.map l.buf) :
    Shows l { p.enter isr with queue := (FreeRtosQueue.step p.queue r).2 }
      { s with isr := isr, queue := queue } := by
  obtain ⟨k,hk⟩ := h.holds
  have hnext := (step_agrees (r := r) (fun _ _ => by decide) hk).2
  rw [h.length,hq] at hnext
  refine ⟨?_,hnext,(step_length p.queue r).trans h.length⟩
  simp only [Port.enter,h.base]

theorem Shows.isrDrop (h : Shows l p s) (isr : Isr c) :
    Shows l { p.enter isr with queue := (p.queue.received false).2 }
      { s with isr := isr, queue := s.queue.tail } := by
  apply h.call .receive
  cases s.queue <;> rfl

theorem Shows.isrSend (h : Shows l p s) (isr : Isr c) (finishDesc : c.Desc) :
    Shows l { p.enter isr with queue := (p.queue.sent (l.buf finishDesc) .sendToBack).2 }
      { s with
        isr := isr
        queue := if s.queue.length < c.queueLength then s.queue ++ [finishDesc] else s.queue } := by
  apply h.call (.sendToBack (l.buf finishDesc))
  simp only [boundedStep,List.length_map]
  split_ifs
  · rw [List.map_append,List.map_singleton]
  · rfl

/-- Both take an action, or neither does. -/
theorem step_shows (h : Shows l p s) (a : Act c) :
    Option.Rel (Shows l) (step l p a) (I2s.step s a) := by
  have hwriting : p.base.writing = s.writing := by rw [h.base]
  have hisr : p.base.isr = s.isr := by rw [h.base]
  have hout : p.base.outEof = s.outEof := by rw [h.base]
  cases a with
  | pushSample sample =>
    simp only [I2sQueue.step,I2s.step,hwriting]
    split_ifs
    · exact .some (h.push sample).1
    · exact .none
  | writePass =>
    simp only [I2sQueue.step,I2s.step,hwriting]
    cases s.writing with
    | none => exact .none
    | some src => exact .some (h.writePass src)
  | interrupt =>
    simp only [I2sQueue.step,I2s.step,hisr,hout,h.full,decide_eq_true_eq]
    cases hi : s.isr with
    | idle =>
      cases he : s.outEof with
      | none => exact .none
      | some finishDesc =>
        simp only [← he]
        split_ifs
        · exact .some (h.enter (.drop finishDesc))
        · exact .some (h.enter (.send finishDesc))
    | drop | send | clear => exact .none
  | isrDrop =>
    simp only [I2sQueue.step,I2s.step,hisr]
    cases s.isr with
    | drop finishDesc => exact .some (h.isrDrop (.send finishDesc))
    | idle | send | clear => exact .none
  | isrSend =>
    simp only [I2sQueue.step,I2s.step,hisr]
    cases s.isr with
    | send finishDesc => exact .some (h.isrSend .clear finishDesc)
    | idle | drop | clear => exact .none
  -- the rest does not look at the queue
  | writeBytes src =>
    simp only [I2sQueue.step,I2s.step,hwriting]
    split_ifs
    · exact .some (h.await (some src))
    · exact .none
  | fetch => exact .some h.fetch
  | isrClear =>
    simp only [I2sQueue.step,I2s.step,hisr]
    cases s.isr with
    | clear =>
      exact .some (h.change (f := fun s => { s with isr := .idle, outEof := none }) (fun _ => rfl))
    | idle | drop | send => exact .none
  | setClk =>
    have hidle : (p.base.isr = .idle ∧ p.base.writing.isNone) =
        (s.isr = .idle ∧ s.writing.isNone) := by rw [hisr,hwriting]
    simp only [I2sQueue.step,I2s.step,hidle]
    split_ifs
    · exact .some (h.change (f := fun s =>
        { s with desc := c.first, offset := 0, outEof := none, fetched := [] }) (fun _ => rfl))
    · exact .none

theorem init_shows (l : Layout c) (heap : Heap c.queueLength 4) :
    Shows l (I2sQueue.system l heap).init (I2s.system c).init :=
  ⟨rfl,⟨_,create_holds heap (I2sOrder.queueLength_pos c)⟩,rfl⟩

/-- The port over the list of buffers and the port over the storage of `queue.c`
have the same runs, which end in states that show one another. -/
theorem same_runs (l : Layout c) (heap : Heap c.queueLength 4) (acts : List (Act c)) :
    (∀ p, (I2sQueue.system l heap).Run (fun _ _ => True) acts p →
      ∃ s, (I2s.system c).Run (fun _ _ => True) acts s ∧ Shows l p s) ∧
    ∀ s, (I2s.system c).Run (fun _ _ => True) acts s →
      ∃ p, (I2sQueue.system l heap).Run (fun _ _ => True) acts p ∧ Shows l p s := by
  constructor
  · intro p hr
    exact hr.lockstep (init_shows l heap) (fun _ _ a h => step_shows h a)
      (fun _ _ _ _ _ => trivial)
  · intro s hr
    exact hr.lockstep (R := fun s p => Shows l p s) (init_shows l heap)
      (fun _ _ a h => System.rel_swap (step_shows h a)) (fun _ _ _ _ _ => trivial)

/-- In time, of a port over `queue.c`. -/
def InTime (l : Layout c) (p : Port c) : Act c → Prop
  | .pushSample _ => ∀ u ∈ p.acquire l, I2sOrder.Apart u.base
  | .writePass => ∀ u ∈ p.acquire l, I2sOrder.Apart u.base
  | a => I2sOrder.InTime p.base a

theorem Shows.apart (h : Shows l p s) (ha : ∀ u ∈ p.acquire l, I2sOrder.Apart u.base) :
    ∀ u ∈ s.acquire, I2sOrder.Apart u := by
  intro u hu
  have hboth := h.acquire
  rw [Option.mem_def.mp hu] at hboth
  generalize hp : p.acquire l = x at hboth
  cases hboth with
  | @some q _ hshows =>
    have hapart := ha q hp
    rw [hshows.base] at hapart
    exact hapart

theorem Shows.inTime (h : Shows l p s) (hc : InTime l p a) : I2sOrder.InTime s a := by
  cases a with
  | pushSample => exact h.apart hc
  | writePass => exact h.apart hc
  | writeBytes => exact hc
  | fetch =>
    change I2sOrder.InTime p.base .fetch at hc
    rw [h.base] at hc
    exact hc
  | setClk =>
    change I2sOrder.InTime p.base .setClk at hc
    rw [h.base] at hc
    exact hc
  | interrupt | isrDrop | isrSend | isrClear => trivial

/-- Over the storage of `queue.c` too, every state of a run in time is one of those
whose buffers are played in order. -/
theorem run_in_order {heap : Heap c.queueLength 4}
    (hr : (I2sQueue.system l heap).Run (InTime l) acts p) :
    ∃ s, (I2s.system c).Run I2sOrder.InTime acts s ∧ Shows l p s ∧
      ∃ h due, I2sOrder.Ordered s h due := by
  have htime : ∀ p s a, Shows l p s → InTime l p a → I2sOrder.InTime s a := by
    intro p s a h hc
    exact h.inTime hc
  obtain ⟨s,hs,hshows⟩ := hr.lockstep (init_shows l heap) (fun _ _ a h => step_shows h a) htime
  exact ⟨s,hs,hshows,I2sOrder.run_ordered hs⟩

end

end WifiSpeaker.Proofs.FreeBuffers
