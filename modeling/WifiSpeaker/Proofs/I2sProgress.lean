import WifiSpeaker.Proofs.I2sRestart

namespace WifiSpeaker.Proofs.I2sProgress
open Common I2s I2sStores I2sOrder

section
variable {c : Config} {s t u : State c} {a : Act c} {b : c.Desc} {h : Nat} {due : List Nat}

/-- A step of the DMA or of the interrupt. -/
def Hardware (a : Act c) : Prop :=
  a = .fetch ∨ a = .interrupt ∨ a = .isrDrop ∨ a = .isrSend ∨ a = .isrClear

theorem Hardware.idle (ha : Hardware a) : Idle a := by
  rcases ha with rfl | rfl | rfl | rfl | rfl <;> simp [Idle]

/-- The side of the task is as it was. -/
structure Untouched (s t : State c) : Prop where
  rwPos : t.rwPos = s.rwPos
  currPtr : t.currPtr = s.currPtr
  writing : t.writing = s.writing
  pushed : t.pushed = s.pushed

/-- The interrupt leaves the DMA where it is, too. -/
theorem isr_untouched (ha : a = .interrupt ∨ a = .isrDrop ∨ a = .isrSend ∨ a = .isrClear)
    (hstep : step s a = some t) : Untouched s t ∧ t.desc = s.desc := by
  obtain rfl | rfl | rfl | rfl := ha
  · simp only [step] at hstep
    split at hstep
    · split_ifs at hstep
      · cases hstep
        exact ⟨⟨rfl,rfl,rfl,rfl⟩,rfl⟩
      · cases hstep
        exact ⟨⟨rfl,rfl,rfl,rfl⟩,rfl⟩
    · cases hstep
  · simp only [step] at hstep
    split at hstep
    · cases hstep
      exact ⟨⟨rfl,rfl,rfl,rfl⟩,rfl⟩
    · cases hstep
  · simp only [step] at hstep
    split at hstep
    · cases hstep
      exact ⟨⟨rfl,rfl,rfl,rfl⟩,rfl⟩
    · cases hstep
  · simp only [step] at hstep
    split at hstep
    · cases hstep
      exact ⟨⟨rfl,rfl,rfl,rfl⟩,rfl⟩
    · cases hstep

theorem hardware_untouched (ha : Hardware a) (hstep : step s a = some t) : Untouched s t := by
  rcases ha with rfl | ha
  · cases hstep
    unfold State.fetch
    split_ifs
    · exact ⟨rfl,rfl,rfl,rfl⟩
    · exact ⟨rfl,rfl,rfl,rfl⟩
  · exact (isr_untouched ha hstep).1

/-- The hardware moves, and in time. -/
def Drives (s : State c) (a : Act c) : Prop := Hardware a ∧ InTime s a

/-- What the hardware can do while the task waits: the port stays in order with the
numbers of the buffers taken, and the task finds its side as it was. -/
structure Serves (s t : State c) : Prop where
  steps : (system c).StepsUnder Drives s t
  ordered : ∀ h due, Ordered s h due → ∃ h, Ordered t h due
  untouched : Untouched s t

theorem Serves.refl (s : State c) : Serves s s := ⟨.refl s,fun h _ ho => ⟨h,ho⟩,⟨rfl,rfl,rfl,rfl⟩⟩

theorem Serves.one (hstep : step s a = some t) (ht : Drives s a) : Serves s t := by
  refine ⟨.one ht hstep,?_,hardware_untouched ht.1 hstep⟩
  intro n due ho
  obtain ⟨m,due',hm,hsame⟩ := move_ordered ht.2 ho (step_move hstep)
  exact ⟨m,hsame ht.1.idle ▸ hm⟩

theorem Serves.trans (h : Serves s t) (h' : Serves t u) : Serves s u := by
  refine ⟨h.steps.trans h'.steps,?_,?_⟩
  · intro n due ho
    obtain ⟨m,hm⟩ := h.ordered n due ho
    exact h'.ordered m due hm
  · obtain ⟨hpos,hptr,hwriting,hpushed⟩ := h'.untouched
    exact ⟨hpos.trans h.untouched.rwPos,hptr.trans h.untouched.currPtr,
      hwriting.trans h.untouched.writing,hpushed.trans h.untouched.pushed⟩

/-- The interrupt is over, and the DMA is where it was. -/
structure Quiet (s t : State c) : Prop where
  serves : Serves s t
  outEof : t.outEof = none
  desc : t.desc = s.desc
  played : t.played = s.played

theorem clear_served (hi : s.isr = .clear) : ∃ t, Quiet s t ∧ t.queue = s.queue := by
  have hstep : step s .isrClear = some { s with isr := .idle, outEof := none } := by
    simp only [step,hi]
  exact ⟨_,⟨.one hstep ⟨by simp [Hardware],trivial⟩,rfl,rfl,rfl⟩,rfl⟩

/-- The finished buffer goes into the queue. -/
theorem send_served (hr : Ring s h) (hi : s.isr = .send b) : ∃ t, Quiet s t ∧ t.queue ≠ [] := by
  obtain ⟨_,hroom⟩ := hr.send b hi
  have hlen := hr.length
  have hlow := hr.low
  have hstep : step s .isrSend = some { s with isr := .clear, queue := s.queue ++ [b] } := by
    simp only [step,hi]
    rw [if_pos (by omega)]
  obtain ⟨t,⟨hserves,heof,hdesc,hplayed⟩,hqueue⟩ :=
    clear_served (s := { s with isr := .clear, queue := s.queue ++ [b] }) rfl
  refine ⟨t,⟨(Serves.one hstep ⟨by simp [Hardware],trivial⟩).trans hserves,heof,hdesc,hplayed⟩,?_⟩
  rw [hqueue]
  exact List.append_ne_nil_of_right_ne_nil _ (List.cons_ne_nil b [])

theorem drop_served (hr : Ring s h) (hi : s.isr = .drop b) : ∃ t, Quiet s t ∧ t.queue ≠ [] := by
  have hstep : step s .isrDrop = some { s with isr := .send b, queue := s.queue.tail } := by
    simp only [step,hi]
  obtain ⟨_,_,hring⟩ := hr.isrDrop hi
  obtain ⟨t,⟨hserves,heof,hdesc,hplayed⟩,hqueue⟩ := send_served hring rfl
  exact ⟨t,⟨(Serves.one hstep ⟨by simp [Hardware],trivial⟩).trans hserves,heof,hdesc,hplayed⟩,hqueue⟩

/-- An interrupt that has not begun. -/
theorem eof_served (hr : Ring s h) (hi : s.isr = .idle) (he : s.outEof = some b) :
    ∃ t, Quiet s t ∧ t.queue ≠ [] := by
  by_cases hfull : s.queue.length = c.queueLength
  · have hstep : step s .interrupt = some { s with isr := .drop b } := by
      simp only [step,hi,he,if_pos hfull]
    obtain ⟨t,⟨hserves,heof,hdesc,hplayed⟩,hqueue⟩ := drop_served (hr.interrupt he hi (.inr rfl)) rfl
    exact ⟨t,⟨(Serves.one hstep ⟨by simp [Hardware],trivial⟩).trans hserves,heof,hdesc,hplayed⟩,hqueue⟩
  · have hstep : step s .interrupt = some { s with isr := .send b } := by
      simp only [step,hi,he,if_neg hfull]
    obtain ⟨t,⟨hserves,heof,hdesc,hplayed⟩,hqueue⟩ :=
      send_served (hr.interrupt he hi (.inl ⟨rfl,hfull⟩)) rfl
    exact ⟨t,⟨(Serves.one hstep ⟨by simp [Hardware],trivial⟩).trans hserves,heof,hdesc,hplayed⟩,hqueue⟩

/-- The interrupt can always run to its end. -/
theorem interrupt_served (hr : Ring s h) : ∃ t, Quiet s t := by
  cases hi : s.isr with
  | idle =>
    cases he : s.outEof with
    | none => exact ⟨s,.refl s,he,rfl,rfl⟩
    | some b =>
      obtain ⟨t,ht,_⟩ := eof_served hr hi he
      exact ⟨t,ht⟩
  | drop b =>
    obtain ⟨t,ht,_⟩ := drop_served hr hi
    exact ⟨t,ht⟩
  | send b =>
    obtain ⟨t,ht,_⟩ := send_served hr hi
    exact ⟨t,ht⟩
  | clear =>
    obtain ⟨t,ht,_⟩ := clear_served hi
    exact ⟨t,ht⟩

/-- The DMA can come through the rest of its buffer. -/
theorem buffer_fetched (n : Nat) (hn : s.offset + 1 + n = c.bufSize) (he : s.outEof = none)
    (ha : Apart s) : ∃ t, Serves s t ∧ t.desc = c.empty s.desc ∧ t.outEof = some s.desc ∧
      t.isr = s.isr ∧ t.played.length = s.played.length + 1 := by
  induction n generalizing s with
  | zero =>
    refine ⟨s.fetch,.one (a := .fetch) rfl ⟨.inl rfl,ha,fun _ => he⟩,?_⟩
    unfold State.fetch
    rw [if_pos (by omega)]
    exact ⟨rfl,rfl,rfl,List.length_append⟩
  | succ n ih =>
    have hinside : s.offset + 1 ≠ c.bufSize := by omega
    have hfetch : s.fetch = { s with
        offset := s.offset + 1
        fetched := s.fetched ++ ((s.buf s.desc)[s.offset]?).toList } := if_neg hinside
    have hone : Serves s s.fetch := .one (a := .fetch) rfl ⟨.inl rfl,ha,fun hend => absurd hend hinside⟩
    rw [hfetch] at hone
    obtain ⟨t,hserves,hend⟩ := ih (s := { s with
        offset := s.offset + 1
        fetched := s.fetched ++ ((s.buf s.desc)[s.offset]?).toList })
      (by change s.offset + 1 + 1 + n = c.bufSize; omega) he ha
    exact ⟨t,hone.trans hserves,hend⟩

/-- The DMA goes on by one buffer, and the interrupt hands over the finished one. -/
theorem buffer_served (ho : Ordered s h due) (he : s.outEof = none) (ha : Apart s) :
    ∃ t, Serves s t ∧ t.desc = c.empty s.desc ∧ t.outEof = none ∧ t.queue ≠ [] ∧
      t.played.length = s.played.length + 1 := by
  have hoffset := ho.safe.offset
  obtain ⟨t,hserves,hdesc,heof,hisr,hlen⟩ :=
    buffer_fetched (c.bufSize - (s.offset + 1)) (by omega) he ha
  obtain ⟨h',ho'⟩ := hserves.ordered h due ho
  rw [ho.ring.idle he] at hisr
  obtain ⟨u,⟨hserves',heof',hdesc',hplayed⟩,hqueue⟩ := eof_served ho'.ring hisr heof
  exact ⟨u,hserves.trans hserves',hdesc'.trans hdesc,heof',hqueue,by rw [hplayed,hlen]⟩

/-- With its buffer full, the DMA can go on as long as it likes. -/
theorem buffers_served (n : Nat) (ho : Ordered s h due) (he : s.outEof = none)
    (hfull : s.rwPos = c.bufSize) :
    ∃ t, Serves s t ∧ t.played.length = s.played.length + n := by
  induction n generalizing s h with
  | zero => exact ⟨s,.refl s,rfl⟩
  | succ n ih =>
    obtain ⟨t,hserves,_,heof,_,hlen⟩ := buffer_served ho he (fun _ => hfull)
    obtain ⟨h',ho'⟩ := hserves.ordered h due ho
    obtain ⟨u,hserves',hlen'⟩ := ih ho' heof (hserves.untouched.rwPos.trans hfull)
    exact ⟨u,hserves.trans hserves',by omega⟩

/-- Once the task has filled its buffer, every block can be played. -/
theorem blocks_served (ho : Ordered s h due) (hfull : s.rwPos = c.bufSize) :
    ∃ t, Serves s t ∧ ∀ k d : Nat, due[k]? = some d → t.played[d]? = some (block s k) := by
  obtain ⟨t,hserves,heof,_,_⟩ := interrupt_served ho.ring
  obtain ⟨h',ho'⟩ := hserves.ordered h due ho
  obtain ⟨u,hserves',hlen⟩ := buffers_served (h + c.dmaBufCount) ho' heof
    (hserves.untouched.rwPos.trans hfull)
  obtain ⟨h'',ho''⟩ := hserves'.ordered h' due ho'
  refine ⟨u,hserves.trans hserves',?_⟩
  intro k d hk
  have hd := ho.plan.last d (List.mem_of_getElem? hk)
  have hblock : block u k = block s k := by
    rw [block,block,(hserves.trans hserves').untouched.pushed]
  rw [← hblock]
  exact ho''.played_block hk (by omega)

/-- With its buffer full, or before its first, the task gets another one. -/
theorem room_served (ho : Ordered s h due) (hneed : s.rwPos = c.bufSize ∨ s.currPtr = none) :
    ∃ t, Serves s t ∧ t.outEof = none ∧ t.queue ≠ [] := by
  obtain ⟨t,hserves,heof,_,_⟩ := interrupt_served ho.ring
  by_cases hq : t.queue = []
  · obtain ⟨h',ho'⟩ := hserves.ordered h due ho
    have hapart : Apart t := by
      intro hptr
      rw [hserves.untouched.rwPos]
      rcases hneed with hfull | hnone
      · exact hfull
      · rw [hserves.untouched.currPtr,hnone] at hptr
        cases hptr
    obtain ⟨u,hserves',_,heof',hqueue,_⟩ := buffer_served ho' heof hapart
    exact ⟨u,hserves.trans hserves',heof',hqueue⟩
  · exact ⟨t,hserves,heof,hq⟩

/-- The oldest finished buffer is not the one the DMA is on. -/
theorem acquire_apart (hr : Ring s h) (he : s.outEof = none) (hq : s.queue ≠ [])
    (hneed : s.rwPos = c.bufSize ∨ s.currPtr = none) : ∃ u, s.acquire = some u ∧ Apart u := by
  obtain ⟨ptr,queue,hqueue⟩ := List.exists_cons_of_ne_nil hq
  refine ⟨_,acquire_of_acquired (.next hneed hqueue),?_⟩
  intro hptr
  have hfree : s.desc ∈ s.queue := by
    rw [hqueue,← Option.some.inj hptr]
    exact List.mem_cons_self
  exact absurd hfree (I2sRestart.Ring.not_free hr he)

/-- Whatever the port is doing: unless the DMA is in the buffer the task has begun, the
hardware comes in time to where the next push goes through. -/
theorem push_served (ho : Ordered s h due) (ha : Apart s) :
    ∃ t, Serves s t ∧ ∃ u, t.acquire = some u ∧ Apart u := by
  by_cases hneed : s.rwPos = c.bufSize ∨ s.currPtr = none
  · obtain ⟨t,hserves,heof,hqueue⟩ := room_served ho hneed
    obtain ⟨h',ho'⟩ := hserves.ordered h due ho
    rw [← hserves.untouched.rwPos,← hserves.untouched.currPtr] at hneed
    exact ⟨t,hserves,acquire_apart ho'.ring heof hqueue hneed⟩
  · exact ⟨s,.refl s,s,if_neg hneed,ha⟩

/-- A push leaves the task apart from the DMA if it was so with its buffer. -/
theorem store_apart (hs : Safe s) (hu : s.acquire = some u) (ha : Apart u) (bytes : List UInt8) :
    Apart (u.store bytes) := by
  have hgot := acquire_acquired hu
  obtain ⟨ptr,hptr⟩ := hgot.ptr
  have hpart := (hs.acquired hgot).2.1
  intro hsame
  simp only [State.store,hptr] at hsame
  have := ha (hptr.trans hsame)
  omega

/-- The task has put something into the buffer it has taken. -/
def Begun (s : State c) : Prop := s.currPtr ≠ none → 0 < s.rwPos

theorem push_begun (hb : Begun s) (w : Object c.sampleSize) : Begun (i2sPushSample s w).1 := by
  unfold i2sPushSample
  cases hq : s.acquire with
  | none => exact hb
  | some u =>
    obtain ⟨ptr,hptr⟩ := (acquire_acquired hq).ptr
    intro _
    have := sampleSize_pos c
    simp only [store_some hptr,w.size]
    omega

/-- A task that has put whole buffers into the port has filled its last one. -/
theorem filled (ho : Ordered s h due) (hb : Begun s) (hwhole : c.bufSize ∣ s.pushed.length) :
    due = [] ∨ s.rwPos = c.bufSize ∧ due.length * c.bufSize = s.pushed.length := by
  by_cases hne : due = []
  · exact .inl hne
  · have hcount := ho.plan.count hne
    have hlast : s.currPtr ≠ none := by
      rw [ho.plan.ptr,ne_eq,Option.map_eq_none_iff,List.getLast?_eq_none_iff]
      exact hne
    have hpos := hb hlast
    have hdvd : c.bufSize ∣ s.rwPos := by
      have hall : c.bufSize ∣ due.length * c.bufSize + s.rwPos := by
        rw [← hcount]
        exact Nat.dvd_add hwhole (Nat.dvd_refl _)
      exact (Nat.dvd_add_right (Nat.dvd_mul_left _ _)).mp hall
    have hfull : s.rwPos = c.bufSize := Nat.le_antisymm ho.safe.bound (Nat.le_of_dvd hpos hdvd)
    exact .inr ⟨hfull,by omega⟩

/-- Before the first push the DMA can come to the first buffer. -/
theorem first_served (n : Nat) (hn : s.desc.val + n = c.dmaBufCount) (ho : Ordered s h due)
    (hnone : s.currPtr = none) :
    ∃ t, Serves s t ∧ t.desc = c.first ∧ t.outEof = none ∧ t.isr = .idle := by
  induction n generalizing s h due with
  | zero =>
    have := s.desc.isLt
    omega
  | succ n ih =>
    obtain ⟨t,hserves,heof,hdesc,_⟩ := interrupt_served ho.ring
    obtain ⟨h',ho'⟩ := hserves.ordered h due ho
    have hnone' : t.currPtr = none := hserves.untouched.currPtr.trans hnone
    have hapart : Apart t := by
      intro hptr
      rw [hnone'] at hptr
      cases hptr
    obtain ⟨u,hserves',hnext,heof',_,_⟩ := buffer_served ho' heof hapart
    obtain ⟨h'',ho''⟩ := hserves'.ordered h' due ho'
    rw [hdesc,Config.empty] at hnext
    split_ifs at hnext with hlt
    · have hval : u.desc.val = s.desc.val + 1 := congrArg Fin.val hnext
      obtain ⟨v,hserves'',hfirst⟩ :=
        ih (by omega) ho'' (hserves'.untouched.currPtr.trans hnone')
      exact ⟨v,(hserves.trans hserves').trans hserves'',hfirst⟩
    · exact ⟨u,hserves.trans hserves',hnext,heof',ho''.ring.idle heof'⟩

/-- Once the DMA is in the buffer the task has begun, nothing more is pushed in time. -/
theorem step_stuck (hn : ¬ Apart s) (ht : InTime s a) (hstep : step s a = some t) :
    ¬ Apart t ∧ t.pushed = s.pushed := by
  obtain ⟨hptr,hpart⟩ := Classical.not_imp.mp hn
  have hacquire : s.acquire = some s :=
    acquire_of_acquired (.same hpart (by rw [hptr]; exact Option.some_ne_none _))
  have hisr : (a = .interrupt ∨ a = .isrDrop ∨ a = .isrSend ∨ a = .isrClear) →
      ¬ Apart t ∧ t.pushed = s.pushed := by
    intro ha
    obtain ⟨hsame,hdesc⟩ := isr_untouched ha hstep
    refine ⟨?_,hsame.pushed⟩
    unfold Apart
    rw [hsame.currPtr,hsame.rwPos,hdesc]
    exact hn
  cases a with
  | pushSample sample => exact absurd (ht s hacquire) hn
  | writePass => exact absurd (ht s hacquire) hn
  | fetch => exact absurd ht.1 hn
  | writeBytes src =>
    simp only [step,Option.ite_none_right_eq_some,Option.some.injEq] at hstep
    obtain ⟨_,rfl⟩ := hstep
    exact ⟨hn,rfl⟩
  | setClk =>
    simp only [step,Option.ite_none_right_eq_some,Option.some.injEq] at hstep
    obtain ⟨_,rfl⟩ := hstep
    refine ⟨?_,rfl⟩
    intro ha
    apply hn
    intro _
    apply ha
    change s.currPtr = some c.first
    rw [hptr,ht.1]
  | interrupt => exact hisr (.inl rfl)
  | isrDrop => exact hisr (.inr (.inl rfl))
  | isrSend => exact hisr (.inr (.inr (.inl rfl)))
  | isrClear => exact hisr (.inr (.inr (.inr rfl)))

end

end WifiSpeaker.Proofs.I2sProgress
