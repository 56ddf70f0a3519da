import WifiSpeaker.I2s

namespace WifiSpeaker.Proofs.I2sStores
open Common I2s

section
variable {c : Config} {s t : State c}

theorem bytesPerSample_cases (c : Config) : c.bytesPerSample = 2 ∨ c.bytesPerSample = 4 := by
  obtain ⟨h8,h16,h32⟩ := c.bits
  unfold Config.bytesPerSample
  omega

theorem sampleSize_pos (c : Config) : 0 < c.sampleSize := by
  unfold Config.sampleSize
  rcases bytesPerSample_cases c with hb | hb <;> rcases c.channels with hc | hc <;>
    rw [hb,hc] <;> decide

/-- The limit of 4092 bytes leaves room for more than one sample. -/
theorem bufLen_gt (c : Config) : 1 < c.bufLen := by
  have := c.len
  unfold Config.bufLen
  split_ifs
  · rcases bytesPerSample_cases c with hb | hb <;> rcases c.channels with hc | hc <;>
      rw [hb,hc] <;> decide
  · omega

theorem sampleSize_lt (c : Config) : c.sampleSize < c.bufSize :=
  lt_mul_of_one_lt_left (sampleSize_pos c) (bufLen_gt c)

theorem sampleSize_dvd (c : Config) : c.sampleSize ∣ c.bufSize := Nat.dvd_mul_left _ _

/-- What `acquire` leaves: the buffer the task was in, or the oldest of the queue
from its start. -/
inductive Acquired (s : State c) : State c → Prop
  | same (part : s.rwPos ≠ c.bufSize) (ptr : s.currPtr ≠ none) : Acquired s s
  | next (rest : s.rwPos = c.bufSize ∨ s.currPtr = none) (oldest : s.queue = ptr :: queue) :
      Acquired s { s with currPtr := some ptr, queue := queue, rwPos := 0 }

theorem acquire_acquired (h : s.acquire = some t) : Acquired s t := by
  unfold State.acquire at h
  split_ifs at h with hn
  · split at h
    · cases h
    · cases h
      exact .next hn (by assumption)
  · cases h
    exact .same (fun he => hn (.inl he)) (fun he => hn (.inr he))

theorem Acquired.ptr (h : Acquired s t) : ∃ ptr, t.currPtr = some ptr := by
  cases h with
  | same _ hptr => exact Option.ne_none_iff_exists'.mp hptr
  | next => exact ⟨_,rfl⟩

/-- Everything a step can do to the port. -/
inductive Move (s : State c) : Act c → State c → Prop
  | call (w : Option (List UInt8)) (keeps : ∀ src, w = some src → a = .writeBytes src) :
      Move s a { s with writing := w }
  | push (got : Acquired s u) (sample : Object c.sampleSize) :
      Move s (.pushSample sample) (u.store sample.bytes)
  | pass (under : s.writing = some src) (got : Acquired s u)
      (part : n = min (c.bufSize - u.rwPos) src.length) :
      Move s .writePass { u.store (src.take n) with writing := some (src.drop n) }
  | fetch : Move s .fetch s.fetch
  | interrupt (eof : s.outEof = some d) (idle : s.isr = .idle)
      (full : s.queue.length = c.queueLength) : Move s .interrupt { s with isr := .drop d }
  | room (eof : s.outEof = some d) (idle : s.isr = .idle)
      (room : s.queue.length ≠ c.queueLength) : Move s .interrupt { s with isr := .send d }
  | drop (place : s.isr = .drop d) :
      Move s .isrDrop { s with isr := .send d, queue := s.queue.tail }
  | send (place : s.isr = .send d) : Move s .isrSend { s with
      isr := .clear
      queue := if s.queue.length < c.queueLength then s.queue ++ [d] else s.queue }
  | clear (place : s.isr = .clear) : Move s .isrClear { s with isr := .idle, outEof := none }
  | restart : Move s .setClk { s with desc := c.first, offset := 0, outEof := none, fetched := [] }

variable {u : State c} {a : Act c} {acts : List (Act c)}

theorem step_move (h : step s a = some t) : Move s a t := by
  cases a with
  | pushSample sample =>
    simp only [step,Option.ite_none_right_eq_some,Option.some.injEq] at h
    obtain ⟨hw,rfl⟩ := h
    unfold i2sPushSample
    cases hq : s.acquire with
    | none =>
      rw [Option.isNone_iff_eq_none] at hw
      have := Move.call (s := s) (a := .pushSample sample) none (by intro src he; cases he)
      rwa [← hw] at this
    | some u => exact .push (acquire_acquired hq) sample
  | writeBytes src =>
    simp only [step,Option.ite_none_right_eq_some,Option.some.injEq] at h
    obtain ⟨_,rfl⟩ := h
    exact .call (some src) (by rintro _ ⟨⟩; rfl)
  | writePass =>
    obtain ⟨src,hsrc,rfl⟩ := Option.map_eq_some_iff.mp h
    unfold State.writePass
    split_ifs
    · cases hq : s.acquire with
      | none => exact .call none (by intro src he; cases he)
      | some u => exact .pass hsrc (acquire_acquired hq) rfl
    · exact .call none (by intro src he; cases he)
  | fetch =>
    cases h
    exact .fetch
  | interrupt =>
    simp only [step] at h
    split at h
    · rename_i hidle heof
      split_ifs at h with hfull
      · cases h
        exact .interrupt heof hidle hfull
      · cases h
        exact .room heof hidle hfull
    · cases h
  | isrDrop =>
    simp only [step] at h
    split at h
    · cases h
      exact .drop (by assumption)
    · cases h
  | isrSend =>
    simp only [step] at h
    split at h
    · cases h
      exact .send (by assumption)
    · cases h
  | isrClear =>
    simp only [step] at h
    split at h
    · cases h
      exact .clear (by assumption)
    · cases h
  | setClk =>
    simp only [step,Option.ite_none_right_eq_some,Option.some.injEq] at h
    obtain ⟨_,rfl⟩ := h
    exact .restart

/-- Positions and what is left to write are whole samples, and nothing has left
a buffer. -/
structure Safe (s : State c) : Prop where
  samples : c.sampleSize ∣ s.rwPos
  bound : s.rwPos ≤ c.bufSize
  left : ∀ src, s.writing = some src → c.sampleSize ∣ src.length
  stores : ∀ store ∈ s.stores, store.offset + store.size ≤ c.bufSize
  size : ∀ d, (s.buf d).length = c.bufSize
  offset : s.offset < c.bufSize
  fetched : s.fetched.length = s.offset
  played : ∀ block ∈ s.played, block.length = c.bufSize

theorem Safe.acquired (h : Safe s) (hu : Acquired s u) :
    Safe u ∧ u.rwPos < c.bufSize ∧ u.writing = s.writing := by
  cases hu with
  | same part => exact ⟨h,Nat.lt_of_le_of_ne h.bound part,rfl⟩
  | next =>
    refine ⟨⟨Nat.dvd_zero _,Nat.zero_le _,h.left,h.stores,h.size,h.offset,h.fetched,h.played⟩,
      ?_,rfl⟩
    exact Nat.zero_lt_of_lt (sampleSize_lt c)

theorem Safe.store (h : Safe u) (hp : u.currPtr = some ptr) (hd : c.sampleSize ∣ bytes.length)
    (hr : u.rwPos + bytes.length ≤ c.bufSize) : Safe (u.store bytes) := by
  have hs := h.size ptr
  simp only [State.store,hp]
  refine ⟨Nat.dvd_add h.samples hd,hr,h.left,?_,?_,h.offset,h.fetched,h.played⟩
  · intro store hm
    rcases List.mem_append.mp hm with hm | hm
    · exact h.stores store hm
    · cases List.mem_singleton.mp hm
      exact hr
  · intro d
    change (Function.update u.buf ptr _ d).length = _
    by_cases hd : d = ptr
    · subst d
      rw [Function.update_self,length_memcpy (by rw [hs]; exact hr),hs]
    · rw [Function.update_of_ne hd]
      exact h.size d

theorem store_writing (u : State c) (bytes : List UInt8) : (u.store bytes).writing = u.writing := by
  unfold State.store
  split <;> rfl

theorem Safe.fetch (h : Safe s) : Safe s.fetch := by
  have hb : s.offset < (s.buf s.desc).length := by
    rw [h.size]
    exact h.offset
  have hone : (s.fetched ++ ((s.buf s.desc)[s.offset]?).toList).length = s.offset + 1 := by
    rw [List.getElem?_eq_getElem hb,List.length_append,h.fetched]
    rfl
  unfold State.fetch
  split_ifs with hend
  · refine ⟨h.samples,h.bound,h.left,h.stores,h.size,?_,rfl,?_⟩
    · exact Nat.zero_lt_of_lt (sampleSize_lt c)
    · intro block hm
      rcases List.mem_append.mp hm with hm | hm
      · exact h.played block hm
      · cases List.mem_singleton.mp hm
        rw [hone,hend]
  · refine ⟨h.samples,h.bound,h.left,h.stores,h.size,?_,hone,h.played⟩
    have := h.offset
    change s.offset + 1 < c.bufSize
    omega

/-- Writes of whole samples. -/
def Whole (a : Act c) : Prop := ∀ src, a = .writeBytes src → c.sampleSize ∣ src.length

theorem move_safe (hw : Whole a) (h : Safe s) (hm : Move s a t) : Safe t := by
  cases hm with
  | call w keeps =>
    refine ⟨h.samples,h.bound,?_,h.stores,h.size,h.offset,h.fetched,h.played⟩
    intro src he
    exact hw src (keeps src he)
  | push got sample =>
    obtain ⟨hu,hlt,_⟩ := h.acquired got
    obtain ⟨ptr,hp⟩ := got.ptr
    refine hu.store hp (by rw [sample.size]) ?_
    -- the position and the size are multiples of a sample, so one more fits
    obtain ⟨i,hi⟩ := hu.samples
    obtain ⟨j,hj⟩ := sampleSize_dvd c
    rw [hi,hj] at hlt ⊢
    rw [sample.size,← Nat.mul_succ]
    exact Nat.mul_le_mul_left _ (Nat.lt_of_mul_lt_mul_left hlt)
  | pass under got part =>
    rename_i src u n
    obtain ⟨hu,hlt,hwrite⟩ := h.acquired got
    obtain ⟨ptr,hp⟩ := got.ptr
    have hsrc := h.left src under
    have hn : c.sampleSize ∣ n := by
      rw [part]
      rcases Nat.le_total (c.bufSize - u.rwPos) src.length with hle | hle
      · rw [Nat.min_eq_left hle]
        exact Nat.dvd_sub (sampleSize_dvd c) hu.samples
      · rw [Nat.min_eq_right hle]
        exact hsrc
    have hlen : (src.take n).length = n := by
      rw [List.length_take,part]
      omega
    have hstore : Safe (u.store (src.take n)) :=
      hu.store hp (by rw [hlen]; exact hn) (by rw [hlen,part]; omega)
    refine ⟨hstore.samples,hstore.bound,?_,hstore.stores,hstore.size,hstore.offset,
      hstore.fetched,hstore.played⟩
    intro rest he
    cases he
    rw [List.length_drop]
    exact Nat.dvd_sub hsrc hn
  | fetch => exact h.fetch
  | interrupt => exact ⟨h.samples,h.bound,h.left,h.stores,h.size,h.offset,h.fetched,h.played⟩
  | room => exact ⟨h.samples,h.bound,h.left,h.stores,h.size,h.offset,h.fetched,h.played⟩
  | drop => exact ⟨h.samples,h.bound,h.left,h.stores,h.size,h.offset,h.fetched,h.played⟩
  | send => exact ⟨h.samples,h.bound,h.left,h.stores,h.size,h.offset,h.fetched,h.played⟩
  | clear => exact ⟨h.samples,h.bound,h.left,h.stores,h.size,h.offset,h.fetched,h.played⟩
  | restart =>
    exact ⟨h.samples,h.bound,h.left,h.stores,h.size,Nat.zero_lt_of_lt (sampleSize_lt c),rfl,
      h.played⟩

theorem init_safe (c : Config) : Safe (system c).init := by
  refine ⟨Nat.dvd_zero _,Nat.zero_le _,?_,?_,?_,Nat.zero_lt_of_lt (sampleSize_lt c),rfl,?_⟩
  · intro src he
    cases he
  · intro store hm
    cases hm
  · intro d
    exact List.length_replicate
  · intro block hm
    cases hm

theorem run_safe (h : (system c).Run (fun _ a => Whole a) acts s) : Safe s :=
  h.invariant (init_safe c) (fun _ _ _ hs hw ht => move_safe hw hs (step_move ht))

/-- Whatever the DMA, the interrupt and `i2s_set_clk` do in between, no store of
`i2s_push_sample` or `i2s_write_bytes` leaves its buffer and no fetch does, as long
as every write is of whole samples: a push does not look at the room it has. -/
theorem stores_stay_inside (h : (system c).Run (fun _ a => Whole a) acts s) :
    (∀ store ∈ s.stores, store.offset + store.size ≤ c.bufSize) ∧
    (∀ d, (s.buf d).length = c.bufSize) ∧
    (s.buf s.desc)[s.offset]? ≠ none := by
  have hs := run_safe h
  refine ⟨hs.stores,hs.size,?_⟩
  rw [Ne,List.getElem?_eq_none_iff,hs.size]
  exact Nat.not_le.mpr hs.offset

end

/-- Two buffers of eight mono samples. -/
def twoBuffers : Config := ⟨2,8,16,1,by decide,by decide,by decide,.inl rfl⟩

/-- A buffer is fetched and handed over, and takes two samples and a write of two. -/
theorem stores_stay_inside_two_buffers :
    ∃ acts s, (system twoBuffers).Run (fun _ a => Whole a) acts s ∧ s.pushed = [1,2,3,4,5,6,7,8] ∧
      ∀ store ∈ s.stores, store.offset + store.size ≤ twoBuffers.bufSize := by
  let acts : List (Act twoBuffers) := List.replicate 16 .fetch ++
    [.interrupt,.isrSend,.isrClear,.pushSample ⟨[1,2],rfl⟩,.pushSample ⟨[3,4],rfl⟩,
      .writeBytes [5,6,7,8],.writePass,.writePass]
  have hwhole : ∀ a ∈ acts, Whole a := by
    intro a ha src he
    subst a
    obtain rfl : src = [5,6,7,8] := by simpa [acts] using ha
    decide
  have hrun : ((system twoBuffers).exec (fun _ a => a ∈ acts) (system twoBuffers).init acts).map
      State.pushed = some [1,2,3,4,5,6,7,8] := by decide +kernel
  obtain ⟨s,hs,hpushed⟩ := Option.map_eq_some_iff.mp hrun
  have hr := (System.run_of_exec hs).mono (fun _ a ha => hwhole a ha)
  exact ⟨acts,s,hr,hpushed,(stores_stay_inside hr).1⟩

end WifiSpeaker.Proofs.I2sStores
