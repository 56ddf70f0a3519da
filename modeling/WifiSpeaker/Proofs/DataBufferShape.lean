import Mathlib.Data.Finset.Card
import Mathlib.Data.Fintype.Basic
import Mathlib.Tactic.Ring
import WifiSpeaker.DataBuffer

namespace WifiSpeaker.Proofs.DataBufferShape
open Common DataBuffer

/-- Everything one pass of the loop of `buffer_write_data` can do. -/
inductive WritePass (r : Ring) (c : WriteCall) : Ring → Option WriteCall → Option Copy → Prop
  | returns (done : c.size ≤ 0) : WritePass r c r none none
  | fill (more : 0 < c.size) (free : (r.dataBuffer c.current).dataBufferState = .unprepared)
      (fits : c.size < r.remain c.current) :
      WritePass r c (r.fill c) none (some (c.copy r c.size))
  | commit (more : 0 < c.size) (free : (r.dataBuffer c.current).dataBufferState = .unprepared)
      (beyond : r.remain c.current ≤ c.size) :
      WritePass r c (r.commit c)
        (some ⟨(r.commit c).currentWriteBuffer,c.data.drop (r.remain c.current).toNat,
          c.size - r.remain c.current⟩)
        (some (c.copy r (r.remain c.current)))

/-- Everything one pass of the loop of `buffer_read_data` can do. -/
inductive ReadPass (r : Ring) (d : ReadCall) : Ring → ReadCall ⊕ Int → Option Copy → Prop
  | returns (done : d.size ≤ 0) : ReadPass r d r (.inr 0) none
  | consume (more : 0 < d.size) (ready : (r.dataBuffer d.current).dataBufferState = .prepared)
      (fits : d.size < r.remain d.current) :
      ReadPass r d (r.consume d) (.inr (d.dataRead + d.size)) (some (d.copy r d.size))
  | release (more : 0 < d.size) (ready : (r.dataBuffer d.current).dataBufferState = .prepared)
      (beyond : r.remain d.current ≤ d.size) :
      ReadPass r d (r.release d)
        (.inl ⟨(r.release d).currentReadBuffer,d.size - r.remain d.current,
          d.dataRead + r.remain d.current⟩)
        (some (d.copy r (r.remain d.current)))

/-- Everything one action can do to the two tasks and their ring. -/
inductive Move (s : State) : Act → State → Prop
  | callWrite (idle : s.writer = none) (enough : size ≤ data.length) :
      Move s (.callWrite data size) { s with writer := some (bufferWriteData s.ring data size) }
  | returnWrite (call : s.writer = some c) (done : c.size ≤ 0) :
      Move s .passWrite { s with writer := none }
  | fill (call : s.writer = some c) (more : 0 < c.size)
      (free : (s.ring.dataBuffer c.current).dataBufferState = .unprepared)
      (fits : c.size < s.ring.remain c.current) :
      Move s .passWrite { s with
        ring := s.ring.fill c, writer := none, writes := s.writes ++ [c.copy s.ring c.size] }
  | commit (call : s.writer = some c) (more : 0 < c.size)
      (free : (s.ring.dataBuffer c.current).dataBufferState = .unprepared)
      (beyond : s.ring.remain c.current ≤ c.size) :
      Move s .passWrite { s with
        ring := s.ring.commit c
        writer := some ⟨(s.ring.commit c).currentWriteBuffer,
          c.data.drop (s.ring.remain c.current).toNat,c.size - s.ring.remain c.current⟩
        writes := s.writes ++ [c.copy s.ring (s.ring.remain c.current)] }
  | callRead (idle : s.reader = none) :
      Move s (.callRead size) { s with reader := some (bufferReadData s.ring size) }
  | returnRead (call : s.reader = some d) (done : d.size ≤ 0) :
      Move s .passRead { s with reader := none }
  | consume (call : s.reader = some d) (more : 0 < d.size)
      (ready : (s.ring.dataBuffer d.current).dataBufferState = .prepared)
      (fits : d.size < s.ring.remain d.current) :
      Move s .passRead { s with
        ring := s.ring.consume d, reader := none, reads := s.reads ++ [d.copy s.ring d.size] }
  | release (call : s.reader = some d) (more : 0 < d.size)
      (ready : (s.ring.dataBuffer d.current).dataBufferState = .prepared)
      (beyond : s.ring.remain d.current ≤ d.size) :
      Move s .passRead { s with
        ring := s.ring.release d
        reader := some ⟨(s.ring.release d).currentReadBuffer,
          d.size - s.ring.remain d.current,d.dataRead + s.ring.remain d.current⟩
        reads := s.reads ++ [d.copy s.ring (s.ring.remain d.current)] }

theorem state_free {slot : Slot} (h : ¬ slot.dataBufferState = .prepared) :
    slot.dataBufferState = .unprepared := by
  cases hs : slot.dataBufferState
  · exact absurd hs h
  · rfl

theorem state_ready {slot : Slot} (h : ¬ slot.dataBufferState = .unprepared) :
    slot.dataBufferState = .prepared := by
  cases hs : slot.dataBufferState
  · rfl
  · exact absurd hs h

theorem write_pass (h : writePass r c = some (r',next,copied)) : WritePass r c r' next copied := by
  simp only [writePass] at h
  split_ifs at h with hz hp hf
  · cases h
    exact .returns hz
  · cases h
    exact .fill (Int.not_le.mp hz) (state_free hp) hf
  · cases h
    exact .commit (Int.not_le.mp hz) (state_free hp) (Int.not_lt.mp hf)

theorem read_pass (h : readPass r d = some (r',next,copied)) : ReadPass r d r' next copied := by
  simp only [readPass] at h
  split_ifs at h with hz hp hf
  · cases h
    exact .returns hz
  · cases h
    exact .consume (Int.not_le.mp hz) (state_ready hp) hf
  · cases h
    exact .release (Int.not_le.mp hz) (state_ready hp) (Int.not_lt.mp hf)

theorem ReadPass.takes (h : ReadPass r d r' next copied) :
    readPass r d = some (r',next,copied) := by
  cases h with
  | returns done => simp [readPass,done]
  | consume more ready fits => simp [readPass,Int.not_le.mpr more,ready,fits]
  | release more ready beyond =>
    simp [readPass,Int.not_le.mpr more,ready,Int.not_lt.mpr beyond]

theorem step_move (h : step s a = some t) : Move s a t := by
  cases a with
  | callWrite data size =>
    simp only [step,Option.ite_none_right_eq_some,Option.some.injEq] at h
    obtain ⟨⟨hw,hd⟩,rfl⟩ := h
    exact .callWrite hw hd
  | passWrite =>
    obtain ⟨c,hw,h⟩ := Option.bind_eq_some_iff.mp h
    obtain ⟨⟨r,next,copied⟩,pass,h⟩ := Option.bind_eq_some_iff.mp h
    cases h
    cases write_pass pass with
    | returns done =>
      simp only [Option.toList_none,List.append_nil]
      exact .returnWrite hw done
    | fill more free fits => exact .fill hw more free fits
    | commit more free beyond => exact .commit hw more free beyond
  | callRead size =>
    simp only [step,Option.ite_none_right_eq_some,Option.some.injEq] at h
    obtain ⟨hr,rfl⟩ := h
    exact .callRead hr
  | passRead =>
    obtain ⟨d,hr,h⟩ := Option.bind_eq_some_iff.mp h
    obtain ⟨⟨r,next,copied⟩,pass,h⟩ := Option.bind_eq_some_iff.mp h
    cases h
    cases read_pass pass with
    | returns done =>
      simp only [Option.toList_none,List.append_nil]
      exact .returnRead hr done
    | consume more ready fits => exact .consume hr more ready fits
    | release more ready beyond => exact .release hr more ready beyond

/-- What the two statics, the counter, the flags and the offsets say of one
another, at every distance of the two cursors. -/
structure Shape (r : Ring) : Prop where
  offsets : ∀ i, 0 ≤ (r.dataBuffer i).used ∧ (r.dataBuffer i).used < lengthOfBuffer
  sized : ∀ i, (r.dataBuffer i).buffer.length = lengthOfBuffer
  counted : 0 ≤ r.bufferUsed ∧ r.bufferUsed ≤ numberOfBuffer
  flags : ∀ k < numberOfBuffer,
    (r.dataBuffer (ahead r.currentReadBuffer k)).dataBufferState = .prepared ↔ k < r.bufferUsed
  cursors : r.currentWriteBuffer = ahead r.currentReadBuffer r.bufferUsed.toNat
  idle : ∀ i, i ≠ r.currentWriteBuffer → i ≠ r.currentReadBuffer → (r.dataBuffer i).used = 0

/-- A cached slot pointer is the task's cursor, and a call has its data. -/
structure Shaped (s : State) : Prop where
  ring : Shape s.ring
  writer : ∀ c, s.writer = some c → c.current = s.ring.currentWriteBuffer ∧ c.size ≤ c.data.length
  reader : ∀ d, s.reader = some d → d.current = s.ring.currentReadBuffer

section Fields
variable (r : Ring) (c : WriteCall) (d : ReadCall) (i : Fin numberOfBuffer)

theorem fill_slot : (r.fill c).dataBuffer i = if i = c.current then
    { r.dataBuffer c.current with
      buffer := (r.dataBuffer c.current).store (c.copy r c.size)
      used := (r.dataBuffer c.current).used + c.size }
    else r.dataBuffer i := by
  simp [Ring.fill,Ring.put,Function.update_apply]

theorem consume_slot : (r.consume d).dataBuffer i = if i = d.current then
    { r.dataBuffer d.current with used := (r.dataBuffer d.current).used + d.size }
    else r.dataBuffer i := by
  simp [Ring.consume,Ring.put,Function.update_apply]

theorem commit_used : ((r.commit c).dataBuffer i).used =
    if i = ahead r.currentWriteBuffer 1 ∨ i = c.current then 0 else (r.dataBuffer i).used := by
  simp only [Ring.commit,Ring.clearUsed,Ring.put,Function.update_apply]
  split_ifs <;> simp_all

theorem commit_state : ((r.commit c).dataBuffer i).dataBufferState =
    if i = c.current then .prepared else (r.dataBuffer i).dataBufferState := by
  simp only [Ring.commit,Ring.clearUsed,Ring.put,Function.update_apply]
  split_ifs <;> simp_all

theorem commit_buffer : ((r.commit c).dataBuffer i).buffer =
    if i = c.current then (r.dataBuffer c.current).store (c.copy r (r.remain c.current))
    else (r.dataBuffer i).buffer := by
  simp only [Ring.commit,Ring.clearUsed,Ring.put,Function.update_apply]
  split_ifs <;> simp_all

theorem release_used : ((r.release d).dataBuffer i).used =
    if i = ahead r.currentReadBuffer 1 ∨ i = d.current then 0 else (r.dataBuffer i).used := by
  simp only [Ring.release,Ring.clearUsed,Ring.put,Function.update_apply]
  split_ifs <;> simp_all

theorem release_state : ((r.release d).dataBuffer i).dataBufferState =
    if i = d.current then .unprepared else (r.dataBuffer i).dataBufferState := by
  simp only [Ring.release,Ring.clearUsed,Ring.put,Function.update_apply]
  split_ifs <;> simp_all

theorem release_buffer : ((r.release d).dataBuffer i).buffer = (r.dataBuffer i).buffer := by
  simp only [Ring.release,Ring.clearUsed,Ring.put,Function.update_apply]
  split_ifs <;> simp_all

end Fields

/-- The writer's slot is the one right behind the committed slots. -/
theorem Shape.free_iff (h : Shape r) :
    (r.dataBuffer r.currentWriteBuffer).dataBufferState = .unprepared ↔
      r.bufferUsed < numberOfBuffer := by
  obtain ⟨h0,hn⟩ := h.counted
  by_cases hf : r.bufferUsed < numberOfBuffer
  · have hk := h.flags r.bufferUsed.toNat (by omega)
    rw [← h.cursors] at hk
    constructor
    · intro _
      exact hf
    · intro _
      apply state_free
      intro hp
      have := hk.mp hp
      omega
  · have hb : r.bufferUsed.toNat = numberOfBuffer := by omega
    have hc := h.cursors
    rw [hb,ahead_full] at hc
    have hk := (h.flags 0 (by decide)).mpr (by have := numberOfBuffer_gt; omega)
    rw [ahead_zero,← hc] at hk
    simp [hk,hf]

theorem Shape.ready_iff (h : Shape r) :
    (r.dataBuffer r.currentReadBuffer).dataBufferState = .prepared ↔ 0 < r.bufferUsed := by
  simpa using h.flags 0 (by decide)

theorem length_store {c : WriteCall} (h : Shape r) (hs : c.size ≤ c.data.length)
    (hn : n ≤ c.size) (hr : n ≤ r.remain c.current) :
    ((r.dataBuffer c.current).store (c.copy r n)).length = lengthOfBuffer := by
  have ho := h.offsets c.current
  have hz := h.sized c.current
  simp only [Ring.remain] at hr
  rw [Slot.store,length_memcpy,hz]
  simp only [WriteCall.copy,List.length_take]
  omega

/-- A cursor's slot may change its bytes and its offset, not its flag. -/
theorem Shape.put {slot : Slot} (h : Shape r)
    (hi : i = r.currentWriteBuffer ∨ i = r.currentReadBuffer)
    (hu : 0 ≤ slot.used ∧ slot.used < lengthOfBuffer) (hl : slot.buffer.length = lengthOfBuffer)
    (hst : slot.dataBufferState = (r.dataBuffer i).dataBufferState) : Shape (r.put i slot) := by
  have hslot : ∀ j, (r.put i slot).dataBuffer j = if j = i then slot else r.dataBuffer j := by
    intro j
    simp [Ring.put,Function.update_apply]
  refine ⟨?_,?_,h.counted,?_,h.cursors,?_⟩
  · intro j
    rw [hslot]
    split_ifs
    · exact hu
    · exact h.offsets j
  · intro j
    rw [hslot]
    split_ifs
    · exact hl
    · exact h.sized j
  · intro k hk
    have hsame : ((r.put i slot).dataBuffer (ahead r.currentReadBuffer k)).dataBufferState =
        (r.dataBuffer (ahead r.currentReadBuffer k)).dataBufferState := by
      rw [hslot]
      split_ifs with hj
      · rw [hst,hj]
      · rfl
    exact (iff_of_eq (congrArg (· = BufferState.prepared) hsame)).trans (h.flags k hk)
  · intro j hw hr
    rw [hslot,if_neg]
    · exact h.idle j hw hr
    · rintro rfl
      exact hi.elim hw hr

theorem Shape.fill (h : Shape r) (hc : c.current = r.currentWriteBuffer)
    (hs : c.size ≤ c.data.length) (hp : 0 < c.size) (hf : c.size < r.remain c.current) :
    Shape (r.fill c) := by
  refine h.put (.inl hc) ?_ (length_store h hs (Int.le_refl _) (Int.le_of_lt hf)) rfl
  have := h.offsets c.current
  simp only [Ring.remain] at hf
  dsimp only
  omega

theorem Shape.consume (h : Shape r) (hd : d.current = r.currentReadBuffer) (hp : 0 < d.size)
    (hf : d.size < r.remain d.current) : Shape (r.consume d) := by
  refine h.put (.inr hd) ?_ (h.sized d.current) rfl
  have := h.offsets d.current
  simp only [Ring.remain] at hf
  dsimp only
  omega

theorem Shape.commit (h : Shape r) (hc : c.current = r.currentWriteBuffer)
    (hs : c.size ≤ c.data.length)
    (hf : (r.dataBuffer c.current).dataBufferState = .unprepared)
    (ho : r.remain c.current ≤ c.size) : Shape (r.commit c) := by
  obtain ⟨h0,_⟩ := h.counted
  have hlt : r.bufferUsed < numberOfBuffer := h.free_iff.mp (hc ▸ hf)
  refine ⟨?_,?_,?_,?_,?_,?_⟩
  · intro i
    rw [commit_used]
    split_ifs
    · have := lengthOfBuffer_pos
      omega
    · exact h.offsets i
  · intro i
    rw [commit_buffer]
    split_ifs
    · exact length_store h hs ho (Int.le_refl _)
    · exact h.sized i
  · change 0 ≤ r.bufferUsed + 1 ∧ r.bufferUsed + 1 ≤ numberOfBuffer
    omega
  · intro k hk
    change ((r.commit c).dataBuffer (ahead r.currentReadBuffer k)).dataBufferState = .prepared ↔
      k < r.bufferUsed + 1
    rw [commit_state]
    split_ifs with he
    · rw [hc,h.cursors] at he
      have := ahead_inj hk (by omega) he
      simp only [true_iff]
      omega
    · rw [h.flags k hk]
      have hne : k ≠ r.bufferUsed.toNat := by
        rintro rfl
        exact he (by rw [hc,h.cursors])
      omega
  · change ahead r.currentWriteBuffer 1 = ahead r.currentReadBuffer (r.bufferUsed + 1).toNat
    rw [h.cursors,ahead_ahead]
    congr 1
    omega
  · intro i hw hr
    change i ≠ ahead r.currentWriteBuffer 1 at hw
    rw [commit_used]
    split_ifs with he
    · rfl
    · exact h.idle i (fun hi => he (Or.inr (hc ▸ hi))) hr

theorem Shape.release (h : Shape r) (hd : d.current = r.currentReadBuffer)
    (hp : (r.dataBuffer d.current).dataBufferState = .prepared) : Shape (r.release d) := by
  obtain ⟨_,hn⟩ := h.counted
  have hpos : 0 < r.bufferUsed := h.ready_iff.mp (hd ▸ hp)
  refine ⟨?_,?_,?_,?_,?_,?_⟩
  · intro i
    rw [release_used]
    split_ifs
    · have := lengthOfBuffer_pos
      omega
    · exact h.offsets i
  · intro i
    rw [release_buffer]
    exact h.sized i
  · change 0 ≤ r.bufferUsed - 1 ∧ r.bufferUsed - 1 ≤ numberOfBuffer
    omega
  · intro k hk
    change ((r.release d).dataBuffer (ahead (ahead r.currentReadBuffer 1) k)).dataBufferState =
      .prepared ↔ k < r.bufferUsed - 1
    rw [ahead_ahead,release_state,hd]
    split_ifs with he
    · -- one full turn from the old read slot is that slot itself
      have hk' : 1 + k = numberOfBuffer := by
        by_contra hne
        have := ahead_inj (k := 0) (by omega) (by omega) (he.trans (ahead_zero _).symm)
        omega
      simp only [false_iff]
      omega
    · have hk' : 1 + k < numberOfBuffer := by
        by_contra hge
        have hfull : 1 + k = numberOfBuffer := by omega
        exact he (by rw [hfull,ahead_full])
      rw [h.flags (1 + k) hk']
      omega
  · change r.currentWriteBuffer = ahead (ahead r.currentReadBuffer 1) (r.bufferUsed - 1).toNat
    rw [h.cursors,ahead_ahead]
    congr 1
    omega
  · intro i hw hr
    change i ≠ ahead r.currentReadBuffer 1 at hr
    rw [release_used]
    split_ifs with he
    · rfl
    · exact h.idle i hw (fun hi => he (Or.inr (hd ▸ hi)))

theorem Shape.remain_pos (h : Shape r) (i : Fin numberOfBuffer) : 0 < r.remain i := by
  have := h.offsets i
  simp only [Ring.remain]
  omega

theorem init_shaped : Shaped system.init := by
  refine ⟨⟨?_,?_,?_,?_,?_,?_⟩,?_,?_⟩
  · intro i
    exact ⟨Int.le_refl 0,by simpa [system,initDataBuffer] using lengthOfBuffer_pos⟩
  · intro i
    simp [system,initDataBuffer,boot]
  · exact ⟨Int.le_refl 0,by simp [system,initDataBuffer,boot]⟩
  · intro k hk
    simp [system,initDataBuffer,boot]
  · simp [system,initDataBuffer,boot]
  · intro i _ _
    rfl
  · nofun
  · nofun

theorem step_shaped (h : Shaped s) (ht : system.step s a = some t) : Shaped t := by
  cases step_move ht with
  | callWrite idle enough =>
    refine ⟨h.ring,?_,h.reader⟩
    intro c hc
    cases hc
    exact ⟨rfl,enough⟩
  | returnWrite => exact ⟨h.ring,nofun,h.reader⟩
  | @fill c call more free fits =>
    obtain ⟨hc,hs⟩ := h.writer c call
    exact ⟨h.ring.fill hc hs more fits,nofun,h.reader⟩
  | @commit c call more free beyond =>
    obtain ⟨hc,hs⟩ := h.writer c call
    refine ⟨h.ring.commit hc hs free beyond,?_,h.reader⟩
    intro c' hc'
    cases hc'
    have := h.ring.remain_pos c.current
    refine ⟨rfl,?_⟩
    simp only [List.length_drop]
    omega
  | callRead idle =>
    refine ⟨h.ring,h.writer,?_⟩
    intro d hd
    cases hd
    rfl
  | returnRead => exact ⟨h.ring,h.writer,nofun⟩
  | consume call more ready fits =>
    exact ⟨h.ring.consume (h.reader _ call) more fits,h.writer,nofun⟩
  | release call more ready beyond =>
    refine ⟨h.ring.release (h.reader _ call) ready,h.writer,?_⟩
    intro d hd
    cases hd
    rfl

theorem reaches_shaped (h : system.Reaches s) : Shaped s :=
  h.invariant init_shaped (fun _ _ _ => step_shaped)

/-- A copy that touches only its own slot. -/
def Inside (copy : Copy) : Prop :=
  0 ≤ copy.offset ∧ 0 ≤ copy.size ∧ copy.offset + copy.size ≤ lengthOfBuffer

theorem step_inside (h : Shaped s) (ht : system.step s a = some t)
    (hi : ∀ copy ∈ s.writes ++ s.reads, Inside copy) :
    ∀ copy ∈ t.writes ++ t.reads, Inside copy := by
  intro copy hm
  cases step_move ht with
  | callWrite => exact hi copy hm
  | returnWrite => exact hi copy hm
  | callRead => exact hi copy hm
  | returnRead => exact hi copy hm
  | @fill c call more free fits =>
    simp only [List.mem_append,List.mem_singleton] at hm hi
    rcases hm with (hm | rfl) | hm
    · exact hi copy (Or.inl hm)
    · exact ⟨(h.ring.offsets c.current).1,Int.le_of_lt more,by
        simp only [Ring.remain,WriteCall.copy] at fits ⊢; omega⟩
    · exact hi copy (Or.inr hm)
  | @commit c call more free beyond =>
    simp only [List.mem_append,List.mem_singleton] at hm hi
    rcases hm with (hm | rfl) | hm
    · exact hi copy (Or.inl hm)
    · exact ⟨(h.ring.offsets c.current).1,Int.le_of_lt (h.ring.remain_pos c.current),by
        simp only [Ring.remain,WriteCall.copy]; omega⟩
    · exact hi copy (Or.inr hm)
  | @consume d call more ready fits =>
    simp only [List.mem_append,List.mem_singleton] at hm hi
    rcases hm with hm | hm | rfl
    · exact hi copy (Or.inl hm)
    · exact hi copy (Or.inr hm)
    · exact ⟨(h.ring.offsets d.current).1,Int.le_of_lt more,by
        simp only [Ring.remain,ReadCall.copy] at fits ⊢; omega⟩
  | @release d call more ready beyond =>
    simp only [List.mem_append,List.mem_singleton] at hm hi
    rcases hm with hm | hm | rfl
    · exact hi copy (Or.inl hm)
    · exact hi copy (Or.inr hm)
    · exact ⟨(h.ring.offsets d.current).1,Int.le_of_lt (h.ring.remain_pos d.current),by
        simp only [Ring.remain,ReadCall.copy]; omega⟩

theorem reaches_inside (h : system.Reaches s) : ∀ copy ∈ s.writes ++ s.reads, Inside copy := by
  have hboth := h.invariant (P := fun s => Shaped s ∧ ∀ copy ∈ s.writes ++ s.reads, Inside copy)
    ⟨init_shaped,by intro copy hm; cases hm⟩
    (fun _ _ _ hs ht => ⟨step_shaped hs.1 ht,step_inside hs.1 ht hs.2⟩)
  exact hboth.2

/-- The slots handed to the reader. -/
def committedSlots (r : Ring) : Finset (Fin numberOfBuffer) :=
  Finset.univ.filter (fun i => (r.dataBuffer i).dataBufferState = .prepared)

theorem Shape.committed_card (h : Shape r) : ((committedSlots r).card : Int) = r.bufferUsed := by
  have himage : committedSlots r =
      (Finset.range r.bufferUsed.toNat).image (ahead r.currentReadBuffer) := by
    ext i
    simp only [committedSlots,Finset.mem_filter,Finset.mem_univ,true_and,Finset.mem_image,
      Finset.mem_range]
    constructor
    · intro hp
      obtain ⟨k,hk,rfl⟩ := exists_ahead r.currentReadBuffer i
      exact ⟨k,by have := (h.flags k hk).mp hp; omega,rfl⟩
    · rintro ⟨k,hk,rfl⟩
      have := h.counted
      exact (h.flags k (by omega)).mpr (by omega)
  have hb := h.counted
  rw [himage,Finset.card_image_of_injOn,Finset.card_range]
  · omega
  · intro j hj k hk he
    simp only [Finset.coe_range,Set.mem_Iio] at hj hk
    exact ahead_inj (by omega) (by omega) he

theorem Shape.percent (h : Shape r) :
    getBufferPercent r = 100 / numberOfBuffer * (committedSlots r).card ∧
      0 ≤ getBufferPercent r ∧ getBufferPercent r ≤ 100 := by
  have hb := h.counted
  have hp : getBufferPercent r = 20 * r.bufferUsed := by
    unfold getBufferPercent numberOfBuffer
    rw [Int.tdiv_eq_ediv_of_nonneg (by omega)]
    omega
  rw [h.committed_card,hp]
  unfold numberOfBuffer at hb ⊢
  omega

/-- The representation invariant of the slot ring under every interleaving of
loop passes of one writer and one reader. -/
theorem ring_invariant (h : system.Reaches s) :
    (∀ i, 0 ≤ (s.ring.dataBuffer i).used ∧ (s.ring.dataBuffer i).used < lengthOfBuffer) ∧
    (∀ copy ∈ s.writes ++ s.reads, Inside copy) ∧
    (0 ≤ s.ring.bufferUsed ∧ s.ring.bufferUsed ≤ numberOfBuffer) ∧
    (∀ k < numberOfBuffer,
      (s.ring.dataBuffer (ahead s.ring.currentReadBuffer k)).dataBufferState = .prepared ↔
        k < s.ring.bufferUsed) ∧
    s.ring.currentWriteBuffer = ahead s.ring.currentReadBuffer s.ring.bufferUsed.toNat ∧
    (∀ i, i ≠ s.ring.currentWriteBuffer → i ≠ s.ring.currentReadBuffer →
      (s.ring.dataBuffer i).used = 0) ∧
    getBufferPercent s.ring = 100 / numberOfBuffer * (committedSlots s.ring).card ∧
    0 ≤ getBufferPercent s.ring ∧ getBufferPercent s.ring ≤ 100 := by
  have hs := (reaches_shaped h).ring
  exact ⟨hs.offsets,reaches_inside h,hs.counted,hs.flags,hs.cursors,hs.idle,hs.percent⟩

/-- One slot handed over and its first byte read. -/
theorem ring_invariant_one_slot :
    ∃ s, system.Reaches s ∧ s.ring.bufferUsed = 1 ∧
      getBufferPercent s.ring = 100 / numberOfBuffer * (committedSlots s.ring).card := by
  let acts : List Act := [
    .callWrite (List.replicate 5120 7) 5120,.passWrite,.passWrite,.callRead 1,.passRead]
  have hrun : ((system.exec (fun _ _ => True) system.init acts).map
      (fun s => s.ring.bufferUsed)) = some 1 := by decide +kernel
  obtain ⟨s,hs,hb⟩ := Option.map_eq_some_iff.mp hrun
  have h := (System.run_of_exec hs).reaches
  obtain ⟨_,_,_,_,_,_,hp,_⟩ := ring_invariant h
  exact ⟨s,h,hb,hp⟩

end WifiSpeaker.Proofs.DataBufferShape
