import WifiSpeaker.Common.Queue
import WifiSpeaker.Proofs.DataBufferShape

namespace WifiSpeaker.Proofs.DataBufferQueue
open Common DataBuffer DataBufferShape

/-- What a slot still holds for the reader. -/
def rest (slot : Slot) : List UInt8 := slot.buffer.drop slot.used.toNat

/-- What a slot holds of the writer's. -/
def filled (slot : Slot) : List UInt8 := slot.buffer.take slot.used.toNat

/-- The unread part of the `k`-th slot from the read cursor. -/
def chunk (r : Ring) (k : Nat) : List UInt8 := rest (r.dataBuffer (ahead r.currentReadBuffer k))

/-- The committed bytes the reader has not copied out yet. -/
def unread (r : Ring) : List UInt8 := (List.range r.bufferUsed.toNat).flatMap (chunk r)

/-- The bytes of the writer's slot that are not committed yet. -/
def unsent (r : Ring) : List UInt8 :=
  if r.bufferUsed < numberOfBuffer then filled (r.dataBuffer r.currentWriteBuffer) else []

/-- A pass that moves on finds the next slot with `used = 0`, so that the store
`current->used = 0` made there changes nothing. -/
def CleanAdvance (s : State) : Act → Prop
  | .passWrite => ∀ c ∈ s.writer, s.ring.remain c.current ≤ c.size →
      (s.ring.dataBuffer (ahead s.ring.currentWriteBuffer 1)).used = 0
  | .passRead => ∀ d ∈ s.reader, s.ring.remain d.current ≤ d.size →
      (s.ring.dataBuffer (ahead s.ring.currentReadBuffer 1)).used = 0
  | _ => True

instance (s : State) : (a : Act) → Decidable (CleanAdvance s a)
  | .passWrite => inferInstanceAs (Decidable (∀ c ∈ s.writer, _))
  | .passRead => inferInstanceAs (Decidable (∀ d ∈ s.reader, _))
  | .callWrite _ _ | .callRead _ => inferInstanceAs (Decidable True)

theorem length_chunk (h : Shape r) (k : Nat) : (chunk r k).length ≤ lengthOfBuffer := by
  simp only [chunk,rest,List.length_drop,h.sized]
  omega

theorem length_unread (h : Shape r) : (unread r).length ≤ r.bufferUsed.toNat * lengthOfBuffer := by
  unfold unread
  induction r.bufferUsed.toNat with
  | zero => simp
  | succ n ih =>
    have := length_chunk h n
    simp only [List.range_succ,List.flatMap_append,List.length_append,List.flatMap_cons,
      List.flatMap_nil,List.append_nil,Nat.add_mul,Nat.one_mul]
    omega

theorem length_unsent (h : Shape r) (hb : r.bufferUsed < numberOfBuffer) :
    ((unsent r).length : Int) = (r.dataBuffer r.currentWriteBuffer).used := by
  have ho := h.offsets r.currentWriteBuffer
  simp only [unsent,if_pos hb,filled,List.length_take,h.sized]
  omega

/-- While something is committed, the reader's slot comes first. -/
theorem unread_cons (r : Ring) (hb : 0 < r.bufferUsed) :
    unread r = chunk r 0 ++
      (List.range (r.bufferUsed.toNat - 1)).flatMap (fun k => chunk r (k + 1)) := by
  obtain ⟨n,hn⟩ : ∃ n, r.bufferUsed.toNat = n + 1 := ⟨r.bufferUsed.toNat - 1,by omega⟩
  rw [unread,hn,List.range_succ_eq_map,List.flatMap_cons,List.flatMap_map,Nat.add_sub_cancel]

/-- No committed slot but the reader's own is the writer's. -/
theorem write_ne (h : Shape r) (hk : k < r.bufferUsed.toNat)
    (hne : k ≠ 0 ∨ r.bufferUsed < numberOfBuffer) :
    ahead r.currentReadBuffer k ≠ r.currentWriteBuffer := by
  obtain ⟨h0,hn⟩ := h.counted
  rw [h.cursors]
  intro he
  by_cases hb : r.bufferUsed < numberOfBuffer
  · have := ahead_inj (by omega) (by omega) he
    omega
  · have hfull : r.bufferUsed.toNat = numberOfBuffer := by omega
    rw [hfull,ahead_full] at he
    have := ahead_inj (k := 0) (by omega) (by omega) (he.trans (ahead_zero _).symm)
    omega

theorem length_copy {c : WriteCall} {n : Int} (hs : n ≤ c.data.length) :
    (c.copy r n).bytes.length = n.toNat := by
  simp only [WriteCall.copy,List.length_take]
  omega

theorem fill_unread (h : Shape r) (hc : c.current = r.currentWriteBuffer)
    (hb : r.bufferUsed < numberOfBuffer) : unread (r.fill c) = unread r := by
  apply List.flatMap_congr
  intro k hk
  change rest ((r.fill c).dataBuffer (ahead r.currentReadBuffer k)) = _
  rw [fill_slot,hc,if_neg (write_ne h (List.mem_range.mp hk) (Or.inr hb))]
  rfl

theorem fill_unsent (h : Shape r) (hc : c.current = r.currentWriteBuffer)
    (hb : r.bufferUsed < numberOfBuffer) (hs : c.size ≤ c.data.length) (hp : 0 < c.size) :
    unsent (r.fill c) = unsent r ++ (c.copy r c.size).bytes := by
  have ho := h.offsets c.current
  have hz := h.sized c.current
  have hu : ((r.dataBuffer c.current).used + c.size).toNat =
      (r.dataBuffer c.current).used.toNat + (c.copy r c.size).bytes.length := by
    rw [length_copy hs]
    omega
  have hb' : (r.fill c).bufferUsed < numberOfBuffer := hb
  have hw : (r.fill c).currentWriteBuffer = c.current := hc.symm
  rw [unsent,if_pos hb',unsent,if_pos hb,hw,fill_slot,if_pos rfl,← hc,filled,hu]
  exact take_memcpy_end (by omega)

/-- The committed slot holds what the writer had put there and the copied bytes. -/
theorem commit_chunk (h : Shape r) (hc : c.current = r.currentWriteBuffer)
    (hb : r.bufferUsed < numberOfBuffer) (hs : c.size ≤ c.data.length)
    (ho : r.remain c.current ≤ c.size) :
    chunk (r.commit c) r.bufferUsed.toNat =
      unsent r ++ (c.copy r (r.remain c.current)).bytes := by
  have hoff := h.offsets c.current
  have hz := h.sized c.current
  have hcur : ahead (r.commit c).currentReadBuffer r.bufferUsed.toNat = c.current := by
    rw [hc,h.cursors]
    rfl
  have hlen := length_copy (r := r) (c := c) (n := r.remain c.current) (by omega)
  rw [chunk,hcur,rest,commit_used,if_pos (Or.inr rfl),commit_buffer,if_pos rfl,Slot.store,
    memcpy_fill (by
      rw [hlen]
      simp only [WriteCall.copy,Ring.remain]
      omega),unsent,if_pos hb,← hc]
  rfl

/-- Committing leaves the other committed slots alone, unless the slot the writer
moves to is one the reader is in the middle of. -/
theorem commit_chunk_other (h : Shape r) (hc : c.current = r.currentWriteBuffer)
    (hb : r.bufferUsed < numberOfBuffer) (hk : k < r.bufferUsed.toNat)
    (hclean : ahead r.currentReadBuffer k = ahead r.currentWriteBuffer 1 →
      (r.dataBuffer (ahead r.currentWriteBuffer 1)).used = 0) :
    chunk (r.commit c) k = chunk r k := by
  have hne := write_ne h hk (Or.inr hb)
  rw [← hc] at hne
  have hused : ((r.commit c).dataBuffer (ahead r.currentReadBuffer k)).used =
      (r.dataBuffer (ahead r.currentReadBuffer k)).used := by
    rw [commit_used]
    split_ifs with he
    · rcases he with he | he
      · rw [he,hclean he]
      · exact absurd he hne
    · rfl
  change rest ((r.commit c).dataBuffer (ahead r.currentReadBuffer k)) = _
  rw [rest,hused,commit_buffer,if_neg hne]
  rfl

theorem commit_count (h : Shape r) (c : WriteCall) :
    (r.commit c).bufferUsed.toNat = r.bufferUsed.toNat + 1 := by
  change (r.bufferUsed + 1).toNat = _
  have := h.counted
  omega

/-- Committing appends one whole slot behind the committed bytes, provided the
slot the writer moves to is not one the reader is in the middle of. -/
theorem commit_unread (h : Shape r) (hc : c.current = r.currentWriteBuffer)
    (hb : r.bufferUsed < numberOfBuffer) (hs : c.size ≤ c.data.length)
    (ho : r.remain c.current ≤ c.size)
    (hclean : (r.dataBuffer (ahead r.currentWriteBuffer 1)).used = 0) :
    unread (r.commit c) = unread r ++ unsent r ++ (c.copy r (r.remain c.current)).bytes := by
  have hold : ∀ k ∈ List.range r.bufferUsed.toNat, chunk (r.commit c) k = chunk r k := by
    intro k hk
    exact commit_chunk_other h hc hb (List.mem_range.mp hk) (fun _ => hclean)
  rw [unread,commit_count h,List.range_succ,List.flatMap_append,List.flatMap_congr hold,
    List.flatMap_cons,List.flatMap_nil,List.append_nil,commit_chunk h hc hb hs ho,
    List.append_assoc]
  rfl

theorem commit_unsent (r : Ring) (c : WriteCall) : unsent (r.commit c) = [] := by
  unfold unsent
  split_ifs
  · change filled ((r.commit c).dataBuffer (ahead r.currentWriteBuffer 1)) = []
    rw [filled,commit_used,if_pos (Or.inl rfl)]
    rfl
  · rfl

theorem read_ne (h : Shape r) (hk : k + 1 < r.bufferUsed.toNat) :
    ahead r.currentReadBuffer (k + 1) ≠ r.currentReadBuffer := by
  have := h.counted
  intro he
  have := ahead_inj (k := 0) (by omega) (by omega) (he.trans (ahead_zero _).symm)
  omega

theorem consume_unread (h : Shape r) (hd : d.current = r.currentReadBuffer)
    (hb : 0 < r.bufferUsed) (hp : 0 < d.size) :
    unread r = (d.copy r d.size).bytes ++ unread (r.consume d) := by
  have ho := h.offsets d.current
  have hb' : 0 < (r.consume d).bufferUsed := hb
  have hfirst : chunk r 0 = (d.copy r d.size).bytes ++ chunk (r.consume d) 0 := by
    change rest (r.dataBuffer (ahead r.currentReadBuffer 0)) = _ ++
      rest ((r.consume d).dataBuffer (ahead r.currentReadBuffer 0))
    rw [ahead_zero,← hd,consume_slot,if_pos rfl]
    have hu : ((r.dataBuffer d.current).used + d.size).toNat =
        (r.dataBuffer d.current).used.toNat + d.size.toNat := by omega
    simp only [rest,ReadCall.copy,hu,← List.drop_drop,List.take_append_drop]
  have htail : ∀ k ∈ List.range (r.bufferUsed.toNat - 1),
      chunk (r.consume d) (k + 1) = chunk r (k + 1) := by
    intro k hk
    have hk := List.mem_range.mp hk
    change rest ((r.consume d).dataBuffer (ahead r.currentReadBuffer (k + 1))) = _
    rw [consume_slot,hd,if_neg (read_ne h (by omega))]
    rfl
  rw [unread_cons r hb,unread_cons _ hb',hfirst,List.append_assoc]
  congr 2
  exact (List.flatMap_congr htail).symm

theorem consume_unsent (h : Shape r) (hd : d.current = r.currentReadBuffer)
    (hb : 0 < r.bufferUsed) : unsent (r.consume d) = unsent r := by
  change (if r.bufferUsed < numberOfBuffer then _ else []) = _
  unfold unsent
  split_ifs with hlt
  · have hne := write_ne h (k := 0) (by omega) (Or.inr hlt)
    rw [ahead_zero,← hd] at hne
    change filled ((r.consume d).dataBuffer r.currentWriteBuffer) = _
    rw [consume_slot,if_neg (Ne.symm hne)]
  · rfl

/-- Emptying a slot takes exactly its unread bytes off the front, provided the
slot the reader moves to is not one the writer is in the middle of. -/
theorem release_unread (h : Shape r) (hd : d.current = r.currentReadBuffer)
    (hb : 0 < r.bufferUsed)
    (hclean : (r.dataBuffer (ahead r.currentReadBuffer 1)).used = 0) :
    unread r = (d.copy r (r.remain d.current)).bytes ++ unread (r.release d) := by
  have hz := h.sized d.current
  have hfirst : chunk r 0 = (d.copy r (r.remain d.current)).bytes := by
    rw [chunk,ahead_zero,← hd]
    simp only [rest,ReadCall.copy]
    rw [List.take_of_length_le]
    have := h.offsets d.current
    simp only [List.length_drop,hz,Ring.remain]
    omega
  have hn : (r.release d).bufferUsed.toNat = r.bufferUsed.toNat - 1 := by
    change (r.bufferUsed - 1).toNat = _
    omega
  rw [unread_cons r hb,hfirst,unread,hn]
  congr 1
  apply List.flatMap_congr
  intro k hk
  have hk := List.mem_range.mp hk
  change _ = rest ((r.release d).dataBuffer (ahead (ahead r.currentReadBuffer 1) k))
  rw [ahead_ahead,Nat.add_comm 1 k,rest,release_used,release_buffer,hd]
  have hne := read_ne h (k := k) (by omega)
  split_ifs with he
  · rcases he with he | he
    · rw [chunk,rest,he,hclean]
    · exact absurd he hne
  · rfl

theorem release_unsent (h : Shape r) (hd : d.current = r.currentReadBuffer)
    (hb : 0 < r.bufferUsed)
    (hclean : (r.dataBuffer (ahead r.currentReadBuffer 1)).used = 0) :
    unsent (r.release d) = unsent r := by
  have hcount := h.counted
  have hlt : (r.release d).bufferUsed < numberOfBuffer := by
    change r.bufferUsed - 1 < _
    omega
  rw [unsent,if_pos hlt]
  change filled ((r.release d).dataBuffer r.currentWriteBuffer) = _
  unfold unsent
  split_ifs with hn
  · have hne := write_ne h (k := 0) (by omega) (Or.inr hn)
    rw [ahead_zero,← hd] at hne
    rw [filled,release_used,release_buffer]
    split_ifs with he
    · rcases he with he | he
      · rw [filled,he,hclean]
      · exact absurd he.symm hne
    · rfl
  · -- a full ring: the writer waits at the slot the reader has just freed
    have hfull : r.bufferUsed.toNat = numberOfBuffer := by omega
    have hw : r.currentWriteBuffer = d.current := by rw [h.cursors,hfull,ahead_full,hd]
    rw [filled,release_used,if_pos (Or.inr hw)]
    rfl

/-- The byte queue the ring stands for: its capacity is that of all slots, and
bytes become readable in whole slots. -/
abbrev byteQueue : System (Queue UInt8) (QueueAct UInt8) :=
  Queue.system UInt8 (numberOfBuffer * lengthOfBuffer) lengthOfBuffer

/-- The ring and its two tasks in a state of the byte queue. -/
structure Carries (s : State) (q : Queue UInt8) : Prop where
  shaped : Shaped s
  entered : q.entered = s.copiedIn
  left : q.left = s.copiedOut
  split : s.copiedIn = s.copiedOut ++ (unread s.ring ++ unsent s.ring)
  committed : q.committed = (s.copiedOut ++ unread s.ring).length
  whole : q.committed % lengthOfBuffer = 0

theorem Carries.waiting (h : Carries s q) : q.waiting = unread s.ring ++ unsent s.ring := by
  rw [Queue.waiting,h.entered,h.left,h.split,List.drop_left]

theorem copiedIn_snoc (s : State) (copy : Copy) :
    State.copiedIn { s with writes := s.writes ++ [copy] } = s.copiedIn ++ copy.bytes := by
  simp [State.copiedIn]

theorem copiedOut_snoc (s : State) (copy : Copy) :
    State.copiedOut { s with reads := s.reads ++ [copy] } = s.copiedOut ++ copy.bytes := by
  simp [State.copiedOut]

/-- The writer's slot and the committed slots fit into the ring together. -/
theorem Carries.room {n : Nat} (h : Carries s q) (hb : s.ring.bufferUsed < numberOfBuffer)
    (hn : (s.ring.dataBuffer s.ring.currentWriteBuffer).used + n ≤ lengthOfBuffer) :
    q.waiting.length + n ≤ numberOfBuffer * lengthOfBuffer := by
  have hr := h.shaped.ring
  have hu := length_unread hr
  have hw := length_unsent hr hb
  have hm : (s.ring.bufferUsed.toNat + 1) * lengthOfBuffer ≤ numberOfBuffer * lengthOfBuffer := by
    apply Nat.mul_le_mul_right
    have := hr.counted
    omega
  rw [Nat.add_mul,Nat.one_mul] at hm
  rw [h.waiting,List.length_append]
  omega

/-- A pass that only adds bytes to the writer's slot. -/
theorem Carries.enter (h : Carries s q) (ht : Shaped t)
    (hroom : q.waiting.length + bs.length ≤ numberOfBuffer * lengthOfBuffer)
    (hin : t.copiedIn = s.copiedIn ++ bs) (hout : t.copiedOut = s.copiedOut)
    (hu : unread t.ring = unread s.ring) (hw : unsent t.ring = unsent s.ring ++ bs) :
    ∃ q', byteQueue.Steps q q' ∧ Carries t q' := by
  refine ⟨_,System.Steps.one (Queue.step_enter hroom),ht,?_,?_,?_,?_,h.whole⟩
  · rw [hin,← h.entered]
  · rw [hout,← h.left]
  · rw [hin,hout,hu,hw,h.split]
    simp only [List.append_assoc]
  · rw [hout,hu]
    exact h.committed

/-- A pass that completes the writer's slot. -/
theorem Carries.commit (h : Carries s q) (ht : Shaped t)
    (hroom : q.waiting.length + bs.length ≤ numberOfBuffer * lengthOfBuffer)
    (hfull : (unsent s.ring).length + bs.length = lengthOfBuffer)
    (hin : t.copiedIn = s.copiedIn ++ bs) (hout : t.copiedOut = s.copiedOut)
    (hu : unread t.ring = unread s.ring ++ unsent s.ring ++ bs) (hw : unsent t.ring = []) :
    ∃ q', byteQueue.Steps q q' ∧ Carries t q' := by
  have hlen : (q.entered ++ bs).length = q.committed + lengthOfBuffer := by
    rw [h.entered,h.split,h.committed]
    simp only [List.length_append]
    omega
  have hmod : (q.entered ++ bs).length % lengthOfBuffer = 0 := by
    rw [hlen,Nat.add_mod_right,h.whole]
  refine ⟨_,System.Steps.two (Queue.step_enter hroom) (Queue.step_commit hmod),
    ht,?_,?_,?_,?_,hmod⟩
  · rw [hin,← h.entered]
  · rw [hout,← h.left]
  · rw [hin,hout,hu,hw,h.split]
    simp only [List.append_assoc,List.append_nil]
  · rw [hout,hu,h.entered,h.split]
    simp only [List.append_assoc]

/-- A pass that takes bytes off the front of the committed ones. -/
theorem Carries.leave (h : Carries s q) (ht : Shaped t) (hin : t.copiedIn = s.copiedIn)
    (hout : t.copiedOut = s.copiedOut ++ bs) (hu : unread s.ring = bs ++ unread t.ring)
    (hw : unsent t.ring = unsent s.ring) : ∃ q', byteQueue.Steps q q' ∧ Carries t q' := by
  have hguard : q.left.length + bs.length ≤ q.committed := by
    rw [h.committed,h.left,hu]
    simp only [List.length_append]
    omega
  refine ⟨_,System.Steps.one (Queue.step_leave hguard),ht,?_,?_,?_,?_,h.whole⟩
  · rw [hin,← h.entered]
  · rw [h.waiting,h.left,hout,hu,List.append_assoc,List.take_left]
  · rw [hin,hout,hw,h.split,hu]
    simp only [List.append_assoc]
  · rw [hout,h.committed,hu]
    simp only [List.append_assoc]

theorem step_carries (h : Carries s q) (hok : CleanAdvance s a)
    (ht : system.step s a = some t) : ∃ q', byteQueue.Steps q q' ∧ Carries t q' := by
  have hr := h.shaped.ring
  have hst := step_shaped h.shaped ht
  cases step_move ht with
  | callWrite | returnWrite | callRead | returnRead =>
    exact ⟨q,.refl q,hst,h.entered,h.left,h.split,h.committed,h.whole⟩
  | @fill c call more free fits =>
    obtain ⟨hc,hs⟩ := h.shaped.writer c call
    have hb : s.ring.bufferUsed < numberOfBuffer := hr.free_iff.mp (hc ▸ free)
    refine h.enter hst (h.room hb ?_) (copiedIn_snoc s _) rfl (fill_unread hr hc hb)
      (fill_unsent hr hc hb hs more)
    rw [length_copy hs,← hc]
    simp only [Ring.remain] at fits
    omega
  | @commit c call more free beyond =>
    obtain ⟨hc,hs⟩ := h.shaped.writer c call
    have hb : s.ring.bufferUsed < numberOfBuffer := hr.free_iff.mp (hc ▸ free)
    have hoff := hr.offsets c.current
    have hlen := length_copy (r := s.ring) (c := c) (n := s.ring.remain c.current) (by omega)
    simp only [Ring.remain] at hlen
    have hfill := length_unsent hr hb
    rw [← hc] at hfill
    refine h.commit hst (h.room hb ?_) ?_ (copiedIn_snoc s _) rfl
      (commit_unread hr hc hb hs beyond (hok c call beyond)) (commit_unsent _ _)
    · simp only [Ring.remain]
      rw [hlen,← hc]
      omega
    · simp only [Ring.remain]
      omega
  | @consume d call more ready fits =>
    have hd := h.shaped.reader d call
    have hb : 0 < s.ring.bufferUsed := hr.ready_iff.mp (hd ▸ ready)
    exact h.leave hst rfl (copiedOut_snoc s _) (consume_unread hr hd hb more)
      (consume_unsent hr hd hb)
  | @release d call more ready beyond =>
    have hd := h.shaped.reader d call
    have hb : 0 < s.ring.bufferUsed := hr.ready_iff.mp (hd ▸ ready)
    have hclean := hok d call beyond
    exact h.leave hst rfl (copiedOut_snoc s _) (release_unread hr hd hb hclean)
      (release_unsent hr hd hb hclean)

theorem init_carries : Carries system.init byteQueue.init := by
  refine ⟨init_shaped,rfl,rfl,?_,rfl,rfl⟩
  have hb : system.init.ring.bufferUsed < numberOfBuffer := by decide
  rw [unsent,if_pos hb]
  rfl

/-- In every run whose passes only move to slots with `used = 0`, the bytes
copied out are a prefix of the bytes copied in, and the ring is in a state of
the byte queue: its readable bytes are the committed ones, its other bytes the
ones in the writer's unfinished slot. -/
theorem ring_refines_queue (h : system.Run CleanAdvance acts s) :
    s.copiedOut <+: s.copiedIn ∧
    ∃ q, byteQueue.Reaches q ∧ q.entered = s.copiedIn ∧ q.left = s.copiedOut ∧
      q.ready = unread s.ring ∧ q.waiting = unread s.ring ++ unsent s.ring := by
  obtain ⟨q,hq,hc⟩ := h.simulates init_carries (fun _ _ _ _ => step_carries)
  have hfirst : q.left <+: q.entered := (Queue.reaches_sound hq).left_first
  rw [hc.left,hc.entered] at hfirst
  refine ⟨hfirst,q,hq,hc.entered,hc.left,?_,hc.waiting⟩
  rw [Queue.ready,hc.entered,hc.split,hc.left,hc.committed,← List.append_assoc,List.take_left,
    List.drop_left]

/-- Fill a slot and one byte of the next, then empty the first: the reader's
store into the next slot discards that byte, and the reader gets another. -/
theorem ring_loses_byte : ¬ ∀ s, system.Reaches s → s.copiedOut <+: s.copiedIn := by
  let acts : List Act := [
    .callWrite (List.replicate 5120 0 ++ [1]) 5121,.passWrite,.passWrite,
    .callRead 5120,.passRead,.passRead,
    .callWrite (List.replicate 5120 0) 5120,.passWrite,.passWrite,
    .callRead 1,.passRead]
  have hrun : ((system.exec (fun _ _ => True) system.init acts).map
      (fun s => decide (s.copiedOut <+: s.copiedIn))) = some false := by decide +kernel
  obtain ⟨s,hs,hp⟩ := Option.map_eq_some_iff.mp hrun
  intro h
  exact of_decide_eq_false hp (h s (System.run_of_exec hs).reaches)

/-- A slot written, its first byte read: a run that meets the condition. -/
theorem ring_refines_queue_first_byte :
    ∃ acts s, system.Run CleanAdvance acts s ∧ s.copiedOut = [7] ∧ s.copiedOut <+: s.copiedIn := by
  let acts : List Act := [
    .callWrite (List.replicate 5120 7) 5120,.passWrite,.passWrite,.callRead 1,.passRead]
  have hrun : ((system.exec CleanAdvance system.init acts).map State.copiedOut) = some [7] := by
    decide +kernel
  obtain ⟨s,hs,hp⟩ := Option.map_eq_some_iff.mp hrun
  have h := System.run_of_exec hs
  exact ⟨acts,s,h,hp,(ring_refines_queue h).1⟩

end WifiSpeaker.Proofs.DataBufferQueue
