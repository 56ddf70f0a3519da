import WifiSpeaker.Proofs.DataBufferQueue

namespace WifiSpeaker.Proofs.WriterFrame
open Common DataBuffer DataBufferShape DataBufferQueue

/-- The committed unread data: of the `B_PREPARED` slots, in ring order from the
read cursor, the bytes from `used` to the end. -/
def committed (r : Ring) : List UInt8 :=
  (List.range numberOfBuffer).flatMap (fun k =>
    let slot := r.dataBuffer (ahead r.currentReadBuffer k)
    if slot.dataBufferState = .prepared then rest slot else [])

/-- The pass keeps the committed data as it is, or appends one whole slot. -/
def Keeps (r r' : Ring) : Prop :=
  committed r <+: committed r' ∧
    (committed r' = committed r ∨
      ∃ slot : List UInt8, slot.length = lengthOfBuffer ∧ committed r' = committed r ++ slot)

/-- The pass fills the last free slot up while the reader is in the middle of its own. -/
def Rewinds (s : State) : Prop :=
  ∃ c ∈ s.writer, s.ring.remain c.current ≤ c.size ∧ s.ring.bufferUsed = numberOfBuffer - 1 ∧
    (s.ring.dataBuffer s.ring.currentReadBuffer).used ≠ 0

/-- The prepared slots are the first ones from the read cursor. -/
theorem committed_eq_unread (h : Shape r) : committed r = unread r := by
  obtain ⟨h0,hn⟩ := h.counted
  have hrange : List.range numberOfBuffer = List.range r.bufferUsed.toNat ++
      (List.range (numberOfBuffer - r.bufferUsed.toNat)).map (r.bufferUsed.toNat + ·) := by
    rw [← List.range_add]
    congr 1
    omega
  have hfront : ∀ k ∈ List.range r.bufferUsed.toNat,
      (if (r.dataBuffer (ahead r.currentReadBuffer k)).dataBufferState = .prepared then
        rest (r.dataBuffer (ahead r.currentReadBuffer k)) else []) = chunk r k := by
    intro k hk
    have hlt := List.mem_range.mp hk
    exact if_pos ((h.flags k (by omega)).mpr (by omega))
  have hback : ∀ k ∈ List.range (numberOfBuffer - r.bufferUsed.toNat),
      (if (r.dataBuffer (ahead r.currentReadBuffer
          (r.bufferUsed.toNat + k))).dataBufferState = .prepared then
        rest (r.dataBuffer (ahead r.currentReadBuffer (r.bufferUsed.toNat + k))) else []) = [] := by
    intro k hk
    have hlt := List.mem_range.mp hk
    apply if_neg
    rw [h.flags _ (by omega)]
    omega
  unfold committed
  rw [hrange,List.flatMap_append,List.flatMap_map,List.flatMap_congr hfront,
    List.flatMap_congr hback,unread]
  simp

theorem Keeps.same (h : committed r' = committed r) : Keeps r r' :=
  ⟨by rw [h],.inl h⟩

theorem Keeps.snoc (h : committed r' = committed r ++ slot) (hl : slot.length = lengthOfBuffer) :
    Keeps r r' :=
  ⟨⟨slot,h.symm⟩,.inr ⟨slot,hl,h⟩⟩

/-- A pass that keeps the data adds no bytes or those of one slot. -/
theorem Keeps.length (h : Keeps r r') :
    (committed r').length = (committed r).length ∨
      (committed r').length = (committed r).length + lengthOfBuffer := by
  rcases h.2 with he | ⟨slot,hl,he⟩
  · left
    rw [he]
  · right
    rw [he,List.length_append,hl]

section Commit
variable {r : Ring} {c : WriteCall}

/-- The slot behind the writer's is the reader's exactly when it is the last free one. -/
theorem next_is_read (h : Shape r) (hb : r.bufferUsed < numberOfBuffer) :
    ahead r.currentWriteBuffer 1 = r.currentReadBuffer ↔ r.bufferUsed = numberOfBuffer - 1 := by
  obtain ⟨h0,-⟩ := h.counted
  rw [h.cursors,ahead_ahead]
  constructor
  · intro he
    by_contra hne
    have := ahead_inj (j := r.bufferUsed.toNat + 1) (k := 0) (by omega) (by omega)
      (he.trans (ahead_zero _).symm)
    omega
  · intro he
    have hfull : r.bufferUsed.toNat + 1 = numberOfBuffer := by omega
    rw [hfull,ahead_full]

theorem next_ne_write (r : Ring) : ahead r.currentWriteBuffer 1 ≠ r.currentWriteBuffer := by
  intro he
  have := ahead_inj (j := 1) (k := 0) (by decide) (by decide) (he.trans (ahead_zero _).symm)
  omega

/-- The writer moves to a slot at offset 0, unless the reader is in the middle of it. -/
theorem next_clean (h : Shape r) (hb : r.bufferUsed < numberOfBuffer)
    (hn : r.bufferUsed = numberOfBuffer - 1 → (r.dataBuffer r.currentReadBuffer).used = 0) :
    (r.dataBuffer (ahead r.currentWriteBuffer 1)).used = 0 := by
  by_cases hlast : r.bufferUsed = numberOfBuffer - 1
  · rw [(next_is_read h hb).mpr hlast]
    exact hn hlast
  · apply h.idle _ (next_ne_write r)
    intro he
    exact hlast ((next_is_read h hb).mp he)

theorem length_committed_slot (h : Shape r) (hc : c.current = r.currentWriteBuffer)
    (hf : (r.dataBuffer c.current).dataBufferState = .unprepared) (hs : c.size ≤ c.data.length)
    (ho : r.remain c.current ≤ c.size) :
    (chunk (r.commit c) r.bufferUsed.toNat).length = lengthOfBuffer := by
  have hcur : ahead (r.commit c).currentReadBuffer r.bufferUsed.toNat = c.current := by
    rw [hc,h.cursors]
    rfl
  rw [chunk,hcur,rest,commit_used,if_pos (Or.inr rfl),List.length_drop,
    (h.commit hc hs hf ho).sized]
  rfl

theorem commit_keeps (h : Shape r) (hc : c.current = r.currentWriteBuffer)
    (hf : (r.dataBuffer c.current).dataBufferState = .unprepared) (hs : c.size ≤ c.data.length)
    (ho : r.remain c.current ≤ c.size)
    (hn : r.bufferUsed = numberOfBuffer - 1 → (r.dataBuffer r.currentReadBuffer).used = 0) :
    Keeps r (r.commit c) := by
  have hb : r.bufferUsed < numberOfBuffer := h.free_iff.mp (hc ▸ hf)
  have hunread := commit_unread h hc hb hs ho (next_clean h hb hn)
  rw [List.append_assoc,← commit_chunk h hc hb hs ho] at hunread
  have hcommit : committed (r.commit c) = committed r ++ chunk (r.commit c) r.bufferUsed.toNat := by
    rw [committed_eq_unread h,committed_eq_unread (h.commit hc hs hf ho),hunread]
  exact .snoc hcommit (length_committed_slot h hc hf hs ho)

/-- The reader's slot is whole again: the bytes it had read come back in front. -/
theorem commit_rewinds (h : Shape r) (hc : c.current = r.currentWriteBuffer)
    (hf : (r.dataBuffer c.current).dataBufferState = .unprepared) (hs : c.size ≤ c.data.length)
    (ho : r.remain c.current ≤ c.size) (hlast : r.bufferUsed = numberOfBuffer - 1) :
    (committed (r.commit c)).length =
      (committed r).length + (r.dataBuffer r.currentReadBuffer).used.toNat + lengthOfBuffer := by
  have hb : r.bufferUsed < numberOfBuffer := h.free_iff.mp (hc ▸ hf)
  obtain ⟨n,hcount⟩ : ∃ n, r.bufferUsed.toNat = n + 1 := by
    refine ⟨3,?_⟩
    rw [hlast]
    rfl
  have hnext := (next_is_read h hb).mpr hlast
  have hfirst : (chunk (r.commit c) 0).length =
      (chunk r 0).length + (r.dataBuffer r.currentReadBuffer).used.toNat := by
    have hread : (r.commit c).currentReadBuffer = r.currentReadBuffer := rfl
    have hsized := (h.commit hc hs hf ho).sized r.currentReadBuffer
    have hoff := h.offsets r.currentReadBuffer
    simp only [chunk,rest,ahead_zero,List.length_drop,hread,h.sized,hsized,commit_used,hnext,
      true_or,if_true]
    omega
  have hmid : ∀ k ∈ List.range n, chunk (r.commit c) (k + 1) = chunk r (k + 1) := by
    intro k hk
    have hlt := List.mem_range.mp hk
    apply commit_chunk_other h hc hb (by omega)
    intro he
    rw [hnext] at he
    exact absurd he (read_ne h (by omega))
  have hslot := length_committed_slot h hc hf hs ho
  rw [hcount] at hslot
  rw [committed_eq_unread h,committed_eq_unread (h.commit hc hs hf ho),unread,unread,commit_count h,
    hcount,List.range_succ,List.flatMap_append,List.range_succ_eq_map]
  simp only [List.flatMap_cons,List.flatMap_nil,List.append_nil,List.flatMap_map,
    List.length_append,Nat.succ_eq_add_one,List.flatMap_congr hmid,hfirst,hslot]
  omega

end Commit

/-- A pass that fills its slot up is a commit. -/
theorem pass_commits (hs : Shaped s) (ht : step s .passWrite = some t) (hw : s.writer = some c)
    (ho : s.ring.remain c.current ≤ c.size) :
    t.ring = s.ring.commit c ∧ (s.ring.dataBuffer c.current).dataBufferState = .unprepared := by
  have hpos := hs.ring.remain_pos c.current
  cases step_move ht with
  | returnWrite call done =>
    cases hw.symm.trans call
    omega
  | fill call more free fits =>
    cases hw.symm.trans call
    omega
  | commit call more free beyond =>
    cases hw.symm.trans call
    exact ⟨rfl,free⟩

theorem rewinds_not_keeps (hs : Shaped s) (ht : step s .passWrite = some t) (hr : Rewinds s) :
    ¬ Keeps s.ring t.ring := by
  obtain ⟨c,hw,ho,hlast,hused⟩ := hr
  obtain ⟨hcur,henough⟩ := hs.writer c hw
  obtain ⟨hring,hfree⟩ := pass_commits hs ht hw ho
  have hlen := commit_rewinds hs.ring hcur hfree henough ho hlast
  have hoff := hs.ring.offsets s.ring.currentReadBuffer
  rw [hring]
  intro hk
  rcases hk.length with he | he
  · omega
  · omega

/-- A pass of `buffer_write_data` keeps the committed data, except one that fills
the last free slot while the reader is in the middle of its own. -/
theorem write_keeps_iff (h : system.Reaches s) (ht : step s .passWrite = some t) :
    Keeps s.ring t.ring ↔ ¬ Rewinds s := by
  have hs := reaches_shaped h
  constructor
  · intro hk hr
    exact rewinds_not_keeps hs ht hr hk
  · intro hn
    cases step_move ht with
    | returnWrite call done => exact .same rfl
    | @fill c call more free fits =>
      obtain ⟨hcur,henough⟩ := hs.writer c call
      have hb : s.ring.bufferUsed < numberOfBuffer := hs.ring.free_iff.mp (hcur ▸ free)
      apply Keeps.same
      rw [committed_eq_unread hs.ring,committed_eq_unread (hs.ring.fill hcur henough more fits),
        fill_unread hs.ring hcur hb]
    | @commit c call more free beyond =>
      obtain ⟨hcur,henough⟩ := hs.writer c call
      apply commit_keeps hs.ring hcur free henough beyond
      intro hlast
      by_contra hused
      exact hn ⟨c,call,beyond,hlast,hused⟩

/-- Four slots are full, the reader has taken some bytes of the first, and the
writer is about to fill the fifth slot up. -/
def lastSlot (size : Int) : List Act :=
  .callWrite (List.replicate 20480 7) 20480 :: List.replicate 5 .passWrite ++
    [.callRead size,.passRead,.callWrite (List.replicate 5120 8) 5120]

/-- What matters of a state to the pass of the writer. -/
def view (s : State) : Option Int × Int × Int × Bool :=
  (s.writer.map WriteCall.size,s.ring.bufferUsed,
    (s.ring.dataBuffer s.ring.currentReadBuffer).used,(step s .passWrite).isSome)

/-- One byte read of the first slot: the pass puts it in front of the reader again. -/
theorem write_rewinds_reader :
    ¬ ∀ s t, system.Reaches s → step s .passWrite = some t → Keeps s.ring t.ring := by
  intro hall
  have hrun : ((system.exec (fun _ _ => True) system.init (lastSlot 1)).map view) =
      some (some 5120,4,1,true) := by decide +kernel
  obtain ⟨s,hs,he⟩ := Option.map_eq_some_iff.mp hrun
  simp only [view,Prod.mk.injEq,Option.map_eq_some_iff,Option.isSome_iff_exists] at he
  obtain ⟨⟨c,hw,hsize⟩,hcount,hused,t,ht⟩ := he
  have hr := (System.run_of_exec hs).reaches
  have hsh := reaches_shaped hr
  refine rewinds_not_keeps hsh ht ⟨c,hw,?_,?_,?_⟩ (hall s t hr ht)
  · have hoff := hsh.ring.offsets c.current
    rw [Ring.remain,hsize]
    unfold lengthOfBuffer
    omega
  · rw [hcount]
    rfl
  · rw [hused]
    decide

/-- No byte of the first slot read: the fifth slot is appended. -/
theorem write_keeps_last_slot :
    ∃ s t, system.Reaches s ∧ step s .passWrite = some t ∧ s.ring.bufferUsed = 4 ∧
      Keeps s.ring t.ring := by
  have hrun : ((system.exec (fun _ _ => True) system.init (lastSlot 0)).map view) =
      some (some 5120,4,0,true) := by decide +kernel
  obtain ⟨s,hs,he⟩ := Option.map_eq_some_iff.mp hrun
  simp only [view,Prod.mk.injEq,Option.isSome_iff_exists] at he
  obtain ⟨-,hcount,hused,t,ht⟩ := he
  have hr := (System.run_of_exec hs).reaches
  refine ⟨s,t,hr,ht,hcount,(write_keeps_iff hr ht).mpr ?_⟩
  rintro ⟨c,-,-,-,hne⟩
  exact hne hused

end WifiSpeaker.Proofs.WriterFrame
