import WifiSpeaker.Sender

namespace WifiSpeaker.Proofs.SenderAccount
open Common Wire Sender

/-- The message a block is sent as. -/
def frame (b : Block) : List UInt8 := (Message.data b.inputBuffer).encode

theorem dataLength_toNat (b : Block) : (b.framesPerBuffer * 4).toNat = b.inputBuffer.length := by
  have := b.frames
  have := b.addressable
  rw [UInt32.toNat_mul]
  change b.framesPerBuffer.toNat * 4 % 2 ^ 32 = _
  omega

/-- Three copies one behind the other leave their sources one behind the other. -/
theorem take_memcpy_three (a x y z : List UInt8) (hx : x.length = 4) (hy : y.length = 4)
    (ha : 8 ≤ a.length) :
    (memcpy (memcpy (memcpy a 0 x) 4 y) 8 z).take (8 + z.length) = x ++ (y ++ z) ∧
      8 ≤ (memcpy (memcpy (memcpy a 0 x) 4 y) 8 z).length := by
  have hone := memcpy_three a x y z
  have hfront := take_memcpy_zero a (x ++ (y ++ z))
  have hlen : (x ++ (y ++ z)).length = 8 + z.length := by
    simp only [List.length_append,hx,hy]
    omega
  rw [hx,hy] at hone
  rw [hlen] at hfront
  rw [hone]
  refine ⟨hfront,?_⟩
  simp only [memcpy,List.length_append,List.length_take,List.length_drop]
  omega

/-- After a callback the flagged part of the buffer is the block's message. -/
theorem recordCallback_frame (b : Block) (hu : 8 ≤ u.audioData.length) :
    (recordCallback u b).1.audioData.take (recordCallback u b).1.sizeBuffer = frame b ∧
      8 ≤ (recordCallback u b).1.audioData.length := by
  have hlen : UInt32.ofNat b.inputBuffer.length = b.framesPerBuffer * 4 := by
    rw [← dataLength_toNat,UInt32.ofNat_toNat]
  have h := take_memcpy_three u.audioData (le32 TcpCommand.sendData.code)
    (le32 (b.framesPerBuffer * 4)) b.inputBuffer (length_le32 _) (length_le32 _) hu
  simpa only [recordCallback,dataLength_toNat,List.take_length,frame,Message.encode,hlen] using h

/-- A block is waiting: flagged, and not the one that has just been sent. -/
def Pending (s : State) : Prop := s.uData.dataState = 1 ∧ s.thread ≠ .clear

instance (s : State) : Decidable (Pending s) := inferInstanceAs (Decidable (_ ∧ _))

/-- The mailbox between two steps. -/
structure Accounted (s : State) : Prop where
  room : 8 ≤ s.uData.audioData.length
  flagged : s.thread ≠ .poll → s.uData.dataState = 1
  waiting : Pending s → ∃ (blocks : List Block) (b : Block), (blocks ++ [b]).Sublist s.captured ∧
    s.wire = blocks.map frame ∧ s.uData.audioData.take s.uData.sizeBuffer = frame b
  sent : ∃ blocks : List Block, blocks.Sublist s.captured ∧ s.wire = blocks.map frame
  total : s.captured.length = s.wire.length + s.reports + if Pending s then 1 else 0

theorem callback_accounted (h : Accounted s) (ht : step s (.callback b) = some t) :
    Accounted t := by
  simp only [step,Option.some.injEq] at ht
  subst t
  obtain ⟨hframe,hroom⟩ := recordCallback_frame b h.room
  obtain ⟨blocks,hsub,hwire⟩ := h.sent
  refine ⟨hroom,fun _ => rfl,?_,⟨blocks,hsub.trans (List.sublist_append_left _ _),hwire⟩,?_⟩
  · intro _
    exact ⟨blocks,b,hsub.append (List.Sublist.refl _),hwire,hframe⟩
  · have htotal := h.total
    have hflag := h.flagged
    cases hp : s.thread
    all_goals by_cases hd : s.uData.dataState = 1
    all_goals simp_all [Pending,recordCallback]
    all_goals omega

theorem step_accounted (h : Accounted s) (ht : step s a = some t) : Accounted t := by
  cases a with
  | callback b => exact callback_accounted h ht
  | poll =>
    simp only [step,Option.ite_none_right_eq_some,Option.some.injEq] at ht
    obtain ⟨hp,rfl⟩ := ht
    have hpend : ∀ place, place = (if s.uData.dataState = 1 then Place.send else .poll) →
        (Pending { s with thread := place } ↔ Pending s) := by
      rintro place rfl
      simp only [Pending,hp]
      split_ifs <;> simp_all
    refine ⟨h.room,?_,fun hw => h.waiting ((hpend _ rfl).mp hw),h.sent,?_⟩
    · intro hne
      by_contra hd
      exact hne (if_neg hd)
    · simpa only [hpend _ rfl] using h.total
  | send =>
    simp only [step,Option.ite_none_right_eq_some,Option.some.injEq] at ht
    obtain ⟨hp,rfl⟩ := ht
    have hpend : Pending s := ⟨h.flagged (by simp [hp]),by simp [hp]⟩
    obtain ⟨blocks,b,hsub,hwire,hframe⟩ := h.waiting hpend
    refine ⟨h.room,fun _ => h.flagged (by simp [hp]),fun hw => absurd rfl hw.2,
      ⟨blocks ++ [b],hsub,?_⟩,?_⟩
    · simp [hwire,hframe]
    · have := h.total
      rw [if_pos hpend] at this
      simp only [Pending,ne_eq,not_true_eq_false,and_false,if_false,List.length_append,
        List.length_singleton]
      omega
  | clear =>
    simp only [step,Option.ite_none_right_eq_some,Option.some.injEq] at ht
    obtain ⟨hp,rfl⟩ := ht
    have hpend : ¬ Pending s := fun hw => hw.2 hp
    refine ⟨h.room,fun hne => absurd rfl hne,?_,h.sent,?_⟩
    · intro hw
      exact absurd hw.1 (by simp)
    · have := h.total
      rw [if_neg hpend] at this
      simpa [Pending] using this

theorem reaches_accounted (h : (system heap n).Reaches s) : Accounted s := by
  apply h.invariant ?_ (fun _ _ _ => step_accounted)
  refine ⟨?_,fun hne => absurd rfl hne,?_,⟨[],List.Sublist.refl _,rfl⟩,rfl⟩
  · have := heap.size
    change 8 ≤ heap.bytes.length
    omega
  · intro hw
    exact absurd hw.1 (by simp [system])

/-- Under every interleaving the buffers sent are messages of captured blocks,
each at most once and in their order, and every captured block is sent, was
reported, or waits. -/
theorem sender_accounts (h : (system heap n).Reaches s) :
    (∃ blocks : List Block, blocks.Sublist s.captured ∧
      s.wire = blocks.map (fun b => (Message.data b.inputBuffer).encode)) ∧
    s.captured.length = s.wire.length + s.reports +
      if s.uData.dataState = 1 ∧ s.thread ≠ .clear then 1 else 0 := by
  have ha := reaches_accounted h
  exact ⟨ha.sent,ha.total⟩

/-- A heap that was never written. -/
def zeroHeap : Heap := ⟨List.replicate 4120 0,List.length_replicate⟩

/-- A block of one frame. -/
def oneFrame (sample : UInt8) : Block := ⟨1,[sample,0,sample,0],rfl,Nat.lt_of_sub_eq_succ rfl⟩

/-- A block replaced before it is sent, and one lost between send and clear. -/
theorem sender_accounts_three_blocks :
    ∃ s, (system zeroHeap 0).Reaches s ∧
      s.captured.length = 3 ∧ s.wire.length = 1 ∧ s.reports = 2 ∧
      ∃ blocks : List Block, blocks.Sublist s.captured ∧
        s.wire = blocks.map (fun b => (Message.data b.inputBuffer).encode) := by
  let acts : List Act := [.callback (oneFrame 1),.poll,.callback (oneFrame 2),.send,
    .callback (oneFrame 3),.clear]
  have hrun : ((system zeroHeap 0).exec (fun _ _ => True) (system zeroHeap 0).init acts).map
      (fun s => (s.captured.length,s.wire.length,s.reports)) = some (3,1,2) := by decide +kernel
  obtain ⟨s,hs,he⟩ := Option.map_eq_some_iff.mp hrun
  simp only [Prod.mk.injEq] at he
  have h := (System.run_of_exec hs).reaches
  exact ⟨s,h,he.1,he.2.1,he.2.2,(sender_accounts h).1⟩

end WifiSpeaker.Proofs.SenderAccount
