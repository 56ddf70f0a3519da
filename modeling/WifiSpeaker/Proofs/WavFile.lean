import WifiSpeaker.Proofs.WavSender

namespace WifiSpeaker.Proofs.WavFile
open Common Wire WavSender MTSClient

/-- `ReadFile` gives whole blocks up to the end of the file. -/
def Regular (s : State) : Act → Prop
  | .readFile readBytes => readBytes = some (min dataLength s.file.length)
  | _ => True

/-- A data message as the receiver is to get it. -/
def frame (payload : List UInt8) : List UInt8 :=
  command .sendData ++ (le32 (UInt32.ofNat payload.length) ++ payload)

/-- Behind the header message, what was sent is the data in data messages. -/
def Unchanged (data : List UInt8) (s : State) : Prop :=
  ∃ payloads : List (List UInt8), s.sent = headerBytes s.wfx :: payloads.map frame ∧
    payloads.flatten = data

/-- The data ends with a whole block, or with a block of two bytes at least whose
last bytes, up to five, are zero anyway. -/
def Survives (data : List UInt8) : Prop :=
  data.length % dataLength = 0 ∨
    (2 ≤ data.length % dataLength ∧
      ∀ x ∈ data.drop (data.length - min 5 (data.length % dataLength)), x = 0)

instance (data : List UInt8) : Decidable (Survives data) :=
  @instDecidableOr _ _ (Nat.decEq _ _)
    (@instDecidableAnd _ _ (Nat.decLe _ _) (List.decidableBAll (fun x => x = 0) _))

/-- What goes out for a block: the `memset` has wiped the last five bytes of a
message with a short one. -/
def wire (block : List UInt8) : List UInt8 :=
  if block.length < dataLength then (frame block).take block.length ++ List.replicate 5 0
  else frame block

@[simp] theorem length_frame (payload : List UInt8) :
    (frame payload).length = payload.length + 5 := by
  simp [frame,command]
  omega

@[simp] theorem length_wire (block : List UInt8) : (wire block).length = block.length + 5 := by
  unfold wire
  split_ifs
  · simp
  · simp

/-- The copies that build a message leave it at the front of the buffer. -/
theorem buffer_front {buffer : List UInt8} (h : 5 ≤ buffer.length) (block : List UInt8) :
    memcpy (memcpy (memcpy buffer 0 (command .sendData)) 5 block) 1
      (le32 (UInt32.ofNat block.length)) = frame block ++ buffer.drop (block.length + 5) := by
  match buffer,h with
  | x₀ :: x₁ :: x₂ :: x₃ :: x₄ :: tail,_ => simp [memcpy,frame,command,Nat.add_comm 5]

/-- The message of a block. -/
theorem message_sent {buffer : List UInt8} (hs : buffer.length = sizeofBuffer)
    (block : List UInt8) (hb : block.length ≤ dataLength) :
    (dataMessage (memcpy (memcpy buffer 0 (command .sendData)) 5 block) block.length).1.take
      (block.length + 5) = wire block := by
  have hfront := buffer_front (by rw [hs]; decide) block
  have hlen : (frame block ++ buffer.drop (block.length + 5)).length = sizeofBuffer := by
    rw [List.length_append,length_frame,List.length_drop,hs]
    simp only [sizeofBuffer,dataLength] at hb ⊢
    omega
  have hzeros : 5 ≤ sizeofBuffer - block.length := by
    simp only [sizeofBuffer]
    omega
  unfold dataMessage wire
  dsimp only
  rw [hfront]
  split_ifs
  · rw [memcpy_fill]
    · have hcut : ((frame block ++ buffer.drop (block.length + 5)).take block.length).length =
          block.length := by
        rw [List.length_take,hlen]
        simp only [sizeofBuffer]
        omega
      rw [List.take_append,hcut,List.take_of_length_le (by omega),Nat.add_sub_cancel_left,
        List.take_replicate,Nat.min_eq_left hzeros,List.take_append_of_le_length]
      rw [length_frame]
      omega
    · rw [hlen,List.length_replicate]
      omega
  · rw [← length_frame,List.take_left]

/-- Of the command and the length, only the length of a block of one byte is hit
where it is not zero. -/
theorem front_zero_iff (h0 : 0 < n) :
    (∀ x ∈ (command .sendData ++ le32 (UInt32.ofNat n)).drop n, x = 0) ↔ 2 ≤ n := by
  match n,h0 with
  | 1,_ | 2,_ | 3,_ | 4,_ => simp [command,le32,leBytes]
  | n+5,_ =>
    have hnil : (command .sendData ++ le32 (UInt32.ofNat (n + 5))).drop (n + 5) = [] := by
      apply List.drop_eq_nil_of_le
      simp [command]
    rw [hnil]
    simp

/-- The wiped bytes were zero before. -/
theorem wire_eq_frame_iff (h0 : 0 < block.length) (h : block.length < dataLength) :
    wire block = frame block ↔
      2 ≤ block.length ∧ ∀ x ∈ block.drop (block.length - 5), x = 0 := by
  let front := command .sendData ++ le32 (UInt32.ofNat block.length)
  have hfront : front.length = 5 := by simp [front,command]
  have hframe : frame block = front ++ block := by simp [frame,front]
  have hlast : (frame block).drop block.length =
      front.drop block.length ++ block.drop (block.length - 5) := by
    rw [hframe,List.drop_append,hfront]
  have hfive : ((frame block).drop block.length).length = 5 := by simp
  rw [wire,if_pos h]
  nth_rewrite 2 [← List.take_append_drop block.length (frame block)]
  rw [List.append_cancel_left_eq,eq_comm,List.eq_replicate_iff,and_iff_right hfive,hlast,
    List.forall_mem_append,front_zero_iff h0]

/-- The blocks read so far: whole ones, and a short one only at the end of the file. -/
inductive Cut (data : List UInt8) : List (List UInt8) → List UInt8 → Prop
  | whole (all : ∀ b ∈ blocks, b.length = dataLength) (cut : blocks.flatten ++ file = data) :
      Cut data blocks file
  | short (all : ∀ b ∈ blocks, b.length = dataLength) (some : 0 < last.length)
      (less : last.length < dataLength) (cut : blocks.flatten ++ last = data) :
      Cut data (blocks ++ [last]) []

/-- `_tmain` on its way through the file. -/
structure Along (data : List UInt8) (s : State) : Prop where
  sized : s.buffer.length = sizeofBuffer
  cut : Cut data s.blocks s.file
  sent : (s.place = .header ∧ s.sent = [] ∧ s.blocks = []) ∨
    (s.place ≠ .header ∧ s.sent = headerBytes s.wfx :: s.blocks.map wire)
  done : s.place = .done → s.file = []

theorem Cut.flatten (h : Cut data blocks file) : blocks.flatten ++ file = data := by
  cases h with
  | whole all cut => exact cut
  | short all some less cut => rwa [List.append_nil,List.flatten_append,List.flatten_singleton]

theorem Along.sent_behind (h : Along data s) (hp : s.place ≠ .header) :
    s.sent = headerBytes s.wfx :: s.blocks.map wire := by
  rcases h.sent with ⟨hheader,-⟩ | ⟨-,hsent⟩
  · exact absurd hheader hp
  · exact hsent

theorem length_dataMessage (hs : buffer.length = sizeofBuffer) (n : Nat) :
    (dataMessage buffer n).1.length = sizeofBuffer := by
  have hone : (memcpy buffer 1 (le32 (UInt32.ofNat n))).length = sizeofBuffer := by
    rw [length_memcpy,hs]
    rw [hs,length_le32]
    decide
  unfold dataMessage
  dsimp only
  split_ifs
  · rw [length_memcpy,hone]
    rw [hone,List.length_replicate]
    simp only [sizeofBuffer]
    omega
  · exact hone

/-- The next block is a whole one, or the rest of the file. -/
theorem Cut.next (h : Cut data blocks file) (hf : file ≠ []) :
    Cut data (blocks ++ [file.take (min dataLength file.length)])
      (file.drop (min dataLength file.length)) := by
  cases h with
  | short => exact absurd rfl hf
  | whole all cut =>
    by_cases hlen : dataLength ≤ file.length
    · rw [Nat.min_eq_left hlen]
      apply Cut.whole
      · intro b hb
        rcases List.mem_append.mp hb with hb | hb
        · exact all b hb
        · rw [List.mem_singleton.mp hb,List.length_take,Nat.min_eq_left hlen]
      · rw [List.flatten_append,List.flatten_singleton,List.append_assoc,List.take_append_drop]
        exact cut
    · have hless : file.length < dataLength := Nat.not_le.mp hlen
      rw [Nat.min_eq_right (Nat.le_of_lt hless),List.take_length,List.drop_length]
      exact .short all (List.length_pos_of_ne_nil hf) hless cut

theorem length_play (hs : buffer.length = sizeofBuffer) (block : List UInt8)
    (hb : block.length ≤ dataLength) :
    (memcpy (memcpy buffer 0 (command .sendData)) 5 block).length = sizeofBuffer := by
  have hone : (memcpy buffer 0 (command .sendData)).length = sizeofBuffer := by
    rw [length_memcpy,hs]
    rw [hs]
    decide
  rw [length_memcpy,hone]
  rw [hone]
  simp only [sizeofBuffer]
  omega

/-- A turn of the playback loop reads the next block and sends its message. -/
theorem play_along (h : Along data s) (hp : s.place = .read) :
    Along data (s.play (min dataLength s.file.length)) := by
  have hsent := h.sent_behind (by simp [hp])
  have hblock : (s.file.take (min dataLength s.file.length)).length =
      min dataLength s.file.length := by
    rw [List.length_take]
    omega
  have hsize : (s.file.take (min dataLength s.file.length)).length ≤ dataLength := by
    rw [hblock]
    exact Nat.min_le_left _ _
  have hbuffer := length_play h.sized _ hsize
  unfold State.play
  dsimp only
  split_ifs with hzero
  · have hfile : s.file = [] := by
      apply List.eq_nil_of_length_eq_zero
      have : dataLength ≠ 0 := by decide
      omega
    refine ⟨hbuffer,?_,.inr ⟨nofun,hsent⟩,?_⟩
    · rw [hzero]
      exact h.cut
    · intro _
      rw [hfile]
      rfl
  · have hfile : s.file ≠ [] := by
      intro hnil
      rw [hnil] at hzero
      exact hzero rfl
    refine ⟨?_,h.cut.next hfile,.inr ⟨nofun,?_⟩,nofun⟩
    · change (memcpy _ 0 [0]).length = _
      rw [length_memcpy,length_dataMessage hbuffer]
      rw [length_dataMessage hbuffer]
      decide
    · have hmessage := message_sent h.sized _ hsize
      rw [hblock] at hmessage
      change s.sent ++ [_] = _ :: List.map wire (s.blocks ++ [_])
      rw [hsent,List.map_append,List.map_singleton,← hmessage]
      rfl

theorem length_headerMessage (hs : buffer.length = sizeofBuffer) (wfx : WaveFormatEx) :
    (headerMessage buffer wfx).1.length = sizeofBuffer := by
  have hcopies := memcpy_three buffer (command .sendHeader)
    (le32 (UInt32.ofNat sizeofWaveFormatEx)) wfx.toBytes
  rw [length_le32] at hcopies
  apply (congrArg List.length hcopies).trans
  rw [length_memcpy,hs]
  rw [hs]
  simp [command,sizeofWaveFormatEx,sizeofBuffer,dataLength]

/-- The wait for an ACK leaves what was read and sent alone. -/
theorem recv_along (h : Along data s) (hack : s.place = .ackHeader ∨ s.place = .ackData)
    (hb : bytes.length ≤ 512) : Along data (s.recv bytes) := by
  have hbuffer : (memcpy s.buffer 0 bytes).length = sizeofBuffer := by
    rw [length_memcpy,h.sized]
    rw [h.sized]
    simp only [sizeofBuffer,dataLength]
    omega
  have hheader : s.place ≠ .header := by
    rcases hack with hp | hp
    · simp [hp]
    · simp [hp]
  have hsent := h.sent_behind hheader
  unfold State.recv
  dsimp only
  split_ifs
  · exact ⟨hbuffer,h.cut,.inr ⟨nofun,hsent⟩,nofun⟩
  · exact ⟨hbuffer,h.cut,.inr ⟨hheader,hsent⟩,h.done⟩

theorem send_along (h : Along data s) (hp : s.place = .header) :
    Along data (s.send (headerMessage s.buffer s.wfx) .ackHeader) := by
  have hlen := length_headerMessage h.sized s.wfx
  rcases h.sent with ⟨-,hsent,hblocks⟩ | ⟨hne,-⟩
  · refine ⟨?_,h.cut,.inr ⟨nofun,?_⟩,nofun⟩
    · change (memcpy _ 0 [0]).length = _
      rw [length_memcpy,hlen]
      rw [hlen]
      decide
    · change s.sent ++ [_] = _ :: List.map wire s.blocks
      rw [hsent,hblocks,headerMessage_sent]
      rfl
  · exact absurd hp hne

theorem step_along (h : Along data s) (hok : Regular s a) (ht : step s a = some t) :
    Along data t := by
  cases a with
  | send =>
    simp only [step] at ht
    split at ht
    · rename_i hp
      cases ht
      exact send_along h hp
    · cases ht
  | recv bytes =>
    simp only [step,Option.ite_none_right_eq_some,Option.some.injEq] at ht
    obtain ⟨⟨hack,hb⟩,rfl⟩ := ht
    exact recv_along h hack hb
  | readFile readBytes =>
    cases hok
    simp only [step,Option.ite_none_right_eq_some,Option.some.injEq] at ht
    obtain ⟨⟨hp,-⟩,rfl⟩ := ht
    exact play_along h hp

section
variable {header : Object sizeofWavHdr} {data : List UInt8} {junk : Junk}

theorem run_along (h : (tmain (header.bytes ++ data) junk).Run Regular acts s) : Along data s := by
  have hinit : Along data (tmain (header.bytes ++ data) junk).init := by
    refine ⟨junk.buffer.size,?_,.inl ⟨rfl,rfl,rfl⟩,nofun⟩
    apply Cut.whole
    · intro b hb
      cases hb
    · exact List.drop_left' header.size
  exact h.invariant hinit (fun _ _ _ hs hok ht => step_along hs hok ht)

theorem run_read (h : (tmain (header.bytes ++ data) junk).Run Regular acts s)
    (hp : s.place = .read) :
    (tmain (header.bytes ++ data) junk).Run Regular
      (acts ++ [.readFile (some (min dataLength s.file.length))])
      (s.play (min dataLength s.file.length)) := by
  have hsize : min dataLength s.file.length ≤ dataLength ∧
      min dataLength s.file.length ≤ s.file.length :=
    ⟨Nat.min_le_left _ _,Nat.min_le_right _ _⟩
  refine .next h ?_ ?_
  · rfl
  · exact if_pos ⟨hp,hsize⟩

theorem run_ack (h : (tmain (header.bytes ++ data) junk).Run Regular acts s)
    (hp : s.place = .ackHeader ∨ s.place = .ackData) :
    (tmain (header.bytes ++ data) junk).Run Regular (acts ++ [.recv (command .sendAck)])
      { s with buffer := memcpy s.buffer 0 (command .sendAck), place := .read } := by
  rw [← recv_ack]
  refine .next h ?_ ?_
  · trivial
  · exact if_pos ⟨hp,by decide⟩

theorem play_end {s : State} (h : s.file = []) :
    (s.play (min dataLength s.file.length)).place = .done := by
  simp [State.play,h]

theorem play_block {s : State} (h : s.file ≠ []) :
    (s.play (min dataLength s.file.length)).place = .ackData ∧
      (s.play (min dataLength s.file.length)).file.length < s.file.length := by
  have hpos : 0 < s.file.length := List.length_pos_of_ne_nil h
  have hsize : 0 < min dataLength s.file.length := by
    simp only [dataLength]
    omega
  simp only [State.play,if_neg (Nat.ne_of_gt hsize),State.send,List.length_drop]
  refine ⟨trivial,?_⟩
  omega

/-- The loop comes to the end of the file: every block makes the rest shorter. -/
theorem run_to_done (h : (tmain (header.bytes ++ data) junk).Run Regular acts s)
    (hp : s.place = .read) (hn : s.file.length ≤ n) :
    ∃ acts t, (tmain (header.bytes ++ data) junk).Run Regular acts t ∧ t.place = .done := by
  induction n generalizing acts s with
  | zero =>
    have hnil : s.file = [] := List.eq_nil_of_length_eq_zero (Nat.le_zero.mp hn)
    exact ⟨_,_,run_read h hp,play_end hnil⟩
  | succ n ih =>
    by_cases hnil : s.file = []
    · exact ⟨_,_,run_read h hp,play_end hnil⟩
    · obtain ⟨hplace,hless⟩ := play_block hnil
      apply ih (run_ack (run_read h hp) (.inr hplace)) rfl
      change (s.play (min dataLength s.file.length)).file.length ≤ n
      omega

theorem exists_done (header : Object sizeofWavHdr) (data : List UInt8) (junk : Junk) :
    ∃ acts t, (tmain (header.bytes ++ data) junk).Run Regular acts t ∧ t.place = .done := by
  let s := (tmain (header.bytes ++ data) junk).init
  have hsend : (tmain (header.bytes ++ data) junk).Run Regular [.send]
      (s.send (headerMessage s.buffer s.wfx) .ackHeader) := by
    refine .next .start ?_ rfl
    trivial
  exact run_to_done (run_ack hsend (.inl rfl)) rfl (Nat.le_refl _)

end

/-- Only the blocks themselves can be the payloads of what was sent. -/
theorem Along.unchanged (h : Along data s) (hp : s.place ≠ .header) (hend : s.file = []) :
    Unchanged data s ↔ ∀ b ∈ s.blocks, wire b = frame b := by
  have hsent := h.sent_behind hp
  have hdata := h.cut.flatten
  rw [hend,List.append_nil] at hdata
  constructor
  · rintro ⟨payloads,hframes,hflat⟩
    have hmap : s.blocks.map wire = payloads.map frame := by
      rw [hsent] at hframes
      exact (List.cons.inj hframes).2
    have hlengths : s.blocks.map List.length = payloads.map List.length := by
      have hfive := congrArg (List.map (fun message => message.length - 5)) hmap
      simpa [Function.comp_def,length_wire] using hfive
    have hsame : s.blocks = payloads :=
      List.eq_iff_flatten_eq.mpr ⟨hdata.trans hflat.symm,hlengths⟩
    rw [← hsame] at hmap
    exact List.map_inj_left.mp hmap
  · intro hall
    refine ⟨s.blocks,?_,hdata⟩
    rw [hsent,List.map_congr_left hall]

theorem length_whole {blocks : List (List UInt8)} (h : ∀ b ∈ blocks, b.length = dataLength) :
    blocks.flatten.length = dataLength * blocks.length := by
  rw [List.length_flatten,List.map_congr_left h,List.map_const',List.sum_replicate_nat,
    Nat.mul_comm]

theorem wire_whole (h : b.length = dataLength) : wire b = frame b := by
  rw [wire,if_neg]
  omega

theorem Cut.wire_going (h : Cut data blocks file) (hf : file ≠ []) :
    ∀ b ∈ blocks, wire b = frame b := by
  cases h with
  | whole all cut => exact fun b hb => wire_whole (all b hb)
  | short => exact absurd rfl hf

/-- The short block at the end is what decides. -/
theorem Cut.survives (h : Cut data blocks []) :
    (∀ b ∈ blocks, wire b = frame b) ↔ Survives data := by
  generalize hnil : ([] : List UInt8) = file at h
  cases h with
  | whole all cut =>
    subst hnil
    rw [List.append_nil] at cut
    have hlen : data.length % dataLength = 0 := by
      rw [← cut,length_whole all,Nat.mul_mod_right]
    exact ⟨fun _ => .inl hlen,fun _ b hb => wire_whole (all b hb)⟩
  | @short whole last all some less cut =>
    have hlen : data.length % dataLength = last.length := by
      rw [← cut,List.length_append,length_whole all,Nat.mul_add_mod,Nat.mod_eq_of_lt less]
    have htail : data.drop (data.length - min 5 (data.length % dataLength)) =
        last.drop (last.length - 5) := by
      have hskip : data.length - min 5 last.length =
          whole.flatten.length + (last.length - 5) := by
        rw [← cut,List.length_append]
        omega
      rw [hlen,hskip,← cut,List.drop_length_add_append]
    have hlast : (∀ b ∈ whole ++ [last], wire b = frame b) ↔ wire last = frame last := by
      constructor
      · intro hall
        exact hall last (by simp)
      · intro hl b hb
        rcases List.mem_append.mp hb with hb | hb
        · exact wire_whole (all b hb)
        · rwa [List.mem_singleton.mp hb]
    rw [hlast,wire_eq_frame_iff some less,Survives,htail,hlen]
    constructor
    · exact .inr
    · rintro (hzero | hzeros)
      · omega
      · exact hzeros

/-- The file goes out unchanged exactly when the `memset` has nothing to wipe. -/
theorem done_unchanged_iff {header : Object sizeofWavHdr} {junk : Junk}
    (h : (tmain (header.bytes ++ data) junk).Run Regular acts s) (hp : s.place = .done) :
    Unchanged data s ↔ Survives data := by
  have halong := run_along h
  have hend := halong.done hp
  have hcut := halong.cut
  rw [hend] at hcut
  rw [halong.unchanged (by simp [hp]) hend,hcut.survives]

/-- On the way, what was sent and what is left to read make up the data. -/
theorem Along.so_far (h : Along data s) (hp : s.place ≠ .header) (hs : Survives data) :
    ∃ payloads : List (List UInt8), s.sent = headerBytes s.wfx :: payloads.map frame ∧
      payloads.flatten ++ s.file = data := by
  have hall : ∀ b ∈ s.blocks, wire b = frame b := by
    by_cases hend : s.file = []
    · have hcut := h.cut
      rw [hend] at hcut
      exact hcut.survives.mpr hs
    · exact h.cut.wire_going hend
  refine ⟨s.blocks,?_,h.cut.flatten⟩
  rw [h.sent_behind hp,List.map_congr_left hall]

/-- The playback loop gets to the end of every file, and wherever it does, what it
has sent is the file from the header on exactly when the file ends with a whole
block or with zeros where the `memset` strikes; and then every message on the way
is one of these data messages. -/
theorem wav_unchanged_iff (header : Object sizeofWavHdr) (data : List UInt8) (junk : Junk) :
    (∃ acts s, (tmain (header.bytes ++ data) junk).Run Regular acts s ∧ s.place = .done) ∧
    (∀ acts s, (tmain (header.bytes ++ data) junk).Run Regular acts s → s.place = .done →
      (Unchanged data s ↔ Survives data)) ∧
    (Survives data →
      ∀ acts s, (tmain (header.bytes ++ data) junk).Run Regular acts s → s.place ≠ .header →
        ∃ payloads : List (List UInt8), s.sent = headerBytes s.wfx :: payloads.map frame ∧
          payloads.flatten ++ s.file = data) := by
  refine ⟨exists_done header data junk,?_,?_⟩
  · intro acts s h hp
    exact done_unchanged_iff h hp
  · intro hs acts s h hp
    exact (run_along h).so_far hp hs

/-- The four bytes of one frame go out as zeros. -/
theorem wav_frame_wiped :
    ¬ ∀ (header : Object sizeofWavHdr) (data : List UInt8) (junk : Junk) (acts : List Act)
      (s : State), (tmain (header.bytes ++ data) junk).Run Regular acts s → s.place = .done →
        Unchanged data s := by
  intro hall
  obtain ⟨acts,s,h,hp⟩ := exists_done pcmHeader oneFrame zeroJunk
  have hsurvives := (done_unchanged_iff h hp).mp (hall _ _ _ _ _ h hp)
  exact absurd hsurvives (by decide)

/-- A file that fades out goes out as it is. -/
theorem wav_unchanged_faded :
    ∃ acts s, (tmain (pcmHeader.bytes ++ [1,2,3,0,0,0,0,0]) zeroJunk).Run Regular acts s ∧
      s.place = .done ∧ Unchanged [1,2,3,0,0,0,0,0] s := by
  obtain ⟨⟨acts,s,h,hp⟩,hiff,-⟩ := wav_unchanged_iff pcmHeader [1,2,3,0,0,0,0,0] zeroJunk
  exact ⟨acts,s,h,hp,(hiff acts s h hp).mpr (by decide)⟩

end WifiSpeaker.Proofs.WavFile
