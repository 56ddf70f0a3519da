import WifiSpeaker.Proofs.DeviceStream
import WifiSpeaker.Proofs.I2sProgress
import WifiSpeaker.Proofs.StartUp
import WifiSpeaker.Proofs.WavSender
import WifiSpeaker.WavConnection

namespace WifiSpeaker.Proofs.Silence
open Common Device
open DataBuffer (Ring WriteCall lengthOfBuffer)
open I2sProgress (Hardware)
open DeviceStream (speaker_step created_of_move step_received brought)
open Server (AudioThread)
open ServerSteps (ThreadMove thread_move)
open Speaker (dac)
open StartUp (Unread Calls stored pending percent_eq)

/-- Nothing has been pushed, and all there is to fetch are zeros. -/
structure Silent (p : I2s.State dac) : Prop where
  pushed : p.pushed = []
  buf : ∀ d, ∀ b ∈ p.buf d, b = 0
  fetched : ∀ b ∈ p.fetched, b = 0
  played : ∀ block ∈ p.played, ∀ b ∈ block, b = 0

theorem Silent.fetch (h : Silent p) : Silent p.fetch := by
  have hnext : ∀ b ∈ p.fetched ++ ((p.buf p.desc)[p.offset]?).toList, b = 0 := by
    intro b hb
    rcases List.mem_append.mp hb with hb | hb
    · exact h.fetched b hb
    · exact h.buf p.desc b (List.mem_of_getElem? (Option.mem_toList.mp hb))
  unfold I2s.State.fetch
  dsimp only
  split_ifs
  · refine ⟨h.pushed,h.buf,?_,?_⟩
    · intro b hb
      cases hb
    · intro block hm
      rcases List.mem_append.mp hm with hm | hm
      · exact h.played block hm
      · rw [List.mem_singleton] at hm
        subst block
        exact hnext
  · exact ⟨h.pushed,h.buf,hnext,h.played⟩

/-- The DMA and the interrupt keep the silence. -/
theorem Silent.hardware (h : Silent p) (hs : I2s.step p b = some q)
    (hb : Hardware b) : Silent q := by
  cases I2sStores.step_move hs with
  | fetch => exact h.fetch
  | call => exact ⟨h.pushed,h.buf,h.fetched,h.played⟩
  | push got sample => simp [Hardware] at hb
  | pass => simp [Hardware] at hb
  | restart => simp [Hardware] at hb
  | interrupt => exact ⟨h.pushed,h.buf,h.fetched,h.played⟩
  | room => exact ⟨h.pushed,h.buf,h.fetched,h.played⟩
  | drop => exact ⟨h.pushed,h.buf,h.fetched,h.played⟩
  | send => exact ⟨h.pushed,h.buf,h.fetched,h.played⟩
  | clear => exact ⟨h.pushed,h.buf,h.fetched,h.played⟩

/-- The device before it plays: all bytes received are in the ring or with the write
under way, no task has been created, and the port is silent. -/
structure Waiting (s : State) : Prop where
  reader : s.reader = none
  place : s.thread.place ≠ .create
  ring : Unread s.ring
  calls : ∀ call, s.thread.place = .write call → Calls s.ring call
  account : stored s.ring + pending s.thread = s.received.length
  call : s.renderer.call = none
  silent : Silent s.port

/-- A step of the thread outside of `recv` and of its write. -/
theorem Waiting.quiet (h : Waiting s) (hp : pending s.thread = 0) (hp' : pending t = 0)
    (hw : ∀ call, t.place ≠ .write call) (hc : t.place ≠ .create) :
    Waiting { s with thread := t } := by
  refine ⟨h.reader,hc,h.ring,fun call hcall => absurd hcall (hw call),?_,h.call,h.silent⟩
  have haccount := h.account
  rw [hp] at haccount
  change stored s.ring + pending t = _
  rw [hp']
  exact haccount

/-- Three full slots are what the check asks for. -/
theorem Waiting.low (h : Waiting s) (hr : s.received.length < 3 * lengthOfBuffer)
    (hp : pending s.thread = 0) : ¬ DataBuffer.getBufferPercent s.ring > 50 := by
  have hpercent := percent_eq h.ring.shape
  have hstored := h.ring.stored_nonneg
  have haccount := h.account
  rw [hp] at haccount
  unfold lengthOfBuffer at hr hstored
  omega

theorem Waiting.thread (h : Waiting s) (hr : s.received.length < 3 * lengthOfBuffer)
    (hm : ThreadMove s.thread 0 s.ring client act t ring' readers events) :
    Waiting { s with
      ring := ring'
      thread := t
      reader := s.reader.or readers.head?
      received := s.received ++ delivered act } := by
  cases hm with
  | recvBytes spot data fits =>
    have haccount := h.account
    have hpending : pending s.thread = 0 := by simp [pending,spot]
    rw [hpending] at haccount
    refine ⟨by rw [h.reader]; rfl,by simp,h.ring,?_,?_,h.call,h.silent⟩
    · intro call hcall
      cases hcall
      exact ⟨rfl,Int.le_refl _,Int.natCast_nonneg _⟩
    · simp only [delivered,List.length_append]
      change stored s.ring + (data.length : Int) = _
      omega
  | @write call _ next copied spot pass =>
    obtain ⟨hring,hcalls,hstored⟩ := h.ring.pass (h.calls call spot) pass
    have haccount := h.account
    have hpending : pending s.thread = call.size := by simp [pending,spot]
    rw [hpending] at haccount
    simp only [delivered,List.append_nil,List.head?_nil,Option.or_none]
    refine ⟨h.reader,?_,hring,?_,?_,h.call,h.silent⟩
    · cases next <;> simp
    · intro call' hcall
      cases next with
      | none => cases hcall
      | some next =>
        cases hcall
        exact hcalls _ rfl
    · rw [← haccount,← hstored]
      cases next <;> rfl
  | checkPassed spot full fresh =>
    exact absurd full (h.low hr (by simp [pending,spot]))
  | create spot => exact absurd spot h.place
  | copy spot =>
    simp only [delivered,List.append_nil,List.head?_nil,Option.or_none]
    exact h.quiet (by simp [pending,spot]) rfl (by simp) (by simp)
  | recvError spot =>
    simp only [delivered,List.append_nil,List.head?_nil,Option.or_none]
    exact h.quiet (by simp [pending,spot]) rfl (by simp) (by simp)
  | checkFailed spot =>
    simp only [delivered,List.append_nil,List.head?_nil,Option.or_none]
    exact h.quiet (by simp [pending,spot]) rfl (by simp) (by simp)
  | close spot =>
    simp only [delivered,List.append_nil,List.head?_nil,Option.or_none]
    exact h.quiet (by simp [pending,spot]) rfl (by simp) (by simp)

/-- Without a call of `render_samples` only the hardware moves. -/
theorem Waiting.speaker (h : Waiting s) (hs : Speaker.step beyond s.speaker a = some v)
    (ha : ∀ n, a ≠ .read n) :
    Waiting { s with renderer := v.renderer, port := v.port } := by
  obtain ⟨hport,htask⟩ := SpeakerSound.step_parts hs
  have hnone : s.speaker.renderer.call = none := h.call
  have hquiet : ∀ b, s.speaker.portAct a = some b →
      s.speaker.task beyond a = some (s.speaker.receiver,s.renderer) →
      Hardware b →
      Waiting { s with renderer := v.renderer, port := v.port } := by
    intro b hb hsame hkind
    rw [hsame] at htask
    obtain ⟨_,hrenderer⟩ := Prod.mk.inj (Option.some.inj htask)
    rcases hport with ⟨hno,_⟩ | ⟨b',hb',hstep⟩
    · rw [hb] at hno
      cases hno
    · rw [hb,Option.some.injEq] at hb'
      subst b'
      refine ⟨h.reader,h.place,h.ring,h.calls,h.account,?_,h.silent.hardware hstep hkind⟩
      rw [← hrenderer]
      exact h.call
  cases a with
  | read n => exact absurd rfl (ha n)
  | enter =>
    obtain ⟨c,hc⟩ := SpeakerSound.enter_at_entry hs
    rw [hnone] at hc
    cases hc
  | turn =>
    obtain ⟨r,hr,_⟩ := Option.bind_eq_some_iff.mp htask
    obtain ⟨c,l,hc⟩ := SpeakerSound.turn_inside hr
    rw [hnone] at hc
    cases hc
  | fetch => exact hquiet .fetch rfl rfl (.inl rfl)
  | interrupt => exact hquiet .interrupt rfl rfl (.inr (.inl rfl))
  | isrDrop => exact hquiet .isrDrop rfl rfl (.inr (.inr (.inl rfl)))
  | isrSend => exact hquiet .isrSend rfl rfl (.inr (.inr (.inr (.inl rfl))))
  | isrClear => exact hquiet .isrClear rfl rfl (.inr (.inr (.inr (.inr rfl))))

theorem step_waiting (h : Waiting s) (ht : step beyond s a = some t)
    (hr : t.received.length < 3 * lengthOfBuffer) : Waiting t := by
  have hbefore : s.received.length < 3 * lengthOfBuffer := by
    rw [step_received ht,List.length_append] at hr
    omega
  cases a with
  | thread act =>
    obtain ⟨⟨thread,ring,readers,events⟩,hstep,ht⟩ := Option.bind_eq_some_iff.mp ht
    cases ht
    exact h.thread hbefore (thread_move hstep)
  | reader =>
    simp only [step,h.reader] at ht
    split at ht
    · cases ht
    · cases ht
  | speaker a =>
    obtain ⟨v,⟨hv,ha⟩,rfl⟩ := speaker_step ht
    exact h.speaker hv ha

theorem init_waiting (client : Int) (beyond : Nat → UInt8) (sampleRate : UInt32) :
    Waiting (device client beyond sampleRate).init := by
  refine ⟨rfl,by simp [device],StartUp.init_unread,?_,rfl,rfl,⟨rfl,?_,?_,?_⟩⟩
  · intro call hcall
    cases hcall
  · intro d b hb
    exact List.eq_of_mem_replicate hb
  · intro b hb
    cases hb
  · intro block hm
    cases hm

/-- Nothing is played before three slots are full: whatever the sender and the tasks do,
a device that has received fewer than 15360 bytes has created no `prcess_character`, has
pushed nothing, and has put out zeros only. -/
theorem silent_below (h : (device client beyond sampleRate).Reaches s)
    (hr : s.received.length < 15360) :
    s.reader = none ∧ s.port.pushed = [] ∧ ∀ block ∈ s.port.played, ∀ b ∈ block, b = 0 := by
  have hwaiting : s.received.length < 3 * lengthOfBuffer → Waiting s := by
    refine h.invariant (P := fun s => s.received.length < 3 * lengthOfBuffer → Waiting s)
      (fun _ => init_waiting client beyond sampleRate) ?_
    intro s a t hs ht hlt
    have hbefore : s.received.length < 3 * lengthOfBuffer := by
      rw [step_received ht,List.length_append] at hlt
      omega
    exact step_waiting (hs hbefore) ht hlt
  have hw := hwaiting hr
  exact ⟨hw.reader,hw.silent.pushed,hw.silent.played⟩

/-- Some sound comes in while the DMA goes through a buffer. -/
def soundUnplayed : List Act :=
  DeviceStream.deliverChunk DeviceStream.toneStream 0 ++ List.replicate 256 (.speaker .fetch)

theorem silent_below_chunk :
    ∃ s, (device 54 (fun _ => 0) 44100).Reaches s ∧ s.received.length = 1024 ∧
      s.port.played.length = 1 ∧ s.port.pushed = [] ∧
      ∀ block ∈ s.port.played, ∀ b ∈ block, b = 0 := by
  have hrun : ((device 54 (fun _ => 0) 44100).exec (fun _ _ => True)
      (device 54 (fun _ => 0) 44100).init soundUnplayed).map (fun s =>
        (s.received.length,s.port.played.length)) = some (1024,1) := by
    decide +kernel
  obtain ⟨s,hs,hlengths⟩ := Option.map_eq_some_iff.mp hrun
  obtain ⟨hreceived,hplayed⟩ := Prod.mk.inj hlengths
  have hr := (System.run_of_exec hs).reaches
  obtain ⟨_,hpushed,hzero⟩ := silent_below hr (by rw [hreceived]; decide)
  exact ⟨s,hr,hreceived,hplayed,hpushed,hzero⟩

section
variable {file : List UInt8} {junk : MTSClient.Junk} {client : Int} {beyond : Nat → UInt8}
  {sampleRate : UInt32} {s t : WavConnection.State} {c c' : MTSClient.State}
  {a : WavConnection.Act}

/-- The sender before its header message, or in the wait behind it with the first byte
of its buffer cleared. -/
inductive Stuck (c : MTSClient.State) : Prop
  | before (place : c.place = .header) (sent : c.sent = []) (blocks : c.blocks = [])
  | behind (place : c.place = .ackHeader) (sent : c.sent = [WavSender.headerBytes wfx])
      (blocks : c.blocks = []) (cleared : c.buffer.take 1 = [0])

theorem Stuck.sent_le (h : Stuck c) : c.sent.flatten.length ≤ 25 := by
  cases h with
  | before _ sent =>
    rw [sent]
    exact Nat.zero_le 25
  | behind _ sent =>
    rw [sent]
    simp [WavSender.headerBytes,MTSClient.command,Wire.sizeofWaveFormatEx]

theorem Stuck.send (h : Stuck c) (ht : MTSClient.step c .send = some c') : Stuck c' := by
  simp only [MTSClient.step] at ht
  split at ht
  · rename_i hplace
    cases ht
    cases h with
    | behind place =>
      rw [hplace] at place
      cases place
    | before _ sent blocks =>
      have hsent : (c.send (MTSClient.headerMessage c.buffer c.wfx) .ackHeader).sent
          = [WavSender.headerBytes c.wfx] := by
        change c.sent ++ [_] = _
        rw [sent,WavSender.headerMessage_sent,List.nil_append]
      exact .behind rfl hsent blocks (take_memcpy_zero _ [0])
  · cases ht

/-- A `recv` that brings nothing leaves the first byte as it is. -/
theorem Stuck.recv (h : Stuck c) (ht : MTSClient.step c (.recv []) = some c') : Stuck c' := by
  simp only [MTSClient.step,Option.ite_none_right_eq_some,Option.some.injEq] at ht
  obtain ⟨⟨hplace,_⟩,rfl⟩ := ht
  cases h with
  | before place => simp [place] at hplace
  | behind place sent blocks cleared =>
    have hsame : memcpy c.buffer 0 [] = c.buffer := by simp [memcpy]
    have hno : ¬ c.buffer.take 1 = MTSClient.command .sendAck := by
      rw [cleared]
      decide
    simp only [MTSClient.State.recv,hsame,if_neg hno]
    exact .behind place sent blocks cleared

theorem Stuck.read (h : Stuck c) (ht : MTSClient.step c (.readFile n) = some c') : Stuck c' := by
  have hplace : c.place ≠ .read := by
    cases h with
    | before place => simp [place]
    | behind place => simp [place]
  cases n with
  | none => simp [MTSClient.step,hplace] at ht
  | some n => simp [MTSClient.step,hplace] at ht

/-- The two ends together. -/
structure Stalled (client : Int) (beyond : Nat → UInt8) (sampleRate : UInt32)
    (s : WavConnection.State) : Prop where
  sender : Stuck s.client
  quiet : s.toClient = []
  device : (device client beyond sampleRate).Reaches s.device
  arrived : s.device.received.length ≤ 25

theorem step_stalled (h : Stalled client beyond sampleRate s)
    (ht : WavConnection.step beyond s a = some t) : Stalled client beyond sampleRate t := by
  cases a with
  | device act =>
    obtain ⟨d,hd,ht⟩ := Option.bind_eq_some_iff.mp ht
    split_ifs at ht with hfirst
    cases ht
    have hle := hfirst.length_le
    have hsent := h.sender.sent_le
    exact ⟨h.sender,by simp [h.quiet,WavConnection.sends],h.device.step hd,Nat.le_trans hle hsent⟩
  | client act =>
    cases act with
    | recv bytes =>
      simp only [WavConnection.step,h.quiet,List.prefix_nil] at ht
      split_ifs at ht with hnil
      subst bytes
      obtain ⟨c,hc,ht⟩ := Option.bind_eq_some_iff.mp ht
      cases ht
      exact ⟨h.sender.recv hc,rfl,h.device,h.arrived⟩
    | send =>
      obtain ⟨c,hc,ht⟩ := Option.bind_eq_some_iff.mp ht
      cases ht
      exact ⟨h.sender.send hc,h.quiet,h.device,h.arrived⟩
    | readFile n =>
      obtain ⟨c,hc,ht⟩ := Option.bind_eq_some_iff.mp ht
      cases ht
      exact ⟨h.sender.read hc,h.quiet,h.device,h.arrived⟩

/-- The WAV-file sender and the device never get past the header message: for every file
and every order of their steps the sender waits for its ACK, has read no block, and the
device, which has at most the 25 bytes of the header message, puts out zeros only. -/
theorem wav_connection_stalls
    (h : (WavConnection.connection file junk client beyond sampleRate).Reaches s) :
    (s.client.place = .header ∨ s.client.place = .ackHeader) ∧ s.client.blocks = [] ∧
    s.device.received.length ≤ 25 ∧ s.device.reader = none ∧ s.device.port.pushed = [] ∧
    ∀ block ∈ s.device.port.played, ∀ b ∈ block, b = 0 := by
  have hs : Stalled client beyond sampleRate s := by
    refine h.invariant ?_ (fun _ _ _ hs ht => step_stalled hs ht)
    exact ⟨.before rfl rfl rfl,rfl,System.Reaches.init _,Nat.zero_le 25⟩
  obtain ⟨hreader,hpushed,hplayed⟩ := silent_below hs.device
    (Nat.lt_of_le_of_lt hs.arrived (by decide))
  cases hs.sender with
  | before place _ blocks => exact ⟨.inl place,blocks,hs.arrived,hreader,hpushed,hplayed⟩
  | behind place _ blocks => exact ⟨.inr place,blocks,hs.arrived,hreader,hpushed,hplayed⟩

end

/-- The header message of a PCM file as the device receives it. -/
def headerChunk : List UInt8 :=
  WavSender.headerBytes
    (MTSClient.wfxOf (MTSClient.WavHdr.ofBytes WavSender.pcmHeader.bytes) 0)

theorem headerChunk_fits : headerChunk.length ≤ Server.sizeofChunk := by decide

/-- The header message goes over, and the sender asks for its ACK in vain. -/
def headerOnly : List WavConnection.Act :=
  .client .send ::
    (DeviceStream.deliver headerChunk headerChunk_fits 1).map .device ++ [.client (.recv [])]

theorem wav_connection_stalls_pcm :
    ∃ s, (WavConnection.connection WavSender.pcmHeader.bytes WavSender.zeroJunk 54
        (fun _ => 0) 44100).Reaches s ∧
      s.device.received = headerChunk ∧ s.client.place = .ackHeader ∧ s.client.blocks = [] ∧
      s.device.reader = none := by
  have hrun : ((WavConnection.connection WavSender.pcmHeader.bytes WavSender.zeroJunk 54
      (fun _ => 0) 44100).exec (fun _ _ => True)
      (WavConnection.connection WavSender.pcmHeader.bytes WavSender.zeroJunk 54
        (fun _ => 0) 44100).init headerOnly).map (fun s =>
        (s.device.received,s.client.place)) = some (headerChunk,.ackHeader) := by
    decide +kernel
  obtain ⟨s,hs,hends⟩ := Option.map_eq_some_iff.mp hrun
  obtain ⟨hreceived,hplace⟩ := Prod.mk.inj hends
  have hr := (System.run_of_exec hs).reaches
  obtain ⟨_,hblocks,_,hreader,_⟩ := wav_connection_stalls hr
  exact ⟨s,hr,hreceived,hplace,hblocks,hreader⟩

end WifiSpeaker.Proofs.Silence
