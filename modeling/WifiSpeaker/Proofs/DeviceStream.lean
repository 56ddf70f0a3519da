import WifiSpeaker.Device
import WifiSpeaker.Proofs.CaptureStream
import WifiSpeaker.Proofs.DataBufferQueue
import WifiSpeaker.Proofs.ReadReturns
import WifiSpeaker.Proofs.ServerSteps

namespace WifiSpeaker.Proofs.DeviceStream
open Common Wire Device
open DataBuffer (Ring WriteCall ReadCall Copy bufferReadData bufferWriteData readPass writePass)
open DataBufferShape (ReadPass WritePass read_pass write_pass)
open DataBufferQueue (Carries CleanAdvance unread unsent step_carries)
open PrcessCharacter (Task Receiver rendersOf prcessCharacter defaultWfx bootWfx zeroStack)
open Server (AudioThread Reader)
open ServerSteps (ThreadMove thread_move)
open Speaker (argument dac speaker)

/-- Everything one step of a `prcess_character` on the ring can do. -/
inductive ReaderMove (ring : Ring) (wfx : WaveFormatEx) :
    Reader → Reader → Ring → WaveFormatEx → List PrcessCharacter.Event → Prop
  | start (stack : Task) : ReaderMove ring wfx (.created stack)
      (.reading (prcessCharacter stack) (bufferReadData ring 4) []) ring (defaultWfx wfx)
      [.read .tcpCommand 4]
  | again (pass : readPass ring call = some (ring',.inl call',copied)) :
      ReaderMove ring wfx (.reading task call got)
        (.reading task call' (got ++ copied.toList.flatMap Copy.bytes)) ring' wfx []
  | returned (pass : readPass ring call = some (ring',.inr readByte,copied))
      (resumed : task.resume wfx readByte (got ++ copied.toList.flatMap Copy.bytes) =
        (task',wfx',events)) :
      ReaderMove ring wfx (.reading task call got)
        (.reading task' (bufferReadData ring' task'.request.2) []) ring' wfx'
        (events ++ [.read task'.request.1 task'.request.2])

theorem elim_bytes (copied : Option Copy) :
    copied.elim [] Copy.bytes = copied.toList.flatMap Copy.bytes := by
  cases copied <;> simp

theorem reader_move (h : Reader.step ring wfx r = some (r',ring',wfx',events)) :
    ReaderMove ring wfx r r' ring' wfx' events := by
  cases r with
  | created stack =>
    cases h
    exact .start stack
  | reading task call got =>
    obtain ⟨⟨ring'',next,copied⟩,pass,h⟩ := Option.bind_eq_some_iff.mp h
    simp only [elim_bytes] at h
    cases next with
    | inl call' =>
      cases h
      exact .again pass
    | inr readByte =>
      cases h
      exact .returned pass rfl

/-- The write the thread is in. -/
def writer (t : AudioThread) : Option WriteCall :=
  match t.place with
  | .write call => some call
  | _ => none

/-- What that write has still to copy. -/
def unwritten (t : AudioThread) : List UInt8 := (writer t).elim [] WriteCall.data

/-- The read the task is in. -/
def asked : Option Reader → Option ReadCall
  | some (.reading _ call _) => some call
  | _ => none

/-- What that read has delivered. -/
def inHand : Option Reader → List UInt8
  | some (.reading _ _ got) => got
  | _ => []

/-- The thread and the task as the two sides of the ring. -/
def buffers (s : State) (writes reads : List Copy) : DataBuffer.State :=
  ⟨s.ring,writer s.thread,asked s.reader,writes,reads⟩

/-- The ring is in order, what was received is what was copied in and what the write
under way has left, and the read under way has what it was asked for less what it has
still to get. -/
structure Stored (s : State) (writes reads : List Copy) : Prop where
  carries : ∃ q, Carries (buffers s writes reads) q
  whole : ∀ call, writer s.thread = some call → call.size = call.data.length
  received : s.received = writes.flatMap Copy.bytes ++ unwritten s.thread
  size : ∀ task call got, s.reader = some (.reading task call got) →
    got.length + call.size = task.request.2 ∧ (got = [] ∨ 0 ≤ call.size)

theorem Stored.shape (h : Stored s writes reads) : DataBufferShape.Shape s.ring := by
  obtain ⟨q,hq⟩ := h.carries
  exact hq.shaped.ring

/-- A step of the ring. -/
theorem Stored.carried (h : Stored s writes reads) (hok : CleanAdvance (buffers s [] []) a)
    (hc : DataBuffer.step (buffers s writes reads) a = some (buffers t writes' reads')) :
    ∃ q, Carries (buffers t writes' reads') q := by
  obtain ⟨q,hq⟩ := h.carries
  have hok' : CleanAdvance (buffers s writes reads) a := by
    cases a <;> exact hok
  obtain ⟨q',_,hq'⟩ := step_carries hq hok' hc
  exact ⟨q',hq'⟩

/-- A task that has not run yet is not in a read. -/
theorem asked_or (r : Option Reader) (readers : List Reader)
    (hn : ∀ r ∈ readers, ∃ stack, r = .created stack) : asked (r.or readers.head?) = asked r := by
  cases r with
  | some r => rfl
  | none =>
    cases readers with
    | nil => rfl
    | cons r readers =>
      obtain ⟨stack,rfl⟩ := hn r (List.mem_cons_self)
      rfl

theorem reading_or {readers : List Reader} (hn : ∀ r ∈ readers, ∃ stack, r = .created stack)
    (h : r.or readers.head? = some (.reading task call got)) :
    r = some (.reading task call got) := by
  cases r with
  | some r => exact h
  | none =>
    cases readers with
    | nil => exact h
    | cons r readers =>
      obtain ⟨stack,rfl⟩ := hn r (List.mem_cons_self)
      cases h

/-- The thread outside of its writes. -/
theorem Stored.quiet {readers : List Reader} (h : Stored s writes reads)
    (hw : writer s.thread = none) (hw' : writer t = none)
    (hn : ∀ r ∈ readers, ∃ stack, r = .created stack) :
    Stored { s with thread := t, reader := s.reader.or readers.head? } writes reads := by
  have hsame : buffers { s with thread := t, reader := s.reader.or readers.head? } writes reads =
      buffers s writes reads := by
    simp only [buffers,hw,hw',asked_or s.reader readers hn]
  refine ⟨hsame ▸ h.carries,?_,?_,?_⟩
  · intro call hc
    rw [hw'] at hc
    cases hc
  · rw [h.received]
    simp only [unwritten,hw,hw']
  · intro task call got hr
    exact h.size task call got (reading_or hn hr)

/-- `recv` has brought bytes and their write begins. -/
theorem Stored.recv (h : Stored s writes reads) (hw : writer s.thread = none)
    (hw' : writer t = some (bufferWriteData s.ring data data.length)) :
    Stored { s with thread := t, received := s.received ++ data } writes reads := by
  refine ⟨h.carried (a := .callWrite data data.length) trivial ?_,?_,?_,h.size⟩
  · simp [DataBuffer.step,buffers,hw,hw']
  · intro call hc
    rw [hw',Option.some.injEq] at hc
    rw [← hc]
    rfl
  · simp only [h.received,unwritten,hw,hw',Option.elim_none,Option.elim_some,List.append_nil]
    rfl

/-- A pass copies a beginning of what its call has. -/
theorem pass_data (hp : WritePass r c r' next copied) (hs : c.size = c.data.length)
    (hr : DataBufferShape.Shape r) :
    c.data = copied.toList.flatMap Copy.bytes ++ next.elim [] WriteCall.data ∧
      ∀ call, next = some call → call.size = call.data.length := by
  cases hp with
  | returns done =>
    have hnil : c.data = [] := List.length_eq_zero_iff.mp (by omega)
    refine ⟨by rw [hnil]; rfl,?_⟩
    intro call hc
    cases hc
  | fill more free fits =>
    refine ⟨?_,?_⟩
    · simp [WriteCall.copy,hs]
    · intro call hc
      cases hc
  | commit more free beyond =>
    have hpos := hr.remain_pos c.current
    refine ⟨?_,?_⟩
    · simp [WriteCall.copy]
    · intro call hc
      cases hc
      change c.size - r.remain c.current = (c.data.drop (r.remain c.current).toNat).length
      rw [List.length_drop]
      omega

/-- A pass of the write. -/
theorem Stored.write (h : Stored s writes reads) (hw : writer s.thread = some call)
    (hok : CleanAdvance (buffers s [] []) .passWrite)
    (hp : writePass s.ring call = some (ring,next,copied)) (hw' : writer t = next) :
    Stored { s with ring := ring, thread := t } (writes ++ copied.toList) reads := by
  obtain ⟨hdata,hsize⟩ := pass_data (write_pass hp) (h.whole call hw) h.shape
  refine ⟨h.carried (a := .passWrite) hok ?_,?_,?_,h.size⟩
  · simp [DataBuffer.step,buffers,hw,hw',hp]
  · intro call' hc
    exact hsize call' (hw'.symm.trans hc)
  · rw [h.received]
    simp only [unwritten,hw,hw',Option.elim_some,hdata,List.flatMap_append,List.append_assoc]

/-- A step of the thread. -/
theorem Stored.thread (h : Stored s writes reads)
    (hok : act = .write → CleanAdvance (buffers s [] []) .passWrite)
    (hm : ThreadMove s.thread 0 s.ring client act t ring readers events) :
    ∃ writes', Stored { s with
      ring := ring
      thread := t
      reader := s.reader.or readers.head?
      received := s.received ++ delivered act } writes' reads := by
  cases hm with
  | recvBytes spot data fits =>
    refine ⟨writes,?_⟩
    simp only [List.head?_nil,Option.or_none]
    exact h.recv (by simp [writer,spot]) rfl
  | @write call _ next copied spot pass =>
    refine ⟨writes ++ copied.toList,?_⟩
    simp only [List.head?_nil,Option.or_none,delivered,List.append_nil]
    refine h.write (by simp [writer,spot]) (hok rfl) pass ?_
    cases next <;> rfl
  | copy spot =>
    simp only [delivered,List.append_nil]
    exact ⟨writes,h.quiet (by simp [writer,spot]) rfl (by simp)⟩
  | recvError spot =>
    simp only [delivered,List.append_nil]
    exact ⟨writes,h.quiet (by simp [writer,spot]) rfl (by simp)⟩
  | checkPassed spot =>
    simp only [delivered,List.append_nil]
    exact ⟨writes,h.quiet (by simp [writer,spot]) rfl (by simp)⟩
  | checkFailed spot =>
    simp only [delivered,List.append_nil]
    exact ⟨writes,h.quiet (by simp [writer,spot]) rfl (by simp)⟩
  | create spot stack =>
    simp only [delivered,List.append_nil]
    refine ⟨writes,h.quiet (by simp [writer,spot]) rfl ?_⟩
    intro r hr
    obtain ⟨stack,_,rfl⟩ := List.mem_map.mp hr
    exact ⟨stack,rfl⟩
  | close spot =>
    simp only [delivered,List.append_nil]
    exact ⟨writes,h.quiet (by simp [writer,spot]) rfl (by simp)⟩

/-- The task begins a read. -/
theorem Stored.ask (h : Stored s writes reads) (hr : asked s.reader = none) (task : Task)
    (wfx : WaveFormatEx) (ren : Renderer.State) :
    Stored { s with
      wfx := wfx
      reader := some (.reading task (bufferReadData s.ring task.request.2) [])
      renderer := ren } writes reads := by
  refine ⟨h.carried (a := .callRead task.request.2) trivial ?_,h.whole,h.received,?_⟩
  · exact if_pos hr
  · intro task' call got hc
    cases hc
    exact ⟨by simp [bufferReadData],.inl rfl⟩

/-- A read pass delivers what it takes off the size, and at its return it has delivered
all that was asked for. -/
theorem pass_size (hp : ReadPass r d r' next copied) (hr : DataBufferShape.Shape r)
    (hs : got.length + d.size = n ∧ (got = [] ∨ 0 ≤ d.size)) :
    match next with
    | .inl d' => (got ++ copied.toList.flatMap Copy.bytes).length + d'.size = n ∧ 0 ≤ d'.size
    | .inr _ => (got ++ copied.toList.flatMap Copy.bytes).length = n.toNat := by
  obtain ⟨hn,hgot⟩ := hs
  cases hp with
  | returns done =>
    simp only [Option.toList_none,List.flatMap_nil,List.append_nil]
    rcases hgot with rfl | hgot
    · simp only [List.length_nil] at hn ⊢
      omega
    · omega
  | consume more ready fits =>
    have hlen := ReadReturns.length_copy hr d (Int.le_of_lt more) (Int.le_of_lt fits)
    simp only [Option.toList_some,List.flatMap_singleton,List.length_append]
    omega
  | release more ready beyond =>
    have hpos := hr.remain_pos d.current
    have hlen := ReadReturns.length_copy hr d (Int.le_of_lt hpos) (Int.le_refl _)
    simp only [Option.toList_some,List.flatMap_singleton,List.length_append]
    omega

/-- A pass of the read. -/
theorem Stored.pass (h : Stored s writes reads) (hr : s.reader = some (.reading task call got))
    (hok : CleanAdvance (buffers s [] []) .passRead)
    (hp : readPass s.ring call = some (ring,next,copied)) (ha : asked reader = next.getLeft?)
    (hs : ∀ task call got, reader = some (.reading task call got) →
      got.length + call.size = task.request.2 ∧ (got = [] ∨ 0 ≤ call.size)) :
    Stored { s with ring := ring, reader := reader } writes (reads ++ copied.toList) := by
  have hnow : asked s.reader = some call := by
    rw [hr]
    rfl
  refine ⟨h.carried (a := .passRead) hok ?_,h.whole,h.received,hs⟩
  simp [DataBuffer.step,buffers,hnow,ha,hp]

section
variable {beyond : Nat → UInt8} {sampleRate : UInt32} {s t : State} {u v : Speaker.State}

/-- For every stream that goes on behind what was received, a speaker on that stream
comes in time to the renderer and the port of the device, its task being where the
task of the device is. -/
def Follows (beyond : Nat → UInt8) (sampleRate : UInt32) (s : State) (out : List UInt8)
    (junk task : Task) (wfx : WaveFormatEx) (got : List UInt8) : Prop :=
  ∀ future, ∃ moves u, (speaker junk bootWfx beyond sampleRate (s.received ++ future)).Run
      SpeakerSound.InTime moves u ∧
    u.renderer = s.renderer ∧ u.port = s.port ∧ u.receiver.task = task ∧ u.receiver.wfx = wfx ∧
    u.receiver.input = got ++ (s.received ++ future).drop out.length

/-- Before the task has run any stack will do; afterwards it is the one it got. -/
inductive Heard (beyond : Nat → UInt8) (sampleRate : UInt32) (s : State) (out : List UInt8) : Prop
  | before (reader : asked s.reader = none) (wfx : s.wfx = bootWfx) (none : out = [])
      (runs : ∀ junk, Follows beyond sampleRate s out junk (prcessCharacter junk)
        (defaultWfx bootWfx) [])
  | reading (reader : s.reader = some (.reading task call got))
      (runs : Follows beyond sampleRate s out junk task s.wfx got)

theorem Follows.same (h : Follows beyond sampleRate s out junk task wfx got)
    (hreceived : t.received = s.received) (hrenderer : t.renderer = s.renderer)
    (hport : t.port = s.port) : Follows beyond sampleRate t out junk task wfx got := by
  intro future
  rw [hreceived,hrenderer,hport]
  exact h future

/-- What comes in later was a part of the future before. -/
theorem Follows.receive (h : Follows beyond sampleRate s out junk task wfx got)
    (hreceived : t.received = s.received ++ data) (hrenderer : t.renderer = s.renderer)
    (hport : t.port = s.port) : Follows beyond sampleRate t out junk task wfx got := by
  intro future
  rw [hreceived,hrenderer,hport,List.append_assoc]
  exact h (data ++ future)

/-- A pass moves bytes from the ring into the hand of the task. -/
theorem Follows.pass (h : Follows beyond sampleRate s out junk task wfx got)
    (hout : out ++ bytes <+: s.received) :
    Follows beyond sampleRate s (out ++ bytes) junk task wfx (got ++ bytes) := by
  intro future
  obtain ⟨moves,u,hrun,hrenderer,hport,htask,hwfx,hinput⟩ := h future
  refine ⟨moves,u,hrun,hrenderer,hport,htask,hwfx,?_⟩
  obtain ⟨more,hmore⟩ := hout
  rw [hinput,← hmore]
  simp only [List.append_assoc,List.drop_left,List.append_cancel_left_eq]
  rw [← List.append_assoc,List.drop_left]

/-- The steps inside of `render_samples` and of the hardware do not look at the stream. -/
theorem task_stream (r r' : Receiver) (ren : Renderer.State) (p : I2s.State dac)
    (ha : ∀ n, a ≠ .read n) :
    Speaker.State.task ⟨r',ren,p⟩ beyond a =
      (Speaker.State.task ⟨r,ren,p⟩ beyond a).map (fun q => (r',q.2)) := by
  cases a with
  | read n => exact absurd rfl (ha n)
  | enter =>
    have hrate : Speaker.State.newRate ⟨r',ren,p⟩ = Speaker.State.newRate ⟨r,ren,p⟩ := rfl
    simp only [Speaker.State.task,hrate]
    generalize Option.map _ (Speaker.State.newRate ⟨r,ren,p⟩) = outcome
    split
    · cases Renderer.step ren (.enter Renderer.espFail) <;> rfl
    · rfl
    · cases Renderer.step ren (.enter Renderer.espOk) <;> rfl
  | turn =>
    simp only [Speaker.State.task,Speaker.State.word]
    cases Renderer.step ren (.turn _) <;> rfl
  | fetch => rfl
  | interrupt => rfl
  | isrDrop => rfl
  | isrSend => rfl
  | isrClear => rfl

theorem step_stream (r r' : Receiver) (ren : Renderer.State) (p : I2s.State dac)
    (ha : ∀ n, a ≠ .read n) (h : Speaker.step beyond ⟨r,ren,p⟩ a = some v) :
    Speaker.step beyond ⟨r',ren,p⟩ a = some ⟨r',v.renderer,v.port⟩ := by
  obtain ⟨port,hport,h⟩ := Option.bind_eq_some_iff.mp h
  obtain ⟨⟨receiver,renderer⟩,htask,h⟩ := Option.bind_eq_some_iff.mp h
  cases h
  have hport' : Speaker.State.portStep ⟨r',ren,p⟩ a = some port := by
    cases a <;> exact hport
  simp [Speaker.step,hport',task_stream r r' ren p ha,htask]

/-- A step inside of `render_samples` or of the hardware. -/
theorem Follows.play (h : Follows beyond sampleRate s out junk task wfx got)
    (ha : ∀ n, a ≠ .read n) (hok : SpeakerSound.InTime s.speaker a)
    (ht : Speaker.step beyond s.speaker a = some v) :
    Follows beyond sampleRate { s with renderer := v.renderer, port := v.port } out junk task wfx
      got := by
  intro future
  obtain ⟨moves,⟨r,ren,p⟩,hrun,hrenderer,hport,htask,hwfx,hinput⟩ := h future
  obtain rfl : ren = s.renderer := hrenderer
  obtain rfl : p = s.port := hport
  refine ⟨moves ++ [a],⟨r,v.renderer,v.port⟩,?_,rfl,rfl,htask,hwfx,hinput⟩
  apply hrun.next
  · intro b hb
    apply hok
    cases a <;> exact hb
  · exact step_stream _ r s.renderer s.port ha ht

/-- The read returns, and the task goes on to the next one. -/
theorem speaker_read {events : List PrcessCharacter.Event} (hcall : u.renderer.call = none)
    (hwants : got.length = u.receiver.task.wants) (hinput : u.receiver.input = got ++ rest)
    (hres : u.receiver.task.resume u.receiver.wfx readByte got = (task,wfx,events))
    (hren : afterRead beyond u.renderer
      (rendersOf (events ++ [.read task.request.1 task.request.2])) = some ren) :
    Speaker.step beyond u (.read readByte) =
      some ⟨⟨task,wfx,rest,
        u.receiver.trace ++ (events ++ [.read task.request.1 task.request.2])⟩,ren,u.port⟩ := by
  have htake : u.receiver.input.take u.receiver.task.wants = got := by
    rw [hinput,← hwants,List.take_left]
  have hdrop : u.receiver.input.drop u.receiver.task.wants = rest := by
    rw [hinput,← hwants,List.drop_left]
  have henough : ¬ u.receiver.input.length < u.receiver.task.wants := by
    rw [hinput,List.length_append]
    omega
  have hread : u.receiver.step readByte = some ⟨task,wfx,rest,
      u.receiver.trace ++ (events ++ [.read task.request.1 task.request.2])⟩ := by
    simp only [Receiver.step,if_neg henough,htake,hdrop,hres]
  have hnew : (Receiver.renders ⟨task,wfx,rest,
      u.receiver.trace ++ (events ++ [.read task.request.1 task.request.2])⟩).drop
        u.receiver.renders.length =
      rendersOf (events ++ [.read task.request.1 task.request.2]) := by
    rw [Receiver.renders,Receiver.renders,Framing.rendersOf_append,List.drop_left]
  simp only [Speaker.step,Speaker.State.portStep,Speaker.State.portAct,Speaker.State.task,hcall,
    Option.isSome_none,Bool.false_eq_true,if_false,hread,hnew,Option.bind_eq_bind,Option.bind_some]
  generalize rendersOf (events ++ [.read task.request.1 task.request.2]) = calls at hren ⊢
  cases calls with
  | nil =>
    cases hren
    rfl
  | cons call calls =>
    simp only [afterRead] at hren
    simp [hren]

theorem Follows.read {events : List PrcessCharacter.Event}
    (h : Follows beyond sampleRate s out junk task wfx got) (hcall : s.renderer.call = none)
    (hwants : got.length = task.wants)
    (hres : task.resume wfx readByte got = (task',wfx',events))
    (hren : afterRead beyond s.renderer
      (rendersOf (events ++ [.read task'.request.1 task'.request.2])) = some ren) (hreceived : t.received = s.received) (hrenderer : t.renderer = ren)
    (hport : t.port = s.port) : Follows beyond sampleRate t out junk task' wfx' [] := by
  intro future
  obtain ⟨moves,u,hrun,hu,hp,rfl,rfl,hinput⟩ := h future
  rw [← hu] at hren hcall
  rw [hreceived,hrenderer,hport]
  have htime : SpeakerSound.InTime u (.read readByte) := by
    intro b hb
    cases hb
  have hrun' := hrun.next htime (speaker_read hcall hwants hinput hres hren)
  refine ⟨_,_,hrun',?_,hp,?_,?_,?_⟩
  · rfl
  · rfl
  · rfl
  · rfl

/-- No pass on the ring moves to a slot in use, and the port is in time. -/
def Smooth (s : State) : Act → Prop
  | .thread .write => CleanAdvance (buffers s [] []) .passWrite
  | .thread _ => True
  | .reader => CleanAdvance (buffers s [] []) .passRead
  | .speaker act => SpeakerSound.InTime s.speaker act

instance (s : State) (a : Act) : Decidable (Smooth s a) :=
  match a with
  | .thread .write => inferInstanceAs (Decidable (CleanAdvance (buffers s [] []) .passWrite))
  | .thread .copy => inferInstanceAs (Decidable True)
  | .thread (.recv _) => inferInstanceAs (Decidable True)
  | .thread .check => inferInstanceAs (Decidable True)
  | .thread (.create _) => inferInstanceAs (Decidable True)
  | .thread .close => inferInstanceAs (Decidable True)
  | .reader => inferInstanceAs (Decidable (CleanAdvance (buffers s [] []) .passRead))
  | .speaker act => inferInstanceAs (Decidable (SpeakerSound.InTime s.speaker act))

/-- The ring keeps its account, and a speaker on the received bytes is where the
device is. -/
def Streams (beyond : Nat → UInt8) (sampleRate : UInt32) (s : State) : Prop :=
  ∃ writes reads, Stored s writes reads ∧ Heard beyond sampleRate s (reads.flatMap Copy.bytes)

theorem Stored.account (h : Stored s writes reads) : s.received = reads.flatMap Copy.bytes ++
    (unread s.ring ++ unsent s.ring ++ unwritten s.thread) := by
  obtain ⟨q,hq⟩ := h.carries
  have hsplit : writes.flatMap Copy.bytes = reads.flatMap Copy.bytes ++
      (unread s.ring ++ unsent s.ring) := hq.split
  rw [h.received,hsplit]
  simp only [List.append_assoc]

/-- A step of the thread does not touch the sound. -/
theorem Heard.thread {readers : List Reader} {t' : AudioThread}
    (h : Heard beyond sampleRate s out)
    (hn : ∀ r ∈ readers, ∃ stack, r = .created stack) :
    Heard beyond sampleRate { s with
      ring := ring
      thread := t'
      reader := s.reader.or readers.head?
      received := s.received ++ data } out := by
  cases h with
  | before reader wfx none runs =>
    refine .before ?_ wfx none (fun junk => (runs junk).receive rfl rfl rfl)
    rw [asked_or s.reader readers hn]
    exact reader
  | reading reader runs =>
    have hreader : s.reader.or readers.head? = s.reader := by
      rw [reader]
      rfl
    exact .reading (hreader.trans reader) (runs.receive rfl rfl rfl)

theorem created_of_move (hm : ThreadMove t₀ i ring client act t₁ ring' readers events) :
    ∀ r ∈ readers, ∃ stack, r = .created stack := by
  intro r hr
  cases hm with
  | create spot stack =>
    obtain ⟨stack,_,rfl⟩ := List.mem_map.mp hr
    exact ⟨stack,rfl⟩
  | copy => cases hr
  | recvError => cases hr
  | recvBytes => cases hr
  | write => cases hr
  | checkPassed => cases hr
  | checkFailed => cases hr
  | close => cases hr

theorem streams_thread (h : Streams beyond sampleRate s) (hok : Smooth s (.thread act))
    (ht : step beyond s (.thread act) = some t) : Streams beyond sampleRate t := by
  obtain ⟨writes,reads,hstored,hheard⟩ := h
  obtain ⟨⟨thread,ring,readers,events⟩,hstep,ht⟩ := Option.bind_eq_some_iff.mp ht
  cases ht
  have hm := thread_move hstep
  have hclean : act = .write → CleanAdvance (buffers s [] []) .passWrite := by
    rintro rfl
    exact hok
  obtain ⟨writes',hstored'⟩ := hstored.thread hclean hm
  exact ⟨writes',reads,hstored',hheard.thread (created_of_move hm)⟩

theorem step_speaker (s : State) (ha : ∀ n, a ≠ .read n) : step beyond s (.speaker a) =
    (Speaker.step beyond s.speaker a).bind
      (fun v => some { s with renderer := v.renderer, port := v.port }) := by
  cases a with
  | read n => exact absurd rfl (ha n)
  | enter => rfl
  | turn => rfl
  | fetch => rfl
  | interrupt => rfl
  | isrDrop => rfl
  | isrSend => rfl
  | isrClear => rfl

theorem speaker_step (ht : step beyond s (.speaker a) = some t) :
    ∃ v, (Speaker.step beyond s.speaker a = some v ∧ ∀ n, a ≠ .read n) ∧
      t = { s with renderer := v.renderer, port := v.port } := by
  have ha : ∀ n, a ≠ .read n := by
    rintro n rfl
    cases ht
  rw [step_speaker s ha] at ht
  obtain ⟨v,hv,ht⟩ := Option.bind_eq_some_iff.mp ht
  cases ht
  exact ⟨v,⟨hv,ha⟩,rfl⟩

theorem streams_speaker (h : Streams beyond sampleRate s) (hok : Smooth s (.speaker a))
    (ht : step beyond s (.speaker a) = some t) : Streams beyond sampleRate t := by
  obtain ⟨writes,reads,hstored,hheard⟩ := h
  obtain ⟨v,⟨hv,ha⟩,rfl⟩ := speaker_step ht
  refine ⟨writes,reads,⟨hstored.carries,hstored.whole,hstored.received,hstored.size⟩,?_⟩
  cases hheard with
  | before reader wfx none runs =>
    exact .before reader wfx none (fun junk => (runs junk).play ha hok hv)
  | reading reader runs => exact .reading reader (runs.play ha hok hv)

/-- A task that has begun is the one the speaker follows. -/
theorem Heard.runs (h : Heard beyond sampleRate s out)
    (hr : s.reader = some (.reading task call got)) :
    ∃ junk, Follows beyond sampleRate s out junk task s.wfx got := by
  cases h with
  | before reader =>
    rw [hr] at reader
    cases reader
  | reading reader runs =>
    rw [hr] at reader
    cases reader
    exact ⟨_,runs⟩

theorem streams_start (h : Streams beyond sampleRate s)
    (hr : s.reader = some (.created stack)) :
    Streams beyond sampleRate { s with
      wfx := defaultWfx s.wfx
      reader := some (.reading (prcessCharacter stack) (bufferReadData s.ring 4) []) } := by
  obtain ⟨writes,reads,hstored,hheard⟩ := h
  have hidle : asked s.reader = none := by
    rw [hr]
    rfl
  refine ⟨writes,reads,hstored.ask hidle (prcessCharacter stack) (defaultWfx s.wfx) s.renderer,?_⟩
  cases hheard with
  | before reader wfx none runs =>
    have hrun := runs stack
    rw [← wfx] at hrun
    exact .reading rfl (hrun.same rfl rfl rfl)
  | reading reader =>
    rw [hr] at reader
    cases reader

theorem bytes_snoc (reads : List Copy) (copied : Option Copy) :
    (reads ++ copied.toList).flatMap Copy.bytes =
      reads.flatMap Copy.bytes ++ copied.toList.flatMap Copy.bytes :=
  List.flatMap_append

theorem Stored.out (h : Stored s writes reads) : reads.flatMap Copy.bytes <+: s.received :=
  ⟨_,h.account.symm⟩

theorem streams_again (h : Streams beyond sampleRate s)
    (hok : CleanAdvance (buffers s [] []) .passRead)
    (hr : s.reader = some (.reading task call got))
    (hp : readPass s.ring call = some (ring,.inl call',copied)) :
    Streams beyond sampleRate { s with
      ring := ring
      reader := some (.reading task call' (got ++ copied.toList.flatMap Copy.bytes)) } := by
  obtain ⟨writes,reads,hstored,hheard⟩ := h
  obtain ⟨junk,hruns⟩ := hheard.runs hr
  have hsize := pass_size (read_pass hp) hstored.shape (hstored.size task call got hr)
  have hstored' : Stored { s with
      ring := ring
      reader := some (.reading task call' (got ++ copied.toList.flatMap Copy.bytes)) }
      writes (reads ++ copied.toList) := by
    apply hstored.pass hr hok hp rfl
    intro task' call'' got' hc
    cases hc
    exact ⟨hsize.1,.inr hsize.2⟩
  refine ⟨writes,reads ++ copied.toList,hstored',?_⟩
  have hout := hstored'.out
  rw [bytes_snoc] at hout ⊢
  exact .reading rfl ((hruns.pass hout).same rfl rfl rfl)

theorem streams_returned {events : List PrcessCharacter.Event} (h : Streams beyond sampleRate s)
    (hok : CleanAdvance (buffers s [] []) .passRead) (hcall : s.renderer.call = none)
    (hr : s.reader = some (.reading task call got))
    (hp : readPass s.ring call = some (ring,.inr readByte,copied))
    (hres : task.resume s.wfx readByte (got ++ copied.toList.flatMap Copy.bytes) =
      (task',wfx',events))
    (hren : afterRead beyond s.renderer
      (rendersOf (events ++ [.read task'.request.1 task'.request.2])) = some ren) :
    Streams beyond sampleRate { s with
      ring := ring
      wfx := wfx'
      reader := some (.reading task' (bufferReadData ring task'.request.2) [])
      renderer := ren } := by
  obtain ⟨writes,reads,hstored,hheard⟩ := h
  obtain ⟨junk,hruns⟩ := hheard.runs hr
  have hsize := pass_size (read_pass hp) hstored.shape (hstored.size task call got hr)
  -- between the two calls the task is in no read
  have hstored' : Stored { s with ring := ring, reader := none } writes
      (reads ++ copied.toList) := by
    apply hstored.pass hr hok hp rfl
    intro task' call'' got' hc
    cases hc
  refine ⟨writes,reads ++ copied.toList,hstored'.ask rfl task' wfx' ren,?_⟩
  have hout := hstored'.out
  rw [bytes_snoc] at hout ⊢
  exact .reading rfl ((hruns.pass hout).read hcall hsize hres hren rfl rfl rfl)

theorem streams_reader (h : Streams beyond sampleRate s) (hok : Smooth s .reader)
    (ht : step beyond s .reader = some t) : Streams beyond sampleRate t := by
  simp only [step] at ht
  split at ht
  · cases ht
  · rename_i hcall
    have hnone : s.renderer.call = none := by
      rwa [Bool.not_eq_true,Option.isSome_eq_false_iff,Option.isNone_iff_eq_none] at hcall
    obtain ⟨r,hr,ht⟩ := Option.bind_eq_some_iff.mp ht
    obtain ⟨⟨reader,ring,wfx,events⟩,hstep,ht⟩ := Option.bind_eq_some_iff.mp ht
    obtain ⟨ren,hren,ht⟩ := Option.bind_eq_some_iff.mp ht
    cases ht
    cases reader_move hstep with
    | start stack =>
      cases hren
      exact streams_start h hr
    | again pass =>
      cases hren
      exact streams_again h hok hr pass
    | returned pass resumed => exact streams_returned h hok hnone hr pass resumed hren

theorem step_streams (h : Streams beyond sampleRate s) (hok : Smooth s a)
    (ht : step beyond s a = some t) : Streams beyond sampleRate t := by
  cases a with
  | thread act => exact streams_thread h hok ht
  | reader => exact streams_reader h hok ht
  | speaker a => exact streams_speaker h hok ht

theorem init_streams (client : Int) (beyond : Nat → UInt8) (sampleRate : UInt32) :
    Streams beyond sampleRate (device client beyond sampleRate).init := by
  refine ⟨[],[],⟨⟨_,DataBufferQueue.init_carries⟩,?_,rfl,?_⟩,.before rfl rfl rfl ?_⟩
  · intro call hc
    cases hc
  · intro task call got hc
    cases hc
  · intro junk future
    exact ⟨[],_,.start,rfl,rfl,rfl,rfl,rfl⟩

theorem run_streams (h : (device client beyond sampleRate).Run Smooth acts s) :
    Streams beyond sampleRate s :=
  h.invariant (init_streams client beyond sampleRate)
    (fun _ _ _ hs hok ht => step_streams hs hok ht)

theorem inHand_of_asked {r : Option Reader} (h : asked r = none) : inHand r = [] := by
  cases r with
  | none => rfl
  | some r =>
    cases r with
    | created stack => rfl
    | reading task call got => cases h

/-- A speaker on the received bytes does what the device does, and what it has not
read of them yet is, in this order, in the hand of the task, in the ring, and with the
write under way. -/
theorem Streams.run (h : Streams beyond sampleRate s) (future : List UInt8) :
    ∃ junk moves u, (speaker junk bootWfx beyond sampleRate (s.received ++ future)).Run
        SpeakerSound.InTime moves u ∧ u.renderer = s.renderer ∧ u.port = s.port ∧
      (∀ task call got, s.reader = some (.reading task call got) →
        u.receiver.task = task ∧ u.receiver.wfx = s.wfx) ∧
      u.receiver.input = inHand s.reader ++
        (unread s.ring ++ unsent s.ring ++ unwritten s.thread ++ future) := by
  obtain ⟨writes,reads,hstored,hheard⟩ := h
  have hrest : (s.received ++ future).drop (reads.flatMap Copy.bytes).length =
      unread s.ring ++ unsent s.ring ++ unwritten s.thread ++ future := by
    rw [hstored.account,List.append_assoc,List.drop_left]
  cases hheard with
  | before reader wfx none runs =>
    obtain ⟨moves,u,hrun,hrenderer,hport,_,_,hinput⟩ := runs zeroStack future
    refine ⟨zeroStack,moves,u,hrun,hrenderer,hport,?_,?_⟩
    · intro task call got hr
      rw [hr] at reader
      cases reader
    · rw [hinput,hrest,inHand_of_asked reader]
  | @reading task call got junk reader runs =>
    obtain ⟨moves,u,hrun,hrenderer,hport,htask,hwfx,hinput⟩ := runs future
    refine ⟨junk,moves,u,hrun,hrenderer,hport,?_,?_⟩
    · intro task' call' got' hr
      rw [reader] at hr
      cases hr
      exact ⟨htask,hwfx⟩
    · rw [hinput,hrest,reader]
      rfl

/-- One connection, from the socket to the port: in every run in which no pass moves
to a slot in use and the port is in time, however the bytes come in and the tasks take
turns, the device does what a speaker does that reads the received bytes directly; what
this speaker has not read yet is in the hand of the task, in the ring and with the write
under way, in this order. -/
theorem device_refines_speaker (h : (device client beyond sampleRate).Run Smooth acts s) :
    ∃ junk moves u, (speaker junk bootWfx beyond sampleRate s.received).Run
        SpeakerSound.InTime moves u ∧ u.renderer = s.renderer ∧ u.port = s.port ∧
      (∀ task call got, s.reader = some (.reading task call got) →
        u.receiver.task = task ∧ u.receiver.wfx = s.wfx) ∧
      u.receiver.input = inHand s.reader ++
        (unread s.ring ++ unsent s.ring ++ unwritten s.thread) := by
  obtain ⟨junk,moves,u,hrun,hrenderer,hport,htask,hinput⟩ := (run_streams h).run []
  rw [List.append_nil] at hrun hinput
  exact ⟨junk,moves,u,hrun,hrenderer,hport,htask,hinput⟩

/-- What has been received and the task has not read: it is in its hand, in the ring, or
with the write under way. -/
def waiting (s : State) : List UInt8 :=
  inHand s.reader ++ (unread s.ring ++ unsent s.ring ++ unwritten s.thread)

end

section
variable {α δ : Type} {conv : BufferProcessor.Converter α UInt16 δ}
  {c : Capture.State conv} {temp : (Capture.stream conv).TempBuffer} {dither : δ}
  {heap : Sender.Heap} {sizeBuffer : Nat} {beyond : Nat → UInt8} {sampleRate : UInt32} {s : State}

end

/-- The `j`-th chunk of 1024 bytes of a stream. -/
def chunk (stream : List UInt8) (j : Nat) : List UInt8 := (stream.drop (1024 * j)).take 1024

theorem chunk_fits (stream : List UInt8) (j : Nat) :
    (chunk stream j).length ≤ Server.sizeofChunk := List.length_take_le _ _

/-- Bytes come in and go into the ring in some passes, and the fill is looked at. -/
def deliver (data : List UInt8) (fits : data.length ≤ Server.sizeofChunk) (passes : Nat) :
    List Act :=
  .thread (.recv (.bytes data fits)) ::
    (List.replicate passes (.thread .write) ++ [.thread .check])

/-- Every fifth chunk goes on into the next slot. -/
def deliverChunk (stream : List UInt8) (j : Nat) : List Act :=
  deliver (chunk stream j) (chunk_fits stream j) (if j % 5 = 4 then 2 else 1)

/-- Three slots come in and the task is created; it reads a message and goes into its
call, and the DMA comes through its first buffer. -/
def fill (stream : List UInt8) (reads : Nat) : List Act :=
  (List.range 15).flatMap (deliverChunk stream) ++ [.thread (.create (some zeroStack))] ++
    List.replicate reads .reader ++ [.speaker .enter] ++
    List.replicate 256 (.speaker .fetch) ++
    [.speaker .interrupt,.speaker .isrSend,.speaker .isrClear]

def toneStream : List UInt8 := (List.replicate 4 CaptureStream.toneMessage).flatten

/-- A message of the tone is read, and its first 64 frames fill the first buffer. -/
def toneActs : List Act := fill toneStream 4 ++ List.replicate 64 (.speaker .turn)

theorem toneActs_run : ∃ s, (device 54 (fun _ => 0) 44100).Run Smooth toneActs s ∧
    s.port.rwPos = 256 ∧ s.port.pushed = CaptureStream.toneBlock := by
  have hrun : ((device 54 (fun _ => 0) 44100).exec Smooth (device 54 (fun _ => 0) 44100).init
      toneActs).map (fun s => (s.port.rwPos,s.port.pushed)) =
        some (256,CaptureStream.toneBlock) := by
    decide +kernel
  obtain ⟨s,hs,he⟩ := Option.map_eq_some_iff.mp hrun
  obtain ⟨hpos,hpushed⟩ := Prod.mk.inj he
  exact ⟨s,System.run_of_exec hs,hpos,hpushed⟩

theorem device_refines_speaker_one_buffer :
    ∃ s junk moves u, (device 54 (fun _ => 0) 44100).Run Smooth toneActs s ∧
      (speaker junk bootWfx (fun _ => 0) 44100 s.received).Run SpeakerSound.InTime moves u ∧
      u.port = s.port ∧
      u.port.pushed = CaptureStream.toneBlock := by
  obtain ⟨s,hs,_,hpushed⟩ := toneActs_run
  obtain ⟨junk,moves,u,hu,_,hport,_⟩ := device_refines_speaker hs
  exact ⟨s,junk,moves,u,hs,hu,hport,by rw [hport,hpushed]⟩

/-- What an action brings in. -/
def brought : Act → List UInt8
  | .thread act => delivered act
  | _ => []

theorem step_received (ht : step beyond s a = some t) :
    t.received = s.received ++ brought a := by
  cases a with
  | thread act =>
    obtain ⟨_,_,ht⟩ := Option.bind_eq_some_iff.mp ht
    cases ht
    rfl
  | reader =>
    simp only [step] at ht
    split at ht
    · cases ht
    · obtain ⟨_,_,ht⟩ := Option.bind_eq_some_iff.mp ht
      obtain ⟨_,_,ht⟩ := Option.bind_eq_some_iff.mp ht
      obtain ⟨_,_,ht⟩ := Option.bind_eq_some_iff.mp ht
      cases ht
      exact (List.append_nil _).symm
  | speaker a =>
    obtain ⟨v,_,rfl⟩ := speaker_step ht
    exact (List.append_nil _).symm

end WifiSpeaker.Proofs.DeviceStream
