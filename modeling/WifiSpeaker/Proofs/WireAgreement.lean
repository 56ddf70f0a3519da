import WifiSpeaker.Proofs.Framing
import WifiSpeaker.Proofs.SenderAccount

namespace WifiSpeaker.Proofs.WireAgreement
open Common Wire PrcessCharacter Framing

/-- A payload the receiver's buffer can hold. -/
def Sendable : Message → Prop
  | .data payload => payload.length ≤ sizeofBuffer
  | _ => True

/-- What `render_samples` is handed: the bytes of the buffer it may read, the
length and the format. -/
def handed (call : RenderCall) : List UInt8 × UInt32 × WaveFormatEx :=
  (call.buf.bytes.take call.bufLen.toNat,call.bufLen,call.bufDesc)

/-- The calls the receiver owes for a list of messages: one for each data
message, under the last header before it. -/
def owed : WaveFormatEx → List Message → List (List UInt8 × UInt32 × WaveFormatEx)
  | _, [] => []
  | wfx, .other _ _ :: ms => owed wfx ms
  | _, .header wfx :: ms => owed wfx ms
  | wfx, .data payload :: ms => (payload,UInt32.ofNat payload.length,wfx) :: owed wfx ms

/-- The same call with its count of bytes delivered. -/
def counted (o : List UInt8 × UInt32 × WaveFormatEx) : Heard := ⟨o.1,o.1.length,o.2.1,o.2.2⟩

theorem payload_length {payload : List UInt8} (h : payload.length ≤ sizeofBuffer) :
    (UInt32.ofNat payload.length).toNat = payload.length :=
  UInt32.toNat_ofNat_of_lt' (Nat.lt_of_le_of_lt h (by decide))

theorem payload_fits {payload : List UInt8} (h : payload.length ≤ sizeofBuffer) :
    payload.length = (signed (UInt32.ofNat payload.length)).toNat := by
  have hlt : payload.length < 2 ^ 31 := Nat.lt_of_le_of_lt h (by decide)
  rw [signed_eq,payload_length h,if_pos hlt,Int.toNat_natCast]

/-- The frame a message is on the wire. -/
def frameOf : (m : Message) → Sendable m → Frame
  | .other c neither, _ => .other c neither
  | .header w, _ => .header (UInt32.ofNat sizeofWaveFormatEx) w.toBytes (by simp; decide)
  | .data payload, h => .data (UInt32.ofNat payload.length) payload (payload_fits h)

theorem encode_frameOf (m : Message) (h : Sendable m) : (frameOf m h).encode = m.encode := by
  cases m <;> rfl

/-- A list of messages is a list of frames, with the bytes and the calls owed of as many
as one takes of it. -/
theorem messages_frames_take {ms : List Message} (hs : ∀ m ∈ ms, Sendable m) :
    ∃ fs : List Frame, fs.length = ms.length ∧ (∀ n, frames (fs.take n) = encode (ms.take n)) ∧
      ∀ n wfx, heardAfter wfx (fs.take n) = (owed wfx (ms.take n)).map counted := by
  induction ms with
  | nil =>
    refine ⟨[],rfl,?_,?_⟩
    · intro n
      rw [List.take_nil,List.take_nil]
      rfl
    · intro n _
      rw [List.take_nil,List.take_nil]
      rfl
  | cons m ms ih =>
    obtain ⟨fs,hl,hf,hh⟩ := ih (fun m hm => hs m (List.mem_cons_of_mem _ hm))
    have hm : Sendable m := hs m List.mem_cons_self
    refine ⟨frameOf m hm :: fs,by simp [hl],?_,?_⟩
    · intro n
      cases n with
      | zero => rfl
      | succ n =>
        have hn := hf n
        simp only [frames,encode,List.take_succ_cons,List.flatMap_cons,encode_frameOf] at hn ⊢
        rw [hn]
    · intro n wfx
      cases n with
      | zero => rfl
      | succ n =>
        rw [List.take_succ_cons,List.take_succ_cons]
        cases m with
        | other c neither => exact hh n wfx
        | header w =>
          simp only [frameOf,heardAfter,Frame.heard,List.nil_append,Frame.format,owed]
          rw [Object.write_whole _ w.length_toBytes,WaveFormatEx.ofBytes_toBytes,hh]
        | data payload =>
          simp only [frameOf,heardAfter,Frame.heard,Frame.format,owed,List.map_cons,counted,hh,
            List.take_of_length_le hm,List.singleton_append]

theorem messages_frames {ms : List Message} (hs : ∀ m ∈ ms, Sendable m) :
    ∃ fs, frames fs = encode ms ∧ fs.length = ms.length ∧
      (∀ n, frames (fs.take n) = encode (ms.take n)) ∧
      ∀ n wfx, heardAfter wfx (fs.take n) = (owed wfx (ms.take n)).map counted := by
  obtain ⟨fs,hl,hf,hh⟩ := messages_frames_take hs
  refine ⟨fs,?_,hl,hf,hh⟩
  have hall := hf ms.length
  rwa [List.take_length,← hl,List.take_length] at hall

/-- Every call owed passes the length of its own payload. -/
theorem owed_length (hs : ∀ m ∈ ms, Sendable m) :
    ∀ wfx, ∀ o ∈ owed wfx ms, o.2.1.toNat = o.1.length := by
  induction ms with
  | nil => simp [owed]
  | cons m ms ih =>
    have hrest := ih (fun m hm => hs m (List.mem_cons_of_mem _ hm))
    intro wfx
    cases m with
    | other => exact hrest _
    | header => exact hrest _
    | data payload =>
      intro o ho
      rcases List.mem_cons.mp ho with rfl | ho
      · exact payload_length (hs _ List.mem_cons_self)
      · exact hrest _ o ho

/-- Calls that deliver what they claim are handed exactly what was heard. -/
theorem handed_of_heard {os : List (List UInt8 × UInt32 × WaveFormatEx)}
    {calls : List RenderCall} (hl : ∀ o ∈ os, o.2.1.toNat = o.1.length)
    (h : calls.map heard = os.map counted) : calls.map handed = os := by
  induction calls generalizing os with
  | nil =>
    cases os with
    | nil => rfl
    | cons => simp at h
  | cons call calls ih =>
    cases os with
    | nil => simp at h
    | cons o os =>
      simp only [List.map_cons,List.cons.injEq] at h ⊢
      obtain ⟨hc,hrest⟩ := h
      refine ⟨?_,ih (fun o ho => hl o (List.mem_cons_of_mem _ ho)) hrest⟩
      have hlen := hl o List.mem_cons_self
      simp only [heard,counted,Heard.mk.injEq] at hc
      obtain ⟨hp,hf,hn,hw⟩ := hc
      rw [handed,hn,hlen,← hf,hp,hw]

/-- Calls owed that do not all come back have a first that does not. -/
theorem first_trap (h : ∃ o ∈ owed wfx ms, Traps o.2.2) :
    ∃ before payload after o, ms = before ++ .data payload :: after ∧
      owed wfx (before ++ [.data payload]) = owed wfx before ++ [o] ∧
      (∀ o' ∈ owed wfx before, ¬ Traps o'.2.2) ∧ Traps o.2.2 := by
  induction ms generalizing wfx with
  | nil =>
    obtain ⟨o,ho,-⟩ := h
    cases ho
  | cons m ms ih =>
    cases m with
    | other c neither =>
      obtain ⟨before,payload,after,o,rfl,ho,hb,ht⟩ := ih h
      exact ⟨.other c neither :: before,payload,after,o,rfl,ho,hb,ht⟩
    | header w =>
      obtain ⟨before,payload,after,o,rfl,ho,hb,ht⟩ := ih h
      exact ⟨.header w :: before,payload,after,o,rfl,ho,hb,ht⟩
    | data bytes =>
      by_cases hw : Traps wfx
      · exact ⟨[],bytes,ms,_,rfl,rfl,nofun,hw⟩
      · obtain ⟨o,ho,ht⟩ := h
        rcases List.mem_cons.mp ho with rfl | ho
        · exact absurd ht hw
        · obtain ⟨before,payload,after,o,rfl,ho,hb,ht⟩ := ih ⟨o,ho,ht⟩
          refine ⟨.data bytes :: before,payload,after,o,rfl,?_,?_,ht⟩
          · simp only [List.cons_append,owed,ho]
          · intro o' ho'
            rcases List.mem_cons.mp ho' with rfl | ho'
            · exact hw
            · exact hb o' ho'

/-- The first messages owe the first calls. -/
theorem owed_take (wfx : WaveFormatEx) (ms : List Message) (n : Nat) :
    owed wfx (ms.take n) <+: owed wfx ms := by
  induction ms generalizing wfx n with
  | nil => cases n <;> exact List.prefix_refl _
  | cons m ms ih =>
    cases n with
    | zero => exact List.nil_prefix
    | succ n =>
      cases m with
      | other => exact ih wfx n
      | header w => exact ih w n
      | data payload => exact (List.prefix_cons_inj _).mpr (ih wfx n)

theorem owed_dropLast (ho : o ∈ owed wfx ms.dropLast) : o ∈ owed wfx ms := by
  rw [List.dropLast_eq_take] at ho
  exact (owed_take wfx ms _).subset ho

/-- The calls a list of frames stands for come back exactly if those owed do. -/
theorem returns_iff (hh : heardAfter wfx fs = (owed wfx ms).map counted) :
    Returns wfx fs ↔ ∀ o ∈ owed wfx ms, ¬ Traps o.2.2 := by
  unfold Returns
  rw [hh]
  exact List.forall_mem_map

theorem next_input (h : Receiver.next r v = some t) : t.input <:+ r.input := by
  obtain ⟨-,r',hr',rfl⟩ := next_some h
  simp only [Receiver.step,Option.ite_none_left_eq_some,Option.some.injEq] at hr'
  obtain ⟨-,rfl⟩ := hr'
  rw [settled_input]
  exact List.drop_suffix _ _

section Stream
variable {ms : List Message} {suffix : List UInt8} {junk : Task} {wfx : WaveFormatEx}

/-- The loop gets through messages whose calls come back, except perhaps that of the
last message. -/
theorem messages_run (junk : Task) (wfx : WaveFormatEx) (suffix : List UInt8)
    (hs : ∀ m ∈ ms, Sendable m)
    (hret : ∀ o ∈ owed (defaultWfx wfx) ms.dropLast, ¬ Traps o.2.2) :
    ∃ reads, ∀ vs : List Int, vs.length = reads →
      ∃ r, (receiver junk wfx (encode ms ++ suffix)).Run (fun _ _ => True) vs r ∧
        r.task.place = .command ∧ r.input = suffix ∧
        r.renders.map handed = owed (defaultWfx wfx) ms := by
  obtain ⟨fs,hf,hl,_,hh⟩ := messages_frames hs
  have hlast : Returns (defaultWfx wfx) fs.dropLast := by
    rw [List.dropLast_eq_take] at hret ⊢
    rwa [hl,returns_iff (hh _ _)]
  refine ⟨readsOf fs,?_⟩
  intro vs hv
  obtain ⟨r,he,hp,hi,_,hr⟩ := frames_run (receiver junk wfx (encode ms ++ suffix)) rfl fs vs
    (r := (receiver junk wfx (encode ms ++ suffix)).init) nofun hlast rfl (by rw [hf]; rfl) hv
  refine ⟨r,System.run_of_exec he,hp,hi,?_⟩
  have hheard : r.renders.map heard = (owed (defaultWfx wfx) ms).map counted := by
    have hall := hh ms.length (defaultWfx wfx)
    rw [List.take_length,← hl,List.take_length] at hall
    rw [hr,← hall]
    rfl
  exact handed_of_heard (owed_length hs _) hheard

/-- A task not stuck in its last call has had them all back. -/
theorem returned_of_reaches (h : (receiver junk wfx input).Reaches r) (hn : r.trapped = false) :
    Returned r := by
  obtain ⟨fs,ha⟩ := reaches_arrived h
  exact (returned_iff ha.renders).mpr (ha.returned hn)

theorem owed_format (h : r.renders.map handed = owed wfx ms) :
    Returned r ↔ ∀ o ∈ owed wfx ms, ¬ Traps o.2.2 := by
  unfold Returned
  rw [← h,List.forall_mem_map]
  rfl

/-- A task whose last call is the first not to come back stays there. -/
theorem trapped_of_owed {r : Receiver} {os : List (List UInt8 × UInt32 × WaveFormatEx)}
    (h : r.renders.map handed = os ++ [o])
    (hback : ∀ o ∈ os, ¬ Traps o.2.2) (htrap : Traps o.2.2) : r.trapped = true := by
  obtain ⟨calls,last,hr,hfront,hlast⟩ := List.map_eq_append_iff.mp h
  obtain ⟨call,rfl,rfl⟩ := List.map_eq_singleton_iff.mp hlast
  apply (trapped_snoc hr ?_).mpr htrap
  intro c hc
  exact hback (handed c) (hfront ▸ List.mem_map_of_mem hc)

/-- No run gets behind a state in which the task is stuck. -/
theorem stuck_input {M : System Receiver Int} (hM : M.step = Receiver.next)
    (ht : M.Run (fun _ _ => True) (List.replicate n 0) t) (hstuck : t.trapped = true)
    (hr : M.Run (fun _ _ => True) (List.replicate reads 0) r) : t.input <:+ r.input := by
  rcases Nat.lt_or_ge n reads with hlt | hle
  · -- one more read would have to return to the stuck task
    have hfront : List.replicate n (0 : Int) ++ [0] <+: List.replicate reads 0 := by
      have hreads : reads = n + 1 + (reads - (n + 1)) := by omega
      rw [← List.replicate_succ',hreads,List.replicate_add (n + 1)]
      exact List.prefix_append _ _
    obtain ⟨u,hu⟩ := hr.before hfront
    obtain ⟨t',ht',-,hstep⟩ := hu.last
    rw [← ht.unique ht',hM] at hstep
    simp [Receiver.next,hstuck] at hstep
  · rw [show n = reads + (n - reads) by omega,List.replicate_add] at ht
    apply (hr.rest ht).keeps (P := fun s u => u.input <:+ s.input) (List.suffix_refl _)
    intro u a v hu _ hv
    rw [hM] at hv
    exact (next_input hv).trans hu

theorem encode_pos (m : Message) : 0 < m.encode.length := by
  cases m <;> simp [Message.encode]

theorem encode_nil (h : encode ms = []) : ms = [] := by
  cases ms with
  | nil => rfl
  | cons m ms =>
    have hpos := encode_pos m
    rw [encode,List.flatMap_cons,List.append_eq_nil_iff] at h
    rw [h.1] at hpos
    exact absurd hpos (Nat.lt_irrefl 0)

/-- The task never gets behind a message whose call does not come back. -/
theorem stuck_before (hs : ∀ m ∈ ms, Sendable m)
    (ht : ∃ o ∈ owed (defaultWfx wfx) ms.dropLast, Traps o.2.2)
    (hr : (receiver junk wfx (encode ms ++ suffix)).Run (fun _ _ => True)
      (List.replicate reads 0) r) : r.input ≠ suffix := by
  obtain ⟨before,payload,after,o,hms,ho,hback,htrap⟩ := first_trap ht
  obtain ⟨last,rfl⟩ : ∃ last, ms = (before ++ [.data payload]) ++ (after ++ [last]) := by
    rcases List.eq_nil_or_concat ms with rfl | ⟨front,last,rfl⟩
    · cases before <;> cases hms
    · rw [List.concat_eq_append,List.dropLast_concat] at hms
      exact ⟨last,by simp [hms]⟩
  obtain ⟨n,hrun⟩ := messages_run junk wfx (encode (after ++ [last]) ++ suffix)
    (fun m hm => hs m (List.mem_append_left _ hm)) (by rwa [List.dropLast_concat])
  obtain ⟨t,ht,-,hin,hcalls⟩ := hrun (List.replicate n 0) List.length_replicate
  rw [ho] at hcalls
  have hinput : encode ((before ++ [.data payload]) ++ (after ++ [last])) ++ suffix =
      encode (before ++ [.data payload]) ++ (encode (after ++ [last]) ++ suffix) := by
    simp [encode]
  rw [hinput] at hr
  have hstuck : t.trapped = true := trapped_of_owed hcalls hback htrap
  have hle := (stuck_input rfl ht hstuck hr).length_le
  have hpos := encode_pos last
  intro he
  rw [hin,he] at hle
  simp [encode] at hle
  omega

/-- Sender and receiver agree. A callback lays its block out as one data message
of `4 * framesPerBuffer` bytes. Over the encoding of any messages that fit, whatever
its reads return, the loop makes exactly the calls owed, under the last header or
the built-in format, and reads up to the first byte behind them, exactly if every
call but that of the last message comes back; and it is then at its head again
exactly if that one does too. -/
theorem sender_receiver_agree (ms : List Message) (hs : ∀ m ∈ ms, Sendable m)
    (suffix : List UInt8) (junk : Task) (wfx : WaveFormatEx) :
    (∀ (u : Sender.UserData) (b : Sender.Block), 8 ≤ u.audioData.length →
      let sent := (Sender.recordCallback u b).1
      sent.audioData.take sent.sizeBuffer = (Message.data b.inputBuffer).encode ∧
        b.inputBuffer.length = 4 * b.framesPerBuffer.toNat) ∧
    let builtIn : WaveFormatEx :=
      { wfx with nChannels := 2, wBitsPerSample := 16, nSamplesPerSec := 48000 }
    ((∃ reads, ∀ vs : List Int, vs.length = reads →
      ∃ r, (receiver junk wfx (encode ms ++ suffix)).Run (fun _ _ => True) vs r ∧
        r.input = suffix ∧ r.renders.map handed = owed builtIn ms) ↔
      ∀ o ∈ owed builtIn ms.dropLast, ¬ Traps o.2.2) ∧
    ((∃ reads, ∀ vs : List Int, vs.length = reads →
      ∃ r, (receiver junk wfx (encode ms ++ suffix)).Run (fun _ _ => True) vs r ∧
        r.task.place = .command ∧ r.trapped = false ∧
        r.input = suffix ∧ r.renders.map handed = owed builtIn ms) ↔
      ∀ o ∈ owed builtIn ms, ¬ Traps o.2.2) := by
  refine ⟨?_,⟨?_,?_⟩,⟨?_,?_⟩⟩
  · intro u b hu
    refine ⟨(SenderAccount.recordCallback_frame b hu).1,?_⟩
    rw [b.frames,Nat.mul_comm]
  · rintro ⟨reads,h⟩ o ho htrap
    obtain ⟨r,hr,hi,-⟩ := h (List.replicate reads 0) List.length_replicate
    exact stuck_before hs ⟨o,ho,htrap⟩ hr hi
  · intro hret
    obtain ⟨reads,hrun⟩ := messages_run junk wfx suffix hs hret
    refine ⟨reads,?_⟩
    intro vs hv
    obtain ⟨r,hr,-,hi,hcalls⟩ := hrun vs hv
    exact ⟨r,hr,hi,hcalls⟩
  · rintro ⟨reads,h⟩
    obtain ⟨r,hr,-,hn,-,hcalls⟩ := h (List.replicate reads 0) List.length_replicate
    exact (owed_format hcalls).mp (returned_of_reaches hr.reaches hn)
  · intro hret
    obtain ⟨reads,hrun⟩ := messages_run junk wfx suffix hs
      (fun o ho => hret o (owed_dropLast ho))
    refine ⟨reads,?_⟩
    intro vs hv
    obtain ⟨r,hr,hp,hi,hcalls⟩ := hrun vs hv
    exact ⟨r,hr,hp,((owed_format hcalls).mpr hret).not_trapped,hi,hcalls⟩

end Stream

/-- A header for 16 bits and no channel, and two frames of sound. -/
def mutedTalk : List Message :=
  [.header ⟨1,0,48000,0,0,16,0,0⟩,.data [1,2,3,4],.data [5,6,7,8]]

theorem mutedTalk_sendable : ∀ m ∈ mutedTalk, Sendable m := by
  intro m hm
  simp only [mutedTalk,List.mem_cons,List.not_mem_nil,or_false] at hm
  rcases hm with rfl | rfl | rfl
  · trivial
  · exact (by decide : 4 ≤ sizeofBuffer)
  · exact (by decide : 4 ≤ sizeofBuffer)

/-- The first call divides by the channel count and never comes back, so the loop
does not get to the second frame. -/
theorem mutedTalk_cut_short :
    (∀ m ∈ mutedTalk, Sendable m) ∧
    ¬ ∃ reads, ∀ vs : List Int, vs.length = reads →
      ∃ r, (receiver zeroStack bootWfx (encode mutedTalk ++ [9])).Run (fun _ _ => True) vs r ∧
        r.input = [9] ∧ r.renders.map handed = owed ⟨0,2,48000,0,0,16,0,0⟩ mutedTalk := by
  refine ⟨mutedTalk_sendable,?_⟩
  rintro ⟨reads,h⟩
  obtain ⟨r,hr,hi,-⟩ := h (List.replicate reads 0) List.length_replicate
  exact stuck_before mutedTalk_sendable (by decide) hr hi

/-- A frame of sound before any header, an acknowledgement, a header for 22050 Hz and
another frame. -/
def shortTalk : List Message :=
  [.data [1,2,3,4],.other TcpCommand.sendAck.code (by decide),.header ⟨1,2,22050,88200,4,16,0,0⟩,
    .data [5,6,7,8]]

theorem sender_receiver_agree_shortTalk :
    (∀ m ∈ shortTalk, Sendable m) ∧
    (∀ o ∈ owed ⟨0,2,48000,0,0,16,0,0⟩ shortTalk, ¬ Traps o.2.2) ∧
    ∃ reads, ∀ vs : List Int, vs.length = reads →
      ∃ r, (receiver zeroStack bootWfx (encode shortTalk ++ [9])).Run (fun _ _ => True) vs r ∧
        r.task.place = .command ∧ r.trapped = false ∧ r.input = [9] ∧
        r.renders.map handed = [([1,2,3,4],4,⟨0,2,48000,0,0,16,0,0⟩),
          ([5,6,7,8],4,⟨1,2,22050,88200,4,16,0,0⟩)] := by
  have hs : ∀ m ∈ shortTalk, Sendable m := by
    intro m hm
    simp only [shortTalk,List.mem_cons,List.not_mem_nil,or_false] at hm
    rcases hm with rfl | rfl | rfl | rfl
    · exact (by decide : 4 ≤ sizeofBuffer)
    · trivial
    · trivial
    · exact (by decide : 4 ≤ sizeofBuffer)
  have hret : ∀ o ∈ owed ⟨0,2,48000,0,0,16,0,0⟩ shortTalk, ¬ Traps o.2.2 := by decide
  exact ⟨hs,hret,(sender_receiver_agree shortTalk hs [9] zeroStack bootWfx).2.2.mpr hret⟩

end WifiSpeaker.Proofs.WireAgreement
