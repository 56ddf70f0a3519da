import WifiSpeaker.Capture
import WifiSpeaker.Proofs.BlockAdaption
import WifiSpeaker.Proofs.SpeakerProgress

namespace WifiSpeaker.Proofs.CaptureStream
open Common Wire Capture
open BufferProcessor (Converter HostBuffer)
open BlockAdaption (Adapted)

section
variable {α δ : Type} {conv : Converter α UInt16 δ} {s t : State conv} {a : Act conv}
  {acts : List (Act conv)} {temp : (stream conv).TempBuffer} {dither : δ}
  {heap : Sender.Heap} {sizeBuffer : Nat}

/-- A turn hands at most one buffer to the callback. -/
theorem turn_calls {c : BufferProcessor.Config α UInt16 δ} (p : BufferProcessor.State c)
    (host : HostBuffer c) (rest : List (HostBuffer c)) (ret : BufferProcessor.CallbackResult) :
    (p.turn host rest ret).calls = p.calls ∨
      ∃ b, (p.turn host rest ret).calls = p.calls ++ [b] := by
  have hframe := (BlockAdaption.convertChannels_frame p host (p.frameCount host)
    (List.finRange c.inputChannelCount)).2.2.1
  dsimp only [BufferProcessor.State.turn,BufferProcessor.State.finish]
  split_ifs
  · exact .inr ⟨_,by rw [hframe]⟩
  · exact .inl hframe
  · exact .inl hframe

theorem callback_captured {u v : Sender.State} (h : Sender.step u (.callback b) = some v) :
    v.captured = u.captured ++ [b] ∧ v.uData = (Sender.recordCallback u.uData b).1 := by
  simp only [Sender.step,Option.some.injEq] at h
  rw [← h]
  exact ⟨rfl,rfl⟩

/-- The sending thread captures nothing and stores nothing in the buffer. -/
theorem thread_captured {u v : Sender.State} {act : Sender.Act} (hb : ∀ b, act ≠ .callback b)
    (h : Sender.step u act = some v) :
    v.captured = u.captured ∧ v.uData.audioData = u.uData.audioData := by
  cases act with
  | callback b => exact absurd rfl (hb b)
  | poll =>
    simp only [Sender.step,Option.ite_none_right_eq_some,Option.some.injEq] at h
    rw [← h.2]
    exact ⟨rfl,rfl⟩
  | send =>
    simp only [Sender.step,Option.ite_none_right_eq_some,Option.some.injEq] at h
    rw [← h.2]
    exact ⟨rfl,rfl⟩
  | clear =>
    simp only [Sender.step,Option.ite_none_right_eq_some,Option.some.injEq] at h
    rw [← h.2]
    exact ⟨rfl,rfl⟩

/-- The bytes `main` has allocated for `audio_data`. -/
def sizeofAudioData : Nat := 1024 * 2 * 2 + 4 + sizeofWaveFormatEx

/-- The three copies of a user buffer stay inside of them. -/
theorem recordCallback_inside (u : Sender.UserData) (b : (stream conv).TempBuffer)
    (h : u.audioData.length = sizeofAudioData) :
    (Sender.recordCallback u (block b)).1.audioData.length = sizeofAudioData := by
  change u.audioData.length = 4120 at h
  have hbytes : ((block b).inputBuffer.take 4096).length = 4096 := by
    rw [List.length_take,block,length_buffer]
    rfl
  have hone : (memcpy u.audioData 0 (le32 TcpCommand.sendData.code)).length = 4120 := by
    rw [length_memcpy (by rw [h]; exact (by decide : 0 + 4 ≤ 4120)),h]
  have htwo : (memcpy (memcpy u.audioData 0 (le32 TcpCommand.sendData.code)) 4
      (le32 4096)).length = 4120 := by
    rw [length_memcpy (by rw [hone]; exact (by decide : 4 + 4 ≤ 4120)),hone]
  have hlength : (block b).framesPerBuffer * 4 = 4096 := rfl
  have hnat : (4096 : UInt32).toNat = 4096 := rfl
  simp only [Sender.recordCallback,hlength,hnat]
  rw [length_memcpy (by rw [htwo,hbytes]; decide),htwo]
  rfl

/-- The two halves, and what passes between them. -/
structure Joined (heap : Sender.Heap) (sizeBuffer : Nat) (s : State conv) : Prop where
  adapted : Adapted s.bp
  sender : (Sender.system heap sizeBuffer).Reaches s.sender
  captured : s.sender.captured = s.bp.calls.map block
  inside : s.sender.uData.audioData.length = sizeofAudioData

theorem Joined.reaches {u : Sender.State} {act : Sender.Act} (h : Joined heap sizeBuffer s)
    (hu : Sender.step s.sender act = some u) : (Sender.system heap sizeBuffer).Reaches u :=
  h.sender.step hu

theorem Joined.thread {u : Sender.State} {act : Sender.Act} (h : Joined heap sizeBuffer s)
    (hb : ∀ b, act ≠ .callback b) (hu : Sender.step s.sender act = some u) :
    Joined heap sizeBuffer { s with sender := u } :=
  ⟨h.adapted,h.reaches hu,(thread_captured hb hu).1.trans h.captured,
    (congrArg List.length (thread_captured hb hu).2).trans h.inside⟩

theorem Joined.turn (h : Joined heap sizeBuffer s) (ht : step s .turn = some t) :
    Joined heap sizeBuffer t := by
  obtain ⟨bp,hbp,ht⟩ := Option.bind_eq_some_iff.mp ht
  have hgo : BlockAdaption.Continues (c := stream conv) (.turn .paContinue) := rfl
  have hadapted : Adapted bp := BlockAdaption.step_adapted h.adapted hgo hbp
  have hcalls : bp.calls = s.bp.calls ∨ ∃ b, bp.calls = s.bp.calls ++ [b] := by
    simp only [BufferProcessor.step] at hbp
    split at hbp
    · cases hbp
    · cases hbp
      exact turn_calls s.bp _ _ _
  rcases hcalls with hsame | ⟨b,hmore⟩
  · rw [hsame,List.drop_length] at ht
    cases ht
    exact ⟨hadapted,h.sender,by rw [h.captured,hsame],h.inside⟩
  · rw [hmore,List.drop_left] at ht
    obtain ⟨u,hu,ht⟩ := Option.bind_eq_some_iff.mp ht
    cases ht
    obtain ⟨hcaptured,hbuffer⟩ := callback_captured hu
    refine ⟨hadapted,h.reaches hu,?_,?_⟩
    · rw [hcaptured,h.captured,hmore,List.map_append]
      rfl
    · change u.uData.audioData.length = _
      rw [hbuffer]
      exact recordCallback_inside _ b h.inside

theorem step_joined (h : Joined heap sizeBuffer s) (ht : step s a = some t) :
    Joined heap sizeBuffer t := by
  cases a with
  | process first second =>
    obtain ⟨bp,hbp,ht⟩ := Option.bind_eq_some_iff.mp ht
    cases ht
    have hgo : BlockAdaption.Continues (.process first second) := trivial
    refine ⟨BlockAdaption.step_adapted h.adapted hgo hbp,h.sender,?_,h.inside⟩
    simp only [BufferProcessor.step,Option.ite_none_right_eq_some,Option.some.injEq] at hbp
    obtain ⟨_,rfl⟩ := hbp
    exact h.captured
  | turn => exact h.turn ht
  | poll =>
    obtain ⟨u,hu,ht⟩ := Option.bind_eq_some_iff.mp ht
    cases ht
    exact h.thread (by intro b hb; cases hb) hu
  | send =>
    obtain ⟨u,hu,ht⟩ := Option.bind_eq_some_iff.mp ht
    cases ht
    exact h.thread (by intro b hb; cases hb) hu
  | clear =>
    obtain ⟨u,hu,ht⟩ := Option.bind_eq_some_iff.mp ht
    cases ht
    exact h.thread (by intro b hb; cases hb) hu

theorem reaches_joined (h : (system conv temp dither heap sizeBuffer).Reaches s) :
    Joined heap sizeBuffer s := by
  refine h.invariant ?_ (fun _ _ _ hs ht => step_joined hs ht)
  exact ⟨BlockAdaption.init_adapted,System.Reaches.init _,rfl,heap.size⟩

theorem Joined.sent (h : Joined heap sizeBuffer s) :
    ∃ sent : List (stream conv).TempBuffer, sent.Sublist s.bp.calls ∧
      s.sender.wire = sent.map (fun b => (Message.data (bytes b.items)).encode) := by
  obtain ⟨blocks,hsub,hwire⟩ := (SenderAccount.reaches_accounted h.sender).sent
  rw [h.captured] at hsub
  obtain ⟨sent,hsent,rfl⟩ := List.sublist_map_iff.mp hsub
  refine ⟨sent,hsent,?_⟩
  rw [hwire,List.map_map]
  rfl

/-- From the host to the wire: under every order of host buffers, turns and steps of
the sending thread, what is sent are data messages of user buffers, each at most once
and in order, where the `k`-th user buffer holds the frames from `1024 * k` on; every
user buffer is sent, was reported, or waits; no copy goes behind the buffer `main` has
allocated. -/
theorem capture_sends (h : (system conv temp dither heap sizeBuffer).Reaches s) :
    (∃ sent : List (stream conv).TempBuffer, sent.Sublist s.bp.calls ∧
      s.sender.wire = sent.map (fun b => (Message.data (bytes b.items)).encode)) ∧
    s.bp.calls.length = s.sender.wire.length + s.sender.reports +
      (if s.sender.uData.dataState = 1 ∧ s.sender.thread ≠ .clear then 1 else 0) ∧
    (∀ (k : Nat) buffer, s.bp.calls[k]? = some buffer → ∀ (i : Fin 2) (f : Nat), f < 1024 →
      buffer.items[f * 2 + i]? = (s.bp.converted i)[k * 1024 + f]?) ∧
    (∀ i : Fin 2, List.Forall₂ conv.rel (s.bp.taken i) (s.bp.converted i) ∧
      s.bp.supplied i = s.bp.taken i ++ s.bp.todo.flatMap (fun host => host.channel i)) ∧
    s.sender.uData.audioData.length = sizeofAudioData := by
  have hj := reaches_joined h
  have ha := hj.adapted
  refine ⟨hj.sent,?_,ha.calls,fun i => ⟨ha.level.related i,ha.supplied i⟩,hj.inside⟩
  have htotal := (SenderAccount.reaches_accounted hj.sender).total
  rw [hj.captured,List.length_map] at htotal
  exact htotal

/-- What an action brings from the host. -/
def given (i : Fin 2) : Act conv → List α
  | .process first second =>
    (first :: second.toList.filter (fun h => h.frameCount > 0)).flatMap (fun h => h.channel i)
  | _ => []

theorem step_supplied (i : Fin 2) (ht : step s a = some t) :
    t.bp.supplied i = s.bp.supplied i ++ given i a := by
  cases a with
  | process first second =>
    obtain ⟨bp,hbp,ht⟩ := Option.bind_eq_some_iff.mp ht
    cases ht
    simp only [BufferProcessor.step,Option.ite_none_right_eq_some,Option.some.injEq] at hbp
    obtain ⟨_,rfl⟩ := hbp
    rfl
  | turn =>
    obtain ⟨bp,hbp,ht⟩ := Option.bind_eq_some_iff.mp ht
    have hsame : bp.supplied = s.bp.supplied := by
      simp only [BufferProcessor.step] at hbp
      split at hbp
      · cases hbp
      · cases hbp
        exact BlockAdaption.turn_supplied s.bp _ _ _
    split at ht
    · cases ht
      exact (congrFun hsame i).trans (List.append_nil _).symm
    · obtain ⟨u,_,ht⟩ := Option.bind_eq_some_iff.mp ht
      cases ht
      exact (congrFun hsame i).trans (List.append_nil _).symm
  | poll =>
    obtain ⟨u,_,ht⟩ := Option.bind_eq_some_iff.mp ht
    cases ht
    exact (List.append_nil _).symm
  | send =>
    obtain ⟨u,_,ht⟩ := Option.bind_eq_some_iff.mp ht
    cases ht
    exact (List.append_nil _).symm
  | clear =>
    obtain ⟨u,_,ht⟩ := Option.bind_eq_some_iff.mp ht
    cases ht
    exact (List.append_nil _).symm

/-- The stream is what the host has given. -/
theorem run_supplied (i : Fin 2) (h : (system conv temp dither heap sizeBuffer).Run ok acts s) :
    s.bp.supplied i = acts.flatMap (given i) := by
  refine h.history (P := fun acts s => s.bp.supplied i = acts.flatMap (given i)) rfl ?_
  intro acts s a t hs _ ht
  rw [step_supplied i ht,hs,List.flatMap_append,List.flatMap_singleton]

/-- Stereo samples as the DAC takes them: the right one below the left one, both moved
to the unsigned range. -/
def dacSamples : List UInt16 → List UInt16
  | l :: r :: rest => (r + 0x8000) :: (l + 0x8000) :: dacSamples rest
  | _ => []

theorem le16_shifted (w : UInt16) : ∃ low high, le16 w = [low,high] ∧
    le16 (w + 0x8000) = [low,high + 0x80] := by
  refine ⟨UInt8.ofNat w.toNat,UInt8.ofNat (w.toNat / 256),rfl,?_⟩
  have hw := w.toNat_lt
  have h8000 : (0x8000 : UInt16).toNat = 32768 := rfl
  have hsum : (w + 0x8000).toNat = (w.toNat + 32768) % 2 ^ 16 := by
    rw [UInt16.toNat_add,h8000]
  simp only [le16,leBytes,hsum,List.cons.injEq,and_true]
  constructor
  · apply UInt8.toNat_inj.mp
    simp only [UInt8.toNat_ofNat']
    omega
  · apply UInt8.toNat_inj.mp
    have h80 : (0x80 : UInt8).toNat = 128 := rfl
    rw [UInt8.toNat_add,h80]
    simp only [UInt8.toNat_ofNat']
    omega

/-- What the speaker does to the bytes is what the DAC wants of the samples. -/
theorem dacBytes_bytes (samples : List UInt16) :
    SpeakerSound.dacBytes (bytes samples) = bytes (dacSamples samples) := by
  fun_induction dacSamples samples with
  | case1 l r rest ih =>
    obtain ⟨l₀,l₁,hl,hl'⟩ := le16_shifted l
    obtain ⟨r₀,r₁,hr,hr'⟩ := le16_shifted r
    simp only [bytes,List.flatMap_cons,hl,hl',hr,hr',List.cons_append,List.nil_append,
      SpeakerSound.dacBytes] at ih ⊢
    rw [ih]
  | case2 samples h =>
    cases samples with
    | nil => rfl
    | cons l samples =>
      cases samples with
      | nil => rfl
      | cons r rest => exact (h l r rest rfl).elim

theorem owed_data (wfx : WaveFormatEx) (payloads : List (List UInt8)) :
    WireAgreement.owed wfx (payloads.map .data) =
      payloads.map (fun p => (p,UInt32.ofNat p.length,wfx)) := by
  induction payloads with
  | nil => rfl
  | cons p payloads ih => rw [List.map_cons,WireAgreement.owed,ih,List.map_cons]

/-- The messages that carry user buffers. -/
def messages (sent : List (stream conv).TempBuffer) : List Message :=
  (sent.map (fun b => bytes b.items)).map .data

theorem encode_messages (sent : List (stream conv).TempBuffer) : encode (messages sent) =
    (sent.map (fun b => (Message.data (bytes b.items)).encode)).flatten := by
  rw [messages,encode,List.map_map,List.flatMap_map,List.flatten_eq_flatMap,List.flatMap_map]
  rfl

theorem messages_sendable (sent : List (stream conv).TempBuffer) :
    ∀ m ∈ messages sent, WireAgreement.Sendable m := by
  intro m hm
  obtain ⟨p,hp,rfl⟩ := List.mem_map.mp hm
  obtain ⟨b,_,rfl⟩ := List.mem_map.mp hp
  change (bytes b.items).length ≤ PrcessCharacter.sizeofBuffer
  rw [length_buffer]
  decide

/-- The sender sends no header, and the format the receiver begins with is the one of
the stream. -/
theorem messages_stereo (wfx : WaveFormatEx) (sent : List (stream conv).TempBuffer) :
    SpeakerSound.Stereo (PrcessCharacter.defaultWfx wfx) (messages sent) := by
  intro o ho
  rw [messages,owed_data] at ho
  obtain ⟨p,_,rfl⟩ := List.mem_map.mp ho
  exact ⟨rfl,rfl⟩

/-- What the DAC is to put out of user buffers. -/
def audio (sent : List (stream conv).TempBuffer) : List UInt8 :=
  sent.flatMap (fun b => bytes (dacSamples b.items))

theorem messages_sound (wfx : WaveFormatEx) (sent : List (stream conv).TempBuffer) :
    (WireAgreement.owed wfx (messages sent)).flatMap (fun o => SpeakerSound.dacBytes o.1) =
      audio sent := by
  rw [messages,owed_data,List.map_map,List.flatMap_map,audio]
  simp only [Function.comp,dacBytes_bytes]

/-- The bytes of a user buffer on the wire, behind its command and its length. -/
def messageSize : Nat := 4 + 4 + 4096

theorem length_messages (sent : List (stream conv).TempBuffer) :
    (encode (messages sent)).length = sent.length * messageSize := by
  rw [encode_messages,List.length_flatten,List.map_map]
  have hsize : List.map (List.length ∘ fun b => (Message.data (bytes b.items)).encode) sent =
      List.replicate sent.length messageSize := by
    rw [List.eq_replicate_iff,List.length_map]
    refine ⟨rfl,?_⟩
    intro n hn
    obtain ⟨b,_,rfl⟩ := List.mem_map.mp hn
    simp [Message.encode,length_buffer,messageSize]
  rw [hsize,List.sum_replicate_nat]

theorem messages_take (sent : List (stream conv).TempBuffer) (n : Nat) :
    (messages sent).take n = messages (sent.take n) := by
  rw [messages,messages,List.map_take,List.map_take]

theorem owed_last (wfx : WaveFormatEx) (sent : List (stream conv).TempBuffer) :
    (WireAgreement.owed wfx (messages sent)).dropLast =
      WireAgreement.owed wfx (messages (sent.take (sent.length - 1))) := by
  rw [← List.dropLast_eq_take,messages,messages,owed_data,owed_data,List.map_dropLast,
    List.map_dropLast]

theorem length_audio (sent : List (stream conv).TempBuffer) :
    (audio sent).length = sent.length * 4096 := by
  rw [audio,List.length_flatMap]
  have hsize : List.map (fun b => (bytes (dacSamples b.items)).length) sent =
      List.replicate sent.length 4096 := by
    rw [List.eq_replicate_iff,List.length_map]
    refine ⟨rfl,?_⟩
    intro n hn
    obtain ⟨b,_,rfl⟩ := List.mem_map.mp hn
    rw [← dacBytes_bytes,SpeakerSound.length_dacBytes,length_buffer]
  rw [hsize,List.sum_replicate_nat]

/-- User buffers on their way out: the port puts them out in order, each at most once, and
of those that the first bytes read hold whole none is missing but the last while its call
is under way. -/
structure Delivers (p : I2s.State Speaker.dac) (resting : Prop) (read : Nat)
    (sent : List (stream conv).TempBuffer) : Prop where
  plays : SpeakerSound.PlaysOut p (audio sent)
  rest : resting → p.pushed = audio (sent.take (read / messageSize))
  under : audio (sent.take (read / messageSize - 1)) <+: p.pushed

theorem messages_delivered {sent : List (stream conv).TempBuffer} {u : Speaker.State}
    {read : Nat}
    (hw : SpeakerSound.Whole wfx beyond (messages sent) u)
    (hread : read + u.receiver.input.length = sent.length * messageSize) :
    Delivers u.port (u.renderer.call = none) read sent := by
  have hsend := messages_sendable sent
  obtain ⟨n,hn,hrest,hunder,hi⟩ := hw.behind hsend
  rw [messages_take,messages_sound] at hrest
  rw [messages_take,owed_last,messages_sound] at hunder
  have hlen : n ≤ sent.length := by
    rwa [messages,List.length_map,List.length_map] at hn
  have hcount : read / messageSize = n := by
    have htotal := congrArg List.length hi
    rw [List.length_append,List.length_append,messages_take,length_messages,length_messages,
      List.length_take,Nat.min_eq_left hlen] at htotal
    have hopen := SpeakerSound.length_opened u.receiver.task
    exact Nat.div_eq_of_lt_le (by omega) (by unfold messageSize at *; omega)
  have hplays := hw.plays hsend
  rw [messages_sound] at hplays
  refine ⟨hplays,?_,?_⟩
  · rw [hcount]
    exact hrest
  · rw [hcount]
    rwa [List.take_take,List.length_take,Nat.min_eq_left hlen,
      Nat.min_eq_left (Nat.sub_le n 1)] at hunder

/-- User buffers can be played at the rate of the stream. -/
theorem messages_playable (wfx : WaveFormatEx) (sent : List (stream conv).TempBuffer) :
    SpeakerProgress.Playable (PrcessCharacter.defaultWfx wfx) (messages sent) 48000 := by
  refine ⟨messages_sendable sent,messages_stereo wfx sent,?_,⟨_,rfl⟩⟩
  intro o ho
  rw [messages,owed_data] at ho
  obtain ⟨p,_,rfl⟩ := List.mem_map.mp ho
  rfl

/-- From the host to the DAC: whatever the two sides do, a speaker that reads the bytes on
the wire and is in time puts out the user buffers sent, each at most once and in order, and
those it has read whole without a gap; it can always go on in time until it has put out all
of them, unless the DMA is in the buffer it has begun. -/
theorem host_to_dac (h : (system conv temp dither heap sizeBuffer).Reaches s)
    (hr : (Speaker.speaker junk wfx beyond sampleRate s.sender.wire.flatten).Run
      SpeakerSound.InTime moves u) :
    ∃ sent : List (stream conv).TempBuffer, sent.Sublist s.bp.calls ∧
      s.sender.wire = sent.map (fun b => (Message.data (bytes b.items)).encode) ∧
      Delivers u.port (u.renderer.call = none)
        (s.sender.wire.flatten.length - u.receiver.input.length) sent ∧
      ((∃ more v, (Speaker.speaker junk wfx beyond sampleRate s.sender.wire.flatten).Run
          SpeakerSound.InTime (moves ++ more) v ∧
        SpeakerProgress.PlayedOut v.port (audio sent)) ↔ I2sOrder.Apart u.port) := by
  obtain ⟨sent,hsub,hwire⟩ := (reaches_joined h).sent
  refine ⟨sent,hsub,hwire,?_⟩
  rw [hwire,← encode_messages] at hr ⊢
  have hplayable := messages_playable wfx sent
  have hwhole := SpeakerSound.run_whole hplayable.sendable hplayable.stereo hr
  constructor
  · apply messages_delivered hwhole
    rw [Nat.sub_add_cancel (hwhole.unread_le hplayable.sendable),length_messages]
  · have haudio : SpeakerProgress.audio (PrcessCharacter.defaultWfx wfx) (messages sent) =
        audio sent := messages_sound _ sent
    rw [← haudio]
    apply SpeakerProgress.rest_played_iff hplayable _ hr
    rw [haudio,length_audio]
    exact Nat.dvd_mul_left_of_dvd (by decide) _

end

/-- Samples that need no conversion. -/
def plain : Converter UInt16 UInt16 Unit :=
  ⟨fun xs d => (xs,d),Eq,fun _ _ => List.forall₂_same.mpr (fun _ _ => rfl)⟩

def blank : (stream plain).TempBuffer := ⟨List.replicate 2048 0,List.length_replicate⟩

/-- The sample of each channel of the tone. -/
def pitch (i : Fin 2) : UInt16 := if i.val = 0 then 1 else 2

/-- A host buffer of the given number of frames. -/
def tone (n : Nat) : HostBuffer (stream plain) :=
  ⟨fun i => List.replicate n (pitch i),n,fun _ => List.length_replicate⟩

/-- The host gives the tone or nothing. -/
def Tones : Act plain → Prop
  | .process first second => ∃ n, first = tone n ∧ second = none
  | _ => True

theorem given_tones (i : Fin 2) (ha : Tones a) (hx : x ∈ given i a) : x = pitch i := by
  cases a with
  | process first second =>
    obtain ⟨n,rfl,rfl⟩ := ha
    rw [given,Option.toList_none,List.filter_nil,List.flatMap_singleton] at hx
    exact List.eq_of_mem_replicate hx
  | turn => cases hx
  | poll => cases hx
  | send => cases hx
  | clear => cases hx

/-- Frames of the tone, interleaved. -/
def toned (n : Nat) : List UInt16 := (List.replicate n [1,2]).flatten

theorem toned_succ (n : Nat) : toned (n + 1) = 1 :: 2 :: toned n := rfl

theorem interleaved (n : Nat) (items : List UInt16) (hlen : items.length = n * 2)
    (h : ∀ f < n, items[f * 2]? = some 1 ∧ items[f * 2 + 1]? = some 2) : items = toned n := by
  induction n generalizing items with
  | zero => exact List.length_eq_zero_iff.mp (by rw [hlen,Nat.zero_mul])
  | succ n ih =>
    obtain ⟨hl,hr⟩ := h 0 (Nat.succ_pos n)
    match items, hl, hr with
    | l :: r :: rest, hl, hr =>
      cases Option.some.inj hl
      cases Option.some.inj hr
      rw [toned_succ,← ih rest]
      · simp only [List.length_cons] at hlen
        omega
      · intro f hf
        have := h (f + 1) (Nat.succ_lt_succ hf)
        rwa [Nat.succ_mul,List.getElem?_cons_succ,List.getElem?_cons_succ] at this

/-- When the host has given nothing but the tone, every user buffer is one. -/
theorem calls_toned (h : (system plain blank () SenderAccount.zeroHeap 0).Run ok acts s)
    (hacts : ∀ a ∈ acts, Tones a) : ∀ b ∈ s.bp.calls, b.items = toned 1024 := by
  intro b hb
  have ha := (reaches_joined h.reaches).adapted
  obtain ⟨k,hk⟩ := List.mem_iff_getElem?.mp hb
  have hsample : ∀ (i : Fin 2) (f : Nat), f < 1024 → b.items[f * 2 + i]? = some (pitch i) := by
    intro i f hf
    have hlen : (s.bp.converted i).length =
        s.bp.calls.length * 1024 + s.bp.framesInTempInputBuffer := ha.level.length i
    have hlt : k * 1024 + f < (s.bp.converted i).length := by
      have hkl := (List.getElem?_eq_some_iff.mp hk).1
      omega
    have htaken : s.bp.taken i = s.bp.converted i :=
      List.forall₂_eq_eq_eq ▸ ha.level.related i
    have hgiven : (s.bp.converted i)[k * 1024 + f] ∈ acts.flatMap (given i) := by
      rw [← run_supplied i h,ha.supplied i,htaken]
      exact List.mem_append_left _ (List.getElem_mem hlt)
    have hitem : b.items[f * 2 + i]? = (s.bp.converted i)[k * 1024 + f]? := ha.calls k b hk i f hf
    obtain ⟨a,ham,hx⟩ := List.mem_flatMap.mp hgiven
    rw [hitem,List.getElem?_eq_getElem hlt,given_tones i (hacts a ham) hx]
  exact interleaved 1024 b.items b.size (fun f hf => ⟨hsample 0 f hf,hsample 1 f hf⟩)

/-- What a frame of the tone is for the DAC. -/
def toneFrame : List UInt8 := [2,0x80,1,0x80]

theorem dac_toned (n : Nat) :
    bytes (dacSamples (toned n)) = (List.replicate n toneFrame).flatten := by
  induction n with
  | zero => rfl
  | succ n ih =>
    rw [toned_succ,List.replicate_succ,List.flatten_cons,← ih]
    rfl

/-- 64 frames fill a buffer of the port. -/
def toneBlock : List UInt8 := (List.replicate 64 toneFrame).flatten

theorem length_toneBlock : toneBlock.length = 256 := by
  rw [toneBlock,List.length_flatten,List.map_replicate,List.sum_replicate_nat]
  rfl

/-- The block the DMA fetches first of user buffers of the tone. -/
theorem audio_toned {sent calls : List (stream plain).TempBuffer} (hsub : sent.Sublist calls)
    (hcalls : ∀ b ∈ calls, b.items = toned 1024) (hne : sent ≠ []) :
    (audio sent).take 256 = toneBlock := by
  obtain ⟨b,rest,rfl⟩ := List.exists_cons_of_ne_nil hne
  have hb := hcalls b (hsub.subset List.mem_cons_self)
  have hsplit : (List.replicate 1024 toneFrame).flatten =
      toneBlock ++ (List.replicate 960 toneFrame).flatten := by
    rw [toneBlock,← List.flatten_append,List.replicate_append_replicate]
  rw [audio,List.flatMap_cons,hb,dac_toned,hsplit,List.append_assoc]
  exact List.take_left' length_toneBlock

/-- Two host buffers make up a user buffer, which is sent. -/
def oneSent : List (Act plain) :=
  [.process (tone 1000) none,.turn,.process (tone 500) none,.turn,.turn,.poll,.send,.clear]

theorem oneSent_run : ∃ s, (system plain blank () SenderAccount.zeroHeap 0).Run
    (fun _ _ => True) oneSent s ∧ s.bp.calls.length = 1 ∧ s.sender.wire.length = 1 := by
  have hrun : ((system plain blank () SenderAccount.zeroHeap 0).exec (fun _ _ => True)
      (system plain blank () SenderAccount.zeroHeap 0).init oneSent).map (fun s =>
        (s.bp.calls.length,s.sender.wire.length)) = some (1,1) := by
    decide +kernel
  obtain ⟨s,hs,he⟩ := Option.map_eq_some_iff.mp hrun
  obtain ⟨hcalls,hwire⟩ := Prod.mk.inj he
  exact ⟨s,System.run_of_exec hs,hcalls,hwire⟩

theorem capture_sends_one :
    ∃ s, (system plain blank () SenderAccount.zeroHeap 0).Reaches s ∧ s.bp.calls.length = 1 ∧
      s.sender.wire.length = 1 ∧ s.sender.reports = 0 := by
  obtain ⟨s,hs,hcalls,hwire⟩ := oneSent_run
  have htotal := (capture_sends hs.reaches).2.1
  exact ⟨s,hs.reaches,hcalls,hwire,by omega⟩

theorem oneSent_tones : ∀ a ∈ oneSent, Tones a := by
  intro a ha
  simp only [oneSent,List.mem_cons,List.not_mem_nil,or_false] at ha
  rcases ha with rfl | rfl | rfl | rfl | rfl | rfl | rfl | rfl
  · exact ⟨1000,rfl,rfl⟩
  · trivial
  · exact ⟨500,rfl,rfl⟩
  all_goals trivial

/-- The program starts the renderer at 44100; the speaker goes over to the rate of the
stream and puts out the frames that were captured. -/
theorem host_to_dac_one : ∃ (s : State plain) (moves : List Speaker.Act) (u : Speaker.State)
    (d : Nat), s.sender.wire.length = 1 ∧
      (Speaker.speaker PrcessCharacter.zeroStack PrcessCharacter.bootWfx (fun _ => 0) 44100
        s.sender.wire.flatten).Run SpeakerSound.InTime moves u ∧
      u.port.played[d]? = some toneBlock := by
  obtain ⟨s,hs,_,hwire⟩ := oneSent_run
  have hstart : (Speaker.speaker PrcessCharacter.zeroStack PrcessCharacter.bootWfx (fun _ => 0)
      44100 s.sender.wire.flatten).Run SpeakerSound.InTime [] _ := .start
  obtain ⟨sent,hsub,hsent,_,hall⟩ := host_to_dac hs.reaches hstart
  obtain ⟨moves,u,hu,hout⟩ := hall.mpr (fun hptr => by cases hptr)
  have hone : sent.length = 1 := by
    rwa [hsent,List.length_map] at hwire
  obtain ⟨due,_,hdue,hplayed⟩ := hout.played
  rw [length_audio,hone] at hdue
  obtain ⟨d,hd⟩ : ∃ d, due[0]? = some d := ⟨_,List.getElem?_eq_getElem (by omega)⟩
  refine ⟨s,_,u,d,hwire,hu,?_⟩
  rw [hplayed 0 d hd,Nat.zero_mul,List.drop_zero,
    audio_toned hsub (calls_toned hs oneSent_tones) (List.ne_nil_of_length_pos (by omega))]

/-- A message of the tone on the wire. -/
def toneMessage : List UInt8 :=
  le32 TcpCommand.sendData.code ++ (le32 4096 ++ (List.replicate 1024 [1,0,2,0]).flatten)

end WifiSpeaker.Proofs.CaptureStream
