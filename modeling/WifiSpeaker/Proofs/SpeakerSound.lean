import WifiSpeaker.Speaker
import WifiSpeaker.Proofs.I2sOrder
import WifiSpeaker.Proofs.RenderWords
import WifiSpeaker.Proofs.WireAgreement

namespace WifiSpeaker.Proofs.SpeakerSound
open Common Wire PrcessCharacter Framing WireAgreement Speaker
open WifiSpeaker.I2sClock (i2sSetClk)
open RenderSamples (Loop short sample)
open RenderWords (Sixteen loopAt loopAt_next loopAt_retry loopAt_more littleEndian unsigned
  sample_eq short_eq sixteen_stereo frames_stereo)

/-- What 16-bit stereo becomes on its way to the DAC: in every frame the sign bits are
turned over and the right sample stands below the left one. -/
def dacBytes : List UInt8 → List UInt8
  | l₀ :: l₁ :: r₀ :: r₁ :: rest => r₀ :: (r₁ + 0x80) :: l₀ :: (l₁ + 0x80) :: dacBytes rest
  | _ => []

theorem length_dacBytes (p : List UInt8) : (dacBytes p).length = 4 * (p.length / 4) := by
  fun_induction dacBytes p with
  | case1 l₀ l₁ r₀ r₁ rest ih =>
    simp only [List.length_cons,ih]
    omega
  | case2 p h => rw [Nat.div_eq_of_lt (length_lt_four h),List.length_nil]

/-- A little-endian sample moved to the unsigned range has its upper byte turned. -/
theorem unsigned_littleEndian (low high : UInt8) :
    unsigned (littleEndian low high) = low.toNat + 256 * (high + 0x80).toNat := by
  have hl := low.toNat_lt
  have hh := high.toNat_lt
  have h80 : (0x80 : UInt8).toNat = 128 := rfl
  rw [UInt8.toNat_add,h80]
  unfold unsigned littleEndian
  simp only
  split_ifs
  · omega
  · omega

/-- The word of a frame in memory. -/
theorem le32_sample (buf : Nat → UInt8) (i j : Nat) :
    le32 (sample (short buf i) (short buf j)) =
      [buf j,buf (j + 1) + 0x80,buf i,buf (i + 1) + 0x80] := by
  have hw : (sample (short buf i) (short buf j)).toNat =
      leNat [buf j,buf (j + 1) + 0x80,buf i,buf (i + 1) + 0x80] := by
    have hs := sample_eq (short buf i) (short buf j)
    rw [short_eq,short_eq,unsigned_littleEndian,unsigned_littleEndian] at hs
    simp only [leNat_cons,leNat_nil]
    omega
  rw [le32,hw]
  exact leBytes_leNat [_,_,_,_]

/-- Frame by frame. -/
theorem dacBytes_frame (p : List UInt8) (buf : Nat → UInt8) (k : Nat) (hk : k < p.length / 4)
    (hbuf : ∀ i < p.length, p[i]? = some (buf i)) :
    (dacBytes p).take (4 * (k + 1)) = (dacBytes p).take (4 * k) ++
      le32 (sample (short buf (4 * k)) (short buf (4 * k + 2))) := by
  have hframe : ((dacBytes p).drop (4 * k)).take 4 =
      [buf (4 * k + 2),buf (4 * k + 3) + 0x80,buf (4 * k),buf (4 * k + 1) + 0x80] := by
    fun_induction dacBytes p generalizing k buf with
    | case1 l₀ l₁ r₀ r₁ rest ih =>
      cases k with
      | zero =>
        have h₀ := hbuf 0 (by simp)
        have h₁ := hbuf 1 (by simp)
        have h₂ := hbuf 2 (by simp)
        have h₃ := hbuf 3 (by simp)
        simp at h₀ h₁ h₂ h₃
        simp [h₀,h₁,h₂,h₃]
      | succ k =>
        have hlen : k < rest.length / 4 := by
          simp only [List.length_cons] at hk
          omega
        have hrest := ih (fun i => buf (i + 4)) k hlen (by
          intro i hi
          exact hbuf (i + 4) (by simp only [List.length_cons]; omega))
        have hdrop : 4 * (k + 1) = 4 * k + 4 := by omega
        simp only [hdrop,List.drop_succ_cons,hrest]
    | case2 p h =>
      have := length_lt_four h
      omega
  rw [le32_sample,Nat.mul_succ,List.take_add,hframe]

section Receiver
variable {input : List UInt8} {wfx : WaveFormatEx} {fs gs : List Frame} {r r' : Receiver}

/-- A receiver behind some complete frames has made the calls they lead to. -/
def Heeded (input : List UInt8) (wfx : WaveFormatEx) (r : Receiver) : Prop :=
  ∃ fs, Position input wfx fs r ∧ r.renders.map heard = heardAfter wfx fs

theorem step_heeded (h : Heeded input wfx r) (hs : Receiver.step r v = some r') :
    Heeded input wfx r' := by
  obtain ⟨fs,hp,hr⟩ := h
  cases step_passes hp hs with
  | inside position spot renders => exact ⟨fs,position,by rw [renders,hr]⟩
  | behind f calls position spot renders made =>
    refine ⟨fs ++ [f],position,?_⟩
    rw [renders,List.map_append,hr,made,heardAfter_snoc,hp.2]

theorem init_heeded (junk : Task) (wfx : WaveFormatEx) (input : List UInt8) :
    Heeded input (defaultWfx wfx) (receiver junk wfx input).init :=
  ⟨[],init_position,rfl⟩

/-- Over the encoding of messages that fit, a receiver has made the calls owed for the
messages it has read whole. -/
theorem Heeded.behind {ms : List Message} (h : Heeded (encode ms) wfx r)
    (hs : ∀ m ∈ ms, Sendable m) : ∃ n ≤ ms.length, r.renders.map handed = owed wfx (ms.take n) ∧
      encode ms = encode (ms.take n) ++ (opened r.task ++ r.input) := by
  obtain ⟨fs,⟨hi,_⟩,hr⟩ := h
  obtain ⟨gs,hall,hl,hf,hh⟩ := messages_frames hs
  obtain ⟨more,rfl⟩ := frames_prefix (hi.symm.trans hall.symm)
  have hn : (fs ++ more).take fs.length = fs := List.take_left
  refine ⟨fs.length,?_,?_,?_⟩
  · rw [← hl,List.length_append]
    exact Nat.le_add_right _ _
  · have hheard := hh fs.length wfx
    rw [hn,← hr] at hheard
    exact handed_of_heard (owed_length (fun m hm => hs m (List.mem_of_mem_take hm)) wfx) hheard
  · rw [← hf,hn]
    exact hi

/-- The calls made are the first of those owed. -/
theorem Heeded.calls {ms : List Message} (h : Heeded (encode ms) wfx r)
    (hs : ∀ m ∈ ms, Sendable m) : r.renders.map handed <+: owed wfx ms := by
  obtain ⟨n,_,hr,_⟩ := h.behind hs
  rw [hr]
  exact owed_take wfx ms n

/-- All of them have been made once the stream is used up. -/
theorem Heeded.finished {ms : List Message} (h : Heeded (encode ms) wfx r)
    (hs : ∀ m ∈ ms, Sendable m) (hplace : r.task.place = .command) (hinput : r.input = []) :
    r.renders.map handed = owed wfx ms := by
  obtain ⟨n,_,hr,hi⟩ := h.behind hs
  have hrest : encode (ms.drop n) = [] := by
    have hsplit : encode (ms.take n ++ ms.drop n) = _ := List.flatMap_append
    rw [List.take_append_drop,hi,hinput,opened,hplace] at hsplit
    exact (List.append_cancel_left hsplit).symm
  rw [hr,← List.append_nil (ms.take n),← encode_nil hrest,List.take_append_drop]

end Receiver

/-- The bytes a call may read. -/
def payload (call : RenderCall) : List UInt8 := call.buf.bytes.take call.bufLen.toNat

/-- What the calls are to sound like. -/
def sound (calls : List RenderCall) : List UInt8 := calls.flatMap (fun c => dacBytes (payload c))

theorem sound_snoc (calls : List RenderCall) (call : RenderCall) :
    sound (calls ++ [call]) = sound calls ++ dacBytes (payload call) := by
  simp [sound]

/-- A call of 16-bit stereo whose length is inside its buffer. -/
structure Fit (call : RenderCall) : Prop where
  bits : call.bufDesc.wBitsPerSample = 16
  stereo : call.bufDesc.nChannels = 2
  length : call.bufLen.toNat ≤ sizeofBuffer

theorem Fit.length_payload (h : Fit call) : (payload call).length = call.bufLen.toNat := by
  rw [payload,List.length_take,call.buf.size]
  exact Nat.min_eq_left h.length

/-- The words of the loop are those of the payload. -/
theorem Fit.frame (h : Fit call) (beyond : Nat → UInt8) (hk : k < (call.bufLen / 2 / 2).toNat) :
    (dacBytes (payload call)).take (4 * (k + 1)) = (dacBytes (payload call)).take (4 * k) ++
      le32 (sample (short (argument beyond call).buf (4 * k))
        (short (argument beyond call).buf (4 * k + 2))) := by
  apply dacBytes_frame
  · rw [h.length_payload,← frames_stereo]
    exact hk
  · intro i hi
    have hlen := h.length_payload
    have hsize : i < call.buf.bytes.length := by
      rw [call.buf.size]
      have := h.length
      omega
    simp only [payload,argument,List.getElem?_take,if_pos (by omega : i < call.bufLen.toNat),
      List.getElem?_eq_getElem hsize,Option.getD_some]

section Steps
variable {s t : State} {beyond : Nat → UInt8} {a : Act}

/-- How much of the calls made has gone to the port: a call under way has put its
first frames there. -/
inductive Progress (beyond : Nat → UInt8) (s : State) : Prop
  | idle (call : s.renderer.call = none) (pushed : s.port.pushed = sound s.receiver.renders)
  | entry (renders : s.receiver.renders = done ++ [c])
      (call : s.renderer.call = some (argument beyond c,.entry))
      (pushed : s.port.pushed = sound done)
  | loop (renders : s.receiver.renders = done ++ [c])
      (call : s.renderer.call = some (argument beyond c,.loop (loopAt (c.bufLen / 2 / 2) 2 k)))
      (bound : k ≤ (c.bufLen / 2 / 2).toNat)
      (pushed : s.port.pushed = sound done ++ (dacBytes (payload c)).take (4 * k))
  | trapped (renders : s.receiver.renders = done ++ [c])
      (call : s.renderer.call = some (argument beyond c,.trapped))
      (pushed : s.port.pushed = sound done)

theorem read_renders {r r' : Receiver} (h : Receiver.step r v = some r') :
    r'.renders = r.renders ∨ ∃ c, r'.renders = r.renders ++ [c] := by
  cases step_move h with
  | @data body rest =>
    refine .inr ⟨⟨r.task.buffer.write body,r.task.lengthData,r.wfx,body.length⟩,?_⟩
    simp only [Receiver.renders,rendersOf_append,rendersOf_logIf,rendersOf_render,rendersOf_read,
      List.nil_append,List.append_nil]
  | other => exact .inl (by simp [Receiver.renders])
  | openHeader => exact .inl (by simp [Receiver.renders])
  | openData => exact .inl (by simp [Receiver.renders])
  | headerLength => exact .inl (by simp [Receiver.renders,headerLengthLogs])
  | dataLength => exact .inl (by simp [Receiver.renders,dataLengthLogs])
  | header => exact .inl (by simp [Receiver.renders])

/-- A push adds its sample or nothing, and says which. -/
theorem push_pushed (p : I2s.State dac) (w : Object dac.sampleSize) :
    (I2s.i2sPushSample p w).1.pushed = p.pushed ∧ (I2s.i2sPushSample p w).2 = 0 ∨
    (I2s.i2sPushSample p w).1.pushed = p.pushed ++ w.bytes ∧ (I2s.i2sPushSample p w).2 ≠ 0 := by
  unfold I2s.i2sPushSample
  cases hq : p.acquire with
  | none => exact .inl ⟨rfl,rfl⟩
  | some u =>
    have hu := I2sStores.acquire_acquired hq
    obtain ⟨ptr,hptr⟩ := hu.ptr
    have hsame : u.pushed = p.pushed := by
      cases hu <;> rfl
    refine .inr ⟨?_,Nat.ne_of_gt (I2sStores.sampleSize_pos dac)⟩
    simp only [I2s.State.store,hptr,hsame]

/-- Nothing else adds to the port. -/
theorem quiet_pushed {p q : I2s.State dac} (h : I2s.step p b = some q)
    (hb : ∀ w, b ≠ .pushSample w) (hw : b ≠ .writePass) : q.pushed = p.pushed := by
  cases I2sStores.step_move h with
  | push got sample => exact absurd rfl (hb sample)
  | pass => exact absurd rfl hw
  | fetch =>
    unfold I2s.State.fetch
    split_ifs <;> rfl
  | _ => rfl

/-- What a step does to the three parts. -/
theorem step_parts (h : step beyond s a = some t) :
    (s.portAct a = none ∧ t.port = s.port ∨
      ∃ b, s.portAct a = some b ∧ I2s.step s.port b = some t.port) ∧
    s.task beyond a = some (t.receiver,t.renderer) := by
  unfold step at h
  obtain ⟨port,hport,h⟩ := Option.bind_eq_some_iff.mp h
  obtain ⟨⟨receiver,renderer⟩,htask,h⟩ := Option.bind_eq_some_iff.mp h
  cases h
  refine ⟨?_,htask⟩
  unfold State.portStep at hport
  cases hb : s.portAct a with
  | none =>
    rw [hb] at hport
    cases hport
    exact .inl ⟨rfl,rfl⟩
  | some b =>
    rw [hb] at hport
    exact .inr ⟨b,rfl,hport⟩

/-- The entry of a 16-bit stereo call goes to the head of its loop. -/
theorem enter_loop {r r' : Renderer.State} (hc : r.call = some (argument beyond c,.entry))
    (hfit : Fit c) (h : Renderer.step r (.enter ret) = some r') :
    r'.call = some (argument beyond c,.loop (loopAt (c.bufLen / 2 / 2) 2 0)) := by
  have h16 : Sixteen (argument beyond c).bufLen (argument beyond c).bufDesc (c.bufLen / 2 / 2) 2 :=
    sixteen_stereo hfit.bits hfit.stereo
  simp only [Renderer.step,hc,Renderer.State.act,RenderSamples.step,h16.numSamples,h16.bits,
    h16.enter,Option.bind_eq_bind,Option.bind_some,ne_eq,not_true_eq_false,if_false,
    Option.pure_def,Option.some.injEq] at h
  subst r'
  rfl

/-- A turn takes the word, comes back for it, or ends the call. -/
theorem turn_loop {r r' : Renderer.State}
    (hc : r.call = some (argument beyond c,.loop (loopAt n 2 k))) (hk : k ≤ n.toNat)
    (hs : r.rendererStatus = .initialized)
    (h : Renderer.step r (.turn bytesPushed) = some r') :
    if k < n.toNat then
      r'.call = some (argument beyond c,.loop (loopAt n 2 (if bytesPushed = 0 then k else k + 1)))
    else r'.call = none := by
  simp only [Renderer.step,hc,Renderer.State.act,RenderSamples.step,Option.bind_eq_bind,
    Option.bind_some,hs,Option.pure_def,Option.some.injEq] at h
  subst r'
  have hmore := loopAt_more (d := 2) hk
  by_cases hlt : k < n.toNat
  · rw [if_pos hlt]
    simp only [RenderSamples.State.turn,hmore.mpr hlt,if_true,reduceCtorEq,if_false,
      Renderer.State.after,Option.some.injEq,Prod.mk.injEq,true_and,RenderSamples.Place.loop.injEq]
    split_ifs with hz
    · rw [hz,loopAt_retry]
    · rw [loopAt_next n 2 k hz]
  · rw [if_neg hlt]
    simp only [RenderSamples.State.turn,hmore,hlt,if_false,Renderer.State.after,if_true]

theorem enter_entry {r r' : Renderer.State} (h : Renderer.step r (.enter ret) = some r') :
    ∃ c, r.call = some (c,.entry) := by
  obtain ⟨⟨c,place⟩,hc,h⟩ := Option.bind_eq_some_iff.mp h
  cases place with
  | entry => exact ⟨c,hc⟩
  | loop l => simp [Renderer.State.act,RenderSamples.step] at h
  | returned => simp [Renderer.State.act,RenderSamples.step] at h
  | trapped => simp [Renderer.State.act,RenderSamples.step] at h

theorem turn_inside {r r' : Renderer.State} (h : Renderer.step r (.turn bytesPushed) = some r') :
    ∃ c l, r.call = some (c,.loop l) := by
  obtain ⟨⟨c,place⟩,hc,h⟩ := Option.bind_eq_some_iff.mp h
  cases place with
  | loop l => exact ⟨c,l,hc⟩
  | entry => simp [Renderer.State.act,RenderSamples.step] at h
  | returned => simp [Renderer.State.act,RenderSamples.step] at h
  | trapped => simp [Renderer.State.act,RenderSamples.step] at h

theorem renderer_status {r r' : Renderer.State} (h : Renderer.step r b = some r') :
    r'.rendererStatus = r.rendererStatus := by
  cases b with
  | renderSamples c =>
    simp only [Renderer.step,Option.ite_none_right_eq_some,Option.some.injEq] at h
    obtain ⟨_,rfl⟩ := h
    rfl
  | enter ret =>
    obtain ⟨⟨c,place⟩,_,h⟩ := Option.bind_eq_some_iff.mp h
    obtain ⟨act,_,h⟩ := Option.bind_eq_some_iff.mp h
    obtain ⟨out,_,h⟩ := Option.bind_eq_some_iff.mp h
    cases h
    rfl
  | turn bytesPushed =>
    obtain ⟨⟨c,place⟩,_,h⟩ := Option.bind_eq_some_iff.mp h
    obtain ⟨act,_,h⟩ := Option.bind_eq_some_iff.mp h
    obtain ⟨out,_,h⟩ := Option.bind_eq_some_iff.mp h
    cases h
    rfl

/-- Between the calls all that the calls made are to sound like has gone to the port. -/
theorem Progress.rested (hp : Progress beyond s) (hnone : s.renderer.call = none) :
    s.port.pushed = sound s.receiver.renders := by
  cases hp with
  | idle _ pushed => exact pushed
  | entry _ call => rw [hnone] at call; cases call
  | loop _ call => rw [hnone] at call; cases call
  | trapped _ call => rw [hnone] at call; cases call

/-- A read returns between the calls, and may begin one. -/
theorem Progress.read (hp : Progress beyond s) (h : step beyond s (.read v) = some t) :
    Progress beyond t := by
  obtain ⟨hport,htask⟩ := step_parts h
  have hsame : t.port = s.port := by
    rcases hport with ⟨_,hport⟩ | ⟨b,hb,_⟩
    · exact hport
    · cases hb
  have hnone : s.renderer.call = none := by
    by_contra hc
    simp [State.task,Option.isSome_iff_ne_none.mpr hc] at htask
  have hpushed := hp.rested hnone
  simp only [State.task,hnone,Option.isSome_none,Bool.false_eq_true,if_false] at htask
  obtain ⟨receiver,hread,htask⟩ := Option.bind_eq_some_iff.mp htask
  rcases read_renders hread with hr | ⟨c,hr⟩
  · rw [hr,List.drop_length] at htask
    obtain ⟨hreceiver,hrenderer⟩ := Prod.mk.inj (Option.some.inj htask)
    exact .idle (by rw [← hrenderer,hnone]) (by rw [hsame,hpushed,← hreceiver,hr])
  · rw [hr,List.drop_left] at htask
    simp only [Renderer.step,hnone,Option.isNone_none,if_true,Option.bind_eq_bind,Option.bind_some,
      Option.pure_def,Option.some.injEq,Prod.mk.injEq] at htask
    obtain ⟨rfl,hrenderer⟩ := htask
    exact .entry hr (by rw [← hrenderer]) (by rw [hsame,hpushed])

/-- The driver's answer to a new rate does not change what is pushed. -/
theorem enter_pushed (h : step beyond s .enter = some t) : t.port.pushed = s.port.pushed := by
  rcases (step_parts h).1 with ⟨_,hport⟩ | ⟨b,hb,hport⟩
  · rw [hport]
  · have hclk : b = .setClk := by
      simp only [State.portAct] at hb
      split at hb
      · exact (Option.some.inj hb).symm
      · cases hb
    subst b
    exact quiet_pushed hport (by intro w hw; cases hw) (by intro hw; cases hw)

theorem enter_at_entry (h : step beyond s .enter = some t) :
    ∃ c, s.renderer.call = some (c,.entry) := by
  have htask := (step_parts h).2
  simp only [State.task] at htask
  split at htask
  · obtain ⟨_,hr,_⟩ := Option.bind_eq_some_iff.mp htask
    exact enter_entry hr
  · rename_i hrate
    obtain ⟨rate,hrate,_⟩ := Option.map_eq_some_iff.mp hrate
    unfold State.newRate at hrate
    split at hrate
    · exact ⟨_,by assumption⟩
    · cases hrate
  · obtain ⟨_,hr,_⟩ := Option.bind_eq_some_iff.mp htask
    exact enter_entry hr

theorem renderer_enter_trapped {r r' : Renderer.State} {c : Renderer.Call}
    (hc : r.call = some (c,.entry)) (h : Renderer.step r (.enter ret) = some r') :
    r'.call = some (c,.trapped) ↔ RenderSamples.numSamples c.bufLen c.bufDesc = none := by
  obtain ⟨out,hout,h⟩ : ∃ out, RenderSamples.step c.buf c.bufLen c.bufDesc
      ⟨r.sampleRate,.entry,[],[],[]⟩ (.enter ret) = some out ∧ r.after c out = r' := by
    simpa [Renderer.step,hc,Renderer.State.act,Option.bind_eq_some_iff] using h
  subst r'
  simp only [RenderSamples.step] at hout
  cases hn : RenderSamples.numSamples c.bufLen c.bufDesc with
  | none =>
    rw [hn] at hout
    cases hout
    simp [Renderer.State.after]
  | some n =>
    rw [hn] at hout
    simp only at hout
    split_ifs at hout <;> cases hout <;> simp [Renderer.State.after]

/-- The speaker's call traps at its entry exactly if the receiver's does. -/
theorem enter_traps_iff {c : RenderCall}
    (hc : s.renderer.call = some (argument beyond c,.entry))
    (h : step beyond s .enter = some t) :
    t.renderer.call = some (argument beyond c,.trapped) ↔
      c.traps s.renderer.sampleRate = true := by
  have htask := (step_parts h).2
  have hrate : s.newRate = if s.renderer.sampleRate = c.bufDesc.nSamplesPerSec then none
      else some c.bufDesc.nSamplesPerSec := by
    simp only [State.newRate,hc]
    rfl
  have hgo : ∀ ret, Renderer.step s.renderer (.enter ret) = some t.renderer →
      (t.renderer.call = some (argument beyond c,.trapped) ↔
        RenderSamples.numSamples c.bufLen c.bufDesc = none) :=
    fun ret hr => renderer_enter_trapped hc hr
  have hstep : ∀ ret, (do return (s.receiver,← Renderer.step s.renderer (.enter ret))) =
      some (t.receiver,t.renderer) → Renderer.step s.renderer (.enter ret) = some t.renderer := by
    intro ret hret
    obtain ⟨r,hr,he⟩ := Option.bind_eq_some_iff.mp hret
    rw [hr,(Prod.mk.inj (Option.some.inj he)).2]
  unfold RenderCall.traps
  by_cases hsame : s.renderer.sampleRate = c.bufDesc.nSamplesPerSec
  · rw [if_pos hsame] at hrate
    simp only [State.task,hrate,Option.map_none] at htask
    rw [hgo _ (hstep _ htask)]
    simp [hsame]
  · rw [if_neg hsame] at hrate
    simp only [State.task,hrate,Option.map_some] at htask
    cases hclk : i2sSetClk .dacBuiltIn c.bufDesc.nSamplesPerSec 16 with
    | refused =>
      rw [hclk] at htask
      rw [hgo _ (hstep _ htask)]
      simp
    | started d =>
      rw [hclk] at htask
      rw [hgo _ (hstep _ htask)]
      simp
    | trapped =>
      rw [hclk] at htask
      obtain ⟨_,hrenderer⟩ := Prod.mk.inj (Option.some.inj htask)
      rw [← hrenderer]
      simp [hsame,hc]

/-- A call enters its loop, or the driver traps. -/
theorem enter_call (hc : s.renderer.call = some (argument beyond c,.entry)) (hf : Fit c)
    (h : step beyond s .enter = some t) :
    t.receiver = s.receiver ∧ (t.renderer.call = some (argument beyond c,.trapped) ∨
      t.renderer.call = some (argument beyond c,.loop (loopAt (c.bufLen / 2 / 2) 2 0))) := by
  have htask := (step_parts h).2
  simp only [State.task] at htask
  split at htask
  · obtain ⟨r',hr,htask⟩ := Option.bind_eq_some_iff.mp htask
    obtain ⟨hreceiver,hrenderer⟩ := Prod.mk.inj (Option.some.inj htask)
    exact ⟨hreceiver.symm,.inr (by rw [← hrenderer]; exact enter_loop hc hf hr)⟩
  · obtain ⟨hreceiver,hrenderer⟩ := Prod.mk.inj (Option.some.inj htask)
    exact ⟨hreceiver.symm,.inl (by rw [← hrenderer,hc]; rfl)⟩
  · obtain ⟨r',hr,htask⟩ := Option.bind_eq_some_iff.mp htask
    obtain ⟨hreceiver,hrenderer⟩ := Prod.mk.inj (Option.some.inj htask)
    exact ⟨hreceiver.symm,.inr (by rw [← hrenderer]; exact enter_loop hc hf hr)⟩

theorem Progress.enter (hp : Progress beyond s) (hfit : ∀ c ∈ s.receiver.renders, Fit c)
    (h : step beyond s .enter = some t) : Progress beyond t := by
  have hsame := enter_pushed h
  obtain ⟨c',hc'⟩ := enter_at_entry h
  cases hp with
  | idle call => rw [hc'] at call; cases call
  | loop _ call => rw [hc'] at call; cases call
  | trapped _ call => rw [hc'] at call; cases call
  | entry renders call pushed =>
    rename_i done c
    obtain ⟨hreceiver,hcall⟩ := enter_call call (hfit c (by rw [renders]; simp)) h
    rw [← hreceiver] at renders
    rcases hcall with htrap | hloop
    · exact .trapped renders htrap (by rw [hsame,pushed])
    · refine .loop renders hloop (Nat.zero_le _) ?_
      rw [hsame,pushed,Nat.mul_zero,List.take_zero,List.append_nil]

theorem Progress.turn (hp : Progress beyond s) (hfit : ∀ c ∈ s.receiver.renders, Fit c)
    (hs : s.renderer.rendererStatus = .initialized) (h : step beyond s .turn = some t) :
    Progress beyond t := by
  obtain ⟨hport,htask⟩ := step_parts h
  obtain ⟨r',hr,htask⟩ := Option.bind_eq_some_iff.mp htask
  obtain ⟨hreceiver,rfl⟩ := Prod.mk.inj (Option.some.inj htask)
  obtain ⟨c',l',hc'⟩ := turn_inside hr
  cases hp with
  | idle call => rw [hc'] at call; cases call
  | entry _ call => rw [hc'] at call; cases call
  | trapped _ call => rw [hc'] at call; cases call
  | loop renders call bound pushed =>
    rename_i done c k
    have hf : Fit c := hfit c (by rw [renders]; simp)
    have hnext := turn_loop call bound hs hr
    have hmore := loopAt_more (d := 2) bound
    rw [hreceiver] at renders
    by_cases hlt : k < (c.bufLen / 2 / 2).toNat
    · have hword : s.word = some ⟨le32 (sample (short (argument beyond c).buf (4 * k))
          (short (argument beyond c).buf (4 * k + 2))),length_le32 _⟩ := by
        simp only [State.word,call,hmore.mpr hlt,if_true]
        rfl
      rw [if_pos hlt] at hnext
      rw [State.portAct,hword,Option.map_some] at hport
      rw [hword,Option.map_some,Option.getD_some] at hnext
      obtain ⟨b,hb,hstep⟩ := hport.resolve_left (by rintro ⟨hc,_⟩; cases hc)
      cases hb
      simp only [I2s.step,Option.ite_none_right_eq_some,Option.some.injEq] at hstep
      obtain ⟨_,hstep⟩ := hstep
      rcases push_pushed s.port ⟨le32 (sample (short (argument beyond c).buf (4 * k))
          (short (argument beyond c).buf (4 * k + 2))),length_le32 _⟩ with ⟨hsame,hz⟩ | ⟨hadd,hz⟩
      · rw [if_pos (by rw [hz]; rfl)] at hnext
        refine .loop renders hnext bound ?_
        rw [← hstep,hsame,pushed]
      · rw [if_neg (by exact_mod_cast hz)] at hnext
        refine .loop renders hnext hlt ?_
        rw [← hstep,hadd,pushed,hf.frame beyond hlt,List.append_assoc]
    · have hall : 4 * k = (dacBytes (payload c)).length := by
        rw [length_dacBytes,hf.length_payload,← frames_stereo]
        omega
      have hword : s.word = none := by
        simp only [State.word,call,hmore,hlt,if_false]
      rw [if_neg hlt] at hnext
      rw [State.portAct,hword,Option.map_none] at hport
      obtain ⟨_,hsame⟩ := hport.resolve_right (by rintro ⟨b,hb,_⟩; cases hb)
      refine .idle hnext ?_
      rw [hsame,pushed,renders,sound_snoc,hall,List.take_length]

/-- The DMA and the interrupt leave the task and what is pushed alone. -/
theorem Progress.hardware (hp : Progress beyond s) (hb : s.portAct a = some b)
    (hpush : ∀ w, b ≠ .pushSample w) (hw : b ≠ .writePass)
    (htask : s.task beyond a = some (s.receiver,s.renderer)) (h : step beyond s a = some t) :
    Progress beyond t := by
  obtain ⟨hport,ht⟩ := step_parts h
  rw [htask] at ht
  obtain ⟨hreceiver,hrenderer⟩ := Prod.mk.inj (Option.some.inj ht)
  obtain ⟨b',hb',hstep⟩ := hport.resolve_left (by rintro ⟨hc,_⟩; rw [hb] at hc; cases hc)
  rw [hb,Option.some.injEq] at hb'
  subst b'
  have hsame := quiet_pushed hstep hpush hw
  cases hp with
  | idle call pushed =>
    exact .idle (by rw [← hrenderer,call]) (by rw [hsame,pushed,hreceiver])
  | entry renders call pushed =>
    exact .entry (by rw [← hreceiver,renders]) (by rw [← hrenderer,call]) (by rw [hsame,pushed])
  | loop renders call bound pushed =>
    exact .loop (by rw [← hreceiver,renders]) (by rw [← hrenderer,call]) bound
      (by rw [hsame,pushed])
  | trapped renders call pushed =>
    exact .trapped (by rw [← hreceiver,renders]) (by rw [← hrenderer,call]) (by rw [hsame,pushed])

theorem step_progress (hp : Progress beyond s) (hfit : ∀ c ∈ s.receiver.renders, Fit c)
    (hs : s.renderer.rendererStatus = .initialized) (h : step beyond s a = some t) :
    Progress beyond t := by
  cases a with
  | read v => exact hp.read h
  | enter => exact hp.enter hfit h
  | turn => exact hp.turn hfit hs h
  | fetch => exact hp.hardware rfl (by intro w hw; cases hw) (by intro hw; cases hw) rfl h
  | interrupt => exact hp.hardware rfl (by intro w hw; cases hw) (by intro hw; cases hw) rfl h
  | isrDrop => exact hp.hardware rfl (by intro w hw; cases hw) (by intro hw; cases hw) rfl h
  | isrSend => exact hp.hardware rfl (by intro w hw; cases hw) (by intro hw; cases hw) rfl h
  | isrClear => exact hp.hardware rfl (by intro w hw; cases hw) (by intro hw; cases hw) rfl h

end Steps

/-- What an action asks of the port comes in time there. -/
def InTime (s : State) (a : Act) : Prop := ∀ b ∈ s.portAct a, I2sOrder.InTime s.port b

instance (s : State) (a : Act) : Decidable (InTime s a) :=
  inferInstanceAs (Decidable (∀ b ∈ s.portAct a, I2sOrder.InTime s.port b))

section Run
variable {junk : Task} {wfx : WaveFormatEx} {beyond : Nat → UInt8} {sampleRate : UInt32}
  {input : List UInt8} {ms : List Message} {acts : List Act} {s t : State} {a : Act}

/-- All calls owed are of 16-bit stereo. -/
def Stereo (wfx : WaveFormatEx) (ms : List Message) : Prop :=
  ∀ o ∈ owed wfx ms, o.2.2.wBitsPerSample = 16 ∧ o.2.2.nChannels = 2

/-- The receiver is in its stream, the renderer in its call, and the port in order. -/
structure Whole (wfx : WaveFormatEx) (beyond : Nat → UInt8) (ms : List Message) (s : State) :
    Prop where
  heeded : Heeded (encode ms) wfx s.receiver
  status : s.renderer.rendererStatus = .initialized
  progress : Progress beyond s
  ordered : ∃ h due, I2sOrder.Ordered s.port h due

theorem Whole.fit (hw : Whole wfx beyond ms s) (hs : ∀ m ∈ ms, Sendable m)
    (hst : Stereo wfx ms) : ∀ c ∈ s.receiver.renders, Fit c := by
  intro c hc
  have hm : handed c ∈ owed wfx ms :=
    (hw.heeded.calls hs).subset (List.mem_map_of_mem hc)
  obtain ⟨hbits,hstereo⟩ := hst _ hm
  refine ⟨hbits,hstereo,?_⟩
  have hlen := owed_length hs wfx _ hm
  simp only [handed,List.length_take,c.buf.size] at hlen
  omega

theorem step_receiver (hw : Whole wfx beyond ms s) (h : step beyond s a = some t) :
    Heeded (encode ms) wfx t.receiver ∧ t.renderer.rendererStatus = .initialized := by
  have htask := (step_parts h).2
  have hstay := hw.heeded
  have hst := hw.status
  cases a with
  | read v =>
    simp only [State.task] at htask
    split_ifs at htask
    obtain ⟨receiver,hread,htask⟩ := Option.bind_eq_some_iff.mp htask
    have hheeded := step_heeded hstay hread
    split at htask
    · obtain ⟨rfl,hrenderer⟩ := Prod.mk.inj (Option.some.inj htask)
      exact ⟨hheeded,by rw [← hrenderer,hst]⟩
    · obtain ⟨r',hr,htask⟩ := Option.bind_eq_some_iff.mp htask
      obtain ⟨rfl,rfl⟩ := Prod.mk.inj (Option.some.inj htask)
      exact ⟨hheeded,(renderer_status hr).trans hst⟩
  | enter =>
    simp only [State.task] at htask
    split at htask
    · obtain ⟨r',hr,htask⟩ := Option.bind_eq_some_iff.mp htask
      obtain ⟨hreceiver,rfl⟩ := Prod.mk.inj (Option.some.inj htask)
      exact ⟨by rw [← hreceiver]; exact hstay,(renderer_status hr).trans hst⟩
    · obtain ⟨hreceiver,hrenderer⟩ := Prod.mk.inj (Option.some.inj htask)
      exact ⟨by rw [← hreceiver]; exact hstay,by rw [← hrenderer,hst]⟩
    · obtain ⟨r',hr,htask⟩ := Option.bind_eq_some_iff.mp htask
      obtain ⟨hreceiver,rfl⟩ := Prod.mk.inj (Option.some.inj htask)
      exact ⟨by rw [← hreceiver]; exact hstay,(renderer_status hr).trans hst⟩
  | turn =>
    obtain ⟨r',hr,htask⟩ := Option.bind_eq_some_iff.mp htask
    obtain ⟨hreceiver,rfl⟩ := Prod.mk.inj (Option.some.inj htask)
    exact ⟨by rw [← hreceiver]; exact hstay,(renderer_status hr).trans hst⟩
  | _ =>
    obtain ⟨hreceiver,hrenderer⟩ := Prod.mk.inj (Option.some.inj htask)
    exact ⟨by rw [← hreceiver]; exact hstay,by rw [← hrenderer,hst]⟩

theorem step_whole (hs : ∀ m ∈ ms, Sendable m) (hst : Stereo wfx ms)
    (hw : Whole wfx beyond ms s) (ht : InTime s a) (h : step beyond s a = some t) :
    Whole wfx beyond ms t := by
  obtain ⟨hheeded,hstatus⟩ := step_receiver hw h
  refine ⟨hheeded,hstatus,step_progress hw.progress (hw.fit hs hst) hw.status h,?_⟩
  rcases (step_parts h).1 with ⟨_,hport⟩ | ⟨b,hb,hport⟩
  · rw [hport]
    exact hw.ordered
  · obtain ⟨h,due,ho⟩ := hw.ordered
    obtain ⟨h',due',ho',_⟩ := I2sOrder.move_ordered (ht b hb) ho (I2sStores.step_move hport)
    exact ⟨h',due',ho'⟩

theorem run_whole (hs : ∀ m ∈ ms, Sendable m) (hst : Stereo (defaultWfx wfx) ms)
    (h : (speaker junk wfx beyond sampleRate (encode ms)).Run InTime acts s) :
    Whole (defaultWfx wfx) beyond ms s := by
  refine System.Run.invariant ?_ (fun s a t hw ha ht => step_whole hs hst hw ha ht) h
  exact ⟨init_heeded junk wfx (encode ms),rfl,.idle rfl rfl,_,_,I2sOrder.init_ordered dac⟩

/-- What has been pushed is the beginning of what the calls made are to sound like. -/
theorem Progress.begins (hp : Progress beyond s) :
    s.port.pushed <+: sound s.receiver.renders := by
  cases hp with
  | idle _ pushed => rw [pushed]
  | entry renders _ pushed =>
    rw [pushed,renders,sound_snoc]
    exact List.prefix_append _ _
  | loop renders _ _ pushed =>
    rw [pushed,renders,sound_snoc]
    exact (List.prefix_append_right_inj _).mpr (List.take_prefix _ _)
  | trapped renders _ pushed =>
    rw [pushed,renders,sound_snoc]
    exact List.prefix_append _ _

/-- All calls made have gone to the port but the last. -/
theorem Progress.misses (hp : Progress beyond s) :
    sound s.receiver.renders.dropLast <+: s.port.pushed := by
  cases hp with
  | idle _ pushed =>
    rw [pushed]
    exact (List.dropLast_prefix _).flatMap _
  | entry renders _ pushed =>
    rw [pushed,renders,List.dropLast_concat]
  | loop renders _ _ pushed =>
    rw [pushed,renders,List.dropLast_concat]
    exact List.prefix_append _ _
  | trapped renders _ pushed =>
    rw [pushed,renders,List.dropLast_concat]

theorem sound_handed (calls : List RenderCall) :
    sound calls = (calls.map handed).flatMap (fun o => dacBytes o.1) := by
  simp only [sound,List.flatMap_map]
  rfl

/-- The port has some of the sound from its beginning and puts it out in order: each
block of 256 bytes has a number within the next round of the 32 buffers under which
the DMA fetches it, and under every other number the DMA repeats what that buffer held
a round before, silence at the start. -/
structure PlaysOut (p : I2s.State dac) (audio : List UInt8) : Prop where
  pushed : p.pushed <+: audio
  played : ∃ due : List Nat, due.Pairwise (· < ·) ∧ (∀ d ∈ due, d < p.played.length + 32) ∧
    p.pushed.length ≤ due.length * 256 ∧
    (∀ k d, due[k]? = some d → d < p.played.length →
      p.played[d]? = some ((audio.drop (k * 256)).take 256)) ∧
    ∀ d < p.played.length, d ∉ due → p.played[d]? =
      if d < 32 then some (List.replicate 256 0) else p.played[d - 32]?

theorem playsOut_of_ordered (ho : I2sOrder.Ordered s.port n due) (h : s.port.pushed <+: audio) :
    PlaysOut s.port audio := by
  refine ⟨h,due,ho.plan.sorted,fun d hd => ho.plan.due_lt ho.ring hd,ho.enough,?_,?_⟩
  · intro k d hk hd
    have hfull : (k + 1) * 256 ≤ s.port.pushed.length := ho.full hk hd
    rw [Nat.succ_mul] at hfull
    rw [ho.played_block hk hd,← take_drop_of_isPrefix h hfull]
    rfl
  · intro d hd hm
    exact ho.played_again hd hm

theorem Whole.plays (hw : Whole wfx beyond ms s) (hs : ∀ m ∈ ms, Sendable m) :
    PlaysOut s.port ((owed wfx ms).flatMap (fun o => dacBytes o.1)) := by
  have hpushed := hw.progress.begins
  rw [sound_handed] at hpushed
  obtain ⟨n,due,ho⟩ := hw.ordered
  exact playsOut_of_ordered ho (hpushed.trans ((hw.heeded.calls hs).flatMap _))

/-- At the end of the stream, and of the last call, all of the sound has gone to the port. -/
theorem Whole.finished (hw : Whole wfx beyond ms s) (hs : ∀ m ∈ ms, Sendable m)
    (hplace : s.receiver.task.place = .command) (hinput : s.receiver.input = [])
    (hnone : s.renderer.call = none) :
    s.port.pushed = (owed wfx ms).flatMap (fun o => dacBytes o.1) := by
  rw [hw.progress.rested hnone,sound_handed,hw.heeded.finished hs hplace hinput]

theorem length_opened (task : Task) : (opened task).length ≤ 8 := by
  unfold opened
  split <;> simp

/-- What has been read of the stream whole has gone to the port, but for the last call
while it is under way. -/
theorem Whole.behind (hw : Whole wfx beyond ms s) (hs : ∀ m ∈ ms, Sendable m) :
    ∃ n ≤ ms.length,
      (s.renderer.call = none →
        s.port.pushed = (owed wfx (ms.take n)).flatMap (fun o => dacBytes o.1)) ∧
      (owed wfx (ms.take n)).dropLast.flatMap (fun o => dacBytes o.1) <+: s.port.pushed ∧
      encode ms = encode (ms.take n) ++ (opened s.receiver.task ++ s.receiver.input) := by
  obtain ⟨n,hn,hr,hi⟩ := hw.heeded.behind hs
  refine ⟨n,hn,?_,?_,hi⟩
  · intro hnone
    rw [hw.progress.rested hnone,sound_handed,hr]
  · rw [← hr,← List.map_dropLast,← sound_handed]
    exact hw.progress.misses

theorem Whole.unread_le (hw : Whole wfx beyond ms s) (hs : ∀ m ∈ ms, Sendable m) :
    s.receiver.input.length ≤ (encode ms).length := by
  obtain ⟨n,_,_,_,hi⟩ := hw.behind hs
  rw [hi,List.length_append,List.length_append]
  omega

end Run

end WifiSpeaker.Proofs.SpeakerSound
