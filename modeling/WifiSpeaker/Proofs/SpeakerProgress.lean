import WifiSpeaker.Proofs.I2sProgress
import WifiSpeaker.Proofs.SampleRate
import WifiSpeaker.Proofs.SpeakerSound

namespace WifiSpeaker.Proofs.SpeakerProgress
open Common Wire PrcessCharacter Framing WireAgreement Speaker
open WifiSpeaker.I2sClock (i2sSetClk)
open I2sOrder (Apart)
open I2sProgress (Begun Hardware Serves)
open RenderWords (Sixteen loopAt loopAt_more sixteen_stereo)
open SpeakerSound (Fit InTime Progress Stereo Whole dacBytes)

section Renderer
variable {beyond : Nat → UInt8} {c : RenderCall} {r : Renderer.State}

/-- The entry of a 16-bit stereo call comes to the head of its loop at the rate of the
call. -/
theorem enter_renderer (hc : r.call = some (argument beyond c,.entry)) (hf : Fit c) (ret : Int) :
    ∃ r', Renderer.step r (.enter ret) = some r' ∧
      r'.call = some (argument beyond c,.loop (loopAt (c.bufLen / 2 / 2) 2 0)) ∧
      r'.sampleRate = c.bufDesc.nSamplesPerSec := by
  have h16 : Sixteen (argument beyond c).bufLen (argument beyond c).bufDesc (c.bufLen / 2 / 2) 2 :=
    sixteen_stereo hf.bits hf.stereo
  have hstep : ∃ r', Renderer.step r (.enter ret) = some r' := by
    simp [Renderer.step,hc,Renderer.State.act,RenderSamples.step,h16.numSamples,h16.bits]
  obtain ⟨r',hr⟩ := hstep
  refine ⟨r',hr,SpeakerSound.enter_loop hc hf hr,?_⟩
  simp only [Renderer.step,hc,Renderer.State.act,RenderSamples.step,h16.numSamples,h16.bits,
    Option.bind_eq_bind,Option.bind_some,ne_eq,not_true_eq_false,if_false,
    Option.pure_def,Option.some.injEq] at hr
  subst r'
  simp only [Renderer.State.after,RenderSamples.State.changeRate]
  split_ifs with hsame
  · exact hsame
  · rfl

/-- A turn of the loop can always be taken. -/
theorem turn_renderer {l : RenderSamples.Loop} (hc : r.call = some (argument beyond c,.loop l))
    (bytesPushed : Int) :
    ∃ r', Renderer.step r (.turn bytesPushed) = some r' ∧ r'.sampleRate = r.sampleRate := by
  have hstep : ∃ r', Renderer.step r (.turn bytesPushed) = some r' := by
    simp [Renderer.step,hc,Renderer.State.act,RenderSamples.step]
  obtain ⟨r',hr⟩ := hstep
  refine ⟨r',hr,?_⟩
  obtain ⟨⟨call,place⟩,hcall,hr⟩ := Option.bind_eq_some_iff.mp hr
  obtain ⟨act,hact,hr⟩ := Option.bind_eq_some_iff.mp hr
  cases hact
  obtain ⟨out,hout,hr⟩ := Option.bind_eq_some_iff.mp hr
  cases hr
  exact (SampleRate.turn_effect hout).1

end Renderer

section
variable {junk : Task} {wfx format : WaveFormatEx} {beyond : Nat → UInt8}
  {sampleRate rate : UInt32} {input : List UInt8} {ms : List Message} {acts : List Act}
  {s t u : State} {a : Act} {c : RenderCall}

/-- The speaker at one rate: it is set, or nothing has been pushed yet. -/
structure Steady (rate : UInt32) (s : State) : Prop where
  writing : s.port.writing = none
  sane : ∀ c, s.renderer.call ≠ some (c,.trapped)
  rate : s.renderer.sampleRate = rate ∨
    s.port.currPtr = none ∧ ∀ c l, s.renderer.call ≠ some (c,.loop l)
  begun : Begun s.port

/-- In time from one state to the other, whatever the speaker was started with. -/
def Goes (beyond : Nat → UInt8) (s t : State) : Prop :=
  ∀ junk wfx sampleRate input,
    (speaker junk wfx beyond sampleRate input).StepsUnder InTime s t

theorem Goes.refl (s : State) : Goes beyond s s := fun _ _ _ _ => .refl s

theorem Goes.one (htime : InTime s a) (hstep : step beyond s a = some t) : Goes beyond s t :=
  fun _ _ _ _ => .one htime hstep

theorem Goes.trans (h : Goes beyond s t) (h' : Goes beyond t u) : Goes beyond s u :=
  fun junk wfx sampleRate input => (h junk wfx sampleRate input).trans (h' _ _ _ _)

/-- A step of the hardware is one of the speaker. -/
theorem hardware_step (beyond : Nat → UInt8) {b : I2s.Act dac} {q : I2s.State dac}
    (hb : Hardware b) (hstep : I2s.step s.port b = some q) :
    ∃ a, (∀ n, a ≠ .read n) ∧ s.portAct a = some b ∧
      step beyond s a = some ⟨s.receiver,s.renderer,q⟩ := by
  have hgo : ∀ a, s.portAct a = some b → s.task beyond a = some (s.receiver,s.renderer) →
      step beyond s a = some ⟨s.receiver,s.renderer,q⟩ := by
    intro a hact htask
    simp [step,State.portStep,hact,hstep,htask]
  rcases hb with rfl | rfl | rfl | rfl | rfl
  · exact ⟨.fetch,nofun,rfl,hgo .fetch rfl rfl⟩
  · exact ⟨.interrupt,nofun,rfl,hgo .interrupt rfl rfl⟩
  · exact ⟨.isrDrop,nofun,rfl,hgo .isrDrop rfl rfl⟩
  · exact ⟨.isrSend,nofun,rfl,hgo .isrSend rfl rfl⟩
  · exact ⟨.isrClear,nofun,rfl,hgo .isrClear rfl rfl⟩

/-- The hardware moves while the task waits. -/
theorem serves_goes (r : Receiver) (ren : Renderer.State) {p q : I2s.State dac}
    (h : Serves p q) : Goes beyond ⟨r,ren,p⟩ ⟨r,ren,q⟩ := by
  intro junk wfx sampleRate input
  refine h.steps.lift (f := fun p => (⟨r,ren,p⟩ : State)) ?_
  intro u b v ⟨hb,htime⟩ hstep
  obtain ⟨a,_,hact,hgo⟩ := hardware_step (s := ⟨r,ren,u⟩) beyond hb hstep
  refine .one (a := a) ?_ hgo
  intro b' hb'
  rw [hact] at hb'
  cases hb'
  exact htime

/-- The next call sets no rate but the one of the stream, and the driver takes it. -/
theorem newRate_started (hc : s.renderer.call = some (argument beyond c,.entry))
    (hr : c.bufDesc.nSamplesPerSec = rate) (hclk : i2sSetClk .dacBuiltIn rate 16 = .started d) :
    s.newRate.map (i2sSetClk .dacBuiltIn · 16) = none ∧ s.renderer.sampleRate = rate ∨
    s.newRate.map (i2sSetClk .dacBuiltIn · 16) = some (.started d) ∧
      s.renderer.sampleRate ≠ rate := by
  have hdesc : (argument beyond c).bufDesc.nSamplesPerSec = rate := hr
  by_cases hsame : s.renderer.sampleRate = rate
  · refine .inl ⟨?_,hsame⟩
    simp [State.newRate,hc,hdesc,hsame]
  · refine .inr ⟨?_,hsame⟩
    simp [State.newRate,hc,hdesc,hsame,hclk]

theorem enter_task (hc : s.renderer.call = some (argument beyond c,.entry))
    (hr : c.bufDesc.nSamplesPerSec = rate) (hclk : i2sSetClk .dacBuiltIn rate 16 = .started d) :
    s.task beyond .enter =
      (Renderer.step s.renderer (.enter Renderer.espOk)).map (fun r => (s.receiver,r)) := by
  rcases newRate_started hc hr hclk with ⟨hnew,_⟩ | ⟨hnew,_⟩
  · simp only [State.task,hnew]
    cases Renderer.step s.renderer (.enter Renderer.espOk) <;> rfl
  · simp only [State.task,hnew]
    cases Renderer.step s.renderer (.enter Renderer.espOk) <;> rfl

theorem Steady.enter (hst : Steady rate s)
    (hc : s.renderer.call = some (argument beyond c,.entry)) (hf : Fit c)
    (hr : c.bufDesc.nSamplesPerSec = rate) (hclk : i2sSetClk .dacBuiltIn rate 16 = .started d)
    (h : step beyond s .enter = some t) : Steady rate t := by
  obtain ⟨hport,htask⟩ := SpeakerSound.step_parts h
  obtain ⟨r',hstep,hcall,hrate⟩ := enter_renderer hc hf Renderer.espOk
  rw [enter_task hc hr hclk,hstep] at htask
  obtain ⟨_,hrenderer⟩ := Prod.mk.inj (Option.some.inj htask)
  rw [hrenderer] at hcall hrate
  have hside : t.port.writing = none ∧ Begun t.port := by
    rcases hport with ⟨_,hport⟩ | ⟨b,hb,hport⟩
    · rw [hport]
      exact ⟨hst.writing,hst.begun⟩
    · simp only [State.portAct] at hb
      split at hb
      · cases hb
        simp only [I2s.step,Option.ite_none_right_eq_some,Option.some.injEq] at hport
        rw [← hport.2]
        exact ⟨hst.writing,hst.begun⟩
      · cases hb
  refine ⟨hside.1,?_,.inl (hrate.trans hr),hside.2⟩
  intro c' hc'
  rw [hcall] at hc'
  cases hc'

theorem push_writing (p : I2s.State dac) (w : Object dac.sampleSize) :
    (I2s.i2sPushSample p w).1.writing = p.writing := by
  unfold I2s.i2sPushSample
  cases hq : p.acquire with
  | none => rfl
  | some u =>
    change (u.store w.bytes).writing = p.writing
    rw [I2sStores.store_writing]
    cases I2sStores.acquire_acquired hq <;> rfl

theorem Steady.turn {n : UInt32} {k : Nat} (hst : Steady rate s)
    (hc : s.renderer.call = some (argument beyond c,.loop (loopAt n 2 k))) (hk : k ≤ n.toNat)
    (hs : s.renderer.rendererStatus = .initialized) (h : step beyond s .turn = some t) :
    Steady rate t := by
  obtain ⟨hport,htask⟩ := SpeakerSound.step_parts h
  obtain ⟨r',hr,htask⟩ := Option.bind_eq_some_iff.mp htask
  obtain ⟨_,rfl⟩ := Prod.mk.inj (Option.some.inj htask)
  have hset : s.renderer.sampleRate = rate :=
    hst.rate.resolve_right (fun hn => hn.2 _ _ hc)
  have hside : t.port.writing = none ∧ Begun t.port := by
    rcases hport with ⟨_,hport⟩ | ⟨b,hb,hport⟩
    · rw [hport]
      exact ⟨hst.writing,hst.begun⟩
    · obtain ⟨w,_,rfl⟩ := Option.map_eq_some_iff.mp hb
      simp only [I2s.step,Option.ite_none_right_eq_some,Option.some.injEq] at hport
      rw [← hport.2,push_writing]
      exact ⟨hst.writing,I2sProgress.push_begun hst.begun w⟩
  refine ⟨hside.1,?_,?_,hside.2⟩
  · intro c' hc'
    have hnext := SpeakerSound.turn_loop hc hk hs hr
    by_cases hlt : k < n.toNat
    · rw [if_pos hlt,hc'] at hnext
      cases hnext
    · rw [if_neg hlt,hc'] at hnext
      cases hnext
  · obtain ⟨r'',hr'',hrate⟩ := turn_renderer hc
      ((s.word.map (fun w => (I2s.i2sPushSample s.port w).2)).getD 0 : Nat)
    rw [hr] at hr''
    cases hr''
    exact .inl (hrate.trans hset)

/-- What a read leaves: the port as it is, and perhaps a new call. -/
theorem read_parts (h : step beyond s (.read v) = some t) :
    s.renderer.call = none ∧ t.port = s.port ∧
      (t.renderer = s.renderer ∨ ∃ c, t.renderer = { s.renderer with call := some (c,.entry) }) := by
  obtain ⟨hport,htask⟩ := SpeakerSound.step_parts h
  have hnone : s.renderer.call = none := by
    by_contra hc
    simp [State.task,Option.isSome_iff_ne_none.mpr hc] at htask
  refine ⟨hnone,?_,?_⟩
  · rcases hport with ⟨_,hport⟩ | ⟨b,hb,_⟩
    · exact hport
    · cases hb
  · simp only [State.task,hnone,Option.isSome_none,Bool.false_eq_true,if_false] at htask
    obtain ⟨receiver,_,htask⟩ := Option.bind_eq_some_iff.mp htask
    split at htask
    · obtain ⟨_,hrenderer⟩ := Prod.mk.inj (Option.some.inj htask)
      exact .inl hrenderer.symm
    · simp only [Renderer.step,hnone,Option.isNone_none,if_true,Option.bind_eq_bind,
        Option.bind_some,Option.pure_def,Option.some.injEq,Prod.mk.injEq] at htask
      exact .inr ⟨_,htask.2.symm⟩

theorem Steady.read (hst : Steady rate s) (h : step beyond s (.read v) = some t) :
    Steady rate t := by
  obtain ⟨hnone,hport,hrenderer⟩ := read_parts h
  have hcalls : t.renderer.sampleRate = s.renderer.sampleRate ∧
      ∀ c p, t.renderer.call = some (c,p) → p = .entry := by
    rcases hrenderer with hsame | ⟨c,hnew⟩
    · rw [hsame,hnone]
      exact ⟨rfl,fun c p hp => by cases hp⟩
    · rw [hnew]
      refine ⟨rfl,?_⟩
      intro c' p hp
      cases hp
      rfl
  obtain ⟨hrate,hentry⟩ := hcalls
  refine ⟨by rw [hport]; exact hst.writing,?_,?_,by rw [hport]; exact hst.begun⟩
  · intro c hc
    cases hentry c _ hc
  · rw [hrate,hport]
    refine hst.rate.imp_right (fun hn => ⟨hn.1,?_⟩)
    intro c l hc
    cases hentry c _ hc

theorem Steady.hardware {b : I2s.Act dac} (hst : Steady rate s) (hb : s.portAct a = some b)
    (hd : Hardware b) (htask : s.task beyond a = some (s.receiver,s.renderer))
    (h : step beyond s a = some t) : Steady rate t := by
  obtain ⟨hport,ht⟩ := SpeakerSound.step_parts h
  rw [htask] at ht
  obtain ⟨_,hrenderer⟩ := Prod.mk.inj (Option.some.inj ht)
  obtain ⟨b',hb',hstep⟩ := hport.resolve_left (by rintro ⟨hc,_⟩; rw [hb] at hc; cases hc)
  rw [hb,Option.some.injEq] at hb'
  subst b'
  have hsame := I2sProgress.hardware_untouched hd hstep
  refine ⟨hsame.writing.trans hst.writing,?_,?_,?_⟩
  · rw [← hrenderer]
    exact hst.sane
  · rw [← hrenderer,hsame.currPtr]
    exact hst.rate
  · unfold Begun
    rw [hsame.currPtr,hsame.rwPos]
    exact hst.begun

/-- All calls made are at the rate. -/
def AtRate (rate : UInt32) (s : State) : Prop :=
  ∀ c ∈ s.receiver.renders, c.bufDesc.nSamplesPerSec = rate

theorem step_steady (hst : Steady rate s) (hp : Progress beyond s)
    (hfit : ∀ c ∈ s.receiver.renders, Fit c) (hrate : AtRate rate s)
    (hclk : i2sSetClk .dacBuiltIn rate 16 = .started d)
    (hs : s.renderer.rendererStatus = .initialized) (htime : InTime s a)
    (h : step beyond s a = some t) : Steady rate t := by
  cases a with
  | read v => exact hst.read h
  | enter =>
    obtain ⟨c',hc'⟩ := SpeakerSound.enter_at_entry h
    cases hp with
    | idle call => rw [hc'] at call; cases call
    | loop _ call => rw [hc'] at call; cases call
    | trapped _ call => rw [hc'] at call; cases call
    | @entry done c renders call =>
      have hm : c ∈ s.receiver.renders := by rw [renders]; simp
      exact hst.enter call (hfit c hm) (hrate c hm) hclk h
  | turn =>
    obtain ⟨r',hr,_⟩ := Option.bind_eq_some_iff.mp (SpeakerSound.step_parts h).2
    obtain ⟨c',l',hc'⟩ := SpeakerSound.turn_inside hr
    cases hp with
    | idle call => rw [hc'] at call; cases call
    | entry _ call => rw [hc'] at call; cases call
    | trapped _ call => rw [hc'] at call; cases call
    | loop _ call bound => exact hst.turn call bound hs h
  | fetch => exact hst.hardware rfl (.inl rfl) rfl h
  | interrupt => exact hst.hardware rfl (.inr (.inl rfl)) rfl h
  | isrDrop => exact hst.hardware rfl (.inr (.inr (.inl rfl))) rfl h
  | isrSend => exact hst.hardware rfl (.inr (.inr (.inr (.inl rfl)))) rfl h
  | isrClear => exact hst.hardware rfl (.inr (.inr (.inr (.inr rfl)))) rfl h

/-- Messages that fit, of 16-bit stereo at one rate that the driver takes. -/
structure Playable (wfx : WaveFormatEx) (ms : List Message) (rate : UInt32) : Prop where
  sendable : ∀ m ∈ ms, Sendable m
  stereo : Stereo wfx ms
  single : ∀ o ∈ owed wfx ms, o.2.2.nSamplesPerSec = rate
  clock : ∃ d, i2sSetClk .dacBuiltIn rate 16 = .started d

structure Alive (format : WaveFormatEx) (beyond : Nat → UInt8) (ms : List Message) (rate : UInt32)
    (s : State) : Prop where
  whole : Whole format beyond ms s
  steady : Steady rate s

theorem Alive.atRate (h : Alive format beyond ms rate s) (hm : Playable format ms rate) :
    AtRate rate s := by
  intro c hc
  exact hm.single (handed c) ((h.whole.heeded.calls hm.sendable).subset (List.mem_map_of_mem hc))

theorem step_alive (hm : Playable format ms rate) (h : Alive format beyond ms rate s)
    (htime : InTime s a) (hstep : step beyond s a = some t) : Alive format beyond ms rate t := by
  obtain ⟨d,hclk⟩ := hm.clock
  have hfit := h.whole.fit hm.sendable hm.stereo
  exact ⟨SpeakerSound.step_whole hm.sendable hm.stereo h.whole htime hstep,
    step_steady h.steady h.whole.progress hfit (h.atRate hm) hclk h.whole.status htime hstep⟩

theorem goes_alive (hm : Playable format ms rate) (h : Alive format beyond ms rate s)
    (hgo : Goes beyond s t) : Alive format beyond ms rate t :=
  (hgo zeroStack bootWfx 0 []).keeps (P := fun _ t => Alive format beyond ms rate t) h
    (fun _ _ _ hu htime hstep => step_alive hm hu htime hstep)

/-- The word the loop is at. -/
def wordAt (beyond : Nat → UInt8) (c : RenderCall) (n : UInt32) (k : Nat) :
    Object dac.sampleSize :=
  ⟨le32 ((loopAt n 2 k).push (argument beyond c).buf 0).sample,length_le32 _⟩

/-- A turn of the loop can be brought to push its word. -/
theorem turn_goes {n : UInt32} {k : Nat} (h : Alive format beyond ms rate s)
    (ha : Apart s.port) (hc : s.renderer.call = some (argument beyond c,.loop (loopAt n 2 k)))
    (hlt : k < n.toNat) :
    ∃ t, Goes beyond s t ∧ Apart t.port ∧
      t.receiver = s.receiver ∧
      t.renderer.call = some (argument beyond c,.loop (loopAt n 2 (k + 1))) := by
  obtain ⟨_,_,ho⟩ := h.whole.ordered
  obtain ⟨q,hserves,u,hu,hapart⟩ := I2sProgress.push_served ho ha
  obtain ⟨_,ho'⟩ := hserves.ordered _ _ ho
  have hwriting : q.writing = none := hserves.untouched.writing.trans h.steady.writing
  have hmore := (loopAt_more (d := 2) (Nat.le_of_lt hlt)).mpr hlt
  have hword : State.word ⟨s.receiver,s.renderer,q⟩ = some (wordAt beyond c n k) := by
    simp only [State.word,hc,hmore,if_true]
    rfl
  have hpush : I2s.i2sPushSample q (wordAt beyond c n k) =
      (u.store (wordAt beyond c n k).bytes,dac.sampleSize) := by
    simp only [I2s.i2sPushSample,hu]
  obtain ⟨r',hr,_⟩ := turn_renderer hc dac.sampleSize
  have hstep : step beyond ⟨s.receiver,s.renderer,q⟩ .turn =
      some ⟨s.receiver,r',u.store (wordAt beyond c n k).bytes⟩ := by
    simp [step,State.portStep,State.portAct,State.task,hword,I2s.step,hwriting,hpush,hr]
  have htime : InTime ⟨s.receiver,s.renderer,q⟩ .turn := by
    intro b hb
    rw [State.portAct,hword] at hb
    cases hb
    intro u' hu'
    rw [hu] at hu'
    cases hu'
    exact hapart
  have hnext := SpeakerSound.turn_loop hc (Nat.le_of_lt hlt) h.whole.status hr
  have hsize : ¬ (dac.sampleSize : Int) = 0 := by decide
  rw [if_pos hlt,if_neg hsize] at hnext
  refine ⟨_,(serves_goes s.receiver s.renderer hserves).trans (.one htime hstep),?_,rfl,hnext⟩
  exact I2sProgress.store_apart ho'.safe hu hapart _

/-- The loop can be brought to its end. -/
theorem loop_goes {n : UInt32} {k : Nat} (hm : Playable format ms rate) (left : Nat)
    (hleft : k + left = n.toNat) (h : Alive format beyond ms rate s) (ha : Apart s.port)
    (hc : s.renderer.call = some (argument beyond c,.loop (loopAt n 2 k))) :
    ∃ t, Goes beyond s t ∧ Apart t.port ∧
      t.receiver = s.receiver ∧ t.renderer.call = none := by
  induction left generalizing s k with
  | zero =>
    have hk : ¬ k < n.toNat := by omega
    have hmore := loopAt_more (n := n) (k := k) (d := 2) (by omega)
    have hword : s.word = none := by
      simp only [State.word,hc,hmore,hk,if_false]
    obtain ⟨r',hr,_⟩ := turn_renderer hc 0
    have hstep : step beyond s .turn = some ⟨s.receiver,r',s.port⟩ := by
      simp [step,State.portStep,State.portAct,State.task,hword,hr]
    have htime : InTime s .turn := by
      intro b hb
      rw [State.portAct,hword] at hb
      cases hb
    have hnext := SpeakerSound.turn_loop hc (by omega) h.whole.status hr
    rw [if_neg hk] at hnext
    exact ⟨_,.one htime hstep,ha,rfl,hnext⟩
  | succ left ih =>
    obtain ⟨t,hgo,hapart,hreceiver,hcall⟩ :=
      turn_goes h ha hc (by omega)
    obtain ⟨u,hgo',hapart',hreceiver',hcall'⟩ :=
      ih (by omega) (goes_alive hm h hgo) hapart hcall
    exact ⟨u,hgo.trans hgo',hapart',hreceiver'.trans hreceiver,hcall'⟩

/-- A call can be brought into its loop; where it has to set the rate, the DMA comes to
the first buffer before. -/
theorem enter_goes (hm : Playable format ms rate) (h : Alive format beyond ms rate s)
    (ha : Apart s.port) (hc : s.renderer.call = some (argument beyond c,.entry))
    (hmem : c ∈ s.receiver.renders) :
    ∃ t, Goes beyond s t ∧ Apart t.port ∧ t.receiver = s.receiver ∧
      t.renderer.call = some (argument beyond c,.loop (loopAt (c.bufLen / 2 / 2) 2 0)) := by
  obtain ⟨d,hclk⟩ := hm.clock
  have hrate := h.atRate hm c hmem
  obtain ⟨r',hr,hcall,_⟩ :=
    enter_renderer hc (h.whole.fit hm.sendable hm.stereo c hmem) Renderer.espOk
  rcases newRate_started hc hrate hclk with ⟨hnew,_⟩ | ⟨hnew,hother⟩
  · have hact : s.portAct .enter = none := by simp only [State.portAct,hnew]
    have hstep : step beyond s .enter = some ⟨s.receiver,r',s.port⟩ := by
      simp [step,State.portStep,hact,enter_task hc hrate hclk,hr]
    have htime : InTime s .enter := by
      intro b hb
      rw [hact] at hb
      cases hb
    exact ⟨_,.one htime hstep,ha,rfl,hcall⟩
  · obtain ⟨hnone,_⟩ := h.steady.rate.resolve_left hother
    obtain ⟨_,_,ho⟩ := h.whole.ordered
    have hlt := s.port.desc.isLt
    obtain ⟨q,hserves,hfirst,heof,hisr⟩ :=
      I2sProgress.first_served (dac.dmaBufCount - s.port.desc.val) (by omega) ho hnone
    have hwriting : q.writing = none := hserves.untouched.writing.trans h.steady.writing
    have hptr : q.currPtr = none := hserves.untouched.currPtr.trans hnone
    have hact : State.portAct ⟨s.receiver,s.renderer,q⟩ .enter = some .setClk := by
      have hsame : State.newRate ⟨s.receiver,s.renderer,q⟩ = s.newRate := rfl
      simp only [State.portAct,hsame,hnew]
    have htask : State.task ⟨s.receiver,s.renderer,q⟩ beyond .enter = some (s.receiver,r') := by
      rw [enter_task (s := ⟨s.receiver,s.renderer,q⟩) hc hrate hclk]
      simp only [hr,Option.map_some]
    have hstep : step beyond ⟨s.receiver,s.renderer,q⟩ .enter = some ⟨s.receiver,r',
        { q with desc := dac.first, offset := 0, outEof := none, fetched := [] }⟩ := by
      simp [step,State.portStep,hact,htask,I2s.step,hisr,hwriting]
    have htime : InTime ⟨s.receiver,s.renderer,q⟩ .enter := by
      intro b hb
      rw [hact] at hb
      cases hb
      exact ⟨hfirst,heof⟩
    refine ⟨_,(serves_goes s.receiver s.renderer hserves).trans (.one htime hstep),?_,rfl,hcall⟩
    intro hsome
    change q.currPtr = _ at hsome
    rw [hptr] at hsome
    cases hsome

/-- The call under way can be brought to return. -/
theorem call_goes (hm : Playable format ms rate) (h : Alive format beyond ms rate s)
    (ha : Apart s.port) :
    ∃ t, Goes beyond s t ∧ Apart t.port ∧ t.receiver = s.receiver ∧ t.renderer.call = none := by
  cases h.whole.progress with
  | idle call => exact ⟨s,.refl s,ha,rfl,call⟩
  | trapped _ call => exact absurd call (h.steady.sane _)
  | loop _ call bound => exact loop_goes hm _ (Nat.add_sub_of_le bound) h ha call
  | entry renders call =>
    obtain ⟨t,hgo,hapart,hreceiver,hcall⟩ :=
      enter_goes hm h ha call (by rw [renders]; simp)
    obtain ⟨u,hgo',hapart',hreceiver',hnone⟩ :=
      loop_goes hm _ (Nat.zero_add _) (goes_alive hm h hgo) hapart hcall
    exact ⟨u,hgo.trans hgo',hapart',hreceiver'.trans hreceiver,hnone⟩

/-- A frame that opens as a header is one. -/
theorem header_opened {g : Frame}
    (h : le32 TcpCommand.sendHeader.code ++ rest = g.encode ++ more) :
    ∃ n body, body.length = (signed n).toNat ∧ rest = le32 n ++ (body ++ more) := by
  cases g with
  | other d neither => exact absurd (le32_append_inj h).1.symm neither.1
  | data n body fits =>
    simp only [Frame.encode,List.append_assoc] at h
    exact absurd (le32_append_inj h).1 (by decide)
  | header n body fits =>
    simp only [Frame.encode,List.append_assoc] at h
    exact ⟨n,body,fits,(le32_append_inj h).2⟩

theorem data_opened {g : Frame}
    (h : le32 TcpCommand.sendData.code ++ rest = g.encode ++ more) :
    ∃ n body, body.length = (signed n).toNat ∧ rest = le32 n ++ (body ++ more) := by
  cases g with
  | other d neither => exact absurd (le32_append_inj h).1.symm neither.2
  | header n body fits =>
    simp only [Frame.encode,List.append_assoc] at h
    exact absurd (le32_append_inj h).1 (by decide)
  | data n body fits =>
    simp only [Frame.encode,List.append_assoc] at h
    exact ⟨n,body,fits,(le32_append_inj h).2⟩

/-- A read inside of a complete frame has its bytes. -/
theorem frame_enough {task : Task} {g : Frame} (h : opened task ++ rest = g.encode ++ more) :
    task.wants ≤ rest.length := by
  cases hp : task.place with
  | command =>
    simp only [opened,hp,List.nil_append] at h
    rw [h]
    cases g <;> simp [Task.wants,Task.request,hp,Frame.encode]
  | headerLength =>
    simp only [opened,hp] at h
    obtain ⟨n,body,_,rfl⟩ := header_opened h
    simp [Task.wants,Task.request,hp]
  | dataLength =>
    simp only [opened,hp] at h
    obtain ⟨n,body,_,rfl⟩ := data_opened h
    simp [Task.wants,Task.request,hp]
  | header =>
    simp only [opened,hp,List.append_assoc] at h
    obtain ⟨n,body,fits,hrest⟩ := header_opened h
    obtain ⟨rfl,rfl⟩ := le32_append_inj hrest
    simp [Task.wants,Task.request,hp,fits]
  | data =>
    simp only [opened,hp,List.append_assoc] at h
    obtain ⟨n,body,fits,hrest⟩ := data_opened h
    obtain ⟨rfl,rfl⟩ := le32_append_inj hrest
    simp [Task.wants,Task.request,hp,fits]

/-- A receiver behind its last complete frame has used up the stream. -/
theorem opened_nil {task : Task} (h : opened task = []) : task.place = .command := by
  cases hp : task.place with
  | command => rfl
  | headerLength => simp [opened,hp,le32,leBytes] at h
  | header => simp [opened,hp,le32,leBytes] at h
  | dataLength => simp [opened,hp,le32,leBytes] at h
  | data => simp [opened,hp,le32,leBytes] at h

/-- Over the encoding of messages that fit, a read has its bytes until the end. -/
theorem read_enough {r : Receiver} (h : SpeakerSound.Heeded (encode ms) format r)
    (hs : ∀ m ∈ ms, Sendable m) :
    r.task.place = .command ∧ r.input = [] ∨ r.task.wants ≤ r.input.length := by
  obtain ⟨fs,⟨hi,_⟩,_⟩ := h
  obtain ⟨gs,hg,_⟩ := messages_frames hs
  obtain ⟨more,rfl⟩ := Framing.frames_prefix (hi.symm.trans hg.symm)
  have hrest : opened r.task ++ r.input = frames more := by
    rw [← hg,frames,List.flatMap_append] at hi
    exact (List.append_cancel_left hi).symm
  cases more with
  | nil =>
    obtain ⟨hopened,hinput⟩ := List.append_eq_nil_iff.mp hrest
    exact .inl ⟨opened_nil hopened,hinput⟩
  | cons g more => exact .inr (frame_enough hrest)

/-- How much a receiver has before it. -/
def ahead (r : Receiver) : Nat := r.input.length + if r.task.place = .command then 0 else 1

theorem read_ahead {r r' : Receiver} (h : Receiver.step r v = some r') : ahead r' < ahead r := by
  cases step_move h with
  | other spot arrived =>
    simp only [ahead,spot,arrived,List.length_append,length_le32,if_true]
    omega
  | openHeader spot arrived =>
    simp only [ahead,spot,arrived,List.length_append,length_le32,reduceCtorEq,if_true,if_false]
    omega
  | openData spot arrived =>
    simp only [ahead,spot,arrived,List.length_append,length_le32,reduceCtorEq,if_true,if_false]
    omega
  | headerLength spot arrived =>
    simp only [ahead,spot,arrived,List.length_append,length_le32,reduceCtorEq,if_false]
    omega
  | dataLength spot arrived =>
    simp only [ahead,spot,arrived,List.length_append,length_le32,reduceCtorEq,if_false]
    omega
  | header spot arrived =>
    simp only [ahead,spot,arrived,List.length_append,reduceCtorEq,if_true,if_false]
    omega
  | data spot arrived =>
    simp only [ahead,spot,arrived,List.length_append,reduceCtorEq,if_true,if_false]
    omega

/-- A read that has its bytes returns, between the calls. -/
theorem read_goes (hcall : s.renderer.call = none)
    (henough : s.receiver.task.wants ≤ s.receiver.input.length) :
    ∃ t, Goes beyond s t ∧ t.port = s.port ∧ ahead t.receiver < ahead s.receiver := by
  have hread : ∃ r, s.receiver.step 0 = some r := ⟨_,if_neg (Nat.not_lt.mpr henough)⟩
  obtain ⟨r,hr⟩ := hread
  have htask : ∃ ren, s.task beyond (.read 0) = some (r,ren) := by
    simp only [State.task,hcall,Option.isSome_none,Bool.false_eq_true,if_false,hr,
      Option.bind_eq_bind,Option.bind_some]
    cases r.renders.drop s.receiver.renders.length with
    | nil => exact ⟨s.renderer,rfl⟩
    | cons call calls =>
      exact ⟨{ s.renderer with call := some (argument beyond call,.entry) },
        by simp [Renderer.step,hcall]⟩
  obtain ⟨ren,hren⟩ := htask
  have hstep : step beyond s (.read 0) = some ⟨r,ren,s.port⟩ := by
    simp [step,State.portStep,State.portAct,hren]
  have htime : InTime s (.read 0) := by
    intro b hb
    cases hb
  exact ⟨_,.one htime hstep,rfl,read_ahead hr⟩

/-- All that is left can be read and played. -/
theorem rest_goes (hm : Playable format ms rate) (n : Nat) (hn : ahead s.receiver < n)
    (h : Alive format beyond ms rate s) (ha : Apart s.port) :
    ∃ t, Goes beyond s t ∧ t.receiver.task.place = .command ∧ t.receiver.input = [] ∧
      t.renderer.call = none := by
  induction n generalizing s with
  | zero => exact absurd hn (Nat.not_lt_zero _)
  | succ n ih =>
    obtain ⟨t,hgo,hapart,hreceiver,hnone⟩ := call_goes hm h ha
    have ht := goes_alive hm h hgo
    rcases read_enough ht.whole.heeded hm.sendable with ⟨hplace,hinput⟩ | henough
    · exact ⟨t,hgo,hplace,hinput,hnone⟩
    · obtain ⟨u,hgo',hport,hless⟩ := read_goes hnone henough
      rw [hreceiver] at hless
      obtain ⟨v,hgo'',hend⟩ := ih (by omega) (goes_alive hm ht hgo') (by rw [hport]; exact hapart)
      exact ⟨v,(hgo.trans hgo').trans hgo'',hend⟩

theorem run_alive (hm : Playable (defaultWfx wfx) ms rate)
    (h : (speaker junk wfx beyond sampleRate (encode ms)).Run InTime acts s) :
    Alive (defaultWfx wfx) beyond ms rate s := by
  refine System.Run.invariant ?_ (fun s a t ha htime ht => step_alive hm ha htime ht) h
  refine ⟨SpeakerSound.run_whole hm.sendable hm.stereo .start,rfl,?_,.inr ⟨rfl,?_⟩,
    fun hptr => absurd rfl hptr⟩
  · intro c hc
    cases hc
  · intro c l hc
    cases hc

/-- Once the DMA is in the buffer the task has begun, it stays so. -/
theorem step_stuck (hn : ¬ Apart s.port) (htime : InTime s a) (hstep : step beyond s a = some t) :
    ¬ Apart t.port ∧ t.port.pushed = s.port.pushed := by
  rcases (SpeakerSound.step_parts hstep).1 with ⟨_,hport⟩ | ⟨b,hb,hport⟩
  · rw [hport]
    exact ⟨hn,rfl⟩
  · exact I2sProgress.step_stuck hn (htime b hb) hport

theorem run_stuck (h : (speaker junk wfx beyond sampleRate input).Run InTime acts s)
    (ht : (speaker junk wfx beyond sampleRate input).Run InTime (acts ++ more) t)
    (hn : ¬ Apart s.port) : t.port.pushed = s.port.pushed := by
  refine ((h.rest ht).keeps
    (P := fun s t => ¬ Apart t.port ∧ t.port.pushed = s.port.pushed) ⟨hn,rfl⟩ ?_).2
  intro u a v hu htime hstep
  obtain ⟨hv,hsame⟩ := step_stuck hu.1 htime hstep
  exact ⟨hv,hsame.trans hu.2⟩

/-- What the messages are to sound like. -/
def audio (wfx : WaveFormatEx) (ms : List Message) : List UInt8 :=
  (owed wfx ms).flatMap (fun o => dacBytes o.1)

/-- All that is left can be pushed in time while the DMA is not in the buffer the task has
begun. -/
theorem rest_pushed (hm : Playable (defaultWfx wfx) ms rate)
    (h : (speaker junk wfx beyond sampleRate (encode ms)).Run InTime acts s) (ha : Apart s.port) :
    ∃ more t, (speaker junk wfx beyond sampleRate (encode ms)).Run InTime (acts ++ more) t ∧
      t.port.pushed = audio (defaultWfx wfx) ms := by
  obtain ⟨t,hgo,hplace,hinput,hnone⟩ :=
    rest_goes hm _ (Nat.lt_succ_self _) (run_alive hm h) ha
  obtain ⟨more,ht⟩ := h.goesOn (hgo _ _ _ _)
  refine ⟨more,t,ht,?_⟩
  exact (SpeakerSound.run_whole hm.sendable hm.stereo ht).finished hm.sendable hplace hinput hnone

/-- The speaker never hangs: at every point of an in-time run over 16-bit stereo of one
rate, all that is left can still be pushed in time exactly when the DMA is not in the
buffer the task has begun, or nothing is left. -/
theorem rest_playable_iff (hm : Playable (defaultWfx wfx) ms rate)
    (h : (speaker junk wfx beyond sampleRate (encode ms)).Run InTime acts s) :
    (∃ more t, (speaker junk wfx beyond sampleRate (encode ms)).Run InTime (acts ++ more) t ∧
      t.port.pushed = audio (defaultWfx wfx) ms) ↔
    Apart s.port ∨ s.port.pushed = audio (defaultWfx wfx) ms := by
  constructor
  · rintro ⟨more,t,ht,hall⟩
    by_cases hn : Apart s.port
    · exact .inl hn
    · exact .inr ((run_stuck h ht hn).symm.trans hall)
  · rintro (ha | hall)
    · exact rest_pushed hm h ha
    · exact ⟨[],s,by rwa [List.append_nil],hall⟩

/-- The port has all of the sound, which is of whole buffers, and the DMA has fetched
every block of it, in order. -/
structure PlayedOut (p : I2s.State dac) (audio : List UInt8) : Prop where
  pushed : p.pushed = audio
  played : ∃ due : List Nat, due.Pairwise (· < ·) ∧ due.length * 256 = audio.length ∧
    ∀ k d : Nat, due[k]? = some d → p.played[d]? = some ((audio.drop (k * 256)).take 256)

/-- All of the sound can be played, where it makes up whole buffers, exactly when the DMA
is not in the buffer the task has begun. -/
theorem rest_played_iff (hm : Playable (defaultWfx wfx) ms rate)
    (hwhole : 256 ∣ (audio (defaultWfx wfx) ms).length)
    (h : (speaker junk wfx beyond sampleRate (encode ms)).Run InTime acts s) :
    (∃ more t, (speaker junk wfx beyond sampleRate (encode ms)).Run InTime (acts ++ more) t ∧
      PlayedOut t.port (audio (defaultWfx wfx) ms)) ↔ Apart s.port := by
  constructor
  · rintro ⟨more,t,ht,hout⟩
    by_contra hn
    have hpushed := (run_stuck h ht hn).symm.trans hout.pushed
    obtain ⟨n,due,ho⟩ := (run_alive hm h).whole.ordered
    apply hn
    intro hptr
    rcases I2sProgress.filled ho (run_alive hm h).steady.begun (by rw [hpushed]; exact hwhole) with
      rfl | ⟨hfull,_⟩
    · rw [ho.plan.ptr] at hptr
      cases hptr
    · exact hfull
  · intro ha
    obtain ⟨more,t,ht,hpushed⟩ := rest_pushed hm h ha
    have halive := run_alive hm ht
    obtain ⟨n,due,ho⟩ := halive.whole.ordered
    rcases I2sProgress.filled ho halive.steady.begun (by rw [hpushed]; exact hwhole) with
      rfl | ⟨hfull,hlength⟩
    · have hnil : audio (defaultWfx wfx) ms = [] := hpushed.symm.trans (ho.plan.unused rfl)
      exact ⟨more,t,ht,hpushed,[],.nil,by rw [hnil]; rfl,by intro k d hk; cases hk⟩
    · obtain ⟨q,hserves,hplayed⟩ := I2sProgress.blocks_served ho hfull
      obtain ⟨more',hu⟩ := ht.goesOn (serves_goes t.receiver t.renderer hserves _ _ _ _)
      rw [List.append_assoc] at hu
      refine ⟨_,_,hu,hserves.untouched.pushed.trans hpushed,due,ho.plan.sorted,?_,?_⟩
      · rw [← hpushed,← hlength]
        rfl
      · intro k d hk
        rw [← hpushed]
        exact hplayed k d hk

end

theorem playable_frame : Playable (defaultWfx bootWfx) [.data [1,2,3,4]] 48000 := by
  refine ⟨?_,?_,?_,⟨_,rfl⟩⟩
  · intro m hm
    obtain rfl := List.mem_singleton.mp hm
    exact (by decide : 4 ≤ sizeofBuffer)
  · intro o ho
    obtain rfl := List.mem_singleton.mp ho
    exact ⟨rfl,rfl⟩
  · intro o ho
    obtain rfl := List.mem_singleton.mp ho
    rfl

/-- From the start, where the rate is still another one. -/
theorem rest_playable_frame :
    ∃ acts s, (speaker zeroStack bootWfx (fun _ => 0) 44100 (encode [.data [1,2,3,4]])).Run
      InTime acts s ∧ s.port.pushed = [3,0x84,1,0x82] := by
  have hstart : (speaker zeroStack bootWfx (fun _ => 0) 44100 (encode [.data [1,2,3,4]])).Run
      InTime [] _ := .start
  obtain ⟨acts,s,hs,hpushed⟩ := (rest_playable_iff playable_frame hstart).mpr
    (.inl (fun hptr => by cases hptr))
  exact ⟨_,s,hs,hpushed⟩

end WifiSpeaker.Proofs.SpeakerProgress
