import WifiSpeaker.I2sClock
import WifiSpeaker.Renderer

namespace WifiSpeaker.Proofs.SampleRate
open Common Wire Renderer
open RenderSamples (Place Push)
open WifiSpeaker.I2sClock (i2sSetClk)

/-- The renderer knows the rate of the hardware: a descriptor with another rate is
handed to the driver, and every word was pushed at the rate it knows. -/
structure Remembered (s : State) : Prop where
  real : hardwareRate s.rates = some s.sampleRate
  tried : ∀ c ret t, s.call = some (c,.entry) →
    hardwareRate s.rates ≠ some c.bufDesc.nSamplesPerSec → step s (.enter ret) = some t →
      t.rates = s.rates ++ [(c.bufDesc.nSamplesPerSec,ret)]
  pushed : ∀ p ∈ s.played, p.hardware = some p.remembered

/-- No rate has been refused. -/
def AllSet (s : State) : Prop := ∀ call ∈ s.rates, call.2 = espOk

/-- Everything a step can do to what the renderer remembers. -/
inductive Move (s : State) : State → Prop
  | calls (c : Call) : Move s { s with call := some (c,.entry) }
  | keeps (call : Option (Call × Place)) : Move s { s with call := call }
  | changes (c : Call) (call : Option (Call × Place)) (ret : Int)
      (other : s.sampleRate ≠ c.bufDesc.nSamplesPerSec) :
      Move s { s with
        call := call, sampleRate := c.bufDesc.nSamplesPerSec
        rates := s.rates ++ [(c.bufDesc.nSamplesPerSec,ret)] }
  | pushes (call : Option (Call × Place)) (push : Push) :
      Move s { s with
        call := call, played := s.played ++ [⟨hardwareRate s.rates,s.sampleRate,push⟩] }

/-- The rate is looked at once, in front of everything else. -/
theorem enter_effect (h : RenderSamples.step buf bufLen bufDesc ⟨rate,.entry,[],[],[]⟩
    (.enter ret) = some r) :
    ∃ place, r = { RenderSamples.State.changeRate ⟨rate,.entry,[],[],[]⟩ bufDesc ret with
      place := place } := by
  simp only [RenderSamples.step] at h
  split at h
  · exact ⟨_,(Option.some.inj h).symm⟩
  · split at h
    · exact ⟨_,(Option.some.inj h).symm⟩
    · exact ⟨_,(Option.some.inj h).symm⟩

/-- A descriptor with the remembered rate leaves the rate alone. -/
theorem enter_same (h : RenderSamples.step buf bufLen bufDesc ⟨rate,.entry,[],[],[]⟩ (.enter ret) =
    some r) (hr : rate = bufDesc.nSamplesPerSec) :
    r.sampleRate = rate ∧ r.rates = [] ∧ r.pushes = [] := by
  obtain ⟨place,rfl⟩ := enter_effect h
  simp [RenderSamples.State.changeRate,hr]

/-- Another rate is handed to the driver and remembered, whatever it answers. -/
theorem enter_other (h : RenderSamples.step buf bufLen bufDesc ⟨rate,.entry,[],[],[]⟩ (.enter ret) =
    some r) (hr : rate ≠ bufDesc.nSamplesPerSec) :
    r.sampleRate = bufDesc.nSamplesPerSec ∧ r.rates = [(bufDesc.nSamplesPerSec,ret)] ∧
      r.pushes = [] := by
  obtain ⟨place,rfl⟩ := enter_effect h
  simp [RenderSamples.State.changeRate,hr]

/-- A turn of the loop pushes one word or none. -/
theorem turn_effect (h : RenderSamples.step buf bufLen bufDesc ⟨rate,place,[],[],[]⟩
    (.turn status bytesPushed) = some r) :
    r.sampleRate = rate ∧ r.rates = [] ∧ (r.pushes = [] ∨ ∃ push, r.pushes = [push]) := by
  simp only [RenderSamples.step] at h
  split at h
  · cases h
    unfold RenderSamples.State.turn
    split_ifs
    · exact ⟨rfl,rfl,.inl rfl⟩
    · exact ⟨rfl,rfl,.inr ⟨_,rfl⟩⟩
    · exact ⟨rfl,rfl,.inl rfl⟩
  · cases h

/-- Only the entry of a call takes the result of the driver. -/
theorem enter_place (h : RenderSamples.step buf bufLen bufDesc ⟨rate,place,[],[],[]⟩ (.enter ret) =
    some r) : place = .entry := by
  cases place with
  | entry => rfl
  | loop | returned | trapped => simp [RenderSamples.step] at h

/-- A step inside a call is a step of `render_samples` on the remembered rate. -/
theorem step_call (ha : s.act a = some act) (h : step s a = some t) : ∃ c place r,
    s.call = some (c,place) ∧
    RenderSamples.step c.buf c.bufLen c.bufDesc ⟨s.sampleRate,place,[],[],[]⟩ act = some r ∧
    t = s.after c r := by
  cases a with
  | renderSamples c => cases ha
  | enter ret | turn bytesPushed =>
    obtain ⟨⟨c,place⟩,hcall,h⟩ := Option.bind_eq_some_iff.mp h
    simp only [ha,Option.bind_eq_bind,Option.bind_some] at h
    obtain ⟨r,hr,h⟩ := Option.bind_eq_some_iff.mp h
    cases h
    exact ⟨c,place,r,hcall,hr,rfl⟩

theorem step_move (h : step s a = some t) : Move s t := by
  cases a with
  | renderSamples c =>
    simp only [step,Option.ite_none_right_eq_some,Option.some.injEq] at h
    obtain ⟨-,rfl⟩ := h
    exact .calls c
  | enter ret =>
    obtain ⟨c,place,r,-,hr,rfl⟩ := step_call (a := .enter ret) rfl h
    cases enter_place hr
    by_cases hrate : s.sampleRate = c.bufDesc.nSamplesPerSec
    · obtain ⟨h1,h2,h3⟩ := enter_same hr hrate
      simp only [State.after,h1,h2,h3,List.map_nil,List.append_nil]
      exact .keeps _
    · obtain ⟨h1,h2,h3⟩ := enter_other hr hrate
      simp only [State.after,h1,h2,h3,List.map_nil,List.append_nil]
      exact .changes c _ ret hrate
  | turn bytesPushed =>
    obtain ⟨c,place,r,-,hr,rfl⟩ := step_call (a := .turn bytesPushed) rfl h
    obtain ⟨h1,h2,h3 | ⟨push,h3⟩⟩ := turn_effect hr
    · simp only [State.after,h1,h2,h3,List.map_nil,List.append_nil]
      exact .keeps _
    · simp only [State.after,h1,h2,h3,List.map_cons,List.map_nil,List.append_nil]
      exact .pushes _ push

/-- The last accepted rate is the one the hardware is at. -/
theorem hardwareRate_set (rates : List (UInt32 × Int)) (rate : UInt32) :
    hardwareRate (rates ++ [(rate,espOk)]) = some rate := by
  simp [hardwareRate]

theorem hardwareRate_refused (rates : List (UInt32 × Int)) (rate : UInt32) (hr : ret ≠ espOk) :
    hardwareRate (rates ++ [(rate,ret)]) = hardwareRate rates := by
  simp [hardwareRate,hr]

/-- A rate the hardware is not at is tried, as long as the renderer knows the rate. -/
theorem remembered_of (hreal : hardwareRate s.rates = some s.sampleRate)
    (hpushed : ∀ p ∈ s.played, p.hardware = some p.remembered) : Remembered s := by
  refine ⟨hreal,?_,hpushed⟩
  intro c ret t hcall hother ht
  have hrate : s.sampleRate ≠ c.bufDesc.nSamplesPerSec := by
    intro he
    rw [hreal,he] at hother
    exact hother rfl
  obtain ⟨c',place,r,hcall',hr,rfl⟩ := step_call (a := .enter ret) rfl ht
  cases hcall.symm.trans hcall'
  simp only [State.after,(enter_other hr hrate).2.1]

/-- A step that is not refused a rate keeps the renderer informed; a refusal is
forgotten at once. -/
theorem step_remembered (h : Remembered s) (ht : step s a = some t) :
    (AllSet t → Remembered t) ∧ (AllSet s → ¬ AllSet t → ¬ Remembered t) := by
  cases step_move ht with
  | calls c | keeps call =>
    refine ⟨fun _ => remembered_of h.real h.pushed,?_⟩
    intro hall hnot
    exact absurd hall hnot
  | pushes call push =>
    refine ⟨?_,fun hall hnot => absurd hall hnot⟩
    intro _
    refine remembered_of h.real ?_
    intro p hp
    rcases List.mem_append.mp hp with hp | hp
    · exact h.pushed p hp
    · cases List.mem_singleton.mp hp
      exact h.real
  | changes c call ret other =>
    constructor
    · intro hall
      have hok : ret = espOk := hall (_,ret) (List.mem_append_right _ (List.mem_singleton_self _))
      subst hok
      exact remembered_of (hardwareRate_set _ _) h.pushed
    · intro hall hnot hrem
      have hrefused : ret ≠ espOk := by
        rintro rfl
        apply hnot
        intro call hm
        rcases List.mem_append.mp hm with hm | hm
        · exact hall call hm
        · cases List.mem_singleton.mp hm
          rfl
      have hreal := hrem.real
      rw [hardwareRate_refused _ _ hrefused,h.real] at hreal
      exact other (Option.some.inj hreal)

/-- The calls of the driver that are logged stay logged. -/
theorem allSet_before (ht : step s a = some t) (h : AllSet t) : AllSet s := by
  cases step_move ht with
  | calls | keeps | pushes => exact h
  | changes =>
    intro call hm
    exact h call (List.mem_append_left _ hm)

/-- A run that is refused nothing was refused nothing on its way. -/
theorem run_allSet (h : (system rate).Run ok acts s) (hall : AllSet s) (hp : before <+: acts)
    (ht : (system rate).Run ok before t) : AllSet t := by
  induction h with
  | start =>
    cases List.prefix_nil.mp hp
    have hstart : (system rate).Run ok [] (system rate).init := .start
    rw [ht.unique hstart]
    exact hall
  | next h hc hs ih =>
    rcases List.prefix_concat_iff.mp hp with rfl | hp
    · rw [ht.unique (h.next hc hs)]
      exact hall
    · exact ih (allSet_before hs hall) hp

theorem init_remembered (rate : UInt32) : Remembered (system rate).init := by
  apply remembered_of
  · exact hardwareRate_set [] rate
  · intro p hp
    cases hp

/-- Until the first refusal the renderer knows the rate. -/
theorem run_remembered (h : (system rate).Run ok acts s) (hall : AllSet s) : Remembered s := by
  induction h with
  | start => exact init_remembered rate
  | next _ _ ht ih => exact (step_remembered (ih (allSet_before ht hall)) ht).1 hall

/-- The first refusal leaves a state in which the renderer is wrong. -/
theorem run_refused (h : (system rate).Run (fun _ _ => True) acts s) (hnot : ¬ AllSet s) :
    ∃ before t, before <+: acts ∧ (system rate).Run (fun _ _ => True) before t ∧
      ¬ Remembered t := by
  induction h with
  | start =>
    exfalso
    apply hnot
    intro call hm
    cases List.mem_singleton.mp hm
    rfl
  | @next acts s a t h hc ht ih =>
    by_cases hall : AllSet s
    · have hrem := run_remembered h hall
      exact ⟨_,t,List.prefix_refl _,h.next hc ht,(step_remembered hrem ht).2 hall hnot⟩
    · obtain ⟨before,u,hp,hu,hwrong⟩ := ih hall
      exact ⟨before,u,hp.trans (List.prefix_append _ _),hu,hwrong⟩

/-- The remembered rate is the real one all along a run exactly when the driver
refuses no rate it is asked for. -/
theorem rate_remembered_iff (h : (system rate).Run (fun _ _ => True) acts s) :
    (∀ before t, before <+: acts → (system rate).Run (fun _ _ => True) before t → Remembered t) ↔
      ∀ call ∈ s.rates, call.2 = espOk := by
  constructor
  · intro hall
    by_contra hnot
    obtain ⟨before,t,hp,ht,hwrong⟩ := run_refused h hnot
    exact hwrong (hall before t hp ht)
  · intro hset before t hp ht
    apply run_remembered ht
    exact run_allSet h hset hp ht

/-- Two frames of silence at the given rate. -/
def silence (rate : UInt32) : Call := ⟨fun _ => 0,8,⟨1,2,rate,0,4,16,0,0⟩⟩

/-- A call at the given rate, the answer of the driver, and one word of it. -/
def firstWord (rate : UInt32) (ret : Int) : List Act :=
  [.renderSamples (silence rate),.enter ret,.turn 4]

/-- What matters of a state: the remembered rate, the calls of the driver and the
rates at which words were pushed. -/
def view (s : State) : UInt32 × List (UInt32 × Int) × List (Option UInt32 × UInt32) :=
  (s.sampleRate,s.rates,s.played.map (fun p => (p.hardware,p.remembered)))

/-- 100 Hz is refused, remembered all the same, and never tried again: the word is
pushed at 44.1 kHz. -/
theorem refused_rate_remembered :
    i2sSetClk .dacBuiltIn 100 16 = .refused ∧
    ¬ ∀ rate acts s, (system rate).Run (fun _ _ => True) acts s → Remembered s := by
  refine ⟨by decide,?_⟩
  intro hall
  have hrun : ((system 44100).exec (fun _ _ => True) (system 44100).init
      (firstWord 100 espFail)).map view =
        some (100,[(44100,espOk),(100,espFail)],[(some 44100,100)]) := by decide +kernel
  obtain ⟨s,hs,he⟩ := Option.map_eq_some_iff.mp hrun
  simp only [view,Prod.mk.injEq] at he
  obtain ⟨hrate,hrates,-⟩ := he
  have hreal := (hall _ _ _ (System.run_of_exec hs)).real
  rw [hrate,hrates] at hreal
  exact absurd hreal (by decide)

/-- 48 kHz is accepted, and the word is pushed at the rate remembered. -/
theorem accepted_rate_remembered :
    ∃ s, (system 44100).Run (fun _ _ => True) (firstWord 48000 espOk) s ∧
      s.sampleRate = 48000 ∧ s.played.length = 1 ∧ Remembered s := by
  have hrun : ((system 44100).exec (fun _ _ => True) (system 44100).init
      (firstWord 48000 espOk)).map view =
        some (48000,[(44100,espOk),(48000,espOk)],[(some 48000,48000)]) := by decide +kernel
  obtain ⟨s,hs,he⟩ := Option.map_eq_some_iff.mp hrun
  simp only [view,Prod.mk.injEq] at he
  obtain ⟨hrate,hrates,hplayed⟩ := he
  have hr := System.run_of_exec hs
  refine ⟨s,hr,hrate,?_,(rate_remembered_iff hr).mpr ?_ _ _ (List.prefix_refl _) hr⟩
  · simpa using congrArg List.length hplayed
  · rw [hrates]
    decide

end WifiSpeaker.Proofs.SampleRate
