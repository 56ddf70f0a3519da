import WifiSpeaker.AudioPlayer
import WifiSpeaker.Proofs.FifoSteps
import WifiSpeaker.Proofs.RenderWords

namespace WifiSpeaker.Proofs.Playback
open Common Wire AudioPlayer
open SpiRamFifo hiding State Act step system
open RenderAudio hiding Act
open RenderSamples (ComponentStatus)
open FifoSteps RenderWords

/-- Every call that returned 0 with a fill level above the minimum left exactly
one `render_audio` task alive. -/
def Playing (s : State) : Prop :=
  ∀ r ∈ s.returns, r.value = 0 →
    ∀ level, r.fillLevel = some level → level > minFillLvl → r.alive = 1

/-- The call has found enough in the FIFO. -/
def found : Consumer → Bool
  | .check bytesInBuf => enoughBuffer bytesInBuf
  | .create bytesInBuf => enoughBuffer bytesInBuf
  | .created bytesInBuf => enoughBuffer bytesInBuf
  | .done bytesInBuf => enoughBuffer bytesInBuf
  | _ => false

/-- The step of the task passes the `break` at the end of the data. -/
def Leaves (t : Task) (s : Shared) (a : RenderAudio.Act) : Prop :=
  t.alive = true ∧ ∃ out, t.step s a = some out ∧ out.task.alive = false

/-- No call finds enough in the FIFO once a task has left its loop, and no task
leaves it while a call that has found enough is under way. -/
def Kept (s : State) : Act → Prop
  | .consumer =>
    s.consumer = .fill → enoughBuffer s.shared.fifo.fifoFill = true → ∀ t ∈ s.tasks, t.alive = true
  | .task i a => found s.consumer = true → ∀ t, s.tasks[i]? = some t → ¬ Leaves t s.shared a
  | _ => True

/-- The places of a call before it has asked for the fill. -/
def early : Consumer → Bool
  | .idle | .entry _ _ | .stopped | .write _ | .fill => true
  | _ => false

/-- Everything one step of the player can do. -/
inductive Move (s : State) : Act → State → Prop
  | aside (spot : c = s.consumer ∨ (early s.consumer = true ∧ early c = true)) :
      Move s a { s with shared := sh, command := k, consumer := c }
  | stopped (spot : s.consumer = .stopped) :
      Move s .consumer
        { s with
          decoderCommand := .stop, command := .none, consumer := .idle
          returns := s.returns ++ [⟨-1,none,s.alive⟩] }
  | fill (spot : s.consumer = .fill) :
      Move s .consumer { s with consumer := .check s.shared.fifo.fifoFill }
  | starts (spot : s.consumer = .check b) (not : s.decoderStatus ≠ .running)
      (enough : enoughBuffer b = true) : Move s .consumer { s with consumer := .create b }
  | goesOn (spot : s.consumer = .check b)
      (either : s.decoderStatus = .running ∨ enoughBuffer b = false) :
      Move s .consumer { s with consumer := .done b }
  | created (spot : s.consumer = .create b) :
      Move s (.xTaskCreate (some stack))
        { s with consumer := .created b, tasks := s.tasks ++ [renderAudio stack] }
  | fails (spot : s.consumer = .create b) :
      Move s (.xTaskCreate none)
        { s with
          consumer := .idle, logs := logs
          returns := s.returns ++ [⟨-1,some (fillLevel b),s.alive⟩] }
  | running (spot : s.consumer = .created b) :
      Move s .consumer { s with consumer := .done b, decoderStatus := .running, logs := logs }
  | done (spot : s.consumer = .done b) :
      Move s .consumer
        { s with
          t := n, consumer := .idle, logs := logs
          returns := s.returns ++ [⟨0,some (fillLevel b),s.alive⟩] }
  | task (there : s.tasks[i]? = some t) (ht : t.step s.shared a = some out) :
      Move s (.task i a) { s with shared := out.shared, tasks := s.tasks.set i out.task }

theorem consumer_move (h : s.audioStreamConsumer = some s') : Move s .consumer s' := by
  unfold State.audioStreamConsumer at h
  split at h
  · cases h
  · rename_i hp
    split_ifs at h
    · cases h
      exact .aside (.inr ⟨by rw [hp]; rfl,rfl⟩)
    · cases h
      exact .aside (.inr ⟨by rw [hp]; rfl,rfl⟩)
    · cases h
      exact .aside (.inr ⟨by rw [hp]; rfl,rfl⟩)
  · rename_i hp
    cases h
    exact .stopped hp
  · rename_i hp
    cases h
    exact .aside (.inr ⟨by rw [hp]; rfl,rfl⟩)
  · rename_i hp
    obtain ⟨⟨fifo,w',events⟩,-,h⟩ := Option.bind_eq_some_iff.mp h
    cases h
    exact .aside (.inr ⟨by rw [hp]; rfl,rfl⟩)
  · rename_i hp
    split at h
    · cases h
      exact .fill hp
    · cases h
  · rename_i b hp
    split at h
    · rename_i hc
      cases h
      exact .starts hp hc.1 hc.2
    · rename_i hc
      cases h
      apply Move.goesOn hp
      by_cases hr : s.decoderStatus = .running
      · exact .inl hr
      · exact .inr (by simpa [hr] using hc)
  · cases h
  · rename_i hp
    cases h
    exact .running hp
  · rename_i hp
    cases h
    exact .done hp

theorem step_move (h : step s a = some s') : Move s a s' := by
  cases a with
  | call recvBuf bytesRead =>
    simp only [step,Option.ite_none_right_eq_some,Option.some.injEq] at h
    obtain ⟨⟨hp,-⟩,rfl⟩ := h
    exact .aside (.inr ⟨by rw [hp]; rfl,rfl⟩)
  | audioPlayerStop =>
    cases h
    exact .aside (.inl rfl)
  | format wfx =>
    cases h
    exact .aside (.inl rfl)
  | consumer => exact consumer_move h
  | xTaskCreate stack =>
    simp only [step,State.xTaskCreate] at h
    split at h
    · rename_i hp
      cases stack with
      | some stack =>
        cases h
        exact .created hp
      | none =>
        cases h
        exact .fails hp
    · cases h
  | task i a =>
    obtain ⟨t,ht,h⟩ := Option.bind_eq_some_iff.mp h
    obtain ⟨out,hout,h⟩ := Option.bind_eq_some_iff.mp h
    cases h
    exact .task ht hout

/-- A task that has passed the `break` stays behind it. -/
theorem not_revived (h : Task.step t sh a = some out) (hd : t.alive = false) :
    out.task.alive = false := by
  cases hp : t.place with
  | read r filled => simp [Task.alive,hp,Place.alive] at hd
  | render part call => simp [Task.alive,hp,Place.alive] at hd
  | deleted => cases a <;> simp [Task.step,hp] at h
  | reset r =>
    cases a with
    | samples a => simp [Task.step,hp] at h
    | fifo =>
      simp only [Task.step,hp] at h
      obtain ⟨⟨fifo,r',events⟩,-,h⟩ := Option.bind_eq_some_iff.mp h
      cases h
      simp only [Task.alive]
      split_ifs <;> rfl

/-- The player has created a task, which is what `RUNNING` says, or it has not. -/
def Single (s : State) : Prop :=
  (s.decoderStatus = .running ∧ s.tasks.length = 1) ∨
    (s.decoderStatus ≠ .running ∧ s.tasks.length = 0)

/-- What a call knows of the tasks at its place. -/
def Started (s : State) : Prop :=
  match s.consumer with
  | .create _ => s.decoderStatus ≠ .running ∧ s.tasks.length = 0
  | .created _ => s.tasks.length = 1
  | .done bytesInBuf => (enoughBuffer bytesInBuf = true → s.decoderStatus = .running) ∧ Single s
  | _ => Single s

theorem Started.early (h : Started s) (hp : early s.consumer = true) : Single s := by
  unfold Started at h
  unfold Playback.early at hp
  cases hc : s.consumer <;> simp_all

theorem Started.at (h : Single s) (hp : Playback.early s.consumer = true) : Started s := by
  unfold Started
  unfold Playback.early at hp
  cases hc : s.consumer <;> simp_all

theorem step_started (h : Started s) (ht : step s a = some s') : Started s' := by
  cases step_move ht with
  | aside spot =>
    rcases spot with rfl | ⟨hp,hp'⟩
    · exact h
    · exact .at (h.early hp) hp'
  | stopped spot => exact .at (h.early (by rw [spot]; rfl)) rfl
  | fill spot => exact h.early (by rw [spot]; rfl)
  | starts spot hnot enough =>
    simp only [Started,spot] at h ⊢
    rcases h with ⟨hr,-⟩ | hnone
    · exact absurd hr hnot
    · exact hnone
  | goesOn spot either =>
    simp only [Started,spot] at h ⊢
    refine ⟨?_,h⟩
    intro enough
    rcases either with hr | hlacks
    · exact hr
    · rw [enough] at hlacks
      cases hlacks
  | created spot =>
    simp only [Started,spot] at h
    change (_ ++ [_]).length = 1
    rw [List.length_append,h.2]
    rfl
  | fails spot =>
    simp only [Started,spot] at h
    exact .inr h
  | running spot =>
    simp only [Started,spot] at h
    exact ⟨fun _ => rfl,.inl ⟨rfl,h⟩⟩
  | done spot =>
    simp only [Started,spot] at h
    exact h.2
  | task there hout =>
    simp only [Started,Single,List.length_set] at h ⊢
    exact h

/-- At most one task is ever created. -/
theorem Started.le_one (h : Started s) : s.tasks.length ≤ 1 := by
  unfold Started Single at h
  split at h <;> omega

/-- A call that has found enough leads up to a return of 0, with one task that has
passed its `break`. -/
structure Doomed (s : State) : Prop where
  enough : found s.consumer = true
  one : s.tasks.length = 1
  none : s.alive = 0

theorem not_alive {s : State} (ht : s.alive = 0) (hm : t ∈ s.tasks) : t.alive = false := by
  unfold State.alive at ht
  rw [List.countP_eq_zero] at ht
  simpa using ht t hm

/-- The return of a call adds its own condition. -/
theorem playing_snoc {s s' : State} (h : s'.returns = s.returns ++ [r]) :
    Playing s' ↔ Playing s ∧ (r.value = 0 → ∀ level, r.fillLevel = some level →
      level > minFillLvl → r.alive = 1) := by
  unfold Playing
  rw [h]
  constructor
  · intro hall
    refine ⟨fun r' hm => hall r' (List.mem_append_left _ hm),?_⟩
    exact hall r (List.mem_append_right _ (List.mem_singleton_self r))
  · rintro ⟨hall,hr⟩ r' hm
    rcases List.mem_append.mp hm with hm | hm
    · exact hall r' hm
    · cases List.mem_singleton.mp hm
      exact hr

theorem found_early (h : early c = true) : found c = false := by
  cases c <;> first | rfl | cases h

/-- As long as the condition is kept, a call that has found enough goes on with
every task alive. -/
structure Safe (s : State) : Prop where
  playing : Playing s
  alive : found s.consumer = true → ∀ t ∈ s.tasks, t.alive = true

theorem Safe.alive_one (h : Safe s) (hf : found s.consumer = true) (hone : s.tasks.length = 1) :
    s.alive = 1 := by
  rw [← hone]
  exact List.countP_eq_length.mpr (h.alive hf)

theorem step_safe (hst : Started s) (h : Safe s) (hok : Kept s a) (ht : step s a = some s') :
    Safe s' := by
  cases step_move ht with
  | aside spot =>
    refine ⟨h.playing,?_⟩
    rcases spot with rfl | ⟨-,hp'⟩
    · exact h.alive
    · intro hf
      rw [found_early hp'] at hf
      cases hf
  | stopped spot => exact ⟨(playing_snoc rfl).mpr ⟨h.playing,nofun⟩,nofun⟩
  | fill spot => exact ⟨h.playing,hok spot⟩
  | starts spot | goesOn spot | running spot =>
    refine ⟨h.playing,?_⟩
    intro hf
    exact h.alive (by rw [spot]; exact hf)
  | created spot =>
    refine ⟨h.playing,?_⟩
    intro hf t hm
    rcases List.mem_append.mp hm with hm | hm
    · exact h.alive (by rw [spot]; exact hf) t hm
    · cases List.mem_singleton.mp hm
      rfl
  | fails spot => exact ⟨(playing_snoc rfl).mpr ⟨h.playing,nofun⟩,nofun⟩
  | done spot =>
    refine ⟨(playing_snoc rfl).mpr ⟨h.playing,?_⟩,nofun⟩
    rintro - level ⟨⟩ hlevel
    simp only [Started,spot] at hst
    have enough : found s.consumer = true := by
      rw [spot]
      exact decide_eq_true hlevel
    rcases hst.2 with ⟨-,hone⟩ | ⟨hnot,-⟩
    · exact h.alive_one enough hone
    · exact absurd (hst.1 (decide_eq_true hlevel)) hnot
  | task there hout =>
    refine ⟨h.playing,?_⟩
    intro hf t hm
    rcases List.mem_or_eq_of_mem_set hm with hm | rfl
    · exact h.alive hf t hm
    · by_contra hdead
      have halive := h.alive hf _ (List.mem_of_getElem? there)
      exact hok hf _ there ⟨halive,_,hout,by simpa using hdead⟩

theorem step_doomed (hst : Started s) (h : Doomed s) (ht : step s a = some s') :
    ¬ Playing s' ∨ Doomed s' := by
  obtain ⟨enough,one,hnone⟩ := h
  cases step_move ht with
  | aside spot =>
    rcases spot with rfl | ⟨hp,-⟩
    · exact .inr ⟨enough,one,hnone⟩
    · rw [found_early hp] at enough
      cases enough
  | stopped spot | fill spot =>
    rw [spot] at enough
    cases enough
  | starts spot hnot =>
    simp only [Started,Single,spot,one] at hst
    simp [hnot] at hst
  | created spot | fails spot =>
    simp only [Started,spot,one] at hst
    omega
  | goesOn spot | running spot => exact .inr ⟨by rw [spot] at enough; exact enough,one,hnone⟩
  | done spot =>
    left
    intro hplaying
    rw [spot] at enough
    have hone := ((playing_snoc rfl).mp hplaying).2 rfl _ rfl (of_decide_eq_true enough)
    exact absurd (hnone.symm.trans hone) Nat.zero_ne_one
  | task there hout =>
    right
    refine ⟨enough,by rw [← one]; exact List.length_set,?_⟩
    apply List.countP_eq_zero.mpr
    intro t hm
    rcases List.mem_or_eq_of_mem_set hm with hm | rfl
    · simp [not_alive hnone hm]
    · simp [not_revived hout (not_alive hnone (List.mem_of_getElem? there))]

/-- The returns logged stay logged. -/
theorem step_playing (h : Playing s') (ht : step s a = some s') : Playing s := by
  cases step_move ht with
  | aside | fill | starts | goesOn | created | running | task => exact h
  | stopped | fails | done => exact ((playing_snoc rfl).mp h).1

/-- A step that does not keep the condition leaves a call that goes wrong. -/
theorem step_dooms (hst : Started s) (hnot : ¬ Kept s a) (ht : step s a = some s') : Doomed s' := by
  have hle := hst.le_one
  cases a with
  | call | audioPlayerStop | format | xTaskCreate => exact absurd trivial hnot
  | consumer =>
    simp only [Kept,Classical.not_imp,not_forall] at hnot
    obtain ⟨spot,enough,t,hm,hdead⟩ := hnot
    obtain ⟨u,hu⟩ := List.length_eq_one_iff.mp (Nat.le_antisymm hle (List.length_pos_of_mem hm))
    simp only [step,State.audioStreamConsumer,spot,Option.ite_none_right_eq_some,
      Option.some.injEq] at ht
    obtain ⟨-,rfl⟩ := ht
    rw [hu] at hm
    cases List.mem_singleton.mp hm
    refine ⟨enough,by rw [hu]; rfl,?_⟩
    simp only [State.alive,hu,List.countP_singleton,hdead]
    rfl
  | task i a =>
    simp only [Kept,Classical.not_imp,not_forall,not_not] at hnot
    obtain ⟨enough,t,there,-,out,hout,hdead⟩ := hnot
    obtain ⟨hi,-⟩ := List.getElem?_eq_some_iff.mp there
    have hone : s.tasks.length = 1 := by omega
    have hzero : i = 0 := by omega
    simp only [step,there,hout,Option.bind_eq_bind,Option.bind_some,Option.pure_def,
      Option.some.injEq] at ht
    subst s' i
    obtain ⟨u,hu⟩ := List.length_eq_one_iff.mp hone
    refine ⟨enough,by rw [← hone]; exact List.length_set,?_⟩
    simp only [State.alive,hu,List.set_cons_zero,List.countP_singleton,hdead]
    rfl

theorem run_started (h : (system wfx rate).Run ok acts s) : Started s := by
  have h0 : Single (system wfx rate).init := .inr ⟨ComponentStatus.noConfusion,rfl⟩
  apply h.invariant (.at h0 rfl)
  intro s a s' hs _ ht
  exact step_started hs ht

theorem run_safe (h : (system wfx rate).Run Kept acts s) : Safe s := by
  induction h with
  | start =>
    refine ⟨?_,nofun⟩
    intro r hm
    cases hm
  | next h hok ht ih => exact step_safe (run_started h) ih hok ht

/-- A run that did not keep the condition has gone wrong, or its call under way will. -/
theorem run_kept (h : (system wfx rate).Run (fun _ _ => True) acts s) :
    (system wfx rate).Run Kept acts s ∨ ¬ Playing s ∨ Doomed s := by
  induction h with
  | start => exact .inl .start
  | @next acts s a s' h _ ht ih =>
    have hst := run_started h
    rcases ih with hk | hnot | hd
    · by_cases hok : Kept s a
      · exact .inl (hk.next hok ht)
      · exact .inr (.inr (step_dooms hst hok ht))
    · exact .inr (.inl (fun hp => hnot (step_playing hp ht)))
    · exact .inr (step_doomed hst hd ht)

/-- Every call that finds enough in the FIFO leaves one task playing if the
condition is kept; and where no call is under way, only then. -/
theorem playing_kept (h : (system wfx rate).Run (fun _ _ => True) acts s) :
    ((system wfx rate).Run Kept acts s → Playing s) ∧
    (s.consumer = .idle → Playing s → (system wfx rate).Run Kept acts s) := by
  refine ⟨fun hk => (run_safe hk).playing,?_⟩
  intro hidle hp
  rcases run_kept h with hk | hnot | hd
  · exact hk
  · exact absurd hp hnot
  · have := hd.enough
    rw [hidle] at this
    cases this

section Stands
variable (wfx : WaveFormatEx) (rate : UInt32)

/-- The player can be here: with these returns behind it, the FIFO, the calling
thread and the tasks at these places, and no stop asked for. -/
def Stands (rs : List Return) (f : Fifo) (status : ComponentStatus) (c : Consumer)
    (places : List Place) : Prop :=
  ∃ s, (system wfx rate).Reaches s ∧ s.shared.fifo = f ∧ s.shared.wfx = wfx ∧
    s.command = .none ∧ s.decoderStatus = status ∧ s.consumer = c ∧
    s.tasks.map Task.place = places ∧ s.returns = rs

variable {wfx rate} {rs : List Return} {f : Fifo} {status : ComponentStatus} {c : Consumer}
  {places : List Place}

theorem Stands.call (h : Stands wfx rate rs f status .idle places) (hl : n ≤ buff.length)
    (hn : 0 < n) : Stands wfx rate rs f status (.write (.loop buff n)) places := by
  obtain ⟨s,hr,hf,hw,hcmd,hst,hc,ht,hrs⟩ := h
  have hcall : (system wfx rate).step s (.call buff n) =
      some { s with consumer := .entry buff n } := by
    simp [system,step,hc,hl]
  have hentry : (system wfx rate).step { s with consumer := .entry buff n } .consumer =
      some { s with consumer := .write (.loop buff n) } := by
    simp [system,step,State.audioStreamConsumer,hcmd,hn]
  exact ⟨_,(hr.step hcall).step hentry,hf,hw,hcmd,hst,rfl,ht,hrs⟩

theorem Stands.writer (h : Stands wfx rate rs f status (.write w) places)
    (hm : WriterMove f w f' w' events) : Stands wfx rate rs f' status (.write w') places := by
  obtain ⟨s,hr,rfl,hw,hcmd,hst,hc,ht,hrs⟩ := h
  have hidle : w ≠ .idle := by
    rintro rfl
    cases hm
  have hstep : (system wfx rate).step s .consumer =
      some { s with shared := { s.shared with fifo := f' }, consumer := .write w' } := by
    cases w with
    | idle => exact absurd rfl hidle
    | _ => simp [system,step,State.audioStreamConsumer,hc,hm.takes]
  exact ⟨_,hr.step hstep,rfl,hw,hcmd,hst,rfl,ht,hrs⟩

/-- A step of the only task. -/
theorem Stands.task (h : Stands wfx rate rs f status c [p]) (a : RenderAudio.Act)
    (hm : ∀ buffer rate', ∃ out, Task.step ⟨p,buffer⟩ ⟨f,wfx,rate'⟩ a = some out ∧
      out.shared.fifo = f' ∧ out.shared.wfx = wfx ∧ out.task.place = p') :
    Stands wfx rate rs f' status c [p'] := by
  obtain ⟨s,hr,hf,hw,hcmd,hst,hc,ht,hrs⟩ := h
  obtain ⟨t,hts,hp⟩ := List.map_eq_singleton_iff.mp ht
  obtain ⟨out,hout,hf',hw',hp'⟩ := hm t.renderBuffer s.shared.sampleRate
  have hshared : s.shared = ⟨f,wfx,s.shared.sampleRate⟩ := by
    rw [← hf,← hw]
  have hstep : (system wfx rate).step s (.task 0 a) =
      some { s with shared := out.shared, tasks := s.tasks.set 0 out.task } := by
    have htake : t.step s.shared a = some out := by
      rw [hshared,← hout,← hp]
    simp [system,step,hts,htake]
  refine ⟨_,hr.step hstep,hf',hw',hcmd,hst,hc,?_,hrs⟩
  simp [hts,hp']

/-- The counts of a FIFO nobody holds. -/
structure Holds (f : Fifo) (fill rpos wpos : Int) : Prop where
  free : f.mux = true
  fill : f.fifoFill = fill
  rpos : f.fifoRpos = rpos
  wpos : f.fifoWpos = wpos

/-- A write of whole chunks that does not reach the end of the array. -/
theorem write_chunks (h : Stands wfx rate rs f status (.write (.loop buff (64 * (k : Nat)))) places)
    (hf : Holds f fill rpos wpos) (hw : wpos + 64 * k < spiRamSize)
    (hroom : fill + 64 * k ≤ spiRamSize) (hsem : k = 0 → f.semCanRead = true) :
    ∃ f', Stands wfx rate rs f' status (.write .idle) places ∧
      Holds f' (fill + 64 * k) rpos (wpos + 64 * k) ∧ f'.semCanRead = true := by
  induction k generalizing f buff fill wpos with
  | zero =>
    refine ⟨f,h.writer (.returns (by omega)),?_,hsem rfl⟩
    simpa using hf
  | succ k ih =>
    push_cast at h hw hroom ⊢
    have hsize := h.writer (.size (by omega))
    rw [chunkSize_whole (by omega) (by rw [hf.wpos]; omega)] at hsize
    have hstore := hsize.writer (.store hf.free (by rw [hf.fill]; omega))
    have hgive := hstore.writer .give
    have hleft : 64 * ((k : Int) + 1) - 64 = 64 * k := by omega
    rw [hleft] at hgive
    have hf' : Holds { f.store buff 64 with semCanRead := true } (fill + 64) rpos (wpos + 64) := by
      refine ⟨hf.free,?_,hf.rpos,?_⟩
      · change f.fifoFill + 64 = _
        rw [hf.fill]
      · change wrap (f.fifoWpos + 64) = _
        rw [hf.wpos,wrap_inside (by omega)]
    obtain ⟨f'',hs,hh,hsem'⟩ := ih hgive hf' (by omega) (by omega) (fun _ => rfl)
    have hfill : fill + 64 + 64 * (k : Int) = fill + 64 * (k + 1) := by omega
    have hwpos : wpos + 64 + 64 * (k : Int) = wpos + 64 * (k + 1) := by omega
    rw [hfill,hwpos] at hh
    exact ⟨f'',hs,hh,hsem'⟩

/-- A step of a read; where it leaves the task depends on its events only. -/
theorem Stands.reads (h : Stands wfx rate rs f status c [.read r filled])
    (hm : ReaderMove f r f' r' events) (hp : ∀ t : Task, (t.reads r' filled events).place = p) :
    Stands wfx rate rs f' status c [p] := by
  apply h.task .fifo
  intro buffer rate'
  simp only [Task.step,hm.takes]
  exact ⟨_,rfl,rfl,rfl,hp _⟩

theorem Stands.reader (h : Stands wfx rate rs f status c [.read r filled])
    (hm : ReaderMove f r f' r' []) : Stands wfx rate rs f' status c [.read r' filled] :=
  h.reads hm (fun _ => rfl)

theorem Stands.load (h : Stands wfx rate rs f status c [.read r filled])
    (hm : ReaderMove f r f' r' [.spiRamRead pos n bytes]) :
    Stands wfx rate rs f' status c [.read r' (filled + bytes.length)] :=
  h.reads hm (fun _ => rfl)

theorem Stands.readReturns (h : Stands wfx rate rs f status c [.read r filled])
    (hm : ReaderMove f r f' r' [.readReturns m]) : Stands wfx rate rs f' status c [afterRead m] :=
  h.reads hm (fun _ => rfl)

/-- The chunks of a read that finds all its bytes before the end of the array. -/
theorem read_chunks (h : Stands wfx rate rs f status c [.read (.loop (64 * (k : Nat)) m) filled])
    (hf : Holds f fill rpos wpos) (hp : rpos + 64 * k < spiRamSize)
    (hthere : 64 * (k : Int) ≤ fill) :
    ∃ f', Stands wfx rate rs f' status c [afterRead m] ∧
      Holds f' (fill - 64 * k) (rpos + 64 * k) wpos ∧ f'.semCanRead = f.semCanRead := by
  induction k generalizing f filled fill rpos with
  | zero =>
    refine ⟨f,h.readReturns (.returns (by omega)),?_,rfl⟩
    simpa using hf
  | succ k ih =>
    push_cast at h hp hthere ⊢
    have hsize := h.reader (.size (by omega))
    rw [chunkSize_whole (by omega) (by rw [hf.rpos]; omega)] at hsize
    have hload := hsize.load (.load hf.free (by rw [hf.fill]; omega))
    have hgive := hload.reader .give
    have hleft : 64 * ((k : Int) + 1) - 64 = 64 * k := by omega
    rw [hleft] at hgive
    have hf' : Holds { f.load 64 with semCanWrite := true } (fill - 64) (rpos + 64) wpos := by
      refine ⟨hf.free,?_,?_,hf.wpos⟩
      · change f.fifoFill - 64 = _
        rw [hf.fill]
      · change wrap (f.fifoRpos + 64) = _
        rw [hf.rpos,wrap_inside (by omega)]
    obtain ⟨f'',hs,hh,hsem⟩ := ih hgive hf' (by omega) (by omega)
    have hfill : fill - 64 - 64 * (k : Int) = fill - 64 * (k + 1) := by omega
    have hrpos : rpos + 64 + 64 * (k : Int) = rpos + 64 * (k + 1) := by omega
    rw [hfill,hrpos] at hh
    exact ⟨f'',hs,hh,hsem⟩

/-- Where a task is behind a call of `render_samples`. -/
def behind : Part → Place
  | .whole => .read (.entry sizeofRenderBuffer) 0
  | .rest _ => .render .zeros .entry
  | .zeros => .reset .resetMux

theorem afterRender_place (t : Task) (part : Part) : (t.afterRender part).place = behind part := by
  cases part <;> rfl

/-- The turns that are left of a call, if every push goes through. -/
theorem Stands.turns (h : Stands wfx rate rs f status c [.render part (.loop (loopAt n d k))])
    (hk : k ≤ n.toNat) : Stands wfx rate rs f status c [behind part] := by
  obtain ⟨left,hleft⟩ := Nat.exists_eq_add_of_le hk
  induction left generalizing k with
  | zero =>
    have hmore : (loopAt n d k).more = false := by
      rw [← Bool.not_eq_true,loopAt_more hk]
      omega
    apply h.task (.samples (.turn .running 4))
    intro buffer rate'
    simp only [Task.step,RenderSamples.step,RenderSamples.State.turn,hmore]
    exact ⟨_,rfl,rfl,rfl,afterRender_place _ part⟩
  | succ left ih =>
    have hmore : (loopAt n d k).more = true := by
      rw [loopAt_more hk]
      omega
    have hnext := loopAt_next n d k (by decide : (4 : Int) ≠ 0)
    have hturn : Stands wfx rate rs f status c [.render part (.loop (loopAt n d (k + 1)))] := by
      apply h.task (.samples (.turn .running 4))
      intro buffer rate'
      simp only [Task.step,RenderSamples.step,RenderSamples.State.turn,hmore,hnext]
      exact ⟨_,rfl,rfl,rfl,rfl⟩
    exact ih hturn (by omega) (by omega)

/-- A call of `render_samples` on 16-bit stereo comes to its end. -/
theorem Stands.rendered (h : Stands wfx rate rs f status c [.render part .entry])
    (hbits : wfx.wBitsPerSample = 16) (hstereo : wfx.nChannels = 2) :
    Stands wfx rate rs f status c [behind part] := by
  have h16 : Sixteen part.bufLen wfx (part.bufLen / 2 / 2) 2 := sixteen_stereo hbits hstereo
  have henter : Stands wfx rate rs f status c
      [.render part (.loop (loopAt (part.bufLen / 2 / 2) 2 0))] := by
    apply h.task (.samples (.enter 0))
    intro buffer rate'
    simp only [Task.step,RenderSamples.step,h16.numSamples,h16.bits,h16.enter,ne_eq,not_true,
      if_false]
    exact ⟨_,rfl,rfl,rfl,rfl⟩
  exact henter.turns (Nat.zero_le _)

/-- A step of the reset. -/
theorem Stands.resets (h : Stands wfx rate rs f status c [.reset r])
    (hm : ReaderMove f r f' r' events) :
    Stands wfx rate rs f' status c [if r' = .idle then .deleted else .reset r'] := by
  apply h.task .fifo
  intro buffer rate'
  simp only [Task.step,hm.takes]
  exact ⟨_,rfl,rfl,rfl,rfl⟩

section Drain
variable (hbits : wfx.wBitsPerSample = 16) (hstereo : wfx.nChannels = 2)
include hbits hstereo

/-- A read that finds nothing is the end of the task. -/
theorem Stands.ends (h : Stands wfx rate rs f status c [.read (.entry sizeofRenderBuffer) 0])
    (hf : Holds f 0 rpos wpos) (hsem : f.semCanRead = true) :
    ∃ f', Stands wfx rate rs f' status c [.deleted] ∧ Holds f' 0 0 0 := by
  have hclamp := h.reader (.clamp (by decide))
  rw [hf.fill] at hclamp
  have hshort := hclamp.readReturns (.returns (by decide))
  have hrest := Stands.rendered hshort hbits hstereo
  have hzeros := Stands.rendered hrest hbits hstereo
  have hreset := hzeros.resets (.reset hf.free)
  have hdone := Stands.resets hreset (.resetDone hsem)
  exact ⟨_,hdone,rfl,rfl,rfl,rfl⟩

/-- A task left alone plays whole buffers until it finds nothing. -/
theorem Stands.drained (h : Stands wfx rate rs f status c [.read (.entry sizeofRenderBuffer) 0])
    (hf : Holds f (1024 * (j : Nat)) rpos wpos) (hp : rpos + 1024 * j < spiRamSize)
    (hsem : f.semCanRead = true) :
    ∃ f', Stands wfx rate rs f' status c [.deleted] ∧ Holds f' 0 0 0 := by
  induction j generalizing f rpos with
  | zero => exact h.ends hbits hstereo hf hsem
  | succ j ih =>
    push_cast at hf hp
    have hclamp := h.reader (.clamp (by decide))
    have hmin : min (sizeofRenderBuffer : Int) f.fifoFill = 64 * (16 : Nat) := by
      rw [hf.fill]
      unfold sizeofRenderBuffer
      omega
    rw [hmin] at hclamp
    obtain ⟨f',hread,hf',hsem'⟩ := read_chunks hclamp hf (by omega) (by omega)
    have hnext := Stands.rendered hread hbits hstereo
    have hfill : 1024 * ((j : Int) + 1) - 64 * (16 : Nat) = 1024 * j := by omega
    rw [hfill] at hf'
    exact ih hnext hf' (by omega) (hsem'.trans hsem)

end Drain

theorem Stands.finds (h : Stands wfx rate rs f status (.write .idle) places) (free : f.mux = true) :
    Stands wfx rate rs f status (.check f.fifoFill) places := by
  obtain ⟨s,hr,rfl,hw,hcmd,hst,hc,ht,hrs⟩ := h
  have hleave : (system wfx rate).step s .consumer = some { s with consumer := .fill } := by
    simp [system,step,State.audioStreamConsumer,hc]
  have hfill : (system wfx rate).step { s with consumer := .fill } .consumer =
      some { s with consumer := .check s.shared.fifo.fifoFill } := by
    simp [system,step,State.audioStreamConsumer,free]
  exact ⟨_,(hr.step hleave).step hfill,rfl,hw,hcmd,hst,rfl,ht,hrs⟩

/-- The first call that finds enough creates the task. -/
theorem Stands.starts (h : Stands wfx rate rs f status (.check b) []) (hnot : status ≠ .running)
    (enough : enoughBuffer b = true) :
    Stands wfx rate rs f .running (.done b) [.read (.entry sizeofRenderBuffer) 0] := by
  obtain ⟨s,hr,hf,hw,hcmd,rfl,hc,ht,hrs⟩ := h
  have hcheck : (system wfx rate).step s .consumer = some { s with consumer := .create b } := by
    simp [system,step,State.audioStreamConsumer,hc,hnot,enough]
  let s' := { s with consumer := .created b, tasks := s.tasks ++ [renderAudio (fun _ => 0)] }
  have hcreate : (system wfx rate).step { s with consumer := .create b }
      (.xTaskCreate (some (fun _ => 0))) = some s' := rfl
  have hstatus : (system wfx rate).step s' .consumer =
      some { s' with
        consumer := .done b
        decoderStatus := .running
        logs := s.logs ++ [.startRenderAudio (fillLevel b)] } := rfl
  refine ⟨_,((hr.step hcheck).step hcreate).step hstatus,hf,hw,hcmd,rfl,rfl,?_,hrs⟩
  change (s.tasks ++ [renderAudio (fun _ => 0)]).map Task.place = _
  rw [List.map_append,ht]
  rfl

theorem Stands.goesOn (h : Stands wfx rate rs f .running (.check b) places) :
    Stands wfx rate rs f .running (.done b) places := by
  obtain ⟨s,hr,hf,hw,hcmd,hst,hc,ht,hrs⟩ := h
  have hcheck : (system wfx rate).step s .consumer = some { s with consumer := .done b } := by
    simp [system,step,State.audioStreamConsumer,hc,hst]
  exact ⟨_,hr.step hcheck,hf,hw,hcmd,hst,rfl,ht,hrs⟩

theorem Stands.returns (h : Stands wfx rate rs f status (.done b) places) :
    Stands wfx rate (rs ++ [⟨0,some (fillLevel b),places.countP Place.alive⟩]) f status .idle
      places := by
  obtain ⟨s,hr,hf,hw,hcmd,hst,hc,rfl,rfl⟩ := h
  have hdone : ∃ s', (system wfx rate).step s .consumer = some s' ∧ s'.shared = s.shared ∧
      s'.command = s.command ∧ s'.decoderStatus = s.decoderStatus ∧ s'.consumer = .idle ∧
      s'.tasks = s.tasks ∧ s'.returns = s.returns ++ [⟨0,some (fillLevel b),s.alive⟩] := by
    simp only [system,step,State.audioStreamConsumer,hc]
    exact ⟨_,rfl,rfl,rfl,rfl,rfl,rfl,rfl⟩
  obtain ⟨s',hs',hsh,hcmd',hst',hc',ht',hrs'⟩ := hdone
  refine ⟨s',hr.step hs',by rw [hsh,hf],by rw [hsh,hw],hcmd'.trans hcmd,hst'.trans hst,hc',
    by rw [ht'],?_⟩
  rw [hrs',List.countP_map]
  rfl

/-- A call with 64 times 1024 bytes on an empty FIFO finds enough. -/
theorem Stands.filled (h : Stands wfx rate rs f status .idle places) (hf : Holds f 0 0 0) :
    ∃ f', Stands wfx rate rs f' status (.check 65536) places ∧
      Holds f' (1024 * (64 : Nat)) 0 65536 ∧ f'.semCanRead = true := by
  have hcall : Stands wfx rate rs f status
      (.write (.loop (List.replicate 65536 0) (64 * (1024 : Nat)))) places := by
    refine h.call ?_ (by decide)
    rw [List.length_replicate]
    decide
  obtain ⟨f',hwritten,hf',hsem⟩ := write_chunks hcall hf (by decide) (by decide) nofun
  have hfinds := hwritten.finds hf'.free
  rw [hf'.fill] at hfinds
  exact ⟨f',hfinds,hf',hsem⟩

end Stands

/-- 16-bit stereo at 48000 Hz. -/
def stereoWfx : WaveFormatEx := ⟨1,2,48000,192000,4,16,0,0⟩

theorem stands_init : Stands wfx rate [] spiRamFifoInit .uninitialized .idle [] :=
  ⟨_,.init _,rfl,rfl,rfl,rfl,rfl,rfl,rfl⟩

theorem first_call :
    ∃ f, Stands stereoWfx rate [⟨0,some 51,1⟩] f .running .idle
      [.read (.entry sizeofRenderBuffer) 0] ∧ Holds f (1024 * (64 : Nat)) 0 65536 ∧
      f.semCanRead = true := by
  obtain ⟨f,hfinds,hf,hsem⟩ := stands_init.filled ⟨rfl,rfl,rfl,rfl⟩
  exact ⟨f,(hfinds.starts nofun (by decide)).returns,hf,hsem⟩

/-- The stream is played, runs dry and goes on: the second time nobody plays it,
and the call still returns 0. -/
theorem resumed_unplayed : ¬ ∀ s, (system stereoWfx 44100).Reaches s → Playing s := by
  intro hall
  obtain ⟨f,hfirst,hf,hsem⟩ := first_call
  obtain ⟨f₁,hdry,hf₁⟩ := hfirst.drained rfl rfl hf (by decide) hsem
  obtain ⟨f₂,hfinds,-⟩ := hdry.filled hf₁
  obtain ⟨s,hr,-,-,-,-,-,-,hrs⟩ := hfinds.goesOn.returns
  have hone := hall s hr ⟨0,some 51,0⟩ (by rw [hrs]; decide) rfl 51 rfl (by decide)
  cases hone

/-- The first call that finds enough: one task plays. -/
theorem playing_kept_first_call :
    ∃ acts s, (system stereoWfx 44100).Run (fun _ _ => True) acts s ∧
      s.returns = [⟨0,some 51,1⟩] ∧ (system stereoWfx 44100).Run Kept acts s ∧ Playing s := by
  obtain ⟨f,⟨s,⟨acts,hr⟩,-,-,-,-,hc,-,hrs⟩,-⟩ := first_call
  have hp : Playing s := by
    intro r hm _ level hl _
    rw [hrs] at hm
    cases List.mem_singleton.mp hm
    rfl
  exact ⟨acts,s,hr,hrs,(playing_kept hr).2 hc hp,hp⟩

end WifiSpeaker.Proofs.Playback
