import WifiSpeaker.Proofs.ServerSteps

namespace WifiSpeaker.Proofs.Descriptors
open Common Server ServerSteps

/-- The descriptors `accept` has returned, in order. -/
def accepted (trace : List Event) : List Int :=
  trace.filterMap (fun
    | .accepted client => some client
    | _ => none)

/-- The descriptors the tasks hold. -/
def held (s : State) : List Int := s.threads.map AudioThread.client

/-- The descriptor the accept loop has not yet created a task for. -/
def waiting (s : State) : List Int := if s.listener = .create then [s.client] else []

/-- Every created task has taken its first step. -/
def Started (s : State) : Prop := ∀ t ∈ s.threads, t.place ≠ .start

instance : DecidablePred Started := fun s => inferInstanceAs (Decidable (∀ t ∈ s.threads, _))

/-- `accept` does not return while a task still has to copy the variable, and
no task creation fails. -/
def Handed (s : State) : Act → Prop
  | .accept _ => Started s
  | .spawn created => created = true
  | _ => True

instance (s : State) (a : Act) : Decidable (Handed s a) :=
  match a with
  | .accept _ => inferInstanceAs (Decidable (Started s))
  | .spawn created => inferInstanceAs (Decidable (created = true))
  | .thread _ _ => isTrue trivial
  | .reader _ => isTrue trivial

/-- The descriptor a task holds, or would copy if it ran now. -/
def view (client : Int) (t : AudioThread) : Int := if t.place = .start then client else t.client

def views (s : State) : List Int := s.threads.map (view s.client)

theorem views_started (h : Started s) : views s = held s := by
  apply List.map_congr_left
  intro t ht
  exact if_neg (h t ht)

/-- The first step copies the variable; later ones keep the descriptor. -/
theorem move_view (h : ThreadMove t i ring client act t' ring' readers events) :
    view client t' = view client t ∧ accepted events = [] := by
  cases h with
  | copy spot => simp [view,spot,accepted]
  | recvError spot => simp [view,spot,accepted]
  | recvBytes spot => simp [view,spot,accepted]
  | @write _ _ next _ spot _ => cases next <;> simp [view,spot,accepted]
  | checkPassed spot => simp [view,spot,accepted]
  | checkFailed spot => simp [view,spot,accepted]
  | create spot => simp [view,spot,accepted]
  | close spot => simp [view,spot,accepted]

theorem accepted_append (trace events : List Event) :
    accepted (trace ++ events) = accepted trace ++ accepted events := List.filterMap_append

theorem accepted_reader (k : Nat) (events : List PrcessCharacter.Event) :
    accepted (events.map (.reader k)) = [] := by
  simp [accepted,List.filterMap_map]

theorem map_set_same {xs : List α} (found : xs[i]? = some x) (h : f y = f x) :
    (xs.set i y).map f = xs.map f := by
  obtain ⟨hi,rfl⟩ := List.getElem?_eq_some_iff.mp found
  have hi' : i < (xs.map f).length := by rwa [List.length_map]
  rw [List.map_set,h,← List.getElem_map f (h := hi'),List.set_getElem_self hi']

/-- What one step does to the descriptors. -/
inductive Shift (s : State) : Act → State → Prop
  | failed (spot : s.listener = .accept) (negative : client < 0)
      (next : t.client = client) (threads : t.threads = s.threads) (wait : waiting t = [])
      (trace : accepted t.trace = accepted s.trace) : Shift s (.accept client) t
  | accept (spot : s.listener = .accept) (descriptor : 0 ≤ client)
      (next : t.client = client) (threads : t.threads = s.threads) (wait : waiting t = [client])
      (trace : accepted t.trace = accepted s.trace ++ [client]) : Shift s (.accept client) t
  | spawn (spot : s.listener = .create) (wait : waiting t = [])
      (seen : views t = views s ++ if created then [s.client] else [])
      (trace : accepted t.trace = accepted s.trace) : Shift s (.spawn created) t
  | quiet (ok : Handed s a) (wait : waiting t = waiting s) (seen : views t = views s)
      (trace : accepted t.trace = accepted s.trace) : Shift s a t

theorem step_shift (h : step s a = some t) : Shift s a t := by
  cases step_move h with
  | acceptError spot negative => exact .failed spot negative rfl rfl rfl rfl
  | accept spot descriptor => exact .accept spot descriptor rfl rfl rfl (accepted_append _ _)
  | spawn spot created =>
    refine .spawn spot rfl ?_ rfl
    cases created <;> simp [views,view]
  | @thread i t act t' ring readers events found moved =>
    obtain ⟨hview,htrace⟩ := move_view moved
    refine .quiet trivial rfl ?_ ?_
    · exact map_set_same found hview
    · rw [accepted_append,htrace,List.append_nil]
  | reader => exact .quiet trivial rfl rfl (by rw [accepted_append,accepted_reader,List.append_nil])

theorem waiting_accept (h : s.listener = .accept) : waiting s = [] := by simp [waiting,h]

theorem waiting_create (h : s.listener = .create) : waiting s = [s.client] := by simp [waiting,h]

theorem views_handed (hs : Started s) (h : t.threads = s.threads) : views t = views s := by
  have ht : Started t := by
    intro u hu
    exact hs u (h ▸ hu)
  rw [views_started ht,views_started hs,held,held,h]

/-- Every accepted descriptor is with its task, or on the way to it. -/
theorem handed_views (h : system.Run Handed acts s) : views s ++ waiting s = accepted s.trace := by
  apply h.invariant (P := fun s => views s ++ waiting s = accepted s.trace) rfl
  intro s a t ih hok ht
  cases step_shift ht with
  | failed spot negative next threads wait trace =>
    rw [views_handed hok threads,wait,trace,← ih,waiting_accept spot]
  | accept spot descriptor next threads wait trace =>
    rw [views_handed hok threads,wait,trace,← ih,waiting_accept spot,List.append_nil]
  | spawn spot wait seen trace =>
    have hc : _ = true := hok
    rw [wait,seen,trace,← ih,waiting_create spot,hc,if_pos rfl,List.append_nil]
  | quiet ok wait seen trace => rw [wait,seen,trace,ih]

/-- There are never more tasks than accepted descriptors. -/
structure Counted (s : State) : Prop where
  bound : (views s).length + (waiting s).length ≤ (accepted s.trace).length
  descriptors : ∀ client ∈ accepted s.trace, 0 ≤ client

/-- Fewer tasks hold, or can still copy, one of the first descriptors than there are such. -/
def Lost (s : State) : Prop :=
  ∃ early, early <+: accepted s.trace ∧ (views s).countP (· ∈ early) < early.length ∧
    ∀ client ∈ waiting s, client ∉ early

theorem length_views (s : State) : (views s).length = s.threads.length := List.length_map _

theorem step_counted (h : Counted s) (ht : step s a = some t) : Counted t := by
  have hb := h.bound
  cases step_shift ht with
  | failed spot negative next threads wait trace =>
    refine ⟨?_,trace ▸ h.descriptors⟩
    rw [wait,trace,length_views,threads,← length_views]
    simpa using Nat.le_trans (Nat.le_add_right _ _) hb
  | accept spot descriptor next threads wait trace =>
    rw [waiting_accept spot] at hb
    constructor
    · rw [wait,trace,length_views,threads,← length_views]
      simpa using hb
    · intro client hc
      rw [trace] at hc
      rcases List.mem_append.mp hc with hc | hc
      · exact h.descriptors client hc
      · exact List.mem_singleton.mp hc ▸ descriptor
  | @spawn _ created spot wait seen trace =>
    refine ⟨?_,trace ▸ h.descriptors⟩
    rw [waiting_create spot] at hb
    rw [wait,seen,trace]
    cases created with
    | false => simpa using Nat.le_trans (Nat.le_add_right _ _) hb
    | true => simpa using hb
  | quiet ok wait seen trace => exact ⟨by rwa [wait,seen,trace],trace ▸ h.descriptors⟩

theorem step_accepted (ht : step s a = some t) : accepted s.trace <+: accepted t.trace := by
  cases step_shift ht with
  | failed _ _ _ _ _ trace => exact trace ▸ List.prefix_refl _
  | accept _ _ _ _ _ trace => exact trace ▸ List.prefix_append _ _
  | spawn _ _ _ trace => exact trace ▸ List.prefix_refl _
  | quiet _ _ _ trace => exact trace ▸ List.prefix_refl _

/-- A variable that changes to a later descriptor gives nobody an early one. -/
theorem views_later {early : List Int} (threads : t.threads = s.threads) (hc : t.client ∉ early) :
    (views t).countP (· ∈ early) ≤ (views s).countP (· ∈ early) := by
  rw [views,views,threads,List.countP_map,List.countP_map]
  apply List.countP_mono_left
  intro u _ hu
  simp only [Function.comp_apply,view] at hu ⊢
  split_ifs at hu ⊢ with hp
  · exact absurd (of_decide_eq_true hu) hc
  · exact hu

theorem step_lost (h : Lost s) (hc : Counted s) (ht : step s a = some t)
    (hn : (accepted t.trace).Nodup) : Lost t := by
  obtain ⟨early,hp,hlt,hw⟩ := h
  have hsub : early ⊆ accepted s.trace := hp.subset
  cases step_shift ht with
  | failed spot negative next threads wait trace =>
    have hnew : t.client ∉ early := by
      intro hm
      have := hc.descriptors _ (hsub hm)
      omega
    refine ⟨early,trace ▸ hp,Nat.lt_of_le_of_lt (views_later threads hnew) hlt,?_⟩
    simp [wait]
  | @accept client _ spot descriptor next threads wait trace =>
    rw [trace] at hn
    have hnew : client ∉ early := by
      intro hm
      exact (List.nodup_append.mp hn).2.2 client (hsub hm) client (by simp) rfl
    refine ⟨early,trace ▸ hp.trans (List.prefix_append _ _),
      Nat.lt_of_le_of_lt (views_later threads (next ▸ hnew)) hlt,?_⟩
    simpa [wait] using hnew
  | @spawn _ created spot wait seen trace =>
    have hout : s.client ∉ early := hw s.client (by simp [waiting_create spot])
    refine ⟨early,trace ▸ hp,?_,by simp [wait]⟩
    rw [seen]
    cases created <;> simpa [hout] using hlt
  | quiet ok wait seen trace => exact ⟨early,trace ▸ hp,seen ▸ hlt,wait ▸ hw⟩

theorem countP_lt {xs : List α} {p : α → Bool} (hm : x ∈ xs) (hx : p x = false) :
    xs.countP p < xs.length := by
  apply Nat.lt_of_le_of_ne List.countP_le_length
  intro he
  have := List.countP_eq_length.mp he x hm
  rw [hx] at this
  cases this

/-- An overwritten variable or a task that is not created loses a descriptor for good. -/
theorem step_loses (hbad : ¬ Handed s a) (hc : Counted s) (ht : step s a = some t)
    (hn : (accepted t.trace).Nodup) : Lost t := by
  have hb := hc.bound
  have overwritten : t.threads = s.threads → ¬ Started s → t.client ∉ accepted s.trace →
      (views t).countP (· ∈ accepted s.trace) < (accepted s.trace).length := by
    intro threads hns hnew
    obtain ⟨u,hu,hstart⟩ : ∃ u ∈ s.threads, u.place = .start := by simpa [Started] using hns
    have hm : t.client ∈ views t := List.mem_map.mpr ⟨u,threads ▸ hu,if_pos hstart⟩
    have hlt := countP_lt (p := (· ∈ accepted s.trace)) hm (decide_eq_false hnew)
    rw [length_views,threads,← length_views] at hlt
    omega
  cases step_shift ht with
  | failed spot negative next threads wait trace =>
    refine ⟨accepted s.trace,trace ▸ List.prefix_refl _,overwritten threads hbad ?_,by simp [wait]⟩
    intro hm
    have := hc.descriptors _ hm
    omega
  | @accept client _ spot descriptor next threads wait trace =>
    rw [trace] at hn
    have hnew : client ∉ accepted s.trace := by
      intro hm
      exact (List.nodup_append.mp hn).2.2 client hm client (by simp) rfl
    refine ⟨accepted s.trace,trace ▸ List.prefix_append _ _,
      overwritten threads hbad (next ▸ hnew),?_⟩
    simpa [wait] using hnew
  | @spawn _ created spot wait seen trace =>
    have hcreated : created = false := by simpa [Handed] using hbad
    rw [waiting_create spot] at hb
    refine ⟨accepted s.trace,trace ▸ List.prefix_refl _,?_,by simp [wait]⟩
    rw [seen,hcreated]
    simp only [Bool.false_eq_true,if_false,List.append_nil]
    exact Nat.lt_of_le_of_lt List.countP_le_length hb
  | quiet ok wait seen trace => exact absurd ok hbad

theorem run_handed_or_lost (h : system.Run (fun _ _ => True) acts s) :
    Counted s ∧ ((accepted s.trace).Nodup → system.Run Handed acts s ∨ Lost s) := by
  refine h.history (P := fun acts s =>
    Counted s ∧ ((accepted s.trace).Nodup → system.Run Handed acts s ∨ Lost s)) ?_ ?_
  · refine ⟨⟨Nat.le_refl _,?_⟩,fun _ => .inl .start⟩
    intro client hc
    cases hc
  · rintro acts s a t ⟨hc,ih⟩ _ ht
    refine ⟨step_counted hc ht,?_⟩
    intro hn
    have hbefore : (accepted s.trace).Nodup := hn.sublist (step_accepted ht).sublist
    rcases ih hbefore with hrun | hlost
    · by_cases hok : Handed s a
      · exact .inl (hrun.next hok ht)
      · exact .inr (step_loses hok hc ht hn)
    · exact .inr (step_lost hlost hc ht hn)

theorem Lost.not_perm (h : Lost s) : ¬ (views s ++ waiting s).Perm (accepted s.trace) := by
  obtain ⟨early,hp,hlt,hw⟩ := h
  intro hperm
  have hcount := hperm.countP_eq (· ∈ early)
  have hwait : (waiting s).countP (· ∈ early) = 0 := by
    rw [List.countP_eq_zero]
    intro client hc
    simpa using hw client hc
  have hall : early.countP (· ∈ early) = early.length := by
    rw [List.countP_eq_length]
    intro client hc
    simpa using hc
  have hle := hp.sublist.countP_le (p := (· ∈ early))
  rw [List.countP_append,hwait] at hcount
  omega

/-- Once all tasks have started, they hold the accepted descriptors, each once,
if every `accept` found the variable copied and every task was created; and for
distinct descriptors only then. -/
theorem descriptors_served (h : system.Run (fun _ _ => True) acts s) (hs : Started s) :
    (system.Run Handed acts s → (held s ++ waiting s).Perm (accepted s.trace)) ∧
    ((accepted s.trace).Nodup → (held s ++ waiting s).Perm (accepted s.trace) →
      system.Run Handed acts s) := by
  rw [← views_started hs]
  constructor
  · intro hrun
    rw [handed_views hrun]
  · intro hn hperm
    rcases (run_handed_or_lost h).2 hn with hrun | hlost
    · exact hrun
    · exact absurd hperm hlost.not_perm

/-- Two connections come in before the first task runs. -/
def twoBeforeCopy : List Act :=
  [.accept 54,.spawn true,.accept 55,.spawn true,.thread 0 .copy,.thread 1 .copy]

theorem descriptor_served_twice :
    ¬ ∀ s, system.Reaches s → Started s → (held s ++ waiting s).Perm (accepted s.trace) := by
  intro hall
  have hrun : (system.exec (fun _ _ => True) system.init twoBeforeCopy).map (fun s =>
      (decide (Started s),held s,waiting s,accepted s.trace)) = some (true,[55,55],[],[54,55]) := by
    decide +kernel
  obtain ⟨s,hs,he⟩ := Option.map_eq_some_iff.mp hrun
  simp only [Prod.mk.injEq,decide_eq_true_eq] at he
  obtain ⟨hstarted,hheld,hwait,hacc⟩ := he
  have := hall s (System.run_of_exec hs).reaches hstarted
  rw [hheld,hwait,hacc] at this
  exact absurd this (by decide)

/-- Two connections, each copied before the next `accept` returns. -/
theorem descriptors_served_two :
    ∃ acts s, system.Run (fun _ _ => True) acts s ∧ Started s ∧ accepted s.trace = [54,55] ∧
      (held s ++ waiting s).Perm (accepted s.trace) := by
  let acts : List Act :=
    [.accept 54,.spawn true,.thread 0 .copy,.accept 55,.spawn true,.thread 1 .copy]
  have hrun : (system.exec Handed system.init acts).map (fun s =>
      (decide (Started s),accepted s.trace)) = some (true,[54,55]) := by decide +kernel
  obtain ⟨s,hs,he⟩ := Option.map_eq_some_iff.mp hrun
  simp only [Prod.mk.injEq,decide_eq_true_eq] at he
  have hh : system.Run Handed acts s := System.run_of_exec hs
  have hr := hh.mono (fun _ _ _ => trivial)
  exact ⟨acts,s,hr,he.1,he.2,(descriptors_served hr he.1).1 hh⟩

end WifiSpeaker.Proofs.Descriptors
