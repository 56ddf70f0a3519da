import WifiSpeaker.Proofs.Descriptors

namespace WifiSpeaker.Proofs.Releases
open Common Server ServerSteps Descriptors

/-- What happens to a descriptor: `accept` returns it, `recv` returns a result on it,
and it is closed. -/
inductive Use
  | accepted
  | received (lengthReceive : Int)
  | closed
  deriving DecidableEq, Repr

/-- What has happened to a descriptor, in order, whichever task did it. -/
def uses (client : Int) (trace : List Event) : List Use :=
  trace.filterMap (fun
    | .accepted c => if c = client then some .accepted else none
    | .received _ c lengthReceive => if c = client then some (.received lengthReceive) else none
    | .closed _ c => if c = client then some .closed else none
    | .reader _ _ => none)

/-- `recv` reports an error, or the end of the stream. -/
def reports : Event → Bool
  | .received _ _ lengthReceive => lengthReceive ≤ 0
  | _ => false

/-- A task that has not left its loop. -/
def inLoop (t : AudioThread) : Bool := t.place ≠ .exit ∧ t.place ≠ .ended

/-- A descriptor is let go when `recv` has reported its end. Behind the report comes
its close and then, if anything, the next `accept` that returns it; until the close
some task has that and nothing else to do; no close comes without a report; and the
tasks in their loops are no more than the connections without a report. -/
structure Released (s : State) : Prop where
  last : ∀ c front v rest, uses c s.trace = front ++ .received v :: rest → v ≤ 0 →
    rest = [] ∨ rest = [.closed] ∨ ∃ more, rest = .closed :: .accepted :: more
  closing : ∀ c front v, uses c s.trace = front ++ [.received v] → v ≤ 0 →
    ∃ i t, s.threads[i]? = some t ∧ t.client = c ∧
      ∀ act, (step s (.thread i act)).isSome ↔ act = .close
  once : ∀ c front rest, uses c s.trace = front ++ .closed :: rest →
    ∃ early v, front = early ++ [.received v] ∧ v ≤ 0
  live : s.threads.countP inLoop + s.trace.countP reports ≤ (accepted s.trace).length

/-- `accept` returns no descriptor that is open: it has been closed as often as
`accept` has returned it. -/
def Fresh (s : State) : Act → Prop
  | .accept client => 0 ≤ client →
      (uses client s.trace).count .accepted = (uses client s.trace).count .closed
  | _ => True

instance (s : State) (a : Act) : Decidable (Fresh s a) :=
  match a with
  | .accept client => inferInstanceAs (Decidable (0 ≤ client → _))
  | .spawn _ | .thread _ _ | .reader _ => isTrue trivial

/-- No `recv` returns 0, and `accept` returns no descriptor while a task still has to
copy the one before. -/
def Orderly (s : State) : Act → Prop
  | .thread _ (.recv (.bytes data _)) => data ≠ []
  | .accept client => 0 ≤ client → Started s
  | _ => True

instance (s : State) (a : Act) : Decidable (Orderly s a) :=
  match a with
  | .accept client => inferInstanceAs (Decidable (0 ≤ client → Started s))
  | .thread _ (.recv (.bytes data _)) => inferInstanceAs (Decidable (data ≠ []))
  | .thread _ (.recv .error) | .thread _ .copy | .thread _ .write | .thread _ .check
  | .thread _ (.create _) | .thread _ .close | .spawn _ | .reader _ => isTrue trivial

/-- Where a descriptor is in its life. -/
inductive Phase
  | free
  | taken
  | reported
  deriving DecidableEq, Repr

def Phase.next : Phase → Use → Option Phase
  | .free, .accepted => some .taken
  | .taken, .received v => if 0 < v then some .taken else some .reported
  | .reported, .closed => some .free
  | _, _ => none

/-- The phase behind some uses. What is no descriptor is nobody's to accept: the task
that got it has it from the start. -/
def phase (c : Int) (us : List Use) : Option Phase :=
  us.foldlM Phase.next (if c < 0 then .taken else .free)

theorem phase_snoc (c : Int) (us : List Use) (u : Use) :
    phase c (us ++ [u]) = (phase c us).bind (fun p => p.next u) := by
  simp [phase,List.foldlM_append]

/-- What a use leads from and to. -/
theorem phase_snoc_some (h : phase c (us ++ [u]) = some p) :
    ∃ q, phase c us = some q ∧ q.next u = some p := by
  rw [phase_snoc] at h
  exact Option.bind_eq_some_iff.mp h

theorem phase_front (h : phase c (us ++ more) = some p) : ∃ q, phase c us = some q := by
  induction more using List.reverseRecOn generalizing p with
  | nil => exact ⟨p,by simpa using h⟩
  | append_singleton more u ih =>
    rw [← List.append_assoc] at h
    obtain ⟨q,hq,-⟩ := phase_snoc_some h
    exact ih hq

/-- Every beginning of a life ends in a phase. -/
theorem phase_upto (h : phase c (us ++ u :: more) = some p) : ∃ q, phase c (us ++ [u]) = some q := by
  rw [← List.singleton_append,← List.append_assoc] at h
  exact phase_front h

theorem next_reported {p q : Phase} (h : p.next u = some q) :
    q = .reported ↔ ∃ v, u = .received v ∧ v ≤ 0 := by
  cases p <;> cases u <;> simp [Phase.next] at h
  · simp [← h]
  · rename_i v
    split_ifs at h with hv
    · cases h
      simp [hv]
    · cases h
      simp
      omega
  · simp [← h]

theorem next_closed {p q : Phase} (h : p.next .closed = some q) : p = .reported ∧ q = .free := by
  cases p <;> simp [Phase.next] at h
  exact ⟨rfl,h.symm⟩

/-- A descriptor is reported exactly when its last use is the report. -/
theorem phase_reported (h : phase c us = some p) :
    p = .reported ↔ ∃ front v, us = front ++ [.received v] ∧ v ≤ 0 := by
  rcases List.eq_nil_or_concat us with rfl | ⟨front,u,rfl⟩
  · simp only [phase,List.foldlM_nil] at h
    cases h
    simp
    split <;> simp
  · rw [List.concat_eq_append] at h ⊢
    obtain ⟨q,-,hn⟩ := phase_snoc_some h
    rw [next_reported hn]
    constructor
    · rintro ⟨v,rfl,hv⟩
      exact ⟨front,v,rfl,hv⟩
    · rintro ⟨front',v,he,hv⟩
      obtain ⟨-,hu⟩ := List.append_inj' he rfl
      cases hu
      exact ⟨v,rfl,hv⟩

/-- Behind a report comes the close and then the next `accept`. -/
theorem phase_last (h : phase c (front ++ .received v :: rest) = some p) (hv : v ≤ 0) :
    rest = [] ∨ rest = [.closed] ∨ ∃ more, rest = .closed :: .accepted :: more := by
  obtain ⟨q,hq⟩ := phase_upto h
  cases (phase_reported hq).mpr ⟨front,v,rfl,hv⟩
  cases rest with
  | nil => exact .inl rfl
  | cons u rest =>
    rw [List.append_cons] at h
    obtain ⟨q',hq'⟩ := phase_upto h
    rw [phase_snoc,hq,Option.bind_some] at hq'
    cases u with
    | accepted => cases hq'
    | received => cases hq'
    | closed =>
      cases rest with
      | nil => exact .inr (.inl rfl)
      | cons w rest =>
        rw [List.append_cons] at h
        obtain ⟨q'',hq''⟩ := phase_upto h
        rw [phase_snoc,phase_snoc,hq] at hq''
        cases w with
        | accepted => exact .inr (.inr ⟨rest,rfl⟩)
        | received => cases hq''
        | closed => cases hq''

/-- Only a reported descriptor is closed. -/
theorem phase_once (h : phase c (front ++ .closed :: rest) = some p) :
    ∃ early v, front = early ++ [.received v] ∧ v ≤ 0 := by
  obtain ⟨q,hq⟩ := phase_upto h
  obtain ⟨q',hq',hn⟩ := phase_snoc_some hq
  exact (phase_reported hq').mp (next_closed hn).1

/-- A descriptor in use has been accepted once more than closed. -/
theorem phase_count (h : phase c us = some p) (hc : 0 ≤ c) :
    us.count .accepted = us.count .closed + if p = .free then 0 else 1 := by
  induction us using List.reverseRecOn generalizing p with
  | nil =>
    simp only [phase,List.foldlM_nil,if_neg (Int.not_lt.mpr hc)] at h
    cases h
    rfl
  | append_singleton us u ih =>
    obtain ⟨q,hq,hn⟩ := phase_snoc_some h
    have hih := ih hq
    rw [List.count_append,List.count_append,hih]
    cases q <;> cases u <;> simp only [Phase.next,reduceCtorEq] at hn
    · cases hn
      simp
    · split_ifs at hn <;> cases hn <;> simp
    · cases hn
      simp

theorem phase_fresh (h : phase c us = some p) (hc : 0 ≤ c)
    (hf : us.count .accepted = us.count .closed) : p = .free := by
  have hcount := phase_count h hc
  by_contra hp
  rw [if_neg hp] at hcount
  omega

theorem uses_append (c : Int) (trace events : List Event) :
    uses c (trace ++ events) = uses c trace ++ uses c events := List.filterMap_append

theorem uses_reader (c : Int) (k : Nat) (events : List PrcessCharacter.Event) :
    uses c (events.map (.reader k)) = [] := by
  simp [uses,List.filterMap_map]

/-- What a step of a task adds to the trace. -/
inductive Logs (t : AudioThread) (i : Nat) : ThreadAct → AudioThread → List Event → Prop
  | quiet (before : inLoop t) (after : inLoop t') : Logs t i act t' []
  | got (spot : t.place = .recv) (after : inLoop t') (data : List UInt8) (fits) :
      Logs t i (.recv (.bytes data fits)) t' [.received i t.client data.length]
  | failed (spot : t.place = .recv) (after : t'.place = .exit) :
      Logs t i act t' [.received i t.client (-1)]
  | closed (spot : t.place = .exit) (after : t'.place = .ended) : Logs t i act t' [.closed i t.client]

theorem move_logs (h : ThreadMove t i ring client act t' ring' readers events) :
    Logs t i act t' events := by
  cases h with
  | copy spot => exact .quiet (by simp [inLoop,spot]) (by simp [inLoop])
  | recvError spot => exact .failed spot rfl
  | recvBytes spot data fits => exact .got spot (by simp [inLoop]) data fits
  | @write _ _ next _ spot _ =>
    exact .quiet (by simp [inLoop,spot]) (by cases next <;> simp [inLoop])
  | checkPassed spot => exact .quiet (by simp [inLoop,spot]) (by simp [inLoop])
  | checkFailed spot => exact .quiet (by simp [inLoop,spot]) (by simp [inLoop])
  | create spot => exact .quiet (by simp [inLoop,spot]) (by simp [inLoop])
  | close spot => exact .closed spot rfl

/-- The phase a task keeps its descriptor in. -/
def phaseOf (t : AudioThread) : Phase :=
  match t.place with
  | .exit => .reported
  | .ended => .free
  | _ => .taken

theorem phaseOf_loop {t : AudioThread} (h : inLoop t = true) : phaseOf t = .taken := by
  have h := of_decide_eq_true h
  unfold phaseOf
  split
  · exact absurd ‹_› h.1
  · exact absurd ‹_› h.2
  · rfl

theorem inLoop_recv {t : AudioThread} (h : t.place = .recv) : inLoop t = true := by
  simp [inLoop,h]

theorem exit_not_loop {t : AudioThread} (h : t.place = .exit) : inLoop t = false := by
  simp [inLoop,h]

/-- A task that moves has not ended, and a step moves its own descriptor on, as far as
its place says, and no other. -/
theorem logs_phase (h : Logs t i act t' events) (hz : ∀ fits, act ≠ .recv (.bytes [] fits))
    (hp : phase (view client t) (uses (view client t) trace) = some (phaseOf t)) :
    phase (view client t) (uses (view client t) (trace ++ events)) = some (phaseOf t') ∧
      ∀ c, c ≠ view client t → uses c events = [] := by
  cases h with
  | quiet before after =>
    rw [List.append_nil,hp,phaseOf_loop before,phaseOf_loop after]
    exact ⟨rfl,fun _ _ => rfl⟩
  | got spot after data fits =>
    have hview : view client t = t.client := by simp [view,spot]
    have hne : data ≠ [] := by
      rintro rfl
      exact hz fits rfl
    rw [hview] at hp ⊢
    rw [phaseOf_loop (inLoop_recv spot)] at hp
    refine ⟨?_,?_⟩
    · rw [uses_append,show uses t.client [.received i t.client data.length] =
        [.received data.length] by simp [uses],phase_snoc,hp,phaseOf_loop after]
      simp [Phase.next,List.length_pos_iff.mpr hne]
    · intro c hc
      simp [uses,Ne.symm hc]
  | failed spot after =>
    have hview : view client t = t.client := by simp [view,spot]
    rw [hview] at hp ⊢
    rw [phaseOf_loop (inLoop_recv spot)] at hp
    refine ⟨?_,?_⟩
    · rw [uses_append,show uses t.client [.received i t.client (-1)] = [.received (-1)] by
        simp [uses],phase_snoc,hp]
      simp [Phase.next,phaseOf,after]
    · intro c hc
      simp [uses,Ne.symm hc]
  | closed spot after =>
    have hview : view client t = t.client := by simp [view,spot]
    rw [hview] at hp ⊢
    refine ⟨?_,?_⟩
    · rw [uses_append,show uses t.client [.closed i t.client] = [.closed] by simp [uses],
        phase_snoc,hp]
      simp [Phase.next,phaseOf,spot,after]
    · intro c hc
      simp [uses,Ne.symm hc]

theorem logs_live (h : Logs t i act t' events) : t.place ≠ .ended := by
  cases h with
  | quiet before => exact (of_decide_eq_true before).2
  | got spot => simp [spot]
  | failed spot => simp [spot]
  | closed spot => simp [spot]

theorem reports_reader (k : Nat) (events : List PrcessCharacter.Event) :
    (events.map (.reader k)).countP reports = 0 := by
  rw [List.countP_map,List.countP_eq_zero]
  intro e _
  exact Bool.false_ne_true

/-- A task leaves its loop exactly when its `recv` reports an end. -/
theorem logs_count (h : Logs t i act t' events) (hz : ∀ fits, act ≠ .recv (.bytes [] fits)) :
    (if inLoop t' then 0 else 1) = (if inLoop t then 0 else 1) + events.countP reports := by
  cases h with
  | quiet before after => simp [before,after]
  | got spot after data fits =>
    have hne : data ≠ [] := by
      rintro rfl
      exact hz fits rfl
    simp [inLoop_recv spot,after,reports,hne]
  | failed spot after => simp [inLoop_recv spot,exit_not_loop after,reports]
  | closed spot after =>
    have hn : inLoop t' = false := by simp [inLoop,after]
    simp [exit_not_loop spot,hn,reports]

/-- The number of tasks that have left their loop after a step of one task. -/
theorem countP_left {threads : List AudioThread} {i : Nat} (found : threads[i]? = some t)
    (t' : AudioThread) :
    (threads.set i t').countP (fun t => !inLoop t) + (if inLoop t then 0 else 1) =
      threads.countP (fun t => !inLoop t) + (if inLoop t' then 0 else 1) := by
  obtain ⟨hi,rfl⟩ := List.getElem?_eq_some_iff.mp found
  rw [List.countP_set hi]
  have hone : inLoop threads[i] = false → 0 < threads.countP (fun t => !inLoop t) := by
    intro hn
    exact List.countP_pos_iff.mpr ⟨threads[i],List.getElem_mem hi,by simp [hn]⟩
  cases hb : inLoop threads[i] with
  | true => cases ha : inLoop t' <;> simp
  | false =>
    have := hone hb
    cases ha : inLoop t' <;> simp <;> omega

/-- Every task that has not ended has a descriptor to itself, in the phase of its
place; what is reported has a task at its exit; and what `accept` has just returned
is nobody's yet. -/
structure Owned (s : State) : Prop where
  valid : ∀ c, ∃ p, phase c (uses c s.trace) = some p
  owner : ∀ t ∈ s.threads, t.place ≠ .ended →
    phase (view s.client t) (uses (view s.client t) s.trace) = some (phaseOf t)
  distinct : ∀ (i j : Nat) t u, s.threads[i]? = some t → s.threads[j]? = some u → t.place ≠ .ended →
    u.place ≠ .ended → view s.client t = view s.client u → i = j
  exits : ∀ c, phase c (uses c s.trace) = some .reported →
    ∃ (i : Nat) (t : AudioThread), s.threads[i]? = some t ∧ t.client = c ∧ t.place = .exit
  waits : s.listener = .create → phase s.client (uses s.client s.trace) = some .taken ∧
    ∀ t ∈ s.threads, t.place ≠ .ended → view s.client t ≠ s.client
  nonneg : s.listener ≠ .errorHandle → 0 ≤ s.client ∧
    (∀ t ∈ s.threads, 0 ≤ view s.client t) ∧ ∀ c < 0, uses c s.trace = []
  count : s.threads.countP (fun t => !inLoop t) = s.trace.countP reports

/-- The tasks after a step of one of them. -/
theorem thread_after {threads : List AudioThread} {t' w : AudioThread} (hi : i < threads.length)
    (h : (threads.set i t')[j]? = some w) : i = j ∧ w = t' ∨ i ≠ j ∧ threads[j]? = some w := by
  by_cases hij : i = j
  · subst j
    rw [List.getElem?_set_self hi] at h
    exact .inl ⟨rfl,(Option.some.inj h).symm⟩
  · rw [List.getElem?_set_ne hij] at h
    exact .inr ⟨hij,h⟩

theorem view_exit (h : t.place = .exit) : view client t = t.client := by simp [view,h]

theorem phaseOf_reported (h : phaseOf t = .reported) : t.place = .exit := by
  unfold phaseOf at h
  split at h
  · assumption
  · cases h
  · cases h

theorem phaseOf_free (h : phaseOf t = .free) : t.place = .ended := by
  unfold phaseOf at h
  split at h
  · cases h
  · assumption
  · cases h

theorem thread_owned (h : Owned s) (found : s.threads[i]? = some t) (logs : Logs t i act t' events)
    (hz : ∀ fits, act ≠ .recv (.bytes [] fits)) (hview : view s.client t' = view s.client t)
    (hthreads : u.threads = s.threads.set i t') (htrace : u.trace = s.trace ++ events)
    (hclient : u.client = s.client) (hlistener : u.listener = s.listener) : Owned u := by
  have hi : i < s.threads.length := (List.getElem?_eq_some_iff.mp found).1
  have hmem : t ∈ s.threads := List.mem_of_getElem? found
  have hlive := logs_live logs
  obtain ⟨hphase,hother⟩ := logs_phase logs hz (h.owner t hmem hlive)
  have hsame : ∀ c, c ≠ view s.client t → uses c u.trace = uses c s.trace := by
    intro c hc
    rw [htrace,uses_append,hother c hc,List.append_nil]
  constructor
  · intro c
    by_cases hc : c = view s.client t
    · exact ⟨phaseOf t',by rw [hc,htrace]; exact hphase⟩
    · rw [hsame c hc]
      exact h.valid c
  · intro w hw hplace
    rw [hclient]
    obtain ⟨j,hj⟩ := List.getElem?_of_mem hw
    rw [hthreads] at hj
    rcases thread_after hi hj with ⟨rfl,rfl⟩ | ⟨hij,hj⟩
    · rw [hview,htrace]
      exact hphase
    · have hne : view s.client w ≠ view s.client t := by
        intro he
        exact hij (h.distinct j i w t hj found hplace hlive he).symm
      rw [hsame _ hne]
      exact h.owner w (List.mem_of_getElem? hj) hplace
  · intro j k w x hj hk hw hx he
    rw [hthreads] at hj hk
    rw [hclient] at he
    rcases thread_after hi hj with ⟨rfl,rfl⟩ | ⟨hij,hj'⟩
    · rcases thread_after hi hk with ⟨rfl,-⟩ | ⟨hik,hk'⟩
      · rfl
      · exact h.distinct i k t x found hk' hlive hx (hview ▸ he)
    · rcases thread_after hi hk with ⟨rfl,rfl⟩ | ⟨hik,hk'⟩
      · exact h.distinct j i w t hj' found hw hlive (hview ▸ he)
      · exact h.distinct j k w x hj' hk' hw hx he
  · intro c hc
    by_cases hd : c = view s.client t
    · rw [hd,htrace,hphase] at hc
      have hexit := phaseOf_reported (Option.some.inj hc)
      refine ⟨i,t',?_,?_,hexit⟩
      · rw [hthreads,List.getElem?_set_self hi]
      · rw [hd,← hview,view_exit hexit]
    · rw [hsame c hd] at hc
      obtain ⟨j,w,hj,hw,hexit⟩ := h.exits c hc
      have hij : i ≠ j := by
        rintro rfl
        cases found.symm.trans hj
        exact hd (by rw [view_exit hexit,hw])
      exact ⟨j,w,by rw [hthreads,List.getElem?_set_ne hij,hj],hw,hexit⟩
  · intro hl
    rw [hlistener] at hl
    obtain ⟨htaken,hnobody⟩ := h.waits hl
    rw [hclient,hsame _ (hnobody t hmem hlive).symm]
    refine ⟨htaken,?_⟩
    intro w hw hplace
    obtain ⟨j,hj⟩ := List.getElem?_of_mem hw
    rw [hthreads] at hj
    rcases thread_after hi hj with ⟨rfl,rfl⟩ | ⟨hij,hj⟩
    · rw [hview]
      exact hnobody t hmem hlive
    · exact hnobody w (List.mem_of_getElem? hj) hplace
  · intro hl
    rw [hlistener] at hl
    obtain ⟨hzero,hviews,hunused⟩ := h.nonneg hl
    rw [hclient]
    refine ⟨hzero,?_,?_⟩
    · intro w hw
      rw [hthreads] at hw
      rcases List.mem_or_eq_of_mem_set hw with hw | rfl
      · exact hviews w hw
      · rw [hview]
        exact hviews t hmem
    · intro c hc
      have hne : c ≠ view s.client t := by
        have := hviews t hmem
        omega
      rw [hsame c hne]
      exact hunused c hc
  · have hcount := logs_count logs hz
    have hset := countP_left found t'
    rw [hthreads,htrace,List.countP_append,← h.count]
    omega

/-- A step that changes no descriptor, task or variable. -/
theorem Owned.silent (h : Owned s) (hthreads : u.threads = s.threads)
    (hclient : u.client = s.client) (hlistener : u.listener = s.listener)
    (huses : ∀ c, uses c u.trace = uses c s.trace)
    (hcount : u.trace.countP reports = s.trace.countP reports) : Owned u := by
  constructor
  · simpa only [huses] using h.valid
  · simpa only [huses,hthreads,hclient] using h.owner
  · simpa only [hthreads,hclient] using h.distinct
  · simpa only [huses,hthreads] using h.exits
  · simpa only [huses,hthreads,hclient,hlistener] using h.waits
  · simpa only [huses,hthreads,hclient,hlistener] using h.nonneg
  · rw [hthreads,hcount,h.count]

/-- A started task keeps its descriptor when the variable changes. -/
theorem view_started {t : AudioThread} (h : t.place ≠ .start) (client client' : Int) :
    view client t = view client' t := by
  simp [view,h]

/-- A descriptor that was free goes to the accept loop. -/
theorem accept_owned (h : Owned s) (spot : s.listener = .accept) (hc : 0 ≤ client)
    (hfree : phase client (uses client s.trace) = some .free) (hs : Started s) :
    Owned { s with
      client := client, listener := .create, trace := s.trace ++ [.accepted client] } := by
  have hview : ∀ t ∈ s.threads, view client t = view s.client t := fun t ht =>
    view_started (hs t ht) _ _
  have hself : uses client (s.trace ++ [.accepted client]) = uses client s.trace ++ [.accepted] := by
    rw [uses_append]
    simp [uses]
  have hother : ∀ c, c ≠ client → uses c (s.trace ++ [.accepted client]) = uses c s.trace := by
    intro c hne
    rw [uses_append]
    simp [uses,Ne.symm hne]
  have hnew : phase client (uses client (s.trace ++ [.accepted client])) = some .taken := by
    rw [hself,phase_snoc,hfree]
    rfl
  have hnobody : ∀ t ∈ s.threads, t.place ≠ .ended → view s.client t ≠ client := by
    intro t ht hplace he
    have howner := h.owner t ht hplace
    rw [he,hfree] at howner
    exact hplace (phaseOf_free (Option.some.inj howner).symm)
  obtain ⟨-,hviews,hunused⟩ := h.nonneg (by simp [spot])
  constructor
  · intro c
    by_cases hd : c = client
    · exact ⟨.taken,by rw [hd]; exact hnew⟩
    · rw [hother c hd]
      exact h.valid c
  · intro t ht hplace
    rw [hview t ht,hother _ (hnobody t ht hplace)]
    exact h.owner t ht hplace
  · intro i j t u hi hj ht hu he
    rw [hview t (List.mem_of_getElem? hi),hview u (List.mem_of_getElem? hj)] at he
    exact h.distinct i j t u hi hj ht hu he
  · intro c hr
    by_cases hd : c = client
    · rw [hd,hnew] at hr
      cases hr
    · rw [hother c hd] at hr
      exact h.exits c hr
  · intro _
    refine ⟨hnew,?_⟩
    intro t ht hplace
    rw [hview t ht]
    exact hnobody t ht hplace
  · intro _
    refine ⟨hc,?_,?_⟩
    · intro t ht
      rw [hview t ht]
      exact hviews t ht
    · intro c hneg
      have hne : c ≠ client := by omega
      rw [hother c hne]
      exact hunused c hneg
  · rw [List.countP_append,h.count]
    rfl

/-- A failed `accept` leaves its result in the variable; at most one task, the last
one created, is still to copy it. -/
theorem failed_owned (h : Owned s) (spot : s.listener = .accept) (hc : client < 0) :
    Owned { s with client := client, listener := .errorHandle } := by
  obtain ⟨hzero,hviews,hunused⟩ := h.nonneg (by simp [spot])
  have hstart : ∀ t : AudioThread, t.place = .start → view client t = client := by
    intro t ht
    simp [view,ht]
  have hother : ∀ t ∈ s.threads, t.place ≠ .start → view client t ≠ client := by
    intro t ht hplace
    have := hviews t ht
    rw [view_started hplace client s.client]
    omega
  constructor
  · exact h.valid
  · intro t ht hplace
    by_cases hp : t.place = .start
    · have hphase : phaseOf t = .taken := by simp [phaseOf,hp]
      simp only [hstart t hp,hunused client hc,hphase]
      simp [phase,hc]
    · simp only [view_started hp client s.client]
      exact h.owner t ht hplace
  · intro i j t u hi hj ht hu he
    by_cases hp : t.place = .start
    · by_cases hq : u.place = .start
      · exact h.distinct i j t u hi hj ht hu (by simp [view,hp,hq])
      · rw [hstart t hp] at he
        exact absurd he.symm (hother u (List.mem_of_getElem? hj) hq)
    · by_cases hq : u.place = .start
      · rw [hstart u hq] at he
        exact absurd he (hother t (List.mem_of_getElem? hi) hp)
      · rw [view_started hp client s.client,view_started hq client s.client] at he
        exact h.distinct i j t u hi hj ht hu he
  · exact h.exits
  · intro hl
    cases hl
  · intro hl
    exact absurd rfl hl
  · exact h.count

theorem spawn_owned (h : Owned s) (spot : s.listener = .create) (created : Bool) :
    Owned { s with
      listener := .accept, threads := s.threads ++ if created then [⟨.start,0,0⟩] else [] } := by
  obtain ⟨htaken,hnobody⟩ := h.waits spot
  obtain ⟨hzero,hviews,hunused⟩ := h.nonneg (by simp [spot])
  cases created with
  | false =>
    simp only [Bool.false_eq_true,if_false,List.append_nil]
    exact ⟨h.valid,h.owner,h.distinct,h.exits,by simp,fun _ => ⟨hzero,hviews,hunused⟩,h.count⟩
  | true =>
    have hnew : view s.client ⟨.start,0,0⟩ = s.client := by simp [view]
    have hget : ∀ (j : Nat) w, (s.threads ++ [⟨.start,0,0⟩])[j]? = some w →
        s.threads[j]? = some w ∨ j = s.threads.length ∧ w = ⟨.start,0,0⟩ := by
      intro j w hj
      rw [List.getElem?_append] at hj
      split_ifs at hj with hlt
      · exact .inl hj
      · obtain ⟨hk,hw⟩ := List.getElem?_eq_some_iff.mp hj
        simp only [List.length_singleton] at hk
        refine .inr ⟨by omega,?_⟩
        simpa using hw.symm
    simp only [if_true]
    constructor
    · exact h.valid
    · intro t ht hplace
      rcases List.mem_append.mp ht with ht | ht
      · exact h.owner t ht hplace
      · cases List.mem_singleton.mp ht
        simp only [hnew]
        exact htaken
    · intro i j t u hi hj ht hu he
      rcases hget i t hi with hi | ⟨rfl,rfl⟩
      · rcases hget j u hj with hj | ⟨rfl,rfl⟩
        · exact h.distinct i j t u hi hj ht hu he
        · rw [hnew] at he
          exact absurd he (hnobody t (List.mem_of_getElem? hi) ht)
      · rcases hget j u hj with hj | ⟨rfl,rfl⟩
        · rw [hnew] at he
          exact absurd he.symm (hnobody u (List.mem_of_getElem? hj) hu)
        · rfl
    · intro c hr
      obtain ⟨i,t,hi,hrest⟩ := h.exits c hr
      have hlt : i < s.threads.length := (List.getElem?_eq_some_iff.mp hi).1
      exact ⟨i,t,(List.getElem?_append_left hlt).trans hi,hrest⟩
    · intro hl
      cases hl
    · intro _
      refine ⟨hzero,?_,hunused⟩
      intro t ht
      rcases List.mem_append.mp ht with ht | ht
      · exact hviews t ht
      · rw [List.mem_singleton.mp ht,hnew]
        exact hzero
    · rw [List.countP_append,h.count]
      rfl

theorem step_owned (h : Owned s) (hf : Fresh s a) (ho : Orderly s a) (ht : step s a = some t) :
    Owned t := by
  cases step_move ht with
  | acceptError spot negative => exact failed_owned h spot negative
  | @accept client spot descriptor =>
    obtain ⟨p,hp⟩ := h.valid client
    have hfree := phase_fresh hp descriptor (hf descriptor)
    exact accept_owned h spot descriptor (hfree ▸ hp) (ho descriptor)
  | spawn spot created => exact spawn_owned h spot created
  | @thread i u act _ _ _ _ found moved =>
    refine thread_owned h found (move_logs moved) ?_ (move_view moved).1 rfl rfl rfl rfl
    rintro fits rfl
    exact ho rfl
  | @reader k _ _ _ _ events found read =>
    refine h.silent rfl rfl rfl ?_ ?_
    · intro c
      rw [uses_append,uses_reader,List.append_nil]
    · rw [List.countP_append,reports_reader,Nat.add_zero]

theorem run_owned (h : system.Run (fun s a => Fresh s a ∧ Orderly s a) acts s) : Owned s := by
  apply h.invariant (P := Owned) ?_ (fun _ _ _ ih hc ht => step_owned ih hc.1 hc.2 ht)
  refine ⟨?_,nofun,nofun,?_,nofun,fun _ => ⟨Int.le_refl 0,nofun,fun _ _ => rfl⟩,rfl⟩
  · intro c
    exact ⟨_,rfl⟩
  · intro c hr
    have hr : some (if c < 0 then Phase.taken else .free) = some .reported := hr
    split_ifs at hr <;> cases hr

/-- A task can only close at its exit. -/
theorem closing_iff (found : s.threads[i]? = some t) :
    (∀ act, (step s (.thread i act)).isSome ↔ act = .close) ↔ t.place = .exit := by
  constructor
  · intro h
    have hc := (h .close).mpr rfl
    by_contra hp
    cases hplace : t.place <;> simp [step,found,AudioThread.step,hplace] at hc hp
  · intro hp act
    cases act <;> simp [step,found,AudioThread.step,hp]

theorem Owned.released (h : Owned s) (hc : Counted s) : Released s := by
  constructor
  · intro c front v rest he hv
    obtain ⟨p,hp⟩ := h.valid c
    rw [he] at hp
    exact phase_last hp hv
  · intro c front v he hv
    obtain ⟨p,hp⟩ := h.valid c
    obtain rfl := (phase_reported hp).mpr ⟨front,v,he,hv⟩
    obtain ⟨i,t,hi,hclient,hexit⟩ := h.exits c hp
    exact ⟨i,t,hi,hclient,(closing_iff hi).mpr hexit⟩
  · intro c front rest he
    obtain ⟨p,hp⟩ := h.valid c
    rw [he] at hp
    exact phase_once hp
  · have hb := hc.bound
    have hsplit := List.length_eq_countP_add_countP inLoop (l := s.threads)
    have hn : s.threads.countP (fun t => decide ¬ inLoop t = true) =
        s.threads.countP (fun t => !inLoop t) := by
      apply List.countP_congr
      simp
    rw [length_views] at hb
    rw [← h.count]
    omega

section Violations
variable {s : State} {t : AudioThread} {i : Nat}

/-- A task copies the variable. -/
theorem copy_step (found : s.threads[i]? = some t) (spot : t.place = .start) :
    ∃ u, system.step s (.thread i .copy) = some u ∧
      u.threads = s.threads.set i ⟨.recv,s.client,0⟩ ∧ u.client = s.client ∧
      u.listener = s.listener ∧ u.trace = s.trace := by
  have hstep : step s (.thread i .copy) = some { s with
      threads := s.threads.set i ⟨.recv,s.client,0⟩
      readers := s.readers ++ []
      trace := s.trace ++ [] } := by
    simp only [step,found,Option.bind_eq_bind,Option.bind_some,AudioThread.step,spot]
    rfl
  exact ⟨_,hstep,rfl,rfl,rfl,List.append_nil _⟩

/-- Its `recv` fails. -/
theorem error_step (found : s.threads[i]? = some t) (spot : t.place = .recv) :
    ∃ u, system.step s (.thread i (.recv .error)) = some u ∧
      u.threads = s.threads.set i { t with place := .exit } ∧ u.client = s.client ∧
      u.listener = s.listener ∧ u.trace = s.trace ++ [.received i t.client (-1)] := by
  have hstep : step s (.thread i (.recv .error)) = some { s with
      threads := s.threads.set i { t with place := .exit }
      readers := s.readers ++ []
      trace := s.trace ++ [.received i t.client (-1)] } := by
    simp only [step,found,Option.bind_eq_bind,Option.bind_some,AudioThread.step,spot]
    rfl
  exact ⟨_,hstep,rfl,rfl,rfl,rfl⟩

/-- Where the variable changes under a task, that task and the next one share the
new descriptor, and one calls `recv` on it behind the error of the other. -/
theorem shared_descriptor (spot : s.listener = .create) (found : s.threads[i]? = some t)
    (hstart : t.place = .start) : ∃ u, system.Steps s u ∧ ¬ Released u := by
  obtain ⟨s₁,h₁,hthreads₁,hclient₁,hlistener₁,htrace₁⟩ := copy_step found hstart
  have hi : i < s.threads.length := (List.getElem?_eq_some_iff.mp found).1
  have hfound₁ : s₁.threads[i]? = some ⟨.recv,s.client,0⟩ := by
    rw [hthreads₁,List.getElem?_set_self hi]
  obtain ⟨s₂,h₂,hthreads₂,hclient₂,hlistener₂,htrace₂⟩ := error_step hfound₁ rfl
  have h₃ : system.step s₂ (.spawn true) = some { s₂ with
      listener := .accept, threads := s₂.threads ++ [⟨.start,0,0⟩] } := by
    simp [system,step,hlistener₂,hlistener₁,spot]
  have hnew : (s₂.threads ++ [⟨.start,0,0⟩])[s₂.threads.length]? = some ⟨.start,0,0⟩ :=
    List.getElem?_concat_length
  obtain ⟨s₄,h₄,hthreads₄,hclient₄,-,htrace₄⟩ := copy_step
    (s := { s₂ with listener := .accept, threads := s₂.threads ++ [⟨.start,0,0⟩] }) hnew rfl
  have hfound₄ : s₄.threads[s₂.threads.length]? = some ⟨.recv,s₂.client,0⟩ := by
    rw [hthreads₄,List.getElem?_set_self (by simp)]
  obtain ⟨s₅,h₅,-,-,-,htrace₅⟩ := error_step hfound₄ rfl
  have hsteps : system.Steps s s₅ := (System.Steps.two h₁ h₂).trans
    ((System.Steps.two h₃ h₄).trans (System.Steps.one h₅))
  refine ⟨s₅,hsteps,?_⟩
  intro hrel
  have huses : uses s.client s₅.trace =
      uses s.client s.trace ++ .received (-1) :: [.received (-1)] := by
    rw [htrace₅,htrace₄,htrace₂,htrace₁,uses_append,uses_append,List.append_assoc]
    simp [uses,hclient₂,hclient₁]
  have hrest := hrel.last s.client _ (-1) _ huses (by decide)
  simp at hrest

/-- A step against the condition breaks the release, at once or later. -/
theorem not_released (h : Owned s) (hbad : ¬ Orderly s a) (ht : step s a = some u) :
    ∃ v, system.Steps u v ∧ ¬ Released v := by
  cases step_move ht with
  | acceptError spot negative =>
    exact absurd (fun hc => absurd hc (Int.not_le.mpr negative)) hbad
  | accept spot descriptor =>
    obtain ⟨w,hw,hstart⟩ : ∃ w ∈ s.threads, w.place = .start := by
      simpa [Orderly,Started,descriptor] using hbad
    obtain ⟨i,hi⟩ := List.getElem?_of_mem hw
    exact shared_descriptor rfl hi hstart
  | spawn => exact absurd trivial hbad
  | reader => exact absurd trivial hbad
  | @thread i w act w' ring readers events found moved =>
    cases moved with
    | copy | recvError | write | checkPassed | checkFailed | create | close =>
      exact absurd trivial hbad
    | recvBytes spot data fits =>
      -- the task goes on to its write, and no other task holds the descriptor
      obtain rfl : data = [] := by simpa [Orderly] using hbad
      refine ⟨_,.refl _,?_⟩
      intro hrel
      have hi : i < s.threads.length := (List.getElem?_eq_some_iff.mp found).1
      obtain ⟨j,x,hj,hclient,hclose⟩ := hrel.closing w.client (uses w.client s.trace) 0 (by
        rw [uses_append]
        simp [uses]) (by decide)
      have hexit := (closing_iff hj).mp hclose
      rcases thread_after hi hj with ⟨-,rfl⟩ | ⟨hij,hj'⟩
      · cases hexit
      · have hview : view s.client x = view s.client w := by
          simp [view,hexit,spot,hclient]
        exact hij (h.distinct j i x w hj' found (by simp [hexit]) (by simp [spot]) hview).symm

end Violations

/-- Every descriptor is released in every state of every run in which `accept` returns
none that is in use, no `recv` returns 0, and no task still has to copy the variable
when `accept` returns the next descriptor; and behind a step against the latter two
some continuation does not release it. -/
theorem connections_released (acts : List Act) (s : State) :
    (system.Run (fun s a => Fresh s a ∧ Orderly s a) acts s → Released s) ∧
    ∀ a t, system.Run (fun s a => Fresh s a ∧ Orderly s a) acts s → Fresh s a →
      ¬ Orderly s a → system.step s a = some t → ∃ u, system.Steps t u ∧ ¬ Released u := by
  constructor
  · intro h
    exact (run_owned h).released (run_handed_or_lost (h.mono fun _ _ _ => trivial)).1
  · intro a t h _ hbad ht
    exact not_released (run_owned h) hbad ht

/-- The peer of the only connection closes it in an orderly way, and the next
`recv` on the descriptor fails. -/
def closedByPeer : List Act :=
  [.accept 54,.spawn true,.thread 0 .copy,.thread 0 (.recv (.bytes [] (by decide))),
    .thread 0 .write,.thread 0 .check,.thread 0 (.recv .error)]

/-- Two connections come in before the first task copies its descriptor, and both
tasks get an error on the second. -/
def bothOnSecond : List Act :=
  [.accept 54,.spawn true,.accept 55,.spawn true,.thread 0 .copy,.thread 1 .copy,
    .thread 0 (.recv .error),.thread 1 (.recv .error)]

/-- In the one run `recv` is called behind its 0; in the other, where it never
returns 0, behind the error another task got on the same descriptor. -/
theorem recv_after_report :
    (∃ s, system.Reaches s ∧ uses 54 s.trace = [.accepted,.received 0,.received (-1)]) ∧
    (∃ s, system.Reaches s ∧
      uses 55 s.trace = [.accepted,.received (-1),.received (-1)] ∧ uses 54 s.trace = [.accepted]) ∧
    ¬ ∀ s, system.Reaches s → Released s := by
  have hpeer : (system.exec (fun _ _ => True) system.init closedByPeer).map
      (fun s => uses 54 s.trace) = some [.accepted,.received 0,.received (-1)] := by
    decide +kernel
  have hsecond : (system.exec (fun _ _ => True) system.init bothOnSecond).map
      (fun s => (uses 55 s.trace,uses 54 s.trace)) =
        some ([.accepted,.received (-1),.received (-1)],[.accepted]) := by
    decide +kernel
  obtain ⟨s,hs,hus⟩ := Option.map_eq_some_iff.mp hpeer
  obtain ⟨t,ht,hut⟩ := Option.map_eq_some_iff.mp hsecond
  simp only [Prod.mk.injEq] at hut
  have hr := (System.run_of_exec hs).reaches
  refine ⟨⟨s,hr,hus⟩,⟨t,(System.run_of_exec ht).reaches,hut⟩,?_⟩
  intro hall
  have := (hall s hr).last 54 [.accepted] 0 [.received (-1)] hus (by decide)
  simp at this

/-- One connection fails, another on the same descriptor goes on beside a third. -/
def reconnects : List Act :=
  [.accept 54,.spawn true,.thread 0 .copy,.thread 0 (.recv .error),.thread 0 .close,
    .accept 54,.spawn true,.thread 1 .copy,.thread 1 (.recv (.bytes [8] (by decide))),
    .accept 55,.spawn true,.thread 2 .copy,.thread 1 .write,.thread 2 (.recv .error)]

theorem connections_released_reconnects :
    ∃ s, system.Run (fun s a => Fresh s a ∧ Orderly s a) reconnects s ∧ Released s ∧
      uses 54 s.trace = [.accepted,.received (-1),.closed,.accepted,.received 1] ∧
      uses 55 s.trace = [.accepted,.received (-1)] ∧ s.threads.countP inLoop = 1 := by
  have hrun : (system.exec (fun s a => Fresh s a ∧ Orderly s a) system.init reconnects).map
      (fun s => (uses 54 s.trace,uses 55 s.trace,s.threads.countP inLoop)) =
        some ([.accepted,.received (-1),.closed,.accepted,.received 1],
          [.accepted,.received (-1)],1) := by decide +kernel
  obtain ⟨s,hs,he⟩ := Option.map_eq_some_iff.mp hrun
  simp only [Prod.mk.injEq] at he
  have hr := System.run_of_exec hs
  exact ⟨s,hr,(connections_released reconnects s).1 hr,he⟩

end WifiSpeaker.Proofs.Releases
