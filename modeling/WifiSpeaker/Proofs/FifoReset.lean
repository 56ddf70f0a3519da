import WifiSpeaker.Proofs.FifoQueue

namespace WifiSpeaker.Proofs.FifoReset
open Common SpiRamFifo FifoSteps FifoQueue

/-- A reset has taken `semCanRead` and no chunk has been announced since. -/
def Unsignalled (trace : List Event) : Prop :=
  ∃ old new, trace = old ++ .resetDone :: new ∧ .canRead ∉ new

theorem unsignalled_cons (e : Event) (trace : List Event) :
    Unsignalled trace ∨ e = .resetDone ∧ .canRead ∉ trace ↔ Unsignalled (e :: trace) := by
  constructor
  · rintro (⟨old,new,rfl,hnew⟩ | ⟨rfl,hnew⟩)
    · exact ⟨e :: old,new,rfl,hnew⟩
    · exact ⟨[],trace,rfl,hnew⟩
  · rintro ⟨old,new,heq,hnew⟩
    cases old with
    | nil =>
      obtain ⟨rfl,rfl⟩ := List.cons.inj heq
      exact .inr ⟨rfl,hnew⟩
    | cons x old =>
      obtain ⟨rfl,rfl⟩ := List.cons.inj heq
      exact .inl ⟨old,new,rfl,hnew⟩

instance decidableUnsignalled : (trace : List Event) → Decidable (Unsignalled trace)
  | [] => .isFalse (by rintro ⟨old,new,heq,_⟩; simp at heq)
  | e :: trace =>
    have := decidableUnsignalled trace
    decidable_of_iff _ (unsignalled_cons e trace)

theorem unsignalled_snoc (trace : List Event) (e : Event) :
    Unsignalled (trace ++ [e]) ↔ e = .resetDone ∨ (Unsignalled trace ∧ e ≠ .canRead) := by
  constructor
  · rintro ⟨old,new,heq,hnew⟩
    rcases List.eq_nil_or_concat new with rfl | ⟨new,last,rfl⟩
    · exact .inl (List.singleton_inj.mp (List.append_inj' heq rfl).2)
    · rw [List.concat_eq_append,← List.cons_append,← List.append_assoc] at heq
      obtain ⟨htrace,hlast⟩ := List.append_inj' heq rfl
      cases hlast
      refine .inr ⟨⟨old,new,htrace,?_⟩,?_⟩
      · intro hm
        exact hnew (by simp [hm])
      · rintro rfl
        exact hnew (by simp)
  · rintro (rfl | ⟨⟨old,new,rfl,hnew⟩,he⟩)
    · exact ⟨trace,[],rfl,nofun⟩
    · refine ⟨old,new ++ [e],by simp,?_⟩
      intro hm
      rcases List.mem_append.mp hm with hm | hm
      · exact hnew hm
      · exact he (List.mem_singleton.mp hm).symm

/-- `semCanRead` is available unless a reset has taken it and no chunk was
announced since: with one reader no read ever takes it. -/
def Counted (s : State) : Prop := s.fifo.semCanRead = true ↔ ¬ Unsignalled s.trace

/-- A step with an event that is neither an announced chunk nor the end of a reset. -/
theorem Counted.other (h : Counted s) (hsem : f'.semCanRead = s.fifo.semCanRead)
    (hdone : e ≠ .resetDone) (hgive : e ≠ .canRead) : Counted ⟨f',w',r',s.trace ++ [e]⟩ := by
  have hsame : Unsignalled (s.trace ++ [e]) ↔ Unsignalled s.trace := by
    simp [unsignalled_snoc,hdone,hgive]
  simp only [Counted]
  rw [hsame,hsem]
  exact h

theorem writer_counted (h : Counted s) (hm : WriterMove s.fifo s.writer f' w' events) :
    Counted ⟨f',w',s.reader,s.trace ++ events⟩ := by
  obtain ⟨f,w,r,trace⟩ := s
  cases hm with
  | size | returns | full | woken => simpa [Counted] using h
  | store | fill => exact h.other rfl nofun nofun
  | give => simp [Counted,unsignalled_snoc]

theorem reader_counted (hs : Sound s) (h : Counted s)
    (hm : ReaderMove s.fifo s.reader f' r' events) :
    Counted ⟨f',s.writer,r',s.trace ++ events⟩ := by
  obtain ⟨f,w,r,trace⟩ := s
  cases hm with
  | clamp | size | short | low | high | give => simpa [Counted] using h
  | nothing | returns | load | reset => exact h.other rfl nofun nofun
  | woken => exact hs.reader.elim
  | resetDone => simp [Counted,unsignalled_snoc]

theorem step_counted (hs : Sound s) (h : Counted s) (ht : step s a = some t) : Counted t := by
  cases threads_move ht with
  | callWrite | callFill | callRead | callReset => exact h
  | writer move => exact writer_counted h move
  | reader move => exact reader_counted hs h move

theorem run_counted (h : system.Run ok acts s) : Sound s ∧ Counted s := by
  apply h.invariant (P := fun s => Sound s ∧ Counted s) ?_
    (fun _ _ _ hs _ ht => ⟨(step_sound hs.1 ht).1,step_counted hs.1 hs.2 ht⟩)
  refine ⟨init_sound,fun _ => ?_,fun _ => rfl⟩
  rintro ⟨old,new,heq,_⟩
  simp [system] at heq

/-- A reset enters its critical section only if no reset has ended before, or
a chunk has been announced since. -/
def Signalled (s : State) : Act → Prop
  | .reader => s.reader = .resetMux → ¬ Unsignalled s.trace
  | _ => True

instance (s : State) (a : Act) : Decidable (Signalled s a) :=
  match a with
  | .callWrite _ _ => inferInstanceAs (Decidable True)
  | .callFill => inferInstanceAs (Decidable True)
  | .callRead _ => inferInstanceAs (Decidable True)
  | .callReset => inferInstanceAs (Decidable True)
  | .writer => inferInstanceAs (Decidable True)
  | .reader => inferInstanceAs (Decidable (_ → ¬ _))

/-- No reset waits for `semCanRead` with `mux` in its hands. -/
def Granted (s : State) : Prop := s.reader = .resetCanRead → s.fifo.semCanRead = true

theorem step_granted (hc : Counted s) (h : Granted s) (hok : Signalled s a)
    (ht : step s a = some t) : Granted t := by
  cases threads_move ht with
  | callWrite | callFill => exact h
  | callRead | callReset =>
    intro hreset
    cases hreset
  | writer move =>
    obtain ⟨f,w,r,trace⟩ := s
    cases move with
    | size | returns | full | store | woken | fill => exact h
    | give => exact fun _ => rfl
  | reader move =>
    obtain ⟨f,w,r,trace⟩ := s
    cases move with
    | nothing | clamp | size | returns | short | load | low | high | woken | give | resetDone =>
      intro hreset
      cases hreset
    | reset => exact fun _ => hc.mpr (hok rfl)

/-- The reading thread waits for nothing else: with one reader `mux` is free
whenever it wants it, and the bytes it asks for are there. -/
theorem reader_goes_on (hs : Sound s) (h : Granted s) (hbusy : s.reader ≠ .idle) :
    s.reader.step s.fifo ≠ none := by
  obtain ⟨f,w,r,trace⟩ := s
  have hfree : r ≠ .resetCanRead → f.mux = true := hs.mutex.mpr
  cases r with
  | idle => exact absurd rfl hbusy
  | entry | loop | lowmark =>
    simp only [Reader.step]
    split
    · exact Option.some_ne_none _
    · exact Option.some_ne_none _
  | mux =>
    simp only [Reader.step,hfree Reader.noConfusion,if_true]
    split
    · exact Option.some_ne_none _
    · exact Option.some_ne_none _
  | canRead => exact hs.reader.elim
  | giveCanWrite => exact Option.some_ne_none _
  | resetMux => simp [Reader.step,hfree Reader.noConfusion]
  | resetCanRead =>
    have hsem : f.semCanRead = true := h rfl
    simp [Reader.step,hsem]

theorem run_granted (h : system.Run Signalled acts s) : Granted s := by
  have hboth : (Sound s ∧ Counted s) ∧ Granted s := by
    apply h.invariant (P := fun s => (Sound s ∧ Counted s) ∧ Granted s) ?_ ?_
    · exact ⟨run_counted (.start : system.Run Signalled [] system.init),nofun⟩
    · intro s a t hs hok ht
      exact ⟨⟨(step_sound hs.1.1 ht).1,step_counted hs.1.1 hs.1.2 ht⟩,
        step_granted hs.1.2 hs.2 hok ht⟩
  exact hboth.2

/-- A reset that is entered with nothing announced waits with `mux` taken. -/
theorem signalled_of_granted (hc : Counted s) (ht : step s a = some t) (h : Granted t) :
    Signalled s a := by
  cases threads_move ht with
  | callWrite | callFill | callRead | callReset | writer => trivial
  | reader move =>
    intro hreset
    obtain ⟨f,w,r,trace⟩ := s
    cases hreset
    cases move with
    | reset => exact hc.mp (h rfl)

/-- In a run no reset ever waits for `semCanRead` while it holds `mux`, and the
reading thread is never held up at all, exactly when every reset is entered with
a chunk announced since the reset before it. -/
theorem reset_never_waits_iff (h : system.Run (fun _ _ => True) acts s) :
    (∀ front t, front <+: acts → system.Run (fun _ _ => True) front t →
      (t.reader = .resetCanRead → t.fifo.semCanRead = true) ∧
      (t.reader ≠ .idle → t.reader.step t.fifo ≠ none)) ↔ system.Run Signalled acts s := by
  constructor
  · intro hall
    induction h with
    | start => exact .start
    | @next acts s a t hr _ ht ih =>
      have hfront := ih (fun front t hp => hall front t (hp.trans (List.prefix_append _ _)))
      have hgranted := hall _ t (List.prefix_refl _) (.next hr trivial ht)
      exact .next hfront (signalled_of_granted (run_counted hr).2 ht hgranted.1) ht
  · intro hrun front t hp ht
    obtain ⟨t',ht'⟩ := hrun.before hp
    cases ht.unique ht'
    have hgranted := run_granted ht'
    exact ⟨hgranted,reader_goes_on (run_counted ht).1 hgranted⟩

/-- Two resets in a row: the second finds `semCanRead` taken and keeps `mux`. -/
theorem second_reset_waits :
    ¬ ∀ s, system.Reaches s → (s.reader = .resetCanRead → s.fifo.semCanRead = true) := by
  let acts : List Act := [.callReset,.reader,.reader,.callReset,.reader]
  have hrun : (system.exec (fun _ _ => True) system.init acts).map
      (fun s => (s.reader,s.fifo.semCanRead)) = some (.resetCanRead,false) := by
    decide +kernel
  obtain ⟨s,hs,he⟩ := Option.map_eq_some_iff.mp hrun
  simp only [Prod.mk.injEq] at he
  intro h
  have := h s (System.run_of_exec hs).reaches he.1
  rw [he.2] at this
  cases this

/-- A reset, a byte written and announced, and another reset, which does not wait. -/
theorem reset_never_waits_iff_rearmed :
    ∃ acts s, system.Run Signalled acts s ∧ s.reader = .resetCanRead ∧
      ∀ front t, front <+: acts → system.Run (fun _ _ => True) front t →
        (t.reader = .resetCanRead → t.fifo.semCanRead = true) ∧
        (t.reader ≠ .idle → t.reader.step t.fifo ≠ none) := by
  let acts : List Act := [.callReset,.reader,.reader,.callWrite [7] 1,.writer,.writer,.writer,
    .callReset,.reader]
  have hrun : (system.exec Signalled system.init acts).map (fun s => s.reader) =
      some .resetCanRead := by
    decide +kernel
  obtain ⟨s,hs,he⟩ := Option.map_eq_some_iff.mp hrun
  have h := System.run_of_exec hs
  exact ⟨acts,s,h,he,(reset_never_waits_iff (h.mono (fun _ _ _ => trivial))).mpr h⟩

end WifiSpeaker.Proofs.FifoReset
