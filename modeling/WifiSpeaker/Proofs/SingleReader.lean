import WifiSpeaker.Proofs.ServerSteps

namespace WifiSpeaker.Proofs.SingleReader
open Common Server ServerSteps
open DataBuffer (getBufferPercent)

/-- The thread, if any, that an action lets create a reader. -/
def creator : Act → Option Nat
  | .thread i (.create (some _)) => some i
  | _ => none

/-- A thread behind its `xTaskCreate`: it cannot get into the branch again. -/
def Spent (t : AudioThread) : Prop := t.renderStatus = 1 ∧ t.place ≠ .create ∧ t.place ≠ .start

/-- The branch is entered with `render_status` set. -/
def Armed (t : AudioThread) : Prop := t.place = .create → t.renderStatus = 1

theorem move_spent (h : ThreadMove t i ring client act t' ring' readers events) (hs : Spent t) :
    Spent t' ∧ readers = [] := by
  obtain ⟨hstatus,hcreate,hstart⟩ := hs
  cases h with
  | copy spot => exact absurd spot hstart
  | recvError => exact ⟨⟨hstatus,nofun,nofun⟩,rfl⟩
  | recvBytes => exact ⟨⟨hstatus,nofun,nofun⟩,rfl⟩
  | @write _ _ next _ _ _ =>
    cases next with
    | none => exact ⟨⟨hstatus,nofun,nofun⟩,rfl⟩
    | some => exact ⟨⟨hstatus,nofun,nofun⟩,rfl⟩
  | checkPassed _ _ fresh => exact absurd (hstatus.symm.trans fresh) (by decide)
  | checkFailed => exact ⟨⟨hstatus,nofun,nofun⟩,rfl⟩
  | create spot => exact absurd spot hcreate
  | close => exact ⟨⟨hstatus,nofun,nofun⟩,rfl⟩

/-- A thread step creates a reader exactly when its action says so, and is
then behind it. -/
theorem move_creates (h : ThreadMove t i ring client act t' ring' readers events) (ha : Armed t) :
    readers = [] ∧ creator (.thread i act) = none ∨
    readers.length = 1 ∧ creator (.thread i act) = some i ∧ ¬ Spent t ∧ Spent t' := by
  cases h with
  | create spot stack =>
    cases stack with
    | none => exact .inl ⟨rfl,rfl⟩
    | some stack => exact .inr ⟨rfl,rfl,fun hs => hs.2.1 spot,ha spot,nofun,nofun⟩
  | copy => exact .inl ⟨rfl,rfl⟩
  | recvError => exact .inl ⟨rfl,rfl⟩
  | recvBytes => exact .inl ⟨rfl,rfl⟩
  | write => exact .inl ⟨rfl,rfl⟩
  | checkPassed => exact .inl ⟨rfl,rfl⟩
  | checkFailed => exact .inl ⟨rfl,rfl⟩
  | close => exact .inl ⟨rfl,rfl⟩

/-- A thread that is about to create a reader. -/
def creating (t : AudioThread) : Bool := t.place = .create

/-- A check that gets into the branch finds no reader and no thread on the way to
creating one. -/
def Alone (s : State) : Act → Prop
  | .thread i .check => ∀ t ∈ s.threads[i]?, getBufferPercent s.ring > 50 → t.renderStatus = 0 →
      s.readers = [] ∧ ∀ u ∈ s.threads, u.place ≠ .create
  | _ => True

instance (s : State) (a : Act) : Decidable (Alone s a) :=
  match a with
  | .thread i .check => inferInstanceAs (Decidable (∀ t ∈ s.threads[i]?, _))
  | .thread _ .copy | .thread _ (.recv _) | .thread _ .write | .thread _ (.create _)
  | .thread _ .close | .accept _ | .spawn _ | .reader _ => isTrue trivial

/-- The readers there are and those on the way. -/
def readersToCome (s : State) : Nat := s.readers.length + s.threads.countP creating

/-- What a thread step does to the readers: only a check that passes gets one on the
way, and only `xTaskCreate` ends that. -/
theorem move_creating (h : ThreadMove t i ring client act t' ring' readers events) :
    readers.length + (if creating t' then 1 else 0) ≤ (if creating t then 1 else 0) ∨
    act = .check ∧ t.place = .check ∧ getBufferPercent ring > 50 ∧ t.renderStatus = 0 ∧
      readers = [] := by
  cases h with
  | checkPassed spot full fresh => exact .inr ⟨rfl,spot,full,fresh,rfl⟩
  | create spot stack =>
    left
    cases stack <;> simp [creating,spot]
  | copy spot => simp [creating]
  | recvError spot => simp [creating]
  | recvBytes spot => simp [creating]
  | @write _ _ next _ spot _ => cases next <;> simp [creating]
  | checkFailed spot => simp [creating]
  | close spot => simp [creating]

theorem countP_creating {threads : List AudioThread} (found : threads[i]? = some t)
    (t' : AudioThread) : (threads.set i t').countP creating + (if creating t then 1 else 0) =
      threads.countP creating + (if creating t' then 1 else 0) := by
  obtain ⟨hi,rfl⟩ := List.getElem?_eq_some_iff.mp found
  rw [List.countP_set hi]
  have hone : creating threads[i] = true → 0 < threads.countP creating := fun h =>
    List.countP_pos_iff.mpr ⟨threads[i],List.getElem_mem hi,h⟩
  split_ifs with h h'
  all_goals try have := hone h
  all_goals omega

/-- Under the condition there is at most one reader, counting one on the way. -/
theorem step_alone (h : readersToCome s ≤ 1) (hc : Alone s a) (ht : step s a = some t) :
    readersToCome t ≤ 1 := by
  cases step_move ht with
  | acceptError => exact h
  | accept => exact h
  | spawn spot created =>
    simp only [readersToCome,List.countP_append] at h ⊢
    cases created <;> simpa [creating] using h
  | reader found read => simpa [readersToCome] using h
  | @thread i u act u' ring readers events found moved =>
    have hcount := countP_creating found u'
    simp only [readersToCome,List.length_append] at h ⊢
    rcases move_creating moved with hle | ⟨rfl,spot,full,fresh,rfl⟩
    · omega
    · obtain ⟨hnone,hplaces⟩ := hc u found full fresh
      have hzero : s.threads.countP creating = 0 := by
        rw [List.countP_eq_zero]
        intro w hw
        simpa [creating] using hplaces w hw
      have hone : (if creating u' then 1 else 0) ≤ 1 := by split <;> decide
      simp only [hnone,List.length_nil]
      omega

theorem run_alone (h : system.Run Alone acts s) : readersToCome s ≤ 1 := by
  apply h.invariant (P := fun s => readersToCome s ≤ 1) (by decide)
  intro s a t ih hc ht
  exact step_alone ih hc ht

/-- A thread in front of its `xTaskCreate` gets its reader. -/
theorem create_step {s : State} (found : s.threads[i]? = some u) (spot : u.place = .create) :
    ∃ t, system.step s (.thread i (.create (some PrcessCharacter.zeroStack))) = some t ∧
      t.readers.length = s.readers.length + 1 ∧
      t.threads = s.threads.set i { u with place := .recv } := by
  have hstep : step s (.thread i (.create (some PrcessCharacter.zeroStack))) = some { s with
      threads := s.threads.set i { u with place := .recv }
      readers := s.readers ++ [.created PrcessCharacter.zeroStack]
      trace := s.trace ++ [] } := by
    simp only [step,found,Option.bind_eq_bind,Option.bind_some,AudioThread.step,spot]
    rfl
  exact ⟨_,hstep,by simp,rfl⟩

/-- A thread on the way to its reader, with a reader there or another thread on the
way, can make it two. -/
theorem two_created {s : State} {u : AudioThread} (found : s.threads[i]? = some u)
    (spot : u.place = .create) (h : s.readers ≠ [] ∨ ∃ (j : Nat) (w : AudioThread),
      i ≠ j ∧ s.threads[j]? = some w ∧ w.place = .create) :
    ∃ t, system.Steps s t ∧ 2 ≤ t.readers.length := by
  rcases h with hsome | ⟨j,w,hij,hj,hcreate⟩
  · obtain ⟨t,ht,hlen,-⟩ := create_step found spot
    have hpos : 0 < s.readers.length := List.length_pos_iff.mpr hsome
    exact ⟨t,.one ht,by omega⟩
  · obtain ⟨t₁,h₁,hlen₁,hthreads₁⟩ := create_step hj hcreate
    have hstill : t₁.threads[i]? = some u := by
      rw [hthreads₁,List.getElem?_set_ne hij.symm]
      exact found
    obtain ⟨t₂,h₂,hlen₂,-⟩ := create_step hstill spot
    exact ⟨t₂,.two h₁ h₂,by omega⟩

/-- A check against the condition lets a second reader come. -/
theorem two_readers_come (hc : ¬ Alone s a) (ht : step s a = some t) :
    ∃ u, system.Steps t u ∧ 2 ≤ u.readers.length := by
  obtain ⟨i,rfl⟩ : ∃ i, a = .thread i .check := by
    by_contra hne
    apply hc
    unfold Alone
    split
    · exact absurd ⟨_,rfl⟩ hne
    · trivial
  simp only [Alone,not_forall] at hc
  obtain ⟨u,found,full,fresh,hbusy⟩ := hc
  have hi : i < s.threads.length := (List.getElem?_eq_some_iff.mp found).1
  cases step_move ht with
  | thread found' moved =>
    cases found.symm.trans found'
    cases moved with
    | checkFailed spot held => exact absurd ⟨full,fresh⟩ held
    | checkPassed spot =>
      refine two_created (List.getElem?_set_self hi) rfl ?_
      rw [List.append_nil]
      by_cases hnone : s.readers = []
      · right
        obtain ⟨w,hw,hcreate⟩ : ∃ w ∈ s.threads, w.place = .create := by
          by_contra hno
          apply hbusy
          refine ⟨hnone,?_⟩
          intro w hw hcreate
          exact hno ⟨w,hw,hcreate⟩
        obtain ⟨j,hj⟩ := List.getElem?_of_mem hw
        have hij : i ≠ j := by
          rintro rfl
          cases found.symm.trans hj
          rw [spot] at hcreate
          cases hcreate
        exact ⟨j,w,hij,(List.getElem?_set_ne hij).trans hj,hcreate⟩
      · exact .inl hnone

/-- At most one `prcess_character` is alive in every state of every run whose checks
of the buffer find no reader and none on the way; and behind a check that finds one,
two can come to be alive. -/
theorem single_reader_kept (acts : List Act) (s : State) :
    (system.Run Alone acts s → s.readers.length ≤ 1) ∧
    ∀ a t, system.Reaches s → ¬ Alone s a → system.step s a = some t →
      ∃ u, system.Steps t u ∧ 2 ≤ u.readers.length := by
  constructor
  · intro h
    exact Nat.le_trans (Nat.le_add_right _ _) (run_alone h)
  · intro a t _ hc ht
    exact two_readers_come hc ht

/-- A connection is accepted and its task copies the descriptor. -/
def connect (client : Int) (i : Nat) : List Act :=
  [.accept client,.spawn true,.thread i .copy]

/-- A thread receives zero bytes, gets through their write in some passes, and checks. -/
def deliver (i n : Nat) (hn : n ≤ sizeofChunk) (passes : Nat) : List Act :=
  .thread i (.recv (.bytes (List.replicate n 0) (by rwa [List.length_replicate]))) ::
    (List.replicate passes (.thread i .write) ++ [.thread i .check])

/-- Five full chunks commit a slot. -/
def deliverSlot (i : Nat) : List Act :=
  (List.replicate 4 (deliver i 1024 (Nat.le_refl _) 1)).flatten ++ deliver i 1024 (Nat.le_refl _) 2

/-- The first client fills three slots and gets its reader; the second sends
one byte while they are still there. -/
def twoClients : List Act :=
  connect 54 0 ++ deliverSlot 0 ++ deliverSlot 0 ++ deliverSlot 0 ++
    [.thread 0 (.create (some PrcessCharacter.zeroStack))] ++
    connect 55 1 ++ deliver 1 1 (by decide) 1 ++
    [.thread 1 (.create (some PrcessCharacter.zeroStack))]

theorem twoClients_readers : (system.exec (fun _ _ => True) system.init twoClients).map
    (fun s => s.readers.length) = some 2 := by
  decide +kernel

theorem two_readers_alive :
    ¬ ∀ s, system.Reaches s → s.readers.length ≤ 1 := by
  intro h
  obtain ⟨s,hs,hlen⟩ := Option.map_eq_some_iff.mp twoClients_readers
  have := h s (System.run_of_exec hs).reaches
  omega

/-- One client gets its reader and goes on sending. -/
def oneClient : List Act :=
  connect 54 0 ++ deliverSlot 0 ++ deliverSlot 0 ++ deliverSlot 0 ++
    [.thread 0 (.create (some PrcessCharacter.zeroStack)),.reader 0] ++ deliverSlot 0

theorem single_reader_kept_oneClient :
    ∃ s, system.Run Alone oneClient s ∧ s.readers ≠ [] ∧ s.readers.length ≤ 1 := by
  have hrun : (system.exec Alone system.init oneClient).map (fun s => s.readers.length) =
      some 1 := by decide +kernel
  obtain ⟨s,hs,hlen⟩ := Option.map_eq_some_iff.mp hrun
  have hr : system.Run Alone oneClient s := System.run_of_exec hs
  refine ⟨s,hr,?_,(single_reader_kept oneClient s).1 hr⟩
  intro hnil
  rw [hnil] at hlen
  cases hlen

end WifiSpeaker.Proofs.SingleReader
