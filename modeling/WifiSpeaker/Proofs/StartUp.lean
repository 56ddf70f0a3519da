import WifiSpeaker.Proofs.DataBufferShape
import WifiSpeaker.Proofs.SingleReader

namespace WifiSpeaker.Proofs.StartUp
open Common Server ServerSteps
open DataBuffer (Ring WriteCall numberOfBuffer lengthOfBuffer getBufferPercent bufferWriteData
  writePass)
open SingleReader (Armed Spent move_creates move_spent connect deliverSlot)
open DataBufferShape (Shape fill_slot commit_used write_pass init_shaped)

/-- A task spins on a slot the writer has filled, and nothing empties it. -/
def Stalled (s : State) : Prop :=
  s.readers = [] ∧ ∃ t ∈ s.threads, ∃ call, t.place = .write call ∧ 0 < call.size ∧
    (s.ring.dataBuffer call.current).dataBufferState = .prepared

/-- There is no spin without a reader, and a reader when the ring is full. -/
def Served (s : State) : Prop :=
  ¬ Stalled s ∧ (s.ring.bufferUsed = numberOfBuffer → s.readers ≠ [])

def received : Act → Nat
  | .thread _ (.recv (.bytes data _)) => data.length
  | _ => 0

/-- The number of bytes received in a run. -/
def total (acts : List Act) : Nat := (acts.map received).sum

/-- An `xTaskCreate` of a reader fails in the run. -/
def Failed (acts : List Act) : Prop := ∃ i, .thread i (.create none) ∈ acts

/-- What the tasks still have to write. -/
def pending (t : AudioThread) : Int :=
  match t.place with
  | .write call => call.size
  | _ => 0

theorem total_snoc (acts : List Act) (a : Act) : total (acts ++ [a]) = total acts + received a := by
  simp [total]

/-- The number of bytes in the ring while nothing has been read. -/
def stored (r : Ring) : Int :=
  lengthOfBuffer * r.bufferUsed + (r.dataBuffer r.currentWriteBuffer).used

/-- The ring while nothing has been read: a full one starts its next slot at 0. -/
structure Unread (r : Ring) : Prop where
  shape : Shape r
  full : r.bufferUsed = numberOfBuffer → (r.dataBuffer r.currentWriteBuffer).used = 0

/-- A call of the writer on the ring. -/
structure Calls (r : Ring) (c : WriteCall) : Prop where
  current : c.current = r.currentWriteBuffer
  enough : c.size ≤ c.data.length
  left : 0 ≤ c.size

theorem Unread.stored_nonneg (h : Unread r) : lengthOfBuffer * r.bufferUsed ≤ stored r := by
  have := (h.shape.offsets r.currentWriteBuffer).1
  unfold stored
  omega

theorem Unread.stored_lt (h : Unread r) : stored r < lengthOfBuffer * (r.bufferUsed + 1) := by
  have := (h.shape.offsets r.currentWriteBuffer).2
  unfold stored
  rw [Int.mul_add]
  omega

/-- A pass moves bytes from the call into the ring. -/
theorem Unread.pass (h : Unread r) (hc : Calls r c)
    (pass : writePass r c = some (r',next,copied)) :
    Unread r' ∧ (∀ c', next = some c' → Calls r' c') ∧
      stored r' + next.elim 0 WriteCall.size = stored r + c.size := by
  obtain ⟨hcur,henough,hleft⟩ := hc
  cases write_pass pass with
  | returns hz =>
    refine ⟨h,nofun,?_⟩
    simp only [Option.elim_none]
    omega
  | fill hz hf hr =>
    have hlt : r.bufferUsed < numberOfBuffer := h.shape.free_iff.mp (hcur ▸ hf)
    refine ⟨⟨h.shape.fill hcur henough hz hr,?_⟩,nofun,?_⟩
    · intro hfull
      exact absurd hfull (Int.ne_of_lt hlt)
    · change lengthOfBuffer * r.bufferUsed +
        ((r.fill c).dataBuffer r.currentWriteBuffer).used + 0 = stored r + c.size
      rw [fill_slot,if_pos hcur.symm,stored,hcur]
      dsimp only
      omega
  | commit hz hf hr =>
    have hnext : ((r.commit c).dataBuffer (r.commit c).currentWriteBuffer).used = 0 := by
      rw [commit_used]
      exact if_pos (Or.inl rfl)
    refine ⟨⟨h.shape.commit hcur henough hf hr,fun _ => hnext⟩,?_,?_⟩
    · intro c' hc'
      cases hc'
      have := h.shape.remain_pos c.current
      refine ⟨rfl,?_,?_⟩
      · rw [List.length_drop]
        dsimp only
        omega
      · exact Int.sub_nonneg.mpr hr
    · simp only [stored,hnext,Option.elim_some]
      change lengthOfBuffer * (r.bufferUsed + 1) + 0 + (c.size - r.remain c.current) = _
      rw [DataBuffer.Ring.remain,hcur,Int.mul_add]
      omega

/-- What a task knows of the ring as long as no creation has failed. The check
behind every chunk keeps the ring at two slots before the next one. -/
def Calm (r : Ring) (t : AudioThread) : Prop :=
  match t.place with
  | .start => r.bufferUsed ≤ 2
  | .recv => t.renderStatus = 0 ∧ r.bufferUsed ≤ 2
  | .write _ | .check => t.renderStatus = 0
  | .create => t.renderStatus = 1
  | .exit | .ended => True

/-- The only task before a reader exists. -/
structure Sole (acts : List Act) (r : Ring) (t : AudioThread) : Prop where
  ring : Unread r
  account : stored r + pending t = total acts
  calls : ∀ call, t.place = .write call → Calls r call
  calm : ¬ Failed acts → total acts < lengthOfBuffer * 4 ∧ Calm r t
  spent : Failed acts → Spent t

/-- A server with at most one task. -/
inductive Phase (acts : List Act) (s : State) : Prop
  | idle (threads : s.threads = []) (empty : s.readers = []) (ring : s.ring = system.init.ring)
      (nothing : total acts = 0) (created : ¬ Failed acts)
  | quiet (threads : s.threads = [t]) (empty : s.readers = []) (sole : Sole acts s.ring t)
  | served (threads : s.threads = [t]) (reader : s.readers ≠ []) (created : ¬ Failed acts)
      (spent : Spent t)

theorem failed_snoc : Failed (acts ++ [a]) ↔ Failed acts ∨ ∃ i, a = .thread i (.create none) := by
  simp only [Failed,List.mem_append,List.mem_singleton]
  constructor
  · rintro ⟨i,hm | hm⟩
    · exact .inl ⟨i,hm⟩
    · exact .inr ⟨i,hm.symm⟩
  · rintro (⟨i,hm⟩ | ⟨i,rfl⟩)
    · exact ⟨i,.inl hm⟩
    · exact ⟨i,.inr rfl⟩

theorem failed_same (hf : ∀ i, a ≠ .thread i (.create none)) :
    Failed (acts ++ [a]) ↔ Failed acts := by
  simp [failed_snoc,hf]

theorem total_same (hr : received a = 0) : total (acts ++ [a]) = total acts := by
  rw [total_snoc,hr,Nat.add_zero]

/-- A step of somebody else that the task does not notice. -/
theorem Phase.same (h : Phase acts s) (hring : t.ring = s.ring) (hthreads : t.threads = s.threads)
    (hreaders : t.readers = s.readers) (hr : received a = 0)
    (hf : ∀ i, a ≠ .thread i (.create none)) : Phase (acts ++ [a]) t := by
  have htotal : total (acts ++ [a]) = total acts := total_same hr
  have hfailed : Failed (acts ++ [a]) ↔ Failed acts := failed_same hf
  cases h with
  | idle threads empty ring nothing created =>
    exact .idle (hthreads.trans threads) (hreaders.trans empty) (hring.trans ring)
      (htotal.trans nothing) (fun hn => created (hfailed.mp hn))
  | quiet threads empty sole =>
    apply Phase.quiet (hthreads.trans threads) (hreaders.trans empty)
    rw [hring]
    refine ⟨sole.ring,?_,sole.calls,?_,?_⟩
    · rw [htotal]
      exact sole.account
    · rw [htotal,hfailed]
      exact sole.calm
    · rw [hfailed]
      exact sole.spent
  | served threads reader created spent =>
    exact .served (hthreads.trans threads) (hreaders ▸ reader) (fun hn => created (hfailed.mp hn))
      spent

/-- The task of the single connection is the first one. -/
theorem only_thread {threads : List AudioThread} {i : Nat} (found : threads[i]? = some t)
    (hone : threads.length ≤ 1) : threads = [t] ∧ i = 0 := by
  match threads, i, hone with
  | [u], 0, _ =>
    cases found
    exact ⟨rfl,rfl⟩
  | [u], i+1, _ => simp at found
  | [], i, _ => simp at found

theorem percent_eq (h : Shape r) : getBufferPercent r = 20 * r.bufferUsed := by
  have hb := h.counted
  unfold getBufferPercent numberOfBuffer
  rw [Int.tdiv_eq_ediv_of_nonneg (by omega)]
  omega

/-- A step of the task that receives nothing and creates nothing. -/
theorem Sole.on (h : Sole acts r t) (hr : received a = 0) (hf : ∀ i, a ≠ .thread i (.create none))
    (hring : Unread r') (haccount : stored r' + pending t' = stored r + pending t)
    (hcalls : ∀ call, t'.place = .write call → Calls r' call)
    (hcalm : Calm r t → total acts < lengthOfBuffer * 4 → Calm r' t')
    (hspent : Spent t → Spent t') : Sole (acts ++ [a]) r' t' := by
  have htotal : total (acts ++ [a]) = total acts := total_same hr
  have hfailed : Failed (acts ++ [a]) ↔ Failed acts := failed_same hf
  refine ⟨hring,?_,hcalls,?_,?_⟩
  · rw [htotal,haccount]
    exact h.account
  · rw [htotal,hfailed]
    intro hn
    obtain ⟨hlt,hc⟩ := h.calm hn
    exact ⟨hlt,hcalm hc hlt⟩
  · rw [hfailed]
    intro hn
    exact hspent (h.spent hn)

theorem Sole.armed (h : Sole acts r t) : Armed t := by
  intro spot
  by_cases hf : Failed acts
  · exact (h.spent hf).1
  · have hc := (h.calm hf).2
    simpa [Calm,spot] using hc

theorem sole_recv (h : Sole acts r t) (spot : t.place = .recv) (data : List UInt8)
    (fits : data.length ≤ sizeofChunk) :
    Sole (acts ++ [.thread i (.recv (.bytes data fits))]) r
      { t with place := .write (bufferWriteData r data data.length) } := by
  have hfailed : Failed (acts ++ [.thread i (.recv (.bytes data fits))]) ↔ Failed acts :=
    failed_same nofun
  have hpending : pending t = 0 := by simp [pending,spot]
  have haccount := h.account
  rw [hpending] at haccount
  refine ⟨h.ring,?_,?_,?_,?_⟩
  · rw [total_snoc]
    simp only [pending,bufferWriteData,received]
    omega
  · intro call hcall
    cases hcall
    exact ⟨rfl,Int.le_refl _,Int.natCast_nonneg _⟩
  · rw [hfailed]
    intro hn
    obtain ⟨-,hcalm⟩ := h.calm hn
    simp only [Calm,spot] at hcalm
    refine ⟨?_,hcalm.1⟩
    have hlt := h.ring.stored_lt
    rw [total_snoc]
    simp only [received]
    unfold lengthOfBuffer at hlt ⊢
    unfold sizeofChunk at fits
    omega
  · rw [hfailed]
    intro hn
    refine ⟨(h.spent hn).1,?_,?_⟩
    · intro hplace
      cases hplace
    · intro hplace
      cases hplace

theorem sole_move (h : Sole acts r t) (moved : ThreadMove t i r client act t' r' [] events) :
    Sole (acts ++ [.thread i act]) r' t' := by
  have hspent : Spent t → Spent t' := fun hs => (move_spent moved hs).1
  generalize hnone : ([] : List Reader) = readers at moved
  cases moved with
  | copy spot =>
    refine h.on rfl nofun h.ring ?_ nofun ?_ hspent
    · simp [pending,spot]
    · intro hc _
      simp only [Calm,spot] at hc
      exact ⟨rfl,hc⟩
  | recvError spot =>
    refine h.on rfl nofun h.ring ?_ nofun ?_ hspent
    · simp [pending,spot]
    · intro _ _
      trivial
  | recvBytes spot data fits => exact sole_recv h spot data fits
  | @write call r' next copied spot pass =>
    obtain ⟨hring,hcalls,hstored⟩ := h.ring.pass (h.calls call spot) pass
    refine h.on rfl nofun hring ?_ ?_ ?_ hspent
    · have hp : pending t = call.size := by simp [pending,spot]
      rw [hp,← hstored]
      cases next <;> rfl
    · intro c hc
      cases next with
      | none => cases hc
      | some =>
        cases hc
        exact hcalls c rfl
    · intro hc _
      simp only [Calm,spot] at hc
      cases next <;> exact hc
  | checkPassed spot =>
    refine h.on rfl nofun h.ring ?_ nofun ?_ hspent
    · simp [pending,spot]
    · intro _ _
      rfl
  | checkFailed spot held =>
    refine h.on rfl nofun h.ring ?_ nofun ?_ hspent
    · simp [pending,spot]
    · intro hc _
      simp only [Calm,spot] at hc
      have hp := percent_eq h.ring.shape
      exact ⟨hc,by omega⟩
  | create spot stack =>
    cases stack with
    | some stack => cases hnone
    | none =>
      refine ⟨h.ring,?_,nofun,?_,?_⟩
      · have hp : pending t = 0 := by simp [pending,spot]
        rw [total_same rfl,← h.account,hp]
        rfl
      · intro hn
        exact absurd (failed_snoc.mpr (.inr ⟨i,rfl⟩)) hn
      · intro _
        exact ⟨h.armed spot,nofun,nofun⟩
  | close spot =>
    refine h.on rfl nofun h.ring ?_ nofun ?_ hspent
    · simp [pending,spot]
    · intro _ _
      trivial

theorem init_unread : Unread system.init.ring := ⟨init_shaped.ring,fun _ => rfl⟩

/-- The task of the connection is created. -/
theorem sole_start (hn : total acts = 0) (hf : ¬ Failed acts) :
    Sole (acts ++ [.spawn true]) system.init.ring ⟨.start,0,0⟩ := by
  have hsame : Failed (acts ++ [.spawn true]) ↔ Failed acts := failed_same nofun
  refine ⟨init_unread,?_,nofun,?_,?_⟩
  · rw [total_same rfl,hn]
    rfl
  · intro _
    rw [total_same rfl,hn]
    refine ⟨by decide,?_⟩
    change (0 : Int) ≤ 2
    decide
  · intro hbad
    exact absurd (hsame.mp hbad) hf

theorem step_phase (h : s.threads.length ≤ 1 → Phase acts s) (ht : step s a = some t)
    (hone : t.threads.length ≤ 1) : Phase (acts ++ [a]) t := by
  cases step_move ht with
  | acceptError => exact (h hone).same rfl rfl rfl rfl nofun
  | accept => exact (h hone).same rfl rfl rfl rfl nofun
  | spawn spot created =>
    cases created with
    | false => exact (h (by simpa using hone)).same rfl (by simp) rfl rfl nofun
    | true =>
      have hnone : s.threads = [] := by simpa using hone
      cases h (by simp [hnone]) with
      | idle threads empty ring nothing created =>
        refine .quiet (t := ⟨.start,0,0⟩) (by simp [hnone]) empty ?_
        change Sole _ s.ring _
        rw [ring]
        exact sole_start nothing created
      | quiet threads => simp [hnone] at threads
      | served threads => simp [hnone] at threads
  | @thread i t act t' ring readers events found moved =>
    rw [List.length_set] at hone
    obtain ⟨honly,rfl⟩ := only_thread found hone
    have hset : s.threads.set 0 t' = [t'] := by simp [honly]
    cases h hone with
    | idle threads => simp [threads] at honly
    | quiet threads empty sole =>
      obtain rfl : _ = t := by simpa [threads] using honly
      rcases move_creates moved sole.armed with ⟨rfl,_⟩ | ⟨hlen,hcreator,hfresh,hspent⟩
      · exact .quiet hset (by simp [empty]) (sole_move sole moved)
      · refine .served hset ?_ ?_ hspent
        · intro hnil
          simp [(List.append_eq_nil_iff.mp hnil).2] at hlen
        · rw [failed_snoc]
          rintro (hf | ⟨j,hj⟩)
          · exact hfresh (sole.spent hf)
          · rw [hj] at hcreator
            cases hcreator
    | served threads reader created spent =>
      obtain rfl : _ = t := by simpa [threads] using honly
      obtain ⟨hspent,rfl⟩ := move_spent moved spent
      refine .served hset (by simpa using reader) ?_ hspent
      rw [failed_snoc]
      rintro (hf | ⟨j,hj⟩)
      · exact created hf
      · cases hj
        cases moved with
        | create spot => exact spent.2.1 spot
  | @reader k r _ _ _ _ found read =>
    cases h hone with
    | idle threads empty => simp [empty] at found
    | quiet threads empty => simp [empty] at found
    | served threads reader created spent =>
      refine .served threads ?_ ?_ spent
      · simpa using reader
      · intro hf
        have hsame : Failed (acts ++ [.reader k]) ↔ Failed acts := failed_same nofun
        exact created (hsame.mp hf)

theorem run_phase (h : system.Run (fun _ _ => True) acts s) (hone : s.threads.length ≤ 1) :
    Phase acts s := by
  refine h.history (P := fun acts s => s.threads.length ≤ 1 → Phase acts s) ?_ ?_ hone
  · intro _
    exact .idle rfl rfl rfl rfl nofun
  · intro acts s a t ih _ ht hone'
    exact step_phase ih ht hone'

theorem Sole.pending_nonneg (h : Sole acts r t) : 0 ≤ pending t := by
  unfold pending
  split
  · rename_i call spot
    exact (h.calls call spot).left
  · exact Int.le_refl 0

/-- A slot the writer spins on is one of a full ring. -/
theorem full_of_spin (h : Unread r) (hc : Calls r c)
    (hp : (r.dataBuffer c.current).dataBufferState = .prepared) :
    r.bufferUsed = numberOfBuffer := by
  have hle := h.shape.counted.2
  rcases Int.lt_or_eq_of_le hle with hlt | he
  · rw [hc.current,h.shape.free_iff.mpr hlt] at hp
    cases hp
  · exact he

/-- Without a reader the ring cannot be full if every creation succeeded, nor
with fewer bytes than it holds. -/
theorem Phase.served_of (h : Phase acts s)
    (hok : ¬ Failed acts ∨ total acts < numberOfBuffer * lengthOfBuffer) : Served s := by
  cases h with
  | idle threads empty ring nothing created =>
    constructor
    · rintro ⟨-,t,hm,-⟩
      simp [threads] at hm
    · intro hfull
      rw [ring] at hfull
      cases hfull
  | served threads reader created spent => exact ⟨fun hs => reader hs.1,fun _ => reader⟩
  | @quiet t threads empty sole =>
    have hroom : s.ring.bufferUsed ≠ numberOfBuffer := by
      intro hfull
      have hlow := sole.ring.stored_nonneg
      have haccount := sole.account
      have hleft := sole.pending_nonneg
      rw [hfull] at hlow
      have hbig : numberOfBuffer * lengthOfBuffer ≤ total acts := by
        unfold numberOfBuffer lengthOfBuffer at *
        omega
      rcases hok with hn | hlt
      · have hcalm := (sole.calm hn).1
        unfold numberOfBuffer lengthOfBuffer at *
        omega
      · omega
    constructor
    · rintro ⟨-,u,hm,call,hcall,-,hp⟩
      obtain rfl : u = t := by simpa [threads] using hm
      exact hroom (full_of_spin sole.ring (sole.calls call hcall) hp)
    · intro hfull
      exact absurd hfull hroom

/-- A write into a free slot gets on. -/
theorem pass_exists (hz : 0 < c.size) (hr : 0 < r.remain c.current)
    (hf : (r.dataBuffer c.current).dataBufferState = .unprepared) :
    ∃ r' next copied, writePass r c = some (r',next,copied) ∧
      next.elim 0 WriteCall.size < c.size := by
  have hsome : writePass r c ≠ none := by
    simp only [writePass,Int.not_le.mpr hz,hf,if_false,reduceCtorEq]
    split_ifs
    · exact Option.some_ne_none _
    · exact Option.some_ne_none _
  obtain ⟨⟨r',next,copied⟩,hpass⟩ := Option.ne_none_iff_exists'.mp hsome
  refine ⟨r',next,copied,hpass,?_⟩
  cases write_pass hpass with
  | returns => exact hz
  | fill => exact hz
  | commit =>
    simp only [Option.elim_some]
    omega

/-- With a failed creation the bytes of a whole ring end up in the ring. -/
theorem fills_up (h : system.Run (fun _ _ => True) acts s) (hone : s.threads.length ≤ 1)
    (hf : Failed acts) (hbig : numberOfBuffer * lengthOfBuffer ≤ total acts) :
    ∃ k t, system.Run (fun _ _ => True) (acts ++ List.replicate k (.thread 0 .write)) t ∧
      t.ring.bufferUsed = numberOfBuffer ∧ t.readers = [] := by
  cases run_phase h hone with
  | idle _ _ _ _ created => exact absurd hf created
  | served _ _ created => exact absurd hf created
  | @quiet t threads empty sole =>
    -- induction on what the task still has to write: every pass makes it less
    induction hn : (pending t).toNat using Nat.strong_induction_on generalizing acts s t with
    | _ n ih =>
      by_cases hfull : s.ring.bufferUsed = numberOfBuffer
      · exact ⟨0,s,by simpa using h,hfull,empty⟩
      · have hroom : s.ring.bufferUsed < numberOfBuffer :=
          lt_of_le_of_ne sole.ring.shape.counted.2 hfull
        have hpos : 0 < pending t := by
          have hlt := sole.ring.stored_lt
          have haccount := sole.account
          unfold numberOfBuffer lengthOfBuffer at *
          omega
        obtain ⟨call,spot⟩ : ∃ call, t.place = .write call := by
          unfold pending at hpos
          split at hpos
          · exact ⟨_,‹_›⟩
          · cases hpos
        have hsize : pending t = call.size := by simp [pending,spot]
        have hcall := sole.calls call spot
        have hfree : (s.ring.dataBuffer call.current).dataBufferState = .unprepared := by
          rw [hcall.current]
          exact sole.ring.shape.free_iff.mpr hroom
        obtain ⟨r',next,copied,hpass,hless⟩ :=
          pass_exists (hsize ▸ hpos) (sole.ring.shape.remain_pos call.current) hfree
        let t' : AudioThread := { t with place := next.elim .check .write }
        let s' : State := { s with
          ring := r', threads := [t'], readers := s.readers ++ [], trace := s.trace ++ [] }
        have hstep : system.step s (.thread 0 .write) = some s' := by
          simp [system,step,threads,AudioThread.step,spot,hpass,s',t']
        have hrun := h.next trivial hstep
        have hf' : Failed (acts ++ [.thread 0 .write]) := failed_snoc.mpr (.inl hf)
        have hbig' : numberOfBuffer * lengthOfBuffer ≤ total (acts ++ [.thread 0 .write]) := by
          rwa [total_same rfl]
        have hnext : pending t' = next.elim 0 WriteCall.size := by
          cases next <;> rfl
        have hmove : ThreadMove t 0 s.ring s.client .write t' r' [] [] := .write spot hpass
        obtain ⟨k,u,hu,hres⟩ := ih (pending t').toNat (by omega) hrun (Nat.le_refl 1) hf' hbig' rfl
          (by simp [s',empty]) (sole_move sole hmove) rfl
        refine ⟨k+1,u,?_,hres⟩
        simpa [List.replicate_succ] using hu

theorem run_spawned (h : system.Run ok acts s) : s.threads.length = acts.count (.spawn true) := by
  refine h.history (P := fun acts s => s.threads.length = acts.count (.spawn true)) rfl ?_
  intro acts s a t ih _ ht
  rw [List.count_append,← ih]
  cases step_move ht with
  | spawn spot created => cases created <;> simp
  | acceptError => simp
  | accept => simp
  | thread => simp
  | reader => simp

theorem failed_mono (hp : before <+: acts) (h : Failed before) : Failed acts := by
  obtain ⟨i,hm⟩ := h
  exact ⟨i,hp.subset hm⟩

theorem total_mono (hp : before <+: acts) : total before ≤ total acts := by
  obtain ⟨rest,rfl⟩ := hp
  simp [total]

theorem failed_writes (k : Nat) :
    Failed (acts ++ List.replicate k (.thread i .write)) ↔ Failed acts := by
  simp [Failed,List.mem_replicate]

theorem total_writes (k : Nat) :
    total (acts ++ List.replicate k (.thread i .write)) = total acts := by
  simp [total,received]

/-- With one connection, every state of a run and of the write it ends in is
served exactly when no creation of the reader fails or the run receives fewer
bytes than the ring holds. -/
theorem start_up_served_iff (h : system.Run (fun _ _ => True) acts s)
    (hone : acts.count (.spawn true) ≤ 1) :
    (∀ before k t, before <+: acts →
      system.Run (fun _ _ => True) (before ++ List.replicate k (.thread 0 .write)) t → Served t) ↔
    (¬ Failed acts ∨ total acts < numberOfBuffer * lengthOfBuffer) := by
  constructor
  · intro hall
    by_contra hbad
    rw [not_or,not_not,Nat.not_lt] at hbad
    have hlen : s.threads.length ≤ 1 := by rwa [run_spawned h]
    obtain ⟨k,t,ht,hfull,hnone⟩ := fills_up h hlen hbad.1 hbad.2
    exact (hall acts k t (List.prefix_refl acts) ht).2 hfull hnone
  · intro hok before k t hp ht
    have hlen : t.threads.length ≤ 1 := by
      rw [run_spawned ht,List.count_append,List.count_replicate]
      exact Nat.le_trans (hp.sublist.count_le _) hone
    apply (run_phase ht hlen).served_of
    rw [failed_writes,total_writes]
    rcases hok with hn | hlt
    · exact .inl (fun hf => hn (failed_mono hp hf))
    · exact .inr (Nat.lt_of_le_of_lt (total_mono hp) hlt)

/-- Three slots fill, the reader is or is not created, and two more slots fill. -/
def fiveSlots (stack : Option PrcessCharacter.Task) : List Act :=
  connect 54 0 ++ deliverSlot 0 ++ deliverSlot 0 ++ deliverSlot 0 ++
    [.thread 0 (.create stack)] ++ deliverSlot 0 ++ deliverSlot 0 ++
    [.thread 0 (.recv (.bytes [7] (by decide)))]

theorem failed_create_stalls :
    ¬ ∀ acts s, system.Run (fun _ _ => True) acts s → acts.count (.spawn true) ≤ 1 → Served s := by
  intro hall
  have hrun : (system.exec (fun _ _ => True) system.init (fiveSlots none)).map (fun s =>
      (s.readers.length,s.threads.map AudioThread.place,
        (s.ring.dataBuffer ⟨0,by decide⟩).dataBufferState)) =
      some (0,[.write ⟨⟨0,by decide⟩,[7],1⟩],.prepared) := by decide +kernel
  obtain ⟨s,hs,he⟩ := Option.map_eq_some_iff.mp hrun
  simp only [Prod.mk.injEq,List.length_eq_zero_iff] at he
  obtain ⟨hreaders,hplaces,hstate⟩ := he
  obtain ⟨t,hm,hp⟩ := List.mem_map.mp (hplaces ▸ List.mem_singleton_self _)
  have hserved := hall (fiveSlots none) s (System.run_of_exec hs) (by decide +kernel)
  exact hserved.1 ⟨hreaders,t,hm,_,hp,by decide,hstate⟩

/-- The action is no failed creation of the reader. -/
def goesWell : Act → Bool
  | .thread _ (.create none) => false
  | _ => true

/-- The same bytes with the reader created. -/
theorem start_up_served_created :
    ∃ s, system.Run (fun _ _ => True) (fiveSlots (some PrcessCharacter.zeroStack)) s ∧
      s.ring.bufferUsed = numberOfBuffer ∧ Served s := by
  have hrun : (system.exec (fun _ _ => True) system.init
      (fiveSlots (some PrcessCharacter.zeroStack))).map (fun s => s.ring.bufferUsed) = some 5 := by
    decide +kernel
  obtain ⟨s,hs,hused⟩ := Option.map_eq_some_iff.mp hrun
  have hr := System.run_of_exec hs
  have hn : ¬ Failed (fiveSlots (some PrcessCharacter.zeroStack)) := by
    have hall : (fiveSlots (some PrcessCharacter.zeroStack)).all goesWell = true := by
      decide +kernel
    rintro ⟨i,hm⟩
    cases List.all_eq_true.mp hall _ hm
  have hone : (fiveSlots (some PrcessCharacter.zeroStack)).count (.spawn true) ≤ 1 := by
    decide +kernel
  exact ⟨s,hr,hused,(start_up_served_iff hr hone).mpr (.inl hn) _ 0 s (List.prefix_refl _)
    (by simpa using hr)⟩

end WifiSpeaker.Proofs.StartUp
