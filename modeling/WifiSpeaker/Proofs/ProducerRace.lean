import WifiSpeaker.Producers
import WifiSpeaker.Proofs.FifoQueue

namespace WifiSpeaker.Proofs.ProducerRace
open Common FifoSteps FifoQueue Producers
open SpiRamFifo hiding State Act step system

variable {ι : Type} {s t : State ι}

/-- A store leaves every chunk that another producer has already sized inside
the array at the new position. -/
def Clear (s : State ι) : Act ι → Prop
  | .writer i => ∀ buff buffLen n, s.writers i = .mux buff buffLen n →
      n ≤ spiRamSize - s.fifo.fifoFill →
      ∀ j, j ≠ i → ∀ buff' buffLen' n', s.writers j = .mux buff' buffLen' n' →
        wrap (s.fifo.fifoWpos + n) + n' ≤ spiRamSize
  | _ => True

/-- The FIFO without a writer is sound, and the place of each writer fits it. -/
structure Sound (s : State ι) : Prop where
  base : FifoQueue.Sound ⟨s.fifo,.idle,s.reader,s.trace⟩
  writers : ∀ i, WriterFits s.fifo (s.writers i)

theorem with_writer (h : FifoQueue.Sound ⟨f,w,r,trace⟩) (hw : WriterFits f w') :
    FifoQueue.Sound ⟨f,w',r,trace⟩ :=
  ⟨h.shape,hw,h.reader,h.mutex,h.inside,h.kept⟩

/-- A step of one writer and the chunk another one has sized. -/
theorem other_fits (hm : WriterMove f w f' w' events) (h : WriterFits f v)
    (hclear : ∀ buff buffLen n, w = .mux buff buffLen n → n ≤ spiRamSize - f.fifoFill →
      ∀ buff' buffLen' n', v = .mux buff' buffLen' n' → wrap (f.fifoWpos + n) + n' ≤ spiRamSize) :
    WriterFits f' v := by
  cases hm with
  | size | returns | full | woken | give | fill => exact h.mono (.inl rfl)
  | @store n buff buffLen free room =>
    cases v with
    | idle | fill => trivial
    | loop | canWrite | giveCanRead => exact h
    | mux buff' buffLen' n' =>
      obtain ⟨hb,hfits⟩ := h
      exact ⟨hb,hfits.some,hfits.asked,hfits.small,hclear buff buffLen n rfl room _ _ _ rfl⟩

theorem reader_step (h : Sound s) (hm : ReaderMove s.fifo s.reader f' r' events) :
    Sound { s with fifo := f', reader := r', trace := s.trace ++ events } := by
  constructor
  · exact (reader_sound h.base hm).1
  · intro i
    have hmine := reader_sound (s := ⟨s.fifo,s.writers i,s.reader,s.trace⟩)
      (with_writer h.base (h.writers i)) hm
    exact hmine.1.writer

theorem Sound.request (h : Sound s) (hidle : s.reader = .idle) (hr : ReaderFits s.fifo r)
    (hne : r ≠ .resetCanRead) : Sound { s with reader := r } := by
  have hmux : s.fifo.mux = true := h.base.mutex.mpr (by simp [hidle])
  exact ⟨⟨h.base.shape,trivial,hr,iff_of_true hmux hne,h.base.inside,h.base.kept⟩,h.writers⟩

section Steps
variable [DecidableEq ι]

theorem writer_step (h : Sound s) (hok : Clear s (.writer i))
    (hm : WriterMove s.fifo (s.writers i) f' w' events) :
    Sound { s.move i w' with fifo := f', trace := s.trace ++ events } := by
  have hmine := (writer_sound (s := ⟨s.fifo,s.writers i,s.reader,s.trace⟩)
    (with_writer h.base (h.writers i)) hm).1
  refine ⟨with_writer hmine trivial,?_⟩
  intro j
  change WriterFits f' (Function.update s.writers i w' j)
  rw [Function.update_apply]
  split_ifs with hj
  · exact hmine.writer
  · apply other_fits hm (h.writers j)
    intro buff buffLen n hw room
    exact hok buff buffLen n hw room j hj

/-- A call only moves its thread. -/
theorem Sound.move (h : Sound s) (hw : WriterFits s.fifo w) : Sound (s.move i w) := by
  refine ⟨h.base,?_⟩
  intro j
  change WriterFits s.fifo (Function.update s.writers i w j)
  rw [Function.update_apply]
  split_ifs
  · exact hw
  · exact h.writers j

theorem step_sound (h : Sound s) (hok : Clear s a) (ht : (system ι).step s a = some t) :
    Sound t := by
  cases a with
  | callWrite i buff buffLen =>
    simp only [system,step,Option.ite_none_right_eq_some,Option.some.injEq] at ht
    obtain ⟨⟨_,hlen⟩,rfl⟩ := ht
    exact h.move hlen
  | callFill i =>
    simp only [system,step,Option.ite_none_right_eq_some,Option.some.injEq] at ht
    obtain ⟨_,rfl⟩ := ht
    exact h.move trivial
  | writer i =>
    obtain ⟨⟨f',w',events⟩,hstep,ht⟩ := Option.bind_eq_some_iff.mp ht
    cases ht
    exact writer_step h hok (writer_move hstep)
  | callRead len =>
    simp only [system,step,Option.ite_none_right_eq_some,Option.some.injEq] at ht
    obtain ⟨hidle,rfl⟩ := ht
    exact h.request hidle trivial nofun
  | callReset =>
    simp only [system,step,Option.ite_none_right_eq_some,Option.some.injEq] at ht
    obtain ⟨hidle,rfl⟩ := ht
    exact h.request hidle trivial nofun
  | reader =>
    obtain ⟨⟨f',r',events⟩,hstep,ht⟩ := Option.bind_eq_some_iff.mp ht
    cases ht
    exact reader_step h (reader_move hstep)

/-- Every copy into the array stays inside it, and the positions and the fill
level agree. -/
def Protected (s : State ι) : Prop :=
  (∀ (pos n : Int) (bytes : List UInt8),
    .spiRamWrite pos n bytes ∈ s.trace → pos + n ≤ spiRamSize) ∧
  (0 ≤ s.fifo.fifoFill ∧ s.fifo.fifoFill ≤ spiRamSize) ∧
  s.fifo.fifoWpos = (s.fifo.fifoRpos + s.fifo.fifoFill) % spiRamSize

/-- The mutex protects the FIFO from any number of producers as long as no
store moves the write position under a chunk that another one has sized. -/
theorem producers_protected (h : (system ι).Run Clear acts s) : Protected s := by
  have h0 : Sound (system ι).init := ⟨init_sound,fun _ => trivial⟩
  have hs : Sound s := h.invariant h0 (fun _ _ _ hs hok ht => step_sound hs hok ht)
  refine ⟨?_,hs.base.shape.fill,hs.base.shape.cursors⟩
  intro pos n bytes hm
  exact (hs.base.inside _ hm).2.2.1

end Steps

/-- Two producers can be at these places with the FIFO like this. -/
def Stands (f : Fifo) (places : Bool → Writer) : Prop :=
  ∃ s, (system Bool).Reaches s ∧ s.fifo = f ∧ s.writers = places

theorem Stands.call (h : Stands f places) (i : Bool) (hi : places i = .idle)
    (hl : n ≤ buff.length) : Stands f (Function.update places i (.loop buff n)) := by
  obtain ⟨s,hr,rfl,rfl⟩ := h
  have hstep : (system Bool).step s (.callWrite i buff n) = some (s.move i (.loop buff n)) := by
    simp [system,step,hi,hl]
  exact ⟨_,hr.step hstep,rfl,rfl⟩

theorem writer_takes {s : State Bool} (hi : s.writers i = w)
    (hm : WriterMove s.fifo w f' w' events) : (system Bool).step s (.writer i) =
      some { s.move i w' with fifo := f', trace := s.trace ++ events } := by
  simp [system,step,hi,hm.takes]

theorem Stands.step (h : Stands f places) (hi : places i = w)
    (hm : WriterMove f w f' w' events) : Stands f' (Function.update places i w') := by
  obtain ⟨s,hr,rfl,rfl⟩ := h
  exact ⟨_,hr.step (writer_takes hi hm),rfl,rfl⟩

/-- A producer takes the size of a chunk before `mux`. -/
theorem Stands.size (h : Stands f places) (i : Bool) (hi : places i = .idle) (buff : List UInt8)
    (hpos : 0 < buff.length) :
    Stands f (Function.update places i
      (.mux buff buff.length (chunkSize buff.length f.fifoWpos))) := by
  have hcall := h.call i hi (Int.le_refl buff.length)
  have hsized := hcall.step (Function.update_self ..) (.size (Int.natCast_pos.mpr hpos))
  rwa [Function.update_idem] at hsized

/-- A producer stores the last chunk of its call and returns. -/
theorem Stands.store (h : Stands f places) (i : Bool) (hi : places i = .mux buff n n)
    (free : f.mux = true) (room : n ≤ spiRamSize - f.fifoFill) :
    Stands { f.store buff n with semCanRead := true } (Function.update places i .idle) := by
  have hstored := h.step hi (.store free room)
  have hgiven := hstored.step (Function.update_self ..) .give
  have hdone := hgiven.step (Function.update_self ..) (.returns (Int.le_of_eq (Int.sub_self n)))
  simpa only [Function.update_idem] using hdone

/-- The first producer writes one chunk. -/
theorem Stands.chunk (h : Stands f (fun _ => .idle)) (free : f.mux = true)
    (hpos : f.fifoWpos + 64 ≤ spiRamSize) (hroom : f.fifoFill + 64 ≤ spiRamSize)
    (buff : List UInt8) (hb : buff.length = 64) :
    Stands { f.store buff 64 with semCanRead := true } (fun _ => .idle) := by
  have hsize : chunkSize 64 f.fifoWpos = 64 := chunkSize_whole (Int.le_refl 64) hpos
  have hsized := h.size false rfl buff (by omega)
  rw [hb,show ((64 : Nat) : Int) = 64 from rfl,hsize] at hsized
  have hstored := hsized.store false (Function.update_self ..) free (by omega)
  rwa [Function.update_idem,Function.update_eq_self] at hstored

/-- One chunk is written and read again, so that the FIFO is empty behind it. -/
def oneThrough : List (Act Bool) :=
  .callWrite false (List.replicate 64 0) 64 :: List.replicate 4 (.writer false) ++
    .callRead 64 :: List.replicate 5 .reader

theorem stands_filled (k : Nat) (hk : k ≤ 1998) :
    ∃ f, Stands f (fun _ => .idle) ∧ f.mux = true ∧ f.fifoWpos = 64 * (k + 1) ∧
      f.fifoFill = 64 * k := by
  induction k with
  | zero =>
    have hrun : ((system Bool).exec (fun _ _ => True) (system Bool).init oneThrough).map (fun s =>
        (s.fifo.mux,s.fifo.fifoWpos,s.fifo.fifoFill,s.writers false,s.writers true)) =
          some (true,64,0,.idle,.idle) := by decide +kernel
    obtain ⟨s,hs,he⟩ := Option.map_eq_some_iff.mp hrun
    simp only [Prod.mk.injEq] at he
    obtain ⟨hmux,hpos,hfill,hfirst,hsecond⟩ := he
    refine ⟨s.fifo,⟨s,(System.run_of_exec hs).reaches,rfl,?_⟩,hmux,hpos,hfill⟩
    funext i
    cases i
    · exact hfirst
    · exact hsecond
  | succ k ih =>
    obtain ⟨f,hstands,hmux,hpos,hfill⟩ := ih (by omega)
    have hin : f.fifoWpos + 64 < spiRamSize := by
      rw [hpos]
      unfold spiRamSize
      omega
    have hchunk := hstands.chunk hmux (Int.le_of_lt hin) (by omega) (List.replicate 64 0)
      List.length_replicate
    refine ⟨_,hchunk,hmux,?_,?_⟩
    · change wrap (f.fifoWpos + 64) = _
      rw [wrap_inside hin,hpos]
      omega
    · change f.fifoFill + 64 = _
      rw [hfill]
      omega

/-- Two producers size their chunks 64 bytes before the end of the array. The
shorter one is stored first, and the longer one then runs over the end. -/
theorem producers_overrun : ¬ ∀ s, (system Bool).Reaches s → Protected s := by
  intro hall
  obtain ⟨f,hstands,hmux,hpos,hfill⟩ := stands_filled 1998 (Nat.le_refl _)
  have hshort : chunkSize 10 f.fifoWpos = 10 := by
    rw [hpos]
    decide
  have hlong : chunkSize 64 f.fifoWpos = 64 := by
    rw [hpos]
    decide
  have hfirst := hstands.size false rfl (List.replicate 10 0) (by decide)
  have hsecond := hfirst.size true rfl (List.replicate 64 0) (by decide)
  simp only [List.length_replicate,Int.cast_ofNat_Int,hshort,hlong] at hsecond
  have hplace : ∀ v w, Function.update (Function.update (fun _ => Writer.idle) false v) true w
      false = v := by simp
  have hstored := hsecond.store false (hplace _ _) hmux (by rw [hfill]; decide)
  obtain ⟨s,hr,hf,hw⟩ := hstored
  have hat : s.writers true = .mux (List.replicate 64 0) 64 64 := by simp [hw]
  have hroom : (64 : Int) ≤ spiRamSize - s.fifo.fifoFill := by
    rw [hf]
    change (64 : Int) ≤ spiRamSize - (f.fifoFill + 10)
    rw [hfill]
    decide
  have hwpos : s.fifo.fifoWpos = 127946 := by
    rw [hf]
    change wrap (f.fifoWpos + 10) = 127946
    rw [hpos]
    decide
  have hmux' : s.fifo.mux = true := by
    rw [hf]
    exact hmux
  have hstep := writer_takes hat (.store hmux' hroom)
  have hbound := (hall _ (hr.step hstep)).1 s.fifo.fifoWpos 64 _
    (List.mem_append_right _ (List.mem_singleton_self _))
  rw [hwpos] at hbound
  exact absurd hbound (by decide)

/-- No other producer is between the size of a chunk and its store. -/
def alone (s : State Bool) : Act Bool → Bool
  | .writer i => match s.writers (!i) with
    | .mux _ _ _ => false
    | _ => true
  | _ => true

theorem clear_of_alone {s : State Bool} (h : alone s a = true) : Clear s a := by
  cases a with
  | writer i =>
    intro buff buffLen n _ _ j hj buff' buffLen' n' hw
    obtain rfl : j = !i := by
      cases i <;> cases j <;> simp_all
    simp [alone,hw] at h
  | callWrite | callFill | callRead | callReset | reader => trivial

/-- Two producers store two bytes each. -/
theorem producers_protected_in_turn :
    ∃ acts s, (system Bool).Run Clear acts s ∧ s.fifo.fifoFill = 4 ∧ Protected s := by
  let acts : List (Act Bool) :=
    .callWrite false [1,2] 2 :: List.replicate 2 (.writer false) ++
      .callWrite true [3,4] 2 :: List.replicate 2 (.writer true)
  have hrun : ((system Bool).exec (fun s a => alone s a = true) (system Bool).init acts).map
      (fun s => s.fifo.fifoFill) = some 4 := by decide +kernel
  obtain ⟨s,hs,hfill⟩ := Option.map_eq_some_iff.mp hrun
  have hr := (System.run_of_exec hs).mono (fun _ _ => clear_of_alone)
  exact ⟨acts,s,hr,hfill,producers_protected hr⟩

end WifiSpeaker.Proofs.ProducerRace
