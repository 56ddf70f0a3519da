import WifiSpeaker.SpiRamFifoCalls
import WifiSpeaker.Proofs.FifoSteps

namespace WifiSpeaker.Proofs.FifoWakeup
open Common SpiRamFifo FifoSteps

/-- What a writer that waits with a chunk of `n` bytes can count on: `semCanWrite`
is there, or about to be given, or the room is lacking still. -/
def Wakes (f : Fifo) (r : Reader) (n : Int) : Prop :=
  f.semCanWrite = true ∨ (∃ len m, r = .giveCanWrite len m) ∨ spiRamSize - f.fifoFill < n

/-- The recorded `n` is the one the writer tests with, and a wait is not in vain. -/
def Attended (f : Fifo) (r : Reader) (n : Int) : Writer → Prop
  | .mux _ _ n' => n = n'
  | .canWrite _ _ => Wakes f r n
  | _ => True

/-- Room comes from the reading thread alone, and it gives `semCanWrite` behind it. -/
theorem Wakes.reader (h : Wakes f r n) (hm : ReaderMove f r f' r' events) : Wakes f' r' n := by
  cases hm with
  | give | reset => exact .inl rfl
  | load => exact .inr (.inl ⟨_,_,rfl⟩)
  | nothing | clamp | size | returns | short | low | high | woken | resetDone =>
    rcases h with hsem | ⟨len,m,hr⟩ | hlacks
    · exact .inl hsem
    · cases hr
    · exact .inr (.inr hlacks)

theorem Wakes.call (h : Wakes f .idle n) (r : Reader) : Wakes f r n := by
  rcases h with hsem | ⟨len,m,hr⟩ | hlacks
  · exact .inl hsem
  · cases hr
  · exact .inr (.inr hlacks)

/-- What a step of the reading thread keeps for a waiting writer is all there is to show. -/
theorem Attended.mono (h : Attended f r n w) (hw : Wakes f r n → Wakes f' r' n) :
    Attended f' r' n w := by
  cases w with
  | idle | loop | giveCanRead | fill => trivial
  | mux => exact h
  | canWrite => exact hw h

/-- The record does not touch what it follows. -/
theorem record_base (s : Recorded) (t : State) (a : Act) : (record s t a).base = t := by
  cases a with
  | callWrite | callFill | callRead | callReset => rfl
  | writer | reader =>
    simp only [record]
    split <;> rfl

theorem record_reader_n (s : Recorded) (t : State) : (record s t .reader).n = s.n := by
  simp only [record]
  split <;> rfl

/-- The writer goes to wait only behind a test that found no room. -/
theorem writer_attended (h : Attended s.base.fifo r s.n s.base.writer)
    (hm : WriterMove s.base.fifo s.base.writer f' w' events) :
    Attended f' r (record s ⟨f',w',r,trace⟩ .writer).n w' := by
  obtain ⟨⟨f,w,r',trace'⟩,n,c,returns⟩ := s
  cases hm with
  | size => rfl
  | returns | store | woken | give | fill => trivial
  | full free lacks =>
    have hn : n = _ := h
    subst hn
    exact .inr (.inr lacks)

theorem step_attended (h : Attended s.base.fifo s.base.reader s.n s.base.writer)
    (ht : recorded.step s a = some t) : Attended t.base.fifo t.base.reader t.n t.base.writer := by
  obtain ⟨u,hu,rfl⟩ := Option.map_eq_some_iff.mp ht
  rw [record_base]
  cases threads_move hu with
  | callWrite | callFill => trivial
  | callRead idle | callReset idle =>
    rw [idle] at h
    exact h.mono (fun hw => hw.call _)
  | writer move => exact writer_attended h move
  | reader move =>
    rw [record_reader_n]
    exact h.mono (fun hw => hw.reader move)

theorem reaches_attended (h : recorded.Reaches s) :
    Attended s.base.fifo s.base.reader s.n s.base.writer := by
  refine h.invariant (P := fun s => Attended s.base.fifo s.base.reader s.n s.base.writer) ?_ ?_
  · trivial
  · intro s a t hs ht
    exact step_attended hs ht

/-- No lost wake-up: a writer that waits for `semCanWrite` while it is not available
and the reading thread is not about to give it has no room for its chunk. -/
theorem waiting_writer_lacks_room (h : recorded.Reaches s)
    (hw : s.base.writer = .canWrite buff buffLen) (hsem : s.base.fifo.semCanWrite = false)
    (hr : ∀ len m, s.base.reader ≠ .giveCanWrite len m) :
    spiRamSize - s.base.fifo.fifoFill < s.n := by
  have hattended := reaches_attended h
  rw [hw] at hattended
  rcases hattended with hgiven | ⟨len,m,hgive⟩ | hlacks
  · rw [hsem] at hgiven
    cases hgiven
  · exact absurd hgive (hr len m)
  · exact hlacks

/-- The writing thread alone, with the reader between calls. -/
def Stands (f : Fifo) (w : Writer) : Prop :=
  ∃ s, recorded.Reaches s ∧ s.base.fifo = f ∧ s.base.writer = w ∧ s.base.reader = .idle

theorem Stands.writer (h : Stands f w) (hm : WriterMove f w f' w' events) : Stands f' w' := by
  obtain ⟨s,hr,rfl,rfl,hidle⟩ := h
  have hstep : recorded.step s .writer =
      some (record s ⟨f',w',s.base.reader,s.base.trace ++ events⟩ .writer) := by
    simp [recorded,step,hm.takes]
  refine ⟨_,hr.step hstep,?_,?_,?_⟩
  · rw [record_base]
  · rw [record_base]
  · rw [record_base]
    exact hidle

theorem stands_call (buff : List UInt8) (h : buffLen ≤ (buff.length : Int)) :
    Stands spiRamFifoInit (.loop buff buffLen) := by
  have hcall : recorded.step recorded.init (.callWrite buff buffLen) =
      some (record recorded.init ⟨spiRamFifoInit,.loop buff buffLen,.idle,[]⟩
        (.callWrite buff buffLen)) := by
    simp only [recorded,step,system,h,and_true,if_true,Option.map_some]
  exact ⟨_,(System.Reaches.init recorded).step hcall,rfl,rfl,rfl⟩

/-- A write of one byte more than the array holds, `k` chunks on. -/
theorem stands_filled (k : Nat) (hk : k ≤ 2000) :
    ∃ f buff, Stands f (.loop buff (128001 - 64 * k)) ∧ f.mux = true ∧ f.semCanWrite = true ∧
      f.fifoFill = 64 * k ∧ f.fifoWpos = 64 * k % spiRamSize := by
  induction k with
  | zero =>
    have hlen : (128001 : Int) ≤ (List.replicate 128001 (0 : UInt8)).length := by
      rw [List.length_replicate]
      exact Int.le_refl _
    exact ⟨_,_,stands_call _ hlen,rfl,rfl,rfl,rfl⟩
  | succ k ih =>
    obtain ⟨f,buff,h,hmux,hsem,hfill,hpos⟩ := ih (by omega)
    have hwpos : f.fifoWpos = 64 * k := by
      rw [hpos]
      unfold spiRamSize
      omega
    have hsize := h.writer (.size (by omega))
    rw [chunkSize_whole (by omega) (by rw [hwpos]; unfold spiRamSize; omega)] at hsize
    have hstore := hsize.writer (.store hmux (by rw [hfill]; unfold spiRamSize; omega))
    have hgive := hstore.writer .give
    have hleft : (128001 - 64 * (k : Int)) - 64 = 128001 - 64 * ((k + 1 : Nat) : Int) := by omega
    rw [hleft] at hgive
    refine ⟨_,_,hgive,hmux,hsem,?_,?_⟩
    · change f.fifoFill + 64 = _
      omega
    · change wrap (f.fifoWpos + 64) = _
      rw [hwpos]
      unfold wrap spiRamSize
      split <;> omega

/-- The array is full, and the writer has found it full twice: the second time it
waits with nobody to wake it, and rightly so. -/
theorem waiting_writer_lacks_room_full :
    ∃ s buff, recorded.Reaches s ∧ s.base.writer = .canWrite buff 1 ∧
      s.base.fifo.semCanWrite = false ∧ s.base.reader = .idle ∧
      spiRamSize - s.base.fifo.fifoFill < s.n := by
  obtain ⟨f,buff,h,hmux,hsem,hfill,hpos⟩ := stands_filled 2000 (Nat.le_refl _)
  have hone : chunkSize 1 f.fifoWpos = 1 := by
    rw [hpos]
    decide
  have hlacks : spiRamSize - f.fifoFill < 1 := by
    rw [hfill]
    decide
  have hsize := h.writer (.size (by decide))
  rw [show (128001 - 64 * (2000 : Nat) : Int) = 1 from rfl,hone] at hsize
  have hwoken := (hsize.writer (.full hmux hlacks)).writer (.woken hsem)
  have hagain := hwoken.writer (.size (by decide))
  rw [hone] at hagain
  obtain ⟨s,hr,hf,hw,hidle⟩ := hagain.writer (.full hmux hlacks)
  have htaken : s.base.fifo.semCanWrite = false := by rw [hf]
  refine ⟨s,buff,hr,hw,htaken,hidle,waiting_writer_lacks_room hr hw htaken ?_⟩
  intro len m hgive
  rw [hidle] at hgive
  cases hgive

end WifiSpeaker.Proofs.FifoWakeup
