import WifiSpeaker.SpiRamFifoCalls
import WifiSpeaker.Proofs.FifoReset

namespace WifiSpeaker.Proofs.FifoReads
open Common SpiRamFifo FifoSteps FifoQueue

/-- The call returned as many bytes as were asked for and there at its clamp, and
they are the oldest ones of that moment. -/
structure Exact (ret : ReadReturn) : Prop where
  value : ret.m = min (max ret.call.len 0) ret.call.fifoFill
  length : (ret.call.buff.length : Int) = ret.m
  bytes : ret.call.buff = ret.call.oldest.take ret.m.toNat

/-- A call with `len` bytes left to copy: they are in front of the FIFO, and what
it has copied already was in front of them. -/
structure Half (f : Fifo) (c : ReadCall) (len m : Int) : Prop where
  value : m = min (max c.len 0) c.fifoFill
  left : 0 ≤ len
  copied : (c.buff.length : Int) = m - len
  split : c.oldest.take m.toNat = c.buff ++ (contents f).take len.toNat

def Going (f : Fifo) (c : ReadCall) : Reader → Prop
  | .loop len m | .mux len m _ | .giveCanWrite len m => Half f c len m
  | _ => True

/-- The clamp. -/
theorem clamp_half (h : Shape f) (hlen : 0 < len) :
    Half f (ReadCall.clamp f len) (min len f.fifoFill) (min len f.fifoFill) := by
  have hfill := h.fill
  refine ⟨?_,?_,?_,rfl⟩
  · change _ = min (max len 0) f.fifoFill
    omega
  · omega
  · change ((0 : Nat) : Int) = _
    omega

/-- A step that takes nothing from the front. -/
theorem Half.mono (h : Half f c len m) (hs : Shape f) (hlen : len ≤ f.fifoFill)
    (hfront : contents f <+: contents f') : Half f' c len m := by
  obtain ⟨more,hmore⟩ := hfront
  refine ⟨h.value,h.left,h.copied,?_⟩
  rw [h.split,← hmore,List.take_append_of_le_length]
  rw [length_contents hs]
  omega

/-- A copy takes the next bytes. -/
theorem Half.load (h : Half f c len m) (hs : Shape f) (hfits : Fits len f.fifoRpos n)
    (hlen : len ≤ f.fifoFill) :
    Half (f.load n) { c with buff := c.buff ++ f.bytes n } (len - n) m := by
  have hn : 0 ≤ n := Int.le_of_lt hfits.some
  have hthere : n ≤ f.fifoFill := Int.le_trans hfits.asked hlen
  have hcut := load_contents hs hn hfits.inside hthere
  have hbytes := length_bytes hs hn hfits.inside hthere
  have hasked := hfits.asked
  have hleft := h.left
  have hcopied := h.copied
  refine ⟨h.value,?_,?_,?_⟩
  · omega
  · change ((c.buff ++ f.bytes n).length : Int) = _
    rw [List.length_append,hbytes]
    omega
  · change c.oldest.take m.toNat = (c.buff ++ f.bytes n) ++ _
    rw [h.split,hcut,List.append_assoc,List.take_append,hbytes,List.take_of_length_le]
    · congr 3
      omega
    · rw [hbytes]
      omega

/-- The return. -/
theorem Half.returned (h : Half f c len m) (hdone : len ≤ 0) : Exact ⟨c,m⟩ := by
  have hleft := h.left
  have hcopied := h.copied
  refine ⟨h.value,?_,?_⟩
  · change (c.buff.length : Int) = m
    omega
  · have hzero : len.toNat = 0 := by omega
    have hsplit := h.split
    rw [hzero,List.take_zero,List.append_nil] at hsplit
    exact hsplit.symm

/-- The invariant of a run with its record. -/
structure Faithful (s : Recorded) : Prop where
  sound : Sound s.base
  going : Going s.base.fifo s.call s.base.reader
  returned : ∀ ret ∈ s.returns, Exact ret
  underruns : s.base.fifo.fifoUdrCnt = 0

/-- The other thread adds to the FIFO at most. -/
theorem writer_front (hs : Sound s) (hm : WriterMove s.fifo s.writer f' w' events) :
    contents s.fifo <+: contents f' := by
  obtain ⟨f,w,r,trace⟩ := s
  cases hm with
  | size | returns | full | woken | give | fill => exact List.prefix_refl _
  | store free room =>
    rw [hs.stored room]
    exact List.prefix_append _ _

theorem writer_going (hs : Sound s) (hm : WriterMove s.fifo s.writer f' w' events)
    (h : Going s.fifo c s.reader) : Going f' c s.reader := by
  have hfront := writer_front hs hm
  obtain ⟨f,w,r,trace⟩ := s
  cases r with
  | idle | entry | lowmark | canRead | resetMux | resetCanRead => trivial
  | loop | giveCanWrite => exact Half.mono h hs.shape hs.reader hfront
  | mux => exact Half.mono h hs.shape hs.reader.1 hfront

theorem writer_underruns (hm : WriterMove f w f' w' events) : f'.fifoUdrCnt = f.fifoUdrCnt := by
  cases hm with
  | size | returns | full | store | woken | give | fill => rfl

theorem writer_faithful (h : Faithful s) (hm : WriterMove s.base.fifo s.base.writer f' w' events)
    (n : Int) : Faithful { s with
      base := ⟨f',w',s.base.reader,s.base.trace ++ events⟩, n := n } := by
  have hgoing := writer_going h.sound hm h.going
  have hunderruns := (writer_underruns hm).trans h.underruns
  exact ⟨(writer_sound h.sound hm).1,hgoing,h.returned,hunderruns⟩

theorem returned_snoc (h : ∀ ret ∈ returns, Exact ret) (hret : Exact new) :
    ∀ ret ∈ returns ++ [new], Exact ret := by
  intro ret hm
  rcases List.mem_append.mp hm with hm | hm
  · exact h ret hm
  · rwa [List.mem_singleton.mp hm]

theorem reader_faithful (h : Faithful s)
    (hm : ReaderMove s.base.fifo s.base.reader f' r' events) :
    Faithful (record s ⟨f',s.base.writer,r',s.base.trace ++ events⟩ .reader) := by
  have hs := h.sound
  have ht := (reader_sound hs hm).1
  have hstep := hm.takes
  obtain ⟨⟨f,w,r,trace⟩,n,c,returns⟩ := s
  cases hm with
  | @nothing len none =>
    have hfill : 0 ≤ f.fifoFill := hs.shape.fill.1
    simp only [record,hstep]
    refine ⟨ht,trivial,returned_snoc h.returned ⟨?_,rfl,rfl⟩,h.underruns⟩
    change (0 : Int) = min (max len 0) f.fifoFill
    omega
  | clamp some =>
    simp only [record,hstep]
    exact ⟨ht,clamp_half hs.shape some,h.returned,h.underruns⟩
  | size more =>
    simp only [record,hstep]
    exact ⟨ht,h.going,h.returned,h.underruns⟩
  | returns done =>
    simp only [record,hstep]
    exact ⟨ht,trivial,returned_snoc h.returned (Half.returned h.going done),h.underruns⟩
  | load free there =>
    simp only [record,hstep]
    exact ⟨ht,Half.load h.going hs.shape hs.reader.2 hs.reader.1,h.returned,h.underruns⟩
  | short free lacks => exact absurd (ReaderFits.there hs.reader) (Int.not_le.mpr lacks)
  | low | high | woken => exact hs.reader.elim
  | give =>
    simp only [record,hstep]
    exact ⟨ht,Half.mono h.going hs.shape hs.reader (List.prefix_refl _),h.returned,h.underruns⟩
  | reset free =>
    simp only [record,hstep]
    exact ⟨ht,trivial,h.returned,rfl⟩
  | resetDone given =>
    simp only [record,hstep]
    exact ⟨ht,trivial,h.returned,h.underruns⟩

/-- A thread that is called leaves the FIFO and the record alone. -/
theorem call_faithful (h : Faithful s) (ht : Sound ⟨s.base.fifo,w',r',s.base.trace⟩)
    (hr : r' = s.base.reader ∨ (∃ len, r' = .entry len) ∨ r' = .resetMux) :
    Faithful { s with base := ⟨s.base.fifo,w',r',s.base.trace⟩ } := by
  refine ⟨ht,?_,h.returned,h.underruns⟩
  rcases hr with rfl | ⟨len,rfl⟩ | rfl
  · exact h.going
  · trivial
  · trivial

theorem step_faithful (h : Faithful s) (ht : recorded.step s a = some t) : Faithful t := by
  obtain ⟨u,hu,rfl⟩ := Option.map_eq_some_iff.mp ht
  have hsound := (step_sound h.sound hu).1
  cases threads_move hu with
  | callWrite | callFill => exact call_faithful h hsound (.inl rfl)
  | callRead => exact call_faithful h hsound (.inr (.inl ⟨_,rfl⟩))
  | callReset => exact call_faithful h hsound (.inr (.inr rfl))
  | writer move =>
    simp only [record]
    split
    · exact writer_faithful h move _
    · exact writer_faithful h move s.n
  | reader move => exact reader_faithful h move

theorem init_faithful : Faithful recorded.init := ⟨init_sound,trivial,nofun,rfl⟩

theorem reaches_faithful (h : recorded.Reaches s) : Faithful s :=
  h.invariant init_faithful (fun _ _ _ hs ht => step_faithful hs ht)

/-- Inside `spiRamFifoRead`. -/
def Reading : Reader → Prop
  | .idle | .resetMux | .resetCanRead => False
  | _ => True

/-- A bound on the steps a read still takes: three for each chunk, and every chunk
has a byte at least. -/
def stepsLeft : Reader → Nat
  | .entry len | .giveCanWrite len _ => 3 * len.toNat + 2
  | .loop len _ => 3 * len.toNat + 1
  | .mux len _ _ => 3 * len.toNat
  | _ => 0

theorem stepsLeft_pos (hs : Sound s) (h : Reading s.reader) : 0 < stepsLeft s.reader := by
  obtain ⟨f,w,r,trace⟩ := s
  cases r with
  | idle | resetMux | resetCanRead => exact h.elim
  | lowmark | canRead => exact hs.reader.elim
  | entry | loop | giveCanWrite => exact Nat.succ_pos _
  | mux len m n =>
    obtain ⟨_,hsome,hasked,_,_⟩ : len ≤ f.fifoFill ∧ Fits len f.fifoRpos n := hs.reader
    change 0 < 3 * len.toNat
    omega

/-- A step of the read brings it closer to its end. -/
theorem reader_closer (hs : Sound s.base) (h : Reading s.base.reader)
    (ht : recorded.step s .reader = some t) :
    t.returns.length = s.returns.length + 1 ∨
      (t.returns = s.returns ∧ Reading t.base.reader ∧
        stepsLeft t.base.reader < stepsLeft s.base.reader) := by
  obtain ⟨u,hu,rfl⟩ := Option.map_eq_some_iff.mp ht
  cases threads_move hu with
  | reader move =>
    have hstep := move.takes
    obtain ⟨⟨f,w,r,trace⟩,n,c,returns⟩ := s
    cases move with
    | nothing | returns =>
      left
      simp [record,hstep]
    | @clamp len some =>
      right
      simp only [record,hstep]
      refine ⟨trivial,trivial,?_⟩
      change 3 * (min len f.fifoFill).toNat + 1 < 3 * len.toNat + 2
      omega
    | size more =>
      right
      simp only [record,hstep]
      exact ⟨trivial,trivial,Nat.lt_succ_self _⟩
    | @load n len m free there =>
      right
      simp only [record,hstep]
      refine ⟨trivial,trivial,?_⟩
      obtain ⟨_,hsome,hasked,_,_⟩ : len ≤ f.fifoFill ∧ Fits len f.fifoRpos n := hs.reader
      change 3 * (len - n).toNat + 2 < 3 * len.toNat
      omega
    | short free lacks => exact absurd (ReaderFits.there hs.reader) (Int.not_le.mpr lacks)
    | low | high | woken => exact hs.reader.elim
    | give =>
      right
      simp only [record,hstep]
      exact ⟨trivial,trivial,Nat.lt_succ_self _⟩
    | reset | resetDone => exact h.elim

/-- No other step touches the read. -/
theorem other_same (h : Reading s.base.reader) (ha : a ≠ .reader)
    (ht : recorded.step s a = some t) : t.returns = s.returns ∧ t.base.reader = s.base.reader := by
  obtain ⟨u,hu,rfl⟩ := Option.map_eq_some_iff.mp ht
  cases threads_move hu with
  | callWrite | callFill => exact ⟨rfl,rfl⟩
  | callRead idle | callReset idle =>
    rw [idle] at h
    exact h.elim
  | writer =>
    simp only [record]
    split
    · exact ⟨rfl,rfl⟩
    · exact ⟨rfl,rfl⟩
  | reader => exact absurd rfl ha

/-- The record only grows. -/
theorem returns_grow (ht : recorded.step s a = some t) : s.returns.length ≤ t.returns.length := by
  obtain ⟨u,_,rfl⟩ := Option.map_eq_some_iff.mp ht
  cases a with
  | callWrite | callFill | callRead | callReset => exact Nat.le_refl _
  | writer =>
    simp only [record]
    split
    · exact Nat.le_refl _
    · exact Nat.le_refl _
  | reader =>
    simp only [record]
    split
    · exact Nat.le_refl _
    · simp
    · exact Nat.le_refl _

theorem exec_returns_grow (ht : recorded.exec (fun _ _ => True) s acts = some t) :
    s.returns.length ≤ t.returns.length := by
  induction acts generalizing s with
  | nil =>
    cases ht
    exact Nat.le_refl _
  | cons a acts ih =>
    simp only [System.exec,if_true] at ht
    obtain ⟨u,hu,ht⟩ := Option.bind_eq_some_iff.mp ht
    exact Nat.le_trans (returns_grow hu) (ih ht)

/-- Once the reading thread has taken the steps left to its read, in whatever
order with the other's, the read has returned. -/
theorem read_returns (h : Faithful s) (hr : Reading s.base.reader)
    (ht : recorded.exec (fun _ _ => True) s acts = some t)
    (hk : stepsLeft s.base.reader ≤ acts.count .reader) :
    s.returns.length < t.returns.length := by
  induction acts generalizing s with
  | nil =>
    have hpos := stepsLeft_pos h.sound hr
    rw [List.count_nil] at hk
    omega
  | cons a acts ih =>
    simp only [System.exec,if_true] at ht
    obtain ⟨u,hu,hrest⟩ := Option.bind_eq_some_iff.mp ht
    have hf := step_faithful h hu
    by_cases ha : a = .reader
    · subst ha
      rw [List.count_cons_self] at hk
      rcases reader_closer h.sound hr hu with hdone | ⟨hsame,hr',hless⟩
      · have hgrow := exec_returns_grow hrest
        omega
      · rw [← hsame]
        exact ih hf hr' hrest (by omega)
    · rw [List.count_cons_of_ne ha] at hk
      obtain ⟨hsame,hplace⟩ := other_same hr ha hu
      rw [← hplace] at hr hk
      rw [← hsame]
      exact ih hf hr hrest hk

/-- A read is never held up. -/
theorem read_goes_on (hs : Sound s) (h : Reading s.reader) : (s.reader.step s.fifo).isSome := by
  apply Option.isSome_iff_ne_none.mpr
  refine FifoReset.reader_goes_on hs ?_ ?_
  · intro hreset
    rw [hreset] at h
    exact h.elim
  · intro hidle
    rw [hidle] at h
    exact h.elim

/-- With one reader a read never waits and never comes up short. Every call that
returned gave the minimum of its length and the fill level at its clamp, and
stored that many of the oldest bytes; no underrun is ever counted and `semCanRead`
never waited for; and a call under way can always go on and has returned after
finitely many steps of its thread. -/
theorem read_exact (h : recorded.Reaches s) :
    (∀ ret ∈ s.returns, ret.m = min (max ret.call.len 0) ret.call.fifoFill ∧
      (ret.call.buff.length : Int) = ret.m ∧
      ret.call.buff = ret.call.oldest.take ret.m.toNat) ∧
    s.base.fifo.fifoUdrCnt = 0 ∧
    (∀ len m, s.base.reader ≠ .lowmark len m ∧ s.base.reader ≠ .canRead len m) ∧
    (Reading s.base.reader → (s.base.reader.step s.base.fifo).isSome ∧
      ∃ k, ∀ acts t, recorded.exec (fun _ _ => True) s acts = some t →
        k ≤ acts.count .reader → s.returns.length < t.returns.length) := by
  have hf := reaches_faithful h
  refine ⟨?_,hf.underruns,?_,?_⟩
  · intro ret hm
    obtain ⟨hvalue,hlength,hbytes⟩ := hf.returned ret hm
    exact ⟨hvalue,hlength,hbytes⟩
  · intro len m
    constructor
    · intro hr
      have hfits := hf.sound.reader
      rw [hr] at hfits
      exact hfits
    · intro hr
      have hfits := hf.sound.reader
      rw [hr] at hfits
      exact hfits
  · intro hr
    refine ⟨read_goes_on hf.sound hr,stepsLeft s.base.reader,?_⟩
    intro acts t ht hk
    exact read_returns hf hr ht hk

/-- What a read returned and stored. -/
def view (s : Recorded) : List (Int × Int × List UInt8 × Int) :=
  s.returns.map (fun ret => (ret.call.len,ret.call.fifoFill,ret.call.buff,ret.m))

/-- Three bytes written; a read of two, and one of five behind it. -/
theorem read_exact_two_reads :
    ∃ s, recorded.Reaches s ∧ view s = [(2,3,[1,2],2),(5,1,[3],1)] ∧
      s.base.fifo.fifoUdrCnt = 0 ∧
      ∀ ret ∈ s.returns, ret.call.buff = ret.call.oldest.take ret.m.toNat := by
  let acts : List Act := [.callWrite [1,2,3] 3,.writer,.writer,.writer,.writer,
    .callRead 2,.reader,.reader,.reader,.reader,.reader,
    .callRead 5,.reader,.reader,.reader,.reader,.reader]
  have hrun : (recorded.exec (fun _ _ => True) recorded.init acts).map view =
      some [(2,3,[1,2],2),(5,1,[3],1)] := by
    decide +kernel
  obtain ⟨s,hs,he⟩ := Option.map_eq_some_iff.mp hrun
  have h := (System.run_of_exec hs).reaches
  obtain ⟨hreturns,hunderruns,-⟩ := read_exact h
  exact ⟨s,h,he,hunderruns,fun ret hm => (hreturns ret hm).2.2⟩

end WifiSpeaker.Proofs.FifoReads
