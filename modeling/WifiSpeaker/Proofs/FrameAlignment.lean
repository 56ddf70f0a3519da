import WifiSpeaker.RenderStream
import WifiSpeaker.Proofs.FifoQueue
import WifiSpeaker.Proofs.RenderWords

namespace WifiSpeaker.Proofs.FrameAlignment
open Common Wire RenderStream
open SpiRamFifo hiding State Act step system
open RenderAudio hiding Act
open RenderSamples (Push Loop accepted)
open FifoSteps FifoQueue RenderWords

/-- The offset-binary word of a stereo frame. -/
def frameWord (l₀ l₁ r₀ r₁ : UInt8) : Int :=
  unsigned (littleEndian l₀ l₁) * 2 ^ 16 + unsigned (littleEndian r₀ r₁)

/-- The words of the complete frames of a byte string. -/
def frameWords : List UInt8 → List Int
  | l₀ :: l₁ :: r₀ :: r₁ :: rest => frameWord l₀ l₁ r₀ r₁ :: frameWords rest
  | _ => []

theorem frameWords_short (h : bytes.length < 4) : frameWords bytes = [] := by
  match bytes,h with
  | [],_ | [_],_ | [_,_],_ | [_,_,_],_ => rfl

theorem length_frameWords (bytes : List UInt8) :
    (frameWords bytes).length = bytes.length / 4 := by
  induction bytes using frameWords.induct with
  | case1 l₀ l₁ r₀ r₁ rest ih =>
    simp only [frameWords,List.length_cons,ih]
    omega
  | case2 bytes hshort =>
    have hlt := length_lt_four hshort
    rw [frameWords_short hlt,Nat.div_eq_of_lt hlt]
    rfl

/-- Whole frames in front do not shift the frames behind them. -/
theorem frameWords_append (h : 4 ∣ front.length) (back : List UInt8) :
    frameWords (front ++ back) = frameWords front ++ frameWords back := by
  induction front using frameWords.induct with
  | case1 l₀ l₁ r₀ r₁ rest ih =>
    simp only [List.length_cons] at h
    simp only [List.cons_append,frameWords,ih (by omega)]
  | case2 front hshort =>
    have hlt := length_lt_four hshort
    have hnil : front = [] := List.eq_nil_of_length_eq_zero (by omega)
    rw [hnil]
    rfl

/-- The memory from `buf` on holds the bytes. -/
def Held (buf : Nat → UInt8) (bytes : List UInt8) : Prop :=
  ∀ k < bytes.length, bytes[k]? = some (buf k)

theorem Held.overwrite (h : Held buf front) (back : List UInt8) :
    Held (overwrite buf front.length back) (front ++ back) := by
  intro k hk
  rw [List.length_append] at hk
  rw [List.getElem?_append,RenderAudio.overwrite]
  split_ifs with hold
  · exact h k hold
  · rw [List.getD_eq_getElem?_getD,List.getElem?_eq_getElem (by omega),Option.getD_some]

/-- The word with a number is built from the four bytes at four times that number. -/
theorem getElem?_frameWords (h : Held buf bytes) (hk : 4 * k + 4 ≤ bytes.length) :
    (frameWords bytes)[k]? =
      some (frameWord (buf (4 * k)) (buf (4 * k + 1)) (buf (4 * k + 2)) (buf (4 * k + 3))) := by
  induction bytes using frameWords.induct generalizing buf k with
  | case1 l₀ l₁ r₀ r₁ rest ih =>
    cases k with
    | zero =>
      have h0 := h 0 (by simp)
      have h1 := h 1 (by simp)
      have h2 := h 2 (by simp)
      have h3 := h 3 (by simp)
      simp only [List.getElem?_cons_zero,List.getElem?_cons_succ,Option.some.injEq] at h0 h1 h2 h3
      rw [frameWords,List.getElem?_cons_zero,h0,h1,h2,h3]
    | succ k =>
      have hrest : Held (fun j => buf (j + 4)) rest := by
        intro j hj
        exact h (j + 4) (by simpa using hj)
      have hone : 4 * (k + 1) + 1 = 4 * k + 1 + 4 := by omega
      have htwo : 4 * (k + 1) + 2 = 4 * k + 2 + 4 := by omega
      have hthree : 4 * (k + 1) + 3 = 4 * k + 3 + 4 := by omega
      simp only [List.length_cons] at hk
      rw [frameWords,List.getElem?_cons_succ,ih hrest (by omega),hone,htwo,hthree,Nat.mul_succ]
  | case2 bytes hshort =>
    have hlt := length_lt_four hshort
    omega

theorem take_frameWords (h : Held buf bytes) (hk : 4 * k + 4 ≤ bytes.length) :
    (frameWords bytes).take (k + 1) = (frameWords bytes).take k ++
      [frameWord (buf (4 * k)) (buf (4 * k + 1)) (buf (4 * k + 2)) (buf (4 * k + 3))] := by
  rw [List.take_add_one,getElem?_frameWords h hk]
  rfl

/-- The words the driver has taken, as numbers. -/
def words (pushes : List Push) : List Int :=
  (accepted pushes).map (fun p => (p.sample.toNat : Int))

theorem words_append (pushes more : List Push) :
    words (pushes ++ more) = words pushes ++ words more := by
  simp [words,accepted]

section Samples
variable {buf : Nat → UInt8} {bufLen n rate : UInt32} {wfx : WaveFormatEx}

/-- The entry of a call on 16-bit stereo. -/
theorem enter_render (h16 : Sixteen bufLen wfx n 2)
    (h : RenderSamples.step buf bufLen wfx ⟨rate,call,[],[],[]⟩ (.enter ret) = some r) :
    call = .entry ∧ r.place = .loop (loopAt n 2 0) ∧ r.pushes = [] := by
  cases call with
  | loop | returned | trapped => simp [RenderSamples.step] at h
  | entry =>
    simp only [RenderSamples.step,h16.numSamples,h16.bits,ne_eq,not_true,if_false,
      Option.some.injEq] at h
    subst h
    refine ⟨rfl,?_,(changeRate_logs _ _ _).1⟩
    rw [h16.enter]

/-- What a turn does for the word that comes next. -/
inductive Turn (buf : Nat → UInt8) (n : UInt32) (k : Nat) (r : RenderSamples.State) : Prop
  | through (all : k = n.toNat) (place : r.place = .returned) (out : words r.pushes = [])
  | retry (more : k < n.toNat) (place : r.place = .loop (loopAt n 2 k))
      (out : words r.pushes = [])
  | pushed (more : k < n.toNat) (place : r.place = .loop (loopAt n 2 (k + 1)))
      (out : words r.pushes =
        [frameWord (buf (4 * k)) (buf (4 * k + 1)) (buf (4 * k + 2)) (buf (4 * k + 3))])

theorem turn_render (hk : k ≤ n.toNat)
    (h : RenderSamples.step buf bufLen wfx ⟨rate,.loop (loopAt n 2 k),[],[],[]⟩
      (.turn .initialized bytesPushed) = some r) : Turn buf n k r := by
  simp only [RenderSamples.step,Option.some.injEq] at h
  subst h
  unfold RenderSamples.State.turn
  split_ifs with hm hstopped
  · cases hstopped
  · have hlt := (loopAt_more hk).mp hm
    by_cases hz : bytesPushed = 0
    · subst hz
      refine .retry hlt ?_ ?_
      · rw [loopAt_retry]
      · simp [words,accepted,Loop.push]
    · refine .pushed hlt ?_ ?_
      · rw [loopAt_next n 2 k hz]
      · simp [words,accepted,Loop.push,hz,loopAt,sample_eq,short_eq,frameWord]
  · rw [loopAt_more hk] at hm
    exact .through (by omega) rfl rfl

end Samples

/-- Inside a read that has put `cur` into the buffer: so many bytes are still to come. -/
def Reading (cur : List UInt8) : Reader → Prop
  | .entry len => len = sizeofRenderBuffer ∧ cur = []
  | .loop len m | .mux len m _ | .giveCanWrite len m =>
    0 ≤ len ∧ (cur.length : Int) + len = m ∧ m ≤ sizeofRenderBuffer
  | _ => False

/-- Inside a call of `render_samples` on the bytes `cur`, with the words `before`
out when it began: the words of its first frames have followed. -/
def Rendering (bufLen : UInt32) (cur : List UInt8) (before out : List Int) :
    RenderSamples.Place → Prop
  | .entry => out = before
  | .loop l => ∃ k ≤ cur.length / 4, l = loopAt (bufLen / 2 / 2) 2 k ∧
      out = before ++ (frameWords cur).take k
  | _ => False

/-- The calls that render what was read, with the bytes they render. -/
inductive Renders (cur : List UInt8) : Part → Prop
  | whole (full : cur.length = sizeofRenderBuffer) : Renders cur .whole
  | rest (short : cur.length < sizeofRenderBuffer) : Renders cur (.rest cur.length)

/-- The four words behind the data. -/
def silence : List Int := List.replicate 4 0x80008000

/-- Where the task stands in its stream: of the bytes taken from the FIFO, those
of the earlier reads are whole frames and their words are out. -/
inductive Stage (buf : Nat → UInt8) (taken : List UInt8) (out : List Int) : Place → Prop
  | read (split : taken = earlier ++ cur) (whole : 4 ∣ earlier.length)
      (words : out = frameWords earlier) (held : Held buf cur) (reading : Reading cur r) :
      Stage buf taken out (.read r cur.length)
  | data (split : taken = earlier ++ cur) (whole : 4 ∣ earlier.length) (held : Held buf cur)
      (renders : Renders cur part)
      (words : Rendering part.bufLen cur (frameWords earlier) out call) :
      Stage buf taken out (.render part call)
  | zeros (held : Held buf (List.replicate 16 0))
      (words : Rendering Part.zeros.bufLen (List.replicate 16 0) (frameWords taken) out call) :
      Stage buf taken out (.render .zeros call)
  | reset (words : out = frameWords taken ++ silence) (place : r = .resetMux ∨ r = .resetCanRead) :
      Stage buf taken out (.reset r)
  | deleted (words : out = frameWords taken ++ silence) : Stage buf taken out .deleted

theorem Renders.bufLen (h : Renders cur part) : part.bufLen.toNat = cur.length := by
  cases h with
  | whole full =>
    rw [full]
    rfl
  | rest short =>
    simp only [sizeofRenderBuffer] at short
    rw [Part.bufLen,UInt32.ofInt,UInt32.toNat_ofNat']
    omega

theorem frameWords_zeros : frameWords (List.replicate 16 0) = silence := by
  decide

/-- A step of `render_samples` goes on with the words of the buffer. -/
theorem samples_rendering (hwfx : wfx.wBitsPerSample = 16 ∧ wfx.nChannels = 2)
    (hlen : bufLen.toNat = cur.length) (held : Held buf cur)
    (h : Rendering bufLen cur before out call)
    (hstep : RenderSamples.step buf bufLen wfx ⟨rate,call,[],[],[]⟩ a = some r)
    (ha : ∀ status bytesPushed, a = .turn status bytesPushed → status = .initialized) :
    (r.place = .returned ∧ out ++ words r.pushes = before ++ frameWords cur) ∨
      (r.place ≠ .returned ∧ Rendering bufLen cur before (out ++ words r.pushes) r.place) := by
  have h16 : Sixteen bufLen wfx (bufLen / 2 / 2) 2 := sixteen_stereo hwfx.1 hwfx.2
  have hframes : (bufLen / 2 / 2).toNat = cur.length / 4 := by rw [frames_stereo,hlen]
  cases a with
  | enter ret =>
    obtain ⟨rfl,hplace,hpushes⟩ := enter_render h16 hstep
    right
    have hout : out = before := h
    rw [hplace,hpushes]
    refine ⟨RenderSamples.Place.noConfusion,0,Nat.zero_le _,rfl,?_⟩
    simp [words,accepted,hout]
  | turn status bytesPushed =>
    obtain rfl := ha status bytesPushed rfl
    cases call with
    | entry | returned | trapped => simp [RenderSamples.step] at hstep
    | loop l =>
      obtain ⟨k,hk,rfl,hout⟩ := h
      cases turn_render (by omega) hstep with
      | through all place none =>
        left
        refine ⟨place,?_⟩
        rw [none,List.append_nil,hout,List.take_of_length_le]
        rw [length_frameWords]
        omega
      | retry more place none =>
        right
        rw [place,none,List.append_nil]
        exact ⟨RenderSamples.Place.noConfusion,k,hk,rfl,hout⟩
      | pushed more place one =>
        right
        rw [place,one]
        refine ⟨RenderSamples.Place.noConfusion,k + 1,by omega,rfl,?_⟩
        rw [hout,take_frameWords held (by omega),List.append_assoc]

/-- What the reading thread of the FIFO is in, at the place of the task. -/
def readerOf : Place → Reader
  | .read r _ | .reset r => r
  | .render _ _ | .deleted => .idle

/-- Behind a whole buffer comes the next read, behind the rest come the zeros. -/
theorem data_returned {t : Task} (split : taken = earlier ++ cur) (whole : 4 ∣ earlier.length)
    (renders : Renders cur part) (hout : out = frameWords earlier ++ frameWords cur) :
    Stage (t.afterRender part).renderBuffer taken out (t.afterRender part).place := by
  have hwords : out = frameWords taken := by rw [hout,split,frameWords_append whole]
  cases renders with
  | whole full =>
    have hframes : 4 ∣ taken.length := by
      rw [split,List.length_append,full]
      exact Nat.dvd_add whole (by decide)
    have hreading : Reading [] (.entry sizeofRenderBuffer) := ⟨rfl,rfl⟩
    exact .read (List.append_nil taken).symm hframes hwords nofun hreading
  | rest short =>
    have hnone : Held t.renderBuffer [] := nofun
    have hheld := hnone.overwrite (List.replicate 16 0)
    exact .zeros hheld hwords

/-- A step of `render_samples` keeps the task in its stream. -/
theorem samples_stage {t : Task} (hwfx : wfx.wBitsPerSample = 16 ∧ wfx.nChannels = 2)
    (h : Stage t.renderBuffer taken out (.render part call))
    (hstep : RenderSamples.step t.renderBuffer part.bufLen wfx ⟨rate,call,[],[],[]⟩ a = some r)
    (ha : ∀ status bytesPushed, a = .turn status bytesPushed → status = .initialized)
    (ht : t' = if r.place = .returned then t.afterRender part
      else { t with place := .render part r.place }) :
    Stage t'.renderBuffer taken (out ++ words r.pushes) t'.place := by
  cases h with
  | data split whole held renders words =>
    rcases samples_rendering hwfx renders.bufLen held words hstep ha with
      ⟨hreturned,hout⟩ | ⟨hinside,hwords⟩
    · rw [ht,if_pos hreturned]
      exact data_returned split whole renders hout
    · rw [ht,if_neg hinside]
      exact .data split whole held renders hwords
  | zeros held words =>
    rcases samples_rendering hwfx rfl held words hstep ha with ⟨hreturned,hout⟩ | ⟨hinside,hwords⟩
    · rw [ht,if_pos hreturned]
      rw [frameWords_zeros] at hout
      exact .reset hout (.inl rfl)
    · rw [ht,if_neg hinside]
      exact .zeros held hwords

/-- The return of a read that has put `cur` into the buffer. -/
theorem read_returned (split : taken = earlier ++ cur) (whole : 4 ∣ earlier.length)
    (hwords : out = frameWords earlier) (held : Held buf cur)
    (hfull : cur.length ≤ sizeofRenderBuffer) :
    Stage buf taken out (afterRead cur.length) := by
  unfold afterRead
  split_ifs with hshort
  · exact .data split whole held (.rest (by omega)) hwords
  · exact .data split whole held (.whole (by omega)) hwords

theorem consumed_append (trace more : List Event) :
    consumed (trace ++ more) = consumed trace ++ consumed more := List.flatMap_append

theorem consumed_nil : consumed [] = [] := rfl

theorem consumed_returns (m : Int) : consumed [.readReturns m] = [] := rfl

theorem consumed_read (pos n : Int) (bytes : List UInt8) :
    consumed [.spiRamRead pos n bytes] = bytes := List.append_nil _

theorem reads_returns (t : Task) (r : Reader) (filled : Nat) (m : Int) :
    t.reads r filled [.readReturns m] = { t with place := afterRead m } := rfl

theorem readerOf_afterRead (bytesToRead : Int) : readerOf (afterRead bytesToRead) = .idle := by
  unfold afterRead
  split_ifs <;> rfl

/-- A step of a read keeps the task in its stream. -/
theorem read_stage {t : Task} (hs : Sound ⟨f,w,r,trace⟩)
    (h : Stage t.renderBuffer taken out (.read r filled)) (hm : ReaderMove f r f' r' events) :
    Stage (t.reads r' filled events).renderBuffer (taken ++ consumed events) out
      (t.reads r' filled events).place ∧ readerOf (t.reads r' filled events).place = r' := by
  cases h with
  | @read earlier cur _ split whole words held reading =>
    cases hm with
    | nothing none =>
      obtain ⟨rfl,-⟩ := reading
      exact absurd none (by decide)
    | @clamp len some =>
      obtain ⟨rfl,rfl⟩ := reading
      have hfill : 0 ≤ f.fifoFill := hs.shape.fill.1
      have hreading : Reading [] (.loop (min sizeofRenderBuffer f.fifoFill)
          (min sizeofRenderBuffer f.fifoFill)) := by
        simp only [Reading,List.length_nil]
        omega
      rw [consumed_nil,List.append_nil]
      exact ⟨.read split whole words held hreading,rfl⟩
    | size more | give =>
      rw [consumed_nil,List.append_nil]
      exact ⟨.read split whole words held reading,rfl⟩
    | @returns len m done =>
      obtain ⟨hleft,hsum,hmax⟩ := reading
      obtain rfl : m = cur.length := by omega
      rw [consumed_returns,List.append_nil,reads_returns]
      dsimp only
      rw [readerOf_afterRead]
      exact ⟨read_returned split whole words held (Int.ofNat_le.mp hmax),rfl⟩
    | @load n len m free there =>
      obtain ⟨hlen,hfits⟩ : len ≤ f.fifoFill ∧ Fits len f.fifoRpos n := hs.reader
      obtain ⟨hleft,hsum,hmax⟩ := reading
      have hbytes := length_bytes hs.shape (Int.le_of_lt hfits.some) hfits.inside there
      have hsome := hfits.some
      have hasked := hfits.asked
      have hreading : Reading (cur ++ f.bytes n) (.giveCanWrite (len - n) m) := by
        simp only [Reading,List.length_append,hbytes]
        omega
      have hsplit : taken ++ consumed [.spiRamRead f.fifoRpos n (f.bytes n)] =
          earlier ++ (cur ++ f.bytes n) := by
        rw [consumed_read,split,List.append_assoc]
      have hstage := Stage.read hsplit whole words (held.overwrite (f.bytes n)) hreading
      rw [List.length_append] at hstage
      exact ⟨hstage,rfl⟩
    | short free lacks => exact absurd (ReaderFits.there hs.reader) (Int.not_le.mpr lacks)
    | low | high | woken => exact hs.reader.elim
    | reset | resetDone => exact reading.elim

/-- There was a reset, and the FIFO holds what has been stored since. -/
def Since (f : Fifo) (trace : List Event) : Prop :=
  ∃ before after, trace = before ++ .reset :: after ∧ contents f = stored after

/-- Nothing of what the reset found is left in the FIFO, and nothing at all while
the reset keeps `mux`. -/
def Discarded (f : Fifo) (trace : List Event) : Place → Prop
  | .reset .resetCanRead => f.fifoFill = 0 ∧ Since f trace
  | .deleted => Since f trace
  | _ => True

/-- The invariant of the two threads. -/
structure Aligned (base : SpiRamFifo.State) (wfx : WaveFormatEx) (s : State) : Prop where
  sound : Sound ⟨s.shared.fifo,s.writer,readerOf s.task.place,base.trace ++ s.trace⟩
  format : s.shared.wfx = wfx
  stage : Stage s.task.renderBuffer (consumed s.trace) (words s.pushes) s.task.place
  discarded : Discarded s.shared.fifo s.trace s.task.place

/-- Before the reset there is nothing to say. -/
theorem discarded_before (h : readerOf p ≠ .resetCanRead) (hd : p ≠ .deleted) :
    Discarded f trace p := by
  cases p with
  | read | render => trivial
  | deleted => exact absurd rfl hd
  | reset r =>
    cases r with
    | resetCanRead => exact absurd rfl h
    | _ => trivial

theorem Since.snoc (h : Since f trace) (hf : contents f' = contents f ++ stored events) :
    Since f' (trace ++ events) := by
  obtain ⟨before,after,rfl,hstored⟩ := h
  refine ⟨before,after ++ events,by simp,?_⟩
  rw [hf,hstored]
  exact List.flatMap_append.symm

theorem writer_stored (hs : Sound ⟨f,w,r,old⟩) (hm : WriterMove f w f' w' events) :
    contents f' = contents f ++ stored events := by
  cases hm with
  | size | returns | full | woken | give | fill => exact (List.append_nil _).symm
  | store free room =>
    rw [hs.stored room]
    exact congrArg _ (List.append_nil _).symm

/-- Without `mux` nothing is stored. -/
theorem writer_fill (hmux : f.mux = false) (hm : WriterMove f w f' w' events) :
    f'.fifoFill = f.fifoFill := by
  cases hm with
  | size | returns | full | woken | give | fill => rfl
  | store free =>
    rw [hmux] at free
    cases free

theorem writer_discarded (hs : Sound ⟨f,w,readerOf p,old⟩) (h : Discarded f trace p)
    (hm : WriterMove f w f' w' events) : Discarded f' (trace ++ events) p := by
  cases p with
  | read | render => trivial
  | deleted => exact h.snoc (writer_stored hs hm)
  | reset r =>
    cases r with
    | resetCanRead =>
      have hmux : f.mux = false := by
        rw [← Bool.not_eq_true]
        exact fun htaken => hs.mutex.mp htaken rfl
      exact ⟨(writer_fill hmux hm).trans h.1,h.2.snoc (writer_stored hs hm)⟩
    | _ => trivial

theorem writer_consumed (hm : WriterMove f w f' w' events) : consumed events = [] := by
  cases hm with
  | size | returns | full | store | woken | give | fill => rfl

theorem writer_aligned (h : Aligned base wfx s)
    (hm : WriterMove s.shared.fifo s.writer f' w' events) :
    Aligned base wfx { s with
      shared := { s.shared with fifo := f' }, writer := w', trace := s.trace ++ events } := by
  have hsound := (writer_sound h.sound hm).1
  rw [List.append_assoc] at hsound
  refine ⟨hsound,h.format,?_,writer_discarded h.sound h.discarded hm⟩
  rw [consumed_append,writer_consumed hm,List.append_nil]
  exact h.stage

/-- The writing thread is called. -/
theorem call_aligned (h : Aligned base wfx s) (hw : WriterFits s.shared.fifo w') :
    Aligned base wfx { s with writer := w' } :=
  ⟨(h.sound.call hw h.sound.reader h.sound.mutex).1,h.format,h.stage,h.discarded⟩

theorem reads_place (t : Task) (r : Reader) (filled : Nat) (events : List Event) :
    (t.reads r filled events).place.alive = true := by
  unfold Task.reads
  split
  · rfl
  · dsimp only
    unfold afterRead
    split_ifs <;> rfl
  · rfl

theorem discarded_alive (h : p.alive = true) : Discarded f trace p := by
  cases p with
  | read | render => trivial
  | reset | deleted => cases h

/-- A step on the FIFO in a read. -/
theorem read_aligned (h : Aligned base wfx s) (hp : s.task.place = .read r filled)
    (hm : ReaderMove s.shared.fifo r f' r' events) :
    Aligned base wfx { s with
      shared := { s.shared with fifo := f' }, task := s.task.reads r' filled events
      trace := s.trace ++ events } := by
  have hs := h.sound
  have hstage := h.stage
  rw [hp] at hs hstage
  obtain ⟨hnext,hreader⟩ := read_stage hs hstage hm
  have hsound := (reader_sound hs hm).1
  rw [List.append_assoc,← hreader] at hsound
  refine ⟨hsound,h.format,?_,discarded_alive (reads_place _ _ _ _)⟩
  rw [consumed_append]
  exact hnext

theorem consumed_reset (trace : List Event) :
    consumed (trace ++ [.reset]) = consumed trace ∧
      consumed (trace ++ [.resetDone]) = consumed trace := by
  rw [consumed_append,consumed_append]
  exact ⟨List.append_nil _,List.append_nil _⟩

/-- A step of the reset. -/
theorem reset_aligned (h : Aligned base wfx s) (hp : s.task.place = .reset r)
    (hm : ReaderMove s.shared.fifo r f' r' events) :
    Aligned base wfx { s with
      shared := { s.shared with fifo := f' }
      task := { s.task with place := if r' = .idle then .deleted else .reset r' }
      trace := s.trace ++ events } := by
  have hs := h.sound
  have hstage := h.stage
  have hdiscarded := h.discarded
  rw [hp] at hs hstage hdiscarded
  have hsound := (reader_sound hs hm).1
  rw [List.append_assoc] at hsound
  cases hstage with
  | reset hwords place =>
    rcases place with rfl | rfl
    · cases hm with
      | reset free =>
        refine ⟨hsound,h.format,?_,rfl,s.trace,[],rfl,rfl⟩
        rw [(consumed_reset _).1]
        exact .reset hwords (.inr rfl)
    · cases hm with
      | resetDone given =>
        refine ⟨hsound,h.format,?_,?_⟩
        · rw [(consumed_reset _).2]
          exact .deleted hwords
        · exact hdiscarded.2.snoc (List.append_nil _).symm

/-- Behind a call of `render_samples` the task calls the FIFO again, or nothing. -/
def Called (r : Reader) : Prop := r = .idle ∨ r = .entry sizeofRenderBuffer ∨ r = .resetMux

theorem afterRender_called (t : Task) (part : Part) :
    Called (readerOf (t.afterRender part).place) ∧ (t.afterRender part).place ≠ .deleted := by
  cases part with
  | whole => exact ⟨.inr (.inl rfl),nofun⟩
  | rest => exact ⟨.inl rfl,nofun⟩
  | zeros => exact ⟨.inr (.inr rfl),nofun⟩

theorem Called.not_reset (hr : Called r) : r ≠ .resetCanRead := by
  rcases hr with rfl | rfl | rfl <;> nofun

theorem Called.sound (hr : Called r) (h : Sound ⟨f,w,.idle,trace⟩) : Sound ⟨f,w,r,trace⟩ := by
  have hfits : ReaderFits f r := by
    rcases hr with rfl | rfl | rfl <;> trivial
  exact (h.call h.writer hfits ⟨fun _ => hr.not_reset,fun _ => h.mutex.mpr nofun⟩).1

/-- A step of `render_samples`. -/
theorem samples_aligned (hwfx : wfx.wBitsPerSample = 16 ∧ wfx.nChannels = 2)
    (h : Aligned base wfx s) (ht : s.renderAudio (.samples a) = some t)
    (ha : ∀ status bytesPushed, a = .turn status bytesPushed → status = .initialized) :
    Aligned base wfx t := by
  obtain ⟨out,hout,ht⟩ := Option.bind_eq_some_iff.mp ht
  cases ht
  cases hp : s.task.place with
  | read | reset | deleted => simp [Task.step,hp] at hout
  | render part call =>
    simp only [Task.step,hp] at hout
    obtain ⟨r,hr,hout⟩ := Option.bind_eq_some_iff.mp hout
    cases hout
    have hs := h.sound
    have hstage := h.stage
    rw [hp] at hs hstage
    rw [h.format] at hr
    have hnext := samples_stage hwfx hstage hr ha rfl
    rw [← words_append] at hnext
    have hcalled : Called (readerOf (if r.place = .returned then s.task.afterRender part
          else { s.task with place := .render part r.place }).place) ∧
        (if r.place = .returned then s.task.afterRender part
          else { s.task with place := .render part r.place }).place ≠ .deleted := by
      split_ifs
      · exact afterRender_called s.task part
      · exact ⟨.inl rfl,nofun⟩
    refine ⟨?_,h.format,?_,discarded_before hcalled.1.not_reset hcalled.2⟩
    · dsimp only
      rw [List.append_nil]
      exact hcalled.1.sound hs
    · dsimp only
      rw [List.append_nil]
      exact hnext

/-- A step on the FIFO. -/
theorem fifo_aligned (h : Aligned base wfx s) (ht : s.renderAudio .fifo = some t) :
    Aligned base wfx t := by
  obtain ⟨out,hout,ht⟩ := Option.bind_eq_some_iff.mp ht
  cases ht
  cases hp : s.task.place with
  | render | deleted => simp [Task.step,hp] at hout
  | read r filled =>
    simp only [Task.step,hp] at hout
    obtain ⟨⟨f',r',events⟩,hr,hout⟩ := Option.bind_eq_some_iff.mp hout
    cases hout
    dsimp only
    rw [List.append_nil]
    exact read_aligned h hp (reader_move hr)
  | reset r =>
    simp only [Task.step,hp] at hout
    obtain ⟨⟨f',r',events⟩,hr,hout⟩ := Option.bind_eq_some_iff.mp hout
    cases hout
    dsimp only
    rw [List.append_nil]
    exact reset_aligned h hp (reader_move hr)

theorem step_aligned (hwfx : wfx.wBitsPerSample = 16 ∧ wfx.nChannels = 2)
    (h : Aligned base wfx s) (ht : step s a = some t) : Aligned base wfx t := by
  cases a with
  | callWrite buff buffLen =>
    simp only [step,Option.ite_none_right_eq_some,Option.some.injEq] at ht
    obtain ⟨⟨_,hlen⟩,rfl⟩ := ht
    exact call_aligned h hlen
  | callFill =>
    simp only [step,Option.ite_none_right_eq_some,Option.some.injEq] at ht
    obtain ⟨_,rfl⟩ := ht
    exact call_aligned h trivial
  | writer =>
    obtain ⟨⟨f',w',events⟩,hstep,ht⟩ := Option.bind_eq_some_iff.mp ht
    cases ht
    exact writer_aligned h (writer_move hstep)
  | fifo => exact fifo_aligned h ht
  | enter ret => exact samples_aligned hwfx h ht nofun
  | turn bytesPushed =>
    refine samples_aligned hwfx h ht ?_
    intro status bytesPushed' hturn
    cases hturn
    rfl

theorem init_aligned (hs : Sound base) (hidle : base.reader = .idle) :
    Aligned base wfx (system base wfx rate stack).init := by
  have hcalled : Called (.entry sizeofRenderBuffer) := .inr (.inl rfl)
  obtain ⟨f,w,r,trace⟩ := base
  cases hidle
  refine ⟨?_,rfl,?_,trivial⟩
  · change Sound ⟨f,w,.entry sizeofRenderBuffer,trace ++ []⟩
    rw [List.append_nil]
    exact hcalled.sound hs
  · have hreading : Reading [] (.entry sizeofRenderBuffer) := ⟨rfl,rfl⟩
    have hsplit : consumed [] = [] ++ [] := rfl
    exact .read hsplit (Nat.dvd_zero 4) rfl nofun hreading

theorem reaches_aligned (hwfx : wfx.wBitsPerSample = 16 ∧ wfx.nChannels = 2)
    (hbase : SpiRamFifo.system.Reaches base) (hidle : base.reader = .idle)
    (h : (system base wfx rate stack).Reaches s) : Aligned base wfx s := by
  have hsound : Sound base :=
    hbase.invariant init_sound (fun _ _ _ hs ht => (FifoQueue.step_sound hs ht).1)
  exact h.invariant (init_aligned hsound hidle) (fun _ _ _ hs ht => step_aligned hwfx hs ht)

/-- A stereo stream stays aligned to its end. Once the task has left its loop, the
words the driver took are those of the complete frames of all it read from the
FIFO, in order, and four words of silence; at most three bytes of it are without
a word; and the reset leaves nothing of what it found in the FIFO. -/
theorem stream_aligned (hbits : wfx.wBitsPerSample = 16) (hstereo : wfx.nChannels = 2)
    (hbase : SpiRamFifo.system.Reaches base) (hidle : base.reader = .idle)
    (h : (system base wfx rate stack).Reaches s) (hleft : s.task.alive = false) :
    words s.pushes = frameWords (consumed s.trace) ++ List.replicate 4 0x80008000 ∧
    (consumed s.trace).length ≤ 4 * (frameWords (consumed s.trace)).length + 3 ∧
    (s.task.place = .reset .resetCanRead → s.shared.fifo.fifoFill = 0) ∧
    (s.task.place = .deleted → ∃ before after, s.trace = before ++ .reset :: after ∧
      window s.shared.fifo.fakespiram s.shared.fifo.fifoRpos.toNat s.shared.fifo.fifoFill.toNat =
        stored after) := by
  have haligned := reaches_aligned ⟨hbits,hstereo⟩ hbase hidle h
  have hdiscarded := haligned.discarded
  refine ⟨?_,?_,?_,?_⟩
  · have hstage := haligned.stage
    unfold Task.alive at hleft
    generalize s.task.place = p at hstage hleft
    cases hstage with
    | read | data | zeros => cases hleft
    | reset hwords | deleted hwords => exact hwords
  · rw [length_frameWords]
    omega
  · intro hp
    rw [hp] at hdiscarded
    exact hdiscarded.1
  · intro hp
    rw [hp] at hdiscarded
    exact hdiscarded

/-- A 16-bit stereo format. -/
def stereoWfx : WaveFormatEx := ⟨1,2,44100,176400,4,16,0,0⟩

/-- Five bytes wait in the FIFO. -/
def fiveWritten : List SpiRamFifo.Act :=
  [.callWrite [1,2,3,4,5] 5,.writer,.writer,.writer,.writer]

/-- The read, the only frame with a refused push before it, the four words of
silence, and the reset. -/
def wholeTask : List Act :=
  [.fifo,.fifo,.fifo,.fifo,.fifo,.enter 0,.turn 0,.turn 4,.turn 4,
    .enter 0,.turn 4,.turn 4,.turn 4,.turn 4,.turn 4,.fifo,.fifo]

theorem stream_aligned_five_bytes :
    ∃ base s, SpiRamFifo.system.Reaches base ∧
      (system base stereoWfx 44100 (fun _ => 0)).Reaches s ∧ s.task.place = .deleted ∧
      consumed s.trace = [1,2,3,4,5] ∧
      words s.pushes = frameWords [1,2,3,4,5] ++ List.replicate 4 0x80008000 := by
  have hrun : ((SpiRamFifo.system.exec (fun _ _ => True) SpiRamFifo.system.init fiveWritten).bind
      (fun base => ((system base stereoWfx 44100 (fun _ => 0)).exec (fun _ _ => True)
        (system base stereoWfx 44100 (fun _ => 0)).init wholeTask).map
          (fun s => (base.reader,s.task.place,consumed s.trace)))) =
      some (.idle,.deleted,[1,2,3,4,5]) := by
    decide +kernel
  obtain ⟨base,hbase,hrun⟩ := Option.bind_eq_some_iff.mp hrun
  obtain ⟨s,hs,he⟩ := Option.map_eq_some_iff.mp hrun
  simp only [Prod.mk.injEq] at he
  obtain ⟨hidle,hplace,hconsumed⟩ := he
  have hb := (System.run_of_exec hbase).reaches
  have hr := (System.run_of_exec hs).reaches
  have hleft : s.task.alive = false := by
    rw [Task.alive,hplace]
    rfl
  have haligned := (stream_aligned rfl rfl hb hidle hr hleft).1
  rw [hconsumed] at haligned
  exact ⟨base,s,hb,hr,hplace,hconsumed,haligned⟩

end WifiSpeaker.Proofs.FrameAlignment
