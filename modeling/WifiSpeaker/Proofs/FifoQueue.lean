import WifiSpeaker.Common.Queue
import WifiSpeaker.Proofs.FifoSteps

namespace WifiSpeaker.Proofs.FifoQueue
open Common SpiRamFifo FifoSteps

/-- The positions and the fill level agree and are in range. -/
structure Shape (f : Fifo) : Prop where
  sized : f.fakespiram.length = spiRamSize
  rpos : 0 ≤ f.fifoRpos ∧ f.fifoRpos < spiRamSize
  wpos : 0 ≤ f.fifoWpos ∧ f.fifoWpos < spiRamSize
  fill : 0 ≤ f.fifoFill ∧ f.fifoFill ≤ spiRamSize
  cursors : f.fifoWpos = (f.fifoRpos + f.fifoFill) % spiRamSize

/-- The `fifoFill` bytes from `fifoRpos` on, cyclically. -/
def contents (f : Fifo) : List UInt8 := window f.fakespiram f.fifoRpos.toNat f.fifoFill.toNat

/-- A chunk that may be moved at a position for a request of `len` bytes. -/
structure Fits (len pos n : Int) : Prop where
  some : 0 < n
  asked : n ≤ len
  small : n ≤ spiReadSize
  inside : pos + n ≤ spiRamSize

theorem chunkSize_fits {len pos : Int} (hlen : 0 < len) (hpos : 0 ≤ pos ∧ pos < spiRamSize) :
    Fits len pos (chunkSize len pos) := by
  simp only [chunkSize,spiReadSize,spiRamSize] at hpos ⊢
  constructor
  · split_ifs <;> omega
  · split_ifs <;> omega
  · simp only [spiReadSize]
    split_ifs <;> omega
  · simp only [spiRamSize]
    split_ifs <;> omega

theorem length_contents (h : Shape f) : (contents f).length = f.fifoFill.toNat := by
  apply length_window
  rw [h.sized]
  have := h.fill
  omega

/-- Storing a chunk that has room puts it behind the contents. -/
theorem store_contents (h : Shape f) (hn : 0 ≤ n) (hin : f.fifoWpos + n ≤ spiRamSize)
    (hroom : n ≤ spiRamSize - f.fifoFill) (hb : n ≤ buff.length) :
    contents (f.store buff n) = contents f ++ buff.take n.toNat := by
  have hlen : (buff.take n.toNat).length = n.toNat := by
    rw [List.length_take]
    omega
  have hr := h.rpos
  have hw := h.wpos
  have hf := h.fill
  have hfill : (f.fifoFill + n).toNat = f.fifoFill.toNat + (buff.take n.toNat).length := by
    rw [hlen]
    omega
  change window (memcpy f.fakespiram f.fifoWpos.toNat (buff.take n.toNat)) f.fifoRpos.toNat
    (f.fifoFill + n).toNat = _
  rw [hfill]
  apply window_memcpy
  · have := h.cursors
    rw [h.sized]
    simp only [spiRamSize] at this ⊢
    omega
  · rw [h.sized]
    omega
  · rw [h.sized,hlen]
    omega
  · rw [h.sized,hlen]
    omega

theorem Shape.store (h : Shape f) (hn : 0 ≤ n) (hin : f.fifoWpos + n ≤ spiRamSize)
    (hroom : n ≤ spiRamSize - f.fifoFill) (hb : n ≤ buff.length) : Shape (f.store buff n) := by
  obtain ⟨hsized,hr,hw,hf,hc⟩ := h
  refine ⟨?_,hr,?_,?_,?_⟩
  · rw [← hsized]
    apply length_memcpy
    rw [hsized,List.length_take]
    omega
  · simp only [Fifo.store,wrap,spiRamSize] at hin hw ⊢
    split_ifs <;> omega
  · simp only [Fifo.store]
    omega
  · simp only [Fifo.store,wrap,spiRamSize] at hin hr hw hf hroom hc ⊢
    split_ifs <;> omega

/-- The bytes read are the front of the contents, and the rest stays. -/
theorem load_contents (h : Shape f) (hn : 0 ≤ n) (hin : f.fifoRpos + n ≤ spiRamSize)
    (hthere : n ≤ f.fifoFill) :
    contents f = f.bytes n ++ contents (f.load n) := by
  have hr := h.rpos
  have hf := h.fill
  have hfront : f.bytes n = (contents f).take n.toNat := by
    refine (take_window ?_ ?_).symm
    · rw [h.sized]
      omega
    · omega
  have hrest : contents (f.load n) = (contents f).drop n.toNat := by
    have hpos : (wrap (f.fifoRpos + n)).toNat = (f.fifoRpos.toNat + n.toNat) % spiRamSize := by
      simp only [wrap,spiRamSize] at hr hin ⊢
      split_ifs <;> omega
    rw [contents,contents,drop_window,h.sized]
    · simp only [Fifo.load,hpos]
      congr 1
      omega
    · omega
    · rw [h.sized]
      omega
  rw [hfront,hrest,List.take_append_drop]

theorem Shape.load (h : Shape f) (hn : 0 ≤ n) (hin : f.fifoRpos + n ≤ spiRamSize)
    (hthere : n ≤ f.fifoFill) : Shape (f.load n) := by
  obtain ⟨hsized,hr,hw,hf,hc⟩ := h
  refine ⟨hsized,?_,hw,?_,?_⟩
  · simp only [Fifo.load,wrap,spiRamSize] at hin hr ⊢
    split_ifs <;> omega
  · simp only [Fifo.load]
    omega
  · simp only [Fifo.load,wrap,spiRamSize] at hin hr hw hf hc ⊢
    split_ifs <;> omega

theorem Shape.cleared (h : Shape f) : Shape (cleared f) := by
  have hsize : (0 : Int) < spiRamSize := by decide
  exact ⟨h.sized,⟨Int.le_refl 0,hsize⟩,⟨Int.le_refl 0,hsize⟩,⟨Int.le_refl 0,Int.le_of_lt hsize⟩,rfl⟩

/-- A chunk that is there is copied whole. -/
theorem length_bytes (h : Shape f) (hn : 0 ≤ n) (hin : f.fifoRpos + n ≤ spiRamSize)
    (hthere : n ≤ f.fifoFill) : (f.bytes n).length = n.toNat := by
  have hall := congrArg List.length (load_contents h hn hin hthere)
  rw [List.length_append,length_contents h,length_contents (h.load hn hin hthere)] at hall
  have hfill : f.fifoFill.toNat = (f.bytes n).length + (f.fifoFill - n).toNat := hall
  omega

/-- What the place of the writing thread promises: its buffer holds what it has
still to write, and a chunk it has sized fits, also after a reset. -/
def WriterFits (f : Fifo) : Writer → Prop
  | .idle | .fill => True
  | .loop buff buffLen | .canWrite buff buffLen | .giveCanRead buff buffLen => buffLen ≤ buff.length
  | .mux buff buffLen n => buffLen ≤ buff.length ∧ Fits buffLen f.fifoWpos n

/-- What the place of the reading thread promises: the bytes it has clamped its
request to are there, so that it never comes to wait for more. -/
def ReaderFits (f : Fifo) : Reader → Prop
  | .idle | .entry _ | .resetMux | .resetCanRead => True
  | .loop len _ | .giveCanWrite len _ => len ≤ f.fifoFill
  | .mux len _ n => len ≤ f.fifoFill ∧ Fits len f.fifoRpos n
  | .lowmark _ _ | .canRead _ _ => False

/-- A copy between the array and a buffer stays inside the array. -/
def Inside : Event → Prop
  | .spiRamWrite pos n bytes | .spiRamRead pos n bytes =>
    0 ≤ pos ∧ 0 ≤ n ∧ pos + n ≤ spiRamSize ∧ bytes.length = n
  | _ => True

structure Sound (s : State) : Prop where
  shape : Shape s.fifo
  writer : WriterFits s.fifo s.writer
  reader : ReaderFits s.fifo s.reader
  mutex : s.fifo.mux = true ↔ s.reader ≠ .resetCanRead
  inside : ∀ e ∈ s.trace, Inside e
  kept : (account s.trace).stored = (account s.trace).delivered ++ contents s.fifo

theorem account_snoc (trace : List Event) (e : Event) :
    account (trace ++ [e]) = (account trace).add e := by
  simp [account]

theorem inside_snoc (h : ∀ e ∈ trace, Inside e) (he : Inside e) :
    ∀ e' ∈ trace ++ [e], Inside e' := by
  intro e' hm
  rcases List.mem_append.mp hm with hm | hm
  · exact h e' hm
  · rwa [List.mem_singleton.mp hm]

/-- The reading thread's promise outlives a step that takes nothing away and
leaves its position. -/
theorem ReaderFits.mono (h : ReaderFits f r) (hfill : f.fifoFill ≤ f'.fifoFill)
    (hpos : f'.fifoRpos = f.fifoRpos) : ReaderFits f' r := by
  cases r with
  | idle | entry | resetMux | resetCanRead => trivial
  | loop | giveCanWrite => exact Int.le_trans h hfill
  | mux =>
    refine ⟨Int.le_trans h.1 hfill,?_⟩
    rw [hpos]
    exact h.2
  | lowmark | canRead => exact h

/-- The chunk a read has sized is there. -/
theorem ReaderFits.there (h : ReaderFits f (.mux len m n)) : n ≤ f.fifoFill :=
  Int.le_trans h.2.asked h.1

/-- The writing thread's promise outlives a step that leaves or resets its position. -/
theorem WriterFits.mono (h : WriterFits f w) (hpos : f'.fifoWpos = f.fifoWpos ∨ f'.fifoWpos = 0) :
    WriterFits f' w := by
  cases w with
  | idle | fill => trivial
  | loop | canWrite | giveCanRead => exact h
  | mux buff buffLen n =>
    obtain ⟨hb,hfits⟩ := h
    refine ⟨hb,hfits.some,hfits.asked,hfits.small,?_⟩
    rcases hpos with hpos | hpos
    · rw [hpos]
      exact hfits.inside
    · have := hfits.small
      rw [hpos]
      simp only [spiReadSize,spiRamSize] at this ⊢
      omega

/-- The bounded queue of bytes the FIFO is for. -/
def byteQueue : System (Queue UInt8) (QueueAct UInt8) := Queue.system UInt8 spiRamSize 1

/-- What was stored and delivered, seen as that queue: all of it may leave. -/
def asQueue (a : Account) : Queue UInt8 := ⟨a.stored,a.delivered,a.stored.length⟩

/-- A step keeps the invariant and is answered by the queue. -/
def Answered (s t : State) : Prop :=
  Sound t ∧ byteQueue.Steps (asQueue (account s.trace)) (asQueue (account t.trace))

theorem Sound.waiting (h : Sound s) : (asQueue (account s.trace)).waiting = contents s.fifo := by
  rw [Queue.waiting,asQueue,h.kept,List.drop_left]

/-- The statics differ in semaphores and counters only. -/
structure SameBytes (f f' : Fifo) : Prop where
  memory : f'.fakespiram = f.fakespiram
  rpos : f'.fifoRpos = f.fifoRpos
  wpos : f'.fifoWpos = f.fifoWpos
  fill : f'.fifoFill = f.fifoFill

theorem SameBytes.shape (h : SameBytes f f') (hs : Shape f) : Shape f' := by
  obtain ⟨hmemory,hrpos,hwpos,hfill⟩ := h
  obtain ⟨hsized,hr,hw,hf,hc⟩ := hs
  constructor
  · rwa [hmemory]
  · rwa [hrpos]
  · rwa [hwpos]
  · rwa [hfill]
  · rwa [hwpos,hrpos,hfill]

theorem SameBytes.contents (h : SameBytes f f') : contents f' = contents f := by
  rw [FifoQueue.contents,FifoQueue.contents,h.memory,h.rpos,h.fill]

/-- Events the account does not look at. -/
def Silent : Event → Prop
  | .spiRamWrite _ _ _ | .spiRamRead _ _ _ | .reset => False
  | _ => True

theorem account_silent (h : ∀ e ∈ events, Silent e) (trace : List Event) :
    account (trace ++ events) = account trace := by
  induction events using List.reverseRecOn with
  | nil => rw [List.append_nil]
  | append_singleton events e ih =>
    have hrest := ih (fun e he => h e (List.mem_append_left _ he))
    have he : Silent e := h e (by simp)
    rw [← List.append_assoc,account_snoc,hrest]
    cases e with
    | spiRamWrite | spiRamRead | reset => exact he.elim
    | canRead | resetDone | readReturns | fillReturns => rfl

theorem inside_silent {events : List Event} (h : ∀ e ∈ events, Silent e) :
    ∀ e ∈ events, Inside e := by
  intro e he
  cases e with
  | spiRamWrite | spiRamRead => exact (h _ he).elim
  | reset | canRead | resetDone | readReturns | fillReturns => trivial

/-- A step that neither stores nor delivers nor resets. -/
theorem Sound.quiet (h : Sound s) (hsame : SameBytes s.fifo f') (hw : WriterFits s.fifo w')
    (hr : ReaderFits s.fifo r') (hmutex : f'.mux = true ↔ r' ≠ .resetCanRead)
    (hsilent : ∀ e ∈ events, Silent e) : Answered s ⟨f',w',r',s.trace ++ events⟩ := by
  have haccount := account_silent hsilent s.trace
  refine ⟨⟨hsame.shape h.shape,hw.mono (.inl hsame.wpos),
    hr.mono (Int.le_of_eq hsame.fill.symm) hsame.rpos,hmutex,?_,?_⟩,?_⟩
  · intro e he
    rcases List.mem_append.mp he with he | he
    · exact h.inside e he
    · exact inside_silent hsilent e he
  · change (account (s.trace ++ events)).stored =
      (account (s.trace ++ events)).delivered ++ contents f'
    rw [haccount,hsame.contents]
    exact h.kept
  · change byteQueue.Steps _ (asQueue (account (s.trace ++ events)))
    rw [haccount]
    exact System.Steps.refl _

theorem Sound.stored (h : Sound ⟨f,.mux buff buffLen n,r,trace⟩)
    (room : n ≤ spiRamSize - f.fifoFill) :
    contents (f.store buff n) = contents f ++ buff.take n.toNat := by
  obtain ⟨hb,hfits⟩ := h.writer
  exact store_contents h.shape (Int.le_of_lt hfits.some) hfits.inside room
    (Int.le_trans hfits.asked hb)

theorem store_sound (h : Sound ⟨f,.mux buff buffLen n,r,trace⟩)
    (room : n ≤ spiRamSize - f.fifoFill) :
    Answered ⟨f,.mux buff buffLen n,r,trace⟩
      ⟨f.store buff n,.giveCanRead (buff.drop n.toNat) (buffLen - n),r,
        trace ++ [.spiRamWrite f.fifoWpos n (buff.take n.toNat)]⟩ := by
  obtain ⟨hb,hfits⟩ := h.writer
  have hn : 0 ≤ n := Int.le_of_lt hfits.some
  have hlen : n ≤ buff.length := Int.le_trans hfits.asked hb
  have htake : ((buff.take n.toNat).length : Int) = n := by
    rw [List.length_take]
    omega
  refine ⟨⟨h.shape.store hn hfits.inside room hlen,?_,?_,h.mutex,?_,?_⟩,?_⟩
  · change buffLen - n ≤ (buff.drop n.toNat).length
    rw [List.length_drop]
    omega
  · refine h.reader.mono ?_ rfl
    change f.fifoFill ≤ f.fifoFill + n
    omega
  · exact inside_snoc h.inside ⟨h.shape.wpos.1,hn,hfits.inside,htake⟩
  · change (account (trace ++ [_])).stored = (account (trace ++ [_])).delivered ++ _
    rw [account_snoc,h.stored room]
    change (account trace).stored ++ _ = (account trace).delivered ++ (contents f ++ _)
    rw [h.kept,List.append_assoc]
  · change byteQueue.Steps (asQueue (account trace)) (asQueue (account (trace ++ [_])))
    rw [account_snoc]
    have hwait := congrArg List.length h.waiting
    rw [length_contents h.shape] at hwait
    have hfill : 0 ≤ f.fifoFill := h.shape.fill.1
    have hcap : (asQueue (account trace)).waiting.length + (buff.take n.toNat).length ≤
        spiRamSize := by
      rw [hwait]
      change f.fifoFill.toNat + (buff.take n.toNat).length ≤ spiRamSize
      omega
    exact System.Steps.two (Queue.step_enter hcap) (Queue.step_commit (Nat.mod_one _))

theorem writer_sound (h : Sound s) (hm : WriterMove s.fifo s.writer f' w' events) :
    Answered s ⟨f',w',s.reader,s.trace ++ events⟩ := by
  obtain ⟨f,w,r,trace⟩ := s
  cases hm with
  | size more =>
    exact h.quiet ⟨rfl,rfl,rfl,rfl⟩ ⟨h.writer,chunkSize_fits more h.shape.wpos⟩ h.reader h.mutex
      (by simp)
  | returns done => exact h.quiet ⟨rfl,rfl,rfl,rfl⟩ trivial h.reader h.mutex (by simp)
  | full free lacks => exact h.quiet ⟨rfl,rfl,rfl,rfl⟩ h.writer.1 h.reader h.mutex (by simp)
  | store free room => exact store_sound h room
  | woken given => exact h.quiet ⟨rfl,rfl,rfl,rfl⟩ h.writer h.reader h.mutex (by simp)
  | give => exact h.quiet ⟨rfl,rfl,rfl,rfl⟩ h.writer h.reader h.mutex (by simp [Silent])
  | fill free => exact h.quiet ⟨rfl,rfl,rfl,rfl⟩ trivial h.reader h.mutex (by simp [Silent])

theorem load_sound (h : Sound ⟨f,w,.mux len m n,trace⟩) (free : f.mux = true) :
    Answered ⟨f,w,.mux len m n,trace⟩
      ⟨f.load n,w,.giveCanWrite (len - n) m,trace ++ [.spiRamRead f.fifoRpos n (f.bytes n)]⟩ := by
  obtain ⟨hlen,hfits⟩ : len ≤ f.fifoFill ∧ Fits len f.fifoRpos n := h.reader
  have hn : 0 ≤ n := Int.le_of_lt hfits.some
  have hthere : n ≤ f.fifoFill := ReaderFits.there h.reader
  have hcut := load_contents h.shape hn hfits.inside hthere
  have hbytes := length_bytes h.shape hn hfits.inside hthere
  refine ⟨⟨h.shape.load hn hfits.inside hthere,h.writer.mono (.inl rfl),?_,?_,?_,?_⟩,?_⟩
  · change len - n ≤ f.fifoFill - n
    omega
  · exact ⟨nofun,fun _ => free⟩
  · refine inside_snoc h.inside ⟨h.shape.rpos.1,hn,hfits.inside,?_⟩
    rw [hbytes]
    omega
  · change (account (trace ++ [_])).stored = (account (trace ++ [_])).delivered ++ _
    rw [account_snoc]
    change (account trace).stored = ((account trace).delivered ++ f.bytes n) ++ _
    rw [List.append_assoc,← hcut]
    exact h.kept
  · change byteQueue.Steps (asQueue (account trace)) (asQueue (account (trace ++ [_])))
    rw [account_snoc]
    have hleave : f.bytes n = (asQueue (account trace)).waiting.take n.toNat := by
      rw [h.waiting]
      change _ = (contents f).take n.toNat
      rw [hcut,← hbytes,List.take_left]
    have hstep : byteQueue.step (asQueue (account trace)) (.leave n.toNat) =
        some (asQueue ((account trace).add (.spiRamRead f.fifoRpos n (f.bytes n)))) := by
      rw [byteQueue,Queue.step_leave]
      · rw [← hleave]
        rfl
      · have hkept := congrArg List.length h.kept
        rw [List.length_append,length_contents h.shape] at hkept
        change (account trace).delivered.length + n.toNat ≤ (account trace).stored.length
        rw [hkept]
        change _ ≤ (account trace).delivered.length + f.fifoFill.toNat
        omega
    exact System.Steps.one hstep

theorem reset_sound (h : Sound ⟨f,w,.resetMux,trace⟩) :
    Answered ⟨f,w,.resetMux,trace⟩ ⟨cleared f,w,.resetCanRead,trace ++ [.reset]⟩ := by
  refine ⟨⟨h.shape.cleared,h.writer.mono (.inr rfl),trivial,?_,inside_snoc h.inside trivial,?_⟩,?_⟩
  · exact ⟨nofun,fun hne => absurd rfl hne⟩
  · change (account (trace ++ [_])).stored = (account (trace ++ [_])).delivered ++ _
    rw [account_snoc]
    rfl
  · change byteQueue.Steps (asQueue (account trace)) (asQueue (account (trace ++ [_])))
    rw [account_snoc]
    exact System.Steps.one (a := .reset) rfl

theorem reader_sound (h : Sound s) (hm : ReaderMove s.fifo s.reader f' r' events) :
    Answered s ⟨f',s.writer,r',s.trace ++ events⟩ := by
  obtain ⟨f,w,r,trace⟩ := s
  cases hm with
  | nothing none =>
    exact h.quiet ⟨rfl,rfl,rfl,rfl⟩ h.writer trivial ⟨nofun,fun _ => h.mutex.mpr nofun⟩
      (by simp [Silent])
  | clamp some =>
    exact h.quiet ⟨rfl,rfl,rfl,rfl⟩ h.writer (Int.min_le_right _ _)
      ⟨nofun,fun _ => h.mutex.mpr nofun⟩ (by simp)
  | size more =>
    exact h.quiet ⟨rfl,rfl,rfl,rfl⟩ h.writer ⟨h.reader,chunkSize_fits more h.shape.rpos⟩
      ⟨nofun,fun _ => h.mutex.mpr nofun⟩ (by simp)
  | returns done =>
    exact h.quiet ⟨rfl,rfl,rfl,rfl⟩ h.writer trivial ⟨nofun,fun _ => h.mutex.mpr nofun⟩
      (by simp [Silent])
  | short free lacks => exact absurd (ReaderFits.there h.reader) (Int.not_le.mpr lacks)
  | load free there => exact load_sound h free
  | low => exact h.reader.elim
  | high => exact h.reader.elim
  | woken => exact h.reader.elim
  | give =>
    exact h.quiet ⟨rfl,rfl,rfl,rfl⟩ h.writer h.reader ⟨nofun,fun _ => h.mutex.mpr nofun⟩ (by simp)
  | reset free => exact reset_sound h
  | resetDone given =>
    exact h.quiet ⟨rfl,rfl,rfl,rfl⟩ h.writer trivial ⟨nofun,fun _ => rfl⟩ (by simp [Silent])

/-- A call only moves its thread. -/
theorem Sound.call (h : Sound s) (hw : WriterFits s.fifo w') (hr : ReaderFits s.fifo r')
    (hmutex : s.fifo.mux = true ↔ r' ≠ .resetCanRead) : Answered s ⟨s.fifo,w',r',s.trace⟩ := by
  have := h.quiet ⟨rfl,rfl,rfl,rfl⟩ hw hr hmutex (List.forall_mem_nil _)
  rwa [List.append_nil] at this

theorem step_sound (h : Sound s) (ht : step s a = some t) : Answered s t := by
  cases threads_move ht with
  | callWrite _ fits => exact h.call fits h.reader h.mutex
  | callFill => exact h.call trivial h.reader h.mutex
  | writer move => exact writer_sound h move
  | callRead idle | callReset idle =>
    exact h.call h.writer trivial ⟨nofun,fun _ => h.mutex.mpr (by simp [idle])⟩
  | reader move => exact reader_sound h move

theorem init_sound : Sound system.init := by
  have hsize : (0 : Int) < spiRamSize := by decide
  refine ⟨⟨List.length_replicate,⟨Int.le_refl 0,hsize⟩,⟨Int.le_refl 0,hsize⟩,
    ⟨Int.le_refl 0,Int.le_of_lt hsize⟩,rfl⟩,trivial,trivial,⟨nofun,fun _ => rfl⟩,nofun,rfl⟩

/-- The FIFO is the bounded byte queue. In every state the positions and the
fill level agree and are in range, every copy lies inside the array, and the
bytes stored since the last reset are those delivered since and behind them the
`fifoFill` bytes from `fifoRpos` on, cyclically. -/
theorem fifo_refines_queue (h : system.Reaches s) :
    (0 ≤ s.fifo.fifoRpos ∧ s.fifo.fifoRpos < spiRamSize) ∧
    (0 ≤ s.fifo.fifoWpos ∧ s.fifo.fifoWpos < spiRamSize) ∧
    (0 ≤ s.fifo.fifoFill ∧ s.fifo.fifoFill ≤ spiRamSize) ∧
    s.fifo.fifoWpos = (s.fifo.fifoRpos + s.fifo.fifoFill) % spiRamSize ∧
    (∀ e ∈ s.trace, Inside e) ∧
    (account s.trace).delivered <+: (account s.trace).stored ∧
    (account s.trace).stored = (account s.trace).delivered ++
      window s.fifo.fakespiram s.fifo.fifoRpos.toNat s.fifo.fifoFill.toNat ∧
    ∃ q, byteQueue.Reaches q ∧ q.entered = (account s.trace).stored ∧
      q.left = (account s.trace).delivered ∧ q.waiting = contents s.fifo := by
  obtain ⟨acts,hr⟩ := h
  have hsim := hr.simulates (A := byteQueue)
    (R := fun s q => Sound s ∧ q = asQueue (account s.trace)) ⟨init_sound,rfl⟩ (by
      rintro s _ a t ⟨hs,rfl⟩ _ ht
      obtain ⟨hsound,hsteps⟩ := step_sound hs ht
      exact ⟨_,hsteps,hsound,rfl⟩)
  obtain ⟨_,hq,hs,rfl⟩ := hsim
  exact ⟨hs.shape.rpos,hs.shape.wpos,hs.shape.fill,hs.shape.cursors,hs.inside,
    (Queue.reaches_sound hq).left_first,hs.kept,_,hq,rfl,rfl,hs.waiting⟩

/-- Three bytes written, two of them read. -/
theorem fifo_refines_queue_two_of_three :
    ∃ s, system.Reaches s ∧ s.fifo.fifoFill = 1 ∧
      account s.trace = ⟨[1,2,3],[1,2]⟩ ∧
      (account s.trace).delivered <+: (account s.trace).stored := by
  let acts : List Act := [.callWrite [1,2,3] 3,.writer,.writer,.writer,
    .callRead 2,.reader,.reader,.reader]
  have hrun : (system.exec (fun _ _ => True) system.init acts).map
      (fun s => (s.fifo.fifoFill,account s.trace)) = some (1,⟨[1,2,3],[1,2]⟩) := by
    decide +kernel
  obtain ⟨s,hs,he⟩ := Option.map_eq_some_iff.mp hrun
  simp only [Prod.mk.injEq] at he
  have h := (System.run_of_exec hs).reaches
  obtain ⟨_,_,_,_,_,hp,_⟩ := fifo_refines_queue h
  exact ⟨s,h,he.1,he.2,hp⟩

end WifiSpeaker.Proofs.FifoQueue
