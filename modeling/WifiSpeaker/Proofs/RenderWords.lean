import WifiSpeaker.RenderSamples

namespace WifiSpeaker.Proofs.RenderWords
open Common Wire RenderSamples

/-- The signed 16-bit number two bytes spell, low byte first. -/
def littleEndian (low high : UInt8) : Int :=
  let n : Int := low.toNat + 256 * high.toNat
  if n < 2 ^ 15 then n else n - 2 ^ 16

/-- A sample moved from −32768..32767 to 0..65535. -/
def unsigned (n : Int) : Int := (n + 0x8000) % 2 ^ 16

theorem word_pair (low high : UInt8) :
    (word [low,high]).toNat = low.toNat + 256 * high.toNat := by
  have hl := low.toNat_lt
  have hh := high.toNat_lt
  simp only [word,leNat_cons,leNat_nil,UInt16.toNat_ofNat']
  omega

theorem short_eq (buf : Nat → UInt8) (ptr : Nat) :
    (short buf ptr).toInt = littleEndian (buf ptr) (buf (ptr + 1)) := by
  have hl := (buf ptr).toNat_lt
  have hh := (buf (ptr + 1)).toNat_lt
  have h : (short buf ptr).toInt = (word [buf ptr,buf (ptr + 1)]).toBitVec.toInt := rfl
  rw [h,BitVec.toInt_eq_toNat_cond,UInt16.toNat_toBitVec,word_pair]
  unfold littleEndian
  dsimp only
  split_ifs <;> omega

/-- The assignment to a `short` and the cast back to unsigned. -/
theorem shifted_eq (s : Int16) : ((shifted s).toUInt16.toNat : Int) = unsigned s.toInt := by
  have h : (shifted s).toUInt16.toNat = (BitVec.ofInt 16 (s.toInt + 0x8000)).toNat := rfl
  rw [h,BitVec.toNat_ofInt]
  unfold unsigned
  omega

/-- The shift, the mask and the or put the two halves side by side. -/
theorem sample_eq (left right : Int16) :
    ((sample left right).toNat : Int) =
      unsigned left.toInt * 2 ^ 16 + unsigned right.toInt := by
  rw [← shifted_eq,← shifted_eq]
  generalize hl : (shifted left).toUInt16 = l
  generalize hr : (shifted right).toUInt16 = r
  have hlt := l.toNat_lt
  have hrt := r.toNat_lt
  have hshift : l.toNat <<< 16 % 2 ^ 32 = l.toNat <<< 16 := by
    apply Nat.mod_eq_of_lt
    rw [Nat.shiftLeft_eq]
    omega
  have hand : l.toNat <<< 16 &&& 0xffff0000 = l.toNat <<< 16 := by
    have hd := Nat.shiftLeft_and_distrib (a := l.toNat) (b := 2 ^ 16 - 1) (i := 16)
    rw [Nat.and_two_pow_sub_one_eq_mod,Nat.mod_eq_of_lt hlt] at hd
    exact hd.symm
  have hsum : (sample left right).toNat = l.toNat <<< 16 ||| r.toNat := by
    have hby : (16 : UInt32).toNat % 32 = 16 := rfl
    have hmask : (0xffff0000 : UInt32).toNat = 0xffff0000 := rfl
    simp only [sample,hl,hr,UInt32.toNat_or,UInt32.toNat_and,UInt32.toNat_shiftLeft,
      UInt16.toNat_toUInt32]
    rw [hby,hshift,hmask,hand]
  rw [hsum,← Nat.shiftLeft_add_eq_or_of_lt hrt,Nat.shiftLeft_eq]
  omega

/-- The locals once some number of words is through: the counter and both
pointers go on together, four bytes a word. -/
def loopAt (n : UInt32) (d k : Nat) : Loop := ⟨n,4,4 * k,4 * k + d,k⟩

theorem loopAt_retry (n : UInt32) (d k : Nat) : (loopAt n d k).next 0 = loopAt n d k := by
  simp [Loop.next,loopAt]

theorem loopAt_next (n : UInt32) (d k : Nat) (h : bytesPushed ≠ 0) :
    (loopAt n d k).next bytesPushed = loopAt n d (k + 1) := by
  have hs : (4 : UInt8).toNat = 4 := rfl
  simp only [Loop.next,loopAt,if_neg h,hs,Loop.mk.injEq,true_and]
  omega

theorem loopAt_more (h : k ≤ n.toNat) : (loopAt n d k).more = true ↔ k < n.toNat := by
  have hlt := n.toNat_lt
  have hk : (UInt32.ofInt (k : Int)).toNat = k := by
    rw [UInt32.ofInt,UInt32.toNat_ofNat']
    omega
  simp only [Loop.more,loopAt,decide_eq_true_eq,UInt32.lt_iff_toNat_lt,hk]

/-- A push as it has to be for the word with the given number. -/
def pushAt (buf : Nat → UInt8) (d k : Nat) (bytesPushed : Int) : Push :=
  ⟨4 * k,4 * k + d,sample (short buf (4 * k)) (short buf (4 * k + d)),bytesPushed⟩

/-- The bytes the turn for a word reads. -/
def readsAt (d k : Nat) : List Nat := [4 * k,4 * k + 1,4 * k + d,4 * k + d + 1]

/-- The logs of a call and the locals at its place: the word that comes next is
the first that is not through. -/
structure InStep (buf : Nat → UInt8) (n : UInt32) (d : Nat) (s : State) : Prop where
  bound : (accepted s.pushes).length ≤ n.toNat
  words : ∀ k p, (accepted s.pushes)[k]? = some p → p = pushAt buf d k p.bytesPushed
  reads : ∀ r ∈ s.reads, ∃ k < n.toNat, r ∈ readsAt d k
  place : ∀ l, s.place = .loop l → l = loopAt n d (accepted s.pushes).length

theorem accepted_retry (pushes : List Push) (h : p.bytesPushed = 0) :
    accepted (pushes ++ [p]) = accepted pushes := by
  simp [accepted,h]

theorem accepted_snoc (pushes : List Push) (h : p.bytesPushed ≠ 0) :
    accepted (pushes ++ [p]) = accepted pushes ++ [p] := by
  simp [accepted,h]

/-- A turn that comes to its push. -/
theorem InStep.push (h : InStep buf n d s) (hl : s.place = .loop l) (hm : l.more = true)
    (bytesPushed : Int) :
    InStep buf n d { s with
      place := .loop (l.next bytesPushed)
      reads := s.reads ++ [l.ptrL,l.ptrL + 1,l.ptrR,l.ptrR + 1]
      pushes := s.pushes ++ [l.push buf bytesPushed] } := by
  obtain rfl := h.place l hl
  have hlt := (loopAt_more h.bound).mp hm
  have hreads : ∀ r ∈ s.reads ++ readsAt d (accepted s.pushes).length,
      ∃ k < n.toNat, r ∈ readsAt d k := by
    intro r hr
    rcases List.mem_append.mp hr with hr | hr
    · exact h.reads r hr
    · exact ⟨_,hlt,hr⟩
  by_cases hz : bytesPushed = 0
  · subst bytesPushed
    have hsame := accepted_retry s.pushes
      (p := (loopAt n d (accepted s.pushes).length).push buf 0) rfl
    refine ⟨?_,?_,hreads,?_⟩
    · rw [hsame]
      exact h.bound
    · rw [hsame]
      exact h.words
    · intro l hl'
      cases hl'
      rw [hsame,loopAt_retry]
  · have hmore := accepted_snoc s.pushes
      (p := (loopAt n d (accepted s.pushes).length).push buf bytesPushed) hz
    refine ⟨?_,?_,hreads,?_⟩
    · rw [hmore,List.length_append]
      exact hlt
    · intro k p hk
      rw [hmore,List.getElem?_append] at hk
      split_ifs at hk with hold
      · exact h.words k p hk
      · have hone := (List.getElem?_eq_some_iff.mp hk).1
        rw [List.length_singleton] at hone
        obtain rfl := List.mem_singleton.mp (List.mem_of_getElem? hk)
        obtain rfl : k = (accepted s.pushes).length := by omega
        rfl
    · intro l hl'
      cases hl'
      rw [hmore,List.length_append,loopAt_next n d _ hz]
      rfl

theorem InStep.leave (h : InStep buf n d s) : InStep buf n d { s with place := .returned } :=
  ⟨h.bound,h.words,h.reads,nofun⟩

/-- A 16-bit descriptor with the number of frames of the buffer, and the distance
of the right sample from the left one. -/
structure Sixteen (bufLen : UInt32) (bufDesc : WaveFormatEx) (n : UInt32) (d : Nat) : Prop where
  bits : bufDesc.wBitsPerSample = 16
  channels : bufDesc.nChannels ≠ 0
  frames : n = bufLen / 2 / bufDesc.nChannels.toUInt32
  right : d = if bufDesc.nChannels = 1 then 0 else 2

theorem bytes_sixteen (h : bufDesc.wBitsPerSample = 16) : bufBytesPerSample bufDesc = 2 := by
  rw [bufBytesPerSample,h]
  rfl

theorem Sixteen.numSamples (h : Sixteen bufLen bufDesc n d) :
    numSamples bufLen bufDesc = some n := by
  have hb := bytes_sixteen h.bits
  rw [RenderSamples.numSamples,hb,h.frames]
  exact if_neg (by simp [h.channels])

theorem Sixteen.enter (h : Sixteen bufLen bufDesc n d) : Loop.enter n bufDesc = loopAt n d 0 := by
  rw [Loop.enter,loopAt,bytes_sixteen h.bits,h.right]
  congr 1
  simp only [Nat.mul_zero,Nat.zero_add]
  rfl

section Run
variable {buf : Nat → UInt8} {bufLen n : UInt32} {bufDesc : WaveFormatEx} {d : Nat}
  {sampleRate : UInt32} {acts : List Act} {s t : State}

theorem changeRate_logs (s : State) (bufDesc : WaveFormatEx) (ret : Int) :
    (s.changeRate bufDesc ret).pushes = s.pushes ∧ (s.changeRate bufDesc ret).reads = s.reads := by
  unfold State.changeRate
  split_ifs <;> exact ⟨rfl,rfl⟩

/-- Before the entry nothing is logged; behind it the call is in step, and it has
returned because it is through or because it saw the status. -/
inductive Stage (buf : Nat → UInt8) (n : UInt32) (d : Nat) (acts : List Act) (s : State) : Prop
  | entry (place : s.place = .entry) (pushes : s.pushes = []) (reads : s.reads = [])
  | inside (l : Loop) (place : s.place = .loop l) (step : InStep buf n d s)
  | returned (place : s.place = .returned) (step : InStep buf n d s)
      (why : (∃ bytesPushed, .turn .stopped bytesPushed ∈ acts) ∨
        (accepted s.pushes).length = n.toNat)

theorem step_stage (h16 : Sixteen bufLen bufDesc n d) (h : Stage buf n d acts s)
    (ht : step buf bufLen bufDesc s a = some t) : Stage buf n d (acts ++ [a]) t := by
  cases a with
  | enter ret =>
    cases h with
    | entry place pushes reads =>
      obtain ⟨hp,hr⟩ := changeRate_logs s bufDesc ret
      simp only [step,place,h16.numSamples,h16.bits,ne_eq,not_true,if_false,
        Option.some.injEq] at ht
      subst t
      refine .inside _ rfl ⟨?_,?_,?_,?_⟩
      · simp [hp,pushes,accepted]
      · simp [hp,pushes,accepted]
      · simp [hr,reads]
      · intro l hl
        cases hl
        rw [hp,pushes,h16.enter]
        rfl
    | inside l place => simp [step,place] at ht
    | returned place => simp [step,place] at ht
  | turn status bytesPushed =>
    cases h with
    | entry place => simp [step,place] at ht
    | returned place => simp [step,place] at ht
    | inside l place step =>
      simp only [RenderSamples.step,place,Option.some.injEq] at ht
      subst t
      unfold State.turn
      split_ifs with hm hstop
      · refine .returned rfl step.leave (.inl ⟨bytesPushed,?_⟩)
        simp [hstop]
      · exact .inside _ rfl (step.push place hm bytesPushed)
      · refine .returned rfl step.leave (.inr ?_)
        obtain rfl := step.place l place
        rw [loopAt_more step.bound] at hm
        exact Nat.le_antisymm step.bound (Nat.not_lt.mp hm)

theorem run_stage (h16 : Sixteen bufLen bufDesc n d)
    (h : (renderSamples sampleRate buf bufLen bufDesc).Run ok acts s) : Stage buf n d acts s :=
  h.history (P := Stage buf n d) (.entry rfl rfl rfl) (fun _ _ _ _ hs _ ht => step_stage h16 hs ht)

theorem Stage.inStep (h : Stage buf n d acts s) : InStep buf n d s := by
  cases h with
  | entry place pushes reads =>
    refine ⟨?_,?_,?_,?_⟩
    · simp [pushes,accepted]
    · simp [pushes,accepted]
    · simp [reads]
    · intro l hl
      rw [place] at hl
      cases hl
  | inside _ _ step => exact step
  | returned _ step _ => exact step

/-- The words of the first stereo frames of a buffer. -/
def stereoWords (buf : Nat → UInt8) (n : Nat) : List Int :=
  (List.range n).map (fun i =>
    unsigned (littleEndian (buf (4 * i)) (buf (4 * i + 1))) * 2 ^ 16 +
      unsigned (littleEndian (buf (4 * i + 2)) (buf (4 * i + 3))))

/-- The accepted words, as numbers. -/
def acceptedWords (s : State) : List Int :=
  (accepted s.pushes).map (fun p => (p.sample.toNat : Int))

theorem InStep.stereo (h : InStep buf n 2 s) :
    acceptedWords s = stereoWords buf (accepted s.pushes).length := by
  apply List.ext_getElem?
  intro k
  simp only [acceptedWords,stereoWords,List.getElem?_map]
  cases hk : (accepted s.pushes)[k]? with
  | none =>
    rw [List.getElem?_eq_none_iff] at hk
    rw [List.getElem?_eq_none_iff.mpr (by simpa using hk)]
    rfl
  | some p =>
    have hlt := (List.getElem?_eq_some_iff.mp hk).1
    rw [List.getElem?_range hlt,h.words k p hk]
    simp only [Option.map_some,pushAt,sample_eq,short_eq]

theorem stereoWords_le (buf : Nat → UInt8) (h : m ≤ k) :
    stereoWords buf m <+: stereoWords buf k := by
  have hm : List.range m = (List.range k).take m := by
    rw [List.take_range,Nat.min_eq_left h]
  rw [stereoWords,hm,List.map_take]
  exact List.take_prefix _ _

theorem sixteen_stereo (hbits : bufDesc.wBitsPerSample = 16) (hstereo : bufDesc.nChannels = 2) :
    Sixteen bufLen bufDesc (bufLen / 2 / 2) 2 := by
  refine ⟨hbits,?_,?_,?_⟩
  · rw [hstereo]
    decide
  · rw [hstereo]
    rfl
  · rw [hstereo]
    rfl

theorem frames_stereo (bufLen : UInt32) : (bufLen / 2 / 2).toNat = bufLen.toNat / 4 := by
  have h2 : (2 : UInt32).toNat = 2 := rfl
  rw [UInt32.toNat_div,UInt32.toNat_div,h2]
  omega

/-- A stereo buffer is rendered exactly, wherever the driver refuses a word: the
accepted words are those of the frames in order, all of them if the call returns
without having seen `STOPPED`, and no byte behind the buffer is read. -/
theorem stereo_exact (hbits : bufDesc.wBitsPerSample = 16) (hstereo : bufDesc.nChannels = 2)
    (h : (renderSamples sampleRate buf bufLen bufDesc).Run (fun _ _ => True) acts s) :
    (s.place = .returned → (∀ bytesPushed, .turn .stopped bytesPushed ∉ acts) →
      acceptedWords s = stereoWords buf (bufLen.toNat / 4)) ∧
    acceptedWords s <+: stereoWords buf (bufLen.toNat / 4) ∧
    ∀ r ∈ s.reads, r < bufLen.toNat := by
  have hstage := run_stage (sixteen_stereo hbits hstereo) h
  have hin := hstage.inStep
  have hframes := frames_stereo bufLen
  refine ⟨?_,?_,?_⟩
  · intro hplace hrunning
    cases hstage with
    | entry place => simp [hplace] at place
    | inside _ place => simp [hplace] at place
    | returned place step why =>
      rcases why with ⟨bytesPushed,hm⟩ | hall
      · exact absurd hm (hrunning bytesPushed)
      · rw [step.stereo,hall,hframes]
  · rw [hin.stereo]
    apply stereoWords_le
    rw [← hframes]
    exact hin.bound
  · intro r hr
    obtain ⟨k,hk,hm⟩ := hin.reads r hr
    rw [hframes] at hk
    simp only [readsAt,List.mem_cons,List.not_mem_nil,or_false] at hm
    omega

/-- Two frames, a refused push before each of them. -/
theorem stereo_exact_two_frames :
    ∃ acts s, (renderSamples 44100 (fun k => UInt8.ofNat k) 8 ⟨1,2,44100,0,0,16,0,0⟩).Run
        (fun _ _ => True) acts s ∧ s.place = .returned ∧
      acceptedWords s = stereoWords (fun k => UInt8.ofNat k) 2 := by
  let acts : List Act := [.enter 0,.turn .running 0,.turn .running 4,.turn .running 0,
    .turn .running 4,.turn .running 4]
  have hrun : ((renderSamples 44100 (fun k => UInt8.ofNat k) 8 ⟨1,2,44100,0,0,16,0,0⟩).exec
      (fun _ _ => True) (renderSamples 44100 (fun k => UInt8.ofNat k) 8
        ⟨1,2,44100,0,0,16,0,0⟩).init acts).map State.place = some .returned := by decide +kernel
  obtain ⟨s,hs,hplace⟩ := Option.map_eq_some_iff.mp hrun
  have hr := System.run_of_exec hs
  exact ⟨acts,s,hr,hplace,(stereo_exact rfl rfl hr).1 hplace (by simp [acts])⟩

/-- The words of a stream with one channel, or with more than two, are built from
its frames in order, and no byte behind the buffer is read. -/
def Aligned (buf : Nat → UInt8) (bufLen : UInt32) (channels : Nat) (s : State) : Prop :=
  (∀ k p, (accepted s.pushes)[k]? = some p →
    p.ptrL = 2 * channels * k ∧
    p.ptrR = (if channels = 1 then 2 * channels * k else 2 * channels * k + 2) ∧
    p.sample = sample (short buf p.ptrL) (short buf p.ptrR)) ∧
  ∀ r ∈ s.reads, r < bufLen.toNat

theorem frames_channels (bufLen : UInt32) (bufDesc : WaveFormatEx) :
    (bufLen / 2 / bufDesc.nChannels.toUInt32).toNat =
      bufLen.toNat / 2 / bufDesc.nChannels.toNat := by
  have h2 : (2 : UInt32).toNat = 2 := rfl
  rw [UInt32.toNat_div,UInt32.toNat_div,h2,UInt16.toNat_toUInt32]

theorem channels_one (bufDesc : WaveFormatEx) :
    bufDesc.nChannels = 1 ↔ bufDesc.nChannels.toNat = 1 := by
  rw [← UInt16.toNat_inj]
  rfl

theorem InStep.aligned (h : InStep buf n d s) (hone : n.toNat ≤ 1)
    (hd : d = if channels = 1 then 0 else 2) (hlen : n.toNat = 1 → d + 1 < bufLen.toNat) :
    Aligned buf bufLen channels s := by
  constructor
  · intro k p hk
    have hlt := (List.getElem?_eq_some_iff.mp hk).1
    have hbound := h.bound
    obtain rfl : k = 0 := by omega
    rw [h.words 0 p hk]
    simp only [pushAt,hd,Nat.mul_zero,Nat.zero_add,and_true]
  · intro r hr
    obtain ⟨k,hk,hm⟩ := h.reads r hr
    have := hlen (by omega)
    simp only [readsAt,List.mem_cons,List.not_mem_nil,or_false] at hm
    omega

/-- The driver can accept any number of words up to the number of frames. -/
theorem accepts (h16 : Sixteen bufLen bufDesc n d) (sampleRate : UInt32) (buf : Nat → UInt8)
    (m : Nat) (hm : m ≤ n.toNat) :
    ∃ acts s l, (renderSamples sampleRate buf bufLen bufDesc).Run (fun _ _ => True) acts s ∧
      s.place = .loop l ∧ (accepted s.pushes).length = m := by
  induction m with
  | zero =>
    have hstep : ∃ t, (renderSamples sampleRate buf bufLen bufDesc).step
        (renderSamples sampleRate buf bufLen bufDesc).init (.enter 0) = some t ∧
        t.place = .loop (.enter n bufDesc) ∧ t.pushes = [] := by
      have hp := (changeRate_logs (renderSamples sampleRate buf bufLen bufDesc).init bufDesc 0).1
      simp only [renderSamples,step,h16.numSamples,h16.bits,ne_eq,not_true,if_false]
      exact ⟨_,rfl,rfl,hp⟩
    obtain ⟨t,ht,hplace,hpushes⟩ := hstep
    exact ⟨_,t,_,System.Run.start.next trivial ht,hplace,by simp [hpushes,accepted]⟩
  | succ m ih =>
    obtain ⟨acts,s,l,hr,hplace,hlen⟩ := ih (by omega)
    have hin := (run_stage h16 hr).inStep
    obtain rfl := hin.place l hplace
    have hmore : (loopAt n d (accepted s.pushes).length).more = true := by
      rw [loopAt_more hin.bound]
      omega
    have hstep : (renderSamples sampleRate buf bufLen bufDesc).step s (.turn .running 4) =
        some (s.turn buf (loopAt n d (accepted s.pushes).length) .running 4) := by
      simp only [renderSamples,step,hplace]
    refine ⟨_,_,(loopAt n d (accepted s.pushes).length).next 4,hr.next trivial hstep,?_,?_⟩
    · simp only [State.turn,hmore,if_true,reduceCtorEq,if_false]
    · simp only [State.turn,hmore,if_true,reduceCtorEq,if_false]
      rw [accepted_snoc _ (by simp [Loop.push]),List.length_append,hlen]
      rfl

/-- The fixed stride of four bytes fits no other number of channels than two:
beyond the first frame the words are built from other bytes, in every buffer. -/
theorem frames_aligned_iff (hbits : bufDesc.wBitsPerSample = 16) (hsome : bufDesc.nChannels ≠ 0)
    (hother : bufDesc.nChannels ≠ 2) (sampleRate : UInt32) (buf : Nat → UInt8) :
    (∀ acts s, (renderSamples sampleRate buf bufLen bufDesc).Run (fun _ _ => True) acts s →
      Aligned buf bufLen bufDesc.nChannels.toNat s) ↔
    bufLen.toNat / 2 / bufDesc.nChannels.toNat ≤ 1 := by
  have h16 : Sixteen bufLen bufDesc (bufLen / 2 / bufDesc.nChannels.toUInt32)
      (if bufDesc.nChannels = 1 then 0 else 2) := ⟨hbits,hsome,rfl,rfl⟩
  rw [← frames_channels]
  have hne : bufDesc.nChannels.toNat ≠ 2 := by
    intro he
    exact hother (UInt16.toNat_inj.mp he)
  have hpos : bufDesc.nChannels.toNat ≠ 0 := by
    intro he
    exact hsome (UInt16.toNat_inj.mp he)
  constructor
  · intro hall
    by_contra hmany
    obtain ⟨acts,s,l,hr,_,hlen⟩ := accepts h16 sampleRate buf 2 (by omega)
    have hsecond : (accepted s.pushes)[1]? = some (accepted s.pushes)[1] :=
      List.getElem?_eq_getElem (by omega)
    have hat := ((run_stage h16 hr).inStep).words 1 _ hsecond
    have hptr := ((hall acts s hr).1 1 _ hsecond).1
    rw [hat] at hptr
    simp only [pushAt] at hptr
    omega
  · intro hone acts s hr
    apply (run_stage h16 hr).inStep.aligned hone (by simp only [channels_one])
    rw [frames_channels]
    intro hframe
    have hlen : bufDesc.nChannels.toNat ≤ bufLen.toNat / 2 := by
      by_contra hlt
      rw [Nat.div_eq_of_lt (by omega)] at hframe
      cases hframe
    split_ifs with hmono
    · rw [channels_one] at hmono
      omega
    · rw [channels_one] at hmono
      omega

/-- A mono buffer of two samples: the second word is read behind its end. -/
theorem mono_reads_behind :
    ¬ ∀ acts s, (renderSamples 44100 (fun _ => 0) 4 ⟨1,1,44100,0,0,16,0,0⟩).Run
        (fun _ _ => True) acts s → Aligned (fun _ => 0) 4 1 s := by
  intro hall
  let acts : List Act := [.enter 0,.turn .running 4,.turn .running 4]
  have hrun : ((renderSamples 44100 (fun _ => 0) 4 ⟨1,1,44100,0,0,16,0,0⟩).exec (fun _ _ => True)
      (renderSamples 44100 (fun _ => 0) 4 ⟨1,1,44100,0,0,16,0,0⟩).init acts).map State.reads =
        some [0,1,0,1,4,5,4,5] := by decide +kernel
  obtain ⟨s,hs,hreads⟩ := Option.map_eq_some_iff.mp hrun
  have := (hall acts s (System.run_of_exec hs)).2 5 (by simp [hreads])
  exact absurd this (by decide)

/-- A mono buffer of one sample is rendered and the call returns. -/
theorem frames_aligned_one_sample :
    ∃ acts s, (renderSamples 44100 (fun _ => 0) 2 ⟨1,1,44100,0,0,16,0,0⟩).Run
        (fun _ _ => True) acts s ∧ s.place = .returned ∧ (accepted s.pushes).length = 1 ∧
      Aligned (fun _ => 0) 2 1 s := by
  let acts : List Act := [.enter 0,.turn .running 4,.turn .running 4]
  have hrun : ((renderSamples 44100 (fun _ => 0) 2 ⟨1,1,44100,0,0,16,0,0⟩).exec (fun _ _ => True)
      (renderSamples 44100 (fun _ => 0) 2 ⟨1,1,44100,0,0,16,0,0⟩).init acts).map (fun s =>
        (s.place,(accepted s.pushes).length)) = some (.returned,1) := by decide +kernel
  obtain ⟨s,hs,he⟩ := Option.map_eq_some_iff.mp hrun
  obtain ⟨hplace,hlen⟩ := Prod.mk.inj he
  have hr := System.run_of_exec hs
  have haligned : Aligned (fun _ => 0) 2 1 s :=
    (frames_aligned_iff rfl (by decide) (by decide) 44100 (fun _ => 0)).mpr (by decide) acts s hr
  exact ⟨acts,s,hr,hplace,hlen,haligned⟩

end Run

end WifiSpeaker.Proofs.RenderWords
