import WifiSpeaker.PrcessCharacter

namespace WifiSpeaker.Proofs.Framing
open Common Wire PrcessCharacter
open RenderSamples (bufBytesPerSample numSamples)
open WifiSpeaker.I2sClock (i2sSetClk)

/-- A complete frame of an arbitrary byte stream: its length word says how many
bytes the read after it takes, which is none for a word past `INT_MAX`. -/
inductive Frame
  | other (command : UInt32)
      (neither : command ≠ TcpCommand.sendHeader.code ∧ command ≠ TcpCommand.sendData.code)
  | header (length : UInt32) (body : List UInt8) (fits : body.length = (signed length).toNat)
  | data (length : UInt32) (body : List UInt8) (fits : body.length = (signed length).toNat)

def Frame.encode : Frame → List UInt8
  | .other command _ => le32 command
  | .header length body _ => le32 TcpCommand.sendHeader.code ++ (le32 length ++ body)
  | .data length body _ => le32 TcpCommand.sendData.code ++ (le32 length ++ body)

def frames (fs : List Frame) : List UInt8 := fs.flatMap Frame.encode

/-- The boundary of a frame is where its own bytes say. -/
theorem encode_append_inj {f g : Frame} (h : f.encode ++ xs = g.encode ++ ys) :
    f = g ∧ xs = ys := by
  cases f with
  | other c hc =>
    cases g with
    | other d hd =>
      obtain ⟨rfl,he⟩ := le32_append_inj h
      exact ⟨rfl,he⟩
    | header n body fits =>
      simp only [Frame.encode,List.append_assoc] at h
      exact absurd (le32_append_inj h).1 hc.1
    | data n body fits =>
      simp only [Frame.encode,List.append_assoc] at h
      exact absurd (le32_append_inj h).1 hc.2
  | header n body fits =>
    cases g with
    | other d hd =>
      simp only [Frame.encode,List.append_assoc] at h
      exact absurd (le32_append_inj h).1.symm hd.1
    | header n' body' fits' =>
      simp only [Frame.encode,List.append_assoc] at h
      obtain ⟨rfl,hb⟩ := le32_append_inj (le32_append_inj h).2
      obtain ⟨rfl,he⟩ := List.append_inj hb (fits.trans fits'.symm)
      exact ⟨rfl,he⟩
    | data n' body' fits' =>
      simp only [Frame.encode,List.append_assoc] at h
      exact absurd (le32_append_inj h).1 (by decide)
  | data n body fits =>
    cases g with
    | other d hd =>
      simp only [Frame.encode,List.append_assoc] at h
      exact absurd (le32_append_inj h).1.symm hd.2
    | header n' body' fits' =>
      simp only [Frame.encode,List.append_assoc] at h
      exact absurd (le32_append_inj h).1 (by decide)
    | data n' body' fits' =>
      simp only [Frame.encode,List.append_assoc] at h
      obtain ⟨rfl,hb⟩ := le32_append_inj (le32_append_inj h).2
      obtain ⟨rfl,he⟩ := List.append_inj hb (fits.trans fits'.symm)
      exact ⟨rfl,he⟩

/-- Frames that begin a stream of frames are the first of them. -/
theorem frames_prefix (h : frames fs ++ rest = frames gs) : fs <+: gs := by
  induction fs generalizing gs with
  | nil => exact List.nil_prefix
  | cons f fs ih =>
    cases gs with
    | nil =>
      have := congrArg List.length h
      cases f <;> simp [frames,Frame.encode] at this
    | cons g gs =>
      simp only [frames,List.flatMap_cons,List.append_assoc] at h
      obtain ⟨rfl,hrest⟩ := encode_append_inj h
      exact List.cons_prefix_cons.mpr ⟨rfl,ih hrest⟩

/-- The word pair a frame opens with, if it has a length. -/
def Frame.opening : Frame → Option (UInt32 × UInt32)
  | .other _ _ => none
  | .header length _ _ => some (TcpCommand.sendHeader.code,length)
  | .data length _ _ => some (TcpCommand.sendData.code,length)

/-- In a stream of complete frames a command with a length, found behind
complete frames, is the opening of one of them. -/
theorem opening_mem (h : frames fs ++ (le32 c ++ (le32 n ++ rest)) = frames gs)
    (hc : c = TcpCommand.sendHeader.code ∨ c = TcpCommand.sendData.code) :
    ∃ g ∈ gs, g.opening = some (c,n) := by
  induction fs generalizing gs with
  | nil =>
    cases gs with
    | nil =>
      have := congrArg List.length h
      simp [frames] at this
    | cons g gs =>
      refine ⟨g,List.mem_cons_self,?_⟩
      cases g with
      | other d hd =>
        simp only [frames,List.flatMap_nil,List.nil_append,List.flatMap_cons,Frame.encode] at h
        obtain ⟨rfl,_⟩ := le32_append_inj h
        rcases hc with rfl | rfl
        · exact absurd rfl hd.1
        · exact absurd rfl hd.2
      | header m body fits =>
        simp only [frames,List.flatMap_nil,List.nil_append,List.flatMap_cons,Frame.encode,
          List.append_assoc] at h
        obtain ⟨rfl,hl⟩ := le32_append_inj h
        obtain ⟨rfl,_⟩ := le32_append_inj hl
        rfl
      | data m body fits =>
        simp only [frames,List.flatMap_nil,List.nil_append,List.flatMap_cons,Frame.encode,
          List.append_assoc] at h
        obtain ⟨rfl,hl⟩ := le32_append_inj h
        obtain ⟨rfl,_⟩ := le32_append_inj hl
        rfl
  | cons f fs ih =>
    cases gs with
    | nil =>
      have := congrArg List.length h
      simp [frames] at this
    | cons g gs =>
      simp only [frames,List.flatMap_cons,List.append_assoc] at h
      obtain ⟨g',hm,ho⟩ := ih (encode_append_inj h).2
      exact ⟨g',List.mem_cons_of_mem _ hm,ho⟩

/-- The global `wfx` after a frame. -/
def Frame.format (wfx : WaveFormatEx) : Frame → WaveFormatEx
  | .header _ body _ => WaveFormatEx.ofBytes (wfx.object.write body).bytes
  | _ => wfx

def formatAfter (wfx : WaveFormatEx) (fs : List Frame) : WaveFormatEx := fs.foldl Frame.format wfx

/-- Lines logged when a length arrives. -/
def headerLengthLogs (v : Int) (n : UInt32) : List Event :=
  logIf (v ≠ 4) .getLengthHeaderError ++
    logIf (n ≠ UInt32.ofNat sizeofWaveFormatEx) .headerDataError

def dataLengthLogs (v : Int) (n : UInt32) : List Event :=
  logIf (v ≠ 4) (.getLengthDataError v) ++ logIf (v > 4096) (.dataLengthVeryLarge v) ++
    logIf (n < 0) (.dataLengthBelowZero n)

/-- Everything the return of one read can lead to. -/
inductive Move (r : Receiver) (v : Int) : Receiver → Prop
  | other (spot : r.task.place = .command) (arrived : r.input = le32 c ++ rest)
      (neither : c ≠ TcpCommand.sendHeader.code ∧ c ≠ TcpCommand.sendData.code) :
      Move r v ⟨{ r.task with tcpCommand := c, place := .command },r.wfx,rest,
        r.trace ++ [.read .tcpCommand 4]⟩
  | openHeader (spot : r.task.place = .command)
      (arrived : r.input = le32 TcpCommand.sendHeader.code ++ rest) :
      Move r v ⟨{ r.task with tcpCommand := TcpCommand.sendHeader.code, place := .headerLength },
        r.wfx,rest,r.trace ++ [.read .lengthData 4]⟩
  | openData (spot : r.task.place = .command)
      (arrived : r.input = le32 TcpCommand.sendData.code ++ rest) :
      Move r v ⟨{ r.task with tcpCommand := TcpCommand.sendData.code, place := .dataLength },
        r.wfx,rest,r.trace ++ [.read .lengthData 4]⟩
  | headerLength (spot : r.task.place = .headerLength) (arrived : r.input = le32 n ++ rest) :
      Move r v ⟨{ r.task with lengthData := n, place := .header },r.wfx,rest,
        r.trace ++ (headerLengthLogs v n ++ [.read .wfx (signed n)])⟩
  | dataLength (spot : r.task.place = .dataLength) (arrived : r.input = le32 n ++ rest) :
      Move r v ⟨{ r.task with lengthData := n, place := .data },r.wfx,rest,
        r.trace ++ (dataLengthLogs v n ++ [.read .buffer (signed n)])⟩
  | header (spot : r.task.place = .header) (arrived : r.input = body ++ rest)
      (fits : body.length = (signed r.task.lengthData).toNat) :
      Move r v ⟨{ r.task with place := .command },
        WaveFormatEx.ofBytes (r.wfx.object.write body).bytes,rest,
        r.trace ++ (logIf (unequal v r.task.lengthData) .getHeaderError ++
          [.read .tcpCommand 4])⟩
  | data (spot : r.task.place = .data) (arrived : r.input = body ++ rest)
      (fits : body.length = (signed r.task.lengthData).toNat) :
      Move r v ⟨{ r.task with buffer := r.task.buffer.write body, place := .command },r.wfx,rest,
        r.trace ++ (logIf (unequal v r.task.lengthData)
            (.getDataError v (signed r.task.lengthData)) ++
          [.render ⟨r.task.buffer.write body,r.task.lengthData,r.wfx,body.length⟩] ++
          [.read .tcpCommand 4])⟩

/-- A word's worth of input is the encoding of some word. -/
theorem exists_word (h : 4 ≤ input.length) :
    ∃ w rest, input = le32 w ++ rest ∧ input.take 4 = le32 w ∧ input.drop 4 = rest := by
  have hl : (input.take 4).length = 4 := by
    rw [List.length_take]
    omega
  refine ⟨dword (input.take 4),input.drop 4,?_,?_,rfl⟩
  · rw [le32_dword hl,List.take_append_drop]
  · rw [le32_dword hl]

theorem step_move (h : Receiver.step r v = some r') : Move r v r' := by
  simp only [Receiver.step,Option.ite_none_left_eq_some,Nat.not_lt,Option.some.injEq] at h
  obtain ⟨henough,rfl⟩ := h
  cases hp : r.task.place with
  | command =>
    simp only [Task.wants,Task.request,hp] at henough
    obtain ⟨c,rest,ha,ht,hd⟩ := exists_word henough
    simp only [Task.wants,Task.request,Task.resume,hp]
    change Move r v ⟨_,_,r.input.drop 4,_⟩
    rw [hd,show (4 : Int).toNat = 4 from rfl,ht,dword_le32]
    split_ifs with h1 h2
    · subst c
      exact .openHeader hp ha
    · subst c
      exact .openData hp ha
    · exact .other hp ha ⟨h1,h2⟩
  | headerLength =>
    simp only [Task.wants,Task.request,hp] at henough
    obtain ⟨n,rest,ha,ht,hd⟩ := exists_word henough
    simp only [Task.wants,Task.request,Task.resume,hp]
    change Move r v ⟨_,_,r.input.drop 4,_⟩
    rw [hd,show (4 : Int).toNat = 4 from rfl,ht,dword_le32]
    exact .headerLength hp ha
  | dataLength =>
    simp only [Task.wants,Task.request,hp] at henough
    obtain ⟨n,rest,ha,ht,hd⟩ := exists_word henough
    simp only [Task.wants,Task.request,Task.resume,hp]
    change Move r v ⟨_,_,r.input.drop 4,_⟩
    rw [hd,show (4 : Int).toNat = 4 from rfl,ht,dword_le32]
    exact .dataLength hp ha
  | header =>
    simp only [Task.wants,Task.request,hp] at henough
    simp only [Task.wants,Task.request,Task.resume,hp]
    refine .header hp (List.take_append_drop _ _).symm ?_
    rw [List.length_take]
    omega
  | data =>
    simp only [Task.wants,Task.request,hp] at henough
    simp only [Task.wants,Task.request,Task.resume,hp]
    refine .data hp (List.take_append_drop _ _).symm ?_
    rw [List.length_take]
    omega

/-- A read whose bytes are there returns them and leaves the rest. -/
theorem step_of_arrived (ha : r.input = got ++ rest) (hl : got.length = r.task.wants) :
    Receiver.step r v = some
      ⟨(r.task.resume r.wfx v got).1,(r.task.resume r.wfx v got).2.1,rest,
        r.trace ++ ((r.task.resume r.wfx v got).2.2 ++
          [.read (r.task.resume r.wfx v got).1.request.1
            (r.task.resume r.wfx v got).1.request.2])⟩ := by
  have hn : ¬ r.input.length < r.task.wants := by
    rw [ha,List.length_append,hl]
    omega
  have ht : r.input.take r.task.wants = got := by rw [ha,← hl,List.take_left]
  have hd : r.input.drop r.task.wants = rest := by rw [ha,← hl,List.drop_left]
  simp only [Receiver.step,if_neg hn,ht,hd]

theorem move_step (h : Move r v r') : Receiver.step r v = some r' := by
  cases h with
  | other spot arrived neither =>
    rw [step_of_arrived arrived (by simp [Task.wants,Task.request,spot])]
    simp [Task.resume,Task.request,spot,neither.1,neither.2]
  | openHeader spot arrived =>
    rw [step_of_arrived arrived (by simp [Task.wants,Task.request,spot])]
    simp [Task.resume,Task.request,spot]
  | openData spot arrived =>
    rw [step_of_arrived arrived (by simp [Task.wants,Task.request,spot])]
    have hne : ¬ TcpCommand.sendData.code = TcpCommand.sendHeader.code := by decide
    simp [Task.resume,Task.request,spot,hne]
  | headerLength spot arrived =>
    rw [step_of_arrived arrived (by simp [Task.wants,Task.request,spot])]
    simp [Task.resume,Task.request,spot,headerLengthLogs]
  | dataLength spot arrived =>
    rw [step_of_arrived arrived (by simp [Task.wants,Task.request,spot])]
    simp [Task.resume,Task.request,spot,dataLengthLogs]
  | header spot arrived fits =>
    rw [step_of_arrived arrived (by simpa [Task.wants,Task.request,spot] using fits)]
    simp [Task.resume,Task.request,spot]
  | data spot arrived fits =>
    rw [step_of_arrived arrived (by simpa [Task.wants,Task.request,spot] using fits)]
    simp [Task.resume,Task.request,spot]

/-- The bytes of the frame in progress that are already read. -/
def opened (t : Task) : List UInt8 :=
  match t.place with
  | .command => []
  | .headerLength => le32 TcpCommand.sendHeader.code
  | .header => le32 TcpCommand.sendHeader.code ++ le32 t.lengthData
  | .dataLength => le32 TcpCommand.sendData.code
  | .data => le32 TcpCommand.sendData.code ++ le32 t.lengthData

/-- Where a receiver is in its stream: past some complete frames and part of
one more, with the format those frames leave. -/
def Position (input : List UInt8) (wfx : WaveFormatEx) (fs : List Frame) (r : Receiver) : Prop :=
  input = frames fs ++ (opened r.task ++ r.input) ∧ r.wfx = formatAfter wfx fs

theorem frames_snoc (fs : List Frame) (f : Frame) : frames (fs ++ [f]) = frames fs ++ f.encode := by
  simp [frames]

theorem formatAfter_snoc (wfx : WaveFormatEx) (fs : List Frame) (f : Frame) :
    formatAfter wfx (fs ++ [f]) = f.format (formatAfter wfx fs) := by
  simp [formatAfter]

/-- A call of `render_samples` as seen from outside: the bytes the read before
it put into the buffer, how many it delivered, the length passed and the format. -/
structure Heard where
  payload : List UInt8
  filled : Nat
  length : UInt32
  format : WaveFormatEx
  deriving DecidableEq, Repr

def heard (call : RenderCall) : Heard :=
  ⟨call.buf.bytes.take call.filled,call.filled,call.bufLen,call.bufDesc⟩

/-- The calls a frame leads to. -/
def Frame.heard (wfx : WaveFormatEx) : Frame → List Heard
  | .data length body _ => [⟨body.take sizeofBuffer,body.length,length,wfx⟩]
  | _ => []

def heardAfter : WaveFormatEx → List Frame → List Heard
  | _, [] => []
  | wfx, f :: fs => f.heard wfx ++ heardAfter (f.format wfx) fs

theorem heardAfter_append (wfx : WaveFormatEx) (fs gs : List Frame) :
    heardAfter wfx (fs ++ gs) = heardAfter wfx fs ++ heardAfter (formatAfter wfx fs) gs := by
  induction fs generalizing wfx with
  | nil => rfl
  | cons f fs ih => simp [heardAfter,formatAfter,ih]

theorem heardAfter_snoc (wfx : WaveFormatEx) (fs : List Frame) (f : Frame) :
    heardAfter wfx (fs ++ [f]) = heardAfter wfx fs ++ f.heard (formatAfter wfx fs) := by
  rw [heardAfter_append,heardAfter,heardAfter,List.append_nil]

theorem heardAfter_dropLast (hk : k ∈ heardAfter wfx fs.dropLast) : k ∈ heardAfter wfx fs := by
  rcases List.eq_nil_or_concat fs with rfl | ⟨gs,f,rfl⟩
  · exact hk
  · rw [List.concat_eq_append,List.dropLast_concat] at hk
    rw [List.concat_eq_append,heardAfter_snoc]
    exact List.mem_append_left _ hk

/-- The number of reads a frame takes. -/
def Frame.reads : Frame → Nat
  | .other _ _ => 1
  | _ => 3

def readsOf (fs : List Frame) : Nat := (fs.map Frame.reads).sum

@[simp] theorem rendersOf_append (es es' : List Event) :
    rendersOf (es ++ es') = rendersOf es ++ rendersOf es' :=
  List.filterMap_append

@[simp] theorem rendersOf_read (dest : Dest) (size : Int) : rendersOf [.read dest size] = [] := rfl

@[simp] theorem rendersOf_render (call : RenderCall) : rendersOf [.render call] = [call] := rfl

@[simp] theorem rendersOf_logIf (c : Prop) [Decidable c] (line : Log) :
    rendersOf (logIf c line) = [] := by
  unfold logIf
  split <;> rfl

/-- Where a step leaves the task: inside the frame it was in, or behind it, with the
calls of that frame made. -/
inductive Passes (input : List UInt8) (wfx : WaveFormatEx) (fs : List Frame) (r r' : Receiver) : Prop
  | inside (position : Position input wfx fs r') (spot : r'.task.place ≠ .command)
      (renders : r'.renders = r.renders)
  | behind (f : Frame) (calls : List RenderCall) (position : Position input wfx (fs ++ [f]) r')
      (spot : r'.task.place = .command) (renders : r'.renders = r.renders ++ calls)
      (made : calls.map heard = f.heard r.wfx)

/-- Every step goes on inside the frame or completes it. -/
theorem step_passes (h : Position input wfx fs r) (hs : Receiver.step r v = some r') :
    Passes input wfx fs r r' := by
  obtain ⟨hi,hw⟩ := h
  cases step_move hs with
  | @other c rest spot arrived neither =>
    refine .behind (.other c neither) [] ⟨?_,?_⟩ rfl (by simp [Receiver.renders]) rfl
    · rw [frames_snoc,hi,arrived]
      simp [opened,spot,Frame.encode]
    · simpa [formatAfter_snoc,Frame.format] using hw
  | openHeader spot arrived =>
    refine .inside ⟨?_,hw⟩ nofun (by simp [Receiver.renders])
    rw [hi,arrived]
    simp [opened,spot]
  | openData spot arrived =>
    refine .inside ⟨?_,hw⟩ nofun (by simp [Receiver.renders])
    rw [hi,arrived]
    simp [opened,spot]
  | headerLength spot arrived =>
    refine .inside ⟨?_,hw⟩ nofun (by simp [Receiver.renders,headerLengthLogs])
    rw [hi,arrived]
    simp [opened,spot]
  | dataLength spot arrived =>
    refine .inside ⟨?_,hw⟩ nofun (by simp [Receiver.renders,dataLengthLogs])
    rw [hi,arrived]
    simp [opened,spot]
  | @header body rest spot arrived fits =>
    refine .behind (.header r.task.lengthData body fits) [] ⟨?_,?_⟩ rfl
      (by simp [Receiver.renders]) rfl
    · rw [frames_snoc,hi,arrived]
      simp [opened,spot,Frame.encode]
    · rw [formatAfter_snoc,← hw]
      rfl
  | @data body rest spot arrived fits =>
    refine .behind (.data r.task.lengthData body fits)
      [⟨r.task.buffer.write body,r.task.lengthData,r.wfx,body.length⟩] ⟨?_,?_⟩ rfl ?_ ?_
    · rw [frames_snoc,hi,arrived]
      simp [opened,spot,Frame.encode]
    · simpa [formatAfter_snoc,Frame.format] using hw
    · simp only [Receiver.renders,rendersOf_append,rendersOf_logIf,rendersOf_render,
        rendersOf_read,List.nil_append,List.append_nil]
    · simp only [Frame.heard,List.map_singleton,heard,Object.take_write]

/-- A format over which `render_samples` does not come back. -/
def Traps (wfx : WaveFormatEx) : Prop :=
  i2sSetClk .dacBuiltIn wfx.nSamplesPerSec 16 = .trapped ∨ bufBytesPerSample wfx = 0 ∨
    wfx.nChannels = 0

instance (wfx : WaveFormatEx) : Decidable (Traps wfx) := inferInstanceAs (Decidable (_ ∨ _))

/-- No rate that a call came back with traps, and neither does the first one. -/
theorem remembered_set {calls : List RenderCall} (h : ∀ call ∈ calls, ¬ Traps call.bufDesc) :
    i2sSetClk .dacBuiltIn (rememberedRate calls) 16 ≠ .trapped := by
  rcases List.eq_nil_or_concat calls with rfl | ⟨before,call,rfl⟩
  · decide
  · have hlast := h call (by simp)
    simp only [Traps,not_or] at hlast
    simpa [rememberedRate] using hlast.1

/-- So it is the format alone that decides. -/
theorem traps_iff (h : i2sSetClk .dacBuiltIn remembered 16 ≠ .trapped) (call : RenderCall) :
    call.traps remembered = true ↔ Traps call.bufDesc := by
  have hnone : (numSamples call.bufLen call.bufDesc).isNone = true ↔
      bufBytesPerSample call.bufDesc = 0 ∨ call.bufDesc.nChannels = 0 := by
    unfold numSamples
    split_ifs with hz <;> simp [hz]
  simp only [RenderCall.traps,Traps,Bool.or_eq_true,hnone,Bool.and_eq_true,decide_eq_true_eq]
  constructor
  · rintro (⟨-,hclk⟩ | hdiv)
    · exact .inl hclk
    · exact .inr hdiv
  · rintro (hclk | hdiv)
    · refine .inl ⟨?_,hclk⟩
      intro he
      exact h (he ▸ hclk)
    · exact .inr hdiv

theorem trapped_snoc {r : Receiver} {calls : List RenderCall} (hr : r.renders = calls ++ [call])
    (h : ∀ call ∈ calls, ¬ Traps call.bufDesc) : r.trapped = true ↔ Traps call.bufDesc := by
  simp only [Receiver.trapped,hr,List.reverse_append,List.reverse_singleton,
    List.singleton_append,List.reverse_reverse]
  exact traps_iff (remembered_set h) call

/-- All calls have come back. -/
def Returned (r : Receiver) : Prop := ∀ call ∈ r.renders, ¬ Traps call.bufDesc

theorem Returned.not_trapped (h : Returned r) : r.trapped = false := by
  rcases List.eq_nil_or_concat r.renders with hnil | ⟨before,call,hsnoc⟩
  · simp [Receiver.trapped,hnil]
  · rw [List.concat_eq_append] at hsnoc
    have hbefore : ∀ call ∈ before, ¬ Traps call.bufDesc := by
      intro c hc
      exact h c (by rw [hsnoc]; exact List.mem_append_left _ hc)
    rw [← Bool.not_eq_true,trapped_snoc hsnoc hbefore]
    exact h call (by simp [hsnoc])

theorem settled_of {r : Receiver} (h : r.trapped = false) : r.settled = r := by
  simp [Receiver.settled,h]

@[simp] theorem settled_task (r : Receiver) : r.settled.task = r.task := by
  unfold Receiver.settled
  split <;> rfl

@[simp] theorem settled_wfx (r : Receiver) : r.settled.wfx = r.wfx := by
  unfold Receiver.settled
  split <;> rfl

@[simp] theorem settled_input (r : Receiver) : r.settled.input = r.input := by
  unfold Receiver.settled
  split <;> rfl

/-- A step ends with the next read asked for. -/
theorem step_asks (h : Receiver.step r v = some r') :
    ∃ es dest size, r'.trace = es ++ [.read dest size] := by
  simp only [Receiver.step,Option.ite_none_left_eq_some,Option.some.injEq] at h
  obtain ⟨-,rfl⟩ := h
  exact ⟨_,_,_,(List.append_assoc _ _ _).symm⟩

theorem settled_renders (h : Receiver.step r v = some r') : r'.settled.renders = r'.renders := by
  obtain ⟨es,dest,size,ht⟩ := step_asks h
  unfold Receiver.settled
  split
  · simp [Receiver.renders,Receiver.inCall,ht]
  · rfl

theorem settled_trace (h : Receiver.step r v = some r') : r'.settled.trace <+: r'.trace := by
  obtain ⟨es,dest,size,ht⟩ := step_asks h
  unfold Receiver.settled
  split
  · simp [Receiver.inCall,ht]
  · exact List.prefix_refl _

/-- Only the read behind a call that does not come back is missing. -/
theorem render_settled (h : Receiver.step r v = some r') (hc : .render call ∈ r'.trace) :
    .render call ∈ r'.settled.trace := by
  obtain ⟨es,dest,size,ht⟩ := step_asks h
  unfold Receiver.settled
  split
  · simp only [Receiver.inCall,ht,List.dropLast_concat]
    rw [ht] at hc
    simpa using hc
  · exact hc

theorem next_some (h : Receiver.next r v = some t) :
    r.trapped = false ∧ ∃ r', Receiver.step r v = some r' ∧ t = r'.settled := by
  simp only [Receiver.next,Option.ite_none_left_eq_some,Bool.not_eq_true] at h
  obtain ⟨hn,h⟩ := h
  obtain ⟨r',hr',rfl⟩ := Option.map_eq_some_iff.mp h
  exact ⟨hn,r',hr',rfl⟩

/-- None of the calls over some frames traps. -/
def Returns (wfx : WaveFormatEx) (fs : List Frame) : Prop :=
  ∀ h ∈ heardAfter wfx fs, ¬ Traps h.format

/-- Where a run is: behind some complete frames, their calls made and all of them
back, except that the last may be under way for good. -/
structure Arrived (input : List UInt8) (wfx : WaveFormatEx) (fs : List Frame) (r : Receiver) :
    Prop where
  position : Position input wfx fs r
  renders : r.renders.map heard = heardAfter wfx fs
  returns : Returns wfx fs.dropLast
  inside : r.task.place ≠ .command → Returns wfx fs

theorem Frame.heard_cases (f : Frame) (wfx : WaveFormatEx) :
    f.heard wfx = [] ∨ ∃ h, f.heard wfx = [h] ∧ h.format = wfx := by
  cases f with
  | other | header => exact .inl rfl
  | data => exact .inr ⟨_,rfl,rfl⟩

/-- A call and what is heard of it have one format. -/
theorem returned_iff (h : r.renders.map heard = heardAfter wfx fs) :
    Returned r ↔ Returns wfx fs := by
  unfold Returned Returns
  rw [← h]
  simp [heard]

/-- A task that is not stuck has all its calls behind it. -/
theorem Arrived.returned (h : Arrived input wfx fs r) (hn : r.trapped = false) :
    Returns wfx fs := by
  rcases List.eq_nil_or_concat fs with rfl | ⟨gs,f,rfl⟩
  · exact h.returns
  · have hcalls := h.renders
    have hgs := h.returns
    rw [List.concat_eq_append] at hcalls hgs ⊢
    rw [List.dropLast_concat] at hgs
    rw [heardAfter_snoc] at hcalls
    rcases f.heard_cases (formatAfter wfx gs) with hf | ⟨k,hf,-⟩
    · intro k hk
      rw [heardAfter_snoc,hf,List.append_nil] at hk
      exact hgs k hk
    · rw [hf] at hcalls
      obtain ⟨calls,last,hr,hfront,hlast⟩ := List.map_eq_append_iff.mp hcalls
      obtain ⟨call,rfl,hcall⟩ := List.map_eq_singleton_iff.mp hlast
      have hback : ∀ call ∈ calls, ¬ Traps call.bufDesc := by
        intro c hc
        exact hgs (heard c) (hfront ▸ List.mem_map_of_mem hc)
      intro k' hk
      rw [heardAfter_snoc,hf] at hk
      rcases List.mem_append.mp hk with hk | hk
      · exact hgs k' hk
      · rw [List.mem_singleton.mp hk,← hcall]
        intro htraps
        rw [(trapped_snoc hr hback).mpr htraps] at hn
        cases hn

theorem next_arrived (h : Arrived input wfx fs r) (ht : Receiver.next r v = some t) :
    ∃ more, Arrived input wfx (fs ++ more) t := by
  obtain ⟨hn,r',hr',rfl⟩ := next_some ht
  have hback := h.returned hn
  cases step_passes h.position hr' with
  | inside position spot renders =>
    refine ⟨[],?_⟩
    rw [List.append_nil]
    constructor
    · simpa [Position] using position
    · rw [settled_renders hr',renders]
      exact h.renders
    · exact h.returns
    · exact fun _ => hback
  | behind f calls position spot renders made =>
    refine ⟨[f],?_⟩
    constructor
    · simpa [Position] using position
    · rw [settled_renders hr',renders,List.map_append,h.renders,made,heardAfter_snoc,h.position.2]
    · rwa [List.dropLast_concat]
    · intro hp
      rw [settled_task] at hp
      exact absurd spot hp

theorem Returned.of_renders (h : Returned r) (hr : r'.renders = r.renders) : Returned r' := by
  unfold Returned
  rwa [hr]

theorem next_of_move (hb : Returned r) (h : Move r v r') :
    Receiver.next r v = some r'.settled := by
  simp [Receiver.next,hb.not_trapped,move_step h]

/-- A step without a call leaves the task as free as it was. -/
theorem next_inside (hb : Returned r) (h : Move r v r') (hr : r'.renders = r.renders) :
    Receiver.next r v = some r' ∧ Returned r' := by
  have hb' := hb.of_renders hr
  refine ⟨?_,hb'⟩
  rw [next_of_move hb h,settled_of hb'.not_trapped]

theorem exec_next (M : System Receiver Int) (hM : M.step = Receiver.next)
    (h : Receiver.next r v = some r') (vs : List Int) :
    M.exec (fun _ _ => True) r (v :: vs) = M.exec (fun _ _ => True) r' vs := by
  simp [System.exec,hM,h]

/-- The loop reads one complete frame, whatever its reads return, and has made the
call of it. -/
theorem frame_run (M : System Receiver Int) (hM : M.step = Receiver.next) (f : Frame)
    (vs : List Int) (hb : Returned r) (spot : r.task.place = .command)
    (arrived : r.input = f.encode ++ rest) (hv : vs.length = f.reads) :
    ∃ r', M.exec (fun _ _ => True) r vs = some r' ∧ r'.task.place = .command ∧ r'.input = rest ∧
      r'.wfx = f.format r.wfx ∧
      r'.renders.map heard = r.renders.map heard ++ f.heard r.wfx := by
  cases f with
  | other c neither =>
    obtain ⟨v,rfl⟩ := List.length_eq_one_iff.mp hv
    obtain ⟨h,-⟩ := next_inside (v := v) hb (.other spot arrived neither) (by
      simp [Receiver.renders])
    refine ⟨_,exec_next M hM h [],rfl,rfl,rfl,?_⟩
    simp [Receiver.renders,Frame.heard]
  | header n body fits =>
    obtain ⟨u,v,w,rfl⟩ := List.length_eq_three.mp hv
    simp only [Frame.encode,List.append_assoc] at arrived
    obtain ⟨h₁,hb₁⟩ := next_inside (v := u) hb (.openHeader spot arrived) (by
      simp [Receiver.renders])
    obtain ⟨h₂,hb₂⟩ := next_inside (v := v) hb₁ (.headerLength rfl rfl) (by
      simp only [Receiver.renders,headerLengthLogs,rendersOf_append,rendersOf_read,
        rendersOf_logIf,List.append_nil])
    obtain ⟨h₃,-⟩ := next_inside (v := w) hb₂ (.header rfl rfl fits) (by
      simp only [Receiver.renders,rendersOf_append,rendersOf_read,rendersOf_logIf,List.append_nil])
    refine ⟨_,(exec_next M hM h₁ _).trans ((exec_next M hM h₂ _).trans (exec_next M hM h₃ [])),
      rfl,rfl,rfl,?_⟩
    simp only [Receiver.renders,headerLengthLogs,rendersOf_append,rendersOf_read,rendersOf_logIf,
      List.append_nil,Frame.heard]
  | data n body fits =>
    obtain ⟨u,v,w,rfl⟩ := List.length_eq_three.mp hv
    simp only [Frame.encode,List.append_assoc] at arrived
    obtain ⟨h₁,hb₁⟩ := next_inside (v := u) hb (.openData spot arrived) (by
      simp [Receiver.renders])
    obtain ⟨h₂,hb₂⟩ := next_inside (v := v) hb₁ (.dataLength rfl rfl) (by
      simp only [Receiver.renders,dataLengthLogs,rendersOf_append,rendersOf_read,
        rendersOf_logIf,List.append_nil])
    have h₃ := next_of_move (v := w) hb₂ (.data rfl rfl fits)
    refine ⟨_,(exec_next M hM h₁ _).trans ((exec_next M hM h₂ _).trans (exec_next M hM h₃ [])),
      ?_,?_,?_,?_⟩
    · rw [settled_task]
    · rw [settled_input]
    · rw [settled_wfx]
      rfl
    · rw [settled_renders (move_step (.data rfl rfl fits))]
      simp only [Receiver.renders,dataLengthLogs,rendersOf_append,rendersOf_read,rendersOf_logIf,
        rendersOf_render,List.append_nil,List.nil_append,List.map_append,List.map_cons,
        List.map_nil,heard,Object.take_write,Frame.heard]

/-- The loop over a run of complete frames, as long as the calls before the last
frame come back. -/
theorem frames_run (M : System Receiver Int) (hM : M.step = Receiver.next) (fs : List Frame)
    (vs : List Int) (hb : Returned r) (hret : Returns r.wfx fs.dropLast)
    (spot : r.task.place = .command) (arrived : r.input = frames fs ++ rest)
    (hv : vs.length = readsOf fs) :
    ∃ r', M.exec (fun _ _ => True) r vs = some r' ∧ r'.task.place = .command ∧ r'.input = rest ∧
      r'.wfx = formatAfter r.wfx fs ∧
      r'.renders.map heard = r.renders.map heard ++ heardAfter r.wfx fs := by
  induction fs generalizing r vs with
  | nil =>
    have : vs = [] := List.eq_nil_of_length_eq_zero hv
    subst vs
    exact ⟨r,rfl,spot,arrived,rfl,by simp [heardAfter]⟩
  | cons f fs ih =>
    simp only [readsOf,List.map_cons,List.sum_cons] at hv
    have harr : r.input = f.encode ++ (frames fs ++ rest) := by
      rw [arrived]
      simp [frames]
    obtain ⟨r',he,hp,hi,hw,hr⟩ := frame_run M hM f (vs.take f.reads) hb spot harr (by
      rw [List.length_take]
      omega)
    cases fs with
    | nil =>
      have hall : vs.take f.reads = vs := List.take_of_length_le (by simp at hv; omega)
      rw [hall] at he
      exact ⟨r',he,hp,by simpa [frames] using hi,hw,by simp [hr,heardAfter]⟩
    | cons g gs =>
      rw [List.dropLast_cons_cons] at hret
      have hb' : Returned r' := by
        intro call hc
        have hm := List.mem_map_of_mem (f := heard) hc
        rw [hr] at hm
        rcases List.mem_append.mp hm with hm | hm
        · obtain ⟨call',hc',he'⟩ := List.mem_map.mp hm
          have hformat : call'.bufDesc = call.bufDesc := congrArg Heard.format he'
          exact hformat ▸ hb call' hc'
        · exact hret (heard call) (List.mem_append_left _ hm)
      obtain ⟨r'',he',hp',hi',hw',hr'⟩ := ih (vs.drop f.reads) hb' (by
        intro k hk
        rw [hw] at hk
        exact hret k (List.mem_append_right _ hk)) hp hi (by
        rw [List.length_drop,readsOf]
        omega)
      refine ⟨r'',?_,hp',hi',?_,?_⟩
      · rw [← List.take_append_drop f.reads vs,System.exec_append he,he']
      · rw [hw',hw]
        rfl
      · rw [hr',hr,hw,List.append_assoc]
        rfl

section Stream
variable {junk : Task} {wfx : WaveFormatEx} {input : List UInt8}

theorem init_position :
    Position input (defaultWfx wfx) [] (receiver junk wfx input).init := by
  constructor
  · simp [receiver,prcessCharacter,opened,frames]
  · rfl

/-- Every state of a run is behind some frames of the stream. -/
theorem reaches_arrived (h : (receiver junk wfx input).Reaches r) :
    ∃ fs, Arrived input (defaultWfx wfx) fs r := by
  apply h.invariant ⟨[],init_position,rfl,nofun,nofun⟩
  rintro r v t ⟨fs,hr⟩ ht
  obtain ⟨more,hmore⟩ := next_arrived hr ht
  exact ⟨fs ++ more,hmore⟩

/-- The loop gets past any complete frames whose calls come back, except perhaps the
last. -/
theorem reaches_frames (junk : Task) (wfx : WaveFormatEx) (fs : List Frame)
    (hret : Returns (defaultWfx wfx) fs.dropLast) (hi : input = frames fs ++ rest) :
    ∃ r, (receiver junk wfx input).Reaches r ∧ r.task.place = .command ∧ r.input = rest ∧
      r.renders.map heard = heardAfter (defaultWfx wfx) fs := by
  obtain ⟨r,he,hp,hin,_,hh⟩ := frames_run (receiver junk wfx input) rfl fs
    (List.replicate (readsOf fs) 0) (r := (receiver junk wfx input).init) nofun hret rfl hi
    List.length_replicate
  exact ⟨r,(System.run_of_exec he).reaches,hp,hin,hh⟩

end Stream

end WifiSpeaker.Proofs.Framing
