import WifiSpeaker.MTSClient
import WifiSpeaker.Proofs.Framing

namespace WifiSpeaker.Proofs.WavSender
open Common Wire PrcessCharacter Clients
open MTSClient hiding State Act Place step

/-- The header message as it goes out. -/
def headerBytes (wfx : WaveFormatEx) : List UInt8 :=
  command .sendHeader ++ (le32 (UInt32.ofNat sizeofWaveFormatEx) ++ wfx.toBytes)

theorem headerMessage_sent (buffer : List UInt8) (wfx : WaveFormatEx) :
    (headerMessage buffer wfx).1.take (headerMessage buffer wfx).2 = headerBytes wfx := by
  have hone := memcpy_three buffer (command .sendHeader)
    (le32 (UInt32.ofNat sizeofWaveFormatEx)) wfx.toBytes
  have hfront := take_memcpy_zero buffer (headerBytes wfx)
  have hlen : (headerBytes wfx).length = sizeofWaveFormatEx + 5 := by
    simp [headerBytes,command,sizeofWaveFormatEx]
  rw [length_le32] at hone
  rw [hlen] at hfront
  exact (congrArg (List.take _) hone).trans hfront

/-- The first thing on the wire is the header message. -/
inductive Opened (wfx : WaveFormatEx) (c : MTSClient.State) : Prop
  | before (format : c.wfx = wfx) (place : c.place = .header) (sent : c.sent = [])
  | behind (format : c.wfx = wfx) (place : c.place ≠ .header)
      (sent : ∃ rest, c.sent = headerBytes wfx :: rest)

theorem Opened.further (h : Opened wfx c) (hc : c.place ≠ .header) (hf : c'.wfx = c.wfx)
    (hp : c'.place ≠ .header) (hs : c'.sent = c.sent ++ messages) : Opened wfx c' := by
  cases h with
  | before _ place _ => exact absurd place hc
  | behind format _ sent =>
    obtain ⟨rest,sent⟩ := sent
    exact .behind (hf.trans format) hp ⟨rest ++ messages,by rw [hs,sent,List.cons_append]⟩

theorem recv_place (c : MTSClient.State) (bytes : List UInt8) :
    (c.recv bytes).place = .read ∨ (c.recv bytes).place = c.place := by
  unfold MTSClient.State.recv
  dsimp only
  split_ifs
  · exact .inl rfl
  · exact .inr rfl

theorem recv_wire (c : MTSClient.State) (bytes : List UInt8) :
    (c.recv bytes).wfx = c.wfx ∧ (c.recv bytes).sent = c.sent := by
  unfold MTSClient.State.recv
  dsimp only
  split_ifs <;> exact ⟨rfl,rfl⟩

theorem step_opened (h : Opened wfx c) (ht : MTSClient.step c a = some c') : Opened wfx c' := by
  cases a with
  | send =>
    simp only [MTSClient.step] at ht
    split at ht
    · rename_i place
      cases ht
      cases h with
      | behind _ hp _ => exact absurd place hp
      | before format _ sent =>
        refine .behind format nofun ⟨[],?_⟩
        change c.sent ++ [_] = _
        rw [sent,headerMessage_sent,format,List.nil_append]
    · cases ht
  | recv bytes =>
    simp only [MTSClient.step,Option.ite_none_right_eq_some,Option.some.injEq] at ht
    obtain ⟨⟨hack,-⟩,rfl⟩ := ht
    have hc : c.place ≠ .header := by
      rcases hack with hp | hp
      · simp [hp]
      · simp [hp]
    obtain ⟨hf,hs⟩ := recv_wire c bytes
    refine h.further hc hf ?_ (hs.trans (List.append_nil _).symm)
    rcases recv_place c bytes with hp | hp
    · simp [hp]
    · rwa [hp]
  | readFile readBytes =>
    cases readBytes with
    | none =>
      simp only [MTSClient.step,Option.ite_none_right_eq_some,Option.some.injEq] at ht
      obtain ⟨hp,rfl⟩ := ht
      exact h.further (by simp [hp]) rfl nofun (List.append_nil _).symm
    | some n =>
      simp only [MTSClient.step,Option.ite_none_right_eq_some,Option.some.injEq] at ht
      obtain ⟨⟨hp,-⟩,rfl⟩ := ht
      have hc : c.place ≠ .header := by simp [hp]
      unfold MTSClient.State.play
      dsimp only
      split_ifs
      · exact h.further hc rfl nofun (List.append_nil _).symm
      · exact h.further hc rfl nofun rfl

/-- The one-byte command and the length behind it are read as one word. -/
theorem headerBytes_word (wfx : WaveFormatEx) :
    headerBytes wfx = le32 5121 ++ (0 :: wfx.toBytes) := by
  have hword : command .sendHeader ++ le32 (UInt32.ofNat sizeofWaveFormatEx) =
      le32 5121 ++ [0] := by
    decide
  rw [headerBytes,← List.append_assoc,hword,List.append_assoc]
  rfl

theorem word_neither : (5121 : UInt32) ≠ TcpCommand.sendHeader.code ∧
    (5121 : UInt32) ≠ TcpCommand.sendData.code := by decide

/-- The first step on such a stream finishes the word itself. -/
theorem init_finished (neither : w ≠ TcpCommand.sendHeader.code ∧ w ≠ TcpCommand.sendData.code)
    (h : ((receiver stack wfx (le32 w ++ rest)).init).step v = some r) :
    (finished (receiver stack wfx (le32 w ++ rest)).init r).toList = [.other w neither] := by
  cases Framing.step_move h with
  | @other c rest' spot arrived neither' =>
    obtain ⟨rfl,-⟩ := le32_append_inj arrived
    simp [finished,receiver,prcessCharacter,neither]
  | openHeader spot arrived => exact absurd (le32_append_inj arrived).1 neither.1
  | openData spot arrived => exact absurd (le32_append_inj arrived).1 neither.2
  | headerLength spot => cases spot
  | dataLength spot => cases spot
  | header spot => cases spot
  | data spot => cases spot

/-- A stream that opens with a word that is no command: whatever comes out of it
comes out behind that word. -/
theorem decoded_first (neither : w ≠ TcpCommand.sendHeader.code ∧ w ≠ TcpCommand.sendData.code)
    (h : (decoder stack wfx (le32 w ++ rest)).Reaches d) :
    d.decoded = [] ∨ ∃ more, d.decoded = .other w neither :: more := by
  have hinv : d = (decoder stack wfx (le32 w ++ rest)).init ∨
      ∃ more, d.decoded = .other w neither :: more := by
    refine h.invariant (P := fun d => d = (decoder stack wfx (le32 w ++ rest)).init ∨
      ∃ more, d.decoded = .other w neither :: more) (.inl rfl) ?_
    intro d v d' hd ht
    obtain ⟨r,hr,rfl⟩ := Option.map_eq_some_iff.mp ht
    rcases hd with rfl | ⟨more,hmore⟩
    · right
      exact ⟨[],init_finished neither hr⟩
    · right
      exact ⟨more ++ _,by rw [hmore,List.cons_append]⟩
  rcases hinv with rfl | hmore
  · exact .inl rfl
  · exact .inr hmore

/-- The receiver gets out of the stream what the file was: its header once, and
then every block with its own bytes. -/
def Understood (c : MTSClient.State) : Prop :=
  ∃ stack wfx d, (decoder stack wfx c.sent.flatten).Reaches d ∧
    d.decoded = .header c.wfx :: c.blocks.map .data

theorem not_understood (h : (tmain file junk).Reaches c) (hp : c.place ≠ .header) :
    ¬ Understood c := by
  rintro ⟨stack,wfx,d,hd,he⟩
  have hopened : Opened (tmain file junk).init.wfx c := by
    apply h.invariant (.before rfl rfl rfl)
    intro c a c' hc ht
    exact step_opened hc ht
  cases hopened with
  | before _ place _ => exact hp place
  | behind _ _ sent =>
    obtain ⟨rest,sent⟩ := sent
    rw [sent,List.flatten_cons,headerBytes_word,List.append_assoc] at hd
    rcases decoded_first word_neither hd with hnil | ⟨more,hmore⟩
    · cases hnil.symm.trans he
    · cases hmore.symm.trans he

theorem recv_ack (c : MTSClient.State) :
    c.recv (command .sendAck) =
      { c with buffer := memcpy c.buffer 0 (command .sendAck), place := .read } := by
  have hfront : (memcpy c.buffer 0 (command .sendAck)).take 1 = command .sendAck :=
    take_memcpy_zero c.buffer (command .sendAck)
  unfold MTSClient.State.recv
  dsimp only
  rw [if_pos hfront]

section
variable (file : List UInt8) (junk : Junk)

/-- One round of the playback loop: a block out, its ACK in. -/
theorem block_round (hp : c.place = .read) (hf : c.file = b ++ rest) (h1 : 1 ≤ b.length)
    (h2 : b.length ≤ dataLength) :
    ∃ c', (tmain file junk).Steps c c' ∧ c'.place = .read ∧ c'.file = rest ∧
      c'.blocks = c.blocks ++ [b] := by
  have hread : (tmain file junk).step c (.readFile (some b.length)) = some (c.play b.length) := by
    simp [tmain,MTSClient.step,hp,hf,h2]
  have hne : b.length ≠ 0 := Nat.ne_of_gt h1
  have hplay : (c.play b.length).place = .ackData ∧ (c.play b.length).file = rest ∧
      (c.play b.length).blocks = c.blocks ++ [b] := by
    simp [MTSClient.State.play,MTSClient.State.send,hne,hf]
  obtain ⟨hplace,hrest,hblocks⟩ := hplay
  have hrecv : (tmain file junk).step (c.play b.length) (.recv (command .sendAck)) =
      some ((c.play b.length).recv (command .sendAck)) := by
    simp [tmain,MTSClient.step,hplace,command]
  rw [recv_ack] at hrecv
  exact ⟨_,.two hread hrecv,rfl,hrest,hblocks⟩

/-- Any cut of the rest of the file into blocks can be what the loop sends. -/
theorem blocks_sent (hp : c.place = .read) (hf : c.file = blocks.flatten)
    (hb : ∀ b ∈ blocks, 1 ≤ b.length ∧ b.length ≤ dataLength) :
    ∃ c', (tmain file junk).Steps c c' ∧ c'.place = .read ∧ c'.blocks = c.blocks ++ blocks := by
  induction blocks generalizing c with
  | nil => exact ⟨c,.refl c,hp,(List.append_nil _).symm⟩
  | cons b bs ih =>
    obtain ⟨h1,h2⟩ := hb b List.mem_cons_self
    obtain ⟨c₁,hs₁,hp₁,hf₁,hb₁⟩ := block_round file junk hp hf h1 h2
    obtain ⟨c₂,hs₂,hp₂,hb₂⟩ := ih hp₁ hf₁ (fun b' hm => hb b' (List.mem_cons_of_mem _ hm))
    refine ⟨c₂,Relation.ReflTransGen.trans hs₁ hs₂,hp₂,?_⟩
    rw [hb₂,hb₁,List.append_assoc,List.singleton_append]

theorem header_round :
    ∃ c, (tmain file junk).Reaches c ∧ c.place = .read ∧ c.file = file.drop sizeofWavHdr ∧
      c.blocks = [] := by
  let c := (tmain file junk).init
  let c' := c.send (headerMessage c.buffer c.wfx) .ackHeader
  have hsend : (tmain file junk).step c .send = some c' := rfl
  have hrecv : (tmain file junk).step c' (.recv (command .sendAck)) =
      some (c'.recv (command .sendAck)) := rfl
  rw [recv_ack] at hrecv
  exact ⟨_,((System.Reaches.init _).step hsend).step hrecv,rfl,rfl,rfl⟩

end

/-- Whatever header and blocks the file has, `_tmain` sends them, and nothing
it sends for them is understood. -/
theorem wav_never_understood (header : Object sizeofWavHdr) (blocks : List (List UInt8))
    (junk : Junk) (hb : ∀ b ∈ blocks, 1 ≤ b.length ∧ b.length ≤ dataLength) :
    (∃ c, (tmain (header.bytes ++ blocks.flatten) junk).Reaches c ∧ c.place = .read ∧
      c.blocks = blocks) ∧
    ∀ c, (tmain (header.bytes ++ blocks.flatten) junk).Reaches c → c.place ≠ .header →
      c.blocks = blocks → ¬ Understood c := by
  refine ⟨?_,fun c hc hp _ => not_understood hc hp⟩
  obtain ⟨c,hc,hp,hf,hnil⟩ := header_round (header.bytes ++ blocks.flatten) junk
  rw [List.drop_left' header.size] at hf
  obtain ⟨c',hs,hp',hb'⟩ := blocks_sent _ junk hp hf hb
  exact ⟨c',hc.steps hs,hp',by rw [hb',hnil,List.nil_append]⟩

/-- A header for 16-bit stereo at 44100 Hz. -/
def pcmHeader : Object sizeofWavHdr where
  bytes := [82,73,70,70,40,0,0,0,87,65,86,69,102,109,116,32,16,0,0,0,1,0,2,0,68,172,0,0,
    16,177,2,0,4,0,16,0,100,97,116,97,4,0,0,0]
  size := rfl

/-- A stack that happens to be zeroed. -/
def zeroJunk : Junk where
  wavHeader := ⟨List.replicate sizeofWavHdr 0,List.length_replicate⟩
  fillFullStruct := 0
  buffer := ⟨List.replicate MTSClient.sizeofBuffer 0,List.length_replicate⟩

/-- One stereo frame. -/
def oneFrame : List UInt8 := [1,2,3,4]

theorem wav_never_understood_one_frame :
    (∀ b ∈ [oneFrame], 1 ≤ b.length ∧ b.length ≤ dataLength) ∧
    ∃ c, (tmain (pcmHeader.bytes ++ [oneFrame].flatten) zeroJunk).Reaches c ∧
      c.blocks = [oneFrame] ∧ ¬ Understood c := by
  have hb : ∀ b ∈ [oneFrame], 1 ≤ b.length ∧ b.length ≤ dataLength := by decide
  obtain ⟨⟨c,hc,hp,he⟩,hnot⟩ := wav_never_understood pcmHeader [oneFrame] zeroJunk hb
  exact ⟨hb,c,hc,he,hnot c hc (by simp [hp]) he⟩

/-- What goes out for the file; the `memset` from `buffer + 4` on has wiped the
frame. -/
def oneFrameWire : List UInt8 :=
  [1,20,0,0,0,1,0,2,0,68,172,0,0,16,177,2,0,4,0,16,0,0,0,0,0,2,4,0,0,0,0,0,0,0]

theorem oneFrame_sent :
    ((tmain (pcmHeader.bytes ++ oneFrame) zeroJunk).exec (fun _ _ => True)
      (tmain (pcmHeader.bytes ++ oneFrame) zeroJunk).init
        [.send,.recv [3],.readFile (some 4)]).map (fun c => (c.place,c.blocks,c.sent.flatten)) =
      some (.ackData,[oneFrame],oneFrameWire) := by
  decide +kernel

theorem oneFrameWire_decoded :
    ((decoder zeroStack bootWfx oneFrameWire).exec (fun _ _ => True)
      (decoder zeroStack bootWfx oneFrameWire).init (List.replicate 8 4)).map (fun d =>
        (d.receiver.input,d.decoded.length,d.receiver.wfx,d.receiver.renders)) =
      some ([0,0],8,defaultWfx bootWfx,[]) := by
  decide +kernel

/-- A file with one stereo frame: the receiver takes eight words for commands it
does not know, keeps its default format and renders nothing. -/
theorem wav_file_misread :
    ∃ c, (tmain (pcmHeader.bytes ++ oneFrame) zeroJunk).Reaches c ∧ c.blocks = [oneFrame] ∧
      ¬ Understood c ∧
      ∃ d, (decoder zeroStack bootWfx c.sent.flatten).Reaches d ∧ d.receiver.input = [0,0] ∧
        d.decoded.length = 8 ∧ d.receiver.wfx = defaultWfx bootWfx ∧ d.receiver.renders = [] := by
  obtain ⟨c,hc,he⟩ := Option.map_eq_some_iff.mp oneFrame_sent
  obtain ⟨d,hd,hout⟩ := Option.map_eq_some_iff.mp oneFrameWire_decoded
  simp only [Prod.mk.injEq] at he hout
  obtain ⟨hplace,hblocks,hsent⟩ := he
  have hreach := (System.run_of_exec hc).reaches
  have hnot : ¬ Understood c := not_understood hreach (by simp [hplace])
  refine ⟨c,hreach,hblocks,hnot,d,?_,hout⟩
  rw [hsent]
  exact (System.run_of_exec hd).reaches

end WifiSpeaker.Proofs.WavSender
