import Mathlib.Data.Fintype.Basic
import WifiSpeaker.Clients
import WifiSpeaker.Proofs.WireAgreement

namespace WifiSpeaker.Proofs.ClientMixing
open Common Multiplex Wire PrcessCharacter Framing WireAgreement Clients

theorem frame_ne_nil (f : Frame) : f.encode ≠ [] := by
  intro h
  have := congrArg List.length h
  cases f with
  | other => simp [Frame.encode] at this
  | header => simp [Frame.encode] at this
  | data => simp [Frame.encode] at this

theorem message_ne_nil (m : Message) : m.encode ≠ [] := by
  intro h
  have := congrArg List.length h
  cases m with
  | other => simp [Message.encode] at this
  | header => simp [Message.encode] at this
  | data => simp [Message.encode] at this

theorem frameOf_inj (h : frameOf m hm = frameOf m' hm') : m = m' := by
  cases m with
  | other c neither =>
    cases m' with
    | other =>
      simp only [frameOf,Frame.other.injEq] at h
      simp [h]
    | header => cases h
    | data => cases h
  | header w =>
    cases m' with
    | other => cases h
    | header w' =>
      simp only [frameOf,Frame.header.injEq,true_and] at h
      rw [← w.ofBytes_toBytes,h,w'.ofBytes_toBytes]
    | data => cases h
  | data payload =>
    cases m' with
    | other => cases h
    | header => cases h
    | data payload' =>
      simp only [frameOf,Frame.data.injEq] at h
      rw [h.2]

/-- A frame in front of whole messages is the first of them. -/
theorem next_message {f : Frame} (hs : ∀ m ∈ todo, Sendable m) (h : f.encode ++ xs = encode todo) :
    ∃ m rest, ∃ hm : Sendable m, todo = m :: rest ∧ frameOf m hm = f ∧ xs = encode rest := by
  cases todo with
  | nil => exact absurd (List.append_eq_nil_iff.mp h).1 (frame_ne_nil f)
  | cons m rest =>
    have hm : Sendable m := hs m List.mem_cons_self
    rw [encode,List.flatMap_cons,← encode_frameOf m hm] at h
    obtain ⟨hf,hx⟩ := encode_append_inj h
    exact ⟨m,rest,hm,rfl,hf.symm,hx⟩

/-- Messages in front of a stream of messages are the first of them. -/
theorem messages_prefix (hd : ∀ m ∈ ds, Sendable m) (hs : ∀ m ∈ ms, Sendable m)
    (h : encode ds ++ xs = encode ms) : ∃ todo, ms = ds ++ todo ∧ xs = encode todo := by
  induction ds generalizing ms with
  | nil => exact ⟨ms,rfl,h⟩
  | cons d ds ih =>
    have hsd : Sendable d := hd d List.mem_cons_self
    rw [encode,List.flatMap_cons,List.append_assoc,← encode_frameOf d hsd] at h
    obtain ⟨m,rest,hm,rfl,hf,hx⟩ := next_message hs h
    cases frameOf_inj hf
    obtain ⟨todo,rfl,hxs⟩ := ih (fun m hm => hd m (List.mem_cons_of_mem _ hm))
      (fun m hm => hs m (List.mem_cons_of_mem _ hm)) hx
    exact ⟨todo,rfl,hxs⟩

/-- A read goes on while a frame it is inside of has all its bytes there. -/
theorem step_of_frame {f : Frame} (h : opened r.task ++ r.input = f.encode ++ rest) (v : Int) :
    Receiver.step r v ≠ none := by
  suffices r.task.wants ≤ r.input.length by
    rw [Receiver.step,if_neg (Nat.not_lt.mpr this)]
    exact Option.some_ne_none _
  cases hp : r.task.place with
  | command =>
    simp only [opened,hp,List.nil_append] at h
    simp only [Task.wants,Task.request,hp,h]
    cases f with
    | other => simp [Frame.encode]
    | header => simp [Frame.encode]
    | data => simp [Frame.encode]
  | headerLength =>
    simp only [opened,hp] at h
    simp only [Task.wants,Task.request,hp]
    cases f with
    | other c neither => exact absurd (le32_append_inj h).1.symm neither.1
    | header n body fits =>
      simp only [Frame.encode,List.append_assoc] at h
      simp [(le32_append_inj h).2]
    | data n body fits =>
      simp only [Frame.encode,List.append_assoc] at h
      exact absurd (le32_append_inj h).1 (by decide)
  | dataLength =>
    simp only [opened,hp] at h
    simp only [Task.wants,Task.request,hp]
    cases f with
    | other c neither => exact absurd (le32_append_inj h).1.symm neither.2
    | header n body fits =>
      simp only [Frame.encode,List.append_assoc] at h
      exact absurd (le32_append_inj h).1 (by decide)
    | data n body fits =>
      simp only [Frame.encode,List.append_assoc] at h
      simp [(le32_append_inj h).2]
  | header =>
    simp only [opened,hp,List.append_assoc] at h
    simp only [Task.wants,Task.request,hp]
    cases f with
    | other c neither => exact absurd (le32_append_inj h).1.symm neither.1
    | header n body fits =>
      simp only [Frame.encode,List.append_assoc] at h
      obtain ⟨hn,hi⟩ := le32_append_inj (le32_append_inj h).2
      simp [hn,hi,fits]
    | data n body fits =>
      simp only [Frame.encode,List.append_assoc] at h
      exact absurd (le32_append_inj h).1 (by decide)
  | data =>
    simp only [opened,hp,List.append_assoc] at h
    simp only [Task.wants,Task.request,hp]
    cases f with
    | other c neither => exact absurd (le32_append_inj h).1.symm neither.2
    | header n body fits =>
      simp only [Frame.encode,List.append_assoc] at h
      exact absurd (le32_append_inj h).1 (by decide)
    | data n body fits =>
      simp only [Frame.encode,List.append_assoc] at h
      obtain ⟨hn,hi⟩ := le32_append_inj (le32_append_inj h).2
      simp [hn,hi,fits]

/-- The bytes written are those of the messages decoded, of the part of a frame
already read, and those still waiting. -/
structure Decoded (s : State ι) : Prop where
  sendable : ∀ m ∈ s.decoded, Sendable m
  read : s.line.sent.map Prod.snd =
    encode s.decoded ++ (opened s.receiver.task ++ s.receiver.input)

theorem encode_snoc (ds : List Message) (m : Message) :
    encode (ds ++ [m]) = encode ds ++ m.encode := by
  simp [encode]

/-- A message read to its end is added to those decoded. -/
theorem Decoded.finish (h : Decoded s) (hm : Sendable m)
    (hin : opened s.receiver.task ++ s.receiver.input = m.encode ++ r'.input)
    (hplace : opened r'.task = []) (hf : finished s.receiver r' = some m) :
    Decoded { s with receiver := r', decoded := s.decoded ++ (finished s.receiver r').toList } := by
  rw [hf]
  constructor
  · intro m' hm'
    rcases List.mem_append.mp hm' with hm' | hm'
    · exact h.sendable m' hm'
    · rwa [List.mem_singleton.mp hm']
  · rw [h.read,hin,Option.toList_some,encode_snoc,hplace]
    simp

/-- A read inside a frame moves bytes from those waiting to those read. -/
theorem Decoded.go_on (h : Decoded s)
    (hin : opened s.receiver.task ++ s.receiver.input = opened r'.task ++ r'.input)
    (hf : finished s.receiver r' = none) :
    Decoded { s with receiver := r', decoded := s.decoded ++ (finished s.receiver r').toList } := by
  rw [hf]
  constructor
  · simpa using h.sendable
  · rw [h.read,hin,Option.toList_none,List.append_nil]

/-- While the bytes written begin a list of messages, every read leaves them decoded. -/
theorem read_decoded (h : Decoded s) (hs : ∀ m ∈ ms, Sendable m)
    (hms : s.line.sent.map Prod.snd ++ more = encode ms) (hr : s.receiver.step v = some r') :
    Decoded { s with receiver := r', decoded := s.decoded ++ (finished s.receiver r').toList } := by
  have hnext : ∀ (f : Frame) (xs : List UInt8),
      opened s.receiver.task ++ s.receiver.input = f.encode ++ xs →
      ∃ m, ∃ hm : Sendable m, frameOf m hm = f := by
    intro f xs hf
    rw [h.read,List.append_assoc,hf] at hms
    obtain ⟨todo,rfl,htodo⟩ := messages_prefix h.sendable hs hms
    rw [List.append_assoc] at htodo
    obtain ⟨m,_,hm,_,hfr,_⟩ := next_message
      (fun m hm => hs m (List.mem_append_right _ hm)) htodo
    exact ⟨m,hm,hfr⟩
  cases step_move hr with
  | @other c rest spot arrived neither =>
    refine h.finish (m := .other c neither) trivial ?_ rfl ?_
    · simp [opened,spot,arrived,Message.encode]
    · simp [finished,spot,neither.1,neither.2]
  | openHeader spot arrived =>
    refine h.go_on ?_ ?_
    · simp [opened,spot,arrived]
    · simp [finished,spot]
  | openData spot arrived =>
    refine h.go_on ?_ ?_
    · simp [opened,spot,arrived]
    · simp [finished,spot]
  | headerLength spot arrived =>
    refine h.go_on ?_ ?_
    · simp [opened,spot,arrived]
    · simp [finished,spot]
  | dataLength spot arrived =>
    refine h.go_on ?_ ?_
    · simp [opened,spot,arrived]
    · simp [finished,spot]
  | @header body rest spot arrived fits =>
    have hin : opened s.receiver.task ++ s.receiver.input =
        (Frame.header s.receiver.task.lengthData body fits).encode ++ rest := by
      simp [opened,spot,arrived,Frame.encode]
    obtain ⟨m,hm,hf⟩ := hnext _ _ hin
    refine h.finish hm ?_ rfl ?_
    · rw [hin,← hf,encode_frameOf]
    · cases m with
      | other => cases hf
      | data => cases hf
      | header w =>
        simp only [frameOf,Frame.header.injEq] at hf
        simp [finished,spot,← hf.2,Object.write_whole _ w.length_toBytes,
          WaveFormatEx.ofBytes_toBytes]
  | @data body rest spot arrived fits =>
    have hin : opened s.receiver.task ++ s.receiver.input =
        (Frame.data s.receiver.task.lengthData body fits).encode ++ rest := by
      simp [opened,spot,arrived,Frame.encode]
    obtain ⟨m,hm,hf⟩ := hnext _ _ hin
    refine h.finish hm ?_ rfl ?_
    · rw [hin,← hf,encode_frameOf]
    · cases m with
      | other => cases hf
      | header => cases hf
      | data payload =>
        simp only [frameOf,Frame.data.injEq] at hf
        obtain ⟨hn,rfl⟩ := hf
        simp only [finished,spot,← hn,payload_length hm,Object.take_write,
          List.take_of_length_le hm]

section
variable {ι : Type} [DecidableEq ι] {messages : ι → List Message} {s t : State ι} {a : Act ι}

/-- A chunk is written only while every other client is between messages. -/
def Turns (messages : ι → List Message) (s : State ι) : Act ι → Prop
  | .chunk i _ => ∀ j, j ≠ i → AtBoundary Message.encode messages s.line j
  | .read _ => True

instance [Fintype ι] (s : State ι) (a : Act ι) : Decidable (Turns messages s a) :=
  match a with
  | .chunk i _ => inferInstanceAs (Decidable (∀ j, j ≠ i → _))
  | .read _ => inferInstanceAs (Decidable True)

/-- The line carries whole messages, and those read are decoded. -/
def Kept (messages : ι → List Message) (s : State ι) : Prop :=
  (∃ w todo part tail, Whole Message.encode messages s.line w todo part tail) ∧ Decoded s

theorem whole_mem (h : Whole Message.encode messages l w todo part tail) (hm : m ∈ w.map Prod.snd) :
    ∃ i, m ∈ messages i := by
  obtain ⟨⟨i,m'⟩,hp,rfl⟩ := List.mem_map.mp hm
  refine ⟨i,?_⟩
  rw [h.split i]
  exact List.mem_append_left _ (mem_partOf.mpr hp)

theorem step_kept (hs : ∀ i, ∀ m ∈ messages i, Sendable m) (h : Kept messages s)
    (hc : Turns messages s a) (ht : step s a = some t) : Kept messages t := by
  obtain ⟨⟨w,todo,part,tail,hw⟩,hd⟩ := h
  cases a with
  | chunk i n =>
    simp only [step,Option.ite_none_right_eq_some,Option.some.injEq] at ht
    obtain ⟨-,rfl⟩ := ht
    refine ⟨hw.push hc n,hd.sendable,?_⟩
    simp only [Line.push,List.map_append,hd.read]
    simp [Function.comp_def]
  | read v =>
    obtain ⟨r',hr,ht⟩ := Option.bind_eq_some_iff.mp ht
    cases ht
    obtain ⟨more,rest,hmore,hcase⟩ := hw.completes
    refine ⟨⟨w,todo,part,tail,hw⟩,read_decoded hd ?_ hmore hr⟩
    intro m hm
    rcases List.mem_append.mp hm with hm | hm
    · obtain ⟨i,hi⟩ := whole_mem hw hm
      exact hs i m hi
    · rcases hcase with ⟨rfl,_⟩ | ⟨_,i,m',hi,rfl⟩
      · cases hm
      · cases List.mem_singleton.mp hm
        exact hs i _ hi

theorem run_kept (hs : ∀ i, ∀ m ∈ messages i, Sendable m)
    (h : (system junk wfx messages).Run (Turns messages) acts s) : Kept messages s := by
  apply h.invariant ?_ (fun _ _ _ hk hc ht => step_kept hs hk hc ht)
  exact ⟨⟨_,_,_,_,Whole.init Message.encode messages⟩,nofun,rfl⟩

/-- Only messages that are whole on the line are decoded. -/
theorem decoded_prefix (hs : ∀ i, ∀ m ∈ messages i, Sendable m) (hd : Decoded s)
    (hw : Whole Message.encode messages s.line w todo part tail) :
    s.decoded <+: w.map Prod.snd := by
  have hsw : ∀ m ∈ w.map Prod.snd, Sendable m := by
    intro m hm
    obtain ⟨i,hi⟩ := whole_mem hw hm
    exact hs i m hi
  obtain ⟨more,rest,hmore,hcase⟩ := hw.completes
  rw [hd.read,List.append_assoc] at hmore
  rcases hcase with ⟨rfl,_⟩ | ⟨hrest,i,m,hi,rfl⟩
  · rw [List.append_nil] at hmore
    obtain ⟨todo,hms,_⟩ := messages_prefix hd.sendable hsw hmore
    exact ⟨todo,hms.symm⟩
  · have hall : ∀ m' ∈ w.map Prod.snd ++ [m], Sendable m' := by
      intro m' hm'
      rcases List.mem_append.mp hm' with hm' | hm'
      · exact hsw m' hm'
      · cases List.mem_singleton.mp hm'
        exact hs i m hi
    obtain ⟨todo,hms,hlast⟩ := messages_prefix hd.sendable hall hmore
    rcases List.prefix_concat_iff.mp ⟨todo,hms.symm⟩ with heq | hp
    · -- everything decoded would leave nothing of the unfinished message to come
      rw [heq,List.self_eq_append_right] at hms
      rw [hms] at hlast
      exact absurd (List.append_eq_nil_iff.mp hlast).2 hrest
    · exact hp

/-- Where the threads write only between the messages of the other clients, the
messages decoded are an interleaving of messages of the clients: each was written
by one of them without a foreign byte in it, each client's come in its order,
and none is missing when all is written and the task waits. -/
theorem clients_stay_whole (messages : ι → List Message)
    (hs : ∀ i, ∀ m ∈ messages i, Sendable m) (junk : Task) (wfx : WaveFormatEx)
    (h : (system junk wfx messages).Run (Turns messages) acts s) :
    ∃ w : List (ι × Message), s.decoded = w.map Prod.snd ∧
      (∀ i, partOf i w <+: messages i) ∧
      w.flatMap (tagged Message.encode) <+: s.line.sent ∧
      ((∀ i, s.line.unsent i = []) → (∀ v, s.receiver.step v = none) →
        ∀ i, partOf i w = messages i) := by
  obtain ⟨⟨w,todo,part,tail,hw⟩,hd⟩ := run_kept hs h
  obtain ⟨rest,hrest⟩ := decoded_prefix hs hd hw
  have hlen : s.decoded = (w.take s.decoded.length).map Prod.snd := by
    rw [List.map_take,← hrest,List.take_left]
  have hcut : w = w.take s.decoded.length ++ w.drop s.decoded.length :=
    (List.take_append_drop _ _).symm
  refine ⟨w.take s.decoded.length,hlen,?_,?_,?_⟩
  · intro i
    rw [hw.split i]
    nth_rewrite 2 [hcut]
    rw [partOf_append,List.append_assoc]
    exact List.prefix_append _ _
  · rw [hw.sent]
    nth_rewrite 2 [hcut]
    rw [List.flatMap_append,List.append_assoc]
    exact List.prefix_append _ _
  · intro hu hwait i
    obtain ⟨rfl,hall⟩ := hw.drained message_ne_nil hu
    have hread := hd.read
    rw [hw.sent,List.append_nil,map_snd_tagged,← hrest,List.flatMap_append] at hread
    have htodo := List.append_cancel_left hread
    cases rest with
    | nil =>
      rw [List.append_nil] at hrest
      have : s.decoded.length = w.length := by rw [hrest,List.length_map]
      rw [this,List.take_length]
      exact hall i
    | cons m rest =>
      have hm : Sendable m := by
        obtain ⟨j,hj⟩ := whole_mem (m := m) hw (by rw [← hrest]; simp)
        exact hs j m hj
      rw [List.flatMap_cons,← encode_frameOf m hm] at htodo
      exact absurd (hwait 0) (step_of_frame htodo.symm 0)

end

/-- Two clients with one message of four bytes each. -/
def twoTalks : Bool → List Message
  | false => [.data [1,2,3,4]]
  | true => [.data [5,6,7,8]]

/-- The second client's chunk comes two bytes before the end of the first's message. -/
def crossed : List (Act Bool) :=
  [.chunk false 10,.chunk true 12,.chunk false 2,.read 4,.read 4,.read 4]

theorem twoTalks_sendable (i : Bool) : ∀ m ∈ twoTalks i, Sendable m := by
  intro m hm
  cases i with
  | false =>
    cases List.mem_singleton.mp hm
    exact (by decide : 4 ≤ sizeofBuffer)
  | true =>
    cases List.mem_singleton.mp hm
    exact (by decide : 4 ≤ sizeofBuffer)

theorem crossed_decoded :
    ((system zeroStack bootWfx twoTalks).exec (fun _ _ => True)
      (system zeroStack bootWfx twoTalks).init crossed).map (fun s => s.decoded) =
        some [.data [1,2,2,0]] := by
  decide +kernel

/-- A payload with bytes of both clients is decoded, of neither's messages. -/
theorem clients_mix :
    (∀ i, ∀ m ∈ twoTalks i, Sendable m) ∧
    ¬ ∀ s, (system zeroStack bootWfx twoTalks).Reaches s →
      ∃ w : List (Bool × Message), s.decoded = w.map Prod.snd ∧
        ∀ i, partOf i w <+: twoTalks i := by
  refine ⟨twoTalks_sendable,?_⟩
  intro h
  obtain ⟨s,hs,hd⟩ := Option.map_eq_some_iff.mp crossed_decoded
  obtain ⟨w,hw,hp⟩ := h s (System.run_of_exec hs).reaches
  have hm : Message.data [1,2,2,0] ∈ w.map Prod.snd := by
    rw [← hw,hd]
    exact List.mem_singleton_self _
  obtain ⟨⟨i,m⟩,hmem,rfl⟩ := List.mem_map.mp hm
  have hin := (hp i).subset (mem_partOf.mpr hmem)
  cases i with
  | false =>
    revert hin
    decide
  | true =>
    revert hin
    decide

/-- The same chunks with the clients taking turns. -/
def inTurn : List (Act Bool) :=
  [.chunk false 10,.chunk false 2,.chunk true 12,.read 4,.read 4,.read 4,.read 4,.read 4,.read 4]

theorem clients_stay_whole_inTurn :
    (∀ i, ∀ m ∈ twoTalks i, Sendable m) ∧
    ∃ s, (system zeroStack bootWfx twoTalks).Run (Turns twoTalks) inTurn s ∧
      s.decoded = [.data [1,2,3,4],.data [5,6,7,8]] ∧
      ∃ w : List (Bool × Message), s.decoded = w.map Prod.snd ∧
        (∀ i, partOf i w <+: twoTalks i) ∧ w.flatMap (tagged Message.encode) <+: s.line.sent := by
  have hrun : ((system zeroStack bootWfx twoTalks).exec (Turns twoTalks)
      (system zeroStack bootWfx twoTalks).init inTurn).map (fun s => s.decoded) =
        some [.data [1,2,3,4],.data [5,6,7,8]] := by
    decide +kernel
  obtain ⟨s,hs,hd⟩ := Option.map_eq_some_iff.mp hrun
  have hr := System.run_of_exec hs
  obtain ⟨w,hw,hp,hl,_⟩ := clients_stay_whole twoTalks twoTalks_sendable zeroStack bootWfx hr
  exact ⟨twoTalks_sendable,s,hr,hd,w,hw,hp,hl⟩

end WifiSpeaker.Proofs.ClientMixing
