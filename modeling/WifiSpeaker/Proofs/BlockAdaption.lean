import Mathlib.Data.Fin.VecNotation
import WifiSpeaker.BufferProcessor

namespace WifiSpeaker.Proofs.BlockAdaption
open Common BufferProcessor

section
variable {α β δ : Type} {c : Config α β δ} {s t : State c} {a : Act c} {acts : List (Act c)}
  {temp : c.TempBuffer} {dither : δ} {host : HostBuffer c} {rest : List (HostBuffer c)}
  {i : c.Channel}

theorem destSampleStride_pos (c : Config α β δ) : 0 < c.destSampleStride := by
  unfold Config.destSampleStride
  split_ifs
  · exact c.channels
  · exact Nat.one_pos

/-- The samples of a channel lie one stride apart. -/
theorem dest_add (c : Config α β δ) (i : c.Channel) (frame j : Nat) :
    c.dest i (frame + j) = c.dest i frame + j * c.destSampleStride := by
  unfold Config.dest Config.destSampleStride
  split_ifs
  · rw [Nat.add_mul]
    omega
  · omega

theorem dest_lt (i : c.Channel) (hf : frame < c.framesPerUserBuffer) :
    c.dest i frame < c.framesPerUserBuffer * c.inputChannelCount := by
  have hi := i.isLt
  unfold Config.dest
  split_ifs
  · have := Nat.mul_le_mul_right c.inputChannelCount (Nat.succ_le_of_lt hf)
    rw [Nat.succ_mul] at this
    omega
  · have := Nat.mul_le_mul_left c.framesPerUserBuffer (Nat.succ_le_of_lt hi)
    rw [Nat.mul_succ,Nat.mul_comm] at this
    omega

/-- Every sample of a user buffer has a place of its own. -/
theorem dest_inj {i i' : c.Channel} (hf : frame < c.framesPerUserBuffer)
    (hf' : frame' < c.framesPerUserBuffer) (h : c.dest i frame = c.dest i' frame') :
    i = i' ∧ frame = frame' := by
  have hi := i.isLt
  have hi' := i'.isLt
  unfold Config.dest at h
  split_ifs at h
  · have hmod := congrArg (· % c.inputChannelCount) h
    have hdiv := congrArg (· / c.inputChannelCount) h
    simp only [Nat.mul_add_mod_of_lt hi,Nat.mul_add_mod_of_lt hi'] at hmod
    simp only [Nat.add_comm (_ * _),Nat.add_mul_div_right _ _ c.channels,Nat.div_eq_of_lt hi,
      Nat.div_eq_of_lt hi'] at hdiv
    exact ⟨Fin.ext hmod,by omega⟩
  · have hmod := congrArg (· % c.framesPerUserBuffer) h
    have hdiv := congrArg (· / c.framesPerUserBuffer) h
    simp only [Nat.add_mul_mod_self_right,Nat.mod_eq_of_lt hf,Nat.mod_eq_of_lt hf'] at hmod
    simp only [Nat.add_mul_div_right _ _ c.frames,Nat.div_eq_of_lt hf,Nat.div_eq_of_lt hf'] at hdiv
    exact ⟨Fin.ext (by omega),hmod⟩

/-- How far each channel is filled: the temporary buffer holds what was converted
behind the first `base` frames. -/
structure Level (s : State c) (base : Nat) (level : c.Channel → Nat) : Prop where
  length : ∀ i, (s.converted i).length = base + level i
  held : ∀ i f, f < level i →
    s.tempInputBuffer.items[c.dest i f]? = (s.converted i)[base + f]?
  related : ∀ i, List.Forall₂ c.inputConverter.rel (s.taken i) (s.converted i)

/-- What the converter stores for a channel goes on behind what is there of it. -/
theorem Level.held_own (h : Level s base level) (hi : level i = s.framesInTempInputBuffer)
    (hroom : s.framesInTempInputBuffer + out.length ≤ c.framesPerUserBuffer)
    (hf : f < s.framesInTempInputBuffer + out.length) :
    (stridedWrite s.tempInputBuffer.items (c.dest i s.framesInTempInputBuffer) c.destSampleStride
      out)[c.dest i f]? = (s.converted i ++ out)[base + f]? := by
  rcases Nat.lt_or_ge f s.framesInTempInputBuffer with hold | hnew
  · -- what was there before
    rw [stridedWrite_other,h.held i f (by omega),List.getElem?_append_left]
    · rw [h.length]
      omega
    · intro j hj heq
      rw [← dest_add] at heq
      have := (dest_inj (by omega) (by omega) heq).2
      omega
  · obtain ⟨j,rfl⟩ := Nat.exists_eq_add_of_le hnew
    rw [dest_add,stridedWrite_at (destSampleStride_pos c) (by omega),List.getElem?_append_right]
    · rw [h.length,hi]
      congr 1
      omega
    · rw [h.length,hi]
      omega
    · rw [← dest_add,s.tempInputBuffer.size]
      exact dest_lt i (by omega)

/-- The places of the other channels keep what they hold. -/
theorem Level.held_other (h : Level s base level)
    (hroom : s.framesInTempInputBuffer + out.length ≤ c.framesPerUserBuffer)
    (hall : level k ≤ c.framesPerUserBuffer) (hk : k ≠ i) (hf : f < level k) :
    (stridedWrite s.tempInputBuffer.items (c.dest i s.framesInTempInputBuffer) c.destSampleStride
      out)[c.dest k f]? = (s.converted k)[base + f]? := by
  rw [stridedWrite_other,h.held k f hf]
  intro j hj heq
  rw [← dest_add] at heq
  exact hk (dest_inj (by omega) (by omega) heq).1

/-- The converter fills one channel on. -/
theorem Level.convertChannel (h : Level s base level) (hi : level i = s.framesInTempInputBuffer)
    (hn : n ≤ host.frameCount) (hroom : s.framesInTempInputBuffer + n ≤ c.framesPerUserBuffer)
    (hall : ∀ k, level k ≤ c.framesPerUserBuffer) :
    Level (s.convertChannel host n i) base
      (Function.update level i (s.framesInTempInputBuffer + n)) := by
  have hsound := c.inputConverter.sound ((host.channel i).take n) s.ditherGenerator
  have hlen : (c.inputConverter.convert ((host.channel i).take n) s.ditherGenerator).1.length =
      n := by
    rw [← hsound.length_eq,List.length_take,host.size]
    exact Nat.min_eq_left hn
  unfold State.convertChannel
  rw [← hlen] at hroom
  refine ⟨?_,?_,?_⟩
  · intro k
    by_cases hk : k = i
    · subst k
      simp only [Function.update_self,List.length_append,h.length,hlen,hi]
      omega
    · simp only [Function.update_of_ne hk]
      exact h.length k
  · intro k f hf
    by_cases hk : k = i
    · subst k
      rw [Function.update_self,← hlen] at hf
      simp only [Function.update_self,Buffer.strided]
      exact h.held_own hi hroom hf
    · rw [Function.update_of_ne hk] at hf
      simp only [Function.update_of_ne hk,Buffer.strided]
      exact h.held_other hroom (hall k) hk hf
  · intro k
    by_cases hk : k = i
    · subst k
      simp only [Function.update_self]
      exact List.rel_append (h.related i) hsound
    · simp only [Function.update_of_ne hk]
      exact h.related k

theorem convertChannels_frame (s : State c) (host : HostBuffer c) (n : Nat) (is : List c.Channel) :
    (s.convertChannels host n is).framesInTempInputBuffer = s.framesInTempInputBuffer ∧
    (s.convertChannels host n is).streamCallbackResult = s.streamCallbackResult ∧
    (s.convertChannels host n is).calls = s.calls ∧
    (s.convertChannels host n is).supplied = s.supplied ∧
    ∀ i, s.converted i <+: (s.convertChannels host n is).converted i := by
  induction is generalizing s with
  | nil => exact ⟨rfl,rfl,rfl,rfl,fun i => List.prefix_rfl⟩
  | cons i is ih =>
    obtain ⟨hf,hr,hc,hs,hp⟩ := ih (s.convertChannel host n i)
    refine ⟨hf,hr,hc,hs,?_⟩
    intro k
    refine List.IsPrefix.trans ?_ (hp k)
    by_cases hk : k = i
    · subst k
      simp only [State.convertChannel,Function.update_self]
      exact List.prefix_append _ _
    · simp only [State.convertChannel,Function.update_of_ne hk]
      exact List.prefix_rfl

theorem convertChannels_taken (s : State c) (host : HostBuffer c) (n : Nat) (h : is.Nodup)
    (i : c.Channel) : (s.convertChannels host n is).taken i =
      if i ∈ is then s.taken i ++ (host.channel i).take n else s.taken i := by
  induction is generalizing s with
  | nil => simp [State.convertChannels]
  | cons k is ih =>
    obtain ⟨hk,his⟩ := List.nodup_cons.mp h
    have hrest := ih (s.convertChannel host n k) his
    change ((s.convertChannel host n k).convertChannels host n is).taken i = _
    rw [hrest]
    by_cases hik : i = k
    · subst i
      simp [hk,State.convertChannel]
    · simp [hik,State.convertChannel]

theorem Level.convertChannels (h : Level s base level) (hnodup : is.Nodup)
    (his : ∀ i ∈ is, level i = s.framesInTempInputBuffer) (hn : n ≤ host.frameCount)
    (hroom : s.framesInTempInputBuffer + n ≤ c.framesPerUserBuffer)
    (hall : ∀ k, level k ≤ c.framesPerUserBuffer) :
    Level (s.convertChannels host n is) base
      (fun i => if i ∈ is then s.framesInTempInputBuffer + n else level i) := by
  induction is generalizing s level with
  | nil => simpa [State.convertChannels] using h
  | cons i is ih =>
    obtain ⟨hi,hrest⟩ := List.nodup_cons.mp hnodup
    have hone := h.convertChannel (his i List.mem_cons_self) hn hroom hall
    have hothers : ∀ k ∈ is, Function.update level i (s.framesInTempInputBuffer + n) k =
        s.framesInTempInputBuffer := by
      intro k hk
      have hne : k ≠ i := by
        rintro rfl
        exact hi hk
      rw [Function.update_of_ne hne,his k (List.mem_cons_of_mem _ hk)]
    have hfull : ∀ k, Function.update level i (s.framesInTempInputBuffer + n) k ≤
        c.framesPerUserBuffer := by
      intro k
      by_cases hk : k = i
      · subst k
        rw [Function.update_self]
        exact hroom
      · rw [Function.update_of_ne hk]
        exact hall k
    have hmore := ih hone hrest hothers hroom hfull
    have hlevel : (fun k => if k ∈ i :: is then s.framesInTempInputBuffer + n else level k) =
        fun k => if k ∈ is then s.framesInTempInputBuffer + n
          else Function.update level i (s.framesInTempInputBuffer + n) k := by
      funext k
      by_cases hk : k = i
      · subst k
        simp [hi]
      · simp only [List.mem_cons,hk,false_or,Function.update_of_ne hk]
    rw [hlevel]
    exact hmore

/-- The stream so far: the callback has had whole user buffers, one behind the other,
and the temporary buffer holds the rest. -/
structure Adapted (s : State c) : Prop where
  room : s.framesInTempInputBuffer < c.framesPerUserBuffer
  level : Level s (s.calls.length * c.framesPerUserBuffer) (fun _ => s.framesInTempInputBuffer)
  calls : ∀ k buf, s.calls[k]? = some buf → ∀ i f, f < c.framesPerUserBuffer →
    buf.items[c.dest i f]? = (s.converted i)[k * c.framesPerUserBuffer + f]?
  supplied : ∀ i, s.supplied i = s.taken i ++ s.todo.flatMap (fun h => h.channel i)
  result : s.streamCallbackResult = .paContinue

theorem frameCount_le (s : State c) (host : HostBuffer c)
    (hroom : s.framesInTempInputBuffer < c.framesPerUserBuffer) :
    s.frameCount host ≤ host.frameCount ∧
    s.framesInTempInputBuffer + s.frameCount host ≤ c.framesPerUserBuffer ∧
    (s.frameCount host < host.frameCount →
      s.framesInTempInputBuffer + s.frameCount host = c.framesPerUserBuffer) := by
  unfold State.frameCount
  split_ifs <;> omega

/-- What is left of the host buffers behind a turn. -/
theorem todo_turn (host : HostBuffer c) (rest : List (HostBuffer c)) (n : Nat) (i : c.Channel) :
    (host :: rest).flatMap (fun h => h.channel i) = (host.channel i).take n ++
      (if host.frameCount - n > 0 then host.advance n :: rest else rest).flatMap
        (fun h => h.channel i) := by
  split_ifs with hmore
  · simp only [List.flatMap_cons,HostBuffer.advance,← List.append_assoc,List.take_append_drop]
  · rw [List.take_of_length_le (by rw [host.size]; omega),List.flatMap_cons]

/-- What the callback has had stays where it was in the converted stream. -/
theorem Adapted.kept {converted : c.Channel → List β} (h : Adapted s)
    (hgrown : ∀ i, s.converted i <+: converted i) :
    ∀ k buf, s.calls[k]? = some buf → ∀ i f, f < c.framesPerUserBuffer →
      buf.items[c.dest i f]? = (converted i)[k * c.framesPerUserBuffer + f]? := by
  intro k buf hk i f hf
  have hklt := (List.getElem?_eq_some_iff.mp hk).1
  have hin : k * c.framesPerUserBuffer + f < (s.converted i).length := by
    have := Nat.mul_le_mul_right c.framesPerUserBuffer (Nat.succ_le_of_lt hklt)
    rw [Nat.succ_mul] at this
    rw [h.level.length]
    omega
  obtain ⟨more,hmore⟩ := hgrown i
  rw [h.calls k buf hk i f hf,← hmore,List.getElem?_append_left hin]

/-- A turn keeps the stream: a full temporary buffer is the next user buffer. -/
theorem Adapted.turn (h : Adapted s) (hq : s.todo = host :: rest) :
    Adapted (s.turn host rest .paContinue) := by
  obtain ⟨hle,hfit,_⟩ := frameCount_le s host h.room
  have hnodup := List.nodup_finRange c.inputChannelCount
  have hmem : ∀ i : c.Channel, i ∈ List.finRange c.inputChannelCount := List.mem_finRange
  obtain ⟨hframes,hresult,hcalls,hsupplied,hgrown⟩ :=
    convertChannels_frame s host (s.frameCount host) (List.finRange c.inputChannelCount)
  have htaken := fun i => convertChannels_taken s host (s.frameCount host) hnodup i
  have hlevel := h.level.convertChannels hnodup
    (fun _ _ => rfl) hle hfit (fun _ => Nat.le_of_lt h.room)
  simp only [hmem,if_true] at htaken hlevel
  dsimp only [State.turn]
  generalize s.convertChannels host (s.frameCount host) (List.finRange c.inputChannelCount) = u
    at *
  have hstream : ∀ i, u.supplied i = u.taken i ++
      (if host.frameCount - s.frameCount host > 0 then host.advance (s.frameCount host) :: rest
        else rest).flatMap (fun h => h.channel i) := by
    intro i
    rw [hsupplied,h.supplied,hq,todo_turn host rest (s.frameCount host),htaken,List.append_assoc]
  have hkept := h.kept hgrown
  by_cases hend : u.framesInTempInputBuffer + s.frameCount host = c.framesPerUserBuffer
  · simp only [State.finish,hend,if_true,hresult.trans h.result]
    rw [hframes] at hend
    rw [hend] at hlevel
    have hbase : (u.calls ++ [u.tempInputBuffer]).length * c.framesPerUserBuffer =
        s.calls.length * c.framesPerUserBuffer + c.framesPerUserBuffer := by
      rw [List.length_append,List.length_singleton,Nat.succ_mul,hcalls]
    refine ⟨c.frames,⟨?_,?_,hlevel.related⟩,?_,hstream,rfl⟩
    · intro i
      change (u.converted i).length = (u.calls ++ [u.tempInputBuffer]).length * _ + 0
      rw [hbase]
      exact hlevel.length i
    · intro i f hf
      cases hf
    · intro k buf hk i f hf
      change (u.calls ++ [u.tempInputBuffer])[k]? = some buf at hk
      rw [hcalls,List.getElem?_append] at hk
      split_ifs at hk with hold
      · exact hkept k buf hk i f hf
      · have hlt := (List.getElem?_eq_some_iff.mp hk).1
        obtain rfl := List.mem_singleton.mp (List.mem_of_getElem? hk)
        obtain rfl : k = s.calls.length := by
          rw [List.length_singleton] at hlt
          omega
        exact hlevel.held i f hf
  · simp only [State.finish,hend,if_false]
    rw [hframes] at hend ⊢
    refine ⟨by change _ + _ < _; omega,⟨?_,?_,hlevel.related⟩,?_,hstream,hresult.trans h.result⟩
    · intro i
      change (u.converted i).length = u.calls.length * _ + _
      rw [hcalls]
      exact hlevel.length i
    · intro i f hf
      change u.tempInputBuffer.items[c.dest i f]? = (u.converted i)[u.calls.length * _ + f]?
      rw [hcalls]
      exact hlevel.held i f hf
    · intro k buf hk
      rw [hcalls] at hk
      exact hkept k buf hk

theorem turn_supplied (s : State c) (host : HostBuffer c) (rest : List (HostBuffer c))
    (ret : CallbackResult) : (s.turn host rest ret).supplied = s.supplied := by
  have hsame := (convertChannels_frame s host (s.frameCount host)
    (List.finRange c.inputChannelCount)).2.2.2.1
  dsimp only [State.turn,State.finish]
  split_ifs
  · exact hsame
  · exact hsame
  · exact hsame

/-- The callback asks to go on. -/
def Continues : Act c → Prop
  | .process _ _ => True
  | .turn ret => ret = .paContinue

instance (a : Act c) : Decidable (Continues a) :=
  match a with
  | .process _ _ => inferInstanceAs (Decidable True)
  | .turn ret => inferInstanceAs (Decidable (ret = .paContinue))

theorem step_adapted (h : Adapted s) (ha : Continues a) (ht : step s a = some t) : Adapted t := by
  cases a with
  | process first second =>
    simp only [step,Option.ite_none_right_eq_some,Option.some.injEq] at ht
    obtain ⟨hempty,rfl⟩ := ht
    refine ⟨h.room,⟨h.level.length,h.level.held,h.level.related⟩,h.calls,?_,rfl⟩
    intro i
    have hnone := h.supplied i
    rw [List.isEmpty_iff.mp hempty,List.flatMap_nil,List.append_nil] at hnone
    change s.supplied i ++ _ = s.taken i ++ _
    rw [hnone]
  | turn ret =>
    obtain rfl : ret = .paContinue := ha
    simp only [step] at ht
    split at ht
    · cases ht
    · cases ht
      exact h.turn (by assumption)

theorem init_adapted : Adapted (system c temp dither).init := by
  refine ⟨c.frames,⟨?_,?_,fun _ => .nil⟩,?_,fun _ => rfl,rfl⟩
  · intro i
    exact (Nat.zero_mul _).symm
  · intro i f hf
    cases hf
  · intro k buf hk
    cases hk

theorem run_adapted (h : (system c temp dither).Run (fun _ a => Continues a) acts s) : Adapted s :=
  h.invariant init_adapted (fun _ _ _ hs ha ht => step_adapted hs ha ht)

/-- The frames and buffers still to be got through. -/
def work : List (HostBuffer c) → Nat
  | [] => 0
  | host :: rest => host.frameCount + 1 + work rest

theorem turn_todo (s : State c) (host : HostBuffer c) (rest : List (HostBuffer c))
    (ret : CallbackResult) : (s.turn host rest ret).todo =
      if host.frameCount - s.frameCount host > 0 then host.advance (s.frameCount host) :: rest
      else rest := rfl

theorem Adapted.work_turn (h : Adapted s) (host : HostBuffer c) (rest : List (HostBuffer c))
    (ret : CallbackResult) : work (s.turn host rest ret).todo < work (host :: rest) := by
  obtain ⟨hle,hfit,hfull⟩ := frameCount_le s host h.room
  have hroom := h.room
  rw [turn_todo]
  split_ifs with hmore
  · have := hfull (by omega)
    simp only [work,HostBuffer.advance]
    omega
  · simp only [work]
    omega

/-- A round ends: the turns of its loop use up the host buffers. -/
theorem round_ends (hr : (system c temp dither).Run (fun _ a => Continues a) acts s) :
    ∃ n t, (system c temp dither).Run (fun _ a => Continues a)
      (acts ++ List.replicate n (.turn .paContinue)) t ∧ t.todo = [] ∧ t.supplied = s.supplied := by
  induction hw : work s.todo using Nat.strong_induction_on generalizing acts s with
  | _ w ih =>
    cases hq : s.todo with
    | nil => exact ⟨0,s,by simpa using hr,hq,rfl⟩
    | cons host rest =>
      have hstep : step s (.turn .paContinue) = some (s.turn host rest .paContinue) := by
        simp only [step,hq]
      have hless := (run_adapted hr).work_turn host rest .paContinue
      rw [← hq,hw] at hless
      have hgo : Continues (c := c) (.turn .paContinue) := rfl
      obtain ⟨n,t,ht,hdone,hsame⟩ := ih _ hless (hr.next hgo hstep) rfl
      refine ⟨n + 1,t,?_,hdone,?_⟩
      · rwa [List.append_assoc,List.singleton_append,← List.replicate_succ] at ht
      · rw [hsame,turn_supplied]

/-- Whatever the sizes of the host buffers, as long as the callback goes on it gets
the stream in user buffers without a gap: the `k`-th holds the `k`-th run of
converted frames of every channel, the temporary buffer less than one more, and
every round ends with all it was given taken. -/
theorem blocks_adapted (h : (system c temp dither).Run (fun _ a => Continues a) acts s) :
    (∀ i, List.Forall₂ c.inputConverter.rel (s.taken i) (s.converted i) ∧
      (s.converted i).length = s.calls.length * c.framesPerUserBuffer + s.framesInTempInputBuffer) ∧
    s.framesInTempInputBuffer < c.framesPerUserBuffer ∧
    (∀ k buf, s.calls[k]? = some buf → ∀ i f, f < c.framesPerUserBuffer →
      buf.items[c.dest i f]? = (s.converted i)[k * c.framesPerUserBuffer + f]?) ∧
    ∃ n t, (system c temp dither).Run (fun _ a => Continues a)
      (acts ++ List.replicate n (.turn .paContinue)) t ∧ t.todo = [] ∧ t.taken = s.supplied := by
  have ha := run_adapted h
  refine ⟨fun i => ⟨ha.level.related i,ha.level.length i⟩,ha.room,ha.calls,?_⟩
  obtain ⟨n,t,ht,hdone,hsame⟩ := round_ends h
  refine ⟨n,t,ht,hdone,?_⟩
  funext i
  have hall := (run_adapted ht).supplied i
  rw [hdone,List.flatMap_nil,List.append_nil] at hall
  rw [← hall,hsame]

end

/-- Stereo samples in user buffers of two frames, not converted. -/
def pairs : Config Nat Nat Unit where
  framesPerUserBuffer := 2
  inputChannelCount := 2
  userInputIsInterleaved := true
  inputConverter := ⟨fun xs d => (xs,d),Eq,fun xs _ => List.forall₂_same.mpr (fun _ _ => rfl)⟩
  frames := by decide
  channels := by decide

/-- Three frames and then one give two user buffers. -/
theorem blocks_adapted_pairs :
    ∃ acts s, (system pairs ⟨[0,0,0,0],rfl⟩ ()).Run (fun _ a => Continues a) acts s ∧
      s.calls.map Buffer.items = [[1,10,2,20],[3,30,4,40]] ∧
      ∀ k buf, s.calls[k]? = some buf → ∀ i f, f < 2 →
        buf.items[pairs.dest i f]? = (s.converted i)[k * 2 + f]? := by
  let acts : List (Act pairs) := [.process ⟨![[1,2,3],[10,20,30]],3,by decide⟩ none,
    .turn .paContinue,.turn .paContinue,.process ⟨![[4],[40]],1,by decide⟩ none,.turn .paContinue]
  have hrun : ((system pairs ⟨[0,0,0,0],rfl⟩ ()).exec (fun _ a => Continues a)
      (system pairs ⟨[0,0,0,0],rfl⟩ ()).init acts).map (fun s => s.calls.map Buffer.items) =
        some [[1,10,2,20],[3,30,4,40]] := by decide +kernel
  obtain ⟨s,hs,hcalls⟩ := Option.map_eq_some_iff.mp hrun
  have hr := System.run_of_exec hs
  exact ⟨acts,s,hr,hcalls,(blocks_adapted hr).2.2.1⟩

end WifiSpeaker.Proofs.BlockAdaption
