import Mathlib.Data.List.Induction
import WifiSpeaker.Proofs.Framing
import WifiSpeaker.RenderSamples

namespace WifiSpeaker.Proofs.RenderDivisors
open Common Wire PrcessCharacter RenderSamples Framing

/-- Both divisors of `render_samples` are nonzero. -/
def Divides (wfx : WaveFormatEx) : Prop := bufBytesPerSample wfx ≠ 0 ∧ wfx.nChannels ≠ 0

instance (wfx : WaveFormatEx) : Decidable (Divides wfx) := inferInstanceAs (Decidable (_ ∧ _))

theorem divides_of_returns (h : ¬ Traps wfx) : Divides wfx := by
  simp only [Traps,not_or] at h
  exact h.2

/-- Every length word of the stream, each behind complete frames and its
command, is 20 for a header and at most 16384 for data. -/
def LengthsExact (input : List UInt8) : Prop :=
  ∀ fs c n rest, input = frames fs ++ (le32 c ++ (le32 n ++ rest)) →
    (c = TcpCommand.sendHeader.code → n.toNat = sizeofWaveFormatEx) ∧
    (c = TcpCommand.sendData.code → n.toNat ≤ sizeofBuffer)

/-- The format the last header of some frames spells. -/
def lastHeader (fs : List Frame) : Option WaveFormatEx :=
  (fs.filterMap (fun
    | .header _ body _ => some (WaveFormatEx.ofBytes body)
    | _ => none)).getLast?

/-- Each data frame of the stream, behind frames whose calls come back, is under a
header, if any, that divides. -/
def HeadersDivide (wfx : WaveFormatEx) (input : List UInt8) : Prop :=
  ∀ fs n body fits rest, input = frames (fs ++ [.data n body fits]) ++ rest → Returns wfx fs →
    ∀ w ∈ lastHeader fs, Divides w

theorem lastHeader_snoc (fs : List Frame) (f : Frame) :
    lastHeader (fs ++ [f]) = match f with
      | .header _ body _ => some (WaveFormatEx.ofBytes body)
      | _ => lastHeader fs := by
  cases f <;> simp [lastHeader]

theorem default_divides (wfx : WaveFormatEx) : Divides (defaultWfx wfx) := by
  change (16 / 8 : UInt16).toUInt8 ≠ 0 ∧ (2 : UInt16) ≠ 0
  decide

/-- With headers of full length, the global holds the last one. -/
theorem formatAfter_eq (hl : LengthsExact input) (hi : input = frames fs ++ rest) :
    formatAfter wfx fs = (lastHeader fs).getD wfx := by
  induction fs using List.reverseRecOn generalizing rest with
  | nil => rfl
  | append_singleton fs f ih =>
    rw [frames_snoc,List.append_assoc] at hi
    rw [formatAfter_snoc,ih hi,lastHeader_snoc]
    cases f with
    | other => rfl
    | data => rfl
    | header n body fits =>
      have hn := (hl fs TcpCommand.sendHeader.code n (body ++ rest) (by
        rw [hi]
        simp [Frame.encode])).1 rfl
      have hb : body.length = sizeofWaveFormatEx := by
        rw [fits,signed_eq,hn]
        rfl
      simp only [Frame.format,Option.getD_some]
      rw [Object.write_whole _ hb]

section Stream
variable {junk : Task} {wfx : WaveFormatEx} {input : List UInt8}

theorem reaches_divides (hl : LengthsExact input) (hd : HeadersDivide (defaultWfx wfx) input)
    (h : (receiver junk wfx input).Reaches r) : ∀ call ∈ r.renders, Divides call.bufDesc := by
  obtain ⟨fs,ha⟩ := reaches_arrived h
  intro call hc
  have hm := List.mem_map_of_mem (f := heard) hc
  rw [ha.renders] at hm
  rcases List.eq_nil_or_concat fs with rfl | ⟨gs,f,rfl⟩
  · cases hm
  · have hret := ha.returns
    have hi := ha.position.1
    rw [List.concat_eq_append] at hm hi hret
    rw [List.dropLast_concat] at hret
    rw [heardAfter_snoc] at hm
    rcases List.mem_append.mp hm with hm | hm
    · have hback : ¬ Traps (heard call).format := hret (heard call) hm
      exact divides_of_returns hback
    · -- the call of the last frame, which may not come back
      cases f with
      | other | header => cases hm
      | data n body fits =>
        simp only [Frame.heard,List.mem_singleton] at hm
        have hformat : (heard call).format = formatAfter (defaultWfx wfx) gs := by rw [hm]
        have hgs := hi
        rw [frames_snoc,List.append_assoc] at hgs
        rw [formatAfter_eq hl hgs] at hformat
        change Divides (heard call).format
        rw [hformat]
        cases hlast : lastHeader gs with
        | none => exact default_divides wfx
        | some w => exact hd gs n body fits _ hi hret w hlast

theorem headers_of_divides (hl : LengthsExact input)
    (h : ∀ r, (receiver junk wfx input).Reaches r → ∀ call ∈ r.renders, Divides call.bufDesc) :
    HeadersDivide (defaultWfx wfx) input := by
  intro fs n body fits rest hi hret w hw
  obtain ⟨r,hr,_,_,hh⟩ := reaches_frames junk wfx _ (by rwa [List.dropLast_concat]) hi
  rw [heardAfter_snoc] at hh
  have hm : (⟨body.take sizeofBuffer,body.length,n,formatAfter (defaultWfx wfx) fs⟩ : Heard) ∈
      r.renders.map heard := by
    rw [hh]
    exact List.mem_append_right _ (List.mem_singleton_self _)
  obtain ⟨call,hc,he⟩ := List.mem_map.mp hm
  have hdesc : call.bufDesc = w := by
    have := congrArg Heard.format he
    rw [frames_snoc,List.append_assoc] at hi
    rw [formatAfter_eq hl hi,hw] at this
    exact this
  rw [← hdesc]
  exact h r hr call hc

/-- On a stream with lengths as the protocol has them, no call of
`render_samples` divides by zero exactly if no data frame the loop gets to is under
a header whose channel count or cut byte width is zero. -/
theorem divisors_nonzero_iff (hl : LengthsExact input) :
    (∀ r, (receiver junk wfx input).Reaches r → ∀ call ∈ r.renders,
      bufBytesPerSample call.bufDesc ≠ 0 ∧ call.bufDesc.nChannels ≠ 0) ↔
        HeadersDivide (defaultWfx wfx) input :=
  ⟨headers_of_divides hl,fun hd _ => reaches_divides hl hd⟩

end Stream

/-- Frames as the protocol has them make a stream with such lengths. -/
theorem exact_of_frames (h : ∀ f ∈ fs, ∀ c n, f.opening = some (c,n) →
    (c = TcpCommand.sendHeader.code → n.toNat = sizeofWaveFormatEx) ∧
    (c = TcpCommand.sendData.code → n.toNat ≤ sizeofBuffer)) : LengthsExact (frames fs) := by
  intro gs c n rest hi
  constructor
  · intro hc
    obtain ⟨f,hf,ho⟩ := opening_mem hi.symm (Or.inl hc)
    exact (h f hf c n ho).1 hc
  · intro hc
    obtain ⟨f,hf,ho⟩ := opening_mem hi.symm (Or.inr hc)
    exact (h f hf c n ho).2 hc

/-- A header for 16 bits and no channel, then an empty data frame. -/
def silentFrames : List Frame :=
  [.header 20 (WaveFormatEx.toBytes { bootWfx with wBitsPerSample := 16 }) (by decide),
    .data 0 [] (by decide)]

theorem silentFrames_exact : LengthsExact (frames silentFrames) := by
  apply exact_of_frames
  intro f hf c n ho
  simp only [silentFrames,List.mem_cons,List.not_mem_nil,or_false] at hf
  rcases hf with rfl | rfl
  · cases ho
    decide
  · cases ho
    decide

/-- The empty frame after the header divides by its channel count, zero. -/
theorem silentFrames_divide_by_zero :
    LengthsExact (frames silentFrames) ∧
    ¬ ∀ r, (receiver zeroStack bootWfx (frames silentFrames)).Reaches r → ∀ call ∈ r.renders,
      bufBytesPerSample call.bufDesc ≠ 0 ∧ call.bufDesc.nChannels ≠ 0 := by
  refine ⟨silentFrames_exact,?_⟩
  intro h
  have hd := headers_of_divides silentFrames_exact h [silentFrames[0]] 0 [] (by decide) []
    (by simp [silentFrames]) nofun { bootWfx with wBitsPerSample := 16 } (by decide)
  exact hd.2 rfl

/-- Frames whose headers all divide. -/
theorem divide_of_frames (h : ∀ n body fits, .header n body fits ∈ gs →
    Divides (WaveFormatEx.ofBytes body)) : HeadersDivide wfx (frames gs) := by
  intro fs n body fits rest hi _ w hw
  have hp := frames_prefix hi.symm
  obtain ⟨f,hf,he⟩ := List.mem_filterMap.mp (List.mem_of_mem_getLast? hw)
  cases f with
  | other | data => cases he
  | header n body fits =>
    cases he
    exact h n body fits (hp.subset (List.mem_append_left _ hf))

/-- A header for 16-bit stereo at 22050 Hz, then a frame of sound. -/
def stereoFrames : List Frame :=
  [.header 20 (WaveFormatEx.toBytes ⟨1,2,22050,88200,4,16,0,0⟩) (by decide),
    .data 4 [1,2,3,4] (by decide)]

theorem divisors_nonzero_iff_stereoFrames :
    LengthsExact (frames stereoFrames) ∧ HeadersDivide (defaultWfx bootWfx) (frames stereoFrames) ∧
    (∀ r, (receiver zeroStack bootWfx (frames stereoFrames)).Reaches r → ∀ call ∈ r.renders,
      bufBytesPerSample call.bufDesc ≠ 0 ∧ call.bufDesc.nChannels ≠ 0) ∧
    ∃ r, (receiver zeroStack bootWfx (frames stereoFrames)).Reaches r ∧ r.renders.length = 1 := by
  have hl : LengthsExact (frames stereoFrames) := by
    apply exact_of_frames
    intro f hf c n ho
    simp only [stereoFrames,List.mem_cons,List.not_mem_nil,or_false] at hf
    rcases hf with rfl | rfl
    · cases ho
      decide
    · cases ho
      decide
  have hd : HeadersDivide (defaultWfx bootWfx) (frames stereoFrames) := by
    apply divide_of_frames
    intro n body fits hf
    simp only [stereoFrames,List.mem_cons,List.not_mem_nil,or_false,reduceCtorEq,
      Frame.header.injEq] at hf
    rw [hf.2,WaveFormatEx.ofBytes_toBytes]
    decide
  refine ⟨hl,hd,(divisors_nonzero_iff hl).mpr hd,?_⟩
  have hret : Returns (defaultWfx bootWfx) stereoFrames.dropLast := by
    intro h hm
    cases hm
  obtain ⟨r,hr,-,-,hh⟩ := reaches_frames zeroStack bootWfx stereoFrames hret
    (List.append_nil _).symm
  refine ⟨r,hr,?_⟩
  have := congrArg List.length hh
  rwa [List.length_map] at this

end WifiSpeaker.Proofs.RenderDivisors
