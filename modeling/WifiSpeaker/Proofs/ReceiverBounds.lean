import WifiSpeaker.Proofs.Framing

namespace WifiSpeaker.Proofs.ReceiverBounds
open Common Wire PrcessCharacter Framing

/-- A read asks for no more than its destination holds; a call of
`render_samples` claims no more than the read before it delivered. -/
def Safe : Event → Prop
  | .read dest size => size ≤ dest.size
  | .render call => call.bufLen.toNat ≤ call.filled
  | .log _ => True

/-- The length words of a stream, each behind its command and complete frames whose
calls come back, fit the destinations. A header length past `INT_MAX` asks for
nothing. -/
def LengthsFit (wfx : WaveFormatEx) (input : List UInt8) : Prop :=
  ∀ fs c n rest, input = frames fs ++ (le32 c ++ (le32 n ++ rest)) → Returns wfx fs →
    (c = TcpCommand.sendHeader.code → n.toNat ≤ sizeofWaveFormatEx ∨ 2 ^ 31 ≤ n.toNat) ∧
    (c = TcpCommand.sendData.code → n.toNat ≤ sizeofBuffer)

theorem signed_le (w : UInt32) (k : Nat) (hk : k < 2 ^ 31) :
    signed w ≤ k ↔ w.toNat ≤ k ∨ 2 ^ 31 ≤ w.toNat := by
  have := w.toNat_lt
  rw [signed_eq]
  split_ifs <;> omega

theorem signed_toNat (h : n.toNat < 2 ^ 31) : (signed n).toNat = n.toNat := by
  rw [signed_eq,if_pos h,Int.toNat_natCast]

theorem logIf_safe (c : Prop) [Decidable c] (line : Log) : ∀ e ∈ logIf c line, Safe e := by
  intro e he
  unfold logIf at he
  split at he
  · cases List.mem_singleton.mp he
    trivial
  · cases he

theorem headerLengthLogs_safe (v : Int) (n : UInt32) : ∀ e ∈ headerLengthLogs v n, Safe e := by
  intro e he
  rcases List.mem_append.mp he with he | he
  · exact logIf_safe _ _ e he
  · exact logIf_safe _ _ e he

theorem dataLengthLogs_safe (v : Int) (n : UInt32) : ∀ e ∈ dataLengthLogs v n, Safe e := by
  intro e he
  rcases List.mem_append.mp he with he | he
  · rcases List.mem_append.mp he with he | he
    · exact logIf_safe _ _ e he
    · exact logIf_safe _ _ e he
  · exact logIf_safe _ _ e he

theorem step_safe (hf : LengthsFit wfx input) (hp : Position input wfx fs r)
    (hret : Returns wfx fs) (hs : ∀ e ∈ r.trace, Safe e) (ht : Receiver.step r v = some r') :
    ∀ e ∈ r'.trace, Safe e := by
  obtain ⟨hi,_⟩ := hp
  intro e he
  cases step_move ht with
  | other | openHeader | openData =>
    rcases List.mem_append.mp he with he | he
    · exact hs e he
    · cases List.mem_singleton.mp he
      exact Int.le_refl 4
  | @headerLength n rest spot arrived =>
    rcases List.mem_append.mp he with he | he
    · exact hs e he
    · rcases List.mem_append.mp he with he | he
      · exact headerLengthLogs_safe v n e he
      · cases List.mem_singleton.mp he
        have := hf fs TcpCommand.sendHeader.code n rest (by
          rw [hi,arrived]
          simp [opened,spot]) hret
        exact (signed_le n _ (by decide)).mpr (this.1 rfl)
  | @dataLength n rest spot arrived =>
    rcases List.mem_append.mp he with he | he
    · exact hs e he
    · rcases List.mem_append.mp he with he | he
      · exact dataLengthLogs_safe v n e he
      · cases List.mem_singleton.mp he
        have := hf fs TcpCommand.sendData.code n rest (by
          rw [hi,arrived]
          simp [opened,spot]) hret
        exact (signed_le n _ (by decide)).mpr (Or.inl (this.2 rfl))
  | @header body rest spot arrived fits =>
    rcases List.mem_append.mp he with he | he
    · exact hs e he
    · rcases List.mem_append.mp he with he | he
      · exact logIf_safe _ _ e he
      · cases List.mem_singleton.mp he
        exact Int.le_refl 4
  | @data body rest spot arrived fits =>
    rcases List.mem_append.mp he with he | he
    · exact hs e he
    · rcases List.mem_append.mp he with he | he
      · rcases List.mem_append.mp he with he | he
        · exact logIf_safe _ _ e he
        · cases List.mem_singleton.mp he
          have := (hf fs TcpCommand.sendData.code r.task.lengthData (body ++ rest) (by
            rw [hi,arrived]
            simp [opened,spot]) hret).2 rfl
          have hlt : r.task.lengthData.toNat < 2 ^ 31 := Nat.lt_of_le_of_lt this (by decide)
          change r.task.lengthData.toNat ≤ body.length
          rw [fits,signed_toNat hlt]
      · cases List.mem_singleton.mp he
        exact Int.le_refl 4

section Stream
variable {junk : Task} {wfx : WaveFormatEx} {input : List UInt8}

theorem reaches_safe (hf : LengthsFit (defaultWfx wfx) input)
    (h : (receiver junk wfx input).Reaches r) : ∀ e ∈ r.trace, Safe e := by
  have hboth := h.invariant
    (P := fun r => (∃ fs, Arrived input (defaultWfx wfx) fs r) ∧ ∀ e ∈ r.trace, Safe e)
    ⟨reaches_arrived (.init _),by
      intro e he
      cases List.mem_singleton.mp he
      exact Int.le_refl 4⟩
    (fun r v t hr ht => by
      obtain ⟨⟨fs,hp⟩,hs⟩ := hr
      obtain ⟨more,hp'⟩ := next_arrived hp ht
      obtain ⟨hn,r',hr',rfl⟩ := next_some ht
      refine ⟨⟨fs ++ more,hp'⟩,?_⟩
      intro e he
      exact step_safe hf hp.position (hp.returned hn) hs hr' e
        ((settled_trace hr').subset he))
  exact hboth.2

theorem fit_of_safe
    (h : ∀ r, (receiver junk wfx input).Reaches r → ∀ e ∈ r.trace, Safe e) :
    LengthsFit (defaultWfx wfx) input := by
  intro fs c n rest hi hret
  obtain ⟨r,hr,hp,hin,hh⟩ := reaches_frames junk wfx fs
    (fun k hk => hret k (heardAfter_dropLast hk)) hi
  have hb : Returned r := (returned_iff hh).mpr hret
  constructor
  · rintro rfl
    obtain ⟨hopen,hb₁⟩ := next_inside (v := 0) hb (.openHeader hp hin) (by
      simp [Receiver.renders])
    obtain ⟨hlen,-⟩ := next_inside (v := 0) hb₁ (.headerLength rfl rfl) (by
      simp only [Receiver.renders,headerLengthLogs,rendersOf_append,rendersOf_read,
        rendersOf_logIf,List.append_nil])
    have hs := h _ ((hr.step hopen).step hlen) (.read .wfx (signed n)) (by simp)
    exact (signed_le n _ (by decide)).mp hs
  · rintro rfl
    obtain ⟨hopen,hb₁⟩ := next_inside (v := 0) hb (.openData hp hin) (by
      simp [Receiver.renders])
    obtain ⟨hlen,hb₂⟩ := next_inside (v := 0) hb₁ (.dataLength rfl rfl) (by
      simp only [Receiver.renders,dataLengthLogs,rendersOf_append,rendersOf_read,
        rendersOf_logIf,List.append_nil])
    have hopened := (hr.step hopen).step hlen
    have hs := h _ hopened (.read .buffer (signed n)) (by simp)
    rcases (signed_le n _ (by decide)).mp hs with hle | hbig
    · exact hle
    · -- the read takes nothing, and `render_samples` is still told the whole length
      have hneg : (signed n).toNat = 0 := by
        have := n.toNat_lt
        rw [signed_eq]
        split_ifs <;> omega
      have hdata := hopened.step (next_of_move (v := 0) hb₂
        (.data rfl (List.nil_append _).symm (by simp [hneg])))
      have hsafe := h _ hdata (.render ⟨r.task.buffer.write [],n,r.wfx,0⟩) (render_settled
        (move_step (.data rfl (List.nil_append _).symm (by simp [hneg]))) (by simp))
      change n.toNat ≤ 0 at hsafe
      omega

/-- Every read stays inside its destination and every call of `render_samples`
inside what was read, exactly for the streams whose lengths fit as far as the loop
gets. -/
theorem reads_inside_iff :
    (∀ r, (receiver junk wfx input).Reaches r → ∀ e ∈ r.trace, Safe e) ↔
      LengthsFit (defaultWfx wfx) input :=
  ⟨fit_of_safe,fun hf _ => reaches_safe hf⟩

end Stream

/-- `SEND_DATA` with length 16385, one more than `buffer` holds. -/
theorem data_length_overruns :
    ¬ ∀ r, (receiver zeroStack bootWfx [2,0,0,0,1,64,0,0]).Reaches r → ∀ e ∈ r.trace, Safe e := by
  intro h
  have hfit := fit_of_safe h [] TcpCommand.sendData.code 16385 [] (by decide) nofun
  exact absurd (hfit.2 rfl) (by decide)

end WifiSpeaker.Proofs.ReceiverBounds
