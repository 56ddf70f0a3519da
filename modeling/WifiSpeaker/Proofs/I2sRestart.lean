import WifiSpeaker.Proofs.I2sOrder

namespace WifiSpeaker.Proofs.I2sRestart
open Common I2s I2sStores I2sOrder

section
variable {c : Config} {s t u : State c} {acts : List (Act c)} {h d k : Nat}

/-- Between two interrupts the queue ends with the buffer before the one the DMA is on. -/
theorem Ring.between (hr : Ring s h) (he : s.outEof = none) :
    s.queue = (List.range' h s.queue.length).map (turn c) ∧
      s.played.length = h + s.queue.length ∧ s.queue.length ≤ c.queueLength := by
  have hsent : sent s = s.played.length := by simp [sent,he]
  have hlen := hr.length
  have hlow := hr.low
  have hhigh := hr.high
  rw [hsent] at hlen hlow hhigh
  refine ⟨?_,by omega,by omega⟩
  rw [hlen,← hsent]
  exact hr.queue

/-- A buffer is fetched, and the interrupt hands it over. -/
def served (s : State c) : List (Act c) :=
  List.replicate c.bufSize .fetch ++
    .interrupt :: ((if s.queue.length = c.queueLength then [.isrDrop] else []) ++
      [.isrSend,.isrClear])

/-- The DMA is never on a buffer that is free for the task. -/
theorem Ring.not_free (hr : Ring s h) (he : s.outEof = none) : s.desc ∉ s.queue := by
  obtain ⟨hq,hp,hl⟩ := Ring.between hr he
  have hcount := queueLength_succ c
  intro hm
  rw [hq,List.mem_map] at hm
  obtain ⟨d,hd,hturn⟩ := hm
  obtain ⟨hd₀,hd₁⟩ := List.mem_range'_1.mp hd
  rw [hr.desc] at hturn
  have := turn_inj (n := h) ⟨hd₀,by omega⟩ ⟨by omega,by omega⟩ hturn
  omega

end

end WifiSpeaker.Proofs.I2sRestart
