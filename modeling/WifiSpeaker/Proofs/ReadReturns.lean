import WifiSpeaker.DataBufferCalls
import WifiSpeaker.Proofs.DataBufferShape

namespace WifiSpeaker.Proofs.ReadReturns
open Common DataBuffer DataBufferShape

/-- The slot the reader takes from next starts at its first byte. -/
def AtStart (r : Ring) : Prop :=
  (r.dataBuffer r.currentReadBuffer).dataBufferState = .prepared →
    (r.dataBuffer r.currentReadBuffer).used = 0

theorem AtStart.fill (h : AtStart r)
    (hf : (r.dataBuffer c.current).dataBufferState = .unprepared) : AtStart (r.fill c) := by
  intro hp
  change ((r.fill c).dataBuffer r.currentReadBuffer).used = 0
  change ((r.fill c).dataBuffer r.currentReadBuffer).dataBufferState = .prepared at hp
  rw [fill_slot] at hp ⊢
  split_ifs at hp ⊢ with he
  · rw [hf] at hp
    cases hp
  · exact h hp

theorem AtStart.commit (h : AtStart r) : AtStart (r.commit c) := by
  intro hp
  change ((r.commit c).dataBuffer r.currentReadBuffer).used = 0
  change ((r.commit c).dataBuffer r.currentReadBuffer).dataBufferState = .prepared at hp
  rw [commit_used]
  rw [commit_state] at hp
  by_cases hu : r.currentReadBuffer = ahead r.currentWriteBuffer 1 ∨ r.currentReadBuffer = c.current
  · rw [if_pos hu]
  · rw [if_neg (fun hc => hu (Or.inr hc))] at hp
    rw [if_neg hu]
    exact h hp

theorem release_atStart (r : Ring) (d : ReadCall) : AtStart (r.release d) := by
  intro _
  change ((r.release d).dataBuffer (ahead r.currentReadBuffer 1)).used = 0
  rw [release_used,if_pos (Or.inl rfl)]

/-- How far the open call is. Once it has released a slot it stands at the start
of the next one, a whole number of slots from where its first copy's slot began. -/
inductive Going (r : Ring) (l : ReadLog) (d : ReadCall) : Prop
  | fresh (none : l.copies = []) (size : d.size = l.size) (read : d.dataRead = 0)
  | across (some : l.copies = first :: rest) (read : d.dataRead = l.stored.length)
      (pos : 0 < d.dataRead) (left : 0 ≤ d.size) (size : d.dataRead + d.size = l.size)
      (whole : (lengthOfBuffer : Int) ∣ first.offset + d.dataRead) (start : AtStart r)

theorem Going.ring (h : Going r l d) (hs : AtStart r → AtStart r') : Going r' l d := by
  cases h with
  | fresh none size read => exact .fresh none size read
  | across some read pos left size whole start =>
    exact .across some read pos left size whole (hs start)

/-- The call returns the number of bytes it stored, and stored all that was asked for. -/
def Reported (ret : Return) : Prop :=
  ret.value = ret.call.stored.length ∧ (ret.call.stored.length : Int) = ret.call.size

/-- The requested bytes, counted from where the first copy starts in its slot,
do not end at the end of a slot. -/
def EndsInside (l : ReadLog) : Prop :=
  ∀ first ∈ l.copies.head?, ¬ (lengthOfBuffer : Int) ∣ first.offset + l.size

theorem length_copy (h : Shape r) (d : ReadCall) (h0 : 0 ≤ n) (hn : n ≤ r.remain d.current) :
    ((d.copy r n).bytes.length : Int) = n := by
  have ho := h.offsets d.current
  have hz := h.sized d.current
  simp only [Ring.remain] at hn
  simp only [ReadCall.copy,List.length_take,List.length_drop]
  omega

theorem stored_snoc (l : ReadLog) (copy : Copy) :
    ({ l with copies := l.copies ++ [copy] } : ReadLog).stored.length =
      l.stored.length + copy.bytes.length := by
  simp [ReadLog.stored]

/-- The exit at the bottom of the loop. -/
theorem Going.returned (h : Going r l d) (hz : d.size ≤ 0) (hl : 0 ≤ l.size) :
    Reported ⟨l,0⟩ ↔ EndsInside l := by
  cases h with
  | fresh none size read => simp [Reported,EndsInside,ReadLog.stored,none]; omega
  | @across first rest some read pos left size whole start =>
    have hend : l.size = d.dataRead := by omega
    constructor
    · rintro ⟨hv,-⟩
      change (0 : Int) = l.stored.length at hv
      omega
    · intro he
      exact absurd (hend ▸ whole) (he first (by simp [some]))

/-- The exit inside a slot. -/
theorem Going.consumed (h : Going r l d) (hr : Shape r) (hd : d.current = r.currentReadBuffer)
    (hp : (r.dataBuffer d.current).dataBufferState = .prepared)
    (hz : 0 < d.size) (hf : d.size < r.remain d.current) :
    Reported ⟨{ l with copies := l.copies ++ [d.copy r d.size] },d.dataRead + d.size⟩ ∧
      EndsInside { l with copies := l.copies ++ [d.copy r d.size] } := by
  have hlen := length_copy hr d (Int.le_of_lt hz) (Int.le_of_lt hf)
  have ho := hr.offsets d.current
  cases h with
  | fresh none size read =>
    refine ⟨⟨?_,?_⟩,?_⟩
    · rw [stored_snoc]
      simp [none,ReadLog.stored,read,hlen]
    · rw [stored_snoc]
      simp [none,ReadLog.stored,hlen,← size]
    · intro first hm hdvd
      obtain rfl : d.copy r d.size = first := by simpa [none] using hm
      simp only [Ring.remain] at hf
      have := Int.le_of_dvd (by simp only [ReadCall.copy]; omega) hdvd
      simp only [ReadCall.copy] at this
      omega
  | @across first rest some read pos left size whole start =>
    have hu : (r.dataBuffer d.current).used = 0 := by
      rw [hd] at hp ⊢
      exact start hp
    simp only [Ring.remain,hu] at hf
    refine ⟨⟨?_,?_⟩,?_⟩
    · rw [stored_snoc]
      simp only [Int.natCast_add,hlen,← read]
    · rw [stored_snoc]
      simp only [Int.natCast_add,hlen,← read,size]
    · intro first' hm hdvd
      obtain rfl : first = first' := by simpa [some] using hm
      have hlast : (lengthOfBuffer : Int) ∣ first.offset + d.dataRead + d.size := by
        rwa [Int.add_assoc,size]
      have := Int.le_of_dvd hz ((Int.dvd_add_right whole).mp hlast)
      omega

/-- A pass that empties its slot. -/
theorem Going.released (h : Going r l d) (hr : Shape r) (hd : d.current = r.currentReadBuffer)
    (hp : (r.dataBuffer d.current).dataBufferState = .prepared) (hb : r.remain d.current ≤ d.size) :
    Going (r.release d) { l with copies := l.copies ++ [d.copy r (r.remain d.current)] }
      ⟨next,d.size - r.remain d.current,d.dataRead + r.remain d.current⟩ := by
  have hpos := hr.remain_pos d.current
  have hlen := length_copy hr d (Int.le_of_lt hpos) (Int.le_refl _)
  cases h with
  | fresh none size read =>
    refine .across (congrArg (· ++ _) none) ?_ ?_ ?_ ?_ ?_ (release_atStart r d)
    · rw [stored_snoc]
      simp [none,ReadLog.stored,hlen,read]
    · simpa [read] using hpos
    · simpa using hb
    · dsimp only
      omega
    · simp only [ReadCall.copy,Ring.remain,read]
      exact ⟨1,by omega⟩
  | @across first rest some read pos left size whole start =>
    have hu : (r.dataBuffer d.current).used = 0 := by
      rw [hd] at hp ⊢
      exact start hp
    have hrem : r.remain d.current = lengthOfBuffer := by simp [Ring.remain,hu]
    refine .across (congrArg (· ++ _) some) ?_ ?_ ?_ ?_ ?_ (release_atStart r d)
    · rw [stored_snoc]
      simp only [Int.natCast_add,hlen,← read]
    · dsimp only
      omega
    · simpa using hb
    · dsimp only
      omega
    · dsimp only
      rw [← Int.add_assoc,hrem]
      exact Int.dvd_add whole (Int.dvd_refl _)

/-- The open call's progress, and every closed call judged. -/
structure Judged (s : Recorded) : Prop where
  base : Shaped s.base
  going : ∀ d, s.base.reader = some d → Going s.base.ring s.call d
  returns : ∀ ret ∈ s.returns, 0 ≤ ret.call.size → (Reported ret ↔ EndsInside ret.call)

theorem Judged.write (h : Judged s) (ht : Shaped t) (hr : t.reader = s.base.reader)
    (hs : AtStart s.base.ring → AtStart t.ring) : Judged { s with base := t } := by
  refine ⟨ht,?_,h.returns⟩
  intro d hd
  exact (h.going d (hr ▸ hd)).ring hs

theorem Judged.close (h : Judged s) (ht : Shaped t) (hr : t.reader = none)
    (hret : 0 ≤ l.size → (Reported ⟨l,value⟩ ↔ EndsInside l)) :
    Judged ⟨t,l,s.returns ++ [⟨l,value⟩]⟩ := by
  refine ⟨ht,?_,?_⟩
  · intro d hd
    rw [hr] at hd
    cases hd
  · intro ret hm
    rcases List.mem_append.mp hm with hm | hm
    · exact h.returns ret hm
    · cases List.mem_singleton.mp hm
      exact hret

theorem step_judged (h : Judged s) (ht : recorded.step s a = some t) : Judged t := by
  obtain ⟨u,hu,rfl⟩ := Option.map_eq_some_iff.mp ht
  have hs : Shaped u := step_shaped h.base hu
  cases step_move hu with
  | callWrite => exact h.write hs rfl id
  | returnWrite => exact h.write hs rfl id
  | fill call more free fits => exact h.write hs rfl (fun hst => hst.fill free)
  | commit => exact h.write hs rfl AtStart.commit
  | callRead =>
    refine ⟨hs,?_,h.returns⟩
    intro d hd
    cases hd
    exact .fresh rfl rfl rfl
  | @returnRead d call done =>
    have hrec : record s { s.base with reader := none } .passRead =
        ⟨{ s.base with reader := none },s.call,s.returns ++ [⟨s.call,0⟩]⟩ := by
      simp [record,call,readPass,done]
    rw [hrec]
    exact h.close hs rfl ((h.going d call).returned done)
  | @consume d call more ready fits =>
    have hpass := (ReadPass.consume more ready fits).takes
    simp only [record,call,Option.bind_some,hpass,Option.toList_some]
    obtain ⟨hrep,hend⟩ :=
      (h.going d call).consumed h.base.ring (h.base.reader d call) ready more fits
    exact h.close hs rfl (fun _ => iff_of_true hrep hend)
  | @release d call more ready beyond =>
    have hpass := (ReadPass.release more ready beyond).takes
    simp only [record,call,Option.bind_some,hpass,Option.toList_some]
    refine ⟨hs,?_,h.returns⟩
    intro d' hd'
    cases hd'
    exact (h.going d call).released h.base.ring (h.base.reader d call) ready beyond

theorem init_judged : Judged recorded.init := ⟨init_shaped,nofun,by intro ret hm; cases hm⟩

/-- A read reports what it stored unless its last byte is the last of a slot:
then the loop ends at its head and the call returns 0. -/
theorem read_reports (h : recorded.Reaches s) (hm : ret ∈ s.returns) (hz : 0 ≤ ret.call.size) :
    Reported ret ↔ EndsInside ret.call := by
  have hj := h.invariant init_judged (fun _ _ _ => step_judged)
  exact hj.returns ret hm hz

/-- One slot is written, and a read of the given size follows. -/
def slotThenRead (size : Int) : List Act :=
  [.callWrite (List.replicate 5120 7) 5120,.passWrite,.passWrite,.callRead size,.passRead,.passRead]

theorem read_of_slot_reports_zero :
    ¬ ∀ s, recorded.Reaches s → ∀ ret ∈ s.returns, 0 ≤ ret.call.size → Reported ret := by
  intro hall
  have hrun : ((recorded.exec (fun _ _ => True) recorded.init (slotThenRead 5120)).map
      (fun s => s.returns.map (fun ret => (ret.call.size,ret.value,ret.call.stored.length)))) =
        some [(5120,0,5120)] := by decide +kernel
  obtain ⟨s,hs,hret⟩ := Option.map_eq_some_iff.mp hrun
  obtain ⟨ret,hm,he⟩ := List.mem_map.mp (hret ▸ List.mem_singleton_self _)
  simp only [Prod.mk.injEq] at he
  obtain ⟨hsize,hval,hlen⟩ := he
  have := (hall s (System.run_of_exec hs).reaches ret hm (by omega)).1
  omega

/-- A read of one byte less reports it. -/
theorem read_reports_inside :
    ∃ s ret, recorded.Reaches s ∧ ret ∈ s.returns ∧ ret.call.size = 5119 ∧ Reported ret := by
  have hrun : ((recorded.exec (fun _ _ => True) recorded.init
      ((slotThenRead 5119).take 5)).map (fun s => s.returns.map (fun ret =>
        (ret.call.size,ret.call.copies.map Copy.offset)))) = some [(5119,[0])] := by decide +kernel
  obtain ⟨s,hs,hret⟩ := Option.map_eq_some_iff.mp hrun
  obtain ⟨ret,hm,he⟩ := List.mem_map.mp (hret ▸ List.mem_singleton_self _)
  simp only [Prod.mk.injEq] at he
  obtain ⟨hsize,hoff⟩ := he
  have hreach := (System.run_of_exec hs).reaches
  refine ⟨s,ret,hreach,hm,hsize,(read_reports hreach hm (by omega)).mpr ?_⟩
  intro first hf
  have hzero : first.offset = 0 := by
    have := List.mem_map_of_mem (f := Copy.offset) (List.mem_of_mem_head? hf)
    rw [hoff] at this
    exact List.mem_singleton.mp this
  rw [hzero,hsize]
  decide

end WifiSpeaker.Proofs.ReadReturns
