import WifiSpeaker.DataBufferCalls
import WifiSpeaker.Proofs.DataBufferShape

namespace WifiSpeaker.Proofs.Segmentation
open Common DataBuffer DataBufferShape

/-- What the first pass of a write decides about its end. -/
theorem writeEnds_iff : WriteEnds r c t e ↔
    match writePass r c with
    | none => t = r ∧ e = .spins
    | some (r₁,none,_) => t = r₁ ∧ e = .returned
    | some (r₁,some c₁,_) => WriteEnds r₁ c₁ t e := by
  constructor
  · intro h
    cases h with
    | returned pass => simp [pass]
    | spins pass => simp [pass]
    | more pass rest => simpa [pass] using rest
  · intro h
    split at h
    · rename_i pass
      obtain ⟨rfl,rfl⟩ := h
      exact .spins pass
    · rename_i pass
      obtain ⟨rfl,rfl⟩ := h
      exact .returned pass
    · rename_i pass
      exact .more pass h

/-- What the first pass of a read decides about its end. -/
theorem readEnds_iff : ReadEnds r d t bytes e ↔
    match readPass r d with
    | none => t = r ∧ bytes = [] ∧ e = .spins
    | some (r₁,.inr _,copy) => t = r₁ ∧ bytes = copy.toList.flatMap Copy.bytes ∧ e = .returned
    | some (r₁,.inl d₁,copy) => ∃ rest,
        bytes = copy.toList.flatMap Copy.bytes ++ rest ∧ ReadEnds r₁ d₁ t rest e := by
  constructor
  · intro h
    cases h with
    | returned pass => simp [pass]
    | spins pass => simp [pass]
    | more pass rest =>
      simp only [pass]
      exact ⟨_,rfl,rest⟩
  · intro h
    split at h
    · rename_i pass
      obtain ⟨rfl,rfl,rfl⟩ := h
      exact .spins pass
    · rename_i pass
      obtain ⟨rfl,rfl,rfl⟩ := h
      exact .returned pass
    · rename_i pass
      obtain ⟨rest,rfl,h⟩ := h
      exact .more pass h

section Writing
variable {r : Ring} {data : List UInt8} {t : Ring} {e : Ending}

/-- The call a write of the whole data starts with. -/
def whole (r : Ring) (data : List UInt8) : WriteCall := bufferWriteData r data data.length

theorem writes_nil : Writes r [] t e ↔ t = r ∧ e = .returned := by
  rw [Writes,writeEnds_iff]
  simp [writePass,bufferWriteData]

theorem writes_full (hne : data ≠ [])
    (hp : (r.dataBuffer r.currentWriteBuffer).dataBufferState = .prepared) :
    Writes r data t e ↔ t = r ∧ e = .spins := by
  rw [Writes,writeEnds_iff]
  simp [writePass,bufferWriteData,hp,hne]

theorem writes_fill (hne : data ≠ [])
    (hf : (r.dataBuffer r.currentWriteBuffer).dataBufferState = .unprepared)
    (hr : data.length < r.remain r.currentWriteBuffer) :
    Writes r data t e ↔ t = r.fill (whole r data) ∧ e = .returned := by
  rw [Writes,writeEnds_iff]
  simp [writePass,bufferWriteData,whole,hf,hne,hr]

theorem writes_commit (h : Shape r)
    (hf : (r.dataBuffer r.currentWriteBuffer).dataBufferState = .unprepared)
    (hr : r.remain r.currentWriteBuffer ≤ data.length) :
    Writes r data t e ↔
      Writes (r.commit (whole r data)) (data.drop (r.remain r.currentWriteBuffer).toNat) t e := by
  have hpos := h.remain_pos r.currentWriteBuffer
  have hn : ¬ (data.length : Int) ≤ 0 := by omega
  have hlen : ((data.drop (r.remain r.currentWriteBuffer).toNat).length : Int) =
      data.length - r.remain r.currentWriteBuffer := by
    rw [List.length_drop]
    omega
  rw [Writes,writeEnds_iff]
  simp only [Writes,writePass,bufferWriteData,whole,hf,hn,Int.not_lt.mpr hr,hlen,if_false,
    reduceCtorEq]

theorem whole_shape (h : Shape r)
    (hf : (r.dataBuffer r.currentWriteBuffer).dataBufferState = .unprepared)
    (hr : r.remain r.currentWriteBuffer ≤ data.length) : Shape (r.commit (whole r data)) :=
  h.commit rfl (Int.le_refl _) hf hr

/-- Every write ends in exactly one way. -/
theorem writes_unique (h : Shape r) (data : List UInt8) :
    ∃ t e, ∀ t' e', Writes r data t' e' ↔ t' = t ∧ e' = e := by
  -- induction on the data; each committed slot takes at least one byte of it
  induction hl : data.length using Nat.strong_induction_on generalizing r data with
  | _ l ih =>
    subst l
    rcases eq_or_ne data [] with rfl | hne
    · exact ⟨r,.returned,fun _ _ => writes_nil⟩
    · cases hs : (r.dataBuffer r.currentWriteBuffer).dataBufferState with
      | prepared => exact ⟨r,.spins,fun _ _ => writes_full hne hs⟩
      | unprepared =>
        by_cases hr : data.length < r.remain r.currentWriteBuffer
        · exact ⟨_,.returned,fun _ _ => writes_fill hne hs hr⟩
        · have hge : r.remain r.currentWriteBuffer ≤ data.length := Int.not_lt.mp hr
          have hpos := h.remain_pos r.currentWriteBuffer
          have hlt : (data.drop (r.remain r.currentWriteBuffer).toNat).length < data.length := by
            rw [List.length_drop]
            omega
          obtain ⟨t,e,hte⟩ := ih _ hlt (whole_shape h hs hge) _ rfl
          exact ⟨t,e,fun t' e' => (writes_commit h hs hge).trans (hte t' e')⟩

section Twice
variable {a b : List UInt8}

/-- The slot the writer fills. -/
def front (r : Ring) : Slot := r.dataBuffer r.currentWriteBuffer

/-- The slot after a copy of the data behind what it holds. -/
def Slot.put (slot : Slot) (data : List UInt8) : Slot :=
  { slot with
    buffer := memcpy slot.buffer slot.used.toNat data, used := slot.used + data.length }

/-- The ring after the writer hands over its slot with the given bytes. -/
def hand (r : Ring) (buffer : List UInt8) : Ring :=
  { (r.put r.currentWriteBuffer ⟨buffer,0,.prepared⟩).clearUsed (ahead r.currentWriteBuffer 1) with
    currentWriteBuffer := ahead r.currentWriteBuffer 1, bufferUsed := r.bufferUsed + 1 }

theorem front_put (r : Ring) (slot : Slot) : front (r.put r.currentWriteBuffer slot) = slot := by
  simp [front,Ring.put]

theorem fill_eq (r : Ring) (data : List UInt8) :
    r.fill (whole r data) = r.put r.currentWriteBuffer (Slot.put (front r) data) := by
  simp [Ring.fill,whole,bufferWriteData,front,Slot.put,Slot.store,WriteCall.copy]

theorem commit_eq (r : Ring) (data : List UInt8) :
    r.commit (whole r data) = hand r (memcpy (front r).buffer (front r).used.toNat
      (data.take (r.remain r.currentWriteBuffer).toNat)) := rfl

theorem hand_put (r : Ring) (slot : Slot) (buffer : List UInt8) :
    hand (r.put r.currentWriteBuffer slot) buffer = hand r buffer := by
  simp [hand,Ring.clearUsed,Ring.put]

/-- Bytes that go into a slot in two copies are there as if copied at once. -/
theorem put_put (h : Shape r) :
    Slot.put (Slot.put (front r) a) b = Slot.put (front r) (a ++ b) := by
  obtain ⟨h0,hlt⟩ := h.offsets r.currentWriteBuffer
  have hz := h.sized r.currentWriteBuffer
  have hoff : ((front r).used + (a.length : Int)).toNat = (front r).used.toNat + a.length := by
    unfold front
    omega
  have hin : (front r).used.toNat ≤ (front r).buffer.length := by
    unfold front
    omega
  simp only [Slot.put,hoff,memcpy_memcpy hin,List.length_append,Slot.mk.injEq,true_and,and_true]
  omega

theorem fill_remain (r : Ring) (a : List UInt8) :
    (r.fill (whole r a)).remain r.currentWriteBuffer =
      r.remain r.currentWriteBuffer - a.length := by
  simp only [fill_eq,Ring.remain,Ring.put,Slot.put,front,Function.update_self]
  omega

theorem fill_shape (h : Shape r) (hne : a ≠ []) (hr : a.length < r.remain r.currentWriteBuffer) :
    Shape (r.fill (whole r a)) :=
  h.fill rfl (Int.le_refl _) (Int.natCast_pos.mpr (List.length_pos_iff.mpr hne)) hr

theorem fill_fill (h : Shape r) :
    (r.fill (whole r a)).fill (whole (r.fill (whole r a)) b) = r.fill (whole r (a ++ b)) := by
  simp only [fill_eq,front_put,← put_put h]
  simp [Ring.put]

theorem fill_commit (h : Shape r) (ha : a.length ≤ r.remain r.currentWriteBuffer) :
    (r.fill (whole r a)).commit (whole (r.fill (whole r a)) b) = r.commit (whole r (a ++ b)) := by
  have htake : (a ++ b).take (r.remain r.currentWriteBuffer).toNat =
      a ++ b.take (r.remain r.currentWriteBuffer - a.length).toNat := by
    have hsum : (r.remain r.currentWriteBuffer).toNat =
        a.length + (r.remain r.currentWriteBuffer - a.length).toNat := by omega
    rw [hsum,List.take_length_add_append]
  have hcur : (r.fill (whole r a)).currentWriteBuffer = r.currentWriteBuffer := rfl
  rw [commit_eq,commit_eq,hcur,fill_remain,htake,fill_eq,hand_put,front_put]
  exact congrArg (fun slot => hand r slot.buffer) (put_put h)

theorem commit_append (hr : r.remain r.currentWriteBuffer ≤ a.length) :
    r.commit (whole r (a ++ b)) = r.commit (whole r a) := by
  rw [commit_eq,commit_eq,List.take_append_of_le_length]
  omega

/-- A write whose beginning leaves room in its slot goes on behind it. -/
theorem writes_behind (h : Shape r) (hne : a ≠ [])
    (hf : (r.dataBuffer r.currentWriteBuffer).dataBufferState = .unprepared)
    (hr : a.length < r.remain r.currentWriteBuffer) :
    Writes r (a ++ b) t e ↔ Writes (r.fill (whole r a)) b t e := by
  have hcur : (r.fill (whole r a)).currentWriteBuffer = r.currentWriteBuffer := rfl
  have hfree : ((r.fill (whole r a)).dataBuffer
      (r.fill (whole r a)).currentWriteBuffer).dataBufferState = .unprepared := by
    rw [fill_eq]
    exact (congrArg Slot.dataBufferState (front_put r _)).trans hf
  have hrem := fill_remain r a
  rcases eq_or_ne b [] with rfl | hb
  · rw [List.append_nil,writes_fill hne hf hr,writes_nil]
  have hab : a ++ b ≠ [] := by simp [hne]
  by_cases hfit : ((a ++ b).length : Int) < r.remain r.currentWriteBuffer
  · have hfit' : b.length <
        (r.fill (whole r a)).remain (r.fill (whole r a)).currentWriteBuffer := by
      rw [List.length_append] at hfit
      rw [hcur,hrem]
      omega
    rw [writes_fill hab hf hfit,writes_fill hb hfree hfit',fill_fill h]
  · have hge := Int.not_lt.mp hfit
    have hge' : (r.fill (whole r a)).remain (r.fill (whole r a)).currentWriteBuffer ≤ b.length := by
      rw [List.length_append] at hge
      rw [hcur,hrem]
      omega
    have hdrop : (a ++ b).drop (r.remain r.currentWriteBuffer).toNat =
        b.drop (r.remain r.currentWriteBuffer - a.length).toNat := by
      rw [List.drop_append,List.drop_of_length_le (by omega),List.nil_append]
      congr 1
      omega
    rw [writes_commit h hf hge,writes_commit (fill_shape h hne hr) hfree hge',
      fill_commit h (Int.le_of_lt hr),hcur,hrem,hdrop]

/-- One write of `a ++ b` and a write of `a` before one of `b` end alike. -/
theorem writes_append (h : Shape r) : Writes r (a ++ b) t e ↔ WritesTwo r a b t e := by
  -- induction on `a`: the slots it fills alone are the same in both, and the slot in
  -- which it ends is filled by one copy or by two
  induction hl : a.length using Nat.strong_induction_on generalizing r a with
  | _ l ih =>
    subst l
    rcases eq_or_ne a [] with rfl | hne
    · simp [WritesTwo,writes_nil]
    have hne' : a ++ b ≠ [] := by simp [hne]
    cases hs : (r.dataBuffer r.currentWriteBuffer).dataBufferState with
    | prepared => simp [WritesTwo,writes_full hne hs,writes_full hne' hs]
    | unprepared =>
      by_cases hr : a.length < r.remain r.currentWriteBuffer
      · simp [WritesTwo,writes_fill hne hs hr,writes_behind h hne hs hr]
      · have hge : r.remain r.currentWriteBuffer ≤ a.length := Int.not_lt.mp hr
        have hpos := h.remain_pos r.currentWriteBuffer
        have hlt : (a.drop (r.remain r.currentWriteBuffer).toNat).length < a.length := by
          rw [List.length_drop]
          omega
        have hge' : r.remain r.currentWriteBuffer ≤ (a ++ b).length := by
          rw [List.length_append]
          omega
        have hih := ih _ hlt (whole_shape h hs hge) rfl
        rw [writes_commit h hs hge',commit_append hge,List.drop_append_of_le_length (by omega),hih]
        simp only [WritesTwo,writes_commit h hs hge]

end Twice

end Writing

section Reading
variable {r : Ring} {size m n : Nat} {t : Ring} {bytes : List UInt8} {e : Ending}

/-- The slot the reader takes from. -/
def back (r : Ring) : Slot := r.dataBuffer r.currentReadBuffer

/-- The bytes a pass of the reader takes from its slot. -/
def taken (r : Ring) (k : Int) : List UInt8 :=
  ((back r).buffer.drop (back r).used.toNat).take k.toNat

theorem reads_zero : Reads r 0 t bytes e ↔ t = r ∧ bytes = [] ∧ e = .returned := by
  rw [Reads,readEnds_iff]
  simp [readPass,bufferReadData]

theorem reads_empty (hne : size ≠ 0)
    (hp : (r.dataBuffer r.currentReadBuffer).dataBufferState = .unprepared) :
    Reads r size t bytes e ↔ t = r ∧ bytes = [] ∧ e = .spins := by
  rw [Reads,readEnds_iff]
  simp [readPass,bufferReadData,hp,hne]

theorem reads_consume (hne : size ≠ 0)
    (hp : (r.dataBuffer r.currentReadBuffer).dataBufferState = .prepared)
    (hr : size < r.remain r.currentReadBuffer) :
    Reads r size t bytes e ↔ t = r.consume (bufferReadData r size) ∧
      bytes = taken r size ∧ e = .returned := by
  rw [Reads,readEnds_iff]
  simp [readPass,bufferReadData,taken,back,ReadCall.copy,hp,hne,hr]

/-- The value to return is carried along; the bytes and the ring do not depend on it. -/
theorem readEnds_dataRead (h : ReadEnds r d t bytes e) (y : Int) :
    ReadEnds r { d with dataRead := y } t bytes e := by
  induction h generalizing y with
  | @returned r d _ _ _ pass =>
    cases read_pass pass with
    | returns done =>
      exact .returned (ReadPass.returns (d := { d with dataRead := y }) done).takes
    | consume more ready fits =>
      exact .returned (ReadPass.consume (d := { d with dataRead := y }) more ready fits).takes
  | spins pass =>
    simp only [readPass] at pass
    split_ifs at pass with hz hp
    exact .spins (by simp only [readPass,if_neg hz,if_pos hp])
  | @more r d _ _ _ _ _ _ pass rest ih =>
    cases read_pass pass with
    | release more ready beyond =>
      exact .more (ReadPass.release (d := { d with dataRead := y }) more ready beyond).takes
        (ih (y + r.remain d.current))

theorem reads_release (h : Shape r)
    (hp : (r.dataBuffer r.currentReadBuffer).dataBufferState = .prepared)
    (hr : r.remain r.currentReadBuffer ≤ size) :
    Reads r size t bytes e ↔ ∃ rest,
      bytes = taken r (r.remain r.currentReadBuffer) ++ rest ∧
        Reads (r.release (bufferReadData r size)) (size - (r.remain r.currentReadBuffer).toNat)
          t rest e := by
  have hpos := h.remain_pos r.currentReadBuffer
  have hn : ¬ (size : Int) ≤ 0 := by omega
  rw [Reads,readEnds_iff]
  simp only [Reads,readPass,bufferReadData,taken,back,ReadCall.copy,hp,hn,Int.not_lt.mpr hr,
    if_false,reduceCtorEq,Option.toList_some,List.flatMap_singleton]
  have hsize : ((size - (r.remain r.currentReadBuffer).toNat : Nat) : Int) =
      size - r.remain r.currentReadBuffer := by omega
  rw [hsize]
  constructor
  · rintro ⟨rest,rfl,h⟩
    exact ⟨rest,rfl,readEnds_dataRead h 0⟩
  · rintro ⟨rest,rfl,h⟩
    exact ⟨rest,rfl,readEnds_dataRead h _⟩

theorem release_shape (h : Shape r)
    (hp : (r.dataBuffer r.currentReadBuffer).dataBufferState = .prepared) (size : Nat) :
    Shape (r.release (bufferReadData r size)) :=
  h.release rfl hp

/-- Every read ends in exactly one way. -/
theorem reads_unique (h : Shape r) (size : Nat) :
    ∃ t bytes e, ∀ t' bytes' e',
      Reads r size t' bytes' e' ↔ t' = t ∧ bytes' = bytes ∧ e' = e := by
  -- induction on the request; each released slot takes at least one byte off it
  induction size using Nat.strong_induction_on generalizing r with
  | _ size ih =>
    rcases eq_or_ne size 0 with rfl | hne
    · exact ⟨r,[],.returned,fun _ _ _ => reads_zero⟩
    · cases hs : (r.dataBuffer r.currentReadBuffer).dataBufferState with
      | unprepared => exact ⟨r,[],.spins,fun _ _ _ => reads_empty hne hs⟩
      | prepared =>
        by_cases hr : size < r.remain r.currentReadBuffer
        · exact ⟨_,_,.returned,fun _ _ _ => reads_consume hne hs hr⟩
        · have hge : r.remain r.currentReadBuffer ≤ size := Int.not_lt.mp hr
          have hpos := h.remain_pos r.currentReadBuffer
          obtain ⟨t,rest,e,hte⟩ := ih (size - (r.remain r.currentReadBuffer).toNat) (by omega)
            (release_shape h hs size)
          refine ⟨t,taken r (r.remain r.currentReadBuffer) ++ rest,e,?_⟩
          intro t' bytes' e'
          rw [reads_release h hs hge]
          constructor
          · rintro ⟨rest',rfl,h'⟩
            obtain ⟨rfl,rfl,rfl⟩ := (hte _ _ _).mp h'
            exact ⟨rfl,rfl,rfl⟩
          · rintro ⟨rfl,rfl,rfl⟩
            exact ⟨rest,rfl,(hte _ _ _).mpr ⟨rfl,rfl,rfl⟩⟩

theorem consume_remain (r : Ring) (m : Nat) :
    (r.consume (bufferReadData r m)).remain r.currentReadBuffer =
      r.remain r.currentReadBuffer - m := by
  simp only [Ring.remain,Ring.consume,Ring.put,bufferReadData,Function.update_self]
  omega

theorem back_consume (r : Ring) (m : Nat) :
    back (r.consume (bufferReadData r m)) = { back r with used := (back r).used + m } := by
  simp [back,Ring.consume,Ring.put,bufferReadData]

theorem consume_shape (h : Shape r) (hne : m ≠ 0) (hr : m < r.remain r.currentReadBuffer) :
    Shape (r.consume (bufferReadData r m)) :=
  h.consume rfl (Int.natCast_pos.mpr (Nat.pos_of_ne_zero hne)) hr

theorem consume_consume (r : Ring) (m n : Nat) :
    (r.consume (bufferReadData r m)).consume (bufferReadData (r.consume (bufferReadData r m)) n) =
      r.consume (bufferReadData r (m + n : Nat)) := by
  simp [Ring.consume,Ring.put,bufferReadData,Int.add_assoc]

theorem consume_release (r : Ring) (m : Nat) (c d : Int) :
    (r.consume (bufferReadData r m)).release (bufferReadData (r.consume (bufferReadData r m)) c) =
      r.release (bufferReadData r d) := by
  simp [Ring.release,Ring.clearUsed,Ring.consume,Ring.put,bufferReadData]

/-- A slot gives the same bytes in two copies as in one. -/
theorem taken_add (h : Shape r) (m : Nat) (hk : 0 ≤ k) :
    taken r (m + k) = taken r m ++ taken (r.consume (bufferReadData r m)) k := by
  have h0 := (h.offsets r.currentReadBuffer).1
  have hoff : ((back r).used + (m : Int)).toNat = (back r).used.toNat + m := by
    unfold back
    omega
  have hsum : (m + k).toNat = m + k.toNat := by omega
  simp only [taken,back_consume,hoff,hsum,List.take_add,List.drop_drop,Int.toNat_natCast]

/-- A read whose beginning ends inside its slot goes on behind it. -/
theorem reads_behind (h : Shape r) (hne : m ≠ 0)
    (hp : (r.dataBuffer r.currentReadBuffer).dataBufferState = .prepared)
    (hr : m < r.remain r.currentReadBuffer) :
    Reads r (m + n) t bytes e ↔ ∃ rest, bytes = taken r m ++ rest ∧
      Reads (r.consume (bufferReadData r m)) n t rest e := by
  have hcur : (r.consume (bufferReadData r m)).currentReadBuffer = r.currentReadBuffer := rfl
  have hready : ((r.consume (bufferReadData r m)).dataBuffer
      (r.consume (bufferReadData r m)).currentReadBuffer).dataBufferState = .prepared :=
    (congrArg Slot.dataBufferState (back_consume r m)).trans hp
  have hrem := consume_remain r m
  rcases eq_or_ne n 0 with rfl | hn
  · simp only [Nat.add_zero,reads_consume hne hp hr,reads_zero]
    constructor
    · rintro ⟨rfl,rfl,rfl⟩
      exact ⟨[],(List.append_nil _).symm,rfl,rfl,rfl⟩
    · rintro ⟨rest,rfl,rfl,rfl,rfl⟩
      exact ⟨rfl,List.append_nil _,rfl⟩
  by_cases hfit : ((m + n : Nat) : Int) < r.remain r.currentReadBuffer
  · have hfit' : n < (r.consume (bufferReadData r m)).remain
        (r.consume (bufferReadData r m)).currentReadBuffer := by
      rw [hcur,hrem]
      omega
    simp only [reads_consume (by omega) hp hfit,reads_consume hn hready hfit',consume_consume,
      Int.natCast_add,taken_add h m (Int.natCast_nonneg n)]
    constructor
    · rintro ⟨rfl,rfl,rfl⟩
      exact ⟨_,rfl,rfl,rfl,rfl⟩
    · rintro ⟨rest,rfl,rfl,rfl,rfl⟩
      exact ⟨rfl,rfl,rfl⟩
  · have hge := Int.not_lt.mp hfit
    have hge' : (r.consume (bufferReadData r m)).remain
        (r.consume (bufferReadData r m)).currentReadBuffer ≤ n := by
      rw [hcur,hrem]
      omega
    have hsize : m + n - (r.remain r.currentReadBuffer).toNat =
        n - (r.remain r.currentReadBuffer - m).toNat := by omega
    have htaken : taken r (r.remain r.currentReadBuffer) = taken r m ++
        taken (r.consume (bufferReadData r m)) (r.remain r.currentReadBuffer - m) := by
      rw [← taken_add h m (by omega)]
      congr 1
      omega
    rw [reads_release h hp hge,hsize,htaken]
    simp only [reads_release (consume_shape h hne hr) hready hge',hcur,hrem,
      consume_release r m _ (m + n : Nat)]
    constructor
    · rintro ⟨rest,rfl,hrest⟩
      exact ⟨_,List.append_assoc _ _ _,rest,rfl,hrest⟩
    · rintro ⟨_,rfl,rest,rfl,hrest⟩
      exact ⟨rest,(List.append_assoc _ _ _).symm,hrest⟩

/-- One read of `m + n` bytes and a read of `m` before one of `n` end alike. -/
theorem reads_add (h : Shape r) : Reads r (m + n) t bytes e ↔ ReadsTwo r m n t bytes e := by
  induction m using Nat.strong_induction_on generalizing r bytes with
  | _ m ih =>
    rcases eq_or_ne m 0 with rfl | hne
    · simp [ReadsTwo,reads_zero]
    cases hs : (r.dataBuffer r.currentReadBuffer).dataBufferState with
    | unprepared =>
      have hne' : m + n ≠ 0 := by omega
      simp [ReadsTwo,reads_empty hne hs,reads_empty hne' hs,and_assoc]
    | prepared =>
      by_cases hr : m < r.remain r.currentReadBuffer
      · rw [reads_behind h hne hs hr]
        simp only [ReadsTwo,reads_consume hne hs hr]
        constructor
        · rintro ⟨rest,rfl,hrest⟩
          exact .inr ⟨_,_,rest,⟨rfl,rfl,trivial⟩,hrest,rfl⟩
        · rintro (⟨⟨_,_,hspin⟩,_⟩ | ⟨_,_,rest,⟨rfl,rfl,_⟩,hrest,rfl⟩)
          · cases hspin
          · exact ⟨rest,rfl,hrest⟩
      · have hge : r.remain r.currentReadBuffer ≤ m := Int.not_lt.mp hr
        have hpos := h.remain_pos r.currentReadBuffer
        have hge' : r.remain r.currentReadBuffer ≤ (m + n : Nat) := by omega
        have hsize : m + n - (r.remain r.currentReadBuffer).toNat =
            m - (r.remain r.currentReadBuffer).toNat + n := by omega
        have hsame : r.release (bufferReadData r (m + n : Nat)) =
            r.release (bufferReadData r m) := rfl
        have hih : ∀ rest, Reads (r.release (bufferReadData r m))
            (m - (r.remain r.currentReadBuffer).toNat + n) t rest e ↔ _ :=
          fun rest => ih _ (by omega) (release_shape h hs m)
        simp only [reads_release h hs hge',hsize,hsame,hih,ReadsTwo,reads_release h hs hge]
        constructor
        · rintro ⟨_,rfl,⟨hspin,rfl⟩ | ⟨u,first,rest,hfirst,hrest,rfl⟩⟩
          · exact .inl ⟨⟨_,rfl,hspin⟩,rfl⟩
          · exact .inr ⟨u,_,rest,⟨first,rfl,hfirst⟩,hrest,(List.append_assoc _ _ _).symm⟩
        · rintro (⟨⟨_,rfl,hspin⟩,rfl⟩ | ⟨u,_,rest,⟨first,rfl,hfirst⟩,hrest,rfl⟩)
          · exact ⟨_,rfl,.inl ⟨hspin,rfl⟩⟩
          · exact ⟨_,List.append_assoc _ _ _,.inr ⟨u,first,rest,hfirst,hrest,rfl⟩⟩

end Reading

/-- However the bytes are cut into calls, the ring, the bytes handed out and the
point at which a call spins are the same; and every sequence has just one end. -/
theorem segmentation (r : Ring) (h : Shape r) :
    (∀ a b : List UInt8, ∃ t e, ∀ t' e',
      (Writes r (a ++ b) t' e' ↔ t' = t ∧ e' = e) ∧
      (WritesTwo r a b t' e' ↔ t' = t ∧ e' = e)) ∧
    (∀ m n : Nat, ∃ t bytes e, ∀ t' bytes' e',
      (Reads r (m + n) t' bytes' e' ↔ t' = t ∧ bytes' = bytes ∧ e' = e) ∧
      (ReadsTwo r m n t' bytes' e' ↔ t' = t ∧ bytes' = bytes ∧ e' = e)) := by
  constructor
  · intro a b
    obtain ⟨t,e,hte⟩ := writes_unique h (a ++ b)
    exact ⟨t,e,fun t' e' => ⟨hte t' e',(writes_append h).symm.trans (hte t' e')⟩⟩
  · intro m n
    obtain ⟨t,bytes,e,hte⟩ := reads_unique h (m + n)
    exact ⟨t,bytes,e,fun t' bytes' e' =>
      ⟨hte t' bytes' e',(reads_add h).symm.trans (hte t' bytes' e')⟩⟩

/-- On the ring as initialised: a split right at the end of the first slot. -/
theorem segmentation_boundary :
    Shape (initDataBuffer boot) ∧ ∃ t e, ∀ t' e',
      (Writes (initDataBuffer boot) (List.replicate 5120 1 ++ [2]) t' e' ↔ t' = t ∧ e' = e) ∧
      (WritesTwo (initDataBuffer boot) (List.replicate 5120 1) [2] t' e' ↔ t' = t ∧ e' = e) :=
  ⟨init_shaped.ring,(segmentation _ init_shaped.ring).1 _ _⟩

end WifiSpeaker.Proofs.Segmentation
