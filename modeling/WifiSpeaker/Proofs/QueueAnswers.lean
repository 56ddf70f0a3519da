import WifiSpeaker.FreeRtosQueue

namespace WifiSpeaker.Proofs.QueueAnswers
open Common FreeRtosQueue

/-- The storage holds the items from the cell behind the read pointer on, which
stands on cell `k`, and the write pointer stands behind the last of them. -/
structure Holds (q : QueueT n) (k : Nat) (xs : List (Object n)) : Prop where
  size : q.storage.length = q.uxLength * n
  cell : k < q.uxLength
  count : q.uxMessagesWaiting = xs.length
  room : xs.length ≤ q.uxLength
  read : q.pcReadFrom = k * n
  write : q.pcWriteTo = (k + 1 + xs.length) % q.uxLength * n
  bytes : xs.flatMap Object.bytes = window q.storage ((k + 1) % q.uxLength * n) (xs.length * n)

/-- A pointer that has moved one cell on and wraps at the end of the storage. -/
theorem wrap_next (hn : 0 < n) (ha : a < len) :
    (if a * n + n ≥ len * n then 0 else a * n + n) = (a + 1) % len * n := by
  rw [← Nat.succ_mul]
  split_ifs with hw
  · obtain rfl : len = a + 1 := by
      have := Nat.le_of_mul_le_mul_right hw hn
      omega
    rw [Nat.mod_self,Nat.zero_mul]
  · have hlt : a + 1 < len := Nat.lt_of_mul_lt_mul_right (Nat.not_le.mp hw)
    rw [Nat.mod_eq_of_lt hlt]

/-- A pointer that has moved one cell back and wraps at the start. -/
theorem wrap_back (hn : 0 < n) (hk : k < len) :
    ∃ j < len, (if k * n < n then len * n - n else k * n - n) = j * n ∧ (j + 1) % len = k := by
  cases k with
  | zero =>
    refine ⟨len - 1,by omega,?_,?_⟩
    · rw [Nat.zero_mul,if_pos hn,Nat.sub_mul,Nat.one_mul]
    · rw [Nat.sub_add_cancel hk,Nat.mod_self]
  | succ k =>
    have hle : ¬ (k + 1) * n < n := by
      rw [Nat.succ_mul]
      omega
    refine ⟨k,by omega,?_,Nat.mod_eq_of_lt hk⟩
    rw [if_neg hle,Nat.succ_mul,Nat.add_sub_cancel]

/-- A cell ends inside the storage. -/
theorem cell_inside (n : Nat) (ha : a < len) : a * n + n ≤ len * n := by
  rw [← Nat.succ_mul]
  exact Nat.mul_le_mul_right n ha

theorem bytes_zero (x : Object 0) : x.bytes = [] := List.eq_nil_of_length_eq_zero x.size

/-- Items without bytes leave the storage alone. -/
theorem Holds.recount {q : QueueT 0} (h : Holds q k xs) (ys : List (Object 0))
    (hr : ys.length ≤ q.uxLength) : Holds { q with uxMessagesWaiting := ys.length } k ys := by
  refine ⟨h.size,h.cell,rfl,hr,h.read,?_,?_⟩
  · rw [h.write,Nat.mul_zero,Nat.mul_zero]
  · have hnil : ys.flatMap Object.bytes = [] := by
      apply List.flatMap_eq_nil_iff.mpr
      intro x _
      exact bytes_zero x
    rw [hnil,Nat.mul_zero,Nat.mul_zero]
    rfl

section
variable {n : Nat} {q : QueueT n} {k : Nat} {xs : List (Object n)} {x : Object n}

theorem Holds.sendToBack (h : Holds q k xs) (hr : xs.length < q.uxLength) :
    Holds (prvCopyDataToQueue q x .sendToBack) k (xs ++ [x]) := by
  rcases Nat.eq_zero_or_pos n with rfl | hn
  · have hcount : q.uxMessagesWaiting + 1 = (xs ++ [x]).length := by
      rw [h.count,List.length_append,List.length_singleton]
    have := h.recount (xs ++ [x]) (by rw [← hcount,h.count]; omega)
    rwa [← hcount] at this
  have hcopy : prvCopyDataToQueue q x .sendToBack =
      { q.copyToBack x with uxMessagesWaiting := q.uxMessagesWaiting + 1 } := by
    simp only [prvCopyDataToQueue,if_neg (Nat.ne_of_gt hn)]
    rfl
  have hpos : 0 < q.uxLength := by omega
  have hcell : (k + 1 + xs.length) % q.uxLength < q.uxLength := Nat.mod_lt _ hpos
  have hinside := cell_inside n hcell
  rw [hcopy]
  refine ⟨?_,h.cell,?_,?_,h.read,?_,?_⟩
  · change (memcpy q.storage q.pcWriteTo x.bytes).length = _
    rw [length_memcpy,h.size]
    · rfl
    · rw [h.write,h.size,x.size]
      exact hinside
  · change q.uxMessagesWaiting + 1 = _
    rw [h.count,List.length_append,List.length_singleton]
  · rw [List.length_append,List.length_singleton]
    exact hr
  · change (if q.pcWriteTo + n ≥ q.uxLength * n then 0 else q.pcWriteTo + n) = _
    rw [h.write,wrap_next hn hcell,Nat.mod_add_mod,List.length_append,List.length_singleton]
    rfl
  · change _ = window (memcpy q.storage q.pcWriteTo x.bytes) ((k + 1) % q.uxLength * n) _
    have hstart : (k + 1) % q.uxLength < q.uxLength := Nat.mod_lt _ hpos
    have hlen : (xs ++ [x]).length * n = xs.length * n + x.bytes.length := by
      rw [List.length_append,List.length_singleton,Nat.succ_mul,x.size]
    rw [hlen,List.flatMap_append,List.flatMap_singleton,h.bytes,window_memcpy]
    · rw [h.write,h.size,← Nat.add_mul,Nat.mul_mod_mul_right,Nat.mod_add_mod]
    · rw [h.size]
      exact Nat.mul_lt_mul_of_pos_right hstart hn
    · rw [h.write,h.size,x.size]
      exact hinside
    · rw [h.size,x.size]
      exact cell_inside n hr

/-- The copy in front of the window, and the read pointer one cell back. -/
theorem Holds.copyToFront (h : Holds q k xs) (hn : 0 < n) (hr : ys.length < q.uxLength)
    (hwrite : q.pcWriteTo = (k + 1 + ys.length) % q.uxLength * n)
    (hys : ys.flatMap Object.bytes = window q.storage ((k + 1) % q.uxLength * n) (ys.length * n)) :
    ∃ j, Holds { q.copyToFront x with uxMessagesWaiting := ys.length + 1 } j (x :: ys) := by
  obtain ⟨j,hj,hback,hnext⟩ := wrap_back hn h.cell
  have hinside := cell_inside n h.cell
  refine ⟨j,?_,hj,rfl,hr,?_,?_,?_⟩
  · change (memcpy q.storage q.pcReadFrom x.bytes).length = _
    rw [length_memcpy,h.size]
    · rfl
    · rw [h.read,h.size,x.size]
      exact hinside
  · change (if q.pcReadFrom < n then q.uxLength * n - n else q.pcReadFrom - n) = _
    rw [h.read,hback]
  · change q.pcWriteTo = (j + 1 + (ys.length + 1)) % q.uxLength * n
    rw [hwrite,← hnext,Nat.add_assoc,Nat.mod_add_mod]
    congr 2
    omega
  · change _ = window (memcpy q.storage q.pcReadFrom x.bytes) ((j + 1) % q.uxLength * n)
      ((ys.length + 1) * n)
    have hlen : (ys.length + 1) * n = x.bytes.length + ys.length * n := by
      rw [Nat.succ_mul,x.size,Nat.add_comm]
    have hspan : (ys.length + 1) * n ≤ q.uxLength * n := Nat.mul_le_mul_right n hr
    rw [List.flatMap_cons,hys,hnext,h.read,hlen,window_memcpy_front]
    · rw [h.size,x.size,← Nat.succ_mul,Nat.mul_mod_mul_right]
    · rw [h.size,x.size]
      exact hinside
    · rw [h.size,← hlen]
      exact hspan

theorem Holds.sendToFront (h : Holds q k xs) (hr : xs.length < q.uxLength) :
    ∃ j, Holds (prvCopyDataToQueue q x .sendToFront) j (x :: xs) := by
  rcases Nat.eq_zero_or_pos n with rfl | hn
  · have hcount : q.uxMessagesWaiting + 1 = (x :: xs).length := by
      rw [h.count,List.length_cons]
    have := h.recount (x :: xs) (by rw [← hcount,h.count]; omega)
    rw [← hcount] at this
    exact ⟨k,this⟩
  have hcopy : prvCopyDataToQueue q x .sendToFront =
      { q.copyToFront x with uxMessagesWaiting := xs.length + 1 } := by
    simp only [prvCopyDataToQueue,if_neg (Nat.ne_of_gt hn),← h.count]
    rfl
  rw [hcopy]
  exact h.copyToFront hn hr h.write h.bytes

/-- A queue of one place takes the item whether or not it holds one. -/
theorem Holds.overwrite (h : Holds q k xs) (hone : q.uxLength = 1) (hn : 0 < n) :
    ∃ j, Holds (prvCopyDataToQueue q x .overwrite) j [x] := by
  have hcopy : prvCopyDataToQueue q x .overwrite =
      { q.copyToFront x with uxMessagesWaiting := ([] : List (Object n)).length + 1 } := by
    have hroom := h.room
    have hcount := h.count
    simp only [prvCopyDataToQueue,if_neg (Nat.ne_of_gt hn)]
    split_ifs with hw
    · have hwait : (q.copyToFront x).uxMessagesWaiting = 1 := by
        change q.uxMessagesWaiting > 0 at hw
        change q.uxMessagesWaiting = 1
        omega
      rw [hwait]
      rfl
    · have hwait : (q.copyToFront x).uxMessagesWaiting = 0 := Nat.eq_zero_of_not_pos hw
      rw [hwait]
      rfl
  rw [hcopy]
  apply h.copyToFront hn
  · rw [hone]
    exact Nat.one_pos
  · rw [h.write,hone,Nat.mod_one,Nat.mod_one]
  · rw [List.length_nil,Nat.zero_mul]
    rfl

theorem Holds.receive (h : Holds q k (x :: xs)) :
    ∃ next, xQueueGenericReceive q false = some (x.bytes,next) ∧ ∃ j, Holds next j xs := by
  have hsome : q.uxMessagesWaiting > 0 := by
    rw [h.count]
    exact Nat.succ_pos _
  have hroom : xs.length < q.uxLength := h.room
  have hcount : q.uxMessagesWaiting - 1 = xs.length := by
    rw [h.count]
    rfl
  rcases Nat.eq_zero_or_pos n with rfl | hn
  · refine ⟨{ q with uxMessagesWaiting := xs.length },?_,k,h.recount xs (Nat.le_of_lt hroom)⟩
    simp [xQueueGenericReceive,prvCopyDataFromQueue,hsome,hcount,bytes_zero]
  have hstart : (k + 1) % q.uxLength < q.uxLength := Nat.mod_lt _ (by omega)
  have hspan : (xs.length + 1) * n ≤ q.uxLength * n := Nat.mul_le_mul_right n hroom
  -- the window starts with the bytes of the oldest item
  have hfront := congrArg (List.take n) h.bytes
  have hrest := congrArg (List.drop n) h.bytes
  rw [List.length_cons,take_window (by rw [h.size]; exact cell_inside n hstart)
    (by rw [Nat.succ_mul]; omega),List.flatMap_cons,List.take_left' x.size] at hfront
  rw [List.length_cons,drop_window (by rw [Nat.succ_mul]; omega) (by rw [h.size]; exact hspan),
    List.flatMap_cons,List.drop_left' x.size,h.size,← Nat.succ_mul,Nat.mul_mod_mul_right,
    Nat.succ_mul,Nat.add_sub_cancel] at hrest
  refine ⟨{ q with
    pcReadFrom := (k + 1) % q.uxLength * n, uxMessagesWaiting := xs.length },?_,
    (k + 1) % q.uxLength,?_⟩
  · have hnext : (if q.pcReadFrom + n ≥ q.pcTail then 0 else q.pcReadFrom + n) =
        (k + 1) % q.uxLength * n := by
      rw [h.read]
      exact wrap_next hn h.cell
    simp only [xQueueGenericReceive,if_pos hsome,prvCopyDataFromQueue,ne_eq,
      if_pos (Nat.ne_of_gt hn),hnext,hcount,← hfront]
    rfl
  · refine ⟨h.size,hstart,rfl,Nat.le_of_lt hroom,rfl,?_,hrest⟩
    change q.pcWriteTo = ((k + 1) % q.uxLength + 1 + xs.length) % q.uxLength * n
    rw [h.write,List.length_cons,Nat.add_assoc ((k + 1) % q.uxLength),Nat.mod_add_mod]
    congr 2
    omega

/-- A peek copies the same item and puts the read pointer back. -/
theorem Holds.peek (h : Holds q k (x :: xs)) : xQueueGenericReceive q true = some (x.bytes,q) := by
  obtain ⟨next,hnext,_⟩ := h.receive
  have hsome : q.uxMessagesWaiting > 0 := by
    rw [h.count]
    exact Nat.succ_pos _
  simp only [xQueueGenericReceive,if_pos hsome,Bool.false_eq_true,if_false,Option.some.injEq,
    Prod.mk.injEq] at hnext
  simp only [xQueueGenericReceive,if_pos hsome,if_true,Option.some.injEq,Prod.mk.injEq]
  refine ⟨hnext.1,?_⟩
  unfold prvCopyDataFromQueue
  split_ifs <;> rfl

theorem Holds.reset (h : Holds q k xs) :
    Holds (xQueueGenericReset q) (q.uxLength - 1) ([] : List (Object n)) := by
  have hpos : 0 < q.uxLength := Nat.zero_lt_of_lt h.cell
  have hlast : q.uxLength - 1 + 1 = q.uxLength := Nat.sub_add_cancel hpos
  refine ⟨h.size,Nat.sub_lt hpos Nat.one_pos,rfl,Nat.zero_le _,rfl,?_,?_⟩
  · change 0 = (q.uxLength - 1 + 1 + 0) % q.uxLength * n
    rw [Nat.add_zero,hlast,Nat.mod_self,Nat.zero_mul]
  · rw [List.length_nil,Nat.zero_mul]
    rfl

/-- Items without bytes are counted only, so a semaphore cannot be overwritten. -/
def Meant (n : Nat) (r : Request (Object n)) : Prop := ∀ item, r = .overwrite item → 0 < n

theorem copy_length (q : QueueT n) (x : Object n) (position : Position) :
    (prvCopyDataToQueue q x position).uxLength = q.uxLength := by
  simp only [prvCopyDataToQueue]
  cases position <;> dsimp only <;> split_ifs <;> rfl

theorem step_length (q : QueueT n) (r : Request (Object n)) :
    (step q r).2.uxLength = q.uxLength := by
  have hsend : ∀ x position, (q.sent x position).2.uxLength = q.uxLength := by
    intro x position
    unfold QueueT.sent xQueueGenericSend
    split_ifs
    · exact copy_length q x position
    · rfl
  have hreceive : ∀ justPeeking, (q.received justPeeking).2.uxLength = q.uxLength := by
    intro justPeeking
    unfold QueueT.received xQueueGenericReceive prvCopyDataFromQueue
    split_ifs <;> rfl
  cases r with
  | sendToBack x => exact hsend x .sendToBack
  | sendToFront x => exact hsend x .sendToFront
  | overwrite x =>
    simp only [step]
    split_ifs
    · rfl
    · exact hsend x .overwrite
  | receive => exact hreceive false
  | peek => exact hreceive true
  | reset => rfl

/-- A send to either end of a queue with room, and of a full one. -/
theorem Holds.sent (h : Holds q k xs) (x : Object n) (position : Position)
    (hp : position ≠ .overwrite) :
    q.sent x position =
      if xs.length < q.uxLength then (.done,prvCopyDataToQueue q x position) else (.full,q) := by
  simp only [QueueT.sent,xQueueGenericSend,h.count,hp,or_false]
  split_ifs <;> rfl

/-- One call on the queue and one on the list. -/
theorem step_agrees (hm : Meant n r) (h : Holds q k xs) :
    (step q r).1 = (boundedStep q.uxLength xs r).1.map Object.bytes ∧
      ∃ j, Holds (step q r).2 j (boundedStep q.uxLength xs r).2 := by
  cases r with
  | sendToBack x =>
    simp only [step,boundedStep,h.sent x .sendToBack (by decide)]
    split_ifs with hr
    · exact ⟨rfl,k,h.sendToBack hr⟩
    · exact ⟨rfl,k,h⟩
  | sendToFront x =>
    simp only [step,boundedStep,h.sent x .sendToFront (by decide)]
    split_ifs with hr
    · exact ⟨rfl,h.sendToFront hr⟩
    · exact ⟨rfl,k,h⟩
  | overwrite x =>
    by_cases hone : q.uxLength = 1
    · have hs : xQueueGenericSend q x .overwrite = some (prvCopyDataToQueue q x .overwrite) :=
        if_pos (.inr rfl)
      simp only [step,boundedStep,QueueT.sent,hs,ne_eq,hone,not_true_eq_false,if_false]
      exact ⟨rfl,h.overwrite hone (hm x rfl)⟩
    · simp only [step,boundedStep,ne_eq,hone,not_false_eq_true,if_true,if_false]
      exact ⟨rfl,k,h⟩
  | receive =>
    cases xs with
    | nil =>
      have hs : xQueueGenericReceive q false = none := if_neg (by simp [h.count])
      simp only [step,boundedStep,QueueT.received,hs]
      exact ⟨rfl,k,h⟩
    | cons x xs =>
      obtain ⟨next,hs,hnext⟩ := h.receive
      simp only [step,boundedStep,QueueT.received,hs]
      exact ⟨rfl,hnext⟩
  | peek =>
    cases xs with
    | nil =>
      have hs : xQueueGenericReceive q true = none := if_neg (by simp [h.count])
      simp only [step,boundedStep,QueueT.received,hs]
      exact ⟨rfl,k,h⟩
    | cons x xs =>
      simp only [step,boundedStep,QueueT.received,h.peek]
      exact ⟨rfl,k,h⟩
  | reset => exact ⟨rfl,_,h.reset⟩

end

theorem create_holds (heap : Heap uxQueueLength uxItemSize) (hl : 0 < uxQueueLength) :
    Holds (xQueueGenericCreate heap) (uxQueueLength - 1) ([] : List (Object uxItemSize)) := by
  have hlast : uxQueueLength - 1 + 1 = uxQueueLength := Nat.sub_add_cancel hl
  refine ⟨heap.size,Nat.sub_lt hl Nat.one_pos,rfl,Nat.zero_le _,rfl,?_,?_⟩
  · change 0 = (uxQueueLength - 1 + 1 + 0) % uxQueueLength * uxItemSize
    rw [Nat.add_zero,hlast,Nat.mod_self,Nat.zero_mul]
  · rw [List.length_nil,Nat.zero_mul]
    rfl

/-- The pointers of a queue implement a list: over any calls of any tasks and
interrupts, every call is answered as a queue of `uxQueueLength` items answers it,
the items whole and in their order. -/
theorem queue_answers (heap : Heap uxQueueLength uxItemSize) (hl : 0 < uxQueueLength)
    (requests : List (Request (Object uxItemSize)))
    (hm : ∀ item, .overwrite item ∈ requests → 0 < uxItemSize) :
    (system heap).answers (system heap).init requests =
        ((bounded (Object uxItemSize) uxQueueLength).answers [] requests).map
          (Answer.map Object.bytes) ∧
      ((system heap).after (system heap).init requests).uxMessagesWaiting =
        ((bounded (Object uxItemSize) uxQueueLength).after [] requests).length := by
  have hagree := Machine.answers_agree (M := system heap)
    (A := bounded (Object uxItemSize) uxQueueLength)
    (R := fun q xs => (∃ k, Holds q k xs) ∧ q.uxLength = uxQueueLength)
    (s := (system heap).init) (q := []) (Meant uxItemSize) (Answer.map Object.bytes) ?_
    ⟨⟨_,create_holds heap hl⟩,rfl⟩ requests ?_
  · obtain ⟨hanswers,⟨_,hend⟩,_⟩ := hagree
    exact ⟨hanswers,hend.count⟩
  · rintro q xs r hmeant ⟨⟨k,h⟩,rfl⟩
    obtain ⟨hanswer,hnext⟩ := step_agrees hmeant h
    exact ⟨hanswer,hnext,step_length q r⟩
  · rintro r hr item rfl
    exact hm item hr

/-- Two places of two bytes. -/
def twoPlaces : Heap 2 2 := ⟨[9,9,9,9],rfl⟩

/-- An item sent to the front of one that waits, and a third that finds no room. -/
theorem queue_answers_two_places :
    (system twoPlaces).answers (system twoPlaces).init
        [.sendToBack ⟨[1,2],rfl⟩,.sendToFront ⟨[3,4],rfl⟩,.sendToBack ⟨[5,6],rfl⟩,
          .receive,.receive,.receive] =
      [.done,.done,.full,.item [3,4],.item [1,2],.empty] :=
  (queue_answers twoPlaces (by decide) _ (fun _ _ => by decide)).1.trans (by decide)

end WifiSpeaker.Proofs.QueueAnswers
