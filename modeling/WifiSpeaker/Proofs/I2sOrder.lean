import Mathlib.Data.List.Range
import WifiSpeaker.Common.Cyclic
import WifiSpeaker.Proofs.I2sStores

namespace WifiSpeaker.Proofs.I2sOrder
open Common I2s I2sStores

section
variable {c : Config} {s t u : State c} {a : Act c} {acts : List (Act c)} {b : c.Desc}
  {h d e k : Nat}

/-- The descriptor the DMA is on while it fetches the buffer with the given number. -/
def turn (c : Config) (d : Nat) : c.Desc :=
  ⟨d % c.dmaBufCount,Nat.mod_lt _ (Nat.lt_of_lt_of_le Nat.two_pos c.count.1)⟩

theorem turn_add (c : Config) (n k : Nat) : turn c (n + k) = ahead (turn c n) k :=
  Fin.ext (Nat.mod_add_mod n c.dmaBufCount k).symm

theorem turn_succ (c : Config) (d : Nat) : c.empty (turn c d) = turn c (d + 1) := by
  have hn : 2 ≤ c.dmaBufCount := c.count.1
  have hlt : (turn c d).val < c.dmaBufCount := (turn c d).isLt
  apply Fin.ext
  rw [turn_add,ahead_val _ (by omega),Config.empty]
  split_ifs with hw
  · rfl
  · change 0 = (turn c d).val + 1 - c.dmaBufCount
    omega

/-- Each buffer comes up once in a round. -/
theorem turn_inj (hd : n ≤ d ∧ d < n + c.dmaBufCount) (he : n ≤ e ∧ e < n + c.dmaBufCount)
    (h : turn c d = turn c e) : d = e := by
  obtain ⟨i,rfl⟩ := Nat.exists_eq_add_of_le hd.1
  obtain ⟨j,rfl⟩ := Nat.exists_eq_add_of_le he.1
  rw [turn_add,turn_add] at h
  rw [ahead_inj (by omega) (by omega) h]

theorem turn_round (c : Config) (d : Nat) : turn c (d + c.dmaBufCount) = turn c d :=
  Fin.ext (Nat.add_mod_right d c.dmaBufCount)

/-- How many finished buffers the interrupt has put into the queue. -/
def sent (s : State c) : Nat :=
  if s.outEof.isSome ∧ s.isr ≠ .clear then s.played.length - 1 else s.played.length

/-- The queue holds the numbers from `h` on that the DMA has finished, in order and
without a gap, and the interrupt is on the last one. -/
structure Ring (s : State c) (h : Nat) : Prop where
  desc : s.desc = turn c s.played.length
  queue : s.queue = (List.range' h (sent s - h)).map (turn c)
  low : h ≤ sent s
  high : sent s ≤ h + c.queueLength
  eof : ∀ d, s.outEof = some d → 0 < s.played.length ∧ d = turn c (s.played.length - 1)
  drop : ∀ d, s.isr = .drop d → s.outEof = some d
  send : ∀ d, s.isr = .send d → s.outEof = some d ∧ sent s < h + c.queueLength
  clear : s.isr = .clear → s.outEof ≠ none

theorem sent_le (s : State c) : sent s ≤ s.played.length := by
  unfold sent
  split_ifs <;> omega

theorem le_sent (s : State c) : s.played.length ≤ sent s + 1 := by
  unfold sent
  split_ifs <;> omega

theorem Ring.length (hr : Ring s h) : s.queue.length = sent s - h := by
  rw [hr.queue,List.length_map,List.length_range']

theorem Ring.idle (hr : Ring s h) (he : s.outEof = none) : s.isr = .idle := by
  cases hi : s.isr with
  | idle => rfl
  | drop d =>
    have := hr.drop d hi
    rw [he] at this
    cases this
  | send d =>
    have := (hr.send d hi).1
    rw [he] at this
    cases this
  | clear => exact absurd he (hr.clear hi)

/-- The oldest finished buffer leaves the queue. -/
theorem Ring.oldest (hr : Ring s h) (hq : s.queue = ptr :: rest) :
    ptr = turn c h ∧ h < sent s ∧ rest = (List.range' (h + 1) (sent s - (h + 1))).map (turn c) := by
  have hlen := hr.length
  have hqueue := hr.queue
  rw [hq] at hlen hqueue
  rw [List.length_cons] at hlen
  have hsplit : sent s - h = (sent s - (h + 1)) + 1 := by omega
  rw [hsplit,List.range'_succ,List.map_cons,List.cons.injEq] at hqueue
  exact ⟨hqueue.1,by omega,hqueue.2⟩

/-- The queue has room for all buffers but one. -/
theorem queueLength_succ (c : Config) : c.queueLength + 1 = c.dmaBufCount := by
  have := c.count
  unfold Config.queueLength
  omega

theorem queueLength_pos (c : Config) : 0 < c.queueLength := by
  have := c.count
  have := queueLength_succ c
  omega

theorem Ring.take (hr : Ring s h) (hq : s.queue = ptr :: rest) :
    Ring { s with currPtr := p, queue := rest, rwPos := n } (h + 1) := by
  obtain ⟨_,hlt,hrest⟩ := hr.oldest hq
  refine ⟨hr.desc,hrest,hlt,?_,hr.eof,hr.drop,?_,hr.clear⟩
  · have := hr.high
    change sent s ≤ h + 1 + c.queueLength
    omega
  · intro d hd
    obtain ⟨he,hroom⟩ := hr.send d hd
    refine ⟨he,?_⟩
    change sent s < h + 1 + c.queueLength
    omega

theorem Ring.store (hr : Ring s h) (bytes : List UInt8) : Ring (s.store bytes) h := by
  unfold State.store
  split
  · exact hr
  · exact ⟨hr.desc,hr.queue,hr.low,hr.high,hr.eof,hr.drop,hr.send,hr.clear⟩

/-- The DMA may finish a buffer when the interrupt has served the one before. -/
theorem Ring.fetch (hr : Ring s h) (ht : s.offset + 1 = c.bufSize → s.outEof = none) :
    Ring s.fetch h := by
  unfold State.fetch
  split_ifs with hend
  · have hnone := ht hend
    have hidle := hr.idle hnone
    have hsent : sent s = s.played.length := by simp [sent,hnone]
    -- the finished buffer is not in the queue yet
    have hsame : ∀ fetched, sent { s with
        desc := c.empty s.desc, offset := 0, outEof := some s.desc, fetched := []
        played := s.played ++ [fetched] } = sent s := by
      intro fetched
      rw [hsent,sent,if_pos ⟨rfl,by rw [hidle]; intro hc; cases hc⟩]
      simp
    refine ⟨?_,?_,?_,?_,?_,?_,?_,?_⟩
    · change c.empty s.desc = _
      rw [hr.desc,turn_succ]
      simp
    · rw [hsame]
      exact hr.queue
    · rw [hsame]
      exact hr.low
    · rw [hsame]
      exact hr.high
    · intro d hd
      cases hd
      simp [hr.desc]
    · intro d hd
      change s.isr = _ at hd
      rw [hidle] at hd
      cases hd
    · intro d hd
      change s.isr = _ at hd
      rw [hidle] at hd
      cases hd
    · intro hd
      change s.isr = _ at hd
      rw [hidle] at hd
      cases hd
  · exact ⟨hr.desc,hr.queue,hr.low,hr.high,hr.eof,hr.drop,hr.send,hr.clear⟩

theorem sent_pending (he : s.outEof = some b) (hc : s.isr ≠ .clear) :
    sent s = s.played.length - 1 := by
  rw [sent,if_pos ⟨by rw [he]; rfl,hc⟩]

/-- The interrupt decides whether it takes a buffer out. -/
theorem Ring.interrupt (hr : Ring s h) (he : s.outEof = some b) (hi : s.isr = .idle)
    (hroom : isr = .send b ∧ s.queue.length ≠ c.queueLength ∨ isr = .drop b) :
    Ring { s with isr := isr } h := by
  have hold : sent s = s.played.length - 1 :=
    sent_pending he (by rw [hi]; intro hc; cases hc)
  have hnew : sent { s with isr := isr } = sent s := by
    rw [hold]
    rcases hroom with ⟨rfl,_⟩ | rfl
    · exact sent_pending (b := b) he (by intro hc; cases hc)
    · exact sent_pending (b := b) he (by intro hc; cases hc)
  refine ⟨hr.desc,?_,?_,?_,hr.eof,?_,?_,?_⟩
  · rw [hnew]
    exact hr.queue
  · rw [hnew]
    exact hr.low
  · rw [hnew]
    exact hr.high
  · intro d' hd
    rcases hroom with ⟨rfl,_⟩ | rfl
    · cases hd
    · cases hd
      exact he
  · intro d' hd
    rcases hroom with ⟨rfl,hfull⟩ | rfl
    · cases hd
      refine ⟨he,?_⟩
      have hlen := hr.length
      have hlow := hr.low
      have hhigh := hr.high
      rw [hnew]
      omega
    · cases hd
  · intro hd
    rcases hroom with ⟨rfl,_⟩ | rfl
    · cases hd
    · cases hd

/-- Taking the oldest buffer out makes room, also if the task has been faster. -/
theorem Ring.isrDrop (hr : Ring s h) (hi : s.isr = .drop b) :
    ∃ h', h ≤ h' ∧ Ring { s with isr := .send b, queue := s.queue.tail } h' := by
  have he := hr.drop b hi
  have hnew : sent { s with isr := .send b, queue := s.queue.tail } = sent s := by
    rw [sent_pending he (by rw [hi]; intro hc; cases hc)]
    exact sent_pending (b := b) he (by intro hc; cases hc)
  have hpos := queueLength_pos c
  have hhigh := hr.high
  cases hq : s.queue with
  | nil =>
    have hlen := hr.length
    have hlow := hr.low
    rw [hq,List.length_nil] at hlen
    rw [hq] at hnew
    refine ⟨h,Nat.le_refl h,hr.desc,?_,?_,?_,hr.eof,?_,?_,?_⟩
    · rw [hnew,← hr.queue,hq]
      rfl
    · rw [hnew]
      exact hlow
    · rw [hnew]
      exact hhigh
    · intro d' hd
      cases hd
    · intro d' hd
      cases hd
      refine ⟨he,?_⟩
      rw [hnew]
      omega
    · intro hd
      cases hd
  | cons ptr rest =>
    obtain ⟨_,hlt,hrest⟩ := hr.oldest hq
    rw [hq] at hnew
    refine ⟨h + 1,Nat.le_succ h,hr.desc,?_,?_,?_,hr.eof,?_,?_,?_⟩
    · rw [hnew]
      exact hrest
    · rw [hnew]
      exact hlt
    · rw [hnew]
      omega
    · intro d' hd
      cases hd
    · intro d' hd
      cases hd
      refine ⟨he,?_⟩
      rw [hnew]
      omega
    · intro hd
      cases hd

/-- The finished buffer goes to the end of the queue, which has room. -/
theorem Ring.isrSend (hr : Ring s h) (hi : s.isr = .send b) :
    Ring { s with
      isr := .clear
      queue := if s.queue.length < c.queueLength then s.queue ++ [b] else s.queue } h := by
  obtain ⟨he,hroom⟩ := hr.send b hi
  obtain ⟨hpos,rfl⟩ := hr.eof b he
  have hold : sent s = s.played.length - 1 :=
    sent_pending he (by rw [hi]; intro hc; cases hc)
  have hlow := hr.low
  have hlen := hr.length
  rw [if_pos (by omega)]
  have hnew : sent { s with isr := .clear, queue := s.queue ++ [turn c (s.played.length - 1)] } =
      sent s + 1 := by
    rw [sent,if_neg (fun hc => hc.2 rfl),hold]
    exact (Nat.sub_add_cancel hpos).symm
  refine ⟨hr.desc,?_,?_,?_,hr.eof,?_,?_,?_⟩
  · have hsplit : sent s + 1 - h = (sent s - h) + 1 := by omega
    rw [hnew,hsplit,List.range'_concat,List.map_append,← hr.queue]
    simp only [Nat.one_mul,List.map_singleton,hold]
    congr 3
    omega
  · rw [hnew]
    omega
  · rw [hnew]
    omega
  · intro d' hd
    cases hd
  · intro d' hd
    cases hd
  · intro _
    change s.outEof ≠ none
    rw [he]
    exact Option.some_ne_none _

theorem Ring.isrClear (hr : Ring s h) (hi : s.isr = .clear) :
    Ring { s with isr := .idle, outEof := none } h := by
  have hold : sent s = s.played.length := if_neg (fun hc => hc.2 hi)
  have hnew : sent { s with isr := .idle, outEof := none } = sent s := by
    rw [hold]
    exact if_neg (fun hc => Bool.noConfusion hc.1)
  refine ⟨hr.desc,?_,?_,?_,?_,?_,?_,?_⟩
  · rw [hnew]
    exact hr.queue
  · rw [hnew]
    exact hr.low
  · rw [hnew]
    exact hr.high
  · intro d hd
    cases hd
  · intro d hd
    cases hd
  · intro d hd
    cases hd
  · intro hd
    cases hd

/-- What the DMA has fetched, or will fetch as things stand, under a number. -/
def content (s : State c) (d : Nat) : List UInt8 := (s.played[d]?).getD (s.buf (turn c d))

/-- What the same buffer held one round before. -/
def prior (s : State c) (d : Nat) : List UInt8 :=
  if d < c.dmaBufCount then List.replicate c.bufSize 0 else content s (d - c.dmaBufCount)

/-- The bytes for the buffer the task has taken as number `k`. -/
def block (s : State c) (k : Nat) : List UInt8 := (s.pushed.drop (k * c.bufSize)).take c.bufSize

/-- Every buffer the task has taken has a number of its own under which the DMA
comes to it, in the order they were taken; what it fetches there is what the task
has put in, and under every other number what was there before. -/
structure Plan (s : State c) (h : Nat) (due : List Nat) : Prop where
  sorted : due.Pairwise (· < ·)
  first : ∀ e ∈ due, c.dmaBufCount ≤ e
  last : ∀ e ∈ due, e < h + c.dmaBufCount
  ptr : s.currPtr = due.getLast?.map (turn c)
  unused : due = [] → s.pushed = []
  count : due ≠ [] → s.pushed.length + c.bufSize = due.length * c.bufSize + s.rwPos
  before : ∀ e, due.getLast? = some e → s.rwPos < c.bufSize → s.played.length ≤ e
  fresh : ∀ k d, due[k]? = some d → content s d = memcpy (prior s d) 0 (block s k)
  stale : ∀ d < s.played.length + c.dmaBufCount, d ∉ due → content s d = prior s d
  fetched : s.fetched = (s.buf s.desc).take s.offset

theorem content_lt (hd : d < s.played.length) : s.played[d]? = some (content s d) := by
  rw [content,List.getElem?_eq_getElem hd]
  rfl

theorem content_ge (hd : s.played.length ≤ d) : content s d = s.buf (turn c d) := by
  rw [content,List.getElem?_eq_none hd]
  rfl

/-- The DMA goes on to the next buffer: no content changes, and the finished one
comes up again a round later. -/
theorem content_finish (hd : s.desc = turn c s.played.length) (hw : w = s.buf s.desc)
    (ht : t.played = s.played ++ [w]) (hb : t.buf = s.buf) (d : Nat) :
    content t d = content s d := by
  unfold content
  rw [ht,hb]
  rcases Nat.lt_trichotomy d s.played.length with hlt | rfl | hgt
  · rw [List.getElem?_append_left hlt]
  · rw [List.getElem?_concat_length,List.getElem?_eq_none (Nat.le_refl _),hw,hd]
    rfl
  · rw [List.getElem?_eq_none (by rw [List.length_append,List.length_singleton]; omega),
      List.getElem?_eq_none (Nat.le_of_lt hgt)]

theorem Plan.lastDue (hp : Plan s h due) (hc : s.currPtr = some b) :
    ∃ e, due.getLast? = some e ∧ b = turn c e := by
  rw [hp.ptr] at hc
  obtain ⟨e,he,rfl⟩ := Option.map_eq_some_iff.mp hc
  exact ⟨e,he,rfl⟩

/-- The task is not in the buffer the DMA is on. -/
def Apart (s : State c) : Prop := s.currPtr = some s.desc → s.rwPos = c.bufSize

theorem Plan.ahead (hp : Plan s h due) (hd : s.desc = turn c s.played.length) (ha : Apart s)
    (he : due.getLast? = some e) (hpart : s.rwPos < c.bufSize) : s.played.length < e := by
  refine Nat.lt_of_le_of_ne (hp.before e he hpart) ?_
  rintro rfl
  have hptr : s.currPtr = some s.desc := by
    rw [hp.ptr,he,hd]
    rfl
  have := ha hptr
  omega

/-- A step that does not touch the buffers. -/
theorem Plan.quiet (hp : Plan s h due) (hle : h ≤ h')
    (hsame : (t.buf,t.rwPos,t.currPtr,t.desc) = (s.buf,s.rwPos,s.currPtr,s.desc) ∧
      (t.offset,t.pushed,t.fetched,t.played) = (s.offset,s.pushed,s.fetched,s.played)) :
    Plan t h' due := by
  obtain ⟨buf,rwPos,currPtr,queue,writing,desc,offset,outEof,isr,stores,pushed,fetched,played⟩ := t
  simp only [Prod.mk.injEq] at hsame
  obtain ⟨⟨rfl,rfl,rfl,rfl⟩,rfl,rfl,rfl,rfl⟩ := hsame
  refine ⟨hp.sorted,hp.first,?_,hp.ptr,hp.unused,hp.count,hp.before,hp.fresh,hp.stale,hp.fetched⟩
  intro e he
  exact Nat.lt_of_lt_of_le (hp.last e he) (Nat.add_le_add_right hle _)

theorem Plan.fetch (hp : Plan s h due) (hr : Ring s h) (hs : Safe s) (ha : Apart s) :
    Plan s.fetch h due := by
  have hb : s.offset < (s.buf s.desc).length := by
    rw [hs.size]
    exact hs.offset
  have hone : s.fetched ++ ((s.buf s.desc)[s.offset]?).toList =
      (s.buf s.desc).take (s.offset + 1) := by
    rw [hp.fetched,List.getElem?_eq_getElem hb,List.take_add_one,List.getElem?_eq_getElem hb]
  unfold State.fetch
  split_ifs with hend
  · have hwhole : s.fetched ++ ((s.buf s.desc)[s.offset]?).toList = s.buf s.desc := by
      rw [hone,hend,List.take_of_length_le (Nat.le_of_eq (hs.size s.desc))]
    have hcontent := content_finish (t := { s with
      desc := c.empty s.desc, offset := 0, outEof := some s.desc, fetched := []
      played := s.played ++ [s.fetched ++ ((s.buf s.desc)[s.offset]?).toList] })
      hr.desc hwhole rfl rfl
    have hprior : ∀ d, prior { s with
        desc := c.empty s.desc, offset := 0, outEof := some s.desc, fetched := []
        played := s.played ++ [s.fetched ++ ((s.buf s.desc)[s.offset]?).toList] } d =
          prior s d := by
      intro d
      simp only [prior,hcontent]
    refine ⟨hp.sorted,hp.first,hp.last,hp.ptr,hp.unused,hp.count,?_,?_,?_,?_⟩
    · intro e he hpart
      change (s.played ++ [_]).length ≤ e
      rw [List.length_append,List.length_singleton]
      exact hp.ahead hr.desc ha he hpart
    · intro k d hk
      rw [hcontent,hprior]
      exact hp.fresh k d hk
    · intro d hd hn
      rw [hcontent,hprior]
      change d < (s.played ++ [_]).length + c.dmaBufCount at hd
      rw [List.length_append,List.length_singleton] at hd
      rcases Nat.lt_or_ge d (s.played.length + c.dmaBufCount) with hlt | hge
      · exact hp.stale d hlt hn
      · -- the number a round behind the finished buffer
        obtain rfl : d = s.played.length + c.dmaBufCount := by omega
        rw [prior,if_neg (by omega),Nat.add_sub_cancel,content_ge (by omega),
          content_ge (Nat.le_refl _),turn_round]
    · rw [List.take_zero]
  · exact ⟨hp.sorted,hp.first,hp.last,hp.ptr,hp.unused,hp.count,hp.before,hp.fresh,hp.stale,hone⟩

theorem Plan.due_lt (hp : Plan s h due) (hr : Ring s h) (he : e ∈ due) :
    e < s.played.length + c.dmaBufCount := by
  have := hp.last e he
  have := hr.low
  have := sent_le s
  omega

/-- The oldest buffer of the queue gets the number it comes up under next. -/
theorem Plan.take (hp : Plan s h due) (hr : Ring s h)
    (hrest : s.rwPos = c.bufSize ∨ s.currPtr = none) (hq : s.queue = b :: queue) :
    Plan { s with currPtr := some b, queue := queue, rwPos := 0 } (h + 1)
      (due ++ [h + c.dmaBufCount]) := by
  obtain ⟨rfl,hlt,_⟩ := hr.oldest hq
  have hbelow := sent_le s
  have habove := le_sent s
  have hhigh := hr.high
  have hn := c.count
  have hnew : h + c.dmaBufCount ∉ due := by
    intro hm
    have := hp.last _ hm
    omega
  have hpushed : s.pushed.length = due.length * c.bufSize := by
    by_cases hd : due = []
    · rw [hp.unused hd,hd,List.length_nil,List.length_nil,Nat.zero_mul]
    · have hcount := hp.count hd
      rcases hrest with hfull | hnone
      · omega
      · rw [hp.ptr] at hnone
        simp [hd] at hnone
  refine ⟨?_,?_,?_,?_,?_,?_,?_,?_,?_,hp.fetched⟩
  · apply List.pairwise_append.mpr
    refine ⟨hp.sorted,List.pairwise_singleton _ _,?_⟩
    intro e he e' he'
    obtain rfl := List.mem_singleton.mp he'
    exact hp.last e he
  · intro e he
    rcases List.mem_append.mp he with he | he
    · exact hp.first e he
    · obtain rfl := List.mem_singleton.mp he
      exact Nat.le_add_left _ _
  · intro e he
    rcases List.mem_append.mp he with he | he
    · have := hp.last e he
      omega
    · obtain rfl := List.mem_singleton.mp he
      omega
  · rw [List.getLast?_concat,Option.map_some,turn_round]
  · intro hd
    simp at hd
  · intro _
    change s.pushed.length + c.bufSize = (due ++ [_]).length * c.bufSize + 0
    rw [hpushed,List.length_append,List.length_singleton,Nat.succ_mul,Nat.add_zero]
  · intro e he _
    rw [List.getLast?_concat,Option.some.injEq] at he
    subst e
    change s.played.length ≤ h + c.dmaBufCount
    have hlength := queueLength_succ c
    omega
  · intro k d hk
    rw [List.getElem?_append] at hk
    split_ifs at hk with hold
    · exact hp.fresh k d hk
    · have hlen := (List.getElem?_eq_some_iff.mp hk).1
      obtain rfl := List.mem_singleton.mp (List.mem_of_getElem? hk)
      obtain rfl : k = due.length := by
        rw [List.length_singleton] at hlen
        omega
      -- nothing is in the block yet
      have hnil : block s due.length = [] := by
        rw [block,List.drop_of_length_le (Nat.le_of_eq hpushed),List.take_nil]
      have hfree := hp.stale (h + c.dmaBufCount) (by omega) hnew
      change content s (h + c.dmaBufCount) = memcpy (prior s _) 0 (block s _)
      rw [hnil,hfree,memcpy]
      simp
  · intro d hd hm
    exact hp.stale d hd (fun hold => hm (List.mem_append_left _ hold))

theorem store_some (hc : u.currPtr = some b) (bytes : List UInt8) :
    u.store bytes = { u with
      buf := Function.update u.buf b (memcpy (u.buf b) u.rwPos bytes)
      rwPos := u.rwPos + bytes.length
      stores := u.stores ++ [⟨b,u.rwPos,bytes.length⟩]
      pushed := u.pushed ++ bytes } := by
  unfold State.store
  rw [hc]

section Store
variable {bytes : List UInt8} (hc : u.currPtr = some (turn c e)) (hnow : u.played.length ≤ e)
include hc hnow

/-- A store changes one buffer, and of the numbers to come only one stands for it. -/
theorem content_store (hround : e < u.played.length + c.dmaBufCount)
    (hd : d < u.played.length + c.dmaBufCount) (hde : d ≠ e) :
    content (u.store bytes) d = content u d := by
  rw [store_some hc]
  unfold content
  rcases Nat.lt_or_ge d u.played.length with hlt | hge
  · rw [List.getElem?_eq_getElem hlt]
    rfl
  · have hturn : turn c d ≠ turn c e := by
      intro ht
      exact hde (turn_inj ⟨hge,hd⟩ ⟨hnow,hround⟩ ht)
    change (u.played[d]?).getD (Function.update u.buf (turn c e) _ (turn c d)) = _
    rw [Function.update_of_ne hturn]

theorem prior_store (hround : e < u.played.length + c.dmaBufCount)
    (hd : d < u.played.length + c.dmaBufCount) : prior (u.store bytes) d = prior u d := by
  unfold prior
  split_ifs
  · rfl
  · apply content_store hc hnow hround
    · omega
    · omega

/-- Under its own number the bytes are behind what the buffer held. -/
theorem content_stored : content (u.store bytes) e = memcpy (content u e) u.rwPos bytes := by
  rw [content_ge hnow,store_some hc,content_ge (by exact hnow)]
  exact Function.update_self ..

end Store

/-- All buffers taken but the last are full. -/
theorem Plan.front (hp : Plan u h due) (hne : due ≠ []) :
    u.pushed.length = (due.length - 1) * c.bufSize + u.rwPos := by
  have hcount := hp.count hne
  obtain ⟨m,hm⟩ := Nat.exists_eq_succ_of_ne_zero (Nat.ne_of_gt (List.length_pos_iff.mpr hne))
  rw [hm,Nat.succ_mul] at hcount
  rw [hm,Nat.succ_sub_one]
  omega

/-- The bytes go to the end of the last block. -/
theorem Plan.block_last (hp : Plan u h due) (hne : due ≠ []) (hc : u.currPtr = some b)
    (hfit : u.rwPos + bytes.length ≤ c.bufSize) :
    block (u.store bytes) (due.length - 1) = block u (due.length - 1) ++ bytes ∧
      (block u (due.length - 1)).length = u.rwPos := by
  have hfront := hp.front hne
  have hwas : block u (due.length - 1) = u.pushed.drop ((due.length - 1) * c.bufSize) := by
    rw [block,List.take_of_length_le]
    rw [List.length_drop]
    omega
  have hlen : (block u (due.length - 1)).length = u.rwPos := by
    rw [hwas,List.length_drop]
    omega
  have hnow : (u.pushed ++ bytes).drop ((due.length - 1) * c.bufSize) =
      block u (due.length - 1) ++ bytes := by
    rw [List.drop_append_of_le_length (by omega),hwas]
  refine ⟨?_,hlen⟩
  rw [store_some hc]
  change ((u.pushed ++ bytes).drop ((due.length - 1) * c.bufSize)).take c.bufSize = _
  rw [hnow,List.take_of_length_le (by rw [List.length_append,hlen]; exact hfit)]

/-- The blocks before it stay. -/
theorem Plan.block_before (hp : Plan u h due) (hne : due ≠ []) (hc : u.currPtr = some b)
    (hk : k + 1 ≤ due.length - 1) (bytes : List UInt8) : block (u.store bytes) k = block u k := by
  have hfront := hp.front hne
  have hfull := Nat.mul_le_mul_right c.bufSize hk
  rw [Nat.succ_mul] at hfull
  rw [store_some hc]
  exact (take_drop_of_isPrefix (List.prefix_append _ _) (by omega)).symm

/-- The task stores bytes behind those it has put into its buffer. -/
theorem Plan.store (hp : Plan u h due) (hr : Ring u h) (ha : Apart u)
    (hc : u.currPtr = some b) (hpart : u.rwPos < c.bufSize)
    (hfit : u.rwPos + bytes.length ≤ c.bufSize) : Plan (u.store bytes) h due := by
  obtain ⟨e,he,rfl⟩ := hp.lastDue hc
  have hem : e ∈ due := List.mem_of_getLast? he
  have hne : due ≠ [] := List.ne_nil_of_mem hem
  have hahead := hp.ahead hr.desc ha he hpart
  have hnow : u.played.length ≤ e := Nat.le_of_lt hahead
  have hround := hp.due_lt hr hem
  have hlast : due[due.length - 1]? = some e := by
    rw [← he,List.getLast?_eq_getElem?]
  have hcount := hp.count hne
  have hfresh : ∀ k d, due[k]? = some d →
      content (u.store bytes) d = memcpy (prior (u.store bytes) d) 0 (block (u.store bytes) k) := by
    intro k d hk
    have hdm := List.mem_of_getElem? hk
    have hklt := (List.getElem?_eq_some_iff.mp hk).1
    have hold := hp.fresh k d hk
    rw [prior_store hc hnow hround (hp.due_lt hr hdm)]
    by_cases hde : d = e
    · subst d
      obtain rfl : k = due.length - 1 := by
        have hnodup : due.Nodup := hp.sorted.imp (fun hab => Nat.ne_of_lt hab)
        exact (List.getElem?_inj hklt hnodup).mp (hk.trans hlast.symm)
      obtain ⟨hblock,hlen⟩ := hp.block_last hne hc hfit
      rw [content_stored hc hnow,hblock,hold,← hlen,
        ← Nat.zero_add (block u (due.length - 1)).length,memcpy_memcpy (Nat.zero_le _)]
    · have hbefore : k + 1 ≤ due.length - 1 := by
        rcases Nat.lt_or_ge (k + 1) due.length with hlt | hge
        · omega
        · obtain rfl : k = due.length - 1 := by omega
          rw [hlast,Option.some.injEq] at hk
          exact absurd hk.symm hde
      rw [content_store hc hnow hround (hp.due_lt hr hdm) hde,hold,
        hp.block_before hne hc hbefore bytes]
  have hstale : ∀ d < u.played.length + c.dmaBufCount, d ∉ due →
      content (u.store bytes) d = prior (u.store bytes) d := by
    intro d hd hm
    have hde : d ≠ e := by
      rintro rfl
      exact hm hem
    rw [content_store hc hnow hround hd hde,prior_store hc hnow hround hd]
    exact hp.stale d hd hm
  have hturn : u.desc ≠ turn c e := by
    rw [hr.desc]
    intro ht
    have := turn_inj (n := u.played.length) ⟨Nat.le_refl _,by have := c.count; omega⟩
      ⟨hnow,hround⟩ ht
    omega
  rw [store_some hc] at hfresh hstale ⊢
  refine ⟨hp.sorted,hp.first,hp.last,hp.ptr,?_,?_,?_,hfresh,hstale,?_⟩
  · intro hd
    exact absurd hd hne
  · intro _
    change (u.pushed ++ bytes).length + c.bufSize = _ + (u.rwPos + bytes.length)
    rw [List.length_append]
    omega
  · intro e' he' _
    rw [he,Option.some.injEq] at he'
    subst e'
    exact hnow
  · change u.fetched = (Function.update u.buf (turn c e) _ u.desc).take u.offset
    rw [Function.update_of_ne hturn]
    exact hp.fetched

/-- The ring and the plan together, with the bounds on every position. -/
structure Ordered (s : State c) (h : Nat) (due : List Nat) : Prop where
  safe : Safe s
  ring : Ring s h
  plan : Plan s h due

/-- In time: the task and the DMA are in different buffers whenever one of them
moves, and the interrupt has cleared `out_eof` before the next buffer ends. Writes
are of whole samples, and the clock is set only while the DMA is on the first
buffer. -/
def InTime (s : State c) : Act c → Prop
  | .pushSample _ => ∀ u ∈ s.acquire, Apart u
  | .writeBytes src => c.sampleSize ∣ src.length
  | .writePass => ∀ u ∈ s.acquire, Apart u
  | .fetch => Apart s ∧ (s.offset + 1 = c.bufSize → s.outEof = none)
  | .setClk => s.desc = c.first ∧ s.outEof = none
  | .interrupt => True
  | .isrDrop => True
  | .isrSend => True
  | .isrClear => True

instance (s : State c) : Decidable (Apart s) := inferInstanceAs (Decidable (_ → _))

instance (s : State c) (a : Act c) : Decidable (InTime s a) :=
  match a with
  | .pushSample _ => inferInstanceAs (Decidable (∀ u ∈ s.acquire, Apart u))
  | .writeBytes src => inferInstanceAs (Decidable (c.sampleSize ∣ src.length))
  | .writePass => inferInstanceAs (Decidable (∀ u ∈ s.acquire, Apart u))
  | .fetch => inferInstanceAs (Decidable (Apart s ∧ (_ → _)))
  | .setClk => inferInstanceAs (Decidable (_ ∧ _))
  | .interrupt => inferInstanceAs (Decidable True)
  | .isrDrop => inferInstanceAs (Decidable True)
  | .isrSend => inferInstanceAs (Decidable True)
  | .isrClear => inferInstanceAs (Decidable True)

theorem InTime.whole (ht : InTime s a) : Whole a := by
  rintro src rfl
  exact ht

theorem acquire_of_acquired (hu : Acquired s u) : s.acquire = some u := by
  cases hu with
  | same part ptr => exact if_neg (fun hn => hn.elim part ptr)
  | next rest oldest =>
    unfold State.acquire
    rw [if_pos rest,oldest]

theorem Ordered.acquired (ho : Ordered s h due) (hu : Acquired s u) :
    ∃ h' due', Ordered u h' due' := by
  have hsafe := (ho.safe.acquired hu).1
  cases hu with
  | same => exact ⟨h,due,ho⟩
  | next rest oldest =>
    exact ⟨h + 1,due ++ [h + c.dmaBufCount],hsafe,ho.ring.take oldest,
      ho.plan.take ho.ring rest oldest⟩

/-- The two sides of the task's store: where it goes, and that it fits. -/
theorem Ordered.store (ho : Ordered u h due) (ha : Apart u) (hu : Acquired s u)
    (hpart : u.rwPos < c.bufSize) (hfit : u.rwPos + bytes.length ≤ c.bufSize) :
    Ring (u.store bytes) h ∧ Plan (u.store bytes) h due := by
  obtain ⟨ptr,hptr⟩ := hu.ptr
  exact ⟨ho.ring.store bytes,ho.plan.store ho.ring ha hptr hpart hfit⟩

/-- The task stores nothing. -/
def Idle (a : Act c) : Prop := (∀ w, a ≠ .pushSample w) ∧ a ≠ .writePass

/-- Every step in time keeps the order; only the task takes buffers. -/
theorem move_ordered (ht : InTime s a) (ho : Ordered s h due) (hm : Move s a t) :
    ∃ h' due', Ordered t h' due' ∧ (Idle a → due' = due) := by
  have hsafe := move_safe ht.whole ho.safe hm
  have hr := ho.ring
  have hp := ho.plan
  have hquiet : ∀ h', Ring t h' → Plan t h' due →
      ∃ h' due', Ordered t h' due' ∧ (Idle a → due' = due) :=
    fun h' hring hplan => ⟨h',due,⟨hsafe,hring,hplan⟩,fun _ => rfl⟩
  cases hm with
  | call =>
    exact hquiet h ⟨hr.desc,hr.queue,hr.low,hr.high,hr.eof,hr.drop,hr.send,hr.clear⟩
      (hp.quiet (Nat.le_refl h) ⟨rfl,rfl⟩)
  | push got sample =>
    rename_i u
    obtain ⟨h',due',hu⟩ := ho.acquired got
    have hpart := (ho.safe.acquired got).2.1
    have ha := ht u (acquire_of_acquired got)
    have hfit : u.rwPos + sample.bytes.length ≤ c.bufSize := by
      have hbound := hsafe.bound
      obtain ⟨ptr,hptr⟩ := got.ptr
      simp only [State.store,hptr] at hbound
      exact hbound
    obtain ⟨hring,hplan⟩ := hu.store ha got hpart hfit
    exact ⟨h',due',⟨hsafe,hring,hplan⟩,fun hidle => absurd rfl (hidle.1 sample)⟩
  | pass under got part =>
    rename_i src u n
    obtain ⟨h',due',hu⟩ := ho.acquired got
    have hpart := (ho.safe.acquired got).2.1
    have ha := ht u (acquire_of_acquired got)
    have hfit : u.rwPos + (src.take n).length ≤ c.bufSize := by
      rw [List.length_take,part]
      omega
    obtain ⟨hring,hplan⟩ := hu.store ha got hpart hfit
    refine ⟨h',due',⟨hsafe,?_,hplan.quiet (Nat.le_refl h') ⟨rfl,rfl⟩⟩,
      fun hidle => absurd rfl hidle.2⟩
    exact ⟨hring.desc,hring.queue,hring.low,hring.high,hring.eof,hring.drop,hring.send,
      hring.clear⟩
  | fetch =>
    obtain ⟨ha,hend⟩ := ht
    exact hquiet h (hr.fetch hend) (hp.fetch hr ho.safe ha)
  | interrupt eof idle =>
    exact hquiet h (hr.interrupt eof idle (.inr rfl)) (hp.quiet (Nat.le_refl h) ⟨rfl,rfl⟩)
  | room eof idle room =>
    exact hquiet h (hr.interrupt eof idle (.inl ⟨rfl,room⟩)) (hp.quiet (Nat.le_refl h) ⟨rfl,rfl⟩)
  | drop place =>
    obtain ⟨h',hle,hring⟩ := hr.isrDrop place
    exact hquiet h' hring (hp.quiet hle ⟨rfl,rfl⟩)
  | send place => exact hquiet h (hr.isrSend place) (hp.quiet (Nat.le_refl h) ⟨rfl,rfl⟩)
  | clear place => exact hquiet h (hr.isrClear place) (hp.quiet (Nat.le_refl h) ⟨rfl,rfl⟩)
  | restart =>
    obtain ⟨hfirst,hnone⟩ := ht
    have hnew : ({ s with desc := c.first, offset := 0, outEof := none, fetched := [] } : State c) =
        { s with offset := 0, fetched := [] } := by
      rw [← hfirst,← hnone]
    rw [hnew] at hquiet ⊢
    exact hquiet h
      ⟨hr.desc,hr.queue,hr.low,hr.high,hr.eof,hr.drop,hr.send,hr.clear⟩
      ⟨hp.sorted,hp.first,hp.last,hp.ptr,hp.unused,hp.count,hp.before,hp.fresh,hp.stale,
        List.take_zero.symm⟩

theorem init_ordered (c : Config) : Ordered (system c).init 0 [] := by
  refine ⟨init_safe c,⟨?_,rfl,Nat.le_refl 0,Nat.zero_le _,?_,?_,?_,?_⟩,
    ⟨.nil,?_,?_,rfl,?_,?_,?_,?_,?_,?_⟩⟩
  · exact Fin.ext (Nat.zero_mod _).symm
  · intro d hd
    cases hd
  · intro d hd
    cases hd
  · intro d hd
    cases hd
  · intro hd
    cases hd
  · intro e he
    cases he
  · intro e he
    cases he
  · intro _
    rfl
  · intro hd
    exact absurd rfl hd
  · intro e he
    cases he
  · intro k d hk
    cases hk
  · intro d hd _
    have hlt : d < c.dmaBufCount := by simpa [system] using hd
    rw [prior,if_pos hlt]
    rfl
  · exact List.take_zero.symm

theorem run_ordered (hr : (system c).Run InTime acts s) : ∃ h due, Ordered s h due := by
  refine System.Run.invariant (P := fun s => ∃ h due, Ordered s h due) ⟨0,[],init_ordered c⟩ ?_ hr
  rintro s a t ⟨h,due,ho⟩ ha ht
  obtain ⟨h',due',ho',_⟩ := move_ordered ha ho (step_move ht)
  exact ⟨h',due',ho'⟩

theorem Ordered.length_prior (ho : Ordered s h due) (d : Nat) : (prior s d).length = c.bufSize := by
  unfold prior
  split_ifs
  · exact List.length_replicate
  · rcases Nat.lt_or_ge (d - c.dmaBufCount) s.played.length with hlt | hge
    · exact ho.safe.played _ (List.mem_of_getElem? (content_lt hlt))
    · rw [content_ge hge]
      exact ho.safe.size _

/-- A buffer the DMA has been through was full. -/
theorem Ordered.full (ho : Ordered s h due) (hk : due[k]? = some d) (hd : d < s.played.length) :
    (k + 1) * c.bufSize ≤ s.pushed.length := by
  have hlt := (List.getElem?_eq_some_iff.mp hk).1
  have hne : due ≠ [] := List.ne_nil_of_length_pos (by omega)
  have hcount := ho.plan.count hne
  rcases Nat.lt_or_ge (k + 1) due.length with hmore | hlast
  · have hle : (k + 1 + 1) * c.bufSize ≤ due.length * c.bufSize := Nat.mul_le_mul_right _ hmore
    rw [Nat.succ_mul] at hle
    omega
  · obtain hk1 : k + 1 = due.length := by omega
    have hlast : due.getLast? = some d := by
      rw [List.getLast?_eq_getElem?,← hk1,Nat.add_sub_cancel]
      exact hk
    have hfull : ¬ s.rwPos < c.bufSize := by
      intro hpart
      have := ho.plan.before d hlast hpart
      omega
    rw [hk1]
    omega

theorem Ordered.enough (ho : Ordered s h due) : s.pushed.length ≤ due.length * c.bufSize := by
  by_cases hne : due = []
  · rw [ho.plan.unused hne]
    exact Nat.zero_le _
  · have := ho.plan.count hne
    have := ho.safe.bound
    omega

theorem Ordered.played_block (ho : Ordered s h due) (hk : due[k]? = some d)
    (hd : d < s.played.length) : s.played[d]? = some (block s k) := by
  have hfull := ho.full hk hd
  rw [content_lt hd,ho.plan.fresh k d hk,Option.some.injEq]
  -- a full block covers all that was there
  rw [Nat.succ_mul] at hfull
  have hblock : (block s k).length = c.bufSize := by
    rw [block,List.length_take,List.length_drop]
    omega
  rw [memcpy,hblock,List.drop_of_length_le (by rw [ho.length_prior]; omega)]
  simp

theorem Ordered.played_again (ho : Ordered s h due) (hd : d < s.played.length) (hm : d ∉ due) :
    s.played[d]? = if d < c.dmaBufCount then some (List.replicate c.bufSize 0)
      else s.played[d - c.dmaBufCount]? := by
  rw [content_lt hd,ho.plan.stale d (by omega) hm,prior]
  split_ifs
  · rfl
  · rw [content_lt (by omega)]

end

end WifiSpeaker.Proofs.I2sOrder
