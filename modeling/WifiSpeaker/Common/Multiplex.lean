import Mathlib.Data.List.Infix
import Mathlib.Logic.Function.Basic

namespace WifiSpeaker.Common.Multiplex

/-- The elements that carry a tag, in their order. -/
def partOf {ι μ : Type} [DecidableEq ι] (i : ι) (w : List (ι × μ)) : List μ :=
  (w.filter (fun p => p.1 = i)).map Prod.snd

section
variable {ι μ : Type} [DecidableEq ι]

theorem partOf_append (i : ι) (w w' : List (ι × μ)) :
    partOf i (w ++ w') = partOf i w ++ partOf i w' := by
  simp [partOf]

theorem partOf_own (i : ι) (ms : List μ) : partOf i (ms.map (Prod.mk i)) = ms := by
  induction ms with
  | nil => rfl
  | cons m ms ih => simpa [partOf] using ih

theorem partOf_other {i j : ι} (h : i ≠ j) (ms : List μ) : partOf j (ms.map (Prod.mk i)) = [] := by
  induction ms with
  | nil => rfl
  | cons m ms ih => simp [partOf,h]

theorem mem_partOf {i : ι} {m : μ} {w : List (ι × μ)} : m ∈ partOf i w ↔ (i,m) ∈ w := by
  simp [partOf]

end

section
variable {μ β : Type} {encode : μ → List β} {ms : List μ} {xs ys : List β}

/-- Part of the first message of a list, short of its end. -/
def Begun (encode : μ → List β) (part : List β) (ms : List μ) : Prop :=
  part = [] ∨ ∃ m rest, ms = m :: rest ∧ part.length < (encode m).length

/-- Cutting a stream of messages anywhere leaves whole messages and part of
one more in front of the cut. -/
theorem cut_messages (h : xs ++ ys = ms.flatMap encode) :
    ∃ done todo part, ms = done ++ todo ∧ xs = done.flatMap encode ++ part ∧
      part ++ ys = todo.flatMap encode ∧ Begun encode part todo := by
  induction ms generalizing xs with
  | nil =>
    obtain ⟨rfl,rfl⟩ := List.append_eq_nil_iff.mp h
    exact ⟨[],[],[],rfl,rfl,rfl,.inl rfl⟩
  | cons m ms ih =>
    by_cases hlt : xs.length < (encode m).length
    · exact ⟨[],m :: ms,xs,rfl,rfl,h,.inr ⟨m,ms,rfl,hlt⟩⟩
    · rw [List.flatMap_cons] at h
      obtain ⟨xs',rfl,hrest⟩ : ∃ xs', xs = encode m ++ xs' ∧ xs' ++ ys = ms.flatMap encode := by
        rcases List.append_eq_append_iff.mp h with ⟨zs,hx,hy⟩ | ⟨zs,hx,hy⟩
        · refine ⟨[],?_,?_⟩
          · have : zs = [] := by
              have := congrArg List.length hx
              simp only [List.length_append] at this
              exact List.eq_nil_of_length_eq_zero (by omega)
            simpa [this] using hx.symm
          · have : zs = [] := by
              have := congrArg List.length hx
              simp only [List.length_append] at this
              exact List.eq_nil_of_length_eq_zero (by omega)
            simpa [this] using hy
        · exact ⟨zs,hx,hy.symm⟩
      obtain ⟨done,todo,part,rfl,rfl,hp,hb⟩ := ih hrest
      exact ⟨m :: done,todo,part,rfl,by simp,hp,hb⟩

theorem flatMap_suffix_length (encode : μ → List β) {ms ms' : List μ} (h : ms <:+ ms') :
    (ms.flatMap encode).length ≤ (ms'.flatMap encode).length := by
  obtain ⟨more,rfl⟩ := h
  simp only [List.flatMap_append,List.length_append]
  omega

/-- What is left in the middle of a message is not what is left at the start of one. -/
theorem begun_not_suffix (hb : Begun encode part todo) (hp : part ++ ys = todo.flatMap encode)
    (htodo : todo <:+ all) (hys : ys = rest.flatMap encode) (hrest : rest <:+ all) :
    part = [] := by
  rcases hb with hb | ⟨m,ms,rfl,hlt⟩
  · exact hb
  · have hlen := congrArg List.length hp
    simp only [List.length_append,List.flatMap_cons] at hlen
    apply List.eq_nil_of_length_eq_zero
    rcases List.suffix_or_suffix_of_suffix hrest htodo with h | h
    · rcases List.suffix_cons_iff.mp h with rfl | h
      · simp only [hys,List.flatMap_cons,List.length_append] at hlen
        omega
      · have := flatMap_suffix_length encode h
        rw [← hys] at this
        omega
    · have := flatMap_suffix_length encode h
      simp only [← hys,List.flatMap_cons,List.length_append] at this
      omega

end

section
variable {ι μ β : Type} {encode : μ → List β}

/-- A message on the line, every element with its sender. -/
def tagged (encode : μ → List β) (p : ι × μ) : List (ι × β) := (encode p.2).map (Prod.mk p.1)

theorem flatMap_tagged (i : ι) (ms : List μ) :
    (ms.map (Prod.mk i)).flatMap (tagged encode) = (ms.flatMap encode).map (Prod.mk i) := by
  induction ms with
  | nil => rfl
  | cons m ms ih => simp [tagged,ih]

theorem map_snd_tagged (w : List (ι × μ)) :
    (w.flatMap (tagged encode)).map Prod.snd = (w.map Prod.snd).flatMap encode := by
  induction w with
  | nil => rfl
  | cons p w ih => simp [tagged,ih,Function.comp_def]

end

section
variable {ι μ β : Type} [DecidableEq ι] {encode : μ → List β} {messages : ι → List μ}

/-- Several senders on one line: what each has still to send and, with its
sender, every element put on the line. -/
structure Line (ι β : Type) where
  unsent : ι → List β
  sent : List (ι × β)

/-- A sender puts its next `n` elements on the line. -/
def Line.push (l : Line ι β) (i : ι) (n : Nat) : Line ι β where
  unsent := Function.update l.unsent i ((l.unsent i).drop n)
  sent := l.sent ++ ((l.unsent i).take n).map (Prod.mk i)

/-- The sender is between two of its messages. -/
def AtBoundary (encode : μ → List β) (messages : ι → List μ) (l : Line ι β) (i : ι) : Prop :=
  ∃ rest, rest <:+ messages i ∧ l.unsent i = rest.flatMap encode

instance [DecidableEq β] (l : Line ι β) (i : ι) : Decidable (AtBoundary encode messages l i) :=
  decidable_of_iff (∃ rest ∈ (messages i).tails, l.unsent i = rest.flatMap encode)
    (by simp only [AtBoundary,List.mem_tails])

/-- The line carries whole messages of single senders and behind them part of
one message of one sender. -/
structure Whole (encode : μ → List β) (messages : ι → List μ) (l : Line ι β)
    (w : List (ι × μ)) (todo : ι → List μ) (part : ι → List β) (tail : List (ι × β)) : Prop where
  split : ∀ i, messages i = partOf i w ++ todo i
  left : ∀ i, part i ++ l.unsent i = (todo i).flatMap encode
  begun : ∀ i, Begun encode (part i) (todo i)
  sent : l.sent = w.flatMap (tagged encode) ++ tail
  one : (tail = [] ∧ ∀ j, part j = []) ∨
    ∃ i, tail = (part i).map (Prod.mk i) ∧ ∀ j, j ≠ i → part j = []

theorem Whole.suffix (h : Whole encode messages l w todo part tail) (i : ι) :
    todo i <:+ messages i :=
  ⟨partOf i w,(h.split i).symm⟩

/-- When the others are between messages, the tail is the pusher's. -/
theorem Whole.tail_of_push (h : Whole encode messages l w todo part tail)
    (hb : ∀ j, j ≠ i → AtBoundary encode messages l j) :
    tail = (part i).map (Prod.mk i) ∧ ∀ j, j ≠ i → part j = [] := by
  have hnil : ∀ j, j ≠ i → part j = [] := by
    intro j hj
    obtain ⟨rest,hr,hu⟩ := hb j hj
    exact begun_not_suffix (h.begun j) (h.left j) (h.suffix j) hu hr
  refine ⟨?_,hnil⟩
  rcases h.one with ⟨ht,hp⟩ | ⟨k,ht,hothers⟩
  · rw [ht,hp i]
    rfl
  · by_cases hk : k = i
    · rw [ht,hk]
    · rw [ht,hnil k hk,hothers i (Ne.symm hk)]
      rfl

/-- A push while all others are between messages keeps the messages whole. -/
theorem Whole.push (h : Whole encode messages l w todo part tail)
    (hb : ∀ j, j ≠ i → AtBoundary encode messages l j) (n : Nat) :
    ∃ w' todo' part' tail', Whole encode messages (l.push i n) w' todo' part' tail' := by
  obtain ⟨htail,hnil⟩ := h.tail_of_push hb
  have hcut : (part i ++ (l.unsent i).take n) ++ (l.unsent i).drop n = (todo i).flatMap encode := by
    rw [List.append_assoc,List.take_append_drop,h.left]
  obtain ⟨done,rest,p,hms,hxs,hys,hbegun⟩ := cut_messages hcut
  refine ⟨w ++ done.map (Prod.mk i),Function.update todo i rest,
    Function.update (fun _ => []) i p,p.map (Prod.mk i),?_,?_,?_,?_,?_⟩
  · intro j
    by_cases hj : j = i
    · subst j
      rw [partOf_append,partOf_own,Function.update_self,List.append_assoc,← hms,h.split]
    · rw [partOf_append,partOf_other (Ne.symm hj),Function.update_of_ne hj,List.append_nil,h.split]
  · intro j
    by_cases hj : j = i
    · subst j
      simpa [Line.push] using hys
    · have := h.left j
      rw [hnil j hj] at this
      simpa [Line.push,Function.update_of_ne hj] using this
  · intro j
    by_cases hj : j = i
    · subst j
      simpa using hbegun
    · exact .inl (Function.update_of_ne hj _ _)
  · have hmap := congrArg (List.map (Prod.mk i)) hxs
    simp only [List.map_append] at hmap
    simp only [Line.push,h.sent,htail,List.flatMap_append,flatMap_tagged,List.append_assoc,hmap]
  · refine .inr ⟨i,by rw [Function.update_self],?_⟩
    intro j hj
    exact Function.update_of_ne hj _ _

/-- What is on the line is whole messages, or lacks the end of one more. -/
theorem Whole.completes (h : Whole encode messages l w todo part tail) :
    ∃ more rest, l.sent.map Prod.snd ++ rest = (w.map Prod.snd ++ more).flatMap encode ∧
      (more = [] ∧ rest = [] ∨ rest ≠ [] ∧ ∃ i, ∃ m ∈ messages i, more = [m]) := by
  have hsent : l.sent.map Prod.snd = (w.map Prod.snd).flatMap encode ++ tail.map Prod.snd := by
    rw [h.sent,List.map_append,map_snd_tagged]
  have hclosed (ht : tail = []) : l.sent.map Prod.snd ++ [] =
      (w.map Prod.snd ++ []).flatMap encode := by
    simp [hsent,ht]
  rcases h.one with ⟨ht,_⟩ | ⟨i,ht,_⟩
  · exact ⟨[],[],hclosed ht,.inl ⟨rfl,rfl⟩⟩
  · rcases h.begun i with hp | ⟨m,ms,htodo,hlt⟩
    · rw [hp] at ht
      exact ⟨[],[],hclosed ht,.inl ⟨rfl,rfl⟩⟩
    · have hm : m ∈ messages i := by
        rw [h.split,htodo]
        simp
      have hleft := h.left i
      rw [htodo,List.flatMap_cons] at hleft
      have htake : part i = (encode m).take (part i).length := by
        have := congrArg (List.take (part i).length) hleft
        rwa [List.take_left,List.take_append_of_le_length (Nat.le_of_lt hlt)] at this
      refine ⟨[m],(encode m).drop (part i).length,?_,.inr ⟨?_,i,m,hm,rfl⟩⟩
      · have hpart : part i ++ (encode m).drop (part i).length = encode m := by
          nth_rewrite 1 [htake]
          exact List.take_append_drop _ _
        rw [hsent,ht]
        simp [Function.comp_def,hpart]
      · rw [Ne,List.drop_eq_nil_iff]
        omega

/-- Once everything is on the line, it is an interleaving of all messages. -/
theorem Whole.drained (h : Whole encode messages l w todo part tail)
    (hne : ∀ m, encode m ≠ []) (hu : ∀ i, l.unsent i = []) :
    tail = [] ∧ ∀ i, partOf i w = messages i := by
  have hdone : ∀ i, part i = [] ∧ todo i = [] := by
    intro i
    have hleft := h.left i
    rw [hu i,List.append_nil] at hleft
    rcases h.begun i with hp | ⟨m,ms,htodo,hlt⟩
    · refine ⟨hp,?_⟩
      rw [hp] at hleft
      cases ht : todo i with
      | nil => rfl
      | cons m ms =>
        rw [ht,List.flatMap_cons] at hleft
        exact absurd (List.append_eq_nil_iff.mp hleft.symm).1 (hne m)
    · rw [htodo,List.flatMap_cons] at hleft
      have := congrArg List.length hleft
      rw [List.length_append] at this
      omega
  constructor
  · rcases h.one with ⟨ht,_⟩ | ⟨i,ht,_⟩
    · exact ht
    · rw [ht,(hdone i).1]
      rfl
  · intro i
    rw [h.split i,(hdone i).2,List.append_nil]

theorem Whole.init (encode : μ → List β) (messages : ι → List μ) :
    Whole encode messages ⟨fun i => (messages i).flatMap encode,[]⟩ [] messages (fun _ => []) [] :=
  ⟨fun _ => rfl,fun _ => rfl,fun _ => .inl rfl,rfl,.inl ⟨rfl,fun _ => rfl⟩⟩

end

end WifiSpeaker.Common.Multiplex
