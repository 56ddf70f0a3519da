import WifiSpeaker.Common.Runs

namespace WifiSpeaker.Common

/-- A queue seen from outside: everything that entered it and everything that
left it since it was last emptied. Only the first `committed` elements may leave. -/
structure Queue (α : Type) where
  entered : List α
  left : List α
  committed : Nat

inductive QueueAct (α : Type)
  | enter (xs : List α)
  | commit
  | leave (n : Nat)
  | reset

namespace Queue
variable {α : Type} {q q' : Queue α} {xs : List α} {cap unit n : Nat}

/-- The elements still inside. -/
def waiting (q : Queue α) : List α := q.entered.drop q.left.length

/-- The elements inside that may leave. -/
def ready (q : Queue α) : List α := (q.entered.take q.committed).drop q.left.length

/-- A queue of bounded capacity whose elements become ready only in whole units. -/
def system (α : Type) (cap unit : Nat) : System (Queue α) (QueueAct α) where
  init := ⟨[],[],0⟩
  step q
    | .enter xs =>
      if q.waiting.length + xs.length ≤ cap then some { q with entered := q.entered ++ xs }
      else none
    | .commit =>
      if q.entered.length % unit = 0 then some { q with committed := q.entered.length } else none
    | .leave n =>
      if q.left.length + n ≤ q.committed then some { q with left := q.left ++ q.waiting.take n }
      else none
    | .reset => some ⟨[],[],0⟩

/-- Order and content are kept, nothing leaves early, and the bound holds. -/
structure Sound (cap unit : Nat) (q : Queue α) : Prop where
  kept : q.left ++ q.waiting = q.entered
  early : q.left.length ≤ q.committed
  bound : q.committed ≤ q.entered.length
  whole : q.committed % unit = 0
  room : q.waiting.length ≤ cap

theorem Sound.left_first (h : Sound cap unit q) : q.left <+: q.entered := ⟨q.waiting,h.kept⟩

theorem waiting_append (h : q.left.length ≤ q.entered.length) (xs : List α) :
    waiting { q with entered := q.entered ++ xs } = q.waiting ++ xs :=
  List.drop_append_of_le_length h

theorem step_enter (h : q.waiting.length + xs.length ≤ cap) :
    (system α cap unit).step q (.enter xs) = some { q with entered := q.entered ++ xs } :=
  if_pos h

theorem step_commit (h : q.entered.length % unit = 0) :
    (system α cap unit).step q .commit = some { q with committed := q.entered.length } :=
  if_pos h

theorem step_leave (h : q.left.length + n ≤ q.committed) :
    (system α cap unit).step q (.leave n) = some { q with left := q.left ++ q.waiting.take n } :=
  if_pos h

theorem Sound.left_le (h : Sound cap unit q) : q.left.length ≤ q.entered.length :=
  Nat.le_trans h.early h.bound

theorem Sound.enter (h : Sound cap unit q) (hr : q.waiting.length + xs.length ≤ cap) :
    Sound cap unit { q with entered := q.entered ++ xs } := by
  refine ⟨?_,h.early,?_,h.whole,?_⟩
  · rw [waiting_append h.left_le,← List.append_assoc,h.kept]
  · simp only [List.length_append]
    have := h.bound
    omega
  · rw [waiting_append h.left_le,List.length_append]
    exact hr

theorem Sound.leave (h : Sound cap unit q) (hn : q.left.length + n ≤ q.committed) :
    Sound cap unit { q with left := q.left ++ q.waiting.take n } := by
  have hlen : (q.waiting.take n).length = n := by
    rw [List.length_take,waiting,List.length_drop]
    have := h.bound
    omega
  have hw : waiting { q with left := q.left ++ q.waiting.take n } = q.waiting.drop n := by
    simp only [waiting,List.length_append,List.drop_drop] at hlen ⊢
    rw [hlen]
  refine ⟨?_,?_,h.bound,h.whole,?_⟩
  · rw [hw,List.append_assoc,List.take_append_drop,h.kept]
  · rw [List.length_append,hlen]
    exact hn
  · rw [hw,List.length_drop]
    have := h.room
    omega

theorem step_sound (h : Sound cap unit q) (ht : (system α cap unit).step q a = some q') :
    Sound cap unit q' := by
  cases a with
  | enter xs =>
    simp only [system,Option.ite_none_right_eq_some,Option.some.injEq] at ht
    obtain ⟨hr,rfl⟩ := ht
    exact h.enter hr
  | commit =>
    simp only [system,Option.ite_none_right_eq_some,Option.some.injEq] at ht
    obtain ⟨hu,rfl⟩ := ht
    exact ⟨h.kept,h.left_le,Nat.le_refl _,hu,h.room⟩
  | leave n =>
    simp only [system,Option.ite_none_right_eq_some,Option.some.injEq] at ht
    obtain ⟨hn,rfl⟩ := ht
    exact h.leave hn
  | reset =>
    simp only [system,Option.some.injEq] at ht
    subst q'
    exact ⟨rfl,Nat.le_refl _,Nat.le_refl _,Nat.zero_mod _,Nat.zero_le _⟩

theorem reaches_sound (h : (system α cap unit).Reaches q) : Sound cap unit q :=
  h.invariant ⟨rfl,Nat.le_refl _,Nat.le_refl _,Nat.zero_mod _,Nat.zero_le _⟩
    (fun _ _ _ => step_sound)

end Queue

end WifiSpeaker.Common
