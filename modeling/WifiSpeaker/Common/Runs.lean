import Mathlib.Data.List.Basic
import Mathlib.Data.List.Induction
import Mathlib.Logic.Relation

namespace WifiSpeaker.Common

/-- A guarded transition system. A disabled action has no successor: the task
that would take it waits. -/
structure System (σ α : Type) where
  init : σ
  step : σ → α → Option σ

namespace System
variable {σ α τ β : Type} {M : System σ α} {ok ok' : σ → α → Prop}

/-- The action list, oldest first, leads from the initial state to the given
one, and every action met the condition in the state it was taken from. -/
inductive Run (M : System σ α) (ok : σ → α → Prop) : List α → σ → Prop
  | start : Run M ok [] M.init
  | next (h : Run M ok acts s) (hc : ok s a) (ht : M.step s a = some t) : Run M ok (acts ++ [a]) t

/-- Some unconditional run ends in the state. -/
def Reaches (M : System σ α) (s : σ) : Prop := ∃ acts, M.Run (fun _ _ => True) acts s

/-- Zero or more enabled actions. -/
def Steps (M : System σ α) : σ → σ → Prop :=
  Relation.ReflTransGen (fun s t => ∃ a, M.step s a = some t)

theorem Steps.refl (s : σ) : M.Steps s s := Relation.ReflTransGen.refl

theorem Steps.one (h : M.step s a = some t) : M.Steps s t := Relation.ReflTransGen.single ⟨a,h⟩

theorem Steps.two (h : M.step s a = some t) (h' : M.step t b = some u) : M.Steps s u :=
  Relation.ReflTransGen.tail (Steps.one h) ⟨b,h'⟩

/-- Zero or more enabled actions that meet the condition. -/
def StepsUnder (M : System σ α) (ok : σ → α → Prop) : σ → σ → Prop :=
  Relation.ReflTransGen (fun s t => ∃ a, ok s a ∧ M.step s a = some t)

theorem StepsUnder.refl (s : σ) : M.StepsUnder ok s s := Relation.ReflTransGen.refl

theorem StepsUnder.one (hc : ok s a) (h : M.step s a = some t) : M.StepsUnder ok s t :=
  Relation.ReflTransGen.single ⟨a,hc,h⟩

theorem StepsUnder.trans (h : M.StepsUnder ok s t) (h' : M.StepsUnder ok t u) :
    M.StepsUnder ok s u := Relation.ReflTransGen.trans h h'

/-- What the steps keep, in terms of the state they started from. -/
theorem StepsUnder.keeps {P : σ → σ → Prop} (h : M.StepsUnder ok s t) (h0 : P s s)
    (hs : ∀ u a v, P s u → ok u a → M.step u a = some v → P s v) : P s t := by
  induction h with
  | refl => exact h0
  | tail _ hstep ih =>
    obtain ⟨a,hc,ht⟩ := hstep
    exact hs _ a _ ih hc ht

/-- Another system goes along. -/
theorem StepsUnder.lift {A : System τ β} {ok' : τ → β → Prop} {f : σ → τ}
    (h : M.StepsUnder ok s t)
    (hs : ∀ u a v, ok u a → M.step u a = some v → A.StepsUnder ok' (f u) (f v)) :
    A.StepsUnder ok' (f s) (f t) := by
  induction h with
  | refl => exact .refl _
  | tail _ hstep ih =>
    obtain ⟨a,hc,ht⟩ := hstep
    exact ih.trans (hs _ a _ hc ht)

/-- An invariant of every state on a conditioned run. -/
theorem Run.invariant {P : σ → Prop} (h0 : P M.init)
    (hs : ∀ s a t, P s → ok s a → M.step s a = some t → P t)
    (hr : M.Run ok acts s) : P s := by
  induction hr with
  | start => exact h0
  | next _ hc ht ih => exact hs _ _ _ ih hc ht

/-- An invariant that also looks at the actions taken so far. -/
theorem Run.history {P : List α → σ → Prop} (h0 : P [] M.init)
    (hs : ∀ acts s a t, P acts s → ok s a → M.step s a = some t → P (acts ++ [a]) t)
    (hr : M.Run ok acts s) : P acts s := by
  induction hr with
  | start => exact h0
  | next _ hc ht ih => exact hs _ _ _ _ ih hc ht

theorem Run.mono (hr : M.Run ok acts s) (h : ∀ s a, ok s a → ok' s a) : M.Run ok' acts s := by
  induction hr with
  | start => exact .start
  | next _ hc ht ih => exact .next ih (h _ _ hc) ht

theorem Run.reaches (hr : M.Run ok acts s) : M.Reaches s :=
  ⟨acts,hr.mono (fun _ _ _ => trivial)⟩

/-- A run ends with its last action. -/
theorem Run.last (hr : M.Run ok (acts ++ [a]) t) :
    ∃ s, M.Run ok acts s ∧ ok s a ∧ M.step s a = some t := by
  generalize hall : acts ++ [a] = all at hr
  cases hr with
  | start => simp at hall
  | next h hc ht =>
    obtain ⟨rfl,hlast⟩ := List.append_inj' hall rfl
    cases hlast
    exact ⟨_,h,hc,ht⟩

/-- A run goes on with steps under its condition. -/
theorem Run.goesOn (hr : M.Run ok acts s) (h : M.StepsUnder ok s t) :
    ∃ more, M.Run ok (acts ++ more) t := by
  induction h with
  | refl => exact ⟨[],by rwa [List.append_nil]⟩
  | tail _ hstep ih =>
    obtain ⟨a,hc,ht⟩ := hstep
    obtain ⟨more,hmore⟩ := ih
    exact ⟨more ++ [a],by rw [← List.append_assoc]; exact hmore.next hc ht⟩

/-- The actions determine the state. -/
theorem Run.unique (hr : M.Run ok acts s) (hr' : M.Run ok' acts s') : s = s' := by
  induction hr generalizing s' with
  | start =>
    generalize hall : ([] : List α) = all at hr'
    cases hr' with
    | start => rfl
    | next => simp at hall
  | next _ _ ht ih =>
    obtain ⟨u,hu,_,hu'⟩ := hr'.last
    cases ih hu
    exact Option.some.inj (ht.symm.trans hu')

/-- What comes behind the beginning of a run. -/
theorem Run.rest (hs : M.Run ok acts s) (ht : M.Run ok (acts ++ more) t) :
    M.StepsUnder ok s t := by
  induction more using List.reverseRecOn generalizing t with
  | nil =>
    rw [List.append_nil] at ht
    obtain rfl := hs.unique ht
    exact .refl s
  | append_singleton more a ih =>
    rw [← List.append_assoc] at ht
    obtain ⟨u,hu,hc,hstep⟩ := ht.last
    exact (ih hu).trans (.one hc hstep)

/-- A run passes through the end of every shorter one. -/
theorem Run.before {front : List α} (hr : M.Run ok acts s) (hp : front <+: acts) :
    ∃ t, M.Run ok front t := by
  induction hr with
  | start =>
    cases List.prefix_nil.mp hp
    exact ⟨_,.start⟩
  | next h hc ht ih =>
    rcases List.prefix_concat_iff.mp hp with rfl | hp
    · exact ⟨_,.next h hc ht⟩
    · exact ih hp

theorem Reaches.init (M : System σ α) : M.Reaches M.init := ⟨[],.start⟩

theorem Reaches.step (hr : M.Reaches s) (ht : M.step s a = some t) : M.Reaches t := by
  obtain ⟨acts,hr⟩ := hr
  exact ⟨acts ++ [a],.next hr trivial ht⟩

theorem Reaches.steps (hr : M.Reaches s) (ht : M.Steps s t) : M.Reaches t := by
  induction ht with
  | refl => exact hr
  | tail _ h ih =>
    obtain ⟨a,ha⟩ := h
    exact ih.step ha

theorem Reaches.invariant {P : σ → Prop} (h0 : P M.init)
    (hs : ∀ s a t, P s → M.step s a = some t → P t) (hr : M.Reaches s) : P s := by
  obtain ⟨acts,hr⟩ := hr
  exact hr.invariant h0 (fun s a t h _ ht => hs s a t h ht)

/-- Forward simulation along a conditioned run: each concrete action is
answered by some abstract ones, and the end states stay related. -/
theorem Run.simulates {A : System τ β} {R : σ → τ → Prop} (h0 : R M.init A.init)
    (hs : ∀ s q a t, R s q → ok s a → M.step s a = some t → ∃ q', A.Steps q q' ∧ R t q')
    (hr : M.Run ok acts s) : ∃ q, A.Reaches q ∧ R s q := by
  induction hr with
  | start => exact ⟨A.init,Reaches.init A,h0⟩
  | next _ hc ht ih =>
    obtain ⟨q,hq,hrel⟩ := ih
    obtain ⟨q',hsteps,hrel'⟩ := hs _ q _ _ hrel hc ht
    exact ⟨q',hq.steps hsteps,hrel'⟩

/-- Systems that take every action together, or neither of them, run together. -/
theorem Run.lockstep {A : System τ α} {R : σ → τ → Prop} {ok' : τ → α → Prop}
    (h0 : R M.init A.init) (hs : ∀ s q a, R s q → Option.Rel R (M.step s a) (A.step q a))
    (hc : ∀ s q a, R s q → ok s a → ok' q a) (hr : M.Run ok acts s) :
    ∃ q, A.Run ok' acts q ∧ R s q := by
  induction hr with
  | start => exact ⟨A.init,.start,h0⟩
  | @next acts s a t _ hok ht ih =>
    obtain ⟨q,hq,hrel⟩ := ih
    have hboth := hs s q a hrel
    rw [ht] at hboth
    generalize hstep : A.step q a = y at hboth
    cases hboth with
    | some hrel' => exact ⟨_,hq.next (hc s q a hrel hok) hstep,hrel'⟩

theorem rel_swap {R : σ → τ → Prop} (h : Option.Rel R x y) :
    Option.Rel (fun q s => R s q) y x := by
  cases h with
  | some h => exact .some h
  | none => exact .none

/-- Replay a schedule, checking the condition at every action. -/
def exec (M : System σ α) (ok : σ → α → Prop) [∀ s a, Decidable (ok s a)] : σ → List α → Option σ
  | s, [] => some s
  | s, a :: as => if ok s a then (M.step s a).bind (fun t => M.exec ok t as) else none

theorem exec_append [∀ s a, Decidable (ok s a)] (h : M.exec ok s acts = some t) (more : List α) :
    M.exec ok s (acts ++ more) = M.exec ok t more := by
  induction acts generalizing s with
  | nil =>
    simp only [exec,Option.some.injEq] at h
    subst t
    rfl
  | cons a as ih =>
    simp only [exec] at h
    split at h
    · rename_i hc
      obtain ⟨u,hu,h⟩ := Option.bind_eq_some_iff.mp h
      simp only [List.cons_append,exec,if_pos hc,hu,Option.bind_some,ih h]
    · cases h

theorem run_of_exec_from [∀ s a, Decidable (ok s a)] (hr : M.Run ok acts s)
    (he : M.exec ok s more = some t) : M.Run ok (acts ++ more) t := by
  induction more generalizing acts s with
  | nil =>
    simp only [exec,Option.some.injEq] at he
    subst t
    simpa using hr
  | cons a as ih =>
    simp only [exec] at he
    split at he
    · rename_i hc
      obtain ⟨u,hu,he⟩ := Option.bind_eq_some_iff.mp he
      have := ih (hr.next hc hu) he
      simpa using this
    · cases he

theorem run_of_exec [∀ s a, Decidable (ok s a)] (he : M.exec ok M.init acts = some s) :
    M.Run ok acts s := by
  simpa using run_of_exec_from Run.start he

end System

end WifiSpeaker.Common
