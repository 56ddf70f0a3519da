import Mathlib.Data.List.Basic

namespace WifiSpeaker.Common

/-- A machine that answers every operation at once. -/
structure Machine (σ ι ο : Type) where
  init : σ
  step : σ → ι → ο × σ

namespace Machine
variable {σ τ ι ο ω : Type} {M : Machine σ ι ο} {A : Machine τ ι ω}

/-- The state behind some operations, oldest first. -/
def after (M : Machine σ ι ο) : σ → List ι → σ
  | s, [] => s
  | s, i :: is => M.after (M.step s i).2 is

/-- The answers to some operations, oldest first. -/
def answers (M : Machine σ ι ο) : σ → List ι → List ο
  | _, [] => []
  | s, i :: is => (M.step s i).1 :: M.answers (M.step s i).2 is

/-- Related machines that answer one operation alike, up to how the answer is
written, answer all of them alike and stay related. -/
theorem answers_agree {R : σ → τ → Prop} (ok : ι → Prop) (write : ω → ο)
    (hs : ∀ s q i, ok i → R s q →
      (M.step s i).1 = write (A.step q i).1 ∧ R (M.step s i).2 (A.step q i).2)
    (h : R s q) (is : List ι) (hok : ∀ i ∈ is, ok i) :
    M.answers s is = (A.answers q is).map write ∧ R (M.after s is) (A.after q is) := by
  induction is generalizing s q with
  | nil => exact ⟨rfl,h⟩
  | cons i is ih =>
    obtain ⟨hone,hrel⟩ := hs s q i (hok i List.mem_cons_self) h
    obtain ⟨hrest,hend⟩ := ih hrel (fun j hj => hok j (List.mem_cons_of_mem i hj))
    exact ⟨List.cons_eq_cons.mpr ⟨hone,hrest⟩,hend⟩

end Machine

/-- The operations of a queue of bounded length. -/
inductive Request (α : Type)
  | sendToBack (item : α)
  | sendToFront (item : α)
  | overwrite (item : α)
  | receive
  | peek
  | reset
  deriving DecidableEq, Repr

/-- `refused` answers a request the queue is not made for. -/
inductive Answer (α : Type)
  | done
  | full
  | item (x : α)
  | empty
  | refused
  deriving DecidableEq, Repr

/-- The same answer with another form of the item. -/
def Answer.map (f : α → β) : Answer α → Answer β
  | .done => .done
  | .full => .full
  | .item x => .item (f x)
  | .empty => .empty
  | .refused => .refused

/-- A queue as a list, oldest item first. Only a queue of one place overwrites. -/
def boundedStep (cap : Nat) (xs : List α) : Request α → Answer α × List α
  | .sendToBack x => if xs.length < cap then (.done,xs ++ [x]) else (.full,xs)
  | .sendToFront x => if xs.length < cap then (.done,x :: xs) else (.full,xs)
  | .overwrite x => if cap = 1 then (.done,[x]) else (.refused,xs)
  | .receive => match xs with
    | [] => (.empty,[])
    | x :: rest => (.item x,rest)
  | .peek => match xs with
    | [] => (.empty,[])
    | x :: rest => (.item x,x :: rest)
  | .reset => (.done,[])

/-- A queue of at most `cap` items. -/
def bounded (α : Type) (cap : Nat) : Machine (List α) (Request α) (Answer α) where
  init := []
  step := boundedStep cap

end WifiSpeaker.Common
