import Mathlib.Data.List.Basic

namespace WifiSpeaker.Common

/-- A buffer of `n` items. -/
structure Buffer (α : Type) (n : Nat) where
  items : List α
  size : items.length = n
  deriving DecidableEq, Repr

/-- Items stored at `start`, `start + stride`, `start + 2 * stride` and so on. -/
def stridedWrite (dst : List α) (start stride : Nat) : List α → List α
  | [] => dst
  | x :: xs => stridedWrite (dst.set start x) (start + stride) stride xs

theorem length_stridedWrite (dst : List α) (start stride : Nat) (xs : List α) :
    (stridedWrite dst start stride xs).length = dst.length := by
  induction xs generalizing dst start with
  | nil => rfl
  | cons x xs ih => rw [stridedWrite,ih,List.length_set]

def Buffer.strided (b : Buffer α n) (start stride : Nat) (xs : List α) : Buffer α n :=
  ⟨stridedWrite b.items start stride xs,by rw [length_stridedWrite,b.size]⟩

/-- Places between and behind those stored to keep their items. -/
theorem stridedWrite_other {dst : List α} (h : ∀ j < xs.length, k ≠ start + j * stride) :
    (stridedWrite dst start stride xs)[k]? = dst[k]? := by
  induction xs generalizing dst start with
  | nil => rfl
  | cons x xs ih =>
    have hfirst : k ≠ start := by simpa using h 0 (by simp)
    have hrest : ∀ j < xs.length, k ≠ start + stride + j * stride := by
      intro j hj
      have := h (j + 1) (by simpa using hj)
      rw [Nat.succ_mul] at this
      omega
    rw [stridedWrite,ih hrest,List.getElem?_set_ne hfirst.symm]

/-- Every place stored to inside the buffer holds its item. -/
theorem stridedWrite_at {dst : List α} (hs : 0 < stride) (hj : j < xs.length)
    (hb : start + j * stride < dst.length) :
    (stridedWrite dst start stride xs)[start + j * stride]? = xs[j]? := by
  induction xs generalizing dst start j with
  | nil => simp at hj
  | cons x xs ih =>
    cases j with
    | zero =>
      have hlater : ∀ j < xs.length, start + 0 * stride ≠ start + stride + j * stride := by
        intro j _
        omega
      rw [stridedWrite,stridedWrite_other hlater]
      simp only [Nat.zero_mul,Nat.add_zero] at hb ⊢
      rw [List.getElem?_set_self hb,List.getElem?_cons_zero]
    | succ j =>
      have hplace : start + (j + 1) * stride = start + stride + j * stride := by
        rw [Nat.succ_mul]
        omega
      rw [hplace] at hb ⊢
      rw [stridedWrite,ih (by simpa using hj) (by rw [List.length_set]; exact hb),
        List.getElem?_cons_succ]

end WifiSpeaker.Common
