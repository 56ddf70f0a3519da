import Mathlib.Data.List.Rotate
import WifiSpeaker.Common.Bytes

namespace WifiSpeaker.Common

/-- The index `k` places after `i` on a ring of `n` places. -/
def ahead (i : Fin n) (k : Nat) : Fin n := ⟨(i + k) % n,Nat.mod_lt _ (by have := i.isLt; omega)⟩

theorem ahead_val (i : Fin n) (hk : k ≤ n) :
    (ahead i k : Nat) = if i + k < n then (i + k : Nat) else i + k - n := by
  have hi := i.isLt
  change (i + k) % n = _
  split
  · exact Nat.mod_eq_of_lt (by assumption)
  · rw [Nat.mod_eq_sub_mod (by omega),Nat.mod_eq_of_lt (by omega)]

@[simp] theorem ahead_zero (i : Fin n) : ahead i 0 = i :=
  Fin.ext (Nat.mod_eq_of_lt i.isLt)

theorem ahead_ahead (i : Fin n) (j k : Nat) : ahead (ahead i j) k = ahead i (j + k) := by
  apply Fin.ext
  change ((i + j) % n + k) % n = (i + (j + k)) % n
  rw [Nat.mod_add_mod,Nat.add_assoc]

@[simp] theorem ahead_full (i : Fin n) : ahead i n = i := by
  apply Fin.ext
  change (i + n) % n = i
  rw [Nat.add_mod_right,Nat.mod_eq_of_lt i.isLt]

/-- Places less than one turn apart are different. -/
theorem ahead_inj {i : Fin n} (hj : j < n) (hk : k < n) (h : ahead i j = ahead i k) : j = k := by
  have hv := congrArg Fin.val h
  rw [ahead_val i (Nat.le_of_lt hj),ahead_val i (Nat.le_of_lt hk)] at hv
  split at hv <;> split at hv <;> omega

/-- Every place is less than one turn away. -/
theorem exists_ahead (i j : Fin n) : ∃ k < n, ahead i k = j := by
  have hi := i.isLt
  have hj := j.isLt
  by_cases h : (i : Nat) ≤ j
  · refine ⟨j - i,by omega,Fin.ext ?_⟩
    rw [ahead_val i (by omega)]
    split <;> omega
  · refine ⟨j + n - i,by omega,Fin.ext ?_⟩
    rw [ahead_val i (by omega)]
    split <;> omega

/-- The `len` elements from `pos` on, continuing at the start of the array. -/
def window (mem : List α) (pos len : Nat) : List α := (mem.rotate pos).take len

theorem length_window (h : len ≤ mem.length) : (window mem pos len).length = len := by
  simp only [window,List.length_take,List.length_rotate]
  omega

/-- A straight copy out of the array reads the front of the window. -/
theorem take_window (hp : pos + n ≤ mem.length) (hn : n ≤ len) :
    (window mem pos len).take n = (mem.drop pos).take n := by
  rw [window,List.take_take,Nat.min_eq_left hn,List.rotate_eq_drop_append_take (by omega)]
  apply List.take_append_of_le_length
  rw [List.length_drop]
  omega

/-- Moving the start of the window past its first `n` elements. -/
theorem drop_window (hn : n ≤ len) (hl : len ≤ mem.length) :
    (window mem pos len).drop n = window mem ((pos + n) % mem.length) (len - n) := by
  rw [window,window,List.rotate_mod,← List.rotate_rotate,
    List.rotate_eq_drop_append_take (l := mem.rotate pos) (by rw [List.length_rotate]; omega),
    List.take_append_of_le_length (by rw [List.length_drop,List.length_rotate]; omega),
    List.drop_take]

theorem getElem?_window (hk : k < len) (hl : len ≤ mem.length) :
    (window mem pos len)[k]? = mem[(pos + k) % mem.length]? := by
  rw [window,List.getElem?_take_of_lt hk,List.getElem?_rotate (by omega),Nat.add_comm]

/-- A straight copy into the free part right behind the window extends it. -/
theorem window_memcpy (hw : w = (pos + len) % mem.length) (hp : pos < mem.length)
    (hs : w + src.length ≤ mem.length) (hl : len + src.length ≤ mem.length) :
    window (memcpy mem w src) pos (len + src.length) = window mem pos len ++ src := by
  have hm : (memcpy mem w src).length = mem.length := length_memcpy hs
  apply List.ext_getElem?
  intro k
  by_cases hk : k < len + src.length
  · rw [getElem?_window hk (by omega),hm,getElem?_memcpy hs,List.getElem?_append,
      length_window (by omega)]
    have hmod : ∀ d ≤ mem.length, (pos + d) % mem.length =
        if pos + d < mem.length then pos + d else pos + d - mem.length := by
      intro d hd
      split
      · exact Nat.mod_eq_of_lt (by assumption)
      · rw [Nat.mod_eq_sub_mod (by omega),Nat.mod_eq_of_lt (by omega)]
    rw [hmod len (by omega)] at hw
    by_cases hlt : k < len
    · rw [if_pos hlt,getElem?_window hlt (by omega),hmod k (by omega)]
      split_ifs at hw ⊢ <;> first | rfl | omega
    · have hoff : (pos + k) % mem.length = w + (k - len) := by
        rw [hmod k (by omega)]
        split_ifs at hw ⊢ <;> omega
      rw [if_neg hlt,hoff,if_neg (by omega),if_pos (by omega),Nat.add_sub_cancel_left]
  · rw [List.getElem?_eq_none (by rw [length_window (by omega)]; omega),
      List.getElem?_eq_none (by rw [List.length_append,length_window (by omega)]; omega)]

/-- A straight copy into the free part right in front of the window extends it
to the front. -/
theorem window_memcpy_front (hp : pos + src.length ≤ mem.length)
    (hl : src.length + len ≤ mem.length) :
    window (memcpy mem pos src) pos (src.length + len) =
      src ++ window mem ((pos + src.length) % mem.length) len := by
  have hm : (memcpy mem pos src).length = mem.length := length_memcpy hp
  have hsplit : window (memcpy mem pos src) pos (src.length + len) =
      (window (memcpy mem pos src) pos (src.length + len)).take src.length ++
        (window (memcpy mem pos src) pos (src.length + len)).drop src.length :=
    (List.take_append_drop _ _).symm
  rw [hsplit,take_window (by omega) (by omega),drop_window (by omega) (by omega),hm,
    Nat.add_sub_cancel_left]
  congr 1
  · rw [memcpy,List.append_assoc,List.drop_append_of_le_length (by rw [List.length_take]; omega),
      List.drop_of_length_le (by rw [List.length_take]; omega),List.nil_append,List.take_left]
  · apply List.ext_getElem?
    intro k
    by_cases hk : k < len
    · rw [getElem?_window hk (by omega),getElem?_window hk (by omega),hm,getElem?_memcpy hp]
      -- the window is shorter than one turn, so it does not come round to the copy
      have hmod : ((pos + src.length) % mem.length + k) % mem.length =
          if pos + src.length + k < mem.length then pos + src.length + k
          else pos + src.length + k - mem.length := by
        rw [Nat.mod_add_mod]
        split
        · exact Nat.mod_eq_of_lt (by assumption)
        · rw [Nat.mod_eq_sub_mod (by omega),Nat.mod_eq_of_lt (by omega)]
      rw [hmod]
      split_ifs <;> first | rfl | omega
    · rw [List.getElem?_eq_none (by rw [length_window (by omega)]; omega),
        List.getElem?_eq_none (by rw [length_window (by omega)]; omega)]

end WifiSpeaker.Common
