import Mathlib.Data.List.Basic
import Mathlib.Data.Nat.Digits.Defs
import Mathlib.Tactic.Ring

namespace WifiSpeaker.Common

/-- `memcpy` of `src` to offset `off` of the object `dst`. -/
def memcpy (dst : List α) (off : Nat) (src : List α) : List α :=
  dst.take off ++ src ++ dst.drop (off + src.length)

/-- A copy that stays inside the object keeps the object's size. -/
theorem length_memcpy (h : off + src.length ≤ dst.length) :
    (memcpy dst off src).length = dst.length := by
  simp only [memcpy,List.length_append,List.length_take,List.length_drop]
  omega

/-- What a copy leaves below the end of the copied span. -/
theorem take_memcpy_end (h : off ≤ dst.length) :
    (memcpy dst off src).take (off + src.length) = dst.take off ++ src := by
  have hl : (dst.take off ++ src).length = off + src.length := by
    simp only [List.length_append,List.length_take]
    omega
  rw [memcpy,← hl,List.take_left]

theorem memcpy_fill (h : off + src.length = dst.length) :
    memcpy dst off src = dst.take off ++ src := by
  rw [memcpy,h,List.drop_length,List.append_nil]

theorem getElem?_memcpy (h : off + src.length ≤ dst.length) (k : Nat) :
    (memcpy dst off src)[k]? =
      if k < off then dst[k]? else if k < off + src.length then src[k - off]? else dst[k]? := by
  have hl : (dst.take off).length = off := by
    rw [List.length_take]
    omega
  simp only [memcpy,List.getElem?_append,hl,List.length_append,List.getElem?_take,
    List.getElem?_drop]
  split_ifs
  all_goals first | rfl | omega | (congr 1; omega)

/-- A copy leaves alone what lies behind the copied span. -/
theorem drop_memcpy {dst : List α} (h : off ≤ dst.length) (n : Nat) :
    (memcpy dst off xs).drop (off + xs.length + n) = dst.drop (off + xs.length + n) := by
  have hl : (dst.take off ++ xs).length = off + xs.length := by
    simp only [List.length_append,List.length_take]
    omega
  rw [memcpy,← hl,List.drop_length_add_append,List.drop_drop]

/-- Two copies to adjacent places are one copy. -/
theorem memcpy_memcpy {dst : List α} (h : off ≤ dst.length) :
    memcpy (memcpy dst off xs) (off + xs.length) ys = memcpy dst off (xs ++ ys) := by
  have ht : (memcpy dst off xs).take (off + xs.length) = dst.take off ++ xs := take_memcpy_end h
  rw [memcpy,ht,drop_memcpy h,memcpy,List.length_append,← Nat.add_assoc]
  simp only [List.append_assoc]

/-- Three copies one behind the other are one copy. -/
theorem memcpy_three (dst xs ys zs : List α) :
    memcpy (memcpy (memcpy dst 0 xs) xs.length ys) (xs.length + ys.length) zs =
      memcpy dst 0 (xs ++ (ys ++ zs)) := by
  have htwo : memcpy (memcpy dst 0 xs) (0 + xs.length) ys = memcpy dst 0 (xs ++ ys) :=
    memcpy_memcpy (Nat.zero_le _)
  have hthree : memcpy (memcpy dst 0 (xs ++ ys)) (0 + (xs ++ ys).length) zs =
      memcpy dst 0 (xs ++ ys ++ zs) := memcpy_memcpy (Nat.zero_le _)
  rw [Nat.zero_add] at htwo
  rw [Nat.zero_add,List.length_append,List.append_assoc] at hthree
  rw [htwo,hthree]

/-- What a copy to the start leaves there. -/
theorem take_memcpy_zero (dst src : List α) : (memcpy dst 0 src).take src.length = src := by
  have hend : (memcpy dst 0 src).take (0 + src.length) = dst.take 0 ++ src :=
    take_memcpy_end (Nat.zero_le _)
  rwa [Nat.zero_add,List.take_zero,List.nil_append] at hend

/-- A span that is inside a list's beginning. -/
theorem take_drop_of_isPrefix {xs ys : List α} (h : xs <+: ys) (hi : i + n ≤ xs.length) :
    (xs.drop i).take n = (ys.drop i).take n := by
  obtain ⟨more,rfl⟩ := h
  rw [List.drop_append_of_le_length (by omega),
    List.take_append_of_le_length (by rw [List.length_drop]; omega)]

/-- An object of `n` bytes in memory. -/
structure Object (n : Nat) where
  bytes : List UInt8
  size : bytes.length = n
  deriving DecidableEq, Repr

/-- What a copy to the start of the object leaves in it. The part of a longer
source falls outside the object. -/
def Object.write (o : Object n) (src : List UInt8) : Object n where
  bytes := (memcpy o.bytes 0 src).take n
  size := by
    have := o.size
    simp only [memcpy,List.length_take,List.length_append,List.length_drop]
    omega

theorem Object.take_write (o : Object n) (src : List UInt8) :
    (o.write src).bytes.take src.length = src.take n := by
  simp only [Object.write,memcpy,List.take_zero,List.nil_append,Nat.zero_add,List.take_take]
  rw [List.take_append_of_le_length (Nat.min_le_left _ _),← List.take_take]
  exact List.take_of_length_le (List.length_take_le' n src)

theorem Object.write_whole (o : Object n) (h : src.length = n) : (o.write src).bytes = src := by
  have := o.take_write src
  rwa [h,List.take_of_length_le (Nat.le_of_eq (o.write src).size),
    List.take_of_length_le (Nat.le_of_eq h)] at this

/-- The little-endian bytes of the low `w` bytes of a number. -/
def leBytes : Nat → Nat → List UInt8
  | 0, _ => []
  | w+1, n => UInt8.ofNat n :: leBytes w (n / 256)

/-- The number a little-endian byte string spells. -/
def leNat (bs : List UInt8) : Nat := Nat.ofDigits 256 (bs.map UInt8.toNat)

@[simp] theorem leNat_nil : leNat [] = 0 := rfl

@[simp] theorem leNat_cons (b : UInt8) (bs : List UInt8) :
    leNat (b :: bs) = b.toNat + 256 * leNat bs := by
  simp [leNat,Nat.ofDigits_cons]

@[simp] theorem length_leBytes (w n : Nat) : (leBytes w n).length = w := by
  induction w generalizing n with
  | zero => rfl
  | succ w ih => simp [leBytes,ih]

theorem leNat_lt (bs : List UInt8) : leNat bs < 256 ^ bs.length := by
  have h := Nat.ofDigits_lt_base_pow_length (b := 256) (l := bs.map UInt8.toNat) (by omega) (by
    intro x hx
    obtain ⟨b,_,rfl⟩ := List.mem_map.mp hx
    exact b.toNat_lt)
  simpa [leNat] using h

theorem leNat_leBytes (h : n < 256 ^ w) : leNat (leBytes w n) = n := by
  induction w generalizing n with
  | zero =>
    have : n = 0 := by simpa using h
    simp [leBytes,this]
  | succ w ih =>
    have hd : n / 256 < 256 ^ w := by
      rw [Nat.div_lt_iff_lt_mul (by omega)]
      rwa [pow_succ] at h
    rw [leBytes,leNat_cons,ih hd,UInt8.toNat_ofNat']
    omega

theorem leBytes_leNat (bs : List UInt8) : leBytes bs.length (leNat bs) = bs := by
  induction bs with
  | nil => rfl
  | cons b bs ih =>
    have hb : b.toNat < 256 := b.toNat_lt
    have hd : (b.toNat + 256 * leNat bs) / 256 = leNat bs := by omega
    have hm : UInt8.ofNat (b.toNat + 256 * leNat bs) = b := by
      apply UInt8.toNat_inj.mp
      rw [UInt8.toNat_ofNat']
      omega
    rw [List.length_cons,leNat_cons,leBytes,hd,hm,ih]

/-- Less than four are left where no four can be cut off. -/
theorem length_lt_four {xs : List α}
    (h : ∀ a b c d rest, xs = a :: b :: c :: d :: rest → False) : xs.length < 4 := by
  match xs,h with
  | [],_ | [_],_ | [_,_],_ | [_,_,_],_ => simp
  | a :: b :: c :: d :: rest,h => exact (h a b c d rest rfl).elim

/-- A 16-bit word in memory. -/
def le16 (w : UInt16) : List UInt8 := leBytes 2 w.toNat

/-- A 32-bit word in memory. -/
def le32 (w : UInt32) : List UInt8 := leBytes 4 w.toNat

def word (bs : List UInt8) : UInt16 := UInt16.ofNat (leNat bs)

def dword (bs : List UInt8) : UInt32 := UInt32.ofNat (leNat bs)

@[simp] theorem length_le16 (w : UInt16) : (le16 w).length = 2 := length_leBytes 2 _

@[simp] theorem length_le32 (w : UInt32) : (le32 w).length = 4 := length_leBytes 4 _

@[simp] theorem word_le16 (w : UInt16) : word (le16 w) = w := by
  rw [word,le16,leNat_leBytes (by simpa using w.toNat_lt),UInt16.ofNat_toNat]

@[simp] theorem dword_le32 (w : UInt32) : dword (le32 w) = w := by
  rw [dword,le32,leNat_leBytes (by simpa using w.toNat_lt),UInt32.ofNat_toNat]

theorem le32_dword (h : bs.length = 4) : le32 (dword bs) = bs := by
  have hl := leNat_lt bs
  rw [h] at hl
  rw [le32,dword,UInt32.toNat_ofNat_of_lt' (by simpa using hl),← h,leBytes_leNat]

theorem le32_append_inj (h : le32 v ++ xs = le32 w ++ ys) : v = w ∧ xs = ys := by
  obtain ⟨hl,hr⟩ := List.append_inj h (by simp)
  have := congrArg dword hl
  simp only [dword_le32] at this
  exact ⟨this,hr⟩

/-- A 32-bit word reinterpreted as a signed `int`. -/
def signed (w : UInt32) : Int := w.toInt32.toInt

theorem signed_eq (w : UInt32) :
    signed w = if w.toNat < 2 ^ 31 then (w.toNat : Int) else (w.toNat : Int) - 2 ^ 32 := by
  have h : signed w = w.toBitVec.toInt := rfl
  rw [h,BitVec.toInt_eq_toNat_cond]
  have he : w.toBitVec.toNat = w.toNat := rfl
  rw [he]
  split_ifs <;> omega

end WifiSpeaker.Common
