import Mathlib.Data.List.Basic

namespace WifiSpeaker.Common

variable {α : Type} {xss : List (List α)} {xs : List α} {i j k n : Nat}

/-- Segments stand one behind the other; where one of them begins. -/
def segmentBase (xss : List (List α)) (i : Nat) : Nat := (xss.take i).flatten.length

/-- The segment a place is in, and the place inside of it. -/
def locate : List (List α) → Nat → Option (Nat × Nat)
  | [], _ => none
  | xs :: xss, n =>
    if n < xs.length then some (0,n)
    else (locate xss (n - xs.length)).map (fun p => (p.1 + 1,p.2))

@[simp] theorem segmentBase_zero (xss : List (List α)) : segmentBase xss 0 = 0 := rfl

@[simp] theorem segmentBase_succ (xs : List α) (xss : List (List α)) (i : Nat) :
    segmentBase (xs :: xss) (i + 1) = xs.length + segmentBase xss i := by
  rw [segmentBase,List.take_succ_cons,List.flatten_cons,List.length_append,segmentBase]

/-- Every place of a segment is found again. -/
theorem locate_segment (hx : xss[i]? = some xs) (hk : k < xs.length) :
    locate xss (segmentBase xss i + k) = some (i,k) := by
  induction xss generalizing i with
  | nil => simp at hx
  | cons ys xss ih =>
    cases i with
    | zero =>
      obtain rfl : ys = xs := by simpa using hx
      simp [locate,segmentBase_zero,hk]
    | succ i =>
      have hbehind : ¬ ys.length + segmentBase xss i + k < ys.length := by omega
      have hrest : ys.length + segmentBase xss i + k - ys.length = segmentBase xss i + k := by omega
      rw [segmentBase_succ,locate,if_neg hbehind,hrest,ih (by simpa using hx),Option.map_some]

/-- What is found is a place of a segment. -/
theorem segment_of_locate (h : locate xss n = some (i,k)) :
    ∃ xs, xss[i]? = some xs ∧ k < xs.length ∧ n = segmentBase xss i + k := by
  induction xss generalizing n i with
  | nil => cases h
  | cons ys xss ih =>
    rw [locate] at h
    split_ifs at h with hn
    · cases h
      exact ⟨ys,rfl,hn,by rw [segmentBase_zero,Nat.zero_add]⟩
    · obtain ⟨⟨i',k'⟩,hrest,heq⟩ := Option.map_eq_some_iff.mp h
      cases heq
      obtain ⟨xs,hx,hk,hplace⟩ := ih hrest
      refine ⟨xs,hx,hk,?_⟩
      change n = segmentBase (ys :: xss) (i' + 1) + k'
      rw [segmentBase_succ]
      omega

theorem locate_eq_none_iff : locate xss n = none ↔ xss.flatten.length ≤ n := by
  induction xss generalizing n with
  | nil => simp [locate]
  | cons ys xss ih =>
    rw [locate,List.flatten_cons,List.length_append]
    split_ifs with hn
    · simp only [false_iff]
      omega
    · rw [Option.map_eq_none_iff,ih]
      omega

/-- The place before all others is in the first segment that is not empty. -/
theorem locate_zero (xss : List (List α)) (n : Nat) :
    (locate xss 0).map (fun p => (n + p.1,p.2)) =
      ((xss.zipIdx n).find? (fun q => !q.1.isEmpty)).map (fun q => (q.2,0)) := by
  induction xss generalizing n with
  | nil => rfl
  | cons ys xss ih =>
    cases ys with
    | cons y ys => simp [locate,List.zipIdx_cons]
    | nil =>
      have hnext := ih (n + 1)
      simp only [locate,List.length_nil,Nat.lt_irrefl,if_false,Nat.sub_self,Option.map_map,
        List.zipIdx_cons,List.find?_cons,List.isEmpty_nil,Bool.not_true]
      rw [← hnext]
      congr 1
      funext p
      simp only [Function.comp,Prod.mk.injEq,and_true]
      omega

end WifiSpeaker.Common
