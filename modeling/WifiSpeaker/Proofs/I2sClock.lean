import Mathlib.Data.Nat.Digits.Defs
import Mathlib.Tactic.Ring
import WifiSpeaker.I2sClock

namespace WifiSpeaker.Proofs.I2sClock
open WifiSpeaker.I2sClock

/-- The dividers bring the base clock to `perSample` ticks a sample, as near below the
rate as sixty-fourths of a tick allow. -/
def Meets (d : Dividers) (rate : UInt32) (perSample : Nat) : Prop :=
  0 < d.clkmDivNum ∧
  (64 * d.clkmDivNum + d.clkmDivB) * (rate.toNat * perSample) ≤ 64 * i2sBaseClk ∧
  64 * i2sBaseClk < (64 * d.clkmDivNum + d.clkmDivB + 1) * (rate.toNat * perSample)

/-- The integer and the sixty-fourths together are one quotient. -/
theorem quotient_split (a b : Nat) : 64 * (a / b) + (64 * a / b - 64 * (a / b)) = 64 * a / b := by
  have h : 64 * (a / b) ≤ 64 * a / b := Nat.mul_div_le_mul_div_assoc 64 a b
  omega

theorem sixtyFourths_lt (hb : 0 < b) : 64 * a / b - 64 * (a / b) < 64 := by
  have hq : a < (a / b + 1) * b := by
    rw [Nat.add_mul,Nat.one_mul]
    exact Nat.lt_div_mul_add hb
  have hlt : 64 * a / b < 64 * (a / b + 1) := by
    rw [Nat.div_lt_iff_lt_mul hb,Nat.mul_assoc]
    exact Nat.mul_lt_mul_of_pos_left hq (by omega)
  omega

/-- Registers that hold a quotient whole meet the rate it was taken for. -/
theorem quotient_meets (hm : 0 < m) (hlow : m ≤ i2sBaseClk) (hhigh : i2sBaseClk < 256 * m)
    (hrate : rate.toNat * perSample = m) (bck : Nat) :
    Meets ⟨i2sBaseClk / m % 2 ^ 8,(64 * i2sBaseClk / m - 64 * (i2sBaseClk / m)) % 2 ^ 6,bck⟩
      rate perSample := by
  have hpos : 0 < i2sBaseClk / m := Nat.div_pos hlow hm
  have hnum : i2sBaseClk / m % 2 ^ 8 = i2sBaseClk / m :=
    Nat.mod_eq_of_lt ((Nat.div_lt_iff_lt_mul hm).mpr hhigh)
  have hb : (64 * i2sBaseClk / m - 64 * (i2sBaseClk / m)) % 2 ^ 6 =
      64 * i2sBaseClk / m - 64 * (i2sBaseClk / m) := Nat.mod_eq_of_lt (sixtyFourths_lt hm)
  rw [Meets,hrate]
  simp only [hnum,hb,quotient_split]
  refine ⟨hpos,Nat.div_mul_le_self _ _,?_⟩
  rw [Nat.add_mul,Nat.one_mul]
  exact Nat.lt_div_mul_add hm

/-- No dividers meet a rate whose ticks exceed the base clock, and the registers
reach only to a divider below 256. -/
theorem Meets.bounds (h : Meets d rate perSample) (hnum : d.clkmDivNum < 2 ^ 8)
    (hb : d.clkmDivB < 2 ^ 6) :
    rate.toNat * perSample ≤ i2sBaseClk ∧ i2sBaseClk < 256 * (rate.toNat * perSample) := by
  obtain ⟨hpos,hle,hlt⟩ := h
  constructor
  · have h64 : 64 * (rate.toNat * perSample) ≤
        (64 * d.clkmDivNum + d.clkmDivB) * (rate.toNat * perSample) :=
      Nat.mul_le_mul_right _ (by omega)
    omega
  · have htop : (64 * d.clkmDivNum + d.clkmDivB + 1) * (rate.toNat * perSample) ≤
        (64 * 256) * (rate.toNat * perSample) := Nat.mul_le_mul_right _ (by omega)
    rw [Nat.mul_assoc] at htop
    omega

section
variable {rate : UInt32} {bits : Nat}

theorem product_toNat (rate : UInt32) (bits : Nat) :
    (product rate bits).toNat = rate.toNat * factor bits % 2 ^ 32 := by
  have hf : (UInt32.ofNat (factor bits)).toNat = factor bits := by
    unfold factor
    split_ifs <;> rfl
  rw [product,UInt32.toNat_mul,hf]

theorem bclk_toNat (rate : UInt32) : (rate * 2).toNat = rate.toNat * 2 % 2 ^ 32 := by
  rw [UInt32.toNat_mul]
  rfl

theorem dacClock_toNat (rate : UInt32) : (dacClock rate).toNat = rate.toNat * 120 % 2 ^ 32 := by
  have h60 : (60 : UInt32).toNat = 60 := rfl
  rw [dacClock,UInt32.toNat_mul,bclk_toNat,h60]
  omega

/-- What a call that starts the port leaves in the registers. -/
theorem started_iff (mode : Mode) : i2sSetClk mode rate bits = .started d ↔
    i2sBaseClk ≤ 256 * (product rate bits).toNat ∧
    (quotients mode rate bits).2.2 * bits * (quotients mode rate bits).1 ≠ 0 ∧
    d = ⟨(quotients mode rate bits).1 % 2 ^ 8,(quotients mode rate bits).2.1 % 2 ^ 6,
      (quotients mode rate bits).2.2 % 2 ^ 6⟩ := by
  unfold i2sSetClk
  split_ifs with hg
  · simp only [false_iff,not_and]
    intro hle
    omega
  · simp only [Nat.not_lt.mp hg,true_and]
    split_ifs with ht
    · simp only [ht,ne_eq,not_true_eq_false,false_and]
    · simp only [Outcome.started.injEq,ht,ne_eq,not_false_eq_true,true_and,eq_comm]

/-- In the standard mode the guard looks at the clock that is set: a rate that gets
through and is below the base clock is met. -/
theorem standard_meets_iff (hbits : bits = 16 ∨ bits = 24 ∨ bits = 32) :
    (∃ d, i2sSetClk .standard rate bits = .started d ∧ Meets d rate (factor bits)) ↔
      rate.toNat * factor bits ≤ i2sBaseClk ∧ i2sBaseClk ≤ 256 * (rate.toNat * factor bits) := by
  have hprod := product_toNat rate bits
  have hbase : i2sBaseClk = 160000000 := rfl
  have hbck : 0 < factor bits / (bits * 2) * bits := by
    rcases hbits with rfl | rfl | rfl <;> decide
  constructor
  · rintro ⟨d,hd,hm⟩
    rw [started_iff] at hd
    obtain ⟨_,_,rfl⟩ := hd
    obtain ⟨hle,hlt⟩ := hm.bounds (Nat.mod_lt _ (by decide)) (Nat.mod_lt _ (by decide))
    exact ⟨hle,Nat.le_of_lt hlt⟩
  · rintro ⟨hle,hge⟩
    rw [Nat.mod_eq_of_lt (by omega)] at hprod
    have hpos : 0 < rate.toNat * factor bits := by omega
    refine ⟨_,(started_iff .standard).mpr ⟨by rw [hprod]; exact hge,?_,rfl⟩,?_⟩
    · simp only [quotients,hprod]
      exact Nat.ne_of_gt (Nat.mul_pos hbck (Nat.div_pos hle hpos))
    · simp only [quotients,hprod]
      apply quotient_meets hpos hle ?_ rfl
      -- no multiple of the factor is the base clock's 256th part
      rcases hbits with rfl | rfl | rfl
      all_goals
        simp only [factor] at hge ⊢
        norm_num at hge ⊢
        omega

/-- In the built-in DAC mode the clock that is set is another one. -/
theorem dac_meets_iff :
    (∃ d, i2sSetClk .dacBuiltIn rate 16 = .started d ∧ d.bckDivNum = 60 ∧ Meets d rate 120) ↔
      5209 ≤ rate.toNat ∧ rate.toNat ≤ 1333333 := by
  have hprod := product_toNat rate 16
  have hclk := dacClock_toNat rate
  have hbclk := bclk_toNat rate
  have hbase : i2sBaseClk = 160000000 := rfl
  have hfactor : factor 16 = 256 := rfl
  constructor
  · rintro ⟨d,hd,_,hm⟩
    rw [started_iff] at hd
    obtain ⟨_,_,rfl⟩ := hd
    obtain ⟨hle,hlt⟩ := hm.bounds (Nat.mod_lt _ (by decide)) (Nat.mod_lt _ (by decide))
    omega
  · rintro ⟨hlow,hhigh⟩
    rw [hfactor] at hprod
    rw [Nat.mod_eq_of_lt (by omega)] at hclk hbclk hprod
    have hpos : 0 < rate.toNat * 120 := by omega
    have hbck : rate.toNat * 120 / (rate.toNat * 2) = 60 := by
      rw [Nat.mul_div_mul_left _ _ (by omega)]
    refine ⟨_,(started_iff .dacBuiltIn).mpr ⟨by omega,?_,rfl⟩,?_,?_⟩
    · simp only [quotients,hclk,hbclk,hbck]
      exact Nat.ne_of_gt (Nat.mul_pos (by decide) (Nat.div_pos (by omega) hpos))
    · simp only [quotients,hclk,hbclk,hbck]
      rfl
    · simp only [quotients,hclk,hbclk,hbck]
      exact quotient_meets hpos (by omega) (by omega) rfl _

theorem refused_iff (mode : Mode) (rate : UInt32) :
    i2sSetClk mode rate 16 = .refused ↔ rate.toNat % 2 ^ 24 ≤ 2441 := by
  have hprod := product_toNat rate 16
  have hbase : i2sBaseClk = 160000000 := rfl
  have hfactor : factor 16 = 256 := rfl
  have hguard : i2sBaseClk > 256 * (product rate 16).toNat ↔ rate.toNat % 2 ^ 24 ≤ 2441 := by
    rw [hprod,hfactor]
    omega
  unfold i2sSetClk
  rw [← hguard]
  split_ifs with hg
  · simp [hg]
  · simp only [hg,iff_false]
    split_ifs <;> simp

/-- The log line divides by zero when one of the two quotients is cut to nothing. -/
theorem dac_trapped_iff : i2sSetClk .dacBuiltIn rate 16 = .trapped ↔
    2441 < rate.toNat % 2 ^ 24 ∧ (i2sBaseClk < rate.toNat * 120 % 2 ^ 32 ∨
      rate.toNat * 120 % 2 ^ 32 < rate.toNat * 2 % 2 ^ 32) := by
  have hrefused := refused_iff .dacBuiltIn rate
  have hclk := dacClock_toNat rate
  have hbclk := bclk_toNat rate
  have hbase : i2sBaseClk = 160000000 := rfl
  by_cases hg : i2sSetClk .dacBuiltIn rate 16 = .refused
  · rw [hg]
    simp only [reduceCtorEq,false_iff,not_and]
    have := hrefused.mp hg
    omega
  · have hrate : 2441 < rate.toNat % 2 ^ 24 := by
      rw [hrefused] at hg
      omega
    have hzero : (quotients .dacBuiltIn rate 16).2.2 * 16 * (quotients .dacBuiltIn rate 16).1 = 0 ↔
        i2sBaseClk < rate.toNat * 120 % 2 ^ 32 ∨
          rate.toNat * 120 % 2 ^ 32 < rate.toNat * 2 % 2 ^ 32 := by
      simp only [quotients,hclk,hbclk,Nat.mul_eq_zero,Nat.div_eq_zero_iff]
      omega
    have hnot : ¬ i2sBaseClk > 256 * (product rate 16).toNat := by
      intro hgt
      exact hg (if_pos hgt)
    simp only [hrate,true_and,← hzero]
    unfold i2sSetClk
    rw [if_neg hnot]
    simp only [ite_eq_left_iff,reduceCtorEq,imp_false,not_not]

end

/-- The standard mode meets every rate its guard lets through up to the base clock.
The built-in DAC mode of the renderer is guarded by the other mode's clock: it meets
the rates from 5209 to 1333333 and no others, starts the port with dividers cut to
their registers below that, and ends in a division by zero for every rate without
overflow above it. -/
theorem clock_met_iff (rate : UInt32) (bits : Nat) (hbits : bits = 16 ∨ bits = 24 ∨ bits = 32) :
    ((∃ d, i2sSetClk .standard rate bits = .started d ∧ Meets d rate (factor bits)) ↔
      rate.toNat * factor bits ≤ i2sBaseClk ∧ i2sBaseClk ≤ 256 * (rate.toNat * factor bits)) ∧
    ((∃ d, i2sSetClk .dacBuiltIn rate 16 = .started d ∧ d.bckDivNum = 60 ∧ Meets d rate 120) ↔
      5209 ≤ rate.toNat ∧ rate.toNat ≤ 1333333) ∧
    (i2sSetClk .dacBuiltIn rate 16 = .refused ↔ rate.toNat % 2 ^ 24 ≤ 2441) ∧
    (i2sSetClk .dacBuiltIn rate 16 = .trapped ↔
      2441 < rate.toNat % 2 ^ 24 ∧ (i2sBaseClk < rate.toNat * 120 % 2 ^ 32 ∨
        rate.toNat * 120 % 2 ^ 32 < rate.toNat * 2 % 2 ^ 32)) :=
  ⟨standard_meets_iff hbits,dac_meets_iff,refused_iff .dacBuiltIn rate,dac_trapped_iff⟩

/-- The default rate of the renderer is met at 16 bits in both modes. -/
theorem clock_met_44100 :
    (∃ d, i2sSetClk .standard 44100 16 = .started d ∧ Meets d 44100 256) ∧
    (∃ d, i2sSetClk .dacBuiltIn 44100 16 = .started d ∧ d.bckDivNum = 60 ∧ Meets d 44100 120) := by
  obtain ⟨hstandard,hdac,_⟩ := clock_met_iff 44100 16 (.inl rfl)
  exact ⟨hstandard.mpr (by decide),hdac.mpr (by decide)⟩

end WifiSpeaker.Proofs.I2sClock
