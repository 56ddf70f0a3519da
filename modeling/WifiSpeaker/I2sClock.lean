import Mathlib.Algebra.Group.Nat.Defs

namespace WifiSpeaker.I2sClock

/-- `I2S_BASE_CLK`: twice the APB clock of 80 MHz. -/
def i2sBaseClk : Nat := 160000000

/-- The modes of a port whose clock `i2s_set_clk` works out from the rate alone. -/
inductive Mode
  | standard
  | dacBuiltIn
  deriving DecidableEq, Repr

/-- What `i2s_set_clk` leaves in `clkm_conf` and `sample_rate_conf`. It also sets the
denominator `clkm_div_a` to 63, always; `clkmDecimals` is counted in 64ths. -/
structure Dividers where
  clkmDivNum : Nat
  clkmDivB : Nat
  bckDivNum : Nat
  deriving DecidableEq, Repr

/-- How a call ends: with `ESP_FAIL`, in the division by zero of the log line, or
with the port started again. -/
inductive Outcome
  | refused
  | trapped
  | started (d : Dividers)
  deriving DecidableEq, Repr

/-- `(256%bits)? 384 : 256`. -/
def factor (bits : Nat) : Nat := if 256 % bits ≠ 0 then 384 else 256

/-- `rate * factor`, a `uint32_t`. -/
def product (rate : UInt32) (bits : Nat) : UInt32 := rate * UInt32.ofNat (factor bits)

/-- `mclk` in the built-in DAC mode: `b_clk * factor2` with `b_clk = rate * 2`, both
cut to 32 bits. -/
def dacClock (rate : UInt32) : UInt32 := rate * 2 * 60

/-- `clkmInteger`, `clkmDecimals` and `bck`. The quotients of integers below 2³² are
cut to the same integer whether they are taken as `double` or not. -/
def quotients (mode : Mode) (rate : UInt32) (bits : Nat) : Nat × Nat × Nat :=
  match mode with
  | .standard =>
    let mclk := (product rate bits).toNat
    (i2sBaseClk / mclk,64 * i2sBaseClk / mclk - 64 * (i2sBaseClk / mclk),factor bits / (bits * 2))
  | .dacBuiltIn =>
    let mclk := (dacClock rate).toNat
    (i2sBaseClk / mclk,64 * i2sBaseClk / mclk - 64 * (i2sBaseClk / mclk),
      mclk / (rate * 2).toNat)

/-- The clock of `i2s_set_clk`: the guard looks at `rate * factor` in every mode; the
registers have 8, 6 and 6 bits; and the log line divides by
`bck * bits * clkmInteger`. -/
def i2sSetClk (mode : Mode) (rate : UInt32) (bits : Nat) : Outcome :=
  if i2sBaseClk > 256 * (product rate bits).toNat then .refused
  else
    let (clkmInteger,clkmDecimals,bck) := quotients mode rate bits
    if bck * bits * clkmInteger = 0 then .trapped
    else .started ⟨clkmInteger % 2 ^ 8,clkmDecimals % 2 ^ 6,bck % 2 ^ 6⟩

end WifiSpeaker.I2sClock
