import Mathlib.Data.Nat.Log
import Mathlib.Algebra.Order.Field.Rat
import Mathlib.Tactic.Linarith
import Mathlib.Tactic.Positivity

/-!
# The clock of the SD card

`get_clock_divider` and `switch_clock_rate` of `emmc_clock.c`. The controller
divides the base clock by twice a ten-bit divider, which stands in two pieces
in `control[1]`.

The divider is computed as it should be, and is then lost: the last write of
`switch_clock_rate` starts from the value that the register had before.
-/

namespace Rpos

/-! ## §1  The divider -/

/-- The bit scan of `get_clock_divider` from bit `fb - 1` down: the first set bit of
`target_div`, plus one if a lower bit is set too, and -1 if there is none. -/
def scanTargetDiv (targetDiv : BitVec 32) : ℕ → ℤ
  | 0 => -1
  | fb + 1 =>
      let bt := BitVec.twoPow 32 fb
      if targetDiv &&& bt ≠ 0 then
        if targetDiv &&& ~~~ bt ≠ 0 then (fb : ℤ) + 1 else fb
      else scanTargetDiv targetDiv fb

/-- The divider that `get_clock_divider` makes of the bit number. -/
def divOfBit (div : ℤ) : ℤ :=
  let div := if div = -1 then 31 else div
  let div := if 32 ≤ div then 31 else div
  let div := if div ≠ 0 then 2 ^ (div - 1).toNat else div
  if 0x400 ≤ div then 0x3FF else div

def getClockDivider (baseClock targetRate : BitVec 32) : BitVec 32 :=
  let targetDiv : BitVec 32 :=
    if targetRate ≤ baseClock then
      if baseClock % targetRate ≠ 0 then 0 else baseClock / targetRate
    else 1
  let div := divOfBit (scanTargetDiv targetDiv 32)
  let freqSel := BitVec.ofInt 32 div &&& 0xFF
  let upper := (BitVec.ofInt 32 div).sshiftRight 8 &&& 0x3
  (freqSel <<< 8) ||| (upper <<< 6) ||| (0#32 <<< 5)

/-- The divider in `control[1]`: the low part in bits 15:8, the high part in bits 7:6. -/
def dividerField (c : BitVec 32) : ℕ :=
  (c.extractLsb' 8 8).toNat + 256 * (c.extractLsb' 6 2).toNat

/-- The divider for a rate: half of the least power of two that divides the base clock far
enough, and the largest divider when the rate does not divide the base clock. -/
def clockDivisor (base target : ℕ) : ℕ :=
  if base < target then 0
  else if ¬ target ∣ base then 1023
  else if base / target = 1 then 0
  else min 1023 (2 ^ (Nat.clog 2 (base / target) - 1))

/-- The clock that the controller makes with the divider `n`. -/
def sdClock (base n : ℕ) : ℚ := if n = 0 then base else base / (2 * n)

section Divider

variable {targetDiv : BitVec 32}

theorem and_twoPow_ne_zero {fb : ℕ} (hfb : fb < 32) (hlt : targetDiv.toNat < 2 ^ (fb + 1)) :
    targetDiv &&& BitVec.twoPow 32 fb ≠ 0 ↔ 2 ^ fb ≤ targetDiv.toNat := by
  have hpow : BitVec.twoPow 32 fb ≠ 0#32 := by
    intro h
    have := congrArg (BitVec.getLsbD · fb) h
    simp [hfb] at this
  rw [BitVec.and_twoPow]
  split
  · rename_i hbit
    exact iff_of_true hpow (Nat.ge_two_pow_of_testBit hbit)
  · rename_i hbit
    refine iff_of_false (not_not.mpr rfl) fun hle => hbit ?_
    exact Nat.testBit_of_two_pow_le_and_two_pow_add_one_gt hle hlt

theorem and_not_twoPow_ne_zero {fb : ℕ} (hfb : fb < 32) (hle : 2 ^ fb ≤ targetDiv.toNat)
    (hlt : targetDiv.toNat < 2 ^ (fb + 1)) :
    targetDiv &&& ~~~ BitVec.twoPow 32 fb ≠ 0 ↔ targetDiv.toNat ≠ 2 ^ fb := by
  have hpow : (BitVec.twoPow 32 fb).toNat = 2 ^ fb := by
    rw [BitVec.toNat_twoPow]
    exact Nat.mod_eq_of_lt (Nat.pow_lt_pow_right (by decide) hfb)
  apply not_congr
  constructor
  · intro hzero
    rw [← hpow]
    congr 1
    apply BitVec.eq_of_getLsbD_eq
    intro i hi
    by_cases hifb : i = fb
    · subst hifb
      rw [BitVec.getLsbD_twoPow]
      simp only [hfb, decide_true, Bool.and_self]
      exact Nat.testBit_of_two_pow_le_and_two_pow_add_one_gt hle hlt
    · have hother : decide (fb = i) = false := decide_eq_false (Ne.symm hifb)
      have hbit : (targetDiv &&& ~~~ BitVec.twoPow 32 fb).getLsbD i = false := by
        rw [hzero]
        exact BitVec.getLsbD_zero
      rw [BitVec.getLsbD_and, BitVec.getLsbD_not, BitVec.getLsbD_twoPow, hother,
        decide_eq_true hi, Bool.and_false, Bool.not_false, Bool.and_true, Bool.and_true] at hbit
      rw [hbit, BitVec.getLsbD_twoPow, hother, Bool.and_false]
  · intro heq
    have hself : targetDiv = BitVec.twoPow 32 fb := BitVec.eq_of_toNat_eq (heq.trans hpow.symm)
    rw [hself]
    exact BitVec.and_not_self _

/-- The scan finds the least power of two that is not below `target_div`. -/
theorem scanTargetDiv_eq {fb : ℕ} (hfb : fb ≤ 32) (hlt : targetDiv.toNat < 2 ^ fb) :
    scanTargetDiv targetDiv fb =
      if targetDiv.toNat = 0 then -1 else (Nat.clog 2 targetDiv.toNat : ℤ) := by
  induction fb with
  | zero =>
      rw [if_pos (Nat.lt_one_iff.mp hlt)]
      rfl
  | succ fb ih =>
      rw [scanTargetDiv, if_congr (and_twoPow_ne_zero hfb hlt) rfl rfl]
      split
      · rename_i hle
        have hpos : 0 < 2 ^ fb := Nat.two_pow_pos fb
        rw [if_congr (and_not_twoPow_ne_zero hfb hle hlt) rfl rfl,
          if_neg (Nat.ne_of_gt (hpos.trans_le hle))]
        split
        · -- more than this bit: the next power of two
          rename_i hne
          have hclog : Nat.clog 2 targetDiv.toNat = fb + 1 := by
            apply le_antisymm (Nat.clog_le_of_le_pow hlt.le)
            exact (Nat.lt_clog_iff_pow_lt (by decide)).mpr (lt_of_le_of_ne hle (Ne.symm hne))
          rw [hclog]
          rfl
        · rename_i heq
          rw [not_not.mp heq, Nat.clog_pow 2 fb (by decide)]
      · rename_i hgt
        exact ih (Nat.le_of_succ_le hfb) (Nat.not_le.mp hgt)

/-- The two pieces of a ten-bit number that is merged into the register. -/
theorem dividerField_merge {n : ℕ} (hn : n < 1024) :
    dividerField (((BitVec.ofInt 32 (n : ℤ) &&& 0xFF) <<< 8) |||
      (((BitVec.ofInt 32 (n : ℤ)).sshiftRight 8 &&& 0x3) <<< 6) ||| (0#32 <<< 5)) = n := by
  have hall : ∀ n : ℕ, n < 1024 → dividerField (((BitVec.ofInt 32 (n : ℤ) &&& 0xFF) <<< 8) |||
      (((BitVec.ofInt 32 (n : ℤ)).sshiftRight 8 &&& 0x3) <<< 6) ||| (0#32 <<< 5)) = n := by
    decide +kernel
  exact hall n hn

theorem divOfBit_pos {k : ℕ} (hk : 0 < k) :
    divOfBit k = ((min 1023 (2 ^ (k - 1)) : ℕ) : ℤ) := by
  obtain ⟨k, rfl⟩ := Nat.exists_eq_succ_of_ne_zero hk.ne'
  have hnot : ¬ ((k.succ : ℕ) : ℤ) = -1 := by omega
  have hne : ((k.succ : ℕ) : ℤ) ≠ 0 := by omega
  unfold divOfBit
  dsimp only
  rw [if_neg hnot, Nat.succ_sub_one]
  by_cases hbig : 32 ≤ ((k.succ : ℕ) : ℤ)
  · have hpow : 2 ^ 10 ≤ 2 ^ k := Nat.pow_le_pow_right (by decide) (by omega)
    rw [if_pos hbig, min_eq_left (by omega)]
    rfl
  · have hshift : (((k.succ : ℕ) : ℤ) - 1).toNat = k := by omega
    rw [if_neg hbig, if_pos hne, hshift]
    by_cases hsat : 0x400 ≤ 2 ^ k
    · rw [if_pos (by exact_mod_cast hsat), min_eq_left (by omega)]
      rfl
    · rw [if_neg (by exact_mod_cast hsat), min_eq_right (by omega)]
      exact_mod_cast rfl

theorem targetDiv_toNat (baseClock targetRate : BitVec 32) :
    (if targetRate ≤ baseClock then
      if baseClock % targetRate ≠ 0 then (0 : BitVec 32) else baseClock / targetRate
    else 1).toNat =
      if baseClock.toNat < targetRate.toNat then 1
      else if targetRate.toNat ∣ baseClock.toNat then baseClock.toNat / targetRate.toNat
      else 0 := by
  have hmod : baseClock % targetRate ≠ 0 ↔ ¬ targetRate.toNat ∣ baseClock.toNat := by
    rw [Nat.dvd_iff_mod_eq_zero, ← BitVec.toNat_umod]
    apply not_congr
    exact ⟨fun h => by rw [h]; rfl, fun h => BitVec.eq_of_toNat_eq h⟩
  by_cases hle : targetRate ≤ baseClock
  · have hge : ¬ baseClock.toNat < targetRate.toNat := Nat.not_lt.mpr hle
    rw [if_pos hle, if_neg hge]
    by_cases hdvd : targetRate.toNat ∣ baseClock.toNat
    · rw [if_neg (hmod.not.mpr (not_not.mpr hdvd)), if_pos hdvd, BitVec.toNat_udiv]
    · rw [if_pos (hmod.mpr hdvd), if_neg hdvd]
      rfl
  · have hlt : baseClock.toNat < targetRate.toNat := Nat.not_le.mp hle
    rw [if_neg hle, if_pos hlt]
    rfl

theorem clockDivisor_lt (base target : ℕ) : clockDivisor base target < 1024 := by
  unfold clockDivisor
  split
  · decide
  split
  · decide
  split
  · decide
  · exact (min_le_left _ _).trans_lt (by decide)

theorem dividerField_getClockDivider (baseClock : BitVec 32) {targetRate : BitVec 32}
    (hpos : 0 < targetRate.toNat) :
    dividerField (getClockDivider baseClock targetRate) =
      clockDivisor baseClock.toNat targetRate.toNat := by
  have hdiv : divOfBit (scanTargetDiv (if targetRate ≤ baseClock then
      if baseClock % targetRate ≠ 0 then (0 : BitVec 32) else baseClock / targetRate
      else 1) 32) = (clockDivisor baseClock.toNat targetRate.toNat : ℤ) := by
    rw [scanTargetDiv_eq le_rfl (BitVec.isLt _), targetDiv_toNat, clockDivisor]
    by_cases hlt : baseClock.toNat < targetRate.toNat
    · rw [if_pos hlt, if_pos hlt, if_neg Nat.one_ne_zero, Nat.clog_one_right]
      rfl
    rw [if_neg hlt, if_neg hlt]
    by_cases hdvd : targetRate.toNat ∣ baseClock.toNat
    · have hquot : 0 < baseClock.toNat / targetRate.toNat :=
        Nat.div_pos (Nat.not_lt.mp hlt) hpos
      rw [if_pos hdvd, if_neg (not_not.mpr hdvd), if_neg hquot.ne']
      by_cases hone : baseClock.toNat / targetRate.toNat = 1
      · rw [if_pos hone, hone, Nat.clog_one_right]
        rfl
      · rw [if_neg hone]
        exact divOfBit_pos (Nat.clog_pos (by decide) (by omega))
    · rw [if_neg hdvd, if_pos hdvd]
      rfl
  unfold getClockDivider
  dsimp only
  rw [hdiv]
  exact dividerField_merge (clockDivisor_lt _ _)

/-- The divider of a rate that the divider can reach brings the clock down to the rate. -/
theorem sdClock_clockDivisor_le {base target : ℕ} (hpos : 0 < target)
    (hreach : base ≤ 2046 * target) (hle : target ≤ base) :
    sdClock base (clockDivisor base target) ≤ target := by
  have hbound : ∀ n : ℕ, n ≠ 0 → base ≤ 2 * n * target → sdClock base n ≤ target := by
    intro n hn hn'
    have hn0 : (0 : ℚ) < 2 * n := by positivity
    rw [sdClock, if_neg hn, div_le_iff₀ hn0]
    have hcast : (base : ℚ) ≤ 2 * n * target := by exact_mod_cast hn'
    linarith
  unfold clockDivisor
  rw [if_neg (Nat.not_lt.mpr hle)]
  split
  · exact hbound 1023 (by decide) (by linarith)
  rename_i hdvd
  have hquot : base = base / target * target := (Nat.div_mul_cancel (not_not.mp hdvd)).symm
  split
  · -- the rate is the base clock
    rename_i hone
    rw [hone, one_mul] at hquot
    rw [sdClock, if_pos rfl, hquot]
  · rename_i hone
    have hge : 2 ≤ base / target := by
      have := Nat.div_pos hle hpos
      omega
    have hclog : Nat.clog 2 (base / target) - 1 + 1 = Nat.clog 2 (base / target) :=
      Nat.sub_add_cancel (Nat.clog_pos (by decide) hge)
    have hpow : base / target ≤ 2 * 2 ^ (Nat.clog 2 (base / target) - 1) := by
      rw [← pow_succ', hclog]
      exact Nat.le_pow_clog (by decide) _
    rcases le_total 1023 (2 ^ (Nat.clog 2 (base / target) - 1)) with hsat | hsat
    · rw [min_eq_left hsat]
      exact hbound 1023 (by decide) (by linarith)
    · rw [min_eq_right hsat]
      apply hbound _ (Nat.two_pow_pos _).ne'
      calc base = base / target * target := hquot
        _ ≤ 2 * 2 ^ (Nat.clog 2 (base / target) - 1) * target :=
          Nat.mul_le_mul_right _ hpow

end Divider

/-! ## §2  The register -/

/-- The registers of the controller that `switch_clock_rate` uses. -/
structure EmmcRegs where
  status : BitVec 32
  control1 : BitVec 32
  deriving DecidableEq

/-- `EMMC_STATUS_CMD_INHIBIT | EMMC_STATUS_DAT_INHIBIT`. -/
def emmcStatusInhibit : BitVec 32 := BitVec.twoPow 32 0 ||| BitVec.twoPow 32 1

def emmcCtrl1ClkEnable : BitVec 32 := BitVec.twoPow 32 2

/-- `switch_clock_rate`. On a status that does not change it waits forever while one of the
inhibit bits is set. -/
def switchClockRate (emmc : EmmcRegs) (baseClock targetRate : BitVec 32) : Option EmmcRegs :=
  let divider := getClockDivider baseClock targetRate
  if emmc.status &&& emmcStatusInhibit ≠ 0 then none
  else
    let c1 := emmc.control1 &&& ~~~ emmcCtrl1ClkEnable
    let emmc := { emmc with control1 := c1 }
    let emmc := { emmc with control1 := (c1 ||| divider) &&& ~~~ 0xFFE0#32 }
    some { emmc with control1 := c1 ||| emmcCtrl1ClkEnable }

/-- The register after the clock has been programmed: the divider of the rate, a clock that
does not exceed it, and the other bits as they were. -/
structure ClockProgrammed (baseClock targetRate before after : BitVec 32) : Prop where
  divider : dividerField after = dividerField (getClockDivider baseClock targetRate)
  rate : targetRate.toNat ≤ baseClock.toNat →
    sdClock baseClock.toNat (dividerField after) ≤ targetRate.toNat
  unchanged : ∀ i < 32, ¬ (6 ≤ i ∧ i < 16) → i ≠ 2 → after.getLsbD i = before.getLsbD i

section Switch

variable {emmc : EmmcRegs} {baseClock targetRate : BitVec 32}

theorem andNot_or (x y : BitVec 32) : (x &&& ~~~ y) ||| y = x ||| y := by
  apply BitVec.eq_of_getLsbD_eq
  intro i hi
  rw [BitVec.getLsbD_or, BitVec.getLsbD_or, BitVec.getLsbD_and, BitVec.getLsbD_not,
    decide_eq_true hi, Bool.true_and]
  cases x.getLsbD i <;> cases y.getLsbD i <;> rfl

theorem switchClockRate_eq (hstatus : emmc.status &&& emmcStatusInhibit = 0) :
    switchClockRate emmc baseClock targetRate =
      some { emmc with control1 := emmc.control1 ||| emmcCtrl1ClkEnable } := by
  unfold switchClockRate
  dsimp only
  rw [if_neg (not_not.mpr hstatus), andNot_or]

theorem dividerField_clkEnable (c : BitVec 32) :
    dividerField (c ||| emmcCtrl1ClkEnable) = dividerField c := by
  have hlow : emmcCtrl1ClkEnable.extractLsb' 8 8 = 0#8 := by decide
  have hhigh : emmcCtrl1ClkEnable.extractLsb' 6 2 = 0#2 := by decide
  unfold dividerField
  rw [BitVec.extractLsb'_or, BitVec.extractLsb'_or, hlow, hhigh, BitVec.or_zero, BitVec.or_zero]

/-- With the inhibit bits clear `switch_clock_rate` programs the clock if and only if the
register has the divider of the rate already. -/
theorem switchClockRate_programs_iff (hstatus : emmc.status &&& emmcStatusInhibit = 0)
    (hpos : 0 < targetRate.toNat) (hreach : baseClock.toNat ≤ 2046 * targetRate.toNat) :
    (∃ emmc', switchClockRate emmc baseClock targetRate = some emmc' ∧
      ClockProgrammed baseClock targetRate emmc.control1 emmc'.control1) ↔
    dividerField emmc.control1 = clockDivisor baseClock.toNat targetRate.toNat := by
  rw [switchClockRate_eq hstatus]
  constructor
  · rintro ⟨emmc', hrun, hprog⟩
    obtain rfl := Option.some.inj hrun
    have hdiv := hprog.divider
    rw [dividerField_clkEnable, dividerField_getClockDivider baseClock hpos] at hdiv
    exact hdiv
  · intro hold
    refine ⟨_, rfl, ?_, fun hle => ?_, fun i hi _ hne => ?_⟩
    · rw [dividerField_clkEnable, dividerField_getClockDivider baseClock hpos]
      exact hold
    · rw [dividerField_clkEnable, hold]
      exact sdClock_clockDivisor_le hpos hreach hle
    · rw [BitVec.getLsbD_or, emmcCtrl1ClkEnable, BitVec.getLsbD_twoPow,
        decide_eq_false (Ne.symm hne), Bool.and_false, Bool.or_false]

end Switch

/-- 50 MHz for 25 MHz, with the divider 1 in the register. -/
theorem switchClockRate_programs_iff_example :
    ∃ emmc', switchClockRate ⟨0, 0x100⟩ 50000000 25000000 = some emmc' ∧
      ClockProgrammed 50000000 25000000 0x100 emmc'.control1 := by
  apply (switchClockRate_programs_iff (by decide) (by decide) (by decide)).mpr
  decide

/-- 50 MHz for 25 MHz, with the divider 64 of the identification clock in the register: it
stays, and the clock runs at 390625 Hz. -/
theorem switchClockRate_keeps_divider :
    switchClockRate ⟨0, 0x4000⟩ 50000000 25000000 = some ⟨0, 0x4004⟩ ∧
    ¬ ClockProgrammed 50000000 25000000 0x4000 0x4004 := by
  refine ⟨by decide, fun h => ?_⟩
  have hdiv := h.divider
  revert hdiv
  decide

end Rpos
