import Rpos.Emmc.EmmcClock
import Rpos.Emmc.ReadBlocks

/-!
# The bring-up of the card

`emmc_init` and `emmc_card_reset`: the controller is reset and its clock set up, and the card
is asked what it is. Two of the loops have no bound, the wait for the command and data lines
in `switch_clock_rate` and the wait for the card in `check_sdhc_support`; `fuel` is the number
of their rounds.

A bring-up that succeeds leaves the driver set up for reads from this card.
-/

namespace Rpos

open Base ByteMem

/-! ## §1  The steps -/

def emmcCtrl1ResetCmd : BitVec 32 := 1 <<< 25

def emmcCtrl1ResetHost : BitVec 32 := 1 <<< 24

def emmcCtrl1ResetAll : BitVec 32 := 1 <<< 26 ||| emmcCtrl1ResetCmd ||| emmcCtrl1ResetHost

def emmcCtrl1ClkStable : BitVec 32 := 1 <<< 1

def emmcCtrl1ClkIntEn : BitVec 32 := 1

def sdClockId : BitVec 32 := 400000

def sdClockNormal : BitVec 32 := 25000000

/-- `sd_error_mask(SDECommandTimeout)`. -/
def commandTimeoutMask : BitVec 32 := 1 <<< 16

namespace Emmc

variable {D : Type*}

/-- `if(!r) return FALSE;`, and then `f`. -/
def andThen (r : Option (Bool × Emmc D)) (f : Emmc D → Option (Bool × Emmc D)) :
    Option (Bool × Emmc D) :=
  r.bind fun (ok, s) => if ok then f s else some (false, s)

def emmcAppCommand (h : EmmcHost D) (command : ℕ) (arg : BitVec 32) (s : Emmc D) :
    Option (Bool × Emmc D) :=
  if 60 ≤ (commands command).index then some (false, s)
  else
    let s := s.setLastCommand (commands ctApp)
    let rca := if s.device.rca ≠ 0 then s.device.rca <<< 16 else 0
    andThen (s.emmcIssueCommand h s.device.lastCommand rca 2000) fun s =>
      let s := s.setLastCommand (commands command)
      s.emmcIssueCommand h s.device.lastCommand arg 2000

def resetCommand (h : EmmcHost D) (s : Emmc D) : Bool × Emmc D :=
  let (c, s) := s.load h (.control 1)
  let s := s.store h (.control 1) (c ||| emmcCtrl1ResetCmd)
  s.poll h (.control 1) (fun v => v &&& emmcCtrl1ResetCmd = 0) 10000

/-- The tries of `check_ocr`. -/
def tryOcr (h : EmmcHost D) : ℕ → Emmc D → Option (Bool × Emmc D)
  | 0, s => some (false, s)
  | tries + 1, s => do
      let (ok, s) ← s.emmcAppCommand h ctOcrCheck 0
      if ok then some (true, s) else tryOcr h tries s

def setOcr (s : Emmc D) : Emmc D :=
  { s with device := { s.device with ocr := (s.device.lastResponse 0 >>> 8) &&& 0xFFFF } }

def checkOcr (h : EmmcHost D) (s : Emmc D) : Option (Bool × Emmc D) :=
  andThen (s.tryOcr h 5) fun s => some (true, s.setOcr)

def checkUsableCard (h : EmmcHost D) (s : Emmc D) : Option (Bool × Emmc D) := do
  let (ok, s) ← s.emmcCommand h ctIOSetOpCond 0 1000
  if ok then some (true, s)
  else if s.device.lastError = 0 then some (true, s)
  else if s.device.lastError &&& commandTimeoutMask ≠ 0 then
    let (reset, s) := s.resetCommand h
    if !reset then some (false, s) else some (true, s.store h .intFlags commandTimeoutMask)
  else some (false, s)

def checkV2Card (h : EmmcHost D) (s : Emmc D) : Option (Bool × Emmc D) := do
  let (ok, s) ← s.emmcCommand h ctSendIfCond 0x1AA 200
  if !ok then
    if s.device.lastError &&& commandTimeoutMask ≠ 0 then
      let (reset, s) := s.resetCommand h
      if !reset then some (false, s) else some (false, s.store h .intFlags commandTimeoutMask)
    else some (false, s)
  else if s.device.lastResponse 0 &&& 0xFFF ≠ 0x1AA then some (false, s)
  else some (true, s)

def setSdhc (s : Emmc D) : Emmc D :=
  { s with device := { s.device with sdhc := (s.device.lastResponse 0 >>> 30) &&& 1 ≠ 0 } }

def checkSdhcSupport (h : EmmcHost D) (v2Card : Bool) : ℕ → Emmc D → Option (Bool × Emmc D)
  | 0, _ => none
  | fuel + 1, s =>
      let v2Flags : BitVec 32 := if v2Card then 1 <<< 30 else 0
      andThen (s.emmcAppCommand h ctOcrCheck (0x00FF8000 ||| v2Flags)) fun s =>
        if (s.device.lastResponse 0 >>> 31) &&& 1 ≠ 0 then some (true, s.setOcr.setSdhc)
        else checkSdhcSupport h v2Card fuel (s.timerSleep h 500)

def setRca (v : BitVec 32) (s : Emmc D) : Emmc D :=
  { s with device := { s.device with rca := v } }

def checkRca (h : EmmcHost D) (s : Emmc D) : Option (Bool × Emmc D) :=
  andThen (s.emmcCommand h ctSendCide 0 2000) fun s =>
    andThen (s.emmcCommand h ctSendRelativeAddr 0 2000) fun s =>
      let s := s.setRca ((s.device.lastResponse 0 >>> 16) &&& 0xFFFF)
      if (s.device.lastResponse 0 >>> 8) &&& 1 = 0 then some (false, s) else some (true, s)

def selectCard (h : EmmcHost D) (s : Emmc D) : Option (Bool × Emmc D) :=
  andThen (s.emmcCommand h ctSelectCard (s.device.rca <<< 16) 2000) fun s =>
    let status := (s.device.lastResponse 0 >>> 9) &&& 0xF
    if status ≠ 3 ∧ status ≠ 4 then some (false, s) else some (true, s)

/-- `device.block_size`. -/
def setBlockSize (n : ℕ) (s : Emmc D) : Emmc D :=
  { s with device := { s.device with blockSize := n } }

def bswap32 (x : BitVec 32) : BitVec 32 :=
  ((x <<< 24) &&& 0xff000000) ||| ((x <<< 8) &&& 0x00ff0000) ||| ((x >>> 8) &&& 0x0000ff00) |||
    ((x >>> 24) &&& 0x000000ff)

/-- The version in the first word of the card's configuration register. -/
def scrVersionOf (scr0 : BitVec 32) : BitVec 32 :=
  let spec := (scr0 >>> 24) &&& 0xf
  let spec3 := (scr0 >>> 15) &&& 0x1
  let spec4 := (scr0 >>> 10) &&& 0x1
  if spec = 0 then 1
  else if spec = 1 then 11
  else if spec = 2 then
    if spec3 = 0 then 2 else if spec4 = 0 then 3 else 4
  else 0xFFFFFFFF

/-- `device.scr.version`, from the register that has been read to the address `scr`. -/
def setScrVersion (scr : ℕ) (s : Emmc D) : Emmc D :=
  { s with device := { s.device with
    scrVersion := scrVersionOf (bswap32 (BitVec.ofNat 32 (leNat s.mem scr 4))) } }

/-- `set_scr`, with `device.scr` at the address `scr`. -/
def setScr (h : EmmcHost D) (scr : ℕ) (s : Emmc D) : Option (Bool × Emmc D) :=
  andThen (if s.device.sdhc then some (true, s) else s.emmcCommand h ctSetBlockLen 512 2000)
    fun s =>
      let (bsc, s) := s.load h .blockSizeCount
      let s := s.store h .blockSizeCount ((bsc &&& ~~~ 0xFFF#32) ||| 0x200)
      let s := ((s.setBuffer scr).setBlockSize 8).setTransferBlocks 1
      andThen (s.emmcAppCommand h ctSendSCR 0) fun s =>
        some (true, (s.setBlockSize 512).setScrVersion scr)

/-- `emmc_setup_clock`, with the rate that the mailbox reports. -/
def emmcSetupClock (h : EmmcHost D) (rate : BitVec 32) (s : Emmc D) : Bool × Emmc D :=
  let s := s.store h .control2 0
  let (n, s) := s.load h (.control 1)
  let n := n ||| emmcCtrl1ClkIntEn ||| getClockDivider rate sdClockId
  let s := s.store h (.control 1) ((n &&& ~~~ (0xf#32 <<< 16)) ||| (11 <<< 16))
  let (stable, s) := s.waitRegMask h (.control 1) emmcCtrl1ClkStable true 2000
  if !stable then (false, s)
  else
    let s := s.timerSleep h 30
    let (n, s) := s.load h (.control 1)
    let s := s.store h (.control 1) (n ||| 4)
    (true, s.timerSleep h 30)

/-- The wait of `switch_clock_rate`. -/
def awaitLines (h : EmmcHost D) : ℕ → Emmc D → Option (Emmc D)
  | 0, _ => none
  | fuel + 1, s =>
      let (status, s) := s.load h .status
      if status &&& emmcStatusInhibit ≠ 0 then awaitLines h fuel (s.timerSleep h 1) else some s

def switchClockRate (h : EmmcHost D) (fuel : ℕ) (baseClock targetRate : BitVec 32)
    (s : Emmc D) : Option (Emmc D) := do
  let divider := getClockDivider baseClock targetRate
  let s ← s.awaitLines h fuel
  let (c, s) := s.load h (.control 1)
  let c1 := c &&& ~~~ emmcCtrl1ClkEnable
  let s := (s.store h (.control 1) c1).timerSleep h 3
  let s := (s.store h (.control 1) ((c1 ||| divider) &&& ~~~ 0xFFE0#32)).timerSleep h 3
  some ((s.store h (.control 1) (c1 ||| emmcCtrl1ClkEnable)).timerSleep h 3)

/-- `emmc_card_reset`, up to the first command. -/
def resetHost (h : EmmcHost D) (rate : BitVec 32) (s : Emmc D) : Bool × Emmc D :=
  let s := s.store h (.control 1) emmcCtrl1ResetHost
  let (ok, s) := s.waitRegMask h (.control 1) emmcCtrl1ResetAll false 2000
  if !ok then (false, s)
  else
    let (c0, s) := s.load h (.control 0)
    let s := (s.store h (.control 0) (c0 ||| (0x0F <<< 8))).timerSleep h 3
    let (ok, s) := s.emmcSetupClock h rate
    if !ok then (false, s)
    else
      let s := s.store h .intEnable 0
      let s := s.store h .intFlags 0xFFFFFFFF
      let s := (s.store h .intMask 0xFFFFFFFF).timerSleep h 203
      (true, (((s.setTransferBlocks 0).setLastCommandValue 0).setLastSuccess false).setBlockSize 0)

/-- `emmc_card_reset`, from `check_v2_card` to `check_sdhc_support`. -/
def identifyCard (h : EmmcHost D) (fuel : ℕ) (s : Emmc D) : Option (Bool × Emmc D) := do
  let (v2Card, s) ← s.checkV2Card h
  andThen (s.checkUsableCard h) fun s =>
    andThen (s.checkOcr h) fun s => s.checkSdhcSupport h v2Card fuel

def emmcCardReset (h : EmmcHost D) (fuel : ℕ) (rate : BitVec 32) (scr : ℕ) (s : Emmc D) :
    Option (Bool × Emmc D) :=
  andThen (some (s.resetHost h rate)) fun s =>
    andThen (s.emmcCommand h ctGoIdle 0 2000) fun s =>
      andThen (s.identifyCard h fuel) fun s => do
        let s ← s.switchClockRate h fuel s.device.baseClock sdClockNormal
        andThen ((s.timerSleep h 10).checkRca h) fun s =>
          andThen (s.selectCard h) fun s =>
            andThen (s.setScr h scr) fun s => some (true, s.store h .intFlags 0xFFFFFFFF)

/-- The tries of `emmc_init`. -/
def tryReset (h : EmmcHost D) (fuel : ℕ) (rate : BitVec 32) (scr : ℕ) :
    ℕ → Emmc D → Option (Bool × Emmc D)
  | 0, s => some (false, s)
  | tries + 1, s => do
      let (success, s) ← s.emmcCardReset h fuel rate scr
      if success then some (true, s) else tryReset h fuel rate scr tries (s.timerSleep h 100)

def emmcInit (h : EmmcHost D) (fuel : ℕ) (rate : BitVec 32) (scr : ℕ) (s : Emmc D) :
    Option (Bool × Emmc D) :=
  let device := { s.device with
    transferBlocks := 0, lastCommandValue := 0, lastSuccess := false, blockSize := 0
    sdhc := false, ocr := 0, rca := 0, offset := 0, baseClock := 0 }
  tryReset h fuel rate scr 10 { s with device := device }

/-! ## §2  What the commands keep -/

variable {h : EmmcHost D} {disk : Disk} {sdhc ok : Bool} {view : D → EmmcView}
  {s s' s'' : Emmc D} {f : Emmc D → Option (Bool × Emmc D)} {r : Option (Bool × Emmc D)}
  {cmd : EmmcCmd} {arg : BitVec 32} {timeout command fuel : ℕ}

theorem andThen_cases (hrun : andThen r f = some (ok, s')) :
    (∃ s, r = some (true, s) ∧ f s = some (ok, s')) ∨ ok = false ∧ r = some (false, s') := by
  obtain ⟨⟨passed, s⟩, hr, hf⟩ := Option.bind_eq_some_iff.mp hrun
  cases passed with
  | true => exact Or.inl ⟨s, hr, hf⟩
  | false =>
      obtain ⟨rfl, rfl⟩ := Prod.mk.inj (Option.some.inj hf)
      exact Or.inr ⟨rfl, hr⟩

theorem andThen_true (hrun : andThen r f = some (true, s')) :
    ∃ s, r = some (true, s) ∧ f s = some (true, s') :=
  (andThen_cases hrun).resolve_right fun h => absurd h.1 Bool.false_ne_true.symm

/-- The block size and the kind of card are as before. -/
structure SameCard (s s' : Emmc D) : Prop where
  blockSize : s'.device.blockSize = s.device.blockSize
  sdhc : s'.device.sdhc = s.device.sdhc

theorem SameCard.trans (hs : SameCard s s') (hs' : SameCard s' s'') : SameCard s s'' :=
  ⟨hs'.blockSize.trans hs.blockSize, hs'.sdhc.trans hs.sdhc⟩

theorem Within.sameCard {buf n t : ℕ} (hs : Within buf n t s s') : SameCard s s' :=
  ⟨hs.blockSize, congrArg (fun c => c.2.2.2.1) hs.setup⟩

theorem emmcIssueCommand_same (hw : s.device.blockSize % 4 = 0)
    (hrun : s.emmcIssueCommand h cmd arg timeout = some (ok, s')) : SameCard s s' := by
  obtain ⟨ok', s₁, hrun', hs₁⟩ := emmcIssueCommand_within (h := h) (s := s)
    (w := s.device.blockSize / 4) cmd arg timeout (by omega)
  rw [hrun, Option.some.injEq, Prod.mk.injEq] at hrun'
  obtain ⟨-, rfl⟩ := hrun'
  exact hs₁.sameCard

theorem emmcCommand_same (hw : s.device.blockSize % 4 = 0)
    (hrun : s.emmcCommand h command arg timeout = some (ok, s')) : SameCard s s' := by
  obtain ⟨ok', s₁, hrun', hs₁⟩ := emmcCommand_within (h := h) (s := s)
    (w := s.device.blockSize / 4) command arg timeout (by omega)
  rw [hrun, Option.some.injEq, Prod.mk.injEq] at hrun'
  obtain ⟨-, rfl⟩ := hrun'
  exact hs₁.sameCard

theorem SameCard.words (hs : SameCard s s') (hw : s.device.blockSize % 4 = 0) :
    s'.device.blockSize % 4 = 0 := by
  rw [hs.blockSize]
  exact hw

/-- An application command, by its second command if the first succeeds. -/
theorem emmcAppCommand_issue (hw : s.device.blockSize % 4 = 0)
    (hrun : s.emmcAppCommand h command arg = some (true, s')) :
    ∃ s₁, SameCard s s₁ ∧
      s₁.emmcIssueCommand h (commands command) arg 2000 = some (true, s') := by
  unfold emmcAppCommand at hrun
  split_ifs at hrun
  · simp at hrun
  · obtain ⟨s₁, hfirst, hsecond⟩ := andThen_true hrun
    have hs₁ := emmcIssueCommand_same (s := s.setLastCommand (commands ctApp)) hw hfirst
    exact ⟨s₁.setLastCommand (commands command), ⟨hs₁.blockSize, hs₁.sdhc⟩, hsecond⟩

theorem emmcAppCommand_same (hw : s.device.blockSize % 4 = 0)
    (hrun : s.emmcAppCommand h command arg = some (ok, s')) : SameCard s s' := by
  unfold emmcAppCommand at hrun
  split_ifs at hrun
  · obtain ⟨-, rfl⟩ := Prod.mk.inj (Option.some.inj hrun)
    exact ⟨rfl, rfl⟩
  · rcases andThen_cases hrun with ⟨s₁, hfirst, hsecond⟩ | ⟨-, hfirst⟩
    · have hs₁ := emmcIssueCommand_same (s := s.setLastCommand (commands ctApp)) hw hfirst
      have hs₂ := emmcIssueCommand_same (s := s₁.setLastCommand (commands command))
        (hs₁.words hw) hsecond
      exact ⟨hs₂.blockSize.trans hs₁.blockSize, hs₂.sdhc.trans hs₁.sdhc⟩
    · have hs₁ := emmcIssueCommand_same (s := s.setLastCommand (commands ctApp)) hw hfirst
      exact ⟨hs₁.blockSize, hs₁.sdhc⟩

theorem checkV2Card_same (hw : s.device.blockSize % 4 = 0)
    (hrun : s.checkV2Card h = some (ok, s')) : SameCard s s' := by
  obtain ⟨⟨sent, s₁⟩, hcommand, hrest⟩ := Option.bind_eq_some_iff.mp hrun
  obtain ⟨hsize, hsdhc⟩ := emmcCommand_same hw hcommand
  dsimp only at hrest
  split_ifs at hrest <;> obtain ⟨-, rfl⟩ := Prod.mk.inj (Option.some.inj hrest) <;>
    exact ⟨hsize, hsdhc⟩

theorem checkUsableCard_same (hw : s.device.blockSize % 4 = 0)
    (hrun : s.checkUsableCard h = some (ok, s')) : SameCard s s' := by
  obtain ⟨⟨sent, s₁⟩, hcommand, hrest⟩ := Option.bind_eq_some_iff.mp hrun
  obtain ⟨hsize, hsdhc⟩ := emmcCommand_same hw hcommand
  dsimp only at hrest
  split_ifs at hrest <;> obtain ⟨-, rfl⟩ := Prod.mk.inj (Option.some.inj hrest) <;>
    exact ⟨hsize, hsdhc⟩

theorem tryOcr_same (tries : ℕ) :
    ∀ {s : Emmc D}, s.device.blockSize % 4 = 0 → s.tryOcr h tries = some (ok, s') →
      SameCard s s' := by
  induction tries with
  | zero =>
      intro s _ hrun
      obtain ⟨-, rfl⟩ := Prod.mk.inj (Option.some.inj hrun)
      exact ⟨rfl, rfl⟩
  | succ tries ih =>
      intro s hw hrun
      obtain ⟨⟨sent, s₁⟩, hcommand, hrest⟩ := Option.bind_eq_some_iff.mp hrun
      have hs₁ := emmcAppCommand_same hw hcommand
      dsimp only at hrest
      cases sent with
      | true =>
          obtain ⟨-, rfl⟩ := Prod.mk.inj (Option.some.inj hrest)
          exact hs₁
      | false => exact hs₁.trans (ih (hs₁.words hw) hrest)

theorem checkOcr_same (hw : s.device.blockSize % 4 = 0)
    (hrun : s.checkOcr h = some (true, s')) : SameCard s s' := by
  obtain ⟨s₁, hfirst, hsecond⟩ := andThen_true hrun
  obtain ⟨-, rfl⟩ := Prod.mk.inj (Option.some.inj hsecond)
  obtain ⟨hsize, hsdhc⟩ := tryOcr_same 5 hw hfirst
  exact ⟨hsize, hsdhc⟩

theorem checkRca_same (hw : s.device.blockSize % 4 = 0)
    (hrun : s.checkRca h = some (true, s')) : SameCard s s' := by
  obtain ⟨s₁, hfirst, hrest⟩ := andThen_true hrun
  obtain ⟨s₂, hsecond, hthird⟩ := andThen_true hrest
  have hs₁ := emmcCommand_same hw hfirst
  obtain ⟨hsize, hsdhc⟩ := hs₁.trans (emmcCommand_same (hs₁.words hw) hsecond)
  dsimp only at hthird
  split_ifs at hthird
  · exact absurd (congrArg Prod.fst (Option.some.inj hthird)) Bool.false_ne_true
  · obtain ⟨-, rfl⟩ := Prod.mk.inj (Option.some.inj hthird)
    exact ⟨hsize, hsdhc⟩

theorem selectCard_same (hw : s.device.blockSize % 4 = 0)
    (hrun : s.selectCard h = some (true, s')) : SameCard s s' := by
  obtain ⟨s₁, hfirst, hrest⟩ := andThen_true hrun
  have hs₁ := emmcCommand_same hw hfirst
  dsimp only at hrest
  split_ifs at hrest
  · exact absurd (congrArg Prod.fst (Option.some.inj hrest)) Bool.false_ne_true
  · obtain ⟨-, rfl⟩ := Prod.mk.inj (Option.some.inj hrest)
    exact hs₁

theorem setScr_size {scr : ℕ} (hw : s.device.blockSize % 4 = 0)
    (hrun : s.setScr h scr = some (true, s')) :
    s'.device.blockSize = 512 ∧ s'.device.sdhc = s.device.sdhc := by
  obtain ⟨s₁, hfirst, hrest⟩ := andThen_true hrun
  have hs₁ : s₁.device.sdhc = s.device.sdhc := by
    split_ifs at hfirst
    · obtain ⟨-, rfl⟩ := Prod.mk.inj (Option.some.inj hfirst)
      rfl
    · exact (emmcCommand_same hw hfirst).sdhc
  obtain ⟨s₂, hsecond, hthird⟩ := andThen_true hrest
  obtain ⟨-, rfl⟩ := Prod.mk.inj (Option.some.inj hthird)
  have hs₂ := emmcAppCommand_same (show 8 % 4 = 0 by decide) hsecond
  exact ⟨rfl, hs₂.sdhc.trans hs₁⟩

theorem switchClockRate_same {baseClock targetRate : BitVec 32}
    (hrun : s.switchClockRate h fuel baseClock targetRate = some s') : SameCard s s' := by
  have hwait : ∀ {s s' : Emmc D}, s.awaitLines h fuel = some s' → SameCard s s' := by
    clear hrun
    induction fuel with
    | zero => exact fun hrun => absurd hrun.symm (Option.some_ne_none _)
    | succ fuel ih =>
        intro s s' hrun
        rw [awaitLines] at hrun
        dsimp only at hrun
        split_ifs at hrun
        · obtain ⟨hsize, hsdhc⟩ := ih hrun
          exact ⟨hsize, hsdhc⟩
        · obtain rfl := Option.some.inj hrun
          exact ⟨rfl, rfl⟩
  obtain ⟨s₁, hlines, hrest⟩ := Option.bind_eq_some_iff.mp hrun
  obtain rfl := Option.some.inj hrest
  obtain ⟨hsize, hsdhc⟩ := hwait hlines
  exact ⟨hsize, hsdhc⟩

/-! ## §3  The capacity of the card -/

theorem shiftRight_and_one (v : BitVec 32) (i : ℕ) :
    (v >>> i) &&& 1 ≠ 0 ↔ v.getLsbD i = true := by
  have hbit : (v >>> i) &&& 1 = (BitVec.ofBool (v.getLsbD i)).setWidth 32 := by
    show (v >>> i) &&& 1#32 = _
    rw [BitVec.and_one_eq_setWidth_ofBool_getLsbD, BitVec.getLsbD_ushiftRight, Nat.add_zero]
  rw [hbit]
  cases v.getLsbD i <;> decide

theorem loadResponse_self (i : ℕ) (s : Emmc D) :
    (s.loadResponse h i).device.lastResponse i = (h.load (.response i) s.regs).1 :=
  if_pos rfl

theorem sendCommand_response (hc : ReadsCard h disk sdhc view)
    (hresponse : cmd.responseType = rt48) (hok : (s.sendCommand h cmd arg timeout).1 = true) :
    ∃ d, (view d).command = cmd.toReg ∧
      (s.sendCommand h cmd arg timeout).2.device.lastResponse 0 =
        (h.load (.response 0) d).1 := by
  have hflags : ∀ d, (view (h.load .intFlags d).2).command = (view d).command :=
    fun d => congrArg EmmcView.command (hc.load .intFlags d fun h => EmmcReg.noConfusion h)
  have hwrite : (view ((s.writeCommand h arg cmd.toReg).timerSleep h 10).regs).command =
      cmd.toReg :=
    (congrArg EmmcView.command (hc.wait 10 _)).trans (hc.command _ _)
  have hpoll : ∀ s : Emmc D, (view (s.poll h .intFlags (fun reg => reg &&& 0x8001 ≠ 0)
      timeout).2.regs).command = (view s.regs).command := fun s =>
    congrArg EmmcView.command (Device.poll_keeps
      (fun d => hc.load .intFlags d fun h => EmmcReg.noConfusion h) (hc.wait 1) timeout s.regs)
  unfold sendCommand at hok ⊢
  dsimp only at hok ⊢
  split_ifs at hok ⊢
  refine ⟨_, ((congrArg EmmcView.command (hc.clear 0xFFFF0001 _)).trans
    ((hflags _).trans ((hpoll _).trans hwrite))), ?_⟩
  rw [loadResponses, if_pos (Or.inl hresponse)]
  exact loadResponse_self 0 _

/-- A command with a response of 48 bits and no data takes the response to this command. -/
theorem emmcIssueCommand_response (hc : ReadsCard h disk sdhc view)
    (hresponse : cmd.responseType = rt48) (hdata : cmd.isData = 0)
    (hrun : s.emmcIssueCommand h cmd arg timeout = some (true, s')) :
    ∃ d, (view d).command = cmd.toReg ∧
      s'.device.lastResponse 0 = (h.load (.response 0) d).1 := by
  unfold emmcIssueCommand at hrun
  dsimp only at hrun
  split_ifs at hrun with hmany hok
  · exact absurd (congrArg Prod.fst (Option.some.inj hrun)) Bool.false_ne_true
  · exact absurd (congrArg Prod.fst (Option.some.inj hrun)) Bool.false_ne_true
  rw [Bool.not_eq_true', Bool.not_eq_false] at hok
  obtain ⟨d, hcommand, hvalue⟩ := sendCommand_response hc hresponse hok
  have hshort : ¬ (cmd.responseType = rt48Busy ∨ cmd.isData ≠ 0) := by
    rw [hresponse, hdata]
    decide
  rw [finishCommand, transferData, if_neg (not_not.mpr hdata), Option.map_some, if_neg hshort]
    at hrun
  obtain ⟨-, rfl⟩ := Prod.mk.inj (Option.some.inj hrun)
  exact ⟨d, hcommand, hvalue⟩

theorem checkSdhcSupport_finds (hc : ReadsCard h disk sdhc view) (v2Card : Bool) (fuel : ℕ) :
    ∀ {s : Emmc D}, s.device.blockSize % 4 = 0 →
      s.checkSdhcSupport h v2Card fuel = some (true, s') →
      s'.device.blockSize = s.device.blockSize ∧ s'.device.sdhc = sdhc := by
  induction fuel with
  | zero => exact fun _ hrun => absurd hrun.symm (Option.some_ne_none _)
  | succ fuel ih =>
      intro s hw hrun
      rw [checkSdhcSupport] at hrun
      obtain ⟨s₁, hfirst, hrest⟩ := andThen_true hrun
      have hs₁ := emmcAppCommand_same hw hfirst
      obtain ⟨s₀, -, hissue⟩ := emmcAppCommand_issue hw hfirst
      obtain ⟨d, hcommand, hresponse⟩ := emmcIssueCommand_response hc rfl rfl hissue
      split_ifs at hrest with hbusy
      · obtain ⟨-, rfl⟩ := Prod.mk.inj (Option.some.inj hrest)
        refine ⟨hs₁.blockSize, ?_⟩
        have hocr := hc.ocr d hcommand
        rw [← hresponse] at hocr
        show decide ((s₁.device.lastResponse 0 >>> 30) &&& 1 ≠ 0) = sdhc
        rw [← hocr ((shiftRight_and_one _ 31).mp hbusy), Bool.decide_congr (shiftRight_and_one _ 30),
          Bool.decide_eq_true]
      · obtain ⟨hsize, hsdhc⟩ := ih (s := s₁.timerSleep h 500) (hs₁.words hw) hrest
        exact ⟨hsize.trans hs₁.blockSize, hsdhc⟩

/-! ## §4  Reads after the bring-up -/

structure Ready (sdhc : Bool) (s : Emmc D) : Prop where
  blockSize : s.device.blockSize = 512
  sdhc : s.device.sdhc = sdhc

theorem resetHost_size {rate : BitVec 32} (hrun : s.resetHost h rate = (true, s')) :
    s'.device.blockSize = 0 := by
  unfold resetHost at hrun
  dsimp only at hrun
  split_ifs at hrun
  · exact absurd (congrArg Prod.fst hrun) Bool.false_ne_true
  · exact absurd (congrArg Prod.fst hrun) Bool.false_ne_true
  · obtain ⟨-, rfl⟩ := Prod.mk.inj hrun
    rfl

theorem identifyCard_finds (hc : ReadsCard h disk sdhc view) (hw : s.device.blockSize % 4 = 0)
    (hrun : s.identifyCard h fuel = some (true, s')) :
    s'.device.blockSize = s.device.blockSize ∧ s'.device.sdhc = sdhc := by
  obtain ⟨⟨v2Card, s₁⟩, hv2, hrest⟩ := Option.bind_eq_some_iff.mp hrun
  have hs₁ := checkV2Card_same hw hv2
  obtain ⟨s₂, husable, hrest⟩ := andThen_true hrest
  have hs₂ := hs₁.trans (checkUsableCard_same (hs₁.words hw) husable)
  obtain ⟨s₃, hocr, hrest⟩ := andThen_true hrest
  have hs₃ := hs₂.trans (checkOcr_same (hs₂.words hw) hocr)
  obtain ⟨hsize, hsdhc⟩ := checkSdhcSupport_finds hc v2Card fuel (hs₃.words hw) hrest
  exact ⟨hsize.trans hs₃.blockSize, hsdhc⟩

theorem emmcCardReset_ready {rate : BitVec 32} {scr : ℕ} (hc : ReadsCard h disk sdhc view)
    (hrun : s.emmcCardReset h fuel rate scr = some (true, s')) : Ready sdhc s' := by
  obtain ⟨s₁, hreset, hrest⟩ := andThen_true hrun
  have hsize₁ : s₁.device.blockSize = 0 := resetHost_size (Option.some.inj hreset)
  obtain ⟨s₂, hidle, hrest⟩ := andThen_true hrest
  have hs₂ := emmcCommand_same (by rw [hsize₁]) hidle
  obtain ⟨s₃, hidentify, hrest⟩ := andThen_true hrest
  have hsize₂ : s₂.device.blockSize = 0 := hs₂.blockSize.trans hsize₁
  have hs₃ := identifyCard_finds hc (by rw [hsize₂]) hidentify
  rw [hsize₂] at hs₃
  obtain ⟨s₄, hclock, hrest⟩ := Option.bind_eq_some_iff.mp hrest
  have hs₄ := switchClockRate_same hclock
  obtain ⟨s₅, hrca, hrest⟩ := andThen_true hrest
  have hs₅ := checkRca_same (s := s₄.timerSleep h 10) (hs₄.words (by rw [hs₃.1])) hrca
  obtain ⟨s₆, hselect, hrest⟩ := andThen_true hrest
  have hw₅ : s₅.device.blockSize % 4 = 0 := hs₅.words (hs₄.words (by rw [hs₃.1]))
  have hs₆ := selectCard_same hw₅ hselect
  obtain ⟨s₇, hscr, hrest⟩ := andThen_true hrest
  obtain ⟨hsize, hsdhc⟩ := setScr_size (hs₆.words hw₅) hscr
  obtain ⟨-, rfl⟩ := Prod.mk.inj (Option.some.inj hrest)
  refine ⟨hsize, ?_⟩
  calc s₇.device.sdhc = s₆.device.sdhc := hsdhc
    _ = s₅.device.sdhc := hs₆.sdhc
    _ = s₄.device.sdhc := hs₅.sdhc
    _ = s₃.device.sdhc := hs₄.sdhc
    _ = sdhc := hs₃.2

theorem tryReset_ready {rate : BitVec 32} {scr : ℕ} (hc : ReadsCard h disk sdhc view)
    (tries : ℕ) : ∀ {s : Emmc D}, s.tryReset h fuel rate scr tries = some (true, s') →
      Ready sdhc s' := by
  induction tries with
  | zero => exact fun hrun => absurd (congrArg Prod.fst (Option.some.inj hrun)) Bool.false_ne_true
  | succ tries ih =>
      intro s hrun
      obtain ⟨⟨success, s₁⟩, hreset, hrest⟩ := Option.bind_eq_some_iff.mp hrun
      dsimp only at hrest
      cases success with
      | true =>
          obtain ⟨-, rfl⟩ := Prod.mk.inj (Option.some.inj hrest)
          exact emmcCardReset_ready hc hreset
      | false => exact ih hrest

theorem Ready.step {q : EmmcRequest} (hs : Ready sdhc s) (hstep : ReadStep h s q s') :
    Ready sdhc s' := by
  obtain ⟨r, hrun⟩ := hstep
  obtain ⟨r', s₁, hrun', -, -, -, hsize, hsdhc, -⟩ := emmcRead_returns (h := h)
    (s := s.emmcSeekSector q.sector) (by rw [emmcSeekSector, hs.blockSize]) q.buffer q.size
  rw [hrun, Option.some.injEq, Prod.mk.injEq] at hrun'
  obtain ⟨-, rfl⟩ := hrun'
  exact ⟨hsize.trans hs.blockSize, hsdhc.trans hs.sdhc⟩

/-- After a bring-up that succeeds and any reads, failed or not, a read comes back in bounded
time. It returns -1, or the buffer has the bytes of the card; the memory outside the buffer is
as before. -/
theorem reads_card {rate : BitVec 32} {scr : ℕ} {s₀ s₁ : Emmc D} {reads : List EmmcRequest}
    (hc : ReadsCard h disk sdhc view) (hinit : s₀.emmcInit h fuel rate scr = some (true, s₁))
    (hrun : Trace (ReadStep h) s₁ reads s) (q : EmmcRequest)
    (hsector : sdhc = false → (q.sector.setWidth 32).toNat < 2 ^ 23) :
    ∃ r s', (s.emmcSeekSector q.sector).emmcRead h q.buffer q.size = some (r, s') ∧
      (r = -1 ∨ r = q.size ∧
        s'.mem = Rpos.emmcRead disk s.mem q.sector q.buffer q.size.toNat) ∧
      (∀ a, a < q.buffer ∨ q.buffer + q.size.toNat ≤ a → s'.mem a = s.mem a) ∧
      s'.slept ≤ s.slept + readTime (q.size.toNat / 512) := by
  have hstart : Ready sdhc s₁ := tryReset_ready hc 10 hinit
  have hs : Ready sdhc s := hrun.inv (Ready sdhc) (fun _ => True) hstart (fun _ _ => trivial)
    fun _ _ _ hs _ hstep => hs.step hstep
  obtain ⟨r, s', hread, -, hmem, hslept, -⟩ := emmcRead_returns (h := h)
    (s := s.emmcSeekSector q.sector) (by rw [emmcSeekSector, hs.blockSize]) q.buffer q.size
  refine ⟨r, s', hread, ?_, hmem, ?_⟩
  · by_cases hr : r = -1
    · exact Or.inl hr
    · exact Or.inr (emmcRead_card (hs.sdhc.symm ▸ hc) hs.blockSize (hs.sdhc.symm ▸ hsector) hread hr)
  · rw [← hs.blockSize]
    exact hslept

end Emmc

/-- A card with the sector number in the first byte of each sector. -/
def numberedDisk : Disk := fun sector i => if i = 0 then UInt8.ofNat sector.toNat else 0

/-- The driver before the bring-up. -/
def Emmc.unset : Emmc PromptCard := Emmc.ready ⟨0, 0, 0, 0, 0, 0⟩

theorem emmcRead_first {m : ByteMem} {sector : Word} {buf size : ℕ} (hsize : 0 < size) :
    emmcRead numberedDisk m sector buf size buf = UInt8.ofNat (sector.setWidth 32).toNat := by
  unfold emmcRead ByteMem.store
  dsimp only
  rw [if_pos ⟨le_rfl, Nat.lt_add_of_pos_right hsize⟩, Nat.sub_self, Nat.zero_div, Nat.zero_mod,
    BitVec.add_zero]
  rfl

theorem reads_card_prompt : ∃ s s', Emmc.unset.emmcInit (promptHost numberedDisk true) 1 0 0 =
    some (true, s) ∧ (s.emmcSeekSector 7).emmcRead (promptHost numberedDisk true) 4096 512 =
      some (512, s') ∧ s'.mem 4096 = 7 := by
  have hresult : ((Emmc.unset.emmcInit (promptHost numberedDisk true) 1 0 0).bind fun p =>
      if p.1 then (p.2.emmcSeekSector 7).emmcRead (promptHost numberedDisk true) 4096 512
      else none).map Prod.fst = some 512 := by decide +kernel
  obtain ⟨⟨r, s'⟩, hboth, hr⟩ := Option.map_eq_some_iff.mp hresult
  obtain rfl : r = 512 := hr
  obtain ⟨⟨ok, s⟩, hinit, hread⟩ := Option.bind_eq_some_iff.mp hboth
  dsimp only at hread
  split_ifs at hread with hok
  obtain rfl : ok = true := hok
  obtain ⟨r, s₁, hread₁, hresult₁, -⟩ := Emmc.reads_card (promptHost_reads numberedDisk true) hinit
    (.nil s) ⟨7, 4096, 512⟩ fun h => absurd h (by decide)
  rw [hread, Option.some.injEq, Prod.mk.injEq] at hread₁
  obtain ⟨rfl, rfl⟩ := hread₁
  obtain ⟨-, hmem⟩ := hresult₁.resolve_left (by decide)
  refine ⟨s, s', hinit, hread, ?_⟩
  rw [hmem, emmcRead_first (by decide)]
  decide

end Rpos
