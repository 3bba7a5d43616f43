import Rpos.Base.Device
import Rpos.Filesystem.Disk

/-!
# The driver of the SD card

The data commands of `emmc.c`: the command that is issued with its polls, the words that are
taken from the data register, and the retries. The controller is any device with these
registers.
-/

namespace Rpos

open Base ByteMem

/-! ## §1  Commands -/

/-- `emmc_cmd_t`. -/
structure EmmcCmd where
  respA : ℕ
  blockCount : ℕ
  autoCommand : ℕ
  direction : ℕ
  multiblock : ℕ
  respB : ℕ
  responseType : ℕ
  res0 : ℕ
  crcEnable : ℕ
  idxEnable : ℕ
  isData : ℕ
  type : ℕ
  index : ℕ
  res1 : ℕ
  deriving DecidableEq

/-- `TO_REG`: the bit-fields in the order of the structure, the first in the lowest bits. -/
def EmmcCmd.toReg (c : EmmcCmd) : BitVec 32 :=
  BitVec.ofNat 32 (c.respA ||| c.blockCount <<< 1 ||| c.autoCommand <<< 2 |||
    c.direction <<< 4 ||| c.multiblock <<< 5 ||| c.respB <<< 6 ||| c.responseType <<< 16 |||
    c.res0 <<< 18 ||| c.crcEnable <<< 19 ||| c.idxEnable <<< 20 ||| c.isData <<< 21 |||
    c.type <<< 22 ||| c.index <<< 24 ||| c.res1 <<< 30)

def rt136 : ℕ := 1

def rt48 : ℕ := 2

def rt48Busy : ℕ := 3

def resCmd : EmmcCmd := ⟨1, 1, 3, 1, 1, 0xF, 3, 1, 1, 1, 1, 3, 0xF, 3⟩

def commands : ℕ → EmmcCmd
  | 0 => ⟨0, 0, 0, 0, 0, 0, 0, 0, 0, 0, 0, 0, 0, 0⟩
  | 2 => ⟨0, 0, 0, 0, 0, 0, rt136, 0, 1, 0, 0, 0, 2, 0⟩
  | 3 => ⟨0, 0, 0, 0, 0, 0, rt48, 0, 1, 0, 0, 0, 3, 0⟩
  | 4 => ⟨0, 0, 0, 0, 0, 0, 0, 0, 0, 0, 0, 0, 4, 0⟩
  | 5 => ⟨0, 0, 0, 0, 0, 0, rt136, 0, 0, 0, 0, 0, 5, 0⟩
  | 6 => ⟨0, 0, 0, 0, 0, 0, rt48, 0, 1, 0, 0, 0, 6, 0⟩
  | 7 => ⟨0, 0, 0, 0, 0, 0, rt48Busy, 0, 1, 0, 0, 0, 7, 0⟩
  | 8 => ⟨0, 0, 0, 0, 0, 0, rt48, 0, 1, 0, 0, 0, 8, 0⟩
  | 9 => ⟨0, 0, 0, 0, 0, 0, rt136, 0, 1, 0, 0, 0, 9, 0⟩
  | 16 => ⟨0, 0, 0, 0, 0, 0, rt48, 0, 1, 0, 0, 0, 16, 0⟩
  | 17 => ⟨0, 0, 0, 1, 0, 0, rt48, 0, 1, 0, 1, 0, 17, 0⟩
  | 18 => ⟨0, 1, 1, 1, 1, 0, rt48, 0, 1, 0, 1, 0, 18, 0⟩
  | 41 => ⟨0, 0, 0, 0, 0, 0, rt48, 0, 0, 0, 0, 0, 41, 0⟩
  | 51 => ⟨0, 0, 0, 1, 0, 0, rt48, 0, 1, 0, 1, 0, 51, 0⟩
  | 55 => ⟨0, 0, 0, 0, 0, 0, rt48, 0, 0, 0, 0, 0, 55, 0⟩
  | _ => resCmd

def ctGoIdle : ℕ := 0

def ctSendCide : ℕ := 2

def ctSendRelativeAddr : ℕ := 3

def ctIOSetOpCond : ℕ := 5

def ctSelectCard : ℕ := 7

def ctSendIfCond : ℕ := 8

def ctSetBlockLen : ℕ := 16

def ctReadBlock : ℕ := 17

def ctReadMultiple : ℕ := 18

def ctWriteBlock : ℕ := 24

def ctWriteMultiple : ℕ := 25

def ctOcrCheck : ℕ := 41

def ctSendSCR : ℕ := 51

def ctApp : ℕ := 55

/-! ## §2  The state -/

/-- The registers of `emmc_regs_t` that the driver uses. -/
inductive EmmcReg
  | blockSizeCount
  | arg1
  | cmdXferMode
  | response (i : ℕ)
  | data
  | status
  | control (i : ℕ)
  | intFlags
  | intMask
  | intEnable
  | control2
  deriving DecidableEq

/-- `emmc_device_t`. -/
structure EmmcDevice where
  lastSuccess : Bool
  transferBlocks : ℕ
  lastCommand : EmmcCmd
  lastCommandValue : BitVec 32
  blockSize : ℕ
  lastResponse : ℕ → BitVec 32
  sdhc : Bool
  ocr : BitVec 32
  rca : BitVec 32
  offset : Word
  buffer : ℕ
  baseClock : BitVec 32
  lastError : BitVec 32
  lastInterrupt : BitVec 32
  scrVersion : BitVec 32

/-- The controller, the memory, `device`, and the milliseconds of all calls of `timer_sleep`. -/
structure Emmc (D : Type*) where
  regs : D
  mem : ByteMem
  device : EmmcDevice
  slept : ℕ

abbrev EmmcHost (D : Type*) := Device EmmcReg (BitVec 32) D

def wordByte (v : BitVec 32) (i : ℕ) : UInt8 := UInt8.ofNat (v.toNat / 256 ^ i)

namespace Emmc

variable {D : Type*}

def load (h : EmmcHost D) (r : EmmcReg) (s : Emmc D) : BitVec 32 × Emmc D :=
  ((h.load r s.regs).1, { s with regs := (h.load r s.regs).2 })

def store (h : EmmcHost D) (r : EmmcReg) (v : BitVec 32) (s : Emmc D) : Emmc D :=
  { s with regs := h.store r v s.regs }

def timerSleep (h : EmmcHost D) (ms : ℕ) (s : Emmc D) : Emmc D :=
  { s with regs := h.wait ms s.regs, slept := s.slept + ms }

/-- A loop that loads a register up to `n` times, and sleeps for a millisecond after each load
that does not end it. -/
def poll (h : EmmcHost D) (r : EmmcReg) (test : BitVec 32 → Bool) (n : ℕ) (s : Emmc D) :
    Bool × Emmc D :=
  let (passed, failed, d) := h.poll r test n s.regs
  (passed, { s with regs := d, slept := s.slept + failed })

def waitRegMask (h : EmmcHost D) (r : EmmcReg) (mask : BitVec 32) (set : Bool) (timeout : ℕ)
    (s : Emmc D) : Bool × Emmc D :=
  s.poll h r (fun v => if v &&& mask ≠ 0 then set else !set) (timeout + 1)

def setLastError (intrVal : BitVec 32) (s : Emmc D) : Emmc D :=
  { s with device := { s.device with
    lastError := intrVal &&& 0xFFFF0000
    lastInterrupt := intrVal } }

/-! ## §3  Data -/

/-- The loop over the words of a block, from the length `length` on, with the pointer `data`. A
length below 4 wraps around and is never 0: the loop does not end. -/
def transferWords (h : EmmcHost D) (write : Bool) : ℕ → ℕ → Emmc D → Option (ℕ × Emmc D)
  | 0, data, s => some (data, s)
  | length + 4, data, s =>
      if write then
        transferWords h write length (data + 4)
          (s.store h .data (BitVec.ofNat 32 (leNat s.mem data 4)))
      else
        let (v, s) := s.load h .data
        transferWords h write length (data + 4)
          { s with mem := s.mem.store data 4 (wordByte v) }
  | _, _, _ => none

/-- The loop over the blocks. What `wait_reg_mask` returns is not looked at. -/
def transferBlocks (h : EmmcHost D) (wrIrpt : BitVec 32) (write : Bool) :
    ℕ → ℕ → Emmc D → Option (Bool × Emmc D)
  | 0, _, s => some (true, s)
  | blocks + 1, data, s => do
      let (_, s) := s.waitRegMask h .intFlags (wrIrpt ||| 0x8000) true 2000
      let (intrVal, s) := s.load h .intFlags
      let s := s.store h .intFlags (wrIrpt ||| 0x8000)
      if intrVal &&& 0xFFFF0000 ≠ 0 then some (false, s.setLastError intrVal)
      else
        let (data, s) ← transferWords h write s.device.blockSize data s
        transferBlocks h wrIrpt write blocks data s

def doDataTransfer (h : EmmcHost D) (cmd : EmmcCmd) (s : Emmc D) : Option (Bool × Emmc D) :=
  if cmd.direction ≠ 0 then
    transferBlocks h (1 <<< 5) false s.device.transferBlocks s.device.buffer s
  else transferBlocks h (1 <<< 4) true s.device.transferBlocks s.device.buffer s

/-! ## §4  Commands that are issued -/

def loadResponse (h : EmmcHost D) (i : ℕ) (s : Emmc D) : Emmc D :=
  let (v, s) := s.load h (.response i)
  { s with device := { s.device with
    lastResponse := fun j => if j = i then v else s.device.lastResponse j } }

def loadResponses (h : EmmcHost D) (responseType : ℕ) (s : Emmc D) : Emmc D :=
  if responseType = rt48 ∨ responseType = rt48Busy then s.loadResponse h 0
  else if responseType = rt136 then
    (((s.loadResponse h 0).loadResponse h 1).loadResponse h 2).loadResponse h 3
  else s

/-- `device.last_success`. -/
def setLastSuccess (b : Bool) (s : Emmc D) : Emmc D :=
  { s with device := { s.device with lastSuccess := b } }

/-- The registers of a command: the block size and count, the argument and the command. -/
def writeCommand (h : EmmcHost D) (arg commandReg : BitVec 32) (s : Emmc D) : Emmc D :=
  let s := s.store h .blockSizeCount
    (BitVec.ofNat 32 (s.device.blockSize ||| s.device.transferBlocks <<< 16))
  let s := s.store h .arg1 arg
  s.store h .cmdXferMode commandReg

/-- The data of a command. What `do_data_transfer` returns is not looked at. -/
def transferData (h : EmmcHost D) (cmd : EmmcCmd) (s : Emmc D) : Option (Emmc D) :=
  if cmd.isData ≠ 0 then (s.doDataTransfer h cmd).map Prod.snd else some s

/-- The wait for the end of a transfer. A data timeout along with the end is accepted. -/
def awaitTransfer (h : EmmcHost D) (s : Emmc D) : Bool × Emmc D :=
  let (_, s) := s.waitRegMask h .intFlags 0x8002 true 2000
  let (intrVal, s) := s.load h .intFlags
  let s := s.store h .intFlags 0xFFFF0002
  if intrVal &&& 0xFFFF0002 ≠ 2 ∧ intrVal &&& 0xFFFF0002 ≠ 0x100002 then
    (false, s.setLastError intrVal)
  else (true, (s.store h .intFlags 0xFFFF0002).setLastSuccess true)

/-- The end of `emmc_issue_command`, from the transfer of the data on. -/
def finishCommand (h : EmmcHost D) (cmd : EmmcCmd) (s : Emmc D) : Option (Bool × Emmc D) :=
  (s.transferData h cmd).map fun s =>
    if cmd.responseType = rt48Busy ∨ cmd.isData ≠ 0 then s.awaitTransfer h
    else (true, s.setLastSuccess true)

/-- `device.last_command_value`. -/
def setLastCommandValue (v : BitVec 32) (s : Emmc D) : Emmc D :=
  { s with device := { s.device with lastCommandValue := v } }

/-- The command is sent, and the controller reports that it is complete. -/
def sendCommand (h : EmmcHost D) (cmd : EmmcCmd) (arg : BitVec 32) (timeout : ℕ)
    (s : Emmc D) : Bool × Emmc D :=
  let s := (s.writeCommand h arg cmd.toReg).timerSleep h 10
  let (complete, s) := s.poll h .intFlags (fun reg => reg &&& 0x8001 ≠ 0) timeout
  if !complete then (false, s.setLastSuccess false)
  else
    let (intrVal, s) := s.load h .intFlags
    let s := s.store h .intFlags 0xFFFF0001
    if intrVal &&& 0xFFFF0001 ≠ 1 then (false, (s.setLastError intrVal).setLastSuccess false)
    else (true, s.loadResponses h cmd.responseType)

def emmcIssueCommand (h : EmmcHost D) (cmd : EmmcCmd) (arg : BitVec 32) (timeout : ℕ)
    (s : Emmc D) : Option (Bool × Emmc D) :=
  let s := s.setLastCommandValue cmd.toReg
  if 0xFFFF < s.device.transferBlocks then some (false, s)
  else
    let (ok, s) := s.sendCommand h cmd arg timeout
    if !ok then some (false, s) else s.finishCommand h cmd

/-- `device.last_command`. -/
def setLastCommand (cmd : EmmcCmd) (s : Emmc D) : Emmc D :=
  { s with device := { s.device with lastCommand := cmd } }

def emmcCommand (h : EmmcHost D) (command : ℕ) (arg : BitVec 32) (timeout : ℕ) (s : Emmc D) :
    Option (Bool × Emmc D) :=
  if command.testBit 31 then some (false, s)
  else
    let s := s.setLastCommand (commands command)
    if s.device.lastCommand.toReg = resCmd.toReg then some (false, s)
    else s.emmcIssueCommand h s.device.lastCommand arg timeout

/-! ## §5  Reads -/

/-- The retries of `do_data_command`. -/
def tryCommand (h : EmmcHost D) (command : ℕ) (arg : BitVec 32) :
    ℕ → Emmc D → Option (Bool × Emmc D)
  | 0, s => some (false, s)
  | retries + 1, s => do
      let (ok, s) ← s.emmcCommand h command arg 5000
      if ok then some (true, s) else tryCommand h command arg retries s

/-- `device.transfer_blocks`. -/
def setTransferBlocks (n : ℕ) (s : Emmc D) : Emmc D :=
  { s with device := { s.device with transferBlocks := n } }

def setBuffer (b : ℕ) (s : Emmc D) : Emmc D :=
  { s with device := { s.device with buffer := b } }

def dataCommand (write : Bool) (blocks : ℕ) : ℕ :=
  if write ∧ 1 < blocks then ctWriteMultiple
  else if write then ctWriteBlock
  else if 1 < blocks then ctReadMultiple
  else ctReadBlock

def doDataCommand (h : EmmcHost D) (write : Bool) (b : ℕ) (bsize blockNo : BitVec 32)
    (s : Emmc D) : Option (Bool × Emmc D) :=
  let blockNo := if s.device.sdhc then blockNo else blockNo * 512
  if bsize.toNat < s.device.blockSize then some (false, s)
  else
    let s := s.setTransferBlocks (bsize.toNat / s.device.blockSize)
    if bsize.toNat % s.device.blockSize ≠ 0 then some (false, s)
    else
      let s := s.setBuffer b
      s.tryCommand h (dataCommand write s.device.transferBlocks) blockNo 3

def doRead (h : EmmcHost D) (b : ℕ) (bsize blockNo : BitVec 32) (s : Emmc D) :
    Option (BitVec 32 × Emmc D) := do
  let (ok, s) ← s.doDataCommand h false b bsize blockNo
  if !ok then some (-1, s) else some (bsize, s)

def emmcRead (h : EmmcHost D) (buffer : ℕ) (size : BitVec 32) (s : Emmc D) :
    Option (BitVec 32 × Emmc D) := do
  if s.device.offset.toNat % 512 ≠ 0 then some (-1, s)
  else
    let block : BitVec 32 := BitVec.ofNat 32 (s.device.offset.toNat / 512)
    let (r, s) ← s.doRead h buffer size block
    if r ≠ size then some (-1, s) else some (size, s)

def emmcSeekSector (sector : Word) (s : Emmc D) : Emmc D :=
  { s with device := { s.device with offset := sector * 512 } }

end Emmc

end Rpos
