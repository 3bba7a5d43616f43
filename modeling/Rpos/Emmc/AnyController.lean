import Rpos.Base.Runs
import Rpos.Emmc.Emmc

/-!
# A controller that does anything

Whatever the controller answers, a read comes back: its polls are bounded, and so are its
retries. It stores to the buffer and to no other memory.
-/

namespace Rpos

open Base ByteMem

def EmmcDevice.setup (d : EmmcDevice) : ℕ × ℕ × ℕ × Bool × Word :=
  (d.blockSize, d.transferBlocks, d.buffer, d.sdhc, d.offset)

namespace Emmc

variable {D : Type*} {h : EmmcHost D} {s s' s'' : Emmc D} {buf n t t' : ℕ}

/-! ## §1  What a call leaves alone -/

/-- The memory outside the `n` bytes from `buf` on and the setup of `device` are as before, and
no more than `t` milliseconds have been slept. -/
structure Within (buf n t : ℕ) (s s' : Emmc D) : Prop where
  mem : ∀ a, a < buf ∨ buf + n ≤ a → s'.mem a = s.mem a
  setup : s'.device.setup = s.device.setup
  slept : s'.slept ≤ s.slept + t

theorem Within.refl (buf n : ℕ) (s : Emmc D) : Within buf n 0 s s :=
  ⟨fun _ _ => rfl, rfl, Nat.le_refl _⟩

theorem Within.trans (hs : Within buf n t s s') (hs' : Within buf n t' s' s'') :
    Within buf n (t + t') s s'' := by
  refine ⟨fun a ha => (hs'.mem a ha).trans (hs.mem a ha), hs'.setup.trans hs.setup, ?_⟩
  have h₁ := hs.slept
  have h₂ := hs'.slept
  omega

theorem Within.mono {buf' n' : ℕ} (hs : Within buf n t s s') (hbuf : buf' ≤ buf)
    (hn : buf + n ≤ buf' + n') (ht : t ≤ t') : Within buf' n' t' s s' := by
  refine ⟨fun a ha => hs.mem a ?_, hs.setup, hs.slept.trans (Nat.add_le_add_left ht _)⟩
  omega

theorem Within.blockSize (hs : Within buf n t s s') :
    s'.device.blockSize = s.device.blockSize :=
  congrArg Prod.fst hs.setup

theorem Within.blocks (hs : Within buf n t s s') :
    s'.device.transferBlocks = s.device.transferBlocks :=
  congrArg (fun c => c.2.1) hs.setup

theorem Within.buffer (hs : Within buf n t s s') : s'.device.buffer = s.device.buffer :=
  congrArg (fun c => c.2.2.1) hs.setup

theorem Within.load (r : EmmcReg) (buf n : ℕ) (s : Emmc D) :
    Within buf n 0 s (s.load h r).2 :=
  ⟨fun _ _ => rfl, rfl, Nat.le_refl _⟩

theorem Within.store (r : EmmcReg) (v : BitVec 32) (buf n : ℕ) (s : Emmc D) :
    Within buf n 0 s (s.store h r v) :=
  ⟨fun _ _ => rfl, rfl, Nat.le_refl _⟩

theorem Within.setLastError (v : BitVec 32) (buf n : ℕ) (s : Emmc D) :
    Within buf n 0 s (s.setLastError v) :=
  ⟨fun _ _ => rfl, rfl, Nat.le_refl _⟩

theorem Within.setLastSuccess (b : Bool) (buf n : ℕ) (s : Emmc D) :
    Within buf n 0 s (s.setLastSuccess b) :=
  ⟨fun _ _ => rfl, rfl, Nat.le_refl _⟩

theorem Within.poll (r : EmmcReg) (test : BitVec 32 → Bool) (k buf n : ℕ) (s : Emmc D) :
    Within buf n k s (s.poll h r test k).2 :=
  ⟨fun _ _ => rfl, rfl, Nat.add_le_add_left (Device.poll_le h r test k s.regs) _⟩

theorem Within.waitRegMask (r : EmmcReg) (mask : BitVec 32) (set : Bool) (timeout buf n : ℕ)
    (s : Emmc D) : Within buf n (timeout + 1) s (s.waitRegMask h r mask set timeout).2 :=
  .poll r _ _ buf n s

theorem Within.loadResponses (responseType buf n : ℕ) (s : Emmc D) :
    Within buf n 0 s (s.loadResponses h responseType) := by
  unfold Emmc.loadResponses
  split_ifs <;> exact ⟨fun _ _ => rfl, rfl, Nat.le_refl _⟩

/-! ## §2  The data -/

theorem transferWords_within (write : Bool) (k : ℕ) :
    ∀ (data : ℕ) (s : Emmc D), ∃ s', s.transferWords h write (4 * k) data =
      some (data + 4 * k, s') ∧ Within data (4 * k) 0 s s' := by
  induction k with
  | zero => exact fun data s => ⟨s, rfl, .refl _ _ _⟩
  | succ k ih =>
      intro data s
      rw [Nat.mul_succ, transferWords]
      cases write with
      | true =>
          obtain ⟨s', hrun, hs'⟩ := ih (data + 4)
            (s.store h .data (BitVec.ofNat 32 (leNat s.mem data 4)))
          rw [if_pos rfl, hrun]
          refine ⟨s', by rw [Nat.add_assoc, Nat.add_comm 4], ?_⟩
          exact (Within.store .data _ _ _ s).trans (hs'.mono (by omega) (by omega) le_rfl)
      | false =>
          have hput : Within data (4 * k + 4) 0 s { (s.load h .data).2 with
              mem := (s.load h .data).2.mem.store data 4 (wordByte (s.load h .data).1) } :=
            ⟨fun a ha => store_other 4 _ (by omega), rfl, le_rfl⟩
          obtain ⟨s', hrun, hs'⟩ := ih (data + 4) { (s.load h .data).2 with
            mem := (s.load h .data).2.mem.store data 4 (wordByte (s.load h .data).1) }
          rw [if_neg Bool.false_ne_true]
          refine ⟨s', ?_, hput.trans (hs'.mono (by omega) (by omega) le_rfl)⟩
          rw [Nat.add_comm (4 * k), ← Nat.add_assoc, ← hrun]

theorem transferBlocks_within {w : ℕ} (wrIrpt : BitVec 32) (write : Bool) (blocks : ℕ) :
    ∀ (data : ℕ) (s : Emmc D), s.device.blockSize = 4 * w →
      ∃ ok s', s.transferBlocks h wrIrpt write blocks data = some (ok, s') ∧
        Within data (blocks * (4 * w)) (blocks * 2001) s s' := by
  induction blocks with
  | zero => exact fun data s _ => ⟨true, s, rfl, (Within.refl data 0 s).mono le_rfl
      (Nat.le_add_right _ _) (Nat.zero_le _)⟩
  | succ blocks ih =>
      intro data s hw
      have hbytes : (blocks + 1) * (4 * w) = blocks * (4 * w) + 4 * w := Nat.succ_mul _ _
      have hready : Within data ((blocks + 1) * (4 * w)) 2001 s
          (((s.waitRegMask h .intFlags (wrIrpt ||| 0x8000) true 2000).2.load h .intFlags).2.store h
            .intFlags (wrIrpt ||| 0x8000)) :=
        (Within.waitRegMask ..).trans ((Within.load ..).trans (Within.store ..))
      rw [transferBlocks]
      dsimp only
      generalize ((s.waitRegMask h .intFlags (wrIrpt ||| 0x8000) true 2000).2.load h .intFlags).1 = v
      generalize (((s.waitRegMask h .intFlags (wrIrpt ||| 0x8000) true 2000).2.load h
        .intFlags).2.store h .intFlags (wrIrpt ||| 0x8000)) = s₁ at hready ⊢
      split_ifs
      · refine ⟨false, _, rfl, (hready.trans (Within.setLastError v ..)).mono le_rfl le_rfl ?_⟩
        omega
      · have hw₁ : s₁.device.blockSize = 4 * w := hready.blockSize.trans hw
        obtain ⟨s₂, hrun₂, hs₂⟩ := transferWords_within (h := h) write w data s₁
        obtain ⟨ok, s₃, hrun₃, hs₃⟩ := ih (data + 4 * w) s₂ (hs₂.blockSize.trans hw₁)
        rw [hw₁, hrun₂, Option.bind_eq_bind, Option.bind_some]
        refine ⟨ok, s₃, hrun₃, ?_⟩
        have hs₂ : Within data ((blocks + 1) * (4 * w)) 0 s₁ s₂ :=
          hs₂.mono le_rfl (by omega) le_rfl
        have hfirst := hready.trans hs₂
        exact (hfirst.trans (hs₃.mono (Nat.le_add_right _ _) (by omega) le_rfl)).mono le_rfl
          le_rfl (by omega)

def dataBytes (s : Emmc D) : ℕ := s.device.transferBlocks * s.device.blockSize

theorem doDataTransfer_within {w : ℕ} (cmd : EmmcCmd) (hw : s.device.blockSize = 4 * w) :
    ∃ ok s', s.doDataTransfer h cmd = some (ok, s') ∧
      Within s.device.buffer s.dataBytes (s.device.transferBlocks * 2001) s s' := by
  rw [doDataTransfer, dataBytes, hw]
  split_ifs
  · exact transferBlocks_within _ _ _ _ s hw
  · exact transferBlocks_within _ _ _ _ s hw

/-! ## §3  The commands -/

theorem transferData_within {w : ℕ} (cmd : EmmcCmd) (hw : s.device.blockSize = 4 * w) :
    ∃ s', s.transferData h cmd = some s' ∧
      Within s.device.buffer s.dataBytes (s.device.transferBlocks * 2001) s s' := by
  unfold transferData
  split_ifs
  · obtain ⟨ok, s', hrun, hs'⟩ := doDataTransfer_within (h := h) cmd hw
    exact ⟨s', by rw [hrun, Option.map_some], hs'⟩
  · exact ⟨s, rfl, (Within.refl _ _ s).mono le_rfl le_rfl (Nat.zero_le _)⟩

theorem awaitTransfer_within (buf n : ℕ) (s : Emmc D) :
    Within buf n 2001 s (s.awaitTransfer h).2 := by
  have hdone : Within buf n 2001 s (((s.waitRegMask h .intFlags 0x8002 true 2000).2.load h
      .intFlags).2.store h .intFlags 0xFFFF0002) :=
    (Within.waitRegMask ..).trans ((Within.load ..).trans (Within.store ..))
  unfold awaitTransfer
  dsimp only
  split_ifs
  · exact hdone.trans (Within.setLastError ..)
  · exact hdone.trans ((Within.store ..).trans (Within.setLastSuccess ..))

theorem finishCommand_within {w : ℕ} (cmd : EmmcCmd) (hw : s.device.blockSize = 4 * w) :
    ∃ ok s', s.finishCommand h cmd = some (ok, s') ∧
      Within s.device.buffer s.dataBytes (s.device.transferBlocks * 2001 + 2001) s s' := by
  obtain ⟨s₁, hrun₁, hs₁⟩ := transferData_within (h := h) cmd hw
  rw [finishCommand, hrun₁, Option.map_some]
  by_cases hdata : cmd.responseType = rt48Busy ∨ cmd.isData ≠ 0
  · rw [if_pos hdata]
    have hs₂ := hs₁.trans (awaitTransfer_within (h := h) _ _ s₁)
    exact ⟨(s₁.awaitTransfer h).1, (s₁.awaitTransfer h).2, rfl, hs₂⟩
  · rw [if_neg hdata]
    exact ⟨true, _, rfl, (hs₁.trans (Within.setLastSuccess true _ _ s₁)).mono le_rfl le_rfl
      (by omega)⟩

def commandTime (timeout blocks : ℕ) : ℕ := 10 + timeout + (blocks * 2001 + 2001)

theorem sendCommand_within (cmd : EmmcCmd) (arg : BitVec 32) (timeout buf n : ℕ) (s : Emmc D) :
    Within buf n (10 + timeout) s (s.sendCommand h cmd arg timeout).2 := by
  have hsent : Within buf n 10 s ((s.writeCommand h arg cmd.toReg).timerSleep h 10) :=
    ⟨fun _ _ => rfl, rfl, le_rfl⟩
  have hpolled := hsent.trans
    (Within.poll (h := h) .intFlags (fun reg => reg &&& 0x8001 ≠ 0) timeout buf n _)
  unfold sendCommand
  dsimp only
  split_ifs
  · exact hpolled.trans (Within.setLastSuccess ..)
  · exact hpolled.trans ((Within.load ..).trans ((Within.store ..).trans
      ((Within.setLastError ..).trans (Within.setLastSuccess ..))))
  · exact hpolled.trans ((Within.load ..).trans ((Within.store ..).trans
      (Within.loadResponses ..)))

theorem emmcIssueCommand_within {w : ℕ} (cmd : EmmcCmd) (arg : BitVec 32) (timeout : ℕ)
    (hw : s.device.blockSize = 4 * w) :
    ∃ ok s', s.emmcIssueCommand h cmd arg timeout = some (ok, s') ∧
      Within s.device.buffer s.dataBytes (commandTime timeout s.device.transferBlocks) s s' := by
  have hvalue : ∀ buf n, Within buf n 0 s (s.setLastCommandValue cmd.toReg) :=
    fun _ _ => ⟨fun _ _ => rfl, rfl, le_rfl⟩
  unfold emmcIssueCommand
  dsimp only
  split_ifs
  · exact ⟨false, _, rfl, (hvalue _ _).mono le_rfl le_rfl (Nat.zero_le _)⟩
  · exact ⟨false, _, rfl, ((hvalue _ _).trans (sendCommand_within ..)).mono le_rfl le_rfl
      (by unfold commandTime; omega)⟩
  · have hsent := (hvalue s.device.buffer s.dataBytes).trans
      (sendCommand_within (h := h) cmd arg timeout _ _ _)
    obtain ⟨ok, s', hrun, hs'⟩ := finishCommand_within (h := h) cmd (hsent.blockSize.trans hw)
    refine ⟨ok, s', hrun, ?_⟩
    rw [dataBytes, hsent.blocks, hsent.blockSize, hsent.buffer] at hs'
    exact (hsent.trans hs').mono le_rfl le_rfl (by unfold commandTime; omega)

theorem emmcCommand_within {w : ℕ} (command : ℕ) (arg : BitVec 32) (timeout : ℕ)
    (hw : s.device.blockSize = 4 * w) :
    ∃ ok s', s.emmcCommand h command arg timeout = some (ok, s') ∧
      Within s.device.buffer s.dataBytes (commandTime timeout s.device.transferBlocks) s s' := by
  have hlast : ∀ buf n, Within buf n 0 s (s.setLastCommand (commands command)) :=
    fun _ _ => ⟨fun _ _ => rfl, rfl, le_rfl⟩
  unfold emmcCommand
  dsimp only
  split_ifs
  · exact ⟨false, _, rfl, (Within.refl _ _ s).mono le_rfl le_rfl (Nat.zero_le _)⟩
  · exact ⟨false, _, rfl, (hlast _ _).mono le_rfl le_rfl (Nat.zero_le _)⟩
  · obtain ⟨ok, s', hrun, hs'⟩ := emmcIssueCommand_within (h := h)
      (s := s.setLastCommand (commands command)) _ arg timeout hw
    exact ⟨ok, s', hrun, ((hlast _ _).trans hs').mono le_rfl le_rfl (Nat.zero_add _).le⟩

/-! ## §4  A read -/

theorem tryCommand_within {w : ℕ} (command : ℕ) (arg : BitVec 32) (retries : ℕ) :
    ∀ s : Emmc D, s.device.blockSize = 4 * w →
      ∃ ok s', s.tryCommand h command arg retries = some (ok, s') ∧
        Within s.device.buffer s.dataBytes
          (retries * commandTime 5000 s.device.transferBlocks) s s' := by
  induction retries with
  | zero => exact fun s _ => ⟨false, s, rfl, (Within.refl _ _ s).mono le_rfl le_rfl (Nat.zero_le _)⟩
  | succ retries ih =>
      intro s hw
      obtain ⟨ok, s₁, hrun, hs₁⟩ := emmcCommand_within (h := h) command arg 5000 hw
      rw [tryCommand, hrun, Option.bind_eq_bind, Option.bind_some, Nat.succ_mul]
      cases ok with
      | true => exact ⟨true, s₁, rfl, hs₁.mono le_rfl le_rfl (Nat.le_add_left _ _)⟩
      | false =>
          obtain ⟨ok, s₂, hrun₂, hs₂⟩ := ih s₁ (hs₁.blockSize.trans hw)
          rw [dataBytes, hs₁.blocks, hs₁.blockSize, hs₁.buffer] at hs₂
          exact ⟨ok, s₂, hrun₂, (hs₁.trans hs₂).mono le_rfl le_rfl (Nat.add_comm _ _).le⟩

/-- The time that a read of `blocks` blocks may take: three tries of a command. -/
def readTime (blocks : ℕ) : ℕ := 3 * commandTime 5000 blocks

theorem doDataCommand_within {w : ℕ} (write : Bool) (b : ℕ) (bsize blockNo : BitVec 32)
    (hw : s.device.blockSize = 4 * w) :
    ∃ ok s', s.doDataCommand h write b bsize blockNo = some (ok, s') ∧
      (∀ a, a < b ∨ b + bsize.toNat ≤ a → s'.mem a = s.mem a) ∧
      s'.slept ≤ s.slept + readTime (bsize.toNat / s.device.blockSize) ∧
      s'.device.blockSize = s.device.blockSize ∧ s'.device.sdhc = s.device.sdhc ∧
      s'.device.offset = s.device.offset := by
  unfold doDataCommand
  dsimp only
  generalize (if s.device.sdhc = true then blockNo else blockNo * 512) = arg
  by_cases hlt : bsize.toNat < s.device.blockSize
  · rw [if_pos hlt]
    exact ⟨false, s, rfl, fun _ _ => rfl, Nat.le_add_right _ _, rfl, rfl, rfl⟩
  have hsame : (s.setTransferBlocks (bsize.toNat / s.device.blockSize)).device.blockSize =
      s.device.blockSize := rfl
  rw [if_neg hlt, hsame]
  by_cases hmod : bsize.toNat % s.device.blockSize = 0
  swap
  · rw [if_pos hmod]
    exact ⟨false, _, rfl, fun _ _ => rfl, Nat.le_add_right _ _, rfl, rfl, rfl⟩
  rw [if_neg (not_not.mpr hmod)]
  generalize hs₁ : (s.setTransferBlocks (bsize.toNat / s.device.blockSize)).setBuffer b = s₁
  have hbytes : s₁.dataBytes = bsize.toNat := by
    rw [← hs₁]
    exact Nat.div_mul_cancel (Nat.dvd_of_mod_eq_zero hmod)
  obtain ⟨ok, s', hrun, hs'⟩ := tryCommand_within (h := h)
    (dataCommand write s₁.device.transferBlocks) arg 3 s₁ (by rw [← hs₁]; exact hw)
  rw [hbytes] at hs'
  subst hs₁
  refine ⟨ok, s', hrun, hs'.mem, hs'.slept, hs'.blockSize, ?_, ?_⟩
  · exact congrArg (fun c => c.2.2.2.1) hs'.setup
  · exact congrArg (fun c => c.2.2.2.2) hs'.setup

/-- Whatever the controller does, a read comes back, in bounded time and with -1 or the size,
and has stored to the buffer and to no other memory. The setup for the next read is kept. -/
theorem emmcRead_returns (hw : s.device.blockSize % 4 = 0) (buf : ℕ) (size : BitVec 32) :
    ∃ r s', s.emmcRead h buf size = some (r, s') ∧ (r = size ∨ r = -1) ∧
      (∀ a, a < buf ∨ buf + size.toNat ≤ a → s'.mem a = s.mem a) ∧
      s'.slept ≤ s.slept + readTime (size.toNat / s.device.blockSize) ∧
      s'.device.blockSize = s.device.blockSize ∧ s'.device.sdhc = s.device.sdhc ∧
      s'.device.offset = s.device.offset := by
  unfold emmcRead
  by_cases hoffset : s.device.offset.toNat % 512 = 0
  swap
  · rw [if_pos hoffset]
    exact ⟨_, s, rfl, Or.inr rfl, fun _ _ => rfl, Nat.le_add_right _ _, rfl, rfl, rfl⟩
  rw [if_neg (not_not.mpr hoffset)]
  obtain ⟨ok, s', hrun, hkept⟩ := doDataCommand_within (h := h) (s := s)
    (w := s.device.blockSize / 4) false buf size (BitVec.ofNat 32 (s.device.offset.toNat / 512))
    (by omega)
  dsimp only
  rw [doRead, hrun]
  cases ok with
  | true =>
      exact ⟨size, s', if_neg (not_not.mpr rfl), Or.inl rfl, hkept⟩
  | false =>
      refine ⟨-1, s', ?_, Or.inr rfl, hkept⟩
      by_cases hsize : (-1 : BitVec 32) = size
      · subst hsize
        rfl
      · exact if_pos hsize

/-! ## §5  Runs of reads -/

structure EmmcRequest where
  sector : Word
  buffer : ℕ
  size : BitVec 32

/-- `emmc_seek_sector` and `emmc_read`, whatever they return. -/
def ReadStep (h : EmmcHost D) (s : Emmc D) (q : EmmcRequest) (s' : Emmc D) : Prop :=
  ∃ r, (s.emmcSeekSector q.sector).emmcRead h q.buffer q.size = some (r, s')

theorem ReadStep.within {q : EmmcRequest} (hw : s.device.blockSize % 4 = 0)
    (hstep : ReadStep h s q s') :
    (∀ a, a < q.buffer ∨ q.buffer + q.size.toNat ≤ a → s'.mem a = s.mem a) ∧
      s'.slept ≤ s.slept + readTime (q.size.toNat / s.device.blockSize) ∧
      s'.device.blockSize = s.device.blockSize := by
  obtain ⟨r, hrun⟩ := hstep
  obtain ⟨r', s₁, hrun', -, hmem, hslept, hsize, -⟩ := emmcRead_returns (h := h)
    (s := s.emmcSeekSector q.sector) hw q.buffer q.size
  rw [hrun, Option.some.injEq, Prod.mk.injEq] at hrun'
  obtain ⟨-, rfl⟩ := hrun'
  exact ⟨hmem, hslept, hsize⟩

/-- The time that the reads may take together, with blocks of this size. -/
def readsTime (blockSize : ℕ) (reads : List EmmcRequest) : ℕ :=
  (reads.map fun q => readTime (q.size.toNat / blockSize)).sum

theorem reads_within {reads : List EmmcRequest} (hrun : Trace (ReadStep h) s reads s')
    (hw : s.device.blockSize % 4 = 0) :
    (∀ a, (∀ q ∈ reads, a < q.buffer ∨ q.buffer + q.size.toNat ≤ a) → s'.mem a = s.mem a) ∧
      s'.slept ≤ s.slept + readsTime s.device.blockSize reads ∧
      s'.device.blockSize = s.device.blockSize := by
  induction hrun with
  | nil s => exact ⟨fun _ _ => rfl, le_rfl, rfl⟩
  | cons hstep _ ih =>
      obtain ⟨hmem, hslept, hsize⟩ := hstep.within hw
      obtain ⟨hmem', hslept', hsize'⟩ := ih (by rw [hsize]; exact hw)
      rw [hsize] at hslept'
      refine ⟨fun a ha => ?_, ?_, hsize'.trans hsize⟩
      · exact (hmem' a fun q hq => ha q (List.mem_cons_of_mem _ hq)).trans
          (hmem a (ha _ List.mem_cons_self))
      · rw [readsTime, List.map_cons, List.sum_cons]
        exact hslept'.trans ((Nat.add_le_add_right hslept _).trans_eq (Nat.add_assoc ..))

/-- Whatever the controller does, any reads in any order leave the memory outside their buffers
as it is, and take no more than a time that the sizes give; and one more read comes back, with
-1 or the size. -/
theorem reads_return {reads : List EmmcRequest} (hw : s.device.blockSize % 4 = 0)
    (hrun : Trace (ReadStep h) s reads s') :
    (∀ a, (∀ q ∈ reads, a < q.buffer ∨ q.buffer + q.size.toNat ≤ a) → s'.mem a = s.mem a) ∧
      s'.slept ≤ s.slept + readsTime s.device.blockSize reads ∧
      ∀ q : EmmcRequest, ∃ r s'',
        (s'.emmcSeekSector q.sector).emmcRead h q.buffer q.size = some (r, s'') ∧
        (r = q.size ∨ r = -1) := by
  obtain ⟨hmem, hslept, hsize⟩ := reads_within hrun hw
  refine ⟨hmem, hslept, fun q => ?_⟩
  obtain ⟨r, s'', hread, hr, -⟩ := emmcRead_returns (h := h)
    (s := s'.emmcSeekSector q.sector) (hsize.symm ▸ hw) q.buffer q.size
  exact ⟨r, s'', hread, hr⟩

def deadHost : EmmcHost Unit := ⟨fun _ _ => (0, ()), fun _ _ _ => (), fun _ _ => ()⟩

def ready {D : Type*} (regs : D) : Emmc D :=
  ⟨regs, fun _ => 0, ⟨true, 0, resCmd, 0, 512, fun _ => 0, true, 0, 0, 0, 0, 0, 0, 0, 0⟩, 0⟩

theorem reads_return_dead : ∃ s', Trace (ReadStep deadHost) (ready ()) [⟨7, 4096, 512⟩] s' ∧
    s'.mem 8192 = 0 ∧ s'.slept ≤ 27036 := by
  obtain ⟨-, -, hnext⟩ := reads_return (h := deadHost) (s := ready ()) (by decide) (.nil _)
  obtain ⟨r, s', hread, -⟩ := hnext ⟨7, 4096, 512⟩
  have hrun : Trace (ReadStep deadHost) (ready ()) [⟨7, 4096, 512⟩] s' :=
    .cons ⟨r, hread⟩ (.nil s')
  obtain ⟨hmem, hslept, -⟩ := reads_return (by decide) hrun
  refine ⟨s', hrun, hmem 8192 fun q hq => ?_, hslept⟩
  obtain rfl := List.mem_singleton.mp hq
  exact Or.inr (by decide)

end Emmc

end Rpos
