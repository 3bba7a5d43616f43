import Rpos.Emmc.AnyController

/-!
# A controller with a card

A controller that hands out the words of the blocks which a read command names, and reports
the end of the transfer when the host has taken all of them. It may be late, and it may report
errors. A read that succeeds has the bytes of the card: the driver looks neither at what
`wait_reg_mask` returns nor at what `do_data_transfer` returns, but it loads no more words than
the transfer has, so that the end is reported only if each load has taken one.
-/

namespace Rpos

open Base ByteMem

/-! ## §1  The controller -/

def cardByte (disk : Disk) (sector : BitVec 32) (i : ℕ) : UInt8 :=
  disk (sector + BitVec.ofNat 32 (i / 512)) (i % 512)

def cardWord (disk : Disk) (sector : BitVec 32) (i : ℕ) : BitVec 32 :=
  BitVec.ofNat 32 (leNat (cardByte disk sector) (4 * i) 4)

/-- The sector that an argument names: a card of high capacity counts sectors, another bytes. -/
def cardSector (sdhc : Bool) (arg : BitVec 32) : BitVec 32 := if sdhc then arg else arg / 512

/-- The words of a number of blocks, both from `block_size_count`. -/
def cardStream (disk : Disk) (sector bsc : BitVec 32) : Device.Stream (BitVec 32) :=
  ⟨cardWord disk sector, (bsc >>> 16).toNat * ((bsc &&& 0xFFF).toNat / 4), 0⟩

/-- The registers that a command reads, the last command, and the words of the transfer that is
under way. -/
structure EmmcView where
  bsc : BitVec 32
  arg : BitVec 32
  command : BitVec 32
  data : Device.Stream (BitVec 32)

/-- A controller with a card in its slot. A read command begins the transfer of its blocks; the
data register hands out their words, and the end is reported when all have been taken. A card
that is not busy tells its capacity in bit 30 of its operating conditions. Nothing is said of
when the controller is ready, nor of errors. -/
structure ReadsCard {D : Type*} (h : EmmcHost D) (disk : Disk) (sdhc : Bool)
    (view : D → EmmcView) : Prop where
  wait : ∀ n d, view (h.wait n d) = view d
  load : ∀ r d, r ≠ .data → view (h.load r d).2 = view d
  clear : ∀ v d, view (h.store .intFlags v d) = view d
  blockSizeCount : ∀ v d, view (h.store .blockSizeCount v d) = { view d with bsc := v }
  arg1 : ∀ v d, view (h.store .arg1 v d) = { view d with arg := v }
  command : ∀ v d, (view (h.store .cmdXferMode v d)).command = v
  read : ∀ c d, c = ctReadBlock ∨ c = ctReadMultiple →
    (view (h.store .cmdXferMode (commands c).toReg d)).data =
      cardStream disk (cardSector sdhc (view d).arg) (view d).bsc
  data : h.Feeds .data fun d => (view d).data
  complete : ∀ d, (h.load .intFlags d).1.getLsbD 1 = true →
    (view d).data.taken = (view d).data.total
  ocr : ∀ d, (view d).command = (commands ctOcrCheck).toReg →
    (h.load (.response 0) d).1.getLsbD 31 = true →
      (h.load (.response 0) d).1.getLsbD 30 = sdhc

theorem wordByte_leNat (bytes : ℕ → UInt8) (a : ℕ) {j : ℕ} (hj : j < 4) :
    wordByte (BitVec.ofNat 32 (leNat bytes a 4)) j = bytes (a + j) := by
  have hsplit : (2 : ℕ) ^ 32 = 256 ^ j * 256 ^ (4 - j) := by
    rw [← pow_add, Nat.add_sub_cancel' hj.le]
    decide
  have hdvd : 256 ∣ 256 ^ (4 - j) := dvd_pow_self 256 (Nat.sub_pos_of_lt hj).ne'
  apply UInt8.toNat_inj.mp
  rw [wordByte, BitVec.toNat_ofNat, hsplit, Nat.mod_mul_right_div_self, UInt8.toNat_ofNat']
  exact (Nat.mod_mod_of_dvd _ hdvd).trans (leNat_byte bytes hj a)

namespace Emmc

variable {D : Type*} {h : EmmcHost D} {disk : Disk} {sdhc : Bool} {view : D → EmmcView}
  {s s' : Emmc D} {sector : BitVec 32} {buf k w total : ℕ}

/-! ## §2  The words -/

def WordRead (disk : Disk) (sector : BitVec 32) (buf : ℕ) (m : ByteMem) (i : ℕ) : Prop :=
  ∀ j < 4, m (buf + (4 * i + j)) = cardByte disk sector (4 * i + j)

def Reading (disk : Disk) (sector : BitVec 32) (buf total : ℕ) (view : D → EmmcView) (k : ℕ)
    (s : Emmc D) : Prop :=
  Device.Loaded (cardWord disk sector) total k (WordRead disk sector buf s.mem)
    (view s.regs).data

theorem Reading.congr (hr : Reading disk sector buf total view k s)
    (hview : (view s'.regs).data = (view s.regs).data) (hmem : s'.mem = s.mem) :
    Reading disk sector buf total view k s' := by
  rw [Reading, hview, hmem]
  exact hr

theorem Reading.next (hc : ReadsCard h disk sdhc view)
    (hr : Reading disk sector buf total view k s) :
    Reading disk sector buf total view (k + 1) { (s.load h .data).2 with
      mem := s.mem.store (buf + 4 * k) 4 (wordByte (s.load h .data).1) } := by
  refine hc.data.loaded (d := s.regs) (Q := WordRead disk sector buf (s.mem.store
    (buf + 4 * k) 4 (wordByte (s.load h .data).1))) hr (fun i hi hword j hj => ?_)
    fun hvalue j hj => ?_
  · rw [← hword j hj]
    exact store_other 4 _ (by omega)
  · rw [← Nat.add_assoc, store_apply 4 _ hj]
    show wordByte (h.load .data s.regs).1 j = _
    rw [hvalue]
    exact wordByte_leNat _ _ hj

theorem Reading.words (hc : ReadsCard h disk sdhc view) (w : ℕ) :
    ∀ {k : ℕ} {s : Emmc D}, Reading disk sector buf total view k s →
      ∃ s', s.transferWords h false (4 * w) (buf + 4 * k) = some (buf + 4 * (k + w), s') ∧
        Reading disk sector buf total view (k + w) s' := by
  induction w with
  | zero => exact fun hr => ⟨_, rfl, hr⟩
  | succ w ih =>
      intro k s hr
      obtain ⟨s', hrun, hr'⟩ := ih (hr.next hc)
      rw [Nat.mul_succ, transferWords, if_neg Bool.false_ne_true]
      refine ⟨s', ?_, ?_⟩
      · rw [Nat.mul_succ, ← Nat.add_assoc, Nat.add_right_comm k 1 w] at hrun
        exact hrun
      · rw [← Nat.add_assoc, Nat.add_right_comm]
        exact hr'

theorem Reading.poll (hc : ReadsCard h disk sdhc view)
    (hr : Reading disk sector buf total view k s) (test : BitVec 32 → Bool) (n : ℕ) :
    Reading disk sector buf total view k (s.poll h .intFlags test n).2 :=
  hr.congr (congrArg EmmcView.data (Device.poll_keeps
    (fun d => hc.load .intFlags d fun h => EmmcReg.noConfusion h) (hc.wait 1) n s.regs)) rfl

theorem Reading.flags (hc : ReadsCard h disk sdhc view)
    (hr : Reading disk sector buf total view k s) (v : BitVec 32) :
    Reading disk sector buf total view k ((s.load h .intFlags).2.store h .intFlags v) := by
  refine hr.congr (congrArg EmmcView.data ((hc.clear v _).trans ?_)) rfl
  exact hc.load .intFlags s.regs fun h => EmmcReg.noConfusion h

/-- The blocks: all of their words have been loaded, or fewer if there was an error. -/
theorem Reading.blocks (hc : ReadsCard h disk sdhc view) (wrIrpt : BitVec 32) (blocks : ℕ) :
    ∀ {k : ℕ} {s : Emmc D}, Reading disk sector buf total view k s →
      s.device.blockSize = 4 * w → ∃ ok s' k',
        s.transferBlocks h wrIrpt false blocks (buf + 4 * k) = some (ok, s') ∧
          k' ≤ k + blocks * w ∧ Reading disk sector buf total view k' s' := by
  induction blocks with
  | zero => exact fun hr _ => ⟨true, _, _, rfl, Nat.le_add_right _ _, hr⟩
  | succ blocks ih =>
      intro k s hr hw
      have hready : Reading disk sector buf total view k
          (((s.waitRegMask h .intFlags (wrIrpt ||| 0x8000) true 2000).2.load h .intFlags).2.store h
            .intFlags (wrIrpt ||| 0x8000)) :=
        (hr.poll hc _ _).flags hc _
      have hw₁ : (((s.waitRegMask h .intFlags (wrIrpt ||| 0x8000) true 2000).2.load h
          .intFlags).2.store h .intFlags (wrIrpt ||| 0x8000)).device.blockSize = 4 * w := hw
      rw [transferBlocks]
      dsimp only
      generalize ((s.waitRegMask h .intFlags (wrIrpt ||| 0x8000) true 2000).2.load h .intFlags).1 = v
      generalize (((s.waitRegMask h .intFlags (wrIrpt ||| 0x8000) true 2000).2.load h
        .intFlags).2.store h .intFlags (wrIrpt ||| 0x8000)) = s₁ at hready hw₁ ⊢
      split_ifs
      · exact ⟨false, _, k, rfl, Nat.le_add_right _ _, hready.congr rfl rfl⟩
      · obtain ⟨s₂, hrun₂, hr₂⟩ := hready.words hc w
        obtain ⟨s₂', hrun₂', hs₂⟩ := transferWords_within (h := h) false w (buf + 4 * k) s₁
        rw [hrun₂, Option.some.injEq, Prod.mk.injEq] at hrun₂'
        obtain ⟨-, rfl⟩ := hrun₂'
        obtain ⟨ok, s₃, k', hrun₃, hk', hr₃⟩ := ih hr₂ (hs₂.blockSize.trans hw₁)
        rw [hw₁, hrun₂, Option.bind_eq_bind, Option.bind_some]
        refine ⟨ok, s₃, k', hrun₃, ?_, hr₃⟩
        rw [Nat.succ_mul]
        omega

/-- The flags that `emmc_issue_command` accepts have the bit for the end of the transfer. -/
theorem transferEnd_bit {v : BitVec 32}
    (hv : ¬ (v &&& 0xFFFF0002 ≠ 2 ∧ v &&& 0xFFFF0002 ≠ 0x100002)) : v.getLsbD 1 = true := by
  have hbit : v.getLsbD 1 = (v &&& 0xFFFF0002).getLsbD 1 := by
    rw [BitVec.getLsbD_and]
    have hmask : (0xFFFF0002 : BitVec 32).getLsbD 1 = true := by decide
    rw [hmask, Bool.and_true]
  rw [hbit]
  by_cases htwo : v &&& 0xFFFF0002 = 2
  · rw [htwo]
    decide
  · rw [not_not.mp fun h => hv ⟨htwo, h⟩]
    decide

def AllRead (disk : Disk) (sector : BitVec 32) (buf total : ℕ) (s : Emmc D) : Prop :=
  ∀ i < total, WordRead disk sector buf s.mem i

theorem Reading.finish (hc : ReadsCard h disk sdhc view) {cmd : EmmcCmd}
    (hr : Reading disk sector s.device.buffer (s.device.transferBlocks * w) view 0 s)
    (hw : s.device.blockSize = 4 * w) (hdata : cmd.isData ≠ 0) (hdir : cmd.direction ≠ 0)
    (hrun : s.finishCommand h cmd = some (true, s')) :
    AllRead disk sector s.device.buffer (s.device.transferBlocks * w) s' := by
  obtain ⟨ok, s₁, k, hrun₁, hk, hr₁⟩ := hr.blocks hc (1 <<< 5) s.device.transferBlocks hw
  rw [Nat.zero_add] at hk
  rw [finishCommand, transferData, if_pos hdata, doDataTransfer, if_pos hdir] at hrun
  rw [Nat.mul_zero, Nat.add_zero] at hrun₁
  rw [hrun₁, Option.map_some, Option.map_some, if_pos (Or.inr hdata), Option.some.injEq,
    awaitTransfer] at hrun
  dsimp only at hrun
  generalize hs₂ : (s₁.waitRegMask h .intFlags 0x8002 true 2000).2 = s₂ at hrun
  have hr₂ : Reading disk sector s.device.buffer (s.device.transferBlocks * w) view k s₂ :=
    hs₂ ▸ hr₁.poll hc _ _
  split_ifs at hrun with hfailed
  · exact absurd (congrArg Prod.fst hrun) Bool.false_ne_true
  -- the flags report the end of the transfer
  have hend : (h.load .intFlags s₂.regs).1.getLsbD 1 = true := transferEnd_bit hfailed
  obtain ⟨-, hall⟩ := hr₂.complete hk (hc.complete s₂.regs hend)
  obtain ⟨-, rfl⟩ := Prod.mk.inj hrun
  exact hall

/-! ## §3  The commands -/

theorem sendCommand_data (hc : ReadsCard h disk sdhc view) {c : ℕ}
    (hread : c = ctReadBlock ∨ c = ctReadMultiple) (arg : BitVec 32) (timeout : ℕ) :
    (view (s.sendCommand h (commands c) arg timeout).2.regs).data =
      cardStream disk (cardSector sdhc arg)
        (BitVec.ofNat 32 (s.device.blockSize ||| s.device.transferBlocks <<< 16)) := by
  have hload : ∀ r d, r ≠ .data → (view (h.load r d).2).data = (view d).data :=
    fun r d hr => congrArg EmmcView.data (hc.load r d hr)
  have hflags : ∀ d, (view (h.load .intFlags d).2).data = (view d).data :=
    fun d => hload .intFlags d fun h => EmmcReg.noConfusion h
  have hwrite : (view ((s.writeCommand h arg (commands c).toReg).timerSleep h 10).regs).data =
      cardStream disk (cardSector sdhc arg)
        (BitVec.ofNat 32 (s.device.blockSize ||| s.device.transferBlocks <<< 16)) := by
    show (view (h.wait 10 (h.store .cmdXferMode (commands c).toReg
      (h.store .arg1 arg (h.store .blockSizeCount _ s.regs))))).data = _
    rw [hc.wait, hc.read _ _ hread, hc.arg1, hc.blockSizeCount]
  have hpoll : ∀ s : Emmc D, (view (s.poll h .intFlags (fun reg => reg &&& 0x8001 ≠ 0)
      timeout).2.regs).data = (view s.regs).data := fun s =>
    congrArg EmmcView.data (Device.poll_keeps
      (fun d => hc.load .intFlags d fun h => EmmcReg.noConfusion h) (hc.wait 1) timeout s.regs)
  have hresponse : ∀ (i : ℕ) (s : Emmc D), (view (s.loadResponse h i).regs).data =
      (view s.regs).data := fun i s => hload (.response i) s.regs fun h => EmmcReg.noConfusion h
  have hresponses : ∀ (n : ℕ) (s : Emmc D), (view (s.loadResponses h n).regs).data =
      (view s.regs).data := by
    intro n s
    unfold loadResponses
    split_ifs
    · exact hresponse 0 s
    · rw [hresponse, hresponse, hresponse, hresponse]
    · rfl
  unfold sendCommand
  dsimp only
  split_ifs
  · exact (hpoll _).trans hwrite
  · exact (congrArg EmmcView.data (hc.clear _ _)).trans ((hflags _).trans ((hpoll _).trans hwrite))
  · exact (hresponses _ _).trans ((congrArg EmmcView.data (hc.clear _ _)).trans
      ((hflags _).trans ((hpoll _).trans hwrite)))

/-- The words that the controller hands out for a number of blocks. -/
theorem dataWords {blocks : ℕ} (hblocks : blocks ≤ 0xFFFF) :
    (BitVec.ofNat 32 (512 ||| blocks <<< 16) >>> 16).toNat *
      ((BitVec.ofNat 32 (512 ||| blocks <<< 16) &&& 0xFFF).toNat / 4) = blocks * 128 := by
  have hsum : 512 ||| blocks <<< 16 = blocks * 65536 + 512 := by
    rw [Nat.lor_comm, ← Nat.shiftLeft_add_eq_or_of_lt (by decide : 512 < 2 ^ 16),
      Nat.shiftLeft_eq]
  have hlt : (BitVec.ofNat 32 (512 ||| blocks <<< 16)).toNat = blocks * 65536 + 512 := by
    rw [hsum, BitVec.toNat_ofNat]
    omega
  have hmask : ((0xFFF : BitVec 32)).toNat = 2 ^ 12 - 1 := by decide
  rw [BitVec.toNat_ushiftRight, BitVec.toNat_and, hlt, hmask, Nat.and_two_pow_sub_one_eq_mod,
    Nat.shiftRight_eq_div_pow]
  have hblock : (blocks * 65536 + 512) / 2 ^ 16 = blocks := by omega
  have hsize : (blocks * 65536 + 512) % 2 ^ 12 / 4 = 128 := by omega
  rw [hblock, hsize]

theorem emmcIssueCommand_read (hc : ReadsCard h disk sdhc view) {c : ℕ} {arg : BitVec 32}
    {timeout : ℕ} (hread : c = ctReadBlock ∨ c = ctReadMultiple)
    (hsize : s.device.blockSize = 512)
    (hrun : s.emmcIssueCommand h (commands c) arg timeout = some (true, s')) :
    AllRead disk (cardSector sdhc arg) s.device.buffer (s.device.transferBlocks * 128) s' := by
  have hkind : (commands c).isData ≠ 0 ∧ (commands c).direction ≠ 0 := by
    rcases hread with rfl | rfl <;> decide
  unfold emmcIssueCommand at hrun
  dsimp only at hrun
  split_ifs at hrun with hmany hok
  · simp at hrun
  · simp at hrun
  have hblocks : s.device.transferBlocks ≤ 0xFFFF := Nat.not_lt.mp hmany
  have hdata := sendCommand_data (s := s.setLastCommandValue (commands c).toReg) hc hread arg
    timeout
  have hsent := sendCommand_within (h := h) (commands c) arg timeout 0 0
    (s.setLastCommandValue (commands c).toReg)
  generalize ((s.setLastCommandValue (commands c).toReg).sendCommand h (commands c) arg timeout).2 =
    s₁ at hrun hdata hsent
  have hsize₁ : s₁.device.blockSize = 512 := hsent.blockSize.trans hsize
  have hblocks₁ : s₁.device.transferBlocks = s.device.transferBlocks := hsent.blocks
  have hbuffer₁ : s₁.device.buffer = s.device.buffer := hsent.buffer
  have hvalue : (BitVec.ofNat 32 ((s.setLastCommandValue (commands c).toReg).device.blockSize |||
      (s.setLastCommandValue (commands c).toReg).device.transferBlocks <<< 16)) =
      BitVec.ofNat 32 (512 ||| s.device.transferBlocks <<< 16) := by
    show BitVec.ofNat 32 (s.device.blockSize ||| _) = _
    rw [hsize]
    rfl
  rw [hvalue] at hdata
  have hstart : Reading disk (cardSector sdhc arg) s₁.device.buffer
      (s₁.device.transferBlocks * 128) view 0 s₁ := by
    refine Device.Loaded.start ?_ ?_ ?_
    · rw [hdata]
      rfl
    · rw [hdata, hblocks₁]
      exact dataWords hblocks
    · rw [hdata]
      rfl
  have hall := hstart.finish hc hsize₁ hkind.1 hkind.2 hrun
  rwa [hbuffer₁, hblocks₁] at hall

theorem tryCommand_read (hc : ReadsCard h disk sdhc view) {c : ℕ} {arg : BitVec 32}
    (hread : c = ctReadBlock ∨ c = ctReadMultiple) (retries : ℕ) :
    ∀ s : Emmc D, s.device.blockSize = 512 → s.tryCommand h c arg retries = some (true, s') →
      AllRead disk (cardSector sdhc arg) s.device.buffer (s.device.transferBlocks * 128) s' := by
  have hcommand : c.testBit 31 = false ∧ (commands c).toReg ≠ resCmd.toReg := by
    rcases hread with rfl | rfl <;> decide
  induction retries with
  | zero =>
      intro s _ hrun
      simp [tryCommand] at hrun
  | succ retries ih =>
      intro s hsize hrun
      obtain ⟨ok, s₁, hrun₁, hs₁⟩ := emmcCommand_within (h := h) (w := 128) c arg 5000 hsize
      rw [tryCommand, hrun₁, Option.bind_eq_bind, Option.bind_some] at hrun
      cases ok with
      | true =>
          obtain ⟨-, rfl⟩ := Prod.mk.inj (Option.some.inj hrun)
          have hissue : (s.setLastCommand (commands c)).emmcIssueCommand h (commands c) arg 5000 =
              some (true, s₁) := by
            rw [emmcCommand, if_neg (by rw [hcommand.1]; decide)] at hrun₁
            exact (if_neg hcommand.2).symm.trans hrun₁
          exact emmcIssueCommand_read (s := s.setLastCommand (commands c)) hc hread hsize hissue
      | false =>
          have hall := ih s₁ (hs₁.blockSize.trans hsize) hrun
          rwa [hs₁.blocks, hs₁.buffer] at hall

/-! ## §4  A read -/

theorem doDataCommand_read {b : ℕ} {bsize blockNo : BitVec 32}
    (hc : ReadsCard h disk s.device.sdhc view) (hsize : s.device.blockSize = 512)
    (hblock : s.device.sdhc = false → blockNo.toNat < 2 ^ 23)
    (hrun : s.doDataCommand h false b bsize blockNo = some (true, s')) :
    bsize.toNat % 512 = 0 ∧ AllRead disk blockNo b (bsize.toNat / 512 * 128) s' := by
  -- the argument of the command names the sector
  have hsector : cardSector s.device.sdhc (if s.device.sdhc = true then blockNo else
      blockNo * 512) = blockNo := by
    rw [cardSector]
    cases hkind : s.device.sdhc with
    | true => rfl
    | false =>
        have hlt := hblock hkind
        rw [if_neg Bool.false_ne_true, if_neg Bool.false_ne_true]
        apply BitVec.eq_of_toNat_eq
        rw [BitVec.toNat_udiv, BitVec.toNat_mul]
        have h512 : (512 : BitVec 32).toNat = 512 := by decide
        rw [h512]
        omega
  unfold doDataCommand at hrun
  dsimp only at hrun
  generalize (if s.device.sdhc = true then blockNo else blockNo * 512) = arg at hrun hsector
  have hsame : (s.setTransferBlocks (bsize.toNat / s.device.blockSize)).device.blockSize =
      s.device.blockSize := rfl
  rw [hsame] at hrun
  by_cases hlt : bsize.toNat < s.device.blockSize
  · rw [if_pos hlt] at hrun
    simp at hrun
  rw [if_neg hlt] at hrun
  by_cases hmod : bsize.toNat % s.device.blockSize = 0
  swap
  · rw [if_pos hmod] at hrun
    simp at hrun
  rw [if_neg (not_not.mpr hmod)] at hrun
  have hread : ∀ blocks, dataCommand false blocks = ctReadBlock ∨
      dataCommand false blocks = ctReadMultiple := by
    intro blocks
    unfold dataCommand
    split_ifs <;> simp_all
  have hall := tryCommand_read hc (hread _) 3
    ((s.setTransferBlocks (bsize.toNat / s.device.blockSize)).setBuffer b) hsize hrun
  rw [hsector] at hall
  rw [hsize] at hmod
  refine ⟨hmod, ?_⟩
  have hblocks : ((s.setTransferBlocks (bsize.toNat / s.device.blockSize)).setBuffer
      b).device.transferBlocks = bsize.toNat / 512 := by
    rw [← hsize]
    rfl
  rwa [hblocks] at hall

theorem seekSector_offset (sector : Word) : (sector * 512).toNat % 512 = 0 ∧
    BitVec.ofNat 32 ((sector * 512).toNat / 512) = sector.setWidth 32 := by
  have h512 : (512 : Word).toNat = 512 := by decide
  have hlt := sector.isLt
  rw [BitVec.toNat_mul, h512]
  refine ⟨by omega, BitVec.eq_of_toNat_eq ?_⟩
  rw [BitVec.toNat_ofNat, BitVec.toNat_setWidth]
  omega

/-- `emmc_seek_sector` and `emmc_read` on a controller with a card: the buffer has the bytes of
the card, if -1 is not returned. -/
theorem emmcRead_card (hc : ReadsCard h disk s.device.sdhc view)
    (hsize : s.device.blockSize = 512) {sector : Word} {size r : BitVec 32}
    (hsector : s.device.sdhc = false → (sector.setWidth 32).toNat < 2 ^ 23)
    (hrun : (s.emmcSeekSector sector).emmcRead h buf size = some (r, s')) (hr : r ≠ -1) :
    r = size ∧ s'.mem = Rpos.emmcRead disk s.mem sector buf size.toNat := by
  obtain ⟨r', s'', hrun', hresult, hmem, -⟩ := emmcRead_returns (h := h)
    (s := s.emmcSeekSector sector) (by rw [emmcSeekSector, hsize]) buf size
  rw [hrun, Option.some.injEq, Prod.mk.injEq] at hrun'
  obtain ⟨rfl, rfl⟩ := hrun'
  obtain rfl := hresult.resolve_right hr
  obtain ⟨hoffset, hblock⟩ := seekSector_offset sector
  have hoffset' : (s.emmcSeekSector sector).device.offset = sector * 512 := rfl
  unfold emmcRead at hrun
  rw [hoffset', if_neg (not_not.mpr hoffset), hblock] at hrun
  dsimp only at hrun
  obtain ⟨ok, s₁, hcommand, -⟩ := doDataCommand_within (h := h) (w := 128)
    (s := s.emmcSeekSector sector) false buf r (sector.setWidth 32) hsize
  rw [doRead, hcommand] at hrun
  cases ok with
  | false =>
      -- the result is -1
      refine absurd ?_ hr
      by_cases hminus : (-1 : BitVec 32) = r
      · exact hminus.symm
      · have hresult' : some ((-1 : BitVec 32), s₁) = some (r, s') :=
          (if_pos hminus).symm.trans hrun
        exact absurd (congrArg Prod.fst (Option.some.inj hresult')) hminus
  | true =>
      have hsame : some (r, s₁) = some (r, s') := (if_neg (not_not.mpr rfl)).symm.trans hrun
      obtain ⟨-, rfl⟩ := Prod.mk.inj (Option.some.inj hsame)
      obtain ⟨hmod, hall⟩ := doDataCommand_read (s := s.emmcSeekSector sector) hc hsize hsector
        hcommand
      refine ⟨rfl, funext fun a => ?_⟩
      by_cases ha : a < buf ∨ buf + r.toNat ≤ a
      · rw [hmem a ha, Rpos.emmcRead, store_other _ _ ha]
        rfl
      · obtain ⟨i, rfl⟩ : ∃ i, a = buf + i := ⟨a - buf, by omega⟩
        have hi : i < r.toNat := by omega
        rw [Rpos.emmcRead, store_apply _ _ hi]
        have hword := hall (i / 4) (by omega) (i % 4) (Nat.mod_lt i (by decide))
        rw [Nat.div_add_mod] at hword
        exact hword

end Emmc

/-! ## §5  A controller that is always ready -/

structure PromptCard where
  bsc : BitVec 32
  arg : BitVec 32
  command : BitVec 32
  sector : BitVec 32
  total : ℕ
  taken : ℕ

def PromptCard.view (disk : Disk) (d : PromptCard) : EmmcView :=
  ⟨d.bsc, d.arg, d.command, ⟨cardWord disk d.sector, d.total, d.taken⟩⟩

/-- Command complete and buffer read ready are always set, the clock is stable, and the card is in
the state of standby. -/
def promptHost (disk : Disk) (sdhc : Bool) : EmmcHost PromptCard where
  load r d :=
    match r with
    | .data =>
        if d.taken < d.total then
          (cardWord disk d.sector d.taken, { d with taken := d.taken + 1 })
        else (0, d)
    | .intFlags => (if d.taken = d.total then 0x23 else 0x21, d)
    | .response _ => (if sdhc then 0xC0000700 else 0x80000700, d)
    | .control _ => (2, d)
    | _ => (0, d)
  store r v d :=
    match r with
    | .blockSizeCount => { d with bsc := v }
    | .arg1 => { d with arg := v }
    | .cmdXferMode =>
        { d with
          command := v
          sector := cardSector sdhc d.arg
          total := (d.bsc >>> 16).toNat * ((d.bsc &&& 0xFFF).toNat / 4)
          taken := 0 }
    | _ => d
  wait _ d := d

theorem promptHost_reads (disk : Disk) (sdhc : Bool) :
    ReadsCard (promptHost disk sdhc) disk sdhc (PromptCard.view disk) := by
  refine ⟨fun _ _ => rfl, fun r d hr => ?_, fun _ _ => rfl, fun _ _ => rfl, fun _ _ => rfl,
    fun _ _ => rfl, fun _ _ _ => rfl, fun d => ?_, fun d hend => ?_, fun d _ _ => ?_⟩
  · cases r with
    | data => exact absurd rfl hr
    | _ => rfl
  · by_cases hlt : d.taken < d.total
    · refine Or.inr ⟨?_, ?_⟩ <;> simp [promptHost, hlt, PromptCard.view]
    · refine Or.inl ?_
      simp [promptHost, hlt, PromptCard.view]
  · by_contra hne
    have hflags : ((promptHost disk sdhc).load .intFlags d).1 = 0x21 := if_neg hne
    rw [hflags] at hend
    exact absurd hend (by decide)
  · show (if sdhc then (0xC0000700 : BitVec 32) else 0x80000700).getLsbD 30 = sdhc
    cases sdhc <;> decide

end Rpos
