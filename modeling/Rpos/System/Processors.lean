import Rpos.System.Cpu

/-!
# Every process has a processor of its own

As long as the C code of the kernel keeps to its own memory, each process finds its
registers as if it had the processor to itself, in whatever order they are switched; a
forked child starts with those of its parent, and 0 as the value of `fork`.
-/

namespace Rpos

open Base Base.A64

section

variable {image : KernelImage} {c d : Cpu} {s t : Processors} {p q b b' a : ℕ}

/-! ## What a step leaves alone -/

theorem Cpu.reaped_le (c : Cpu) (hb : c.reaped p = some b) : c.stack p = some b := by
  unfold Cpu.reaped at hb
  split at hb
  · exact (Option.filter_eq_some_iff.mp hb).1
  · exact hb

/-- The first half of `context_switch`, called on the stack of the current process. -/
theorem Shares.leaves (h : Shares image c s) (hb : c.stack c.current = some b)
    (hx1 : (c.machine.x 1).toNat = c.kernelStack c.current) :
    Leaves c.machine (c.machine.exec contextSwitchSave) := by
  have hsp := h.sp hb
  have hsize : csFrameSize = 96 := rfl
  have hsize' := baseTrapframe_le b
  have hslot := h.layout.pcb c.current c.current b b hb hb
  have hpage : kstackSize = 4096 := kstackSize_eq
  unfold InStack at hslot
  exact exec_contextSwitchSave (by omega) (by omega)

theorem Shares.saves (h : Shares image c s) (hb : c.stack c.current = some b)
    (hx1 : (c.machine.x 1).toNat = c.kernelStack c.current) :
    ((c.machine.exec contextSwitchSave).mem (c.kernelStack c.current)).toNat
      = c.machine.sp - csFrameSize := by
  have hsp := h.sp hb
  have hlt := h.layout.lt c.current b hb
  rw [← hx1, (h.leaves hb hx1).kernelStack, BitVec.toNat_ofNat, Nat.mod_eq_of_lt (by omega)]

/-- `check_and_reap` frees the stack of the terminated process and no other. -/
theorem Shares.reaped (h : Shares image c s) (hb : c.stack c.current = some b)
    (hx1 : (c.machine.x 1).toNat = c.kernelStack c.current)
    (hroom : b + kstackSize + csFrameSize ≤ c.machine.sp) :
    c.reaped = if c.mode c.current = .dead then Function.update c.stack c.current none
      else c.stack := by
  have hsp := h.sp hb
  have hpage : kstackSize = 4096 := kstackSize_eq
  have hblock := kstackBlock_eq
  have hsize : csFrameSize = 96 := rfl
  unfold Cpu.reaped
  dsimp only
  rw [h.saves hb hx1]
  split
  · have hin : InStack b ((c.machine.sp - csFrameSize) / 4096 * 4096) := by
      constructor <;> omega
    funext p
    by_cases hp : p = c.current
    · rw [hp, hb, Function.update_self, Option.filter_some, if_neg (by simpa using hin)]
    · rw [Function.update_of_ne hp]
      cases hb' : c.stack p with
      | none => rfl
      | some b' =>
          have hout := h.layout.notIn (Ne.symm hp) hb hb' hin
          rw [Option.filter_some, if_pos (by simpa using hout)]
  · rfl

theorem Shares.reaped_other (h : Shares image c s) (hb : c.stack c.current = some b)
    (hx1 : (c.machine.x 1).toNat = c.kernelStack c.current)
    (hroom : b + kstackSize + csFrameSize ≤ c.machine.sp) (hp : p ≠ c.current) :
    c.reaped p = c.stack p := by
  rw [h.reaped hb hx1 hroom]
  split
  · exact Function.update_of_ne hp _ _
  · rfl

/-- What `check_and_reap` leaves alone, whether it frees a stack or not. -/
theorem CheckAndReap.keeps {m t : ArmState} (h : CheckAndReap image c b m t)
    (hstack : InStack b a → m.sp ≤ a) (hframes : a ∉ image.frames)
    (hslot : a ≠ c.kernelStack c.current) : t.mem a = m.mem a := by
  by_cases hdead : c.mode c.current = .dead
  · exact (h.terminated hdead).2 a hstack hframes hslot
  · exact h.running hdead a hstack

/-- The cells that belong to a process that waits: its pcb, and its stack from the
saved stack pointer on. -/
structure Kept (c d : Cpu) (p b : ℕ) : Prop where
  stack : d.stack p = some b
  mode : d.mode p = c.mode p
  pcb : d.machine.mem (d.kernelStack p) = c.machine.mem (c.kernelStack p)
  mem : ∀ a, InStack b a → d.machine.mem a = c.machine.mem a

theorem Shares.kept {e : CpuEvent} (h : Shares image c s)
    (hstep : Cpu.OwnStep image c e d) (hp : p ≠ c.current) (hb : c.stack p = some b)
    (he : e ≠ .switch p) : Kept c d p b ∧ p ≠ d.current := by
  have hown : ∀ b₀, c.stack c.current = some b₀ → ∀ a, InStack b a → ¬ InStack b₀ a :=
    fun b₀ hb₀ a ha => h.layout.notIn hp hb hb₀ ha
  have hpcb : ∀ b₀, c.stack c.current = some b₀ → ¬ InStack b₀ (c.kernelStack p) :=
    fun b₀ hb₀ => h.layout.pcb c.current p b₀ b hb₀ hb
  obtain ⟨hstep, hcode⟩ := hstep
  cases hstep with
  | user κ _ => exact ⟨⟨hb, rfl, rfl, fun _ _ => rfl⟩, hp⟩
  | trap hmode =>
      obtain ⟨b₀, hb₀, hactive⟩ := h.active
      unfold Active at hactive
      rw [hmode] at hactive
      have hbase := baseTrapframe_le b₀
      have henters := exec_kernelEntry (m := c.machine) (by omega)
      have hcell : ∀ a, ¬ InStack b₀ a →
          (c.machine.exec kernelEntry).mem a = c.machine.mem a := by
        intro a ha
        unfold InStack at ha
        exact henters.frame a (by omega)
      exact ⟨⟨hb, Function.update_of_ne hp _ _, hcell _ (hpcb b₀ hb₀),
        fun a ha => hcell a (hown b₀ hb₀ a ha)⟩, hp⟩
  | code _ _ _ _ =>
      exact ⟨⟨hb, rfl, (hcode rfl).pcbs p b hb, (hcode rfl).kstacks p hp b hb⟩, hp⟩
  | @reply b₀ _ hb₀ hsp =>
      have hbase := baseTrapframe_le b₀
      have hcell : ∀ a, ¬ InStack b₀ a →
          (c.machine.step (.strSp 0 0)).mem a = c.machine.mem a := by
        intro a ha
        refine ArmState.store_mem.trans (if_neg fun heq => ha ⟨?_, ?_⟩) <;> omega
      exact ⟨⟨hb, rfl, hcell _ (hpcb b₀ hb₀), fun a ha => hcell a (hown b₀ hb₀ a ha)⟩, hp⟩
  | @exec b₀ entry _ hb₀ =>
      have hcell : ∀ a, ¬ InStack b₀ a →
          execFrame c.machine.mem (baseTrapframe b₀) entry a = c.machine.mem a :=
        fun a ha => execFrame_of_notIn ha
      exact ⟨⟨hb, rfl, hcell _ (hpcb b₀ hb₀), fun a ha => hcell a (hown b₀ hb₀ a ha)⟩, hp⟩
  | ret _ _ _ => exact ⟨⟨hb, Function.update_of_ne hp _ _, rfl, fun _ _ => rfl⟩, hp⟩
  | @switch b₀ b₁ q m _ hb₀ hb₁ hq hx0 hx1 hroom hreap =>
      have hne : p ≠ q := fun heq => he (by rw [heq])
      have hsp := h.sp hb₀
      have hleaves := h.leaves hb₀ hx1
      have hcell : ∀ a, ¬ InStack b₀ a → a ≠ c.kernelStack c.current →
          (c.machine.exec contextSwitchSave).mem a = c.machine.mem a := by
        intro a ha hslot'
        unfold InStack at ha
        exact hleaves.frame a (by omega) (by rwa [hx1])
      have hslot : c.kernelStack p ≠ c.kernelStack c.current :=
        h.layout.slots p c.current b b₀ hp hb hb₀
      refine ⟨⟨?_, rfl, ?_, fun a ha => ?_⟩, hne⟩
      · exact (h.reaped_other hb₀ hx1 hroom hp).trans hb
      · refine (hreap.keeps (fun hin => ?_) (fun hin => ?_) hslot).trans
          (hcell _ (hpcb b₀ hb₀) hslot)
        · exact absurd hin (h.layout.pcb q p b₁ b hb₁ hb)
        · exact absurd rfl (h.layout.frames p b hb _ hin).2
      · have hne' : a ≠ c.kernelStack c.current := fun heq =>
          h.layout.pcb p c.current b b₀ hb hb₀ (heq ▸ ha)
        refine (hreap.keeps (fun hin => ?_) (fun hin => ?_) hne').trans
          (hcell a (hown b₀ hb₀ a ha) hne')
        · exact absurd hin (h.layout.notIn hne hb hb₁ ha)
        · exact absurd ha (h.layout.frames p b hb a hin).1
  | @fork b₀ b' r slot _ _ hr hnew =>
      have hne : p ≠ r := by
        intro heq
        rw [heq, hr] at hb
        exact absurd hb (by simp)
      have hslot := hnew.slots p b hb
      refine ⟨⟨?_, Function.update_of_ne hne _ _, ?_, fun a ha => ?_⟩, hp⟩
      · rw [← hb]
        exact Function.update_of_ne hne _ _
      · show cloneStack _ _ _ _ _ (Function.update c.kernelStack r slot p) = _
        rw [Function.update_of_ne hne]
        exact cloneStack_of_notIn (hnew.pcbs p b hb) hslot.2.symm
      · refine cloneStack_of_notIn (fun ha' => ?_) fun heq => ?_
        · have := hnew.apart p b hb
          unfold InStack at ha ha'
          omega
        · exact hslot.1 (heq ▸ ha)
  | exit _ => exact ⟨⟨hb, Function.update_of_ne hp _ _, rfl, fun _ _ => rfl⟩, hp⟩

theorem Kept.saved (h : Kept c d p b) : d.saved p = c.saved p := by
  unfold Cpu.saved
  rw [h.pcb]

theorem Kept.suspended (h : Kept c d p b) (hs : Suspended c s p b)
    (hcontext : t.context p = s.context p) : Suspended d t p b :=
  hs.congr h.mode hcontext h.pcb fun a ha _ => h.mem a ha

theorem Kept.trans {f : Cpu} (h : Kept c d p b) (h' : Kept d f p b) :
    Kept c f p b :=
  ⟨h'.stack, h'.mode.trans h.mode, h'.pcb.trans h.pcb,
    fun a ha => (h'.mem a ha).trans (h.mem a ha)⟩

theorem context_withContext (m : ArmState) (κ : Context) : Context.of (withContext m κ) = κ := by
  refine Context.ext (funext fun i => ?_) rfl rfl rfl
  exact dif_pos i.isLt

theorem active_user (hmode : c.mode c.current = .user) : Active c s b ↔
    c.machine.sp = kstackTop b ∧ Context.of c.machine = s.context c.current := by
  unfold Active
  rw [hmode]

theorem active_kernel (hmode : c.mode c.current = .kernel) : Active c s b ↔
    (b + kstackSize ≤ c.machine.sp ∧ c.machine.sp ≤ baseTrapframe b) ∧
      TrapFrame c.machine.mem (baseTrapframe b) (s.context c.current) := by
  unfold Active
  rw [hmode]

theorem active_other (huser : c.mode c.current ≠ .user) (hkernel : c.mode c.current ≠ .kernel) :
    Active c s b ↔
      b + kstackSize ≤ c.machine.sp ∧ c.machine.sp ≤ (c.mode c.current).limit b := by
  unfold Active
  cases hmode : c.mode c.current with
  | user => exact absurd hmode huser
  | kernel => exact absurd hmode hkernel
  | thread => exact Iff.rfl
  | dead => exact Iff.rfl

/-- `kernel_entry` leaves the context in the trap frame. -/
theorem Active.trap (hmode : c.mode c.current = .user) (h : Active c s b) :
    Active { c with
      machine := c.machine.exec kernelEntry
      mode := Function.update c.mode c.current .kernel } s b := by
  rw [active_user hmode] at h
  obtain ⟨hsp, hcontext⟩ := h
  have hbase := baseTrapframe_le b
  obtain ⟨-, hsp', -, hframe, -⟩ := exec_kernelEntry (m := c.machine) (by omega)
  have hat : c.machine.sp - sFrameSize = baseTrapframe b := by omega
  rw [hat] at hsp' hframe
  rw [hcontext] at hframe
  refine (active_kernel (Function.update_self _ _ _)).mpr ⟨⟨?_, ?_⟩, hframe⟩
  · rw [hsp']
    omega
  · rw [hsp']

/-- `kernel_exit` takes the context from the trap frame. -/
theorem Active.ret (hmode : c.mode c.current = .kernel) (hsp : c.machine.sp = baseTrapframe b)
    (h : Active c s b) :
    Active { c with
      machine := c.machine.exec kernelExit
      mode := Function.update c.mode c.current .user } s b := by
  rw [active_kernel hmode, ← hsp] at h
  obtain ⟨hcontext, hsp', -⟩ := exec_kernelExit h.2
  have hbase := baseTrapframe_le b
  refine (active_user (Function.update_self _ _ _)).mpr ⟨?_, hcontext⟩
  show (c.machine.exec kernelExit).sp = _
  rw [hsp', hsp]
  exact hbase.2.1

theorem Active.exit (hmode : c.mode c.current = .kernel) (h : Active c s b) :
    Active { c with mode := Function.update c.mode c.current .dead } s b := by
  rw [active_kernel hmode] at h
  have hdead : Function.update c.mode c.current .dead c.current = Mode.dead :=
    Function.update_self _ _ _
  have hlimit := baseTrapframe_le b
  have hle : baseTrapframe b ≤ Mode.dead.limit b := by
    rw [Mode.limit_dead]
    omega
  refine (active_other ?_ ?_).mpr ⟨h.1.1, ?_⟩
  · show Function.update c.mode c.current .dead c.current ≠ .user
    rw [hdead]
    exact Mode.noConfusion
  · show Function.update c.mode c.current .dead c.current ≠ .kernel
    rw [hdead]
    exact Mode.noConfusion
  · show c.machine.sp ≤ (Function.update c.mode c.current .dead c.current).limit b
    rw [hdead]
    exact h.1.2.trans hle

/-- A step of the current process that stays on the processor, if the state of that
process is right afterwards. -/
theorem Shares.stay {e : CpuEvent} (h : Shares image c s)
    (hstep : Cpu.OwnStep image c e d) (hcurrent : d.current = c.current)
    (he : ∀ q, e ≠ .switch q) (hstack : d.stack = c.stack)
    (hslot : d.kernelStack = c.kernelStack)
    (ht : t.current = s.current) (hcontext : ∀ p ≠ c.current, t.context p = s.context p)
    (hactive : ∀ b, c.stack c.current = some b → Active c s b → Active d t b) :
    Shares image d t := by
  obtain ⟨b, hb, hold⟩ := h.active
  refine ⟨?_, ?_, ⟨b, ?_, hactive b hb hold⟩, fun p hp b' hb' => ?_⟩
  · rw [ht, h.current, hcurrent]
  · exact h.layout.mono (fun p b hp => by rwa [hstack] at hp) hslot
  · rw [hstack, hcurrent]
    exact hb
  · rw [hcurrent] at hp
    rw [hstack] at hb'
    exact (h.kept hstep hp hb' (he p)).1.suspended (h.suspended p hp b' hb') (hcontext p hp)

/-- The process that is switched in continues where it was switched out. -/
theorem Shares.switched_in {m : ArmState} (h : Shares image c s) (hb : c.stack c.current = some b)
    (hb' : c.stack q = some b') (hq : q ≠ c.current)
    (hx0 : c.machine.x 0 = c.machine.mem (c.kernelStack q))
    (hx1 : (c.machine.x 1).toNat = c.kernelStack c.current)
    (hreap : CheckAndReap image c b' (c.machine.exec contextSwitchSave) m) :
    m.sp = c.saved q ∧
      ∀ a, InStack b' a → c.saved q ≤ a → m.mem a = c.machine.mem a := by
  have hleaves := h.leaves hb hx1
  have hsp := h.sp hb
  have hsaved : (c.machine.exec contextSwitchSave).sp = c.saved q := by
    unfold Cpu.saved
    rw [hleaves.sp, hx0]
  refine ⟨hreap.sp.trans hsaved, fun a ha hle => ?_⟩
  have hslot : a ≠ c.kernelStack c.current := fun heq =>
    h.layout.pcb q c.current b' b hb' hb (heq ▸ ha)
  have hframes : a ∉ image.frames := fun hin => (h.layout.frames q b' hb' a hin).1 ha
  rw [hreap.keeps (fun _ => hsaved.trans_le hle) hframes hslot]
  have hout := h.layout.notIn hq hb' hb ha
  refine hleaves.frame a ?_ (by rwa [hx1])
  have hpage : kstackSize = 4096 := kstackSize_eq
  have hsize : csFrameSize = 96 := rfl
  unfold InStack at hout
  omega

/-- The process that is switched out waits, with its stack pointer saved. -/
theorem Shares.switched_out {m : ArmState} (h : Shares image c s) (hb : c.stack c.current = some b)
    (hb' : c.stack q = some b') (hq : q ≠ c.current)
    (huser : c.mode c.current ≠ .user) (hdead : c.mode c.current ≠ .dead)
    (hx1 : (c.machine.x 1).toNat = c.kernelStack c.current)
    (hroom : b + kstackSize + csFrameSize ≤ c.machine.sp)
    (hreap : CheckAndReap image c b' (c.machine.exec contextSwitchSave) m)
    (ht : t.context = s.context) :
    Suspended (c.switchTo q m) t c.current b ∧
      (c.switchTo q m).saved c.current = c.machine.sp - csFrameSize ∧
      CsFrame m.mem (c.machine.sp - csFrameSize) c.machine.x ∧
      ∀ a, InStack b a → c.machine.sp ≤ a → m.mem a = c.machine.mem a := by
  have hleaves := h.leaves hb hx1
  have hsp := h.sp hb
  have hbase := baseTrapframe_le b
  have hpage : kstackSize = 4096 := kstackSize_eq
  have hsize : csFrameSize = 96 := rfl
  have hstay : ∀ a, InStack b a → m.mem a = (c.machine.exec contextSwitchSave).mem a :=
    fun a ha => hreap.running hdead a fun ha' => absurd ha' (h.layout.notIn hq.symm hb hb' ha)
  have hcell : ∀ a, InStack b a → c.machine.sp ≤ a → m.mem a = c.machine.mem a := by
    intro a ha hle
    rw [hstay a ha]
    refine hleaves.frame a (Or.inr hle) fun heq => ?_
    rw [hx1] at heq
    exact h.layout.pcb c.current c.current b b hb hb (heq ▸ ha)
  have hsaved : (c.switchTo q m).saved c.current = c.machine.sp - csFrameSize := by
    have hslot : m.mem (c.kernelStack c.current)
        = (c.machine.exec contextSwitchSave).mem (c.kernelStack c.current) :=
      hreap.running hdead _ fun ha => absurd ha (h.layout.pcb q c.current b' b hb' hb)
    rw [← h.saves hb hx1, ← hslot]
    unfold Cpu.saved
    rfl
  have hframe : CsFrame m.mem (c.machine.sp - csFrameSize) c.machine.x :=
    hleaves.saved.congr fun a ha ha' => hstay a ⟨by omega, by omega⟩
  obtain ⟨b₀, hb₀, hactive⟩ := h.active
  rw [hb, Option.some.injEq] at hb₀
  rw [← hb₀] at hactive
  refine ⟨⟨?_, ?_, ?_, fun hkernel => ?_⟩, hsaved, hframe, hcell⟩
  · rw [hsaved]
    omega
  · rw [hsaved, Nat.sub_add_cancel (by omega)]
    show c.machine.sp ≤ (c.mode c.current).limit b
    by_cases hkernel : c.mode c.current = .kernel
    · rw [hkernel, Mode.limit_kernel]
      exact ((active_kernel hkernel).mp hactive).1.2
    · exact ((active_other huser hkernel).mp hactive).2
  · show c.mode c.current = .kernel ∨ c.mode c.current = .thread
    cases hmode : c.mode c.current with
    | user => exact absurd hmode huser
    | dead => exact absurd hmode hdead
    | kernel => exact Or.inl rfl
    | thread => exact Or.inr rfl
  · obtain ⟨⟨-, hle⟩, hold⟩ := (active_kernel hkernel).mp hactive
    rw [ht]
    refine hold.congr fun a ha ha' => hcell a ⟨?_, ?_⟩ ?_
    all_goals omega

theorem StackLayout.insert {r : ℕ} (h : StackLayout image c) (hnew : Unused image c b' a)
    (hstack : d.stack = Function.update c.stack r (some b'))
    (hslot : d.kernelStack = Function.update c.kernelStack r a) : StackLayout image d := by
  have hsplit : ∀ p b, d.stack p = some b →
      (b = b' ∧ d.kernelStack p = a ∧ p = r) ∨
        (c.stack p = some b ∧ d.kernelStack p = c.kernelStack p ∧ p ≠ r) := by
    intro p b hb
    rw [hstack] at hb
    rw [hslot]
    by_cases hp : p = r
    · rw [hp, Function.update_self, Option.some.injEq] at hb
      refine Or.inl ⟨hb.symm, ?_, hp⟩
      rw [hp]
      exact Function.update_self _ _ _
    · rw [Function.update_of_ne hp] at hb
      exact Or.inr ⟨hb, Function.update_of_ne hp _ _, hp⟩
  refine ⟨fun p q b b'' hne hp hq => ?_, fun p q b b'' hp hq => ?_,
    fun p q b b'' hne hp hq => ?_, fun p b hp x hx => ?_, fun p b hp => ?_⟩
  · rcases hsplit p b hp with ⟨hb, -, hpr⟩ | ⟨hb, -, -⟩
    · rcases hsplit q b'' hq with ⟨-, -, hqr⟩ | ⟨hb'', -, -⟩
      · exact absurd (hpr.trans hqr.symm) hne
      · rw [hb]
        exact hnew.apart q b'' hb''
    · rcases hsplit q b'' hq with ⟨hb'', -, -⟩ | ⟨hb'', -, -⟩
      · rw [hb'']
        exact (hnew.apart p b hb).symm
      · exact h.apart p q b b'' hne hb hb''
  · rcases hsplit p b hp with ⟨hb, -, -⟩ | ⟨hb, -, -⟩
    · rcases hsplit q b'' hq with ⟨-, ha, -⟩ | ⟨hb'', ha, -⟩
      · rw [hb, ha]
        exact hnew.slot
      · rw [hb, ha]
        exact hnew.pcbs q b'' hb''
    · rcases hsplit q b'' hq with ⟨-, ha, -⟩ | ⟨hb'', ha, -⟩
      · rw [ha]
        exact (hnew.slots p b hb).1
      · rw [ha]
        exact h.pcb p q b b'' hb hb''
  · rcases hsplit p b hp with ⟨-, ha, hpr⟩ | ⟨hb, ha, -⟩
    · rcases hsplit q b'' hq with ⟨-, -, hqr⟩ | ⟨hb'', ha'', -⟩
      · exact absurd (hpr.trans hqr.symm) hne
      · rw [ha, ha'']
        exact (hnew.slots q b'' hb'').2
    · rcases hsplit q b'' hq with ⟨-, ha'', -⟩ | ⟨hb'', ha'', -⟩
      · rw [ha, ha'']
        exact (hnew.slots p b hb).2.symm
      · rw [ha, ha'']
        exact h.slots p q b b'' hne hb hb''
  · rcases hsplit p b hp with ⟨hb, ha, -⟩ | ⟨hb, ha, -⟩
    · rw [hb, ha]
      exact hnew.frames x hx
    · rw [ha]
      exact h.frames p b hb x hx
  · rcases hsplit p b hp with ⟨hb, -, -⟩ | ⟨hb, -, -⟩
    · rw [hb]
      exact hnew.lt
    · exact h.lt p b hb

/-- The process that is switched in goes on, and the one that is switched out waits. -/
theorem Shares.switch {m : ArmState} {b₀ b₁ : ℕ} (h : Shares image c s)
    (huser : c.mode c.current ≠ .user) (hb₀ : c.stack c.current = some b₀)
    (hb₁ : c.stack q = some b₁) (hq : q ≠ c.current)
    (hx0 : c.machine.x 0 = c.machine.mem (c.kernelStack q))
    (hx1 : (c.machine.x 1).toNat = c.kernelStack c.current)
    (hroom : b₀ + kstackSize + csFrameSize ≤ c.machine.sp)
    (hreap : CheckAndReap image c b₁ (c.machine.exec contextSwitchSave) m) :
    Shares image (c.switchTo q m) (s.step (.switch q)) := by
  have hstep : Cpu.OwnStep image c (.switch q) (c.switchTo q m) :=
    ⟨.switch huser hb₀ hb₁ hq hx0 hx1 hroom hreap, CpuEvent.noConfusion⟩
  have hwaits := h.suspended q hq b₁ hb₁
  obtain ⟨hsp, hmem⟩ := h.switched_in hb₀ hb₁ hq hx0 hx1 hreap
  have hsp' : (m.exec contextSwitchLoad).sp = c.saved q + csFrameSize := by
    rw [← hsp]
    rfl
  have hreaped : ∀ p b, c.reaped p = some b → c.stack p = some b :=
    fun _ _ hb => c.reaped_le hb
  have hlow := hwaits.low
  have hhigh := hwaits.high
  refine ⟨rfl, h.layout.mono hreaped rfl,
    ⟨b₁, (h.reaped_other hb₀ hx1 hroom hq).trans hb₁, ?_⟩, fun p hp b hb => ?_⟩
  · rcases hwaits.mode with hmode | hmode
    · rw [hmode, Mode.limit_kernel] at hhigh
      refine (active_kernel (c := c.switchTo q m) hmode).mpr ⟨⟨?_, ?_⟩, ?_⟩
      · show b₁ + kstackSize ≤ (m.exec contextSwitchLoad).sp
        omega
      · show (m.exec contextSwitchLoad).sp ≤ _
        omega
      · refine (hwaits.frame hmode).congr fun a ha ha' => hmem a ⟨?_, ?_⟩ ?_
        all_goals
          have hbase := baseTrapframe_le b₁
          omega
    · refine (active_other (c := c.switchTo q m) ?_ ?_).mpr ⟨?_, ?_⟩
      · show c.mode q ≠ .user
        rw [hmode]
        exact Mode.noConfusion
      · show c.mode q ≠ .kernel
        rw [hmode]
        exact Mode.noConfusion
      · show b₁ + kstackSize ≤ (m.exec contextSwitchLoad).sp
        omega
      · show (m.exec contextSwitchLoad).sp ≤ (c.mode q).limit b₁
        omega
  · by_cases hpc : p = c.current
    · rw [hpc] at hb ⊢
      have hdead : c.mode c.current ≠ .dead := by
        intro hdead
        have hnone : c.reaped c.current = none := by
          rw [h.reaped hb₀ hx1 hroom, if_pos hdead, Function.update_self]
        exact absurd (hnone.symm.trans hb) (by simp)
      rw [hreaped _ _ hb, Option.some.injEq] at hb₀
      rw [← hb₀] at hroom
      exact (h.switched_out (t := s.step (.switch q)) (hreaped _ _ hb) hb₁ hq huser hdead hx1
        hroom hreap rfl).1
    · have hb' := hreaped p b hb
      have he : CpuEvent.switch q ≠ .switch p := fun heq => hp (CpuEvent.switch.inj heq).symm
      exact (h.kept hstep hpc hb' he).1.suspended (h.suspended p hpc b hb') rfl

/-- A new process waits with a copy of the stack page of its parent. -/
theorem Shares.fork {b₀ r a' : ℕ} (h : Shares image c s) (hmode : c.mode c.current = .kernel)
    (hb₀ : c.stack c.current = some b₀) (hr : c.stack r = none) (hnew : Unused image c b' a')
    (hstep : Cpu.OwnStep image c (.fork r) d)
    (hd : d = { c with
      machine := { c.machine with mem := cloneStack image.retFromFork a' b₀ b' c.machine.mem }
      mode := Function.update c.mode r .kernel
      stack := Function.update c.stack r (some b')
      kernelStack := Function.update c.kernelStack r a' }) :
    Shares image d (s.step (.fork r)) := by
  subst hd
  have hcur := h.current
  have hrc : c.current ≠ r := by
    intro heq
    rw [← heq, hb₀] at hr
    exact absurd hr (by simp)
  obtain ⟨b, hb, hactive⟩ := h.active
  rw [hb, Option.some.injEq] at hb₀
  subst hb₀
  rw [active_kernel hmode] at hactive
  have hcontext : ∀ p ≠ r, (s.step (.fork r)).context p = s.context p :=
    fun p hp => Function.update_of_ne hp _ _
  refine ⟨hcur, h.layout.insert hnew rfl rfl, ⟨b, ?_, ?_⟩, fun p hp b'' hb'' => ?_⟩
  · exact (Function.update_of_ne hrc _ _).trans hb
  · have hmode' : Function.update c.mode r .kernel c.current = .kernel :=
      (Function.update_of_ne hrc _ _).trans hmode
    refine (active_kernel hmode').mpr ⟨hactive.1, ?_⟩
    rw [hcontext c.current hrc]
    have hbase := baseTrapframe_le b
    refine hactive.2.congr fun a ha ha' => cloneStack_of_notIn (fun hin => ?_) fun heq => ?_
    · have := hnew.apart c.current b hb
      unfold InStack at hin
      omega
    · have hout := (hnew.slots c.current b hb).1
      unfold InStack at hout
      omega
  · by_cases hpr : p = r
    · rw [hpr] at hb'' ⊢
      rw [show b'' = b' from Option.some.inj
        (hb''.symm.trans (Function.update_self _ _ _))]
      have hslot : Function.update c.kernelStack r a' r = a' := Function.update_self _ _ _
      have hmem : cloneStack image.retFromFork a' b b' c.machine.mem = cloneStack
          image.retFromFork (Function.update c.kernelStack r a' r) b b' c.machine.mem := by
        rw [hslot]
      refine Suspended.clone (b := b) hcur hactive.2 ?_ hnew.lt ?_ ?_ hmem
      · show ¬ InStack b' (Function.update c.kernelStack r a' r)
        rw [hslot]
        exact hnew.slot
      · exact Function.update_self _ _ _
      · exact Function.update_self _ _ _
    · have hb' : c.stack p = some b'' := (Function.update_of_ne hpr _ _).symm.trans hb''
      exact (h.kept hstep hp hb' CpuEvent.noConfusion).1.suspended
        (h.suspended p hp b'' hb') (hcontext p hpr)

theorem Shares.step {e : CpuEvent} (h : Shares image c s)
    (hstep : Cpu.OwnStep image c e d) : Shares image d (s.step e) := by
  have hcur := h.current
  have hother : ∀ κ, ∀ p ≠ c.current, (s.setContext s.current κ).context p = s.context p := by
    intro κ p hp
    rw [hcur]
    exact Function.update_of_ne hp _ _
  have hself : ∀ κ, (s.setContext s.current κ).context c.current = κ := by
    intro κ
    rw [hcur]
    exact Function.update_self _ _ _
  obtain ⟨hmove, hown⟩ := id hstep
  cases hmove with
  | user κ hmode =>
      refine h.stay hstep rfl (fun _ => CpuEvent.noConfusion) rfl rfl rfl (hother κ)
        fun b _ hactive => ?_
      rw [active_user hmode] at hactive
      refine (active_user (c := { c with machine := withContext c.machine κ })
        hmode).mpr ⟨hactive.1, ?_⟩
      exact (context_withContext _ _).trans (hself κ).symm
  | trap hmode =>
      exact h.stay hstep rfl (fun _ => CpuEvent.noConfusion) rfl rfl rfl (fun _ _ => rfl)
        fun b _ hactive => hactive.trap hmode
  | @code b₀ m hmode hb₀ hlow hhigh =>
      refine h.stay hstep rfl (fun _ => CpuEvent.noConfusion) rfl rfl rfl (fun _ _ => rfl)
        fun b hb hactive => ?_
      rw [hb, Option.some.injEq] at hb₀
      rw [← hb₀] at hlow hhigh
      have hbase := baseTrapframe_le b
      by_cases hkernel : c.mode c.current = .kernel
      · have hkeep := (hown rfl).own b hb
        rw [active_kernel hkernel] at hactive
        rw [hkernel, Mode.limit_kernel] at hhigh hkeep
        refine (active_kernel (c := { c with machine := m }) hkernel).mpr
          ⟨⟨hlow, hhigh⟩, hactive.2.congr fun a ha ha' => ?_⟩
        exact hkeep a ha ⟨by omega, by omega⟩
      · exact (active_other (c := { c with machine := m }) hmode hkernel).mpr ⟨hlow, hhigh⟩
  | @reply b₀ hmode hb₀ hsp =>
      refine h.stay hstep rfl (fun _ => CpuEvent.noConfusion) rfl rfl rfl (hother _)
        fun b hb hactive => ?_
      rw [hb, Option.some.injEq] at hb₀
      rw [← hb₀] at hsp
      rw [active_kernel hmode] at hactive
      refine (active_kernel (c := { c with machine := c.machine.step (.strSp 0 0) })
        hmode).mpr ⟨hactive.1, ?_⟩
      rw [show (s.step (.reply (c.machine.x 0))).context c.current
        = (s.context c.current).reply (c.machine.x 0) by
          rw [Processors.step, hself, hcur]]
      exact hactive.2.reply hsp
  | @exec b₀ entry hmode hb₀ =>
      refine h.stay hstep rfl (fun _ => CpuEvent.noConfusion) rfl rfl rfl (hother _)
        fun b hb hactive => ?_
      rw [hb, Option.some.injEq] at hb₀
      rw [active_kernel hmode] at hactive
      refine (active_kernel (c := { c with machine := { c.machine with
        mem := execFrame c.machine.mem (baseTrapframe b₀) entry } })
        hmode).mpr ⟨hactive.1, ?_⟩
      rw [show (s.step (.exec entry)).context c.current
        = (s.context c.current).exec entry by rw [Processors.step, hself, hcur], ← hb₀]
      exact hactive.2.exec entry
  | @ret b₀ hmode hb₀ hsp =>
      refine h.stay hstep rfl (fun _ => CpuEvent.noConfusion) rfl rfl rfl (fun _ _ => rfl)
        fun b hb hactive => ?_
      rw [hb, Option.some.injEq] at hb₀
      exact hactive.ret hmode (hb₀ ▸ hsp)
  | switch huser hb₀ hb₁ hq hx0 hx1 hroom hreap =>
      exact h.switch huser hb₀ hb₁ hq hx0 hx1 hroom hreap
  | fork hmode hb₀ hr hnew => exact h.fork hmode hb₀ hr hnew hstep rfl
  | exit hmode =>
      exact h.stay hstep rfl (fun _ => CpuEvent.noConfusion) rfl rfl rfl (fun _ _ => rfl)
        fun b _ hactive => hactive.exit hmode

/-! ## Runs -/

theorem Shares.run {es : List CpuEvent} (h : Shares image c s)
    (hrun : Trace (Cpu.OwnStep image) c es d) : Shares image d (s.run es) :=
  hrun.follows h fun _ _ _ _ hs hstep => hs.step hstep

/-- The kernel calls `context_switch` with these arguments. -/
def withArgs (m : ArmState) (newSp slot : Word) : ArmState :=
  { m with x := fun r => if r = 0 then newSp else slot }

/-- The current process calls `context_switch` for `q`. -/
def Cpu.call (c : Cpu) (q : ℕ) : Cpu :=
  let newSp := c.machine.mem (c.kernelStack q)
  { c with machine := withArgs c.machine newSp (BitVec.ofNat 64 (c.kernelStack c.current)) }

/-- While others have the processor, nothing of a process changes. -/
theorem Shares.waits {es : List CpuEvent} (h : Shares image c s)
    (hrun : Trace (Cpu.OwnStep image) c es d) (hp : p ≠ c.current)
    (hb : c.stack p = some b) (hes : .switch p ∉ es) :
    (∃ t, Shares image d t) ∧ Kept c d p b ∧ p ≠ d.current := by
  refine Trace.inv (fun d => (∃ t, Shares image d t) ∧ Kept c d p b ∧ p ≠ d.current)
    (fun e => e ≠ .switch p) hrun ⟨⟨s, h⟩, ⟨hb, rfl, rfl, fun _ _ => rfl⟩, hp⟩
    (fun e he heq => hes (heq ▸ he)) ?_
  rintro d e d' ⟨⟨t, ht⟩, hkept, hpd⟩ he hstep
  obtain ⟨hkept', hpd'⟩ := ht.kept hstep hpd hkept.stack he
  exact ⟨⟨_, ht.step hstep⟩, hkept.trans hkept', hpd'⟩

end

end Rpos
