import Rpos.Base.Ring
import Rpos.Filedescriptors.Pipe
import Rpos.Utils.Pq

/-!
# Processes, the scheduler and what blocks on them

The scheduler of `scheduler.c`, the kernel mutex, the readers of the keyboard
pipe, `sys_nanosleep`, `sys_waitid`, `sys_fork` and `sys_exit`, as far as they
decide which process runs. Kernel code is not interrupted, so a call runs until
it returns to user mode or calls the scheduler; a process that the scheduler
takes off the processor goes on, when it is switched in again, at the point that
its kernel stack remembers.

A process control block is named by its pid. They are never freed, so that
`pidcounter` does not wrap; the first one is made by `procalloc`, the others by
`fork`.
-/

namespace Rpos

open Base

inductive ProcState
  | blocked
  | ready
  | running
  | terminated
  deriving DecidableEq

inductive Queue
  | runqueue
  | waitList (mutex : ℕ)
  | rdWait
  deriving DecidableEq

/-- The links a process owns: `runqueue` in its pcb, and the wait entries on its
kernel stack in `mutex_acquire` and in `pipe_read`. -/
inductive EntryKind
  | runqueue
  | waiter
  | reader
  deriving DecidableEq

def Queue.kind : Queue → EntryKind
  | .runqueue => .runqueue
  | .waitList _ => .waiter
  | .rdWait => .reader

/-- A `list_head_t`. -/
inductive Node
  | head (q : Queue)
  | entry (kind : EntryKind) (proc : ℕ)
  deriving DecidableEq

/-- The process whose structure holds the link: what `list_entry` leads to, and
`private` of a wait entry. -/
def Node.proc : Node → ℕ
  | .head _ => 0
  | .entry _ p => p

inductive Kont
  /-- It returns to user mode. -/
  | user
  /-- The loop of `idle`. -/
  | idle
  /-- After `deschedule` in the loop of `mutex_acquire`. -/
  | acquire (mutex : ℕ)
  /-- After `deschedule` in the loop of `pipe_read`. -/
  | read (buf : ℕ → UInt8) (count : Word)
  /-- After `deschedule` in the loop of `sys_waitid`. -/
  | waitid (child : ℕ)
  /-- After `deschedule` in `sys_nanosleep`. -/
  | nanosleep
  /-- After `scheduler` in `reap`. -/
  | exited

structure Kernel where
  links : Links Node
  -- the pcbs, field by field
  state : ℕ → ProcState
  parent : ℕ → ℕ
  children : ℕ → List ℕ
  waitingOn : ℕ → ℕ
  kont : ℕ → Kont
  pidcounter : ℕ
  current : ℕ
  -- the mutexes: `owner` is a pcb or null
  owner : ℕ → Option ℕ
  waitLock : ℕ → ℕ
  pipe : PipeData
  sleepQueue : Pq
  -- the compare value of the virtual timer while it is enabled
  timer : Option Word
  -- not in the code: who is between `mutex_acquire` and `mutex_release`, and
  -- whether `list_add` was ever given a linked node of the runqueue
  holders : ℕ → List ℕ
  relinked : Bool

def idleProc : ℕ := 0

def waitingAll : ℕ := 2 ^ 32 - 1

def maxProcesses : ℕ := 64

def clockHz : Word := 1000000

namespace Kernel

def setState (s : Kernel) (p : ℕ) (x : ProcState) : Kernel :=
  { s with state := Function.update s.state p x }

def setKont (s : Kernel) (p : ℕ) (k : Kont) : Kernel :=
  { s with kont := Function.update s.kont p k }

/-- `list_add(&proc->runqueue, &runqueue)`. -/
def enqueue (s : Kernel) (p : ℕ) : Kernel :=
  { s with
    links := s.links.listAdd (.entry .runqueue p) (.head .runqueue)
    relinked := s.relinked || !s.links.listEmpty (.entry .runqueue p) }

/-- `list_remove(&proc->runqueue)`. -/
def dequeue (s : Kernel) (p : ℕ) : Kernel :=
  { s with links := s.links.listRemove (.entry .runqueue p) }

/-! ## `scheduler.c` -/

def preContextSwitch (s : Kernel) (newproc : ℕ) : Kernel :=
  { s with current := newproc }.setState newproc .running

def scheduler (s : Kernel) : Kernel :=
  let active := s.current
  if s.links.listEmpty (.head .runqueue) then
    if s.state active = .running then s
    else s.preContextSwitch idleProc
  else
    let newproc := (s.links.next (.head .runqueue)).proc
    if newproc = active then s
    else
      let s := if newproc ≠ 0 then s.dequeue newproc else s
      let s :=
        if s.state active = .running then
          let s := s.setState active .ready
          if active ≠ 0 then s.enqueue active else s
        else s
      s.preContextSwitch newproc

/-- `deschedule` up to its call of the scheduler. -/
def leaveProcessor (s : Kernel) : Kernel :=
  if s.state s.current = .running then
    (s.setState s.current .blocked).dequeue s.current
  else s

def deschedule (s : Kernel) : Kernel := s.leaveProcessor.scheduler

def reschedule (s : Kernel) (p : ℕ) : Kernel := (s.setState p .ready).enqueue p

/-- `add_to_schedule`, without the list of all processes. -/
def addToSchedule (s : Kernel) (p : ℕ) : Kernel := (s.setState p .ready).enqueue p

/-- How a system call or an interrupt handler ends: it returns, possibly with a
value, or it calls `scheduler` or `deschedule`. -/
inductive Outcome
  | returns (value : Option ℕ) (s : Kernel)
  | schedules (s : Kernel)
  | deschedules (s : Kernel)

def reap (s : Kernel) : Outcome :=
  let current := s.current
  let s := s.setState current .terminated
  let parent := s.parent current
  let s :=
    if s.waitingOn parent = current ∨ s.waitingOn parent = waitingAll then
      (s.setState parent .ready).enqueue parent
    else s
  .schedules (s.setKont current .exited)

/-! ## `wait.c` and `mutex.c` -/

def defineWait (s : Kernel) (kind : EntryKind) : Kernel :=
  { s with links := s.links.initListHead (.entry kind s.current) }

def defaultWakeFn (s : Kernel) (entry : Node) : Kernel := s.reschedule entry.proc

/-- `spinlock_acquire`, which spins for ever on a lock that is not free. -/
def spinlockAcquire (s : Kernel) (mutex : ℕ) : Option Kernel :=
  if s.waitLock mutex = 0 then
    some { s with waitLock := Function.update s.waitLock mutex 1 }
  else none

def spinlockRelease (s : Kernel) (mutex : ℕ) : Kernel :=
  { s with waitLock := Function.update s.waitLock mutex 0 }

/-- One round of the loop of `mutex_acquire`. -/
def mutexAcquireLoop (s : Kernel) (mutex : ℕ) : Option Outcome :=
  let current := s.current
  let old := s.owner mutex
  let s := { s with owner := Function.update s.owner mutex (some current) }
  if old = none then
    some (.returns none ({ s with
      holders := Function.update s.holders mutex (current :: s.holders mutex)
      }.setKont current .user))
  else
    (s.spinlockAcquire mutex).map fun s =>
      let s :=
        if s.links.listEmpty (.entry .waiter current) then
          { s with links :=
            s.links.listAdd (.entry .waiter current) (.head (.waitList mutex)) }
        else s
      let s := s.setState current .blocked
      .deschedules ((s.spinlockRelease mutex).setKont current (.acquire mutex))

def mutexAcquire (s : Kernel) (mutex : ℕ) : Option Outcome :=
  (s.defineWait .waiter).mutexAcquireLoop mutex

def mutexRelease (s : Kernel) (mutex : ℕ) : Option Outcome :=
  let s := { s with
    owner := Function.update s.owner mutex none
    holders := Function.update s.holders mutex ((s.holders mutex).erase s.current) }
  (s.spinlockAcquire mutex).map fun s =>
    let s :=
      if s.links.listEmpty (.head (.waitList mutex)) then s
      else
        let entry := s.links.next (.head (.waitList mutex))
        let s := s.defaultWakeFn entry
        { s with links := s.links.listRemove entry }
    .schedules (s.spinlockRelease mutex)

/-! ## The keyboard pipe -/

/-- One round of the loop of `pipe_read`, and what follows it. -/
def pipeReadLoop (s : Kernel) (buf : ℕ → UInt8) (count : Word) : Outcome :=
  match pipeRead s.pipe buf count with
  | none =>
      let s :=
        if s.links.listEmpty (.head .rdWait) then
          { s with links :=
            s.links.listAdd (.entry .reader s.current) (.head .rdWait) }
        else s
      .deschedules (s.setKont s.current (.read buf count))
  | some (r, pipe) =>
      .returns (some r.1) ({ s with pipe := pipe }.setKont s.current .user)

/-- `pipe_read`. -/
def sysRead (s : Kernel) (buf : ℕ → UInt8) (count : Word) : Outcome :=
  (s.defineWait .reader).pipeReadLoop buf count

/-- The loop of `wake_listeners`, for at most `fuel` rounds. -/
def wakeListeners : ℕ → Kernel → Option Kernel
  | 0, _ => none
  | fuel + 1, s =>
      if s.links.listEmpty (.head .rdWait) then some s
      else
        let entry := s.links.next (.head .rdWait)
        let s := s.defaultWakeFn entry
        wakeListeners fuel { s with links := s.links.listRemove entry }

/-- `handle_keyboard_event`. There are no more waiting readers than processes. -/
def keyboardEvent (s : Kernel) (c : UInt8) : Option Kernel :=
  if s.pipe.head - s.pipe.tail ≥ s.pipe.ringSize.setWidth 64 then some s
  else wakeListeners (s.pidcounter + 2) { s with pipe := handleKeyboardEvent s.pipe c }

/-! ## `timer.c` -/

def timerNanosleep (s : Kernel) (ns now : Word) : Kernel :=
  let request := ns * clockHz / 1000000000 + now
  let queue := pqAdd s.sleepQueue request s.current
  { s with sleepQueue := queue, timer := some (pqPeek queue).priority }

def handleVirtualTimer (s : Kernel) : Kernel :=
  let node := (pqPop s.sleepQueue).1
  let queue := (pqPop s.sleepQueue).2
  let s := { s with sleepQueue := queue }.reschedule node.element
  { s with timer := if queue.items ≠ 0 then some (pqPeek queue).priority else none }

/-! ## `syscalls.c` -/

/-- `sys_nanosleep`; `now` is the counter of the virtual timer. -/
def sysNanosleep (s : Kernel) (ns now : Word) : Outcome :=
  .deschedules ((s.timerNanosleep ns now).setKont s.current .nanosleep)

def cloneActiveProc (s : Kernel) : Kernel :=
  let newproc := s.pidcounter + 1
  { s with
    links := s.links.initListHead (.entry .runqueue newproc)
    state := Function.update s.state newproc (s.state s.current)
    parent := Function.update s.parent newproc s.current
    children := Function.update s.children newproc []
    waitingOn := Function.update s.waitingOn newproc (s.waitingOn s.current)
    kont := Function.update s.kont newproc .user
    pidcounter := newproc }

def sysFork (s : Kernel) : Option Outcome :=
  if s.pidcounter + 2 < 2 ^ 32 then
    let newproc := s.pidcounter + 1
    let s := s.cloneActiveProc.addToSchedule newproc
    some (.returns (some newproc) { s with
      children := Function.update s.children s.current (newproc :: s.children s.current) })
  else none

def echild : ℕ := 10

/-- The loop of `sys_waitid`. -/
def waitidLoop (s : Kernel) (child : ℕ) : Outcome :=
  if s.state child = .terminated then .returns none (s.setKont s.current .user)
  else .deschedules (s.setKont s.current (.waitid child))

def sysWaitid (s : Kernel) (pid : ℕ) : Outcome :=
  if s.children s.current = [] then .returns (some echild) s
  else
    match (s.children s.current).find? (· = pid) with
    | none => .returns none s
    | some child =>
        { s with waitingOn := Function.update s.waitingOn s.current pid }.waitidLoop child

/-! ## Steps -/

end Kernel

/-- What happens next: an interrupt, a system call of the current process, or the
continuation of the call in which it was switched out. -/
inductive KernelEvent
  | tick
  | virtualTimer
  | key (c : UInt8)
  | fork
  | exit
  | waitid (pid : ℕ)
  | nanosleep (ns now : Word)
  | acquire (mutex : ℕ)
  | release (mutex : ℕ)
  | read (buf : ℕ → UInt8) (count : Word)
  | resume

namespace Kernel

/-- The handlers of interrupts; `tick` is also the idle loop. -/
def interrupt (s : Kernel) : KernelEvent → Option Outcome
  | .tick => some (.schedules s)
  | .virtualTimer =>
      if s.timer.isSome then some (.returns none s.handleVirtualTimer) else none
  | .key c => (s.keyboardEvent c).map .schedules
  | _ => none

/-- The system calls. A mutex is released by its holder only. -/
def syscall (s : Kernel) : KernelEvent → Option Outcome
  | .fork => s.sysFork
  | .exit => some s.reap
  | .waitid pid => some (s.sysWaitid pid)
  | .nanosleep ns now => some (s.sysNanosleep ns now)
  | .acquire mutex => s.mutexAcquire mutex
  | .release mutex =>
      if s.current ∈ s.holders mutex then s.mutexRelease mutex else none
  | .read buf count => some (s.sysRead buf count)
  | e => s.interrupt e

/-- The call in which the current process was switched out goes on. -/
def resume (s : Kernel) : Kont → Option Outcome
  | .acquire mutex => s.mutexAcquireLoop mutex
  | .read buf count => some (s.pipeReadLoop buf count)
  | .waitid child => some (s.waitidLoop child)
  | .nanosleep => some (.returns none (s.setKont s.current .user))
  | _ => none

/-- The kernel code that runs on an event, up to its end or to the scheduler. -/
def run (s : Kernel) (e : KernelEvent) : Option Outcome :=
  match s.kont s.current with
  | .user => s.syscall e
  | .idle => s.interrupt e
  | k => match e with
    | .resume => s.resume k
    | _ => none

/-- The value returned, if the call is over, and the state with the scheduler's
work done. -/
def Outcome.settle : Outcome → Option ℕ × Kernel
  | .returns value s => (value, s)
  | .schedules s => (none, s.scheduler)
  | .deschedules s => (none, s.deschedule)

def Outcome.handOff : Outcome → Option Kernel
  | .returns _ _ => none
  | .schedules s => some s
  | .deschedules s => some s.leaveProcessor

def step (s : Kernel) (e : KernelEvent) : Option (Option ℕ × Kernel) :=
  (s.run e).map Outcome.settle

/-- `scheduler_init` and `keyboard_init`: the idle process. What has not been
allocated yet counts as terminated. -/
def init (buf : Word) (page : ℕ → UInt8) : Kernel where
  links := ⟨id, id⟩
  state := Function.update (fun _ => .terminated) idleProc .ready
  parent := fun _ => idleProc
  children := fun _ => []
  waitingOn := fun _ => 0
  kont := Function.update (fun _ => .user) idleProc .idle
  pidcounter := 1
  current := idleProc
  owner := fun _ => none
  waitLock := fun _ => 0
  pipe := keyboardInit buf page
  sleepQueue := ⟨fun _ => ⟨0, 0⟩, maxProcesses, 0⟩
  timer := none
  holders := fun _ => []
  relinked := false

/-- `add_shell_to_scheduler`: the first process, a child of the idle process. -/
def addShell (s : Kernel) : Kernel :=
  let shell := s.pidcounter + 1
  { s with
    parent := Function.update s.parent shell s.current
    pidcounter := shell
    current := shell }.addToSchedule shell

def startScheduler (s : Kernel) : Kernel :=
  (s.setState s.current .running).dequeue s.current

def boot (buf : Word) (page : ℕ → UInt8) : Kernel :=
  (init buf page).addShell.startScheduler

end Kernel

end Rpos
