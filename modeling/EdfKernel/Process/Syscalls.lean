import EdfKernel.Process.Lifecycle

/-!
# System calls from the stub to the handler

The stubs of `user/libs/syscall.c` put their arguments into registers, and the functions
`sys_*` of `kern/syscall/syscall.c` read them from the trap frame.  `syscall` takes five
variable arguments whatever the number it is passed; the words behind those that are passed
belong to the frame of the stub and to that of its caller in `ulib.c`.

The `Makefile` compiles the user library without optimisation.  A stub then pushes what it
passes on right below the `ebp` that it has saved, over which are its return address and the
arguments that its caller has pushed.  The handler of `forkRT` relies on this.
-/

namespace EdfKernel.Syscalls

def sysExitNum : UInt32 := 1

def sysForkNum : UInt32 := 2

def sysWaitNum : UInt32 := 3

def sysExecNum : UInt32 := 4

def sysCloneNum : UInt32 := 5

def sysExitThreadNum : UInt32 := 9

def sysYieldNum : UInt32 := 10

def sysSleepNum : UInt32 := 11

def sysKillNum : UInt32 := 12

def sysGettimeNum : UInt32 := 17

def sysGetpidNum : UInt32 := 18

def sysBrkNum : UInt32 := 19

def sysMmapNum : UInt32 := 20

def sysMunmapNum : UInt32 := 21

def sysShmemNum : UInt32 := 22

def sysPutcNum : UInt32 := 30

def sysPgdirNum : UInt32 := 31

def sysForkRTNum : UInt32 := 32

/-- The part of `struct trapframe` that the system calls read. -/
structure Trapframe where
  regEdi : UInt32
  regEsi : UInt32
  regEbx : UInt32
  regEdx : UInt32
  regEcx : UInt32
  regEax : UInt32
  tfEsp : UInt32
  deriving DecidableEq, Repr

/-! ## The user library -/

/-- What a stub passes to `syscall`. -/
structure Stub where
  num : UInt32
  args : List UInt32
  deriving DecidableEq, Repr

/-- What the frame of a stub holds besides arguments, and the words `above` the arguments that
the caller of the stub has pushed. -/
structure Frame where
  savedEbp : UInt32
  returnAddress : UInt32
  above : Nat → UInt32

/-- The words over the number, from what the stub passes on to what its caller has `pushed`. -/
def Stub.words (stub : Stub) (frame : Frame) (pushed : List UInt32) : List UInt32 :=
  stub.args ++ [frame.savedEbp, frame.returnAddress] ++ pushed

/-- `va_arg` reads one word after the other. -/
def vaArg (words : List UInt32) (above : Nat → UInt32) (i : Nat) : UInt32 :=
  words.getD i (above (i - words.length))

/-- `syscall` of the user library, up to the trap. -/
def Stub.syscall (stub : Stub) (frame : Frame) (pushed : List UInt32) (esp : UInt32) :
    Trapframe where
  regEax := stub.num
  regEdx := vaArg (stub.words frame pushed) frame.above 0
  regEcx := vaArg (stub.words frame pushed) frame.above 1
  regEbx := vaArg (stub.words frame pushed) frame.above 2
  regEdi := vaArg (stub.words frame pushed) frame.above 3
  regEsi := vaArg (stub.words frame pushed) frame.above 4
  tfEsp := esp

namespace User

def sysExit (errorCode : UInt32) : Stub := ⟨sysExitNum, [errorCode]⟩

def sysFork : Stub := ⟨sysForkNum, []⟩

def sysForkRT : Stub := ⟨sysForkRTNum, []⟩

def sysWait (pid store : UInt32) : Stub := ⟨sysWaitNum, [pid, store]⟩

def sysYield : Stub := ⟨sysYieldNum, []⟩

def sysSleep (time : UInt32) : Stub := ⟨sysSleepNum, [time]⟩

def sysKill (pid : UInt32) : Stub := ⟨sysKillNum, [pid]⟩

def sysGettime : Stub := ⟨sysGettimeNum, []⟩

def sysGetpid : Stub := ⟨sysGetpidNum, []⟩

def sysBrk (brkStore : UInt32) : Stub := ⟨sysBrkNum, [brkStore]⟩

def sysMmap (addrStore len mmapFlags : UInt32) : Stub := ⟨sysMmapNum, [addrStore, len, mmapFlags]⟩

def sysMunmap (addr len : UInt32) : Stub := ⟨sysMunmapNum, [addr, len]⟩

def sysShmem (addrStore len mmapFlags : UInt32) : Stub :=
  ⟨sysShmemNum, [addrStore, len, mmapFlags]⟩

def sysPutc (c : UInt32) : Stub := ⟨sysPutcNum, [c]⟩

def sysPgdir : Stub := ⟨sysPgdirNum, []⟩

end User

/-- The calls of the user library: those of `ulib.c`, and `sys_brk` and `sys_putc`, which are
called directly. -/
inductive LibraryCall
  | exit (errorCode : UInt32)
  | fork
  | forkRT (ct pt : UInt32)
  | wait
  | waitpid (pid store : UInt32)
  | yield
  | sleep (time : UInt32)
  | kill (pid : UInt32)
  | gettimeMsec
  | getpid
  | brk (brkStore : UInt32)
  | mmap (addrStore len mmapFlags : UInt32)
  | munmap (addr len : UInt32)
  | shmem (addrStore len mmapFlags : UInt32)
  | putc (c : UInt32)
  | printPgdir
  deriving DecidableEq, Repr

/-- The stub that a call of the library ends in. -/
def LibraryCall.stub : LibraryCall → Stub
  | .exit errorCode => User.sysExit errorCode
  | .fork => User.sysFork
  | .forkRT _ _ => User.sysForkRT
  | .wait => User.sysWait 0 0
  | .waitpid pid store => User.sysWait pid store
  | .yield => User.sysYield
  | .sleep time => User.sysSleep time
  | .kill pid => User.sysKill pid
  | .gettimeMsec => User.sysGettime
  | .getpid => User.sysGetpid
  | .brk brkStore => User.sysBrk brkStore
  | .mmap addrStore len mmapFlags => User.sysMmap addrStore len mmapFlags
  | .munmap addr len => User.sysMunmap addr len
  | .shmem addrStore len mmapFlags => User.sysShmem addrStore len mmapFlags
  | .putc c => User.sysPutc c
  | .printPgdir => User.sysPgdir

/-- The arguments that are pushed for the stub.  `forkRT` calls `sys_forkRT(ct, pt)`, although
`sys_forkRT` has no parameters. -/
def LibraryCall.pushed : LibraryCall → List UInt32
  | .exit errorCode => [errorCode]
  | .fork => []
  | .forkRT ct pt => [ct, pt]
  | .wait => [0, 0]
  | .waitpid pid store => [pid, store]
  | .yield => []
  | .sleep time => [time]
  | .kill pid => [pid]
  | .gettimeMsec => []
  | .getpid => []
  | .brk brkStore => [brkStore]
  | .mmap addrStore len mmapFlags => [addrStore, len, mmapFlags]
  | .munmap addr len => [addr, len]
  | .shmem addrStore len mmapFlags => [addrStore, len, mmapFlags]
  | .putc c => [c]
  | .printPgdir => []

/-! ## The kernel -/

/-- The functions that the handlers call, with their arguments. -/
inductive Handler
  | doExit (errorCode : UInt32)
  | doFork (cloneFlags stack : UInt32)
  | doForkRT (cloneFlags stack ct pt : UInt32)
  | doWait (pid store : UInt32)
  | doExecve (name len binary size : UInt32)
  | doExitThread (errorCode : UInt32)
  | doYield
  | doSleep (time : UInt32)
  | doKill (pid : UInt32) (errorCode : Int)
  | ticks
  | pid
  | doBrk (brkStore : UInt32)
  | doMmap (addrStore len mmapFlags : UInt32)
  | doMunmap (addr len : UInt32)
  | doShmem (addrStore len mmapFlags : UInt32)
  | cputchar (c : UInt32)
  | printPgdir
  deriving DecidableEq, Repr

namespace Kern

def sysExit (arg : Nat → UInt32) : Handler := .doExit (arg 0)

def sysFork (tf : Trapframe) : Handler := .doFork 0 tf.tfEsp

def sysForkRT (tf : Trapframe) (arg : Nat → UInt32) : Handler := .doForkRT 0 tf.tfEsp (arg 2) (arg 3)

def sysWait (arg : Nat → UInt32) : Handler := .doWait (arg 0) (arg 1)

def sysExec (arg : Nat → UInt32) : Handler := .doExecve (arg 0) (arg 1) (arg 2) (arg 3)

def sysClone (tf : Trapframe) (arg : Nat → UInt32) : Handler :=
  .doFork (arg 0) (if arg 1 = 0 then tf.tfEsp else arg 1)

def sysExitThread (arg : Nat → UInt32) : Handler := .doExitThread (arg 0)

def sysSleep (arg : Nat → UInt32) : Handler := .doSleep (arg 0)

def sysKill (arg : Nat → UInt32) : Handler := .doKill (arg 0) (-eKilled)

def sysBrk (arg : Nat → UInt32) : Handler := .doBrk (arg 0)

def sysMmap (arg : Nat → UInt32) : Handler := .doMmap (arg 0) (arg 1) (arg 2)

def sysMunmap (arg : Nat → UInt32) : Handler := .doMunmap (arg 0) (arg 1)

def sysShmem (arg : Nat → UInt32) : Handler := .doShmem (arg 0) (arg 1) (arg 2)

def sysPutc (arg : Nat → UInt32) : Handler := .cputchar (arg 0)

end Kern

/-- The table `syscalls`. -/
def syscalls (num : UInt32) (tf : Trapframe) (arg : Nat → UInt32) : Option Handler :=
  if num = sysExitNum then some (Kern.sysExit arg)
  else if num = sysForkNum then some (Kern.sysFork tf)
  else if num = sysWaitNum then some (Kern.sysWait arg)
  else if num = sysExecNum then some (Kern.sysExec arg)
  else if num = sysCloneNum then some (Kern.sysClone tf arg)
  else if num = sysExitThreadNum then some (Kern.sysExitThread arg)
  else if num = sysYieldNum then some .doYield
  else if num = sysKillNum then some (Kern.sysKill arg)
  else if num = sysSleepNum then some (Kern.sysSleep arg)
  else if num = sysGettimeNum then some .ticks
  else if num = sysGetpidNum then some .pid
  else if num = sysBrkNum then some (Kern.sysBrk arg)
  else if num = sysMmapNum then some (Kern.sysMmap arg)
  else if num = sysMunmapNum then some (Kern.sysMunmap arg)
  else if num = sysShmemNum then some (Kern.sysShmem arg)
  else if num = sysPutcNum then some (Kern.sysPutc arg)
  else if num = sysPgdirNum then some .printPgdir
  else if num = sysForkRTNum then some (Kern.sysForkRT tf arg)
  else none

/-- The array `arg` of the kernel's `syscall`. -/
def Trapframe.arg (tf : Trapframe) : Nat → UInt32
  | 0 => tf.regEdx
  | 1 => tf.regEcx
  | 2 => tf.regEbx
  | 3 => tf.regEdi
  | _ => tf.regEsi

/-- `syscall` of the kernel; without a handler it panics. -/
def Trapframe.syscall (tf : Trapframe) : Option Handler :=
  if tf.regEax.toNat < 33 then syscalls tf.regEax tf tf.arg else none

/-- The descriptor that `do_fork` or `do_forkRT` fills in. -/
def Handler.kind : Handler → ForkKind
  | .doForkRT _ _ ct pt => .realTime ct.toInt32.toInt pt.toInt32.toInt
  | _ => .user

/-! ## What arrives -/

/-- The handler that a call means, with the arguments of the call. -/
def LibraryCall.meant (esp : UInt32) : LibraryCall → Handler
  | .exit errorCode => .doExit errorCode
  | .fork => .doFork 0 esp
  | .forkRT ct pt => .doForkRT 0 esp ct pt
  | .wait => .doWait 0 0
  | .waitpid pid store => .doWait pid store
  | .yield => .doYield
  | .sleep time => .doSleep time
  | .kill pid => .doKill pid (-eKilled)
  | .gettimeMsec => .ticks
  | .getpid => .pid
  | .brk brkStore => .doBrk brkStore
  | .mmap addrStore len mmapFlags => .doMmap addrStore len mmapFlags
  | .munmap addr len => .doMunmap addr len
  | .shmem addrStore len mmapFlags => .doShmem addrStore len mmapFlags
  | .putc c => .cputchar c
  | .printPgdir => .printPgdir

/-- The trap frame of a call. -/
def LibraryCall.trapframe (call : LibraryCall) (frame : Frame) (esp : UInt32) : Trapframe :=
  call.stub.syscall frame call.pushed esp

/-- The kernel's handler receives the arguments of every call of the library, and so does the
descriptor of a process that `forkRT` creates. -/
theorem syscall_marshalling (frame : Frame) (esp : UInt32) :
    (∀ call : LibraryCall, (call.trapframe frame esp).syscall = some (call.meant esp)) ∧
    ∀ (ct pt : UInt32) (s : ProcStruct),
      ∃ handler, ((LibraryCall.forkRT ct pt).trapframe frame esp).syscall = some handler ∧
        (Kernel.forkDeadline handler.kind s).computeTime = ct.toInt32.toInt ∧
        (Kernel.forkDeadline handler.kind s).periodTime = pt.toInt32.toInt := by
  have received : ∀ call : LibraryCall,
      (call.trapframe frame esp).syscall = some (call.meant esp) := by
    intro call
    cases call <;> rfl
  refine ⟨received, fun ct pt s => ?_⟩
  exact ⟨_, received (.forkRT ct pt), rfl, rfl⟩

-- `sys_forkRT` passes nothing on, and `va_arg` comes to the arguments that `forkRT` has pushed
-- for it behind the saved `ebp` and the return address.
example (ct pt : UInt32) (frame : Frame) :
    (LibraryCall.forkRT ct pt).stub.words frame (LibraryCall.forkRT ct pt).pushed =
      [frame.savedEbp, frame.returnAddress, ct, pt] :=
  rfl

end EdfKernel.Syscalls
