import NdpOffload.Library.Paging

/-! The memories of `faultspeed` and their fault handler.  A machine holds one
address space with the `WMemory` objects in it, which are named by number where
the source has pointers.  System calls succeed. -/
namespace NdpOffload.Faultspeed.Memory

open Library.Paging

def wmemSize : Nat := 8 * 1024 * 1024 * 1024

structure WMemory where
  base : Nat
  size : Nat

inductive UffdEvent where
  | pagefault
  | other
  deriving DecidableEq

structure UffdMsg where
  event : UffdEvent
  writeProtect : Bool
  address : Nat
  ptid : Nat

/-- With fewer than one thread the handler runs in the signal handler for
SIGBUS. -/
structure UffdHandler where
  threadCount : Int
  snapshot : Option Nat
  mappings : List (Nat × Nat)
  faults : UInt64

structure Machine where
  pageBits : Nat
  space : Space UInt8
  memories : Nat → WMemory
  handler : UffdHandler
  tid : Nat

namespace Machine

variable (s : Machine)

def pageSize : Nat := 2 ^ s.pageBits

def page (address : Nat) : Nat := address / s.pageSize

/-- The mask `~(pageSize - 1)`. -/
def alignDown (address : Nat) : Nat := s.page address * s.pageSize

def base (memory : Nat) : Nat := (s.memories memory).base

def size (memory : Nat) : Nat := (s.memories memory).size

def setSize (memory newSize : Nat) : Machine :=
  { s with
    memories := Function.update s.memories memory { s.memories memory with size := newSize } }

/-! ### System calls -/

def mmapNone (start length : Nat) : Machine :=
  { s with space := s.space.remap s.pageSize start length }

def mprotect (start length : Nat) (readWrite : Bool) : Machine :=
  { s with space := s.space.protect s.pageSize start length readWrite }

def madviseDontneed (start length : Nat) : Machine :=
  { s with space := s.space.discard s.pageSize start length }

def registerAddressRange (start length : Nat) : Machine :=
  { s with space := s.space.watch s.pageSize start length }

def install (page : Nat) (frame : Nat → UInt8) : Machine :=
  { s with space := s.space.install page frame }

/-- The constructor of `WMemory`, at the address that the kernel has chosen. -/
def construct (memory base : Nat) : Machine :=
  mmapNone { s with memories := Function.update s.memories memory ⟨base, 0⟩ } base wmemSize

/-! ### The fault handler -/

/-- How a call of `handleOne` ends. -/
inductive Reply where
  | resolved (s : Machine)
  | signalled (tid : Nat) (s : Machine)
  | terminated
  | thrown

/-- The bytes the kernel reads from user memory. -/
def sourceByte (address : Nat) : UInt8 :=
  match s.space.frame (s.page address) with
  | some frame => frame (address % s.pageSize)
  | none => 0

/-- The kernel refuses to replace a page that is there. -/
def zeroPages (address : Nat) : Reply :=
  match s.space.frame (s.page address) with
  | some _ => .thrown
  | none => .resolved (s.install (s.page address) fun _ => 0)

def copyPages (target source : Nat) : Reply :=
  match s.space.frame (s.page target) with
  | some _ => .thrown
  | none =>
      if s.space.accessible (s.page source) &&
          s.space.accessible (s.page (source + s.pageSize - 1)) then
        .resolved (s.install (s.page target) fun i => s.sourceByte (source + i))
      else .thrown

/-- The ranges are not registered for write protection. -/
def writeProtectPages : Reply := .thrown

def countFault : Machine :=
  { s with handler := { s.handler with faults := s.handler.faults + 1 } }

def handleOne (m : UffdMsg) : Reply :=
  match m.event with
  | .other => .terminated
  | .pagefault =>
      let address := s.alignDown m.address
      let found := s.handler.mappings.find? fun mapping =>
        decide (mapping.1 ≤ address) && decide (address < mapping.1 + wmemSize)
      match found with
      | none => .terminated
      | some (_, wmem) =>
          if address < s.base wmem ∨ s.base wmem + wmemSize ≤ address then .terminated
          else if ¬ m.address < s.base wmem + s.size wmem then .signalled m.ptid s
          else
            let counted := s.countFault
            if m.writeProtect then writeProtectPages
            else
              match s.handler.snapshot with
              | some snapshot =>
                  if address < s.size snapshot then counted.copyPages address (s.base snapshot)
                  else counted.zeroPages address
              | none => counted.zeroPages address

def setSnapshot (snapshot : Option Nat) : Machine :=
  { s with handler := { s.handler with snapshot := snapshot } }

def add (memory : Nat) : Machine :=
  let pushed := { s with
    handler := { s.handler with
      mappings := s.handler.mappings ++ [(s.base memory, memory)] } }
  (pushed.mprotect (s.base memory) (wmemSize / 2) true).registerAddressRange
    (s.base memory) wmemSize

/-! ### Accesses -/

/-- What the accessing thread sees. -/
inductive Observation where
  | byte (value : UInt8)
  | stored
  | resized
  | restored
  | segv
  | stopped
  deriving DecidableEq

inductive Access where
  | frame (frame : Nat → UInt8)
  | segv
  | stopped

/-- The event of a missing page.  The signal handler gets the exact address, a
worker thread that of the page. -/
def faultMsg (address : Nat) : UffdMsg where
  event := .pagefault
  writeProtect := false
  address := if s.handler.threadCount < 1 then address else s.alignDown address
  ptid := s.tid

/-- An access is repeated after the handler has run; it stops if the page is
still missing. -/
def access (address : Nat) : Machine × Access :=
  match s.space.touch (s.page address) with
  | .denied => (s, .segv)
  | .present frame => (s, .frame frame)
  | .absent => (s.install (s.page address) fun _ => 0, .frame fun _ => 0)
  | .missing =>
      match s.handleOne (s.faultMsg address) with
      | .resolved t =>
          match t.space.frame (s.page address) with
          | some frame => (t, .frame frame)
          | none => (t, .stopped)
      | .signalled _ t => (t, .segv)
      | .terminated => (s, .stopped)
      | .thrown => (s, .stopped)

def read (memory offset : Nat) : Machine × Observation :=
  let address := s.base memory + offset
  match s.access address with
  | (t, .frame frame) => (t, .byte (frame (address % s.pageSize)))
  | (t, .segv) => (t, .segv)
  | (t, .stopped) => (t, .stopped)

def write (memory offset : Nat) (value : UInt8) : Machine × Observation :=
  let address := s.base memory + offset
  match s.access address with
  | (t, .frame frame) =>
      (t.install (s.page address) (Function.update frame (address % s.pageSize) value), .stored)
  | (t, .segv) => (t, .segv)
  | (t, .stopped) => (t, .stopped)

/-- The copy of the first `count` bytes, in order. -/
def copyData (other memory : Nat) : Nat → Machine × Observation
  | 0 => (s, .restored)
  | count + 1 =>
      match copyData other memory count with
      | (t, .restored) =>
          match t.read other count with
          | (u, .byte value) =>
              match u.write memory count value with
              | (v, .stored) => (v, .restored)
              | failed => failed
          | failed => failed
      | failed => failed

/-! ### Resizing -/

def resizeWavm (memory newSize : Nat) : Machine :=
  let oldSize := s.size memory
  let changed :=
    if newSize < oldSize then s.mmapNone (s.base memory + newSize) (oldSize - newSize)
    else if oldSize < newSize then
      s.mprotect (s.base memory + oldSize) (newSize - oldSize) true
    else s
  changed.setSize memory newSize

def resizeWavmDontneed (memory newSize : Nat) (useMprotect : Bool) : Machine :=
  let oldSize := s.size memory
  let changed :=
    if newSize < oldSize then
      let dropped := s.madviseDontneed (s.base memory + newSize) (oldSize - newSize)
      if useMprotect then dropped.mprotect (s.base memory + newSize) (oldSize - newSize) false
      else dropped
    else if oldSize < newSize then
      s.mprotect (s.base memory + oldSize) (newSize - oldSize) true
    else s
  changed.setSize memory newSize

def resizeWavmUffd (memory newSize : Nat) : Machine :=
  let oldSize := s.size memory
  let changed :=
    if newSize < oldSize then s.madviseDontneed (s.base memory + newSize) (oldSize - newSize)
    else s
  changed.setSize memory newSize

/-- `std::ranges::copy(other.data(), base)`. -/
def copyAll (other memory : Nat) : Machine × Observation := s.copyData other memory (s.size other)

def restoreFromWavm (memory other : Nat) : Machine × Observation :=
  (s.resizeWavm memory (s.size other)).copyAll other memory

def restoreFromDontneed (memory other : Nat) (useMprotect : Bool) : Machine × Observation :=
  (s.resizeWavmDontneed memory (s.size other) useMprotect).copyAll other memory

def restoreFromUffd (memory other : Nat) : Machine × Observation :=
  (s.resizeWavmUffd memory (s.size other)).copyAll other memory

end Machine

/-! ### The strategies -/

inductive Strategy where
  | wavm
  | dontneed (useMprotect : Bool)
  | uffd
  deriving DecidableEq

namespace Machine

def resize (strategy : Strategy) (memory newSize : Nat) (s : Machine) : Machine :=
  match strategy with
  | .wavm => s.resizeWavm memory newSize
  | .dontneed useMprotect => s.resizeWavmDontneed memory newSize useMprotect
  | .uffd => s.resizeWavmUffd memory newSize

def restoreFrom (strategy : Strategy) (memory other : Nat) (s : Machine) : Machine × Observation :=
  match strategy with
  | .wavm => s.restoreFromWavm memory other
  | .dontneed useMprotect => s.restoreFromDontneed memory other useMprotect
  | .uffd => s.restoreFromUffd memory other

inductive Op where
  | resize (newSize : Nat)
  | restoreFrom (other : Nat)
  | read (offset : Nat)
  | write (offset : Nat) (value : UInt8)

def perform (strategy : Strategy) (memory : Nat) (s : Machine) : Op → Machine × Observation
  | .resize newSize => (s.resize strategy memory newSize, .resized)
  | .restoreFrom other => s.restoreFrom strategy memory other
  | .read offset => s.read memory offset
  | .write offset value => s.write memory offset value

def after (strategy : Strategy) (memory : Nat) (s : Machine) (ops : List Op) : Machine :=
  ops.foldl (fun t op => (t.perform strategy memory op).1) s

/-- The observations along a sequence of operations. -/
def trace (strategy : Strategy) (memory : Nat) : Machine → List Op → List Observation
  | _, [] => []
  | s, op :: ops =>
      (s.perform strategy memory op).2 :: trace strategy memory (s.perform strategy memory op).1 ops

end Machine

end NdpOffload.Faultspeed.Memory
