import NdpOffload.Library.Outcomes
import NdpOffload.Statmon.Table

/-! The sources with a state of their own: `cpustat.rs`, `iostat.rs` and
`eventstat.rs`.  What the kernel returns at one update is an argument. -/
namespace NdpOffload.Statmon.Sources

open Library.Outcomes Library.Text Table

/-- The errors of an update: those of the operating system, those with a
message of the program, those of `str::parse` and those of a counter. -/
inductive Error where
  | io
  | message (text : Chars)
  | parseInt
  | event (stat : WhichStat)
  deriving DecidableEq

abbrev Result (σ : Type) := Outcome Error σ

/-- One file at one update: whether it can be opened and what the update reads from
it, `none` for an I/O error or text that is not UTF-8.  A read goes on from where the
descriptor stands, which is the start of the file unless an earlier read failed. -/
structure Source where
  opens : Bool
  text : Option Chars

/-- A file that the first update reads twice. -/
structure TwiceRead extends Source where
  firstText : Option Chars

/-- The lines of a file, trimmed, without the empty ones. -/
def trimmedLines (text : Chars) : List Chars :=
  ((lines text).map (trim isWhitespace)).filter (· ≠ [])

/-- Parse a counter and store it. -/
def storeU64 {σ : Type} (text : Chars) (store : UInt64 → σ → σ) (s : σ) : Result σ :=
  match parseU64 text with
  | some val => .done (store val s)
  | none => .failed .parseInt s

/-! ### `/proc/stat` -/

inductive CpuTotals where
  | userMode | niceUserMode | systemMode | idle | ioWait | irq | softIrq
  | steal | guest | guestNice
  deriving DecidableEq

def CpuTotals.all : List CpuTotals :=
  [.userMode, .niceUserMode, .systemMode, .idle, .ioWait, .irq, .softIrq, .steal, .guest,
    .guestNice]

/-- `rewound`: the descriptor stands at the start of the file. -/
structure CpuStat where
  isOpen : Bool := false
  rewound : Bool := true
  msPerClk : UInt64 := 0
  cpuTotals : CpuTotals → UInt64 := fun _ => 0
  cpuTotalsLast : CpuTotals → UInt64 := fun _ => 0
  contextSwitches : UInt64 := 0
  contextSwitchesLast : UInt64 := 0
  procsRunning : UInt64 := 0
  procsIoBlocked : UInt64 := 0

def CpuStat.storeTotal (field : CpuTotals) (val : UInt64) (cpu : CpuStat) : CpuStat :=
  { cpu with cpuTotals := Function.update cpu.cpuTotals field (val * cpu.msPerClk) }

def CpuStat.readLine (line : Chars) (cpu : CpuStat) : Result CpuStat :=
  if "cpu ".toList.isPrefixOf line then
    Outcome.each (fun (item : Chars × CpuTotals) => storeU64 item.1 (storeTotal item.2))
      (((words isWhitespace line).drop 1).zip CpuTotals.all) cpu
  else if let some valstr := stripPrefix "ctxt ".toList line then
    storeU64 (trim isWhitespace valstr) (fun val cpu => { cpu with contextSwitches := val }) cpu
  else if let some valstr := stripPrefix "procs_running ".toList line then
    storeU64 (trim isWhitespace valstr) (fun val cpu => { cpu with procsRunning := val }) cpu
  else if let some valstr := stripPrefix "procs_blocked ".toList line then
    storeU64 (trim isWhitespace valstr) (fun val cpu => { cpu with procsIoBlocked := val }) cpu
  else .done cpu

/-- The values of this update become those of the last one. -/
def CpuStat.handOver (cpu : CpuStat) : CpuStat :=
  { cpu with cpuTotalsLast := cpu.cpuTotals, contextSwitchesLast := cpu.contextSwitches }

/-- `CpuStat::update` on an open file.  Only a read that succeeds is followed by the
`seek` back to the start. -/
def CpuStat.extract (text : Option Chars) (cpu : CpuStat) : Result CpuStat :=
  match text with
  | none => .failed .io { cpu.handOver with rewound := false }
  | some text => Outcome.each readLine (trimmedLines text) { cpu.handOver with rewound := true }

/-- `CpuStat::update`.  The first call opens the file and calls itself. -/
def CpuStat.update (clkTck : UInt64) (procStat : TwiceRead) (cpu : CpuStat) : Result CpuStat :=
  if cpu.isOpen then
    cpu.extract procStat.text
  else if !procStat.opens then
    .failed .io cpu
  else if clkTck = 0 then
    .panicked "attempt to divide by zero"
  else
    (CpuStat.extract procStat.firstText
      { cpu with isOpen := true, msPerClk := 1000 / clkTck }).andThen (extract procStat.text)

def CpuStat.cpuTotalsMs (cpu : CpuStat) (i : CpuTotals) : UInt64 :=
  cpu.cpuTotals i - cpu.cpuTotalsLast i

def CpuStat.contextSwitchesDelta (cpu : CpuStat) : UInt64 :=
  cpu.contextSwitches - cpu.contextSwitchesLast

/-! ### `/proc/diskstats` -/

inductive IoTotals where
  | readsCompleted | readsMerged | sectorsRead | msReading
  | writesCompleted | writesMerged | sectorsWritten | msWriting
  deriving DecidableEq

def IoTotals.all : List IoTotals :=
  [.readsCompleted, .readsMerged, .sectorsRead, .msReading, .writesCompleted, .writesMerged,
    .sectorsWritten, .msWriting]

structure IoStat where
  isOpen : Bool := false
  rewound : Bool := true
  ioTotals : IoTotals → UInt64 := fun _ => 0
  ioTotalsLast : IoTotals → UInt64 := fun _ => 0

/-- The digits that the class `\d` matches: a run of ten from each of these. -/
def decimalZeros : List Nat :=
  [0x30, 0x660, 0x6F0, 0x7C0, 0x966, 0x9E6, 0xA66, 0xAE6, 0xB66, 0xBE6, 0xC66, 0xCE6, 0xD66,
    0xDE6, 0xE50, 0xED0, 0xF20, 0x1040, 0x1090, 0x17E0, 0x1810, 0x1946, 0x19D0, 0x1A80, 0x1A90,
    0x1B50, 0x1BB0, 0x1C40, 0x1C50, 0xA620, 0xA8D0, 0xA900, 0xA9D0, 0xA9F0, 0xAA50, 0xABF0,
    0xFF10, 0x104A0, 0x10D30, 0x11066, 0x110F0, 0x11136, 0x111D0, 0x112F0, 0x11450, 0x114D0,
    0x11650, 0x116C0, 0x11730, 0x118E0, 0x11950, 0x11C50, 0x11D50, 0x11DA0, 0x16A60, 0x16AC0,
    0x16B50, 0x1D7CE, 0x1D7D8, 0x1D7E2, 0x1D7EC, 0x1D7F6, 0x1E140, 0x1E2F0, 0x1E950, 0x1FBF0]

def isDecimalDigit (c : Char) : Bool :=
  decimalZeros.any fun first => first ≤ c.toNat && c.toNat < first + 10

/-- What is left after one or more digits, if the text starts so. -/
def skipDigits (text : Chars) : Option Chars :=
  if (text.head?.map isDecimalDigit).getD false then some (text.dropWhile isDecimalDigit) else none

/-- `ignore_set`: `^loop`, `^sd[a-z]\d+` and `^nvme\d+n\d+p`. -/
def ignoreSet (devname : Chars) : Bool :=
  "loop".toList.isPrefixOf devname ||
  (match devname with
    | 's' :: 'd' :: letter :: rest => letter.isLower && (skipDigits rest).isSome
    | _ => false) ||
  (match (stripPrefix "nvme".toList devname).bind skipDigits with
    | some ('n' :: rest) => match skipDigits rest with
        | some ('p' :: _) => true
        | _ => false
    | _ => false)

def IoStat.storeTotal (field : IoTotals) (val : UInt64) (io : IoStat) : IoStat :=
  { io with ioTotals := Function.update io.ioTotals field val }

/-- Every line that is not ignored overwrites the totals. -/
def IoStat.readLine (line : Chars) (io : IoStat) : Result IoStat :=
  let splitter := words isAsciiWhitespace line
  let devname := (splitter.drop 2).headD []
  if devname = [] || ignoreSet devname then
    .done io
  else
    Outcome.each (fun (item : Chars × IoTotals) => storeU64 item.1 (storeTotal item.2))
      ((splitter.drop 3).zip IoTotals.all) io

def IoStat.handOver (io : IoStat) : IoStat := { io with ioTotalsLast := io.ioTotals }

/-- `IoStat::update` on an open file. -/
def IoStat.extract (text : Option Chars) (io : IoStat) : Result IoStat :=
  match text with
  | none => .failed .io { io.handOver with rewound := false }
  | some text => Outcome.each readLine (trimmedLines text) { io.handOver with rewound := true }

def IoStat.update (diskstats : TwiceRead) (io : IoStat) : Result IoStat :=
  if io.isOpen then
    io.extract diskstats.text
  else if !diskstats.opens then
    .failed .io io
  else
    (IoStat.extract diskstats.firstText { io with isOpen := true }).andThen
      (extract diskstats.text)

def IoStat.ioTotalsMs (io : IoStat) (i : IoTotals) : UInt64 := io.ioTotals i - io.ioTotalsLast i

/-! ### Performance counters -/

inductive HardwareEventType where
  | cpuCycles | instructions | cacheReferences | cacheMisses | branchInstructions | branchMisses
  | stalledCyclesFrontend | stalledCyclesBackend | refCPUCycles
  deriving DecidableEq

inductive SoftwareEventType where
  | pageFaults | pageFaultsMaj | pageFaultsMin | cpuMigrations
  deriving DecidableEq

inductive CacheId where
  | l1D | l1I | dTLB | iTLB
  deriving DecidableEq

inductive CacheOpResultId where
  | access | miss
  deriving DecidableEq

/-- The builders of the counters; the cache events all count read operations. -/
inductive PerfEvent where
  | hwe (type : HardwareEventType)
  | swe (type : SoftwareEventType)
  | cceRead (id : CacheId) (result : CacheOpResultId)
  deriving DecidableEq

structure PerfCounter where
  event : PerfEvent
  cpuid : Nat
  deriving DecidableEq

/-- On which CPUs the kernel grants a counter; there are finitely many CPUs. -/
structure PerfHost where
  opens : PerfEvent → Nat → Bool
  cpus : Nat
  opens_cpus : ∀ event cpuid, cpus ≤ cpuid → opens event cpuid = false

def registeredEvents : List (WhichStat × PerfEvent) :=
  [ (.eventCycles, .hwe .cpuCycles),
    (.eventInstructions, .hwe .instructions),
    (.eventCacheAccesses, .hwe .cacheReferences),
    (.eventCacheMisses, .hwe .cacheMisses),
    (.eventBranches, .hwe .branchInstructions),
    (.eventBranchMisses, .hwe .branchMisses),
    (.eventStalledFrontCycles, .hwe .stalledCyclesFrontend),
    (.eventStalledBackCycles, .hwe .stalledCyclesBackend),
    (.eventRefCycles, .hwe .refCPUCycles),
    (.eventPageFaults, .swe .pageFaults),
    (.eventPageFaultsMinor, .swe .pageFaultsMaj),
    (.eventPageFaultsMajor, .swe .pageFaultsMin),
    (.eventCpuMigrations, .swe .cpuMigrations),
    (.eventL1DAccesses, .cceRead .l1D .access),
    (.eventL1DMisses, .cceRead .l1D .miss),
    (.eventL1IAccesses, .cceRead .l1I .access),
    (.eventL1IMisses, .cceRead .l1I .miss),
    (.eventDTLBAccesses, .cceRead .dTLB .access),
    (.eventDTLBMisses, .cceRead .dTLB .miss),
    (.eventITLBAccesses, .cceRead .iTLB .access),
    (.eventITLBMisses, .cceRead .iTLB .miss) ]

/-- The counters that `with_event` opens: those of the CPUs from 0 up to the
first one without. -/
def openCounters (host : PerfHost) (event : PerfEvent) : List PerfCounter :=
  ((List.range host.cpus).takeWhile (host.opens event)).map (PerfCounter.mk event)

/-- `with_event` registers a statistic unless no counter could be opened. -/
def withEvent (host : PerfHost) (entry : WhichStat × PerfEvent) :
    Option (WhichStat × List PerfCounter) :=
  let pcs := openCounters host entry.2
  if pcs = [] then none else some (entry.1, pcs)

/-- The map of counters, as a list in the order in which it is iterated.  That
order is arbitrary but fixed, since the map is never changed after `new`. -/
structure EventStat where
  events : List (WhichStat × List PerfCounter)
  registered : ∀ entry ∈ events, entry.1 ∈ registeredEvents.map Prod.fst

/-- `EventStat::new`, up to the order of the map. -/
def EventStat.IsNew (host : PerfHost) (events : EventStat) : Prop :=
  events.events.Perm (registeredEvents.filterMap (withEvent host))

/-- What the kernel answers to the requests on counters at one moment. -/
structure Counters where
  reset : PerfCounter → Bool
  start : PerfCounter → Bool
  stop : PerfCounter → Bool
  read : PerfCounter → Option UInt64

def EventStat.start (counters : Counters) (events : EventStat) : Bool :=
  events.events.all fun entry => entry.2.all fun event =>
    counters.reset event && counters.start event

def EventStat.stop (counters : Counters) (events : EventStat) : Bool :=
  events.events.all fun entry => entry.2.all counters.stop

/-- The sum of the readings, or `none` at the first failed one. -/
def sumReadings (counters : Counters) (events : List PerfCounter) : Option UInt64 :=
  events.foldlM (fun val event => (counters.read event).map (val + ·)) 0

variable {F : Type}

def updateEvent (counters : Counters) (entry : WhichStat × List PerfCounter)
    (stats : StatArray F) : Result (StatArray F) :=
  match sumReadings counters entry.2 with
  | some val => .done (stats.seti entry.1 val.toInt64)
  | none => .failed (.event entry.1) stats

def EventStat.update (counters : Counters) (events : EventStat) (stats : StatArray F) :
    Result (StatArray F) :=
  Outcome.each (updateEvent counters) events.events stats

end NdpOffload.Statmon.Sources
