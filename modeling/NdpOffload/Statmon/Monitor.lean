import NdpOffload.Statmon.Sources

/-! `Stats` of `stats.rs`: the shared state of the monitor, its update from the
kernel's files, the range commands and the packet it sends. -/
namespace NdpOffload.Statmon.Monitor

open Library.Outcomes Library.Text Table Sources

variable {F : Type}

/-- The fields named `Rewound` say that the descriptor stands at the start of its file. -/
structure Stats (F : Type) where
  inRange : Bool := false
  hostPrefix : Chars := []
  netIface : Chars := []
  loadavgOpen : Bool := false
  loadavgRewound : Bool := true
  meminfoOpen : Bool := false
  meminfoRewound : Bool := true
  netOpen : Bool := false
  netRewound : Bool := true
  faasmOpen : Bool := false
  faasmRewound : Bool := true
  cpu : CpuStat := {}
  events : EventStat
  stats : StatArray F
  netRxRef : Int64 := 0
  netRxeRef : Int64 := 0
  netTxRef : Int64 := 0
  netTxeRef : Int64 := 0
  io : IoStat := {}

def Stats.new [F64 F] (events : EventStat) : Stats F where
  events := events
  stats := statsInit

/-- Everything one call of `update` reads from the system. -/
structure Moment where
  loadavg : Source
  meminfo : Source
  faasm : Source
  net : Source
  procStat : TwiceRead
  diskstats : TwiceRead
  clkTck : UInt64
  counters : Counters

def Stats.setNow (s : Stats F) (which : WhichStat) (value : StatValue F) : Stats F :=
  { s with stats := s.stats.setNow which value }

def Stats.seti (s : Stats F) (which : WhichStat) (value : Int64) : Stats F :=
  s.setNow which (.int value)

@[simp] theorem seti_stats_self (s : Stats F) (which : WhichStat) (value : Int64) :
    (s.seti which value).stats which = (s.stats which).setNow (.int value) := by
  simp [Stats.seti, Stats.setNow, StatArray.setNow]

@[simp] theorem seti_stats_of_ne (s : Stats F) {which other : WhichStat} (value : Int64)
    (hne : other ≠ which) : (s.seti which value).stats other = s.stats other := by
  simp [Stats.seti, Stats.setNow, StatArray.setNow, hne]

@[simp] theorem seti_cpu (s : Stats F) (which : WhichStat) (value : Int64) :
    (s.seti which value).cpu = s.cpu := rfl

@[simp] theorem seti_io (s : Stats F) (which : WhichStat) (value : Int64) :
    (s.seti which value).io = s.io := rfl

/-! ### Reading the files -/

variable [F64 F]

/-- Open the file unless it is open already, then read it.  Only a read that succeeds
is followed by the `seek` back to the start; `mark` notes where the descriptor stands. -/
def readSource (source : Source) (isOpen : Bool) (onOpenError : Error) (mark : Bool → Stats F)
    (parse : Chars → Stats F → Result (Stats F)) (s : Stats F) : Result (Stats F) :=
  if !isOpen && !source.opens then
    .failed onOpenError s
  else match source.text with
    | none => .failed .io (mark false)
    | some text => parse text (mark true)

def Stats.parseLoadavg (text : Chars) (s : Stats F) : Result (Stats F) :=
  match splitOnce ' ' text with
  | none => .failed (.message "Splitting 1min loadavg".toList) s
  | some (ldavg, _) => match F64.parse ldavg with
      | none => .failed (.message "Parsing 1min loadavg".toList) s
      | some v => .done (s.setNow .loadAvg1min (.float v))

def Stats.updLoadavg (source : Source) (s : Stats F) : Result (Stats F) :=
  readSource source s.loadavgOpen .io
    (fun rewound => { s with loadavgOpen := true, loadavgRewound := rewound }) parseLoadavg s

/-- Take a unit off the end, with the blanks before it, and scale by it. -/
def stripUnit (suffix : Chars) (scale : Int64) (value : Chars × Int64) : Chars × Int64 :=
  match stripSuffix suffix value.1 with
  | some rest => (trimEnd isWhitespace rest, value.2 * scale)
  | none => value

def parseMeminfoLine (line : Chars) : Except Error (Chars × Int64) :=
  match splitOnce ':' line with
  | none => .error (.message "Splitting meminfo line".toList)
  | some (vname, vval) =>
    let (vval, multiplier) :=
      stripUnit "B".toList 1 (stripUnit "GB".toList (1024 * 1024 * 1024)
        (stripUnit "MB".toList (1024 * 1024) (stripUnit "kB".toList 1024
          (trim isWhitespace vval, 1))))
    match parseI64 vval with
    | none => .error (.message "Parsing meminfo value".toList)
    | some vnum => .ok (trim isWhitespace vname, vnum * multiplier)

/-- The statistic of a `/proc/meminfo` variable. -/
def meminfoStat (var : Chars) : Option WhichStat :=
  if var = "MemTotal".toList then some .memTotal
  else if var = "MemAvailable".toList then some .memAvailable
  else if var = "Active".toList then some .memActive
  else if var = "Inactive".toList then some .memInactive
  else if var = "AnonHugePages".toList then some .memAnonHugePages
  else none

def Stats.readMeminfoLine (line : Chars) (s : Stats F) : Result (Stats F) :=
  match parseMeminfoLine line with
  | .error error => .failed error s
  | .ok (var, bytes) => match meminfoStat var with
      | some which => .done (s.seti which bytes)
      | none => .done s

def Stats.updMeminfo (source : Source) (s : Stats F) : Result (Stats F) :=
  readSource source s.meminfoOpen .io
    (fun rewound => { s with meminfoOpen := true, meminfoRewound := rewound })
    (fun text => Outcome.each readMeminfoLine (trimmedLines text)) s

/-- `Itertools::tuples` into pairs; an item left over is dropped. -/
def pairs : List Chars → List (Chars × Chars)
  | field :: fval :: rest => (field, fval) :: pairs rest
  | _ => []

def faasmStat (field : Chars) : Option WhichStat :=
  if field = "local_sched".toList then some .faasmLocalSched
  else if field = "waiting_queued".toList then some .faasmWaitingQueued
  else if field = "started".toList then some .faasmStarted
  else if field = "waiting".toList then some .faasmSuspended
  else if field = "active".toList then some .faasmActive
  else none

def Stats.readFaasmField (item : Chars × Chars) (s : Stats F) : Result (Stats F) :=
  match parseI64 item.2 with
  | none => .failed
      (.message ("Parsing faasm field ".toList ++ item.1 ++ "=".toList ++ item.2)) s
  | some fvalint => match faasmStat item.1 with
      | none => .failed (.message ("Unknown faasm field ".toList ++ item.1)) s
      | some which => .done (s.seti which fvalint)

def Stats.updFaasm (source : Source) (s : Stats F) : Result (Stats F) :=
  readSource source s.faasmOpen
    (.message "Couldn't open faasm monitor at /tmp/faasm-monitor".toList)
    (fun rewound => { s with faasmOpen := true, faasmRewound := rewound })
    (fun text => Outcome.each readFaasmField
      (pairs ((text.splitOn ',').map (trim isWhitespace)))) s

/-- One column of the interface's line: the increase goes to the statistic, the
value itself becomes the new reference. -/
def netColumn (fields : List Chars) (column : Nat) (which : WhichStat)
    (ref : Stats F → Int64) (setRef : Int64 → Stats F → Stats F) (s : Stats F) :
    Result (Stats F) :=
  match fields[column]? with
  | none => .panicked "Unexpected /proc/net/dev format"
  | some text => match parseI64 text with
      | none => .failed .parseInt s
      | some value => .done (setRef value (s.seti which (value - ref s)))

def Stats.netRx (fields : List Chars) : Stats F → Result (Stats F) :=
  netColumn fields 1 .netRxBytes (·.netRxRef) fun value s => { s with netRxRef := value }

def Stats.netRxe (fields : List Chars) : Stats F → Result (Stats F) :=
  netColumn fields 3 .netRxErrors (·.netRxeRef) fun value s => { s with netRxeRef := value }

def Stats.netTx (fields : List Chars) : Stats F → Result (Stats F) :=
  netColumn fields 9 .netTxBytes (·.netTxRef) fun value s => { s with netTxRef := value }

def Stats.netTxe (fields : List Chars) : Stats F → Result (Stats F) :=
  netColumn fields 10 .netTxErrors (·.netTxeRef) fun value s => { s with netTxeRef := value }

def Stats.parseNet (text : Chars) (s : Stats F) : Result (Stats F) :=
  match ((lines text).map (trim isWhitespace)).find? (s.netIface.isPrefixOf ·) with
  | none => .panicked "Couldn't find specified network interface"
  | some line =>
    let fields := words isWhitespace line
    ((((s.netRx fields).andThen (netRxe fields)).andThen (netTx fields)).andThen
      (netTxe fields)).andThen fun s =>
        if fields.length ≠ 17 then
          .panicked ("Unexpected /proc/net/dev format: got " ++ toString fields.length ++
            " fields instead of expected 17")
        else .done s

/-- The first successful `open` also completes the name of the interface. -/
def Stats.updNet (source : Source) (s : Stats F) : Result (Stats F) :=
  if s.netOpen then
    readSource source true .io (fun rewound => { s with netRewound := rewound }) parseNet s
  else if source.opens && s.netIface = [] then
    .panicked "Unset network interface to monitor"
  else
    readSource source false .io
      (fun rewound =>
        { s with netOpen := true, netRewound := rewound, netIface := s.netIface ++ [':'] })
      parseNet s

/-! ### One update -/

def Stats.setCpu (s : Stats F) : Stats F :=
  (((((((((s.seti .cpumsUser (s.cpu.cpuTotalsMs .userMode).toInt64).seti
    .cpumsNice (s.cpu.cpuTotalsMs .niceUserMode).toInt64).seti
    .cpumsSystem (s.cpu.cpuTotalsMs .systemMode).toInt64).seti
    .cpumsIdle (s.cpu.cpuTotalsMs .idle).toInt64).seti
    .cpumsIowait (s.cpu.cpuTotalsMs .ioWait).toInt64).seti
    .cpumsIrq (s.cpu.cpuTotalsMs .irq).toInt64).seti
    .cpumsSoftirq (s.cpu.cpuTotalsMs .softIrq).toInt64).seti
    .contextSwitches s.cpu.contextSwitchesDelta.toInt64).seti
    .procsRunning s.cpu.procsRunning.toInt64).seti
    .procsBlocked s.cpu.procsIoBlocked.toInt64

def Stats.setIo (s : Stats F) : Stats F :=
  (((((((s.seti .ioReadsCompleted (s.io.ioTotalsMs .readsCompleted).toInt64).seti
    .ioReadsMerged (s.io.ioTotalsMs .readsMerged).toInt64).seti
    .ioSectorsRead (s.io.ioTotalsMs .sectorsRead).toInt64).seti
    .ioMsReading (s.io.ioTotalsMs .msReading).toInt64).seti
    .ioWritesCompleted (s.io.ioTotalsMs .writesCompleted).toInt64).seti
    .ioWritesMerged (s.io.ioTotalsMs .writesMerged).toInt64).seti
    .ioSectorsWritten (s.io.ioTotalsMs .sectorsWritten).toInt64).seti
    .ioMsWriting (s.io.ioTotalsMs .msWriting).toInt64

def Stats.updCpu (now : Moment) (s : Stats F) : Result (Stats F) :=
  (s.cpu.update now.clkTck now.procStat).map fun cpu => { s with cpu := cpu }

def Stats.updEvents (now : Moment) (s : Stats F) : Result (Stats F) :=
  (s.events.update now.counters s.stats).map fun stats => { s with stats := stats }

def Stats.updIo (now : Moment) (s : Stats F) : Result (Stats F) :=
  (s.io.update now.diskstats).map fun io => { s with io := io }

/-- `update_aggregate` of every statistic; one panic is a panic of the whole. -/
def Stats.aggregate (s : Stats F) : Result (Stats F) :=
  if WhichStat.all.all fun which => (s.stats which).updateAggregate.isSome then
    .done { s with stats := fun which => (s.stats which).updateAggregate.getD (s.stats which) }
  else .panicked "Mismatched statistic types"

/-- The part of `update` that refreshes the current values. -/
def Stats.refresh (now : Moment) (s : Stats F) : Result (Stats F) :=
  ((((((s.updLoadavg now.loadavg).andThen (updMeminfo now.meminfo)).andThen
    (updFaasm now.faasm)).andThen (updNet now.net)).andThen fun s =>
      (s.updCpu now).andThen fun s => .done s.setCpu).andThen (updEvents now)).andThen fun s =>
        (s.updIo now).andThen fun s => .done s.setIo

def Stats.update (now : Moment) (s : Stats F) : Result (Stats F) :=
  (s.refresh now).andThen fun s => if s.inRange then s.aggregate else .done s

/-! ### Commands -/

def Stats.beginRange (counters : Counters) (s : Stats F) : Result (Stats F) :=
  if s.events.start counters then
    .done { s with inRange := true, stats := fun which => (s.stats which).reset }
  else .panicked "called `Result::unwrap()` on an `Err` value"

def Stats.endRange (counters : Counters) (s : Stats F) : Result (Stats F) :=
  if s.events.stop counters then .done { s with inRange := false }
  else .panicked "called `Result::unwrap()` on an `Err` value"

/-- The label/value pairs of one statistic. -/
def statColumns (hostPrefix : Chars) (stat : Stat F) : List (Chars × Chars) :=
  let label := hostPrefix ++ stat.name
  let avg := F64.div stat.valueSum.valf (F64.ofI64 (max stat.valueCnt 1))
  [ (label, stat.valueNow.display),
    (label ++ "_min".toList, stat.valueMin.display),
    (label ++ "_max".toList, stat.valueMax.display),
    (label ++ "_avg".toList, F64.display avg),
    (label ++ "_sum".toList, stat.valueSum.display),
    (label ++ "_cnt".toList, decimalInt stat.valueCnt.toInt) ]

/-- What `write!` appends for one statistic: every field with a comma after it. -/
def statWritten (hostPrefix : Chars) (stat : Stat F) : Chars :=
  (statColumns hostPrefix stat).flatMap fun column => column.1 ++ ',' :: column.2 ++ [',']

def Stats.statPacket (s : Stats F) : Chars :=
  (WhichStat.all.flatMap fun which => statWritten s.hostPrefix (s.stats which)).dropLast ++ ['\n']

end NdpOffload.Statmon.Monitor
