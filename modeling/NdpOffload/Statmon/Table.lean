import Mathlib.Logic.Function.Basic
import NdpOffload.Library.Text

/-! One monitored statistic of `statmon`: its values, its range aggregates and
the table of all of them.  Integers are 64 bits wide and wrap, as in the release
build; `f64` is a parameter. -/
namespace NdpOffload.Statmon.Table

open Library.Text

/-- The operations on `f64` that the monitor uses. -/
class F64 (F : Type) where
  zero : F
  minValue : F
  maxValue : F
  min : F → F → F
  max : F → F → F
  add : F → F → F
  div : F → F → F
  ofI64 : Int64 → F
  parse : Chars → Option F
  display : F → Chars

variable {F : Type} [F64 F]

inductive StatValue (F : Type) where
  | float (v : F)
  | int (v : Int64)
  deriving DecidableEq

def StatValue.valf : StatValue F → F
  | .float v => v
  | .int v => F64.ofI64 v

def StatValue.minval : StatValue F → StatValue F
  | .float _ => .float F64.minValue
  | .int _ => .int Int64.minValue

def StatValue.maxval : StatValue F → StatValue F
  | .float _ => .float F64.maxValue
  | .int _ => .int Int64.maxValue

def StatValue.zeroval : StatValue F → StatValue F
  | .float _ => .float F64.zero
  | .int _ => .int 0

/-- The common body of `set_min`, `set_max` and `set_add`; `none` is the panic
"Mismatched statistic types". -/
def StatValue.combine (onFloat : F → F → F) (onInt : Int64 → Int64 → Int64) :
    StatValue F → StatValue F → Option (StatValue F)
  | .float m, .float v => some (.float (onFloat m v))
  | .int m, .int v => some (.int (onInt m v))
  | _, _ => none

def StatValue.setMin : StatValue F → StatValue F → Option (StatValue F) := combine F64.min min

def StatValue.setMax : StatValue F → StatValue F → Option (StatValue F) := combine F64.max max

def StatValue.setAdd : StatValue F → StatValue F → Option (StatValue F) :=
  combine F64.add (· + ·)

def StatValue.isFloat : StatValue F → Bool
  | .float _ => true
  | .int _ => false

def StatValue.display : StatValue F → Chars
  | .float v => F64.display v
  | .int v => decimalInt v.toInt

structure Stat (F : Type) where
  name : Chars
  valueNow : StatValue F
  valueMin : StatValue F
  valueMax : StatValue F
  valueSum : StatValue F
  valueCnt : Int64

def Stat.int (name : Chars) : Stat F where
  name := name
  valueNow := .int 0
  valueMin := (StatValue.int 0 : StatValue F).maxval
  valueMax := (StatValue.int 0 : StatValue F).minval
  valueSum := .int 0
  valueCnt := 0

def Stat.float (name : Chars) : Stat F where
  name := name
  valueNow := .float F64.zero
  valueMin := (StatValue.float F64.zero : StatValue F).maxval
  valueMax := (StatValue.float F64.zero : StatValue F).minval
  valueSum := .float F64.zero
  valueCnt := 0

def Stat.reset (stat : Stat F) : Stat F :=
  { stat with
    valueMin := stat.valueNow.maxval
    valueMax := stat.valueNow.minval
    valueSum := stat.valueNow.zeroval
    valueCnt := 0 }

def Stat.updateAggregate (stat : Stat F) : Option (Stat F) := do
  let valueMin ← stat.valueMin.setMin stat.valueNow
  let valueMax ← stat.valueMax.setMax stat.valueNow
  let valueSum ← stat.valueSum.setAdd stat.valueNow
  return { stat with valueMin, valueMax, valueSum, valueCnt := stat.valueCnt + 1 }

def Stat.setNow (stat : Stat F) (value : StatValue F) : Stat F := { stat with valueNow := value }

/-! ### The statistics -/

inductive WhichStat where
  | loadAvg1min | memTotal | memAvailable | memActive | memInactive | memAnonHugePages
  | cpumsUser | cpumsNice | cpumsSystem | cpumsIdle | cpumsIowait | cpumsIrq | cpumsSoftirq
  | eventCycles | eventInstructions | eventCacheAccesses | eventCacheMisses | eventBranches
  | eventBranchMisses | eventStalledFrontCycles | eventStalledBackCycles | eventRefCycles
  | eventPageFaults | eventPageFaultsMinor | eventPageFaultsMajor | eventCpuMigrations
  | eventL1DAccesses | eventL1DMisses | eventL1IAccesses | eventL1IMisses | eventDTLBAccesses
  | eventDTLBMisses | eventITLBAccesses | eventITLBMisses | contextSwitches | procsRunning
  | procsBlocked | faasmLocalSched | faasmWaitingQueued | faasmStarted | faasmSuspended
  | faasmActive | netRxBytes | netRxErrors | netTxBytes | netTxErrors | ioReadsCompleted
  | ioReadsMerged | ioSectorsRead | ioMsReading | ioWritesCompleted | ioWritesMerged
  | ioSectorsWritten | ioMsWriting
  deriving DecidableEq

/-- The statistics in the order of the array. -/
def WhichStat.all : List WhichStat :=
  [ .loadAvg1min, .memTotal, .memAvailable, .memActive, .memInactive, .memAnonHugePages,
    .cpumsUser, .cpumsNice, .cpumsSystem, .cpumsIdle, .cpumsIowait, .cpumsIrq, .cpumsSoftirq,
    .eventCycles, .eventInstructions, .eventCacheAccesses, .eventCacheMisses, .eventBranches,
    .eventBranchMisses, .eventStalledFrontCycles, .eventStalledBackCycles, .eventRefCycles,
    .eventPageFaults, .eventPageFaultsMinor, .eventPageFaultsMajor, .eventCpuMigrations,
    .eventL1DAccesses, .eventL1DMisses, .eventL1IAccesses, .eventL1IMisses, .eventDTLBAccesses,
    .eventDTLBMisses, .eventITLBAccesses, .eventITLBMisses, .contextSwitches, .procsRunning,
    .procsBlocked, .faasmLocalSched, .faasmWaitingQueued, .faasmStarted, .faasmSuspended,
    .faasmActive, .netRxBytes, .netRxErrors, .netTxBytes, .netTxErrors, .ioReadsCompleted,
    .ioReadsMerged, .ioSectorsRead, .ioMsReading, .ioWritesCompleted, .ioWritesMerged,
    .ioSectorsWritten, .ioMsWriting ]

theorem WhichStat.mem_all (which : WhichStat) : which ∈ all := by
  cases which <;> decide

def statsInit : WhichStat → Stat F
  | .loadAvg1min => .float "load_avg1".toList
  | .memTotal => .int "mem_total".toList
  | .memAvailable => .int "mem_available".toList
  | .memActive => .int "mem_active".toList
  | .memInactive => .int "mem_inactive".toList
  | .memAnonHugePages => .int "mem_anonhp".toList
  | .cpumsUser => .int "cpums_user".toList
  | .cpumsNice => .int "cpums_nice".toList
  | .cpumsSystem => .int "cpums_system".toList
  | .cpumsIdle => .int "cpums_idle".toList
  | .cpumsIowait => .int "cpums_iowait".toList
  | .cpumsIrq => .int "cpums_irq".toList
  | .cpumsSoftirq => .int "cpums_softirq".toList
  | .eventCycles => .int "event_cycles".toList
  | .eventInstructions => .int "event_instructions".toList
  | .eventCacheAccesses => .int "event_cache_accesses".toList
  | .eventCacheMisses => .int "event_cache_misses".toList
  | .eventBranches => .int "event_branches".toList
  | .eventBranchMisses => .int "event_branch_misses".toList
  | .eventStalledFrontCycles => .int "event_stalled_front_cycles".toList
  | .eventStalledBackCycles => .int "event_stalled_back_cycles".toList
  | .eventRefCycles => .int "event_ref_cycles".toList
  | .eventPageFaults => .int "event_page_faults".toList
  | .eventPageFaultsMinor => .int "event_page_faults_minor".toList
  | .eventPageFaultsMajor => .int "event_page_faults_major".toList
  | .eventCpuMigrations => .int "event_cpu_migrations".toList
  | .eventL1DAccesses => .int "event_l1d_accesses".toList
  | .eventL1DMisses => .int "event_l1d_misses".toList
  | .eventL1IAccesses => .int "event_l1i_accesses".toList
  | .eventL1IMisses => .int "event_l1i_misses".toList
  | .eventDTLBAccesses => .int "event_dtlb_accesses".toList
  | .eventDTLBMisses => .int "event_dtlb_misses".toList
  | .eventITLBAccesses => .int "event_itlb_accesses".toList
  | .eventITLBMisses => .int "event_itlb_misses".toList
  | .contextSwitches => .int "cswitches".toList
  | .procsRunning => .int "procs_running".toList
  | .procsBlocked => .int "procs_blocked".toList
  | .faasmLocalSched => .int "faasm_local_sched".toList
  | .faasmWaitingQueued => .int "faasm_waiting_queued".toList
  | .faasmStarted => .int "faasm_started".toList
  | .faasmSuspended => .int "faasm_suspended".toList
  | .faasmActive => .int "faasm_Active".toList
  | .netRxBytes => .int "net_rx_bytes".toList
  | .netRxErrors => .int "net_rx_errors".toList
  | .netTxBytes => .int "net_tx_bytes".toList
  | .netTxErrors => .int "net_tx_errors".toList
  | .ioReadsCompleted => .int "io_reads_completed".toList
  | .ioReadsMerged => .int "io_reads_merged".toList
  | .ioSectorsRead => .int "io_sectors_read".toList
  | .ioMsReading => .int "io_ms_reading".toList
  | .ioWritesCompleted => .int "io_writes_completed".toList
  | .ioWritesMerged => .int "io_writes_merged".toList
  | .ioSectorsWritten => .int "io_sectors_written".toList
  | .ioMsWriting => .int "io_ms_writing".toList

/-- The kind of value that `STATS_INIT` gives a statistic. -/
def WhichStat.isFloat (which : WhichStat) : Bool := which = .loadAvg1min

/-- The array of statistics, indexed by its enumeration. -/
abbrev StatArray (F : Type) := WhichStat → Stat F

def StatArray.setNow (stats : StatArray F) (which : WhichStat) (value : StatValue F) :
    StatArray F :=
  Function.update stats which ((stats which).setNow value)

def StatArray.seti (stats : StatArray F) (which : WhichStat) (value : Int64) : StatArray F :=
  stats.setNow which (.int value)

end NdpOffload.Statmon.Table
