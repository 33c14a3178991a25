import NdpOffload.Faasmspeed.Generator
import NdpOffload.Library.Records

/-! The CSV report at the end of `async_main`: one record for each function, with
the options, the monitoring results and the figures of `print_stats`.  Integers of
128 bits wrap, as in the release build; `f64` is a parameter. -/
namespace NdpOffload.Faasmspeed.Report

open Library.Records Library.Text Generator

/-- The operations on `f64` behind the report; `fixed k` is `{:.k}`. -/
class FloatOps (F : Type) where
  ofInt : Int → F
  div : F → F → F
  sqrt : F → F
  fixed : Nat → F → Chars

abbrev U128 := BitVec 128

structure Options (F : Type) where
  url : Chars
  user : Chars
  functions : List Chars
  offloadFracNum : List Int32
  offloadFracDen : Int32
  requestsPerSecond : List F
  time : F
  inputData : List Chars

/-- What the run has brought, the errors only by their number. -/
structure Measured where
  ndpRequests : Int64
  totalRequests : UInt64
  monitoringResults : List Chars
  results : List (List RequestResult)
  errors : List Nat

/-! ### Figures -/

section PrintStats

variable (F : Type) [FloatOps F]

def average (sortedData : List U128) : U128 :=
  sortedData.foldl (· + ·) 0 / BitVec.ofNat 128 (max sortedData.length 1)

/-- A variance that does not fit a `usize` counts as none. -/
def stddev (sortedData : List U128) : F :=
  let avg := average sortedData
  let squares := sortedData.map fun x => (x - avg) * (x - avg)
  let variance := squares.foldl (· + ·) 0 / BitVec.ofNat 128 (max sortedData.length 1)
  FloatOps.sqrt (FloatOps.ofInt (if variance.toNat < 2 ^ 64 then variance.toNat else 0))

/-- The labelled figures of `print_stats`. -/
def statFields (sortedData : List U128) : List (Chars × Chars) :=
  let n := sortedData.length
  let nth := fun i => decimal (sortedData.getD i 0).toNat
  [ ("min".toList, nth 0),
    ("q1pct".toList, nth (n / 100)),
    ("q1".toList, nth (n / 4)),
    ("med".toList, nth (n / 2)),
    ("q3".toList, nth (3 * n / 4)),
    ("q99pct".toList, nth (99 * n / 100)),
    ("max".toList, decimal (sortedData.getLastD 0).toNat),
    ("avg".toList, decimal (average sortedData).toNat),
    ("stddev".toList, FloatOps.fixed 1 (stddev F sortedData)) ]

def println (text : Chars) : Chars := text ++ ['\n']

def printStats (sortedData : List U128) (shortName : Chars) : Chars :=
  (statFields F sortedData).flatMap fun field =>
    println (shortName ++ ",".toList ++ field.1 ++ ",".toList ++ field.2)

end PrintStats

def sorted (values : List U128) : List U128 := values.mergeSort fun left right => left ≤ right

/-- From the last request on, each start becomes the time since the one before; the
first request gets the interval of the second. -/
def intervals (startTimes : List U128) : List U128 :=
  let deltas := (List.range' 1 (startTimes.length - 1)).reverse.foldl
    (fun times i => times.set i (times.getD i 0 - times.getD (i - 1) 0)) startTimes
  if 2 < deltas.length then deltas.set 0 (deltas.getD 1 0) else deltas

def column (field : RequestResult → Nat) (results : List RequestResult) : List U128 :=
  sorted (results.map fun r => BitVec.ofNat 128 (field r))

/-! ### One record -/

variable {F : Type} [FloatOps F]

/-- `none` where an option is missing for the function, which panics. -/
def csvRecord (opts : Options F) (run : Measured) (fidx : Nat) (results : List RequestResult)
    (errors : Nat) : Option Chars := do
  let function ← opts.functions[fidx]?
  let num ← opts.offloadFracNum[fidx]?
  let firstNum ← opts.offloadFracNum[0]?
  let rps ← opts.requestsPerSecond[fidx]?
  let firstRps ← opts.requestsPerSecond[0]?
  let input ← opts.inputData[0]?
  let frac := fun (num : Int32) => (FloatOps.div (FloatOps.ofInt num.toInt)
    (FloatOps.ofInt opts.offloadFracDen.toInt) : F)
  let actual : F := FloatOps.div (FloatOps.ofInt run.ndpRequests.toInt)
    (FloatOps.ofInt run.totalRequests.toNat)
  let gaps := sorted (intervals (column (·.startTime) results))
  let avgRps : F := FloatOps.div (FloatOps.ofInt 1000000) (FloatOps.ofInt (average gaps).toNat)
  return println ("opts,host,".toList ++ opts.url ++ ",user,".toList ++ opts.user ++
      ",function,".toList ++ function ++ ",ndp,".toList ++ FloatOps.fixed 2 (frac num) ++
      ",first-ndp,".toList ++ FloatOps.fixed 2 (frac firstNum) ++ ",actual-ndp,".toList ++
      FloatOps.fixed 6 actual ++ ",req-rps,".toList ++ FloatOps.fixed 1 rps ++
      ",first-rps,".toList ++ FloatOps.fixed 1 firstRps ++ ",req-time,".toList ++
      FloatOps.fixed 1 opts.time ++ ",input-data-0,".toList ++ input) ++
    println ("errors,count,".toList ++ decimal errors) ++
    println ("results,count,".toList ++ decimal results.length) ++
    run.monitoringResults.flatMap (fun mresult =>
      println ("monitor,".toList ++ trim isWhitespace mresult)) ++
    printStats F gaps "inter-request-us".toList ++
    println ("avg-rps,avg-rps,".toList ++ FloatOps.fixed 4 avgRps) ++
    printStats F (column (·.usRequest) results) "latency-us".toList ++
    printStats F (column (·.usStatus) results) "status-us".toList ++
    printStats F (column (·.numBytes) results) "bytes-sent".toList

/-- The records of all functions, in order. -/
def csvRecords (opts : Options F) (run : Measured) : Option (List Chars) :=
  ((run.results.zip run.errors).zipIdx).mapM fun item =>
    csvRecord opts run item.2 item.1.1 item.1.2

end NdpOffload.Faasmspeed.Report
