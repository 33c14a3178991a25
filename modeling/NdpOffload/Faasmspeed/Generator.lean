import Mathlib.Data.Fintype.Option
import NdpOffload.Library.Barriers
import NdpOffload.Library.Runs
import NdpOffload.Library.Text

/-! The load generator `faasmspeed`: `run_function` for each function, the
request tasks it spawns, the progress display and `async_main`, as one system of
interleaved steps.  The atomic counters have 64 bits and wrap; a panic has no
step, and oneshot runs are left out. -/
namespace NdpOffload.Faasmspeed.Generator

open Library.Barriers Library.Runs Library.Text

/-- What the options say about one function.  `total_requests` is the rounded
product of rate and time, asserted to be a non-negative `i64`; the period is that of
the rate in nanoseconds, `none` where it is no `Duration`. -/
structure Plan where
  totalRequests : Nat
  totalRequests_lt : totalRequests < 2 ^ 63
  poolSize : Nat
  offloadFracNum : Int32
  period : Option Nat

/-- The test request is the first of the pool; a dry run makes none. -/
def Plan.Testable (dryRun : Bool) (plan : Plan) : Prop := dryRun = true ∨ 0 < plan.poolSize

/-- An interval has a period that is not zero. -/
def Plan.Periodic (plan : Plan) : Prop := ∃ period ∈ plan.period, 0 < period

/-- A plan under which `run_function` panics nowhere before its loop and each request has
an input. -/
structure Plan.Runnable (plan : Plan) : Prop where
  stocked : 0 < plan.poolSize
  fits : plan.totalRequests < 2 ^ 60
  periodic : plan.Periodic

structure Options (n : Nat) where
  functions : Fin n → Plan
  offloadFracDen : Int32
  dryRun : Bool
  monitoringHosts : Nat

/-- A dry run connects to no monitoring host. -/
def Options.mhosts {n : Nat} (opts : Options n) : Nat :=
  if opts.dryRun then 0 else opts.monitoringHosts

structure RequestResult where
  usRequest : Nat
  usStatus : Nat
  numBytes : Nat
  startTime : Nat

inductive RequestError where
  | transport
  | badStatus
  | body

/-! ### Request tasks -/

inductive TaskState where
  | spawned
  | sent (startTime : Nat)
  | received (result : RequestResult)
  | completed (result : Except RequestError RequestResult)

/-- A spawned request: a clone of the pool's pair at `which`, from the half with
offloading allowed if `ndp`. -/
structure Task where
  ndp : Bool
  which : Nat
  state : TaskState

inductive TaskAct where
  | addSent
  | addRecv
  | silent
  deriving DecidableEq

inductive TaskStep (dryRun : Bool) : TaskState → TaskAct → TaskState → Prop where
  | send (startTime : Nat) : TaskStep dryRun .spawned .addSent (.sent startTime)
  | fail {startTime : Nat} (error : RequestError) :
      dryRun = false → TaskStep dryRun (.sent startTime) .silent (.completed (.error error))
  | receive {startTime : Nat} (usRequest usStatus numBytes : Nat) :
      dryRun = false → TaskStep dryRun (.sent startTime) .addRecv
        (.received ⟨usRequest, usStatus, numBytes, startTime⟩)
  | receiveDry {startTime : Nat} :
      dryRun = true → TaskStep dryRun (.sent startTime) .addRecv
        (.received ⟨1000, 1000, 1024, startTime⟩)
  | complete {result : RequestResult} :
      TaskStep dryRun (.received result) .silent (.completed (.ok result))

/-! ### `run_function` -/

/-- Where a function stands.  The names with `sync` are inside a `wait`. -/
inductive FnPc where
  | testing
  | syncTest
  | tested
  | syncMonitor
  | monitored
  | counted
  | syncCount
  | allocating
  | starting
  | scheduling
  | looping (requestId : Nat)
  | adjusting (requestId : Nat)
  | spawning (requestId : Nat) (ndp : Bool)
  | joining
  | joined
  | syncFinish
  | returned
  deriving DecidableEq

structure Fn where
  pc : FnPc := .testing
  ndpVar : Int32 := 0
  whichRequest : Nat := 0
  tasks : List Task := []
  results : List (Except RequestError RequestResult) := []

/-- What a step of a function does to the shared state. -/
inductive FnAct where
  | silent
  | arrive
  | resume
  | addTotal
  | addNdp
  | spawn
  deriving DecidableEq

inductive FnStep (dryRun : Bool) (offloadFracDen : Int32) (plan : Plan) :
    Fn → FnAct → Fn → Prop where
  | testDone {f : Fn} : f.pc = .testing → plan.Testable dryRun →
      FnStep dryRun offloadFracDen plan f .arrive { f with pc := .syncTest }
  | testSynced {f : Fn} : f.pc = .syncTest →
      FnStep dryRun offloadFracDen plan f .resume { f with pc := .tested }
  | monitorWait {f : Fn} : f.pc = .tested →
      FnStep dryRun offloadFracDen plan f .arrive { f with pc := .syncMonitor }
  | monitorSynced {f : Fn} : f.pc = .syncMonitor →
      FnStep dryRun offloadFracDen plan f .resume { f with pc := .monitored }
  | addTotal {f : Fn} : f.pc = .monitored →
      FnStep dryRun offloadFracDen plan f .addTotal { f with pc := .counted }
  | countWait {f : Fn} : f.pc = .counted →
      FnStep dryRun offloadFracDen plan f .arrive { f with pc := .syncCount }
  | countSynced {f : Fn} : f.pc = .syncCount →
      FnStep dryRun offloadFracDen plan f .resume { f with pc := .allocating }
  | allocate {f : Fn} : f.pc = .allocating →
      -- handles of eight bytes; a vector has less than 2^63
      plan.totalRequests < 2 ^ 60 →
      FnStep dryRun offloadFracDen plan f .silent
        { f with pc := .starting, whichRequest := 0, tasks := [] }
  | start {f : Fn} : f.pc = .starting →
      FnStep dryRun offloadFracDen plan f .silent
        { f with pc := .scheduling, ndpVar := offloadFracDen - 1 }
  | schedule {f : Fn} : f.pc = .scheduling → plan.Periodic →
      FnStep dryRun offloadFracDen plan f .silent { f with pc := .looping 0 }
  | tick {f : Fn} {requestId : Nat} : f.pc = .looping requestId → requestId < plan.totalRequests →
      FnStep dryRun offloadFracDen plan f .silent
        { f with pc := .adjusting requestId, ndpVar := f.ndpVar + 1 }
  | adjust {f : Fn} {requestId : Nat} : f.pc = .adjusting requestId →
      offloadFracDen < f.ndpVar →
      FnStep dryRun offloadFracDen plan f .silent { f with ndpVar := f.ndpVar - offloadFracDen }
  | allowNdp {f : Fn} {requestId : Nat} : f.pc = .adjusting requestId →
      ¬ offloadFracDen < f.ndpVar →
      (f.ndpVar ≤ plan.offloadFracNum ∨ offloadFracDen < plan.offloadFracNum) →
      FnStep dryRun offloadFracDen plan f .addNdp { f with pc := .spawning requestId true }
  | forbidNdp {f : Fn} {requestId : Nat} : f.pc = .adjusting requestId →
      ¬ offloadFracDen < f.ndpVar →
      ¬ (f.ndpVar ≤ plan.offloadFracNum ∨ offloadFracDen < plan.offloadFracNum) →
      FnStep dryRun offloadFracDen plan f .silent { f with pc := .spawning requestId false }
  | spawn {f : Fn} {requestId : Nat} {ndp : Bool} : f.pc = .spawning requestId ndp →
      f.whichRequest < plan.poolSize →
      FnStep dryRun offloadFracDen plan f .spawn
        { f with
          pc := .looping (requestId + 1)
          tasks := f.tasks ++ [⟨ndp, f.whichRequest, .spawned⟩]
          whichRequest := if f.whichRequest + 1 = plan.poolSize then 0 else f.whichRequest + 1 }
  | loopDone {f : Fn} {requestId : Nat} : f.pc = .looping requestId →
      ¬ requestId < plan.totalRequests →
      FnStep dryRun offloadFracDen plan f .silent { f with pc := .joining, results := [] }
  | join {f : Fn} {task : Task} {result : Except RequestError RequestResult} :
      f.pc = .joining → f.tasks[f.results.length]? = some task →
      task.state = .completed result →
      FnStep dryRun offloadFracDen plan f .silent { f with results := f.results ++ [result] }
  | joinDone {f : Fn} : f.pc = .joining → f.results.length = f.tasks.length →
      FnStep dryRun offloadFracDen plan f .silent { f with pc := .joined }
  | finishWait {f : Fn} : f.pc = .joined →
      FnStep dryRun offloadFracDen plan f .arrive { f with pc := .syncFinish }
  | finishSynced {f : Fn} : f.pc = .syncFinish →
      FnStep dryRun offloadFracDen plan f .resume { f with pc := .returned }

/-! ### `async_main` -/

/-- Where `async_main` stands; `failed` after an error at a monitoring host,
with the number of waits made until then. -/
inductive MainPc where
  | connecting (host : Nat)
  | syncTest
  | opening (host : Nat)
  | syncMonitor
  | opened
  | syncCount
  | counted
  | progressing
  | syncFinish
  | finishing
  | closing (host : Nat)
  | reading (host : Nat)
  | quitting (host : Nat)
  | awaiting
  | loading
  | collecting (function : Nat)
  | reported
  | failed (waits : Nat)

inductive MainAct (n : Nat) where
  | silent
  | arrive
  | resume
  | write (host : Nat) (byte : Char)
  | readLine (line : Chars)
  | spawnProgress
  | storeDone
  | awaitProgress
  | loadTotal
  | collect (i : Fin n)

inductive MainStep (n mhosts : Nat) : MainPc → MainAct n → MainPc → Prop where
  | connect {host : Nat} : host < mhosts →
      MainStep n mhosts (.connecting host) .silent (.connecting (host + 1))
  | connectFails {host : Nat} : host < mhosts →
      MainStep n mhosts (.connecting host) .silent (.failed 0)
  | testWait : MainStep n mhosts (.connecting mhosts) .arrive .syncTest
  | testSynced : MainStep n mhosts .syncTest .resume (.opening 0)
  | openRange {host : Nat} : host < mhosts →
      MainStep n mhosts (.opening host) (.write host '[') (.opening (host + 1))
  | openFails {host : Nat} : host < mhosts →
      MainStep n mhosts (.opening host) .silent (.failed 1)
  | monitorWait : MainStep n mhosts (.opening mhosts) .arrive .syncMonitor
  | monitorSynced : MainStep n mhosts .syncMonitor .resume .opened
  | countWait : MainStep n mhosts .opened .arrive .syncCount
  | countSynced : MainStep n mhosts .syncCount .resume .counted
  | progressSpawned : MainStep n mhosts .counted .spawnProgress .progressing
  | finishWait : MainStep n mhosts .progressing .arrive .syncFinish
  | finishSynced : MainStep n mhosts .syncFinish .resume .finishing
  | doneStored : MainStep n mhosts .finishing .storeDone (.closing 0)
  | closeRange {host : Nat} : host < mhosts →
      MainStep n mhosts (.closing host) (.write host ']') (.reading host)
  | closeFails {host : Nat} : host < mhosts →
      MainStep n mhosts (.closing host) .silent (.failed 4)
  | readLine {host : Nat} (line : Chars) :
      MainStep n mhosts (.reading host) (.readLine line) (.quitting host)
  | readFails {host : Nat} : MainStep n mhosts (.reading host) .silent (.failed 4)
  | quit {host : Nat} : MainStep n mhosts (.quitting host) (.write host 'q') (.closing (host + 1))
  | quitFails {host : Nat} : MainStep n mhosts (.quitting host) .silent (.failed 4)
  | closed : MainStep n mhosts (.closing mhosts) .silent .awaiting
  | progressJoined : MainStep n mhosts .awaiting .awaitProgress .loading
  | loaded : MainStep n mhosts .loading .loadTotal (.collecting 0)
  | collect (i : Fin n) : MainStep n mhosts (.collecting i) (.collect i) (.collecting (i + 1))
  | report : MainStep n mhosts (.collecting n) .silent .reported

/-! ### The progress display -/

inductive ProgressPc where
  | unborn
  | checking
  | ticking
  | loadedTotal (total : Int64)
  | loadedSent (total sent : Int64)
  | printing (total sent recv : Int64)
  | leaving
  | finished

/-! ### The whole system -/

structure System (n : Nat) where
  sync : Lockstep (Option (Fin n)) := {}
  main : MainPc := .connecting 0
  fns : Fin n → Fn := fun _ => {}
  progress : ProgressPc := .unborn
  totalRequests : Int64 := 0
  sentRequests : Int64 := 0
  recvRequests : Int64 := 0
  ndpRequests : Int64 := 0
  done : Bool := false
  wire : List (Nat × Char) := []
  monitoringResults : List Chars := []
  reportTotal : Option Int64 := none
  results : List (List RequestResult) := []
  errors : List (List RequestError) := []

/-- The two vectors into which the results of a function are sorted. -/
def okResults (results : List (Except RequestError RequestResult)) : List RequestResult :=
  results.filterMap fun result => result.toOption

def errResults (results : List (Except RequestError RequestResult)) : List RequestError :=
  results.filterMap fun result => match result with
    | .ok _ => none
    | .error error => some error

variable {n : Nat}

def System.fnEffect (opts : Options n) (i : Fin n) (s : System n) : FnAct → System n
  | .arrive => { s with sync := s.sync.arrive (some i) }
  | .resume => { s with sync := s.sync.resume (some i) }
  | .addTotal =>
      { s with totalRequests := s.totalRequests + Int64.ofNat (opts.functions i).totalRequests }
  | .addNdp => { s with ndpRequests := s.ndpRequests + 1 }
  | .silent => s
  | .spawn => s

def System.taskEffect (s : System n) : TaskAct → System n
  | .addSent => { s with sentRequests := s.sentRequests + 1 }
  | .addRecv => { s with recvRequests := s.recvRequests + 1 }
  | .silent => s

def System.mainEffect (s : System n) : MainAct n → System n
  | .arrive => { s with sync := s.sync.arrive none }
  | .resume => { s with sync := s.sync.resume none }
  | .write host byte => { s with wire := s.wire ++ [(host, byte)] }
  | .readLine line => { s with monitoringResults := s.monitoringResults ++ [line] }
  | .spawnProgress => { s with progress := .checking }
  | .storeDone => { s with done := true }
  | .loadTotal => { s with reportTotal := some s.totalRequests }
  | .collect i =>
      { s with
        results := s.results ++ [okResults (s.fns i).results]
        errors := s.errors ++ [errResults (s.fns i).results] }
  | .awaitProgress => s
  | .silent => s

/-- When a step of `async_main` is not blocked. -/
def System.MainReady (s : System n) : MainAct n → Prop
  | .resume => s.sync.Released none
  | .awaitProgress => s.progress = .finished
  | .collect i => (s.fns i).pc = .returned
  | _ => True

def System.setTask (s : System n) (i : Fin n) (j : Nat) (task : Task) : System n :=
  { s with fns := Function.update s.fns i { s.fns i with tasks := (s.fns i).tasks.set j task } }

inductive Event (n : Nat) where
  | fn (i : Fin n) (act : FnAct)
  | task (i : Fin n) (j : Nat)
  | main (act : MainAct n)
  | loadTotal (value : Int64)
  | progress

/-- The steps of the display; `recv * 100 / total` panics at zero and at the one
quotient that does not fit. -/
inductive ProgressStep : System n → Event n → ProgressPc → Prop where
  | goOn {s : System n} : s.progress = .checking → s.done = false →
      ProgressStep s .progress .ticking
  | leave {s : System n} : s.progress = .checking → s.done = true →
      ProgressStep s .progress .leaving
  | loadTotal {s : System n} : s.progress = .ticking →
      ProgressStep s (.loadTotal s.totalRequests) (.loadedTotal s.totalRequests)
  | loadSent {s : System n} {total : Int64} : s.progress = .loadedTotal total →
      ProgressStep s .progress (.loadedSent total s.sentRequests)
  | loadRecv {s : System n} {total sent : Int64} : s.progress = .loadedSent total sent →
      ProgressStep s .progress (.printing total sent s.recvRequests)
  | print {s : System n} {total sent recv : Int64} : s.progress = .printing total sent recv →
      total ≠ 0 → ¬ (recv * 100 = Int64.minValue ∧ total = -1) →
      ProgressStep s .progress .checking
  | last {s : System n} : s.progress = .leaving →
      ProgressStep s (.loadTotal s.totalRequests) .finished

inductive Step (opts : Options n) : System n → Event n → System n → Prop where
  | fn {s : System n} {act : FnAct} {f : Fn} (i : Fin n) :
      FnStep opts.dryRun opts.offloadFracDen (opts.functions i) (s.fns i) act f →
      (act = .resume → s.sync.Released (some i)) →
      Step opts s (.fn i act) { s.fnEffect opts i act with fns := Function.update s.fns i f }
  | task {s : System n} {task : Task} {act : TaskAct} {state : TaskState} (i : Fin n) (j : Nat) :
      (s.fns i).tasks[j]? = some task → TaskStep opts.dryRun task.state act state →
      Step opts s (.task i j) ((s.taskEffect act).setTask i j { task with state := state })
  | main {s : System n} {act : MainAct n} {pc : MainPc} :
      MainStep n opts.mhosts s.main act pc → s.MainReady act →
      Step opts s (.main act) { s.mainEffect act with main := pc }
  | progress {s : System n} {event : Event n} {pc : ProgressPc} :
      ProgressStep s event pc → Step opts s event { s with progress := pc }

def start : System n := {}

end NdpOffload.Faasmspeed.Generator
