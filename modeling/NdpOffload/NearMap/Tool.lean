import Mathlib.Data.List.AList
import NdpOffload.Library.Loops
import NdpOffload.Library.Runs
import NdpOffload.Library.Text

/-! The pintool `NearMAP.cpp`: its global state, its analysis routines and the
log it writes.  Machine words keep their widths, so the clock and the counters
wrap as they do in the tool. -/
namespace NdpOffload.NearMap.Tool

open Library.Loops Library.Runs Library.Text

structure RWTime where
  lastRead : UInt64 := 0
  lastWrite : UInt64 := 0
  deriving DecidableEq

/-- `std::unordered_map<uintptr_t, RWTime>`.  The order of the entries carries
no meaning: see `Step.phaseStub`. -/
abbrev PageMap := AList fun _ : UInt64 => RWTime

abbrev Entry := Sigma fun _ : UInt64 => RWTime

/-- `map[page]`, which default-constructs an entry that is missing. -/
def PageMap.entry (map : PageMap) (page : UInt64) : RWTime :=
  (map.lookup page).getD {}

/-- `phaseTimes.back()` is read at every phase, so emptiness is excluded here. -/
structure AccessState where
  currTime : UInt64 := 0
  ioBytes : UInt64 := 0
  pageLastAccesses : PageMap := ∅
  phaseTimes : List UInt64
  phaseTimes_ne : phaseTimes ≠ []

structure TraceLine where
  startTime : UInt64
  endTime : UInt64
  pageIdx : UInt64
  didRead : Bool
  didWrite : Bool
  deriving DecidableEq

inductive LogLine where
  | phase (pageSize : Int32) (prevTime currTime : UInt64) (name : Chars)
      (instructions ioBytes : UInt64)
  | trace (line : TraceLine)
  | summary (uniqRO uniqRW uniqWO total : UInt64)
  | phaseStubFound
  | ioStubFound
  deriving DecidableEq

/-- The fields of a line; a trace line has an empty second and last field. -/
def LogLine.fields : LogLine → List Chars
  | .phase pageSize prevTime currTime name instructions ioBytes =>
      ["phase".toList, decimalInt pageSize.toInt, decimal prevTime.toNat, decimal currTime.toNat,
        name, decimal instructions.toNat, decimal ioBytes.toNat]
  | .trace line =>
      ["trace".toList, [], decimal line.startTime.toNat, decimal line.endTime.toNat,
        decimal line.pageIdx.toNat,
        (if line.didRead then ['R'] else []) ++ (if line.didWrite then ['W'] else []), []]
  | .summary uniqRO uniqRW uniqWO total =>
      ["summary-ro-rw-wo-tot-insn".toList, decimal uniqRO.toNat, decimal uniqRW.toNat,
        decimal uniqWO.toNat, decimal total.toNat]
  | .phaseStubFound => ["Phase stub found and instrumented".toList]
  | .ioStubFound => ["IO stub found and instrumented".toList]

def LogLine.render (line : LogLine) : Chars := joinWith ';' line.fields

def logText (out : List LogLine) : Chars := unlines (out.map LogLine.render)

structure State extends AccessState where
  instructionCounter : UInt64 := 0
  tracePageSizeLog2 : UInt64
  out : List LogLine := []

def start (tracePageSizeLog2 : UInt64) : State where
  phaseTimes := [0]
  phaseTimes_ne := by simp
  tracePageSizeLog2 := tracePageSizeLog2

/-! ### The analysis routines -/

def apage (tracePageSizeLog2 addr : UInt64) : UInt64 := addr >>> tracePageSizeLog2

def epage (tracePageSizeLog2 addr : UInt64) (accessSz : UInt32) : UInt64 :=
  (addr + accessSz.toUInt64 - 1) >>> tracePageSizeLog2

/-- The common body of `OnRead` and `OnWrite`: every visited page gets the time
of the access, through `stamp`.  `none` when the page loop is still running. -/
def onAccess (stamp : UInt64 → RWTime → RWTime) (fuel : Nat) (addr : UInt64)
    (accessSz : UInt32) (s : State) : Option State :=
  let last := epage s.tracePageSizeLog2 addr accessSz
  let time := s.currTime
  (whileLoop (fun st : UInt64 × PageMap => st.1 ≤ last)
    (fun st => (st.1 + 1, st.2.insert st.1 (stamp time (st.2.entry st.1)))) fuel
    (apage s.tracePageSizeLog2 addr, s.pageLastAccesses)).map fun st =>
      { s with currTime := s.currTime + 1, pageLastAccesses := st.2 }

def stampRead (time : UInt64) (rwtime : RWTime) : RWTime := { rwtime with lastRead := time }

def stampWrite (time : UInt64) (rwtime : RWTime) : RWTime := { rwtime with lastWrite := time }

def onRead := onAccess stampRead

def onWrite := onAccess stampWrite

def countBbl (numInstInBbl : UInt32) (s : State) : State :=
  { s with instructionCounter := s.instructionCounter + numInstInBbl.toUInt64 }

def inWindow (startTime endTime time : UInt64) : Bool := time ≥ startTime && time < endTime

/-- The running counters of `summarizeLastAccesses` and the lines so far. -/
structure Summary where
  uniqRO : UInt64 := 0
  uniqRW : UInt64 := 0
  uniqWO : UInt64 := 0
  traces : List TraceLine := []

def summarizeOne (startTime endTime : UInt64) (acc : Summary) (access : Entry) : Summary :=
  let didRead := inWindow startTime endTime access.2.lastRead
  let didWrite := inWindow startTime endTime access.2.lastWrite
  let line : TraceLine := ⟨startTime, endTime, access.1, didRead, didWrite⟩
  if !didRead && !didWrite then
    acc
  else if didRead && !didWrite then
    { acc with uniqRO := acc.uniqRO + 1, traces := acc.traces ++ [line] }
  else if didRead && didWrite then
    { acc with uniqRW := acc.uniqRW + 1, traces := acc.traces ++ [line] }
  else
    { acc with uniqWO := acc.uniqWO + 1, traces := acc.traces ++ [line] }

def summarizeLastAccesses (startTime endTime : UInt64) (accesses : List Entry) :
    List LogLine :=
  let acc := accesses.foldl (summarizeOne startTime endTime) {}
  acc.traces.map .trace ++
    [.summary acc.uniqRO acc.uniqRW acc.uniqWO (acc.uniqRO + acc.uniqRW + acc.uniqWO)]

def AccessState.phaseStart (s : AccessState) : UInt64 := s.phaseTimes.getLast s.phaseTimes_ne

/-- `1 << TracePageSizeLog2` is an `int`: the power of two modulo `2^32`. -/
def pageSizeInt (tracePageSizeLog2 : UInt64) : Int32 := Int32.ofInt (2 ^ tracePageSizeLog2.toNat)

def phaseOutput (name : Chars) (accesses : List Entry) (s : State) : List LogLine :=
  let currTime := s.currTime + 1
  let prevTime := s.phaseStart
  .phase (pageSizeInt s.tracePageSizeLog2) prevTime currTime name s.instructionCounter s.ioBytes ::
    summarizeLastAccesses prevTime currTime accesses

/-- `accesses` lists the entries of the page map in the order of the loop. -/
def phaseStubReplacement (name : Chars) (accesses : List Entry) (s : State) : State :=
  { s with
    currTime := s.currTime + 1
    phaseTimes := s.phaseTimes ++ [s.currTime + 1]
    phaseTimes_ne := by simp
    ioBytes := 0
    out := s.out ++ phaseOutput name accesses s
    instructionCounter := 0 }

def ioStubReplacement (ioBytes : UInt64) (s : State) : State :=
  { s with currTime := s.currTime + 1, ioBytes := s.ioBytes + ioBytes }

def phaseStubName : Chars := "pinnearmap_phase".toList

def ioStubName : Chars := "pinnearmap_io_bytes".toList

/-- The instrumentation callback `Routine`, called once per routine found. -/
def routine (rtnName : Chars) (s : State) : State :=
  let s := if rtnName = phaseStubName then { s with out := s.out ++ [.phaseStubFound] } else s
  if rtnName = ioStubName then { s with out := s.out ++ [.ioStubFound] } else s

def finiName : Chars := "program-finish".toList

/-! ### Runs of the instrumented program -/

inductive Event where
  | onRead (addr : UInt64) (accessSz : UInt32)
  | onWrite (addr : UInt64) (accessSz : UInt32)
  | countBbl (numInstInBbl : UInt32)
  | phaseStub (name : Chars)
  | ioStub (ioBytes : UInt64)
  | routine (rtnName : Chars)
  deriving DecidableEq

def Event.isPhase : Event → Bool
  | .phaseStub _ => true
  | _ => false

/-- One event.  An access happens when its page loop ends; a phase may go
through the hash map in any order. -/
inductive Step : State → Event → State → Prop where
  | onRead {s t : State} {addr : UInt64} {accessSz : UInt32} (fuel : Nat) :
      onRead fuel addr accessSz s = some t → Step s (.onRead addr accessSz) t
  | onWrite {s t : State} {addr : UInt64} {accessSz : UInt32} (fuel : Nat) :
      onWrite fuel addr accessSz s = some t → Step s (.onWrite addr accessSz) t
  | countBbl {s : State} (n : UInt32) : Step s (.countBbl n) (countBbl n s)
  | phaseStub {s : State} (name : Chars) (accesses : List Entry) :
      accesses.Perm s.pageLastAccesses.entries →
        Step s (.phaseStub name) (phaseStubReplacement name accesses s)
  | ioStub {s : State} (bytes : UInt64) : Step s (.ioStub bytes) (ioStubReplacement bytes s)
  | routine {s : State} (rtnName : Chars) : Step s (.routine rtnName) (routine rtnName s)

/-! ### What the routines do -/

/-- An access changes the clock and the page map, nothing else. -/
theorem onAccess_frame {stamp : UInt64 → RWTime → RWTime} {fuel : Nat} {addr : UInt64}
    {accessSz : UInt32} {s t : State} (haccess : onAccess stamp fuel addr accessSz s = some t) :
    ∃ map, t = { s with currTime := s.currTime + 1, pageLastAccesses := map } := by
  unfold onAccess at haccess
  obtain ⟨st, _, rfl⟩ := Option.map_eq_some_iff.mp haccess
  exact ⟨st.2, rfl⟩

/-- The conditions under which an access is well formed: at least one byte, and
no byte at or above the last address. -/
structure AccessOk (addr : UInt64) (accessSz : UInt32) : Prop where
  size_pos : 1 ≤ accessSz.toNat
  in_range : addr.toNat + accessSz.toNat < 2 ^ 64

theorem toNat_apage {log2 : UInt64} (addr : UInt64) (hlog2 : log2.toNat ≤ 31) :
    (apage log2 addr).toNat = addr.toNat / 2 ^ log2.toNat := by
  rw [apage, UInt64.toNat_shiftRight, Nat.mod_eq_of_lt (by omega), Nat.shiftRight_eq_div_pow]

theorem toNat_epage {log2 addr : UInt64} {accessSz : UInt32} (hlog2 : log2.toNat ≤ 31)
    (hok : AccessOk addr accessSz) :
    (epage log2 addr accessSz).toNat =
      (addr.toNat + accessSz.toNat - 1) / 2 ^ log2.toNat := by
  have hsize := hok.size_pos
  have hrange := hok.in_range
  have hsum : (addr + accessSz.toUInt64).toNat = addr.toNat + accessSz.toNat := by
    rw [UInt64.toNat_add, UInt32.toNat_toUInt64, Nat.mod_eq_of_lt hrange]
  have hlast : (addr + accessSz.toUInt64 - 1).toNat = addr.toNat + accessSz.toNat - 1 := by
    rw [UInt64.toNat_sub_of_le _ _ (by rw [UInt64.le_iff_toNat_le, hsum]; simp; omega), hsum]
    rfl
  rw [epage, UInt64.toNat_shiftRight, Nat.mod_eq_of_lt (by omega), hlast,
    Nat.shiftRight_eq_div_pow]

/-- No well-formed access reaches the last page number, so `page++` cannot wrap. -/
theorem epage_lt {log2 addr : UInt64} {accessSz : UInt32} (hlog2 : log2.toNat ≤ 31)
    (hok : AccessOk addr accessSz) : (epage log2 addr accessSz).toNat < 2 ^ 64 - 1 := by
  have hrange := hok.in_range
  have hsize := hok.size_pos
  rw [toNat_epage hlog2 hok]
  have hdiv := Nat.div_le_self (addr.toNat + accessSz.toNat - 1) (2 ^ log2.toNat)
  omega

theorem exists_onAccess (stamp : UInt64 → RWTime → RWTime) {addr : UInt64} {accessSz : UInt32}
    {s : State} (hlog2 : s.tracePageSizeLog2.toNat ≤ 31) (hok : AccessOk addr accessSz) :
    ∃ fuel t, onAccess stamp fuel addr accessSz s = some t := by
  obtain ⟨exit, fuel, hfuel⟩ := ends_countUp
    (fun page (map : PageMap) => map.insert page (stamp s.currTime (map.entry page)))
    (apage s.tracePageSizeLog2 addr) s.pageLastAccesses (epage_lt hlog2 hok)
  exact ⟨fuel, _, congrArg (Option.map _) hfuel⟩

theorem lookup_foldl_stamp {touch : RWTime → RWTime} (htouch : ∀ r, touch (touch r) = touch r)
    (pages : List UInt64) (map : PageMap) (page : UInt64) :
    (pages.foldl (fun m p => m.insert p (touch (PageMap.entry m p))) map).lookup page =
      if page ∈ pages then some (touch (map.entry page)) else map.lookup page := by
  induction pages generalizing map with
  | nil => simp
  | cons first rest ih =>
    rw [List.foldl_cons, ih]
    by_cases hfirst : page = first
    · subst hfirst
      simp [PageMap.entry, htouch]
    · simp [PageMap.entry, AList.lookup_insert_ne hfirst, hfirst]

/-- After a well-formed access exactly the pages from `apage` to `epage` carry
its time. -/
theorem onAccess_lookup {stamp : UInt64 → RWTime → RWTime}
    (hstamp : ∀ time r, stamp time (stamp time r) = stamp time r) {fuel : Nat} {addr : UInt64}
    {accessSz : UInt32} {s t : State} (hlog2 : s.tracePageSizeLog2.toNat ≤ 31)
    (hok : AccessOk addr accessSz) (haccess : onAccess stamp fuel addr accessSz s = some t)
    (page : UInt64) :
    t.pageLastAccesses.lookup page =
      if apage s.tracePageSizeLog2 addr ≤ page ∧ page ≤ epage s.tracePageSizeLog2 addr accessSz then
        some (stamp s.currTime (s.pageLastAccesses.entry page))
      else s.pageLastAccesses.lookup page := by
  obtain ⟨exit, hends⟩ := ends_countUp
    (fun page (map : PageMap) => map.insert page (stamp s.currTime (map.entry page)))
    (apage s.tracePageSizeLog2 addr) s.pageLastAccesses (epage_lt hlog2 hok)
  unfold onAccess at haccess
  obtain ⟨st, hst, rfl⟩ := Option.map_eq_some_iff.mp haccess
  have hmap := Ends.unique ⟨fuel, hst⟩ hends
  simp only [hmap, ← mem_wordsUpTo]
  exact lookup_foldl_stamp (hstamp s.currTime) _ _ page

/-- The trace line of one map entry, if it has one. -/
def traceOf (startTime endTime : UInt64) (access : Entry) : Option TraceLine :=
  let didRead := inWindow startTime endTime access.2.lastRead
  let didWrite := inWindow startTime endTime access.2.lastWrite
  if didRead || didWrite then some ⟨startTime, endTime, access.1, didRead, didWrite⟩ else none

def TraceLine.isRO (line : TraceLine) : Bool := line.didRead && !line.didWrite

def TraceLine.isRW (line : TraceLine) : Bool := line.didRead && line.didWrite

def TraceLine.isWO (line : TraceLine) : Bool := !line.didRead && line.didWrite

/-- The loop of `summarizeLastAccesses` is a `filterMap` that counts the three
kinds of lines modulo `2^64`. -/
theorem foldl_summarizeOne (startTime endTime : UInt64) (accesses : List Entry) (acc : Summary) :
    accesses.foldl (summarizeOne startTime endTime) acc =
      let lines := accesses.filterMap (traceOf startTime endTime)
      { uniqRO := acc.uniqRO + UInt64.ofNat (lines.countP TraceLine.isRO)
        uniqRW := acc.uniqRW + UInt64.ofNat (lines.countP TraceLine.isRW)
        uniqWO := acc.uniqWO + UInt64.ofNat (lines.countP TraceLine.isWO)
        traces := acc.traces ++ lines } := by
  induction accesses generalizing acc with
  | nil => simp
  | cons access rest ih =>
    rw [List.foldl_cons, ih]
    cases hread : inWindow startTime endTime access.2.lastRead <;>
      cases hwrite : inWindow startTime endTime access.2.lastWrite <;>
      simp [summarizeOne, traceOf, hread, hwrite, TraceLine.isRO, TraceLine.isRW, TraceLine.isWO,
        UInt64.ofNat_add, UInt64.add_assoc, UInt64.add_comm]

theorem phaseOutput_eq (name : Chars) (accesses : List Entry) (s : State) :
    phaseOutput name accesses s =
      let lines := accesses.filterMap (traceOf s.phaseStart (s.currTime + 1))
      let uniqRO := UInt64.ofNat (lines.countP TraceLine.isRO)
      let uniqRW := UInt64.ofNat (lines.countP TraceLine.isRW)
      let uniqWO := UInt64.ofNat (lines.countP TraceLine.isWO)
      .phase (pageSizeInt s.tracePageSizeLog2) s.phaseStart (s.currTime + 1) name
        s.instructionCounter s.ioBytes ::
        (lines.map .trace ++ [.summary uniqRO uniqRW uniqWO (uniqRO + uniqRW + uniqWO)]) := by
  simp [phaseOutput, summarizeLastAccesses, foldl_summarizeOne]

end NdpOffload.NearMap.Tool
