import Mathlib.Tactic.Positivity
import NdpOffload.NearMap.Analyse
import NdpOffload.NearMap.Classification

/-! The log and its analyser agree.  The tool hands each phase over to the
analyser piecewise: the name in one phase line, the counters and the start time
in the next, the pages after it.  `Handover` states what has been handed over
and what is still held by the tool, and every event keeps it. -/
namespace NdpOffload.NearMap.RoundTrip

open Library.Runs Library.Text Tool Analyse

/-! ### What the events say -/

def insns : Event → UInt64
  | .countBbl n => n.toUInt64
  | _ => 0

def ioBytes : Event → UInt64
  | .ioStub bytes => bytes
  | _ => 0

/-- The sum of a quantity over events, modulo `2^64`. -/
def total (quantity : Event → UInt64) (es : List Event) : UInt64 :=
  es.foldl (fun sum e => sum + quantity e) 0

def phaseName : Event → Option Chars
  | .phaseStub name => some name
  | _ => none

def ticks : Event → Bool
  | .countBbl _ => false
  | .routine _ => false
  | _ => true

/-- The clock at each phase marker, when it stood at `n` before the events. -/
def callTimes (n : Nat) : List Event → List UInt64
  | [] => []
  | e :: es =>
      let now := if ticks e then n + 1 else n
      if e.isPhase then UInt64.ofNat now :: callTimes now es else callTimes now es

/-- The end times in the phase lines of a log. -/
def endTimes (out : List LogLine) : List UInt64 :=
  out.filterMap fun
    | .phase _ _ currTime _ _ _ => some currTime
    | _ => none

theorem total_concat (quantity : Event → UInt64) (es : List Event) (e : Event) :
    total quantity (es ++ [e]) = total quantity es + quantity e := by
  simp [total]

theorem callTimes_append (n : Nat) (es fs : List Event) :
    callTimes n (es ++ fs) = callTimes n es ++ callTimes (n + es.countP ticks) fs := by
  induction es generalizing n with
  | nil => simp [callTimes]
  | cons e es ih =>
    simp only [List.cons_append, callTimes, ih, List.countP_cons]
    by_cases htick : ticks e <;> by_cases hphase : e.isPhase <;>
      simp [htick, hphase, Nat.add_assoc, Nat.add_comm 1]

theorem mem_callTimes {n : Nat} {es : List Event} (hsmall : n + es.length < 2 ^ 64) :
    (∀ time ∈ callTimes n es, n < time.toNat) ∧ (callTimes n es).Pairwise (· < ·) := by
  induction es generalizing n with
  | nil => simp [callTimes]
  | cons e es ih =>
    rw [List.length_cons] at hsmall
    by_cases htick : ticks e
    · obtain ⟨hlater, hsorted⟩ := ih (n := n + 1) (by omega)
      have hnow : (UInt64.ofNat (n + 1)).toNat = n + 1 := by
        rw [UInt64.toNat_ofNat', Nat.mod_eq_of_lt (by omega)]
      simp only [callTimes, htick, if_true]
      split
      · refine ⟨?_, List.pairwise_cons.mpr ⟨fun time htime => ?_, hsorted⟩⟩
        · intro time htime
          rcases List.mem_cons.mp htime with rfl | hrest
          · omega
          · exact Nat.lt_of_succ_lt (hlater time hrest)
        · rw [UInt64.lt_iff_toNat_lt, hnow]
          exact hlater time htime
      · exact ⟨fun time htime => Nat.lt_of_succ_lt (hlater time htime), hsorted⟩
    · have hphase : e.isPhase = false := by
        cases e <;> simp_all [ticks, Event.isPhase]
      simp only [callTimes, htick, hphase, Bool.false_eq_true, if_false]
      exact ih (by omega)

/-- One more event either opens a new segment or joins the last one. -/
theorem splitOnP_concat (es : List Event) (e : Event) : ∃ front last,
    es.splitOnP Event.isPhase = front ++ [last] ∧
    (es ++ [e]).splitOnP Event.isPhase =
      if e.isPhase then front ++ [last] ++ [[]] else front ++ [last ++ [e]] := by
  induction es with
  | nil =>
    refine ⟨[], [], rfl, ?_⟩
    by_cases hphase : e.isPhase <;> simp [List.splitOnP_cons_eq_if_modifyHead, hphase]
  | cons first es ih =>
    obtain ⟨front, last, hold, hnew⟩ := ih
    by_cases hfirst : first.isPhase
    · refine ⟨[] :: front, last, ?_, ?_⟩
      · simp [List.splitOnP_cons_eq_if_modifyHead, hfirst, hold]
      · simp only [List.cons_append, List.splitOnP_cons_eq_if_modifyHead, hfirst, if_true, hnew]
        split <;> simp
    · cases front with
      | nil =>
        refine ⟨[], first :: last, ?_, ?_⟩
        · simp [List.splitOnP_cons_eq_if_modifyHead, hfirst, hold]
        · simp only [List.cons_append, List.splitOnP_cons_eq_if_modifyHead, hfirst, hnew]
          by_cases hphase : e.isPhase <;> simp [hphase]
      | cons segment front =>
        refine ⟨(first :: segment) :: front, last, ?_, ?_⟩
        · simp [List.splitOnP_cons_eq_if_modifyHead, hfirst, hold]
        · simp only [List.cons_append, List.splitOnP_cons_eq_if_modifyHead, hfirst, hnew]
          by_cases hphase : e.isPhase <;> simp [hphase]

/-- A quantity per segment, with the segment that is still open at the end. -/
theorem segments_concat (quantity : Event → UInt64) {es : List Event} (e : Event)
    {closed : List UInt64} {current : UInt64}
    (hold : closed ++ [current] = (es.splitOnP Event.isPhase).map (total quantity)) :
    ((es ++ [e]).splitOnP Event.isPhase).map (total quantity) =
      if e.isPhase then closed ++ [current] ++ [0] else closed ++ [current + quantity e] := by
  obtain ⟨front, last, hes, hnext⟩ := splitOnP_concat es e
  rw [hes, List.map_append] at hold
  obtain ⟨hclosed, hcurrent⟩ := List.append_inj' hold rfl
  have hlast : current = total quantity last := by simpa using hcurrent
  rw [hnext, hclosed, hlast]
  split
  · simp [total]
  · simp [total_concat]

/-! ### The analyser on one phase block -/

def insertTrace (accesses : Accesses) (line : TraceLine) : Accesses :=
  match AccessType.tryFromRw line.didRead line.didWrite with
  | some accessty => accesses.insert line.pageIdx accessty
  | none => accesses

theorem foldlM_traces (phases : List TracePhase) (phase : TracePhase) (nextPhase : Chars)
    (traces : List TraceLine) (hok : ∀ line ∈ traces, LineOk (.trace line)) :
    ((traces.map LogLine.trace).map LogLine.render).foldlM analyseLine
        ⟨phases ++ [phase], nextPhase⟩ =
      some ⟨phases ++ [{ phase with accesses := traces.foldl insertTrace phase.accesses }],
        nextPhase⟩ := by
  induction traces generalizing phase with
  | nil => rfl
  | cons line rest ih =>
    have hline := hok line List.mem_cons_self
    have hfirst : analyseLine ⟨phases ++ [phase], nextPhase⟩ (LogLine.render (.trace line)) =
        some ⟨phases ++ [{ phase with accesses := insertTrace phase.accesses line }],
          nextPhase⟩ := by
      rw [analyseLine_trace hline (by simp)]
      simp only [applyLine, List.getLast?_append, List.getLast?_singleton, Option.some_or,
        List.dropLast_concat, insertTrace]
      cases AccessType.tryFromRw line.didRead line.didWrite <;> rfl
    rw [List.map_cons, List.map_cons, List.foldlM_cons, hfirst]
    exact ih _ fun l hl => hok l (List.mem_cons_of_mem _ hl)

theorem lookup_insertTraces {traces : List TraceLine}
    (hnodup : (traces.map TraceLine.pageIdx).Nodup) (accesses : Accesses) (page : UInt64)
    (accessty : AccessType) (hfresh : ∀ line ∈ traces, accesses.lookup line.pageIdx = none) :
    (traces.foldl insertTrace accesses).lookup page = some accessty ↔
      accesses.lookup page = some accessty ∨ ∃ line ∈ traces, line.pageIdx = page ∧
        AccessType.tryFromRw line.didRead line.didWrite = some accessty := by
  induction traces generalizing accesses with
  | nil => simp
  | cons line rest ih =>
    rw [List.map_cons, List.nodup_cons] at hnodup
    have hkeep : ∀ other, other ≠ line.pageIdx →
        (insertTrace accesses line).lookup other = accesses.lookup other := by
      intro other hother
      unfold insertTrace
      split
      · exact AList.lookup_insert_ne hother
      · rfl
    have hrest : ∀ other ∈ rest, (insertTrace accesses line).lookup other.pageIdx = none := by
      intro other hmem
      have hne : other.pageIdx ≠ line.pageIdx := by
        intro heq
        exact hnodup.1 (heq ▸ List.mem_map_of_mem hmem)
      rw [hkeep _ hne]
      exact hfresh other (List.mem_cons_of_mem _ hmem)
    rw [List.foldl_cons, ih hnodup.2 _ hrest]
    by_cases hpage : page = line.pageIdx
    · subst hpage
      have hnone := hfresh line List.mem_cons_self
      have hhere : (insertTrace accesses line).lookup line.pageIdx =
          AccessType.tryFromRw line.didRead line.didWrite := by
        unfold insertTrace
        split
        · rename_i heq
          rw [AList.lookup_insert, heq]
        · rename_i heq
          rw [hnone, heq]
      simp [hhere, hnone]
    · rw [hkeep page hpage]
      have hne : line.pageIdx ≠ page := fun h => hpage h.symm
      simp [hne]

theorem lineOk_traces {startTime endTime : UInt64} {accesses : List Entry} :
    ∀ line ∈ accesses.filterMap (traceOf startTime endTime), LineOk (.trace line) := by
  intro line hmem
  obtain ⟨access, _, htrace⟩ := List.mem_filterMap.mp hmem
  exact (Classification.traceOf_eq_some.mp htrace).2

/-! ### The handover invariant -/

structure Handover (log2 : UInt64) (past : List Event) (s : State) (st : Parsed) : Prop where
  log2_eq : s.tracePageSizeLog2 = log2
  lines_ok : ∀ line ∈ s.out, LineOk line
  parsed : (s.out.map LogLine.render).foldlM analyseLine {} = some st
  clock : s.currTime = UInt64.ofNat (past.countP ticks)
  names : st.phases.map TracePhase.name ++ [st.nextPhase] =
    "pre-main".toList :: past.filterMap phaseName
  sizes : ∀ phase ∈ st.phases, phase.pageSize.toNat = 2 ^ log2.toNat
  starts : st.phases.map TracePhase.startTime ++ [s.phaseStart] = 0 :: callTimes 0 past
  ends : endTimes s.out = callTimes 0 past
  instructions : st.phases.map TracePhase.instructions ++ [s.instructionCounter] =
    (past.splitOnP Event.isPhase).map (total insns)
  io : st.phases.map TracePhase.ioBytes ++ [s.ioBytes] =
    (past.splitOnP Event.isPhase).map (total ioBytes)

theorem handover_start (log2 : UInt64) : Handover log2 [] (start log2) {} where
  log2_eq := rfl
  lines_ok := nofun
  parsed := rfl
  clock := rfl
  names := rfl
  sizes := nofun
  starts := rfl
  ends := rfl
  instructions := rfl
  io := rfl

/-- An event that is no phase marker and writes at most skipped lines. -/
theorem Handover.quiet {log2 : UInt64} {past : List Event} {s t : State} {st : Parsed} {e : Event}
    (hold : Handover log2 past s st) (hphase : e.isPhase = false)
    (hlog2 : t.tracePageSizeLog2 = s.tracePageSizeLog2) (hstart : t.phaseStart = s.phaseStart)
    (hclock : t.currTime = if ticks e then s.currTime + 1 else s.currTime)
    (hinsns : t.instructionCounter = s.instructionCounter + insns e)
    (hio : t.ioBytes = s.ioBytes + ioBytes e)
    (hout : ∃ lines : List LogLine, t.out = s.out ++ lines ∧
      ∀ line ∈ lines, line = .phaseStubFound ∨ line = .ioStubFound) :
    Handover log2 (past ++ [e]) t st := by
  obtain ⟨lines, hlines, hskip⟩ := hout
  have hname : phaseName e = none := by
    cases e <;> simp_all [phaseName, Event.isPhase]
  have htimes : callTimes 0 (past ++ [e]) = callTimes 0 past := by
    rw [callTimes_append]
    simp [callTimes, hphase]
  refine ⟨hlog2.trans hold.log2_eq, ?_, ?_, ?_, ?_, hold.sizes, ?_, ?_, ?_, ?_⟩
  · intro line hmem
    rw [hlines] at hmem
    rcases List.mem_append.mp hmem with hmem | hmem
    · exact hold.lines_ok line hmem
    · rcases hskip line hmem with rfl | rfl <;> trivial
  · rw [hlines, List.map_append, List.foldlM_append, hold.parsed]
    clear hlines
    induction lines with
    | nil => rfl
    | cons line rest ih =>
      have hline := hskip line List.mem_cons_self
      have hother : analyseLine st line.render = some st := by
        apply analyseLine_other <;> rcases hline with rfl | rfl <;> simp
      rw [List.map_cons]
      simp only [Option.bind_eq_bind, Option.bind_some, List.foldlM_cons, hother] at ih ⊢
      exact ih fun l hl => hskip l (List.mem_cons_of_mem _ hl)
  · rw [hclock, hold.clock, List.countP_append]
    by_cases htick : ticks e <;> simp [htick, UInt64.ofNat_add]
  · simpa [hname] using hold.names
  · rw [hstart, htimes]
    exact hold.starts
  · rw [htimes, hlines, endTimes, List.filterMap_append, ← hold.ends, endTimes]
    simp only [List.append_right_eq_self, List.filterMap_eq_nil_iff]
    intro line hmem
    rcases hskip line hmem with rfl | rfl <;> rfl
  · rw [segments_concat insns e hold.instructions, hphase, hinsns]
    rfl
  · rw [segments_concat ioBytes e hold.io, hphase, hio]
    rfl

theorem toInt_pageSizeInt {log2 : UInt64} (hlog2 : log2.toNat ≤ 30) :
    (pageSizeInt log2).toInt = 2 ^ log2.toNat := by
  have hpow : (2 : Int) ^ log2.toNat ≤ 2 ^ 30 := by
    exact_mod_cast Nat.pow_le_pow_right (by decide) hlog2
  have hpos : (0 : Int) < 2 ^ log2.toNat := by positivity
  rw [pageSizeInt, Int32.toInt_ofInt]
  apply Int.bmod_eq_of_le <;> simp [Int32.size] <;> omega

/-- The phase object the analyser has after one call of `PhaseStubReplacement`. -/
def handedOver (log2 : UInt64) (st : Parsed) (traces : List TraceLine) (s : State) : TracePhase :=
  ⟨st.nextPhase, UInt64.ofNat (2 ^ log2.toNat), s.phaseStart, s.instructionCounter, s.ioBytes,
    traces.foldl insertTrace ∅⟩

theorem foldlM_phaseOutput {log2 : UInt64} (hlog2 : log2.toNat ≤ 30) {s : State} {st : Parsed}
    (hsame : s.tracePageSizeLog2 = log2) {name : Chars} (hname : NameOk name)
    (accesses : List Entry) :
    ((phaseOutput name accesses s).map LogLine.render).foldlM analyseLine st =
      some ⟨st.phases ++ [handedOver log2 st
        (accesses.filterMap (traceOf s.phaseStart (s.currTime + 1))) s], name⟩ := by
  have hsize := toInt_pageSizeInt hlog2
  have hok : LineOk (.phase (pageSizeInt log2) s.phaseStart (s.currTime + 1) name
      s.instructionCounter s.ioBytes) := by
    refine ⟨?_, hname⟩
    rw [hsize]
    positivity
  have hnat : ((2 : Int) ^ log2.toNat).toNat = 2 ^ log2.toNat := by
    exact_mod_cast Int.toNat_natCast (2 ^ log2.toNat)
  simp only [phaseOutput_eq, List.map_cons, List.map_append, List.foldlM_cons, hsame,
    analyseLine_phase st hok, applyLine, hsize, hnat, Option.bind_eq_bind, Option.bind_some,
    List.foldlM_append]
  rw [foldlM_traces _ _ _ _ lineOk_traces]
  simp only [Option.bind_some, List.map_nil, List.foldlM_nil]
  rw [analyseLine_other _ (by simp) (by simp)]
  rfl

theorem Handover.phase {log2 : UInt64} (hlog2 : log2.toNat ≤ 30) {past : List Event} {s : State}
    {st : Parsed} (hold : Handover log2 past s st) {name : Chars} (hname : NameOk name)
    (accesses : List Entry) :
    Handover log2 (past ++ [.phaseStub name]) (phaseStubReplacement name accesses s)
      ⟨st.phases ++ [handedOver log2 st
        (accesses.filterMap (traceOf s.phaseStart (s.currTime + 1))) s], name⟩ := by
  have hsmall : 2 ^ log2.toNat < 2 ^ 64 := Nat.pow_lt_pow_right (by decide) (by omega)
  have hnow : s.currTime + 1 = UInt64.ofNat (past.countP ticks + 1) := by
    rw [hold.clock, UInt64.ofNat_add]
    rfl
  have htimes : callTimes 0 (past ++ [.phaseStub name]) =
      callTimes 0 past ++ [s.currTime + 1] := by
    rw [callTimes_append, hnow]
    simp [callTimes, ticks, Event.isPhase]
  refine ⟨hold.log2_eq, ?_, ?_, ?_, ?_, ?_, ?_, ?_, ?_, ?_⟩
  · intro line hmem
    rcases List.mem_append.mp hmem with hmem | hmem
    · exact hold.lines_ok line hmem
    · simp only [phaseOutput_eq, List.mem_cons, List.mem_append, List.mem_map] at hmem
      rcases hmem with rfl | ⟨trace, htrace, rfl⟩ | rfl | hnil
      · refine ⟨?_, hname⟩
        rw [hold.log2_eq, toInt_pageSizeInt hlog2]
        positivity
      · exact lineOk_traces trace htrace
      · trivial
      · cases hnil
  · simp only [phaseStubReplacement, List.map_append, List.foldlM_append, hold.parsed]
    exact foldlM_phaseOutput hlog2 hold.log2_eq hname accesses
  · simpa [phaseStubReplacement, ticks] using hnow
  · simp only [handedOver, List.map_append, List.map_cons, List.map_nil, List.filterMap_append]
    rw [hold.names]
    simp [phaseName]
  · intro phase hmem
    rcases List.mem_append.mp hmem with hmem | hmem
    · exact hold.sizes phase hmem
    · cases List.mem_singleton.mp hmem
      rw [handedOver, UInt64.toNat_ofNat', Nat.mod_eq_of_lt hsmall]
  · have hstart : (phaseStubReplacement name accesses s).phaseStart = s.currTime + 1 :=
      List.getLast_concat
    rw [hstart, htimes, List.map_append, ← List.cons_append, ← hold.starts]
    simp [handedOver]
  · rw [htimes, ← hold.ends]
    simp only [phaseStubReplacement, endTimes, List.filterMap_append, phaseOutput_eq,
      List.filterMap_cons, List.filterMap_nil, List.append_nil,
      List.append_cancel_left_eq, List.cons.injEq, true_and, List.filterMap_eq_nil_iff]
    intro line hmem
    obtain ⟨trace, _, rfl⟩ := List.mem_map.mp hmem
    rfl
  · rw [segments_concat insns (.phaseStub name) hold.instructions]
    simp [handedOver, Event.isPhase, phaseStubReplacement]
  · rw [segments_concat ioBytes (.phaseStub name) hold.io]
    simp [handedOver, Event.isPhase, phaseStubReplacement]

/-- The names in a run are fit for the log. -/
def NamesOk (es : List Event) : Prop := ∀ name, .phaseStub name ∈ es → NameOk name

/-- Every event extends the handover, and finished phases are never revised. -/
theorem Handover.step {log2 : UInt64} (hlog2 : log2.toNat ≤ 30) {past : List Event} {s t : State}
    {st : Parsed} {e : Event} (hold : Handover log2 past s st) (hname : NamesOk [e])
    (hstep : Step s e t) :
    ∃ st', Handover log2 (past ++ [e]) t st' ∧ st.phases <+: st'.phases := by
  cases hstep with
  | onRead fuel haccess =>
    obtain ⟨map, rfl⟩ := onAccess_frame haccess
    exact ⟨st, hold.quiet rfl rfl rfl rfl (by simp [insns]) (by simp [ioBytes])
      ⟨[], by simp, nofun⟩, List.prefix_refl _⟩
  | onWrite fuel haccess =>
    obtain ⟨map, rfl⟩ := onAccess_frame haccess
    exact ⟨st, hold.quiet rfl rfl rfl rfl (by simp [insns]) (by simp [ioBytes])
      ⟨[], by simp, nofun⟩, List.prefix_refl _⟩
  | countBbl n =>
    exact ⟨st, hold.quiet rfl rfl rfl rfl rfl (by simp [countBbl, ioBytes])
      ⟨[], by simp [countBbl], nofun⟩, List.prefix_refl _⟩
  | ioStub bytes =>
    exact ⟨st, hold.quiet rfl rfl rfl rfl (by simp [ioStubReplacement, insns]) rfl
      ⟨[], by simp [ioStubReplacement], nofun⟩, List.prefix_refl _⟩
  | routine rtnName =>
    refine ⟨st, hold.quiet rfl ?_ ?_ ?_ ?_ ?_ ?_, List.prefix_refl _⟩
    all_goals simp only [routine]
    · split <;> split <;> rfl
    · split <;> split <;> rfl
    · split <;> split <;> rfl
    · split <;> split <;> simp [insns]
    · split <;> split <;> simp [ioBytes]
    · split <;> split
      · exact ⟨[.phaseStubFound, .ioStubFound], by simp, by simp⟩
      · exact ⟨[.ioStubFound], by simp, by simp⟩
      · exact ⟨[.phaseStubFound], by simp, by simp⟩
      · exact ⟨[], by simp, nofun⟩
  | phaseStub name accesses hperm =>
    exact ⟨_, hold.phase hlog2 (hname name (by simp)) accesses, List.prefix_append _ _⟩

theorem Handover.run {log2 : UInt64} (hlog2 : log2.toNat ≤ 30) {past es : List Event}
    {s t : State} {st : Parsed} (hold : Handover log2 past s st) (hnames : NamesOk es)
    (hrun : Run Step s es t) :
    ∃ st', Handover log2 (past ++ es) t st' ∧ st.phases <+: st'.phases := by
  induction hrun generalizing past st with
  | nil s => exact ⟨st, by simpa using hold, List.prefix_refl _⟩
  | @cons s t u e es hstep _ ih =>
    obtain ⟨mid, hmid, hfirst⟩ := hold.step hlog2
      (fun name hmem => hnames name (by simp_all)) hstep
    obtain ⟨st', hend, hrest⟩ := ih hmid fun name hmem => hnames name (List.mem_cons_of_mem _ hmem)
    exact ⟨st', by simpa using hend, hfirst.trans hrest⟩

theorem length_filterMap_phaseName (es : List Event) :
    (es.filterMap phaseName).length = es.countP Event.isPhase := by
  induction es with
  | nil => rfl
  | cons e es ih =>
    cases e <;> simp [List.filterMap_cons, List.countP_cons, phaseName, Event.isPhase, ih]

theorem Handover.length_phases {log2 : UInt64} {past : List Event} {s : State} {st : Parsed}
    (hold : Handover log2 past s st) : st.phases.length = past.countP Event.isPhase := by
  have hlength := congrArg List.length hold.names
  simpa [length_filterMap_phaseName] using hlength

theorem Handover.analysed {log2 : UInt64} {past : List Event} {s : State} {st : Parsed}
    (hold : Handover log2 past s st) : analyseFile (logText s.out) = some st := by
  rw [analyseFile, lines_logText hold.lines_ok]
  exact hold.parsed

/-- The segments of a run add up to the run. -/
theorem foldl_segments (quantity : Event → UInt64)
    (hphase : ∀ name, quantity (.phaseStub name) = 0) (es : List Event) :
    ((es.splitOnP Event.isPhase).map (total quantity)).foldl (· + ·) 0 = total quantity es := by
  induction es using List.reverseRecOn with
  | nil => rfl
  | append_singleton es e ih =>
    obtain ⟨front, last, hes, hnext⟩ := splitOnP_concat es e
    rw [hes, List.map_append, List.foldl_append] at ih
    rw [hnext, total_concat, ← ih]
    split
    · rename_i hmark
      cases e with
      | phaseStub name => simp [hphase, total]
      | _ => cases hmark
    · simp [total_concat, UInt64.add_assoc]

/-- The pages of a phase are the ones printed by the call that closes it, and
nothing that is logged later changes them. -/
theorem accesses_of_call {log2 : UInt64} (hlog2 : log2.toNat ≤ 30) {before after : List Event}
    {name : Chars} (hnames : NamesOk (before ++ .phaseStub name :: after)) {r t s : State}
    {st : Parsed} (hbefore : Run Step (start log2) before r) (hcall : Step r (.phaseStub name) t)
    (hafter : Run Step t after s) (hst : analyseFile (logText s.out) = some st) :
    ∃ (phase : TracePhase) (traces : List TraceLine) (pageSize : Int32)
      (instructions bytes uniqRO uniqRW uniqWO sum : UInt64),
      st.phases[before.countP Event.isPhase]? = some phase ∧
      t.out = r.out ++ .phase pageSize r.phaseStart t.currTime name instructions bytes ::
        (traces.map .trace ++ [.summary uniqRO uniqRW uniqWO sum]) ∧
      ∀ page accessty, phase.accesses.lookup page = some accessty ↔ ∃ line ∈ traces,
        line.pageIdx = page ∧
          AccessType.tryFromRw line.didRead line.didWrite = some accessty := by
  obtain ⟨stBefore, hr, _⟩ := (handover_start log2).run hlog2
    (fun n hn => hnames n (List.mem_append_left _ hn)) hbefore
  have hname : NameOk name := hnames name (by simp)
  cases hcall with
  | phaseStub _ accesses hperm =>
    have ht := hr.phase hlog2 hname accesses
    obtain ⟨stEnd, hend, hpre⟩ := ht.run hlog2 (fun n hn => hnames n (by simp [hn])) hafter
    rw [hend.analysed, Option.some_inj] at hst
    subst hst
    have hindex : stEnd.phases[before.countP Event.isPhase]? = some (handedOver log2 stBefore
        (accesses.filterMap (traceOf r.phaseStart (r.currTime + 1))) r) := by
      have hlength := hr.length_phases
      rw [List.nil_append] at hlength
      obtain ⟨rest, hrest⟩ := hpre
      rw [← hrest, ← hlength]
      simp
    have hlookup : ∀ page accessty, (handedOver log2 stBefore (accesses.filterMap
        (traceOf r.phaseStart (r.currTime + 1))) r).accesses.lookup page = some accessty ↔
        ∃ line ∈ accesses.filterMap (traceOf r.phaseStart (r.currTime + 1)),
          line.pageIdx = page ∧
            AccessType.tryFromRw line.didRead line.didWrite = some accessty := by
      intro page accessty
      have hnodup := Classification.nodup_traces r.phaseStart (r.currTime + 1) hperm
      rw [handedOver, lookup_insertTraces hnodup ∅ page accessty (by simp)]
      simp
    exact ⟨_, _, _, _, _, _, _, _, _, hindex,
      congrArg (r.out ++ ·) (phaseOutput_eq name accesses r), hlookup⟩

theorem handover_fini {log2 : UInt64} (hlog2 : log2.toNat ≤ 30) {es : List Event}
    (hnames : NamesOk es) {s : State}
    (hrun : Run Step (start log2) (es ++ [.phaseStub finiName]) s) :
    NamesOk (es ++ [.phaseStub finiName]) ∧
      ∃ st, Handover log2 (es ++ [.phaseStub finiName]) s st := by
  have hall : NamesOk (es ++ [.phaseStub finiName]) := by
    intro name hmem
    rcases List.mem_append.mp hmem with hmem | hmem
    · exact hnames name hmem
    · cases List.mem_singleton.mp hmem
      exact ⟨by decide, by decide⟩
  obtain ⟨st, hst, _⟩ := (handover_start log2).run hlog2 hall hrun
  exact ⟨hall, st, by simpa using hst⟩

/-- The start times the analyser reads are the clock values at the markers. -/
theorem Handover.startTimes {log2 : UInt64} {es : List Event} {s : State} {st : Parsed}
    (hold : Handover log2 (es ++ [.phaseStub finiName]) s st) :
    st.phases.map TracePhase.startTime = 0 :: callTimes 0 es := by
  have hlast : callTimes 0 (es ++ [.phaseStub finiName]) =
      callTimes 0 es ++ [UInt64.ofNat (es.countP ticks + 1)] := by
    rw [callTimes_append]
    simp [callTimes, ticks, Event.isPhase]
  have hstarts := hold.starts
  rw [hlast, ← List.cons_append] at hstarts
  exact (List.append_inj' hstarts rfl).1

/-- The log of a finished run is analysed without a failed `unwrap` into one
phase per marker: names shifted by one, the page size, start times that are the
end times of the phases before, the counts between the markers, and the printed
pages. -/
theorem log_analysed {log2 : UInt64} (hlog2 : log2.toNat ≤ 30) {es : List Event}
    (hnames : NamesOk es) {s : State}
    (hrun : Run Step (start log2) (es ++ [.phaseStub finiName]) s) :
    ∃ st, analyseFile (logText s.out) = some st ∧
      st.phases.length = (es ++ [Event.phaseStub finiName]).countP Event.isPhase ∧
      st.phases.map TracePhase.name = "pre-main".toList :: es.filterMap phaseName ∧
      (∀ phase ∈ st.phases, phase.pageSize.toNat = 2 ^ log2.toNat) ∧
      st.phases.map TracePhase.startTime = 0 :: (endTimes s.out).dropLast ∧
      (es.length < 2 ^ 64 → (st.phases.map TracePhase.startTime).Pairwise (· < ·)) ∧
      st.phases.map TracePhase.instructions =
        (es.splitOnP Event.isPhase).map (total insns) ∧
      st.phases.map TracePhase.ioBytes = (es.splitOnP Event.isPhase).map (total ioBytes) ∧
      (st.phases.map TracePhase.instructions).foldl (· + ·) 0 = total insns es ∧
      (st.phases.map TracePhase.ioBytes).foldl (· + ·) 0 = total ioBytes es ∧
      ∀ (before after : List Event) (name : Chars) (r t : State),
        es ++ [.phaseStub finiName] = before ++ .phaseStub name :: after →
        Run Step (start log2) before r → Step r (.phaseStub name) t → Run Step t after s →
        ∃ (phase : TracePhase) (traces : List TraceLine) (pageSize : Int32)
          (instructions bytes uniqRO uniqRW uniqWO sum : UInt64),
          st.phases[before.countP Event.isPhase]? = some phase ∧
          t.out = r.out ++ .phase pageSize r.phaseStart t.currTime name instructions bytes ::
            (traces.map .trace ++ [.summary uniqRO uniqRW uniqWO sum]) ∧
          ∀ page accessty, phase.accesses.lookup page = some accessty ↔ ∃ line ∈ traces,
            line.pageIdx = page ∧
              AccessType.tryFromRw line.didRead line.didWrite = some accessty := by
  obtain ⟨hall, st, hold⟩ := handover_fini hlog2 hnames hrun
  have hanalysed := hold.analysed
  have hstarts := hold.startTimes
  have hends : (endTimes s.out).dropLast = callTimes 0 es := by
    rw [hold.ends, callTimes_append]
    simp [callTimes, ticks, Event.isPhase]
  have hsegments := hold.instructions
  have hsegmentsIo := hold.io
  obtain ⟨front, last, hes, hnext⟩ := splitOnP_concat es (.phaseStub finiName)
  have hopen : (es ++ [Event.phaseStub finiName]).splitOnP Event.isPhase =
      es.splitOnP Event.isPhase ++ [[]] := by
    rw [hnext, hes]
    rfl
  rw [hopen, List.map_append] at hsegments hsegmentsIo
  have hinsns := (List.append_inj' hsegments rfl).1
  have hio := (List.append_inj' hsegmentsIo rfl).1
  refine ⟨st, hanalysed, hold.length_phases, ?_, hold.sizes, ?_, ?_, hinsns, hio, ?_, ?_, ?_⟩
  · have hshift := hold.names
    rw [List.filterMap_append, ← List.cons_append] at hshift
    exact (List.append_inj' hshift rfl).1
  · rw [hstarts, hends]
  · intro hlength
    have hsmall : 0 + es.length < 2 ^ 64 := by omega
    obtain ⟨hlater, hsorted⟩ := mem_callTimes hsmall
    rw [hstarts]
    refine List.pairwise_cons.mpr ⟨fun time htime => ?_, hsorted⟩
    rw [UInt64.lt_iff_toNat_lt]
    exact hlater time htime
  · rw [hinsns]
    exact foldl_segments insns (fun _ => rfl) es
  · rw [hio]
    exact foldl_segments ioBytes (fun _ => rfl) es
  · intro before after name r t hsplit hbefore hcall hafter
    exact accesses_of_call hlog2 (hsplit ▸ hall) hbefore hcall hafter hanalysed

/-- A run with one marker before `Fini`: two phases, of which the second has
executed seven instructions. -/
theorem log_analysed_two_phases : ∃ s st,
    Run Step (start 12) ([.onRead 4096 8, .phaseStub "main".toList, .onWrite 4096 8,
      .countBbl 7] ++ [.phaseStub finiName]) s ∧
    analyseFile (logText s.out) = some st ∧
    st.phases.map TracePhase.name = ["pre-main".toList, "main".toList] ∧
    st.phases.map TracePhase.instructions = [0, 7] := by
  have hnames : NamesOk [.onRead 4096 8, .phaseStub "main".toList, .onWrite 4096 8,
      .countBbl 7] := by
    intro name hmem
    simp only [List.mem_cons, reduceCtorEq, Event.phaseStub.injEq, List.not_mem_nil, false_or,
      or_false] at hmem
    subst hmem
    exact ⟨by decide, by decide⟩
  obtain ⟨s, hrun⟩ : ∃ s, Run Step (start 12) ([.onRead 4096 8, .phaseStub "main".toList,
      .onWrite 4096 8, .countBbl 7] ++ [.phaseStub finiName]) s :=
    ⟨_, .cons (.onRead 2 rfl) (.cons (.phaseStub _ _ (.refl _)) (.cons (.onWrite 2 rfl)
      (.cons (.countBbl 7) (.cons (.phaseStub _ _ (.refl _)) (.nil _)))))⟩
  obtain ⟨st, hst, _, hname, _, _, _, hinsns, _⟩ := log_analysed (by decide) hnames hrun
  exact ⟨s, st, hrun, hst, hname, hinsns⟩

/-- Two markers with `n` I/O notices between them. -/
def markersApart (n : Nat) : List Event :=
  .phaseStub "a".toList :: (List.replicate n (.ioStub 0) ++ [.phaseStub "b".toList])

theorem callTimes_markersApart (n : Nat) :
    callTimes 0 (markersApart n) = [1, UInt64.ofNat (n + 2)] := by
  have hnotices : ∀ m k, callTimes k (List.replicate m (.ioStub 0)) = [] ∧
      (List.replicate m (Event.ioStub 0)).countP ticks = m := by
    intro m
    induction m with
    | zero => simp [callTimes]
    | succ m ih =>
      intro k
      obtain ⟨htimes, hcount⟩ := ih (k + 1)
      simp [List.replicate_succ, List.countP_cons, callTimes, ticks, Event.isPhase, htimes,
        hcount]
  have hcount : callTimes 1 (List.replicate n (.ioStub 0) ++ [.phaseStub "b".toList]) =
      [UInt64.ofNat (n + 2)] := by
    rw [callTimes_append, (hnotices n 1).1, (hnotices n 1).2]
    simp only [callTimes, ticks, Event.isPhase, if_true, List.nil_append]
    congr 2
    omega
  rw [markersApart, callTimes]
  simp only [ticks, Event.isPhase, if_true, hcount]
  rfl

/-- The clock is a 64-bit word: when `2^64 - 1` notices lie between two markers
it comes back to where it was, and the third phase starts when the second did. -/
theorem startTimes_not_increasing : ∃ s st,
    Run Step (start 12) (markersApart (2 ^ 64 - 1) ++ [.phaseStub finiName]) s ∧
    NamesOk (markersApart (2 ^ 64 - 1)) ∧
    analyseFile (logText s.out) = some st ∧
    st.phases.map TracePhase.startTime = [0, 1, 1] ∧
    ¬ (st.phases.map TracePhase.startTime).Pairwise (· < ·) := by
  have hnames : NamesOk (markersApart (2 ^ 64 - 1)) := by
    intro name hmem
    simp only [markersApart, List.mem_cons, List.mem_append, List.mem_replicate, reduceCtorEq,
      and_false, Event.phaseStub.injEq, List.not_mem_nil, or_false, false_or] at hmem
    rcases hmem with rfl | rfl <;> exact ⟨by decide, by decide⟩
  have hquiet : ∀ e ∈ markersApart (2 ^ 64 - 1) ++ [.phaseStub finiName],
      (∃ name, e = .phaseStub name) ∨ e = .ioStub 0 := by
    intro e hmem
    simp only [markersApart, List.cons_append, List.append_assoc, List.mem_cons,
      List.mem_append, List.mem_replicate, List.not_mem_nil, or_false] at hmem
    rcases hmem with rfl | ⟨_, rfl⟩ | rfl | ⟨⟨⟩⟩ | rfl <;> simp
  have hsteps : ∀ (s : State) (e : Event), ((∃ name, e = .phaseStub name) ∨ e = .ioStub 0) →
      ∃ t, Step s e t := by
    rintro s e (⟨name, rfl⟩ | rfl)
    · exact ⟨_, .phaseStub name _ (.refl _)⟩
    · exact ⟨_, .ioStub 0⟩
  obtain ⟨s, hrun⟩ := exists_run _ hsteps _ hquiet (start 12)
  obtain ⟨_, st, hold⟩ := handover_fini (by decide) hnames hrun
  have hstarts : st.phases.map TracePhase.startTime = [0, 1, 1] := by
    rw [hold.startTimes, callTimes_markersApart]
    rfl
  refine ⟨s, st, hrun, hnames, hold.analysed, hstarts, ?_⟩
  rw [hstarts]
  decide

end NdpOffload.NearMap.RoundTrip
