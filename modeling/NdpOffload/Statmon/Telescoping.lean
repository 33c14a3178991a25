import Mathlib.Data.List.Chain
import NdpOffload.Statmon.Ranges

/-! Range sums of counters.  Each update hands the raw counters it extracted
over to the next one, so the increases reported in a range add up to the
difference between its two ends. -/
namespace NdpOffload.Statmon.Telescoping

open Library.Outcomes Library.Runs Library.Text Library.Windows
open Table Sources Monitor Refresh Server History Ranges

variable {F : Type}

/-- The raw counter behind a statistic that reports increases, as last extracted. -/
def rawCounter (s : Stats F) : WhichStat → Option Int64
  | .netRxBytes => some s.netRxRef
  | .netRxErrors => some s.netRxeRef
  | .netTxBytes => some s.netTxRef
  | .netTxErrors => some s.netTxeRef
  | .contextSwitches => some s.cpu.contextSwitches.toInt64
  | .cpumsUser => some (s.cpu.cpuTotals .userMode).toInt64
  | .cpumsNice => some (s.cpu.cpuTotals .niceUserMode).toInt64
  | .cpumsSystem => some (s.cpu.cpuTotals .systemMode).toInt64
  | .cpumsIdle => some (s.cpu.cpuTotals .idle).toInt64
  | .cpumsIowait => some (s.cpu.cpuTotals .ioWait).toInt64
  | .cpumsIrq => some (s.cpu.cpuTotals .irq).toInt64
  | .cpumsSoftirq => some (s.cpu.cpuTotals .softIrq).toInt64
  | .ioReadsCompleted => some (s.io.ioTotals .readsCompleted).toInt64
  | .ioReadsMerged => some (s.io.ioTotals .readsMerged).toInt64
  | .ioSectorsRead => some (s.io.ioTotals .sectorsRead).toInt64
  | .ioMsReading => some (s.io.ioTotals .msReading).toInt64
  | .ioWritesCompleted => some (s.io.ioTotals .writesCompleted).toInt64
  | .ioWritesMerged => some (s.io.ioTotals .writesMerged).toInt64
  | .ioSectorsWritten => some (s.io.ioTotals .sectorsWritten).toInt64
  | .ioMsWriting => some (s.io.ioTotals .msWriting).toInt64
  | _ => none

/-! ### One reference per extraction -/

/-- After an extraction the last values are those of the one before. -/
structure CpuStat.HandsOver (cpu next : CpuStat) : Prop where
  isOpen : next.isOpen = cpu.isOpen
  totals : next.cpuTotalsLast = cpu.cpuTotals
  switches : next.contextSwitchesLast = cpu.contextSwitches

theorem storeU64_leaves {σ : Type} {P : σ → Prop} {text : Chars} {store : UInt64 → σ → σ} {s : σ}
    (hs : P s) (hstore : ∀ val, P (store val s)) : (storeU64 text store s).Leaves P := by
  unfold storeU64
  split
  · exact hstore _
  · exact hs

/-- What handing over establishes and storing values keeps holds after an
extraction, also after a failed one. -/
theorem cpuExtract_rule {P : CpuStat → Prop} (text : Option Chars) {cpu : CpuStat}
    (hstart : ∀ rewound, P { cpu.handOver with rewound := rewound })
    (hstore : ∀ (next : CpuStat) totals switches running blocked, P next →
      P { next with
        cpuTotals := totals, contextSwitches := switches, procsRunning := running,
        procsIoBlocked := blocked }) : (cpu.extract text).Leaves P := by
  unfold CpuStat.extract
  split
  · exact hstart false
  · refine leaves_each _ (fun line _ next hnext => ?_) (hstart true)
    unfold CpuStat.readLine
    split
    · refine leaves_each _ (fun item _ next hnext => ?_) hnext
      exact storeU64_leaves hnext fun val => hstore next _ _ _ _ hnext
    · split
      · exact storeU64_leaves hnext fun val => hstore next _ _ _ _ hnext
      · split
        · exact storeU64_leaves hnext fun val => hstore next _ _ _ _ hnext
        · split
          · exact storeU64_leaves hnext fun val => hstore next _ _ _ _ hnext
          · exact hnext

theorem cpuExtract_leaves (text : Option Chars) (cpu : CpuStat) :
    (cpu.extract text).Leaves (CpuStat.HandsOver cpu) :=
  cpuExtract_rule text (fun _ => ⟨rfl, rfl, rfl⟩) fun _ _ _ _ _ hnext =>
    ⟨hnext.isOpen, hnext.totals, hnext.switches⟩

structure IoStat.HandsOver (io next : IoStat) : Prop where
  isOpen : next.isOpen = io.isOpen
  totals : next.ioTotalsLast = io.ioTotals

theorem ioExtract_leaves (text : Option Chars) (io : IoStat) :
    (io.extract text).Leaves (IoStat.HandsOver io) := by
  have hstart : ∀ rewound, IoStat.HandsOver io { io.handOver with rewound := rewound } :=
    fun _ => ⟨rfl, rfl⟩
  unfold IoStat.extract
  split
  · exact hstart false
  · refine leaves_each _ (fun line _ next hnext => ?_) (hstart true)
    simp only [IoStat.readLine]
    split
    · exact hnext
    · refine leaves_each _ (fun item _ next hnext => ?_) hnext
      exact storeU64_leaves hnext fun val => ⟨hnext.isOpen, hnext.totals⟩

/-- The successful extractions of one update, in order. -/
def cpuExtractions (now : Moment) (cpu : CpuStat) : List CpuStat :=
  if cpu.isOpen then
    match cpu.extract now.procStat.text with
    | .done next => [next]
    | _ => []
  else
    match CpuStat.extract now.procStat.firstText
      { cpu with isOpen := true, msPerClk := 1000 / now.clkTck } with
    | .done first => match first.extract now.procStat.text with
        | .done next => [first, next]
        | _ => [first]
    | _ => []

def ioExtractions (now : Moment) (io : IoStat) : List IoStat :=
  if io.isOpen then
    match io.extract now.diskstats.text with
    | .done next => [next]
    | _ => []
  else
    match IoStat.extract now.diskstats.firstText { io with isOpen := true } with
    | .done first => match first.extract now.diskstats.text with
        | .done next => [first, next]
        | _ => [first]
    | _ => []

/-- A successful update ends with an extraction that took over from its
predecessor, which is the update before once the file is open. -/
theorem cpuUpdate_done {now : Moment} {cpu next : CpuStat}
    (hupdate : cpu.update now.clkTck now.procStat = .done next) :
    next.isOpen = true ∧ ∃ before earlier, cpu :: cpuExtractions now cpu = earlier ++ [before, next] ∧
      CpuStat.HandsOver before next ∧ (cpu.isOpen = true → before = cpu) := by
  unfold CpuStat.update at hupdate
  split at hupdate
  · rename_i hopen
    have hnext := (cpuExtract_leaves _ cpu).of_done hupdate
    refine ⟨hnext.isOpen.trans hopen, cpu, [], ?_, hnext, fun _ => rfl⟩
    simp [cpuExtractions, hopen, hupdate]
  · rename_i hclosed
    split at hupdate
    · cases hupdate
    · split at hupdate
      · cases hupdate
      · rw [andThen_eq_done] at hupdate
        obtain ⟨first, hfirst, hsecond⟩ := hupdate
        have hhand := (cpuExtract_leaves _ _).of_done hfirst
        have hnext := (cpuExtract_leaves _ first).of_done hsecond
        refine ⟨hnext.isOpen.trans hhand.isOpen, first, [cpu], ?_, hnext, fun h => absurd h hclosed⟩
        simp [cpuExtractions, hclosed, hfirst, hsecond]

theorem ioUpdate_done {now : Moment} {io next : IoStat}
    (hupdate : io.update now.diskstats = .done next) :
    next.isOpen = true ∧ ∃ before earlier, io :: ioExtractions now io = earlier ++ [before, next] ∧
      IoStat.HandsOver before next ∧ (io.isOpen = true → before = io) := by
  unfold IoStat.update at hupdate
  split at hupdate
  · rename_i hopen
    have hnext := (ioExtract_leaves _ io).of_done hupdate
    refine ⟨hnext.isOpen.trans hopen, io, [], ?_, hnext, fun _ => rfl⟩
    simp [ioExtractions, hopen, hupdate]
  · rename_i hclosed
    split at hupdate
    · cases hupdate
    · rw [andThen_eq_done] at hupdate
      obtain ⟨first, hfirst, hsecond⟩ := hupdate
      have hhand := (ioExtract_leaves _ _).of_done hfirst
      have hnext := (ioExtract_leaves _ first).of_done hsecond
      refine ⟨hnext.isOpen.trans hhand.isOpen, first, [io], ?_, hnext, fun h => absurd h hclosed⟩
      simp [ioExtractions, hclosed, hfirst, hsecond]

/-! ### The values of one update -/

theorem netColumn_done {fields : List Chars} {column : Nat} {which : WhichStat}
    {ref : Stats F → Int64} {setRef : Int64 → Stats F → Stats F} {s t : Stats F}
    (hdone : netColumn fields column which ref setRef s = .done t) :
    ∃ value, t = setRef value (s.seti which (value - ref s)) := by
  unfold netColumn at hdone
  split at hdone
  · cases hdone
  · split at hdone
    · cases hdone
    · rename_i value _
      exact ⟨value, by cases hdone; rfl⟩

/-- The network statistics of `t` are the increases of the references since `s`. -/
structure NetDeltas (s t : Stats F) : Prop where
  rx : (t.stats .netRxBytes).valueNow = .int (t.netRxRef - s.netRxRef)
  rxe : (t.stats .netRxErrors).valueNow = .int (t.netRxeRef - s.netRxeRef)
  tx : (t.stats .netTxBytes).valueNow = .int (t.netTxRef - s.netTxRef)
  txe : (t.stats .netTxErrors).valueNow = .int (t.netTxeRef - s.netTxeRef)

/-- A successful parse has read one line, the bytes received first. -/
theorem parseNet_done {text : Chars} {s t : Stats F} (hdone : s.parseNet text = .done t) :
    NetDeltas s t ∧ t.netOpen = s.netOpen ∧ t.netRewound = s.netRewound ∧
      ∃ line ∈ (lines text).map (trim isWhitespace), ∃ u,
        s.netRx (words isWhitespace line) = .done u ∧ t.netRxRef = u.netRxRef := by
  unfold Stats.parseNet at hdone
  split at hdone
  · cases hdone
  · rename_i line hline
    simp only [andThen_eq_done] at hdone
    obtain ⟨s₄, ⟨s₃, ⟨s₂, ⟨s₁, hrx, hrxe⟩, htx⟩, htxe⟩, hlast⟩ := hdone
    have hfirst := hrx
    obtain ⟨rx, rfl⟩ := netColumn_done hrx
    obtain ⟨rxe, rfl⟩ := netColumn_done hrxe
    obtain ⟨tx, rfl⟩ := netColumn_done htx
    obtain ⟨txe, rfl⟩ := netColumn_done htxe
    split at hlast
    · cases hlast
    · cases hlast
      exact ⟨⟨rfl, rfl, rfl, rfl⟩, rfl, rfl, line, List.mem_of_find?_eq_some hline, _, hfirst, rfl⟩

theorem readSource_done {source : Source} {isOpen : Bool} {onOpenError : Error}
    {mark : Bool → Stats F} {parse : Chars → Stats F → Result (Stats F)} {s t : Stats F}
    (hdone : readSource source isOpen onOpenError mark parse s = .done t) :
    ∃ text, source.text = some text ∧ parse text (mark true) = .done t := by
  unfold readSource at hdone
  split at hdone
  · cases hdone
  · split at hdone
    · cases hdone
    · exact ⟨_, ‹_›, hdone⟩

/-- A successful phase has parsed its text with the file open. -/
theorem updNet_done {source : Source} {s t : Stats F} (hdone : s.updNet source = .done t) :
    ∃ text iface, source.text = some text ∧
      ({ s with netOpen := true, netRewound := true, netIface := iface } : Stats F).parseNet text =
        .done t := by
  unfold Stats.updNet at hdone
  split at hdone
  · rename_i hopen
    obtain ⟨text, htext, hparse⟩ := readSource_done hdone
    rw [hopen] at hparse
    exact ⟨text, s.netIface, htext, hparse⟩
  · split at hdone
    · cases hdone
    · obtain ⟨text, htext, hparse⟩ := readSource_done hdone
      exact ⟨text, _, htext, hparse⟩

theorem updNet_deltas {source : Source} {s t : Stats F} (hdone : s.updNet source = .done t) :
    NetDeltas s t := by
  obtain ⟨text, iface, -, hparse⟩ := updNet_done hdone
  obtain ⟨hdeltas, -⟩ := parseNet_done hparse
  exact ⟨hdeltas.rx, hdeltas.rxe, hdeltas.tx, hdeltas.txe⟩

/-- The statistic that reports a CPU total. -/
def CpuTotals.stat : CpuTotals → Option WhichStat
  | .userMode => some .cpumsUser
  | .niceUserMode => some .cpumsNice
  | .systemMode => some .cpumsSystem
  | .idle => some .cpumsIdle
  | .ioWait => some .cpumsIowait
  | .irq => some .cpumsIrq
  | .softIrq => some .cpumsSoftirq
  | .steal => none
  | .guest => none
  | .guestNice => none

def IoTotals.stat : IoTotals → WhichStat
  | .readsCompleted => .ioReadsCompleted
  | .readsMerged => .ioReadsMerged
  | .sectorsRead => .ioSectorsRead
  | .msReading => .ioMsReading
  | .writesCompleted => .ioWritesCompleted
  | .writesMerged => .ioWritesMerged
  | .sectorsWritten => .ioSectorsWritten
  | .msWriting => .ioMsWriting

theorem setCpu_now (s : Stats F) {i : CpuTotals} {which : WhichStat}
    (hstat : CpuTotals.stat i = some which) :
    (s.setCpu.stats which).valueNow = .int (s.cpu.cpuTotalsMs i).toInt64 := by
  cases i <;> cases hstat <;> simp [Stats.setCpu, Stat.setNow]

theorem setCpu_switches (s : Stats F) :
    (s.setCpu.stats .contextSwitches).valueNow = .int s.cpu.contextSwitchesDelta.toInt64 := by
  simp [Stats.setCpu, Stat.setNow]

theorem setIo_now (s : Stats F) (i : IoTotals) :
    (s.setIo.stats (IoTotals.stat i)).valueNow = .int (s.io.ioTotalsMs i).toInt64 := by
  cases i <;> simp [IoTotals.stat, Stats.setIo, Stat.setNow]

/-- The references of the network phase. -/
def netRefs (s : Stats F) : Int64 × Int64 × Int64 × Int64 :=
  (s.netRxRef, s.netRxeRef, s.netTxRef, s.netTxeRef)

theorem NetDeltas.transport {s t s' t' : Stats F} (hdeltas : NetDeltas s t)
    (hs : netRefs s' = netRefs s) (ht : netRefs t' = netRefs t)
    (hstats : ∀ which ∈ netStats, t'.stats which = t.stats which) : NetDeltas s' t' := by
  simp only [netRefs, Prod.mk.injEq] at hs ht
  obtain ⟨hrx, hrxe, htx, htxe⟩ := hs
  obtain ⟨hrx', hrxe', htx', htxe'⟩ := ht
  refine ⟨?_, ?_, ?_, ?_⟩
  · rw [hstats _ (by decide), hrx, hrx', hdeltas.rx]
  · rw [hstats _ (by decide), hrxe, hrxe', hdeltas.rxe]
  · rw [hstats _ (by decide), htx, htx', hdeltas.tx]
  · rw [hstats _ (by decide), htxe, htxe', hdeltas.txe]

/-- What a successful update from `s` to `t` reports. -/
structure Reports (now : Moment) (s t : Stats F) : Prop where
  net : NetDeltas s t
  cpu : s.cpu.update now.clkTck now.procStat = .done t.cpu
  io : s.io.update now.diskstats = .done t.io
  cpums : ∀ i which, CpuTotals.stat i = some which →
    (t.stats which).valueNow = .int (t.cpu.cpuTotalsMs i).toInt64
  switches : (t.stats .contextSwitches).valueNow = .int t.cpu.contextSwitchesDelta.toInt64
  disk : ∀ i, (t.stats (IoTotals.stat i)).valueNow = .int (t.io.ioTotalsMs i).toInt64

/-- The state of the sources. -/
def raws (s : Stats F) : CpuStat × IoStat × Int64 × Int64 × Int64 × Int64 :=
  (s.cpu, s.io, netRefs s)

theorem raws_onlyStats {touched : WhichStat → Prop} {s t : Stats F}
    (hst : OnlyStats touched s t) : raws t = raws s := by
  rw [hst.rest]
  rfl

/-- The files read before the network phase leave the sources alone. -/
theorem raws_before_net [F64 F] {now : Moment} {s s₁ s₂ s₃ : Stats F}
    (hload : s.updLoadavg now.loadavg = .done s₁) (hmem : s₁.updMeminfo now.meminfo = .done s₂)
    (hfaasm : s₂.updFaasm now.faasm = .done s₃) : raws s₃ = raws s := by
  have h₁ := raws_onlyStats ((updLoadavg_leaves _ s).of_done hload)
  have h₂ := raws_onlyStats ((updMeminfo_leaves _ s₁).of_done hmem)
  have h₃ := raws_onlyStats ((updFaasm_leaves _ s₂).of_done hfaasm)
  exact h₃.trans (h₂.trans h₁)

theorem cpuStat_notMem {i : CpuTotals} {which : WhichStat}
    (hstat : CpuTotals.stat i = some which) : which ∉ eventStats ∧ which ∉ ioStats := by
  cases i <;> cases hstat <;> decide

theorem netStats_notMem {which : WhichStat} (hwhich : which ∈ netStats) :
    which ∉ eventStats ∧ which ∉ ioStats ∧ which ∉ cpuStats := by
  revert which
  decide

theorem refresh_reports [F64 F] {now : Moment} {s t : Stats F}
    (hrefresh : s.refresh now = .done t) : Reports now s t := by
  simp only [Stats.refresh, andThen_eq_done] at hrefresh
  obtain ⟨s₆, ⟨s₅, ⟨s₄, ⟨s₃, ⟨s₂, ⟨s₁, hload, hmem⟩, hfaasm⟩, hnet⟩, hcpu⟩, hevents⟩, hio⟩ :=
    hrefresh
  have hbefore := raws_before_net hload hmem hfaasm
  have hnetOnly := (updNet_leaves _ s₃).of_done hnet
  -- the CPU phase
  obtain ⟨cpuSet, hcpuSet, hs₅⟩ := hcpu
  obtain ⟨cpu, hcpu, rfl⟩ := map_eq_done.mp hcpuSet
  cases hs₅
  have hcpuOnly := setCpu_onlyStats { s₄ with cpu := cpu }
  -- the counters
  obtain ⟨stats, hstats, rfl⟩ := map_eq_done.mp hevents
  have hevents := (updateEvents_leaves _ _ _).of_done hstats
  -- the disk phase
  obtain ⟨ioSet, hioSet, ht⟩ := hio
  obtain ⟨io, hio, rfl⟩ := map_eq_done.mp hioSet
  cases ht
  have hioOnly := setIo_onlyStats
    { (Stats.setCpu { s₄ with cpu := cpu }) with stats := stats, io := io }
  have hlater : ∀ which, which ∉ eventStats → which ∉ ioStats →
      ((Stats.setIo { (Stats.setCpu { s₄ with cpu := cpu }) with stats := stats, io := io }).stats
        which) = (Stats.setCpu { s₄ with cpu := cpu }).stats which := by
    intro which hnotEvent hnotIo
    rw [hioOnly.stats.untouched hnotIo]
    exact hevents.untouched hnotEvent
  have hafterCpu := raws_onlyStats hcpuOnly
  have hafterIo := raws_onlyStats hioOnly
  simp only [raws, Prod.mk.injEq] at hbefore hafterCpu hafterIo
  obtain ⟨hcpuBefore, hioBefore, hrefsBefore⟩ := hbefore
  obtain ⟨hcpuAfter, hioMid, hrefsMid⟩ := hafterCpu
  obtain ⟨hcpuLast, hioLast, hrefsLast⟩ := hafterIo
  refine ⟨?_, ?_, ?_, ?_, ?_, ?_⟩
  · apply (updNet_deltas hnet).transport hrefsBefore.symm (hrefsLast.trans hrefsMid)
    intro which hwhich
    rw [hlater which (netStats_notMem hwhich).1 (netStats_notMem hwhich).2.1]
    exact hcpuOnly.stats.untouched (netStats_notMem hwhich).2.2
  · have hcpuNet : s₄.cpu = s₃.cpu := by rw [hnetOnly.rest]
    rw [hcpuLast, ← hcpuBefore, ← hcpuNet]
    exact hcpu.trans (by rw [hcpuAfter])
  · have hioNet : s₄.io = s₃.io := by rw [hnetOnly.rest]
    rw [hioLast, ← hioBefore, ← hioNet]
    exact hioMid ▸ hio
  · intro i which hstat
    rw [hlater which (cpuStat_notMem hstat).1 (cpuStat_notMem hstat).2, setCpu_now _ hstat,
      hcpuLast, hcpuAfter]
  · rw [hlater _ (by decide) (by decide), setCpu_switches, hcpuLast, hcpuAfter]
  · intro i
    rw [setIo_now, hioLast]

/-- Aggregating changes neither current values nor sources. -/
theorem update_reports [F64 F] {now : Moment} {s t : Stats F}
    (hupdate : s.update now = .done t) : Reports now s t := by
  obtain ⟨u, hrefresh, hrest, hidle, hadds⟩ := update_done hupdate
  have hreports := refresh_reports hrefresh
  have hnow : ∀ which, (t.stats which).valueNow = (u.stats which).valueNow := by
    intro which
    by_cases hinRange : u.inRange = true
    · exact (updateAggregate_eq_some (hadds hinRange which)).2
    · rw [hidle (by simpa using hinRange)]
  have hcpu : t.cpu = u.cpu := by rw [hrest]
  have hio : t.io = u.io := by rw [hrest]
  have hrefs : netRefs t = netRefs u := by rw [hrest]; rfl
  simp only [netRefs, Prod.mk.injEq] at hrefs
  obtain ⟨hrx, hrxe, htx, htxe⟩ := hrefs
  refine ⟨⟨?_, ?_, ?_, ?_⟩, ?_, ?_, ?_, ?_, ?_⟩
  · rw [hnow, hrx, hreports.net.rx]
  · rw [hnow, hrxe, hreports.net.rxe]
  · rw [hnow, htx, hreports.net.tx]
  · rw [hnow, htxe, hreports.net.txe]
  · rw [hcpu, hreports.cpu]
  · rw [hio, hreports.io]
  · intro i which hstat
    rw [hnow, hcpu, hreports.cpums i which hstat]
  · rw [hnow, hcpu, hreports.switches]
  · intro i
    rw [hnow, hio, hreports.disk i]

section Delta

variable {now : Moment} {s t : Stats F}

/-- Every counter statistic reports the increase since the extraction before,
which is that of the last update once the files are open. -/
theorem Reports.delta (hreports : Reports now s t) {which : WhichStat} {old new : Int64}
    (hold : rawCounter s which = some old) (hnew : rawCounter t which = some new) :
    ∃ value, (t.stats which).valueNow = .int value ∧
      (s.cpu.isOpen = true → s.io.isOpen = true → value = new - old) := by
  obtain ⟨-, cpuBefore, -, -, hcpu, hcpuSame⟩ := cpuUpdate_done hreports.cpu
  obtain ⟨-, ioBefore, -, -, hio, hioSame⟩ := ioUpdate_done hreports.io
  have hcpums : ∀ i, s.cpu.isOpen = true → s.io.isOpen = true →
      (t.cpu.cpuTotalsMs i).toInt64 =
        (t.cpu.cpuTotals i).toInt64 - (s.cpu.cpuTotals i).toInt64 := by
    intro i hopen _
    rw [CpuStat.cpuTotalsMs, hcpu.totals, hcpuSame hopen, UInt64.toInt64_sub]
  have hswitches : s.cpu.isOpen = true → s.io.isOpen = true →
      t.cpu.contextSwitchesDelta.toInt64 =
        t.cpu.contextSwitches.toInt64 - s.cpu.contextSwitches.toInt64 := by
    intro hopen _
    rw [CpuStat.contextSwitchesDelta, hcpu.switches, hcpuSame hopen, UInt64.toInt64_sub]
  have hdisk : ∀ i, s.cpu.isOpen = true → s.io.isOpen = true →
      (t.io.ioTotalsMs i).toInt64 =
        (t.io.ioTotals i).toInt64 - (s.io.ioTotals i).toInt64 := by
    intro i _ hopen
    rw [IoStat.ioTotalsMs, hio.totals, hioSame hopen, UInt64.toInt64_sub]
  cases which <;> cases hold <;> cases hnew
  case netRxBytes => exact ⟨_, hreports.net.rx, fun _ _ => rfl⟩
  case netRxErrors => exact ⟨_, hreports.net.rxe, fun _ _ => rfl⟩
  case netTxBytes => exact ⟨_, hreports.net.tx, fun _ _ => rfl⟩
  case netTxErrors => exact ⟨_, hreports.net.txe, fun _ _ => rfl⟩
  case contextSwitches => exact ⟨_, hreports.switches, hswitches⟩
  case cpumsUser => exact ⟨_, hreports.cpums .userMode _ rfl, hcpums _⟩
  case cpumsNice => exact ⟨_, hreports.cpums .niceUserMode _ rfl, hcpums _⟩
  case cpumsSystem => exact ⟨_, hreports.cpums .systemMode _ rfl, hcpums _⟩
  case cpumsIdle => exact ⟨_, hreports.cpums .idle _ rfl, hcpums _⟩
  case cpumsIowait => exact ⟨_, hreports.cpums .ioWait _ rfl, hcpums _⟩
  case cpumsIrq => exact ⟨_, hreports.cpums .irq _ rfl, hcpums _⟩
  case cpumsSoftirq => exact ⟨_, hreports.cpums .softIrq _ rfl, hcpums _⟩
  case ioReadsCompleted => exact ⟨_, hreports.disk .readsCompleted, hdisk _⟩
  case ioReadsMerged => exact ⟨_, hreports.disk .readsMerged, hdisk _⟩
  case ioSectorsRead => exact ⟨_, hreports.disk .sectorsRead, hdisk _⟩
  case ioMsReading => exact ⟨_, hreports.disk .msReading, hdisk _⟩
  case ioWritesCompleted => exact ⟨_, hreports.disk .writesCompleted, hdisk _⟩
  case ioWritesMerged => exact ⟨_, hreports.disk .writesMerged, hdisk _⟩
  case ioSectorsWritten => exact ⟨_, hreports.disk .sectorsWritten, hdisk _⟩
  case ioMsWriting => exact ⟨_, hreports.disk .msWriting, hdisk _⟩

end Delta

theorem rawCounter_isSome (s t : Stats F) {which : WhichStat} {old : Int64}
    (hold : rawCounter s which = some old) : ∃ new, rawCounter t which = some new := by
  cases which <;> first | exact ⟨_, rfl⟩ | cases hold

/-! ### Sums over a range -/

/-- Within a range: the sums are the increases since the opening update. -/
structure Telescoped (opened s : Stats F) : Prop where
  cpuOpen : s.cpu.isOpen = true
  ioOpen : s.io.isOpen = true
  sums : ∀ which old new, rawCounter opened which = some old → rawCounter s which = some new →
    (s.stats which).valueSum = .int (new - old)

variable [F64 F]

theorem telescoped_opened {s u t : Stats F} {now : Moment} {counters : Counters}
    (hupdate : s.update now = .done u) (hbegin : u.beginRange counters = .done t) :
    Telescoped t t ∧ t.inRange = true := by
  have hreports := update_reports hupdate
  obtain rfl := beginRange_done hbegin
  refine ⟨⟨(cpuUpdate_done hreports.cpu).1, (ioUpdate_done hreports.io).1, ?_⟩, rfl⟩
  intro which old new hold hnew
  obtain ⟨before, hbefore⟩ := rawCounter_isSome _ s hold
  have hafter : rawCounter u which = some old := by cases which <;> exact hold
  obtain ⟨value, hvalue, -⟩ := hreports.delta hbefore hafter
  have hsame : new = old := Option.some.inj (hnew.symm.trans hold)
  simp [Stat.reset, hvalue, StatValue.zeroval, hsame]

/-- A further update in the range adds the increase since the last one. -/
theorem Telescoped.updated {opened s t : Stats F} {now : Moment} (htele : Telescoped opened s)
    (hinRange : s.inRange = true) (hupdate : s.update now = .done t) : Telescoped opened t := by
  have hreports := update_reports hupdate
  obtain ⟨u, hrefresh, hrest, -, hadds⟩ := update_done hupdate
  have hrefreshes := (refresh_leaves now s).of_done hrefresh
  refine ⟨(cpuUpdate_done hreports.cpu).1, (ioUpdate_done hreports.io).1, ?_⟩
  intro which old new hold hnew
  obtain ⟨mid, hmid⟩ := rawCounter_isSome _ s hold
  obtain ⟨value, hvalue, hdelta⟩ := hreports.delta hmid hnew
  have hsum : (u.stats which).valueSum = .int (mid - old) := by
    obtain ⟨now, hnow, -⟩ := hrefreshes.stats which
    rw [hnow]
    exact htele.sums which old mid hold hmid
  obtain ⟨hadd, hsame⟩ := updateAggregate_eq_some (hadds (hrefreshes.inRange.trans hinRange) which)
  rw [← hsame, hvalue, hdelta htele.cpuOpen htele.ioOpen] at hadd
  simp only [Aggregates.add, aggregates, Option.bind_eq_bind, Option.bind_eq_some_iff] at hadd
  obtain ⟨low, -, high, -, sum, htotal, hnext⟩ := hadd
  rw [hsum] at htotal
  simp only [StatValue.setAdd, StatValue.combine, Option.some.injEq] at htotal
  have hvalueSum : (t.stats which).valueSum = sum :=
    (congrArg Aggregates.valueSum (Option.some.inj hnext)).symm
  rw [hvalueSum, ← htotal]
  congr 1
  grind

theorem Telescoped.plain_step {opened : Stats F} {s t : State F} {e : Event F}
    (htele : Telescoped opened s.stats) (hinRange : s.stats.inRange = true)
    (hplain : e.isPlain = true) (hstep : Step s e t) :
    Telescoped opened t.stats ∧ t.stats.inRange = true := by
  rcases Server.plain_step hstep hplain with hsame | ⟨now, hupdate⟩
  · rw [hsame]
    exact ⟨htele, hinRange⟩
  · obtain ⟨u, hrefresh, hrest, -, -⟩ := update_done hupdate
    refine ⟨htele.updated hinRange hupdate, ?_⟩
    rw [hrest]
    exact ((refresh_leaves now s.stats).of_done hrefresh).inRange.trans hinRange

theorem Telescoped.run {opened : Stats F} {s t : State F} {during : List (Event F)}
    (htele : Telescoped opened s.stats) (hinRange : s.stats.inRange = true)
    (hplain : ∀ e ∈ during, e.isPlain = true) (hrun : Run Step s during t) :
    Telescoped opened t.stats ∧ t.stats.inRange = true :=
  hrun.invariant (fun u => Telescoped opened u.stats ∧ u.stats.inRange = true)
    (fun _ _ _ hok hinv hstep => hinv.1.plain_step hinv.2 hok hstep) hplain ⟨htele, hinRange⟩

/-! ### Extractions that never decrease -/

def CpuRises (before next : CpuStat) : Prop :=
  (∀ i, before.cpuTotals i ≤ next.cpuTotals i) ∧ before.contextSwitches ≤ next.contextSwitches

def IoRises (before next : IoStat) : Prop := ∀ i, before.ioTotals i ≤ next.ioTotals i

/-- No raw counter that the update extracts is below the one extracted before. -/
def RawsRise (now : Moment) (s : Stats F) : Prop :=
  (s.cpu :: cpuExtractions now s.cpu).IsChain CpuRises ∧
    (s.io :: ioExtractions now s.io).IsChain IoRises

/-- The subtractions of `cpu_totals_ms`, `context_switches` and `io_totals_ms`
do not underflow. -/
structure NoUnderflow (s : Stats F) : Prop where
  cpu : ∀ i, s.cpu.cpuTotalsLast i ≤ s.cpu.cpuTotals i
  switches : s.cpu.contextSwitchesLast ≤ s.cpu.contextSwitches
  io : ∀ i, s.io.ioTotalsLast i ≤ s.io.ioTotals i

theorem noUnderflow_of_rise {now : Moment} {s t : Stats F} (hupdate : s.update now = .done t)
    (hrise : RawsRise now s) : NoUnderflow t := by
  have hreports := update_reports hupdate
  obtain ⟨-, cpuBefore, cpuEarlier, hcpus, hcpu, -⟩ := cpuUpdate_done hreports.cpu
  obtain ⟨-, ioBefore, ioEarlier, hios, hio, -⟩ := ioUpdate_done hreports.io
  have hcpuRise : CpuRises cpuBefore t.cpu := by
    have hchain := hrise.1
    rw [hcpus] at hchain
    exact List.isChain_pair.mp hchain.right_of_append
  have hioRise : IoRises ioBefore t.io := by
    have hchain := hrise.2
    rw [hios] at hchain
    exact List.isChain_pair.mp hchain.right_of_append
  refine ⟨?_, ?_, ?_⟩
  · rw [hcpu.totals]
    exact hcpuRise.1
  · rw [hcpu.switches]
    exact hcpuRise.2
  · rw [hio.totals]
    exact hioRise

/-- From a `[` to the next `]` with any number of ticks and other bytes between
them, the sum reported for a counter is the raw counter extracted at the end
minus the one extracted at the start; and in whatever state an update happens,
its subtractions do not underflow as long as the raw counters do not decrease. -/
theorem range_sums_telescope {s₀ s₁ s₂ s₃ : State F} {during : List (Event F)}
    {opener closer : Nat} {openedAt closedAt : Moment}
    {openedWith closedWith : WhichStat → StatValue F} {reply sent : Option Chars}
    (hopened : Step s₀ (.byte opener '['.toUInt8 openedAt openedWith reply) s₁)
    (hplain : ∀ e ∈ during, e.isPlain = true) (hrun : Run Step s₁ during s₂)
    (hclosed : Step s₂ (.byte closer ']'.toUInt8 closedAt closedWith sent) s₃) :
    sent = some s₃.stats.statPacket ∧
    (∀ which old new, rawCounter s₁.stats which = some old →
      rawCounter s₃.stats which = some new →
      (s₃.stats.stats which).valueSum = .int (new - old)) ∧
    (∀ (s t : Stats F) (now : Moment), s.update now = .done t → RawsRise now s →
      NoUnderflow t) := by
  refine ⟨(closing_sent hclosed).1, ?_, fun s t now => noUnderflow_of_rise⟩
  have hstart : Telescoped s₁.stats s₁.stats ∧ s₁.stats.inRange = true := by
    cases hopened with
    | byte _ hserved =>
      rw [connHandler_opening, ofResult_eq_goesOn, andThen_eq_done] at hserved
      obtain ⟨⟨u, hupdate, hbegin⟩, -⟩ := hserved
      exact telescoped_opened hupdate hbegin
  obtain ⟨htele, hinRange⟩ := hstart.1.run hstart.2 hplain hrun
  cases hclosed with
  | byte _ hserved =>
    rw [connHandler_closing, ofResult_eq_goesOn, andThen_eq_done] at hserved
    obtain ⟨⟨u, hupdate, hend⟩, -⟩ := hserved
    have hlast := htele.updated hinRange hupdate
    obtain rfl := endRange_done hend
    intro which old new hold hnew
    exact hlast.sums which old new hold (by cases which <;> exact hnew)

/-- The first update of a fresh monitor on the quiet host extracts twice. -/
theorem quiet_rise :
    RawsRise quiet ({ Stats.new quietEvents with netIface := "lo".toList } : Stats Int) := by
  refine ⟨?_, ?_⟩
  · have hextractions : ∃ first next : CpuStat,
        cpuExtractions quiet {} = [first, next] ∧ CpuRises {} first ∧ CpuRises first next := by
      refine ⟨_, _, rfl, ⟨?_, ?_⟩, ⟨?_, ?_⟩⟩
      · intro i
        cases i <;> decide
      · decide
      · intro i
        cases i <;> decide
      · decide
    obtain ⟨first, next, heq, hfirst, hnext⟩ := hextractions
    show ({} :: cpuExtractions quiet {}).IsChain CpuRises
    rw [heq]
    simp [hfirst, hnext]
  · have hextractions : ∃ first next : IoStat,
        ioExtractions quiet {} = [first, next] ∧ IoRises {} first ∧ IoRises first next := by
      refine ⟨_, _, rfl, ?_, ?_⟩ <;>
      · intro i
        cases i <;> decide
    obtain ⟨first, next, heq, hfirst, hnext⟩ := hextractions
    show ({} :: ioExtractions quiet {}).IsChain IoRises
    rw [heq]
    simp [hfirst, hnext]

/-- A range with one tick, and the very first update. -/
theorem range_sums_telescope_quiet :
    ∃ (s₁ s₃ : State Int) (t : Stats Int),
      (s₃.stats.stats .netRxBytes).valueSum = .int (s₃.stats.netRxRef - s₁.stats.netRxRef) ∧
      Stats.update quiet { Stats.new quietEvents with netIface := "lo".toList } = .done t ∧
      NoUnderflow t := by
  obtain ⟨s, values, hs⟩ := quietRun_opened 0
  obtain ⟨s', hs'⟩ := hs.tick
  obtain ⟨s₃, hs₃⟩ := hs'.closing 0
  obtain ⟨opts, s₀, hboot, hrun⟩ := hs₃.run
  obtain ⟨s₁, hopened, hrest⟩ := run_cons_iff.mp hrun
  obtain ⟨s₂, hduring, hlast⟩ := run_append_iff.mp hrest
  obtain ⟨-, hsums, hunderflow⟩ := range_sums_telescope hopened (by simp [Event.isPlain]) hduring
    (run_singleton_iff.mp hlast)
  obtain ⟨t, ht, -⟩ := quiet_update
    (tracks_new ({ Stats.new quietEvents with netIface := "lo".toList } : Stats Int) rfl rfl)
    ⟨rfl, .inl ⟨rfl, rfl⟩⟩
  exact ⟨s₁, s₃, t, hsums .netRxBytes _ _ rfl rfl, ht, hunderflow _ t quiet ht quiet_rise⟩

end NdpOffload.Statmon.Telescoping
