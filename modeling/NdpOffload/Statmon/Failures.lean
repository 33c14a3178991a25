import NdpOffload.Statmon.Descriptors

/-! What a failed update leaves behind for the next one.  It adds no sample to a
range, but the references and values that it has stored stay, so a later update
reports the increases since the failed one. -/
namespace NdpOffload.Statmon.Failures

open Library.Outcomes Library.Runs Library.Text Library.Windows
open Table Sources Monitor Refresh Server History Ranges Telescoping Descriptors

variable {F : Type}

/-! ### Two updates in step -/

/-- Both have the same new value, or each still has its old one. -/
def Alike {α : Type*} (a a' b b' : α) : Prop := b' = b ∨ b = a ∧ b' = a'

section Alike

variable {α β : Type*} {a a' b b' : α}

theorem Alike.start (a a' : α) : Alike a a' a a' := .inr ⟨rfl, rfl⟩

theorem Alike.same (a a' b : α) : Alike a a' b b := .inl rfl

theorem Alike.map (halike : Alike a a' b b') (f : α → β) : Alike (f a) (f a') (f b) (f b') := by
  obtain heq | ⟨hb, hb'⟩ := halike
  · exact .inl (congrArg f heq)
  · exact .inr ⟨congrArg f hb, congrArg f hb'⟩

/-- Both set one entry to the same value. -/
theorem Alike.update {ι : Type*} [DecidableEq ι] {f f' g g' : ι → α}
    (halike : ∀ i, Alike (f i) (f' i) (g i) (g' i)) (j : ι) (val : α) (i : ι) :
    Alike (f i) (f' i) (Function.update g j val i) (Function.update g' j val i) := by
  by_cases hi : i = j
  · subst hi
    rw [Function.update_self, Function.update_self]
    exact .same _ _ _
  · rw [Function.update_of_ne hi, Function.update_of_ne hi]
    exact halike i

end Alike

structure CpuAlike (c c' d d' : CpuStat) : Prop where
  msPerClk : d'.msPerClk = d.msPerClk
  totals : ∀ i, Alike (c.cpuTotals i) (c'.cpuTotals i) (d.cpuTotals i) (d'.cpuTotals i)
  switches : Alike c.contextSwitches c'.contextSwitches d.contextSwitches d'.contextSwitches
  running : Alike c.procsRunning c'.procsRunning d.procsRunning d'.procsRunning
  blocked : Alike c.procsIoBlocked c'.procsIoBlocked d.procsIoBlocked d'.procsIoBlocked

def IoAlike (c c' d d' : IoStat) : Prop :=
  ∀ i, Alike (c.ioTotals i) (c'.ioTotals i) (d.ioTotals i) (d'.ioTotals i)

theorem storeU64_follows {σ τ : Type} {R : σ → τ → Prop} {text : Chars} {store : UInt64 → σ → σ}
    {store' : UInt64 → τ → τ} {s : σ} {s' : τ} (hstore : ∀ val, R (store val s) (store' val s')) :
    (storeU64 text store s).Follows R (storeU64 text store' s') := by
  unfold storeU64
  split
  · exact follows_done (hstore _)
  · exact follows_failed _ _ _

section Sources

variable {c c' d d' : CpuStat}

theorem CpuAlike.storeTotal (hd : CpuAlike c c' d d') (field : CpuTotals) (val : UInt64) :
    CpuAlike c c' (d.storeTotal field val) (d'.storeTotal field val) := by
  refine ⟨hd.msPerClk, ?_, hd.switches, hd.running, hd.blocked⟩
  intro i
  simp only [CpuStat.storeTotal, hd.msPerClk]
  exact Alike.update hd.totals field _ i

theorem CpuAlike.extract (hd : CpuAlike c c' d d') (text : Option Chars) :
    (d.extract text).Follows (CpuAlike c c') (d'.extract text) := by
  have hstart : CpuAlike c c' { d.handOver with rewound := true }
      { d'.handOver with rewound := true } :=
    ⟨hd.msPerClk, hd.totals, hd.switches, hd.running, hd.blocked⟩
  unfold CpuStat.extract
  cases text with
  | none => exact follows_failed _ _ _
  | some text =>
    refine follows_each (fun line e e' he => ?_) _ hstart
    unfold CpuStat.readLine
    split
    · refine follows_each (fun item f f' hf => ?_) _ he
      exact storeU64_follows fun val => hf.storeTotal item.2 val
    · split
      · exact storeU64_follows fun val =>
          ⟨he.msPerClk, he.totals, .same _ _ _, he.running, he.blocked⟩
      · split
        · exact storeU64_follows fun val =>
            ⟨he.msPerClk, he.totals, he.switches, .same _ _ _, he.blocked⟩
        · split
          · exact storeU64_follows fun val =>
              ⟨he.msPerClk, he.totals, he.switches, he.running, .same _ _ _⟩
          · exact follows_done he

theorem IoAlike.extract {c c' d d' : IoStat} (hd : IoAlike c c' d d') (text : Option Chars) :
    (d.extract text).Follows (IoAlike c c') (d'.extract text) := by
  have hstart : IoAlike c c' { d.handOver with rewound := true }
      { d'.handOver with rewound := true } := hd
  unfold IoStat.extract
  cases text with
  | none => exact follows_failed _ _ _
  | some text =>
    refine follows_each (fun line e e' he => ?_) _ hstart
    simp only [IoStat.readLine]
    split
    · exact follows_done he
    · refine follows_each (fun item f f' hf => ?_) _ he
      exact storeU64_follows fun val => Alike.update hf item.2 _

end Sources

/-- The statistics whose current value is what the files say. -/
def IsGauge (which : WhichStat) : Prop :=
  which ∉ netStats ∧ which ∉ cpuStats ∧ which ∉ ioStats

instance (which : WhichStat) : Decidable (IsGauge which) := inferInstanceAs (Decidable (_ ∧ _ ∧ _))

def NowAlike (s s' : Stats F) (a a' : StatArray F) : Prop :=
  ∀ which, IsGauge which → Alike (s.stats which).valueNow (s'.stats which).valueNow
    (a which).valueNow (a' which).valueNow

/-- Two updates with the same files, one from `s` and one from `s'`, have got to
`u` and `u'`. -/
structure Lags (s s' u u' : Stats F) : Prop where
  events : u'.events = u.events
  cpu : CpuAlike s.cpu s'.cpu u.cpu u'.cpu
  io : IoAlike s.io s'.io u.io u'.io
  netRx : Alike s.netRxRef s'.netRxRef u.netRxRef u'.netRxRef
  netRxe : Alike s.netRxeRef s'.netRxeRef u.netRxeRef u'.netRxeRef
  netTx : Alike s.netTxRef s'.netTxRef u.netTxRef u'.netTxRef
  netTxe : Alike s.netTxeRef s'.netTxeRef u.netTxeRef u'.netTxeRef
  now : NowAlike s s' u.stats u'.stats

theorem NowAlike.setNow {s s' : Stats F} {a a' : StatArray F} (ha : NowAlike s s' a a')
    {which : WhichStat} {value value' : StatValue F} (hvalue : IsGauge which → value' = value) :
    NowAlike s s' (a.setNow which value) (a'.setNow which value') := by
  intro other hother
  simp only [StatArray.setNow]
  by_cases heq : other = which
  · subst heq
    simp only [Function.update_self, Stat.setNow]
    exact .inl (hvalue hother)
  · simp only [Function.update_of_ne heq]
    exact ha other hother

section Lags

variable {s s' u u' : Stats F}

theorem Lags.setNow (hu : Lags s s' u u') {which : WhichStat} {value value' : StatValue F}
    (hvalue : IsGauge which → value' = value) :
    Lags s s' (u.setNow which value) (u'.setNow which value') :=
  { hu with now := hu.now.setNow hvalue }

/-- Neither is a gauge. -/
theorem Lags.seti_counter (hu : Lags s s' u u') {which : WhichStat} (hwhich : ¬ IsGauge which)
    (value value' : Int64) : Lags s s' (u.seti which value) (u'.seti which value') :=
  hu.setNow fun hgauge => absurd hgauge hwhich

theorem Lags.setCpu (hu : Lags s s' u u') : Lags s s' u.setCpu u'.setCpu := by
  unfold Stats.setCpu
  repeat' refine Lags.seti_counter ?_ (by decide) _ _
  exact hu

theorem Lags.setIo (hu : Lags s s' u u') : Lags s s' u.setIo u'.setIo := by
  unfold Stats.setIo
  repeat' refine Lags.seti_counter ?_ (by decide) _ _
  exact hu

theorem readSource_follows {R : Stats F → Stats F → Prop} {source : Source} {onOpenError : Error}
    {mark mark' : Bool → Stats F} {parse : Chars → Stats F → Result (Stats F)}
    (hparse : ∀ text, (parse text (mark true)).Follows R (parse text (mark' true))) :
    (readSource source true onOpenError mark parse u).Follows R
      (readSource source true onOpenError mark' parse u') := by
  unfold readSource
  simp only [Bool.not_true, Bool.false_and, Bool.false_eq_true, if_false]
  cases source.text with
  | none => exact follows_failed _ _ _
  | some text => exact hparse text

variable {iface : Chars} {msPerClk : UInt64}

/-- The relation of the two updates between their phases. -/
def InStep (iface : Chars) (msPerClk : UInt64) (s s' u u' : Stats F) : Prop :=
  Settled iface msPerClk u ∧ Settled iface msPerClk u' ∧ Lags s s' u u'

theorem InStep.updLoadavg [F64 F] (hu : InStep iface msPerClk s s' u u') (source : Source) :
    (u.updLoadavg source).Follows (InStep iface msPerClk s s') (u'.updLoadavg source) := by
  obtain ⟨hs, hs', hlags⟩ := hu
  refine Outcome.Follows.and_leaves ?_ (hs.updLoadavg source) (hs'.updLoadavg source)
  rw [Stats.updLoadavg, Stats.updLoadavg, hs.loadavg, hs'.loadavg]
  refine readSource_follows fun text => ?_
  unfold Stats.parseLoadavg
  split
  · exact follows_failed _ _ _
  · split
    · exact follows_failed _ _ _
    · refine follows_done (Lags.setNow ?_ fun _ => rfl)
      exact { hlags with }

theorem InStep.updMeminfo (hu : InStep iface msPerClk s s' u u') (source : Source) :
    (u.updMeminfo source).Follows (InStep iface msPerClk s s') (u'.updMeminfo source) := by
  obtain ⟨hs, hs', hlags⟩ := hu
  refine Outcome.Follows.and_leaves ?_ (hs.updMeminfo source) (hs'.updMeminfo source)
  rw [Stats.updMeminfo, Stats.updMeminfo, hs.meminfo, hs'.meminfo]
  refine readSource_follows fun text => follows_each (fun line v v' hv => ?_) _ ?_
  · unfold Stats.readMeminfoLine
    split
    · exact follows_failed _ _ _
    · split
      · exact follows_done (hv.setNow fun _ => rfl)
      · exact follows_done hv
  · exact { hlags with }

theorem InStep.updFaasm (hu : InStep iface msPerClk s s' u u') (source : Source) :
    (u.updFaasm source).Follows (InStep iface msPerClk s s') (u'.updFaasm source) := by
  obtain ⟨hs, hs', hlags⟩ := hu
  refine Outcome.Follows.and_leaves ?_ (hs.updFaasm source) (hs'.updFaasm source)
  rw [Stats.updFaasm, Stats.updFaasm, hs.faasm, hs'.faasm]
  refine readSource_follows fun text => follows_each (fun field v v' hv => ?_) _ ?_
  · unfold Stats.readFaasmField
    split
    · exact follows_failed _ _ _
    · split
      · exact follows_failed _ _ _
      · exact follows_done (hv.setNow fun _ => rfl)
  · exact { hlags with }

/-- The increases differ by the difference of the references; afterwards these agree. -/
theorem Lags.netColumn {fields : List Chars} {column : Nat} {which : WhichStat}
    {ref : Stats F → Int64} {setRef : Int64 → Stats F → Stats F} (hwhich : ¬ IsGauge which)
    (hset : ∀ value v v', Lags s s' v v' → Lags s s' (setRef value v) (setRef value v'))
    (hu : Lags s s' u u') :
    (Monitor.netColumn fields column which ref setRef u).Follows (Lags s s')
      (Monitor.netColumn fields column which ref setRef u') := by
  unfold Monitor.netColumn
  split
  · exact follows_panicked _ _
  · split
    · exact follows_failed _ _ _
    · exact follows_done (hset _ _ _ (hu.seti_counter hwhich _ _))

theorem InStep.updNet (hu : InStep iface msPerClk s s' u u') (source : Source) :
    (u.updNet source).Follows (InStep iface msPerClk s s') (u'.updNet source) := by
  obtain ⟨hs, hs', hlags⟩ := hu
  refine Outcome.Follows.and_leaves ?_ (hs.updNet source) (hs'.updNet source)
  rw [Stats.updNet, Stats.updNet, if_pos hs.net, if_pos hs'.net]
  refine readSource_follows fun text => ?_
  unfold Stats.parseNet
  rw [hs.netIface, hs'.netIface]
  split
  · exact follows_panicked _ _
  · refine Outcome.Follows.andThen (Outcome.Follows.andThen (Outcome.Follows.andThen
      (Outcome.Follows.andThen ?_ ?_) ?_) ?_) ?_
    · exact Lags.netColumn (by decide) (fun _ _ _ hv => { hv with netRx := .same _ _ _ })
        { hlags with }
    · exact fun _ _ hv =>
        hv.netColumn (by decide) fun _ _ _ hv => { hv with netRxe := .same _ _ _ }
    · exact fun _ _ hv =>
        hv.netColumn (by decide) fun _ _ _ hv => { hv with netTx := .same _ _ _ }
    · exact fun _ _ hv =>
        hv.netColumn (by decide) fun _ _ _ hv => { hv with netTxe := .same _ _ _ }
    · intro v v' hv
      split
      · exact follows_panicked _ _
      · exact follows_done hv

theorem InStep.updCpu (hu : InStep iface msPerClk s s' u u') (now : Moment) :
    ((u.updCpu now).andThen fun v => .done v.setCpu).Follows (InStep iface msPerClk s s')
      ((u'.updCpu now).andThen fun v => .done v.setCpu) := by
  obtain ⟨hs, hs', hlags⟩ := hu
  refine Outcome.Follows.and_leaves ?_ (hs.updCpu now) (hs'.updCpu now)
  refine Outcome.Follows.andThen (R := Lags s s') ?_ fun v v' hv => follows_done hv.setCpu
  rw [Stats.updCpu, Stats.updCpu, CpuStat.update, CpuStat.update, if_pos hs.cpu, if_pos hs'.cpu]
  exact (hlags.cpu.extract now.procStat.text).map fun _ _ hcpu => { hlags with cpu := hcpu }

theorem InStep.updEvents (hu : InStep iface msPerClk s s' u u') (now : Moment) :
    (u.updEvents now).Follows (InStep iface msPerClk s s') (u'.updEvents now) := by
  obtain ⟨hs, hs', hlags⟩ := hu
  refine Outcome.Follows.and_leaves ?_ (hs.updEvents now) (hs'.updEvents now)
  rw [Stats.updEvents, Stats.updEvents, hlags.events]
  have hevents : (u.events.update now.counters u.stats).Follows (NowAlike s s')
      (u.events.update now.counters u'.stats) := by
    refine follows_each (fun entry a a' ha => ?_) _ hlags.now
    unfold updateEvent
    split
    · exact follows_done (ha.setNow fun _ => rfl)
    · exact follows_failed _ _ _
  exact hevents.map fun _ _ hnow =>
    { hlags with events := rfl, now := hnow }

theorem InStep.updIo (hu : InStep iface msPerClk s s' u u') (now : Moment) :
    ((u.updIo now).andThen fun v => .done v.setIo).Follows (InStep iface msPerClk s s')
      ((u'.updIo now).andThen fun v => .done v.setIo) := by
  obtain ⟨hs, hs', hlags⟩ := hu
  refine Outcome.Follows.and_leaves ?_ (hs.updIo now) (hs'.updIo now)
  refine Outcome.Follows.andThen (R := Lags s s') ?_ fun v v' hv => follows_done hv.setIo
  rw [Stats.updIo, Stats.updIo, IoStat.update, IoStat.update, if_pos hs.io, if_pos hs'.io]
  exact (hlags.io.extract now.diskstats.text).map fun _ _ hio => { hlags with io := hio }

theorem InStep.refresh [F64 F] (hu : InStep iface msPerClk s s' u u') (now : Moment) :
    (u.refresh now).Follows (InStep iface msPerClk s s') (u'.refresh now) := by
  refine Outcome.Follows.andThen (Outcome.Follows.andThen (Outcome.Follows.andThen
    (Outcome.Follows.andThen (Outcome.Follows.andThen (Outcome.Follows.andThen ?_ ?_) ?_) ?_) ?_) ?_) ?_
  · exact hu.updLoadavg now.loadavg
  · exact fun _ _ hv => hv.updMeminfo now.meminfo
  · exact fun _ _ hv => hv.updFaasm now.faasm
  · exact fun _ _ hv => hv.updNet now.net
  · exact fun _ _ hv => hv.updCpu now
  · exact fun _ _ hv => hv.updEvents now
  · exact fun _ _ hv => hv.updIo now

end Lags

/-- What an update without a word about the statistic would show. -/
def held (s : Stats F) : WhichStat → StatValue F
  | .procsRunning => .int s.cpu.procsRunning.toInt64
  | .procsBlocked => .int s.cpu.procsIoBlocked.toInt64
  | which => (s.stats which).valueNow

theorem cpuStats_notMem {which : WhichStat} (hwhich : which ∈ cpuStats) :
    which ∉ eventStats ∧ which ∉ ioStats := by
  revert which
  decide

/-- The statistics of `/proc/stat` show the state of its reader. -/
theorem refresh_cpuStats [F64 F] {now : Moment} {s t : Stats F}
    (hrefresh : s.refresh now = .done t) :
    ∃ v : Stats F, v.cpu = t.cpu ∧ ∀ which ∈ cpuStats, t.stats which = v.setCpu.stats which := by
  simp only [Stats.refresh, andThen_eq_done] at hrefresh
  obtain ⟨s₆, ⟨s₅, ⟨s₄, -, hcpu⟩, hevents⟩, hio⟩ := hrefresh
  obtain ⟨v, -, hs₅⟩ := hcpu
  cases hs₅
  obtain ⟨stats, hstats, rfl⟩ := map_eq_done.mp hevents
  obtain ⟨w, hw, ht⟩ := hio
  obtain ⟨io, -, rfl⟩ := map_eq_done.mp hw
  cases ht
  have hioOnly := setIo_onlyStats { v.setCpu with stats := stats, io := io }
  have hafterCpu := raws_onlyStats (setCpu_onlyStats v)
  have hafterIo := raws_onlyStats hioOnly
  simp only [raws, Prod.mk.injEq] at hafterCpu hafterIo
  refine ⟨v, by rw [hafterIo.1, hafterCpu.1], ?_⟩
  · intro which hwhich
    obtain ⟨hevent, hdisk⟩ := cpuStats_notMem hwhich
    rw [hioOnly.stats.untouched hdisk]
    exact ((updateEvents_leaves _ _ _).of_done hstats).untouched hevent

section Aggregating

variable [F64 F] {s s' t u u' : Stats F} {now : Moment}

/-- An update in a range adds one sample to every statistic. -/
theorem update_adds (hinRange : s.inRange = true) (hupdate : s.update now = .done t)
    (which : WhichStat) :
    (aggregates (s.stats which)).add (t.stats which).valueNow =
      some (aggregates (t.stats which)) := by
  obtain ⟨u, hrefresh, -, -, hadds⟩ := update_done hupdate
  have hrefreshes := (refresh_leaves now s).of_done hrefresh
  obtain ⟨hadd, hnow⟩ :=
    updateAggregate_eq_some (hadds (hrefreshes.inRange.trans hinRange) which)
  obtain ⟨value, hvalue, -⟩ := hrefreshes.stats which
  have hsame : aggregates (u.stats which) = aggregates (s.stats which) := by rw [hvalue]; rfl
  rw [← hsame, hnow]
  exact hadd

theorem failed_aggregates {error : Error} (hfailed : s.update now = .failed error t)
    (which : WhichStat) : aggregates (t.stats which) = aggregates (s.stats which) := by
  obtain ⟨value, hvalue, -⟩ := (update_failed hfailed).stats which
  rw [hvalue]
  rfl

/-- The aggregation keeps what the refresh has put there. -/
theorem update_of_refresh (hrefresh : s.refresh now = .done u) (hupdate : s.update now = .done t) :
    t = { u with stats := t.stats } ∧ ∀ which, (t.stats which).valueNow = (u.stats which).valueNow := by
  obtain ⟨v, hv, hrest, hidle, hadds⟩ := update_done hupdate
  cases hrefresh.symm.trans hv
  refine ⟨hrest, fun which => ?_⟩
  by_cases hinRange : u.inRange = true
  · exact (updateAggregate_eq_some (hadds hinRange which)).2
  · rw [hidle (by simpa using hinRange)]

/-- An update that succeeds from `s` succeeds from what a failed one has left. -/
theorem update_after_failure {history : List (Mark × (WhichStat → StatValue F))} {error : Error}
    {failedAt : Moment} (htracks : Tracks history s) (hs : Running s)
    (hfailed : s.update failedAt = .failed error s') (hdone : s.update now = .done t) :
    ∃ u u' t', s.refresh now = .done u ∧ s'.refresh now = .done u' ∧
      s'.update now = .done t' ∧ Lags s s' u u' := by
  have hleft := update_failed hfailed
  have hstart : InStep s.netIface s.cpu.msPerClk s s' s s' := by
    have hsettled := hs.failed hfailed
    refine ⟨settled_iff.mp hs, hsettled, hleft.events, ?_, ?_, .start _ _, .start _ _, .start _ _,
      .start _ _, fun _ _ => .start _ _⟩
    · exact ⟨hsettled.msPerClk, fun _ => .start _ _, .start _ _, .start _ _, .start _ _⟩
    · exact fun _ => .start _ _
  obtain ⟨u, hrefresh, -⟩ := update_done hdone
  obtain ⟨u', hrefresh', -, -, hlags⟩ := hstart.refresh now u hrefresh
  have htracks' := (htracks.refreshed hleft).refreshed ((refresh_leaves now s').of_done hrefresh')
  obtain ⟨v, hv⟩ := htracks'.aggregate_done
  cases hinRange : u'.inRange with
  | true =>
    exact ⟨u, u', v, hrefresh, hrefresh', by simp [Stats.update, hrefresh', hinRange, hv], hlags⟩
  | false =>
    exact ⟨u, u', u', hrefresh, hrefresh', by simp [Stats.update, hrefresh', hinRange], hlags⟩

end Aggregating

section Lags

variable [F64 F] {s s' u u' : Stats F} {now : Moment} {which : WhichStat}

theorem refresh_procs (hrefresh : s.refresh now = .done u) :
    (u.stats .procsRunning).valueNow = .int u.cpu.procsRunning.toInt64 ∧
      (u.stats .procsBlocked).valueNow = .int u.cpu.procsIoBlocked.toInt64 := by
  obtain ⟨v, hcpu, hshown⟩ := refresh_cpuStats hrefresh
  rw [hshown .procsRunning (by decide), hshown .procsBlocked (by decide), ← hcpu]
  simp [Stats.setCpu, Stat.setNow]

omit [F64 F] in
theorem gauge_or_procs (hnone : rawCounter s which = none) :
    which = .procsRunning ∨ which = .procsBlocked ∨ IsGauge which ∧
      ∀ v : Stats F, held v which = (v.stats which).valueNow := by
  cases which <;>
    first
    | exact .inl rfl
    | exact .inr (.inl rfl)
    | exact .inr (.inr ⟨by decide, fun _ => rfl⟩)
    | cases hnone

theorem Lags.gauge (hlags : Lags s s' u u') (hrefresh : s.refresh now = .done u)
    (hrefresh' : s'.refresh now = .done u') (hnone : rawCounter s which = none) :
    Alike (held s which) (held s' which) (u.stats which).valueNow (u'.stats which).valueNow := by
  obtain ⟨hrunning, hblocked⟩ := refresh_procs hrefresh
  obtain ⟨hrunning', hblocked'⟩ := refresh_procs hrefresh'
  rcases gauge_or_procs hnone with rfl | rfl | ⟨hgauge, hheld⟩
  · rw [hrunning, hrunning']
    exact hlags.cpu.running.map fun procs => StatValue.int procs.toInt64
  · rw [hblocked, hblocked']
    exact hlags.cpu.blocked.map fun procs => StatValue.int procs.toInt64
  · rw [hheld, hheld]
    exact hlags.now which hgauge

omit [F64 F] in
theorem Lags.counter (hlags : Lags s s' u u') {old mid new new' : Int64}
    (hold : rawCounter s which = some old) (hmid : rawCounter s' which = some mid)
    (hnew : rawCounter u which = some new) (hnew' : rawCounter u' which = some new') :
    Alike old mid new new' := by
  cases which <;> cases hold <;> cases hmid <;> cases hnew <;> cases hnew' <;>
    first
    | exact hlags.netRx
    | exact hlags.netRxe
    | exact hlags.netTx
    | exact hlags.netTxe
    | exact hlags.cpu.switches.map UInt64.toInt64
    | exact (hlags.cpu.totals _).map UInt64.toInt64
    | exact (hlags.io _).map UInt64.toInt64

omit [F64 F] in
theorem rawCounter_withStats (u : Stats F) (a : StatArray F) (which : WhichStat) :
    rawCounter { u with stats := a } which = rawCounter u which := by
  cases which <;> rfl

end Lags

/-! ### The next update -/

/-- In whatever file a range's update fails, unless it is in reading it: the next one
adds exactly one sample to the same aggregates as if it had not been tried.  Only the
counters differ: their sample is the increase since the failed update read them, so what
that one had already taken is in no sample. -/
theorem update_after_failed_update [F64 F] {opts : Options} {s₀ s : State F} {es : List (Event F)}
    {failedAt now : Files} {error : Error} {s' t : Stats F} (hboot : Booted opts s₀)
    (hrun : Run Step s₀ es s) (hrewound : Rewound s.stats) (hinRange : s.stats.inRange = true)
    (hfailed : s.stats.update (failedAt.moment s.stats) = .failed error s') (herror : error ≠ .io)
    (hdone : s.stats.update (now.moment s.stats) = .done t) :
    ∃ t', s'.update (now.moment s') = .done t' ∧ t'.inRange = t.inRange ∧
      (∀ which,
        (aggregates (s.stats.stats which)).add (t.stats which).valueNow =
          some (aggregates (t.stats which)) ∧
        (aggregates (s.stats.stats which)).add (t'.stats which).valueNow =
          some (aggregates (t'.stats which))) ∧
      (∀ which, rawCounter s.stats which = none →
        (t'.stats which).valueNow = (t.stats which).valueNow ∨
        (t.stats which).valueNow = held s.stats which ∧
          (t'.stats which).valueNow = held s' which) ∧
      ∀ which old mid new new', rawCounter s.stats which = some old →
        rawCounter s' which = some mid → rawCounter t which = some new →
        rawCounter t' which = some new' →
        (t.stats which).valueNow = .int (new - old) ∧
        (t'.stats which).valueNow = .int (new' - mid) ∧
        (new' = new ∨ new = old ∧ new' = mid) := by
  have hrewound' := hrewound.failed hfailed herror
  rw [moment_of_rewound hrewound']
  rw [moment_of_rewound hrewound] at hfailed hdone
  have hs := running_run hboot hrun
  have hs' := (hs.failed hfailed).toRunning
  obtain ⟨u, u', t', hu, hu', hdone', hlags⟩ :=
    update_after_failure (run_tracks hboot hrun) hs hfailed hdone
  obtain ⟨ht, hnow⟩ := update_of_refresh hu hdone
  obtain ⟨ht', hnow'⟩ := update_of_refresh hu' hdone'
  have hleft := update_failed hfailed
  refine ⟨t', hdone', ?_, fun which => ⟨?_, ?_⟩, fun which hnone => ?_, ?_⟩
  · rw [ht, ht']
    exact ((refresh_leaves now.whole s').of_done hu').inRange.trans
      (hleft.inRange.trans ((refresh_leaves now.whole s.stats).of_done hu).inRange.symm)
  · exact update_adds hinRange hdone which
  · rw [← failed_aggregates hfailed which]
    exact update_adds (hleft.inRange.trans hinRange) hdone' which
  · rw [hnow, hnow']
    exact hlags.gauge hu hu' hnone
  · intro which old mid new new' hold hmid hnew hnew'
    obtain ⟨value, hvalue, hdelta⟩ := (update_reports hdone).delta hold hnew
    obtain ⟨value', hvalue', hdelta'⟩ := (update_reports hdone').delta hmid hnew'
    rw [hvalue, hvalue', hdelta hs.cpu hs.io, hdelta' hs'.cpu hs'.io]
    rw [ht, rawCounter_withStats] at hnew
    rw [ht', rawCounter_withStats] at hnew'
    exact ⟨rfl, rfl, hlags.counter hold hmid hnew hnew'⟩

/-! ### A failure on the quiet host -/

/-- Ten bytes later `/proc/stat` has a line without its number. -/
def stalled : Moment :=
  { quiet with
    net := ⟨true, some "lo: 19 1 0 0 0 0 0 0 9 1 0 0 0 0 0 0\n".toList⟩
    procStat := ⟨⟨true, some "ctxt -\n".toList⟩, some []⟩ }

/-- Another ten bytes later it is as before. -/
def recovered : Moment :=
  { quiet with net := ⟨true, some "lo: 29 1 0 0 0 0 0 0 9 1 0 0 0 0 0 0\n".toList⟩ }

theorem updNet_rx {text line field : Chars} {value : Int64} {s t : Stats F}
    (honly : (lines text).map (trim isWhitespace) = [line])
    (hfield : (words isWhitespace line)[1]? = some field) (hvalue : parseI64 field = some value)
    (hdone : s.updNet ⟨true, some text⟩ = .done t) : t.netRxRef = value := by
  obtain ⟨read, iface, hread, hparse⟩ := updNet_done hdone
  cases hread
  obtain ⟨-, -, -, found, hfound, u, hrx, hsame⟩ := parseNet_done hparse
  rw [honly, List.mem_singleton] at hfound
  rw [hfound] at hrx
  simp only [Stats.netRx, netColumn, hfield, hvalue, Outcome.done.injEq] at hrx
  rw [hsame, ← hrx]

/-- Only the network phase sets the references. -/
theorem update_netRx [F64 F] {now : Moment} {value : Int64} {s t : Stats F}
    (hnet : ∀ v w : Stats F, v.updNet now.net = .done w → w.netRxRef = value)
    (hupdate : s.update now = .done t) : t.netRxRef = value := by
  obtain ⟨u, hrefresh, hrest, -, -⟩ := update_done hupdate
  rw [hrest]
  show u.netRxRef = value
  simp only [Stats.refresh, andThen_eq_done] at hrefresh
  obtain ⟨s₆, ⟨s₅, ⟨s₄, ⟨s₃, -, hupdNet⟩, hcpu⟩, hevents⟩, hio⟩ := hrefresh
  obtain ⟨v, hv, hs₅⟩ := hcpu
  obtain ⟨cpu, -, rfl⟩ := map_eq_done.mp hv
  cases hs₅
  obtain ⟨stats, -, rfl⟩ := map_eq_done.mp hevents
  obtain ⟨w, hw, ht⟩ := hio
  obtain ⟨io, -, rfl⟩ := map_eq_done.mp hw
  cases ht
  have hafterCpu := raws_onlyStats (setCpu_onlyStats { s₄ with cpu := cpu })
  have hafterIo := raws_onlyStats (setIo_onlyStats
    { (Stats.setCpu { s₄ with cpu := cpu }) with stats := stats, io := io })
  simp only [raws, netRefs, Prod.mk.injEq] at hafterCpu hafterIo
  rw [hafterIo.2.2.1, hafterCpu.2.2.1]
  exact hnet s₃ s₄ hupdNet

theorem recovered_parseNet (s : Stats F) (hiface : s.netIface = "lo:".toList) :
    ∃ t, s.parseNet "lo: 29 1 0 0 0 0 0 0 9 1 0 0 0 0 0 0\n".toList = .done t ∧ SameNet s t := by
  cases s
  subst hiface
  exact ⟨_, rfl, rfl, rfl, rfl⟩

theorem stalled_parseNet (s : Stats F) (hiface : s.netIface = "lo:".toList) :
    ∃ t, s.parseNet "lo: 19 1 0 0 0 0 0 0 9 1 0 0 0 0 0 0\n".toList = .done t ∧ SameNet s t := by
  cases s
  subst hiface
  exact ⟨_, rfl, rfl, rfl, rfl⟩

theorem stalled_update (s : Stats Int) (hs : OnLoopback s) (hrunning : Running s) :
    ∃ s', s.update stalled = .failed .parseInt s' ∧ s'.netRxRef = 19 := by
  obtain ⟨s₁, h₁, hsame₁⟩ := quiet_updLoadavg s
  obtain ⟨s₂, h₂, hsame₂⟩ := quiet_updMeminfo s₁
  obtain ⟨s₃, h₃, hsame₃⟩ := quiet_updFaasm s₂
  obtain ⟨s₄, h₄, hs₄⟩ := loopback_updNet stalled_parseNet s₃
    (((hs.of_same hsame₁).of_same hsame₂).of_same hsame₃)
  have hrx : s₄.netRxRef = 19 := updNet_rx rfl rfl rfl h₄
  -- the file was open before the update
  have hsettled := settled_iff.mp hrunning
  have hsettled₁ := (hsettled.updLoadavg _).of_done h₁
  have hsettled₂ := (hsettled₁.updMeminfo _).of_done h₂
  have hsettled₃ := (hsettled₂.updFaasm _).of_done h₃
  have hopen := ((hsettled₃.updNet _).of_done h₄).cpu
  have h₅ : s₄.cpu.update quiet.clkTck ⟨⟨true, some "ctxt -\n".toList⟩, some []⟩ =
      .failed .parseInt { s₄.cpu.handOver with rewound := true } := by
    rw [CpuStat.update, if_pos hopen]
    rfl
  refine ⟨{ s₄ with cpu := { s₄.cpu.handOver with rewound := true } }, ?_, hrx⟩
  simp only [Stats.update, Stats.refresh, Stats.updCpu, stalled, h₁, h₂, h₃, h₄, h₅, Outcome.map,
    Outcome.andThen]

/-- The state after an opening byte, what the two updates leave and what the second
one leaves without the first. -/
theorem stalled_then_recovered :
    ∃ (opts : Options) (s₀ s : State Int) (es : List (Event Int)) (s' t : Stats Int),
      Booted opts s₀ ∧ Run Step s₀ es s ∧ Rewound s.stats ∧ s.stats.inRange = true ∧
      s.stats.netRxRef = 9 ∧ s.stats.update stalled = .failed .parseInt s' ∧ s'.netRxRef = 19 ∧
      s.stats.update recovered = .done t ∧ t.netRxRef = 29 := by
  obtain ⟨s, values, hs⟩ := quietRun_opened 0
  obtain ⟨opts, s₀, hboot, hrun⟩ := hs.run
  have htracks := run_tracks hboot hrun
  obtain ⟨s', hfailed, hrx'⟩ := stalled_update s.stats hs.loopback (running_run hboot hrun)
  obtain ⟨t, hdone, -⟩ := loopback_update rfl recovered_parseNet htracks hs.loopback
  have ht : t.netRxRef = 29 :=
    update_netRx (fun _ _ hnet => updNet_rx rfl rfl rfl hnet) hdone
  obtain ⟨hrx, hrewound⟩ : s.stats.netRxRef = 9 ∧ Rewound s.stats := by
    cases run_singleton_iff.mp hrun with
    | byte _ hserved =>
      rw [connHandler_opening, ofResult_eq_goesOn, andThen_eq_done] at hserved
      obtain ⟨⟨v, hupdate, hbegin⟩, -⟩ := hserved
      have hv : v.netRxRef = 9 :=
        update_netRx (fun _ _ hnet => updNet_rx rfl rfl rfl hnet) hupdate
      have hrewound := (rewound_of_done hupdate).beginRange hbegin
      rw [beginRange_done hbegin] at hrewound ⊢
      exact ⟨hv, hrewound⟩
  exact ⟨opts, s₀, s, _, s', t, hboot, hrun, hrewound, htracks.inRange, hrx, hfailed, hrx', hdone,
    ht⟩

theorem ofMoment_moment {s : Stats F} (hs : Rewound s) (now : Moment) :
    (Files.ofMoment now).moment s = now := by
  rw [moment_of_rewound hs]
  rfl

theorem update_after_failed_update_stalled :
    ∃ s' t t' : Stats Int, s'.update recovered = .done t' ∧ t'.inRange = t.inRange ∧
      (t.stats .netRxBytes).valueNow = .int 20 ∧
      (t'.stats .netRxBytes).valueNow = .int (t'.netRxRef - 19) := by
  obtain ⟨opts, s₀, s, es, s', t, hboot, hrun, hrewound, hin, hrx, hfailed, hrx', hdone, ht⟩ :=
    stalled_then_recovered
  have hrewound' := hrewound.failed hfailed (by decide)
  rw [← ofMoment_moment hrewound stalled] at hfailed
  rw [← ofMoment_moment hrewound recovered] at hdone
  obtain ⟨t', hdone', hinRange, -, -, hcounters⟩ :=
    update_after_failed_update hboot hrun hrewound hin hfailed (by decide) hdone
  obtain ⟨hnow, hnow', -⟩ := hcounters .netRxBytes _ _ _ _ rfl rfl rfl rfl
  rw [ofMoment_moment hrewound'] at hdone'
  refine ⟨s', t, t', hdone', hinRange, ?_, ?_⟩
  · rw [hnow, ht, hrx]
    rfl
  · rw [hnow', hrx']

theorem add_valueSum [F64 F] {acc next : Aggregates F} {value : StatValue F}
    (hadd : acc.add value = some next) : acc.valueSum.setAdd value = some next.valueSum := by
  simp only [Aggregates.add, Option.bind_eq_bind, Option.bind_eq_some_iff] at hadd
  obtain ⟨low, -, high, -, sum, hsum, hnext⟩ := hadd
  cases hnext
  exact hsum

/-- Twenty bytes arrive in the range, the sum after the failure has ten of them. -/
theorem failure_loses_bytes :
    ∃ (opts : Options) (s₀ s : State Int) (es : List (Event Int)) (failedAt now : Files)
      (s' t t' : Stats Int),
      Booted opts s₀ ∧ Run Step s₀ es s ∧ s.stats.inRange = true ∧
      s.stats.update (failedAt.moment s.stats) = .failed .parseInt s' ∧
      s.stats.update (now.moment s.stats) = .done t ∧ s'.update (now.moment s') = .done t' ∧
      (t.stats .netRxBytes).valueNow = .int 20 ∧ (t'.stats .netRxBytes).valueNow = .int 10 ∧
      (t'.stats .netRxBytes).valueSum ≠ (t.stats .netRxBytes).valueSum := by
  obtain ⟨opts, s₀, s, es, s', t, hboot, hrun, hrewound, hin, hrx, hfailed, hrx', hdone, ht⟩ :=
    stalled_then_recovered
  have hrewound' := hrewound.failed hfailed (by decide)
  obtain ⟨-, -, t', -, -, hdone', -⟩ :=
    update_after_failure (run_tracks hboot hrun) (running_run hboot hrun) hfailed hdone
  have ht' : t'.netRxRef = 29 :=
    update_netRx (fun _ _ hnet => updNet_rx rfl rfl rfl hnet) hdone'
  have hnow : (t.stats .netRxBytes).valueNow = .int 20 := by
    rw [(update_reports hdone).net.rx, ht, hrx]
    rfl
  have hnow' : (t'.stats .netRxBytes).valueNow = .int 10 := by
    rw [(update_reports hdone').net.rx, ht', hrx']
    rfl
  refine ⟨opts, s₀, s, es, .ofMoment stalled, .ofMoment recovered, s', t, t', hboot, hrun, hin,
    by rw [ofMoment_moment hrewound, hfailed], by rw [ofMoment_moment hrewound, hdone],
    by rw [ofMoment_moment hrewound', hdone'], hnow, hnow', ?_⟩
  have hadd := add_valueSum (update_adds hin hdone .netRxBytes)
  have hadd' := add_valueSum (update_adds ((update_failed hfailed).inRange.trans hin) hdone'
    .netRxBytes)
  rw [hnow] at hadd
  rw [failed_aggregates hfailed, hnow'] at hadd'
  intro hsame
  -- two different numbers were added to the same sum
  have hsum : (s.stats.stats .netRxBytes).valueSum.setAdd (.int 20) =
      (s.stats.stats .netRxBytes).valueSum.setAdd (.int 10) :=
    hadd.trans ((congrArg some hsame.symm).trans hadd'.symm)
  cases hkind : (s.stats.stats .netRxBytes).valueSum with
  | float v =>
    simp only [aggregates, hkind, StatValue.setAdd, StatValue.combine] at hadd
    cases hadd
  | int v =>
    simp only [hkind, StatValue.setAdd, StatValue.combine, Option.some.injEq, StatValue.int.injEq,
      Int64.add_right_inj] at hsum
    exact absurd hsum (by decide)

end NdpOffload.Statmon.Failures
