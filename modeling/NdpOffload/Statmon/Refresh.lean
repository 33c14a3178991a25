import NdpOffload.Statmon.Monitor

/-! What an update may change.  Each phase writes current values of its own
statistics, each of them always with the same kind of value, and nothing else
of the array. -/
namespace NdpOffload.Statmon.Refresh

open Library.Outcomes Library.Text Table Sources Monitor

variable {F : Type}

/-- From `a` to `b` only current values in `touched` change, and they get the
kind of their statistic. -/
def Retouches (touched : WhichStat → Prop) (a b : StatArray F) : Prop :=
  ∀ which, ∃ value, b which = (a which).setNow value ∧
    (value = (a which).valueNow ∨
      touched which ∧ value.isFloat = which.isFloat)

section Retouches

variable {touched : WhichStat → Prop} {a b c : StatArray F}

theorem Retouches.refl (touched : WhichStat → Prop) (a : StatArray F) : Retouches touched a a :=
  fun which => ⟨(a which).valueNow, rfl, .inl rfl⟩

theorem Retouches.trans (hab : Retouches touched a b) (hbc : Retouches touched b c) :
    Retouches touched a c := by
  intro which
  obtain ⟨v, hv, hkindv⟩ := hab which
  obtain ⟨w, hw, hkindw⟩ := hbc which
  refine ⟨w, by rw [hw, hv]; rfl, ?_⟩
  rcases hkindw with hsame | htouched
  · rw [hsame, hv]
    exact hkindv
  · exact .inr htouched

theorem Retouches.mono {wider : WhichStat → Prop} (hab : Retouches touched a b)
    (hwider : ∀ which, touched which → wider which) : Retouches wider a b := by
  intro which
  obtain ⟨v, hv, hkind⟩ := hab which
  exact ⟨v, hv, hkind.imp id fun h => ⟨hwider which h.1, h.2⟩⟩

theorem Retouches.untouched (hab : Retouches touched a b) {which : WhichStat}
    (hnot : ¬ touched which) : b which = a which := by
  obtain ⟨v, hv, hsame | htouched⟩ := hab which
  · rw [hv, hsame]
    rfl
  · exact absurd htouched.1 hnot

theorem Retouches.setNow (a : StatArray F) {which : WhichStat} {value : StatValue F}
    (htouched : touched which) (hkind : value.isFloat = which.isFloat) :
    Retouches touched a (a.setNow which value) := by
  intro other
  by_cases heq : other = which
  · subst heq
    exact ⟨value, by simp [StatArray.setNow], .inr ⟨htouched, hkind⟩⟩
  · exact ⟨(a other).valueNow, by simp [StatArray.setNow, heq, Stat.setNow], .inl rfl⟩

end Retouches

/-- Nothing but the array changes, and that only in `touched`. -/
structure OnlyStats (touched : WhichStat → Prop) (s t : Stats F) : Prop where
  rest : t = { s with stats := t.stats }
  stats : Retouches touched s.stats t.stats

section OnlyStats

variable {touched : WhichStat → Prop} {s t u : Stats F}

theorem OnlyStats.refl (touched : WhichStat → Prop) (s : Stats F) : OnlyStats touched s s :=
  ⟨rfl, .refl touched s.stats⟩

theorem OnlyStats.trans (hst : OnlyStats touched s t) (htu : OnlyStats touched t u) :
    OnlyStats touched s u := by
  refine ⟨?_, hst.stats.trans htu.stats⟩
  rw [htu.rest, hst.rest]

theorem OnlyStats.seti (s : Stats F) {which : WhichStat} (value : Int64)
    (htouched : touched which) (hint : which ≠ .loadAvg1min) :
    OnlyStats touched s (s.seti which value) :=
  ⟨rfl, .setNow s.stats htouched (by simp [StatValue.isFloat, WhichStat.isFloat, hint])⟩

end OnlyStats

/-! ### The phases -/

def memStats : List WhichStat :=
  [.memTotal, .memAvailable, .memActive, .memInactive, .memAnonHugePages]

def faasmStats : List WhichStat :=
  [.faasmLocalSched, .faasmWaitingQueued, .faasmStarted, .faasmSuspended, .faasmActive]

def netStats : List WhichStat := [.netRxBytes, .netRxErrors, .netTxBytes, .netTxErrors]

def cpuStats : List WhichStat :=
  [.cpumsUser, .cpumsNice, .cpumsSystem, .cpumsIdle, .cpumsIowait, .cpumsIrq, .cpumsSoftirq,
    .contextSwitches, .procsRunning, .procsBlocked]

def eventStats : List WhichStat := registeredEvents.map Prod.fst

def ioStats : List WhichStat :=
  [.ioReadsCompleted, .ioReadsMerged, .ioSectorsRead, .ioMsReading, .ioWritesCompleted,
    .ioWritesMerged, .ioSectorsWritten, .ioMsWriting]

/-- Reading leaves the state as it was, or what the parser makes of it. -/
theorem readSource_leaves {P : Stats F → Prop} {source : Source} {isOpen : Bool}
    {onOpenError : Error} {mark : Bool → Stats F} {parse : Chars → Stats F → Result (Stats F)}
    {s : Stats F} (hs : P s) (hmark : P (mark false))
    (hparse : ∀ text, (parse text (mark true)).Leaves P) :
    (readSource source isOpen onOpenError mark parse s).Leaves P := by
  unfold readSource
  split
  · exact hs
  · split
    · exact hmark
    · exact hparse _

theorem each_onlyStats {α : Type} {touched : WhichStat → Prop}
    {body : α → Stats F → Result (Stats F)}
    (hbody : ∀ item s, (body item s).Leaves (OnlyStats touched s)) (items : List α)
    (s : Stats F) : (Outcome.each body items s).Leaves (OnlyStats touched s) :=
  leaves_each items (fun item _ u hu => (hbody item u).mono fun _ hv => hu.trans hv)
    (.refl touched s)

theorem parseLoadavg_leaves [F64 F] (text : Chars) (s : Stats F) :
    (s.parseLoadavg text).Leaves (OnlyStats (· = .loadAvg1min) s) := by
  unfold Stats.parseLoadavg
  split
  · exact .refl _ s
  · split
    · exact .refl _ s
    · exact ⟨rfl, .setNow s.stats rfl rfl⟩

theorem updLoadavg_leaves [F64 F] (source : Source) (s : Stats F) :
    (s.updLoadavg source).Leaves fun t =>
      OnlyStats (· = .loadAvg1min)
        { s with loadavgOpen := t.loadavgOpen, loadavgRewound := t.loadavgRewound } t := by
  apply readSource_leaves
  · exact .refl _ s
  · exact .refl _ _
  · intro text
    apply (parseLoadavg_leaves text _).mono
    intro t ht
    have hopen : t.loadavgOpen = true := by rw [ht.rest]
    have hrewound : t.loadavgRewound = true := by rw [ht.rest]
    rw [hopen, hrewound]
    exact ht

theorem meminfoStat_mem {var : Chars} {which : WhichStat} (hwhich : meminfoStat var = some which) :
    which ∈ memStats := by
  unfold meminfoStat at hwhich
  repeat' split at hwhich
  all_goals cases hwhich
  all_goals decide

theorem readMeminfoLine_leaves (line : Chars) (s : Stats F) :
    (s.readMeminfoLine line).Leaves (OnlyStats (· ∈ memStats) s) := by
  unfold Stats.readMeminfoLine
  split
  · exact .refl _ s
  · split
    · rename_i which hwhich
      have hmem := meminfoStat_mem hwhich
      exact .seti s _ hmem (by rintro rfl; exact absurd hmem (by decide))
    · exact .refl _ s

theorem updMeminfo_leaves (source : Source) (s : Stats F) :
    (s.updMeminfo source).Leaves fun t =>
      OnlyStats (· ∈ memStats)
        { s with meminfoOpen := t.meminfoOpen, meminfoRewound := t.meminfoRewound } t := by
  apply readSource_leaves
  · exact .refl _ s
  · exact .refl _ _
  · intro text
    apply (each_onlyStats readMeminfoLine_leaves _ _).mono
    intro t ht
    have hopen : t.meminfoOpen = true := by rw [ht.rest]
    have hrewound : t.meminfoRewound = true := by rw [ht.rest]
    rw [hopen, hrewound]
    exact ht

theorem faasmStat_mem {field : Chars} {which : WhichStat} (hwhich : faasmStat field = some which) :
    which ∈ faasmStats := by
  unfold faasmStat at hwhich
  repeat' split at hwhich
  all_goals cases hwhich
  all_goals decide

theorem readFaasmField_leaves (item : Chars × Chars) (s : Stats F) :
    (s.readFaasmField item).Leaves (OnlyStats (· ∈ faasmStats) s) := by
  unfold Stats.readFaasmField
  split
  · exact .refl _ s
  · split
    · exact .refl _ s
    · rename_i which hwhich
      have hmem := faasmStat_mem hwhich
      exact .seti s _ hmem (by rintro rfl; exact absurd hmem (by decide))

theorem updFaasm_leaves (source : Source) (s : Stats F) :
    (s.updFaasm source).Leaves fun t =>
      OnlyStats (· ∈ faasmStats)
        { s with faasmOpen := t.faasmOpen, faasmRewound := t.faasmRewound } t := by
  apply readSource_leaves
  · exact .refl _ s
  · exact .refl _ _
  · intro text
    apply (each_onlyStats readFaasmField_leaves _ _).mono
    intro t ht
    have hopen : t.faasmOpen = true := by rw [ht.rest]
    have hrewound : t.faasmRewound = true := by rw [ht.rest]
    rw [hopen, hrewound]
    exact ht

/-- The network phase also moves its references. -/
structure OnlyNet (s t : Stats F) : Prop where
  rest : t = { s with
    netOpen := t.netOpen, netRewound := t.netRewound, netIface := t.netIface, stats := t.stats,
    netRxRef := t.netRxRef, netRxeRef := t.netRxeRef, netTxRef := t.netTxRef,
    netTxeRef := t.netTxeRef }
  stats : Retouches (· ∈ netStats) s.stats t.stats

theorem OnlyNet.trans {s t u : Stats F} (hst : OnlyNet s t) (htu : OnlyNet t u) :
    OnlyNet s u := by
  refine ⟨?_, hst.stats.trans htu.stats⟩
  rw [htu.rest, hst.rest]

theorem netColumn_leaves {fields : List Chars} {column : Nat} {which : WhichStat}
    {ref : Stats F → Int64} {setRef : Int64 → Stats F → Stats F} (hwhich : which ∈ netStats)
    (hset : ∀ value s, OnlyNet s (setRef value s)) (s : Stats F) :
    (netColumn fields column which ref setRef s).Leaves (OnlyNet s) := by
  have hint : which ≠ .loadAvg1min := by
    rintro rfl
    exact absurd hwhich (by decide)
  unfold netColumn
  split
  · trivial
  · split
    · exact ⟨rfl, .refl _ _⟩
    · rename_i value _
      have hseti : OnlyStats (· ∈ netStats) s (s.seti which (value - ref s)) :=
        .seti s _ hwhich hint
      exact OnlyNet.trans ⟨rfl, hseti.stats⟩ (hset value _)

theorem OnlyNet.andThen {s : Stats F} {outcome : Result (Stats F)}
    {next : Stats F → Result (Stats F)} (hleaves : outcome.Leaves (OnlyNet s))
    (hnext : ∀ u, (next u).Leaves (OnlyNet u)) : (outcome.andThen next).Leaves (OnlyNet s) :=
  Outcome.Leaves.andThen hleaves fun u hu => (hnext u).mono fun _ hv => hu.trans hv

theorem parseNet_leaves (text : Chars) (s : Stats F) : (s.parseNet text).Leaves (OnlyNet s) := by
  unfold Stats.parseNet
  split
  · trivial
  · rename_i line _
    have hrx : ∀ u : Stats F, (u.netRx (words isWhitespace line)).Leaves (OnlyNet u) :=
      netColumn_leaves (by decide) fun _ _ => ⟨rfl, .refl _ _⟩
    have hrxe : ∀ u : Stats F, (u.netRxe (words isWhitespace line)).Leaves (OnlyNet u) :=
      netColumn_leaves (by decide) fun _ _ => ⟨rfl, .refl _ _⟩
    have htx : ∀ u : Stats F, (u.netTx (words isWhitespace line)).Leaves (OnlyNet u) :=
      netColumn_leaves (by decide) fun _ _ => ⟨rfl, .refl _ _⟩
    have htxe : ∀ u : Stats F, (u.netTxe (words isWhitespace line)).Leaves (OnlyNet u) :=
      netColumn_leaves (by decide) fun _ _ => ⟨rfl, .refl _ _⟩
    apply OnlyNet.andThen (OnlyNet.andThen (OnlyNet.andThen (OnlyNet.andThen (hrx s) hrxe) htx) htxe)
    intro u
    split
    · trivial
    · exact ⟨rfl, .refl _ _⟩

theorem updNet_leaves (source : Source) (s : Stats F) :
    (s.updNet source).Leaves (OnlyNet s) := by
  unfold Stats.updNet
  split
  · apply readSource_leaves
    · exact ⟨rfl, .refl _ _⟩
    · exact ⟨rfl, .refl _ _⟩
    · intro text
      exact (parseNet_leaves text _).mono fun t ht => ⟨ht.rest, ht.stats⟩
  · split
    · trivial
    · apply readSource_leaves
      · exact ⟨rfl, .refl _ _⟩
      · exact ⟨rfl, .refl _ _⟩
      · intro text
        exact (parseNet_leaves text _).mono fun t ht => ⟨ht.rest, ht.stats⟩

theorem setCpu_onlyStats (s : Stats F) : OnlyStats (· ∈ cpuStats) s s.setCpu := by
  unfold Stats.setCpu
  repeat' apply OnlyStats.trans _ (OnlyStats.seti _ _ (by decide) (by decide))
  exact .refl _ s

theorem setIo_onlyStats (s : Stats F) : OnlyStats (· ∈ ioStats) s s.setIo := by
  unfold Stats.setIo
  repeat' apply OnlyStats.trans _ (OnlyStats.seti _ _ (by decide) (by decide))
  exact .refl _ s

theorem updateEvents_leaves (counters : Counters) (events : EventStat) (stats : StatArray F) :
    (events.update counters stats).Leaves (Retouches (· ∈ eventStats) stats) := by
  apply leaves_each
  · intro entry hentry a ha
    have hmem := events.registered entry hentry
    have hint : entry.1 ≠ .loadAvg1min := by
      intro heq
      rw [heq] at hmem
      exact absurd hmem (by decide)
    unfold updateEvent
    split
    · exact ha.trans (.setNow a hmem (by simp [StatValue.isFloat, WhichStat.isFloat, hint]))
    · exact ha
  · exact .refl _ stats

/-- What one `refresh` may change: current values, of the right kind, and the
bookkeeping of the sources. -/
structure Refreshes (s t : Stats F) : Prop where
  inRange : t.inRange = s.inRange
  hostPrefix : t.hostPrefix = s.hostPrefix
  events : t.events = s.events
  stats : Retouches (fun _ => True) s.stats t.stats

section Refreshes

variable {s t u : Stats F}

theorem Refreshes.refl (s : Stats F) : Refreshes s s := ⟨rfl, rfl, rfl, .refl _ _⟩

theorem Refreshes.trans (hst : Refreshes s t) (htu : Refreshes t u) : Refreshes s u :=
  ⟨htu.inRange.trans hst.inRange, htu.hostPrefix.trans hst.hostPrefix,
    htu.events.trans hst.events, hst.stats.trans htu.stats⟩

theorem OnlyStats.refreshes {touched : WhichStat → Prop} (hst : OnlyStats touched s t) :
    Refreshes s t := by
  refine ⟨?_, ?_, ?_, hst.stats.mono fun _ _ => trivial⟩ <;> rw [hst.rest]

/-- Opening a file beforehand makes no difference. -/
theorem Refreshes.of_opened (hst : Refreshes s t) (hinRange : s.inRange = u.inRange)
    (hpre : s.hostPrefix = u.hostPrefix) (hevents : s.events = u.events)
    (hstats : s.stats = u.stats) : Refreshes u t :=
  ⟨hst.inRange.trans hinRange, hst.hostPrefix.trans hpre, hst.events.trans hevents,
    hstats ▸ hst.stats⟩

theorem OnlyNet.refreshes (hst : OnlyNet s t) : Refreshes s t := by
  refine ⟨?_, ?_, ?_, hst.stats.mono fun _ _ => trivial⟩ <;> rw [hst.rest]

theorem Refreshes.andThen {outcome : Result (Stats F)} {next : Stats F → Result (Stats F)}
    (hleaves : outcome.Leaves (Refreshes s)) (hnext : ∀ u, (next u).Leaves (Refreshes u)) :
    (outcome.andThen next).Leaves (Refreshes s) :=
  Outcome.Leaves.andThen hleaves fun u hu => (hnext u).mono fun _ hv => hu.trans hv

end Refreshes

theorem updCpu_leaves (now : Moment) (s : Stats F) : (s.updCpu now).Leaves (Refreshes s) := by
  unfold Stats.updCpu
  cases s.cpu.update now.clkTck now.procStat with
  | done cpu => exact ⟨rfl, rfl, rfl, .refl _ _⟩
  | failed error cpu => exact ⟨rfl, rfl, rfl, .refl _ _⟩
  | panicked message => trivial

theorem updEvents_leaves (now : Moment) (s : Stats F) :
    (s.updEvents now).Leaves (Refreshes s) :=
  (updateEvents_leaves now.counters s.events s.stats).map fun _ ha =>
    ⟨rfl, rfl, rfl, ha.mono fun _ _ => trivial⟩

theorem updIo_leaves (now : Moment) (s : Stats F) : (s.updIo now).Leaves (Refreshes s) := by
  unfold Stats.updIo
  cases s.io.update now.diskstats with
  | done io => exact ⟨rfl, rfl, rfl, .refl _ _⟩
  | failed error io => exact ⟨rfl, rfl, rfl, .refl _ _⟩
  | panicked message => trivial

theorem refresh_leaves [F64 F] (now : Moment) (s : Stats F) :
    (s.refresh now).Leaves (Refreshes s) := by
  have hload : (s.updLoadavg now.loadavg).Leaves (Refreshes s) :=
    (updLoadavg_leaves now.loadavg s).mono fun t ht =>
      ht.refreshes.of_opened rfl rfl rfl rfl
  have hmem : ∀ u : Stats F, (u.updMeminfo now.meminfo).Leaves (Refreshes u) := fun u =>
    (updMeminfo_leaves now.meminfo u).mono fun t ht =>
      ht.refreshes.of_opened rfl rfl rfl rfl
  have hfaasm : ∀ u : Stats F, (u.updFaasm now.faasm).Leaves (Refreshes u) := fun u =>
    (updFaasm_leaves now.faasm u).mono fun t ht =>
      ht.refreshes.of_opened rfl rfl rfl rfl
  have hnet : ∀ u : Stats F, (u.updNet now.net).Leaves (Refreshes u) := fun u =>
    (updNet_leaves now.net u).mono fun t ht => ht.refreshes
  have hcpu : ∀ u : Stats F,
      ((u.updCpu now).andThen fun v => .done v.setCpu).Leaves (Refreshes u) := fun u =>
    (updCpu_leaves now u).andThen fun v hv => hv.trans (setCpu_onlyStats v).refreshes
  have hio : ∀ u : Stats F,
      ((u.updIo now).andThen fun v => .done v.setIo).Leaves (Refreshes u) := fun u =>
    (updIo_leaves now u).andThen fun v hv => hv.trans (setIo_onlyStats v).refreshes
  apply Refreshes.andThen _ hio
  apply Refreshes.andThen _ (updEvents_leaves now)
  apply Refreshes.andThen _ hcpu
  apply Refreshes.andThen _ hnet
  apply Refreshes.andThen _ hfaasm
  exact Refreshes.andThen hload hmem

end NdpOffload.Statmon.Refresh
