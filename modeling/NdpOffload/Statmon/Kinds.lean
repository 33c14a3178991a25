import NdpOffload.Statmon.Ranges

/-! The kinds of the statistics over all runs of `Stats`, whoever calls what in which
order: a value is never of another kind than `STATS_INIT` gave the statistic. -/
namespace NdpOffload.Statmon.Kinds

open Library.Outcomes Library.Runs Library.Text
open Table Sources Monitor Refresh History

variable {F : Type} [F64 F]

/-- The public functions of `Stats`, and its public fields. -/
inductive Call where
  | setHostPrefix (hostPrefix : Chars)
  | setNetIface (netIface : Chars)
  | update (now : Moment)
  | beginRange (counters : Counters)
  | endRange (counters : Counters)

def Call.perform (s : Stats F) : Call → Result (Stats F)
  | .setHostPrefix hostPrefix => .done { s with hostPrefix }
  | .setNetIface netIface => .done { s with netIface }
  | .update now => s.update now
  | .beginRange counters => s.beginRange counters
  | .endRange counters => s.endRange counters

/-- A call that fails leaves what it changed; after a panic there is no process. -/
def Step (s : Stats F) (call : Call) (t : Stats F) : Prop :=
  call.perform s = .done t ∨ ∃ error, call.perform s = .failed error t

/-! ### Values -/

def AllKinded (s : Stats F) : Prop := ∀ which, Kinded which (s.stats which)

section AllKinded

variable {s t : Stats F}

omit [F64 F] in
theorem AllKinded.refreshed (hs : AllKinded s) (hrefresh : Refreshes s t) : AllKinded t := by
  intro which
  obtain ⟨value, hvalue, hsame | ⟨-, hkind⟩⟩ := hrefresh.stats which
  · rw [hvalue, hsame]
    exact hs which
  · rw [hvalue]
    exact (hs which).setNow hkind

theorem AllKinded.updated (hs : AllKinded s) {now : Moment} (hupdate : s.update now = .done t) :
    AllKinded t := by
  obtain ⟨u, hrefresh, hrest, hidle, hadds⟩ := update_done hupdate
  have hu := hs.refreshed ((refresh_leaves now s).of_done hrefresh)
  cases hinRange : u.inRange with
  | false =>
    rw [hidle hinRange]
    exact hu
  | true => exact fun which => (hu which).updateAggregate (hadds hinRange which)

theorem AllKinded.step (hs : AllKinded s) {call : Call} (hstep : Step s call t) : AllKinded t := by
  rcases hstep with hdone | ⟨error, hfailed⟩
  · cases call with
    | setHostPrefix hostPrefix =>
      cases hdone
      exact hs
    | setNetIface netIface =>
      cases hdone
      exact hs
    | update now => exact hs.updated hdone
    | beginRange counters =>
      simp only [Call.perform, Stats.beginRange] at hdone
      split at hdone
      · cases hdone
        exact fun which => (hs which).reset
      · cases hdone
    | endRange counters =>
      simp only [Call.perform, Stats.endRange] at hdone
      split at hdone
      · cases hdone
        exact hs
      · cases hdone
  · cases call with
    | setHostPrefix hostPrefix => cases hfailed
    | setNetIface netIface => cases hfailed
    | update now => exact hs.refreshed (update_failed hfailed)
    | beginRange counters => exact absurd hfailed (Server.beginRange_ne_failed counters s t error)
    | endRange counters => exact absurd hfailed (Server.endRange_ne_failed counters s t error)

theorem AllKinded.run {events : EventStat} {calls : List Call}
    (hrun : Run Step (Stats.new events) calls s) : AllKinded s :=
  hrun.always AllKinded (fun _ _ _ hs hstep => hs.step hstep) kinded_statsInit

end AllKinded

/-! ### Panics -/

/-- The panics of a refresh. -/
inductive RefreshPanic : String → Prop where
  | noInterface : RefreshPanic "Unset network interface to monitor"
  | notFound : RefreshPanic "Couldn't find specified network interface"
  | format : RefreshPanic "Unexpected /proc/net/dev format"
  | fields (n : Nat) : RefreshPanic ("Unexpected /proc/net/dev format: got " ++ toString n ++
      " fields instead of expected 17")
  | ticks : RefreshPanic "attempt to divide by zero"

theorem RefreshPanic.ne_mismatched {message : String} (hpanic : RefreshPanic message) :
    message ≠ "Mismatched statistic types" := by
  cases hpanic with
  | fields n =>
    intro heq
    have hhead := congrArg (fun text : String => text.toList.head?) heq
    simp at hhead
  | _ => decide

omit [F64 F] in
theorem readSource_panics {Q : String → Prop} {source : Source} {isOpen : Bool}
    {onOpenError : Error} {mark : Bool → Stats F} {s : Stats F}
    {parse : Chars → Stats F → Result (Stats F)}
    (hparse : ∀ text, (parse text (mark true)).PanicsOnly Q) :
    (readSource source isOpen onOpenError mark parse s).PanicsOnly Q := by
  unfold readSource
  split
  · trivial
  · split
    · trivial
    · exact hparse _

section Panics

variable {Q : String → Prop}

theorem updLoadavg_panics (source : Source) (s : Stats F) :
    (s.updLoadavg source).PanicsOnly Q := by
  apply readSource_panics
  intro text
  unfold Stats.parseLoadavg
  split
  · trivial
  · split <;> trivial

omit [F64 F] in
theorem updMeminfo_panics (source : Source) (s : Stats F) :
    (s.updMeminfo source).PanicsOnly Q := by
  apply readSource_panics
  intro text
  apply panicsOnly_each
  intro line u
  unfold Stats.readMeminfoLine
  split
  · trivial
  · split <;> trivial

omit [F64 F] in
theorem updFaasm_panics (source : Source) (s : Stats F) : (s.updFaasm source).PanicsOnly Q := by
  apply readSource_panics
  intro text
  apply panicsOnly_each
  intro item u
  unfold Stats.readFaasmField
  split
  · trivial
  · split <;> trivial

theorem storeU64_panics {σ : Type} (text : Chars) (store : UInt64 → σ → σ) (s : σ) :
    (storeU64 text store s).PanicsOnly Q := by
  unfold storeU64
  split <;> trivial

theorem extractCpu_panics (text : Option Chars) (cpu : CpuStat) :
    (cpu.extract text).PanicsOnly Q := by
  unfold CpuStat.extract
  split
  · trivial
  · apply panicsOnly_each
    intro line c
    unfold CpuStat.readLine
    split
    · exact panicsOnly_each (fun item c => storeU64_panics _ _ c) _ _
    · split
      · exact storeU64_panics _ _ _
      · split
        · exact storeU64_panics _ _ _
        · split
          · exact storeU64_panics _ _ _
          · trivial

theorem extractIo_panics (text : Option Chars) (io : IoStat) : (io.extract text).PanicsOnly Q := by
  unfold IoStat.extract
  split
  · trivial
  · apply panicsOnly_each
    intro line i
    unfold IoStat.readLine
    dsimp only
    split
    · trivial
    · exact panicsOnly_each (fun item i => storeU64_panics _ _ i) _ _

omit [F64 F] in
theorem updEvents_panics (now : Moment) (s : Stats F) : (s.updEvents now).PanicsOnly Q := by
  apply Outcome.PanicsOnly.map
  apply panicsOnly_each
  intro entry stats
  unfold updateEvent
  split <;> trivial

omit [F64 F] in
theorem updIo_panics (now : Moment) (s : Stats F) : (s.updIo now).PanicsOnly Q := by
  apply Outcome.PanicsOnly.map
  unfold IoStat.update
  split
  · exact extractIo_panics _ _
  · split
    · trivial
    · exact (extractIo_panics _ _).andThen (extractIo_panics _)

end Panics

omit [F64 F] in
theorem updCpu_panics (now : Moment) (s : Stats F) :
    (s.updCpu now).PanicsOnly RefreshPanic := by
  apply Outcome.PanicsOnly.map
  unfold CpuStat.update
  split
  · exact extractCpu_panics _ _
  · split
    · trivial
    · split
      · exact .ticks
      · exact (extractCpu_panics _ _).andThen (extractCpu_panics _)

omit [F64 F] in
theorem netColumn_panics (fields : List Chars) (column : Nat) (which : WhichStat)
    (ref : Stats F → Int64) (setRef : Int64 → Stats F → Stats F) (s : Stats F) :
    (netColumn fields column which ref setRef s).PanicsOnly RefreshPanic := by
  unfold netColumn
  split
  · exact .format
  · split <;> trivial

omit [F64 F] in
theorem parseNet_panics (text : Chars) (s : Stats F) :
    (s.parseNet text).PanicsOnly RefreshPanic := by
  unfold Stats.parseNet
  split
  · exact .notFound
  · refine Outcome.PanicsOnly.andThen ?_ fun u => ?_
    · refine Outcome.PanicsOnly.andThen ?_ fun u => netColumn_panics _ _ _ _ _ u
      refine Outcome.PanicsOnly.andThen ?_ fun u => netColumn_panics _ _ _ _ _ u
      refine Outcome.PanicsOnly.andThen ?_ fun u => netColumn_panics _ _ _ _ _ u
      exact netColumn_panics _ _ _ _ _ s
    · split
      · exact .fields _
      · trivial

omit [F64 F] in
theorem updNet_panics (source : Source) (s : Stats F) :
    (s.updNet source).PanicsOnly RefreshPanic := by
  unfold Stats.updNet
  split
  · exact readSource_panics fun text => parseNet_panics text _
  · split
    · exact .noInterface
    · exact readSource_panics fun text => parseNet_panics text _

theorem refresh_panics (now : Moment) (s : Stats F) :
    (s.refresh now).PanicsOnly RefreshPanic := by
  unfold Stats.refresh
  refine Outcome.PanicsOnly.andThen ?_ fun u => ?_
  · refine Outcome.PanicsOnly.andThen ?_ fun u => updEvents_panics now u
    refine Outcome.PanicsOnly.andThen ?_ fun u => ?_
    · refine Outcome.PanicsOnly.andThen ?_ fun u => updNet_panics now.net u
      refine Outcome.PanicsOnly.andThen ?_ fun u => updFaasm_panics now.faasm u
      exact (updLoadavg_panics now.loadavg s).andThen fun u => updMeminfo_panics now.meminfo u
    · exact (updCpu_panics now u).andThen fun v => trivial
  · exact (updIo_panics now u).andThen fun v => trivial

/-- While the kinds agree, an update stops at no other panic than those of its refresh. -/
theorem AllKinded.update_panics {s : Stats F} (hs : AllKinded s) (now : Moment) :
    (s.update now).PanicsOnly RefreshPanic := by
  rw [Stats.update]
  cases hrefresh : s.refresh now with
  | done u =>
    rw [andThen_done]
    split
    · obtain ⟨t, ht⟩ := aggregate_done (hs.refreshed ((refresh_leaves now s).of_done hrefresh))
      rw [ht]
      trivial
    · trivial
  | failed error u => trivial
  | panicked message => exact (refresh_panics now s).of_panicked hrefresh

/-! ### Runs -/

/-- In every state that a run reaches, the values have the kinds of `STATS_INIT`.  So the
types match wherever an update sets a minimum, a maximum or a sum. -/
theorem kinds_never_change {events : EventStat} {calls : List Call} {s : Stats F}
    (hrun : Run Step (Stats.new events) calls s) :
    (∀ which, Kinded which (s.stats which)) ∧
    (∀ now u, s.refresh now = .done u → ∀ which,
      (∃ low, (u.stats which).valueMin.setMin (u.stats which).valueNow = some low) ∧
      (∃ high, (u.stats which).valueMax.setMax (u.stats which).valueNow = some high) ∧
      ∃ sum, (u.stats which).valueSum.setAdd (u.stats which).valueNow = some sum) ∧
    ∀ now, s.update now ≠ .panicked "Mismatched statistic types" := by
  have hs := AllKinded.run hrun
  refine ⟨hs, fun now u hrefresh which => ?_, fun now hpanicked => ?_⟩
  · exact (hs.refreshed ((refresh_leaves now s).of_done hrefresh) which).matches
  · exact ((hs.update_panics now).of_panicked hpanicked).ne_mismatched rfl

def quietCalls : List Call :=
  [.setNetIface "lo".toList, .beginRange Ranges.quietCounters, .update Ranges.quiet]

/-- An update in a range, on the quiet host. -/
theorem kinds_never_change_quiet :
    ∃ s : Stats Int, Run Step (Stats.new Ranges.quietEvents) quietCalls s ∧
      (∀ which, Kinded which (s.stats which)) ∧
      s.update Ranges.quiet ≠ .panicked "Mismatched statistic types" := by
  let s₁ : Stats Int := Stats.new Ranges.quietEvents
  let s₂ : Stats Int := { s₁ with
    netIface := "lo".toList, inRange := true, stats := fun which => (statsInit which).reset }
  have hbefore : Run Step s₁
      [.setNetIface "lo".toList, .beginRange Ranges.quietCounters] s₂ :=
    .cons (.inl rfl) (.cons (.inl rfl) (.nil _))
  have hrefreshed : ∃ u, s₂.refresh Ranges.quiet = .done u ∧ Ranges.OnLoopback u :=
    Ranges.loopback_refresh rfl Ranges.quiet_parseNet s₂ ⟨rfl, .inl ⟨rfl, rfl⟩⟩
  obtain ⟨u, hrefresh, _⟩ := hrefreshed
  have hleaves := (refresh_leaves Ranges.quiet s₂).of_done hrefresh
  obtain ⟨t, ht⟩ := aggregate_done ((AllKinded.run hbefore).refreshed hleaves)
  have hinRange : u.inRange = true := hleaves.inRange
  have hstep : Step s₂ (.update Ranges.quiet) t := by
    refine .inl ?_
    rw [Call.perform, Stats.update, hrefresh, andThen_done, if_pos hinRange, ht]
  have hrun : Run Step s₁ quietCalls t :=
    run_append_iff.mpr ⟨s₂, hbefore, run_singleton_iff.mpr hstep⟩
  obtain ⟨hkinded, _, hpanic⟩ := kinds_never_change hrun
  exact ⟨t, hrun, hkinded, hpanic Ranges.quiet⟩

end NdpOffload.Statmon.Kinds
