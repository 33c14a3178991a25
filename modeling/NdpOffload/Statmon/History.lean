import NdpOffload.Statmon.Refresh
import NdpOffload.Statmon.Server

/-! The history invariant of the server: the aggregates of every statistic are
those of the samples in the current range, whoever opened or closed it. -/
namespace NdpOffload.Statmon.History

open Library.Outcomes Library.Runs Library.Text Library.Windows
open Table Sources Monitor Refresh Server

variable {F : Type} [F64 F]

/-! ### Aggregates of a list of values -/

structure Aggregates (F : Type) where
  valueMin : StatValue F
  valueMax : StatValue F
  valueSum : StatValue F
  valueCnt : Int64

def aggregates (stat : Stat F) : Aggregates F :=
  ⟨stat.valueMin, stat.valueMax, stat.valueSum, stat.valueCnt⟩

def Aggregates.add (acc : Aggregates F) (value : StatValue F) : Option (Aggregates F) := do
  let valueMin ← acc.valueMin.setMin value
  let valueMax ← acc.valueMax.setMax value
  let valueSum ← acc.valueSum.setAdd value
  return ⟨valueMin, valueMax, valueSum, acc.valueCnt + 1⟩

/-- The aggregates of exactly these values, taken in this order. -/
def collect (which : WhichStat) (values : List (StatValue F)) : Option (Aggregates F) :=
  values.foldlM Aggregates.add (aggregates (statsInit which))

theorem collect_concat (which : WhichStat) (values : List (StatValue F)) (value : StatValue F) :
    collect which (values ++ [value]) = (collect which values).bind (·.add value) := by
  simp [collect, List.foldlM_append]

/-- `update_aggregate` adds the current value to the aggregates. -/
theorem updateAggregate_eq_some {stat next : Stat F} (hupdate : stat.updateAggregate = some next) :
    (aggregates stat).add stat.valueNow = some (aggregates next) ∧
      next.valueNow = stat.valueNow := by
  simp only [Stat.updateAggregate, Option.bind_eq_bind, Option.bind_eq_some_iff] at hupdate
  obtain ⟨low, hlow, high, hhigh, sum, hsum, hnext⟩ := hupdate
  cases hnext
  simp [Aggregates.add, aggregates, hlow, hhigh, hsum]

theorem statsInit_kind (which : WhichStat) :
    ((statsInit which : Stat F).valueNow).isFloat = which.isFloat := by
  cases which <;> rfl

/-- Resetting brings back the initial aggregates of a statistic. -/
theorem reset_aggregates {stat : Stat F} {which : WhichStat}
    (hkind : stat.valueNow.isFloat = which.isFloat) :
    aggregates stat.reset = aggregates (statsInit which) := by
  have hinit := statsInit_kind (F := F) which
  rw [← hinit] at hkind
  have hreset : aggregates (statsInit which : Stat F) =
      aggregates (statsInit which : Stat F).reset := by
    cases which <;> rfl
  rw [hreset]
  revert hkind
  simp only [aggregates, Stat.reset]
  cases stat.valueNow <;> cases (statsInit which : Stat F).valueNow <;>
    simp [StatValue.isFloat, StatValue.maxval, StatValue.minval, StatValue.zeroval]

/-! ### The history invariant -/

/-- The state agrees with the samples taken so far. -/
structure Tracks (history : List (Mark × (WhichStat → StatValue F))) (s : Stats F) : Prop where
  inRange : s.inRange = isOpen history
  kind : ∀ which, (s.stats which).valueNow.isFloat = which.isFloat
  collected : ∀ which, collect which ((window history).map fun values => values which) =
    some (aggregates (s.stats which))

theorem tracks_new (s : Stats F) (hinRange : s.inRange = false) (hstats : s.stats = statsInit) :
    Tracks [] s := by
  refine ⟨hinRange, ?_, ?_⟩
  · intro which
    rw [hstats]
    exact statsInit_kind which
  · intro which
    rw [hstats]
    rfl

/-- A refresh keeps the aggregates and the kinds. -/
theorem Tracks.refreshed {history : List (Mark × (WhichStat → StatValue F))} {s t : Stats F}
    (htracks : Tracks history s) (hrefresh : Refreshes s t) : Tracks history t := by
  refine ⟨hrefresh.inRange.trans htracks.inRange, ?_, ?_⟩
  · intro which
    obtain ⟨value, hvalue, hsame | ⟨-, hkind⟩⟩ := hrefresh.stats which
    · rw [hvalue, hsame]
      exact htracks.kind which
    · rw [hvalue]
      exact hkind
  · intro which
    obtain ⟨value, hvalue, -⟩ := hrefresh.stats which
    rw [htracks.collected which, hvalue]
    rfl

/-- A successful update is a refresh, and a further value while in a range. -/
theorem update_done {s t : Stats F} {now : Moment} (hupdate : s.update now = .done t) :
    ∃ u, s.refresh now = .done u ∧ t = { u with stats := t.stats } ∧
      (u.inRange = false → t = u) ∧
      (u.inRange = true → ∀ which, (u.stats which).updateAggregate = some (t.stats which)) := by
  rw [Stats.update, andThen_eq_done] at hupdate
  obtain ⟨u, hrefresh, hrest⟩ := hupdate
  refine ⟨u, hrefresh, ?_⟩
  split at hrest
  · rename_i hinRange
    unfold Stats.aggregate at hrest
    split at hrest
    · rename_i hall
      cases hrest
      refine ⟨rfl, by simp [hinRange], ?_⟩
      intro _ which
      obtain ⟨next, hnext⟩ := Option.isSome_iff_exists.mp
        (List.all_eq_true.mp hall which (WhichStat.mem_all which))
      simp [hnext]
    · cases hrest
  · rename_i hidle
    cases hrest
    exact ⟨rfl, fun _ => rfl, fun hinRange => absurd hinRange hidle⟩

/-- The aggregation at the end returns no error, so the refresh has. -/
theorem refresh_failed {s t : Stats F} {now : Moment} {error : Error}
    (hupdate : s.update now = .failed error t) : s.refresh now = .failed error t := by
  unfold Stats.update at hupdate
  cases hrefresh : s.refresh now with
  | done u =>
    simp only [hrefresh, andThen_done, Stats.aggregate] at hupdate
    split at hupdate
    · split at hupdate <;> cases hupdate
    · cases hupdate
  | failed error' u => simpa only [hrefresh, Outcome.andThen] using hupdate
  | panicked message => simp [hrefresh, Outcome.andThen] at hupdate

theorem update_failed {s t : Stats F} {now : Moment} {error : Error}
    (hupdate : s.update now = .failed error t) : Refreshes s t :=
  (refresh_leaves now s).of_failed (refresh_failed hupdate)

section Steps

variable {history : List (Mark × (WhichStat → StatValue F))} {s t u : Stats F} {now : Moment}

/-- After an update the aggregates also contain the new values, if in a range. -/
theorem Tracks.updated (htracks : Tracks history s) (hupdate : s.update now = .done t) :
    t.inRange = isOpen history ∧
      (∀ which, (t.stats which).valueNow.isFloat = which.isFloat) ∧
      ∀ which, collect which ((if isOpen history then window history ++ [observe t]
        else window history).map fun values => values which) =
          some (aggregates (t.stats which)) := by
  obtain ⟨u, hrefresh, hrest, hidle, hadds⟩ := update_done hupdate
  have hu := htracks.refreshed ((refresh_leaves now s).of_done hrefresh)
  cases hopen : isOpen history with
  | false =>
    have hsame := hidle (hu.inRange.trans hopen)
    subst hsame
    exact ⟨hu.inRange.trans hopen, hu.kind, by simpa using hu.collected⟩
  | true =>
    have hadd := fun which => updateAggregate_eq_some (hadds (hu.inRange.trans hopen) which)
    refine ⟨by rw [hrest]; exact hu.inRange.trans hopen, ?_, ?_⟩
    · intro which
      rw [(hadd which).2]
      exact hu.kind which
    · intro which
      simp only [if_true, List.map_append, List.map_cons, List.map_nil]
      rw [collect_concat, hu.collected which, Option.bind_some, observe, (hadd which).2,
        (hadd which).1]

theorem Tracks.ticked (htracks : Tracks history s) (hupdate : s.update now = .done t) :
    Tracks (history ++ [(.plain, observe t)]) t := by
  obtain ⟨hinRange, hkind, hcollected⟩ := htracks.updated hupdate
  refine ⟨?_, hkind, ?_⟩
  · simpa [isOpen_concat] using hinRange
  · simpa [window_concat] using hcollected

theorem Tracks.closed (htracks : Tracks history s) (hupdate : s.update now = .done u)
    (hend : u.endRange now.counters = .done t) :
    Tracks (history ++ [(.closing, observe t)]) t := by
  obtain ⟨hinRange, hkind, hcollected⟩ := htracks.updated hupdate
  obtain rfl := endRange_done hend
  refine ⟨by simp [isOpen_concat], hkind, ?_⟩
  intro which
  simp only [window_concat, reduceCtorEq, if_false]
  exact hcollected which

theorem Tracks.opened (htracks : Tracks history s) (hupdate : s.update now = .done u)
    (hbegin : u.beginRange now.counters = .done t) :
    Tracks (history ++ [(.opening, observe t)]) t := by
  obtain ⟨hinRange, hkind, hcollected⟩ := htracks.updated hupdate
  obtain rfl := beginRange_done hbegin
  refine ⟨by simp [isOpen_concat], hkind, ?_⟩
  intro which
  simp only [window_concat, if_true, List.map_nil]
  rw [reset_aggregates (hkind which)]
  rfl

theorem Tracks.effect {shown : Option (Mark × (WhichStat → StatValue F))}
    (htracks : Tracks history s) (heffect : Effect s shown t) :
    Tracks (history ++ shown.toList) t := by
  cases heffect with
  | unchanged => simpa using htracks
  | failed hfailed => simpa using htracks.refreshed (update_failed hfailed)
  | ticked hupdate => exact htracks.ticked hupdate
  | opened hupdate hbegin => exact htracks.opened hupdate hbegin
  | closed hupdate hend => exact htracks.closed hupdate hend

end Steps

omit [F64 F] in
theorem samples_singleton (e : Event F) : samples [e] = (sample e).toList := by
  cases hsample : sample e <;> simp [samples, hsample]

theorem boot_tracks {opts : Options} {s : State F} (hboot : Booted opts s) :
    Tracks [] s.stats := by
  obtain ⟨-, host, events, first, second, -, hboot⟩ := hboot
  rw [boot, andThen_eq_done] at hboot
  obtain ⟨u, hfirst, hsecond⟩ := hboot
  -- outside a range an update is a refresh
  have hnew : Tracks [] ({ Stats.new events with
      hostPrefix := opts.hostPrefix, netIface := opts.netdev } : Stats F) :=
    tracks_new _ rfl rfl
  have hu := hnew.updated hfirst
  have htracks : Tracks [] u := ⟨hu.1, hu.2.1, hu.2.2⟩
  have hs := htracks.updated hsecond
  exact ⟨hs.1, hs.2.1, hs.2.2⟩

/-- Along every run the aggregates are those of the current range. -/
theorem run_tracks {opts : Options} {s₀ s : State F} {es : List (Event F)}
    (hboot : Booted opts s₀) (hrun : Run Step s₀ es s) : Tracks (samples es) s.stats := by
  have hstep : ∀ past (u : State F) e v, Tracks (samples past) u.stats → Step u e v →
      Tracks (samples (past ++ [e])) v.stats := by
    intro past u e v htracks hstep
    rw [samples_append, samples_singleton]
    exact htracks.effect (step_effect hstep)
  have hstart : Tracks (samples []) s₀.stats := boot_tracks hboot
  exact hrun.history (fun past u => Tracks (samples past) u.stats) hstep hstart

/-! ### Kinds -/

omit [F64 F] in
theorem combine_isFloat {onFloat : F → F → F} {onInt : Int64 → Int64 → Int64}
    {left right result : StatValue F} (hcombine : left.combine onFloat onInt right = some result) :
    result.isFloat = left.isFloat := by
  cases left <;> cases right <;> simp only [StatValue.combine] at hcombine <;>
    cases hcombine <;> rfl

omit [F64 F] in
theorem combine_isSome (onFloat : F → F → F) (onInt : Int64 → Int64 → Int64)
    {left right : StatValue F} (hkind : left.isFloat = right.isFloat) :
    ∃ result, left.combine onFloat onInt right = some result := by
  cases left <;> cases right <;> simp_all [StatValue.combine, StatValue.isFloat]

/-- A further value leaves the aggregates their kinds. -/
theorem add_isFloat {acc next : Aggregates F} {value : StatValue F}
    (hadd : acc.add value = some next) :
    next.valueMin.isFloat = acc.valueMin.isFloat ∧ next.valueMax.isFloat = acc.valueMax.isFloat ∧
      next.valueSum.isFloat = acc.valueSum.isFloat := by
  simp only [Aggregates.add, Option.bind_eq_bind, Option.bind_eq_some_iff] at hadd
  obtain ⟨low, hlow, high, hhigh, sum, hsum, hnext⟩ := hadd
  cases hnext
  exact ⟨combine_isFloat hlow, combine_isFloat hhigh, combine_isFloat hsum⟩

/-- All values of a statistic have the kind that `STATS_INIT` gave it. -/
structure Kinded (which : WhichStat) (stat : Stat F) : Prop where
  now : stat.valueNow.isFloat = which.isFloat
  min : stat.valueMin.isFloat = which.isFloat
  max : stat.valueMax.isFloat = which.isFloat
  sum : stat.valueSum.isFloat = which.isFloat

theorem kinded_statsInit (which : WhichStat) : Kinded which (statsInit which : Stat F) := by
  cases which <;> exact ⟨rfl, rfl, rfl, rfl⟩

section Kinded

variable {which : WhichStat} {stat next : Stat F}

omit [F64 F] in
theorem Kinded.setNow (hstat : Kinded which stat) {value : StatValue F}
    (hvalue : value.isFloat = which.isFloat) : Kinded which (stat.setNow value) :=
  ⟨hvalue, hstat.min, hstat.max, hstat.sum⟩

theorem Kinded.reset (hstat : Kinded which stat) : Kinded which stat.reset := by
  have hnow := hstat.now
  refine ⟨hnow, ?_, ?_, ?_⟩ <;>
  · rw [← hnow]
    simp only [Stat.reset]
    cases stat.valueNow <;> rfl

/-- The types match in `set_min`, `set_max` and `set_add`. -/
theorem Kinded.matches (hstat : Kinded which stat) :
    (∃ low, stat.valueMin.setMin stat.valueNow = some low) ∧
      (∃ high, stat.valueMax.setMax stat.valueNow = some high) ∧
      ∃ sum, stat.valueSum.setAdd stat.valueNow = some sum :=
  ⟨combine_isSome _ _ (hstat.min.trans hstat.now.symm),
    combine_isSome _ _ (hstat.max.trans hstat.now.symm),
    combine_isSome _ _ (hstat.sum.trans hstat.now.symm)⟩

theorem Kinded.updateAggregate_isSome (hstat : Kinded which stat) :
    stat.updateAggregate.isSome = true := by
  obtain ⟨⟨low, hlow⟩, ⟨high, hhigh⟩, ⟨sum, hsum⟩⟩ := hstat.matches
  simp [Stat.updateAggregate, hlow, hhigh, hsum]

theorem Kinded.updateAggregate (hstat : Kinded which stat)
    (hupdate : stat.updateAggregate = some next) : Kinded which next := by
  obtain ⟨hadd, hnow⟩ := updateAggregate_eq_some hupdate
  obtain ⟨hmin, hmax, hsum⟩ := add_isFloat hadd
  refine ⟨?_, hmin.trans hstat.min, hmax.trans hstat.max, hsum.trans hstat.sum⟩
  rw [hnow]
  exact hstat.now

end Kinded

/-- Where the kinds agree, the aggregation does not stop at mismatched types. -/
theorem aggregate_done {s : Stats F} (hkinded : ∀ which, Kinded which (s.stats which)) :
    ∃ t, s.aggregate = .done t :=
  ⟨_, if_pos (List.all_eq_true.mpr fun which _ => (hkinded which).updateAggregate_isSome)⟩

theorem collect_kind {which : WhichStat} (values : List (StatValue F)) {acc : Aggregates F}
    (hcollect : collect which values = some acc) :
    acc.valueMin.isFloat = which.isFloat ∧ acc.valueMax.isFloat = which.isFloat ∧
      acc.valueSum.isFloat = which.isFloat := by
  induction values using List.reverseRecOn generalizing acc with
  | nil =>
    cases hcollect
    cases which <;> exact ⟨rfl, rfl, rfl⟩
  | append_singleton values value ih =>
    rw [collect_concat, Option.bind_eq_some_iff] at hcollect
    obtain ⟨before, hbefore, hadd⟩ := hcollect
    obtain ⟨hmin, hmax, hsum⟩ := ih hbefore
    obtain ⟨hmin', hmax', hsum'⟩ := add_isFloat hadd
    exact ⟨hmin'.trans hmin, hmax'.trans hmax, hsum'.trans hsum⟩

/-- The kinds agree, so the aggregation never stops at mismatched types. -/
theorem Tracks.aggregate_done {history : List (Mark × (WhichStat → StatValue F))} {s : Stats F}
    (htracks : Tracks history s) : ∃ t, s.aggregate = .done t := by
  apply History.aggregate_done
  intro which
  obtain ⟨hmin, hmax, hsum⟩ := collect_kind _ (htracks.collected which)
  exact ⟨htracks.kind which, hmin, hmax, hsum⟩

end NdpOffload.Statmon.History
