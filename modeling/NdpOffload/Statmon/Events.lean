import NdpOffload.Statmon.Refresh

/-! What the statistics of the performance counters are.  `with_event` takes the first
CPU without a counter for the end of the CPUs, and the two kinds of page faults are
registered crosswise. -/
namespace NdpOffload.Statmon.Events

open Library.Outcomes Table Sources Refresh

/-- The event that a statistic is named after. -/
def namedEvent : WhichStat → Option PerfEvent
  | .eventCycles => some (.hwe .cpuCycles)
  | .eventInstructions => some (.hwe .instructions)
  | .eventCacheAccesses => some (.hwe .cacheReferences)
  | .eventCacheMisses => some (.hwe .cacheMisses)
  | .eventBranches => some (.hwe .branchInstructions)
  | .eventBranchMisses => some (.hwe .branchMisses)
  | .eventStalledFrontCycles => some (.hwe .stalledCyclesFrontend)
  | .eventStalledBackCycles => some (.hwe .stalledCyclesBackend)
  | .eventRefCycles => some (.hwe .refCPUCycles)
  | .eventPageFaults => some (.swe .pageFaults)
  | .eventPageFaultsMinor => some (.swe .pageFaultsMin)
  | .eventPageFaultsMajor => some (.swe .pageFaultsMaj)
  | .eventCpuMigrations => some (.swe .cpuMigrations)
  | .eventL1DAccesses => some (.cceRead .l1D .access)
  | .eventL1DMisses => some (.cceRead .l1D .miss)
  | .eventL1IAccesses => some (.cceRead .l1I .access)
  | .eventL1IMisses => some (.cceRead .l1I .miss)
  | .eventDTLBAccesses => some (.cceRead .dTLB .access)
  | .eventDTLBMisses => some (.cceRead .dTLB .miss)
  | .eventITLBAccesses => some (.cceRead .iTLB .access)
  | .eventITLBMisses => some (.cceRead .iTLB .miss)
  | _ => none

/-! ### The registrations -/

/-- The event that is registered in the place of another one. -/
def crossed : PerfEvent → PerfEvent
  | .swe .pageFaultsMin => .swe .pageFaultsMaj
  | .swe .pageFaultsMaj => .swe .pageFaultsMin
  | event => event

theorem crossed_crossed (event : PerfEvent) : crossed (crossed event) = event := by
  cases event with
  | swe type => cases type <;> rfl
  | _ => rfl

theorem namedEvent_of_registered : ∀ entry ∈ registeredEvents,
    namedEvent entry.1 = some (crossed entry.2) := by
  decide

theorem registered_of_namedEvent {which : WhichStat} {event : PerfEvent}
    (hnamed : namedEvent which = some event) : (which, crossed event) ∈ registeredEvents := by
  cases which <;> cases hnamed <;> decide

theorem notMem_registered {which : WhichStat} (hnone : namedEvent which = none) :
    which ∉ registeredEvents.map Prod.fst := by
  intro hmem
  obtain ⟨entry, hentry, rfl⟩ := List.mem_map.mp hmem
  rw [namedEvent_of_registered entry hentry] at hnone
  cases hnone

/-- The event in whose place a registered one stands has a statistic too. -/
theorem namedEvent_crossed {which : WhichStat} {event : PerfEvent}
    (hnamed : namedEvent which = some event) : ∃ other, namedEvent other = some (crossed event) := by
  have hclosed : ∀ entry ∈ registeredEvents, ∃ other ∈ registeredEvents,
      other.2 = crossed entry.2 := by decide
  obtain ⟨other, hother, heq⟩ := hclosed _ (registered_of_namedEvent hnamed)
  rw [crossed_crossed] at heq
  exact ⟨other.1, heq ▸ namedEvent_of_registered other hother⟩

/-! ### Sums over CPUs -/

section Sums

variable (host : PerfHost) (reading : PerfCounter → UInt64)

/-- The CPUs that grant a counter, those before the first one that does not, and those
after it. -/
def grantedCpus (event : PerfEvent) : List Nat := (List.range host.cpus).filter (host.opens event)

def leadingCpus (event : PerfEvent) : List Nat := (List.range host.cpus).takeWhile (host.opens event)

def laterCpus (event : PerfEvent) : List Nat :=
  ((List.range host.cpus).dropWhile (host.opens event)).filter (host.opens event)

def sumOver (event : PerfEvent) (cpus : List Nat) : Nat :=
  (cpus.map fun cpuid => (reading ⟨event, cpuid⟩).toNat).sum

def fullSum (event : PerfEvent) : Nat := sumOver reading event (grantedCpus host event)

theorem grantedCpus_eq (event : PerfEvent) :
    grantedCpus host event = leadingCpus host event ++ laterCpus host event := by
  have hlead : (leadingCpus host event).filter (host.opens event) = leadingCpus host event :=
    List.filter_eq_self.mpr fun cpuid hcpuid => List.mem_takeWhile_imp hcpuid
  rw [← hlead, laterCpus, leadingCpus, ← List.filter_append, List.takeWhile_append_dropWhile,
    grantedCpus]

theorem fullSum_eq (event : PerfEvent) :
    fullSum host reading event =
      sumOver reading event (leadingCpus host event) + sumOver reading event (laterCpus host event) := by
  rw [fullSum, grantedCpus_eq, sumOver, List.map_append, List.sum_append]
  rfl

theorem sumOver_eq_zero {event : PerfEvent} {cpus : List Nat} :
    sumOver reading event cpus = 0 ↔ ∀ cpuid ∈ cpus, reading ⟨event, cpuid⟩ = 0 := by
  simp [sumOver, List.sum_eq_zero_iff_forall_eq_nat, ← UInt64.toNat_inj]

end Sums

/-! ### One update -/

section Update

variable {F : Type} {host : PerfHost} {counters : Counters} {reading : PerfCounter → UInt64}

theorem sumReadings_toNat (hread : ∀ pc value, counters.read pc = some value → value = reading pc)
    {pcs : List PerfCounter} {acc val : UInt64}
    (hfold : pcs.foldlM (fun val event => (counters.read event).map (val + ·)) acc = some val)
    (hsmall : acc.toNat + (pcs.map fun pc => (reading pc).toNat).sum < 2 ^ 64) :
    val.toNat = acc.toNat + (pcs.map fun pc => (reading pc).toNat).sum := by
  induction pcs generalizing acc with
  | nil =>
    cases hfold
    simp
  | cons pc pcs ih =>
    rw [List.foldlM_cons] at hfold
    obtain ⟨next, hnext, hrest⟩ := Option.bind_eq_some_iff.mp hfold
    obtain ⟨value, hvalue, rfl⟩ := Option.map_eq_some_iff.mp hnext
    rw [List.map_cons, List.sum_cons, ← hread pc value hvalue] at hsmall ⊢
    have hadd : (acc + value).toNat = acc.toNat + value.toNat := by
      rw [UInt64.toNat_add, Nat.mod_eq_of_lt (by omega)]
    rw [ih hrest (by omega), hadd, Nat.add_assoc]

theorem update_entries {entries : List (WhichStat × List PerfCounter)}
    (hnodup : (entries.map Prod.fst).Nodup) {stats stats' : StatArray F}
    (hdone : Outcome.each (updateEvent counters) entries stats = .done stats') :
    (∀ entry ∈ entries, ∃ val, sumReadings counters entry.2 = some val ∧
      stats' entry.1 = (stats entry.1).setNow (.int val.toInt64)) ∧
    ∀ which, which ∉ entries.map Prod.fst → stats' which = stats which := by
  induction entries generalizing stats with
  | nil =>
    cases hdone
    simp
  | cons entry entries ih =>
    rw [List.map_cons, List.nodup_cons] at hnodup
    rw [each_cons, andThen_eq_done] at hdone
    obtain ⟨next, hfirst, hrest⟩ := hdone
    obtain ⟨hentries, hothers⟩ := ih hnodup.2 hrest
    unfold updateEvent at hfirst
    split at hfirst
    · rename_i val hval
      cases hfirst
      constructor
      · intro other hother
        rcases List.mem_cons.mp hother with rfl | hother
        · refine ⟨val, hval, ?_⟩
          rw [hothers _ hnodup.1]
          simp [StatArray.seti, StatArray.setNow]
        · obtain ⟨sum, hsum, hvalue⟩ := hentries other hother
          have hne : other.1 ≠ entry.1 := fun heq => hnodup.1 (heq ▸ List.mem_map_of_mem hother)
          refine ⟨sum, hsum, hvalue.trans ?_⟩
          simp [StatArray.seti, StatArray.setNow, hne]
      · intro which hwhich
        rw [List.map_cons, List.mem_cons, not_or] at hwhich
        rw [hothers which hwhich.2]
        simp [StatArray.seti, StatArray.setNow, hwhich.1]
    · cases hfirst

/-- An update in which every counter can be read succeeds. -/
theorem update_succeeds (hread : ∀ pc, counters.read pc = some (reading pc)) (events : EventStat)
    (stats : StatArray F) : ∃ stats', events.update counters stats = .done stats' := by
  have hsum : ∀ (pcs : List PerfCounter) (acc : UInt64), ∃ val,
      pcs.foldlM (fun val event => (counters.read event).map (val + ·)) acc = some val := by
    intro pcs
    induction pcs with
    | nil => exact fun acc => ⟨acc, rfl⟩
    | cons pc pcs ih =>
      intro acc
      obtain ⟨val, hval⟩ := ih (acc + reading pc)
      exact ⟨val, by rw [List.foldlM_cons, hread]; exact hval⟩
  unfold EventStat.update
  induction events.events generalizing stats with
  | nil => exact ⟨stats, rfl⟩
  | cons entry entries ih =>
    obtain ⟨val, hval⟩ := hsum entry.2 0
    obtain ⟨stats', hrest⟩ := ih (stats.seti entry.1 val.toInt64)
    refine ⟨stats', ?_⟩
    rw [each_cons, updateEvent, sumReadings, hval]
    exact hrest

/-- Every event can be counted on CPU 0. -/
def OnFirst (host : PerfHost) : Prop :=
  ∀ which event, namedEvent which = some event → host.opens event 0 = true

theorem openCounters_ne_nil {event : PerfEvent} (hfirst : host.opens event 0 = true) :
    openCounters host event ≠ [] := by
  have hpos : host.cpus ≠ 0 := by
    intro hzero
    rw [host.opens_cpus event 0 (by omega)] at hfirst
    cases hfirst
  obtain ⟨n, hn⟩ := Nat.exists_eq_succ_of_ne_zero hpos
  rw [openCounters, hn, List.range_succ_eq_map, List.takeWhile_cons_of_pos hfirst]
  exact List.cons_ne_nil _ _

theorem new_entries (hfirst : OnFirst host) :
    registeredEvents.filterMap (withEvent host) =
      registeredEvents.map fun entry => (entry.1, openCounters host entry.2) := by
  rw [← List.filterMap_eq_map]
  refine List.filterMap_congr fun entry hentry => ?_
  obtain ⟨other, hother⟩ := namedEvent_crossed (namedEvent_of_registered entry hentry)
  rw [crossed_crossed] at hother
  exact if_neg (openCounters_ne_nil (hfirst other entry.2 hother))

variable {events : EventStat} {stats stats' : StatArray F}

/-- A statistic gets the sum of what is registered for it, over the leading CPUs. -/
theorem update_value (hnew : EventStat.IsNew host events) (hfirst : OnFirst host)
    (hread : ∀ pc value, counters.read pc = some value → value = reading pc)
    (hupdate : events.update counters stats = .done stats') {which : WhichStat} {event : PerfEvent}
    (hnamed : namedEvent which = some event)
    (hsmall : fullSum host reading (crossed event) < 2 ^ 63) :
    ∃ value : Int64, stats' which = (stats which).setNow (.int value) ∧
      value.toInt = sumOver reading (crossed event) (leadingCpus host (crossed event)) := by
  unfold EventStat.IsNew at hnew
  rw [new_entries hfirst] at hnew
  have hkeys : (events.events.map Prod.fst).Nodup := by
    rw [(hnew.map Prod.fst).nodup_iff, List.map_map]
    exact (by decide : (registeredEvents.map Prod.fst).Nodup)
  have hentry : (which, openCounters host (crossed event)) ∈ events.events :=
    hnew.mem_iff.mpr (List.mem_map_of_mem (registered_of_namedEvent hnamed))
  obtain ⟨val, hval, hvalue⟩ := (update_entries hkeys hupdate).1 _ hentry
  refine ⟨val.toInt64, hvalue, ?_⟩
  have hlead := fullSum_eq host reading (crossed event)
  have hcounters : ((openCounters host (crossed event)).map fun pc => (reading pc).toNat).sum =
      sumOver reading (crossed event) (leadingCpus host (crossed event)) := by
    rw [openCounters, List.map_map]
    rfl
  have hsum := sumReadings_toNat hread hval (by rw [hcounters, UInt64.toNat_zero]; omega)
  rw [hcounters, UInt64.toNat_zero, Nat.zero_add] at hsum
  have hvalue64 : val.toInt64 = Int64.ofNat val.toNat := by
    rw [← UInt64.toInt64_ofNat', UInt64.ofNat_toNat]
  rw [hvalue64, Int64.toInt_ofNat_of_lt (by omega), hsum]

theorem update_others (hupdate : events.update counters stats = .done stats') {which : WhichStat}
    (hnone : namedEvent which = none) : stats' which = stats which := by
  have hkept := updateEvents_leaves counters events stats
  rw [hupdate] at hkept
  exact hkept.untouched (notMem_registered hnone)

/-! ### Full sums -/

/-- Each event statistic shows the sum of its event over all CPUs that grant a counter,
and no other statistic changes. -/
structure FullSums (host : PerfHost) (reading : PerfCounter → UInt64)
    (stats stats' : StatArray F) : Prop where
  named : ∀ which event, namedEvent which = some event → ∃ value : Int64,
    stats' which = (stats which).setNow (.int value) ∧ value.toInt = fullSum host reading event
  others : ∀ which, namedEvent which = none → stats' which = stats which

/-- Nothing is counted after a gap, and as many minor page faults as major ones. -/
structure Countable (host : PerfHost) (reading : PerfCounter → UInt64) : Prop where
  later : ∀ which event, namedEvent which = some event →
    ∀ cpuid ∈ laterCpus host event, reading ⟨event, cpuid⟩ = 0
  faults : fullSum host reading (.swe .pageFaultsMin) = fullSum host reading (.swe .pageFaultsMaj)

/-- A successful update shows full sums exactly on the hosts where neither the gaps nor
the crossed registrations make a difference. -/
theorem full_sums_iff (hnew : EventStat.IsNew host events) (hfirst : OnFirst host)
    (hread : ∀ pc value, counters.read pc = some value → value = reading pc)
    (hsmall : ∀ which event, namedEvent which = some event → fullSum host reading event < 2 ^ 63)
    (hupdate : events.update counters stats = .done stats') :
    FullSums host reading stats stats' ↔ Countable host reading := by
  have hvalue : ∀ {which event}, namedEvent which = some event → ∃ value : Int64,
      stats' which = (stats which).setNow (.int value) ∧
        value.toInt = sumOver reading (crossed event) (leadingCpus host (crossed event)) := by
    intro which event hnamed
    obtain ⟨other, hother⟩ := namedEvent_crossed hnamed
    exact update_value hnew hfirst hread hupdate hnamed (hsmall other _ hother)
  constructor
  · intro hfull
    have hlead : ∀ {which event}, namedEvent which = some event →
        sumOver reading (crossed event) (leadingCpus host (crossed event)) =
          fullSum host reading event := by
      intro which event hnamed
      obtain ⟨value, hnow, hsum⟩ := hvalue hnamed
      obtain ⟨value', hnow', hsum'⟩ := hfull.named which event hnamed
      have hsame : value = value' := by
        have heq := congrArg Stat.valueNow (hnow.symm.trans hnow')
        exact StatValue.int.inj heq
      rw [hsame, hsum'] at hsum
      exact_mod_cast hsum.symm
    -- the leading sums of an event and of its counterpart are the full sums of both
    have hlater : ∀ which event, namedEvent which = some event →
        sumOver reading event (laterCpus host event) = 0 := by
      intro which event hnamed
      obtain ⟨other, hother⟩ := namedEvent_crossed hnamed
      have hone := hlead hnamed
      have htwo := hlead hother
      rw [crossed_crossed] at htwo
      rw [fullSum_eq] at hone htwo
      omega
    refine ⟨fun which event hnamed => (sumOver_eq_zero reading).mp (hlater which event hnamed), ?_⟩
    have hminor : namedEvent .eventPageFaultsMinor = some (.swe .pageFaultsMin) := rfl
    rw [← hlead hminor, fullSum_eq, hlater .eventPageFaultsMajor _ rfl]
    rfl
  · intro hcount
    refine ⟨fun which event hnamed => ?_, fun which hnone =>
      update_others hupdate hnone⟩
    obtain ⟨value, hnow, hsum⟩ := hvalue hnamed
    obtain ⟨other, hother⟩ := namedEvent_crossed hnamed
    refine ⟨value, hnow, ?_⟩
    have hlater := (sumOver_eq_zero reading).mpr (hcount.later other _ hother)
    have hcross : fullSum host reading (crossed event) = fullSum host reading event := by
      have hfaults := hcount.faults
      cases event with
      | swe type =>
        cases type with
        | pageFaultsMin => exact hfaults.symm
        | pageFaultsMaj => exact hfaults
        | _ => rfl
      | _ => rfl
    rw [hsum, ← hcross, fullSum_eq, hlater, Nat.add_zero]

end Update

/-! ### Hosts with a few CPUs -/

/-- A host that grants every counter on these CPUs. -/
def hostWith (online : List Nat) : PerfHost where
  opens := fun _ cpuid => decide (cpuid ∈ online)
  cpus := online.foldr (fun cpuid top => max (cpuid + 1) top) 0
  opens_cpus := by
    intro event cpuid hle
    rw [decide_eq_false_iff_not]
    intro hmem
    have hlt : ∀ l : List Nat, cpuid ∈ l → cpuid < l.foldr (fun cpuid top => max (cpuid + 1) top) 0 := by
      intro l
      induction l with
      | nil => simp
      | cons first l ih =>
        intro hin
        rw [List.foldr_cons]
        rcases List.mem_cons.mp hin with rfl | hin
        · omega
        · have hrest := ih hin
          omega
    exact absurd (hlt online hmem) (Nat.not_lt.mpr hle)

/-- What `EventStat::new` registers there, in the order of the registrations. -/
def newEvents (host : PerfHost) : EventStat where
  events := registeredEvents.filterMap (withEvent host)
  registered := by
    intro entry hentry
    obtain ⟨source, hsource, hwith⟩ := List.mem_filterMap.mp hentry
    unfold withEvent at hwith
    dsimp only at hwith
    split at hwith
    · cases hwith
    · cases hwith
      exact List.mem_map_of_mem hsource

theorem newEvents_isNew (host : PerfHost) : EventStat.IsNew host (newEvents host) := .refl _

def counting (reading : PerfCounter → UInt64) : Counters where
  reset := fun _ => true
  start := fun _ => true
  stop := fun _ => true
  read := fun pc => some (reading pc)

def unread : StatArray Unit := fun _ => ⟨[], .int 0, .int 0, .int 0, .int 0, 0⟩

theorem counting_read {reading : PerfCounter → UInt64} (pc : PerfCounter) (value : UInt64)
    (hvalue : (counting reading).read pc = some value) : value = reading pc :=
  (Option.some.inj hvalue).symm

theorem update_counting (reading : PerfCounter → UInt64) (host : PerfHost) :
    ∃ stats', (newEvents host).update (counting reading) unread = .done stats' := by
  have hread : ∀ pc, (counting reading).read pc = some (reading pc) := fun _ => rfl
  exact update_succeeds hread (newEvents host) unread

theorem onFirst_of_mem {online : List Nat} (hmem : 0 ∈ online) : OnFirst (hostWith online) :=
  fun _ _ _ => decide_eq_true hmem

/-- Two CPUs and the same reading everywhere. -/
theorem full_sums_two_cpus : ∃ stats',
    (newEvents (hostWith [0, 1])).update (counting fun _ => 5) unread = .done stats' ∧
      FullSums (hostWith [0, 1]) (fun _ => 5) unread stats' := by
  obtain ⟨stats', hupdate⟩ := update_counting (fun _ => 5) (hostWith [0, 1])
  refine ⟨stats', hupdate, (full_sums_iff (newEvents_isNew _) (onFirst_of_mem (by decide)) counting_read
    (fun _ event _ => ?_) hupdate).mpr ⟨fun _ event _ cpuid hcpuid => ?_, rfl⟩⟩
  · have hsum : fullSum (hostWith [0, 1]) (fun _ => 5) event = 10 := rfl
    omega
  · have hnone : laterCpus (hostWith [0, 1]) event = [] := rfl
    rw [hnone] at hcpuid
    cases hcpuid

/-- CPU 1 is offline and there are no major page faults: the cycles of CPU 2 are
missing, and so are all minor page faults. -/
theorem offline_cpu_missed :
    let reading := fun pc : PerfCounter => if pc.event = .swe .pageFaultsMaj then (0 : UInt64) else 1
    ∃ stats', (newEvents (hostWith [0, 2])).update (counting reading) unread = .done stats' ∧
      fullSum (hostWith [0, 2]) reading (.hwe .cpuCycles) = 2 ∧
      (stats' .eventCycles).valueNow = .int 1 ∧
      fullSum (hostWith [0, 2]) reading (.swe .pageFaultsMin) = 2 ∧
      (stats' .eventPageFaultsMinor).valueNow = .int 0 ∧
      ¬ FullSums (hostWith [0, 2]) reading unread stats' := by
  intro reading
  obtain ⟨stats', hupdate⟩ := update_counting reading (hostWith [0, 2])
  have hfirst : OnFirst (hostWith [0, 2]) := onFirst_of_mem (by decide)
  have hcycles : namedEvent .eventCycles = some (.hwe .cpuCycles) := rfl
  have hminor : namedEvent .eventPageFaultsMinor = some (.swe .pageFaultsMin) := rfl
  obtain ⟨value, hnow, hsum⟩ := update_value (newEvents_isNew _) hfirst counting_read hupdate hcycles
    (by decide)
  obtain ⟨faults, hfaults, hfaultSum⟩ := update_value (newEvents_isNew _) hfirst counting_read hupdate hminor
    (by decide)
  have hone : value = 1 := Int64.toInt_inj.mp (hsum.trans (by decide))
  have hzero : faults = 0 := Int64.toInt_inj.mp (hfaultSum.trans (by decide))
  refine ⟨stats', hupdate, by decide, ?_, by decide, ?_, ?_⟩
  · rw [hnow, hone]
    rfl
  · rw [hfaults, hzero]
    rfl
  · intro hfull
    obtain ⟨value', hnow', hsum'⟩ := hfull.named .eventCycles _ hcycles
    have hsame : value = value' :=
      StatValue.int.inj (congrArg Stat.valueNow (hnow.symm.trans hnow'))
    rw [← hsame, hone] at hsum'
    exact absurd hsum' (by decide)

end NdpOffload.Statmon.Events
