import Mathlib.Tactic.Linarith
import NdpOffload.Statmon.History

/-! Range statistics over whole runs of the server: what the aggregates of an
integer statistic say about its values, and whose range a packet describes. -/
namespace NdpOffload.Statmon.Ranges

open Library.Outcomes Library.Runs Library.Text Library.Windows
open Table Sources Monitor Refresh Server History

variable {F : Type} [F64 F]

/-! ### Integer statistics -/

theorem statsInit_int {which : WhichStat} (hint : which ≠ .loadAvg1min) :
    aggregates (statsInit which : Stat F) =
      ⟨.int Int64.maxValue, .int Int64.minValue, .int 0, 0⟩ := by
  cases which <;> first | rfl | exact absurd rfl hint

/-- The aggregates of an integer statistic as folds over its values. -/
theorem collect_int {which : WhichStat} (hint : which ≠ .loadAvg1min)
    (values : List (StatValue F)) {acc : Aggregates F} (hcollect : collect which values = some acc) :
    ∃ S : List Int64, values = S.map .int ∧
      acc = ⟨.int (S.foldl min Int64.maxValue), .int (S.foldl max Int64.minValue),
        .int (S.foldl (· + ·) 0), Int64.ofNat S.length⟩ := by
  induction values using List.reverseRecOn generalizing acc with
  | nil =>
    refine ⟨[], rfl, ?_⟩
    rw [collect, statsInit_int hint] at hcollect
    exact (Option.some.inj hcollect).symm
  | append_singleton values value ih =>
    rw [collect_concat, Option.bind_eq_some_iff] at hcollect
    obtain ⟨before, hbefore, hadd⟩ := hcollect
    obtain ⟨S, rfl, rfl⟩ := ih hbefore
    cases value with
    | float v => simp [Aggregates.add, StatValue.setMin, StatValue.combine] at hadd
    | int v =>
      refine ⟨S ++ [v], by simp, ?_⟩
      simp only [Aggregates.add, StatValue.setMin, StatValue.setMax, StatValue.setAdd,
        StatValue.combine, Option.bind_eq_bind, Option.bind_some, Option.pure_def,
        Option.some.injEq] at hadd
      rw [← hadd]
      simp [List.foldl_append, Int64.ofNat_add]

theorem foldl_min_spec (S : List Int64) (start : Int64) :
    S.foldl min start ∈ start :: S ∧ ∀ v ∈ start :: S, S.foldl min start ≤ v :=
  List.min?_eq_some_iff.mp rfl

/-- The library's order classes cover `min` on `Int64` but not `max`. -/
instance lawfulOrderMaxInt64 : Std.LawfulOrderMax Int64 := by
  apply Std.LawfulOrderMax.of_max_le_iff
  · intro a b c
    show (if a ≤ b then b else a) ≤ c ↔ a ≤ c ∧ b ≤ c
    split <;> simp only [Int64.le_iff_toInt_le] at * <;> omega
  · intro a b
    show (if a ≤ b then b else a) = a ∨ (if a ≤ b then b else a) = b
    split <;> simp

theorem foldl_max_spec (S : List Int64) (start : Int64) :
    S.foldl max start ∈ start :: S ∧ ∀ v ∈ start :: S, v ≤ S.foldl max start :=
  List.max?_eq_some_iff.mp rfl

theorem foldl_add_eq (S : List Int64) :
    S.foldl (· + ·) 0 = Int64.ofInt (S.map Int64.toInt).sum := by
  induction S using List.reverseRecOn with
  | nil => rfl
  | append_singleton S v ih => simp [List.foldl_append, ih, Int64.ofInt_add]

/-- The four aggregates are those of the values `S`; without values the extremes
are the sentinels of `reset`. -/
structure Summarises (stat : Stat F) (S : List Int64) : Prop where
  cnt : stat.valueCnt = Int64.ofNat S.length
  sum : stat.valueSum = .int (Int64.ofInt (S.map Int64.toInt).sum)
  min : ∃ low, stat.valueMin = .int low ∧ (∀ v ∈ S, low ≤ v) ∧
    (if S = [] then low = Int64.maxValue else low ∈ S)
  max : ∃ high, stat.valueMax = .int high ∧ (∀ v ∈ S, v ≤ high) ∧
    (if S = [] then high = Int64.minValue else high ∈ S)

theorem eq_maxValue_of_le {v : Int64} (hle : Int64.maxValue ≤ v) : v = Int64.maxValue := by
  have htop := v.toInt_le
  rw [Int64.le_iff_toInt_le] at hle
  exact Int64.toInt_inj.mp (by omega)

theorem eq_minValue_of_le {v : Int64} (hle : v ≤ Int64.minValue) : v = Int64.minValue := by
  have hbottom := v.le_toInt
  rw [Int64.le_iff_toInt_le, Int64.toInt_minValue] at hle
  exact Int64.toInt_inj.mp (by rw [Int64.toInt_minValue]; omega)

theorem foldl_min_mem (S : List Int64) :
    if S = [] then S.foldl min Int64.maxValue = Int64.maxValue
    else S.foldl min Int64.maxValue ∈ S := by
  cases S with
  | nil => rfl
  | cons v S =>
    obtain ⟨hmem, hle⟩ := foldl_min_spec (v :: S) Int64.maxValue
    rw [if_neg (List.cons_ne_nil v S)]
    rcases List.mem_cons.mp hmem with htop | hin
    · have hv := hle v (by simp)
      rw [htop] at hv ⊢
      rw [← eq_maxValue_of_le hv]
      exact List.mem_cons_self
    · exact hin

theorem foldl_max_mem (S : List Int64) :
    if S = [] then S.foldl max Int64.minValue = Int64.minValue
    else S.foldl max Int64.minValue ∈ S := by
  cases S with
  | nil => rfl
  | cons v S =>
    obtain ⟨hmem, hle⟩ := foldl_max_spec (v :: S) Int64.minValue
    rw [if_neg (List.cons_ne_nil v S)]
    rcases List.mem_cons.mp hmem with hbottom | hin
    · have hv := hle v (by simp)
      rw [hbottom] at hv ⊢
      rw [← eq_minValue_of_le hv]
      exact List.mem_cons_self
    · exact hin

theorem tracks_summarises {history : List (Mark × (WhichStat → StatValue F))} {s : Stats F}
    (which : WhichStat) (htracks : Tracks history s) (hint : which ≠ .loadAvg1min) :
    ∃ S : List Int64, ((window history).map fun values => values which) = S.map .int ∧
      Summarises (s.stats which) S := by
  obtain ⟨S, hvalues, hagg⟩ := collect_int hint _ (htracks.collected which)
  simp only [aggregates, Aggregates.mk.injEq] at hagg
  obtain ⟨hmin, hmax, hsum, hcnt⟩ := hagg
  refine ⟨S, hvalues, hcnt, ?_, ⟨_, hmin, ?_, foldl_min_mem S⟩, ⟨_, hmax, ?_, foldl_max_mem S⟩⟩
  · rw [hsum, foldl_add_eq]
  · intro v hv
    exact (foldl_min_spec S Int64.maxValue).2 v (List.mem_cons_of_mem _ hv)
  · intro v hv
    exact (foldl_max_spec S Int64.minValue).2 v (List.mem_cons_of_mem _ hv)

/-- What a reader may rely on in the packet that closes a range; the count is
exact while it fits its 64 bits. -/
structure Bracketed (stat : Stat F) (S : List Int64) : Prop where
  now : ∃ low now high, stat.valueMin = .int low ∧ stat.valueNow = .int now ∧
    stat.valueMax = .int high ∧ low ≤ now ∧ now ≤ high
  cnt : S.length < 2 ^ 63 → 1 ≤ stat.valueCnt
  sum : S.length < 2 ^ 63 → -2 ^ 63 ≤ (S.map Int64.toInt).sum →
    (S.map Int64.toInt).sum < 2 ^ 63 →
    ∃ low sum high, stat.valueMin = .int low ∧ stat.valueSum = .int sum ∧
      stat.valueMax = .int high ∧ stat.valueCnt.toInt * low.toInt ≤ sum.toInt ∧
        sum.toInt ≤ stat.valueCnt.toInt * high.toInt

theorem sum_ge (S : List Int64) (low : Int64) (hlow : ∀ v ∈ S, low ≤ v) :
    S.length * low.toInt ≤ (S.map Int64.toInt).sum := by
  induction S with
  | nil => simp
  | cons v S ih =>
    have hv : low.toInt ≤ v.toInt := Int64.le_iff_toInt_le.mp (hlow v List.mem_cons_self)
    have hrest := ih fun w hw => hlow w (List.mem_cons_of_mem _ hw)
    rw [List.map_cons, List.sum_cons, List.length_cons]
    push_cast
    linarith

theorem sum_le (S : List Int64) (high : Int64) (hhigh : ∀ v ∈ S, v ≤ high) :
    (S.map Int64.toInt).sum ≤ S.length * high.toInt := by
  induction S with
  | nil => simp
  | cons v S ih =>
    have hv : v.toInt ≤ high.toInt := Int64.le_iff_toInt_le.mp (hhigh v List.mem_cons_self)
    have hrest := ih fun w hw => hhigh w (List.mem_cons_of_mem _ hw)
    rw [List.map_cons, List.sum_cons, List.length_cons]
    push_cast
    linarith

omit [F64 F] in
theorem Summarises.bracketed {stat : Stat F} {S : List Int64} {now : Int64}
    (hsum : Summarises stat S) (hnow : stat.valueNow = .int now) (hmem : now ∈ S) :
    Bracketed stat S := by
  obtain ⟨low, hlow, hlowest, -⟩ := hsum.min
  obtain ⟨high, hhigh, hhighest, -⟩ := hsum.max
  have hcnt : S.length < 2 ^ 63 → stat.valueCnt.toInt = S.length := by
    intro hlength
    rw [hsum.cnt, Int64.toInt_ofNat_of_lt hlength]
  refine ⟨⟨low, now, high, hlow, hnow, hhigh, hlowest now hmem, hhighest now hmem⟩, ?_, ?_⟩
  · intro hlength
    have hpos := List.length_pos_of_mem hmem
    rw [Int64.le_iff_toInt_le, hcnt hlength]
    show (1 : Int) ≤ _
    omega
  · intro hlength hmin hmax
    refine ⟨low, _, high, hlow, hsum.sum, hhigh, ?_, ?_⟩
    · rw [hcnt hlength, Int64.toInt_ofInt_of_le hmin hmax]
      exact sum_ge S low hlowest
    · rw [hcnt hlength, Int64.toInt_ofInt_of_le hmin hmax]
      exact sum_le S high hhighest

/-! ### Ranges in a run -/

omit [F64 F] in
theorem mem_samples_ne_opening {es : List (Event F)} (hes : ∀ e ∈ es, e.isByte '[' = false) :
    ∀ shown ∈ samples es, shown.1 ≠ .opening := by
  intro shown hshown
  obtain ⟨e, he, hsample⟩ := List.mem_filterMap.mp hshown
  have hbyte := hes e he
  cases e with
  | tick now values => cases hsample; simp
  | byte conn b now values sent =>
    have hb : b ≠ '['.toUInt8 := by simpa [Event.isByte] using hbyte
    simp only [sample, hb, if_false] at hsample
    split at hsample
    · cases hsample
      simp
    · cases hsample
  | returned conn b now => cases hsample
  | hungUp conn => cases hsample

omit [F64 F] in
/-- The first closing byte after an opening one is the last sample of the range. -/
theorem rangeValues_closing {before : List (Event F)} (hopen : isOpen (samples before) = true)
    (conn : Nat) (now : Moment) (values : WhichStat → StatValue F) (sent : Option Chars)
    (which : WhichStat) :
    rangeValues (before ++ [.byte conn ']'.toUInt8 now values sent]) which =
      rangeValues before which ++ [values which] := by
  have hsample : samples [Event.byte conn ']'.toUInt8 now values sent] =
      [(.closing, values)] := rfl
  simp [rangeValues, hsample, window_concat, hopen]

/-- Without an opening byte the aggregates of a closed range stay as they are. -/
theorem aggregates_frozen {opts : Options} {s₀ s t : State F} {es later : List (Event F)}
    (hboot : Booted opts s₀) (hrun : Run Step s₀ es s) (hclosed : isOpen (samples es) = false)
    (hlater : ∀ e ∈ later, e.isByte '[' = false) (hrest : Run Step s later t)
    (which : WhichStat) :
    aggregates (t.stats.stats which) = aggregates (s.stats.stats which) := by
  have hs := (run_tracks hboot hrun).collected which
  have ht := (run_tracks hboot (run_append_iff.mpr ⟨s, hrun, hrest⟩)).collected which
  rw [samples_append,
    (window_frozen (samples es) _ hclosed (mem_samples_ne_opening hlater)).1, hs] at ht
  exact (Option.some.inj ht).symm

/-- Along every run the aggregates of an integer statistic are those of the
values in the current range: the initial ones before the first `[`, with bounds
around the last value in the packet of the first `]`, and frozen after it. -/
theorem range_statistics {opts : Options} {s₀ s : State F} {es : List (Event F)}
    (which : WhichStat) (hboot : Booted opts s₀) (hrun : Run Step s₀ es s)
    (hint : which ≠ .loadAvg1min) :
    ∃ S : List Int64, rangeValues es which = S.map .int ∧
      Summarises (s.stats.stats which) S ∧
      ((∀ e ∈ es, e.isByte '[' = false) →
        aggregates (s.stats.stats which) = aggregates (statsInit which)) ∧
      (∀ before conn now values sent,
        es = before ++ [.byte conn ']'.toUInt8 now values sent] →
        isOpen (samples before) = true →
        sent = some s.stats.statPacket ∧ Bracketed (s.stats.stats which) S) ∧
      (∀ later t, isOpen (samples es) = false → (∀ e ∈ later, e.isByte '[' = false) →
        Run Step s later t →
        aggregates (t.stats.stats which) = aggregates (s.stats.stats which)) := by
  have htracks := run_tracks hboot hrun
  obtain ⟨S, hvalues, hsummary⟩ := tracks_summarises which htracks hint
  refine ⟨S, hvalues, hsummary, ?_, ?_, ?_⟩
  · intro hnone
    have hstart := boot_tracks hboot
    have hfrozen := aggregates_frozen hboot (.nil s₀) rfl hnone hrun which
    rw [hfrozen]
    exact (Option.some.inj (hstart.collected which)).symm
  · intro before conn now values sent hes hopen
    subst hes
    obtain ⟨u, -, hlast⟩ := run_append_iff.mp hrun
    obtain ⟨hsent, hobserve⟩ := closing_sent (run_singleton_iff.mp hlast)
    refine ⟨hsent, ?_⟩
    rw [← rangeValues, rangeValues_closing hopen] at hvalues
    obtain ⟨front, last, rfl, -, hmap⟩ := List.append_eq_map_iff.mp hvalues
    obtain ⟨now, rest, rfl, hnow, -⟩ := List.map_eq_cons_iff.mp hmap
    have hvalue : (s.stats.stats which).valueNow = .int now := by
      rw [hnow, hobserve]
      rfl
    exact hsummary.bracketed hvalue (by simp)
  · intro later t hclosed hlater hrest
    exact aggregates_frozen hboot hrun hclosed hlater hrest which

/-! ### A quiet host -/

/-- Whole numbers in place of `f64`: exact as long as the values are small
integers, which is all that the runs below compute with. -/
instance : F64 Int where
  zero := 0
  minValue := -(2 ^ 1024 - 2 ^ 971)
  maxValue := 2 ^ 1024 - 2 ^ 971
  min := min
  max := max
  add := (· + ·)
  div := (· / ·)
  ofI64 := Int64.toInt
  parse := fun text => (parseDigits (text.takeWhile (· ≠ '.'))).map Int.ofNat
  display := decimalInt

def quietCounters : Counters where
  reset := fun _ => true
  start := fun _ => true
  stop := fun _ => true
  read := fun _ => some 0

/-- The files of a host on which nothing happens. -/
def quiet : Moment where
  loadavg := ⟨true, some "0.00 0.00 0.00 1/80 7\n".toList⟩
  meminfo := ⟨true, some "MemTotal: 64 kB\n".toList⟩
  faasm := ⟨true, some "started,0,".toList⟩
  net := ⟨true, some "lo: 9 1 0 0 0 0 0 0 9 1 0 0 0 0 0 0\n".toList⟩
  procStat := ⟨⟨true, some "cpu  1 0 2\nctxt 5\n".toList⟩, some "cpu  1 0 2\nctxt 5\n".toList⟩
  diskstats := ⟨⟨true, some "8 0 sda 3 1\n".toList⟩, some "8 0 sda 3 1\n".toList⟩
  clkTck := 100
  counters := quietCounters

/-- The kernel grants no counters there. -/
def quietHost : PerfHost := ⟨fun _ _ => false, 0, fun _ _ _ => rfl⟩

theorem quiet_registered : ∀ entry ∈ ([] : List (WhichStat × List PerfCounter)),
    entry.1 ∈ registeredEvents.map Prod.fst :=
  fun _ hentry => absurd hentry List.not_mem_nil

def quietEvents : EventStat := ⟨[], quiet_registered⟩

theorem quietEvents_isNew : EventStat.IsNew quietHost quietEvents := by
  unfold EventStat.IsNew
  decide

/-- The parts of the state on which the success of a quiet update depends. -/
def SameNet (s t : Stats F) : Prop :=
  t.events = s.events ∧ t.netOpen = s.netOpen ∧ t.netIface = s.netIface

omit [F64 F] in
theorem SameNet.of_onlyStats {touched : WhichStat → Prop} {s t : Stats F}
    (hst : OnlyStats touched s t) : SameNet s t := by
  refine ⟨?_, ?_, ?_⟩ <;> rw [hst.rest]

omit [F64 F] in
theorem readSource_opens {source : Source} {text : Chars} (hopens : source.opens = true)
    (htext : source.text = some text) (isOpen : Bool) (onOpenError : Error) (mark : Bool → Stats F)
    (parse : Chars → Stats F → Result (Stats F)) (s : Stats F) :
    readSource source isOpen onOpenError mark parse s = parse text (mark true) := by
  simp [readSource, hopens, htext]

theorem quiet_updLoadavg (s : Stats Int) :
    ∃ t, s.updLoadavg quiet.loadavg = .done t ∧ SameNet s t := by
  rw [Stats.updLoadavg, readSource_opens rfl rfl]
  exact ⟨_, rfl, rfl, rfl, rfl⟩

omit [F64 F] in
theorem quiet_updMeminfo (s : Stats F) :
    ∃ t, s.updMeminfo quiet.meminfo = .done t ∧ SameNet s t := by
  rw [Stats.updMeminfo, readSource_opens rfl rfl]
  exact ⟨_, rfl, rfl, rfl, rfl⟩

omit [F64 F] in
theorem quiet_updFaasm (s : Stats F) :
    ∃ t, s.updFaasm quiet.faasm = .done t ∧ SameNet s t := by
  rw [Stats.updFaasm, readSource_opens rfl rfl]
  exact ⟨_, rfl, rfl, rfl, rfl⟩

/-- The interface is `lo`, before or after its name was completed. -/
def OnLoopback (s : Stats F) : Prop :=
  s.events = quietEvents ∧
    (s.netOpen = false ∧ s.netIface = "lo".toList ∨ s.netOpen = true ∧ s.netIface = "lo:".toList)

omit [F64 F] in
theorem OnLoopback.of_same {s t : Stats F} (hs : OnLoopback s) (hsame : SameNet s t) :
    OnLoopback t := by
  unfold OnLoopback
  rw [hsame.1, hsame.2.1, hsame.2.2]
  exact hs

omit [F64 F] in
theorem quiet_parseNet (s : Stats F) (hiface : s.netIface = "lo:".toList) :
    ∃ t, s.parseNet "lo: 9 1 0 0 0 0 0 0 9 1 0 0 0 0 0 0\n".toList = .done t ∧ SameNet s t := by
  cases s
  subst hiface
  exact ⟨_, rfl, rfl, rfl, rfl⟩

omit [F64 F] in
theorem loopback_updNet {text : Chars}
    (hparse : ∀ u : Stats F, u.netIface = "lo:".toList → ∃ t, u.parseNet text = .done t ∧ SameNet u t)
    (s : Stats F) (hs : OnLoopback s) : ∃ t, s.updNet ⟨true, some text⟩ = .done t ∧ OnLoopback t := by
  obtain ⟨hevents, ⟨hclosed, hiface⟩ | ⟨hopen, hiface⟩⟩ := hs
  · obtain ⟨t, ht, hsame⟩ := hparse
      { s with netOpen := true, netRewound := true, netIface := s.netIface ++ [':'] }
      (by rw [hiface]; rfl)
    refine ⟨t, ?_, hsame.1.trans hevents, .inr ⟨hsame.2.1, ?_⟩⟩
    · have hne : (true && decide (s.netIface = [])) = false := by
        rw [hiface]
        rfl
      rw [Stats.updNet, if_neg (by simp [hclosed]), if_neg (by simp [hne]),
        readSource_opens rfl rfl]
      exact ht
    · rw [hsame.2.2, hiface]
      rfl
  · obtain ⟨t, ht, hsame⟩ := hparse { s with netRewound := true } hiface
    refine ⟨t, ?_, OnLoopback.of_same ⟨hevents, .inr ⟨hopen, hiface⟩⟩ hsame⟩
    rw [Stats.updNet, if_pos hopen, readSource_opens rfl rfl]
    exact ht

theorem quiet_cpuExtract (cpu : CpuStat) :
    ∃ next, cpu.extract quiet.procStat.text = .done next := ⟨_, rfl⟩

omit [F64 F] in
theorem quiet_updCpu (s : Stats F) :
    ∃ t, ((s.updCpu quiet).andThen fun u => .done u.setCpu) = .done t ∧ SameNet s t := by
  have hcpu : ∃ next, s.cpu.update quiet.clkTck quiet.procStat = .done next := by
    cases hopen : s.cpu.isOpen with
    | true =>
      rw [CpuStat.update, if_pos hopen]
      exact quiet_cpuExtract s.cpu
    | false =>
      rw [CpuStat.update, if_neg (by simp [hopen])]
      exact ⟨_, rfl⟩
  obtain ⟨next, hnext⟩ := hcpu
  have hsame := SameNet.of_onlyStats (setCpu_onlyStats { s with cpu := next })
  exact ⟨_, by rw [Stats.updCpu, hnext, map_done, andThen_done], hsame⟩

theorem quiet_ioExtract (io : IoStat) :
    ∃ next, io.extract quiet.diskstats.text = .done next := ⟨_, rfl⟩

omit [F64 F] in
theorem quiet_updIo (s : Stats F) :
    ∃ t, ((s.updIo quiet).andThen fun u => .done u.setIo) = .done t ∧ SameNet s t := by
  have hio : ∃ next, s.io.update quiet.diskstats = .done next := by
    cases hopen : s.io.isOpen with
    | true =>
      rw [IoStat.update, if_pos hopen]
      exact quiet_ioExtract s.io
    | false =>
      rw [IoStat.update, if_neg (by simp [hopen])]
      exact ⟨_, rfl⟩
  obtain ⟨next, hnext⟩ := hio
  have hsame := SameNet.of_onlyStats (setIo_onlyStats { s with io := next })
  exact ⟨_, by rw [Stats.updIo, hnext, map_done, andThen_done], hsame⟩

/-- Whatever passes over the loopback interface. -/
theorem loopback_refresh {text : Chars} {now : Moment}
    (hnow : now = { quiet with net := ⟨true, some text⟩ })
    (hparse : ∀ u : Stats Int, u.netIface = "lo:".toList →
      ∃ t, u.parseNet text = .done t ∧ SameNet u t) (s : Stats Int) (hs : OnLoopback s) :
    ∃ t, s.refresh now = .done t ∧ OnLoopback t := by
  subst hnow
  obtain ⟨s₁, h₁, hsame₁⟩ := quiet_updLoadavg s
  obtain ⟨s₂, h₂, hsame₂⟩ := quiet_updMeminfo s₁
  obtain ⟨s₃, h₃, hsame₃⟩ := quiet_updFaasm s₂
  obtain ⟨s₄, h₄, hs₄⟩ := loopback_updNet hparse s₃
    (((hs.of_same hsame₁).of_same hsame₂).of_same hsame₃)
  obtain ⟨s₅, h₅, hsame₅⟩ := quiet_updCpu s₄
  have hs₅ := hs₄.of_same hsame₅
  have hnone : s₅.events.update quiet.counters s₅.stats = .done s₅.stats := by
    rw [hs₅.1]
    rfl
  have h₆ : s₅.updEvents quiet = .done s₅ := by
    rw [Stats.updEvents, hnone]
    rfl
  obtain ⟨s₇, h₇, hsame₇⟩ := quiet_updIo s₅
  refine ⟨s₇, ?_, hs₅.of_same hsame₇⟩
  simp only [Stats.updCpu, Stats.updEvents, Stats.updIo] at h₅ h₆ h₇
  simp only [Stats.refresh, Stats.updCpu, Stats.updEvents, Stats.updIo, h₁, h₂, h₃, h₄, h₅, h₆, h₇,
    andThen_done]

omit [F64 F] in
theorem SameNet.of_aggregate {s t : Stats F} [F64 F] (haggregate : s.aggregate = .done t) :
    SameNet s t := by
  unfold Stats.aggregate at haggregate
  split at haggregate
  · cases haggregate
    exact ⟨rfl, rfl, rfl⟩
  · cases haggregate

theorem loopback_update {history : List (Mark × (WhichStat → StatValue Int))} {s : Stats Int}
    {text : Chars} {now : Moment} (hnow : now = { quiet with net := ⟨true, some text⟩ })
    (hparse : ∀ u : Stats Int, u.netIface = "lo:".toList →
      ∃ t, u.parseNet text = .done t ∧ SameNet u t)
    (htracks : Tracks history s) (hs : OnLoopback s) :
    ∃ t, s.update now = .done t ∧ OnLoopback t := by
  obtain ⟨u, hrefresh, hu⟩ := loopback_refresh hnow hparse s hs
  obtain ⟨t, ht⟩ := (htracks.refreshed ((refresh_leaves now s).of_done hrefresh)).aggregate_done
  cases hinRange : u.inRange with
  | true =>
    exact ⟨t, by simp [Stats.update, hrefresh, hinRange, ht], hu.of_same (.of_aggregate ht)⟩
  | false => exact ⟨u, by simp [Stats.update, hrefresh, hinRange], hu⟩

theorem quiet_update {history : List (Mark × (WhichStat → StatValue Int))} {s : Stats Int}
    (htracks : Tracks history s) (hs : OnLoopback s) :
    ∃ t, s.update quiet = .done t ∧ OnLoopback t :=
  loopback_update rfl quiet_parseNet htracks hs

/-- A run on the quiet host in which every connection is still served. -/
structure QuietRun (es : List (Event Int)) (s : State Int) : Prop where
  run : ∃ opts s₀, Booted opts s₀ ∧ Run Step s₀ es s
  loopback : OnLoopback s.stats
  gone : s.gone = []

theorem QuietRun.update {es : List (Event Int)} {s : State Int} (hquiet : QuietRun es s) :
    ∃ t, s.stats.update quiet = .done t ∧ OnLoopback t := by
  obtain ⟨opts, s₀, hboot, hrun⟩ := hquiet.run
  exact quiet_update (run_tracks hboot hrun) hquiet.loopback

theorem QuietRun.extend {es : List (Event Int)} {s t : State Int} {e : Event Int}
    (hquiet : QuietRun es s) (hstep : Step s e t) (hloopback : OnLoopback t.stats)
    (hover : t.gone = []) : QuietRun (es ++ [e]) t := by
  obtain ⟨opts, s₀, hboot, hrun⟩ := hquiet.run
  refine ⟨⟨opts, s₀, hboot, run_append_iff.mpr ⟨s, hrun, run_singleton_iff.mpr hstep⟩⟩,
    hloopback, hover⟩

theorem quietRun_boot : ∃ s : State Int, QuietRun [] s := by
  have hnew : Tracks [] ({ Stats.new quietEvents with
      hostPrefix := "local_".toList, netIface := "lo".toList } : Stats Int) :=
    tracks_new _ rfl rfl
  obtain ⟨u, hu, honu⟩ := quiet_update hnew ⟨rfl, .inl ⟨rfl, rfl⟩⟩
  obtain ⟨huInRange, huKind, huCollected⟩ := hnew.updated hu
  obtain ⟨t, ht, hont⟩ := quiet_update ⟨huInRange, huKind, huCollected⟩ honu
  have hboot : Booted ⟨"local_".toList, "lo".toList⟩ (⟨t, []⟩ : State Int) := by
    refine ⟨rfl, quietHost, quietEvents, quiet, quiet, quietEvents_isNew, ?_⟩
    rw [boot, andThen_eq_done]
    exact ⟨u, hu, ht⟩
  exact ⟨⟨t, []⟩, ⟨_, _, hboot, .nil _⟩, hont, rfl⟩

theorem QuietRun.tick {es : List (Event Int)} {s : State Int} (hquiet : QuietRun es s) :
    ∃ t, QuietRun (es ++ [.tick quiet (observe t.stats)]) t := by
  obtain ⟨t, hupdate, hont⟩ := hquiet.update
  exact ⟨{ s with stats := t }, hquiet.extend (.tick hupdate) hont hquiet.gone⟩

theorem QuietRun.opening {es : List (Event Int)} {s : State Int} (hquiet : QuietRun es s)
    (conn : Nat) :
    ∃ t, QuietRun (es ++ [.byte conn '['.toUInt8 quiet (observe t.stats) none]) t := by
  obtain ⟨u, hupdate, honu⟩ := hquiet.update
  have hbegin : u.beginRange quiet.counters =
      .done { u with inRange := true, stats := fun which => (u.stats which).reset } := by
    rw [Stats.beginRange, honu.1]
    rfl
  refine ⟨{ s with stats := { u with inRange := true, stats := fun which => (u.stats which).reset } },
    hquiet.extend (.byte (by simp [hquiet.gone]) ?_) (honu.of_same ⟨rfl, rfl, rfl⟩) hquiet.gone⟩
  rw [connHandler_opening, ofResult_eq_goesOn, andThen_eq_done]
  exact ⟨⟨u, hupdate, hbegin⟩, rfl⟩

theorem QuietRun.closing {es : List (Event Int)} {s : State Int} (hquiet : QuietRun es s)
    (conn : Nat) :
    ∃ t, QuietRun (es ++ [.byte conn ']'.toUInt8 quiet (observe t.stats)
      (some t.stats.statPacket)]) t := by
  obtain ⟨u, hupdate, honu⟩ := hquiet.update
  have hend : u.endRange quiet.counters = .done { u with inRange := false } := by
    rw [Stats.endRange, honu.1]
    rfl
  refine ⟨{ s with stats := { u with inRange := false } },
    hquiet.extend (.byte (by simp [hquiet.gone]) ?_) (honu.of_same ⟨rfl, rfl, rfl⟩) hquiet.gone⟩
  rw [connHandler_closing, ofResult_eq_goesOn, andThen_eq_done]
  exact ⟨⟨u, hupdate, hend⟩, rfl⟩

/-- Asking for the packet changes nothing. -/
theorem QuietRun.asking {es : List (Event Int)} {s : State Int} (hquiet : QuietRun es s)
    (conn : Nat) :
    QuietRun (es ++ [.byte conn '?'.toUInt8 quiet (observe s.stats) (some s.stats.statPacket)]) s :=
  hquiet.extend (.byte (by simp [hquiet.gone]) rfl) hquiet.loopback hquiet.gone

/-- Ticks can follow each other without end. -/
theorem QuietRun.ticks {es : List (Event Int)} {s : State Int} (hquiet : QuietRun es s) (n : Nat) :
    ∃ (during : List (Event Int)) (t : State Int), QuietRun (es ++ during) t ∧
      (samples during).length = n ∧ ∀ shown ∈ samples during, shown.1 = .plain := by
  induction n with
  | zero => exact ⟨[], s, by simpa using hquiet, rfl, by simp [samples]⟩
  | succ n ih =>
    obtain ⟨during, t, hduring, hlength, hplain⟩ := ih
    obtain ⟨u, hu⟩ := hduring.tick
    refine ⟨during ++ [.tick quiet (observe u.stats)], u, by simpa using hu, ?_, ?_⟩
    · simp [samples_singleton, sample, hlength]
    · intro shown hshown
      rw [samples_append, List.mem_append] at hshown
      rcases hshown with hold | hnew
      · exact hplain shown hold
      · rw [samples_singleton] at hnew
        simp only [sample, Option.toList_some, List.mem_singleton] at hnew
        rw [hnew]

theorem quietRun_opened (conn : Nat) :
    ∃ (s : State Int) (values : WhichStat → StatValue Int),
      QuietRun [.byte conn '['.toUInt8 quiet values none] s := by
  obtain ⟨s₀, hs₀⟩ := quietRun_boot
  obtain ⟨s, hs⟩ := hs₀.opening conn
  exact ⟨s, _, hs⟩

/-- One range with a single tick before its end. -/
theorem range_statistics_quiet :
    ∃ (opts : Options) (s₀ s : State Int) (es : List (Event Int)) (S : List Int64),
      Booted opts s₀ ∧ Run Step s₀ es s ∧ S.length = 2 ∧
        rangeValues es .memTotal = S.map .int ∧
        Summarises (s.stats.stats .memTotal) S ∧ Bracketed (s.stats.stats .memTotal) S := by
  obtain ⟨s₁, values₁, hs₁⟩ := quietRun_opened 0
  obtain ⟨s₂, hs₂⟩ := hs₁.tick
  obtain ⟨s₃, hs₃⟩ := hs₂.closing 0
  obtain ⟨opts, s₀, hboot, hrun⟩ := hs₃.run
  obtain ⟨S, hvalues, hsummary, -, hclosing, -⟩ :=
    range_statistics .memTotal hboot hrun (by decide)
  refine ⟨opts, s₀, s₃, _, S, hboot, hrun, ?_, hvalues, hsummary, (hclosing _ _ _ _ _ rfl rfl).2⟩
  rw [← List.length_map StatValue.int, ← hvalues]
  rfl

/-- The counter has 64 bits: after 2^63 ticks in a range it is negative. -/
theorem valueCnt_wraps :
    ∃ (opts : Options) (s₀ s : State Int) (es : List (Event Int)),
      Booted opts s₀ ∧ Run Step s₀ es s ∧
        (s.stats.stats .memTotal).valueCnt.toInt ≠ (rangeValues es .memTotal).length := by
  obtain ⟨s₁, values₁, hs₁⟩ := quietRun_opened 0
  obtain ⟨during, s₂, hs₂, hlength, hplain⟩ := hs₁.ticks (2 ^ 63)
  obtain ⟨opts, s₀, hboot, hrun⟩ := hs₂.run
  refine ⟨opts, s₀, s₂, _, hboot, hrun, ?_⟩
  obtain ⟨S, hvalues, hsummary⟩ :=
    tracks_summarises .memTotal (run_tracks hboot hrun) (by decide)
  have hwindow := (window_opened [] values₁ (samples during) hplain).1
  have hrange : (rangeValues ([.byte 0 '['.toUInt8 quiet values₁ none] ++ during)
      .memTotal).length = 2 ^ 63 := by
    rw [rangeValues, samples_append]
    simpa [samples_singleton, sample, hlength] using congrArg List.length hwindow
  have hS : S.length = 2 ^ 63 := by
    rw [← List.length_map StatValue.int, ← hvalues]
    exact hrange
  rw [hsummary.cnt, hS, hrange]
  decide

/-! ### Several clients -/

omit [F64 F] in
theorem mem_samples_plain {es : List (Event F)}
    (hes : ∀ e ∈ es, e.isByte '[' = false ∧ e.isByte ']' = false) :
    ∀ shown ∈ samples es, shown.1 = .plain := by
  intro shown hshown
  obtain ⟨e, he, hsample⟩ := List.mem_filterMap.mp hshown
  obtain ⟨hopening, hclosing⟩ := hes e he
  cases e with
  | tick now values => cases hsample; rfl
  | byte conn b now values sent =>
    have hb : b ≠ '['.toUInt8 ∧ b ≠ ']'.toUInt8 := by
      simpa [Event.isByte] using And.intro hopening hclosing
    simp [sample, hb.1, hb.2] at hsample
  | returned conn b now => cases hsample
  | hungUp conn => cases hsample

/-- The packet that answers a `]` aggregates, for every statistic, the range of
the whole server: from the last `[` of any connection to the first `]` after it.
That is the range of the asking connection when nobody else sent a range
command since its own `[`. -/
theorem packet_aggregates_shared_range {opts : Options} {s₀ s : State F}
    (before during : List (Event F)) {conn : Nat} {openedAt closedAt : Moment}
    {openedWith closedWith : WhichStat → StatValue F} {reply sent : Option Chars}
    (hboot : Booted opts s₀)
    (hrun : Run Step s₀ (before ++ .byte conn '['.toUInt8 openedAt openedWith reply ::
      (during ++ [.byte conn ']'.toUInt8 closedAt closedWith sent])) s) :
    sent = some s.stats.statPacket ∧
    ∀ which,
      collect which (rangeValues (before ++ .byte conn '['.toUInt8 openedAt openedWith reply ::
        (during ++ [.byte conn ']'.toUInt8 closedAt closedWith sent])) which) =
          some (aggregates (s.stats.stats which)) ∧
      ((∀ e ∈ during, e.isByte '[' = false ∧ e.isByte ']' = false) →
        collect which ((samples (during ++
          [.byte conn ']'.toUInt8 closedAt closedWith sent])).map fun shown => shown.2 which) =
            some (aggregates (s.stats.stats which))) := by
  have hcollected := (run_tracks hboot hrun).collected
  refine ⟨?_, fun which => ⟨hcollected which, ?_⟩⟩
  · rw [← List.cons_append, ← List.append_assoc] at hrun
    obtain ⟨u, -, hlast⟩ := run_append_iff.mp hrun
    exact (closing_sent (run_singleton_iff.mp hlast)).1
  · intro hquiet
    have hclosing : samples [Event.byte conn ']'.toUInt8 closedAt closedWith sent] =
        [(.closing, closedWith)] := rfl
    have hhistory : samples (before ++ .byte conn '['.toUInt8 openedAt openedWith reply ::
        (during ++ [.byte conn ']'.toUInt8 closedAt closedWith sent])) =
        samples before ++ (.opening, openedWith) :: (samples during ++ [(.closing, closedWith)]) := by
      rw [← hclosing, ← samples_append, samples_append]
      rfl
    have hwindow := window_closed (samples before) openedWith closedWith (samples during)
      (mem_samples_plain hquiet)
    have hrange := hcollected which
    rw [hhistory, hwindow] at hrange
    rw [samples_append, hclosing]
    simpa [Function.comp_def] using hrange

/-- Client 1 has measured before client 0 does, and asks for the packet in between. -/
theorem packet_aggregates_quiet :
    ∃ (opts : Options) (s₀ s : State Int) (opened closed first second shown third :
      WhichStat → StatValue Int) (earlier asked sent : Option Chars), Booted opts s₀ ∧
      Run Step s₀ [.byte 1 '['.toUInt8 quiet opened none, .byte 1 ']'.toUInt8 quiet closed earlier,
        .byte 0 '['.toUInt8 quiet first none, .tick quiet second,
        .byte 1 '?'.toUInt8 quiet shown asked, .byte 0 ']'.toUInt8 quiet third sent] s ∧
      sent = some s.stats.statPacket ∧
      ∀ which, collect which [second which, third which] =
        some (aggregates (s.stats.stats which)) := by
  obtain ⟨s₁, values₁, hs₁⟩ := quietRun_opened 1
  obtain ⟨s₂, hs₂⟩ := hs₁.closing 1
  obtain ⟨s₃, hs₃⟩ := hs₂.opening 0
  obtain ⟨s₄, hs₄⟩ := hs₃.tick
  obtain ⟨s₅, hs₅⟩ := (hs₄.asking 1).closing 0
  obtain ⟨opts, s₀, hboot, hrun⟩ := hs₅.run
  obtain ⟨hsent, hcollect⟩ := packet_aggregates_shared_range
    [.byte 1 '['.toUInt8 quiet values₁ none,
      .byte 1 ']'.toUInt8 quiet (observe s₂.stats) (some s₂.stats.statPacket)]
    [.tick quiet (observe s₄.stats),
      .byte 1 '?'.toUInt8 quiet (observe s₄.stats) (some s₄.stats.statPacket)] hboot hrun
  refine ⟨opts, s₀, s₅, values₁, _, _, _, _, _, _, _, _, hboot, hrun, hsent, fun which => ?_⟩
  have hasked : '?'.toUInt8 ≠ '['.toUInt8 ∧ '?'.toUInt8 ≠ ']'.toUInt8 := by decide
  apply (hcollect which).2
  simpa [Event.isByte] using hasked

/-- A second client that opens a range restarts the aggregates of the first. -/
theorem other_client_disturbs :
    ¬ ∀ (opts : Options) (s₀ s : State Int) (before during : List (Event Int)) (conn : Nat)
      (openedAt closedAt : Moment) (openedWith closedWith : WhichStat → StatValue Int)
      (reply sent : Option Chars), Booted opts s₀ →
      Run Step s₀ (before ++ .byte conn '['.toUInt8 openedAt openedWith reply ::
        (during ++ [.byte conn ']'.toUInt8 closedAt closedWith sent])) s →
      ∀ which, collect which ((samples (during ++
        [.byte conn ']'.toUInt8 closedAt closedWith sent])).map fun shown => shown.2 which) =
          some (aggregates (s.stats.stats which)) := by
  intro hclaim
  obtain ⟨s₁, values₁, hs₁⟩ := quietRun_opened 0
  obtain ⟨s₂, hs₂⟩ := hs₁.opening 1
  obtain ⟨s₃, hs₃⟩ := hs₂.closing 0
  obtain ⟨opts, s₀, hboot, hrun⟩ := hs₃.run
  have hown := hclaim opts s₀ s₃ [] [.byte 1 '['.toUInt8 quiet (observe s₂.stats) none] 0
    quiet quiet values₁ _ none _ hboot hrun .memTotal
  have hshared := (run_tracks hboot hrun).collected .memTotal
  -- two updates since the own opening byte, one since that of the other client
  obtain ⟨own, hownValues, hownAgg⟩ := collect_int (by decide) _ hown
  obtain ⟨shared, hsharedValues, hsharedAgg⟩ := collect_int (by decide) _ hshared
  have hownLength : own.length = 2 := by
    rw [← List.length_map StatValue.int, ← hownValues]
    rfl
  have hsharedLength : shared.length = 1 := by
    rw [← List.length_map StatValue.int, ← hsharedValues]
    rfl
  rw [hownAgg, Aggregates.mk.injEq, hownLength, hsharedLength] at hsharedAgg
  exact absurd hsharedAgg.2.2.2 (by decide)

end NdpOffload.Statmon.Ranges
