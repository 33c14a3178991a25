import Mathlib.Algebra.BigOperators.Group.Finset.Basic
import Mathlib.Algebra.BigOperators.Group.Finset.Piecewise
import Mathlib.Algebra.Order.BigOperators.Group.List
import NdpOffload.Statmon.Telescoping

/-! `IoStat::update` on what the kernel prints in `/proc/diskstats`: one line per
device, with two ids, a name and at least eight counters. -/
namespace NdpOffload.Statmon.Disks

open Library.Outcomes Library.Runs Library.Text Table Sources

structure DiskLine where
  indent : Nat
  major : Nat
  minor : Nat
  devname : Chars
  counters : IoTotals → Nat
  more : List Nat
  gaps : Nat → Nat
  devname_word : IsWord isWhitespace devname

/-- What stands after the first id. -/
def DiskLine.fields (line : DiskLine) : List Chars :=
  decimal line.minor :: line.devname ::
    (IoTotals.all.map line.counters ++ line.more).map decimal

def DiskLine.cells (line : DiskLine) : List (Nat × Chars) :=
  line.fields.mapIdx fun i field => (line.gaps i + 1, field)

def DiskLine.render (line : DiskLine) : Chars :=
  padded ((line.indent, decimal line.major) :: line.cells)

def diskstats (disks : List DiskLine) : Chars := unlines (disks.map DiskLine.render)

/-- The devices that the totals are about. -/
def counted (disks : List DiskLine) : List DiskLine :=
  disks.filter fun line => !ignoreSet line.devname

def total (disks : List DiskLine) (i : IoTotals) : Nat :=
  ((counted disks).map fun line => line.counters i).sum

/-! ### One line -/

section Line

variable (line : DiskLine)

theorem fields_word : ∀ field ∈ line.fields, IsWord isWhitespace field := by
  intro field hfield
  simp only [DiskLine.fields, List.mem_cons, List.mem_map] at hfield
  rcases hfield with rfl | rfl | ⟨n, _, rfl⟩
  · exact isWord_decimal (fun _ => isDigit_of_isWhitespace) _
  · exact line.devname_word
  · exact isWord_decimal (fun _ => isDigit_of_isWhitespace) _

theorem cells_word : ∀ cell ∈ line.cells, 0 < cell.1 ∧ IsWord isWhitespace cell.2 := by
  intro cell hcell
  obtain ⟨i, hi, rfl⟩ := List.mem_mapIdx.mp hcell
  exact ⟨Nat.succ_pos _, fields_word line _ (List.getElem_mem hi)⟩

theorem major_word : IsWord isWhitespace (decimal line.major) :=
  isWord_decimal (fun _ => isDigit_of_isWhitespace) _

theorem isWord_ascii {word : Chars} (hword : IsWord isWhitespace word) :
    IsWord isAsciiWhitespace word := by
  refine ⟨hword.1, fun c hc => ?_⟩
  cases hblank : isAsciiWhitespace c with
  | false => rfl
  | true => exact absurd (isWhitespace_of_ascii hblank) (by simp [hword.2 c hc])

/-- The line as the loop sees it. -/
def DiskLine.trimmed : Chars := padded ((0, decimal line.major) :: line.cells)

theorem trim_render : trim isWhitespace line.render = line.trimmed :=
  trim_padded (by decide) (major_word line) fun cell hcell => (cells_word line cell hcell).2

theorem trimmed_ne_nil : line.trimmed ≠ [] := by
  simp [DiskLine.trimmed, padded, (major_word line).1]

theorem words_trimmed :
    words isAsciiWhitespace line.trimmed = decimal line.major :: line.fields := by
  have hcells := cells_word line
  rw [DiskLine.trimmed, words_padded (by decide) (isWord_ascii (major_word line))
    fun cell hcell => ⟨(hcells cell hcell).1, isWord_ascii (hcells cell hcell).2⟩]
  congr 1
  apply List.ext_getElem
  · simp [DiskLine.cells]
  · intro i hi hi'
    simp [DiskLine.cells]

theorem notMem_render {c : Char} (hc : isWhitespace c = true) (hspace : c ≠ ' ') :
    c ∉ line.render := by
  apply notMem_padded hspace
  intro cell hcell hmem
  have hword : IsWord isWhitespace cell.2 := by
    rcases List.mem_cons.mp hcell with rfl | htail
    · exact major_word line
    · exact (cells_word line cell htail).2
  rw [hword.2 c hmem] at hc
  cases hc

/-- Storing counters one by one leaves those that were not reached alone. -/
theorem each_store (value : IoTotals → Nat) (fields : List IoTotals)
    (hfit : ∀ i ∈ fields, value i < 2 ^ 64) (io : IoStat) :
    Outcome.each (fun (item : Chars × IoTotals) => storeU64 item.1 (IoStat.storeTotal item.2))
        (fields.map fun i => (decimal (value i), i)) io =
      .done { io with
        ioTotals := fun i => if i ∈ fields then UInt64.ofNat (value i) else io.ioTotals i } := by
  induction fields generalizing io with
  | nil => simp
  | cons field fields ih =>
    rw [List.map_cons, each_cons, storeU64, parseU64_decimal_of_lt (hfit field List.mem_cons_self)]
    simp only [andThen_done]
    rw [ih fun i hi => hfit i (List.mem_cons_of_mem _ hi)]
    congr 2
    funext i
    by_cases heq : i = field
    · simp [IoStat.storeTotal, heq]
    · simp [IoStat.storeTotal, heq]

/-- Each device of interest overwrites all the totals. -/
theorem readLine_trimmed (io : IoStat)
    (hfit : ignoreSet line.devname = false → ∀ i, line.counters i < 2 ^ 64) :
    io.readLine line.trimmed =
      .done (if ignoreSet line.devname then io
        else { io with ioTotals := fun i => UInt64.ofNat (line.counters i) }) := by
  have hname : line.devname ≠ [] := line.devname_word.1
  simp only [IoStat.readLine, words_trimmed, DiskLine.fields, List.drop_succ_cons, List.drop_zero,
    List.headD_cons, decide_eq_false hname, Bool.false_or]
  cases hignored : ignoreSet line.devname with
  | true => rfl
  | false =>
    have hzip : ((IoTotals.all.map line.counters ++ line.more).map decimal).zip IoTotals.all =
        IoTotals.all.map fun i => (decimal (line.counters i), i) := by
      simp [IoTotals.all]
    simp only [Bool.false_eq_true, if_false]
    rw [hzip, each_store _ _ fun i _ => hfit hignored i]
    congr 2
    funext i
    cases i <;> rfl

end Line

/-! ### The whole file -/

theorem trimmedLines_diskstats (disks : List DiskLine) :
    trimmedLines (diskstats disks) = disks.map DiskLine.trimmed := by
  have hclean : ∀ piece ∈ disks.map DiskLine.render, '\n' ∉ piece ∧ '\r' ∉ piece := by
    intro piece hpiece
    obtain ⟨line, _, rfl⟩ := List.mem_map.mp hpiece
    exact ⟨notMem_render line (by decide) (by decide), notMem_render line (by decide) (by decide)⟩
  have hlines : lines (diskstats disks) = disks.map DiskLine.render :=
    lines_unlines _ (fun piece hpiece => (hclean piece hpiece).1)
      fun piece hpiece => chomp_of_notMem (hclean piece hpiece).2
  rw [trimmedLines, hlines, List.map_map, List.filter_eq_self.mpr]
  · exact List.map_congr_left fun line _ => trim_render line
  · intro piece hpiece
    obtain ⟨line, _, rfl⟩ := List.mem_map.mp hpiece
    simp [trim_render, trimmed_ne_nil]

/-- The totals of the last device that is not ignored, or what there was. -/
def lastTotals (disks : List DiskLine) (before : IoTotals → UInt64) : IoTotals → UInt64 :=
  match (counted disks).getLast? with
  | none => before
  | some line => fun i => UInt64.ofNat (line.counters i)

theorem lastTotals_cons (line : DiskLine) (disks : List DiskLine) (before : IoTotals → UInt64) :
    lastTotals (line :: disks) before = lastTotals disks
      (if ignoreSet line.devname then before else fun i => UInt64.ofNat (line.counters i)) := by
  unfold lastTotals counted
  cases hignored : ignoreSet line.devname with
  | true => simp [hignored]
  | false =>
    simp only [hignored, List.filter_cons_of_pos, Bool.not_false, Bool.false_eq_true, if_false]
    cases hlast : (disks.filter fun line => !ignoreSet line.devname).getLast? with
    | none => simp [List.getLast?_eq_none_iff.mp hlast]
    | some last => simp [List.getLast?_cons, hlast]

theorem each_readLine (disks : List DiskLine)
    (hfit : ∀ line ∈ counted disks, ∀ i, line.counters i < 2 ^ 64) (io : IoStat) :
    Outcome.each IoStat.readLine (disks.map DiskLine.trimmed) io =
      .done { io with ioTotals := lastTotals disks io.ioTotals } := by
  induction disks generalizing io with
  | nil => rfl
  | cons line disks ih =>
    have hline : ignoreSet line.devname = false → ∀ i, line.counters i < 2 ^ 64 := fun h =>
      hfit line (List.mem_filter.mpr ⟨List.mem_cons_self, by simp [h]⟩)
    have hrest : ∀ other ∈ counted disks, ∀ i, other.counters i < 2 ^ 64 := fun other hother =>
      hfit other (List.mem_filter.mpr
        ⟨List.mem_cons_of_mem _ (List.mem_filter.mp hother).1, (List.mem_filter.mp hother).2⟩)
    rw [List.map_cons, each_cons, readLine_trimmed line io hline, andThen_done, ih hrest,
      lastTotals_cons]
    cases ignoreSet line.devname <;> rfl

theorem extract_diskstats (disks : List DiskLine)
    (hfit : ∀ line ∈ counted disks, ∀ i, line.counters i < 2 ^ 64) (io : IoStat) :
    io.extract (some (diskstats disks)) =
      .done { io with
        rewound := true, ioTotals := lastTotals disks io.ioTotals, ioTotalsLast := io.ioTotals } := by
  simp only [IoStat.extract, trimmedLines_diskstats]
  exact each_readLine disks hfit { io.handOver with rewound := true }

/-! ### All the files read so far -/

/-- The totals after these files: those of the last device that was not ignored. -/
def lastSeen (files : List (List DiskLine)) : IoTotals → UInt64 :=
  lastTotals files.flatten fun _ => 0

theorem lastTotals_lastSeen (past : List (List DiskLine)) (disks : List DiskLine) :
    lastTotals disks (lastSeen past) = lastSeen (past ++ [disks]) := by
  unfold lastSeen lastTotals counted
  rw [List.flatten_append, List.flatten_singleton, List.filter_append, List.getLast?_append]
  cases (disks.filter fun line => !ignoreSet line.devname).getLast? <;> rfl

/-- A call of `IoStat::update`: what it reads, the second time if it opens the file. -/
structure Call where
  source : TwiceRead
  first : List DiskLine
  disks : List DiskLine
  showsFirst : source.firstText = some (diskstats first)
  shows : source.text = some (diskstats disks)

def CallStep (io : IoStat) (call : Call) (next : IoStat) : Prop :=
  io.update call.source = .done next

/-- The files that a call reads after the files `past`. -/
def Call.reads (past : List (List DiskLine)) (call : Call) : List (List DiskLine) :=
  if past = [] then [call.first, call.disks] else [call.disks]

/-- The files that a new `IoStat` reads in these calls. -/
def readings (calls : List Call) : List (List DiskLine) :=
  calls.foldl (fun past call => past ++ call.reads past) []

theorem readings_concat (calls : List Call) (call : Call) :
    readings (calls ++ [call]) = readings calls ++ call.reads (readings calls) := by
  simp [readings]

/-- Every counter of a device fits. -/
def Fits (disks : List DiskLine) : Prop :=
  ∀ line ∈ counted disks, ∀ i, line.counters i < 2 ^ 64

theorem fits_of_total {disks : List DiskLine} (hfit : ∀ i, total disks i < 2 ^ 64) :
    Fits disks := by
  intro line hline i
  have hle : line.counters i ≤ total disks i :=
    List.single_le_sum (fun _ _ => Nat.zero_le _) _ (List.mem_map_of_mem hline)
  exact Nat.lt_of_le_of_lt hle (hfit i)

/-- An `IoStat` that has read these files, the last one after the others. -/
structure HasRead (files : List (List DiskLine)) (io : IoStat) : Prop where
  isOpen : io.isOpen = true ↔ files ≠ []
  totals : io.ioTotals = lastSeen files
  last : io.ioTotalsLast = lastSeen files.dropLast

section Calls

variable {past : List (List DiskLine)} {disks : List DiskLine} {io : IoStat}

theorem extract_hasRead (io : IoStat) (hopen : io.isOpen = true)
    (htotals : io.ioTotals = lastSeen past) (hfit : Fits disks) :
    ∃ next, io.extract (some (diskstats disks)) = .done next ∧ HasRead (past ++ [disks]) next := by
  refine ⟨_, extract_diskstats disks hfit io, ⟨by simp [hopen], ?_, ?_⟩⟩
  · rw [htotals]
    exact lastTotals_lastSeen past disks
  · rw [htotals, List.dropLast_concat]

/-- One call, whether it opens the file or not. -/
theorem HasRead.update (hio : HasRead past io) (call : Call)
    (hfit : ∀ disks ∈ call.reads past, Fits disks)
    (hopens : io.isOpen = true ∨ call.source.opens = true) :
    ∃ next, io.update call.source = .done next ∧ HasRead (past ++ call.reads past) next := by
  unfold IoStat.update
  by_cases hpast : past = []
  · have hclosed : ¬ io.isOpen = true := fun hopen => hio.isOpen.mp hopen hpast
    rw [Call.reads, if_pos hpast] at hfit ⊢
    obtain ⟨between, hfirst, hbetween⟩ :=
      extract_hasRead { io with isOpen := true } rfl hio.totals (hfit call.first (by simp))
    obtain ⟨next, hsecond, hnext⟩ := extract_hasRead between (hbetween.isOpen.mpr (by simp))
      hbetween.totals (hfit call.disks (by simp))
    refine ⟨next, ?_, by simpa using hnext⟩
    rw [if_neg hclosed, if_neg (by simp [hopens.resolve_left hclosed]), call.showsFirst, hfirst,
      andThen_done, call.shows, hsecond]
  · rw [Call.reads, if_neg hpast] at hfit ⊢
    have hopen : io.isOpen = true := hio.isOpen.mpr hpast
    obtain ⟨next, hdone, hnext⟩ := extract_hasRead io hopen hio.totals
      (hfit call.disks (by simp))
    exact ⟨next, by rw [if_pos hopen, call.shows, hdone], hnext⟩

theorem hasRead_run {calls : List Call} (hrun : Run CallStep {} calls io)
    (hfit : ∀ disks ∈ readings calls, Fits disks) : HasRead (readings calls) io := by
  refine hrun.history_start (fun past io => (∀ disks ∈ readings past, Fits disks) →
    HasRead (readings past) io) ?_ (fun _ => ⟨by simp [readings], rfl, rfl⟩) hfit
  intro past io call next hio hstep hfit
  rw [readings_concat] at hfit ⊢
  have hopens : io.isOpen = true ∨ call.source.opens = true := by
    by_contra hneither
    simp only [not_or, Bool.not_eq_true] at hneither
    simp [CallStep, IoStat.update, hneither.1, hneither.2] at hstep
  obtain ⟨next', hdone, hnext⟩ := (hio fun disks hdisks =>
    hfit disks (List.mem_append_left _ hdisks)).update call
      (fun disks hdisks => hfit disks (List.mem_append_right _ hdisks)) hopens
  cases hdone.symm.trans hstep
  exact hnext

end Calls

/-! ### The sums over the devices -/

/-- The counters of the device `devname`, none if it is not listed. -/
def deviceCounter (disks : List DiskLine) (devname : Chars) (i : IoTotals) : Int :=
  (((counted disks).filter fun line => line.devname = devname).map fun line =>
    (line.counters i : Int)).sum

/-- The devices in either file that are not ignored. -/
def devices (earlier disks : List DiskLine) : Finset Chars :=
  ((counted earlier ++ counted disks).map DiskLine.devname).toFinset

/-- The totals are the sums over the devices, and the increases to report are the sums of
the increases of the devices. -/
structure TotalsRight (earlier disks : List DiskLine) (io : IoStat) : Prop where
  totals : ∀ i, (io.ioTotals i).toNat = total disks i
  deltas : ∀ i, (io.ioTotalsMs i).toInt64 = Int64.ofInt (∑ devname ∈ devices earlier disks,
    (deviceCounter disks devname i - deviceCounter earlier devname i))

/-- In the file `disks` all devices but the last show nothing; if it has no device, the last
one of the files before shows nothing. -/
def OneBusy (past : List (List DiskLine)) (disks : List DiskLine) : Prop :=
  (∀ line ∈ (counted disks).dropLast, ∀ i, line.counters i = 0) ∧
    (counted disks = [] → ∀ line ∈ (counted past.flatten).getLast?, ∀ i, line.counters i = 0)

theorem sum_of_groups {α β : Type*} [DecidableEq β] (key : α → β) (f : α → Int) (keys : Finset β)
    (items : List α) (hkeys : ∀ item ∈ items, key item ∈ keys) :
    ∑ k ∈ keys, ((items.filter fun item => key item = k).map f).sum = (items.map f).sum := by
  induction items with
  | nil => simp
  | cons item items ih =>
    have hitem : ∀ k, (((item :: items).filter fun item => key item = k).map f).sum =
        (if key item = k then f item else 0) +
          ((items.filter fun item => key item = k).map f).sum := by
      intro k
      by_cases hk : key item = k <;> simp [hk]
    simp only [hitem, Finset.sum_add_distrib, ih fun i hi => hkeys i (List.mem_cons_of_mem _ hi),
      Finset.sum_ite_eq, hkeys item List.mem_cons_self, if_true, List.map_cons, List.sum_cons]

theorem sum_deviceCounter {devnames : Finset Chars} (disks : List DiskLine)
    (hdevnames : ∀ line ∈ counted disks, line.devname ∈ devnames) (i : IoTotals) :
    ∑ devname ∈ devnames, deviceCounter disks devname i = total disks i := by
  unfold deviceCounter
  rw [sum_of_groups DiskLine.devname _ _ _ hdevnames, total]
  induction counted disks with
  | nil => rfl
  | cons line lines ih => simp [ih]

theorem mem_devices {earlier disks : List DiskLine} {line : DiskLine}
    (hline : line ∈ counted earlier ∨ line ∈ counted disks) :
    line.devname ∈ devices earlier disks :=
  List.mem_toFinset.mpr (List.mem_map_of_mem (List.mem_append.mpr hline))

theorem sum_deltas (earlier disks : List DiskLine) (i : IoTotals) :
    ∑ devname ∈ devices earlier disks,
      (deviceCounter disks devname i - deviceCounter earlier devname i) =
        (total disks i : Int) - total earlier i := by
  rw [Finset.sum_sub_distrib, sum_deviceCounter disks, sum_deviceCounter earlier]
  · intro line hline
    exact mem_devices (.inl hline)
  · intro line hline
    exact mem_devices (.inr hline)

theorem lastSeen_eq_zero_iff {past : List (List DiskLine)} (hfit : ∀ disks ∈ past, Fits disks) :
    (∀ i, lastSeen past i = 0) ↔
      ∀ line ∈ (counted past.flatten).getLast?, ∀ i, line.counters i = 0 := by
  unfold lastSeen lastTotals
  cases hlast : (counted past.flatten).getLast? with
  | none => simp
  | some line =>
    have hmem := List.mem_filter.mp (List.mem_of_getLast? hlast)
    obtain ⟨disks, hdisks, hline⟩ := List.mem_flatten.mp hmem.1
    have hbelow := hfit disks hdisks line (List.mem_filter.mpr ⟨hline, hmem.2⟩)
    have hzero : ∀ i, UInt64.ofNat (line.counters i) = 0 ↔ line.counters i = 0 := by
      intro i
      rw [← UInt64.toNat_inj, UInt64.toNat_ofNat', Nat.mod_eq_of_lt (hbelow i)]
      rfl
    simp [hzero]

/-- The last device shows the total exactly when it alone shows anything. -/
theorem lastSeen_eq_total {past : List (List DiskLine)} {disks : List DiskLine}
    (hpast : ∀ file ∈ past, Fits file) (hfit : ∀ i, total disks i < 2 ^ 64) :
    (∀ i, (lastSeen (past ++ [disks]) i).toNat = total disks i) ↔ OneBusy past disks := by
  rw [← lastTotals_lastSeen]
  rcases List.eq_nil_or_concat (counted disks) with hnone | ⟨front, last, hlast⟩
  · have hzero : ∀ i, (lastSeen past i).toNat = 0 ↔ lastSeen past i = 0 :=
      fun i => UInt64.toNat_inj (b := 0)
    simp only [lastTotals, total, OneBusy, hnone, hzero, List.getLast?_nil, List.map_nil,
      List.sum_nil, lastSeen_eq_zero_iff hpast]
    simp
  · have htotal : ∀ i, total disks i = (front.map fun line => line.counters i).sum +
        last.counters i := by
      intro i
      simp [total, hlast]
    have hvalue : ∀ i, (lastTotals disks (lastSeen past) i).toNat = last.counters i := by
      intro i
      have hbelow := hfit i
      rw [htotal] at hbelow
      simp only [lastTotals, hlast, List.concat_eq_append, List.getLast?_concat]
      rw [UInt64.toNat_ofNat', Nat.mod_eq_of_lt (by omega)]
    simp only [hvalue, htotal, OneBusy, hlast, List.concat_eq_append, List.dropLast_concat]
    constructor
    · intro hsame
      refine ⟨fun line hline i => ?_, fun hnil => by simp at hnil⟩
      have hzero : (front.map fun line => line.counters i).sum = 0 := by
        have heq := hsame i
        omega
      exact List.sum_eq_zero_iff_forall_eq_nat.mp hzero _ (List.mem_map_of_mem hline)
    · rintro ⟨hzero, -⟩ i
      have hsum : (front.map fun line => line.counters i).sum = 0 := by
        apply List.sum_eq_zero_iff_forall_eq_nat.mpr
        intro n hn
        obtain ⟨line, hline, rfl⟩ := List.mem_map.mp hn
        exact hzero line hline i
      omega

/-- With the right totals now, the increases are right exactly when the totals before were. -/
theorem delta_eq_iff {new old : UInt64} {sum before : Nat} (hnew : new.toNat = sum)
    (hbefore : before < 2 ^ 64) :
    (new - old).toInt64 = Int64.ofInt (sum - before) ↔ old.toNat = before := by
  have hofNat : ∀ x : UInt64, x.toInt64 = Int64.ofNat x.toNat := by
    intro x
    rw [← UInt64.toInt64_ofNat', UInt64.ofNat_toNat]
  rw [UInt64.toInt64_sub, hofNat new, hofNat old, hnew, Int64.ofInt_sub, Int64.ofInt_eq_ofNat,
    Int64.ofInt_eq_ofNat, Int64.sub_right_inj, ← UInt64.toInt64_ofNat', ← UInt64.toInt64_ofNat']
  constructor
  · intro heq
    have hsame := congrArg UInt64.toNat (congrArg Int64.toUInt64 heq)
    simpa only [UInt64.toUInt64_toInt64, UInt64.toNat_ofNat', UInt64.ofNat_toNat,
      Nat.mod_eq_of_lt hbefore] using hsame
  · rintro rfl
    rfl

theorem totalsRight_iff {past : List (List DiskLine)} {earlier disks : List DiskLine} {io : IoStat}
    (hio : HasRead (past ++ [earlier, disks]) io) (hpast : ∀ file ∈ past, Fits file)
    (hearlier : ∀ i, total earlier i < 2 ^ 64) (hdisks : ∀ i, total disks i < 2 ^ 64) :
    TotalsRight earlier disks io ↔ OneBusy past earlier ∧ OneBusy (past ++ [earlier]) disks := by
  have hsplit : past ++ [earlier, disks] = (past ++ [earlier]) ++ [disks] := by simp
  have hboth : ∀ file ∈ past ++ [earlier], Fits file := by
    intro file hfile
    rcases List.mem_append.mp hfile with hbefore | hlast
    · exact hpast file hbefore
    · rw [List.mem_singleton.mp hlast]
      exact fits_of_total hearlier
  rw [hsplit] at hio
  rw [← lastSeen_eq_total hpast hearlier, ← lastSeen_eq_total hboth hdisks, ← hio.totals]
  have hlast : io.ioTotalsLast = lastSeen (past ++ [earlier]) := by
    rw [hio.last, List.dropLast_concat]
  have hdelta : ∀ i, (io.ioTotals i).toNat = total disks i →
      ((io.ioTotalsMs i).toInt64 = Int64.ofInt (∑ devname ∈ devices earlier disks,
        (deviceCounter disks devname i - deviceCounter earlier devname i)) ↔
          (lastSeen (past ++ [earlier]) i).toNat = total earlier i) := by
    intro i htotal
    rw [sum_deltas, IoStat.ioTotalsMs, hlast]
    exact delta_eq_iff htotal (hearlier i)
  constructor
  · intro hright
    exact ⟨fun i => (hdelta i (hright.totals i)).mp (hright.deltas i), hright.totals⟩
  · rintro ⟨hbefore, htotals⟩
    exact ⟨htotals, fun i => (hdelta i (htotals i)).mpr (hbefore i)⟩

/-- In every run of a new `IoStat` on files of the kernel whose sums fit, the next call
succeeds; its totals are the sums over the devices that are not ignored, and its increases
the sums of their increases, exactly when in each of the last two files read all devices
but the last show nothing. -/
theorem update_totals_iff {calls : List Call} {call : Call} {io : IoStat}
    (hrun : Run CallStep {} calls io) (hopens : io.isOpen = true ∨ call.source.opens = true)
    {past : List (List DiskLine)} {earlier disks : List DiskLine}
    (hreadings : readings (calls ++ [call]) = past ++ [earlier, disks])
    (hfit : ∀ file ∈ past ++ [earlier, disks], ∀ i, total file i < 2 ^ 64) :
    ∃ next, io.update call.source = .done next ∧
      (TotalsRight earlier disks next ↔
        OneBusy past earlier ∧ OneBusy (past ++ [earlier]) disks) := by
  have hfits : ∀ file ∈ readings calls ++ call.reads (readings calls), Fits file := by
    rw [← readings_concat, hreadings]
    exact fun file hfile => fits_of_total (hfit file hfile)
  have hio := hasRead_run hrun fun file hfile => hfits file (List.mem_append_left _ hfile)
  obtain ⟨next, hdone, hnext⟩ :=
    hio.update call (fun file hfile => hfits file (List.mem_append_right _ hfile)) hopens
  rw [← readings_concat, hreadings] at hnext
  refine ⟨next, hdone, totalsRight_iff hnext ?_ (hfit earlier (by simp)) (hfit disks (by simp))⟩
  exact fun file hfile => fits_of_total (hfit file (List.mem_append_left _ hfile))

/-! ### One disk and two -/

def lineOf (devname : Chars) (devname_word : IsWord isWhitespace devname) (n : Nat) : DiskLine where
  indent := 3
  major := 8
  minor := 0
  devname := devname
  counters := fun _ => n
  more := [0, 0, 0]
  gaps := fun _ => 0
  devname_word := devname_word

def sda : DiskLine := lineOf "sda".toList ⟨by decide, by decide⟩ 3

def sda1 : DiskLine := lineOf "sda1".toList ⟨by decide, by decide⟩ 2

def sdb : DiskLine := lineOf "sdb".toList ⟨by decide, by decide⟩ 5

/-- A call that reads the same file each time. -/
def callOf (disks : List DiskLine) : Call where
  source := ⟨⟨true, some (diskstats disks)⟩, some (diskstats disks)⟩
  first := disks
  disks := disks
  showsFirst := rfl
  shows := rfl

theorem counted_sda : counted [sda, sda1] = [sda] := by
  have hdisk : ignoreSet sda.devname = false := by decide
  have hpartition : ignoreSet sda1.devname = true := by decide
  simp [counted, hdisk, hpartition]

theorem counted_both : counted [sda, sdb] = [sda, sdb] := by
  have hfirst : ignoreSet sda.devname = false := by decide
  have hsecond : ignoreSet sdb.devname = false := by decide
  simp [counted, hfirst, hsecond]

/-- A disk and its partition: the totals are those of the disk. -/
theorem update_totals_one_disk :
    ∃ next, IoStat.update (callOf [sda, sda1]).source {} = .done next ∧
      TotalsRight [sda, sda1] [sda, sda1] next := by
  have htotal : ∀ i, total [sda, sda1] i = 3 := fun i => by rw [total, counted_sda]; rfl
  have hreadings : readings ([] ++ [callOf [sda, sda1]]) = [] ++ [[sda, sda1], [sda, sda1]] := rfl
  obtain ⟨next, hnext, hright⟩ := update_totals_iff (.nil ({} : IoStat)) (.inr rfl) hreadings (by
    intro file hfile i
    have hsame : file = [sda, sda1] := by simpa using hfile
    rw [hsame, htotal]
    decide)
  refine ⟨next, hnext, hright.mpr ⟨⟨?_, ?_⟩, ?_, ?_⟩⟩ <;> simp [counted_sda]

/-- Two disks: the totals are those of the second, 5 in the place of 8. -/
theorem second_disk_overwrites :
    ∃ next, IoStat.update (callOf [sda, sdb]).source {} = .done next ∧
      next.ioTotals .readsCompleted = 5 ∧ total [sda, sdb] .readsCompleted = 8 ∧
      ¬ TotalsRight [sda, sdb] [sda, sdb] next := by
  have hfit : Fits [sda, sdb] := by
    rw [Fits, counted_both]
    simp [sda, sdb, lineOf]
  have hlast : lastTotals [sda, sdb] (fun _ => 0) .readsCompleted = 5 := by
    rw [lastTotals, counted_both]
    rfl
  have htotal : total [sda, sdb] .readsCompleted = 8 := by
    rw [total, counted_both]
    rfl
  have hnew : HasRead [] {} := ⟨by simp, rfl, rfl⟩
  obtain ⟨next, hdone, hnext⟩ :=
    hnew.update (callOf [sda, sdb]) (by simpa [Call.reads, callOf] using hfit) (.inr rfl)
  have hreads : next.ioTotals .readsCompleted = 5 := by
    rw [hnext.totals, ← hlast]
    rfl
  refine ⟨next, hdone, hreads, htotal, fun hright => ?_⟩
  have hsame := hright.totals .readsCompleted
  rw [htotal, hreads] at hsame
  exact absurd hsame (by decide)

end NdpOffload.Statmon.Disks
