import NdpOffload.Statmon.Telescoping

/-! `CpuStat::update` on what the kernel prints in `/proc/stat`: on each line a key
and its counters.  Of each kind of line the last one counts. -/
namespace NdpOffload.Statmon.ProcStat

open Library.Outcomes Library.Text Sources Telescoping

/-- What a line is about.  Kernels of the future may add columns for all CPUs. -/
inductive Record where
  | cpu (totals : CpuTotals → Nat) (more : List Nat)
  | ctxt (n : Nat)
  | procsRunning (n : Nat)
  | procsBlocked (n : Nat)
  | other (key : Chars) (counters : List Nat)

def Record.key : Record → Chars
  | .cpu _ _ => "cpu".toList
  | .ctxt _ => "ctxt".toList
  | .procsRunning _ => "procs_running".toList
  | .procsBlocked _ => "procs_blocked".toList
  | .other key _ => key

def Record.counters : Record → List Nat
  | .cpu totals more => CpuTotals.all.map totals ++ more
  | .ctxt n => [n]
  | .procsRunning n => [n]
  | .procsBlocked n => [n]
  | .other _ counters => counters

/-- The keys that `CpuStat::update` looks for. -/
def keys : List Chars :=
  ["cpu".toList, "ctxt".toList, "procs_running".toList, "procs_blocked".toList]

/-- No key of another line, such as `cpu0`, is one of the four. -/
structure StatLine where
  record : Record
  gaps : Nat → Nat
  key_word : IsWord isWhitespace record.key
  counters_lt : ∀ n ∈ record.counters, n < 2 ^ 64
  other_key : ∀ key counters, record = .other key counters → key ∉ keys

def StatLine.cells (line : StatLine) : List (Nat × Chars) :=
  line.record.counters.mapIdx fun i n => (line.gaps i + 1, decimal n)

def StatLine.render (line : StatLine) : Chars := padded ((0, line.record.key) :: line.cells)

def statFile (file : List StatLine) : Chars := unlines (file.map StatLine.render)

/-- What a line means to the monitor. -/
def Record.apply (cpu : CpuStat) : Record → CpuStat
  | .cpu totals _ => { cpu with cpuTotals := fun i => UInt64.ofNat (totals i) * cpu.msPerClk }
  | .ctxt n => { cpu with contextSwitches := UInt64.ofNat n }
  | .procsRunning n => { cpu with procsRunning := UInt64.ofNat n }
  | .procsBlocked n => { cpu with procsIoBlocked := UInt64.ofNat n }
  | .other _ _ => cpu

def Record.totals? : Record → Option (CpuTotals → Nat)
  | .cpu totals _ => some totals
  | _ => none

def Record.ctxt? : Record → Option Nat
  | .ctxt n => some n
  | _ => none

def Record.procsRunning? : Record → Option Nat
  | .procsRunning n => some n
  | _ => none

def Record.procsBlocked? : Record → Option Nat
  | .procsBlocked n => some n
  | _ => none

/-- The last line of one kind. -/
def lastOf {α : Type} (pick : Record → Option α) (file : List StatLine) : Option α :=
  (file.filterMap fun line => pick line.record).getLast?

/-- The values of `next` are those of the file, and of `before` where it has none. -/
structure Shows (file : List StatLine) (before next : CpuStat) : Prop where
  totals : ∀ i, next.cpuTotals i = ((lastOf Record.totals? file).map fun totals =>
    UInt64.ofNat (totals i) * next.msPerClk).getD (before.cpuTotals i)
  ctxt : next.contextSwitches =
    ((lastOf Record.ctxt? file).map UInt64.ofNat).getD before.contextSwitches
  procsRunning : next.procsRunning =
    ((lastOf Record.procsRunning? file).map UInt64.ofNat).getD before.procsRunning
  procsBlocked : next.procsIoBlocked =
    ((lastOf Record.procsBlocked? file).map UInt64.ofNat).getD before.procsIoBlocked

/-! ### One line -/

section Line

variable (line : StatLine)

theorem cells_word : ∀ cell ∈ line.cells, 0 < cell.1 ∧ IsWord isWhitespace cell.2 := by
  intro cell hcell
  obtain ⟨i, hi, rfl⟩ := List.mem_mapIdx.mp hcell
  exact ⟨Nat.succ_pos _, isWord_decimal (fun _ => isDigit_of_isWhitespace) _⟩

theorem map_cells : line.cells.map Prod.snd = line.record.counters.map decimal := by
  apply List.ext_getElem
  · simp [StatLine.cells]
  · intro i hi hi'
    simp [StatLine.cells]

theorem trim_render : trim isWhitespace line.render = line.render :=
  trim_padded (by decide) line.key_word fun cell hcell => (cells_word line cell hcell).2

theorem words_render :
    words isWhitespace line.render = line.record.key :: line.record.counters.map decimal := by
  rw [StatLine.render, words_padded (by decide) line.key_word (cells_word line), map_cells]

theorem render_ne_nil : line.render ≠ [] := by
  simp [StatLine.render, padded, line.key_word.1]

theorem notMem_render {c : Char} (hc : isWhitespace c = true) (hspace : c ≠ ' ') :
    c ∉ line.render := by
  apply notMem_padded hspace
  intro cell hcell hmem
  have hword : IsWord isWhitespace cell.2 := by
    rcases List.mem_cons.mp hcell with rfl | htail
    · exact line.key_word
    · exact (cells_word line cell htail).2
  rw [hword.2 c hmem] at hc
  cases hc

/-- After the key comes a blank, if anything. -/
theorem render_eq : line.render = line.record.key ++ padded line.cells := by
  simp [StatLine.render, padded]

theorem takeWhile_render : line.render.takeWhile (· ≠ ' ') = line.record.key := by
  have hkey : ∀ c ∈ line.record.key, decide (c ≠ ' ') = true := by
    intro c hc
    have hblank := line.key_word.2 c hc
    rw [decide_eq_true_eq]
    rintro rfl
    exact absurd hblank (by decide)
  have hcells : (padded line.cells).takeWhile (· ≠ ' ') = [] := by
    unfold padded
    cases hlist : line.cells with
    | nil => rfl
    | cons cell rest =>
      have hgap := (cells_word line cell (by rw [hlist]; exact List.mem_cons_self)).1
      obtain ⟨gap, hgap⟩ := Nat.exists_eq_succ_of_ne_zero (Nat.pos_iff_ne_zero.mp hgap)
      simp [hgap, List.replicate_succ]
  rw [render_eq, List.takeWhile_append_of_pos hkey, hcells, List.append_nil]

/-- A key with its blank is at the start of the lines of that key only. -/
theorem key_of_isPrefixOf {key : Chars} (hkey : ' ' ∉ key)
    (hpre : (key ++ [' ']).isPrefixOf line.render = true) : line.record.key = key := by
  obtain ⟨rest, hrest⟩ := List.isPrefixOf_iff_prefix.mp hpre
  have hall : ∀ c ∈ key, decide (c ≠ ' ') = true := by
    intro c hc
    rw [decide_eq_true_eq]
    rintro rfl
    exact hkey hc
  rw [← takeWhile_render, ← hrest, List.append_assoc, List.takeWhile_append_of_pos hall]
  simp

theorem stripPrefix_other {key : Chars} (hkey : ' ' ∉ key) (hne : line.record.key ≠ key) :
    stripPrefix (key ++ [' ']) line.render = none := by
  unfold stripPrefix
  rw [if_neg]
  intro hpre
  exact hne (key_of_isPrefixOf line hkey hpre)

/-- The value of a line with one counter. -/
theorem parse_single {key : Chars} {n : Nat} (hkey : line.record.key = key)
    (hcounters : line.record.counters = [n]) :
    ∃ valstr, stripPrefix (key ++ [' ']) line.render = some valstr ∧
      parseU64 (trim isWhitespace valstr) = some (UInt64.ofNat n) := by
  have hcells : line.cells = [(line.gaps 0 + 1, decimal n)] := by
    rw [StatLine.cells, hcounters]
    rfl
  have hrender : line.render =
      (key ++ [' ']) ++ (List.replicate (line.gaps 0) ' ' ++ decimal n) := by
    rw [render_eq, hkey, hcells]
    simp [padded, List.replicate_succ]
  refine ⟨List.replicate (line.gaps 0) ' ' ++ decimal n, ?_, ?_⟩
  · unfold stripPrefix
    rw [hrender, if_pos (List.isPrefixOf_iff_prefix.mpr (List.prefix_append _ _)),
      List.drop_left]
  · have hblanks : ∀ c ∈ List.replicate (line.gaps 0) ' ', isWhitespace c = true := by
      intro c hc
      rw [List.eq_of_mem_replicate hc]
      decide
    rw [trim_blanks_append hblanks,
      trim_of_notBlank (isWord_decimal (fun _ => isDigit_of_isWhitespace) n).2]
    exact parseU64_decimal_of_lt (line.counters_lt n (by simp [hcounters]))

theorem isPrefixOf_cpu (hkey : line.record.key = "cpu".toList) (hcounters : line.record.counters ≠ []) :
    ("cpu".toList ++ [' ']).isPrefixOf line.render = true := by
  obtain ⟨n, rest, hlist⟩ := List.exists_cons_of_ne_nil hcounters
  rw [List.isPrefixOf_iff_prefix, render_eq, hkey, StatLine.cells, hlist, List.mapIdx_cons]
  refine (List.prefix_append_right_inj _).mpr ?_
  simp [padded, List.replicate_succ]

end Line

/-- The ten totals of a line, each in milliseconds. -/
theorem each_store (value : CpuTotals → Nat) (fields : List CpuTotals)
    (hfit : ∀ i ∈ fields, value i < 2 ^ 64) (cpu : CpuStat) :
    Outcome.each (fun (item : Chars × CpuTotals) => storeU64 item.1 (CpuStat.storeTotal item.2))
        (fields.map fun i => (decimal (value i), i)) cpu =
      .done { cpu with cpuTotals := fun i =>
        if i ∈ fields then UInt64.ofNat (value i) * cpu.msPerClk else cpu.cpuTotals i } := by
  induction fields generalizing cpu with
  | nil => simp
  | cons field fields ih =>
    have hstore : storeU64 (decimal (value field)) (CpuStat.storeTotal field) cpu =
        .done (cpu.storeTotal field (UInt64.ofNat (value field))) := by
      unfold storeU64
      rw [parseU64_decimal_of_lt (hfit field List.mem_cons_self)]
    rw [List.map_cons, each_cons, hstore, andThen_done,
      ih fun i hi => hfit i (List.mem_cons_of_mem _ hi)]
    congr 2
    ext i
    by_cases hi : i = field
    · subst hi
      simp [CpuStat.storeTotal]
    · simp [CpuStat.storeTotal, hi]

theorem readLine_keyed (text : Chars) (cpu : CpuStat) :
    cpu.readLine text =
      if ("cpu".toList ++ [' ']).isPrefixOf text then
        Outcome.each (fun (item : Chars × CpuTotals) => storeU64 item.1 (CpuStat.storeTotal item.2))
          (((words isWhitespace text).drop 1).zip CpuTotals.all) cpu
      else if let some valstr := stripPrefix ("ctxt".toList ++ [' ']) text then
        storeU64 (trim isWhitespace valstr)
          (fun val cpu => { cpu with contextSwitches := val }) cpu
      else if let some valstr := stripPrefix ("procs_running".toList ++ [' ']) text then
        storeU64 (trim isWhitespace valstr) (fun val cpu => { cpu with procsRunning := val }) cpu
      else if let some valstr := stripPrefix ("procs_blocked".toList ++ [' ']) text then
        storeU64 (trim isWhitespace valstr) (fun val cpu => { cpu with procsIoBlocked := val }) cpu
      else .done cpu := rfl

theorem mem_cpuTotals (i : CpuTotals) : i ∈ CpuTotals.all := by
  cases i <;> decide

section ReadLine

variable (line : StatLine) (cpu : CpuStat)

theorem readLine_cpu {totals : CpuTotals → Nat} {more : List Nat}
    (hrecord : line.record = .cpu totals more) :
    cpu.readLine line.render = .done (Record.apply cpu (.cpu totals more)) := by
  have hcounters : line.record.counters = CpuTotals.all.map totals ++ more :=
    congrArg Record.counters hrecord
  have hfit : ∀ i ∈ CpuTotals.all, totals i < 2 ^ 64 := by
    intro i hi
    apply line.counters_lt
    rw [hcounters]
    exact List.mem_append_left _ (List.mem_map_of_mem hi)
  have hprefix := isPrefixOf_cpu line (congrArg Record.key hrecord)
    (by rw [hcounters]; simp [CpuTotals.all])
  have hzip : ((line.record.counters.map decimal).zip CpuTotals.all) =
      CpuTotals.all.map fun i => (decimal (totals i), i) := by
    rw [hcounters]
    simp [CpuTotals.all]
  rw [readLine_keyed, if_pos hprefix, words_render, List.drop_succ_cons, List.drop_zero, hzip,
    each_store totals CpuTotals.all hfit]
  simp only [mem_cpuTotals, if_true, Record.apply]

theorem readLine_other (hkey : line.record.key ∉ keys) :
    cpu.readLine line.render = .done cpu := by
  simp only [keys, List.mem_cons, List.not_mem_nil, or_false, not_or] at hkey
  obtain ⟨hcpu, hctxt, hrunning, hblocked⟩ := hkey
  rw [readLine_keyed, if_neg fun hpre => hcpu (key_of_isPrefixOf line (by decide) hpre),
    stripPrefix_other line (by decide) hctxt, stripPrefix_other line (by decide) hrunning,
    stripPrefix_other line (by decide) hblocked]

theorem isPrefixOf_cpu_other (hne : line.record.key ≠ "cpu".toList) :
    ¬ ("cpu".toList ++ [' ']).isPrefixOf line.render = true := by
  intro hpre
  exact hne (key_of_isPrefixOf line (by decide) hpre)

/-- Each line by its record: the keys are tried in the order of the source. -/
theorem readLine_render : cpu.readLine line.render = .done (line.record.apply cpu) := by
  cases hrecord : line.record with
  | cpu totals more => exact readLine_cpu line cpu hrecord
  | ctxt n =>
    have hkey : line.record.key = "ctxt".toList := congrArg Record.key hrecord
    obtain ⟨valstr, hstrip, hparse⟩ := parse_single line hkey (congrArg Record.counters hrecord)
    rw [readLine_keyed, if_neg (isPrefixOf_cpu_other line (by rw [hkey]; decide)), hstrip]
    simp only [storeU64, hparse, Record.apply]
  | procsRunning n =>
    have hkey : line.record.key = "procs_running".toList := congrArg Record.key hrecord
    obtain ⟨valstr, hstrip, hparse⟩ := parse_single line hkey (congrArg Record.counters hrecord)
    rw [readLine_keyed, if_neg (isPrefixOf_cpu_other line (by rw [hkey]; decide)),
      stripPrefix_other line (by decide) (by rw [hkey]; decide), hstrip]
    simp only [storeU64, hparse, Record.apply]
  | procsBlocked n =>
    have hkey : line.record.key = "procs_blocked".toList := congrArg Record.key hrecord
    obtain ⟨valstr, hstrip, hparse⟩ := parse_single line hkey (congrArg Record.counters hrecord)
    rw [readLine_keyed, if_neg (isPrefixOf_cpu_other line (by rw [hkey]; decide)),
      stripPrefix_other line (by decide) (by rw [hkey]; decide),
      stripPrefix_other line (by decide) (by rw [hkey]; decide), hstrip]
    simp only [storeU64, hparse, Record.apply]
  | other key counters =>
    apply readLine_other
    rw [hrecord]
    exact line.other_key key counters hrecord

end ReadLine

/-! ### The whole file -/

theorem trimmedLines_statFile (file : List StatLine) :
    trimmedLines (statFile file) = file.map StatLine.render := by
  have hclean : ∀ piece ∈ file.map StatLine.render, '\n' ∉ piece ∧ '\r' ∉ piece := by
    intro piece hpiece
    obtain ⟨line, _, rfl⟩ := List.mem_map.mp hpiece
    exact ⟨notMem_render line (by decide) (by decide), notMem_render line (by decide) (by decide)⟩
  have hlines : lines (statFile file) = file.map StatLine.render :=
    lines_unlines _ (fun piece hpiece => (hclean piece hpiece).1)
      fun piece hpiece => chomp_of_notMem (hclean piece hpiece).2
  have htrim : (file.map StatLine.render).map (trim isWhitespace) = file.map StatLine.render := by
    rw [List.map_map]
    exact List.map_congr_left fun line _ => trim_render line
  unfold trimmedLines
  rw [hlines, htrim, List.filter_eq_self]
  intro piece hpiece
  obtain ⟨line, _, rfl⟩ := List.mem_map.mp hpiece
  simp [render_ne_nil line]

/-- What a file makes of the values before it. -/
def after (file : List StatLine) (cpu : CpuStat) : CpuStat :=
  (file.map StatLine.record).foldl Record.apply cpu

/-- Where the loop over the lines begins, once the file is read. -/
def begun (cpu : CpuStat) : CpuStat := { cpu.handOver with rewound := true }

theorem extract_statFile (file : List StatLine) (cpu : CpuStat) :
    cpu.extract (some (statFile file)) = .done (after file (begun cpu)) := by
  simp only [CpuStat.extract, trimmedLines_statFile]
  change Outcome.each CpuStat.readLine (file.map StatLine.render) (begun cpu) = _
  generalize begun cpu = start
  induction file generalizing start with
  | nil => rfl
  | cons line file ih =>
    rw [List.map_cons, each_cons, readLine_render, andThen_done, ih]
    rfl

section After

variable (file : List StatLine) (cpu : CpuStat)

/-- What no record touches stays. -/
theorem component_kept {β : Type} (component : CpuStat → β)
    (hkept : ∀ cpu record, component (Record.apply cpu record) = component cpu) :
    component (after file cpu) = component cpu := by
  unfold after
  induction file generalizing cpu with
  | nil => rfl
  | cons line file ih =>
    rw [List.map_cons, List.foldl_cons, ih, hkept]

theorem msPerClk_after : (after file cpu).msPerClk = cpu.msPerClk := by
  apply component_kept
  intro cpu record
  cases record <;> rfl

/-- A component that one kind of record sets shows the last record of that kind. -/
theorem component_after {α β : Type} (pick : Record → Option α) (component : CpuStat → β)
    (value : UInt64 → α → β)
    (hone : ∀ cpu record, component (Record.apply cpu record) =
      ((pick record).map (value cpu.msPerClk)).getD (component cpu)) :
    component (after file cpu) =
      ((lastOf pick file).map (value cpu.msPerClk)).getD (component cpu) := by
  induction file using List.reverseRecOn with
  | nil => rfl
  | append_singleton file line ih =>
    have hafter : after (file ++ [line]) cpu = Record.apply (after file cpu) line.record := by
      simp [after]
    unfold lastOf at ih ⊢
    rw [hafter, hone, msPerClk_after, ih, List.filterMap_append, List.getLast?_append]
    cases hpick : pick line.record <;> simp [hpick]

theorem after_shows : Shows file cpu (after file cpu) := by
  refine ⟨fun i => ?_, ?_, ?_, ?_⟩
  · rw [msPerClk_after]
    apply component_after file cpu Record.totals? (·.cpuTotals i)
      fun clk totals => UInt64.ofNat (totals i) * clk
    intro cpu record
    cases record <;> rfl
  · apply component_after file cpu Record.ctxt? (·.contextSwitches) fun _ => UInt64.ofNat
    intro cpu record
    cases record <;> rfl
  · apply component_after file cpu Record.procsRunning? (·.procsRunning) fun _ => UInt64.ofNat
    intro cpu record
    cases record <;> rfl
  · apply component_after file cpu Record.procsBlocked? (·.procsIoBlocked) fun _ => UInt64.ofNat
    intro cpu record
    cases record <;> rfl

/-- The values that a file may leave in place. -/
def values (cpu : CpuStat) : (CpuTotals → UInt64) × UInt64 × UInt64 × UInt64 :=
  (cpu.cpuTotals, cpu.contextSwitches, cpu.procsRunning, cpu.procsIoBlocked)

theorem Shows.of_same {file : List StatLine} {before before' next : CpuStat}
    (hshows : Shows file before next) (hsame : values before = values before') :
    Shows file before' next := by
  simp only [values, Prod.mk.injEq] at hsame
  obtain ⟨htotals, hctxt, hrunning, hblocked⟩ := hsame
  exact ⟨htotals ▸ hshows.totals, hctxt ▸ hshows.ctxt, hrunning ▸ hshows.procsRunning,
    hblocked ▸ hshows.procsBlocked⟩

end After

/-! ### One update -/

section Update

variable {file first : List StatLine} {cpu : CpuStat} {source : TwiceRead} {clkTck : UInt64}

theorem update_open (hopen : cpu.isOpen = true) (htext : source.text = some (statFile file)) :
    cpu.update clkTck source = .done (after file (begun cpu)) := by
  unfold CpuStat.update
  rw [if_pos hopen, htext, extract_statFile]

/-- The update that opens the file reads it twice. -/
theorem update_closed (hclosed : cpu.isOpen = false) (hopens : source.opens = true)
    (hclk : clkTck ≠ 0) (hfirst : source.firstText = some (statFile first))
    (htext : source.text = some (statFile file)) :
    cpu.update clkTck source = .done (after file (begun (after first
      (begun { cpu with isOpen := true, msPerClk := 1000 / clkTck })))) := by
  unfold CpuStat.update
  rw [if_neg (by simp [hclosed]), hopens, if_neg (by decide), if_neg hclk, hfirst, extract_statFile,
    andThen_done, htext, extract_statFile]

theorem handsOver_after (file : List StatLine) (cpu : CpuStat) :
    CpuStat.HandsOver cpu (after file (begun cpu)) :=
  (cpuExtract_leaves (some (statFile file)) cpu).of_done (extract_statFile file cpu)

/-- An update succeeds on every file of the kernel.  Afterwards the values are those of
the file, in milliseconds where they are times, and the increases are reckoned from the
reading before: that of the last update, or the first of the two that open the file. -/
theorem update_shows (file first : List StatLine) (cpu : CpuStat) (source : TwiceRead)
    (clkTck : UInt64) (hopens : cpu.isOpen = true ∨ source.opens = true ∧ clkTck ≠ 0)
    (hfirst : cpu.isOpen = false → source.firstText = some (statFile first))
    (htext : source.text = some (statFile file)) :
    ∃ next before, cpu.update clkTck source = .done next ∧ next.isOpen = true ∧
      next.msPerClk = (if cpu.isOpen then cpu.msPerClk else 1000 / clkTck) ∧
      Shows file before next ∧
      (∀ i, next.cpuTotalsMs i = next.cpuTotals i - before.cpuTotals i) ∧
      next.contextSwitchesDelta = next.contextSwitches - before.contextSwitches ∧
      (if cpu.isOpen then before = cpu
        else before.msPerClk = next.msPerClk ∧ Shows first cpu before) := by
  cases hopen : cpu.isOpen with
  | true =>
    have hands := handsOver_after file cpu
    refine ⟨after file (begun cpu), cpu, update_open hopen htext, hands.isOpen.trans hopen, ?_,
      (after_shows file (begun cpu)).of_same rfl, ?_, ?_, rfl⟩
    · exact msPerClk_after file (begun cpu)
    · intro i
      rw [CpuStat.cpuTotalsMs, hands.totals]
    · rw [CpuStat.contextSwitchesDelta, hands.switches]
  | false =>
    obtain ⟨hopens, hclk⟩ := hopens.resolve_left (by simp [hopen])
    let start : CpuStat := { cpu with isOpen := true, msPerClk := 1000 / clkTck }
    let before := after first (begun start)
    have hands := handsOver_after file before
    have hfirstOpen : before.isOpen = true := (handsOver_after first start).isOpen
    have hbeforeClk : before.msPerClk = 1000 / clkTck := msPerClk_after first (begun start)
    have hclkAfter : (after file (begun before)).msPerClk = before.msPerClk :=
      msPerClk_after file (begun before)
    refine ⟨after file (begun before), before,
      update_closed hopen hopens hclk (hfirst hopen) htext, hands.isOpen.trans hfirstOpen,
      hclkAfter.trans hbeforeClk, (after_shows file (begun before)).of_same rfl, ?_, ?_,
      hclkAfter.symm, (after_shows first (begun start)).of_same rfl⟩
    · intro i
      rw [CpuStat.cpuTotalsMs, hands.totals]
    · rw [CpuStat.contextSwitchesDelta, hands.switches]

end Update

/-- A line with the same number in every column. -/
def lineOf (record : Record) (n : Nat) (hn : n < 2 ^ 64) (hcounters : ∀ m ∈ record.counters, m = n)
    (key_word : IsWord isWhitespace record.key)
    (other_key : ∀ key counters, record = .other key counters → key ∉ keys) : StatLine where
  record := record
  gaps := fun _ => 0
  key_word := key_word
  counters_lt := fun m hm => hcounters m hm ▸ hn
  other_key := other_key

theorem cpu_word : IsWord isWhitespace "cpu".toList := ⟨by decide, by decide⟩

theorem cpu0_word : IsWord isWhitespace "cpu0".toList := ⟨by decide, by decide⟩

theorem ctxt_word : IsWord isWhitespace "ctxt".toList := ⟨by decide, by decide⟩

/-- A machine with one processor. -/
def oneCpu (n : Nat) (hn : n < 2 ^ 64) : List StatLine :=
  [ lineOf (.cpu (fun _ => n) []) n hn (by simp [Record.counters, CpuTotals.all]) cpu_word
      (by intro key counters hrecord; cases hrecord),
    lineOf (.other "cpu0".toList [n]) n hn (by simp [Record.counters]) cpu0_word
      (by intro key counters hrecord; cases hrecord; decide),
    lineOf (.ctxt n) n hn (by simp [Record.counters]) ctxt_word
      (by intro key counters hrecord; cases hrecord) ]

/-- Between the two readings of the first update ten ticks of 10 ms have passed. -/
theorem update_shows_first :
    ∃ next, CpuStat.update 100 ⟨⟨true, some (statFile (oneCpu 17 (by decide)))⟩,
        some (statFile (oneCpu 7 (by decide)))⟩ {} = .done next ∧
      next.cpuTotals .idle = 170 ∧ next.cpuTotalsMs .idle = 100 ∧ next.contextSwitchesDelta = 10 := by
  obtain ⟨next, before, hnext, -, hclk, hshows, htotals, hswitches, hbeforeClk, hbefore⟩ :=
    update_shows (oneCpu 17 (by decide)) (oneCpu 7 (by decide)) {} ⟨⟨true, _⟩, _⟩ 100
      (.inr ⟨rfl, by decide⟩) (fun _ => rfl) rfl
  have hms : next.msPerClk = 10 := hclk
  have hidle : next.cpuTotals .idle = 17 * next.msPerClk := hshows.totals .idle
  have hidleBefore : before.cpuTotals .idle = 7 * before.msPerClk := hbefore.totals .idle
  have hctxt : next.contextSwitches = 17 := hshows.ctxt
  have hctxtBefore : before.contextSwitches = 7 := hbefore.ctxt
  refine ⟨next, hnext, ?_, ?_, ?_⟩
  · rw [hidle, hms]
    rfl
  · rw [htotals, hidle, hidleBefore, hbeforeClk, hms]
    rfl
  · rw [hswitches, hctxt, hctxtBefore]
    rfl

end NdpOffload.Statmon.ProcStat
