import NdpOffload.Statmon.Telescoping

/-! The files behind an update: which of them are open and where their descriptors
stand.  A read that fails leaves its descriptor away from the start of the file, and
the next read goes on from there. -/
namespace NdpOffload.Statmon.Descriptors

open Library.Outcomes Library.Runs Library.Text Library.Windows
open Table Sources Monitor Refresh Server History Ranges Telescoping

variable {F : Type}

/-! ### The files at one moment -/

/-- What there is to read from the start of a file, and from where an earlier read
that failed has left the descriptor. -/
structure Content where
  opens : Bool
  fromStart : Option Chars
  onwards : Option Chars

/-- A file that the first update reads twice. -/
structure TwiceContent extends Content where
  firstFromStart : Option Chars

/-- The system as one call of `update` finds it. -/
structure Files where
  loadavg : Content
  meminfo : Content
  faasm : Content
  net : Content
  procStat : TwiceContent
  diskstats : TwiceContent
  clkTck : UInt64
  counters : Counters

def Content.source (content : Content) (rewound : Bool) : Source where
  opens := content.opens
  text := if rewound then content.fromStart else content.onwards

def TwiceContent.source (content : TwiceContent) (rewound : Bool) : TwiceRead where
  toSource := content.toContent.source rewound
  firstText := content.firstFromStart

/-- What an update from `s` reads. -/
def Files.moment (files : Files) (s : Stats F) : Moment where
  loadavg := files.loadavg.source s.loadavgRewound
  meminfo := files.meminfo.source s.meminfoRewound
  faasm := files.faasm.source s.faasmRewound
  net := files.net.source s.netRewound
  procStat := files.procStat.source s.cpu.rewound
  diskstats := files.diskstats.source s.io.rewound
  clkTck := files.clkTck
  counters := files.counters

/-- What an update reads with every descriptor at the start of its file. -/
def Files.whole (files : Files) : Moment where
  loadavg := files.loadavg.source true
  meminfo := files.meminfo.source true
  faasm := files.faasm.source true
  net := files.net.source true
  procStat := files.procStat.source true
  diskstats := files.diskstats.source true
  clkTck := files.clkTck
  counters := files.counters

/-- Files of which nothing is left where a read has failed. -/
def Files.ofMoment (now : Moment) : Files where
  loadavg := ⟨now.loadavg.opens, now.loadavg.text, some []⟩
  meminfo := ⟨now.meminfo.opens, now.meminfo.text, some []⟩
  faasm := ⟨now.faasm.opens, now.faasm.text, some []⟩
  net := ⟨now.net.opens, now.net.text, some []⟩
  procStat := ⟨⟨now.procStat.opens, now.procStat.text, some []⟩, now.procStat.firstText⟩
  diskstats := ⟨⟨now.diskstats.opens, now.diskstats.text, some []⟩, now.diskstats.firstText⟩
  clkTck := now.clkTck
  counters := now.counters

/-- Every descriptor stands at the start of its file. -/
structure Rewound (s : Stats F) : Prop where
  loadavg : s.loadavgRewound = true
  meminfo : s.meminfoRewound = true
  faasm : s.faasmRewound = true
  net : s.netRewound = true
  cpu : s.cpu.rewound = true
  io : s.io.rewound = true

theorem moment_of_rewound {s : Stats F} (hs : Rewound s) (files : Files) :
    files.moment s = files.whole := by
  simp only [Files.moment, Files.whole, hs.loadavg, hs.meminfo, hs.faasm, hs.net, hs.cpu, hs.io]

/-! ### Files stay open -/

structure Running (s : Stats F) : Prop where
  loadavg : s.loadavgOpen = true
  meminfo : s.meminfoOpen = true
  faasm : s.faasmOpen = true
  net : s.netOpen = true
  cpu : s.cpu.isOpen = true
  io : s.io.isOpen = true

/-- All files are open, and what was fixed on opening them is this. -/
structure Settled (iface : Chars) (msPerClk : UInt64) (s : Stats F) : Prop extends Running s where
  netIface : s.netIface = iface
  msPerClk : s.cpu.msPerClk = msPerClk

/-- The descriptors of the files that `Stats` itself reads. -/
def flags (s : Stats F) : (Bool × Bool) × (Bool × Bool) × (Bool × Bool) × Bool × Bool :=
  ((s.loadavgOpen, s.loadavgRewound), (s.meminfoOpen, s.meminfoRewound),
    (s.faasmOpen, s.faasmRewound), s.netOpen, s.netRewound)

section Phases

variable {P : Stats F → Prop}

theorem netColumn_keeps {fields : List Chars} {column : Nat} {which : WhichStat}
    {ref : Stats F → Int64} {setRef : Int64 → Stats F → Stats F}
    (hset : ∀ value u, P u → P (setRef value (u.seti which (value - ref u)))) {s : Stats F}
    (hs : P s) : (netColumn fields column which ref setRef s).Leaves P := by
  unfold netColumn
  split
  · trivial
  · split
    · exact hs
    · exact hset _ _ hs

/-- Of the whole state, parsing the interface's line moves current values and references. -/
theorem parseNet_keeps (hkeep : ∀ (u : Stats F) stats rx rxe tx txe, P u → P { u with
      stats := stats, netRxRef := rx, netRxeRef := rxe, netTxRef := tx, netTxeRef := txe })
    {s : Stats F} (hs : P s) (text : Chars) : (s.parseNet text).Leaves P := by
  unfold Stats.parseNet
  split
  · trivial
  · refine Outcome.Leaves.andThen (Outcome.Leaves.andThen (Outcome.Leaves.andThen
      (Outcome.Leaves.andThen ?_ ?_) ?_) ?_) ?_
    · exact netColumn_keeps (fun value u hu => hkeep u _ value _ _ _ hu) hs
    · exact fun u hu => netColumn_keeps (fun value v hv => hkeep v _ _ value _ _ hv) hu
    · exact fun u hu => netColumn_keeps (fun value v hv => hkeep v _ _ _ value _ hv) hu
    · exact fun u hu => netColumn_keeps (fun value v hv => hkeep v _ _ _ _ value hv) hu
    · intro u hu
      split
      · trivial
      · exact hu

/-- A phase keeps what its marks and its parser keep, unless its file cannot be read. -/
theorem readSource_unless {source : Source} {isOpen : Bool} {onOpenError : Error}
    {mark : Bool → Stats F} {parse : Chars → Stats F → Result (Stats F)} {s : Stats F} (hs : P s)
    (hparse : ∀ text, (parse text (mark true)).Leaves P) :
    (readSource source isOpen onOpenError mark parse s).LeavesUnless (· = .io) P := by
  unfold readSource
  split
  · exact .inr hs
  · split
    · exact .inl rfl
    · exact (hparse _).unless

end Phases

section Settled

variable {iface : Chars} {msPerClk : UInt64} {s t : Stats F}

theorem Running.keep (hs : Running s) (hflags : flags t = flags s) (hcpu : t.cpu = s.cpu)
    (hio : t.io = s.io) : Running t := by
  simp only [flags, Prod.mk.injEq] at hflags
  obtain ⟨⟨hloadavg, -⟩, ⟨hmeminfo, -⟩, ⟨hfaasm, -⟩, hnet, -⟩ := hflags
  exact ⟨hloadavg.trans hs.loadavg, hmeminfo.trans hs.meminfo, hfaasm.trans hs.faasm,
    hnet.trans hs.net, hcpu ▸ hs.cpu, hio ▸ hs.io⟩

theorem Settled.keep (hs : Settled iface msPerClk s) (hflags : flags t = flags s)
    (hiface : t.netIface = s.netIface) (hcpu : t.cpu = s.cpu) (hio : t.io = s.io) :
    Settled iface msPerClk t :=
  ⟨hs.toRunning.keep hflags hcpu hio, hiface.trans hs.netIface, hcpu ▸ hs.msPerClk⟩

theorem Settled.of_onlyStats {touched : WhichStat → Prop} (hs : Settled iface msPerClk s)
    (hst : OnlyStats touched s t) : Settled iface msPerClk t := by
  rw [hst.rest]
  exact hs.keep rfl rfl rfl rfl

theorem Settled.updLoadavg [F64 F] (hs : Settled iface msPerClk s) (source : Source) :
    (s.updLoadavg source).Leaves (Settled iface msPerClk) := by
  have hmark : ∀ rewound, Settled iface msPerClk
      { s with loadavgOpen := true, loadavgRewound := rewound } :=
    fun _ => ⟨{ hs.toRunning with loadavg := rfl }, hs.netIface, hs.msPerClk⟩
  exact readSource_leaves hs (hmark false) fun text =>
    (parseLoadavg_leaves text _).mono fun _ ht => (hmark true).of_onlyStats ht

theorem Settled.updMeminfo (hs : Settled iface msPerClk s) (source : Source) :
    (s.updMeminfo source).Leaves (Settled iface msPerClk) := by
  have hmark : ∀ rewound, Settled iface msPerClk
      { s with meminfoOpen := true, meminfoRewound := rewound } :=
    fun _ => ⟨{ hs.toRunning with meminfo := rfl }, hs.netIface, hs.msPerClk⟩
  exact readSource_leaves hs (hmark false) fun text =>
    (each_onlyStats readMeminfoLine_leaves _ _).mono fun _ ht => (hmark true).of_onlyStats ht

theorem Settled.updFaasm (hs : Settled iface msPerClk s) (source : Source) :
    (s.updFaasm source).Leaves (Settled iface msPerClk) := by
  have hmark : ∀ rewound, Settled iface msPerClk
      { s with faasmOpen := true, faasmRewound := rewound } :=
    fun _ => ⟨{ hs.toRunning with faasm := rfl }, hs.netIface, hs.msPerClk⟩
  exact readSource_leaves hs (hmark false) fun text =>
    (each_onlyStats readFaasmField_leaves _ _).mono fun _ ht => (hmark true).of_onlyStats ht

theorem Settled.updNet (hs : Settled iface msPerClk s) (source : Source) :
    (s.updNet source).Leaves (Settled iface msPerClk) := by
  have hmark : ∀ rewound, Settled iface msPerClk { s with netRewound := rewound } :=
    fun _ => ⟨⟨hs.loadavg, hs.meminfo, hs.faasm, hs.net, hs.cpu, hs.io⟩, hs.netIface, hs.msPerClk⟩
  rw [Stats.updNet, if_pos hs.net]
  refine readSource_leaves hs (hmark false) fun text => parseNet_keeps ?_ (hmark true) text
  exact fun u _ _ _ _ _ hu => hu.keep rfl rfl rfl rfl

theorem Settled.updCpu (hs : Settled iface msPerClk s) (now : Moment) :
    ((s.updCpu now).andThen fun u => .done u.setCpu).Leaves (Settled iface msPerClk) := by
  refine Outcome.Leaves.andThen ?_ fun u hu => hu.of_onlyStats (setCpu_onlyStats u)
  have hextract : (s.cpu.extract now.procStat.text).Leaves
      fun next => next.isOpen = true ∧ next.msPerClk = msPerClk :=
    cpuExtract_rule _ (fun _ => ⟨hs.cpu, hs.msPerClk⟩) fun _ _ _ _ _ hnext => hnext
  rw [Stats.updCpu, CpuStat.update, if_pos hs.cpu]
  exact hextract.map fun next hnext =>
    ⟨⟨hs.loadavg, hs.meminfo, hs.faasm, hs.net, hnext.1, hs.io⟩, hs.netIface, hnext.2⟩

theorem Settled.updEvents (hs : Settled iface msPerClk s) (now : Moment) :
    (s.updEvents now).Leaves (Settled iface msPerClk) :=
  (updateEvents_leaves now.counters s.events s.stats).map fun _ _ => hs.keep rfl rfl rfl rfl

theorem Settled.updIo (hs : Settled iface msPerClk s) (now : Moment) :
    ((s.updIo now).andThen fun u => .done u.setIo).Leaves (Settled iface msPerClk) := by
  refine Outcome.Leaves.andThen ?_ fun u hu => hu.of_onlyStats (setIo_onlyStats u)
  rw [Stats.updIo, IoStat.update, if_pos hs.io]
  exact (ioExtract_leaves now.diskstats.text s.io).map fun next hnext =>
    ⟨⟨hs.loadavg, hs.meminfo, hs.faasm, hs.net, hs.cpu, hnext.isOpen.trans hs.io⟩, hs.netIface,
      hs.msPerClk⟩

theorem Settled.refresh [F64 F] (hs : Settled iface msPerClk s) (now : Moment) :
    (s.refresh now).Leaves (Settled iface msPerClk) := by
  refine Outcome.Leaves.andThen (Outcome.Leaves.andThen (Outcome.Leaves.andThen
    (Outcome.Leaves.andThen (Outcome.Leaves.andThen (Outcome.Leaves.andThen ?_ ?_) ?_) ?_) ?_) ?_) ?_
  · exact hs.updLoadavg now.loadavg
  · exact fun u hu => hu.updMeminfo now.meminfo
  · exact fun u hu => hu.updFaasm now.faasm
  · exact fun u hu => hu.updNet now.net
  · exact fun u hu => hu.updCpu now
  · exact fun u hu => hu.updEvents now
  · exact fun u hu => hu.updIo now

end Settled

/-- The state of the sources apart from their values. -/
theorem settled_iff {s : Stats F} : Running s ↔ Settled s.netIface s.cpu.msPerClk s :=
  ⟨fun hs => ⟨hs, rfl, rfl⟩, fun hs => hs.toRunning⟩

theorem updNet_opens {source : Source} {s t : Stats F} (hdone : s.updNet source = .done t) :
    t.netOpen = true ∧ t.netRewound = true := by
  obtain ⟨text, iface, -, hparse⟩ := updNet_done hdone
  obtain ⟨-, hopen, hrewound, -⟩ := parseNet_done hparse
  exact ⟨hopen, hrewound⟩

theorem flags_onlyStats {touched : WhichStat → Prop} {s t : Stats F}
    (hst : OnlyStats touched s t) : flags t = flags s := by
  rw [hst.rest]
  rfl

theorem updCpu_flags {now : Moment} {s t : Stats F}
    (hdone : ((s.updCpu now).andThen fun u => .done u.setCpu) = .done t) : flags t = flags s := by
  obtain ⟨u, hu, hset⟩ := andThen_eq_done.mp hdone
  obtain ⟨cpu, -, rfl⟩ := map_eq_done.mp hu
  cases hset
  have hset := setCpu_onlyStats { s with cpu := cpu }
  exact (flags_onlyStats hset).trans rfl

theorem updEvents_flags {now : Moment} {s t : Stats F} (hdone : s.updEvents now = .done t) :
    flags t = flags s := by
  obtain ⟨stats, -, rfl⟩ := map_eq_done.mp hdone
  rfl

theorem updIo_flags {now : Moment} {s t : Stats F}
    (hdone : ((s.updIo now).andThen fun u => .done u.setIo) = .done t) : flags t = flags s := by
  obtain ⟨u, hu, hset⟩ := andThen_eq_done.mp hdone
  obtain ⟨io, -, rfl⟩ := map_eq_done.mp hu
  cases hset
  have hset := setIo_onlyStats { s with io := io }
  exact (flags_onlyStats hset).trans rfl

/-! ### Descriptors at the start -/

theorem cpuExtract_rewound (text : Option Chars) (cpu : CpuStat) :
    (cpu.extract text).LeavesUnless (· = .io) (·.rewound = true) := by
  unfold CpuStat.extract
  split
  · exact .inl rfl
  · refine Outcome.Leaves.unless (leaves_each _ (fun line _ next hnext => ?_) rfl)
    unfold CpuStat.readLine
    split
    · refine leaves_each _ (fun item _ next hnext => ?_) hnext
      exact storeU64_leaves hnext fun _ => hnext
    · split
      · exact storeU64_leaves hnext fun _ => hnext
      · split
        · exact storeU64_leaves hnext fun _ => hnext
        · split
          · exact storeU64_leaves hnext fun _ => hnext
          · exact hnext

theorem ioExtract_rewound (text : Option Chars) (io : IoStat) :
    (io.extract text).LeavesUnless (· = .io) (·.rewound = true) := by
  unfold IoStat.extract
  split
  · exact .inl rfl
  · refine Outcome.Leaves.unless (leaves_each _ (fun line _ next hnext => ?_) rfl)
    simp only [IoStat.readLine]
    split
    · exact hnext
    · refine leaves_each _ (fun item _ next hnext => ?_) hnext
      exact storeU64_leaves hnext fun _ => hnext

theorem cpuUpdate_rewound (clkTck : UInt64) (source : TwiceRead) (cpu : CpuStat) :
    (cpu.update clkTck source).LeavesUnless (· = .io) (·.rewound = true) := by
  unfold CpuStat.update
  split
  · exact cpuExtract_rewound _ _
  · split
    · exact .inl rfl
    · split
      · trivial
      · exact (cpuExtract_rewound _ _).andThen fun first _ => cpuExtract_rewound _ first

theorem ioUpdate_rewound (source : TwiceRead) (io : IoStat) :
    (io.update source).LeavesUnless (· = .io) (·.rewound = true) := by
  unfold IoStat.update
  split
  · exact ioExtract_rewound _ _
  · split
    · exact .inl rfl
    · exact (ioExtract_rewound _ _).andThen fun first _ => ioExtract_rewound _ first

section Rewound

variable {s t : Stats F}

theorem Rewound.keep (hs : Rewound s) (hflags : flags t = flags s) (hcpu : t.cpu = s.cpu)
    (hio : t.io = s.io) : Rewound t := by
  simp only [flags, Prod.mk.injEq] at hflags
  obtain ⟨⟨-, hloadavg⟩, ⟨-, hmeminfo⟩, ⟨-, hfaasm⟩, -, hnet⟩ := hflags
  exact ⟨hloadavg.trans hs.loadavg, hmeminfo.trans hs.meminfo, hfaasm.trans hs.faasm,
    hnet.trans hs.net, hcpu ▸ hs.cpu, hio ▸ hs.io⟩

theorem Rewound.of_onlyStats {touched : WhichStat → Prop} (hs : Rewound s)
    (hst : OnlyStats touched s t) : Rewound t := by
  rw [hst.rest]
  exact hs.keep rfl rfl rfl

theorem Rewound.updLoadavg [F64 F] (hs : Rewound s) (source : Source) :
    (s.updLoadavg source).LeavesUnless (· = .io) Rewound := by
  have hmark : Rewound { s with loadavgOpen := true, loadavgRewound := true } :=
    { hs with loadavg := rfl }
  exact readSource_unless hs fun text =>
    (parseLoadavg_leaves text _).mono fun _ ht => hmark.of_onlyStats ht

theorem Rewound.updMeminfo (hs : Rewound s) (source : Source) :
    (s.updMeminfo source).LeavesUnless (· = .io) Rewound := by
  have hmark : Rewound { s with meminfoOpen := true, meminfoRewound := true } :=
    { hs with meminfo := rfl }
  exact readSource_unless hs fun text =>
    (each_onlyStats readMeminfoLine_leaves _ _).mono fun _ ht => hmark.of_onlyStats ht

theorem Rewound.updFaasm (hs : Rewound s) (source : Source) :
    (s.updFaasm source).LeavesUnless (· = .io) Rewound := by
  have hmark : Rewound { s with faasmOpen := true, faasmRewound := true } :=
    { hs with faasm := rfl }
  exact readSource_unless hs fun text =>
    (each_onlyStats readFaasmField_leaves _ _).mono fun _ ht => hmark.of_onlyStats ht

theorem Rewound.updNet (hs : Rewound s) (source : Source) :
    (s.updNet source).LeavesUnless (· = .io) Rewound := by
  have hkeep : ∀ (u : Stats F) stats rx rxe tx txe, Rewound u → Rewound { u with
      stats := stats, netRxRef := rx, netRxeRef := rxe, netTxRef := tx, netTxeRef := txe } :=
    fun u _ _ _ _ _ hu => hu.keep rfl rfl rfl
  unfold Stats.updNet
  split
  · refine readSource_unless hs fun text => parseNet_keeps hkeep ?_ text
    exact ⟨hs.loadavg, hs.meminfo, hs.faasm, rfl, hs.cpu, hs.io⟩
  · split
    · trivial
    · refine readSource_unless hs fun text => parseNet_keeps hkeep ?_ text
      exact ⟨hs.loadavg, hs.meminfo, hs.faasm, rfl, hs.cpu, hs.io⟩

theorem Rewound.updCpu (hs : Rewound s) (now : Moment) :
    ((s.updCpu now).andThen fun u => .done u.setCpu).LeavesUnless (· = .io) Rewound := by
  refine Outcome.LeavesUnless.andThen ?_ fun u hu =>
    (show Outcome.Leaves Rewound (.done u.setCpu) from hu.of_onlyStats (setCpu_onlyStats u)).unless
  exact (cpuUpdate_rewound _ _ _).map fun cpu hcpu => { hs with cpu := hcpu }

theorem Rewound.updEvents (hs : Rewound s) (now : Moment) :
    (s.updEvents now).LeavesUnless (· = .io) Rewound := by
  have hleaves : (s.updEvents now).Leaves Rewound :=
    (updateEvents_leaves now.counters s.events s.stats).map fun _ _ => hs.keep rfl rfl rfl
  exact hleaves.unless

theorem Rewound.updIo (hs : Rewound s) (now : Moment) :
    ((s.updIo now).andThen fun u => .done u.setIo).LeavesUnless (· = .io) Rewound := by
  refine Outcome.LeavesUnless.andThen ?_ fun u hu =>
    (show Outcome.Leaves Rewound (.done u.setIo) from hu.of_onlyStats (setIo_onlyStats u)).unless
  exact (ioUpdate_rewound _ _).map fun io hio => { hs with io := hio }

/-- Only a file that cannot be read leaves a descriptor away from the start. -/
theorem Rewound.refresh [F64 F] (hs : Rewound s) (now : Moment) :
    (s.refresh now).LeavesUnless (· = .io) Rewound := by
  refine Outcome.LeavesUnless.andThen (Outcome.LeavesUnless.andThen (Outcome.LeavesUnless.andThen
    (Outcome.LeavesUnless.andThen (Outcome.LeavesUnless.andThen (Outcome.LeavesUnless.andThen
      ?_ ?_) ?_) ?_) ?_) ?_) ?_
  · exact hs.updLoadavg now.loadavg
  · exact fun u hu => hu.updMeminfo now.meminfo
  · exact fun u hu => hu.updFaasm now.faasm
  · exact fun u hu => hu.updNet now.net
  · exact fun u hu => hu.updCpu now
  · exact fun u hu => hu.updEvents now
  · exact fun u hu => hu.updIo now

theorem Rewound.failed [F64 F] {now : Moment} {error : Error} (hs : Rewound s)
    (hfailed : s.update now = .failed error t) (herror : error ≠ .io) : Rewound t :=
  (hs.refresh now).of_failed (refresh_failed hfailed) herror

end Rewound

section Running

variable [F64 F] {s t : Stats F} {now : Moment}

/-- After a failure too the files are open. -/
theorem Running.failed {error : Error} (hs : Running s)
    (hfailed : s.update now = .failed error t) : Settled s.netIface s.cpu.msPerClk t :=
  (Settled.refresh (settled_iff.mp hs) now).of_failed (refresh_failed hfailed)

/-- A refresh that succeeds has opened every file and read it to its end. -/
theorem flags_refresh {u : Stats F} (hrefresh : s.refresh now = .done u) :
    flags u = ((true, true), (true, true), (true, true), true, true) := by
  simp only [Stats.refresh, andThen_eq_done] at hrefresh
  obtain ⟨s₆, ⟨s₅, ⟨s₄, ⟨s₃, ⟨s₂, ⟨s₁, hload, hmem⟩, hfaasm⟩, hnet⟩, hcpu⟩, hevents⟩, hio⟩ :=
    hrefresh
  -- each phase sets the flags of its own file
  have hs₁ : (flags s₁).1 = (true, true) := by
    obtain ⟨text, -, htext⟩ := readSource_done hload
    rw [((parseLoadavg_leaves text _).of_done htext).rest]
    rfl
  have hs₂ : (flags s₂).2.1 = (true, true) := by
    obtain ⟨text, -, htext⟩ := readSource_done hmem
    rw [((each_onlyStats readMeminfoLine_leaves _ _).of_done htext).rest]
    rfl
  have hs₃ : (flags s₃).2.2.1 = (true, true) := by
    obtain ⟨text, -, htext⟩ := readSource_done hfaasm
    rw [((each_onlyStats readFaasmField_leaves _ _).of_done htext).rest]
    rfl
  obtain ⟨hnetOpen, hnetRewound⟩ := updNet_opens hnet
  -- the later phases leave the flags of the earlier ones alone
  have hmemOnly : (flags s₂).1 = (flags s₁).1 := by
    rw [((updMeminfo_leaves _ s₁).of_done hmem).rest]
    rfl
  have hfaasmOnly : (flags s₃).1 = (flags s₂).1 ∧ (flags s₃).2.1 = (flags s₂).2.1 := by
    rw [((updFaasm_leaves _ s₂).of_done hfaasm).rest]
    exact ⟨rfl, rfl⟩
  have hnetOnly : (flags s₄).1 = (flags s₃).1 ∧ (flags s₄).2.1 = (flags s₃).2.1 ∧
      (flags s₄).2.2.1 = (flags s₃).2.2.1 := by
    rw [((updNet_leaves _ s₃).of_done hnet).rest]
    exact ⟨rfl, rfl, rfl⟩
  have hlater : flags u = flags s₄ := by
    rw [updIo_flags (andThen_eq_done.mpr hio), updEvents_flags hevents,
      updCpu_flags (andThen_eq_done.mpr hcpu)]
  obtain ⟨hload₄, hmem₄, hfaasm₄⟩ := hnetOnly
  rw [hlater]
  apply Prod.ext
  · rw [hload₄, hfaasmOnly.1, hmemOnly, hs₁]
  · apply Prod.ext
    · rw [hmem₄, hfaasmOnly.2, hs₂]
    · apply Prod.ext
      · rw [hfaasm₄, hs₃]
      · exact Prod.ext hnetOpen hnetRewound

/-- A success has opened what was not open, and every read has come to its end. -/
theorem opened_of_done (hdone : s.update now = .done t) : Running t ∧ Rewound t := by
  obtain ⟨u, hrefresh, hrest, -⟩ := update_done hdone
  have hreports := refresh_reports hrefresh
  have hflags : flags t = flags u := by
    rw [hrest]
    rfl
  have hsources : t.cpu = u.cpu ∧ t.io = u.io := by
    rw [hrest]
    exact ⟨rfl, rfl⟩
  have hcpu := (cpuUpdate_rewound _ _ _).of_done hreports.cpu
  have hio := (ioUpdate_rewound _ _).of_done hreports.io
  rw [flags_refresh hrefresh] at hflags
  simp only [flags, Prod.mk.injEq] at hflags
  obtain ⟨⟨hload, hload'⟩, ⟨hmem, hmem'⟩, ⟨hfaasm, hfaasm'⟩, hnet, hnet'⟩ := hflags
  constructor
  · exact ⟨hload, hmem, hfaasm, hnet, by rw [hsources.1]; exact (cpuUpdate_done hreports.cpu).1,
      by rw [hsources.2]; exact (ioUpdate_done hreports.io).1⟩
  · exact ⟨hload', hmem', hfaasm', hnet', by rw [hsources.1]; exact hcpu,
      by rw [hsources.2]; exact hio⟩

theorem running_of_done (hdone : s.update now = .done t) : Running t := (opened_of_done hdone).1

theorem rewound_of_done (hdone : s.update now = .done t) : Rewound t := (opened_of_done hdone).2

theorem Running.effect {shown : Option (Mark × (WhichStat → StatValue F))} (hs : Running s)
    (heffect : Effect s shown t) : Running t := by
  cases heffect with
  | unchanged => exact hs
  | failed hfailed => exact (hs.failed hfailed).toRunning
  | ticked hupdate => exact running_of_done hupdate
  | opened hupdate hbegin =>
    have hu := running_of_done hupdate
    obtain rfl := beginRange_done hbegin
    exact hu.keep rfl rfl rfl
  | closed hupdate hend =>
    have hu := running_of_done hupdate
    obtain rfl := endRange_done hend
    exact hu.keep rfl rfl rfl

/-- A server keeps the files open that it has opened before its port. -/
theorem running_run {opts : Options} {s₀ u : State F} {es : List (Event F)}
    (hboot : Booted opts s₀) (hrun : Run Step s₀ es u) : Running u.stats := by
  refine hrun.always (fun v => Running v.stats)
    (fun _ _ _ hv hstep => hv.effect (step_effect hstep)) ?_
  obtain ⟨-, host, events, first, second, -, hboot⟩ := hboot
  rw [boot, andThen_eq_done] at hboot
  obtain ⟨v, -, hsecond⟩ := hboot
  exact running_of_done hsecond

theorem Rewound.beginRange {counters : Counters} (hs : Rewound s)
    (hbegin : s.beginRange counters = .done t) : Rewound t := by
  obtain rfl := beginRange_done hbegin
  exact hs.keep rfl rfl rfl

omit [F64 F] in
theorem Rewound.endRange {counters : Counters} (hs : Rewound s)
    (hend : s.endRange counters = .done t) : Rewound t := by
  obtain rfl := endRange_done hend
  exact hs.keep rfl rfl rfl

/-- A command that failed in reading a file leaves its descriptor there; no other step
moves a descriptor away from the start. -/
theorem Rewound.step {u v : State F} {e : Event F} (hu : Rewound u.stats) (hstep : Step u e v) :
    Rewound v.stats ∨ ∃ conn b now, e = .returned conn b now ∧
      u.stats.update now = .failed .io v.stats := by
  cases hstep with
  | tick hupdate => exact .inl (rewound_of_done hupdate)
  | byte _ hserved =>
    rcases goesOn_cases hserved with ⟨-, w, hupdate, hbegin⟩ | ⟨-, w, hupdate, hend⟩ | ⟨-, -, rfl⟩
    · exact .inl ((rewound_of_done hupdate).beginRange hbegin)
    · exact .inl ((rewound_of_done hupdate).endRange hend)
    · exact .inl hu
  | @returned t conn b now _ hserved =>
    rcases returns_cases hserved with rfl | ⟨error, hfailed⟩
    · exact .inl hu
    · by_cases herror : error = .io
      · exact .inr ⟨conn, b, now, rfl, herror ▸ hfailed⟩
      · exact .inl (hu.failed hfailed herror)
  | hungUp _ => exact .inl hu

/-- Between the commands of a range every update succeeds. -/
theorem Rewound.plain_run {u v : State F} {es : List (Event F)} (hu : Rewound u.stats)
    (hplain : ∀ e ∈ es, e.isPlain = true) (hrun : Run Step u es v) : Rewound v.stats := by
  refine hrun.invariant (fun w => Rewound w.stats) (fun w e x he hw hstep => ?_) hplain hu
  rcases plain_step hstep he with hsame | ⟨now, hupdate⟩
  · rw [hsame]
    exact hw
  · exact rewound_of_done hupdate

theorem rewound_booted {opts : Options} {s₀ : State F} (hboot : Booted opts s₀) :
    Rewound s₀.stats := by
  obtain ⟨-, host, events, first, second, -, hboot⟩ := hboot
  rw [boot, andThen_eq_done] at hboot
  obtain ⟨v, -, hsecond⟩ := hboot
  exact rewound_of_done hsecond

end Running

end NdpOffload.Statmon.Descriptors
