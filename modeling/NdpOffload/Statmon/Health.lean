import NdpOffload.Statmon.Disks
import NdpOffload.Statmon.Events
import NdpOffload.Statmon.FaasmMonitor
import NdpOffload.Statmon.Failures
import NdpOffload.Statmon.Meminfo
import NdpOffload.Statmon.Network
import NdpOffload.Statmon.ProcStat

/-! The monitor on a healthy machine: every file is there, in the format of the one
who writes it, and the counters can be read.  No update that reads the files from
their start fails then, and the sums of a range are the increases in the files. -/
namespace NdpOffload.Statmon.Health

open Library.Outcomes Library.Runs Library.Text Library.Windows
open Table Sources Monitor Refresh Assignments Server History Ranges Telescoping
open Descriptors Failures
open Network (netParts)

variable {F : Type}

/-! ### What only the network phase changes -/

theorem netParts_onlyStats {touched : WhichStat → Prop} {s t : Stats F}
    (hst : OnlyStats touched s t) : netParts t = netParts s := by
  rw [hst.rest]
  rfl

theorem watches_of_same {iface : Network.Iface} {s t : Stats F} (hs : Network.Watches s iface)
    (hsame : netParts t = netParts s) : Network.Watches t iface := by
  simp only [netParts, Prod.mk.injEq] at hsame
  unfold Network.Watches
  rw [hsame.1, hsame.2.1]
  exact hs

/-- Updating the CPU totals or those of the devices leaves the network parts alone. -/
theorem netParts_updCpu {now : Moment} {s t : Stats F}
    (hdone : ((s.updCpu now).andThen fun u => .done u.setCpu) = .done t) :
    netParts t = netParts s := by
  obtain ⟨u, hu, hset⟩ := andThen_eq_done.mp hdone
  obtain ⟨cpu, -, rfl⟩ := map_eq_done.mp hu
  cases hset
  exact (netParts_onlyStats (setCpu_onlyStats { s with cpu := cpu })).trans rfl

theorem netParts_updIo {now : Moment} {s t : Stats F}
    (hdone : ((s.updIo now).andThen fun u => .done u.setIo) = .done t) :
    netParts t = netParts s := by
  obtain ⟨u, hu, hset⟩ := andThen_eq_done.mp hdone
  obtain ⟨io, -, rfl⟩ := map_eq_done.mp hu
  cases hset
  exact (netParts_onlyStats (setIo_onlyStats { s with io := io })).trans rfl

theorem netParts_updEvents {now : Moment} {s t : Stats F} (hdone : s.updEvents now = .done t) :
    netParts t = netParts s := by
  obtain ⟨stats, -, rfl⟩ := map_eq_done.mp hdone
  rfl

/-! ### A healthy machine -/

/-- What a healthy machine shows to one update.  The update that opens `/proc/stat`
and `/proc/diskstats` reads them twice. -/
structure Healthy (F : Type) [F64 F] where
  load : Chars
  loadRest : Chars
  memory : List Meminfo.FileLine
  faasm : Chars
  dev : Network.NetDev
  iface : Network.Iface
  firstStat : List ProcStat.StatLine
  stat : List ProcStat.StatLine
  firstDisks : List Disks.DiskLine
  disks : List Disks.DiskLine
  clkTck : UInt64
  reading : PerfCounter → UInt64
  load_word : ' ' ∉ load
  load_parses : (F64.parse load : Option F).isSome = true
  faasm_valid : ∀ item ∈ pairs (FaasmMonitor.tokens faasm), FaasmMonitor.ValidField item.1 item.2
  iface_mem : iface ∈ dev.ifaces
  disks_fit : ∀ line ∈ Disks.counted firstDisks ++ Disks.counted disks, ∀ i,
    line.counters i < 2 ^ 64
  clkTck_ne : clkTck ≠ 0

variable [F64 F]

def Healthy.moment (host : Healthy F) : Moment where
  loadavg := ⟨true, some (host.load ++ ' ' :: host.loadRest)⟩
  meminfo := ⟨true, some (Meminfo.fileText host.memory)⟩
  faasm := ⟨true, some host.faasm⟩
  net := ⟨true, some host.dev.text⟩
  procStat := ⟨⟨true, some (ProcStat.statFile host.stat)⟩, some (ProcStat.statFile host.firstStat)⟩
  diskstats := ⟨⟨true, some (Disks.diskstats host.disks)⟩, some (Disks.diskstats host.firstDisks)⟩
  clkTck := host.clkTck
  counters := Events.counting host.reading

/-! ### The phases -/

section Phases

variable (host : Healthy F) (s : Stats F)

theorem updLoadavg_healthy : ∃ t, s.updLoadavg host.moment.loadavg = .done t := by
  obtain ⟨v, hv⟩ := Option.isSome_iff_exists.mp host.load_parses
  refine ⟨({ s with loadavgOpen := true, loadavgRewound := true } : Stats F).setNow .loadAvg1min
    (.float v), ?_⟩
  unfold Stats.updLoadavg
  rw [readSource_of_text (.inr rfl) rfl, Stats.parseLoadavg, splitOnce_append_cons host.load_word]
  simp only [hv]

theorem updMeminfo_healthy : ∃ t, s.updMeminfo host.moment.meminfo = .done t :=
  ⟨_, Meminfo.updMeminfo_done rfl (.inr rfl)⟩

theorem updFaasm_healthy : ∃ t, s.updFaasm host.moment.faasm = .done t := by
  unfold Stats.updFaasm
  rw [readSource_of_text (.inr rfl) rfl]
  exact ⟨_, each_assign (fun item hitem => FaasmMonitor.readFaasmField_valid
    (host.faasm_valid item hitem)) _⟩

theorem updNet_healthy {s : Stats F} (hwatches : Network.Watches s host.iface) :
    s.updNet host.moment.net = .done (Network.readColumns host.iface
      { s with netOpen := true, netRewound := true, netIface := host.iface.label }) :=
  Network.updNet_text host.dev host.iface host.iface_mem hwatches (.inr rfl) rfl

theorem updCpu_healthy : ∃ t, ((s.updCpu host.moment).andThen fun u => .done u.setCpu) = .done t := by
  have hcpu : ∃ next, s.cpu.update host.moment.clkTck host.moment.procStat = .done next := by
    cases hopen : s.cpu.isOpen with
    | true => exact ⟨_, ProcStat.update_open hopen rfl⟩
    | false => exact ⟨_, ProcStat.update_closed hopen rfl host.clkTck_ne rfl rfl⟩
  obtain ⟨next, hnext⟩ := hcpu
  exact ⟨_, by rw [Stats.updCpu, hnext, map_done, andThen_done]⟩

theorem updEvents_healthy : ∃ t, s.updEvents host.moment = .done t := by
  have hread : ∀ pc, host.moment.counters.read pc = some (host.reading pc) := fun _ => rfl
  obtain ⟨stats, hstats⟩ := Events.update_succeeds hread s.events s.stats
  exact ⟨_, by rw [Stats.updEvents, hstats, map_done]⟩

/-- What counts is the last device that is not ignored. -/
theorem ioUpdate_healthy (io : IoStat) : ∃ before, io.update host.moment.diskstats =
    .done { isOpen := true, ioTotals := Disks.lastTotals host.disks before, ioTotalsLast := before } := by
  have hextract : ∀ io : IoStat, io.extract (some (Disks.diskstats host.disks)) =
      .done { io with
        rewound := true, ioTotals := Disks.lastTotals host.disks io.ioTotals
        ioTotalsLast := io.ioTotals } := by
    intro io
    apply Disks.extract_diskstats
    intro line hline
    exact host.disks_fit line (List.mem_append_right _ hline)
  unfold IoStat.update
  cases hopen : io.isOpen with
  | true =>
    refine ⟨io.ioTotals, ?_⟩
    rw [if_pos rfl]
    exact (hextract io).trans (by rw [hopen])
  | false =>
    have hfirst := Disks.extract_diskstats host.firstDisks
      (fun line hline => host.disks_fit line (List.mem_append_left _ hline))
      { io with isOpen := true }
    refine ⟨Disks.lastTotals host.firstDisks io.ioTotals, ?_⟩
    rw [if_neg (by decide), if_neg (by simp [Healthy.moment])]
    unfold Healthy.moment
    rw [hfirst, andThen_done, hextract]

theorem updIo_healthy : ∃ t, ((s.updIo host.moment).andThen fun u => .done u.setIo) = .done t := by
  obtain ⟨before, hnext⟩ := ioUpdate_healthy host s.io
  exact ⟨_, by rw [Stats.updIo, hnext, map_done, andThen_done]⟩

end Phases

/-! ### One update -/

/-- The counters of an interface by their number. -/
def counterAt (iface : Network.Iface) (k : Nat) : Nat :=
  if hk : k < 16 then iface.counters ⟨k, hk⟩ else 0

/-- The references that an update on this machine leaves.  The statistic of the errors
in sending is read from the column of the packets. -/
def Healthy.netRefs (host : Healthy F) : Int64 × Int64 × Int64 × Int64 :=
  (Int64.ofNat (counterAt host.iface 0), Int64.ofNat (counterAt host.iface 2),
    Int64.ofNat (counterAt host.iface 8), Int64.ofNat (counterAt host.iface 9))

/-- The monitor searches for this label, and its references are those of the file. -/
structure OnLine (host : Healthy F) (s : Stats F) : Prop where
  netOpen : s.netOpen = true
  netIface : s.netIface = host.iface.label
  refs : Telescoping.netRefs s = host.netRefs

theorem OnLine.of_same {host : Healthy F} {s t : Stats F} (hs : OnLine host s)
    (hsame : netParts t = netParts s) : OnLine host t := by
  simp only [netParts, Prod.mk.injEq] at hsame
  obtain ⟨hopen, hiface, hrefs⟩ := hsame
  exact ⟨hopen.trans hs.netOpen, hiface.trans hs.netIface, hrefs.trans hs.refs⟩

theorem netParts_before_net {now : Moment} {s s₁ s₂ s₃ : Stats F}
    (hload : s.updLoadavg now.loadavg = .done s₁) (hmem : s₁.updMeminfo now.meminfo = .done s₂)
    (hfaasm : s₂.updFaasm now.faasm = .done s₃) : netParts s₃ = netParts s := by
  have h₁ := netParts_onlyStats ((updLoadavg_leaves _ s).of_done hload)
  have h₂ := netParts_onlyStats ((updMeminfo_leaves _ s₁).of_done hmem)
  have h₃ := netParts_onlyStats ((updFaasm_leaves _ s₂).of_done hfaasm)
  exact h₃.trans (h₂.trans h₁)

theorem refresh_healthy (host : Healthy F) {s : Stats F} (hwatches : Network.Watches s host.iface) :
    ∃ t, s.refresh host.moment = .done t ∧ OnLine host t := by
  obtain ⟨s₁, hload⟩ := updLoadavg_healthy host s
  obtain ⟨s₂, hmem⟩ := updMeminfo_healthy host s₁
  obtain ⟨s₃, hfaasm⟩ := updFaasm_healthy host s₂
  have hnet := updNet_healthy host (watches_of_same hwatches (netParts_before_net hload hmem hfaasm))
  obtain ⟨s₅, hcpu⟩ := updCpu_healthy host (Network.readColumns host.iface
    { s₃ with netOpen := true, netRewound := true, netIface := host.iface.label })
  obtain ⟨s₆, hevents⟩ := updEvents_healthy host s₅
  obtain ⟨s₇, hio⟩ := updIo_healthy host s₆
  refine ⟨s₇, ?_, ?_⟩
  · unfold Stats.refresh
    simp only [hload, hmem, hfaasm, hnet, andThen_done]
    rw [hcpu, andThen_done, hevents, andThen_done, hio]
  · have hline : OnLine host (Network.readColumns host.iface
        { s₃ with netOpen := true, netRewound := true, netIface := host.iface.label }) := ⟨rfl, rfl, rfl⟩
    exact ((hline.of_same (netParts_updCpu hcpu)).of_same (netParts_updEvents hevents)).of_same
      (netParts_updIo hio)

theorem update_healthy (host : Healthy F) {history : List (Mark × (WhichStat → StatValue F))}
    {s : Stats F} (htracks : Tracks history s) (hwatches : Network.Watches s host.iface) :
    ∃ t, s.update host.moment = .done t ∧ OnLine host t := by
  obtain ⟨u, hrefresh, hu⟩ := refresh_healthy host hwatches
  obtain ⟨t, ht⟩ :=
    (htracks.refreshed ((refresh_leaves host.moment s).of_done hrefresh)).aggregate_done
  cases hinRange : u.inRange with
  | true =>
    have hupdate : s.update host.moment = .done t := by
      simp [Stats.update, hrefresh, hinRange, ht]
    obtain ⟨v, hv, hrest, -⟩ := update_done hupdate
    cases hrefresh.symm.trans hv
    exact ⟨t, hupdate, hu.of_same (by rw [hrest]; rfl)⟩
  | false => exact ⟨u, by simp [Stats.update, hrefresh, hinRange], hu⟩

/-! ### Reachable states -/

section Reachable

variable {iface : Chars} {msPerClk : UInt64} {s t : Stats F} {now : Moment}

omit [F64 F] in
theorem parseNet_iface {text : Chars} (hdone : s.parseNet text = .done t) :
    t.netIface = s.netIface := by
  unfold Stats.parseNet at hdone
  split at hdone
  · cases hdone
  · simp only [andThen_eq_done] at hdone
    obtain ⟨s₄, ⟨s₃, ⟨s₂, ⟨s₁, hrx, hrxe⟩, htx⟩, htxe⟩, hlast⟩ := hdone
    obtain ⟨rx, rfl⟩ := netColumn_done hrx
    obtain ⟨rxe, rfl⟩ := netColumn_done hrxe
    obtain ⟨tx, rfl⟩ := netColumn_done htx
    obtain ⟨txe, rfl⟩ := netColumn_done htxe
    split at hlast
    · cases hlast
    · cases hlast
      rfl

omit [F64 F] in
/-- Opening the file completes the search string. -/
theorem updNet_iface {source : Source} (hdone : s.updNet source = .done t)
    (hclosed : s.netOpen = false) : t.netIface = s.netIface ++ [':'] := by
  unfold Stats.updNet at hdone
  rw [if_neg (by simp [hclosed])] at hdone
  split at hdone
  · cases hdone
  · obtain ⟨text, -, hparse⟩ := readSource_done hdone
    exact parseNet_iface hparse

theorem update_iface (hupdate : s.update now = .done t) (hclosed : s.netOpen = false) :
    t.netIface = s.netIface ++ [':'] := by
  obtain ⟨u, hrefresh, hrest, -⟩ := update_done hupdate
  simp only [Stats.refresh, andThen_eq_done] at hrefresh
  obtain ⟨s₆, ⟨s₅, ⟨s₄, ⟨s₃, ⟨s₂, ⟨s₁, hload, hmem⟩, hfaasm⟩, hnet⟩, hcpu⟩, hevents⟩, hio⟩ :=
    hrefresh
  have hbefore := netParts_before_net hload hmem hfaasm
  have hafter : netParts t = netParts s₄ := by
    have hsame : netParts t = netParts u := by
      rw [hrest]
      rfl
    rw [hsame, netParts_updIo (andThen_eq_done.mpr hio), netParts_updEvents hevents]
    exact netParts_updCpu (andThen_eq_done.mpr hcpu)
  simp only [netParts, Prod.mk.injEq] at hbefore hafter
  rw [hafter.2.1, updNet_iface hnet (hbefore.1.trans hclosed), hbefore.2.1]

theorem settled_updated (hs : Settled iface msPerClk s) (hupdate : s.update now = .done t) :
    Settled iface msPerClk t := by
  obtain ⟨u, hrefresh, hrest, -⟩ := update_done hupdate
  rw [hrest]
  exact ((Settled.refresh hs now).of_done hrefresh).keep rfl rfl rfl rfl

/-- The search string and the length of a tick are fixed for good. -/
theorem settled_effect {shown : Option (Mark × (WhichStat → StatValue F))}
    (hs : Settled iface msPerClk s) (heffect : Effect s shown t) : Settled iface msPerClk t := by
  cases heffect with
  | unchanged => exact hs
  | failed hfailed => exact (Settled.refresh hs _).of_failed (refresh_failed hfailed)
  | ticked hupdate => exact settled_updated hs hupdate
  | opened hupdate hbegin =>
    have hu := settled_updated hs hupdate
    obtain rfl := beginRange_done hbegin
    exact hu.keep rfl rfl rfl rfl
  | closed hupdate hend =>
    have hu := settled_updated hs hupdate
    obtain rfl := endRange_done hend
    exact hu.keep rfl rfl rfl rfl

theorem settled_boot {opts : Options} {s₀ : State F} (hboot : Booted opts s₀) :
    Settled (opts.netdev ++ [':']) s₀.stats.cpu.msPerClk s₀.stats := by
  have hrunning : Running s₀.stats := running_run hboot (.nil s₀)
  obtain ⟨-, host, events, first, second, -, hboot⟩ := hboot
  rw [boot, andThen_eq_done] at hboot
  obtain ⟨u, hfirst, hsecond⟩ := hboot
  have hiface : u.netIface = opts.netdev ++ [':'] := update_iface hfirst rfl
  have hu : Settled (opts.netdev ++ [':']) u.cpu.msPerClk u := ⟨running_of_done hfirst, hiface, rfl⟩
  exact ⟨hrunning, (settled_updated hu hsecond).netIface, rfl⟩

theorem settled_run {opts : Options} {s₀ u : State F} {es : List (Event F)}
    (hboot : Booted opts s₀) (hrun : Run Step s₀ es u) :
    Settled (opts.netdev ++ [':']) s₀.stats.cpu.msPerClk u.stats := by
  apply hrun.always (fun v => Settled (opts.netdev ++ [':']) s₀.stats.cpu.msPerClk v.stats)
  · intro v e w hv hstep
    exact settled_effect hv (step_effect hstep)
  · exact settled_boot hboot

theorem settled_watches {netdev : Chars} (hs : Settled (netdev ++ [':']) msPerClk s)
    {host : Healthy F} (hname : host.iface.name = netdev) : Network.Watches s host.iface := by
  unfold Network.Watches
  rw [if_pos hs.net, hs.netIface, Network.Iface.label, hname]

end Reachable

/-! ### The server -/

theorem boot_healthy {opts : Options} (events : EventStat) (first second : Healthy F)
    (hfirst : first.iface.name = opts.netdev) (hsecond : second.iface.name = opts.netdev) :
    ∃ s : Stats F, boot opts events first.moment second.moment = .done s := by
  have hnew : Tracks [] ({ Stats.new events with
      hostPrefix := opts.hostPrefix, netIface := opts.netdev } : Stats F) := tracks_new _ rfl rfl
  obtain ⟨u, hu, hline⟩ := update_healthy first hnew (by rw [Network.Watches, hfirst]; rfl)
  obtain ⟨hinRange, hkind, hcollected⟩ := hnew.updated hu
  have hwatches : Network.Watches u second.iface := by
    unfold Network.Watches
    rw [if_pos hline.netOpen, hline.netIface, Network.Iface.label, Network.Iface.label, hfirst,
      hsecond]
  obtain ⟨t, ht, -⟩ := update_healthy second ⟨hinRange, hkind, hcollected⟩ hwatches
  refine ⟨t, ?_⟩
  rw [boot, andThen_eq_done]
  exact ⟨u, hu, ht⟩

theorem start_counting (reading : PerfCounter → UInt64) (events : EventStat) :
    events.start (Events.counting reading) = true ∧ events.stop (Events.counting reading) = true := by
  simp [EventStat.start, EventStat.stop, Events.counting]

/-- Where an update succeeds and the counters obey, both range commands are served. -/
theorem range_served {host : Healthy F} {s t : Stats F} (hupdate : s.update host.moment = .done t) :
    (∃ u, connHandler '['.toUInt8 host.moment s = .goesOn u none) ∧
      ∃ u, connHandler ']'.toUInt8 host.moment s = .goesOn u (some u.statPacket) := by
  obtain ⟨hstart, hstop⟩ := start_counting host.reading t.events
  have hbegin : t.beginRange host.moment.counters =
      .done { t with inRange := true, stats := fun which => (t.stats which).reset } := if_pos hstart
  have hend : t.endRange host.moment.counters = .done { t with inRange := false } := if_pos hstop
  refine ⟨⟨{ t with inRange := true, stats := fun which => (t.stats which).reset }, ?_⟩,
    { t with inRange := false }, ?_⟩
  · rw [connHandler_opening, hupdate, andThen_done, hbegin]
    rfl
  · rw [connHandler_closing, hupdate, andThen_done, hend]
    rfl

theorem run_update_healthy (host : Healthy F) {opts : Options} {s₀ s : State F}
    {history : List (Event F)} (hboot : Booted opts s₀) (hrun : Run Step s₀ history s)
    (hname : host.iface.name = opts.netdev) :
    ∃ t, s.stats.update host.moment = .done t ∧ OnLine host t :=
  update_healthy host (run_tracks hboot hrun) (settled_watches (settled_run hboot hrun) hname)

/-- On a healthy machine the monitor comes up.  Later, wherever the descriptors stand at
the start of their files and the machine is healthy, the timer does not abort the process
and every command but `q` is served, with a packet after `]` and `?`.  There the
descriptors are after the start-up and after every step but a command that failed in
reading a file. -/
theorem served_when_healthy (opts : Options) (host : Healthy F)
    (hname : host.iface.name = opts.netdev) :
    (∀ (events : EventStat) (first : Healthy F), first.iface.name = opts.netdev →
      ∃ s : Stats F, boot opts events first.moment host.moment = .done s) ∧
    (∀ (s₀ s : State F) (history : List (Event F)) (files : Files), Booted opts s₀ →
      Run Step s₀ history s → Rewound s.stats → files.whole = host.moment →
      (∃ t, s.stats.update (files.moment s.stats) = .done t) ∧
      ∀ b, b ≠ 'q'.toUInt8 →
        ∃ t sent, connHandler b (files.moment s.stats) s.stats = .goesOn t sent ∧
          (sent.isSome = true ↔ b = ']'.toUInt8 ∨ b = '?'.toUInt8)) ∧
    (∀ s₀ : State F, Booted opts s₀ → Rewound s₀.stats) ∧
    ∀ (s t : State F) (e : Event F), Step s e t → Rewound s.stats → Rewound t.stats ∨
      ∃ conn b now, e = .returned conn b now ∧ s.stats.update now = .failed .io t.stats := by
  refine ⟨fun events first hfirst => boot_healthy events first host hfirst hname, ?_,
    fun s₀ hboot => rewound_booted hboot, fun s t e hstep hs => hs.step hstep⟩
  intro s₀ s history files hboot hrun hrewound hfiles
  rw [moment_of_rewound hrewound, hfiles]
  obtain ⟨t, hupdate, -⟩ := run_update_healthy host hboot hrun hname
  obtain ⟨⟨u, hopened⟩, v, hclosed⟩ := range_served hupdate
  refine ⟨⟨t, hupdate⟩, ?_⟩
  intro b hquit
  by_cases hopening : b = '['.toUInt8
  · subst hopening
    exact ⟨u, none, hopened, by decide⟩
  by_cases hclosing : b = ']'.toUInt8
  · subst hclosing
    exact ⟨v, some v.statPacket, hclosed, by simp⟩
  by_cases hasking : b = '?'.toUInt8
  · subst hasking
    exact ⟨s.stats, some s.stats.statPacket, rfl, by simp⟩
  · refine ⟨s.stats, none, ?_, by simp [hclosing, hasking]⟩
    unfold connHandler
    rw [if_neg hquit, if_neg hopening, if_neg hclosing, if_neg hasking]
    exact ite_self _

/-- A machine on which every counter of `/proc/stat` shows the same. -/
def evenMachine (n : Nat) (hn : n < 2 ^ 64) : Healthy Int where
  load := "0.00".toList
  loadRest := "0.01 0.05 1/80 7\n".toList
  memory := Meminfo.twoTotals
  faasm := "started,0,".toList
  dev := Network.procNetDev
  iface := Network.loopback
  firstStat := ProcStat.oneCpu n hn
  stat := ProcStat.oneCpu n hn
  firstDisks := [Disks.sda]
  disks := [Disks.sda]
  clkTck := 100
  reading := fun _ => 0
  load_word := by decide
  load_parses := by decide
  faasm_valid := by decide +kernel
  iface_mem := List.mem_cons_self
  disks_fit := by
    intro line hline i
    rw [Disks.counted, List.mem_append, or_self, List.mem_filter, List.mem_singleton] at hline
    rw [hline.1]
    show 3 < 2 ^ 64
    decide
  clkTck_ne := by decide

def loopbackOptions : Options := ⟨"local_".toList, Network.loopback.name⟩

theorem booted_evenMachine (n : Nat) (hn : n < 2 ^ 64) :
    ∃ s₀ : State Int, Booted loopbackOptions s₀ ∧ s₀.gone = [] := by
  have hname : (evenMachine n hn).iface.name = loopbackOptions.netdev := rfl
  obtain ⟨s, hs⟩ := boot_healthy quietEvents (evenMachine n hn) (evenMachine n hn) hname hname
  exact ⟨⟨s, []⟩, ⟨rfl, quietHost, quietEvents, _, _, quietEvents_isNew, hs⟩, rfl⟩

theorem served_when_healthy_even : ∃ s₀ : State Int, Booted loopbackOptions s₀ ∧
    ∃ t, s₀.stats.update ((Files.ofMoment (evenMachine 7 (by decide)).moment).moment s₀.stats) =
      .done t := by
  obtain ⟨s₀, hboot, -⟩ := booted_evenMachine 7 (by decide)
  obtain ⟨-, hserved, hrewound, -⟩ :=
    served_when_healthy loopbackOptions (evenMachine 7 (by decide)) rfl
  exact ⟨s₀, hboot, (hserved s₀ s₀ [] _ hboot (.nil s₀) (hrewound s₀ hboot) rfl).1⟩

/-! ### The sums of a range -/

omit [F64 F] in
theorem toInt64_mul (n : Nat) (scale : UInt64) :
    (UInt64.ofNat n * scale).toInt64 = Int64.ofNat (n * scale.toNat) := by
  have hscale : scale = UInt64.ofNat scale.toNat := (UInt64.ofNat_toNat).symm
  rw [hscale, ← UInt64.ofNat_mul, UInt64.toInt64_ofNat', ← hscale]

def Healthy.cpuMs (host : Healthy F) (msPerClk : UInt64) (i : CpuTotals) : Option Nat :=
  (ProcStat.lastOf ProcStat.Record.totals? host.stat).map fun totals => totals i * msPerClk.toNat

/-- Only the last device that is not ignored counts. -/
def Healthy.disk (host : Healthy F) (i : IoTotals) : Option Nat :=
  (Disks.counted host.disks).getLast?.map fun line => line.counters i

/-- The counter in the files whose increase a statistic reports. -/
def Healthy.counter (host : Healthy F) (msPerClk : UInt64) : WhichStat → Option Nat
  | .netRxBytes => some (counterAt host.iface 0)
  | .netRxErrors => some (counterAt host.iface 2)
  | .netTxBytes => some (counterAt host.iface 8)
  | .netTxErrors => some (counterAt host.iface 9)
  | .contextSwitches => ProcStat.lastOf ProcStat.Record.ctxt? host.stat
  | .cpumsUser => host.cpuMs msPerClk .userMode
  | .cpumsNice => host.cpuMs msPerClk .niceUserMode
  | .cpumsSystem => host.cpuMs msPerClk .systemMode
  | .cpumsIdle => host.cpuMs msPerClk .idle
  | .cpumsIowait => host.cpuMs msPerClk .ioWait
  | .cpumsIrq => host.cpuMs msPerClk .irq
  | .cpumsSoftirq => host.cpuMs msPerClk .softIrq
  | .ioReadsCompleted => host.disk .readsCompleted
  | .ioReadsMerged => host.disk .readsMerged
  | .ioSectorsRead => host.disk .sectorsRead
  | .ioMsReading => host.disk .msReading
  | .ioWritesCompleted => host.disk .writesCompleted
  | .ioWritesMerged => host.disk .writesMerged
  | .ioSectorsWritten => host.disk .sectorsWritten
  | .ioMsWriting => host.disk .msWriting
  | _ => none

section Sums

variable {host : Healthy F}

/-- On an open file the values are those of the last lines. -/
theorem cpu_shows {cpu next : CpuStat} (hopen : cpu.isOpen = true)
    (hupdate : cpu.update host.moment.clkTck host.moment.procStat = .done next) :
    ProcStat.Shows host.stat (ProcStat.begun cpu) next ∧ next.msPerClk = cpu.msPerClk := by
  rw [ProcStat.update_open hopen rfl] at hupdate
  cases hupdate
  exact ⟨ProcStat.after_shows host.stat (ProcStat.begun cpu),
    ProcStat.msPerClk_after host.stat (ProcStat.begun cpu)⟩

theorem cpuMs_of_shows {before next : CpuStat} (hshows : ProcStat.Shows host.stat before next)
    {i : CpuTotals} {n : Nat} (hn : host.cpuMs next.msPerClk i = some n) :
    (next.cpuTotals i).toInt64 = Int64.ofNat n := by
  obtain ⟨totals, htotals, rfl⟩ := Option.map_eq_some_iff.mp hn
  rw [hshows.totals i, htotals]
  exact toInt64_mul (totals i) next.msPerClk

theorem switches_of_shows {before next : CpuStat} (hshows : ProcStat.Shows host.stat before next)
    {n : Nat} (hn : ProcStat.lastOf ProcStat.Record.ctxt? host.stat = some n) :
    next.contextSwitches.toInt64 = Int64.ofNat n := by
  rw [hshows.ctxt, hn]
  exact UInt64.toInt64_ofNat'

theorem disk_of_update {io next : IoStat} (hupdate : io.update host.moment.diskstats = .done next)
    {i : IoTotals} {n : Nat} (hn : host.disk i = some n) :
    (next.ioTotals i).toInt64 = Int64.ofNat n := by
  obtain ⟨before, hbefore⟩ := ioUpdate_healthy host io
  rw [hbefore] at hupdate
  cases hupdate
  obtain ⟨line, hline, rfl⟩ := Option.map_eq_some_iff.mp hn
  simp only [Disks.lastTotals, hline]
  exact UInt64.toInt64_ofNat'

/-- What an update extracts is what the files show. -/
theorem rawCounter_of_files {opts : Options} {s₀ u : State F} {t : Stats F} {es : List (Event F)}
    (hboot : Booted opts s₀) (hrun : Run Step s₀ es u) (hname : host.iface.name = opts.netdev)
    (hupdate : u.stats.update host.moment = .done t) {which : WhichStat} {n : Nat}
    (hn : host.counter s₀.stats.cpu.msPerClk which = some n) :
    rawCounter t which = some (Int64.ofNat n) := by
  have hsettled := settled_run hboot hrun
  have hreports := update_reports hupdate
  obtain ⟨t', ht', hline⟩ := run_update_healthy host hboot hrun hname
  cases hupdate.symm.trans ht'
  have hrefs := hline.refs
  simp only [Telescoping.netRefs, Healthy.netRefs, Prod.mk.injEq] at hrefs
  obtain ⟨hshows, hclk⟩ := cpu_shows hsettled.cpu hreports.cpu
  have hms : s₀.stats.cpu.msPerClk = t.cpu.msPerClk := hsettled.msPerClk.symm.trans hclk.symm
  have hcpu : ∀ i, host.cpuMs s₀.stats.cpu.msPerClk i = some n →
      (t.cpu.cpuTotals i).toInt64 = Int64.ofNat n := by
    intro i
    rw [hms]
    exact cpuMs_of_shows hshows
  have hdisk : ∀ i, host.disk i = some n → (t.io.ioTotals i).toInt64 = Int64.ofNat n :=
    fun i => disk_of_update hreports.io
  cases which
  all_goals first
    | cases hn
    | exact congrArg some (hcpu _ hn)
    | exact congrArg some (hdisk _ hn)
    | exact congrArg some (switches_of_shows hshows hn)
  · exact congrArg some hrefs.1
  · exact congrArg some hrefs.2.1
  · exact congrArg some hrefs.2.2.1
  · exact congrArg some hrefs.2.2.2

omit [F64 F] in
theorem toInt_increase {old new : Nat} (hle : old ≤ new) (hfit : new - old < 2 ^ 63) :
    (Int64.ofNat new - Int64.ofNat old).toInt = new - old := by
  have hsplit : new = old + (new - old) := by omega
  have hadd : Int64.ofNat new = Int64.ofNat (new - old) + Int64.ofNat old := by
    rw [← Int64.ofNat_add, Nat.sub_add_cancel hle]
  rw [hadd, Int64.add_sub_cancel, Int64.toInt_ofNat_of_lt hfit]
  omega

/-- A range starts with the counters of the files at its opening. -/
theorem counters_opened {opts : Options} (host : Healthy F) (hname : host.iface.name = opts.netdev)
    {s₀ s t : State F} {before : List (Event F)} {opener : Nat}
    {openedWith : WhichStat → StatValue F} {reply : Option Chars} (hboot : Booted opts s₀)
    (hbefore : Run Step s₀ before s)
    (hopened : Step s (.byte opener '['.toUInt8 host.moment openedWith reply) t) :
    Telescoped t.stats t.stats ∧ t.stats.inRange = true ∧ Rewound t.stats ∧
      ∀ which old, host.counter s₀.stats.cpu.msPerClk which = some old →
        rawCounter t.stats which = some (Int64.ofNat old) := by
  cases hopened with
  | byte _ hserved =>
    rw [connHandler_opening, ofResult_eq_goesOn, andThen_eq_done] at hserved
    obtain ⟨⟨u, hupdate, hbegin⟩, -⟩ := hserved
    obtain ⟨htele, hinRange⟩ := telescoped_opened hupdate hbegin
    refine ⟨htele, hinRange, (rewound_of_done hupdate).beginRange hbegin, ?_⟩
    intro which old hold
    have hraw := rawCounter_of_files hboot hbefore hname hupdate hold
    rw [beginRange_done hbegin]
    cases which <;> exact hraw

end Sums

/-- The packet of a range shows how far the counters in the files have risen from the
opening update to the closing one, if the descriptors stood at the start of their files
when the range was opened.  In between, the machine need not be healthy. -/
theorem sums_of_files {opts : Options} (opened closed : Healthy F)
    (hopenedName : opened.iface.name = opts.netdev) (hclosedName : closed.iface.name = opts.netdev)
    {atOpening atClosing : Files} (hatOpening : atOpening.whole = opened.moment)
    (hatClosing : atClosing.whole = closed.moment)
    {s₀ s₁ s₂ s₃ s₄ : State F} {before during : List (Event F)} {opener closer : Nat}
    {openedWith closedWith : WhichStat → StatValue F} {reply sent : Option Chars}
    (hboot : Booted opts s₀) (hbefore : Run Step s₀ before s₁) (hrewound : Rewound s₁.stats)
    (hopened : Step s₁
      (.byte opener '['.toUInt8 (atOpening.moment s₁.stats) openedWith reply) s₂)
    (hplain : ∀ e ∈ during, e.isPlain = true) (hduring : Run Step s₂ during s₃)
    (hclosed : Step s₃
      (.byte closer ']'.toUInt8 (atClosing.moment s₃.stats) closedWith sent) s₄) :
    sent = some s₄.stats.statPacket ∧
    ∀ which old new, opened.counter s₀.stats.cpu.msPerClk which = some old →
      closed.counter s₀.stats.cpu.msPerClk which = some new →
      ∃ v, (s₄.stats.stats which).valueSum = .int v ∧ v = Int64.ofNat new - Int64.ofNat old ∧
        (old ≤ new → new - old < 2 ^ 63 → v.toInt = new - old) := by
  refine ⟨(closing_sent hclosed).1, ?_⟩
  have hopenedRun : Run Step s₀ (before ++
      .byte opener '['.toUInt8 (atOpening.moment s₁.stats) openedWith reply :: during) s₃ :=
    run_append_iff.mpr ⟨s₁, hbefore, run_cons_iff.mpr ⟨s₂, hopened, hduring⟩⟩
  have hstart := hopened
  rw [moment_of_rewound hrewound, hatOpening] at hstart
  obtain ⟨htele, hinRange, hrewound₂, hfirst⟩ :=
    counters_opened opened hopenedName hboot hbefore hstart
  obtain ⟨hlater, hstill⟩ := htele.run hinRange hplain hduring
  -- and ends with those of the closing ones
  rw [moment_of_rewound (hrewound₂.plain_run hplain hduring), hatClosing] at hclosed
  intro which old new hold hnew
  refine ⟨Int64.ofNat new - Int64.ofNat old, ?_, rfl, toInt_increase⟩
  cases hclosed with
  | byte _ hserved =>
    rw [connHandler_closing, ofResult_eq_goesOn, andThen_eq_done] at hserved
    obtain ⟨⟨u, hupdate, hend⟩, -⟩ := hserved
    have hraw := rawCounter_of_files hboot hopenedRun hclosedName hupdate hnew
    have hlast := (hlater.updated hstill hupdate).sums which _ _ (hfirst which old hold) hraw
    rw [endRange_done hend]
    exact hlast

/-- Ten context switches between `[` and `]`. -/
theorem sums_of_files_even : ∃ (s : State Int) (v : Int64),
    (s.stats.stats .contextSwitches).valueSum = .int v ∧ v.toInt = 10 := by
  obtain ⟨s₁, hboot, hserving⟩ := booted_evenMachine 7 (by decide)
  have hrewound := rewound_booted hboot
  obtain ⟨t, hupdate, -⟩ := run_update_healthy (evenMachine 7 (by decide)) hboot (.nil s₁) rfl
  obtain ⟨⟨u, hgoes⟩, -⟩ := range_served hupdate
  rw [← ofMoment_moment hrewound (evenMachine 7 (by decide)).moment] at hgoes
  have hopened : Step s₁ (.byte 0 '['.toUInt8
      ((Files.ofMoment (evenMachine 7 (by decide)).moment).moment s₁.stats) (observe u) none)
      { s₁ with stats := u } := .byte (by simp [hserving]) hgoes
  have hrewound' : Rewound u := (hrewound.step hopened).resolve_right (by simp)
  obtain ⟨t', hupdate', -⟩ := run_update_healthy (evenMachine 17 (by decide)) hboot
    (run_singleton_iff.mpr hopened) rfl
  obtain ⟨-, w, hgoes'⟩ := range_served hupdate'
  rw [← ofMoment_moment hrewound' (evenMachine 17 (by decide)).moment] at hgoes'
  have hclosed : Step { s₁ with stats := u } (.byte 0 ']'.toUInt8
      ((Files.ofMoment (evenMachine 17 (by decide)).moment).moment u) (observe w)
      (some w.statPacket)) { s₁ with stats := w } := .byte (by simp [hserving]) hgoes'
  obtain ⟨-, hsums⟩ := sums_of_files (evenMachine 7 (by decide)) (evenMachine 17 (by decide)) rfl rfl
    (show (Files.ofMoment _).whole = _ from rfl) (show (Files.ofMoment _).whole = _ from rfl)
    hboot (.nil s₁) hrewound hopened (by simp) (.nil _) hclosed
  obtain ⟨v, hv, -, hrise⟩ := hsums .contextSwitches 7 17 rfl rfl
  exact ⟨_, v, hv, hrise (by decide) (by decide)⟩

end NdpOffload.Statmon.Health
