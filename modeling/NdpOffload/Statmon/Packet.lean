import Mathlib.Data.List.Nodup
import Mathlib.Data.List.ProdSigma
import NdpOffload.Library.Records
import NdpOffload.Statmon.Ranges

/-! The packet that `stat_packet` writes, as a table: six labelled values for each
statistic, under the names of `STATS_INIT` and the prefix of the host. -/
namespace NdpOffload.Statmon.Packet

open Library.Outcomes Library.Records Library.Runs Library.Text Library.Windows
open Table Sources Monitor Refresh Server History Ranges

/-- The names in `STATS_INIT`, whatever `f64` is. -/
def statName (which : WhichStat) : Chars := (statsInit which : Stat Int).name

def kinds : List Chars :=
  ["".toList, "_min".toList, "_max".toList, "_avg".toList, "_sum".toList, "_cnt".toList]

/-- The labels that a host with this prefix prints. -/
def labels (hostPrefix : Chars) : List Chars :=
  (WhichStat.all ×ˢ kinds).map fun item => hostPrefix ++ statName item.1 ++ item.2

/-- Take a kind off the end of a label. -/
def splitKind (label : Chars) : Chars × Chars :=
  let kind := label.drop (label.length - 4)
  if kind ∈ kinds then (label.take (label.length - 4), kind) else (label, [])

/-- No name of a statistic ends in a kind. -/
theorem statName_ok : ∀ which ∈ WhichStat.all, Plain (statName which) ∧
    (statName which).drop ((statName which).length - 4) ∉ kinds := by
  decide +kernel

theorem splitKind_label (which : WhichStat) {kind : Chars} (hkind : kind ∈ kinds) :
    splitKind (statName which ++ kind) = (statName which, kind) := by
  have hlength : kind = [] ∨ kind.length = 4 := by
    revert kind
    decide
  rcases hlength with rfl | hfour
  · rw [List.append_nil]
    rw [splitKind, if_neg (statName_ok which which.mem_all).2]
  · have hstart : (statName which ++ kind).length - 4 = (statName which).length := by
      rw [List.length_append]
      omega
    rw [splitKind, hstart, List.drop_left, List.take_left, if_pos hkind]

theorem statName_injective : Function.Injective statName := by
  have hnodup : (WhichStat.all.map statName).Nodup := by decide +kernel
  intro left right hsame
  exact List.inj_on_of_nodup_map hnodup left.mem_all right.mem_all hsame

theorem labels_nodup (hostPrefix : Chars) : (labels hostPrefix).Nodup := by
  have hpairs : (WhichStat.all ×ˢ kinds).Nodup :=
    List.Nodup.product (by decide +kernel) (by decide)
  refine hpairs.map_on ?_
  rintro ⟨which, kind⟩ hmem ⟨other, kind'⟩ hmem' hsame
  simp only [List.append_assoc, List.append_cancel_left_eq] at hsame
  have hkind := (List.pair_mem_product.mp hmem).2
  have hkind' := (List.pair_mem_product.mp hmem').2
  have hsplit := splitKind_label which hkind
  rw [hsame, splitKind_label other hkind', Prod.mk.injEq] at hsplit
  rw [statName_injective hsplit.1, hsplit.2]

variable {F : Type}

/-- The names of the statistics and the prefix never change. -/
structure Labelled (hostPrefix : Chars) (s : Stats F) : Prop where
  hostPrefix : s.hostPrefix = hostPrefix
  names : ∀ which, (s.stats which).name = statName which

section Labelled

variable {hostPrefix : Chars} {s t : Stats F}

theorem Labelled.refreshed (hs : Labelled hostPrefix s) (hst : Refreshes s t) :
    Labelled hostPrefix t := by
  refine ⟨hst.hostPrefix.trans hs.hostPrefix, fun which => ?_⟩
  obtain ⟨value, hvalue, -⟩ := hst.stats which
  rw [hvalue]
  exact hs.names which

variable [F64 F]

theorem labelled_new (opts : Options) (events : EventStat) :
    Labelled opts.hostPrefix ({ Stats.new events with
      hostPrefix := opts.hostPrefix, netIface := opts.netdev } : Stats F) := by
  refine ⟨rfl, fun which => ?_⟩
  cases which <;> rfl

theorem updateAggregate_name {stat next : Stat F} (hupdate : stat.updateAggregate = some next) :
    next.name = stat.name := by
  simp only [Stat.updateAggregate, Option.bind_eq_bind, Option.bind_eq_some_iff] at hupdate
  obtain ⟨low, -, high, -, sum, -, hnext⟩ := hupdate
  cases hnext
  rfl

theorem Labelled.updated {now : Moment} (hs : Labelled hostPrefix s)
    (hupdate : s.update now = .done t) : Labelled hostPrefix t := by
  obtain ⟨u, hrefresh, hrest, hidle, hadds⟩ := update_done hupdate
  have hu := hs.refreshed ((refresh_leaves now s).of_done hrefresh)
  by_cases hinRange : u.inRange = true
  · refine ⟨by rw [hrest]; exact hu.hostPrefix, fun which => ?_⟩
    rw [updateAggregate_name (hadds hinRange which)]
    exact hu.names which
  · rw [hidle (by simpa using hinRange)]
    exact hu

theorem Labelled.effect {shown : Option (Mark × (WhichStat → StatValue F))}
    (hs : Labelled hostPrefix s) (heffect : Effect s shown t) : Labelled hostPrefix t := by
  cases heffect with
  | unchanged => exact hs
  | failed hfailed => exact hs.refreshed (update_failed hfailed)
  | ticked hupdate => exact hs.updated hupdate
  | opened hupdate hbegin =>
    have hu := hs.updated hupdate
    obtain rfl := beginRange_done hbegin
    exact ⟨hu.hostPrefix, hu.names⟩
  | closed hupdate hend =>
    have hu := hs.updated hupdate
    obtain rfl := endRange_done hend
    exact ⟨hu.hostPrefix, hu.names⟩

/-- Along every run the labels are those of `STATS_INIT` under the server's prefix. -/
theorem labelled_run {opts : Options} {s₀ u : State F} {es : List (Event F)}
    (hboot : Booted opts s₀) (hrun : Run Step s₀ es u) : Labelled opts.hostPrefix u.stats := by
  refine hrun.always (fun v => Labelled opts.hostPrefix v.stats)
    (fun _ _ _ hv hstep => hv.effect (step_effect hstep)) ?_
  obtain ⟨-, host, events, first, second, -, hboot⟩ := hboot
  rw [boot, andThen_eq_done] at hboot
  obtain ⟨v, hfirst, hsecond⟩ := hboot
  exact ((labelled_new opts events).updated hfirst).updated hsecond

end Labelled

/-! ### The packet -/

section Columns

variable [F64 F]

/-- The label/value pairs of a packet. -/
def packetColumns (s : Stats F) : List (Chars × Chars) :=
  WhichStat.all.flatMap fun which => statColumns s.hostPrefix (s.stats which)

theorem cells_ne_nil (s : Stats F) : cells (packetColumns s) ≠ [] := by
  have hfirst : (s.hostPrefix ++ (s.stats .loadAvg1min).name,
      (s.stats .loadAvg1min).valueNow.display) ∈ packetColumns s :=
    List.mem_flatMap.mpr ⟨.loadAvg1min, WhichStat.mem_all _, List.mem_cons_self⟩
  exact List.ne_nil_of_mem ((mem_cells _).mpr ⟨_, hfirst, .inl rfl⟩)

/-- The last comma makes room for the newline. -/
theorem statPacket_eq (s : Stats F) :
    s.statPacket = joinWith ',' (cells (packetColumns s)) ++ ['\n'] := by
  have hwritten : (WhichStat.all.flatMap fun which => statWritten s.hostPrefix (s.stats which)) =
      (cells (packetColumns s)).flatMap (· ++ [',']) := by
    simp [packetColumns, statWritten, cells, List.flatMap_assoc]
  rw [Stats.statPacket, hwritten, flatMap_terminated ',' (cells_ne_nil s), List.dropLast_concat]

theorem Labelled.columns {hostPrefix : Chars} {s : Stats F} (hs : Labelled hostPrefix s) :
    (packetColumns s).map Prod.fst = labels hostPrefix := by
  have hstat : ∀ which, (statColumns s.hostPrefix (s.stats which)).map Prod.fst =
      kinds.map fun kind => hostPrefix ++ statName which ++ kind := by
    intro which
    rw [hs.hostPrefix]
    simp [statColumns, hs.names, kinds]
  simp only [packetColumns, List.map_flatMap, hstat, labels, SProd.sprod, List.product,
    List.map_map, Function.comp_def]

/-- `f64` values are written with digits, a sign, a point and the names of what is
no number. -/
def WritesFloats (display : F → Chars) : Prop := ∀ v, ∀ c ∈ display v, isFloatChar c = true

omit [F64 F] in
theorem isFloatChar_decimalInt {z : Int} {c : Char} (hc : c ∈ decimalInt z) :
    isFloatChar c = true := by
  unfold decimalInt at hc
  unfold isFloatChar
  split at hc
  · rcases List.mem_cons.mp hc with rfl | hc
    · decide
    · rw [isDigit_of_mem_decimal hc, Bool.true_or]
  · rw [isDigit_of_mem_decimal hc, Bool.true_or]

section Plain

variable {s : Stats F} (hdisplay : WritesFloats (F64.display : F → Chars))
include hdisplay

theorem isFloatChar_display (value : StatValue F) {c : Char} (hc : c ∈ value.display) :
    isFloatChar c = true := by
  cases value with
  | float v => exact hdisplay v c hc
  | int v => exact isFloatChar_decimalInt hc

theorem packet_values {pair : Chars × Chars} (hpair : pair ∈ packetColumns s) {c : Char}
    (hc : c ∈ pair.2) : isFloatChar c = true := by
  obtain ⟨which, -, hpair⟩ := List.mem_flatMap.mp hpair
  simp only [statColumns, List.mem_cons, List.not_mem_nil, or_false] at hpair
  rcases hpair with rfl | rfl | rfl | rfl | rfl | rfl
  · exact isFloatChar_display hdisplay _ hc
  · exact isFloatChar_display hdisplay _ hc
  · exact isFloatChar_display hdisplay _ hc
  · exact hdisplay _ c hc
  · exact isFloatChar_display hdisplay _ hc
  · exact isFloatChar_decimalInt hc

theorem Labelled.plain {hostPrefix : Chars} (hs : Labelled hostPrefix s)
    (hpre : Plain hostPrefix) : ∀ cell ∈ cells (packetColumns s), Plain cell := by
  intro cell hcell
  obtain ⟨pair, hpair, rfl | rfl⟩ := (mem_cells _).mp hcell
  · have hlabel : pair.1 ∈ labels hostPrefix := hs.columns ▸ List.mem_map_of_mem hpair
    obtain ⟨⟨which, kind⟩, hmem, hlabel⟩ := List.mem_map.mp hlabel
    have hkinds : ∀ kind ∈ kinds, Plain kind := by decide
    rw [← hlabel]
    exact (hpre.append (statName_ok which which.mem_all).1).append
      (hkinds kind (List.pair_mem_product.mp hmem).2)
  · exact plain_of_floatChars fun _ hc => packet_values hdisplay hpair hc

/-- A packet is one line of distinct labels with their values. -/
theorem Labelled.packet {hostPrefix : Chars} (hs : Labelled hostPrefix s)
    (hpre : Plain hostPrefix) :
    ∃ body, s.statPacket = body ++ ['\n'] ∧ '\n' ∉ body ∧ body.splitOn ',' = cells (packetColumns s) ∧
      trim isWhitespace s.statPacket = body := by
  have hplain := hs.plain hdisplay hpre
  have hbody : ∀ c, isWhitespace c = true → c ∉ joinWith ',' (cells (packetColumns s)) := by
    intro c hc
    refine notMem_joinWith ?_ fun cell hcell => (hplain cell hcell).notMem (.inr (.inr hc))
    rintro rfl
    cases hc
  refine ⟨_, statPacket_eq s, hbody '\n' (by decide), ?_, ?_⟩
  · exact splitOn_joinWith (cells_ne_nil s) fun cell hcell => (hplain cell hcell).notMem (.inl rfl)
  · rw [statPacket_eq, trim_newline (by decide)]
    exact trim_of_notBlank fun c hc => Bool.eq_false_iff.mpr fun hblank => hbody c hblank hc

end Plain

end Columns

end NdpOffload.Statmon.Packet
