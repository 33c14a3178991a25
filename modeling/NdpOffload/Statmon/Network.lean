import Mathlib.Data.List.Nodup
import Mathlib.Data.List.OfFn
import NdpOffload.Statmon.Assignments
import NdpOffload.Statmon.Telescoping

/-! `upd_net` on what the kernel prints in `/proc/net/dev`: two header lines and
one line per interface, with sixteen counters after its name. -/
namespace NdpOffload.Statmon.Network

open Library.Outcomes Library.Runs Library.Text
open Table Sources Monitor Assignments Telescoping

/-- One interface's line.  Column `k` of the file is counter `k - 1`. -/
structure Iface where
  name : Chars
  indent : Nat
  gaps : Fin 16 → Nat
  counters : Fin 16 → Nat
  name_word : IsWord isWhitespace name
  name_colon : ':' ∉ name
  counters_lt : ∀ i, counters i < 2 ^ 63

def Iface.columns (iface : Iface) : List (Nat × Chars) :=
  List.ofFn fun i => (iface.gaps i + 1, decimal (iface.counters i))

def Iface.label (iface : Iface) : Chars := iface.name ++ [':']

def Iface.line (iface : Iface) : Chars := padded ((iface.indent, iface.label) :: iface.columns)

structure NetDev where
  header : Chars
  columnNames : Chars
  ifaces : List Iface
  headers_ok : ∀ c ∈ header ++ columnNames, c ≠ ':' ∧ c ≠ '\n' ∧ c ≠ '\r'
  distinct : (ifaces.map Iface.name).Nodup

def NetDev.lines (dev : NetDev) : List Chars :=
  dev.header :: dev.columnNames :: dev.ifaces.map Iface.line

def NetDev.text (dev : NetDev) : Chars := unlines dev.lines

/-! ### One line -/

section Line

variable (iface : Iface)

theorem label_word : IsWord isWhitespace iface.label := by
  refine ⟨by simp [Iface.label], fun c hc => ?_⟩
  rcases List.mem_append.mp hc with hname | hcolon
  · exact iface.name_word.2 c hname
  · cases List.mem_singleton.mp hcolon
    decide

theorem columns_word : ∀ cell ∈ iface.columns, 0 < cell.1 ∧ IsWord isWhitespace cell.2 := by
  intro cell hcell
  obtain ⟨i, rfl⟩ := List.mem_ofFn.mp hcell
  exact ⟨Nat.succ_pos _, isWord_decimal (fun _ => isDigit_of_isWhitespace) _⟩

theorem trim_line : trim isWhitespace iface.line = padded ((0, iface.label) :: iface.columns) :=
  trim_padded (by decide) (label_word iface) fun cell hcell => (columns_word iface cell hcell).2

theorem words_line : words isWhitespace (padded ((0, iface.label) :: iface.columns)) =
    iface.label :: List.ofFn fun i => decimal (iface.counters i) := by
  rw [words_padded (by decide) (label_word iface) (columns_word iface), Iface.columns,
    List.map_ofFn]
  rfl

theorem notMem_line {c : Char} (hc : isWhitespace c = true) (hspace : c ≠ ' ') :
    c ∉ iface.line := by
  apply notMem_padded hspace
  intro cell hcell hmem
  have hword : IsWord isWhitespace cell.2 := by
    rcases List.mem_cons.mp hcell with rfl | htail
    · exact label_word iface
    · exact (columns_word iface cell htail).2
  rw [hword.2 c hmem] at hc
  cases hc

/-- The label ends at the first colon, so only one interface has it. -/
theorem name_of_prefix {other : Iface}
    (hpre : iface.label <+: padded ((0, other.label) :: other.columns)) :
    iface.name = other.name := by
  have hname : ∀ (i : Iface) (rest : Chars),
      (i.label ++ rest).takeWhile (· ≠ ':') = i.name := by
    intro i rest
    rw [Iface.label, List.append_assoc, List.takeWhile_append_of_pos]
    · simp
    · intro c hc
      have hne : c ≠ ':' := fun h => i.name_colon (h ▸ hc)
      simp [hne]
  obtain ⟨rest, hrest⟩ := hpre
  have hsame := congrArg (List.takeWhile (· ≠ ':')) hrest
  rw [hname] at hsame
  rw [hsame]
  exact hname other (padded other.columns)

end Line

theorem find?_of_unique {α : Type*} {p : α → Bool} {l : List α} {x : α} (hmem : x ∈ l)
    (hx : p x = true) (hunique : ∀ y ∈ l, p y = true → y = x) : l.find? p = some x := by
  cases hfind : l.find? p with
  | none => exact absurd hx (List.find?_eq_none.mp hfind x hmem)
  | some y => rw [hunique y (List.mem_of_find?_eq_some hfind) (List.find?_some hfind)]

/-- The search by prefix finds the line of the interface and no other. -/
theorem find_line (dev : NetDev) {iface : Iface} (hmem : iface ∈ dev.ifaces) :
    ((lines dev.text).map (trim isWhitespace)).find? (iface.label.isPrefixOf ·) =
      some (padded ((0, iface.label) :: iface.columns)) := by
  have hclean : ∀ piece ∈ dev.lines, '\n' ∉ piece ∧ '\r' ∉ piece := by
    intro piece hpiece
    simp only [NetDev.lines, List.mem_cons, List.mem_map] at hpiece
    rcases hpiece with rfl | rfl | ⟨other, _, rfl⟩
    · exact ⟨fun h => (dev.headers_ok _ (List.mem_append_left _ h)).2.1 rfl,
        fun h => (dev.headers_ok _ (List.mem_append_left _ h)).2.2 rfl⟩
    · exact ⟨fun h => (dev.headers_ok _ (List.mem_append_right _ h)).2.1 rfl,
        fun h => (dev.headers_ok _ (List.mem_append_right _ h)).2.2 rfl⟩
    · exact ⟨notMem_line other (by decide) (by decide), notMem_line other (by decide) (by decide)⟩
  have hlines : lines dev.text = dev.lines := by
    apply lines_unlines
    · exact fun piece hpiece => (hclean piece hpiece).1
    · intro piece hpiece
      exact chomp_of_notMem (hclean piece hpiece).2
  have hheader : ∀ text : Chars, (∀ c ∈ text, c ≠ ':') →
      ¬ iface.label.isPrefixOf (trim isWhitespace text) = true := by
    intro text htext hpre
    have hcolon : ':' ∈ trim isWhitespace text :=
      (List.isPrefixOf_iff_prefix.mp hpre).subset (by simp [Iface.label])
    exact htext _ (mem_of_mem_trim hcolon) rfl
  rw [hlines]
  apply find?_of_unique
  · refine List.mem_map.mpr ⟨iface.line, ?_, trim_line iface⟩
    simp only [NetDev.lines, List.mem_cons]
    exact .inr (.inr (List.mem_map_of_mem hmem))
  · rw [List.isPrefixOf_iff_prefix]
    exact ⟨padded iface.columns, rfl⟩
  · intro found hfound hpre
    obtain ⟨piece, hpiece, rfl⟩ := List.mem_map.mp hfound
    simp only [NetDev.lines, List.mem_cons, List.mem_map] at hpiece
    rcases hpiece with rfl | rfl | ⟨other, hother, rfl⟩
    · exact absurd hpre (hheader _ fun c hc => (dev.headers_ok c (List.mem_append_left _ hc)).1)
    · exact absurd hpre (hheader _ fun c hc => (dev.headers_ok c (List.mem_append_right _ hc)).1)
    · rw [trim_line] at hpre ⊢
      have hname := name_of_prefix iface (List.isPrefixOf_iff_prefix.mp hpre)
      rw [List.inj_on_of_nodup_map dev.distinct hother hmem hname.symm]

/-! ### The columns -/

variable {F : Type}

/-- Before the file is open the monitor has the name it was given, afterwards the
label it searches for. -/
def Watches (s : Stats F) (iface : Iface) : Prop :=
  s.netIface = if s.netOpen then iface.label else iface.name

/-- Four raw values, one for each network statistic. -/
structure Columns where
  rxBytes : Int64
  rxErrors : Int64
  txBytes : Int64
  txErrors : Int64

/-- The columns 1, 3, 9 and 11 of the interface's line. -/
def Iface.raw (iface : Iface) : Columns where
  rxBytes := Int64.ofNat (iface.counters 0)
  rxErrors := Int64.ofNat (iface.counters 2)
  txBytes := Int64.ofNat (iface.counters 8)
  txErrors := Int64.ofNat (iface.counters 10)

/-- What `upd_net` takes for them: column 10 in the place of column 11. -/
def Iface.taken (iface : Iface) : Columns :=
  { iface.raw with txErrors := Int64.ofNat (iface.counters 9) }

def references (s : Stats F) : Columns := ⟨s.netRxRef, s.netRxeRef, s.netTxRef, s.netTxeRef⟩

/-- The four network statistics are the increases of the columns 1, 3, 9 and 11 since
`old`, and these columns are the new references. -/
structure NetRight (iface : Iface) (old : Columns) (t : Stats F) : Prop where
  rx : (t.stats .netRxBytes).valueNow = .int (iface.raw.rxBytes - old.rxBytes)
  rxe : (t.stats .netRxErrors).valueNow = .int (iface.raw.rxErrors - old.rxErrors)
  tx : (t.stats .netTxBytes).valueNow = .int (iface.raw.txBytes - old.txBytes)
  txe : (t.stats .netTxErrors).valueNow = .int (iface.raw.txErrors - old.txErrors)
  refs : references t = iface.raw

theorem netColumn_of_field {fields : List Chars} {column : Nat} {n : Nat}
    (hfield : fields[column]? = some (decimal n)) (hn : n < 2 ^ 63) (which : WhichStat)
    (ref : Stats F → Int64) (setRef : Int64 → Stats F → Stats F) (s : Stats F) :
    netColumn fields column which ref setRef s =
      .done (setRef (Int64.ofNat n) (s.seti which (Int64.ofNat n - ref s))) := by
  unfold netColumn
  rw [hfield]
  simp only [parseI64_decimal_of_lt hn]

/-- What `upd_net` makes of a state: column 10 in the place of column 11. -/
def readColumns (iface : Iface) (s : Stats F) : Stats F :=
  let rx := Int64.ofNat (iface.counters 0)
  let rxe := Int64.ofNat (iface.counters 2)
  let tx := Int64.ofNat (iface.counters 8)
  let txp := Int64.ofNat (iface.counters 9)
  { (((s.seti .netRxBytes (rx - s.netRxRef)).seti .netRxErrors (rxe - s.netRxeRef)).seti
      .netTxBytes (tx - s.netTxRef)).seti .netTxErrors (txp - s.netTxeRef) with
    netRxRef := rx, netRxeRef := rxe, netTxRef := tx, netTxeRef := txp }

theorem parseNet_text (dev : NetDev) (iface : Iface) (hmem : iface ∈ dev.ifaces) (s : Stats F)
    (hlabel : s.netIface = iface.label) :
    s.parseNet dev.text = .done (readColumns iface s) := by
  have hfields : ∀ (i : Fin 16) (column : Nat), column = i.val + 1 →
      (iface.label :: List.ofFn fun i => decimal (iface.counters i))[column]? =
        some (decimal (iface.counters i)) := by
    rintro i _ rfl
    rw [List.getElem?_cons_succ, List.getElem?_ofFn, dif_pos i.isLt]
  have hrx := netColumn_of_field (F := F) (hfields 0 1 rfl) (iface.counters_lt 0)
  have hrxe := netColumn_of_field (F := F) (hfields 2 3 rfl) (iface.counters_lt 2)
  have htx := netColumn_of_field (F := F) (hfields 8 9 rfl) (iface.counters_lt 8)
  have htxe := netColumn_of_field (F := F) (hfields 9 10 rfl) (iface.counters_lt 9)
  unfold Stats.parseNet
  rw [hlabel, find_line dev hmem]
  simp only [words_line]
  rw [Stats.netRx, hrx, andThen_done, Stats.netRxe, hrxe, andThen_done, Stats.netTx, htx,
    andThen_done, Stats.netTxe, htxe, andThen_done, if_neg (by simp)]
  simp only [readColumns, Stats.seti, Stats.setNow]

/-- A call succeeds on every file of the kernel that lists the interface.  Afterwards
the search string is complete, whether it was before or not. -/
theorem updNet_text (dev : NetDev) (iface : Iface) (hmem : iface ∈ dev.ifaces) {s : Stats F}
    (hwatches : Watches s iface) {source : Source} (hopens : s.netOpen = true ∨ source.opens = true)
    (htext : source.text = some dev.text) :
    s.updNet source = .done (readColumns iface
      { s with netOpen := true, netRewound := true, netIface := iface.label }) := by
  unfold Watches at hwatches
  unfold Stats.updNet
  cases hopen : s.netOpen with
  | true =>
    rw [hopen, if_pos rfl] at hwatches
    rw [if_pos rfl, readSource_of_text (.inl rfl) htext, ← hwatches, ← hopen]
    exact parseNet_text dev iface hmem _ hwatches
  | false =>
    rw [hopen, if_neg (by decide)] at hwatches
    have hopens := hopens.resolve_left (by simp [hopen])
    rw [if_neg (by decide), if_neg (by simp [hwatches, iface.name_word.1]),
      readSource_of_text (.inr hopens) htext, hwatches]
    exact parseNet_text dev iface hmem _ rfl

/-! ### Runs of calls -/

/-- What only the network phase changes. -/
def netParts (s : Stats F) : Bool × Chars × Int64 × Int64 × Int64 × Int64 :=
  (s.netOpen, s.netIface, netRefs s)

/-- A call of `upd_net`: what it reads, with the line of the monitored interface. -/
structure Call where
  source : Source
  dev : NetDev
  iface : Iface
  shows : source.text = some dev.text
  listed : iface ∈ dev.ifaces

/-- A call that succeeds, after whatever the monitor does between two calls. -/
inductive CallStep : Stats F → Call → Stats F → Prop where
  | mk {s u t : Stats F} {call : Call} :
      netParts u = netParts s → u.updNet call.source = .done t → CallStep s call t

/-- A monitor of the interface `name` that has read the line `last` in its last call,
`none` before the first one. -/
structure LeftBy (name : Chars) (last : Option Iface) (s : Stats F) : Prop where
  netIface : s.netIface = if s.netOpen then name ++ [':'] else name
  refs : references s = (last.map Iface.taken).getD ⟨0, 0, 0, 0⟩

section Calls

variable {name : Chars} {last : Option Iface} {s t u : Stats F}

theorem LeftBy.of_same (hs : LeftBy name last s) (hsame : netParts t = netParts s) :
    LeftBy name last t := by
  simp only [netParts, netRefs, Prod.mk.injEq] at hsame
  obtain ⟨hopen, hiface, hrx, hrxe, htx, htxe⟩ := hsame
  refine ⟨by rw [hopen, hiface, hs.netIface], ?_⟩
  rw [← hs.refs, references, references, hrx, hrxe, htx, htxe]

theorem LeftBy.watches (hs : LeftBy name last s) {iface : Iface} (hname : iface.name = name) :
    Watches s iface := by
  rw [Watches, Iface.label, hname]
  exact hs.netIface

theorem leftBy_readColumns {iface : Iface} (hname : iface.name = name) (s : Stats F) :
    LeftBy name (some iface) (readColumns iface
      { s with netOpen := true, netRewound := true, netIface := iface.label }) := by
  refine ⟨?_, rfl⟩
  rw [← hname]
  rfl

theorem LeftBy.step (hs : LeftBy name last s) {call : Call} (hname : call.iface.name = name)
    (hstep : CallStep s call t) : LeftBy name (some call.iface) t := by
  cases hstep with
  | mk hsame hdone =>
    rename_i u
    have hopens : u.netOpen = true ∨ call.source.opens = true := by
      by_contra hneither
      simp only [not_or, Bool.not_eq_true] at hneither
      simp [Stats.updNet, readSource, hneither.1, hneither.2] at hdone
    have hwatches := (hs.of_same hsame).watches hname
    rw [updNet_text call.dev call.iface call.listed hwatches hopens call.shows] at hdone
    cases hdone
    exact leftBy_readColumns hname u

theorem LeftBy.run (hs : LeftBy name none s) {calls : List Call}
    (hnames : ∀ call ∈ calls, call.iface.name = name) (hrun : Run CallStep s calls t) :
    LeftBy name (calls.getLast?.map Call.iface) t := by
  refine hrun.history_start
    (fun past u => (∀ call ∈ past, call.iface.name = name) →
      LeftBy name (past.getLast?.map Call.iface) u) ?_ (fun _ => hs) hnames
  intro past u call v hu hstep hpast
  have hbefore := hu fun c hc => hpast c (List.mem_append_left _ hc)
  simpa using hbefore.step (hpast call (by simp)) hstep

theorem ofNat_inj {a b : Nat} (ha : a < 2 ^ 63) (hb : b < 2 ^ 63)
    (heq : Int64.ofNat a = Int64.ofNat b) : a = b := by
  have hint := congrArg Int64.toInt heq
  rw [Int64.toInt_ofNat_of_lt ha, Int64.toInt_ofNat_of_lt hb] at hint
  omega

/-- The new references are right with the column of this line, the increase also needs
that of the line before. -/
theorem netRight_readColumns (iface : Iface)
    (hrefs : references s = (last.map Iface.taken).getD ⟨0, 0, 0, 0⟩) :
    NetRight iface ((last.map Iface.raw).getD ⟨0, 0, 0, 0⟩) (readColumns iface s) ↔
      iface.counters 9 = iface.counters 10 ∧ ∀ prev ∈ last, prev.counters 9 = prev.counters 10 := by
  have hshown : ((readColumns iface s).stats .netTxErrors).valueNow =
      .int (Int64.ofNat (iface.counters 9) - s.netTxeRef) := by
    simp [readColumns, Stat.setNow]
  constructor
  · intro hright
    have hsame : iface.counters 9 = iface.counters 10 :=
      ofNat_inj (iface.counters_lt 9) (iface.counters_lt 10) (congrArg Columns.txErrors hright.refs)
    refine ⟨hsame, fun prev hprev => ?_⟩
    cases hprev
    have htxe := hright.txe
    rw [hshown, StatValue.int.injEq] at htxe
    have hold : s.netTxeRef = Int64.ofNat (prev.counters 9) := congrArg Columns.txErrors hrefs
    simp only [Option.map_some, Option.getD_some, Iface.raw, hold, hsame,
      Int64.sub_right_inj] at htxe
    exact ofNat_inj (prev.counters_lt 9) (prev.counters_lt 10) htxe
  · rintro ⟨hsame, hprev⟩
    have hold : references s = (last.map Iface.raw).getD ⟨0, 0, 0, 0⟩ := by
      rw [hrefs]
      cases last with
      | none => rfl
      | some prev => simp [Iface.taken, Iface.raw, hprev prev rfl]
    rw [← hold]
    refine ⟨?_, ?_, ?_, ?_, ?_⟩
    · simp [readColumns, Stat.setNow, references, Iface.raw]
    · simp [readColumns, Stat.setNow, references, Iface.raw]
    · simp [readColumns, Stat.setNow, references, Iface.raw]
    · rw [hshown, hsame]
      rfl
    · simp [readColumns, references, Iface.raw, hsame]

end Calls

/-- From a new monitor on, after any calls and whatever else the monitor does: the next
call succeeds on every file of the kernel that lists the interface, and it is right
exactly when in this file, and in that of the call before if there was one, as many
packets were transmitted as there were errors in transmitting. -/
theorem updNet_right_iff (calls : List Call) (call : Call) {name : Chars} {s u v : Stats F}
    (hclosed : s.netOpen = false) (hiface : s.netIface = name)
    (hzero : references s = ⟨0, 0, 0, 0⟩) (hrun : Run CallStep s calls u)
    (hnames : ∀ c ∈ calls ++ [call], c.iface.name = name) (hsame : netParts v = netParts u)
    (hopens : v.netOpen = true ∨ call.source.opens = true) :
    ∃ t, v.updNet call.source = .done t ∧
      (NetRight call.iface ((calls.getLast?.map fun prev => prev.iface.raw).getD ⟨0, 0, 0, 0⟩) t ↔
        call.iface.counters 9 = call.iface.counters 10 ∧
          ∀ prev ∈ calls.getLast?, prev.iface.counters 9 = prev.iface.counters 10) := by
  have hnew : LeftBy name none s := ⟨by rw [hclosed, hiface]; rfl, hzero⟩
  have hv : LeftBy name (calls.getLast?.map Call.iface) v :=
    (hnew.run (fun c hc => hnames c (List.mem_append_left _ hc)) hrun).of_same hsame
  have hname : call.iface.name = name := hnames call (by simp)
  refine ⟨_, updNet_text call.dev call.iface call.listed (hv.watches hname) hopens call.shows, ?_⟩
  have hright := netRight_readColumns call.iface
    (s := { v with netOpen := true, netRewound := true, netIface := call.iface.label }) hv.refs
  simpa [Option.map_map, Function.comp_def] using hright

/-! ### The file in the comment -/

/-- The loopback line that the comment in `upd_net` shows. -/
def loopback : Iface where
  name := "lo".toList
  indent := 4
  gaps := fun _ => 0
  counters := fun i => if i = 0 ∨ i = 8 then 16445201 else if i = 1 ∨ i = 9 then 19918 else 0
  name_word := ⟨by decide, by decide⟩
  name_colon := by decide
  counters_lt := by decide

/-- An interface that nothing was sent on. -/
def unused : Iface where
  name := "lo1".toList
  indent := 3
  gaps := fun _ => 6
  counters := fun _ => 0
  name_word := ⟨by decide, by decide⟩
  name_colon := by decide
  counters_lt := by decide

def procNetDev : NetDev where
  header := "Inter-|   Receive                    |  Transmit".toList
  columnNames := " face |bytes    packets errs drop fifo frame compressed multicast|bytes".toList
  ifaces := [loopback, unused]
  headers_ok := by decide +kernel
  distinct := by decide

/-- A monitor of the given interface before its first update. -/
def monitorOf (iface : Iface) : Stats Int :=
  { Stats.new Ranges.quietEvents with netIface := iface.name }

def unusedCall : Call where
  source := ⟨true, some procNetDev.text⟩
  dev := procNetDev
  iface := unused
  shows := rfl
  listed := List.mem_cons_of_mem loopback (List.mem_singleton_self unused)

/-- The second of two calls. -/
theorem updNet_right_unused :
    ∃ u t, (monitorOf unused).updNet unusedCall.source = .done u ∧
      u.updNet unusedCall.source = .done t ∧ NetRight unused unused.raw t := by
  obtain ⟨u, hu, -⟩ := updNet_right_iff [] unusedCall (s := monitorOf unused) rfl rfl rfl
    (.nil _) (by simp [unusedCall, monitorOf]) rfl (.inr rfl)
  obtain ⟨t, ht, hright⟩ := updNet_right_iff [unusedCall] unusedCall (s := monitorOf unused) rfl rfl
    rfl (run_singleton_iff.mpr (.mk rfl hu)) (by simp [unusedCall, monitorOf]) rfl (.inr rfl)
  exact ⟨u, t, hu, ht, hright.mpr ⟨rfl, fun prev hprev => by cases hprev; rfl⟩⟩

/-- On the file of the comment 19918 packets without an error count as 19918
transmission errors. -/
theorem packets_counted_as_errors :
    ∃ t, (monitorOf loopback).updNet ⟨true, some procNetDev.text⟩ = .done t ∧
      (t.stats .netTxErrors).valueNow = .int 19918 ∧ t.netTxeRef = 19918 ∧
      loopback.counters 10 = 0 ∧ ¬ NetRight loopback ⟨0, 0, 0, 0⟩ t := by
  have hdone := updNet_text procNetDev loopback List.mem_cons_self
    (s := monitorOf loopback) rfl (.inr rfl)
    (show (⟨true, some procNetDev.text⟩ : Source).text = some procNetDev.text from rfl)
  refine ⟨_, hdone, rfl, rfl, rfl, fun hright => ?_⟩
  have htxe := congrArg Columns.txErrors hright.refs
  exact absurd (congrArg Int64.toInt htxe) (by decide)

end NdpOffload.Statmon.Network
