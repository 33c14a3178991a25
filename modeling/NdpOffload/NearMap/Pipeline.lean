import Mathlib.Data.Set.Card
import NdpOffload.Library.Segments
import NdpOffload.NearMap.FirstPhase

/-! From the accesses of a program to the rows of the summary.  The markers cut a
run into segments, and each row counts pages of one segment: the sets below say
which, without the clock, the page map or the log.  Only the row of the first segment
takes its pages for more than they are. -/
namespace NdpOffload.NearMap.Pipeline

open Library.Runs Library.Segments Library.Text Tool Analyse Classification Figures FirstPhase
  RoundTrip

/-! ### The pages behind the figures -/

section Pages

variable (log2 : UInt64) (segments : List (List Event)) (i : Nat)

/-- The pages that segment `i` reads, or those that it writes. -/
def pagesOf (kind : Kind) : Set UInt64 :=
  {page | ∃ segment, segments[i]? = some segment ∧ Touched log2 kind page segment}

def touchedPages : Set UInt64 := {page | ∃ kind, page ∈ pagesOf log2 segments i kind}

/-- Read in no later segment. -/
def unreadPages : Set UInt64 := {page | ∀ j, i < j → page ∉ pagesOf log2 segments j .read}

/-- Touched in no earlier segment. -/
def freshPages : Set UInt64 := {page | ∀ j < i, page ∉ touchedPages log2 segments j}

end Pages

/-- The bytes of a set of pages as the analyser computes them, modulo `2^64`. -/
noncomputable def bytesOf (log2 : UInt64) (pages : Set UInt64) : UInt64 :=
  UInt64.ofNat (pages.ncard * 2 ^ log2.toNat)

/-- The figures of segment `i` of a run, if these are the pages read and written in it. -/
noncomputable def segmentRow (log2 : UInt64) (path : Chars) (es : List Event) (i : Nat)
    (read written : Set UInt64) : Row :=
  let segments := es.splitOnP Event.isPhase
  { path := path
    name := ("pre-main".toList :: es.filterMap phaseName).getD i []
    pageSize := UInt64.ofNat (2 ^ log2.toNat)
    readBytes := bytesOf log2 read
    writtenBytes := bytesOf log2 written
    deadBytes := bytesOf log2 (written ∩ unreadPages log2 segments i)
    newBytes := bytesOf log2 (read ∩ freshPages log2 segments i)
    ioBytes := total ioBytes (segments.getD i [])
    instructions := total insns (segments.getD i []) }

/-- The row that the accesses of a segment determine. -/
noncomputable def summaryRow (log2 : UInt64) (path : Chars) (es : List Event) (i : Nat) : Row :=
  segmentRow log2 path es i (pagesOf log2 (es.splitOnP Event.isPhase) i .read)
    (pagesOf log2 (es.splitOnP Event.isPhase) i .write)

/-- The row that the first segment gets: the tool writes both letters at each page touched
in it, so these pages stand for those read and for those written. -/
noncomputable def firstRow (log2 : UInt64) (path : Chars) (es : List Event) : Row :=
  segmentRow log2 path es 0 (touchedPages log2 (es.splitOnP Event.isPhase) 0)
    (touchedPages log2 (es.splitOnP Event.isPhase) 0)

/-- One row before the first marker and one behind each. -/
noncomputable def summaryRows (log2 : UInt64) (path : Chars) (es : List Event) : List Row :=
  firstRow log2 path es :: (List.range' 1 (es.countP Event.isPhase)).map (summaryRow log2 path es)

/-- Where the first segment reads the pages that it writes, its row is no exception. -/
theorem firstRow_eq {log2 : UInt64} {es : List Event}
    (hsame : pagesOf log2 (es.splitOnP Event.isPhase) 0 .read =
      pagesOf log2 (es.splitOnP Event.isPhase) 0 .write) (path : Chars) :
    firstRow log2 path es = summaryRow log2 path es 0 := by
  have htouched : ∀ kind, touchedPages log2 (es.splitOnP Event.isPhase) 0 =
      pagesOf log2 (es.splitOnP Event.isPhase) 0 kind := by
    intro kind
    ext page
    refine ⟨fun ⟨other, hpage⟩ => ?_, fun hpage => ⟨kind, hpage⟩⟩
    cases kind <;> cases other <;> first | exact hpage | exact hsame ▸ hpage
  unfold firstRow summaryRow
  rw [← htouched .read, ← htouched .write]

/-! ### What the phases of the log hold -/

section Logged

variable (log2 : UInt64) (segments : List (List Event)) (i : Nat)

/-- The pages that the log shows under a kind: in the first segment, all that were touched. -/
def loggedPages (kind : Kind) : Set UInt64 :=
  if i = 0 then touchedPages log2 segments i else pagesOf log2 segments i kind

variable {log2 segments i}

theorem loggedPages_pos (hpos : 0 < i) (kind : Kind) :
    loggedPages log2 segments i kind = pagesOf log2 segments i kind :=
  if_neg (Nat.ne_of_gt hpos)

/-- Which pages were touched is right in the first segment, too. -/
theorem exists_loggedPages {page : UInt64} :
    (∃ kind, page ∈ loggedPages log2 segments i kind) ↔ page ∈ touchedPages log2 segments i := by
  unfold loggedPages
  split
  · exact ⟨fun ⟨_, hpage⟩ => hpage, fun hpage => ⟨.read, hpage⟩⟩
  · exact Iff.rfl

theorem mem_loggedPages {segment : List Event} (hsegment : segments[i]? = some segment)
    (kind : Kind) (page : UInt64) : page ∈ loggedPages log2 segments i kind ↔
      if i = 0 then ∃ other, Touched log2 other page segment
      else Touched log2 kind page segment := by
  unfold loggedPages touchedPages pagesOf
  split <;> simp [hsegment]

end Logged

/-! ### The trace lines of one marker -/

/-- Some line shows the page with the letter of this kind. -/
def Shown (traces : List TraceLine) (kind : Kind) (page : UInt64) : Prop :=
  ∃ line ∈ traces, line.pageIdx = page ∧ letter kind line = true

/-- The trace lines in the output of a marker are those of the page map. -/
theorem traces_of_call {name : Chars} {r t : State} (hcall : Step r (.phaseStub name) t)
    {traces : List TraceLine} {pageSize : Int32}
    {instructions bytes uniqRO uniqRW uniqWO sum : UInt64}
    (hout : t.out = r.out ++ .phase pageSize r.phaseStart t.currTime name instructions bytes ::
      (traces.map .trace ++ [.summary uniqRO uniqRW uniqWO sum])) :
    ∃ accesses : List Entry, accesses.Perm r.pageLastAccesses.entries ∧
      traces = accesses.filterMap (traceOf r.phaseStart (r.currTime + 1)) := by
  cases hcall with
  | phaseStub _ accesses hperm =>
    refine ⟨accesses, hperm, ?_⟩
    simp only [phaseStubReplacement, phaseOutput_eq] at hout
    have hblock := List.append_cancel_left hout
    have hlines := (List.append_inj' (List.cons.inj hblock).2 rfl).1
    have hinjective : Function.Injective LogLine.trace := fun _ _ => LogLine.trace.inj
    exact (List.map_injective_iff.mpr hinjective hlines).symm

theorem shown_iff {log2 : UInt64} {past during : List Event} {r : State} {accesses : List Entry}
    (hclocked : Clocked log2 past r) (hcurrent : Current log2 during r)
    (hlength : past.length + 1 < 2 ^ 64) (hperm : accesses.Perm r.pageLastAccesses.entries)
    (kind : Kind) (page : UInt64) :
    Shown (accesses.filterMap (traceOf r.phaseStart (r.currTime + 1))) kind page ↔
      Touched log2 kind page during := by
  obtain ⟨hpages, hletters⟩ := traces_exact hclocked hcurrent hlength hperm
  have hletter : ∀ line ∈ accesses.filterMap (traceOf r.phaseStart (r.currTime + 1)),
      letter kind line = true ↔ Touched log2 kind line.pageIdx during := by
    intro line hline
    cases kind with
    | read => exact (hletters line hline).1
    | write => exact (hletters line hline).2
  constructor
  · rintro ⟨line, hline, rfl, hshown⟩
    exact (hletter line hline).mp hshown
  · intro htouched
    obtain ⟨line, hline, rfl⟩ := List.mem_map.mp ((hpages page).mpr ⟨kind, htouched⟩)
    exact ⟨line, hline, rfl, (hletter line hline).mpr htouched⟩

/-- A marker behind a segment that no marker opens shows all pages of it twice. -/
theorem shown_first_iff {log2 : UInt64} {es : List Event} {name : Chars} {r t : State}
    (hlog2 : log2.toNat ≤ 31) (hok : ∀ e ∈ es, EventOk e) (hquiet : ∀ e ∈ es, e.isPhase = false)
    (hlength : es.length + 1 < 2 ^ 64) (hrun : Run Step (start log2) es r)
    (hcall : Step r (.phaseStub name) t) {traces : List TraceLine} {pageSize : Int32}
    {instructions bytes uniqRO uniqRW uniqWO sum : UInt64}
    (hout : t.out = r.out ++ .phase pageSize r.phaseStart t.currTime name instructions bytes ::
      (traces.map .trace ++ [.summary uniqRO uniqRW uniqWO sum])) (kind : Kind) (page : UInt64) :
    Shown traces kind page ↔ ∃ other, Touched log2 other page es := by
  have hopening : Opening log2 es r := by
    simpa using opening_run hlog2 hrun (opening_start log2) hok hquiet (by simp; omega)
  rw [← reported_iff hopening hlength hcall kind page]
  have hlines : ∀ line, .trace line ∈ t.out ↔ line ∈ traces :=
    hopening.trace_mem (fun _ => LogLine.noConfusion) (fun _ => LogLine.noConfusion) hout
  simp only [Shown, Reported, hlines]

/-- Behind any other segment it shows them as they were touched. -/
theorem shown_later_iff {log2 : UInt64} {before during : List Event} {opener name : Chars}
    {r t : State} (hlog2 : log2.toNat ≤ 31) (hok : ∀ e ∈ before ++ during, EventOk e)
    (hquiet : ∀ e ∈ during, e.isPhase = false)
    (hlength : before.length + 1 + during.length + 1 < 2 ^ 64)
    (hrun : Run Step (start log2) (before ++ .phaseStub opener :: during) r)
    (hcall : Step r (.phaseStub name) t) {traces : List TraceLine} {pageSize : Int32}
    {instructions bytes uniqRO uniqRW uniqWO sum : UInt64}
    (hout : t.out = r.out ++ .phase pageSize r.phaseStart t.currTime name instructions bytes ::
      (traces.map .trace ++ [.summary uniqRO uniqRW uniqWO sum])) (kind : Kind) (page : UInt64) :
    Shown traces kind page ↔ Touched log2 kind page during := by
  obtain ⟨hclocked, hcurrent⟩ := current_of_run hlog2 hok hquiet (by omega) hrun
  obtain ⟨accesses, hperm, rfl⟩ := traces_of_call hcall hout
  exact shown_iff hclocked hcurrent (by simp; omega) hperm kind page

/-! ### What the analyser makes of them -/

def countsAs : Kind → AccessType → Bool
  | .read => isRead
  | .write => isWrite

theorem letter_iff (kind : Kind) (line : TraceLine) :
    letter kind line = true ↔ ∃ accessty,
      AccessType.tryFromRw line.didRead line.didWrite = some accessty ∧
        countsAs kind accessty = true := by
  cases kind with
  | read => exact didRead_iff line
  | write => exact didWrite_iff line

/-- The entry of a page in the phase that a marker closes shows the letters of
the page's trace line. -/
theorem any_accessIn_iff {phases : List TracePhase} {i : Nat} {phase : TracePhase}
    {traces : List TraceLine} (hphase : phases[i]? = some phase)
    (hlookup : ∀ page accessty, phase.accesses.lookup page = some accessty ↔
      ∃ line ∈ traces, line.pageIdx = page ∧
        AccessType.tryFromRw line.didRead line.didWrite = some accessty)
    (kind : Kind) (page : UInt64) :
    (accessIn phases i page).any (countsAs kind) = true ↔ Shown traces kind page := by
  simp only [Option.any_eq_true, accessIn, hphase, Option.bind_some, hlookup, Shown, letter_iff]
  constructor
  · rintro ⟨accessty, ⟨line, hline, hpage, htype⟩, hcounts⟩
    exact ⟨line, hline, hpage, accessty, htype, hcounts⟩
  · rintro ⟨line, hline, hpage, accessty, htype, hcounts⟩
    exact ⟨accessty, ⟨line, hline, hpage, htype⟩, hcounts⟩

theorem accessIn_eq_none_iff {phases : List TracePhase} {i : Nat} {page : UInt64} :
    accessIn phases i page = none ↔
      ∀ kind, ¬ (accessIn phases i page).any (countsAs kind) = true := by
  cases haccess : accessIn phases i page with
  | none => simp
  | some accessty =>
    simp only [reduceCtorEq, false_iff, not_forall, not_not, Option.any_some]
    cases accessty with
    | read => exact ⟨.read, rfl⟩
    | write => exact ⟨.write, rfl⟩
    | readWrite => exact ⟨.read, rfl⟩

/-! ### Whole runs -/

section Whole

variable {log2 : UInt64} {es : List Event} {s : State} {st : Parsed}

/-- The run up to the marker that closes a segment, and from there. -/
structure Closing (log2 : UInt64) (es : List Event) (s : State) (i : Nat)
    (segment front : List Event) (name : Chars) (after : List Event) (r t : State) : Prop where
  split : es ++ [.phaseStub finiName] = front ++ segment ++ .phaseStub name :: after
  before : Run Step (start log2) (front ++ segment) r
  call : Step r (.phaseStub name) t
  behind : Run Step t after s
  count : front.countP Event.isPhase = i
  quiet : ∀ e ∈ segment, e.isPhase = false
  opens : Opens Event.isPhase front

theorem exists_name {e : Event} (he : e.isPhase = true) : ∃ name, e = .phaseStub name := by
  cases e with
  | phaseStub name => exact ⟨name, rfl⟩
  | _ => cases he

theorem exists_closing (hrun : Run Step (start log2) (es ++ [.phaseStub finiName]) s) {i : Nat}
    {segment : List Event} (hsegment : (es.splitOnP Event.isPhase)[i]? = some segment) :
    ∃ front name after r t, Closing log2 es s i segment front name after r t := by
  obtain ⟨front, mark, after, hsplit, hmark, hcount, hquiet, hopens⟩ :=
    exists_of_getElem?_splitOnP (show Event.isPhase (.phaseStub finiName) = true from rfl) hsegment
  obtain ⟨name, rfl⟩ := exists_name hmark
  have hwhole := hrun
  rw [hsplit] at hwhole
  obtain ⟨r, hbefore, hrest⟩ := run_append_iff.mp hwhole
  obtain ⟨t, hcall, hbehind⟩ := run_cons_iff.mp hrest
  exact ⟨front, name, after, r, t, hsplit, hbefore, hcall, hbehind, hcount, hquiet, hopens⟩

section Closing

variable {i : Nat} {segment front after : List Event} {name : Chars} {r t : State}

theorem Closing.length_le (hclosing : Closing log2 es s i segment front name after r t) :
    front.length + segment.length ≤ es.length := by
  have htotal := congrArg List.length hclosing.split
  simp only [List.length_append, List.length_cons, List.length_nil] at htotal
  omega

theorem Closing.eventOk (hclosing : Closing log2 es s i segment front name after r t)
    (hok : ∀ e ∈ es, EventOk e) : ∀ e ∈ front ++ segment, EventOk e := by
  intro e he
  have hmem : e ∈ es ++ [.phaseStub finiName] := by
    rw [hclosing.split]
    exact List.mem_append_left _ he
  rcases List.mem_append.mp hmem with hmem | hmem
  · exact hok e hmem
  · cases List.mem_singleton.mp hmem
    trivial

/-- The marker shows the pages that the log is to hold for the segment. -/
theorem Closing.shown_iff (hclosing : Closing log2 es s i segment front name after r t)
    (hlog2 : log2.toNat ≤ 31) (hok : ∀ e ∈ es, EventOk e) (hlength : es.length + 1 < 2 ^ 64)
    {traces : List TraceLine} {pageSize : Int32}
    {instructions bytes uniqRO uniqRW uniqWO sum : UInt64}
    (hout : t.out = r.out ++ .phase pageSize r.phaseStart t.currTime name instructions bytes ::
      (traces.map .trace ++ [.summary uniqRO uniqRW uniqWO sum])) (kind : Kind) (page : UInt64) :
    Shown traces kind page ↔
      if i = 0 then ∃ other, Touched log2 other page segment
      else Touched log2 kind page segment := by
  have hle := hclosing.length_le
  have hbefore := hclosing.before
  have hcount := hclosing.count
  have heventOk := hclosing.eventOk hok
  rcases hclosing.opens with rfl | ⟨first, mark, hmark, rfl⟩
  · have hzero : i = 0 := hcount.symm
    rw [if_pos hzero]
    rw [List.nil_append] at heventOk hbefore
    exact shown_first_iff hlog2 heventOk hclosing.quiet (by omega) hbefore hclosing.call hout
      kind page
  · obtain ⟨opener, rfl⟩ := exists_name hmark
    have hlater : i ≠ 0 := by
      rw [← hcount, List.countP_append, List.countP_singleton]
      simp [Event.isPhase]
    rw [if_neg hlater]
    rw [List.length_append, List.length_singleton] at hle
    rw [List.append_assoc] at heventOk hbefore
    refine shown_later_iff hlog2 (fun e he => heventOk e ?_) hclosing.quiet (by omega) hbefore
      hclosing.call hout kind page
    rcases List.mem_append.mp he with he | he
    · exact List.mem_append_left _ he
    · exact List.mem_append_right _ (List.mem_append_right _ he)

end Closing

/-- The phase of a segment holds the pages that the log shows. -/
theorem accessIn_iff (hlog2 : log2.toNat ≤ 30) (hnames : NamesOk (es ++ [.phaseStub finiName]))
    (hok : ∀ e ∈ es, EventOk e) (hlength : es.length + 1 < 2 ^ 64)
    (hrun : Run Step (start log2) (es ++ [.phaseStub finiName]) s)
    (hst : analyseFile (logText s.out) = some st)
    (hphases : st.phases.length = (es.splitOnP Event.isPhase).length)
    (i : Nat) (kind : Kind) (page : UInt64) :
    (accessIn st.phases i page).any (countsAs kind) = true ↔
      page ∈ loggedPages log2 (es.splitOnP Event.isPhase) i kind := by
  cases hsegment : (es.splitOnP Event.isPhase)[i]? with
  | none =>
    have hnone : st.phases[i]? = none := by
      rw [List.getElem?_eq_none_iff] at hsegment ⊢
      omega
    simp [loggedPages, touchedPages, pagesOf, accessIn, hsegment, hnone]
  | some segment =>
    obtain ⟨front, name, after, r, t, hclosing⟩ := exists_closing hrun hsegment
    have hclosed : (front ++ segment).countP Event.isPhase = i := by
      rw [List.countP_append, hclosing.count, List.countP_eq_zero.mpr fun e he => by
        rw [hclosing.quiet e he]
        exact Bool.false_ne_true]
      rfl
    rw [hclosing.split] at hnames
    obtain ⟨phase, traces, _, _, _, _, _, _, _, hphase, hout, hlookup⟩ :=
      accesses_of_call hlog2 hnames hclosing.before hclosing.call hclosing.behind hst
    rw [hclosed] at hphase
    rw [any_accessIn_iff hphase hlookup, mem_loggedPages hsegment]
    exact hclosing.shown_iff (by omega) hok hlength hout kind page

/-- Once the phases hold what the log shows, the four sets of pages agree. -/
theorem pages_eq {segments : List (List Event)} {phases : List TracePhase}
    (hlength : phases.length = segments.length)
    (hlogged : ∀ i kind page, (accessIn phases i page).any (countsAs kind) = true ↔
      page ∈ loggedPages log2 segments i kind) (i : Nat) :
    (readPages phases i : Set UInt64) = loggedPages log2 segments i .read ∧
    (writtenPages phases i : Set UInt64) = loggedPages log2 segments i .write ∧
    (deadPages phases i : Set UInt64) =
      loggedPages log2 segments i .write ∩ unreadPages log2 segments i ∧
    (newPages phases i : Set UInt64) =
      loggedPages log2 segments i .read ∩ freshPages log2 segments i := by
  have hreads : ∀ j page, Reads phases j page ↔ page ∈ loggedPages log2 segments j .read :=
    fun j page => hlogged j .read page
  have hwrites : ∀ j page, Writes phases j page ↔ page ∈ loggedPages log2 segments j .write :=
    fun j page => hlogged j .write page
  have hlater : ∀ {j}, i < j → ∀ page,
      Reads phases j page ↔ page ∈ pagesOf log2 segments j .read := by
    intro j hj page
    rw [hreads, loggedPages_pos (Nat.zero_lt_of_lt hj)]
  have hbeyond : ∀ j page, phases.length ≤ j → page ∉ pagesOf log2 segments j .read := by
    rintro j page hj ⟨segment, hsegment, _⟩
    rw [List.getElem?_eq_none (by omega)] at hsegment
    cases hsegment
  refine ⟨?_, ?_, ?_, ?_⟩ <;> ext page
  · rw [Finset.mem_coe, mem_readPages, hreads]
  · rw [Finset.mem_coe, mem_writtenPages, hwrites]
  · rw [Finset.mem_coe, mem_deadPages, DeadWrite, hwrites]
    apply and_congr_right
    intro _
    constructor
    · intro hdead j hj
      by_cases hlt : j < phases.length
      · rw [← hlater hj]
        exact hdead j hlt hj
      · exact hbeyond j page (Nat.le_of_not_lt hlt)
    · intro hdead j _ hj
      rw [hlater hj]
      exact hdead j hj
  · rw [Finset.mem_coe, mem_newPages, NewRead, hreads]
    apply and_congr_right
    intro _
    refine forall₂_congr fun j _ => ?_
    rw [accessIn_eq_none_iff, ← exists_loggedPages, not_exists]
    exact forall_congr' fun kind => not_congr (hlogged j kind page)

/-- A counter of the analyser times the page size. -/
theorem figure_eq {phases : List TracePhase} {i : Nat} {phase : TracePhase}
    (hphase : phases[i]? = some phase) {iter : List PageAccess}
    (hperm : iter.Perm phase.accesses.entries) (counted : PageAccess → Bool) {p : UInt64 → Prop}
    [DecidablePred p] (hp : ∀ page, p page ↔
      ∃ accessty, accessIn phases i page = some accessty ∧ counted ⟨page, accessty⟩ = true)
    {pageSet : Set UInt64} (hset : ((pages phases).filter p : Set UInt64) = pageSet)
    (hsize : phase.pageSize.toNat = 2 ^ log2.toNat) :
    (0 + UInt64.ofNat (iter.countP counted)) * phase.pageSize = bytesOf log2 pageSet := by
  have hcard : iter.countP counted = pageSet.ncard := by
    rw [countP_entries hphase hperm counted p hp, ← hset, Set.ncard_coe_finset]
  rw [UInt64.zero_add, hcard, bytesOf, UInt64.ofNat_mul, ← hsize, UInt64.ofNat_toNat]

theorem phaseRow_eq {path : Chars} {phases : List TracePhase} {i : Nat} {phase : TracePhase}
    (hphase : phases[i]? = some phase) {iter : List PageAccess}
    (hperm : iter.Perm phase.accesses.entries)
    (hlength : phases.length = (es.splitOnP Event.isPhase).length)
    (hlogged : ∀ i kind page, (accessIn phases i page).any (countsAs kind) = true ↔
      page ∈ loggedPages log2 (es.splitOnP Event.isPhase) i kind)
    (hsize : phase.pageSize.toNat = 2 ^ log2.toNat)
    (hname : ("pre-main".toList :: es.filterMap phaseName)[i]? = some phase.name)
    (hinsns : ((es.splitOnP Event.isPhase).map (total insns))[i]? = some phase.instructions)
    (hio : ((es.splitOnP Event.isPhase).map (total ioBytes))[i]? = some phase.ioBytes) :
    phaseRow path phases iter i phase = segmentRow log2 path es i
      (loggedPages log2 (es.splitOnP Event.isPhase) i .read)
      (loggedPages log2 (es.splitOnP Event.isPhase) i .write) := by
  have hi : i < phases.length := (List.getElem?_eq_some_iff.mp hphase).1
  obtain ⟨hread, hwritten, hdead, hnew⟩ := pages_eq hlength hlogged i
  have hreadBytes := figure_eq hphase hperm (fun a => isRead a.2)
    (p := Reads phases i) (fun page => by
      cases h : accessIn phases i page <;> simp [Reads, h]) hread hsize
  have hwrittenBytes := figure_eq hphase hperm (fun a => isWrite a.2)
    (p := Writes phases i) (fun page => by
      cases h : accessIn phases i page <;> simp [Writes, h]) hwritten hsize
  have hdeadBytes := figure_eq hphase hperm
    (fun a => isWrite a.2 && unread (phases.drop (i + 1)) a.1)
    (p := DeadWrite phases i) (fun page => by
      simp only [DeadWrite, Bool.and_eq_true, unread_drop]
      cases h : accessIn phases i page <;> simp [Writes, h]) hdead hsize
  have hnewBytes := figure_eq hphase hperm
    (fun a => isRead a.2 && untouched (phases.take i) a.1)
    (p := NewRead phases i) (fun page => by
      simp only [NewRead, Bool.and_eq_true, untouched_take (Nat.le_of_lt hi)]
      cases h : accessIn phases i page <;> simp [Reads, h]) hnew hsize
  have hpage : phase.pageSize = UInt64.ofNat (2 ^ log2.toNat) := by
    rw [← hsize, UInt64.ofNat_toNat]
  have hquantity : ∀ {quantity : Event → UInt64} {value : UInt64},
      ((es.splitOnP Event.isPhase).map (total quantity))[i]? = some value →
        value = total quantity ((es.splitOnP Event.isPhase).getD i []) := by
    intro quantity value hvalue
    rw [List.getElem?_map] at hvalue
    obtain ⟨segment, hsegment, rfl⟩ := Option.map_eq_some_iff.mp hvalue
    rw [List.getD_eq_getElem?_getD, hsegment, Option.getD_some]
  have hnameAt : ("pre-main".toList :: es.filterMap phaseName).getD i [] = phase.name := by
    rw [List.getD_eq_getElem?_getD, hname, Option.getD_some]
  simp only [phaseRow, segmentRow, countAccesses, foldl_count, hreadBytes, hwrittenBytes,
    hdeadBytes, hnewBytes, hnameAt, ← hquantity hinsns, ← hquantity hio, ← hpage]

/-- The log of a finished run has one phase for each segment, with its name and totals. -/
theorem phases_of_handover (hold : Handover log2 (es ++ [.phaseStub finiName]) s st) :
    st.phases.length = (es.splitOnP Event.isPhase).length ∧
    st.phases.map TracePhase.name = "pre-main".toList :: es.filterMap phaseName ∧
    st.phases.map TracePhase.instructions = (es.splitOnP Event.isPhase).map (total insns) ∧
    st.phases.map TracePhase.ioBytes = (es.splitOnP Event.isPhase).map (total ioBytes) := by
  -- the last marker leaves an empty segment open
  have hopen : (es ++ [Event.phaseStub finiName]).splitOnP Event.isPhase =
      es.splitOnP Event.isPhase ++ [[]] := by
    obtain ⟨front, last, hes, hnext⟩ := splitOnP_concat es (.phaseStub finiName)
    rw [hnext, hes]
    rfl
  have hnames := hold.names
  have hinsns := hold.instructions
  have hio := hold.io
  rw [List.filterMap_append, ← List.cons_append] at hnames
  rw [hopen, List.map_append] at hinsns hio
  refine ⟨?_, (List.append_inj' hnames rfl).1, (List.append_inj' hinsns rfl).1,
    (List.append_inj' hio rfl).1⟩
  rw [hold.length_phases, length_splitOnP, List.countP_append]
  rfl

theorem rows_of_run (hlog2 : log2.toNat ≤ 30) (hnames : NamesOk es)
    (hok : ∀ e ∈ es, EventOk e) (hlength : es.length + 1 < 2 ^ 64)
    (hrun : Run Step (start log2) (es ++ [.phaseStub finiName]) s) :
    ∃ st, analyseFile (logText s.out) = some st ∧
      ∀ (path : Chars) (iter : Nat → List PageAccess),
        (∀ i phase, st.phases[i]? = some phase → (iter i).Perm phase.accesses.entries) →
        rows path st.phases iter = summaryRows log2 path es := by
  obtain ⟨hall, st, hold⟩ := handover_fini hlog2 hnames hrun
  obtain ⟨hphases, hphaseNames, hinsns, hio⟩ := phases_of_handover hold
  have hrow : ∀ (path : Chars) (iter : Nat → List PageAccess) (i : Nat) (phase : TracePhase),
      st.phases[i]? = some phase → (iter i).Perm phase.accesses.entries →
      phaseRow path st.phases (iter i) i phase = segmentRow log2 path es i
        (loggedPages log2 (es.splitOnP Event.isPhase) i .read)
        (loggedPages log2 (es.splitOnP Event.isPhase) i .write) := by
    intro path iter i phase hphase horder
    apply phaseRow_eq hphase horder hphases
      (accessIn_iff hlog2 hall hok hlength hrun hold.analysed hphases)
      (hold.sizes phase (List.mem_of_getElem? hphase))
    · rw [← hphaseNames, List.getElem?_map, hphase, Option.map_some]
    · rw [← hinsns, List.getElem?_map, hphase, Option.map_some]
    · rw [← hio, List.getElem?_map, hphase, Option.map_some]
  refine ⟨st, hold.analysed, fun path iter horder => ?_⟩
  rw [length_splitOnP] at hphases
  apply List.ext_getElem?
  intro i
  rw [rows, summaryRows, List.getElem?_mapIdx]
  cases hphase : st.phases[i]? with
  | none =>
    rw [List.getElem?_eq_none_iff, hphases] at hphase
    rw [List.getElem?_eq_none (by simpa using hphase)]
    rfl
  | some phase =>
    have hi := (List.getElem?_eq_some_iff.mp hphase).1
    rw [Option.map_some, hrow path iter i phase hphase (horder i phase hphase)]
    cases i with
    | zero => rfl
    | succ i =>
      rw [List.getElem?_cons_succ, List.getElem?_map, List.getElem?_range' (by omega),
        Option.map_some, loggedPages_pos (Nat.succ_pos i), loggedPages_pos (Nat.succ_pos i),
        Nat.one_mul, Nat.add_comm 1 i]
      rfl

/-- The summary of a finished run is the one its events determine, in every row but that of
the first segment, which takes the pages touched for both kinds; it is no exception where
the first segment reads the pages that it writes.  Neither the order in which the tool's map
is printed nor the order in which the analyser visits its own maps makes a difference. -/
theorem summary_of_run (hlog2 : log2.toNat ≤ 30) (hnames : NamesOk es)
    (hok : ∀ e ∈ es, EventOk e) (hlength : es.length + 1 < 2 ^ 64)
    (hrun : Run Step (start log2) (es ++ [.phaseStub finiName]) s) :
    ∃ st, analyseFile (logText s.out) = some st ∧
      ∀ (path : Chars) (iter : Nat → List PageAccess),
        (∀ i phase, st.phases[i]? = some phase → (iter i).Perm phase.accesses.entries) →
        rows path st.phases iter = firstRow log2 path es ::
          (List.range' 1 (es.countP Event.isPhase)).map (summaryRow log2 path es) ∧
        analyseText path (logText s.out) iter =
          some (unlines ((summaryRows log2 path es).map Row.render)) ∧
        (pagesOf log2 (es.splitOnP Event.isPhase) 0 .read =
            pagesOf log2 (es.splitOnP Event.isPhase) 0 .write →
          firstRow log2 path es = summaryRow log2 path es 0) := by
  obtain ⟨st, hst, hrows⟩ := rows_of_run hlog2 hnames hok hlength hrun
  refine ⟨st, hst, fun path iter horder => ⟨hrows path iter horder, ?_, ?_⟩⟩
  · rw [analyseText, hst, Option.map_some, hrows path iter horder]
  · exact fun hsame => firstRow_eq hsame path

end Whole

/-- Page 1 is read before the marker and page 2 is written after it. -/
def readThenWrite : List Event :=
  [.onRead 4096 8, .phaseStub "main".toList, .onWrite 8192 8]

theorem namesOk_readThenWrite : NamesOk readThenWrite := by
  intro name hmem
  simp only [readThenWrite, List.mem_cons, reduceCtorEq, Event.phaseStub.injEq,
    List.not_mem_nil, false_or, or_false] at hmem
  subst hmem
  exact ⟨by decide, by decide⟩

theorem eventOk_readThenWrite : ∀ e ∈ readThenWrite, EventOk e := by
  simp only [readThenWrite, List.forall_mem_cons]
  exact ⟨⟨by decide, by decide⟩, trivial, ⟨by decide, by decide⟩, List.forall_mem_nil _⟩

theorem exists_run_readThenWrite :
    ∃ s, Run Step (start 12) (readThenWrite ++ [.phaseStub finiName]) s :=
  ⟨_, .cons (.onRead 2 rfl) (.cons (.phaseStub _ _ (.refl _)) (.cons (.onWrite 2 rfl)
    (.cons (.phaseStub _ _ (.refl _)) (.nil _))))⟩

/-- The second row is the one of page 2 written. -/
theorem summary_of_run_readThenWrite : ∃ s st,
    Run Step (start 12) (readThenWrite ++ [.phaseStub finiName]) s ∧
    analyseFile (logText s.out) = some st ∧
    (rows "a.log".toList st.phases
        (fun i => (st.phases[i]?.map fun phase => phase.accesses.entries).getD []))[1]? =
      some (summaryRow 12 "a.log".toList readThenWrite 1) ∧
    2 ∈ pagesOf 12 (readThenWrite.splitOnP Event.isPhase) 1 .write := by
  obtain ⟨s, hrun⟩ := exists_run_readThenWrite
  obtain ⟨st, hst, hsummary⟩ := summary_of_run (by decide) namesOk_readThenWrite
    eventOk_readThenWrite (by decide) hrun
  refine ⟨s, st, hrun, hst, ?_, ?_⟩
  · rw [(hsummary _ _ ?_).1]
    · rfl
    · intro i phase hphase
      rw [hphase]
      exact .refl _
  · exact ⟨[.onWrite 8192 8], rfl, _, List.mem_singleton_self _, rfl, 8192, by decide, by decide,
      by decide⟩

end NdpOffload.NearMap.Pipeline
