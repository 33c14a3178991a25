import NdpOffload.NearMap.Figures
import NdpOffload.NearMap.RoundTrip

/-! The first phase starts at time 0, which is also the time that `map[page]`
gives to a kind of access that never happened.  Every page of the map is
therefore inside the first window on both counts, and is traced `RW`. -/
namespace NdpOffload.NearMap.FirstPhase

open Library.Runs Library.Text Tool Analyse Classification Figures

def Touched (log2 : UInt64) (kind : Kind) (page : UInt64) (es : List Event) : Prop :=
  ∃ e ∈ es, Touches log2 kind page e

def letter : Kind → TraceLine → Bool
  | .read, line => line.didRead
  | .write, line => line.didWrite

/-- A trace line of the log shows the page with the letter of this kind. -/
def Reported (out : List LogLine) (kind : Kind) (page : UInt64) : Prop :=
  ∃ line, .trace line ∈ out ∧ line.pageIdx = page ∧ letter kind line = true

/-- The log is right about a page in the first phase: the letters of its line are
the kinds of access that touched it, and the analyser counts it under those
kinds only.  `firstLog` is the log when the first marker returns. -/
structure Right (log2 : UInt64) (es : List Event) (firstLog log : List LogLine)
    (page : UInt64) : Prop where
  write : Reported firstLog .write page ↔ Touched log2 .write page es
  read : Reported firstLog .read page ↔ Touched log2 .read page es
  readOnly : Touched log2 .read page es → ¬ Touched log2 .write page es →
    ∀ st, analyseFile (logText log) = some st →
      page ∉ writtenPages st.phases 0 ∧ page ∉ deadPages st.phases 0
  writeOnly : Touched log2 .write page es → ¬ Touched log2 .read page es →
    ∀ st, analyseFile (logText log) = some st →
      page ∉ readPages st.phases 0 ∧ page ∉ newPages st.phases 0

/-- Every run that makes the events `es` before its first marker has a log that is
right about the page, whatever the run does later. -/
def FirstPhaseRight (log2 : UInt64) (es : List Event) (page : UInt64) : Prop :=
  ∀ (name : Chars) (after : List Event) (r t s : State), Run Step (start log2) es r →
    Step r (.phaseStub name) t → Run Step t after s → Right log2 es t.out s.out page

/-! ### Before the first marker -/

theorem onAccess_mem (stamp : UInt64 → RWTime → RWTime)
    (hstamp : ∀ time r, stamp time (stamp time r) = stamp time r) {fuel : Nat} {addr : UInt64}
    {accessSz : UInt32} {s t : State} (hlog2 : s.tracePageSizeLog2.toNat ≤ 31)
    (hok : AccessOk addr accessSz) (haccess : onAccess stamp fuel addr accessSz s = some t)
    (page : UInt64) :
    page ∈ t.pageLastAccesses ↔
      page ∈ s.pageLastAccesses ∨ Overlaps s.tracePageSizeLog2 page addr accessSz := by
  have hlookup := onAccess_lookup hstamp hlog2 hok haccess page
  by_cases hover : Overlaps s.tracePageSizeLog2 page addr accessSz
  · rw [if_pos ((overlaps_iff hlog2 hok).mp hover)] at hlookup
    have hmem : page ∈ t.pageLastAccesses := AList.lookup_isSome.mp (by rw [hlookup]; rfl)
    exact ⟨fun _ => .inr hover, fun _ => hmem⟩
  · rw [if_neg fun h => hover ((overlaps_iff hlog2 hok).mpr h)] at hlookup
    rw [← AList.lookup_isSome, hlookup, AList.lookup_isSome]
    exact ⟨.inl, fun h => h.resolve_right hover⟩

/-- The pages of the map after one event. -/
theorem step_mem {s t : State} {e : Event} (hlog2 : s.tracePageSizeLog2.toNat ≤ 31)
    (hok : EventOk e) (hstep : Step s e t) (page : UInt64) :
    page ∈ t.pageLastAccesses ↔
      page ∈ s.pageLastAccesses ∨ ∃ kind, Touches s.tracePageSizeLog2 kind page e := by
  cases hstep with
  | onRead fuel haccess =>
    rw [onAccess_mem stampRead (fun _ _ => rfl) hlog2 hok haccess]
    exact or_congr_right ⟨fun h => ⟨.read, rfl, h⟩, fun ⟨_, _, h⟩ => h⟩
  | onWrite fuel haccess =>
    rw [onAccess_mem stampWrite (fun _ _ => rfl) hlog2 hok haccess]
    exact or_congr_right ⟨fun h => ⟨.write, rfl, h⟩, fun ⟨_, _, h⟩ => h⟩
  | countBbl n => simp [countBbl, Touches]
  | ioStub bytes => simp [ioStubReplacement, Touches]
  | phaseStub name accesses hperm => simp [phaseStubReplacement, Touches]
  | routine rtnName =>
    unfold routine
    split <;> split <;> simp [Touches]

/-- Only a marker prints trace lines. -/
theorem step_trace {s t : State} {e : Event} (hquiet : e.isPhase = false) (hstep : Step s e t)
    {line : TraceLine} (hline : .trace line ∈ t.out) : .trace line ∈ s.out := by
  cases hstep with
  | onRead fuel haccess =>
    obtain ⟨map, rfl⟩ := onAccess_frame haccess
    exact hline
  | onWrite fuel haccess =>
    obtain ⟨map, rfl⟩ := onAccess_frame haccess
    exact hline
  | countBbl n => exact hline
  | ioStub bytes => exact hline
  | phaseStub name accesses hperm => cases hquiet
  | routine rtnName =>
    unfold routine at hline
    split at hline <;> split at hline <;> simpa using hline

/-- The state while the first phase lasts. -/
structure Opening (log2 : UInt64) (past : List Event) (s : State) : Prop where
  clocked : Clocked log2 past s
  start_zero : s.phaseStart = 0
  pages : ∀ page, page ∈ s.pageLastAccesses ↔ ∃ kind, Touched log2 kind page past
  untraced : ∀ line, .trace line ∉ s.out

theorem opening_start (log2 : UInt64) : Opening log2 [] (start log2) where
  clocked := clocked_start log2
  start_zero := rfl
  pages page := by simp [start, Touched]
  untraced line := by simp [start]

theorem Opening.step {log2 : UInt64} {past : List Event} {s t : State} {e : Event}
    (hlog2 : log2.toNat ≤ 31) (hopening : Opening log2 past s) (hok : EventOk e)
    (hquiet : e.isPhase = false) (hlength : (past ++ [e]).length < 2 ^ 64)
    (hstep : Step s e t) : Opening log2 (past ++ [e]) t := by
  have hsame := hopening.clocked.log2_eq
  have hsmall : s.tracePageSizeLog2.toNat ≤ 31 := hsame ▸ hlog2
  have heffect := step_effect hsmall hok hstep
  refine ⟨hopening.clocked.step heffect hlength, ?_, fun page => ?_, fun line hline => ?_⟩
  · rcases heffect.start with ⟨hyes, _⟩ | ⟨_, hstart⟩
    · rw [hquiet] at hyes
      cases hyes
    · rw [hstart, hopening.start_zero]
  · rw [step_mem hsmall hok hstep, hopening.pages, hsame]
    simp only [Touched, List.mem_append, List.mem_singleton, or_and_right, exists_or,
      exists_eq_left]
  · exact hopening.untraced line (step_trace hquiet hstep hline)

theorem opening_run {log2 : UInt64} {past es : List Event} {s t : State}
    (hlog2 : log2.toNat ≤ 31) (hrun : Run Step s es t) (hopening : Opening log2 past s)
    (hok : ∀ e ∈ es, EventOk e) (hquiet : ∀ e ∈ es, e.isPhase = false)
    (hlength : (past ++ es).length < 2 ^ 64) : Opening log2 (past ++ es) t := by
  induction hrun generalizing past with
  | nil s => simpa using hopening
  | @cons s t u e es hstep _ ih =>
    have hlength' : ((past ++ [e]) ++ es).length < 2 ^ 64 := by simpa using hlength
    have hnext := hopening.step hlog2 (hok e List.mem_cons_self) (hquiet e List.mem_cons_self)
      (by rw [List.length_append] at hlength'; omega) hstep
    simpa using ih hnext (fun f hf => hok f (List.mem_cons_of_mem _ hf))
      (fun f hf => hquiet f (List.mem_cons_of_mem _ hf)) hlength'

/-! ### The first marker -/

/-- Every time is in the window that starts with the run. -/
theorem Opening.inWindow {log2 : UInt64} {es : List Event} {r : State}
    (hopening : Opening log2 es r) (hlength : es.length + 1 < 2 ^ 64) (kind : Kind)
    (page : UInt64) : inWindow r.phaseStart (r.currTime + 1)
      (Kind.time kind (r.pageLastAccesses.entry page)) = true := by
  have hclock := hopening.clocked.clock_le
  have hsucc : (r.currTime + 1).toNat = r.currTime.toNat + 1 := by
    rw [UInt64.toNat_add, UInt64.toNat_one, Nat.mod_eq_of_lt (by omega)]
  have htime := hopening.clocked.time_le kind page
  rw [inWindow_iff (by omega), hopening.start_zero]
  exact Nat.zero_le _

/-- No line was traced before the first marker. -/
theorem Opening.trace_mem {log2 : UInt64} {es : List Event} {r t : State}
    (hopening : Opening log2 es r) {phase summary : LogLine} {traces : List TraceLine}
    (hphase : ∀ line, phase ≠ .trace line) (hsummary : ∀ line, summary ≠ .trace line)
    (hout : t.out = r.out ++ phase :: (traces.map .trace ++ [summary])) (line : TraceLine) :
    .trace line ∈ t.out ↔ line ∈ traces := by
  have hold := hopening.untraced line
  simp [hout, hold, (hphase line).symm, (hsummary line).symm]

/-- Both letters stand at every page that was touched at all. -/
theorem reported_iff {log2 : UInt64} {es : List Event} {name : Chars} {r t : State}
    (hopening : Opening log2 es r) (hlength : es.length + 1 < 2 ^ 64)
    (hcall : Step r (.phaseStub name) t) (kind : Kind) (page : UInt64) :
    Reported t.out kind page ↔ ∃ other, Touched log2 other page es := by
  have hwindow := hopening.inWindow hlength
  rw [← hopening.pages]
  cases hcall with
  | phaseStub _ accesses hperm =>
    have hout : ∀ line, .trace line ∈ (phaseStubReplacement name accesses r).out ↔
        line ∈ accesses.filterMap (traceOf r.phaseStart (r.currTime + 1)) :=
      hopening.trace_mem (fun _ => LogLine.noConfusion) (fun _ => LogLine.noConfusion)
        (congrArg (r.out ++ ·) (phaseOutput_eq name accesses r))
    constructor
    · rintro ⟨line, hline, rfl, _⟩
      obtain ⟨access, haccess, htrace⟩ := List.mem_filterMap.mp ((hout line).mp hline)
      rw [(traceOf_eq_some.mp htrace).1]
      exact AList.lookup_isSome.mp (by
        rw [AList.mem_lookup_iff.mpr (hperm.mem_iff.mp haccess)]
        rfl)
    · intro hpage
      obtain ⟨line, hline, rfl⟩ :=
        List.mem_map.mp (mem_traces_of_inWindow hperm hpage (hwindow kind page))
      obtain ⟨hread, hwrite⟩ := letters_of_mem hperm hline
      refine ⟨line, (hout line).mpr hline, rfl, ?_⟩
      cases kind with
      | read => exact hread.trans (hwindow .read line.pageIdx)
      | write => exact hwrite.trans (hwindow .write line.pageIdx)

/-- The letters of a line against what the analyser makes of them. -/
theorem didRead_iff (line : TraceLine) : line.didRead = true ↔
    ∃ accessty, AccessType.tryFromRw line.didRead line.didWrite = some accessty ∧
      isRead accessty = true := by
  cases line.didRead <;> cases line.didWrite <;> simp [AccessType.tryFromRw, isRead]

theorem didWrite_iff (line : TraceLine) : line.didWrite = true ↔
    ∃ accessty, AccessType.tryFromRw line.didRead line.didWrite = some accessty ∧
      isWrite accessty = true := by
  cases line.didRead <;> cases line.didWrite <;> simp [AccessType.tryFromRw, isWrite]

/-- The analyser counts in its first row what the first marker reported. -/
theorem counted_iff {log2 : UInt64} (hlog2 : log2.toNat ≤ 30) {es after : List Event}
    {name : Chars} (hnames : RoundTrip.NamesOk (es ++ .phaseStub name :: after))
    (hquiet : ∀ e ∈ es, e.isPhase = false) {r t s : State} {st : Parsed}
    (hrun : Run Step (start log2) es r) (hopening : Opening log2 es r)
    (hcall : Step r (.phaseStub name) t) (hafter : Run Step t after s)
    (hst : analyseFile (logText s.out) = some st) (page : UInt64) :
    (page ∈ readPages st.phases 0 ↔ Reported t.out .read page) ∧
    (page ∈ writtenPages st.phases 0 ↔ Reported t.out .write page) := by
  obtain ⟨phase, traces, _, _, _, _, _, _, _, hphase, hout, hlookup⟩ :=
    RoundTrip.accesses_of_call hlog2 hnames hrun hcall hafter hst
  have hcount : es.countP Event.isPhase = 0 :=
    List.countP_eq_zero.mpr fun e he => by rw [hquiet e he]; exact Bool.false_ne_true
  rw [hcount] at hphase
  have hlines : ∀ line, .trace line ∈ t.out ↔ line ∈ traces :=
    hopening.trace_mem (fun _ => LogLine.noConfusion) (fun _ => LogLine.noConfusion) hout
  have haccess : ∀ accessty, accessIn st.phases 0 page = some accessty ↔
      ∃ line, .trace line ∈ t.out ∧ line.pageIdx = page ∧
        AccessType.tryFromRw line.didRead line.didWrite = some accessty := by
    intro accessty
    simp only [accessIn, hphase, Option.bind_some, hlookup, hlines]
  have hkind : ∀ (p : AccessType → Bool) (kind : Kind),
      (∀ line : TraceLine, letter kind line = true ↔
        ∃ accessty, AccessType.tryFromRw line.didRead line.didWrite = some accessty ∧
          p accessty = true) →
      ((accessIn st.phases 0 page).any p = true ↔ Reported t.out kind page) := by
    intro p kind hletter
    simp only [Option.any_eq_true, haccess, Reported, hletter]
    constructor
    · rintro ⟨accessty, ⟨line, hline, hpage, htype⟩, hp⟩
      exact ⟨line, hline, hpage, accessty, htype, hp⟩
    · rintro ⟨line, hline, hpage, accessty, htype, hp⟩
      exact ⟨accessty, ⟨line, hline, hpage, htype⟩, hp⟩
  rw [mem_readPages, mem_writtenPages]
  exact ⟨hkind isRead .read didRead_iff, hkind isWrite .write didWrite_iff⟩

/-- Well-formed accesses let the tool run. -/
theorem exists_opening {log2 : UInt64} (hlog2 : log2.toNat ≤ 31) {es : List Event}
    (hok : ∀ e ∈ es, EventOk e) {s : State} (hsame : s.tracePageSizeLog2 = log2) :
    ∃ t, Run Step s es t := by
  induction es generalizing s with
  | nil => exact ⟨s, .nil s⟩
  | cons e es ih =>
    have hsmall : s.tracePageSizeLog2.toNat ≤ 31 := hsame ▸ hlog2
    have hfirst := hok e List.mem_cons_self
    obtain ⟨t, hstep⟩ : ∃ t, Step s e t := by
      cases e with
      | onRead addr accessSz =>
        obtain ⟨fuel, t, haccess⟩ := exists_onAccess stampRead hsmall hfirst
        exact ⟨t, .onRead fuel haccess⟩
      | onWrite addr accessSz =>
        obtain ⟨fuel, t, haccess⟩ := exists_onAccess stampWrite hsmall hfirst
        exact ⟨t, .onWrite fuel haccess⟩
      | countBbl n => exact ⟨_, .countBbl n⟩
      | phaseStub name => exact ⟨_, .phaseStub name _ (.refl _)⟩
      | ioStub bytes => exact ⟨_, .ioStub bytes⟩
      | routine rtnName => exact ⟨_, .routine rtnName⟩
    obtain ⟨u, hrest⟩ := ih (fun f hf => hok f (List.mem_cons_of_mem _ hf))
      ((step_effect hsmall hfirst hstep).log2.trans hsame)
    exact ⟨u, .cons hstep hrest⟩

/-- The first phase is right about a page exactly when the accesses before the
first marker both read and write the page, or do neither. -/
theorem firstPhaseRight_iff {log2 : UInt64} (hlog2 : log2.toNat ≤ 31) {es : List Event}
    (hok : ∀ e ∈ es, EventOk e) (hquiet : ∀ e ∈ es, e.isPhase = false)
    (hlength : es.length + 1 < 2 ^ 64) (page : UInt64) :
    FirstPhaseRight log2 es page ↔
      (Touched log2 .read page es ↔ Touched log2 .write page es) := by
  have hopening : ∀ r, Run Step (start log2) es r → Opening log2 es r := fun r hrun => by
    simpa using opening_run hlog2 hrun (opening_start log2) hok hquiet (by simp; omega)
  constructor
  · intro hright
    obtain ⟨r, hrun⟩ := exists_opening hlog2 hok (s := start log2) rfl
    have hcall : Step r (.phaseStub finiName) _ := .phaseStub finiName _ (.refl _)
    have hfirst := hright finiName [] r _ _ hrun hcall (.nil _)
    have hreported := reported_iff (hopening r hrun) hlength hcall
    rw [← hfirst.read, ← hfirst.write, hreported, hreported]
  · intro hsame name after r t s hrun hcall _
    have hreported := reported_iff (hopening r hrun) hlength hcall
    have hany : ∀ kind, (∃ other, Touched log2 other page es) ↔ Touched log2 kind page es := by
      intro kind
      refine ⟨fun ⟨other, htouched⟩ => ?_, fun htouched => ⟨kind, htouched⟩⟩
      cases kind <;> cases other
      · exact htouched
      · exact hsame.mpr htouched
      · exact hsame.mp htouched
      · exact htouched
    exact ⟨(hreported .write page).trans (hany .write), (hreported .read page).trans (hany .read),
      fun hread hwrite => absurd (hsame.mp hread) hwrite,
      fun hwrite hread => absurd (hsame.mpr hwrite) hread⟩

/-- One eight-byte read of page 1. -/
def oneRead : List Event := [.onRead 4096 8]

private theorem oneRead_ok : ∀ e ∈ oneRead, EventOk e := by
  intro e he
  cases List.mem_singleton.mp he
  exact ⟨by decide, by decide⟩

private theorem oneRead_read : Touched 12 .read 1 oneRead :=
  ⟨_, List.mem_singleton_self _, rfl, 4096, by decide, by decide, by decide⟩

private theorem oneRead_unwritten (page : UInt64) : ¬ Touched 12 .write page oneRead := by
  rintro ⟨e, he, htouch⟩
  cases List.mem_singleton.mp he
  cases htouch.1

/-- Page 2 is untouched by the read of page 1, so the first phase is right
about it. -/
theorem firstPhaseRight_untouched : FirstPhaseRight 12 oneRead 2 := by
  have huntouched : ¬ Touched 12 .read 2 oneRead := by
    rintro ⟨e, he, htouch⟩
    cases List.mem_singleton.mp he
    obtain ⟨_, byte, hlow, hhigh, hpage⟩ := htouch
    simp at hlow hhigh hpage
    omega
  exact (firstPhaseRight_iff (by decide) oneRead_ok (by decide) (by decide) 2).mpr
    ⟨fun h => absurd h huntouched, fun h => absurd h (oneRead_unwritten 2)⟩

/-- A page that is only read before the program ends is traced with `W` and
counted among the written pages and the dead writes. -/
theorem read_page_traced_written : ¬ FirstPhaseRight 12 oneRead 1 ∧
    ∃ r t st, Run Step (start 12) oneRead r ∧ Step r (.phaseStub finiName) t ∧
      Reported t.out .write 1 ∧ analyseFile (logText t.out) = some st ∧
      1 ∈ writtenPages st.phases 0 ∧ 1 ∈ deadPages st.phases 0 := by
  obtain ⟨r, hrun⟩ := exists_opening (by decide) oneRead_ok (s := start 12) rfl
  have hcall : Step r (.phaseStub finiName) _ := .phaseStub finiName _ (.refl _)
  have hopening : Opening 12 oneRead r := by
    simpa using opening_run (by decide) hrun (opening_start 12) oneRead_ok (by decide) (by decide)
  have hreported := (reported_iff hopening (by decide) hcall .write 1).mpr ⟨.read, oneRead_read⟩
  have hnames : RoundTrip.NamesOk oneRead := nofun
  obtain ⟨hall, st, hst⟩ := RoundTrip.handover_fini (by decide) hnames
    (run_append_iff.mpr ⟨r, hrun, run_singleton_iff.mpr hcall⟩)
  have hwritten := (counted_iff (by decide) hall (by decide) hrun hopening hcall (.nil _)
    hst.analysed 1).2.mpr hreported
  refine ⟨fun hright => ?_, r, _, st, hrun, hcall, hreported, hst.analysed, hwritten, ?_⟩
  · have hfirst := hright finiName [] r _ _ hrun hcall (.nil _)
    exact oneRead_unwritten 1 (hfirst.write.mp hreported)
  · rw [mem_deadPages]
    refine ⟨mem_writtenPages.mp hwritten, fun j hj hlater => ?_⟩
    have hlength : st.phases.length = 1 := hst.length_phases
    omega

end NdpOffload.NearMap.FirstPhase
