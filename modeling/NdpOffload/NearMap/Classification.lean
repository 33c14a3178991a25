import NdpOffload.NearMap.Tool

/-! From the second phase on, the last-access times of the pages determine the
accesses of the current phase exactly.  The invariant relates the clock, the
start of the phase and the two times of every page. -/
namespace NdpOffload.NearMap.Classification

open Library.Runs Library.Text Tool

inductive Kind where
  | read
  | write

def Kind.time : Kind → RWTime → UInt64
  | .read, rwtime => rwtime.lastRead
  | .write, rwtime => rwtime.lastWrite

/-- Some byte of the access lies in the page. -/
def Overlaps (log2 page addr : UInt64) (accessSz : UInt32) : Prop :=
  ∃ byte, addr.toNat ≤ byte ∧ byte < addr.toNat + accessSz.toNat ∧
    byte / 2 ^ log2.toNat = page.toNat

/-- The event is an access of this kind that overlaps the page. -/
def Touches (log2 : UInt64) (kind : Kind) (page : UInt64) : Event → Prop
  | .onRead addr accessSz => kind = .read ∧ Overlaps log2 page addr accessSz
  | .onWrite addr accessSz => kind = .write ∧ Overlaps log2 page addr accessSz
  | _ => False

/-- Accesses have a byte and end below `2^64`; other events are unrestricted. -/
def EventOk : Event → Prop
  | .onRead addr accessSz => AccessOk addr accessSz
  | .onWrite addr accessSz => AccessOk addr accessSz
  | _ => True

theorem overlaps_iff {log2 page addr : UInt64} {accessSz : UInt32} (hlog2 : log2.toNat ≤ 31)
    (hok : AccessOk addr accessSz) :
    Overlaps log2 page addr accessSz ↔ apage log2 addr ≤ page ∧ page ≤ epage log2 addr accessSz := by
  have hsize := hok.size_pos
  rw [UInt64.le_iff_toNat_le, UInt64.le_iff_toNat_le, toNat_apage addr hlog2,
    toNat_epage hlog2 hok]
  constructor
  · rintro ⟨byte, hlow, hhigh, hpage⟩
    rw [← hpage]
    exact ⟨Nat.div_le_div_right hlow, Nat.div_le_div_right (by omega)⟩
  · rintro ⟨hlow, hhigh⟩
    have hpow : 0 < 2 ^ log2.toNat := Nat.two_pow_pos _
    -- The first byte of the access that is not below the page.
    refine ⟨max addr.toNat (page.toNat * 2 ^ log2.toNat), le_max_left _ _, ?_, ?_⟩
    · have hstart := (Nat.le_div_iff_mul_le hpow).mp hhigh
      exact max_lt (by omega) (by omega)
    · have hend : addr.toNat < (page.toNat + 1) * 2 ^ log2.toNat :=
        (Nat.div_lt_iff_lt_mul hpow).mp (by omega)
      apply Nat.div_eq_of_lt_le
      · exact le_max_right _ _
      · refine max_lt hend ?_
        exact Nat.mul_lt_mul_of_pos_right (Nat.lt_succ_self _) hpow

/-- The time of a page after an access: the clock if the access touches the
page, else what it was.  One lemma for both kinds of access. -/
theorem onAccess_time (stamp : UInt64 → RWTime → RWTime)
    (hstamp : ∀ time r, stamp time (stamp time r) = stamp time r) {fuel : Nat} {addr : UInt64}
    {accessSz : UInt32} {s t : State} (hlog2 : s.tracePageSizeLog2.toNat ≤ 31)
    (hok : AccessOk addr accessSz) (haccess : onAccess stamp fuel addr accessSz s = some t)
    (page : UInt64) :
    t.pageLastAccesses.entry page = s.pageLastAccesses.entry page ∧
        ¬ Overlaps s.tracePageSizeLog2 page addr accessSz ∨
      t.pageLastAccesses.entry page = stamp s.currTime (s.pageLastAccesses.entry page) ∧
        Overlaps s.tracePageSizeLog2 page addr accessSz := by
  have hlookup := onAccess_lookup hstamp hlog2 hok haccess page
  by_cases hover : Overlaps s.tracePageSizeLog2 page addr accessSz
  · rw [if_pos ((overlaps_iff hlog2 hok).mp hover)] at hlookup
    exact .inr ⟨by rw [PageMap.entry, hlookup]; rfl, hover⟩
  · rw [if_neg fun h => hover ((overlaps_iff hlog2 hok).mpr h)] at hlookup
    exact .inl ⟨by rw [PageMap.entry, hlookup]; rfl, hover⟩

/-- What one event does to the clock, the phase start and the page times. -/
structure Effect (s : State) (e : Event) (t : State) : Prop where
  log2 : t.tracePageSizeLog2 = s.tracePageSizeLog2
  clock : t.currTime = s.currTime ∨ t.currTime = s.currTime + 1
  times : ∀ (kind : Kind) (page : UInt64),
    (Touches s.tracePageSizeLog2 kind page e ∧ t.currTime = s.currTime + 1 ∧
      kind.time (t.pageLastAccesses.entry page) = s.currTime) ∨
    (¬ Touches s.tracePageSizeLog2 kind page e ∧
      kind.time (t.pageLastAccesses.entry page) = kind.time (s.pageLastAccesses.entry page))
  start : (e.isPhase = true ∧ t.currTime = s.currTime + 1 ∧ t.phaseStart = s.currTime + 1) ∨
    (e.isPhase = false ∧ t.phaseStart = s.phaseStart)

theorem onRead_effect {fuel : Nat} {addr : UInt64} {accessSz : UInt32} {s t : State}
    (hlog2 : s.tracePageSizeLog2.toNat ≤ 31) (hok : AccessOk addr accessSz)
    (haccess : onRead fuel addr accessSz s = some t) :
    Effect s (.onRead addr accessSz) t := by
  have htime := onAccess_time stampRead (fun _ _ => rfl) hlog2 hok haccess
  obtain ⟨map, rfl⟩ := onAccess_frame haccess
  refine ⟨rfl, .inr rfl, fun kind page => ?_, .inr ⟨rfl, rfl⟩⟩
  cases kind with
  | read =>
    rcases htime page with ⟨hentry, hover⟩ | ⟨hentry, hover⟩
    · exact .inr ⟨fun htouch => hover htouch.2, congrArg RWTime.lastRead hentry⟩
    · exact .inl ⟨⟨rfl, hover⟩, rfl, congrArg RWTime.lastRead hentry⟩
  | write =>
    refine .inr ⟨nofun, ?_⟩
    rcases htime page with ⟨hentry, _⟩ | ⟨hentry, _⟩ <;>
      exact (congrArg RWTime.lastWrite hentry).trans rfl

theorem onWrite_effect {fuel : Nat} {addr : UInt64} {accessSz : UInt32} {s t : State}
    (hlog2 : s.tracePageSizeLog2.toNat ≤ 31) (hok : AccessOk addr accessSz)
    (haccess : onWrite fuel addr accessSz s = some t) :
    Effect s (.onWrite addr accessSz) t := by
  have htime := onAccess_time stampWrite (fun _ _ => rfl) hlog2 hok haccess
  obtain ⟨map, rfl⟩ := onAccess_frame haccess
  refine ⟨rfl, .inr rfl, fun kind page => ?_, .inr ⟨rfl, rfl⟩⟩
  cases kind with
  | read =>
    refine .inr ⟨nofun, ?_⟩
    rcases htime page with ⟨hentry, _⟩ | ⟨hentry, _⟩ <;>
      exact (congrArg RWTime.lastRead hentry).trans rfl
  | write =>
    rcases htime page with ⟨hentry, hover⟩ | ⟨hentry, hover⟩
    · exact .inr ⟨fun htouch => hover htouch.2, congrArg RWTime.lastWrite hentry⟩
    · exact .inl ⟨⟨rfl, hover⟩, rfl, congrArg RWTime.lastWrite hentry⟩

theorem step_effect {s t : State} {e : Event} (hlog2 : s.tracePageSizeLog2.toNat ≤ 31)
    (hok : EventOk e) (hstep : Step s e t) : Effect s e t := by
  cases hstep with
  | onRead fuel haccess => exact onRead_effect hlog2 hok haccess
  | onWrite fuel haccess => exact onWrite_effect hlog2 hok haccess
  | countBbl n => exact ⟨rfl, .inl rfl, fun _ _ => .inr ⟨id, rfl⟩, .inr ⟨rfl, rfl⟩⟩
  | ioStub bytes => exact ⟨rfl, .inr rfl, fun _ _ => .inr ⟨id, rfl⟩, .inr ⟨rfl, rfl⟩⟩
  | phaseStub name accesses hperm =>
    refine ⟨rfl, .inr rfl, fun _ _ => .inr ⟨id, rfl⟩, .inl ⟨rfl, rfl, ?_⟩⟩
    exact List.getLast_concat
  | routine rtnName =>
    unfold routine
    split <;> split <;> exact ⟨rfl, .inl rfl, fun _ _ => .inr ⟨id, rfl⟩, .inr ⟨rfl, rfl⟩⟩

/-! ### The invariants -/

/-- While fewer than `2^64` events have happened, the clock has not wrapped and
is ahead of every time in the state. -/
structure Clocked (log2 : UInt64) (past : List Event) (s : State) : Prop where
  log2_eq : s.tracePageSizeLog2 = log2
  clock_le : s.currTime.toNat ≤ past.length
  time_le : ∀ kind page,
    (Kind.time kind (s.pageLastAccesses.entry page)).toNat ≤ s.currTime.toNat
  start_le : s.phaseStart.toNat ≤ s.currTime.toNat

/-- The pages whose time is not before the phase are the touched ones. -/
structure Current (log2 : UInt64) (since : List Event) (s : State) : Prop where
  start_pos : 0 < s.phaseStart.toNat
  seen : ∀ kind page,
    s.phaseStart.toNat ≤ (Kind.time kind (s.pageLastAccesses.entry page)).toNat ↔
      ∃ e ∈ since, Touches log2 kind page e

theorem clocked_start (log2 : UInt64) : Clocked log2 [] (start log2) :=
  ⟨rfl, Nat.le_refl _, fun kind _ => by cases kind <;> exact Nat.le_refl _, Nat.le_refl _⟩

private theorem toNat_succ (time : UInt64) (hsmall : time.toNat + 1 < 2 ^ 64) :
    (time + 1).toNat = time.toNat + 1 := by
  rw [UInt64.toNat_add, UInt64.toNat_one, Nat.mod_eq_of_lt hsmall]

theorem Clocked.step {log2 : UInt64} {past : List Event} {s t : State} {e : Event}
    (hclocked : Clocked log2 past s) (heffect : Effect s e t)
    (hlength : (past ++ [e]).length < 2 ^ 64) : Clocked log2 (past ++ [e]) t := by
  rw [List.length_append, List.length_singleton] at hlength
  have hclock := hclocked.clock_le
  have hsucc := toNat_succ s.currTime (by omega)
  have hbound : s.currTime.toNat ≤ t.currTime.toNat := by
    rcases heffect.clock with heq | heq
    · rw [heq]
    · rw [heq, hsucc]
      omega
  refine ⟨heffect.log2.trans hclocked.log2_eq, ?_, fun kind page => ?_, ?_⟩
  · rw [List.length_append, List.length_singleton]
    rcases heffect.clock with heq | heq <;> (rw [heq]; omega)
  · rcases heffect.times kind page with ⟨_, _, htime⟩ | ⟨_, htime⟩ <;> rw [htime]
    · exact hbound
    · exact Nat.le_trans (hclocked.time_le kind page) hbound
  · rcases heffect.start with ⟨_, hnow, hstart⟩ | ⟨_, hstart⟩ <;> rw [hstart]
    · rw [hnow]
    · exact Nat.le_trans hclocked.start_le hbound

/-- A new phase starts after every time in the state, so nothing is seen yet. -/
theorem Current.of_phase {log2 : UInt64} {past : List Event} {s t : State} {e : Event}
    (hclocked : Clocked log2 past s) (heffect : Effect s e t) (hphase : e.isPhase = true)
    (hlength : past.length + 1 < 2 ^ 64) : Current log2 [] t := by
  have hclock := hclocked.clock_le
  have hsucc := toNat_succ s.currTime (by omega)
  rcases heffect.start with ⟨_, _, hstart⟩ | ⟨hnot, _⟩
  · rw [← hstart] at hsucc
    refine ⟨by omega, fun kind page => ?_⟩
    have htime := hclocked.time_le kind page
    have hsame : (kind.time (t.pageLastAccesses.entry page)).toNat ≤ s.currTime.toNat := by
      rcases heffect.times kind page with ⟨_, _, hnow⟩ | ⟨_, hold⟩
      · exact hnow ▸ Nat.le_refl _
      · exact hold ▸ htime
    simp only [List.not_mem_nil, false_and, exists_false, iff_false]
    omega
  · rw [hphase] at hnot
    cases hnot

theorem Current.step {log2 : UInt64} {past since : List Event} {s t : State} {e : Event}
    (hclocked : Clocked log2 past s) (hcurrent : Current log2 since s) (heffect : Effect s e t)
    (hphase : e.isPhase = false) : Current log2 (since ++ [e]) t := by
  have hlog2 := hclocked.log2_eq
  rcases heffect.start with ⟨hyes, _⟩ | ⟨_, hstart⟩
  · rw [hphase] at hyes
    cases hyes
  · refine ⟨hstart ▸ hcurrent.start_pos, fun kind page => ?_⟩
    have hseen := hcurrent.seen kind page
    have hle := hclocked.start_le
    rw [hstart]
    rcases heffect.times kind page with ⟨htouch, _, htime⟩ | ⟨htouch, htime⟩ <;>
      rw [hlog2] at htouch <;> rw [htime]
    · exact ⟨fun _ => ⟨e, by simp, htouch⟩, fun _ => hle⟩
    · rw [hseen]
      constructor
      · rintro ⟨f, hmem, hf⟩
        exact ⟨f, List.mem_append_left _ hmem, hf⟩
      · rintro ⟨f, hmem, hf⟩
        rcases List.mem_append.mp hmem with hold | hnew
        · exact ⟨f, hold, hf⟩
        · cases List.mem_singleton.mp hnew
          exact absurd hf htouch

/-! ### Whole runs -/

theorem clocked_run {log2 : UInt64} {past es : List Event} {s t : State}
    (hlog2 : log2.toNat ≤ 31) (hrun : Run Step s es t) (hclocked : Clocked log2 past s)
    (hok : ∀ e ∈ es, EventOk e) (hlength : (past ++ es).length < 2 ^ 64) :
    Clocked log2 (past ++ es) t := by
  induction hrun generalizing past with
  | nil s => simpa using hclocked
  | @cons s t u e es hstep _ ih =>
    have hlength' : ((past ++ [e]) ++ es).length < 2 ^ 64 := by simpa using hlength
    have heffect := step_effect (by rw [hclocked.log2_eq]; exact hlog2)
      (hok e List.mem_cons_self) hstep
    have hnext := hclocked.step heffect (by
      rw [List.length_append] at hlength'
      omega)
    simpa using ih hnext (fun f hf => hok f (List.mem_cons_of_mem _ hf)) hlength'

theorem current_run {log2 : UInt64} {past since es : List Event} {s t : State}
    (hlog2 : log2.toNat ≤ 31) (hrun : Run Step s es t) (hclocked : Clocked log2 past s)
    (hcurrent : Current log2 since s) (hok : ∀ e ∈ es, EventOk e)
    (hphase : ∀ e ∈ es, e.isPhase = false) (hlength : (past ++ es).length < 2 ^ 64) :
    Current log2 (since ++ es) t := by
  induction hrun generalizing past since with
  | nil s => simpa using hcurrent
  | @cons s t u e es hstep _ ih =>
    have hlength' : ((past ++ [e]) ++ es).length < 2 ^ 64 := by simpa using hlength
    have heffect := step_effect (by rw [hclocked.log2_eq]; exact hlog2)
      (hok e List.mem_cons_self) hstep
    have hnext := hclocked.step heffect (by
      rw [List.length_append] at hlength'
      omega)
    have hsince := hcurrent.step hclocked heffect (hphase e List.mem_cons_self)
    simpa using ih hnext hsince (fun f hf => hok f (List.mem_cons_of_mem _ hf))
      (fun f hf => hphase f (List.mem_cons_of_mem _ hf)) hlength'

/-- The state reached by a run whose last phase marker is the one shown. -/
theorem current_of_run {log2 : UInt64} {before during : List Event} {name : Chars} {s : State}
    (hlog2 : log2.toNat ≤ 31) (hok : ∀ e ∈ before ++ during, EventOk e)
    (hphase : ∀ e ∈ during, e.isPhase = false)
    (hlength : before.length + 1 + during.length < 2 ^ 64)
    (hrun : Run Step (start log2) (before ++ .phaseStub name :: during) s) :
    Clocked log2 (before ++ [.phaseStub name] ++ during) s ∧ Current log2 during s := by
  obtain ⟨r, hbefore, hrest⟩ := run_append_iff.mp hrun
  obtain ⟨u, hmark, hduring⟩ := run_cons_iff.mp hrest
  have hleft := clocked_run hlog2 hbefore (clocked_start log2)
    (fun e he => hok e (List.mem_append_left _ he)) (by simp; omega)
  have hmarkOk : EventOk (.phaseStub name) := trivial
  have heffect := step_effect (by rw [hleft.log2_eq]; exact hlog2) hmarkOk hmark
  have hmid := hleft.step heffect (by simp; omega)
  have hfresh := Current.of_phase hleft heffect rfl (by simp; omega)
  have hright : ∀ e ∈ during, EventOk e := fun e he => hok e (List.mem_append_right _ he)
  refine ⟨clocked_run hlog2 hduring hmid hright (by simp; omega), ?_⟩
  simpa using current_run hlog2 hduring hmid hfresh hright hphase (by simp; omega)

/-! ### The printed summary -/

theorem inWindow_iff {startTime endTime time : UInt64} (hbefore : time.toNat < endTime.toNat) :
    inWindow startTime endTime time = true ↔ startTime.toNat ≤ time.toNat := by
  simp [inWindow, UInt64.le_iff_toNat_le, UInt64.lt_iff_toNat_lt, hbefore]

theorem traceOf_eq_some {startTime endTime : UInt64} {access : Entry} {line : TraceLine} :
    traceOf startTime endTime access = some line ↔
      line = ⟨startTime, endTime, access.1, inWindow startTime endTime access.2.lastRead,
        inWindow startTime endTime access.2.lastWrite⟩ ∧
      (line.didRead = true ∨ line.didWrite = true) := by
  simp only [traceOf]
  split
  · rename_i hseen
    rw [Option.some_inj]
    constructor
    · rintro rfl
      exact ⟨rfl, by simpa using hseen⟩
    · rintro ⟨rfl, _⟩
      rfl
  · rename_i hseen
    simp only [reduceCtorEq, false_iff]
    rintro ⟨rfl, hor⟩
    exact hseen (by simpa using hor)

/-- No page is traced twice, whatever the order of the map. -/
theorem nodup_traces {map : PageMap} {accesses : List Entry} (startTime endTime : UInt64)
    (hperm : accesses.Perm map.entries) :
    ((accesses.filterMap (traceOf startTime endTime)).map TraceLine.pageIdx).Nodup := by
  have hkeys : (accesses.map Sigma.fst).Nodup :=
    (hperm.map Sigma.fst).nodup_iff.mpr map.nodupKeys
  refine hkeys.sublist ?_
  rw [List.map_filterMap]
  clear hkeys hperm
  induction accesses with
  | nil => exact List.Sublist.refl []
  | cons access rest ih =>
    cases htrace : traceOf startTime endTime access with
    | none => simpa [htrace] using ih.cons access.1
    | some line =>
      have hpage : line.pageIdx = access.1 := by
        rw [(traceOf_eq_some.mp htrace).1]
      simpa [htrace, hpage] using ih

section Marker

variable {log2 : UInt64} {past since : List Event} {s : State} {accesses : List Entry}

/-- A time is in the window of a marker if its page was touched since the last one. -/
theorem inWindow_iff_touched (hclocked : Clocked log2 past s) (hcurrent : Current log2 since s)
    (hlength : past.length + 1 < 2 ^ 64) (kind : Kind) (page : UInt64) :
    inWindow s.phaseStart (s.currTime + 1) (Kind.time kind (s.pageLastAccesses.entry page)) = true ↔
      ∃ e ∈ since, Touches log2 kind page e := by
  have hclock := hclocked.clock_le
  have hsucc := toNat_succ s.currTime (by omega)
  have htime := hclocked.time_le kind page
  rw [inWindow_iff (by omega)]
  exact hcurrent.seen kind page

theorem entry_of_lookup {map : PageMap} {page : UInt64} {entry : RWTime}
    (hlookup : map.lookup page = some entry) : map.entry page = entry := by
  rw [PageMap.entry, hlookup]
  rfl

/-- A line shows the times that the map has for its page. -/
theorem letters_of_mem (hperm : accesses.Perm s.pageLastAccesses.entries) {endTime : UInt64}
    {line : TraceLine} (hmem : line ∈ accesses.filterMap (traceOf s.phaseStart endTime)) :
    line.didRead = inWindow s.phaseStart endTime
        (Kind.time .read (s.pageLastAccesses.entry line.pageIdx)) ∧
      line.didWrite = inWindow s.phaseStart endTime
        (Kind.time .write (s.pageLastAccesses.entry line.pageIdx)) := by
  obtain ⟨access, haccess, htrace⟩ := List.mem_filterMap.mp hmem
  obtain ⟨rfl, _⟩ := traceOf_eq_some.mp htrace
  rw [entry_of_lookup (AList.mem_lookup_iff.mpr (hperm.mem_iff.mp haccess))]
  exact ⟨rfl, rfl⟩

/-- A page with a time in the window has a line. -/
theorem mem_traces_of_inWindow (hperm : accesses.Perm s.pageLastAccesses.entries)
    {endTime : UInt64} {kind : Kind} {page : UInt64} (hpage : page ∈ s.pageLastAccesses)
    (hseen : inWindow s.phaseStart endTime
      (Kind.time kind (s.pageLastAccesses.entry page)) = true) :
    page ∈ (accesses.filterMap (traceOf s.phaseStart endTime)).map TraceLine.pageIdx := by
  obtain ⟨entry, hlookup⟩ := Option.isSome_iff_exists.mp (AList.lookup_isSome.mpr hpage)
  rw [entry_of_lookup hlookup] at hseen
  have hmem : (⟨page, entry⟩ : Entry) ∈ accesses :=
    hperm.mem_iff.mpr (AList.mem_lookup_iff.mp hlookup)
  refine List.mem_map.mpr ⟨⟨s.phaseStart, endTime, page,
    inWindow s.phaseStart endTime entry.lastRead, inWindow s.phaseStart endTime entry.lastWrite⟩,
    List.mem_filterMap.mpr ⟨_, hmem, traceOf_eq_some.mpr ⟨rfl, ?_⟩⟩, rfl⟩
  cases kind with
  | read => exact .inl hseen
  | write => exact .inr hseen

/-- An absent page has time 0, which is before the phase. -/
theorem mem_of_touched (hcurrent : Current log2 since s) {kind : Kind} {page : UInt64}
    (htouched : ∃ e ∈ since, Touches log2 kind page e) : page ∈ s.pageLastAccesses := by
  by_contra habsent
  have hlookup := AList.lookup_eq_none.mpr habsent
  have hzero : Kind.time kind (s.pageLastAccesses.entry page) = 0 := by
    rw [PageMap.entry, hlookup]
    cases kind <;> rfl
  have hseen := (hcurrent.seen kind page).mpr htouched
  have hstart := hcurrent.start_pos
  rw [hzero, UInt64.toNat_zero] at hseen
  omega

/-- A phase marker in a state that satisfies both invariants traces exactly the
pages touched since the phase began, each with the right letters. -/
theorem traces_exact (hclocked : Clocked log2 past s) (hcurrent : Current log2 since s)
    (hlength : past.length + 1 < 2 ^ 64) (hperm : accesses.Perm s.pageLastAccesses.entries) :
    let lines := accesses.filterMap (traceOf s.phaseStart (s.currTime + 1))
    (∀ page, page ∈ lines.map TraceLine.pageIdx ↔
      ∃ kind, ∃ e ∈ since, Touches log2 kind page e) ∧
    ∀ line ∈ lines,
      (line.didRead = true ↔ ∃ e ∈ since, Touches log2 .read line.pageIdx e) ∧
      (line.didWrite = true ↔ ∃ e ∈ since, Touches log2 .write line.pageIdx e) := by
  intro lines
  have hwindow := inWindow_iff_touched hclocked hcurrent hlength
  have hletters : ∀ line ∈ lines,
      (line.didRead = true ↔ ∃ e ∈ since, Touches log2 .read line.pageIdx e) ∧
      (line.didWrite = true ↔ ∃ e ∈ since, Touches log2 .write line.pageIdx e) := by
    intro line hmem
    obtain ⟨hread, hwrite⟩ := letters_of_mem hperm hmem
    rw [hread, hwrite]
    exact ⟨hwindow .read line.pageIdx, hwindow .write line.pageIdx⟩
  refine ⟨fun page => ⟨fun hpage => ?_, fun ⟨kind, htouched⟩ => ?_⟩, hletters⟩
  · obtain ⟨line, hmem, rfl⟩ := List.mem_map.mp hpage
    obtain ⟨access, _, htrace⟩ := List.mem_filterMap.mp hmem
    rcases (traceOf_eq_some.mp htrace).2 with hread | hwrite
    · exact ⟨.read, (hletters line hmem).1.mp hread⟩
    · exact ⟨.write, (hletters line hmem).2.mp hwrite⟩
  · have hseen := (hwindow kind page).mpr htouched
    exact mem_traces_of_inWindow hperm (mem_of_touched hcurrent htouched) hseen

end Marker

/-- Touched pages are below the greatest word, so the counters cannot wrap. -/
theorem length_traces_lt {log2 : UInt64} {since : List Event} {lines : List TraceLine}
    (hlog2 : log2.toNat ≤ 31) (hok : ∀ e ∈ since, EventOk e)
    (hnodup : (lines.map TraceLine.pageIdx).Nodup)
    (hpages : ∀ page ∈ lines.map TraceLine.pageIdx, ∃ kind, ∃ e ∈ since, Touches log2 kind page e) :
    lines.length < 2 ^ 64 := by
  have hbelow : (lines.map TraceLine.pageIdx).map UInt64.toNat ⊆ List.range (2 ^ 64 - 1) := by
    intro n hn
    obtain ⟨page, hpage, rfl⟩ := List.mem_map.mp hn
    obtain ⟨kind, e, hmem, htouch⟩ := hpages page hpage
    have hevent := hok e hmem
    rw [List.mem_range]
    cases e with
    | onRead addr accessSz =>
      have hle := ((overlaps_iff hlog2 hevent).mp htouch.2).2
      exact Nat.lt_of_le_of_lt (UInt64.le_iff_toNat_le.mp hle) (epage_lt hlog2 hevent)
    | onWrite addr accessSz =>
      have hle := ((overlaps_iff hlog2 hevent).mp htouch.2).2
      exact Nat.lt_of_le_of_lt (UInt64.le_iff_toNat_le.mp hle) (epage_lt hlog2 hevent)
    | countBbl n => exact absurd htouch id
    | phaseStub name => exact absurd htouch id
    | ioStub bytes => exact absurd htouch id
    | routine rtnName => exact absurd htouch id
  have hinj : ((lines.map TraceLine.pageIdx).map UInt64.toNat).Nodup :=
    hnodup.map fun a b h => UInt64.toNat_inj.mp h
  have hlen := (List.subperm_of_subset hinj hbelow).length_le
  simp only [List.length_map, List.length_range] at hlen
  omega

private theorem toNat_counter {lines : List TraceLine} (p : TraceLine → Bool)
    (hlength : lines.length < 2 ^ 64) :
    (UInt64.ofNat (lines.countP p)).toNat = lines.countP p := by
  have hle : lines.countP p ≤ lines.length := List.countP_le_length
  rw [UInt64.toNat_ofNat', Nat.mod_eq_of_lt (by omega)]

/-- The page loops end, and every phase marker after the first prints one trace
line for each page touched since the previous marker and no other, with `R` and
`W` for the kinds of access that touched it, and counts the lines. -/
theorem phases_classified_exactly (log2 : UInt64) (hlog2 : log2.toNat ≤ 31) :
    (∀ (es : List Event) (s : State), (∀ e ∈ es, EventOk e) → es.length < 2 ^ 64 →
      Run Step (start log2) es s → ∀ (addr : UInt64) (accessSz : UInt32), AccessOk addr accessSz →
        (∃ fuel t, onRead fuel addr accessSz s = some t) ∧
        (∃ fuel t, onWrite fuel addr accessSz s = some t)) ∧
    (∀ (before during : List Event) (name name' : Chars) (s t : State),
      (∀ e ∈ before ++ during, EventOk e) → (∀ e ∈ during, e.isPhase = false) →
      (before ++ Event.phaseStub name :: during ++ [Event.phaseStub name']).length < 2 ^ 64 →
      Run Step (start log2) (before ++ .phaseStub name :: during) s →
      Step s (.phaseStub name') t →
      ∃ (traces : List TraceLine) (uniqRO uniqRW uniqWO : UInt64),
        t.out = s.out ++ .phase (pageSizeInt log2) s.phaseStart t.currTime name'
          s.instructionCounter s.ioBytes :: (traces.map .trace ++
            [.summary uniqRO uniqRW uniqWO (uniqRO + uniqRW + uniqWO)]) ∧
        (traces.map TraceLine.pageIdx).Nodup ∧
        (∀ page, page ∈ traces.map TraceLine.pageIdx ↔
          ∃ kind, ∃ e ∈ during, Touches log2 kind page e) ∧
        (∀ line ∈ traces,
          (line.didRead = true ↔ ∃ e ∈ during, Touches log2 .read line.pageIdx e) ∧
          (line.didWrite = true ↔ ∃ e ∈ during, Touches log2 .write line.pageIdx e)) ∧
        uniqRO.toNat = traces.countP TraceLine.isRO ∧
        uniqRW.toNat = traces.countP TraceLine.isRW ∧
        uniqWO.toNat = traces.countP TraceLine.isWO) := by
  constructor
  · intro es s hok hlength hrun addr accessSz haccess
    have hclocked := clocked_run hlog2 hrun (clocked_start log2) hok hlength
    have hsame : s.tracePageSizeLog2.toNat ≤ 31 := by rw [hclocked.log2_eq]; exact hlog2
    exact ⟨exists_onAccess stampRead hsame haccess, exists_onAccess stampWrite hsame haccess⟩
  · intro before during name name' s t hok hphase hlength hrun hstep
    simp only [List.length_append, List.length_cons, List.length_nil] at hlength
    obtain ⟨hclocked, hcurrent⟩ := current_of_run hlog2 hok hphase (by omega) hrun
    cases hstep with
    | phaseStub _ accesses hperm =>
      obtain ⟨hpages, hletters⟩ := traces_exact hclocked hcurrent (by simp; omega) hperm
      have hnodup := nodup_traces s.phaseStart (s.currTime + 1) hperm
      have hshort := length_traces_lt hlog2
        (fun e he => hok e (List.mem_append_right _ he)) hnodup fun page => (hpages page).mp
      have hout := phaseOutput_eq name' accesses s
      rw [hclocked.log2_eq] at hout
      exact ⟨_, _, _, _, congrArg (s.out ++ ·) hout, hnodup, hpages, hletters,
        toNat_counter _ hshort, toNat_counter _ hshort, toNat_counter _ hshort⟩

/-- A read that straddles two pages and a write to the second of them, between
two markers: the first page is traced `R`, the second `RW`. -/
theorem phases_classified_straddling :
    ∃ s t : State, Run Step (start 12)
        [.onWrite 0 1, .phaseStub "main".toList, .onRead 8190 4, .onWrite 8192 1] s ∧
      Step s (.phaseStub "end".toList) t ∧
      ∃ (traces : List TraceLine) (uniqRO uniqRW uniqWO : UInt64),
        t.out = s.out ++ .phase (pageSizeInt 12) s.phaseStart t.currTime "end".toList
          s.instructionCounter s.ioBytes :: (traces.map .trace ++
            [.summary uniqRO uniqRW uniqWO (uniqRO + uniqRW + uniqWO)]) ∧
        uniqRO.toNat = traces.countP TraceLine.isRO ∧
        ∀ page, page ∈ traces.map TraceLine.pageIdx ↔ ∃ kind,
          ∃ e ∈ [Event.onRead 8190 4, .onWrite 8192 1], Touches 12 kind page e := by
  have hwrite : AccessOk 0 1 := ⟨by decide, by decide⟩
  have hread : AccessOk 8190 4 := ⟨by decide, by decide⟩
  have hsecond : AccessOk 8192 1 := ⟨by decide, by decide⟩
  have hok : ∀ e ∈ [Event.onWrite 0 1] ++ [.onRead 8190 4, .onWrite 8192 1], EventOk e := by
    simp [EventOk, hwrite, hread, hsecond]
  obtain ⟨r, hrun⟩ : ∃ r, Run Step (start 12) [.onWrite 0 1, .phaseStub "main".toList,
      .onRead 8190 4, .onWrite 8192 1] r := by
    refine ⟨_, .cons (.onWrite 2 rfl) (.cons (.phaseStub _ _ (.refl _))
      (.cons (.onRead 3 rfl) (.cons (.onWrite 2 rfl) (.nil _))))⟩
  have hstep : Step r (.phaseStub "end".toList) _ := .phaseStub _ _ (.refl _)
  obtain ⟨traces, ro, rw, wo, hout, _, hpages, _, hro, _, _⟩ :=
    (phases_classified_exactly 12 (by decide)).2 [.onWrite 0 1] [.onRead 8190 4, .onWrite 8192 1]
      _ _ r _ hok (by simp [Event.isPhase]) (by decide) hrun hstep
  exact ⟨r, _, hrun, hstep, traces, ro, rw, wo, hout, hro, hpages⟩

end NdpOffload.NearMap.Classification
