import NdpOffload.Library.Runs
import NdpOffload.Library.Windows
import NdpOffload.Statmon.Monitor

/-! `main.rs` of `statmon`: the start-up, the timer and the handlers of the
connections.  Every use of the shared `Stats` happens under its lock, so a byte
of a connection and a tick of the timer are atomic steps. -/
namespace NdpOffload.Statmon.Server

open Library.Outcomes Library.Runs Library.Text Library.Windows Table Sources Monitor

variable {F : Type} [F64 F]

structure Options where
  hostPrefix : Chars
  netdev : Chars

/-- The start of `async_main`: two updates before the port is opened. -/
def boot (opts : Options) (events : EventStat) (first second : Moment) : Result (Stats F) :=
  (Stats.update first
    { Stats.new events with hostPrefix := opts.hostPrefix, netIface := opts.netdev }).andThen
      (Stats.update second)

/-- What one command byte does: the handler goes on, possibly after sending a
packet; or it returns; or the process aborts. -/
inductive Served (F : Type) where
  | goesOn (stats : Stats F) (sent : Option Chars)
  | returns (stats : Stats F)
  | aborts

/-- A failed update ends the connection but keeps what it changed. -/
def Served.ofResult (reply : Stats F → Option Chars) : Result (Stats F) → Served F
  | .done stats => .goesOn stats (reply stats)
  | .failed _ stats => .returns stats
  | .panicked _ => .aborts

def connHandler (byte : UInt8) (now : Moment) (s : Stats F) : Served F :=
  if byte = '\n'.toUInt8 ∨ byte = '\r'.toUInt8 ∨ byte = 0 then
    .goesOn s none
  else if byte = 'q'.toUInt8 then
    .returns s
  else if byte = '['.toUInt8 then
    .ofResult (fun _ => none) ((s.update now).andThen (Stats.beginRange now.counters))
  else if byte = ']'.toUInt8 then
    .ofResult (fun t => some t.statPacket) ((s.update now).andThen (Stats.endRange now.counters))
  else if byte = '?'.toUInt8 then
    .goesOn s (some s.statPacket)
  else
    .goesOn s none

/-- The current values of all statistics. -/
def observe (s : Stats F) : WhichStat → StatValue F := fun which => (s.stats which).valueNow

/-- What happens at the server.  A successful update shows the values it left. -/
inductive Event (F : Type) where
  | tick (now : Moment) (values : WhichStat → StatValue F)
  | byte (conn : Nat) (byte : UInt8) (now : Moment) (values : WhichStat → StatValue F)
      (sent : Option Chars)
  | returned (conn : Nat) (byte : UInt8) (now : Moment)
  | hungUp (conn : Nat)

structure State (F : Type) where
  stats : Stats F
  gone : List Nat := []

inductive Step : State F → Event F → State F → Prop where
  | tick {s : State F} {t : Stats F} {now : Moment} :
      s.stats.update now = .done t →
      Step s (.tick now (observe t)) { s with stats := t }
  | byte {s : State F} {t : Stats F} {conn : Nat} {b : UInt8} {now : Moment}
      {sent : Option Chars} :
      conn ∉ s.gone → connHandler b now s.stats = .goesOn t sent →
      Step s (.byte conn b now (observe t) sent) { s with stats := t }
  | returned {s : State F} {t : Stats F} {conn : Nat} {b : UInt8} {now : Moment} :
      conn ∉ s.gone → connHandler b now s.stats = .returns t →
      Step s (.returned conn b now) { stats := t, gone := conn :: s.gone }
  | hungUp {s : State F} {conn : Nat} :
      conn ∉ s.gone → Step s (.hungUp conn) { s with gone := conn :: s.gone }

/-- A server that has just opened its port. -/
def Booted (opts : Options) (s : State F) : Prop :=
  s.gone = [] ∧ ∃ host events first second,
    EventStat.IsNew host events ∧ boot opts events first second = .done s.stats

/-! ### The samples of a run -/

def Event.isByte (c : Char) : Event F → Bool
  | .byte _ b _ _ _ => b = c.toUInt8
  | _ => false

/-- The values of a successful update, marked by what triggered it. -/
def sample : Event F → Option (Mark × (WhichStat → StatValue F))
  | .tick _ values => some (.plain, values)
  | .byte _ b _ values _ =>
      if b = '['.toUInt8 then some (.opening, values)
      else if b = ']'.toUInt8 then some (.closing, values)
      else none
  | .returned _ _ _ => none
  | .hungUp _ => none

def samples (history : List (Event F)) : List (Mark × (WhichStat → StatValue F)) :=
  history.filterMap sample

/-- One statistic over the current or last range: the values it had after each
update since the last `[`, up to that of the first `]`. -/
def rangeValues (history : List (Event F)) (which : WhichStat) : List (StatValue F) :=
  (window (samples history)).map fun values => values which

omit [F64 F] in
@[simp] theorem samples_append (left right : List (Event F)) :
    samples (left ++ right) = samples left ++ samples right := List.filterMap_append

/-! ### What a step does to the shared state -/

/-- The effect of one step, next to the sample it shows. -/
inductive Effect : Stats F → Option (Mark × (WhichStat → StatValue F)) → Stats F → Prop where
  | unchanged (s : Stats F) : Effect s none s
  | failed {s t : Stats F} {now : Moment} {error : Error} :
      s.update now = .failed error t → Effect s none t
  | ticked {s t : Stats F} {now : Moment} :
      s.update now = .done t → Effect s (some (.plain, observe t)) t
  | opened {s u t : Stats F} {now : Moment} :
      s.update now = .done u → u.beginRange now.counters = .done t →
      Effect s (some (.opening, observe t)) t
  | closed {s u t : Stats F} {now : Moment} :
      s.update now = .done u → u.endRange now.counters = .done t →
      Effect s (some (.closing, observe t)) t

theorem connHandler_opening (now : Moment) (s : Stats F) :
    connHandler '['.toUInt8 now s =
      .ofResult (fun _ => none) ((s.update now).andThen (Stats.beginRange now.counters)) := rfl

theorem connHandler_closing (now : Moment) (s : Stats F) :
    connHandler ']'.toUInt8 now s =
      .ofResult (fun t => some t.statPacket)
        ((s.update now).andThen (Stats.endRange now.counters)) := rfl

omit [F64 F] in
theorem ofResult_eq_goesOn {reply : Stats F → Option Chars} {result : Result (Stats F)}
    {t : Stats F} {sent : Option Chars} :
    Served.ofResult reply result = .goesOn t sent ↔ result = .done t ∧ reply t = sent := by
  cases result with
  | done u =>
    simp only [Served.ofResult, Served.goesOn.injEq, Outcome.done.injEq]
    constructor
    · rintro ⟨rfl, rfl⟩
      exact ⟨rfl, rfl⟩
    · rintro ⟨rfl, rfl⟩
      exact ⟨rfl, rfl⟩
  | failed error u => simp [Served.ofResult]
  | panicked message => simp [Served.ofResult]

omit [F64 F] in
/-- Neither range command returns an error, so only the update can. -/
theorem ofResult_eq_returns {reply : Stats F → Option Chars} {first : Result (Stats F)}
    {next : Stats F → Result (Stats F)} {t : Stats F}
    (hnext : ∀ u error v, next u ≠ .failed error v)
    (hreturns : Served.ofResult reply (first.andThen next) = .returns t) :
    ∃ error, first = .failed error t := by
  cases first with
  | done u =>
    rw [andThen_done] at hreturns
    cases hresult : next u with
    | done v => simp [hresult, Served.ofResult] at hreturns
    | failed error v => exact absurd hresult (hnext u error v)
    | panicked message => simp [hresult, Served.ofResult] at hreturns
  | failed error u =>
    simp only [Outcome.andThen, Served.ofResult, Served.returns.injEq] at hreturns
    exact ⟨error, by rw [hreturns]⟩
  | panicked message => simp [Outcome.andThen, Served.ofResult] at hreturns

theorem beginRange_ne_failed (counters : Counters) (u v : Stats F) (error : Error) :
    u.beginRange counters ≠ .failed error v := by
  unfold Stats.beginRange
  split <;> simp

omit [F64 F] in
theorem endRange_ne_failed (counters : Counters) (u v : Stats F) (error : Error) :
    u.endRange counters ≠ .failed error v := by
  unfold Stats.endRange
  split <;> simp

theorem beginRange_done {counters : Counters} {u t : Stats F}
    (hbegin : u.beginRange counters = .done t) :
    t = { u with inRange := true, stats := fun which => (u.stats which).reset } := by
  unfold Stats.beginRange at hbegin
  split at hbegin
  · exact (Outcome.done.inj hbegin).symm
  · cases hbegin

omit [F64 F] in
theorem endRange_done {counters : Counters} {u t : Stats F}
    (hend : u.endRange counters = .done t) : t = { u with inRange := false } := by
  unfold Stats.endRange at hend
  split at hend
  · exact (Outcome.done.inj hend).symm
  · cases hend

/-- The other bytes leave the shared state alone. -/
theorem connHandler_other {b : UInt8} (now : Moment) (s : Stats F) (hopening : b ≠ '['.toUInt8)
    (hclosing : b ≠ ']'.toUInt8) :
    connHandler b now s = .returns s ∨ ∃ sent, connHandler b now s = .goesOn s sent := by
  simp only [connHandler, hopening, hclosing, if_false]
  split
  · exact .inr ⟨none, rfl⟩
  · split
    · exact .inl rfl
    · split
      · exact .inr ⟨some s.statPacket, rfl⟩
      · exact .inr ⟨none, rfl⟩

/-- What served a byte: one of the range commands, or a byte without an update. -/
theorem goesOn_cases {b : UInt8} {now : Moment} {s t : Stats F} {sent : Option Chars}
    (hserved : connHandler b now s = .goesOn t sent) :
    (b = '['.toUInt8 ∧ ∃ u, s.update now = .done u ∧ u.beginRange now.counters = .done t) ∨
    (b = ']'.toUInt8 ∧ ∃ u, s.update now = .done u ∧ u.endRange now.counters = .done t) ∨
    (b ≠ '['.toUInt8 ∧ b ≠ ']'.toUInt8 ∧ t = s) := by
  by_cases hopening : b = '['.toUInt8
  · subst hopening
    rw [connHandler_opening, ofResult_eq_goesOn, andThen_eq_done] at hserved
    exact .inl ⟨rfl, hserved.1⟩
  by_cases hclosing : b = ']'.toUInt8
  · subst hclosing
    rw [connHandler_closing, ofResult_eq_goesOn, andThen_eq_done] at hserved
    exact .inr (.inl ⟨rfl, hserved.1⟩)
  · rcases connHandler_other now s hopening hclosing with hreturns | ⟨sent', hgoes⟩
    · rw [hreturns] at hserved
      cases hserved
    · rw [hgoes] at hserved
      cases hserved
      exact .inr (.inr ⟨hopening, hclosing, rfl⟩)

/-- A handler returns on `q`, or because its update has failed. -/
theorem returns_cases {b : UInt8} {now : Moment} {s t : Stats F}
    (hserved : connHandler b now s = .returns t) :
    t = s ∨ ∃ error, s.update now = .failed error t := by
  by_cases hopening : b = '['.toUInt8
  · subst hopening
    exact .inr (ofResult_eq_returns
      (fun u error v => beginRange_ne_failed now.counters u v error) hserved)
  by_cases hclosing : b = ']'.toUInt8
  · subst hclosing
    exact .inr (ofResult_eq_returns
      (fun u error v => endRange_ne_failed now.counters u v error) hserved)
  · rcases connHandler_other now s hopening hclosing with hreturns | ⟨sent, hgoes⟩
    · rw [hreturns] at hserved
      cases hserved
      exact .inl rfl
    · rw [hgoes] at hserved
      cases hserved

theorem goesOn_effect {conn : Nat} {b : UInt8} {now : Moment} {s t : Stats F}
    {sent : Option Chars} (hserved : connHandler b now s = .goesOn t sent) :
    Effect s (sample (.byte conn b now (observe t) sent)) t := by
  rcases goesOn_cases hserved with ⟨rfl, u, hupdate, hbegin⟩ | ⟨rfl, u, hupdate, hend⟩ |
    ⟨hopening, hclosing, rfl⟩
  · exact .opened hupdate hbegin
  · exact .closed hupdate hend
  · simpa [sample, hopening, hclosing] using Effect.unchanged t

theorem returns_effect {b : UInt8} {now : Moment} {s t : Stats F}
    (hserved : connHandler b now s = .returns t) : Effect s none t := by
  rcases returns_cases hserved with rfl | ⟨error, hfailed⟩
  · exact .unchanged t
  · exact .failed hfailed

theorem step_effect {s t : State F} {e : Event F} (hstep : Step s e t) :
    Effect s.stats (sample e) t.stats := by
  cases hstep with
  | tick hupdate => exact .ticked hupdate
  | byte _ hserved => exact goesOn_effect hserved
  | returned _ hserved => exact returns_effect hserved
  | hungUp _ => exact .unchanged _

/-- Neither a range command nor the failed update of one. -/
def Event.isPlain : Event F → Bool
  | .byte _ b _ _ _ => b ≠ '['.toUInt8 && b ≠ ']'.toUInt8
  | .returned _ b _ => b ≠ '['.toUInt8 && b ≠ ']'.toUInt8
  | _ => true

/-- Between range commands the shared state changes by ticks only. -/
theorem plain_step {s t : State F} {e : Event F} (hstep : Step s e t) (hplain : e.isPlain = true) :
    t.stats = s.stats ∨ ∃ now, s.stats.update now = .done t.stats := by
  cases hstep with
  | tick hupdate => exact .inr ⟨_, hupdate⟩
  | @byte u conn b now sent _ hserved =>
    simp only [Event.isPlain, Bool.and_eq_true, decide_eq_true_eq] at hplain
    rcases connHandler_other now s.stats hplain.1 hplain.2 with
      hreturns | ⟨sent', hgoes⟩
    · rw [hreturns] at hserved
      cases hserved
    · rw [hgoes] at hserved
      cases hserved
      exact .inl rfl
  | @returned u conn b now _ hserved =>
    simp only [Event.isPlain, Bool.and_eq_true, decide_eq_true_eq] at hplain
    rcases connHandler_other now s.stats hplain.1 hplain.2 with
      hreturns | ⟨sent', hgoes⟩
    · rw [hreturns] at hserved
      cases hserved
      exact .inl rfl
    · rw [hgoes] at hserved
      cases hserved
  | hungUp _ => exact .inl rfl

/-- The answer to a closing byte is the packet of the state it leaves. -/
theorem closing_sent {s t : State F} {conn : Nat} {now : Moment}
    {values : WhichStat → StatValue F} {sent : Option Chars}
    (hstep : Step s (.byte conn ']'.toUInt8 now values sent) t) :
    sent = some t.stats.statPacket ∧ values = observe t.stats := by
  cases hstep with
  | byte _ hserved =>
    rw [connHandler_closing, ofResult_eq_goesOn] at hserved
    exact ⟨hserved.2.symm, rfl⟩

end NdpOffload.Statmon.Server
