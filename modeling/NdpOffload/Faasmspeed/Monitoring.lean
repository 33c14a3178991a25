import NdpOffload.Faasmspeed.Conservation
import NdpOffload.Statmon.Packet
import NdpOffload.Statmon.Ranges

/-! The load generator and the `statmon` servers of its monitoring hosts, joined
by connections that keep the order of what is written to them.  The servers are
different ones, and each has other clients besides. -/
namespace NdpOffload.Faasmspeed.Monitoring

open Library.Barriers Library.Outcomes Library.Records Library.Runs Library.Text Library.Windows
open Generator Phases Conservation
open Statmon.Table Statmon.Monitor Statmon.History Statmon.Packet
open Statmon (Server.State Server.Event Server.Booted Server.rangeValues)
open Statmon.Ranges (quiet OnLoopback)

variable {n : Nat} {F : Type}

/-! ### Connections -/

/-- The connection that an event of a server is about. -/
def connOf : Server.Event F → Option Nat
  | .tick _ _ => none
  | .byte conn _ _ _ _ => some conn
  | .returned conn _ _ => some conn
  | .hungUp conn => some conn

/-- The command byte that an event of a server takes from the connection. -/
def handled (conn : Nat) : Server.Event F → Option UInt8
  | .byte other b _ _ _ => if other = conn then some b else none
  | .returned other b _ => if other = conn then some b else none
  | _ => none

def replyOf : Server.Event F → Chars
  | .byte _ _ _ _ sent => sent.getD []
  | _ => []

/-- `read_line` on what has arrived: up to the first newline, or everything if no
more will come.  What the reader has buffered beyond the line is lost. -/
inductive ReadsLine (ended : Prop) : Chars → Chars → Chars → Prop where
  | line {body later rest : Chars} :
      '\n' ∉ body → rest <:+ later → ReadsLine ended (body ++ '\n' :: later) (body ++ ['\n']) rest
  | eof {stream : Chars} : ended → '\n' ∉ stream → ReadsLine ended stream stream []

theorem ReadsLine.of_nil {ended : Prop} {stream line rest : Chars}
    (hreads : ReadsLine ended stream line rest) (hempty : stream = []) : line = [] ∧ ended := by
  cases hreads with
  | line _ _ => simp at hempty
  | eof hended _ => exact ⟨hempty, hended⟩

/-- A stream of one line is read as it is. -/
theorem ReadsLine.of_line {ended : Prop} {stream line rest body : Chars}
    (hreads : ReadsLine ended stream line rest) (hstream : stream = body ++ ['\n'])
    (hbody : '\n' ∉ body) : line = stream := by
  cases hreads with
  | @line front later _ hfront _ =>
    have hpast : ∀ l : Chars, '\n' ∉ l → ∀ c ∈ l, decide (c ≠ '\n') = true := by
      intro l hl c hc
      rw [decide_eq_true_eq]
      rintro rfl
      exact hl hc
    have hsame := congrArg (List.takeWhile fun c => decide (c ≠ '\n')) hstream
    rw [List.takeWhile_append_of_pos (hpast front hfront),
      List.takeWhile_append_of_pos (hpast body hbody)] at hsame
    have hfronts : front = body := by simpa using hsame
    rw [hstream, hfronts]
  | eof _ hfree =>
    simp [hstream] at hfree

structure Net (n : Nat) (F : Type) where
  client : System n
  servers : Nat → Server.State F
  up : Nat → List Char
  down : Nat → Chars

inductive Event (n : Nat) (F : Type) where
  | client (e : Generator.Event n)
  | server (host : Nat) (e : Server.Event F)

/-- A step of the client that uses no connection. -/
def Offline : Generator.Event n → Prop
  | .main (.write _ _) => False
  | .main (.readLine _) => False
  | _ => True

/-- What has happened at one server. -/
def history (host : Nat) (es : List (Event n F)) : List (Server.Event F) :=
  es.filterMap fun e => match e with
    | .client _ => none
    | .server other e => if other = host then some e else none

/-- What the client has written to one host. -/
def written (host : Nat) (s : System n) : List Char :=
  s.wire.filterMap fun write => if write.1 = host then some write.2 else none

/-! ### The client at one host -/

/-- What has been written to a host where `async_main` stands, and how many lines
it has read. -/
def MainPc.script (mhosts host : Nat) : MainPc → List Char × Nat
  | .connecting _ => ([], 0)
  | .syncTest => ([], 0)
  | .opening reached => (if host < reached then ['['] else [], 0)
  | .closing reached => (if host < reached then ['[', ']', 'q'] else ['['], reached)
  | .reading reached =>
      (if host < reached then ['[', ']', 'q'] else if host = reached then ['[', ']'] else ['['],
        reached)
  | .quitting reached =>
      (if host < reached then ['[', ']', 'q'] else if host = reached then ['[', ']'] else ['['],
        reached + 1)
  | .awaiting | .loading | .collecting _ | .reported => (['[', ']', 'q'], mhosts)
  | _ => (['['], 0)

/-- Before its line has been read a host has got no more than the two brackets. -/
def Scripted (mhosts host : Nat) (bytes : List Char) (lines : Nat) : MainPc → Prop
  | .failed _ => lines ≤ host → bytes <+: ['[', ']']
  | pc => (bytes, lines) = MainPc.script mhosts host pc

def bytesTo (host : Nat) : MainAct n → List Char
  | .write other byte => if other = host then [byte] else []
  | _ => []

def linesRead : MainAct n → List Chars
  | .readLine line => [line]
  | _ => []

theorem scripted_step {mhosts host lines : Nat} {bytes : List Char} {pc pc' : MainPc}
    {act : MainAct n} (hhost : host < mhosts) (hs : Scripted mhosts host bytes lines pc)
    (hstep : MainStep n mhosts pc act pc') :
    Scripted mhosts host (bytes ++ bytesTo host act) (lines + (linesRead act).length) pc' := by
  cases hstep
  all_goals
    simp only [Scripted, MainPc.script, bytesTo, linesRead, Prod.mk.injEq] at hs ⊢
    obtain ⟨rfl, rfl⟩ := hs
  case openRange | closeRange | quit =>
    refine ⟨?_, rfl⟩
    split_ifs <;> first | omega | rfl
  case connectFails => exact fun _ => List.nil_prefix
  case openFails | closeFails | readFails | quitFails =>
    intro hlines
    split_ifs <;> first | omega | decide
  all_goals simp [hhost]

/-- How many lines have been read, and that only lines of hosts are read. -/
def Counted (mhosts lines : Nat) : MainPc → Prop
  | .failed _ => True
  | .reading reached => lines = reached ∧ reached < mhosts
  | pc => lines = (MainPc.script mhosts 0 pc).2

theorem counted_step {mhosts lines : Nat} {pc pc' : MainPc} {act : MainAct n}
    (hs : Counted mhosts lines pc) (hstep : MainStep n mhosts pc act pc') :
    Counted mhosts (lines + (linesRead act).length) pc' := by
  cases hstep <;> simp_all [Counted, MainPc.script, linesRead]

section Client

variable {opts : Options n} {c d : System n}

theorem mainStep_of_step {act : MainAct n} (hstep : Generator.Step opts c (.main act) d) :
    ∃ pc, MainStep n opts.mhosts c.main act pc ∧ d = { c.mainEffect act with main := pc } := by
  cases hstep with
  | main hmain _ => exact ⟨_, hmain, rfl⟩
  | progress hprogress => cases hprogress

/-- Only `async_main` uses the connections. -/
theorem step_elsewhere {e : Generator.Event n} (he : ∀ act, e ≠ .main act)
    (hstep : Generator.Step opts c e d) :
    d.main = c.main ∧ d.wire = c.wire ∧ d.monitoringResults = c.monitoringResults := by
  cases hstep with
  | @fn act f i hfn hready => cases act <;> exact ⟨rfl, rfl, rfl⟩
  | @task task act state i j htask hact => cases act <;> exact ⟨rfl, rfl, rfl⟩
  | @main act pc hmain hready => exact absurd rfl (he act)
  | progress hprogress => exact ⟨rfl, rfl, rfl⟩

theorem written_of_wire {c d : System n} (hwire : d.wire = c.wire) (host : Nat) :
    written host d = written host c := by
  rw [written, hwire, written]

theorem written_mainEffect (host : Nat) (c : System n) (act : MainAct n) (pc : MainPc) :
    written host { c.mainEffect act with main := pc } = written host c ++ bytesTo host act := by
  cases act with
  | write other byte =>
    by_cases hother : other = host <;> simp [written, System.mainEffect, bytesTo, hother]
  | _ => simp [written, System.mainEffect, bytesTo]

/-- Offline steps write nothing. -/
theorem written_offline {e : Generator.Event n} (hoffline : Offline e)
    (hstep : Generator.Step opts c e d) (host : Nat) : written host d = written host c := by
  by_cases hmain : ∃ act, e = .main act
  · obtain ⟨act, rfl⟩ := hmain
    obtain ⟨pc, -, rfl⟩ := mainStep_of_step hstep
    rw [written_mainEffect]
    cases act <;> simp_all [Offline, bytesTo]
  · exact written_of_wire (step_elsewhere (fun act he => hmain ⟨act, he⟩) hstep).2.1 host

theorem results_mainEffect (c : System n) (act : MainAct n) (pc : MainPc) :
    ({ c.mainEffect act with main := pc } : System n).monitoringResults =
      c.monitoringResults ++ linesRead act := by
  cases act <;> simp [System.mainEffect, linesRead]

/-- The client keeps to its script at every host. -/
structure OnScript (mhosts : Nat) (c : System n) : Prop where
  hosts : ∀ host < mhosts,
    Scripted mhosts host (written host c) c.monitoringResults.length c.main
  lines : Counted mhosts c.monitoringResults.length c.main

theorem onScript_start (mhosts : Nat) : OnScript mhosts (start : System n) :=
  ⟨fun _ _ => rfl, rfl⟩

theorem OnScript.step (hs : OnScript opts.mhosts c) {e : Generator.Event n}
    (hstep : Generator.Step opts c e d) : OnScript opts.mhosts d := by
  by_cases hmain : ∃ act, e = .main act
  · obtain ⟨act, rfl⟩ := hmain
    obtain ⟨pc, hmain, rfl⟩ := mainStep_of_step hstep
    refine ⟨fun host hhost => ?_, ?_⟩
    · rw [written_mainEffect, results_mainEffect, List.length_append]
      exact scripted_step hhost (hs.hosts host hhost) hmain
    · rw [results_mainEffect, List.length_append]
      exact counted_step hs.lines hmain
  · obtain ⟨hpc, hwire, hresults⟩ :=
      step_elsewhere (fun act he => hmain ⟨act, he⟩) hstep
    refine ⟨fun host hhost => ?_, ?_⟩
    · rw [hpc, hresults, written, hwire]
      exact hs.hosts host hhost
    · rw [hpc, hresults]
      exact hs.lines

/-- The line that is read is that of the next host. -/
theorem OnScript.reading (hs : OnScript opts.mhosts c) {host : Nat} (hpc : c.main = .reading host) :
    c.monitoringResults.length = host ∧ host < opts.mhosts := by
  have hlines := hs.lines
  rw [hpc] at hlines
  exact hlines

theorem OnScript.reported (hs : OnScript opts.mhosts c) (hpc : c.main = .reported) :
    c.monitoringResults.length = opts.mhosts := by
  have hlines := hs.lines
  rw [hpc] at hlines
  exact hlines

theorem mainStep_readLine {mhosts : Nat} {pc pc' : MainPc} {line : Chars}
    (hstep : MainStep n mhosts pc (.readLine line) pc') : ∃ host, pc = .reading host := by
  cases hstep
  exact ⟨_, rfl⟩

/-- A line that was not there before is that of the host being read. -/
theorem OnScript.new_line (hs : OnScript opts.mhosts c) {e : Generator.Event n}
    (hstep : Generator.Step opts c e d) {host : Nat} {line : Chars}
    (hline : d.monitoringResults[host]? = some line) :
    c.monitoringResults[host]? = some line ∨
      e = .main (.readLine line) ∧ c.main = .reading host ∧ host < opts.mhosts := by
  by_cases hmain : ∃ act, e = .main act
  · obtain ⟨act, rfl⟩ := hmain
    obtain ⟨pc, hmain, rfl⟩ := mainStep_of_step hstep
    rw [results_mainEffect] at hline
    by_cases hold : host < c.monitoringResults.length
    · rw [List.getElem?_append_left hold] at hline
      exact .inl hline
    rw [List.getElem?_append_right (Nat.le_of_not_lt hold)] at hline
    cases act with
    | readLine read =>
      obtain ⟨reached, hreading⟩ := mainStep_readLine hmain
      obtain ⟨hlength, hlt⟩ := hs.reading hreading
      have hlast := (List.getElem?_eq_some_iff.mp hline).1
      have hhost : host = reached := by
        simp only [linesRead, List.length_singleton] at hlast
        omega
      subst hhost
      simp only [linesRead, hlength, Nat.sub_self, List.getElem?_cons_zero, Option.some_inj]
        at hline
      exact .inr ⟨by rw [hline], hreading, hlt⟩
    | _ => simp [linesRead] at hline
  · obtain ⟨-, -, hresults⟩ := step_elsewhere (fun act he => hmain ⟨act, he⟩) hstep
    rw [hresults] at hline
    exact .inl hline

theorem results_readLine {line : Chars} (hstep : Generator.Step opts c (.main (.readLine line)) d) :
    d.monitoringResults = c.monitoringResults ++ [line] := by
  obtain ⟨pc, -, rfl⟩ := mainStep_of_step hstep
  rfl

theorem results_le {e : Generator.Event n} (hstep : Generator.Step opts c e d) :
    c.monitoringResults.length ≤ d.monitoringResults.length := by
  by_cases hmain : ∃ act, e = .main act
  · obtain ⟨act, rfl⟩ := hmain
    obtain ⟨pc, -, rfl⟩ := mainStep_of_step hstep
    rw [results_mainEffect, List.length_append]
    exact Nat.le_add_right _ _
  · rw [(step_elsewhere (fun act he => hmain ⟨act, he⟩) hstep).2.2]

/-- Up to its line, a host gets its two brackets. -/
theorem OnScript.brackets (hs : OnScript opts.mhosts c) {host : Nat} (hhost : host < opts.mhosts)
    (hunread : c.monitoringResults.length ≤ host) : written host c <+: ['[', ']'] := by
  have hscript := hs.hosts host hhost
  cases hpc : c.main with
  | failed waits =>
    rw [hpc] at hscript
    exact hscript hunread
  | _ =>
    rw [hpc] at hscript
    simp only [Scripted, MainPc.script, Prod.mk.injEq] at hscript
    obtain ⟨hbytes, hlines⟩ := hscript
    rw [hbytes]
    first
    | decide
    | omega
    | (split_ifs <;> first | omega | decide)

/-- Once a `]` has been written, all requests have completed. -/
structure Closing (opts : Options n) (c : System n) : Prop where
  ordered : Ordered opts c
  finished : ∀ host, (host, ']') ∈ c.wire → 4 ≤ c.sync.generation

theorem closing_start (opts : Options n) : Closing opts start where
  ordered := ordered_start opts
  finished := by simp [start]

theorem generation_le_step {e : Generator.Event n} (hstep : Generator.Step opts c e d) :
    c.sync.generation ≤ d.sync.generation := by
  cases hstep with
  | fn i hfn hready =>
    rw [fnEffect_sync]
    exact generation_le_applyMove _ _ _
  | @task task act state i j htask hact =>
    obtain ⟨hsync, -⟩ := taskEffect_eq c act
    show _ ≤ (c.taskEffect act).sync.generation
    rw [hsync]
  | main hmain hready =>
    rw [mainEffect_sync]
    exact generation_le_applyMove _ _ _
  | progress hprogress => exact le_refl _

theorem Closing.step (hs : Closing opts c) {e : Generator.Event n}
    (hstep : Generator.Step opts c e d) : Closing opts d := by
  refine ⟨hs.ordered.step hstep, fun host hwritten => ?_⟩
  have hgeneration := generation_le_step hstep
  by_cases hold : (host, ']') ∈ c.wire
  · exact le_trans (hs.finished host hold) hgeneration
  by_cases hmain : ∃ act, e = .main act
  · obtain ⟨act, rfl⟩ := hmain
    obtain ⟨pc, hmain, rfl⟩ := mainStep_of_step hstep
    have hact : act = .write host ']' := by
      cases act with
      | write other byte =>
        have hnew : (host, ']') = (other, byte) := by
          simpa [System.mainEffect, hold] using hwritten
        cases hnew
        rfl
      | _ => exact absurd hwritten hold
    subst hact
    have hpc := mainStep_close hmain
    have hclosing := hs.ordered.phased.generation_eq (by rw [hpc]; rfl)
    rw [hpc] at hclosing
    exact hclosing.ge.trans hgeneration
  · obtain ⟨-, hwire, -⟩ := step_elsewhere (fun act he => hmain ⟨act, he⟩) hstep
    rw [hwire] at hwritten
    exact absurd hwritten hold

/-- All requests of a function have been sent and joined. -/
def Finished (plan : Plan) (f : Fn) : Prop :=
  f.tasks.length = plan.totalRequests ∧ f.results.length = plan.totalRequests ∧
    ∀ task ∈ f.tasks, ∃ result, task.state = .completed result

theorem Closing.all_finished (hs : Closing opts c) {host : Nat} (hwritten : ']' ∈ written host c)
    (i : Fin n) : Finished (opts.functions i) (c.fns i) := by
  obtain ⟨write, hmem, hwrite⟩ := List.mem_filterMap.mp hwritten
  have hclosing : write = (host, ']') := by
    split at hwrite
    · rename_i hhost
      rw [Option.some_inj] at hwrite
      exact Prod.ext hhost hwrite
    · cases hwrite
  have hgeneration := hs.finished host (hclosing ▸ hmem)
  have hcalls := (hs.ordered.phased.sound.calls_bounds (some i)).1
  rw [(hs.ordered.phased.fns i).1] at hcalls
  exact (hs.ordered.fns i).finished (le_trans hgeneration hcalls)

end Client

/-! ### What has happened at one server -/

theorem history_append (host : Nat) (es fs : List (Event n F)) :
    history host (es ++ fs) = history host es ++ history host fs := List.filterMap_append

@[simp] theorem history_client (host : Nat) (e : Generator.Event n) :
    history host [(.client e : Event n F)] = [] := rfl

@[simp] theorem history_self (host : Nat) (e : Server.Event F) :
    history host [(.server host e : Event n F)] = [e] := by
  simp [history]

theorem history_other {host other : Nat} (hother : other ≠ host) (e : Server.Event F) :
    history host [(.server other e : Event n F)] = [] := by
  simp [history, hother]

/-- The events of other connections take nothing from this one. -/
theorem handled_other {conn : Nat} {e : Server.Event F} (he : connOf e ≠ some conn) :
    handled conn e = none := by
  cases e <;> simp_all [connOf, handled]

/-- The opening byte of a connection has been handled. -/
def Opened (conn : Nat) (past : List (Server.Event F)) : Prop :=
  ∃ before now values during, past = before ++ .byte conn '['.toUInt8 now values none :: during

theorem Opened.append {conn : Nat} {before : List (Server.Event F)} (hopened : Opened conn before)
    (after : List (Server.Event F)) : Opened conn (before ++ after) := by
  obtain ⟨front, now, values, during, rfl⟩ := hopened
  exact ⟨front, now, values, during ++ after, by simp⟩

/-! ### The whole system -/

variable [F64 F]

/-- `own` numbers the connections of the client at the servers. -/
inductive Step (opts : Options n) (own : Nat → Nat) : Net n F → Event n F → Net n F → Prop where
  | offline {s : Net n F} {e : Generator.Event n} {c : System n} :
      Offline e → Generator.Step opts s.client e c →
      Step opts own s (.client e) { s with client := c }
  | write {s : Net n F} {host : Nat} {byte : Char} {c : System n} :
      Generator.Step opts s.client (.main (.write host byte)) c →
      Step opts own s (.client (.main (.write host byte)))
        { s with client := c, up := Function.update s.up host (s.up host ++ [byte]) }
  | readLine {s : Net n F} {host : Nat} {line rest : Chars} {c : System n} :
      s.client.main = .reading host → Generator.Step opts s.client (.main (.readLine line)) c →
      ReadsLine (own host ∈ (s.servers host).gone) (s.down host) line rest →
      Step opts own s (.client (.main (.readLine line)))
        { s with client := c, down := Function.update s.down host rest }
  | deliver {s : Net n F} {host : Nat} {byte : Char} {bytes : List Char} {e : Server.Event F}
      {t : Server.State F} :
      s.up host = byte :: bytes → handled (own host) e = some byte.toUInt8 →
      Statmon.Server.Step (s.servers host) e t →
      Step opts own s (.server host e)
        { s with
          servers := Function.update s.servers host t
          up := Function.update s.up host bytes
          down := Function.update s.down host (s.down host ++ replyOf e) }
  | hungUp {s : Net n F} {host : Nat} {t : Server.State F} :
      Statmon.Server.Step (s.servers host) (.hungUp (own host)) t →
      Step opts own s (.server host (.hungUp (own host)))
        { s with servers := Function.update s.servers host t }
  | others {s : Net n F} {host : Nat} {e : Server.Event F} {t : Server.State F} :
      connOf e ≠ some (own host) → Statmon.Server.Step (s.servers host) e t →
      Step opts own s (.server host e) { s with servers := Function.update s.servers host t }

/-- The servers have just opened their ports, and the client has not begun. -/
structure Start (serverOpts : Nat → Statmon.Server.Options) (s : Net n F) : Prop where
  client : s.client = start
  booted : ∀ host, Server.Booted (serverOpts host) (s.servers host)
  up : ∀ host, s.up host = []
  down : ∀ host, s.down host = []

/-! ### Both ends of a connection -/

/-- How the server of `host` and the two directions of the connection change. -/
structure AtHost (own : Nat → Nat) (host : Nat) (s : Net n F) (e : Server.Event F) (t : Net n F) :
    Prop where
  client : t.client = s.client
  server : Statmon.Server.Step (s.servers host) e (t.servers host)
  other : ∀ other, other ≠ host → t.servers other = s.servers other ∧ t.up other = s.up other ∧
    t.down other = s.down other
  up : (s.up host).map Char.toUInt8 =
    (handled (own host) e).toList ++ (t.up host).map Char.toUInt8
  down : t.down host = s.down host ++ (if connOf e = some (own host) then replyOf e else [])

variable {opts : Options n} {own : Nat → Nat} {s t : Net n F}

theorem atHost {host : Nat} {e : Server.Event F} (hstep : Step opts own s (.server host e) t) :
    AtHost own host s e t := by
  cases hstep with
  | @deliver _ byte bytes _ u hup hbyte hserver =>
    have hconn : connOf e = some (own host) := by
      by_contra hne
      rw [handled_other hne] at hbyte
      cases hbyte
    refine ⟨rfl, by simpa using hserver, fun other hother => by simp [hother], ?_, ?_⟩
    · simp [hup, hbyte]
    · simp [hconn]
  | hungUp hserver =>
    refine ⟨rfl, by simpa using hserver, fun other hother => by simp [hother], ?_, ?_⟩
    · simp [handled]
    · simp [connOf, replyOf]
  | others hconn hserver =>
    refine ⟨rfl, by simpa using hserver, fun other hother => by simp [hother], ?_, ?_⟩
    · simp [handled_other hconn]
    · simp [hconn]

/-- How the client and the connections change. -/
structure AtClient (opts : Options n) (own : Nat → Nat) (s : Net n F) (e : Generator.Event n)
    (t : Net n F) : Prop where
  client : Generator.Step opts s.client e t.client
  servers : t.servers = s.servers
  up : ∀ host, (t.up host = s.up host ∧ written host t.client = written host s.client) ∨
    ∃ byte, t.up host = s.up host ++ [byte] ∧
      written host t.client = written host s.client ++ [byte]
  down : ∀ host, (t.down host = s.down host ∧
      ∀ line, e = .main (.readLine line) → s.client.main ≠ .reading host) ∨
    ∃ line rest, e = .main (.readLine line) ∧ s.client.main = .reading host ∧
      ReadsLine (own host ∈ (s.servers host).gone) (s.down host) line rest

theorem atClient {e : Generator.Event n} (hstep : Step opts own s (.client e) t) :
    AtClient opts own s e t := by
  cases hstep with
  | offline hoffline hclient =>
    refine ⟨hclient, rfl, fun host => .inl ⟨rfl, written_offline hoffline hclient host⟩,
      fun host => .inl ⟨rfl, ?_⟩⟩
    rintro line rfl
    exact absurd hoffline not_false
  | @write other byte c hclient =>
    obtain ⟨pc, -, hmain⟩ := mainStep_of_step hclient
    refine ⟨hclient, rfl, fun host => ?_, fun host => .inl ⟨rfl, by simp⟩⟩
    have hwritten : written host c = written host s.client ++ bytesTo host (n := n) (.write other byte) := by
      rw [hmain, written_mainEffect]
    by_cases hother : other = host
    · subst hother
      exact .inr ⟨byte, by simp, by simpa [bytesTo] using hwritten⟩
    · have hhost : host ≠ other := fun h => hother h.symm
      exact .inl ⟨by simp [hhost], by simpa [bytesTo, hother] using hwritten⟩
  | @readLine other line rest c hpc hclient hreads =>
    obtain ⟨pc, -, hmain⟩ := mainStep_of_step hclient
    refine ⟨hclient, rfl, fun host => .inl ⟨rfl, ?_⟩, fun host => ?_⟩
    · rw [hmain, written_mainEffect]
      simp [bytesTo]
    · by_cases hother : host = other
      · subst hother
        exact .inr ⟨line, rest, rfl, hpc, hreads⟩
      · refine .inl ⟨by simp [hother], fun _ _ hreading => hother ?_⟩
        rw [hpc] at hreading
        cases hreading
        rfl

/-- A run of the whole system is a run of each server. -/
theorem run_servers {s₀ : Net n F} {es : List (Event n F)} (hrun : Run (Step opts own) s₀ es s)
    (host : Nat) : Run Statmon.Server.Step (s₀.servers host) (history host es) (s.servers host) := by
  have hstep : ∀ past (t : Net n F) e u,
      Run Statmon.Server.Step (s₀.servers host) (history host past) (t.servers host) →
      Step opts own t e u →
      Run Statmon.Server.Step (s₀.servers host) (history host (past ++ [e])) (u.servers host) := by
    intro past t e u hpast hstep
    rw [history_append]
    cases e with
    | client e =>
      rw [history_client, List.append_nil, (atClient hstep).servers]
      exact hpast
    | server other e =>
      have hat := atHost hstep
      by_cases hother : other = host
      · subst hother
        rw [history_self]
        exact run_append_iff.mpr ⟨_, hpast, run_singleton_iff.mpr hat.server⟩
      · rw [history_other hother, List.append_nil,
          (hat.other host fun h => hother h.symm).1]
        exact hpast
  exact hrun.history_start
    (fun past t => Run Statmon.Server.Step (s₀.servers host) (history host past) (t.servers host))
    hstep (.nil _)

/-! ### The invariant -/

section Gone

variable {a b : Server.State F} {conn : Nat}

theorem gone_mono {e : Server.Event F} (hstep : Statmon.Server.Step a e b) (hgone : conn ∈ a.gone) :
    conn ∈ b.gone := by
  cases hstep with
  | tick _ => exact hgone
  | byte _ _ => exact hgone
  | returned _ _ => exact List.mem_cons_of_mem _ hgone
  | hungUp _ => exact List.mem_cons_of_mem _ hgone

/-- Only an open connection has events. -/
theorem not_gone {e : Server.Event F} (hstep : Statmon.Server.Step a e b)
    (hconn : connOf e = some conn) : conn ∉ a.gone := by
  cases hstep <;> simp_all [connOf]

theorem returned_gone {b' : UInt8} {now : Moment}
    (hstep : Statmon.Server.Step a (.returned conn b' now) b) : conn ∈ b.gone := by
  cases hstep with
  | returned _ _ => exact List.mem_cons_self

theorem hungUp_gone (hstep : Statmon.Server.Step a (.hungUp conn) b) : conn ∈ b.gone := by
  cases hstep with
  | hungUp _ => exact List.mem_cons_self

theorem opening_sent {now : Moment} {values : WhichStat → StatValue F} {sent : Option Chars}
    (hstep : Statmon.Server.Step a (.byte conn '['.toUInt8 now values sent) b) : sent = none := by
  cases hstep with
  | byte _ hserved =>
    rw [Statmon.Server.connHandler_opening, Statmon.Server.ofResult_eq_goesOn] at hserved
    exact hserved.2.symm

end Gone

/-- At some time after the `[` of the client, and after all its requests, the server
has handled its `]` and answered with `line`: the packet of the state of that
moment, with the aggregates of the range that this `]` or an earlier one has closed. -/
def Answered (opts : Options n) (own : Nat → Nat) (s₀ : Net n F) (host : Nat)
    (es : List (Event n F)) (line : Chars) : Prop :=
  ∃ front now values rest u v,
    es = front ++ .server host (.byte (own host) ']'.toUInt8 now values (some line)) :: rest ∧
    Run (Step opts own) s₀ front u ∧
    Step opts own u (.server host (.byte (own host) ']'.toUInt8 now values (some line))) v ∧
    (∀ i, Finished (opts.functions i) (u.client.fns i)) ∧
    Opened (own host) (history host front) ∧
    line = (v.servers host).stats.statPacket ∧
    ∀ which, collect which (Server.rangeValues (history host front ++
      [.byte (own host) ']'.toUInt8 now values (some line)]) which) =
        some (aggregates ((v.servers host).stats.stats which))

/-- What has been handled and what is on its way back, before the line is read. -/
inductive Stage (opts : Options n) (own : Nat → Nat) (s₀ : Net n F) (host : Nat)
    (es : List (Event n F)) (s : Net n F) : Prop where
  | waiting :
      (history host es).filterMap (handled (own host)) = [] → s.down host = [] →
      Stage opts own s₀ host es s
  | opened :
      (history host es).filterMap (handled (own host)) = ['['.toUInt8] →
      Opened (own host) (history host es) → s.down host = [] → Stage opts own s₀ host es s
  | answered :
      (history host es).filterMap (handled (own host)) = ['['.toUInt8, ']'.toUInt8] →
      Answered opts own s₀ host es (s.down host) → Stage opts own s₀ host es s
  | ended :
      own host ∈ (s.servers host).gone → s.down host = [] → Stage opts own s₀ host es s

/-- The line of a host: an answer, or nothing from a connection that was ended. -/
def Recorded (opts : Options n) (own : Nat → Nat) (s₀ : Net n F) (host : Nat)
    (es : List (Event n F)) (s : Net n F) (line : Chars) : Prop :=
  line = [] ∧ own host ∈ (s.servers host).gone ∨ Answered opts own s₀ host es line

structure Joined (opts : Options n) (own : Nat → Nat) (s₀ : Net n F) (es : List (Event n F))
    (s : Net n F) : Prop where
  run : Run (Step opts own) s₀ es s
  closing : Closing opts s.client
  script : OnScript opts.mhosts s.client
  fifo : ∀ host, (written host s.client).map Char.toUInt8 =
    (history host es).filterMap (handled (own host)) ++ (s.up host).map Char.toUInt8
  stage : ∀ host < opts.mhosts, s.client.monitoringResults.length ≤ host →
    Stage opts own s₀ host es s
  recorded : ∀ host line, s.client.monitoringResults[host]? = some line →
    Recorded opts own s₀ host es s line

section Joined

variable {s₀ : Net n F} {past : List (Event n F)}

theorem Answered.later {host : Nat} {line : Chars} (hanswered : Answered opts own s₀ host past line)
    (e : Event n F) : Answered opts own s₀ host (past ++ [e]) line := by
  obtain ⟨front, now, values, rest, u, v, rfl, hanswer⟩ := hanswered
  exact ⟨front, now, values, rest ++ [e], u, v, by simp, hanswer⟩

/-- What does not touch the connection leaves its stage. -/
theorem Stage.keep {host : Nat} (hs : Stage opts own s₀ host past s) {e : Event n F}
    (hhandled : (history host [e]).filterMap (handled (own host)) = [])
    (hgone : own host ∈ (s.servers host).gone → own host ∈ (t.servers host).gone)
    (hdown : t.down host = s.down host) : Stage opts own s₀ host (past ++ [e]) t := by
  have hsame : (history host (past ++ [e])).filterMap (handled (own host)) =
      (history host past).filterMap (handled (own host)) := by
    rw [history_append, List.filterMap_append, hhandled, List.append_nil]
  cases hs with
  | waiting hbytes hempty => exact .waiting (hsame.trans hbytes) (hdown.trans hempty)
  | opened hbytes hopened hempty =>
    refine .opened (hsame.trans hbytes) ?_ (hdown.trans hempty)
    rw [history_append]
    exact hopened.append _
  | answered hbytes hanswered =>
    refine .answered (hsame.trans hbytes) ?_
    rw [hdown]
    exact hanswered.later e
  | ended hended hempty => exact .ended (hgone hended) (hdown.trans hempty)

theorem Recorded.later {host : Nat} {line : Chars} (hs : Recorded opts own s₀ host past s line)
    (e : Event n F)
    (hgone : own host ∈ (s.servers host).gone → own host ∈ (t.servers host).gone) :
    Recorded opts own s₀ host (past ++ [e]) t line := by
  rcases hs with ⟨hempty, hended⟩ | hanswered
  · exact .inl ⟨hempty, hgone hended⟩
  · exact .inr (hanswered.later e)

/-- The next byte of a connection is the next of the two brackets. -/
theorem Joined.next_byte (hs : Joined opts own s₀ past s) {host : Nat} (hhost : host < opts.mhosts)
    (hunread : s.client.monitoringResults.length ≤ host) {e : Server.Event F}
    (hat : AtHost own host s e t) :
    (history host past).filterMap (handled (own host)) ++ (handled (own host) e).toList <+:
      ['['.toUInt8, ']'.toUInt8] := by
  have hprefix := (hs.script.brackets hhost hunread).map Char.toUInt8
  rw [hs.fifo host, hat.up, ← List.append_assoc] at hprefix
  exact (List.prefix_append _ _).trans hprefix

/-- Bytes that have been handled have been written. -/
theorem Joined.mem_written (hs : Joined opts own s₀ past s) {host : Nat} {e : Server.Event F}
    (hat : AtHost own host s e t) (hbyte : handled (own host) e = some ']'.toUInt8)
    (hhost : host < opts.mhosts) (hunread : s.client.monitoringResults.length ≤ host) :
    ']' ∈ written host s.client := by
  have hfifo := hs.fifo host
  rw [hat.up, hbyte] at hfifo
  have hmem : ']'.toUInt8 ∈ (written host s.client).map Char.toUInt8 := by
    rw [hfifo]
    simp
  obtain ⟨c, hc, hsame⟩ := List.mem_map.mp hmem
  have hbracket := (hs.script.brackets hhost hunread).subset hc
  simp only [List.mem_cons, List.not_mem_nil, or_false] at hbracket
  rcases hbracket with rfl | rfl
  · exact absurd hsame (by decide)
  · exact hc

/-- The server has taken part in a run from the start. -/
theorem Joined.range (hs : Joined opts own s₀ past s) {host : Nat}
    {serverOpts : Nat → Statmon.Server.Options} (hstart : Start serverOpts s₀)
    {e : Server.Event F} (hat : AtHost own host s e t) (which : WhichStat) :
    collect which (Server.rangeValues (history host past ++ [e]) which) =
      some (aggregates ((t.servers host).stats.stats which)) := by
  have hrun : Run Statmon.Server.Step (s₀.servers host) (history host past ++ [e])
      (t.servers host) :=
    run_append_iff.mpr ⟨_, run_servers hs.run host, run_singleton_iff.mpr hat.server⟩
  exact (run_tracks (hstart.booted host) hrun).collected which

/-- A connection that ends before the answer brings nothing any more. -/
theorem Stage.ends {host : Nat} (hs : Stage opts own s₀ host past s) {e : Event n F}
    (hopen : own host ∉ (s.servers host).gone) (hgone : own host ∈ (t.servers host).gone)
    (hdown : t.down host = s.down host)
    (hhandled : (history host past).filterMap (handled (own host)) =
        ['['.toUInt8, ']'.toUInt8] → (history host [e]).filterMap (handled (own host)) = []) :
    Stage opts own s₀ host (past ++ [e]) t := by
  cases hs with
  | waiting hbytes hempty => exact .ended hgone (hdown.trans hempty)
  | opened hbytes hopened hempty => exact .ended hgone (hdown.trans hempty)
  | answered hbytes hanswered =>
    exact (Stage.answered hbytes hanswered).keep (hhandled hbytes) (fun _ => hgone) hdown
  | ended hended hempty => exact absurd hended hopen

/-- A command byte of the client that the server has handled. -/
theorem Joined.stage_byte (hs : Joined opts own s₀ past s)
    {serverOpts : Nat → Statmon.Server.Options} (hstart : Start serverOpts s₀) {host : Nat}
    (hhost : host < opts.mhosts) (hunread : s.client.monitoringResults.length ≤ host)
    {b : UInt8} {now : Moment} {values : WhichStat → StatValue F} {sent : Option Chars}
    (hstep : Step opts own s (.server host (.byte (own host) b now values sent)) t) :
    Stage opts own s₀ host (past ++ [.server host (.byte (own host) b now values sent)]) t := by
  have hat := atHost hstep
  have hbyte : handled (own host) (.byte (own host) b now values sent) = some b := if_pos rfl
  have hopen := not_gone hat.server rfl
  have hnext := hs.next_byte hhost hunread hat
  have hhandled : (history host (past ++ [.server host (.byte (own host) b now values sent)])).filterMap
      (handled (own host)) = (history host past).filterMap (handled (own host)) ++ [b] := by
    simp [history_append, hbyte]
  have hdown := hat.down
  rw [show connOf (.byte (own host) b now values sent) = some (own host) from rfl, if_pos rfl] at hdown
  rw [hbyte] at hnext
  cases hs.stage host hhost hunread with
  | waiting hbytes hempty =>
    rw [hbytes] at hnext hhandled
    have hb : b = '['.toUInt8 := by simpa using hnext
    subst hb
    have hsent := opening_sent hat.server
    subst hsent
    refine .opened hhandled ?_ (by rw [hdown, hempty]; rfl)
    rw [history_append, history_self]
    exact ⟨history host past, now, values, [], rfl⟩
  | opened hbytes hopened hempty =>
    rw [hbytes] at hnext hhandled
    have hb : b = ']'.toUInt8 := by simpa using hnext
    subst hb
    obtain ⟨hsent, -⟩ := Statmon.Server.closing_sent hat.server
    subst hsent
    refine .answered hhandled ?_
    rw [hdown, hempty]
    exact ⟨past, now, values, [], s, t, rfl, hs.run, hstep,
      hs.closing.all_finished (hs.mem_written hat hbyte hhost hunread), hopened, rfl,
      hs.range hstart hat⟩
  | answered hbytes hanswered =>
    rw [hbytes] at hnext
    exact absurd hnext.length_le (by simp)
  | ended hended hempty => exact absurd hended hopen

/-- An event of the client's own connection moves the stage on. -/
theorem Joined.stage_own (hs : Joined opts own s₀ past s)
    {serverOpts : Nat → Statmon.Server.Options} (hstart : Start serverOpts s₀) {host : Nat}
    (hhost : host < opts.mhosts) (hunread : s.client.monitoringResults.length ≤ host)
    {e : Server.Event F} (hconn : connOf e = some (own host))
    (hstep : Step opts own s (.server host e) t) :
    Stage opts own s₀ host (past ++ [.server host e]) t := by
  have hat := atHost hstep
  have hopen := not_gone hat.server hconn
  have hstage := hs.stage host hhost hunread
  have hdown := hat.down
  rw [if_pos hconn] at hdown
  cases e with
  | tick now values => cases hconn
  | byte conn b now values sent =>
    cases hconn
    exact hs.stage_byte hstart hhost hunread hstep
  | returned conn b now =>
    cases hconn
    refine hstage.ends hopen (returned_gone hat.server) (hdown.trans (List.append_nil _)) ?_
    intro hbytes
    have hnext := hs.next_byte hhost hunread hat
    rw [hbytes] at hnext
    exact absurd hnext.length_le (by simp [handled])
  | hungUp conn =>
    cases hconn
    refine hstage.ends hopen (hungUp_gone hat.server) (hdown.trans (List.append_nil _)) ?_
    simp [handled]

/-- A step at a server. -/
theorem Joined.serverStep (hs : Joined opts own s₀ past s)
    {serverOpts : Nat → Statmon.Server.Options} (hstart : Start serverOpts s₀) {host : Nat}
    {e : Server.Event F} (hstep : Step opts own s (.server host e) t) :
    Joined opts own s₀ (past ++ [.server host e]) t := by
  have hat := atHost hstep
  have hclient := hat.client
  have hgone : ∀ other, own other ∈ (s.servers other).gone → own other ∈ (t.servers other).gone := by
    intro other hother
    by_cases heq : other = host
    · subst heq
      exact gone_mono hat.server hother
    · rw [(hat.other other heq).1]
      exact hother
  refine ⟨run_append_iff.mpr ⟨s, hs.run, run_singleton_iff.mpr hstep⟩, ?_, ?_, ?_, ?_, ?_⟩
  · rw [hclient]
    exact hs.closing
  · rw [hclient]
    exact hs.script
  · intro other
    rw [hclient, hs.fifo other, history_append, List.filterMap_append]
    by_cases heq : other = host
    · subst heq
      rw [hat.up, history_self]
      cases hbyte : handled (own other) e <;> simp [hbyte]
    · rw [history_other (fun h => heq h.symm), (hat.other other heq).2.1]
      simp
  · intro other hother hunread
    rw [hclient] at hunread
    have hstage := hs.stage other hother hunread
    by_cases heq : other = host
    · subst heq
      by_cases hconn : connOf e = some (own other)
      · exact hs.stage_own hstart hother hunread hconn hstep
      · apply hstage.keep _ (hgone other)
        · rw [hat.down, if_neg hconn, List.append_nil]
        · rw [history_self]
          simp [handled_other hconn]
    · apply hstage.keep _ (hgone other) (hat.other other heq).2.2
      rw [history_other fun h => heq h.symm]
      rfl
  · intro other line hline
    rw [hclient] at hline
    exact (hs.recorded other line hline).later _ (hgone other)

/-- What the client reads is the answer, or nothing. -/
theorem Stage.read {host : Nat} (hs : Stage opts own s₀ host past s) {line rest : Chars}
    (hpackets : ∀ answer, Answered opts own s₀ host past answer →
      ∃ body, answer = body ++ ['\n'] ∧ '\n' ∉ body)
    (hreads : ReadsLine (own host ∈ (s.servers host).gone) (s.down host) line rest) :
    Recorded opts own s₀ host past s line := by
  cases hs with
  | waiting _ hempty => exact .inl (hreads.of_nil hempty)
  | opened _ _ hempty => exact .inl (hreads.of_nil hempty)
  | ended _ hempty => exact .inl (hreads.of_nil hempty)
  | answered _ hanswered =>
    obtain ⟨body, hpacket, hfree⟩ := hpackets _ hanswered
    rw [hreads.of_line hpacket hfree]
    exact .inr hanswered

/-- An answer is a packet, and a packet is one line. -/
theorem Answered.one_line (hdisplay : WritesFloats (F64.display : F → Chars))
    {serverOpts : Nat → Statmon.Server.Options} (hstart : Start serverOpts s₀) {host : Nat}
    (hplain : Plain (serverOpts host).hostPrefix) {line : Chars}
    (hanswered : Answered opts own s₀ host past line) :
    ∃ body, line = body ++ ['\n'] ∧ '\n' ∉ body := by
  obtain ⟨front, now, values, rest, u, v, -, hrun, hstep, -, -, hpacket, -⟩ := hanswered
  have hlabelled := labelled_run (hstart.booted host)
    (run_servers (run_append_iff.mpr ⟨u, hrun, run_singleton_iff.mpr hstep⟩) host)
  obtain ⟨body, hbody, hfree, -⟩ := hlabelled.packet hdisplay hplain
  exact ⟨body, hpacket.trans hbody, hfree⟩

/-- A step of the client. -/
theorem Joined.clientStep (hs : Joined opts own s₀ past s) {e : Generator.Event n}
    (hpackets : ∀ host < opts.mhosts, ∀ answer, Answered opts own s₀ host past answer →
      ∃ body, answer = body ++ ['\n'] ∧ '\n' ∉ body)
    (hstep : Step opts own s (.client e) t) :
    Joined opts own s₀ (past ++ [.client e]) t := by
  have hat := atClient hstep
  have hgone : ∀ host, own host ∈ (s.servers host).gone → own host ∈ (t.servers host).gone := by
    intro host hhost
    rw [hat.servers]
    exact hhost
  have hhistory : ∀ host, history host (past ++ [.client e]) = history host past := by
    intro host
    rw [history_append, history_client, List.append_nil]
  refine ⟨run_append_iff.mpr ⟨s, hs.run, run_singleton_iff.mpr hstep⟩, ?_, ?_, ?_, ?_, ?_⟩
  · exact hs.closing.step hat.client
  · exact hs.script.step hat.client
  · intro host
    have hfifo := hs.fifo host
    rcases hat.up host with ⟨hup, hwritten⟩ | ⟨byte, hup, hwritten⟩
    · rw [hwritten, hhistory, hup]
      exact hfifo
    · rw [hwritten, hhistory, hup, List.map_append, hfifo, List.map_append, List.append_assoc]
  · intro host hhost hunread
    have hbefore := le_trans (results_le hat.client) hunread
    rcases hat.down host with ⟨hdown, -⟩ | ⟨line, rest, rfl, hreading, -⟩
    · exact (hs.stage host hhost hbefore).keep rfl (hgone host) hdown
    · have hlength := (hs.script.reading hreading).1
      rw [results_readLine hat.client, List.length_append, List.length_singleton] at hunread
      omega
  · intro host line hline
    rcases hs.script.new_line hat.client hline with hold | ⟨rfl, hreading, hhost⟩
    · exact (hs.recorded host line hold).later _ (hgone host)
    · rcases hat.down host with ⟨-, hother⟩ | ⟨read, rest, hread, -, hreads⟩
      · exact absurd hreading (hother line rfl)
      · cases hread
        have hlength := (hs.script.reading hreading).1
        exact ((hs.stage host hhost hlength.le).read (hpackets host hhost) hreads).later _
          (hgone host)

theorem joined_start {serverOpts : Nat → Statmon.Server.Options} (hstart : Start serverOpts s₀) :
    Joined opts own s₀ [] s₀ where
  run := .nil s₀
  closing := by
    rw [hstart.client]
    exact closing_start opts
  script := by
    rw [hstart.client]
    exact onScript_start opts.mhosts
  fifo := fun host => by
    rw [hstart.client, hstart.up]
    rfl
  stage := fun host _ _ => .waiting rfl (hstart.down host)
  recorded := by
    rw [hstart.client]
    intro host line hline
    simp [start] at hline

/-- Whatever the interleaving, each line in the report of the generator is the packet
of its host for the `]` of the generator, handled after its `[` and after all its
requests, or empty because the server has ended the connection; and a report has
one line for each host. -/
theorem monitor_lines_answered (hdisplay : WritesFloats (F64.display : F → Chars))
    {serverOpts : Nat → Statmon.Server.Options}
    (hplain : ∀ host, Plain (serverOpts host).hostPrefix) (hstart : Start serverOpts s₀)
    {es : List (Event n F)} (hrun : Run (Step opts own) s₀ es s) :
    (s.client.main = .reported → s.client.monitoringResults.length = opts.mhosts) ∧
      ∀ host line, s.client.monitoringResults[host]? = some line →
        line = [] ∧ own host ∈ (s.servers host).gone ∨ Answered opts own s₀ host es line := by
  have hjoined : Joined opts own s₀ es s := by
    refine hrun.history_start (Joined opts own s₀) ?_ (joined_start hstart)
    intro past t e u ht hstep
    cases e with
    | client e =>
      exact ht.clientStep (fun host _ _ hanswered =>
        hanswered.one_line hdisplay hstart (hplain host)) hstep
    | server host e => exact ht.serverStep hstart hstep
  exact ⟨hjoined.script.reported, hjoined.recorded⟩

end Joined

/-! ### A run with one host -/

theorem run_results_le {opts : Options n} {c d : System n} {es : List (Generator.Event n)}
    (hrun : Run (Generator.Step opts) c es d) :
    c.monitoringResults.length ≤ d.monitoringResults.length :=
  hrun.always (fun s => c.monitoringResults.length ≤ s.monitoringResults.length)
    (fun _ _ _ hle hstep => le_trans hle (results_le hstep)) (le_refl _)

/-- Until it reads, the client can go ahead of the servers. -/
theorem exists_ahead {opts : Options n} {c d : System n} {es : List (Generator.Event n)}
    (hrun : Run (Generator.Step opts) c es d) (hunread : d.monitoringResults.length = 0)
    (own : Nat → Nat) {s : Net n F} (hclient : s.client = c)
    (hup : ∀ host, s.up host = written host c) :
    ∃ fs t, Run (Step opts own) s fs t ∧ t.client = d ∧ t.servers = s.servers ∧
      t.down = s.down ∧ (∀ host, t.up host = written host d) := by
  induction hrun generalizing s with
  | nil c => exact ⟨[], s, .nil s, hclient, rfl, rfl, hup⟩
  | @cons c b d e es hstep hrest ih =>
    subst hclient
    have hle := run_results_le hrest
    have hnext : ∃ u, Step opts own s (.client e) u ∧ u.client = b ∧ u.servers = s.servers ∧
        u.down = s.down ∧ ∀ host, u.up host = written host b := by
      by_cases hoffline : Offline e
      · refine ⟨{ s with client := b }, .offline hoffline hstep, rfl, rfl, rfl, fun host => ?_⟩
        exact (hup host).trans (written_offline hoffline hstep host).symm
      cases e with
      | main act =>
        cases act with
        | write other byte =>
          obtain ⟨pc, -, hmain⟩ := mainStep_of_step hstep
          refine ⟨_, .write hstep, rfl, rfl, rfl, fun host => ?_⟩
          rw [hmain, written_mainEffect]
          by_cases hother : host = other
          · subst hother
            simp [hup, bytesTo]
          · have hhost : other ≠ host := fun h => hother h.symm
            simp [hup, bytesTo, hother, hhost]
        | readLine line =>
          rw [results_readLine hstep, List.length_append, List.length_singleton] at hle
          omega
        | _ => exact absurd trivial hoffline
      | _ => exact absurd trivial hoffline
    obtain ⟨u, hfirst, hb, hservers, hdown, hupNext⟩ := hnext
    obtain ⟨fs, t, hlater, hd, hservers', hdown', hupLast⟩ := ih hunread hb hupNext
    exact ⟨_, t, .cons hfirst hlater, hd, hservers'.trans hservers, hdown'.trans hdown, hupLast⟩

/-- Two functions with a request each, and one host. -/
def monitored : Options 2 where
  functions := fun _ => ⟨1, by decide, 1, 1, some 1⟩
  offloadFracDen := 1
  dryRun := false
  monitoringHosts := 1

theorem exists_closing : ∃ es c, Run (Generator.Step monitored) start es c ∧
    c.main = .reading 0 := by
  obtain ⟨s₁, hs₁, hmain₁, -, -, hfns₁⟩ := exists_measuring monitored fun _ => .inr Nat.one_pos
  have hden : 0 < monitored.offloadFracDen := by decide
  have hplans : ∀ i, (monitored.functions i).Runnable :=
    fun _ => ⟨Nat.one_pos, (by decide : 1 < 2 ^ 60), 1, rfl, Nat.one_pos⟩
  obtain ⟨s₂, hs₂, hmain₂, -, hfns₂⟩ := each_served hden hplans hfns₁
  have hreach₂ := hs₁.trans hs₂
  obtain ⟨s₃, hs₃, hmain₃, -, -⟩ := each_wait (hreach₂.phased phased_start)
    (hmain₂.trans hmain₁) hfns₂ (fun _ _ h => ⟨_, .finishWait h, rfl⟩)
    (fun _ _ h => ⟨_, .finishSynced h, rfl⟩) .finishWait .finishSynced rfl rfl rfl
  have hdone := (hreach₂.trans hs₃).trans (reaches_main hmain₃ .doneStored trivial)
  obtain ⟨es, hrun⟩ := hdone.trans (reaches_main rfl (.closeRange (by decide)) trivial)
  exact ⟨es, _, hrun, rfl⟩

def quietOpts : Statmon.Server.Options := ⟨"local_".toList, "lo".toList⟩

theorem exists_quiet_server : ∃ a : Server.State Int,
    Server.Booted quietOpts a ∧ OnLoopback a.stats := by
  have hnew : Tracks [] ({ Stats.new Statmon.Ranges.quietEvents with
      hostPrefix := "local_".toList, netIface := "lo".toList } : Stats Int) :=
    tracks_new _ rfl rfl
  obtain ⟨u, hu, honu⟩ := Statmon.Ranges.quiet_update hnew ⟨rfl, .inl ⟨rfl, rfl⟩⟩
  obtain ⟨huInRange, huKind, huCollected⟩ := hnew.updated hu
  obtain ⟨t, ht, hont⟩ := Statmon.Ranges.quiet_update ⟨huInRange, huKind, huCollected⟩ honu
  refine ⟨⟨t, []⟩, ⟨rfl, Statmon.Ranges.quietHost, Statmon.Ranges.quietEvents, quiet, quiet,
    Statmon.Ranges.quietEvents_isNew, ?_⟩, hont⟩
  rw [Statmon.Server.boot, andThen_eq_done]
  exact ⟨u, hu, ht⟩

/-- A quiet server handles both brackets of connection 0. -/
theorem exists_quiet_range {a : Server.State Int} (hboot : Server.Booted quietOpts a)
    (hon : OnLoopback a.stats) :
    ∃ b c values values' line,
      Statmon.Server.Step a (.byte 0 '['.toUInt8 quiet values none) b ∧
      Statmon.Server.Step b (.byte 0 ']'.toUInt8 quiet values' (some line)) c ∧ c.gone = [] := by
  have hgone := hboot.1
  obtain ⟨u, hu, honu⟩ := Statmon.Ranges.quiet_update (boot_tracks hboot) hon
  have hbegin : u.beginRange quiet.counters =
      .done { u with inRange := true, stats := fun which => (u.stats which).reset } := by
    rw [Stats.beginRange, honu.1]
    rfl
  let b : Server.State Int := { a with
    stats := { u with inRange := true, stats := fun which => (u.stats which).reset } }
  have hopening : Statmon.Server.Step a
      (.byte 0 '['.toUInt8 quiet (Statmon.Server.observe b.stats) none) b := by
    refine .byte (by simp [hgone]) ?_
    rw [Statmon.Server.connHandler_opening, Statmon.Server.ofResult_eq_goesOn, andThen_eq_done]
    exact ⟨⟨u, hu, hbegin⟩, rfl⟩
  have htracks := run_tracks hboot (run_singleton_iff.mpr hopening)
  obtain ⟨v, hv, honv⟩ := Statmon.Ranges.quiet_update htracks (honu.of_same ⟨rfl, rfl, rfl⟩)
  have hend : v.endRange quiet.counters = .done { v with inRange := false } := by
    rw [Stats.endRange, honv.1]
    rfl
  let c : Server.State Int := { b with stats := { v with inRange := false } }
  have hopen : 0 ∉ b.gone := by
    show 0 ∉ a.gone
    simp [hgone]
  have hclosing : Statmon.Server.Step b (.byte 0 ']'.toUInt8 quiet
      (Statmon.Server.observe c.stats) (some c.stats.statPacket)) c := by
    refine .byte hopen ?_
    rw [Statmon.Server.connHandler_closing, Statmon.Server.ofResult_eq_goesOn, andThen_eq_done]
    exact ⟨⟨v, hv, hend⟩, rfl⟩
  exact ⟨b, c, _, _, _, hopening, hclosing, hgone⟩

/-- Two functions are measured, and the line of the host is an answer. -/
theorem monitor_lines_answered_quiet :
    ∃ (s₀ s : Net 2 Int) (es : List (Event 2 Int)) (line : Chars),
      Run (Step monitored fun _ => 0) s₀ es s ∧
      s.client.monitoringResults[0]? = some line ∧
      Answered monitored (fun _ => 0) s₀ 0 es line := by
  have hdisplay : WritesFloats (F64.display : Int → Chars) := fun _ _ hc => isFloatChar_decimalInt hc
  have hplain : Plain quietOpts.hostPrefix := by decide
  obtain ⟨a, hboot, hon⟩ := exists_quiet_server
  obtain ⟨b, c, values, values', line, hopening, hclosing, hgone⟩ := exists_quiet_range hboot hon
  obtain ⟨es, d, hclient, hreading⟩ := exists_closing
  let s₀ : Net 2 Int := ⟨start, fun _ => a, fun _ => [], fun _ => []⟩
  have hstart : Start (fun _ => quietOpts) s₀ := ⟨rfl, fun _ => hboot, fun _ => rfl, fun _ => rfl⟩
  have hscript : OnScript monitored.mhosts d :=
    hclient.always (OnScript monitored.mhosts) (fun _ _ _ hs hstep => hs.step hstep)
      (onScript_start _)
  obtain ⟨hlength, hhost⟩ := hscript.reading hreading
  have hbrackets : written 0 d = ['[', ']'] := by
    have hscripted := hscript.hosts 0 hhost
    rw [hreading, hlength] at hscripted
    exact congrArg Prod.fst hscripted
  obtain ⟨fs, t, hahead, hd, hservers, hdown, hup⟩ :=
    exists_ahead hclient hlength (fun _ => 0) (s := s₀) rfl fun _ => rfl
  have hpacket : ∃ body, line = body ++ ['\n'] ∧ '\n' ∉ body := by
    obtain ⟨hsent, -⟩ := Statmon.Server.closing_sent hclosing
    have hlabelled := labelled_run hboot (.cons hopening (run_singleton_iff.mpr hclosing))
    obtain ⟨body, hbody, hfree, -⟩ := hlabelled.packet hdisplay hplain
    rw [Option.some_inj] at hsent
    exact ⟨body, hsent.trans hbody, hfree⟩
  obtain ⟨body, hline, hfree⟩ := hpacket
  have hup₀ : t.up 0 = ['[', ']'] := (hup 0).trans hbrackets
  have ha : t.servers 0 = a := congrFun hservers 0
  have hempty : t.down 0 = [] := congrFun hdown 0
  let u : Net 2 Int :=
    { t with
      servers := Function.update t.servers 0 b
      up := Function.update t.up 0 [']']
      down := Function.update t.down 0 (t.down 0 ++ []) }
  have hopened : Step monitored (fun _ => 0) t
      (.server 0 (.byte 0 '['.toUInt8 quiet values none)) u :=
    .deliver hup₀ rfl (ha ▸ hopening)
  have hb : u.servers 0 = b := by simp [u]
  let v : Net 2 Int :=
    { u with
      servers := Function.update u.servers 0 c
      up := Function.update u.up 0 []
      down := Function.update u.down 0 (u.down 0 ++ line) }
  have hclosed : Step monitored (fun _ => 0) u
      (.server 0 (.byte 0 ']'.toUInt8 quiet values' (some line))) v :=
    .deliver (by simp [u]) rfl (hb ▸ hclosing)
  have hmain : v.client.main = .reading 0 := by
    show t.client.main = _
    rw [hd, hreading]
  have harrived : v.down 0 = body ++ '\n' :: [] := by
    simp [v, u, hempty, hline]
  have hreads : ReadsLine (0 ∈ (v.servers 0).gone) (v.down 0) (body ++ ['\n']) [] := by
    rw [harrived]
    exact .line hfree List.nil_suffix
  have hread : MainStep 2 monitored.mhosts v.client.main (.readLine line) (.quitting 0) := by
    rw [hmain]
    exact .readLine line
  have hlast : Step monitored (fun _ => 0) v (.client (.main (.readLine line))) _ :=
    .readLine hmain (.main hread trivial) (hline ▸ hreads)
  have hrun := run_append_iff.mpr ⟨t, hahead,
    .cons hopened (.cons hclosed (run_singleton_iff.mpr hlast))⟩
  have hfirst : (t.client.monitoringResults ++ [line])[0]? = some line := by
    rw [hd, List.length_eq_zero_iff.mp hlength]
    rfl
  refine ⟨s₀, _, _, line, hrun, hfirst, ?_⟩
  rcases (monitor_lines_answered hdisplay (fun _ => hplain) hstart hrun).2 0 line hfirst with
    ⟨hnothing, -⟩ | hanswered
  · rw [hline] at hnothing
    simp at hnothing
  · exact hanswered

end NdpOffload.Faasmspeed.Monitoring
