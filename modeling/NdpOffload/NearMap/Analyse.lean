import NdpOffload.NearMap.Tool

/-! The parsing loop of `analyse-results`, and what it makes of each line the
tool can write.  `none` is a failed `unwrap`. -/
namespace NdpOffload.NearMap.Analyse

open Library.Text Tool

inductive AccessType where
  | read
  | write
  | readWrite
  deriving DecidableEq

def AccessType.tryFromRw (isRead isWrite : Bool) : Option AccessType :=
  match isRead, isWrite with
  | true, false => some .read
  | false, true => some .write
  | true, true => some .readWrite
  | _, _ => none

abbrev Accesses := AList fun _ : UInt64 => AccessType

structure TracePhase where
  name : Chars
  pageSize : UInt64
  startTime : UInt64
  instructions : UInt64
  ioBytes : UInt64
  accesses : Accesses := ∅

/-- The two variables that live across the iterations of the loop. -/
structure Parsed where
  phases : List TracePhase := []
  nextPhase : Chars := "pre-main".toList

def analyseTrace (line : Chars) (st : Parsed) : Option Parsed := do
  let phase ← st.phases.getLast?
  let fields := line.splitOn ';'
  let _ ← fields[0]?
  let _ ← fields[1]?
  let _ ← fields[2]?
  let _ ← fields[3]?
  let pageidx ← fields[4]? >>= parseU64
  let letters ← fields[5]?
  let accessty ← AccessType.tryFromRw (letters.contains 'R') (letters.contains 'W')
  pure { st with
    phases := st.phases.dropLast ++ [{ phase with accesses := phase.accesses.insert pageidx accessty }] }

def analysePhase (line : Chars) (st : Parsed) : Option Parsed := do
  let fields := line.splitOn ';'
  let _ ← fields[0]?
  let pageSize ← fields[1]? >>= parseU64
  let prevStartTime ← fields[2]? >>= parseU64
  let _ ← fields[3]? >>= parseU64
  let name ← fields[4]?
  let instructions ← parseU64 (fields[5]?.getD ['0'])
  let ioBytes ← parseU64 (fields[6]?.getD ['0'])
  pure ⟨st.phases ++ [⟨st.nextPhase, pageSize, prevStartTime, instructions, ioBytes, ∅⟩], name⟩

def analyseLine (st : Parsed) (line : Chars) : Option Parsed :=
  if "trace;".toList.isPrefixOf line then analyseTrace line st
  else if "phase;".toList.isPrefixOf line then analysePhase line st
  else some st

/-- The line loop of `analyse_file` on the contents of a log. -/
def analyseFile (text : Chars) : Option Parsed := (lines text).foldlM analyseLine {}

/-! ### One line at a time -/

theorem splitOn_render {line : LogLine} (hfields : ∀ field ∈ line.fields, ';' ∉ field) :
    line.render.splitOn ';' = line.fields := by
  apply splitOn_joinWith _ hfields
  cases line <;> simp [LogLine.fields]

/-- The names the tool was given must not contain the separators. -/
def NameOk (name : Chars) : Prop := ';' ∉ name ∧ '\n' ∉ name

def LineOk : LogLine → Prop
  | .phase pageSize _ _ name _ _ => 0 ≤ pageSize.toInt ∧ NameOk name
  | .trace line => line.didRead = true ∨ line.didWrite = true
  | _ => True

theorem notMem_fields {line : LogLine} (hok : LineOk line) {c : Char} (hc : c = ';' ∨ c = '\n') :
    ∀ field ∈ line.fields, c ∉ field := by
  have hdigit : c.isDigit = false := by rcases hc with rfl | rfl <;> decide
  have hminus : c ≠ '-' := by rcases hc with rfl | rfl <;> decide
  cases line with
  | phase pageSize prevTime currTime name instructions ioBytes =>
    have hname : c ∉ name := by
      rcases hc with rfl | rfl
      · exact hok.2.1
      · exact hok.2.2
    have hword : c ∉ "phase".toList := by rcases hc with rfl | rfl <;> decide
    simp only [LogLine.fields, List.forall_mem_cons]
    exact ⟨hword, notMem_decimalInt hdigit hminus, notMem_decimal hdigit, notMem_decimal hdigit,
      hname, notMem_decimal hdigit, notMem_decimal hdigit, List.forall_mem_nil _⟩
  | trace line =>
    have hword : c ∉ "trace".toList := by rcases hc with rfl | rfl <;> decide
    have hR : c ≠ 'R' := by rcases hc with rfl | rfl <;> decide
    have hW : c ≠ 'W' := by rcases hc with rfl | rfl <;> decide
    simp only [LogLine.fields, List.forall_mem_cons]
    refine ⟨hword, List.not_mem_nil, notMem_decimal hdigit, notMem_decimal hdigit,
      notMem_decimal hdigit, ?_, List.not_mem_nil, List.forall_mem_nil _⟩
    cases line.didRead <;> cases line.didWrite <;> simp [hR, hW]
  | summary uniqRO uniqRW uniqWO total =>
    have hword : c ∉ "summary-ro-rw-wo-tot-insn".toList := by
      rcases hc with rfl | rfl <;> decide
    simp only [LogLine.fields, List.forall_mem_cons]
    exact ⟨hword, notMem_decimal hdigit, notMem_decimal hdigit, notMem_decimal hdigit,
      notMem_decimal hdigit, List.forall_mem_nil _⟩
  | phaseStubFound =>
    simp only [LogLine.fields, List.mem_singleton, forall_eq]
    rcases hc with rfl | rfl <;> decide
  | ioStubFound =>
    simp only [LogLine.fields, List.mem_singleton, forall_eq]
    rcases hc with rfl | rfl <;> decide

theorem chomp_fields (front : List Chars) {last : Chars} (hfront : front ≠ [])
    (hlast : '\r' ∉ last) :
    chomp (joinWith ';' (front ++ [last])) = joinWith ';' (front ++ [last]) := by
  rw [joinWith_concat ';' last hfront]
  apply chomp_append (by simp)
  simp [hlast]

/-- No line ends in a carriage return, whatever the name of the phase. -/
theorem chomp_render (line : LogLine) : chomp line.render = line.render := by
  have hdigit : Char.isDigit '\r' = false := by decide
  cases line with
  | phase pageSize prevTime currTime name instructions ioBytes =>
    exact chomp_fields [_, _, _, _, _, _] (by simp) (notMem_decimal hdigit)
  | trace line =>
    exact chomp_fields [_, _, _, _, _, _] (by simp) List.not_mem_nil
  | summary uniqRO uniqRW uniqWO total =>
    exact chomp_fields [_, _, _, _] (by simp) (notMem_decimal hdigit)
  | phaseStubFound => decide
  | ioStubFound => decide

theorem lines_logText {out : List LogLine} (hok : ∀ line ∈ out, LineOk line) :
    lines (logText out) = out.map LogLine.render := by
  apply lines_unlines
  · intro piece hpiece
    obtain ⟨line, hline, rfl⟩ := List.mem_map.mp hpiece
    exact notMem_joinWith (by decide) (notMem_fields (hok line hline) (.inr rfl))
  · intro piece hpiece
    obtain ⟨line, _, rfl⟩ := List.mem_map.mp hpiece
    exact chomp_render line

/-- What the loop does with a line that the tool wrote. -/
def applyLine (st : Parsed) : LogLine → Parsed
  | .phase pageSize prevTime _ name instructions ioBytes =>
      ⟨st.phases ++ [⟨st.nextPhase, UInt64.ofNat pageSize.toInt.toNat, prevTime, instructions,
        ioBytes, ∅⟩], name⟩
  | .trace line => match st.phases.getLast?, AccessType.tryFromRw line.didRead line.didWrite with
      | some phase, some accessty => { st with phases := st.phases.dropLast ++
          [{ phase with accesses := phase.accesses.insert line.pageIdx accessty }] }
      | _, _ => st
  | _ => st

theorem analyseLine_phase (st : Parsed) {pageSize : Int32} {name : Chars}
    {prevTime currTime instructions ioBytes : UInt64}
    (hok : LineOk (.phase pageSize prevTime currTime name instructions ioBytes)) :
    analyseLine st (LogLine.render (.phase pageSize prevTime currTime name instructions ioBytes)) =
      some (applyLine st (.phase pageSize prevTime currTime name instructions ioBytes)) := by
  have hsplit := splitOn_render (notMem_fields hok (.inl rfl))
  have hsize : parseU64 (decimalInt pageSize.toInt) =
      some (UInt64.ofNat pageSize.toInt.toNat) := by
    have hnonneg := hok.1
    have hbound : pageSize.toInt < 2 ^ 31 := pageSize.toInt_lt
    rw [decimalInt, if_neg (by omega), ← parseU64_decimal_of_lt (by omega)]
    congr 2
    omega
  have htrace : "trace;".toList.isPrefixOf
      (LogLine.render (.phase pageSize prevTime currTime name instructions ioBytes)) = false := by
    rw [LogLine.render, LogLine.fields, joinWith_cons_cons]
    rfl
  have hphase : "phase;".toList.isPrefixOf
      (LogLine.render (.phase pageSize prevTime currTime name instructions ioBytes)) = true := by
    rw [LogLine.render, LogLine.fields, joinWith_cons_cons]
    rfl
  rw [analyseLine, htrace, if_neg (by decide), if_pos hphase, analysePhase, hsplit]
  simp [LogLine.fields, applyLine, hsize]

theorem analyseLine_trace {st : Parsed} {line : TraceLine} (hok : LineOk (.trace line))
    (hphases : st.phases ≠ []) :
    analyseLine st (LogLine.render (.trace line)) = some (applyLine st (.trace line)) := by
  have hsplit := splitOn_render (notMem_fields hok (.inl rfl))
  have htrace : "trace;".toList.isPrefixOf (LogLine.render (.trace line)) = true := by
    rw [LogLine.render, LogLine.fields, joinWith_cons_cons]
    rfl
  obtain ⟨phase, hlast⟩ := Option.ne_none_iff_exists'.mp (mt List.getLast?_eq_none_iff.mp hphases)
  have htype : ∃ accessty, AccessType.tryFromRw line.didRead line.didWrite = some accessty := by
    rcases hok with hread | hwrite
    · rw [hread]
      cases line.didWrite <;> exact ⟨_, rfl⟩
    · rw [hwrite]
      cases line.didRead <;> exact ⟨_, rfl⟩
  obtain ⟨accessty, htype⟩ := htype
  rw [analyseLine, if_pos htrace, analyseTrace, hsplit]
  simp only [LogLine.fields, applyLine, hlast, htype]
  simp [htype]

/-- Lines that are neither trace nor phase lines are skipped. -/
theorem analyseLine_other (st : Parsed) {line : LogLine} (htrace : ∀ t, line ≠ .trace t)
    (hphase : ∀ a b c d e f, line ≠ .phase a b c d e f) :
    analyseLine st line.render = some st := by
  cases line with
  | phase a b c d e f => exact absurd rfl (hphase a b c d e f)
  | trace t => exact absurd rfl (htrace t)
  | summary uniqRO uniqRW uniqWO total =>
    rw [LogLine.render, LogLine.fields, joinWith_cons_cons]
    rfl
  | phaseStubFound => rfl
  | ioStubFound => rfl

end NdpOffload.NearMap.Analyse
