import Mathlib.Data.List.Forall2
import NdpOffload.Library.Outcomes
import NdpOffload.Library.Records

/-! `tabulator.py`: a table with one row for each `opts` line of the input.  The
names come from the first of them; a field is written where its name is the next
one of the row, and reported otherwise. -/
namespace NdpOffload.Faasmspeed.Tabulator

open Library.Outcomes Library.Records Library.Text

/-! ### Reading -/

/-- Python's `str.isspace`. -/
def isSpace (c : Char) : Bool := isWhitespace c || (0x1C ≤ c.toNat && c.toNat ≤ 0x1F)

def strip (text : Chars) : Chars := trim isSpace text

/-- Every line ending of a file opened as text is read as a newline. -/
def universalNewlines : Chars → Chars
  | '\r' :: '\n' :: rest => '\n' :: universalNewlines rest
  | '\r' :: rest => '\n' :: universalNewlines rest
  | c :: rest => c :: universalNewlines rest
  | [] => []

def readlines (text : Chars) : List Chars :=
  let pieces := (universalNewlines text).splitOn '\n'
  pieces.dropLast.map (· ++ ['\n']) ++ pieces.getLast?.toList.filter (· ≠ [])

/-- `range(start, stop, 2)`. -/
def everySecond (start stop : Nat) : List Nat := List.range' start ((stop - start + 1) / 2) 2

def varName (varHeader varLabel : Chars) : Chars := varHeader ++ '_' :: varLabel

/-! ### The two passes -/

/-- The first pass; it ends at the second `opts` line. -/
def detectFields : List Chars → List Chars → List Chars
  | [], fields => fields
  | line :: rest, fields =>
    let csv := line.splitOn ','
    if fields.length ≠ 0 ∧ csv.getD 0 [] = "opts".toList then fields
    else
      let varHeader := strip (csv.getD 0 [])
      detectFields rest
        (fields ++ (everySecond 1 csv.length).map fun i => varName varHeader (csv.getD i []))

structure Tab where
  output : Chars
  fieldNo : Nat := 0
  fieldHead : Chars := "pre-fields".toList
  printed : List Chars := []

inductive PyError where
  | indexError

/-- One field of the second pass; after the last name of a row there is none to
compare with. -/
def writeField (fields : List Chars) (varHeader : Chars) (field : Chars × Chars) (tab : Tab) :
    Outcome PyError Tab :=
  let name := varName varHeader field.1
  match fields[tab.fieldNo]? with
  | none => .failed .indexError tab
  | some next =>
    if next ≠ name then
      .done { tab with printed := tab.printed ++ ["Warning: skipping unknown field ".toList ++ name ++
        '=' :: field.2 ++ " at datapoint ".toList ++ tab.fieldHead] }
    else
      .done { tab with
        output := tab.output ++ (quoted field.2 ++ [',']), fieldNo := tab.fieldNo + 1 }

/-- The labels and values that the second pass reads in a line. -/
def readFields (csv : List Chars) : List (Chars × Chars) :=
  (everySecond 1 (csv.length - 1)).map fun i => (csv.getD i [], csv.getD (i + 1) [])

def writeLine (fields : List Chars) (line : Chars) (tab : Tab) : Outcome PyError Tab :=
  let csv := line.splitOn ','
  let varHeader := strip (csv.getD 0 [])
  Outcome.each (writeField fields varHeader) (readFields csv)
    (if varHeader = "opts".toList then
      { tab with fieldNo := 0, fieldHead := line, output := tab.output ++ ['\n'] }
    else tab)

/-- The name of a column in the table. -/
def dashless (name : Chars) : Chars := name.map fun c => if c = '-' then '_' else c

def tabulate (text : Chars) : Outcome PyError Tab :=
  let lines := (readlines text).map strip
  let fields := detectFields lines []
  Outcome.each (writeLine fields) lines
    { output := joinWith ',' (fields.map dashless) ++ ",dummy".toList }

/-! ### What is read -/

theorem universalNewlines_of_notMem {text : Chars} (htext : '\r' ∉ text) :
    universalNewlines text = text := by
  fun_induction universalNewlines text with
  | case1 rest ih => simp at htext
  | case2 rest hne ih => simp at htext
  | case3 c rest hcrlf hcr ih => rw [ih fun h => htext (List.mem_cons_of_mem c h)]
  | case4 => rfl

theorem readlines_unlines {pieces : List Chars}
    (hpieces : ∀ piece ∈ pieces, '\n' ∉ piece ∧ '\r' ∉ piece) :
    (readlines (unlines pieces)).map strip = pieces.map strip := by
  have hreturns : '\r' ∉ unlines pieces := by
    intro hmem
    obtain ⟨piece, hpiece, hin⟩ := List.mem_flatMap.mp hmem
    rcases List.mem_append.mp hin with hin | hin
    · exact (hpieces piece hpiece).2 hin
    · exact absurd (List.mem_singleton.mp hin) (by decide)
  rw [readlines, universalNewlines_of_notMem hreturns,
    splitOn_unlines pieces fun piece hpiece => (hpieces piece hpiece).1]
  simp [strip, trim_newline, isSpace, isWhitespace]

/-- A stripped line has no newline left. -/
theorem notMem_stripped {text line : Chars} (hline : line ∈ (readlines text).map strip) :
    '\n' ∉ line := by
  obtain ⟨read, hread, rfl⟩ := List.mem_map.mp hline
  have hpiece : ∀ piece ∈ (universalNewlines text).splitOn '\n', '\n' ∉ strip piece :=
    fun piece hpiece hmem => (mem_of_mem_splitOn hpiece (mem_of_mem_trim hmem)).2 rfl
  rcases List.mem_append.mp hread with hread | hread
  · obtain ⟨piece, hmem, rfl⟩ := List.mem_map.mp hread
    rw [strip, trim_newline (by decide)]
    exact hpiece piece (List.dropLast_subset _ hmem)
  · rw [List.mem_filter, Option.mem_toList] at hread
    exact hpiece read (List.mem_of_getLast? hread.1)

/-- The heading of a line and the named values that the second pass reads in it. -/
def heading (line : Chars) : Chars := strip ((line.splitOn ',').getD 0 [])

def namedFields (line : Chars) : List (Chars × Chars) :=
  (readFields (line.splitOn ',')).map fun field => (varName (heading line) field.1, field.2)

theorem mem_getD_splitOn {line : Chars} {i : Nat} {c : Char}
    (hc : c ∈ (line.splitOn ',').getD i []) : c ∈ line ∧ c ≠ ',' := by
  rw [List.getD_eq_getElem?_getD] at hc
  cases hget : (line.splitOn ',')[i]? with
  | none =>
    rw [hget] at hc
    cases hc
  | some cell =>
    rw [hget, Option.getD_some] at hc
    exact mem_of_mem_splitOn (List.mem_of_getElem? hget) hc

theorem mem_namedFields {line : Chars} {field : Chars × Chars} (hfield : field ∈ namedFields line) :
    ',' ∉ field.2 ∧ ∀ c ∈ field.2, c ∈ line := by
  obtain ⟨read, hread, rfl⟩ := List.mem_map.mp hfield
  obtain ⟨i, -, rfl⟩ := List.mem_map.mp hread
  exact ⟨fun hc => (mem_getD_splitOn hc).2 rfl, fun c hc => (mem_getD_splitOn hc).1⟩

/-! ### What is written -/

/-- A row under these names holds fields of its record, each in the column of its own
name. -/
structure Fits (names : List Chars) (record written : List (Chars × Chars)) : Prop where
  fields : ∀ field ∈ written, field ∈ record
  names : written.map Prod.fst <+: names

/-- The current row after what was written before it. -/
def Writing (names : List Chars) (before : Chars) (record : List (Chars × Chars)) (tab : Tab) : Prop :=
  ∃ written, Fits names record written ∧ tab.output = before ++ row (written.map Prod.snd) ∧
    tab.fieldNo = written.length

theorem writeLine_opts {names : List Chars} {line : Chars} (hopts : heading line = "opts".toList)
    (tab : Tab) :
    writeLine names line tab =
      Outcome.each (writeField names (heading line)) (readFields (line.splitOn ','))
        { tab with fieldNo := 0, fieldHead := line, output := tab.output ++ ['\n'] } :=
  congrArg _ (if_pos hopts)

theorem writeLine_other {names : List Chars} {line : Chars} (hother : heading line ≠ "opts".toList)
    (tab : Tab) :
    writeLine names line tab =
      Outcome.each (writeField names (heading line)) (readFields (line.splitOn ',')) tab :=
  congrArg _ (if_neg hother)

section Written

variable {names : List Chars} {before : Chars} {record : List (Chars × Chars)} {tab : Tab}

theorem Writing.field {varHeader : Chars} {field : Chars × Chars}
    (hfield : (varName varHeader field.1, field.2) ∈ record)
    (htab : Writing names before record tab) :
    (writeField names varHeader field tab).Leaves (Writing names before record) := by
  obtain ⟨written, hfits, houtput, hfieldNo⟩ := htab
  unfold writeField
  split
  · exact ⟨written, hfits, houtput, hfieldNo⟩
  · rename_i next hnext
    dsimp only
    split
    · exact ⟨written, hfits, houtput, hfieldNo⟩
    · rename_i hsame
      have hname : next = varName varHeader field.1 := not_not.mp hsame
      refine ⟨written ++ [(varName varHeader field.1, field.2)], ⟨?_, ?_⟩, ?_, ?_⟩
      · intro pair hpair
        rcases List.mem_append.mp hpair with hold | hnew
        · exact hfits.fields pair hold
        · rw [List.mem_singleton.mp hnew]
          exact hfield
      · -- the name that was compared follows the names of the fields before
        rw [hfieldNo, ← List.length_map Prod.fst] at hnext
        obtain ⟨rest, hrest⟩ := hfits.names
        rw [← hrest, List.getElem?_append_right (Nat.le_refl _), Nat.sub_self] at hnext
        obtain ⟨later, rfl⟩ : ∃ later, rest = next :: later := by
          cases rest with
          | nil => cases hnext
          | cons first later => exact ⟨later, by rw [Option.some.inj hnext]⟩
        exact ⟨later, by rw [← hrest, hname]; simp⟩
      · rw [houtput, List.map_append, List.map_singleton, row_concat, List.append_assoc]
      · rw [hfieldNo, List.length_append, List.length_singleton]

/-- Reading the fields of one line. -/
theorem Writing.fields {line : Chars} (hline : ∀ field ∈ namedFields line, field ∈ record)
    (htab : Writing names before record tab) :
    (Outcome.each (writeField names (heading line)) (readFields (line.splitOn ',')) tab).Leaves
      (Writing names before record) :=
  leaves_each _ (fun _ hfield _ hs => hs.field (hline _ (List.mem_map_of_mem hfield))) htab

theorem Writing.line {line : Chars} (hother : heading line ≠ "opts".toList)
    (hline : ∀ field ∈ namedFields line, field ∈ record) (htab : Writing names before record tab) :
    (writeLine names line tab).Leaves (Writing names before record) := by
  rw [writeLine_other hother]
  exact Writing.fields hline htab

/-- An `opts` line and the lines up to the next one. -/
def IsRecord (group : List Chars) : Prop :=
  ∃ line rest, group = line :: rest ∧ heading line = "opts".toList ∧
    ∀ other ∈ rest, heading other ≠ "opts".toList

theorem writeRecord {group : List Chars} (hgroup : IsRecord group) (tab : Tab) :
    (Outcome.each (writeLine names) group tab).Leaves
      (Writing names (tab.output ++ ['\n']) (group.flatMap namedFields)) := by
  obtain ⟨line, rest, rfl, hopts, hrest⟩ := hgroup
  have hread : ∀ other ∈ line :: rest, ∀ field ∈ namedFields other,
      field ∈ (line :: rest).flatMap namedFields :=
    fun other hother field hfield => List.mem_flatMap.mpr ⟨other, hother, hfield⟩
  have hnew : Writing names (tab.output ++ ['\n']) ((line :: rest).flatMap namedFields)
      { tab with fieldNo := 0, fieldHead := line, output := tab.output ++ ['\n'] } :=
    ⟨[], ⟨by simp, List.nil_prefix⟩, by simp [row], rfl⟩
  have hfirst := Writing.fields (hread line List.mem_cons_self) hnew
  rw [each_cons]
  refine Outcome.Leaves.andThen ?_ fun t ht => leaves_each _ (fun other hother s hs =>
    hs.line (hrest other hother) (hread other (List.mem_cons_of_mem _ hother))) ht
  rw [writeLine_opts hopts]
  exact hfirst

/-- The rows written so far, one for each record. -/
def Tabled (names : List Chars) (header : Chars) (groups : List (List Chars)) (tab : Tab) : Prop :=
  ∃ rows, List.Forall₂ (Fits names) (groups.map fun group => group.flatMap namedFields) rows ∧
    tab.output = header ++ rows.flatMap fun written => '\n' :: row (written.map Prod.snd)

/-- Also where it stops at a field without a column, the table has its rows in their
columns; a complete one has a row for each record. -/
theorem writeRecords {groups : List (List Chars)} (hgroups : ∀ group ∈ groups, IsRecord group)
    (tab : Tab) :
    (Outcome.each (writeLine names) groups.flatten tab).Leaves fun t =>
      ∃ past, past <+: groups ∧ Tabled names tab.output past t ∧
        (Outcome.each (writeLine names) groups.flatten tab = .done t → past = groups) := by
  rw [each_flatten]
  apply each_history
  · rintro past group hgroup s ⟨rows, hrows, houtput⟩
    refine (writeRecord (hgroups group hgroup) s).mono ?_
    rintro t ⟨written, hfits, hwritten, -⟩
    refine ⟨rows ++ [written], ?_, ?_⟩
    · rw [List.map_append, List.map_singleton]
      exact List.rel_append hrows (.cons hfits .nil)
    · rw [hwritten, houtput]
      simp
  · exact ⟨[], .nil, by simp⟩

end Written

/-! ### The names -/

/-- The names that the first pass reads in a line. -/
def readNames (line : Chars) : List Chars :=
  (everySecond 1 (line.splitOn ',').length).map fun i =>
    varName (heading line) ((line.splitOn ',').getD i [])

theorem detectFields_cons (line : Chars) (rest fields : List Chars) :
    detectFields (line :: rest) fields =
      if fields.length ≠ 0 ∧ (line.splitOn ',').getD 0 [] = "opts".toList then fields
      else detectFields rest (fields ++ readNames line) := rfl

theorem mem_readNames {line name : Chars} (hname : name ∈ readNames line) {c : Char}
    (hc : c ∈ name) : c = '_' ∨ c ∈ line ∧ c ≠ ',' := by
  obtain ⟨i, -, rfl⟩ := List.mem_map.mp hname
  rcases List.mem_append.mp hc with hc | hc
  · exact .inr (mem_getD_splitOn (mem_of_mem_trim hc))
  · rcases List.mem_cons.mp hc with rfl | hc
    · exact .inl rfl
    · exact .inr (mem_getD_splitOn hc)

/-- Names consist of characters of the lines. -/
theorem mem_detectFields {lines fields : List Chars} {name : Chars}
    (hname : name ∈ detectFields lines fields) :
    name ∈ fields ∨ ∃ line ∈ lines, name ∈ readNames line := by
  induction lines generalizing fields with
  | nil => exact .inl hname
  | cons line rest ih =>
    rw [detectFields_cons] at hname
    split at hname
    · exact .inl hname
    · rcases ih hname with hold | ⟨other, hother, hin⟩
      · rcases List.mem_append.mp hold with hold | hnew
        · exact .inl hold
        · exact .inr ⟨line, List.mem_cons_self, hnew⟩
      · exact .inr ⟨other, List.mem_cons_of_mem line hother, hin⟩

/-- The first line of the table. -/
def headerLine (names : List Chars) : Chars :=
  joinWith ',' (names.map dashless) ++ ",dummy".toList

theorem notMem_dashless {c : Char} {name : Chars} (hc : c ≠ '_') (hname : c ∉ name) :
    c ∉ dashless name := by
  intro hmem
  obtain ⟨d, hd, hdash⟩ := List.mem_map.mp hmem
  split at hdash
  · exact hc hdash.symm
  · exact hname (hdash ▸ hd)

/-- The table has the columns of its names and one more. -/
theorem splitOn_headerLine {names : List Chars} (hne : names ≠ [])
    (hnames : ∀ name ∈ names, ',' ∉ name) :
    (headerLine names).splitOn ',' = names.map dashless ++ ["dummy".toList] := by
  have hjoin : headerLine names = joinWith ',' (names.map dashless ++ ["dummy".toList]) := by
    rw [joinWith_concat ',' _ (by simpa using hne)]
    rfl
  rw [hjoin]
  apply splitOn_joinWith (by simp)
  intro field hfield
  rcases List.mem_append.mp hfield with hcolumn | hlast
  · obtain ⟨name, hname, rfl⟩ := List.mem_map.mp hcolumn
    exact notMem_dashless (by decide) (hnames name hname)
  · rw [List.mem_singleton.mp hlast]
    decide

theorem notMem_headerLine {c : Char} {names : List Chars} (hc : c ≠ '_') (hcomma : c ≠ ',')
    (hdummy : c ∉ "dummy".toList) (hnames : ∀ name ∈ names, c ∉ name) : c ∉ headerLine names := by
  intro hmem
  rcases List.mem_append.mp hmem with hmem | hmem
  · refine notMem_joinWith hcomma ?_ hmem
    intro field hfield
    obtain ⟨name, hname, rfl⟩ := List.mem_map.mp hfield
    exact notMem_dashless hc (hnames name hname)
  · rcases List.mem_cons.mp hmem with hmem | hmem
    · exact hcomma hmem
    · exact hdummy hmem

/-! ### Any input -/

/-- The records, each from its `opts` line to the next. -/
def records : List Chars → List (List Chars)
  | [] => []
  | line :: rest =>
    if heading line = "opts".toList then
      (line :: rest.takeWhile fun other => heading other ≠ "opts".toList) :: records rest
    else records rest

theorem records_spec (lines : List Chars) :
    lines = (lines.takeWhile fun line => heading line ≠ "opts".toList) ++ (records lines).flatten ∧
      ∀ record ∈ records lines, IsRecord record := by
  induction lines with
  | nil => exact ⟨rfl, by simp [records]⟩
  | cons line rest ih =>
    obtain ⟨hrest, hrecords⟩ := ih
    rw [records]
    split
    · rename_i hopts
      rw [List.takeWhile_cons_of_neg (by simpa using hopts), List.flatten_cons, List.cons_append,
        ← hrest]
      refine ⟨rfl, fun record hrecord => ?_⟩
      rcases List.mem_cons.mp hrecord with rfl | hlater
      · refine ⟨line, _, rfl, hopts, fun other hother => ?_⟩
        simpa using List.mem_takeWhile_imp hother
      · exact hrecords record hlater
    · rename_i hother
      rw [List.takeWhile_cons_of_pos (by simpa using hother), List.cons_append, ← hrest]
      exact ⟨rfl, hrecords⟩

/-- One line of the table: a row of quoted values, each of which its record has under
the name of the column. -/
def RowFits (names group : List Chars) (line : Chars) : Prop :=
  ∃ written, Fits names (group.flatMap namedFields) written ∧
    line.splitOn ',' = written.map (fun field => quoted field.2) ++ [[]]

theorem read_rows {names : List Chars} {groups : List (List Chars)}
    {rows : List (List (Chars × Chars))} (hclean : ∀ line ∈ groups.flatten, '\n' ∉ line)
    (hrows : List.Forall₂ (Fits names) (groups.map fun group => group.flatMap namedFields) rows) :
    (∀ written ∈ rows, ∀ field ∈ written, '\n' ∉ field.2) ∧
      List.Forall₂ (RowFits names) groups
        (rows.map fun written => row (written.map Prod.snd)) := by
  induction groups generalizing rows with
  | nil =>
    cases hrows
    exact ⟨by simp, .nil⟩
  | cons group groups ih =>
    cases hrows with
    | cons hfits hrows =>
      rename_i written rows
      obtain ⟨hvalues, hrest⟩ := ih
        (fun line hline => hclean line (List.mem_append_right _ hline)) hrows
      have hfield : ∀ field ∈ written, ',' ∉ field.2 ∧ '\n' ∉ field.2 := by
        intro field hfield
        obtain ⟨line, hline, hin⟩ := List.mem_flatMap.mp (hfits.fields field hfield)
        obtain ⟨hcomma, hchars⟩ := mem_namedFields hin
        exact ⟨hcomma, fun hmem => hclean line (List.mem_append_left _ hline) (hchars _ hmem)⟩
      refine ⟨?_, .cons ⟨written, hfits, ?_⟩ hrest⟩
      · intro other hother
        rcases List.mem_cons.mp hother with rfl | hother
        · exact fun field hin => (hfield field hin).2
        · exact hvalues other hother
      · rw [splitOn_row, List.map_map]
        · rfl
        · intro value hvalue
          obtain ⟨field, hin, rfl⟩ := List.mem_map.mp hvalue
          exact (hfield field hin).1

/-- Whatever the records are, no value gets into a column of another name. -/
theorem tabulate_columns {text first : Chars} {rest : List Chars}
    (hlines : (readlines text).map strip = first :: rest) (hfirst : heading first = "opts".toList) :
    ∃ names groups, (readlines text).map strip = groups.flatten ∧
      (∀ group ∈ groups, IsRecord group) ∧
      (tabulate text).Leaves fun tab => ∃ rows past, past <+: groups ∧
        tab.output.splitOn '\n' = headerLine names :: rows ∧
        List.Forall₂ (RowFits names) past rows ∧ (tabulate text = .done tab → past = groups) := by
  obtain ⟨hgroups, hrecords⟩ := records_spec ((readlines text).map strip)
  generalize records ((readlines text).map strip) = groups at hgroups hrecords
  have hnone : ((readlines text).map strip).takeWhile (fun line => heading line ≠ "opts".toList) =
      [] := by
    rw [hlines]
    exact List.takeWhile_cons_of_neg (by simpa using hfirst)
  rw [hnone, List.nil_append] at hgroups
  have hclean : ∀ line ∈ groups.flatten, '\n' ∉ line :=
    fun line hline => notMem_stripped (hgroups ▸ hline)
  refine ⟨detectFields groups.flatten [], groups, hgroups, hrecords, ?_⟩
  have hheader : '\n' ∉ headerLine (detectFields groups.flatten []) := by
    refine notMem_headerLine (by decide) (by decide) (by decide) fun name hname hmem => ?_
    rcases mem_detectFields hname with hold | ⟨line, hline, hin⟩
    · cases hold
    · rcases mem_readNames hin hmem with heq | hin
      · exact absurd heq (by decide)
      · exact hclean line hline hin.1
  unfold tabulate
  simp only [hgroups]
  refine (writeRecords hrecords _).mono ?_
  rintro tab ⟨past, hpast, ⟨rows, hrows, houtput⟩, hdone⟩
  have hpastClean : ∀ line ∈ past.flatten, '\n' ∉ line := by
    intro line hline
    obtain ⟨group, hgroup, hin⟩ := List.mem_flatten.mp hline
    exact hclean line (List.mem_flatten.mpr ⟨group, hpast.subset hgroup, hin⟩)
  obtain ⟨hvalues, hfits⟩ := read_rows hpastClean hrows
  refine ⟨_, past, hpast, ?_, hfits, hdone⟩
  rw [houtput]
  have htable := splitOn_table (rows.map fun written => written.map Prod.snd) hheader ?_
  · rw [List.flatMap_map, List.map_map] at htable
    exact htable
  · intro values hin value hvalue
    obtain ⟨written, hwritten, rfl⟩ := List.mem_map.mp hin
    obtain ⟨field, hfield, rfl⟩ := List.mem_map.mp hvalue
    exact hvalues written hwritten field hfield

end NdpOffload.Faasmspeed.Tabulator
