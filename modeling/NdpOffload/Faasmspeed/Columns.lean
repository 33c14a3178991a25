import NdpOffload.Faasmspeed.Report
import NdpOffload.Faasmspeed.Tabulator
import NdpOffload.Statmon.Packet

/-! From the packets of the monitors through the report to the table: the columns of
all three agree. -/
namespace NdpOffload.Faasmspeed.Columns

open Library.Outcomes Library.Records Library.Text Report Tabulator
open Statmon.Monitor Statmon.Packet

/-! ### Lines without stray separators -/

/-- A line that the tabulator reads as it was written. -/
structure Tidy (line : Line) : Prop where
  head_ne : line.1 ≠ []
  head : ∀ c ∈ line.1, isSpace c = false ∧ c ≠ ','
  inner : ∀ cell ∈ cells line.2, ∀ c ∈ cell, c ≠ ',' ∧ c ≠ '\n' ∧ c ≠ '\r'
  ends : ∀ pair ∈ line.2, ∀ c, pair.2.getLast? = some c → isSpace c = false

/-- Free of commas and line endings, and of blanks at its end. -/
structure CleanValue (value : Chars) : Prop where
  inner : ∀ c ∈ value, c ≠ ',' ∧ c ≠ '\n' ∧ c ≠ '\r'
  ends : ∀ c, value.getLast? = some c → isSpace c = false

def CleanLabel (label : Chars) : Prop := ∀ c ∈ label, c ≠ ',' ∧ c ≠ '\n' ∧ c ≠ '\r'

instance (label : Chars) : Decidable (CleanLabel label) :=
  inferInstanceAs (Decidable (∀ c ∈ label, _))

/-- The fields of a line under the names they get. -/
def lineFields (line : Line) : List (Chars × Chars) :=
  line.2.map fun pair => (varName line.1 pair.1, pair.2)

section Tidy

variable {line : Line} (hline : Tidy line)
include hline

theorem Tidy.split : (lineText line).splitOn ',' = line.1 :: cells line.2 :=
  splitOn_lineText (fun hmem => (hline.head ',' hmem).2 rfl)
    fun cell hcell hmem => (hline.inner cell hcell ',' hmem).1 rfl

theorem Tidy.stripped : strip (lineText line) = lineText line :=
  trim_lineText (by decide) hline.head_ne (fun c hc => (hline.head c hc).1) hline.ends

theorem Tidy.headed : heading (lineText line) = line.1 := by
  rw [heading, hline.split, List.getD_cons_zero]
  exact trim_of_notBlank fun c hc => (hline.head c hc).1

theorem Tidy.noNewline : '\n' ∉ lineText line ∧ '\r' ∉ lineText line := by
  constructor
  · refine notMem_lineText (by decide) ?_ fun cell hcell hmem => (hline.inner cell hcell _ hmem).2.1 rfl
    exact fun hmem => absurd (hline.head _ hmem).1 (by decide)
  · refine notMem_lineText (by decide) ?_ fun cell hcell hmem => (hline.inner cell hcell _ hmem).2.2 rfl
    exact fun hmem => absurd (hline.head _ hmem).1 (by decide)

/-- The two ranges of the passes end differently, but in a line of pairs they are the
same. -/
theorem Tidy.fields_eq : namedFields (lineText line) = lineFields line := by
  have hrange : everySecond 1 ((line.1 :: cells line.2).length - 1) =
      List.range' 1 line.2.length 2 := by
    rw [everySecond, List.length_cons, length_cells]
    congr 1
    omega
  rw [namedFields, hline.headed, readFields, hline.split, hrange, map_range'_cells]
  rfl

theorem Tidy.names_eq : readNames (lineText line) = (lineFields line).map Prod.fst := by
  have hrange : everySecond 1 (line.1 :: cells line.2).length = List.range' 1 line.2.length 2 := by
    rw [everySecond, List.length_cons, length_cells]
    congr 1
    omega
  have hnames := congrArg (List.map fun pair => varName line.1 pair.1)
    (map_range'_cells line.2 line.1)
  rw [List.map_map] at hnames
  rw [readNames, hline.headed, hline.split, hrange, lineFields, List.map_map]
  exact hnames

end Tidy

/-! ### Records with the expected names -/

/-- What stands in the table after fields that were all expected. -/
def Extends (tab : Tab) (values : List Chars) (t : Tab) : Prop :=
  t.output = tab.output ++ row values ∧ t.fieldNo = tab.fieldNo + values.length ∧
    t.printed = tab.printed

theorem Extends.trans {tab t u : Tab} {front rest : List Chars} (ht : Extends tab front t)
    (hu : Extends t rest u) : Extends tab (front ++ rest) u := by
  obtain ⟨houtput, hfieldNo, hprinted⟩ := ht
  obtain ⟨houtput', hfieldNo', hprinted'⟩ := hu
  refine ⟨?_, ?_, hprinted'.trans hprinted⟩
  · rw [houtput', houtput, row_append, List.append_assoc]
  · rw [hfieldNo', hfieldNo, List.length_append, Nat.add_assoc]

section Expected

variable {names : List Chars}

/-- Fields whose names come next are all written. -/
theorem writeFields_expected {varHeader : Chars} (fields : List (Chars × Chars)) (tab : Tab)
    (hnames : (fields.map fun field => varName varHeader field.1) <+: names.drop tab.fieldNo) :
    ∃ t, Outcome.each (writeField names varHeader) fields tab = .done t ∧
      Extends tab (fields.map Prod.snd) t := by
  induction fields generalizing tab with
  | nil => exact ⟨tab, rfl, by simp [row], rfl, rfl⟩
  | cons field fields ih =>
    obtain ⟨later, hlater⟩ := hnames
    rw [List.map_cons, List.cons_append] at hlater
    have hnext : names[tab.fieldNo]? = some (varName varHeader field.1) := by
      rw [← List.head?_drop, ← hlater, List.head?_cons]
    have hrest : names.drop (tab.fieldNo + 1) =
        (fields.map fun field => varName varHeader field.1) ++ later := by
      rw [← List.tail_drop, ← hlater, List.tail_cons]
    obtain ⟨t, hdone, hextends⟩ := ih { tab with
      output := tab.output ++ (quoted field.2 ++ [',']), fieldNo := tab.fieldNo + 1 } ⟨later, hrest.symm⟩
    refine ⟨t, ?_, ?_⟩
    · rw [each_cons, writeField, hnext]
      simp only [ne_eq, not_true_eq_false, if_false, andThen_done]
      exact hdone
    · have hone : Extends tab [field.2] { tab with
          output := tab.output ++ (quoted field.2 ++ [',']), fieldNo := tab.fieldNo + 1 } :=
        ⟨by simp [row], rfl, rfl⟩
      exact hone.trans hextends

theorem namedFields_names (line : Chars) :
    ((readFields (line.splitOn ',')).map fun field => varName (heading line) field.1) =
      (namedFields line).map Prod.fst := by
  rw [namedFields, List.map_map]
  rfl

theorem namedFields_values (line : Chars) :
    (readFields (line.splitOn ',')).map Prod.snd = (namedFields line).map Prod.snd := by
  rw [namedFields, List.map_map]
  rfl

theorem writeLine_expected {line : Chars} (hother : heading line ≠ "opts".toList) (tab : Tab)
    (hnames : (namedFields line).map Prod.fst <+: names.drop tab.fieldNo) :
    ∃ t, writeLine names line tab = .done t ∧ Extends tab ((namedFields line).map Prod.snd) t := by
  rw [writeLine_other hother, ← namedFields_values]
  exact writeFields_expected _ _ (namedFields_names line ▸ hnames)

theorem writeLines_expected (lines : List Chars)
    (hlines : ∀ line ∈ lines, heading line ≠ "opts".toList) (tab : Tab)
    (hnames : (lines.flatMap namedFields).map Prod.fst <+: names.drop tab.fieldNo) :
    ∃ t, Outcome.each (writeLine names) lines tab = .done t ∧
      Extends tab ((lines.flatMap namedFields).map Prod.snd) t := by
  induction lines generalizing tab with
  | nil => exact ⟨tab, rfl, by simp [row], rfl, rfl⟩
  | cons line lines ih =>
    rw [List.flatMap_cons, List.map_append] at hnames
    obtain ⟨t, hdone, hextends⟩ := writeLine_expected (hlines line List.mem_cons_self) tab
      ((List.prefix_append _ _).trans hnames)
    have hrest : (lines.flatMap namedFields).map Prod.fst <+: names.drop t.fieldNo := by
      obtain ⟨later, hlater⟩ := hnames
      rw [hextends.2.1, ← List.drop_drop, ← hlater, List.append_assoc, List.length_map,
        ← List.length_map Prod.fst, List.drop_left]
      exact List.prefix_append _ _
    obtain ⟨u, hu, hmore⟩ := ih (fun other hother => hlines other (List.mem_cons_of_mem _ hother))
      t hrest
    refine ⟨u, ?_, ?_⟩
    · rw [each_cons, hdone, andThen_done, hu]
    · rw [List.flatMap_cons, List.map_append]
      exact hextends.trans hmore

/-- A record with the names of the table gives a full row. -/
theorem writeRecord_expected {group : List Chars} (hgroup : IsRecord group)
    (hnames : (group.flatMap namedFields).map Prod.fst = names) (tab : Tab) :
    ∃ t, Outcome.each (writeLine names) group tab = .done t ∧
      t.output = tab.output ++ '\n' :: row ((group.flatMap namedFields).map Prod.snd) ∧
      t.printed = tab.printed := by
  obtain ⟨line, rest, rfl, hopts, hrest⟩ := hgroup
  rw [List.flatMap_cons, List.map_append] at hnames
  have hstart : ((readFields (line.splitOn ',')).map fun field => varName (heading line) field.1) <+:
      names.drop 0 := by
    rw [namedFields_names, ← hnames]
    exact List.prefix_append _ _
  obtain ⟨t, ht, hfirst⟩ := writeFields_expected _
    { tab with fieldNo := 0, fieldHead := line, output := tab.output ++ ['\n'] } hstart
  rw [namedFields_values] at hfirst
  have hlater : (rest.flatMap namedFields).map Prod.fst <+: names.drop t.fieldNo := by
    rw [hfirst.2.1, ← hnames, Nat.zero_add, List.length_map, ← List.length_map Prod.fst,
      List.drop_left]
  obtain ⟨u, hu, hmore⟩ := writeLines_expected rest hrest t hlater
  obtain ⟨houtput, -, hprinted⟩ := hfirst.trans hmore
  refine ⟨u, ?_, ?_, hprinted⟩
  · rw [each_cons, writeLine_opts hopts, ht, andThen_done, hu]
  · rw [houtput, List.flatMap_cons, List.map_append]
    simp

end Expected

theorem writeRecords_expected {names : List Chars} {groups : List (List Chars)}
    (hgroups : ∀ group ∈ groups, IsRecord group)
    (hnames : ∀ group ∈ groups, (group.flatMap namedFields).map Prod.fst = names) (tab : Tab) :
    ∃ t, Outcome.each (writeLine names) groups.flatten tab = .done t ∧
      t.output = tab.output ++ groups.flatMap (fun group =>
        '\n' :: row ((group.flatMap namedFields).map Prod.snd)) ∧ t.printed = tab.printed := by
  induction groups generalizing tab with
  | nil => exact ⟨tab, rfl, by simp, rfl⟩
  | cons group groups ih =>
    obtain ⟨t, ht, houtput, hprinted⟩ := writeRecord_expected
      (hgroups group List.mem_cons_self) (hnames group List.mem_cons_self) tab
    obtain ⟨u, hu, hmore, hprinted'⟩ := ih
      (fun other hother => hgroups other (List.mem_cons_of_mem _ hother))
      (fun other hother => hnames other (List.mem_cons_of_mem _ hother)) t
    refine ⟨u, ?_, ?_, hprinted'.trans hprinted⟩
    · rw [List.flatten_cons, each_append, ht, andThen_done, hu]
    · rw [hmore, houtput, List.flatMap_cons, List.append_assoc]

/-! ### Tables of tidy records -/

/-- An `opts` line with some fields, and the lines that belong to it. -/
structure TidyRecord (record : List Line) : Prop where
  shape : ∃ pairs rest, record = ("opts".toList, pairs) :: rest ∧ pairs ≠ [] ∧
    ∀ line ∈ rest, line.1 ≠ "opts".toList
  lines : ∀ line ∈ record, Tidy line

def recordFields (record : List Line) : List (Chars × Chars) := record.flatMap lineFields

section Records

variable {record : List Line}

theorem flatMap_tidy {lines : List Line} (hlines : ∀ line ∈ lines, Tidy line) :
    (lines.map lineText).flatMap namedFields = recordFields lines ∧
      (lines.map lineText).flatMap readNames = (recordFields lines).map Prod.fst := by
  rw [recordFields, List.map_flatMap, List.flatMap_map, List.flatMap_map]
  exact ⟨List.flatMap_congr fun line hline => (hlines line hline).fields_eq,
    List.flatMap_congr fun line hline => (hlines line hline).names_eq⟩

theorem TidyRecord.isRecord (hrecord : TidyRecord record) : IsRecord (record.map lineText) := by
  obtain ⟨pairs, rest, rfl, -, hrest⟩ := hrecord.shape
  refine ⟨_, _, rfl, (hrecord.lines _ List.mem_cons_self).headed, ?_⟩
  intro other hother
  obtain ⟨line, hline, rfl⟩ := List.mem_map.mp hother
  rw [(hrecord.lines line (List.mem_cons_of_mem _ hline)).headed]
  exact hrest line hline

/-- Lines between two `opts` lines. -/
theorem detectFields_lines {lines : List Line} (hlines : ∀ line ∈ lines, Tidy line)
    (hother : ∀ line ∈ lines, line.1 ≠ "opts".toList) (later fields : List Chars) :
    detectFields (lines.map lineText ++ later) fields =
      detectFields later (fields ++ (recordFields lines).map Prod.fst) := by
  induction lines generalizing fields with
  | nil => simp [recordFields]
  | cons line lines ih =>
    have hline := hlines line List.mem_cons_self
    have hrest := ih (fun l hl => hlines l (List.mem_cons_of_mem _ hl))
      (fun l hl => hother l (List.mem_cons_of_mem _ hl)) (fields ++ (lineFields line).map Prod.fst)
    rw [List.map_cons, List.cons_append, detectFields_cons, hline.split, List.getD_cons_zero,
      if_neg fun h => hother line List.mem_cons_self h.2, hline.names_eq, hrest, recordFields,
      recordFields, List.flatMap_cons, List.map_append, List.append_assoc]

/-- The names are those of the first record, whatever record follows. -/
theorem TidyRecord.detected (hrecord : TidyRecord record) {records : List (List Line)}
    (hrecords : ∀ r ∈ records, TidyRecord r) :
    detectFields ((record :: records).map (·.map lineText)).flatten [] =
      (recordFields record).map Prod.fst := by
  obtain ⟨pairs, rest, rfl, hpairs, hrest⟩ := hrecord.shape
  have hopts := hrecord.lines _ List.mem_cons_self
  have hfirst : (lineFields ("opts".toList, pairs)).map Prod.fst ≠ [] := by
    simpa [lineFields] using hpairs
  rw [List.map_cons, List.flatten_cons, List.map_cons, List.cons_append, detectFields_cons,
    if_neg (by simp), hopts.names_eq, List.nil_append,
    detectFields_lines (fun l hl => hrecord.lines l (List.mem_cons_of_mem _ hl)) hrest]
  have hnames : (recordFields (("opts".toList, pairs) :: rest)).map Prod.fst =
      (lineFields ("opts".toList, pairs)).map Prod.fst ++ (recordFields rest).map Prod.fst := by
    rw [recordFields, List.flatMap_cons, List.map_append]
    rfl
  have hlength : ((recordFields (("opts".toList, pairs) :: rest)).map Prod.fst).length ≠ 0 := by
    have hpos := List.length_pos_of_ne_nil hfirst
    rw [hnames, List.length_append]
    omega
  rw [← hnames]
  cases records with
  | nil => rfl
  | cons next records =>
    have hnext := hrecords next List.mem_cons_self
    obtain ⟨pairs', rest', rfl, -, -⟩ := hnext.shape
    rw [List.map_cons, List.flatten_cons, List.map_cons, List.cons_append, detectFields_cons,
      (hnext.lines _ List.mem_cons_self).split, List.getD_cons_zero,
      if_pos ⟨hlength, rfl⟩]

theorem mem_recordFields {lines : List Line} (hlines : ∀ line ∈ lines, Tidy line)
    {field : Chars × Chars} (hfield : field ∈ recordFields lines) :
    (∀ c ∈ field.1, c ≠ ',' ∧ c ≠ '\n') ∧ ∀ c ∈ field.2, c ≠ ',' ∧ c ≠ '\n' := by
  obtain ⟨line, hline, hin⟩ := List.mem_flatMap.mp hfield
  obtain ⟨pair, hpair, rfl⟩ := List.mem_map.mp hin
  have hinner := (hlines line hline).inner
  constructor
  · intro c hc
    rcases List.mem_append.mp hc with hc | hc
    · obtain ⟨hspace, hcomma⟩ := (hlines line hline).head c hc
      refine ⟨hcomma, ?_⟩
      rintro rfl
      cases hspace
    · rcases List.mem_cons.mp hc with rfl | hc
      · decide
      · have hcell := hinner pair.1 ((mem_cells _).mpr ⟨pair, hpair, .inl rfl⟩) c hc
        exact ⟨hcell.1, hcell.2.1⟩
  · intro c hc
    have hcell := hinner pair.2 ((mem_cells _).mpr ⟨pair, hpair, .inr rfl⟩) c hc
    exact ⟨hcell.1, hcell.2.1⟩

/-- Records with the same names give a table with a full row for each of them. -/
theorem tabulate_records {records : List (List Line)} (hrecords : ∀ r ∈ records, TidyRecord r)
    {names : List Chars} (hnames : ∀ r ∈ records, (recordFields r).map Prod.fst = names)
    (hnil : records = [] → names = []) :
    ∃ tab, tabulate (unlines (records.flatten.map lineText)) = .done tab ∧ tab.printed = [] ∧
      tab.output.splitOn '\n' =
        headerLine names :: records.map fun r => row ((recordFields r).map Prod.snd) := by
  have htidy : ∀ line ∈ records.flatten, Tidy line := by
    intro line hline
    obtain ⟨r, hr, hin⟩ := List.mem_flatten.mp hline
    exact (hrecords r hr).lines line hin
  have hlines : (readlines (unlines (records.flatten.map lineText))).map strip =
      (records.map (·.map lineText)).flatten := by
    rw [readlines_unlines, List.map_flatten]
    · rw [← List.map_flatten, List.map_map]
      exact List.map_congr_left fun line hline => (htidy line hline).stripped
    · intro piece hpiece
      obtain ⟨line, hline, rfl⟩ := List.mem_map.mp hpiece
      exact (htidy line hline).noNewline
  have hdetected : detectFields (records.map (·.map lineText)).flatten [] = names := by
    cases records with
    | nil => exact (hnil rfl).symm
    | cons r records =>
      rw [(hrecords r List.mem_cons_self).detected fun other hother =>
        hrecords other (List.mem_cons_of_mem _ hother)]
      exact hnames r List.mem_cons_self
  have hfields : ∀ r ∈ records, (r.map lineText).flatMap namedFields = recordFields r :=
    fun r hr => (flatMap_tidy (hrecords r hr).lines).1
  have hgroups : ∀ group ∈ records.map (·.map lineText), IsRecord group ∧
      (group.flatMap namedFields).map Prod.fst = names := by
    intro group hgroup
    obtain ⟨r, hr, rfl⟩ := List.mem_map.mp hgroup
    exact ⟨(hrecords r hr).isRecord, by rw [hfields r hr, hnames r hr]⟩
  obtain ⟨tab, htab, houtput, hprinted⟩ := writeRecords_expected
    (fun group hgroup => (hgroups group hgroup).1) (fun group hgroup => (hgroups group hgroup).2)
    { output := headerLine names }
  refine ⟨tab, ?_, hprinted, ?_⟩
  · unfold tabulate
    simp only [hlines, hdetected]
    exact htab
  · have hrows : ((records.map (·.map lineText)).flatMap fun group =>
          '\n' :: row ((group.flatMap namedFields).map Prod.snd)) =
        (records.map fun r => (recordFields r).map Prod.snd).flatMap ('\n' :: row ·) := by
      rw [List.flatMap_map, List.flatMap_map]
      exact List.flatMap_congr fun r hr => by rw [hfields r hr]
    rw [houtput, hrows, splitOn_table, List.map_map]
    · rfl
    · refine notMem_headerLine (by decide) (by decide) (by decide) fun name hname hmem => ?_
      cases records with
      | nil =>
        rw [hnil rfl] at hname
        cases hname
      | cons r records =>
        rw [← hnames r List.mem_cons_self] at hname
        obtain ⟨field, hfield, rfl⟩ := List.mem_map.mp hname
        exact ((mem_recordFields (hrecords r List.mem_cons_self).lines hfield).1 _ hmem).2 rfl
    · intro values hvalues value hvalue hmem
      obtain ⟨r, hr, rfl⟩ := List.mem_map.mp hvalues
      obtain ⟨field, hfield, rfl⟩ := List.mem_map.mp hvalue
      exact ((mem_recordFields (hrecords r hr).lines hfield).2 _ hmem).2 rfl

end Records

/-! ### The packets of the monitors -/

theorem isSpace_floatChar {c : Char} (hc : isFloatChar c = true) : isSpace c = false := by
  have hone : ∀ d ∈ [c], isFloatChar d = true := by simpa using hc
  have hplain := plain_of_floatChars hone c (List.mem_singleton_self c)
  rw [isSpace, hplain.2.2, Bool.false_or]
  rcases Bool.or_eq_true .. ▸ hc with hdigit | hother
  · simp only [Char.isDigit, Bool.and_eq_true, decide_eq_true_eq, UInt32.le_iff_toNat_le] at hdigit
    simp only [Bool.and_eq_false_iff, decide_eq_false_iff_not]
    have hlow : 48 ≤ c.toNat := hdigit.1
    omega
  · have hall : ∀ d ∈ "-.NaNinf".toList, (0x1C ≤ d.toNat && d.toNat ≤ 0x1F) = false := by decide
    exact hall c (of_decide_eq_true hother)

theorem cleanValue_of_floatChars {value : Chars} (hvalue : ∀ c ∈ value, isFloatChar c = true) :
    CleanValue value := by
  refine ⟨fun c hc => ?_, fun c hc => isSpace_floatChar (hvalue c (List.mem_of_getLast? hc))⟩
  obtain ⟨hcomma, -, hblank⟩ := plain_of_floatChars hvalue c hc
  refine ⟨hcomma, ?_, ?_⟩
  · rintro rfl
    cases hblank
  · rintro rfl
    cases hblank

theorem cleanValue_decimal (n : Nat) : CleanValue (decimal n) :=
  cleanValue_of_floatChars fun c hc => by
    rw [isFloatChar, isDigit_of_mem_decimal hc, Bool.true_or]

section Packets

variable {F : Type} [Statmon.Table.F64 F]

theorem labelled_columns {prefixes : List Chars} {monitors : List (Stats F)}
    (hlabelled : List.Forall₂ Labelled prefixes monitors) :
    ((monitors.map packetColumns).flatMap fun columns => columns.map Prod.fst) =
      prefixes.flatMap labels := by
  induction hlabelled with
  | nil => rfl
  | cons hstats _ ih => rw [List.map_cons, List.flatMap_cons, List.flatMap_cons, ih, hstats.columns]

omit [Statmon.Table.F64 F] in
theorem mem_monitors {prefixes : List Chars} {monitors : List (Stats F)}
    (hlabelled : List.Forall₂ Labelled prefixes monitors) :
    ∀ stats ∈ monitors, ∃ hostPrefix ∈ prefixes, Labelled hostPrefix stats := by
  induction hlabelled with
  | nil => simp
  | @cons hostPrefix stats prefixes monitors hstats _ ih =>
    intro other hother
    rcases List.mem_cons.mp hother with rfl | hother
    · exact ⟨hostPrefix, List.mem_cons_self, hstats⟩
    · obtain ⟨p, hp, hlabel⟩ := ih other hother
      exact ⟨p, List.mem_cons_of_mem _ hp, hlabel⟩

variable (hdisplay : WritesFloats (Statmon.Table.F64.display : F → Chars))
include hdisplay

theorem packet_lines {prefixes : List Chars} (hprefixes : ∀ p ∈ prefixes, Plain p)
    {monitors : List (Stats F)} (hlabelled : List.Forall₂ Labelled prefixes monitors) :
    List.Forall₂ (fun result columns => cells columns ≠ [] ∧
      trim isWhitespace result = joinWith ',' (cells columns))
      (monitors.map Stats.statPacket) (monitors.map packetColumns) := by
  induction hlabelled with
  | nil => exact .nil
  | @cons hostPrefix stats prefixes monitors hstats _ ih =>
    refine .cons ⟨cells_ne_nil stats, ?_⟩ (ih fun p hp => hprefixes p (List.mem_cons_of_mem _ hp))
    obtain ⟨body, hpacket, -, -, htrim⟩ :=
      hstats.packet hdisplay (hprefixes hostPrefix List.mem_cons_self)
    rw [statPacket_eq] at hpacket
    rw [htrim, (List.append_cancel_right hpacket)]

theorem packet_clean {hostPrefix : Chars} (hpre : Plain hostPrefix) {stats : Stats F}
    (hstats : Labelled hostPrefix stats) :
    ∀ pair ∈ packetColumns stats, CleanLabel pair.1 ∧ CleanValue pair.2 := by
  intro pair hpair
  refine ⟨fun c hc => ?_, cleanValue_of_floatChars fun c hc => packet_values hdisplay hpair hc⟩
  have hplain := hstats.plain hdisplay hpre pair.1 ((mem_cells _).mpr ⟨pair, hpair, .inl rfl⟩) c hc
  refine ⟨hplain.1, ?_, ?_⟩
  · rintro rfl
    exact absurd hplain.2.2 (by decide)
  · rintro rfl
    exact absurd hplain.2.2 (by decide)

end Packets

/-! ### The records of a report -/

def optLabels : List Chars :=
  [ "host".toList, "user".toList, "function".toList, "ndp".toList, "first-ndp".toList,
    "actual-ndp".toList, "req-rps".toList, "first-rps".toList, "req-time".toList,
    "input-data-0".toList ]

def statLabels : List Chars :=
  [ "min".toList, "q1pct".toList, "q1".toList, "med".toList, "q3".toList, "q99pct".toList,
    "max".toList, "avg".toList, "stddev".toList ]

variable {F : Type} [FloatOps F]

variable (F) in
def statLines (sortedData : List U128) (shortName : Chars) : List Line :=
  (statFields F sortedData).map fun field => (shortName, [field])

/-- What one record prints besides its monitoring results. -/
structure Figures where
  options : List Chars
  errors : Nat
  results : Nat
  gaps : List U128
  avgRps : Chars
  latency : List U128
  status : List U128
  bytes : List U128

variable (F) in
def laterLines (figures : Figures) (monitors : List (List (Chars × Chars))) : List Line :=
  [ ("errors".toList, [("count".toList, decimal figures.errors)]),
    ("results".toList, [("count".toList, decimal figures.results)]) ] ++
  monitors.map (fun columns => ("monitor".toList, columns)) ++
  statLines F figures.gaps "inter-request-us".toList ++
  [ ("avg-rps".toList, [("avg-rps".toList, figures.avgRps)]) ] ++
  statLines F figures.latency "latency-us".toList ++
  statLines F figures.status "status-us".toList ++
  statLines F figures.bytes "bytes-sent".toList

variable (F) in
def recordLines (figures : Figures) (monitors : List (List (Chars × Chars))) : List Line :=
  ("opts".toList, optLabels.zip figures.options) :: laterLines F figures monitors

theorem unlines_lines (lines : List Line) :
    unlines (lines.map lineText) = lines.flatMap fun line => println (lineText line) := by
  rw [unlines, List.flatMap_map]
  rfl

theorem printStats_eq (sortedData : List U128) (shortName : Chars) :
    printStats F sortedData shortName = unlines ((statLines F sortedData shortName).map lineText) := by
  rw [unlines_lines, statLines, List.flatMap_map, printStats]
  refine List.flatMap_congr fun field _ => congrArg println ?_
  simp [lineText, joinWith_cons]

theorem monitorLines_eq {results : List Chars} {monitors : List (List (Chars × Chars))}
    (hresults : List.Forall₂ (fun result columns => cells columns ≠ [] ∧
      trim isWhitespace result = joinWith ',' (cells columns)) results monitors) :
    (results.flatMap fun mresult => println ("monitor,".toList ++ trim isWhitespace mresult)) =
      unlines ((monitors.map fun columns => (("monitor".toList, columns) : Line)).map lineText) := by
  rw [unlines_lines, List.flatMap_map]
  induction hresults with
  | nil => rfl
  | @cons result columns results monitors hresult _ ih =>
    obtain ⟨hne, htrim⟩ := hresult
    obtain ⟨first, rest, heq⟩ := List.exists_cons_of_ne_nil hne
    rw [List.flatMap_cons, List.flatMap_cons, ih, htrim, lineText, heq, joinWith_cons_cons]
    rfl

/-- The texts of the options that a record prints. -/
structure CleanOptions (opts : Options F) : Prop where
  url : CleanValue opts.url
  user : CleanValue opts.user
  functions : ∀ function ∈ opts.functions, CleanValue function
  inputData : ∀ data ∈ opts.inputData, CleanValue data

/-- `{:.k}` writes no more than digits and the like. -/
def WritesFixed (F : Type) [FloatOps F] : Prop :=
  WritesFloats fun item : Nat × F => FloatOps.fixed item.1 item.2

theorem WritesFixed.clean (hfixed : WritesFixed F) (k : Nat) (v : F) :
    CleanValue (FloatOps.fixed k v) :=
  cleanValue_of_floatChars fun c hc => hfixed (k, v) c hc

theorem optsLine_eq (url user function ndp firstNdp actualNdp reqRps firstRps reqTime input : Chars) :
    println ("opts,host,".toList ++ url ++ ",user,".toList ++ user ++ ",function,".toList ++
        function ++ ",ndp,".toList ++ ndp ++ ",first-ndp,".toList ++ firstNdp ++
        ",actual-ndp,".toList ++ actualNdp ++ ",req-rps,".toList ++ reqRps ++
        ",first-rps,".toList ++ firstRps ++ ",req-time,".toList ++ reqTime ++
        ",input-data-0,".toList ++ input) =
      println (lineText ("opts".toList, optLabels.zip
        [url, user, function, ndp, firstNdp, actualNdp, reqRps, firstRps, reqTime, input])) := by
  simp [lineText, joinWith_cons, optLabels]

theorem pairLines_eq (value : Chars) :
    println ("errors,count,".toList ++ value) =
      println (lineText ("errors".toList, [("count".toList, value)])) ∧
    println ("results,count,".toList ++ value) =
      println (lineText ("results".toList, [("count".toList, value)])) ∧
    println ("avg-rps,avg-rps,".toList ++ value) =
      println (lineText ("avg-rps".toList, [("avg-rps".toList, value)])) := by
  simp [lineText, joinWith_cons]

theorem unlines_recordLines (figures : Figures) {results : List Chars}
    {monitors : List (List (Chars × Chars))}
    (hmonitors : List.Forall₂ (fun result columns => cells columns ≠ [] ∧
      trim isWhitespace result = joinWith ',' (cells columns)) results monitors) :
    unlines ((recordLines F figures monitors).map lineText) =
      println (lineText ("opts".toList, optLabels.zip figures.options)) ++
      println (lineText ("errors".toList, [("count".toList, decimal figures.errors)])) ++
      println (lineText ("results".toList, [("count".toList, decimal figures.results)])) ++
      results.flatMap (fun mresult => println ("monitor,".toList ++ trim isWhitespace mresult)) ++
      printStats F figures.gaps "inter-request-us".toList ++
      println (lineText ("avg-rps".toList, [("avg-rps".toList, figures.avgRps)])) ++
      printStats F figures.latency "latency-us".toList ++
      printStats F figures.status "status-us".toList ++
      printStats F figures.bytes "bytes-sent".toList := by
  rw [monitorLines_eq hmonitors]
  simp only [printStats_eq]
  rw [recordLines, List.map_cons, unlines, List.flatMap_cons, ← unlines]
  simp only [laterLines, List.map_append, unlines_append, List.append_assoc]
  simp only [unlines_lines, List.flatMap_cons, List.flatMap_nil, List.append_nil, List.append_assoc,
    println]

/-- A record as it is printed. -/
theorem csvRecord_lines {opts : Options F} {run : Measured} {fidx errors : Nat}
    {results : List Generator.RequestResult} {text : Chars} {monitors : List (List (Chars × Chars))}
    (hfixed : WritesFixed F) (hopts : CleanOptions opts)
    (hmonitors : List.Forall₂ (fun result columns => cells columns ≠ [] ∧
      trim isWhitespace result = joinWith ',' (cells columns)) run.monitoringResults monitors)
    (hprinted : csvRecord opts run fidx results errors = some text) :
    ∃ figures : Figures, figures.options.length = optLabels.length ∧
      (∀ value ∈ figures.options, CleanValue value) ∧ CleanValue figures.avgRps ∧
      text = unlines ((recordLines F figures monitors).map lineText) := by
  simp only [csvRecord, Option.bind_eq_bind, Option.bind_eq_some_iff, Option.pure_def,
    Option.some.injEq, optsLine_eq, (pairLines_eq _).1, (pairLines_eq _).2.1,
    (pairLines_eq _).2.2] at hprinted
  obtain ⟨function, hfunction, num, -, firstNum, -, rps, -, firstRps, -, input, hinput, rfl⟩ :=
    hprinted
  let frac : Int32 → F := fun num =>
    FloatOps.div (FloatOps.ofInt num.toInt) (FloatOps.ofInt opts.offloadFracDen.toInt)
  let actual : F := FloatOps.div (FloatOps.ofInt run.ndpRequests.toInt)
    (FloatOps.ofInt run.totalRequests.toNat)
  let gaps := sorted (intervals (column (·.startTime) results))
  let avgRps : F := FloatOps.div (FloatOps.ofInt 1000000) (FloatOps.ofInt (average gaps).toNat)
  let options : List Chars := [opts.url, opts.user, function, FloatOps.fixed 2 (frac num),
    FloatOps.fixed 2 (frac firstNum), FloatOps.fixed 6 actual, FloatOps.fixed 1 rps,
    FloatOps.fixed 1 firstRps, FloatOps.fixed 1 opts.time, input]
  refine ⟨⟨options, errors, results.length, gaps, FloatOps.fixed 4 avgRps, column (·.usRequest) results,
    column (·.usStatus) results, column (·.numBytes) results⟩, ?_, ?_, hfixed.clean 4 avgRps, ?_⟩
  · rfl
  · intro value hvalue
    simp only [options, List.mem_cons, List.not_mem_nil, or_false] at hvalue
    rcases hvalue with rfl | rfl | rfl | rfl | rfl | rfl | rfl | rfl | rfl | rfl
    · exact hopts.url
    · exact hopts.user
    · exact hopts.functions _ (List.mem_of_getElem? hfunction)
    · exact hfixed.clean 2 (frac num)
    · exact hfixed.clean 2 (frac firstNum)
    · exact hfixed.clean 6 actual
    · exact hfixed.clean 1 rps
    · exact hfixed.clean 1 firstRps
    · exact hfixed.clean 1 opts.time
    · exact hopts.inputData _ (List.mem_of_getElem? hinput)
  · rw [unlines_recordLines _ hmonitors]

/-! ### Their names -/

def statNames (shortName : Chars) : List Chars := statLabels.map (varName shortName)

/-- The names in a record whose monitors print these labels. -/
def recordNames (monitorLabels : List Chars) : List Chars :=
  optLabels.map (varName "opts".toList) ++
  [varName "errors".toList "count".toList, varName "results".toList "count".toList] ++
  monitorLabels.map (varName "monitor".toList) ++
  statNames "inter-request-us".toList ++ [varName "avg-rps".toList "avg-rps".toList] ++
  statNames "latency-us".toList ++ statNames "status-us".toList ++ statNames "bytes-sent".toList

theorem statFields_labels (sortedData : List U128) :
    (statFields F sortedData).map Prod.fst = statLabels := rfl

theorem statLines_names (sortedData : List U128) (shortName : Chars) :
    (recordFields (statLines F sortedData shortName)).map Prod.fst = statNames shortName := by
  rw [statNames, ← statFields_labels (F := F) sortedData, recordFields, statLines,
    List.flatMap_map, List.map_flatMap, List.map_map]
  rfl

theorem recordFields_append (front rest : List Line) :
    recordFields (front ++ rest) = recordFields front ++ recordFields rest :=
  List.flatMap_append

theorem recordLines_names {figures : Figures} (monitors : List (List (Chars × Chars)))
    (hoptions : figures.options.length = optLabels.length) :
    (recordFields (recordLines F figures monitors)).map Prod.fst =
      recordNames (monitors.flatMap (·.map Prod.fst)) := by
  have hopts : (lineFields ("opts".toList, optLabels.zip figures.options)).map Prod.fst =
      optLabels.map (varName "opts".toList) := by
    have hzip := congrArg (List.map (varName "opts".toList))
      (List.map_fst_zip (Nat.le_of_eq hoptions.symm))
    rw [List.map_map] at hzip
    rw [lineFields, List.map_map]
    exact hzip
  have hmonitors : (recordFields (monitors.map fun columns =>
      ("monitor".toList, columns))).map Prod.fst =
        (monitors.flatMap (·.map Prod.fst)).map (varName "monitor".toList) := by
    rw [recordFields, List.flatMap_map, List.map_flatMap, List.map_flatMap]
    refine List.flatMap_congr fun columns _ => ?_
    rw [lineFields, List.map_map, List.map_map]
    rfl
  have hcounts : (recordFields [("errors".toList, [("count".toList, decimal figures.errors)]),
      ("results".toList, [("count".toList, decimal figures.results)])]).map Prod.fst =
        [varName "errors".toList "count".toList, varName "results".toList "count".toList] := rfl
  have havg : (recordFields [("avg-rps".toList, [("avg-rps".toList, figures.avgRps)])]).map Prod.fst =
      [varName "avg-rps".toList "avg-rps".toList] := rfl
  rw [recordLines, recordFields, List.flatMap_cons, List.map_append, hopts, ← recordFields]
  simp only [laterLines, recordFields_append, List.map_append, statLines_names, hmonitors, hcounts,
    havg, recordNames, List.append_assoc]

/-! ### They are tidy -/

theorem tidy_of_clean {head : Chars} {pairs : List (Chars × Chars)} (hne : head ≠ [])
    (hhead : ∀ c ∈ head, isSpace c = false ∧ c ≠ ',')
    (hpairs : ∀ pair ∈ pairs, CleanLabel pair.1 ∧ CleanValue pair.2) : Tidy (head, pairs) := by
  refine ⟨hne, hhead, ?_, fun pair hpair => (hpairs pair hpair).2.ends⟩
  intro cell hcell
  obtain ⟨pair, hpair, rfl | rfl⟩ := (mem_cells _).mp hcell
  · exact (hpairs pair hpair).1
  · exact (hpairs pair hpair).2.inner

theorem statLines_tidy (hfixed : WritesFixed F) (sortedData : List U128) {shortName : Chars}
    (hne : shortName ≠ []) (hhead : ∀ c ∈ shortName, isSpace c = false ∧ c ≠ ',') :
    ∀ line ∈ statLines F sortedData shortName, line.1 = shortName ∧ Tidy line := by
  intro line hline
  obtain ⟨field, hfield, rfl⟩ := List.mem_map.mp hline
  refine ⟨rfl, tidy_of_clean hne hhead fun pair hpair => ?_⟩
  cases List.mem_singleton.mp hpair
  have hlabels : ∀ label ∈ statLabels, CleanLabel label := by decide
  refine ⟨hlabels _ (statFields_labels (F := F) sortedData ▸ List.mem_map_of_mem hfield), ?_⟩
  simp only [statFields, List.mem_cons, List.not_mem_nil, or_false] at hfield
  rcases hfield with rfl | rfl | rfl | rfl | rfl | rfl | rfl | rfl | rfl
  all_goals first | exact cleanValue_decimal _ | exact hfixed.clean _ _

theorem laterLines_tidy (hfixed : WritesFixed F) {figures : Figures}
    {monitors : List (List (Chars × Chars))} (havg : CleanValue figures.avgRps)
    (hmonitors : ∀ columns ∈ monitors, ∀ pair ∈ columns, CleanLabel pair.1 ∧ CleanValue pair.2) :
    ∀ line ∈ laterLines F figures monitors, line.1 ≠ "opts".toList ∧ Tidy line := by
  have hone : ∀ {head label value : Chars}, head ≠ [] → (∀ c ∈ head, isSpace c = false ∧ c ≠ ',') →
      CleanLabel label → CleanValue value → Tidy (head, [(label, value)]) := by
    intro head label value hne hhead hlabel hvalue
    refine tidy_of_clean hne hhead fun pair hpair => ?_
    cases List.mem_singleton.mp hpair
    exact ⟨hlabel, hvalue⟩
  have hstat : ∀ sortedData {shortName : Chars}, shortName ≠ [] →
      (∀ c ∈ shortName, isSpace c = false ∧ c ≠ ',') → shortName ≠ "opts".toList →
      ∀ line ∈ statLines F sortedData shortName, line.1 ≠ "opts".toList ∧ Tidy line := by
    intro sortedData shortName hne hhead hopts line hline
    obtain ⟨rfl, htidy⟩ := statLines_tidy hfixed sortedData hne hhead line hline
    exact ⟨hopts, htidy⟩
  have hheads : "errors".toList ≠ "opts".toList ∧ "results".toList ≠ "opts".toList ∧
      "monitor".toList ≠ "opts".toList ∧ "avg-rps".toList ≠ "opts".toList := by decide
  simp only [laterLines, List.forall_mem_append]
  refine ⟨⟨⟨⟨⟨⟨?_, ?_⟩, ?_⟩, ?_⟩, ?_⟩, ?_⟩, ?_⟩
  · intro line hline
    simp only [List.mem_cons, List.not_mem_nil, or_false] at hline
    rcases hline with rfl | rfl
    · exact ⟨hheads.1, hone (by decide) (by decide) (by decide) (cleanValue_decimal _)⟩
    · exact ⟨hheads.2.1, hone (by decide) (by decide) (by decide) (cleanValue_decimal _)⟩
  · intro line hline
    obtain ⟨columns, hcolumns, rfl⟩ := List.mem_map.mp hline
    exact ⟨hheads.2.2.1, tidy_of_clean (by decide) (by decide) (hmonitors columns hcolumns)⟩
  · exact hstat _ (by decide) (by decide) (by decide)
  · intro line hline
    cases List.mem_singleton.mp hline
    exact ⟨hheads.2.2.2, hone (by decide) (by decide) (by decide) havg⟩
  · exact hstat _ (by decide) (by decide) (by decide)
  · exact hstat _ (by decide) (by decide) (by decide)
  · exact hstat _ (by decide) (by decide) (by decide)

theorem recordLines_tidy (hfixed : WritesFixed F) {figures : Figures}
    {monitors : List (List (Chars × Chars))}
    (hoptions : figures.options.length = optLabels.length)
    (hvalues : ∀ value ∈ figures.options, CleanValue value) (havg : CleanValue figures.avgRps)
    (hmonitors : ∀ columns ∈ monitors, ∀ pair ∈ columns, CleanLabel pair.1 ∧ CleanValue pair.2) :
    TidyRecord (recordLines F figures monitors) := by
  have hlabels : ∀ label ∈ optLabels, CleanLabel label := by decide
  have hlater := laterLines_tidy hfixed havg hmonitors
  refine ⟨⟨_, _, rfl, ?_, fun line hline => (hlater line hline).1⟩, ?_⟩
  · intro hnil
    have hlength := congrArg List.length hnil
    rw [List.length_zip, hoptions] at hlength
    exact absurd hlength (by decide)
  · intro line hline
    rcases List.mem_cons.mp hline with rfl | hline
    · refine tidy_of_clean (by decide) (by decide) fun pair hpair => ?_
      obtain ⟨hlabel, hvalue⟩ := List.of_mem_zip hpair
      exact ⟨hlabels _ hlabel, hvalues _ hvalue⟩
    · exact (hlater line hline).2

/-! ### The table of a results file -/

/-- One run of `faasmspeed` with the states of the monitors that it asked. -/
structure Measurement (F : Type) where
  opts : Options F
  run : Measured
  monitors : List (Stats F)

def Measurement.print (m : Measurement F) : Option (List Chars) := csvRecords m.opts m.run

/-- For each printed record the monitors that it shows. -/
def recordMonitors (runs : List (Measurement F)) (texts : List (List Chars)) :
    List (List (Stats F)) :=
  (runs.zip texts).flatMap fun item => item.2.map fun _ => item.1.monitors

section Table

variable [Statmon.Table.F64 F]

/-- The run asked one monitor under each of these prefixes. -/
structure Measurement.FromHosts (prefixes : List Chars) (m : Measurement F) : Prop where
  packets : m.run.monitoringResults = m.monitors.map Stats.statPacket
  labelled : List.Forall₂ Labelled prefixes m.monitors
  options : CleanOptions m.opts

/-- A row with a value under every name, and in the one column of a monitor's label
what the monitor sent there. -/
def FullRow (names : List Chars) (monitors : List (Stats F)) (line : Chars) : Prop :=
  ∃ values : List Chars, line.splitOn ',' = values.map quoted ++ [[]] ∧
    values.length = names.length ∧
    ∀ stats ∈ monitors, ∀ column ∈ packetColumns stats, ∃ i : Nat, values[i]? = some column.2 ∧
      ∀ j, (names.map dashless)[j]? = some (dashless (varName "monitor".toList column.1)) ↔ j = i

/-- A record of these monitors. -/
structure Shows (prefixes : List Chars) (monitors : List (Stats F)) (record : List Line) : Prop where
  tidy : TidyRecord record
  names : (recordFields record).map Prod.fst = recordNames (prefixes.flatMap labels)
  columns : ∀ stats ∈ monitors, ∀ column ∈ packetColumns stats,
    (varName "monitor".toList column.1, column.2) ∈ recordFields record

variable (hdisplay : WritesFloats (Statmon.Table.F64.display : F → Chars)) (hfixed : WritesFixed F)
include hdisplay hfixed

theorem record_shows {prefixes : List Chars} (hprefixes : ∀ p ∈ prefixes, Plain p)
    {m : Measurement F} (hm : m.FromHosts prefixes) {fidx errors : Nat}
    {results : List Generator.RequestResult} {text : Chars}
    (hprinted : csvRecord m.opts m.run fidx results errors = some text) :
    ∃ record, Shows prefixes m.monitors record ∧ text = unlines (record.map lineText) := by
  have hlines := packet_lines hdisplay hprefixes hm.labelled
  rw [← hm.packets] at hlines
  obtain ⟨figures, hlength, hvalues, havg, rfl⟩ :=
    csvRecord_lines hfixed hm.options hlines hprinted
  refine ⟨_, ⟨?_, ?_, ?_⟩, rfl⟩
  · refine recordLines_tidy hfixed hlength hvalues havg ?_
    intro columns hcolumns
    obtain ⟨stats, hstats, rfl⟩ := List.mem_map.mp hcolumns
    obtain ⟨p, hp, hlabel⟩ := mem_monitors hm.labelled stats hstats
    exact packet_clean hdisplay (hprefixes p hp) hlabel
  · rw [recordLines_names _ hlength, labelled_columns hm.labelled]
  · intro stats hstats column hcolumn
    refine List.mem_flatMap.mpr ⟨("monitor".toList, packetColumns stats), ?_, ?_⟩
    · simp only [recordLines, laterLines, List.mem_cons, List.mem_append, List.mem_map]
      exact .inr (.inl (.inl (.inl (.inl (.inl (.inr ⟨_, ⟨stats, hstats, rfl⟩, rfl⟩))))))
    · exact List.mem_map.mpr ⟨column, hcolumn, rfl⟩

omit hdisplay hfixed [Statmon.Table.F64 F] [FloatOps F] in
theorem exists_of_mapM {α β : Type} {f : α → Option β} {items : List α} {results : List β}
    (hmap : items.mapM f = some results) : ∀ y ∈ results, ∃ x ∈ items, f x = some y := by
  induction items generalizing results with
  | nil =>
    cases hmap
    simp
  | cons x items ih =>
    simp only [List.mapM_cons, Option.bind_eq_bind, Option.bind_eq_some_iff, Option.pure_def,
      Option.some.injEq] at hmap
    obtain ⟨y, hy, ys, hys, rfl⟩ := hmap
    intro z hz
    rcases List.mem_cons.mp hz with rfl | hz
    · exact ⟨x, List.mem_cons_self, hy⟩
    · obtain ⟨w, hw, hwz⟩ := ih hys z hz
      exact ⟨w, List.mem_cons_of_mem x hw, hwz⟩

theorem run_shows {prefixes : List Chars} (hprefixes : ∀ p ∈ prefixes, Plain p)
    {m : Measurement F} (hm : m.FromHosts prefixes) {texts : List Chars}
    (hprinted : m.print = some texts) :
    ∃ records, List.Forall₂ (Shows prefixes) (texts.map fun _ => m.monitors) records ∧
      texts.flatten = unlines (records.flatten.map lineText) := by
  have htexts : ∀ text ∈ texts, ∃ record, Shows prefixes m.monitors record ∧
      text = unlines (record.map lineText) := by
    intro text htext
    obtain ⟨item, -, hitem⟩ := exists_of_mapM hprinted text htext
    exact record_shows hdisplay hfixed hprefixes hm hitem
  clear hprinted
  induction texts with
  | nil => exact ⟨[], .nil, rfl⟩
  | cons text texts ih =>
    obtain ⟨record, hshows, rfl⟩ := htexts text List.mem_cons_self
    obtain ⟨records, hrecords, htext⟩ := ih fun t ht => htexts t (List.mem_cons_of_mem _ ht)
    refine ⟨record :: records, .cons hshows hrecords, ?_⟩
    rw [List.flatten_cons, htext, List.flatten_cons, List.map_append, unlines_append]

theorem runs_show {prefixes : List Chars} (hprefixes : ∀ p ∈ prefixes, Plain p)
    {runs : List (Measurement F)} (hruns : ∀ m ∈ runs, m.FromHosts prefixes)
    {texts : List (List Chars)} (hprinted : runs.mapM Measurement.print = some texts) :
    ∃ records, List.Forall₂ (Shows prefixes) (recordMonitors runs texts) records ∧
      texts.flatten.flatten = unlines (records.flatten.map lineText) := by
  induction runs generalizing texts with
  | nil =>
    cases hprinted
    exact ⟨[], .nil, rfl⟩
  | cons m runs ih =>
    simp only [List.mapM_cons, Option.bind_eq_bind, Option.bind_eq_some_iff, Option.pure_def,
      Option.some.injEq] at hprinted
    obtain ⟨first, hfirst, rest, hrest, rfl⟩ := hprinted
    obtain ⟨front, hfront, hfrontText⟩ :=
      run_shows hdisplay hfixed hprefixes (hruns m List.mem_cons_self) hfirst
    obtain ⟨back, hback, hbackText⟩ := ih (fun n hn => hruns n (List.mem_cons_of_mem _ hn)) hrest
    refine ⟨front ++ back, ?_, ?_⟩
    · rw [recordMonitors, List.zip_cons_cons, List.flatMap_cons]
      exact List.rel_append hfront hback
    · rw [List.flatten_cons, List.flatten_append, hfrontText, hbackText, List.flatten_append,
        List.map_append, unlines_append]

omit hdisplay hfixed [Statmon.Table.F64 F] [FloatOps F] in
/-- No other column looks like one of a monitor. -/
theorem recordNames_nodup {monitorLabels : List Chars}
    (hlabels : (monitorLabels.map dashless).Nodup) :
    ((recordNames monitorLabels).map dashless).Nodup := by
  have hperm : (recordNames monitorLabels).Perm
      (monitorLabels.map (varName "monitor".toList) ++ recordNames []) := by
    simp only [recordNames, List.map_nil, List.append_nil, List.append_assoc]
    refine List.Perm.trans ?_ (List.perm_append_comm_assoc _ _ _)
    exact List.Perm.append_left _ (List.perm_append_comm_assoc _ _ _)
  have hothers : ((recordNames []).map dashless).Nodup ∧
      ∀ name ∈ (recordNames []).map dashless, ¬ "monitor_".toList <+: name := by
    decide +kernel
  have hmonitor : ∀ label, dashless (varName "monitor".toList label) =
      "monitor_".toList ++ dashless label := fun _ => rfl
  rw [(hperm.map dashless).nodup_iff, List.map_append, List.map_map, List.nodup_append']
  refine ⟨?_, hothers.1, ?_⟩
  · have hcomp : (dashless ∘ varName "monitor".toList) = ("monitor_".toList ++ ·) ∘ dashless :=
      funext hmonitor
    rw [hcomp, ← List.map_map]
    exact hlabels.map (List.append_right_injective _)
  · intro name hname hother
    obtain ⟨label, -, rfl⟩ := List.mem_map.mp hname
    refine hothers.2 _ hother ?_
    rw [Function.comp_apply, hmonitor]
    exact List.prefix_append _ _

omit hdisplay hfixed [FloatOps F] in
theorem Shows.fullRow {prefixes : List Chars} {monitors : List (Stats F)} {record : List Line}
    (hshows : Shows prefixes monitors record)
    (hlabels : ((prefixes.flatMap labels).map dashless).Nodup) :
    FullRow (recordNames (prefixes.flatMap labels)) monitors
      (row ((recordFields record).map Prod.snd)) := by
  refine ⟨(recordFields record).map Prod.snd, splitOn_row ?_, ?_, ?_⟩
  · intro value hvalue hmem
    obtain ⟨field, hfield, rfl⟩ := List.mem_map.mp hvalue
    exact ((mem_recordFields hshows.tidy.lines hfield).2 _ hmem).1 rfl
  · rw [← hshows.names, List.length_map, List.length_map]
  · intro stats hstats column hcolumn
    obtain ⟨i, hi⟩ := List.mem_iff_getElem?.mp (hshows.columns stats hstats column hcolumn)
    refine ⟨i, by rw [List.getElem?_map, hi]; rfl, fun j => ?_⟩
    have hname : ((recordNames (prefixes.flatMap labels)).map dashless)[i]? =
        some (dashless (varName "monitor".toList column.1)) := by
      rw [← hshows.names, List.getElem?_map, List.getElem?_map, hi]
      rfl
    constructor
    · intro hj
      have hlength := (List.getElem?_eq_some_iff.mp hj).1
      exact (List.getElem?_inj hlength (recordNames_nodup hlabels)).mp (hj.trans hname.symm)
    · rintro rfl
      exact hname

omit hdisplay hfixed [FloatOps F] in
theorem mem_shows {prefixes : List Chars} {monitors : List (List (Stats F))}
    {records : List (List Line)} (hshows : List.Forall₂ (Shows prefixes) monitors records) :
    ∀ r ∈ records, TidyRecord r ∧
      (recordFields r).map Prod.fst = recordNames (prefixes.flatMap labels) := by
  induction hshows with
  | nil => simp
  | cons hshow _ ih =>
    intro r hr
    rcases List.mem_cons.mp hr with rfl | hr
    · exact ⟨hshow.tidy, hshow.names⟩
    · exact ih r hr

/-- The packet of a monitor is one line of labelled values; a file of reports over the same
monitors becomes a table with a full row for every record, each monitored value in the
column of its label; and whatever the records are, no value gets under another name. -/
theorem columns_agree :
    (∀ (hostPrefix : Chars) (s : Stats F), Labelled hostPrefix s → Plain hostPrefix →
      ∃ body, s.statPacket = body ++ ['\n'] ∧ '\n' ∉ body ∧
        body.splitOn ',' = cells (packetColumns s) ∧
        (packetColumns s).map Prod.fst = labels hostPrefix ∧ (labels hostPrefix).Nodup) ∧
    (∀ (prefixes : List Chars) (runs : List (Measurement F)) (texts : List (List Chars)),
      (∀ p ∈ prefixes, Plain p) → ((prefixes.flatMap labels).map dashless).Nodup →
      (∀ m ∈ runs, m.FromHosts prefixes) → runs.mapM Measurement.print = some texts →
      ∃ tab names rows, tabulate texts.flatten.flatten = .done tab ∧ tab.printed = [] ∧
        tab.output.splitOn '\n' = headerLine names :: rows ∧
        (names ≠ [] → (headerLine names).splitOn ',' = names.map dashless ++ ["dummy".toList]) ∧
        List.Forall₂ (FullRow names) (recordMonitors runs texts) rows) ∧
    ∀ text first rest, (readlines text).map strip = first :: rest → heading first = "opts".toList →
      ∃ names groups, (readlines text).map strip = groups.flatten ∧
        (∀ group ∈ groups, IsRecord group) ∧
        (tabulate text).Leaves fun tab => ∃ rows past, past <+: groups ∧
          tab.output.splitOn '\n' = headerLine names :: rows ∧
          List.Forall₂ (RowFits names) past rows ∧ (tabulate text = .done tab → past = groups) := by
  refine ⟨?_, ?_, fun text first rest hlines hfirst => tabulate_columns hlines hfirst⟩
  · intro hostPrefix s hs hpre
    obtain ⟨body, hpacket, hnewline, hcells, -⟩ := hs.packet hdisplay hpre
    exact ⟨body, hpacket, hnewline, hcells, hs.columns, labels_nodup hostPrefix⟩
  · intro prefixes runs texts hprefixes hlabels hruns hprinted
    obtain ⟨records, hshows, htext⟩ := runs_show hdisplay hfixed hprefixes hruns hprinted
    have hrecords := mem_shows hshows
    -- without any record there is no name either
    let names := if records = [] then [] else recordNames (prefixes.flatMap labels)
    have hnames : ∀ r ∈ records, (recordFields r).map Prod.fst = names := by
      intro r hr
      rw [(hrecords r hr).2]
      exact (if_neg (List.ne_nil_of_mem hr)).symm
    obtain ⟨tab, htab, htabPrinted, hlines⟩ :=
      tabulate_records (fun r hr => (hrecords r hr).1) hnames fun hnil => if_pos hnil
    refine ⟨tab, names, _, htext ▸ htab, htabPrinted, hlines, fun hne => ?_, ?_⟩
    · refine splitOn_headerLine hne fun name hname hmem => ?_
      obtain ⟨r, hr⟩ := List.exists_mem_of_ne_nil records fun hnil => hne (if_pos hnil)
      rw [← hnames r hr] at hname
      obtain ⟨field, hfield, rfl⟩ := List.mem_map.mp hname
      exact ((mem_recordFields (hrecords r hr).1.lines hfield).1 _ hmem).1 rfl
    · rw [List.forall₂_map_right_iff]
      cases records with
      | nil => rwa [List.forall₂_nil_right_iff] at hshows ⊢
      | cons r records => exact hshows.imp fun monitors r hshow => hshow.fullRow hlabels

end Table

/-! ### One host -/

/-- Whole numbers in place of `f64`, as in the runs of the monitor. -/
instance : FloatOps Int where
  ofInt := id
  div := (· / ·)
  sqrt := fun v => (Nat.sqrt v.toNat : Int)
  fixed := fun k v => decimalInt v ++ '.' :: List.replicate k '0'

theorem writesFixed_int : WritesFixed Int := by
  intro item c hc
  rcases List.mem_append.mp hc with hc | hc
  · exact isFloatChar_decimalInt hc
  · rcases List.mem_cons.mp hc with rfl | hc
    · decide
    · rw [List.eq_of_mem_replicate hc]
      decide

theorem labels_dashless (hostPrefix : Chars) :
    (labels hostPrefix).map dashless = labels (dashless hostPrefix) := by
  have hnames : ∀ which ∈ Statmon.Table.WhichStat.all, dashless (statName which) = statName which := by
    decide +kernel
  have hkinds : ∀ kind ∈ kinds, dashless kind = kind := by decide
  rw [labels, labels, List.map_map]
  refine List.map_congr_left fun item hitem => ?_
  obtain ⟨hwhich, hkind⟩ := List.pair_mem_product.mp hitem
  calc dashless (hostPrefix ++ statName item.1 ++ item.2)
      = dashless hostPrefix ++ dashless (statName item.1) ++ dashless item.2 := by
        simp only [dashless, List.map_append]
    _ = dashless hostPrefix ++ statName item.1 ++ item.2 := by rw [hnames _ hwhich, hkinds _ hkind]

def localStats : Stats Int :=
  { Stats.new Statmon.Ranges.quietEvents with
    hostPrefix := "local_".toList
    netIface := "lo".toList }

def localRun : Measurement Int where
  opts := ⟨"worker".toList, "demo".toList, ["grep".toList], [0], 1, [2], 3, ["-".toList]⟩
  run := ⟨0, 1, [localStats.statPacket], [[⟨5, 7, 11, 13⟩]], [0]⟩
  monitors := [localStats]

theorem localRun_fromHosts : localRun.FromHosts ["local_".toList] := by
  refine ⟨rfl, .cons (labelled_new ⟨"local_".toList, "lo".toList⟩ _) .nil, ?_⟩
  have hclean : ∀ value ∈ ["worker".toList, "demo".toList, "grep".toList, "-".toList],
      (∀ c ∈ value, c ≠ ',' ∧ c ≠ '\n' ∧ c ≠ '\r') ∧
        ∀ c, value.getLast? = some c → isSpace c = false := by
    simp [isSpace, Library.Text.isWhitespace]
  have hvalue : ∀ value ∈ ["worker".toList, "demo".toList, "grep".toList, "-".toList],
      CleanValue value := fun value hvalue => ⟨(hclean value hvalue).1, (hclean value hvalue).2⟩
  refine ⟨hvalue _ (by simp [localRun]), hvalue _ (by simp [localRun]), ?_, ?_⟩
  · intro function hfunction
    exact hvalue function (by simp_all [localRun])
  · intro data hdata
    exact hvalue data (by simp_all [localRun])

theorem localRun_prints : ∃ text, [localRun].mapM Measurement.print = some [[text]] := ⟨_, rfl⟩

/-- The report of a run with one monitor. -/
theorem columns_agree_local :
    ∃ text tab names line, [localRun].mapM Measurement.print = some [[text]] ∧
      tabulate text = .done tab ∧ tab.output.splitOn '\n' = [headerLine names, line] ∧
      FullRow names [localStats] line := by
  have hdisplay : WritesFloats (Statmon.Table.F64.display : Int → Chars) :=
    fun _ _ hc => isFloatChar_decimalInt hc
  have hlabels : ((["local_".toList].flatMap labels).map dashless).Nodup := by
    rw [List.flatMap_singleton, labels_dashless]
    exact labels_nodup _
  have hprefixes : ∀ p ∈ ["local_".toList], Plain p := by decide
  have hruns : ∀ m ∈ [localRun], m.FromHosts ["local_".toList] := by
    simpa using localRun_fromHosts
  obtain ⟨text, hprinted⟩ := localRun_prints
  obtain ⟨tab, names, rows, htab, -, hlines, -, hrows⟩ :=
    (columns_agree hdisplay writesFixed_int).2.1 _ _ _ hprefixes hlabels hruns hprinted
  obtain ⟨line, rest, hline, hrest, rfl⟩ := List.forall₂_cons_left_iff.mp hrows
  rw [List.forall₂_nil_left_iff.mp hrest] at hlines
  exact ⟨text, tab, names, line, hprinted, by simpa using htab, hlines, hline⟩

end NdpOffload.Faasmspeed.Columns
