import NdpOffload.Faasmspeed.Tabulator
import NdpOffload.Library.Matching

/-! When `tabulator.py` gets through its input: the names of the table are matched in
order against the pairs of each record. -/
namespace NdpOffload.Faasmspeed.Skipping

open Library.Matching Library.Outcomes Library.Records Library.Text Tabulator

/-! ### The input -/

/-- The names of the first record that has any, read until a line that begins with
`opts`. -/
def tableNames (lines : List Chars) : List Chars :=
  match lines.dropWhile fun line => readNames line = [] with
  | [] => []
  | line :: rest => (line :: rest.takeWhile fun other =>
      (other.splitOn ',').getD 0 [] ≠ "opts".toList).flatMap readNames

theorem detectFields_of_ne {fields : List Chars} (hne : fields ≠ []) (lines : List Chars) :
    detectFields lines fields = fields ++ (lines.takeWhile fun line =>
      (line.splitOn ',').getD 0 [] ≠ "opts".toList).flatMap readNames := by
  induction lines generalizing fields with
  | nil => simp [detectFields]
  | cons line rest ih =>
    rw [detectFields_cons]
    have hlength : fields.length ≠ 0 := by simpa using hne
    split
    · rename_i hstop
      rw [List.takeWhile_cons_of_neg (by simpa using hstop.2), List.flatMap_nil, List.append_nil]
    · rename_i hgo
      have hline : (line.splitOn ',').getD 0 [] ≠ "opts".toList := fun heq => hgo ⟨hlength, heq⟩
      rw [ih (by simp [hne]), List.takeWhile_cons_of_pos (by simpa using hline), List.flatMap_cons,
        List.append_assoc]

theorem detectFields_eq (lines : List Chars) : detectFields lines [] = tableNames lines := by
  induction lines with
  | nil => rfl
  | cons line rest ih =>
    rw [detectFields_cons, if_neg (by simp), List.nil_append, tableNames]
    by_cases hnone : readNames line = []
    · rw [hnone, ih, List.dropWhile_cons_of_pos (by simpa using hnone), tableNames]
    · rw [List.dropWhile_cons_of_neg (by simpa using hnone), detectFields_of_ne hnone]
      rfl

/-! ### One record -/

/-- The pairs of a record. -/
def pairs (record : List Chars) : List (Chars × Chars) := record.flatMap namedFields

def warning (fieldHead : Chars) (field : Chars × Chars) : Chars :=
  "Warning: skipping unknown field ".toList ++ field.1 ++ '=' :: field.2 ++
    " at datapoint ".toList ++ fieldHead

/-- `writeField` for a pair with its full name. -/
def writePair (names : List Chars) (field : Chars × Chars) (tab : Tab) : Outcome PyError Tab :=
  match names[tab.fieldNo]? with
  | none => .failed .indexError tab
  | some next =>
    if next ≠ field.1 then .done { tab with printed := tab.printed ++ [warning tab.fieldHead field] }
    else .done { tab with
      output := tab.output ++ (quoted field.2 ++ [',']), fieldNo := tab.fieldNo + 1 }

theorem each_writeField (names : List Chars) (line : Chars) (tab : Tab) :
    Outcome.each (writeField names (heading line)) (readFields (line.splitOn ',')) tab =
      Outcome.each (writePair names) (namedFields line) tab := by
  rw [namedFields, each_map]
  rfl

/-- The table after pairs of which the taken ones are written and the others reported. -/
def sifted (expected : List Chars) (fields : List (Chars × Chars)) (tab : Tab) : Tab :=
  { tab with
    output := tab.output ++ row ((taken Prod.fst expected fields).map Prod.snd)
    fieldNo := tab.fieldNo + (taken Prod.fst expected fields).length
    printed := tab.printed ++ (left Prod.fst expected fields).map (warning tab.fieldHead) }

/-- The pairs of a record are written or skipped, unless one comes when the row is full. -/
theorem each_writePair (names : List Chars) (fields : List (Chars × Chars)) (tab : Tab) :
    (¬ Overruns Prod.fst (names.drop tab.fieldNo) fields →
      Outcome.each (writePair names) fields tab = .done (sifted (names.drop tab.fieldNo) fields tab)) ∧
    (Overruns Prod.fst (names.drop tab.fieldNo) fields →
      ∃ t, Outcome.each (writePair names) fields tab = .failed .indexError t) := by
  induction fields generalizing tab with
  | nil => simp [Overruns, sifted, taken, left, row]
  | cons field fields ih =>
    rw [each_cons]
    cases hnext : names[tab.fieldNo]? with
    | none =>
      have hfull : names.drop tab.fieldNo = [] := by
        rw [List.drop_eq_nil_iff]
        exact List.getElem?_eq_none_iff.mp hnext
      rw [hfull]
      refine ⟨fun hfits => absurd trivial hfits, fun _ => ⟨tab, ?_⟩⟩
      rw [writePair, hnext]
      rfl
    | some next =>
      obtain ⟨hlt, hget⟩ := List.getElem?_eq_some_iff.mp hnext
      have hdrop : names.drop tab.fieldNo = next :: names.drop (tab.fieldNo + 1) := by
        rw [List.drop_eq_getElem_cons hlt, hget]
      rw [hdrop, Overruns]
      by_cases hname : next = field.1
      · have hwrite : writePair names field tab = .done { tab with
            output := tab.output ++ (quoted field.2 ++ [',']), fieldNo := tab.fieldNo + 1 } := by
          rw [writePair, hnext]
          exact if_neg (not_not.mpr hname)
        obtain ⟨hdone, hfailed⟩ := ih { tab with
            output := tab.output ++ (quoted field.2 ++ [',']), fieldNo := tab.fieldNo + 1 }
        rw [if_pos hname, hwrite, andThen_done]
        refine ⟨fun hfits => ?_, hfailed⟩
        rw [hdone hfits]
        simp [sifted, taken, left, hname, row, Nat.add_assoc, Nat.add_comm 1]
      · have hskip : writePair names field tab =
            .done { tab with printed := tab.printed ++ [warning tab.fieldHead field] } := by
          rw [writePair, hnext]
          exact if_pos hname
        obtain ⟨hdone, hfailed⟩ := ih { tab with printed := tab.printed ++ [warning tab.fieldHead field] }
        rw [if_neg hname, hskip, andThen_done]
        rw [hdrop] at hdone hfailed
        refine ⟨fun hfits => ?_, hfailed⟩
        rw [hdone hfits]
        simp [sifted, taken, left, hname]

/-- Lines without a new record only bring more pairs. -/
theorem each_others {names lines : List Chars}
    (hlines : ∀ line ∈ lines, heading line ≠ "opts".toList) (tab : Tab) :
    Outcome.each (writeLine names) lines tab = Outcome.each (writePair names) (pairs lines) tab := by
  induction lines generalizing tab with
  | nil => rfl
  | cons line rest ih =>
    have hrest := ih fun other hother => hlines other (List.mem_cons_of_mem line hother)
    rw [each_cons, writeLine_other (hlines line List.mem_cons_self), each_writeField, pairs,
      List.flatMap_cons, each_append]
    exact congrArg _ (funext hrest)

/-- The table at the beginning of a record. -/
def opened (record : List Chars) (tab : Tab) : Tab :=
  { tab with fieldNo := 0, fieldHead := record.headD [], output := tab.output ++ ['\n'] }

theorem each_record {names record : List Chars} (hrecord : IsRecord record) (tab : Tab) :
    Outcome.each (writeLine names) record tab =
      Outcome.each (writePair names) (pairs record) (opened record tab) := by
  obtain ⟨line, rest, rfl, hopts, hrest⟩ := hrecord
  rw [each_cons, writeLine_opts hopts, each_writeField, pairs, List.flatMap_cons, each_append]
  exact congrArg _ (funext (each_others hrest))

/-! ### All records -/

/-- A record that has another pair when the row is full. -/
def Overfull (names record : List Chars) : Prop := Overruns Prod.fst names (pairs record)

theorem overfull_iff {names record : List Chars} :
    Overfull names record ↔
      pairs record ≠ [] ∧ names.Sublist ((pairs record).map Prod.fst).dropLast :=
  overruns_iff Prod.fst

/-- The row of a record and the warnings for the pairs that are not in it. -/
def rowOf (names record : List Chars) : Chars :=
  '\n' :: row ((taken Prod.fst names (pairs record)).map Prod.snd)

def warningsOf (names record : List Chars) : List Chars :=
  (left Prod.fst names (pairs record)).map (warning (record.headD []))

theorem each_records (names : List Chars) {groups : List (List Chars)}
    (hgroups : ∀ record ∈ groups, IsRecord record) (tab : Tab) :
    ((∀ record ∈ groups, ¬ Overfull names record) →
      ∃ t, Outcome.each (writeLine names) groups.flatten tab = .done t ∧
        t.output = tab.output ++ groups.flatMap (rowOf names) ∧
        t.printed = tab.printed ++ groups.flatMap (warningsOf names)) ∧
    ((∃ record ∈ groups, Overfull names record) →
      ∃ t, Outcome.each (writeLine names) groups.flatten tab = .failed .indexError t) := by
  rw [each_flatten]
  induction groups generalizing tab with
  | nil => exact ⟨fun _ => ⟨tab, rfl, by simp, by simp⟩, by simp⟩
  | cons record groups ih =>
    have hrest := ih fun other hother => hgroups other (List.mem_cons_of_mem record hother)
    obtain ⟨hdone, hfailed⟩ := each_writePair names (pairs record) (opened record tab)
    rw [show (opened record tab).fieldNo = 0 from rfl, List.drop_zero] at hdone hfailed
    rw [each_cons, each_record (hgroups record List.mem_cons_self)]
    by_cases hover : Overfull names record
    · obtain ⟨t, ht⟩ := hfailed hover
      rw [ht]
      exact ⟨fun hfits => absurd hover (hfits record List.mem_cons_self), fun _ => ⟨t, rfl⟩⟩
    · rw [hdone hover, andThen_done]
      obtain ⟨hrestDone, hrestFailed⟩ := hrest (sifted names (pairs record) (opened record tab))
      constructor
      · intro hfits
        obtain ⟨t, ht, houtput, hprinted⟩ :=
          hrestDone fun other hother => hfits other (List.mem_cons_of_mem record hother)
        refine ⟨t, ht, ?_, ?_⟩
        · rw [houtput]
          simp [sifted, opened, rowOf]
        · rw [hprinted]
          simp [sifted, opened, warningsOf]
      · rintro ⟨other, hother, hoverfull⟩
        rcases List.mem_cons.mp hother with rfl | hlater
        · exact absurd hoverfull hover
        · exact hrestFailed ⟨other, hlater, hoverfull⟩

theorem heading_nil : heading [] = [] := by decide

/-- Empty lines before the first record are passed over. -/
theorem each_blank {names front : List Chars} (hfront : ∀ line ∈ front, line = []) (tab : Tab) :
    Outcome.each (writeLine names) front tab = .done tab := by
  have hothers : ∀ line ∈ front, heading line ≠ "opts".toList := by
    intro line hline
    rw [hfront line hline, heading_nil]
    decide
  have hpairs : pairs front = [] := by
    rw [pairs, List.flatMap_eq_nil_iff]
    intro line hline
    rw [hfront line hline]
    decide
  rw [each_others hothers, hpairs, each_nil]

/-- The lines up to the first record are the empty ones before it. -/
theorem blank_front {lines : List Chars} {first : Chars} (hfirst : lines.find? (· ≠ []) = some first)
    (hopts : heading first = "opts".toList) :
    ∀ line ∈ lines.takeWhile (fun line => heading line ≠ "opts".toList), line = [] := by
  obtain ⟨-, front, rest, rfl, hblank⟩ := List.find?_eq_some_iff_append.mp hfirst
  have hfront : ∀ line ∈ front, line = [] := fun line hline => by simpa using hblank line hline
  rw [List.takeWhile_append_of_pos, List.takeWhile_cons_of_neg (by simpa using hopts), List.append_nil]
  · exact hfront
  · intro line hline
    rw [hfront line hline, heading_nil]
    decide

/-- A file that begins with an `opts` record is tabulated, with a row for each record and
a warning for each pair that is not in it, exactly when no record has another pair after
all names of the table were found in order. -/
theorem tabulated_iff {text first : Chars}
    (hfirst : ((readlines text).map strip).find? (· ≠ []) = some first)
    (hopts : heading first = "opts".toList) :
    let lines := (readlines text).map strip
    let names := tableNames lines
    (∃ tab, tabulate text = .done tab ∧
      tab.output = headerLine names ++ (records lines).flatMap (rowOf names) ∧
      tab.printed = (records lines).flatMap (warningsOf names)) ↔
    ∀ record ∈ records lines,
      pairs record = [] ∨ ¬ names.Sublist ((pairs record).map Prod.fst).dropLast := by
  intro lines names
  have hfront := blank_front hfirst hopts
  obtain ⟨hlines, hrecords⟩ := records_spec lines
  have htabulate : tabulate text = Outcome.each (writeLine names) (records lines).flatten
      { output := headerLine names } := by
    calc tabulate text
        = Outcome.each (writeLine names) lines { output := headerLine names } := by
          rw [show names = detectFields lines [] from (detectFields_eq lines).symm]
          rfl
      _ = Outcome.each (writeLine names) ((lines.takeWhile fun line => heading line ≠ "opts".toList) ++
            (records lines).flatten) { output := headerLine names } := by
          rw [← hlines]
      _ = _ := by
          rw [each_append, each_blank hfront, andThen_done]
  obtain ⟨hdone, hfailed⟩ := each_records names hrecords { output := headerLine names }
  rw [← htabulate] at hdone hfailed
  constructor
  · rintro ⟨tab, htab, -, -⟩ record hrecord
    by_contra hover
    rw [not_or, not_not] at hover
    obtain ⟨t, ht⟩ := hfailed ⟨record, hrecord, overfull_iff.mpr hover⟩
    rw [htab] at ht
    cases ht
  · intro hfits
    refine hdone fun record hrecord hover => ?_
    obtain ⟨hsome, hsublist⟩ := overfull_iff.mp hover
    rcases hfits record hrecord with hnone | hnot
    · exact hsome hnone
    · exact hnot hsublist

/-- A record without a field of the first one, and with an unknown field in its place. -/
def vanishing : Chars := "\nopts,host,h,user,u\nerrors,count,0\nopts,host,h,rps,9,user,v\n\n".toList

theorem tabulated_vanishing :
    ∃ tab, tabulate vanishing = .done tab ∧
      tab.printed = ["Warning: skipping unknown field opts_rps=9 at datapoint opts,host,h,rps,9,user,v".toList] := by
  have hfirst : ((readlines vanishing).map strip).find? (· ≠ []) = some "opts,host,h,user,u".toList := by
    decide +kernel
  obtain ⟨tab, htab, -, hprinted⟩ := (tabulated_iff hfirst (by decide +kernel)).mpr (by decide +kernel)
  refine ⟨tab, htab, hprinted.trans ?_⟩
  decide +kernel

/-- The second run reports a field more than the first. -/
def appearing : Chars := "opts,host,h\nopts,host,h,user,u\n".toList

/-- When it comes, all fields of the row have been written. -/
theorem appearing_fails :
    (∃ t, tabulate appearing = .failed .indexError t) ∧ ¬ ∃ tab, tabulate appearing = .done tab := by
  have hfails : ∃ t, tabulate appearing = .failed .indexError t := ⟨_, rfl⟩
  refine ⟨hfails, ?_⟩
  rintro ⟨tab, htab⟩
  obtain ⟨t, ht⟩ := hfails
  rw [htab] at ht
  cases ht

end NdpOffload.Faasmspeed.Skipping
