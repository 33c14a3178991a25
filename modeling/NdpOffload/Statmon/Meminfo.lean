import NdpOffload.Statmon.Assignments

/-! `/proc/meminfo`: lines of a name, a number and perhaps a unit, written with any
blanks between them, are read back. -/
namespace NdpOffload.Statmon.Meminfo

open Library.Outcomes Library.Text Library.Writes Table Sources Monitor Refresh Assignments

/-! ### Lines -/

inductive MemUnit where
  | none | b | kB | mB | gB

def MemUnit.text : MemUnit → Chars
  | .none => []
  | .b => "B".toList
  | .kB => "kB".toList
  | .mB => "MB".toList
  | .gB => "GB".toList

def MemUnit.scale : MemUnit → Int
  | .none => 1
  | .b => 1
  | .kB => 1024
  | .mB => 1024 ^ 2
  | .gB => 1024 ^ 3

/-- Blanks within a line. -/
def Gap (gap : Chars) : Prop := ∀ c ∈ gap, isWhitespace c = true ∧ c ≠ '\n'

/-- A line that names a number of bytes which fits an `i64`. -/
structure MemLine where
  lead : Chars
  name : Chars
  preColon : Chars
  postColon : Chars
  value : Int
  number : Chars
  preUnit : Chars
  unit : MemUnit
  trail : Chars
  gaps : ∀ gap ∈ [lead, preColon, postColon, preUnit, trail], Gap gap
  name_inner : ∀ c ∈ name, c ≠ ':' ∧ c ≠ '\n'
  numeral : Numeral value number
  fits : -2 ^ 63 ≤ value * unit.scale ∧ value * unit.scale < 2 ^ 63

def MemLine.key (m : MemLine) : Chars := trim isWhitespace m.name

def MemLine.bytes (m : MemLine) : Int := m.value * m.unit.scale

def MemLine.label (m : MemLine) : Chars := m.lead ++ m.name ++ m.preColon

def MemLine.amount (m : MemLine) : Chars :=
  m.postColon ++ m.number ++ m.preUnit ++ m.unit.text ++ m.trail

def MemLine.text (m : MemLine) : Chars := m.label ++ ':' :: m.amount

section Line

variable (m : MemLine)

theorem MemLine.gap {gap : Chars}
    (hgap : gap ∈ [m.lead, m.preColon, m.postColon, m.preUnit, m.trail]) :
    ∀ c ∈ gap, isWhitespace c = true :=
  fun c hc => (m.gaps gap hgap c hc).1

theorem MemLine.trim_label : trim isWhitespace m.label = m.key := by
  rw [label, trim_append_blanks _ (m.gap (by simp)), trim_blanks_append (m.gap (by simp)), key]

theorem MemLine.colon_notMem : ':' ∉ m.label := by
  have hgap : ∀ gap ∈ [m.lead, m.preColon, m.postColon, m.preUnit, m.trail], ':' ∉ gap :=
    fun gap hgap hmem => absurd (m.gap hgap _ hmem) (by decide)
  simp only [label, List.mem_append, not_or]
  exact ⟨⟨hgap _ (by simp), fun hmem => (m.name_inner _ hmem).1 rfl⟩, hgap _ (by simp)⟩

theorem isWhitespace_of_numeral {z : Int} {text : Chars} (htext : Numeral z text) :
    ∀ c ∈ text, isWhitespace c = false := by
  intro c hc
  rw [Bool.eq_false_iff]
  intro hblank
  rcases htext.chars.1 c hc with hdigit | rfl | rfl
  · rw [isDigit_of_isWhitespace hblank] at hdigit
    cases hdigit
  · cases hblank
  · cases hblank

theorem MemLine.number_last : ∃ front c, m.number = front ++ [c] ∧ c.isDigit = true := by
  obtain ⟨front, c, hnumber⟩ := (List.eq_nil_or_concat' m.number).resolve_left m.numeral.ne_nil
  exact ⟨front, c, hnumber, m.numeral.chars.2 c (by rw [hnumber, List.getLast?_concat])⟩

/-- The number with the blanks after it ends in no letter. -/
theorem MemLine.body_last : ∃ front c, m.number ++ m.preUnit = front ++ [c] ∧
    c ∉ ['k', 'M', 'G', 'B'] := by
  rcases List.eq_nil_or_concat' m.preUnit with hnil | ⟨front, c, hgap⟩
  · obtain ⟨front, c, hnumber, hdigit⟩ := m.number_last
    refine ⟨front, c, by rw [hnil, List.append_nil, hnumber], fun hmem => ?_⟩
    have hletters : ∀ d ∈ ['k', 'M', 'G', 'B'], d.isDigit = false := by decide
    rw [hletters c hmem] at hdigit
    cases hdigit
  · refine ⟨m.number ++ front, c, by rw [hgap, List.append_assoc], fun hmem => ?_⟩
    have hletters : ∀ d ∈ ['k', 'M', 'G', 'B'], isWhitespace d = false := by decide
    have hblanks : ∀ d ∈ m.preUnit, isWhitespace d = true := m.gap (by simp)
    have hblank := hblanks c (by rw [hgap]; simp)
    rw [hletters c hmem] at hblank
    cases hblank

theorem MemLine.trim_core :
    trim isWhitespace m.amount = trim isWhitespace (m.number ++ m.preUnit ++ m.unit.text) := by
  have hamount : m.amount = m.postColon ++ (m.number ++ m.preUnit ++ m.unit.text) ++ m.trail := by
    simp [amount]
  rw [hamount, trim_append_blanks _ (m.gap (by simp)), trim_blanks_append (m.gap (by simp))]

theorem MemLine.trim_amount_none (hunit : m.unit = .none) :
    trim isWhitespace m.amount = m.number := by
  have htext : m.unit.text = [] := by rw [hunit, MemUnit.text]
  rw [m.trim_core, htext, List.append_nil, trim_append_blanks _ (m.gap (by simp))]
  exact trim_of_notBlank (isWhitespace_of_numeral m.numeral)

/-- With a unit at its end, and the number at its start, nothing more comes off. -/
theorem MemLine.trim_amount (letters : Chars) (hunit : m.unit.text = letters ++ ['B']) :
    trim isWhitespace m.amount = m.number ++ m.preUnit ++ (letters ++ ['B']) := by
  rw [m.trim_core, hunit]
  apply trim_of_ends
  · intro c hc
    obtain ⟨d, rest, hnumber⟩ := List.exists_cons_of_ne_nil m.numeral.ne_nil
    have hd := isWhitespace_of_numeral m.numeral d (by rw [hnumber]; exact List.mem_cons_self)
    simp only [hnumber, List.cons_append, List.head?_cons, Option.some.injEq] at hc
    rwa [← hc]
  · intro c hc
    rw [← List.append_assoc, List.getLast?_concat, Option.some.injEq] at hc
    rw [← hc]
    decide

theorem MemLine.trimEnd_body : trimEnd isWhitespace (m.number ++ m.preUnit) = m.number := by
  rw [trimEnd_append_blanks _ (m.gap (by simp))]
  exact trimEnd_of_last fun c hc =>
    isWhitespace_of_numeral m.numeral c (List.mem_of_getLast? hc)

end Line

/-! ### Units -/

section Units

variable {front suffix text : Chars} {c letter : Char} {scale multiplier : Int64}

theorem stripUnit_append (body suffix : Chars) (scale multiplier : Int64) :
    stripUnit suffix scale (body ++ suffix, multiplier) =
      (trimEnd isWhitespace body, multiplier * scale) := by
  simp only [stripUnit, stripSuffix_append]

theorem stripUnit_last (hlast : text.getLast? = some c) (hc : c ≠ 'B')
    (hsuffix : suffix.getLast? = some 'B') :
    stripUnit suffix scale (text, multiplier) = (text, multiplier) := by
  obtain ⟨front, rfl⟩ := List.getLast?_eq_some_iff.mp hsuffix
  simp only [stripUnit, stripSuffix_of_last hlast hc]

/-- Before the `B` stands another letter. -/
theorem stripUnit_other (hc : c ≠ letter) :
    stripUnit [letter, 'B'] scale (front ++ [c, 'B'], multiplier) =
      (front ++ [c, 'B'], multiplier) := by
  have hnone : stripSuffix [letter, 'B'] (front ++ [c, 'B']) = none := by
    rw [stripSuffix, if_neg]
    intro htail
    obtain ⟨rest, hrest⟩ := List.isSuffixOf_iff_suffix.mp htail
    exact hc (List.cons.inj (List.append_inj_right' hrest rfl)).1.symm
  simp only [stripUnit, hnone]

end Units

/-- What is left of the value when the units are off, with their product. -/
def withoutUnits (vval : Chars) : Chars × Int64 :=
  stripUnit "B".toList 1 (stripUnit "GB".toList (1024 * 1024 * 1024)
    (stripUnit "MB".toList (1024 * 1024) (stripUnit "kB".toList 1024 (vval, 1))))

theorem parseMeminfoLine_eq {left right : Chars} (hleft : ':' ∉ left) :
    parseMeminfoLine (left ++ ':' :: right) =
      match parseI64 (withoutUnits (trim isWhitespace right)).1 with
      | none => .error (.message "Parsing meminfo value".toList)
      | some vnum => .ok (trim isWhitespace left,
          vnum * (withoutUnits (trim isWhitespace right)).2) := by
  rw [parseMeminfoLine, splitOnce_append_cons hleft]
  rfl

/-- Exactly one unit comes off, and with it the blanks before it. -/
theorem MemLine.withoutUnits_amount (m : MemLine) :
    withoutUnits (trim isWhitespace m.amount) = (m.number, Int64.ofInt m.unit.scale) := by
  obtain ⟨front, c, hbody, hc⟩ := m.body_last
  obtain ⟨digits, d, hnumber, hdigit⟩ := m.number_last
  have hd : d ≠ 'B' := by
    rintro rfl
    cases hdigit
  simp only [List.mem_cons, List.not_mem_nil, or_false, not_or] at hc
  -- the number itself ends in a digit, and no unit comes off it
  have hkeep : ∀ {suffix : Chars} (scale multiplier : Int64), suffix.getLast? = some 'B' →
      stripUnit suffix scale (m.number, multiplier) = (m.number, multiplier) :=
    fun scale multiplier => stripUnit_last (by rw [hnumber, List.getLast?_concat]) hd
  have hstrip : ∀ {text suffix : Chars} (scale multiplier : Int64),
      text = m.number ++ m.preUnit ++ suffix →
      stripUnit suffix scale (text, multiplier) = (m.number, multiplier * scale) := by
    intro text suffix scale multiplier htext
    rw [htext, stripUnit_append, m.trimEnd_body]
  have htext : ∀ letter, m.unit.text = [letter, 'B'] →
      trim isWhitespace m.amount = m.number ++ m.preUnit ++ [letter, 'B'] :=
    fun letter hunit => m.trim_amount [letter] hunit
  have hliterals : "kB".toList = ['k', 'B'] ∧ "MB".toList = ['M', 'B'] ∧
      "GB".toList = ['G', 'B'] ∧ "B".toList = ['B'] := ⟨rfl, rfl, rfl, rfl⟩
  rw [withoutUnits, hliterals.1, hliterals.2.1, hliterals.2.2.1, hliterals.2.2.2]
  cases hunit : m.unit with
  | none =>
    rw [m.trim_amount_none hunit, hkeep _ _ rfl, hkeep _ _ rfl, hkeep _ _ rfl, hkeep _ _ rfl]
    rfl
  | b =>
    have hone : trim isWhitespace m.amount = front ++ [c, 'B'] := by
      rw [m.trim_amount [] (by rw [hunit]; rfl), hbody]
      simp
    rw [hone, stripUnit_other hc.1, stripUnit_other hc.2.1, stripUnit_other hc.2.2.1,
      hstrip _ _ (by rw [hbody]; simp)]
    rfl
  | kB =>
    rw [htext 'k' (by rw [hunit]; rfl), hstrip _ _ rfl, hkeep _ _ rfl, hkeep _ _ rfl, hkeep _ _ rfl]
    rfl
  | mB =>
    rw [htext 'M' (by rw [hunit]; rfl), stripUnit_other (by decide), hstrip _ _ rfl,
      hkeep _ _ rfl, hkeep _ _ rfl]
    rfl
  | gB =>
    rw [htext 'G' (by rw [hunit]; rfl), stripUnit_other (by decide),
      stripUnit_other (by decide), hstrip _ _ rfl, hkeep _ _ rfl]
    rfl

theorem MemLine.parse_of_trimmed (m : MemLine) {left right : Chars} (hleft : ':' ∉ left)
    (hname : trim isWhitespace left = trim isWhitespace m.label)
    (hamount : trim isWhitespace right = trim isWhitespace m.amount) :
    ∃ v : Int64, parseMeminfoLine (left ++ ':' :: right) = .ok (m.key, v) ∧ v.toInt = m.bytes := by
  have hfits := m.fits
  have hvalue : -2 ^ 63 ≤ m.value ∧ m.value < 2 ^ 63 := by
    cases hunit : m.unit <;> rw [hunit, MemUnit.scale] at hfits <;> omega
  refine ⟨Int64.ofInt m.bytes, ?_, Int64.toInt_ofInt_of_le hfits.1 hfits.2⟩
  rw [parseMeminfoLine_eq hleft, hamount, m.withoutUnits_amount,
    m.numeral.parse hvalue.1 hvalue.2, hname, m.trim_label, bytes, Int64.ofInt_mul]

theorem MemLine.parse (m : MemLine) :
    ∃ v : Int64, parseMeminfoLine m.text = .ok (m.key, v) ∧ v.toInt = m.bytes :=
  m.parse_of_trimmed m.colon_notMem rfl rfl

/-- The blanks around the whole line make no difference. -/
theorem MemLine.parse_trim (m : MemLine) :
    ∃ v : Int64, parseMeminfoLine (trim isWhitespace m.text) = .ok (m.key, v) ∧
      v.toInt = m.bytes := by
  have hcolon : ':' ∉ m.label.dropWhile isWhitespace :=
    fun hmem => m.colon_notMem ((List.dropWhile_sublist _).subset hmem)
  rw [text, trim_append_cons (by decide)]
  exact m.parse_of_trimmed hcolon (trim_dropWhile _) (trim_trimEnd _)

theorem MemLine.newline_notMem (m : MemLine) : '\n' ∉ m.text := by
  have hgap : ∀ gap ∈ [m.lead, m.preColon, m.postColon, m.preUnit, m.trail], '\n' ∉ gap :=
    fun gap hgap hmem => (m.gaps gap hgap _ hmem).2 rfl
  have hnumber : '\n' ∉ m.number := fun hmem =>
    absurd (isWhitespace_of_numeral m.numeral _ hmem) (by decide)
  have hunit : '\n' ∉ m.unit.text := by
    cases m.unit <;> decide
  simp only [text, label, amount, List.mem_append, List.mem_cons, not_or]
  exact ⟨⟨⟨hgap _ (by simp), fun hmem => (m.name_inner _ hmem).2 rfl⟩, hgap _ (by simp)⟩,
    by decide, ⟨⟨⟨hgap _ (by simp), hnumber⟩, hgap _ (by simp)⟩, hunit⟩, hgap _ (by simp)⟩

/-! ### The whole file -/

inductive FileLine where
  | blank (gap : Chars) (hgap : Gap gap)
  | entry (m : MemLine)

def FileLine.text : FileLine → Chars
  | .blank gap _ => gap
  | .entry m => m.text

def FileLine.entry? : FileLine → Option MemLine
  | .blank _ _ => none
  | .entry m => some m

/-- A file of these lines; after a last newline there is an empty one. -/
def fileText (entries : List FileLine) : Chars := joinWith '\n' (entries.map FileLine.text)

/-- The names in a file with their bytes, in the order of the lines. -/
def namedBytes (entries : List FileLine) : List (Chars × Int) :=
  (entries.filterMap FileLine.entry?).map fun m => (m.key, m.bytes)

/-- The names in which the monitor is interested. -/
def memNames : List (Chars × WhichStat) :=
  [ ("MemTotal".toList, .memTotal), ("MemAvailable".toList, .memAvailable),
    ("Active".toList, .memActive), ("Inactive".toList, .memInactive),
    ("AnonHugePages".toList, .memAnonHugePages) ]

theorem meminfoStat_eq_some_iff {name : Chars} {which : WhichStat}
    (hentry : (name, which) ∈ memNames) (var : Chars) : meminfoStat var = some which ↔ var = name := by
  constructor
  · intro hvar
    unfold meminfoStat at hvar
    repeat' split at hvar
    all_goals cases hvar
    all_goals simp_all [memNames]
  · rintro rfl
    simp only [memNames, List.mem_cons, Prod.mk.injEq, List.not_mem_nil, or_false] at hentry
    rcases hentry with ⟨rfl, rfl⟩ | ⟨rfl, rfl⟩ | ⟨rfl, rfl⟩ | ⟨rfl, rfl⟩ | ⟨rfl, rfl⟩
    all_goals decide

theorem FileLine.newline_notMem (entry : FileLine) : '\n' ∉ entry.text := by
  cases entry with
  | blank gap hgap => exact fun hmem => (hgap _ hmem).2 rfl
  | entry m => exact m.newline_notMem

theorem trimmedLines_fileText (entries : List FileLine) :
    trimmedLines (fileText entries) =
      (entries.filterMap FileLine.entry?).map fun m => trim isWhitespace m.text := by
  have hlines : ((entries.map FileLine.text).map (trim isWhitespace)).filter (· ≠ []) =
      (entries.filterMap FileLine.entry?).map fun m => trim isWhitespace m.text := by
    induction entries with
    | nil => rfl
    | cons entry entries ih =>
      rw [List.map_cons, List.map_cons]
      cases entry with
      | blank gap hgap =>
        have hblank : trim isWhitespace (FileLine.blank gap hgap).text = [] := by
          have hnone := trim_blanks_append (fun c hc => (hgap c hc).1) []
          rwa [List.append_nil] at hnone
        rw [hblank, List.filter_cons_of_neg (by simp), ih]
        rfl
      | entry m =>
        have hsome : trim isWhitespace (FileLine.entry m).text ≠ [] := by
          rw [FileLine.text, MemLine.text, trim_append_cons (by decide)]
          simp
        rw [List.filter_cons_of_pos (by simpa using hsome), ih]
        rfl
  rw [trimmedLines_eq, ← hlines]
  cases entries with
  | nil => rfl
  | cons entry entries =>
    rw [fileText, splitOn_joinWith (by simp)]
    intro line hline
    obtain ⟨entry', -, rfl⟩ := List.mem_map.mp hline
    exact entry'.newline_notMem

variable {F : Type}

/-- The assignment that a line of the file makes. -/
def lineWrite (line : Chars) : Option (WhichStat × Int64) :=
  match parseMeminfoLine line with
  | .ok (var, bytes) => (meminfoStat var).map (·, bytes)
  | .error _ => none

theorem readMeminfoLine_eq {line var : Chars} {bytes : Int64}
    (hparse : parseMeminfoLine line = .ok (var, bytes)) (s : Stats F) :
    s.readMeminfoLine line = .done (assign (lineWrite line).toList s) := by
  simp only [Stats.readMeminfoLine, lineWrite, hparse]
  cases meminfoStat var <;> rfl

theorem filterMap_lineWrite (records : List MemLine) :
    (records.map fun m => trim isWhitespace m.text).filterMap lineWrite =
      (records.map fun m => (m.key, Int64.ofInt m.bytes)).filterMap fun w =>
        (meminfoStat w.1).map (·, w.2) := by
  rw [List.filterMap_map, List.filterMap_map]
  refine List.filterMap_congr fun m _ => ?_
  obtain ⟨v, hparse, hv⟩ := m.parse_trim
  have hbytes : v = Int64.ofInt m.bytes := by rw [← hv, Int64.ofInt_toInt]
  simp only [Function.comp_apply, lineWrite, hparse, hbytes]

theorem updMeminfo_done {entries : List FileLine} {s : Stats F} {source : Source}
    (htext : source.text = some (fileText entries))
    (hopen : s.meminfoOpen = true ∨ source.opens = true) :
    s.updMeminfo source =
      .done (assign (((namedBytes entries).map fun w => (w.1, Int64.ofInt w.2)).filterMap fun w =>
        (meminfoStat w.1).map (·, w.2)) { s with meminfoOpen := true, meminfoRewound := true }) := by
  have hbody : ∀ line ∈ trimmedLines (fileText entries), ∀ u : Stats F,
      u.readMeminfoLine line = .done (assign (lineWrite line).toList u) := by
    intro line hline u
    rw [trimmedLines_fileText] at hline
    obtain ⟨m, -, rfl⟩ := List.mem_map.mp hline
    obtain ⟨v, hparse, -⟩ := m.parse_trim
    exact readMeminfoLine_eq hparse u
  rw [Stats.updMeminfo, readSource_of_text hopen htext, each_assign hbody, trimmedLines_fileText,
    filterMap_lineWrite, namedBytes, List.map_map]
  rfl

/-- Every line gives its name and its bytes, and the update shows for each statistic the
bytes of the last line with its name. -/
theorem meminfo_recovered :
    (∀ m : MemLine, ∃ v : Int64,
      parseMeminfoLine m.text = .ok (trim isWhitespace m.name, v) ∧
        v.toInt = m.value * m.unit.scale) ∧
    ∀ (entries : List FileLine) (s : Stats F) (source : Source),
      source.text = some (fileText entries) → (s.meminfoOpen = true ∨ source.opens = true) →
      ∃ t, s.updMeminfo source = .done t ∧
        t = { s with meminfoOpen := true, meminfoRewound := true, stats := t.stats } ∧
        (∀ entry ∈ memNames,
          (∀ bytes, lastFor entry.1 (namedBytes entries) = some bytes → ∃ v : Int64,
            v.toInt = bytes ∧ t.stats entry.2 = (s.stats entry.2).setNow (.int v)) ∧
          (lastFor entry.1 (namedBytes entries) = none → t.stats entry.2 = s.stats entry.2)) ∧
        ∀ which ∉ memStats, t.stats which = s.stats which := by
  refine ⟨MemLine.parse, fun entries s source htext hopen => ?_⟩
  have hdone := updMeminfo_done htext hopen
  have hshown : ∀ name which, (name, which) ∈ memNames → ∀ u : Stats F,
      (assign (((namedBytes entries).map fun w => (w.1, Int64.ofInt w.2)).filterMap fun w =>
        (meminfoStat w.1).map (·, w.2)) u).stats which =
      (((lastFor name (namedBytes entries)).map Int64.ofInt).map fun v =>
        (u.stats which).setNow (.int v)).getD (u.stats which) := by
    intro name which hentry u
    rw [assign_stats, lastFor_filterMap (meminfoStat_eq_some_iff hentry), lastFor_map]
  refine ⟨_, hdone, ?_, fun entry hentry => ⟨fun bytes hbytes => ?_, fun hnone => ?_⟩,
    fun which hwhich => ?_⟩
  · rw [assign_rest]
  · obtain ⟨front, rest, hsplit, -⟩ := lastFor_eq_some_iff.mp hbytes
    obtain ⟨m, -, hm⟩ := List.mem_map.mp (hsplit ▸ List.mem_append_right front List.mem_cons_self :
      (entry.1, bytes) ∈ namedBytes entries)
    have hfits := m.fits
    rw [← MemLine.bytes, (Prod.mk.inj hm).2] at hfits
    refine ⟨Int64.ofInt bytes, Int64.toInt_ofInt_of_le hfits.1 hfits.2, ?_⟩
    rw [hshown _ _ hentry, hbytes]
    rfl
  · rw [hshown _ _ hentry, hnone]
    rfl
  · have hkept := (updMeminfo_leaves source s).of_done hdone
    exact hkept.stats.untouched hwhich

/-- Without blanks but for those before the number. -/
def plainLine (name : Chars) (value : Nat) (unit : MemUnit)
    (hname : ∀ c ∈ name, c ≠ ':' ∧ c ≠ '\n') (hfits : value * unit.scale < 2 ^ 63) : MemLine where
  lead := []
  name := name
  preColon := []
  postColon := "  ".toList
  value := value
  number := decimal value
  preUnit := []
  unit := unit
  trail := []
  gaps := by simp [Gap, isWhitespace]
  name_inner := hname
  numeral := .plain (parseDigits_decimal value)
  fits := by
    have hscale : 0 ≤ (value : Int) * unit.scale := by
      cases unit <;> simp only [MemUnit.scale] <;> omega
    exact ⟨by omega, hfits⟩

def twoTotals : List FileLine :=
  [ .entry (plainLine "MemTotal".toList 16 .kB (by decide) (by decide)),
    .blank [] (by simp [Gap]),
    .entry (plainLine "Active(anon)".toList 7 .none (by decide) (by decide)),
    .entry (plainLine "MemTotal".toList 5 .mB (by decide) (by decide)) ]

theorem meminfo_recovered_two_totals :
    ∃ t, emptyStats.updMeminfo ⟨true, some (fileText twoTotals)⟩ = .done t ∧
      (∃ v : Int64, v.toInt = 5 * 1024 ^ 2 ∧ (t.stats .memTotal).valueNow = .int v) ∧
      (t.stats .memActive).valueNow = .int 0 := by
  obtain ⟨t, hdone, -, hnames, -⟩ :=
    meminfo_recovered.2 twoTotals emptyStats ⟨true, some (fileText twoTotals)⟩ rfl (.inr rfl)
  obtain ⟨v, hv, htotal⟩ := (hnames ("MemTotal".toList, .memTotal) (by decide)).1 (5 * 1024 ^ 2) rfl
  have hactive := (hnames ("Active".toList, .memActive) (by decide)).2 (by decide)
  exact ⟨t, hdone, ⟨v, hv, by rw [htotal]; rfl⟩, by rw [hactive]; rfl⟩

end NdpOffload.Statmon.Meminfo
