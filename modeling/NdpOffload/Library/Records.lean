import NdpOffload.Library.Text

/-! Lines of comma-separated cells: a heading followed by pairs of a label and a
value, and rows of quoted values under a line of names. -/
namespace NdpOffload.Library.Records

open Library.Text

/-! ### Pairs of cells -/

/-- Labels and values in turn. -/
def cells (pairs : List (Chars × Chars)) : List Chars := pairs.flatMap fun pair => [pair.1, pair.2]

section Cells

variable (pairs : List (Chars × Chars))

@[simp] theorem cells_nil : cells [] = [] := rfl

@[simp] theorem cells_cons (pair : Chars × Chars) :
    cells (pair :: pairs) = pair.1 :: pair.2 :: cells pairs := rfl

@[simp] theorem length_cells : (cells pairs).length = 2 * pairs.length := by
  induction pairs with
  | nil => rfl
  | cons pair pairs ih =>
    rw [cells_cons, List.length_cons, List.length_cons, ih, List.length_cons]
    omega

theorem mem_cells {cell : Chars} :
    cell ∈ cells pairs ↔ ∃ pair ∈ pairs, cell = pair.1 ∨ cell = pair.2 := by
  simp [cells]

/-- The labels stand at the even places, each before its value. -/
theorem getElem?_cells (i : Nat) :
    (cells pairs)[2 * i]? = pairs[i]?.map Prod.fst ∧
      (cells pairs)[2 * i + 1]? = pairs[i]?.map Prod.snd := by
  induction pairs generalizing i with
  | nil => simp
  | cons pair pairs ih =>
    cases i with
    | zero => simp
    | succ i =>
      have hrest := ih i
      simpa [Nat.mul_succ] using hrest

/-- What stands at every other place behind a heading. -/
theorem map_range'_cells (heading : Chars) :
    ((List.range' 1 pairs.length 2).map fun i =>
      ((heading :: cells pairs).getD i [], (heading :: cells pairs).getD (i + 1) [])) = pairs := by
  apply List.ext_getElem
  · simp
  · intro i hleft hright
    obtain ⟨hlabel, hvalue⟩ := getElem?_cells pairs i
    rw [List.getElem?_eq_getElem hright] at hlabel hvalue
    rw [List.getElem_map, List.getElem_range']
    have hplace : 1 + 2 * i = 2 * i + 1 := by omega
    simp [hplace, List.getD_eq_getElem?_getD, hlabel, hvalue]

end Cells

/-! ### Terminated and separated fields -/

/-- A separator after every field is a separator between them and one more. -/
theorem flatMap_terminated (sep : Char) {fields : List Chars} (hne : fields ≠ []) :
    fields.flatMap (· ++ [sep]) = joinWith sep fields ++ [sep] := by
  induction fields with
  | nil => exact absurd rfl hne
  | cons field rest ih =>
    cases rest with
    | nil => simp [joinWith]
    | cons next rest =>
      rw [List.flatMap_cons, ih (by simp), joinWith_cons_cons]
      simp

theorem joinWith_cons (sep : Char) (first : Chars) (rest : List Chars) :
    joinWith sep (first :: rest) = first ++ rest.flatMap (sep :: ·) := by
  induction rest generalizing first with
  | nil => simp [joinWith]
  | cons next rest ih => rw [joinWith_cons_cons, ih, List.flatMap_cons]; simp

/-! ### Lines -/

/-- A heading and the pairs behind it. -/
abbrev Line := Chars × List (Chars × Chars)

def lineText (line : Line) : Chars := joinWith ',' (line.1 :: cells line.2)

theorem splitOn_lineText {line : Line} (hheading : ',' ∉ line.1)
    (hcells : ∀ cell ∈ cells line.2, ',' ∉ cell) :
    (lineText line).splitOn ',' = line.1 :: cells line.2 := by
  apply splitOn_joinWith (by simp)
  intro field hfield
  rcases List.mem_cons.mp hfield with rfl | hcell
  · exact hheading
  · exact hcells field hcell

theorem notMem_lineText {line : Line} {c : Char} (hc : c ≠ ',') (hheading : c ∉ line.1)
    (hcells : ∀ cell ∈ cells line.2, c ∉ cell) : c ∉ lineText line := by
  apply notMem_joinWith hc
  intro field hfield
  rcases List.mem_cons.mp hfield with rfl | hcell
  · exact hheading
  · exact hcells field hcell

/-- A line starts with its heading and ends with a value or with the comma before an
empty one, so it is trimmed if these are. -/
theorem trim_lineText {blank : Char → Bool} {line : Line} (hcomma : blank ',' = false)
    (hne : line.1 ≠ []) (hheading : ∀ c ∈ line.1, blank c = false)
    (hvalues : ∀ pair ∈ line.2, ∀ c, pair.2.getLast? = some c → blank c = false) :
    trim blank (lineText line) = lineText line := by
  obtain ⟨heading, pairs⟩ := line
  apply trim_of_ends
  · intro c hc
    obtain ⟨first, rest, rfl⟩ := List.exists_cons_of_ne_nil hne
    rw [lineText, joinWith_cons, List.cons_append, List.head?_cons] at hc
    cases hc
    exact hheading _ List.mem_cons_self
  · intro c hc
    rcases List.eq_nil_or_concat pairs with rfl | ⟨front, pair, rfl⟩
    · rw [lineText, joinWith_cons, cells_nil, List.flatMap_nil, List.append_nil] at hc
      exact hheading c (List.mem_of_getLast? hc)
    · have hjoin : lineText (heading, front ++ [pair]) =
          joinWith ',' (heading :: (cells front ++ [pair.1])) ++ ',' :: pair.2 := by
        rw [lineText, ← joinWith_concat ',' _ (List.cons_ne_nil _ _)]
        simp [cells]
      rw [List.concat_eq_append] at hc hvalues
      rw [hjoin, List.getLast?_append, List.getLast?_cons] at hc
      cases hlast : pair.2.getLast? with
      | none =>
        rw [hlast] at hc
        cases hc
        exact hcomma
      | some d =>
        rw [hlast] at hc
        cases hc
        exact hvalues pair (by simp) d hlast

/-! ### Rows -/

def quoted (value : Chars) : Chars := '"' :: value ++ ['"']

/-- Quoted values, each with a comma after it. -/
def row (values : List Chars) : Chars := values.flatMap fun value => quoted value ++ [',']

theorem row_append (left right : List Chars) : row (left ++ right) = row left ++ row right :=
  List.flatMap_append

theorem row_concat (values : List Chars) (value : Chars) :
    row (values ++ [value]) = row values ++ (quoted value ++ [',']) := by
  simp [row]

theorem notMem_quoted {c : Char} {value : Chars} (hc : c ≠ '"') (hvalue : c ∉ value) :
    c ∉ quoted value := by
  simp [quoted, hc, hvalue]

theorem notMem_row {c : Char} {values : List Chars} (hquote : c ≠ '"') (hcomma : c ≠ ',')
    (hvalues : ∀ value ∈ values, c ∉ value) : c ∉ row values := by
  intro hmem
  obtain ⟨value, hvalue, hin⟩ := List.mem_flatMap.mp hmem
  rcases List.mem_append.mp hin with hinner | hlast
  · exact notMem_quoted hquote (hvalues value hvalue) hinner
  · exact hcomma (List.mem_singleton.mp hlast)

/-- A row ends with an empty cell. -/
theorem splitOn_row {values : List Chars} (hvalues : ∀ value ∈ values, ',' ∉ value) :
    (row values).splitOn ',' = values.map quoted ++ [[]] := by
  have hjoin : row values = joinWith ',' (values.map quoted ++ [[]]) := by
    cases values with
    | nil => rfl
    | cons value rest =>
      rw [joinWith_concat ',' [] (by simp), ← flatMap_terminated ',' (by simp), row,
        List.flatMap_map]
  rw [hjoin]
  apply splitOn_joinWith (by simp)
  intro field hfield
  rcases List.mem_append.mp hfield with hquoted | hlast
  · obtain ⟨value, hvalue, rfl⟩ := List.mem_map.mp hquoted
    exact notMem_quoted (by decide) (hvalues value hvalue)
  · simp [List.mem_singleton.mp hlast]

/-- Rows on lines of their own. -/
theorem splitOn_table {header : Chars} (rows : List (List Chars)) (hheader : '\n' ∉ header)
    (hrows : ∀ values ∈ rows, ∀ value ∈ values, '\n' ∉ value) :
    (header ++ rows.flatMap fun values => '\n' :: row values).splitOn '\n' =
      header :: rows.map row := by
  have hjoin : (header ++ rows.flatMap fun values => '\n' :: row values) =
      joinWith '\n' (header :: rows.map row) := by
    rw [joinWith_cons, List.flatMap_map]
  rw [hjoin]
  apply splitOn_joinWith (by simp)
  intro line hline
  rcases List.mem_cons.mp hline with rfl | hline
  · exact hheader
  · obtain ⟨values, hvalues, rfl⟩ := List.mem_map.mp hline
    exact notMem_row (by decide) (by decide) (hrows values hvalues)

/-! ### Plain texts -/

/-- No comma, quote or blank. -/
def Plain (text : Chars) : Prop := ∀ c ∈ text, c ≠ ',' ∧ c ≠ '"' ∧ isWhitespace c = false

instance (text : Chars) : Decidable (Plain text) :=
  inferInstanceAs (Decidable (∀ c ∈ text, _))

theorem Plain.append {left right : Chars} (hleft : Plain left) (hright : Plain right) :
    Plain (left ++ right) := by
  intro c hc
  rcases List.mem_append.mp hc with hc | hc
  · exact hleft c hc
  · exact hright c hc

theorem Plain.notMem {text : Chars} (htext : Plain text) {c : Char}
    (hc : c = ',' ∨ c = '"' ∨ isWhitespace c = true) : c ∉ text := by
  intro hmem
  obtain ⟨hcomma, hquote, hblank⟩ := htext c hmem
  rcases hc with rfl | rfl | hc
  · exact hcomma rfl
  · exact hquote rfl
  · rw [hc] at hblank
    cases hblank

theorem digit_plain {c : Char} (hdigit : c.isDigit = true) :
    c ≠ ',' ∧ c ≠ '"' ∧ isWhitespace c = false := by
  refine ⟨?_, ?_, ?_⟩
  · rintro rfl
    cases hdigit
  · rintro rfl
    cases hdigit
  · rw [Bool.eq_false_iff]
    intro hblank
    rw [isDigit_of_isWhitespace hblank] at hdigit
    cases hdigit

/-- The characters with which numbers with a fraction are written. -/
def isFloatChar (c : Char) : Bool := c.isDigit || c ∈ "-.NaNinf".toList

theorem plain_of_floatChars {text : Chars} (htext : ∀ c ∈ text, isFloatChar c = true) :
    Plain text := by
  intro c hc
  rcases Bool.or_eq_true .. ▸ htext c hc with hdigit | hother
  · exact digit_plain hdigit
  · have hall : Plain "-.NaNinf".toList := by decide
    exact hall c (of_decide_eq_true hother)

end NdpOffload.Library.Records
