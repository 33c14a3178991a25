import NdpOffload.NearMap.Pipeline

/-! `main` of the analyser: the folders of its command line, the `.log` files in
them, and the table it writes.  `none` is a failed `unwrap` or an I/O error, after
which no table is written. -/
namespace NdpOffload.NearMap.Summary

open Library.Runs Library.Segments Library.Text Tool Analyse Classification Figures Pipeline
  RoundTrip

/-- `Path::extension` of a file name: what stands behind the last dot, unless that
dot starts the name. -/
def extension (fileName : Chars) : Option Chars :=
  match fileName.rdropWhile (· ≠ '.') with
  | [] => none
  | [_] => none
  | _ => some (fileName.rtakeWhile (· ≠ '.'))

/-- One entry of `read_dir`.  `text` is `none` when it cannot be opened or read as
text, and `visits` are the orders in which the hash maps of its phases are visited. -/
structure DirFile where
  name : Chars
  text : Option Chars
  visits : Nat → List PageAccess

def joinPath (folder name : Chars) : Chars :=
  if folder = [] ∨ folder.getLast? = some '/' then folder ++ name else folder ++ '/' :: name

def header : Chars :=
  "Trace,Phase,Page size,Read bytes,Written bytes,Dead written bytes,New read bytes,IO Bytes,Instructions".toList

def analyseEntry (folder : Chars) (out : Chars) (file : DirFile) : Option Chars :=
  if (extension file.name).all (· != "log".toList) then pure out
  else do
    let text ← file.text
    let rows ← analyseText (joinPath folder file.name) text file.visits
    pure (out ++ rows)

def analyseFolder (folder : Chars) (listing : Option (List DirFile)) (out : Chars) :
    Option Chars := do
  let out := out ++ folder ++ ['\n']
  let out := out ++ header ++ ['\n']
  let files ← listing
  files.foldlM (analyseEntry folder) out

/-- What is written to `memory_access_summary.csv`. -/
def main (folders : List (Chars × Option (List DirFile))) : Option Chars :=
  folders.foldlM (fun out folder => analyseFolder folder.1 folder.2 out) []

/-! ### Logs of runs -/

/-- The page size of a run and its events before `Fini`. -/
structure Traced where
  log2 : UInt64
  events : List Event
  log2_le : log2.toNat ≤ 30
  names_ok : NamesOk events
  events_ok : ∀ e ∈ events, EventOk e
  short : events.length + 1 < 2 ^ 64

/-- The file holds the log that a finished run of the tool wrote. -/
def Holds (file : DirFile) (traced : Traced) : Prop :=
  ∃ s, Run Step (start traced.log2) (traced.events ++ [.phaseStub finiName]) s ∧
    file.text = some (logText s.out) ∧
    ∀ st, analyseFile (logText s.out) = some st → ∀ i phase, st.phases[i]? = some phase →
      (file.visits i).Perm phase.accesses.entries

noncomputable def fileLines (folder : Chars) (file : DirFile) (traced : Traced) : List Chars :=
  (summaryRows traced.log2 (joinPath folder file.name) traced.events).map Row.render

def Row.cells (row : Row) : List Chars :=
  [row.path, row.name, decimal row.pageSize.toNat, decimal row.readBytes.toNat,
    decimal row.writtenBytes.toNat, decimal row.deadBytes.toNat, decimal row.newBytes.toNat,
    decimal row.ioBytes.toNat, decimal row.instructions.toNat]

theorem render_eq (row : Row) : row.render = joinWith ',' (Row.cells row) := rfl

theorem splitOn_render {row : Row} (hpath : ',' ∉ row.path) (hname : ',' ∉ row.name) :
    row.render.splitOn ',' = Row.cells row := by
  rw [render_eq]
  apply splitOn_joinWith (List.cons_ne_nil _ _)
  have hfigure : ∀ n, ',' ∉ decimal n := fun n => notMem_decimal (by decide)
  simp only [List.forall_mem_cons]
  exact ⟨hpath, hname, hfigure _, hfigure _, hfigure _, hfigure _, hfigure _, hfigure _,
    hfigure _, List.forall_mem_nil _⟩

theorem notMem_render {row : Row} (hpath : '\n' ∉ row.path) (hname : '\n' ∉ row.name) :
    '\n' ∉ row.render := by
  rw [render_eq]
  apply notMem_joinWith (by decide)
  have hfigure : ∀ n, '\n' ∉ decimal n := fun n => notMem_decimal (by decide)
  simp only [Row.cells, List.forall_mem_cons]
  exact ⟨hpath, hname, hfigure _, hfigure _, hfigure _, hfigure _, hfigure _, hfigure _,
    hfigure _, List.forall_mem_nil _⟩

/-- A row ends in a figure, whatever its path and name are. -/
theorem chomp_render (row : Row) : chomp row.render = row.render := by
  have hsplit : Row.cells row = (Row.cells row).dropLast ++ [decimal row.instructions.toNat] := rfl
  have hfront : (Row.cells row).dropLast ≠ [] := List.cons_ne_nil _ _
  rw [render_eq, hsplit, joinWith_concat ',' _ hfront]
  apply chomp_append (List.cons_ne_nil _ _)
  rw [List.mem_cons, not_or]
  exact ⟨by decide, notMem_decimal (by decide)⟩

/-- Names of folders and files that leave the lines of the table apart. -/
def Placed (folder : Chars × List DirFile) : Prop :=
  '\n' ∉ folder.1 ∧ '\r' ∉ folder.1 ∧ ∀ file ∈ folder.2, '\n' ∉ file.name

end NdpOffload.NearMap.Summary
