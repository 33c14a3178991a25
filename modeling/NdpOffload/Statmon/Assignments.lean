import NdpOffload.Library.Writes
import NdpOffload.Statmon.Refresh

/-! Parsers that assign current values while they read: a loop over lines or fields
comes down to the list of its assignments. -/
namespace NdpOffload.Statmon.Assignments

open Library.Outcomes Library.Text Library.Writes Table Sources Monitor

variable {F : Type}

/-- Assign one value after the other. -/
def assign (writes : List (WhichStat × Int64)) (s : Stats F) : Stats F :=
  writes.foldl (fun s w => s.seti w.1 w.2) s

@[simp] theorem assign_nil (s : Stats F) : assign [] s = s := rfl

theorem assign_append (front rest : List (WhichStat × Int64)) (s : Stats F) :
    assign (front ++ rest) s = assign rest (assign front s) := List.foldl_append

theorem assign_concat (writes : List (WhichStat × Int64)) (w : WhichStat × Int64) (s : Stats F) :
    assign (writes ++ [w]) s = (assign writes s).seti w.1 w.2 := by
  rw [assign_append]
  rfl

/-- Nothing but the array changes. -/
theorem assign_rest (writes : List (WhichStat × Int64)) (s : Stats F) :
    assign writes s = { s with stats := (assign writes s).stats } := by
  induction writes using List.reverseRecOn with
  | nil => rfl
  | append_singleton writes w ih =>
    rw [assign_concat, ih]
    rfl

/-- A statistic shows the last value assigned to it. -/
theorem assign_stats (writes : List (WhichStat × Int64)) (s : Stats F) (which : WhichStat) :
    (assign writes s).stats which =
      ((lastFor which writes).map fun v => (s.stats which).setNow (.int v)).getD (s.stats which) := by
  induction writes using List.reverseRecOn with
  | nil => rfl
  | append_singleton writes w ih =>
    rw [assign_concat, lastFor_concat]
    by_cases hw : w.1 = which
    · subst hw
      rw [seti_stats_self, if_pos rfl, ih]
      cases lastFor w.1 writes <;> rfl
    · rw [seti_stats_of_ne _ _ (Ne.symm hw), if_neg hw, ih]

/-- A loop whose passes all succeed makes the assignments of all its items. -/
theorem each_assign {α : Type} {body : α → Stats F → Result (Stats F)}
    {write : α → Option (WhichStat × Int64)} {items : List α}
    (hbody : ∀ item ∈ items, ∀ s, body item s = .done (assign (write item).toList s)) (s : Stats F) :
    Outcome.each body items s = .done (assign (items.filterMap write) s) := by
  induction items generalizing s with
  | nil => rfl
  | cons item items ih =>
    rw [each_cons, hbody item List.mem_cons_self, andThen_done,
      ih fun i hi => hbody i (List.mem_cons_of_mem _ hi)]
    cases hwrite : write item with
    | none => rw [List.filterMap_cons_none hwrite]; rfl
    | some w => rw [List.filterMap_cons_some hwrite]; rfl

/-- A file that is open, or can be opened, and can be read. -/
theorem readSource_of_text {source : Source} {isOpen : Bool} {onOpenError : Error}
    {mark : Bool → Stats F} {parse : Chars → Stats F → Result (Stats F)} {s : Stats F} {text : Chars}
    (hopen : isOpen = true ∨ source.opens = true) (htext : source.text = some text) :
    readSource source isOpen onOpenError mark parse s = parse text (mark true) := by
  unfold readSource
  rw [if_neg (by rcases hopen with h | h <;> simp [h]), htext]

/-- The lines of a file as the parsers see them. -/
theorem trimmedLines_eq (text : Chars) :
    trimmedLines text = ((text.splitOn '\n').map (trim isWhitespace)).filter (· ≠ []) := by
  obtain ⟨front, last, hpieces⟩ : ∃ front last, text.splitOn '\n' = front ++ [last] :=
    ⟨_, _, (List.dropLast_append_getLast (List.splitOn_ne_nil '\n' text)).symm⟩
  have hchomp : (front.map chomp).map (trim isWhitespace) = front.map (trim isWhitespace) := by
    rw [List.map_map]
    exact List.map_congr_left fun line _ => trim_chomp (by decide) line
  rw [trimmedLines, lines, hpieces]
  simp only [List.dropLast_concat, List.getLast?_append, List.getLast?_singleton, Option.some_or,
    Option.toList_some, List.map_append, List.filter_append, hchomp]
  congr 1
  by_cases hlast : last = []
  · subst hlast
    rfl
  · simp [hlast]

/-- A monitor that has read nothing yet, with no use for `f64`. -/
def emptyStats : Stats Unit where
  events := ⟨[], by simp⟩
  stats := fun _ => ⟨[], .int 0, .int 0, .int 0, .int 0, 0⟩

end NdpOffload.Statmon.Assignments
