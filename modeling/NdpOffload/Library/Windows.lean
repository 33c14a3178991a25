import Mathlib.Data.List.Induction
import Mathlib.Tactic.Common

/-! A resettable accumulator and the window of samples it has seen.  Samples
arrive one by one; some of them open or close the window.  The opening sample
itself stays outside, the closing one inside. -/
namespace NdpOffload.Library.Windows

variable {α β : Type*}

inductive Mark where
  | plain
  | opening
  | closing
  deriving DecidableEq

/-- What follows the last opening sample, if there is one. -/
def sinceOpening : List (Mark × α) → Option (List (Mark × α))
  | [] => none
  | sample :: rest => match sinceOpening rest with
      | some later => some later
      | none => if sample.1 = .opening then some rest else none

/-- The samples up to and including the first closing one. -/
def upToClosing : List (Mark × α) → List α
  | [] => []
  | sample :: rest => if sample.1 = .closing then [sample.2] else sample.2 :: upToClosing rest

def window (history : List (Mark × α)) : List α :=
  match sinceOpening history with
  | some later => upToClosing later
  | none => []

def isClosed (later : List (Mark × α)) : Bool := later.any fun sample => sample.1 = .closing

/-- Whether the window is still taking samples. -/
def isOpen (history : List (Mark × α)) : Bool :=
  match sinceOpening history with
  | some later => !isClosed later
  | none => false

theorem sinceOpening_concat (history : List (Mark × α)) (sample : Mark × α) :
    sinceOpening (history ++ [sample]) =
      if sample.1 = .opening then some [] else (sinceOpening history).map (· ++ [sample]) := by
  induction history with
  | nil => simp [sinceOpening]
  | cons first rest ih =>
    rw [List.cons_append, sinceOpening, ih]
    by_cases hopening : sample.1 = .opening
    · simp [hopening]
    · simp only [hopening, if_false]
      rw [sinceOpening]
      cases sinceOpening rest with
      | some later => rfl
      | none =>
        by_cases hfirst : first.1 = .opening <;> simp [hfirst]

theorem upToClosing_concat (later : List (Mark × α)) (sample : Mark × α) :
    upToClosing (later ++ [sample]) =
      if isClosed later then upToClosing later else upToClosing later ++ [sample.2] := by
  induction later with
  | nil => simp [upToClosing, isClosed]
  | cons first rest ih =>
    by_cases hfirst : first.1 = .closing
    · simp [upToClosing, isClosed, hfirst]
    · have hclosed : isClosed (first :: rest) = isClosed rest := by simp [isClosed, hfirst]
      rw [List.cons_append, upToClosing, if_neg hfirst, ih, hclosed, upToClosing, if_neg hfirst]
      split <;> rfl

/-- An opening sample empties the window, any other one joins it while it is
open. -/
theorem window_concat (history : List (Mark × α)) (sample : Mark × α) :
    window (history ++ [sample]) =
      if sample.1 = .opening then []
      else if isOpen history then window history ++ [sample.2] else window history := by
  by_cases hopening : sample.1 = .opening
  · simp [window, sinceOpening_concat, hopening, upToClosing]
  · cases hsince : sinceOpening history with
    | none => simp [window, isOpen, sinceOpening_concat, hopening, hsince]
    | some later =>
      cases hclosed : isClosed later <;>
        simp [window, isOpen, sinceOpening_concat, hopening, hsince, upToClosing_concat, hclosed]

theorem isOpen_concat (history : List (Mark × α)) (sample : Mark × α) :
    isOpen (history ++ [sample]) =
      if sample.1 = .opening then true
      else if sample.1 = .closing then false else isOpen history := by
  simp only [isOpen, sinceOpening_concat]
  by_cases hopening : sample.1 = .opening
  · simp [hopening, isClosed]
  · simp only [hopening, if_false]
    cases sinceOpening history with
    | none => simp
    | some later => by_cases hclosing : sample.1 = .closing <;> simp [isClosed, hclosing]

/-- Between an opening sample and the next mark the window is everything since. -/
theorem window_opened (before : List (Mark × α)) (first : α) (during : List (Mark × α))
    (hplain : ∀ sample ∈ during, sample.1 = .plain) :
    window (before ++ (.opening, first) :: during) = during.map Prod.snd ∧
      isOpen (before ++ (.opening, first) :: during) = true := by
  induction during using List.reverseRecOn with
  | nil => simp [window_concat, isOpen_concat]
  | append_singleton during sample ih =>
    have hsample := hplain sample (by simp)
    obtain ⟨hwindow, hopen⟩ := ih fun s hs => hplain s (by simp [hs])
    rw [← List.cons_append, ← List.append_assoc, window_concat, isOpen_concat, hwindow, hopen,
      hsample]
    simp

/-- The closing sample is the last of the window. -/
theorem window_closed (before : List (Mark × α)) (first last : α) (during : List (Mark × α))
    (hplain : ∀ sample ∈ during, sample.1 = .plain) :
    window (before ++ (.opening, first) :: (during ++ [(.closing, last)])) =
      during.map Prod.snd ++ [last] := by
  obtain ⟨hwindow, hopen⟩ := window_opened before first during hplain
  rw [← List.cons_append, ← List.append_assoc, window_concat, hwindow, hopen]
  rfl

/-- A closed window stays as it is until the next opening sample. -/
theorem window_frozen (history later : List (Mark × α)) (hclosed : isOpen history = false)
    (hlater : ∀ sample ∈ later, sample.1 ≠ .opening) :
    window (history ++ later) = window history ∧ isOpen (history ++ later) = false := by
  induction later using List.reverseRecOn with
  | nil => simp [hclosed]
  | append_singleton later sample ih =>
    have hsample := hlater sample (by simp)
    obtain ⟨hwindow, hopen⟩ := ih fun s hs => hlater s (by simp [hs])
    rw [← List.append_assoc, window_concat, isOpen_concat, if_neg hsample, if_neg hsample, hopen]
    refine ⟨hwindow, ?_⟩
    split <;> rfl

end NdpOffload.Library.Windows
