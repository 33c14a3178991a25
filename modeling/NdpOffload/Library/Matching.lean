import Mathlib.Data.List.Basic
import Mathlib.Tactic.Common

/-! Items that come one by one, matched in order against expected keys: an item with
the next key is taken, any other is left. -/
namespace NdpOffload.Library.Matching

variable {α κ : Type*} [DecidableEq κ] (key : α → κ)

def taken : List κ → List α → List α
  | _, [] => []
  | [], _ :: _ => []
  | expected :: rest, x :: xs =>
    if expected = key x then x :: taken rest xs else taken (expected :: rest) xs

def left : List κ → List α → List α
  | _, [] => []
  | [], x :: xs => x :: xs
  | expected :: rest, x :: xs =>
    if expected = key x then left rest xs else x :: left (expected :: rest) xs

/-- Another item comes when nothing is expected any more. -/
def Overruns : List κ → List α → Prop
  | _, [] => False
  | [], _ :: _ => True
  | expected :: rest, x :: xs =>
    if expected = key x then Overruns rest xs else Overruns (expected :: rest) xs

/-- The keys are found in order before the last item. -/
theorem overruns_iff {expected : List κ} {xs : List α} :
    Overruns key expected xs ↔ xs ≠ [] ∧ expected.Sublist (xs.map key).dropLast := by
  induction xs generalizing expected with
  | nil => simp [Overruns]
  | cons x xs ih =>
    cases expected with
    | nil => simp [Overruns]
    | cons next rest =>
      rw [Overruns]
      cases xs with
      | nil => simp [Overruns]
      | cons y ys =>
        rw [List.map_cons, List.map_cons, List.dropLast_cons_cons, ← List.map_cons]
        split
        · rename_i hnext
          rw [ih, hnext, List.cons_sublist_cons]
          simp
        · rename_i hnext
          rw [ih]
          constructor
          · rintro ⟨-, hrest⟩
            exact ⟨List.cons_ne_nil x _, hrest.cons _⟩
          · rintro ⟨-, hall⟩
            refine ⟨List.cons_ne_nil y ys, ?_⟩
            cases hall with
            | cons _ hrest => exact hrest
            | cons_cons _ _ => exact absurd rfl hnext

end NdpOffload.Library.Matching
