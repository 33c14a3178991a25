import Mathlib.Algebra.Ring.Nat
import Mathlib.Data.List.Basic
import Mathlib.Tactic.Common

/-! A loop from the last element of a list down to the second, in which each element is
combined with the one before it, in place. -/
namespace NdpOffload.Library.Backward

section Sweep

variable {α : Type*} (f : α → α → α)

/-- `xs[i] = f(xs[i - 1], xs[i])`. -/
def meet (i : Nat) (xs : List α) : List α :=
  match xs[i - 1]?, xs[i]? with
  | some previous, some x => xs.set i (f previous x)
  | _, _ => xs

/-- The indices of `(1..length).rev()`. -/
def indices (length : Nat) : List Nat := (List.range' 1 (length - 1)).reverse

def meets (is : List Nat) (xs : List α) : List α := is.foldl (fun xs i => meet f i xs) xs

def sweep (xs : List α) : List α := meets f (indices xs.length) xs

variable {xs : List α} {i j : Nat}

theorem meet_of_ne (hne : j ≠ i) : (meet f i xs)[j]? = xs[j]? := by
  unfold meet
  split
  · exact List.getElem?_set_ne hne.symm
  · rfl

theorem meet_self : (meet f i xs)[i]? = xs[i - 1]?.bind fun previous => xs[i]?.map (f previous) := by
  unfold meet
  cases hx : xs[i]? with
  | none =>
    simp only [Option.map_none]
    cases xs[i - 1]? <;> exact hx
  | some x =>
    obtain ⟨hi, -⟩ := List.getElem?_eq_some_iff.mp hx
    rw [List.getElem?_eq_getElem (show i - 1 < xs.length by omega)]
    simp [hi]

theorem meets_of_lt {is : List Nat} (his : ∀ i ∈ is, j < i) : (meets f is xs)[j]? = xs[j]? := by
  induction is generalizing xs with
  | nil => rfl
  | cons i is ih =>
    rw [meets, List.foldl_cons, ← meets, ih fun k hk => his k (List.mem_cons_of_mem i hk),
      meet_of_ne f (Nat.ne_of_lt (his i List.mem_cons_self))]

/-- When an index is reached, neither its element nor any before it has been changed. -/
theorem meets_before {length : Nat} {front rest : List Nat}
    (hindices : indices length = front ++ i :: rest) (hj : j ≤ i) :
    (meets f front xs)[j]? = xs[j]? := by
  apply meets_of_lt
  have hdecreasing : (indices length).Pairwise (· > ·) :=
    List.pairwise_reverse.mpr (List.pairwise_lt_range' (s := 1) (n := length - 1))
  rw [hindices] at hdecreasing
  intro k hk
  have hlt := (List.pairwise_append.mp hdecreasing).2.2 k hk i List.mem_cons_self
  omega

theorem getElem?_meets (m : Nat) (xs : List α) (j : Nat) :
    (meets f (List.range' 1 m).reverse xs)[j]? =
      if 1 ≤ j ∧ j ≤ m then xs[j - 1]?.bind fun previous => xs[j]?.map (f previous) else xs[j]? := by
  induction m generalizing xs with
  | zero =>
    rw [if_neg (by omega)]
    rfl
  | succ m ih =>
    rw [List.range'_concat, List.reverse_concat, meets, List.foldl_cons, ← meets, ih]
    by_cases hj : 1 ≤ j ∧ j ≤ m
    · rw [if_pos hj, if_pos (by omega), meet_of_ne f (by omega), meet_of_ne f (by omega)]
    · rw [if_neg hj]
      by_cases hlast : j = 1 + 1 * m
      · rw [hlast, meet_self, if_pos (by omega)]
      · rw [meet_of_ne f hlast, if_neg (by omega)]

/-- Every element but the first is combined with the old value before it. -/
theorem sweep_cons (x : α) (xs : List α) :
    sweep f (x :: xs) = x :: List.zipWith f (x :: xs) xs := by
  apply List.ext_getElem?
  intro j
  rw [sweep, indices, List.length_cons, Nat.add_sub_cancel, getElem?_meets]
  cases j with
  | zero => simp
  | succ j =>
    rw [List.getElem?_cons_succ, List.getElem?_cons_succ, List.getElem?_zipWith', Nat.add_sub_cancel]
    split
    · cases (x :: xs)[j]? <;> rfl
    · rename_i hout
      rw [List.getElem?_eq_none (by omega)]
      cases (x :: xs)[j]? <;> rfl

/-- An element that is replaced by itself stays. -/
theorem sweep_right (xs : List α) : sweep (fun _ x => x) xs = xs := by
  cases xs with
  | nil => rfl
  | cons x xs =>
    rw [sweep_cons]
    refine congrArg _ (List.ext_getElem? fun j => ?_)
    rw [List.getElem?_zipWith]
    cases hj : xs[j]? with
    | none => cases (x :: xs)[j]? <;> rfl
    | some y =>
      obtain ⟨hlt, -⟩ := List.getElem?_eq_some_iff.mp hj
      rw [List.getElem?_eq_getElem (show j < (x :: xs).length by simp; omega)]

/-- What a map shows of a swept list is swept itself. -/
theorem map_sweep {β : Type*} {f : α → α → α} {f' : β → β → β} {g : α → β}
    (hf : ∀ x y, g (f x y) = f' (g x) (g y)) (xs : List α) :
    (sweep f xs).map g = sweep f' (xs.map g) := by
  cases xs with
  | nil => rfl
  | cons x xs =>
    rw [sweep_cons, List.map_cons, List.map_zipWith, List.map_cons, sweep_cons, ← List.map_cons,
      List.zipWith_map]
    simp only [hf]

end Sweep

/-! ### Differences -/

/-- The differences of neighbours. -/
def differences (xs : List Nat) : List Nat := List.zipWith (fun x y => y - x) xs xs.tail

@[simp] theorem differences_singleton (x : Nat) : differences [x] = [] := rfl

@[simp] theorem differences_cons_cons (x y : Nat) (xs : List Nat) :
    differences (x :: y :: xs) = (y - x) :: differences (y :: xs) := rfl

/-- In a sorted list they add up to the distance of its ends. -/
theorem sum_differences {x : Nat} {xs : List Nat} (hsorted : (x :: xs).Pairwise (· ≤ ·)) :
    (differences (x :: xs)).sum = (x :: xs).getLast (List.cons_ne_nil x xs) - x := by
  induction xs generalizing x with
  | nil => simp [differences]
  | cons y xs ih =>
    obtain ⟨hx, hrest⟩ := List.pairwise_cons.mp hsorted
    have hxy := hx y List.mem_cons_self
    have hlast := (List.pairwise_cons.mp hrest).1
    have hbound : y ≤ (y :: xs).getLast (List.cons_ne_nil y xs) := by
      rcases List.mem_cons.mp (List.getLast_mem (List.cons_ne_nil y xs)) with heq | hmem
      · exact Nat.le_of_eq heq.symm
      · exact hlast _ hmem
    rw [differences_cons_cons, List.sum_cons, ih hrest, List.getLast_cons (List.cons_ne_nil y xs)]
    omega

theorem differences_add (c : Nat) (xs : List Nat) :
    differences (xs.map (· + c)) = differences xs := by
  rw [differences, ← List.map_tail, List.zipWith_map]
  simp only [Nat.add_sub_add_right]
  rfl

end NdpOffload.Library.Backward
