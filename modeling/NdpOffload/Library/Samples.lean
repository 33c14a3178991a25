import Mathlib.Algebra.BigOperators.Ring.Finset
import Mathlib.Algebra.Order.Archimedean.Basic
import Mathlib.Algebra.Order.Field.Basic
import Mathlib.Algebra.Order.Floor.Ring
import Mathlib.Data.BitVec
import Mathlib.Tactic.FieldSimp
import Mathlib.Tactic.LinearCombination
import Mathlib.Tactic.Linarith

/-! Figures of a list of measurements: order statistics of a sorted list, and the mean
and the variance, also when they are computed with integers that wrap. -/
namespace NdpOffload.Library.Samples

/-! ### Order statistics -/

section Order

variable {α β : Type*} [LinearOrder β] {key : α → β} {xs : List α} {i : Nat}

/-- The order of a list that is sorted by a key. -/
def SortedBy (key : α → β) (xs : List α) : Prop := xs.Pairwise fun x y => key x ≤ key y

theorem SortedBy.getElem_le (hsorted : SortedBy key xs) {j : Nat} (hij : i ≤ j)
    (hj : j < xs.length) : key xs[i] ≤ key xs[j] := by
  rcases Nat.eq_or_lt_of_le hij with rfl | hlt
  · exact le_refl _
  · exact List.pairwise_iff_getElem.mp hsorted i j (by omega) hj hlt

/-- At most `i` values are below the one at position `i`. -/
theorem SortedBy.countP_lt_le (hsorted : SortedBy key xs) (hi : i < xs.length) :
    xs.countP (fun x => key x < key xs[i]) ≤ i := by
  have hdrop : (xs.drop i).countP (fun x => key x < key xs[i]) = 0 := by
    rw [List.countP_eq_zero]
    intro x hx
    obtain ⟨j, hj, rfl⟩ := List.mem_iff_getElem.mp hx
    rw [List.length_drop] at hj
    have hle := hsorted.getElem_le (Nat.le_add_right i j) (by omega)
    rw [List.getElem_drop]
    simpa using hle
  have htake : (xs.take i).countP (fun x => key x < key xs[i]) ≤ i :=
    List.countP_le_length.trans (List.length_take_le i xs)
  calc xs.countP (fun x => key x < key xs[i])
      = (xs.take i).countP (fun x => key x < key xs[i]) +
          (xs.drop i).countP (fun x => key x < key xs[i]) := by
        rw [← List.countP_append, List.take_append_drop]
    _ ≤ i := by omega

/-- At least `i + 1` values are not above the one at position `i`. -/
theorem SortedBy.lt_countP_le (hsorted : SortedBy key xs) (hi : i < xs.length) :
    i + 1 ≤ xs.countP fun x => key x ≤ key xs[i] := by
  have htake : (xs.take (i + 1)).countP (fun x => key x ≤ key xs[i]) = i + 1 := by
    have hlength : (xs.take (i + 1)).length = i + 1 := by
      rw [List.length_take]
      omega
    refine (List.countP_eq_length.mpr ?_).trans hlength
    intro x hx
    obtain ⟨j, hj, rfl⟩ := List.mem_iff_getElem.mp hx
    rw [List.getElem_take]
    exact decide_eq_true (hsorted.getElem_le (by omega) hi)
  rw [← htake]
  exact (List.take_sublist _ _).countP_le

/-- The keys of a list sorted by them are the sorted keys. -/
theorem SortedBy.map_eq {keys : List β} (hsorted : SortedBy key xs) (hkeys : keys.Pairwise (· ≤ ·))
    (hperm : (xs.map key).Perm keys) : xs.map key = keys :=
  hperm.eq_of_pairwise (fun _ _ _ _ => le_antisymm) (List.pairwise_map.mpr hsorted) hkeys

end Order

/-! ### Mean and variance -/

section Spread

variable {K : Type*} [Field K]

def mean (xs : List K) : K := xs.sum / xs.length

/-- The mean square of the deviations from the mean. -/
def variance (xs : List K) : K := (xs.map fun x => (x - mean xs) ^ 2).sum / xs.length

theorem sum_sq_sub (xs : List K) (m a : K) :
    (xs.map fun x => (x - a) ^ 2).sum =
      (xs.map fun x => (x - m) ^ 2).sum + 2 * (m - a) * (xs.sum - xs.length * m) +
        xs.length * (m - a) ^ 2 := by
  induction xs with
  | nil => simp
  | cons x xs ih =>
    simp only [List.map_cons, List.sum_cons, List.length_cons, Nat.cast_succ, ih]
    ring

variable [LinearOrder K] [IsStrictOrderedRing K]

/-- Deviations from another point than the mean add the square of its distance. -/
theorem mean_sq_sub {xs : List K} (hne : xs ≠ []) (a : K) :
    (xs.map fun x => (x - a) ^ 2).sum / xs.length = variance xs + (mean xs - a) ^ 2 := by
  have hlength : (xs.length : K) ≠ 0 := by
    simpa using hne
  have hmean : xs.length * mean xs = xs.sum := by
    rw [mean]
    field_simp
  rw [sum_sq_sub xs (mean xs), variance, hmean]
  field_simp
  ring

theorem ediv_bounds (z : Int) {n : Nat} (hn : 0 < n) :
    ((z / n : Int) : K) ≤ z / n ∧ (z : K) / n < ((z / n : Int) : K) + 1 := by
  have hpos : (0 : K) < n := by exact_mod_cast hn
  have hlow : z / n * n ≤ z := Int.ediv_mul_le z (by omega)
  have hhigh : z < (z / n + 1) * n := Int.lt_ediv_add_one_mul_self z (by omega)
  rw [le_div_iff₀ hpos, div_lt_iff₀ hpos]
  exact ⟨by exact_mod_cast hlow, by exact_mod_cast hhigh⟩

/-- Rounding down the mean and then the mean square costs less than one. -/
theorem floored_variance {xs : List Int} (hne : xs ≠ []) :
    |(((xs.map fun x => (x - xs.sum / xs.length) ^ 2).sum / xs.length : Int) : K) -
      variance (xs.map (Int.cast : Int → K))| < 1 := by
  have hlength : 0 < xs.length := List.length_pos_of_ne_nil hne
  let ys : List K := xs.map Int.cast
  let a : Int := xs.sum / xs.length
  have hsquares : (((xs.map fun x => (x - a) ^ 2).sum : Int) : K) =
      (ys.map fun y => (y - (a : K)) ^ 2).sum := by
    rw [Int.cast_list_sum, List.map_map, List.map_map]
    exact congrArg List.sum (List.map_congr_left fun x _ => by simp)
  have hmean : mean ys = (xs.sum : K) / xs.length := by
    rw [mean, Int.cast_list_sum, List.length_map]
  have hdeviations := mean_sq_sub (show ys ≠ [] by simpa [ys] using hne) (a : K)
  rw [← hsquares, show ys.length = xs.length by simp [ys]] at hdeviations
  obtain ⟨hlow, hhigh⟩ := ediv_bounds (K := K) xs.sum hlength
  obtain ⟨hfloor, hnext⟩ := ediv_bounds (K := K) (xs.map fun x => (x - a) ^ 2).sum hlength
  rw [← hmean] at hlow hhigh
  -- the mean lies less than one above its floor, so that its square adds less than one
  have hsquare : 0 ≤ (mean ys - a) ^ 2 ∧ (mean ys - a) ^ 2 < 1 :=
    ⟨sq_nonneg _, by nlinarith⟩
  rw [abs_lt]
  constructor <;> linarith

end Spread

/-! ### Wrapping integers -/

section Wrapping

variable {w : Nat}

theorem natCast_toNat (x : BitVec w) : ((x.toNat : Int) : BitVec w) = x := by
  rw [Int.cast_natCast, BitVec.natCast_eq_ofNat, BitVec.ofNat_toNat, BitVec.setWidth_eq]

theorem toNat_intCast {z : Int} (hlow : 0 ≤ z) (hhigh : z < 2 ^ w) :
    (((z : BitVec w).toNat : Nat) : Int) = z := by
  have hnat : (z : BitVec w).toNat = (z % (2 ^ w : Nat)).toNat := BitVec.toNat_ofInt z
  rw [hnat, Int.emod_eq_of_lt hlow (by exact_mod_cast hhigh), Int.toNat_of_nonneg hlow]

/-- A sum that wraps is the sum of the integers, seen modulo `2 ^ w`. -/
theorem foldl_intCast (zs : List Int) :
    (zs.map (Int.cast : Int → BitVec w)).foldl (· + ·) 0 = ((zs.sum : Int) : BitVec w) := by
  rw [Int.cast_list_sum, List.sum_eq_foldl]

theorem toNat_foldl (xs : List (BitVec w)) :
    (xs.foldl (· + ·) 0).toNat = (xs.map BitVec.toNat).sum % 2 ^ w := by
  induction xs using List.reverseRecOn with
  | nil => simp
  | append_singleton xs x ih =>
    rw [List.foldl_concat, BitVec.toNat_add, ih, List.map_append, List.sum_append, List.map_singleton,
      List.sum_singleton, Nat.mod_add_mod]

/-- Squares of differences that wrap below zero come out right. -/
theorem foldl_sq_sub (xs : List (BitVec w)) (a : BitVec w) :
    (xs.map fun x => (x - a) * (x - a)).foldl (· + ·) 0 =
      (((xs.map fun x => ((x.toNat : Int) - a.toNat) ^ 2).sum : Int) : BitVec w) := by
  have hcast : (xs.map fun x => (x - a) * (x - a)) =
      (xs.map fun x => ((x.toNat : Int) - a.toNat) ^ 2).map (Int.cast : Int → BitVec w) := by
    rw [List.map_map]
    refine List.map_congr_left fun x _ => ?_
    rw [Function.comp_apply, Int.cast_pow, Int.cast_sub, natCast_toNat, natCast_toNat, sq]
  rw [hcast, foldl_intCast]

end Wrapping

end NdpOffload.Library.Samples
