import Mathlib.Data.List.GetD
import NdpOffload.Faasmspeed.Report
import NdpOffload.Library.Samples

/-! The figures of `print_stats`: the average and the variance in wrapping integers,
and the quantiles of a sorted column. -/
namespace NdpOffload.Faasmspeed.Statistics

open Library.Text Report

/-! ### Average and variance -/

/-- The variance that `print_stats` takes the root of. -/
def variance (sortedData : List U128) : U128 :=
  let avg := average sortedData
  let squares := sortedData.map fun x => (x - avg) * (x - avg)
  squares.foldl (· + ·) 0 / BitVec.ofNat 128 (max sortedData.length 1)

theorem stddev_eq (F : Type) [FloatOps F] (sortedData : List U128) :
    stddev F sortedData = FloatOps.sqrt (FloatOps.ofInt
      (if (variance sortedData).toNat < 2 ^ 64 then (variance sortedData).toNat else 0)) := rfl

section Figures

variable {data : List U128}

/-- The divisor is the length, which is a `usize`. -/
theorem toNat_cnt (hne : data ≠ []) (hlength : data.length < 2 ^ 64) :
    (BitVec.ofNat 128 (max data.length 1)).toNat = data.length := by
  have hpos := List.length_pos_of_ne_nil hne
  rw [BitVec.toNat_ofNat, max_eq_left (by omega), Nat.mod_eq_of_lt (by omega)]

theorem average_toNat (hne : data ≠ []) (hlength : data.length < 2 ^ 64) :
    (average data).toNat = (data.map BitVec.toNat).sum % 2 ^ 128 / data.length := by
  rw [average, BitVec.toNat_udiv, toNat_cnt hne hlength, Library.Samples.toNat_foldl]

theorem average_toNat_of_lt (hne : data ≠ []) (hlength : data.length < 2 ^ 64)
    (hsum : (data.map BitVec.toNat).sum < 2 ^ 128) :
    (average data).toNat = (data.map BitVec.toNat).sum / data.length := by
  rw [average_toNat hne hlength, Nat.mod_eq_of_lt hsum]

theorem average_le (hne : data ≠ []) (hlength : data.length < 2 ^ 64)
    (hsum : (data.map BitVec.toNat).sum < 2 ^ 128) {top : U128} (htop : ∀ x ∈ data, x ≤ top) :
    average data ≤ top := by
  rw [BitVec.le_def, average_toNat_of_lt hne hlength hsum]
  have hbound := List.sum_le_card_nsmul (data.map BitVec.toNat) top.toNat (by simpa [BitVec.le_def] using htop)
  rw [List.length_map, smul_eq_mul] at hbound
  exact Nat.div_le_of_le_mul hbound

theorem le_average (hne : data ≠ []) (hlength : data.length < 2 ^ 64)
    (hsum : (data.map BitVec.toNat).sum < 2 ^ 128) {low : U128} (hlow : ∀ x ∈ data, low ≤ x) :
    low ≤ average data := by
  rw [BitVec.le_def, average_toNat_of_lt hne hlength hsum]
  have hbound := List.card_nsmul_le_sum (data.map BitVec.toNat) low.toNat (by simpa [BitVec.le_def] using hlow)
  rw [List.length_map, smul_eq_mul] at hbound
  rw [Nat.le_div_iff_mul_le (List.length_pos_of_ne_nil hne), Nat.mul_comm]
  exact hbound

/-- The mean of the integers behind the data, rounded down. -/
def flooredMean (data : List U128) : Int := (data.map fun x => (x.toNat : Int)).sum / data.length

def squaredDeviations (data : List U128) : Int :=
  (data.map fun x => ((x.toNat : Int) - flooredMean data) ^ 2).sum

theorem average_eq (hne : data ≠ []) (hlength : data.length < 2 ^ 64)
    (hsum : (data.map BitVec.toNat).sum < 2 ^ 128) :
    ((average data).toNat : Int) = flooredMean data := by
  have hcast : (data.map fun x => (x.toNat : Int)).sum = ((data.map BitVec.toNat).sum : Nat) := by
    rw [Nat.cast_list_sum, List.map_map]
    rfl
  rw [average_toNat_of_lt hne hlength hsum, flooredMean, hcast, Int.natCast_ediv]

/-- The variance is the floor of the mean square around the floored mean, although the
differences wrap, and less than one away from the exact variance. -/
theorem variance_correct (hne : data ≠ []) (hlength : data.length < 2 ^ 64)
    (hsum : (data.map BitVec.toNat).sum < 2 ^ 128) (hsquares : squaredDeviations data < 2 ^ 128) :
    ((variance data).toNat : Int) = squaredDeviations data / data.length ∧
    |((variance data).toNat : ℚ) -
      Library.Samples.variance (data.map fun x => (x.toNat : ℚ))| < 1 := by
  have hnonneg : 0 ≤ squaredDeviations data :=
    List.sum_nonneg fun z hz => by
      obtain ⟨x, -, rfl⟩ := List.mem_map.mp hz
      exact sq_nonneg _
  have hfold : ((((data.map fun x => (x - average data) * (x - average data)).foldl
      (· + ·) 0).toNat : Nat) : Int) = squaredDeviations data := by
    rw [Library.Samples.foldl_sq_sub, average_eq hne hlength hsum]
    exact Library.Samples.toNat_intCast hnonneg hsquares
  have hvariance : ((variance data).toNat : Int) = squaredDeviations data / data.length := by
    rw [variance, BitVec.toNat_udiv, toNat_cnt hne hlength, Int.natCast_ediv, hfold]
  refine ⟨hvariance, ?_⟩
  have hne' : (data.map fun x => (x.toNat : Int)) ≠ [] := by simpa using hne
  have hclose := Library.Samples.floored_variance (K := ℚ) hne'
  rw [List.map_map, List.map_map, List.length_map] at hclose
  have hint : (((variance data).toNat : Int) : ℚ) = ((variance data).toNat : ℚ) := Int.cast_natCast _
  rw [← hint, hvariance]
  exact hclose

/-- Two values one below and one above their mean. -/
theorem variance_correct_pair :
    ((variance [3, 6]).toNat : Int) = squaredDeviations [3, 6] / 2 ∧
      squaredDeviations [3, 6] = 5 ∧ variance [3, 6] = 2 := by
  have hne : ([3, 6] : List U128) ≠ [] := by decide
  exact ⟨(variance_correct hne (by decide) (by decide) (by decide)).1, by decide, by decide⟩

end Figures

/-! ### Quantiles -/

/-- `sorted_data.nth(num * n / den)`, or zero past the end. -/
def quantile (sortedData : List U128) (num den : Nat) : U128 :=
  sortedData.getD (num * sortedData.length / den) 0

def fractions : List (Nat × Nat) := [(1, 100), (1, 4), (1, 2), (3, 4), (99, 100)]

/-- The minimum, the quantiles and the maximum, as they are printed. -/
def shown (sortedData : List U128) : List U128 :=
  quantile sortedData 0 1 :: fractions.map (fun f => quantile sortedData f.1 f.2) ++
    [sortedData.getLastD 0]

theorem statFields_shown (F : Type) [FloatOps F] (sortedData : List U128) :
    (statFields F sortedData).take 7 =
      ["min".toList, "q1pct".toList, "q1".toList, "med".toList, "q3".toList, "q99pct".toList,
        "max".toList].zip ((shown sortedData).map fun q => decimal q.toNat) := by
  simp [statFields, shown, fractions, quantile]

/-- What the figures of a column say about it. -/
structure OrderStatistics (data : List U128) : Prop where
  index : ∀ f ∈ fractions, f.1 * data.length / f.2 < data.length
  mem : ∀ q ∈ shown data, q ∈ data
  ordered : (shown data).Pairwise (· ≤ ·)
  average : quantile data 0 1 ≤ average data ∧ average data ≤ data.getLastD 0
  extremes : ∀ x ∈ data, quantile data 0 1 ≤ x ∧ x ≤ data.getLastD 0
  counts : ∀ f ∈ fractions,
    data.countP (· < quantile data f.1 f.2) ≤ f.1 * data.length / f.2 ∧
      f.1 * data.length / f.2 + 1 ≤ data.countP (· ≤ quantile data f.1 f.2)

section Quantiles

variable {data : List U128}

/-- The positions that are read, in the order in which the figures are printed. -/
def positions (n : Nat) : List Nat :=
  [0, 1 * n / 100, 1 * n / 4, 1 * n / 2, 3 * n / 4, 99 * n / 100, n - 1]

theorem positions_sorted {n : Nat} (hpos : 0 < n) :
    (positions n).Pairwise (· ≤ ·) ∧ ∀ i ∈ positions n, i < n := by
  constructor
  · simp [positions]
    omega
  · simp [positions]
    omega

theorem shown_eq (data : List U128) :
    shown data = (positions data.length).map fun i => data.getD i 0 := by
  simp [shown, positions, fractions, quantile, List.getLast?_eq_getElem?]

theorem getD_le_getD (hsorted : Library.Samples.SortedBy BitVec.toNat data) {i j : Nat} (hij : i ≤ j)
    (hj : j < data.length) : data.getD i 0 ≤ data.getD j 0 := by
  rw [List.getD_eq_getElem _ _ (by omega), List.getD_eq_getElem _ _ hj]
  exact hsorted.getElem_le hij hj

theorem orderStatistics (hsorted : Library.Samples.SortedBy BitVec.toNat data) (hne : data ≠ [])
    (hlength : data.length < 2 ^ 64) (hsum : (data.map BitVec.toNat).sum < 2 ^ 128) :
    OrderStatistics data := by
  have hpos := List.length_pos_of_ne_nil hne
  obtain ⟨hordered, hbounds⟩ := positions_sorted hpos
  have hmem : ∀ i < data.length, data.getD i 0 ∈ data := by
    intro i hi
    rw [List.getD_eq_getElem _ _ hi]
    exact List.getElem_mem hi
  have hindex : ∀ f ∈ fractions, f.1 * data.length / f.2 < data.length := by
    intro f hf
    simp only [fractions, List.mem_cons, List.not_mem_nil, or_false] at hf
    rcases hf with rfl | rfl | rfl | rfl | rfl <;> dsimp only <;> omega
  have hlast : data.getLastD 0 = data.getD (data.length - 1) 0 := by
    rw [List.getLastD_eq_getLast?, List.getLast?_eq_getElem?, List.getD_eq_getElem?_getD]
  have hextremes : ∀ x ∈ data, quantile data 0 1 ≤ x ∧ x ≤ data.getLastD 0 := by
    intro x hx
    obtain ⟨i, hi, rfl⟩ := List.mem_iff_getElem.mp hx
    rw [hlast, ← List.getD_eq_getElem _ 0 hi, quantile, Nat.zero_mul, Nat.zero_div]
    exact ⟨getD_le_getD hsorted (Nat.zero_le i) hi, getD_le_getD hsorted (by omega) (by omega)⟩
  refine ⟨hindex, ?_, ?_, ?_, hextremes, ?_⟩
  · intro q hq
    rw [shown_eq] at hq
    obtain ⟨i, hi, rfl⟩ := List.mem_map.mp hq
    exact hmem i (hbounds i hi)
  · rw [shown_eq, List.pairwise_map]
    exact hordered.imp_of_mem fun _ hj hij => getD_le_getD hsorted hij (hbounds _ hj)
  · exact ⟨le_average hne hlength hsum fun x hx => (hextremes x hx).1,
      average_le hne hlength hsum fun x hx => (hextremes x hx).2⟩
  · intro f hf
    have hi := hindex f hf
    rw [quantile, List.getD_eq_getElem _ _ hi]
    exact ⟨hsorted.countP_lt_le hi, hsorted.lt_countP_le hi⟩

end Quantiles

end NdpOffload.Faasmspeed.Statistics
