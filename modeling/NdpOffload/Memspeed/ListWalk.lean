import Mathlib.Algebra.Ring.Nat
import Mathlib.Logic.Function.Iterate
import Mathlib.Tactic.Common

/-! The read benchmarks of `memspeed/src/cpuonly.cpp`: `BM_cpu_memread_linear` and
`BM_cpu_memread_listwalk`, one pass of each over an array of any contents. -/
namespace NdpOffload.Memspeed.ListWalk

abbrev Word := UInt32

variable (src : List Word)

/-- The elements that `BM_cpu_memread_linear` reads in one pass, in order. -/
def linearPass : List Nat :=
  (List.range src.length).foldl (fun reads i => reads ++ [i]) []

/-- A size is a `size_t`. -/
def lenMask : UInt64 := UInt64.ofNat src.length - 1

/-- The variable `idx` and the elements read so far. -/
structure Walk where
  idx : UInt64
  reads : List Nat

/-- `idx = src[i] & len_mask;` -/
def Walk.load (walk : Walk) (i : Nat) : Walk where
  idx := (src.getD i 0).toUInt64 &&& lenMask src
  reads := walk.reads ++ [i]

/-- One pass of `BM_cpu_memread_listwalk`. -/
def listwalkPass (idx : UInt64) : Walk :=
  (List.range src.length).foldl (Walk.load src) ⟨idx, []⟩

/-- Where an element of the list points to. -/
def next (j : Nat) : Nat := ((src.getD j 0).toUInt64 &&& lenMask src).toNat

/-- The pass follows the list from `idx`. -/
structure Chained (idx : UInt64) : Prop where
  reads : (listwalkPass src idx).reads =
    (List.range src.length).map fun i => (next src)^[i] idx.toNat
  inside : ∀ i < src.length, (next src)^[i] idx.toNat < src.length
  final : (listwalkPass src idx).idx.toNat = (next src)^[src.length] idx.toNat

variable {src}

theorem foldl_load (idx : UInt64) (n : Nat) :
    (List.range (n + 1)).foldl (Walk.load src) ⟨idx, []⟩ =
      ⟨(src.getD n 0).toUInt64 &&& lenMask src, List.range (n + 1)⟩ := by
  induction n with
  | zero => rfl
  | succ n ih =>
    rw [List.range_succ, List.foldl_append, ih]
    rfl

/-- The loads come in the order of the array, and only the last one decides `idx`. -/
theorem listwalkPass_eq (hne : 0 < src.length) (idx : UInt64) :
    (listwalkPass src idx).reads = List.range src.length ∧
      (listwalkPass src idx).idx.toNat = next src (src.length - 1) := by
  obtain ⟨n, hn⟩ := Nat.exists_eq_add_of_lt hne
  rw [Nat.zero_add] at hn
  rw [listwalkPass, hn, foldl_load]
  exact ⟨rfl, rfl⟩

theorem linearPass_eq : linearPass src = List.range src.length := by
  have hgeneral : ∀ n, (List.range n).foldl (fun reads i => reads ++ [i]) [] = List.range n := by
    intro n
    induction n with
    | zero => rfl
    | succ n ih =>
      rw [List.range_succ, List.foldl_append, ih]
      rfl
  exact hgeneral src.length

/-- The two benchmarks read the same elements in the same order. -/
theorem listwalk_reads_linearly (hne : 0 < src.length) (idx : UInt64) :
    (listwalkPass src idx).reads = linearPass src := by
  rw [(listwalkPass_eq hne idx).1, linearPass_eq]

theorem toNat_lenMask {k : Nat} (hk : k < 64) (hlength : src.length = 2 ^ k) :
    (lenMask src).toNat = 2 ^ k - 1 := by
  have hpow : 2 ^ k < 2 ^ 64 := Nat.pow_lt_pow_right (by decide) hk
  have hpos : 0 < 2 ^ k := Nat.two_pow_pos k
  have hsize : (UInt64.ofNat (2 ^ k)).toNat = 2 ^ k := UInt64.toNat_ofNat_of_lt' hpow
  rw [lenMask, hlength, UInt64.toNat_sub_of_le, hsize]
  · rfl
  · rw [UInt64.le_iff_toNat_le, hsize]
    exact hpos

theorem next_lt {k : Nat} (hk : k < 64) (hlength : src.length = 2 ^ k) (j : Nat) :
    next src j < src.length := by
  have hpos : 0 < 2 ^ k := Nat.two_pow_pos k
  have hle : next src j ≤ 2 ^ k - 1 := by
    rw [next, UInt64.toNat_and, toNat_lenMask hk hlength]
    exact Nat.and_le_right
  omega

/-- The mask of a power of two keeps the list inside the array. -/
theorem iterate_next_lt {k : Nat} (hk : k < 64) (hlength : src.length = 2 ^ k) {j : Nat}
    (hj : j < src.length) (i : Nat) : (next src)^[i] j < src.length := by
  cases i with
  | zero => exact hj
  | succ i =>
    rw [Function.iterate_succ_apply']
    exact next_lt hk hlength _

/-- Whatever the length, a pass is a walk along the list exactly when the list runs
through the array from front to back, beginning at the front. -/
theorem listwalk_chained_iff {idx : UInt64} (hidx : idx.toNat < src.length) :
    Chained src idx ↔ idx = 0 ∧ ∀ i, i + 1 < src.length → next src i = i + 1 := by
  have hne : 0 < src.length := Nat.zero_lt_of_lt hidx
  obtain ⟨hreads, hfinal⟩ := listwalkPass_eq hne idx
  constructor
  · intro hchained
    have hsame : ∀ i < src.length, (next src)^[i] idx.toNat = i := by
      intro i hi
      have hall := hchained.reads
      rw [hreads] at hall
      have hget := congrArg (·[i]?) hall
      simpa [hi, eq_comm] using hget
    refine ⟨?_, fun i hi => ?_⟩
    · rw [← UInt64.toNat_inj]
      exact hsame 0 (by omega)
    · have hhere := hsame i (by omega)
      have hthere := hsame (i + 1) hi
      rwa [Function.iterate_succ_apply', hhere] at hthere
  · rintro ⟨rfl, hnext⟩
    have hsame : ∀ i < src.length, (next src)^[i] (0 : UInt64).toNat = i := by
      intro i hi
      induction i with
      | zero => rfl
      | succ i ih => rw [Function.iterate_succ_apply', ih (by omega), hnext i hi]
    refine ⟨?_, fun i hi => by rwa [hsame i hi], ?_⟩
    · rw [hreads]
      apply List.ext_getElem (by simp)
      intro i hi _
      rw [List.length_range] at hi
      rw [List.getElem_range, List.getElem_map, List.getElem_range, hsame i hi]
    · have hlast : src.length = (src.length - 1) + 1 := by omega
      rw [hfinal, hlast, Function.iterate_succ_apply', hsame (src.length - 1) (by omega)]
      rfl

theorem listwalk_chained_two :
    (0 : UInt64).toNat < [(1 : Word), 6].length ∧ Chained [1, 6] 0 := by
  refine ⟨by decide, (listwalk_chained_iff (by decide)).mpr ⟨rfl, fun i hi => ?_⟩⟩
  obtain rfl : i = 0 := by
    simp only [List.length_cons, List.length_nil] at hi
    omega
  decide

/-- The first pass of the smallest benchmark: its seed gives these two elements and then
begins at the second one, which points to the first. -/
def seeded : List Word := [707149097, 541492222]

theorem seeded_unchained : (listwalkPass seeded 1).reads = [0, 1] ∧
    (List.range 2).map (fun i => (next seeded)^[i] 1) = [1, 0] ∧ ¬ Chained seeded 1 := by
  refine ⟨rfl, by decide, fun hchained => ?_⟩
  have hreads := hchained.reads
  revert hreads
  decide

end NdpOffload.Memspeed.ListWalk
