import Mathlib.Data.List.Sort
import NdpOffload.Faasmspeed.Statistics
import NdpOffload.Library.Backward

/-! The vector of results at the end of `async_main`: the start times become intervals
in place, and the same vector is sorted anew for each of the four reports. -/
namespace NdpOffload.Faasmspeed.Intervals

open Library.Backward Library.Samples Generator Report Statistics

deriving instance DecidableEq for RequestResult

/-- `results[i].start_time -= results[i - 1].start_time`, which wraps. -/
def subtractStart (previous r : RequestResult) : RequestResult :=
  { r with
    startTime := (BitVec.ofNat 128 r.startTime - BitVec.ofNat 128 previous.startTime).toNat }

/-- Of more than two results the first one gets the interval of the second. -/
def fillFirst : List RequestResult → List RequestResult
  | first :: second :: third :: rest =>
      { first with startTime := second.startTime } :: second :: third :: rest
  | results => results

def intervalPass (results : List RequestResult) : List RequestResult :=
  fillFirst (sweep subtractStart results)

/-- What an unstable sort may leave. -/
structure SortsBy (key : RequestResult → Nat) (before after : List RequestResult) : Prop where
  perm : after.Perm before
  sorted : SortedBy key after

/-- The vector after each of its sorts. -/
structure Passes (results : List RequestResult) where
  byStart : List RequestResult
  gaps : List RequestResult
  byRequest : List RequestResult
  byStatus : List RequestResult
  byBytes : List RequestResult
  sortsStart : SortsBy (·.startTime) results byStart
  sortsGaps : SortsBy (·.startTime) (intervalPass byStart) gaps
  sortsRequest : SortsBy (·.usRequest) gaps byRequest
  sortsStatus : SortsBy (·.usStatus) byRequest byStatus
  sortsBytes : SortsBy (·.numBytes) byStatus byBytes

def sortBy (key : RequestResult → Nat) (results : List RequestResult) : List RequestResult :=
  results.insertionSort fun r r' => key r ≤ key r'

theorem sortsBy_sortBy (key : RequestResult → Nat) (results : List RequestResult) :
    SortsBy key results (sortBy key results) := by
  have : Std.Total fun r r' : RequestResult => key r ≤ key r' := ⟨fun r r' => Nat.le_total _ _⟩
  have : IsTrans RequestResult fun r r' => key r ≤ key r' := ⟨fun _ _ _ => Nat.le_trans⟩
  exact ⟨List.perm_insertionSort _ results, List.pairwise_insertionSort _ results⟩

/-- The passes of a stable sort. -/
def Passes.stable (results : List RequestResult) : Passes results :=
  let byStart := sortBy (·.startTime) results
  let gaps := sortBy (·.startTime) (intervalPass byStart)
  let byRequest := sortBy (·.usRequest) gaps
  let byStatus := sortBy (·.usStatus) byRequest
  ⟨byStart, gaps, byRequest, byStatus, sortBy (·.numBytes) byStatus, sortsBy_sortBy _ _,
    sortsBy_sortBy _ _, sortsBy_sortBy _ _, sortsBy_sortBy _ _, sortsBy_sortBy _ _⟩

/-- The bounds of the fields' types. -/
structure Fits (r : RequestResult) : Prop where
  usRequest : r.usRequest < 2 ^ 128
  usStatus : r.usStatus < 2 ^ 128
  numBytes : r.numBytes < 2 ^ 64
  startTime : r.startTime < 2 ^ 128

/-- What a report iterates over. -/
def values (field : RequestResult → Nat) (results : List RequestResult) : List U128 :=
  results.map fun r => BitVec.ofNat 128 (field r)

/-! ### Sorted columns -/

theorem perm_sorted (data : List U128) : (sorted data).Perm data := List.mergeSort_perm _ _

theorem pairwise_sorted (data : List U128) : (sorted data).Pairwise (· ≤ ·) := by
  have hsorted : (sorted data).Pairwise fun x y => decide (x ≤ y) = true := by
    refine List.pairwise_mergeSort (fun x y z hxy hyz => ?_) (fun x y => ?_) data
    · exact decide_eq_true (BitVec.le_trans (of_decide_eq_true hxy) (of_decide_eq_true hyz))
    · simpa using BitVec.le_total x y
  simpa only [decide_eq_true_eq] using hsorted

theorem eq_sorted {data other : List U128} (hperm : data.Perm other)
    (hsorted : data.Pairwise (· ≤ ·)) : data = sorted other :=
  (hperm.trans (perm_sorted other).symm).eq_of_pairwise (fun _ _ _ _ => BitVec.le_antisymm) hsorted
    (pairwise_sorted other)

section Sorts

variable {field : RequestResult → Nat} {results before after : List RequestResult}

theorem column_perm (hperm : after.Perm before) : column field after = column field before :=
  eq_sorted ((perm_sorted _).trans (hperm.map _)) (pairwise_sorted _)

theorem toNat_values (hfits : ∀ r ∈ after, field r < 2 ^ 128) :
    (values field after).map BitVec.toNat = after.map field := by
  rw [values, List.map_map]
  refine List.map_congr_left fun r hr => ?_
  rw [Function.comp_apply, BitVec.toNat_ofNat, Nat.mod_eq_of_lt (hfits r hr)]

theorem sortedBy_values (hsorted : SortedBy field after) (hfits : ∀ r ∈ after, field r < 2 ^ 128) :
    SortedBy BitVec.toNat (values field after) := by
  rw [SortedBy, ← List.pairwise_map (f := BitVec.toNat) (R := (· ≤ ·)), toNat_values hfits]
  exact List.pairwise_map.mpr hsorted

/-- After a sort by a field, its values are the column of the results. -/
theorem SortsBy.values_eq (hsorts : SortsBy field before after)
    (hperm : (before.map field).Perm (results.map field))
    (hfits : ∀ r ∈ results, field r < 2 ^ 128) : values field after = column field results := by
  have hsame : (after.map field).Perm (results.map field) := (hsorts.perm.map field).trans hperm
  have hafter : ∀ r ∈ after, field r < 2 ^ 128 := by
    intro r hr
    obtain ⟨r', hr', heq⟩ := List.mem_map.mp (hsame.mem_iff.mp (List.mem_map_of_mem hr))
    rw [← heq]
    exact hfits r' hr'
  have hvalues : (values field after).Perm (values field results) := by
    have hmapped := hsame.map (BitVec.ofNat 128)
    rw [List.map_map, List.map_map] at hmapped
    exact hmapped
  exact eq_sorted hvalues (sortedBy_values hsorts.sorted hafter)

end Sorts

/-! ### The loop in place -/

/-- All that a report shows but the start time. -/
def triple (r : RequestResult) : Nat × Nat × Nat := (r.usRequest, r.usStatus, r.numBytes)

theorem map_fillFirst {β : Type*} {g : RequestResult → β}
    (hg : ∀ r time, g { r with startTime := time } = g r) (results : List RequestResult) :
    (fillFirst results).map g = results.map g := by
  match results with
  | first :: second :: third :: rest => simp [fillFirst, hg]
  | [] | [_] | [_, _] => rfl

/-- What does not depend on the start times is left alone. -/
theorem map_intervalPass {β : Type*} {g : RequestResult → β}
    (hg : ∀ r time, g { r with startTime := time } = g r) (results : List RequestResult) :
    (intervalPass results).map g = results.map g := by
  have hswept : (sweep subtractStart results).map g = sweep (fun _ kept => kept) (results.map g) :=
    map_sweep (fun _ r => hg r _) results
  rw [intervalPass, map_fillFirst hg, hswept, sweep_right]

theorem subtractStart_startTime {previous r : RequestResult} (hle : previous.startTime ≤ r.startTime)
    (hfits : r.startTime < 2 ^ 128) :
    (subtractStart previous r).startTime = r.startTime - previous.startTime := by
  show (BitVec.ofNat 128 r.startTime - BitVec.ofNat 128 previous.startTime).toNat = _
  rw [BitVec.toNat_sub, BitVec.toNat_ofNat, BitVec.toNat_ofNat]
  omega

section Passes

variable {results : List RequestResult} (p : Passes results)

namespace Passes

theorem gaps_perm {β : Type*} {g : RequestResult → β}
    (hg : ∀ r time, g { r with startTime := time } = g r) :
    (p.gaps.map g).Perm (results.map g) := by
  have hperm := p.sortsGaps.perm.map g
  rw [map_intervalPass hg] at hperm
  exact hperm.trans (p.sortsStart.perm.map g)

theorem length_gaps : p.gaps.length = results.length := by
  have hlength := (p.gaps_perm (g := fun _ => ()) fun _ _ => rfl).length_eq
  simpa using hlength

/-- In the loop, the smaller start time is subtracted from the larger one. -/
theorem no_underflow {front rest : List Nat} {i : Nat}
    (hindices : indices p.byStart.length = front ++ i :: rest) :
    ∃ previous r, (meets subtractStart front p.byStart)[i - 1]? = some previous ∧
      (meets subtractStart front p.byStart)[i]? = some r ∧ previous.startTime ≤ r.startTime := by
  have hi : i < p.byStart.length := by
    have hmem : i ∈ indices p.byStart.length := by
      rw [hindices]
      simp
    simp only [indices, List.mem_reverse, List.mem_range'_1] at hmem
    omega
  refine ⟨p.byStart[i - 1], p.byStart[i], ?_, ?_, p.sortsStart.sorted.getElem_le (by omega) hi⟩
  · rw [meets_before subtractStart hindices (Nat.sub_le i 1), List.getElem?_eq_getElem (by omega)]
  · rw [meets_before subtractStart hindices (Nat.le_refl i), List.getElem?_eq_getElem hi]

end Passes

end Passes

/-! ### The columns -/

theorem sweep_eq_foldl (times : List U128) :
    sweep (fun previous time => time - previous) times =
      (List.range' 1 (times.length - 1)).reverse.foldl
        (fun times i => times.set i (times.getD i 0 - times.getD (i - 1) 0)) times := by
  rw [sweep, meets, indices]
  congr 1
  funext times i
  unfold meet
  cases hi : times[i]? with
  | none =>
    rw [List.set_eq_of_length_le (List.getElem?_eq_none_iff.mp hi)]
    cases times[i - 1]? <;> rfl
  | some time =>
    obtain ⟨hlt, -⟩ := List.getElem?_eq_some_iff.mp hi
    rw [List.getElem?_eq_getElem (show i - 1 < times.length by omega), List.getD_eq_getElem?_getD, hi,
      List.getD_eq_getElem _ _ (show i - 1 < times.length by omega)]
    rfl

theorem values_fillFirst (results : List RequestResult) :
    values (·.startTime) (fillFirst results) =
      if 2 < (values (·.startTime) results).length then
        (values (·.startTime) results).set 0 ((values (·.startTime) results).getD 1 0)
      else values (·.startTime) results := by
  match results with
  | first :: second :: third :: rest => simp [fillFirst, values]
  | [] | [_] | [_, _] => rfl

theorem intervals_values (results : List RequestResult) :
    intervals (values (·.startTime) results) = values (·.startTime) (intervalPass results) := by
  have hsub : ∀ previous r, BitVec.ofNat 128 (subtractStart previous r).startTime =
      BitVec.ofNat 128 r.startTime - BitVec.ofNat 128 previous.startTime := by
    intro previous r
    rw [subtractStart, BitVec.ofNat_toNat, BitVec.setWidth_eq]
  have hswept : values (·.startTime) (sweep subtractStart results) =
      sweep (fun previous time => time - previous) (values (·.startTime) results) :=
    map_sweep hsub results
  rw [intervalPass, values_fillFirst, hswept, sweep_eq_foldl]
  rfl

theorem startTime_fillFirst_lt {results : List RequestResult} {bound : Nat}
    (hbound : ∀ r ∈ results, r.startTime < bound) :
    ∀ r ∈ fillFirst results, r.startTime < bound := by
  match results with
  | first :: second :: third :: rest =>
    intro r hr
    rcases List.mem_cons.mp hr with rfl | hrest
    · exact hbound second (by simp)
    · exact hbound r (List.mem_cons_of_mem first hrest)
  | [] | [_] | [_, _] => exact hbound

theorem startTime_intervalPass_lt {results : List RequestResult}
    (hfits : ∀ r ∈ results, r.startTime < 2 ^ 128) :
    ∀ r ∈ intervalPass results, r.startTime < 2 ^ 128 := by
  apply startTime_fillFirst_lt
  intro r hr
  cases results with
  | nil => exact absurd hr List.not_mem_nil
  | cons first rest =>
    rw [sweep_cons, List.mem_cons] at hr
    rcases hr with rfl | hr
    · exact hfits r List.mem_cons_self
    · obtain ⟨i, hi, rfl⟩ := List.mem_iff_getElem.mp hr
      rw [List.getElem_zipWith]
      exact BitVec.isLt _

namespace Passes

variable {results : List RequestResult} (p : Passes results)

/-- What the four calls of `print_stats` get. -/
def reported : List (List U128) :=
  [values (·.startTime) p.gaps, values (·.usRequest) p.byRequest, values (·.usStatus) p.byStatus,
    values (·.numBytes) p.byBytes]

theorem perm_byRequest : p.byRequest.Perm p.gaps := p.sortsRequest.perm

theorem perm_byStatus : p.byStatus.Perm p.gaps := p.sortsStatus.perm.trans p.perm_byRequest

theorem perm_byBytes : p.byBytes.Perm p.gaps := p.sortsBytes.perm.trans p.perm_byStatus

theorem values_gaps (hfits : ∀ r ∈ results, r.startTime < 2 ^ 128) :
    values (·.startTime) p.gaps = sorted (intervals (column (·.startTime) results)) := by
  have hstart := p.sortsStart.values_eq (List.Perm.refl _) hfits
  have hfits' : ∀ r ∈ p.byStart, r.startTime < 2 ^ 128 :=
    fun r hr => hfits r (p.sortsStart.perm.mem_iff.mp hr)
  rw [p.sortsGaps.values_eq (List.Perm.refl _) (startTime_intervalPass_lt hfits'), ← hstart,
    intervals_values]
  rfl

/-- The four columns are those of the report. -/
theorem reported_eq (hfits : ∀ r ∈ results, Fits r) :
    p.reported = [sorted (intervals (column (·.startTime) results)), column (·.usRequest) results,
      column (·.usStatus) results, column (·.numBytes) results] := by
  have hrequest := p.sortsRequest.values_eq (p.gaps_perm fun _ _ => rfl) fun r hr => (hfits r hr).usRequest
  have hstatus := p.sortsStatus.values_eq
    ((p.perm_byRequest.map _).trans (p.gaps_perm fun _ _ => rfl)) fun r hr => (hfits r hr).usStatus
  have hbytes := p.sortsBytes.values_eq
    ((p.perm_byStatus.map _).trans (p.gaps_perm fun _ _ => rfl))
    fun r hr => (hfits r hr).numBytes.trans (by decide)
  rw [reported, p.values_gaps fun r hr => (hfits r hr).startTime, hrequest, hstatus, hbytes]

end Passes

/-- Each column is a sorted rearrangement of as many values as there are results. -/
theorem Passes.reported_sorted {results : List RequestResult} (p : Passes results)
    (hfits : ∀ r ∈ results, Fits r) {data : List U128} (hdata : data ∈ p.reported) :
    SortedBy BitVec.toNat data ∧ data.length = results.length := by
  constructor
  · rw [p.reported_eq hfits] at hdata
    simp only [List.mem_cons, List.not_mem_nil, or_false] at hdata
    rcases hdata with rfl | rfl | rfl | rfl <;> exact pairwise_sorted _
  · simp only [reported, List.mem_cons, List.not_mem_nil, or_false] at hdata
    rcases hdata with rfl | rfl | rfl | rfl <;> rw [values, List.length_map]
    · exact p.length_gaps
    · exact p.perm_byRequest.length_eq.trans p.length_gaps
    · exact p.perm_byStatus.length_eq.trans p.length_gaps
    · exact p.perm_byBytes.length_eq.trans p.length_gaps

/-- Three results in the order in which their tasks finished. -/
def finished : List RequestResult := [⟨900, 700, 64, 30⟩, ⟨400, 300, 64, 10⟩, ⟨500, 450, 32, 12⟩]

theorem finished_fits : ∀ r ∈ finished, Fits r := by
  simp only [finished, List.forall_mem_cons]
  refine ⟨?_, ?_, ?_, fun _ hr => absurd hr List.not_mem_nil⟩ <;> constructor <;> decide

/-- Two of the intervals are equal and may come in either order. -/
def finishedPasses : Passes finished where
  byStart := [⟨400, 300, 64, 10⟩, ⟨500, 450, 32, 12⟩, ⟨900, 700, 64, 30⟩]
  gaps := [⟨500, 450, 32, 2⟩, ⟨400, 300, 64, 2⟩, ⟨900, 700, 64, 18⟩]
  byRequest := [⟨400, 300, 64, 2⟩, ⟨500, 450, 32, 2⟩, ⟨900, 700, 64, 18⟩]
  byStatus := [⟨400, 300, 64, 2⟩, ⟨500, 450, 32, 2⟩, ⟨900, 700, 64, 18⟩]
  byBytes := [⟨500, 450, 32, 2⟩, ⟨900, 700, 64, 18⟩, ⟨400, 300, 64, 2⟩]
  sortsStart := ⟨by decide, by unfold SortedBy; decide⟩
  sortsGaps := ⟨by decide, by unfold SortedBy; decide⟩
  sortsRequest := ⟨by decide, by unfold SortedBy; decide⟩
  sortsStatus := ⟨by decide, by unfold SortedBy; decide⟩
  sortsBytes := ⟨by decide, by unfold SortedBy; decide⟩

/-- Each report shows order statistics of its column. -/
theorem quantiles_ordered {results : List RequestResult} (hne : results ≠ [])
    (hlength : 99 * results.length < 2 ^ 64) (hfits : ∀ r ∈ results, Fits r) (p : Passes results)
    (hsum : ∀ data ∈ p.reported, (data.map BitVec.toNat).sum < 2 ^ 128) :
    ∀ data ∈ p.reported, OrderStatistics data ∧
      ∀ (F : Type) [FloatOps F], (statFields F data).take 7 =
        ["min".toList, "q1pct".toList, "q1".toList, "med".toList, "q3".toList, "q99pct".toList,
          "max".toList].zip ((shown data).map fun q => Library.Text.decimal q.toNat) := by
  intro data hdata
  obtain ⟨hsorted, hdatalength⟩ := p.reported_sorted hfits hdata
  have hpos := List.length_pos_of_ne_nil hne
  refine ⟨orderStatistics hsorted (List.ne_nil_of_length_pos (by omega)) (by omega) (hsum data hdata),
    fun F _ => statFields_shown F data⟩

/-- The median interval is one of the two equal ones. -/
theorem quantiles_ordered_finished :
    OrderStatistics (values (·.startTime) finishedPasses.gaps) ∧
      shown (values (·.startTime) finishedPasses.gaps) = [2, 2, 2, 2, 18, 18, 18] := by
  have hsum : ∀ data ∈ finishedPasses.reported, (data.map BitVec.toNat).sum < 2 ^ 128 := by decide
  exact ⟨(quantiles_ordered (by decide) (by decide) finished_fits finishedPasses hsum _
    List.mem_cons_self).1, by decide⟩

/-- The loop never subtracts the larger start time, the pass leaves the rest of the
results alone, and the other reports are those of the results in any order. -/
theorem interval_pass_frame {results : List RequestResult} (hfits : ∀ r ∈ results, Fits r)
    (p : Passes results) :
    (∀ front i rest, indices p.byStart.length = front ++ i :: rest →
      ∃ previous r, (meets subtractStart front p.byStart)[i - 1]? = some previous ∧
        (meets subtractStart front p.byStart)[i]? = some r ∧ previous.startTime ≤ r.startTime) ∧
    p.gaps.length = results.length ∧
    (p.gaps.map triple).Perm (results.map triple) ∧
    ∀ collected, collected.Perm results →
      p.reported = [sorted (intervals (column (·.startTime) collected)),
        column (·.usRequest) collected, column (·.usStatus) collected,
        column (·.numBytes) collected] := by
  refine ⟨fun front i rest => p.no_underflow, p.length_gaps, p.gaps_perm fun _ _ => rfl, ?_⟩
  intro collected hperm
  rw [p.reported_eq hfits, column_perm hperm, column_perm hperm, column_perm hperm, column_perm hperm]

theorem interval_pass_frame_finished :
    (finishedPasses.gaps.map triple).Perm (finished.map triple) ∧
      values (·.numBytes) finishedPasses.byBytes = column (·.numBytes) finished.reverse ∧
      values (·.numBytes) finishedPasses.byBytes = [32, 64, 64] := by
  obtain ⟨-, -, htriples, hcolumns⟩ := interval_pass_frame finished_fits finishedPasses
  have hreported := hcolumns finished.reverse (List.reverse_perm finished)
  simp only [Passes.reported, List.cons.injEq] at hreported
  exact ⟨htriples, hreported.2.2.2.1, by decide⟩

/-! ### The interval column -/

/-- The start times in order. -/
def startTimes (results : List RequestResult) : List Nat :=
  (results.map (·.startTime)).insertionSort (· ≤ ·)

/-- The gaps between neighbours, and the first gap once more. -/
def gapValues (times : List Nat) : List Nat := differences times ++ (differences times).take 1

/-- From the first start to the last, and the first gap once more. -/
def spread (times : List Nat) : Nat :=
  (times.getLastD 0 - times.headD 0) + (times.getD 1 0 - times.headD 0)

def delay (c : Nat) (r : RequestResult) : RequestResult := { r with startTime := r.startTime + c }

/-- What the pass makes of sorted start times. -/
def passTimes : List Nat → List Nat
  | first :: second :: third :: rest =>
      (second - first) :: differences (first :: second :: third :: rest)
  | first :: rest => first :: differences (first :: rest)
  | [] => []

theorem pairwise_startTimes (results : List RequestResult) :
    (startTimes results).Pairwise (· ≤ ·) := List.pairwise_insertionSort _ _

theorem perm_startTimes (results : List RequestResult) :
    (startTimes results).Perm (results.map (·.startTime)) := List.perm_insertionSort _ _

theorem length_startTimes (results : List RequestResult) :
    (startTimes results).length = results.length := by
  rw [(perm_startTimes results).length_eq, List.length_map]

theorem startTimes_delay (c : Nat) (results : List RequestResult) :
    startTimes (results.map (delay c)) = (startTimes results).map (· + c) := by
  have hperm : (startTimes (results.map (delay c))).Perm ((startTimes results).map (· + c)) := by
    refine (perm_startTimes _).trans ?_
    have hmapped := (perm_startTimes results).symm.map (· + c)
    rw [List.map_map] at hmapped ⊢
    exact hmapped
  refine hperm.eq_of_pairwise (fun _ _ _ _ => Nat.le_antisymm) (pairwise_startTimes _) ?_
  exact List.pairwise_map.mpr ((pairwise_startTimes results).imp fun hle => Nat.add_le_add_right hle c)

theorem startTime_differences {r : RequestResult} {rs : List RequestResult}
    (hsorted : SortedBy (·.startTime) (r :: rs)) (hfits : ∀ r' ∈ rs, r'.startTime < 2 ^ 128) :
    (List.zipWith subtractStart (r :: rs) rs).map (·.startTime) =
      differences ((r :: rs).map (·.startTime)) := by
  induction rs generalizing r with
  | nil => rfl
  | cons r' rs ih =>
    obtain ⟨hr, hrest⟩ := List.pairwise_cons.mp hsorted
    rw [List.zipWith_cons_cons, List.map_cons, ih hrest fun r'' hr'' => hfits r'' (List.mem_cons_of_mem r' hr''),
      subtractStart_startTime (hr r' List.mem_cons_self) (hfits r' List.mem_cons_self)]
    rfl

theorem startTime_intervalPass {results : List RequestResult}
    (hsorted : SortedBy (·.startTime) results) (hfits : ∀ r ∈ results, r.startTime < 2 ^ 128) :
    (intervalPass results).map (·.startTime) = passTimes (results.map (·.startTime)) := by
  cases results with
  | nil => rfl
  | cons first rest =>
    have hgaps := startTime_differences hsorted fun r hr => hfits r (List.mem_cons_of_mem first hr)
    rw [intervalPass, sweep_cons]
    match rest with
    | second :: third :: rest =>
      rw [List.zipWith_cons_cons, List.zipWith_cons_cons] at hgaps ⊢
      simp only [fillFirst, List.map_cons, passTimes, differences_cons_cons, List.cons.injEq] at hgaps ⊢
      exact ⟨hgaps.1, hgaps⟩
    | [] => rfl
    | [second] => exact congrArg (first.startTime :: ·) hgaps

/-- Three start times or more leave gaps only. -/
theorem passTimes_long {times : List Nat} (hsorted : times.Pairwise (· ≤ ·)) (hlong : 2 < times.length) :
    (passTimes times).Perm (gapValues times) ∧ (passTimes times).sum = spread times ∧
      ∀ c, passTimes (times.map (· + c)) = passTimes times := by
  match times with
  | first :: second :: third :: rest =>
    refine ⟨?_, ?_, fun c => ?_⟩
    · exact (List.perm_append_singleton _ _).symm
    · rw [passTimes, List.sum_cons, sum_differences hsorted, spread, List.getLastD_eq_getLast?,
        List.getLast?_eq_some_getLast (List.cons_ne_nil _ _)]
      exact Nat.add_comm _ _
    · have hdiff := differences_add c (first :: second :: third :: rest)
      simp only [List.map_cons, passTimes, Nat.add_sub_add_right] at hdiff ⊢
      rw [hdiff]

theorem passTimes_pair {first second : Nat} (hle : first ≤ second) :
    (passTimes [first, second]).Perm (gapValues [first, second]) ↔ second = 2 * first := by
  show [first, second - first].Perm [second - first, second - first] ↔ _
  constructor
  · intro hperm
    have hmem : first ∈ [second - first, second - first] := hperm.mem_iff.mp List.mem_cons_self
    have heq : first = second - first := by simpa using hmem
    omega
  · intro heq
    rw [show second - first = first by omega]

theorem spread_le {times : List Nat} {bound : Nat} (hbound : ∀ time ∈ times, time ≤ bound) :
    spread times ≤ 2 * bound := by
  have hlast : times.getLastD 0 ≤ bound := by
    rw [List.getLastD_eq_getLast?]
    cases htime : times.getLast? with
    | none => exact Nat.zero_le bound
    | some time => exact hbound time (List.mem_of_getLast? htime)
  have hsecond : times.getD 1 0 ≤ bound := by
    rw [List.getD_eq_getElem?_getD]
    cases htime : times[1]? with
    | none => exact Nat.zero_le bound
    | some time => exact hbound time (List.mem_of_getElem? htime)
  rw [spread]
  omega

/-- A sum that wraps is not rounded to the same average. -/
theorem wrapped_average {sum n : Nat} (hsum : sum < 2 ^ 129) (hpos : 0 < n) (hn : n < 2 ^ 64) :
    sum % 2 ^ 128 / n = sum / n ↔ sum < 2 ^ 128 := by
  constructor
  · intro heq
    by_contra hlarge
    rw [show sum % 2 ^ 128 = sum - 2 ^ 128 by omega] at heq
    have hstep : (sum - 2 ^ 128) / n + 1 ≤ sum / n := by
      rw [← Nat.add_div_right _ hpos]
      exact Nat.div_le_div_right (by omega)
    omega
  · intro hsmall
    rw [Nat.mod_eq_of_lt hsmall]

namespace Passes

variable {results : List RequestResult} (p : Passes results)

theorem gaps_startTime (hfits : ∀ r ∈ results, r.startTime < 2 ^ 128) :
    (p.gaps.map (·.startTime)).Perm (passTimes (startTimes results)) := by
  have hfits' : ∀ r ∈ p.byStart, r.startTime < 2 ^ 128 :=
    fun r hr => hfits r (p.sortsStart.perm.mem_iff.mp hr)
  have hstart : p.byStart.map (·.startTime) = startTimes results :=
    p.sortsStart.sorted.map_eq (pairwise_startTimes results)
      ((p.sortsStart.perm.map _).trans (perm_startTimes results).symm)
  rw [← hstart, ← startTime_intervalPass p.sortsStart.sorted hfits']
  exact p.sortsGaps.perm.map _

theorem average_gaps (hne : results ≠ []) (hlength : results.length < 2 ^ 64)
    (hfits : ∀ r ∈ results, r.startTime < 2 ^ 128) :
    (average (values (·.startTime) p.gaps)).toNat =
      (passTimes (startTimes results)).sum % 2 ^ 128 / results.length := by
  have hgaps : (values (·.startTime) p.gaps).length = results.length := by
    rw [values, List.length_map, p.length_gaps]
  have hfits' : ∀ r ∈ p.gaps, r.startTime < 2 ^ 128 := by
    intro r hr
    refine startTime_intervalPass_lt (fun r' hr' => ?_) r (p.sortsGaps.perm.mem_iff.mp hr)
    exact hfits r' (p.sortsStart.perm.mem_iff.mp hr')
  rw [average_toNat (List.ne_nil_of_length_pos (hgaps ▸ List.length_pos_of_ne_nil hne)) (hgaps ▸ hlength),
    toNat_values hfits', (p.gaps_startTime hfits).sum_eq, hgaps]

end Passes

/-- Exactly when the interval column holds the gaps only, its printed average is the one
of the gaps, and adding a constant to all start times does not change it. -/
theorem gaps_only_iff {results : List RequestResult} {c : Nat} (htwo : 2 ≤ results.length)
    (hlength : results.length < 2 ^ 64) (hfits : ∀ r ∈ results, r.startTime + c < 2 ^ 128)
    (p : Passes results) (q : Passes (results.map (delay c))) :
    ((p.gaps.map (·.startTime)).Perm (gapValues (startTimes results)) ∧
      (average (values (·.startTime) p.gaps)).toNat = spread (startTimes results) / results.length ∧
      average (values (·.startTime) q.gaps) = average (values (·.startTime) p.gaps)) ↔
    2 < results.length ∧ spread (startTimes results) < 2 ^ 128 ∨
      results.length = 2 ∧ (startTimes results).getD 1 0 = 2 * (startTimes results).headD 0 ∧
        c ≤ 1 := by
  have hne : results ≠ [] := List.ne_nil_of_length_pos (by omega)
  have hbefore : ∀ r ∈ results, r.startTime < 2 ^ 128 :=
    fun r hr => Nat.lt_of_le_of_lt (Nat.le_add_right _ c) (hfits r hr)
  have hdelayed : ∀ r ∈ results.map (delay c), r.startTime < 2 ^ 128 := by
    intro r hr
    obtain ⟨r', hr', rfl⟩ := List.mem_map.mp hr
    exact hfits r' hr'
  have hpavg := p.average_gaps hne hlength hbefore
  have hqavg := q.average_gaps (by simpa using hne) (by simpa using hlength) hdelayed
  rw [startTimes_delay, List.length_map] at hqavg
  have hpgaps := p.gaps_startTime hbefore
  have hpairwise := pairwise_startTimes results
  have htimes : ∀ time ∈ startTimes results, time + c < 2 ^ 128 := by
    intro time htime
    obtain ⟨r, hr, rfl⟩ := List.mem_map.mp ((perm_startTimes results).mem_iff.mp htime)
    exact hfits r hr
  rw [← length_startTimes results] at htwo hlength hpavg hqavg ⊢
  rw [← BitVec.toNat_inj, hqavg, hpavg, hpgaps.congr_left]
  generalize startTimes results = times at *
  by_cases hlong : 2 < times.length
  · obtain ⟨hperm, hsum, hshift⟩ := passTimes_long hpairwise hlong
    have hspread : spread times ≤ 2 * (2 ^ 128 - 1) :=
      spread_le fun time htime => Nat.le_sub_one_of_lt (Nat.lt_of_le_of_lt (Nat.le_add_right _ c) (htimes time htime))
    rw [hsum, hshift, hsum, wrapped_average (by omega) (by omega) hlength]
    constructor
    · exact fun h => .inl ⟨hlong, h.2.1⟩
    · rintro (⟨-, hsmall⟩ | ⟨htwo', -⟩)
      · exact ⟨hperm, hsmall, rfl⟩
      · omega
  · obtain ⟨first, second, rfl⟩ : ∃ first second, times = [first, second] :=
      List.length_eq_two.mp (by omega)
    have hle : first ≤ second := List.rel_of_pairwise_cons hpairwise (by simp)
    have hfirst := htimes first (by simp)
    have hsecond := htimes second (by simp)
    rw [passTimes_pair hle]
    simp [passTimes, spread]
    omega

/-- The three results start 2 and 18 microseconds apart, whenever they begin. -/
theorem gaps_only_finished :
    (average (values (·.startTime) finishedPasses.gaps)).toNat = 22 / 3 ∧
      average (values (·.startTime) (Passes.stable (finished.map (delay 1000))).gaps) =
        average (values (·.startTime) finishedPasses.gaps) := by
  have hspread : spread (startTimes finished) = 22 := by decide
  obtain ⟨-, havg, hshift⟩ := (gaps_only_iff (by decide) (by decide) (by decide) finishedPasses
    (Passes.stable (finished.map (delay 1000)))).mpr (.inl ⟨by decide, by decide⟩)
  rw [hspread] at havg
  exact ⟨havg, hshift⟩

/-- Of two results the first keeps its start time, here 10, next to the gap of 1. -/
theorem first_start_among_gaps :
    let results : List RequestResult := [⟨500, 450, 32, 11⟩, ⟨400, 300, 64, 10⟩]
    let p := Passes.stable results
    let q := Passes.stable (results.map (delay 10))
    p.gaps.map (·.startTime) = [1, 10] ∧
      ¬ (p.gaps.map (·.startTime)).Perm (gapValues (startTimes results)) ∧
      (average (values (·.startTime) p.gaps)).toNat ≠ spread (startTimes results) / 2 ∧
      average (values (·.startTime) q.gaps) ≠ average (values (·.startTime) p.gaps) := by
  decide

end NdpOffload.Faasmspeed.Intervals
