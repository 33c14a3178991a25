import Mathlib.Data.Nat.Log
import NdpOffload.NearMap.RoundTrip

/-! The page size on its way from the knob to the analyser: `main` takes its
logarithm, the analysis routines shift by it, the log has the power of two as an
`int`, and `analyse-results` reads it as a `u64`. -/
namespace NdpOffload.NearMap.PageSize

open Library.Loops Library.Runs Library.Text Tool Analyse RoundTrip

/-! ### The loop of `main` -/

/-- The loop holds what is left of the page size and `TracePageSizeLog2`. -/
def shifts (st : UInt64 × UInt64) : Bool := st.1 > 1

def shift (st : UInt64 × UInt64) : UInt64 × UInt64 := (st.1 >>> 1, st.2 + 1)

/-- `main` leaves the loop with this `TracePageSizeLog2`. -/
def TakesLog2 (pageSize : UInt32) (log2 : UInt64) : Prop :=
  ∃ rest, Ends shifts shift (pageSize.toUInt64, 0) (rest, log2)

theorem iterate_shift (pageSize : UInt64) {i : Nat} (hi : i < 64) :
    (shift^[i] (pageSize, 0)).1.toNat = pageSize.toNat / 2 ^ i ∧
      (shift^[i] (pageSize, 0)).2.toNat = i := by
  induction i with
  | zero => exact ⟨(Nat.div_one _).symm, rfl⟩
  | succ i ih =>
    obtain ⟨hrest, hcount⟩ := ih (by omega)
    rw [Function.iterate_succ_apply']
    constructor
    · calc (shift (shift^[i] (pageSize, 0))).1.toNat
          = (shift^[i] (pageSize, 0)).1.toNat / 2 := by
            rw [shift, UInt64.toNat_shiftRight]
            exact Nat.shiftRight_one _
        _ = pageSize.toNat / 2 ^ (i + 1) := by rw [hrest, Nat.div_div_eq_div_mul, Nat.pow_succ]
    · rw [shift, UInt64.toNat_add, hcount]
      exact Nat.mod_eq_of_lt (by simp; omega)

/-- The loop ends after as many rounds as the logarithm says. -/
theorem takesLog2_iff {pageSize : UInt32} (hpos : 1 ≤ pageSize.toNat) {log2 : UInt64} :
    TakesLog2 pageSize log2 ↔
      2 ^ log2.toNat ≤ pageSize.toNat ∧ pageSize.toNat < 2 ^ (log2.toNat + 1) := by
  have hne : pageSize.toNat ≠ 0 := by omega
  let n := Nat.log 2 pageSize.toNat
  have hlow : 2 ^ n ≤ pageSize.toNat := Nat.pow_log_le_self 2 hne
  have hhigh : pageSize.toNat < 2 ^ (n + 1) := Nat.lt_pow_succ_log_self (by decide) _
  have hn : n < 32 := (Nat.pow_lt_pow_iff_right (by decide)).mp (hlow.trans_lt pageSize.toNat_lt)
  have hsame : pageSize.toUInt64.toNat = pageSize.toNat := UInt32.toNat_toUInt64 pageSize
  have hends : Ends shifts shift (pageSize.toUInt64, 0) (shift^[n] (pageSize.toUInt64, 0)) := by
    apply ends_iterate
    · intro i hi
      have hrest := (iterate_shift pageSize.toUInt64 (i := i) (by omega)).1
      have hmore : 2 ^ (i + 1) ≤ pageSize.toNat :=
        (Nat.pow_le_pow_right (by decide) hi).trans hlow
      rw [shifts, decide_eq_true_eq, gt_iff_lt, UInt64.lt_iff_toNat_lt, hrest, hsame,
        UInt64.toNat_one]
      exact (Nat.le_div_iff_mul_le (by positivity)).mpr (by rw [Nat.mul_comm, ← Nat.pow_succ]; exact hmore)
    · have hrest := (iterate_shift pageSize.toUInt64 (i := n) (by omega)).1
      rw [shifts, decide_eq_false_iff_not, gt_iff_lt, UInt64.lt_iff_toNat_lt, hrest, hsame,
        UInt64.toNat_one, not_lt]
      exact Nat.lt_succ_iff.mp (Nat.div_lt_of_lt_mul (by rwa [← Nat.pow_succ]))
  have hcount := (iterate_shift pageSize.toUInt64 (i := n) (by omega)).2
  constructor
  · rintro ⟨rest, hrest⟩
    have hlog : log2.toNat = n := by rw [← hcount, hends.unique hrest]
    rw [hlog]
    exact ⟨hlow, hhigh⟩
  · rintro ⟨hle, hlt⟩
    have hlog : Nat.log 2 pageSize.toNat = log2.toNat := Nat.log_eq_of_pow_le_of_lt_pow hle hlt
    refine ⟨(shift^[n] (pageSize.toUInt64, 0)).1, ?_⟩
    have hpair : log2 = (shift^[n] (pageSize.toUInt64, 0)).2 := by
      rw [← UInt64.toNat_inj, hcount, ← hlog]
    rw [hpair]
    exact hends

/-! ### The field in the log -/

/-- The page size that a phase line shows. -/
def shownSize : LogLine → Option Int32
  | .phase pageSize _ _ _ _ _ => some pageSize
  | _ => none

/-- The field that the analyser takes for the page size. -/
def sizeField (line : LogLine) : Option Chars := (line.render.splitOn ';')[1]?

/-- The field stands before the name, so it is found whatever the name is. -/
theorem sizeField_of_shown {line : LogLine} {pageSize : Int32}
    (hshown : shownSize line = some pageSize) :
    sizeField line = some (decimalInt pageSize.toInt) := by
  cases line with
  | phase shown prevTime currTime name instructions ioBytes =>
    cases hshown
    have hsize : ';' ∉ decimalInt pageSize.toInt := notMem_decimalInt (by decide) (by decide)
    rw [sizeField, LogLine.render, LogLine.fields, joinWith_cons_cons,
      List.splitOn_append_cons_self_of_not_mem (by decide), joinWith_cons_cons,
      List.splitOn_append_cons_self_of_not_mem hsize]
    rfl
  | trace line => cases hshown
  | summary uniqRO uniqRW uniqWO total => cases hshown
  | phaseStubFound => cases hshown
  | ioStubFound => cases hshown

/-- The page size never changes after `main`, and every phase line shows it. -/
structure Sized (log2 : UInt64) (s : State) : Prop where
  log2_eq : s.tracePageSizeLog2 = log2
  lines : ∀ line ∈ s.out, ∀ shown, shownSize line = some shown → shown = pageSizeInt log2

theorem sized_start (log2 : UInt64) : Sized log2 (start log2) := ⟨rfl, by simp [start]⟩

section Step

variable {log2 : UInt64} {s t : State} {e : Event}

theorem Sized.append (hs : Sized log2 s) (more : List LogLine)
    (hmore : ∀ line ∈ more, ∀ shown, shownSize line = some shown → shown = pageSizeInt log2)
    (hlog2 : t.tracePageSizeLog2 = s.tracePageSizeLog2) (hout : t.out = s.out ++ more) :
    Sized log2 t := by
  refine ⟨hlog2.trans hs.log2_eq, fun line hline => ?_⟩
  rw [hout, List.mem_append] at hline
  exact hline.elim (hs.lines line) (hmore line)

theorem Sized.access (hs : Sized log2 s) {stamp : UInt64 → RWTime → RWTime} {fuel : Nat}
    {addr : UInt64} {accessSz : UInt32} (haccess : onAccess stamp fuel addr accessSz s = some t) :
    Sized log2 t := by
  obtain ⟨map, rfl⟩ := onAccess_frame haccess
  exact ⟨hs.log2_eq, hs.lines⟩

theorem Sized.step (hs : Sized log2 s) (hstep : Step s e t) : Sized log2 t := by
  cases hstep with
  | onRead fuel haccess => exact hs.access haccess
  | onWrite fuel haccess => exact hs.access haccess
  | countBbl n => exact ⟨hs.log2_eq, hs.lines⟩
  | ioStub bytes => exact ⟨hs.log2_eq, hs.lines⟩
  | phaseStub name accesses hperm =>
    refine hs.append (phaseOutput name accesses s) ?_ rfl rfl
    intro line hline shown hshown
    simp only [phaseOutput_eq, List.mem_cons, List.mem_append, List.mem_map] at hline
    rcases hline with rfl | ⟨trace, -, rfl⟩ | rfl | hnil
    · cases hshown
      rw [hs.log2_eq]
    · cases hshown
    · cases hshown
    · cases hnil
  | routine rtnName =>
    unfold routine
    split <;> split
    · exact hs.append [.phaseStubFound, .ioStubFound] (by simp [shownSize]) rfl (by simp)
    · exact hs.append [.phaseStubFound] (by simp [shownSize]) rfl rfl
    · exact hs.append [.ioStubFound] (by simp [shownSize]) rfl rfl
    · exact hs

end Step

theorem run_sized {log2 : UInt64} {es : List Event} {s : State}
    (hrun : Run Step (start log2) es s) : Sized log2 s :=
  hrun.always (Sized log2) (fun _ _ _ hs hstep => hs.step hstep) (sized_start log2)

/-! ### The sizes agree -/

/-- With the page size of the knob, the logarithm that `main` takes, every phase line
of every run and the shifts of the accesses mean one power of two. -/
structure Agree (pageSize : UInt32) (log2 : UInt64) : Prop where
  lower : 2 ^ log2.toNat ≤ pageSize.toNat
  upper : pageSize.toNat < 2 ^ (log2.toNat + 1)
  printed : ∀ es s, Run Step (start log2) es s → ∀ line ∈ s.out, (shownSize line).isSome →
    sizeField line = some (decimal (2 ^ log2.toNat))
  parsed : ∀ es s, Run Step (start log2) es s → ∀ line ∈ s.out, (shownSize line).isSome →
    ∃ size, sizeField line >>= parseU64 = some size ∧ size.toNat = 2 ^ log2.toNat
  first : ∀ addr, (apage log2 addr).toNat = addr.toNat / 2 ^ log2.toNat
  last : ∀ addr accessSz, (epage log2 addr accessSz).toNat =
    (addr + accessSz.toUInt64 - 1).toNat / 2 ^ log2.toNat

/-- Up to `2^30` the power of two is an `int`. -/
theorem agree_of_small {pageSize : UInt32} {log2 : UInt64}
    (hlower : 2 ^ log2.toNat ≤ pageSize.toNat) (hupper : pageSize.toNat < 2 ^ (log2.toNat + 1))
    (hsmall : log2.toNat ≤ 30) : Agree pageSize log2 := by
  have hfield : ∀ es s, Run Step (start log2) es s → ∀ line ∈ s.out, (shownSize line).isSome →
      sizeField line = some (decimal (2 ^ log2.toNat)) := by
    intro es s hrun line hline hsome
    obtain ⟨shown, hshown⟩ := Option.isSome_iff_exists.mp hsome
    have hnat : ((2 : Int) ^ log2.toNat) = ((2 ^ log2.toNat : Nat) : Int) := by push_cast; rfl
    rw [sizeField_of_shown hshown, (run_sized hrun).lines line hline shown hshown,
      toInt_pageSizeInt hsmall, hnat, decimalInt, if_neg (by omega), Int.natAbs_natCast]
  have hfits : 2 ^ log2.toNat < 2 ^ 64 := Nat.pow_lt_pow_right (by decide) (by omega)
  refine ⟨hlower, hupper, hfield, ?_, fun addr => ?_, fun addr accessSz => ?_⟩
  · intro es s hrun line hline hsome
    refine ⟨UInt64.ofNat (2 ^ log2.toNat), ?_, UInt64.toNat_ofNat_of_lt' hfits⟩
    rw [hfield es s hrun line hline hsome]
    exact parseU64_decimal_of_lt hfits
  · exact toNat_apage addr (by omega)
  · rw [epage, UInt64.toNat_shiftRight, Nat.mod_eq_of_lt (by omega), Nat.shiftRight_eq_div_pow]

/-- The last line of every log, by `Fini`. -/
def finiLine (log2 : UInt64) : LogLine := .phase (pageSizeInt log2) 0 1 finiName 0 0

theorem finiLine_mem (log2 : UInt64) :
    ∃ es s, Run Step (start log2) es s ∧ finiLine log2 ∈ s.out := by
  refine ⟨[.phaseStub finiName], _, run_singleton_iff.mpr (.phaseStub finiName [] .nil), ?_⟩
  exact List.mem_append_right _ List.mem_cons_self

/-- The page size of the log is the one in use exactly for knob values below `2^31`:
from there on the power of two is `2^31`, which an `int` shows as a negative number. -/
theorem page_size_agrees_iff {pageSize : UInt32} (hpos : 1 ≤ pageSize.toNat) :
    (∃ log2, TakesLog2 pageSize log2 ∧ Agree pageSize log2) ↔ pageSize.toNat < 2 ^ 31 := by
  have hbound := pageSize.toNat_lt
  constructor
  · rintro ⟨log2, -, hagree⟩
    by_contra hlarge
    have hlower := hagree.lower
    have hupper := hagree.upper
    have hlog : log2 = 31 := by
      rw [← UInt64.toNat_inj]
      have hle : log2.toNat < 32 :=
        (Nat.pow_lt_pow_iff_right (by decide)).mp (hlower.trans_lt hbound)
      have hge : 31 < log2.toNat + 1 :=
        (Nat.pow_lt_pow_iff_right (by decide)).mp ((not_lt.mp hlarge).trans_lt hupper)
      exact le_antisymm (by simp; omega) (by simp; omega)
    subst hlog
    obtain ⟨es, s, hrun, hline⟩ := finiLine_mem 31
    have hprinted := hagree.printed es s hrun _ hline rfl
    have hshown : shownSize (finiLine 31) = some (pageSizeInt 31) := rfl
    rw [sizeField_of_shown hshown, Option.some_inj] at hprinted
    have hsign : '-' ∈ decimalInt (pageSizeInt 31).toInt := by decide
    rw [hprinted] at hsign
    exact notMem_decimal (by decide) hsign
  · intro hsmall
    have hne : pageSize.toNat ≠ 0 := by omega
    have hlower := Nat.pow_log_le_self 2 hne
    have hupper := Nat.lt_pow_succ_log_self (b := 2) (by decide) pageSize.toNat
    have hlog : Nat.log 2 pageSize.toNat < 31 :=
      (Nat.pow_lt_pow_iff_right (by decide)).mp (hlower.trans_lt hsmall)
    have hnat : (UInt64.ofNat (Nat.log 2 pageSize.toNat)).toNat = Nat.log 2 pageSize.toNat :=
      UInt64.toNat_ofNat_of_lt' (by simp [UInt64.size]; omega)
    refine ⟨UInt64.ofNat (Nat.log 2 pageSize.toNat), ?_, ?_⟩
    · rw [takesLog2_iff hpos, hnat]
      exact ⟨hlower, hupper⟩
    · exact agree_of_small (by rw [hnat]; exact hlower) (by rw [hnat]; exact hupper) (by omega)

theorem page_size_agrees_default :
    1 ≤ (4096 : UInt32).toNat ∧ ∃ log2, TakesLog2 4096 log2 ∧ Agree 4096 log2 :=
  ⟨by decide, (page_size_agrees_iff (by decide)).mpr (by decide)⟩

/-- With pages of 2 GiB the log shows `-2147483648`, which is no `u64`. -/
theorem largest_page_negative :
    TakesLog2 2147483648 31 ∧ finiLine 31 ∈ (phaseStubReplacement finiName [] (start 31)).out ∧
      sizeField (finiLine 31) = some "-2147483648".toList ∧
      (sizeField (finiLine 31) >>= parseU64) = none ∧
      ¬ ∃ log2, TakesLog2 2147483648 log2 ∧ Agree 2147483648 log2 := by
  have hlog : TakesLog2 2147483648 31 := ⟨1, 33, by decide⟩
  have hfield : sizeField (finiLine 31) = some "-2147483648".toList := by decide +kernel
  have hmem : finiLine 31 ∈ (phaseStubReplacement finiName [] (start 31)).out := by
    exact List.mem_append_right _ List.mem_cons_self
  refine ⟨hlog, hmem, hfield, by rw [hfield]; decide, ?_⟩
  rintro ⟨log2, ⟨rest, hends⟩, hagree⟩
  obtain ⟨_, hends'⟩ := hlog
  cases hends.unique hends'
  have hrun : Run Step (start 31) [.phaseStub finiName]
      (phaseStubReplacement finiName [] (start 31)) :=
    run_singleton_iff.mpr (.phaseStub finiName [] .nil)
  have hprinted := hagree.printed _ _ hrun _ hmem rfl
  rw [hfield] at hprinted
  revert hprinted
  decide +kernel

end NdpOffload.NearMap.PageSize
