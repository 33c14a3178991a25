import Mathlib.Algebra.Ring.Nat
import Mathlib.Logic.Function.Iterate
import Mathlib.Tactic.Common

/-! `while` loops as the languages of the repository have them: nothing says in
advance that they end, so a loop is run with fuel and `none` means that the
fuel did not suffice.  `Ends` is the fuel-free statement. -/
namespace NdpOffload.Library.Loops

variable {σ : Type*} {guard : σ → Bool} {body : σ → σ}

/-- `while (guard s) s = body(s);` with at most `fuel` evaluations of the guard. -/
def whileLoop (guard : σ → Bool) (body : σ → σ) : Nat → σ → Option σ
  | 0, _ => none
  | fuel + 1, s => if guard s then whileLoop guard body fuel (body s) else some s

/-- The loop started in `s` ends in `t`. -/
def Ends (guard : σ → Bool) (body : σ → σ) (s t : σ) : Prop :=
  ∃ fuel, whileLoop guard body fuel s = some t

theorem whileLoop_iterate (n : Nat) (s : σ) (hinside : ∀ i < n, guard (body^[i] s) = true)
    (hexit : guard (body^[n] s) = false) :
    whileLoop guard body (n + 1) s = some (body^[n] s) := by
  induction n generalizing s with
  | zero =>
    have hfalse : guard s = false := hexit
    simp [whileLoop, hfalse]
  | succ n ih =>
    have hfirst : guard s = true := hinside 0 (Nat.succ_pos n)
    rw [whileLoop, if_pos hfirst]
    exact ih (body s) (fun i hi => hinside (i + 1) (Nat.succ_lt_succ hi)) hexit

/-- A loop whose guard first fails after `n` rounds ends in the `n`-th iterate. -/
theorem ends_iterate (n : Nat) (s : σ) (hinside : ∀ i < n, guard (body^[i] s) = true)
    (hexit : guard (body^[n] s) = false) : Ends guard body s (body^[n] s) :=
  ⟨n + 1, whileLoop_iterate n s hinside hexit⟩

theorem whileLoop_mono {fuel : Nat} {s t : σ} (extra : Nat)
    (hloop : whileLoop guard body fuel s = some t) :
    whileLoop guard body (fuel + extra) s = some t := by
  induction fuel generalizing s with
  | zero => simp [whileLoop] at hloop
  | succ fuel ih =>
    rw [Nat.succ_add_eq_add_succ, Nat.add_succ, whileLoop]
    rw [whileLoop] at hloop
    split at hloop
    · rename_i hguard
      rw [if_pos hguard]
      exact ih hloop
    · rename_i hguard
      rw [if_neg hguard]
      exact hloop

/-- More fuel never changes the result, so a loop ends in at most one state. -/
theorem Ends.unique {s t u : σ} (hleft : Ends guard body s t) (hright : Ends guard body s u) :
    t = u := by
  obtain ⟨m, hm⟩ := hleft
  obtain ⟨n, hn⟩ := hright
  have hsum := whileLoop_mono n hm
  have hsum' := whileLoop_mono m hn
  rw [Nat.add_comm n m, hsum] at hsum'
  exact Option.some.inj hsum'

/-- Partial correctness: what every round keeps holds at the exit. -/
theorem Ends.invariant {Inv : σ → Prop} {s t : σ} (hends : Ends guard body s t)
    (hstep : ∀ r, Inv r → guard r = true → Inv (body r)) (hinv : Inv s) :
    Inv t ∧ guard t = false := by
  obtain ⟨fuel, hfuel⟩ := hends
  induction fuel generalizing s with
  | zero => simp [whileLoop] at hfuel
  | succ fuel ih =>
    rw [whileLoop] at hfuel
    split at hfuel
    · rename_i hguard
      exact ih (hstep s hinv hguard) hfuel
    · rename_i hguard
      cases Option.some.inj hfuel
      exact ⟨hinv, by simpa using hguard⟩

/-! ### Loops that collect -/

section Visits

variable {α : Type*} {inside : α → Bool} {next : α → α}

/-- The values that a loop `for (x = first; inside(x); x = next(x))` visits. -/
def visits (inside : α → Bool) (next : α → α) (fuel : Nat) (first : α) : Option (List α) :=
  (whileLoop (fun st : α × List α => inside st.1) (fun st => (next st.1, st.2 ++ [st.1])) fuel
    (first, [])).map Prod.snd

/-- Every value visited has passed the guard, and has what every round hands on. -/
theorem visits_forall {P : α → Prop} {fuel : Nat} {first : α} {values : List α}
    (hvisits : visits inside next fuel first = some values) (hfirst : P first)
    (hnext : ∀ x, P x → inside x = true → P (next x)) : ∀ x ∈ values, P x ∧ inside x = true := by
  obtain ⟨st, hloop, rfl⟩ := Option.map_eq_some_iff.mp hvisits
  have hends : Ends (fun st : α × List α => inside st.1) (fun st => (next st.1, st.2 ++ [st.1]))
      (first, []) st := ⟨fuel, hloop⟩
  let Inv : α × List α → Prop := fun st => P st.1 ∧ ∀ x ∈ st.2, P x ∧ inside x = true
  have hinv : Inv st ∧ inside st.1 = false := hends.invariant ?_ ?_
  · exact hinv.1.2
  · rintro ⟨x, seen⟩ ⟨hx, hseen⟩ hguard
    refine ⟨hnext x hx hguard, fun y hy => ?_⟩
    rcases List.mem_append.mp hy with hold | hnew
    · exact hseen y hold
    · rw [List.mem_singleton.mp hnew]
      exact ⟨hx, hguard⟩
  · exact ⟨hfirst, fun x hx => absurd hx List.not_mem_nil⟩

end Visits

/-! ### Counting loops over 64-bit words -/

section CountUp

variable {α : Type*} (f : UInt64 → α → α)

/-- The words a loop `for (x = first; x <= last; x++)` visits. -/
def wordsUpTo (first last : UInt64) : List UInt64 :=
  (List.range (last.toNat + 1 - first.toNat)).map fun i => first + UInt64.ofNat i

private theorem toNat_add_ofNat {first : UInt64} {i : Nat} (hsmall : first.toNat + i < 2 ^ 64) :
    (first + UInt64.ofNat i).toNat = first.toNat + i := by
  simp
  omega

theorem mem_wordsUpTo {first last x : UInt64} :
    x ∈ wordsUpTo first last ↔ first ≤ x ∧ x ≤ last := by
  have hlast := last.toNat_lt
  simp only [wordsUpTo, List.mem_map, List.mem_range, UInt64.le_iff_toNat_le]
  constructor
  · rintro ⟨i, hi, rfl⟩
    rw [toNat_add_ofNat (by omega)]
    omega
  · rintro ⟨hfirst, hx⟩
    refine ⟨x.toNat - first.toNat, by omega, ?_⟩
    rw [← UInt64.toNat_inj, toNat_add_ofNat (by omega)]
    omega

private theorem iterate_countUp (first : UInt64) (init : α) (n : Nat) :
    (fun st : UInt64 × α => (st.1 + 1, f st.1 st.2))^[n] (first, init) =
      (first + UInt64.ofNat n,
        ((List.range n).map fun i => first + UInt64.ofNat i).foldl (fun acc x => f x acc) init) := by
  induction n with
  | zero => simp
  | succ n ih =>
    rw [Function.iterate_succ_apply', ih]
    simp only [List.range_succ, List.map_append, List.foldl_append, List.map_cons, List.map_nil,
      List.foldl_cons, List.foldl_nil, UInt64.ofNat_add, UInt64.add_assoc]
    rfl

/-- Unless `last` is the greatest word, the counting loop ends, and it has
visited its words in order.  (`x <= 2^64 - 1` never fails.) -/
theorem ends_countUp (first : UInt64) {last : UInt64} (init : α)
    (hlast : last.toNat < 2 ^ 64 - 1) :
    ∃ exit, Ends (fun st : UInt64 × α => decide (st.1 ≤ last)) (fun st => (st.1 + 1, f st.1 st.2))
      (first, init) (exit, (wordsUpTo first last).foldl (fun acc x => f x acc) init) := by
  have hfirst := first.toNat_lt
  let n := last.toNat + 1 - first.toNat
  refine ⟨first + UInt64.ofNat n, ?_⟩
  rw [wordsUpTo, ← iterate_countUp f first init n]
  apply ends_iterate n (first, init)
  · intro i hi
    rw [iterate_countUp, decide_eq_true_iff, UInt64.le_iff_toNat_le, toNat_add_ofNat (by omega)]
    omega
  · rw [iterate_countUp, decide_eq_false_iff_not, UInt64.le_iff_toNat_le,
      toNat_add_ofNat (by omega)]
    omega

end CountUp

end NdpOffload.Library.Loops
