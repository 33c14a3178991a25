import Mathlib.Data.Nat.ChineseRemainder
import Mathlib.Data.Nat.Count
import Mathlib.Data.Nat.Periodic
import Mathlib.Tactic.Linarith
import Mathlib.Tactic.Positivity
import Mathlib.Tactic.Ring

/-! Counting along sequences that repeat: a window as long as the period holds
the same number of hits wherever it starts, and two counters with coprime
periods meet in every combination equally often. -/
namespace NdpOffload.Library.Cycles

section Windows

variable {p : Nat → Prop} [DecidablePred p] {period : Nat}

theorem count_shift_of_periodic (hperiod : Function.Periodic p period) (start : Nat) :
    Nat.count (fun i => p (start + i)) period = Nat.count p period := by
  have hfront := Nat.count_add p start period
  have hback := Nat.count_add p period start
  have hsame : (fun i => p (period + i)) = p := by
    funext i
    rw [Nat.add_comm, hperiod]
  simp only [hsame] at hback
  rw [Nat.add_comm period start] at hback
  omega

theorem count_mul_period (hperiod : Function.Periodic p period) (cycles : Nat) :
    Nat.count p (period * cycles) = Nat.count p period * cycles := by
  induction cycles with
  | zero => simp
  | succ cycles ih =>
    have hshift := count_shift_of_periodic hperiod (period * cycles)
    rw [Nat.mul_succ, Nat.count_add, ih, hshift, Nat.mul_succ]

/-- Over `n` steps the hits differ from their share by less than one period's. -/
theorem count_deviation (hperiod : Function.Periodic p period) (hpos : 0 < period) (n : Nat) :
    |(Nat.count p n : Int) * period - n * Nat.count p period| <
      (Nat.count p period + 1) * period := by
  obtain ⟨cycles, rest, hrest, rfl⟩ : ∃ cycles rest, rest < period ∧
      n = period * cycles + rest :=
    ⟨n / period, n % period, Nat.mod_lt _ hpos, (Nat.div_add_mod n period).symm⟩
  have htail : Nat.count (fun i => p (period * cycles + i)) rest ≤ Nat.count p period := by
    rw [← count_shift_of_periodic hperiod (period * cycles)]
    exact Nat.count_monotone _ (Nat.le_of_lt hrest)
  rw [Nat.count_add, count_mul_period hperiod]
  set hits := Nat.count p period
  set tail := Nat.count (fun i => p (period * cycles + i)) rest
  -- Whole cycles cancel, so only the unfinished one counts.
  have hcancel : ((hits * cycles + tail : Nat) : Int) * period -
      (period * cycles + rest : Nat) * hits = tail * period - rest * hits := by
    push_cast
    ring
  rw [hcancel, abs_lt]
  have htailPeriod : (tail : Int) * period ≤ hits * period := by
    exact_mod_cast Nat.mul_le_mul_right _ htail
  have hrestHits : (rest : Int) * hits ≤ period * hits := by
    exact_mod_cast Nat.mul_le_mul_right _ (Nat.le_of_lt hrest)
  have hperiodPos : (0 : Int) < period := by exact_mod_cast hpos
  have htailNonneg : (0 : Int) ≤ tail * period := by positivity
  have hrestNonneg : (0 : Int) ≤ rest * hits := by positivity
  constructor <;> linarith [mul_comm (period : Int) hits]

end Windows

/-- A window of a sequence written out as a list. -/
theorem countP_window {α : Type*} (f : Nat → α) (test : α → Bool) {n start length : Nat}
    (hwindow : start + length ≤ n) :
    ((((List.range n).map f).drop start).take length).countP test =
      Nat.count (fun i => test (f (start + i)) = true) length := by
  have hlist : (((List.range n).map f).drop start).take length =
      (List.range length).map fun i => f (start + i) := by
    apply List.ext_getElem
    · simp
      omega
    · intro i hi hi'
      simp
  rw [hlist, List.countP_map, Nat.count]
  congr 1
  funext i
  simp

theorem count_lt {bound n : Nat} (hle : bound ≤ n) : Nat.count (fun i => i < bound) n = bound := by
  obtain ⟨extra, rfl⟩ := Nat.exists_eq_add_of_le hle
  have hfront : Nat.count (fun i => i < bound) bound = bound :=
    Nat.count_iff_forall.mpr fun _ h => h
  have hback : Nat.count (fun i => bound + i < bound) extra = 0 :=
    Nat.count_iff_forall_not.mpr fun _ _ => by omega
  rw [Nat.count_add, hfront, hback, Nat.add_zero]

theorem count_eq {value n : Nat} (hlt : value < n) : Nat.count (fun i => i = value) n = 1 := by
  rw [Nat.count_eq_card_filter_range, Finset.filter_eq' , if_pos (Finset.mem_range.mpr hlt),
    Finset.card_singleton]

/-- Counters modulo coprime periods take every pair of values once per joint period. -/
theorem count_mod_mod {a b : Nat} (hcoprime : a.Coprime b) (p q : Nat → Prop) [DecidablePred p]
    [DecidablePred q] :
    Nat.count (fun i => p (i % a) ∧ q (i % b)) (a * b) = Nat.count p a * Nat.count q b := by
  simp only [Nat.count_eq_card_filter_range]
  rw [← Finset.card_product]
  apply Finset.card_bij fun i _ => (i % a, i % b)
  · intro i hi
    obtain ⟨hrange, hp, hq⟩ := Finset.mem_filter.mp hi
    have hlt := Finset.mem_range.mp hrange
    have hboth : 0 < a * b := by omega
    have ha := Nat.pos_of_mul_pos_right hboth
    have hb := Nat.pos_of_mul_pos_left hboth
    simp only [Finset.mem_product, Finset.mem_filter, Finset.mem_range]
    exact ⟨⟨Nat.mod_lt _ ha, hp⟩, Nat.mod_lt _ hb, hq⟩
  · intro i hi j hj hij
    have hi := Finset.mem_range.mp (Finset.mem_filter.mp hi).1
    have hj := Finset.mem_range.mp (Finset.mem_filter.mp hj).1
    obtain ⟨hmodA, hmodB⟩ := Prod.mk.inj hij
    have hmod := (Nat.modEq_and_modEq_iff_modEq_mul hcoprime).mp ⟨hmodA, hmodB⟩
    exact Nat.ModEq.eq_of_lt_of_lt hmod hi hj
  · rintro ⟨x, y⟩ hxy
    simp only [Finset.mem_product, Finset.mem_filter, Finset.mem_range] at hxy
    obtain ⟨⟨hx, hp⟩, hy, hq⟩ := hxy
    obtain ⟨hmodA, hmodB⟩ := (Nat.chineseRemainder hcoprime x y).2
    have hlt := Nat.chineseRemainder_lt_mul hcoprime x y (by omega) (by omega)
    have hA : ↑(Nat.chineseRemainder hcoprime x y) % a = x :=
      Eq.trans hmodA (Nat.mod_eq_of_lt hx)
    have hB : ↑(Nat.chineseRemainder hcoprime x y) % b = y :=
      Eq.trans hmodB (Nat.mod_eq_of_lt hy)
    refine ⟨_, Finset.mem_filter.mpr ⟨Finset.mem_range.mpr hlt, ?_⟩, Prod.ext hA hB⟩
    exact ⟨hA.symm ▸ hp, hB.symm ▸ hq⟩

end NdpOffload.Library.Cycles
