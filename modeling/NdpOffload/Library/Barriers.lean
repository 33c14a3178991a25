import Mathlib.Algebra.BigOperators.Group.Finset.Basic
import Mathlib.Algebra.Order.BigOperators.Group.Finset
import Mathlib.Data.Fintype.Card

/-! A reusable barrier between finitely many parties, and counters over families
of local states.  The barrier keeps a generation number: a party that waits
remembers the generation it arrived in and goes on once that is over. -/
namespace NdpOffload.Library.Barriers

variable {ι : Type*}

/-! ### The barrier -/

/-- `waiting p` is the generation in which `p` arrived, while it is blocked;
`calls p` counts how often it has called `wait`. -/
structure Lockstep (ι : Type*) where
  arrived : Nat := 0
  generation : Nat := 0
  waiting : ι → Option Nat := fun _ => none
  calls : ι → Nat := fun _ => 0

/-- A call of `wait`.  The last party to arrive starts the next generation. -/
def Lockstep.arrive [Fintype ι] [DecidableEq ι] (p : ι) (s : Lockstep ι) : Lockstep ι :=
  let last := s.arrived + 1 = Fintype.card ι
  { arrived := if last then 0 else s.arrived + 1
    generation := if last then s.generation + 1 else s.generation
    waiting := Function.update s.waiting p (some s.generation)
    calls := Function.update s.calls p (s.calls p + 1) }

/-- The generation in which `p` arrived is over. -/
def Lockstep.Released (s : Lockstep ι) (p : ι) : Prop :=
  ∃ generation, s.waiting p = some generation ∧ generation < s.generation

def Lockstep.resume [DecidableEq ι] (p : ι) (s : Lockstep ι) : Lockstep ι :=
  { s with waiting := Function.update s.waiting p none }

variable [Fintype ι]

/-- A party outside the barrier has called `wait` once per generation; one inside
has made one call more than the generation it arrived in. -/
structure Lockstep.Sound (s : Lockstep ι) : Prop where
  outside : ∀ p, s.waiting p = none → s.calls p = s.generation
  inside : ∀ p generation, s.waiting p = some generation →
    s.calls p = generation + 1 ∧ generation ≤ s.generation ∧ s.generation ≤ generation + 1
  arrived : s.arrived = (Finset.univ.filter fun p => s.calls p = s.generation + 1).card
  arrived_lt : s.arrived < Fintype.card ι

theorem sound_start [Nonempty ι] : ({} : Lockstep ι).Sound where
  outside := fun _ _ => rfl
  inside := by simp
  arrived := by simp
  arrived_lt := Fintype.card_pos

section Sound

variable {s : Lockstep ι}

/-- No party is more than one call ahead of the generation, and none is behind. -/
theorem Lockstep.Sound.calls_bounds (hs : s.Sound) (p : ι) :
    s.generation ≤ s.calls p ∧ s.calls p ≤ s.generation + 1 := by
  cases hwaiting : s.waiting p with
  | none =>
    have hcalls := hs.outside p hwaiting
    omega
  | some generation =>
    have hcalls := hs.inside p generation hwaiting
    omega

/-- Who has passed its `k`-th wait knows that everybody has made the `k`-th call. -/
theorem Lockstep.Sound.passed (hs : s.Sound) {p : ι} (hp : s.waiting p = none) (q : ι) :
    s.calls p ≤ s.calls q := by
  rw [hs.outside p hp]
  exact (hs.calls_bounds q).1

/-- A generation is over as soon as everybody has made its call. -/
theorem Lockstep.Sound.le_generation (hs : s.Sound) {k : Nat} (hall : ∀ p, k ≤ s.calls p) :
    k ≤ s.generation := by
  by_contra hlt
  have hcalls : ∀ p, s.calls p = s.generation + 1 := by
    intro p
    have hbounds := hs.calls_bounds p
    have hp := hall p
    omega
  have harrived := hs.arrived
  have hfew := hs.arrived_lt
  rw [Finset.filter_true_of_mem fun p _ => hcalls p, Finset.card_univ] at harrived
  omega

variable [DecidableEq ι]

theorem Lockstep.Sound.resume (hs : s.Sound) {p : ι} (hreleased : s.Released p) :
    (s.resume p).Sound := by
  obtain ⟨generation, hwaiting, hover⟩ := hreleased
  refine ⟨?_, ?_, hs.arrived, hs.arrived_lt⟩
  · intro q hq
    by_cases heq : q = p
    · subst heq
      have hinside := hs.inside q generation hwaiting
      show s.calls q = s.generation
      omega
    · exact hs.outside q (by simpa [Lockstep.resume, heq] using hq)
  · intro q g hq
    by_cases heq : q = p
    · subst heq
      simp [Lockstep.resume] at hq
    · exact hs.inside q g (by simpa [Lockstep.resume, heq] using hq)

/-- When all others have arrived they are inside the current generation. -/
theorem Lockstep.Sound.others_inside (hs : s.Sound) {p : ι} (hp : s.waiting p = none)
    (hlast : s.arrived + 1 = Fintype.card ι) {q : ι} (hq : q ≠ p) :
    s.waiting q = some s.generation := by
  have hcalls : s.calls q = s.generation + 1 := by
    -- otherwise both `p` and `q` are missing among the arrived parties
    by_contra hne
    have hsubset : (Finset.univ.filter fun r => s.calls r = s.generation + 1) ⊆
        (Finset.univ.erase p).erase q := by
      intro r hr
      have hr := (Finset.mem_filter.mp hr).2
      have hpcalls := hs.outside p hp
      refine Finset.mem_erase.mpr ⟨?_, Finset.mem_erase.mpr ⟨?_, Finset.mem_univ r⟩⟩
      · rintro rfl
        exact hne hr
      · rintro rfl
        omega
    have hcard := Finset.card_le_card hsubset
    have hpos : 1 ≤ (Finset.univ.erase p).card :=
      Finset.card_pos.mpr ⟨q, Finset.mem_erase.mpr ⟨hq, Finset.mem_univ q⟩⟩
    rw [Finset.card_erase_of_mem (Finset.mem_erase.mpr ⟨hq, Finset.mem_univ q⟩),
      Finset.card_erase_of_mem (Finset.mem_univ p), Finset.card_univ, ← hs.arrived] at hcard
    rw [Finset.card_erase_of_mem (Finset.mem_univ p), Finset.card_univ] at hpos
    omega
  cases hwaiting : s.waiting q with
  | none =>
    have hout := hs.outside q hwaiting
    omega
  | some generation =>
    have hin := hs.inside q generation hwaiting
    congr 1
    omega

/-- The last arrival: everybody is inside the generation that has just ended. -/
theorem Lockstep.Sound.arrive_last (hs : s.Sound) {p : ι} (hp : s.waiting p = none)
    (hlast : s.arrived + 1 = Fintype.card ι) : (s.arrive p).Sound := by
  have hcalls := hs.outside p hp
  have hall : ∀ q, (s.arrive p).waiting q = some s.generation ∧
      (s.arrive p).calls q = s.generation + 1 := by
    intro q
    by_cases heq : q = p
    · subst heq
      simp [Lockstep.arrive, hcalls]
    · have hin := hs.others_inside hp hlast heq
      simp [Lockstep.arrive, heq, hin, (hs.inside q _ hin).1]
  have hgen : (s.arrive p).generation = s.generation + 1 := by simp [Lockstep.arrive, hlast]
  refine ⟨?_, ?_, ?_, ?_⟩
  · intro q hq
    rw [(hall q).1] at hq
    cases hq
  · intro q g hq
    rw [(hall q).1] at hq
    cases hq
    rw [(hall q).2, hgen]
    omega
  · have hnone : ∀ q, ¬ (s.arrive p).calls q = (s.arrive p).generation + 1 := by
      intro q
      rw [(hall q).2, hgen]
      omega
    rw [Finset.filter_false_of_mem fun q _ => hnone q]
    simp [Lockstep.arrive, hlast]
  · simp only [Lockstep.arrive, hlast, if_true]
    omega

/-- An earlier arrival joins those that wait for the generation to end. -/
theorem Lockstep.Sound.arrive_early (hs : s.Sound) {p : ι} (hp : s.waiting p = none)
    (hearly : s.arrived + 1 ≠ Fintype.card ι) : (s.arrive p).Sound := by
  have hcalls := hs.outside p hp
  have hlt := hs.arrived_lt
  have hgen : (s.arrive p).generation = s.generation := by simp [Lockstep.arrive, hearly]
  refine ⟨?_, ?_, ?_, ?_⟩
  · intro q hq
    by_cases heq : q = p
    · subst heq
      simp [Lockstep.arrive] at hq
    · rw [hgen]
      simpa [Lockstep.arrive, heq] using hs.outside q (by simpa [Lockstep.arrive, heq] using hq)
  · intro q g hq
    rw [hgen]
    by_cases heq : q = p
    · subst heq
      have hg : s.generation = g := by simpa [Lockstep.arrive] using hq
      have hnew : (s.arrive q).calls q = s.calls q + 1 := by simp [Lockstep.arrive]
      rw [hnew]
      omega
    · simpa [Lockstep.arrive, heq] using hs.inside q g (by simpa [Lockstep.arrive, heq] using hq)
  · have hinsert : (Finset.univ.filter fun q => (s.arrive p).calls q = s.generation + 1) =
        insert p (Finset.univ.filter fun q => s.calls q = s.generation + 1) := by
      ext q
      rw [Finset.mem_insert, Finset.mem_filter, Finset.mem_filter]
      by_cases heq : q = p
      · subst heq
        simp [Lockstep.arrive, hcalls]
      · simp [Lockstep.arrive, heq]
    rw [hgen, hinsert, Finset.card_insert_of_notMem (by simp [hcalls]), ← hs.arrived]
    simp [Lockstep.arrive, hearly]
  · simp only [Lockstep.arrive, hearly, if_false]
    omega

theorem Lockstep.Sound.arrive (hs : s.Sound) {p : ι} (hp : s.waiting p = none) :
    (s.arrive p).Sound := by
  by_cases hlast : s.arrived + 1 = Fintype.card ι
  · exact hs.arrive_last hp hlast
  · exact hs.arrive_early hp hlast

end Sound

/-! ### Following a party -/

/-- The program of `p` has made `waits` calls and is inside one if `blocked`. -/
def Lockstep.Follows (s : Lockstep ι) (p : ι) (waits : Nat) (blocked : Bool) : Prop :=
  s.calls p = waits ∧ (s.waiting p).isSome = blocked

section Follows

variable {s : Lockstep ι} {p q : ι} {waits : Nat} {blocked : Bool}

omit [Fintype ι] in
theorem Lockstep.Follows.outside (hp : s.Follows p waits false) : s.waiting p = none := by
  simpa using hp.2

/-- Whoever is past `waits` calls knows that every other program has made them. -/
theorem Lockstep.Follows.passed (hp : s.Follows p waits false) (hs : s.Sound) {others : Nat}
    (hq : s.Follows q others blocked) : waits ≤ others := by
  rw [← hp.1, ← hq.1]
  exact hs.passed hp.outside q

/-- Whoever is inside a call that everybody has made may go on. -/
theorem Lockstep.Follows.released (hp : s.Follows p waits true) (hs : s.Sound)
    (hall : ∀ q, waits ≤ s.calls q) : s.Released p := by
  obtain ⟨generation, hwaiting⟩ := Option.isSome_iff_exists.mp hp.2
  have hover := hs.le_generation hall
  have hcalls := (hs.inside p generation hwaiting).1
  rw [hp.1] at hcalls
  exact ⟨generation, hwaiting, by omega⟩

theorem Lockstep.Follows.generation_eq (hp : s.Follows p waits false) (hs : s.Sound) :
    s.generation = waits := by
  rw [← hp.1, hs.outside p hp.outside]

variable [DecidableEq ι]

theorem Lockstep.Follows.arrive_self (hp : s.Follows p waits false) :
    (s.arrive p).Follows p (waits + 1) true := by
  simp [Lockstep.Follows, Lockstep.arrive, hp.1]

theorem Lockstep.Follows.arrive_other (hq : s.Follows q waits blocked) (hne : q ≠ p) :
    (s.arrive p).Follows q waits blocked := by
  simpa [Lockstep.Follows, Lockstep.arrive, hne] using hq

omit [Fintype ι] in
theorem Lockstep.Follows.resume_self (hp : s.Follows p waits blocked) :
    (s.resume p).Follows p waits false := by
  simp [Lockstep.Follows, Lockstep.resume, hp.1]

omit [Fintype ι] in
theorem Lockstep.Follows.resume_other (hq : s.Follows q waits blocked) (hne : q ≠ p) :
    (s.resume p).Follows q waits blocked := by
  simpa [Lockstep.Follows, Lockstep.resume, hne] using hq

end Follows

/-! ### Counters -/

/-- Changing one local state changes a sum over all of them by that one term. -/
theorem sum_update {α : Type*} [DecidableEq ι] (count : ι → α → Nat) (family : ι → α) (i : ι)
    (next : α) :
    (∑ j, count j (Function.update family i next j)) + count i (family i) =
      (∑ j, count j (family j)) + count i next := by
  have hrest : ∑ j ∈ Finset.univ.erase i, count j (Function.update family i next j) =
      ∑ j ∈ Finset.univ.erase i, count j (family j) := by
    apply Finset.sum_congr rfl
    intro j hj
    rw [Function.update_of_ne (Finset.ne_of_mem_erase hj)]
  rw [← Finset.add_sum_erase _ _ (Finset.mem_univ i),
    ← Finset.add_sum_erase _ (fun j => count j (family j)) (Finset.mem_univ i), hrest,
    Function.update_self]
  omega

theorem sum_update_add {α : Type*} [DecidableEq ι] (count : ι → α → Nat) {family : ι → α} {i : ι}
    {next : α} {extra : Nat} (hnext : count i next = count i (family i) + extra) :
    ∑ j, count j (Function.update family i next j) = (∑ j, count j (family j)) + extra := by
  have hsum := sum_update count family i next
  omega

theorem sum_update_same {α : Type*} [DecidableEq ι] (count : ι → α → Nat) {family : ι → α} {i : ι}
    {next : α} (hnext : count i next = count i (family i)) :
    ∑ j, count j (Function.update family i next j) = ∑ j, count j (family j) := by
  have hsum := sum_update count family i next
  omega

end NdpOffload.Library.Barriers
