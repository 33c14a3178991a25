import Mathlib.Logic.Function.Basic
import Mathlib.Tactic.Common

/-! Owners that hold at most one resource each.  A ledger says who holds what, which
resources were handed out, and how often each was closed; it is in order when every
resource is in exactly one place. -/
namespace NdpOffload.Library.Ownership

variable {Owner Resource : Type*}

structure Ledger (Owner Resource : Type*) where
  born : Resource → Prop
  holding : Owner → Option Resource
  handedOut : Resource → Prop
  closings : Resource → Nat

namespace Ledger

variable (L : Ledger Owner Resource)

def Unheld (r : Resource) : Prop := ∀ o, L.holding o ≠ some r

/-- Held by one owner, handed out, or closed once, and only one of these. -/
def Settled (r : Resource) : Prop :=
  ((∃! o, L.holding o = some r) ∧ ¬ L.handedOut r ∧ L.closings r = 0) ∨
  (L.Unheld r ∧ L.handedOut r ∧ L.closings r = 0) ∨
  (L.Unheld r ∧ ¬ L.handedOut r ∧ L.closings r = 1)

structure InOrder : Prop where
  settled : ∀ r, L.born r → L.Settled r
  unborn : ∀ r, ¬ L.born r → L.Unheld r ∧ ¬ L.handedOut r ∧ L.closings r = 0

variable [DecidableEq Owner]

def acquire (o : Owner) (r : Resource) : Ledger Owner Resource :=
  { L with
    born := fun q => q = r ∨ L.born q
    holding := Function.update L.holding o (some r) }

/-- The owner closes what it holds. -/
def dispose [DecidableEq Resource] (o : Owner) : Ledger Owner Resource :=
  match L.holding o with
  | none => L
  | some r =>
      { L with
        holding := Function.update L.holding o none
        closings := Function.update L.closings r (L.closings r + 1) }

def handOver (o : Owner) : Ledger Owner Resource :=
  match L.holding o with
  | none => L
  | some r =>
      { L with
        holding := Function.update L.holding o none
        handedOut := fun q => q = r ∨ L.handedOut q }

/-- `o` takes what `p` holds, in place of what it held itself. -/
def move (o p : Owner) : Ledger Owner Resource :=
  { L with
    holding := Function.update (Function.update L.holding o (L.holding p)) p none }

end Ledger

open Ledger

section Rules

variable {L K : Ledger Owner Resource} {o p : Owner} {r : Resource}

theorem Ledger.InOrder.unique (hL : L.InOrder) (ho : L.holding o = some r)
    (hp : L.holding p = some r) : o = p := by
  by_cases hborn : L.born r
  · rcases hL.settled r hborn with ⟨hone, _⟩ | ⟨hnone, _⟩ | ⟨hnone, _⟩
    · exact hone.unique ho hp
    · exact absurd ho (hnone o)
    · exact absurd ho (hnone o)
  · exact absurd ho ((hL.unborn r hborn).1 o)

theorem Ledger.InOrder.held (hL : L.InOrder) (ho : L.holding o = some r) :
    L.born r ∧ ¬ L.handedOut r ∧ L.closings r = 0 := by
  by_cases hborn : L.born r
  · rcases hL.settled r hborn with ⟨_, hrest⟩ | ⟨hnone, _⟩ | ⟨hnone, _⟩
    · exact ⟨hborn, hrest⟩
    · exact absurd ho (hnone o)
    · exact absurd ho (hnone o)
  · exact absurd ho ((hL.unborn r hborn).1 o)

/-- What has not changed hands is where it was. -/
theorem Ledger.Settled.congr (hsettled : L.Settled r)
    (hholding : ∀ q, K.holding q = some r ↔ L.holding q = some r)
    (hhanded : K.handedOut r ↔ L.handedOut r) (hclosings : K.closings r = L.closings r) :
    K.Settled r := by
  simpa only [Ledger.Settled, Ledger.Unheld, ne_eq, hholding, hhanded, hclosings] using hsettled

/-- When nobody holds anything, every resource was handed out or closed. -/
theorem Ledger.Settled.gone (hsettled : L.Settled r) (hnone : ∀ o, L.holding o = none) :
    L.handedOut r ∨ L.closings r = 1 := by
  rcases hsettled with ⟨⟨o, ho, _⟩, _⟩ | ⟨_, hhanded, _⟩ | ⟨_, _, hclosings⟩
  · rw [hnone o] at ho
    cases ho
  · exact .inl hhanded
  · exact .inr hclosings

variable [DecidableEq Owner]

theorem Ledger.InOrder.acquire (hL : L.InOrder) (hfree : L.holding o = none)
    (hnew : ¬ L.born r) : (L.acquire o r).InOrder := by
  obtain ⟨hunheld, hhanded, hclosings⟩ := hL.unborn r hnew
  have hother : ∀ q, q ≠ r → ∀ s, (L.acquire o r).holding s = some q ↔ L.holding s = some q := by
    intro q hne s
    simp only [Ledger.acquire, Function.update_apply]
    split
    · rename_i hs
      simp [hs, hfree, hne.symm]
    · rfl
  refine ⟨fun q hq => ?_, fun q hq => ?_⟩
  · by_cases hqr : q = r
    · subst hqr
      refine .inl ⟨⟨o, by simp [Ledger.acquire], fun s hs => ?_⟩, hhanded, hclosings⟩
      by_contra hne
      simp only [Ledger.acquire, Function.update_of_ne hne] at hs
      exact hunheld s hs
    · exact (hL.settled q (hq.resolve_left hqr)).congr (hother q hqr) Iff.rfl rfl
  · obtain ⟨hqr, hborn⟩ := not_or.mp hq
    obtain ⟨hrest, hplaces⟩ := hL.unborn q hborn
    exact ⟨fun s hs => hrest s ((hother q hqr s).mp hs), hplaces⟩

/-- Once its owner lets go of it, nobody holds a resource, and no other is affected. -/
theorem Ledger.InOrder.let_go (hL : L.InOrder) (ho : L.holding o = some r) (q : Resource) (s : Owner) :
    Function.update L.holding o none s = some q ↔ L.holding s = some q ∧ q ≠ r := by
  rw [Function.update_apply]
  split
  · rename_i hs
    subst hs
    simp only [reduceCtorEq, ho, Option.some.injEq, false_iff, not_and, not_not]
    exact fun heq => heq.symm
  · rename_i hs
    refine ⟨fun hq => ⟨hq, ?_⟩, And.left⟩
    rintro rfl
    exact hs (hL.unique hq ho)

theorem Ledger.InOrder.dispose [DecidableEq Resource] (hL : L.InOrder) (o : Owner) : (L.dispose o).InOrder := by
  rw [Ledger.dispose]
  split
  · exact hL
  · rename_i r ho
    obtain ⟨hborn, hhanded, hclosings⟩ := hL.held ho
    refine ⟨fun q hq => ?_, fun q hq => ?_⟩
    · by_cases hqr : q = r
      · subst hqr
        refine .inr (.inr ⟨fun s hs => ((hL.let_go ho q s).mp hs).2 rfl, hhanded, ?_⟩)
        simp [hclosings]
      · refine (hL.settled q hq).congr (fun s => ?_) Iff.rfl ?_
        · rw [hL.let_go ho]
          exact and_iff_left hqr
        · exact Function.update_of_ne hqr ..
    · obtain ⟨hunheld, hplaces⟩ := hL.unborn q hq
      have hqr : q ≠ r := by
        rintro rfl
        exact hq hborn
      refine ⟨fun s hs => hunheld s ((hL.let_go ho q s).mp hs).1, hplaces.1, ?_⟩
      exact (Function.update_of_ne hqr ..).trans hplaces.2

theorem Ledger.InOrder.handOver (hL : L.InOrder) (o : Owner) : (L.handOver o).InOrder := by
  rw [Ledger.handOver]
  split
  · exact hL
  · rename_i r ho
    obtain ⟨hborn, hhanded, hclosings⟩ := hL.held ho
    refine ⟨fun q hq => ?_, fun q hq => ?_⟩
    · by_cases hqr : q = r
      · subst hqr
        exact .inr (.inl ⟨fun s hs => ((hL.let_go ho q s).mp hs).2 rfl, .inl rfl, hclosings⟩)
      · refine (hL.settled q hq).congr (fun s => ?_) (or_iff_right hqr) rfl
        rw [hL.let_go ho]
        exact and_iff_left hqr
    · obtain ⟨hunheld, hplaces⟩ := hL.unborn q hq
      refine ⟨fun s hs => hunheld s ((hL.let_go ho q s).mp hs).1, ?_, hplaces.2⟩
      rintro (rfl | hold)
      · exact hq hborn
      · exact hplaces.1 hold

theorem move_holding_iff (s : Owner) : (L.move o p).holding s = some r ↔
    s ≠ p ∧ (s = o ∧ L.holding p = some r ∨ s ≠ o ∧ L.holding s = some r) := by
  simp only [Ledger.move, Function.update_apply]
  by_cases hp : s = p <;> by_cases ho : s = o <;> simp [hp, ho]

theorem unheld_move (hunheld : L.Unheld r) : (L.move o p).Unheld r := by
  intro s hs
  rcases ((move_holding_iff s).mp hs).2 with ⟨_, hp⟩ | ⟨_, hs⟩
  · exact hunheld p hp
  · exact hunheld s hs

/-- Nothing is lost when the one who takes has nothing. -/
theorem Ledger.InOrder.move (hL : L.InOrder) (hfree : L.holding o = none) (p : Owner) :
    (L.move o p).InOrder := by
  have hne : ∀ {s q}, L.holding s = some q → s ≠ o := by
    rintro s q hs rfl
    rw [hfree] at hs
    cases hs
  refine ⟨fun q hq => ?_, fun q hq => ?_⟩
  · rcases hL.settled q hq with ⟨⟨s, hs, _⟩, hplaces⟩ | ⟨hunheld, hplaces⟩ | ⟨hunheld, hplaces⟩
    · refine .inl ⟨?_, hplaces⟩
      by_cases hsp : s = p
      · subst hsp
        refine ⟨o, (move_holding_iff o).mpr ⟨(hne hs).symm, .inl ⟨rfl, hs⟩⟩, fun t ht => ?_⟩
        obtain ⟨hts, ⟨rfl, _⟩ | ⟨_, ht⟩⟩ := (move_holding_iff t).mp ht
        · rfl
        · exact absurd (hL.unique ht hs) hts
      · refine ⟨s, (move_holding_iff s).mpr ⟨hsp, .inr ⟨hne hs, hs⟩⟩, fun t ht => ?_⟩
        obtain ⟨_, ⟨_, hp⟩ | ⟨_, ht⟩⟩ := (move_holding_iff t).mp ht
        · exact absurd (hL.unique hs hp) hsp
        · exact hL.unique ht hs
    · exact .inr (.inl ⟨unheld_move hunheld, hplaces⟩)
    · exact .inr (.inr ⟨unheld_move hunheld, hplaces⟩)
  · obtain ⟨hunheld, hplaces⟩ := hL.unborn q hq
    exact ⟨unheld_move hunheld, hplaces⟩

/-- What the one who takes has held is nowhere afterwards. -/
theorem Ledger.InOrder.move_loses (hL : L.InOrder) (ho : L.holding o = some r) (p : Owner) :
    (L.move o p).Unheld r ∧ ¬ (L.move o p).handedOut r ∧ (L.move o p).closings r = 0 := by
  obtain ⟨_, hplaces⟩ := hL.held ho
  refine ⟨fun s hs => ?_, hplaces⟩
  obtain ⟨hsp, ⟨rfl, hp⟩ | ⟨hso, hs⟩⟩ := (move_holding_iff s).mp hs
  · exact hsp (hL.unique ho hp)
  · exact hso (hL.unique hs ho)

theorem Ledger.InOrder.not_settled_move (hL : L.InOrder) (ho : L.holding o = some r) (p : Owner) :
    ¬ (L.move o p).Settled r := by
  obtain ⟨hunheld, hhanded, hclosings⟩ := hL.move_loses ho p
  rintro (⟨⟨s, hs, _⟩, _⟩ | ⟨_, hout, _⟩ | ⟨_, _, hone⟩)
  · exact hunheld s hs
  · exact hhanded hout
  · omega

end Rules

end NdpOffload.Library.Ownership
