import Mathlib.Tactic.Common

/-! Ranges of addresses, given by where they start and how many addresses they have:
when one lies within another, when two are apart, and equal chunks side by side. -/
namespace NdpOffload.Library.Extents

structure Extent where
  start : Nat
  length : Nat
  deriving DecidableEq

namespace Extent

def Holds (a : Extent) (address : Nat) : Prop :=
  a.start ≤ address ∧ address < a.start + a.length

def Within (a b : Extent) : Prop := ∀ address, a.Holds address → b.Holds address

def Apart (a b : Extent) : Prop := ∀ address, a.Holds address → ¬ b.Holds address

variable {a b : Extent}

theorem within_of_le (hstart : b.start ≤ a.start)
    (hend : a.start + a.length ≤ b.start + b.length) : a.Within b := by
  rintro address ⟨hlow, hhigh⟩
  exact ⟨Nat.le_trans hstart hlow, Nat.lt_of_lt_of_le hhigh hend⟩

theorem within_iff (hpos : 0 < a.length) :
    a.Within b ↔ b.start ≤ a.start ∧ a.start + a.length ≤ b.start + b.length := by
  constructor
  · intro hwithin
    obtain ⟨hlow, _⟩ := hwithin a.start ⟨Nat.le_refl _, by omega⟩
    obtain ⟨_, hhigh⟩ := hwithin (a.start + a.length - 1) ⟨by omega, by omega⟩
    exact ⟨hlow, by omega⟩
  · rintro ⟨hstart, hend⟩
    exact within_of_le hstart hend

theorem Apart.symm (hab : a.Apart b) : b.Apart a :=
  fun address hb ha => hab address ha hb

theorem apart_of_le (hle : a.start + a.length ≤ b.start) : a.Apart b := by
  rintro address ⟨_, hhigh⟩ ⟨hlow, _⟩
  omega

theorem not_apart_self (hpos : 0 < a.length) : ¬ a.Apart a := fun hapart =>
  hapart a.start ⟨Nat.le_refl _, by omega⟩ ⟨Nat.le_refl _, by omega⟩

end Extent

/-! ### Chunks -/

/-- The chunk number `index` of a row of chunks of one size. -/
def chunk (start size index : Nat) : Extent := ⟨start + index * size, size⟩

variable {start size i j : Nat}

theorem chunk_within_iff (hpos : 0 < size) {total : Nat} :
    (chunk start size i).Within ⟨start, total⟩ ↔ (i + 1) * size ≤ total := by
  rw [Extent.within_iff hpos, chunk, Nat.succ_mul]
  dsimp only
  omega

theorem chunk_apart (hne : i ≠ j) : (chunk start size i).Apart (chunk start size j) := by
  obtain hlt | hgt := Nat.lt_or_gt_of_ne hne
  · apply Extent.apart_of_le
    have hle := Nat.mul_le_mul_right size hlt
    rw [Nat.succ_mul] at hle
    simp only [chunk]
    omega
  · apply Extent.Apart.symm
    apply Extent.apart_of_le
    have hle := Nat.mul_le_mul_right size hgt
    rw [Nat.succ_mul] at hle
    simp only [chunk]
    omega

end NdpOffload.Library.Extents
