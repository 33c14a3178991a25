import Mathlib.Data.List.Nodup
import Mathlib.Logic.Function.Basic

/-! Parties that block on a request until a server has answered it.  A request
is pending until a server takes it and is held until it is answered; at no time
has a party more than one. -/
namespace NdpOffload.Library.Requests

/-- The requests on their way. -/
structure Desk (κ M : Type*) where
  pending : List M
  held : κ → Option M

variable {ι κ M : Type*}

section Desk

variable (owner : M → ι)

/-- `blocked i m`: the party `i` waits for the answer to its request `m`. -/
structure Desk.Sound (blocked : ι → M → Prop) (d : Desk κ M) : Prop where
  pending : ∀ m ∈ d.pending, blocked (owner m) m
  held : ∀ k m, d.held k = some m → blocked (owner m) m
  nodup : (d.pending.map owner).Nodup
  apart : ∀ k m, d.held k = some m → owner m ∉ d.pending.map owner
  single : ∀ k k' m m', d.held k = some m → d.held k' = some m' → owner m = owner m' → k = k'

variable {owner} {blocked blocked' : ι → M → Prop} {d : Desk κ M}

theorem sound_empty : (⟨[], fun _ => none⟩ : Desk κ M).Sound owner blocked where
  pending := by simp
  held := by simp
  nodup := List.nodup_nil
  apart := by simp
  single := by simp

theorem Desk.Sound.keep (hd : d.Sound owner blocked)
    (hkeep : ∀ i m, blocked i m → blocked' i m) : d.Sound owner blocked' :=
  { hd with
    pending := fun m hm => hkeep _ m (hd.pending m hm)
    held := fun k m hm => hkeep _ m (hd.held k m hm) }

/-- A party that waits for nothing may make a request. -/
theorem Desk.Sound.post (hd : d.Sound owner blocked) {m : M}
    (hfree : ∀ m', ¬ blocked (owner m) m') (hkeep : ∀ i m', blocked i m' → blocked' i m')
    (hm : blocked' (owner m) m) : (⟨d.pending ++ [m], d.held⟩ : Desk κ M).Sound owner blocked' where
  pending := by
    intro m' hm'
    rw [List.mem_append, List.mem_singleton] at hm'
    obtain hm' | rfl := hm'
    · exact hkeep _ m' (hd.pending m' hm')
    · exact hm
  held := fun k m' hm' => hkeep _ m' (hd.held k m' hm')
  nodup := by
    rw [List.map_append, List.map_singleton, List.nodup_append]
    refine ⟨hd.nodup, List.nodup_singleton _, ?_⟩
    intro i hi j hj heq
    rw [List.mem_singleton] at hj
    obtain ⟨m', hm', rfl⟩ := List.mem_map.1 hi
    have hblocked := hd.pending m' hm'
    rw [heq, hj] at hblocked
    exact hfree m' hblocked
  apart := by
    intro k m' hm' hmem
    rw [List.map_append, List.map_singleton, List.mem_append, List.mem_singleton] at hmem
    obtain hmem | heq := hmem
    · exact hd.apart k m' hm' hmem
    · have hblocked := hd.held k m' hm'
      rw [heq] at hblocked
      exact hfree m' hblocked
  single := hd.single

variable [DecidableEq κ]

/-- Any server may take any pending request. -/
theorem Desk.Sound.take (hd : d.Sound owner blocked) {before after : List M} {m : M}
    (hpending : d.pending = before ++ m :: after) (k : κ) :
    (⟨before ++ after, Function.update d.held k (some m)⟩ : Desk κ M).Sound owner blocked := by
  have hmem : m ∈ d.pending := by simp [hpending]
  have hsub : ∀ m' ∈ before ++ after, m' ∈ d.pending := by
    intro m' hm'
    rw [List.mem_append] at hm'
    rw [hpending, List.mem_append, List.mem_cons]
    tauto
  have hnodup := hd.nodup
  rw [hpending, List.map_append, List.map_cons, List.nodup_middle, ← List.map_append,
    List.nodup_cons] at hnodup
  have hothers : ∀ k' m', d.held k' = some m' → owner m' ≠ owner m := by
    intro k' m' hheld heq
    exact hd.apart k' m' hheld (heq ▸ List.mem_map_of_mem hmem)
  have hcases : ∀ k' m', Function.update d.held k (some m) k' = some m' →
      k' = k ∧ m' = m ∨ d.held k' = some m' := by
    intro k' m' hheld
    by_cases hk : k' = k
    · rw [hk, Function.update_self, Option.some.injEq] at hheld
      exact .inl ⟨hk, hheld.symm⟩
    · rw [Function.update_of_ne hk] at hheld
      exact .inr hheld
  refine ⟨fun m' hm' => hd.pending m' (hsub m' hm'), ?_, hnodup.2, ?_, ?_⟩
  · intro k' m' hheld
    obtain ⟨_, rfl⟩ | hheld := hcases k' m' hheld
    · exact hd.pending m' hmem
    · exact hd.held k' m' hheld
  · intro k' m' hheld hin
    obtain ⟨_, rfl⟩ | hheld := hcases k' m' hheld
    · exact hnodup.1 hin
    · obtain ⟨m'', hm'', heq⟩ := List.mem_map.1 hin
      exact hd.apart k' m' hheld (heq ▸ List.mem_map_of_mem (hsub m'' hm''))
  · intro k₁ k₂ m₁ m₂ h₁ h₂ heq
    obtain ⟨hk₁, hm₁⟩ | hold₁ := hcases k₁ m₁ h₁
    · obtain ⟨hk₂, _⟩ | hold₂ := hcases k₂ m₂ h₂
      · rw [hk₁, hk₂]
      · exact absurd (heq.symm.trans (congrArg owner hm₁)) (hothers k₂ m₂ hold₂)
    · obtain ⟨_, hm₂⟩ | hold₂ := hcases k₂ m₂ h₂
      · exact absurd (heq.trans (congrArg owner hm₂)) (hothers k₁ m₁ hold₁)
      · exact hd.single k₁ k₂ m₁ m₂ hold₁ hold₂ heq

/-- An answer unblocks the party whose request it answers, and nobody else. -/
theorem Desk.Sound.release (hd : d.Sound owner blocked) {k : κ} {m : M} (hheld : d.held k = some m)
    (hkeep : ∀ m', owner m' ≠ owner m → blocked (owner m') m' → blocked' (owner m') m') :
    (⟨d.pending, Function.update d.held k none⟩ : Desk κ M).Sound owner blocked' := by
  have hcases : ∀ k' m', Function.update d.held k none k' = some m' →
      k' ≠ k ∧ d.held k' = some m' := by
    intro k' m' hheld'
    by_cases hk : k' = k
    · rw [hk, Function.update_self] at hheld'
      exact absurd hheld' (Option.some_ne_none m').symm
    · rw [Function.update_of_ne hk] at hheld'
      exact ⟨hk, hheld'⟩
  refine ⟨?_, ?_, hd.nodup, ?_, ?_⟩
  · intro m' hm'
    refine hkeep m' ?_ (hd.pending m' hm')
    intro heq
    exact hd.apart k m hheld (heq ▸ List.mem_map_of_mem hm')
  · intro k' m' hheld'
    obtain ⟨hk, hold⟩ := hcases k' m' hheld'
    refine hkeep m' ?_ (hd.held k' m' hold)
    intro heq
    exact hk (hd.single k' k m' m hold hheld heq)
  · intro k' m' hheld'
    exact hd.apart k' m' (hcases k' m' hheld').2
  · intro k₁ k₂ m₁ m₂ h₁ h₂ heq
    exact hd.single k₁ k₂ m₁ m₂ (hcases k₁ m₁ h₁).2 (hcases k₂ m₂ h₂).2 heq

end Desk

end NdpOffload.Library.Requests
