import Mathlib.Data.List.Induction
import Mathlib.Tactic.Common

/-! Sequences of keyed writes, where the last write to a key wins. -/
namespace NdpOffload.Library.Writes

variable {κ ν : Type*} [DecidableEq κ]

/-- The value of the last write to a key. -/
def lastFor (key : κ) (writes : List (κ × ν)) : Option ν :=
  (writes.filter fun w => w.1 = key).getLast?.map Prod.snd

@[simp] theorem lastFor_nil (key : κ) : lastFor key ([] : List (κ × ν)) = none := rfl

theorem lastFor_singleton (key : κ) (w : κ × ν) :
    lastFor key [w] = if w.1 = key then some w.2 else none := by
  by_cases hw : w.1 = key <;> simp [lastFor, hw]

theorem lastFor_append (key : κ) (front rest : List (κ × ν)) :
    lastFor key (front ++ rest) = (lastFor key rest).or (lastFor key front) := by
  rw [lastFor, List.filter_append, List.getLast?_append, lastFor, lastFor]
  cases (rest.filter fun w => w.1 = key).getLast? <;> rfl

theorem lastFor_concat (key : κ) (writes : List (κ × ν)) (w : κ × ν) :
    lastFor key (writes ++ [w]) = if w.1 = key then some w.2 else lastFor key writes := by
  rw [lastFor_append, lastFor_singleton]
  split <;> rfl

theorem lastFor_map {ν' : Type*} (f : ν → ν') (key : κ) (writes : List (κ × ν)) :
    lastFor key (writes.map fun w => (w.1, f w.2)) = (lastFor key writes).map f := by
  rw [lastFor, List.filter_map, List.getLast?_map, lastFor, Option.map_map, Option.map_map]
  rfl

theorem lastFor_eq_none_iff {key : κ} {writes : List (κ × ν)} :
    lastFor key writes = none ↔ ∀ w ∈ writes, w.1 ≠ key := by
  simp [lastFor]

theorem lastFor_eq_some_iff {key : κ} {writes : List (κ × ν)} {v : ν} :
    lastFor key writes = some v ↔ ∃ front rest, writes = front ++ (key, v) :: rest ∧
      ∀ w ∈ rest, w.1 ≠ key := by
  constructor
  · intro hlast
    induction writes using List.reverseRecOn with
    | nil => cases hlast
    | append_singleton writes w ih =>
      rw [lastFor_concat] at hlast
      split at hlast
      · rename_i hw
        cases hlast
        exact ⟨writes, [], by rw [← hw], by simp⟩
      · rename_i hw
        obtain ⟨front, rest, rfl, hrest⟩ := ih hlast
        refine ⟨front, rest ++ [w], by simp, fun u hu => ?_⟩
        rcases List.mem_append.mp hu with hold | hnew
        · exact hrest u hold
        · rwa [List.mem_singleton.mp hnew]
  · rintro ⟨front, rest, rfl, hrest⟩
    rw [List.append_cons, lastFor_append, lastFor_eq_none_iff.mpr hrest, lastFor_concat]
    simp

/-- Writes passed on under other keys, of which only one stands for this key. -/
theorem lastFor_filterMap {κ' : Type*} [DecidableEq κ'] {rename : κ → Option κ'} {key : κ} {key' : κ'}
    (hkey : ∀ k, rename k = some key' ↔ k = key) (writes : List (κ × ν)) :
    lastFor key' (writes.filterMap fun w => (rename w.1).map (·, w.2)) = lastFor key writes := by
  induction writes using List.reverseRecOn with
  | nil => rfl
  | append_singleton writes w ih =>
    rw [List.filterMap_append, lastFor_append, ih, lastFor_concat]
    cases hrename : rename w.1 with
    | none =>
      have hne : w.1 ≠ key := fun heq => by simp [(hkey w.1).mpr heq] at hrename
      simp [hrename, hne]
    | some other =>
      have hiff : other = key' ↔ w.1 = key := by rw [← hkey, hrename, Option.some.injEq]
      have hone : [w].filterMap (fun w => (rename w.1).map (·, w.2)) = [(other, w.2)] := by
        simp [hrename]
      rw [hone, lastFor_singleton]
      simp only [hiff]
      split <;> rfl

end NdpOffload.Library.Writes
