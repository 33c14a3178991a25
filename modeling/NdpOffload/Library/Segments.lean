import Mathlib.Tactic.Common

/-! Where the pieces of a split list come from: each piece stands between two marks,
and its number is the number of marks before it. -/
namespace NdpOffload.Library.Segments

variable {α : Type*} (p : α → Bool)

/-- The piece stands right behind a mark, or at the start. -/
def Opens (front : List α) : Prop :=
  front = [] ∨ ∃ before mark, p mark = true ∧ front = before ++ [mark]

variable {p}

theorem Opens.cons {x : α} {front : List α} (hopens : Opens p front) (hfront : front ≠ []) :
    Opens p (x :: front) := by
  rcases hopens with hnil | ⟨before, mark, hmark, hsplit⟩
  · exact absurd hnil hfront
  · exact .inr ⟨x :: before, mark, hmark, by rw [hsplit, List.cons_append]⟩

theorem Opens.eq_nil {front : List α} (hopens : Opens p front) (hcount : front.countP p = 0) :
    front = [] := by
  rcases hopens with hnil | ⟨before, mark, hmark, hsplit⟩
  · exact hnil
  · rw [hsplit, List.countP_append, List.countP_singleton, if_pos hmark] at hcount
    omega

theorem length_splitOnP (xs : List α) : (xs.splitOnP p).length = xs.countP p + 1 := by
  induction xs with
  | nil => rfl
  | cons x xs ih =>
    rw [List.splitOnP_cons_eq_if_modifyHead, List.countP_cons]
    by_cases hx : p x
    · rw [if_pos hx, if_pos hx, List.length_cons, ih]
    · rw [if_neg hx, if_neg hx, List.length_modifyHead, ih]

/-- With a mark `stop` behind the list, every piece is closed by a mark. -/
theorem exists_of_getElem?_splitOnP {stop : α} (hstop : p stop = true) {xs : List α} {i : Nat}
    {segment : List α} (hsegment : (xs.splitOnP p)[i]? = some segment) :
    ∃ front mark after, xs ++ [stop] = front ++ segment ++ mark :: after ∧ p mark = true ∧
      front.countP p = i ∧ (∀ x ∈ segment, p x = false) ∧ Opens p front := by
  induction xs generalizing i segment with
  | nil =>
    cases i with
    | zero =>
      cases hsegment
      exact ⟨[], stop, [], rfl, hstop, rfl, nofun, .inl rfl⟩
    | succ i => cases hsegment
  | cons x xs ih =>
    rw [List.splitOnP_cons_eq_if_modifyHead] at hsegment
    by_cases hx : p x
    · rw [if_pos hx] at hsegment
      cases i with
      | zero =>
        cases hsegment
        exact ⟨[], x, xs ++ [stop], rfl, hx, rfl, nofun, .inl rfl⟩
      | succ i =>
        rw [List.getElem?_cons_succ] at hsegment
        obtain ⟨front, mark, after, hsplit, hmark, hcount, hquiet, hopens⟩ := ih hsegment
        refine ⟨x :: front, mark, after, ?_, hmark, ?_, hquiet, ?_⟩
        · rw [List.cons_append, hsplit, List.cons_append, List.cons_append]
        · rw [List.countP_cons, hcount, if_pos hx]
        · by_cases hfront : front = []
          · exact .inr ⟨[], x, hx, by rw [hfront, List.nil_append]⟩
          · exact hopens.cons hfront
    · rw [if_neg hx] at hsegment
      cases hhead : xs.splitOnP p with
      | nil => exact absurd hhead (List.splitOnP_ne_nil _ _)
      | cons first rest =>
        rw [hhead, List.modifyHead_cons] at hsegment
        cases i with
        | zero =>
          cases hsegment
          obtain ⟨front, mark, after, hsplit, hmark, hcount, hquiet, hopens⟩ :=
            ih (i := 0) (by rw [hhead]; rfl)
          -- No mark before the first piece, so it starts the list.
          rw [hopens.eq_nil hcount] at hsplit
          refine ⟨[], mark, after, ?_, hmark, rfl, ?_, .inl rfl⟩
          · rw [List.cons_append, hsplit]
            rfl
          · intro y hy
            rcases List.mem_cons.mp hy with rfl | hrest
            · exact Bool.eq_false_iff.mpr hx
            · exact hquiet y hrest
        | succ i =>
          rw [List.getElem?_cons_succ] at hsegment
          obtain ⟨front, mark, after, hsplit, hmark, hcount, hquiet, hopens⟩ :=
            ih (i := i + 1) (by rw [hhead, List.getElem?_cons_succ]; exact hsegment)
          have hfront : front ≠ [] := by
            intro hnil
            rw [hnil] at hcount
            cases hcount
          refine ⟨x :: front, mark, after, ?_, hmark, ?_, hquiet, hopens.cons hfront⟩
          · rw [List.cons_append, hsplit, List.cons_append, List.cons_append]
          · rw [List.countP_cons, hcount, if_neg hx]

end NdpOffload.Library.Segments
