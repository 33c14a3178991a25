import Mathlib.Data.Finset.Card
import Mathlib.Data.List.Dedup
import Mathlib.Order.Interval.Finset.Nat
import Mathlib.Tactic.Common

/-! Demand paging: a page is loaded when it is used and is not there, and stays
until it is given back.  What counts is how often pages are loaded. -/
namespace NdpOffload.Library.Residency

inductive Event where
  | use (page : Nat)
  | cut (bound : Nat)
  deriving DecidableEq

def Event.after (resident : Finset Nat) : Event → Finset Nat
  | .use page => insert page resident
  | .cut bound => resident.filter (· < bound)

def Event.misses (resident : Finset Nat) : Event → Nat
  | .use page => if page ∈ resident then 0 else 1
  | .cut _ => 0

def after : Finset Nat → List Event → Finset Nat
  | resident, [] => resident
  | resident, event :: events => after (event.after resident) events

def misses : Finset Nat → List Event → Nat
  | _, [] => 0
  | resident, event :: events => event.misses resident + misses (event.after resident) events

theorem after_append (resident : Finset Nat) (front rest : List Event) :
    after resident (front ++ rest) = after (after resident front) rest := by
  induction front generalizing resident with
  | nil => rfl
  | cons event front ih => exact ih _

theorem misses_append (resident : Finset Nat) (front rest : List Event) :
    misses resident (front ++ rest) =
      misses resident front + misses (after resident front) rest := by
  induction front generalizing resident with
  | nil => simp [misses, after]
  | cons event front ih => rw [List.cons_append, misses, ih, misses, after, Nat.add_assoc]

/-! ### First uses -/

/-- Nothing has given the page back since position `since`. -/
def StaysFrom (events : List Event) (since page : Nat) : Prop :=
  ∀ later bound, since < later → events[later]? = some (.cut bound) → page < bound

/-- A use of a page that has not been used since it was last given back. -/
def Missed (events : List Event) (at_ : Nat) : Prop :=
  ∃ page, events[at_]? = some (.use page) ∧
    ∀ since < at_, events[since]? = some (.use page) →
      ∃ later bound, since < later ∧ later < at_ ∧ events[later]? = some (.cut bound) ∧ bound ≤ page

theorem getElem?_concat_cases {events : List Event} {event found : Event} {i : Nat}
    (hfound : (events ++ [event])[i]? = some found) :
    events[i]? = some found ∨ i = events.length ∧ found = event := by
  rw [List.getElem?_append] at hfound
  split_ifs at hfound with hlt
  · exact .inl hfound
  · obtain ⟨hi, rfl⟩ := List.getElem?_eq_some_iff.mp hfound
    rw [List.length_singleton] at hi
    exact .inr ⟨by omega, List.getElem_singleton hi⟩

/-- An older use counts if the last event spares its page. -/
theorem kept_concat_iff (events : List Event) (event : Event) (page : Nat) :
    (∃ since < events.length, (events ++ [event])[since]? = some (.use page) ∧
      StaysFrom (events ++ [event]) since page) ↔
    (∃ since, events[since]? = some (.use page) ∧ StaysFrom events since page) ∧
      ∀ bound, event = .cut bound → page < bound := by
  have hfront : ∀ i < events.length, (events ++ [event])[i]? = events[i]? := fun i hi =>
    List.getElem?_append_left hi
  constructor
  · rintro ⟨since, hsince, huse, hstays⟩
    refine ⟨⟨since, hfront since hsince ▸ huse, fun later bound hlater hcut => ?_⟩, ?_⟩
    · obtain ⟨hlt, -⟩ := List.getElem?_eq_some_iff.mp hcut
      exact hstays later bound hlater ((hfront later hlt).trans hcut)
    · rintro bound rfl
      exact hstays events.length bound hsince List.getElem?_concat_length
  · rintro ⟨⟨since, huse, hstays⟩, hspared⟩
    obtain ⟨hsince, -⟩ := List.getElem?_eq_some_iff.mp huse
    refine ⟨since, hsince, (hfront since hsince).trans huse, fun later bound hlater hcut => ?_⟩
    rcases getElem?_concat_cases hcut with hold | ⟨-, hevent⟩
    · exact hstays later bound hlater hold
    · exact hspared bound hevent.symm

theorem mem_after_iff (events : List Event) (page : Nat) :
    page ∈ after ∅ events ↔
      ∃ since, events[since]? = some (.use page) ∧ StaysFrom events since page := by
  induction events using List.reverseRecOn with
  | nil => simp [after]
  | append_singleton events event ih =>
    have hkeep := kept_concat_iff events event page
    rw [← ih] at hkeep
    rw [after_append]
    constructor
    · intro hpage
      cases event with
      | use other =>
        rcases Finset.mem_insert.mp hpage with rfl | hold
        · refine ⟨events.length, List.getElem?_concat_length, fun later bound hlater hcut => ?_⟩
          obtain ⟨hlt, -⟩ := List.getElem?_eq_some_iff.mp hcut
          rw [List.length_append, List.length_singleton] at hlt
          omega
        · obtain ⟨since, -, hkept⟩ := hkeep.mpr ⟨hold, by simp⟩
          exact ⟨since, hkept⟩
      | cut bound =>
        obtain ⟨hold, hbound⟩ := Finset.mem_filter.mp hpage
        obtain ⟨since, -, hkept⟩ := hkeep.mpr ⟨hold, by simpa using hbound⟩
        exact ⟨since, hkept⟩
    · rintro ⟨since, huse, hstays⟩
      rcases getElem?_concat_cases huse with hold | ⟨-, hevent⟩
      · obtain ⟨hlt, -⟩ := List.getElem?_eq_some_iff.mp hold
        obtain ⟨hthere, hspared⟩ := hkeep.mp ⟨since, hlt, huse, hstays⟩
        cases event with
        | use other => exact Finset.mem_insert_of_mem hthere
        | cut bound => exact Finset.mem_filter.mpr ⟨hthere, hspared bound rfl⟩
      · subst hevent
        exact Finset.mem_insert_self page _

theorem missed_last_iff (events : List Event) (event : Event) :
    Missed (events ++ [event]) events.length ↔ event.misses (after ∅ events) = 1 := by
  have hlast : (events ++ [event])[events.length]? = some event := List.getElem?_concat_length
  have hfront : ∀ i < events.length, (events ++ [event])[i]? = events[i]? := fun i hi =>
    List.getElem?_append_left hi
  cases event with
  | cut bound =>
    simp only [Missed, hlast, Event.misses]
    simp
  | use page =>
    have hmisses : Event.misses (after ∅ events) (.use page) = 1 ↔ page ∉ after ∅ events := by
      simp only [Event.misses]
      split_ifs with hpage <;> simp [hpage]
    rw [hmisses, mem_after_iff]
    constructor
    · rintro ⟨other, huse, hgiven⟩ ⟨since, hsince, hstays⟩
      rw [hlast, Option.some_inj, Event.use.injEq] at huse
      subst huse
      obtain ⟨hlt, -⟩ := List.getElem?_eq_some_iff.mp hsince
      obtain ⟨later, bound, hlater, hbefore, hcut, hle⟩ :=
        hgiven since hlt ((hfront since hlt).trans hsince)
      have hkept := hstays later bound hlater (hfront later hbefore ▸ hcut)
      omega
    · intro hnone
      refine ⟨page, hlast, fun since hlt hsince => ?_⟩
      by_contra hkept
      refine hnone ⟨since, hfront since hlt ▸ hsince, fun later bound hlater hcut => ?_⟩
      by_contra hle
      obtain ⟨hbefore, -⟩ := List.getElem?_eq_some_iff.mp hcut
      exact hkept ⟨later, bound, hlater, hbefore, (hfront later hbefore).trans hcut,
        Nat.le_of_not_lt hle⟩

theorem missed_front_iff {events : List Event} (event : Event) {at_ : Nat}
    (hlt : at_ < events.length) : Missed (events ++ [event]) at_ ↔ Missed events at_ := by
  have hfront : ∀ i, i ≤ at_ → (events ++ [event])[i]? = events[i]? := fun i hi =>
    List.getElem?_append_left (lt_of_le_of_lt hi hlt)
  unfold Missed
  rw [hfront at_ (le_refl at_)]
  refine exists_congr fun page => and_congr_right fun _ => forall₂_congr fun since hsince => ?_
  rw [hfront since (le_of_lt hsince)]
  refine imp_congr_right fun _ => exists₂_congr fun later bound => and_congr_right fun _ =>
    and_congr_right fun hlater => ?_
  rw [hfront later (le_of_lt hlater)]

open Classical in
/-- Loads are the first uses, counted anew after each time a page is given back. -/
theorem misses_eq_card (events : List Event) :
    misses ∅ events = ((Finset.range events.length).filter (Missed events)).card := by
  induction events using List.reverseRecOn with
  | nil => rfl
  | append_singleton events event ih =>
    have hfront : (Finset.range events.length).filter (Missed (events ++ [event])) =
        (Finset.range events.length).filter (Missed events) :=
      Finset.filter_congr fun at_ hat => missed_front_iff event (Finset.mem_range.mp hat)
    have hmisses : misses (after ∅ events) [event] = event.misses (after ∅ events) := rfl
    rw [misses_append, ih, hmisses, List.length_append, List.length_singleton,
      Finset.range_add_one, Finset.filter_insert, hfront]
    have hlast := missed_last_iff events event
    by_cases hmissed : event.misses (after ∅ events) = 1
    · rw [if_pos (hlast.mpr hmissed), Finset.card_insert_of_notMem (by simp), hmissed]
    · have hzero : event.misses (after ∅ events) = 0 := by
        cases event with
        | cut bound => rfl
        | use page =>
          simp only [Event.misses] at hmissed ⊢
          split_ifs at hmissed ⊢ with hpage
          · rfl
          · exact absurd rfl hmissed
      rw [if_neg fun h => hmissed (hlast.mp h), hzero, Nat.add_zero]

/-! ### Uses in a row -/

theorem after_uses (resident : Finset Nat) (pages : List Nat) :
    after resident (pages.map .use) = resident ∪ pages.toFinset := by
  induction pages generalizing resident with
  | nil => simp [after]
  | cons page pages ih =>
    rw [List.map_cons, after, ih, Event.after, List.toFinset_cons]
    ext other
    simp only [Finset.mem_union, Finset.mem_insert]
    tauto

theorem misses_uses (resident : Finset Nat) (pages : List Nat) :
    misses resident (pages.map .use) = (pages.toFinset \ resident).card := by
  induction pages generalizing resident with
  | nil => simp [misses]
  | cons page pages ih =>
    rw [List.map_cons, misses, ih, Event.after, Event.misses, List.toFinset_cons]
    split_ifs with hpage
    · rw [Finset.insert_eq_self.mpr hpage, Finset.insert_sdiff_of_mem _ hpage, Nat.zero_add]
    · have hsplit : insert page pages.toFinset \ resident =
          insert page (pages.toFinset \ insert page resident) := by
        ext other
        simp only [Finset.mem_sdiff, Finset.mem_insert]
        by_cases hother : other = page
        · subst hother
          simp [hpage]
        · simp [hother]
      rw [hsplit, Finset.card_insert_of_notMem (by simp), Nat.add_comm]

/-! ### Pages from the front -/

/-- From the first `low` pages to the first `high` ones, with `count` loads. -/
def Costs (low : Nat) (events : List Event) (high count : Nat) : Prop :=
  misses (Finset.range low) events = count ∧ after (Finset.range low) events = Finset.range high

theorem Costs.append {low middle high first second : Nat} {front rest : List Event}
    (hfront : Costs low front middle first) (hrest : Costs middle rest high second) :
    Costs low (front ++ rest) high (first + second) := by
  obtain ⟨hfirst, hmiddle⟩ := hfront
  obtain ⟨hsecond, hhigh⟩ := hrest
  refine ⟨?_, ?_⟩
  · rw [misses_append, hfirst, hmiddle, hsecond]
  · rw [after_append, hmiddle, hhigh]

theorem costs_nil (low : Nat) : Costs low [] low 0 := ⟨rfl, rfl⟩

theorem costs_cut (low bound : Nat) : Costs low [.cut bound] (min low bound) 0 := by
  refine ⟨rfl, ?_⟩
  ext page
  simp [after, Event.after]

/-- The pages of the first `size` bytes, byte by byte. -/
def sweep (pageSize size : Nat) : List Event :=
  (List.range size).map fun offset => .use (offset / pageSize)

theorem toFinset_sweep {pageSize pages : Nat} (hpos : 0 < pageSize) :
    ((List.range (pages * pageSize)).map (· / pageSize)).toFinset = Finset.range pages := by
  ext page
  simp only [List.mem_toFinset, List.mem_map, List.mem_range, Finset.mem_range]
  constructor
  · rintro ⟨offset, hoffset, rfl⟩
    exact (Nat.div_lt_iff_lt_mul hpos).mpr hoffset
  · intro hpage
    exact ⟨page * pageSize, Nat.mul_lt_mul_of_pos_right hpage hpos, Nat.mul_div_cancel page hpos⟩

theorem costs_sweep {pageSize : Nat} (hpos : 0 < pageSize) (low pages : Nat) :
    Costs low (sweep pageSize (pages * pageSize)) (max low pages) (pages - low) := by
  have hmap : sweep pageSize (pages * pageSize) =
      ((List.range (pages * pageSize)).map (· / pageSize)).map .use := by
    rw [sweep, List.map_map]
    rfl
  have hbeyond : Finset.range pages \ Finset.range low = Finset.Ico low pages := by
    ext page
    simp only [Finset.mem_sdiff, Finset.mem_range, Finset.mem_Ico]
    omega
  refine ⟨?_, ?_⟩
  · rw [hmap, misses_uses, toFinset_sweep hpos, hbeyond, Nat.card_Ico]
  · rw [hmap, after_uses, toFinset_sweep hpos]
    ext page
    simp

/-- Uses of pages that are there cost nothing. -/
theorem costs_within {low : Nat} {pages : List Nat} (hpages : ∀ page ∈ pages, page < low) :
    Costs low (pages.map .use) low 0 := by
  have hsubset : pages.toFinset ⊆ Finset.range low := fun page hpage =>
    Finset.mem_range.mpr (hpages page (List.mem_toFinset.mp hpage))
  refine ⟨?_, ?_⟩
  · rw [misses_uses, Finset.sdiff_eq_empty_iff_subset.mpr hsubset, Finset.card_empty]
  · rw [after_uses, Finset.union_eq_left.mpr hsubset]

end NdpOffload.Library.Residency
