import NdpOffload.Statmon.Assignments

/-! `/tmp/faasm-monitor`: the tokens of the file are fields and values in turn, and the
pairs before the first wrong one are applied. -/
namespace NdpOffload.Statmon.FaasmMonitor

open Library.Outcomes Library.Text Library.Writes Table Sources Monitor Refresh Assignments

def faasmNames : List (Chars × WhichStat) :=
  [ ("local_sched".toList, .faasmLocalSched), ("waiting_queued".toList, .faasmWaitingQueued),
    ("started".toList, .faasmStarted), ("waiting".toList, .faasmSuspended),
    ("active".toList, .faasmActive) ]

/-- A known field with a value that parses. -/
def ValidField (field value : Chars) : Prop :=
  field ∈ faasmNames.map Prod.fst ∧ (parseI64 value).isSome = true

instance (field value : Chars) : Decidable (ValidField field value) :=
  inferInstanceAs (Decidable (_ ∧ _))

def tokens (text : Chars) : List Chars := (text.splitOn ',').map (trim isWhitespace)

/-- The pairs stand at the even positions; a last token without a partner is none of
them. -/
theorem pairs_getElem? (items : List Chars) (i : Nat) :
    (pairs items)[i]? = items[2 * i]?.bind fun field => items[2 * i + 1]?.map (field, ·) := by
  fun_induction pairs items generalizing i with
  | case1 field value rest ih =>
    cases i with
    | zero => rfl
    | succ i =>
      have heven : 2 * (i + 1) = 2 * i + 1 + 1 := by omega
      rw [List.getElem?_cons_succ, ih, heven]
      simp
  | case2 items hshort =>
    match items, hshort with
    | [], _ => simp
    | [field], _ => cases i <;> simp
    | field :: value :: rest, hshort => exact absurd rfl (hshort field value rest)

theorem pairs_concat {items : List Chars} (heven : items.length % 2 = 0) (last : Chars) :
    pairs (items ++ [last]) = pairs items := by
  fun_induction pairs items with
  | case1 field value rest ih =>
    rw [List.length_cons, List.length_cons] at heven
    rw [List.cons_append, List.cons_append, pairs, ih (by omega)]
  | case2 items hshort =>
    match items, hshort with
    | [], _ => rfl
    | [field], _ => cases heven
    | field :: value :: rest, hshort => exact absurd rfl (hshort field value rest)

theorem faasmStat_eq_some_iff {name : Chars} {which : WhichStat}
    (hentry : (name, which) ∈ faasmNames) (field : Chars) :
    faasmStat field = some which ↔ field = name := by
  constructor
  · intro hfield
    unfold faasmStat at hfield
    repeat' split at hfield
    all_goals cases hfield
    all_goals simp_all [faasmNames]
  · rintro rfl
    simp only [faasmNames, List.mem_cons, Prod.mk.injEq, List.not_mem_nil, or_false] at hentry
    rcases hentry with ⟨rfl, rfl⟩ | ⟨rfl, rfl⟩ | ⟨rfl, rfl⟩ | ⟨rfl, rfl⟩ | ⟨rfl, rfl⟩
    all_goals decide

theorem faasmStat_eq_none_iff {field : Chars} :
    faasmStat field = none ↔ field ∉ faasmNames.map Prod.fst := by
  constructor
  · intro hnone hmem
    obtain ⟨⟨name, which⟩, hentry, rfl⟩ := List.mem_map.mp hmem
    rw [(faasmStat_eq_some_iff hentry name).mpr rfl] at hnone
    cases hnone
  · intro hnot
    simp only [faasmNames, List.map_cons, List.map_nil, List.mem_cons, List.not_mem_nil, or_false,
      not_or] at hnot
    obtain ⟨hlocal, hqueued, hstarted, hwaiting, hactive⟩ := hnot
    rw [faasmStat, if_neg hlocal, if_neg hqueued, if_neg hstarted, if_neg hwaiting, if_neg hactive]

variable {F : Type}

/-- The assignment that a pair makes. -/
def fieldWrite (item : Chars × Chars) : Option (WhichStat × Int64) :=
  (faasmStat item.1).bind fun which => (parseI64 item.2).map (which, ·)

theorem readFaasmField_valid {item : Chars × Chars} (hvalid : ValidField item.1 item.2)
    (s : Stats F) : s.readFaasmField item = .done (assign (fieldWrite item).toList s) := by
  obtain ⟨hfield, hvalue⟩ := hvalid
  obtain ⟨v, hv⟩ := Option.isSome_iff_exists.mp hvalue
  obtain ⟨which, hwhich⟩ := Option.ne_none_iff_exists'.mp
    (fun hnone => faasmStat_eq_none_iff.mp hnone hfield)
  simp only [Stats.readFaasmField, fieldWrite, hv, hwhich]
  rfl

theorem readFaasmField_invalid {item : Chars × Chars} (hinvalid : ¬ ValidField item.1 item.2)
    (s : Stats F) : ∃ error, s.readFaasmField item = .failed error s := by
  unfold Stats.readFaasmField
  split
  · exact ⟨_, rfl⟩
  · rename_i v hv
    rw [faasmStat_eq_none_iff.mpr fun hfield => hinvalid ⟨hfield, by rw [hv]; rfl⟩]
    exact ⟨_, rfl⟩

/-- Reading stops at the first wrong pair, after the pairs before it. -/
theorem each_readFaasmField (items : List (Chars × Chars)) (s : Stats F) :
    (∀ item ∈ items, ValidField item.1 item.2) ∧
      Outcome.each Stats.readFaasmField items s = .done (assign (items.filterMap fieldWrite) s) ∨
    ∃ front bad rest error, items = front ++ bad :: rest ∧
      (∀ item ∈ front, ValidField item.1 item.2) ∧ ¬ ValidField bad.1 bad.2 ∧
      Outcome.each Stats.readFaasmField items s =
        .failed error (assign (front.filterMap fieldWrite) s) := by
  by_cases hall : ∀ item ∈ items, ValidField item.1 item.2
  · exact .inl ⟨hall, each_assign (fun item hitem => readFaasmField_valid (hall item hitem)) s⟩
  · right
    obtain ⟨front, bad, rest, rfl, hfront, hbad⟩ : ∃ front bad rest, items = front ++ bad :: rest ∧
        (∀ item ∈ front, ValidField item.1 item.2) ∧ ¬ ValidField bad.1 bad.2 := by
      simp only [not_forall] at hall
      obtain ⟨item, hitem, hinvalid⟩ := hall
      have hfound : (items.find? fun item => decide (¬ ValidField item.1 item.2)).isSome = true :=
        List.find?_isSome.mpr ⟨item, hitem, decide_eq_true hinvalid⟩
      obtain ⟨bad, hbad⟩ := Option.isSome_iff_exists.mp hfound
      obtain ⟨hinvalid, front, rest, hitems, hfront⟩ := List.find?_eq_some_iff_append.mp hbad
      exact ⟨front, bad, rest, hitems, fun item hitem => by simpa using hfront item hitem,
        of_decide_eq_true hinvalid⟩
    obtain ⟨error, hfailed⟩ := readFaasmField_invalid hbad (assign (front.filterMap fieldWrite) s)
    refine ⟨front, bad, rest, error, rfl, hfront, hbad, ?_⟩
    rw [each_append, each_assign fun item hitem => readFaasmField_valid (hfront item hitem),
      andThen_done, each_cons, hfailed]
    rfl

/-- The statistics after these pairs: the last pair of a name counts. -/
structure Applied (items : List (Chars × Chars)) (s t : Stats F) : Prop where
  rest : t = { s with faasmOpen := true, faasmRewound := true, stats := t.stats }
  named : ∀ entry ∈ faasmNames, ∀ value, lastFor entry.1 items = some value →
    ∃ v, parseI64 value = some v ∧ t.stats entry.2 = (s.stats entry.2).setNow (.int v)
  unnamed : ∀ entry ∈ faasmNames, lastFor entry.1 items = none →
    t.stats entry.2 = s.stats entry.2
  others : ∀ which ∉ faasmStats, t.stats which = s.stats which

theorem lastFor_fieldWrite {items : List (Chars × Chars)}
    (hitems : ∀ item ∈ items, ValidField item.1 item.2) {name : Chars} {which : WhichStat}
    (hentry : (name, which) ∈ faasmNames) :
    lastFor which (items.filterMap fieldWrite) =
      (lastFor name items).map fun value => (parseI64 value).getD 0 := by
  have hwrites : items.filterMap fieldWrite =
      (items.map fun item => (item.1, (parseI64 item.2).getD 0)).filterMap fun w =>
        (faasmStat w.1).map (·, w.2) := by
    rw [List.filterMap_map]
    refine List.filterMap_congr fun item hitem => ?_
    obtain ⟨v, hv⟩ := Option.isSome_iff_exists.mp (hitems item hitem).2
    simp only [fieldWrite, Function.comp_apply, hv, Option.getD_some]
    cases faasmStat item.1 <;> rfl
  rw [hwrites, lastFor_filterMap (faasmStat_eq_some_iff hentry)]
  exact lastFor_map (fun value => (parseI64 value).getD 0) name items

theorem applied_assign {items : List (Chars × Chars)}
    (hitems : ∀ item ∈ items, ValidField item.1 item.2) (s : Stats F) :
    Applied items s
      (assign (items.filterMap fieldWrite) { s with faasmOpen := true, faasmRewound := true }) := by
  refine ⟨?_, ?_, ?_, ?_⟩
  · rw [assign_rest]
  · intro entry hentry value hvalue
    obtain ⟨front, rest, hsplit, -⟩ := lastFor_eq_some_iff.mp hvalue
    have hvalid := hitems (entry.1, value) (by rw [hsplit]; simp)
    obtain ⟨v, hv⟩ := Option.isSome_iff_exists.mp hvalid.2
    refine ⟨v, hv, ?_⟩
    rw [assign_stats, lastFor_fieldWrite hitems hentry, hvalue, Option.map_some, hv]
    rfl
  · intro entry hentry hnone
    rw [assign_stats, lastFor_fieldWrite hitems hentry, hnone]
    rfl
  · intro which hwhich
    have hnone : lastFor which (items.filterMap fieldWrite) = none := by
      rw [lastFor_eq_none_iff]
      intro w hw
      obtain ⟨item, -, hwrite⟩ := List.mem_filterMap.mp hw
      obtain ⟨touched, htouched, hmap⟩ := Option.bind_eq_some_iff.mp hwrite
      obtain ⟨v, -, rfl⟩ := Option.map_eq_some_iff.mp hmap
      rintro rfl
      exact hwhich (faasmStat_mem htouched)
    rw [assign_stats, hnone]
    rfl

/-- An update accepts exactly the files whose complete pairs are all valid; it applies
them all, and from any other file those before the first invalid one. -/
theorem faasm_format_exact {s : Stats F} {source : Source} {text : Chars}
    (htext : source.text = some text) (hopen : s.faasmOpen = true ∨ source.opens = true) :
    ((∃ t, s.updFaasm source = .done t) ↔ ∀ i field value, (tokens text)[2 * i]? = some field →
      (tokens text)[2 * i + 1]? = some value → ValidField field value) ∧
    (∀ t, s.updFaasm source = .done t → Applied (pairs (tokens text)) s t) ∧
    (∀ error t, s.updFaasm source = .failed error t → ∃ k field value,
      (tokens text)[2 * k]? = some field ∧ (tokens text)[2 * k + 1]? = some value ∧
      ¬ ValidField field value ∧
      (∀ i < k, ∀ field value, (tokens text)[2 * i]? = some field →
        (tokens text)[2 * i + 1]? = some value → ValidField field value) ∧
      Applied ((pairs (tokens text)).take k) s t) ∧
    (∀ message, s.updFaasm source ≠ .panicked message) ∧
    ∀ front last, tokens text = front ++ [last] → front.length % 2 = 0 →
      pairs (tokens text) = pairs front := by
  have hpair : ∀ i field value, (tokens text)[2 * i]? = some field →
      (tokens text)[2 * i + 1]? = some value → (pairs (tokens text))[i]? = some (field, value) := by
    intro i field value hfield hvalue
    rw [pairs_getElem?, hfield, hvalue]
    rfl
  have hrun : s.updFaasm source =
      Outcome.each Stats.readFaasmField (pairs (tokens text))
        { s with faasmOpen := true, faasmRewound := true } :=
    readSource_of_text hopen htext
  have hodd : ∀ front last, tokens text = front ++ [last] → front.length % 2 = 0 →
      pairs (tokens text) = pairs front := by
    intro front last htokens heven
    rw [htokens, pairs_concat heven]
  rcases each_readFaasmField (pairs (tokens text))
      { s with faasmOpen := true, faasmRewound := true } with
    ⟨hvalid, hdone⟩ | ⟨front, bad, rest, error, hitems, hfront, hbad, hfailed⟩
  · rw [hrun, hdone]
    refine ⟨⟨fun _ i field value hfield hvalue => ?_, fun _ => ⟨_, rfl⟩⟩, ?_, ?_, ?_, hodd⟩
    · exact hvalid _ (List.mem_of_getElem? (hpair i field value hfield hvalue))
    · rintro t ⟨⟩
      exact applied_assign hvalid s
    · rintro error t ⟨⟩
    · rintro message ⟨⟩
  · rw [hrun, hfailed]
    have hbadAt : (pairs (tokens text))[front.length]? = some bad := by
      rw [hitems, List.getElem?_append_right (Nat.le_refl _), Nat.sub_self, List.getElem?_cons_zero]
    obtain ⟨field, hfield, hmap⟩ := Option.bind_eq_some_iff.mp (pairs_getElem? _ _ ▸ hbadAt)
    obtain ⟨value, hvalue, rfl⟩ := Option.map_eq_some_iff.mp hmap
    refine ⟨⟨?_, fun hall => absurd (hall _ field value hfield hvalue) hbad⟩, ?_, ?_, ?_, hodd⟩
    · rintro ⟨t, ⟨⟩⟩
    · rintro t ⟨⟩
    · rintro error t ⟨⟩
      refine ⟨front.length, field, value, hfield, hvalue, hbad, ?_, ?_⟩
      · intro i hi other otherValue hother hotherValue
        have hget := hpair i other otherValue hother hotherValue
        rw [hitems, List.getElem?_append_left hi] at hget
        exact hfront _ (List.mem_of_getElem? hget)
      · rw [hitems, List.take_left]
        exact applied_assign hfront s
    · rintro message ⟨⟩

/-- A trailing comma with a newline after it, and `waiting` named twice. -/
theorem faasm_format_exact_twice :
    let text := "waiting,3,active, 4 ,waiting,+7,\n".toList
    ∃ t, emptyStats.updFaasm ⟨true, some text⟩ = .done t ∧
      (t.stats .faasmSuspended).valueNow = .int 7 ∧ (t.stats .faasmActive).valueNow = .int 4 ∧
        (t.stats .faasmStarted).valueNow = .int 0 := by
  intro text
  have htokens : tokens text = ["waiting".toList, "3".toList, "active".toList, "4".toList,
      "waiting".toList, "+7".toList, []] := by decide +kernel
  have htext : (⟨true, some text⟩ : Source).text = some text := rfl
  obtain ⟨hok, happlied, -⟩ := faasm_format_exact (s := emptyStats) htext (.inr rfl)
  have hvalid : ∀ item ∈ pairs (tokens text), ValidField item.1 item.2 := by
    rw [htokens]
    decide
  obtain ⟨t, hdone⟩ := hok.mpr fun i field value hfield hvalue => by
    have hget : (pairs (tokens text))[i]? = some (field, value) := by
      rw [pairs_getElem?, hfield, hvalue]
      rfl
    exact hvalid _ (List.mem_of_getElem? hget)
  have ht := happlied t hdone
  rw [htokens] at ht
  obtain ⟨v, hv, hwaiting⟩ := ht.named ("waiting".toList, .faasmSuspended) (by decide) "+7".toList rfl
  obtain ⟨w, hw, hactive⟩ := ht.named ("active".toList, .faasmActive) (by decide) "4".toList rfl
  have hstarted := ht.unnamed ("started".toList, .faasmStarted) (by decide) (by decide)
  have hseven : v = 7 := Option.some.inj (hv.symm.trans (by decide))
  have hfour : w = 4 := Option.some.inj (hw.symm.trans (by decide))
  refine ⟨t, hdone, ?_, ?_, ?_⟩
  · rw [hwaiting, hseven]
    rfl
  · rw [hactive, hfour]
    rfl
  · rw [hstarted]
    rfl

end NdpOffload.Statmon.FaasmMonitor
