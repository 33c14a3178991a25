import Mathlib.Data.List.Basic
import Mathlib.Tactic.Common

/-! Fallible updates of a state.  An error returned half way leaves the part of
the update that was already made behind; a panic leaves nothing. -/
namespace NdpOffload.Library.Outcomes

variable {ε σ τ α : Type*}

inductive Outcome (ε σ : Type*) where
  | done (state : σ)
  | failed (error : ε) (state : σ)
  | panicked (message : String)

/-- The `?` operator: go on from a success only. -/
def Outcome.andThen (outcome : Outcome ε σ) (next : σ → Outcome ε σ) : Outcome ε σ :=
  match outcome with
  | .done state => next state
  | .failed error state => .failed error state
  | .panicked message => .panicked message

/-- The update of a component as an update of the whole. -/
def Outcome.map (f : σ → τ) : Outcome ε σ → Outcome ε τ
  | .done state => .done (f state)
  | .failed error state => .failed error (f state)
  | .panicked message => .panicked message

/-- A `for` loop whose body may return early. -/
def Outcome.each (body : α → σ → Outcome ε σ) : List α → σ → Outcome ε σ
  | [], state => .done state
  | item :: items, state => (body item state).andThen (each body items)

@[simp] theorem andThen_done (state : σ) (next : σ → Outcome ε σ) :
    (Outcome.done state).andThen next = next state := rfl

theorem andThen_eq_done {outcome : Outcome ε σ} {next : σ → Outcome ε σ} {t : σ} :
    outcome.andThen next = .done t ↔ ∃ s, outcome = .done s ∧ next s = .done t := by
  cases outcome <;> simp [Outcome.andThen]

@[simp] theorem map_done (f : σ → τ) (state : σ) :
    (Outcome.done state : Outcome ε σ).map f = .done (f state) := rfl

theorem map_eq_done {outcome : Outcome ε σ} {f : σ → τ} {t : τ} :
    outcome.map f = .done t ↔ ∃ s, outcome = .done s ∧ f s = t := by
  cases outcome <;> simp [Outcome.map]

@[simp] theorem each_nil (body : α → σ → Outcome ε σ) (state : σ) :
    Outcome.each body [] state = .done state := rfl

@[simp] theorem each_cons (body : α → σ → Outcome ε σ) (item : α) (items : List α) (state : σ) :
    Outcome.each body (item :: items) state =
      (body item state).andThen (Outcome.each body items) := rfl

theorem each_append (body : α → σ → Outcome ε σ) (front rest : List α) (state : σ) :
    Outcome.each body (front ++ rest) state =
      (Outcome.each body front state).andThen (Outcome.each body rest) := by
  induction front generalizing state with
  | nil => rfl
  | cons item front ih =>
    rw [List.cons_append, each_cons, each_cons]
    cases body item state with
    | done t => exact ih t
    | failed error t => rfl
    | panicked message => rfl

theorem each_map {β : Type*} (body : α → σ → Outcome ε σ) (f : β → α) (items : List β) (state : σ) :
    Outcome.each body (items.map f) state = Outcome.each (fun item => body (f item)) items state := by
  induction items generalizing state with
  | nil => rfl
  | cons item items ih =>
    rw [List.map_cons, each_cons, each_cons]
    exact congrArg _ (funext ih)

/-- A loop over groups of items. -/
theorem each_flatten (body : α → σ → Outcome ε σ) (groups : List (List α)) (state : σ) :
    Outcome.each body groups.flatten state =
      Outcome.each (fun group => Outcome.each body group) groups state := by
  induction groups generalizing state with
  | nil => rfl
  | cons group groups ih =>
    rw [List.flatten_cons, each_append, each_cons]
    exact congrArg _ (funext ih)

/-- `Leaves P outcome`: the state left behind, after an error too, satisfies `P`. -/
def Outcome.Leaves (P : σ → Prop) : Outcome ε σ → Prop
  | .done state => P state
  | .failed _ state => P state
  | .panicked _ => True

section Leaves

variable {P : σ → Prop} {outcome : Outcome ε σ}

theorem Outcome.Leaves.of_done {t : σ} (hleaves : outcome.Leaves P) (hdone : outcome = .done t) :
    P t := by
  subst hdone
  exact hleaves

theorem Outcome.Leaves.of_failed {error : ε} {t : σ} (hleaves : outcome.Leaves P)
    (hfailed : outcome = .failed error t) : P t := by
  subst hfailed
  exact hleaves

theorem Outcome.Leaves.mono {Q : σ → Prop} (hleaves : outcome.Leaves P) (himp : ∀ s, P s → Q s) :
    outcome.Leaves Q := by
  cases outcome with
  | done state => exact himp state hleaves
  | failed error state => exact himp state hleaves
  | panicked message => trivial

theorem Outcome.Leaves.andThen {next : σ → Outcome ε σ} (hleaves : outcome.Leaves P)
    (hnext : ∀ s, P s → (next s).Leaves P) : (outcome.andThen next).Leaves P := by
  cases outcome with
  | done state => exact hnext state hleaves
  | failed error state => exact hleaves
  | panicked message => trivial

theorem Outcome.Leaves.map {Q : τ → Prop} {f : σ → τ} (hleaves : outcome.Leaves P)
    (hf : ∀ s, P s → Q (f s)) : (outcome.map f).Leaves Q := by
  cases outcome with
  | done state => exact hf state hleaves
  | failed error state => exact hf state hleaves
  | panicked message => trivial

/-- The loop rule: what every pass keeps, the loop keeps. -/
theorem leaves_each {body : α → σ → Outcome ε σ} (items : List α) {state : σ}
    (hbody : ∀ item ∈ items, ∀ s, P s → (body item s).Leaves P) (hstart : P state) :
    (Outcome.each body items state).Leaves P := by
  induction items generalizing state with
  | nil => exact hstart
  | cons item items ih =>
    apply (hbody item List.mem_cons_self state hstart).andThen
    intro s hs
    exact ih (fun i hi => hbody i (List.mem_cons_of_mem _ hi)) hs

/-- The loop rule that also speaks of the items so far: all of them after a success,
and after an error those up to the one that failed. -/
theorem each_history {body : α → σ → Outcome ε σ} {P : List α → σ → Prop} (items : List α) {s : σ}
    (hbody : ∀ past, ∀ item ∈ items, ∀ s, P past s → (body item s).Leaves (P (past ++ [item])))
    (hstart : P [] s) :
    (Outcome.each body items s).Leaves fun t => ∃ past, past <+: items ∧ P past t ∧
      (Outcome.each body items s = .done t → past = items) := by
  suffices hgeneral : ∀ past, P past s → (Outcome.each body items s).Leaves fun t =>
      ∃ more, more <+: items ∧ P (past ++ more) t ∧
        (Outcome.each body items s = .done t → more = items) from hgeneral [] hstart
  clear hstart
  intro past hpast
  induction items generalizing s past with
  | nil => exact ⟨[], List.nil_prefix, by simpa using hpast, fun _ => rfl⟩
  | cons item items ih =>
    have hitem := hbody past item List.mem_cons_self s hpast
    cases hrun : body item s with
    | panicked message => simp [hrun, Outcome.andThen, Outcome.Leaves]
    | failed error t =>
      simp only [each_cons, hrun, Outcome.andThen]
      refine ⟨[item], by simp, hitem.of_failed hrun, ?_⟩
      rintro ⟨⟩
    | done t =>
      have hrest := ih (fun past i hi => hbody past i (List.mem_cons_of_mem _ hi))
        (past ++ [item]) (hitem.of_done hrun)
      simp only [each_cons, hrun, andThen_done]
      refine hrest.mono ?_
      rintro u ⟨more, hpre, hmore, hdone⟩
      refine ⟨item :: more, List.cons_prefix_cons.mpr ⟨rfl, hpre⟩, by simpa using hmore, ?_⟩
      intro hu
      rw [hdone hu]

end Leaves

/-- `LeavesUnless E P outcome`: the state left behind satisfies `P`, except after an error
in `E`. -/
def Outcome.LeavesUnless (E : ε → Prop) (P : σ → Prop) : Outcome ε σ → Prop
  | .done state => P state
  | .failed error state => E error ∨ P state
  | .panicked _ => True

section LeavesUnless

variable {E : ε → Prop} {P : σ → Prop} {outcome : Outcome ε σ}

theorem Outcome.Leaves.unless (hleaves : outcome.Leaves P) : outcome.LeavesUnless E P := by
  cases outcome with
  | done state => exact hleaves
  | failed error state => exact .inr hleaves
  | panicked message => trivial

theorem Outcome.LeavesUnless.of_done {t : σ} (hleaves : outcome.LeavesUnless E P)
    (hdone : outcome = .done t) : P t := by
  subst hdone
  exact hleaves

theorem Outcome.LeavesUnless.of_failed {error : ε} {t : σ} (hleaves : outcome.LeavesUnless E P)
    (hfailed : outcome = .failed error t) (herror : ¬ E error) : P t := by
  subst hfailed
  exact hleaves.resolve_left herror

theorem Outcome.LeavesUnless.andThen {next : σ → Outcome ε σ} (hleaves : outcome.LeavesUnless E P)
    (hnext : ∀ s, P s → (next s).LeavesUnless E P) : (outcome.andThen next).LeavesUnless E P := by
  cases outcome with
  | done state => exact hnext state hleaves
  | failed error state => exact hleaves
  | panicked message => trivial

theorem Outcome.LeavesUnless.map {Q : τ → Prop} {f : σ → τ} (hleaves : outcome.LeavesUnless E P)
    (hf : ∀ s, P s → Q (f s)) : (outcome.map f).LeavesUnless E Q := by
  cases outcome with
  | done state => exact hf state hleaves
  | failed error state => exact hleaves.imp id (hf state)
  | panicked message => trivial

end LeavesUnless

/-- `PanicsOnly Q outcome`: the message of a panic satisfies `Q`. -/
def Outcome.PanicsOnly (Q : String → Prop) : Outcome ε σ → Prop
  | .done _ => True
  | .failed _ _ => True
  | .panicked message => Q message

section PanicsOnly

variable {Q : String → Prop} {outcome : Outcome ε σ}

theorem Outcome.PanicsOnly.of_panicked {message : String} (hpanics : outcome.PanicsOnly Q)
    (hpanicked : outcome = .panicked message) : Q message := by
  subst hpanicked
  exact hpanics

theorem Outcome.PanicsOnly.andThen {next : σ → Outcome ε σ} (hpanics : outcome.PanicsOnly Q)
    (hnext : ∀ s, (next s).PanicsOnly Q) : (outcome.andThen next).PanicsOnly Q := by
  cases outcome with
  | done state => exact hnext state
  | failed error state => trivial
  | panicked message => exact hpanics

theorem Outcome.PanicsOnly.map (f : σ → τ) (hpanics : outcome.PanicsOnly Q) :
    (outcome.map f).PanicsOnly Q := by
  cases outcome with
  | done state => trivial
  | failed error state => trivial
  | panicked message => exact hpanics

theorem panicsOnly_each {body : α → σ → Outcome ε σ}
    (hbody : ∀ item s, (body item s).PanicsOnly Q) (items : List α) (state : σ) :
    (Outcome.each body items state).PanicsOnly Q := by
  induction items generalizing state with
  | nil => trivial
  | cons item items ih => exact (hbody item state).andThen ih

end PanicsOnly

/-- Whenever the first update succeeds, so does the second, and the states that
they leave are related. -/
def Outcome.Follows (R : σ → τ → Prop) (outcome : Outcome ε σ) (other : Outcome ε τ) : Prop :=
  ∀ t, outcome = .done t → ∃ t', other = .done t' ∧ R t t'

section Follows

variable {R : σ → τ → Prop} {outcome : Outcome ε σ} {other : Outcome ε τ}

theorem follows_done {t : σ} {t' : τ} (hR : R t t') :
    (Outcome.done t : Outcome ε σ).Follows R (.done t') := by
  intro u hu
  cases hu
  exact ⟨t', rfl, hR⟩

theorem follows_failed (error : ε) (t : σ) (other : Outcome ε τ) :
    (Outcome.failed error t).Follows R other := by
  intro u hu
  cases hu

theorem follows_panicked (message : String) (other : Outcome ε τ) :
    (Outcome.panicked message : Outcome ε σ).Follows R other := by
  intro u hu
  cases hu

theorem Outcome.Follows.andThen {next : σ → Outcome ε σ} {next' : τ → Outcome ε τ}
    (hfollows : outcome.Follows R other) (hnext : ∀ t t', R t t' → (next t).Follows R (next' t')) :
    (outcome.andThen next).Follows R (other.andThen next') := by
  intro u hu
  obtain ⟨t, ht, hnextu⟩ := andThen_eq_done.mp hu
  obtain ⟨t', ht', hR⟩ := hfollows t ht
  obtain ⟨u', hu', hR'⟩ := hnext t t' hR u hnextu
  exact ⟨u', andThen_eq_done.mpr ⟨t', ht', hu'⟩, hR'⟩

theorem Outcome.Follows.map {σ' τ' : Type*} {R' : σ' → τ' → Prop} {f : σ → σ'} {g : τ → τ'}
    (hfollows : outcome.Follows R other) (hfg : ∀ t t', R t t' → R' (f t) (g t')) :
    (outcome.map f).Follows R' (other.map g) := by
  intro u hu
  obtain ⟨t, ht, rfl⟩ := map_eq_done.mp hu
  obtain ⟨t', ht', hR⟩ := hfollows t ht
  exact ⟨g t', map_eq_done.mpr ⟨t', ht', rfl⟩, hfg t t' hR⟩

/-- What each of the two updates leaves holds of the related states. -/
theorem Outcome.Follows.and_leaves {P : σ → Prop} {Q : τ → Prop}
    (hfollows : outcome.Follows R other) (hP : outcome.Leaves P) (hQ : other.Leaves Q) :
    outcome.Follows (fun t t' => P t ∧ Q t' ∧ R t t') other := by
  intro t ht
  obtain ⟨t', ht', hR⟩ := hfollows t ht
  exact ⟨t', ht', hP.of_done ht, hQ.of_done ht', hR⟩

/-- The loop rule for two loops over the same items. -/
theorem follows_each {body : α → σ → Outcome ε σ} {body' : α → τ → Outcome ε τ}
    (hbody : ∀ item t t', R t t' → (body item t).Follows R (body' item t')) (items : List α)
    {t : σ} {t' : τ} (hR : R t t') :
    (Outcome.each body items t).Follows R (Outcome.each body' items t') := by
  induction items generalizing t t' with
  | nil => exact follows_done hR
  | cons item items ih => exact (hbody item t t' hR).andThen fun _ _ hnext => ih hnext

end Follows

end NdpOffload.Library.Outcomes
