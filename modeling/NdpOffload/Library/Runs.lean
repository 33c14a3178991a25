import Mathlib.Data.List.Basic

/-! Finite runs of a labelled transition relation.  A run lists its events in
the order in which they happen; an invariant may mention that history. -/
namespace NdpOffload.Library.Runs

variable {State Event : Type*} {step : State → Event → State → Prop}

/-- `Run step s es t`: the events `es`, in order, lead from `s` to `t`. -/
inductive Run (step : State → Event → State → Prop) : State → List Event → State → Prop where
  | nil (s : State) : Run step s [] s
  | cons {s t u : State} {e : Event} {es : List Event} :
      step s e t → Run step t es u → Run step s (e :: es) u

@[simp] theorem run_nil_iff {s t : State} : Run step s [] t ↔ s = t := by
  constructor
  · intro hrun
    cases hrun
    rfl
  · rintro rfl
    exact .nil _

theorem run_cons_iff {s u : State} {e : Event} {es : List Event} :
    Run step s (e :: es) u ↔ ∃ t, step s e t ∧ Run step t es u := by
  constructor
  · intro hrun
    cases hrun with
    | cons hstep hrest => exact ⟨_, hstep, hrest⟩
  · rintro ⟨t, hstep, hrest⟩
    exact .cons hstep hrest

theorem run_append_iff {s u : State} {es fs : List Event} :
    Run step s (es ++ fs) u ↔ ∃ t, Run step s es t ∧ Run step t fs u := by
  induction es generalizing s with
  | nil => simp
  | cons e es ih =>
    simp only [List.cons_append, run_cons_iff, ih]
    constructor
    · rintro ⟨t, hstep, v, hleft, hright⟩
      exact ⟨v, ⟨t, hstep, hleft⟩, hright⟩
    · rintro ⟨v, ⟨t, hstep, hleft⟩, hright⟩
      exact ⟨t, hstep, v, hleft, hright⟩

theorem run_singleton_iff {s t : State} {e : Event} : Run step s [e] t ↔ step s e t := by
  simp [run_cons_iff]

/-- The run of a step function that may get stuck. -/
def execute (f : State → Event → Option State) (s : State) : List Event → Option State
  | [] => some s
  | e :: es => (f s e).bind fun t => execute f t es

theorem run_of_execute {f : State → Event → Option State} {es : List Event} {s t : State}
    (hexecute : execute f s es = some t) : Run (fun s e t => f s e = some t) s es t := by
  induction es generalizing s with
  | nil =>
    cases hexecute
    exact .nil _
  | cons e es ih =>
    obtain ⟨u, hfirst, hrest⟩ := Option.bind_eq_some_iff.1 hexecute
    exact .cons hfirst (ih hrest)

/-- The history rule: an invariant of the past events and the current state
that every step extends holds at the end of every run. -/
theorem Run.history (Inv : List Event → State → Prop)
    (hstep : ∀ past s e t, Inv past s → step s e t → Inv (past ++ [e]) t)
    {past es : List Event} {s t : State} (hrun : Run step s es t) (hinv : Inv past s) :
    Inv (past ++ es) t := by
  induction hrun generalizing past with
  | nil s => simpa using hinv
  | cons hfirst _ ih =>
    have hnext := ih (hstep _ _ _ _ hinv hfirst)
    simpa using hnext

/-- The history rule for a run from the beginning. -/
theorem Run.history_start (Inv : List Event → State → Prop)
    (hstep : ∀ past s e t, Inv past s → step s e t → Inv (past ++ [e]) t)
    {es : List Event} {s t : State} (hrun : Run step s es t) (hinv : Inv [] s) : Inv es t :=
  hrun.history Inv hstep hinv

/-- The state rule: a predicate that every step with an admissible event keeps
holds at the end of every run of admissible events. -/
theorem Run.invariant (Inv : State → Prop) {Ok : Event → Prop}
    (hstep : ∀ s e t, Ok e → Inv s → step s e t → Inv t)
    {es : List Event} {s t : State} (hrun : Run step s es t) (hok : ∀ e ∈ es, Ok e)
    (hinv : Inv s) : Inv t := by
  induction hrun with
  | nil s => exact hinv
  | cons hfirst _ ih =>
    exact ih (fun e he => hok e (List.mem_cons_of_mem _ he))
      (hstep _ _ _ (hok _ List.mem_cons_self) hinv hfirst)

theorem Run.always (Inv : State → Prop) (hstep : ∀ s e t, Inv s → step s e t → Inv t)
    {es : List Event} {s t : State} (hrun : Run step s es t) (hinv : Inv s) : Inv t :=
  hrun.history_start (fun _ => Inv) (fun _ s e t hs hst => hstep s e t hs hst) hinv

/-- When every admissible event can always happen, so can every list of them. -/
theorem exists_run (Ok : Event → Prop) (hstep : ∀ s e, Ok e → ∃ t, step s e t)
    (es : List Event) (hok : ∀ e ∈ es, Ok e) (s : State) : ∃ t, Run step s es t := by
  induction es generalizing s with
  | nil => exact ⟨s, .nil s⟩
  | cons e es ih =>
    obtain ⟨t, hfirst⟩ := hstep s e (hok e List.mem_cons_self)
    obtain ⟨u, hrest⟩ := ih (fun e he => hok e (List.mem_cons_of_mem _ he)) t
    exact ⟨u, .cons hfirst hrest⟩

/-! ### What holds along a run -/

/-- `P` holds in every state that the events lead through, `s` included. -/
def Along (step : State → Event → State → Prop) (s : State) (es : List Event)
    (P : State → Prop) : Prop :=
  ∀ front u, front <+: es → Run step s front u → P u

/-- `R` holds of every step that the events make. -/
def EachStep (step : State → Event → State → Prop) (s : State) (es : List Event)
    (R : State → Event → State → Prop) : Prop :=
  ∀ front e u v, front ++ [e] <+: es → Run step s front u → step u e v → R u e v

variable {s : State} {e : Event} {es : List Event} {P : State → Prop}
  {R : State → Event → State → Prop}

theorem along_nil_iff : Along step s [] P ↔ P s := by
  constructor
  · intro halong
    exact halong [] s List.nil_prefix (.nil s)
  · intro hs front u hprefix hrun
    cases List.prefix_nil.mp hprefix
    rwa [← run_nil_iff.mp hrun]

theorem along_cons_iff :
    Along step s (e :: es) P ↔ P s ∧ ∀ t, step s e t → Along step t es P := by
  constructor
  · intro halong
    refine ⟨halong [] s List.nil_prefix (.nil s), fun t hstep front u hprefix hrun => ?_⟩
    exact halong (e :: front) u (List.cons_prefix_cons.mpr ⟨rfl, hprefix⟩) (.cons hstep hrun)
  · rintro ⟨hs, hrest⟩ front u hprefix hrun
    cases hrun with
    | nil => exact hs
    | cons hstep hrun =>
      obtain ⟨rfl, hfront⟩ := List.cons_prefix_cons.mp hprefix
      exact hrest _ hstep _ _ hfront hrun

theorem eachStep_nil : EachStep step s [] R := by
  intro front e u v hprefix
  simp at hprefix

theorem eachStep_cons_iff :
    EachStep step s (e :: es) R ↔ ∀ t, step s e t → R s e t ∧ EachStep step t es R := by
  constructor
  · intro heach t hstep
    refine ⟨heach [] e s t (by simp) (.nil s) hstep, fun front e' u v hprefix hrun => ?_⟩
    exact heach (e :: front) e' u v (List.cons_prefix_cons.mpr ⟨rfl, hprefix⟩) (.cons hstep hrun)
  · intro hall front e' u v hprefix hrun hstep
    cases hrun with
    | nil =>
      obtain ⟨rfl, -⟩ := List.cons_prefix_cons.mp hprefix
      exact (hall _ hstep).1
    | cons hfirst hrun =>
      obtain ⟨rfl, hfront⟩ := List.cons_prefix_cons.mp hprefix
      exact (hall _ hfirst).2 _ _ _ _ hfront hrun hstep

/-- Where a condition on the steps is what keeps an invariant, the states along a run are
good exactly when its steps meet the condition. -/
theorem along_iff_eachStep {Inv Good : State → Prop} {Meets : State → Event → Prop}
    (hgood : ∀ s, Inv s → Good s)
    (hkeep : ∀ s e t, Inv s → step s e t → Meets s e → Inv t)
    (hneed : ∀ s e t, Inv s → step s e t → Good t → Meets s e) (es : List Event) (hinv : Inv s) :
    Along step s es Good ↔ EachStep step s es fun u e _ => Meets u e := by
  induction es generalizing s with
  | nil => exact ⟨fun _ => eachStep_nil, fun _ => along_nil_iff.mpr (hgood s hinv)⟩
  | cons e es ih =>
    rw [along_cons_iff, eachStep_cons_iff]
    constructor
    · rintro ⟨-, hrest⟩ t hstep
      have hmeets := hneed s e t hinv hstep (hrest t hstep [] t List.nil_prefix (.nil t))
      exact ⟨hmeets, (ih (hkeep s e t hinv hstep hmeets)).mp (hrest t hstep)⟩
    · intro hall
      refine ⟨hgood s hinv, fun t hstep => ?_⟩
      obtain ⟨hmeets, hrest⟩ := hall t hstep
      exact (ih (hkeep s e t hinv hstep hmeets)).mpr hrest

end NdpOffload.Library.Runs
