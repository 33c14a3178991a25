import Mathlib.Algebra.Order.Field.Rat
import Mathlib.Tactic.FieldSimp
import NdpOffload.Faasmspeed.Conservation
import NdpOffload.Library.Cycles

/-! Which requests may be offloaded, and with which input.  Request `k` of a
function is sent in a slot from 1 to the denominator and with an input of the
pool; both are cyclic, and the slot decides alone whether offloading is allowed. -/
namespace NdpOffload.Faasmspeed.Offload

open Library.Runs Library Library.Cycles Generator Conservation

variable {n : Nat}

/-- The value of `ndp_var` when request `k` is sent: the cycle begins at the
denominator, not at 1. -/
def slot (den k : Nat) : Nat := (k + (den - 1)) % den + 1

/-- The slots that allow offloading; a numerator above the denominator forces it
in all of them. -/
def share (den : Nat) (num : Int32) : Nat := (min (max num.toInt 0) den).toNat

/-- The offloading flag and the input of request `k`. -/
def choice (den : Nat) (plan : Plan) (k : Nat) : Bool × Nat :=
  (decide (slot den k ≤ share den plan.offloadFracNum), k % plan.poolSize)

def chosen (task : Task) : Bool × Nat := (task.ndp, task.which)

theorem slot_pos (den k : Nat) : 1 ≤ slot den k := Nat.le_add_left 1 _

theorem slot_le {den : Nat} (hpos : 1 ≤ den) (k : Nat) : slot den k ≤ den :=
  Nat.mod_lt _ hpos

theorem slot_zero {den : Nat} (hpos : 1 ≤ den) : slot den 0 = den := by
  rw [slot, Nat.zero_add, Nat.mod_eq_of_lt (by omega)]
  omega

theorem slot_succ {den : Nat} (hpos : 1 ≤ den) (k : Nat) :
    slot den (k + 1) = if slot den k = den then 1 else slot den k + 1 := by
  have hlt : (k + (den - 1)) % den < den := Nat.mod_lt _ hpos
  have hnext : k + 1 + (den - 1) = k + (den - 1) + 1 := by omega
  rw [slot, slot, hnext, Nat.add_mod]
  split
  · rename_i hlast
    by_cases hone : den = 1
    · subst hone
      simp [Nat.mod_one]
    · rw [Nat.mod_eq_of_lt (by omega : 1 < den),
        show (k + (den - 1)) % den + 1 = den by omega, Nat.mod_self]
  · rename_i hlast
    rw [Nat.mod_eq_of_lt (by omega : 1 < den), Nat.mod_eq_of_lt (by omega)]

/-! ### The invariant of a function -/

/-- Where the slot counter stands between two requests, and around the wrap. -/
def Slotted (den : Nat) (plan : Plan) (f : Fn) : FnPc → Prop
  | .starting => f.tasks.length = 0
  | .scheduling => f.tasks.length = 0 ∧ f.ndpVar.toInt + 1 = slot den 0
  | .looping k => f.tasks.length = k ∧
      (f.ndpVar.toInt + 1 = slot den k ∨ f.ndpVar.toInt = den ∧ slot den k = 1)
  | .adjusting k => f.tasks.length = k ∧
      (f.ndpVar.toInt = slot den k ∨ f.ndpVar.toInt = den + 1 ∧ slot den k = 1)
  | .spawning k ndp => f.tasks.length = k ∧ f.ndpVar.toInt = slot den k ∧
      ndp = decide (slot den k ≤ share den plan.offloadFracNum)
  | _ => True

structure Cycling (den : Nat) (plan : Plan) (f : Fn) : Prop where
  chosen_eq : f.tasks.map chosen = (List.range f.tasks.length).map (choice den plan)
  which_eq : f.whichRequest = f.tasks.length % plan.poolSize
  slotted : Slotted den plan f f.pc

theorem cycling_start (den : Nat) (plan : Plan) : Cycling den plan {} where
  chosen_eq := rfl
  which_eq := (Nat.zero_mod _).symm
  slotted := trivial

/-- A step outside the request loop keeps what was sent. -/
theorem Cycling.goTo {den : Nat} {plan : Plan} {f f' : Fn} (hf : Cycling den plan f)
    (htasks : f'.tasks = f.tasks) (hwhich : f'.whichRequest = f.whichRequest)
    (hslotted : Slotted den plan f' f'.pc) : Cycling den plan f' where
  chosen_eq := by rw [htasks]; exact hf.chosen_eq
  which_eq := by rw [hwhich, htasks]; exact hf.which_eq
  slotted := hslotted

section Cycling

variable {den : Nat} {dryRun : Bool} {offloadFracDen : Int32} {plan : Plan} {f f' : Fn}
  {act : FnAct}

theorem toInt_one : Int32.toInt 1 = 1 := rfl

theorem toInt_succ {var : Int32} (hlow : 0 ≤ var.toInt) (hhigh : var.toInt < 2 ^ 31 - 1) :
    (var + 1).toInt = var.toInt + 1 := by
  rw [Int32.toInt_add, toInt_one, Int.bmod_eq_of_le (by omega) (by omega)]

theorem toInt_sub (var other : Int32) (hlow : 0 ≤ other.toInt) (hhigh : other.toInt ≤ var.toInt) :
    (var - other).toInt = var.toInt - other.toInt :=
  Int32.toInt_sub_of_le _ _ (Int32.le_iff_toInt_le.mpr hlow) (Int32.le_iff_toInt_le.mpr hhigh)

/-- The test of `allow_ndp || force_ndp` asks for the slot only. -/
theorem allowed_iff (hden : offloadFracDen.toInt = den) {k : Nat} (hpos : 1 ≤ den)
    (hvar : f.ndpVar.toInt = slot den k) :
    (f.ndpVar ≤ plan.offloadFracNum ∨ offloadFracDen < plan.offloadFracNum) ↔
      slot den k ≤ share den plan.offloadFracNum := by
  have hslot := slot_le hpos k
  have hone := slot_pos den k
  rw [Int32.le_iff_toInt_le, Int32.lt_iff_toInt_lt, hden, hvar, share]
  omega

/-- The wrap loop leaves `ndp_var` at the slot of the request. -/
theorem Slotted.wrapped (hden : offloadFracDen.toInt = den) {k : Nat}
    (hslotted : Slotted den plan f (.adjusting k)) (hdone : ¬ offloadFracDen < f.ndpVar) :
    f.tasks.length = k ∧ f.ndpVar.toInt = slot den k := by
  obtain ⟨hlength, hvar | ⟨hvar, -⟩⟩ := hslotted
  · exact ⟨hlength, hvar⟩
  · rw [Int32.lt_iff_toInt_lt, hden, hvar] at hdone
    omega

/-- When the wrap loop runs, it subtracts once. -/
theorem Slotted.wrapping (hden : offloadFracDen.toInt = den) (hpos : 1 ≤ den) {k : Nat}
    (hslotted : Slotted den plan f (.adjusting k)) (hover : offloadFracDen < f.ndpVar) :
    f.tasks.length = k ∧ (f.ndpVar - offloadFracDen).toInt = slot den k ∧ slot den k = 1 := by
  rw [Int32.lt_iff_toInt_lt, hden] at hover
  have hslot := slot_le hpos k
  obtain ⟨hlength, hvar | ⟨hvar, hone⟩⟩ := hslotted
  · omega
  · refine ⟨hlength, ?_, hone⟩
    rw [toInt_sub _ _ (by omega) (by omega), hvar, hden, hone]
    omega

theorem Cycling.spawn (hpos : 1 ≤ den) (hf : Cycling den plan f) {requestId : Nat} {ndp : Bool}
    (hpc : f.pc = .spawning requestId ndp) (hwhich : f.whichRequest < plan.poolSize) :
    Cycling den plan
      { f with
        pc := .looping (requestId + 1)
        tasks := f.tasks ++ [⟨ndp, f.whichRequest, .spawned⟩]
        whichRequest := if f.whichRequest + 1 = plan.poolSize then 0 else f.whichRequest + 1 } := by
  have hslotted := hf.slotted
  rw [hpc] at hslotted
  obtain ⟨hlength, hvar, hndp⟩ := hslotted
  refine ⟨?_, ?_, ?_, ?_⟩
  · have hlast : chosen ⟨ndp, f.whichRequest, .spawned⟩ = choice den plan f.tasks.length := by
      rw [chosen, choice, hf.which_eq, hndp, hlength]
    simp only [List.map_append, List.map_singleton, List.length_append, List.length_singleton,
      List.range_succ, hf.chosen_eq, hlast]
  · have heq := hf.which_eq
    simp only [List.length_append, List.length_singleton]
    rw [Nat.add_mod]
    by_cases hone : plan.poolSize = 1
    · simp [hone, Nat.mod_one]
      omega
    · rw [Nat.mod_eq_of_lt (by omega : 1 < plan.poolSize), ← heq]
      split
      · rename_i hlast
        rw [hlast, Nat.mod_self]
      · rw [Nat.mod_eq_of_lt (by omega)]
  · simp [hlength]
  · have hnext := slot_succ hpos requestId
    show f.ndpVar.toInt + 1 = _ ∨ f.ndpVar.toInt = _ ∧ _
    split at hnext
    · exact .inr ⟨by omega, hnext⟩
    · exact .inl (by omega)

theorem Cycling.step (hden : offloadFracDen.toInt = den) (hpos : 1 ≤ den)
    (hsmall : den < 2 ^ 31 - 1) (hf : Cycling den plan f)
    (hstep : FnStep dryRun offloadFracDen plan f act f') : Cycling den plan f' := by
  have hslotted := hf.slotted
  cases hstep with
  | allocate hpc _ => exact ⟨rfl, (Nat.zero_mod _).symm, rfl⟩
  | start hpc =>
    rw [hpc] at hslotted
    refine hf.goTo rfl rfl ⟨hslotted, ?_⟩
    have hpred := toInt_sub offloadFracDen 1 (by decide) (by
      rw [toInt_one, hden]
      omega)
    show (offloadFracDen - 1).toInt + 1 = _
    rw [hpred, hden, toInt_one, slot_zero hpos]
    omega
  | schedule hpc _ =>
    rw [hpc] at hslotted
    exact hf.goTo rfl rfl ⟨hslotted.1, .inl hslotted.2⟩
  | @tick requestId hpc _ =>
    rw [hpc] at hslotted
    obtain ⟨hlength, hvar⟩ := hslotted
    have hslot := slot_le hpos requestId
    have hone := slot_pos den requestId
    have hsucc : (f.ndpVar + 1).toInt = f.ndpVar.toInt + 1 :=
      toInt_succ (by omega) (by omega)
    refine hf.goTo rfl rfl ⟨hlength, ?_⟩
    show (f.ndpVar + 1).toInt = _ ∨ (f.ndpVar + 1).toInt = _ ∧ _
    rw [hsucc]
    omega
  | @adjust requestId hpc hover =>
    rw [hpc] at hslotted
    obtain ⟨hlength, hvar, -⟩ := hslotted.wrapping hden hpos hover
    refine hf.goTo rfl rfl ?_
    show Slotted den plan _ f.pc
    rw [hpc]
    exact ⟨hlength, .inl hvar⟩
  | allowNdp hpc hdone hallowed =>
    rw [hpc] at hslotted
    obtain ⟨hlength, hvar⟩ := hslotted.wrapped hden hdone
    exact hf.goTo rfl rfl
      ⟨hlength, hvar, (decide_eq_true ((allowed_iff hden hpos hvar).mp hallowed)).symm⟩
  | forbidNdp hpc hdone hforbidden =>
    rw [hpc] at hslotted
    obtain ⟨hlength, hvar⟩ := hslotted.wrapped hden hdone
    exact hf.goTo rfl rfl
      ⟨hlength, hvar, (decide_eq_false (mt (allowed_iff hden hpos hvar).mpr hforbidden)).symm⟩
  | spawn hpc hwhich => exact hf.spawn hpos hpc hwhich
  | join hpc htask hstate =>
    refine hf.goTo rfl rfl ?_
    show Slotted den plan _ f.pc
    rw [hpc]
    trivial
  | _ => exact hf.goTo rfl rfl trivial

end Cycling

/-! ### Runs of the system -/

section Runs

variable {opts : Options n} {den : Nat} {s t : System n}

theorem map_chosen_set {tasks : List Task} {j : Nat} {task : Task}
    (htask : tasks[j]? = some task) (state : TaskState) :
    (tasks.set j { task with state := state }).map chosen = tasks.map chosen := by
  obtain ⟨hlt, hget⟩ := List.getElem?_eq_some_iff.mp htask
  have hj : j < (tasks.map chosen).length := by simpa
  have hsame : chosen { task with state := state } = (tasks.map chosen)[j] := by
    simp [hget, chosen]
  rw [List.map_set, hsame, List.set_getElem_self]

/-- A request task keeps its pair and its half of the pair. -/
theorem Cycling.setTask {plan : Plan} {f : Fn} (hf : Cycling den plan f) {j : Nat} {task : Task}
    (htask : f.tasks[j]? = some task) (state : TaskState) :
    Cycling den plan { f with tasks := f.tasks.set j { task with state := state } } := by
  refine ⟨?_, ?_, ?_⟩
  · simpa [map_chosen_set htask] using hf.chosen_eq
  · simpa using hf.which_eq
  · have hslotted := hf.slotted
    revert hslotted
    cases f.pc <;> simp [Slotted]

theorem run_cycling (hden : opts.offloadFracDen.toInt = den) (hpos : 1 ≤ den)
    (hsmall : den < 2 ^ 31 - 1) {es : List (Event n)} (hrun : Run (Step opts) start es s)
    (i : Fin n) : Cycling den (opts.functions i) (s.fns i) :=
  Phases.run_fn (Cycling den (opts.functions i)) (cycling_start den (opts.functions i))
    (fun _ _ _ hf hstep => hf.step hden hpos hsmall hstep)
    (fun _ _ _ state hf htask => hf.setTask htask state) hrun

end Runs

/-! ### Windows of requests -/

section Windows

variable {den : Nat} {plan : Plan} {f : Fn}

/-- Counting sent requests is counting the slots and inputs chosen for them. -/
theorem Cycling.countP_window (hf : Cycling den plan f) (test : Bool × Nat → Prop)
    [DecidablePred test] (first : Nat) {length : Nat} (hwindow : first + length ≤ f.tasks.length) :
    ((f.tasks.drop first).take length).countP (fun task => test (chosen task)) =
      Nat.count (fun k => test (choice den plan (first + k))) length := by
  have hmap : ((f.tasks.drop first).take length).countP (fun task => test (chosen task)) =
      (((f.tasks.map chosen).drop first).take length).countP fun c => test c := by
    rw [← List.map_drop, ← List.map_take, List.countP_map]
    rfl
  have hcount := Cycles.countP_window (choice den plan) (fun c => decide (test c)) hwindow
  simp only [decide_eq_true_eq] at hcount
  rw [hmap, hf.chosen_eq, hcount]

theorem periodic_slot (den m : Nat) : Function.Periodic (fun k => slot den k ≤ m) den := by
  intro k
  simp only [slot, Nat.add_right_comm k den, Nat.add_mod_right]

theorem slot_mod (den k : Nat) : slot den (k % den) = slot den k := by
  rw [slot, slot, Nat.mod_add_mod]

theorem share_le (hpos : 1 ≤ den) (num : Int32) : share den num ≤ den := by
  rw [share]
  omega

/-- In one cycle of the slots as many allow offloading as the share says. -/
theorem count_slot (hpos : 1 ≤ den) (num : Int32) :
    Nat.count (fun k => slot den k ≤ share den num) den = share den num := by
  have hperiod : Function.Periodic (fun k => k % den < share den num) den := by
    intro k
    simp
  have hshift := count_shift_of_periodic hperiod (den - 1)
  have hslots : (fun k => slot den k ≤ share den num) =
      fun k => (den - 1 + k) % den < share den num := by
    funext k
    rw [slot, Nat.succ_le_iff.symm, Nat.add_comm k]
  have hplain : Nat.count (fun k => k % den < share den num) den =
      Nat.count (fun k => k < share den num) den := by
    simp only [Nat.count_eq_card_filter_range]
    congr 1
    apply Finset.filter_congr
    intro k hk
    rw [Nat.mod_eq_of_lt (Finset.mem_range.mp hk)]
  simp only [hslots]
  rw [hshift, hplain, count_lt (share_le hpos num)]

theorem Cycling.ndp_window (hpos : 1 ≤ den) (hf : Cycling den plan f) {first : Nat}
    (hwindow : first + den ≤ f.tasks.length) :
    ((f.tasks.drop first).take den).countP Task.ndp = share den plan.offloadFracNum := by
  have hcount := hf.countP_window (fun c => c.1 = true) first hwindow
  have hshift := count_shift_of_periodic (periodic_slot den (share den plan.offloadFracNum)) first
  rw [count_slot hpos] at hshift
  simp only [choice, decide_eq_true_eq] at hcount
  have htest : ∀ task ∈ (f.tasks.drop first).take den,
      task.ndp = true ↔ decide ((chosen task).1 = true) = true :=
    fun _ _ => decide_eq_true_iff.symm
  rw [List.countP_congr htest, hcount, hshift]

theorem Cycling.ndp_deviation (hpos : 1 ≤ den) (hf : Cycling den plan f) :
    |(f.tasks.countP Task.ndp : ℚ) - f.tasks.length * share den plan.offloadFracNum / den| <
      share den plan.offloadFracNum + 1 := by
  have hall : f.tasks.countP Task.ndp =
      Nat.count (fun k => slot den k ≤ share den plan.offloadFracNum) f.tasks.length := by
    have hcount := hf.countP_window (fun c => c.1 = true) 0 (Nat.zero_add f.tasks.length).le
    simp only [choice, decide_eq_true_eq, List.drop_zero, List.take_length, Nat.zero_add] at hcount
    have htest : ∀ task ∈ f.tasks, task.ndp = true ↔ decide ((chosen task).1 = true) = true :=
      fun _ _ => decide_eq_true_iff.symm
    rw [List.countP_congr htest, hcount]
  have hint := count_deviation (periodic_slot den (share den plan.offloadFracNum)) hpos
    f.tasks.length
  rw [count_slot hpos, ← hall] at hint
  have hden : (0 : ℚ) < den := by exact_mod_cast hpos
  have hrat : |(f.tasks.countP Task.ndp : ℚ) * den -
      f.tasks.length * share den plan.offloadFracNum| <
        (share den plan.offloadFracNum + 1) * den := by
    exact_mod_cast hint
  have hsplit : (f.tasks.countP Task.ndp : ℚ) -
      f.tasks.length * share den plan.offloadFracNum / den =
        ((f.tasks.countP Task.ndp : ℚ) * den -
          f.tasks.length * share den plan.offloadFracNum) / den := by
    field_simp
  rw [hsplit, abs_div, abs_of_pos hden, div_lt_iff₀ hden]
  exact hrat

end Windows

/-- In every run, for every function: after the wrap loop, which subtracts at most
once, the slot is between 1 and the denominator; every window of as many requests
as the denominator has the share of offloaded ones, so all requests have it up to
less than one more; and the shared counter counts the offloaded ones. -/
theorem offload_windows (opts : Options n) (den : Nat) (hden : opts.offloadFracDen.toInt = den)
    (hpos : 1 ≤ den) (hsmall : den < 2 ^ 31 - 1) {es : List (Event n)} {s : System n}
    (hrun : Run (Step opts) start es s) :
    (∀ i requestId, (s.fns i).pc = .adjusting requestId →
      (¬ opts.offloadFracDen < (s.fns i).ndpVar →
        1 ≤ (s.fns i).ndpVar.toInt ∧ (s.fns i).ndpVar.toInt ≤ den) ∧
      (opts.offloadFracDen < (s.fns i).ndpVar →
        ¬ opts.offloadFracDen < (s.fns i).ndpVar - opts.offloadFracDen)) ∧
    (∀ i requestId ndp, (s.fns i).pc = .spawning requestId ndp →
      1 ≤ (s.fns i).ndpVar.toInt ∧ (s.fns i).ndpVar.toInt ≤ den) ∧
    (∀ i first, first + den ≤ (s.fns i).tasks.length →
      (((s.fns i).tasks.drop first).take den).countP Task.ndp =
        share den (opts.functions i).offloadFracNum) ∧
    (∀ i, |((s.fns i).tasks.countP Task.ndp : ℚ) -
        (s.fns i).tasks.length * share den (opts.functions i).offloadFracNum / den| <
      share den (opts.functions i).offloadFracNum + 1) ∧
    s.ndpRequests = Int64.ofNat (∑ i, ndpCounted (s.fns i)) := by
  have hcycling := run_cycling hden hpos hsmall hrun
  refine ⟨fun i requestId hpc => ?_, fun i requestId ndp hpc => ?_,
    fun i first hwindow => (hcycling i).ndp_window hpos hwindow,
    fun i => (hcycling i).ndp_deviation hpos, (run_conserved hrun).counters.ndp⟩
  · have hslotted := (hcycling i).slotted
    rw [hpc] at hslotted
    have hone := slot_pos den requestId
    have hslot := slot_le hpos requestId
    refine ⟨fun hdone => ?_, fun hover => ?_⟩
    · have hvar := (hslotted.wrapped hden hdone).2
      omega
    · have hvar := (hslotted.wrapping hden hpos hover).2.1
      rw [Int32.lt_iff_toInt_lt, hden, hvar]
      omega
  · have hslotted := (hcycling i).slotted
    rw [hpc] at hslotted
    have hone := slot_pos den requestId
    have hslot := slot_le hpos requestId
    have hvar := hslotted.2.1
    omega

/-- One function that offloads two requests in three, over a pool of five inputs. -/
def twoThirds : Options 1 where
  functions := fun _ => ⟨20, by decide, 5, 2, some 1⟩
  offloadFracDen := 3
  dryRun := false
  monitoringHosts := 0

theorem twoThirds_runnable (i : Fin 1) : (twoThirds.functions i).Runnable :=
  ⟨Nat.succ_pos 4, (by decide : 20 < 2 ^ 60), 1, rfl, Nat.one_pos⟩

/-- A finished run sends twenty requests, two of the three from the second on with
offloading allowed. -/
theorem offload_windows_twoThirds :
    ∃ (es : List (Event 1)) (s : System 1), Run (Step twoThirds) start es s ∧
      (s.fns 0).tasks.length = 20 ∧
      (((s.fns 0).tasks.drop 1).take 3).countP Task.ndp = 2 := by
  obtain ⟨s, ⟨es, hrun⟩, hreported⟩ :=
    exists_reported twoThirds (by decide) twoThirds_runnable
  have hlength : (s.fns 0).tasks.length = 20 :=
    (reported_finished (Phases.run_ordered hrun) hreported 0).1
  have hwindows := (offload_windows twoThirds 3 rfl (by decide) (by decide) hrun).2.2.1
  exact ⟨es, s, hrun, hlength, hwindows 0 1 (by omega)⟩

/-! ### Inputs -/

/-- With a pool size coprime to the denominator, every input of the pool is sent
equally often in every joint period of the two counters, with and without
offloading; and the index into the pool is always valid. -/
theorem inputs_offloaded_evenly (opts : Options n) (den : Nat)
    (hden : opts.offloadFracDen.toInt = den) (hpos : 1 ≤ den) (hsmall : den < 2 ^ 31 - 1)
    {es : List (Event n)} {s : System n} (hrun : Run (Step opts) start es s) (i : Fin n)
    (hpool : 1 ≤ (opts.functions i).poolSize) :
    (s.fns i).whichRequest < (opts.functions i).poolSize ∧
    (∀ task ∈ (s.fns i).tasks, task.which < (opts.functions i).poolSize) ∧
    ((opts.functions i).poolSize.Coprime den → ∀ first input,
      first + (opts.functions i).poolSize * den ≤ (s.fns i).tasks.length →
      input < (opts.functions i).poolSize →
      (((s.fns i).tasks.drop first).take ((opts.functions i).poolSize * den)).countP
          (fun task => task.which = input) = den ∧
      (((s.fns i).tasks.drop first).take ((opts.functions i).poolSize * den)).countP
          (fun task => task.which = input && task.ndp) =
        share den (opts.functions i).offloadFracNum) := by
  have hcycling := run_cycling hden hpos hsmall hrun i
  set plan := opts.functions i
  refine ⟨?_, fun task htask => ?_, fun hcoprime first input hwindow hinput => ?_⟩
  · rw [hcycling.which_eq]
    exact Nat.mod_lt _ hpool
  · have hmem : chosen task ∈ (s.fns i).tasks.map chosen := List.mem_map_of_mem htask
    rw [hcycling.chosen_eq] at hmem
    obtain ⟨k, _, hk⟩ := List.mem_map.mp hmem
    have hwhich : k % plan.poolSize = task.which := congrArg Prod.snd hk
    rw [← hwhich]
    exact Nat.mod_lt _ hpool
  · have hjoint : ∀ (q : Nat → Prop) [DecidablePred q],
        Nat.count (fun k => (first + k) % plan.poolSize = input ∧ q ((first + k) % den))
          (plan.poolSize * den) = Nat.count q den := by
      intro q _
      have hperiod : Function.Periodic
          (fun k => k % plan.poolSize = input ∧ q (k % den)) (plan.poolSize * den) := by
        intro k
        simp
      have hshift := count_shift_of_periodic hperiod first
      have hpairs := count_mod_mod hcoprime (fun k => k = input) q
      rw [hshift, hpairs, count_eq hinput, Nat.one_mul]
    have hsent := hcycling.countP_window (fun c => c.2 = input) first hwindow
    have hndp := hcycling.countP_window (fun c => c.2 = input ∧ c.1 = true) first hwindow
    simp only [choice, chosen, decide_eq_true_eq] at hsent hndp
    constructor
    · have hall := hjoint fun _ => True
      simp only [and_true, Nat.count_true] at hall
      exact hsent.trans hall
    · have hslot := hjoint fun k => slot den k ≤ share den plan.offloadFracNum
      simp only [slot_mod] at hslot
      rw [count_slot hpos] at hslot
      rw [← hslot, ← hndp]
      apply List.countP_congr
      intro task _
      rw [Bool.and_eq_true, decide_eq_true_iff]
      exact decide_eq_true_iff.symm

/-- Five inputs and a denominator of three: in the fifteen requests from the third
on, input 4 is sent three times and offloaded twice. -/
theorem inputs_offloaded_evenly_twoThirds :
    ∃ (es : List (Event 1)) (s : System 1), Run (Step twoThirds) start es s ∧
      (s.fns 0).whichRequest < 5 ∧
      (((s.fns 0).tasks.drop 2).take 15).countP (fun task => task.which = 4) = 3 ∧
      (((s.fns 0).tasks.drop 2).take 15).countP (fun task => task.which = 4 && task.ndp) = 2 := by
  obtain ⟨s, ⟨es, hrun⟩, hreported⟩ :=
    exists_reported twoThirds (by decide) twoThirds_runnable
  have hlength : (s.fns 0).tasks.length = 20 :=
    (reported_finished (Phases.run_ordered hrun) hreported 0).1
  obtain ⟨hvalid, -, heven⟩ := inputs_offloaded_evenly twoThirds 3 rfl (by decide)
    (by decide) hrun 0 (by decide)
  obtain ⟨hsent, hndp⟩ := heven (by decide) 2 4 (by rw [hlength]; decide) (by decide)
  exact ⟨es, s, hrun, hvalid, hsent, hndp⟩

end NdpOffload.Faasmspeed.Offload
