import Mathlib.Algebra.BigOperators.Fin
import NdpOffload.Faasmspeed.Phases

/-! No request is lost or counted twice.  The shared counters are sums over the
request tasks, and the report sorts every joined result into one of two vectors. -/
namespace NdpOffload.Faasmspeed.Conservation

open Library.Barriers Library.Runs Library.Text Generator Phases

variable {n : Nat}

/-! ### What a task has counted -/

def TaskState.isSent : TaskState → Bool
  | .spawned => false
  | _ => true

def TaskState.isReceived : TaskState → Bool
  | .received _ | .completed (.ok _) => true
  | _ => false

/-- The number of tasks of a function whose state passes a test. -/
def tasksWith (test : TaskState → Bool) (f : Fn) : Nat := f.tasks.countP fun task => test task.state

/-- The number of requests cloned from the half with offloading allowed.  The
counter is bumped just before the task exists. -/
def ndpTasks (f : Fn) : Nat := f.tasks.countP Task.ndp

def ndpCounted (f : Fn) : Nat :=
  ndpTasks f + match f.pc with
    | .spawning _ true => 1
    | _ => 0

theorem taskStep_isSent {dryRun : Bool} {state state' : TaskState} {act : TaskAct}
    (hstep : TaskStep dryRun state act state') :
    (if TaskState.isSent state' then 1 else 0) =
      (if TaskState.isSent state then 1 else 0) + if act = .addSent then 1 else 0 := by
  cases hstep <;> simp [TaskState.isSent]

theorem taskStep_isReceived {dryRun : Bool} {state state' : TaskState} {act : TaskAct}
    (hstep : TaskStep dryRun state act state') :
    (if TaskState.isReceived state' then 1 else 0) =
      (if TaskState.isReceived state then 1 else 0) + if act = .addRecv then 1 else 0 := by
  cases hstep <;> simp [TaskState.isReceived]

theorem countP_set_add {α : Type*} (p : α → Bool) {l : List α} {j : Nat} {old : α}
    (hold : l[j]? = some old) (new : α) :
    (l.set j new).countP p + (if p old then 1 else 0) =
      l.countP p + (if p new then 1 else 0) := by
  obtain ⟨hlt, hget⟩ := List.getElem?_eq_some_iff.mp hold
  rw [List.countP_set hlt, hget]
  by_cases hp : p old = true
  · have hpos : 0 < l.countP p := List.countP_pos_iff.mpr ⟨old, hget ▸ List.getElem_mem hlt, hp⟩
    simp only [hp, if_true]
    omega
  · simp [hp]

/-- A step of a function leaves the counts of its tasks alone: it spawns them
unsent. -/
theorem fnStep_tasksWith {dryRun : Bool} {den : Int32} {plan : Plan} {f f' : Fn} {act : FnAct}
    {test : TaskState → Bool} (hspawned : test .spawned = false) (hf : FnInv plan f)
    (hstep : FnStep dryRun den plan f act f') : tasksWith test f' = tasksWith test f := by
  cases hstep with
  | allocate hpc _ =>
    have hnone : f.tasks = [] := List.eq_nil_of_length_eq_zero (by
      simpa [hpc, FnPc.spawnedCount] using hf.spawned)
    simp [tasksWith, hnone]
  | spawn hpc _ => simp [tasksWith, List.countP_append, hspawned]
  | _ => rfl

theorem fnStep_ndpCounted {dryRun : Bool} {den : Int32} {plan : Plan} {f f' : Fn} {act : FnAct}
    (hf : FnInv plan f) (hstep : FnStep dryRun den plan f act f') :
    ndpCounted f' = ndpCounted f + if act = .addNdp then 1 else 0 := by
  cases hstep with
  | allocate hpc _ =>
    have hnone : f.tasks = [] := List.eq_nil_of_length_eq_zero (by
      simpa [hpc, FnPc.spawnedCount] using hf.spawned)
    simp [ndpCounted, ndpTasks, hnone, hpc]
  | @spawn requestId ndp hpc _ =>
    cases ndp <;> simp [ndpCounted, ndpTasks, List.countP_append, hpc]
  | adjust hpc _ => simp [ndpCounted, ndpTasks, hpc]
  | join hpc _ _ => simp [ndpCounted, ndpTasks, hpc]
  | _ => simp_all [ndpCounted, ndpTasks]

/-! ### The shared counters -/

def sentCount (s : System n) : Nat := ∑ i, tasksWith TaskState.isSent (s.fns i)

def receivedCount (s : System n) : Nat := ∑ i, tasksWith TaskState.isReceived (s.fns i)

def ndpCount (s : System n) : Nat := ∑ i, ndpTasks (s.fns i)

structure Counters (s : System n) : Prop where
  sent : s.sentRequests = Int64.ofNat (sentCount s)
  recv : s.recvRequests = Int64.ofNat (receivedCount s)
  ndp : s.ndpRequests = Int64.ofNat (∑ i, ndpCounted (s.fns i))

theorem counters_start : Counters (start : System n) := by
  refine ⟨?_, ?_, ?_⟩ <;>
    simp [start, sentCount, receivedCount, tasksWith, ndpCounted, ndpTasks]

section Counters

variable {opts : Options n} {s t : System n}

theorem fnEffect_counters (opts : Options n) (i : Fin n) (s : System n) (act : FnAct) :
    (s.fnEffect opts i act).sentRequests = s.sentRequests ∧
    (s.fnEffect opts i act).recvRequests = s.recvRequests ∧
    (s.fnEffect opts i act).ndpRequests =
      s.ndpRequests + Int64.ofNat (if act = .addNdp then 1 else 0) := by
  cases act <;> simp [System.fnEffect]

theorem taskEffect_counters (s : System n) (act : TaskAct) :
    (s.taskEffect act).sentRequests =
      s.sentRequests + Int64.ofNat (if act = .addSent then 1 else 0) ∧
    (s.taskEffect act).recvRequests =
      s.recvRequests + Int64.ofNat (if act = .addRecv then 1 else 0) ∧
    (s.taskEffect act).ndpRequests = s.ndpRequests := by
  cases act <;> simp [System.taskEffect]

theorem mainEffect_counters (s : System n) (act : MainAct n) :
    (s.mainEffect act).sentRequests = s.sentRequests ∧
    (s.mainEffect act).recvRequests = s.recvRequests ∧
    (s.mainEffect act).ndpRequests = s.ndpRequests := by
  cases act <;> exact ⟨rfl, rfl, rfl⟩

theorem Counters.fnStep (hs : Counters s) {act : FnAct} {f : Fn} (i : Fin n)
    (hinv : FnInv (opts.functions i) (s.fns i))
    (hfn : FnStep opts.dryRun opts.offloadFracDen (opts.functions i) (s.fns i) act f) :
    Counters { s.fnEffect opts i act with fns := Function.update s.fns i f } := by
  obtain ⟨hsent, hrecv, hndp⟩ := fnEffect_counters opts i s act
  refine ⟨?_, ?_, ?_⟩
  · have hsame := sum_update_same (fun _ => tasksWith TaskState.isSent)
      (fnStep_tasksWith rfl hinv hfn)
    exact (hsent.trans hs.sent).trans (congrArg Int64.ofNat hsame.symm)
  · have hsame := sum_update_same (fun _ => tasksWith TaskState.isReceived)
      (fnStep_tasksWith rfl hinv hfn)
    exact (hrecv.trans hs.recv).trans (congrArg Int64.ofNat hsame.symm)
  · exact int64_count hs.ndp hndp
      (sum_update_add (fun _ => ndpCounted) (fnStep_ndpCounted hinv hfn))

theorem tasksWith_set {test : TaskState → Bool} {f : Fn} {j : Nat} {task : Task}
    {state : TaskState} {extra : Nat} (htask : f.tasks[j]? = some task)
    (hextra : (if test state then 1 else 0) = (if test task.state then 1 else 0) + extra) :
    tasksWith test { f with tasks := f.tasks.set j { task with state := state } } =
      tasksWith test f + extra := by
  have hset := countP_set_add (fun task => test task.state) htask { task with state := state }
  simp only [tasksWith] at hset ⊢
  omega

theorem ndpTasks_set {f : Fn} {j : Nat} {task : Task} {state : TaskState}
    (htask : f.tasks[j]? = some task) :
    ndpTasks { f with tasks := f.tasks.set j { task with state := state } } = ndpTasks f := by
  have hset := countP_set_add Task.ndp htask { task with state := state }
  simp only [ndpTasks] at hset ⊢
  omega

theorem Counters.taskStep (hs : Counters s) {task : Task} {act : TaskAct} {state : TaskState}
    (i : Fin n) (j : Nat) (htask : (s.fns i).tasks[j]? = some task)
    (hact : TaskStep opts.dryRun task.state act state) :
    Counters ((s.taskEffect act).setTask i j { task with state := state }) := by
  obtain ⟨hsent, hrecv, hndp⟩ := taskEffect_counters s act
  obtain ⟨-, -, hfns⟩ := taskEffect_eq s act
  refine ⟨?_, ?_, ?_⟩
  · refine int64_count hs.sent hsent ?_
    rw [sentCount, System.setTask, hfns]
    exact sum_update_add (fun _ => tasksWith TaskState.isSent)
      (tasksWith_set htask (taskStep_isSent hact))
  · refine int64_count hs.recv hrecv ?_
    rw [receivedCount, System.setTask, hfns]
    exact sum_update_add (fun _ => tasksWith TaskState.isReceived)
      (tasksWith_set htask (taskStep_isReceived hact))
  · have hsame : ndpCounted { s.fns i with
        tasks := (s.fns i).tasks.set j { task with state := state } } = ndpCounted (s.fns i) := by
      rw [ndpCounted, ndpCounted, ndpTasks_set htask]
    have hsum := sum_update_same (fun _ => ndpCounted) hsame
    show (s.taskEffect act).ndpRequests = _
    rw [hndp, hs.ndp, System.setTask, hfns]
    exact congrArg Int64.ofNat hsum.symm

theorem Counters.step (hs : Counters s) (hordered : Ordered opts s) {e : Event n}
    (hstep : Step opts s e t) : Counters t := by
  cases hstep with
  | fn i hfn _ => exact hs.fnStep i (hordered.fns i) hfn
  | task i j htask hact => exact hs.taskStep i j htask hact
  | @main act pc _ _ =>
    obtain ⟨hsent, hrecv, hndp⟩ := mainEffect_counters s act
    have hfns := mainEffect_fns s act
    refine ⟨?_, ?_, ?_⟩
    · simpa only [sentCount, hfns] using hsent.trans hs.sent
    · simpa only [receivedCount, hfns] using hrecv.trans hs.recv
    · simpa only [hfns] using hndp.trans hs.ndp
  | progress _ => exact ⟨hs.sent, hs.recv, hs.ndp⟩

end Counters

/-! ### The collected results -/

/-- The number of functions whose results `async_main` has taken over. -/
def MainPc.collected (n : Nat) : MainPc → Nat
  | .collecting function => function
  | .reported => n
  | _ => 0

structure Collected (s : System n) : Prop where
  results : s.results.length = MainPc.collected n s.main
  errors : s.errors.length = MainPc.collected n s.main
  functions : ∀ i : Fin n, i < MainPc.collected n s.main → (s.fns i).pc = .returned ∧
    s.results[i.val]? = some (okResults (s.fns i).results) ∧
    s.errors[i.val]? = some (errResults (s.fns i).results)

theorem collected_start : Collected (start : System n) where
  results := rfl
  errors := rfl
  functions := by simp [start, MainPc.collected]

section Collected

variable {opts : Options n} {s t : System n}

/-- A function that has returned takes no further step. -/
theorem fnStep_returned {dryRun : Bool} {den : Int32} {plan : Plan} {f f' : Fn} {act : FnAct}
    (hstep : FnStep dryRun den plan f act f') : f.pc ≠ .returned := by
  cases hstep <;> simp_all

theorem Collected.fnStep (hs : Collected s) {act : FnAct} {f : Fn} (i : Fin n)
    (hfn : FnStep opts.dryRun opts.offloadFracDen (opts.functions i) (s.fns i) act f) :
    Collected { s.fnEffect opts i act with fns := Function.update s.fns i f } := by
  have hkeep : (s.fnEffect opts i act).results = s.results ∧
      (s.fnEffect opts i act).errors = s.errors := by
    cases act <;> exact ⟨rfl, rfl⟩
  have hmain := fnEffect_main opts i s act
  refine ⟨by simpa only [hkeep.1, hmain] using hs.results,
    by simpa only [hkeep.2, hmain] using hs.errors, ?_⟩
  intro j hj
  rw [hmain] at hj
  have hold := hs.functions j hj
  have hne : j ≠ i := by
    rintro rfl
    exact fnStep_returned hfn hold.1
  simpa only [Function.update_of_ne hne, hkeep] using hold

theorem Collected.taskStep (hs : Collected s) (act : TaskAct) (i : Fin n) (j : Nat) (task : Task) :
    Collected ((s.taskEffect act).setTask i j task) := by
  have hkeep : (s.taskEffect act).results = s.results ∧ (s.taskEffect act).errors = s.errors := by
    cases act <;> exact ⟨rfl, rfl⟩
  obtain ⟨-, hmain, hfns⟩ := taskEffect_eq s act
  have hsame : ∀ k, (((s.taskEffect act).setTask i j task).fns k).results = (s.fns k).results := by
    intro k
    by_cases heq : k = i
    · subst heq
      simp [System.setTask, hfns]
    · simp [System.setTask, hfns, heq]
  refine ⟨?_, ?_, ?_⟩
  · show (s.taskEffect act).results.length = MainPc.collected n (s.taskEffect act).main
    rw [hkeep.1, hmain]
    exact hs.results
  · show (s.taskEffect act).errors.length = MainPc.collected n (s.taskEffect act).main
    rw [hkeep.2, hmain]
    exact hs.errors
  · intro k hk
    have hold := hs.functions k (by rw [← hmain]; exact hk)
    rw [setTask_pc, hsame, hfns]
    simpa only [System.setTask, hkeep] using hold

/-- Only `collect` changes what is collected. -/
theorem mainStep_collected {mhosts : Nat} {pc pc' : MainPc} {act : MainAct n}
    (hstep : MainStep n mhosts pc act pc') :
    (∃ i : Fin n, act = .collect i ∧ pc = .collecting i ∧ pc' = .collecting (i + 1)) ∨
      (∀ i, act ≠ .collect i) ∧ MainPc.collected n pc' = MainPc.collected n pc := by
  cases hstep with
  | collect i => exact .inl ⟨i, rfl, rfl, rfl⟩
  | _ => exact .inr ⟨by simp, rfl⟩

theorem Collected.collect (hs : Collected s) {i : Fin n} (hpc : s.main = .collecting i)
    (hreturned : (s.fns i).pc = .returned) :
    Collected { s.mainEffect (.collect i) with main := .collecting (i + 1) } := by
  have hresults := hs.results
  have herrors := hs.errors
  rw [hpc] at hresults herrors
  refine ⟨by simp [System.mainEffect, MainPc.collected, hresults],
    by simp [System.mainEffect, MainPc.collected, herrors], ?_⟩
  intro j hj
  simp only [MainPc.collected] at hj hresults herrors
  simp only [System.mainEffect]
  rcases Nat.lt_succ_iff_lt_or_eq.mp hj with hlt | heq
  · have hold := hs.functions j (by rw [hpc]; exact hlt)
    rw [List.getElem?_append_left (by omega), List.getElem?_append_left (by omega)]
    exact hold
  · have hji : j = i := Fin.ext heq
    subst hji
    rw [← hresults, List.getElem?_concat_length, hresults, ← herrors, List.getElem?_concat_length]
    exact ⟨hreturned, rfl, rfl⟩

theorem Collected.step (hs : Collected s) {e : Event n} (hstep : Step opts s e t) :
    Collected t := by
  cases hstep with
  | fn i hfn _ => exact hs.fnStep i hfn
  | task i j _ _ => exact hs.taskStep _ i j _
  | @main act pc hmain hready =>
    rcases mainStep_collected hmain with ⟨i, rfl, hpc, rfl⟩ | ⟨hother, hsame⟩
    · exact hs.collect hpc hready
    · have hkeep : (s.mainEffect act).results = s.results ∧
          (s.mainEffect act).errors = s.errors := by
        cases act with
        | collect i => exact absurd rfl (hother i)
        | _ => exact ⟨rfl, rfl⟩
      refine ⟨?_, ?_, ?_⟩
      · rw [hkeep.1, hsame]
        exact hs.results
      · rw [hkeep.2, hsame]
        exact hs.errors
      · rw [hkeep.1, hkeep.2, hsame, mainEffect_fns]
        exact hs.functions
  | progress _ => exact ⟨hs.results, hs.errors, hs.functions⟩

end Collected

/-! ### Schedules that reach the report -/

/-- A schedule of one function and its tasks alone. -/
structure Serves (opts : Options n) (i : Fin n) (s t : System n) : Prop where
  reaches : Reaches opts s t
  main : t.main = s.main
  display : SameDisplay s t
  others : ∀ j, j ≠ i → t.fns j = s.fns j

section Serves

variable {opts : Options n} {i : Fin n} {s t u : System n}

theorem Serves.refl (s : System n) : Serves opts i s s :=
  ⟨.refl s, rfl, ⟨rfl, rfl⟩, fun _ _ => rfl⟩

theorem Serves.trans (hst : Serves opts i s t) (htu : Serves opts i t u) : Serves opts i s u where
  reaches := hst.reaches.trans htu.reaches
  main := htu.main.trans hst.main
  display := hst.display.trans htu.display
  others := fun j hj => (htu.others j hj).trans (hst.others j hj)

theorem serves_fn (opts : Options n) {act : FnAct} {f : Fn} (hact : act ≠ .resume)
    (hstep : FnStep opts.dryRun opts.offloadFracDen (opts.functions i) (s.fns i) act f) :
    ∃ t, Serves opts i s t ∧ t.fns i = f := by
  refine ⟨{ s.fnEffect opts i act with fns := Function.update s.fns i f }, ?_, by simp⟩
  refine ⟨.step (.fn i hstep fun h => absurd h hact), fnEffect_main opts i s act,
    fnEffect_display opts i s act, ?_⟩
  intro j hj
  simp [hj]

theorem serves_task (opts : Options n) {j : Nat} {task : Task} {act : TaskAct} {state : TaskState}
    (htask : (s.fns i).tasks[j]? = some task) (hstep : TaskStep opts.dryRun task.state act state) :
    ∃ t, Serves opts i s t ∧
      t.fns i = { s.fns i with tasks := (s.fns i).tasks.set j { task with state := state } } := by
  obtain ⟨-, hmain, hfns⟩ := taskEffect_eq s act
  have hdisplay : SameDisplay s (s.taskEffect act) := by cases act <;> exact ⟨rfl, rfl⟩
  refine ⟨(s.taskEffect act).setTask i j { task with state := state }, ?_, ?_⟩
  · refine ⟨.step (.task i j htask hstep), hmain, hdisplay, ?_⟩
    intro k hk
    simp [System.setTask, hfns, hk]
  · simp [System.setTask, hfns]

/-- A spawned request can be sent and answered. -/
theorem serves_request (opts : Options n) {j : Nat} {task : Task}
    (htask : (s.fns i).tasks[j]? = some task) (hspawned : task.state = .spawned) :
    ∃ t result, Serves opts i s t ∧ t.fns i = { s.fns i with
      tasks := (s.fns i).tasks.set j { task with state := .completed (.ok result) } } := by
  have hlt : j < (s.fns i).tasks.length := (List.getElem?_eq_some_iff.mp htask).1
  have hsend : TaskStep opts.dryRun task.state .addSent (.sent 0) := by
    rw [hspawned]
    exact .send 0
  obtain ⟨s₁, hs₁, hf₁⟩ := serves_task opts htask hsend
  have hsent : (s₁.fns i).tasks[j]? = some { task with state := .sent 0 } := by
    simp [hf₁, hlt]
  have hanswered : ∃ result, TaskStep opts.dryRun (.sent 0) .addRecv (.received result) := by
    cases hdry : opts.dryRun with
    | true => exact ⟨_, .receiveDry rfl⟩
    | false => exact ⟨_, .receive 0 0 0 rfl⟩
  obtain ⟨result, hreceive⟩ := hanswered
  obtain ⟨s₂, hs₂, hf₂⟩ := serves_task opts hsent hreceive
  have hreceived : (s₂.fns i).tasks[j]? = some { task with state := .received result } := by
    simp [hf₂, hf₁, hlt]
  obtain ⟨s₃, hs₃, hf₃⟩ := serves_task opts hreceived .complete
  refine ⟨s₃, result, (hs₁.trans hs₂).trans hs₃, ?_⟩
  rw [hf₃, hf₂, hf₁]
  simp

theorem int32_sub_lt {a b : Int32} (hb : 0 < b) (hab : b < a) :
    (a - b).toInt.toNat < a.toInt.toNat := by
  rw [Int32.lt_iff_toInt_lt] at hb hab
  have hmax := Int32.toInt_lt a
  have hzero : (0 : Int32).toInt = 0 := rfl
  rw [Int32.toInt_sub, Int.bmod_eq_of_le (by omega) (by omega)]
  omega

/-- With a positive denominator the fraction counter is soon small enough. -/
theorem serves_adjust (hden : 0 < opts.offloadFracDen) {requestId : Nat}
    (hpc : (s.fns i).pc = .adjusting requestId) :
    ∃ t ndp, Serves opts i s t ∧ (t.fns i).pc = .spawning requestId ndp ∧
      (t.fns i).tasks = (s.fns i).tasks ∧ (t.fns i).whichRequest = (s.fns i).whichRequest := by
  induction hm : (s.fns i).ndpVar.toInt.toNat using Nat.strong_induction_on generalizing s with
  | _ m ih =>
    by_cases hlarge : opts.offloadFracDen < (s.fns i).ndpVar
    · obtain ⟨t, hst, hf⟩ := serves_fn opts (by simp) (FnStep.adjust hpc hlarge)
      have hless := int32_sub_lt hden hlarge
      obtain ⟨u, ndp, htu, hspawning, htasks, hwhich⟩ :=
        ih _ (hm ▸ hless) (by rw [hf]; exact hpc) (by rw [hf])
      exact ⟨u, ndp, hst.trans htu, hspawning, by rw [htasks, hf], by rw [hwhich, hf]⟩
    · by_cases hallow : (s.fns i).ndpVar ≤ (opts.functions i).offloadFracNum ∨
          opts.offloadFracDen < (opts.functions i).offloadFracNum
      · obtain ⟨t, hst, hf⟩ := serves_fn opts (by simp) (FnStep.allowNdp hpc hlarge hallow)
        exact ⟨t, true, hst, by rw [hf], by rw [hf], by rw [hf]⟩
      · obtain ⟨t, hst, hf⟩ := serves_fn opts (by simp) (FnStep.forbidNdp hpc hlarge hallow)
        exact ⟨t, false, hst, by rw [hf], by rw [hf], by rw [hf]⟩

/-- A function that has got through its first requests. -/
structure Served (plan : Plan) (requestId : Nat) (f : Fn) : Prop where
  pc : f.pc = .looping requestId
  which : f.whichRequest < plan.poolSize
  count : f.tasks.length = requestId
  completed : ∀ task ∈ f.tasks, ∃ result, task.state = .completed result

theorem serves_next (hden : 0 < opts.offloadFracDen) {requestId : Nat}
    (hs : Served (opts.functions i) requestId (s.fns i))
    (hlt : requestId < (opts.functions i).totalRequests) :
    ∃ t, Serves opts i s t ∧ Served (opts.functions i) (requestId + 1) (t.fns i) := by
  obtain ⟨s₁, hs₁, hf₁⟩ := serves_fn opts (by simp) (FnStep.tick hs.pc hlt)
  have hadjusting : (s₁.fns i).pc = .adjusting requestId := by rw [hf₁]
  obtain ⟨s₂, ndp, hs₂, hpc₂, htasks₂, hwhich₂⟩ := serves_adjust hden hadjusting
  have htasks : (s₂.fns i).tasks = (s.fns i).tasks := by rw [htasks₂, hf₁]
  have hwhich : (s₂.fns i).whichRequest < (opts.functions i).poolSize := by
    rw [hwhich₂, hf₁]
    exact hs.which
  obtain ⟨s₃, hs₃, hf₃⟩ := serves_fn opts (by simp) (FnStep.spawn hpc₂ hwhich)
  have hspawned : (s₃.fns i).tasks[requestId]? =
      some ⟨ndp, (s₂.fns i).whichRequest, .spawned⟩ := by
    rw [hf₃, htasks, ← hs.count]
    exact List.getElem?_concat_length
  obtain ⟨s₄, result, hs₄, hf₄⟩ := serves_request opts hspawned rfl
  refine ⟨s₄, ((hs₁.trans hs₂).trans hs₃).trans hs₄, ?_, ?_, ?_, ?_⟩
  · rw [hf₄, hf₃]
  · rw [hf₄, hf₃]
    show (if (s₂.fns i).whichRequest + 1 = (opts.functions i).poolSize then 0
      else (s₂.fns i).whichRequest + 1) < _
    split <;> omega
  · rw [hf₄, hf₃]
    simp [htasks, hs.count]
  · rw [hf₄, hf₃]
    intro task hmem
    simp only [htasks] at hmem
    rw [List.set_append_right _ _ hs.count.le, hs.count] at hmem
    simp only [Nat.sub_self, List.set_cons_zero, List.mem_append, List.mem_singleton] at hmem
    rcases hmem with hold | rfl
    · exact hs.completed task hold
    · exact ⟨_, rfl⟩

theorem serves_loop (hden : 0 < opts.offloadFracDen) {requestId : Nat}
    (hs : Served (opts.functions i) requestId (s.fns i))
    (hle : requestId ≤ (opts.functions i).totalRequests) :
    ∃ t, Serves opts i s t ∧
      Served (opts.functions i) (opts.functions i).totalRequests (t.fns i) := by
  induction hm : (opts.functions i).totalRequests - requestId generalizing s requestId with
  | zero =>
    have heq : requestId = (opts.functions i).totalRequests := by omega
    exact ⟨s, .refl s, heq ▸ hs⟩
  | succ m ih =>
    obtain ⟨t, hst, ht⟩ := serves_next hden hs (by omega)
    obtain ⟨u, htu, hu⟩ := ih ht (by omega) (by omega)
    exact ⟨u, hst.trans htu, hu⟩

theorem serves_joins (opts : Options n) (hpc : (s.fns i).pc = .joining)
    (hle : (s.fns i).results.length ≤ (s.fns i).tasks.length)
    (hall : ∀ task ∈ (s.fns i).tasks, ∃ result, task.state = .completed result) :
    ∃ t, Serves opts i s t ∧ (t.fns i).pc = .joining ∧
      (t.fns i).results.length = (t.fns i).tasks.length := by
  induction hm : (s.fns i).tasks.length - (s.fns i).results.length generalizing s with
  | zero => exact ⟨s, .refl s, hpc, by omega⟩
  | succ m ih =>
    have hlt : (s.fns i).results.length < (s.fns i).tasks.length := by omega
    obtain ⟨result, hresult⟩ := hall _ (List.getElem_mem hlt)
    obtain ⟨t, hst, hf⟩ := serves_fn opts (by simp)
      (FnStep.join hpc (List.getElem?_eq_getElem hlt) hresult)
    obtain ⟨u, htu, hu⟩ := ih (s := t) (by rw [hf]; exact hpc)
      (by rw [hf]; simp; omega) (by rw [hf]; exact hall) (by rw [hf]; simp; omega)
    exact ⟨u, hst.trans htu, hu⟩

/-- The loop of a function begins: its counter stands one below the denominator. -/
theorem serves_start (hfits : (opts.functions i).totalRequests < 2 ^ 60)
    (hperiodic : (opts.functions i).Periodic) (hpc : (s.fns i).pc = .allocating) :
    ∃ t, Serves opts i s t ∧ t.fns i =
      { s.fns i with
        pc := .looping 0, ndpVar := opts.offloadFracDen - 1, whichRequest := 0, tasks := [] } := by
  obtain ⟨s₁, hs₁, hf₁⟩ := serves_fn opts (by simp) (FnStep.allocate hpc hfits)
  obtain ⟨s₂, hs₂, hf₂⟩ := serves_fn opts (by simp) (FnStep.start (by rw [hf₁]))
  obtain ⟨s₃, hs₃, hf₃⟩ := serves_fn opts (by simp) (FnStep.schedule (by rw [hf₂]) hperiodic)
  exact ⟨s₃, (hs₁.trans hs₂).trans hs₃, by rw [hf₃, hf₂, hf₁]⟩

/-- A function gets from the third wait to the fourth. -/
theorem serves_function (hden : 0 < opts.offloadFracDen) (hplan : (opts.functions i).Runnable)
    (hpc : (s.fns i).pc = .allocating) :
    ∃ t, Serves opts i s t ∧ (t.fns i).pc = .joined := by
  obtain ⟨s₁, hs₁, hf₁⟩ := serves_start hplan.fits hplan.periodic hpc
  have hserved : Served (opts.functions i) 0 (s₁.fns i) := by
    rw [hf₁]
    exact ⟨rfl, hplan.stocked, rfl, by simp⟩
  obtain ⟨s₂, hs₂, hserved₂⟩ := serves_loop hden hserved (Nat.zero_le _)
  obtain ⟨s₃, hs₃, hf₃⟩ := serves_fn opts (by simp) (FnStep.loopDone hserved₂.pc (by omega))
  obtain ⟨s₄, hs₄, hpc₄, hjoined⟩ := serves_joins opts (s := s₃) (i := i) (by rw [hf₃])
    (by rw [hf₃]; simp) (by rw [hf₃]; exact hserved₂.completed)
  obtain ⟨s₅, hs₅, hf₅⟩ := serves_fn opts (by simp) (FnStep.joinDone hpc₄ hjoined)
  exact ⟨s₅, (((hs₁.trans hs₂).trans hs₃).trans hs₄).trans hs₅, by rw [hf₅]⟩

theorem each_served (hden : 0 < opts.offloadFracDen) (hplans : ∀ i, (opts.functions i).Runnable)
    (hfns : ∀ i, (s.fns i).pc = .allocating) :
    ∃ t, Reaches opts s t ∧ t.main = s.main ∧ SameDisplay s t ∧ ∀ i, (t.fns i).pc = .joined := by
  have hsome : ∀ served : Finset (Fin n), ∃ t, Reaches opts s t ∧ t.main = s.main ∧
      SameDisplay s t ∧ ∀ i, (t.fns i).pc = if i ∈ served then .joined else .allocating := by
    intro served
    induction served using Finset.induction with
    | empty => exact ⟨s, .refl s, rfl, ⟨rfl, rfl⟩, by simpa using hfns⟩
    | insert i served hnew ih =>
      obtain ⟨t, hreach, hmain, hsame, ht⟩ := ih
      obtain ⟨u, htu, hu⟩ := serves_function hden (hplans i) (by simpa [hnew] using ht i)
      refine ⟨u, hreach.trans htu.reaches, htu.main.trans hmain, hsame.trans htu.display, ?_⟩
      intro j
      by_cases heq : j = i
      · subst heq
        simpa using hu
      · rw [htu.others j heq]
        simpa [heq] using ht j
  obtain ⟨t, hreach, hmain, hsame, ht⟩ := hsome Finset.univ
  exact ⟨t, hreach, hmain, hsame, fun i => by simpa using ht i⟩

/-- `async_main` closes a range at one host. -/
theorem closes_host (host : Nat) (hlt : host < opts.mhosts) (hpc : s.main = .closing host) :
    ∃ t, Reaches opts s t ∧ t.main = .closing (host + 1) ∧ SameDisplay s t ∧ t.fns = s.fns := by
  have hclose := reaches_main hpc (.closeRange hlt) trivial
  have hread := hclose.trans (reaches_main rfl (.readLine []) trivial)
  exact ⟨_, hread.trans (reaches_main rfl .quit trivial), rfl, ⟨rfl, rfl⟩, rfl⟩

theorem each_collected (hreach : Reaches opts start s) (hpc : s.main = .collecting 0)
    (hfns : ∀ i, (s.fns i).pc = .returned) :
    ∃ t, Reaches opts start t ∧ t.main = .collecting n := by
  have hsome : ∀ k ≤ n, ∃ t, Reaches opts start t ∧ t.main = .collecting k ∧ t.fns = s.fns := by
    intro k hk
    induction k with
    | zero => exact ⟨s, hreach, hpc, rfl⟩
    | succ k ih =>
      obtain ⟨t, hreach, hmain, hsame⟩ := ih (by omega)
      have hready : (t.fns ⟨k, hk⟩).pc = .returned := by rw [hsame]; exact hfns _
      exact ⟨_, hreach.trans (reaches_main hmain (.collect ⟨k, hk⟩) hready), rfl, hsame⟩
  obtain ⟨t, hreach, hmain, -⟩ := hsome n (le_refl _)
  exact ⟨t, hreach, hmain⟩

/-- With a positive denominator and functions that can run, the report can be
reached. -/
theorem exists_reported (opts : Options n) (hden : 0 < opts.offloadFracDen)
    (hplans : ∀ i, (opts.functions i).Runnable) :
    ∃ s, Reaches opts start s ∧ s.main = .reported := by
  obtain ⟨s₁, hs₁, hmain₁, hdone₁, hprogress₁, hfns₁⟩ :=
    exists_measuring opts fun i => .inr (hplans i).stocked
  obtain ⟨s₂, hs₂, hmain₂, hsame₂, hfns₂⟩ := each_served hden hplans hfns₁
  have hreach₂ := hs₁.trans hs₂
  obtain ⟨s₃, hs₃, hmain₃, hsame₃, hfns₃⟩ := each_wait (hreach₂.phased phased_start)
    (hmain₂.trans hmain₁) hfns₂ (fun _ _ h => ⟨_, .finishWait h, rfl⟩)
    (fun _ _ h => ⟨_, .finishSynced h, rfl⟩) .finishWait .finishSynced rfl rfl rfl
  have hdone : Reaches opts start { s₃ with done := true, main := .closing 0 } :=
    (hreach₂.trans hs₃).trans (reaches_main hmain₃ .doneStored trivial)
  obtain ⟨s₄, hs₄, hmain₄, hsame₄, hfns₄⟩ := each_host opts .closing
    (s := { s₃ with done := true, main := .closing 0 }) rfl fun _ => closes_host
  have hawaiting := (hdone.trans hs₄).trans (reaches_main hmain₄ .closed trivial)
  have hprogress : s₄.progress = .checking := by
    rw [hsame₄.2]
    exact (hsame₂.trans hsame₃).2.trans hprogress₁
  have hleft := hawaiting.trans (.step (.progress (.leave hprogress hsame₄.1)))
  have hfinished := hleft.trans (.step (.progress (.last rfl)))
  have hloading := hfinished.trans (reaches_main rfl .progressJoined rfl)
  have hloaded := hloading.trans (reaches_main rfl .loaded trivial)
  obtain ⟨s₅, hs₅, hmain₅⟩ := each_collected hloaded rfl fun i => by
    show (s₄.fns i).pc = .returned
    rw [hfns₄]
    exact hfns₃ i
  exact ⟨_, hs₅.trans (reaches_main hmain₅ .report trivial), rfl⟩

end Serves

/-! ### Nothing is lost -/

structure Conserved (opts : Options n) (s : System n) : Prop where
  ordered : Ordered opts s
  counters : Counters s
  collected : Collected s

section Results

variable (result : RequestResult) (error : RequestError)
  (results : List (Except RequestError RequestResult))

@[simp] theorem okResults_ok : okResults (.ok result :: results) = result :: okResults results :=
  rfl

@[simp] theorem okResults_error : okResults (.error error :: results) = okResults results := rfl

@[simp] theorem errResults_ok : errResults (.ok result :: results) = errResults results := rfl

@[simp] theorem errResults_error :
    errResults (.error error :: results) = error :: errResults results := rfl

theorem okResults_add_errResults :
    (okResults results).length + (errResults results).length = results.length := by
  induction results with
  | nil => rfl
  | cons result rest ih => cases result <;> simp <;> omega

theorem length_okResults :
    (okResults results).length =
      results.countP fun result => TaskState.isReceived (.completed result) := by
  induction results with
  | nil => rfl
  | cons result rest ih =>
    cases result with
    | ok result =>
      rw [okResults_ok, List.length_cons, ih, List.countP_cons_of_pos rfl]
    | error error =>
      rw [okResults_error, ih, List.countP_cons_of_neg (by simp [TaskState.isReceived])]

end Results

/-- Once joined, the results are the states of the tasks, in order. -/
theorem FnInv.states_eq {plan : Plan} {f : Fn} (hf : FnInv plan f)
    (hlength : f.results.length = f.tasks.length) :
    f.tasks.map Task.state = f.results.map TaskState.completed := by
  apply List.ext_getElem (by simp [hlength])
  intro j hj hj'
  simp only [List.length_map] at hj hj'
  obtain ⟨task, htask, hstate⟩ := hf.matched j _ (List.getElem?_eq_getElem hj')
  have hget := (List.getElem?_eq_some_iff.mp htask).2
  simp only [List.getElem_map]
  rw [hget, hstate]

section Conserved

variable {opts : Options n} {s : System n}

theorem conserved_start (opts : Options n) : Conserved opts start :=
  ⟨ordered_start opts, counters_start, collected_start⟩

theorem Conserved.step {e : Event n} {t : System n} (hs : Conserved opts s)
    (hstep : Step opts s e t) : Conserved opts t :=
  ⟨hs.ordered.step hstep, hs.counters.step hs.ordered hstep, hs.collected.step hstep⟩

theorem run_conserved {es : List (Event n)} (hrun : Run (Step opts) start es s) :
    Conserved opts s :=
  hrun.always (Conserved opts) (fun _ _ _ hinv hstep => hinv.step hstep) (conserved_start opts)

theorem receivedCount_le (s : System n) : receivedCount s ≤ sentCount s := by
  apply Finset.sum_le_sum
  intro i _
  apply List.countP_mono_left
  intro task _ hreceived
  revert hreceived
  cases task.state <;> simp [TaskState.isReceived, TaskState.isSent]

/-- No function spawns more requests than planned. -/
theorem tasks_length_le (hs : Ordered opts s) (i : Fin n) :
    (s.fns i).tasks.length ≤ (opts.functions i).totalRequests := by
  rw [(hs.fns i).spawned]
  exact (hs.fns i).bound

theorem sentCount_le (hs : Ordered opts s) : sentCount s ≤ Options.allRequests opts := by
  apply Finset.sum_le_sum
  intro i _
  exact le_trans List.countP_le_length (tasks_length_le hs i)

theorem reported_finished (hs : Ordered opts s) (hreported : s.main = .reported) (i : Fin n) :
    (s.fns i).tasks.length = (opts.functions i).totalRequests ∧
      (s.fns i).results.length = (opts.functions i).totalRequests ∧
      ∀ task ∈ (s.fns i).tasks, ∃ result, task.state = .completed result := by
  have hfollows := hs.phased.main
  rw [hreported] at hfollows
  exact (hs.fns i).finished (hfollows.passed hs.phased.sound (hs.phased.fns i))

theorem sentCount_eq (hs : Ordered opts s) (hreported : s.main = .reported) :
    sentCount s = Options.allRequests opts := by
  apply Finset.sum_congr rfl
  intro i _
  obtain ⟨hlength, -, hcompleted⟩ := reported_finished hs hreported i
  rw [← hlength]
  apply List.countP_eq_length.mpr
  intro task htask
  obtain ⟨result, hresult⟩ := hcompleted task htask
  rw [hresult]
  rfl

theorem Conserved.results_eq (hs : Conserved opts s) (hreported : s.main = .reported) :
    s.results = List.ofFn fun i => okResults (s.fns i).results := by
  have hlength : s.results.length = n := by
    rw [hs.collected.results, hreported]
    rfl
  apply List.ext_getElem (by simpa using hlength)
  intro j hj hj'
  have hlt : j < n := by simpa using hj'
  have hget := (hs.collected.functions ⟨j, hlt⟩ (by rw [hreported]; exact hlt)).2.1
  rw [List.getElem_ofFn]
  exact (List.getElem?_eq_some_iff.mp hget).2

theorem Conserved.receivedCount_eq (hs : Conserved opts s) (hreported : s.main = .reported) :
    receivedCount s = (s.results.map List.length).sum := by
  rw [hs.results_eq hreported, List.map_ofFn, List.sum_ofFn, receivedCount]
  apply Finset.sum_congr rfl
  intro i _
  obtain ⟨htasks, hresults, -⟩ := reported_finished hs.ordered hreported i
  have hstates := FnInv.states_eq (hs.ordered.fns i) (hresults.trans htasks.symm)
  calc tasksWith TaskState.isReceived (s.fns i)
      = ((s.fns i).tasks.map Task.state).countP TaskState.isReceived := by
        rw [List.countP_map]
        rfl
    _ = (okResults (s.fns i).results).length := by
        rw [hstates, List.countP_map, length_okResults]
        rfl

theorem Conserved.ndpCount_eq (hs : Conserved opts s) (hreported : s.main = .reported) :
    ∑ i, ndpCounted (s.fns i) = ndpCount s := by
  apply Finset.sum_congr rfl
  intro i _
  have hpc := (hs.collected.functions i (by rw [hreported]; exact i.isLt)).1
  rw [ndpCounted, hpc]
  rfl

theorem ndpCount_le (hs : Ordered opts s) : ndpCount s ≤ Options.allRequests opts := by
  apply Finset.sum_le_sum
  intro i _
  exact le_trans List.countP_le_length (tasks_length_le hs i)

end Conserved

/-- In every run: after the third barrier the counters are the numbers of received,
sent and planned requests, modulo 2^64; and in the report every request of every
function is counted once, as a result or as an error.  While the plans add up to
less than 2^63 the counters are the numbers themselves. -/
theorem requests_conserved (opts : Options n) {es : List (Event n)} {s : System n}
    (hrun : Run (Step opts) start es s) :
    (3 ≤ s.sync.generation →
      receivedCount s ≤ sentCount s ∧ sentCount s ≤ Options.allRequests opts ∧
      s.recvRequests = Int64.ofNat (receivedCount s) ∧
      s.sentRequests = Int64.ofNat (sentCount s) ∧
      s.totalRequests = Int64.ofNat (Options.allRequests opts) ∧
      (Options.allRequests opts < 2 ^ 63 →
        0 ≤ s.recvRequests.toInt ∧ s.recvRequests.toInt ≤ s.sentRequests.toInt ∧
        s.sentRequests.toInt ≤ s.totalRequests.toInt)) ∧
    (s.main = .reported →
      (∀ i : Fin n, ∃ results errors, s.results[i.val]? = some results ∧
        s.errors[i.val]? = some errors ∧
        results.length + errors.length = (opts.functions i).totalRequests) ∧
      s.sentRequests = Int64.ofNat (Options.allRequests opts) ∧
      s.recvRequests = Int64.ofNat (s.results.map List.length).sum ∧
      s.totalRequests = Int64.ofNat (Options.allRequests opts) ∧
      s.ndpRequests = Int64.ofNat (ndpCount s) ∧
      (Options.allRequests opts < 2 ^ 63 →
        s.sentRequests.toInt = Options.allRequests opts ∧
        s.recvRequests.toInt = (s.results.map List.length).sum ∧
        s.totalRequests.toInt = Options.allRequests opts ∧
        s.ndpRequests.toInt = ndpCount s)) := by
  have hs := run_conserved hrun
  have hreceived := receivedCount_le s
  have hsent := sentCount_le hs.ordered
  refine ⟨?_, ?_⟩
  · intro hgeneration
    have htotal := hs.ordered.total_eq hgeneration
    refine ⟨hreceived, hsent, hs.counters.recv, hs.counters.sent, htotal, ?_⟩
    intro hsmall
    rw [hs.counters.recv, hs.counters.sent, htotal, Int64.toInt_ofNat_of_lt (by omega),
      Int64.toInt_ofNat_of_lt (by omega), Int64.toInt_ofNat_of_lt hsmall]
    omega
  · intro hreported
    have hgeneration := hs.ordered.phased.generation_eq (by rw [hreported]; rfl)
    rw [hreported] at hgeneration
    have htotal := hs.ordered.total_eq (by rw [hgeneration]; simp [MainPc.waits])
    have hsentEq := hs.counters.sent
    have hrecvEq := hs.counters.recv
    have hndpEq := hs.counters.ndp
    rw [sentCount_eq hs.ordered hreported] at hsentEq
    rw [hs.ndpCount_eq hreported] at hndpEq
    have hreceivedEq := hs.receivedCount_eq hreported
    rw [hreceivedEq] at hrecvEq
    refine ⟨?_, hsentEq, hrecvEq, htotal, hndpEq, ?_⟩
    · intro i
      obtain ⟨-, hresults, herrors⟩ :=
        hs.collected.functions i (by rw [hreported]; exact i.isLt)
      refine ⟨_, _, hresults, herrors, ?_⟩
      rw [okResults_add_errResults]
      exact (reported_finished hs.ordered hreported i).2.1
    · intro hsmall
      have hndp := ndpCount_le hs.ordered
      rw [hsentEq, hrecvEq, htotal, hndpEq]
      exact ⟨Int64.toInt_ofNat_of_lt hsmall, Int64.toInt_ofNat_of_lt (by omega),
        Int64.toInt_ofNat_of_lt hsmall, Int64.toInt_ofNat_of_lt (by omega)⟩

/-- Two functions with three requests each: a run to the report, where all six
are accounted for. -/
theorem requests_conserved_alike :
    ∃ (es : List (Event 2)) (s : System 2),
      Run (Step (alike 2 ⟨3, by decide, 1, 1, some 1⟩)) start es s ∧ s.main = .reported ∧
        s.sentRequests.toInt = 6 ∧ s.totalRequests.toInt = 6 ∧
        s.recvRequests.toInt = (s.results.map List.length).sum := by
  obtain ⟨s, ⟨es, hrun⟩, hreported⟩ :=
    exists_reported (alike 2 ⟨3, by decide, 1, 1, some 1⟩) (by decide) fun _ =>
      ⟨Nat.one_pos, (by decide : 3 < 2 ^ 60), 1, rfl, Nat.one_pos⟩
  obtain ⟨-, -, -, -, -, hexact⟩ := (requests_conserved _ hrun).2 hreported
  obtain ⟨hsent, hrecv, htotal, -⟩ := hexact (by decide)
  exact ⟨es, s, hrun, hreported, hsent, htotal, hrecv⟩

/-- Sixteen functions with 2^59 requests each: the total has wrapped to a negative
number, below what was sent. -/
theorem total_below_sent :
    ∃ (es : List (Event 16)) (s : System 16),
      Run (Step (alike 16 ⟨2 ^ 59, by decide, 1, 1, some 1⟩)) start es s ∧ 3 ≤ s.sync.generation ∧
        ¬ (0 ≤ s.recvRequests.toInt ∧ s.recvRequests.toInt ≤ s.sentRequests.toInt ∧
          s.sentRequests.toInt ≤ s.totalRequests.toInt) := by
  obtain ⟨s, ⟨es, hrun⟩, hticking⟩ :=
    exists_ticking (alike 16 ⟨2 ^ 59, by decide, 1, 1, some 1⟩) fun _ => .inr Nat.one_pos
  have hs := run_ordered hrun
  have hgeneration := hs.progress (by simp [hticking])
  have htotal : s.totalRequests.toInt < 0 := by
    rw [hs.total_eq hgeneration]
    decide
  refine ⟨es, s, hrun, hgeneration, ?_⟩
  rintro ⟨hrecv, hsent, hall⟩
  omega

end NdpOffload.Faasmspeed.Conservation
