import NdpOffload.Faasmspeed.Generator

/-! The phases of the load generator.  `run_function` and `async_main` call
`wait` four times each, and the barrier keeps them in step. -/
namespace NdpOffload.Faasmspeed.Phases

open Library.Barriers Library.Runs Library.Text Generator

variable {n : Nat}

/-- How often a function has called `wait`. -/
def FnPc.waits : FnPc → Nat
  | .testing => 0
  | .syncTest | .tested => 1
  | .syncMonitor | .monitored | .counted => 2
  | .syncCount | .allocating | .starting | .scheduling | .looping _ | .adjusting _ | .spawning _ _
  | .joining | .joined => 3
  | .syncFinish | .returned => 4

def FnPc.blocked : FnPc → Bool
  | .syncTest | .syncMonitor | .syncCount | .syncFinish => true
  | _ => false

def MainPc.waits : MainPc → Nat
  | .connecting _ => 0
  | .syncTest | .opening _ => 1
  | .syncMonitor | .opened => 2
  | .syncCount | .counted | .progressing => 3
  | .syncFinish | .finishing | .closing _ | .reading _ | .quitting _ | .awaiting | .loading
  | .collecting _ | .reported => 4
  | .failed waits => waits

def MainPc.blocked : MainPc → Bool
  | .syncTest | .syncMonitor | .syncCount | .syncFinish => true
  | _ => false

/-- What a step does at the barrier. -/
inductive Move where
  | stay
  | arrive
  | resume
  deriving DecidableEq

def FnAct.move : FnAct → Move
  | .arrive => .arrive
  | .resume => .resume
  | _ => .stay

def MainAct.move : MainAct n → Move
  | .arrive => .arrive
  | .resume => .resume
  | _ => .stay

/-- How a move changes the number of waits and whether the party is inside one. -/
def Moves (move : Move) (waits waits' : Nat) (blocked blocked' : Bool) : Prop :=
  match move with
  | .stay => waits' = waits ∧ blocked' = blocked
  | .arrive => waits' = waits + 1 ∧ blocked = false ∧ blocked' = true
  | .resume => waits' = waits ∧ blocked' = false

theorem fnStep_moves {dryRun : Bool} {den : Int32} {plan : Plan} {f f' : Fn} {act : FnAct}
    (hstep : FnStep dryRun den plan f act f') :
    Moves (FnAct.move act) (FnPc.waits f.pc) (FnPc.waits f'.pc) (FnPc.blocked f.pc)
      (FnPc.blocked f'.pc) := by
  cases hstep <;> simp_all [Moves, FnAct.move, FnPc.waits, FnPc.blocked]

theorem mainStep_moves {mhosts : Nat} {pc pc' : MainPc} {act : MainAct n}
    (hstep : MainStep n mhosts pc act pc') :
    Moves (MainAct.move act) (MainPc.waits pc) (MainPc.waits pc') (MainPc.blocked pc)
      (MainPc.blocked pc') := by
  cases hstep <;> simp [Moves, MainAct.move, MainPc.waits, MainPc.blocked]

/-- The barrier after a move of party `p`. -/
def applyMove (sync : Lockstep (Option (Fin n))) (p : Option (Fin n)) :
    Move → Lockstep (Option (Fin n))
  | .stay => sync
  | .arrive => sync.arrive p
  | .resume => sync.resume p

section Moves

variable {sync : Lockstep (Option (Fin n))} {p q : Option (Fin n)} {move : Move}
  {waits waits' : Nat} {blocked blocked' : Bool}

theorem applyMove_self (hmoves : Moves move waits waits' blocked blocked')
    (hp : sync.Follows p waits blocked) : (applyMove sync p move).Follows p waits' blocked' := by
  cases move with
  | stay =>
    obtain ⟨rfl, rfl⟩ := hmoves
    exact hp
  | arrive =>
    obtain ⟨rfl, rfl, rfl⟩ := hmoves
    exact hp.arrive_self
  | resume =>
    obtain ⟨rfl, rfl⟩ := hmoves
    exact hp.resume_self

theorem applyMove_other (hne : q ≠ p) (hq : sync.Follows q waits blocked) :
    (applyMove sync p move).Follows q waits blocked := by
  cases move with
  | stay => exact hq
  | arrive => exact hq.arrive_other hne
  | resume => exact hq.resume_other hne

theorem applyMove_sound (hsound : sync.Sound)
    (hmoves : Moves move waits waits' blocked blocked') (hp : sync.Follows p waits blocked)
    (hreleased : move = .resume → sync.Released p) : (applyMove sync p move).Sound := by
  cases move with
  | stay => exact hsound
  | arrive =>
    obtain ⟨-, rfl, -⟩ := hmoves
    exact hsound.arrive hp.outside
  | resume => exact hsound.resume (hreleased rfl)

end Moves

/-- Every program is where the barrier believes it to be. -/
structure Phased (s : System n) : Prop where
  sound : s.sync.Sound
  main : s.sync.Follows none (MainPc.waits s.main) (MainPc.blocked s.main)
  fns : ∀ i, s.sync.Follows (some i) (FnPc.waits (s.fns i).pc) (FnPc.blocked (s.fns i).pc)

theorem phased_start : Phased (start : System n) where
  sound := sound_start
  main := ⟨rfl, rfl⟩
  fns := fun _ => ⟨rfl, rfl⟩

theorem fnEffect_sync (opts : Options n) (i : Fin n) (s : System n) (act : FnAct) :
    (s.fnEffect opts i act).sync = applyMove s.sync (some i) (FnAct.move act) := by
  cases act <;> rfl

theorem mainEffect_sync (s : System n) (act : MainAct n) :
    (s.mainEffect act).sync = applyMove s.sync none (MainAct.move act) := by
  cases act <;> rfl

theorem fnEffect_main (opts : Options n) (i : Fin n) (s : System n) (act : FnAct) :
    (s.fnEffect opts i act).main = s.main := by
  cases act <;> rfl

theorem fnEffect_display (opts : Options n) (i : Fin n) (s : System n) (act : FnAct) :
    (s.fnEffect opts i act).done = s.done ∧ (s.fnEffect opts i act).progress = s.progress := by
  cases act <;> exact ⟨rfl, rfl⟩

theorem taskEffect_eq (s : System n) (act : TaskAct) :
    (s.taskEffect act).sync = s.sync ∧ (s.taskEffect act).main = s.main ∧
      (s.taskEffect act).fns = s.fns := by
  cases act <;> exact ⟨rfl, rfl, rfl⟩

theorem mainEffect_fns (s : System n) (act : MainAct n) : (s.mainEffect act).fns = s.fns := by
  cases act <;> rfl

/-- A request task never moves the function that spawned it. -/
theorem setTask_pc (s : System n) (i : Fin n) (j : Nat) (task : Task) (k : Fin n) :
    ((s.setTask i j task).fns k).pc = (s.fns k).pc := by
  by_cases heq : k = i
  · subst heq
    simp [System.setTask]
  · simp [System.setTask, heq]

/-- What the steps of a function and of its request tasks keep holds of it in every run. -/
theorem run_fn {opts : Options n} {i : Fin n} (Inv : Fn → Prop) (hstart : Inv {})
    (hstep : ∀ f act f', Inv f →
      FnStep opts.dryRun opts.offloadFracDen (opts.functions i) f act f' → Inv f')
    (htask : ∀ f j task state, Inv f → f.tasks[j]? = some task →
      Inv { f with tasks := f.tasks.set j { task with state := state } })
    {es : List (Event n)} {s : System n} (hrun : Run (Step opts) start es s) : Inv (s.fns i) := by
  refine hrun.always (fun s => Inv (s.fns i)) (fun s e t hs hst => ?_) hstart
  cases hst with
  | @fn act f j hfn _ =>
    by_cases heq : i = j
    · subst heq
      simpa using hstep _ _ _ hs hfn
    · simpa [heq] using hs
  | @task task act state j k hmem hact =>
    have hfns := (taskEffect_eq s act).2.2
    by_cases heq : i = j
    · subst heq
      simp only [System.setTask, Function.update_self, hfns]
      exact htask _ _ _ _ hs hmem
    · simpa [System.setTask, heq, hfns] using hs
  | @main act pc _ _ =>
    show Inv ((s.mainEffect act).fns i)
    rw [mainEffect_fns]
    exact hs
  | progress _ => exact hs

theorem Phased.step {opts : Options n} {s t : System n} {e : Event n} (hs : Phased s)
    (hstep : Step opts s e t) : Phased t := by
  cases hstep with
  | @fn act f i hfn hready =>
    have hmoves := fnStep_moves hfn
    refine ⟨?_, ?_, ?_⟩
    · rw [fnEffect_sync]
      apply applyMove_sound hs.sound hmoves (hs.fns i)
      intro hresume
      exact hready (by cases act <;> first | rfl | cases hresume)
    · rw [fnEffect_sync, fnEffect_main]
      exact applyMove_other (by simp) hs.main
    · intro j
      rw [fnEffect_sync]
      by_cases heq : j = i
      · subst heq
        simpa using applyMove_self hmoves (hs.fns j)
      · simpa [heq] using applyMove_other (p := some i) (by simpa using heq) (hs.fns j)
  | @task task act state i j htask hact =>
    obtain ⟨hsync, hmain, hfns⟩ := taskEffect_eq s act
    refine ⟨?_, ?_, ?_⟩
    · show (s.taskEffect act).sync.Sound
      rw [hsync]
      exact hs.sound
    · show (s.taskEffect act).sync.Follows none (MainPc.waits (s.taskEffect act).main)
        (MainPc.blocked (s.taskEffect act).main)
      rw [hsync, hmain]
      exact hs.main
    · intro k
      rw [setTask_pc, hfns]
      show (s.taskEffect act).sync.Follows _ _ _
      rw [hsync]
      exact hs.fns k
  | @main act pc hmain hready =>
    have hmoves := mainStep_moves hmain
    refine ⟨?_, ?_, ?_⟩
    · rw [mainEffect_sync]
      apply applyMove_sound hs.sound hmoves hs.main
      intro hresume
      cases act <;> first | exact hready | cases hresume
    · rw [mainEffect_sync]
      exact applyMove_self hmoves hs.main
    · intro j
      rw [mainEffect_sync, mainEffect_fns]
      exact applyMove_other (by simp) (hs.fns j)
  | progress hprogress => exact ⟨hs.sound, hs.main, hs.fns⟩

/-! ### What each phase has done -/

/-- How many requests a function has spawned. -/
def FnPc.spawnedCount (plan : Plan) : FnPc → Nat
  | .looping requestId | .adjusting requestId | .spawning requestId _ => requestId
  | .joining | .joined | .syncFinish | .returned => plan.totalRequests
  | _ => 0

/-- Whether a function has added its requests to the total. -/
def FnPc.hasCounted : FnPc → Bool
  | .testing | .syncTest | .tested | .syncMonitor | .monitored => false
  | _ => true

/-- Where the results of a function are complete. -/
def FnPc.hasJoined : FnPc → Bool
  | .joined | .syncFinish | .returned => true
  | _ => false

structure FnInv (plan : Plan) (f : Fn) : Prop where
  spawned : f.tasks.length = FnPc.spawnedCount plan f.pc
  bound : FnPc.spawnedCount plan f.pc ≤ plan.totalRequests
  below : ∀ requestId ndp, f.pc = .adjusting requestId ∨ f.pc = .spawning requestId ndp →
    requestId < plan.totalRequests
  early : FnPc.waits f.pc ≤ 2 → f.results = []
  joined : FnPc.hasJoined f.pc = true → f.results.length = f.tasks.length
  matched : ∀ (j : Nat) result, f.results[j]? = some result →
    ∃ task, f.tasks[j]? = some task ∧ task.state = .completed result

theorem fnInv_start (plan : Plan) : FnInv plan {} where
  spawned := rfl
  bound := Nat.zero_le _
  below := by simp
  early := fun _ => rfl
  joined := by simp [FnPc.hasJoined]
  matched := by simp

/-- A step that spawns and joins nothing. -/
theorem FnInv.goTo {plan : Plan} {f f' : Fn} (hf : FnInv plan f) (htasks : f'.tasks = f.tasks)
    (hresults : f'.results = f.results)
    (hcount : FnPc.spawnedCount plan f'.pc = FnPc.spawnedCount plan f.pc)
    (hbelow : ∀ requestId ndp, f'.pc = .adjusting requestId ∨ f'.pc = .spawning requestId ndp →
      requestId < plan.totalRequests)
    (hearly : FnPc.waits f'.pc ≤ 2 → FnPc.waits f.pc ≤ 2)
    (hjoined : FnPc.hasJoined f'.pc = true → f.results.length = f.tasks.length) :
    FnInv plan f' where
  spawned := by rw [htasks, hcount, hf.spawned]
  bound := by rw [hcount]; exact hf.bound
  below := hbelow
  early := fun h => by rw [hresults]; exact hf.early (hearly h)
  joined := fun h => by rw [hresults, htasks]; exact hjoined h
  matched := by rw [hresults, htasks]; exact hf.matched

theorem FnInv.spawn {plan : Plan} {f : Fn} {requestId : Nat} {ndp : Bool} (hf : FnInv plan f)
    (hpc : f.pc = .spawning requestId ndp) (task : Task) (whichRequest : Nat) :
    FnInv plan { f with
      pc := .looping (requestId + 1), tasks := f.tasks ++ [task], whichRequest := whichRequest } := by
  have hlength := hf.spawned
  have hid := hf.below requestId ndp (.inr hpc)
  rw [hpc] at hlength
  simp only [FnPc.spawnedCount] at hlength
  refine ⟨by simp [FnPc.spawnedCount, hlength], hid, by simp, by simp [FnPc.waits],
    by simp [FnPc.hasJoined], ?_⟩
  intro j result hresult
  obtain ⟨old, hold, hstate⟩ := hf.matched j result hresult
  refine ⟨old, ?_, hstate⟩
  rw [List.getElem?_append_left (List.getElem?_eq_some_iff.mp hold).1]
  exact hold

theorem FnInv.join {plan : Plan} {f : Fn} {task : Task}
    {result : Except RequestError RequestResult} (hf : FnInv plan f) (hpc : f.pc = .joining)
    (htask : f.tasks[f.results.length]? = some task) (hstate : task.state = .completed result) :
    FnInv plan { f with results := f.results ++ [result] } := by
  refine ⟨hf.spawned, hf.bound, hf.below, by simp [hpc, FnPc.waits],
    by simp [hpc, FnPc.hasJoined], ?_⟩
  intro j found hfound
  rcases Nat.lt_or_ge j f.results.length with hlt | hge
  · rw [List.getElem?_append_left hlt] at hfound
    exact hf.matched j found hfound
  · rw [List.getElem?_append_right hge, List.getElem?_singleton] at hfound
    split at hfound
    · have hj : j = f.results.length := by omega
      cases hfound
      exact ⟨task, by rw [hj]; exact htask, hstate⟩
    · cases hfound

theorem FnInv.step {dryRun : Bool} {den : Int32} {plan : Plan} {f f' : Fn} {act : FnAct}
    (hf : FnInv plan f) (hstep : FnStep dryRun den plan f act f') : FnInv plan f' := by
  cases hstep with
  | testDone hpc _ =>
    exact hf.goTo rfl rfl (by simp [hpc, FnPc.spawnedCount]) (by simp)
      (by simp [hpc, FnPc.waits]) (by simp [FnPc.hasJoined])
  | testSynced hpc =>
    exact hf.goTo rfl rfl (by simp [hpc, FnPc.spawnedCount]) (by simp)
      (by simp [hpc, FnPc.waits]) (by simp [FnPc.hasJoined])
  | monitorWait hpc =>
    exact hf.goTo rfl rfl (by simp [hpc, FnPc.spawnedCount]) (by simp)
      (by simp [hpc, FnPc.waits]) (by simp [FnPc.hasJoined])
  | monitorSynced hpc =>
    exact hf.goTo rfl rfl (by simp [hpc, FnPc.spawnedCount]) (by simp)
      (by simp [hpc, FnPc.waits]) (by simp [FnPc.hasJoined])
  | addTotal hpc =>
    exact hf.goTo rfl rfl (by simp [hpc, FnPc.spawnedCount]) (by simp)
      (by simp [hpc, FnPc.waits]) (by simp [FnPc.hasJoined])
  | countWait hpc =>
    exact hf.goTo rfl rfl (by simp [hpc, FnPc.spawnedCount]) (by simp)
      (by simp [FnPc.waits]) (by simp [FnPc.hasJoined])
  | countSynced hpc =>
    exact hf.goTo rfl rfl (by simp [hpc, FnPc.spawnedCount]) (by simp)
      (by simp [FnPc.waits]) (by simp [FnPc.hasJoined])
  | allocate hpc _ =>
    have hnone : f.tasks = [] := List.eq_nil_of_length_eq_zero (by
      simpa [hpc, FnPc.spawnedCount] using hf.spawned)
    exact hf.goTo hnone.symm rfl (by simp [hpc, FnPc.spawnedCount]) (by simp)
      (by simp [FnPc.waits]) (by simp [FnPc.hasJoined])
  | start hpc =>
    exact hf.goTo rfl rfl (by simp [hpc, FnPc.spawnedCount]) (by simp)
      (by simp [FnPc.waits]) (by simp [FnPc.hasJoined])
  | schedule hpc _ =>
    exact hf.goTo rfl rfl (by simp [hpc, FnPc.spawnedCount]) (by simp)
      (by simp [FnPc.waits]) (by simp [FnPc.hasJoined])
  | tick hpc hlt =>
    exact hf.goTo rfl rfl (by simp [hpc, FnPc.spawnedCount]) (by simpa using hlt)
      (by simp [FnPc.waits]) (by simp [FnPc.hasJoined])
  | adjust hpc _ =>
    exact hf.goTo rfl rfl rfl hf.below id hf.joined
  | @allowNdp requestId hpc _ _ =>
    have hid := hf.below requestId true (.inl hpc)
    exact hf.goTo rfl rfl (by simp [hpc, FnPc.spawnedCount]) (by simpa using hid)
      (by simp [FnPc.waits]) (by simp [FnPc.hasJoined])
  | @forbidNdp requestId hpc _ _ =>
    have hid := hf.below requestId true (.inl hpc)
    exact hf.goTo rfl rfl (by simp [hpc, FnPc.spawnedCount]) (by simpa using hid)
      (by simp [FnPc.waits]) (by simp [FnPc.hasJoined])
  | spawn hpc _ => exact hf.spawn hpc _ _
  | loopDone hpc hdone =>
    have hlength := hf.spawned
    have hbound := hf.bound
    simp only [hpc, FnPc.spawnedCount] at hlength hbound
    refine ⟨?_, le_refl _, by simp, by simp [FnPc.waits], by simp [FnPc.hasJoined], by simp⟩
    show f.tasks.length = plan.totalRequests
    omega
  | join hpc htask hstate => exact hf.join hpc htask hstate
  | joinDone hpc hall =>
    exact hf.goTo rfl rfl (by simp [hpc, FnPc.spawnedCount]) (by simp)
      (by simp [FnPc.waits]) fun _ => hall
  | finishWait hpc =>
    exact hf.goTo rfl rfl (by simp [hpc, FnPc.spawnedCount]) (by simp)
      (by simp [FnPc.waits]) fun _ => hf.joined (by rw [hpc]; rfl)
  | finishSynced hpc =>
    exact hf.goTo rfl rfl (by simp [hpc, FnPc.spawnedCount]) (by simp)
      (by simp [FnPc.waits]) fun _ => hf.joined (by rw [hpc]; rfl)

/-- A completed task takes no step, so what was joined stays as it is. -/
theorem FnInv.taskStep {plan : Plan} {f : Fn} {j : Nat} {task : Task} {dryRun : Bool}
    {act : TaskAct} {state : TaskState} (hf : FnInv plan f) (htask : f.tasks[j]? = some task)
    (hstep : TaskStep dryRun task.state act state) :
    FnInv plan { f with tasks := f.tasks.set j { task with state := state } } := by
  refine ⟨by simpa using hf.spawned, hf.bound, hf.below, hf.early,
    by simpa using hf.joined, ?_⟩
  intro k result hresult
  obtain ⟨old, hold, hstate⟩ := hf.matched k result hresult
  refine ⟨old, ?_, hstate⟩
  have hne : j ≠ k := by
    rintro rfl
    rw [htask] at hold
    cases hold
    rw [hstate] at hstep
    cases hstep
  rw [List.getElem?_set_ne hne]
  exact hold

/-! ### The whole system -/

def countedBy (plan : Plan) (f : Fn) : Nat :=
  if FnPc.hasCounted f.pc then plan.totalRequests else 0

/-- The number of requests of all functions. -/
def Options.allRequests (opts : Options n) : Nat := ∑ i, (opts.functions i).totalRequests

/-- What each program knows about the work of the others. -/
structure Ordered (opts : Options n) (s : System n) : Prop where
  phased : Phased s
  fns : ∀ i, FnInv (opts.functions i) (s.fns i)
  opening : ∀ reached, s.main = .opening reached → ∀ host < reached, (host, '[') ∈ s.wire
  opened : 2 ≤ MainPc.waits s.main → ∀ host < opts.mhosts, (host, '[') ∈ s.wire
  progress : s.progress ≠ .unborn → 3 ≤ s.sync.generation
  total : s.totalRequests = Int64.ofNat (∑ i, countedBy (opts.functions i) (s.fns i))
  loaded : ∀ value, s.reportTotal = some value →
    value = Int64.ofNat (Options.allRequests opts)

theorem ordered_start (opts : Options n) : Ordered opts start where
  phased := phased_start
  fns := fun i => fnInv_start _
  opening := by simp [start]
  opened := by simp [start, MainPc.waits]
  progress := by simp [start]
  total := by simp [start, countedBy, FnPc.hasCounted]
  loaded := by simp [start]

section Ordered

variable {opts : Options n} {s t : System n}

/-- After three generations every function has added its requests. -/
theorem Phased.hasCounted (hs : Phased s) (hgeneration : 3 ≤ s.sync.generation) (i : Fin n) :
    FnPc.hasCounted (s.fns i).pc = true := by
  have hcalls := (hs.sound.calls_bounds (some i)).1
  rw [(hs.fns i).1] at hcalls
  have hwaits : 3 ≤ FnPc.waits (s.fns i).pc := le_trans hgeneration hcalls
  revert hwaits
  cases (s.fns i).pc <;> simp [FnPc.waits, FnPc.hasCounted]

theorem Ordered.total_eq (hs : Ordered opts s) (hgeneration : 3 ≤ s.sync.generation) :
    s.totalRequests = Int64.ofNat (Options.allRequests opts) := by
  rw [hs.total, Options.allRequests]
  congr 1
  apply Finset.sum_congr rfl
  intro i _
  rw [countedBy, if_pos (hs.phased.hasCounted hgeneration i)]

theorem generation_le_applyMove (sync : Lockstep (Option (Fin n))) (p : Option (Fin n))
    (move : Move) : sync.generation ≤ (applyMove sync p move).generation := by
  cases move with
  | stay => exact le_refl _
  | arrive =>
    simp only [applyMove, Lockstep.arrive]
    split <;> omega
  | resume => exact le_refl _

/-- The steps of a function change the total when they add to it, and only then. -/
theorem fnStep_countedBy {dryRun : Bool} {den : Int32} {plan : Plan} {f f' : Fn} {act : FnAct}
    (hstep : FnStep dryRun den plan f act f') :
    countedBy plan f' = countedBy plan f + (if act = .addTotal then plan.totalRequests else 0) := by
  cases hstep <;> simp_all [countedBy, FnPc.hasCounted]

/-- A counter that wraps follows a count that does not. -/
theorem int64_count {value value' : Int64} {count count' extra : Nat}
    (hvalue : value = Int64.ofNat count) (hvalue' : value' = value + Int64.ofNat extra)
    (hcount : count' = count + extra) : value' = Int64.ofNat count' := by
  rw [hvalue', hvalue, hcount, Int64.ofNat_add]

theorem Ordered.fnStep (hs : Ordered opts s) {act : FnAct} {f : Fn} (i : Fin n)
    (hfn : FnStep opts.dryRun opts.offloadFracDen (opts.functions i) (s.fns i) act f)
    (hready : act = .resume → s.sync.Released (some i)) :
    Ordered opts { s.fnEffect opts i act with fns := Function.update s.fns i f } := by
  have hphased := hs.phased.step (.fn i hfn hready)
  refine ⟨hphased, ?_, ?_, ?_, ?_, ?_, ?_⟩
  · intro j
    by_cases heq : j = i
    · subst heq
      simpa using (hs.fns j).step hfn
    · simpa [heq] using hs.fns j
  · have hopening := hs.opening
    cases act <;> exact hopening
  · have hopened := hs.opened
    cases act <;> exact hopened
  · intro hborn
    have hold := hs.progress (by cases act <;> exact hborn)
    rw [fnEffect_sync]
    exact le_trans hold (generation_le_applyMove _ _ _)
  · have htotal : (s.fnEffect opts i act).totalRequests = s.totalRequests +
        Int64.ofNat (if act = .addTotal then (opts.functions i).totalRequests else 0) := by
      cases act <;> simp [System.fnEffect]
    exact int64_count hs.total htotal
      (sum_update_add (fun j => countedBy (opts.functions j)) (fnStep_countedBy hfn))
  · have hloaded := hs.loaded
    cases act <;> exact hloaded

theorem Ordered.taskStep (hs : Ordered opts s) {task : Task} {act : TaskAct} {state : TaskState}
    (i : Fin n) (j : Nat) (htask : (s.fns i).tasks[j]? = some task)
    (hact : TaskStep opts.dryRun task.state act state) :
    Ordered opts ((s.taskEffect act).setTask i j { task with state := state }) := by
  have hphased := hs.phased.step (.task i j htask hact)
  obtain ⟨hsync, hmain, hfns⟩ := taskEffect_eq s act
  have hrest : (s.taskEffect act).wire = s.wire ∧ (s.taskEffect act).progress = s.progress ∧
      (s.taskEffect act).totalRequests = s.totalRequests ∧
      (s.taskEffect act).reportTotal = s.reportTotal := by
    cases act <;> exact ⟨rfl, rfl, rfl, rfl⟩
  obtain ⟨hwire, hprogress, htotal, hreport⟩ := hrest
  refine ⟨hphased, ?_, ?_, ?_, ?_, ?_, ?_⟩
  · intro k
    by_cases heq : k = i
    · subst heq
      simpa [System.setTask, hfns] using (hs.fns k).taskStep htask hact
    · simpa [System.setTask, hfns, heq] using hs.fns k
  · simpa [System.setTask, hwire, hmain] using hs.opening
  · simpa [System.setTask, hwire, hmain] using hs.opened
  · simpa [System.setTask, hsync, hprogress] using hs.progress
  · have hcounted : ∀ k, countedBy (opts.functions k)
        (((s.taskEffect act).setTask i j { task with state := state }).fns k) =
          countedBy (opts.functions k) (s.fns k) := by
      intro k
      rw [countedBy, countedBy, setTask_pc, hfns]
    show (s.taskEffect act).totalRequests = _
    rw [htotal, hs.total]
    simp only [hcounted]
  · simpa [System.setTask, hreport] using hs.loaded

/-- `async_main` writes every `[` before its second wait. -/
theorem mainStep_wire {mhosts : Nat} {pc pc' : MainPc} {act : MainAct n}
    {wire : List (Nat × Char)} {s : System n} (hwire : s.wire = wire)
    (hopening : ∀ reached, pc = .opening reached → ∀ host < reached, (host, '[') ∈ wire)
    (hopened : 2 ≤ MainPc.waits pc → ∀ host < mhosts, (host, '[') ∈ wire)
    (hstep : MainStep n mhosts pc act pc') :
    (∀ reached, pc' = .opening reached → ∀ host < reached,
      (host, '[') ∈ (s.mainEffect act).wire) ∧
    (2 ≤ MainPc.waits pc' → ∀ host < mhosts, (host, '[') ∈ (s.mainEffect act).wire) := by
  subst hwire
  cases hstep with
  | openRange hlt =>
    rename_i reached
    refine ⟨?_, by simp [MainPc.waits]⟩
    intro next hnext host hhost
    cases hnext
    simp only [System.mainEffect, List.mem_append, List.mem_singleton]
    rcases Nat.lt_succ_iff_lt_or_eq.mp hhost with hbefore | hlast
    · exact .inl (hopening reached rfl host hbefore)
    · exact .inr (by rw [hlast])
  | monitorWait => exact ⟨by simp, fun _ => hopening _ rfl⟩
  | testSynced => exact ⟨by simp, by simp [MainPc.waits]⟩
  | connect hlt => exact ⟨by simp, by simp [MainPc.waits]⟩
  | connectFails hlt => exact ⟨by simp, by simp [MainPc.waits]⟩
  | testWait => exact ⟨by simp, by simp [MainPc.waits]⟩
  | openFails hlt => exact ⟨by simp, by simp [MainPc.waits]⟩
  | closeRange hlt =>
    exact ⟨by simp, fun _ host hhost => List.mem_append_left _ (hopened (by simp [MainPc.waits]) host hhost)⟩
  | quit =>
    exact ⟨by simp, fun _ host hhost => List.mem_append_left _ (hopened (by simp [MainPc.waits]) host hhost)⟩
  | _ => exact ⟨by simp, fun _ => hopened (by simp [MainPc.waits])⟩

theorem mainStep_spawnProgress {mhosts : Nat} {pc pc' : MainPc}
    (hstep : MainStep n mhosts pc .spawnProgress pc') : pc = .counted := by
  cases hstep
  rfl

theorem mainStep_loadTotal {mhosts : Nat} {pc pc' : MainPc}
    (hstep : MainStep n mhosts pc .loadTotal pc') : pc = .loading := by
  cases hstep
  rfl

theorem mainStep_close {mhosts host : Nat} {pc pc' : MainPc}
    (hstep : MainStep n mhosts pc (.write host ']') pc') : pc = .closing host := by
  cases hstep
  rfl

/-- Where `async_main` is past a wait, the barrier is in that generation. -/
theorem Phased.generation_eq (hs : Phased s) (hblocked : MainPc.blocked s.main = false) :
    s.sync.generation = MainPc.waits s.main := by
  have hmain := hs.main
  rw [hblocked] at hmain
  exact hmain.generation_eq hs.sound

theorem Ordered.mainStep (hs : Ordered opts s) {act : MainAct n} {pc : MainPc}
    (hmain : MainStep n opts.mhosts s.main act pc) (hready : s.MainReady act) :
    Ordered opts { s.mainEffect act with main := pc } := by
  have hphased := hs.phased.step (.main hmain hready)
  obtain ⟨hopening, hopened⟩ := mainStep_wire rfl hs.opening hs.opened hmain
  have hfns := mainEffect_fns s act
  refine ⟨hphased, ?_, hopening, hopened, ?_, ?_, ?_⟩
  · intro i
    rw [hfns]
    exact hs.fns i
  · intro hborn
    rw [mainEffect_sync]
    apply le_trans _ (generation_le_applyMove _ _ _)
    by_cases hspawn : act = .spawnProgress
    · subst hspawn
      have hpc := mainStep_spawnProgress hmain
      have hgeneration := hs.phased.generation_eq (by rw [hpc]; rfl)
      rw [hgeneration, hpc]
      exact le_refl _
    · apply hs.progress
      cases act <;> first | exact hborn | exact absurd rfl hspawn
  · have htotal : (s.mainEffect act).totalRequests = s.totalRequests := by cases act <;> rfl
    show (s.mainEffect act).totalRequests = _
    rw [htotal, hs.total]
    simp only [hfns]
  · intro value hvalue
    by_cases hload : act = .loadTotal
    · subst hload
      have hpc := mainStep_loadTotal hmain
      have hgeneration := hs.phased.generation_eq (by rw [hpc]; rfl)
      rw [hpc] at hgeneration
      cases hvalue
      exact hs.total_eq (by rw [hgeneration]; simp [MainPc.waits])
    · apply hs.loaded
      cases act <;> first | exact hvalue | exact absurd rfl hload

theorem Ordered.step (hs : Ordered opts s) {e : Event n} (hstep : Step opts s e t) :
    Ordered opts t := by
  cases hstep with
  | fn i hfn hready => exact hs.fnStep i hfn hready
  | task i j htask hact => exact hs.taskStep i j htask hact
  | main hmain hready => exact hs.mainStep hmain hready
  | progress hprogress =>
    refine ⟨⟨hs.phased.sound, hs.phased.main, hs.phased.fns⟩, hs.fns, hs.opening, hs.opened, ?_,
      hs.total, hs.loaded⟩
    intro _
    apply hs.progress
    cases hprogress <;> simp_all

theorem run_ordered {es : List (Event n)} (hrun : Run (Step opts) start es s) :
    Ordered opts s :=
  hrun.invariant (Ordered opts) (fun _ _ _ _ hinv hstep => hinv.step hstep)
    (fun _ _ => trivial) (ordered_start opts)

end Ordered

/-! ### Reaching the measured phase -/

def Reaches (opts : Options n) (s t : System n) : Prop := ∃ es, Run (Step opts) s es t

/-- The display and the flag it watches are as before. -/
def SameDisplay (s t : System n) : Prop := t.done = s.done ∧ t.progress = s.progress

section Reaches

variable {opts : Options n} {s t u : System n}

theorem Reaches.refl (s : System n) : Reaches opts s s := ⟨[], .nil s⟩

theorem Reaches.trans (hst : Reaches opts s t) (htu : Reaches opts t u) : Reaches opts s u := by
  obtain ⟨es, hes⟩ := hst
  obtain ⟨fs, hfs⟩ := htu
  exact ⟨es ++ fs, run_append_iff.mpr ⟨t, hes, hfs⟩⟩

theorem Reaches.step {e : Event n} (hstep : Step opts s e t) : Reaches opts s t :=
  ⟨[e], run_singleton_iff.mpr hstep⟩

theorem SameDisplay.trans (hst : SameDisplay s t) (htu : SameDisplay t u) : SameDisplay s u :=
  ⟨htu.1.trans hst.1, htu.2.trans hst.2⟩

theorem Reaches.phased (hst : Reaches opts s t) (hs : Phased s) : Phased t := by
  obtain ⟨es, hes⟩ := hst
  exact hes.invariant Phased (fun _ _ _ _ hinv hstep => hinv.step hstep) (fun _ _ => trivial) hs

/-- A step that every function can take from `pc` to `pc'`. -/
def FnMove (opts : Options n) (pc : FnPc) (act : FnAct) (pc' : FnPc) : Prop :=
  ∀ i f, f.pc = pc →
    ∃ f', FnStep opts.dryRun opts.offloadFracDen (opts.functions i) f act f' ∧ f'.pc = pc'

theorem fnMove_waits (i : Fin n) {pc pc' : FnPc} {act : FnAct} (hmove : FnMove opts pc act pc') :
    Moves (FnAct.move act) (FnPc.waits pc) (FnPc.waits pc') (FnPc.blocked pc)
      (FnPc.blocked pc') := by
  obtain ⟨f', hstep, hpc⟩ := hmove i { pc := pc } rfl
  rw [← hpc]
  exact fnStep_moves hstep

/-- One function after the other takes the same step. -/
theorem each_fn {pc pc' : FnPc} {act : FnAct} (hs : Phased s) (hfns : ∀ i, (s.fns i).pc = pc)
    (hmove : FnMove opts pc act pc')
    (hresume : act = .resume → FnPc.blocked pc = true ∧ FnPc.waits pc ≤ MainPc.waits s.main) :
    ∃ t, Reaches opts s t ∧ t.main = s.main ∧ SameDisplay s t ∧ ∀ i, (t.fns i).pc = pc' := by
  have hsome : ∀ moved : Finset (Fin n), ∃ t, Reaches opts s t ∧ t.main = s.main ∧
      SameDisplay s t ∧ ∀ i, (t.fns i).pc = if i ∈ moved then pc' else pc := by
    intro moved
    induction moved using Finset.induction with
    | empty => exact ⟨s, .refl s, rfl, ⟨rfl, rfl⟩, by simpa using hfns⟩
    | insert i moved hnew ih =>
      obtain ⟨t, hreach, hmain, hdone, ht⟩ := ih
      have hpc : (t.fns i).pc = pc := by simpa [hnew] using ht i
      obtain ⟨f, hstep, hf⟩ := hmove i (t.fns i) hpc
      have hphased := hreach.phased hs
      have hready : act = .resume → t.sync.Released (some i) := by
        rintro rfl
        obtain ⟨hblocked, hwaits⟩ := hresume rfl
        have hfollows := hphased.fns i
        rw [hpc, hblocked] at hfollows
        apply hfollows.released hphased.sound
        rintro (_ | j)
        · rw [hphased.main.1, hmain]
          exact hwaits
        · -- those that have resumed have made the call as well
          obtain ⟨hsame, -⟩ := fnMove_waits i hmove
          rw [(hphased.fns j).1, ht j]
          split
          · exact hsame.ge
          · exact le_refl _
      refine ⟨_, hreach.trans (.step (.fn i hstep hready)), ?_, ?_, ?_⟩
      · show (t.fnEffect opts i act).main = s.main
        rw [fnEffect_main, hmain]
      · exact hdone.trans (fnEffect_display opts i t act)
      · intro j
        by_cases heq : j = i
        · subst heq
          simpa using hf
        · simpa [heq] using ht j
  obtain ⟨t, hreach, hmain, hdone, ht⟩ := hsome Finset.univ
  exact ⟨t, hreach, hmain, hdone, fun i => by simpa using ht i⟩

/-- All parties pass one wait. -/
theorem each_wait {pc pc₁ pc₂ : FnPc} {main main₁ main₂ : MainPc} (hs : Phased s)
    (hmain : s.main = main) (hfns : ∀ i, (s.fns i).pc = pc)
    (harrive : FnMove opts pc .arrive pc₁) (hresume : FnMove opts pc₁ .resume pc₂)
    (hmainArrive : MainStep n opts.mhosts main .arrive main₁)
    (hmainResume : MainStep n opts.mhosts main₁ .resume main₂)
    (hwaits : FnPc.waits pc₁ = MainPc.waits main₁) (hpc : FnPc.blocked pc₁ = true)
    (hmainPc : MainPc.blocked main₁ = true) :
    ∃ t, Reaches opts s t ∧ t.main = main₂ ∧ SameDisplay s t ∧ ∀ i, (t.fns i).pc = pc₂ := by
  subst hmain
  obtain ⟨t, hreach, hmain, hdone, ht⟩ := each_fn hs hfns harrive (by simp)
  rw [← hmain] at hmainArrive
  have harrived : Step opts t (.main .arrive) _ := .main hmainArrive trivial
  have hphased := (hreach.trans (.step harrived)).phased hs
  obtain ⟨u, hother, hmoved, hdone₁, hu⟩ := each_fn hphased ht hresume fun _ => ⟨hpc, hwaits.le⟩
  have hmain₁ : u.main = main₁ := hmoved
  have hreached := (hreach.trans (.step harrived)).trans hother
  have hready : u.sync.Released none := by
    have hu' := hreached.phased hs
    have hfollows := hu'.main
    rw [hmain₁, hmainPc] at hfollows
    apply hfollows.released hu'.sound
    rintro (_ | i)
    · rw [hu'.main.1, hmain₁]
    · obtain ⟨hsame, -⟩ := fnMove_waits i hresume
      rw [(hu'.fns i).1, hu i, hsame, hwaits]
  rw [← hmain₁] at hmainResume
  exact ⟨_, hreached.trans (.step (.main hmainResume hready)), rfl, hdone.trans hdone₁, hu⟩

/-- `async_main` serves one monitoring host after the other. -/
theorem each_host (opts : Options n) (pcs : Nat → MainPc) (hmain : s.main = pcs 0)
    (hserve : ∀ t host, host < opts.mhosts → t.main = pcs host →
      ∃ u, Reaches opts t u ∧ u.main = pcs (host + 1) ∧ SameDisplay t u ∧ u.fns = t.fns) :
    ∃ t, Reaches opts s t ∧ t.main = pcs opts.mhosts ∧ SameDisplay s t ∧ t.fns = s.fns := by
  have hsome : ∀ host ≤ opts.mhosts,
      ∃ t, Reaches opts s t ∧ t.main = pcs host ∧ SameDisplay s t ∧ t.fns = s.fns := by
    intro host hhost
    induction host with
    | zero => exact ⟨s, .refl s, hmain, ⟨rfl, rfl⟩, rfl⟩
    | succ host ih =>
      obtain ⟨t, hreach, hpc, hsame, hfns⟩ := ih (by omega)
      obtain ⟨u, hnext, hpc', hsame', hfns'⟩ := hserve t host hhost hpc
      exact ⟨u, hreach.trans hnext, hpc', hsame.trans hsame', hfns'.trans hfns⟩
  exact hsome _ (le_refl _)

theorem reaches_main {act : MainAct n} {pc pc' : MainPc} (hpc : s.main = pc)
    (hstep : MainStep n opts.mhosts pc act pc') (hready : s.MainReady act) :
    Reaches opts s { s.mainEffect act with main := pc' } := by
  subst hpc
  exact .step (.main hstep hready)

/-- After their test requests all functions can get to the measured phase. -/
theorem exists_measuring (opts : Options n)
    (htestable : ∀ i, (opts.functions i).Testable opts.dryRun) :
    ∃ s, Reaches opts start s ∧ s.main = .progressing ∧ s.done = false ∧ s.progress = .checking ∧
      ∀ i, (s.fns i).pc = .allocating := by
  have hstart : Phased (start : System n) := phased_start
  obtain ⟨s₁, hs₁, hmain₁, hsame₁, hfns₁⟩ := each_host (s := start) opts .connecting rfl
    fun t host hlt hpc => ⟨_, reaches_main hpc (.connect hlt) trivial, rfl, ⟨rfl, rfl⟩, rfl⟩
  obtain ⟨s₂, hs₂, hmain₂, hsame₂, hfns₂⟩ := each_wait (hs₁.phased hstart) hmain₁
    (fun i => by rw [hfns₁]; rfl) (fun i _ h => ⟨_, .testDone h (htestable i), rfl⟩)
    (fun _ _ h => ⟨_, .testSynced h, rfl⟩) .testWait .testSynced rfl rfl rfl
  obtain ⟨s₃, hs₃, hmain₃, hsame₃, hfns₃⟩ := each_host opts .opening hmain₂
    fun t host hlt hpc => ⟨_, reaches_main hpc (.openRange hlt) trivial, rfl, ⟨rfl, rfl⟩, rfl⟩
  have hreach₃ := (hs₁.trans hs₂).trans hs₃
  obtain ⟨s₄, hs₄, hmain₄, hsame₄, hfns₄⟩ := each_wait (hreach₃.phased hstart) hmain₃
    (fun i => by rw [hfns₃]; exact hfns₂ i) (fun _ _ h => ⟨_, .monitorWait h, rfl⟩)
    (fun _ _ h => ⟨_, .monitorSynced h, rfl⟩) .monitorWait .monitorSynced rfl rfl rfl
  have hreach₄ := hreach₃.trans hs₄
  obtain ⟨s₅, hs₅, hmain₅, hsame₅, hfns₅⟩ := each_fn (hreach₄.phased hstart) hfns₄
    (fun _ _ h => ⟨_, .addTotal h, rfl⟩) (by simp)
  have hreach₅ := hreach₄.trans hs₅
  obtain ⟨s₆, hs₆, hmain₆, hsame₆, hfns₆⟩ := each_wait (hreach₅.phased hstart)
    (hmain₅.trans hmain₄) hfns₅ (fun _ _ h => ⟨_, .countWait h, rfl⟩)
    (fun _ _ h => ⟨_, .countSynced h, rfl⟩) .countWait .countSynced rfl rfl rfl
  have hsame := ((((hsame₁.trans hsame₂).trans hsame₃).trans hsame₄).trans hsame₅).trans hsame₆
  exact ⟨_, (hreach₅.trans hs₆).trans (reaches_main hmain₆ .progressSpawned trivial), rfl, hsame.1,
    rfl, hfns₆⟩

/-- The display can get to load the total. -/
theorem exists_ticking (opts : Options n)
    (htestable : ∀ i, (opts.functions i).Testable opts.dryRun) :
    ∃ s, Reaches opts start s ∧ s.progress = .ticking := by
  obtain ⟨s, hreach, -, hdone, hprogress, -⟩ := exists_measuring opts htestable
  exact ⟨_, hreach.trans (.step (.progress (.goOn hprogress hdone))), rfl⟩

end Reaches

/-! ### The order of the phases -/

/-- How often a party has called `wait`. -/
def System.waits (s : System n) : Option (Fin n) → Nat
  | none => MainPc.waits s.main
  | some i => FnPc.waits (s.fns i).pc

theorem Phased.calls_eq {s : System n} (hs : Phased s) (p : Option (Fin n)) :
    s.sync.calls p = System.waits s p := by
  cases p with
  | none => exact hs.main.1
  | some i => exact (hs.fns i).1

/-- The position from which a function spawns. -/
theorem fnStep_spawn {dryRun : Bool} {den : Int32} {plan : Plan} {f f' : Fn}
    (hstep : FnStep dryRun den plan f .spawn f') :
    FnPc.waits f.pc = 3 ∧ FnPc.blocked f.pc = false := by
  cases hstep
  simp_all [FnPc.waits, FnPc.blocked]

/-- After four waits a function has joined all its requests. -/
theorem FnInv.finished {plan : Plan} {f : Fn} (hf : FnInv plan f) (hwaits : 4 ≤ FnPc.waits f.pc) :
    f.tasks.length = plan.totalRequests ∧ f.results.length = plan.totalRequests ∧
      ∀ task ∈ f.tasks, ∃ result, task.state = .completed result := by
  have hpc : FnPc.hasJoined f.pc = true ∧
      FnPc.spawnedCount plan f.pc = plan.totalRequests := by
    revert hwaits
    cases f.pc <;> simp [FnPc.waits, FnPc.hasJoined, FnPc.spawnedCount]
  have hspawned := hf.spawned.trans hpc.2
  have hjoined := hf.joined hpc.1
  refine ⟨hspawned, hjoined.trans hspawned, ?_⟩
  intro task htask
  obtain ⟨j, hj, hget⟩ := List.mem_iff_getElem.mp htask
  have hlt : j < f.results.length := by omega
  obtain ⟨found, hfound, hstate⟩ := hf.matched j _ (List.getElem?_eq_getElem hlt)
  rw [List.getElem?_eq_getElem hj, hget] at hfound
  cases hfound
  exact ⟨_, hstate⟩

/-- In every run: a request is spawned only after every monitoring host got its
`[`; a `]` is written only after all requests have completed and were joined;
the total is loaded only when it is complete; and the waits of the parties are
matched phase by phase. -/
theorem phases_ordered (opts : Options n) {es : List (Event n)} {s : System n}
    (hrun : Run (Step opts) start es s) :
    (∀ i t, Step opts s (.fn i .spawn) t → ∀ host < opts.mhosts, (host, '[') ∈ s.wire) ∧
    (∀ host t, Step opts s (.main (.write host ']')) t → ∀ i,
      (s.fns i).tasks.length = (opts.functions i).totalRequests ∧
      (s.fns i).results.length = (opts.functions i).totalRequests ∧
      ∀ task ∈ (s.fns i).tasks, ∃ result, task.state = .completed result) ∧
    (∀ value, (∃ t, Step opts s (.loadTotal value) t) ∨ s.reportTotal = some value →
      value = Int64.ofNat (Options.allRequests opts) ∧
      (Options.allRequests opts < 2 ^ 63 → value.toInt = Options.allRequests opts)) ∧
    (∀ p generation, s.sync.waiting p = some generation → System.waits s p = generation + 1) ∧
    (s.main = .reported → ∀ p, System.waits s p = 4) := by
  have hs := run_ordered hrun
  refine ⟨?_, ?_, ?_, ?_, ?_⟩
  · intro i t hstep
    have hwaits : 3 ≤ MainPc.waits s.main := by
      cases hstep with
      | fn _ hfn _ =>
        have hfollows := hs.phased.fns i
        obtain ⟨hthree, hfree⟩ := fnStep_spawn hfn
        rw [hfree, hthree] at hfollows
        exact hfollows.passed hs.phased.sound hs.phased.main
      | progress hprogress => cases hprogress
    exact hs.opened (by omega)
  · intro host t hstep i
    cases hstep with
    | main hmain _ =>
      have hpc := mainStep_close hmain
      have hfollows := hs.phased.main
      rw [hpc] at hfollows
      exact (hs.fns i).finished (hfollows.passed hs.phased.sound (hs.phased.fns i))
    | progress hprogress => cases hprogress
  · intro value hload
    have hvalue : value = Int64.ofNat (Options.allRequests opts) := by
      rcases hload with ⟨t, hstep⟩ | hreport
      · cases hstep with
        | progress hprogress =>
          have hborn : s.progress ≠ .unborn := by cases hprogress <;> simp_all
          have htotal := hs.total_eq (hs.progress hborn)
          cases hprogress <;> exact htotal
      · exact hs.loaded value hreport
    refine ⟨hvalue, fun hsmall => ?_⟩
    rw [hvalue, Int64.toInt_ofNat_of_lt hsmall]
  · intro p generation hwaiting
    rw [← hs.phased.calls_eq, (hs.phased.sound.inside p generation hwaiting).1]
  · intro hreported p
    have hgeneration := hs.phased.generation_eq (by rw [hreported]; rfl)
    rw [hreported] at hgeneration
    have hfour := (hs.phased.sound.calls_bounds p).1
    rw [hs.phased.calls_eq, hgeneration] at hfour
    cases p with
    | none => rw [System.waits, hreported]; rfl
    | some i =>
      have hmost : FnPc.waits (s.fns i).pc ≤ 4 := by
        cases (s.fns i).pc <;> simp [FnPc.waits]
      exact le_antisymm hmost hfour

/-- Functions that all have the same plan, without a monitoring host. -/
def alike (n : Nat) (plan : Plan) : Options n where
  functions := fun _ => plan
  offloadFracDen := 1
  dryRun := false
  monitoringHosts := 0

/-- Two functions with one request each: the display loads a total of two. -/
theorem phases_ordered_alike :
    ∃ (es : List (Event 2)) (s t : System 2) (value : Int64),
      Run (Step (alike 2 ⟨1, by decide, 1, 1, some 1⟩)) start es s ∧
        Step (alike 2 ⟨1, by decide, 1, 1, some 1⟩) s (.loadTotal value) t ∧ value.toInt = 2 := by
  obtain ⟨s, ⟨es, hrun⟩, hticking⟩ :=
    exists_ticking (alike 2 ⟨1, by decide, 1, 1, some 1⟩) fun _ => .inr Nat.one_pos
  obtain ⟨-, -, hloads, -, -⟩ := phases_ordered _ hrun
  have hload : Step (alike 2 ⟨1, by decide, 1, 1, some 1⟩) s (.loadTotal s.totalRequests) _ :=
    .progress (.loadTotal hticking)
  exact ⟨es, s, _, _, hrun, hload, (hloads _ (.inl ⟨_, hload⟩)).2 (by decide)⟩

/-- Sixteen functions with 2^59 requests each: the sum does not fit the counter. -/
theorem total_wraps :
    ∃ (es : List (Event 16)) (s t : System 16) (value : Int64),
      Run (Step (alike 16 ⟨2 ^ 59, by decide, 1, 1, some 1⟩)) start es s ∧
        Step (alike 16 ⟨2 ^ 59, by decide, 1, 1, some 1⟩) s (.loadTotal value) t ∧
          value.toInt ≠ Options.allRequests (alike 16 ⟨2 ^ 59, by decide, 1, 1, some 1⟩) := by
  obtain ⟨s, ⟨es, hrun⟩, hticking⟩ :=
    exists_ticking (alike 16 ⟨2 ^ 59, by decide, 1, 1, some 1⟩) fun _ => .inr Nat.one_pos
  have hs := run_ordered hrun
  have htotal := hs.total_eq (hs.progress (by simp [hticking]))
  refine ⟨es, s, _, _, hrun, .progress (.loadTotal hticking), ?_⟩
  rw [htotal]
  decide

end NdpOffload.Faasmspeed.Phases
