import NdpOffload.Faasmspeed.Conservation

/-! The percentage that the progress task shows while the requests run. -/
namespace NdpOffload.Faasmspeed.Progress

open Library.Runs Generator Phases Conservation

variable {n : Nat} {opts : Options n} {s t : System n}

/-- `recv * 100 / total`; a zero total panics before it. -/
def percentage (total recv : Int64) : Int64 := recv * 100 / total

/-- What the display has loaded. -/
def Loaded (opts : Options n) : ProgressPc → Prop
  | .loadedTotal total => total = Int64.ofNat (Options.allRequests opts)
  | .loadedSent total _ => total = Int64.ofNat (Options.allRequests opts)
  | .printing total _ recv => total = Int64.ofNat (Options.allRequests opts) ∧
      ∃ received ≤ Options.allRequests opts, recv = Int64.ofNat received
  | _ => True

theorem loaded_display (hs : Conserved opts s) (hloaded : Loaded opts s.progress) {e : Event n}
    {pc : ProgressPc} (hstep : ProgressStep s e pc) : Loaded opts pc := by
  have htotal (hborn : s.progress ≠ .unborn) := hs.ordered.total_eq (hs.ordered.progress hborn)
  cases hstep with
  | loadTotal hpc => exact htotal (by simp [hpc])
  | loadSent hpc =>
    rw [hpc] at hloaded
    exact hloaded
  | loadRecv hpc =>
    rw [hpc] at hloaded
    exact ⟨hloaded, receivedCount s, (receivedCount_le s).trans (sentCount_le hs.ordered),
      hs.counters.recv⟩
  | _ => trivial

theorem loaded_step (hs : Conserved opts s) (hloaded : Loaded opts s.progress) {e : Event n}
    (hstep : Step opts s e t) : Loaded opts t.progress := by
  cases hstep with
  | @fn act _ i _ _ =>
    show Loaded opts (s.fnEffect opts i act).progress
    rw [(fnEffect_display opts i s act).2]
    exact hloaded
  | @task _ act _ _ _ _ _ =>
    show Loaded opts (s.taskEffect act).progress
    cases act <;> exact hloaded
  | @main act _ _ _ =>
    show Loaded opts (s.mainEffect act).progress
    cases act <;> first | exact hloaded | trivial
  | progress hprogress => exact loaded_display hs hloaded hprogress

theorem run_loaded {es : List (Event n)} (hrun : Run (Step opts) start es s) :
    Loaded opts s.progress := by
  have hboth := hrun.always (fun s => Conserved opts s ∧ Loaded opts s.progress)
    (fun _ _ _ hinv hstep => ⟨hinv.1.step hstep, loaded_step hinv.1 hinv.2 hstep⟩)
    ⟨conserved_start opts, trivial⟩
  exact hboth.2

/-- After the test requests the display can get to print. -/
theorem exists_printing (opts : Options n)
    (htestable : ∀ i, (opts.functions i).Testable opts.dryRun) :
    ∃ s sent recv, Reaches opts start s ∧
      s.progress = .printing (Int64.ofNat (Options.allRequests opts)) sent recv := by
  obtain ⟨s, hreach, hticking⟩ := exists_ticking opts htestable
  have htotal : s.totalRequests = Int64.ofNat (Options.allRequests opts) := by
    obtain ⟨es, hrun⟩ := hreach
    have hs := run_ordered hrun
    exact hs.total_eq (hs.progress (by simp [hticking]))
  have hloaded := hreach.trans (.step (.progress (.loadTotal hticking)))
  have hsent := hloaded.trans (.step (.progress (.loadSent rfl)))
  exact ⟨_, s.sentRequests, s.recvRequests, hsent.trans (.step (.progress (.loadRecv rfl))), by
    rw [← htotal]⟩

theorem percentage_bounds {received total : Nat} (hle : received ≤ total) (hpos : 0 < total)
    (hsmall : 100 * total < 2 ^ 63) :
    0 ≤ (percentage (Int64.ofNat total) (Int64.ofNat received)).toInt ∧
      (percentage (Int64.ofNat total) (Int64.ofNat received)).toInt ≤ 100 := by
  have hproduct : (Int64.ofNat received * 100).toInt = received * 100 := by
    have hhundred : (100 : Int64).toInt = 100 := rfl
    rw [Int64.toInt_mul, Int64.toInt_ofNat_of_lt (by omega), hhundred,
      Int.bmod_eq_of_le (by omega) (by omega)]
  have hproductMin : Int64.ofNat received * 100 ≠ Int64.minValue := by
    intro heq
    rw [heq] at hproduct
    have hmin : Int64.minValue.toInt = -2 ^ 63 := rfl
    omega
  have hquotient : (percentage (Int64.ofNat total) (Int64.ofNat received)).toInt =
      ((received * 100 / total : Nat) : Int) := by
    rw [percentage, Int64.toInt_div_of_ne_left _ _ hproductMin, hproduct,
      Int64.toInt_ofNat_of_lt (by omega)]
    exact Int.ofNat_tdiv (received * 100) total
  have hhundred : received * 100 / total ≤ 100 := by
    rw [Nat.div_le_iff_le_mul_add_pred hpos]
    have hscaled := Nat.mul_le_mul_right 100 hle
    omega
  rw [hquotient]
  exact ⟨Int.natCast_nonneg _, by exact_mod_cast hhundred⟩

/-- While the plans add up to a hundredth of the range of `i64`, and each function has an
input for its test request or the run is dry: the display never divides by zero and shows
at most 100 exactly when there is a request at all. -/
theorem progress_display_iff (opts : Options n)
    (htestable : ∀ i, (opts.functions i).Testable opts.dryRun)
    (hsmall : 100 * Options.allRequests opts < 2 ^ 63) :
    (∀ es s, Run (Step opts) start es s → ∀ total sent recv,
      s.progress = .printing total sent recv →
        total ≠ 0 ∧ 0 ≤ (percentage total recv).toInt ∧ (percentage total recv).toInt ≤ 100) ↔
    0 < Options.allRequests opts := by
  constructor
  · intro hshows
    obtain ⟨s, sent, recv, ⟨es, hrun⟩, hprinting⟩ := exists_printing opts htestable
    have hnonzero := (hshows es s hrun _ sent recv hprinting).1
    by_contra hnone
    rw [Nat.eq_zero_of_not_pos hnone] at hnonzero
    exact hnonzero rfl
  · intro hpos es s hrun total sent recv hprinting
    have hloaded := run_loaded hrun
    rw [hprinting] at hloaded
    obtain ⟨rfl, received, hle, rfl⟩ := hloaded
    refine ⟨fun hzero => ?_, percentage_bounds hle hpos hsmall⟩
    have hint := Int64.toInt_ofNat_of_lt (show Options.allRequests opts < 2 ^ 63 by omega)
    rw [hzero] at hint
    have hzeroInt : (0 : Int64).toInt = 0 := rfl
    omega

/-- Two functions with three requests each: a run in which the percentage is shown. -/
theorem progress_display_alike :
    ∃ (es : List (Event 2)) (s : System 2) (total sent recv : Int64),
      Run (Step (alike 2 ⟨3, by decide, 1, 1, some 1⟩)) start es s ∧
        s.progress = .printing total sent recv ∧ total ≠ 0 ∧ (percentage total recv).toInt ≤ 100 := by
  obtain ⟨s, sent, recv, ⟨es, hrun⟩, hprinting⟩ :=
    exists_printing (alike 2 ⟨3, by decide, 1, 1, some 1⟩) fun _ => .inr Nat.one_pos
  obtain ⟨hnonzero, -, hbound⟩ := (progress_display_iff (alike 2 ⟨3, by decide, 1, 1, some 1⟩)
    (fun _ => .inr Nat.one_pos) (by decide)).mpr (by decide) es s hrun _ sent recv hprinting
  exact ⟨es, s, _, sent, recv, hrun, hprinting, hnonzero, hbound⟩

/-- One function whose rate and time allow no request: the display divides by zero. -/
theorem idle_divides_by_zero :
    ∃ (es : List (Event 1)) (s : System 1) (sent recv : Int64),
      Run (Step (alike 1 ⟨0, by decide, 1, 1, some 1⟩)) start es s ∧
        s.progress = .printing 0 sent recv := by
  obtain ⟨s, sent, recv, ⟨es, hrun⟩, hprinting⟩ :=
    exists_printing (alike 1 ⟨0, by decide, 1, 1, some 1⟩) fun _ => .inr Nat.one_pos
  exact ⟨es, s, sent, recv, hrun, hprinting⟩

end NdpOffload.Faasmspeed.Progress
