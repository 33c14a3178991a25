import NdpOffload.Faasmspeed.Offload
import NdpOffload.Library.Loops

/-! The slot counter of `run_function` under any denominator that the options accept:
when its steps stay within an `i32` and the wrap loop ends. -/
namespace NdpOffload.Faasmspeed.Scheduling

open Library.Runs Library.Loops Generator Phases Conservation Offload

variable {n : Nat}

/-- A plan that does not get to a second request. -/
def Single (plan : Plan) : Prop := plan.totalRequests ≤ 1 ∨ plan.poolSize = 0 ∨ ¬ plan.Periodic

section Arithmetic

variable {a b : Int32}

end Arithmetic

/-! ### Denominators that cycle -/

section Positive

variable {den : Nat} {offloadFracDen : Int32} {plan : Plan} {f : Fn}

end Positive

/-! ### Denominators that do not -/

section Once

variable {dryRun : Bool} {offloadFracDen : Int32} {plan : Plan} {f f' : Fn} {act : FnAct}

/-- Where the counter stands in a function without a second request. -/
def Once (offloadFracDen : Int32) (plan : Plan) (f : Fn) : Prop :=
  match f.pc with
  | .scheduling => f.ndpVar = offloadFracDen - 1
  | .looping k => plan.Periodic ∧
      (k = 0 ∧ f.ndpVar = offloadFracDen - 1 ∨ plan.totalRequests ≤ k)
  | .adjusting k => plan.Periodic ∧ k = 0 ∧ f.ndpVar = offloadFracDen
  | .spawning k _ => plan.Periodic ∧ k = 0
  | _ => True

theorem Once.step (hsingle : Single plan) (hf : Once offloadFracDen plan f)
    (hstep : FnStep dryRun offloadFracDen plan f act f') : Once offloadFracDen plan f' := by
  cases hstep with
  | start _ => exact rfl
  | schedule hpc hperiodic =>
    rw [Once, hpc] at hf
    exact ⟨hperiodic, .inl ⟨rfl, hf⟩⟩
  | tick hpc hlt =>
    rw [Once, hpc] at hf
    obtain ⟨hperiodic, ⟨hzero, hvar⟩ | hlast⟩ := hf
    · refine ⟨hperiodic, hzero, ?_⟩
      show f.ndpVar + 1 = offloadFracDen
      rw [hvar, Int32.sub_add_cancel]
    · exact absurd hlt (Nat.not_lt.mpr hlast)
  | adjust hpc hover =>
    rw [Once, hpc] at hf
    rw [hf.2.2] at hover
    exact absurd hover Int32.lt_irrefl
  | allowNdp hpc _ _ =>
    rw [Once, hpc] at hf
    exact ⟨hf.1, hf.2.1⟩
  | forbidNdp hpc _ _ =>
    rw [Once, hpc] at hf
    exact ⟨hf.1, hf.2.1⟩
  | spawn hpc hwhich =>
    rw [Once, hpc] at hf
    obtain ⟨hperiodic, hzero⟩ := hf
    refine ⟨hperiodic, .inr ?_⟩
    rcases hsingle with hone | hempty | hnone
    · omega
    · omega
    · exact absurd hperiodic hnone
  | join hpc _ _ =>
    rw [Once] at hf ⊢
    simp [hpc]
  | _ => trivial

end Once

/-! ### Functions that do not get to their counter -/

section Unstarted

variable {dryRun : Bool} {offloadFracDen : Int32} {plan : Plan} {f f' : Fn} {act : FnAct}

/-- Where a function uses its counter. -/
def FnPc.counting : FnPc → Bool
  | .starting | .scheduling | .looping _ | .adjusting _ | .spawning _ _ => true
  | _ => false

end Unstarted

/-! ### Runs -/

section Runs

variable {opts : Options n} {i : Fin n}

end Runs

end NdpOffload.Faasmspeed.Scheduling
