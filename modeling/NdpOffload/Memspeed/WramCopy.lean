import NdpOffload.Library.Strides

/-! `memspeed/dpusrc/wramcopy.c`: the tasklets of a DPU copy one WRAM buffer into
another, word by word, each every `NR_TASKLETS`-th word. -/
namespace NdpOffload.Memspeed.WramCopy
open NdpOffload.Library.Runs NdpOffload.Library.Strides

abbrev Word := UInt32

def wramBufferDwords : Nat := 6144

/-- The `__host` variables that the host broadcasts before it launches the DPU. -/
structure Host where
  runRepetitions : UInt32
  copyWordsAmount : UInt32

/-- The buffers, and the register in which a tasklet has the word that it is copying. -/
structure Memory (nrTasklets : Nat) where
  bufferA : Nat → Word
  bufferB : Nat → Word
  register : Fin nrTasklets → Word

variable {nrTasklets : Nat}

/-- The loops of `main` in the tasklet `me()`.  Pointers are offsets in words;
the source and the target are `read_begin` and `write_begin`. -/
def main (host : Host) (me : Fin nrTasklets) : Lane where
  first := me
  stride := nrTasklets
  bound := host.copyWordsAmount.toNat
  repetitions := host.runRepetitions.toNat
  stride_pos := me.pos

/-- `*write_begin = *read_begin;` is a load and a store. -/
def access (me : Fin nrTasklets) (w : Walk) (m : Memory nrTasklets) : Memory nrTasklets :=
  match w.point with
  | .fetch => { m with register := Function.update m.register me (m.bufferA w.source) }
  | .store => { m with bufferB := Function.update m.bufferB w.target (m.register me) }
  | _ => m

abbrev Step (host : Host) :
    Crew (Fin nrTasklets) (Memory nrTasklets) → Fin nrTasklets × Action →
      Crew (Fin nrTasklets) (Memory nrTasklets) → Prop :=
  Crew.Step (main host) access

variable {host : Host} {m : Memory nrTasklets}
  {s t : Crew (Fin nrTasklets) (Memory nrTasklets)} {e : Fin nrTasklets × Action}
  {es : List (Fin nrTasklets × Action)}

/-- The word at `i` belongs to the tasklet `i % NR_TASKLETS`. -/
theorem member_main {me : Fin nrTasklets} {i : Nat} :
    (main host me).Member i ↔ i < host.copyWordsAmount.toNat ∧ me.val = i % nrTasklets := by
  simp only [Lane.Member, main]
  refine and_congr_right fun _ => ?_
  constructor
  · rintro ⟨k, rfl⟩
    rw [Nat.add_mul_mod_self_right, Nat.mod_eq_of_lt me.isLt]
  · intro heq
    refine ⟨i / nrTasklets, ?_⟩
    rw [heq, Nat.mul_comm, Nat.mod_add_div]

/-- The target holds the source's word where its owner has stored at least once,
and what it held before the launch elsewhere. -/
structure Copying (host : Host) (m : Memory nrTasklets)
    (s : Crew (Fin nrTasklets) (Memory nrTasklets)) : Prop where
  sound : s.Sound (main host)
  source : s.memory.bufferA = m.bufferA
  loaded : ∀ me, (s.walks me).point = .store →
    s.memory.register me = m.bufferA (s.walks me).target
  copied : ∀ me i, (main host me).Member i →
    s.memory.bufferB i = if 0 < (s.walks me).stores i then m.bufferA i else m.bufferB i
  untouched : ∀ i, (∀ me : Fin nrTasklets, ¬ (main host me).Member i) → s.memory.bufferB i = m.bufferB i

theorem copying_start : Copying host m (Crew.start m) where
  sound := sound_crew_start _ m
  source := rfl
  loaded := by simp [Crew.start]
  copied := by simp [Crew.start, Walk.stores, Walk.InPass]
  untouched := fun _ _ => rfl

/-- A step that does not store leaves the target alone. -/
theorem access_bufferB {me : Fin nrTasklets} {w : Walk} (hpoint : w.point ≠ .store) :
    (access me w m).bufferB = m.bufferB := by
  unfold access
  split
  · rfl
  · contradiction
  · rfl

theorem access_bufferA (me : Fin nrTasklets) (w : Walk) : (access me w m).bufferA = m.bufferA := by
  unfold access
  split <;> rfl

theorem access_register {me other : Fin nrTasklets} (w : Walk) (hne : other ≠ me) :
    (access me w m).register other = m.register other := by
  unfold access
  split
  · simp [hne]
  · rfl
  · rfl

/-- The word at a position of one tasklet is of no other. -/
theorem member_unique {me other : Fin nrTasklets} {i : Nat} (hme : (main host me).Member i)
    (hother : (main host other).Member i) : me = other := by
  apply Fin.ext
  rw [(member_main.1 hme).2, (member_main.1 hother).2]

theorem Copying.step (hs : Copying host m s) (hstep : Step host s e t) : Copying host m t := by
  have hsound := hs.sound.step hstep
  have hstores := fun me i (hi : (main host me).Member i) => hs.sound.stores_step hstep hi
  have hfetched := fun me (hme : (t.walks me).point = .store) => hs.sound.fetched hstep hme
  obtain ⟨who, what⟩ := e
  obtain ⟨_, hwhat, rfl⟩ := hstep
  simp only at hwhat
  refine ⟨hsound, ?_, ?_, ?_, ?_⟩
  · simp only [Crew.advance, access_bufferA, hs.source]
  · intro me hme
    obtain ⟨rfl, hpoint, htarget⟩ | ⟨hne, hwalk⟩ := hfetched me hme
    · rw [htarget]
      simp only [Crew.advance, access, hpoint, Function.update_self, hs.source]
    · rw [hwalk] at hme ⊢
      simp only [Crew.advance, access_register _ (Ne.symm hne), hs.loaded me hme]
  · intro me i hi
    have hbefore := hs.copied me i hi
    rw [hstores me i hi]
    by_cases hpoint : (s.walks who).point = .store
    · have htarget := (hs.sound who).member_target hpoint
      have haction : what = .store (s.walks who).target := hwhat ▸ action_eq_store.2 ⟨hpoint, rfl⟩
      by_cases hat : i = (s.walks who).target
      · have hme := member_unique hi (hat ▸ htarget)
        subst hme
        simp [Crew.advance, access, hpoint, hat, haction, hs.loaded me hpoint]
      · simpa [Crew.advance, access, hpoint, hat, haction, Ne.symm hat] using hbefore
    · have hother : ¬ ((who, what) = (me, Action.store i)) := by
        rintro heq
        rw [Prod.mk.injEq, hwhat, action_eq_store] at heq
        exact hpoint heq.2.1
      simpa [Crew.advance, access_bufferB hpoint, hother] using hbefore
  · intro i hi
    rw [← hs.untouched i hi]
    by_cases hpoint : (s.walks who).point = .store
    · have hne : i ≠ (s.walks who).target := by
        rintro rfl
        exact hi who ((hs.sound who).member_target hpoint)
      simp [Crew.advance, access, hpoint, hne]
    · simp only [Crew.advance, access_bufferB hpoint]

theorem Copying.run (hs : Copying host m s) (hrun : Run (Step host) s es t) : Copying host m t :=
  hrun.always (Copying host m) (fun _ _ _ hu hstep => hu.step hstep) hs

/-! ### A launch -/

/-- No load and no store of a launch is outside the words that are to be copied. -/
theorem accesses_below (hrun : Run (Step host) (Crew.start m) es s) (he : e ∈ es) {i : Nat}
    (haction : e.2 = .fetch i ∨ e.2 = .store i) : i < host.copyWordsAmount.toNat :=
  (member_main.1 (member_of_access hrun he haction)).1

/-- Whatever the order of the tasklets' steps: when all have finished, exactly
the first `copy_words_amount` words are copied, each of them once per repetition
and always by the same tasklet. -/
theorem launch_copies (hT : 0 < nrTasklets)
    (hn : host.copyWordsAmount.toNat ≤ wramBufferDwords) (hr : 0 < host.runRepetitions.toNat)
    (hrun : Run (Step host) (Crew.start m) es s) (hdone : s.Finished) :
    (∀ i < host.copyWordsAmount.toNat, s.memory.bufferB i = m.bufferA i) ∧
      (∀ i ≥ host.copyWordsAmount.toNat, s.memory.bufferB i = m.bufferB i) ∧
      s.memory.bufferA = m.bufferA ∧
      (∀ i < host.copyWordsAmount.toNat, ∀ me : Fin nrTasklets,
        es.count (me, .store i) =
          if me.val = i % nrTasklets then host.runRepetitions.toNat else 0) ∧
      ∀ e ∈ es, ∀ i, e.2 = .fetch i ∨ e.2 = .store i → i < wramBufferDwords := by
  have hcopying := copying_start.run hrun
  refine ⟨?_, ?_, hcopying.source, ?_, ?_⟩
  · intro i hi
    let owner : Fin nrTasklets := ⟨i % nrTasklets, Nat.mod_lt i hT⟩
    have hmember : (main host owner).Member i := member_main.2 ⟨hi, rfl⟩
    have hstores : ((s.walks owner).stores i) = host.runRepetitions.toNat :=
      (hcopying.sound owner).stores_finished (hdone owner) i
    rw [hcopying.copied owner i hmember, hstores, if_pos hr]
  · intro i hi
    apply hcopying.untouched
    intro me hmember
    exact Nat.not_lt.2 hi (member_main.1 hmember).1
  · intro i hi me
    by_cases hme : me.val = i % nrTasklets
    · rw [if_pos hme, count_stores_finished hrun hdone (member_main.2 ⟨hi, hme⟩)]
      rfl
    · rw [if_neg hme, (count_stores m hrun me i).2]
      exact fun hmember => hme (member_main.1 hmember).2
  · intro e he i haction
    exact Nat.lt_of_lt_of_le (accesses_below hrun he haction) hn

/-- Three words and four tasklets, twice over. -/
theorem launch_copies_fewer_words :
    ∃ (es : List (Fin 4 × Action)) (s : Crew (Fin 4) (Memory 4)),
      s.memory.bufferB 2 = 7 ∧ s.memory.bufferB 3 = 0 ∧ es.count (2, .store 2) = 2 ∧
        es.count (3, .store 2) = 0 := by
  let host : Host := { runRepetitions := 2, copyWordsAmount := 3 }
  let m : Memory 4 := { bufferA := fun _ => 7, bufferB := fun _ => 0, register := fun _ => 0 }
  obtain ⟨es, s, hrun, hdone⟩ := (sound_crew_start (main host) m).exists_finished access
  obtain ⟨hcopied, hrest, _, hcount, _⟩ :=
    launch_copies (by decide) (by decide) (by decide) hrun hdone
  exact ⟨es, s, hcopied 2 (by decide), hrest 3 (by decide), hcount 2 (by decide) 2,
    hcount 2 (by decide) 3⟩

end NdpOffload.Memspeed.WramCopy
