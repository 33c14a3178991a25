import NdpOffload.Library.Strides

/-! `memspeed/dpusrc/mramcopy.c`: the tasklets of a DPU copy one MRAM buffer into
another through a cache in WRAM, each every `NR_TASKLETS`-th block.  The kernel
gives its block size, a number of words, to transfers that count bytes, and all
tasklets use one cache. -/
namespace NdpOffload.Memspeed.MramCopy
open NdpOffload.Library.Runs NdpOffload.Library.Strides

abbrev Word := UInt32

def maxBlocksize : Nat := 64

def mramBufferDwords : Nat := 8388608

/-- The `__host` variables that the host broadcasts before it launches the DPU. -/
structure Host where
  runRepetitions : UInt32
  copyWordsAmount : UInt32

structure Memory where
  wramCache : Nat → Word
  bufferA : Nat → Word
  bufferB : Nat → Word

/-- The words that a transfer of so many bytes moves. -/
def wordsOf (bytes : Nat) : Nat := bytes / 4

/-- `mram_read(buffer_a + source, wram_cache + cache, bytes)` -/
def mramRead (source cache bytes : Nat) (m : Memory) : Memory :=
  { m with wramCache := fun i =>
      if cache ≤ i ∧ i < cache + wordsOf bytes then m.bufferA (source + (i - cache))
      else m.wramCache i }

/-- `mram_write(wram_cache + cache, buffer_b + target, bytes)` -/
def mramWrite (cache target bytes : Nat) (m : Memory) : Memory :=
  { m with bufferB := fun i =>
      if target ≤ i ∧ i < target + wordsOf bytes then m.wramCache (cache + (i - target))
      else m.bufferB i }

variable {nrTasklets : Nat}

/-- The loops of `main` in the tasklet `me()`, with pointers as offsets in words. -/
def main (host : Host) (me : Fin nrTasklets) : Lane where
  first := me * maxBlocksize
  stride := nrTasklets * maxBlocksize
  bound := host.copyWordsAmount.toNat
  repetitions := host.runRepetitions.toNat
  stride_pos := Nat.mul_pos me.pos (by decide)

/-- The body of the inner loop.  `my_cache` is computed but not used: both
transfers are given `wram_cache` itself. -/
def access (_me : Fin nrTasklets) (w : Walk) (m : Memory) : Memory :=
  match w.point with
  | .fetch => mramRead w.source 0 maxBlocksize m
  | .store => mramWrite 0 w.target maxBlocksize m
  | _ => m

abbrev Step (host : Host) :
    Crew (Fin nrTasklets) Memory → Fin nrTasklets × Action → Crew (Fin nrTasklets) Memory → Prop :=
  Crew.Step (main host) access

/-- The words of a block that a transfer moves. -/
abbrev moved : Nat := wordsOf maxBlocksize

variable {host : Host} {m : Memory} {s t : Crew (Fin nrTasklets) Memory}
  {e : Fin nrTasklets × Action} {es : List (Fin nrTasklets × Action)}

/-- Block `k` belongs to the tasklet `k % NR_TASKLETS`. -/
theorem member_main {me : Fin nrTasklets} {p : Nat} :
    (main host me).Member p ↔
      ∃ k, p = k * maxBlocksize ∧ p < host.copyWordsAmount.toNat ∧ me.val = k % nrTasklets := by
  simp only [Lane.Member, main]
  constructor
  · rintro ⟨hp, q, rfl⟩
    refine ⟨me + q * nrTasklets, by rw [Nat.add_mul, Nat.mul_assoc], hp, ?_⟩
    rw [Nat.add_mul_mod_self_right, Nat.mod_eq_of_lt me.isLt]
  · rintro ⟨k, rfl, hp, hme⟩
    refine ⟨hp, k / nrTasklets, ?_⟩
    have hk := Nat.mod_add_div k nrTasklets
    rw [← hme] at hk
    calc k * maxBlocksize = (me + nrTasklets * (k / nrTasklets)) * maxBlocksize := by rw [hk]
      _ = me * maxBlocksize + k / nrTasklets * (nrTasklets * maxBlocksize) := by
        rw [Nat.add_mul, Nat.mul_comm nrTasklets, Nat.mul_assoc]

/-- Blocks do not overlap, and each is of one tasklet. -/
theorem member_block {me other : Fin nrTasklets} {p q : Nat} (hp : (main host me).Member p)
    (hq : (main host other).Member q) {i : Nat} (hip : p ≤ i ∧ i < p + moved)
    (hiq : q ≤ i ∧ i < q + moved) : me = other ∧ p = q := by
  obtain ⟨k, rfl, _, hme⟩ := member_main.1 hp
  obtain ⟨k', rfl, _, hother⟩ := member_main.1 hq
  have hk : k = k' := by
    simp only [moved, wordsOf, maxBlocksize] at hip hiq
    omega
  subst hk
  exact ⟨Fin.ext (hme.trans hother.symm), rfl⟩

/-! ### What one step does to the memory -/

theorem bufferA_step (hstep : Step host s e t) : t.memory.bufferA = s.memory.bufferA := by
  obtain ⟨_, _, rfl⟩ := hstep
  simp only [Crew.advance, access]
  split <;> rfl

theorem wramCache_step (hstep : Step host s e t) {j : Nat} (hj : j < moved) :
    t.memory.wramCache j =
      if (s.walks e.1).point = .fetch then s.memory.bufferA ((s.walks e.1).source + j)
      else s.memory.wramCache j := by
  obtain ⟨_, _, rfl⟩ := hstep
  simp only [Crew.advance, access]
  split
  · rename_i hpoint
    simp [mramRead, hpoint, hj]
  · rename_i hpoint
    simp [mramWrite, hpoint]
  · rename_i hfetch _
    rw [if_neg hfetch]

theorem bufferB_step (hs : s.Sound (main host)) (hstep : Step host s e t) {me : Fin nrTasklets}
    {p j : Nat} (hp : (main host me).Member p) (hj : j < moved) :
    t.memory.bufferB (p + j) =
      if e = (me, .store p) then s.memory.wramCache j else s.memory.bufferB (p + j) := by
  obtain ⟨who, what⟩ := e
  obtain ⟨_, hwhat, rfl⟩ := hstep
  simp only at hwhat
  by_cases hpoint : (s.walks who).point = .store
  · have htarget := (hs who).member_target hpoint
    have haction : what = .store (s.walks who).target := hwhat ▸ action_eq_store.2 ⟨hpoint, rfl⟩
    by_cases hin : (s.walks who).target ≤ p + j ∧ p + j < (s.walks who).target + moved
    · obtain ⟨rfl, rfl⟩ := member_block hp htarget (i := p + j) (by omega) hin
      simp [Crew.advance, access, hpoint, mramWrite, haction, hj]
    · have hother : ¬ ((who, what) = (me, Action.store p)) := by
        rw [haction, Prod.mk.injEq, Action.store.injEq]
        rintro ⟨_, heq⟩
        omega
      rw [if_neg hother]
      simp only [Crew.advance, access, hpoint, mramWrite]
      rw [if_neg hin]
  · have hother : ¬ ((who, what) = (me, Action.store p)) := by
      rw [Prod.mk.injEq, hwhat, action_eq_store]
      exact fun heq => hpoint heq.2.1
    rw [if_neg hother]
    simp only [Crew.advance, access]
    split
    · rfl
    · contradiction
    · rfl

/-- The words that belong to no transfer. -/
def Outside (host : Host) (nrTasklets i : Nat) : Prop :=
  ∀ (me : Fin nrTasklets) (p : Nat), (main host me).Member p → ¬ (p ≤ i ∧ i < p + moved)

theorem bufferB_step_outside (hs : s.Sound (main host)) (hstep : Step host s e t) {i : Nat}
    (hi : Outside host nrTasklets i) : t.memory.bufferB i = s.memory.bufferB i := by
  obtain ⟨_, _, rfl⟩ := hstep
  simp only [Crew.advance, access]
  split
  · rfl
  · rename_i hpoint
    simp only [mramWrite]
    rw [if_neg (hi e.1 _ ((hs e.1).member_target hpoint))]
  · rfl

/-! ### What a launch can leave in the target -/

/-- Block `q` may stand in the cache when `me` writes its block `p`: it is this
block, or another tasklet read it into the cache in between. -/
def MayServe (host : Host) (me : Fin nrTasklets) (p q : Nat) : Prop :=
  q = p ∧ (main host me).Member p ∨ ∃ other ≠ me, (main host other).Member q

theorem MayServe.below {me : Fin nrTasklets} {p q : Nat} (hq : MayServe host me p q) :
    q < host.copyWordsAmount.toNat := by
  obtain ⟨rfl, hp⟩ | ⟨other, _, hq⟩ := hq
  · exact hp.1
  · exact hq.1

/-- Where a block has been stored at least once, its first words are those of a
block that may have served; every other word is as before the launch. -/
structure Serving (host : Host) (m : Memory) (s : Crew (Fin nrTasklets) Memory) : Prop where
  sound : s.Sound (main host)
  source : s.memory.bufferA = m.bufferA
  loaded : ∀ me, (s.walks me).point = .store → ∃ q, MayServe host me (s.walks me).target q ∧
    ∀ j < moved, s.memory.wramCache j = m.bufferA (q + j)
  stored : ∀ me p, (main host me).Member p → 0 < (s.walks me).stores p →
    ∃ q, MayServe host me p q ∧ ∀ j < moved, s.memory.bufferB (p + j) = m.bufferA (q + j)
  waiting : ∀ me p, (main host me).Member p → (s.walks me).stores p = 0 →
    ∀ j < moved, s.memory.bufferB (p + j) = m.bufferB (p + j)
  outside : ∀ i, Outside host nrTasklets i → s.memory.bufferB i = m.bufferB i

theorem serving_start : Serving host m (Crew.start m : Crew (Fin nrTasklets) Memory) where
  sound := sound_crew_start _ m
  source := rfl
  loaded := by simp [Crew.start]
  stored := by simp [Crew.start, Walk.stores, Walk.InPass]
  waiting := fun _ _ _ _ _ _ => rfl
  outside := fun _ _ => rfl

theorem Serving.step (hs : Serving host m s) (hstep : Step host s e t) : Serving host m t := by
  have hstores := fun me p (hp : (main host me).Member p) => hs.sound.stores_step hstep hp
  refine ⟨hs.sound.step hstep, ?_, ?_, ?_, ?_, ?_⟩
  · rw [bufferA_step hstep, hs.source]
  · intro me hme
    obtain ⟨rfl, hpoint, htarget⟩ | ⟨hne, hwalk⟩ := hs.sound.fetched hstep hme
    · -- the tasklet itself has just read its block
      have hmember := (hs.sound e.1).member_source (.inl hpoint)
      refine ⟨(s.walks e.1).source, .inl ⟨htarget.symm, htarget ▸ hmember⟩, ?_⟩
      intro j hj
      rw [wramCache_step hstep hj, if_pos hpoint, hs.source]
    · rw [hwalk] at hme ⊢
      by_cases hpoint : (s.walks e.1).point = .fetch
      · -- another tasklet reads over what was in the cache
        have hmember := (hs.sound e.1).member_source (.inl hpoint)
        refine ⟨(s.walks e.1).source, .inr ⟨e.1, hne, hmember⟩, ?_⟩
        intro j hj
        rw [wramCache_step hstep hj, if_pos hpoint, hs.source]
      · obtain ⟨q, hq, hcache⟩ := hs.loaded me hme
        refine ⟨q, hq, ?_⟩
        intro j hj
        rw [wramCache_step hstep hj, if_neg hpoint, hcache j hj]
  · intro me p hp hstored
    rw [hstores me p hp] at hstored
    by_cases hnow : e = (me, .store p)
    · have haction : (s.walks me).action = .store p := by
        rw [hnow] at hstep
        exact hstep.2.1.symm
      obtain ⟨hpoint, htarget⟩ := action_eq_store.1 haction
      obtain ⟨q, hq, hcache⟩ := hs.loaded me hpoint
      refine ⟨q, htarget ▸ hq, ?_⟩
      intro j hj
      rw [bufferB_step hs.sound hstep hp hj, if_pos hnow, hcache j hj]
    · rw [if_neg hnow, Nat.add_zero] at hstored
      obtain ⟨q, hq, hblock⟩ := hs.stored me p hp hstored
      refine ⟨q, hq, ?_⟩
      intro j hj
      rw [bufferB_step hs.sound hstep hp hj, if_neg hnow, hblock j hj]
  · intro me p hp hwaiting j hj
    rw [hstores me p hp] at hwaiting
    have hnow : ¬ e = (me, .store p) := by
      rintro rfl
      simp at hwaiting
    rw [if_neg hnow, Nat.add_zero] at hwaiting
    rw [bufferB_step hs.sound hstep hp hj, if_neg hnow, hs.waiting me p hp hwaiting j hj]
  · intro i hi
    rw [bufferB_step_outside hs.sound hstep hi, hs.outside i hi]

theorem Serving.run (hs : Serving host m s) (hrun : Run (Step host) s es t) : Serving host m t :=
  hrun.always (Serving host m) (fun _ _ _ hu hstep => hu.step hstep) hs

/-- Behind the last store to a block its words stay as they are. -/
theorem stays_stored {me : Fin nrTasklets} {p j : Nat} (hp : (main host me).Member p)
    (hj : j < moved) (hs : s.Sound (main host))
    (hlast : (s.walks me).stores p = host.runRepetitions.toNat) (hrun : Run (Step host) s es t) :
    t.memory.bufferB (p + j) = s.memory.bufferB (p + j) := by
  have hinv := hrun.always
    (fun u => u.Sound (main host) ∧ (u.walks me).stores p = host.runRepetitions.toNat ∧
      u.memory.bufferB (p + j) = s.memory.bufferB (p + j)) ?_ ⟨hs, hlast, rfl⟩
  · exact hinv.2.2
  · rintro u e v ⟨hu, hstores, hblock⟩ hstep
    have hnext := hu.step hstep
    have hcount := hu.stores_step hstep hp
    have hle : (v.walks me).stores p ≤ host.runRepetitions.toNat := (hnext me).stores_le p
    have hnow : ¬ e = (me, .store p) := by
      rintro heq
      rw [if_pos heq] at hcount
      omega
    rw [if_neg hnow, Nat.add_zero] at hcount
    refine ⟨hnext, hcount.trans hstores, ?_⟩
    rw [bufferB_step hu hstep hp hj, if_neg hnow, hblock]

/-- Any other tasklet's block can end up in a block: its owner has read it for
the last time, the other reads its own into the cache, and the owner writes. -/
theorem exists_crossed {me other : Fin nrTasklets} (hne : other ≠ me) {p q : Nat}
    (hp : (main host me).Member p) (hq : (main host other).Member q)
    (hr : 0 < host.runRepetitions.toNat) :
    ∃ (es : List (Fin nrTasklets × Action)) (s : Crew (Fin nrTasklets) Memory),
      Run (Step host) (Crew.start m) es s ∧ s.Finished ∧
        ∀ j < moved, s.memory.bufferB (p + j) = m.bufferA (q + j) := by
  obtain ⟨hpn, k, hk⟩ := hp
  obtain ⟨hqn, k', hk'⟩ := hq
  have hrep : (main host me).repetitions = host.runRepetitions.toNat := rfl
  -- the owner alone, up to its last store to the block
  have hread : Relation.ReflTransGen (main host me).Moves {}
      ((main host me).beforeFetch (host.runRepetitions.toNat - 1) k) :=
    moves_beforeFetch (by omega) (by omega)
  have hwrite : Relation.ReflTransGen (main host me).Moves ((Crew.start m).walks me)
      ((main host me).beforeStore (host.runRepetitions.toNat - 1) k) :=
    hread.tail (moves_beforeStore _ k)
  obtain ⟨es₁, s₁, hrun₁, hwalks₁⟩ := exists_solo access hwrite
  -- then the other, up to its first fetch of its block
  have hother : (s₁.walks other) = {} := by
    rw [hwalks₁, Function.update_of_ne hne]
    rfl
  have hread' : Relation.ReflTransGen (main host other).Moves (s₁.walks other)
      ((main host other).beforeFetch 0 k') := by
    rw [hother]
    exact moves_beforeFetch hr (by omega)
  obtain ⟨es₂, s₂, hrun₂, hwalks₂⟩ := exists_solo access hread'
  have hrun := run_append_iff.2 ⟨s₁, hrun₁, hrun₂⟩
  have hserving := (serving_start (m := m)).run hrun
  have hatother : s₂.walks other = (main host other).beforeFetch 0 k' := by
    rw [hwalks₂, Function.update_self]
  have hatme : s₂.walks me = (main host me).beforeStore (host.runRepetitions.toNat - 1) k := by
    rw [hwalks₂, Function.update_of_ne (Ne.symm hne), hwalks₁, Function.update_self]
  -- that fetch
  let s₃ := s₂.advance (main host) access other
  have hfetch : Step host s₂ (other, (s₂.walks other).action) s₃ :=
    ⟨by simp [hatother, Lane.beforeFetch], rfl, rfl⟩
  have hcache : ∀ j < moved, s₃.memory.wramCache j = m.bufferA (q + j) := by
    intro j hj
    have hpoint : ((main host other).beforeFetch 0 k').point = .fetch := rfl
    rw [wramCache_step hfetch hj, hatother, if_pos hpoint, hserving.source, hk']
    rfl
  have hsound₃ := hserving.sound.step hfetch
  have hatme₃ : s₃.walks me = (main host me).beforeStore (host.runRepetitions.toNat - 1) k := by
    rw [← hatme]
    simp [s₃, Crew.advance, Ne.symm hne]
  -- the owner's last store
  have hmember : (main host me).Member p := ⟨hpn, k, hk⟩
  have haction : (s₃.walks me).action = .store p := by
    rw [hatme₃, hk]
    rfl
  let s₄ := s₃.advance (main host) access me
  have hstore : Step host s₃ (me, .store p) s₄ :=
    ⟨by simp [hatme₃, Lane.beforeStore], haction.symm, rfl⟩
  have hlast : (s₄.walks me).stores p = host.runRepetitions.toNat := by
    have hbefore : (s₃.walks me).stores p = host.runRepetitions.toNat - 1 := by
      rw [hatme₃, hk]
      simp [Walk.stores, Lane.beforeStore, Lane.beforeFetch]
    rw [hsound₃.stores_step hstore hmember, hbefore, if_pos rfl]
    omega
  -- and all go on to the end
  have hsound₄ := hsound₃.step hstore
  obtain ⟨es₅, s₅, hrun₅, hdone⟩ := hsound₄.exists_finished access
  refine ⟨_, s₅, run_append_iff.2 ⟨s₂, hrun, .cons hfetch (.cons hstore hrun₅)⟩, hdone, ?_⟩
  intro j hj
  rw [stays_stored hmember hj hsound₄ hlast hrun₅, bufferB_step hsound₃ hstore hmember hj,
    if_pos rfl, hcache j hj]

/-! ### A launch -/

/-- The amount is a number of whole blocks. -/
theorem block_inside (hblocks : maxBlocksize ∣ host.copyWordsAmount.toNat) {k j : Nat}
    (hk : k * maxBlocksize < host.copyWordsAmount.toNat) (hj : j < maxBlocksize) :
    k * maxBlocksize + j < host.copyWordsAmount.toNat := by
  obtain ⟨blocks, hblocks⟩ := hblocks
  rw [hblocks, Nat.mul_comm k] at hk
  have hlt : k + 1 ≤ blocks := Nat.lt_of_mul_lt_mul_left hk
  have hle := Nat.mul_le_mul_right maxBlocksize hlt
  rw [Nat.succ_mul, Nat.mul_comm blocks, ← hblocks] at hle
  omega

theorem moved_le : moved ≤ maxBlocksize := by decide

/-- Every transfer of a launch is inside the buffers. -/
theorem transfers_inside (hblocks : maxBlocksize ∣ host.copyWordsAmount.toNat)
    (hn : host.copyWordsAmount.toNat ≤ mramBufferDwords)
    (hrun : Run (Step host) (Crew.start m) es s) (he : e ∈ es) {p : Nat}
    (haction : e.2 = .fetch p ∨ e.2 = .store p) {j : Nat} (hj : j < moved) :
    p + j < mramBufferDwords := by
  obtain ⟨k, rfl, hp, _⟩ := member_main.1 (member_of_access hrun he haction)
  have hinside := block_inside hblocks hp (Nat.lt_of_lt_of_le hj moved_le)
  omega

/-- In every order of the tasklets' steps a finished launch has copied the first
`copy_words_amount` words and nothing else. -/
def CopiesAll (nrTasklets : Nat) (host : Host) (m : Memory) : Prop :=
  ∀ (es : List (Fin nrTasklets × Action)) (s : Crew (Fin nrTasklets) Memory),
    Run (Step host) (Crew.start m) es s → s.Finished →
      (∀ i < host.copyWordsAmount.toNat, s.memory.bufferB i = m.bufferA i) ∧
        ∀ i ≥ host.copyWordsAmount.toNat, s.memory.bufferB i = m.bufferB i

/-- Three words of four are in no transfer. -/
theorem outside_of_le_mod {i : Nat} (hi : moved ≤ i % maxBlocksize) :
    Outside host nrTasklets i := by
  intro me p hp hin
  obtain ⟨k, rfl, _, _⟩ := member_main.1 hp
  simp only [moved, wordsOf, maxBlocksize] at hi hin
  omega

/-- No transfer goes beyond the amount. -/
theorem outside_of_ge (hblocks : maxBlocksize ∣ host.copyWordsAmount.toNat) {i : Nat}
    (hi : host.copyWordsAmount.toNat ≤ i) : Outside host nrTasklets i := by
  intro me p hp hin
  obtain ⟨k, rfl, hk, _⟩ := member_main.1 hp
  have hj : i - k * maxBlocksize < maxBlocksize := by
    have hle := moved_le
    omega
  have hinside := block_inside hblocks hk hj
  omega

theorem member_of_block (hT : 0 < nrTasklets) {k : Nat}
    (hk : k * maxBlocksize < host.copyWordsAmount.toNat) :
    (main host (⟨k % nrTasklets, Nat.mod_lt k hT⟩ : Fin nrTasklets)).Member (k * maxBlocksize) :=
  member_main.2 ⟨k, rfl, hk, rfl⟩

/-- A finished launch has filled the beginning of each block, from a block that
may have served. -/
theorem Serving.block (hs : Serving host m s) (hT : 0 < nrTasklets)
    (hr : 0 < host.runRepetitions.toNat) (hdone : s.Finished) {k : Nat}
    (hk : k * maxBlocksize < host.copyWordsAmount.toNat) :
    ∃ k', k' * maxBlocksize < host.copyWordsAmount.toNat ∧
      (k' = k ∨ k % nrTasklets ≠ k' % nrTasklets) ∧
      ∀ j < moved, s.memory.bufferB (k * maxBlocksize + j) = m.bufferA (k' * maxBlocksize + j) := by
  let owner : Fin nrTasklets := ⟨k % nrTasklets, Nat.mod_lt k hT⟩
  have hstores : (s.walks owner).stores (k * maxBlocksize) = host.runRepetitions.toNat :=
    (hs.sound owner).stores_finished (hdone owner) _
  obtain ⟨q, hq, hblock⟩ := hs.stored owner _ (member_of_block hT hk) (hstores ▸ hr)
  obtain ⟨rfl, _⟩ | ⟨other, hne, hother⟩ := hq
  · exact ⟨k, hk, .inl rfl, hblock⟩
  · obtain ⟨k', rfl, hk', hmod⟩ := member_main.1 hother
    refine ⟨k', hk', .inr ?_, hblock⟩
    rintro heq
    exact hne (Fin.ext (hmod.trans heq.symm))

/-- The kernel copies what it is asked to only where there was nothing to copy in
the last three quarters of each block, and where the blocks of different tasklets
begin with the same words. -/
theorem copiesAll_iff (hT : 0 < nrTasklets) (hblocks : maxBlocksize ∣ host.copyWordsAmount.toNat)
    (hr : 0 < host.runRepetitions.toNat) :
    CopiesAll nrTasklets host m ↔
      (∀ i < host.copyWordsAmount.toNat, moved ≤ i % maxBlocksize → m.bufferB i = m.bufferA i) ∧
        ∀ k k', k * maxBlocksize < host.copyWordsAmount.toNat →
          k' * maxBlocksize < host.copyWordsAmount.toNat → k % nrTasklets ≠ k' % nrTasklets →
          ∀ j < moved, m.bufferA (k * maxBlocksize + j) = m.bufferA (k' * maxBlocksize + j) := by
  constructor
  · intro hcopies
    refine ⟨?_, ?_⟩
    · intro i hi hmod
      let lanes : Fin nrTasklets → Lane := main host
      obtain ⟨es, s, hrun, hdone⟩ := (sound_crew_start lanes m).exists_finished access
      rw [← (hcopies es s hrun hdone).1 i hi]
      exact ((serving_start.run hrun).outside i (outside_of_le_mod hmod)).symm
    · intro k k' hk hk' hne j hj
      obtain ⟨es, s, hrun, hdone, hcrossed⟩ := exists_crossed (m := m)
        (fun heq => hne (Fin.val_eq_of_eq heq).symm) (member_of_block hT hk)
        (member_of_block hT hk') hr
      have hinside := block_inside hblocks hk (Nat.lt_of_lt_of_le hj moved_le)
      rw [← hcrossed j hj]
      exact ((hcopies es s hrun hdone).1 _ hinside).symm
  · rintro ⟨hsame, hagree⟩ es s hrun hdone
    have hserving := (serving_start (m := m)).run hrun
    refine ⟨?_, fun i hi => hserving.outside i (outside_of_ge hblocks hi)⟩
    intro i hi
    by_cases hmod : moved ≤ i % maxBlocksize
    · rw [hserving.outside i (outside_of_le_mod hmod), hsame i hi hmod]
    · have hj : i % maxBlocksize < moved := Nat.lt_of_not_le hmod
      have hsplit : i = i / maxBlocksize * maxBlocksize + i % maxBlocksize :=
        (Nat.div_add_mod' i maxBlocksize).symm
      have hk : i / maxBlocksize * maxBlocksize < host.copyWordsAmount.toNat := by omega
      obtain ⟨k', hk', howner, hblock⟩ := hserving.block hT hr hdone hk
      rw [hsplit, hblock _ hj]
      obtain rfl | hne := howner
      · rfl
      · exact (hagree _ k' hk hk' hne _ hj).symm

/-- Two blocks and two tasklets, all words of both buffers alike. -/
theorem copiesAll_alike :
    CopiesAll 2 { runRepetitions := 1, copyWordsAmount := 128 }
      { wramCache := fun _ => 0, bufferA := fun _ => 7, bufferB := fun _ => 7 } :=
  (copiesAll_iff (by decide) (by decide) (by decide)).2
    ⟨fun _ _ _ => rfl, fun _ _ _ _ _ _ _ => rfl⟩

/-- One tasklet and one block: the word behind the first sixteen is not copied. -/
theorem block_left_behind :
    ¬ CopiesAll 1 { runRepetitions := 1, copyWordsAmount := 64 }
      { wramCache := fun _ => 0, bufferA := fun _ => 7, bufferB := fun _ => 0 } := by
  let host : Host := { runRepetitions := 1, copyWordsAmount := 64 }
  let m : Memory := { wramCache := fun _ => 0, bufferA := fun _ => 7, bufferB := fun _ => 0 }
  intro hcopies
  let lanes : Fin 1 → Lane := main host
  obtain ⟨es, s, hrun, hdone⟩ := (sound_crew_start lanes m).exists_finished access
  have hcopied : s.memory.bufferB 16 = 7 := (hcopies es s hrun hdone).1 16 (by decide)
  have hkept : s.memory.bufferB 16 = 0 :=
    (serving_start.run hrun).outside 16 (outside_of_le_mod (by decide))
  rw [hkept] at hcopied
  exact absurd hcopied (by decide)

end NdpOffload.Memspeed.MramCopy
