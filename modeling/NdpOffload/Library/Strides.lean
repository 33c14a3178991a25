import Mathlib.Data.Fintype.Basic
import Mathlib.Logic.Function.Basic
import Mathlib.Logic.Relation
import NdpOffload.Library.Runs

/-! Workers that walk over a shared memory in strides, pass after pass.  A
worker's control flow does not depend on the memory, so the positions it visits
and how often it visits them are the same in every interleaving. -/
namespace NdpOffload.Library.Strides
open NdpOffload.Library.Runs

/-- The loops
`for (rep = 0; rep < repetitions; rep++)
   for (source = target = first; source < bound; source += stride, target += stride)
     { fetch(source); store(target); }`. -/
structure Lane where
  first : Nat
  stride : Nat
  bound : Nat
  repetitions : Nat
  stride_pos : 0 < stride

/-- Where a worker is in its loops: before a guard, before a fetch or a store, at the end. -/
inductive Point where
  | outer
  | inner
  | fetch
  | store
  | finished
deriving DecidableEq, Repr

structure Walk where
  rep : Nat := 0
  source : Nat := 0
  target : Nat := 0
  point : Point := .outer
deriving DecidableEq, Repr

def Lane.next (l : Lane) (w : Walk) : Walk :=
  match w.point with
  | .outer =>
    if w.rep < l.repetitions then { w with source := l.first, target := l.first, point := .inner }
    else { w with point := .finished }
  | .inner =>
    if w.source < l.bound then { w with point := .fetch }
    else { w with rep := w.rep + 1, point := .outer }
  | .fetch => { w with point := .store }
  | .store =>
    { w with source := w.source + l.stride, target := w.target + l.stride, point := .inner }
  | .finished => w

/-- The positions of a lane. -/
def Lane.Member (l : Lane) (i : Nat) : Prop :=
  i < l.bound ∧ ∃ k, i = l.first + k * l.stride

/-- Inside a pass, that is in the inner loop. -/
def Walk.InPass (w : Walk) : Prop :=
  w.point = .inner ∨ w.point = .fetch ∨ w.point = .store

instance (w : Walk) : Decidable w.InPass :=
  inferInstanceAs (Decidable (_ ∨ _ ∨ _))

structure Lane.Sound (l : Lane) (w : Walk) : Prop where
  rep_le : w.rep ≤ l.repetitions
  rep_lt : w.InPass → w.rep < l.repetitions
  target_eq : w.InPass → w.target = w.source
  on_lane : w.InPass → ∃ k, w.source = l.first + k * l.stride
  bounded : w.point = .fetch ∨ w.point = .store → w.source < l.bound
  done : w.point = .finished → w.rep = l.repetitions

/-- How many stores to position `i` of its lane a worker has behind it. -/
def Walk.stores (w : Walk) (i : Nat) : Nat :=
  w.rep + if w.InPass ∧ i < w.target then 1 else 0

section Lane

variable {l : Lane} {w : Walk}

theorem sound_start : l.Sound {} where
  rep_le := Nat.zero_le _
  rep_lt := by simp [Walk.InPass]
  target_eq := by simp [Walk.InPass]
  on_lane := by simp [Walk.InPass]
  bounded := by simp
  done := by simp

theorem Lane.Sound.next (hw : l.Sound w) : l.Sound (l.next w) := by
  have hrep := hw.rep_le
  cases hpoint : w.point with
  | outer =>
    by_cases hlt : w.rep < l.repetitions
    · simp only [Lane.next, hpoint, if_pos hlt]
      exact ⟨hrep, fun _ => hlt, fun _ => rfl, fun _ => ⟨0, by simp⟩, by simp, by simp⟩
    · simp only [Lane.next, hpoint, if_neg hlt]
      refine ⟨hrep, ?_, ?_, ?_, by simp, fun _ => ?_⟩
      · simp [Walk.InPass]
      · simp [Walk.InPass]
      · simp [Walk.InPass]
      · show w.rep = l.repetitions
        omega
  | inner =>
    have hinside : w.InPass := .inl hpoint
    by_cases hlt : w.source < l.bound
    · simp only [Lane.next, hpoint, if_pos hlt]
      exact ⟨hrep, fun _ => hw.rep_lt hinside, fun _ => hw.target_eq hinside,
        fun _ => hw.on_lane hinside, fun _ => hlt, by simp⟩
    · simp only [Lane.next, hpoint, if_neg hlt]
      refine ⟨hw.rep_lt hinside, ?_, ?_, ?_, by simp, by simp⟩
      · simp [Walk.InPass]
      · simp [Walk.InPass]
      · simp [Walk.InPass]
  | fetch =>
    have hinside : w.InPass := .inr (.inl hpoint)
    simp only [Lane.next, hpoint]
    exact ⟨hrep, fun _ => hw.rep_lt hinside, fun _ => hw.target_eq hinside,
      fun _ => hw.on_lane hinside, fun _ => hw.bounded (.inl hpoint), by simp⟩
  | store =>
    have hinside : w.InPass := .inr (.inr hpoint)
    obtain ⟨k, hk⟩ := hw.on_lane hinside
    simp only [Lane.next, hpoint]
    refine ⟨hrep, fun _ => hw.rep_lt hinside, fun _ => ?_, fun _ => ⟨k + 1, ?_⟩, by simp, by simp⟩
    · simp only [hw.target_eq hinside]
    · simp only [hk]
      rw [Nat.succ_mul, Nat.add_assoc]
  | finished => simpa only [Lane.next, hpoint] using hw

/-- Fetches and stores are at positions of the lane. -/
theorem Lane.Sound.member_source (hw : l.Sound w)
    (hpoint : w.point = .fetch ∨ w.point = .store) : l.Member w.source :=
  ⟨hw.bounded hpoint, hw.on_lane (.inr hpoint)⟩

theorem Lane.Sound.member_target (hw : l.Sound w) (hpoint : w.point = .store) :
    l.Member w.target := by
  rw [hw.target_eq (.inr (.inr hpoint))]
  exact hw.member_source (.inr hpoint)

theorem Lane.Sound.stores_le (hw : l.Sound w) (i : Nat) : w.stores i ≤ l.repetitions := by
  unfold Walk.stores
  split
  · rename_i hinside
    exact hw.rep_lt hinside.1
  · exact hw.rep_le

theorem Lane.Sound.stores_finished (hw : l.Sound w) (hpoint : w.point = .finished) (i : Nat) :
    w.stores i = l.repetitions := by
  unfold Walk.stores
  rw [if_neg, hw.done hpoint, Nat.add_zero]
  simp [Walk.InPass, hpoint]

/-- Two positions of one lane are a stride apart. -/
private theorem member_between {i k : Nat} (hi : l.Member i)
    (hlow : l.first + k * l.stride ≤ i) (hhigh : i < l.first + k * l.stride + l.stride) :
    i = l.first + k * l.stride := by
  obtain ⟨_, m, rfl⟩ := hi
  have hkm : k * l.stride ≤ m * l.stride := by omega
  have hmk : m * l.stride < (k + 1) * l.stride := by
    rw [Nat.succ_mul]
    omega
  have hle := Nat.le_of_mul_le_mul_right hkm l.stride_pos
  have hlt := Nat.lt_of_mul_lt_mul_right hmk
  have heq : m = k := by omega
  rw [heq]

/-- One step adds one store at the position that it stores to, and none elsewhere. -/
theorem Lane.Sound.stores_next (hw : l.Sound w) {i : Nat} (hi : l.Member i) :
    (l.next w).stores i = w.stores i + if w.point = .store ∧ w.target = i then 1 else 0 := by
  have hfirst : l.first ≤ i := by
    obtain ⟨_, k, rfl⟩ := hi
    omega
  have hbound := hi.1
  cases hpoint : w.point with
  | outer =>
    by_cases hlt : w.rep < l.repetitions
    · simp [Walk.stores, Walk.InPass, Lane.next, hpoint, hlt, hfirst]
    · simp [Walk.stores, Walk.InPass, Lane.next, hpoint, hlt]
  | inner =>
    have htarget := hw.target_eq (.inl hpoint)
    by_cases hlt : w.source < l.bound
    · simp [Walk.stores, Walk.InPass, Lane.next, hpoint, hlt]
    · have hpassed : i < w.target := by omega
      simp [Walk.stores, Walk.InPass, Lane.next, hpoint, hlt, hpassed]
  | fetch => simp [Walk.stores, Walk.InPass, Lane.next, hpoint]
  | store =>
    have hinside : w.InPass := .inr (.inr hpoint)
    have htarget := hw.target_eq hinside
    obtain ⟨k, hk⟩ := hw.on_lane hinside
    have hpassed : i < w.target + l.stride ↔ i < w.target ∨ w.target = i := by
      have hpos := l.stride_pos
      constructor
      · intro hlt
        by_cases hlow : i < w.target
        · exact .inl hlow
        · have heq := member_between (k := k) hi (by omega) (by omega)
          exact .inr (by omega)
      · omega
    by_cases heq : w.target = i
    · simp [Walk.stores, Walk.InPass, Lane.next, hpoint, heq, l.stride_pos]
    · simp [Walk.stores, Walk.InPass, Lane.next, hpoint, hpassed, heq]
  | finished => simp [Lane.next, hpoint]

/-- Before a store there is always the fetch of the same position. -/
theorem next_point_store : (l.next w).point = .store ↔ w.point = .fetch := by
  cases hpoint : w.point with
  | outer =>
    by_cases hlt : w.rep < l.repetitions
    · simp [Lane.next, hpoint, hlt]
    · simp [Lane.next, hpoint, hlt]
  | inner =>
    by_cases hlt : w.source < l.bound
    · simp [Lane.next, hpoint, hlt]
    · simp [Lane.next, hpoint, hlt]
  | fetch => simp [Lane.next, hpoint]
  | store => simp [Lane.next, hpoint]
  | finished => simp [Lane.next, hpoint]

theorem Lane.Sound.next_target (hw : l.Sound w) (hpoint : w.point = .fetch) :
    (l.next w).target = w.source := by
  simp [Lane.next, hpoint, hw.target_eq (.inr (.inl hpoint))]

/-! ### Where a walk gets to -/

/-- One step of a worker that is not at the end. -/
def Lane.Moves (l : Lane) (w v : Walk) : Prop :=
  w.point ≠ .finished ∧ v = l.next w

theorem Lane.moves_next (hpoint : w.point ≠ .finished) : l.Moves w (l.next w) :=
  ⟨hpoint, rfl⟩

/-- An upper bound of the steps that a walk has before it. -/
private def Lane.remaining (l : Lane) (w : Walk) : Nat :=
  let pass := 3 * l.bound + 3
  let later := (l.repetitions - w.rep - 1) * pass
  match w.point with
  | .outer => (l.repetitions - w.rep) * pass + 1
  | .inner => later + 3 * (l.bound - w.source) + 2
  | .fetch => later + 3 * (l.bound - w.source) + 1
  | .store => later + 3 * (l.bound - w.source)
  | .finished => 0

private theorem remaining_next (hw : l.Sound w) (hpoint : w.point ≠ .finished) :
    l.remaining (l.next w) < l.remaining w := by
  have hstride := l.stride_pos
  have hpass : ∀ k : Nat, 0 < k → k * (3 * l.bound + 3) = (k - 1) * (3 * l.bound + 3) + (3 * l.bound + 3) := by
    intro k hk
    rw [← Nat.succ_mul, Nat.succ_eq_add_one, Nat.sub_add_cancel hk]
  cases hat : w.point with
  | outer =>
    by_cases hlt : w.rep < l.repetitions
    · have hsplit := hpass (l.repetitions - w.rep) (by omega)
      simp only [Lane.remaining, Lane.next, hat, if_pos hlt]
      omega
    · simp [Lane.remaining, Lane.next, hat, if_neg hlt]
  | inner =>
    have hlt := hw.rep_lt (.inl hat)
    by_cases hsource : w.source < l.bound
    · simp only [Lane.remaining, Lane.next, hat, if_pos hsource]
      omega
    · simp only [Lane.remaining, Lane.next, hat, if_neg hsource, Nat.sub_sub]
      omega
  | fetch =>
    simp only [Lane.remaining, Lane.next, hat]
    omega
  | store =>
    have hsource := hw.bounded (.inr hat)
    simp only [Lane.remaining, Lane.next, hat]
    omega
  | finished => exact absurd hat hpoint

theorem sound_moves {v : Walk} (hw : l.Sound w) (hmoves : Relation.ReflTransGen l.Moves w v) :
    l.Sound v := by
  induction hmoves with
  | refl => exact hw
  | tail _ hstep ih =>
    rw [hstep.2]
    exact ih.next

/-- Every walk comes to its end. -/
theorem exists_finished (hw : l.Sound w) :
    ∃ v, Relation.ReflTransGen l.Moves w v ∧ v.point = .finished := by
  induction hsteps : l.remaining w using Nat.strongRecOn generalizing w with
  | ind n ih =>
    by_cases hpoint : w.point = .finished
    · exact ⟨w, .refl, hpoint⟩
    · have hless := remaining_next hw hpoint
      obtain ⟨v, hmoves, hdone⟩ := ih _ (hsteps ▸ hless) hw.next rfl
      exact ⟨v, .head (Lane.moves_next hpoint) hmoves, hdone⟩

/-- The state before fetch `k` of pass `rep`. -/
def Lane.beforeFetch (l : Lane) (rep k : Nat) : Walk :=
  { rep, source := l.first + k * l.stride, target := l.first + k * l.stride, point := .fetch }

def Lane.beforeStore (l : Lane) (rep k : Nat) : Walk :=
  { l.beforeFetch rep k with point := .store }

theorem moves_beforeStore (rep k : Nat) :
    l.Moves (l.beforeFetch rep k) (l.beforeStore rep k) :=
  ⟨by simp [Lane.beforeFetch], rfl⟩

/-- Once in a pass, a walk gets to each position of its lane in that pass. -/
private theorem moves_within {rep k : Nat} (hw : w.rep = rep ∧ w.source = l.first ∧
    w.target = l.first ∧ w.point = .inner) (hk : l.first + k * l.stride < l.bound) :
    Relation.ReflTransGen l.Moves w (l.beforeFetch rep k) := by
  induction k with
  | zero =>
    obtain ⟨hrep, hsource, htarget, hpoint⟩ := hw
    refine .single ⟨by simp [hpoint], ?_⟩
    have hlt : l.first < l.bound := by omega
    simp [Lane.beforeFetch, Lane.next, hpoint, hlt, hrep, hsource, htarget]
  | succ k ih =>
    have hstride : l.first + (k + 1) * l.stride = l.first + k * l.stride + l.stride := by
      rw [Nat.succ_mul, Nat.add_assoc]
    have hbefore := ih (by omega)
    have hstored := (hbefore.tail (moves_beforeStore rep k)).tail
      (Lane.moves_next (by simp [Lane.beforeStore]))
    refine hstored.tail ⟨by simp [Lane.beforeStore, Lane.beforeFetch, Lane.next], ?_⟩
    simp [Lane.beforeStore, Lane.beforeFetch, Lane.next, ← hstride, hk]

/-- Every pass comes to its end. -/
private theorem moves_pass_end (hw : l.Sound w) (hinside : w.InPass) :
    ∃ v, Relation.ReflTransGen l.Moves w v ∧ v.rep = w.rep + 1 ∧ v.point = .outer := by
  induction hsteps : l.remaining w using Nat.strongRecOn generalizing w with
  | ind n ih =>
    have hpoint : w.point ≠ .finished := by
      rintro hfinished
      simp [Walk.InPass, hfinished] at hinside
    have hless := remaining_next hw hpoint
    have hmove := Lane.moves_next (l := l) hpoint
    by_cases hleave : w.point = .inner ∧ ¬ w.source < l.bound
    · refine ⟨l.next w, .single hmove, ?_, ?_⟩
      · simp [Lane.next, hleave.1, hleave.2]
      · simp [Lane.next, hleave.1, hleave.2]
    · have hstay : (l.next w).InPass ∧ (l.next w).rep = w.rep := by
        obtain hat | hat | hat := hinside
        · have hlt : w.source < l.bound := by
            by_contra hge
            exact hleave ⟨hat, hge⟩
          simp [Lane.next, Walk.InPass, hat, hlt]
        · simp [Lane.next, Walk.InPass, hat]
        · simp [Lane.next, Walk.InPass, hat]
      obtain ⟨v, hmoves, hrep, hv⟩ := ih _ (hsteps ▸ hless) hw.next hstay.1 rfl
      exact ⟨v, .head hmove hmoves, by rw [hrep, hstay.2], hv⟩

private theorem moves_outer {rep : Nat} (hrep : rep ≤ l.repetitions) :
    ∃ v, Relation.ReflTransGen l.Moves {} v ∧ v.rep = rep ∧ v.point = .outer := by
  induction rep with
  | zero => exact ⟨{}, .refl, rfl, rfl⟩
  | succ rep ih =>
    obtain ⟨w, hmoves, hw, hpoint⟩ := ih (by omega)
    have hlt : rep < l.repetitions := hrep
    have hentered := hmoves.tail (Lane.moves_next (by simp [hpoint]))
    have hinside : (l.next w).InPass ∧ (l.next w).rep = rep := by
      simp [Lane.next, Walk.InPass, hpoint, hw, hlt]
    obtain ⟨v, hpass, hrep', hv⟩ := moves_pass_end (sound_moves sound_start hentered) hinside.1
    exact ⟨v, hentered.trans hpass, by rw [hrep', hinside.2], hv⟩

/-- A walk gets to each position of its lane in each of its passes. -/
theorem moves_beforeFetch {rep k : Nat} (hrep : rep < l.repetitions)
    (hk : l.first + k * l.stride < l.bound) :
    Relation.ReflTransGen l.Moves {} (l.beforeFetch rep k) := by
  obtain ⟨v, hmoves, hv, hpoint⟩ := moves_outer (Nat.le_of_lt hrep)
  have hentered := hmoves.tail (Lane.moves_next (by simp [hpoint]))
  refine hentered.trans (moves_within ?_ hk)
  simp [Lane.next, hpoint, hv, hrep]

end Lane

/-! ### Crews

A crew shares a memory.  A step is one step of one worker, so an interleaving is
a run, and every order of the steps of different workers is one. -/

/-- What a worker does in a step. -/
inductive Action where
  | quiet
  | fetch (i : Nat)
  | store (i : Nat)
deriving DecidableEq, Repr

def Walk.action (w : Walk) : Action :=
  match w.point with
  | .fetch => .fetch w.source
  | .store => .store w.target
  | _ => .quiet

theorem action_eq_fetch {w : Walk} {i : Nat} :
    w.action = .fetch i ↔ w.point = .fetch ∧ w.source = i := by
  unfold Walk.action
  cases w.point <;> simp

theorem action_eq_store {w : Walk} {i : Nat} :
    w.action = .store i ↔ w.point = .store ∧ w.target = i := by
  unfold Walk.action
  cases w.point <;> simp

structure Crew (ι M : Type*) where
  walks : ι → Walk
  memory : M

section Crew

variable {ι M : Type*} [DecidableEq ι] (lane : ι → Lane) (effect : ι → Walk → M → M)

def Crew.start (memory : M) : Crew ι M where
  walks := fun _ => {}
  memory := memory

def Crew.advance (me : ι) (s : Crew ι M) : Crew ι M where
  walks := Function.update s.walks me ((lane me).next (s.walks me))
  memory := effect me (s.walks me) s.memory

def Crew.Step (s : Crew ι M) (e : ι × Action) (t : Crew ι M) : Prop :=
  (s.walks e.1).point ≠ .finished ∧ e.2 = (s.walks e.1).action ∧ t = s.advance lane effect e.1

def Crew.Finished (s : Crew ι M) : Prop :=
  ∀ me, (s.walks me).point = .finished

def Crew.Sound (s : Crew ι M) : Prop :=
  ∀ me, (lane me).Sound (s.walks me)

variable {lane effect} {s t : Crew ι M} {e : ι × Action} {es : List (ι × Action)}

omit [DecidableEq ι] in
theorem sound_crew_start (lane : ι → Lane) (memory : M) : (Crew.start memory : Crew ι M).Sound lane :=
  fun _ => sound_start

theorem Crew.Sound.step (hs : s.Sound lane) (hstep : s.Step lane effect e t) : t.Sound lane := by
  obtain ⟨_, _, rfl⟩ := hstep
  intro me
  by_cases heq : me = e.1
  · subst heq
    simpa [Crew.advance] using (hs e.1).next
  · simpa [Crew.advance, heq] using hs me

theorem Crew.Sound.run (hs : s.Sound lane) (hrun : Run (Crew.Step lane effect) s es t) :
    t.Sound lane :=
  hrun.always (Crew.Sound lane) (fun _ _ _ hu hstep => hu.step hstep) hs

/-- A worker stands before a store only after its fetch. -/
theorem Crew.Sound.fetched (hs : s.Sound lane) (hstep : s.Step lane effect e t) {me : ι}
    (hme : (t.walks me).point = .store) :
    (e.1 = me ∧ (s.walks me).point = .fetch ∧ (t.walks me).target = (s.walks me).source) ∨
      (e.1 ≠ me ∧ t.walks me = s.walks me) := by
  obtain ⟨_, _, rfl⟩ := hstep
  by_cases heq : e.1 = me
  · subst heq
    simp only [Crew.advance, Function.update_self] at hme ⊢
    have hpoint := next_point_store.1 hme
    exact .inl ⟨trivial, hpoint, (hs e.1).next_target hpoint⟩
  · exact .inr ⟨heq, by simp [Crew.advance, Ne.symm heq]⟩

/-- The stores of a step are those that the walks count. -/
theorem Crew.Sound.stores_step (hs : s.Sound lane) (hstep : s.Step lane effect e t) {me : ι}
    {i : Nat} (hi : (lane me).Member i) :
    (t.walks me).stores i = (s.walks me).stores i + if e = (me, .store i) then 1 else 0 := by
  obtain ⟨who, what⟩ := e
  obtain ⟨_, hwhat, rfl⟩ := hstep
  simp only at hwhat
  by_cases heq : me = who
  · subst heq
    have hcount := (hs me).stores_next hi
    simp only [Crew.advance, Function.update_self, hcount, Prod.mk.injEq, true_and, hwhat,
      action_eq_store]
  · simp [Crew.advance, heq, Ne.symm heq]

/-- In every interleaving a worker stores to the positions of its lane, as often
as its walk says, and to no other. -/
theorem count_stores (memory : M) (hrun : Run (Crew.Step lane effect) (Crew.start memory) es t)
    (me : ι) (i : Nat) :
    ((lane me).Member i → es.count (me, .store i) = (t.walks me).stores i) ∧
      (¬ (lane me).Member i → es.count (me, .store i) = 0) := by
  have hinv := hrun.history_start
    (fun past s => s.Sound lane ∧
      ((lane me).Member i → past.count (me, .store i) = (s.walks me).stores i) ∧
        (¬ (lane me).Member i → past.count (me, .store i) = 0)) ?_ ?_
  · exact hinv.2
  · rintro past s e u ⟨hs, hmember, hother⟩ hstep
    refine ⟨hs.step hstep, fun hi => ?_, fun hi => ?_⟩
    · rw [List.count_append, hmember hi, List.count_singleton, hs.stores_step hstep hi]
      simp only [beq_iff_eq]
    · rw [List.count_append, hother hi, List.count_singleton, Nat.zero_add, if_neg]
      intro heq
      have heq := eq_of_beq heq
      subst heq
      obtain ⟨_, haction, _⟩ := hstep
      -- the position of a store is on the lane
      obtain ⟨hpoint, htarget⟩ := action_eq_store.1 haction.symm
      exact hi (htarget ▸ (hs me).member_target hpoint)
  · exact ⟨sound_crew_start lane memory, by simp [Crew.start, Walk.stores, Walk.InPass], by simp⟩

/-- Every fetch and every store of a run is at a position of its worker's lane. -/
theorem member_of_access {memory : M}
    (hrun : Run (Crew.Step lane effect) (Crew.start memory) es t) (he : e ∈ es) {i : Nat}
    (haction : e.2 = .fetch i ∨ e.2 = .store i) : (lane e.1).Member i := by
  have hinv := hrun.history_start
    (fun past s => s.Sound lane ∧
      ∀ e ∈ past, ∀ i, e.2 = .fetch i ∨ e.2 = .store i → (lane e.1).Member i)
    ?_ ⟨sound_crew_start lane memory, by simp⟩
  · exact hinv.2 e he i haction
  · rintro past s f u ⟨hs, hpast⟩ hstep
    refine ⟨hs.step hstep, ?_⟩
    intro e he i haction
    rw [List.mem_append, List.mem_singleton] at he
    obtain he | rfl := he
    · exact hpast e he i haction
    · rw [hstep.2.1] at haction
      obtain hfetch | hstore := haction
      · obtain ⟨hpoint, rfl⟩ := action_eq_fetch.1 hfetch
        exact (hs e.1).member_source (.inl hpoint)
      · obtain ⟨hpoint, rfl⟩ := action_eq_store.1 hstore
        exact (hs e.1).member_target hpoint

/-- A worker can go on alone as far as its walk gets. -/
theorem exists_solo (effect : ι → Walk → M → M) {me : ι} {w : Walk}
    (hmoves : Relation.ReflTransGen (lane me).Moves (s.walks me) w) :
    ∃ es t, Run (Crew.Step lane effect) s es t ∧ t.walks = Function.update s.walks me w := by
  induction hmoves with
  | refl => exact ⟨[], s, .nil s, by simp⟩
  | tail _ hmove ih =>
    obtain ⟨es, t, hrun, hwalks⟩ := ih
    obtain ⟨hpoint, rfl⟩ := hmove
    refine ⟨es ++ [(me, (t.walks me).action)], t.advance lane effect me, ?_, ?_⟩
    · rw [run_append_iff]
      refine ⟨t, hrun, run_singleton_iff.2 ⟨?_, rfl, rfl⟩⟩
      simpa [hwalks] using hpoint
    · simp [Crew.advance, hwalks]

/-- From wherever it is, a crew can go on until everybody is at the end. -/
theorem Crew.Sound.exists_finished [Fintype ι] (effect : ι → Walk → M → M) (hs : s.Sound lane) :
    ∃ es t, Run (Crew.Step lane effect) s es t ∧ t.Finished := by
  have hsome : ∀ workers : Finset ι, ∃ es t, Run (Crew.Step lane effect) s es t ∧
      ∀ me ∈ workers, (t.walks me).point = .finished := by
    intro workers
    induction workers using Finset.induction_on with
    | empty => exact ⟨[], s, .nil s, by simp⟩
    | insert me workers _ ih =>
      obtain ⟨es, t, hrun, hdone⟩ := ih
      obtain ⟨w, hmoves, hw⟩ := Strides.exists_finished (hs.run hrun me)
      obtain ⟨fs, u, hsolo, hwalks⟩ := exists_solo effect hmoves
      refine ⟨es ++ fs, u, run_append_iff.2 ⟨t, hrun, hsolo⟩, ?_⟩
      intro other hother
      by_cases heq : other = me
      · simp [hwalks, heq, hw]
      · simpa [hwalks, heq] using hdone other (Finset.mem_of_mem_insert_of_ne hother heq)
  obtain ⟨es, t, hrun, hdone⟩ := hsome Finset.univ
  exact ⟨es, t, hrun, fun me => hdone me (Finset.mem_univ me)⟩

theorem count_stores_finished {memory : M}
    (hrun : Run (Crew.Step lane effect) (Crew.start memory) es t) (hdone : t.Finished)
    {me : ι} {i : Nat} (hi : (lane me).Member i) :
    es.count (me, .store i) = (lane me).repetitions := by
  rw [(count_stores memory hrun me i).1 hi]
  exact ((sound_crew_start lane memory).run hrun me).stores_finished (hdone me) i

end Crew

end NdpOffload.Library.Strides
