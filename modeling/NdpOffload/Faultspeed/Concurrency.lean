import NdpOffload.Faultspeed.Refinement
import NdpOffload.Library.Requests
import NdpOffload.Library.Runs

/-! Threads that add their memories to one `UffdHandler`, use them and remove them
while its workers look up the addresses of faults.  Every step of a thread and of
a worker is a step of its own here; system calls succeed. -/
namespace NdpOffload.Faultspeed.Concurrency

open Library.Paging Library.Requests Library.Runs Memory Machine Refinement

/-! ### The steps of `add`, `remove` and `handleOne` -/

section Machine

variable (s : Machine)

def pushMapping (memory : Nat) : Machine :=
  { s with
    handler := { s.handler with
      mappings := s.handler.mappings ++ [(s.base memory, memory)] } }

def unregisterAddressRange (start length : Nat) : Machine :=
  { s with space := s.space.unwatch s.pageSize start length }

/-- `std::ranges::find` and `erase`; nothing is found where `remove` throws. -/
def eraseMapping (memory : Nat) : Option Machine :=
  if s.handler.mappings.any fun mapping => decide (mapping.1 = s.base memory) then
    some { s with
      handler := { s.handler with
        mappings := s.handler.mappings.eraseP fun mapping => decide (mapping.1 = s.base memory) } }
  else none

/-- The lookup in `handleOne`, under the shared lock. -/
def lookup (m : UffdMsg) : Option Nat :=
  let address := s.alignDown m.address
  (s.handler.mappings.find? fun mapping =>
    decide (mapping.1 ≤ address) && decide (address < mapping.1 + wmemSize)).map Prod.snd

/-- The second check in `handleOne`, after the lock is released. -/
def strayed (m : UffdMsg) (wmem : Nat) : Prop :=
  s.alignDown m.address < s.base wmem ∨ s.base wmem + wmemSize ≤ s.alignDown m.address

instance (m : UffdMsg) (wmem : Nat) : Decidable (strayed s m wmem) :=
  inferInstanceAs (Decidable (_ ∨ _))

/-- The machine that a successful call leaves; nothing where a system call fails. -/
def Reply.after : Reply → Option Machine
  | .resolved s => some s
  | .signalled _ s => some s
  | .terminated => none
  | .thrown => none

/-- The rest of `handleOne`. -/
def serve (m : UffdMsg) (wmem : Nat) : Reply :=
  let address := s.alignDown m.address
  if ¬ m.address < s.base wmem + s.size wmem then .signalled m.ptid s
  else
    let counted := s.countFault
    if m.writeProtect then writeProtectPages
    else
      match s.handler.snapshot with
      | some snapshot =>
          if address < s.size snapshot then counted.copyPages address (s.base snapshot)
          else counted.zeroPages address
      | none => counted.zeroPages address

theorem add_eq (memory : Nat) :
    s.add memory = ((pushMapping s memory).mprotect (s.base memory) (wmemSize / 2)
      true).registerAddressRange (s.base memory) wmemSize := rfl

/-- A worker that nobody disturbs handles a message as `handleOne` does. -/
theorem handleOne_eq (m : UffdMsg) (hevent : m.event = .pagefault) :
    s.handleOne m =
      match lookup s m with
      | none => .terminated
      | some wmem => if strayed s m wmem then .terminated else serve s m wmem := by
  simp only [handleOne, hevent, lookup]
  cases hfound : s.handler.mappings.find? fun mapping =>
    decide (mapping.1 ≤ s.alignDown m.address) &&
      decide (s.alignDown m.address < mapping.1 + wmemSize) with
  | none => rfl
  | some mapping => rfl

end Machine

/-! ### Threads and workers -/

/-- What a thread does with its memory. -/
inductive Phase where
  | fresh
  /-- In `add`, behind the push. -/
  | pushed
  /-- In `add`, behind `mprotect`. -/
  | unprotected
  /-- Between `add` and `remove`. -/
  | using
  /-- Blocked in an access. -/
  | faulting (address : Nat)
  /-- In `remove`, behind the system call. -/
  | unregistered
  | removed
  /-- `WMemory already missing from UFFD` -/
  | threw
deriving DecidableEq

inductive Worker where
  | idle
  | read (m : UffdMsg)
  | found (m : UffdMsg) (wmem : Nat)
  | checked (m : UffdMsg) (wmem : Nat)
  | terminated

/-- Thread `i` owns the memory number `i`. -/
structure State (n : Nat) (κ : Type*) where
  machine : Machine
  threads : Fin n → Phase
  pending : List UffdMsg
  workers : κ → Worker

inductive Event (n : Nat) (κ : Type*) where
  | push (i : Fin n)
  | unprotect (i : Fin n)
  | register (i : Fin n)
  | access (i : Fin n) (offset : Nat) (value : Option UInt8)
  | resize (i : Fin n) (newSize : Nat)
  | unregister (i : Fin n)
  | erase (i : Fin n)
  | readEvent (w : κ) (position : Nat)
  | lookup (w : κ)
  | check (w : κ)
  | serve (w : κ)

variable {n : Nat} {κ : Type*}

section Step

variable (s : State n κ)

/-- The message of a fault of thread `i`. -/
def State.fault (i : Fin n) (address : Nat) : UffdMsg :=
  { s.machine.faultMsg address with ptid := i }

/-- The threads that are blocked on a page go on when it is there, and when they
are woken. -/
def State.wake (address : Nat) : Fin n → Phase := fun i =>
  match s.threads i with
  | .faulting a => if s.machine.page a = s.machine.page address then .using else .faulting a
  | phase => phase

def State.go (i : Fin n) (machine : Machine) (phase : Phase) : State n κ :=
  { s with machine := machine, threads := Function.update s.threads i phase }

/-- An access of a thread to its memory, a store if it has a value.  Where the
page may not be accessed the thread gets a signal. -/
def State.access (i : Fin n) (offset : Nat) (value : Option UInt8) : State n κ :=
  let address := s.machine.base i + offset
  let page := s.machine.page address
  match s.machine.space.touch page with
  | .denied => s
  | .present frame =>
      match value with
      | none => s
      | some value =>
          let stored := Function.update frame (address % s.machine.pageSize) value
          { s with machine := s.machine.install page stored }
  | .absent => { s with machine := s.machine.install page fun _ => 0 }
  | .missing =>
      { s.go i s.machine (.faulting address) with pending := s.pending ++ [s.fault i address] }

/-- What a thread does next. -/
def State.stepThread (i : Fin n) (phase : Phase) (next : State n κ) : Option (State n κ) :=
  if s.threads i = phase then some next else none

end Step

section Step

variable [DecidableEq κ] (s : State n κ)

def State.work (w : κ) (worker : Worker) : State n κ :=
  { s with workers := Function.update s.workers w worker }

def step : Event n κ → Option (State n κ)
  | .push i => s.stepThread i .fresh (s.go i (pushMapping s.machine i) .pushed)
  | .unprotect i =>
      s.stepThread i .pushed
        (s.go i (s.machine.mprotect (s.machine.base i) (wmemSize / 2) true) .unprotected)
  | .register i =>
      s.stepThread i .unprotected
        (s.go i (s.machine.registerAddressRange (s.machine.base i) wmemSize) .using)
  | .access i offset value =>
      if offset < wmemSize then s.stepThread i .using (s.access i offset value) else none
  | .resize i newSize =>
      s.stepThread i .using { s with machine := s.machine.resizeWavmUffd i newSize }
  | .unregister i =>
      s.stepThread i .using
        (s.go i (unregisterAddressRange s.machine (s.machine.base i) wmemSize) .unregistered)
  | .erase i =>
      s.stepThread i .unregistered
        (match eraseMapping s.machine i with
        | some machine => s.go i machine .removed
        | none => s.go i s.machine .threw)
  | .readEvent w position =>
      match s.workers w, s.pending[position]? with
      | .idle, some m => some { s.work w (.read m) with pending := s.pending.eraseIdx position }
      | _, _ => none
  | .lookup w =>
      match s.workers w with
      | .read m =>
          match m.event, Concurrency.lookup s.machine m with
          | .pagefault, some wmem => some (s.work w (.found m wmem))
          | _, _ => some (s.work w .terminated)
      | _ => none
  | .check w =>
      match s.workers w with
      | .found m wmem =>
          if strayed s.machine m wmem then some (s.work w .terminated)
          else some (s.work w (.checked m wmem))
      | _ => none
  | .serve w =>
      match s.workers w with
      | .checked m wmem =>
          match Reply.after (Concurrency.serve s.machine m wmem) with
          | some machine =>
              some { s.work w .idle with machine := machine, threads := s.wake m.address }
          | none => none
      | _ => none

def Step (s : State n κ) (e : Event n κ) (t : State n κ) : Prop :=
  step s e = some t

end Step

/-! ### The vector of mappings -/

/-- The vector holds the memories of certain threads, each once. -/
structure Listed (mappings : List (Nat × Nat)) (base : Nat → Nat) (present : Fin n → Prop) : Prop where
  entries : ∀ mapping ∈ mappings, ∃ i : Fin n, mapping = (base i, i.val) ∧ present i
  listed : ∀ i, present i → (base i, i.val) ∈ mappings
  nodup : mappings.Nodup

section Listed

variable {mappings : List (Nat × Nat)} {base : Nat → Nat} {present present' : Fin n → Prop}

theorem Listed.congr (hl : Listed mappings base present) (hsame : ∀ i, present' i ↔ present i) :
    Listed mappings base present' := by
  have heq : present' = present := by
    funext i
    exact propext (hsame i)
  rw [heq]
  exact hl

theorem Listed.push (hl : Listed mappings base present) {i : Fin n} (hnew : ¬ present i)
    (hafter : ∀ j, present' j ↔ present j ∨ j = i) :
    Listed (mappings ++ [(base i, i.val)]) base present' where
  entries := by
    intro mapping hmem
    rw [List.mem_append, List.mem_singleton] at hmem
    obtain hmem | rfl := hmem
    · obtain ⟨j, rfl, hj⟩ := hl.entries mapping hmem
      exact ⟨j, rfl, (hafter j).2 (.inl hj)⟩
    · exact ⟨i, rfl, (hafter i).2 (.inr rfl)⟩
  listed := by
    intro j hj
    rw [List.mem_append, List.mem_singleton]
    obtain hj | rfl := (hafter j).1 hj
    · exact .inl (hl.listed j hj)
    · exact .inr rfl
  nodup := by
    rw [List.nodup_append]
    refine ⟨hl.nodup, List.nodup_singleton _, ?_⟩
    rintro mapping hmem _ hlast rfl
    rw [List.mem_singleton] at hlast
    obtain ⟨j, hj, hpresent⟩ := hl.entries mapping hmem
    have hji : j = i := Fin.ext (congrArg Prod.snd (hj.symm.trans hlast))
    exact hnew (hji ▸ hpresent)

/-- With distinct bases, erasing the first entry with the base of `i` erases `i`. -/
theorem Listed.erase (hl : Listed mappings base present) {i : Fin n} (hi : present i)
    (hbase : ∀ j : Fin n, base j = base i → j = i)
    (hafter : ∀ j, present' j ↔ present j ∧ j ≠ i) :
    Listed (mappings.eraseP fun mapping => decide (mapping.1 = base i)) base present' := by
  obtain ⟨mapping, before, after, hbefore, hmapping, hsplit, herased⟩ :=
    List.exists_of_eraseP (p := fun mapping : Nat × Nat => decide (mapping.1 = base i))
      (hl.listed i hi) (by simp)
  have hthis : mapping = (base i, i.val) := by
    obtain ⟨j, rfl, _⟩ := hl.entries mapping (by simp [hsplit])
    rw [hbase j (of_decide_eq_true hmapping)]
  have hnodup := hl.nodup
  rw [hsplit, List.nodup_middle, List.nodup_cons] at hnodup
  have hmem : ∀ other, other ∈ before ++ after ↔ other ∈ mappings ∧ other ≠ mapping := by
    intro other
    constructor
    · intro hother
      refine ⟨?_, fun heq => hnodup.1 (heq ▸ hother)⟩
      rw [hsplit, List.mem_append, List.mem_cons]
      rw [List.mem_append] at hother
      tauto
    · rintro ⟨hother, hne⟩
      rw [hsplit, List.mem_append, List.mem_cons] at hother
      rw [List.mem_append]
      tauto
  rw [herased]
  refine ⟨?_, ?_, hnodup.2⟩
  · intro other hother
    obtain ⟨hold, hne⟩ := (hmem other).1 hother
    obtain ⟨j, rfl, hj⟩ := hl.entries other hold
    refine ⟨j, rfl, (hafter j).2 ⟨hj, ?_⟩⟩
    rintro rfl
    exact hne hthis.symm
  · intro j hj
    obtain ⟨hold, hne⟩ := (hafter j).1 hj
    refine (hmem _).2 ⟨hl.listed j hold, ?_⟩
    rw [hthis]
    intro heq
    exact hne (Fin.ext (congrArg Prod.snd heq))

end Listed

/-! ### The layout of the memories -/

/-- The kernel has given the threads aligned and disjoint mappings. -/
structure Placed (n : Nat) (s : Machine) : Prop where
  aligned : ∀ i : Fin n, s.pageSize ∣ s.base i
  apart : ∀ i j : Fin n, i ≠ j →
    s.base i + wmemSize ≤ s.base j ∨ s.base j + wmemSize ≤ s.base i

structure SameLayout (s t : Machine) : Prop where
  pageBits : t.pageBits = s.pageBits
  base : ∀ memory, t.base memory = s.base memory
  threadCount : t.handler.threadCount = s.handler.threadCount

theorem Placed.keep {s t : Machine} (hs : Placed n s) (hsame : SameLayout s t) : Placed n t where
  aligned := by
    intro i
    rw [pageSize, hsame.pageBits, hsame.base]
    exact hs.aligned i
  apart := by
    intro i j hij
    rw [hsame.base, hsame.base]
    exact hs.apart i j hij

/-- The pages of a fault and of its message lie in the memory of the address. -/
theorem Placed.begin_mem {s : Machine} (hs : Placed n s) {i : Fin n} {a : Nat}
    (ha : s.base i ≤ a ∧ a < s.base i + wmemSize) :
    s.base i ≤ s.alignDown a ∧ s.alignDown a < s.base i + wmemSize := by
  have hround := round_le_self s.pageSize a
  have hbegin := page_begin (hs.aligned i) (a - s.base i)
  rw [Nat.add_sub_cancel' ha.1] at hbegin
  simp only [alignDown, page]
  omega

/-- One page is never of two threads. -/
theorem Placed.same_owner {s : Machine} (hs : Placed n s) {i j : Fin n} {a : Nat}
    (hi : s.base i ≤ a ∧ a < s.base i + wmemSize) (hj : s.base j ≤ a ∧ a < s.base j + wmemSize) :
    i = j := by
  by_contra hne
  have hapart := hs.apart i j hne
  omega

theorem Placed.base_injective {s : Machine} (hs : Placed n s) {i j : Fin n}
    (hbase : s.base j = s.base i) : j = i := by
  have hpos : 0 < wmemSize := by decide
  exact hs.same_owner (a := s.base i) (by omega) (by omega)

/-- What neither the vector nor the kernel's registrations see. -/
structure Unseen (s t : Machine) : Prop where
  layout : SameLayout s t
  mappings : t.handler.mappings = s.handler.mappings
  watched : t.space.watched = s.space.watched

theorem unseen_resize (s : Machine) (memory newSize : Nat) :
    Unseen s (s.resizeWavmUffd memory newSize) := by
  simp only [resizeWavmUffd]
  refine ⟨⟨?_, ?_, ?_⟩, ?_, ?_⟩
  · split <;> rfl
  · intro other
    by_cases hother : other = memory
    · subst hother
      exact base_resize .uffd other newSize s
    · split <;> simp [setSize, base, madviseDontneed, hother]
  · split <;> rfl
  · split <;> rfl
  · split <;> rfl

theorem unseen_install (s : Machine) (page : Nat) (frame : Nat → UInt8) :
    Unseen s (s.install page frame) :=
  ⟨⟨rfl, fun _ => rfl, rfl⟩, rfl, rfl⟩

theorem unseen_zeroPages {s t : Machine} {address : Nat}
    (hreply : Reply.after (s.zeroPages address) = some t) : Unseen s t := by
  simp only [zeroPages] at hreply
  split at hreply
  · cases hreply
  · cases hreply
    exact unseen_install ..

theorem unseen_copyPages {s t : Machine} {target source : Nat}
    (hreply : Reply.after (s.copyPages target source) = some t) : Unseen s t := by
  simp only [copyPages] at hreply
  split at hreply
  · cases hreply
  · split at hreply
    · cases hreply
      exact unseen_install ..
    · cases hreply

/-- Serving a fault leaves the vector and the registrations alone. -/
theorem unseen_serve {s t : Machine} {m : UffdMsg} {wmem : Nat}
    (hreply : Reply.after (serve s m wmem) = some t) : Unseen s t := by
  have hcounted : Unseen s.countFault t → Unseen s t := fun hu =>
    ⟨⟨hu.layout.pageBits, hu.layout.base, hu.layout.threadCount⟩, hu.mappings, hu.watched⟩
  simp only [serve] at hreply
  split at hreply
  · cases hreply
    exact ⟨⟨rfl, fun _ => rfl, rfl⟩, rfl, rfl⟩
  · apply hcounted
    split at hreply
    · cases hreply
    · split at hreply
      · split at hreply
        · exact unseen_copyPages hreply
        · exact unseen_zeroPages hreply
      · exact unseen_zeroPages hreply

/-! ### The invariant -/

/-- The phases in which the memory is in the vector. -/
def Phase.mapped : Phase → Bool
  | .fresh => false
  | .removed => false
  | .threw => false
  | _ => true

/-- The phases in which the kernel reports faults in the memory. -/
def Phase.registered : Phase → Bool
  | .using => true
  | .faulting _ => true
  | _ => false

def Worker.message : Worker → Option UffdMsg
  | .read m => some m
  | .found m _ => some m
  | .checked m _ => some m
  | _ => none

def State.desk (s : State n κ) : Desk κ UffdMsg where
  pending := s.pending
  held := fun w => (s.workers w).message

/-- The thread `id` is blocked in the access that `m` reports. -/
def State.Blocked (s : State n κ) (id : Nat) (m : UffdMsg) : Prop :=
  ∃ (i : Fin n) (a : Nat), i.val = id ∧ s.threads i = .faulting a ∧ m = s.fault i a

/-- A memory that is registered or in which a fault is on its way is in the
vector, and each fault on its way is of a thread that is blocked in it. -/
structure Safe (s : State n κ) : Prop where
  placed : Placed n s.machine
  listed : Listed s.machine.handler.mappings s.machine.base fun i => (s.threads i).mapped = true
  watched : ∀ (i : Fin n) (page : Nat), InMapping s.machine i page →
    s.machine.space.watched page = true → (s.threads i).registered = true
  region : ∀ (i : Fin n) (a : Nat), s.threads i = .faulting a →
    s.machine.base i ≤ a ∧ a < s.machine.base i + wmemSize
  desk : s.desk.Sound UffdMsg.ptid s.Blocked
  found : ∀ w m wmem, s.workers w = .found m wmem ∨ s.workers w = .checked m wmem → wmem = m.ptid
  alive : ∀ w, s.workers w ≠ .terminated
  present : ∀ i, s.threads i ≠ .threw

variable {s t : State n κ}

theorem fault_keep {i : Fin n} {a : Nat} (hsame : SameLayout s.machine t.machine) :
    t.fault i a = s.fault i a := by
  simp only [State.fault, faultMsg, alignDown, page, pageSize, hsame.pageBits, hsame.threadCount]

theorem inMapping_keep {m m' : Machine} (hsame : SameLayout m m') {memory page : Nat} :
    InMapping m' memory page ↔ InMapping m memory page := by
  simp only [InMapping, pageSize, hsame.pageBits, hsame.base]

theorem alignDown_fault (i : Fin n) (a : Nat) :
    s.machine.alignDown (s.fault i a).address = s.machine.alignDown a := by
  have hpos := pageSize_pos s.machine
  simp only [State.fault, faultMsg]
  split
  · rfl
  · simp only [alignDown, page]
    rw [Nat.mul_div_cancel _ hpos]

/-- The lookup for a fault finds the memory of the thread that is blocked in it. -/
theorem Safe.lookup_eq (hs : Safe s) {id : Nat} {m : UffdMsg} (hm : s.Blocked id m) :
    lookup s.machine m = some id := by
  obtain ⟨i, a, rfl, hphase, rfl⟩ := hm
  have hmem := hs.placed.begin_mem (hs.region i a hphase)
  have hin := hs.listed.listed i (by simp [hphase, Phase.mapped])
  simp only [lookup, alignDown_fault]
  cases hfound : s.machine.handler.mappings.find? fun mapping =>
      decide (mapping.1 ≤ s.machine.alignDown a) &&
        decide (s.machine.alignDown a < mapping.1 + wmemSize) with
  | none =>
    have hnot := List.find?_eq_none.1 hfound _ hin
    simp only [Bool.and_eq_true, decide_eq_true_eq] at hnot
    exact absurd hmem hnot
  | some mapping =>
    have hcontains := List.find?_some hfound
    simp only [Bool.and_eq_true, decide_eq_true_eq] at hcontains
    obtain ⟨j, rfl, _⟩ := hs.listed.entries mapping (List.mem_of_find?_eq_some hfound)
    rw [hs.placed.same_owner hmem hcontains]
    rfl

theorem Safe.not_strayed (hs : Safe s) {id : Nat} {m : UffdMsg} (hm : s.Blocked id m) :
    ¬ strayed s.machine m id := by
  obtain ⟨i, a, rfl, hphase, rfl⟩ := hm
  have hmem := hs.placed.begin_mem (hs.region i a hphase)
  rw [strayed, alignDown_fault]
  omega

/-! ### The steps of a thread -/

theorem stepThread_eq_some {i : Fin n} {phase : Phase} {next : State n κ}
    (hstep : s.stepThread i phase next = some t) : s.threads i = phase ∧ t = next := by
  unfold State.stepThread at hstep
  split at hstep
  · rename_i hphase
    exact ⟨hphase, (Option.some.inj hstep).symm⟩
  · cases hstep

theorem update_mapped {threads : Fin n → Phase} {i j : Fin n} {phase : Phase} :
    (Function.update threads i phase j).mapped = true ↔
      (j = i ∧ phase.mapped = true) ∨ (j ≠ i ∧ (threads j).mapped = true) := by
  by_cases hj : j = i
  · subst hj
    simp
  · simp [hj]

/-- A step of a thread that neither makes nor answers a request. -/
theorem Safe.go (hs : Safe s) {i : Fin n} {machine : Machine} {phase : Phase}
    (hsame : SameLayout s.machine machine) (hbefore : ∀ a, s.threads i ≠ .faulting a)
    (hafter : ∀ a, phase ≠ .faulting a) (hpresent : phase ≠ .threw)
    (hlisted : Listed machine.handler.mappings s.machine.base
      fun j => (Function.update s.threads i phase j).mapped = true)
    (hwatched : ∀ (j : Fin n) (page : Nat), InMapping s.machine j page →
      machine.space.watched page = true →
        (Function.update s.threads i phase j).registered = true) :
    Safe (s.go i machine phase) where
  placed := hs.placed.keep hsame
  listed := by
    have hbase : machine.base = s.machine.base := funext hsame.base
    simpa only [State.go, hbase] using hlisted
  watched := fun j page hin => hwatched j page ((inMapping_keep hsame).1 hin)
  region := by
    intro j a hj
    by_cases heq : j = i
    · simp only [State.go, heq, Function.update_self] at hj
      exact absurd hj (hafter a)
    · simp only [State.go, Function.update_of_ne heq] at hj
      simp only [State.go, hsame.base]
      exact hs.region j a hj
  desk := by
    refine hs.desk.keep ?_
    rintro id m ⟨j, a, hid, hj, rfl⟩
    have hne : j ≠ i := by
      rintro rfl
      exact hbefore a hj
    refine ⟨j, a, hid, ?_, (fault_keep hsame).symm⟩
    simp only [State.go, Function.update_of_ne hne, hj]
  found := hs.found
  alive := hs.alive
  present := by
    intro j
    by_cases heq : j = i
    · simpa only [State.go, heq, Function.update_self] using hpresent
    · simpa only [State.go, Function.update_of_ne heq] using hs.present j

theorem update_mapped_same {threads : Fin n → Phase} {i j : Fin n} {phase : Phase}
    (hphase : phase.mapped = (threads i).mapped) :
    (Function.update threads i phase j).mapped = true ↔ (threads j).mapped = true := by
  rw [update_mapped, hphase]
  by_cases hj : j = i
  · simp [hj]
  · simp [hj]

theorem covers_iff {m : Machine} {memory page : Nat} :
    covers m.pageSize (m.base memory) wmemSize page = true ↔ InMapping m memory page := by
  simp only [covers, InMapping, Bool.and_eq_true, decide_eq_true_eq]

theorem Safe.push (hs : Safe s) {i : Fin n} (hi : s.threads i = .fresh) :
    Safe (s.go i (pushMapping s.machine i) .pushed) := by
  refine hs.go ⟨rfl, fun _ => rfl, rfl⟩ (by simp [hi]) (by simp) (by simp) ?_ ?_
  · refine hs.listed.push (by simp [hi, Phase.mapped]) ?_
    intro j
    rw [update_mapped]
    by_cases hj : j = i <;> simp [hj, Phase.mapped]
  · intro j page hin hw
    have hold := hs.watched j page hin hw
    by_cases hj : j = i
    · simp [hj, hi, Phase.registered] at hold
    · rwa [Function.update_of_ne hj]

theorem Safe.unprotect (hs : Safe s) {i : Fin n} (hi : s.threads i = .pushed) :
    Safe (s.go i (s.machine.mprotect (s.machine.base i) (wmemSize / 2) true) .unprotected) := by
  refine hs.go ⟨rfl, fun _ => rfl, rfl⟩ (by simp [hi]) (by simp) (by simp) ?_ ?_
  · exact hs.listed.congr fun j => update_mapped_same (by rw [hi]; rfl)
  · intro j page hin hw
    have hold := hs.watched j page hin hw
    by_cases hj : j = i
    · simp [hj, hi, Phase.registered] at hold
    · rwa [Function.update_of_ne hj]

theorem Safe.register (hs : Safe s) {i : Fin n} (hi : s.threads i = .unprotected) :
    Safe (s.go i (s.machine.registerAddressRange (s.machine.base i) wmemSize) .using) := by
  refine hs.go ⟨rfl, fun _ => rfl, rfl⟩ (by simp [hi]) (by simp) (by simp) ?_ ?_
  · exact hs.listed.congr fun j => update_mapped_same (by rw [hi]; rfl)
  · intro j page hin hw
    by_cases hj : j = i
    · rw [hj, Function.update_self]
      rfl
    · rw [Function.update_of_ne hj]
      apply hs.watched j page hin
      -- a page of another memory is not in the range that is registered
      have hout : covers s.machine.pageSize (s.machine.base i) wmemSize page = false := by
        by_contra hcovers
        rw [Bool.not_eq_false, covers_iff] at hcovers
        exact hj (hs.placed.same_owner hin hcovers)
      simpa [registerAddressRange, Space.watch, hout] using hw

theorem Safe.unregister (hs : Safe s) {i : Fin n} (hi : s.threads i = .using) :
    Safe (s.go i (unregisterAddressRange s.machine (s.machine.base i) wmemSize)
      .unregistered) := by
  refine hs.go ⟨rfl, fun _ => rfl, rfl⟩ (by simp [hi]) (by simp) (by simp) ?_ ?_
  · exact hs.listed.congr fun j => update_mapped_same (by rw [hi]; rfl)
  · intro j page hin hw
    simp only [unregisterAddressRange, Space.unwatch] at hw
    by_cases hj : j = i
    · subst hj
      simp [covers_iff.2 hin] at hw
    · rw [Function.update_of_ne hj]
      apply hs.watched j page hin
      split at hw
      · cases hw
      · exact hw

/-- What `remove` looks for is there, since nobody else removes it. -/
theorem Safe.erase (hs : Safe s) {i : Fin n} (hi : s.threads i = .unregistered) :
    ∃ machine, eraseMapping s.machine i = some machine ∧ Safe (s.go i machine .removed) := by
  have hmapped : (s.threads i).mapped = true := by simp [hi, Phase.mapped]
  have hany : (s.machine.handler.mappings.any
      fun mapping => decide (mapping.1 = s.machine.base i)) = true :=
    List.any_eq_true.2 ⟨_, hs.listed.listed i hmapped, by simp⟩
  refine ⟨_, by rw [eraseMapping, if_pos hany], ?_⟩
  refine hs.go ⟨rfl, fun _ => rfl, rfl⟩ (by simp [hi]) (by simp) (by simp) ?_ ?_
  · refine hs.listed.erase hmapped (fun j => hs.placed.base_injective) ?_
    intro j
    rw [update_mapped]
    simp [Phase.mapped, and_comm]
  · intro j page hin hw
    have hold := hs.watched j page hin hw
    by_cases hj : j = i
    · simp [hj, hi, Phase.registered] at hold
    · rwa [Function.update_of_ne hj]

/-- Accesses that do not fault, and changes of the size. -/
theorem Safe.unseen (hs : Safe s) {machine : Machine} (hunseen : Unseen s.machine machine) :
    Safe { s with machine := machine } where
  placed := hs.placed.keep hunseen.layout
  listed := by
    have hbase : machine.base = s.machine.base := funext hunseen.layout.base
    simpa only [hbase, hunseen.mappings] using hs.listed
  watched := by
    intro i page hin hw
    rw [hunseen.watched] at hw
    exact hs.watched i page ((inMapping_keep hunseen.layout).1 hin) hw
  region := by
    intro i a hi
    simp only [hunseen.layout.base]
    exact hs.region i a hi
  desk := by
    refine hs.desk.keep ?_
    rintro id m ⟨i, a, hid, hi, rfl⟩
    exact ⟨i, a, hid, hi, (fault_keep hunseen.layout).symm⟩
  found := hs.found
  alive := hs.alive
  present := hs.present

theorem Safe.fault (hs : Safe s) {i : Fin n} (hi : s.threads i = .using) {offset : Nat}
    (hoffset : offset < wmemSize) :
    Safe { s.go i s.machine (.faulting (s.machine.base i + offset)) with
      pending := s.pending ++ [s.fault i (s.machine.base i + offset)] } where
  placed := hs.placed
  listed := hs.listed.congr fun j => update_mapped_same (by rw [hi]; rfl)
  watched := by
    intro j page hin hw
    by_cases hj : j = i
    · simp only [State.go, hj, Function.update_self]
      rfl
    · simp only [State.go, Function.update_of_ne hj]
      exact hs.watched j page hin hw
  region := by
    intro j a hj
    by_cases heq : j = i
    · simp only [State.go, heq, Function.update_self, Phase.faulting.injEq] at hj
      simp only [State.go, heq, ← hj]
      omega
    · simp only [State.go, Function.update_of_ne heq] at hj
      exact hs.region j a hj
  desk := by
    refine hs.desk.post ?_ ?_ ?_
    · rintro m ⟨j, a, hid, hj, _⟩
      rw [Fin.ext hid, hi] at hj
      cases hj
    · rintro id m ⟨j, a, hid, hj, rfl⟩
      have hne : j ≠ i := by
        rintro rfl
        rw [hi] at hj
        cases hj
      refine ⟨j, a, hid, ?_, rfl⟩
      simp only [State.go, Function.update_of_ne hne, hj]
    · refine ⟨i, s.machine.base i + offset, rfl, ?_, rfl⟩
      simp only [State.go, Function.update_self]
  found := hs.found
  alive := hs.alive
  present := by
    intro j
    by_cases heq : j = i
    · simp [State.go, heq]
    · simpa only [State.go, Function.update_of_ne heq] using hs.present j

theorem Safe.access (hs : Safe s) {i : Fin n} (hi : s.threads i = .using) {offset : Nat}
    (hoffset : offset < wmemSize) (value : Option UInt8) : Safe (s.access i offset value) := by
  simp only [State.access]
  split
  · exact hs
  · split
    · exact hs
    · exact hs.unseen (unseen_install ..)
  · exact hs.unseen (unseen_install ..)
  · exact hs.fault hi hoffset

/-! ### The steps of a worker -/

/-- An answer wakes the thread that is blocked in the fault, and no other. -/
theorem Safe.wake_eq (hs : Safe s) {i : Fin n} {a : Nat} (hi : s.threads i = .faulting a) :
    s.wake (s.fault i a).address = Function.update s.threads i .using := by
  have hpos := pageSize_pos s.machine
  have hpage : ∀ b, s.machine.alignDown b = s.machine.alignDown a ↔
      s.machine.page b = s.machine.page a := by
    intro b
    simp only [alignDown]
    exact Nat.mul_left_inj (Nat.pos_iff_ne_zero.1 hpos)
  have hfault : s.machine.page (s.fault i a).address = s.machine.page a := by
    have hbegin := alignDown_fault (s := s) i a
    simp only [alignDown] at hbegin
    exact Nat.eq_of_mul_eq_mul_right hpos hbegin
  funext j
  simp only [State.wake, hfault]
  by_cases hj : j = i
  · subst hj
    simp [hi]
  · rw [Function.update_of_ne hj]
    cases hphase : s.threads j with
    | faulting b =>
      have hne : ¬ s.machine.page b = s.machine.page a := by
        intro heq
        have hjmem := hs.placed.begin_mem (hs.region j b hphase)
        rw [(hpage b).2 heq] at hjmem
        exact hj (hs.placed.same_owner hjmem (hs.placed.begin_mem (hs.region i a hi)))
      simp only [if_neg hne]
    | _ => rfl

variable [DecidableEq κ]

theorem message_update (s : State n κ) (w : κ) (worker : Worker) :
    (fun w' => (Function.update s.workers w worker w').message) =
      Function.update (fun w' => (s.workers w').message) w worker.message := by
  funext w'
  by_cases hw : w' = w
  · simp [hw]
  · simp [hw]

/-- What a worker knows after the step of one. -/
theorem Safe.work_found (hs : Safe s) {w : κ} {worker : Worker}
    (hfound : ∀ m wmem, worker = .found m wmem ∨ worker = .checked m wmem → wmem = m.ptid)
    (w' : κ) (m : UffdMsg) (wmem : Nat)
    (hw' : (s.work w worker).workers w' = .found m wmem ∨ (s.work w worker).workers w' = .checked m wmem) :
    wmem = m.ptid := by
  by_cases hw : w' = w
  · rw [hw] at hw'
    simp only [State.work, Function.update_self] at hw'
    exact hfound m wmem hw'
  · simp only [State.work, Function.update_of_ne hw] at hw'
    exact hs.found w' m wmem hw'

theorem Safe.work_alive (hs : Safe s) {w : κ} {worker : Worker} (halive : worker ≠ .terminated)
    (w' : κ) : (s.work w worker).workers w' ≠ .terminated := by
  by_cases hw : w' = w
  · simpa only [hw, State.work, Function.update_self] using halive
  · simpa only [State.work, Function.update_of_ne hw] using hs.alive w'

/-- A worker goes on with its message. -/
theorem Safe.work (hs : Safe s) {w : κ} {worker : Worker}
    (hmessage : worker.message = (s.workers w).message)
    (hfound : ∀ m wmem, worker = .found m wmem ∨ worker = .checked m wmem → wmem = m.ptid)
    (halive : worker ≠ .terminated) : Safe (s.work w worker) where
  placed := hs.placed
  listed := hs.listed
  watched := hs.watched
  region := hs.region
  desk := by
    have hdesk : (s.work w worker).desk = s.desk := by
      simp only [State.desk, State.work, message_update, hmessage, Function.update_eq_self]
    rw [hdesk]
    exact hs.desk
  found := hs.work_found hfound
  alive := hs.work_alive halive
  present := hs.present

theorem Safe.readEvent (hs : Safe s) {w : κ} {position : Nat} {m : UffdMsg}
    (hm : s.pending[position]? = some m) :
    Safe { s.work w (.read m) with pending := s.pending.eraseIdx position } where
  placed := hs.placed
  listed := hs.listed
  watched := hs.watched
  region := hs.region
  desk := by
    obtain ⟨hlt, hget⟩ := List.getElem?_eq_some_iff.1 hm
    have hsplit : s.pending = s.pending.take position ++ m :: s.pending.drop (position + 1) := by
      rw [← hget, List.getElem_cons_drop, List.take_append_drop]
    have htaken := hs.desk.take hsplit w
    simp only [State.desk, State.work, message_update, List.eraseIdx_eq_take_drop_succ]
    exact htaken
  found := hs.work_found (by simp)
  alive := hs.work_alive (by simp)
  present := hs.present

theorem Safe.serve (hs : Safe s) {w : κ} {m : UffdMsg} (hm : (s.workers w).message = some m)
    {machine : Machine} (hunseen : Unseen s.machine machine) :
    Safe { s.work w .idle with machine := machine, threads := s.wake m.address } := by
  obtain ⟨i, a, hid, hi, rfl⟩ := hs.desk.held w m hm
  rw [hs.wake_eq hi]
  have hbase : machine.base = s.machine.base := funext hunseen.layout.base
  refine ⟨hs.placed.keep hunseen.layout, ?_, ?_, ?_, ?_, hs.work_found (by simp),
    hs.work_alive (by simp), ?_⟩
  · simp only [hbase, hunseen.mappings]
    exact hs.listed.congr fun j => update_mapped_same (by rw [hi]; rfl)
  · intro j page hin hw
    simp only [hunseen.watched] at hw
    by_cases hj : j = i
    · simp only [hj, Function.update_self]
      rfl
    · simp only [Function.update_of_ne hj]
      exact hs.watched j page ((inMapping_keep hunseen.layout).1 hin) hw
  · intro j b hj
    simp only [hbase]
    by_cases heq : j = i
    · simp [heq] at hj
    · simp only [Function.update_of_ne heq] at hj
      exact hs.region j b hj
  · simp only [State.desk, State.work, message_update]
    refine hs.desk.release hm ?_
    rintro m' hne ⟨j, b, hjd, hj, hfault⟩
    have hji : j ≠ i := by
      rintro rfl
      exact hne (hjd.symm.trans hid)
    refine ⟨j, b, hjd, ?_, hfault.trans (fault_keep hunseen.layout).symm⟩
    simp only [Function.update_of_ne hji, hj]
  · intro j
    by_cases heq : j = i
    · simp [heq]
    · simpa only [Function.update_of_ne heq] using hs.present j

/-! ### Runs -/

theorem Safe.step (hs : Safe s) {e : Event n κ} (hstep : Step s e t) : Safe t := by
  cases e with
  | push i =>
    obtain ⟨hi, rfl⟩ := stepThread_eq_some hstep
    exact hs.push hi
  | unprotect i =>
    obtain ⟨hi, rfl⟩ := stepThread_eq_some hstep
    exact hs.unprotect hi
  | register i =>
    obtain ⟨hi, rfl⟩ := stepThread_eq_some hstep
    exact hs.register hi
  | access i offset value =>
    simp only [Step, Concurrency.step] at hstep
    split at hstep
    · rename_i hoffset
      obtain ⟨hi, rfl⟩ := stepThread_eq_some hstep
      exact hs.access hi hoffset value
    · cases hstep
  | resize i newSize =>
    obtain ⟨_, rfl⟩ := stepThread_eq_some hstep
    exact hs.unseen (unseen_resize ..)
  | unregister i =>
    obtain ⟨hi, rfl⟩ := stepThread_eq_some hstep
    exact hs.unregister hi
  | erase i =>
    obtain ⟨hi, rfl⟩ := stepThread_eq_some hstep
    obtain ⟨machine, herased, hsafe⟩ := hs.erase hi
    simpa only [herased] using hsafe
  | readEvent w position =>
    simp only [Step, Concurrency.step] at hstep
    split at hstep
    · rename_i m _ hm
      cases hstep
      exact hs.readEvent hm
    · cases hstep
  | lookup w =>
    simp only [Step, Concurrency.step] at hstep
    split at hstep
    · rename_i m hw
      have hblocked := hs.desk.held w m (by simp [State.desk, hw, Worker.message])
      have hevent : m.event = .pagefault := by
        obtain ⟨i, a, _, _, rfl⟩ := hblocked
        rfl
      rw [hevent, hs.lookup_eq hblocked] at hstep
      cases hstep
      exact hs.work (by simp [hw, Worker.message]) (by simp) (by simp)
    · cases hstep
  | check w =>
    simp only [Step, Concurrency.step] at hstep
    split at hstep
    · rename_i m wmem hw
      have hblocked := hs.desk.held w m (by simp [State.desk, hw, Worker.message])
      have hwmem := hs.found w m wmem (.inl hw)
      rw [if_neg (hwmem ▸ hs.not_strayed hblocked)] at hstep
      cases hstep
      refine hs.work (by simp [hw, Worker.message]) ?_ (by simp)
      intro m' wmem' hm'
      simp only [reduceCtorEq, false_or, Worker.checked.injEq] at hm'
      rw [← hm'.1, ← hm'.2, hwmem]
    · cases hstep
  | serve w =>
    simp only [Step, Concurrency.step] at hstep
    split at hstep
    · rename_i m wmem hw
      split at hstep
      · rename_i machine hreply
        cases hstep
        exact hs.serve (by simp [hw, Worker.message]) (unseen_serve hreply)
      · cases hstep
    · cases hstep

theorem Safe.run (hs : Safe s) {es : List (Event n κ)} (hrun : Run Step s es t) : Safe t :=
  hrun.always Safe (fun _ _ _ hu hstep => hu.step hstep) hs

/-- Before any thread has called `add`. -/
structure Start (s : State n κ) : Prop where
  mappings : s.machine.handler.mappings = []
  watched : ∀ (i : Fin n) (page : Nat), InMapping s.machine i page →
    s.machine.space.watched page = false
  threads : ∀ i, s.threads i = .fresh
  pending : s.pending = []
  workers : ∀ w, s.workers w = .idle

omit [DecidableEq κ] in
theorem safe_start (hplaced : Placed n s.machine) (hstart : Start s) : Safe s where
  placed := hplaced
  listed := by
    rw [hstart.mappings]
    refine ⟨by simp, ?_, List.nodup_nil⟩
    intro i hi
    simp [hstart.threads, Phase.mapped] at hi
  watched := by
    intro i page hin hw
    rw [hstart.watched i page hin] at hw
    cases hw
  region := by simp [hstart.threads]
  desk := by
    have hdesk : s.desk = ⟨[], fun _ => none⟩ := by
      simp [State.desk, hstart.pending, hstart.workers, Worker.message]
    rw [hdesk]
    exact sound_empty
  found := by simp [hstart.workers]
  alive := by simp [hstart.workers]
  present := by simp [hstart.threads]

/-- Whatever the order of the steps: a worker that has read a message finds the
memory of the thread that is blocked in the fault, so it never terminates the
program, `remove` always finds its mapping, and in the end none is left. -/
theorem lookups_find_owners (hplaced : Placed n s.machine) (hstart : Start s)
    {es : List (Event n κ)} (hrun : Run Step s es t) :
    (∀ w m, t.workers w = .read m → ∃ (i : Fin n) (a : Nat), t.threads i = .faulting a ∧
      m = t.fault i a ∧ lookup t.machine m = some i.val ∧
        t.machine.handleOne m = serve t.machine m i) ∧
      (∀ w, t.workers w ≠ .terminated) ∧ (∀ i, t.threads i ≠ .threw) ∧
      ((∀ i, t.threads i = .removed) → t.machine.handler.mappings = []) := by
  have hs := (safe_start hplaced hstart).run hrun
  refine ⟨?_, hs.alive, hs.present, ?_⟩
  · intro w m hw
    have hblocked := hs.desk.held w m (by simp [State.desk, hw, Worker.message])
    have hlookup := hs.lookup_eq hblocked
    have hstrayed := hs.not_strayed hblocked
    obtain ⟨i, a, hid, hi, hfault⟩ := hblocked
    rw [← hid] at hlookup hstrayed
    refine ⟨i, a, hi, hfault, hlookup, ?_⟩
    rw [handleOne_eq _ _ (by rw [hfault]; rfl), hlookup]
    exact if_neg hstrayed
  · intro hdone
    refine List.eq_nil_iff_forall_not_mem.2 ?_
    intro mapping hmem
    obtain ⟨i, _, hi⟩ := hs.listed.entries mapping hmem
    simp [hdone i, Phase.mapped] at hi

/-- Two threads with adjacent memories and one worker. -/
def twoThreads : State 2 Unit where
  machine :=
    { pageBits := 12
      space := ⟨fun _ => false, fun _ => false, fun _ => none⟩
      memories := fun memory => ⟨memory * wmemSize, 4096⟩
      handler := { threadCount := 1, snapshot := none, mappings := [], faults := 0 }
      tid := 0 }
  threads := fun _ => .fresh
  pending := []
  workers := fun _ => .idle

theorem placed_twoThreads : Placed 2 twoThreads.machine where
  aligned := by decide
  apart := by decide

theorem start_twoThreads : Start twoThreads where
  mappings := rfl
  watched := fun _ _ _ => rfl
  threads := fun _ => rfl
  pending := rfl
  workers := fun _ => rfl

/-- One thread faults while the other is in `add`. -/
def addsAndFault : List (Event 2 Unit) :=
  [.push 1, .push 0, .unprotect 0, .register 0, .access 0 5 none, .unprotect 1, .readEvent () 0]

def handledAndRemoved : List (Event 2 Unit) :=
  [.lookup (), .check (), .serve (), .access 0 5 none, .register 1, .unregister 0, .unregister 1,
    .erase 0, .erase 1]

theorem lookups_find_owners_twoThreads :
    ∃ (t u : State 2 Unit) (m : UffdMsg), Run Step twoThreads addsAndFault t ∧
      t.workers () = .read m ∧ lookup t.machine m = some 0 ∧
      Run Step twoThreads (addsAndFault ++ handledAndRemoved) u ∧
      u.machine.handler.mappings = [] := by
  let t := (execute step twoThreads addsAndFault).get (by decide +kernel)
  let u := (execute step twoThreads (addsAndFault ++ handledAndRemoved)).get (by decide +kernel)
  have ht : Run Step twoThreads addsAndFault t := run_of_execute (Option.some_get _).symm
  have hu : Run Step twoThreads (addsAndFault ++ handledAndRemoved) u :=
    run_of_execute (Option.some_get _).symm
  obtain ⟨m, hm⟩ : ∃ m, t.workers () = .read m := ⟨_, rfl⟩
  obtain ⟨i, a, hi, _, hlookup, _⟩ :=
    (lookups_find_owners placed_twoThreads start_twoThreads ht).1 () m hm
  have hzero : i = 0 := by
    by_contra hne
    have hother : t.threads 1 = .unprotected := rfl
    have hone : i = 1 := by omega
    rw [hone, hother] at hi
    cases hi
  subst hzero
  refine ⟨t, u, m, ht, hm, hlookup, hu, ?_⟩
  apply (lookups_find_owners placed_twoThreads start_twoThreads hu).2.2.2
  decide +kernel

end NdpOffload.Faultspeed.Concurrency
