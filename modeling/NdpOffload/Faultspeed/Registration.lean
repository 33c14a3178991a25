import NdpOffload.Faultspeed.Concurrency
import NdpOffload.Faultspeed.Descriptors
import NdpOffload.Library.Extents

/-! `UffdHandler::add` and `remove` of `faultspeed.cpp` where system calls can fail, over
runs in which memories come and go and the kernel gives their addresses out again.  The
result of a system call is an argument here; one that fails changes nothing. -/
namespace NdpOffload.Faultspeed.Registration

open Library.Extents Library.Paging Library.Runs Memory
open Concurrency (pushMapping eraseMapping)
open Descriptors (UserfaultFd Exit)

/-- The machine with one handler, the handler's descriptor, and the memories that live. -/
structure Process where
  machine : Machine
  uffd : UserfaultFd
  live : Nat → Bool

def uffdFeaturePagefaultFlagWp : UInt64 := 1

/-- What `mprotect` and the `ioctl` on the descriptor return. -/
structure Answers where
  mprotect : Int
  ioctl : Int

namespace Process

variable (p : Process)

def mappings : List (Nat × Nat) := p.machine.handler.mappings

def registerAddressRange (start length : Nat) (modeMissing modeWriteProtect : Bool)
    (ioctl : Int) : Exit × Process :=
  if p.uffd.fd < 0 then (.threw "UFFD fd not initialized", p)
  else if ¬ (modeMissing || modeWriteProtect) then
    (.threw "UFFD register call must have at least one mode enabled", p)
  else if modeWriteProtect ∧ p.uffd.api.features &&& uffdFeaturePagefaultFlagWp = 0 then
    (.threw "WriteProtect mode on UFFD not supported", p)
  else if ioctl < 0 then (.threw "Couldn't register an address range with UFFD", p)
  else (.returned, { p with machine := p.machine.registerAddressRange start length })

def unregisterAddressRange (start length : Nat) (ioctl : Int) : Exit × Process :=
  if p.uffd.fd < 0 then (.threw "UFFD fd not initialized", p)
  else if ioctl < 0 then (.threw "Couldn't unregister an address range from UFFD", p)
  else (.returned, { p with machine := Concurrency.unregisterAddressRange p.machine start length })

def add (wmem : Nat) (answers : Answers) : Exit × Process :=
  let addr := p.machine.base wmem
  let pushed := { p with machine := pushMapping p.machine wmem }
  if answers.mprotect < 0 then
    (.threw "Couldn't unprotect memory range when enabling UFFD", pushed)
  else
    let unprotected := { pushed with machine := pushed.machine.mprotect addr (wmemSize / 2) true }
    unprotected.registerAddressRange addr wmemSize true false answers.ioctl

def remove (wmem : Nat) (ioctl : Int) : Exit × Process :=
  match p.unregisterAddressRange (p.machine.base wmem) wmemSize ioctl with
  | (.threw what, q) => (.threw what, q)
  | (.returned, q) =>
      match eraseMapping q.machine wmem with
      | none => (.threw "WMemory already missing from UFFD", q)
      | some machine => (.returned, { q with machine })

/-- The constructor of `WMemory`. -/
def construct (wmem base : Nat) : Process :=
  { p with
    machine := p.machine.construct wmem base
    live := Function.update p.live wmem true }

/-- The destructor; nothing is left of the pages. -/
def destroy (wmem : Nat) : Process :=
  let unmapped := p.machine.mmapNone (p.machine.base wmem) wmemSize
  { p with
    machine := { unmapped with
      memories := Function.update unmapped.memories wmem ⟨0, unmapped.size wmem⟩ }
    live := Function.update p.live wmem false }

end Process

inductive Event where
  | construct (wmem base : Nat)
  | add (wmem : Nat) (answers : Answers)
  | remove (wmem : Nat) (ioctl : Int)
  | destroy (wmem : Nat)

/-- The kernel maps a new memory where no living one is; the calls are on living ones. -/
def Allowed (p : Process) : Event → Prop
  | .construct wmem base => p.live wmem = false ∧ base ≠ 0 ∧ ∀ other, p.live other = true →
      Extent.Apart ⟨base, wmemSize⟩ ⟨p.machine.base other, wmemSize⟩
  | .add wmem _ | .remove wmem _ | .destroy wmem => p.live wmem = true

def perform (p : Process) : Event → Process
  | .construct wmem base => p.construct wmem base
  | .add wmem answers => (p.add wmem answers).2
  | .remove wmem ioctl => (p.remove wmem ioctl).2
  | .destroy wmem => p.destroy wmem

def Step (p : Process) (e : Event) (q : Process) : Prop := Allowed p e ∧ perform p e = q

/-- A new handler, before there is any memory. -/
def Process.start (machine : Machine) (uffd : UserfaultFd) : Process where
  machine := { machine with
    space := { machine.space with watched := fun _ => false }
    handler := { machine.handler with mappings := [] } }
  uffd
  live := fun _ => false

/-! ### What is asked of the two calls -/

def AddKeeps (p : Process) (wmem : Nat) (answers : Answers) : Prop :=
  ∀ what, (p.add wmem answers).1 = .threw what → (p.add wmem answers).2.mappings = p.mappings

def RemoveKeeps (p : Process) (wmem : Nat) (ioctl : Int) : Prop :=
  ∀ what, (p.remove wmem ioctl).1 = .threw what →
    (p.remove wmem ioctl).2.mappings = p.mappings ∧
      (p.remove wmem ioctl).2.machine.space.watched = p.machine.space.watched

/-- Every entry is that of a living memory, and no two overlap. -/
structure Clean (p : Process) : Prop where
  live : ∀ mapping ∈ p.mappings,
    p.live mapping.2 = true ∧ mapping.1 = p.machine.base mapping.2
  apart : p.mappings.Pairwise fun a b => Extent.Apart ⟨a.1, wmemSize⟩ ⟨b.1, wmemSize⟩

/-- No system call of `add` fails. -/
def Succeeds (p : Process) (answers : Answers) : Prop :=
  0 ≤ answers.mprotect ∧ 0 ≤ p.uffd.fd ∧ 0 ≤ answers.ioctl

/-- The kernel unregisters what the vector does not have. -/
def Unmatched (p : Process) (wmem : Nat) (ioctl : Int) : Prop :=
  0 ≤ p.uffd.fd ∧ 0 ≤ ioctl ∧ (∀ mapping ∈ p.mappings, mapping.1 ≠ p.machine.base wmem) ∧
    ∃ page, covers p.machine.pageSize (p.machine.base wmem) wmemSize page = true ∧
      p.machine.space.watched page = true

def Process.Lists (p : Process) (wmem : Nat) : Prop := ∃ mapping ∈ p.mappings, mapping.2 = wmem

/-- A memory is not added again, nor destroyed, while the vector has it. -/
def Unlisted (p : Process) : Event → Prop
  | .add wmem _ | .destroy wmem => ¬ p.Lists wmem
  | _ => True

variable {p q : Process} {wmem : Nat}

/-! ### `add` -/

/-- However `add` ends, the entry is in the vector. -/
theorem add_mappings (answers : Answers) :
    (p.add wmem answers).2.mappings = p.mappings ++ [(p.machine.base wmem, wmem)] := by
  simp only [Process.add, Process.registerAddressRange]
  split
  · rfl
  · repeat' (split; rfl)
    rfl

theorem add_frame (p : Process) (wmem : Nat) (answers : Answers) :
    (p.add wmem answers).2.machine.memories = p.machine.memories ∧
      (p.add wmem answers).2.live = p.live := by
  simp only [Process.add, Process.registerAddressRange]
  split
  · exact ⟨rfl, rfl⟩
  · repeat' (split; exact ⟨rfl, rfl⟩)
    exact ⟨rfl, rfl⟩

theorem add_returned_iff (wmem : Nat) {answers : Answers} :
    (p.add wmem answers).1 = .returned ↔ Succeeds p answers := by
  simp only [Process.add, Process.registerAddressRange, Succeeds]
  split
  · simp only [reduceCtorEq, false_iff]
    omega
  · split
    · simp only [reduceCtorEq, false_iff]
      omega
    · simp only [Bool.true_or, not_true_eq_false, ↓reduceIte, Bool.false_eq_true, false_and]
      split
      · simp only [reduceCtorEq, false_iff]
        omega
      · simp only [true_iff]
        omega

/-- Without failures, `add` is that of `Memory`. -/
theorem add_machine {answers : Answers} (hsucceeds : Succeeds p answers) :
    (p.add wmem answers).2.machine = p.machine.add wmem := by
  obtain ⟨hmprotect, hfd, hioctl⟩ := hsucceeds
  simp only [Process.add, Process.registerAddressRange, if_neg (Int.not_lt.mpr hmprotect),
    if_neg (Int.not_lt.mpr hfd), if_neg (Int.not_lt.mpr hioctl), Concurrency.add_eq]
  simp

theorem add_keeps_iff (answers : Answers) : AddKeeps p wmem answers ↔ Succeeds p answers := by
  rw [AddKeeps, add_mappings, ← add_returned_iff wmem]
  constructor
  · intro hkeeps
    cases hexit : (p.add wmem answers).1 with
    | returned => rfl
    | threw what =>
      have hlength := congrArg List.length (hkeeps what hexit)
      simp at hlength
  · intro hreturned what hthrew
    rw [hreturned] at hthrew
    cases hthrew

/-! ### `remove` -/

/-- After the system call of `remove`. -/
def Process.unregistered (p : Process) (wmem : Nat) : Process :=
  { p with
    machine := Concurrency.unregisterAddressRange p.machine (p.machine.base wmem) wmemSize }

/-- After the `erase` of `remove`. -/
def Process.erased (p : Process) (wmem : Nat) : Process :=
  let machine := (p.unregistered wmem).machine
  { p with
    machine := { machine with
      handler := { machine.handler with
        mappings := p.mappings.eraseP fun mapping =>
          decide (mapping.1 = p.machine.base wmem) } } }

theorem remove_failed (wmem : Nat) {ioctl : Int} (hfails : ¬ (0 ≤ p.uffd.fd ∧ 0 ≤ ioctl)) :
    ∃ what, p.remove wmem ioctl = (.threw what, p) := by
  rw [Process.remove, Process.unregisterAddressRange]
  by_cases hfd : p.uffd.fd < 0
  · rw [if_pos hfd]
    exact ⟨_, rfl⟩
  · rw [if_neg hfd, if_pos (by omega)]
    exact ⟨_, rfl⟩

theorem eraseMapping_unregistered (p : Process) (wmem : Nat) :
    eraseMapping (p.unregistered wmem).machine wmem =
      if (p.mappings.any fun mapping => decide (mapping.1 = p.machine.base wmem)) = true then
        some (p.erased wmem).machine
      else none := rfl

theorem remove_unregistered {ioctl : Int} (hsucceeds : 0 ≤ p.uffd.fd ∧ 0 ≤ ioctl) :
    p.remove wmem ioctl =
      if (p.mappings.any fun mapping => decide (mapping.1 = p.machine.base wmem)) = true then
        (.returned, p.erased wmem)
      else (.threw "WMemory already missing from UFFD", p.unregistered wmem) := by
  have hunregister : p.unregisterAddressRange (p.machine.base wmem) wmemSize ioctl =
      (.returned, p.unregistered wmem) := by
    rw [Process.unregisterAddressRange, if_neg (Int.not_lt.mpr hsucceeds.1),
      if_neg (Int.not_lt.mpr hsucceeds.2)]
    rfl
  rw [Process.remove, hunregister]
  dsimp only
  rw [eraseMapping_unregistered]
  by_cases hany : (p.mappings.any fun mapping => decide (mapping.1 = p.machine.base wmem)) = true
  · rw [if_pos hany, if_pos hany]
    rfl
  · rw [if_neg hany, if_neg hany]

theorem unwatch_watched_iff (pageSize start length : Nat) (space : Space UInt8) :
    (space.unwatch pageSize start length).watched = space.watched ↔
      ¬ ∃ page, covers pageSize start length page = true ∧ space.watched page = true := by
  simp only [Space.unwatch, funext_iff, not_exists, not_and]
  refine forall_congr' fun page => ?_
  by_cases hcovered : covers pageSize start length page = true
  · cases space.watched page <;> simp [hcovered]
  · simp [hcovered]

theorem remove_keeps_iff (ioctl : Int) : RemoveKeeps p wmem ioctl ↔ ¬ Unmatched p wmem ioctl := by
  have hany : (p.mappings.any fun mapping => decide (mapping.1 = p.machine.base wmem)) = true ↔
      ¬ ∀ mapping ∈ p.mappings, mapping.1 ≠ p.machine.base wmem := by
    simp
  by_cases hsucceeds : 0 ≤ p.uffd.fd ∧ 0 ≤ ioctl
  · rw [RemoveKeeps, remove_unregistered hsucceeds]
    split
    · rename_i hfound
      refine iff_of_true nofun fun hunmatched => ?_
      exact hany.mp hfound hunmatched.2.2.1
    · rename_i hmissing
      rw [hany, not_not] at hmissing
      have hsame := unwatch_watched_iff p.machine.pageSize (p.machine.base wmem) wmemSize
        p.machine.space
      constructor
      · rintro hkeeps ⟨_, _, _, hwatched⟩
        exact hsame.mp (hkeeps _ rfl).2 hwatched
      · intro hmatched what _
        refine ⟨rfl, hsame.mpr fun hwatched => hmatched ?_⟩
        exact ⟨hsucceeds.1, hsucceeds.2, hmissing, hwatched⟩
  · obtain ⟨what, hremove⟩ := remove_failed wmem hsucceeds
    rw [RemoveKeeps, hremove]
    exact iff_of_true (fun _ _ => ⟨rfl, rfl⟩) fun hunmatched =>
      hsucceeds ⟨hunmatched.1, hunmatched.2.1⟩

theorem remove_frame (p : Process) (wmem : Nat) (ioctl : Int) :
    (p.remove wmem ioctl).2.machine.memories = p.machine.memories ∧
      (p.remove wmem ioctl).2.live = p.live ∧
      (p.remove wmem ioctl).2.mappings.Sublist p.mappings := by
  by_cases hsucceeds : 0 ≤ p.uffd.fd ∧ 0 ≤ ioctl
  · rw [remove_unregistered hsucceeds]
    split
    · exact ⟨rfl, rfl, List.eraseP_sublist⟩
    · exact ⟨rfl, rfl, List.Sublist.refl _⟩
  · obtain ⟨what, hremove⟩ := remove_failed wmem hsucceeds
    rw [hremove]
    exact ⟨rfl, rfl, List.Sublist.refl _⟩

/-! ### Runs -/

/-- The living memories lie apart from each other. -/
def Placed (p : Process) : Prop :=
  ∀ wmem other, p.live wmem = true → p.live other = true → wmem ≠ other →
    Extent.Apart ⟨p.machine.base wmem, wmemSize⟩ ⟨p.machine.base other, wmemSize⟩

theorem base_eq {m m' : Machine} (hmemories : m'.memories = m.memories) (wmem : Nat) :
    m'.base wmem = m.base wmem := by rw [Machine.base, Machine.base, hmemories]

theorem Placed.congr (hp : Placed p) (hmemories : q.machine.memories = p.machine.memories)
    (hlive : q.live = p.live) : Placed q := by
  intro wmem other hwmem hother
  rw [hlive] at hwmem hother
  rw [base_eq hmemories, base_eq hmemories]
  exact hp wmem other hwmem hother

theorem base_construct {base other : Nat} : (p.construct wmem base).machine.base other =
    if other = wmem then base else p.machine.base other := by
  simp only [Process.construct, Machine.construct, Machine.mmapNone, Machine.base,
    Function.update_apply]
  split <;> rfl

theorem base_destroy {other : Nat} (hne : other ≠ wmem) :
    (p.destroy wmem).machine.base other = p.machine.base other := by
  simp only [Process.destroy, Machine.mmapNone, Machine.base, Function.update_of_ne hne]

/-- A memory that lives is not one that does not. -/
theorem ne_of_live {other : Nat} (hdead : p.live wmem = false) (hlive : p.live other = true) :
    other ≠ wmem := by
  rintro rfl
  rw [hdead] at hlive
  cases hlive

theorem live_construct {base other : Nat} (hne : other ≠ wmem) :
    (p.construct wmem base).live other = p.live other := Function.update_of_ne hne ..

theorem live_destroy {other : Nat} (hne : other ≠ wmem) :
    (p.destroy wmem).live other = p.live other := Function.update_of_ne hne ..

theorem dead_destroy : (p.destroy wmem).live wmem = false := Function.update_self ..

theorem Placed.construct (hp : Placed p) {base : Nat}
    (hallowed : Allowed p (.construct wmem base)) : Placed (p.construct wmem base) := by
  obtain ⟨_, _, hapart⟩ := hallowed
  have hold : ∀ other, other ≠ wmem → (p.construct wmem base).live other = true →
      p.live other = true := fun other hne hother => (live_construct hne).symm.trans hother
  intro first second hfirst hsecond hne
  rw [base_construct, base_construct]
  by_cases h₁ : first = wmem
  · have h₂ : second ≠ wmem := fun h => hne (h₁.trans h.symm)
    rw [if_pos h₁, if_neg h₂]
    exact hapart second (hold second h₂ hsecond)
  · rw [if_neg h₁]
    by_cases h₂ : second = wmem
    · rw [if_pos h₂]
      exact (hapart first (hold first h₁ hfirst)).symm
    · rw [if_neg h₂]
      exact hp first second (hold first h₁ hfirst) (hold second h₂ hsecond) hne

theorem Placed.destroy (hp : Placed p) : Placed (p.destroy wmem) := by
  have hold : ∀ other, (p.destroy wmem).live other = true → other ≠ wmem ∧ p.live other = true := by
    intro other hother
    have hne := ne_of_live dead_destroy hother
    exact ⟨hne, (live_destroy hne).symm.trans hother⟩
  intro first second hfirst hsecond hne
  obtain ⟨h₁, hfirst⟩ := hold first hfirst
  obtain ⟨h₂, hsecond⟩ := hold second hsecond
  rw [base_destroy h₁, base_destroy h₂]
  exact hp first second hfirst hsecond hne

theorem Placed.step (hp : Placed p) {e : Event} (hstep : Step p e q) : Placed q := by
  obtain ⟨hallowed, rfl⟩ := hstep
  cases e with
  | construct wmem base => exact hp.construct hallowed
  | add wmem answers => exact hp.congr (add_frame p wmem answers).1 (add_frame p wmem answers).2
  | remove wmem ioctl => exact hp.congr (remove_frame p wmem ioctl).1 (remove_frame p wmem ioctl).2.1
  | destroy wmem => exact hp.destroy

/-! ### Clean vectors -/

theorem Clean.keep (hp : Clean p) (hmappings : q.mappings.Sublist p.mappings)
    (hsame : ∀ mapping ∈ q.mappings,
      q.live mapping.2 = p.live mapping.2 ∧
        q.machine.base mapping.2 = p.machine.base mapping.2) : Clean q where
  live := fun mapping hmapping => by
    obtain ⟨hlive, hbase⟩ := hsame mapping hmapping
    rw [hlive, hbase]
    exact hp.live mapping (hmappings.subset hmapping)
  apart := hp.apart.sublist hmappings

theorem Clean.add (hp : Clean p) (hplaced : Placed p) (hlive : p.live wmem = true)
    (hunlisted : ¬ p.Lists wmem) (answers : Answers) : Clean (p.add wmem answers).2 := by
  obtain ⟨hmemories, hsame⟩ := add_frame p wmem answers
  constructor
  · intro mapping hmapping
    rw [add_mappings, List.mem_append, List.mem_singleton] at hmapping
    rw [hsame, base_eq hmemories]
    rcases hmapping with hold | rfl
    · exact hp.live mapping hold
    · exact ⟨hlive, rfl⟩
  · rw [add_mappings, List.pairwise_append]
    refine ⟨hp.apart, List.pairwise_singleton _ _, fun mapping hmapping last hlast => ?_⟩
    rw [List.mem_singleton.mp hlast]
    obtain ⟨holds, hbase⟩ := hp.live mapping hmapping
    rw [hbase]
    exact hplaced _ _ holds hlive fun heq => hunlisted ⟨mapping, hmapping, heq⟩

theorem Clean.step (hp : Clean p) (hplaced : Placed p) {e : Event} (hstep : Step p e q)
    (hunlisted : Unlisted p e) : Clean q := by
  obtain ⟨hallowed, rfl⟩ := hstep
  cases e with
  | construct wmem base =>
    refine hp.keep (List.Sublist.refl _) fun mapping hmapping => ?_
    have hne := ne_of_live hallowed.1 (hp.live mapping hmapping).1
    exact ⟨live_construct hne, base_construct.trans (if_neg hne)⟩
  | add wmem answers => exact hp.add hplaced hallowed hunlisted answers
  | remove wmem ioctl =>
    obtain ⟨hmemories, hlive, hmappings⟩ := remove_frame p wmem ioctl
    exact hp.keep hmappings fun mapping _ => ⟨congrFun hlive _, base_eq hmemories _⟩
  | destroy wmem =>
    refine hp.keep (List.Sublist.refl _) fun mapping hmapping => ?_
    have hne : mapping.2 ≠ wmem := fun heq => hunlisted ⟨mapping, hmapping, heq⟩
    exact ⟨live_destroy hne, base_destroy hne⟩

/-- A vector that is clean after a call had no entry of the memory that was added, or
destroyed. -/
theorem Clean.unlisted (hp : Clean p) {e : Event} (hstep : Step p e q) (hq : Clean q) :
    Unlisted p e := by
  obtain ⟨hallowed, rfl⟩ := hstep
  cases e with
  | construct wmem base => trivial
  | add wmem answers =>
    rintro ⟨mapping, hmapping, rfl⟩
    have hapart : (p.add mapping.2 answers).2.mappings.Pairwise _ := hq.apart
    rw [add_mappings, List.pairwise_append] at hapart
    have htwice := hapart.2.2 mapping hmapping _ (List.mem_singleton_self _)
    rw [(hp.live mapping hmapping).2] at htwice
    exact Extent.not_apart_self (show 0 < wmemSize by decide) htwice
  | remove wmem ioctl => trivial
  | destroy wmem =>
    rintro ⟨mapping, hmapping, rfl⟩
    exact ne_of_live dead_destroy (hq.live mapping hmapping).1 rfl

structure Tended (p : Process) : Prop where
  clean : Clean p
  placed : Placed p

theorem tended_start (machine : Machine) (uffd : UserfaultFd) : Tended (.start machine uffd) where
  clean := ⟨nofun, List.Pairwise.nil⟩
  placed := nofun

theorem clean_along_iff (machine : Machine) (uffd : UserfaultFd) (es : List Event) :
    Along Step (.start machine uffd) es Clean ↔
      EachStep Step (.start machine uffd) es fun p e _ => Unlisted p e := by
  apply along_iff_eachStep _ _ _ es (tended_start machine uffd)
  · exact fun p hp => hp.clean
  · exact fun p e q hp hstep hunlisted =>
      ⟨hp.clean.step hp.placed hstep hunlisted, hp.placed.step hstep⟩
  · exact fun p e q hp hstep hq => hp.clean.unlisted hstep hq

/-! ### What the kernel watches -/

def Process.page (p : Process) (wmem page : Nat) : Prop :=
  covers p.machine.pageSize (p.machine.base wmem) wmemSize page = true

/-- What is registered belongs to a living memory, whose base the vector has. -/
def Watching (p : Process) : Prop :=
  ∀ page, p.machine.space.watched page = true →
    ∃ wmem, p.live wmem = true ∧ p.page wmem page ∧
      ∃ mapping ∈ p.mappings, mapping.1 = p.machine.base wmem

/-- No page belongs to two memories. -/
theorem Placed.page_unique (hp : Placed p) {other page : Nat} (hwmem : p.live wmem = true)
    (hother : p.live other = true) (hpage : p.page wmem page) (hpage' : p.page other page) :
    wmem = other := by
  by_contra hne
  simp only [Process.page, covers, Bool.and_eq_true, decide_eq_true_eq] at hpage hpage'
  exact hp wmem other hwmem hother hne _ hpage hpage'

theorem Watching.keep (hp : Watching p) (hbits : q.machine.pageSize = p.machine.pageSize)
    (hkeeps : ∀ page, q.machine.space.watched page = true → p.machine.space.watched page = true ∧
      ∀ wmem, p.live wmem = true → p.page wmem page →
        q.live wmem = true ∧ q.machine.base wmem = p.machine.base wmem ∧
        ∀ mapping ∈ p.mappings, mapping.1 = p.machine.base wmem → mapping ∈ q.mappings) :
    Watching q := by
  intro page hwatched
  obtain ⟨hbefore, hsame⟩ := hkeeps page hwatched
  obtain ⟨wmem, hlive, hpage, mapping, hmapping, hbase⟩ := hp page hbefore
  obtain ⟨hlive', hbase', hentries⟩ := hsame wmem hlive hpage
  refine ⟨wmem, hlive', ?_, mapping, hentries mapping hmapping hbase, hbase.trans hbase'.symm⟩
  rw [Process.page, hbits, hbase']
  exact hpage

theorem Watching.construct (hp : Watching p) {base : Nat} (hnew : p.live wmem = false) :
    Watching (p.construct wmem base) := by
  refine hp.keep rfl fun page hwatched => ?_
  simp only [Process.construct, Machine.construct, Machine.mmapNone, Space.remap] at hwatched
  split at hwatched
  · cases hwatched
  · refine ⟨hwatched, fun other hlive _ => ?_⟩
    have hne := ne_of_live hnew hlive
    exact ⟨(live_construct hne).trans hlive, base_construct.trans (if_neg hne),
      fun mapping hmapping _ => hmapping⟩

theorem Watching.destroy (hp : Watching p) : Watching (p.destroy wmem) := by
  refine hp.keep rfl fun page hwatched => ?_
  simp only [Process.destroy, Machine.mmapNone, Space.remap] at hwatched
  split at hwatched
  · cases hwatched
  · rename_i houtside
    refine ⟨hwatched, fun other hlive hpage => ?_⟩
    have hne : other ≠ wmem := by
      rintro rfl
      exact houtside hpage
    exact ⟨(live_destroy hne).trans hlive, base_destroy hne,
      fun mapping hmapping _ => hmapping⟩

theorem add_space (p : Process) (wmem : Nat) (answers : Answers) :
    (p.add wmem answers).2.machine.pageSize = p.machine.pageSize ∧
      ∀ page, (p.add wmem answers).2.machine.space.watched page = true →
        p.page wmem page ∨ p.machine.space.watched page = true := by
  simp only [Process.add, Process.registerAddressRange]
  split
  · exact ⟨rfl, fun page hwatched => .inr hwatched⟩
  · repeat' (split; exact ⟨rfl, fun page hwatched => .inr hwatched⟩)
    refine ⟨rfl, fun page hwatched => ?_⟩
    change (if covers p.machine.pageSize (p.machine.base wmem) wmemSize page = true then true
      else p.machine.space.watched page) = true at hwatched
    split at hwatched
    · rename_i hpage
      exact .inl hpage
    · exact .inr hwatched

theorem Watching.add (hp : Watching p) (hlive : p.live wmem = true) (answers : Answers) :
    Watching (p.add wmem answers).2 := by
  obtain ⟨hmemories, hsame⟩ := add_frame p wmem answers
  obtain ⟨hbits, hspace⟩ := add_space p wmem answers
  have hpage : ∀ other page, p.page other page → (p.add wmem answers).2.page other page := by
    intro other page hpage
    rw [Process.page, hbits, base_eq hmemories]
    exact hpage
  intro page hwatched
  rw [hsame]
  rcases hspace page hwatched with hnew | hold
  · refine ⟨wmem, hlive, hpage wmem page hnew, (p.machine.base wmem, wmem), ?_, ?_⟩
    · rw [add_mappings]
      exact List.mem_append_right _ (List.mem_singleton_self _)
    · exact (base_eq hmemories wmem).symm
  · obtain ⟨other, hother, hpage', mapping, hmapping, hbase⟩ := hp page hold
    refine ⟨other, hother, hpage other page hpage', mapping, ?_, ?_⟩
    · rw [add_mappings]
      exact List.mem_append_left _ hmapping
    · exact hbase.trans (base_eq hmemories other).symm

theorem Watching.remove (hp : Watching p) (hplaced : Placed p) (hlive : p.live wmem = true)
    (ioctl : Int) : Watching (p.remove wmem ioctl).2 := by
  by_cases hsucceeds : 0 ≤ p.uffd.fd ∧ 0 ≤ ioctl
  · have hkeeps : ∀ page, (p.unregistered wmem).machine.space.watched page = true →
        p.machine.space.watched page = true ∧ ¬ p.page wmem page := by
      intro page hwatched
      simp only [Process.unregistered, Concurrency.unregisterAddressRange, Space.unwatch]
        at hwatched
      split at hwatched
      · cases hwatched
      · rename_i houtside
        exact ⟨hwatched, houtside⟩
    rw [remove_unregistered hsucceeds]
    split
    · refine hp.keep rfl fun page hwatched => ?_
      obtain ⟨hbefore, houtside⟩ := hkeeps page hwatched
      refine ⟨hbefore, fun other hother hpage => ⟨hother, rfl, fun mapping hmapping hbase => ?_⟩⟩
      have hne : other ≠ wmem := by
        rintro rfl
        exact houtside hpage
      -- the entry that is erased has another base
      apply (List.mem_eraseP_of_neg _).mpr hmapping
      rw [decide_eq_true_iff, hbase]
      intro heq
      have hapart := hplaced other wmem hother hlive hne
      rw [heq] at hapart
      exact Extent.not_apart_self (show 0 < wmemSize by decide) hapart
    · refine hp.keep rfl fun page hwatched => ?_
      exact ⟨(hkeeps page hwatched).1, fun other hother _ => ⟨hother, rfl, fun _ h _ => h⟩⟩
  · obtain ⟨what, hremove⟩ := remove_failed wmem hsucceeds
    rw [hremove]
    exact hp

theorem Watching.step (hp : Watching p) (hplaced : Placed p) {e : Event} (hstep : Step p e q) :
    Watching q := by
  obtain ⟨hallowed, rfl⟩ := hstep
  cases e with
  | construct wmem base => exact hp.construct hallowed.1
  | add wmem answers => exact hp.add hallowed answers
  | remove wmem ioctl => exact hp.remove hplaced hallowed ioctl
  | destroy wmem => exact hp.destroy

theorem watching_start (machine : Machine) (uffd : UserfaultFd) : Watching (.start machine uffd) :=
  nofun

/-- In a run, every `remove` is all or nothing: where an entry is missing, nothing is
registered. -/
theorem removes_keep (machine : Machine) (uffd : UserfaultFd) (es : List Event) :
    EachStep Step (.start machine uffd) es fun p e _ =>
      ∀ wmem ioctl, e = .remove wmem ioctl → RemoveKeeps p wmem ioctl := by
  rintro front _ p q _ hrun ⟨hlive, _⟩ wmem ioctl rfl
  have hstart : Watching (.start machine uffd) ∧ Placed (.start machine uffd) :=
    ⟨watching_start machine uffd, (tended_start machine uffd).placed⟩
  obtain ⟨hwatching, hplaced⟩ : Watching p ∧ Placed p :=
    hrun.always (fun p => Watching p ∧ Placed p)
      (fun p e q hp hstep => ⟨hp.1.step hp.2 hstep, hp.2.step hstep⟩) hstart
  rw [remove_keeps_iff]
  rintro ⟨_, _, hmissing, page, hpage, hwatched⟩
  obtain ⟨owner, howner, hpage', mapping, hmapping, hbase⟩ := hwatching page hwatched
  have hsame : wmem = owner := hplaced.page_unique hlive howner hpage hpage'
  rw [← hsame] at hbase
  exact hmissing mapping hmapping hbase

/-- `add` leaves its entry behind whenever it throws; `remove` has unregistered the range
when it misses the entry.  The vector stays clean exactly as long as no memory is added or
destroyed that it still has. -/
theorem registration_iff (p : Process) (wmem : Nat) (answers : Answers) (ioctl : Int)
    (machine : Machine) (uffd : UserfaultFd) (es : List Event) :
    (AddKeeps p wmem answers ↔ Succeeds p answers) ∧
    (RemoveKeeps p wmem ioctl ↔ ¬ Unmatched p wmem ioctl) ∧
    (Along Step (.start machine uffd) es Clean ↔
      EachStep Step (.start machine uffd) es fun p e _ => Unlisted p e) :=
  ⟨add_keeps_iff answers, remove_keeps_iff ioctl, clean_along_iff machine uffd es⟩

/-- Nothing is mapped, and nothing is added. -/
def emptyMachine : Machine where
  pageBits := 12
  space := { accessible := fun _ => false, watched := fun _ => false, frame := fun _ => none }
  memories := fun _ => ⟨0, 0⟩
  handler := { threadCount := 1, snapshot := none, mappings := [], faults := 0 }
  tid := 0

def emptyProcess : Process := .start emptyMachine { fd := 3 }

/-- The range of the first memory cannot be registered, and the second has its address. -/
def reuse : List Event :=
  [.construct 0 65536, .add 0 ⟨0, -1⟩, .destroy 0, .construct 1 65536, .add 1 ⟨0, 0⟩]

/-- The failed `add` leaves an entry that the lookup of the handler finds first, in place of
that of the memory at the address. -/
theorem stale_entry :
    ¬ AddKeeps (emptyProcess.construct 0 65536) 0 ⟨0, -1⟩ ∧
      ∃ q, Run Step emptyProcess reuse q ∧ q.mappings = [(65536, 0), (65536, 1)] ∧
        q.live 0 = false ∧ q.live 1 = true ∧ q.machine.base 1 = 65536 ∧
        Concurrency.lookup q.machine (Machine.faultMsg q.machine 65536) = some 0 ∧ ¬ Clean q := by
  have hmappings : (reuse.foldl perform emptyProcess).mappings = [(65536, 0), (65536, 1)] := rfl
  have hdead : (reuse.foldl perform emptyProcess).live 0 = false := rfl
  refine ⟨fun hkeeps => ?_, reuse.foldl perform emptyProcess, ?_, hmappings, hdead, rfl, rfl, ?_,
    fun hclean => ?_⟩
  · exact absurd (hkeeps _ rfl) (by decide)
  · refine .cons ⟨⟨rfl, by decide, nofun⟩, rfl⟩ ?_
    refine .cons ⟨rfl, rfl⟩ (.cons ⟨rfl, rfl⟩ ?_)
    refine .cons ⟨⟨rfl, by decide, fun other hother => ?_⟩, rfl⟩ (.cons ⟨rfl, rfl⟩ (.nil _))
    match other with
    | 0 => cases hother
    | _ + 1 => cases hother
  · decide
  · have hlive := (hclean.live (65536, 0) (by rw [hmappings]; decide)).1
    rw [hdead] at hlive
    cases hlive

end NdpOffload.Faultspeed.Registration
