import NdpOffload.Library.Ownership
import NdpOffload.Library.Runs

/-! `UserfaultFd` of `faultspeed.cpp`, which owns a file descriptor.  Any number of
objects live beside each other, named by number where the source has references; the
kernel numbers what it opens as it likes, but never with a number that is open. -/
namespace NdpOffload.Faultspeed.Descriptors

open Library.Ownership Library.Runs

/-- `struct uffdio_api` -/
structure UffdioApi where
  api : UInt64 := 0
  features : UInt64 := 0
  ioctls : UInt64 := 0
  deriving DecidableEq

def uffdApi : UInt64 := 0xAA

def uffdFeatureSigbus : UInt64 := 0x80

def uffdFeatureThreadId : UInt64 := 0x100

structure UserfaultFd where
  fd : Int := -1
  api : UffdioApi := {}
  deriving DecidableEq

/-- The objects that live, and the table of open files of the process.  The descriptors
are counted as they are created. -/
structure World where
  objects : Nat → Option UserfaultFd := fun _ => none
  files : Int → Option Nat := fun _ => none
  created : Nat := 0
  released : Nat → Bool := fun _ => false
  closings : Nat → Nat := fun _ => 0

/-- The answers of the kernel to `SYS_userfaultfd` and to `UFFDIO_API`, which also writes
the structure it is given. -/
structure Kernel where
  userfaultfd : Int → Int
  handshake : Int → UffdioApi → Int × UffdioApi

/-- How a member function ends. -/
inductive Exit where
  | returned
  | threw (what : String)
  deriving DecidableEq

namespace World

variable (w : World)

def put (this : Nat) (object : Option UserfaultFd) : World :=
  { w with objects := Function.update w.objects this object }

/-- `close(fd)`, which fails on a number that is not open. -/
def close (fd : Int) : World :=
  match w.files fd with
  | none => w
  | some descriptor =>
      { w with
        files := Function.update w.files fd none
        closings := Function.update w.closings descriptor (w.closings descriptor + 1) }

/-- The kernel opens a descriptor under the number `fd`. -/
def opened (fd : Int) : World :=
  { w with files := Function.update w.files fd (some w.created), created := w.created + 1 }

/-- `operator=(UserfaultFd &&other)`.  The second pair of assignments is what remains of
an object that is moved to itself. -/
def moveAssign (this other : Nat) (source : UserfaultFd) : World :=
  (w.put this (some { fd := source.fd, api := source.api })).put other (some {})

def clear (this : Nat) (object : UserfaultFd) : World :=
  if 0 ≤ object.fd then (w.close object.fd).put this (some {}) else w

/-- The pair that is returned, and the number in it is another's from now on. -/
def release (this : Nat) (object : UserfaultFd) : (Int × UffdioApi) × World :=
  let handed := match w.files object.fd with
    | none => w
    | some descriptor => { w with released := Function.update w.released descriptor true }
  ((object.fd, object.api), handed.put this (some {}))

/-- What `create` asks of the kernel in `UFFDIO_API`. -/
def request (sigbus : Bool) : UffdioApi where
  api := uffdApi
  features := if sigbus then uffdFeatureThreadId ||| uffdFeatureSigbus else uffdFeatureThreadId
  ioctls := 0

def create (this : Nat) (object : UserfaultFd) (flags : Int) (sigbus : Bool) (k : Kernel) :
    Exit × World :=
  let cleared := w.clear this object
  let result := k.userfaultfd flags
  if result < 0 then (.threw "Couldn't create userfaultfd", cleared)
  else
    let (answer, api) := k.handshake result (request sigbus)
    let held := (cleared.opened result).put this (some { fd := result, api })
    if answer < 0 then (.threw "Couldn't handshake userfaultfd api", held) else (.returned, held)

def destroy (this : Nat) (object : UserfaultFd) : World :=
  (w.clear this object).put this none

end World

inductive Event where
  | construct (this : Nat)
  | create (this : Nat) (flags : Int) (sigbus : Bool) (k : Kernel)
  | moveConstruct (this other : Nat)
  | moveAssign (this other : Nat)
  | clear (this : Nat)
  | release (this : Nat)
  | destroy (this : Nat)

/-- One call.  Objects are constructed where there is none, all else is done to objects
that live, and a number that the kernel gives out is not open. -/
def perform (w : World) : Event → Option World
  | .construct this => if (w.objects this).isNone then some (w.put this (some {})) else none
  | .create this flags sigbus k =>
      (w.objects this).bind fun object =>
        if ((w.clear this object).files (k.userfaultfd flags)).isNone then
          some (w.create this object flags sigbus k).2
        else none
  | .moveConstruct this other =>
      if (w.objects this).isNone then
        -- the members are initialised before the assignment in the body
        (w.objects other).map fun source => (w.put this (some {})).moveAssign this other source
      else none
  | .moveAssign this other =>
      if (w.objects this).isSome then
        (w.objects other).map fun source => w.moveAssign this other source
      else none
  | .clear this => (w.objects this).map fun object => w.clear this object
  | .release this => (w.objects this).map fun object => (w.release this object).2
  | .destroy this => (w.objects this).map fun object => w.destroy this object

def Step (w : World) (e : Event) (v : World) : Prop := perform w e = some v

/-! ### The ledger of a world -/

def World.ledger (w : World) : Ledger Nat Nat where
  born := fun descriptor => descriptor < w.created
  holding := fun this => (w.objects this).bind fun object => w.files object.fd
  handedOut := fun descriptor => w.released descriptor = true
  closings := w.closings

/-- Every descriptor that was created is in exactly one place, and once there is no
object left, those that were not handed out have been closed. -/
structure World.Owned (w : World) : Prop where
  settled : ∀ descriptor < w.created, w.ledger.Settled descriptor
  closed : (∀ this, w.objects this = none) → ∀ descriptor < w.created,
    w.released descriptor = true ∨ w.closings descriptor = 1

/-- Numbers are open where objects have them, and no descriptor has two. -/
structure World.Tidy (w : World) : Prop where
  isOpen : ∀ this object, w.objects this = some object → 0 ≤ object.fd →
    (w.files object.fd).isSome
  nonneg : ∀ fd, (w.files fd).isSome → 0 ≤ fd
  injective : ∀ fd fd' descriptor, w.files fd = some descriptor → w.files fd' = some descriptor →
    fd = fd'
  born : ∀ fd descriptor, w.files fd = some descriptor → descriptor < w.created

structure World.Sound (w : World) : Prop extends w.Tidy where
  inOrder : w.ledger.InOrder

/-- A move assignment finds the object that it assigns to without a descriptor. -/
def Event.Unoccupied (w : World) : Event → Prop
  | .moveAssign this _ => ∀ object, w.objects this = some object → object.fd < 0
  | _ => True

variable {w v : World} {this other : Nat} {object source : UserfaultFd}

theorem World.Sound.owned (hw : w.Sound) : w.Owned where
  settled := hw.inOrder.settled
  closed := fun hnone descriptor hborn =>
    (hw.inOrder.settled descriptor hborn).gone fun this => by simp [ledger, hnone this]

theorem sound_start : World.Sound {} where
  isOpen := fun _ _ hobject => by simp at hobject
  nonneg := fun _ hopen => by simp at hopen
  injective := fun _ _ _ hopen => by simp at hopen
  born := fun _ _ hopen => by simp at hopen
  inOrder := ⟨fun _ hborn => absurd hborn (Nat.not_lt_zero _), fun _ _ =>
    ⟨fun _ hheld => by simp [World.ledger] at hheld, by simp [World.ledger], rfl⟩⟩

theorem holding_eq (hobject : w.objects this = some object) :
    w.ledger.holding this = w.files object.fd := by
  simp [World.ledger, hobject]

namespace World.Tidy

theorem files_neg (hw : w.Tidy) {fd : Int} (hneg : fd < 0) : w.files fd = none := by
  by_contra hsome
  have hnonneg := hw.nonneg fd (Option.isSome_iff_ne_none.mpr hsome)
  omega

theorem exists_open (hw : w.Tidy) (hobject : w.objects this = some object)
    (hnonneg : 0 ≤ object.fd) : ∃ descriptor, w.files object.fd = some descriptor :=
  Option.isSome_iff_exists.mp (hw.isOpen this object hobject hnonneg)

/-- Who has a number other than `-1` holds a descriptor. -/
theorem holding_none_iff (hw : w.Tidy) (hobject : w.objects this = some object) :
    w.ledger.holding this = none ↔ object.fd < 0 := by
  rw [holding_eq hobject]
  constructor
  · intro hnone
    by_contra hnonneg
    obtain ⟨descriptor, hopen⟩ := hw.exists_open hobject (Int.not_lt.mp hnonneg)
    rw [hnone] at hopen
    cases hopen
  · exact hw.files_neg

theorem put (hw : w.Tidy) {new : Option UserfaultFd}
    (hnew : ∀ object, new = some object → 0 ≤ object.fd → (w.files object.fd).isSome) :
    (w.put this new).Tidy where
  isOpen := fun that object hobject => by
    simp only [World.put, Function.update_apply] at hobject
    split at hobject
    · exact hnew object hobject
    · exact hw.isOpen that object hobject
  nonneg := hw.nonneg
  injective := hw.injective
  born := hw.born

theorem put_empty (hw : w.Tidy) : (w.put this (some {})).Tidy :=
  hw.put fun object hobject hnonneg => by
    cases hobject
    exact absurd hnonneg (by decide)

end World.Tidy

theorem ledger_put (new : Option UserfaultFd) : (w.put this new).ledger =
    { w.ledger with
      holding := Function.update w.ledger.holding this
        (new.bind fun object => w.files object.fd) } := by
  simp only [World.ledger, World.put, Ledger.mk.injEq, true_and, and_true]
  funext that
  rw [Function.update_apply, Function.update_apply]
  split <;> rfl

/-- An object without a descriptor comes, or goes. -/
theorem ledger_put_free (hfree : w.ledger.holding this = none) {new : Option UserfaultFd}
    (hnew : new.bind (fun object => w.files object.fd) = none) :
    (w.put this new).ledger = w.ledger := by
  rw [ledger_put, hnew, ← hfree, Function.update_eq_self]

/-! ### What a call does to the ledger -/

theorem World.Sound.construct (hw : w.Sound) (hnone : w.objects this = none) :
    (w.put this (some {})).Sound where
  toTidy := hw.put_empty
  inOrder := by
    rw [ledger_put_free (by simp [World.ledger, hnone])]
    · exact hw.inOrder
    · exact hw.files_neg (by decide)

theorem ledger_moveAssign (hw : w.Tidy) (hsource : w.objects other = some source) :
    (w.moveAssign this other source).ledger = w.ledger.move this other := by
  rw [World.moveAssign, ledger_put, ledger_put, Ledger.move, holding_eq hsource]
  have hempty : (w.put this (some { fd := source.fd, api := source.api })).files (-1) = none :=
    hw.files_neg (by decide)
  simp only [Option.bind_some, hempty]

theorem World.Sound.moveAssign (hw : w.Sound) (hfree : w.ledger.holding this = none)
    (hsource : w.objects other = some source) : (w.moveAssign this other source).Sound where
  toTidy := (hw.put fun object hobject hnonneg => by
    cases hobject
    exact hw.isOpen other source hsource hnonneg).put_empty
  inOrder := by
    rw [ledger_moveAssign hw.toTidy hsource]
    exact hw.inOrder.move hfree other

section Clear

variable (hw : w.Sound) (hobject : w.objects this = some object)

include hw hobject

/-- No other object has the number. -/
theorem World.Sound.other_fd (hnonneg : 0 ≤ object.fd) {that : Nat} {theirs : UserfaultFd}
    (hne : that ≠ this) (htheirs : w.objects that = some theirs) : theirs.fd ≠ object.fd := by
  intro hfd
  obtain ⟨descriptor, hopen⟩ := hw.exists_open hobject hnonneg
  refine hne (hw.inOrder.unique (r := descriptor) ?_ ?_)
  · rw [holding_eq htheirs, hfd, hopen]
  · rw [holding_eq hobject, hopen]

theorem ledger_clear : (w.clear this object).ledger = w.ledger.dispose this := by
  rw [World.clear, Ledger.dispose, holding_eq hobject]
  split
  · rename_i hnonneg
    obtain ⟨descriptor, hopen⟩ := hw.exists_open hobject hnonneg
    rw [hopen, ledger_put]
    simp only [World.close, hopen, World.ledger, Ledger.mk.injEq, true_and, and_true]
    funext that
    rw [Function.update_apply, Function.update_apply]
    split
    · rw [Option.bind_some, Function.update_of_ne (by dsimp only; omega)]
      exact hw.files_neg (by decide)
    · rename_i hne
      cases htheirs : w.objects that with
      | none => rfl
      | some theirs => exact Function.update_of_ne (hw.other_fd hobject hnonneg hne htheirs) ..
  · rename_i hneg
    rw [hw.files_neg (by omega)]

theorem World.Sound.clear : (w.clear this object).Sound where
  toTidy := by
    rw [World.clear]
    split
    · rename_i hnonneg
      obtain ⟨descriptor, hopen⟩ := hw.exists_open hobject hnonneg
      have hstill : ∀ fd d, Function.update w.files object.fd none fd = some d →
          w.files fd = some d := by
        intro fd d hd
        rw [Function.update_apply] at hd
        split at hd
        · cases hd
        · exact hd
      simp only [World.close, hopen]
      refine ⟨fun that theirs htheirs hpos => ?_, fun fd hfd => ?_, fun fd fd' d hd hd' => ?_,
        fun fd d hd => ?_⟩
      · simp only [World.put, Function.update_apply] at htheirs
        split at htheirs
        · cases htheirs
          exact absurd hpos (by decide)
        · rename_i hne
          simp only [World.put, Function.update_of_ne (hw.other_fd hobject hnonneg hne htheirs)]
          exact hw.isOpen that theirs htheirs hpos
      · obtain ⟨d, hd⟩ := Option.isSome_iff_exists.mp hfd
        exact hw.nonneg fd (Option.isSome_iff_exists.mpr ⟨d, hstill fd d hd⟩)
      · exact hw.injective fd fd' d (hstill fd d hd) (hstill fd' d hd')
      · exact hw.born fd d (hstill fd d hd)
    · exact hw.toTidy
  inOrder := by
    rw [ledger_clear hw hobject]
    exact hw.inOrder.dispose this

/-- After `clear` the object is there, without a number. -/
theorem World.Sound.clear_free : (w.clear this object).ledger.holding this = none := by
  rw [ledger_clear hw hobject, Ledger.dispose]
  split
  · assumption
  · exact Function.update_self ..

theorem World.Sound.destroy : (w.destroy this object).Sound where
  toTidy := (hw.clear hobject).put nofun
  inOrder := by
    rw [World.destroy, ledger_put_free (hw.clear_free hobject) rfl]
    exact (hw.clear hobject).inOrder

theorem ledger_release : (w.release this object).2.ledger = w.ledger.handOver this := by
  rw [World.release, Ledger.handOver, holding_eq hobject]
  cases hopen : w.files object.fd with
  | none =>
    rw [ledger_put_free]
    · rw [holding_eq hobject, hopen]
    · exact hw.files_neg (by decide)
  | some descriptor =>
    rw [ledger_put]
    simp only [World.ledger, Ledger.mk.injEq, true_and, and_true]
    refine ⟨?_, funext fun d => ?_⟩
    · rw [Option.bind_some]
      congr 1
      exact hw.files_neg (by decide)
    · rw [Function.update_apply]
      split <;> simp_all

theorem World.Sound.release : (w.release this object).2.Sound where
  toTidy := by
    rw [World.release]
    split
    · exact hw.toTidy.put_empty
    · rename_i descriptor _
      have htidy : World.Tidy { w with released := Function.update w.released descriptor true } :=
        ⟨hw.isOpen, hw.nonneg, hw.injective, hw.born⟩
      exact htidy.put_empty
  inOrder := by
    rw [ledger_release hw hobject]
    exact hw.inOrder.handOver this

end Clear

section Acquire

variable (hw : w.Sound) {result : Int} (hclosed : w.files result = none)

include hw hclosed

theorem World.Sound.opened_tidy (hresult : 0 ≤ result) : (w.opened result).Tidy := by
  have hcases : ∀ fd d, (w.opened result).files fd = some d →
      fd = result ∧ d = w.created ∨ w.files fd = some d := by
    intro fd d hd
    simp only [World.opened, Function.update_apply] at hd
    split at hd
    · rename_i hfd
      exact .inl ⟨hfd, (Option.some.inj hd).symm⟩
    · exact .inr hd
  refine ⟨fun that theirs htheirs hpos => ?_, fun fd hfd => ?_, fun fd fd' d hd hd' => ?_,
    fun fd d hd => ?_⟩
  · have hopen := hw.isOpen that theirs htheirs hpos
    simp only [World.opened, Function.update_apply]
    split
    · rfl
    · exact hopen
  · obtain ⟨d, hd⟩ := Option.isSome_iff_exists.mp hfd
    rcases hcases fd d hd with ⟨rfl, _⟩ | hold
    · exact hresult
    · exact hw.nonneg fd (Option.isSome_iff_exists.mpr ⟨d, hold⟩)
  · rcases hcases fd d hd with ⟨rfl, rfl⟩ | hold <;> rcases hcases fd' _ hd' with ⟨rfl, h⟩ | hold'
    · rfl
    · exact absurd (hw.born _ _ hold') (Nat.lt_irrefl _)
    · exact absurd (h ▸ hw.born _ _ hold) (Nat.lt_irrefl _)
    · exact hw.injective _ _ _ hold hold'
  · rcases hcases fd d hd with ⟨_, rfl⟩ | hold
    · exact Nat.lt_succ_self _
    · exact Nat.lt_succ_of_lt (hw.born fd d hold)

theorem ledger_opened (hresult : 0 ≤ result) (api : UffdioApi) :
    ((w.opened result).put this (some { fd := result, api })).ledger =
      w.ledger.acquire this w.created := by
  have hsame : (w.opened result).ledger.holding = w.ledger.holding := by
    funext that
    cases htheirs : w.objects that with
    | none => simp [World.ledger, World.opened, htheirs]
    | some theirs =>
      have hne : theirs.fd ≠ result := by
        rintro rfl
        obtain ⟨descriptor, hopen⟩ := hw.exists_open htheirs hresult
        rw [hclosed] at hopen
        cases hopen
      simp only [World.ledger, World.opened, htheirs, Option.bind_some]
      exact Function.update_of_ne hne ..
  rw [ledger_put, hsame, Option.bind_some]
  simp only [World.ledger, World.opened, Ledger.acquire, Function.update_self, Ledger.mk.injEq,
    and_true]
  funext d
  exact propext (by omega)

/-- The kernel gives a new descriptor to an object without one. -/
theorem World.Sound.acquire (hfree : w.ledger.holding this = none) (hresult : 0 ≤ result)
    (api : UffdioApi) : ((w.opened result).put this (some { fd := result, api })).Sound where
  toTidy := (hw.opened_tidy hclosed hresult).put fun object hobject _ => by
    cases hobject
    simp [World.opened]
  inOrder := by
    rw [ledger_opened hw hclosed hresult]
    exact hw.inOrder.acquire hfree (Nat.lt_irrefl _)

end Acquire

theorem World.Sound.create (hw : w.Sound) (hobject : w.objects this = some object) {flags : Int}
    {sigbus : Bool} {k : Kernel}
    (hclosed : (w.clear this object).files (k.userfaultfd flags) = none) :
    (w.create this object flags sigbus k).2.Sound := by
  have hcleared := hw.clear hobject
  rw [World.create]
  dsimp only
  split
  · exact hcleared
  · rename_i hresult
    have hheld := hcleared.acquire hclosed (hw.clear_free hobject) (Int.not_lt.mp hresult)
      (k.handshake (k.userfaultfd flags) (request sigbus)).2
    split <;> exact hheld

/-! ### Runs -/

/-- Every call keeps the world sound, but for a move assignment onto a descriptor. -/
theorem World.Sound.step (hw : w.Sound) {e : Event} (hstep : Step w e v) (hfree : e.Unoccupied w) :
    v.Sound := by
  cases e with
  | construct this =>
    obtain ⟨hnone, hv⟩ := Option.ite_none_right_eq_some.mp hstep
    cases hv
    exact hw.construct (Option.isNone_iff_eq_none.mp hnone)
  | create this flags sigbus k =>
    obtain ⟨object, hobject, hanswer⟩ := Option.bind_eq_some_iff.mp hstep
    obtain ⟨hclosed, hv⟩ := Option.ite_none_right_eq_some.mp hanswer
    cases hv
    exact hw.create hobject (Option.isNone_iff_eq_none.mp hclosed)
  | moveConstruct this other =>
    obtain ⟨hnone, hmove⟩ := Option.ite_none_right_eq_some.mp hstep
    obtain ⟨source, hsource, rfl⟩ := Option.map_eq_some_iff.mp hmove
    have hthis := Option.isNone_iff_eq_none.mp hnone
    have hne : other ≠ this := by
      rintro rfl
      rw [hthis] at hsource
      cases hsource
    have hnew : (w.put this (some {})).objects this = some {} := Function.update_self ..
    have hput := hw.construct hthis
    apply hput.moveAssign
    · exact (hput.holding_none_iff hnew).mpr (by decide)
    · exact (Function.update_of_ne hne ..).trans hsource
  | moveAssign this other =>
    obtain ⟨hsome, hmove⟩ := Option.ite_none_right_eq_some.mp hstep
    obtain ⟨source, hsource, rfl⟩ := Option.map_eq_some_iff.mp hmove
    obtain ⟨object, hobject⟩ := Option.isSome_iff_exists.mp hsome
    exact hw.moveAssign ((hw.holding_none_iff hobject).mpr (hfree object hobject)) hsource
  | clear this =>
    obtain ⟨object, hobject, rfl⟩ := Option.map_eq_some_iff.mp hstep
    exact hw.clear hobject
  | release this =>
    obtain ⟨object, hobject, rfl⟩ := Option.map_eq_some_iff.mp hstep
    exact hw.release hobject
  | destroy this =>
    obtain ⟨object, hobject, rfl⟩ := Option.map_eq_some_iff.mp hstep
    exact hw.destroy hobject

/-- What a move assignment overwrites is lost. -/
theorem World.Sound.unoccupied (hw : w.Sound) {e : Event} (hstep : Step w e v) (hv : v.Owned) :
    e.Unoccupied w := by
  cases e with
  | moveAssign this other =>
    intro object hobject
    obtain ⟨_, hmove⟩ := Option.ite_none_right_eq_some.mp hstep
    obtain ⟨source, hsource, rfl⟩ := Option.map_eq_some_iff.mp hmove
    rw [← hw.holding_none_iff hobject]
    by_contra hheld
    obtain ⟨descriptor, hdescriptor⟩ := Option.ne_none_iff_exists'.mp hheld
    have hborn := (hw.inOrder.held hdescriptor).1
    have hsettled := hv.settled descriptor hborn
    rw [ledger_moveAssign hw.toTidy hsource] at hsettled
    exact hw.inOrder.not_settled_move hdescriptor other hsettled
  | _ => trivial

/-- Descriptors are owned throughout exactly as long as none is overwritten by a move
assignment, be it that of another object or of the object itself. -/
theorem owned_iff (es : List Event) :
    Along Step {} es World.Owned ↔ EachStep Step {} es fun w e _ => e.Unoccupied w :=
  along_iff_eachStep (fun _ hw => hw.owned) (fun _ _ _ hw hstep hfree => hw.step hstep hfree)
    (fun _ _ _ hw hstep hv => hw.unoccupied hstep hv) es sound_start

/-- A kernel that opens the given number, and agrees to everything. -/
def opens (fd : Int) : Kernel where
  userfaultfd := fun _ => fd
  handshake := fun _ api => (0, api)

def overwriting : List Event :=
  [.construct 0, .construct 1, .create 0 0 false (opens 3), .create 1 0 false (opens 4),
    .moveAssign 0 1, .destroy 0, .destroy 1]

/-- The descriptor of the object that is assigned to stays open for good. -/
theorem overwritten_leaks :
    ∃ w, execute perform {} overwriting = some w ∧ w.files 3 = some 0 ∧
      (∀ this, w.objects this = none) ∧ w.released 0 = false ∧ w.closings 0 = 0 ∧ ¬ w.Owned := by
  have hgone : ∀ w, execute perform {} overwriting = some w → ∀ this, w.objects this = none := by
    rintro w ⟨⟩ this
    match this with
    | 0 => rfl
    | 1 => rfl
    | _ + 2 => rfl
  refine ⟨_, rfl, by decide, hgone _ rfl, rfl, by decide, fun howned => ?_⟩
  obtain hhanded | hclosed := howned.closed (hgone _ rfl) 0 (by decide)
  · exact absurd hhanded (by decide)
  · exact absurd hclosed (by decide)

end NdpOffload.Faultspeed.Descriptors
