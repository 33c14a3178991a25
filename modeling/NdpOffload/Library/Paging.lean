import Mathlib.Data.Nat.ModEq
import Mathlib.Logic.Function.Basic
import Mathlib.Tactic.Common

/-! Paged address spaces, and the resizable memories they can hold.  A page is
known by its number; a frame gives the bytes of a page by their offset in it. -/
namespace NdpOffload.Library.Paging

variable {β : Type*}

/-! ### Address spaces -/

/-- Missing pages of a watched range are left to a fault handler; elsewhere they
are made on demand. -/
structure Space (β : Type*) where
  accessible : Nat → Bool
  watched : Nat → Bool
  frame : Nat → Option (Nat → β)

/-- The pages that begin in a range of addresses. -/
def covers (pageSize start length page : Nat) : Bool :=
  decide (start ≤ page * pageSize) && decide (page * pageSize < start + length)

@[simp] theorem covers_nothing (pageSize start page : Nat) : covers pageSize start 0 page = false := by
  simp only [covers, Bool.and_eq_false_iff, decide_eq_false_iff_not]
  omega

def Space.protect (pageSize start length : Nat) (accessible : Bool) (space : Space β) : Space β :=
  { space with
    accessible := fun page =>
      if covers pageSize start length page then accessible else space.accessible page }

def Space.discard (pageSize start length : Nat) (space : Space β) : Space β :=
  { space with
    frame := fun page => if covers pageSize start length page then none else space.frame page }

/-- A fresh mapping that nobody may access and nobody watches. -/
def Space.remap (pageSize start length : Nat) (space : Space β) : Space β where
  accessible := fun page =>
    if covers pageSize start length page then false else space.accessible page
  watched := fun page => if covers pageSize start length page then false else space.watched page
  frame := fun page => if covers pageSize start length page then none else space.frame page

def Space.watch (pageSize start length : Nat) (space : Space β) : Space β :=
  { space with
    watched := fun page =>
      if covers pageSize start length page then true else space.watched page }

def Space.unwatch (pageSize start length : Nat) (space : Space β) : Space β :=
  { space with
    watched := fun page =>
      if covers pageSize start length page then false else space.watched page }

def Space.install (page : Nat) (frame : Nat → β) (space : Space β) : Space β :=
  { space with frame := Function.update space.frame page (some frame) }

@[simp] theorem Space.install_frame_self (page : Nat) (frame : Nat → β) (space : Space β) :
    (space.install page frame).frame page = some frame := Function.update_self ..

theorem Space.install_frame_ne {page other : Nat} (hne : other ≠ page) (frame : Nat → β)
    (space : Space β) : (space.install page frame).frame other = space.frame other :=
  Function.update_of_ne hne ..

/-- What the processor finds at a page. -/
inductive Touch (β : Type*) where
  | denied
  | missing
  | absent
  | present (frame : Nat → β)

def Space.touch (space : Space β) (page : Nat) : Touch β :=
  if space.accessible page then
    match space.frame page with
    | some frame => .present frame
    | none => if space.watched page then .missing else .absent
  else .denied

/-! ### Positions in a mapping -/

section Positions

variable {pageSize base : Nat}

theorem add_mod_page (hbase : pageSize ∣ base) (offset : Nat) :
    (base + offset) % pageSize = offset % pageSize := by
  obtain ⟨pages, rfl⟩ := hbase
  rw [Nat.mul_add_mod]

/-- The page of an offset begins at the offset rounded down. -/
theorem page_begin (hbase : pageSize ∣ base) (offset : Nat) :
    (base + offset) / pageSize * pageSize = base + offset / pageSize * pageSize := by
  rw [Nat.add_div_of_dvd_right hbase, Nat.add_mul, Nat.div_mul_cancel hbase]

theorem round_le_self (pageSize offset : Nat) : offset / pageSize * pageSize ≤ offset :=
  Nat.div_mul_le_self offset pageSize

/-- Rounding down does not cross an aligned bound. -/
theorem round_lt_iff {bound offset : Nat} (hbound : pageSize ∣ bound) (hpos : 0 < pageSize) :
    offset / pageSize * pageSize < bound ↔ offset < bound := by
  obtain ⟨pages, rfl⟩ := hbound
  rw [Nat.mul_comm pageSize pages, Nat.mul_lt_mul_right hpos, Nat.div_lt_iff_lt_mul hpos]

theorem round_add_mod (offset : Nat) : offset / pageSize * pageSize + offset % pageSize = offset :=
  Nat.div_add_mod' offset pageSize

theorem round_div {index : Nat} (hindex : index < pageSize) (offset : Nat) :
    (offset / pageSize * pageSize + index) / pageSize = offset / pageSize := by
  rw [Nat.mul_comm, Nat.mul_add_div (by omega), Nat.div_eq_of_lt hindex, Nat.add_zero]

theorem round_mod {index : Nat} (hindex : index < pageSize) (offset : Nat) :
    (offset / pageSize * pageSize + index) % pageSize = index := by
  rw [Nat.mul_comm, Nat.mul_add_mod, Nat.mod_eq_of_lt hindex]

end Positions

/-! ### Resizable memories -/

/-- Bytes outside the size are kept too: they are what a growing memory shows. -/
structure Flat (β : Type*) where
  size : Nat
  data : Nat → β

def Flat.resize (fill : Nat → β) (size : Nat) (flat : Flat β) : Flat β where
  size := size
  data := fun offset => if offset < size ∧ offset < flat.size then flat.data offset else fill offset

def Flat.store (offset : Nat) (value : β) (flat : Flat β) : Flat β :=
  { flat with data := Function.update flat.data offset value }

/-- The byte at an offset: from its frame, or else what a new frame would hold. -/
def backed (pageSize base : Nat) (fill : Nat → β) (space : Space β) (offset : Nat) : β :=
  match space.frame ((base + offset) / pageSize) with
  | some frame => frame ((base + offset) % pageSize)
  | none => fill offset

section Backed

variable {pageSize base offset : Nat} {fill : Nat → β} {space : Space β}

theorem backed_some {frame : Nat → β}
    (hframe : space.frame ((base + offset) / pageSize) = some frame) :
    backed pageSize base fill space offset = frame ((base + offset) % pageSize) := by
  rw [backed, hframe]

theorem backed_none (hframe : space.frame ((base + offset) / pageSize) = none) :
    backed pageSize base fill space offset = fill offset := by
  rw [backed, hframe]

end Backed

/-- The frames of the mapping at `base` hold the memory, and there are none
outside its size. -/
structure Backs (pageSize base extent : Nat) (fill : Nat → β) (flat : Flat β)
    (space : Space β) : Prop where
  beyond : ∀ page, base + flat.size ≤ page * pageSize → page * pageSize < base + extent →
    space.frame page = none
  content : ∀ offset < flat.size, backed pageSize base fill space offset = flat.data offset
  outside : ∀ offset, flat.size ≤ offset → flat.data offset = fill offset

section Backs

variable {pageSize base extent : Nat} {fill : Nat → β} {flat : Flat β} {space space' : Space β}

/-- Only the frames of the mapping matter. -/
theorem Backs.congr (hbacks : Backs pageSize base extent fill flat space)
    (hbase : pageSize ∣ base) (hsize : flat.size ≤ extent)
    (hframe : ∀ page, base ≤ page * pageSize → page * pageSize < base + extent →
      space'.frame page = space.frame page) :
    Backs pageSize base extent fill flat space' where
  beyond := fun page hfrom hto => by
    rw [hframe page (by omega) hto]
    exact hbacks.beyond page hfrom hto
  content := fun offset hoffset => by
    have hround := round_le_self pageSize offset
    rw [← hbacks.content offset hoffset, backed, backed,
      hframe _ (by rw [page_begin hbase]; omega) (by rw [page_begin hbase]; omega)]
  outside := hbacks.outside

/-- A missing page may be filled in at any time. -/
theorem Backs.install (hbacks : Backs pageSize base extent fill flat space)
    (hbase : pageSize ∣ base) {offset : Nat} (hoffset : offset < flat.size)
    (hmissing : space.frame ((base + offset) / pageSize) = none) {frame : Nat → β}
    (hframe : ∀ i < pageSize, frame i = fill (offset / pageSize * pageSize + i))
    (hpos : 0 < pageSize) :
    Backs pageSize base extent fill flat
      (space.install ((base + offset) / pageSize) frame) where
  beyond := fun page hfrom hto => by
    have hround := round_le_self pageSize offset
    have hne : page ≠ (base + offset) / pageSize := by
      rintro rfl
      rw [page_begin hbase] at hfrom
      omega
    rw [Space.install_frame_ne hne]
    exact hbacks.beyond page hfrom hto
  content := fun other hother => by
    have hold := hbacks.content other hother
    by_cases hpage : (base + other) / pageSize = (base + offset) / pageSize
    · have hsame : other / pageSize = offset / pageSize := by
        rw [Nat.add_div_of_dvd_right hbase, Nat.add_div_of_dvd_right hbase] at hpage
        omega
      rw [backed_none (by rw [hpage]; exact hmissing)] at hold
      rw [backed_some (by rw [hpage]; exact Space.install_frame_self ..), ← hold,
        add_mod_page hbase, hframe _ (Nat.mod_lt other hpos), ← hsame, round_add_mod]
    · rw [← hold, backed, backed, Space.install_frame_ne hpage]
  outside := hbacks.outside

theorem Backs.store (hbacks : Backs pageSize base extent fill flat space)
    (hbase : pageSize ∣ base) {offset : Nat} (hoffset : offset < flat.size) {frame : Nat → β}
    (hframe : space.frame ((base + offset) / pageSize) = some frame) (value : β) :
    Backs pageSize base extent fill (flat.store offset value)
      (space.install ((base + offset) / pageSize)
        (Function.update frame ((base + offset) % pageSize) value)) where
  beyond := fun page hfrom hto => by
    have hround := round_le_self pageSize offset
    have hne : page ≠ (base + offset) / pageSize := by
      rintro rfl
      rw [page_begin hbase] at hfrom
      change base + flat.size ≤ _ at hfrom
      omega
    rw [Space.install_frame_ne hne]
    exact hbacks.beyond page hfrom hto
  content := fun other hother => by
    have hold := hbacks.content other hother
    by_cases hpage : (base + other) / pageSize = (base + offset) / pageSize
    · rw [backed_some (by rw [hpage]; exact hframe)] at hold
      rw [backed_some (by rw [hpage]; exact Space.install_frame_self ..)]
      by_cases heq : other = offset
      · subst heq
        simp [Flat.store]
      · -- same page, so another offset in it
        have hmod : (base + other) % pageSize ≠ (base + offset) % pageSize := by
          intro hmod
          have hother := Nat.div_add_mod (base + other) pageSize
          have hoffset := Nat.div_add_mod (base + offset) pageSize
          rw [hpage, hmod] at hother
          omega
        simp only [Flat.store, Function.update_of_ne hmod, Function.update_of_ne heq]
        exact hold
    · have heq : other ≠ offset := by
        rintro rfl
        exact hpage rfl
      simp only [Flat.store, Function.update_of_ne heq]
      rw [← hold, backed, backed, Space.install_frame_ne hpage]
  outside := fun other hother => by
    have hne : other ≠ offset := by
      rintro rfl
      exact absurd hoffset (Nat.not_lt.mpr hother)
    rw [Flat.store]
    simp only [Function.update_of_ne hne]
    exact hbacks.outside other hother

/-- Growing needs no work: the new pages have no frames yet. -/
theorem Backs.grow (hbacks : Backs pageSize base extent fill flat space)
    (hbase : pageSize ∣ base) (hsize : pageSize ∣ flat.size) (hpos : 0 < pageSize) {size : Nat}
    (hle : flat.size ≤ size) (hextent : size ≤ extent) :
    Backs pageSize base extent fill (flat.resize fill size) space where
  beyond := fun page hfrom hto => by
    change base + size ≤ _ at hfrom
    exact hbacks.beyond page (by omega) hto
  content := fun offset hoffset => by
    change offset < size at hoffset
    simp only [Flat.resize]
    by_cases hold : offset < flat.size
    · rw [if_pos ⟨hoffset, hold⟩]
      exact hbacks.content offset hold
    · rw [if_neg (by omega)]
      have hround := round_le_self pageSize offset
      have hpage : flat.size ≤ offset / pageSize * pageSize :=
        Nat.le_of_not_lt fun hlt => hold ((round_lt_iff hsize hpos).mp hlt)
      rw [backed, hbacks.beyond _ (by rw [page_begin hbase]; omega)
        (by rw [page_begin hbase]; omega)]
  outside := fun offset hoffset => by
    change size ≤ offset at hoffset
    simp only [Flat.resize]
    rw [if_neg (by omega)]

/-- Shrinking drops the frames between the new size and the old one. -/
theorem Backs.shrink (hbacks : Backs pageSize base extent fill flat space)
    (hbase : pageSize ∣ base) {size : Nat} (hsize : pageSize ∣ size) (hpos : 0 < pageSize)
    (hlt : size < flat.size)
    (hdropped : ∀ page, covers pageSize (base + size) (flat.size - size) page = true →
      space'.frame page = none)
    (hkept : ∀ page, covers pageSize (base + size) (flat.size - size) page = false →
      space'.frame page = space.frame page) :
    Backs pageSize base extent fill (flat.resize fill size) space' where
  beyond := fun page hfrom hto => by
    change base + size ≤ _ at hfrom
    by_cases hold : base + flat.size ≤ page * pageSize
    · rw [hkept page (by simp [covers]; omega)]
      exact hbacks.beyond page hold hto
    · exact hdropped page (by simp [covers]; omega)
  content := fun offset hoffset => by
    change offset < size at hoffset
    have hround : offset / pageSize * pageSize < size := (round_lt_iff hsize hpos).mpr hoffset
    have hsame := hkept ((base + offset) / pageSize) (by
      rw [covers, page_begin hbase]
      simp
      omega)
    simp only [Flat.resize]
    rw [if_pos ⟨hoffset, by omega⟩, backed, hsame]
    exact hbacks.content offset (by omega)
  outside := fun offset hoffset => by
    change size ≤ offset at hoffset
    simp only [Flat.resize]
    rw [if_neg (by omega)]

/-- Dropping frames in the middle lets the range show what new frames hold. -/
theorem Backs.drop (hbacks : Backs pageSize base extent fill flat space)
    (hbase : pageSize ∣ base) {low high : Nat} (hlow : pageSize ∣ low) (hhigh : pageSize ∣ high)
    (hpos : 0 < pageSize)
    (hdropped : ∀ page, covers pageSize (base + low) (high - low) page = true →
      space'.frame page = none)
    (hkept : ∀ page, covers pageSize (base + low) (high - low) page = false →
      space'.frame page = space.frame page) :
    Backs pageSize base extent fill
      ⟨flat.size, fun offset => if low ≤ offset ∧ offset < high then fill offset
        else flat.data offset⟩ space' where
  beyond := fun page hfrom hto => by
    cases hcovered : covers pageSize (base + low) (high - low) page with
    | true => exact hdropped page hcovered
    | false =>
      rw [hkept page hcovered]
      exact hbacks.beyond page hfrom hto
  content := fun offset hoffset => by
    have hcovers : covers pageSize (base + low) (high - low) ((base + offset) / pageSize) =
        decide (low ≤ offset ∧ offset < high) := by
      have hbelow : offset / pageSize * pageSize < low ↔ offset < low := round_lt_iff hlow hpos
      have habove : offset / pageSize * pageSize < high ↔ offset < high := round_lt_iff hhigh hpos
      rw [covers, page_begin hbase, ← Bool.decide_and, decide_eq_decide]
      omega
    by_cases hin : low ≤ offset ∧ offset < high
    · rw [decide_eq_true hin] at hcovers
      simp only [if_pos hin]
      exact backed_none (hdropped _ hcovers)
    · rw [decide_eq_false hin] at hcovers
      simp only [if_neg hin]
      rw [backed, hkept _ hcovers]
      exact hbacks.content offset hoffset
  outside := fun offset hoffset => by
    have hfill := hbacks.outside offset hoffset
    simp only [hfill, ite_self]

end Backs

end NdpOffload.Library.Paging
