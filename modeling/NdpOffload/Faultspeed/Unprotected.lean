import NdpOffload.Faultspeed.Strategies

/-! The variants that leave what they cut off accessible: no protection at all, and
dropping pages without `mprotect`.  Both implement a memory whose accesses are
checked against a bound of its own and not against its size. -/
namespace NdpOffload.Faultspeed.Unprotected

open Library.Paging Memory Machine Refinement Strategies

/-! ### No protection -/

def resizeNoProtect (memory newSize : Nat) (s : Machine) : Machine := s.setSize memory newSize

def restoreFromNoProtect (memory other : Nat) (s : Machine) : Machine × Observation :=
  (resizeNoProtect memory (s.size other) s).copyAll other memory

/-- The operations as `BM_NoProtection` calls them. -/
def performNoProtect (memory : Nat) (s : Machine) : Op → Machine × Observation
  | .resize newSize => (resizeNoProtect memory newSize s, .resized)
  | .restoreFrom other => restoreFromNoProtect memory other s
  | .read offset => s.read memory offset
  | .write offset value => s.write memory offset value

/-- The operations of a variant that is given by how it resizes. -/
def performWith (resizeTo : Nat → Machine → Machine) (memory : Nat) (s : Machine) :
    Op → Machine × Observation
  | .resize newSize => (resizeTo newSize s, .resized)
  | .restoreFrom other => (resizeTo (s.size other) s).copyAll other memory
  | .read offset => s.read memory offset
  | .write offset value => s.write memory offset value

def traceWith (resizeTo : Nat → Machine → Machine) (memory : Nat) :
    Machine → List Op → List Observation
  | _, [] => []
  | s, op :: ops =>
      (performWith resizeTo memory s op).2 ::
        traceWith resizeTo memory (performWith resizeTo memory s op).1 ops

theorem performNoProtect_eq (memory : Nat) :
    performNoProtect memory = performWith (resizeNoProtect memory) memory := by
  funext s op
  cases op <;> rfl

theorem perform_eq_performWith (useMprotect : Bool) (memory : Nat) (s : Machine) (op : Op) :
    s.perform (.dontneed useMprotect) memory op =
      performWith (fun newSize t => t.resizeWavmDontneed memory newSize useMprotect) memory s op := by
  cases op <;> rfl

theorem trace_eq_traceWith (useMprotect : Bool) (memory : Nat) (s : Machine) (ops : List Op) :
    s.trace (.dontneed useMprotect) memory ops =
      traceWith (fun newSize t => t.resizeWavmDontneed memory newSize useMprotect) memory s
        ops := by
  induction ops generalizing s with
  | nil => rfl
  | cons op ops ih => rw [Machine.trace, traceWith, perform_eq_performWith, ih]

/-! ### The size does not matter to an access -/

section SetSize

variable {s : Machine} {address : Nat} (memory size : Nat)

@[simp] theorem setSize_setSize (s : Machine) (memory size size' : Nat) :
    (s.setSize memory size).setSize memory size' = s.setSize memory size' := by
  simp [setSize]

@[simp] theorem setSize_self (s : Machine) (memory : Nat) :
    s.setSize memory (s.size memory) = s := by
  simp [setSize, Machine.size]

@[simp] theorem size_setSize (s : Machine) (memory size : Nat) :
    (s.setSize memory size).size memory = size := by
  simp [setSize, Machine.size]

@[simp] theorem base_setSize (s : Machine) (memory size other : Nat) :
    (s.setSize memory size).base other = s.base other := by
  by_cases hother : other = memory
  · subst hother
    simp [setSize, base]
  · simp [setSize, base, hother]

theorem size_setSize_ne {other : Nat} (hother : other ≠ memory) :
    (s.setSize memory size).size other = s.size other := by
  simp [setSize, Machine.size, hother]

@[simp] theorem page_setSize (s : Machine) (memory size address : Nat) :
    (s.setSize memory size).page address = s.page address := rfl

@[simp] theorem pageSize_setSize (s : Machine) (memory size : Nat) :
    (s.setSize memory size).pageSize = s.pageSize := rfl

/-- An access that no handler sees changes frames only. -/
structure FramesOnly (s t : Machine) : Prop extends SameTables s t where
  handler : t.handler = s.handler
  tid : t.tid = s.tid

theorem access_unwatched (hunwatched : s.space.watched (s.page address) = false) :
    FramesOnly s (s.access address).1 ∧
      (s.setSize memory size).access address =
        ((s.access address).1.setSize memory size, (s.access address).2) := by
  have hrefl : FramesOnly s s := ⟨.refl s, rfl, rfl⟩
  cases haccessible : s.space.accessible (s.page address) with
  | false =>
    have hdenied := access_denied haccessible
    rw [hdenied]
    exact ⟨hrefl, access_denied haccessible⟩
  | true =>
    cases hframe : s.space.frame (s.page address) with
    | some frame =>
      rw [access_present haccessible hframe]
      exact ⟨hrefl, access_present haccessible hframe⟩
    | none =>
      rw [access_absent haccessible hframe hunwatched]
      exact ⟨⟨sameTables_install s _ _, rfl, rfl⟩, access_absent haccessible hframe hunwatched⟩

theorem read_unwatched (other offset : Nat)
    (hunwatched : s.space.watched (s.page (s.base other + offset)) = false) :
    FramesOnly s (s.read other offset).1 ∧
      (s.setSize memory size).read other offset =
        ((s.read other offset).1.setSize memory size, (s.read other offset).2) := by
  obtain ⟨hsame, haccess⟩ := access_unwatched memory size hunwatched
  unfold Machine.read
  simp only [base_setSize, haccess, pageSize_setSize]
  rcases hresult : s.access (s.base other + offset) with ⟨t, _ | _ | _⟩
  all_goals
    rw [hresult] at hsame
    exact ⟨hsame, rfl⟩

theorem write_unwatched (other offset : Nat) (value : UInt8)
    (hunwatched : s.space.watched (s.page (s.base other + offset)) = false) :
    FramesOnly s (s.write other offset value).1 ∧
      (s.setSize memory size).write other offset value =
        ((s.write other offset value).1.setSize memory size, (s.write other offset value).2) := by
  obtain ⟨hsame, haccess⟩ := access_unwatched memory size hunwatched
  unfold Machine.write
  simp only [base_setSize, haccess, pageSize_setSize]
  rcases hresult : s.access (s.base other + offset) with ⟨t, frame | _ | _⟩
  all_goals rw [hresult] at hsame
  · have hinstalled := sameTables_install t (s.page (s.base other + offset))
      (Function.update frame ((s.base other + offset) % s.pageSize) value)
    exact ⟨⟨hsame.toSameTables.trans hinstalled, hsame.handler, hsame.tid⟩, rfl⟩
  · exact ⟨hsame, rfl⟩
  · exact ⟨hsame, rfl⟩

theorem FramesOnly.trans {t u : Machine} (hst : FramesOnly s t) (htu : FramesOnly t u) :
    FramesOnly s u :=
  ⟨hst.toSameTables.trans htu.toSameTables, htu.handler.trans hst.handler, htu.tid.trans hst.tid⟩

/-- The copy of a snapshot does not depend on the size of the target either. -/
theorem copyData_unwatched (other count : Nat)
    (hunwatched : ∀ offset < count,
      s.space.watched (s.page (s.base other + offset)) = false ∧
      s.space.watched (s.page (s.base memory + offset)) = false) :
    FramesOnly s (s.copyData other memory count).1 ∧
      (s.setSize memory size).copyData other memory count =
        ((s.copyData other memory count).1.setSize memory size,
          (s.copyData other memory count).2) := by
  induction count with
  | zero => exact ⟨⟨.refl s, rfl, rfl⟩, rfl⟩
  | succ count ih =>
    obtain ⟨hfront, hcopy⟩ := ih fun offset hoffset => hunwatched offset (by omega)
    obtain ⟨hsource, htarget⟩ := hunwatched count (by omega)
    unfold Machine.copyData
    rw [hcopy]
    rcases hcopied : s.copyData other memory count with ⟨t, seen⟩
    rw [hcopied] at hfront
    have hread := read_unwatched memory size (s := t) other count
      (by rw [hfront.watched, hfront.page_eq, hfront.base_eq]; exact hsource)
    cases seen with
    | restored =>
      simp only [hread.2]
      rcases hresult : t.read other count with ⟨u, found⟩
      rw [hresult] at hread
      have hmiddle := hfront.trans hread.1
      have hwrite : ∀ value, _ := fun value =>
        write_unwatched memory size (s := u) memory count value (by
            rw [hmiddle.watched, hmiddle.page_eq, hmiddle.base_eq]
            exact htarget)
      cases found with
      | byte value =>
        simp only [(hwrite value).2]
        rcases hresult : u.write memory count value with ⟨v, done⟩
        have hlast := (hwrite value).1
        rw [hresult] at hlast
        cases done <;> exact ⟨hmiddle.trans hlast, rfl⟩
      | stored => exact ⟨hmiddle, rfl⟩
      | resized => exact ⟨hmiddle, rfl⟩
      | restored => exact ⟨hmiddle, rfl⟩
      | segv => exact ⟨hmiddle, rfl⟩
      | stopped => exact ⟨hmiddle, rfl⟩
    | byte => exact ⟨hfront, rfl⟩
    | stored => exact ⟨hfront, rfl⟩
    | resized => exact ⟨hfront, rfl⟩
    | segv => exact ⟨hfront, rfl⟩
    | stopped => exact ⟨hfront, rfl⟩

end SetSize

/-! ### A memory with a bound of its own -/

/-- The size of `contents` is the bound of the accesses. -/
structure Loose where
  size : Nat
  contents : Flat UInt8

def Loose.bound (loose : Loose) : Nat := loose.contents.size

/-- With `drops`, what is cut off becomes zero, as far as it was inside the size. -/
def Loose.resize (drops : Bool) (newSize : Nat) (loose : Loose) : Loose where
  size := newSize
  contents :=
    { size := max loose.bound newSize
      data := fun offset =>
        if drops ∧ newSize ≤ offset ∧ offset < loose.size then 0 else loose.contents.data offset }

def Loose.store (offset : Nat) (value : UInt8) (loose : Loose) : Loose :=
  { loose with contents := loose.contents.store offset value }

def Loose.perform (drops : Bool) (contents : Nat → Option (Flat UInt8)) (loose : Loose) :
    Op → Loose × Observation
  | .resize newSize => (loose.resize drops newSize, .resized)
  | .restoreFrom other =>
      match contents other with
      | some snap =>
          ({ size := snap.size
             contents := copied snap snap.size (loose.resize drops snap.size).contents }, .restored)
      | none => (loose, .stopped)
  | .read offset =>
      (loose, if offset < loose.bound then .byte (loose.contents.data offset) else .segv)
  | .write offset value =>
      if offset < loose.bound then (loose.store offset value, .stored) else (loose, .segv)

def Loose.trace (drops : Bool) (contents : Nat → Option (Flat UInt8)) :
    Loose → List Op → List Observation
  | _, [] => []
  | loose, op :: ops =>
      (loose.perform drops contents op).2 ::
        Loose.trace drops contents (loose.perform drops contents op).1 ops

/-! ### Machines that implement it -/

/-- With the bound for its size, the memory is one that a strategy with protection
could have left. -/
structure Widened (memory : Nat) (contents : Nat → Option (Flat UInt8)) (loose : Loose)
    (s : Machine) : Prop where
  size : s.size memory = loose.size
  size_le : loose.size ≤ loose.bound
  sizeAligned : s.pageSize ∣ loose.size
  boundAligned : s.pageSize ∣ loose.bound
  stores : Stores memory contents (fun _ => 0) loose.contents (s.setSize memory loose.bound)
  guarded : Guarded memory (s.setSize memory loose.bound)

/-- A variant that implements the loose memory as long as the bound is a `Bound`. -/
structure LooseMode (memory : Nat) (contents : Nat → Option (Flat UInt8)) (drops : Bool) where
  resizeTo : Nat → Machine → Machine
  Bound : Nat → Prop
  resize : ∀ {s loose newSize}, Widened memory contents loose s → Bound loose.bound →
    s.pageSize ∣ newSize → newSize ≤ wmemSize / 2 →
    Widened memory contents (loose.resize drops newSize) (resizeTo newSize s) ∧
      Bound (max loose.bound newSize) ∧ (resizeTo newSize s).pageSize = s.pageSize

section Widened

variable {memory : Nat} {contents : Nat → Option (Flat UInt8)} {loose : Loose} {s : Machine}

theorem Widened.bound_le (hs : Widened memory contents loose s) : loose.bound ≤ wmemSize / 2 :=
  hs.stores.size_le

theorem Widened.unwatched (hs : Widened memory contents loose s) {offset : Nat}
    (hoffset : offset < wmemSize) :
    s.space.watched (s.page (s.base memory + offset)) = false := by
  have hin := hs.stores.inMapping hoffset
  have hpage := (hs.guarded _ hin).2
  rw [page_setSize, base_setSize] at hpage
  exact hpage

/-- What changes frames only, seen with the bound for its size. -/
theorem Widened.keep (hs : Widened memory contents loose s) {t : Machine} (hst : FramesOnly s t)
    {flat : Flat UInt8} (hflat : flat.size = loose.bound)
    (hstores : Stores memory contents (fun _ => 0) flat (t.setSize memory loose.bound))
    (hguarded : Guarded memory (t.setSize memory loose.bound)) :
    Widened memory contents ⟨loose.size, flat⟩ t where
  size := by
    rw [hst.size_eq]
    exact hs.size
  size_le := by
    show loose.size ≤ flat.size
    rw [hflat]
    exact hs.size_le
  sizeAligned := by
    rw [hst.pageSize_eq]
    exact hs.sizeAligned
  boundAligned := by
    show t.pageSize ∣ flat.size
    rw [hst.pageSize_eq, hflat]
    exact hs.boundAligned
  stores := by
    show Stores memory contents _ flat (t.setSize memory flat.size)
    rw [hflat]
    exact hstores
  guarded := by
    show Guarded memory (t.setSize memory flat.size)
    rw [hflat]
    exact hguarded

theorem Widened.read (hs : Widened memory contents loose s) {offset : Nat}
    (hoffset : offset < wmemSize) :
    ∃ t, s.read memory offset =
        (t, if offset < loose.bound then .byte (loose.contents.data offset) else .segv) ∧
      Widened memory contents loose t ∧ FramesOnly s t := by
  obtain ⟨hst, hread⟩ :=
    read_unwatched memory loose.bound memory offset (hs.unwatched hoffset)
  rcases hresult : s.read memory offset with ⟨t, seen⟩
  rw [hresult] at hst hread
  by_cases hin : offset < loose.bound
  · obtain ⟨u, hinside, hstores, hguarded, -⟩ :=
      (wavmMode memory contents).read_inside hs.guarded hs.stores hin
    rw [hread, Prod.mk.injEq] at hinside
    obtain ⟨rfl, rfl⟩ := hinside
    rw [if_pos hin]
    exact ⟨t, rfl, hs.keep hst rfl hstores hguarded, hst⟩
  · have hout := (wavmMode memory contents).read_outside hs.guarded hs.stores hs.boundAligned
      (Nat.le_of_not_lt hin) hoffset
    rw [hread, Prod.mk.injEq] at hout
    obtain ⟨hsame, rfl⟩ := hout
    rw [if_neg hin]
    exact ⟨t, rfl, hs.keep hst rfl (hsame ▸ hs.stores) (hsame ▸ hs.guarded), hst⟩

theorem Widened.write (hs : Widened memory contents loose s) {offset : Nat}
    (hoffset : offset < wmemSize) (value : UInt8) :
    ∃ t, s.write memory offset value = (t, if offset < loose.bound then .stored else .segv) ∧
      Widened memory contents (if offset < loose.bound then loose.store offset value else loose) t ∧
      FramesOnly s t := by
  obtain ⟨hst, hwrite⟩ := write_unwatched memory loose.bound memory offset value
    (hs.unwatched hoffset)
  rcases hresult : s.write memory offset value with ⟨t, seen⟩
  rw [hresult] at hst hwrite
  by_cases hin : offset < loose.bound
  · obtain ⟨u, hinside, hstores, hguarded, -⟩ :=
      (wavmMode memory contents).write_inside hs.guarded hs.stores hin value
    rw [hwrite, Prod.mk.injEq] at hinside
    obtain ⟨rfl, rfl⟩ := hinside
    rw [if_pos hin, if_pos hin]
    exact ⟨t, rfl, hs.keep hst rfl hstores hguarded, hst⟩
  · have hout := (wavmMode memory contents).write_outside hs.guarded hs.stores hs.boundAligned
      (Nat.le_of_not_lt hin) hoffset value
    rw [hwrite, Prod.mk.injEq] at hout
    obtain ⟨hsame, rfl⟩ := hout
    rw [if_neg hin, if_neg hin]
    exact ⟨t, rfl, hs.keep hst rfl (hsame ▸ hs.stores) (hsame ▸ hs.guarded), hst⟩

theorem Widened.source (hs : Widened memory contents loose s) {other : Nat} {snap : Flat UInt8}
    (hsnap : contents other = some snap) :
    s.size other = snap.size ∧ s.pageSize ∣ snap.size ∧ other ≠ memory := by
  have hsource := hs.stores.sources other snap hsnap
  refine ⟨?_, hsource.sizeAligned, hsource.ne⟩
  rw [← size_setSize_ne memory loose.bound hsource.ne]
  exact hsource.size

/-- The copy of a snapshot that fits. -/
theorem Widened.copyAll (hs : Widened memory contents loose s) {other : Nat} {snap : Flat UInt8}
    (hsnap : contents other = some snap) (hfits : snap.size ≤ loose.bound) :
    ∃ t, s.copyAll other memory = (t, .restored) ∧
      Widened memory contents ⟨loose.size, copied snap snap.size loose.contents⟩ t ∧
      FramesOnly s t := by
  have hsource := hs.stores.sources other snap hsnap
  have hbound := hs.bound_le
  have hhalf := half_le
  obtain ⟨hst, hcopy⟩ := copyData_unwatched memory loose.bound (s := s) other snap.size (by
      intro offset hoffset
      have hread := (hsource.readable offset hoffset).2
      rw [page_setSize, base_setSize] at hread
      exact ⟨hread, hs.unwatched (by omega)⟩)
  obtain ⟨u, hcopied, hstores, hguarded, -⟩ :=
    (wavmMode memory contents).copyData hs.guarded hs.stores hsnap (le_refl _) hfits
  rcases hresult : s.copyData other memory snap.size with ⟨t, seen⟩
  rw [hresult] at hst hcopy
  rw [hcopy, Prod.mk.injEq] at hcopied
  obtain ⟨rfl, rfl⟩ := hcopied
  refine ⟨t, ?_, hs.keep hst rfl hstores hguarded, hst⟩
  rw [Machine.copyAll, (hs.source hsnap).1, hresult]

end Widened

/-! ### Whole sequences -/

section Run

variable {memory : Nat} {contents : Nat → Option (Flat UInt8)} {drops : Bool} {loose : Loose}
  {s : Machine}

theorem LooseMode.perform (mode : LooseMode memory contents drops)
    (hs : Widened memory contents loose s) (hbound : mode.Bound loose.bound) {op : Op}
    (hop : Admissible s.pageSize contents op) :
    ∃ t, performWith mode.resizeTo memory s op = (t, (loose.perform drops contents op).2) ∧
      Widened memory contents (loose.perform drops contents op).1 t ∧
      mode.Bound (loose.perform drops contents op).1.bound ∧ t.pageSize = s.pageSize := by
  cases op with
  | resize newSize =>
    obtain ⟨hsize, hle⟩ := hop
    obtain ⟨hresized, hnext, hpageSize⟩ := mode.resize hs hbound hsize hle
    exact ⟨_, rfl, hresized, hnext, hpageSize⟩
  | restoreFrom other =>
    obtain ⟨snap, hsnap, hle⟩ := hop
    obtain ⟨hsize, haligned, -⟩ := hs.source hsnap
    obtain ⟨hresized, hnext, hpageSize⟩ := mode.resize hs hbound haligned hle
    obtain ⟨t, hcopy, hcopied, hst⟩ := hresized.copyAll hsnap (Nat.le_max_right _ _)
    simp only [Loose.perform, hsnap, performWith, hsize]
    exact ⟨t, hcopy, hcopied, hnext, hst.pageSize_eq.trans hpageSize⟩
  | read offset =>
    obtain ⟨t, hread, hkept, hst⟩ := hs.read hop
    exact ⟨t, hread, hkept, hbound, hst.pageSize_eq⟩
  | write offset value =>
    obtain ⟨t, hwrite, hkept, hst⟩ := hs.write hop value
    refine ⟨t, ?_, ?_, ?_, hst.pageSize_eq⟩
    · rw [performWith, hwrite, Loose.perform]
      split <;> rfl
    · rw [Loose.perform]
      split <;> rename_i hin
      · rwa [if_pos hin] at hkept
      · rwa [if_neg hin] at hkept
    · rw [Loose.perform]
      split <;> exact hbound

theorem LooseMode.trace (mode : LooseMode memory contents drops)
    (hs : Widened memory contents loose s) (hbound : mode.Bound loose.bound) {ops : List Op}
    (hops : ∀ op ∈ ops, Admissible s.pageSize contents op) :
    traceWith mode.resizeTo memory s ops = loose.trace drops contents ops := by
  induction ops generalizing s loose with
  | nil => rfl
  | cons op ops ih =>
    obtain ⟨t, hperform, hnext, hkept, hpageSize⟩ :=
      mode.perform hs hbound (hops op List.mem_cons_self)
    rw [traceWith, Loose.trace, hperform, ih hnext hkept]
    intro later hlater
    rw [hpageSize]
    exact hops later (List.mem_cons_of_mem op hlater)

end Run

/-! ### The two variants -/

section Variants

variable {memory newSize : Nat} {contents : Nat → Option (Flat UInt8)} {loose : Loose}
  {s : Machine}

theorem Widened.resizeNoProtect (hs : Widened memory contents loose s)
    (hbound : loose.bound = wmemSize / 2) (hnew : s.pageSize ∣ newSize)
    (hle : newSize ≤ wmemSize / 2) :
    Widened memory contents (loose.resize false newSize)
      (Unprotected.resizeNoProtect memory newSize s) := by
  have hsame : (loose.resize false newSize).contents = loose.contents := by
    have hmax : max loose.contents.size newSize = loose.contents.size :=
      Nat.max_eq_left (le_of_le_of_eq hle hbound.symm)
    simp [Loose.resize, Loose.bound, hmax]
  have hkept : (loose.resize false newSize).bound = loose.bound := by
    rw [Loose.bound, hsame, Loose.bound]
  refine ⟨size_setSize s memory newSize, ?_, hnew, ?_, ?_, ?_⟩
  · rw [hkept, hbound]
    exact hle
  · rw [hkept]
    exact hs.boundAligned
  · rw [hkept, hsame, Unprotected.resizeNoProtect, setSize_setSize]
    exact hs.stores
  · rw [hkept, Unprotected.resizeNoProtect, setSize_setSize]
    exact hs.guarded

def noProtectMode (memory : Nat) (contents : Nat → Option (Flat UInt8)) :
    LooseMode memory contents false where
  resizeTo := resizeNoProtect memory
  Bound := fun bound => bound = wmemSize / 2
  resize := fun hs hbound hnew hle =>
    ⟨hs.resizeNoProtect hbound hnew hle, by rw [hbound]; exact Nat.max_eq_left hle, rfl⟩

/-- Shrinking drops the frames between the new size and the old one, and what is
beyond the old size stays. -/
theorem Widened.dropped (hs : Widened memory contents loose s) (hnew : s.pageSize ∣ newSize)
    (hlt : newSize < s.size memory) :
    Widened memory contents (loose.resize true newSize)
      ((s.madviseDontneed (s.base memory + newSize) (s.size memory - newSize)).setSize memory
        newSize) := by
  have hsize := hs.size
  have hsize_le := hs.size_le
  have hmax : max loose.contents.size newSize = loose.contents.size := by
    rw [Loose.bound] at hsize_le
    omega
  have hkept : (loose.resize true newSize).bound = loose.bound := hmax
  have hcontents : (loose.resize true newSize).contents = ⟨loose.bound, fun offset =>
      if newSize ≤ offset ∧ offset < s.size memory then 0 else loose.contents.data offset⟩ := by
    simp [Loose.resize, Loose.bound, hmax, hsize]
  have hwide : ((s.madviseDontneed (s.base memory + newSize) (s.size memory - newSize)).setSize
      memory newSize).setSize memory loose.bound = (s.setSize memory loose.bound).madviseDontneed
        (s.base memory + newSize) (s.size memory - newSize) := setSize_setSize ..
  have htables : SameTables (s.setSize memory loose.bound)
      ((s.setSize memory loose.bound).madviseDontneed (s.base memory + newSize)
        (s.size memory - newSize)) := ⟨rfl, rfl, rfl, rfl, rfl, rfl⟩
  refine ⟨size_setSize .., ?_, hnew, ?_, ?_, ?_⟩
  · rw [hkept]
    show newSize ≤ _
    omega
  · rw [hkept]
    exact hs.boundAligned
  · rw [hkept, hcontents, hwide]
    apply hs.stores.keep _ htables
    · intro address houtside
      have huncovered : covers s.pageSize (s.base memory + newSize) (s.size memory - newSize)
          (s.page address) = false := by
        have hbound := hs.bound_le
        have hhalf := half_le
        rw [InMapping, not_and_or, page_setSize, base_setSize, pageSize_setSize] at houtside
        simp only [covers, Bool.and_eq_false_iff, decide_eq_false_iff_not]
        omega
      rw [sourceByte, sourceByte, htables.page_eq, htables.pageSize_eq]
      simp only [madviseDontneed, Space.discard, pageSize_setSize, page_setSize, huncovered]
      rfl
    · rfl
    · have hbase := hs.stores.aligned
      have hbacks := hs.stores.backs
      rw [pageSize_setSize, base_setSize] at hbase hbacks ⊢
      apply hbacks.drop hbase hnew (hsize ▸ hs.sizeAligned) (pageSize_pos s)
      · intro page hcovered
        simp [madviseDontneed, Space.discard, hcovered]
      · intro page hcovered
        simp only [madviseDontneed, Space.discard, pageSize_setSize, hcovered]
        rfl
  · rw [hkept, hwide]
    exact hs.guarded.stable htables

/-- Growing opens the pages up to the new size, of which those below the bound are
open already. -/
theorem Widened.opened (hs : Widened memory contents loose s) (hgrows : s.size memory < newSize) :
    s.mprotect (s.base memory + s.size memory) (newSize - s.size memory) true =
      if loose.bound < newSize then
        s.mprotect (s.base memory + loose.bound) (newSize - loose.bound) true
      else s := by
  have hsize := hs.size
  have hsize_le := hs.size_le
  have hbound := hs.bound_le
  have hhalf := half_le
  have hopen : ∀ page, s.base memory ≤ page * s.pageSize →
      page * s.pageSize < s.base memory + loose.bound → s.space.accessible page = true := by
    intro page hfrom hto
    have hpage := (hs.guarded page (by
      rw [InMapping, pageSize_setSize, base_setSize]
      omega)).1
    rw [pageSize_setSize, base_setSize, size_setSize, decide_eq_true hto] at hpage
    exact hpage
  split
  · have haccessible : ∀ page,
        (if covers s.pageSize (s.base memory + s.size memory) (newSize - s.size memory) page
          then true else s.space.accessible page) =
        if covers s.pageSize (s.base memory + loose.bound) (newSize - loose.bound) page
          then true else s.space.accessible page := by
      intro page
      have hpage := hopen page
      simp only [covers, Bool.and_eq_true, decide_eq_true_eq]
      split_ifs with hsmall hlarge hlarge
      · rfl
      · rw [hpage (by omega) (by omega)]
      · omega
      · rfl
    simp only [mprotect, Space.protect, haccessible]
  · have haccessible : ∀ page,
        (if covers s.pageSize (s.base memory + s.size memory) (newSize - s.size memory) page
          then true else s.space.accessible page) = s.space.accessible page := by
      intro page
      split
      · rename_i hcovered
        simp only [covers, Bool.and_eq_true, decide_eq_true_eq] at hcovered
        rw [hopen page (by omega) (by omega)]
      · rfl
    simp only [mprotect, Space.protect, haccessible]

theorem mprotect_setSize (s : Machine) (memory size start length : Nat) :
    (s.setSize memory size).mprotect start length true =
      (s.mprotect start length true).setSize memory size := rfl

/-- With the bound for its size, a growing memory is resized as with protection. -/
theorem Widened.grown (hs : Widened memory contents loose s) (hgrows : s.size memory < newSize) :
    ((s.mprotect (s.base memory + s.size memory) (newSize - s.size memory) true).setSize memory
        newSize).setSize memory (max loose.bound newSize) =
      (s.setSize memory loose.bound).resizeWavm memory (max loose.bound newSize) := by
  rw [hs.opened hgrows, setSize_setSize, resizeWavm, size_setSize, base_setSize,
    if_neg (Nat.not_lt.mpr (Nat.le_max_left _ _))]
  by_cases hlarger : loose.bound < newSize
  · rw [Nat.max_eq_right (le_of_lt hlarger)]
    simp only [if_pos hlarger, mprotect_setSize, setSize_setSize]
  · rw [Nat.max_eq_left (Nat.le_of_not_lt hlarger)]
    simp only [if_neg hlarger, lt_irrefl, if_false, setSize_setSize]

theorem Widened.resizeWavmDontneed (hs : Widened memory contents loose s)
    (hnew : s.pageSize ∣ newSize) (hle : newSize ≤ wmemSize / 2) :
    Widened memory contents (loose.resize true newSize)
      (s.resizeWavmDontneed memory newSize false) := by
  have hsize := hs.size
  have hsize_le := hs.size_le
  rcases Nat.lt_or_ge newSize (s.size memory) with hlt | hge
  · simp only [Machine.resizeWavmDontneed, if_pos hlt]
    exact hs.dropped hnew hlt
  · simp only [Machine.resizeWavmDontneed, if_neg (Nat.not_lt.mpr hge)]
    rcases Nat.lt_or_eq_of_le hge with hgrows | hsame
    · rw [if_pos hgrows]
      have hmax : s.pageSize ∣ max loose.bound newSize := by
        rcases Nat.le_total loose.bound newSize with hcase | hcase
        · rw [Nat.max_eq_right hcase]
          exact hnew
        · rw [Nat.max_eq_left hcase]
          exact hs.boundAligned
      obtain ⟨hstores, hguarded⟩ := (wavmMode memory contents).resize hs.guarded hs.stores
        hs.boundAligned hmax (Nat.max_le.mpr ⟨hs.bound_le, hle⟩)
      have hcontents : (loose.resize true newSize).contents =
          loose.contents.resize (fun _ => 0) (max loose.bound newSize) := by
        simp only [Loose.resize, Flat.resize, Flat.mk.injEq, true_and]
        funext offset
        rw [if_neg (by omega)]
        by_cases hin : offset < loose.bound
        · rw [if_pos ⟨lt_of_lt_of_le hin (Nat.le_max_left _ _), hin⟩]
        · rw [if_neg fun h => hin h.2]
          exact hs.stores.backs.outside offset (Nat.le_of_not_lt hin)
      refine ⟨size_setSize .., Nat.le_max_right _ _, hnew, hmax, ?_, ?_⟩
      · show Stores memory contents _ _ (((s.mprotect _ _ true).setSize memory newSize).setSize memory
          (max loose.bound newSize))
        rw [hs.grown hgrows, hcontents]
        exact hstores
      · show Guarded memory (((s.mprotect _ _ true).setSize memory newSize).setSize memory
          (max loose.bound newSize))
        rw [hs.grown hgrows]
        exact hguarded
    · -- The size stays as it is.
      have hloose : loose.resize true newSize = loose := by
        have hmax : max loose.contents.size newSize = loose.contents.size := by
          rw [Loose.bound] at hsize_le
          omega
        have hdata : ∀ offset, ¬ (newSize ≤ offset ∧ offset < loose.size) := by
          intro offset
          omega
        have hequal : newSize = loose.size := hsame.symm.trans hsize
        cases loose
        simp only [Loose.resize, Loose.bound, hmax, hdata, and_false, if_false, Loose.mk.injEq,
          and_true]
        exact hequal
      rw [if_neg (by omega), hloose, ← hsame, setSize_self]
      exact hs

def dontneedMode (memory : Nat) (contents : Nat → Option (Flat UInt8)) :
    LooseMode memory contents true where
  resizeTo := fun newSize s => s.resizeWavmDontneed memory newSize false
  Bound := fun _ => True
  resize := fun hs _ hnew hle =>
    ⟨hs.resizeWavmDontneed hnew hle, trivial, pageSize_resize (.dontneed false) ..⟩

end Variants

/-! ### Agreement with the protected variant -/

section Agreement

variable {memory base : Nat} {contents : Nat → Option (Flat UInt8)} {s : Machine}

def Loose.empty : Loose := ⟨0, ⟨0, fun _ => 0⟩⟩

theorem construct_widened (hroom : Room s memory base contents) :
    Widened memory contents .empty (s.construct memory base) := by
  have hwide : (s.construct memory base).setSize memory 0 = s.construct memory base := by
    conv_rhs => rw [← setSize_self (s.construct memory base) memory, size_construct]
  refine ⟨size_construct s memory base, le_refl 0, Nat.dvd_zero _, Nat.dvd_zero _, ?_, ?_⟩
  · show Stores memory contents _ _ ((s.construct memory base).setSize memory 0)
    rw [hwide]
    exact construct_stores hroom fun _ => 0
  · show Guarded memory ((s.construct memory base).setSize memory 0)
    rw [hwide]
    exact construct_guarded

/-- No access at or above the size of the moment and below the largest size so far. -/
def NeverBetween (contents : Nat → Option (Flat UInt8)) : Nat → Nat → List Op → Prop
  | _, _, [] => True
  | _, bound, .resize newSize :: ops => NeverBetween contents newSize (max bound newSize) ops
  | size, bound, .restoreFrom other :: ops =>
      match contents other with
      | some snap => NeverBetween contents snap.size (max bound snap.size) ops
      | none => NeverBetween contents size bound ops
  | size, bound, .read offset :: ops =>
      ¬ (size ≤ offset ∧ offset < bound) ∧ NeverBetween contents size bound ops
  | size, bound, .write offset _ :: ops =>
      ¬ (size ≤ offset ∧ offset < bound) ∧ NeverBetween contents size bound ops

/-- The same bytes, and zeros from the size on. -/
structure Agrees (flat : Flat UInt8) (loose : Loose) : Prop where
  size : loose.size = flat.size
  size_le : loose.size ≤ loose.bound
  data : ∀ offset, loose.contents.data offset = flat.data offset
  outside : ∀ offset, flat.size ≤ offset → flat.data offset = 0

theorem Agrees.resize {flat : Flat UInt8} {loose : Loose} (hagrees : Agrees flat loose)
    (newSize : Nat) : Agrees (flat.resize (fun _ => 0) newSize) (loose.resize true newSize) where
  size := rfl
  size_le := Nat.le_max_right _ _
  data := fun offset => by
    have houtside := hagrees.outside offset
    simp only [Loose.resize, Flat.resize, hagrees.data, hagrees.size, true_and]
    by_cases hin : offset < flat.size
    · by_cases hnew : newSize ≤ offset
      · rw [if_pos ⟨hnew, hin⟩, if_neg (by omega)]
      · rw [if_neg (by omega), if_pos ⟨Nat.lt_of_not_le hnew, hin⟩]
    · rw [if_neg (by omega), if_neg (by omega), houtside (Nat.le_of_not_lt hin)]
  outside := fun offset hout => if_neg fun hin => absurd hin.1 (Nat.not_lt.mpr hout)

theorem Agrees.restored {flat : Flat UInt8} {loose : Loose} (hagrees : Agrees flat loose)
    (snap : Flat UInt8) :
    Agrees ⟨snap.size, fun offset => if offset < snap.size then snap.data offset else 0⟩
      ⟨snap.size, copied snap snap.size (loose.resize true snap.size).contents⟩ where
  size := rfl
  size_le := Nat.le_max_right _ _
  data := fun offset => by
    have hresized := hagrees.resize snap.size
    simp only [copied]
    by_cases hin : offset < snap.size
    · rw [if_pos hin, if_pos hin]
    · rw [if_neg hin, if_neg hin, hresized.data]
      exact hresized.outside offset (Nat.le_of_not_lt hin)
  outside := fun offset hout => if_neg (Nat.not_lt.mpr hout)

theorem Agrees.store {flat : Flat UInt8} {loose : Loose} (hagrees : Agrees flat loose)
    {offset : Nat} (hin : offset < flat.size) (value : UInt8) :
    Agrees (flat.store offset value) (loose.store offset value) where
  size := hagrees.size
  size_le := hagrees.size_le
  data := fun other => by
    by_cases hother : other = offset
    · subst hother
      simp [Loose.store, Flat.store]
    · simp [Loose.store, Flat.store, hother, hagrees.data]
  outside := fun other hout => by
    have hother : other ≠ offset := by
      rintro rfl
      exact absurd hin (Nat.not_lt.mpr hout)
    have houtside := hagrees.outside other hout
    simpa [Flat.store, hother] using houtside

theorem trace_eq_iff {ops : List Op} {flat : Flat UInt8} {loose : Loose}
    (hagrees : Agrees flat loose) :
    loose.trace true contents ops = flatTrace contents (fun _ => 0) flat ops ↔
      NeverBetween contents loose.size loose.bound ops := by
  induction ops generalizing flat loose with
  | nil => simp [Loose.trace, flatTrace, NeverBetween]
  | cons op ops ih =>
    have hsize := hagrees.size
    have hsize_le := hagrees.size_le
    rw [Loose.trace, flatTrace, List.cons.injEq]
    cases op with
    | resize newSize =>
      exact (and_iff_right rfl).trans (ih (hagrees.resize newSize))
    | restoreFrom other =>
      simp only [Loose.perform, flatPerform, NeverBetween]
      cases contents other with
      | none => exact (and_iff_right rfl).trans (ih hagrees)
      | some snap => exact (and_iff_right rfl).trans (ih (hagrees.restored snap))
    | read offset =>
      rw [NeverBetween, ← ih hagrees]
      apply and_congr_left
      intro _
      simp only [Loose.perform, flatPerform, hsize, hagrees.data]
      by_cases hin : offset < flat.size
      · rw [if_pos hin, if_pos (by omega)]
        simp [hin]
      · by_cases hbound : offset < loose.bound
        · rw [if_pos hbound, if_neg hin]
          simp only [reduceCtorEq, false_iff, not_not]
          omega
        · rw [if_neg hbound, if_neg hin]
          simp [hbound]
    | write offset value =>
      rw [NeverBetween]
      by_cases hin : offset < flat.size
      · have hbound : offset < loose.bound := by omega
        rw [Loose.perform, flatPerform, if_pos hin, if_pos hbound]
        rw [ih (hagrees.store hin value)]
        have hbelow : ¬ (loose.size ≤ offset ∧ offset < loose.bound) := by omega
        simp only [true_and, hbelow, not_false_eq_true]
        rfl
      · by_cases hbound : offset < loose.bound
        · rw [Loose.perform, flatPerform, if_neg hin, if_pos hbound]
          simp only [reduceCtorEq, false_and, false_iff, not_and_or]
          left
          omega
        · rw [Loose.perform, flatPerform, if_neg hin, if_neg hbound, ih hagrees]
          simp [hbound]

/-- Without `mprotect` the accesses are checked against the largest size so far, and
what was written beyond the size stays there.  The cheaper variant therefore shows
what the protected one shows exactly as long as nothing between the two is accessed. -/
theorem dontneed_agrees_iff (hroom : Room s memory base contents) {ops : List Op}
    (hops : ∀ op ∈ ops, Admissible s.pageSize contents op) :
    (s.construct memory base).trace (.dontneed false) memory ops =
        Loose.empty.trace true contents ops ∧
      ((s.construct memory base).trace (.dontneed false) memory ops =
          (s.construct memory base).trace (.dontneed true) memory ops ↔
        NeverBetween contents 0 0 ops) := by
  have hloose : (s.construct memory base).trace (.dontneed false) memory ops =
      Loose.empty.trace true contents ops := by
    rw [trace_eq_traceWith]
    exact (dontneedMode memory contents).trace (construct_widened hroom) trivial hops
  have hprotected : (s.construct memory base).trace (.dontneed true) memory ops =
      flatTrace contents (fun _ => 0) ⟨0, fun _ => 0⟩ ops :=
    (Strategies.dontneedMode memory contents).trace construct_guarded
      (construct_stores hroom fun _ => 0) (Nat.dvd_zero _) hops
  refine ⟨hloose, ?_⟩
  rw [hloose, hprotected]
  exact trace_eq_iff ⟨rfl, le_refl 0, fun _ => rfl, fun _ _ => rfl⟩

/-- A byte written beyond the size comes back when the memory grows. -/
theorem dontneed_agrees_iff_hosting :
    let s := (hosting ⟨4096, UInt8.ofNat⟩ none).construct 0 memoryBase
    let ops : List Op := [.resize 8192, .resize 4096, .write 5000 7, .resize 8192, .read 5000]
    s.trace (.dontneed false) 0 ops = [.resized, .resized, .stored, .resized, .byte 7] ∧
      s.trace (.dontneed false) 0 ops ≠ s.trace (.dontneed true) 0 ops := by
  intro s ops
  have hroom := hosting_room ⟨4096, UInt8.ofNat⟩ none (by decide) (by decide)
  have hops : ∀ op ∈ ops, Admissible 4096 (hosted ⟨4096, UInt8.ofNat⟩) op := by
    simp only [ops, List.forall_mem_cons, Admissible]
    exact ⟨by decide, by decide, by decide, by decide, by decide, by simp⟩
  obtain ⟨hloose, hiff⟩ := dontneed_agrees_iff hroom hops
  constructor
  · rw [hloose]
    decide
  · rw [Ne, hiff]
    simp [ops, NeverBetween]

end Agreement

end NdpOffload.Faultspeed.Unprotected
