import NdpOffload.Faultspeed.Refinement

/-! The resizing strategies behave alike.  Each splits the work between mapping,
protection, dropping of pages and the fault handler in its own way, and each
implements the same resizable memory. -/
namespace NdpOffload.Faultspeed.Strategies

open Library.Paging Memory Machine Refinement

/-! ### Resizing -/

section Resizing

variable {memory newSize : Nat} {contents : Nat → Option (Flat UInt8)} {fill : Nat → UInt8}
  {flat : Flat UInt8} {s t : Machine}

/-- All strategies drop the same frames. -/
theorem stores_resized (hs : Stores memory contents fill flat s)
    (hold : s.pageSize ∣ flat.size) (hnew : newSize < flat.size → s.pageSize ∣ newSize)
    (hle : newSize ≤ wmemSize / 2) (hbits : t.pageBits = s.pageBits) (hmemories : t.memories = (s.setSize memory newSize).memories)
    (htables : ∀ page, ¬ InMapping s memory page →
      t.space.accessible page = s.space.accessible page ∧
      t.space.watched page = s.space.watched page)
    (hframe : ∀ page, t.space.frame page =
      if newSize < flat.size ∧
        covers s.pageSize (s.base memory + newSize) (flat.size - newSize) page = true
      then none else s.space.frame page) :
    Stores memory contents fill (flat.resize fill newSize) t := by
  have hpageSize : t.pageSize = s.pageSize := by rw [pageSize, hbits, pageSize]
  have hbase : t.base memory = s.base memory := by rw [base, hmemories]; simp [setSize, base]
  have hhalf := half_le
  have hsize_le := hs.size_le
  refine ⟨?_, ?_, ?_, hle, ?_, ?_⟩
  · rw [hbits]
    exact hs.pageBits
  · rw [hpageSize, hbase]
    exact hs.aligned
  · rw [Machine.size, hmemories]
    simp [setSize, Flat.resize]
  · rw [hpageSize, hbase]
    by_cases hlt : newSize < flat.size
    · apply hs.backs.shrink hs.aligned (hnew hlt) (pageSize_pos s) hlt
      · intro page hcovered
        rw [hframe, if_pos ⟨hlt, hcovered⟩]
      · intro page hcovered
        rw [hframe, if_neg (by simp [hcovered])]
    · have hgrown := hs.backs.grow hs.aligned hold (pageSize_pos s) (Nat.le_of_not_lt hlt)
        (le_trans hle hhalf)
      apply hgrown.congr hs.aligned (le_trans hle hhalf)
      intro page _ _
      rw [hframe, if_neg (by omega)]
  · intro other snap hsnap
    have hsource := hs.sources other snap hsnap
    apply hsource.keep hbits hbase _ htables
    · intro address haddress
      have hpage : t.page address = s.page address := by rw [page, hpageSize, page]
      have huncovered : ¬ (newSize < flat.size ∧ covers s.pageSize (s.base memory + newSize)
          (flat.size - newSize) (s.page address) = true) := by
        rintro ⟨hlt, hcovered⟩
        simp only [covers, Bool.and_eq_true, decide_eq_true_eq] at hcovered
        exact haddress ⟨by omega, by omega⟩
      rw [sourceByte, sourceByte, hpage, hpageSize, hframe, if_neg huncovered]
    · rw [hmemories]
      simp [setSize, hsource.ne]

/-- Protection is exactly up to the size, and nobody watches. -/
def Guarded (memory : Nat) (s : Machine) : Prop :=
  ∀ page, InMapping s memory page →
    s.space.accessible page = decide (page * s.pageSize < s.base memory + s.size memory) ∧
    s.space.watched page = false

theorem Guarded.stable (hsame : SameTables s t) (hs : Guarded memory s) : Guarded memory t := by
  intro page hpage
  rw [InMapping, hsame.base_eq, hsame.pageSize_eq] at hpage
  rw [hsame.accessible, hsame.watched, hsame.pageSize_eq, hsame.base_eq, hsame.size_eq]
  exact hs page hpage

theorem Guarded.accessible (hguarded : Guarded memory s)
    (hs : Stores memory contents fill flat s) {offset : Nat} (hoffset : offset < flat.size) :
    s.space.accessible (s.page (s.base memory + offset)) = true := by
  have hle := le_trans hs.size_le half_le
  have hround := round_le_self s.pageSize offset
  rw [(hguarded _ (hs.inMapping (by omega))).1, page, page_begin hs.aligned, hs.size]
  simp only [decide_eq_true_eq]
  omega

theorem Guarded.missing (hguarded : Guarded memory s)
    (hs : Stores memory contents (fun _ => 0) flat s) {offset : Nat} (hoffset : offset < flat.size)
    (hframe : s.space.frame (s.page (s.base memory + offset)) = none) :
    ∃ t frame, s.access (s.base memory + offset) = (t, .frame frame) ∧ SameTables s t ∧
      t.space.frame = (s.space.install (s.page (s.base memory + offset)) frame).frame ∧
      ∀ i < s.pageSize, frame i = (fun _ => 0) (offset / s.pageSize * s.pageSize + i) := by
  have hle := le_trans hs.size_le half_le
  exact ⟨_, _, access_absent (hguarded.accessible hs hoffset) hframe
    (hguarded _ (hs.inMapping (by omega))).2, sameTables_install s _ _, rfl, fun _ _ => rfl⟩

theorem Guarded.outside (hguarded : Guarded memory s)
    (hs : Stores memory contents fill flat s) (haligned : s.pageSize ∣ flat.size) {offset : Nat}
    (hout : flat.size ≤ offset) (hlt : offset < wmemSize) :
    s.access (s.base memory + offset) = (s, .segv) := by
  apply access_denied
  have hround : ¬ offset / s.pageSize * s.pageSize < flat.size := by
    rw [round_lt_iff haligned (pageSize_pos s)]
    omega
  rw [(hguarded _ (hs.inMapping hlt)).1, page, page_begin hs.aligned, hs.size]
  simp only [decide_eq_false_iff_not]
  omega

/-- The tables after a resize that leaves the new protection behind. -/
theorem Guarded.resized (hguarded : Guarded memory s) (hbits : t.pageBits = s.pageBits)
    (hmemories : t.memories = (s.setSize memory newSize).memories)
    (haccessible : ∀ page, t.space.accessible page =
      if covers s.pageSize (s.base memory + newSize) (s.size memory - newSize) page then false
      else if covers s.pageSize (s.base memory + s.size memory) (newSize - s.size memory) page
        then true else s.space.accessible page)
    (hwatched : ∀ page, InMapping s memory page → s.space.watched page = false →
      t.space.watched page = false) : Guarded memory t := by
  have hpageSize : t.pageSize = s.pageSize := by rw [pageSize, hbits, pageSize]
  have hbase : t.base memory = s.base memory := by rw [base, hmemories]; simp [setSize, base]
  have hsize : t.size memory = newSize := by rw [Machine.size, hmemories]; simp [setSize]
  intro page hpage
  rw [InMapping, hpageSize, hbase] at hpage
  obtain ⟨hold, hfree⟩ := hguarded page hpage
  refine ⟨?_, hwatched page hpage hfree⟩
  rw [haccessible, hold, hpageSize, hbase, hsize]
  simp only [covers, Bool.and_eq_true, decide_eq_true_eq]
  split_ifs with hshrunk hgrown
  · rw [eq_comm, decide_eq_false_iff_not]
    omega
  · rw [eq_comm, decide_eq_true_eq]
    omega
  · rw [decide_eq_decide]
    omega

/-- What the strategies with protection leave behind. -/
structure Resizes (memory newSize : Nat) (s t : Machine) : Prop where
  pageBits : t.pageBits = s.pageBits
  memories : t.memories = (s.setSize memory newSize).memories
  frame : ∀ page, t.space.frame page =
    if newSize < s.size memory ∧
      covers s.pageSize (s.base memory + newSize) (s.size memory - newSize) page = true
    then none else s.space.frame page
  accessible : ∀ page, t.space.accessible page =
    if covers s.pageSize (s.base memory + newSize) (s.size memory - newSize) page then false
    else if covers s.pageSize (s.base memory + s.size memory) (newSize - s.size memory) page
      then true else s.space.accessible page
  watched : ∀ page, t.space.watched page = s.space.watched page ∨
    InMapping s memory page ∧ t.space.watched page = false

theorem resizes_grown (hle : s.size memory ≤ newSize) :
    Resizes memory newSize s
      ((if s.size memory < newSize then
          s.mprotect (s.base memory + s.size memory) (newSize - s.size memory) true
        else s).setSize memory newSize) := by
  by_cases hlt : s.size memory < newSize
  · rw [if_pos hlt]
    refine ⟨rfl, rfl, ?_, ?_, fun _ => .inl rfl⟩
    · intro page
      rw [if_neg (by omega)]
      rfl
    · intro page
      rw [Nat.sub_eq_zero_of_le hle, covers_nothing]
      rfl
  · rw [if_neg hlt]
    refine ⟨rfl, rfl, ?_, ?_, fun _ => .inl rfl⟩
    · intro page
      rw [if_neg (by omega)]
      rfl
    · intro page
      rw [Nat.sub_eq_zero_of_le hle, Nat.sub_eq_zero_of_le (Nat.le_of_not_lt hlt), covers_nothing,
        covers_nothing]
      rfl

theorem resizeWavm_resizes (hsize : s.size memory ≤ wmemSize) :
    Resizes memory newSize s (s.resizeWavm memory newSize) := by
  by_cases hlt : newSize < s.size memory
  · have hshrunk : s.resizeWavm memory newSize =
        (s.mmapNone (s.base memory + newSize) (s.size memory - newSize)).setSize memory newSize := by
      simp only [resizeWavm, if_pos hlt]
    rw [hshrunk]
    refine ⟨rfl, rfl, ?_, ?_, ?_⟩
    · intro page
      simp [setSize, mmapNone, Space.remap, hlt]
    · intro page
      rw [Nat.sub_eq_zero_of_le (le_of_lt hlt), covers_nothing]
      rfl
    · intro page
      by_cases hcovered : covers s.pageSize (s.base memory + newSize)
          (s.size memory - newSize) page = true
      · right
        refine ⟨?_, by simp [setSize, mmapNone, Space.remap, hcovered]⟩
        simp only [covers, Bool.and_eq_true, decide_eq_true_eq] at hcovered
        exact ⟨by omega, by omega⟩
      · left
        simp [setSize, mmapNone, Space.remap, hcovered]
  · simp only [resizeWavm, if_neg hlt]
    exact resizes_grown (Nat.le_of_not_lt hlt)

theorem resizeWavmDontneed_resizes :
    Resizes memory newSize s (s.resizeWavmDontneed memory newSize true) := by
  by_cases hlt : newSize < s.size memory
  · have hshrunk : s.resizeWavmDontneed memory newSize true =
        ((s.madviseDontneed (s.base memory + newSize) (s.size memory - newSize)).mprotect
          (s.base memory + newSize) (s.size memory - newSize) false).setSize memory newSize := by
      simp only [resizeWavmDontneed, if_pos hlt, if_true]
    rw [hshrunk]
    refine ⟨rfl, rfl, ?_, ?_, fun _ => .inl rfl⟩
    · intro page
      simp [setSize, mprotect, madviseDontneed, Space.protect, Space.discard, hlt]
    · intro page
      rw [Nat.sub_eq_zero_of_le (le_of_lt hlt), covers_nothing]
      rfl
  · simp only [resizeWavmDontneed, if_neg hlt]
    exact resizes_grown (Nat.le_of_not_lt hlt)

theorem Resizes.stores (hresizes : Resizes memory newSize s t)
    (hs : Stores memory contents fill flat s) (hold : s.pageSize ∣ flat.size)
    (hnew : s.pageSize ∣ newSize) (hle : newSize ≤ wmemSize / 2) :
    Stores memory contents fill (flat.resize fill newSize) t := by
  have hsize := hs.size
  have hsize_le := hs.size_le
  have hhalf := half_le
  apply stores_resized hs hold (fun _ => hnew) hle hresizes.pageBits hresizes.memories
  · intro page hpage
    refine ⟨?_, ?_⟩
    · have huncovered : ∀ start length, s.base memory ≤ start →
          start + length ≤ s.base memory + wmemSize → covers s.pageSize start length page = false := by
        intro start length hfrom hto
        rw [InMapping, not_and_or] at hpage
        simp only [covers, Bool.and_eq_false_iff, decide_eq_false_iff_not]
        omega
      rw [hresizes.accessible, huncovered _ _ (by omega) (by omega),
        huncovered _ _ (by omega) (by omega)]
      rfl
    · rcases hresizes.watched page with hsame | ⟨hin, -⟩
      · exact hsame
      · exact absurd hin hpage
  · rw [← hsize]
    exact hresizes.frame

theorem Resizes.guarded (hresizes : Resizes memory newSize s t) (hguarded : Guarded memory s) :
    Guarded memory t := by
  apply hguarded.resized hresizes.pageBits hresizes.memories hresizes.accessible
  intro page _ hfree
  rcases hresizes.watched page with hsame | ⟨-, hunwatched⟩
  · rw [hsame, hfree]
  · exact hunwatched

end Resizing

/-! ### The strategies with protection -/

def wavmMode (memory : Nat) (contents : Nat → Option (Flat UInt8)) :
    Mode .wavm memory contents fun _ => 0 where
  Tables := Guarded memory
  stable := Guarded.stable
  accessible := fun hguarded hs _ hoffset => hguarded.accessible hs hoffset
  missing := fun hguarded hs _ hoffset hframe => hguarded.missing hs hoffset hframe
  outside := fun hguarded hs haligned _ hout hlt => hguarded.outside hs haligned hout hlt
  resize := fun hguarded hs hold hnew hle => by
    have hsize : _ ≤ wmemSize := hs.size.le.trans (le_trans hs.size_le half_le)
    exact ⟨(resizeWavm_resizes hsize).stores hs hold hnew hle,
      (resizeWavm_resizes hsize).guarded hguarded⟩

def dontneedMode (memory : Nat) (contents : Nat → Option (Flat UInt8)) :
    Mode (.dontneed true) memory contents fun _ => 0 where
  Tables := Guarded memory
  stable := Guarded.stable
  accessible := fun hguarded hs _ hoffset => hguarded.accessible hs hoffset
  missing := fun hguarded hs _ hoffset hframe => hguarded.missing hs hoffset hframe
  outside := fun hguarded hs haligned _ hout hlt => hguarded.outside hs haligned hout hlt
  resize := fun hguarded hs hold hnew hle =>
    ⟨resizeWavmDontneed_resizes.stores hs hold hnew hle,
      resizeWavmDontneed_resizes.guarded hguarded⟩

/-! ### The strategy with a fault handler -/

/-- What the handler puts at an offset of a missing page. -/
def handlerFill (contents : Nat → Option (Flat UInt8)) (memory : Nat) (s : Machine)
    (offset : Nat) : UInt8 :=
  match s.handler.snapshot.bind contents with
  | some snap =>
      if s.base memory + offset / s.pageSize * s.pageSize < snap.size then
        snap.data (offset % s.pageSize)
      else 0
  | none => 0

/-- Protection ends in the middle of the mapping, all of which is watched by a
handler that knows the memory. -/
structure Watched (memory : Nat) (contents : Nat → Option (Flat UInt8)) (fill : Nat → UInt8)
    (s : Machine) : Prop where
  tables : ∀ page, InMapping s memory page →
    s.space.accessible page = decide (page * s.pageSize < s.base memory + wmemSize / 2) ∧
    s.space.watched page = true
  found : ∀ address, s.base memory ≤ address → address < s.base memory + wmemSize →
    s.handler.mappings.find? (fun mapping =>
      decide (mapping.1 ≤ address) && decide (address < mapping.1 + wmemSize)) =
        some (s.base memory, memory)
  snapshot : ∀ other, s.handler.snapshot = some other → ∃ snap, contents other = some snap
  fills : ∀ offset, fill offset = handlerFill contents memory s offset

section Watched

variable {memory newSize : Nat} {contents : Nat → Option (Flat UInt8)} {fill : Nat → UInt8}
  {flat : Flat UInt8} {s t : Machine}

theorem handlerFill_eq (hbits : t.pageBits = s.pageBits) (hbase : t.base memory = s.base memory)
    (hsnapshot : t.handler.snapshot = s.handler.snapshot) :
    handlerFill contents memory t = handlerFill contents memory s := by
  funext offset
  rw [handlerFill, handlerFill, hsnapshot, hbase, pageSize, pageSize, hbits]

theorem Watched.stable (hsame : SameTables s t) (hs : Watched memory contents fill s) :
    Watched memory contents fill t := by
  refine ⟨?_, ?_, ?_, ?_⟩
  · intro page hpage
    rw [InMapping, hsame.base_eq, hsame.pageSize_eq] at hpage
    rw [hsame.accessible, hsame.watched, hsame.pageSize_eq, hsame.base_eq]
    exact hs.tables page hpage
  · rw [hsame.base_eq, hsame.mappings]
    exact hs.found
  · rw [hsame.snapshot]
    exact hs.snapshot
  · rw [handlerFill_eq hsame.pageBits (hsame.base_eq memory) hsame.snapshot]
    exact hs.fills

/-- Half of the mapping is a whole number of pages. -/
theorem pageSize_dvd_half (hs : Stores memory contents fill flat s) :
    s.pageSize ∣ wmemSize / 2 := by
  have hhalf : wmemSize / 2 = 2 ^ 32 := by decide
  rw [hhalf]
  exact Nat.pow_dvd_pow 2 hs.pageBits

theorem Watched.accessible_iff (hwatched : Watched memory contents fill s)
    (hs : Stores memory contents fill flat s) {offset : Nat} (hoffset : offset < wmemSize) :
    s.space.accessible (s.page (s.base memory + offset)) = decide (offset < wmemSize / 2) := by
  rw [(hwatched.tables _ (hs.inMapping hoffset)).1, page, page_begin hs.aligned, decide_eq_decide,
    Nat.add_lt_add_iff_left, round_lt_iff (pageSize_dvd_half hs) (pageSize_pos s)]

/-- Both kinds of handler find the page that faulted. -/
theorem alignDown_faultMsg (hs : Stores memory contents fill flat s) (offset : Nat) :
    s.alignDown (s.faultMsg (s.base memory + offset)).address =
      s.base memory + offset / s.pageSize * s.pageSize := by
  have hbegin := page_begin hs.aligned offset
  rw [faultMsg]
  split
  · rw [alignDown, page, hbegin]
  · rw [alignDown, alignDown, page, page, Nat.mul_div_cancel _ (pageSize_pos s), hbegin]

theorem faultMsg_address_le (s : Machine) (address : Nat) :
    (s.faultMsg address).address ≤ address := by
  rw [faultMsg]
  split
  · exact le_refl _
  · exact Nat.div_mul_le_self address s.pageSize

theorem page_round (hs : Stores memory contents fill flat s) (offset : Nat) :
    s.page (s.base memory + offset / s.pageSize * s.pageSize) =
      s.page (s.base memory + offset) := by
  rw [← page_begin hs.aligned, page, page, Nat.mul_div_cancel _ (pageSize_pos s)]

/-- The handler up to its bounds check. -/
theorem handleOne_inBounds (hwatched : Watched memory contents fill s)
    (hs : Stores memory contents fill flat s) {offset : Nat} (hoffset : offset < flat.size) :
    s.handleOne (s.faultMsg (s.base memory + offset)) =
      match s.handler.snapshot with
      | some snapshot =>
          if s.base memory + offset / s.pageSize * s.pageSize < s.size snapshot then
            s.countFault.copyPages (s.base memory + offset / s.pageSize * s.pageSize)
              (s.base snapshot)
          else s.countFault.zeroPages (s.base memory + offset / s.pageSize * s.pageSize)
      | none => s.countFault.zeroPages (s.base memory + offset / s.pageSize * s.pageSize) := by
  have hround := round_le_self s.pageSize offset
  have hle := le_trans hs.size_le half_le
  have haddress := faultMsg_address_le s (s.base memory + offset)
  have hin : (s.faultMsg (s.base memory + offset)).address <
      s.base memory + s.size memory := by
    rw [hs.size]
    omega
  unfold handleOne
  simp only [alignDown_faultMsg hs]
  rw [hwatched.found _ (by omega) (by omega)]
  simp only [hin, not_true_eq_false, if_false]
  rw [if_neg (by omega)]
  rfl

theorem handleOne_outOfBounds (hwatched : Watched memory contents fill s)
    (hs : Stores memory contents fill flat s) (haligned : s.pageSize ∣ flat.size) {offset : Nat}
    (hout : flat.size ≤ offset) (hlt : offset < wmemSize) :
    s.handleOne (s.faultMsg (s.base memory + offset)) = .signalled s.tid s := by
  have hround := round_le_self s.pageSize offset
  have hpage : ¬ offset / s.pageSize * s.pageSize < flat.size := by
    rw [round_lt_iff haligned (pageSize_pos s)]
    omega
  have hreported : (s.faultMsg (s.base memory + offset)).address ≥
      s.base memory + offset / s.pageSize * s.pageSize := by
    rw [← alignDown_faultMsg hs]
    exact Nat.div_mul_le_self _ _
  have hin : ¬ (s.faultMsg (s.base memory + offset)).address <
      s.base memory + s.size memory := by
    rw [hs.size]
    omega
  unfold handleOne
  simp only [alignDown_faultMsg hs]
  rw [hwatched.found _ (by omega) (by omega)]
  simp only [hin, not_false_eq_true, if_true]
  rw [if_neg (by omega)]
  rfl

/-- A reply that installs `frame` at the page that faulted. -/
def Installs (s : Machine) (page : Nat) (reply : Reply) (frame : Nat → UInt8) : Prop :=
  ∃ t, reply = .resolved t ∧ SameTables s t ∧
    t.space.frame = (s.space.install page frame).frame

theorem zeroPages_installs {address : Nat} (hframe : s.space.frame (s.page address) = none) :
    Installs s (s.page address) (s.countFault.zeroPages address) fun _ => 0 := by
  have hmissing : s.countFault.space.frame (s.countFault.page address) = none := hframe
  refine ⟨s.countFault.install (s.page address) fun _ => 0, ?_, ⟨rfl, rfl, rfl, rfl, rfl, rfl⟩, rfl⟩
  rw [zeroPages, hmissing]
  rfl

/-- The handler copies from the first page of the snapshot, whichever page is missing. -/
theorem copyPages_installs (hs : Stores memory contents fill flat s) {address other : Nat}
    (hframe : s.space.frame (s.page address) = none) {snap : Flat UInt8}
    (hsnap : contents other = some snap) (hsize : 0 < snap.size) :
    ∃ frame, Installs s (s.page address) (s.countFault.copyPages address (s.base other)) frame ∧
      ∀ i < s.pageSize, frame i = snap.data i := by
  have hsource := hs.sources other snap hsnap
  have hpos := pageSize_pos s
  have hwhole : s.pageSize ≤ snap.size := Nat.le_of_dvd hsize hsource.sizeAligned
  have hmissing : s.countFault.space.frame (s.countFault.page address) = none := hframe
  have hfirst := (hsource.readable 0 hsize).1
  have hlast := (hsource.readable (s.pageSize - 1) (by omega)).1
  rw [← Nat.add_sub_assoc hpos] at hlast
  refine ⟨fun i => s.sourceByte (s.base other + i),
    ⟨s.countFault.install (s.page address) fun i => s.sourceByte (s.base other + i), ?_,
      ⟨rfl, rfl, rfl, rfl, rfl, rfl⟩, rfl⟩, ?_⟩
  · have haccessible : (s.countFault.space.accessible (s.countFault.page (s.base other)) &&
        s.countFault.space.accessible
          (s.countFault.page (s.base other + s.countFault.pageSize - 1))) = true := by
      rw [Bool.and_eq_true]
      exact ⟨hfirst, hlast⟩
    rw [copyPages, hmissing]
    simp only [haccessible, if_true]
    rfl
  · intro i hi
    exact hsource.bytes i (by omega)

theorem handleOne_installs (hwatched : Watched memory contents fill s)
    (hs : Stores memory contents fill flat s) {offset : Nat} (hoffset : offset < flat.size)
    (hframe : s.space.frame (s.page (s.base memory + offset)) = none) :
    ∃ frame, Installs s (s.page (s.base memory + offset))
        (s.handleOne (s.faultMsg (s.base memory + offset))) frame ∧
      ∀ i < s.pageSize, frame i = fill (offset / s.pageSize * s.pageSize + i) := by
  have hpage := page_round hs offset
  rw [handleOne_inBounds hwatched hs hoffset]
  rw [← hpage] at hframe ⊢
  have hzero : Installs s _ _ _ := zeroPages_installs hframe
  cases hsnapshot : s.handler.snapshot with
  | none =>
    refine ⟨_, hzero, fun i hi => ?_⟩
    rw [hwatched.fills, handlerFill, hsnapshot]
    rfl
  | some other =>
    obtain ⟨snap, hsnap⟩ := hwatched.snapshot other hsnapshot
    have hsource := hs.sources other snap hsnap
    simp only [hsource.size]
    by_cases hlow : s.base memory + offset / s.pageSize * s.pageSize < snap.size
    · rw [if_pos hlow]
      obtain ⟨frame, hinstalls, hbytes⟩ := copyPages_installs hs hframe hsnap (by omega)
      refine ⟨frame, hinstalls, fun i hi => ?_⟩
      rw [hbytes i hi, hwatched.fills, handlerFill, hsnapshot, Option.bind_some, hsnap,
        round_div hi, round_mod hi]
      simp only [hlow, if_true]
    · rw [if_neg hlow]
      refine ⟨_, hzero, fun i hi => ?_⟩
      rw [hwatched.fills, handlerFill, hsnapshot, Option.bind_some, hsnap, round_div hi]
      simp only [hlow, if_false]

theorem Watched.accessible (hwatched : Watched memory contents fill s)
    (hs : Stores memory contents fill flat s) {offset : Nat} (hoffset : offset < flat.size) :
    s.space.accessible (s.page (s.base memory + offset)) = true := by
  have hsize_le := hs.size_le
  have hhalf := half_le
  rw [hwatched.accessible_iff hs (by omega), decide_eq_true_eq]
  omega

theorem Watched.missing (hwatched : Watched memory contents fill s)
    (hs : Stores memory contents fill flat s) {offset : Nat} (hoffset : offset < flat.size)
    (hframe : s.space.frame (s.page (s.base memory + offset)) = none) :
    ∃ t frame, s.access (s.base memory + offset) = (t, .frame frame) ∧ SameTables s t ∧
      t.space.frame = (s.space.install (s.page (s.base memory + offset)) frame).frame ∧
      ∀ i < s.pageSize, frame i = fill (offset / s.pageSize * s.pageSize + i) := by
  have hsize_le := hs.size_le
  have hhalf := half_le
  obtain ⟨frame, ⟨t, hreply, hsame, hinstalled⟩, hfill⟩ :=
    handleOne_installs hwatched hs hoffset hframe
  have haccess := access_resolved (hwatched.accessible hs hoffset) hframe
    (hwatched.tables _ (hs.inMapping (by omega))).2 hreply
    (by rw [hinstalled, Space.install_frame_self])
  exact ⟨t, frame, haccess, hsame, hinstalled, hfill⟩

theorem Watched.outside (hwatched : Watched memory contents fill s)
    (hs : Stores memory contents fill flat s) (haligned : s.pageSize ∣ flat.size) {offset : Nat}
    (hout : flat.size ≤ offset) (hlt : offset < wmemSize) :
    s.access (s.base memory + offset) = (s, .segv) := by
  have haccessible := hwatched.accessible_iff hs hlt
  by_cases hlow : offset < wmemSize / 2
  · have hround := round_le_self s.pageSize offset
    have hpage : ¬ offset / s.pageSize * s.pageSize < flat.size := by
      rw [round_lt_iff haligned (pageSize_pos s)]
      omega
    have hframe : s.space.frame (s.page (s.base memory + offset)) = none := by
      apply hs.backs.beyond
      · rw [page, page_begin hs.aligned]
        omega
      · rw [page, page_begin hs.aligned]
        omega
    exact access_signalled (by simpa [hlow] using haccessible) hframe
      (hwatched.tables _ (hs.inMapping hlt)).2 (handleOne_outOfBounds hwatched hs haligned hout hlt)
  · exact access_denied (by simpa [hlow] using haccessible)

theorem resizeWavmUffd_stores (hs : Stores memory contents fill flat s)
    (hold : s.pageSize ∣ flat.size) (hnew : newSize < flat.size → s.pageSize ∣ newSize)
    (hle : newSize ≤ wmemSize / 2) :
    Stores memory contents fill (flat.resize fill newSize) (s.resizeWavmUffd memory newSize) := by
  apply stores_resized hs hold hnew hle
  · rw [resizeWavmUffd]
    split <;> rfl
  · rw [resizeWavmUffd]
    split <;> rfl
  · intro page _
    rw [resizeWavmUffd]
    split <;> exact ⟨rfl, rfl⟩
  · intro page
    rw [resizeWavmUffd, ← hs.size]
    by_cases hlt : newSize < s.size memory
    · simp [hlt, setSize, madviseDontneed, Space.discard]
    · simp [hlt, setSize]

theorem Watched.resize (hwatched : Watched memory contents fill s) :
    Watched memory contents fill (s.resizeWavmUffd memory newSize) := by
  have hbits : (s.resizeWavmUffd memory newSize).pageBits = s.pageBits := by
    rw [resizeWavmUffd]
    split <;> rfl
  have hbase : (s.resizeWavmUffd memory newSize).base memory = s.base memory := by
    rw [resizeWavmUffd]
    split <;> simp [setSize, base, madviseDontneed]
  have htables : (s.resizeWavmUffd memory newSize).space.accessible = s.space.accessible ∧
      (s.resizeWavmUffd memory newSize).space.watched = s.space.watched ∧
      (s.resizeWavmUffd memory newSize).handler = s.handler := by
    rw [resizeWavmUffd]
    split <;> exact ⟨rfl, rfl, rfl⟩
  have hpageSize : (s.resizeWavmUffd memory newSize).pageSize = s.pageSize := by
    rw [pageSize, hbits, pageSize]
  obtain ⟨haccessible, hwatch, hhandler⟩ := htables
  refine ⟨?_, ?_, ?_, ?_⟩
  · intro page hpage
    rw [InMapping, hpageSize, hbase] at hpage
    rw [haccessible, hwatch, hpageSize, hbase]
    exact hwatched.tables page hpage
  · rw [hbase, hhandler]
    exact hwatched.found
  · rw [hhandler]
    exact hwatched.snapshot
  · rw [handlerFill_eq hbits hbase (by rw [hhandler])]
    exact hwatched.fills

end Watched

def uffdMode (memory : Nat) (contents : Nat → Option (Flat UInt8)) (fill : Nat → UInt8) :
    Mode .uffd memory contents fill where
  Tables := Watched memory contents fill
  stable := Watched.stable
  accessible := fun hwatched hs _ hoffset => hwatched.accessible hs hoffset
  missing := fun hwatched hs _ hoffset hframe => hwatched.missing hs hoffset hframe
  outside := fun hwatched hs haligned _ hout hlt => hwatched.outside hs haligned hout hlt
  resize := fun hwatched hs hold hnew hle =>
    ⟨resizeWavmUffd_stores hs hold (fun _ => hnew) hle, hwatched.resize⟩

/-! ### A new memory -/

/-- There is room for a memory at `base`, next to the registered ones and the
snapshots. -/
structure Room (s : Machine) (memory base : Nat) (contents : Nat → Option (Flat UInt8)) : Prop where
  pageBits : s.pageBits ≤ 32
  aligned : s.pageSize ∣ base
  free : ∀ mapping ∈ s.handler.mappings,
    mapping.1 + wmemSize ≤ base ∨ base + wmemSize ≤ mapping.1
  sources : ∀ other snap, contents other = some snap →
    Source (s.construct memory base) memory other snap

section Room

variable {s : Machine} {memory base : Nat} {contents : Nat → Option (Flat UInt8)}

theorem base_construct (s : Machine) (memory base : Nat) :
    (s.construct memory base).base memory = base := by
  simp [construct, mmapNone, Machine.base]

theorem size_construct (s : Machine) (memory base : Nat) :
    (s.construct memory base).size memory = 0 := by
  simp [construct, mmapNone, Machine.size]

theorem pageSize_construct (s : Machine) (memory base : Nat) :
    (s.construct memory base).pageSize = s.pageSize := rfl

theorem covers_of_inMapping {page : Nat} (hpage : InMapping (s.construct memory base) memory page) :
    covers s.pageSize base wmemSize page = true := by
  rw [InMapping, base_construct] at hpage
  simp only [covers, Bool.and_eq_true, decide_eq_true_eq]
  exact hpage

/-- A new mapping: nothing may be accessed, nothing is watched, nothing is there. -/
theorem construct_space {page : Nat} (hpage : InMapping (s.construct memory base) memory page) :
    (s.construct memory base).space.accessible page = false ∧
      (s.construct memory base).space.watched page = false ∧
      (s.construct memory base).space.frame page = none := by
  have hcovered := covers_of_inMapping hpage
  have hcovered' : covers (2 ^ s.pageBits) base wmemSize page = true := hcovered
  simp [construct, mmapNone, Space.remap, pageSize, hcovered']

/-- The rest of the address space is as before. -/
theorem construct_elsewhere (memory : Nat) {page : Nat} (hpage : covers s.pageSize base wmemSize page = false) :
    (s.construct memory base).space.accessible page = s.space.accessible page ∧
      (s.construct memory base).space.watched page = s.space.watched page ∧
      (s.construct memory base).space.frame page = s.space.frame page := by
  have hpage' : covers (2 ^ s.pageBits) base wmemSize page = false := hpage
  simp [construct, mmapNone, Space.remap, pageSize, hpage']

theorem memories_construct (s : Machine) {memory other : Nat} (base : Nat) (hne : other ≠ memory) :
    (s.construct memory base).memories other = s.memories other := by
  simp [construct, mmapNone, hne]

theorem construct_backs (s : Machine) (memory base : Nat) (fill : Nat → UInt8) {space : Space UInt8} (hframe : space.frame = (s.construct memory base).space.frame) :
    Backs s.pageSize base wmemSize fill ⟨0, fill⟩ space where
  beyond := fun page hfrom hto => by
    have hpage : InMapping (s.construct memory base) memory page := by
      rw [InMapping, base_construct]
      exact ⟨hfrom, hto⟩
    rw [hframe]
    exact (construct_space hpage).2.2
  content := fun offset hoffset => absurd hoffset (Nat.not_lt_zero offset)
  outside := fun _ _ => rfl

theorem construct_stores (hroom : Room s memory base contents) (fill : Nat → UInt8) :
    Stores memory contents fill ⟨0, fill⟩ (s.construct memory base) where
  pageBits := hroom.pageBits
  aligned := by
    rw [base_construct]
    exact hroom.aligned
  size := size_construct s memory base
  size_le := Nat.zero_le _
  backs := by
    rw [base_construct]
    exact construct_backs s memory base fill rfl
  sources := hroom.sources

theorem construct_guarded : Guarded memory (s.construct memory base) := by
  intro page hpage
  obtain ⟨haccessible, hunwatched, -⟩ := construct_space hpage
  refine ⟨?_, hunwatched⟩
  rw [haccessible, eq_comm, decide_eq_false_iff_not, size_construct]
  exact Nat.not_lt.mpr hpage.1

/-- What `add` does to the tables of any machine. -/
theorem add_tables (t : Machine) (memory page : Nat) :
    (t.add memory).space.accessible page =
      (if covers t.pageSize (t.base memory) (wmemSize / 2) page then true
        else t.space.accessible page) ∧
    (t.add memory).space.watched page =
      (if covers t.pageSize (t.base memory) wmemSize page then true
        else t.space.watched page) ∧
    (t.add memory).space.frame page = t.space.frame page :=
  ⟨rfl, rfl, rfl⟩

-- Stated for a variable machine, so that no check compares whole machines.
theorem pageBits_add (t : Machine) (memory : Nat) : (t.add memory).pageBits = t.pageBits := rfl

theorem pageSize_add (t : Machine) (memory : Nat) : (t.add memory).pageSize = t.pageSize := rfl

theorem memories_add (t : Machine) (memory : Nat) : (t.add memory).memories = t.memories := rfl

theorem base_add (t : Machine) (memory other : Nat) : (t.add memory).base other = t.base other := rfl

theorem add_source {t : Machine} {other : Nat} {snap : Flat UInt8}
    (hsource : Source t memory other snap) : Source (t.add memory) memory other snap := by
  apply Source.keep (s := t) (t := t.add memory) hsource rfl rfl rfl
  · intro page hpage
    rw [InMapping, not_and_or] at hpage
    have hhalf := half_le
    have huncovered : ∀ length ≤ wmemSize,
        covers t.pageSize (t.base memory) length page = false := by
      intro length hlength
      simp only [covers, Bool.and_eq_false_iff, decide_eq_false_iff_not]
      omega
    obtain ⟨haccessible, hwatched, -⟩ := add_tables t memory page
    rw [haccessible, hwatched, huncovered _ hhalf, huncovered _ (le_refl _)]
    exact ⟨rfl, rfl⟩
  · intro address _
    rfl

theorem add_stores (hroom : Room s memory base contents) (fill : Nat → UInt8) :
    Stores memory contents fill ⟨0, fill⟩ ((s.construct memory base).add memory) := by
  have hs := construct_stores hroom fill
  refine ⟨?_, ?_, ?_, hs.size_le, ?_, ?_⟩
  · rw [pageBits_add]
    exact hs.pageBits
  · rw [pageSize_add, base_add]
    exact hs.aligned
  · rw [Machine.size, memories_add]
    exact hs.size
  · rw [pageSize_add, base_add, base_construct]
    apply construct_backs s memory base fill
    funext page
    exact (add_tables _ memory page).2.2
  · intro other snap hsnap
    exact add_source (hs.sources other snap hsnap)

/-- The handler finds a new mapping behind those it knew before. -/
theorem find_add (hroom : Room s memory base contents) {address : Nat} (hfrom : base ≤ address)
    (hto : address < base + wmemSize) :
    (s.handler.mappings ++ [(base, memory)]).find? (fun mapping =>
      decide (mapping.1 ≤ address) && decide (address < mapping.1 + wmemSize)) =
        some (base, memory) := by
  rw [List.find?_append]
  have hnone : s.handler.mappings.find? (fun mapping =>
      decide (mapping.1 ≤ address) && decide (address < mapping.1 + wmemSize)) = none := by
    rw [List.find?_eq_none]
    intro mapping hmapping
    have hfree := hroom.free mapping hmapping
    simp only [Bool.and_eq_true, decide_eq_true_eq]
    omega
  rw [hnone]
  simp [hfrom, hto]

theorem add_watched (hroom : Room s memory base contents)
    (hsnapshot : ∀ other, s.handler.snapshot = some other → ∃ snap, contents other = some snap) :
    Watched memory contents
      (handlerFill contents memory ((s.construct memory base).add memory))
      ((s.construct memory base).add memory) := by
  have hbase := base_construct s memory base
  refine ⟨?_, ?_, hsnapshot, fun _ => rfl⟩
  · intro page hpage
    rw [InMapping, pageSize_add, base_add] at hpage
    have hcovered := covers_of_inMapping hpage
    obtain ⟨haccessible, hwatched, -⟩ := add_tables (s.construct memory base) memory page
    rw [haccessible, hwatched, (construct_space hpage).1, pageSize_add, base_add, hbase,
      pageSize_construct]
    rw [hbase, pageSize_construct] at hpage
    refine ⟨?_, ?_⟩
    · rw [covers, decide_eq_true hpage.1, Bool.true_and]
      simp only [Bool.if_false_right, Bool.and_true]
      simp
    · rw [if_pos hcovered]
  · intro address hfrom hto
    rw [base_add, hbase] at hfrom hto ⊢
    have hmappings : ((s.construct memory base).add memory).handler.mappings =
        s.handler.mappings ++ [((s.construct memory base).base memory, memory)] := rfl
    rw [hmappings, hbase]
    exact find_add hroom hfrom hto

end Room

/-! ### A machine with one snapshot -/

def snapshotBase : Nat := 2 ^ 40

def memoryBase : Nat := 2 ^ 45

/-- Pages of 4 KiB, and a snapshot as memory 1. -/
def hosting (snap : Flat UInt8) (snapshot : Option Nat) : Machine where
  pageBits := 12
  space :=
    { accessible := fun page =>
        decide (snapshotBase ≤ page * 4096) && decide (page * 4096 < snapshotBase + snap.size)
      watched := fun _ => false
      frame := fun page => some fun i => snap.data (page * 4096 + i - snapshotBase) }
  memories := fun memory => if memory = 1 then ⟨snapshotBase, snap.size⟩ else ⟨0, 0⟩
  handler := { threadCount := 4, snapshot := snapshot, mappings := [], faults := 0 }
  tid := 1

def hosted (snap : Flat UInt8) (memory : Nat) : Option (Flat UInt8) :=
  if memory = 1 then some snap else none

section Hosting

variable (snap : Flat UInt8) (snapshot : Option Nat)

theorem pageSize_hosting : (hosting snap snapshot).pageSize = 4096 := rfl

/-- The snapshot is far from the memory. -/
theorem hosting_uncovered {offset : Nat} (hoffset : offset < wmemSize) :
    covers 4096 memoryBase wmemSize ((snapshotBase + offset) / 4096) = false := by
  have hbegin := page_begin (show 4096 ∣ snapshotBase by decide) offset
  have hround := round_le_self 4096 offset
  have hwmem : wmemSize = 8589934592 := rfl
  have hsnapshot : snapshotBase = 1099511627776 := rfl
  have hmemory : memoryBase = 35184372088832 := rfl
  simp only [covers, Bool.and_eq_false_iff, decide_eq_false_iff_not, hbegin]
  omega

theorem hosting_source (haligned : 4096 ∣ snap.size) (hle : snap.size ≤ wmemSize) :
    Source ((hosting snap snapshot).construct 0 memoryBase) 0 1 snap := by
  have hmemories := memories_construct (hosting snap snapshot) memoryBase Nat.one_ne_zero
  have hbase : ((hosting snap snapshot).construct 0 memoryBase).base 1 = snapshotBase := by
    rw [Machine.base, hmemories]
    rfl
  have hpageSize : ((hosting snap snapshot).construct 0 memoryBase).pageSize = 4096 := by
    rw [pageSize_construct, pageSize_hosting]
  have hbegin := page_begin (show 4096 ∣ snapshotBase by decide)
  have helsewhere : ∀ offset < snap.size, _ := fun offset hoffset =>
    construct_elsewhere (s := hosting snap snapshot) 0
      (by rw [pageSize_hosting]; exact hosting_uncovered (lt_of_lt_of_le hoffset hle))
  refine ⟨Nat.one_ne_zero, ?_, ?_, ?_, ?_, ?_, ?_⟩
  · rw [hpageSize, hbase]
    decide
  · rw [Machine.size, hmemories]
    rfl
  · rw [hpageSize]
    exact haligned
  · have hwmem : wmemSize = 8589934592 := rfl
    have hsnapshot : snapshotBase = 1099511627776 := rfl
    have hmemory : memoryBase = 35184372088832 := rfl
    rw [hbase, base_construct]
    omega
  · intro offset hoffset
    obtain ⟨haccessible, hwatched, -⟩ := helsewhere offset hoffset
    have hround := round_le_self 4096 offset
    rw [page, hpageSize, hbase, haccessible, hwatched]
    refine ⟨?_, rfl⟩
    simp only [hosting, hbegin, Bool.and_eq_true, decide_eq_true_eq]
    omega
  · intro offset hoffset
    obtain ⟨-, -, hframe⟩ := helsewhere offset hoffset
    rw [sourceByte, page, hpageSize, hbase, hframe]
    simp only [hosting, Nat.div_add_mod', Nat.add_sub_cancel_left]

theorem hosting_room (haligned : 4096 ∣ snap.size) (hle : snap.size ≤ wmemSize) :
    Room (hosting snap snapshot) 0 memoryBase (hosted snap) := by
  refine ⟨show 12 ≤ 32 by decide, ?_, by simp [hosting], ?_⟩
  · rw [pageSize_hosting]
    decide
  · intro other found hfound
    by_cases hother : other = 1
    · subst hother
      cases hfound
      exact hosting_source snap snapshot haligned hle
    · simp [hosted, hother] at hfound

end Hosting

/-! ### The strategies agree -/

/-- Whatever the operations, all three strategies show what a resizable memory
shows that starts empty and is zero wherever it has not been written since it was
last outside the size. -/
theorem strategies_agree {s : Machine} {memory base : Nat} {contents : Nat → Option (Flat UInt8)}
    (hroom : Room s memory base contents) (hsnapshot : s.handler.snapshot = none) {ops : List Op}
    (hops : ∀ op ∈ ops, Admissible s.pageSize contents op) :
    (s.construct memory base).trace .wavm memory ops =
      flatTrace contents (fun _ => 0) ⟨0, fun _ => 0⟩ ops ∧
    (s.construct memory base).trace (.dontneed true) memory ops =
      flatTrace contents (fun _ => 0) ⟨0, fun _ => 0⟩ ops ∧
    ((s.construct memory base).add memory).trace .uffd memory ops =
      flatTrace contents (fun _ => 0) ⟨0, fun _ => 0⟩ ops := by
  have hstores := construct_stores hroom fun _ => 0
  have hwatched := add_watched hroom (by simp [hsnapshot])
  have hfill : handlerFill contents memory ((s.construct memory base).add memory) =
      fun _ => 0 := by
    funext offset
    have hnone : ((s.construct memory base).add memory).handler.snapshot = none := hsnapshot
    rw [handlerFill, hnone]
    rfl
  rw [hfill] at hwatched
  refine ⟨?_, ?_, ?_⟩
  · exact (wavmMode memory contents).trace construct_guarded hstores (Nat.dvd_zero _) hops
  · exact (dontneedMode memory contents).trace construct_guarded hstores (Nat.dvd_zero _) hops
  · exact (uffdMode memory contents fun _ => 0).trace hwatched (add_stores hroom _)
      (Nat.dvd_zero _) hops

/-- Growing, writing, restoring and shrinking, with accesses on both sides of the size. -/
theorem strategies_agree_hosting :
    let s := (hosting ⟨4096, UInt8.ofNat⟩ none).construct 0 memoryBase
    let ops : List Op := [.resize 8192, .write 5000 7, .read 5000, .read 8192, .restoreFrom 1,
      .read 300, .read 5000, .resize 0, .write 3 1, .resize 4096, .read 300]
    let seen : List Observation := [.resized, .stored, .byte 7, .segv, .restored, .byte 44, .segv,
      .resized, .segv, .resized, .byte 0]
    s.trace .wavm 0 ops = seen ∧ s.trace (.dontneed true) 0 ops = seen ∧
      (s.add 0).trace .uffd 0 ops = seen := by
  intro s ops seen
  have hroom := hosting_room ⟨4096, UInt8.ofNat⟩ none (by decide) (by decide)
  have hops : ∀ op ∈ ops, Admissible 4096 (hosted ⟨4096, UInt8.ofNat⟩) op := by
    simp only [ops, List.forall_mem_cons, Admissible]
    exact ⟨by decide, by decide, by decide, by decide, ⟨_, rfl, by decide⟩, by decide, by decide,
      by decide, by decide, by decide, by decide, by simp⟩
  have hseen : flatTrace (hosted ⟨4096, UInt8.ofNat⟩) (fun _ => 0) ⟨0, fun _ => 0⟩ ops = seen := by
    decide
  rw [← hseen]
  exact strategies_agree hroom rfl hops

end NdpOffload.Faultspeed.Strategies
