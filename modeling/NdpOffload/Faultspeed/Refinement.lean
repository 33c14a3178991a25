import NdpOffload.Faultspeed.Memory

/-! A strategy as an implementation of a resizable memory.  A `Mode` says what a
strategy keeps true of the page tables and how it serves missing pages; from that
its observations along every sequence of operations follow. -/
namespace NdpOffload.Faultspeed.Refinement

open Library.Paging Memory Machine

/-! ### Accesses by kind of page -/

section Access

variable {s : Machine} {address : Nat}

theorem pageSize_pos (s : Machine) : 0 < s.pageSize := Nat.two_pow_pos s.pageBits

theorem access_denied (hdenied : s.space.accessible (s.page address) = false) :
    s.access address = (s, .segv) := by
  simp [access, Space.touch, hdenied]

theorem access_present {frame : Nat → UInt8}
    (haccessible : s.space.accessible (s.page address) = true)
    (hframe : s.space.frame (s.page address) = some frame) :
    s.access address = (s, .frame frame) := by
  simp [access, Space.touch, haccessible, hframe]

theorem access_absent (haccessible : s.space.accessible (s.page address) = true)
    (hframe : s.space.frame (s.page address) = none)
    (hunwatched : s.space.watched (s.page address) = false) :
    s.access address = (s.install (s.page address) fun _ => 0, .frame fun _ => 0) := by
  simp [access, Space.touch, haccessible, hframe, hunwatched]

theorem access_resolved (haccessible : s.space.accessible (s.page address) = true)
    (hframe : s.space.frame (s.page address) = none)
    (hwatched : s.space.watched (s.page address) = true) {t : Machine} {frame : Nat → UInt8}
    (hreply : s.handleOne (s.faultMsg address) = .resolved t)
    (hinstalled : t.space.frame (s.page address) = some frame) :
    s.access address = (t, .frame frame) := by
  simp [access, Space.touch, haccessible, hframe, hwatched, hreply, hinstalled]

theorem access_signalled (haccessible : s.space.accessible (s.page address) = true)
    (hframe : s.space.frame (s.page address) = none)
    (hwatched : s.space.watched (s.page address) = true) {tid : Nat} {t : Machine}
    (hreply : s.handleOne (s.faultMsg address) = .signalled tid t) :
    s.access address = (t, .segv) := by
  simp [access, Space.touch, haccessible, hframe, hwatched, hreply]

end Access

/-! ### Machines that agree on everything but frames -/

structure SameTables (s t : Machine) : Prop where
  pageBits : t.pageBits = s.pageBits
  memories : t.memories = s.memories
  accessible : t.space.accessible = s.space.accessible
  watched : t.space.watched = s.space.watched
  mappings : t.handler.mappings = s.handler.mappings
  snapshot : t.handler.snapshot = s.handler.snapshot

theorem SameTables.refl (s : Machine) : SameTables s s := ⟨rfl, rfl, rfl, rfl, rfl, rfl⟩

theorem SameTables.trans {s t u : Machine} (hst : SameTables s t) (htu : SameTables t u) :
    SameTables s u where
  pageBits := htu.pageBits.trans hst.pageBits
  memories := htu.memories.trans hst.memories
  accessible := htu.accessible.trans hst.accessible
  watched := htu.watched.trans hst.watched
  mappings := htu.mappings.trans hst.mappings
  snapshot := htu.snapshot.trans hst.snapshot

section SameTables

variable {s t : Machine} (hsame : SameTables s t)
include hsame

theorem SameTables.pageSize_eq : t.pageSize = s.pageSize := by rw [pageSize, hsame.pageBits, pageSize]

theorem SameTables.page_eq (address : Nat) : t.page address = s.page address := by
  rw [page, hsame.pageSize_eq, page]

theorem SameTables.base_eq (memory : Nat) : t.base memory = s.base memory := by
  rw [base, hsame.memories, base]

theorem SameTables.size_eq (memory : Nat) : t.size memory = s.size memory := by
  rw [size, hsame.memories, size]

end SameTables

theorem sameTables_install (s : Machine) (page : Nat) (frame : Nat → UInt8) :
    SameTables s (s.install page frame) := ⟨rfl, rfl, rfl, rfl, rfl, rfl⟩

/-! ### Snapshots and the memory under test -/

/-- The page belongs to the mapping of the memory. -/
def InMapping (s : Machine) (memory page : Nat) : Prop :=
  s.base memory ≤ page * s.pageSize ∧ page * s.pageSize < s.base memory + wmemSize

/-- Another memory, to be read only. -/
structure Source (s : Machine) (memory other : Nat) (snap : Flat UInt8) : Prop where
  ne : other ≠ memory
  aligned : s.pageSize ∣ s.base other
  size : s.size other = snap.size
  sizeAligned : s.pageSize ∣ snap.size
  apart : s.base other + snap.size ≤ s.base memory ∨ s.base memory + wmemSize ≤ s.base other
  readable : ∀ offset < snap.size,
    s.space.accessible (s.page (s.base other + offset)) = true ∧
    s.space.watched (s.page (s.base other + offset)) = false
  bytes : ∀ offset < snap.size, s.sourceByte (s.base other + offset) = snap.data offset

theorem Source.not_inMapping {s : Machine} {memory other : Nat} {snap : Flat UInt8}
    (hsource : Source s memory other snap) {offset : Nat} (hoffset : offset < snap.size) :
    ¬ InMapping s memory (s.page (s.base other + offset)) := by
  have hbegin := page_begin hsource.aligned offset
  have hround := round_le_self s.pageSize offset
  have hapart := hsource.apart
  rintro ⟨hfrom, hto⟩
  rw [page, hbegin] at hfrom hto
  omega

/-- What happens inside the mapping of the memory leaves a source alone. -/
theorem Source.keep {s t : Machine} {memory other : Nat} {snap : Flat UInt8}
    (hsource : Source s memory other snap) (hbits : t.pageBits = s.pageBits)
    (hbase : t.base memory = s.base memory) (hother : t.memories other = s.memories other)
    (haccessible : ∀ page, ¬ InMapping s memory page →
      t.space.accessible page = s.space.accessible page ∧
      t.space.watched page = s.space.watched page)
    (hbytes : ∀ address, ¬ InMapping s memory (s.page address) →
      t.sourceByte address = s.sourceByte address) : Source t memory other snap := by
  have hpageSize : t.pageSize = s.pageSize := by rw [pageSize, hbits, pageSize]
  have hpage : ∀ address, t.page address = s.page address := by
    intro address
    rw [page, hpageSize, page]
  have hbaseOther : t.base other = s.base other := by rw [base, hother, base]
  refine ⟨hsource.ne, ?_, ?_, ?_, ?_, ?_, ?_⟩
  · rw [hpageSize, hbaseOther]
    exact hsource.aligned
  · rw [Machine.size, hother]
    exact hsource.size
  · rw [hpageSize]
    exact hsource.sizeAligned
  · rw [hbaseOther, hbase]
    exact hsource.apart
  · intro offset hoffset
    obtain ⟨hacc, hwatched⟩ := haccessible _ (hsource.not_inMapping hoffset)
    rw [hpage, hbaseOther, hacc, hwatched]
    exact hsource.readable offset hoffset
  · intro offset hoffset
    rw [hbaseOther, hbytes _ (hsource.not_inMapping hoffset)]
    exact hsource.bytes offset hoffset

/-- The memory holds `flat`, and the snapshots hold their contents. -/
structure Stores (memory : Nat) (contents : Nat → Option (Flat UInt8)) (fill : Nat → UInt8)
    (flat : Flat UInt8) (s : Machine) : Prop where
  pageBits : s.pageBits ≤ 32
  aligned : s.pageSize ∣ s.base memory
  size : s.size memory = flat.size
  size_le : flat.size ≤ wmemSize / 2
  backs : Backs s.pageSize (s.base memory) wmemSize fill flat s.space
  sources : ∀ other snap, contents other = some snap → Source s memory other snap

/-- What a strategy makes of the page tables, and that this serves the memory:
missing pages get what `fill` says, and accesses outside the size are denied. -/
structure Mode (strategy : Strategy) (memory : Nat) (contents : Nat → Option (Flat UInt8))
    (fill : Nat → UInt8) where
  Tables : Machine → Prop
  stable : ∀ {s t}, SameTables s t → Tables s → Tables t
  accessible : ∀ {s flat}, Tables s → Stores memory contents fill flat s → ∀ offset < flat.size,
    s.space.accessible (s.page (s.base memory + offset)) = true
  missing : ∀ {s flat}, Tables s → Stores memory contents fill flat s → ∀ offset < flat.size,
    s.space.frame (s.page (s.base memory + offset)) = none →
    ∃ t frame, s.access (s.base memory + offset) = (t, .frame frame) ∧ SameTables s t ∧
      t.space.frame = (s.space.install (s.page (s.base memory + offset)) frame).frame ∧
      ∀ i < s.pageSize, frame i = fill (offset / s.pageSize * s.pageSize + i)
  outside : ∀ {s flat}, Tables s → Stores memory contents fill flat s → s.pageSize ∣ flat.size →
    ∀ offset, flat.size ≤ offset → offset < wmemSize →
      s.access (s.base memory + offset) = (s, .segv)
  resize : ∀ {s flat newSize}, Tables s → Stores memory contents fill flat s →
    s.pageSize ∣ flat.size → s.pageSize ∣ newSize → newSize ≤ wmemSize / 2 →
    Stores memory contents fill (flat.resize fill newSize) (s.resize strategy memory newSize) ∧
      Tables (s.resize strategy memory newSize)

section Mode

variable {strategy : Strategy} {memory : Nat} {contents : Nat → Option (Flat UInt8)}
  {fill : Nat → UInt8} {flat : Flat UInt8} {s t : Machine}

theorem half_le : wmemSize / 2 ≤ wmemSize := by decide

/-- The page of an offset in the mapping. -/
theorem Stores.inMapping (hs : Stores memory contents fill flat s) {offset : Nat}
    (hoffset : offset < wmemSize) : InMapping s memory (s.page (s.base memory + offset)) := by
  have hround := round_le_self s.pageSize offset
  rw [InMapping, page, page_begin hs.aligned]
  omega

theorem Stores.keep (flat' : Flat UInt8) (hs : Stores memory contents fill flat s) (hsame : SameTables s t)
    (hbytes : ∀ address, ¬ InMapping s memory (s.page address) →
      t.sourceByte address = s.sourceByte address)
    (hsize : flat'.size = flat.size)
    (hbacks : Backs s.pageSize (s.base memory) wmemSize fill flat' t.space) :
    Stores memory contents fill flat' t := by
  refine ⟨?_, ?_, ?_, ?_, ?_, ?_⟩
  · rw [hsame.pageBits]
    exact hs.pageBits
  · rw [hsame.pageSize_eq, hsame.base_eq]
    exact hs.aligned
  · rw [hsame.size_eq, hsize]
    exact hs.size
  · rw [hsize]
    exact hs.size_le
  · rw [hsame.pageSize_eq, hsame.base_eq]
    exact hbacks
  · intro other snap hsnap
    apply (hs.sources other snap hsnap).keep hsame.pageBits (hsame.base_eq memory)
    · rw [hsame.memories]
    · intro page _
      rw [hsame.accessible, hsame.watched]
      exact ⟨rfl, rfl⟩
    · exact hbytes

/-- Installing a frame inside the mapping does not change what is outside it. -/
theorem sourceByte_install_ne (hsame : SameTables s t) {page : Nat} {frame : Nat → UInt8}
    (hframe : t.space.frame = (s.space.install page frame).frame) {address : Nat}
    (hne : s.page address ≠ page) : t.sourceByte address = s.sourceByte address := by
  rw [sourceByte, sourceByte, hsame.page_eq, hsame.pageSize_eq, hframe,
    Space.install_frame_ne hne]

/-- A page that is not there is read as zeros. -/
theorem sourceByte_install_zero (hsame : SameTables s t) {page : Nat}
    (hframe : t.space.frame = (s.space.install page fun _ => 0).frame) {address : Nat}
    (hpage : s.page address = page) (hnone : s.space.frame page = none) :
    t.sourceByte address = s.sourceByte address := by
  rw [sourceByte, sourceByte, hsame.page_eq, hpage, hnone, hframe, Space.install_frame_self]

theorem sourceByte_install (hsame : SameTables s t) {page : Nat} {frame : Nat → UInt8}
    (hframe : t.space.frame = (s.space.install page frame).frame)
    (hpage : InMapping s memory page) {address : Nat}
    (haddress : ¬ InMapping s memory (s.page address)) :
    t.sourceByte address = s.sourceByte address := by
  apply sourceByte_install_ne hsame hframe
  rintro rfl
  exact haddress hpage

theorem Mode.access_inside (mode : Mode strategy memory contents fill) (htables : mode.Tables s)
    (hs : Stores memory contents fill flat s) {offset : Nat} (hoffset : offset < flat.size) :
    ∃ t frame, s.access (s.base memory + offset) = (t, .frame frame) ∧ SameTables s t ∧
      t.space.frame (s.page (s.base memory + offset)) = some frame ∧
      frame ((s.base memory + offset) % s.pageSize) = flat.data offset ∧
      Stores memory contents fill flat t := by
  have hin := hs.inMapping (lt_of_lt_of_le hoffset (le_trans hs.size_le half_le))
  have hcontent := hs.backs.content offset hoffset
  cases hframe : s.space.frame (s.page (s.base memory + offset)) with
  | some frame =>
    rw [backed_some hframe] at hcontent
    exact ⟨s, frame, access_present (mode.accessible htables hs offset hoffset) hframe,
      .refl s, hframe, hcontent, hs⟩
  | none =>
    obtain ⟨t, frame, haccess, hsame, hinstalled, hfill⟩ :=
      mode.missing htables hs offset hoffset hframe
    rw [backed_none hframe] at hcontent
    have hbyte : frame ((s.base memory + offset) % s.pageSize) = flat.data offset := by
      rw [add_mod_page hs.aligned, hfill _ (Nat.mod_lt offset (pageSize_pos s)), round_add_mod,
        hcontent]
    have hbacks := hs.backs.install hs.aligned hoffset hframe hfill (pageSize_pos s)
    refine ⟨t, frame, haccess, hsame, by rw [hinstalled, Space.install_frame_self], hbyte, ?_⟩
    apply hs.keep flat hsame (fun _ => sourceByte_install hsame hinstalled hin) rfl
    exact hbacks.congr hs.aligned (le_trans hs.size_le half_le) fun page _ _ => by
      rw [hinstalled]
      rfl

theorem Mode.read_inside (mode : Mode strategy memory contents fill) (htables : mode.Tables s)
    (hs : Stores memory contents fill flat s) {offset : Nat} (hoffset : offset < flat.size) :
    ∃ t, s.read memory offset = (t, .byte (flat.data offset)) ∧
      Stores memory contents fill flat t ∧ mode.Tables t ∧ SameTables s t := by
  obtain ⟨t, frame, haccess, hsame, -, hbyte, hstores⟩ := mode.access_inside htables hs hoffset
  refine ⟨t, ?_, hstores, mode.stable hsame htables, hsame⟩
  rw [Machine.read, haccess, ← hbyte]

theorem Mode.write_inside (mode : Mode strategy memory contents fill) (htables : mode.Tables s)
    (hs : Stores memory contents fill flat s) {offset : Nat} (hoffset : offset < flat.size)
    (value : UInt8) :
    ∃ t, s.write memory offset value = (t, .stored) ∧
      Stores memory contents fill (flat.store offset value) t ∧ mode.Tables t ∧
      SameTables s t := by
  obtain ⟨t, frame, haccess, hsame, hframe, -, hstores⟩ := mode.access_inside htables hs hoffset
  have hpage : s.page (s.base memory + offset) = t.page (t.base memory + offset) := by
    rw [hsame.page_eq, hsame.base_eq]
  have hmod : (s.base memory + offset) % s.pageSize = (t.base memory + offset) % t.pageSize := by
    rw [hsame.pageSize_eq, hsame.base_eq]
  rw [hpage] at hframe
  have hwritten := sameTables_install t (t.page (t.base memory + offset))
    (Function.update frame ((t.base memory + offset) % t.pageSize) value)
  have hin := hstores.inMapping (lt_of_lt_of_le hoffset (le_trans hs.size_le half_le))
  refine ⟨_, ?_, ?_, mode.stable (hsame.trans hwritten) htables, hsame.trans hwritten⟩
  · simp only [Machine.write, haccess, hpage, hmod]
  · exact hstores.keep (flat.store offset value) hwritten
      (fun _ => sourceByte_install hwritten rfl hin) rfl
      (hstores.backs.store hstores.aligned hoffset hframe value)

theorem Mode.read_outside (mode : Mode strategy memory contents fill) (htables : mode.Tables s)
    (hs : Stores memory contents fill flat s) (haligned : s.pageSize ∣ flat.size) {offset : Nat}
    (hout : flat.size ≤ offset) (hlt : offset < wmemSize) :
    s.read memory offset = (s, .segv) := by
  rw [Machine.read, mode.outside htables hs haligned offset hout hlt]

theorem Mode.write_outside (mode : Mode strategy memory contents fill) (htables : mode.Tables s)
    (hs : Stores memory contents fill flat s) (haligned : s.pageSize ∣ flat.size) {offset : Nat}
    (hout : flat.size ≤ offset) (hlt : offset < wmemSize) (value : UInt8) :
    s.write memory offset value = (s, .segv) := by
  rw [Machine.write, mode.outside htables hs haligned offset hout hlt]

/-- Reading a snapshot may make a zero page in it, which changes no byte. -/
theorem Mode.read_source (mode : Mode strategy memory contents fill) (htables : mode.Tables s)
    (hs : Stores memory contents fill flat s) {other : Nat} {snap : Flat UInt8}
    (hsnap : contents other = some snap) {offset : Nat} (hoffset : offset < snap.size) :
    ∃ t, s.read other offset = (t, .byte (snap.data offset)) ∧
      Stores memory contents fill flat t ∧ mode.Tables t ∧ SameTables s t := by
  have hsource := hs.sources other snap hsnap
  obtain ⟨haccessible, hunwatched⟩ := hsource.readable offset hoffset
  have hbyte := hsource.bytes offset hoffset
  have hout := hsource.not_inMapping hoffset
  cases hframe : s.space.frame (s.page (s.base other + offset)) with
  | some frame =>
    rw [sourceByte, hframe] at hbyte
    refine ⟨s, ?_, hs, htables, .refl s⟩
    rw [Machine.read, access_present haccessible hframe, ← hbyte]
  | none =>
    rw [sourceByte, hframe] at hbyte
    have hsame := sameTables_install s (s.page (s.base other + offset)) fun _ => 0
    refine ⟨_, ?_, ?_, mode.stable hsame htables, hsame⟩
    · rw [Machine.read, access_absent haccessible hframe hunwatched, ← hbyte]
    · apply hs.keep flat hsame _ rfl
      · apply hs.backs.congr hs.aligned (le_trans hs.size_le half_le)
        intro page hfrom hto
        apply Space.install_frame_ne
        rintro rfl
        exact hout ⟨hfrom, hto⟩
      · intro address _
        by_cases hpage : s.page address = s.page (s.base other + offset)
        · exact sourceByte_install_zero hsame rfl hpage hframe
        · exact sourceByte_install_ne hsame rfl hpage

/-- The memory while a snapshot is being copied into it. -/
def copied (snap : Flat UInt8) (count : Nat) (flat : Flat UInt8) : Flat UInt8 :=
  { flat with data := fun offset => if offset < count then snap.data offset else flat.data offset }

theorem copied_succ (snap : Flat UInt8) (count : Nat) (flat : Flat UInt8) :
    (copied snap count flat).store count (snap.data count) = copied snap (count + 1) flat := by
  simp only [copied, Flat.store, Flat.mk.injEq, true_and]
  funext offset
  by_cases heq : offset = count
  · subst heq
    simp
  · rw [Function.update_of_ne heq]
    have hiff : offset < count ↔ offset < count + 1 := by omega
    simp only [hiff]

theorem Mode.copyData (mode : Mode strategy memory contents fill) (htables : mode.Tables s)
    (hs : Stores memory contents fill flat s) {other : Nat} {snap : Flat UInt8}
    (hsnap : contents other = some snap) {count : Nat} (hcount : count ≤ snap.size)
    (hfits : snap.size ≤ flat.size) :
    ∃ t, s.copyData other memory count = (t, .restored) ∧
      Stores memory contents fill (copied snap count flat) t ∧ mode.Tables t ∧ SameTables s t := by
  induction count with
  | zero =>
    have hnone : copied snap 0 flat = flat := by simp [copied]
    exact ⟨s, rfl, hnone ▸ hs, htables, .refl s⟩
  | succ count ih =>
    obtain ⟨t, hcopied, hstores, ht, hst⟩ := ih (by omega)
    obtain ⟨u, hread, hstores, hu, htu⟩ := mode.read_source ht hstores hsnap hcount
    obtain ⟨v, hwrite, hstores, hv, huv⟩ := mode.write_inside hu hstores
      (show count < (copied snap count flat).size from lt_of_lt_of_le hcount hfits)
      (snap.data count)
    rw [copied_succ] at hstores
    refine ⟨v, ?_, hstores, hv, (hst.trans htu).trans huv⟩
    rw [Machine.copyData, hcopied]
    simp only [hread, hwrite]

/-! ### Whole sequences -/

/-- The operations that the resizable memory is about. -/
def flatPerform (contents : Nat → Option (Flat UInt8)) (fill : Nat → UInt8) (flat : Flat UInt8) :
    Op → Flat UInt8 × Observation
  | .resize newSize => (flat.resize fill newSize, .resized)
  | .restoreFrom other =>
      match contents other with
      | some snap =>
          (⟨snap.size, fun offset => if offset < snap.size then snap.data offset else fill offset⟩,
            .restored)
      | none => (flat, .stopped)
  | .read offset => (flat, if offset < flat.size then .byte (flat.data offset) else .segv)
  | .write offset value =>
      if offset < flat.size then (flat.store offset value, .stored) else (flat, .segv)

def flatTrace (contents : Nat → Option (Flat UInt8)) (fill : Nat → UInt8) :
    Flat UInt8 → List Op → List Observation
  | _, [] => []
  | flat, op :: ops =>
      (flatPerform contents fill flat op).2 ::
        flatTrace contents fill (flatPerform contents fill flat op).1 ops

/-- Page-aligned sizes up to half of the mapping, and offsets in the mapping. -/
def Admissible (pageSize : Nat) (contents : Nat → Option (Flat UInt8)) : Op → Prop
  | .resize newSize => pageSize ∣ newSize ∧ newSize ≤ wmemSize / 2
  | .restoreFrom other => ∃ snap, contents other = some snap ∧ snap.size ≤ wmemSize / 2
  | .read offset => offset < wmemSize
  | .write offset _ => offset < wmemSize

theorem restoreFrom_eq (strategy : Strategy) (memory other : Nat) (s : Machine) :
    s.restoreFrom strategy memory other =
      (s.resize strategy memory (s.size other)).copyAll other memory := by
  cases strategy <;> rfl

theorem pageSize_resize (strategy : Strategy) (memory newSize : Nat) (s : Machine) :
    (s.resize strategy memory newSize).pageSize = s.pageSize := by
  cases strategy <;>
    simp only [Machine.resize, resizeWavm, resizeWavmDontneed, resizeWavmUffd] <;>
    split_ifs <;> rfl

theorem base_resize (strategy : Strategy) (memory newSize : Nat) (s : Machine) :
    (s.resize strategy memory newSize).base memory = s.base memory := by
  cases strategy <;>
    simp only [Machine.resize, resizeWavm, resizeWavmDontneed, resizeWavmUffd] <;>
    split_ifs <;> simp [setSize, base, mmapNone, mprotect, madviseDontneed]

/-- One operation: the machine and the resizable memory show the same. -/
theorem Mode.perform (mode : Mode strategy memory contents fill) (htables : mode.Tables s)
    (hs : Stores memory contents fill flat s) (haligned : s.pageSize ∣ flat.size) {op : Op}
    (hop : Admissible s.pageSize contents op) :
    ∃ t, s.perform strategy memory op = (t, (flatPerform contents fill flat op).2) ∧
      Stores memory contents fill (flatPerform contents fill flat op).1 t ∧ mode.Tables t ∧
      t.pageSize = s.pageSize ∧ t.base memory = s.base memory ∧
      s.pageSize ∣ (flatPerform contents fill flat op).1.size := by
  cases op with
  | resize newSize =>
    obtain ⟨hsize, hle⟩ := hop
    obtain ⟨hstores, ht⟩ := mode.resize htables hs haligned hsize hle
    exact ⟨_, rfl, hstores, ht, pageSize_resize .., base_resize .., hsize⟩
  | restoreFrom other =>
    obtain ⟨snap, hsnap, hle⟩ := hop
    have hother := (hs.sources other snap hsnap).size
    have hsize := (hs.sources other snap hsnap).sizeAligned
    obtain ⟨hstores, ht⟩ := mode.resize htables hs haligned hsize hle
    have hfrom := (hstores.sources other snap hsnap).size
    obtain ⟨u, hcopy, hcopied, hu, hsame⟩ :=
      mode.copyData ht hstores hsnap (le_refl _) (le_refl snap.size)
    refine ⟨u, ?_, ?_, hu, ?_, ?_, ?_⟩
    · simp only [Machine.perform, restoreFrom_eq, hother, copyAll, hfrom, hcopy, flatPerform, hsnap]
    · simp only [flatPerform, hsnap]
      have heq : copied snap snap.size (flat.resize fill snap.size) =
          ⟨snap.size, fun offset => if offset < snap.size then snap.data offset
            else fill offset⟩ := by
        simp only [copied, Flat.resize, Flat.mk.injEq, true_and]
        funext offset
        by_cases hlt : offset < snap.size <;> simp [hlt]
      rw [← heq]
      exact hcopied
    · rw [hsame.pageSize_eq, pageSize_resize]
    · rw [hsame.base_eq, base_resize]
    · simpa only [flatPerform, hsnap] using hsize
  | read offset =>
    by_cases hin : offset < flat.size
    · obtain ⟨t, hread, hstores, ht, hsame⟩ := mode.read_inside htables hs hin
      refine ⟨t, ?_, hstores, ht, hsame.pageSize_eq, hsame.base_eq memory, haligned⟩
      simp only [Machine.perform, hread, flatPerform, if_pos hin]
    · refine ⟨s, ?_, hs, htables, rfl, rfl, haligned⟩
      simp only [Machine.perform, flatPerform, if_neg hin]
      exact mode.read_outside htables hs haligned (Nat.le_of_not_lt hin) hop
  | write offset value =>
    by_cases hin : offset < flat.size
    · obtain ⟨t, hwrite, hstores, ht, hsame⟩ := mode.write_inside htables hs hin value
      refine ⟨t, ?_, ?_, ht, hsame.pageSize_eq, hsame.base_eq memory, ?_⟩
      · simp only [Machine.perform, hwrite, flatPerform, if_pos hin]
      · simpa only [flatPerform, if_pos hin] using hstores
      · rw [flatPerform, if_pos hin]
        exact haligned
    · refine ⟨s, ?_, ?_, htables, rfl, rfl, ?_⟩
      · simp only [Machine.perform, flatPerform, if_neg hin]
        exact mode.write_outside htables hs haligned (Nat.le_of_not_lt hin) hop value
      · simpa only [flatPerform, if_neg hin] using hs
      · simpa only [flatPerform, if_neg hin] using haligned

theorem Mode.after (mode : Mode strategy memory contents fill) (htables : mode.Tables s)
    (hs : Stores memory contents fill flat s) (haligned : s.pageSize ∣ flat.size) {ops : List Op}
    (hops : ∀ op ∈ ops, Admissible s.pageSize contents op) :
    ∃ flat', Stores memory contents fill flat' (s.after strategy memory ops) ∧
      mode.Tables (s.after strategy memory ops) ∧
      (s.after strategy memory ops).pageSize = s.pageSize ∧
      (s.after strategy memory ops).base memory = s.base memory ∧ s.pageSize ∣ flat'.size := by
  induction ops generalizing s flat with
  | nil => exact ⟨flat, hs, htables, rfl, rfl, haligned⟩
  | cons op ops ih =>
    obtain ⟨t, hperform, hstores, ht, hpageSize, hbase, hsize⟩ :=
      mode.perform htables hs haligned (hops op List.mem_cons_self)
    have hnext : s.after strategy memory (op :: ops) = t.after strategy memory ops := by
      rw [Machine.after, List.foldl_cons, hperform, Machine.after]
    rw [hnext, ← hpageSize, ← hbase]
    apply ih ht hstores (by rw [hpageSize]; exact hsize)
    intro next hnext
    rw [hpageSize]
    exact hops next (List.mem_cons_of_mem op hnext)

theorem Mode.trace (mode : Mode strategy memory contents fill) (htables : mode.Tables s)
    (hs : Stores memory contents fill flat s) (haligned : s.pageSize ∣ flat.size) {ops : List Op}
    (hops : ∀ op ∈ ops, Admissible s.pageSize contents op) :
    s.trace strategy memory ops = flatTrace contents fill flat ops := by
  induction ops generalizing s flat with
  | nil => rfl
  | cons op ops ih =>
    obtain ⟨t, hperform, hstores, ht, hpageSize, -, hsize⟩ :=
      mode.perform htables hs haligned (hops op List.mem_cons_self)
    rw [Machine.trace, flatTrace, hperform, ih ht hstores (by rw [hpageSize]; exact hsize)]
    intro next hnext
    rw [hpageSize]
    exact hops next (List.mem_cons_of_mem op hnext)

end Mode

end NdpOffload.Faultspeed.Refinement
