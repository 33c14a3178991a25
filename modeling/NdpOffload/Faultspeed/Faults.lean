import NdpOffload.Faultspeed.Benchmarks
import NdpOffload.Library.Residency

/-! The counter `faults` of the handler against demand paging.  A page of a
registered memory is loaded at its first use in bounds and again after a resize
has dropped it; the handler counts exactly these loads. -/
namespace NdpOffload.Faultspeed.Faults

open Library Library.Paging Memory Machine Refinement Strategies Benchmarks

/-! ### What the handler counts -/

section Counting

variable {s t : Machine}

/-- Pages that are given are counted, and signals are not. -/
def Counts (s : Machine) : Reply → Prop
  | .resolved t => t.handler.faults = s.handler.faults + 1
  | .signalled _ t => t.handler.faults = s.handler.faults
  | .terminated => True
  | .thrown => True

theorem counts_zeroPages (s : Machine) (address : Nat) :
    Counts s (s.countFault.zeroPages address) := by
  rw [zeroPages]
  split
  · trivial
  · exact rfl

theorem counts_copyPages (s : Machine) (target source : Nat) :
    Counts s (s.countFault.copyPages target source) := by
  rw [copyPages]
  split
  · trivial
  · split
    · exact rfl
    · trivial

theorem counts_handleOne (s : Machine) (m : UffdMsg) : Counts s (s.handleOne m) := by
  simp only [handleOne]
  split
  · trivial
  · split
    · trivial
    · split_ifs
      · trivial
      · trivial
      · split
        · split_ifs
          · exact counts_copyPages s _ _
          · exact counts_zeroPages s _
        · exact counts_zeroPages s _
      · exact rfl

/-- An access that the handler has served. -/
theorem faults_missing {address : Nat} (haccessible : s.space.accessible (s.page address) = true)
    (hframe : s.space.frame (s.page address) = none)
    (hwatched : s.space.watched (s.page address) = true) {frame : Nat → UInt8}
    (haccess : s.access address = (t, .frame frame)) :
    t.handler.faults = s.handler.faults + 1 := by
  have hcounts := counts_handleOne s (s.faultMsg address)
  simp only [access, Space.touch, haccessible, hframe, hwatched, if_true] at haccess
  cases hreply : s.handleOne (s.faultMsg address) with
  | resolved u =>
    rw [hreply] at hcounts
    simp only [hreply] at haccess
    split at haccess
    · obtain ⟨rfl, -⟩ := Prod.mk.inj haccess
      exact hcounts
    · cases haccess
  | signalled tid u => simp [hreply] at haccess
  | terminated => simp [hreply] at haccess
  | thrown => simp [hreply] at haccess

end Counting

/-! ### Loads -/

/-- The pages of the mapping that are there, by their place in it. -/
def Resident (memory : Nat) (resident : Finset Nat) (s : Machine) : Prop :=
  ∀ page, page * s.pageSize < wmemSize →
    ((s.space.frame (s.page (s.base memory) + page)).isSome ↔ page ∈ resident)

/-- From `s` to `t` pages have been loaded and dropped as `events` say, and the
counter has counted the loads. -/
structure Loads (memory : Nat) (events : List Residency.Event) (s t : Machine) : Prop where
  pageSize : t.pageSize = s.pageSize
  base : t.base memory = s.base memory
  resident : ∀ pages, Resident memory pages s → Resident memory (Residency.after pages events) t
  faults : ∀ pages, Resident memory pages s →
    t.handler.faults = s.handler.faults + UInt64.ofNat (Residency.misses pages events)

section Loads

variable {memory : Nat} {s t u : Machine} {contents : Nat → Option (Flat UInt8)}
  {fill : Nat → UInt8} {flat : Flat UInt8}

theorem Loads.refl (memory : Nat) (s : Machine) : Loads memory [] s s :=
  ⟨rfl, rfl, fun _ hs => hs, fun _ _ => (UInt64.add_zero _).symm⟩

theorem Loads.trans {first second : List Residency.Event} (hst : Loads memory first s t)
    (htu : Loads memory second t u) : Loads memory (first ++ second) s u where
  pageSize := htu.pageSize.trans hst.pageSize
  base := htu.base.trans hst.base
  resident := fun pages hs => by
    rw [Residency.after_append]
    exact htu.resident _ (hst.resident pages hs)
  faults := fun pages hs => by
    rw [htu.faults _ (hst.resident pages hs), hst.faults pages hs, Residency.misses_append,
      UInt64.ofNat_add, UInt64.add_assoc]

/-- Other frames change, and nothing is counted. -/
theorem Loads.same (hsame : SameTables s t) (hfaults : t.handler.faults = s.handler.faults)
    (hframe : ∀ page, (t.space.frame page).isSome = (s.space.frame page).isSome ∨
      ¬ InMapping s memory page) (haligned : s.pageSize ∣ s.base memory) :
    Loads memory [] s t where
  pageSize := hsame.pageSize_eq
  base := hsame.base_eq memory
  resident := fun pages hs page hpage => by
    rw [hsame.pageSize_eq] at hpage
    have hin : InMapping s memory (s.page (s.base memory) + page) := by
      rw [InMapping, Nat.add_mul, Machine.page, Nat.div_mul_cancel haligned]
      omega
    rw [hsame.page_eq, hsame.base_eq]
    rcases hframe (s.page (s.base memory) + page) with hkept | hout
    · rw [hkept]
      exact hs page hpage
    · exact absurd hin hout
  faults := fun _ _ => by
    rw [hfaults]
    exact (UInt64.add_zero _).symm

theorem page_offset (haligned : s.pageSize ∣ s.base memory) (offset : Nat) :
    s.page (s.base memory + offset) = s.page (s.base memory) + offset / s.pageSize :=
  Nat.add_div_of_dvd_right haligned

theorem Resident.offset {pages : Finset Nat} (hresident : Resident memory pages s)
    (haligned : s.pageSize ∣ s.base memory) {offset : Nat} (hoffset : offset < wmemSize) :
    (s.space.frame (s.page (s.base memory + offset))).isSome ↔ offset / s.pageSize ∈ pages := by
  rw [page_offset haligned]
  exact hresident _ (lt_of_le_of_lt (round_le_self s.pageSize offset) hoffset)

/-- An access in bounds is a use of its page. -/
theorem loads_access (hwatched : Watched memory contents fill s)
    (hs : Stores memory contents fill flat s) {offset : Nat} (hoffset : offset < flat.size) :
    ∃ t frame, s.access (s.base memory + offset) = (t, .frame frame) ∧ SameTables s t ∧
      (t.space.frame (s.page (s.base memory + offset))).isSome ∧
      Loads memory [.use (offset / s.pageSize)] s t := by
  have hhalf := le_trans hs.size_le half_le
  have hlt : offset < wmemSize := lt_of_lt_of_le hoffset hhalf
  cases hframe : s.space.frame (s.page (s.base memory + offset)) with
  | some frame =>
    refine ⟨s, frame, access_present (hwatched.accessible hs hoffset) hframe, .refl s,
      by rw [hframe]; rfl, rfl, rfl, fun pages hpages => ?_, fun pages hpages => ?_⟩
    all_goals
      have hthere : offset / s.pageSize ∈ pages :=
        (hpages.offset hs.aligned hlt).mp (by rw [hframe]; rfl)
    · rw [Residency.after, Residency.after, Residency.Event.after, Finset.insert_eq_self.mpr hthere]
      exact hpages
    · simp [Residency.misses, Residency.Event.misses, hthere]
  | none =>
    obtain ⟨t, frame, haccess, hsame, hinstalled, -⟩ := hwatched.missing hs hoffset hframe
    have hcounted := faults_missing (hwatched.accessible hs hoffset) hframe
      (hwatched.tables _ (hs.inMapping hlt)).2 haccess
    refine ⟨t, frame, haccess, hsame, by rw [hinstalled, Space.install_frame_self]; rfl,
      hsame.pageSize_eq, hsame.base_eq memory, fun pages hpages page hpage => ?_,
      fun pages hpages => ?_⟩
    · rw [hsame.pageSize_eq] at hpage
      rw [hsame.page_eq, hsame.base_eq, hinstalled, Residency.after, Residency.after,
        Residency.Event.after, Finset.mem_insert]
      by_cases hsamePage : page = offset / s.pageSize
      · subst hsamePage
        rw [← page_offset hs.aligned, Space.install_frame_self]
        simp
      · rw [Space.install_frame_ne (by rw [page_offset hs.aligned]; omega), hpages page hpage]
        simp [hsamePage]
    · have hmissing : offset / s.pageSize ∉ pages := fun hthere => by
        have hsome := (hpages.offset hs.aligned hlt).mpr hthere
        rw [hframe] at hsome
        cases hsome
      simp [hcounted, Residency.misses, Residency.Event.misses, hmissing]

theorem loads_read (hwatched : Watched memory contents fill s)
    (hs : Stores memory contents fill flat s) {offset : Nat} (hoffset : offset < flat.size) :
    Loads memory [.use (offset / s.pageSize)] s (s.read memory offset).1 := by
  obtain ⟨t, frame, haccess, -, -, hloads⟩ := loads_access hwatched hs hoffset
  simp only [Machine.read, haccess]
  exact hloads

theorem loads_write (hwatched : Watched memory contents fill s)
    (hs : Stores memory contents fill flat s) {offset : Nat} (hoffset : offset < flat.size)
    (value : UInt8) :
    Loads memory [.use (offset / s.pageSize)] s (s.write memory offset value).1 := by
  obtain ⟨t, frame, haccess, hsame, hthere, hloads⟩ := loads_access hwatched hs hoffset
  simp only [Machine.write, haccess]
  have hstored : Loads memory [] t (t.install (s.page (s.base memory + offset))
      (Function.update frame ((s.base memory + offset) % s.pageSize) value)) := by
    apply Loads.same (sameTables_install t _ _) rfl
    · intro page
      by_cases hpage : page = s.page (s.base memory + offset)
      · subst hpage
        left
        rw [Machine.install, Space.install_frame_self, hthere]
        rfl
      · left
        rw [Machine.install, Space.install_frame_ne hpage]
    · rw [hsame.pageSize_eq, hsame.base_eq]
      exact hs.aligned
  exact hloads.trans hstored

/-- The snapshot is not watched, so that reads of it are not counted. -/
theorem loads_source (hs : Stores memory contents fill flat s) {other : Nat} {snap : Flat UInt8}
    (hsnap : contents other = some snap) {offset : Nat} (hoffset : offset < snap.size) :
    Loads memory [] s (s.read other offset).1 := by
  have hsource := hs.sources other snap hsnap
  obtain ⟨haccessible, hunwatched⟩ := hsource.readable offset hoffset
  cases hframe : s.space.frame (s.page (s.base other + offset)) with
  | some frame =>
    rw [Machine.read, access_present haccessible hframe]
    exact Loads.refl memory s
  | none =>
    rw [Machine.read, access_absent haccessible hframe hunwatched]
    apply Loads.same (sameTables_install s _ _) rfl _ hs.aligned
    intro page
    by_cases hpage : page = s.page (s.base other + offset)
    · subst hpage
      exact .inr (hsource.not_inMapping hoffset)
    · left
      rw [Machine.install, Space.install_frame_ne hpage]

/-- The copy of a snapshot uses the pages it is written to. -/
theorem loads_copyData (hwatched : Watched memory contents fill s)
    (hs : Stores memory contents fill flat s) {other : Nat} {snap : Flat UInt8}
    (hsnap : contents other = some snap) {count : Nat} (hcount : count ≤ snap.size)
    (hfits : snap.size ≤ flat.size) :
    Loads memory (Residency.sweep s.pageSize count) s (s.copyData other memory count).1 := by
  induction count with
  | zero => exact Loads.refl memory s
  | succ count ih =>
    have hfront_le : count ≤ snap.size := by omega
    have hfront := ih hfront_le
    obtain ⟨t, hcopied, hstores, ht, hst⟩ :=
      (uffdMode memory contents fill).copyData hwatched hs hsnap hfront_le hfits
    obtain ⟨u, hread, hstored, hu, htu⟩ :=
      (uffdMode memory contents fill).read_source ht hstores hsnap hcount
    have hin : count < (copied snap count flat).size := lt_of_lt_of_le hcount hfits
    obtain ⟨v, hwrite, -, -, -⟩ :=
      (uffdMode memory contents fill).write_inside hu hstored hin (snap.data count)
    have hsourced := loads_source hstores hsnap hcount
    have hwritten := loads_write hu hstored hin (snap.data count)
    rw [hread] at hsourced
    rw [hcopied] at hfront
    rw [htu.pageSize_eq, hst.pageSize_eq, hwrite] at hwritten
    have hsweep : Residency.sweep s.pageSize (count + 1) =
        Residency.sweep s.pageSize count ++ [.use (count / s.pageSize)] := by
      rw [Residency.sweep, List.range_succ, List.map_append]
      rfl
    rw [Machine.copyData, hcopied, hsweep]
    simp only [hread, hwrite]
    exact hfront.trans (hsourced.trans hwritten)

/-- A resize drops the pages from the new size on. -/
theorem loads_resize (hs : Stores memory contents fill flat s) {newSize : Nat}
    (haligned : s.pageSize ∣ newSize) :
    Loads memory [.cut (newSize / s.pageSize)] s (s.resizeWavmUffd memory newSize) := by
  have hpos := pageSize_pos s
  have hpageSize := pageSize_resize .uffd memory newSize s
  have hbase := base_resize .uffd memory newSize s
  refine ⟨hpageSize, hbase, fun pages hpages page hpage => ?_, fun _ _ => ?_⟩
  · rw [Machine.resize] at hpageSize hbase
    rw [hpageSize] at hpage
    have hbegin : (s.page (s.base memory) + page) * s.pageSize =
        s.base memory + page * s.pageSize := by
      rw [Nat.add_mul, Machine.page, Nat.div_mul_cancel hs.aligned]
    have hold := hpages page hpage
    have hbound : page < newSize / s.pageSize ↔ page * s.pageSize < newSize := by
      obtain ⟨count, rfl⟩ := haligned
      rw [Nat.mul_div_cancel_left count hpos, Nat.mul_comm s.pageSize count,
        Nat.mul_lt_mul_right hpos]
    rw [Machine.page, hpageSize, hbase, ← Machine.page, Residency.after, Residency.after,
      Residency.Event.after, Finset.mem_filter, hbound, ← hold]
    by_cases hlt : newSize < s.size memory
    · have hframe : (s.resizeWavmUffd memory newSize).space.frame (s.page (s.base memory) + page) =
          if covers s.pageSize (s.base memory + newSize) (s.size memory - newSize)
            (s.page (s.base memory) + page) then none
          else s.space.frame (s.page (s.base memory) + page) := by
        simp [resizeWavmUffd, hlt, setSize, madviseDontneed, Space.discard]
      rw [hframe, covers, hbegin]
      by_cases hkept : page * s.pageSize < newSize
      · have hfront : ¬ s.base memory + newSize ≤ s.base memory + page * s.pageSize := by omega
        simp [hfront, hkept]
      · by_cases hdropped : s.base memory + page * s.pageSize <
            s.base memory + newSize + (s.size memory - newSize)
        · have hback : s.base memory + newSize ≤ s.base memory + page * s.pageSize := by omega
          simp [hback, hdropped, hkept]
        · -- beyond the old size nothing was there
          have hbeyond := hs.backs.beyond (s.page (s.base memory) + page)
            (by rw [hbegin, ← hs.size]; omega) (by rw [hbegin]; omega)
          simp [hbeyond, hdropped]
    · have hframe : (s.resizeWavmUffd memory newSize).space.frame = s.space.frame := by
        simp [resizeWavmUffd, hlt, setSize]
      rw [hframe]
      by_cases hkept : page * s.pageSize < newSize
      · simp [hkept]
      · have hbeyond := hs.backs.beyond (s.page (s.base memory) + page)
          (by rw [hbegin, ← hs.size]; omega) (by rw [hbegin]; omega)
        simp [hbeyond]
  · have hfaults : (s.resizeWavmUffd memory newSize).handler.faults = s.handler.faults := by
      rw [resizeWavmUffd]
      split <;> rfl
    rw [hfaults]
    exact (UInt64.add_zero _).symm

end Loads

/-! ### Whole sequences -/

/-- The size that an operation leaves. -/
def sizeAfter (contents : Nat → Option (Flat UInt8)) (size : Nat) : Op → Nat
  | .resize newSize => newSize
  | .restoreFrom other => ((contents other).map Flat.size).getD size
  | .read _ => size
  | .write _ _ => size

/-- The pages that an operation uses and drops, in a memory of this size. -/
def opEvents (pageSize : Nat) (contents : Nat → Option (Flat UInt8)) (size : Nat) :
    Op → List Residency.Event
  | .resize newSize => [.cut (newSize / pageSize)]
  | .restoreFrom other =>
      match contents other with
      | some snap => .cut (snap.size / pageSize) :: Residency.sweep pageSize snap.size
      | none => []
  | .read offset => if offset < size then [.use (offset / pageSize)] else []
  | .write offset _ => if offset < size then [.use (offset / pageSize)] else []

def footprint (pageSize : Nat) (contents : Nat → Option (Flat UInt8)) :
    Nat → List Op → List Residency.Event
  | _, [] => []
  | size, op :: ops =>
      opEvents pageSize contents size op ++
        footprint pageSize contents (sizeAfter contents size op) ops

/-- A memory of this size that the handler serves. -/
structure Served (memory : Nat) (contents : Nat → Option (Flat UInt8)) (fill : Nat → UInt8)
    (size : Nat) (s : Machine) : Prop where
  watched : Watched memory contents fill s
  stores : ∃ flat : Flat UInt8, flat.size = size ∧ Stores memory contents fill flat s
  aligned : s.pageSize ∣ size

section Sequences

variable {memory : Nat} {s t : Machine} {contents : Nat → Option (Flat UInt8)}
  {fill : Nat → UInt8} {size : Nat}

theorem Served.perform (hs : Served memory contents fill size s) {op : Op}
    (hop : Admissible s.pageSize contents op) :
    Served memory contents fill (sizeAfter contents size op) (s.perform .uffd memory op).1 := by
  obtain ⟨flat, rfl, hstores⟩ := hs.stores
  obtain ⟨t, hperform, hnext, ht, hpageSize, -, hsize⟩ :=
    (uffdMode memory contents fill).perform hs.watched hstores hs.aligned hop
  have hflat : (flatPerform contents fill flat op).1.size = sizeAfter contents flat.size op := by
    cases op with
    | resize newSize => rfl
    | restoreFrom other =>
      obtain ⟨snap, hsnap, -⟩ := hop
      simp [flatPerform, sizeAfter, hsnap]
    | read offset => rfl
    | write offset value =>
      rw [flatPerform]
      split <;> rfl
  rw [hperform]
  refine ⟨ht, ⟨_, hflat, hnext⟩, ?_⟩
  rw [hpageSize, ← hflat]
  exact hsize

theorem loads_perform (hs : Served memory contents fill size s) {op : Op}
    (hop : Admissible s.pageSize contents op) :
    Loads memory (opEvents s.pageSize contents size op) s (s.perform .uffd memory op).1 := by
  obtain ⟨flat, rfl, hstores⟩ := hs.stores
  cases op with
  | resize newSize => exact loads_resize hstores hop.1
  | restoreFrom other =>
    obtain ⟨snap, hsnap, hle⟩ := hop
    have hsource := hstores.sources other snap hsnap
    have hresized := (uffdMode memory contents fill).resize hs.watched hstores hs.aligned
      hsource.sizeAligned hle
    have hcopied := loads_copyData hresized.2 hresized.1 hsnap (le_refl _) (le_refl snap.size)
    have hfrom := (hresized.1.sources other snap hsnap).size
    rw [pageSize_resize] at hcopied
    simp only [opEvents, hsnap, Machine.perform, restoreFrom_eq, copyAll, hsource.size, hfrom]
    exact (loads_resize hstores hsource.sizeAligned).trans hcopied
  | read offset =>
    simp only [opEvents, Machine.perform]
    split_ifs with hin
    · exact loads_read hs.watched hstores hin
    · rw [(uffdMode memory contents fill).read_outside hs.watched hstores hs.aligned
        (Nat.le_of_not_lt hin) hop]
      exact Loads.refl memory s
  | write offset value =>
    simp only [opEvents, Machine.perform]
    split_ifs with hin
    · exact loads_write hs.watched hstores hin value
    · rw [(uffdMode memory contents fill).write_outside hs.watched hstores hs.aligned
        (Nat.le_of_not_lt hin) hop]
      exact Loads.refl memory s

theorem loads_after (hs : Served memory contents fill size s) {ops : List Op}
    (hops : ∀ op ∈ ops, Admissible s.pageSize contents op) :
    Served memory contents fill (ops.foldl (sizeAfter contents) size)
        (s.after .uffd memory ops) ∧
      Loads memory (footprint s.pageSize contents size ops) s (s.after .uffd memory ops) := by
  induction ops generalizing s size with
  | nil => exact ⟨hs, Loads.refl memory s⟩
  | cons op ops ih =>
    have hop := hops op List.mem_cons_self
    have hfirst := loads_perform hs hop
    obtain ⟨hserved, hrest⟩ := ih (hs.perform hop) fun later hlater => by
      rw [hfirst.pageSize]
      exact hops later (List.mem_cons_of_mem op hlater)
    rw [hfirst.pageSize] at hrest
    exact ⟨hserved, hfirst.trans hrest⟩

end Sequences

section Registered

variable {memory base : Nat} {s : Machine} {contents : Nat → Option (Flat UInt8)}

/-- A memory that has just been registered: it is empty, and no page is there. -/
theorem added_served (hroom : Room s memory base contents)
    (hknown : ∀ other, s.handler.snapshot = some other → ∃ snap, contents other = some snap) :
    Served memory contents (handlerFill contents memory ((s.construct memory base).add memory)) 0
        ((s.construct memory base).add memory) ∧
      Resident memory ∅ ((s.construct memory base).add memory) := by
  refine ⟨⟨add_watched hroom hknown, ⟨_, rfl, add_stores hroom _⟩, Nat.dvd_zero _⟩, ?_⟩
  intro page hpage
  rw [pageSize_add, pageSize_construct] at hpage
  have hin : InMapping (s.construct memory base) memory
      ((s.construct memory base).page base + page) := by
    rw [InMapping, base_construct, Machine.page, pageSize_construct, Nat.add_mul,
      Nat.div_mul_cancel hroom.aligned]
    omega
  rw [Machine.page, pageSize_add, base_add, ← Machine.page, base_construct,
    (add_tables _ memory _).2.2, (construct_space hin).2.2]
  simp

theorem faults_add (t : Machine) (memory : Nat) :
    (t.add memory).handler.faults = t.handler.faults := rfl

open Classical in
/-- The handler counts the uses in bounds of pages that have not been used since
they were last dropped, and nothing else, however the operations go. -/
theorem faults_counted (hroom : Room s memory base contents)
    (hknown : ∀ other, s.handler.snapshot = some other → ∃ snap, contents other = some snap)
    {ops : List Op} (hops : ∀ op ∈ ops, Admissible s.pageSize contents op) :
    (((s.construct memory base).add memory).after .uffd memory ops).handler.faults =
      s.handler.faults + UInt64.ofNat
        ((Finset.range (footprint s.pageSize contents 0 ops).length).filter
          (Residency.Missed (footprint s.pageSize contents 0 ops))).card := by
  obtain ⟨hserved, hresident⟩ := added_served hroom hknown
  obtain ⟨-, hloads⟩ := loads_after hserved hops
  rw [hloads.faults ∅ hresident, faults_add, pageSize_add, pageSize_construct,
    Residency.misses_eq_card]
  rfl

/-- Growing, using, shrinking and using again, in and out of bounds. -/
theorem faults_counted_hosting :
    let s := hosting ⟨4096, UInt8.ofNat⟩ (some 1)
    let ops : List Op := [.resize 8192, .write 5000 7, .read 5000, .read 8192, .read 300,
      .resize 4096, .resize 8192, .read 5000, .resize 0, .write 3 1, .resize 4096, .read 300]
    (((s.construct 0 memoryBase).add 0).after .uffd 0 ops).handler.faults = 4 := by
  intro s ops
  have hroom := hosting_room ⟨4096, UInt8.ofNat⟩ (some 1) (by decide) (by decide)
  have hknown : ∀ other, s.handler.snapshot = some other →
      ∃ snap, hosted ⟨4096, UInt8.ofNat⟩ other = some snap := by
    rintro other hother
    obtain rfl : 1 = other := Option.some.inj hother
    exact ⟨_, rfl⟩
  have hops : ∀ op ∈ ops, Admissible s.pageSize (hosted ⟨4096, UInt8.ofNat⟩) op := by
    rw [pageSize_hosting]
    simp only [ops, List.forall_mem_cons, Admissible]
    exact ⟨by decide, by decide, by decide, by decide, by decide, by decide, by decide, by decide,
      by decide, by decide, by decide, by decide, by simp⟩
  rw [faults_counted hroom hknown hops, ← Residency.misses_eq_card, pageSize_hosting]
  rfl

end Registered

/-! ### The benchmarks with a handler -/

/-- One iteration of `BM_UFFD_Lazy` and `BM_UFFD_SIGBUS_Lazy`. -/
def lazyIteration (x y : UInt8) : List Call :=
  [.resize 0, .sideEffect, .resize snapSize, .sideEffect, .fillWithData workFillStart wmemSize x,
    .sideEffect, .resize workSize, .sideEffect, .fillWithData workFillStart wmemSize y, .sideEffect]

def lazyIterations (inits : List (UInt8 × UInt8)) : List (List Call) :=
  inits.map fun init => lazyIteration init.1 init.2

/-- The machine after a loop. -/
def afterLoop (memory other : Nat) : Machine → List (List Call) → Machine
  | s, [] => s
  | s, calls :: iterations =>
      afterLoop memory other (runCalls (fun t op => t.perform .uffd memory op)
        (fun t => t.size memory) other s calls).1 iterations

/-- `faults.store(0)`. -/
def clearFaults (s : Machine) : Machine := { s with handler := { s.handler with faults := 0 } }

/-- The counter `UFFD_Faults` of a benchmark that runs in one thread. -/
def uffdFaults (snapshot : Option Nat) (memory base other : Nat) (s : Machine)
    (rounds : List (List Call)) : UInt64 :=
  let func := s.construct memory base
  let ready := (clearFaults (func.setSnapshot snapshot)).add memory
  (afterLoop memory other ready rounds).handler.faults

/-- What both iterations do after they have opened the memory for the snapshot. -/
def workCalls (x y : UInt8) : List Call :=
  [.sideEffect, .fillWithData workFillStart wmemSize x, .sideEffect, .resize workSize, .sideEffect,
    .fillWithData workFillStart wmemSize y, .sideEffect]

theorem iteration_eq (x y : UInt8) : iteration x y = .restoreFrom :: workCalls x y := rfl

theorem lazyIteration_eq (x y : UInt8) :
    lazyIteration x y = .resize 0 :: .sideEffect :: .resize snapSize :: workCalls x y := rfl

section Costs

open Residency

variable {pageSize other : Nat} {contents : Nat → Option (Flat UInt8)}

def callsSize (contents : Nat → Option (Flat UInt8)) (other : Nat) : Nat → List Call → Nat
  | size, [] => size
  | size, call :: calls =>
      callsSize contents other ((call.ops other size).foldl (sizeAfter contents) size) calls

def callsEvents (pageSize : Nat) (contents : Nat → Option (Flat UInt8)) (other : Nat) :
    Nat → List Call → List Event
  | _, [] => []
  | size, call :: calls =>
      footprint pageSize contents size (call.ops other size) ++
        callsEvents pageSize contents other
          ((call.ops other size).foldl (sizeAfter contents) size) calls

/-- From a memory of size `size` whose first `low` pages are there to one of size
`size'` whose first `high` pages are there, with `count` loads. -/
def CallsCost (pageSize : Nat) (contents : Nat → Option (Flat UInt8)) (other size low : Nat)
    (calls : List Call) (size' high count : Nat) : Prop :=
  callsSize contents other size calls = size' ∧
    Costs low (callsEvents pageSize contents other size calls) high count

theorem callsCost_nil (size low : Nat) :
    CallsCost pageSize contents other size low [] size low 0 := ⟨rfl, costs_nil low⟩

theorem CallsCost.cons {size middle size' low between high first second : Nat} {call : Call}
    {calls : List Call} (hsize : (call.ops other size).foldl (sizeAfter contents) size = middle)
    (hcost : Costs low (footprint pageSize contents size (call.ops other size)) between first)
    (hrest : CallsCost pageSize contents other middle between calls size' high second) :
    CallsCost pageSize contents other size low (call :: calls) size' high (first + second) := by
  subst hsize
  exact ⟨hrest.1, hcost.append hrest.2⟩

/-- Accesses in bounds are uses, and leave the size. -/
theorem footprint_touches (contents : Nat → Option (Flat UInt8)) {size : Nat} (hpos : 0 < pageSize) (haligned : pageSize ∣ size)
    {ops : List Op} (hops : ∀ op ∈ ops, Touches size op) :
    ops.foldl (sizeAfter contents) size = size ∧
      ∃ pages : List Nat, footprint pageSize contents size ops = pages.map .use ∧
        ∀ page ∈ pages, page < size / pageSize := by
  induction ops with
  | nil => exact ⟨rfl, [], rfl, by simp⟩
  | cons op ops ih =>
    have hop := hops op List.mem_cons_self
    obtain ⟨hsize, pages, hpages, hbelow⟩ := ih fun later hlater =>
      hops later (List.mem_cons_of_mem op hlater)
    have huse : ∀ offset < size, offset / pageSize < size / pageSize := by
      obtain ⟨count, rfl⟩ := haligned
      intro offset hoffset
      rw [Nat.mul_div_cancel_left count hpos, Nat.div_lt_iff_lt_mul hpos, Nat.mul_comm]
      exact hoffset
    cases op with
    | read offset =>
      change offset < size at hop
      refine ⟨hsize, offset / pageSize :: pages, ?_, ?_⟩
      · rw [footprint, opEvents, if_pos hop, sizeAfter, hpages]
        rfl
      · exact List.forall_mem_cons.mpr ⟨huse offset hop, hbelow⟩
    | write offset value =>
      change offset < size at hop
      refine ⟨hsize, offset / pageSize :: pages, ?_, ?_⟩
      · rw [footprint, opEvents, if_pos hop, sizeAfter, hpages]
        rfl
      · exact List.forall_mem_cons.mpr ⟨huse offset hop, hbelow⟩
    | resize newSize => cases hop
    | restoreFrom other => cases hop

theorem footprint_sideEffect (size : Nat) :
    footprint pageSize contents size (sideEffectOps size) = sweep pageSize size := by
  have hreads : ∀ offsets : List Nat, (∀ offset ∈ offsets, offset < size) →
      footprint pageSize contents size (offsets.map .read) =
        offsets.map fun offset => .use (offset / pageSize) := by
    intro offsets hoffsets
    induction offsets with
    | nil => rfl
    | cons offset offsets ih =>
      obtain ⟨hoffset, hrest⟩ := List.forall_mem_cons.mp hoffsets
      rw [List.map_cons, footprint, opEvents, if_pos hoffset, sizeAfter, ih hrest]
      rfl
  exact hreads _ fun offset hoffset => List.mem_range.mp hoffset

theorem CallsCost.sideEffect {pages low size' high count : Nat} {calls : List Call}
    (hpos : 0 < pageSize) (hlow : low ≤ pages)
    (hrest : CallsCost pageSize contents other (pages * pageSize) pages calls size' high count) :
    CallsCost pageSize contents other (pages * pageSize) low (.sideEffect :: calls) size' high
      (pages - low + count) := by
  obtain ⟨hsize, -⟩ := footprint_touches contents hpos (Nat.dvd_mul_left pageSize pages)
    (touches_sideEffect (pages * pageSize))
  refine CallsCost.cons hsize ?_ hrest
  have hcost := costs_sweep hpos low pages
  rw [Nat.max_eq_right hlow] at hcost
  rw [Call.ops, footprint_sideEffect]
  exact hcost

theorem CallsCost.fillWithData {pages size' high count : Nat} {calls : List Call}
    (hpos : 0 < pageSize) (start upTo : Nat) (x : UInt8)
    (hrest : CallsCost pageSize contents other (pages * pageSize) pages calls size' high count) :
    CallsCost pageSize contents other (pages * pageSize) pages
      (.fillWithData start upTo x :: calls) size' high count := by
  obtain ⟨hsize, used, hused, hbelow⟩ := footprint_touches contents hpos
    (Nat.dvd_mul_left pageSize pages) (touches_fillWithData (pages * pageSize) start upTo x)
  rw [Nat.mul_div_cancel pages hpos] at hbelow
  rw [← Nat.zero_add count]
  refine CallsCost.cons hsize ?_ hrest
  rw [Call.ops, hused]
  exact costs_within hbelow

theorem CallsCost.resize {size pages low size' high count : Nat} {calls : List Call}
    (hpos : 0 < pageSize)
    (hrest : CallsCost pageSize contents other (pages * pageSize) (min low pages) calls size' high
      count) :
    CallsCost pageSize contents other size low (.resize (pages * pageSize) :: calls) size' high
      count := by
  rw [← Nat.zero_add count]
  refine CallsCost.cons rfl ?_ hrest
  rw [Call.ops, footprint, footprint, opEvents, Nat.mul_div_cancel pages hpos]
  exact costs_cut low pages

theorem CallsCost.restoreFrom {snap : Flat UInt8} (hsnap : contents other = some snap)
    {size pages low size' high count : Nat} {calls : List Call} (hpos : 0 < pageSize)
    (hsize : snap.size = pages * pageSize)
    (hrest : CallsCost pageSize contents other (pages * pageSize) pages calls size' high count) :
    CallsCost pageSize contents other size low (.restoreFrom :: calls) size' high
      (pages - low + count) := by
  refine CallsCost.cons ?_ ?_ hrest
  · simp [Call.ops, sizeAfter, hsnap, hsize]
  · have hcopy := (costs_cut low pages).append (costs_sweep hpos (min low pages) pages)
    have hhigh : max (min low pages) pages = pages := Nat.max_eq_right (Nat.min_le_right _ _)
    have hcount : 0 + (pages - min low pages) = pages - low := by omega
    rw [hhigh, hcount] at hcopy
    simp only [Call.ops, footprint, opEvents, hsnap, hsize, List.append_nil,
      Nat.mul_div_cancel pages hpos]
    exact hcopy

/-- The pages of the snapshot that are missing and those beyond it are loaded once. -/
theorem workCalls_cost (contents : Nat → Option (Flat UInt8)) (other : Nat)
    (hpos : 0 < pageSize) {snapPages workPages low : Nat}
    (hwork : workSize = workPages * pageSize) (hle : snapPages ≤ workPages) (hlow : low ≤ snapPages)
    (x y : UInt8) :
    CallsCost pageSize contents other (snapPages * pageSize) low (workCalls x y) workSize workPages
      (workPages - low) := by
  have hlate : CallsCost pageSize contents other (workPages * pageSize) snapPages
      [.sideEffect, .fillWithData workFillStart wmemSize y, .sideEffect] (workPages * pageSize)
      workPages (workPages - snapPages + (workPages - workPages + 0)) :=
    .sideEffect hpos hle (.fillWithData hpos _ _ y (.sideEffect hpos (le_refl _)
      (callsCost_nil _ _)))
  have hgrown : CallsCost pageSize contents other (snapPages * pageSize) snapPages
      (.resize (workPages * pageSize) :: [.sideEffect, .fillWithData workFillStart wmemSize y,
        .sideEffect]) (workPages * pageSize) workPages
      (workPages - snapPages + (workPages - workPages + 0)) := by
    apply CallsCost.resize hpos
    rw [Nat.min_eq_left hle]
    exact hlate
  have hall := CallsCost.sideEffect hpos hlow
    (CallsCost.fillWithData hpos workFillStart wmemSize x (CallsCost.sideEffect hpos (le_refl _) hgrown))
  have hcount : snapPages - low + (snapPages - snapPages +
      (workPages - snapPages + (workPages - workPages + 0))) = workPages - low := by omega
  rw [hcount, ← hwork] at hall
  exact hall

theorem iteration_cost {snap : Flat UInt8} (hsnap : contents other = some snap)
    (hpos : 0 < pageSize) {snapPages workPages : Nat} (hsize : snap.size = snapPages * pageSize)
    (hwork : workSize = workPages * pageSize) (hle : snapPages ≤ workPages) (size low : Nat)
    (x y : UInt8) :
    CallsCost pageSize contents other size low (iteration x y) workSize workPages
      (snapPages - low + (workPages - snapPages)) := by
  rw [iteration_eq]
  exact .restoreFrom hsnap hpos hsize (workCalls_cost contents other hpos hwork hle (le_refl _) x y)

/-- Whatever is there is dropped first. -/
theorem lazyIteration_cost (contents : Nat → Option (Flat UInt8)) (other : Nat)
    (hpos : 0 < pageSize) {snapPages workPages : Nat} (hsnap : snapSize = snapPages * pageSize) (hwork : workSize = workPages * pageSize)
    (hle : snapPages ≤ workPages) (size low : Nat) (x y : UInt8) :
    CallsCost pageSize contents other size low (lazyIteration x y) workSize workPages workPages := by
  have hwork' := workCalls_cost contents other hpos hwork hle (Nat.zero_le snapPages) x y
  have hopened : CallsCost pageSize contents other (0 * pageSize) 0
      (.resize (snapPages * pageSize) :: workCalls x y) workSize workPages workPages := by
    apply CallsCost.resize hpos
    rw [Nat.zero_min]
    exact hwork'
  have hempty := CallsCost.sideEffect hpos (le_refl 0) hopened
  have hall : CallsCost pageSize contents other size low
      (.resize (0 * pageSize) :: .sideEffect :: .resize (snapPages * pageSize) :: workCalls x y)
      workSize workPages (0 - 0 + workPages) := by
    apply CallsCost.resize hpos
    rw [Nat.min_zero]
    exact hempty
  rw [Nat.zero_mul, ← hsnap, Nat.sub_self, Nat.zero_add] at hall
  rw [lazyIteration_eq]
  exact hall

end Costs

section Loops

variable {memory other size : Nat} {s : Machine} {contents : Nat → Option (Flat UInt8)}
  {fill : Nat → UInt8}

theorem runOps_eq_after (s : Machine) (ops : List Op) :
    (runOps (fun t op => t.perform .uffd memory op) s ops).1 = s.after .uffd memory ops := by
  induction ops generalizing s with
  | nil => rfl
  | cons op ops ih => exact ih _

theorem admissible_ops {pageSize : Nat} {call : Call} (hcall : CallOk pageSize contents other call)
    (hsize : size ≤ wmemSize / 2) :
    ∀ op ∈ call.ops other size, Admissible pageSize contents op := by
  have hhalf := le_trans hsize half_le
  have htouches : ∀ ops : List Op, (∀ op ∈ ops, Touches size op) →
      ∀ op ∈ ops, Admissible pageSize contents op := by
    intro ops hops op hop
    have htouch := hops op hop
    cases op with
    | read offset => exact lt_of_lt_of_le htouch hhalf
    | write offset value => exact lt_of_lt_of_le htouch hhalf
    | resize newSize => cases htouch
    | restoreFrom other => cases htouch
  cases call with
  | restoreFrom => exact List.forall_mem_singleton.mpr hcall
  | resize newSize => exact List.forall_mem_singleton.mpr hcall
  | sideEffect => exact htouches _ (touches_sideEffect size)
  | fillWithData start upTo x => exact htouches _ (touches_fillWithData size start upTo x)

theorem loads_runCalls (hs : Served memory contents fill size s) {calls : List Call}
    (hcalls : ∀ call ∈ calls, CallOk s.pageSize contents other call) :
    Served memory contents fill (callsSize contents other size calls)
        (runCalls (fun t op => t.perform .uffd memory op) (fun t => t.size memory) other s calls).1 ∧
      Loads memory (callsEvents s.pageSize contents other size calls) s
        (runCalls (fun t op => t.perform .uffd memory op) (fun t => t.size memory) other s
          calls).1 := by
  induction calls generalizing s size with
  | nil => exact ⟨hs, Loads.refl memory s⟩
  | cons call calls ih =>
    obtain ⟨flat, rfl, hstores⟩ := hs.stores
    have hops := admissible_ops (hcalls call List.mem_cons_self) hstores.size_le
    obtain ⟨hserved, hfirst⟩ := loads_after hs hops
    obtain ⟨hlast, hrest⟩ := ih hserved fun later hlater => by
      rw [hfirst.pageSize]
      exact hcalls later (List.mem_cons_of_mem call hlater)
    rw [hfirst.pageSize] at hrest
    simp only [runCalls, hstores.size, runOps_eq_after]
    exact ⟨hlast, hfirst.trans hrest⟩

/-- An iteration whose loads are known. -/
theorem runCalls_costs (hs : Served memory contents fill size s) {low : Nat}
    (hresident : Resident memory (Finset.range low) s) {calls : List Call}
    (hcalls : ∀ call ∈ calls, CallOk s.pageSize contents other call) {size' high count : Nat}
    (hcost : CallsCost s.pageSize contents other size low calls size' high count) {t : Machine}
    (ht : t = (runCalls (fun t op => t.perform .uffd memory op) (fun t => t.size memory) other s
      calls).1) :
    Served memory contents fill size' t ∧ Resident memory (Finset.range high) t ∧
      t.pageSize = s.pageSize ∧ t.handler.faults = s.handler.faults + UInt64.ofNat count := by
  subst ht
  obtain ⟨hsize, hmisses, hafter⟩ := hcost
  obtain ⟨hserved, hloads⟩ := loads_runCalls hs hcalls
  refine ⟨hsize ▸ hserved, hafter ▸ hloads.resident _ hresident, hloads.pageSize, ?_⟩
  rw [hloads.faults _ hresident, hmisses]

theorem afterLoop_costs (hs : Served memory contents fill size s) {high count : Nat}
    (hresident : Resident memory (Finset.range high) s) {rounds : List (List Call)}
    (hrounds : ∀ calls ∈ rounds, (∀ call ∈ calls, CallOk s.pageSize contents other call) ∧
      CallsCost s.pageSize contents other size high calls size high count) :
    (afterLoop memory other s rounds).handler.faults =
      s.handler.faults + UInt64.ofNat (rounds.length * count) := by
  induction rounds generalizing s with
  | nil => simp [afterLoop]
  | cons calls rounds ih =>
    obtain ⟨hcalls, hcost⟩ := hrounds calls List.mem_cons_self
    obtain ⟨hserved, hthere, hpageSize, hfaults⟩ := runCalls_costs hs hresident hcalls hcost rfl
    have hrest := ih hserved hthere fun later hlater => by
      rw [hpageSize]
      exact hrounds later (List.mem_cons_of_mem calls hlater)
    rw [afterLoop, hrest, hfaults, List.length_cons, Nat.succ_mul, Nat.add_comm (_ * _),
      UInt64.ofNat_add, UInt64.add_assoc]

end Loops

section Totals

variable {memory base other : Nat} {s : Machine} {contents : Nat → Option (Flat UInt8)}
  {snap : Flat UInt8}

theorem room_clearFaults (hroom : Room s memory base contents) :
    Room (clearFaults s) memory base contents where
  pageBits := hroom.pageBits
  aligned := hroom.aligned
  free := hroom.free
  sources := fun other snap hsnap =>
    (hroom.sources other snap hsnap).keep rfl rfl rfl (fun _ _ => ⟨rfl, rfl⟩) fun _ _ => rfl

/-- The machine when the loop begins. -/
theorem ready_served (hroom : Room s memory base contents) {snapshot : Option Nat}
    (hknown : ∀ other, snapshot = some other → ∃ snap, contents other = some snap) {t : Machine}
    (ht : t = (clearFaults ((s.construct memory base).setSnapshot snapshot)).add memory) :
    ∃ fill, Served memory contents fill 0 t ∧ Resident memory (Finset.range 0) t ∧
      t.pageSize = s.pageSize ∧ t.handler.faults = 0 := by
  have hprepared := room_clearFaults (Room.setSnapshot hroom snapshot)
  have hswap : clearFaults ((s.construct memory base).setSnapshot snapshot) =
      (clearFaults (s.setSnapshot snapshot)).construct memory base := rfl
  obtain ⟨hserved, hresident⟩ := added_served hprepared hknown
  rw [hswap] at ht
  subst ht
  refine ⟨_, hserved, hresident, ?_, ?_⟩
  · rw [pageSize_add, pageSize_construct]
    rfl
  · rw [faults_add]
    rfl

theorem lazyIterations_callOk (contents : Nat → Option (Flat UInt8)) (other : Nat)
    {pageSize : Nat} (hwork : pageSize ∣ workSize)
    (hsnap : pageSize ∣ snapSize) (inits : List (UInt8 × UInt8)) :
    ∀ calls ∈ lazyIterations inits, ∀ call ∈ calls, CallOk pageSize contents other call := by
  intro calls hcalls
  obtain ⟨init, -, rfl⟩ := List.mem_map.mp hcalls
  have hsnapHalf : snapSize ≤ wmemSize / 2 := by decide
  have hworkHalf : workSize ≤ wmemSize / 2 := by decide
  simp only [lazyIteration, List.forall_mem_cons, CallOk, Admissible]
  exact ⟨⟨Nat.dvd_zero _, Nat.zero_le _⟩, trivial, ⟨hsnap, hsnapHalf⟩, trivial, trivial, trivial,
    ⟨hwork, hworkHalf⟩, trivial, trivial, trivial, by simp⟩

/-- A loop whose first iteration may load more than the others. -/
theorem faults_rounds {fill : Nat → UInt8} (hs : Served memory contents fill 0 s)
    (hresident : Resident memory (Finset.range 0) s) {calls : List Call}
    {rounds : List (List Call)} {size high first count : Nat}
    (hcalls : ∀ call ∈ calls, CallOk s.pageSize contents other call)
    (hfirst : CallsCost s.pageSize contents other 0 0 calls size high first)
    (hrounds : ∀ calls ∈ rounds, (∀ call ∈ calls, CallOk s.pageSize contents other call) ∧
      CallsCost s.pageSize contents other size high calls size high count) :
    (afterLoop memory other s (calls :: rounds)).handler.faults =
      s.handler.faults + UInt64.ofNat (first + rounds.length * count) := by
  obtain ⟨hserved, hthere, hpageSize, hfaults⟩ := runCalls_costs hs hresident hcalls hfirst rfl
  rw [← hpageSize] at hrounds
  have hrest := afterLoop_costs hserved hthere hrounds
  rw [afterLoop, hrest, hfaults, UInt64.ofNat_add, UInt64.add_assoc]

/-- The snapshot is copied in: its pages stay, and those beyond it are dropped. -/
theorem uffdFaults_eager (hroom : Room s memory base contents) (hsnap : contents other = some snap)
    (hsize : snap.size = snapSize) {snapPages workPages : Nat}
    (hsnapPages : snap.size = snapPages * s.pageSize) (hwork : workSize = workPages * s.pageSize)
    (hle : snapPages ≤ workPages) (inits : List (UInt8 × UInt8)) :
    uffdFaults none memory base other s (iterations inits) =
      UInt64.ofNat (min inits.length 1 * snapPages + inits.length * (workPages - snapPages)) := by
  have hknown : ∀ found, none = some found → ∃ snap, contents found = some snap := by simp
  obtain ⟨fill, hserved, hresident, hpageSize, hfaults⟩ := ready_served hroom hknown rfl
  rw [uffdFaults]
  generalize (clearFaults ((s.construct memory base).setSnapshot none)).add memory = t at *
  have hpos := pageSize_pos t
  cases inits with
  | nil => simp [iterations, afterLoop, hfaults]
  | cons init inits =>
    rw [← hpageSize] at hwork hsnapPages
    have hok := iterations_callOk hsnap hsize (hwork ▸ Nat.dvd_mul_left _ workPages) (init :: inits)
    have hcost := iteration_cost hsnap hpos hsnapPages hwork hle
    have hrounds : ∀ calls ∈ iterations inits,
        (∀ call ∈ calls, CallOk t.pageSize contents other call) ∧
          CallsCost t.pageSize contents other workSize workPages calls workSize workPages
            (workPages - snapPages) := by
      intro calls hcalls
      refine ⟨hok calls (List.mem_cons_of_mem _ hcalls), ?_⟩
      obtain ⟨later, -, rfl⟩ := List.mem_map.mp hcalls
      have hlater := hcost workSize workPages later.1 later.2
      rw [Nat.sub_eq_zero_of_le hle, Nat.zero_add] at hlater
      exact hlater
    have htotal := faults_rounds hserved hresident (hok _ List.mem_cons_self)
      (hcost 0 0 init.1 init.2) hrounds
    have hsum : snapPages - 0 + (workPages - snapPages) +
        (iterations inits).length * (workPages - snapPages) =
        min (inits.length + 1) 1 * snapPages + (inits.length + 1) * (workPages - snapPages) := by
      rw [iterations, List.length_map, Nat.min_eq_right (Nat.le_add_left 1 _), Nat.one_mul,
        Nat.add_one_mul]
      omega
    rw [hfaults, UInt64.zero_add, hsum] at htotal
    exact htotal

/-- The snapshot is left to the handler: everything is dropped and loaded again. -/
theorem uffdFaults_lazy (hroom : Room s memory base contents) (hsnap : contents other = some snap)
    {snapPages workPages : Nat} (hsnapPages : snapSize = snapPages * s.pageSize)
    (hwork : workSize = workPages * s.pageSize) (hle : snapPages ≤ workPages)
    (inits : List (UInt8 × UInt8)) :
    uffdFaults (some other) memory base other s (lazyIterations inits) =
      UInt64.ofNat (inits.length * workPages) := by
  have hknown : ∀ found, some other = some found → ∃ snap, contents found = some snap := by
    intro found hfound
    obtain rfl : other = found := Option.some.inj hfound
    exact ⟨snap, hsnap⟩
  obtain ⟨fill, hserved, hresident, hpageSize, hfaults⟩ := ready_served hroom hknown rfl
  rw [uffdFaults]
  generalize (clearFaults ((s.construct memory base).setSnapshot (some other))).add memory = t at *
  have hpos := pageSize_pos t
  cases inits with
  | nil => simp [lazyIterations, afterLoop, hfaults]
  | cons init inits =>
    rw [← hpageSize] at hwork hsnapPages
    have hok := lazyIterations_callOk contents other
      (hwork ▸ Nat.dvd_mul_left _ workPages) (hsnapPages ▸ Nat.dvd_mul_left _ snapPages)
      (init :: inits)
    have hcost := lazyIteration_cost contents other hpos hsnapPages hwork hle
    have hrounds : ∀ calls ∈ lazyIterations inits,
        (∀ call ∈ calls, CallOk t.pageSize contents other call) ∧
          CallsCost t.pageSize contents other workSize workPages calls workSize workPages workPages := by
      intro calls hcalls
      refine ⟨hok calls (List.mem_cons_of_mem _ hcalls), ?_⟩
      obtain ⟨later, -, rfl⟩ := List.mem_map.mp hcalls
      exact hcost workSize workPages later.1 later.2
    have htotal := faults_rounds hserved hresident (hok _ List.mem_cons_self)
      (hcost 0 0 init.1 init.2) hrounds
    have hsum : workPages + (lazyIterations inits).length * workPages =
        (inits.length + 1) * workPages := by
      rw [lazyIterations, List.length_map, Nat.add_one_mul, Nat.add_comm]
    rw [hfaults, UInt64.zero_add, hsum] at htotal
    exact htotal

/-- With the snapshot copied in, its pages are loaded once and those beyond it in
every iteration; with the snapshot left to the handler, all pages are loaded in
every iteration. -/
theorem uffdFaults_total (hroom : Room s memory base contents)
    (hsnap : contents other = some snap) (hsize : snap.size = snapSize)
    (hpages : s.pageSize ∣ workSize) (inits : List (UInt8 × UInt8)) :
    uffdFaults none memory base other s (iterations inits) =
        UInt64.ofNat (min inits.length 1 * (snapSize / s.pageSize) +
          inits.length * ((workSize - snapSize) / s.pageSize)) ∧
      uffdFaults (some other) memory base other s (lazyIterations inits) =
        UInt64.ofNat (inits.length * (workSize / s.pageSize)) := by
  have hpos := pageSize_pos s
  have hsource := hroom.sources other snap hsnap
  obtain ⟨workPages, hwork⟩ := hpages
  obtain ⟨snapPages, hsnapPages⟩ := hsource.sizeAligned
  rw [pageSize_construct] at hsnapPages
  rw [Nat.mul_comm] at hwork hsnapPages
  have hle : snapPages ≤ workPages := by
    have hlt : snapSize ≤ workSize := by decide
    rw [← hsize, hsnapPages, hwork] at hlt
    exact Nat.le_of_mul_le_mul_right hlt hpos
  have hgrown : (workSize - snapSize) / s.pageSize = workPages - snapPages := by
    rw [← hsize, hsnapPages, hwork, ← Nat.sub_mul, Nat.mul_div_cancel _ hpos]
  rw [uffdFaults_eager hroom hsnap hsize hsnapPages hwork hle,
    uffdFaults_lazy hroom hsnap (hsize ▸ hsnapPages) hwork hle, hgrown, ← hsize, hsnapPages, hwork,
    Nat.mul_div_cancel _ hpos, Nat.mul_div_cancel _ hpos]
  exact ⟨rfl, rfl⟩

/-- With pages of 4 KiB and three iterations: 1792 faults against 3840. -/
theorem uffdFaults_total_hosting :
    let snap : Flat UInt8 := ⟨snapSize, fun _ => 0⟩
    let inits : List (UInt8 × UInt8) := [(1, 2), (3, 4), (5, 6)]
    uffdFaults none 0 memoryBase 1 (hosting snap none) (iterations inits) = 1792 ∧
      uffdFaults (some 1) 0 memoryBase 1 (hosting snap none) (lazyIterations inits) = 3840 := by
  intro snap inits
  have hroom := hosting_room snap none (by decide) (by decide)
  have hpages : (hosting snap none).pageSize ∣ workSize := by
    rw [pageSize_hosting]
    decide
  obtain ⟨heager, hlazy⟩ := uffdFaults_total hroom (show hosted snap 1 = some snap from rfl) rfl
    hpages inits
  have heagerCount : min inits.length 1 * (snapSize / 4096) +
      inits.length * ((workSize - snapSize) / 4096) = 1792 := by decide
  have hlazyCount : inits.length * (workSize / 4096) = 3840 := by decide
  rw [pageSize_hosting] at heager hlazy
  rw [heagerCount] at heager
  rw [hlazyCount] at hlazy
  exact ⟨heager, hlazy⟩

end Totals

end NdpOffload.Faultspeed.Faults
