import NdpOffload.Faultspeed.Strategies

/-! Restoring a snapshot page by page.  With a snapshot in force the handler fills
missing pages, but it compares an absolute address with the size of the snapshot
and always copies its first page. -/
namespace NdpOffload.Faultspeed.LazyRestore

open Library.Paging Memory Machine Refinement Strategies

/-! ### Changing the snapshot -/

section Snapshot

variable {memory other : Nat} {contents : Nat → Option (Flat UInt8)} {fill : Nat → UInt8}
  {flat snap : Flat UInt8} {s : Machine}

theorem setSnapshot_watched (hs : Watched memory contents fill s)
    {snapshot : Option Nat}
    (hknown : ∀ other, snapshot = some other → ∃ snap, contents other = some snap) :
    Watched memory contents (handlerFill contents memory (s.setSnapshot snapshot))
      (s.setSnapshot snapshot) where
  tables := hs.tables
  found := hs.found
  snapshot := hknown
  fills := fun _ => rfl

/-- The pages that are there stay; what the others would get changes. -/
theorem setSnapshot_stores (hs : Stores memory contents fill flat s) (snapshot : Option Nat)
    (fill' : Nat → UInt8) :
    ∃ flat', flat'.size = flat.size ∧
      Stores memory contents fill' flat' (s.setSnapshot snapshot) := by
  refine ⟨⟨flat.size, fun offset =>
    if offset < flat.size then backed s.pageSize (s.base memory) fill' s.space offset
    else fill' offset⟩, rfl, ?_⟩
  refine ⟨hs.pageBits, hs.aligned, hs.size, hs.size_le, ⟨hs.backs.beyond, ?_, ?_⟩, ?_⟩
  · intro offset hoffset
    simp only [if_pos hoffset]
    rfl
  · intro offset hoffset
    simp only [if_neg (Nat.not_lt.mpr hoffset)]
  · intro other snap hsnap
    exact Source.keep (hs.sources other snap hsnap) rfl rfl rfl (fun _ _ => ⟨rfl, rfl⟩)
      fun _ _ => rfl

end Snapshot

/-! ### Accesses within the size -/

/-- A read or a write below a bound. -/
def IsAccess (bound : Nat) : Op → Prop
  | .read offset => offset < bound
  | .write offset _ => offset < bound
  | .resize _ => False
  | .restoreFrom _ => False

section Accesses

variable {memory newSize : Nat} {contents : Nat → Option (Flat UInt8)} {fill : Nat → UInt8}
  {flat : Flat UInt8} {s : Machine}

theorem perform_access (hwatched : Watched memory contents fill s)
    (hs : Stores memory contents fill flat s) {op : Op} (hop : IsAccess flat.size op) :
    ∃ t, s.perform .uffd memory op = (t, (flatPerform contents fill flat op).2) ∧
      Stores memory contents fill (flatPerform contents fill flat op).1 t ∧
      Watched memory contents fill t ∧ SameTables s t ∧
      (flatPerform contents fill flat op).1.size = flat.size := by
  cases op with
  | read offset =>
    change offset < flat.size at hop
    obtain ⟨t, hread, hstores, ht, hsame⟩ :=
      (uffdMode memory contents fill).read_inside hwatched hs hop
    refine ⟨t, ?_, hstores, ht, hsame, rfl⟩
    rw [Machine.perform, hread, flatPerform, if_pos hop]
  | write offset value =>
    change offset < flat.size at hop
    obtain ⟨t, hwrite, hstores, ht, hsame⟩ :=
      (uffdMode memory contents fill).write_inside hwatched hs hop value
    rw [Machine.perform, hwrite, flatPerform, if_pos hop]
    exact ⟨t, rfl, hstores, ht, hsame, rfl⟩
  | resize => cases hop
  | restoreFrom => cases hop

theorem trace_accesses (hwatched : Watched memory contents fill s)
    (hs : Stores memory contents fill flat s) {ops : List Op}
    (hops : ∀ op ∈ ops, IsAccess flat.size op) :
    s.trace .uffd memory ops = flatTrace contents fill flat ops := by
  induction ops generalizing s flat with
  | nil => rfl
  | cons op ops ih =>
    obtain ⟨t, hperform, hstores, ht, -, hsize⟩ :=
      perform_access hwatched hs (hops op List.mem_cons_self)
    rw [Machine.trace, flatTrace, hperform, ih ht hstores]
    intro next hnext
    rw [hsize]
    exact hops next (List.mem_cons_of_mem op hnext)

/-- Accesses, then one resize to a larger size, then further accesses. -/
theorem trace_grow (hwatched : Watched memory contents fill s)
    (hs : Stores memory contents fill flat s) (haligned : s.pageSize ∣ flat.size)
    (hle : flat.size ≤ newSize) (hhalf : newSize ≤ wmemSize / 2) {early late : List Op}
    (hearly : ∀ op ∈ early, IsAccess flat.size op) (hlate : ∀ op ∈ late, IsAccess newSize op) :
    s.trace .uffd memory (early ++ .resize newSize :: late) =
      flatTrace contents fill flat (early ++ .resize newSize :: late) := by
  induction early generalizing s flat with
  | nil =>
    have hstores := resizeWavmUffd_stores hs haligned (fun hlt => absurd hlt (Nat.not_lt.mpr hle))
      hhalf
    simp only [List.nil_append, Machine.trace, flatTrace]
    congr 1
    exact trace_accesses hwatched.resize hstores hlate
  | cons op early ih =>
    obtain ⟨t, hperform, hstores, ht, hsame, hsize⟩ :=
      perform_access hwatched hs (hearly op List.mem_cons_self)
    simp only [List.cons_append, Machine.trace, flatTrace, hperform]
    congr 1
    apply ih ht hstores
    · rw [hsame.pageSize_eq, hsize]
      exact haligned
    · omega
    · intro next hnext
      rw [hsize]
      exact hearly next (List.mem_cons_of_mem op hnext)

/-- What fills missing pages matters only outside the size. -/
theorem flatTrace_fill {fill' : Nat → UInt8} (hfill : ∀ offset, flat.size ≤ offset →
      fill offset = fill' offset) (hle : flat.size ≤ newSize) {early late : List Op}
    (hearly : ∀ op ∈ early, IsAccess flat.size op) (hlate : ∀ op ∈ late, IsAccess newSize op) :
    flatTrace contents fill flat (early ++ .resize newSize :: late) =
      flatTrace contents fill' flat (early ++ .resize newSize :: late) := by
  have hperform : ∀ (flat : Flat UInt8) bound op, IsAccess bound op →
      flatPerform contents fill flat op = flatPerform contents fill' flat op := by
    intro flat bound op hop
    cases op <;> first | rfl | cases hop
  have hkeeps : ∀ (flat : Flat UInt8) bound op, IsAccess bound op →
      (flatPerform contents fill' flat op).1.size = flat.size := by
    intro flat bound op hop
    cases op with
    | write offset value =>
      rw [flatPerform]
      split <;> rfl
    | read offset => rfl
    | resize => cases hop
    | restoreFrom => cases hop
  have haccesses : ∀ ops, (∀ op ∈ ops, IsAccess newSize op) → ∀ flat,
      flatTrace contents fill flat ops = flatTrace contents fill' flat ops := by
    intro ops hops
    induction ops with
    | nil => exact fun _ => rfl
    | cons op ops ih =>
      intro flat
      rw [flatTrace, flatTrace, hperform flat newSize op (hops op List.mem_cons_self),
        ih fun next hnext => hops next (List.mem_cons_of_mem op hnext)]
  induction early generalizing flat with
  | nil =>
    have hresize : flat.resize fill newSize = flat.resize fill' newSize := by
      simp only [Flat.resize, Flat.mk.injEq, true_and]
      funext offset
      split
      · rfl
      · exact hfill offset (by omega)
    simp only [List.nil_append, flatTrace, flatPerform, hresize]
    rw [haccesses late hlate]
  | cons op early ih =>
    have hop := hearly op List.mem_cons_self
    have hsize := hkeeps flat _ op hop
    simp only [List.cons_append, flatTrace, hperform flat _ op hop]
    congr 1
    apply ih
    · intro offset hoffset
      exact hfill offset (by omega)
    · omega
    · intro next hnext
      rw [hsize]
      exact hearly next (List.mem_cons_of_mem op hnext)

end Accesses

/-! ### Lazy and eager restore -/

/-- The memory just after a snapshot was restored. -/
def restored (snap : Flat UInt8) : Flat UInt8 :=
  ⟨snap.size, fun offset => if offset < snap.size then snap.data offset else 0⟩

/-- The two calls that empty a memory and open it for the snapshot. -/
def lazily (s : Machine) (memory size : Nat) : Machine :=
  (s.resizeWavmUffd memory 0).resizeWavmUffd memory size

/-- Reads return the bytes of the snapshot until these are overwritten, and after
a resize to `newSize` the new bytes are zero. -/
def LazyRestores (contents : Nat → Option (Flat UInt8)) (s : Machine) (memory : Nat)
    (snap : Flat UInt8) (newSize : Nat) : Prop :=
  ∀ early late : List Op, (∀ op ∈ early, IsAccess snap.size op) →
    (∀ op ∈ late, IsAccess newSize op) →
    (lazily s memory snap.size).trace .uffd memory (early ++ .resize newSize :: late) =
      flatTrace contents (fun _ => 0) (restored snap) (early ++ .resize newSize :: late)

section Lazily

variable {memory other newSize : Nat} {contents : Nat → Option (Flat UInt8)} {fill : Nat → UInt8}
  {flat snap : Flat UInt8} {s : Machine}

theorem lazily_watched (hwatched : Watched memory contents fill s) (size : Nat) :
    Watched memory contents fill (lazily s memory size) := hwatched.resize.resize

theorem pageSize_lazily (s : Machine) (memory size : Nat) :
    (lazily s memory size).pageSize = s.pageSize :=
  (pageSize_resize .uffd memory size _).trans (pageSize_resize .uffd memory 0 s)

/-- Nothing of the old contents is left: all bytes are what the handler fills in. -/
theorem lazily_stores (hs : Stores memory contents fill flat s) (haligned : s.pageSize ∣ flat.size)
    {size : Nat} (hsize : s.pageSize ∣ size) (hle : size ≤ wmemSize / 2) :
    Stores memory contents fill ⟨size, fill⟩ (lazily s memory size) := by
  have hpageSize := pageSize_resize .uffd memory 0 s
  have hempty := resizeWavmUffd_stores hs haligned (fun _ => Nat.dvd_zero _) (Nat.zero_le _)
  have hfull := resizeWavmUffd_stores hempty (Nat.dvd_zero _) (fun _ => hpageSize ▸ hsize) hle
  have hflat : (flat.resize fill 0).resize fill size = ⟨size, fill⟩ := by
    simp [Flat.resize]
  rw [hflat] at hfull
  exact hfull

/-- The first access of an offset shows what the handler put there. -/
theorem lazily_trace (hwatched : Watched memory contents fill s)
    (hs : Stores memory contents fill flat s) (haligned : s.pageSize ∣ flat.size)
    (hsize : s.pageSize ∣ snap.size) (hlarger : snap.size < newSize)
    (hhalf : newSize ≤ wmemSize / 2) {early late : List Op}
    (hearly : ∀ op ∈ early, IsAccess snap.size op) (hlate : ∀ op ∈ late, IsAccess newSize op) :
    (lazily s memory snap.size).trace .uffd memory (early ++ .resize newSize :: late) =
      flatTrace contents fill ⟨snap.size, fill⟩ (early ++ .resize newSize :: late) := by
  apply trace_grow (lazily_watched hwatched snap.size)
    (lazily_stores hs haligned hsize (by omega)) _ (le_of_lt hlarger) hhalf hearly hlate
  rw [pageSize_lazily]
  exact hsize

/-- The upper half of the mapping stays protected. -/
theorem read_half (hwatched : Watched memory contents fill s)
    (haligned : s.pageSize ∣ s.base memory) (hbits : s.pageBits ≤ 32) :
    s.read memory (wmemSize / 2) = (s, .segv) := by
  have hhalf : wmemSize / 2 = 2 ^ 32 := by decide
  have hdvd : s.pageSize ∣ wmemSize / 2 := hhalf ▸ Nat.pow_dvd_pow 2 hbits
  have hbegin := page_begin haligned (wmemSize / 2)
  rw [Nat.div_mul_cancel hdvd] at hbegin
  have hpos : wmemSize / 2 < wmemSize := by decide
  have htables := (hwatched.tables (s.page (s.base memory + wmemSize / 2))
    ⟨by rw [page, hbegin]; omega, by rw [page, hbegin]; omega⟩).1
  rw [page, hbegin] at htables
  have hdenied : s.space.accessible (s.page (s.base memory + wmemSize / 2)) = false := by
    rw [page, htables]
    simp
  rw [Machine.read, access_denied hdenied]

/-- What the handler fills in is the snapshot. -/
def FillsSnapshot (pageSize base : Nat) (snap : Flat UInt8) : Prop :=
  ∀ offset < snap.size, snap.data offset =
    if base + offset / pageSize * pageSize < snap.size then snap.data (offset % pageSize) else 0

theorem handlerFill_some (hsnapshot : s.handler.snapshot = some other)
    (hsnap : contents other = some snap) (offset : Nat) :
    handlerFill contents memory s offset =
      if s.base memory + offset / s.pageSize * s.pageSize < snap.size then
        snap.data (offset % s.pageSize)
      else 0 := by
  rw [handlerFill, hsnapshot, Option.bind_some, hsnap]

/-- Pages beyond the snapshot are zero pages. -/
theorem handlerFill_beyond (hsnapshot : s.handler.snapshot = some other)
    (hsnap : contents other = some snap) (haligned : s.pageSize ∣ snap.size) {offset : Nat}
    (hoffset : snap.size ≤ offset) : handlerFill contents memory s offset = 0 := by
  rw [handlerFill_some hsnapshot hsnap, if_neg]
  have hround : ¬ offset / s.pageSize * s.pageSize < snap.size := by
    rw [round_lt_iff haligned (pageSize_pos s)]
    omega
  omega

theorem lazyRestores_iff_of_watched
    (hwatched : Watched memory contents (handlerFill contents memory s) s)
    (hs : Stores memory contents (handlerFill contents memory s) flat s)
    (haligned : s.pageSize ∣ flat.size) (hsnapshot : s.handler.snapshot = some other)
    (hsnap : contents other = some snap) (hlarger : snap.size < newSize) :
    LazyRestores contents s memory snap newSize ↔
      newSize ≤ wmemSize / 2 ∧ FillsSnapshot s.pageSize (s.base memory) snap := by
  have hsize := (hs.sources other snap hsnap).sizeAligned
  constructor
  · intro hlazy
    have hhalf : newSize ≤ wmemSize / 2 := by
      by_contra hlarge
      have hlate : ∀ op ∈ [Op.read (wmemSize / 2)], IsAccess newSize op := by
        intro op hop
        rw [List.mem_singleton.mp hop]
        exact Nat.lt_of_not_le hlarge
      have htrace := hlazy [] [.read (wmemSize / 2)] (by simp) hlate
      have hbase : ((lazily s memory snap.size).resizeWavmUffd memory newSize).base memory =
          s.base memory :=
        (base_resize .uffd memory newSize _).trans
          ((base_resize .uffd memory snap.size _).trans (base_resize .uffd memory 0 s))
      have hpageSize : ((lazily s memory snap.size).resizeWavmUffd memory newSize).pageSize =
          s.pageSize :=
        (pageSize_resize .uffd memory newSize _).trans (pageSize_lazily s memory snap.size)
      have hbits : ((lazily s memory snap.size).resizeWavmUffd memory newSize).pageBits =
          s.pageBits := Nat.pow_right_injective (le_refl 2) hpageSize
      have hread := read_half (lazily_watched hwatched snap.size).resize
        (by rw [hbase, hpageSize]; exact hs.aligned) (by rw [hbits]; exact hs.pageBits)
      simp only [List.nil_append, Machine.trace, Machine.perform, Machine.resize, hread, flatTrace,
        flatPerform, Flat.resize, if_pos (Nat.lt_of_not_le hlarge)] at htrace
      cases htrace
    refine ⟨hhalf, ?_⟩
    intro offset hoffset
    have hearly : ∀ op ∈ [Op.read offset], IsAccess snap.size op := by
      intro op hop
      rw [List.mem_singleton.mp hop]
      exact hoffset
    have htrace := hlazy [.read offset] [] hearly (by simp)
    rw [lazily_trace hwatched hs haligned hsize hlarger hhalf hearly (by simp)] at htrace
    simp only [List.singleton_append, flatTrace, flatPerform, restored, if_pos hoffset,
      List.cons.injEq, Observation.byte.injEq] at htrace
    rw [← htrace.1, handlerFill_some hsnapshot hsnap]
  · rintro ⟨hhalf, hfills⟩ early late hearly hlate
    rw [lazily_trace hwatched hs haligned hsize hlarger hhalf hearly hlate]
    have hsame : (⟨snap.size, handlerFill contents memory s⟩ : Flat UInt8) = restored snap := by
      simp only [restored, Flat.mk.injEq, true_and]
      funext offset
      by_cases hin : offset < snap.size
      · rw [if_pos hin, hfills offset hin, handlerFill_some hsnapshot hsnap]
      · rw [if_neg hin, handlerFill_beyond hsnapshot hsnap hsize (Nat.le_of_not_lt hin)]
    rw [hsame]
    have hbeyond : ∀ offset, (restored snap).size ≤ offset →
        handlerFill contents memory s offset = 0 :=
      fun offset hoffset => handlerFill_beyond hsnapshot hsnap hsize hoffset
    exact flatTrace_fill hbeyond (le_of_lt hlarger) hearly hlate

end Lazily

/-! ### A registered memory -/

/-- A memory that was registered and then used in any way. -/
def registered (s : Machine) (memory base : Nat) (prior : List Op) : Machine :=
  ((s.construct memory base).add memory).after .uffd memory prior

section Registered

variable {memory base other newSize : Nat} {contents : Nat → Option (Flat UInt8)}
  {snap : Flat UInt8} {s : Machine} {prior : List Op}

theorem registered_stores (hroom : Room s memory base contents)
    (hknown : ∀ other, s.handler.snapshot = some other → ∃ snap, contents other = some snap)
    (hprior : ∀ op ∈ prior, Admissible s.pageSize contents op) :
    ∃ fill flat, Watched memory contents fill (registered s memory base prior) ∧
      Stores memory contents fill flat (registered s memory base prior) ∧
      (registered s memory base prior).pageSize = s.pageSize ∧
      (registered s memory base prior).base memory = base ∧ s.pageSize ∣ flat.size := by
  have hpageSize : ((s.construct memory base).add memory).pageSize = s.pageSize := by
    rw [pageSize_add, pageSize_construct]
  have hbase : ((s.construct memory base).add memory).base memory = base := by
    rw [base_add, base_construct]
  obtain ⟨flat, hstores, hwatched, hsame, hsameBase, haligned⟩ :=
    (uffdMode memory contents _).after (add_watched hroom hknown) (add_stores hroom _)
      (Nat.dvd_zero _) (by rw [hpageSize]; exact hprior)
  rw [hpageSize] at hsame haligned
  rw [hbase] at hsameBase
  exact ⟨_, flat, hwatched, hstores, hsame, hsameBase, haligned⟩

/-- With `snapshot = nullptr`, `restoreFromUffd` does what lazy restore is for. -/
theorem eager_restores (hroom : Room s memory base contents)
    (hknown : ∀ other, s.handler.snapshot = some other → ∃ snap, contents other = some snap)
    (hprior : ∀ op ∈ prior, Admissible s.pageSize contents op)
    (hsnap : contents other = some snap) (hlarger : snap.size < newSize)
    (hhalf : newSize ≤ wmemSize / 2) {early late : List Op}
    (hearly : ∀ op ∈ early, IsAccess snap.size op) (hlate : ∀ op ∈ late, IsAccess newSize op) :
    ((((registered s memory base prior).setSnapshot none).restoreFromUffd memory other).1).trace
        .uffd memory (early ++ .resize newSize :: late) =
      flatTrace contents (fun _ => 0) (restored snap) (early ++ .resize newSize :: late) := by
  obtain ⟨fill, flat, hwatched, hstores, hpageSize, -, haligned⟩ :=
    registered_stores hroom hknown hprior
  have hzero : handlerFill contents memory ((registered s memory base prior).setSnapshot none) =
      fun _ => 0 := rfl
  have hempty := setSnapshot_watched hwatched
    (show ∀ other, none = some other → ∃ snap, contents other = some snap by simp)
  rw [hzero] at hempty
  obtain ⟨flat', hsize', hstores'⟩ := setSnapshot_stores hstores none fun _ => 0
  have hpageSize' : ((registered s memory base prior).setSnapshot none).pageSize = s.pageSize :=
    hpageSize
  have hop : Admissible ((registered s memory base prior).setSnapshot none).pageSize contents
      (.restoreFrom other) := ⟨snap, hsnap, by omega⟩
  obtain ⟨t, hrestored, hafter, hwatched', hsame, -, hsize⟩ :=
    (uffdMode memory contents fun _ => 0).perform hempty hstores'
      (by rw [hpageSize', hsize']; exact haligned) hop
  simp only [flatPerform, hsnap] at hrestored hafter hsize
  have hrun : (((registered s memory base prior).setSnapshot none).restoreFromUffd memory other).1 =
      t := congrArg Prod.fst hrestored
  have hafter : Stores memory contents (fun _ => 0) (restored snap) t := hafter
  rw [hrun]
  apply trace_grow hwatched' hafter _ (le_of_lt hlarger) hhalf hearly hlate
  rw [hsame]
  exact hsize

/-- The state in which a snapshot has just been put in force. -/
theorem setSnapshot_registered (hroom : Room s memory base contents)
    (hknown : ∀ other, s.handler.snapshot = some other → ∃ snap, contents other = some snap)
    (hprior : ∀ op ∈ prior, Admissible s.pageSize contents op)
    (hsnap : contents other = some snap) {t : Machine}
    (ht : t = (registered s memory base prior).setSnapshot (some other)) :
    ∃ flat, Watched memory contents (handlerFill contents memory t) t ∧
      Stores memory contents (handlerFill contents memory t) flat t ∧
      t.pageSize = s.pageSize ∧ t.base memory = base ∧ s.pageSize ∣ flat.size := by
  subst ht
  obtain ⟨fill, flat, hwatched, hstores, hpageSize, hbase, haligned⟩ :=
    registered_stores hroom hknown hprior
  have hnow : ∀ now, some other = some now → ∃ snap, contents now = some snap := by
    rintro _ ⟨⟩
    exact ⟨snap, hsnap⟩
  obtain ⟨flat', hsize', hstores'⟩ := setSnapshot_stores hstores (some other) _
  refine ⟨flat', setSnapshot_watched hwatched hnow, hstores', hpageSize, hbase, ?_⟩
  rw [hsize']
  exact haligned

/-- Lazy restore shows the snapshot exactly when the handler, which compares absolute
addresses with the size of the snapshot and copies its first page only, happens to
put the right bytes into every page. -/
theorem lazyRestores_iff (hroom : Room s memory base contents)
    (hknown : ∀ other, s.handler.snapshot = some other → ∃ snap, contents other = some snap)
    (hprior : ∀ op ∈ prior, Admissible s.pageSize contents op)
    (hsnap : contents other = some snap) (hlarger : snap.size < newSize) :
    LazyRestores contents ((registered s memory base prior).setSnapshot (some other)) memory snap
        newSize ↔
      newSize ≤ wmemSize / 2 ∧ ∀ offset < snap.size, snap.data offset =
        if base + offset / s.pageSize * s.pageSize < snap.size then
          snap.data (offset % s.pageSize)
        else 0 := by
  obtain ⟨flat, hwatched, hstores, hpageSize, hbase, haligned⟩ :=
    setSnapshot_registered hroom hknown hprior hsnap rfl
  have hiff := lazyRestores_iff_of_watched hwatched hstores (hpageSize ▸ haligned) rfl hsnap hlarger
  rw [hpageSize, hbase] at hiff
  exact hiff

end Registered

/-- A snapshot of zeros is restored. -/
theorem lazyRestores_iff_zeros :
    LazyRestores (hosted ⟨4194304, fun _ => 0⟩)
      ((registered (hosting ⟨4194304, fun _ => 0⟩ none) 0 memoryBase [.resize 8192, .write 3 1]).setSnapshot
        (some 1)) 0 ⟨4194304, fun _ => 0⟩ 5242880 := by
  have hroom := hosting_room ⟨4194304, fun _ => 0⟩ none (by decide) (by decide)
  have hprior : ∀ op ∈ [Op.resize 8192, .write 3 1],
      Admissible 4096 (hosted ⟨4194304, fun _ => 0⟩) op := by
    simp only [List.forall_mem_cons, Admissible]
    exact ⟨by decide, by decide, by simp⟩
  exact (lazyRestores_iff hroom (by simp [hosting]) hprior rfl (by decide)).mpr
    ⟨by decide, by simp⟩

/-- The snapshot of the benchmark, of 4 MiB, with a byte that is not zero at offset 1:
the memory shows zero there. -/
theorem lazy_restore_loses_snapshot :
    ¬ LazyRestores (hosted ⟨4194304, UInt8.ofNat⟩)
      ((registered (hosting ⟨4194304, UInt8.ofNat⟩ none) 0 memoryBase []).setSnapshot (some 1)) 0
        ⟨4194304, UInt8.ofNat⟩ 5242880 := by
  intro hlazy
  have hroom := hosting_room ⟨4194304, UInt8.ofNat⟩ none (by decide) (by decide)
  have hsnap : hosted ⟨4194304, UInt8.ofNat⟩ 1 = some ⟨4194304, UInt8.ofNat⟩ := rfl
  have hprior : ∀ op ∈ ([] : List Op), Admissible 4096 (hosted ⟨4194304, UInt8.ofNat⟩) op := by
    simp
  obtain ⟨flat, hwatched, hstores, hpageSize, hbase, haligned⟩ :=
    setSnapshot_registered hroom (by simp [hosting]) hprior hsnap rfl
  have hfills := ((lazyRestores_iff_of_watched hwatched hstores (hpageSize ▸ haligned) rfl hsnap
    (by decide)).mp hlazy).2
  rw [hpageSize, hbase, pageSize_hosting] at hfills
  have hbyte := hfills 1 (by decide)
  revert hbyte
  decide

end NdpOffload.Faultspeed.LazyRestore
