import Mathlib.Algebra.BigOperators.Group.Finset.Basic
import Mathlib.Algebra.Order.BigOperators.Group.Finset
import NdpOffload.NearMap.Analyse

/-! The counting half of `analyse_file`: one row per phase, with the pages it
read and wrote, the writes that no later phase reads and the reads of pages that
no earlier phase touched. -/
namespace NdpOffload.NearMap.Figures

open Library.Text Analyse

def isRead : AccessType → Bool
  | .read => true
  | .write => false
  | .readWrite => true

def isWrite : AccessType → Bool
  | .read => false
  | .write => true
  | .readWrite => true

abbrev PageAccess := Sigma fun _ : UInt64 => AccessType

structure Counts where
  readPages : UInt64 := 0
  writtenPages : UInt64 := 0
  deadWrites : UInt64 := 0
  newReads : UInt64 := 0

/-- No phase of the list has an entry for the page. -/
def untouched (phases : List TracePhase) (pid : UInt64) : Bool :=
  phases.all fun p => (p.accesses.lookup pid).isNone

def unread (phases : List TracePhase) (pid : UInt64) : Bool :=
  phases.all fun p => ((p.accesses.lookup pid).map fun accessty => !isRead accessty).getD true

def countRead (earlier : List TracePhase) (counts : Counts) (access : PageAccess) : Counts :=
  if isRead access.2 then
    { counts with
      readPages := counts.readPages + 1
      newReads := if untouched earlier access.1 then counts.newReads + 1 else counts.newReads }
  else counts

def countWrite (later : List TracePhase) (counts : Counts) (access : PageAccess) : Counts :=
  if isWrite access.2 then
    { counts with
      writtenPages := counts.writtenPages + 1
      deadWrites := if unread later access.1 then counts.deadWrites + 1 else counts.deadWrites }
  else counts

/-- The inner loop over `phase.accesses.iter()`, in the order of `iter`. -/
def countAccesses (earlier later : List TracePhase) (iter : List PageAccess) : Counts :=
  iter.foldl (fun counts access => countWrite later (countRead earlier counts access) access) {}

structure Row where
  path : Chars
  name : Chars
  pageSize : UInt64
  readBytes : UInt64
  writtenBytes : UInt64
  deadBytes : UInt64
  newBytes : UInt64
  ioBytes : UInt64
  instructions : UInt64
  deriving DecidableEq

def phaseRow (path : Chars) (phases : List TracePhase) (iter : List PageAccess) (i : Nat)
    (phase : TracePhase) : Row :=
  let counts := countAccesses (phases.take i) (phases.drop (i + 1)) iter
  { path := path
    name := phase.name
    pageSize := phase.pageSize
    readBytes := counts.readPages * phase.pageSize
    writtenBytes := counts.writtenPages * phase.pageSize
    deadBytes := counts.deadWrites * phase.pageSize
    newBytes := counts.newReads * phase.pageSize
    ioBytes := phase.ioBytes
    instructions := phase.instructions }

/-- `iter i` is the order in which the hash map of phase `i` is visited. -/
def rows (path : Chars) (phases : List TracePhase) (iter : Nat → List PageAccess) : List Row :=
  phases.mapIdx fun i phase => phaseRow path phases (iter i) i phase

def Row.render (row : Row) : Chars :=
  joinWith ',' [row.path, row.name, decimal row.pageSize.toNat, decimal row.readBytes.toNat,
    decimal row.writtenBytes.toNat, decimal row.deadBytes.toNat, decimal row.newBytes.toNat,
    decimal row.ioBytes.toNat, decimal row.instructions.toNat]

/-- What `analyse_file` appends to `out` for a file with this text. -/
def analyseText (path text : Chars) (iter : Nat → List PageAccess) : Option Chars :=
  (analyseFile text).map fun st => unlines ((rows path st.phases iter).map Row.render)

/-! ### What the figures mean -/

def accessIn (phases : List TracePhase) (i : Nat) (page : UInt64) : Option AccessType :=
  phases[i]?.bind fun phase => phase.accesses.lookup page

def Reads (phases : List TracePhase) (i : Nat) (page : UInt64) : Prop :=
  (accessIn phases i page).any isRead = true

def Writes (phases : List TracePhase) (i : Nat) (page : UInt64) : Prop :=
  (accessIn phases i page).any isWrite = true

/-- Written here and read in no later phase. -/
def DeadWrite (phases : List TracePhase) (i : Nat) (page : UInt64) : Prop :=
  Writes phases i page ∧ ∀ j < phases.length, i < j → ¬ Reads phases j page

/-- Read here and not accessed in any way in an earlier phase. -/
def NewRead (phases : List TracePhase) (i : Nat) (page : UInt64) : Prop :=
  Reads phases i page ∧ ∀ j < i, accessIn phases j page = none

instance (phases : List TracePhase) (i : Nat) : DecidablePred (Reads phases i) :=
  fun _ => inferInstanceAs (Decidable (_ = true))

instance (phases : List TracePhase) (i : Nat) : DecidablePred (Writes phases i) :=
  fun _ => inferInstanceAs (Decidable (_ = true))

instance (phases : List TracePhase) (i : Nat) : DecidablePred (DeadWrite phases i) :=
  fun _ => inferInstanceAs (Decidable (_ ∧ _))

instance (phases : List TracePhase) (i : Nat) : DecidablePred (NewRead phases i) :=
  fun _ => inferInstanceAs (Decidable (_ ∧ _))

/-- The distinct pages of a trace. -/
def pages (phases : List TracePhase) : Finset UInt64 :=
  (phases.flatMap fun phase => phase.accesses.keys).toFinset

def readPages (phases : List TracePhase) (i : Nat) : Finset UInt64 :=
  (pages phases).filter (Reads phases i)

def writtenPages (phases : List TracePhase) (i : Nat) : Finset UInt64 :=
  (pages phases).filter (Writes phases i)

def deadPages (phases : List TracePhase) (i : Nat) : Finset UInt64 :=
  (pages phases).filter (DeadWrite phases i)

def newPages (phases : List TracePhase) (i : Nat) : Finset UInt64 :=
  (pages phases).filter (NewRead phases i)

/-! ### The counting loop -/

theorem foldl_count (earlier later : List TracePhase) (iter : List PageAccess) (acc : Counts) :
    iter.foldl (fun counts access => countWrite later (countRead earlier counts access) access)
        acc =
      { readPages := acc.readPages + UInt64.ofNat (iter.countP fun a => isRead a.2)
        writtenPages := acc.writtenPages + UInt64.ofNat (iter.countP fun a => isWrite a.2)
        deadWrites := acc.deadWrites +
          UInt64.ofNat (iter.countP fun a => isWrite a.2 && unread later a.1)
        newReads := acc.newReads +
          UInt64.ofNat (iter.countP fun a => isRead a.2 && untouched earlier a.1) } := by
  induction iter generalizing acc with
  | nil => simp
  | cons access rest ih =>
    rw [List.foldl_cons, ih]
    cases hread : isRead access.2 <;> cases hwrite : isWrite access.2 <;>
      cases hnew : untouched earlier access.1 <;> cases hdead : unread later access.1 <;>
      simp [countRead, countWrite, hread, hwrite, hnew, hdead, UInt64.ofNat_add,
        UInt64.add_assoc, UInt64.add_comm]

theorem untouched_take {phases : List TracePhase} {i : Nat} (hi : i ≤ phases.length)
    (page : UInt64) :
    untouched (phases.take i) page = true ↔ ∀ j < i, accessIn phases j page = none := by
  simp only [untouched, List.all_eq_true, Option.isNone_iff_eq_none, accessIn]
  constructor
  · intro hall j hj
    rw [List.getElem?_eq_getElem (by omega)]
    exact hall _ (List.mem_take_iff_getElem.mpr ⟨j, by omega, rfl⟩)
  · intro hall p hp
    obtain ⟨j, hj, rfl⟩ := List.mem_take_iff_getElem.mp hp
    simpa [List.getElem?_eq_getElem (by omega : j < phases.length)] using hall j (by omega)

theorem unread_drop (phases : List TracePhase) (i : Nat) (page : UInt64) :
    unread (phases.drop (i + 1)) page = true ↔
      ∀ j < phases.length, i < j → ¬ Reads phases j page := by
  have hone : ∀ p : TracePhase,
      ((p.accesses.lookup page).map fun accessty => !isRead accessty).getD true = true ↔
        ¬ (p.accesses.lookup page).any isRead = true := by
    intro p
    cases p.accesses.lookup page <;> simp
  simp only [unread, List.all_eq_true, hone, Reads, accessIn]
  constructor
  · intro hall j hj hlater
    rw [List.getElem?_eq_getElem hj]
    exact hall _ (List.mem_drop_iff_getElem.mpr ⟨j - (i + 1), by omega, by congr 1; omega⟩)
  · intro hall p hp
    obtain ⟨k, hk, rfl⟩ := List.mem_drop_iff_getElem.mp hp
    have hone := hall (i + 1 + k) (by omega) (by omega)
    rwa [List.getElem?_eq_getElem (by omega), Option.bind_some] at hone

theorem mem_pages {phases : List TracePhase} {i : Nat} {page : UInt64}
    (haccess : accessIn phases i page ≠ none) : page ∈ pages phases := by
  unfold accessIn at haccess
  cases hphase : phases[i]? with
  | none => simp [hphase] at haccess
  | some phase =>
    rw [hphase, Option.bind_some] at haccess
    simp only [pages, List.mem_toFinset, List.mem_flatMap]
    refine ⟨phase, List.mem_of_getElem? hphase, ?_⟩
    exact AList.lookup_isSome.mp (Option.isSome_iff_ne_none.mpr haccess)

/-- Counting the entries of a map counts its pages: every page has one entry. -/
theorem countP_entries {phases : List TracePhase} {i : Nat} {phase : TracePhase}
    (hphase : phases[i]? = some phase) {iter : List PageAccess}
    (hperm : iter.Perm phase.accesses.entries) (counted : PageAccess → Bool)
    (p : UInt64 → Prop) [DecidablePred p]
    (hp : ∀ page, p page ↔
      ∃ accessty, accessIn phases i page = some accessty ∧ counted ⟨page, accessty⟩ = true) :
    iter.countP counted = ((pages phases).filter p).card := by
  have hnodup : ((iter.filter counted).map Sigma.fst).Nodup := by
    have hkeys : (iter.map Sigma.fst).Nodup :=
      (hperm.map Sigma.fst).nodup_iff.mpr phase.accesses.nodupKeys
    exact hkeys.sublist ((List.filter_sublist).map _)
  have hset : ((iter.filter counted).map Sigma.fst).toFinset = (pages phases).filter p := by
    ext page
    simp only [List.mem_toFinset, List.mem_map, List.mem_filter, Finset.mem_filter]
    constructor
    · rintro ⟨⟨key, accessty⟩, ⟨hmem, hcounted⟩, rfl⟩
      have hlookup : accessIn phases i key = some accessty := by
        rw [accessIn, hphase, Option.bind_some]
        exact AList.mem_lookup_iff.mpr (hperm.mem_iff.mp hmem)
      exact ⟨mem_pages (by rw [hlookup]; simp), (hp key).mpr ⟨accessty, hlookup, hcounted⟩⟩
    · rintro ⟨_, hpage⟩
      obtain ⟨accessty, hlookup, hcounted⟩ := (hp page).mp hpage
      rw [accessIn, hphase, Option.bind_some] at hlookup
      exact ⟨⟨page, accessty⟩,
        ⟨hperm.mem_iff.mpr (AList.mem_lookup_iff.mp hlookup), hcounted⟩, rfl⟩
  rw [List.countP_eq_length_filter, ← List.length_map Sigma.fst, ← hset,
    List.toFinset_card_of_nodup hnodup]

/-- A counter times the page size, when the product fits. -/
theorem toNat_figure {n : Nat} {pageSize : UInt64} (hfit : n * pageSize.toNat < 2 ^ 64) :
    ((0 + UInt64.ofNat n) * pageSize).toNat = n * pageSize.toNat := by
  rw [UInt64.zero_add, UInt64.toNat_mul, UInt64.toNat_ofNat', Nat.mod_mul_mod,
    Nat.mod_eq_of_lt hfit]

theorem deadPages_subset (phases : List TracePhase) (i : Nat) :
    deadPages phases i ⊆ writtenPages phases i :=
  Finset.monotone_filter_right _ fun _ _ h => h.1

theorem newPages_subset (phases : List TracePhase) (i : Nat) :
    newPages phases i ⊆ readPages phases i :=
  Finset.monotone_filter_right _ fun _ _ h => h.1

/-- The row of a phase reports the pages of the four kinds. -/
theorem phaseRow_figures (path : Chars) {phases : List TracePhase} {i : Nat} {phase : TracePhase}
    (hphase : phases[i]? = some phase) {iter : List PageAccess}
    (hperm : iter.Perm phase.accesses.entries)
    (hread : (readPages phases i).card * phase.pageSize.toNat < 2 ^ 64)
    (hwritten : (writtenPages phases i).card * phase.pageSize.toNat < 2 ^ 64) :
    let row := phaseRow path phases iter i phase
    row.readBytes.toNat = (readPages phases i).card * phase.pageSize.toNat ∧
    row.writtenBytes.toNat = (writtenPages phases i).card * phase.pageSize.toNat ∧
    row.deadBytes.toNat = (deadPages phases i).card * phase.pageSize.toNat ∧
    row.newBytes.toNat = (newPages phases i).card * phase.pageSize.toNat := by
  have hi : i < phases.length := (List.getElem?_eq_some_iff.mp hphase).1
  have hreadCount := countP_entries hphase hperm (fun a => isRead a.2) (Reads phases i)
    fun page => by cases h : accessIn phases i page <;> simp [Reads, h]
  have hwriteCount := countP_entries hphase hperm (fun a => isWrite a.2) (Writes phases i)
    fun page => by cases h : accessIn phases i page <;> simp [Writes, h]
  have hdeadCount := countP_entries hphase hperm
    (fun a => isWrite a.2 && unread (phases.drop (i + 1)) a.1) (DeadWrite phases i) fun page => by
      simp only [DeadWrite, Bool.and_eq_true, unread_drop]
      cases h : accessIn phases i page <;> simp [Writes, h]
  have hnewCount := countP_entries hphase hperm
    (fun a => isRead a.2 && untouched (phases.take i) a.1) (NewRead phases i) fun page => by
      simp only [NewRead, Bool.and_eq_true, untouched_take (Nat.le_of_lt hi)]
      cases h : accessIn phases i page <;> simp [Reads, h]
  have hdead : (deadPages phases i).card ≤ (writtenPages phases i).card :=
    Finset.card_le_card (deadPages_subset phases i)
  have hnew : (newPages phases i).card ≤ (readPages phases i).card :=
    Finset.card_le_card (newPages_subset phases i)
  have hdeadFit := Nat.lt_of_le_of_lt (Nat.mul_le_mul_right phase.pageSize.toNat hdead) hwritten
  have hnewFit := Nat.lt_of_le_of_lt (Nat.mul_le_mul_right phase.pageSize.toNat hnew) hread
  simp only [phaseRow, countAccesses, foldl_count, hreadCount, hwriteCount, hdeadCount, hnewCount]
  exact ⟨toNat_figure hread, toNat_figure hwritten, toNat_figure hdeadFit, toNat_figure hnewFit⟩

/-! ### Across the phases -/

theorem newRead_unique {phases : List TracePhase} {i j : Nat} {page : UInt64}
    (hi : NewRead phases i page) (hj : NewRead phases j page) : i = j := by
  have hearlier : ∀ {a b : Nat}, NewRead phases a page → NewRead phases b page → ¬ a < b := by
    intro a b ha hb hlt
    have hread := ha.1
    rw [Reads, hb.2 a hlt] at hread
    cases hread
  exact Nat.le_antisymm (Nat.le_of_not_lt (hearlier hj hi)) (Nat.le_of_not_lt (hearlier hi hj))

theorem sum_newPages_le (phases : List TracePhase) :
    ∑ i ∈ Finset.range phases.length, (newPages phases i).card ≤ (pages phases).card := by
  have hdisjoint : ∀ i ∈ Finset.range phases.length, ∀ j ∈ Finset.range phases.length, i ≠ j →
      Disjoint (newPages phases i) (newPages phases j) := by
    intro i _ j _ hne
    rw [Finset.disjoint_left]
    intro page hi hj
    exact hne (newRead_unique (Finset.mem_filter.mp hi).2 (Finset.mem_filter.mp hj).2)
  rw [← Finset.card_biUnion hdisjoint]
  apply Finset.card_le_card
  intro page hpage
  obtain ⟨i, _, hi⟩ := Finset.mem_biUnion.mp hpage
  exact (Finset.mem_filter.mp hi).1

/-- Writes stay dead: no phase after `i` reads the page, so none after `j` does. -/
theorem deadWrite_later {phases : List TracePhase} {i j : Nat} {page : UInt64}
    (hdead : DeadWrite phases i page) (hlater : i < j) (hwrites : Writes phases j page) :
    DeadWrite phases j page :=
  ⟨hwrites, fun k hk hjk => hdead.2 k hk (Nat.lt_trans hlater hjk)⟩

theorem mem_readPages {phases : List TracePhase} {i : Nat} {page : UInt64} :
    page ∈ readPages phases i ↔ Reads phases i page := by
  rw [readPages, Finset.mem_filter]
  refine ⟨And.right, fun hreads => ⟨mem_pages fun hnone : accessIn phases i page = none => ?_, hreads⟩⟩
  rw [Reads, hnone] at hreads
  cases hreads

theorem mem_writtenPages {phases : List TracePhase} {i : Nat} {page : UInt64} :
    page ∈ writtenPages phases i ↔ Writes phases i page := by
  rw [writtenPages, Finset.mem_filter]
  refine ⟨And.right, fun hwrites => ⟨mem_pages fun hnone : accessIn phases i page = none => ?_, hwrites⟩⟩
  rw [Writes, hnone] at hwrites
  cases hwrites

theorem mem_deadPages {phases : List TracePhase} {i : Nat} {page : UInt64} :
    page ∈ deadPages phases i ↔ DeadWrite phases i page := by
  rw [deadPages, Finset.mem_filter]
  refine ⟨And.right, fun hdead => ⟨?_, hdead⟩⟩
  exact (Finset.mem_filter.mp (mem_writtenPages.mpr hdead.1)).1

theorem mem_newPages {phases : List TracePhase} {i : Nat} {page : UInt64} :
    page ∈ newPages phases i ↔ NewRead phases i page := by
  rw [newPages, Finset.mem_filter]
  refine ⟨And.right, fun hnew => ⟨?_, hnew⟩⟩
  exact (Finset.mem_filter.mp (mem_readPages.mpr hnew.1)).1

theorem mem_readPages_iff (phases : List TracePhase) (i : Nat) (page : UInt64) :
    page ∈ readPages phases i ↔ ∃ accessty, accessIn phases i page = some accessty ∧
      (accessty = .read ∨ accessty = .readWrite) := by
  rw [mem_readPages, Reads]
  cases accessIn phases i page with
  | none => simp
  | some accessty => cases accessty <;> simp [isRead]

theorem mem_writtenPages_iff (phases : List TracePhase) (i : Nat) (page : UInt64) :
    page ∈ writtenPages phases i ↔ ∃ accessty, accessIn phases i page = some accessty ∧
      (accessty = .write ∨ accessty = .readWrite) := by
  rw [mem_writtenPages, Writes]
  cases accessIn phases i page with
  | none => simp
  | some accessty => cases accessty <;> simp [isWrite]

theorem mem_deadPages_iff (phases : List TracePhase) (i : Nat) (page : UInt64) :
    page ∈ deadPages phases i ↔
      page ∈ writtenPages phases i ∧ ∀ j, i < j → page ∉ readPages phases j := by
  rw [mem_deadPages, mem_writtenPages]
  refine and_congr_right fun _ => ⟨fun hdead j hlt => ?_, fun hdead j _ hlt => ?_⟩
  · rw [mem_readPages]
    intro hreads
    by_cases hj : j < phases.length
    · exact hdead j hj hlt hreads
    · rw [Reads, accessIn, List.getElem?_eq_none (Nat.le_of_not_lt hj)] at hreads
      cases hreads
  · rw [← mem_readPages]
    exact hdead j hlt

theorem mem_newPages_iff (phases : List TracePhase) (i : Nat) (page : UInt64) :
    page ∈ newPages phases i ↔
      page ∈ readPages phases i ∧ ∀ j < i, accessIn phases j page = none := by
  rw [mem_newPages, mem_readPages]
  rfl

/-- Nothing is read after the last phase. -/
theorem deadPages_last (phases : List TracePhase) :
    deadPages phases (phases.length - 1) = writtenPages phases (phases.length - 1) := by
  ext page
  rw [mem_deadPages, mem_writtenPages]
  exact ⟨And.left, fun hwrites => ⟨hwrites, fun j hj hlast => by omega⟩⟩

theorem newPages_first (phases : List TracePhase) : newPages phases 0 = readPages phases 0 := by
  ext page
  rw [mem_newPages, mem_readPages]
  exact ⟨And.left, fun hreads => ⟨hreads, fun j hj => absurd hj (Nat.not_lt_zero j)⟩⟩

/-- The row of a phase, with its four figures and how they compare. -/
theorem exists_row (path : Chars) {phases : List TracePhase} {i : Nat} {phase : TracePhase}
    (hphase : phases[i]? = some phase) {iter : Nat → List PageAccess}
    (hperm : (iter i).Perm phase.accesses.entries)
    (hread : (readPages phases i).card * phase.pageSize.toNat < 2 ^ 64)
    (hwritten : (writtenPages phases i).card * phase.pageSize.toNat < 2 ^ 64) :
    ∃ row, (rows path phases iter)[i]? = some row ∧
      row.name = phase.name ∧ row.pageSize = phase.pageSize ∧
      row.ioBytes = phase.ioBytes ∧ row.instructions = phase.instructions ∧
      row.readBytes.toNat = (readPages phases i).card * phase.pageSize.toNat ∧
      row.writtenBytes.toNat = (writtenPages phases i).card * phase.pageSize.toNat ∧
      row.deadBytes.toNat = (deadPages phases i).card * phase.pageSize.toNat ∧
      row.newBytes.toNat = (newPages phases i).card * phase.pageSize.toNat ∧
      row.deadBytes ≤ row.writtenBytes ∧ row.newBytes ≤ row.readBytes := by
  obtain ⟨hr, hw, hd, hn⟩ := phaseRow_figures path hphase hperm hread hwritten
  refine ⟨phaseRow path phases (iter i) i phase, by simp [rows, hphase], rfl, rfl, rfl, rfl,
    hr, hw, hd, hn, ?_, ?_⟩
  · rw [UInt64.le_iff_toNat_le, hd, hw]
    exact Nat.mul_le_mul_right _ (Finset.card_le_card (deadPages_subset phases i))
  · rw [UInt64.le_iff_toNat_le, hn, hr]
    exact Nat.mul_le_mul_right _ (Finset.card_le_card (newPages_subset phases i))

/-- Every row reports the four kinds of pages by their definitions, whatever the
order in which the maps are visited, and the kinds fit together across phases. -/
theorem rows_figures (path : Chars) (phases : List TracePhase) (iter : Nat → List PageAccess)
    (horder : ∀ i phase, phases[i]? = some phase → (iter i).Perm phase.accesses.entries)
    (hfit : ∀ i phase, phases[i]? = some phase →
      (readPages phases i).card * phase.pageSize.toNat < 2 ^ 64 ∧
      (writtenPages phases i).card * phase.pageSize.toNat < 2 ^ 64) :
    (rows path phases iter).length = phases.length ∧
    (∀ i phase, phases[i]? = some phase → ∃ row, (rows path phases iter)[i]? = some row ∧
      row.name = phase.name ∧ row.pageSize = phase.pageSize ∧
      row.ioBytes = phase.ioBytes ∧ row.instructions = phase.instructions ∧
      row.readBytes.toNat = (readPages phases i).card * phase.pageSize.toNat ∧
      row.writtenBytes.toNat = (writtenPages phases i).card * phase.pageSize.toNat ∧
      row.deadBytes.toNat = (deadPages phases i).card * phase.pageSize.toNat ∧
      row.newBytes.toNat = (newPages phases i).card * phase.pageSize.toNat ∧
      row.deadBytes ≤ row.writtenBytes ∧ row.newBytes ≤ row.readBytes) ∧
    (∀ i page, page ∈ readPages phases i ↔ ∃ accessty, accessIn phases i page = some accessty ∧
      (accessty = .read ∨ accessty = .readWrite)) ∧
    (∀ i page, page ∈ writtenPages phases i ↔ ∃ accessty, accessIn phases i page = some accessty ∧
      (accessty = .write ∨ accessty = .readWrite)) ∧
    (∀ i page, page ∈ deadPages phases i ↔
      page ∈ writtenPages phases i ∧ ∀ j, i < j → page ∉ readPages phases j) ∧
    (∀ i page, page ∈ newPages phases i ↔
      page ∈ readPages phases i ∧ ∀ j < i, accessIn phases j page = none) ∧
    (∀ i j page, page ∈ newPages phases i → page ∈ newPages phases j → i = j) ∧
    ∑ i ∈ Finset.range phases.length, (newPages phases i).card ≤ (pages phases).card ∧
    (∀ i, deadPages phases i ⊆ writtenPages phases i) ∧
    (∀ i, newPages phases i ⊆ readPages phases i) ∧
    deadPages phases (phases.length - 1) = writtenPages phases (phases.length - 1) ∧
    newPages phases 0 = readPages phases 0 ∧
    ∀ i j page, page ∈ deadPages phases i → i < j → page ∈ writtenPages phases j →
      page ∈ deadPages phases j := by
  refine ⟨List.length_mapIdx, fun i phase hphase => ?_, mem_readPages_iff phases,
    mem_writtenPages_iff phases, mem_deadPages_iff phases, mem_newPages_iff phases,
    fun i j page hi hj => ?_, sum_newPages_le phases, deadPages_subset phases,
    newPages_subset phases, deadPages_last phases, newPages_first phases,
    fun i j page hi hlt hj => ?_⟩
  · obtain ⟨hread, hwritten⟩ := hfit i phase hphase
    exact exists_row path hphase (horder i phase hphase) hread hwritten
  · exact newRead_unique (mem_newPages.mp hi) (mem_newPages.mp hj)
  · rw [mem_deadPages] at hi ⊢
    exact deadWrite_later hi hlt (mem_writtenPages.mp hj)

/-- Two phases on 4 KiB pages: the first writes page 1 and reads page 2, the
second reads both. -/
def twoPhases : List TracePhase :=
  [⟨"pre-main".toList, 4096, 0, 0, 0, AList.insert 1 .write (AList.insert 2 .read ∅)⟩,
    ⟨"main".toList, 4096, 3, 0, 0, AList.insert 1 .read (AList.insert 2 .read ∅)⟩]

/-- Neither is page 1 dead in the first phase nor page 1 or 2 new in the second. -/
theorem rows_figures_twoPhases :
    (deadPages twoPhases 0).card = 0 ∧ (newPages twoPhases 1).card = 0 ∧
    ∃ first second, rows "a.log".toList twoPhases
        (fun i => (twoPhases[i]?.map fun phase => phase.accesses.entries).getD []) =
          [first, second] ∧
      first.writtenBytes.toNat = (writtenPages twoPhases 0).card * 4096 ∧
      second.readBytes.toNat = (readPages twoPhases 1).card * 4096 := by
  have hrows := rows_figures "a.log".toList twoPhases
    (fun i => (twoPhases[i]?.map fun phase => phase.accesses.entries).getD [])
    (fun i phase hphase => by rw [hphase]; exact .refl _) (by
      intro i phase hphase
      match i, hphase with
      | 0, rfl => exact ⟨by decide, by decide⟩
      | 1, rfl => exact ⟨by decide, by decide⟩)
  obtain ⟨_, hfigures, _⟩ := hrows
  obtain ⟨first, hfirst, _, _, _, _, _, hwritten, _⟩ := hfigures 0 _ rfl
  obtain ⟨second, hsecond, _, _, _, _, hread, _⟩ := hfigures 1 _ rfl
  refine ⟨by decide, by decide, first, second, ?_, hwritten, hread⟩
  rw [show first = _ from (Option.some_inj.mp hfirst).symm,
    show second = _ from (Option.some_inj.mp hsecond).symm]
  rfl

end NdpOffload.NearMap.Figures
