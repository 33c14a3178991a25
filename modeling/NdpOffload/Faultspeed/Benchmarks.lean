import NdpOffload.Faultspeed.Unprotected

/-! The loops of the benchmarks.  An iteration restores the snapshot, fills memory,
grows and fills again, and reads everything in between.  With any kind of
protection it shows nothing of the iterations before it. -/
namespace NdpOffload.Faultspeed.Benchmarks

open Library.Paging Memory Machine Refinement Strategies Unprotected

def snapSize : Nat := 4 * 1024 * 1024

def workSize : Nat := 5 * 1024 * 1024

def workFillStart : Nat := 3 * 1024 * 1024

/-! ### Calls -/

def sideEffectOps (size : Nat) : List Op := (List.range size).map .read

/-- `x` is what `xinit.fetch_add` has returned; other threads advance it as well.
The length is computed modulo `2^64`. -/
def fillWithDataOps (size start upTo : Nat) (x : UInt8) : List Op :=
  let start := min start size
  let len := min ((upTo + 2 ^ 64 - start) % 2 ^ 64) (size - start)
  (List.range len).map fun i => .write (start + i) (x + UInt8.ofNat i)

inductive Call where
  | restoreFrom
  | resize (newSize : Nat)
  | sideEffect
  | fillWithData (start upTo : Nat) (x : UInt8)

def Call.ops (other size : Nat) : Call → List Op
  | .restoreFrom => [.restoreFrom other]
  | .resize newSize => [.resize newSize]
  | .sideEffect => sideEffectOps size
  | .fillWithData start upTo x => fillWithDataOps size start upTo x

section Run

variable {σ : Type} (perform : σ → Op → σ × Observation) (sizeOf : σ → Nat) (other : Nat)

def runOps : σ → List Op → σ × List Observation
  | a, [] => (a, [])
  | a, op :: ops =>
      let next := perform a op
      let rest := runOps next.1 ops
      (rest.1, next.2 :: rest.2)

/-- Every call works on the size that the calls before it have left. -/
def runCalls : σ → List Call → σ × List Observation
  | a, [] => (a, [])
  | a, call :: calls =>
      let next := runOps perform a (call.ops other (sizeOf a))
      let rest := runCalls next.1 calls
      (rest.1, next.2 ++ rest.2)

/-- What each iteration of a loop shows. -/
def runLoop : σ → List (List Call) → List (List Observation)
  | _, [] => []
  | a, calls :: iterations =>
      let next := runCalls perform sizeOf other a calls
      next.2 :: runLoop next.1 iterations

end Run

/-- One iteration, with the two values that its calls of `fillWithData` start at. -/
def iteration (x y : UInt8) : List Call :=
  [.restoreFrom, .sideEffect, .fillWithData workFillStart wmemSize x, .sideEffect,
    .resize workSize, .sideEffect, .fillWithData workFillStart wmemSize y, .sideEffect]

def iterations (inits : List (UInt8 × UInt8)) : List (List Call) :=
  inits.map fun init => iteration init.1 init.2

/-- The loop of `BM_ReuseMapping`, `BM_ReuseAndDontneed`, `BM_UFFD_Eager` and
`BM_UFFD_SIGBUS_Eager`, which keep one memory. -/
def reuseLoop (strategy : Strategy) (memory other : Nat) (s : Machine)
    (inits : List (UInt8 × UInt8)) : List (List Observation) :=
  runLoop (fun t op => t.perform strategy memory op) (fun t => t.size memory) other s
    (iterations inits)

/-- The destructor of `WMemory`; nothing is left of the pages. -/
def destroy (memory : Nat) (s : Machine) : Machine := s.mmapNone (s.base memory) wmemSize

/-- The loop of `BM_FullNewMapping`: a new memory in every iteration, where the
kernel puts it. -/
def newMappingLoop (memory other : Nat) :
    Machine → List (Nat × UInt8 × UInt8) → List (List Observation)
  | _, [] => []
  | s, (base, x, y) :: rest =>
      let next := runCalls (fun t op => t.perform .wavm memory op) (fun t => t.size memory) other
        (s.construct memory base) (iteration x y)
      next.2 :: newMappingLoop memory other (destroy memory next.1) rest

/-- `setupNoProtect` and the loop of `BM_NoProtection`. -/
def noProtectionLoop (memory other : Nat) (s : Machine) (setup : UInt8)
    (inits : List (UInt8 × UInt8)) : List (List Observation) :=
  let perform := performNoProtect memory
  let opened := s.resizeWavm memory (wmemSize / 2)
  let ready := runOps perform opened (fillWithDataOps (opened.size memory) 0 workSize setup)
  runLoop perform (fun t => t.size memory) other ready.1 (iterations inits)

/-! ### What an iteration should show -/

/-- The bytes after a fill from `workFillStart` on. -/
def filled (data : Nat → UInt8) (x : UInt8) (offset : Nat) : UInt8 :=
  if workFillStart ≤ offset then x + UInt8.ofNat (offset - workFillStart) else data offset

def bytes (size : Nat) (data : Nat → UInt8) : List Observation :=
  (List.range size).map fun offset => .byte (data offset)

/-- The observations of an iteration if the bytes between the snapshot and the
work size are those of `tail` when the memory grows. -/
def iterationSeen (snap : Flat UInt8) (tail : Nat → UInt8) (x y : UInt8) : List Observation :=
  [.restored] ++ bytes snapSize snap.data ++
    List.replicate (snapSize - workFillStart) .stored ++ bytes snapSize (filled snap.data x) ++
    [.resized] ++
    bytes workSize (fun offset =>
      if offset < snapSize then filled snap.data x offset else tail offset) ++
    List.replicate (workSize - workFillStart) .stored ++ bytes workSize (filled snap.data y)

/-! ### Operations in bounds -/

def Within (size : Nat) : Op → Prop
  | .read offset => offset < size
  | .write offset _ => offset < size
  | _ => True

/-- A read or a write in bounds. -/
def Touches (size : Nat) : Op → Prop
  | .read offset => offset < size
  | .write offset _ => offset < size
  | _ => False

section Loose

variable {drops : Bool} {contents : Nat → Option (Flat UInt8)} {loose : Loose}

theorem runCalls_cons {σ : Type} {perform : σ → Op → σ × Observation} (sizeOf : σ → Nat)
    (other : Nat) (call : Call) {a b : σ} {seen : List Observation}
    (hcall : runOps perform a (call.ops other (sizeOf a)) = (b, seen)) (calls : List Call) :
    runCalls perform sizeOf other a (call :: calls) =
      ((runCalls perform sizeOf other b calls).1,
        seen ++ (runCalls perform sizeOf other b calls).2) := by
  simp only [runCalls, hcall]

theorem runOps_singleton {σ : Type} {perform : σ → Op → σ × Observation} {a b : σ} {op : Op}
    {seen : Observation} (hop : perform a op = (b, seen)) : runOps perform a [op] = (b, [seen]) := by
  simp only [runOps, hop]

theorem runOps_append {σ : Type} (perform : σ → Op → σ × Observation) (a : σ)
    (left right : List Op) :
    runOps perform a (left ++ right) =
      ((runOps perform (runOps perform a left).1 right).1,
        (runOps perform a left).2 ++ (runOps perform (runOps perform a left).1 right).2) := by
  induction left generalizing a with
  | nil => rfl
  | cons op left ih =>
    simp only [List.cons_append, runOps, ih]

theorem bytes_succ (size : Nat) (data : Nat → UInt8) :
    bytes (size + 1) data = bytes size data ++ [.byte (data size)] := by
  rw [bytes, List.range_succ, List.map_append]
  rfl

/-- Reading everything changes nothing. -/
theorem sideEffect_seen (loose : Loose) (hsize : loose.size ≤ loose.bound) :
    runOps (Loose.perform drops contents) loose (sideEffectOps loose.size) =
      (loose, bytes loose.size loose.contents.data) := by
  have hreads : ∀ count ≤ loose.size,
      runOps (Loose.perform drops contents) loose (sideEffectOps count) =
        (loose, bytes count loose.contents.data) := by
    intro count hcount
    induction count with
    | zero => rfl
    | succ count ih =>
      have hin : count < loose.bound := by omega
      have hfront := ih (by omega)
      rw [sideEffectOps] at hfront
      rw [sideEffectOps, List.range_succ, List.map_append, runOps_append, hfront, bytes_succ]
      simp [runOps, Loose.perform, hin]
  exact hreads loose.size (le_refl _)

/-- The bytes after a fill of `count` bytes at `start`. -/
def fillRange (start count : Nat) (x : UInt8) (data : Nat → UInt8) (offset : Nat) : UInt8 :=
  if start ≤ offset ∧ offset < start + count then x + UInt8.ofNat (offset - start)
  else data offset

theorem fill_seen (loose : Loose) (start : Nat) (x : UInt8) {count : Nat} (hfits : start + count ≤ loose.bound) :
    runOps (Loose.perform drops contents) loose
        ((List.range count).map fun i => Op.write (start + i) (x + UInt8.ofNat i)) =
      (⟨loose.size, ⟨loose.bound, fillRange start count x loose.contents.data⟩⟩,
        List.replicate count .stored) := by
  induction count with
  | zero =>
    have hsame : fillRange start 0 x loose.contents.data = loose.contents.data := by
      funext offset
      exact if_neg (by omega)
    rw [hsame]
    rfl
  | succ count ih =>
    have hin : start + count < loose.bound := by omega
    rw [List.range_succ, List.map_append, runOps_append, ih (by omega), List.replicate_succ']
    have hstored : Function.update (fillRange start count x loose.contents.data) (start + count)
        (x + UInt8.ofNat count) = fillRange start (count + 1) x loose.contents.data := by
      funext offset
      by_cases hlast : offset = start + count
      · subst hlast
        simp [fillRange]
      · have hiff : offset < start + count ↔ offset < start + (count + 1) := by omega
        simp [fillRange, hlast, hiff]
    have hstore : Loose.perform drops contents
        ⟨loose.size, ⟨loose.bound, fillRange start count x loose.contents.data⟩⟩
        (.write (start + count) (x + UInt8.ofNat count)) =
        (⟨loose.size, ⟨loose.bound, fillRange start (count + 1) x loose.contents.data⟩⟩,
          .stored) := by
      rw [← hstored]
      exact if_pos hin
    simp only [List.map_cons, List.map_nil, runOps, hstore]

theorem bytes_congr {size : Nat} {data data' : Nat → UInt8}
    (hsame : ∀ offset < size, data offset = data' offset) : bytes size data = bytes size data' := by
  apply List.map_congr_left
  intro offset hoffset
  rw [hsame offset (List.mem_range.mp hoffset)]

/-- A fill that begins at `workFillStart` reaches to the end of the memory. -/
theorem fillWithDataOps_eq {size : Nat} (hstart : workFillStart ≤ size)
    (hend : size ≤ wmemSize / 2) (x : UInt8) :
    fillWithDataOps size workFillStart wmemSize x =
      (List.range (size - workFillStart)).map fun i =>
        Op.write (workFillStart + i) (x + UInt8.ofNat i) := by
  have hwmem : wmemSize = 8589934592 := rfl
  have hfill : workFillStart = 3145728 := rfl
  have hlen : min ((wmemSize + 2 ^ 64 - workFillStart) % 2 ^ 64) (size - workFillStart) =
      size - workFillStart := by omega
  rw [fillWithDataOps, Nat.min_eq_left hstart, hlen]

/-- What is beyond the snapshot when the memory has been cut to its size. -/
def tailOf (drops : Bool) (loose : Loose) : Nat → UInt8 :=
  (loose.resize drops snapSize).contents.data

section Iteration

variable {drops : Bool} {contents : Nat → Option (Flat UInt8)}

/-- The memory after a fill from `workFillStart` to its end. -/
def refill (x : UInt8) (loose : Loose) : Loose :=
  ⟨loose.size, ⟨loose.bound,
    fillRange workFillStart (loose.size - workFillStart) x loose.contents.data⟩⟩

theorem bytes_refill (x : UInt8) (loose : Loose) :
    bytes loose.size (refill x loose).contents.data =
      bytes loose.size (filled loose.contents.data x) := by
  apply bytes_congr
  intro offset hoffset
  simp only [refill, fillRange, filled]
  split_ifs <;> first | omega | rfl

/-- What is done at each size: all is read, filled and read again. -/
theorem refill_seen (loose : Loose) (hfrom : workFillStart ≤ loose.size)
    (hbound : loose.size ≤ loose.bound) (hto : loose.size ≤ wmemSize / 2) (other : Nat) (x : UInt8)
    (calls : List Call) :
    runCalls (Loose.perform drops contents) Loose.size other loose
        (.sideEffect :: .fillWithData workFillStart wmemSize x :: .sideEffect :: calls) =
      let rest := runCalls (Loose.perform drops contents) Loose.size other (refill x loose) calls
      (rest.1, bytes loose.size loose.contents.data ++
        (List.replicate (loose.size - workFillStart) .stored ++
          (bytes loose.size (filled loose.contents.data x) ++ rest.2))) := by
  have hread : runOps (Loose.perform drops contents) loose (sideEffectOps loose.size) =
      (loose, bytes loose.size loose.contents.data) := sideEffect_seen loose hbound
  have hfill : runOps (Loose.perform drops contents) loose
      (fillWithDataOps loose.size workFillStart wmemSize x) =
        (refill x loose, List.replicate (loose.size - workFillStart) .stored) := by
    rw [fillWithDataOps_eq hfrom hto]
    exact fill_seen loose workFillStart x (by omega)
  have hreread : runOps (Loose.perform drops contents) (refill x loose)
      (sideEffectOps loose.size) =
        (refill x loose, bytes loose.size (filled loose.contents.data x)) := by
    rw [← bytes_refill]
    exact sideEffect_seen (refill x loose) hbound
  rw [runCalls_cons Loose.size other .sideEffect hread,
    runCalls_cons Loose.size other (.fillWithData workFillStart wmemSize x) hfill,
    runCalls_cons Loose.size other .sideEffect hreread]

/-- A memory that grows keeps its bytes. -/
theorem resize_grown (loose : Loose) {newSize : Nat} (hle : loose.size ≤ newSize) :
    loose.perform drops contents (.resize newSize) =
      (⟨newSize, ⟨max loose.bound newSize, loose.contents.data⟩⟩, .resized) := by
  have hdata : (loose.resize drops newSize).contents.data = loose.contents.data := by
    funext offset
    exact if_neg fun hcut => Nat.not_lt.mpr hle (lt_of_le_of_lt hcut.2.1 hcut.2.2)
  rw [Loose.perform, Prod.mk.injEq]
  refine ⟨?_, rfl⟩
  show Loose.mk newSize ⟨_, (loose.resize drops newSize).contents.data⟩ = _
  rw [hdata]

/-- The memory with the snapshot restored into it. -/
def restored (drops : Bool) (snap : Flat UInt8) (loose : Loose) : Loose :=
  ⟨snapSize, ⟨max loose.bound snapSize, fun offset =>
    if offset < snapSize then snap.data offset else tailOf drops loose offset⟩⟩

theorem restoreFrom_seen (loose : Loose) {other : Nat} {snap : Flat UInt8}
    (hsnap : contents other = some snap) (hsize : snap.size = snapSize) :
    loose.perform drops contents (.restoreFrom other) =
      (restored drops snap loose, .restored) := by
  simp only [Loose.perform, hsnap, hsize]
  rfl

/-- The memory restored, filled and grown. -/
def regrown (drops : Bool) (snap : Flat UInt8) (x : UInt8) (loose : Loose) : Loose :=
  ⟨workSize, ⟨max (max loose.bound snapSize) workSize,
    (refill x (restored drops snap loose)).contents.data⟩⟩

theorem data_regrown (snap : Flat UInt8) (x : UInt8) (loose : Loose) (offset : Nat) :
    (regrown drops snap x loose).contents.data offset =
      if offset < snapSize then filled snap.data x offset else tailOf drops loose offset := by
  have hsnapSize : snapSize = 4194304 := rfl
  have hfillStart : workFillStart = 3145728 := rfl
  simp only [regrown, refill, restored, fillRange, filled]
  split_ifs <;> first | omega | rfl

/-- A loop iteration on any memory. -/
theorem iteration_loose (drops : Bool) {contents : Nat → Option (Flat UInt8)} (loose : Loose)
    {other : Nat} {snap : Flat UInt8} (hsnap : contents other = some snap)
    (hsize : snap.size = snapSize) (x y : UInt8) :
    ∃ next, runCalls (Loose.perform drops contents) Loose.size other loose (iteration x y) =
        (next, iterationSeen snap (tailOf drops loose) x y) ∧
      next.size = workSize ∧
      ∀ offset, snapSize ≤ offset → next.contents.data offset =
        if offset < workSize then y + UInt8.ofNat (offset - workFillStart)
        else tailOf drops loose offset := by
  have hsnapSize : snapSize = 4194304 := rfl
  have hworkSize : workSize = 5242880 := rfl
  have hfillStart : workFillStart = 3145728 := rfl
  have hgrown : (refill x (restored drops snap loose)).perform drops contents (.resize workSize) =
      (regrown drops snap x loose, .resized) :=
    resize_grown (refill x (restored drops snap loose)) (by decide : snapSize ≤ workSize)
  have hshown : bytes snapSize (restored drops snap loose).contents.data =
      bytes snapSize snap.data :=
    bytes_congr fun offset hoffset => if_pos hoffset
  have hfilled : bytes snapSize (filled (restored drops snap loose).contents.data x) =
      bytes snapSize (filled snap.data x) := by
    apply bytes_congr
    intro offset hoffset
    simp only [filled, restored, if_pos hoffset]
  have hopened : bytes workSize (regrown drops snap x loose).contents.data =
      bytes workSize (fun offset =>
        if offset < snapSize then filled snap.data x offset else tailOf drops loose offset) :=
    bytes_congr fun offset _ => data_regrown snap x loose offset
  have hrefilled : bytes workSize (filled (regrown drops snap x loose).contents.data y) =
      bytes workSize (filled snap.data y) := by
    apply bytes_congr
    intro offset hoffset
    simp only [filled, data_regrown]
    split_ifs <;> first | omega | rfl
  refine ⟨refill y (regrown drops snap x loose), ?_, rfl, fun offset hoffset => ?_⟩
  · rw [iteration,
      runCalls_cons Loose.size other .restoreFrom
        (runOps_singleton (restoreFrom_seen loose hsnap hsize)),
      refill_seen (restored drops snap loose) (by decide : workFillStart ≤ snapSize)
        (Nat.le_max_right _ _) (by decide : snapSize ≤ wmemSize / 2),
      runCalls_cons Loose.size other (.resize workSize) (runOps_singleton hgrown),
      refill_seen (regrown drops snap x loose) (by decide : workFillStart ≤ workSize)
        (Nat.le_max_right _ _) (by decide : workSize ≤ wmemSize / 2)]
    simp only [restored, regrown] at hshown hfilled hopened hrefilled ⊢
    simp only [hshown, hfilled, hopened, hrefilled, runCalls, iterationSeen, List.append_assoc,
      List.append_nil]
  · show fillRange workFillStart (workSize - workFillStart) y
      (regrown drops snap x loose).contents.data offset = _
    rw [fillRange, data_regrown]
    split_ifs <;> first | omega | rfl

end Iteration

theorem iterationSeen_congr (snap : Flat UInt8) {tail tail' : Nat → UInt8}
    (hsame : ∀ offset, snapSize ≤ offset → offset < workSize → tail offset = tail' offset)
    (x y : UInt8) : iterationSeen snap tail x y = iterationSeen snap tail' x y := by
  have hgrown : bytes workSize (fun offset =>
        if offset < snapSize then filled snap.data x offset else tail offset) =
      bytes workSize (fun offset =>
        if offset < snapSize then filled snap.data x offset else tail' offset) := by
    apply bytes_congr
    intro offset hoffset
    by_cases hin : offset < snapSize
    · rw [if_pos hin, if_pos hin]
    · rw [if_neg hin, if_neg hin, hsame offset (Nat.le_of_not_lt hin) hoffset]
  rw [iterationSeen, hgrown, iterationSeen]

/-- What the iterations show that find nothing of those before them. -/
def isolatedSeen (snap : Flat UInt8) (inits : List (UInt8 × UInt8)) : List (List Observation) :=
  inits.map fun init => iterationSeen snap (fun _ => 0) init.1 init.2

/-- What the iterations show if each finds what the fill before it has left. -/
def leakingSeen (snap : Flat UInt8) :
    (Nat → UInt8) → List (UInt8 × UInt8) → List (List Observation)
  | _, [] => []
  | tail, (x, y) :: inits =>
      iterationSeen snap tail x y ::
        leakingSeen snap (fun offset => y + UInt8.ofNat (offset - workFillStart)) inits

/-- Where the memory drops what it cuts off, zeros beyond the size stay zeros. -/
theorem loop_isolated {other : Nat} {snap : Flat UInt8} (hsnap : contents other = some snap)
    (hsize : snap.size = snapSize) {loose : Loose}
    (hclean : ∀ offset, loose.size ≤ offset → loose.contents.data offset = 0)
    (inits : List (UInt8 × UInt8)) :
    runLoop (Loose.perform true contents) Loose.size other loose (iterations inits) =
      isolatedSeen snap inits := by
  have hcut : ∀ loose : Loose, (∀ offset, loose.size ≤ offset → loose.contents.data offset = 0) →
      ∀ offset, snapSize ≤ offset → tailOf true loose offset = 0 := by
    intro loose hclean offset hoffset
    simp only [tailOf, Loose.resize, true_and]
    split
    · rfl
    · exact hclean offset (by omega)
  induction inits generalizing loose with
  | nil => rfl
  | cons init inits ih =>
    have htail := hcut loose hclean
    obtain ⟨next, hround, hnextSize, hnext⟩ :=
      iteration_loose true loose hsnap hsize init.1 init.2
    have hnextClean : ∀ offset, next.size ≤ offset → next.contents.data offset = 0 := by
      intro offset hoffset
      have hlarger : snapSize ≤ workSize := by decide
      rw [hnextSize] at hoffset
      rw [hnext offset (le_trans hlarger hoffset), if_neg (Nat.not_lt.mpr hoffset)]
      exact htail offset (le_trans hlarger hoffset)
    have hseen : iterationSeen snap (tailOf true loose) init.1 init.2 =
        iterationSeen snap (fun _ => 0) init.1 init.2 :=
      iterationSeen_congr snap (fun offset hoffset _ => htail offset hoffset) init.1 init.2
    have hrest := ih hnextClean
    rw [iterations] at hrest
    simp only [iterations, isolatedSeen, List.map_cons, runLoop, hround, hseen, hrest]

theorem loop_leaking {other : Nat} {snap : Flat UInt8} (hsnap : contents other = some snap)
    (hsize : snap.size = snapSize) {loose : Loose} {tail : Nat → UInt8}
    (htail : ∀ offset, snapSize ≤ offset → offset < workSize →
      loose.contents.data offset = tail offset)
    (inits : List (UInt8 × UInt8)) :
    runLoop (Loose.perform false contents) Loose.size other loose (iterations inits) =
      leakingSeen snap tail inits := by
  induction inits generalizing loose tail with
  | nil => rfl
  | cons init inits ih =>
    obtain ⟨next, hround, -, hnext⟩ :=
      iteration_loose false loose hsnap hsize init.1 init.2
    have hkept : tailOf false loose = loose.contents.data := by
      funext offset
      simp [tailOf, Loose.resize]
    have hseen : iterationSeen snap (tailOf false loose) init.1 init.2 =
        iterationSeen snap tail init.1 init.2 := by
      rw [hkept]
      exact iterationSeen_congr snap htail init.1 init.2
    have hrest := @ih next (fun offset => init.2 + UInt8.ofNat (offset - workFillStart)) (by
        intro offset hfrom hto
        rw [hnext offset hfrom, if_pos hto])
    rw [iterations] at hrest
    simp only [iterations, List.map_cons, runLoop, hround, hseen, hrest, leakingSeen]

end Loose

/-! ### Machines that follow the loose memory -/

/-- In bounds, the machine does what the loose memory does. -/
structure Follows (memory : Nat) (contents : Nat → Option (Flat UInt8)) (drops : Bool)
    (perform : Machine → Op → Machine × Observation) (pageSize : Nat) where
  Rel : Machine → Loose → Prop
  size_eq : ∀ {s loose}, Rel s loose → s.size memory = loose.size
  size_le : ∀ {s loose}, Rel s loose → loose.size ≤ loose.bound ∧ loose.bound ≤ wmemSize / 2
  step : ∀ {s loose op}, Rel s loose → Admissible pageSize contents op → Within loose.size op →
    ∃ t, perform s op = (t, (loose.perform drops contents op).2) ∧
      Rel t (loose.perform drops contents op).1

def CallOk (pageSize : Nat) (contents : Nat → Option (Flat UInt8)) (other : Nat) : Call → Prop
  | .restoreFrom => Admissible pageSize contents (.restoreFrom other)
  | .resize newSize => Admissible pageSize contents (.resize newSize)
  | .sideEffect => True
  | .fillWithData _ _ _ => True

section Follows

variable {memory pageSize other : Nat} {contents : Nat → Option (Flat UInt8)} {drops : Bool}
  {perform : Machine → Op → Machine × Observation} {s : Machine} {loose : Loose}

theorem size_access {size : Nat} {op : Op} (hop : Touches size op) :
    (loose.perform drops contents op).1.size = loose.size := by
  cases op with
  | read offset => rfl
  | write offset value =>
    rw [Loose.perform]
    split <;> rfl
  | resize newSize => cases hop
  | restoreFrom other => cases hop

theorem Follows.accesses (follows : Follows memory contents drops perform pageSize)
    (hrel : follows.Rel s loose) {ops : List Op} (hops : ∀ op ∈ ops, Touches loose.size op) :
    ∃ t, runOps perform s ops = (t, (runOps (Loose.perform drops contents) loose ops).2) ∧
      follows.Rel t (runOps (Loose.perform drops contents) loose ops).1 := by
  induction ops generalizing s loose with
  | nil => exact ⟨s, rfl, hrel⟩
  | cons op ops ih =>
    have hop := hops op List.mem_cons_self
    obtain ⟨hsize, hbound⟩ := follows.size_le hrel
    have hhalf := half_le
    have hwithin : Admissible pageSize contents op ∧ Within loose.size op := by
      cases op with
      | read offset =>
        change offset < loose.size at hop
        exact ⟨show offset < wmemSize by omega, hop⟩
      | write offset value =>
        change offset < loose.size at hop
        exact ⟨show offset < wmemSize by omega, hop⟩
      | resize newSize => cases hop
      | restoreFrom other => cases hop
    obtain ⟨t, hperform, hnext⟩ := follows.step hrel hwithin.1 hwithin.2
    obtain ⟨u, hrest, hlast⟩ := ih hnext fun later hlater => by
      rw [size_access hop]
      exact hops later (List.mem_cons_of_mem op hlater)
    refine ⟨u, ?_, hlast⟩
    simp only [runOps, hperform, hrest]

theorem touches_sideEffect (size : Nat) : ∀ op ∈ sideEffectOps size, Touches size op := by
  intro op hop
  obtain ⟨offset, hoffset, rfl⟩ := List.mem_map.mp hop
  exact List.mem_range.mp hoffset

theorem touches_fillWithData (size start upTo : Nat) (x : UInt8) :
    ∀ op ∈ fillWithDataOps size start upTo x, Touches size op := by
  intro op hop
  obtain ⟨i, hi, rfl⟩ := List.mem_map.mp hop
  rw [List.mem_range] at hi
  show min start size + i < size
  omega

theorem Follows.call (follows : Follows memory contents drops perform pageSize)
    (hrel : follows.Rel s loose) {call : Call} (hcall : CallOk pageSize contents other call) :
    ∃ t, runOps perform s (call.ops other (s.size memory)) =
        (t, (runOps (Loose.perform drops contents) loose (call.ops other loose.size)).2) ∧
      follows.Rel t
        (runOps (Loose.perform drops contents) loose (call.ops other loose.size)).1 := by
  rw [follows.size_eq hrel]
  cases call with
  | restoreFrom =>
    have hop : Admissible pageSize contents (.restoreFrom other) := hcall
    obtain ⟨t, hperform, hnext⟩ := follows.step hrel hop trivial
    exact ⟨t, runOps_singleton hperform, hnext⟩
  | resize newSize =>
    have hop : Admissible pageSize contents (.resize newSize) := hcall
    obtain ⟨t, hperform, hnext⟩ := follows.step hrel hop trivial
    exact ⟨t, runOps_singleton hperform, hnext⟩
  | sideEffect => exact follows.accesses hrel (touches_sideEffect loose.size)
  | fillWithData start upTo x =>
    exact follows.accesses hrel (touches_fillWithData loose.size start upTo x)

theorem Follows.calls (follows : Follows memory contents drops perform pageSize)
    (hrel : follows.Rel s loose) {calls : List Call}
    (hcalls : ∀ call ∈ calls, CallOk pageSize contents other call) :
    ∃ t, runCalls perform (fun t => t.size memory) other s calls =
        (t, (runCalls (Loose.perform drops contents) Loose.size other loose calls).2) ∧
      follows.Rel t (runCalls (Loose.perform drops contents) Loose.size other loose calls).1 := by
  induction calls generalizing s loose with
  | nil => exact ⟨s, rfl, hrel⟩
  | cons call calls ih =>
    obtain ⟨t, hcall, hnext⟩ := follows.call hrel (hcalls call List.mem_cons_self)
    obtain ⟨u, hrest, hlast⟩ := ih hnext fun later hlater =>
      hcalls later (List.mem_cons_of_mem call hlater)
    refine ⟨u, ?_, hlast⟩
    rw [runCalls_cons (fun t : Machine => t.size memory) other call hcall, hrest]
    rfl

theorem Follows.loop (follows : Follows memory contents drops perform pageSize)
    (hrel : follows.Rel s loose) {rounds : List (List Call)}
    (hrounds : ∀ calls ∈ rounds, ∀ call ∈ calls, CallOk pageSize contents other call) :
    runLoop perform (fun t => t.size memory) other s rounds =
      runLoop (Loose.perform drops contents) Loose.size other loose rounds := by
  induction rounds generalizing s loose with
  | nil => rfl
  | cons calls rounds ih =>
    obtain ⟨t, hfirst, hnext⟩ := follows.calls hrel (hrounds calls List.mem_cons_self)
    have hrest := ih hnext fun later hlater => hrounds later (List.mem_cons_of_mem calls hlater)
    simp only [runLoop, hfirst, hrest]

end Follows

/-! ### The variants follow it -/

section Variants

variable {memory pageSize : Nat} {contents : Nat → Option (Flat UInt8)} {flat : Flat UInt8}
  {loose : Loose}

/-- In bounds a memory with protection and a loose one show the same. -/
theorem agrees_step (hagrees : Agrees flat loose) {op : Op} (hop : Within loose.size op) :
    (loose.perform true contents op).2 = (flatPerform contents (fun _ => 0) flat op).2 ∧
      Agrees (flatPerform contents (fun _ => 0) flat op).1 (loose.perform true contents op).1 := by
  have hsize := hagrees.size
  have hsize_le := hagrees.size_le
  cases op with
  | resize newSize => exact ⟨rfl, hagrees.resize newSize⟩
  | restoreFrom other =>
    simp only [Loose.perform, flatPerform]
    cases contents other with
    | none => exact ⟨rfl, hagrees⟩
    | some snap => exact ⟨rfl, hagrees.restored snap⟩
  | read offset =>
    change offset < loose.size at hop
    refine ⟨?_, hagrees⟩
    simp only [Loose.perform, flatPerform]
    rw [if_pos (by omega), if_pos (by omega), hagrees.data]
  | write offset value =>
    change offset < loose.size at hop
    rw [Loose.perform, flatPerform, if_pos (by omega), if_pos (by omega)]
    exact ⟨rfl, hagrees.store (by omega) value⟩

theorem bound_step {drops : Bool} (hbound : loose.bound ≤ wmemSize / 2) {op : Op}
    (hop : Admissible pageSize contents op) :
    (loose.perform drops contents op).1.bound ≤ wmemSize / 2 := by
  cases op with
  | resize newSize => exact Nat.max_le.mpr ⟨hbound, hop.2⟩
  | restoreFrom other =>
    obtain ⟨snap, hsnap, hle⟩ := hop
    simp only [Loose.perform, hsnap]
    exact Nat.max_le.mpr ⟨hbound, hle⟩
  | read offset => exact hbound
  | write offset value =>
    rw [Loose.perform]
    split <;> exact hbound

def protectedFollows {strategy : Strategy} (mode : Mode strategy memory contents fun _ => 0)
    (pageSize : Nat) :
    Follows memory contents true (fun s op => s.perform strategy memory op) pageSize where
  Rel := fun s loose => ∃ flat, Stores memory contents (fun _ => 0) flat s ∧ mode.Tables s ∧
    s.pageSize = pageSize ∧ pageSize ∣ flat.size ∧ Agrees flat loose ∧ loose.bound ≤ wmemSize / 2
  size_eq := fun ⟨_, hs, _, _, _, hagrees, _⟩ => hs.size.trans hagrees.size.symm
  size_le := fun ⟨_, _, _, _, _, hagrees, hbound⟩ => ⟨hagrees.size_le, hbound⟩
  step := by
    rintro s loose op ⟨flat, hs, htables, rfl, haligned, hagrees, hbound⟩ hop hwithin
    obtain ⟨t, hperform, hnext, ht, hpageSize, -, hsize⟩ := mode.perform htables hs haligned hop
    obtain ⟨hseen, hagree⟩ := agrees_step hagrees hwithin
    refine ⟨t, ?_, _, hnext, ht, hpageSize, hsize, hagree, bound_step hbound hop⟩
    rw [hseen]
    exact hperform

def looseFollows {drops : Bool} (mode : LooseMode memory contents drops) (pageSize : Nat) :
    Follows memory contents drops (performWith mode.resizeTo memory) pageSize where
  Rel := fun s loose =>
    Widened memory contents loose s ∧ mode.Bound loose.bound ∧ s.pageSize = pageSize
  size_eq := fun ⟨hs, _⟩ => hs.size
  size_le := fun ⟨hs, _⟩ => ⟨hs.size_le, hs.bound_le⟩
  step := by
    rintro s loose op ⟨hs, hbound, rfl⟩ hop -
    obtain ⟨t, hperform, hnext, hkept, hpageSize⟩ := mode.perform hs hbound hop
    exact ⟨t, hperform, hnext, hkept, hpageSize⟩

end Variants

/-! ### What every operation leaves alone -/

section Kept

variable {memory : Nat} {s t u : Machine}

/-- A reply keeps all tables. -/
def Leaves (s : Machine) : Reply → Prop
  | .resolved t => SameTables s t
  | .signalled _ t => SameTables s t
  | .terminated => True
  | .thrown => True

theorem leaves_zeroPages (s : Machine) (address : Nat) :
    Leaves s (s.countFault.zeroPages address) := by
  rw [zeroPages]
  split
  · trivial
  · exact ⟨rfl, rfl, rfl, rfl, rfl, rfl⟩

theorem leaves_copyPages (s : Machine) (target source : Nat) :
    Leaves s (s.countFault.copyPages target source) := by
  rw [copyPages]
  split
  · trivial
  · split
    · exact ⟨rfl, rfl, rfl, rfl, rfl, rfl⟩
    · trivial

theorem leaves_handleOne (s : Machine) (m : UffdMsg) : Leaves s (s.handleOne m) := by
  simp only [handleOne]
  split
  · trivial
  · split
    · trivial
    · split_ifs
      · trivial
      · trivial
      · split
        · split_ifs
          · exact leaves_copyPages s _ _
          · exact leaves_zeroPages s _
        · exact leaves_zeroPages s _
      · exact SameTables.refl s

/-- An access changes frames and the counter of the handler. -/
theorem sameTables_access (s : Machine) (address : Nat) : SameTables s (s.access address).1 := by
  have hleaves := leaves_handleOne s (s.faultMsg address)
  rw [access]
  split
  · exact .refl s
  · exact .refl s
  · exact sameTables_install s _ _
  · split
    · rename_i t hreply
      rw [hreply] at hleaves
      split <;> exact hleaves
    · rename_i tid t hreply
      rw [hreply] at hleaves
      exact hleaves
    · exact .refl s
    · exact .refl s

theorem sameTables_read (s : Machine) (other offset : Nat) :
    SameTables s (s.read other offset).1 := by
  have hsame := sameTables_access s (s.base other + offset)
  simp only [Machine.read]
  split
  all_goals
    rename_i haccess
    rw [haccess] at hsame
    exact hsame

theorem sameTables_write (s : Machine) (other offset : Nat) (value : UInt8) :
    SameTables s (s.write other offset value).1 := by
  have hsame := sameTables_access s (s.base other + offset)
  simp only [Machine.write]
  split
  all_goals
    rename_i haccess
    rw [haccess] at hsame
  · exact hsame.trans (sameTables_install _ _ _)
  · exact hsame
  · exact hsame

theorem sameTables_copyData (s : Machine) (other memory count : Nat) :
    SameTables s (s.copyData other memory count).1 := by
  induction count with
  | zero => exact .refl s
  | succ count ih =>
    rw [Machine.copyData]
    split
    · rename_i t hfront
      rw [hfront] at ih
      have hread := sameTables_read t other count
      split
      · rename_i u value hvalue
        rw [hvalue] at hread
        have hwrite := sameTables_write u memory count value
        split
        · rename_i hstored
          rw [hstored] at hwrite
          exact (ih.trans hread).trans hwrite
        · exact (ih.trans hread).trans hwrite
      · exact ih.trans hread
    · exact ih

/-- The other memories and the list of the handler are as before. -/
structure Kept (memory : Nat) (s t : Machine) : Prop where
  pageBits : t.pageBits = s.pageBits
  mappings : t.handler.mappings = s.handler.mappings
  memories : ∀ other, other ≠ memory → t.memories other = s.memories other

theorem Kept.trans (hst : Kept memory s t) (htu : Kept memory t u) : Kept memory s u where
  pageBits := htu.pageBits.trans hst.pageBits
  mappings := htu.mappings.trans hst.mappings
  memories := fun other hother => (htu.memories other hother).trans (hst.memories other hother)

theorem SameTables.kept (hsame : SameTables s t) : Kept memory s t :=
  ⟨hsame.pageBits, hsame.mappings, fun other _ => by rw [hsame.memories]⟩

theorem kept_resize (strategy : Strategy) (memory newSize : Nat) (s : Machine) :
    Kept memory s (s.resize strategy memory newSize) := by
  have hmemories : ∀ t : Machine, t.memories = s.memories → ∀ other, other ≠ memory →
      (t.setSize memory newSize).memories other = s.memories other := by
    intro t ht other hother
    simp [setSize, ht, hother]
  cases strategy <;>
    simp only [Machine.resize, resizeWavm, resizeWavmDontneed, resizeWavmUffd] <;>
    split_ifs <;> exact ⟨rfl, rfl, hmemories _ rfl⟩

theorem kept_perform (strategy : Strategy) (memory : Nat) (s : Machine) (op : Op) :
    Kept memory s (s.perform strategy memory op).1 := by
  cases op with
  | resize newSize => exact kept_resize strategy memory newSize s
  | restoreFrom other =>
    rw [Machine.perform, restoreFrom_eq]
    exact (kept_resize strategy memory (s.size other) s).trans
      (SameTables.kept (sameTables_copyData _ other memory _))
  | read offset => exact SameTables.kept (sameTables_read s memory offset)
  | write offset value => exact SameTables.kept (sameTables_write s memory offset value)

theorem kept_runOps (strategy : Strategy) (memory : Nat) (s : Machine) (ops : List Op) :
    Kept memory s (runOps (fun t op => t.perform strategy memory op) s ops).1 := by
  induction ops generalizing s with
  | nil => exact ⟨rfl, rfl, fun _ _ => rfl⟩
  | cons op ops ih => exact (kept_perform strategy memory s op).trans (ih _)

theorem kept_runCalls (strategy : Strategy) (memory other : Nat) (s : Machine)
    (calls : List Call) :
    Kept memory s (runCalls (fun t op => t.perform strategy memory op) (fun t => t.size memory)
      other s calls).1 := by
  induction calls generalizing s with
  | nil => exact ⟨rfl, rfl, fun _ _ => rfl⟩
  | cons call calls ih => exact (kept_runOps strategy memory s _).trans (ih _)

end Kept

/-! ### Iterations are isolated -/

section Isolated

variable {memory base other : Nat} {contents : Nat → Option (Flat UInt8)} {snap : Flat UInt8}
  {strategy : Strategy} {s : Machine}

/-- The calls of an iteration, where the snapshot is there and the sizes are whole pages. -/
theorem iteration_callOk {pageSize : Nat} (hsnap : contents other = some snap)
    (hsize : snap.size = snapSize) (hpages : pageSize ∣ workSize) (x y : UInt8) :
    ∀ call ∈ iteration x y, CallOk pageSize contents other call := by
  have hsnapHalf : snap.size ≤ wmemSize / 2 := by
    rw [hsize]
    decide
  have hworkHalf : workSize ≤ wmemSize / 2 := by decide
  simp only [iteration, List.forall_mem_cons, CallOk, Admissible]
  exact ⟨⟨snap, hsnap, hsnapHalf⟩, trivial, trivial, trivial, ⟨hpages, hworkHalf⟩, trivial, trivial,
    trivial, by simp⟩

theorem iterations_callOk {pageSize : Nat} (hsnap : contents other = some snap)
    (hsize : snap.size = snapSize) (hpages : pageSize ∣ workSize) (inits : List (UInt8 × UInt8)) :
    ∀ calls ∈ iterations inits, ∀ call ∈ calls, CallOk pageSize contents other call := by
  intro calls hcalls
  obtain ⟨init, -, rfl⟩ := List.mem_map.mp hcalls
  exact iteration_callOk hsnap hsize hpages init.1 init.2

theorem agrees_empty : Agrees ⟨0, fun _ => 0⟩ Loose.empty :=
  ⟨rfl, le_refl 0, fun _ => rfl, fun _ _ => rfl⟩

/-- A variant with protection, from an empty memory on. -/
theorem Mode.rel_empty (mode : Mode strategy memory contents fun _ => 0)
    (htables : mode.Tables s) (hs : Stores memory contents (fun _ => 0) ⟨0, fun _ => 0⟩ s) :
    (protectedFollows mode s.pageSize).Rel s .empty :=
  ⟨_, hs, htables, rfl, Nat.dvd_zero _, agrees_empty, Nat.zero_le _⟩

theorem Mode.reuseLoop (mode : Mode strategy memory contents fun _ => 0)
    (htables : mode.Tables s) (hs : Stores memory contents (fun _ => 0) ⟨0, fun _ => 0⟩ s)
    (hsnap : contents other = some snap) (hsize : snap.size = snapSize)
    (hpages : s.pageSize ∣ workSize) (inits : List (UInt8 × UInt8)) :
    reuseLoop strategy memory other s inits = isolatedSeen snap inits := by
  have hloop := (protectedFollows mode s.pageSize).loop (Mode.rel_empty mode htables hs)
    (iterations_callOk hsnap hsize hpages inits)
  rw [Benchmarks.reuseLoop, hloop]
  exact loop_isolated hsnap hsize (fun _ _ => rfl) inits

theorem reuseLoop_dontneed_unprotected (hroom : Room s memory base contents)
    (hsnap : contents other = some snap) (hsize : snap.size = snapSize)
    (hpages : s.pageSize ∣ workSize) (inits : List (UInt8 × UInt8)) :
    reuseLoop (.dontneed false) memory other (s.construct memory base) inits =
      isolatedSeen snap inits := by
  have hperform : (fun (t : Machine) op => t.perform (.dontneed false) memory op) =
      performWith (Unprotected.dontneedMode memory contents).resizeTo memory := by
    funext t op
    exact perform_eq_performWith false memory t op
  have hloop := (looseFollows (Unprotected.dontneedMode memory contents) s.pageSize).loop
    ⟨construct_widened hroom, trivial, rfl⟩ (iterations_callOk hsnap hsize hpages inits)
  rw [reuseLoop, hperform, hloop]
  exact loop_isolated hsnap hsize (fun _ _ => rfl) inits

theorem Room.setSnapshot (hroom : Room s memory base contents) (snapshot : Option Nat) :
    Room (s.setSnapshot snapshot) memory base contents where
  pageBits := hroom.pageBits
  aligned := hroom.aligned
  free := hroom.free
  sources := fun other snap hsnap =>
    (hroom.sources other snap hsnap).keep rfl rfl rfl (fun _ _ => ⟨rfl, rfl⟩) fun _ _ => rfl

/-- A source is left alone by a mapping next to it. -/
theorem Source.remapped {s t : Machine} (hsource : Source s memory other snap)
    (hbits : t.pageBits = s.pageBits) (hother : t.memories other = s.memories other)
    {start : Nat} (hspace : t.space = s.space.remap s.pageSize start wmemSize)
    (hnew : s.base other + snap.size ≤ start ∨ start + wmemSize ≤ s.base other)
    (hnow : s.base other + snap.size ≤ t.base memory ∨ t.base memory + wmemSize ≤ s.base other) :
    Source t memory other snap := by
  have hpageSize : t.pageSize = s.pageSize := by rw [pageSize, hbits, pageSize]
  have hpage : ∀ address, t.page address = s.page address := by
    intro address
    rw [page, hpageSize, page]
  have hbase : t.base other = s.base other := by rw [Machine.base, hother, Machine.base]
  have huncovered : ∀ offset < snap.size,
      covers s.pageSize start wmemSize (s.page (s.base other + offset)) = false := by
    intro offset hoffset
    have hbegin := page_begin hsource.aligned offset
    have hround := round_le_self s.pageSize offset
    simp only [covers, page, hbegin, Bool.and_eq_false_iff, decide_eq_false_iff_not]
    omega
  refine ⟨hsource.ne, ?_, ?_, ?_, ?_, ?_, ?_⟩
  · rw [hpageSize, hbase]
    exact hsource.aligned
  · rw [Machine.size, hother]
    exact hsource.size
  · rw [hpageSize]
    exact hsource.sizeAligned
  · rw [hbase]
    exact hnow
  · intro offset hoffset
    have hread := hsource.readable offset hoffset
    rw [hpage, hbase, hspace]
    simp only [Space.remap, huncovered offset hoffset]
    exact hread
  · intro offset hoffset
    rw [← hsource.bytes offset hoffset, sourceByte, sourceByte, hpage, hbase, hpageSize, hspace]
    simp only [Space.remap, huncovered offset hoffset]
    rfl

/-- After a memory has been destroyed there is room for the next one. -/
theorem Room.again {t : Machine} {fill : Nat → UInt8} {flat : Flat UInt8}
    (hroom : Room s memory base contents) (hkept : Kept memory s t)
    (hs : Stores memory contents fill flat t) : Room (destroy memory t) memory base contents where
  pageBits := hs.pageBits
  aligned := by
    show 2 ^ t.pageBits ∣ base
    rw [hkept.pageBits]
    exact hroom.aligned
  free := by
    show ∀ mapping ∈ t.handler.mappings, _
    rw [hkept.mappings]
    exact hroom.free
  sources := fun other snap hsnap => by
    have hsource := hs.sources other snap hsnap
    have hapart := (hroom.sources other snap hsnap).apart
    have hbase : (s.construct memory base).base other = t.base other := by
      rw [Machine.base, memories_construct s base hsource.ne, Machine.base,
        hkept.memories other hsource.ne]
    rw [hbase, base_construct] at hapart
    have hdestroyed : Source (destroy memory t) memory other snap :=
      Source.remapped hsource rfl rfl rfl hsource.apart hsource.apart
    have hmemories := memories_construct (destroy memory t) base hsource.ne
    have hnow : t.base other + snap.size ≤ ((destroy memory t).construct memory base).base memory ∨
        ((destroy memory t).construct memory base).base memory + wmemSize ≤ t.base other := by
      rw [base_construct]
      exact hapart
    exact Source.remapped hdestroyed rfl hmemories rfl hapart hnow

theorem kept_construct (memory base : Nat) (s : Machine) :
    Kept memory s (s.construct memory base) :=
  ⟨rfl, rfl, fun _ hother => memories_construct s base hother⟩

/-- One iteration on a new memory, and what is left for the others. -/
theorem newMapping_round (hroom : Room s memory base contents)
    (hsnap : contents other = some snap) (hsize : snap.size = snapSize)
    (hpages : s.pageSize ∣ workSize) (x y : UInt8) :
    ∃ t, runCalls (fun t op => t.perform .wavm memory op) (fun t => t.size memory) other
        (s.construct memory base) (iteration x y) =
          (t, iterationSeen snap (fun _ => 0) x y) ∧
      t.pageSize = s.pageSize ∧
      ∀ next, Room s memory next contents → Room (destroy memory t) memory next contents := by
  have hrel := Mode.rel_empty (wavmMode memory contents) construct_guarded
    (construct_stores hroom fun _ => 0)
  obtain ⟨t, hround, ⟨flat, hstores, -, hpageSize, -⟩⟩ :=
    (protectedFollows (wavmMode memory contents) s.pageSize).calls hrel
      (iteration_callOk hsnap hsize hpages x y)
  have hkept := kept_runCalls .wavm memory other (s.construct memory base) (iteration x y)
  rw [hround] at hkept
  obtain ⟨loose, hseen, -⟩ := iteration_loose true .empty hsnap hsize x y
  rw [hseen] at hround
  have hclean : tailOf true .empty = fun _ => 0 := by
    funext offset
    simp [tailOf, Loose.resize, Loose.empty]
  rw [hclean] at hround
  exact ⟨t, hround, hpageSize, fun next hnext =>
    Room.again hnext ((kept_construct memory base s).trans hkept) hstores⟩

theorem newMappingLoop_isolated (hsnap : contents other = some snap)
    (hsize : snap.size = snapSize) (hpages : s.pageSize ∣ workSize)
    {rounds : List (Nat × UInt8 × UInt8)}
    (hrooms : ∀ round ∈ rounds, Room s memory round.1 contents) :
    newMappingLoop memory other s rounds = isolatedSeen snap (rounds.map Prod.snd) := by
  induction rounds generalizing s with
  | nil => rfl
  | cons round rounds ih =>
    obtain ⟨base, x, y⟩ := round
    have hroom := hrooms _ List.mem_cons_self
    obtain ⟨t, hround, hpageSize, hnext⟩ := newMapping_round hroom hsnap hsize hpages x y
    have hdestroyed : (destroy memory t).pageSize = s.pageSize := hpageSize
    have hrest := ih (s := destroy memory t) (hdestroyed ▸ hpages) fun later hlater =>
      hnext later.1 (hrooms later (List.mem_cons_of_mem _ hlater))
    rw [newMappingLoop, hround]
    simp only [hrest, isolatedSeen, List.map_cons]

/-- All loops but one show in every iteration what an iteration on a new memory
shows, whatever the iterations before have left: the pages they have written are
dropped, or the memory is. -/
theorem iterations_isolated (hroom : Room s memory base contents)
    (hsnap : contents other = some snap) (hsize : snap.size = snapSize)
    (hpages : s.pageSize ∣ workSize) (inits : List (UInt8 × UInt8)) :
    reuseLoop .wavm memory other (s.construct memory base) inits = isolatedSeen snap inits ∧
      (∀ useMprotect, reuseLoop (.dontneed useMprotect) memory other (s.construct memory base)
        inits = isolatedSeen snap inits) ∧
      reuseLoop .uffd memory other (((s.construct memory base).setSnapshot none).add memory)
        inits = isolatedSeen snap inits ∧
      ∀ rounds : List (Nat × UInt8 × UInt8), rounds.map Prod.snd = inits →
        (∀ round ∈ rounds, Room s memory round.1 contents) →
        newMappingLoop memory other s rounds = isolatedSeen snap inits := by
  have hstores := construct_stores hroom fun _ => 0
  refine ⟨?_, ?_, ?_, ?_⟩
  · exact Mode.reuseLoop (wavmMode memory contents) construct_guarded hstores hsnap hsize hpages
      inits
  · intro useMprotect
    cases useMprotect with
    | false => exact reuseLoop_dontneed_unprotected hroom hsnap hsize hpages inits
    | true =>
      exact Mode.reuseLoop (Strategies.dontneedMode memory contents) construct_guarded hstores
        hsnap hsize hpages inits
  · have hunset := Room.setSnapshot hroom none
    have hstart : (s.construct memory base).setSnapshot none =
        (s.setSnapshot none).construct memory base := rfl
    have hnone : (s.setSnapshot none).handler.snapshot = none := rfl
    have hwatched := add_watched hunset (by simp [hnone])
    have hfill : handlerFill contents memory (((s.setSnapshot none).construct memory base).add
        memory) = fun _ => 0 := by
      funext offset
      have hadded : (((s.setSnapshot none).construct memory base).add memory).handler.snapshot =
          none := rfl
      rw [handlerFill, hadded]
      rfl
    rw [hfill] at hwatched
    rw [hstart]
    exact Mode.reuseLoop (uffdMode memory contents fun _ => 0) hwatched
      (add_stores hunset fun _ => 0) hsnap hsize hpages inits
  · rintro rounds rfl hrooms
    exact newMappingLoop_isolated hsnap hsize hpages hrooms

/-- Two iterations on a snapshot of zeros, with every variant. -/
theorem iterations_isolated_hosting :
    let snap : Flat UInt8 := ⟨snapSize, fun _ => 0⟩
    let s := hosting snap (some 1)
    let inits : List (UInt8 × UInt8) := [(3, 4), (5, 6)]
    reuseLoop .wavm 0 1 (s.construct 0 memoryBase) inits = isolatedSeen snap inits ∧
      reuseLoop (.dontneed false) 0 1 (s.construct 0 memoryBase) inits =
        isolatedSeen snap inits ∧
      reuseLoop .uffd 0 1 (((s.construct 0 memoryBase).setSnapshot none).add 0) inits =
        isolatedSeen snap inits ∧
      newMappingLoop 0 1 s [(memoryBase, 3, 4), (memoryBase, 5, 6)] =
        isolatedSeen snap inits := by
  intro snap s inits
  have hroom := hosting_room snap (some 1) (by decide) (by decide)
  have hpages : (hosting snap (some 1)).pageSize ∣ workSize := by
    rw [pageSize_hosting]
    decide
  have hsnap : hosted snap 1 = some snap := rfl
  obtain ⟨hwavm, hdontneed, huffd, hnew⟩ :=
    iterations_isolated hroom hsnap rfl hpages inits
  refine ⟨hwavm, hdontneed false, huffd, hnew _ rfl ?_⟩
  simp only [List.forall_mem_cons, List.not_mem_nil, false_implies, implies_true, and_true]
  exact ⟨hroom, hroom⟩

end Isolated

/-! ### Without protection they are not -/

section Leaking

variable {memory base other : Nat} {contents : Nat → Option (Flat UInt8)} {snap : Flat UInt8}
  {s : Machine}

/-- A byte beyond the snapshot that is not zero tells the two apart. -/
theorem iterationSeen_ne {tail : Nat → UInt8} (hstep : tail (snapSize + 1) = tail snapSize + 1)
    (x y : UInt8) : iterationSeen snap tail x y ≠ iterationSeen snap (fun _ => 0) x y := by
  intro hseen
  rw [iterationSeen, iterationSeen, List.append_left_inj, List.append_left_inj,
    List.append_right_inj, bytes, bytes, List.map_inj_left] at hseen
  have hzero : ∀ offset, snapSize ≤ offset → offset < workSize → tail offset = 0 := by
    intro offset hfrom hto
    have hbyte := hseen offset (List.mem_range.mpr hto)
    rw [if_neg (Nat.not_lt.mpr hfrom), if_neg (Nat.not_lt.mpr hfrom)] at hbyte
    exact Observation.byte.inj hbyte
  rw [hzero snapSize (le_refl _) (by decide), hzero (snapSize + 1) (Nat.le_succ _) (by decide)]
    at hstep
  exact absurd hstep (by decide)

/-- A counting fill goes up by one from each byte to the next. -/
theorem fill_succ (x : UInt8) (count : Nat) :
    x + UInt8.ofNat (count + 1) = x + UInt8.ofNat count + 1 := by
  rw [UInt8.ofNat_add, ← UInt8.add_assoc]
  rfl

theorem leakingSeen_ne {tail : Nat → UInt8} (hstep : tail (snapSize + 1) = tail snapSize + 1)
    (inits : List (UInt8 × UInt8)) :
    List.Forall₂ (· ≠ ·) (leakingSeen snap tail inits) (isolatedSeen snap inits) := by
  induction inits generalizing tail with
  | nil => exact .nil
  | cons init inits ih =>
    have hnext : init.2 + UInt8.ofNat (snapSize + 1 - workFillStart) =
        init.2 + UInt8.ofNat (snapSize - workFillStart) + 1 := by
      rw [Nat.sub_add_comm (by decide), fill_succ]
    exact .cons (iterationSeen_ne hstep init.1 init.2) (ih hnext)

/-- A memory with protection is a loose one whose bound is its size. -/
theorem widened_of_stores {flat : Flat UInt8}
    (hs : Stores memory contents (fun _ => 0) flat s) (hguarded : Guarded memory s)
    (haligned : s.pageSize ∣ flat.size) : Widened memory contents ⟨flat.size, flat⟩ s := by
  have hsame : s.setSize memory flat.size = s := by
    rw [← hs.size]
    exact setSize_self s memory
  refine ⟨hs.size, le_refl _, haligned, haligned, ?_, ?_⟩
  · show Stores memory contents _ flat (s.setSize memory flat.size)
    rw [hsame]
    exact hs
  · show Guarded memory (s.setSize memory flat.size)
    rw [hsame]
    exact hguarded

/-- Half of the mapping has been opened, and nothing has been written. -/
def opened : Loose := ⟨wmemSize / 2, ⟨wmemSize / 2, fun _ => 0⟩⟩

theorem bound_opened : opened.bound = wmemSize / 2 := rfl

theorem setup_widened (hroom : Room s memory base contents) :
    Widened memory contents opened
      ((s.construct memory base).resizeWavm memory (wmemSize / 2)) := by
  have hstores := construct_stores hroom fun _ => 0
  have hhalf := pageSize_dvd_half hstores
  obtain ⟨hresized, hguarded⟩ := (wavmMode memory contents).resize construct_guarded hstores
    (Nat.dvd_zero _) hhalf (le_refl _)
  have hflat : (Flat.mk 0 fun _ => (0 : UInt8)).resize (fun _ => 0) (wmemSize / 2) =
      ⟨wmemSize / 2, fun _ => 0⟩ := by
    simp [Flat.resize]
  rw [hflat] at hresized
  apply widened_of_stores hresized hguarded
  rw [pageSize_resize]
  exact hhalf

/-- The loop without protection shows in every iteration the bytes that the fill
before it has left beyond the snapshot, so that no iteration is isolated. -/
theorem noProtection_leaks (hroom : Room s memory base contents)
    (hsnap : contents other = some snap) (hsize : snap.size = snapSize)
    (hpages : s.pageSize ∣ workSize) (setup : UInt8) (inits : List (UInt8 × UInt8)) :
    noProtectionLoop memory other (s.construct memory base) setup inits =
        leakingSeen snap (fun offset => setup + UInt8.ofNat offset) inits ∧
      List.Forall₂ (· ≠ ·)
        (noProtectionLoop memory other (s.construct memory base) setup inits)
        (isolatedSeen snap inits) := by
  have hloop : noProtectionLoop memory other (s.construct memory base) setup inits =
      leakingSeen snap (fun offset => setup + UInt8.ofNat offset) inits := by
    let follows := looseFollows (noProtectMode memory contents) s.pageSize
    have hpageSize : ((s.construct memory base).resizeWavm memory (wmemSize / 2)).pageSize =
        s.pageSize := pageSize_resize .wavm memory (wmemSize / 2) (s.construct memory base)
    have hopened : follows.Rel ((s.construct memory base).resizeWavm memory (wmemSize / 2)) opened :=
      ⟨setup_widened hroom, bound_opened, hpageSize⟩
    obtain ⟨t, hready, hrel⟩ := follows.accesses hopened
      (touches_fillWithData (wmemSize / 2) 0 workSize setup)
    have hfill : fillWithDataOps (wmemSize / 2) 0 workSize setup =
        (List.range workSize).map fun i => Op.write (0 + i) (setup + UInt8.ofNat i) := by
      have hlen : min ((workSize + 2 ^ 64 - min 0 (wmemSize / 2)) % 2 ^ 64)
          (wmemSize / 2 - min 0 (wmemSize / 2)) = workSize := by decide
      have hstart : min 0 (wmemSize / 2) = 0 := by decide
      rw [fillWithDataOps, hlen, hstart]
    have hfits : 0 + workSize ≤ opened.bound := by
      rw [bound_opened]
      decide
    rw [hfill] at hready hrel
    rw [fill_seen opened 0 setup hfits] at hrel
    have hbytes : ∀ offset, snapSize ≤ offset → offset < workSize →
        fillRange 0 workSize setup opened.contents.data offset = setup + UInt8.ofNat offset := by
      intro offset _ hto
      rw [fillRange, if_pos ⟨Nat.zero_le _, by omega⟩, Nat.sub_zero]
    have hround := (follows.loop hrel (iterations_callOk hsnap hsize hpages inits)).trans
      (loop_leaking hsnap hsize hbytes inits)
    have hstart : ((s.construct memory base).resizeWavm memory (wmemSize / 2)).size memory =
        wmemSize / 2 := (setup_widened hroom).size
    have hfilled : (runOps (performWith (resizeNoProtect memory) memory)
        ((s.construct memory base).resizeWavm memory (wmemSize / 2))
        ((List.range workSize).map fun i => Op.write (0 + i) (setup + UInt8.ofNat i))).1 = t :=
      congrArg Prod.fst hready
    simp only [noProtectionLoop, performNoProtect_eq, hstart, hfill, hfilled]
    exact hround
  refine ⟨hloop, ?_⟩
  rw [hloop]
  exact leakingSeen_ne (fill_succ setup snapSize) inits

/-- Three iterations, each of which starts from what the one before has written. -/
theorem noProtection_leaks_hosting :
    let snap : Flat UInt8 := ⟨snapSize, fun _ => 0⟩
    let inits : List (UInt8 × UInt8) := [(1, 2), (3, 4), (5, 6)]
    List.Forall₂ (· ≠ ·)
      (noProtectionLoop 0 1 ((hosting snap none).construct 0 memoryBase) 0 inits)
      (isolatedSeen snap inits) := by
  intro snap inits
  have hroom := hosting_room snap none (by decide) (by decide)
  have hpages : (hosting snap none).pageSize ∣ workSize := by
    rw [pageSize_hosting]
    decide
  exact (noProtection_leaks hroom rfl rfl hpages 0 inits).2

end Leaking

end NdpOffload.Faultspeed.Benchmarks
