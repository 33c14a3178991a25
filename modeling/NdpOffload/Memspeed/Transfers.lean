import Mathlib.Algebra.Ring.Int.Defs
import NdpOffload.Library.Extents
import NdpOffload.Library.Loops
import NdpOffload.Memspeed.HostBuffer
import NdpOffload.Memspeed.WramCopy

/-! The benchmarks of `memspeed/src/upmemdpu.cpp` that run on the fixture
`DpuBenchFixture`: the arguments they are registered with, and the host ranges that
they give the DPU runtime for the symbols of `cpucopy.c`, `wramcopy.c` and
`mramcopy.c`. -/
namespace NdpOffload.Memspeed.Transfers

open Library.Extents Library.Loops MramCopy WramCopy
open HostBuffer (wordBytes)

/-! ### Registration -/

/-- The `int64_t`s that a benchmark finds under `state.range(i)`. -/
abbrev Args := List Int64

def Args.range (args : Args) (i : Nat) : Int64 := args.getD i 0

/-- `DpuBenchFixture::dpu_counts()` on a machine with so many DPUs. -/
def dpuCounts (dpucount : UInt32) (fuel : Nat) : Option (List UInt32) :=
  visits (fun n => n ≤ dpucount) (fun n => n * 2) fuel 1

def dpuCopyCpuArgs (maxMemArg : UInt32) (dpuCounts : List UInt32) (fuel : Nat) :
    Option (List Args) :=
  (visits (fun memArg => memArg ≤ maxMemArg) (fun memArg => memArg * 2) fuel 2).map fun memArgs =>
    memArgs.flatMap fun memArg => dpuCounts.flatMap fun dpuCount =>
    [0, 1].flatMap fun broadcast => [0, 1].flatMap fun mram =>
      if mram = 0 ∧ UInt32.ofNat (2 * wramBufferDwords) < memArg then []
      else
        [memArg.toUInt64.toInt64, dpuCount.toUInt64.toInt64, broadcast, 1, mram] ::
          -- allow only non-broadcast reads
          if broadcast = 0 then
            [[memArg.toUInt64.toInt64, dpuCount.toUInt64.toInt64, broadcast, 0, mram]]
          else []

def dpuCopyDpuArgs (maxMemArg : Int32) (dpuCounts : List UInt32) (fuel : Nat) :
    Option (List Args) :=
  (visits (fun memArg => memArg ≤ maxMemArg) (fun memArg => memArg * 2) fuel 2).bind fun memArgs =>
  (visits (fun dpuReps => dpuReps < 256) (fun dpuReps => dpuReps * 8) fuel (1 : UInt32)).map
  fun reps =>
    memArgs.flatMap fun memArg => dpuCounts.flatMap fun dpuCount => reps.flatMap fun dpuReps =>
    [1, 2, 4, 8, 12, 16, 24].flatMap fun dpuThreads : Int32 =>
      if dpuThreads ≤ memArg then
        [memArg.toInt64, dpuCount.toUInt64.toInt64, dpuReps.toUInt64.toInt64,
            dpuThreads.toInt64, 1] ::
          if memArg ≤ Int32.ofNat wramBufferDwords then
            [[memArg.toInt64, dpuCount.toUInt64.toInt64, dpuReps.toUInt64.toInt64,
              dpuThreads.toInt64, 0]]
          else []
      else []

/-- `BM_dpu_copy_between_cpu_dpu` and `BM_dpu_copy_within` -/
inductive Benchmark where
  | copyBetweenCpuDpu
  | copyWithin
  deriving DecidableEq

/-- The `BENCHMARK_REGISTER_F`s. -/
def Benchmark.registered (dpuCounts : List UInt32) (fuel : Nat) : Benchmark → Option (List Args)
  | .copyBetweenCpuDpu => dpuCopyCpuArgs (UInt32.ofNat (2 * mramBufferDwords)) dpuCounts fuel
  | .copyWithin => dpuCopyDpuArgs (Int32.ofNat mramBufferDwords) dpuCounts fuel

/-- The tuple is registered on a machine with so many DPUs. -/
def Registered (dpucount : UInt32) (benchmark : Benchmark) (args : Args) : Prop :=
  ∃ fuel counts tuples, dpuCounts dpucount fuel = some counts ∧
    benchmark.registered counts fuel = some tuples ∧ args ∈ tuples

/-! ### Transfers -/

/-- `MmapArray<uint32_t>`; the process exits when the mapping fails. -/
structure MmapArray where
  length : UInt64
  sizeInBytes : UInt64
  deriving DecidableEq

def MmapArray.new (n : UInt64) : MmapArray := ⟨n, n * wordBytes⟩

/-- The programs by their files; `BM_dpu_copy_within` takes the one for its number of
threads. -/
inductive Program where
  | cpucopy
  | mramcopy (threads : UInt32)
  | wramcopy (threads : UInt32)
  deriving DecidableEq

inductive Symbol where
  | wramBufferA
  | mramBufferA
  | bufferA
  | bufferB
  | runRepetitions
  | copyWordsAmount
  deriving DecidableEq

/-- The size in bytes that the program declares the symbol with. -/
def Program.declared : Program → Symbol → Option Nat
  | .cpucopy, .wramBufferA => some (2 * wramBufferDwords * 4)
  | .cpucopy, .mramBufferA => some (2 * mramBufferDwords * 4)
  | .mramcopy _, .bufferA | .mramcopy _, .bufferB => some (mramBufferDwords * 4)
  | .wramcopy _, .bufferA | .wramcopy _, .bufferB => some (wramBufferDwords * 4)
  | .mramcopy _, .runRepetitions | .wramcopy _, .runRepetitions => some 4
  | .mramcopy _, .copyWordsAmount | .wramcopy _, .copyWordsAmount => some 4
  | _, _ => none

/-- What a host pointer points into: the array, or a variable of its own. -/
inductive Object where
  | cpubuf
  | inDpuReps
  | lenArgU32
  deriving DecidableEq

/-- One range given to the runtime, in bytes from the start of its object. -/
structure Transfer where
  symbol : Symbol
  object : Object
  range : Extent
  toDpu : Bool := true
  deriving DecidableEq

structure Run where
  program : Program
  cpubuf : MmapArray
  transfers : List Transfer
  deriving DecidableEq

/-- `cpubuf.data() + index`, and `&cpubuf[index]` -/
def element (index : UInt64) : Nat := index.toNat * wordBytes.toNat

/-- One iteration of `BM_dpu_copy_between_cpu_dpu`. -/
def copyBetweenCpuDpu (args : Args) (dpuCount : UInt32) : Run :=
  let lenArg := (args.range 0).toUInt64
  let broadcast := args.range 2 ≠ 0
  let toDpu := decide (args.range 3 ≠ 0)
  let useMram := args.range 4 ≠ 0
  let target := if useMram then Symbol.mramBufferA else .wramBufferA
  let totalLen := if broadcast then lenArg else lenArg * dpuCount.toUInt64
  let cpubuf := MmapArray.new totalLen
  { program := .cpucopy
    cpubuf
    transfers :=
      if broadcast then [⟨target, .cpubuf, ⟨element 0, cpubuf.sizeInBytes.toNat⟩, true⟩]
      else (List.range dpuCount.toNat).map fun dpuId =>
        ⟨target, .cpubuf,
          ⟨element (UInt64.ofNat dpuId * lenArg), (lenArg * wordBytes).toNat⟩, toDpu⟩ }

/-- The broadcasts of `BM_dpu_copy_within`.  The half of the bytes is added to a pointer
to words. -/
def copyWithin (args : Args) : Run :=
  let useMram := args.range 4 ≠ 0
  let dpuThreads := (args.range 3).toUInt64.toUInt32
  let lenArg := (args.range 0).toUInt64
  let cpubuf := MmapArray.new (lenArg * 2)
  let half := cpubuf.sizeInBytes / 2
  { program := if useMram then .mramcopy dpuThreads else .wramcopy dpuThreads
    cpubuf
    transfers :=
      [⟨.bufferA, .cpubuf, ⟨element 0, half.toNat⟩, true⟩,
        ⟨.bufferB, .cpubuf, ⟨element half, half.toNat⟩, true⟩,
        ⟨.runRepetitions, .inDpuReps, ⟨0, 4⟩, true⟩,
        ⟨.copyWordsAmount, .lenArgU32, ⟨0, 4⟩, true⟩] }

/-- A benchmark on a set of so many DPUs. -/
def Benchmark.run (args : Args) (dpuCount : UInt32) : Benchmark → Run
  | .copyBetweenCpuDpu => Transfers.copyBetweenCpuDpu args dpuCount
  | .copyWithin => Transfers.copyWithin args

def Run.extent (r : Run) : Object → Extent
  | .cpubuf => ⟨0, r.cpubuf.sizeInBytes.toNat⟩
  | .inDpuReps | .lenArgU32 => ⟨0, 4⟩

def Run.Fits (r : Run) (t : Transfer) : Prop :=
  ∃ size, r.program.declared t.symbol = some size ∧ t.range.length ≤ size

/-- The transfers stay in their objects and in the symbols, and what goes to the two
buffers of a program are disjoint halves. -/
structure Run.Sound (r : Run) : Prop where
  inside : ∀ t ∈ r.transfers, t.range.Within (r.extent t.object)
  fits : ∀ t ∈ r.transfers, r.Fits t
  halves : ∀ a ∈ r.transfers, ∀ b ∈ r.transfers, a.symbol = .bufferA → b.symbol = .bufferB →
    a.range.Apart b.range ∧ a.range.length = r.cpubuf.sizeInBytes.toNat / 2 ∧
      b.range.length = r.cpubuf.sizeInBytes.toNat / 2

/-! ### The size of what is registered -/

def words (args : Args) : Nat := (args.range 0).toUInt64.toNat

/-- At least one word, and no more than a program has room for. -/
structure Sized (mramWords wramWords : Nat) (args : Args) : Prop where
  pos : 0 < words args
  mram : words args ≤ mramWords
  wram : args.range 4 = 0 → words args ≤ wramWords

theorem toNat_toUInt64_toInt64 {x : Int32} (hx : 0 ≤ x.toInt) :
    (x.toInt64.toUInt64.toNat : Int) = x.toInt := by
  have hnonneg : 0 ≤ x.toInt64 := by
    rw [Int64.le_iff_toInt_le, Int32.toInt_toInt64]
    exact hx
  rw [Int64.toNat_toUInt64_of_le hnonneg, Int64.cast_toNatClampNeg _ hnonneg, Int32.toInt_toInt64]

theorem sized_of_mem_dpuCopyCpuArgs {maxMemArg : UInt32} {counts : List UInt32} {fuel : Nat}
    {tuples : List Args} {args : Args} (hmax : maxMemArg.toNat < 2 ^ 31)
    (htuples : dpuCopyCpuArgs maxMemArg counts fuel = some tuples) (hargs : args ∈ tuples) :
    Sized maxMemArg.toNat (2 * wramBufferDwords) args := by
  obtain ⟨memArgs, hvisits, rfl⟩ := Option.map_eq_some_iff.mp htuples
  have hvisited : ∀ x ∈ memArgs, 0 < x.toNat ∧ decide (x ≤ maxMemArg) = true :=
    visits_forall hvisits (P := fun x => 0 < x.toNat) (by decide) fun x hpos hinside => by
      have hle := UInt32.le_iff_toNat_le.mp (of_decide_eq_true hinside)
      rw [UInt32.toNat_mul]
      simp only [UInt32.reduceToNat]
      omega
  obtain ⟨memArg, hmemArg, dpuCount, _, broadcast, _, mram, _, hmember⟩ :
      ∃ memArg ∈ memArgs, ∃ dpuCount ∈ counts, ∃ broadcast ∈ ([0, 1] : List Int64),
        ∃ mram ∈ ([0, 1] : List Int64), args ∈ _ := by
    simpa only [List.mem_flatMap] using hargs
  obtain ⟨hpos, hinside⟩ := hvisited memArg hmemArg
  split at hmember
  · cases hmember
  · rename_i hroom
    obtain ⟨toDpu, rfl⟩ : ∃ toDpu : Int64, args =
        [memArg.toUInt64.toInt64, dpuCount.toUInt64.toInt64, broadcast, toDpu, mram] := by
      rcases List.mem_cons.mp hmember with rfl | hread
      · exact ⟨1, rfl⟩
      · split at hread
        · exact ⟨0, List.mem_singleton.mp hread⟩
        · cases hread
    have hwords : words [memArg.toUInt64.toInt64, dpuCount.toUInt64.toInt64, broadcast, toDpu,
        mram] = memArg.toNat := by simp [words, Args.range]
    refine ⟨by omega, ?_, fun hwram => ?_⟩
    · rw [hwords]
      exact UInt32.le_iff_toNat_le.mp (of_decide_eq_true hinside)
    · have hnot : ¬ UInt32.ofNat (2 * wramBufferDwords) < memArg := fun hlt => hroom ⟨hwram, hlt⟩
      rw [hwords]
      exact UInt32.le_iff_toNat_le.mp (UInt32.not_lt.mp hnot)

theorem sized_of_mem_dpuCopyDpuArgs {maxMemArg : Int32} {counts : List UInt32} {fuel : Nat}
    {tuples : List Args} {args : Args} (hmax : maxMemArg.toInt < 2 ^ 30)
    (htuples : dpuCopyDpuArgs maxMemArg counts fuel = some tuples) (hargs : args ∈ tuples) :
    Sized maxMemArg.toInt.toNat wramBufferDwords args := by
  obtain ⟨memArgs, hvisits, htuples⟩ := Option.bind_eq_some_iff.mp htuples
  obtain ⟨reps, -, rfl⟩ := Option.map_eq_some_iff.mp htuples
  have hvisited : ∀ x ∈ memArgs, 0 < x.toInt ∧ decide (x ≤ maxMemArg) = true :=
    visits_forall hvisits (P := fun x => 0 < x.toInt) (by decide) fun x hpos hinside => by
      have hle := Int32.le_iff_toInt_le.mp (of_decide_eq_true hinside)
      have htwo : (2 : Int32).toInt = 2 := rfl
      rw [Int32.toInt_mul, htwo, Int.bmod_eq_of_le_mul_two] <;> omega
  obtain ⟨memArg, hmemArg, dpuCount, _, dpuReps, _, dpuThreads, _, hmember⟩ :
      ∃ memArg ∈ memArgs, ∃ dpuCount ∈ counts, ∃ dpuReps ∈ reps,
        ∃ dpuThreads ∈ ([1, 2, 4, 8, 12, 16, 24] : List Int32), args ∈ _ := by
    simpa only [List.mem_flatMap] using hargs
  obtain ⟨hpos, hinside⟩ := hvisited memArg hmemArg
  have hle := Int32.le_iff_toInt_le.mp (of_decide_eq_true hinside)
  have hcast := toNat_toUInt64_toInt64 (Int.le_of_lt hpos)
  split at hmember
  · rcases List.mem_cons.mp hmember with rfl | hsmall
    · have hwords : words [memArg.toInt64, dpuCount.toUInt64.toInt64, dpuReps.toUInt64.toInt64,
          dpuThreads.toInt64, 1] = memArg.toInt64.toUInt64.toNat := rfl
      exact ⟨by omega, by omega, fun hwram => absurd (show (1 : Int64) = 0 from hwram) (by decide)⟩
    · split at hsmall
      · rename_i hroom
        cases List.mem_singleton.mp hsmall
        have hwords : words [memArg.toInt64, dpuCount.toUInt64.toInt64, dpuReps.toUInt64.toInt64,
            dpuThreads.toInt64, 0] = memArg.toInt64.toUInt64.toNat := rfl
        have hle' : memArg.toInt ≤ wramBufferDwords := Int32.le_iff_toInt_le.mp hroom
        exact ⟨by omega, by omega, fun _ => by omega⟩
      · cases hsmall
  · cases hmember

/-! ### What the benchmarks transfer -/

variable {args : Args}

theorem toNat_new {n : UInt64} (hsmall : n.toNat < 2 ^ 62) :
    (MmapArray.new n).sizeInBytes.toNat = n.toNat * 4 := by
  rw [MmapArray.new, UInt64.toNat_mul]
  simp only [wordBytes, UInt64.reduceToNat]
  omega

/-- The symbol that `BM_dpu_copy_between_cpu_dpu` uses. -/
def target (args : Args) : Symbol := if args.range 4 ≠ 0 then .mramBufferA else .wramBufferA

theorem target_fits (hsized : Sized (2 * mramBufferDwords) (2 * wramBufferDwords) args) :
    ∃ size, Program.cpucopy.declared (target args) = some size ∧ words args * 4 ≤ size := by
  rw [target]
  split
  · exact ⟨_, rfl, Nat.mul_le_mul_right 4 hsized.mram⟩
  · rename_i hwram
    exact ⟨_, rfl, Nat.mul_le_mul_right 4 (hsized.wram (not_not.mp hwram))⟩

theorem sound_of_target (hsized : Sized (2 * mramBufferDwords) (2 * wramBufferDwords) args)
    {cpubuf : MmapArray} {transfers : List Transfer}
    (hall : ∀ t ∈ transfers, t.symbol = target args ∧ t.object = .cpubuf ∧
      t.range.length = words args * 4 ∧ t.range.Within ⟨0, cpubuf.sizeInBytes.toNat⟩) :
    Run.Sound ⟨.cpucopy, cpubuf, transfers⟩ := by
  refine ⟨fun t ht => ?_, fun t ht => ?_, fun a ha b hb hA => ?_⟩
  · obtain ⟨_, hobject, _, hwithin⟩ := hall t ht
    rw [hobject]
    exact hwithin
  · obtain ⟨hsymbol, _, hlength, _⟩ := hall t ht
    rw [Run.Fits, hsymbol, hlength]
    exact target_fits hsized
  · obtain ⟨hsymbol, _⟩ := hall a ha
    rw [hsymbol, target] at hA
    split at hA <;> cases hA

/-- Each DPU has its chunk of the array, or all have the whole of it. -/
theorem copyBetweenCpuDpu_sound (hsized : Sized (2 * mramBufferDwords) (2 * wramBufferDwords) args)
    (dpuCount : UInt32) : (copyBetweenCpuDpu args dpuCount).Sound := by
  have hwords : words args ≤ 16777216 := hsized.mram
  have hcount := dpuCount.toNat_lt
  have hbytes : ((args.range 0).toUInt64 * wordBytes).toNat = words args * 4 :=
    toNat_new (by change words args < _; omega)
  apply sound_of_target hsized
  intro t ht
  by_cases hbroadcast : args.range 2 ≠ 0
  · simp only [if_pos hbroadcast, List.mem_singleton] at ht
    simp only [if_pos hbroadcast]
    subst ht
    refine ⟨rfl, rfl, hbytes, ?_⟩
    exact Extent.within_of_le (Nat.le_refl _) (Nat.le_refl _)
  · simp only [if_neg hbroadcast, List.mem_map, List.mem_range] at ht
    simp only [if_neg hbroadcast]
    obtain ⟨dpuId, hid, rfl⟩ := ht
    -- no product wraps: the array has at most `2^24 * 2^32` words
    have hall : words args * dpuCount.toNat < 2 ^ 62 :=
      Nat.lt_of_le_of_lt (Nat.mul_le_mul hwords (Nat.le_of_lt hcount)) (by decide)
    have hfirst : dpuId * words args < 2 ^ 62 :=
      Nat.lt_of_le_of_lt (Nat.mul_le_mul (Nat.le_of_lt (Nat.lt_trans hid hcount)) hwords)
        (by decide)
    have htotal : ((args.range 0).toUInt64 * dpuCount.toUInt64).toNat =
        words args * dpuCount.toNat := by
      rw [UInt64.toNat_mul, UInt32.toNat_toUInt64]
      exact Nat.mod_eq_of_lt (Nat.lt_trans hall (by decide))
    have hplace : (UInt64.ofNat dpuId * (args.range 0).toUInt64).toNat = dpuId * words args := by
      rw [UInt64.toNat_mul,
        UInt64.toNat_ofNat_of_lt' (Nat.lt_trans hid (Nat.lt_trans hcount (by decide)))]
      exact Nat.mod_eq_of_lt (Nat.lt_trans hfirst (by decide))
    refine ⟨rfl, rfl, hbytes, ?_⟩
    rw [hbytes, toNat_new (htotal ▸ hall), htotal, element, hplace]
    have hchunk : (⟨dpuId * words args * wordBytes.toNat, words args * 4⟩ : Extent) =
        chunk 0 (words args * 4) dpuId := by
      rw [chunk, Nat.zero_add, Nat.mul_assoc]
      rfl
    rw [hchunk, chunk_within_iff (Nat.mul_pos hsized.pos (by decide)), ← Nat.mul_assoc,
      Nat.mul_comm (words args)]
    exact Nat.mul_le_mul_right 4 (Nat.mul_le_mul_right _ hid)

/-- The array has as many bytes as two buffers of words. -/
theorem toNat_copyWithin (hsized : Sized mramBufferDwords wramBufferDwords args) :
    (copyWithin args).cpubuf.sizeInBytes.toNat = words args * 8 := by
  have hwords : words args ≤ 8388608 := hsized.mram
  have hdouble : ((args.range 0).toUInt64 * 2).toNat = words args * 2 := by
    rw [UInt64.toNat_mul]
    change words args * 2 % 2 ^ 64 = _
    omega
  rw [copyWithin, toNat_new (by omega), hdouble, Nat.mul_assoc]

theorem transfers_copyWithin (hsized : Sized mramBufferDwords wramBufferDwords args) :
    (copyWithin args).transfers =
      [⟨.bufferA, .cpubuf, ⟨0, words args * 4⟩, true⟩,
        ⟨.bufferB, .cpubuf, ⟨words args * 16, words args * 4⟩, true⟩,
        ⟨.runRepetitions, .inDpuReps, ⟨0, 4⟩, true⟩,
        ⟨.copyWordsAmount, .lenArgU32, ⟨0, 4⟩, true⟩] := by
  have hhalf : ((copyWithin args).cpubuf.sizeInBytes / 2).toNat = words args * 4 := by
    rw [UInt64.toNat_div, toNat_copyWithin hsized]
    simp only [UInt64.reduceToNat]
    omega
  have hplace : element ((copyWithin args).cpubuf.sizeInBytes / 2) = words args * 16 := by
    rw [element, hhalf, Nat.mul_assoc]
    rfl
  rw [← hplace, ← hhalf]
  rfl

/-- Both buffers of the program have room for a half. -/
theorem copyWithin_room (hsized : Sized mramBufferDwords wramBufferDwords args) :
    (∃ size, (copyWithin args).program.declared .bufferA = some size ∧ words args * 4 ≤ size) ∧
      ∃ size, (copyWithin args).program.declared .bufferB = some size ∧ words args * 4 ≤ size := by
  rw [copyWithin]
  dsimp only
  split
  · have hle := Nat.mul_le_mul_right 4 hsized.mram
    exact ⟨⟨_, rfl, hle⟩, ⟨_, rfl, hle⟩⟩
  · rename_i hwram
    have hle := Nat.mul_le_mul_right 4 (hsized.wram (not_not.mp hwram))
    exact ⟨⟨_, rfl, hle⟩, ⟨_, rfl, hle⟩⟩

theorem copyWithin_fits (hsized : Sized mramBufferDwords wramBufferDwords args) :
    ∀ t ∈ (copyWithin args).transfers, (copyWithin args).Fits t := by
  obtain ⟨hroomA, hroomB⟩ := copyWithin_room hsized
  have hscalar : ∀ symbol, symbol = .runRepetitions ∨ symbol = .copyWordsAmount →
      (copyWithin args).program.declared symbol = some 4 := by
    intro symbol hsymbol
    rw [copyWithin]
    dsimp only
    split <;> rcases hsymbol with rfl | rfl <;> rfl
  rw [transfers_copyWithin hsized]
  simp only [List.mem_cons, List.not_mem_nil, or_false]
  rintro t (rfl | rfl | rfl | rfl)
  · exact hroomA
  · exact hroomB
  · exact ⟨4, hscalar _ (.inl rfl), Nat.le_refl 4⟩
  · exact ⟨4, hscalar _ (.inr rfl), Nat.le_refl 4⟩

/-- Only what is sent to `buffer_b` leaves its object: it begins as far behind the array
as the array is long. -/
theorem copyWithin_within_iff (hsized : Sized mramBufferDwords wramBufferDwords args) :
    ∀ t ∈ (copyWithin args).transfers,
      t.range.Within ((copyWithin args).extent t.object) ↔ t.symbol ≠ .bufferB := by
  have hpos := hsized.pos
  have hbytes := toNat_copyWithin hsized
  have hle : ∀ {n m : Nat}, n ≤ m → Extent.Within ⟨0, n⟩ ⟨0, m⟩ := fun hnm =>
    Extent.within_of_le (Nat.le_refl 0) (by simpa using hnm)
  rw [transfers_copyWithin hsized]
  simp only [List.mem_cons, List.not_mem_nil, or_false]
  rintro t (rfl | rfl | rfl | rfl)
  · refine ⟨nofun, fun _ => hle ?_⟩
    omega
  · refine ⟨fun hwithin => ?_, fun hne => absurd rfl hne⟩
    rw [Run.extent, Extent.within_iff (by dsimp only; omega), hbytes] at hwithin
    dsimp only at hwithin
    omega
  · exact ⟨nofun, fun _ => hle (Nat.le_refl 4)⟩
  · exact ⟨nofun, fun _ => hle (Nat.le_refl 4)⟩

theorem copyWithin_not_sound (hsized : Sized mramBufferDwords wramBufferDwords args) :
    ¬ (copyWithin args).Sound := by
  intro hsound
  have hmem : ⟨.bufferB, .cpubuf, ⟨words args * 16, words args * 4⟩, true⟩ ∈
      (copyWithin args).transfers := by
    rw [transfers_copyWithin hsized]
    exact List.mem_cons_of_mem _ List.mem_cons_self
  exact (copyWithin_within_iff hsized _ hmem).mp (hsound.inside _ hmem) rfl

/-- The transfers between the host and the DPUs stay inside.  `BM_dpu_copy_within` adds a
number of bytes to a pointer to words, and reads `buffer_b` from behind the array. -/
theorem transfers_sound_iff {dpucount : UInt32} {benchmark : Benchmark}
    (hargs : Registered dpucount benchmark args) (dpuCount : UInt32) :
    (benchmark.run args dpuCount).Sound ↔ benchmark = .copyBetweenCpuDpu := by
  obtain ⟨fuel, counts, tuples, -, htuples, hmem⟩ := hargs
  cases benchmark with
  | copyBetweenCpuDpu =>
    exact ⟨fun _ => rfl, fun _ =>
      copyBetweenCpuDpu_sound (sized_of_mem_dpuCopyCpuArgs (by decide) htuples hmem) dpuCount⟩
  | copyWithin =>
    constructor
    · intro hsound
      exact absurd hsound
        (copyWithin_not_sound (sized_of_mem_dpuCopyDpuArgs (by decide) htuples hmem))
    · rintro ⟨⟩

theorem transfers_sound_two :
    Registered 1 .copyBetweenCpuDpu [2, 1, 0, 1, 0] ∧
      (Benchmark.copyBetweenCpuDpu.run [2, 1, 0, 1, 0] 1).Sound := by
  have hargs : Registered 1 .copyBetweenCpuDpu [2, 1, 0, 1, 0] :=
    ⟨30, [1], _, by decide, rfl, by decide⟩
  exact ⟨hargs, (transfers_sound_iff hargs 1).mpr rfl⟩

/-- The array has 16 bytes, and the second broadcast reads those from 32 to 40. -/
theorem overread_two :
    Registered 1 .copyWithin [2, 1, 1, 1, 1] ∧
      (copyWithin [2, 1, 1, 1, 1]).extent .cpubuf = ⟨0, 16⟩ ∧
      ⟨.bufferB, .cpubuf, ⟨32, 8⟩, true⟩ ∈ (copyWithin [2, 1, 1, 1, 1]).transfers ∧
      ¬ (Benchmark.copyWithin.run [2, 1, 1, 1, 1] 1).Sound := by
  have hmem : ⟨.bufferB, .cpubuf, ⟨32, 8⟩, true⟩ ∈ (copyWithin [2, 1, 1, 1, 1]).transfers := by
    decide
  refine ⟨⟨30, [1], _, by decide, rfl, by decide⟩, by decide, hmem, fun hsound => ?_⟩
  have hinside : Extent.Within ⟨32, 8⟩ ⟨0, 16⟩ := hsound.inside _ hmem
  rw [Extent.within_iff (by decide)] at hinside
  exact absurd hinside (by decide)

end NdpOffload.Memspeed.Transfers
