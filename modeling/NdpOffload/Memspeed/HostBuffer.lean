import Mathlib.Algebra.Ring.Nat
import NdpOffload.Library.Extents
import NdpOffload.Memspeed.MramCopy

/-! `UpmemDpuBenchmark` of `memspeed/src/upmemdpu.cpp`: the host buffer that `prepare`
maps, `scramble_buffers` fills and `run` hands to the DPU runtime in chunks.  A
`size_t` has 64 bits, and every product has the type that C++ gives it. -/
namespace NdpOffload.Memspeed.HostBuffer

open Library.Extents

/-- `MRAM_BUFFER_DWORDS`, as it is next to a `uint32_t`. -/
def mramBufferDwords : UInt32 := UInt32.ofNat MramCopy.mramBufferDwords

/-- `sizeof(uint32_t)` -/
def wordBytes : UInt64 := 4

/-- Before `prepare`; the options set the size of the buffer. -/
structure UpmemDpuBenchmark where
  bufferSize : UInt64 := 4 * 1024

/-- After `prepare`, with the mapping in bytes. -/
structure Prepared extends UpmemDpuBenchmark where
  dpuCount : UInt32
  cpuBuffer : Nat
  mapped : UInt64

/-- The runtime has allocated so many DPUs.  `none` is the exit after a failed `mmap`. -/
def UpmemDpuBenchmark.prepare (b : UpmemDpuBenchmark) (allocated : UInt32)
    (mmap : UInt64 → Option Nat) : Option Prepared :=
  let length := max b.bufferSize ((allocated * mramBufferDwords).toUInt64 * wordBytes)
  match mmap length with
  | none => none
  | some address =>
      if address = 0 then none
      else some { b with dpuCount := allocated, cpuBuffer := address, mapped := length }

namespace Prepared

variable (p : Prepared)

def mapping : Extent := ⟨p.cpuBuffer, p.mapped.toNat⟩

/-- What `run` gives the DPU, in both directions:
`MRAM_BUFFER_DWORDS` words from `&cpu_buffer[dpu_id * MRAM_BUFFER_DWORDS]`. -/
def chunkOf (dpuId : UInt32) : Extent where
  start := p.cpuBuffer + (dpuId * mramBufferDwords).toNat * wordBytes.toNat
  length := (mramBufferDwords.toUInt64 * wordBytes).toNat

def maxSz : Int64 := (max (p.bufferSize / wordBytes) mramBufferDwords.toUInt64).toInt64

/-- The words that `scramble_buffers` writes; `prepare` calls it without an argument,
which is 0. -/
def scrambled (upto : Int64) : Extent where
  start := p.cpuBuffer
  length := (if upto ≤ 0 ∨ p.maxSz < upto then p.maxSz else upto).toInt.toNat * wordBytes.toNat

/-- The chunks lie in the mapping and do not overlap, and no word outside is scrambled. -/
structure Fits : Prop where
  inside : ∀ i < p.dpuCount, (p.chunkOf i).Within p.mapping
  apart : ∀ i < p.dpuCount, ∀ j < p.dpuCount, i ≠ j → (p.chunkOf i).Apart (p.chunkOf j)
  scrambled : ∀ upto, (p.scrambled upto).Within p.mapping

end Prepared

theorem prepare_eq_some {b : UpmemDpuBenchmark} {allocated : UInt32} {mmap : UInt64 → Option Nat}
    {p : Prepared} (hprepare : b.prepare allocated mmap = some p) :
    p.bufferSize = b.bufferSize ∧ p.dpuCount = allocated ∧
      p.mapped = max b.bufferSize ((allocated * mramBufferDwords).toUInt64 * wordBytes) := by
  simp only [UpmemDpuBenchmark.prepare] at hprepare
  split at hprepare
  · cases hprepare
  · split at hprepare
    · cases hprepare
    · cases hprepare
      exact ⟨rfl, rfl, rfl⟩

theorem toNat_max (a b : UInt64) : (max a b).toNat = max a.toNat b.toNat := by
  change (if a ≤ b then b else a).toNat = _
  split
  · rename_i hle
    exact (Nat.max_eq_right (UInt64.le_iff_toNat_le.mp hle)).symm
  · rename_i hgt
    exact (Nat.max_eq_left (Nat.le_of_not_le fun hle => hgt (UInt64.le_iff_toNat_le.mpr hle))).symm

theorem toNat_mramBufferDwords : mramBufferDwords.toNat = 8388608 := rfl

/-- The product of a DPU number is taken modulo `2^32`: from 512 on it begins anew. -/
theorem toNat_chunkWords (i : UInt32) :
    (i * mramBufferDwords).toNat = i.toNat % 512 * 8388608 := by
  rw [UInt32.toNat_mul, toNat_mramBufferDwords]
  omega

theorem toNat_chunkBytes (d : UInt32) :
    ((d * mramBufferDwords).toUInt64 * wordBytes).toNat = d.toNat % 512 * 33554432 := by
  rw [UInt64.toNat_mul, UInt32.toNat_toUInt64, toNat_chunkWords]
  simp only [wordBytes, UInt64.reduceToNat]
  omega

theorem chunkOf_eq (p : Prepared) (i : UInt32) :
    p.chunkOf i = chunk p.cpuBuffer 33554432 (i.toNat % 512) := by
  simp only [Prepared.chunkOf, chunk, toNat_chunkWords, wordBytes, UInt64.reduceToNat,
    Nat.mul_assoc, Nat.reduceMul, Extent.mk.injEq, true_and]
  decide

theorem toInt_maxSz (p : Prepared) :
    p.maxSz.toInt = max (p.bufferSize.toNat / 4) 8388608 := by
  have hbound := p.bufferSize.toNat_lt
  have hwords : (max (p.bufferSize / wordBytes) mramBufferDwords.toUInt64).toNat =
      max (p.bufferSize.toNat / 4) 8388608 := by
    rw [toNat_max, UInt64.toNat_div]
    rfl
  rw [Prepared.maxSz, ← UInt64.ofNat_toNat (x := max (p.bufferSize / wordBytes) _),
    UInt64.toInt64_ofNat', hwords, Int64.toInt_ofNat_of_lt (by omega)]

/-- Whatever the argument, at most the greater of the two sizes is written. -/
theorem scrambled_length (p : Prepared) (upto : Int64) :
    (p.scrambled upto).length ≤ max p.bufferSize.toNat 33554432 := by
  have hmax := toInt_maxSz p
  have hcount : (if upto ≤ 0 ∨ p.maxSz < upto then p.maxSz else upto).toInt ≤ p.maxSz.toInt := by
    split
    · exact Int.le_refl _
    · rename_i hinside
      rw [not_or, Int64.lt_iff_toInt_lt] at hinside
      exact Int.not_lt.mp hinside.2
  simp only [Prepared.scrambled, wordBytes, UInt64.reduceToNat]
  omega

/-- The buffer fits all chunks up to 511 DPUs.  For more, the product that gives its size
wraps, as do those that give the places of the chunks; for 512 the option can still ask
for enough. -/
theorem chunks_fit_iff {b : UpmemDpuBenchmark} {d : UInt32} (hd : 0 < d)
    {mmap : UInt64 → Option Nat} {p : Prepared} (hprepare : b.prepare d mmap = some p) :
    p.Fits ↔ d.toNat < 512 ∨ d.toNat = 512 ∧ 2 ^ 34 ≤ b.bufferSize.toNat := by
  obtain ⟨hsize, hcount, hmapped⟩ := prepare_eq_some hprepare
  have hlength : p.mapped.toNat = max b.bufferSize.toNat (d.toNat % 512 * 33554432) := by
    rw [hmapped, toNat_max, toNat_chunkBytes]
  have hpos : 0 < d.toNat := by simpa [UInt32.lt_iff_toNat_lt] using hd
  constructor
  · intro hfits
    by_contra hcond
    obtain hmany | hall : 512 < d.toNat ∨ d.toNat = 512 := by omega
    · have hapart := hfits.apart 0 (hcount ▸ hd) 512
        (by rw [hcount, UInt32.lt_iff_toNat_lt]; exact hmany) (by decide)
      rw [chunkOf_eq, chunkOf_eq] at hapart
      exact Extent.not_apart_self (a := chunk p.cpuBuffer 33554432 0) (Nat.succ_pos _) hapart
    · have hlast := hfits.inside 511 (by rw [hcount, UInt32.lt_iff_toNat_lt, hall]; decide)
      rw [chunkOf_eq, Prepared.mapping, chunk_within_iff (by decide), hlength] at hlast
      simp only [UInt32.reduceToNat] at hlast
      omega
  · intro hcond
    have hlt : ∀ i < p.dpuCount, i.toNat < d.toNat := fun i hi => by
      rwa [hcount, UInt32.lt_iff_toNat_lt] at hi
    refine ⟨fun i hi => ?_, fun i hi j hj hne => ?_, fun upto => ?_⟩
    · have hi' := hlt i hi
      rw [chunkOf_eq, Prepared.mapping, chunk_within_iff (by decide), hlength]
      omega
    · have hi' := hlt i hi
      have hj' := hlt j hj
      have hne' : i.toNat ≠ j.toNat := fun heq => hne (UInt32.toNat_inj.mp heq)
      rw [chunkOf_eq, chunkOf_eq]
      exact chunk_apart (by omega)
    · have hwritten := scrambled_length p upto
      rw [hsize] at hwritten
      apply Extent.within_of_le
      · exact Nat.le_refl p.cpuBuffer
      · change p.cpuBuffer + (p.scrambled upto).length ≤ p.cpuBuffer + p.mapped.toNat
        rw [hlength]
        omega

/-- A kernel that maps everything at one place. -/
def mapsAt (address : Nat) (_length : UInt64) : Option Nat := some address

theorem chunks_fit_64 :
    ∃ p, ({} : UpmemDpuBenchmark).prepare 64 (mapsAt 65536) = some p ∧ p.Fits := by
  have hprepare : ({} : UpmemDpuBenchmark).prepare 64 (mapsAt 65536) =
      some ⟨{}, 64, 65536, 2147483648⟩ := rfl
  exact ⟨_, hprepare, (chunks_fit_iff (by decide) hprepare).mpr (.inl (by decide))⟩

/-- With 2560 DPUs the product is a multiple of `2^32`, and nothing is added to the
buffer for them. -/
theorem chunks_overrun_2560 :
    ∃ p, ({} : UpmemDpuBenchmark).prepare 2560 (mapsAt 65536) = some p ∧ p.mapped = 4096 ∧
      ¬ (p.chunkOf 0).Within p.mapping ∧ p.chunkOf 512 = p.chunkOf 0 ∧
      ¬ (p.scrambled 0).Within p.mapping ∧ ¬ p.Fits := by
  have hout : ¬ Extent.Within ⟨65536, 33554432⟩ ⟨65536, 4096⟩ := by
    rw [Extent.within_iff (by decide)]
    decide
  refine ⟨_, rfl, by decide, hout, by decide, hout, fun hfits => ?_⟩
  exact hout (hfits.inside 0 (by decide))

end NdpOffload.Memspeed.HostBuffer
