import Monolith.Fs.Vfs

/-!
# `fs/fat/fatfs.c`: where the clusters of a volume are

`fatfs_super_init` takes the numbers from the boot sector, and `fatfs_getdents` reads the sector it
finds a cluster at. The reserved sectors are multiplied by the sectors of a cluster, so that this is
right if there is one sector in a cluster, or nothing is reserved (`fatfs_geometry`).
-/

namespace Monolith.Fat

open Fs (Errno)

/-- What is read of `struct bpb`. -/
structure Bpb where
  sectorsPerCluster : BitVec 8
  reservedSectorCount : BitVec 16
  fatCount : BitVec 8
  sectorCount16 : BitVec 16
  fatSize16 : BitVec 16
  sectorCount32 : BitVec 32
  fatSize : BitVec 32
  rootCluster : BitVec 32

structure FatfsSuperblock where
  (clusterCount clusterSize fatCount fatSize fatOffset dataOffset : BitVec 64)
  rootCluster : BitVec 32

def Bpb.totalSectors (bpb : Bpb) : BitVec 64 :=
  if bpb.sectorCount16 ≠ 0 then bpb.sectorCount16.setWidth 64 else bpb.sectorCount32.setWidth 64

/-- `data_sectors`.  The product is one of 32 bits. -/
def Bpb.dataSectors (bpb : Bpb) : BitVec 64 :=
  bpb.totalSectors - bpb.reservedSectorCount.setWidth 64 -
    (bpb.fatCount.setWidth 32 * bpb.fatSize).setWidth 64

/-- `fatfs_super_init`; there is no result if it divides by zero. -/
def fatfsSuperInit (bpb : Bpb) : Option (Except Errno FatfsSuperblock) :=
  let fatOffset := bpb.reservedSectorCount.setWidth 64 * bpb.sectorsPerCluster.setWidth 64
  if bpb.fatSize16 = 0 then
    if bpb.sectorsPerCluster = 0 then none
    else some (.ok {
      clusterCount := bpb.dataSectors / bpb.sectorsPerCluster.setWidth 64
      clusterSize := bpb.sectorsPerCluster.setWidth 64
      fatCount := bpb.fatCount.setWidth 64
      fatSize := bpb.fatSize.setWidth 64
      fatOffset
      dataOffset := fatOffset + bpb.fatCount.setWidth 64 * bpb.fatSize.setWidth 64
      rootCluster := bpb.rootCluster })
  else some (.error .einval)

/-- The sector that `fatfs_getdents` reads. -/
def FatfsSuperblock.sector (sb : FatfsSuperblock) (cluster : BitVec 32) : BitVec 64 :=
  sb.dataOffset + (cluster - 2).setWidth 64 * sb.clusterSize

/-- The sectors before the first cluster. -/
def Bpb.dataStart (bpb : Bpb) :
    Nat := bpb.reservedSectorCount.toNat + bpb.fatCount.toNat * bpb.fatSize.toNat

/-- What is to hold of a boot sector: an error, or numbers that are right for every cluster. -/
def Bpb.Geometry (bpb : Bpb) : Prop :=
  fatfsSuperInit bpb = some (.error .einval) ∨
    bpb.dataSectors.toNat + bpb.dataStart = bpb.totalSectors.toNat ∧
      ∃ sb, fatfsSuperInit bpb = some (.ok sb) ∧ ∀ c, 2 ≤ c →
        (sb.sector c).toNat = bpb.dataStart + (c.toNat - 2) * bpb.sectorsPerCluster.toNat

/-- The first cluster is sought behind the tables only if the reserved sectors are counted once. -/
theorem Bpb.Geometry.condition {bpb : Bpb} (h : bpb.Geometry) (hsize : bpb.fatSize16 = 0) :
    bpb.sectorsPerCluster ≠ 0 ∧ bpb.dataStart ≤ bpb.totalSectors.toNat ∧
      (bpb.sectorsPerCluster = 1 ∨ bpb.reservedSectorCount = 0) := by
  have hfat : bpb.fatCount.toNat * bpb.fatSize.toNat ≤ 255 * (2 ^ 32 - 1) :=
    Nat.mul_le_mul (by omega) (by omega)
  have hprod : bpb.reservedSectorCount.toNat * bpb.sectorsPerCluster.toNat ≤ (2 ^ 16 - 1) * 255 :=
    Nat.mul_le_mul (by omega) (by omega)
  rw [Geometry, fatfsSuperInit, if_pos hsize] at h
  split_ifs at h with hzero
  · simp at h
  obtain ⟨hsum, sb, hsb, hsector⟩ := h.resolve_left (by simp)
  refine ⟨hzero, by omega, ?_⟩
  have htwo := hsector 2 (BitVec.le_refl _)
  simp only [Option.some.injEq, Except.ok.injEq] at hsb
  simp [← hsb, FatfsSuperblock.sector, Bpb.dataStart] at htwo
  have hone : bpb.reservedSectorCount.toNat * bpb.sectorsPerCluster.toNat =
      bpb.reservedSectorCount.toNat := by omega
  by_cases hres : bpb.reservedSectorCount.toNat = 0
  · exact .inr (BitVec.eq_of_toNat_eq hres)
  · exact .inl (BitVec.eq_of_toNat_eq ((Nat.mul_eq_left hres).1 hone))

/-- **Where a cluster is**: the numbers are right, or an error is returned, if and only if there is
one sector in a cluster or nothing is reserved, and the boot sector says that there are as many
sectors as the reserved ones and the tables take. -/
theorem fatfs_geometry (bpb : Bpb) : bpb.Geometry ↔
    bpb.fatSize16 ≠ 0 ∨ bpb.sectorsPerCluster ≠ 0 ∧ bpb.dataStart ≤ bpb.totalSectors.toNat ∧
      (bpb.sectorsPerCluster = 1 ∨ bpb.reservedSectorCount = 0) := by
  refine ⟨fun h => or_iff_not_imp_left.2 fun hsize => h.condition (not_not.1 hsize), fun h => ?_⟩
  by_cases hsize : bpb.fatSize16 = 0
  · obtain ⟨hne, hle, hunit⟩ := h.resolve_left (not_not.2 hsize)
    have hfat : bpb.fatCount.toNat * bpb.fatSize.toNat ≤ 255 * (2 ^ 32 - 1) :=
      Nat.mul_le_mul (by omega) (by omega)
    have hreserved : bpb.reservedSectorCount.toNat * bpb.sectorsPerCluster.toNat =
        bpb.reservedSectorCount.toNat := by
      rcases hunit with hunit | hunit <;> simp [hunit]
    rw [Bpb.dataStart] at hle
    rw [Bpb.Geometry, Bpb.dataStart]
    refine .inr ⟨?_, _, by rw [fatfsSuperInit, if_pos hsize, if_neg hne], fun c hc => ?_⟩
    · have htotal : bpb.totalSectors.toNat < 2 ^ 32 := by
        rw [Bpb.totalSectors]
        split <;> simp <;> omega
      simp [Bpb.dataSectors]
      omega
    · have hsub : (c - 2#32).toNat = c.toNat - 2 := BitVec.toNat_sub_of_le hc
      have hmul : (c.toNat - 2) * bpb.sectorsPerCluster.toNat ≤ 2 ^ 32 * 255 :=
        Nat.mul_le_mul (by omega) (by omega)
      simp [FatfsSuperblock.sector, -BitVec.toNat_sub, hsub]
      omega
  · exact .inl (if_neg hsize)

/-- One sector in a cluster, 32 sectors reserved, and two tables of 8. -/
theorem fatfs_geometry_one : Bpb.dataStart ⟨1, 32, 2, 0, 0, 4096, 8, 2⟩ = 48 ∧
    ∃ sb, fatfsSuperInit ⟨1, 32, 2, 0, 0, 4096, 8, 2⟩ = some (.ok sb) ∧
      ∀ c, 2 ≤ c → (sb.sector c).toNat = 48 + (c.toNat - 2) * 1 :=
  ⟨rfl, (((fatfs_geometry ⟨1, 32, 2, 0, 0, 4096, 8, 2⟩).2 (.inr (by decide))).resolve_left nofun).2⟩

/-- **With 8 sectors in a cluster the first one is sought at sector 272**, and it is at 48; and
without a number of sectors there is a division by zero. -/
theorem fatfs_geometry_eight : Bpb.dataStart ⟨8, 32, 2, 0, 0, 4096, 8, 2⟩ = 48 ∧
    (∃ sb, fatfsSuperInit ⟨8, 32, 2, 0, 0, 4096, 8, 2⟩ = some (.ok sb) ∧
    (sb.sector 2).toNat = 272) ∧ fatfsSuperInit ⟨0, 32, 2, 0, 0, 4096, 8, 2⟩ = none :=
  ⟨rfl, ⟨_, rfl, rfl⟩, rfl⟩

end Monolith.Fat
