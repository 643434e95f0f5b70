import Monolith.Dev.Nvme

/-!
# `disk.c`: partitions are windows of a disk

`nvme_read` copies blocks page by page.  A file on the disk is read in bytes, and `nvme_file_read`
divides by the size of a block (`nvmeFileRead_reads`).  The functions of a partition pass a request
on to `pread_blocks` of the disk: `part_pread_blocks` returns blocks where bytes are expected, and
`part_read` multiplies where it should divide.

* `nvmeReadFrom_eq`: fewer than 65536 blocks of at most one page are read as they are on the disk,
  as long as the I/O queue has not had more than 64 commands.
* `nvmeReadFrom_eq_none`: with more blocks, or larger ones, `nvme_read` does not return, because
  `count` has 16 bits and a block has to fit into the page.
* `nvmeReadFrom_late`: from the 65th command on, the wait for it may never end.
* `part_reads_iff`: so a partition is a window of its disk exactly if a block is a byte, or nothing
  is read.
-/

namespace Monolith

open Option List

/-- Bytes in memory or on a disk, from an address on. -/
abbrev Buffer := Nat → BitVec 8

/-- A disk of an NVMe namespace, which has the block size of the namespace, and the bytes on it. -/
structure Disk where
  ns : NvmeNamespace
  bytes : Buffer

/-- `struct partition` -/
structure Partition where
  parent : Disk
  startLba : Nat
  blockCount : Nat

def Disk.blockSize (disk : Disk) : Nat := disk.ns.blockSize

/-- `memcpy` of `length` bytes to `dst` -/
def copyTo (buffer : Buffer) (dst length : Nat) (src : Buffer) : Buffer :=
  fun i => if dst ≤ i ∧ i < dst + length then src (i - dst) else buffer i

/-- What the controller stores at `prp1` for a read command. -/
def Disk.transfer (disk : Disk) (cmd : NvmeCmd) : Buffer :=
  fun i => disk.bytes ((cmd.cmdDword10.toNat + 2 ^ 32 * cmd.cmdDword11.toNat) * disk.blockSize + i)

/-- The I/O queue: how many commands it has had since it was set up, and what is in the DMA page
when the loop ends that waits for a command after the first 64, if it ends. -/
structure IoQueue where
  issued : Nat
  late : Nat → Option Buffer

/-- The loop of `nvme_read` that waits for the completion of a command, for which the controller
stores `page`.  The first 64 commands find the tag 0 in their slots, and the loop ends when they are
completed (`completions_match`).  Later ones find the 1 of the first pass: the loop ends at once
(`wait_ends_early`), whatever is in the page, or never, if the completion with its 0 comes first. -/
def awaitPage (io : IoQueue) (page : Buffer) : Option Buffer :=
  if io.issued < 64 then some page else io.late io.issued

/-- `nvme_read`, from `offset` on: a command for as many blocks as fit into the page, and what is
copied then. -/
def nvmeReadFrom (disk : Disk) (lba blocks : Nat) :
    Nat → IoQueue → Nat → Buffer → Option (Nat × Buffer)
  | 0, _, _, _ => none
  | fuel + 1, io, offset, buffer =>
    if offset < blocks then do
      let count := readCount disk.ns blocks offset
      let dmaPage ← awaitPage io (disk.transfer (NvmeJob.read disk.ns lba blocks offset).cmd)
      nvmeReadFrom disk lba blocks fuel { io with issued := io.issued + 1 } (offset + count)
        (copyTo buffer (offset * disk.blockSize) (count * disk.blockSize) dmaPage)
    else some (blocks, buffer)

/-- `nvme_read_blocks` -/
def nvmeReadBlocks (disk : Disk) (buffer : Buffer) (blocks bOffset : Nat) (io : IoQueue)
    (fuel : Nat) : Option (Nat × Buffer) := nvmeReadFrom disk bOffset blocks fuel io 0 buffer

/-- `nvme_file_read`: what it returns, in bytes, and the buffer. -/
def nvmeFileRead (disk : Disk) (pos : Nat) (buffer : Buffer) (length : Nat) (io : IoQueue)
    (fuel : Nat) : Option (Nat × Buffer) :=
  (nvmeReadFrom disk (pos / disk.blockSize) (length / disk.blockSize) fuel io 0 buffer).map fun r =>
    (r.1 * disk.blockSize % 2 ^ 64, r.2)

/-- `part_pread_blocks` -/
def partPreadBlocks (part : Partition) (buffer : Buffer) (blocks offset : Nat) (io : IoQueue)
    (fuel : Nat) : Option (Nat × Buffer) :=
  nvmeReadBlocks part.parent buffer blocks ((part.startLba + offset) % 2 ^ 64) io fuel

/-- `part_read`, which multiplies by the block size where it should divide. -/
def partRead (part : Partition) (pos : Nat) (buffer : Buffer) (length : Nat) (io : IoQueue)
    (fuel : Nat) : Option (Nat × Buffer) :=
  (nvmeReadBlocks part.parent buffer (length * part.parent.blockSize % 2 ^ 64)
    ((part.startLba + pos * part.parent.blockSize) % 2 ^ 64) io fuel).map fun r =>
      (r.1 * part.parent.blockSize % 2 ^ 64, r.2)

/-- The blocks that a read command is for: `nlb` has 16 bits and is one less than their number. -/
def NvmeCmd.blocks (cmd : NvmeCmd) : List Nat :=
  range' (cmd.cmdDword10.toNat + 2 ^ 32 * cmd.cmdDword11.toNat) (cmd.cmdDword12.toNat % 2 ^ 16 + 1)

/-- The commands of `nvme_read`, from `offset` on. -/
def nvmeReadCmds (ns : NvmeNamespace) (lba blocks : Nat) : Nat → Nat → List NvmeCmd
  | 0, _ => []
  | fuel + 1, offset =>
    if offset < blocks then
      (NvmeJob.read ns lba blocks offset).cmd :: nvmeReadCmds ns lba blocks fuel
      (offset + readCount ns blocks offset)
    else []

/-- The commands of a job and of those that follow it. -/
def NvmeJob.cmds : Nat → Option NvmeJob → List NvmeCmd
  | fuel + 1, some job => job.cmd :: NvmeJob.cmds fuel job.next
  | _, _ => []

/-- They are those of the jobs that `Nvme.step` goes through. -/
theorem nvmeReadCmds_eq_cmds (ns : NvmeNamespace) (lba blocks fuel offset : Nat) :
    nvmeReadCmds ns lba blocks fuel offset =
    NvmeJob.cmds fuel (if offset < blocks then some (.read ns lba blocks offset) else none) := by
  induction fuel generalizing offset with
  | zero => rfl
  | succ fuel ih =>
    rw [nvmeReadCmds]
    split
    · rw [ih]
      rfl
    · rfl

/-- What a call should do when the I/O queue has had `issued` commands, however long they take: it
returns, with the number of bytes, and stores those of the disk from `start` on and nothing else. -/
def Disk.Reads (disk : Disk) (issued : Nat) (buffer : Buffer) (start length : Nat)
    (call : IoQueue → Nat → Option (Nat × Buffer)) : Prop :=
  ∀ late, ∃ fuel, call ⟨issued, late⟩ fuel = some (length, copyTo buffer 0 length fun i =>
    disk.bytes (start + i))

/-- How many commands `nvme_read` needs. -/
def Disk.rounds (disk : Disk) (blocks : Nat) : Nat :=
  (blocks + (0x1000 / disk.blockSize - 1)) / (0x1000 / disk.blockSize)

/-! ## `nvme_read` -/

section Read

variable {disk : Disk} {lba blocks offset : Nat} {buffer : Buffer} {fuel : Nat} {io : IoQueue}

theorem copyTo_zero (dst : Nat) (src : Buffer) : copyTo buffer dst 0 src = buffer := by
  funext i
  rw [copyTo, if_neg (by omega)]

theorem copyTo_copyTo (dst n m : Nat) (src : Buffer) :
    copyTo (copyTo buffer dst n src) (dst + n) m (fun i => src (n + i)) = copyTo buffer dst
    (n + m) src := by
  funext i
  simp only [copyTo]
  by_cases hlo : dst ≤ i ∧ i < dst + n
  · rw [if_neg (by omega), if_pos hlo, if_pos (by omega)]
  by_cases hhi : dst + n ≤ i ∧ i < dst + n + m
  · rw [if_pos hhi, if_pos (by omega)]
    congr 1
    omega
  · rw [if_neg hhi, if_neg hlo, if_neg (by omega)]

theorem transfer_cmd (hlba : lba + blocks ≤ 2 ^ 64) (h : offset < blocks) (i : Nat) :
    disk.transfer (NvmeJob.read disk.ns lba blocks offset).cmd i = disk.bytes
    ((lba + offset) * disk.blockSize + i) := by
  rw [Disk.transfer, NvmeJob.cmd, BitVec.toNat_ofNat, BitVec.toNat_ofNat]
  congr 3
  omega

section Fits

variable (hpos : 0 < disk.blockSize) (hpage : disk.blockSize ≤ 4096) (hblocks : blocks < 65536)

include hpos hpage hblocks

theorem readCount_pos (h : offset < blocks) :
    0 < readCount disk.ns blocks offset ∧ offset + readCount disk.ns blocks offset ≤ blocks := by
  have hone : 1 ≤ 0x1000 / disk.ns.blockSize := (Nat.one_le_div_iff hpos).2 hpage
  rw [readCount]
  split <;> omega

/-- A round is one command. -/
theorem rounds_sub (h : offset < blocks) :
    disk.rounds (blocks - offset) = disk.rounds
    (blocks - (offset + readCount disk.ns blocks offset)) + 1 := by
  have hone : 1 ≤ 0x1000 / disk.blockSize := (Nat.one_le_div_iff hpos).2 hpage
  have hcount : readCount disk.ns blocks offset = min (blocks - offset)
      (0x1000 / disk.blockSize) := by
    rw [readCount, Disk.blockSize]
    split <;> omega
  rw [hcount, Disk.rounds, Disk.rounds]
  generalize 0x1000 / disk.blockSize = per at hone
  by_cases hlast : blocks - offset ≤ per
  · have hfirst : (blocks - offset + (per - 1)) / per = 1 :=
      Nat.div_eq_of_lt_le (by omega) (by omega)
    rw [hfirst, Nat.min_eq_left hlast, show blocks - (offset + (blocks - offset)) + (per - 1) =
      per - 1 by omega, Nat.div_eq_of_lt (by omega)]
  · rw [Nat.min_eq_right (by omega), show blocks - offset + (per - 1) =
      blocks - (offset + per) + (per - 1) + per by omega, Nat.add_div_right _ hone]

variable (hlba : lba + blocks ≤ 2 ^ 64)

include hlba

/-- **`nvme_read`** reads the blocks that it is asked for, with the first 64 commands. -/
theorem nvmeReadFrom_eq {fuel : Nat} (hoffset : offset ≤ blocks) (hfuel : blocks - offset < fuel)
    (hfew : io.issued + disk.rounds (blocks - offset) ≤ 64) :
    nvmeReadFrom disk lba blocks fuel io offset buffer =
    some (blocks, copyTo buffer (offset * disk.blockSize)
      ((blocks - offset) * disk.blockSize) fun i =>
      disk.bytes ((lba + offset) * disk.blockSize + i)) := by
  induction fuel generalizing offset buffer io with
  | zero => omega
  | succ fuel ih =>
    rw [nvmeReadFrom]
    split_ifs with hlt
    · obtain ⟨hcount, hle⟩ := readCount_pos hpos hpage hblocks hlt
      rw [rounds_sub hpos hpage hblocks hlt] at hfew
      generalize readCount disk.ns blocks offset = count at hcount hle hfew
      rw [awaitPage, if_pos (by omega), Option.bind_eq_bind, Option.bind_some,
        ih hle (by omega) (by simp only; omega), funext (transfer_cmd hlba hlt)]
      -- the rest of the blocks goes behind those of this round
      have hsum : (blocks - offset) * disk.blockSize =
          count * disk.blockSize + (blocks - (offset + count)) * disk.blockSize := by
        rw [← Nat.add_mul]
        congr 1
        omega
      rw [hsum, ← copyTo_copyTo]
      simp [Nat.add_mul, add_assoc]
    · obtain rfl : offset = blocks := by omega
      rw [Nat.sub_self, zero_mul, copyTo_zero]

/-- The command of a round is for its blocks, and they fit into the page. -/
theorem blocks_cmd (h : offset < blocks) :
    (NvmeJob.read disk.ns lba blocks offset).cmd.blocks = range' (lba + offset)
    (readCount disk.ns blocks offset) ∧
      readCount disk.ns blocks offset * disk.blockSize ≤ 4096 := by
  obtain ⟨hcount, hle⟩ := readCount_pos hpos hpage hblocks h
  constructor
  · rw [NvmeCmd.blocks, NvmeJob.cmd, BitVec.toNat_ofNat, BitVec.toNat_ofNat, BitVec.toNat_setWidth,
      BitVec.toNat_ofNat]
    congr 1 <;> omega
  · refine (Nat.mul_le_mul_right _ ?_).trans (Nat.div_mul_le_self 0x1000 disk.blockSize)
    rw [readCount, Disk.blockSize]
    split <;> omega

theorem nvmeReadCmds_blocks (hoffset : offset ≤ blocks) (hfuel : blocks - offset < fuel) :
    (nvmeReadCmds disk.ns lba blocks fuel offset).flatMap NvmeCmd.blocks =
      range' (lba + offset) (blocks - offset) ∧
      ∀ cmd ∈ nvmeReadCmds disk.ns lba blocks fuel offset,
        cmd.blocks.length * disk.blockSize ≤ 4096 := by
  induction fuel generalizing offset with
  | zero => omega
  | succ fuel ih =>
    rw [nvmeReadCmds]
    split_ifs with hlt
    · obtain ⟨hcount, hle⟩ := readCount_pos hpos hpage hblocks hlt
      obtain ⟨hcmd, hfits⟩ := blocks_cmd hpos hpage hblocks hlba hlt
      obtain ⟨hrest, hall⟩ := ih hle (by omega)
      refine ⟨?_, forall_mem_cons.2 ⟨by rwa [hcmd, length_range'], hall⟩⟩
      rw [flatMap_cons, hcmd, hrest, ← add_assoc, range'_append_1]
      congr 1
      omega
    · simp [show blocks - offset = 0 by omega]

end Fits

/-- **More than 65535 blocks, or blocks that are larger than a page,** and `nvme_read` does not
return: sooner or later `count` is 0. -/
theorem nvmeReadFrom_eq_none (h : 65536 ≤ blocks - offset ∨ 4096 < disk.blockSize ∧ offset < blocks)
    (fuel : Nat) : nvmeReadFrom disk lba blocks fuel io offset buffer = none := by
  induction fuel generalizing offset buffer io with
  | zero => rfl
  | succ fuel ih =>
    have hcount : readCount disk.ns blocks offset ≤ (blocks - offset) % 2 ^ 16 := by
      rw [readCount]
      split <;> omega
    rw [nvmeReadFrom, if_pos (by omega), Option.bind_eq_bind, Option.bind_eq_none_iff]
    intro dmaPage _
    refine ih (h.imp (fun h => by omega) fun ⟨hpage, hlt⟩ => ⟨hpage, ?_⟩)
    have hzero : readCount disk.ns blocks offset = 0 := by
      rw [readCount, Nat.div_eq_of_lt (show 0x1000 < disk.ns.blockSize from hpage)]
      split <;> omega
    omega

/-- **A 65th command**, and `nvme_read` may not return: the wait for it may never end. -/
theorem nvmeReadFrom_late (hpos : 0 < disk.blockSize) (hpage : disk.blockSize ≤ 4096)
    (hblocks : blocks < 65536) {issued : Nat} (hlt : offset < blocks)
    (hmany : 64 < issued + disk.rounds (blocks - offset)) (fuel : Nat) :
    nvmeReadFrom disk lba blocks fuel ⟨issued, fun _ => none⟩ offset buffer = none := by
  induction fuel generalizing offset buffer issued with
  | zero => rfl
  | succ fuel ih =>
    rw [nvmeReadFrom, if_pos hlt, awaitPage]
    split_ifs with hfirst
    · rw [rounds_sub hpos hpage hblocks hlt] at hmany
      -- there are blocks left, as their commands are too many
      have hleft : offset + readCount disk.ns blocks offset < blocks := by
        by_contra hdone
        have hzero : disk.rounds 0 = 0 := by
          have hone : 1 ≤ 0x1000 / disk.blockSize := (Nat.one_le_div_iff hpos).2 hpage
          rw [Disk.rounds, Nat.zero_add, Nat.div_eq_of_lt (by omega)]
        rw [Nat.sub_eq_zero_of_le (Nat.not_lt.1 hdone), hzero] at hmany
        dsimp only at hfirst
        omega
      show nvmeReadFrom disk lba blocks fuel ⟨issued + 1, fun _ => none⟩ _ _ = none
      exact ih hleft (by omega)
    · rfl

/-- **`nvme_read` transfers what was asked for**, however long its commands take, exactly if it is
asked for fewer than 65536 blocks and needs none but the first 64 commands of the queue: it returns,
its commands are for the blocks from `lba` on, one after the other and a page at most each, and the
bytes of the disk are copied. -/
theorem nvmeRead_transfers (hdvd : disk.blockSize ∣ 4096) (hlba : lba + blocks ≤ 2 ^ 64)
    (issued : Nat) (buffer : Buffer) {fuel : Nat} (hfuel : blocks < fuel) :
    (∀ late, nvmeReadFrom disk lba blocks fuel ⟨issued, late⟩ 0 buffer = some (blocks,
        copyTo buffer 0 (blocks * disk.blockSize) fun i => disk.bytes (lba * disk.blockSize + i))) ∧
      (nvmeReadCmds disk.ns lba blocks fuel 0).flatMap NvmeCmd.blocks = range' lba blocks ∧
      (∀ cmd ∈ nvmeReadCmds disk.ns lba blocks fuel 0, cmd.blocks.length * disk.blockSize ≤ 4096) ↔
    blocks = 0 ∨ blocks < 65536 ∧ issued + disk.rounds blocks ≤ 64 := by
  have hpos := Nat.pos_of_dvd_of_pos hdvd (by decide)
  have hpage := Nat.le_of_dvd (by decide) hdvd
  constructor
  · rintro ⟨hread, -⟩
    refine or_iff_not_imp_left.2 fun h0 => ?_
    have hblocks : blocks < 65536 := by
      by_contra hmany
      cases (nvmeReadFrom_eq_none (.inl (by omega)) fuel).symm.trans (hread fun _ => none)
    refine ⟨hblocks, ?_⟩
    by_contra hmany
    cases (nvmeReadFrom_late hpos hpage hblocks (pos_of_ne_zero h0)
      (Nat.not_le.1 hmany) fuel).symm.trans (hread _)
  · intro h
    have hblocks : blocks < 65536 := by omega
    refine ⟨fun late => ?_, nvmeReadCmds_blocks hpos hpage hblocks hlba (Nat.zero_le _) hfuel⟩
    rcases h with rfl | ⟨-, hfew⟩
    · obtain ⟨fuel, rfl⟩ := Nat.exists_eq_succ_of_ne_zero hfuel.ne'
      rw [nvmeReadFrom, if_neg (Nat.lt_irrefl 0), zero_mul, copyTo_zero]
    · have hread :=
        @nvmeReadFrom_eq disk lba blocks 0 buffer ⟨issued, late⟩ hpos hpage hblocks hlba fuel
        (Nat.zero_le _) hfuel hfew
      rwa [zero_mul] at hread

/-- The commands for 20 blocks of 512 bytes from block 5 on: 8, 8 and 4 blocks. -/
theorem nvmeRead_transfers_twenty :
    (nvmeReadCmds ⟨1, 0x1000, 512⟩ 5 20 21 0).map (·.blocks.length) = [8, 8, 4] ∧
      (nvmeReadCmds ⟨1, 0x1000, 512⟩ 5 20 21 0).flatMap NvmeCmd.blocks = range' 5 20 :=
  ⟨by decide, ((@nvmeRead_transfers ⟨⟨1, 0x1000, 512⟩, fun _ => 0⟩ 5 20 (by decide) (by decide) 0
    (fun _ => 0)
    21 (by decide)).2 (by decide)).2.1⟩

/-- **With 65536 blocks, `nvme_read` does not return**, and its first command is for all of them.
For the 65th page it may not return, or copy what was in the DMA page before. -/
theorem nvmeRead_endless :
    (∀ fuel io, nvmeReadFrom ⟨⟨1, 0x1000, 512⟩, fun _ => 0⟩ 0 65536 fuel io 0 (fun _ => 0) = none) ∧
      (∃ cmd, nvmeReadCmds ⟨1, 0x1000, 512⟩ 0 65536 1 0 = [cmd] ∧
      cmd.blocks.length * 512 = 65536 * 512) ∧
      (∀ fuel, nvmeReadFrom ⟨⟨1, 0x1000, 4096⟩, fun _ => 7⟩ 0 65 fuel ⟨0, fun _ => none⟩ 0
      (fun _ => 0) = none) ∧
      (nvmeReadFrom ⟨⟨1, 0x1000, 4096⟩, fun _ => 7⟩ 0 1 2 ⟨64, fun _ => some fun _ => 3⟩ 0
      (fun _ => 0)).any fun r =>
        r.1 = 1 ∧ r.2 0 = 3 :=
  ⟨fun fuel io => nvmeReadFrom_eq_none (.inl (by decide)) fuel,
    ⟨_, rfl, by rw [NvmeCmd.blocks, length_range']; rfl⟩,
    nvmeReadFrom_late (by decide) (by decide) (by decide) (by decide) (by decide), by decide⟩

theorem nvmeReadFrom_ret {r : Nat × Buffer}
    (h : nvmeReadFrom disk lba blocks fuel io offset buffer = some r) : r.1 = blocks := by
  induction fuel generalizing offset buffer io with
  | zero => cases h
  | succ fuel ih =>
    rw [nvmeReadFrom] at h
    split at h
    · obtain ⟨dmaPage, -, h⟩ := bind_eq_some_iff.1 h
      exact ih h
    · rw [← some.inj h]

/-- Nothing, or a byte at a time. -/
theorem nvmeReadBlocks_reads (buffer : Buffer) (lba : Nat) (io : IoQueue)
    (h : blocks = 0 ∨ disk.blockSize = 1 ∧ blocks < 65536 ∧ io.issued + disk.rounds blocks ≤ 64)
    (hlba : blocks ≠ 0 → lba + blocks ≤ 2 ^ 64) :
    ∃ fuel, nvmeReadBlocks disk buffer blocks (lba % 2 ^ 64) io fuel =
      some (blocks, copyTo buffer 0 blocks fun i => disk.bytes (lba + i)) := by
  rcases h with rfl | ⟨hone, hlt, hfew⟩
  · exact ⟨1, by rw [copyTo_zero]; rfl⟩
  refine ⟨blocks + 1, ?_⟩
  by_cases h0 : blocks = 0
  · rw [h0]
    rfl
  · have hmod : lba % 2 ^ 64 = lba := Nat.mod_eq_of_lt (by omega)
    rw [nvmeReadBlocks, hmod, nvmeReadFrom_eq (by omega) (by omega) hlt (hlba h0) (Nat.zero_le _)
      (by omega) hfew, hone]
    simp

/-- A call that reads something returns for every timing if the first 64 commands are enough. -/
theorem few_of_reads {α : Type} {issued lba : Nat} {f : Nat × Buffer → α} {r : α}
    (hpos : 0 < disk.blockSize) (hpage : disk.blockSize ≤ 4096) (hblocks : blocks < 65536)
    (h0 : blocks ≠ 0)
    (h : ∀ late, ∃ fuel, (nvmeReadBlocks disk buffer blocks lba ⟨issued, late⟩ fuel).map f =
    some r) : issued + disk.rounds blocks ≤ 64 := by
  by_contra hmany
  obtain ⟨fuel, hret⟩ := h fun _ => none
  rw [nvmeReadBlocks, nvmeReadFrom_late hpos hpage hblocks (pos_of_ne_zero h0)
    (Nat.not_le.1 hmany)] at hret
  cases hret

end Read

/-! ## Partitions -/

theorem eq_one_of_mul_twice {bs n length : Nat} (hn : n = length * bs % 2 ^ 64)
    (hlength : n * bs % 2 ^ 64 = length) (hsmall : n < 65536) (hpage : bs ≤ 4096)
    (h0 : length ≠ 0) : bs = 1 ∧ length < 65536 := by
  have hle : n * bs ≤ 65536 * 4096 := Nat.mul_le_mul hsmall.le hpage
  rw [Nat.mod_eq_of_lt (by omega)] at hlength
  have hle' : length * bs ≤ 65536 * 4096 * 4096 := Nat.mul_le_mul (hlength ▸ hle) hpage
  rw [Nat.mod_eq_of_lt (by omega)] at hn
  have hsquare : length * (bs * bs) = length * 1 := by rw [← mul_assoc, ← hn, hlength, mul_one]
  have hone : bs = 1 :=
    Nat.eq_one_of_mul_eq_one_left (Nat.eq_of_mul_eq_mul_left (pos_of_ne_zero h0) hsquare)
  rw [hone, mul_one] at hn
  exact ⟨hone, hn ▸ hsmall⟩

/-- **A partition is a window of its disk exactly where a block is a byte**, and then for fewer than
65536 of them and with the first 64 commands of the queue, or if nothing is read. -/
theorem part_reads_iff {part : Partition} (hpos : 0 < part.parent.blockSize)
    (hfits : (part.startLba + part.blockCount) * part.parent.blockSize ≤ 2 ^ 64) (issued : Nat)
    (buffer : Buffer) : (∀ blocks offset, offset + blocks ≤ part.blockCount →
      (part.parent.Reads issued buffer ((part.startLba + offset) * part.parent.blockSize)
          (blocks * part.parent.blockSize) (partPreadBlocks part buffer blocks offset) ↔
        blocks = 0 ∨ part.parent.blockSize = 1 ∧ blocks < 65536 ∧
        issued + part.parent.rounds blocks ≤ 64)) ∧
    ∀ pos length, part.parent.blockSize ∣ pos → part.parent.blockSize ∣ length →
      pos + length ≤ part.blockCount * part.parent.blockSize →
      (part.parent.Reads issued buffer (part.startLba * part.parent.blockSize + pos) length
          (partRead part pos buffer length) ↔
        length = 0 ∨ part.parent.blockSize = 1 ∧ length < 65536 ∧
        issued + part.parent.rounds length ≤ 64) := by
  refine ⟨fun blocks offset hin => ⟨fun hreads => ?_, fun h late => ?_⟩,
    fun pos length hmul hmul' hin => ⟨fun hreads => ?_, fun h late => ?_⟩⟩
  · obtain ⟨fuel, h⟩ := hreads fun _ => none
    have hret : blocks * part.parent.blockSize = blocks := nvmeReadFrom_ret h
    refine or_iff_not_imp_left.2 fun h0 => ?_
    have hone : part.parent.blockSize = 1 :=
      Nat.eq_of_mul_eq_mul_left (pos_of_ne_zero h0) (by omega)
    have hblocks : blocks < 65536 := by
      by_contra hge
      cases (nvmeReadFrom_eq_none (.inl (by omega)) fuel).symm.trans h
    exact ⟨hone, hblocks, few_of_reads hpos (by omega) hblocks h0 fun late =>
      (hreads late).imp fun fuel h => congrArg (Option.map id) h⟩
  · have hlba : blocks ≠ 0 → part.startLba + offset + blocks ≤ 2 ^ 64 := fun _ =>
      (show _ ≤ part.startLba + part.blockCount by omega).trans
        ((Nat.le_mul_of_pos_right _ hpos).trans hfits)
    obtain ⟨fuel, hcall⟩ :=
      nvmeReadBlocks_reads buffer (part.startLba + offset) ⟨issued, late⟩ h hlba
    refine ⟨fuel, hcall.trans ?_⟩
    rcases h with rfl | ⟨hone, -⟩
    · rw [Nat.zero_mul, copyTo_zero, copyTo_zero]
    · simp [hone]
  · obtain ⟨fuel, h⟩ := hreads fun _ => none
    obtain ⟨r, hr, heq⟩ := map_eq_some_iff.1 h
    have hret := nvmeReadFrom_ret hr
    have hlength := (Prod.mk.inj heq).1
    rw [or_iff_not_imp_left]
    intro h0
    have hreturns : ¬(65536 ≤ r.1 ∨ 4096 < part.parent.blockSize ∧ 0 < r.1) := fun hbig => by
      rw [hret] at hbig
      cases (nvmeReadFrom_eq_none hbig fuel).symm.trans hr
    have hr0 : r.1 ≠ 0 := by
      intro hr0
      rw [hr0, zero_mul] at hlength
      exact h0 hlength.symm
    obtain ⟨hone, hsmall⟩ := eq_one_of_mul_twice hret hlength (by omega) (by omega) h0
    have hblocks : length * part.parent.blockSize % 2 ^ 64 = length := by
      rw [hone, mul_one, Nat.mod_eq_of_lt (by omega)]
    simp only [Disk.Reads, partRead, hblocks] at hreads
    exact ⟨hone, hsmall, few_of_reads hpos (by omega) hsmall h0 hreads⟩
  · rcases h with rfl | ⟨hone, hlt, hfew⟩
    · refine ⟨1, ?_⟩
      simp [partRead, nvmeReadBlocks, nvmeReadFrom, copyTo_zero]
    have hlba : length ≠ 0 → part.startLba + pos + length ≤ 2 ^ 64 := fun _ => by
      rw [hone] at hin hfits
      omega
    obtain ⟨fuel, hcall⟩ :=
      nvmeReadBlocks_reads buffer (part.startLba + pos) ⟨issued, late⟩ (.inr ⟨hone, hlt, hfew⟩) hlba
    refine ⟨fuel, ?_⟩
    rw [partRead, hone, mul_one, mul_one, Nat.mod_eq_of_lt (show length < 2 ^ 64 by omega), hcall,
      map_some, mul_one, Nat.mod_eq_of_lt (show length < 2 ^ 64 by omega), mul_one]

/-- A partition of 100 blocks from block 8 on. -/
def somePart (blockSize : Nat) : Partition :=
  ⟨⟨⟨1, 0x1000, blockSize⟩, fun i => BitVec.ofNat 8 i⟩, 8, 100⟩

theorem part_reads_iff_bytes :
    (somePart 1).parent.Reads 5 (fun _ => 0) 10 3 (partRead (somePart 1) 2 (fun _ => 0) 3) :=
  ((@part_reads_iff (somePart 1) (by decide) (by decide) 5 fun _ => 0).2 2 3 (by decide) (by decide)
    (by decide)).2 (by decide)

/-- **The units.**  A block of 512 bytes is stored and 1 is returned; the file is not read at all,
because `length * block_size` blocks are too many; and with blocks of 16 bytes, 4096 bytes are
stored where 16 are wanted. -/
theorem part_read_units :
    (∀ late, partPreadBlocks (somePart 512) (fun _ => 0) 1 0 ⟨0, late⟩ 2 =
      some (1, copyTo (fun _ => 0) 0 512 fun i => (somePart 512).parent.bytes (8 * 512 + i))) ∧
    (∀ late fuel, partRead (somePart 512) 0 (fun _ => 0) 512 ⟨0, late⟩ fuel = none) ∧
    ∀ late, partRead (somePart 16) 0 (fun _ => 0) 16 ⟨0, late⟩ 257 =
      some (4096, copyTo (fun _ => 0) 0 4096 fun i => (somePart 16).parent.bytes (8 * 16 + i)) := by
  refine ⟨fun late => ?_, fun late fuel => ?_, fun late => ?_⟩
  · exact nvmeReadFrom_eq (by decide) (by decide) (by decide) (by decide) (by decide) (by decide)
      (show 0 + (somePart 512).parent.rounds 1 ≤ 64 by decide)
  · exact map_eq_none_iff.2 (nvmeReadFrom_eq_none (.inl (by decide)) fuel)
  · exact map_eq_some_iff.2
      ⟨_, nvmeReadFrom_eq (by decide) (by decide) (by decide) (by decide) (by decide) (by decide)
        (show 0 + (somePart 16).parent.rounds 256 ≤ 64 by decide), rfl⟩

end Monolith
