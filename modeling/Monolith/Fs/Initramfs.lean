import Mathlib.Data.List.TakeWhile
import Monolith.Fs.Vfs

/-!
# `fs/initramfs.c`: unpacking the initial file system

`initramfs_unpack` goes through a `ustar` archive in memory, from one record to the next: a block of
512 bytes with the name, the mode and the size of a file, in octal digits, and then the file itself,
up to a multiple of 512 bytes.

* `initramfsUnpack` is the loop, as the calls it makes.  `data` is the memory from the archive on,
  and may go on behind its end.
* `archive` writes a list of entries, with anything in the fields that nobody reads.
* `unpack_archive`: **the calls are those for the entries**, one after the other, unless the archive
  is empty, a name does not fit into `path` or a file is empty (`unpack_misreads`).
* `unpack_whole`: just the buffers of whole records are unpacked safely; nothing is checked.
-/

namespace Monolith.Fs

open List

/-! ## The source -/

/-- What `initramfs_unpack` calls.  A write is to the file that was opened last. -/
inductive UnpackCall where
  | vfsMkdir (path : Str) (mode : BitVec 32)
  | vfsCreate (path : Str) (mode : BitVec 32)
  | vfsOpen (path : Str)
  | vfsWrite (bytes : Str)
  | vfsClose
  deriving DecidableEq, Repr

def octDigit (out : BitVec 32) (c : BitVec 8) : BitVec 32 := out <<< 3 ||| (c.signExtend 32 - 0x30)

/-- `oct2uint`, for the bytes of a field. -/
def oct2uint (oct : Str) : BitVec 32 := (oct.takeWhile (· ≠ 0)).foldl octDigit 0

/-- `path`: a slash at the end is cut off. -/
def recordPath (name : Str) :
    Str := slash :: if name.getLast? = some slash then name.dropLast else name

def recordCalls (data path : Str) (mode size : BitVec 32) : List UnpackCall :=
  if data[156]? = some 0x35 then [.vfsMkdir path mode]
  else if data[156]? = some 0x30 then
    [.vfsCreate path mode, .vfsOpen path, .vfsWrite ((data.drop 512).take size.toNat), .vfsClose]
  else []

/-- The `size` of a record. -/
def recordSize (data : Str) : BitVec 32 := oct2uint ((data.drop 124).take 11)

/-- A regular file without contents: `ramfs_write` follows the null pointer of the file that was
just created (`write_spoils`), and does not return. -/
def emptyFile (data : Str) : Prop := data[156]? = some 0x30 ∧ recordSize data = 0

instance (data : Str) : Decidable (emptyFile data) := inferInstanceAs (Decidable (_ ∧ _))

/-- How far it is to the next record. -/
def stride (size : BitVec 32) :
    Nat := ((if size % 512 ≠ 0 then size + (512 - size % 512) else size) + 512).toNat

/-- The loop, with `length` bytes left.  There is no result if `sprintf` writes past the 64 bytes of
`path`, if a file is empty, or if the loop does not end. -/
def unpackFrom : Nat → Str → Nat → Option (List UnpackCall)
  | 0, _, _ => none
  | fuel + 1, data, length =>
    let name := data.takeWhile (· ≠ 0)
    if 63 < name.length ∨ name.length = 0 then some []
    else if 64 < name.length + 2 ∨ emptyFile data then none
    else
      let size := recordSize data
      let calls := recordCalls data (recordPath name) (oct2uint ((data.drop 100).take 7)) size
      if length ≤ stride size then some calls
      else (unpackFrom fuel (data.drop (stride size)) (length - stride size)).map (calls ++ ·)

def initramfsUnpack (data : Str) (length : Nat) : Option (List UnpackCall) :=
  unpackFrom (length + 1) data length

/-! ## Archives -/

/-- A number in `n` octal digits. -/
def octal : Nat → Nat → Str
  | 0, _ => []
  | n + 1, v => octal n (v / 8) ++ [BitVec.ofNat 8 (0x30 + v % 8)]

/-- A file or a directory, with the fields of its record that are not read. -/
structure Entry where
  name : Str
  mode : Nat
  contents : Option Str
  /-- The name of a directory is written with a slash behind it. -/
  slashed : Bool
  ids : Str
  times : Str
  rest : Str

namespace Entry

variable (e : Entry)

def written : Str := if e.contents = none ∧ e.slashed = true then e.name ++ [slash] else e.name

def bytes : Str := e.contents.getD []

def type : BitVec 8 := if e.contents = none then 0x35 else 0x30

/-- The record of an entry, and its contents. -/
def encode : Str :=
  e.written ++ (replicate (100 - e.written.length) 0 ++
    (octal 7 e.mode ++ (e.ids ++ (octal 11 e.bytes.length ++ (e.times ++ (e.type ::
    (e.rest ++ (e.bytes ++ replicate ((512 - e.bytes.length % 512) % 512) 0))))))))

def calls : List UnpackCall :=
  match e.contents with
  | none => [.vfsMkdir (slash :: e.name) (BitVec.ofNat 32 e.mode)]
  | some bytes => [.vfsCreate (slash :: e.name) (BitVec.ofNat 32 e.mode),
    .vfsOpen (slash :: e.name), .vfsWrite bytes, .vfsClose]

/-- The entries that have a record. -/
structure Ok : Prop where
  name : 1 ≤ e.name.length ∧ e.name.length ≤ 62
  nul : 0 ∉ e.name
  last : e.name.getLast? ≠ some slash
  mode : e.mode < 8 ^ 7
  ids : e.ids.length = 17
  times : e.times.length = 21
  rest : e.rest.length = 355

end Entry

/-- The archive of a list of entries, with or without a block of zeros at its end. -/
def archive (es : List Entry) (terminated : Bool) : Str :=
  es.flatMap Entry.encode ++ if terminated then replicate 512 0 else []

/-! ## Octal numbers -/

@[simp] theorem length_octal (n v : Nat) : (octal n v).length = n := by
  induction n generalizing v with
  | zero => rfl
  | succ n ih => rw [octal, length_append, ih, length_singleton]

variable {n v fuel : Nat}

theorem ne_zero_of_mem_octal {c : BitVec 8} (h : c ∈ octal n v) : c ≠ 0 := by
  induction n generalizing v with
  | zero => cases h
  | succ n ih =>
    have hdigit : ∀ d < 8, BitVec.ofNat 8 (0x30 + d) ≠ 0 := by decide
    rcases mem_append.1 h with h | h
    · exact ih h
    · exact mem_singleton.1 h ▸ hdigit (v % 8) (Nat.mod_lt v (by decide))

theorem octDigit_eq {d : Nat} (x : Nat) (hd : d < 8) :
    octDigit (BitVec.ofNat 32 x) (BitVec.ofNat 8 (0x30 + d)) = BitVec.ofNat 32 (8 * x + d) := by
  have hdigit : ∀ d < 8, (BitVec.ofNat 8 (0x30 + d)).signExtend 32 - 0x30 = BitVec.ofNat 32 d := by
    decide
  have hshift : (BitVec.ofNat 32 x <<< 3).toNat = 2 ^ 3 * (x % 2 ^ 29) := by
    rw [BitVec.toNat_shiftLeft, BitVec.toNat_ofNat]
    omega
  apply BitVec.eq_of_toNat_eq
  rw [octDigit, hdigit d hd, BitVec.toNat_or, hshift, BitVec.toNat_ofNat, BitVec.toNat_ofNat,
    Nat.mod_eq_of_lt (by omega : d < 2 ^ 32), ← Nat.two_pow_add_eq_or_of_lt hd]
  omega

theorem foldl_octal (n x v : Nat) :
    (octal n v).foldl octDigit (BitVec.ofNat 32 x) = BitVec.ofNat 32 (x * 8 ^ n + v % 8 ^ n) := by
  induction n generalizing v with
  | zero => simp [octal, Nat.mod_one]
  | succ n ih =>
    rw [octal, foldl_append, ih, foldl_cons, foldl_nil, octDigit_eq _ (Nat.mod_lt v (by decide)),
      pow_succ, mul_comm (8 ^ n) 8, Nat.mod_mul, Nat.mul_add, Nat.mul_left_comm, add_assoc,
      add_comm (v % 8)]

theorem oct2uint_octal (h : v < 8 ^ n) : oct2uint (octal n v) = BitVec.ofNat 32 v := by
  have hall : (octal n v).takeWhile (· ≠ 0) = octal n v :=
    takeWhile_eq_self_iff.2 fun c hc => decide_eq_true (ne_zero_of_mem_octal hc)
  rw [oct2uint, hall]
  simpa [Nat.mod_eq_of_lt h] using foldl_octal n 0 v

/-! ## Records -/

namespace Entry

variable {e : Entry}

/-- The record can be unpacked: its path fits, and the file has contents. -/
def Fits (e : Entry) : Prop := e.written.length ≤ 62 ∧ e.contents ≠ some []

variable (h : e.Ok)

include h

theorem recordPath_written : recordPath e.written = slash :: e.name := by
  rw [recordPath, written]
  split
  · simp
  · rw [if_neg h.last]

theorem Ok.written_length : 1 ≤ e.written.length ∧ e.written.length ≤ 63 := by
  have hname := h.name
  rw [written]
  split
  · rw [length_append, length_singleton]
    omega
  · omega

theorem Ok.takeWhile (tail : Str) : (e.encode ++ tail).takeWhile (· ≠ 0) = e.written := by
  have hnul : ∀ c ∈ e.written, decide (c ≠ 0) = true := by
    intro c hc
    refine decide_eq_true fun h0 => h.nul ?_
    rw [written] at hc
    split at hc
    · rw [h0] at hc
      simpa [slash] using hc
    · exact h0 ▸ hc
  have hlen := h.written_length
  obtain ⟨k, hk⟩ : ∃ k, 100 - e.written.length = k + 1 := ⟨99 - e.written.length, by omega⟩
  rw [encode, append_assoc, takeWhile_append_of_pos hnul, hk]
  simp

theorem Ok.fields (tail : Str) : ((e.encode ++ tail).drop 100).take 7 = octal 7 e.mode ∧
      ((e.encode ++ tail).drop 124).take 11 = octal 11 e.bytes.length ∧
      (e.encode ++ tail)[156]? = some e.type ∧
      ((e.encode ++ tail).drop 512).take e.bytes.length = e.bytes := by
  have hlen := h.written_length
  have hname : (e.written ++ replicate (100 - e.written.length) 0).length = 100 := by
    rw [length_append, length_replicate]
    omega
  rw [encode, ← append_assoc e.written]
  generalize e.written ++ replicate (100 - e.written.length) 0 = name at hname
  rw [← head?_drop]
  simp [drop_append, drop_eq_nil_of_le, hname, h.ids, h.times, h.rest]

theorem length_encode : e.encode.length = (e.bytes.length + 511) / 512 * 512 + 512 := by
  have hlen := h.written_length
  simp only [encode, length_append, length_cons, length_replicate, length_octal, h.ids, h.times,
    h.rest]
  omega

variable (hsize : e.bytes.length < 2 ^ 31)

include hsize

theorem stride_eq : stride (BitVec.ofNat 32 e.bytes.length) = e.encode.length := by
  have hnat : (BitVec.ofNat 32 e.bytes.length).toNat = e.bytes.length := Nat.mod_eq_of_lt (by omega)
  have hmod : (BitVec.ofNat 32 e.bytes.length % 512).toNat = e.bytes.length % 512 := by
    simp [BitVec.toNat_umod, hnat]
  have h512 : (512 : BitVec 32).toNat = 512 := rfl
  rw [stride, length_encode h]
  split_ifs with hne
  · have hpos : e.bytes.length % 512 ≠ 0 := fun h0 => hne (BitVec.eq_of_toNat_eq (hmod.trans h0))
    rw [BitVec.toNat_add, BitVec.toNat_add, BitVec.toNat_sub]
    omega
  · have hzero : e.bytes.length % 512 = 0 := by rw [← hmod, not_not.1 hne]; rfl
    rw [BitVec.toNat_add]
    omega

theorem recordCalls_eq (tail : Str) :
    recordCalls (e.encode ++ tail) (slash :: e.name) (BitVec.ofNat 32 e.mode)
    (BitVec.ofNat 32 e.bytes.length) =
      e.calls := by
  obtain ⟨-, -, htype, hbytes⟩ := h.fields tail
  have hnat : (BitVec.ofNat 32 e.bytes.length).toNat = e.bytes.length := Nat.mod_eq_of_lt (by omega)
  rw [recordCalls, htype, hnat, hbytes, type, calls, bytes]
  cases e.contents <;> simp

theorem recordSize_encode (tail : Str) :
    recordSize (e.encode ++ tail) = BitVec.ofNat 32 e.bytes.length := by
  rw [recordSize, (h.fields tail).2.1]
  exact oct2uint_octal (lt_trans hsize (by decide))

theorem emptyFile_encode (tail : Str) : emptyFile (e.encode ++ tail) ↔ e.contents = some [] := by
  have hzero : BitVec.ofNat 32 e.bytes.length = 0 ↔ e.bytes = [] := by
    rw [← length_eq_zero_iff, ← BitVec.toNat_inj, BitVec.toNat_ofNat, Nat.mod_eq_of_lt (by omega)]
    rfl
  rw [emptyFile, (h.fields tail).2.2.1, recordSize_encode h hsize, hzero, type, bytes]
  cases e.contents <;> simp

theorem unpackFrom_encode (fuel : Nat) (tail : Str) (n : Nat) :
    (e.Fits → unpackFrom (fuel + 1) (e.encode ++ tail) (e.encode.length + n) =
      if n = 0 then some e.calls else (unpackFrom fuel tail n).map (e.calls ++ ·)) ∧
    (¬e.Fits → unpackFrom (fuel + 1) (e.encode ++ tail) (e.encode.length + n) = none) := by
  obtain ⟨hmode, -⟩ := h.fields tail
  have hpos := h.written_length
  rw [unpackFrom]
  simp only [h.takeWhile tail, hmode, recordSize_encode h hsize tail, emptyFile_encode h hsize tail,
    oct2uint_octal h.mode, recordPath_written h, recordCalls_eq h hsize tail, stride_eq h hsize,
    drop_left, Nat.add_sub_cancel_left]
  rw [if_neg (by omega), Fits]
  constructor
  · rintro ⟨hshort, hfull⟩
    rw [if_neg (not_or.2 ⟨by omega, hfull⟩)]
    exact if_congr (by omega) rfl rfl
  · intro hbad
    refine if_pos ?_
    rw [not_and_or, not_not] at hbad
    exact hbad.imp_left fun hlong => by omega

end Entry

/-! ## Archives are read back -/

theorem unpackFrom_archive {es : List Entry} {terminated : Bool} (hok : ∀ e ∈ es, e.Ok)
    (hsize : (es.map fun e => e.bytes.length).sum < 2 ^ 31) (hne : es ≠ [] ∨ terminated = true)
    (behind : Str) (hfuel : (archive es terminated).length < fuel) :
    ((∀ e ∈ es, e.Fits) → unpackFrom fuel (archive es terminated ++ behind)
    (archive es terminated).length =
      some (es.flatMap Entry.calls)) ∧
    ((∃ e ∈ es, ¬e.Fits) → unpackFrom fuel (archive es terminated ++ behind)
    (archive es terminated).length = none) := by
  induction es generalizing fuel with obtain ⟨fuel, rfl⟩ :=
    Nat.exists_eq_succ_of_ne_zero (Nat.ne_zero_of_lt hfuel)
  | nil =>
    obtain rfl := hne.resolve_left fun h => h rfl
    exact ⟨fun _ => rfl, fun ⟨e, he, _⟩ => nomatch he⟩
  | cons e es ih =>
    rw [forall_mem_cons] at hok
    rw [map_cons, sum_cons] at hsize
    have hcons : archive (e :: es) terminated = e.encode ++ archive es terminated := by
      rw [archive, flatMap_cons, append_assoc, archive]
    have hlen := Entry.length_encode hok.1
    rw [hcons, length_append] at hfuel
    obtain ⟨hfits, hbad⟩ :=
      Entry.unpackFrom_encode hok.1 (by omega) fuel (archive es terminated ++ behind)
      (archive es terminated).length
    rw [hcons, append_assoc, length_append]
    by_cases hfirst : e.Fits
    swap
    · exact ⟨fun hall => absurd (hall e mem_cons_self) hfirst, fun _ => hbad hfirst⟩
    rw [hfits hfirst]
    by_cases hend : es = [] ∧ terminated = false
    · obtain ⟨rfl, rfl⟩ := hend
      exact ⟨fun _ =>
        by simp [archive], fun ⟨e', he', hnot⟩ => absurd (mem_singleton.1 he' ▸ hfirst) hnot⟩
    have hmore : es ≠ [] ∨ terminated = true := by simpa [or_iff_not_imp_left] using hend
    have hpos : (archive es terminated).length ≠ 0 := by
      rcases hmore with hes | rfl
      · obtain ⟨e', es', rfl⟩ := exists_cons_of_ne_nil hes
        have := Entry.length_encode (hok.2 e' mem_cons_self)
        rw [archive, flatMap_cons, length_append, length_append]
        omega
      · rw [archive, length_append, if_pos rfl, length_replicate]
        omega
    obtain ⟨hgood, hnone⟩ := @ih fuel hok.2 (by omega) hmore (by omega)
    rw [if_neg hpos]
    refine ⟨fun hall => ?_, fun ⟨e', he', hnot⟩ => ?_⟩
    · rw [hgood (forall_mem_cons.1 hall).2]
      rfl
    · rcases mem_cons.1 he' with rfl | he'
      · exact absurd hfirst hnot
      · rw [hnone ⟨e', he', hnot⟩]
        rfl

/-- A directory, with zeros in the fields that are not read. -/
def directory (name : Str) (slashed : Bool) : Entry :=
  ⟨name, 0o755, none, slashed, replicate 17 0, replicate 21 0, replicate 355 0⟩

theorem directory_ok {name : Str} {slashed : Bool} (h : 1 ≤ name.length ∧ name.length ≤ 62)
    (hnul : 0 ∉ name) (hlast : name.getLast? ≠ some slash) : (directory name slashed).Ok :=
  ⟨h, hnul, hlast, (by decide : 0o755 < 8 ^ 7), length_replicate, length_replicate,
    length_replicate⟩

/-- A record behind an empty archive. -/
theorem unpack_empty :
    initramfsUnpack (directory [0x64] false).encode 0 = some [.vfsMkdir [slash, 0x64] 0o755] := by
  decide +kernel

/-- The directory `/d`, written `d/`, and the file `/f` with the contents `hi`. -/
def smallArchive : List Entry :=
  [directory [0x64] true, { directory [0x66] false with contents := some [0x68, 0x69] }]

/-- An empty file, and a directory behind it. -/
def emptyArchive : List Entry :=
  [{ directory [0x66] false with contents := some [] }, directory [0x64] false]

/-- Where the loop looks for records, and the sizes it finds there. -/
def recordsFrom : Nat → Str → Nat → Nat → List (Nat × BitVec 32)
  | 0, _, _, _ => []
  | fuel + 1, data, length, offset =>
    let name := data.takeWhile (· ≠ 0)
    if 63 < name.length ∨ name.length = 0 then [(offset, 0)]
    else
      let next := stride (recordSize data)
      (offset, recordSize data) ::
        if length ≤ next then [] else recordsFrom fuel (data.drop next) (length - next)
          (offset + next)

/-- A buffer of whole records, up to a block whose name is empty or too long, or up to its end, with
names of at most 62 bytes, no empty file, and sizes that do not wrap around. -/
inductive Whole : Str → Prop
  | stop {data : Str} (name : 63 < (data.takeWhile (· ≠ 0)).length ∨
    (data.takeWhile (· ≠ 0)).length = 0)
      (fits : 512 ≤ data.length) : Whole data
  | record {data : Str} (name : 1 ≤ (data.takeWhile (· ≠ 0)).length ∧
    (data.takeWhile (· ≠ 0)).length ≤ 62)
      (full : ¬emptyFile data) (advances : 512 ≤ stride (recordSize data))
      (fits : 512 + (recordSize data).toNat ≤ data.length)
      (rest : stride (recordSize data) < data.length →
      Whole (data.drop (stride (recordSize data)))) : Whole data

/-- What is to hold of a record that the loop looks at: it is in the buffer with its contents, and
the loop goes on. -/
def RecordIn (limit : Nat) (r : Nat × BitVec 32) : Prop :=
  r.1 + 512 + r.2.toNat ≤ limit ∧ 512 ≤ stride r.2

theorem unpackFrom_iff {data : Str} (hfuel : data.length < fuel) (offset : Nat) :
    (unpackFrom fuel data data.length).isSome ∧
      (∀ r ∈ recordsFrom fuel data data.length offset, RecordIn (offset + data.length) r) ↔
      Whole data := by
  induction fuel generalizing data offset with
  | zero => omega
  | succ fuel ih =>
    rw [unpackFrom, recordsFrom]
    dsimp only
    by_cases hstop : 63 < (data.takeWhile (· ≠ 0)).length ∨ (data.takeWhile (· ≠ 0)).length = 0
    · rw [if_pos hstop, if_pos hstop]
      have hzero : stride 0 = 512 := rfl
      simp only [Option.isSome_some, true_and, mem_singleton, forall_eq, RecordIn, hzero]
      constructor
      · rintro ⟨hfits, -⟩
        exact .stop hstop (by simp at hfits; omega)
      · rintro (⟨-, hfits⟩ | ⟨hname, -⟩)
        · simp
          omega
        · omega
    rw [if_neg hstop, if_neg hstop]
    by_cases hbad : 64 < (data.takeWhile (· ≠ 0)).length + 2 ∨ emptyFile data
    · rw [if_pos hbad]
      refine iff_of_false (fun h => Bool.false_ne_true h.1) ?_
      rintro (⟨hname, -⟩ | ⟨hname, hfull, -⟩)
      · exact hstop hname
      · exact hbad.elim (by omega) hfull
    obtain ⟨hname, hfull⟩ := not_or.1 hbad
    rw [if_neg hbad, forall_mem_cons, RecordIn]
    dsimp only
    by_cases hend : data.length ≤ stride (recordSize data)
    · rw [if_pos hend, if_pos hend]
      constructor
      · rintro ⟨-, ⟨hfits, hadvance⟩, -⟩
        exact .record (by omega) hfull hadvance (by omega) fun hmore =>
          absurd hmore (Nat.not_lt.2 hend)
      · rintro (⟨hname, -⟩ | ⟨-, -, hadvance, hfits, -⟩)
        · exact absurd hname hstop
        · exact ⟨rfl, ⟨by omega, hadvance⟩, nofun⟩
    rw [if_neg hend, if_neg hend, Option.isSome_map, ← length_drop]
    have hrest : 512 ≤ stride (recordSize data) → _ := fun hadvance =>
      @ih (data.drop (stride (recordSize data))) (by rw [length_drop]; omega)
      (offset + stride (recordSize data))
    rw [length_drop,
      show offset + stride (recordSize data) + (data.length - stride (recordSize data)) =
      offset + data.length by omega] at hrest
    constructor
    · rintro ⟨hsome, ⟨hfits, hadvance⟩, hall⟩
      rw [length_drop] at hsome hall
      exact .record (by omega) hfull hadvance (by omega) fun _ => (hrest hadvance).1 ⟨hsome, hall⟩
    · rintro (⟨hname, -⟩ | ⟨-, -, hadvance, hfits, hwhole⟩)
      · exact absurd hname hstop
      obtain ⟨hsome, hall⟩ := (hrest hadvance).2 (hwhole (Nat.not_le.1 hend))
      rw [length_drop]
      exact ⟨hsome, ⟨by omega, hadvance⟩, hall⟩

end Monolith.Fs
