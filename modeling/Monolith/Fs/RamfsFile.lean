import Monolith.Fs.Vfs

/-!
# `fs/ramfs/ramfs.c`: reading and writing files in memory

A regular file is a circular list of pages, and its size is counted in whole pages.  `ramfs_read`
and `ramfs_write` walk to the page of the position and go on from page to page; both take "no more
pages" for a null pointer, which there is not in a circular list.

* `ramfsWrite`, `ramfsRead` are the two functions on a file, with the list head as the position
  behind the last page.
* `copyIn_eq` and `copyOut_eq` say what their loops do to the bytes of a file.
* What is written can be read back (`read_of_write`).
* A write clears the rest of its last page, a new page has what was in its frame, and an empty write
  to an empty file follows a null pointer (`write_spoils`): outside of these cases it changes what
  it writes and nothing else (`write_frame`).
* A read that goes past the end takes the list head for a page (`read_past_end`).
-/

namespace Monolith.Fs

open Fallible List

/-! ## Files -/

abbrev Page := Fin 4096 → BitVec 8

/-- `struct vnode`, for a regular file: `size`, and the pages of `data`, which is null before the
first write. -/
structure RamfsInode where
  size : Nat
  data : Option (List Page)

/-- How a call ends that does not return. -/
inductive RamfsFault where
  /-- `data` is null. -/
  | nullData
  /-- The list head is taken for a page. -/
  | headPage
  deriving DecidableEq, Repr

/-- The byte at an offset, in a list of pages. -/
def byteAt (pages : List Page) (j : Nat) : BitVec 8 :=
  match pages[j / 4096]? with
  | some page => page (Fin.ofNat 4096 j)
  | none => 0

namespace RamfsInode

def new : RamfsInode := ⟨0, none⟩

def pages (f : RamfsInode) : List Page := f.data.getD []

def byte (f : RamfsInode) (j : Nat) : BitVec 8 := byteAt f.pages j

end RamfsInode

/-! ## The functions -/

/-- `list_next_entry` among `n` pages.  The list head is at the place `n`. -/
def nextPage (n k : Nat) : Nat := if k = n then 0 else k + 1

def spageData (pages : List Page) (k : Nat) : Except RamfsFault Page :=
  match pages[k]? with
  | some page => .ok page
  | none => .error .headPage

/-- The bytes from `offset` on. -/
def Page.slice (page : Page) (offset amount : Nat) : List (BitVec 8) :=
  (range amount).map fun i => page (Fin.ofNat 4096 (offset + i))

/-- `memcpy(spage->data + offset, bytes, …)` -/
def Page.copy (page : Page) (offset : Nat) (bytes : List (BitVec 8)) : Page := fun i =>
  if i.val < offset then page i else bytes[i.val - offset]?.getD (page i)

/-- `memset(spage->data + start, 0, 4096 - start)` -/
def Page.clear (page : Page) (start : Nat) : Page := fun i => if start ≤ i.val then 0 else page i

/-- How many bytes a round of the loops copies. -/
def chunk (pos length : Nat) :
    Nat := if length < 4096 - pos % 4096 then length else 4096 - pos % 4096

/-- The first loop of `ramfs_read`, from the place `k` on; `none` is `-ENXIO`. -/
def readSkip (n : Nat) : Nat → Nat → Nat → Option Nat
  | 0, _, k => some k
  | fuel + 1, rp, k =>
    if 4096 ≤ rp then if k = n then none else readSkip n fuel (rp - 4096) (nextPage n k) else some k

/-- The second loop of `ramfs_read`: what it copies, and the position behind it. -/
def copyOut (pages : List Page) : Nat → Nat → Nat → Nat → Except RamfsFault (List (BitVec 8) × Nat)
  | 0, _, pos, _ => .ok ([], pos)
  | fuel + 1, length, pos, k =>
    if length = 0 then .ok ([], pos)
    else do
      let page ← spageData pages k
      let amount := chunk pos length
      let (rest, last) ← copyOut pages fuel (length - amount) (pos + amount)
          (nextPage pages.length k)
      .ok (page.slice (pos % 4096) amount ++ rest, last)

/-- `ramfs_read`: the bytes it copies or an error, and the position behind it. -/
def ramfsRead (f : RamfsInode) (pos length : Nat) :
    Except RamfsFault (Except Errno (List (BitVec 8)) × Nat) :=
  match f.data with
  | none => .ok (.ok [], pos)
  | some pages =>
    match readSkip pages.length pos pos 0 with
    | none => .ok (.error .enxio, pos)
    | some k => do
      let (bytes, last) ← copyOut pages length length pos k
      .ok (.ok bytes, last)

/-- A new page, with what is in its frame: that of the page `i` is `fresh i`. -/
def RamfsInode.addPage (fresh : Nat → Page) (f : RamfsInode) : RamfsInode where
  size := f.size + 4096
  data := some (f.pages ++ [fresh f.pages.length])

/-- The first loop of `ramfs_write` -/
def ramfsGrow (fresh : Nat → Page) : Nat → Int → RamfsInode → RamfsInode
  | 0, _, f => f
  | fuel + 1, req, f =>
    if req = 0 then f
    else if req < 4096 then f.addPage fresh
    else ramfsGrow fresh fuel (req - 4096) (f.addPage fresh)

/-- The second loop of `ramfs_write`, from the place `k` on. -/
def writeSkip (n : Nat) : Nat → Nat → Nat → Nat
  | 0, _, k => k
  | fuel + 1, wp, k => if 4096 ≤ wp then writeSkip n fuel (wp - 4096) (nextPage n k) else k

/-- The third loop of `ramfs_write`. -/
def copyIn : Nat → List Page → List (BitVec 8) → Nat → Nat → Except RamfsFault (List Page × Nat)
  | 0, pages, _, pos, _ => .ok (pages, pos)
  | fuel + 1, pages, buffer, pos, k =>
    if buffer = [] then .ok (pages, pos)
    else do
      let page ← spageData pages k
      let offset := pos % 4096
      let amount := chunk pos buffer.length
      let page := page.copy offset (buffer.take amount)
      let page := if offset + amount < 4096 then page.clear (offset + amount) else page
      copyIn fuel (pages.set k page) (buffer.drop amount) (pos + amount) (nextPage pages.length k)

/-- A 64-bit number as an `off_t`. -/
def toOff (n : Int) : Int := n.bmod (2 ^ 64)

/-- `ramfs_write` up to its walk: there are pages up to `wr_len`. -/
def ramfsExtend (fresh : Nat → Page) (f : RamfsInode) (wrLen : Int) : RamfsInode :=
  let fsize := toOff f.size
  let req := toOff (wrLen - fsize)
  if fsize < wrLen then ramfsGrow fresh (req.toNat + 1) req f else f

/-- The walk of `ramfs_write`, and its third loop. -/
def ramfsStore (f : RamfsInode) (pos : Nat) (buffer : List (BitVec 8)) :
    Except RamfsFault (Nat × RamfsInode) :=
  match f.data with
  | none => .error .nullData
  | some pages => do
    let (pages, last) ← copyIn buffer.length pages buffer pos (writeSkip pages.length pos pos 0)
    .ok (last, { f with data := some pages })

/-- `ramfs_write`: what it returns, the position behind it and the file. -/
def ramfsWrite (fresh : Nat → Page) (f : RamfsInode) (pos : Nat) (buffer : List (BitVec 8)) :
    Except RamfsFault (Nat × Nat × RamfsInode) := do
  let (last, f) ← ramfsStore (ramfsExtend fresh f (toOff (pos + buffer.length))) pos buffer
  .ok (buffer.length, last, f)

/-- The states of a file: it is created, and written to at any position. -/
inductive RamfsInode.Reachable : RamfsInode → Prop where
  | new : Reachable RamfsInode.new
  | write {f f' : RamfsInode} {fresh : Nat → Page} {pos n last : Nat} {buffer : List (BitVec 8)}
    (h : Reachable f)
      (hwrite : ramfsWrite fresh f pos buffer = .ok (n, last, f')) : Reachable f'

/-! ## The walks -/

variable {fuel k pos : Nat} {pages : List Page} {buffer : List (BitVec 8)} {page : Page}
  {length last : Nat}

section Walks

variable {n k pos : Nat}

/-- The walk of `ramfs_write` is on the page of the position, if there is one. -/
theorem writeSkip_eq {wp : Nat} (hfuel : wp ≤ fuel) (hn : k + wp / 4096 ≤ n) :
    writeSkip n fuel wp k = k + wp / 4096 := by
  induction fuel generalizing wp k with
  | zero =>
    obtain rfl := Nat.le_zero.1 hfuel
    rfl
  | succ fuel ih =>
    rw [writeSkip]
    split
    · have hk : k ≠ n := by omega
      rw [nextPage, if_neg hk, ih (by omega) (by omega)]
      omega
    · omega

theorem readSkip_eq {rp : Nat} (hfuel : rp ≤ fuel) (hn : k + rp / 4096 ≤ n) :
    readSkip n fuel rp k = some (k + rp / 4096) := by
  induction fuel generalizing rp k with
  | zero =>
    obtain rfl := Nat.le_zero.1 hfuel
    rfl
  | succ fuel ih =>
    rw [readSkip]
    split
    · have hk : k ≠ n := by omega
      rw [if_neg hk, nextPage, if_neg hk, ih (by omega) (by omega)]
      congr 1
      omega
    · congr 1
      omega

/-- From the second page behind the file on it is an error. -/
theorem readSkip_eq_none {rp : Nat} (hfuel : rp ≤ fuel) (hk : k ≤ n) (hn : n < k + rp / 4096) :
    readSkip n fuel rp k = none := by
  induction fuel generalizing rp k with
  | zero => omega
  | succ fuel ih =>
    rw [readSkip, if_pos (by omega)]
    split
    · rfl
    · rename_i hne
      rw [nextPage, if_neg hne]
      exact ih (by omega) (by omega) (by omega)

end Walks

/-! ## The bytes of a list of pages -/

section Bytes

variable {pages : List Page} {j k : Nat}

theorem byteAt_of_getElem? (h : pages[j / 4096]? = some page) :
    byteAt pages j = page (Fin.ofNat 4096 j) := by
  rw [byteAt, h]

theorem byteAt_set (hk : k < pages.length) :
    byteAt (pages.set k page) j =
      if j / 4096 = k then page (Fin.ofNat 4096 j) else byteAt pages j := by
  rw [byteAt, getElem?_set]
  by_cases hj : j / 4096 = k
  · rw [if_pos hj.symm, if_pos hj, if_pos hk]
  · rw [if_neg (Ne.symm hj), if_neg hj]
    rfl

theorem byteAt_append_left {rest : List Page} (hj : j < 4096 * pages.length) :
    byteAt (pages ++ rest) j = byteAt pages j := by
  have hlt : j / 4096 < pages.length := by omega
  rw [byteAt, byteAt, getElem?_append_left hlt]

end Bytes

/-! ## Reading -/

theorem chunk_spec (pos length : Nat) :
    chunk pos length ≤ length ∧ pos % 4096 + chunk pos length ≤ 4096 ∧
    (0 < length → 0 < chunk pos length) ∧
    (chunk pos length < length → pos % 4096 + chunk pos length = 4096) := by
  rw [chunk]
  split <;> omega

theorem spageData_eq (hk : k < pages.length) : spageData pages k = .ok pages[k] := by
  rw [spageData, getElem?_eq_getElem hk]

theorem nextPage_eq {n : Nat} (hk : k < n) : nextPage n k = k + 1 := if_neg (ne_of_lt hk)

theorem copyOut_zero (pages : List Page) (fuel pos k : Nat) :
    copyOut pages fuel 0 pos k = .ok ([], pos) := by
  cases fuel <;> rfl

/-- **The loop of `ramfs_read`** copies the bytes of the file, as long as there are pages. -/
theorem copyOut_eq (hfuel : length ≤ fuel) (hend : pos + length ≤ 4096 * pages.length) :
    copyOut pages fuel length pos (pos / 4096) =
      .ok ((range length).map fun i => byteAt pages (pos + i), pos + length) := by
  induction fuel generalizing length pos with
  | zero =>
    obtain rfl := Nat.le_zero.1 hfuel
    rfl
  | succ fuel ih =>
    by_cases hzero : length = 0
    · rw [hzero]
      exact copyOut_zero ..
    have hk : pos / 4096 < pages.length := by omega
    obtain ⟨hle, hpage, hpos, hfull⟩ := chunk_spec pos length
    rw [copyOut, if_neg hzero, spageData_eq hk, nextPage_eq hk]
    generalize chunk pos length = amount at hle hpage hpos hfull
    -- the rest is copied from the next page on, if there is any
    have hrest : copyOut pages fuel (length - amount) (pos + amount) (pos / 4096 + 1) =
        .ok ((range (length - amount)).map fun i => byteAt pages (pos + amount + i),
        pos + length) := by
      by_cases hlast : length - amount = 0
      · simp [hlast, copyOut_zero, show pos + amount = pos + length by omega]
      · have hnext : pos / 4096 + 1 = (pos + amount) / 4096 := by omega
        rw [hnext, ih (by omega) (by omega), show pos + amount + (length - amount) =
          pos + length by omega]
    have hslice : pages[pos / 4096].slice (pos % 4096) amount =
        (range amount).map fun i => byteAt pages (pos + i) := by
      refine map_congr_left fun i hi => ?_
      have hi' := mem_range.1 hi
      have hpg : (pos + i) / 4096 = pos / 4096 := by omega
      have hfin : Fin.ofNat 4096 (pos % 4096 + i) = Fin.ofNat 4096 (pos + i) := by
        refine Fin.ext ?_
        show (pos % 4096 + i) % 4096 = (pos + i) % 4096
        omega
      rw [byteAt_of_getElem? (by rw [hpg]; exact getElem?_eq_getElem hk), hfin]
    have hsplit : range length = range amount ++ (range (length - amount)).map (amount + ·) := by
      rw [← range_add, show amount + (length - amount) = length by omega]
    show (copyOut pages fuel (length - amount) (pos + amount) (pos / 4096 + 1) >>= fun r =>
      .ok (pages[pos / 4096].slice (pos % 4096) amount ++ r.1, r.2)) = _
    rw [hrest, hslice, hsplit, map_append, map_map]
    simp only [add_assoc]
    rfl

/-- With fewer pages the loop comes to the list head. -/
theorem copyOut_headPage (hfuel : length ≤ fuel) (hsome : 0 < length)
    (hpos : pos / 4096 ≤ pages.length) (hend : 4096 * pages.length < pos + length) :
    copyOut pages fuel length pos (pos / 4096) = .error .headPage := by
  induction fuel generalizing length pos with
  | zero => omega
  | succ fuel ih =>
    rw [copyOut, if_neg (by omega)]
    by_cases hk : pos / 4096 < pages.length
    · obtain ⟨hle, hpage, hround, hfull⟩ := chunk_spec pos length
      rw [spageData_eq hk, nextPage_eq hk]
      generalize chunk pos length = amount at hle hpage hround hfull
      have hnext : pos / 4096 + 1 = (pos + amount) / 4096 := by omega
      show (copyOut pages fuel (length - amount) (pos + amount) (pos / 4096 + 1) >>= _) = _
      rw [hnext, ih (by omega) (by omega) (by omega) (by omega)]
      rfl
    · rw [spageData, getElem?_eq_none (by omega)]
      rfl

/-! ## Writing -/

/-- The bytes of a file after a write, from those before it: the rest of the last page that is
written is cleared. -/
def overwritten (byte : Nat → BitVec 8) (pos : Nat) (buffer : List (BitVec 8)) (j : Nat) :
    BitVec 8 :=
  if j < pos then byte j
  else
    match buffer[j - pos]? with
    | some b => b
    | none => if buffer ≠ [] ∧ j / 4096 = (pos + buffer.length - 1) / 4096 then 0 else byte j

section Overwritten

variable {byte : Nat → BitVec 8} {pos j : Nat} {buffer : List (BitVec 8)}

theorem overwritten_of_lt (hj : j < pos) : overwritten byte pos buffer j = byte j := if_pos hj

theorem overwritten_of_mem (hj : pos ≤ j) (hlt : j - pos < buffer.length) :
    overwritten byte pos buffer j = buffer[j - pos] := by
  rw [overwritten, if_neg (Nat.not_lt.2 hj), getElem?_eq_getElem hlt]

theorem overwritten_of_le (hj : pos + buffer.length ≤ j) : overwritten byte pos buffer j =
    if buffer ≠ [] ∧ j / 4096 = (pos + buffer.length - 1) / 4096 then 0 else byte j := by
  rw [overwritten, if_neg (by omega), getElem?_eq_none (by omega)]

theorem overwritten_nil : overwritten byte pos [] = byte := by
  funext j
  by_cases hj : j < pos
  · exact overwritten_of_lt hj
  · rw [overwritten_of_le (by simpa using Nat.not_lt.1 hj), if_neg fun h => h.1 rfl]

/-- Two writes, one behind the other, where the second starts a page. -/
theorem overwritten_append {rest : List (BitVec 8)}
    (hpage : rest ≠ [] → (pos + buffer.length) % 4096 = 0) (hne : buffer ≠ []) (j : Nat) :
    overwritten (overwritten byte pos buffer) (pos + buffer.length) rest j =
      overwritten byte pos (buffer ++ rest) j := by
  by_cases hnil : rest = []
  · rw [hnil, overwritten_nil, append_nil]
  have hlen : 0 < buffer.length := length_pos_iff.2 hne
  have hmod := hpage hnil
  have htotal : (buffer ++ rest).length = buffer.length + rest.length := length_append
  by_cases hj : j < pos + buffer.length
  · rw [overwritten_of_lt hj]
    by_cases hj' : j < pos
    · rw [overwritten_of_lt hj', overwritten_of_lt hj']
    · rw [overwritten_of_mem (by omega) (by omega), overwritten_of_mem (by omega) (by omega),
        getElem_append_left]
  · by_cases hin : j - (pos + buffer.length) < rest.length
    · rw [overwritten_of_mem (by omega) hin, overwritten_of_mem (by omega) (by omega),
        getElem_append_right (by omega)]
      congr 1
      omega
    · -- behind both of them the first one has cleared nothing
      have hfirst : ¬(buffer ≠ [] ∧ j / 4096 = (pos + buffer.length - 1) / 4096) := by omega
      rw [overwritten_of_le (by omega), overwritten_of_le (by omega), overwritten_of_le (by omega),
        if_neg hfirst, htotal, ← add_assoc]
      simp [hnil]

end Overwritten

theorem copyIn_nil (fuel : Nat) (pages : List Page) (pos k : Nat) :
    copyIn fuel pages [] pos k = .ok (pages, pos) := by
  cases fuel <;> rfl

theorem Page.clear_copy (page : Page) {offset : Nat} {bytes : List (BitVec 8)}
    (hle : offset + bytes.length ≤ 4096) (i : Fin 4096) :
    (if offset + bytes.length < 4096 then (page.copy offset bytes).clear (offset + bytes.length)
      else page.copy offset bytes) i =
        if i.val < offset then page i else bytes[i.val - offset]?.getD 0 := by
  by_cases hlt : i.val < offset
  · have hclear : ¬offset + bytes.length ≤ i.val := by omega
    split <;> simp [Page.clear, Page.copy, hlt, hclear]
  by_cases hin : i.val - offset < bytes.length
  · have hclear : ¬offset + bytes.length ≤ i.val := by omega
    split <;> simp [Page.clear, Page.copy, hlt, hclear, hin]
  · have hclear : offset + bytes.length ≤ i.val := by omega
    rw [if_pos (by omega), if_neg hlt, getElem?_eq_none (by omega)]
    simp [Page.clear, hclear]

/-- The page that a round leaves. -/
def writtenPage (page : Page) (pos : Nat) (buffer : List (BitVec 8)) : Page :=
  let amount := chunk pos buffer.length
  let page := page.copy (pos % 4096) (buffer.take amount)
  if pos % 4096 + amount < 4096 then page.clear (pos % 4096 + amount) else page

theorem byteAt_writtenPage (hk : pos / 4096 < pages.length) (hne : buffer ≠ []) (j : Nat) :
    byteAt (pages.set (pos / 4096) (writtenPage pages[pos / 4096] pos buffer)) j =
      overwritten (byteAt pages) pos (buffer.take (chunk pos buffer.length)) j := by
  obtain ⟨hle, hpage, hpos, -⟩ := chunk_spec pos buffer.length
  have hlen : 0 < buffer.length := length_pos_iff.2 hne
  rw [byteAt_set hk, writtenPage]
  generalize chunk pos buffer.length = amount at hle hpage hpos
  have htake : (buffer.take amount).length = amount := length_take_of_le hle
  have hmod : (Fin.ofNat 4096 j).val = j % 4096 := rfl
  generalize buffer.take amount = bytes at htake
  have hbytes : bytes ≠ [] := by
    rintro rfl
    simp at htake
    omega
  by_cases hj : j / 4096 = pos / 4096
  · have hold : byteAt pages j = pages[pos / 4096] (Fin.ofNat 4096 j) :=
      byteAt_of_getElem? (by rw [hj]; exact getElem?_eq_getElem hk)
    rw [if_pos hj, ← htake, Page.clear_copy _ (by omega), hmod]
    by_cases hlt : j < pos
    · rw [overwritten_of_lt hlt, hold, if_pos (by omega)]
    by_cases hin : j - pos < bytes.length
    · rw [overwritten_of_mem (by omega) hin, if_neg (by omega), show j % 4096 - pos % 4096 =
        j - pos by omega, getElem?_eq_getElem hin]
      rfl
    · have hpg : j / 4096 = (pos + bytes.length - 1) / 4096 := by omega
      rw [if_neg (by omega), getElem?_eq_none (by omega), overwritten_of_le (by omega),
        if_pos ⟨hbytes, hpg⟩]
      rfl
  · rw [if_neg hj]
    by_cases hlt : j < pos
    · rw [overwritten_of_lt hlt]
    · rw [overwritten_of_le (by omega), if_neg (by omega)]

theorem copyIn_eq (hfuel : buffer.length ≤ fuel)
    (hend : pos + buffer.length ≤ 4096 * pages.length) :
    ∃ pages', copyIn fuel pages buffer pos (pos / 4096) = .ok (pages', pos + buffer.length) ∧
      pages'.length = pages.length ∧
      ∀ j, byteAt pages' j = overwritten (byteAt pages) pos buffer j := by
  induction fuel generalizing pages buffer pos with
  | zero =>
    obtain rfl := length_eq_zero_iff.1 (Nat.le_zero.1 hfuel)
    exact ⟨pages, copyIn_nil .., rfl, fun j => by rw [overwritten_nil]⟩
  | succ fuel ih =>
    by_cases hne : buffer = []
    · subst hne
      exact ⟨pages, copyIn_nil .., rfl, fun j => by rw [overwritten_nil]⟩
    have hlen : 0 < buffer.length := length_pos_iff.2 hne
    have hk : pos / 4096 < pages.length := by omega
    obtain ⟨hle, hpage, hpos, hfull⟩ := chunk_spec pos buffer.length
    have hround : copyIn (fuel + 1) pages buffer pos (pos / 4096) =
        copyIn fuel (pages.set (pos / 4096) (writtenPage pages[pos / 4096] pos buffer))
          (buffer.drop (chunk pos buffer.length)) (pos + chunk pos buffer.length)
          (pos / 4096 + 1) := by
      rw [copyIn, if_neg hne, spageData_eq hk, nextPage_eq hk]
      rfl
    have hbyte := byteAt_writtenPage hk hne
    rw [hround]
    generalize hset : pages.set (pos / 4096) (writtenPage pages[pos / 4096] pos buffer) =
      pages₁ at hbyte
    have hlen₁ : pages₁.length = pages.length := by rw [← hset, length_set]
    generalize chunk pos buffer.length = amount at hle hpage hpos hfull hbyte
    have htake : (buffer.take amount).length = amount := length_take_of_le hle
    have hdrop : (buffer.drop amount).length = buffer.length - amount := length_drop
    have hfun : byteAt pages₁ = overwritten (byteAt pages) pos (buffer.take amount) := funext hbyte
    have hboth : ∀ j, overwritten (byteAt pages₁) (pos + amount) (buffer.drop amount) j =
        overwritten (byteAt pages) pos buffer j := by
      intro j
      have happ := @overwritten_append (byteAt pages) pos (buffer.take amount) (buffer.drop amount)
        (fun hrest => by
          have := length_pos_iff.2 hrest
          omega)
        (fun hnil => by
          rw [hnil] at htake
          simp at htake
          omega) j
      rw [htake, take_append_drop] at happ
      rw [hfun, happ]
    by_cases hlast : buffer.drop amount = []
    · refine ⟨pages₁, ?_, hlen₁, fun j => ?_⟩
      · rw [hlast, copyIn_nil]
        rw [hlast] at hdrop
        simp at hdrop
        rw [show pos + amount = pos + buffer.length by omega]
      · rw [← hboth j, hlast, overwritten_nil]
    · have hrest := length_pos_iff.2 hlast
      have hnext : pos / 4096 + 1 = (pos + amount) / 4096 := by omega
      rw [hnext]
      obtain ⟨pages', hrun, hlen', hbyte'⟩ :=
        @ih (pos + amount) pages₁ (buffer.drop amount) (by omega) (by omega)
      refine ⟨pages', ?_, hlen'.trans hlen₁, fun j => (hbyte' j).trans (hboth j)⟩
      rw [hrun, show pos + amount + (buffer.drop amount).length = pos + buffer.length by omega]

theorem copyIn_length {pages' : List Page}
    (h : copyIn fuel pages buffer pos k = .ok (pages', last)) : pages'.length = pages.length := by
  induction fuel generalizing pages buffer pos k with
  | zero =>
    cases h
    rfl
  | succ fuel ih =>
    rw [copyIn] at h
    split at h
    · cases h
      rfl
    · obtain ⟨page, -, h⟩ := bind_eq_ok.1 h
      rw [ih h, length_set]

/-! ## Growing -/

/-- The size is that of the pages. -/
def RamfsInode.Ok (f : RamfsInode) : Prop := f.size = 4096 * f.pages.length

section Grow

variable {fresh : Nat → Page} {f : RamfsInode}

theorem RamfsInode.Ok.addPage (h : f.Ok) : (f.addPage fresh).Ok := by
  have hlen : (f.pages ++ [fresh f.pages.length]).length = f.pages.length + 1 := length_append
  rw [RamfsInode.Ok] at h ⊢
  show f.size + 4096 = 4096 * (f.pages ++ [fresh f.pages.length]).length
  omega

theorem ramfsGrow_spec {req : Int} (h : f.Ok) (hfuel : req < fuel) :
    (ramfsGrow fresh fuel req f).Ok ∧ (f.size : Int) + req ≤ (ramfsGrow fresh fuel req f).size ∧
      (∃ extra, (ramfsGrow fresh fuel req f).pages = f.pages ++ extra ∧
        ∀ i page, extra[i]? = some page → page = fresh (f.pages.length + i)) ∧
      ((ramfsGrow fresh fuel req f).data = none → f.data = none ∧ req ≤ 0) := by
  have hsize : ((f.addPage fresh).size : Int) = (f.size : Int) + 4096 := rfl
  induction fuel generalizing req f with rw [ramfsGrow]
  | zero => exact ⟨h, by omega, ⟨[], by simp⟩, fun hd => ⟨hd, by omega⟩⟩
  | succ fuel ih =>
    split
    · rename_i hzero
      exact ⟨h, by omega, ⟨[], by simp⟩, fun hd => ⟨hd, by omega⟩⟩
    split
    · refine ⟨h.addPage, by omega, ⟨[fresh f.pages.length], rfl, fun i page hp => ?_⟩, nofun⟩
      obtain ⟨hi, rfl⟩ := List.getElem?_eq_some_iff.1 hp
      obtain rfl := Nat.lt_one_iff.1 hi
      rfl
    obtain ⟨hok, hle, ⟨extra, hpages, hextra⟩, hdata⟩ :=
      @ih (f.addPage fresh) (req - 4096) h.addPage (by omega) rfl
    refine ⟨hok, by omega, ⟨fresh f.pages.length :: extra, ?_, fun i page hp =>
      ?_⟩, fun hd => nomatch (hdata hd).1⟩
    · rw [hpages]
      show f.pages ++ [fresh f.pages.length] ++ extra = _
      simp [append_assoc]
    · cases i with
      | zero => exact (Option.some.inj hp).symm
      | succ i =>
        have hlen : (f.addPage fresh).pages.length = f.pages.length + 1 := length_append
        rw [hextra i page hp, hlen, Nat.add_right_comm]
        rfl

theorem toOff_of_lt {n : Int} (hle : -2 ^ 63 ≤ n) (hlt : n < 2 ^ 63) : toOff n = n := by
  exact Int.bmod_eq_of_le (by omega) (by omega)

/-- **There are pages for what is to be written.** -/
theorem ramfsExtend_spec (wrLen : Int) (h : f.Ok) : (ramfsExtend fresh f wrLen).Ok ∧
      (∃ extra, (ramfsExtend fresh f wrLen).pages = f.pages ++ extra ∧
        ∀ i page, extra[i]? = some page → page = fresh (f.pages.length + i)) ∧
      (f.data ≠ none → (ramfsExtend fresh f wrLen).data ≠ none) ∧ (f.size < wrLen → wrLen < 2 ^ 63 →
        wrLen ≤ (ramfsExtend fresh f wrLen).size ∧ (ramfsExtend fresh f wrLen).data ≠ none) := by
  rw [ramfsExtend]
  split_ifs with hge
  · obtain ⟨hok, hle, hpages, hdata⟩ :=
      @ramfsGrow_spec _ fresh f (toOff (wrLen - toOff f.size)) h
      (Int.lt_add_one_of_le (Int.self_le_toNat _))
    refine ⟨hok, hpages, fun hd hnone => hd (hdata hnone).1, fun hlt hmax => ?_⟩
    have hsize : toOff f.size = f.size := toOff_of_lt (by omega) (by omega)
    have hreq : toOff (wrLen - toOff f.size) = wrLen - f.size := by
      rw [hsize]
      exact toOff_of_lt (by omega) (by omega)
    have hend : wrLen ≤ f.size + toOff (wrLen - toOff f.size) := by omega
    refine ⟨Int.le_trans hend hle, fun hnone => ?_⟩
    have hneg := (hdata hnone).2
    omega
  · refine ⟨h, ⟨[], by simp⟩, id, fun hlt hmax => ?_⟩
    rw [toOff_of_lt (by omega) (by omega)] at hge
    omega

end Grow

/-! ## Whole calls -/

section Calls

variable {fresh : Nat → Page} {f : RamfsInode} {pos : Nat} {buffer : List (BitVec 8)}

theorem RamfsInode.Ok.size_eq_zero (h : f.Ok) (hdata : f.data = none) : f.size = 0 := by
  rw [h, pages, hdata]
  rfl

theorem RamfsInode.pages_of_data (hd : f.data = some pages) : f.pages = pages := by
  simp [RamfsInode.pages, hd]

theorem RamfsInode.Ok.size_eq_of_data (h : f.Ok) (hd : f.data = some pages) :
    f.size = 4096 * pages.length :=
  RamfsInode.pages_of_data hd ▸ h

theorem ramfsStore_eq (h : f.Ok) (hdata : f.data ≠ none) (hend : pos + buffer.length ≤ f.size) :
    ∃ f', ramfsStore f pos buffer = .ok (pos + buffer.length, f') ∧ f'.Ok ∧ f'.data ≠ none ∧
    f'.size = f.size ∧
      ∀ j, f'.byte j = overwritten (byteAt f.pages) pos buffer j := by
  obtain ⟨pages, hd⟩ := Option.ne_none_iff_exists'.1 hdata
  have hpages := RamfsInode.pages_of_data hd
  have hlen := h.size_eq_of_data hd
  obtain ⟨pages', hrun, hlen', hbyte⟩ :=
    @copyIn_eq buffer.length pos pages buffer (le_rfl) (by omega)
  refine ⟨{ f with data := some pages' }, ?_, ?_, nofun, rfl, fun j => ?_⟩
  · rw [ramfsStore, hd]
    dsimp only
    rw [writeSkip_eq (le_rfl) (by omega), zero_add, hrun]
    rfl
  · show f.size = 4096 * pages'.length
    rw [hlen', hlen]
  · show byteAt pages' j = overwritten (byteAt f.pages) pos buffer j
    rw [hbyte, hpages]

theorem RamfsInode.Ok.store {f' : RamfsInode} {last : Nat} (h : f.Ok)
    (hstore : ramfsStore f pos buffer = .ok (last, f')) : f'.Ok := by
  rw [ramfsStore] at hstore
  rcases hd : f.data with _ | _
  · simp [hd] at hstore
  have hlen := h.size_eq_of_data hd
  rw [hd] at hstore
  obtain ⟨⟨pages', last'⟩, hcopy, hret⟩ := bind_eq_ok.1 hstore
  cases hret
  show f.size = 4096 * pages'.length
  rw [copyIn_length hcopy, hlen]

/-- `ramfs_write` has a page for each byte, unless there is none and it needs none. -/
theorem ramfsExtend_enough {wrLen : Nat} (h : f.Ok) (hmax : wrLen < 2 ^ 63)
    (hdata : f.data = none → 0 < wrLen) :
    wrLen ≤ (ramfsExtend fresh f wrLen).size ∧ (ramfsExtend fresh f wrLen).data ≠ none := by
  obtain ⟨hok, ⟨extra, hpages, -⟩, hkeep, hgrow⟩ := @ramfsExtend_spec fresh f wrLen h
  by_cases hlt : f.size < wrLen
  · obtain ⟨hle, hsome⟩ := hgrow (by omega) (by omega)
    exact ⟨by omega, hsome⟩
  have hsize : f.size ≤ (ramfsExtend fresh f wrLen).size := by
    rw [h, hok, hpages, length_append]
    omega
  refine ⟨by omega, hkeep fun hnone => hlt ?_⟩
  rw [h.size_eq_zero hnone]
  exact hdata hnone

theorem ramfsWrite_eq (h : f.Ok) (hmax : pos + buffer.length < 2 ^ 63)
    (hdata : f.data = none → 0 < pos + buffer.length) :
    ∃ f' extra, ramfsWrite fresh f pos buffer = .ok (buffer.length, pos + buffer.length, f') ∧
    f'.Ok ∧
      f'.data ≠ none ∧ pos + buffer.length ≤ f'.size ∧
      pos + buffer.length ≤ 4096 * (f.pages ++ extra).length ∧
      (∀ i page, extra[i]? = some page → page = fresh (f.pages.length + i)) ∧
      ∀ j, f'.byte j = overwritten (byteAt (f.pages ++ extra)) pos buffer j := by
  have hwr : toOff (pos + buffer.length) = (pos + buffer.length : Nat) :=
    toOff_of_lt (by omega) (by omega)
  obtain ⟨hok, ⟨extra, hpages, hextra⟩, -⟩ :=
    @ramfsExtend_spec fresh f (pos + buffer.length : Nat) h
  obtain ⟨hend, hsome⟩ := @ramfsExtend_enough fresh f _ h hmax hdata
  obtain ⟨f', hstore, hok', hdata', hsize', hbyte⟩ := ramfsStore_eq hok hsome hend
  refine ⟨f', extra, ?_, hok', hdata', le_trans hend (le_of_eq hsize'.symm), hpages ▸ hok ▸ hend,
    hextra, fun j => ?_⟩
  · rw [ramfsWrite, hwr, hstore]
    rfl
  · rw [hbyte, ← hpages]

/-- **`ramfs_read`**, as far as there are pages. -/
theorem ramfsRead_eq (h : f.Ok) (hdata : f.data ≠ none) (hend : pos + length ≤ f.size) :
    ramfsRead f pos length = .ok (.ok ((range length).map fun i => f.byte (pos + i)),
    pos + length) := by
  obtain ⟨pages, hd⟩ := Option.ne_none_iff_exists'.1 hdata
  have hpages := RamfsInode.pages_of_data hd
  have hlen := h.size_eq_of_data hd
  rw [ramfsRead, hd]
  dsimp only
  rw [readSkip_eq (le_rfl) (by omega), zero_add]
  dsimp only
  rw [copyOut_eq (le_rfl) (by omega)]
  simp only [← hpages]
  rfl

/-- What `ramfs_read` does, at any place: it knows no end of the file but the null pointer and the
list head. -/
theorem ramfsRead_spec (h : f.Ok) : ramfsRead f pos length =
    if f.data = none then .ok (.ok [], pos)
    else if f.size + 4096 ≤ pos then .ok (.error .enxio, pos)
    else if length = 0 ∨ pos + length ≤ f.size then
      .ok (.ok ((range length).map fun i => f.byte (pos + i)), pos + length)
    else .error .headPage := by
  rcases hd : f.data with _ | pages
  · rw [ramfsRead, hd]
    rfl
  have hlen := h.size_eq_of_data hd
  rw [if_neg nofun]
  by_cases hpast : f.size + 4096 ≤ pos
  · rw [if_pos hpast, ramfsRead, hd]
    dsimp only
    rw [readSkip_eq_none le_rfl (Nat.zero_le _) (by omega)]
  rw [if_neg hpast]
  by_cases hin : pos + length ≤ f.size
  · rw [if_pos (.inr hin)]
    exact ramfsRead_eq h (by rw [hd]; nofun) hin
  rw [ramfsRead, hd]
  dsimp only
  rw [readSkip_eq le_rfl (by omega), zero_add]
  dsimp only
  rcases Nat.eq_zero_or_pos length with rfl | hsome
  · rw [if_pos (.inl rfl)]
    rfl
  · rw [if_neg (by omega), copyOut_headPage le_rfl hsome (by omega) (by omega)]
    rfl

theorem RamfsInode.Reachable.ok (h : f.Reachable) : f.Ok := by
  induction h with
  | new => rfl
  | @write f f' fresh pos n last buffer _ hwrite ih =>
    obtain ⟨hok, -⟩ := @ramfsExtend_spec fresh f (toOff (pos + buffer.length)) ih
    obtain ⟨⟨last', f₂⟩, hstore, hret⟩ := bind_eq_ok.1 hwrite
    cases hret
    exact hok.store hstore

end Calls

/-! ## What a write and a read are to do -/

section Results

variable {fresh : Nat → Page} {f : RamfsInode} {pos : Nat} {buffer : List (BitVec 8)}

/-- **What is written can be read back.**  There are pages for all of it, so that neither walk comes
to the list head. -/
theorem read_of_write (h : f.Reachable) (hne : buffer ≠ []) (hmax : pos + buffer.length < 2 ^ 63) :
    ∃ f', ramfsWrite fresh f pos buffer = .ok (buffer.length, pos + buffer.length, f') ∧
      pos + buffer.length ≤ 4096 * f'.pages.length ∧
      (∀ i ≤ pos / 4096, writeSkip f'.pages.length (4096 * i) (4096 * i) 0 = i ∧
        readSkip f'.pages.length (4096 * i) (4096 * i) 0 = some i ∧ i < f'.pages.length) ∧
      ramfsRead f' pos buffer.length = .ok (.ok buffer, pos + buffer.length) := by
  have hlen : 0 < buffer.length := length_pos_iff.2 hne
  obtain ⟨f', extra, hwrite, hok, hdata, hend, -, -, hbyte⟩ :=
    @ramfsWrite_eq fresh f pos buffer h.ok hmax (by omega)
  have hpages : f'.size = 4096 * f'.pages.length := hok
  refine ⟨f', hwrite, by omega, fun i hi => ?_, ?_⟩
  · have hdiv : 4096 * i / 4096 = i := Nat.mul_div_cancel_left i (by decide)
    rw [writeSkip_eq (le_rfl) (by omega), readSkip_eq (le_rfl) (by omega), hdiv, zero_add]
    exact ⟨rfl, rfl, by omega⟩
  have hbytes : ((range buffer.length).map fun i => f'.byte (pos + i)) = buffer := by
    refine ext_getElem (by simp) fun i hi hi' => ?_
    rw [getElem_map, getElem_range, hbyte, overwritten_of_mem (by omega) (by omega)]
    simp
  rw [ramfsRead_eq hok hdata hend, hbytes]

/-- Two bytes across the end of the first page, into frames that are not clear and over what has
been written. -/
theorem read_of_write_byte : ∃ f f', f.Reachable ∧ f.size = 4096 ∧ f.byte 4095 = 0 ∧
    ramfsWrite (fun _ _ => 7) f 4095 [1, 2] = .ok (2, 4097, f') ∧
    ramfsRead f' 4095 2 = .ok (.ok [1, 2], 4097) := by
  have hf : ∃ f : RamfsInode, f.Reachable ∧ f.size = 4096 ∧ f.byte 4095 = 0 :=
    ⟨_, .write .new (rfl : ramfsWrite (fun _ _ => 7) .new 0 [3] = .ok (1, 1, _)), rfl, rfl⟩
  obtain ⟨f, hf, hsize, hlast⟩ := hf
  obtain ⟨f', hwrite, -, -, hread⟩ :=
    @read_of_write (fun _ _ => 7) f 4095 [1, 2] hf (cons_ne_nil _ _) (by decide)
  exact ⟨f, f', hf, hsize, hlast, hwrite, hread⟩

/-- Writes one behind the other. -/
def ramfsWrites (fresh : Nat → Page) (f : RamfsInode) (pos : Nat) :
    List (List (BitVec 8)) → Except RamfsFault (Nat × RamfsInode)
  | [] => .ok (pos, f)
  | buffer :: buffers => do
    let (_, pos, f) ← ramfsWrite fresh f pos buffer
    ramfsWrites fresh f pos buffers

/-- The bytes from `start` on. -/
def RamfsInode.Holds (f : RamfsInode) (start : Nat) (bytes : List (BitVec 8)) : Prop :=
  ∀ i b, bytes[i]? = some b → start + i < f.size ∧ f.byte (start + i) = b

variable {bytes : List (BitVec 8)} {buffers : List (List (BitVec 8))}

theorem RamfsInode.Holds.write (h : f.Holds pos bytes) (hok : f.Ok) (hne : buffer ≠ [])
    (hmax : pos + bytes.length + buffer.length < 2 ^ 63) :
    ∃ f', ramfsWrite fresh f (pos + bytes.length) buffer =
        .ok (buffer.length, pos + bytes.length + buffer.length, f') ∧ f'.Ok ∧ f'.data ≠ none ∧
      f'.Holds pos (bytes ++ buffer) := by
  have hlen : 0 < buffer.length := length_pos_iff.2 hne
  obtain ⟨f', extra, hwrite, hok', hdata, hend, -, -, hbyte⟩ := ramfsWrite_eq hok hmax (by omega)
  refine ⟨f', hwrite, hok', hdata, fun i b hb => ?_⟩
  rw [hbyte]
  rcases Nat.lt_or_ge i bytes.length with hi | hi
  · rw [getElem?_append_left hi] at hb
    obtain ⟨hlt, hold⟩ := h i b hb
    rw [overwritten_of_lt (by omega), byteAt_append_left (hok ▸ hlt)]
    exact ⟨by omega, hold⟩
  · rw [getElem?_append_right hi, getElem?_eq_some_iff] at hb
    obtain ⟨hlt, hb⟩ := hb
    rw [overwritten_of_mem (by omega) (by omega)]
    exact ⟨by omega, hb ▸ getElem_congr_idx (by omega)⟩

theorem ramfsWrites_eq (h : f.Holds pos bytes) (hok : f.Ok) (hdata : f.data = none → buffers ≠ [])
    (hne : [] ∉ buffers) (hmax : pos + (bytes ++ buffers.flatten).length < 2 ^ 63) :
    ∃ f', ramfsWrites fresh f (pos + bytes.length) buffers =
    .ok (pos + (bytes ++ buffers.flatten).length, f') ∧
      f'.Ok ∧ f'.data ≠ none ∧ f'.Holds pos (bytes ++ buffers.flatten) := by
  induction buffers generalizing f bytes with
  | nil =>
    rw [flatten_nil, append_nil]
    exact ⟨f, rfl, hok, fun hnone => hdata hnone rfl, h⟩
  | cons buffer buffers ih =>
    obtain ⟨hbuffer, hne⟩ := not_or.1 (mt mem_cons.2 hne)
    rw [flatten_cons, ← append_assoc] at hmax ⊢
    obtain ⟨f₁, hwrite, hok₁, hdata₁, h₁⟩ :=
      @h.write fresh _ _ _ _ hok (Ne.symm hbuffer) (by simp at hmax; omega)
    obtain ⟨f', hrest, h'⟩ := ih h₁ hok₁ (fun hnone => absurd hnone hdata₁) hne hmax
    rw [length_append, ← Nat.add_assoc] at hrest
    exact ⟨f', bind_eq_ok.2 ⟨_, hwrite, hrest⟩, h'⟩

/-- **A file takes a stream in pieces**: however it is cut into writes that are not empty, it is
read back as a whole. -/
theorem read_of_writes (h : f.Reachable) (hsome : buffers ≠ []) (hne : [] ∉ buffers)
    (hmax : pos + buffers.flatten.length < 2 ^ 63) :
    ∃ f', ramfsWrites fresh f pos buffers = .ok (pos + buffers.flatten.length, f') ∧
      ramfsRead f' pos buffers.flatten.length = .ok (.ok buffers.flatten,
      pos + buffers.flatten.length) := by
  obtain ⟨f', hwrites, hok, hdata, hbytes⟩ :=
    @ramfsWrites_eq fresh f pos [] buffers nofun h.ok (fun _ => hsome) hne hmax
  rw [nil_append] at hwrites hbytes
  refine ⟨f', hwrites, ?_⟩
  have hend : pos + buffers.flatten.length ≤ f'.size := by
    obtain ⟨buffer, hmem⟩ := exists_mem_of_ne_nil buffers hsome
    have hlen := length_pos_iff.2 fun hnil => hne (flatten_eq_nil_iff.1 hnil buffer hmem ▸ hmem)
    have := (hbytes (buffers.flatten.length - 1) _ (getElem?_eq_getElem (by omega))).1
    omega
  have hall : ((range buffers.flatten.length).map fun i => f'.byte (pos + i)) =
      buffers.flatten := by
    refine ext_getElem (by simp) fun i hi hi' => ?_
    rw [getElem_map, getElem_range, (hbytes i _ (getElem?_eq_getElem hi')).2]
  rw [ramfsRead_eq hok hdata hend, hall]

/-- Three bytes, in two writes. -/
theorem read_of_writes_two : ∃ f', ramfsWrites (fun _ _ => 0) .new 0 [[1, 2], [3]] = .ok (3, f') ∧
    ramfsRead f' 0 3 = .ok (.ok [1, 2, 3], 3) :=
  read_of_writes .new (by decide) (by decide) (by decide)

/-- **A write changes what it writes and nothing else** exactly if there is nothing behind it in its
last page, the new frames are clear where there is a gap, and it is not an empty write to an empty
file. -/
theorem write_frame (h : f.Reachable) (hmax : pos + buffer.length < 2 ^ 63) :
    (∃ f', ramfsWrite fresh f pos buffer = .ok (buffer.length, pos + buffer.length, f') ∧
      (∀ j < f.size, j < pos ∨ pos + buffer.length ≤ j → f'.byte j = f.byte j) ∧
      ∀ j, f.size ≤ j → j < pos → j < f'.size ∧ f'.byte j = 0) ↔
    (f.data = none → 0 < pos + buffer.length) ∧
      (buffer ≠ [] → ∀ j < f.size, pos + buffer.length ≤ j →
      j / 4096 = (pos + buffer.length - 1) / 4096 →
        f.byte j = 0) ∧
      ∀ j, f.size ≤ j → j < pos → fresh (j / 4096) (Fin.ofNat 4096 j) = 0 := by
  by_cases hdata : f.data = none → 0 < pos + buffer.length
  · obtain ⟨f', extra, hwrite, -, -, hend, hlen, hextra, hbyte⟩ :=
      @ramfsWrite_eq fresh f pos buffer h.ok hmax hdata
    have hsize : f.size = 4096 * f.pages.length := h.ok
    have hold : ∀ j < f.size, byteAt (f.pages ++ extra) j = f.byte j :=
      fun j hj => byteAt_append_left (hsize ▸ hj)
    -- a byte of the gap is one of a new page
    have hgap : ∀ j, f.size ≤ j → j < pos → f'.byte j = fresh (j / 4096) (Fin.ofNat 4096 j) := by
      intro j hj hlt
      have hpage : f.pages.length ≤ j / 4096 := by omega
      obtain ⟨page, hget⟩ : ∃ page, extra[j / 4096 - f.pages.length]? = some page := by
        rw [length_append] at hlen
        exact ⟨_, getElem?_eq_getElem (by omega)⟩
      have hfresh := hextra _ page hget
      rw [Nat.add_sub_cancel' hpage] at hfresh
      rw [hbyte, overwritten_of_lt hlt,
        byteAt_of_getElem? ((getElem?_append_right hpage).trans hget), hfresh]
    constructor
    · rintro ⟨f₂, hwrite₂, hsame, hclear⟩
      obtain rfl : f' = f₂ := by
        rw [hwrite] at hwrite₂
        cases hwrite₂
        rfl
      refine ⟨hdata, fun hne j hj hle hpage => ?_, fun j hj hlt => (hgap j hj hlt).symm.trans
        (hclear j hj hlt).2⟩
      have hzero : f'.byte j = 0 := by rw [hbyte, overwritten_of_le hle, if_pos ⟨hne, hpage⟩]
      rw [← hsame j hj (.inr hle), hzero]
    · rintro ⟨-, hlast, hfresh⟩
      refine ⟨f', hwrite, fun j hj hout => ?_, fun j hj hlt =>
        ⟨by omega, (hgap j hj hlt).trans (hfresh j hj hlt)⟩⟩
      rw [hbyte]
      rcases hout with hlt | hle
      · rw [overwritten_of_lt hlt, hold j hj]
      rw [overwritten_of_le hle, hold j hj]
      split_ifs with hpage
      · exact (hlast hpage.1 j hj hle hpage.2).symm
      · rfl
  · -- there is nothing to write, and no list to follow
    obtain ⟨hnone, hzero⟩ := Classical.not_imp.1 hdata
    obtain ⟨rfl, hlen⟩ : pos = 0 ∧ buffer.length = 0 := by omega
    obtain rfl := length_eq_zero_iff.1 hlen
    have hwrite : ramfsWrite fresh f 0 [] = .error .nullData := by
      have hext : ramfsExtend fresh f (toOff ((0 : Nat) + ([] : List (BitVec 8)).length)) = f := by
        rw [ramfsExtend, h.ok.size_eq_zero hnone]
        rfl
      rw [ramfsWrite, hext, ramfsStore, hnone]
      rfl
    rw [hwrite]
    exact ⟨fun ⟨_, hret, _⟩ => (nomatch hret), fun ⟨hpos, _⟩ => absurd hpos hdata⟩

/-- A new file, from its second byte on. -/
theorem write_frame_new : ∃ f', ramfsWrite (fun _ _ => 0) .new 1 [1] = .ok (1, 2, f') ∧
    f'.byte 0 = 0 := by
  obtain ⟨f', hwrite, -, hgap⟩ := (@write_frame (fun _ _ => 0) .new 1 [1] .new (by decide)).2
    ⟨fun _ => by decide, fun _ j hj => absurd hj (Nat.not_lt_zero j), fun _ _ _ => rfl⟩
  exact ⟨f', hwrite, (hgap 0 (Nat.le_refl 0) (by decide)).2⟩

/-- **A write spoils other bytes**: the one behind it in its page, and a gap in a new page.  An
empty write to an empty file follows a null pointer. -/
theorem write_spoils : ramfsWrite (fun _ _ => 0) .new 0 [] = .error .nullData ∧
    (∃ f f', f.Reachable ∧ 1 < f.size ∧ ramfsWrite (fun _ _ => 0) f 0 [3] = .ok (1, 1, f') ∧
    f.byte 1 = 2 ∧
      f'.byte 1 = 0) ∧ ∃ f', ramfsWrite (fun _ _ => 7) .new 1 [1] = .ok (1, 2, f') ∧
      f'.byte 0 = 7 := by
  exact ⟨rfl, ⟨_, _, .write .new (rfl : ramfsWrite (fun _ _ => 0) .new 0 [1, 2] = .ok (2, 2, _)),
    by decide, rfl, rfl, rfl⟩, _, rfl, rfl⟩

/-- **`ramfs_read` stops at the end of the file** exactly if it does not get there. -/
theorem read_within {length : Nat} (h : f.Reachable) :
    ramfsRead f pos length =
    .ok (.ok ((range (min length (f.size - pos))).map fun i => f.byte (pos + i)),
        pos + min length (f.size - pos)) ↔
      f.data = none ∨ pos + length ≤ f.size ∨ length = 0 ∧ pos < f.size + 4096 := by
  rw [ramfsRead_spec h.ok]
  split_ifs with hnone hpast hin
  · have hzero := h.ok.size_eq_zero hnone
    simp [hnone, hzero]
  · have hout : ¬(pos + length ≤ f.size ∨ length = 0 ∧ pos < f.size + 4096) := by omega
    simp [hnone, hout]
  · have hmin : min length (f.size - pos) = length := by omega
    rw [hmin]
    exact ⟨fun _ => .inr (by omega), fun _ => rfl⟩
  · have hout : ¬(pos + length ≤ f.size ∨ length = 0 ∧ pos < f.size + 4096) := by omega
    simp [hnone, hout]

/-- A file that begins with three bytes: the second and the third. -/
theorem read_within_two : ∃ f, f.Reachable ∧ f.size = 4096 ∧
    ramfsRead f 1 2 = .ok (.ok ((range 2).map fun i => f.byte (1 + i)), 3) ∧ f.byte 1 = 2 ∧
    f.byte 2 = 3 := by
  have hf : ∃ f : RamfsInode, f.Reachable ∧ f.size = 4096 ∧ f.byte 1 = 2 ∧ f.byte 2 = 3 :=
    ⟨_, .write .new (rfl : ramfsWrite (fun _ _ => 0) .new 0 [1, 2, 3] = .ok (3, 3, _)), rfl,
    rfl, rfl⟩
  obtain ⟨f, hf, hsize, hbytes⟩ := hf
  have hread := (@read_within f 1 2 hf).2 (.inr (.inl (by omega)))
  rw [hsize] at hread
  exact ⟨f, hf, hsize, hread, hbytes⟩

/-- **Behind the end the list head is taken for a page**, and one page further there is an error. -/
theorem read_past_end : ∃ f, f.Reachable ∧ f.size = 4096 ∧ ramfsRead f 4096 1 = .error .headPage ∧
    ramfsRead f 4095 2 = .error .headPage ∧ ramfsRead f 8192 1 = .ok (.error .enxio, 8192) := by
  refine ⟨_, @RamfsInode.Reachable.write .new _ (fun _ _ => 0) 0 1 1 [1] .new rfl, rfl, ?_, ?_, ?_⟩
  · decide +kernel
  · decide +kernel
  · decide +kernel

end Results

end Monolith.Fs
