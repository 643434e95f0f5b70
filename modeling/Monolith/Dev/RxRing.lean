import Monolith.Lib.Bytes
import Monolith.Lib.Cyclic
import Monolith.Lib.Run

/-!
# `e1000.c`: the receive ring

The device stores a frame in the page of the descriptor at its head, sets the done bit and goes on,
as long as the head is not the tail.  `e1000_irq` takes frames from `cur_rx` on, clears the done
bits, hands the frames to `ether_rx_packet`, and writes the index of the last one into the tail
register when there is no more.

* `RxRing` is the ring with the device and the handler, one access at a time; the device may store
  frames at any point of the handler's loop.
* `RxRing.Inv` counts: `c` frames have been taken, `h` stored, and the device may store up to `t` of
  them, with `c ≤ h ≤ t ≤ c + 255`.  The tail register lags behind, which is what keeps the device
  away from frames that have been cleared and not yet handed on.
* `receive_once` is the result: every frame is handed on once, in order, and none is overwritten
  before that.
-/

namespace Monolith.E1000

open Function Transition Cyclic Bytes Option List

/-! ## The ring -/

/-- `e1000_rx_desc_t`.  The address is that of the descriptor's page from `e1000_init_rx` on. -/
structure RxDesc where
  length : BitVec 16
  status : BitVec 8
  deriving DecidableEq, Repr

/-- `status & 0x1` -/
def RxDesc.done (d : RxDesc) : Bool := d.status &&& 0x1 ≠ 0

/-- Where the handler is, with its variables `got_packet` and `old_rx`. -/
inductive IrqPc where
  | idle
  /-- At the condition of the loop. -/
  | test (gotPacket : Bool) (oldRx : Nat)
  /-- At `desc->status = 0`. -/
  | clear (gotPacket : Bool) (oldRx : Nat)
  /-- At `ether_rx_packet`. -/
  | pass (gotPacket : Bool) (oldRx : Nat)
  /-- At the assignments to `old_rx` and `cur_rx`. -/
  | next
  /-- Behind the loop. -/
  | leave (gotPacket : Bool) (oldRx : Nat)
  deriving DecidableEq, Repr

/-- The descriptors and pages, the registers, and the handler. -/
structure RxRing where
  /-- `rx_page[i]` -/
  page : Nat → Nat → BitVec 8
  /-- `rx_descs[i]` -/
  desc : Nat → RxDesc
  curRx : Nat
  /-- `E1000_REG_RXDESC_HEAD` -/
  head : Nat
  /-- `E1000_REG_RXDESC_TAIL` -/
  tail : Nat
  pc : IrqPc
  /-- What the device has stored. -/
  stored : List (List (BitVec 8))
  /-- What `ether_rx_packet` has been called with. -/
  delivered : List (List (BitVec 8))

/-- The ring after `e1000_init_rx`. -/
def e1000InitRx : RxRing where
  page _ _ := 0
  desc _ := ⟨0, 0⟩
  curRx := 0
  head := 0
  tail := 255
  pc := .idle
  stored := []
  delivered := []

namespace RxRing

variable (s : RxRing)

/-- What is found in the page of a descriptor. -/
def frameAt (i : Nat) : List (BitVec 8) := take (s.page i) (s.desc i).length.toNat

/-- The descriptor of the first frame that has not been handed on. -/
def first : Nat :=
  match s.pc with
  | .next => (s.curRx + 1) % 256
  | _ => s.curRx

/-- How many frames have been stored and not been handed on. -/
def pending : Nat := gap 256 s.first s.head

/-- These frames, as they are found in memory. -/
def undelivered : List (List (BitVec 8)) := window 256 s.frameAt s.first s.pending

end RxRing

/-! ## The steps -/

inductive RxAct where
  /-- The device stores a frame, and a status with the done bit. -/
  | store (frame : List (BitVec 8)) (status : BitVec 8)
  /-- An interrupt, with the causes that are read from the device. -/
  | irq (icr : BitVec 32)
  | go
  deriving DecidableEq

section Steps

variable (s : RxRing)

/-- The device.  It has been told that the pages have 4096 bytes. -/
def store (frame : List (BitVec 8)) (status : BitVec 8) : Option RxRing :=
  if s.head = s.tail ∨ 4096 < frame.length ∨ status &&& 0x1 = 0 then none
  else some { s with
    page := update s.page s.head (copy (s.page s.head) frame)
    desc := update s.desc s.head ⟨BitVec.ofNat 16 frame.length, status⟩
    head := (s.head + 1) % 256
    stored := s.stored ++ [frame] }

def icrRxq0 : BitVec 32 := 0x00100000

/-- `e1000_irq`, up to its loop. -/
def e1000Irq (icr : BitVec 32) : RxRing :=
  if icr = 0 then s
  else if icr &&& icrRxq0 ≠ 0 then { s with pc := .test false 0 }
  else s

def advance : IrqPc → Option RxRing
  | .idle => none
  | .test gotPacket oldRx =>
    some { s with
      pc := if (s.desc s.curRx).done then .clear gotPacket oldRx else .leave gotPacket oldRx }
  | .clear gotPacket oldRx => some { s with
      desc := update s.desc s.curRx { s.desc s.curRx with status := 0 }
      pc := .pass gotPacket oldRx }
  | .pass _ _ => some { s with
      delivered := s.delivered ++ [s.frameAt s.curRx]
      pc := .next }
  | .next => some { s with
      curRx := (s.curRx + 1) % 256
      pc := .test true s.curRx }
  | .leave gotPacket oldRx => some { s with
      tail := if gotPacket then oldRx else s.tail
      pc := .idle }

def RxRing.step : RxAct → Option RxRing
  | .store frame status => store s frame status
  | .irq icr => if s.pc = .idle then some (e1000Irq s icr) else none
  | .go => advance s s.pc

end Steps

/-! ## The invariant -/

variable {gotPacket : Bool} {oldRx : Nat}

namespace RxRing

/-- A frame is handed on between `ether_rx_packet` and the assignment to `cur_rx`. -/
def passed : IrqPc → Nat
  | .next => 1
  | _ => 0

/-- A done bit is cleared between `desc->status = 0` and the assignment to `cur_rx`. -/
def cleared : IrqPc → Nat
  | .pass _ _ => 1
  | .next => 1
  | _ => 0

/-- What the handler knows: there is a frame to take, and `old_rx` is the one before `cur_rx`. -/
def Knows (c h : Nat) : IrqPc → Prop
  | .idle => True
  | .test gotPacket oldRx => gotPacket = true → oldRx = (c + 255) % 256
  | .clear _ _ => c < h
  | .pass _ _ => c < h
  | .next => c < h
  | .leave gotPacket oldRx => gotPacket = true → oldRx = (c + 255) % 256

theorem done_zero (length : BitVec 16) : RxDesc.done ⟨length, 0⟩ = false := by
  show decide ((0 : BitVec 8) &&& 0x1 ≠ 0) = false
  decide

theorem frameAt_clear (s : RxRing) (pc : IrqPc) (i : Nat) :
    ({ s with desc := update s.desc s.curRx { s.desc s.curRx with status := 0 }, pc } :
    RxRing).frameAt i =
      s.frameAt i := by
  show take (s.page i)
    (update s.desc s.curRx { s.desc s.curRx with status := 0 } i).length.toNat = _
  by_cases heq : i = s.curRx
  · rw [heq, update_self, RxRing.frameAt]
  · rw [update_of_ne heq, RxRing.frameAt]

/-- `c` frames have been taken, `h` have been stored, and the device stores up to `t` of them. -/
structure Inv (s : RxRing) (c h t : Nat) : Prop where
  cur : s.curRx = c % 256
  head : s.head = h % 256
  tail : s.tail = t % 256
  handed : s.delivered.length = c + passed s.pc
  le : c + cleared s.pc ≤ h
  limit : h ≤ t
  room : t ≤ c + 255
  split : s.stored = s.delivered ++ window 256 s.frameAt (c + passed s.pc) (h - (c + passed s.pc))
  full : ∀ x, c + cleared s.pc ≤ x → x < h → (s.desc (x % 256)).done = true
  free : ∀ x, h ≤ x → x < c + cleared s.pc + 256 → (s.desc (x % 256)).done = false
  knows : Knows c h s.pc

variable {s s' : RxRing} {c h t : Nat}

theorem Inv.init : e1000InitRx.Inv 0 0 255 where
  cur := rfl
  head := rfl
  tail := rfl
  handed := rfl
  le := Nat.le_refl 0
  limit := by decide
  room := by decide
  split := rfl
  full _ _ hx := by omega
  free _ _ _ := done_zero 0
  knows := trivial

theorem passed_le_cleared (pc : IrqPc) : passed pc ≤ cleared pc := by
  cases pc <;> simp [passed, cleared]

section

variable (hi : s.Inv c h t)

include hi

theorem Inv.first : s.first = (c + passed s.pc) % 256 := by
  rw [RxRing.first]
  cases s.pc with
  | next => rw [hi.cur, Nat.mod_add_mod, passed]
  | idle | test _ _ | clear _ _ | pass _ _ | leave _ _ => exact hi.cur

theorem Inv.pending : s.pending = h - (c + passed s.pc) := by
  have hle := hi.le
  have hlimit := hi.limit
  have hroom := hi.room
  have hpassed := passed_le_cleared s.pc
  rw [RxRing.pending, hi.first, hi.head, gap_eq (by omega) (by omega)]

theorem Inv.undelivered :
    s.undelivered = window 256 s.frameAt (c + passed s.pc) (h - (c + passed s.pc)) := by
  rw [RxRing.undelivered, hi.pending, hi.first, window_mod]

/-! ## The device -/

/-- The device stores a frame only where there is none that has not been handed on. -/
theorem Inv.head_ne (hlt : h < t) {x : Nat} (hx : c ≤ x) (hxh : x < h) : x % 256 ≠ s.head := by
  have hroom := hi.room
  rw [hi.head]
  have hne : (x + 0) % 256 ≠ (x + (h - x)) % 256 := slot_ne (by omega) (by omega)
  rwa [Nat.add_sub_cancel' (le_of_lt hxh)] at hne

theorem Inv.store {frame : List (BitVec 8)} {status : BitVec 8}
    (hst : s.step (.store frame status) = some s') : h < t ∧ s'.Inv c (h + 1) t := by
  have hle := hi.le
  have hlimit := hi.limit
  have hroom := hi.room
  have hpassed := passed_le_cleared s.pc
  rw [step, E1000.store] at hst
  split at hst
  · cases hst
  rename_i hcond
  obtain ⟨hne, hlen, hdone⟩ : s.head ≠ s.tail ∧ frame.length ≤ 4096 ∧ status &&& 0x1 ≠ 0 := by
    simpa [not_or] using hcond
  have hlt : h < t := by
    refine Nat.lt_of_le_of_ne hlimit fun heq => hne ?_
    rw [hi.head, hi.tail, heq]
  cases hst
  -- what is in the other slots stays
  have hother : ∀ x, c ≤ x → x < h → x % 256 ≠ s.head := fun x hx hxh => hi.head_ne hlt hx hxh
  have hnew : take (update s.page s.head (copy (s.page s.head) frame) (h % 256))
      (update s.desc s.head ⟨BitVec.ofNat 16 frame.length, status⟩ (h % 256)).length.toNat =
      frame := by
    rw [← hi.head, update_self, update_self, BitVec.toNat_ofNat,
      Nat.mod_eq_of_lt (by omega : frame.length < 2 ^ 16), take_copy]
  refine ⟨hlt, hi.cur, ?_, hi.tail, hi.handed, Nat.le_succ_of_le hle, hlt, hroom, ?_,
    fun x hx hxh => ?_, fun x hx hxe => ?_, ?_⟩
  · rw [hi.head, Nat.mod_add_mod]
  · rw [show h + 1 - (c + passed s.pc) = h - (c + passed s.pc) + 1 by omega, window_succ,
      show c + passed s.pc + (h - (c + passed s.pc)) = h by omega, ← append_assoc]
    rw [hi.split]
    refine congrArg₂ (· ++ ·) (congrArg _ (window_congr fun i hik => ?_))
      (congrArg (· :: []) hnew.symm)
    show s.frameAt _ = take (update s.page s.head _ _) (update s.desc s.head _ _).length.toNat
    rw [update_of_ne (hother _ (by omega) (by omega)),
      update_of_ne (hother _ (by omega) (by omega)), RxRing.frameAt]
  · dsimp only
    rcases lt_or_ge x h with hlt' | hge
    · rw [update_of_ne (hother x (by omega) hlt')]
      exact hi.full x hx hlt'
    · rw [show x = h by omega, ← hi.head, update_self]
      exact decide_eq_true hdone
  · replace hxe : x < c + cleared s.pc + 256 := hxe
    dsimp only
    have hne' : (h + 0) % 256 ≠ (h + (x - h)) % 256 := slot_ne (by omega) (by omega)
    rw [add_zero, Nat.add_sub_cancel' (by omega : h ≤ x), ← hi.head] at hne'
    rw [update_of_ne hne'.symm]
    exact hi.free x (by omega) hxe
  · have hknows := hi.knows
    cases hpc : s.pc with
    | idle => trivial
    | test _ _ | leave _ _ => rw [hpc] at hknows; exact hknows
    | clear _ _ | pass _ _ | next => rw [hpc] at hknows; exact Nat.lt_succ_of_lt hknows

/-- **The device leaves the frames alone that have not been handed on.** -/
theorem Inv.untouched {frame : List (BitVec 8)} {status : BitVec 8}
    (hst : s.step (.store frame status) = some s') {k : Nat} (hk : k < s.pending) :
    s'.page ((s.first + k) % 256) = s.page ((s.first + k) % 256) ∧
      s'.desc ((s.first + k) % 256) = s.desc ((s.first + k) % 256) := by
  have hlt := (hi.store hst).1
  rw [hi.pending] at hk
  have hne : (s.first + k) % 256 ≠ s.head := by
    rw [hi.first, Nat.mod_add_mod]
    exact hi.head_ne hlt (by omega) (by omega)
  rw [step, E1000.store] at hst
  split at hst
  · cases hst
  · cases hst
    exact ⟨update_of_ne hne _ _, update_of_ne hne _ _⟩

/-! ## The handler -/

theorem Inv.irq {icr : BitVec 32} (hst : s.step (.irq icr) = some s') : s'.Inv c h t := by
  obtain ⟨hpc, hst⟩ := ite_none_right_eq_some.1 hst
  cases hst
  have hgo : ({ s with pc := .test false 0 } : RxRing).Inv c h t := by
    have hhanded := hi.handed
    have hle := hi.le
    have hsplit := hi.split
    have hfull := hi.full
    have hfree := hi.free
    rw [hpc] at hhanded hle hsplit hfull hfree
    exact ⟨hi.cur, hi.head, hi.tail, hhanded, hle, hi.limit, hi.room, hsplit, hfull, hfree,
      fun h => by cases h⟩
  rw [e1000Irq]
  split
  · exact hi
  split
  · exact hgo
  · exact hi

/-- The condition of the loop: there is another frame exactly if not all have been taken. -/
theorem Inv.done_iff (hcleared : cleared s.pc = 0) : (s.desc s.curRx).done = true ↔ c < h := by
  rw [hi.cur]
  constructor
  · intro hdone
    by_contra hge
    have hfree := hi.free c (by omega) (by omega)
    simp [hdone] at hfree
  · intro hlt
    exact hi.full c (by omega) hlt

theorem Inv.test (hpc : s.pc = .test gotPacket oldRx) :
    ({ s with
      pc := if (s.desc s.curRx).done then .clear gotPacket oldRx
        else .leave gotPacket oldRx } : RxRing).Inv
      c h t := by
  have hdone := hi.done_iff (by rw [hpc]; rfl)
  obtain ⟨hcur, hhead, htail, hhanded, hle, hlimit, hroom, hsplit, hfull, hfree, hknows⟩ := hi
  simp only [hpc] at *
  split_ifs with hd
  · exact ⟨hcur, hhead, htail, hhanded, hle, hlimit, hroom, hsplit, hfull, hfree, hdone.1 hd⟩
  · exact ⟨hcur, hhead, htail, hhanded, hle, hlimit, hroom, hsplit, hfull, hfree, hknows⟩

theorem Inv.clear (hpc : s.pc = .clear gotPacket oldRx) :
    ({ s with desc := update s.desc s.curRx { s.desc s.curRx with status := 0 },
              pc := .pass gotPacket oldRx } : RxRing).Inv c h t := by
  obtain ⟨hcur, hhead, htail, hhanded, hle, hlimit, hroom, hsplit, hfull, hfree, hknows⟩ := hi
  simp only [hpc] at *
  have hlt : c < h := hknows
  refine ⟨hcur, hhead, htail, hhanded, hlt, hlimit, hroom, ?_, fun x hx hxh => ?_, fun x hx hxe =>
    ?_, hlt⟩
  · refine hsplit.trans (congrArg _ (window_congr fun i _ => ?_))
    exact (frameAt_clear s _ _).symm
  · show (update s.desc s.curRx _ (x % 256)).done = true
    simp only [cleared] at hx
    have hne : (c + 0) % 256 ≠ (c + (x - c)) % 256 := slot_ne (by omega) (by omega)
    rw [add_zero, Nat.add_sub_cancel' (by omega : c ≤ x), ← hcur] at hne
    rw [update_of_ne hne.symm]
    exact hfull x (by simp only [cleared]; omega) hxh
  · dsimp only
    by_cases heq : x % 256 = s.curRx
    · rw [heq, update_self, done_zero]
    rw [update_of_ne heq]
    refine hfree x hx ?_
    simp only [cleared] at hxe ⊢
    rcases lt_or_ge x (c + 256) with hlt' | hge
    · exact hlt'
    · exact absurd
        (show x % 256 = s.curRx by rw [hcur, show x = c + 256 by omega, Nat.add_mod_right]) heq

theorem Inv.pass (hpc : s.pc = .pass gotPacket oldRx) :
    ({ s with
      delivered := s.delivered ++ [s.frameAt s.curRx], pc := .next } : RxRing).Inv c h t := by
  obtain ⟨hcur, hhead, htail, hhanded, hle, hlimit, hroom, hsplit, hfull, hfree, hknows⟩ := hi
  simp only [hpc] at *
  have hlt : c < h := hknows
  refine ⟨hcur, hhead, htail, ?_, hle, hlimit, hroom, ?_, hfull, hfree, hlt⟩
  · rw [length_append, hhanded]
    rfl
  show s.stored = s.delivered ++ [s.frameAt s.curRx] ++ window 256 s.frameAt (c + 1) (h - (c + 1))
  have hwindow : window 256 s.frameAt c (h - c) =
      s.frameAt (c % 256) :: window 256 s.frameAt (c + 1) (h - (c + 1)) := by
    rw [show h - c = h - (c + 1) + 1 by omega, window_cons]
  rw [hsplit, hcur, append_assoc, singleton_append, ← hwindow]
  rfl

theorem Inv.next (hpc : s.pc = .next) :
    ({ s with curRx := (s.curRx + 1) % 256, pc := .test true s.curRx } : RxRing).Inv
    (c + 1) h t := by
  obtain ⟨hcur, hhead, htail, hhanded, hle, hlimit, hroom, hsplit, hfull, hfree, hknows⟩ := hi
  simp only [hpc] at *
  refine ⟨?_, hhead, htail, hhanded, hle, hlimit, by omega, hsplit, hfull, hfree, fun _ => ?_⟩
  · rw [hcur, Nat.mod_add_mod]
  · rw [hcur, show c + 1 + 255 = c + 256 by omega, Nat.add_mod_right]

theorem Inv.leave (hpc : s.pc = .leave gotPacket oldRx) :
    ∃ t', ({ s with
      tail := if gotPacket then oldRx else s.tail, pc := .idle } : RxRing).Inv c h t' := by
  obtain ⟨hcur, hhead, htail, hhanded, hle, hlimit, hroom, hsplit, hfull, hfree, hknows⟩ := hi
  simp only [hpc] at *
  cases gotPacket with
  | false =>
    exact ⟨t, hcur, hhead, htail, hhanded, hle, hlimit, hroom, hsplit, hfull, hfree, trivial⟩
  | true =>
    exact ⟨c + 255, hcur, hhead, hknows rfl, hhanded, hle,
      by omega, le_rfl, hsplit, hfull, hfree, trivial⟩

theorem Inv.step {x : RxAct} (hst : s.step x = some s') : ∃ c' h' t', s'.Inv c' h' t' := by
  cases x with
  | store frame status => exact ⟨c, h + 1, t, (hi.store hst).2⟩
  | irq icr => exact ⟨c, h, t, hi.irq hst⟩
  | go =>
    rw [RxRing.step] at hst
    cases hpc : s.pc with try rw [hpc, advance, some_inj] at hst
    | idle =>
      rw [hpc] at hst
      cases hst
    | test gotPacket oldRx => exact ⟨c, h, t, hst ▸ hi.test hpc⟩
    | clear gotPacket oldRx => exact ⟨c, h, t, hst ▸ hi.clear hpc⟩
    | pass gotPacket oldRx => exact ⟨c, h, t, hst ▸ hi.pass hpc⟩
    | next => exact ⟨c + 1, h, t, hst ▸ hi.next hpc⟩
    | leave gotPacket oldRx => exact ⟨c, h, hst ▸ hi.leave hpc⟩

end

theorem inv_of_run {as : List RxAct} (hrun : run RxRing.step e1000InitRx as = some s) :
    ∃ c h t, s.Inv c h t :=
  run_invariant (I := fun s => ∃ c h t, s.Inv c h t) (fun _ _ _ ⟨_, _, _, hi⟩ hst => hi.step hst)
    ⟨0, 0, 255, Inv.init⟩ hrun

/-! ## A run of the handler -/

theorem Inv.all_delivered (hi : s.Inv c h t) (hpc : s.pc = .test gotPacket oldRx)
    (hdone : (s.desc s.curRx).done = false) : s.delivered = s.stored := by
  have hch : ¬ c < h := by
    rw [← hi.done_iff (by rw [hpc]; rfl), hdone]
    exact Bool.false_ne_true
  have hzero : h - (c + passed s.pc) = 0 := by omega
  rw [hi.split, hzero, window_zero, append_nil]

theorem Inv.round (hi : s.Inv c h t) (hpc : s.pc = .test gotPacket oldRx) (hlt : c < h) :
    ∃ u, run RxRing.step s (replicate 4 .go) = some u ∧ u.Inv (c + 1) h t ∧
      u.stored = s.stored ∧ u.pc = .test true s.curRx := by
  have hdone := (hi.done_iff (by rw [hpc]; rfl)).2 hlt
  have h1 := hi.test hpc
  rw [if_pos hdone] at h1
  have h4 := ((h1.clear rfl).pass rfl).next rfl
  refine ⟨_, ?_, h4, rfl, rfl⟩
  simp [replicate, run, RxRing.step, hpc, advance, hdone]

theorem Inv.loop (hi : s.Inv c h t) (hpc : s.pc = .test gotPacket oldRx) :
    ∃ n u, run RxRing.step s (replicate n .go) = some u ∧ u.pc = .idle ∧ u.stored = s.stored ∧
      u.delivered = s.stored := by
  have hle := hi.le
  obtain ⟨m, hm⟩ : ∃ m, h - c = m := ⟨_, rfl⟩
  induction m generalizing s c gotPacket oldRx with
  | zero =>
    have hdone : (s.desc s.curRx).done = false := by
      rw [← Bool.not_eq_true, hi.done_iff (by rw [hpc]; rfl)]
      omega
    refine ⟨2, { s with tail := if gotPacket then oldRx else s.tail, pc := .idle }, ?_, rfl, rfl,
      hi.all_delivered hpc hdone⟩
    simp [replicate, run, RxRing.step, hpc, advance, hdone]
  | succ m ih =>
    obtain ⟨u, hrun, hu, hstored, hpcu⟩ := hi.round hpc (by omega)
    obtain ⟨n, v, hrunv, hidle, hstoredv, hdelivered⟩ := ih hu hpcu hu.le (by omega)
    refine ⟨4 + n, v, ?_, hidle, hstoredv.trans hstored, hdelivered.trans hstored⟩
    rw [replicate_add, run_append, hrun, bind_some, hrunv]

end RxRing

/-- **Every frame is handed on once, in order.**  In every run of the device and the handler: the
stored frames are those that have been handed on followed by those that are found in the ring; the
device touches none of these; the handler leaves its loop only when none is left; and once it is
called for a received frame it hands on all of them. -/
theorem receive_once {as : List RxAct} {s : RxRing}
    (hrun : run RxRing.step e1000InitRx as = some s) : s.stored = s.delivered ++ s.undelivered ∧
    (∀ frame status s', s.step (.store frame status) = some s' → ∀ k < s.pending,
      s'.page ((s.first + k) % 256) = s.page ((s.first + k) % 256) ∧
      s'.desc ((s.first + k) % 256) = s.desc ((s.first + k) % 256)) ∧
    (∀ gotPacket oldRx s', s.pc = .test gotPacket oldRx → s.step .go = some s' →
    s'.pc = .leave gotPacket oldRx →
      s'.delivered = s'.stored) ∧ ∀ icr, icr &&& icrRxq0 ≠ 0 → s.pc = .idle →
      ∃ n t, run RxRing.step s (.irq icr :: replicate n .go) = some t ∧ t.pc = .idle ∧
        t.stored = s.stored ∧ t.delivered = s.stored := by
  obtain ⟨c, h, t, hi⟩ := RxRing.inv_of_run hrun
  refine ⟨?_, fun frame status s' hst k hk => hi.untouched hst hk,
    fun gotPacket oldRx s' hpc hst hleave => ?_, fun icr hicr hidle => ?_⟩
  · rw [hi.undelivered]
    exact hi.split
  · rw [RxRing.step, hpc, advance] at hst
    cases hst
    by_cases hd : (s.desc s.curRx).done = true
    · simp [hd] at hleave
    · exact hi.all_delivered hpc (Bool.not_eq_true _ ▸ hd)
  · have hne : icr ≠ 0 := by
      rintro rfl
      exact hicr (by decide)
    have hst : s.step (.irq icr) = some { s with pc := .test false 0 } := by
      rw [RxRing.step, if_pos hidle, e1000Irq, if_neg hne, if_pos hicr]
    obtain ⟨n, u, hrunu, hpc, hstored, hdelivered⟩ := (hi.irq hst).loop rfl
    exact ⟨n, u, run_cons_eq_some.2 ⟨_, hst, hrunu⟩, hpc, hstored, hdelivered⟩

/-- A frame is stored, and one more while the handler is in its loop. -/
def storeTwo : List RxAct := [.store [1, 2] 3, .irq icrRxq0, .go, .go, .store [4] 1, .go, .go, .go]

theorem receive_once_two : ∃ s, run RxRing.step e1000InitRx storeTwo = some s ∧
    s.stored = [[1, 2], [4]] ∧ s.delivered = [[1, 2]] ∧ s.stored = s.delivered ++ s.undelivered ∧
    (∀ frame status s', s.step (.store frame status) = some s' → ∀ k < s.pending,
      s'.page ((s.first + k) % 256) = s.page ((s.first + k) % 256) ∧
      s'.desc ((s.first + k) % 256) = s.desc ((s.first + k) % 256)) ∧
    (∀ gotPacket oldRx s', s.pc = .test gotPacket oldRx → s.step .go = some s' →
    s'.pc = .leave gotPacket oldRx →
      s'.delivered = s'.stored) ∧ ∀ icr, icr &&& icrRxq0 ≠ 0 → s.pc = .idle →
      ∃ n t, run RxRing.step s (.irq icr :: replicate n .go) = some t ∧ t.pc = .idle ∧
        t.stored = s.stored ∧ t.delivered = s.stored := by
  obtain ⟨s, hs, hstored, hdelivered⟩ : ∃ s, run RxRing.step e1000InitRx storeTwo = some s ∧
      s.stored = [[1, 2], [4]] ∧ s.delivered = [[1, 2]] := by decide +kernel
  exact ⟨s, hs, hstored, hdelivered, receive_once hs⟩

end Monolith.E1000
