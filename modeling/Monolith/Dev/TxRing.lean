import Monolith.Lib.Bytes
import Monolith.Lib.Cyclic
import Monolith.Lib.Run

/-!
# `e1000.c`: the transmit ring

`e1000_send` copies a frame into the page of the current descriptor, fills in the descriptor, and
writes the next index into the tail register.  The device fetches descriptors from its head up to
the tail whenever it likes, and sends what is in their pages.

* `TxRing` is the ring with any number of tasks in `e1000_send` and the device in between; nothing
  keeps two tasks from being in it at once.
* `sends_overtake` is what goes wrong even with one task: nothing in `e1000_send` looks at the head,
  and after 256 frames that the device has not fetched the tail is back at the head, where a full
  ring looks like an empty one.
* `transmit_once` says that everything is sent, once and in order, as long as a call starts when no
  other is under way and fewer than 255 frames are waiting.
-/

namespace Monolith.E1000

open Function Transition Cyclic Bytes List Option

variable {τ : Type}

abbrev Octets := List (BitVec 8)

/-! ## The ring -/

/-- `e1000_tx_desc_t`.  The address is that of the descriptor's page from `e1000_init_tx` on. -/
structure TxDesc where
  length : BitVec 16
  cmd : BitVec 8
  status : BitVec 8
  css : BitVec 8
  special : BitVec 16
  deriving DecidableEq, Repr

def cmdEop : BitVec 8 := 0x01

def cmdIfcs : BitVec 8 := 0x02

def cmdRs : BitVec 8 := 0x08

def cmdRps : BitVec 8 := 0x10

/-- Where a task is in `e1000_send(netdev, buffer, size)`. -/
inductive SendPc where
  | idle
  /-- At the `memcpy`. -/
  | copy (buffer : Octets)
  /-- At the assignments to the descriptor. -/
  | describe (buffer : Octets)
  /-- At the assignment to `cur_tx`. -/
  | advance (buffer : Octets)
  /-- At the write of the tail register. -/
  | ring (buffer : Octets)
  deriving DecidableEq

/-- The descriptors and pages, the registers, and the tasks. -/
structure TxRing (τ : Type) where
  /-- `tx_page[i]` -/
  page : Nat → Nat → BitVec 8
  /-- `tx_descs[i]` -/
  desc : Nat → TxDesc
  curTx : Nat
  /-- `E1000_REG_TXDESC_HEAD` -/
  head : Nat
  /-- `E1000_REG_TXDESC_TAIL` -/
  tail : Nat
  pc : τ → SendPc
  /-- The frames for which `e1000_send` has returned. -/
  accepted : List Octets
  /-- What the device has sent. -/
  wire : List Octets

/-- The ring after `e1000_init_tx`. -/
def e1000InitTx : TxRing τ where
  page _ _ := 0
  desc _ := ⟨0, cmdEop, 0, 0, 0⟩
  curTx := 0
  head := 0
  tail := 0
  pc _ := .idle
  accepted := []
  wire := []

namespace TxRing

/-- What the device reads for a descriptor. -/
def frameAt (s : TxRing τ) (i : Nat) : Octets := take (s.page i) (s.desc i).length.toNat

/-- How many descriptors there are from the head up to the tail. -/
def waiting (s : TxRing τ) : Nat := gap 256 s.head s.tail

/-- The frames the device has yet to fetch. -/
def unfetched (s : TxRing τ) : List Octets := window 256 s.frameAt s.head s.waiting

end TxRing

/-! ## The steps -/

inductive TxAct (τ : Type) where
  | call (t : τ) (buffer : Octets)
  | go (t : τ)
  /-- The device fetches a descriptor. -/
  | fetch
  deriving DecidableEq

section Steps

variable [DecidableEq τ] (s : TxRing τ)

/-- The next step of a task in `e1000_send`. -/
def e1000Send (t : τ) : SendPc → Option (TxRing τ)
  | .idle => none
  | .copy buffer => some { s with
      page := update s.page s.curTx (copy (s.page s.curTx) buffer)
      pc := update s.pc t (.describe buffer) }
  | .describe buffer => some { s with
      desc := update s.desc s.curTx
        { length := BitVec.ofNat 16 buffer.length
          cmd := cmdEop ||| cmdIfcs ||| cmdRs ||| cmdRps
          status := 0
          css := 0
          special := 0 }
      pc := update s.pc t (.advance buffer) }
  | .advance buffer => some { s with
      curTx := (s.curTx + 1) % 256
      pc := update s.pc t (.ring buffer) }
  | .ring buffer => some { s with
      tail := s.curTx
      pc := update s.pc t .idle
      -- the status register is read, and the size returned
      accepted := s.accepted ++ [buffer] }

def fetch : Option (TxRing τ) :=
  if s.head = s.tail then none
  else some { s with head := (s.head + 1) % 256, wire := s.wire ++ [s.frameAt s.head] }

def TxRing.step : TxAct τ → Option (TxRing τ)
  | .call t buffer =>
    if s.pc t = .idle then some { s with pc := update s.pc t (.copy buffer) } else none
  | .go t => e1000Send s t (s.pc t)
  | .fetch => fetch s

end Steps

/-! ## When it goes well -/

/-- A call starts when no task is in `e1000_send` and the device has fewer than 255 descriptors,
with a frame that fits into a page. -/
def TxAct.Fits (s : TxRing τ) : TxAct τ → Prop
  | .call _ buffer => (∀ u, s.pc u = .idle) ∧ s.waiting < 255 ∧ buffer.length ≤ 4096
  | _ => True

namespace TxRing

/-- What holds in a call: `b` frames have been accepted. -/
def InCall (s : TxRing τ) (b : Nat) : SendPc → Prop
  | .idle => False
  | .copy buffer => s.curTx = b % 256 ∧ buffer.length ≤ 4096
  | .describe buffer => s.curTx = b % 256 ∧ buffer.length ≤ 4096 ∧
    take (s.page (b % 256)) buffer.length = buffer
  | .advance buffer => s.curTx = b % 256 ∧ s.frameAt (b % 256) = buffer
  | .ring buffer => s.curTx = (b + 1) % 256 ∧ s.frameAt (b % 256) = buffer

/-- At most one task is in a call, and if one is there is room for its frame. -/
def Calls (s : TxRing τ) (a b : Nat) : Prop :=
  (∀ t, s.pc t = .idle) ∧ s.curTx = b % 256 ∨
    ∃ t, (∀ u, u ≠ t → s.pc u = .idle) ∧ s.InCall b (s.pc t) ∧ b < a + 255

/-- `a` frames have been sent, `b` accepted. -/
structure Inv (s : TxRing τ) (a b : Nat) : Prop where
  sent : s.wire.length = a
  taken : s.accepted.length = b
  head : s.head = a % 256
  tail : s.tail = b % 256
  le : a ≤ b
  room : b ≤ a + 255
  split : s.accepted = s.wire ++ window 256 s.frameAt a (b - a)
  calls : s.Calls a b

variable {s s' : TxRing τ} {a b : Nat} {t : τ} {buffer : Octets} {x : TxAct τ}

theorem Inv.init : (e1000InitTx : TxRing τ).Inv 0 0 where
  sent := rfl
  taken := rfl
  head := rfl
  tail := rfl
  le := Nat.le_refl 0
  room := Nat.zero_le _
  split := rfl
  calls := .inl ⟨fun _ => rfl, rfl⟩

theorem Inv.waiting (h : s.Inv a b) : s.waiting = b - a := by
  have hle := h.le
  have hroom := h.room
  rw [TxRing.waiting, h.head, h.tail, gap_eq hle (by omega)]

theorem Inv.unfetched (h : s.Inv a b) : s.unfetched = window 256 s.frameAt a (b - a) := by
  rw [TxRing.unfetched, h.waiting, h.head, window_mod]

theorem Inv.inCall (h : s.Inv a b) (ht : s.pc t ≠ .idle) :
    (∀ u, u ≠ t → s.pc u = .idle) ∧ s.InCall b (s.pc t) ∧ b < a + 255 := by
  rcases h.calls with ⟨hidle, -⟩ | ⟨u, hu⟩
  · exact absurd (hidle t) ht
  by_cases htu : t = u
  · exact htu ▸ hu
  · exact absurd (hu.1 t htu) ht

variable [DecidableEq τ]

section

variable (h : s.Inv a b)

include h

/-- What a step of the one task in a call has to leave: everything but the slot behind the last
accepted frame. -/
theorem Inv.keep {pc : SendPc} (hpc : s'.pc = update s.pc t pc)
    (hothers : ∀ u, u ≠ t → s.pc u = .idle) (hin : s'.InCall b pc) (hlt : b < a + 255)
    (hframes : ∀ i, i ≠ b % 256 → s'.frameAt i = s.frameAt i) (hhead : s'.head = s.head)
    (htail : s'.tail = s.tail) (hacc : s'.accepted = s.accepted) (hwire : s'.wire = s.wire) :
    s'.Inv a b := by
  have hle := h.le
  refine ⟨?_, ?_, ?_, ?_, hle, h.room, ?_, .inr ⟨t, fun u hu => ?_, ?_, hlt⟩⟩
  · rw [hwire, h.sent]
  · rw [hacc, h.taken]
  · rw [hhead, h.head]
  · rw [htail, h.tail]
  · rw [hacc, hwire, h.split]
    refine congrArg _ (window_congr fun i hi => (hframes _ ?_).symm)
    have hne : (a + i) % 256 ≠ (a + (b - a)) % 256 := slot_ne hi (by omega)
    rwa [Nat.add_sub_cancel' hle] at hne
  · rw [hpc, update_of_ne hu, hothers u hu]
  · rw [hpc, update_self]
    exact hin

theorem Inv.call {t : τ} {buffer : Octets} (hfits : (TxAct.call t buffer).Fits s)
    (hst : s.step (.call t buffer) = some s') : s'.Inv a b := by
  obtain ⟨hidle, hwait, hlen⟩ := hfits
  rw [h.waiting] at hwait
  rw [step, if_pos (hidle t)] at hst
  cases hst
  have hcur : s.curTx = b % 256 := by
    rcases h.calls with ⟨-, hcur⟩ | ⟨u, -, hin, -⟩
    · exact hcur
    · rw [hidle u] at hin
      exact hin.elim
  exact h.keep rfl (fun u _ => hidle u) ⟨hcur, hlen⟩ (by omega) (fun _ _ => rfl) rfl rfl rfl rfl

theorem Inv.ring (hothers : ∀ u, u ≠ t → s.pc u = .idle)
    (hcur : s.curTx = (b + 1) % 256) (hframe : s.frameAt (b % 256) = buffer) (hlt : b < a + 255)
    (hst : e1000Send s t (.ring buffer) = some s') : s'.Inv a (b + 1) := by
  have hle := h.le
  rw [e1000Send] at hst
  cases hst
  refine ⟨h.sent, ?_, h.head, hcur, by omega, by omega, ?_, .inl ⟨fun u => ?_, hcur⟩⟩
  · rw [length_append, h.taken, length_singleton]
  · show s.accepted ++ [buffer] = s.wire ++ window 256 s.frameAt a (b + 1 - a)
    rw [show b + 1 - a =
      b - a + 1 by omega, window_succ, Nat.add_sub_cancel' hle, hframe, h.split, append_assoc]
  · dsimp only
    by_cases hu : u = t
    · rw [hu, update_self]
    · rw [update_of_ne hu, hothers u hu]

theorem Inv.go (hst : s.step (.go t) = some s') : ∃ b', s'.Inv a b' := by
  have ht : s.pc t ≠ .idle := by
    intro hidle
    rw [step, hidle] at hst
    cases hst
  obtain ⟨hothers, hin, hlt⟩ := h.inCall ht
  rw [step] at hst
  cases hpc : s.pc t with
  | idle => exact absurd hpc ht
  | copy buffer =>
    rw [hpc] at hin hst
    obtain ⟨hcur, hlen⟩ := hin
    rw [e1000Send, some_inj, hcur] at hst
    subst hst
    refine ⟨b, h.keep rfl hothers ⟨rfl, hlen, ?_⟩ hlt (fun i hi => ?_) rfl rfl rfl rfl⟩
    · simp [take_copy]
    · simp [hi, frameAt]
  | describe buffer =>
    rw [hpc] at hin hst
    obtain ⟨hcur, hlen, hpage⟩ := hin
    rw [e1000Send, some_inj, hcur] at hst
    subst hst
    refine ⟨b, h.keep rfl hothers ⟨rfl, ?_⟩ hlt (fun i hi => ?_) rfl rfl rfl rfl⟩
    · show take (s.page (b % 256)) (update s.desc (b % 256) _ (b % 256)).length.toNat = buffer
      rw [update_self, BitVec.toNat_ofNat, Nat.mod_eq_of_lt (by omega : buffer.length < 2 ^ 16),
        hpage]
    · simp [hi, frameAt]
  | advance buffer =>
    rw [hpc] at hin hst
    obtain ⟨hcur, hframe⟩ := hin
    rw [e1000Send] at hst
    cases hst
    refine ⟨b, h.keep rfl hothers ⟨?_, hframe⟩ hlt (fun _ _ => rfl) rfl rfl rfl rfl⟩
    rw [hcur, Nat.mod_add_mod]
  | ring buffer =>
    rw [hpc] at hin hst
    exact ⟨b + 1, h.ring hothers hin.1 hin.2 hlt hst⟩

theorem Inv.fetch (hst : s.step .fetch = some s') : a < b ∧ s'.Inv (a + 1) b := by
  have hle := h.le
  have hroom := h.room
  rw [step, E1000.fetch] at hst
  split at hst
  · cases hst
  rename_i hne
  have hab : a < b := by
    refine Nat.lt_of_le_of_ne hle fun heq => hne ?_
    rw [h.head, h.tail, heq]
  cases hst
  have hwindow : window 256 s.frameAt a (b - a) =
      s.frameAt (a % 256) :: window 256 s.frameAt (a + 1) (b - (a + 1)) := by
    rw [show b - a = b - (a + 1) + 1 by omega, window_cons]
  refine ⟨hab, ?_, h.taken, ?_, h.tail, hab, by omega, ?_, ?_⟩
  · rw [length_append, h.sent, length_singleton]
  · rw [h.head, Nat.mod_add_mod]
  · show s.accepted = s.wire ++ [s.frameAt s.head] ++ window 256 s.frameAt (a + 1) (b - (a + 1))
    rw [h.split, hwindow, h.head, append_assoc, singleton_append]
  · rcases h.calls with hidle | ⟨t, hothers, hin, hlt⟩
    · exact .inl hidle
    · refine .inr ⟨t, hothers, ?_, by omega⟩
      exact hin

theorem Inv.step (hfits : x.Fits s) (hst : s.step x = some s') : ∃ a' b', s'.Inv a' b' := by
  cases x with
  | call t buffer => exact ⟨a, b, h.call hfits hst⟩
  | go t => exact ⟨a, h.go hst⟩
  | fetch => exact ⟨a + 1, b, (h.fetch hst).2⟩

end

theorem inv_of_run {as : List (TxAct τ)}
    (hC : Along TxRing.step (fun s x => x.Fits s) e1000InitTx as)
    (hrun : run TxRing.step e1000InitTx as = some s) : ∃ a b, s.Inv a b :=
  run_induction (I := fun s => ∃ a b, s.Inv a b) (fun _ _ _ ⟨_, _, h⟩ hfits hst => h.step hfits hst)
    ⟨0, 0, Inv.init⟩ hC hrun

/-! ## What the device has yet to fetch -/

/-- **No step of a task touches a descriptor or page that the device has yet to fetch.** -/
theorem Inv.untouched (h : s.Inv a b) (hst : s.step x = some s') {k : Nat}
    (hk : k < s.waiting) : s'.page ((s.head + k) % 256) = s.page ((s.head + k) % 256) ∧
      s'.desc ((s.head + k) % 256) = s.desc ((s.head + k) % 256) := by
  have hle := h.le
  have hroom := h.room
  rw [h.waiting] at hk
  have hne : (s.head + k) % 256 ≠ b % 256 := by
    have hne : (a + k) % 256 ≠ (a + (b - a)) % 256 := slot_ne hk (by omega)
    rwa [Nat.add_sub_cancel' hle, ← Nat.mod_add_mod, ← h.head] at hne
  cases x with
  | call t buffer =>
    rw [TxRing.step] at hst
    split at hst
    · cases hst
      exact ⟨rfl, rfl⟩
    · cases hst
  | fetch =>
    rw [TxRing.step, E1000.fetch] at hst
    split at hst
    · cases hst
    · cases hst
      exact ⟨rfl, rfl⟩
  | go t =>
    by_cases ht : s.pc t = .idle
    · rw [TxRing.step, ht] at hst
      cases hst
    have hin := (h.inCall ht).2.1
    rw [TxRing.step] at hst
    cases hpc : s.pc t with
    | idle => exact absurd hpc ht
    | copy buffer =>
      rw [hpc] at hin hst
      rw [e1000Send, some_inj, hin.1] at hst
      subst hst
      exact ⟨update_of_ne hne _ _, rfl⟩
    | describe buffer =>
      rw [hpc] at hin hst
      rw [e1000Send, some_inj, hin.1] at hst
      subst hst
      exact ⟨rfl, update_of_ne hne _ _⟩
    | advance buffer | ring buffer =>
      rw [hpc, e1000Send] at hst
      cases hst
      exact ⟨rfl, rfl⟩

/-- A device that goes on sends everything that has been accepted. -/
theorem Inv.drain (h : s.Inv a b) : ∃ t, run TxRing.step s (replicate s.waiting .fetch) = some t ∧
    t.accepted = s.accepted ∧ t.wire = s.accepted := by
  rw [h.waiting]
  obtain ⟨n, hn⟩ : ∃ n, b - a = n := ⟨_, rfl⟩
  rw [hn]
  induction n generalizing s a with
  | zero =>
    refine ⟨s, rfl, rfl, ?_⟩
    rw [h.split, hn, window_zero, append_nil]
  | succ n ih =>
    have hne : s.head ≠ s.tail := by
      have hroom := h.room
      rw [h.head, h.tail, ← Nat.add_sub_cancel' h.le]
      exact slot_ne (k := b - a) (i := 0) (by omega) (by omega)
    have hst : s.step .fetch =
        some { s with head := (s.head + 1) % 256, wire := s.wire ++ [s.frameAt s.head] } := by
      rw [TxRing.step, E1000.fetch, if_neg hne]
    obtain ⟨t, hrun, hacc, hwire⟩ := ih (h.fetch hst).2 (by omega)
    exact ⟨t, run_cons_eq_some.2 ⟨_, hst, hrun⟩, hacc, hwire⟩

end TxRing

/-- **Every frame is sent once, in order.**  In every run whose calls all fit, the accepted frames
are those that have been sent followed by those that wait from the head up to the tail; no step
touches a descriptor or a page of these; and a device that goes on sends them all. -/
theorem transmit_once {τ : Type} [DecidableEq τ] {as : List (TxAct τ)} {s : TxRing τ}
    (hfits : Along TxRing.step (fun s x => x.Fits s) e1000InitTx as)
    (hrun : run TxRing.step e1000InitTx as = some s) : s.accepted = s.wire ++ s.unfetched ∧
    (∀ x s', s.step x = some s' → ∀ k < s.waiting, s'.page ((s.head + k) % 256) = s.page
    ((s.head + k) % 256) ∧
      s'.desc ((s.head + k) % 256) = s.desc ((s.head + k) % 256)) ∧
    ∃ t, run TxRing.step s (replicate s.waiting .fetch) = some t ∧ t.accepted = s.accepted ∧
    t.wire = s.accepted := by
  obtain ⟨a, b, h⟩ := TxRing.inv_of_run hfits hrun
  refine ⟨?_, fun x s' hst k hk => h.untouched hst hk, h.drain⟩
  rw [h.unfetched]
  exact h.split

/-- A call, from its start to its end. -/
def send (buffer : Octets) : List (TxAct Unit) := [.call () buffer, .go (), .go (), .go (), .go ()]

/-- One frame is sent, and the device fetches it. -/
theorem transmit_once_frame : ∃ s : TxRing Unit,
    run TxRing.step e1000InitTx (send [7] ++ [.fetch]) = some s ∧
    s.accepted = s.wire ++ s.unfetched ∧
    (∀ x s', s.step x = some s' → ∀ k < s.waiting, s'.page ((s.head + k) % 256) = s.page
    ((s.head + k) % 256) ∧
      s'.desc ((s.head + k) % 256) = s.desc ((s.head + k) % 256)) ∧
    ∃ t, run TxRing.step s (replicate s.waiting .fetch) = some t ∧ t.accepted = s.accepted ∧
    t.wire = s.accepted := by
  have hfits : Along TxRing.step (fun s x => x.Fits s) (e1000InitTx : TxRing Unit)
      (send [7] ++ [.fetch]) :=
    ⟨⟨fun _ => rfl, by decide, by decide⟩, fun _ _ => ⟨trivial, fun _ _ => ⟨trivial, fun _ _ =>
      ⟨trivial, fun _ _ => ⟨trivial, fun _ _ => ⟨trivial, fun _ _ => trivial⟩⟩⟩⟩⟩⟩
  exact ⟨_, rfl, transmit_once hfits rfl⟩

/-! ## When the device is slow -/

/-- 256 frames are accepted while the device does nothing, and then there is none for it to fetch;
the next frame is written over the first one, and is the only one that is ever sent. -/
theorem sends_overtake : ∃ s s' : TxRing Unit,
    run TxRing.step e1000InitTx (replicate 256 (send [1])).flatten = some s ∧
    s.accepted = replicate 256 [1] ∧ s.wire = [] ∧ s.step .fetch = none ∧
    run TxRing.step s (send [2]) = some s' ∧ s'.frameAt 0 = [2] ∧ s'.wire = [] ∧
    s'.unfetched = [[2]] := by
  simp only [exists_and_left]
  decide +kernel

end Monolith.E1000
