import Mathlib.Data.Fintype.Card
import Monolith.Lib.Run

/-!
# `sys/spinlock.h`: the ticket lock

`spinlock_acquire` takes a ticket from one 16-bit counter and waits until the other one has come to
it; `spinlock_release` moves that one on.  Both counters wrap around.

`SpinSys` is any number of CPUs at it, one atomic access at a time.  What the counters mean is a
list: the CPUs that have a ticket, in the order they took it, are numbered from `now_serving` on
(`SpinSys.Inv`).  As long as the list is shorter than a round, no two of them have one number, and
`spinlock_excludes_in_order` is read off the list.
-/

namespace Monolith

open Function Transition List Option

/-! ## The accesses -/

/-- `spinlock_t` -/
structure Spinlock where
  nextTicket : BitVec 16
  nowServing : BitVec 16

def spinlockInit : Spinlock := { nextTicket := 0, nowServing := 0 }

/-- The `fetch_add` of `spinlock_acquire`, with the ticket it returns. -/
def takeTicket (spin : Spinlock) : BitVec 16 × Spinlock :=
  (spin.nextTicket, { spin with nextTicket := spin.nextTicket + 1 })

/-- The load in the loop of `spinlock_acquire`: whether the loop ends. -/
def isServed (spin : Spinlock) (ticket : BitVec 16) : Bool := spin.nowServing == ticket

def spinlockRelease (spin : Spinlock) : Spinlock := { spin with nowServing := spin.nowServing + 1 }

/-! ## Any number of CPUs on one lock -/

inductive SpinPc where
  | outside
  /-- In the loop of `spinlock_acquire`. -/
  | spinning (ticket : BitVec 16)
  /-- Between `spinlock_acquire` and `spinlock_release`. -/
  | holding
  deriving DecidableEq

/-- The lock and the CPUs that use it. -/
structure SpinSys (κ : Type) where
  lock : Spinlock
  pc : κ → SpinPc
  /-- History: who took a ticket, one entry for each ticket. -/
  took : List κ
  /-- History: who got the lock. -/
  got : List κ

inductive SpinAction (κ : Type) where
  | take (cpu : κ)
  | load (cpu : κ)
  | release (cpu : κ)

variable {κ : Type}

def SpinSys.init : SpinSys κ :=
  { lock := spinlockInit, pc := fun _ => .outside, took := [], got := [] }

def SpinSys.step [DecidableEq κ] (s : SpinSys κ) : SpinAction κ → Option (SpinSys κ)
  | .take c =>
    if s.pc c = .outside then
      let (ticket, lock) := takeTicket s.lock
      some { s with lock := lock, pc := update s.pc c (.spinning ticket), took := s.took ++ [c] }
    else none
  | .load c =>
    match s.pc c with
    | .spinning ticket =>
      if isServed s.lock ticket then
        some { s with pc := update s.pc c .holding, got := s.got ++ [c] }
      else some s
    | _ => none
  | .release c =>
    if s.pc c = .holding then
      some { s with lock := spinlockRelease s.lock, pc := update s.pc c .outside }
    else none

/-! ## The invariant -/

/-- `r` tickets have been served.  Those from `r` on are of different CPUs, which spin; but the
first of them has the lock if the loop has ended for it. -/
structure SpinSys.Inv (s : SpinSys κ) (r : Nat) : Prop where
  next : s.lock.nextTicket = BitVec.ofNat 16 s.took.length
  now : s.lock.nowServing = BitVec.ofNat 16 r
  distinct : ∀ i j c, r ≤ i → r ≤ j → s.took[i]? = some c → s.took[j]? = some c → i = j
  order : s.got <+: s.took
  one : r ≤ s.got.length ∧ s.got.length ≤ r + 1
  holding : ∀ c, s.pc c = .holding ↔ s.took[r]? = some c ∧ s.got.length = r + 1
  waits : ∀ c t, s.pc c = .spinning t → ∃ n ≥ s.got.length, s.took[n]? = some c
  ticket : ∀ n c, s.got.length ≤ n → s.took[n]? = some c → s.pc c = .spinning (BitVec.ofNat 16 n)

variable {s s' : SpinSys κ} {r : Nat} {c : κ}

theorem SpinSys.Inv.length_le [Fintype κ] (h : s.Inv r) : s.took.length ≤ r + Fintype.card κ := by
  have hinj : Injective fun i : Fin (s.took.length - r) => s.took[r + i.val] := fun i j hij => by
    have := h.distinct (r + i) (r + j) s.took[r + i.val] (by omega) (by omega) (by simp)
      (by simp [hij])
    omega
  have hcard := Fintype.card_le_of_injective _ hinj
  rw [Fintype.card_fin] at hcard
  omega

/-- The ticket that is served is the first one: the others are less than a round away from it. -/
theorem SpinSys.Inv.first (h : s.Inv r) (hlen : s.took.length < r + 2 ^ 16) {t : BitVec 16}
    (hc : s.pc c = .spinning t) (ht : isServed s.lock t = true) :
    s.took[r]? = some c ∧ s.got.length = r := by
  obtain ⟨n, hn, hnc⟩ := h.waits c t hc
  have hnlen := (List.getElem?_eq_some_iff.1 hnc).1
  have hserved : BitVec.ofNat 16 r = BitVec.ofNat 16 n := by
    grind [h.ticket n c hn hnc, h.now, isServed]
  have hmod := congrArg BitVec.toNat hserved
  rw [BitVec.toNat_ofNat, BitVec.toNat_ofNat] at hmod
  have hone := h.one
  obtain rfl : n = r := by omega
  exact ⟨hnc, by omega⟩

theorem SpinSys.Inv.ne_first (h : s.Inv r) (hc : s.took[r]? = some c) {k : Nat} (hk : r < k) {d : κ}
    (hd : s.took[k]? = some d) : d ≠ c := by
  rintro rfl
  exact hk.ne (h.distinct r k d le_rfl hk.le hc hd)

variable [DecidableEq κ]

namespace SpinSys.Inv

theorem take (h : s.Inv r) (hc : s.pc c = .outside) :
    SpinSys.Inv { s with
        lock := (takeTicket s.lock).2
        pc := update s.pc c (.spinning (takeTicket s.lock).1)
        took := s.took ++ [c] } r := by
  have hlen := h.order.length_le
  have hnot : ∀ n ≥ r, s.took[n]? ≠ some c :=
    fun n hn hnc => by grind [h.holding c, h.ticket n c, h.one]
  refine ⟨?_, h.now, fun i j d hi hj hdi hdj => ?_, h.order.trans (prefix_append ..), h.one,
    fun d => ?_, fun d t hd => ?_, fun n d hn hd => ?_⟩
  · simp [takeTicket, h.next, BitVec.ofNat_add]
  · grind [h.distinct i j d]
  · grind [h.holding d, h.one]
  · rcases eq_or_ne d c with rfl | hdc
    · exact ⟨s.took.length, hlen, by simp⟩
    · obtain ⟨n, hn, hnd⟩ := h.waits d t (by simpa [hdc] using hd)
      exact ⟨n, hn, by grind⟩
  · grind [h.ticket n d, takeTicket, h.next]

theorem load (h : s.Inv r) (hc : s.took[r]? = some c) (hgot : s.got.length = r) :
    SpinSys.Inv { s with pc := update s.pc c .holding, got := s.got ++ [c] } r := by
  have horder : s.got ++ [c] <+: s.took := by
    rw [prefix_iff_eq_take, length_append, length_singleton, hgot, take_add_one, hc]
    simpa [hgot] using prefix_iff_eq_take.1 h.order
  refine ⟨h.next, h.now, h.distinct, horder,
    by simp [hgot], fun d => ?_, fun d t hd => ?_, fun k d hk hd => ?_⟩
  · grind [h.holding d]
  · have hdc : d ≠ c := fun he => by simp [he] at hd
    obtain ⟨n, hn, hnd⟩ := h.waits d t (by simpa [hdc] using hd)
    exact ⟨n, by grind, hnd⟩
  · have hdc := h.ne_first hc (by grind) hd
    grind [h.ticket k d]

theorem release (h : s.Inv r) (hc : s.pc c = .holding) :
    SpinSys.Inv { s with lock := spinlockRelease s.lock, pc := update s.pc c .outside }
    (r + 1) := by
  obtain ⟨hrc, hgot⟩ := (h.holding c).1 hc
  refine ⟨h.next, ?_, fun i j d hi hj => ?_, h.order, by simp [hgot], fun d => ?_, fun d t hd => ?_,
    fun n d hn hd => ?_⟩
  · simp [spinlockRelease, h.now, BitVec.ofNat_add]
  · exact h.distinct i j d (by omega) (by omega)
  · grind [h.holding d]
  · exact h.waits d t (by grind)
  · grind [h.ticket n d]

/-- **Every access keeps the order**, as long as there are fewer CPUs than numbers. -/
theorem step [Fintype κ] (hcpus : Fintype.card κ ≤ 65535) (h : s.Inv r) {a : SpinAction κ}
    (hstep : s.step a = some s') : ∃ r, s'.Inv r := by
  cases a with
  | take c =>
    obtain ⟨hc, rfl⟩ := by simpa [SpinSys.step] using hstep
    exact ⟨r, h.take hc⟩
  | load c =>
    rw [SpinSys.step] at hstep
    split at hstep
    · rename_i t hc
      split_ifs at hstep with ht
      · have hlen := h.length_le
        obtain ⟨hrc, hgot⟩ := h.first (by omega) hc ht
        exact ⟨r, some.inj hstep ▸ h.load hrc hgot⟩
      · exact ⟨r, some.inj hstep ▸ h⟩
    · cases hstep
  | release c =>
    obtain ⟨hc, rfl⟩ := by simpa [SpinSys.step] using hstep
    exact ⟨r + 1, h.release hc⟩

end SpinSys.Inv

/-- **The ticket lock excludes, and is fair.**  With at most 65535 CPUs, whatever the interleaving
and however often the counters have wrapped around: two CPUs that hold the lock are one, and the
lock was given out in the order of the tickets. -/
theorem spinlock_excludes_in_order [Fintype κ] (hcpus : Fintype.card κ ≤ 65535)
    {as : List (SpinAction κ)} (hrun : run SpinSys.step SpinSys.init as = some s) :
    (∀ c d, s.pc c = .holding → s.pc d = .holding → c = d) ∧ s.got <+: s.took := by
  have hinit : (SpinSys.init : SpinSys κ).Inv 0 :=
    ⟨rfl, rfl, nofun, nil_prefix, by simp [SpinSys.init], by simp [SpinSys.init], nofun, nofun⟩
  obtain ⟨r, h⟩ := run_invariant (I := fun s : SpinSys κ => ∃ r, s.Inv r)
    (fun _ _ _ hs hst => hs.elim fun _ h => h.step hcpus hst) ⟨0, hinit⟩ hrun
  refine ⟨fun c d hc hd => ?_, h.order⟩
  exact some.inj (((h.holding c).1 hc).1.symm.trans ((h.holding d).1 hd).1)

/-- The second CPU looks at the counter before the first one does, and again when that has released
the lock. -/
def twoTickets : List (SpinAction (Fin 2)) :=
  [.take 0, .take 1, .load 1, .load 0, .release 0, .load 1]

theorem spinlock_excludes_in_order_twoTickets :
    ∃ s, run SpinSys.step SpinSys.init twoTickets = some s ∧ s.pc 1 = .holding ∧ s.pc 0 ≠ .holding ∧
      s.got = [0, 1] ∧ s.got <+: s.took := by
  refine ⟨_, rfl, by decide, fun h => ?_, rfl, ?_⟩
  · exact absurd ((spinlock_excludes_in_order (by decide)
      (show run SpinSys.step _ twoTickets = some _ from rfl)).1 0 1 h (by decide)) (by decide)
  · exact (spinlock_excludes_in_order (by decide)
      (show run SpinSys.step _ twoTickets = some _ from rfl)).2

end Monolith
