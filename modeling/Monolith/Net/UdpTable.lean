import Mathlib.Data.List.Perm.Subperm
import Monolith.Lib.Buckets
import Monolith.Lib.Run
import Monolith.Net.Transmit

/-!
# The table of UDP sockets

`udp_table` in `net/ipv4/udp.c`: 256 lists of sockets, linked through `socket->next`, in which a
socket is found by its address and port.  `sys_bind` and `sys_sendto` put a socket in and the final
close takes it out.  The lock is held for one look-up, one insertion or one removal, so that other
tasks get in between.

* `System` is any number of tasks in these calls, on any number of sockets.  A closed socket is
  memory that is free: its fields keep their values until there is a new socket at the address.
* `Table s m` says that the lists are sound, and `Calls s` what holds for the sockets that a call is
  working on.
* `table_of_run`: the lists stay sound if no socket that `sys_sendto` has given a port is bound or
  closed, none that `sys_bind` was called for is given a port, and calls for one socket, or for one
  address and port, do not overlap.
* `closed_socket_stays` is the first of these: `sys_sendto` does not set `socket->bound`, and
  `udp_release` leaves a socket that is not bound where it is.
-/

namespace Monolith.Udp

open Function Hashed Net Transition List Option Prod

variable {τ : Type} {x : Socket}

/-! ## The state -/

abbrev Ptr := Nat

/-- Where a link is. -/
inductive Slot where
  /-- `udp_table[hash]` -/
  | bucket (hash : Nat)
  | next (socket : Ptr)
  deriving DecidableEq, Repr

/-- `socket->bound`, and the fields of its `struct ipv4_sdata`. -/
structure Socket where
  bound : Bool
  addr : BitVec 32
  port : BitVec 16
  deriving DecidableEq, Repr

/-- Where a task is in a call. -/
inductive Pc where
  | idle
  /-- `udp_bind`, at `udp_table_get`. -/
  | bindGet (p : Ptr)
  /-- `udp_bind`, at `udp_table_insert`. -/
  | bindInsert (p : Ptr)
  /-- `udp_get_ephemeral_port`, at `atomic_fetch_add`. -/
  | sendPort (p : Ptr)
  /-- `udp_get_ephemeral_port`, at `udp_table_get` for this port. -/
  | sendGet (p : Ptr) (port : BitVec 16)
  /-- `udp_sendto`, at `udp_table_insert`. -/
  | sendInsert (p : Ptr)
  /-- `udp_release`, at `udp_table_get`. -/
  | closeGet (p : Ptr)
  /-- `udp_release`, at `udp_table_remove`. -/
  | closeRemove (p : Ptr)
  /-- `socket_put`, at `kfree`. -/
  | closeFree (p : Ptr)
  deriving DecidableEq, Repr

/-- The sockets and the tasks. -/
structure System (τ : Type) where
  live : List Ptr
  socket : Ptr → Socket
  links : Slot → Ptr
  nextEphPort : BitVec 16
  pc : τ → Pc
  /-- Kept to talk about runs: the socket has been put into the table, and not been taken out. -/
  registered : Ptr → Bool

def init : System τ where
  live := []
  socket _ := ⟨false, 0, 0⟩
  links _ := 0
  nextEphPort := 49152
  pc _ := .idle
  registered _ := false

namespace System

variable (s : System τ)

/-- What a socket is found by. -/
def key (p : Ptr) : BitVec 32 × BitVec 16 := ((s.socket p).addr, (s.socket p).port)

/-- The number of the list for a socket. -/
def hash (p : Ptr) : Nat := ipPortHashf (s.socket p).addr (s.socket p).port

def setSocket (p : Ptr) (x : Socket) : System τ := { s with socket := update s.socket p x }

def goto [DecidableEq τ] (t : τ) (pc : Pc) : System τ := { s with pc := update s.pc t pc }

end System

/-! ## The functions -/

section Functions

variable (s : System τ)

/-- `udp_table_get`; there is no result if the list does not end. -/
def udpTableGet (addr : BitVec 32) (port : BitVec 16) : Option (Option Ptr) :=
  search (s.links ∘ .next) 0 (fun p => (s.socket p).addr == addr && (s.socket p).port == port)
    (s.live.length + 1)
    (s.links (.bucket (ipPortHashf addr port)))

/-- `udp_table_insert(socket, priv_data->addr, priv_data->port)` -/
def udpTableInsert (p : Ptr) : System τ :=
  { s with
    links := update (update s.links (.next p) (s.links (.bucket (s.hash p)))) (.bucket (s.hash p)) p
    registered := update s.registered p true }

/-- `udp_table_remove(socket, priv_data->addr, priv_data->port)` -/
def udpTableRemove (p : Ptr) : Option (System τ) :=
  (unlink Slot.next 0 p (s.live.length + 1) (.bucket (s.hash p)) s.links).map fun links =>
    { s with links := links, registered := update s.registered p false }

end Functions

/-! ## The system -/

inductive Act (τ : Type) where
  /-- `socket_create`, at an address that is free. -/
  | create (p : Ptr)
  | bind (t : τ) (p : Ptr) (sin : Option (BitVec 32 × BitVec 16))
  | sendto (t : τ) (p : Ptr) (sends : Bool)
  /-- The last descriptor of the socket is closed. -/
  | close (t : τ) (p : Ptr)
  | go (t : τ)

section System

variable [DecidableEq τ] (s : System τ)

def go (t : τ) : Pc → Option (System τ)
  | .idle => none
  | .bindGet p => (udpTableGet s (s.socket p).addr (s.socket p).port).map fun query =>
    if query.isSome then (s.setSocket p { s.socket p with bound := false, port := 0 }).goto t .idle
    else s.goto t (.bindInsert p)
  | .bindInsert p => some ((udpTableInsert s p).goto t .idle)
  | .sendPort p =>
    some ({ s with nextEphPort := s.nextEphPort + 1 }.goto t
    (.sendGet p (nativeToBe16 s.nextEphPort)))
  | .sendGet p port => (udpTableGet s 0 port).map fun query =>
    if query.isSome then s.goto t (.sendPort p)
    else (s.setSocket p { s.socket p with port := port }).goto t
      (if port = 0 then .idle else .sendInsert p)
  | .sendInsert p => some ((udpTableInsert s p).goto t .idle)
  | .closeGet p => (udpTableGet s (s.socket p).addr (s.socket p).port).map fun query =>
    s.goto t (if query.isSome then .closeRemove p else .closeFree p)
  | .closeRemove p => (udpTableRemove s p).map fun s => s.goto t (.closeFree p)
  | .closeFree p => some ({ s with live := s.live.erase p }.goto t .idle)

/-- `socket_bind` and `udp_bind` up to `udp_register`.  There is no `sin` if its length or its
family is wrong. -/
def socketBind (t : τ) (p : Ptr) : Option (BitVec 32 × BitVec 16) → System τ
  | none => if (s.socket p).bound then s else s.setSocket p { s.socket p with bound := true }
  | some (addr, port) =>
    if (s.socket p).bound then s else (s.setSocket p ⟨true, addr, port⟩).goto t (.bindGet p)

/-- `udp_sendto` up to `udp_get_ephemeral_port`.  `sends` says that there is something to send, and
somewhere to send it to. -/
def udpSendto (t : τ) (p : Ptr) (sends : Bool) : System τ :=
  if sends = true ∧ (s.socket p).port = 0 then
    (s.setSocket p { s.socket p with addr := 0 }).goto t (.sendPort p)
  else s

/-- `socket_put` up to the look-up of `udp_release`. -/
def socketPut (t : τ) (p : Ptr) : System τ :=
  s.goto t (if (s.socket p).bound then .closeGet p else .closeFree p)

def step : Act τ → Option (System τ)
  | .create p =>
    if p ≠ 0 ∧ p ∉ s.live then
      some { s.setSocket p ⟨false, 0, 0⟩ with
        live := p :: s.live
        links := update s.links (.next p) 0
        registered := update s.registered p false }
    else none
  | .bind t p sin => if s.pc t = .idle ∧ p ∈ s.live then some (socketBind s t p sin) else none
  | .sendto t p sends => if s.pc t = .idle ∧ p ∈ s.live then some (udpSendto s t p sends) else none
  | .close t p => if s.pc t = .idle ∧ p ∈ s.live then some (socketPut s t p) else none
  | .go t => go s t (s.pc t)

end System

/-! ## The lists -/

/-- The lists have the members `m`: the sockets that are there and registered, each under its
address and port. -/
structure Table (s : System τ) (m : Nat → List Ptr) : Prop where
  buckets : Buckets s.links Slot.bucket Slot.next 0 m
  mem : ∀ h p, p ∈ m h ↔ p ∈ s.live ∧ s.registered p = true ∧ s.hash p = h
  keys : ∀ p q, p ∈ s.live → q ∈ s.live → s.registered p = true → s.registered q = true →
    s.key p = s.key q → p = q
  free : ∀ p ∈ s.live, (s.socket p).bound = false → (s.socket p).port = 0 → s.registered p = false
  nodup : s.live.Nodup
  nonzero : ∀ p ∈ s.live, p ≠ 0

/-- Only the socket `p` changes. -/
structure Only (s s' : System τ) (p : Ptr) : Prop where
  live : ∀ q, q ≠ p → (q ∈ s'.live ↔ q ∈ s.live)
  socket : ∀ q, q ≠ p → s'.socket q = s.socket q
  registered : ∀ q, q ≠ p → s'.registered q = s.registered q

section Tables

variable {s s' : System τ} {m m' : Nat → List Ptr} {p q : Ptr}

theorem Only.key (h : Only s s' p) (hq : q ≠ p) : s'.key q = s.key q := by
  rw [System.key, System.key, h.socket q hq]

theorem table_init : Table (init : System τ) fun _ => [] where
  buckets := ⟨fun _ => rfl, fun _ => nodup_nil, fun _ _ _ hx => absurd hx not_mem_nil⟩
  mem := by simp [init]
  keys := by simp [init]
  free := by simp [init]
  nodup := nodup_nil
  nonzero := by simp [init]

/-- Nothing of this depends on the tasks and the ports. -/
theorem Table.congr (h : Table s m) (heq : (s'.live, s'.socket, s'.links, s'.registered) =
    (s.live, s.socket, s.links, s.registered)) : Table s' m := by
  cases s; cases s'; cases heq
  exact ⟨h.buckets, h.mem, h.keys, h.free, h.nodup, h.nonzero⟩

theorem Table.length_le (h : Table s m) (b : Nat) : (m b).length ≤ s.live.length :=
  (subperm_of_subset (h.buckets.nodup b) fun p hp => ((h.mem b p).1 hp).1).length_le

theorem slot_injective :
    Injective Slot.bucket ∧ Injective Slot.next ∧ ∀ b p, Slot.bucket b ≠ Slot.next p :=
  ⟨fun _ _ h => Slot.bucket.inj h, fun _ _ h => Slot.next.inj h, fun _ _ => nofun⟩

variable (h : Table s m)

include h

namespace Table

/-- **`udp_table_get`** comes to its end, and finds a socket exactly if there is one. -/
theorem get (addr : BitVec 32) (port : BitVec 16) :
    ∃ query, udpTableGet s addr port = some query ∧
      (query.isSome = true ↔ ∃ p ∈ s.live, s.registered p = true ∧ s.key p = (addr, port)) := by
  have hget := search_eq (p := fun p => (s.socket p).addr == addr && (s.socket p).port == port)
    (h.buckets.chain (ipPortHashf addr port)) (Nat.lt_succ_of_le (h.length_le _))
  refine ⟨_, hget, ?_⟩
  rw [find?_isSome]
  simp only [Bool.and_eq_true, beq_iff_eq, h.mem, System.key, mk.injEq]
  constructor
  · rintro ⟨p, ⟨hp, hreg, -⟩, hkey⟩
    exact ⟨p, hp, hreg, hkey⟩
  · rintro ⟨p, hp, hreg, hkey⟩
    refine ⟨p, ⟨hp, hreg, ?_⟩, hkey⟩
    rw [System.hash, hkey.1, hkey.2]

/-- **Only `p` changes**, and afterwards it is in no list. -/
theorem off (ho : Only s s' p) (hp : p ∈ s'.live → s'.registered p = false)
    (hbuckets : Buckets s'.links Slot.bucket Slot.next 0 m')
    (hm : ∀ b q, q ∈ m' b ↔ q ≠ p ∧ q ∈ m b) (hnodup : s'.live.Nodup)
    (hnonzero : ∀ q ∈ s'.live, q ≠ 0) : Table s' m' := by
  have hne : ∀ q ∈ s'.live, s'.registered q = true → q ≠ p := by
    rintro q hq hreg rfl
    rw [hp hq] at hreg
    cases hreg
  refine ⟨hbuckets, fun b q => ?_, fun q r hq hr hqreg hrreg heq => ?_, fun q hq hb h0 => ?_,
    hnodup, hnonzero⟩
  · rw [hm]
    by_cases hqp : q = p
    · exact iff_of_false (fun hand => hand.1 hqp) fun hand => hne q hand.1 hand.2.1 hqp
    · rw [and_iff_right hqp, h.mem, ho.live q hqp, ho.registered q hqp, System.hash, System.hash,
        ho.socket q hqp]
  · have hqp := hne q hq hqreg
    have hrp := hne r hr hrreg
    rw [ho.key hqp, ho.key hrp] at heq
    rw [ho.live q hqp] at hq
    rw [ho.live r hrp] at hr
    exact h.keys q r hq hr (ho.registered q hqp ▸ hqreg) (ho.registered r hrp ▸ hrreg) heq
  · by_cases hqp : q = p
    · rw [hqp] at hq ⊢
      exact hp hq
    · rw [ho.socket q hqp] at hb h0
      rw [ho.registered q hqp]
      exact h.free q ((ho.live q hqp).1 hq) hb h0

theorem mem_iff (hp : p ∈ s.live → s.registered p = false) (b : Nat) (q : Ptr) :
    q ∈ m b ↔ q ≠ p ∧ q ∈ m b := by
  refine (and_iff_right_of_imp ?_).symm
  rintro hq rfl
  obtain ⟨hlive, hreg, -⟩ := (h.mem b q).1 hq
  rw [hp hlive] at hreg
  cases hreg

theorem setSocket (hp : s.registered p = false) (x : Socket) : Table (s.setSocket p x) m :=
  h.off ⟨fun _ _ => Iff.rfl, fun _ hq => update_of_ne hq _ _, fun _ _ => rfl⟩
    (fun _ => hp) h.buckets
    (h.mem_iff fun _ => hp) h.nodup h.nonzero

theorem insert (hp : p ∈ s.live) (hreg : s.registered p = false)
    (hkey : ∀ q ∈ s.live, s.registered q = true → s.key q ≠ s.key p)
    (hfree : (s.socket p).bound = false → (s.socket p).port ≠ 0) :
    Table (udpTableInsert s p) (update m (s.hash p) (p :: m (s.hash p))) := by
  have hnew : ∀ b, p ∉ m b := by
    intro b hmem
    rw [h.mem, hreg] at hmem
    cases hmem.2.1
  have hreg' q : (udpTableInsert s p).registered q = true ↔ q = p ∨ s.registered q = true := by
    change update s.registered p true q = true ↔ _
    by_cases hqp : q = p
    · rw [hqp, update_self]
      exact iff_of_true rfl (.inl rfl)
    · rw [update_of_ne hqp, or_iff_right hqp]
  refine ⟨h.buckets.push slot_injective.1 slot_injective.2.1 slot_injective.2.2
    (h.nonzero p hp) hnew,
    fun b q => ?_, fun q r hq hr hqreg hrreg heq => ?_, fun q hq hb h0 => ?_, h.nodup, h.nonzero⟩
  · rw [hreg']
    by_cases hb : b = s.hash p
    · subst hb
      rw [update_self, mem_cons, h.mem]
      constructor
      · rintro (rfl | ⟨hq, hqreg, hhash⟩)
        · exact ⟨hp, .inl rfl, rfl⟩
        · exact ⟨hq, .inr hqreg, hhash⟩
      · rintro ⟨hq, rfl | hqreg, hhash⟩
        · exact .inl rfl
        · exact .inr ⟨hq, hqreg, hhash⟩
    · rw [update_of_ne hb, h.mem]
      refine and_congr_right fun _ => ⟨fun hand => ⟨.inr hand.1, hand.2⟩, ?_⟩
      rintro ⟨rfl | hqreg, hhash⟩
      · exact absurd hhash.symm hb
      · exact ⟨hqreg, hhash⟩
  · rw [hreg'] at hqreg hrreg
    rcases hqreg with rfl | hqreg <;> rcases hrreg with rfl | hrreg
    · rfl
    · exact absurd heq.symm (hkey r hr hrreg)
    · exact absurd heq (hkey q hq hqreg)
    · exact h.keys q r hq hr hqreg hrreg heq
  · rw [← Bool.not_eq_true, hreg', not_or]
    have hqp : q ≠ p := by
      rintro rfl
      exact hfree hb h0
    refine ⟨hqp, ?_⟩
    rw [h.free q hq hb h0]
    exact Bool.false_ne_true

theorem remove : ∃ s' m', udpTableRemove s p = some s' ∧ Table s' m' ∧
    ∃ links, s' = { s with links := links, registered := update s.registered p false } := by
  obtain ⟨links, hlinks, hbuckets⟩ :=
    h.buckets.unlink (x := p) (b := s.hash p) slot_injective.1 slot_injective.2.1
    slot_injective.2.2 (Nat.lt_succ_of_le (h.length_le _))
  have hremove : udpTableRemove s p =
      some { s with links := links, registered := update s.registered p false } := by
    rw [udpTableRemove, hlinks, map_some]
  refine ⟨_, _, hremove, h.off ⟨fun _ _ => Iff.rfl, fun _ _ => rfl, fun _ hq => update_of_ne hq _ _⟩
    (fun _ => update_self _ _ _) hbuckets (fun b q => ?_) h.nodup h.nonzero, links, rfl⟩
  by_cases hb : b = s.hash p
  · subst hb
    rw [update_self]
    exact (h.buckets.nodup _).mem_erase_iff
  rw [update_of_ne hb]
  refine (and_iff_right_of_imp ?_).symm
  rintro hq rfl
  exact hb ((h.mem b q).1 hq).2.2.symm

theorem erase (hp : s.registered p = false) : Table { s with live := s.live.erase p } m :=
  h.off ⟨fun _ hq => mem_erase_of_ne hq, fun _ _ => rfl, fun _ _ => rfl⟩ (fun _ => hp) h.buckets
    (h.mem_iff fun _ => hp) (h.nodup.erase p) fun q hq => h.nonzero q (mem_of_mem_erase hq)

theorem create (hzero : p ≠ 0) (hp : p ∉ s.live) :
    Table { s.setSocket p ⟨false, 0, 0⟩ with
      live := p :: s.live
      links := update s.links (.next p) 0
      registered := update s.registered p false } m := by
  refine h.off ⟨fun q hq => mem_cons.trans (or_iff_right hq), fun _ hq => update_of_ne hq _ _,
    fun _ hq => update_of_ne hq _ _⟩ (fun _ => update_self _ _ _)
    ⟨fun b => ?_, h.buckets.nodup, h.buckets.unique⟩ (h.mem_iff fun hlive => absurd hlive hp)
    (nodup_cons.2 ⟨hp, h.nodup⟩) (forall_mem_cons.2 ⟨hzero, h.nonzero⟩)
  refine (h.buckets.chain b).congr fun q hq => update_of_ne (fun heq => ?_) _ _
  exact hp (Slot.next.inj heq ▸ ((h.mem b q).1 hq).1)

end Table

end Tables

/-! ## The calls -/

def Pc.socket : Pc → Option Ptr
  | .idle => none
  | .bindGet p | .bindInsert p | .sendPort p | .sendGet p _ | .sendInsert p | .closeGet
    p | .closeRemove p
  | .closeFree p => some p

/-- The socket of the call is not registered. -/
def Pc.absent : Pc → Bool
  | .bindGet _ | .bindInsert _ | .sendPort _ | .sendGet _ _ | .sendInsert _ | .closeFree _ => true
  | .idle | .closeGet _ | .closeRemove _ => false

/-- The call has found nobody with the address and port of its socket, which it is about to put into
the table. -/
def Pc.inserting : Pc → Bool
  | .bindInsert _ | .sendInsert _ => true
  | _ => false

def Pc.binding : Pc → Bool
  | .bindGet _ | .bindInsert _ => true
  | _ => false

def Pc.choosing : Pc → Bool
  | .sendPort _ | .sendGet _ _ => true
  | _ => false

/-- `udp_sendto` has given the socket a port. -/
def Pc.chosen : Pc → Bool
  | .sendInsert _ => true
  | _ => false

/-- What holds for the socket of a call. -/
structure Stage (s : System τ) (pc : Pc) (p : Ptr) : Prop where
  live : p ∈ s.live
  absent : pc.absent = true → s.registered p = false
  /-- Nobody has the address and port of a socket that is about to be put into the table. -/
  lone : pc.inserting = true → ∀ q ∈ s.live, s.registered q = true → s.key q ≠ s.key p
  bound : pc.binding = true → (s.socket p).bound = true
  any : pc.choosing = true → (s.socket p).addr = 0
  port : pc.chosen = true → (s.socket p).port ≠ 0

/-- What holds for the sockets that calls are working on. -/
structure Calls (s : System τ) : Prop where
  stage : ∀ t p, (s.pc t).socket = some p → Stage s (s.pc t) p
  /-- One call for a socket. -/
  alone : ∀ t u p, (s.pc t).socket = some p → (s.pc u).socket = some p → t = u
  /-- No two calls are about to put the same address and port into the table. -/
  apart : ∀ t u p q, t ≠ u → (s.pc t).socket = some p → (s.pc t).inserting = true →
    (s.pc u).socket = some q → (s.pc u).inserting = true → s.key p ≠ s.key q

section CallLemmas

variable {s s' : System τ} {m : Nat → List Ptr} {p q : Ptr} {t : τ} {pc : Pc}

theorem calls_init : Calls (init : System τ) where
  stage _ _ := nofun
  alone _ _ _ := nofun
  apart _ _ _ _ _ := nofun

/-- The call of another socket stays where it is, unless `p` is put into the table. -/
theorem Stage.other (S : Stage s pc q) (h : Only s s' p) (hq : q ≠ p)
    (hnew : pc.inserting = true → p ∈ s'.live → s'.registered p = true → s'.key p ≠ s.key q) :
    Stage s' pc q where
  live := (h.live q hq).2 S.live
  absent hf := (h.registered q hq).trans (S.absent hf)
  lone hf r hr hrreg := by
    rw [h.key hq]
    by_cases hrp : r = p
    · subst hrp
      exact hnew hf hr hrreg
    · rw [h.key hrp]
      exact S.lone hf r ((h.live r hrp).1 hr) (h.registered r hrp ▸ hrreg)
  bound hf := h.socket q hq ▸ S.bound hf
  any hf := h.socket q hq ▸ S.any hf
  port hf := h.socket q hq ▸ S.port hf

/-- **A task goes on** with its socket `p`, which nobody else works on. -/
theorem Calls.move [DecidableEq τ] (h : Calls s) (ho : Only s s' p) (hpc : s'.pc = update s.pc t pc)
    (hmine : ∀ u, u ≠ t → (s.pc u).socket ≠ some p)
    (hin : pc.socket = none ∨ pc.socket = some p ∧ Stage s' pc p)
    (hapart : pc.inserting = true ∨ p ∈ s'.live ∧ s'.registered p = true → ∀ u q, u ≠ t →
    (s.pc u).socket = some q →
      (s.pc u).inserting = true → s'.key p ≠ s.key q) : Calls s' := by
  -- the call of `t` is about `p`, and every other call is about another socket, which has not
  -- changed
  have hcases : ∀ u q, (s'.pc u).socket = some q → (u = t ∧ s'.pc u = pc ∧ q = p ∧ Stage s' pc p) ∨
      (u ≠ t ∧ s'.pc u = s.pc u ∧ q ≠ p ∧ (s.pc u).socket = some q) := by
    intro u q hq
    rw [hpc] at hq ⊢
    by_cases hut : u = t
    · subst hut
      rw [update_self] at hq ⊢
      rcases hin with hnone | ⟨hsome, S⟩
      · rw [hnone] at hq
        cases hq
      · exact .inl ⟨rfl, rfl, mem_unique hq hsome, S⟩
    · rw [update_of_ne hut] at hq ⊢
      exact .inr ⟨hut, rfl, fun heq => hmine u hut (heq ▸ hq), hq⟩
  refine ⟨fun u q hq => ?_, fun u v q hu hv => ?_, fun u v q r huv hq hqf hr hrf => ?_⟩
  · rcases hcases u q hq with ⟨-, heq, rfl, S⟩ | ⟨hut, heq, hqp, hq⟩
    · rwa [heq]
    · rw [heq]
      exact (h.stage u q hq).other ho hqp fun hf hlive hreg =>
        hapart (.inr ⟨hlive, hreg⟩) u q hut hq hf
  · rcases hcases u q hu with ⟨rfl, -, rfl, -⟩ | ⟨hut, -, hqp, hu⟩ <;>
      rcases hcases v q hv with ⟨rfl, -, hq, -⟩ | ⟨hvt, -, hqp', hv⟩
    · rfl
    · exact absurd rfl hqp'
    · exact absurd hq hqp
    · exact h.alone u v q hu hv
  · rcases hcases u q hq with ⟨hut, heq, rfl, -⟩ | ⟨hut, heq, hqp, hq⟩ <;>
      rcases hcases v r hr with ⟨hvt, heq', hrp, -⟩ | ⟨hvt, heq', hrp, hr⟩
    · exact absurd (hut.trans hvt.symm) huv
    · rw [ho.key hrp]
      exact hapart (.inl (heq ▸ hqf)) v r hvt hr (heq' ▸ hrf)
    · rw [ho.key hqp, hrp]
      exact (hapart (.inl (heq' ▸ hrf)) u q hut hq (heq ▸ hqf)).symm
    · rw [ho.key hqp, ho.key hrp]
      exact h.apart u v q r huv hq (heq ▸ hqf) hr (heq' ▸ hrf)

/-- The same, if the socket is not in the table and not about to be put there. -/
theorem Calls.quiet [DecidableEq τ] (h : Calls s) (ho : Only s s' p)
    (hpc : s'.pc = update s.pc t pc) (hmine : ∀ u, u ≠ t → (s.pc u).socket ≠ some p)
    (hin : pc.socket = none ∨ pc.socket = some p ∧ Stage s' pc p) (hpcoff : pc.inserting = false)
    (hreg : s'.registered p = false) : Calls s' := by
  refine h.move ho hpc hmine hin ?_
  simp [hpcoff, hreg]

theorem Calls.goto [DecidableEq τ] (h : Calls s) (hmine : ∀ u, u ≠ t → (s.pc u).socket ≠ some p)
    (hin : pc.socket = some p) (S : Stage s pc p)
    (hapart : pc.inserting = true → ∀ u q, u ≠ t → (s.pc u).socket = some q →
    (s.pc u).inserting = true →
      s.key p ≠ s.key q) : Calls (s.goto t pc) := by
  refine h.move ⟨fun _ _ => Iff.rfl, fun _ _ => rfl, fun _ _ => rfl⟩ rfl hmine
    (.inr ⟨hin, S.live, S.absent, S.lone, S.bound, S.any, S.port⟩) ?_
  rintro (hf | ⟨hlive, hreg⟩) u q hu hq hi
  · exact hapart hf u q hu hq hi
  · exact (h.stage u q hq).lone hi p hlive hreg

/-- A socket changes that nobody works on, and is not registered afterwards. -/
theorem Calls.off (h : Calls s) (ho : Only s s' p) (hpc : s'.pc = s.pc)
    (hfree : ∀ u, (s.pc u).socket ≠ some p) (hp : s'.registered p = false) : Calls s' := by
  have hne : ∀ u q, (s.pc u).socket = some q → q ≠ p := fun u q hq heq => hfree u (heq ▸ hq)
  refine ⟨?_, ?_, ?_⟩ <;> rw [hpc]
  · intro u q hq
    exact (h.stage u q hq).other ho (hne u q hq) fun _ _ hreg =>
      absurd (hp.symm.trans hreg) Bool.false_ne_true
  · exact h.alone
  · intro u v q r huv hq hqf hr hrf
    rw [ho.key (hne u q hq), ho.key (hne v r hr)]
    exact h.apart u v q r huv hq hqf hr hrf

end CallLemmas

/-! ## Steps -/

structure Sound (s : System τ) : Prop where
  calls : Calls s
  table : ∃ m, Table s m

def System.query (s : System τ) : Pc → Option (BitVec 32 × BitVec 16)
  | .bindGet p => some (s.key p)
  | .sendGet _ port => some (0, port)
  | _ => none

/-- Calls for one socket do not overlap; a socket that `sys_sendto` has given a port is not bound or
closed, and none that `sys_bind` was called for is given one; and nobody looks up what another call
is about to put into the table. -/
def Act.Orderly (s : System τ) : Act τ → Prop
  | .create _ => True
  | .bind _ p _ => (∀ u, (s.pc u).socket ≠ some p) ∧
    ((s.socket p).bound = false → (s.socket p).port = 0)
  | .sendto _ p _ => (∀ u, (s.pc u).socket ≠ some p) ∧
    ((s.socket p).port = 0 → (s.socket p).bound = false)
  | .close _ p => (∀ u, (s.pc u).socket ≠ some p) ∧
    ((s.socket p).bound = false → (s.socket p).port = 0)
  | .go t => ∀ k, s.query (s.pc t) = some k →
    ∀ u q, u ≠ t → (s.pc u).socket = some q → (s.pc u).inserting = true → s.key q ≠ k

section Steps

variable [DecidableEq τ] {s s' : System τ} {m : Nat → List Ptr} {p : Ptr} {t : τ} {a : Act τ}

section

variable (h : Sound s)

include h

namespace Sound

omit [DecidableEq τ] in
theorem create (hzero : p ≠ 0) (hp : p ∉ s.live) :
    Sound { s.setSocket p ⟨false, 0, 0⟩ with
      live := p :: s.live
      links := update s.links (.next p) 0
      registered := update s.registered p false } := by
  obtain ⟨m, htable⟩ := h.table
  exact ⟨h.calls.off ⟨fun q hq => mem_cons.trans (or_iff_right hq), fun q hq => update_of_ne hq _ _,
    fun q hq => update_of_ne hq _ _⟩ rfl (fun u hu => hp (h.calls.stage u p hu).live)
    (update_self _ _ _), m, htable.create hzero hp⟩

/-- **Assigning to a socket that is not registered**, and going on. -/
theorem assign {pc : Pc} (hmine : ∀ u, u ≠ t → (s.pc u).socket ≠ some p)
    (hp : p ∈ s.live) (hreg : s.registered p = false) (hin : pc.socket = none ∨ pc.socket = some p)
    (hlone : pc.inserting = true → ∀ q ∈ s.live, s.registered q = true → s.key q ≠ (x.addr, x.port))
    (hapart : pc.inserting = true → ∀ u q, u ≠ t → (s.pc u).socket = some q →
    (s.pc u).inserting = true →
      (x.addr, x.port) ≠ s.key q)
    (hbound : pc.binding = true → x.bound = true) (hany : pc.choosing = true → x.addr = 0)
    (hport : pc.chosen = true → x.port ≠ 0) : Sound ((s.setSocket p x).goto t pc) := by
  obtain ⟨m, htable⟩ := h.table
  have hself : ((s.setSocket p x).goto t pc).socket p = x := update_self _ _ _
  have ho : Only s ((s.setSocket p x).goto t pc) p :=
    ⟨fun _ _ => Iff.rfl, fun q hq => update_of_ne hq _ _, fun _ _ => rfl⟩
  have hkey : ((s.setSocket p x).goto t pc).key p = (x.addr, x.port) := by rw [System.key, hself]
  have hnot : ∀ q, s.registered q = true → q ≠ p := by
    rintro q hq rfl
    rw [hreg] at hq
    cases hq
  refine ⟨h.calls.move ho rfl hmine
    (hin.imp_right fun heq => ⟨heq, hp, fun _ => hreg, fun hi q hq hqreg => ?_,
    fun hf => ?_, fun hf => ?_, fun hf => ?_⟩) ?_, m, (htable.setSocket hreg x).congr rfl⟩
  · rw [hkey, ho.key (hnot q hqreg)]
    exact hlone hi q hq hqreg
  · rw [hself]
    exact hbound hf
  · rw [hself]
    exact hany hf
  · rw [hself]
    exact hport hf
  · rw [hkey]
    exact Or.rec hapart fun hpreg => absurd rfl (hnot p hpreg.2)

theorem bind (hp : p ∈ s.live) (sin : Option (BitVec 32 × BitVec 16))
    (hfree : ∀ u, (s.pc u).socket ≠ some p)
    (hport : (s.socket p).bound = false → (s.socket p).port = 0) :
    Sound (socketBind s t p sin) := by
  obtain ⟨m, htable⟩ := h.table
  cases hbound : (s.socket p).bound with
  | true => cases sin <;> rwa [socketBind, if_pos hbound]
  | false =>
    have hreg := htable.free p hp hbound (hport hbound)
    have hneg : ¬(s.socket p).bound = true := by
      rw [hbound]
      exact Bool.false_ne_true
    cases sin with rw [socketBind, if_neg hneg]
    | none =>
      exact ⟨h.calls.off ⟨fun _ _ => Iff.rfl, fun q hq => update_of_ne hq _ _, fun _ _ => rfl⟩ rfl
        hfree hreg, m, htable.setSocket hreg _⟩
    | some sin =>
      exact h.assign (fun u _ => hfree u) hp hreg (.inr rfl) nofun nofun (fun _ => rfl) nofun nofun

theorem sendto (hp : p ∈ s.live) (sends : Bool) (hfree : ∀ u, (s.pc u).socket ≠ some p)
    (hbound : (s.socket p).port = 0 → (s.socket p).bound = false) :
    Sound (udpSendto s t p sends) := by
  obtain ⟨m, htable⟩ := h.table
  rw [udpSendto]
  split_ifs with hsend
  · have hreg := htable.free p hp (hbound hsend.2) hsend.2
    exact h.assign (fun u _ => hfree u) hp hreg (.inr rfl) nofun nofun nofun (fun _ => rfl) nofun
  · exact h

theorem close (hp : p ∈ s.live) (hfree : ∀ u, (s.pc u).socket ≠ some p)
    (hport : (s.socket p).bound = false → (s.socket p).port = 0) : Sound (socketPut s t p) := by
  obtain ⟨m, htable⟩ := h.table
  refine ⟨?_, m, htable.congr rfl⟩
  cases hbound : (s.socket p).bound with rw [socketPut, hbound]
  | true =>
    exact h.calls.goto (fun u _ => hfree u) rfl ⟨hp, nofun, nofun, nofun, nofun, nofun⟩ nofun
  | false =>
    exact h.calls.goto (fun u _ => hfree u) rfl
      ⟨hp, fun _ => htable.free p hp hbound (hport hbound), nofun, nofun, nofun, nofun⟩ nofun

/-- `udp_table_insert`, in `udp_bind` and in `udp_sendto`. -/
theorem insert (hsocket : (s.pc t).socket = some p) (habsent : (s.pc t).absent = true)
    (hinsert : (s.pc t).inserting = true)
    (hfree : (s.socket p).bound = false → (s.socket p).port ≠ 0) :
    Sound ((udpTableInsert s p).goto t .idle) := by
  obtain ⟨m, htable⟩ := h.table
  have S := h.calls.stage t p hsocket
  have htable' := htable.insert S.live (S.absent habsent) (S.lone hinsert) hfree
  exact ⟨h.calls.move ⟨fun _ _ => Iff.rfl, fun _ _ => rfl, fun q hq => update_of_ne hq _ _⟩ rfl
    (fun u hu heq => hu (h.calls.alone u t p heq hsocket)) (.inl rfl)
    fun _ u q hut hq hi => h.calls.apart t u p q (Ne.symm hut) hsocket hinsert hq hi, _,
    htable'.congr rfl⟩

/-- **A task goes on**: it comes to the end of its loop, and the state stays sound. -/
theorem go (ht : s.pc t ≠ .idle) (hC : Act.Orderly s (.go t)) : ∃ s', go s t (s.pc t) = some s' ∧
    Sound s' := by
  obtain ⟨m, htable⟩ := h.table
  have hcall : ∀ {pc p}, s.pc t = pc → pc.socket = some p →
      Stage s pc p ∧ ∀ u, u ≠ t → (s.pc u).socket ≠ some p := by
    rintro _ p rfl hp
    exact ⟨h.calls.stage t p hp, fun u hu heq => hu (h.calls.alone u t p heq hp)⟩
  cases hpc : s.pc t with
  | idle => exact absurd hpc ht
  | bindGet p =>
    obtain ⟨S, hmine⟩ := hcall hpc rfl
    obtain ⟨query, hget, hquery⟩ := htable.get (s.socket p).addr (s.socket p).port
    rw [Udp.go, hget, map_some]
    refine ⟨_, rfl, ?_⟩
    split_ifs with hnone
    · exact h.assign hmine S.live (S.absent rfl) (.inl rfl) nofun nofun nofun nofun nofun
    refine ⟨h.calls.goto hmine rfl ⟨S.live, S.absent, fun _ q hq hqreg heq => ?_, S.bound,
      nofun, nofun⟩
      fun _ u q hut hq hi heq => ?_, m, htable.congr rfl⟩
    · exact hnone (hquery.2 ⟨q, hq, hqreg, heq⟩)
    · exact hC (s.key p) (by rw [hpc]; rfl) u q hut hq hi heq.symm
  | bindInsert p =>
    obtain ⟨S, -⟩ := hcall hpc rfl
    refine ⟨_, rfl, h.insert (by rw [hpc]; rfl) (by rw [hpc]; rfl) (by rw [hpc]; rfl) fun hb => ?_⟩
    exact absurd (hb.symm.trans (S.bound rfl)) Bool.false_ne_true
  | sendPort p =>
    obtain ⟨S, hmine⟩ := hcall hpc rfl
    exact ⟨_, rfl, h.calls.quiet ⟨fun _ _ => Iff.rfl, fun _ _ => rfl, fun _ _ => rfl⟩ rfl hmine
      (.inr ⟨rfl, S.live, S.absent, nofun, nofun, S.any, nofun⟩) rfl (S.absent rfl), m,
      htable.congr rfl⟩
  | sendGet p port =>
    obtain ⟨S, hmine⟩ := hcall hpc rfl
    obtain ⟨query, hget, hquery⟩ := htable.get 0 port
    rw [Udp.go, hget, map_some]
    refine ⟨_, rfl, ?_⟩
    split
    · exact ⟨h.calls.goto hmine rfl ⟨S.live, S.absent, nofun, nofun, S.any, nofun⟩ nofun, m,
        htable.congr rfl⟩
    rename_i hnone
    split
    · exact h.assign hmine S.live (S.absent rfl) (.inl rfl) nofun nofun nofun nofun nofun
    rename_i hport
    refine h.assign hmine S.live (S.absent rfl) (.inr rfl) (fun _ q hq hqreg heq => ?_)
      (fun _ u q hut hq hi => ?_) nofun nofun fun _ => hport
    · rw [S.any rfl] at heq
      exact hnone (hquery.2 ⟨q, hq, hqreg, heq⟩)
    · rw [S.any rfl]
      exact (hC (0, port) (by rw [hpc]; rfl) u q hut hq hi).symm
  | sendInsert p =>
    exact ⟨_, rfl, h.insert (by rw [hpc]; rfl) (by rw [hpc]; rfl) (by rw [hpc]; rfl)
      fun _ => (hcall hpc rfl).1.port rfl⟩
  | closeGet p =>
    obtain ⟨S, hmine⟩ := hcall hpc rfl
    obtain ⟨query, hget, hquery⟩ := htable.get (s.socket p).addr (s.socket p).port
    rw [Udp.go, hget, map_some]
    refine ⟨_, rfl, ?_, m, htable.congr rfl⟩
    split_ifs with hnone
    · exact h.calls.goto hmine rfl ⟨S.live, nofun, nofun, nofun, nofun, nofun⟩ nofun
    -- a registered socket finds itself at least
    refine h.calls.goto hmine rfl ⟨S.live, fun _ => ?_, nofun, nofun, nofun, nofun⟩ nofun
    by_contra hreg
    exact hnone (hquery.2 ⟨p, S.live, Bool.not_eq_false _ ▸ hreg, rfl⟩)
  | closeRemove p =>
    obtain ⟨S, hmine⟩ := hcall hpc rfl
    obtain ⟨s', m', hs', htable', links, rfl⟩ := htable.remove (p := p)
    have hreg : update s.registered p false p = false := update_self _ _ _
    rw [Udp.go, hs']
    exact ⟨_, rfl, h.calls.quiet ⟨fun _ _ => Iff.rfl, fun _ _ => rfl, fun q hq =>
      update_of_ne hq _ _⟩ rfl hmine
      (.inr ⟨rfl, S.live, fun _ => hreg, nofun, nofun, nofun, nofun⟩) rfl hreg, m',
      htable'.congr rfl⟩
  | closeFree p =>
    obtain ⟨S, hmine⟩ := hcall hpc rfl
    exact ⟨_, rfl, h.calls.quiet ⟨fun q hq => mem_erase_of_ne hq, fun _ _ => rfl, fun _ _ => rfl⟩
      rfl hmine
      (.inl rfl) rfl (S.absent rfl), m, (htable.erase (S.absent rfl)).congr rfl⟩

theorem step (hC : a.Orderly s) (hstep : step s a = some s') : Sound s' := by
  cases a with
  | create p =>
    obtain ⟨hnew, hstep⟩ := ite_none_right_eq_some.1 hstep
    exact some_inj.1 hstep ▸ h.create hnew.1 hnew.2
  | bind t p sin =>
    obtain ⟨hidle, hstep⟩ := ite_none_right_eq_some.1 hstep
    exact some_inj.1 hstep ▸ h.bind hidle.2 sin hC.1 hC.2
  | sendto t p sends =>
    obtain ⟨hidle, hstep⟩ := ite_none_right_eq_some.1 hstep
    exact some_inj.1 hstep ▸ h.sendto hidle.2 sends hC.1 hC.2
  | close t p =>
    obtain ⟨hidle, hstep⟩ := ite_none_right_eq_some.1 hstep
    exact some_inj.1 hstep ▸ h.close hidle.2 hC.1 hC.2
  | go t =>
    have ht : s.pc t ≠ .idle := by
      intro hidle
      rw [Udp.step, hidle] at hstep
      cases hstep
    obtain ⟨u, hu, hsound⟩ := h.go ht hC
    rw [Udp.step, hu, some_inj] at hstep
    exact hstep ▸ hsound

end Sound

end

/-- **The table of UDP sockets.**  In every state that an orderly run reaches, every list comes to
an end and has no member twice, and its members are the registered sockets whose address and port it
is for, all of which are there; no two of them have the same address and port; and every call goes
on. -/
theorem table_of_run {as : List (Act τ)} (hC : Along step (fun s a => a.Orderly s) init as)
    (hrun : run step init as = some s) :
    (∃ m : Nat → List Ptr, (∀ h, Chain (s.links ∘ Slot.next) 0 (s.links (.bucket h)) (m h) ∧
    (m h).Nodup) ∧
      ∀ h p, p ∈ m h ↔ p ∈ s.live ∧ s.registered p = true ∧ s.hash p = h) ∧
    (∀ p q, p ∈ s.live → q ∈ s.live → s.registered p = true → s.registered q = true →
    s.key p = s.key q → p = q) ∧
    ∀ t, s.pc t ≠ .idle → Act.Orderly s (.go t) → ∃ s', step s (.go t) = some s' := by
  have h : Sound s := by
    refine run_induction (I := Sound) (fun s a s' hs hC hstep => hs.step hC hstep)
      ⟨calls_init, _, table_init⟩ hC hrun
  obtain ⟨m, htable⟩ := h.table
  refine ⟨⟨m, fun b => ⟨htable.buckets.chain b, htable.buckets.nodup b⟩, htable.mem⟩, htable.keys,
    fun t ht hgo => ?_⟩
  obtain ⟨s', hs', -⟩ := h.go ht hgo
  exact ⟨s', hs'⟩

/-- One socket is bound to a port, another one gets one when it sends, and the first one is
closed. -/
def exchange : List (Act Unit) :=
  [.create 1, .create 2, .bind () 1 (some (0, 7)), .go (), .go (), .sendto () 2 true, .go (),
    .go (), .go (), .close () 1, .go (), .go (), .go ()]

theorem table_of_run_exchange : ∃ s, run step init exchange = some s ∧ s.live = [2] ∧
    s.registered 2 = true ∧
    ∃ m : Nat → List Ptr, (∀ h, Chain (s.links ∘ Slot.next) 0 (s.links (.bucket h)) (m h) ∧
    (m h).Nodup) ∧
      ∀ h p, p ∈ m h ↔ p ∈ s.live ∧ s.registered p = true ∧ s.hash p = h := by
  obtain ⟨s, hs, hlive, hreg⟩ : ∃ s, run step init exchange = some s ∧ s.live = [2] ∧
      s.registered 2 = true := by
    decide +kernel
  -- there is one task, so no other call is under way
  have hgo : ∀ s : System Unit, Act.Orderly s (.go ()) := fun s k _ u q hu => absurd rfl hu
  have hC : Along step (fun s a => a.Orderly s) (init : System Unit) exchange :=
    .cons rfl trivial
    (.cons rfl trivial (.cons rfl ⟨fun _ => nofun, fun _ => rfl⟩ (.cons rfl (hgo _)
      (.cons rfl (hgo _)
      (.cons rfl ⟨fun _ => nofun, fun _ => rfl⟩ (.cons rfl (hgo _) (.cons rfl (hgo _)
      (.cons rfl (hgo _) (.cons rfl ⟨fun _ => nofun, nofun⟩ (.cons rfl (hgo _) (.cons rfl (hgo _)
      (.cons rfl (hgo _) trivial))))))))))))
  exact ⟨s, hs, hlive, hreg, (table_of_run hC hs).1⟩

/-- **A closed socket stays in the table**: it was given a port by `sys_sendto`. -/
theorem closed_socket_stays : (run step (init : System Unit)
      [.create 1, .sendto () 1 true, .go (), .go (), .go (), .close () 1, .go ()]).any fun s =>
    s.live == [] && s.pc () == .idle && s.links (.bucket (s.hash 1)) == 1 := by
  decide +kernel

end Steps

/-! ## A port for a socket that has none -/

section Ports

/-- `udp_table_get(0, port)` finds a socket, if these addresses and ports are in the table. -/
def wildcardTaken (bound : List (BitVec 32 × BitVec 16)) (port : BitVec 16) : Bool :=
  (0, port) ∈ bound

/-- The loop ends at the first port from the counter on that is not taken. -/
theorem udpGetEphemeralPort_eq_ok {taken : BitVec 16 → Bool} {fuel : Nat} {next port : BitVec 16} :
    udpGetEphemeralPort taken fuel next = .ok (nativeToBe16 port) ↔
    ∃ k < fuel, port = next + BitVec.ofNat 16 k ∧
      (∀ j < k, taken (nativeToBe16 (next + BitVec.ofNat 16 j)) = true) ∧
      taken (nativeToBe16 port) = false := by
  induction fuel generalizing next with
  | zero => exact iff_of_false nofun fun ⟨k, hk, _⟩ => absurd hk (Nat.not_lt_zero k)
  | succ fuel ih =>
    have hshift : ∀ k : Nat, next + 1 + BitVec.ofNat 16 k = next + BitVec.ofNat 16 (k + 1) :=
      fun k => by
      rw [BitVec.ofNat_add, BitVec.add_assoc, BitVec.add_comm 1]
      rfl
    have hzero : next + BitVec.ofNat 16 0 = next := BitVec.add_zero next
    rw [udpGetEphemeralPort]
    cases htaken : taken (nativeToBe16 next) with
    | false =>
      rw [if_neg Bool.false_ne_true, Except.ok.injEq, nativeToBe16_involutive.injective.eq_iff]
      constructor
      · rintro rfl
        exact ⟨0, Nat.succ_pos fuel, hzero.symm, fun j hj => absurd hj (Nat.not_lt_zero j), htaken⟩
      · rintro ⟨k, -, rfl, hbefore, -⟩
        -- nothing is free before the port that is found
        rcases Nat.eq_zero_or_pos k with rfl | hk
        · exact hzero.symm
        · have hfirst := hbefore 0 hk
          rw [hzero, htaken] at hfirst
          cases hfirst
    | true =>
      rw [if_pos rfl, ih]
      constructor
      · rintro ⟨k, hk, rfl, hbefore, hfree⟩
        refine ⟨k + 1, Nat.succ_lt_succ hk, hshift k, fun j hj => ?_, hfree⟩
        cases j with
        | zero => rwa [hzero]
        | succ j => exact hshift j ▸ hbefore j (Nat.lt_of_succ_lt_succ hj)
      · rintro ⟨k, hk, rfl, hbefore, hfree⟩
        cases k with
        | zero =>
          rw [hzero, htaken] at hfree
          cases hfree
        | succ k =>
          exact ⟨k, Nat.lt_of_succ_lt_succ hk, (hshift k).symm,
            fun j hj => hshift j ▸ hbefore (j + 1) (Nat.succ_lt_succ hj), hfree⟩

/-- **A port from 49152 on that no socket has**, whatever the address it is bound to, is returned
exactly if the first port from the counter on that is not taken for all addresses is one. -/
theorem ephemeral_port {bound : List (BitVec 32 × BitVec 16)} {next : BitVec 16} :
    (∃ port, udpGetEphemeralPort (wildcardTaken bound) (2 ^ 16) next = .ok (nativeToBe16 port) ∧
      49152 ≤ port ∧ ∀ addr, (addr, nativeToBe16 port) ∉ bound) ↔
    ∃ k < 2 ^ 16, (∀ j < k, (0, nativeToBe16 (next + BitVec.ofNat 16 j)) ∈ bound) ∧
      49152 ≤ next + BitVec.ofNat 16 k ∧
      ∀ addr, (addr, nativeToBe16 (next + BitVec.ofNat 16 k)) ∉ bound := by
  constructor
  · rintro ⟨port, hport, hrange, hfree⟩
    obtain ⟨k, hk, rfl, hbefore, -⟩ := udpGetEphemeralPort_eq_ok.1 hport
    exact ⟨k, hk, fun j hj => of_decide_eq_true (hbefore j hj), hrange, hfree⟩
  · rintro ⟨k, hk, hbefore, hrange, hfree⟩
    refine ⟨_, udpGetEphemeralPort_eq_ok.2 ⟨k, hk, rfl, fun j hj => decide_eq_true (hbefore j hj),
      ?_⟩, hrange, hfree⟩
    exact decide_eq_false (hfree 0)

/-- The first port is taken, and another one for one address. -/
theorem ephemeral_port_second :
    ∃ port, udpGetEphemeralPort
    (wildcardTaken [(0, nativeToBe16 49152), (0x0100000a, nativeToBe16 50000)])
      (2 ^ 16) 49152 = .ok (nativeToBe16 port) ∧ 49152 ≤ port ∧
      ∀ addr, (addr, nativeToBe16 port) ∉ [((0 : BitVec 32), nativeToBe16 49152),
        (0x0100000a, nativeToBe16 50000)] :=
  ephemeral_port.2 ⟨1, by decide, by decide, by decide, fun addr h => by
    rcases mem_cons.1 h with h | h
    · exact absurd (mk.inj h).2 (by decide)
    · exact absurd (mk.inj (mem_singleton.1 h)).2 (by decide)⟩

/-- **After 16384 ports the counter is 0**, which is the port that is returned then; and a port that
a socket has for one address is given out again. -/
theorem ephemeral_port_zero :
    (49152 : BitVec 16) + 16384 = 0 ∧ udpGetEphemeralPort (wildcardTaken []) (2 ^ 16) 0 = .ok 0 ∧
      udpGetEphemeralPort (wildcardTaken [(0x0100000a, nativeToBe16 49152)]) (2 ^ 16) 49152 =
        .ok (nativeToBe16 49152) := by
  exact ⟨by decide, rfl, rfl⟩

end Ports

/-! ## A bind that fails -/

section Bind

open Fs (Errno)

/-- The `bind` of the operations of a socket. -/
inductive BindOp where
  | missing
  | raw
  | udp
  deriving DecidableEq, Repr

variable (s : System τ) (p : Ptr) (sin : SockaddrIn) (addrlen : Nat)

def ipv4RawBind : Except Errno Unit × System τ :=
  if addrlen < 16 then (.error .efault, s)
  -- `AF_INET`
  else if sin.family ≠ 2 then (.error .einval, s)
  else (.ok (), s.setSocket p { s.socket p with addr := sin.addr })

/-- `udp_bind`, with nothing in between; there is no result if a list does not end. -/
def udpBind : Option (Except Errno Unit × System τ) :=
  if addrlen < 16 then some (.error .efault, s)
  else if sin.family ≠ 2 then some (.error .einval, s)
  else
    let s := s.setSocket p { s.socket p with addr := sin.addr, port := sin.port }
    (udpTableGet s sin.addr sin.port).map fun query =>
      if query.isSome then (.error .eaddrinuse,
        s.setSocket p { s.socket p with port := 0, bound := false })
      else (.ok (), udpTableInsert s p)

def socketBindCall (op : BindOp) : Option (Except Errno Unit × System τ) :=
  if (s.socket p).bound then some (.error .einval, s)
  else
    let bound := s.setSocket p { s.socket p with bound := true }
    match op with
    | .missing => some (.error .enotsup, s)
    | .raw => some (ipv4RawBind bound p sin addrlen)
    | .udp => udpBind bound p sin addrlen

variable {s p sin addrlen}

theorem setSocket_self (h : x = s.socket p) : s.setSocket p x = s := by
  rw [System.setSocket, h, update_eq_self]

theorem setSocket_setSocket (x y : Socket) : (s.setSocket p x).setSocket p y = s.setSocket p y := by
  rw [System.setSocket, System.setSocket, System.setSocket, update_idem]

theorem setSocket_eq_self : s.setSocket p x = s ↔ x = s.socket p := by
  refine ⟨fun h => ?_, setSocket_self⟩
  have hp : update s.socket p x p = s.socket p := congrFun (congrArg System.socket h) p
  rwa [update_self] at hp

/-- `udp_bind` as `socket_bind` calls it, in terms of the state before. -/
theorem udpBind_eq : udpBind (s.setSocket p { s.socket p with bound := true }) p sin addrlen =
    if addrlen < 16 then some (.error .efault, s.setSocket p { s.socket p with bound := true })
    else if sin.family ≠ 2 then some (.error .einval,
      s.setSocket p { s.socket p with bound := true })
    else (udpTableGet (s.setSocket p ⟨true, sin.addr, sin.port⟩) sin.addr sin.port).map fun query =>
      if query.isSome then (.error .eaddrinuse, s.setSocket p ⟨false, sin.addr, 0⟩)
      else (.ok (), udpTableInsert (s.setSocket p ⟨true, sin.addr, sin.port⟩) p) := by
  simp only [udpBind, setSocket_setSocket]
  simp [System.setSocket]

end Bind

end Monolith.Udp
