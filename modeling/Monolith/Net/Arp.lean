import Mathlib.Algebra.BigOperators.Group.Finset.Piecewise
import Mathlib.Tactic.FinCases
import Monolith.Lib.Run
import Monolith.Net.Transmit

/-!
# ARP on a link

Any number of machines on one link, with a MAC and an IP address each.  `arp_search` asks for the
MAC of an address, with a request to all; the machine that has the address replies.  Whoever gets a
request or a reply puts its sender into `arp_table`.

* `System` is the machines, with the calls of `arp_search` on them, and all frames that have ever
  been sent.  Each of them can arrive at any machine, at any time, and as often as it likes, so that
  frames are late, lost, doubled and out of order.
* A machine does with a frame what `ether_rx_packet` does.  `etherRxPacket_learns`: what it learns
  is in the fields of the sender.
* `arp_agreement`: every entry of every table has the MAC of the machine whose address it is for,
  and so has every entry that `arp_search` returns.
* `cache_is_map`: a table has one entry an address, unless a reply comes from an address that is in
  it.  `arpRx_eq` says that this is the table of the receive path.
* `arp_add_entry` cuts the chain of the wait table at the entry that it frees (`waiter_lost`).
-/

namespace Monolith.Arp

open Function Net Transition List Traced Always Option

variable {η τ : Type}

/-! ## The state -/

structure Link (η : Type) where
  netdev : η → Netdev
  distinct : Function.Injective fun h => (netdev h).ipAddr
  nonzero : ∀ h, (netdev h).ipAddr ≠ 0

/-- `struct arp_entry` -/
structure Entry where
  address : BitVec 32
  mac : Mac

/-- Where a task is in `arp_search`. -/
inductive Pc where
  | idle
  /-- At `arp_send_request`. -/
  | request (address : BitVec 32)
  /-- In `sched_yield`. -/
  | asleep (address : BitVec 32)
  /-- At the second `arp_get_entry`. -/
  | woken (address : BitVec 32)
  deriving DecidableEq

/-- The machines, and the frames. -/
structure System (η τ : Type) where
  arpTable : η → Nat → List Entry
  /-- What is left to do for the frame that a machine has received. -/
  pending : η → List RxEvent
  pc : η → τ → Pc
  /-- All frames that have been sent. -/
  sent : List (List (BitVec 8))
  /-- Kept to talk about runs: what `arp_search` has returned, where and for which address. -/
  returned : List (η × BitVec 32 × ArpLookup)

def init : System η τ where
  arpTable _ _ := []
  pending _ := []
  pc _ _ := .idle
  sent := []
  returned := []

/-- The frames that a call sends. -/
def framesOf {α : Type} (x : Tx α) : List (List (BitVec 8)) :=
  x.events.filterMap fun
    | .send _ frame => some frame
    | _ => none

namespace System

variable (s : System η τ)

def arpGetEntry (h : η) (address : BitVec 32) : Option Entry :=
  (s.arpTable h (address.toNat % 32)).find? (·.address == address)

/-- What the receive path of a machine looks at.  The tasks that wait, the sockets and the memory
are arbitrary. -/
def netState (link : Link η) (h : η) (others : NetState) : NetState :=
  { others with
    macAddr := (link.netdev h).macAddr
    ipAddr := (link.netdev h).ipAddr
    arpTable := fun hash => (s.arpTable h hash).map Entry.address }

/-- A call sends its frames, unless the machine stops. -/
def send {α : Type} (x : Tx α) : Option (System η τ) :=
  match x.result with
  | .ok _ => some { s with sent := framesOf x ++ s.sent }
  | .error _ => none

variable [DecidableEq η]

def await (h : η) (events : List RxEvent) : System η τ :=
  { s with pending := update s.pending h events }

/-- `arp_table[address % 32]` gets a new entry at its head. -/
def learn (h : η) (address : BitVec 32) (mac : Mac) : System η τ :=
  { s with
    arpTable := update s.arpTable h
      (update (s.arpTable h) (address.toNat % 32)
      (⟨address, mac⟩ :: s.arpTable h (address.toNat % 32))) }

variable [DecidableEq τ]

def goto (h : η) (t : τ) (pc : Pc) : System η τ :=
  { s with pc := update s.pc h (update (s.pc h) t pc) }

def giveBack (h : η) (t : τ) (address : BitVec 32) (result : ArpLookup) : System η τ :=
  { s.goto h t .idle with returned := (h, address, result) :: s.returned }

end System

/-! ## Steps -/

inductive Act (η τ : Type) where
  | deliver (h : η) (frame : List (BitVec 8)) (rest : Nat → BitVec 8) (others : NetState)
  /-- A machine goes on with the frame it has received. -/
  | handle (h : η)
  | search (h : η) (t : τ) (address : BitVec 32)
  /-- The request is sent, and the task sleeps. -/
  | request (h : η) (t : τ) (exhausted : TxSite → Bool) (dstHw : Mac)
  /-- The task goes on, with a signal or without. -/
  | wake (h : η) (t : τ) (signal : Bool)
  /-- The table is searched again. -/
  | lookup (h : η) (t : τ)
  /-- A packet of `ipv4_tx_packet` is sent. -/
  | transmit (h : η) (exhausted : TxSite → Bool) (mac : Mac) (packet : List (BitVec 8))

/-- The steps of `arp_rx_packet` that change something. -/
def isStep : RxEvent → Bool
  | .learn _ _ => true
  | .reply _ _ => true
  | _ => false

section Step

variable [DecidableEq η] [DecidableEq τ] (link : Link η)

def handleEvent (s : System η τ) (h : η) : RxEvent → System η τ
  | .learn address mac => s.learn h address mac
  | .reply mac address => { s with sent := arpFrame (link.netdev h) mac 2 mac address :: s.sent }
  | _ => s

/-- One step.  A task that sleeps is woken by `arp_add_entry` or by a signal; here it can go on at
any time. -/
def step (s : System η τ) : Act η τ → Option (System η τ)
  | .deliver h frame rest others =>
    if frame ∈ s.sent ∧ (s.pending h).isEmpty then
      let events := (etherRxPacket (s.netState link h others) (received rest frame)).events
      some (s.await h (events.filter isStep))
    else none
  | .handle h =>
    match s.pending h with
    | [] => none
    | e :: events => some (handleEvent link (s.await h events) h e)
  | .search h t address =>
    if s.pc h t = .idle then
      match s.arpGetEntry h address with
      | none => some (s.goto h t (.request address))
      | some entry => some (s.giveBack h t address (.entry entry.mac))
    else none
  | .request h t exhausted dstHw =>
    match s.pc h t with
    | .request address =>
      (s.send (arpSendRequest exhausted (link.netdev h) dstHw address)).map fun s =>
      s.goto h t (.asleep address)
    | _ => none
  | .wake h t signal =>
    match s.pc h t with
    | .asleep address =>
      some (if signal then s.giveBack h t address .interrupted else s.goto h t (.woken address))
    | _ => none
  | .lookup h t =>
    match s.pc h t with
    | .woken address =>
      some (s.giveBack h t address ((s.arpGetEntry h address).elim .null fun entry =>
      .entry entry.mac))
    | _ => none
  | .transmit h exhausted mac packet =>
    s.send (etherTxPacket exhausted (link.netdev h) mac 0x0800 packet)

end Step

/-! ## What a machine learns from a frame -/

/-- Of an ARP packet, the sender is learned. -/
def Learned (f : Frame) : RxEvent → Prop
  | .learn address mac => f.be16 12 = 0x0806 ∧ address = f.le32 28 ∧ mac = f.mac 22
  | _ => True

variable {length : Nat} {h : η} {mac : Mac} {events : List RxEvent} {address : BitVec 32}
  {port : BitVec 16} {addr : BitVec 32} {α : Type} {x : Tx α} {frame : List (BitVec 8)} {h' : η}
  {e : RxEvent} {entry : Entry}

section Learns

open Traced (Always)

variable {s : NetState} {f : Frame}

theorem allocate_learns {site : AllocSite} {size : Nat} :
    Always (Learned f) (allocate s site size) := by
  rw [allocate]
  split
  · exact always_stop
  split
  · exact always_stop
  · exact always_pure

theorem waitQueueWake_learns (waiting : List TaskStatus) :
    Always (Learned f) (waitQueueWake waiting) := by
  induction waiting with
  | nil => exact always_pure
  | cons st waiting ih =>
    rw [waitQueueWake]
    split
    · exact ih
    · exact always_stop

theorem memcmp_learns (offset : Nat) (bs : List (BitVec 8)) :
    Always (Learned f) (memcmp f offset bs) := by
  induction bs generalizing offset with
  | nil => exact always_pure
  | cons b bs ih =>
    refine mk_bind trivial ?_
    split
    · exact ih (offset + 1)
    · exact always_pure

theorem arpAddEntry_learns (htype : f.be16 12 = 0x0806) :
    Always (Learned f) (arpAddEntry s f (f.le32 28)) :=
  allocate_learns.bind fun _ => mk_bind trivial (mk_bind ⟨htype, rfl, rfl⟩ (waitQueueWake_learns _))

theorem arpSendReply_learns : Always (Learned f) (arpSendReply s f) :=
  mk_bind trivial (mk_bind trivial (allocate_learns.bind fun _ => always_mk trivial))

theorem arpRxPacket_learns (htype : f.be16 12 = 0x0806) : Always (Learned f) (arpRxPacket s f) := by
  refine mk_bind trivial ?_
  split
  · exact always_pure
  refine mk_bind trivial ?_
  split
  · exact always_pure
  refine mk_bind trivial ?_
  split
  · refine mk_bind trivial (mk_bind trivial (Always.bind ?_ fun _ => ?_))
    · rw [arpLearn]
      split
      · exact arpAddEntry_learns htype
      · exact always_pure
    · split
      · exact arpSendReply_learns
      · exact always_pure
  · split
    · exact mk_bind trivial (arpAddEntry_learns htype)
    · exact always_pure

theorem socketRxPacket_learns {dst : Receiver} {waiting : List TaskStatus}
    {offset len : Nat} : Always (Learned f) (socketRxPacket s dst waiting port addr offset len) :=
  allocate_learns.bind fun _ => mk_bind trivial (mk_bind trivial (waitQueueWake_learns waiting))

theorem rawLoop_learns (sockets : List RawSocket) (i : Nat) (found : Bool) :
    Always (Learned f) (rawLoop s f port addr length i sockets found) := by
  induction sockets generalizing i found with
  | nil => exact always_pure
  | cons cur rest ih =>
    refine mk_bind trivial ?_
    split
    · exact mk_bind trivial (socketRxPacket_learns.bind fun _ => ih (i + 1) true)
    · exact ih (i + 1) found

theorem udpRxPacket_learns : Always (Learned f) (udpRxPacket s f length) := by
  rw [udpRxPacket]
  split
  · exact always_pure
  refine mk_bind trivial (mk_bind trivial ?_)
  split
  · exact always_pure
  · exact mk_bind trivial (mk_bind trivial (mk_bind trivial
      (mk_bind trivial socketRxPacket_learns)))

theorem ipv4RxPacket_learns : Always (Learned f) (ipv4RxPacket s f length) := by
  have hraw : Always (Learned f) (ipv4RawRxPacket s f length) :=
    mk_bind trivial (mk_bind trivial (rawLoop_learns s.socketList 0 false))
  refine hraw.bind fun processed => mk_bind trivial ?_
  split
  · exact udpRxPacket_learns
  split
  · exact always_pure
  · exact always_mk trivial

/-- **What is learned** from a frame is in the fields of its sender. -/
theorem etherRxPacket_learns (s : NetState) (f : Frame) :
    Always (Learned f) (etherRxPacket s f) := by
  have hours : Always (Learned f) (etherIsOurs s f) := by
    refine (memcmp_learns 0 _).bind fun own => ?_
    split
    · exact always_pure
    · exact memcmp_learns 0 _
  refine hours.bind fun ours => ?_
  split
  · refine mk_bind trivial ?_
    split
    · exact mk_bind trivial (arpRxPacket_learns ‹_›)
    split
    · exact mk_bind trivial ipv4RxPacket_learns
    · exact always_mk trivial
  · exact always_pure

end Learns

/-! ## Agreement -/

/-- The MAC is that of the machine that has the address. -/
def Link.Names (link : Link η) (address : BitVec 32) (mac : Mac) : Prop :=
  ∃ owner, (link.netdev owner).ipAddr = address ∧ (link.netdev owner).macAddr = mac

/-- A frame with an ARP packet has the addresses of one machine in the fields of its sender,
whatever is behind it. -/
def Genuine (link : Link η) (frame : List (BitVec 8)) : Prop :=
  ∀ rest, (received rest frame).be16 12 = 0x0806 →
    link.Names ((received rest frame).le32 28) ((received rest frame).mac 22)

/-- What holds in every state. -/
structure Agree (link : Link η) (s : System η τ) : Prop where
  sent : ∀ frame ∈ s.sent, Genuine link frame
  pending : ∀ h address mac, .learn address mac ∈ s.pending h → link.Names address mac
  arpTable : ∀ h hash entry, entry ∈ s.arpTable h hash → link.Names entry.address entry.mac
  returned : ∀ h address mac, (h, address, .entry mac) ∈ s.returned → link.Names address mac

section Agree

variable {link : Link η} {s s' : System η τ}

theorem agree_init : Agree link (init : System η τ) where
  sent _ h := absurd h not_mem_nil
  pending _ _ _ h := absurd h not_mem_nil
  arpTable _ _ _ h := absurd h not_mem_nil
  returned _ _ _ h := absurd h not_mem_nil

/-- An ARP packet has the addresses of the machine that sends it. -/
theorem arpFrame_genuine (link : Link η) (h : η) (macDst dstHw : Mac) (opcode : BitVec 16)
    (dstProto : BitVec 32) :
    Genuine link (arpFrame (link.netdev h) macDst opcode dstHw dstProto) := by
  intro rest _
  refine ⟨h, (le32_eq rfl).symm, funext fun i => ?_⟩
  fin_cases i <;> rfl

theorem ipv4_genuine {packet : List (BitVec 8)} :
    Genuine link (ofFn mac ++ ofFn (link.netdev h).macAddr ++ bytes16 (nativeToBe16 0x0800) ++
    packet) := by
  intro rest htype
  have hipv4 : (received rest (ofFn mac ++ ofFn (link.netdev h).macAddr ++
      bytes16 (nativeToBe16 0x0800) ++ packet)).be16 12 = 0x0800 := be16_eq rfl
  rw [hipv4] at htype
  exact absurd htype (by decide)

theorem mem_framesOf (h : frame ∈ framesOf x) :
    ∃ netdev, .send netdev frame ∈ x.events := by
  obtain ⟨e, he, hframe⟩ := mem_filterMap.1 h
  cases e with
  | send netdev sent =>
    cases hframe
    exact ⟨netdev, he⟩
  | _ => cases hframe

theorem mem_await [DecidableEq η] (hmem : e ∈ (s.await h events).pending h') :
    e ∈ events ∨ e ∈ s.pending h' := by
  change e ∈ update s.pending h events h' at hmem
  by_cases hhost : h' = h
  · rw [hhost, update_self] at hmem
    exact .inl hmem
  · rw [update_of_ne hhost] at hmem
    exact .inr hmem

theorem mem_learn [DecidableEq η] {hash : Nat}
    (hmem : entry ∈ (s.learn h address mac).arpTable h' hash) :
    entry = ⟨address, mac⟩ ∨ entry ∈ s.arpTable h' hash := by
  change entry ∈ update s.arpTable h (update (s.arpTable h) (address.toNat % 32)
    (⟨address, mac⟩ :: s.arpTable h (address.toNat % 32))) h' hash at hmem
  by_cases hhost : h' = h
  · rw [hhost, update_self] at hmem
    by_cases hhash : hash = address.toNat % 32
    · rw [hhash, update_self] at hmem
      rw [hhost, hhash]
      exact mem_cons.1 hmem
    · rw [update_of_ne hhash] at hmem
      rw [hhost]
      exact .inr hmem
  · rw [update_of_ne hhost] at hmem
    exact .inr hmem

variable (hs : Agree link s)
include hs

theorem Agree.getEntry (hget : s.arpGetEntry h address = some entry) :
    link.Names address entry.mac := by
  have haddress : (entry.address == address) = true := @List.find?_some _ _ entry _ hget
  rw [beq_iff_eq] at haddress
  rw [← haddress]
  exact hs.arpTable h _ entry (mem_of_find?_eq_some hget)

theorem Agree.send (hx : ∀ netdev frame, .send netdev frame ∈ x.events → Genuine link frame)
    (hsend : s.send x = some s') : Agree link s' := by
  rw [System.send] at hsend
  split at hsend
  · cases hsend
    refine { hs with sent := fun frame hframe => ?_ }
    rcases mem_append.1 hframe with hframe | hframe
    · obtain ⟨netdev, hmem⟩ := mem_framesOf hframe
      exact hx netdev frame hmem
    · exact hs.sent frame hframe
  · cases hsend

variable [DecidableEq η]

theorem Agree.learn (hnames : link.Names address mac) : Agree link (s.learn h address mac) := by
  refine { hs with arpTable := fun h' hash entry hentry => ?_ }
  rcases mem_learn hentry with rfl | hentry
  · exact hnames
  · exact hs.arpTable h' hash entry hentry

theorem Agree.await
    (hevents : ∀ address mac, .learn address mac ∈ events → link.Names address mac) :
    Agree link (s.await h events) := by
  refine { hs with pending := fun h' address mac hmem => ?_ }
  rcases mem_await hmem with hmem | hmem
  · exact hevents address mac hmem
  · exact hs.pending h' address mac hmem

/-- A frame that was sent arrives: what is learned from it is right. -/
theorem Agree.deliver (rest : Nat → BitVec 8) (others : NetState) (hframe : frame ∈ s.sent) :
    Agree link (s.await h
    ((etherRxPacket (s.netState link h others) (received rest frame)).events.filter isStep)) := by
  refine hs.await fun address mac hmem => ?_
  obtain ⟨htype, rfl, rfl⟩ := etherRxPacket_learns _ _ _ (mem_filter.1 hmem).1
  exact hs.sent frame hframe rest htype

theorem Agree.handle (hpending : s.pending h = e :: events) :
    Agree link (handleEvent link (s.await h events) h e) := by
  have hnames : ∀ address mac, .learn address mac ∈ e :: events → link.Names address mac := by
    rw [← hpending]
    exact hs.pending h
  have hrest : Agree link (s.await h events) :=
    hs.await fun address mac hmem => hnames address mac (mem_cons_of_mem e hmem)
  cases e with
  | learn address mac => exact hrest.learn (hnames address mac mem_cons_self)
  | reply mac address =>
    refine { hrest with sent := fun frame hframe => ?_ }
    rcases mem_cons.1 hframe with rfl | hframe
    · exact arpFrame_genuine link h mac mac 2 address
    · exact hs.sent frame hframe
  | _ => exact hrest

variable [DecidableEq τ]

theorem Agree.goto (h : η) (t : τ) (pc : Pc) : Agree link (s.goto h t pc) := { hs with }

theorem Agree.giveBack (h : η) (t : τ) {result : ArpLookup}
    (hresult : ∀ mac, result = .entry mac → link.Names address mac) :
    Agree link (s.giveBack h t address result) := by
  refine { hs with returned := fun h' address' mac hmem => ?_ }
  rcases mem_cons.1 hmem with heq | hmem
  · cases heq
    exact hresult mac rfl
  · exact hs.returned h' address' mac hmem

theorem Agree.step {a : Act η τ} (hstep : step link s a = some s') : Agree link s' := by
  cases a with try rw [Arp.step] at hstep
  | deliver h frame rest others =>
    obtain ⟨hcond, hstep⟩ := ite_none_right_eq_some.1 hstep
    cases hstep
    exact hs.deliver rest others hcond.1
  | handle h =>
    split at hstep
    · cases hstep
    rename_i hpending
    cases hstep
    exact hs.handle hpending
  | search h t address =>
    split at hstep
    · split at hstep
      · cases hstep
        exact hs.goto h t _
      rename_i hget
      cases hstep
      refine hs.giveBack h t fun mac hmac => ?_
      cases hmac
      exact hs.getEntry hget
    · cases hstep
  | request h t exhausted dstHw =>
    split at hstep
    · rename_i address _
      obtain ⟨s'', hsend, rfl⟩ := map_eq_some_iff.1 hstep
      refine (hs.send ?_ hsend).goto h t _
      intro netdev frame hframe
      obtain ⟨rfl, rfl⟩ := etherTxPacket_sends hframe
      exact arpFrame_genuine link h macBroadcast dstHw 1 address
    · cases hstep
  | wake h t signal =>
    split at hstep
    · cases hstep
      split
      · exact hs.giveBack h t nofun
      · exact hs.goto h t _
    · cases hstep
  | lookup h t =>
    split at hstep
    · rename_i address _
      cases hstep
      refine hs.giveBack h t fun mac hmac => ?_
      cases hget : s.arpGetEntry h address with rw [hget] at hmac
      | none => cases hmac
      | some entry =>
        cases hmac
        exact hs.getEntry hget
    · cases hstep
  | transmit h exhausted mac packet =>
    refine hs.send (fun netdev frame hframe => ?_) hstep
    obtain ⟨rfl, rfl⟩ := etherTxPacket_sends hframe
    exact ipv4_genuine

end Agree

section Runs

variable [DecidableEq η] [DecidableEq τ]

/-- **ARP agrees.**  In every state that any number of machines on a link come to, each with its own
address, every entry of `arp_table` has the MAC of the one machine whose address it is for, and so
has every entry that `arp_search` has returned. -/
theorem arp_agreement (link : Link η) {as : List (Act η τ)} {s : System η τ}
    (hrun : run (step link) init as = some s) :
    (∀ h hash entry, entry ∈ s.arpTable h hash → ∃ owner, (link.netdev owner).macAddr = entry.mac ∧
      ∀ o, (link.netdev o).ipAddr = entry.address ↔ o = owner) ∧
    ∀ h address mac, (h, address, .entry mac) ∈ s.returned →
    ∃ owner, (link.netdev owner).macAddr = mac ∧
      ∀ o, (link.netdev o).ipAddr = address ↔ o = owner := by
  have hagree : Agree link s := run_invariant (fun _ _ _ hs hstep => hs.step hstep) agree_init hrun
  have hunique : ∀ {address : BitVec 32} {mac : Mac}, link.Names address mac →
      ∃ owner, (link.netdev owner).macAddr = mac ∧ ∀ o, (link.netdev o).ipAddr = address ↔
      o = owner := by
    rintro _ _ ⟨owner, rfl, rfl⟩
    exact ⟨owner, rfl, fun o => link.distinct.eq_iff⟩
  exact ⟨fun h hash entry hentry => hunique (hagree.arpTable h hash entry hentry),
    fun h address mac hmem => hunique (hagree.returned h address mac hmem)⟩

end Runs

/-! ## Two machines -/

/-- The machines 10.0.0.1 and 10.0.0.2. -/
def pair : Link Bool where
  netdev h := { macAddr := fun _ => if h then 4 else 2
                ipAddr := if h then 0x0200000a else 0x0100000a
                ipBroadcast := 0xff00000a
                ipTxId := 0 }
  distinct := by decide
  nonzero := by decide

/-- No sockets, and memory enough. -/
def quiet : NetState :=
  { macAddr := fun _ => 0
    ipAddr := 0
    arpTable := fun _ => []
    arpWaittable := fun _ => []
    socketList := []
    udpTable := fun _ => []
    exhausted := fun _ => false }

/-- The first machine asks for the second one's MAC. -/
def asked : List (Act Bool Unit) :=
  let request := arpFrame (pair.netdev false) macBroadcast 1 (fun _ => 0) 0x0200000a
  let reply := arpFrame (pair.netdev true) (fun _ => 2) 2 (fun _ => 2) 0x0100000a
  [.search false () 0x0200000a, .request false () (fun _ => false) fun _ => 0,
    .deliver true request (fun _ => 0) quiet,
    .handle true, .handle true, .deliver false reply (fun _ => 0) quiet, .handle false,
    .wake false () false, .lookup false ()]

/-- What `arp_search` returns is an entry for this MAC. -/
def isEntry (mac : BitVec 8) : ArpLookup → Bool
  | .entry m => m 0 == mac
  | _ => false

/-- It finds it, and both of them have learned. -/
theorem arp_agreement_asked :
    ∃ s, run (step pair) init asked = some s ∧ (s.returned.any fun r => isEntry 4 r.2.2) ∧
      (s.arpTable true 10).length = 1 ∧
      (∀ h hash entry, entry ∈ s.arpTable h hash → ∃ owner, (pair.netdev owner).macAddr =
      entry.mac ∧
        ∀ o, (pair.netdev o).ipAddr = entry.address ↔ o = owner) ∧
      ∀ h address mac, (h, address, .entry mac) ∈ s.returned →
      ∃ owner, (pair.netdev owner).macAddr = mac ∧
        ∀ o, (pair.netdev o).ipAddr = address ↔ o = owner := by
  obtain ⟨s, hs, hreturned, htable⟩ : ∃ s, run (step pair) init asked = some s ∧
      (s.returned.any fun r => isEntry 4 r.2.2) ∧ (s.arpTable true 10).length = 1 := by
    decide +kernel
  exact ⟨s, hs, hreturned, htable, arp_agreement pair hs⟩

/-! ## The table as a map -/

/-- The sender of an ARP packet, which is a reply or a request. -/
structure ArpPacket where
  reply : Bool
  srcProto : BitVec 32
  srcHw : Mac

/-- The packet is in a frame. -/
structure ArpPacket.In (p : ArpPacket) (f : Frame) : Prop where
  htype : f.be16 14 = 1
  ptype : f.be16 16 = 0x0800
  op : f.be16 20 = if p.reply then 2 else 1
  srcProto : f.le32 28 = p.srcProto
  srcHw : f.mac 22 = p.srcHw

section Table

variable [DecidableEq η] {s : System η τ} {h : η} {p : ArpPacket} {ps : List ArpPacket}

/-- `arp_rx_packet`, on the table -/
def System.arpRx (h : η) (p : ArpPacket) (s : System η τ) : System η τ :=
  if p.reply || (s.arpGetEntry h p.srcProto).isNone then s.learn h p.srcProto p.srcHw else s

theorem learn_mem_arpAddEntry {ns : NetState} {f : Frame} {address : BitVec 32}
    (hmem : ns.exhausted .arpEntry = false) :
    .learn address (f.mac 22) ∈ (arpAddEntry ns f address).events := by
  have hal : allocate ns .arpEntry 32 = pure () := by
    rw [allocate, hmem]
    rfl
  rw [arpAddEntry, hal]
  exact .tail _ (.head _)

theorem learn_notMem_arpSendReply {ns : NetState} {f : Frame} {a : BitVec 32} {mac : Mac} :
    .learn a mac ∉ (arpSendReply ns f).events := by
  rw [arpSendReply, allocate]
  split
  · simp [mem_bind, Frame.readMac, Frame.readLe32, stop]
  split <;> simp [mem_bind, Frame.readMac, Frame.readLe32, stop, emit]

omit [DecidableEq η] in
/-- **`arp_rx_packet` learns the sender** if the table takes it. -/
theorem learn_mem_arpRxPacket {f : Frame} (hp : p.In f) (link : Link η) {others : NetState}
    (hmem : others.exhausted .arpEntry = false) :
    .learn p.srcProto p.srcHw ∈ (arpRxPacket (s.netState link h others) f).events ↔
      p.reply || (s.arpGetEntry h p.srcProto).isNone := by
  have hadd : .learn p.srcProto (f.mac 22) ∈
      (arpAddEntry (s.netState link h others) f p.srcProto).events := learn_mem_arpAddEntry hmem
  rw [hp.srcHw] at hadd
  have hreply : ∀ c : Prop, [Decidable c] → .learn p.srcProto p.srcHw ∉
      (if c then arpSendReply (s.netState link h others) f else pure ()).events := by
    intro c _
    split
    · exact learn_notMem_arpSendReply
    · exact not_mem_pure
  have hget : (Net.arpGetEntry (s.netState link h others) p.srcProto) =
      (s.arpGetEntry h p.srcProto).map Entry.address := by
    simp only [Net.arpGetEntry, System.netState, System.arpGetEntry, find?_map]
    rfl
  -- a reply is learned, and a request if there is no entry
  cases hr : p.reply <;> cases hentry : s.arpGetEntry h p.srcProto <;>
    simp [arpRxPacket, mem_bind, Frame.readBe16, Frame.readLe32, hp.htype, hp.ptype, hp.op, hr,
      hp.srcProto, arpLearn, hget, hentry, hadd, hreply]

open Classical in
/-- **`System.arpRx` is `arp_rx_packet`**, of a request or a reply. -/
theorem arpRx_eq {f : Frame} (hp : p.In f) (link : Link η) {others : NetState}
    (hmem : others.exhausted .arpEntry = false) :
    s.arpRx h p = if .learn p.srcProto p.srcHw ∈ (arpRxPacket (s.netState link h others) f).events
      then s.learn h p.srcProto p.srcHw else s := by
  rw [System.arpRx]
  simp only [learn_mem_arpRxPacket hp link hmem]

/-- After these packets, the last one first. -/
def arpAfter (h : η) (ps : List ArpPacket) : System η Unit := ps.foldr (System.arpRx h) init

/-- Each address has one entry, with the last MAC. -/
structure IsMap (ps : List ArpPacket) (h : η) (s : System η τ) : Prop where
  chain : ∀ hash, (s.arpTable h hash).map Entry.address = (ps.map (·.srcProto)).dedup.filter
    (·.toNat % 32 == hash)
  latest : ∀ a, (s.arpGetEntry h a).map Entry.mac = (ps.find? (·.srcProto == a)).map (·.srcHw)

theorem IsMap.arpRx (M : IsMap ps h s)
    (hp : ∀ q ∈ ps, p.srcProto = q.srcProto → p.reply = false ∧ p.srcHw = q.srcHw) :
    IsMap (p :: ps) h (s.arpRx h p) := by
  have hget := M.latest p.srcProto
  rw [System.arpRx]
  cases hq : ps.find? (·.srcProto == p.srcProto) with rw [hq] at hget
  | some q =>
    obtain ⟨e, he, hmac⟩ := map_eq_some_iff.1 hget
    have hmem := mem_of_find?_eq_some hq
    have hfrom : q.srcProto = p.srcProto := by simpa using find?_some hq
    obtain ⟨hreply, hhw⟩ := hp q hmem hfrom.symm
    rw [he, hreply]
    refine ⟨fun hash => ?_, fun a => ?_⟩
    · rw [map_cons, dedup_cons_of_mem (hfrom ▸ mem_map_of_mem hmem)]
      exact M.chain hash
    by_cases ha : p.srcProto = a
    · rwa [← ha, find?_cons_of_pos (by simp), map_some, hhw]
    · rw [find?_cons_of_neg (by simpa using ha)]
      exact M.latest a
  | none =>
    rw [map_eq_none_iff.1 hget, isNone_none, Bool.or_true, if_pos rfl]
    refine ⟨fun hash => ?_, fun a => ?_⟩
    · rw [map_cons, dedup_cons_of_notMem (by simpa using hq), filter_cons, ← M.chain]
      simp only [System.learn, update_self]
      by_cases hhash : hash = p.srcProto.toNat % 32
      · simp [hhash]
      · simp [hhash, Ne.symm hhash]
    · have hlatest := M.latest a
      simp only [System.arpGetEntry, System.learn, update_self, update_apply] at hlatest ⊢
      by_cases ha : p.srcProto = a
      · simp [ha]
      · rw [find?_cons_of_neg (by simpa using ha), ← hlatest]
        split <;> simp_all

/-- **`arp_table` is a map** if only requests come from an address that has been seen, with the MAC
that was seen. -/
theorem cache_is_map (h : η)
    (hps : ps.Pairwise fun p q => p.srcProto = q.srcProto → p.reply = false ∧ p.srcHw = q.srcHw) :
    IsMap ps h (arpAfter h ps) ∧
    ∑ hash ∈ Finset.range 32, ((arpAfter h ps).arpTable h hash).length =
      (ps.map (·.srcProto)).dedup.length := by
  have M : IsMap ps h (arpAfter h ps) := by
    induction ps with
    | nil => exact ⟨fun _ => rfl, fun _ => rfl⟩
    | cons p ps ih => exact (ih hps.of_cons).arpRx (pairwise_cons.1 hps).1
  refine ⟨M, ?_⟩
  simp only [← length_map Entry.address, M.chain]
  induction (ps.map (·.srcProto)).dedup with
  | nil => rfl
  | cons a l ih =>
    simp only [← countP_eq_length_filter, countP_cons, Finset.sum_add_distrib, beq_iff_eq] at ih ⊢
    rw [ih, Finset.sum_ite_eq, if_pos (Finset.mem_range.2 (Nat.mod_lt _ (by decide))), length_cons]

/-- Two requests of one machine. -/
theorem cache_is_map_twice :
    ((arpAfter () (.replicate 2 ⟨false, 1, fun _ => 2⟩)).arpTable () 1).map Entry.address = [1] :=
  (cache_is_map () (by simp)).1.chain 1

/-- **A second reply** is a second entry, and after a request with another MAC the old one is
found. -/
theorem cache_grows :
    ((arpAfter () (.replicate 2 ⟨true, 1, fun _ => 2⟩)).arpTable () 1).length = 2 ∧
    ((arpAfter () [⟨false, 1, fun _ => 3⟩, ⟨false, 1, fun _ => 2⟩]).arpGetEntry () 1).any
    (·.mac 0 = 2) := by
  decide

end Table

/-! ## The tasks that wait -/

/-- `struct arp_waittable_entry`, with the tasks of its queue. -/
structure WaitEntry (τ : Type) where
  address : BitVec 32
  queue : List τ

/-- The chains of `arp_waittable`, the status of the tasks, and the entries that have been freed. -/
structure WaitTable (τ : Type) where
  chain : Nat → List (WaitEntry τ)
  status : τ → TaskStatus
  freed : List (WaitEntry τ)

section WaitTable

variable [DecidableEq τ]

/-- `wait_queue_wake`; a panic is no result. -/
def wakeQueue (status : τ → TaskStatus) : List τ → Option (τ → TaskStatus)
  | [] => some status
  | t :: ts => if status t = .intrSleeping then wakeQueue (update status t .running) ts else none

/-- The loop of `arp_add_entry` over the wait table, from an entry of the chain on. -/
def wakeWaiters (w : WaitTable τ) (address : BitVec 32) : List (WaitEntry τ) → Option (WaitTable τ)
  | [] => some w
  | e :: next =>
    if e.address = address then (wakeQueue w.status e.queue).map fun status =>
      ⟨update w.chain (address.toNat % 32) next, status, w.freed ++ [e]⟩
    else wakeWaiters w address next

theorem wakeQueue_eq {status : τ → TaskStatus} {ts : List τ} (hnodup : ts.Nodup)
    (hsleep : ∀ t ∈ ts, status t = .intrSleeping) :
    wakeQueue status ts = some fun t => if t ∈ ts then .running else status t := by
  induction ts generalizing status with
  | nil => simp [wakeQueue]
  | cons t ts ih =>
    obtain ⟨ht, hnodup⟩ := nodup_cons.1 hnodup
    rw [wakeQueue, if_pos (hsleep t (.head _)), ih hnodup (by grind)]
    congr 1 with u
    by_cases hu : u = t <;> simp [hu]

theorem wakeQueue_isSome {status : τ → TaskStatus} {ts : List τ} (hnodup : ts.Nodup) :
    (wakeQueue status ts).isSome ↔ waitQueueWake (ts.map status) = pure () := by
  induction ts generalizing status with
  | nil => simp [wakeQueue, waitQueueWake]
  | cons t ts ih =>
    obtain ⟨ht, hnodup⟩ := nodup_cons.1 hnodup
    rw [wakeQueue, map_cons, waitQueueWake]
    split_ifs with hs
    · rw [ih hnodup, map_congr_left fun u hu => update_of_ne (ne_of_mem_of_not_mem hu ht) _ _]
    · refine iff_of_false (by simp) fun h => ?_
      cases congrArg result h

/-- **`wakeWaiters` panics where `arp_add_entry` does.** -/
theorem wakeWaiters_isSome {ns : NetState} {w : WaitTable τ} {address : BitVec 32}
    {es : List (WaitEntry τ)} (hnodup : ∀ e ∈ es, e.queue.Nodup)
    (hwait : ns.arpWaittable (address.toNat % 32) =
      es.map fun e => ⟨e.address, e.queue.map w.status⟩) :
    (wakeWaiters w address es).isSome ↔ waitQueueWake (arpWaiting ns address) = pure () := by
  rw [arpWaiting, hwait]
  clear hwait
  induction es with
  | nil => simp [wakeWaiters, waitQueueWake]
  | cons e es ih =>
    rw [forall_mem_cons] at hnodup
    rw [wakeWaiters, map_cons]
    split_ifs with he
    · rw [find?_cons_of_pos (by simpa using he), isSome_map, wakeQueue_isSome hnodup.1]
    · rw [find?_cons_of_neg (by simpa using he), ih hnodup.2]

/-- A queue that can be woken has every task once, asleep. -/
theorem asleep_of_wakeQueue {status status' : τ → TaskStatus} {ts : List τ}
    (h : wakeQueue status ts = some status') : ts.Nodup ∧ ∀ t ∈ ts, status t = .intrSleeping := by
  induction ts generalizing status with
  | nil => exact ⟨nodup_nil, nofun⟩
  | cons t ts ih =>
    obtain ⟨ht, h⟩ := ite_none_right_eq_some.1 h
    obtain ⟨hnodup, hsleep⟩ := ih h
    have hnot : t ∉ ts := by
      intro hmem
      have hrun := hsleep t hmem
      rw [update_self] at hrun
      cases hrun
    refine ⟨nodup_cons.2 ⟨hnot, hnodup⟩, forall_mem_cons.2 ⟨ht, fun u hu => ?_⟩⟩
    have hold := hsleep u hu
    rwa [update_of_ne (ne_of_mem_of_not_mem hu hnot)] at hold

/-- What the loop does: it stops at the first entry of the address. -/
theorem wakeWaiters_cases {w w' : WaitTable τ} {address : BitVec 32} {es : List (WaitEntry τ)}
    (h : wakeWaiters w address es = some w') : (∀ e ∈ es, e.address ≠ address) ∨
      ∃ front e next status, es = front ++ e :: next ∧ (∀ e ∈ front, e.address ≠ address) ∧
      e.address = address ∧
        wakeQueue w.status e.queue = some status ∧
        w' = ⟨update w.chain (address.toNat % 32) next, status, w.freed ++ [e]⟩ := by
  induction es with
  | nil => exact .inl nofun
  | cons e next ih =>
    rw [wakeWaiters] at h
    split_ifs at h with he
    · obtain ⟨status, hwake, rfl⟩ := map_eq_some_iff.1 h
      exact .inr ⟨[], e, next, status, rfl, nofun, he, hwake, rfl⟩
    · rcases ih h with hnone | ⟨front, e', next', status, rfl, hfront, hrest⟩
      · exact .inl (forall_mem_cons.2 ⟨he, hnone⟩)
      · exact .inr ⟨e :: front, e', next', status, rfl, forall_mem_cons.2 ⟨he, hfront⟩, hrest⟩

theorem wakeWaiters_none {w : WaitTable τ} {address : BitVec 32} {es : List (WaitEntry τ)}
    (h : ∀ e ∈ es, e.address ≠ address) : wakeWaiters w address es = some w ∧
      es.filter (·.address ≠ address) = es ∧ es.filter (·.address = address) = [] := by
  refine ⟨?_, filter_eq_self.2 fun e he => decide_eq_true (h e he),
    filter_eq_nil_iff.2 (by simpa using h)⟩
  induction es with
  | nil => rfl
  | cons e es ih => exact (if_neg (h e (.head _))).trans (ih fun e he => h e (.tail _ he))

/-- **The tasks that wait for the address wake up, and no others**: its entry is freed, and the
others stay in their chains, exactly if no entry but the first of the chain is for the address and
the tasks of that one are asleep. -/
theorem waiters_woken {w : WaitTable τ} {address : BitVec 32} {es : List (WaitEntry τ)}
    (hes : w.chain (address.toNat % 32) = es) : (∃ w', wakeWaiters w address es = some w' ∧
      w'.chain = update w.chain (address.toNat % 32) (es.filter (·.address ≠ address)) ∧
      w'.freed = w.freed ++ es.filter (·.address = address) ∧ ∀ t, w'.status t =
        if t ∈ (es.filter (·.address = address)).flatMap WaitEntry.queue then .running
        else w.status t) ↔
    (∀ e ∈ es.tail, e.address ≠ address) ∧
      ∀ e ∈ es, e.address = address → e.queue.Nodup ∧
      ∀ t ∈ e.queue, w.status t = .intrSleeping := by
  constructor
  · rintro ⟨w', hw', hchain, hfreed, -⟩
    rcases wakeWaiters_cases hw' with hnone | ⟨front, e, next, status, rfl, hfront, he, hwake, rfl⟩
    · exact ⟨fun e he => hnone e (mem_of_mem_tail he), fun e he haddr => absurd haddr (hnone e he)⟩
    -- one entry is freed, so there is no other, and the chain keeps what was in front of it
    rw [filter_append, (wakeWaiters_none (w := w) hfront).2.2, nil_append,
      filter_cons_of_pos (by simp [he]), append_cancel_left_eq, cons.injEq] at hfreed
    have hnext : ∀ e ∈ next, e.address ≠ address := by simpa using hfreed.2.symm
    have hkept : update w.chain _ next _ = _ := congrFun hchain (address.toNat % 32)
    rw [update_self, update_self, filter_append, (wakeWaiters_none (w := w) hfront).2.1,
      filter_cons_of_neg (by simp [he]), (wakeWaiters_none (w := w) hnext).2.1,
      self_eq_append_left] at hkept
    subst hkept
    refine ⟨hnext, fun e' he' haddr => ?_⟩
    rcases mem_cons.1 he' with rfl | he'
    · exact asleep_of_wakeQueue hwake
    · exact absurd haddr (hnext e' he')
  rintro ⟨hfirst, hqueue⟩
  rcases es with _ | ⟨e, next⟩
  · exact ⟨w, rfl, (update_eq_self_iff.2 hes.symm).symm, by simp, by simp⟩
  obtain ⟨hrest, hothers, hnone⟩ := @wakeWaiters_none _ _ w _ next hfirst
  by_cases he : e.address = address
  · obtain ⟨hnodup, hsleep⟩ := hqueue e (.head _) he
    refine ⟨_, by rw [wakeWaiters, if_pos he, wakeQueue_eq hnodup hsleep]; rfl, ?_⟩
    rw [filter_cons_of_neg (by simp [he]), filter_cons_of_pos (by simp [he]), hothers, hnone]
    simp
  · refine ⟨w, (if_neg he).trans hrest, ?_⟩
    rw [filter_cons_of_pos (by simp [he]), filter_cons_of_neg (by simp [he]), hothers, hnone, ← hes]
    simp

/-- Two addresses of one chain, with a task each. -/
def collided : WaitTable Nat := ⟨fun _ => [⟨33, [7]⟩, ⟨1, [8]⟩], fun _ => .intrSleeping, []⟩

theorem waiters_woken_first : ∃ w', wakeWaiters collided 33 (collided.chain 1) = some w' ∧
    (w'.chain 1).map WaitEntry.queue = [[8]] := by
  obtain ⟨w', hw', hchain, -⟩ := (@waiters_woken _ _ collided 33 _ rfl).2 ⟨by decide, by decide⟩
  exact ⟨w', hw', by rw [hchain]; rfl⟩

/-- **A task is lost**: the entry of the other address is in the chain no more, and has not been
freed. -/
theorem waiter_lost : (wakeWaiters collided 1 (collided.chain 1)).any fun w' =>
    (w'.chain 1).isEmpty && w'.freed.map WaitEntry.address = [1] && w'.status 7 =
    .intrSleeping := by
  decide

end WaitTable

end Monolith.Arp
