import Monolith.Lib.Traced
import Monolith.Mm.Slab
import Monolith.Sched.Task

/-!
# Receiving a frame

What `e1000_irq` does with a frame: `ether_rx_packet` and, behind it, ARP, raw sockets and UDP.
Each of them gets a pointer into the frame and what is left of its length.  Only UDP looks at that
length; the other headers are read as if they were there.  A datagram is copied into a block of
`kmalloc`, which has no blocks of more than 1024 bytes and panics.

A call leaves a trace of the bytes it reads, the sizes it subtracts and what it hands on.
`etherRxPacket_safe` says for every frame, and for all tables of sockets, exactly when the call
reads only what has been received, subtracts nothing from less, and does not panic.
-/

namespace Monolith.Net

open Mm Traced Option List

/-! ## Frames -/

/-- `native_to_be16`, which is its own inverse -/
def nativeToBe16 (x : BitVec 16) : BitVec 16 := x.extractLsb' 0 8 ++ x.extractLsb' 8 8

theorem nativeToBe16_involutive : Function.Involutive nativeToBe16 := by
  intro x
  simp only [nativeToBe16]
  grind

/-- The buffer of a descriptor, and `desc->length`. -/
structure Frame where
  data : Nat → BitVec 8
  length : BitVec 16

namespace Frame

/-- `be16_to_native` of a field -/
def be16 (f : Frame) (offset : Nat) : BitVec 16 := f.data offset ++ f.data (offset + 1)

/-- A field of 16 bits, in memory order. -/
def le16 (f : Frame) (offset : Nat) : BitVec 16 := f.data (offset + 1) ++ f.data offset

/-- A field of 32 bits, in memory order. -/
def le32 (f : Frame) (offset : Nat) : BitVec 32 := f.le16 (offset + 2) ++ f.le16 offset

def mac (f : Frame) (offset : Nat) (i : Fin 6) : BitVec 8 := f.data (offset + i)

end Frame

/-! ## What the receive path looks at, and what it does -/

/-- A socket that datagrams are for: its number in the list of raw sockets, or the one that has the
port. -/
inductive Receiver where
  | raw (i : Nat)
  | udp
  deriving DecidableEq, Repr

inductive AllocSite where
  | arpEntry
  | arpReply
  | recvEntry (dst : Receiver)
  deriving DecidableEq, Repr

/-- A raw socket: `priv_data->protocol`, and the status of the tasks on `recv_waitqueue`. -/
structure RawSocket where
  protocol : BitVec 8
  waiting : List TaskStatus

structure UdpSocket where
  addr : BitVec 32
  port : BitVec 16
  waiting : List TaskStatus

/-- `struct arp_waittable_entry` -/
structure ArpWait where
  address : BitVec 32
  waiting : List TaskStatus

/-- The device and the tables. -/
structure NetState where
  macAddr : Fin 6 → BitVec 8
  ipAddr : BitVec 32
  /-- The addresses in the buckets of `arp_table`. -/
  arpTable : Nat → List (BitVec 32)
  arpWaittable : Nat → List ArpWait
  socketList : List RawSocket
  udpTable : Nat → List UdpSocket
  /-- Where `kmalloc` needs a page and there is none. -/
  exhausted : AllocSite → Bool

inductive RxEvent where
  /-- `count` bytes of the frame are read. -/
  | read (offset count : Nat)
  | sub (a b : Nat)
  /-- A new entry of `arp_table`. -/
  | learn (address : BitVec 32) (mac : Fin 6 → BitVec 8)
  /-- A reply is sent to these addresses. -/
  | reply (mac : Fin 6 → BitVec 8) (address : BitVec 32)
  /-- `count` bytes of the frame are put on a socket's queue, with a source. -/
  | deliver (dst : Receiver) (port : BitVec 16) (addr : BitVec 32) (offset count : Nat)
  /-- `net: RX unknown packet EtherType %x length %x` -/
  | unknownType (type : BitVec 16) (length : Nat)
  /-- `net: RX IPv4 packet unknown protocol %x length %x` -/
  | unknownProtocol (protocol : BitVec 8) (length : Nat)

inductive RxPanic where
  /-- `kmalloc: allocation too big` -/
  | tooBig (size : Nat)
  /-- `pmm_allocate` has no page left. -/
  | noMemory
  /-- One of the scheduler's. -/
  | sched (panic : Panic)
  deriving DecidableEq, Repr

abbrev Rx (α : Type) := Traced RxEvent RxPanic α

def emit (e : RxEvent) : Rx Unit := ⟨[e], .ok ()⟩

namespace Frame

def readByte (f : Frame) (offset : Nat) : Rx (BitVec 8) := ⟨[.read offset 1], .ok (f.data offset)⟩

def readBe16 (f : Frame) (offset : Nat) : Rx (BitVec 16) := ⟨[.read offset 2], .ok (f.be16 offset)⟩

def readLe16 (f : Frame) (offset : Nat) : Rx (BitVec 16) := ⟨[.read offset 2], .ok (f.le16 offset)⟩

def readLe32 (f : Frame) (offset : Nat) : Rx (BitVec 32) := ⟨[.read offset 4], .ok (f.le32 offset)⟩

def readMac (f : Frame) (offset : Nat) : Rx (Fin 6 → BitVec 8) :=
  ⟨[.read offset 6], .ok (f.mac offset)⟩

end Frame

/-- A subtraction of two `size_t`. -/
def subSize (a b : Nat) : Rx Nat := ⟨[.sub a b], .ok ((a + 2 ^ 64 - b) % 2 ^ 64)⟩

/-- `kmalloc`, as far as it can fail. -/
def allocate (s : NetState) (site : AllocSite) (size : Nat) : Rx Unit :=
  match kmCacheFor (slabInit kmCaches) size with
  | none => .stop (.tooBig size)
  | some _ => if s.exhausted site then .stop .noMemory else pure ()

/-- `wait_queue_wake` -/
def waitQueueWake : List TaskStatus → Rx Unit
  | [] => pure ()
  | st :: waiting => if st = .intrSleeping then waitQueueWake waiting else .stop (.sched .wqWake)

/-! ## The code -/

/-- `memcmp(frame + offset, bytes, n) == 0` -/
def memcmp (f : Frame) : Nat → List (BitVec 8) → Rx Bool
  | _, [] => pure true
  | offset, b :: bs => do
    let c ← f.readByte offset
    if c = b then memcmp f (offset + 1) bs else pure false

/-- `arp_get_entry` -/
def arpGetEntry (s : NetState) (address : BitVec 32) : Option (BitVec 32) :=
  (s.arpTable (address.toNat % 32)).find? (· == address)

/-- The tasks that `arp_add_entry` wakes: those that wait for the address. -/
def arpWaiting (s : NetState) (address : BitVec 32) : List TaskStatus :=
  match (s.arpWaittable (address.toNat % 32)).find? (·.address == address) with
  | none => []
  | some w => w.waiting

/-- `arp_add_entry(address, packet->src_hw, arp_htype_ethernet, netdev)` -/
def arpAddEntry (s : NetState) (f : Frame) (address : BitVec 32) : Rx Unit := do
  -- `sizeof(struct arp_entry)`
  allocate s .arpEntry 32
  let mac ← f.readMac 22
  emit (.learn address mac)
  waitQueueWake (arpWaiting s address)

/-- `if(!arp_get_entry(src_ip)) arp_add_entry(src_ip, ...);` -/
def arpLearn (s : NetState) (f : Frame) (srcIp : BitVec 32) : Rx Unit :=
  if arpGetEntry s srcIp = none then arpAddEntry s f srcIp else pure ()

/-- `arp_send_reply`, with the allocation of `ether_tx_packet` -/
def arpSendReply (s : NetState) (f : Frame) : Rx Unit := do
  let mac ← f.readMac 22
  let address ← f.readLe32 28
  -- `sizeof(struct ether_packet) + sizeof(struct arp_packet)`
  allocate s .arpReply (14 + 28)
  emit (.reply mac address)

/-- `arp_rx_packet`, of the packet behind the Ethernet header -/
def arpRxPacket (s : NetState) (f : Frame) : Rx Unit := do
  let htype ← f.readBe16 14
  -- `arp_htype_ethernet`
  if htype ≠ 1 then return else
  let ptype ← f.readBe16 16
  -- `arp_ptype_ipv4`
  if ptype ≠ 0x0800 then return else
  let op ← f.readBe16 20
  -- `ARP_OPCODE_REQUEST`, `ARP_OPCODE_REPLY`
  if op = 1 then
    let srcIp ← f.readLe32 28
    let dstIp ← f.readLe32 38
    arpLearn s f srcIp
    if s.ipAddr ≠ 0 ∧ s.ipAddr = dstIp then arpSendReply s f else pure ()
  else if op = 2 then
    let src ← f.readLe32 28
    arpAddEntry s f src
  else return

/-- `socket_rx_packet`, of `len` bytes from `offset` on -/
def socketRxPacket (s : NetState) (dst : Receiver) (waiting : List TaskStatus) (port : BitVec 16)
    (addr : BitVec 32) (offset len : Nat) : Rx Unit := do
  -- `sizeof(struct recv_queue_entry) + len`
  allocate s (.recvEntry dst) ((48 + len) % 2 ^ 64)
  emit (.read offset len)
  emit (.deliver dst port addr offset len)
  waitQueueWake waiting

/-- The loop of `ipv4_raw_rx_packet` over the sockets from the `i`-th on. -/
def rawLoop (s : NetState) (f : Frame) (port : BitVec 16) (addr : BitVec 32) (length : Nat) :
    Nat → List RawSocket → Bool → Rx Bool
  | _, [], found => return found
  | i, cur :: rest, found => do
    let protocol ← f.readByte 23
    if cur.protocol = protocol then
      let len ← subSize length 20
      socketRxPacket s (.raw i) cur.waiting port addr 34 len
      rawLoop s f port addr length (i + 1) rest true
    else rawLoop s f port addr length (i + 1) rest found

/-- `ipv4_raw_rx_packet` -/
def ipv4RawRxPacket (s : NetState) (f : Frame) (length : Nat) : Rx Bool := do
  let protocol ← f.readByte 23
  let addr ← f.readLe32 26
  rawLoop s f (protocol.setWidth 16) addr length 0 s.socketList false

/-- `ip_port_hashf` -/
def ipPortHashf (addr : BitVec 32) (port : BitVec 16) : Nat :=
  ((((17 : BitVec 32) * 5 + addr) * 5 + port.setWidth 32) % 256).toNat

/-- `udp_table_get` -/
def udpTableGet (s : NetState) (addr : BitVec 32) (port : BitVec 16) : Option UdpSocket :=
  (s.udpTable (ipPortHashf addr port)).find? fun socket =>
    socket.addr == addr && socket.port == port

/-- The socket for a datagram: the one that is bound to its address, or to none. -/
def udpSocketFor (s : NetState) (addr : BitVec 32) (port : BitVec 16) : Option UdpSocket :=
  match udpTableGet s addr port with
  | some socket => some socket
  | none => udpTableGet s 0 port

/-- `udp_rx_packet` -/
def udpRxPacket (s : NetState) (f : Frame) (length : Nat) : Rx Unit := do
  if length < 20 + 8 then return else
  let dstAddr ← f.readLe32 30
  let dstPort ← f.readLe16 36
  match udpSocketFor s dstAddr dstPort with
  | none => return
  | some socket => do
    let srcPort ← f.readLe16 34
    let srcAddr ← f.readLe32 26
    let rest ← subSize length 20
    let len ← subSize rest 8
    socketRxPacket s .udp socket.waiting srcPort srcAddr 42 len

/-- `ipv4_rx_packet` -/
def ipv4RxPacket (s : NetState) (f : Frame) (length : Nat) : Rx Unit := do
  let processed ← ipv4RawRxPacket s f length
  let protocol ← f.readByte 23
  -- `IPPROTO_UDP`
  if protocol = 17 then udpRxPacket s f length
  else if processed then return
  else emit (.unknownProtocol protocol length)

def etherMacBroadcast : List (BitVec 8) := [0xff, 0xff, 0xff, 0xff, 0xff, 0xff]

/-- The two comparisons of `ether_rx_packet`. -/
def etherIsOurs (s : NetState) (f : Frame) : Rx Bool := do
  let own ← memcmp f 0 (ofFn s.macAddr)
  if own then return true else memcmp f 0 etherMacBroadcast

/-- `ether_rx_packet` -/
def etherRxPacket (s : NetState) (f : Frame) : Rx Unit := do
  let ours ← etherIsOurs s f
  if ours then
    let type ← f.readBe16 12
    -- `ETHER_TYPE_ARP`, `ETHER_TYPE_IPV4`
    if type = 0x0806 then
      -- The length is passed on, and `arp_rx_packet` does not look at it.
      let _ ← subSize f.length.toNat 14
      arpRxPacket s f
    else if type = 0x0800 then
      let length ← subSize f.length.toNat 14
      ipv4RxPacket s f length
    else emit (.unknownType type f.length.toNat)
  else return

/-! ## When it goes well -/

/-- Only bytes of the frame are read, and nothing is subtracted from less. -/
def Frame.Within (f : Frame) : RxEvent → Prop
  | .read offset count => offset + count ≤ f.length.toNat
  | .sub a b => b ≤ a
  | _ => True

/-- The bytes at `offset` are these. -/
def Frame.matches (f : Frame) : Nat → List (BitVec 8) → Bool
  | _, [] => true
  | offset, b :: bs => f.data offset == b && f.matches (offset + 1) bs

/-- The end of what a comparison with the bytes at `offset` looks at: it stops at the first
difference. -/
def Frame.seen (f : Frame) : Nat → List (BitVec 8) → Nat
  | offset, [] => offset
  | offset, b :: bs => if f.data offset = b then f.seen (offset + 1) bs else offset + 1

/-- The frame is for this machine, or for all. -/
def Frame.ours (f : Frame) (s : NetState) : Bool :=
  f.matches 0 (ofFn s.macAddr) || f.matches 0 etherMacBroadcast

/-- All of them can be woken. -/
def Asleep (waiting : List TaskStatus) : Prop := ∀ st ∈ waiting, st = .intrSleeping

/-- The sender of an ARP packet can be added to the table. -/
def ArpAddFits (s : NetState) (address : BitVec 32) : Prop :=
  s.exhausted .arpEntry = false ∧ Asleep (arpWaiting s address)

/-- An ARP packet is long enough for the fields that are looked at, and can be acted on. -/
def ArpFits (s : NetState) (f : Frame) : Prop :=
  16 ≤ f.length.toNat ∧
  (f.be16 14 = 1 → 18 ≤ f.length.toNat ∧
    (f.be16 16 = 0x0800 → 22 ≤ f.length.toNat ∧
      (f.be16 20 = 1 → 42 ≤ f.length.toNat ∧
        (arpGetEntry s (f.le32 28) = none → ArpAddFits s (f.le32 28)) ∧
        (s.ipAddr ≠ 0 ∧ s.ipAddr = f.le32 38 → s.exhausted .arpReply = false)) ∧
      (f.be16 20 = 2 → 32 ≤ f.length.toNat ∧ ArpAddFits s (f.le32 28))))

/-- A datagram can be put on the queue of a socket. -/
def DeliverFits (s : NetState) (dst : Receiver) (waiting : List TaskStatus) : Prop :=
  s.exhausted (.recvEntry dst) = false ∧ Asleep waiting

/-- An IPv4 packet has its header and, where there is a socket for it, a payload that is not too
long. -/
def Ipv4Fits (s : NetState) (f : Frame) : Prop :=
  30 ≤ f.length.toNat ∧
  (∀ i socket, s.socketList[i]? = some socket → socket.protocol = f.data 23 →
    34 ≤ f.length.toNat ∧ f.length.toNat ≤ 1010 ∧ DeliverFits s (.raw i) socket.waiting) ∧
  (f.data 23 = 17 → 42 ≤ f.length.toNat → ∀ socket, udpSocketFor s (f.le32 30) (f.le16 36) =
    some socket → f.length.toNat ≤ 1018 ∧ DeliverFits s .udp socket.waiting)

/-- What a frame and the tables have to be for the receive path to be sound. -/
def RxFits (s : NetState) (f : Frame) : Prop :=
  if f.ours s then
    14 ≤ f.length.toNat ∧ (f.be16 12 = 0x0806 → ArpFits s f) ∧ (f.be16 12 = 0x0800 → Ipv4Fits s f)
  else f.seen 0 (ofFn s.macAddr) ≤ f.length.toNat ∧ f.seen 0 etherMacBroadcast ≤ f.length.toNat

open Traced (Safe)

variable {offset : Nat} {waiting : List TaskStatus} {port : BitVec 16} {addr : BitVec 32}

section Safe

variable {s : NetState} {f : Frame} {β : Type} {address : BitVec 32} {k : BitVec 16 → Rx β}

/-! ## Reading, subtracting, allocating and waking -/

theorem Frame.safe_readByte {k : BitVec 8 → Rx β} :
    Safe f.Within (f.readByte offset >>= k) ↔ offset + 1 ≤ f.length.toNat ∧
    Safe f.Within (k (f.data offset)) :=
  safe_mk_bind

theorem Frame.safe_readBe16 :
    Safe f.Within (f.readBe16 offset >>= k) ↔ offset + 2 ≤ f.length.toNat ∧
    Safe f.Within (k (f.be16 offset)) :=
  safe_mk_bind

theorem Frame.safe_readLe16 :
    Safe f.Within (f.readLe16 offset >>= k) ↔ offset + 2 ≤ f.length.toNat ∧
    Safe f.Within (k (f.le16 offset)) :=
  safe_mk_bind

theorem Frame.safe_readLe32 {k : BitVec 32 → Rx β} :
    Safe f.Within (f.readLe32 offset >>= k) ↔ offset + 4 ≤ f.length.toNat ∧
    Safe f.Within (k (f.le32 offset)) :=
  safe_mk_bind

theorem Frame.safe_readMac {k : (Fin 6 → BitVec 8) → Rx β} :
    Safe f.Within (f.readMac offset >>= k) ↔ offset + 6 ≤ f.length.toNat ∧
    Safe f.Within (k (f.mac offset)) :=
  safe_mk_bind

theorem safe_emit {e : RxEvent} : Safe f.Within (emit e) ↔ f.Within e := safe_mk

theorem safe_subSize {a b : Nat} {k : Nat → Rx β} (ha : a < 2 ^ 64) :
    Safe f.Within (subSize a b >>= k) ↔ b ≤ a ∧ Safe f.Within (k (a - b)) := by
  refine safe_mk_bind.trans (and_congr_right fun hle => ?_)
  have hb : b ≤ a := hle
  have hvalue : (a + 2 ^ 64 - b) % 2 ^ 64 = a - b := by omega
  rw [hvalue]

theorem safe_allocate {site : AllocSite} {size : Nat} :
    Safe f.Within (allocate s site size) ↔ size ≤ 1024 ∧ s.exhausted site = false := by
  rw [allocate]
  split
  · rename_i hnone
    exact iff_of_false not_safe_stop fun h => Nat.not_le.2 (kmCacheFor_eq_none.1 hnone) h.1
  rename_i i hsome
  have hle : size ≤ 1024 := by
    rw [← not_lt, ← kmCacheFor_eq_none, hsome]
    exact some_ne_none i
  rw [and_iff_right hle]
  cases s.exhausted site
  · exact iff_of_true safe_pure rfl
  · exact iff_of_false not_safe_stop Bool.noConfusion

theorem safe_waitQueueWake : Safe f.Within (waitQueueWake waiting) ↔ Asleep waiting := by
  induction waiting with
  | nil => exact iff_of_true safe_pure nofun
  | cons st waiting ih =>
    rw [waitQueueWake, Asleep, forall_mem_cons]
    by_cases hst : st = .intrSleeping
    · rwa [if_pos hst, and_iff_right hst]
    · rw [if_neg hst]
      exact iff_of_false not_safe_stop fun h => hst h.1

/-! ## The comparisons -/

theorem memcmp_result (offset : Nat) (bs : List (BitVec 8)) :
    (memcmp f offset bs).result = .ok (f.matches offset bs) := by
  induction bs generalizing offset with
  | nil => rfl
  | cons b bs ih =>
    rw [memcmp, bind_ok rfl, Frame.matches]
    split_ifs with hb
    · rw [beq_iff_eq.2 hb]
      exact ih (offset + 1)
    · rw [beq_eq_false_iff_ne.2 hb]
      rfl

theorem Frame.le_seen (offset : Nat) (bs : List (BitVec 8)) : offset ≤ f.seen offset bs := by
  induction bs generalizing offset with
  | nil => exact Nat.le_refl offset
  | cons b bs ih =>
    rw [Frame.seen]
    have := ih (offset + 1)
    split <;> omega

theorem Frame.seen_le (offset : Nat) (bs : List (BitVec 8)) :
    f.seen offset bs ≤ offset + bs.length := by
  induction bs generalizing offset with
  | nil => exact Nat.le_refl offset
  | cons b bs ih =>
    rw [Frame.seen, length_cons]
    have := ih (offset + 1)
    split <;> omega

theorem safe_memcmp {bs : List (BitVec 8)} (h : offset ≤ f.length.toNat) :
    Safe f.Within (memcmp f offset bs) ↔ f.seen offset bs ≤ f.length.toNat := by
  induction bs generalizing offset with
  | nil => exact iff_of_true safe_pure h
  | cons b bs ih =>
    rw [memcmp, Frame.safe_readByte, Frame.seen]
    split_ifs
    · have hle := f.le_seen (offset + 1) bs
      constructor
      · rintro ⟨hoffset, hrest⟩
        exact (ih hoffset).1 hrest
      · intro hseen
        exact ⟨hle.trans hseen, (ih (hle.trans hseen)).2 hseen⟩
    · exact and_iff_left safe_pure

theorem etherIsOurs_result : (etherIsOurs s f).result = .ok (f.ours s) := by
  rw [etherIsOurs, bind_ok (memcmp_result 0 _), Frame.ours]
  cases f.matches 0 (ofFn s.macAddr) with
  | true => rfl
  | false => exact memcmp_result 0 _

/-- The second comparison is made where the first one fails. -/
theorem safe_etherIsOurs :
    Safe f.Within (etherIsOurs s f) ↔ f.seen 0 (ofFn s.macAddr) ≤ f.length.toNat ∧
      (f.matches 0 (ofFn s.macAddr) = false → f.seen 0 etherMacBroadcast ≤ f.length.toNat) := by
  rw [etherIsOurs, safe_bind, safe_memcmp (Nat.zero_le _), memcmp_result]
  simp only [Except.ok.injEq, forall_eq']
  refine and_congr_right fun _ => ?_
  cases f.matches 0 (ofFn s.macAddr) with
  | true => exact iff_of_true safe_pure nofun
  | false => exact (safe_memcmp (Nat.zero_le _)).trans (true_imp_iff.symm.trans (by rw [eq_self]))

/-! ## ARP -/

theorem safe_arpAddEntry :
    Safe f.Within (arpAddEntry s f address) ↔ 28 ≤ f.length.toNat ∧ ArpAddFits s address := by
  rw [arpAddEntry, safe_seq, safe_allocate, Frame.safe_readMac, safe_seq, safe_emit,
    safe_waitQueueWake]
  simp only [Frame.Within, Nat.reduceAdd, Nat.reduceLeDiff, true_and]
  exact and_left_comm

theorem safe_arpLearn : Safe f.Within (arpLearn s f address) ↔
      (arpGetEntry s address = none → 28 ≤ f.length.toNat ∧ ArpAddFits s address) := by
  rw [arpLearn, safe_ite_pure_right, safe_arpAddEntry]

theorem safe_arpSendReply :
    Safe f.Within (arpSendReply s f) ↔ 32 ≤ f.length.toNat ∧ s.exhausted .arpReply = false := by
  rw [arpSendReply, Frame.safe_readMac, Frame.safe_readLe32, safe_seq, safe_allocate, safe_emit]
  simp only [Frame.Within, Nat.reduceAdd, Nat.reduceLeDiff, true_and, and_true]
  exact ⟨And.right, fun h => ⟨by omega, h⟩⟩

theorem safe_arpRxPacket : Safe f.Within (arpRxPacket s f) ↔ ArpFits s f := by
  rw [arpRxPacket, Frame.safe_readBe16, safe_ite_pure_left, not_not, Frame.safe_readBe16,
    safe_ite_pure_left, not_not, Frame.safe_readBe16, safe_ite, safe_ite_pure_right,
    Frame.safe_readLe32, Frame.safe_readLe32, Frame.safe_readLe32, safe_seq, safe_arpLearn,
    safe_ite_pure_right, safe_arpAddEntry, safe_arpSendReply]
  refine and_congr_right fun _ => imp_congr_right fun _ => and_congr_right fun _ =>
    imp_congr_right fun _ =>
    and_congr_right fun _ => and_congr (imp_congr_right fun _ => ?_) ?_
  · -- The fields of a request end at 42, and what is read later is before that.
    constructor
    · rintro ⟨-, h42, hlearn, hreply⟩
      exact ⟨h42, fun h => (hlearn h).2, fun h => (hreply h).2⟩
    · rintro ⟨h42, hlearn, hreply⟩
      exact ⟨by omega, h42, fun h => ⟨by omega, hlearn h⟩, fun h => ⟨by omega, hreply h⟩⟩
  · constructor
    · intro h hop
      obtain ⟨h32, -, hadd⟩ := h (by rw [hop]; decide) hop
      exact ⟨h32, hadd⟩
    · intro h _ hop
      obtain ⟨h32, hadd⟩ := h hop
      exact ⟨h32, by omega, hadd⟩

/-! ## Sockets -/

theorem safe_socketRxPacket {dst : Receiver} {len : Nat} (hlen : len < 2 ^ 16)
    (hend : offset + len = f.length.toNat) :
    Safe f.Within (socketRxPacket s dst waiting port addr offset len) ↔
      len ≤ 976 ∧ DeliverFits s dst waiting := by
  rw [socketRxPacket, safe_seq, safe_allocate, safe_seq, safe_emit, safe_seq, safe_emit,
    safe_waitQueueWake]
  simp only [Frame.Within, hend, Nat.le_refl, true_and, and_assoc]
  exact and_congr_left' (by omega)

theorem safe_rawDeliver {i : Nat} {k : Unit → Rx β} (h30 : 30 ≤ f.length.toNat) :
    Safe f.Within (subSize (f.length.toNat - 14) 20 >>= fun len =>
      socketRxPacket s (.raw i) waiting port addr 34 len >>= k) ↔
    (34 ≤ f.length.toNat ∧ f.length.toNat ≤ 1010 ∧ DeliverFits s (.raw i) waiting) ∧
    Safe f.Within (k ()) := by
  rw [safe_subSize (by omega), safe_seq, ← and_assoc]
  refine and_congr_left' ((and_congr_right fun h20 => ?_).trans (and_congr_left' (by omega)))
  rw [safe_socketRxPacket (by omega) (by omega)]
  exact and_congr_left' (by omega)

theorem safe_rawLoop (h30 : 30 ≤ f.length.toNat) (sockets : List RawSocket) (found : Bool)
    (i : Nat) : Safe f.Within (rawLoop s f port addr (f.length.toNat - 14) i sockets found) ↔
      ∀ k socket, sockets[k]? = some socket → socket.protocol = f.data 23 →
        34 ≤ f.length.toNat ∧ f.length.toNat ≤ 1010 ∧
        DeliverFits s (.raw (i + k)) socket.waiting := by
  induction sockets generalizing i found with
  | nil => exact iff_of_true safe_pure nofun
  | cons cur rest ih =>
    -- The first socket, and the others one place further.
    rw [rawLoop, Frame.safe_readByte, and_iff_right (by omega), ← Nat.and_forall_add_one]
    simp only [getElem?_cons_zero, getElem?_cons_succ, some.injEq, forall_eq', add_zero,
      ← add_assoc, add_right_comm i _ 1]
    rw [safe_ite, safe_rawDeliver h30, ih, ih]
    by_cases hcur : cur.protocol = f.data 23 <;>
      simp only [hcur, true_imp_iff, not_true, not_false_iff, false_imp_iff, true_and, and_true]

theorem safe_ipv4RawRxPacket : Safe f.Within (ipv4RawRxPacket s f (f.length.toNat - 14)) ↔
    30 ≤ f.length.toNat ∧
      ∀ i socket, s.socketList[i]? = some socket → socket.protocol = f.data 23 →
        34 ≤ f.length.toNat ∧ f.length.toNat ≤ 1010 ∧ DeliverFits s (.raw i) socket.waiting := by
  rw [ipv4RawRxPacket, Frame.safe_readByte, Frame.safe_readLe32]
  constructor
  · rintro ⟨-, h30, h⟩
    simp only [safe_rawLoop h30, zero_add] at h
    exact ⟨h30, h⟩
  · rintro ⟨h30, h⟩
    simp only [safe_rawLoop h30, zero_add]
    exact ⟨by omega, h30, h⟩

/-- `udp_rx_packet` looks at the length before it looks at the packet. -/
theorem safe_udpRxPacket : Safe f.Within (udpRxPacket s f (f.length.toNat - 14)) ↔
      (42 ≤ f.length.toNat → ∀ socket, udpSocketFor s (f.le32 30) (f.le16 36) = some socket →
        f.length.toNat ≤ 1018 ∧ DeliverFits s .udp socket.waiting) := by
  have hshort : ¬f.length.toNat - 14 < 20 + 8 ↔ 42 ≤ f.length.toNat := by omega
  rw [udpRxPacket, safe_ite_pure_left, hshort]
  refine imp_congr_right fun h42 => ?_
  rw [Frame.safe_readLe32, Frame.safe_readLe16, and_iff_right (by omega), and_iff_right (by omega)]
  rcases udpSocketFor s (f.le32 30) (f.le16 36) with _ | _
  · exact iff_of_true safe_pure nofun
  simp only [some.injEq, forall_eq']
  rw [Frame.safe_readLe16, Frame.safe_readLe32, safe_subSize (by omega), safe_subSize (by omega),
    safe_socketRxPacket (by omega) (by omega), and_iff_right (by omega), and_iff_right (by omega),
    and_iff_right (by omega), and_iff_right (by omega)]
  exact and_congr_left' (by omega)

theorem safe_ipv4RxPacket : Safe f.Within (ipv4RxPacket s f (f.length.toNat - 14)) ↔
    Ipv4Fits s f := by
  -- Whether a raw socket has taken the packet decides only about the message.
  rw [ipv4RxPacket, safe_bind_of_iff (q := 24 ≤ f.length.toNat ∧ (f.data 23 = 17 →
    Safe f.Within (udpRxPacket s f (f.length.toNat - 14))))]
  · rw [safe_ipv4RawRxPacket, safe_udpRxPacket, and_assoc]
    refine and_congr_right fun h30 => and_congr_right fun _ => and_iff_right ?_
    omega
  · intro processed
    rw [Frame.safe_readByte, safe_ite, safe_ite_pure_left, safe_emit]
    exact and_congr_right fun _ => and_iff_left fun _ _ => trivial

theorem safe_etherType : Safe f.Within (f.readBe16 12 >>= fun type =>
      if type = 0x0806 then subSize f.length.toNat 14 >>= fun _ => arpRxPacket s f
      else if type = 0x0800 then subSize f.length.toNat 14 >>= fun length => ipv4RxPacket s f length
      else emit (.unknownType type f.length.toNat)) ↔
    14 ≤ f.length.toNat ∧ (f.be16 12 = 0x0806 → ArpFits s f) ∧
    (f.be16 12 = 0x0800 → Ipv4Fits s f) := by
  rw [Frame.safe_readBe16]
  refine and_congr_right fun h14 => ?_
  rw [safe_ite, safe_ite, safe_subSize (by omega), safe_subSize (by omega), safe_arpRxPacket,
    safe_ipv4RxPacket, safe_emit, and_iff_right h14, and_iff_right h14]
  refine and_congr_right fun _ => ⟨fun h htype => (h ?_).1 htype, fun h _ => ⟨h, fun _ => trivial⟩⟩
  rw [htype]
  decide

/-- **The receive path.** Whatever is in the frame and in the tables, `ether_rx_packet` reads only
bytes that have been received, subtracts nothing from less and does not panic, exactly where the
frame fits. -/
theorem etherRxPacket_safe (s : NetState) (f : Frame) :
    Safe f.Within (etherRxPacket s f) ↔ RxFits s f := by
  rw [etherRxPacket, safe_bind, etherIsOurs_result, safe_etherIsOurs, RxFits]
  simp only [Except.ok.injEq, forall_eq']
  rcases hours : f.ours s with _ | _
  · rw [Frame.ours, Bool.or_eq_false_iff] at hours
    rw [hours.1, forall_prop_of_true rfl]
    exact and_iff_left safe_pure
  -- The comparisons look at six bytes, and there are fourteen.
  have hown := f.seen_le 0 (ofFn s.macAddr)
  have hall := f.seen_le 0 etherMacBroadcast
  rw [length_ofFn] at hown
  refine Iff.trans (and_iff_right_of_imp fun h => ?_) safe_etherType
  have h14 := (safe_etherType.1 h).1
  exact ⟨by omega, fun _ => hall.trans (le_trans (by decide) h14)⟩

end Safe

/-! ## A frame that is too long -/

/-- A machine with one raw socket, as a program has it that waits for echo replies. -/
def pingSocket : NetState :=
  { macAddr := fun _ => 2
    ipAddr := 0
    arpTable := fun _ => []
    arpWaittable := fun _ => []
    socketList := [⟨1, []⟩]
    udpTable := fun _ => []
    exhausted := fun _ => false }

/-- An ICMP packet to all, of 1011 bytes. -/
def longFrame : Frame :=
  { data := fun i => if i < 6 then 0xff else if i = 12 then 0x08 else if i = 23 then 1 else 0
    length := 1011 }

/-- The machine panics. -/
theorem etherRxPacket_longFrame :
    (etherRxPacket pingSocket longFrame).result = .error (.tooBig 1025) ∧
      ¬Safe longFrame.Within (etherRxPacket pingSocket longFrame) := by
  have hpanic : (etherRxPacket pingSocket longFrame).result = .error (.tooBig 1025) := by
    decide +kernel
  refine ⟨hpanic, fun ⟨_, _, hok⟩ => ?_⟩
  cases hok

end Monolith.Net
