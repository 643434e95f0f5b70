import Monolith.Fs.Vfs
import Monolith.Net.Receive

/-!
# Sending a packet

`udp_sendto`, `ipv4_tx_packet` and `ether_tx_packet`, each of which puts its header before what it
is given, in a new block of `kmalloc`; and the two packets of ARP.  A packet is the list of its
bytes.

* A call leaves a trace of its blocks and of the frames that the device gets.
* `udpSendto_sends` says what a frame of `udp_sendto` looks like, whatever the routes and the ARP
  table are.
* `received` is what is in the buffer of another machine when a frame has arrived: the device makes
  frames longer that are shorter than 60 bytes.
* The fields of `udpFrame` and of `arpFrame`, read where the receive path reads them, are what was
  put there.
-/

namespace Monolith.Net

open Fs (Errno VfsFault)
open Mm List Traced

/-! ## Fields -/

abbrev Mac := Fin 6 → BitVec 8

/-- A field of 16 bits, in memory order. -/
def bytes16 (x : BitVec 16) : List (BitVec 8) := [x.extractLsb' 0 8, x.extractLsb' 8 8]

/-- A field of 32 bits, in memory order. -/
def bytes32 (x : BitVec 32) : List (BitVec 8) :=
  bytes16 (x.extractLsb' 0 16) ++ bytes16 (x.extractLsb' 16 16)

/-! ## What the calls look at, and what they do -/

/-- `struct netdev` -/
structure Netdev where
  macAddr : Mac
  ipAddr : BitVec 32
  ipBroadcast : BitVec 32
  ipTxId : BitVec 16

/-- `struct ip_route_entry` -/
structure IpRouteEntry where
  device : Option Netdev
  dest : BitVec 32
  gateway : BitVec 32
  mask : BitVec 32
  metric : BitVec 16

/-- `struct sockaddr_in` -/
structure SockaddrIn where
  family : BitVec 16
  port : BitVec 16
  addr : BitVec 32

/-- `struct ipv4_sdata` of a socket for datagrams -/
structure Ipv4Sdata where
  bindDevice : Option Netdev
  port : BitVec 16

/-- What `arp_search` returns: an entry, a null pointer, or `-EINTR` as a pointer. -/
inductive ArpLookup where
  | entry (mac : Mac)
  | null
  | interrupted

inductive TxSite where
  | udp
  | ipv4
  | ether
  deriving DecidableEq, Repr

/-- What a call finds. -/
structure TxState where
  routes : List IpRouteEntry
  /-- `next_eph_port`, and the ports for which `udp_table` has a socket. -/
  nextEphPort : BitVec 16
  taken : BitVec 16 → Bool
  /-- What `arp_search` comes back with, be it at once or after a while. -/
  arpSearch : BitVec 32 → ArpLookup
  /-- Where `kmalloc` needs a page and there is none. -/
  exhausted : TxSite → Bool

inductive TxEvent where
  | alloc (site : TxSite) (size : Nat)
  | free (site : TxSite)
  /-- `ip_tx_id` is incremented. -/
  | nextId
  /-- A frame is given to a device. -/
  | send (netdev : Netdev) (frame : List (BitVec 8))

inductive TxPanic where
  /-- `kmalloc: allocation too big` -/
  | tooBig (size : Nat)
  /-- `pmm_allocate` has no page left. -/
  | noMemory
  /-- A null pointer is followed. -/
  | null
  /-- The pointer `-EINTR` is followed. -/
  | badPointer
  /-- The search for a port has no end. -/
  | endless
  deriving DecidableEq, Repr

abbrev Tx (α : Type) := Traced TxEvent TxPanic α

def does (e : TxEvent) : Tx Unit := ⟨[e], .ok ()⟩

/-- `kmalloc` -/
def kmalloc (exhausted : TxSite → Bool) (site : TxSite) (size : Nat) : Tx Unit :=
  match kmCacheFor (slabInit kmCaches) size with
  | none => .stop (.tooBig size)
  | some _ => if exhausted site then .stop .noMemory else does (.alloc site size)

/-! ## Ethernet and ARP -/

/-- `ether_tx_packet` -/
def etherTxPacket (exhausted : TxSite → Bool) (netdev : Netdev) (macDst : Mac) (type : BitVec 16)
    (payload : List (BitVec 8)) : Tx Nat := do
  kmalloc exhausted .ether ((14 + payload.length) % 2 ^ 64)
  let packet := ofFn macDst ++ ofFn netdev.macAddr ++ bytes16 (nativeToBe16 type) ++ payload
  does (.send netdev packet)
  does (.free .ether)
  return packet.length

/-- `struct arp_packet`, from this device -/
def arpPacket (netdev : Netdev) (opcode : BitVec 16) (dstHw : Mac) (dstProto : BitVec 32) :
    List (BitVec 8) :=
  -- `arp_htype_ethernet`, `arp_ptype_ipv4`
  bytes16 (nativeToBe16 1) ++ bytes16 (nativeToBe16 0x0800) ++ [6, 4] ++ bytes16
    (nativeToBe16 opcode) ++
    ofFn netdev.macAddr ++ bytes32 netdev.ipAddr ++ ofFn dstHw ++ bytes32 dstProto

def macBroadcast : Mac := fun _ => 0xff

/-- `arp_send_request`; `dst_hw` is what happens to be on the stack -/
def arpSendRequest (exhausted : TxSite → Bool) (netdev : Netdev) (dstHw : Mac)
    (address : BitVec 32) : Tx Nat :=
  etherTxPacket exhausted netdev macBroadcast 0x0806 (arpPacket netdev 1 dstHw address)

/-! ## IPv4 -/

def checksumLoop : BitVec 32 → List (BitVec 8) → BitVec 32
  | sum, hi :: lo :: rest =>
    let sum := sum + (hi ++ lo).setWidth 32
    checksumLoop (if 0xffff < sum then (sum >>> 16) + (sum &&& 0xffff) else sum) rest
  | sum, _ => sum

/-- `ip_checksum` -/
def ipChecksum (packet : List (BitVec 8)) : BitVec 16 := ~~~(checksumLoop 0 packet).setWidth 16

/-- `struct ipv4_packet`, for `len` bytes behind it -/
def ipv4Header (netdev : Netdev) (dstAddr : BitVec 32) (protocol : BitVec 8) (len : Nat)
    (checksum : BitVec 16) : List (BitVec 8) :=
  [0x45, 0] ++ bytes16 (nativeToBe16 (BitVec.ofNat 16 (20 + len))) ++ bytes16
    (nativeToBe16 netdev.ipTxId) ++
    bytes16 0 ++ [64, protocol] ++ bytes16 checksum ++ bytes32 netdev.ipAddr ++ bytes32 dstAddr

/-- The packet that `ipv4_tx_packet` makes. -/
def ipv4Packet (netdev : Netdev) (dstAddr : BitVec 32) (protocol : BitVec 8)
    (payload : List (BitVec 8)) : List (BitVec 8) :=
  let checksum := ipChecksum (ipv4Header netdev dstAddr protocol payload.length 0)
  ipv4Header netdev dstAddr protocol payload.length (nativeToBe16 checksum) ++ payload

/-- `dsthw` in `ipv4_tx_packet` -/
def dstHw (st : TxState) (netdev : Netdev) (route : BitVec 32) : Tx (Option Mac) :=
  if route = netdev.ipBroadcast then return some macBroadcast
  else
    match st.arpSearch route with
    | .entry mac => return some mac
    | .null => return none
    | .interrupted => .stop .badPointer

/-- `ipv4_tx_packet` -/
def ipv4TxPacket (st : TxState) (netdev : Netdev) (route dstAddr : BitVec 32) (protocol : BitVec 8)
    (payload : List (BitVec 8)) : Tx (Except Errno Nat) := do
  does .nextId
  kmalloc st.exhausted .ipv4 ((20 + payload.length) % 2 ^ 64)
  match ← dstHw st netdev route with
  | none => do
    does (.free .ipv4)
    return .error .enetunreach
  | some mac => do
    -- `ETHER_TYPE_IPV4`
    let res ← etherTxPacket st.exhausted netdev mac 0x0800
        (ipv4Packet netdev dstAddr protocol payload)
    does (.free .ipv4)
    return .ok res

/-! ## UDP -/

def ipRouteLoop (ip : BitVec 32) : List IpRouteEntry → BitVec 16 → Option IpRouteEntry →
    Option IpRouteEntry
  | [], _, best => best
  | cur :: routes, bestMetric, best =>
    if ip &&& cur.mask = cur.dest &&& cur.mask ∧ bestMetric < cur.metric then
      ipRouteLoop ip routes cur.metric (some cur)
    else ipRouteLoop ip routes bestMetric best

/-- `ip_route_get` -/
def ipRouteGet (st : TxState) (ip : BitVec 32) : Option IpRouteEntry :=
  ipRouteLoop ip st.routes 0 none

/-- The device and the next address on the way, as `udp_sendto` finds them.  For `INADDR_BROADCAST`
the device of the socket is followed, if there is one or not. -/
def sendRoute (st : TxState) (sdata : Ipv4Sdata) (addr : BitVec 32) :
    Tx (Option (Netdev × BitVec 32)) :=
  if addr = 0xffffffff then
    match sdata.bindDevice with
    | none => .stop .null
    | some netdev => return some (netdev, netdev.ipBroadcast)
  else return (ipRouteGet st addr).bind fun route => route.device.map fun netdev =>
    (netdev, route.gateway)

/-- The loop of `udp_get_ephemeral_port`. -/
def udpGetEphemeralPort (taken : BitVec 16 → Bool) : Nat → BitVec 16 → Except VfsFault (BitVec 16)
  | 0, _ => .error .endless
  | fuel + 1, next =>
    if taken (nativeToBe16 next) then udpGetEphemeralPort taken fuel (next + 1)
    else .ok (nativeToBe16 next)

/-- `priv_data->port`, after `udp_sendto` has looked for one if it was zero -/
def udpPort (st : TxState) (sdata : Ipv4Sdata) : Tx (BitVec 16) :=
  if sdata.port = 0 then
    match udpGetEphemeralPort st.taken (2 ^ 16) st.nextEphPort with
    | .error _ => .stop .endless
    | .ok port => return port
  else return sdata.port

/-- The packet that `udp_sendto` makes. -/
def udpPacket (srcPort dstPort : BitVec 16) (buf : List (BitVec 8)) : List (BitVec 8) :=
  bytes16 srcPort ++ bytes16 dstPort ++ bytes16 (nativeToBe16 (BitVec.ofNat 16 (8 + buf.length))) ++
    bytes16 0 ++ buf

/-- `udp_sendto` -/
def udpSendto (st : TxState) (sdata : Ipv4Sdata) (buf : List (BitVec 8)) (destAddr : SockaddrIn)
    (addrlen : Nat) : Tx (Except Errno Nat) :=
  if buf.length = 0 then return .ok 0
  else if addrlen < 16 then return .error .efault
  -- `AF_INET`
  else if destAddr.family ≠ 2 then return .error .einval
  else do
    let port ← udpPort st sdata
    if port = 0 then return .error .eaddrinuse
    else
      match ← sendRoute st sdata destAddr.addr with
      | none => return .error .enetunreach
      | some (netdev, route) => do
        kmalloc st.exhausted .udp ((8 + buf.length) % 2 ^ 64)
        -- `IPPROTO_UDP`
        let sent ← ipv4TxPacket st netdev route destAddr.addr 17 (udpPacket port destAddr.port buf)
        does (.free .udp)
        return sent

/-! ## What is sent -/

def udpFrame (netdev : Netdev) (mac : Mac) (srcPort : BitVec 16) (destAddr : SockaddrIn)
    (buf : List (BitVec 8)) :
    List (BitVec 8) :=
  ofFn mac ++ ofFn netdev.macAddr ++ bytes16 (nativeToBe16 0x0800) ++
    ipv4Packet netdev destAddr.addr 17 (udpPacket srcPort destAddr.port buf)

def arpFrame (netdev : Netdev) (macDst : Mac) (opcode : BitVec 16) (dstHw : Mac)
    (dstProto : BitVec 32) : List (BitVec 8) :=
  ofFn macDst ++ ofFn netdev.macAddr ++ bytes16 (nativeToBe16 0x0806) ++
    arpPacket netdev opcode dstHw dstProto

variable {e : TxEvent} {exhausted : TxSite → Bool} {payload buf : List (BitVec 8)}
  {route : BitVec 32}

section Sends

variable {st : TxState} {sdata : Ipv4Sdata} {netdev netdev' : Netdev} {frame : List (BitVec 8)}
  {site : TxSite} {size addrlen : Nat} {macDst : Mac} {type : BitVec 16} {dstAddr : BitVec 32}
  {protocol : BitVec 8} {destAddr : SockaddrIn}

@[simp] theorem mem_does {e' : TxEvent} : e ∈ (does e').events ↔ e = e' := mem_singleton

@[simp] theorem send_not_mem_kmalloc :
    .send netdev frame ∉ (kmalloc exhausted site size).events := by
  rw [kmalloc]
  split
  · exact not_mem_stop
  split
  · exact not_mem_stop
  · exact fun h => nomatch mem_does.1 h

theorem etherTxPacket_sends
    (h : .send netdev frame ∈ (etherTxPacket exhausted netdev' macDst type payload).events) :
    netdev = netdev' ∧
      frame = ofFn macDst ++ ofFn netdev.macAddr ++ bytes16 (nativeToBe16 type) ++ payload := by
  simp only [etherTxPacket, mem_bind, mem_does, send_not_mem_kmalloc, not_mem_pure, false_or,
    or_false, and_false, exists_false, reduceCtorEq, TxEvent.send.injEq] at h
  obtain ⟨-, -, rfl, rfl⟩ := h
  exact ⟨rfl, rfl⟩

theorem not_mem_dstHw : e ∉ (dstHw st netdev route).events := by
  rw [dstHw]
  split
  · exact not_mem_pure
  split
  · exact not_mem_pure
  · exact not_mem_pure
  · exact not_mem_stop

theorem ipv4TxPacket_sends
    (h : .send netdev frame ∈ (ipv4TxPacket st netdev' route dstAddr protocol payload).events) :
    netdev = netdev' ∧ ∃ mac : Mac, (dstHw st netdev route).result = .ok (some mac) ∧
      frame = ofFn mac ++ ofFn netdev.macAddr ++ bytes16 (nativeToBe16 0x0800) ++
        ipv4Packet netdev dstAddr protocol payload := by
  simp only [ipv4TxPacket, mem_bind, mem_does, send_not_mem_kmalloc, not_mem_dstHw, false_or,
    reduceCtorEq] at h
  obtain ⟨-, -, -, -, mac, hmac, h⟩ := h
  rcases mac with _ | mac
  · simp [mem_bind] at h
  simp only [mem_bind, mem_does, not_mem_pure, or_false, and_false, exists_false, reduceCtorEq] at h
  obtain ⟨rfl, hframe⟩ := etherTxPacket_sends h
  exact ⟨rfl, mac, hmac, hframe⟩

theorem not_mem_udpPort : e ∉ (udpPort st sdata).events := by
  rw [udpPort]
  split
  · split
    · exact not_mem_stop
    · exact not_mem_pure
  · exact not_mem_pure

theorem not_mem_sendRoute {addr : BitVec 32} : e ∉ (sendRoute st sdata addr).events := by
  rw [sendRoute]
  split
  · split
    · exact not_mem_stop
    · exact not_mem_pure
  · exact not_mem_pure

/-- **What `udp_sendto` sends**, if it sends something. -/
theorem udpSendto_sends
    (h : .send netdev frame ∈ (udpSendto st sdata buf destAddr addrlen).events) :
    ∃ port mac route, (udpPort st sdata).result = .ok port ∧
      (sendRoute st sdata destAddr.addr).result = .ok (some (netdev, route)) ∧
      (dstHw st netdev route).result = .ok (some mac) ∧
      frame = udpFrame netdev mac port destAddr buf := by
  rw [udpSendto] at h
  split at h
  · exact absurd h not_mem_pure
  split at h
  · exact absurd h not_mem_pure
  split at h
  · exact absurd h not_mem_pure
  rw [mem_bind, or_iff_right not_mem_udpPort] at h
  obtain ⟨port, hport, h⟩ := h
  split at h
  · exact absurd h not_mem_pure
  rw [mem_bind, or_iff_right not_mem_sendRoute] at h
  obtain ⟨next, hnext, h⟩ := h
  rcases next with _ | _
  · exact absurd h not_mem_pure
  simp only [mem_bind, mem_does, send_not_mem_kmalloc, not_mem_pure, false_or, or_false,
    and_false, exists_false, reduceCtorEq] at h
  obtain ⟨-, -, h⟩ := h
  obtain ⟨rfl, mac, hmac, hframe⟩ := ipv4TxPacket_sends h
  exact ⟨port, mac, _, hport, hnext, hmac, hframe⟩

theorem kmalloc_eq (hsize : size ≤ 1024) (hsite : exhausted site = false) :
    kmalloc exhausted site size = does (.alloc site size) := by
  rw [kmalloc]
  split
  · rename_i hnone
    exact absurd hsize (Nat.not_le.2 (kmCacheFor_eq_none.1 hnone))
  · simp [hsite]

theorem etherTxPacket_mem (hlen : payload.length ≤ 1010) (hmem : exhausted .ether = false) :
    .send netdev (ofFn macDst ++ ofFn netdev.macAddr ++ bytes16 (nativeToBe16 type) ++ payload) ∈
      (etherTxPacket exhausted netdev macDst type payload).events := by
  rw [etherTxPacket, kmalloc_eq (by omega) hmem]
  exact mem_cons_of_mem _ mem_cons_self

theorem ipv4Packet_length :
    (ipv4Packet netdev dstAddr protocol payload).length = 20 + payload.length := by
  simp [ipv4Packet, ipv4Header, bytes16, bytes32]
  omega

theorem udpPacket_length {srcPort dstPort : BitVec 16} :
    (udpPacket srcPort dstPort buf).length = 8 + buf.length := by
  simp [udpPacket, bytes16]
  omega

/-- **`udp_sendto` sends** if there is something to send, a way to go, and memory. -/
theorem udpSendto_mem {port : BitVec 16} {mac : Mac} (hbuf : buf.length ≠ 0)
    (hlen : buf.length ≤ 982) (haddrlen : 16 ≤ addrlen) (hfamily : destAddr.family = 2)
    (hport : (udpPort st sdata).result = .ok port) (hnonzero : port ≠ 0)
    (hroute : (sendRoute st sdata destAddr.addr).result = .ok (some (netdev, route)))
    (hmac : (dstHw st netdev route).result = .ok (some mac))
    (hmem : ∀ site, st.exhausted site = false) :
    .send netdev (udpFrame netdev mac port destAddr buf) ∈
    (udpSendto st sdata buf destAddr addrlen).events := by
  have hpacket := @udpPacket_length buf port destAddr.port
  have hsent : .send netdev (udpFrame netdev mac port destAddr buf) ∈
      (ipv4TxPacket st netdev route destAddr.addr 17
      (udpPacket port destAddr.port buf)).events := by
    rw [ipv4TxPacket, kmalloc_eq (by omega) (hmem _)]
    refine mem_bind.2 (.inr ⟨(), rfl, mem_bind.2 (.inr ⟨(), rfl, mem_bind.2 (.inr ⟨_, hmac, ?_⟩)⟩)⟩)
    refine mem_bind.2 (.inl (etherTxPacket_mem ?_ (hmem _)))
    rw [ipv4Packet_length]
    omega
  rw [udpSendto, if_neg hbuf, if_neg (Nat.not_lt.2 haddrlen), if_neg (not_not.2 hfamily)]
  refine mem_bind.2 (.inr ⟨port, hport, ?_⟩)
  rw [if_neg hnonzero]
  refine mem_bind.2 (.inr ⟨_, hroute, ?_⟩)
  rw [kmalloc_eq (by omega) (hmem _)]
  exact mem_bind.2 (.inr ⟨(), rfl, mem_bind.2 (.inl hsent)⟩)

end Sends

/-! ## What arrives -/

/-- A frame in the buffer of the machine that it arrives at.  It has been made as long as 60 bytes,
if it was shorter; `rest` is what is behind its end. -/
def received (rest : Nat → BitVec 8) (frame : List (BitVec 8)) : Frame where
  data i := frame.getD i (rest i)
  length := BitVec.ofNat 16 (max 60 frame.length)

section Fields

variable {f : Frame} {offset : Nat} {x : BitVec 16}

theorem append_bytes16 (x : BitVec 16) : x.extractLsb' 8 8 ++ x.extractLsb' 0 8 = x := by
  have happend : x.extractLsb' 8 8 ++ x.extractLsb' 0 8 = (x.extractLsb' 0 (8 + 8)).cast rfl :=
    BitVec.extractLsb'_append_extractLsb'_eq_extractLsb' rfl
  rw [happend, BitVec.cast_eq, BitVec.extractLsb'_eq_self]

theorem append_bytes32 (x : BitVec 32) : x.extractLsb' 16 16 ++ x.extractLsb' 0 16 = x := by
  have happend : x.extractLsb' 16 16 ++ x.extractLsb' 0 16 = (x.extractLsb' 0 (16 + 16)).cast rfl :=
    BitVec.extractLsb'_append_extractLsb'_eq_extractLsb' rfl
  rw [happend, BitVec.cast_eq, BitVec.extractLsb'_eq_self]

theorem le16_eq (h : [f.data offset, f.data (offset + 1)] = bytes16 x) : f.le16 offset = x := by
  obtain ⟨h0, h1, -⟩ := cons_eq_cons.1 h |>.imp_right cons_eq_cons.1
  rw [Frame.le16, h0, h1, append_bytes16]

theorem be16_eq (h : [f.data offset, f.data (offset + 1)] = bytes16 (nativeToBe16 x)) :
    f.be16 offset = x := by
  obtain ⟨h0, h1, -⟩ := cons_eq_cons.1 h |>.imp_right cons_eq_cons.1
  rw [Frame.be16, h0, h1, nativeToBe16, BitVec.extractLsb'_append_eq_right,
    BitVec.extractLsb'_append_eq_left, append_bytes16]

theorem le32_eq {x : BitVec 32}
    (h : [f.data offset, f.data (offset + 1), f.data (offset + 2), f.data (offset + 3)] =
    bytes32 x) : f.le32 offset = x := by
  have happend : [f.data offset, f.data (offset + 1)] ++ [f.data (offset + 2),
      f.data (offset + 3)] = bytes16 (x.extractLsb' 0 16) ++ bytes16 (x.extractLsb' 16 16) := h
  obtain ⟨hlow, hhigh⟩ := append_inj happend rfl
  rw [Frame.le32, le16_eq hlow, le16_eq hhigh, append_bytes32]

end Fields

section Received

variable {rest : Nat → BitVec 8} {netdev : Netdev} {mac : Mac} {srcPort : BitVec 16}
  {destAddr : SockaddrIn} {buf : List (BitVec 8)}

theorem udpFrame_length : (udpFrame netdev mac srcPort destAddr buf).length = 42 + buf.length := by
  simp only [udpFrame, length_append, length_ofFn, bytes16, length_cons, length_nil,
    ipv4Packet_length, udpPacket_length]
  omega

theorem udpFrame_eq (netdev : Netdev) (mac : Mac) (srcPort : BitVec 16) (destAddr : SockaddrIn)
    (buf : List (BitVec 8)) :
    ∃ header : List (BitVec 8), header.length = 42 ∧ udpFrame netdev mac srcPort destAddr buf =
    header ++ buf := by
  refine ⟨(udpFrame netdev mac srcPort destAddr buf).take 42, ?_, ?_⟩
  · rw [length_take, udpFrame_length]
    omega
  · exact (take_append_drop 42 _).symm

theorem udpFrame_fields (rest : Nat → BitVec 8) (netdev : Netdev) (mac : Mac) (srcPort : BitVec 16)
    (destAddr : SockaddrIn) (buf : List (BitVec 8)) :
    let f := received rest (udpFrame netdev mac srcPort destAddr buf)
    f.be16 12 = 0x0800 ∧ f.data 23 = 17 ∧ f.le32 26 = netdev.ipAddr ∧ f.le32 30 = destAddr.addr ∧
      f.le16 34 = srcPort ∧ f.le16 36 = destAddr.port :=
  ⟨be16_eq rfl, rfl, le32_eq rfl, le32_eq rfl, le16_eq rfl, le16_eq rfl⟩

end Received

end Monolith.Net
