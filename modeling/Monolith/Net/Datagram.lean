import Monolith.Net.Transmit

/-!
# A datagram from one machine to another

The frame that `udp_sendto` makes on one machine is given to `ether_rx_packet` on another.
`udp_rx_packet` does not look at the length in the UDP header: it takes what is left of the length
of the frame.

* `receive_udpFrame`: what is put on the queue of the socket is the payload and the bytes that the
  frame has been made longer by, with the port and the address of the sender.
* `sent_datagram_received`: it is the payload alone exactly if there are at least 18 bytes of it and
  there is room for it.
* `short_datagram_lengthened` is a payload of one byte.
-/

namespace Monolith.Net

open Mm List Option
open Traced (Yields Safe)

/-! ## What is put on the queue -/

/-- An entry of `recv_queue`: its bytes, and the port and the address in `source`. -/
structure Datagram where
  payload : List (BitVec 8)
  port : BitVec 16
  addr : BitVec 32
  deriving DecidableEq, Repr

namespace Frame

/-- `count` bytes from `offset` on -/
def bytes (f : Frame) (offset count : Nat) : List (BitVec 8) := (range' offset count).map f.data

/-- What the socket with the port gets. -/
def datagram (f : Frame) : RxEvent → Option Datagram
  | .deliver .udp port addr offset count => some ⟨f.bytes offset count, port, addr⟩
  | _ => none

end Frame

/-- What `udp_rx_packet` puts on the queue of the socket, while the machine receives a frame. -/
def datagrams (s : NetState) (f : Frame) : List Datagram :=
  (etherRxPacket s f).events.filterMap f.datagram

/-- A socket is bound to the destination: to its address, or to none. -/
def Bound (s : NetState) (dest : SockaddrIn) : Prop :=
  ∃ addr, (addr = dest.addr ∨ addr = 0) ∧
    ∃ socket ∈ s.udpTable (ipPortHashf addr dest.port), socket.addr = addr ∧ socket.port = dest.port

/-- There is room for a datagram of `count` bytes at the sockets it is for.  `kmalloc` has blocks of
1024 bytes, of which `struct recv_queue_entry` takes 48; a raw socket gets the UDP header too. -/
structure Receivable (s : NetState) (dest : SockaddrIn) (count : Nat) : Prop where
  udp : ∀ socket, udpSocketFor s dest.addr dest.port = some socket → count ≤ 976 ∧
    DeliverFits s .udp socket.waiting
  raw : ∀ i cur, s.socketList[i]? = some cur → cur.protocol = 17 → count ≤ 968 ∧
    DeliverFits s (.raw i) cur.waiting

variable {waiting : List TaskStatus} {port : BitVec 16} {addr : BitVec 32} {length : Nat}

section Receive

variable {s : NetState} {f : Frame} {dest : SockaddrIn} {offset len : Nat}

/-- The table has a socket for every datagram to a destination that one is bound to. -/
theorem Bound.socketFor (h : Bound s dest) :
    ∃ socket, udpSocketFor s dest.addr dest.port = some socket := by
  obtain ⟨addr, haddr, socket, hmem, hsocket⟩ := h
  have hfound : (udpTableGet s addr dest.port).isSome = true := by
    rw [udpTableGet, find?_isSome]
    exact ⟨socket, hmem, by rw [hsocket.1, hsocket.2, beq_self_eq_true, beq_self_eq_true,
      Bool.and_self]⟩
  rw [udpSocketFor]
  rcases haddr with rfl | rfl
  · obtain ⟨found, hget⟩ := isSome_iff_exists.1 hfound
    exact ⟨found, by rw [hget]⟩
  · cases udpTableGet s dest.addr dest.port with
    | some found => exact ⟨found, rfl⟩
    | none => exact isSome_iff_exists.1 hfound

theorem allocate_eq {site : AllocSite} {size : Nat} (hsize : size ≤ 1024)
    (hsite : s.exhausted site = false) : allocate s site size = pure () := by
  rw [allocate]
  split
  · rename_i hnone
    exact absurd hsize (Nat.not_le.2 (kmCacheFor_eq_none.1 hnone))
  · simp [hsite]

theorem waitQueueWake_eq (h : Asleep waiting) : waitQueueWake waiting = pure () := by
  induction waiting with
  | nil => rfl
  | cons st waiting ih =>
    rw [waitQueueWake, if_pos (h st mem_cons_self)]
    exact ih fun st hst => h st (mem_cons_of_mem _ hst)

theorem subSize_yields {a b : Nat} (hb : b ≤ a) (ha : a < 2 ^ 64) :
    Yields f.datagram (subSize a b) (a - b) [] := by
  have hvalue : (a + 2 ^ 64 - b) % 2 ^ 64 = a - b := by omega
  rw [subSize, hvalue]
  exact .unseen rfl

theorem memcmp_yields (offset : Nat) (bs : List (BitVec 8)) :
    Yields f.datagram (memcmp f offset bs) (f.matches offset bs) [] := by
  refine ⟨memcmp_result offset bs, ?_⟩
  induction bs generalizing offset with
  | nil => rfl
  | cons b bs ih =>
    rw [memcmp, Traced.bind_ok rfl]
    split
    · exact ih (offset + 1)
    · rfl

theorem etherIsOurs_yields : Yields f.datagram (etherIsOurs s f) (f.ours s) [] := by
  refine (memcmp_yields 0 _).after ?_
  rw [Frame.ours]
  cases f.matches 0 (ofFn s.macAddr) with
  | true => exact .pure
  | false => exact memcmp_yields 0 _

theorem socketRxPacket_raw {i : Nat} (hlen : len ≤ 976) (h : DeliverFits s (.raw i) waiting) :
    Yields f.datagram (socketRxPacket s (.raw i) waiting port addr offset len) () [] := by
  have hsize : (48 + len) % 2 ^ 64 ≤ 1024 := by omega
  rw [socketRxPacket, allocate_eq hsize h.1, waitQueueWake_eq h.2]
  exact Yields.pure.after ((Yields.unseen rfl).after ((Yields.unseen rfl).after .pure))

theorem socketRxPacket_udp (hlen : len ≤ 976) (h : DeliverFits s .udp waiting) :
    Yields f.datagram (socketRxPacket s .udp waiting port addr offset len) ()
    [⟨f.bytes offset len, port, addr⟩] := by
  have hsize : (48 + len) % 2 ^ 64 ≤ 1024 := by omega
  have hseen : Yields f.datagram (emit (.deliver .udp port addr offset len)) ()
      [⟨f.bytes offset len, port, addr⟩] :=
    .seen rfl
  rw [socketRxPacket, allocate_eq hsize h.1, waitQueueWake_eq h.2]
  exact Yields.pure.after ((Yields.unseen rfl).after (hseen.bind .pure))

/-- The raw sockets get the packet, and no datagram is put on the queue of the other socket. -/
theorem rawLoop_yields (hlow : 20 ≤ length) (sockets : List RawSocket) (found : Bool) (i : Nat)
    (h : ∀ k cur, sockets[k]? = some cur → cur.protocol = f.data 23 → length - 20 ≤ 976 ∧
      DeliverFits s (.raw (i + k)) cur.waiting) :
    ∃ found', Yields f.datagram (rawLoop s f port addr length i sockets found) found' [] := by
  induction sockets generalizing i found with
  | nil => exact ⟨found, .pure⟩
  | cons cur rest ih =>
    have hrest : ∀ k cur, rest[k]? = some cur → cur.protocol = f.data 23 →
        length - 20 ≤ 976 ∧ DeliverFits s (.raw (i + 1 + k)) cur.waiting := by
      intro k cur hcur hprotocol
      rw [add_assoc, add_comm 1]
      exact h (k + 1) cur hcur hprotocol
    by_cases hcur : cur.protocol = f.data 23
    · obtain ⟨found', hloop⟩ := ih true (i + 1) hrest
      obtain ⟨hlen, hfits⟩ := h 0 cur rfl hcur
      refine ⟨found', (Yields.unseen rfl).after ?_⟩
      rw [if_pos hcur]
      exact (subSize_yields hlow (by omega)).after ((socketRxPacket_raw hlen hfits).after hloop)
    · obtain ⟨found', hloop⟩ := ih found (i + 1) hrest
      refine ⟨found', (Yields.unseen rfl).after ?_⟩
      rwa [if_neg hcur]

theorem ipv4RawRxPacket_yields (hlow : 20 ≤ length)
    (h : ∀ i cur, s.socketList[i]? = some cur → cur.protocol = f.data 23 → length - 20 ≤ 976 ∧
      DeliverFits s (.raw (0 + i)) cur.waiting) : ∃ found, Yields f.datagram
      (ipv4RawRxPacket s f length) found [] :=
  (rawLoop_yields hlow s.socketList false 0 h).imp fun _ hloop =>
    (Yields.unseen rfl).after ((Yields.unseen rfl).after hloop)

/-- **`udp_rx_packet`** puts what is behind the headers on the queue of the socket. -/
theorem udpRxPacket_yields {socket : UdpSocket} (hlow : 28 ≤ length) (hhigh : length - 28 ≤ 976)
    (hsocket : udpSocketFor s (f.le32 30) (f.le16 36) = some socket)
    (h : DeliverFits s .udp socket.waiting) : Yields f.datagram (udpRxPacket s f length) ()
    [⟨f.bytes 42 (length - 28), f.le16 34, f.le32 26⟩] := by
  rw [udpRxPacket, if_neg (Nat.not_lt.2 hlow)]
  refine (Yields.unseen rfl).after ((Yields.unseen rfl).after ?_)
  rw [hsocket]
  refine (Yields.unseen rfl).after ((Yields.unseen rfl).after ?_)
  refine (subSize_yields (by omega) (by omega)).after
    ((subSize_yields (by omega) (by omega)).after ?_)
  exact socketRxPacket_udp hhigh h

/-- **A frame with a datagram** for this machine, for a socket that is there, and where there is
room. -/
theorem etherRxPacket_yields (hours : f.ours s = true) (htype : f.be16 12 = 0x0800)
    (hprotocol : f.data 23 = 17) (haddr : f.le32 30 = dest.addr) (hport : f.le16 36 = dest.port)
    (hlength : 42 ≤ f.length.toNat) (hbound : Bound s dest)
    (h : Receivable s dest (f.length.toNat - 42)) : Yields f.datagram (etherRxPacket s f) ()
    [⟨f.bytes 42 (f.length.toNat - 42), f.le16 34, f.le32 26⟩] := by
  obtain ⟨socket, hsocket⟩ := hbound.socketFor
  obtain ⟨hcount, hfits⟩ := h.udp socket hsocket
  have hudp := @udpRxPacket_yields (f.length.toNat - 14) s f socket (by omega) (by omega)
    (by rw [haddr, hport]; exact hsocket) hfits
  have hraw : ∀ i cur, s.socketList[i]? = some cur → cur.protocol = f.data 23 →
      f.length.toNat - 14 - 20 ≤ 976 ∧ DeliverFits s (.raw (0 + i)) cur.waiting := by
    intro i cur hcur hprotocol'
    obtain ⟨hlen, hfits⟩ := h.raw i cur hcur (hprotocol'.trans hprotocol)
    rw [zero_add]
    exact ⟨by omega, hfits⟩
  obtain ⟨found, hfound⟩ := ipv4RawRxPacket_yields (by omega) hraw
  have hother : ¬f.be16 12 = 0x0806 := by
    rw [htype]
    decide
  refine etherIsOurs_yields.after ?_
  rw [hours]
  refine (Yields.unseen rfl).after ?_
  rw [if_neg hother, if_pos htype]
  refine (subSize_yields (by omega) (by omega)).after (hfound.after ((Yields.unseen rfl).after ?_))
  rwa [if_pos hprotocol]

end Receive

/-! ## From one machine to the other -/

section Sent

variable {s : NetState} {rest : Nat → BitVec 8} {netdev : Netdev} {mac : Mac} {srcPort : BitVec 16}
  {destAddr : SockaddrIn} {buf : List (BitVec 8)}

theorem bytes_received (header : List (BitVec 8)) (n : Nat) :
    (received rest (header ++ buf)).bytes header.length (buf.length + n) =
      buf ++ (range' (header.length + buf.length) n).map rest := by
  rw [Frame.bytes, ← range'_append_1, map_append]
  congr 1
  · refine ext_getElem (by simp) fun i hi hi' => ?_
    simp [received, hi']
  refine map_congr_left fun i hi => ?_
  have hle := (mem_range'_1.1 hi).1
  have hnone : (header ++ buf)[i]? = none := by rwa [getElem?_eq_none_iff, length_append]
  change (header ++ buf).getD i (rest i) = rest i
  rw [getD_eq_getElem?_getD, hnone, getD_none]

/-- **The datagram that arrives** is the payload, and what the frame has been made longer by. -/
theorem receive_udpFrame {f : Frame}
    (hf : f = received rest (udpFrame netdev mac srcPort destAddr buf)) (hours : f.ours s = true)
    (hbound : Bound s destAddr) (h : Receivable s destAddr (max 18 buf.length)) :
    Yields f.datagram (etherRxPacket s f) ()
      [⟨buf ++ (range' (42 + buf.length) (18 - buf.length)).map rest, srcPort, netdev.ipAddr⟩] := by
  obtain ⟨htype, hprotocol, hsrc, hdst, hsrcPort, hdstPort⟩ :=
    udpFrame_fields rest netdev mac srcPort destAddr buf
  obtain ⟨socket, hsocket⟩ := hbound.socketFor
  have hcount := (h.udp socket hsocket).1
  have hlength : f.length.toNat - 42 = max 18 buf.length := by
    rw [hf, received, udpFrame_length, BitVec.toNat_ofNat]
    omega
  have hbytes : f.bytes 42 (max 18 buf.length) =
      buf ++ (range' (42 + buf.length) (18 - buf.length)).map rest := by
    obtain ⟨header, hheader, hframe⟩ := udpFrame_eq netdev mac srcPort destAddr buf
    have hmax : max 18 buf.length = buf.length + (18 - buf.length) := by omega
    rw [hf, hframe, hmax, ← hheader]
    exact bytes_received header _
  rw [← hf] at htype hprotocol hsrc hdst hsrcPort hdstPort
  rw [← hlength] at h hbytes
  have hyields := etherRxPacket_yields hours htype hprotocol hdst hdstPort (by omega) hbound h
  rwa [hbytes, hsrcPort, hsrc] at hyields

theorem length_received_udpFrame (hlen : 42 + buf.length < 2 ^ 16) :
    (received rest (udpFrame netdev mac srcPort destAddr buf)).length.toNat =
    42 + max 18 buf.length := by
  rw [received, udpFrame_length, BitVec.toNat_ofNat]
  omega

/-- The frame fits where there is room for the datagram, with what the frame has been made longer
by. -/
theorem rxFits_udpFrame {f : Frame}
    (hf : f = received rest (udpFrame netdev mac srcPort destAddr buf)) (hours : f.ours s = true)
    (hlen : 42 + buf.length < 2 ^ 16) :
    RxFits s f ↔ Receivable s destAddr (max 18 buf.length) := by
  obtain ⟨htype, hprotocol, -, hdst, -, hdstPort⟩ :=
    udpFrame_fields rest netdev mac srcPort destAddr buf
  have hlength := @length_received_udpFrame rest netdev mac srcPort destAddr buf hlen
  rw [← hf] at htype hprotocol hdst hdstPort hlength
  have hother : ¬f.be16 12 = 0x0806 := by
    rw [htype]
    decide
  rw [RxFits, if_pos hours, Ipv4Fits, hprotocol, hdst, hdstPort]
  constructor
  · rintro ⟨-, -, hfits⟩
    obtain ⟨-, hraw, hudp⟩ := hfits htype
    refine ⟨fun socket hsocket => ?_, fun i cur hcur hcurProtocol => ?_⟩
    · obtain ⟨hmax, hdeliver⟩ := hudp rfl (by omega) socket hsocket
      exact ⟨by omega, hdeliver⟩
    · obtain ⟨-, hmax, hdeliver⟩ := hraw i cur hcur hcurProtocol
      exact ⟨by omega, hdeliver⟩
  · rintro ⟨hudp, hraw⟩
    refine ⟨by omega, fun harp => absurd harp hother, fun _ =>
      ⟨by omega, fun i cur hcur hcurProtocol => ?_, fun _ _ socket hsocket => ?_⟩⟩
    · obtain ⟨hmax, hdeliver⟩ := hraw i cur hcur hcurProtocol
      exact ⟨by omega, by omega, hdeliver⟩
    · obtain ⟨hmax, hdeliver⟩ := hudp socket hsocket
      exact ⟨by omega, hdeliver⟩

/-- **A datagram that is sent is received.** The frame that `udp_sendto` gives to its device is
given to `ether_rx_packet` on a machine that it is for and that has a socket bound to the
destination.  Exactly if there are at least 18 bytes in the datagram, and there is room for them at
the sockets that it is for, the call returns and reads nothing but the frame, and the one entry that
`udp_rx_packet` puts on a queue has the payload, and the port and the address of the sender. -/
theorem sent_datagram_received (st : TxState) (sdata : Ipv4Sdata) (buf : List (BitVec 8))
    (destAddr : SockaddrIn) (addrlen : Nat) (netdev : Netdev) (frame : List (BitVec 8))
    (hsent : .send netdev frame ∈ (udpSendto st sdata buf destAddr addrlen).events)
    (s : NetState) (rest : Nat → BitVec 8) (hours : (received rest frame).ours s = true)
    (hbound : Bound s destAddr) (hlen : 42 + buf.length < 2 ^ 16) :
    (∃ port, (udpPort st sdata).result = .ok port ∧
      Safe (received rest frame).Within (etherRxPacket s (received rest frame)) ∧
      datagrams s (received rest frame) = [⟨buf, port, netdev.ipAddr⟩]) ↔
    18 ≤ buf.length ∧ Receivable s destAddr buf.length := by
  obtain ⟨port, mac, -, hport, -, -, rfl⟩ := udpSendto_sends hsent
  have hfits := rxFits_udpFrame rfl hours hlen
  constructor
  · rintro ⟨port', -, hsafe, hpayload⟩
    have hroom := hfits.1 ((etherRxPacket_safe s _).1 hsafe)
    have hqueued := hpayload.symm.trans (receive_udpFrame rfl hours hbound hroom).2
    -- nothing has been put behind the payload
    have hlong : 18 ≤ buf.length := by
      rw [cons.injEq, Datagram.mk.injEq, self_eq_append_right, map_eq_nil_iff,
        range'_eq_nil_iff] at hqueued
      omega
    rw [Nat.max_eq_right hlong] at hroom
    exact ⟨hlong, hroom⟩
  · rintro ⟨hlong, hroom⟩
    rw [← Nat.max_eq_right hlong] at hroom
    have hdatagrams := (receive_udpFrame rfl hours hbound hroom).2
    rw [Nat.sub_eq_zero_of_le hlong, range'_zero, map_nil, append_nil] at hdatagrams
    exact ⟨port, hport, (etherRxPacket_safe s _).2 (hfits.2 hroom), hdatagrams⟩

end Sent

/-! ## Two machines -/

/-- A machine that sends to the other one. -/
def sender :
    Netdev :=
  { macAddr := fun _ => 2, ipAddr := 0x0100000a, ipBroadcast := 0xff00000a, ipTxId := 0 }

/-- It is on the same network as the other one, and knows its address. -/
def senderState : TxState :=
  { routes := [⟨some sender, 0x0000000a, 0x0200000a, 0x00ffffff, 1000⟩]
    nextEphPort := 49152
    taken := fun _ => false
    arpSearch := fun _ => .entry fun _ => 4
    exhausted := fun _ => false }

/-- The other machine has a socket for the port. -/
def receiver : NetState :=
  { macAddr := fun _ => 4
    ipAddr := 0x0200000a
    arpTable := fun _ => []
    arpWaittable := fun _ => []
    socketList := []
    udpTable := fun _ => [⟨0, 0x3500, []⟩]
    exhausted := fun _ => false }

/-- Where the datagrams go. -/
def destination : SockaddrIn := { family := 2, port := 0x3500, addr := 0x0200000a }

theorem receiver_bound : Bound receiver destination :=
  ⟨0, .inr rfl, _, mem_singleton_self _, rfl, rfl⟩

theorem receiver_receivable {count : Nat} (h : count ≤ 976) :
    Receivable receiver destination count where
  udp socket hsocket := by
    cases hsocket
    exact ⟨h, rfl, nofun⟩
  raw _ _ hcur := nomatch hcur

theorem sender_sends {buf : List (BitVec 8)} (hbuf : buf.length ≠ 0) (hlen : buf.length ≤ 982) :
    .send sender (udpFrame sender (fun _ => 4) 0x4444 destination buf) ∈
      (udpSendto senderState ⟨none, 0x4444⟩ buf destination 16).events :=
  udpSendto_mem hbuf hlen (Nat.le_refl 16) rfl rfl (by decide) rfl rfl fun _ => rfl

/-- A datagram of 20 bytes. -/
theorem sent_datagram_received_long :
    let frame := received (fun _ => 0)
      (udpFrame sender (fun _ => 4) 0x4444 destination (replicate 20 7))
    ∃ port, (udpPort senderState ⟨none, 0x4444⟩).result = .ok port ∧
      Safe frame.Within (etherRxPacket receiver frame) ∧
      datagrams receiver frame = [⟨replicate 20 7, port, 0x0100000a⟩] :=
  (sent_datagram_received senderState ⟨none, 0x4444⟩ (replicate 20 7) destination 16 sender _
    (sender_sends (by decide) (by decide)) receiver (fun _ => 0) (by decide) receiver_bound
    (by decide)).2
      ⟨by decide, receiver_receivable (by decide)⟩

/-- A datagram of one byte arrives as eighteen. -/
theorem short_datagram_lengthened :
    ∃ frame, .send sender frame ∈ (udpSendto senderState ⟨none, 0x4444⟩ [7] destination 16).events ∧
      (received (fun _ => 0) frame).ours receiver = true ∧ Bound receiver destination ∧
      Receivable receiver destination 18 ∧
      datagrams receiver (received (fun _ => 0) frame) =
      [⟨7 :: replicate 17 0, 0x4444, 0x0100000a⟩] := by
  refine ⟨_, sender_sends (by decide) (by decide),
    by decide, receiver_bound, receiver_receivable (by decide), ?_⟩
  exact (receive_udpFrame rfl (by decide) receiver_bound (receiver_receivable (by decide))).2

end Monolith.Net
