import Monolith.Net.Transmit

/-!
# `net/ipv4`: routes and checksums

* `route_selected`: `ip_route_get` takes the largest metric, and no route if the largest is 0
  (`route_without_metric`).
* `header_verifies`: with its checksum a header adds up to `0xffff`.  `icmp_checksum` of `ping`
  folds the carry once and not at every step, and is the same unless that leaves another carry
  (`icmpChecksum_eq`).
* `resolution_fails`: `ipv4_tx_packet` frees its packet, and fails without a frame if there is no
  entry, unless the search is interrupted (`resolution_interrupted`).
-/

namespace Monolith.Net

open List Traced

open BitVec (le_of_lt not_lt toNat_add toNat_setWidth toNat_not eq_of_toNat_eq)

/-! ## Routes -/

variable {st : TxState} {ip : BitVec 32}

abbrev IpRouteEntry.Matches (ip : BitVec 32) (r : IpRouteEntry) : Prop :=
  ip &&& r.mask = r.dest &&& r.mask

/-- The loop comes back with what it began with, or with the largest metric above that. -/
theorem ipRouteLoop_cases (routes : List IpRouteEntry) (m : BitVec 16)
    (best : Option IpRouteEntry) :
    (ipRouteLoop ip routes m best = best ∧ ∀ r ∈ routes, r.Matches ip → r.metric ≤ m) ∨
      ∃ b ∈ routes, ipRouteLoop ip routes m best = some b ∧ b.Matches ip ∧ m < b.metric ∧
        ∀ r ∈ routes, r.Matches ip → r.metric ≤ b.metric := by
  induction routes generalizing m best with
  | nil => exact .inl ⟨rfl, nofun⟩
  | cons cur routes ih =>
    simp only [ipRouteLoop, forall_mem_cons, exists_mem_cons_iff]
    split_ifs with hcur
    · right
      rcases ih cur.metric (some cur) with ⟨heq, hle⟩ | ⟨b, hb, heq, hmatch, hlt, hle⟩
      · exact .inl ⟨heq, hcur.1, hcur.2, fun _ => BitVec.le_refl _, hle⟩
      · exact .inr ⟨b, hb, heq, hmatch, BitVec.lt_trans hcur.2 hlt, fun _ => le_of_lt hlt, hle⟩
    · have hsmall : cur.Matches ip → cur.metric ≤ m := fun h => not_lt.1 fun hlt => hcur ⟨h, hlt⟩
      rcases ih m best with ⟨heq, hle⟩ | ⟨b, hb, heq, hmatch, hlt, hle⟩
      · exact .inl ⟨heq, hsmall, hle⟩
      · exact .inr (.inr ⟨b, hb, heq, hmatch, hlt, fun h => BitVec.le_trans (hsmall h)
          (le_of_lt hlt), hle⟩)

/-- **The route with the largest metric** is found, for every order of the table, if and only if one
of those that match has a metric, or none matches. -/
theorem route_selected :
    ((ipRouteGet st ip = none ↔ ∀ r ∈ st.routes, ¬r.Matches ip) ∧
      (∀ b, ipRouteGet st ip = some b →
        b ∈ st.routes ∧ b.Matches ip ∧ ∀ r ∈ st.routes, r.Matches ip → r.metric ≤ b.metric) ∧
      ∀ routes, routes.Perm st.routes →
        (ipRouteGet { st with routes := routes } ip).map (·.metric) =
          (ipRouteGet st ip).map (·.metric)) ↔
    ∀ r ∈ st.routes, r.Matches ip → ∃ r' ∈ st.routes, r'.Matches ip ∧ r'.metric ≠ 0 := by
  have hget := @ipRouteLoop_cases ip st.routes 0 none
  refine ⟨fun ⟨hnone, _⟩ r hr hmatch => ?_, fun h =>
    ⟨⟨fun hnone r hr hmatch => ?_, fun hno => ?_⟩, fun b hb => ?_, fun routes hperm => ?_⟩⟩
  · rcases hget with ⟨heq, -⟩ | ⟨b, hb, -, hmatch', hlt, -⟩
    · exact absurd hmatch (hnone.1 heq r hr)
    · exact ⟨b, hb, hmatch', fun hzero => absurd hlt (hzero ▸ BitVec.lt_irrefl 0)⟩
  · obtain ⟨r', hr', hmatch', hne⟩ := h r hr hmatch
    rcases hget with ⟨-, hle⟩ | ⟨b, -, heq, -⟩
    · exact hne (BitVec.le_zero_iff.1 (hle r' hr' hmatch'))
    · cases heq.symm.trans hnone
  · rcases hget with ⟨heq, -⟩ | ⟨b, hb, -, hmatch, -⟩
    · exact heq
    · exact absurd hmatch (hno b hb)
  · rcases hget with ⟨heq, -⟩ | ⟨b', hb', heq, hmatch, -, hle⟩
    · cases heq.symm.trans hb
    · obtain rfl := Option.some.inj (heq.symm.trans hb)
      exact ⟨hb', hmatch, hle⟩
  · -- the largest metric is the same for both
    have hget' := @ipRouteLoop_cases ip routes 0 none
    simp only [hperm.mem_iff] at hget'
    simp only [ipRouteGet]
    rcases hget with ⟨heq, hle⟩ | ⟨b, hb, heq, hmatch, hlt, hle⟩ <;>
      rcases hget' with ⟨heq', hle'⟩ | ⟨b', hb', heq', hmatch', hlt', hle'⟩ <;> rw [heq, heq']
    · exact absurd hlt' (not_lt.2 (hle b' hb' hmatch'))
    · exact absurd hlt (not_lt.2 (hle' b hb hmatch))
    · exact congrArg some (BitVec.le_antisymm (hle b' hb' hmatch') (hle' b hb hmatch))

/-- A machine with these routes, and nothing else. -/
def routed (routes : List IpRouteEntry) : TxState :=
  ⟨routes, 0, fun _ => false, fun _ => .null, fun _ => false⟩

/-- Two routes to everywhere, and the second is the better one. -/
def twoRoutes : TxState := routed [⟨none, 0, 1, 0, 100⟩, ⟨none, 0, 2, 0, 1000⟩]

theorem route_selected_second : (ipRouteGet twoRoutes 5).map (·.metric) = some 1000 ∧
    ∀ r ∈ twoRoutes.routes, r.Matches 5 → r.metric ≤ 1000 :=
  ⟨rfl, (((@route_selected twoRoutes 5).2 (by decide)).2.1 _ rfl).2.2⟩

/-- **A route with metric 0** is not found, although it is the only one and matches. -/
theorem route_without_metric : ipRouteGet (routed [⟨none, 0, 1, 0, 0⟩]) 5 = none := rfl

/-! ## Checksums -/

section Checksum

variable {sum : BitVec 32} {bytes : List (BitVec 8)}

/-- The sum of the words, as a number. -/
def wordSum : List (BitVec 8) → Nat
  | hi :: lo :: rest => (hi ++ lo).toNat + wordSum rest
  | _ => 0

theorem fold_toNat :
    ((sum >>> 16) + (sum &&& 0xffff)).toNat = sum.toNat / 65536 + sum.toNat % 65536 := by
  have hand : (sum &&& 0xffff).toNat = sum.toNat % 65536 :=
    (BitVec.toNat_and ..).trans (Nat.and_two_pow_sub_one_eq_mod sum.toNat 16)
  rw [toNat_add, BitVec.toNat_ushiftRight, Nat.shiftRight_eq_div_pow, hand]
  omega

/-- With the carry added at every step the sum stays a word, and it is 0 only if it was never
anything else. -/
theorem checksumLoop_spec (hsum : sum.toNat ≤ 0xffff) : (checksumLoop sum bytes).toNat ≤ 0xffff ∧
    (checksumLoop sum bytes).toNat % 0xffff = (sum.toNat + wordSum bytes) % 0xffff ∧
      ((checksumLoop sum bytes).toNat = 0 ↔ sum.toNat + wordSum bytes = 0) := by
  fun_induction checksumLoop sum bytes with
  | case1 sum hi lo rest sum' ih =>
    have hword := (hi ++ lo).isLt
    have hadd : sum'.toNat = sum.toNat + (hi ++ lo).toNat := by
      rw [toNat_add, toNat_setWidth]
      omega
    rw [wordSum]
    by_cases hcarry : 0xffff < sum'
    · have hfold := @fold_toNat sum'
      have hlt : 65535 < sum'.toNat := hcarry
      rw [if_pos hcarry] at ih ⊢
      have := ih (by omega)
      omega
    · have hle : ¬65535 < sum'.toNat := hcarry
      rw [if_neg hcarry] at ih ⊢
      have := ih (by omega)
      omega
  | case2 bytes sum hshort =>
    have hzero : wordSum bytes = 0 := by rwa [wordSum]
    omega

theorem ipChecksum_toNat : (ipChecksum bytes).toNat = 0xffff - (checksumLoop 0 bytes).toNat := by
  have hle := (@checksumLoop_spec 0 bytes (by decide)).1
  rw [ipChecksum, toNat_not, toNat_setWidth]
  omega

theorem word_be16 (x : BitVec 16) :
    (nativeToBe16 x).extractLsb' 0 8 ++ (nativeToBe16 x).extractLsb' 8 8 = x :=
  nativeToBe16_involutive x

theorem wordSum_ipv4Header {netdev : Netdev} {dst : BitVec 32} {protocol : BitVec 8} {len : Nat}
    {checksum : BitVec 16} : wordSum (ipv4Header netdev dst protocol len (nativeToBe16 checksum)) =
      wordSum (ipv4Header netdev dst protocol len 0) + checksum.toNat := by
  simp [ipv4Header, bytes16, bytes32, wordSum, word_be16]
  omega

/-- Bytes with their checksum among them add up to `0xffff`, whatever the order; they are not all
0. -/
theorem checksum_verifies {before after : List (BitVec 8)} (hpos : 0 < wordSum before)
    (hsum : wordSum after = wordSum before + (ipChecksum before).toNat) :
    (0 < wordSum after ∧ 0xffff ∣ wordSum after) ∧ checksumLoop 0 after = 0xffff ∧
      ipChecksum after = 0 := by
  have hbefore := @checksumLoop_spec 0 before (by decide)
  have hafter := @checksumLoop_spec 0 after (by decide)
  rw [ipChecksum_toNat] at hsum
  have hall : checksumLoop 0 after = 0xffff := by
    refine eq_of_toNat_eq ?_
    show _ = 65535
    have hzero : (0 : BitVec 32).toNat = 0 := rfl
    omega
  refine ⟨⟨by omega, ?_⟩, hall, by rw [ipChecksum, hall]; rfl⟩
  have hzero : (0 : BitVec 32).toNat = 0 := rfl
  omega

/-- **The checksum of a header verifies.**  The sum of its words is a multiple of `0xffff` and not
0, so that it is `0xffff` as a sum in one's complement; and that is what `ip_checksum` finds. -/
theorem header_verifies (netdev : Netdev) (dst : BitVec 32) (protocol : BitVec 8)
    (payload : List (BitVec 8)) :
    (0 < wordSum ((ipv4Packet netdev dst protocol payload).take 20) ∧
      0xffff ∣ wordSum ((ipv4Packet netdev dst protocol payload).take 20)) ∧
    checksumLoop 0 ((ipv4Packet netdev dst protocol payload).take 20) = 0xffff ∧
      ipChecksum ((ipv4Packet netdev dst protocol payload).take 20) = 0 :=
  -- the first word is not 0
  @checksum_verifies (ipv4Header netdev dst protocol payload.length 0) _
    (Nat.add_pos_left (by decide) _) wordSum_ipv4Header

def icmpLoop : BitVec 32 → List (BitVec 8) → BitVec 32
  | sum, hi :: lo :: rest => icmpLoop (sum + (hi ++ lo).setWidth 32) rest
  | sum, _ => sum

/-- `icmp_checksum` of `ping` -/
def icmpChecksum (payload : List (BitVec 8)) : BitVec 16 :=
  let checksum := icmpLoop 0 payload
  ~~~(if 0xffff < checksum then (checksum >>> 16) + (checksum &&& 0xffff) else checksum).setWidth 16

/-- What `ping` sends, before the checksum is filled in. -/
def echoRequest (seq : BitVec 16) : List (BitVec 8) :=
  [8, 0, 0, 0, 0, 0] ++ bytes16 (nativeToBe16 seq) ++ (List.range 56).map (BitVec.ofNat 8)

theorem icmpLoop_toNat (h : sum.toNat + bytes.length / 2 * 0xffff < 2 ^ 32) :
    (icmpLoop sum bytes).toNat = sum.toNat + wordSum bytes ∧
    wordSum bytes ≤ bytes.length / 2 * 0xffff := by
  fun_induction icmpLoop sum bytes with
  | case1 sum hi lo rest ih =>
    have hword := (hi ++ lo).isLt
    have hadd : (sum + (hi ++ lo).setWidth 32).toNat = sum.toNat + (hi ++ lo).toNat := by
      simp only [length_cons] at h
      rw [toNat_add, toNat_setWidth]
      omega
    rw [wordSum]
    simp only [length_cons, hadd] at h ih ⊢
    have := ih (by omega)
    omega
  | case2 bytes sum hshort =>
    have hzero : wordSum bytes = 0 := by rwa [wordSum]
    omega

/-- With a second carry the checksum of `ping` is too large by one. -/
theorem icmpChecksum_eq_iff (hlen : bytes.length ≤ 65534) : icmpChecksum bytes = ipChecksum bytes ↔
    wordSum bytes / 65536 + wordSum bytes % 65536 ≤ 0xffff := by
  have hzero : (0 : BitVec 32).toNat = 0 := rfl
  obtain ⟨hsum, hle⟩ := @icmpLoop_toNat 0 bytes (by omega)
  have hloop := @checksumLoop_spec 0 bytes (by decide)
  rw [hzero, zero_add] at hsum hloop
  have hcond : (0xffff < icmpLoop 0 bytes) = (65535 < wordSum bytes) := by rw [← hsum]; rfl
  rw [← BitVec.toNat_inj, ipChecksum_toNat, icmpChecksum, toNat_not, toNat_setWidth,
    apply_ite BitVec.toNat, fold_toNat, hsum]
  simp only [hcond]
  -- the folded sum leaves the rest that the sum leaves, and the loop is the word with that rest
  obtain ⟨fold, hfold⟩ : ∃ fold, fold = wordSum bytes / 65536 + wordSum bytes % 65536 := ⟨_, rfl⟩
  have hrest : fold % 65535 = wordSum bytes % 65535 := by omega
  have hbound : fold < 131071 := by omega
  have hpos : fold = 0 ↔ wordSum bytes = 0 := by omega
  have hsmall : wordSum bytes ≤ 65535 → fold = wordSum bytes := by omega
  have hsame : (checksumLoop 0 bytes).toNat = if fold ≤ 65535 then fold else fold - 65535 := by
    split <;> omega
  rw [← hfold, hsame]
  clear hrest hloop hfold
  split_ifs <;> omega

/-- **The two checksums agree** if and only if adding the carry to the sum of the words leaves no
other carry.  It does for two of the requests that `ping` sends. -/
theorem icmpChecksum_eq (payload : List (BitVec 8)) (hlen : payload.length ≤ 65534)
    (seq : BitVec 16) :
    (icmpChecksum payload = ipChecksum payload ↔
      wordSum payload / 65536 + wordSum payload % 65536 ≤ 0xffff) ∧
    (icmpChecksum (echoRequest seq) = ipChecksum (echoRequest seq) ↔ seq ≠ 238 ∧ seq ≠ 239) := by
  refine ⟨icmpChecksum_eq_iff hlen, ?_⟩
  rw [icmpChecksum_eq_iff (by simp [echoRequest, bytes16])]
  have hsum : wordSum (echoRequest seq) = 196368 + seq.toNat := by
    simp [echoRequest, bytes16, wordSum, range_succ, word_be16]
    omega
  have hseq := seq.isLt
  have h238 : seq = 238 ↔ seq.toNat = 238 := BitVec.toNat_inj.symm
  have h239 : seq = 239 ↔ seq.toNat = 239 := BitVec.toNat_inj.symm
  rw [hsum, ne_eq, ne_eq, h238, h239]
  omega

theorem icmpChecksum_eq_first : icmpChecksum (echoRequest 1) = ipChecksum (echoRequest 1) :=
  (icmpChecksum_eq [] (by decide) 1).2.2 (by decide)

/-- **Request 238** is sent with a checksum that is too large by one. -/
theorem icmpChecksum_wrong : icmpChecksum (echoRequest 238) = ipChecksum (echoRequest 238) + 1 := by
  decide +kernel

end Checksum

/-! ## An interrupted search -/

section Interrupted

variable {netdev : Netdev} {route dst : BitVec 32} {protocol : BitVec 8} {payload : List (BitVec 8)}

theorem kmalloc_ne_badPointer {exhausted : TxSite → Bool} {site : TxSite} {size : Nat} :
    (kmalloc exhausted site size).result ≠ .error .badPointer := by
  rw [kmalloc]
  split
  · rintro ⟨⟩
  · split <;> rintro ⟨⟩

theorem dstHw_eq_error {p : TxPanic} (h : (dstHw st netdev route).result = .error p) :
    route ≠ netdev.ipBroadcast ∧ st.arpSearch route = .interrupted := by
  rw [dstHw] at h
  split at h
  · cases h
  split at h
  · cases h
  · cases h
  · exact ⟨‹_›, ‹_›⟩

/-- What the packet of an interrupted search comes to: its buffer stays, and the pointer is
followed. -/
theorem ipv4TxPacket_interrupted (hroute : route ≠ netdev.ipBroadcast)
    (hsearch : st.arpSearch route = .interrupted) (hlen : payload.length ≤ 1004)
    (hmem : st.exhausted .ipv4 = false) : ipv4TxPacket st netdev route dst protocol payload =
      ⟨[.nextId, .alloc .ipv4 (20 + payload.length)], .error .badPointer⟩ := by
  have hsize : (20 + payload.length) % 2 ^ 64 = 20 + payload.length := by omega
  obtain ⟨i, hi⟩ := Option.ne_none_iff_exists'.1 (mt Mm.kmCacheFor_eq_none.1
    (show ¬1024 < 20 + payload.length by omega))
  rw [ipv4TxPacket, dstHw, if_neg hroute, hsearch, hsize, kmalloc, hi, hmem]
  rfl

/-- **A search that was interrupted never ends in an error**: if there is memory for the packet, the
pointer `-EINTR` is followed, with the packet still allocated.  With any other outcome, or with no
search at all, no pointer is followed that is not to an entry, the packet is freed, and without an
entry an error is returned and no frame is sent. -/
theorem resolution_fails (st : TxState) (netdev : Netdev) (route dst : BitVec 32)
    (protocol : BitVec 8) (payload : List (BitVec 8)) :
    (route ≠ netdev.ipBroadcast → st.arpSearch route = .interrupted → payload.length ≤ 1004 →
      st.exhausted .ipv4 = false → ipv4TxPacket st netdev route dst protocol payload =
        ⟨[.nextId, .alloc .ipv4 (20 + payload.length)], .error .badPointer⟩) ∧
    (route = netdev.ipBroadcast ∨ st.arpSearch route ≠ .interrupted →
      (ipv4TxPacket st netdev route dst protocol payload).result ≠ .error .badPointer ∧
      ∀ r, (ipv4TxPacket st netdev route dst protocol payload).result = .ok r →
        .free .ipv4 ∈ (ipv4TxPacket st netdev route dst protocol payload).events ∧
          (route ≠ netdev.ipBroadcast → st.arpSearch route = .null → r = .error .enetunreach ∧
            ∀ netdev' frame, .send netdev' frame ∉
              (ipv4TxPacket st netdev route dst protocol payload).events)) := by
  refine ⟨ipv4TxPacket_interrupted, fun hsearch => ?_⟩
  have hdst : route ≠ netdev.ipBroadcast → st.arpSearch route = .null →
      dstHw st netdev route = pure none :=
    fun hne hnull => by rw [dstHw, if_neg hne, hnull]
  refine ⟨fun hbad => ?_, fun r hr => ?_⟩
  · simp only [ipv4TxPacket, result_eq_error, kmalloc_ne_badPointer, false_or] at hbad
    obtain h | ⟨-, -, -, -, h | ⟨mac, -, h⟩⟩ := hbad
    · cases h
    · obtain ⟨hne, hinterrupted⟩ := dstHw_eq_error h
      exact hsearch.elim hne (· hinterrupted)
    · rcases mac with _ | _
      · cases h
      simp only [result_eq_error, etherTxPacket, kmalloc_ne_badPointer, false_or] at h
      obtain ⟨_, -, h | ⟨_, -, h | ⟨_, -, h⟩⟩⟩ | ⟨_, -, h | ⟨_, -, h⟩⟩ := h <;> cases h
  · simp only [ipv4TxPacket, result_eq_ok] at hr
    obtain ⟨_, hid, _, hk, mac, hmac, hr⟩ := hr
    refine ⟨?_, fun hne hnull => ⟨?_, fun netdev' frame hsend => ?_⟩⟩
    · refine mem_bind.2
        (.inr ⟨_, hid, mem_bind.2 (.inr ⟨_, hk, mem_bind.2 (.inr ⟨mac, hmac, ?_⟩)⟩)⟩)
      rcases mac with _ | _
      · exact mem_cons_self
      obtain ⟨res, hres, -⟩ := result_eq_ok.1 hr
      exact mem_bind.2 (.inr ⟨res, hres, mem_cons_self⟩)
    · rw [hdst hne hnull] at hmac
      cases hmac
      cases hr
      rfl
    · obtain ⟨rfl, mac, hmac, -⟩ := ipv4TxPacket_sends hsend
      rw [hdst hne hnull] at hmac
      cases hmac

/-- A search that finds nothing. -/
theorem resolution_fails_null :
    (ipv4TxPacket (routed []) ⟨fun _ => 2, 0, 0, 0⟩ 1 1 17 [7]).result ≠ .error .badPointer :=
  ((resolution_fails _ _ _ _ _ _).2 (.inr (nofun : ArpLookup.null ≠ .interrupted))).1

/-- **A search that was interrupted** while a signal is pending: the pointer is followed, and the
packet stays. -/
theorem resolution_interrupted : ∃ size,
    ipv4TxPacket { routed [] with arpSearch := fun _ => .interrupted }
    ⟨fun _ => 2, 0, 0, 0⟩ 1 1 17 [7] =
      ⟨[.nextId, .alloc .ipv4 size], .error .badPointer⟩ := ⟨21, rfl⟩

end Interrupted

end Monolith.Net
