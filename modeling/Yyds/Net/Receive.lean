import Yyds.Net.RoundTrip

/-! Whatever comes in, `net_rx` reads inside the frame and gets rid of the buffer once. -/
namespace Yyds.Net

open Lib Kern

/-- The buffer in `page` has been freed, and nothing was queued. -/
def Freed (page : Nat) (w w' : World) : Prop :=
  w'.sockets = w.sockets ∧ w'.free.count page = w.free.count page + 1

/-- The UDP length field of a frame. -/
def ulenField (frame : List Byte) : Nat := (ntohs (load16 frame 38)).toNat

/-- The IP total length field of a frame. -/
def ipLenField (frame : List Byte) : Nat := (ntohs (load16 frame 16)).toNat

/-- The buffer in `page` has been appended to the queue of one socket, and nothing else has
happened. The length fields fit each other and the frame, and the payload is what they say. -/
def Queued (page : Nat) (frame : List Byte) (w w' : World) : Prop :=
  ∃ before si after r, w.sockets = before ++ si :: after ∧
    w' = { w with sockets := before ++ { si with rxq := si.rxq ++ [r] } :: after } ∧
    r.page = page ∧ 8 ≤ ulenField frame ∧ ipLenField frame = ulenField frame + 20 ∧
    42 + (ulenField frame - 8) ≤ frame.length ∧
    r.frame = (frame.drop 42).take (ulenField frame - 8)

section Safe

variable {m : Mbuf} {pre rest frame : List Byte} {w : World} {page : Nat}

theorem mbuffree_freed (hm : m.page = page) :
    ∃ w', mbuffree m w = .ok ((), w') ∧ Freed page w w' := by
  refine ⟨_, rfl, rfl, ?_⟩
  rw [hm]
  exact List.count_cons_self

variable {n q : Nat} {eth : List Byte}

theorem exists_split (h : n ≤ rest.length) : ∃ hdr tail, rest = hdr ++ tail ∧ hdr.length = n :=
  ⟨rest.take n, rest.drop n, (List.take_append_drop n rest).symm, by simpa using h⟩

theorem mbufalloc_none (h : w.free = []) (headroom : Nat) :
    mbufalloc headroom w = .ok (none, w) := by
  unfold mbufalloc
  split
  · rfl
  · simp [kalloc, bind_apply, h]

theorem mbufalloc_some {free : List Nat} (h : w.free = q :: free) :
    mbufalloc MBUF_DEFAULT_HEADROOM w =
      .ok (some (newMbuf q MBUF_DEFAULT_HEADROOM), { w with free }) := by
  rw [mbufalloc, if_neg (by decide)]
  simp [kalloc, bind_apply, h]

theorem sendArp_ok (hq : q + 4096 ≤ 2 ^ 64) {hdr : Arp} (hlen : hdr.bytes.length = 28) :
    sendArp (newMbuf q MBUF_DEFAULT_HEADROOM) hdr w =
      .ok (0, w.transmit ((filled q hdr.bytes).prepend (ethHeader ETHTYPE_ARP).bytes)) := by
  obtain ⟨p, m, hput, _, hstore⟩ := put_newMbuf (n := 28) hq (by decide)
  have hlen32 : (filled q hdr.bytes).len + 14 < 2 ^ 32 := by
    change hdr.bytes.length + 14 < 2 ^ 32
    omega
  rw [sendArp, onMbuf_bind hput]
  dsimp only
  rw [hstore hdr.bytes hlen,
    bind_of_ok (net_tx_eth_ok (by rw [filled_head]; omega) hlen32 ETHTYPE_ARP),
    pure_apply]

/-- The answer to an ARP request is sent from another page. -/
theorem net_tx_arp_ok (op : BitVec 16) {dmac : List Byte} (hmac : dmac.length = 6) (dip : BitVec 32)
    (hfree : ∀ q ∈ w.free, q + 4096 ≤ 2 ^ 64) (hpage : page ∉ w.free) :
    ∃ r w', net_tx_arp op dmac dip w = .ok (r, w') ∧ w'.sockets = w.sockets ∧ page ∉ w'.free := by
  unfold net_tx_arp
  cases hw : w.free with
  | nil =>
    rw [bind_of_ok (mbufalloc_none hw _)]
    exact ⟨-1, w, rfl, rfl, hpage⟩
  | cons q free =>
    rw [hw] at hfree hpage
    have hlen : (arpHeader op dmac dip).bytes.length = 28 := Arp.length_bytes rfl hmac
    rw [bind_of_ok (mbufalloc_some hw)]
    refine ⟨0, _, sendArp_ok (hfree q (by simp)) hlen, rfl, ?_⟩
    change page ∉ (if w.refuse then q :: free else free)
    split
    · exact hpage
    · exact fun hmem => hpage (List.mem_cons_of_mem _ hmem)

theorem net_rx_arp_freed (h : m.At pre rest) (hm : m.page = page)
    (hfree : ∀ q ∈ w.free, q + 4096 ≤ 2 ^ 64) (hpage : page ∉ w.free) :
    ∃ w', net_rx_arp m w = .ok ((), w') ∧ Freed page w w' := by
  by_cases hlen : rest.length < 28
  · rw [net_rx_arp, h.pull_none hlen]
    exact mbuffree_freed hm
  obtain ⟨hdr, tail, rfl, hn⟩ := exists_split (not_lt.mp hlen)
  rw [net_rx_arp, h.pull hn]
  dsimp only
  rw [h.readAt hn]
  split
  · exact mbuffree_freed hm
  split
  · exact mbuffree_freed hm
  have hsha : (Arp.ofBytes hdr).sha.length = 6 := by
    simp [Arp.ofBytes, ETHADDR_LEN, hn]
  obtain ⟨r, u, htx, hsock, hnot⟩ := net_tx_arp_ok ARP_OP_REPLY hsha
    (ntohl (Arp.ofBytes hdr).sip) hfree hpage
  rw [bind_of_ok htx]
  obtain ⟨w', hw', hs, hc⟩ := mbuffree_freed hm
  refine ⟨w', hw', hs.trans hsock, ?_⟩
  rw [hc, List.count_eq_zero_of_not_mem hnot, List.count_eq_zero_of_not_mem hpage]

/-- A length field below the size of its header wraps around to more than a frame can hold. -/
theorem lengths_consistent {iplen ulen : BitVec 16} (hn : n ≤ 2048) (hu : ulen = iplen - 20#16)
    (hl : (iplen - 20#16 - 8#16).toNat ≤ n) :
    8 ≤ ulen.toNat ∧ iplen.toNat = ulen.toNat + 20 ∧
      (iplen - 20#16 - 8#16).toNat = ulen.toNat - 8 := by
  have h20 : (iplen - 20#16).toNat = (2 ^ 16 - 20 + iplen.toNat) % 2 ^ 16 := BitVec.toNat_sub _ _
  have h8 : (iplen - 20#16 - 8#16).toNat = (2 ^ 16 - 8 + (iplen - 20#16).toNat) % 2 ^ 16 :=
    BitVec.toNat_sub _ _
  rw [hu]
  omega

theorem net_rx_udp_safe {ip : List Byte} (h : m.At (eth ++ ip) rest) (hm : m.page = page)
    (heth : eth.length = 14) (hip : ip.length = 20)
    (hlen : (eth ++ ip ++ rest).length ≤ MBUF_SIZE) :
    ∃ w', net_rx_udp m (ntohs (Ip.ofBytes ip).ip_len - 20#16) (Ip.ofBytes ip) w = .ok ((), w') ∧
      (Freed page w w' ∨ Queued page (eth ++ ip ++ rest) w w') := by
  by_cases hshort : rest.length < 8
  · rw [net_rx_udp, h.pull_none hshort]
    exact (mbuffree_freed hm).imp fun _ => And.imp_right .inl
  obtain ⟨udp, tail, rfl, hn⟩ := exists_split (not_lt.mp hshort)
  have h1 := h.pulled hn
  rw [List.length_append, List.length_append, List.length_append] at hlen
  unfold MBUF_SIZE at hlen
  rw [net_rx_udp_at h hn]
  split
  · rename_i hok
    obtain ⟨hfirst, hiplen, hpayload⟩ := lengths_consistent (by omega) hok.1 hok.2
    have hulen : ulenField (eth ++ ip ++ (udp ++ tail)) = (ntohs (Udp.ofBytes udp).ulen).toNat := by
      have hright := load16_append_right (eth ++ ip) (udp ++ tail) 4
      rw [List.length_append, heth, hip] at hright
      rw [ulenField, hright, load16_append_left tail (by omega)]
      rfl
    have hip16 : ipLenField (eth ++ ip ++ (udp ++ tail)) =
        (ntohs (Ip.ofBytes ip).ip_len).toNat := by
      have hright := load16_append_right eth (ip ++ (udp ++ tail)) 2
      rw [heth] at hright
      rw [ipLenField, List.append_assoc, hright, load16_append_left _ (by omega)]
      rfl
    rw [sockrecvudp, get_bind_apply]
    cases hd : deliver { m.pulled 8 with len := _ } _ _ _ w.sockets with
    | none =>
      exact (mbuffree_freed hm).imp fun _ => And.imp_right .inl
    | some sockets =>
      obtain ⟨before, si, after, hsock, rfl, _, _⟩ := deliver_eq_some hd
      refine ⟨_, rfl, .inr ⟨before, si, after, _, hsock, rfl, hm, ?_, ?_, ?_, ?_⟩⟩
      · rw [hulen]
        exact hfirst
      · rw [hulen, hip16]
        exact hiplen
      · rw [List.length_append, List.length_append, List.length_append]
        omega
      · have hdrop : (eth ++ ip ++ (udp ++ tail)).drop 42 = tail := by
          have h42 : 42 = (eth ++ ip ++ udp).length := by
            rw [List.length_append, List.length_append, heth, hip, hn]
          rw [← List.append_assoc, h42, List.drop_left]
        rw [h1.frame_take, hdrop, hulen, hpayload]
  · exact (mbuffree_freed hm).imp fun _ => And.imp_right .inl

theorem net_rx_ip_safe (h : m.At eth rest) (hm : m.page = page) (heth : eth.length = 14)
    (hlen : (eth ++ rest).length ≤ MBUF_SIZE) :
    ∃ w', net_rx_ip m w = .ok ((), w') ∧ (Freed page w w' ∨ Queued page (eth ++ rest) w w') := by
  by_cases hshort : rest.length < 20
  · rw [net_rx_ip, h.pull_none hshort]
    exact (mbuffree_freed hm).imp fun _ => And.imp_right .inl
  obtain ⟨ip, tail, rfl, hn⟩ := exists_split (not_lt.mp hshort)
  rw [net_rx_ip_at h hn]
  split
  · rw [← List.append_assoc] at hlen ⊢
    exact net_rx_udp_safe (h.pulled hn) hm heth hn hlen
  · exact (mbuffree_freed hm).imp fun _ => And.imp_right .inl

end Safe

/-- For every frame of at most 2048 bytes and every socket list: `net_rx` returns, with no read
outside the frame and no panic, and the buffer is freed once or queued at one socket; then its
payload is what the length fields say, and these fit each other and the frame. -/
theorem net_rx_safe {page : Nat} {frame : List Byte} {w : World} (hpage : page + 4096 ≤ 2 ^ 64)
    (hlen : frame.length ≤ MBUF_SIZE) (hfree : ∀ q ∈ w.free, q + 4096 ≤ 2 ^ 64)
    (hnot : page ∉ w.free) :
    ∃ w', net_rx (received page frame) w = .ok ((), w') ∧
      (Freed page w w' ∨ Queued page frame w w') := by
  have h := received_at hpage hlen
  have hm : (received page frame).page = page := rfl
  generalize received page frame = m at h hm
  by_cases hshort : frame.length < 14
  · rw [net_rx, h.pull_none hshort]
    exact (mbuffree_freed hm).imp fun _ => And.imp_right .inl
  obtain ⟨eth, rest, rfl, hn⟩ := exists_split (not_lt.mp hshort)
  have h1 : (m.pulled 14).At eth rest := h.pulled hn
  rw [net_rx_at h hn]
  split
  · exact net_rx_ip_safe h1 hm hn hlen
  · split
    · exact (net_rx_arp_freed h1 hm hfree hnot).imp fun _ => And.imp_right .inl
    · exact (mbuffree_freed hm).imp fun _ => And.imp_right .inl

/-- A datagram with three bytes for port 9, from port 7 of the same address. -/
def letter : List Byte :=
  (ethHeader ETHTYPE_IP).bytes ++ (ipHeader IPPROTO_UDP local_ip 31).withSum.bytes ++
    (udpHeader 7 9 11).bytes ++ [1, 2, 3]

/-- A world in which a socket waits for it. -/
def mailbox : World := ⟨[], [⟨0x80002000, local_ip, 9, 7, [], 0, false⟩], [], false⟩

theorem net_rx_safe_letter :
    ∃ w', net_rx (received 0x80001000 letter) mailbox = .ok ((), w') ∧
      Queued 0x80001000 letter mailbox w' := by
  obtain ⟨w', hrx, hlen⟩ : ∃ w', net_rx (received 0x80001000 letter) mailbox = .ok ((), w') ∧
      w'.sockets.map (·.rxq.length) = [1] := ⟨_, rfl, by decide +kernel⟩
  obtain ⟨_, hrx', hend⟩ := @net_rx_safe 0x80001000 letter mailbox (by decide) (by decide)
    (by decide) (by decide)
  cases hrx.symm.trans hrx'
  refine ⟨w', hrx, hend.resolve_left fun hfreed => ?_⟩
  rw [hfreed.1] at hlen
  exact absurd hlen (by decide)

end Yyds.Net
