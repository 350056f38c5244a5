import Yyds.Net.Stack

/-! A datagram that is sent to the own address comes back with the same contents. -/
namespace Yyds.Net

open Lib Ip

/-! ### What is sent -/

/-- The driver has been given the buffer, and it is freed if the driver did not take it. -/
def World.transmit (w : World) (m : Mbuf) : World :=
  { w with
    handed := w.handed ++ [m]
    free := if w.refuse then m.page :: w.free else w.free }

section Send

variable {m : Mbuf} {w : World}

theorem onMbuf_bind {α β : Type} {x : Except String α} {a : α} (h : x = .ok a)
    (f : α → Kern World β) (w : World) : (onMbuf x >>= f) w = f a w := by
  rw [h]
  rfl

def ethHeader (ethtype : BitVec 16) : Eth := ⟨broadcast_mac, local_mac, htons ethtype⟩

theorem transmit_ok (m : Mbuf) (w : World) :
    (do if ← e1000_transmit m then mbuffree m else pure () : Kern World Unit) w =
      .ok ((), w.transmit m) := by
  by_cases hr : w.refuse = true
  · simp [e1000_transmit, Kern.bind_apply, World.transmit, mbuffree, hr]
  · simp [e1000_transmit, Kern.bind_apply, World.transmit, hr]

theorem net_tx_eth_ok (hl : m.base + 14 ≤ m.head) (hm : m.len + 14 < 2 ^ 32) (ethtype : BitVec 16) :
    net_tx_eth m ethtype w = .ok ((), w.transmit (m.prepend (ethHeader ethtype).bytes)) := by
  rw [net_tx_eth, onMbuf_bind (push_eq hl hm)]
  exact transmit_ok _ w

theorem net_tx_ip_ok (hl : m.base + 34 ≤ m.head) (hm : m.len + 34 < 2 ^ 32) (proto : Byte)
    (dip : BitVec 32) :
    net_tx_ip m proto dip w = .ok ((), w.transmit
      ((m.prepend (ipHeader proto dip (m.len + 20)).withSum.bytes).prepend
        (ethHeader ETHTYPE_IP).bytes)) := by
  rw [net_tx_ip, onMbuf_bind (push_eq (by omega) (by omega))]
  refine net_tx_eth_ok ?_ ?_ ETHTYPE_IP
  · change m.base + 14 ≤ m.head - 20
    omega
  · change m.len + 20 + 14 < 2 ^ 32
    omega

def udpHeader (sport dport : BitVec 16) (len : Nat) : Udp :=
  ⟨htons sport, htons dport, htons (BitVec.ofNat 16 len), 0#16⟩

/-- The buffer that `net_tx_udp` hands to the driver. -/
def Mbuf.datagram (m : Mbuf) (dip : BitVec 32) (sport dport : BitVec 16) : Mbuf :=
  ((m.prepend (udpHeader sport dport (m.len + 8)).bytes).prepend
    (ipHeader IPPROTO_UDP dip (m.len + 28)).withSum.bytes).prepend (ethHeader ETHTYPE_IP).bytes

theorem net_tx_udp_ok (hl : m.base + 42 ≤ m.head) (hm : m.len + 42 < 2 ^ 32) (dip : BitVec 32)
    (sport dport : BitVec 16) :
    net_tx_udp m dip sport dport w = .ok ((), w.transmit (m.datagram dip sport dport)) := by
  rw [net_tx_udp, onMbuf_bind (push_eq (by omega) (by omega))]
  refine net_tx_ip_ok ?_ ?_ IPPROTO_UDP dip
  · change m.base + 34 ≤ m.head - 8
    omega
  · change m.len + 8 + 34 < 2 ^ 32
    omega

theorem Mbuf.Room.frame_datagram (h : m.Room) (hl : m.base + 42 ≤ m.head) (dip : BitVec 32)
    (sport dport : BitVec 16) :
    (m.datagram dip sport dport).frame =
      (ethHeader ETHTYPE_IP).bytes ++ ((ipHeader IPPROTO_UDP dip (m.len + 28)).withSum.bytes ++
        ((udpHeader sport dport (m.len + 8)).bytes ++ m.frame)) := by
  have hudp : m.base + (udpHeader sport dport (m.len + 8)).bytes.length ≤ m.head := by
    rw [Udp.length_bytes]
    omega
  have h1 := h.prepend hudp
  have hip : (m.prepend (udpHeader sport dport (m.len + 8)).bytes).base +
      (ipHeader IPPROTO_UDP dip (m.len + 28)).withSum.bytes.length ≤
        (m.prepend (udpHeader sport dport (m.len + 8)).bytes).head := by
    change m.base + 20 ≤ m.head - 8
    omega
  have h2 := h1.prepend hip
  have heth : ((m.prepend (udpHeader sport dport (m.len + 8)).bytes).prepend
      (ipHeader IPPROTO_UDP dip (m.len + 28)).withSum.bytes).base +
        (ethHeader ETHTYPE_IP).bytes.length ≤
      ((m.prepend (udpHeader sport dport (m.len + 8)).bytes).prepend
        (ipHeader IPPROTO_UDP dip (m.len + 28)).withSum.bytes).head := by
    change m.base + 14 ≤ m.head - 8 - 20
    omega
  unfold Mbuf.datagram
  rw [h2.frame_prepend heth, h1.frame_prepend hip, h.frame_prepend hudp]

end Send

/-! ### What is received -/

section Receive

variable {m : Mbuf} {pre hdr rest : List Byte} {w : World}

theorem Mbuf.At.readAt (h : m.At pre (hdr ++ rest)) {n : Nat} (hn : hdr.length = n)
    {β : Type} (f : List Byte → Kern World β) :
    ((m.pulled n).readAt m.head n >>= f) w = f hdr w := by
  have hhead := h.head
  have hbuf := h.buf
  have hoff : m.head - (m.pulled n).base = pre.length := by
    change m.head - m.base = _
    omega
  have hin : (m.pulled n).base ≤ m.head ∧
      m.head - (m.pulled n).base + n ≤ (m.pulled n).buf.length := by
    rw [hoff]
    change m.base ≤ m.head ∧ pre.length + n ≤ m.buf.length
    rw [hbuf, List.length_append, List.length_append]
    omega
  have hget : ((m.pulled n).buf.drop pre.length).take n = hdr := by
    change (m.buf.drop pre.length).take n = hdr
    rw [hbuf, List.drop_left, ← hn, List.take_left]
  rw [Mbuf.readAt, if_pos hin, hoff, hget]
  rfl

theorem net_rx_at (h : m.At pre (hdr ++ rest)) (hn : hdr.length = 14) :
    net_rx m w =
      if ntohs (Eth.ofBytes hdr).type = ETHTYPE_IP then net_rx_ip (m.pulled 14) w
      else if ntohs (Eth.ofBytes hdr).type = ETHTYPE_ARP then net_rx_arp (m.pulled 14) w
      else mbuffree (m.pulled 14) w := by
  rw [net_rx, h.pull hn]
  dsimp only
  rw [h.readAt hn]
  split
  · rfl
  · split <;> rfl

theorem net_rx_ip_at (h : m.At pre (hdr ++ rest)) (hn : hdr.length = 20) :
    net_rx_ip m w =
      if (ofBytes hdr).ip_vhl = 0x45#8 ∧ in_cksum hdr = 0#16 ∧
        htons (ofBytes hdr).ip_off = 0#16 ∧
        htonl (ofBytes hdr).ip_dst = local_ip ∧ (ofBytes hdr).ip_p = IPPROTO_UDP
      then net_rx_udp (m.pulled 20) (ntohs (ofBytes hdr).ip_len - 20#16) (ofBytes hdr) w
      else mbuffree (m.pulled 20) w := by
  rw [net_rx_ip, h.pull hn]
  dsimp only
  rw [h.readAt hn]
  by_cases h1 : (ofBytes hdr).ip_vhl = 0x45#8
  · by_cases h2 : in_cksum hdr = 0#16
    · by_cases h3 : htons (ofBytes hdr).ip_off = 0#16
      · by_cases h4 : htonl (ofBytes hdr).ip_dst = local_ip
        · by_cases h5 : (ofBytes hdr).ip_p = IPPROTO_UDP
          · simp [h1, h2, h3, h4, h5]
          · simp [h1, h2, h3, h4, h5]
        · simp [h1, h2, h3, h4]
      · simp [h1, h2, h3]
    · simp [h1, h2]
  · simp [h1]

theorem trim_eq {m : Mbuf} {n : Nat} (h : n ≤ m.len) :
    (mbuftrim m (m.len - n)).2 = { m with len := n } := by
  have hlen : m.len - (m.len - n) = n := by omega
  rw [mbuftrim, if_neg (by omega), hlen]

theorem net_rx_udp_at (h : m.At pre (hdr ++ rest)) (hn : hdr.length = 8) (len : BitVec 16)
    (iphdr : Ip) :
    net_rx_udp m len iphdr w =
      if ntohs (Udp.ofBytes hdr).ulen = len ∧ (len - 8#16).toNat ≤ rest.length
      then sockrecvudp { m.pulled 8 with len := (len - 8#16).toNat } (ntohl iphdr.ip_src)
        (ntohs (Udp.ofBytes hdr).dport) (ntohs (Udp.ofBytes hdr).sport) w
      else mbuffree (m.pulled 8) w := by
  have hlen := (h.pulled hn).len
  rw [net_rx_udp, h.pull hn]
  dsimp only
  rw [h.readAt hn]
  by_cases hu : ntohs (Udp.ofBytes hdr).ulen = len
  · rw [if_neg (not_not.mpr hu)]
    by_cases hl : (len - 8#16).toNat ≤ rest.length
    · rw [if_neg (by omega), if_pos ⟨hu, hl⟩, trim_eq (by omega)]
    · rw [if_pos (by omega), if_neg fun hh => hl hh.2]
  · rw [if_pos hu, if_neg fun hh => hu hh.1]

end Receive

/-! ### There and back -/

/-- A new buffer with the payload in it, as `sockwrite` makes it. -/
def loaded (page : Nat) (payload : List Byte) : Except String Mbuf := do
  let (p, m) ← mbufput (newMbuf page MBUF_DEFAULT_HEADROOM) payload.length
  pure (m.store p payload)

/-- The buffer that this makes. -/
def filled (page : Nat) (payload : List Byte) : Mbuf :=
  ({ newMbuf page MBUF_DEFAULT_HEADROOM with len := payload.length } : Mbuf).store (page + 148)
    payload

section Filled

variable {page : Nat} {payload : List Byte}

theorem put_newMbuf {n : Nat} (hpage : page + 4096 ≤ 2 ^ 64) (hn : n ≤ MBUF_SIZE) :
    ∃ p m, mbufput (newMbuf page MBUF_DEFAULT_HEADROOM) n = .ok (p, m) ∧ m.page = page ∧
      ∀ bs : List Byte, bs.length = n → m.store p bs = filled page bs := by
  unfold MBUF_SIZE at hn
  have htmp : add64 (page + 20 + 128) 0 = page + 148 := if_pos (by omega)
  have hlen : add32 0 n = n := (if_pos (by omega)).trans (Nat.zero_add n)
  refine ⟨page + 148, { newMbuf page MBUF_DEFAULT_HEADROOM with len := n }, ?_, rfl,
    fun bs hbs => ?_⟩
  · unfold mbufput newMbuf MBUF_DEFAULT_HEADROOM MBUF_SIZE
    rw [htmp, hlen, if_neg (by omega)]
  · rw [filled, hbs]

theorem loaded_eq (hpage : page + 4096 ≤ 2 ^ 64) (hlen : payload.length ≤ MBUF_SIZE) :
    loaded page payload = .ok (filled page payload) := by
  obtain ⟨p, m, hput, _, hstore⟩ := put_newMbuf hpage hlen
  rw [loaded, hput, ← hstore payload rfl]
  rfl

theorem filled_head : (filled page payload).head = (filled page payload).base + 128 := rfl

theorem filled_room (hpage : page + 4096 ≤ 2 ^ 64)
    (hlen : payload.length ≤ MBUF_SIZE - MBUF_DEFAULT_HEADROOM) : (filled page payload).Room := by
  have hle : payload.length ≤ 1920 := hlen
  refine ⟨?_, ?_, ?_, ?_⟩
  · change page + 20 ≤ page + 20 + 128
    omega
  · change page + 20 + 128 + payload.length ≤ page + 20 + 2048
    omega
  · simp only [filled, Mbuf.store, Mbuf.base, newMbuf, MBUF_SIZE, List.length_append,
      List.length_take, List.length_drop, List.length_replicate]
    omega
  · change page + 20 + 2048 < 2 ^ 64
    omega

theorem filled_frame : (filled page payload).frame = payload := by
  have hoff : page + 148 - (page + 20) = 128 := by omega
  have htake : ((List.replicate MBUF_SIZE (0 : Byte)).take 128).length = 128 := by
    rfl
  change (((List.replicate MBUF_SIZE 0).take (page + 148 - (page + 20)) ++ payload ++
    (List.replicate MBUF_SIZE 0).drop (page + 148 - (page + 20) + payload.length)).drop
      (page + 148 - (page + 20))).take payload.length = payload
  rw [hoff, List.append_assoc, List.drop_append_of_le_length htake.ge,
    List.drop_of_length_le htake.le, List.nil_append, List.take_left]

end Filled

theorem received_at {page : Nat} {frame : List Byte} (hpage : page + 4096 ≤ 2 ^ 64)
    (hframe : frame.length ≤ MBUF_SIZE) : (received page frame).At [] frame := by
  refine ⟨rfl, rfl, rfl, ?_⟩
  unfold MBUF_SIZE at hframe
  change page + 20 + (0 + frame.length) < 2 ^ 64
  omega

/-- The checks of `net_rx_ip` pass for the header that `net_tx_ip` writes. -/
theorem ipHeader_accepted (len : Nat) :
    (ipHeader IPPROTO_UDP local_ip len).withSum.ip_vhl = 0x45#8 ∧
    in_cksum (ipHeader IPPROTO_UDP local_ip len).withSum.bytes = 0#16 ∧
    htons (ipHeader IPPROTO_UDP local_ip len).withSum.ip_off = 0#16 ∧
    htonl (ipHeader IPPROTO_UDP local_ip len).withSum.ip_dst = local_ip ∧
    (ipHeader IPPROTO_UDP local_ip len).withSum.ip_p = IPPROTO_UDP := by
  have hvhl : (ipHeader IPPROTO_UDP local_ip len).ip_vhl = 0x45#8 := by
    change (4#8 <<< 4) ||| (20#8 >>> 2) = 0x45#8
    decide
  have hoff : htons 0#16 = 0#16 := by decide
  exact ⟨hvhl, in_cksum_self (by rw [hvhl]; decide) rfl, hoff, bswapl_bswapl local_ip, rfl⟩

/-- The lengths in the headers are those of a datagram with a payload of `n` bytes. -/
theorem lengths_ok {n : Nat} (hn : n ≤ 1920) :
    ntohs (htons (BitVec.ofNat 16 (n + 28))) - 20#16 = BitVec.ofNat 16 (n + 8) ∧
    ntohs (htons (BitVec.ofNat 16 (n + 8))) = BitVec.ofNat 16 (n + 8) ∧
    (BitVec.ofNat 16 (n + 8) - 8#16).toNat = n := by
  refine ⟨?_, bswaps_bswaps _, ?_⟩
  · rw [show ntohs (htons (BitVec.ofNat 16 (n + 28))) = _ from bswaps_bswaps _]
    apply BitVec.eq_of_toNat_eq
    rw [BitVec.toNat_sub, BitVec.toNat_ofNat, BitVec.toNat_ofNat, BitVec.toNat_ofNat]
    omega
  · rw [BitVec.toNat_sub, BitVec.toNat_ofNat, BitVec.toNat_ofNat]
    omega

/-- A buffer that starts with the headers of `net_tx_udp` reaches `sockrecvudp`. -/
theorem net_rx_datagram {m : Mbuf} {payload pad : List Byte} {sport dport : BitVec 16}
    (hn : payload.length ≤ 1920)
    (h : m.At [] ((ethHeader ETHTYPE_IP).bytes ++
      ((ipHeader IPPROTO_UDP local_ip (payload.length + 28)).withSum.bytes ++
        ((udpHeader sport dport (payload.length + 8)).bytes ++ (payload ++ pad))))) (w : World) :
    ∃ r : Mbuf, r.page = m.page ∧ r.frame = payload ∧
      net_rx m w = sockrecvudp r local_ip dport sport w := by
  have heth : (ethHeader ETHTYPE_IP).bytes.length = 14 := rfl
  have htype : ntohs (Eth.ofBytes (ethHeader ETHTYPE_IP).bytes).type = ETHTYPE_IP := by decide
  have h1 := h.pulled heth
  have h2 := h1.pulled (length_bytes _)
  have h3 := h2.pulled (Udp.length_bytes _)
  obtain ⟨hiplen, hulen, hlen⟩ := lengths_ok hn
  have hsrc : ntohl (ipHeader IPPROTO_UDP local_ip (payload.length + 28)).withSum.ip_src =
      local_ip := bswapl_bswapl local_ip
  refine ⟨{ ((m.pulled 14).pulled 20).pulled 8 with len := payload.length }, rfl, ?_, ?_⟩
  · rw [h3.frame_take, List.take_left]
  · rw [net_rx_at h heth, if_pos htype, net_rx_ip_at h1 (length_bytes _), ofBytes_bytes,
      if_pos (ipHeader_accepted _), net_rx_udp_at h2 (Udp.length_bytes _), Udp.ofBytes_bytes, hsrc]
    have hfields : ntohs (ipHeader IPPROTO_UDP local_ip (payload.length + 28)).withSum.ip_len -
        20#16 = BitVec.ofNat 16 (payload.length + 8) := hiplen
    have hport : ∀ v : BitVec 16, ntohs (htons v) = v := bswaps_bswaps
    rw [hfields, if_pos ⟨hulen, by rw [hlen, List.length_append]; omega⟩, hlen]
    change sockrecvudp _ local_ip (ntohs (htons dport)) (ntohs (htons sport)) w = _
    rw [hport, hport]

/-- A datagram to the own address, followed by any padding, is given to `sockrecvudp` with the same
payload, ports and address. -/
theorem udp_round_trip {page : Nat} (hpage : page + 4096 ≤ 2 ^ 64) {payload : List Byte}
    (hlen : payload.length ≤ MBUF_SIZE - MBUF_DEFAULT_HEADROOM) (sport dport : BitVec 16)
    (w : World) :
    ∃ m sent, loaded page payload = .ok m ∧
      net_tx_udp m local_ip sport dport w = .ok ((), w.transmit sent) ∧
      sent.frame.length = payload.length + 42 ∧
      ∀ (pad : List Byte) (rpage : Nat) (v : World), rpage + 4096 ≤ 2 ^ 64 →
        sent.frame.length + pad.length ≤ MBUF_SIZE →
        ∃ r : Mbuf, r.page = rpage ∧ r.frame = payload ∧
          net_rx (received rpage (sent.frame ++ pad)) v = sockrecvudp r local_ip dport sport v := by
  have hroom := filled_room hpage hlen
  have hhead : (filled page payload).base + 42 ≤ (filled page payload).head := by
    rw [filled_head]
    omega
  have hlen32 : (filled page payload).len + 42 < 2 ^ 32 := by
    have hle : payload.length ≤ 1920 := hlen
    change payload.length + 42 < 2 ^ 32
    omega
  have hsent := hroom.frame_datagram hhead local_ip sport dport
  rw [filled_frame] at hsent
  refine ⟨filled page payload, (filled page payload).datagram local_ip sport dport,
    loaded_eq hpage (hlen.trans (by decide)), net_tx_udp_ok hhead hlen32 local_ip sport dport, ?_,
    fun pad rpage v hrpage hpad => ?_⟩
  · have heth : (ethHeader ETHTYPE_IP).bytes.length = 14 := rfl
    rw [hsent, List.length_append, List.length_append, List.length_append, length_bytes,
      Udp.length_bytes, heth]
    omega
  · rw [← List.length_append] at hpad
    have hat := received_at hrpage hpad
    rw [hsent] at hat
    rw [hsent]
    exact net_rx_datagram hlen hat v

/-- Two bytes from port 7 to port 9, in a frame of 60 bytes. -/
theorem udp_round_trip_short : ∃ m sent, loaded 0x80001000 [104#8, 105#8] = .ok m ∧
    net_tx_udp m local_ip 7 9 ⟨[], [], [], false⟩ =
      .ok ((), World.transmit ⟨[], [], [], false⟩ sent) ∧
    ∃ r : Mbuf, r.frame = [104#8, 105#8] ∧
      net_rx (received 0x80002000 (sent.frame ++ List.replicate 16 0#8)) ⟨[], [], [], false⟩ =
        sockrecvudp r local_ip 9 7 ⟨[], [], [], false⟩ := by
  obtain ⟨m, sent, hm, hsend, hlen, hback⟩ := @udp_round_trip 0x80001000 (by decide)
    [104#8, 105#8] (by decide) 7 9 ⟨[], [], [], false⟩
  obtain ⟨r, _, hframe, hrx⟩ := hback (List.replicate 16 0#8) 0x80002000 ⟨[], [], [], false⟩
    (by decide) (by rw [hlen]; decide)
  exact ⟨m, sent, hm, hsend, r, hframe, hrx⟩

end Yyds.Net
