import Yyds.Kernel.Sys
import Yyds.Net.Mbuf

/-! Sending and receiving: the layers of `net.c` between the sockets of `sysnet.c` and the
driver. -/
namespace Yyds.Net

open Lib
open Kernel (uint uint64)

/-- `MAKE_IP_ADDR(10, 0, 2, 15)` -/
def local_ip : BitVec 32 := (10#32 <<< 24) ||| (0#32 <<< 16) ||| (2#32 <<< 8) ||| 15#32

def local_mac : List Byte := [0x52, 0x54, 0x00, 0x12, 0x34, 0x56]

def broadcast_mac : List Byte := [0xff, 0xff, 0xff, 0xff, 0xff, 0xff]

/-- `struct sock`: the page it is in and the fields that are read. -/
structure Sock where
  page : Nat
  raddr : BitVec 32
  lport : BitVec 16
  rport : BitVec 16
  rxq : List Mbuf
  type : Int
  listening : Bool

/-- The free pages, the socket list, the mbufs that were handed to `e1000_transmit`, and whether the
driver takes the next one. -/
structure World where
  free : List Nat
  sockets : List Sock
  handed : List Mbuf
  refuse : Bool

/-! ### Buffers -/

def kalloc : Kern World (Option Nat) := do
  let w ← .get
  match w.free with
  | [] => pure none
  | p :: free => do
    .modify fun w => { w with free }
    pure (some p)

def mbufalloc (headroom : Nat) : Kern World (Option Mbuf) :=
  if headroom > MBUF_SIZE then pure none
  else do
    match ← kalloc with
    | none => pure none
    | some p => pure (some (newMbuf p headroom))

def mbuffree (m : Mbuf) : Kern World Unit := .modify fun w => { w with free := m.page :: w.free }

/-- A routine that works on a buffer alone. -/
def onMbuf {α : Type} (x : Except String α) : Kern World α := fun w =>
  match x with
  | .ok a => .ok (a, w)
  | .error e => .error e

/-- The `n` bytes at the address `p`. A read outside the buffer stops the model, as no read of the
source may come there. -/
def Mbuf.readAt (m : Mbuf) (p n : Nat) : Kern World (List Byte) :=
  if m.base ≤ p ∧ p - m.base + n ≤ m.buf.length then pure ((m.buf.drop (p - m.base)).take n)
  else .panic "read outside the frame"

/-! ### Sending -/

/-- The driver queues the buffer, or returns an error. -/
def e1000_transmit (m : Mbuf) : Kern World Bool := do
  .modify fun w => { w with handed := w.handed ++ [m] }
  let w ← .get
  pure w.refuse

def net_tx_eth (m : Mbuf) (ethtype : BitVec 16) : Kern World Unit := do
  let (ethhdr, m) ← onMbuf (mbufpush m 14)
  let m := m.store ethhdr (Eth.bytes ⟨broadcast_mac, local_mac, htons ethtype⟩)
  if ← e1000_transmit m then mbuffree m else pure ()

/-- The header that `net_tx_ip` writes, before its checksum is put in. -/
def ipHeader (proto : Byte) (dip : BitVec 32) (len : Nat) : Ip where
  ip_vhl := (4#8 <<< 4) ||| (20#8 >>> 2)
  ip_tos := 0#8
  ip_len := htons (BitVec.ofNat 16 len)
  ip_id := 0#16
  ip_off := 0#16
  ip_ttl := 100#8
  ip_p := proto
  ip_sum := 0#16
  ip_src := htonl local_ip
  ip_dst := htonl dip

def Ip.withSum (h : Ip) : Ip := { h with ip_sum := in_cksum h.bytes }

def net_tx_ip (m : Mbuf) (proto : Byte) (dip : BitVec 32) : Kern World Unit := do
  let (iphdr, m) ← onMbuf (mbufpush m 20)
  let m := m.store iphdr (ipHeader proto dip m.len).withSum.bytes
  net_tx_eth m ETHTYPE_IP

def net_tx_udp (m : Mbuf) (dip : BitVec 32) (sport dport : BitVec 16) : Kern World Unit := do
  let (udphdr, m) ← onMbuf (mbufpush m 8)
  let m := m.store udphdr
    (Udp.bytes ⟨htons sport, htons dport, htons (BitVec.ofNat 16 m.len), 0#16⟩)
  net_tx_ip m IPPROTO_UDP dip

def arpHeader (op : BitVec 16) (dmac : List Byte) (dip : BitVec 32) : Arp :=
  ⟨htons ARP_HRD_ETHER, htons ETHTYPE_IP, BitVec.ofNat 8 ETHADDR_LEN, 4#8, htons op, local_mac,
    htonl local_ip, dmac, htonl dip⟩

/-- `net_tx_arp` once it has a buffer. -/
def sendArp (m : Mbuf) (hdr : Arp) : Kern World Int := do
  let (arphdr, m) ← onMbuf (mbufput m 28)
  net_tx_eth (m.store arphdr hdr.bytes) ETHTYPE_ARP
  pure 0

def net_tx_arp (op : BitVec 16) (dmac : List Byte) (dip : BitVec 32) : Kern World Int := do
  match ← mbufalloc MBUF_DEFAULT_HEADROOM with
  | none => pure (-1)
  | some m => sendArp m (arpHeader op dmac dip)

/-- What `copyin` finds at the user address: the bytes, or nothing if it fails. -/
abbrev UserBuf := Nat → Option (List Byte)

/-- `sockwrite` once it has a buffer. `n` is an `int`; `mbufput` takes it as an `unsigned int` and
`copyin` as a `uint64`. -/
def sockwriteTo (m : Mbuf) (si : Sock) (user : UserBuf) (n : Int) : Kern World Int := do
  let (p, m) ← onMbuf (mbufput m (uint n))
  match user (uint64 n) with
  | none => do
    mbuffree m
    pure (-1)
  | some bs => do
    net_tx_udp (m.store p bs) si.raddr si.lport si.rport
    pure n

def sockwrite (si : Sock) (user : UserBuf) (n : Int) : Kern World Int := do
  match ← mbufalloc MBUF_DEFAULT_HEADROOM with
  | none => pure (-1)
  | some m => sockwriteTo m si user n

/-! ### Receiving -/

/-- The socket takes datagrams from this address and port: it is connected to them, or it
listens. -/
def Sock.takes (si : Sock) (raddr : BitVec 32) (lport rport : BitVec 16) : Prop :=
  (si.raddr = raddr ∧ si.lport = lport ∧ si.rport = rport) ∨
    (si.listening = true ∧ si.lport = lport ∧ si.raddr = 0#32)
  deriving Decidable

/-- The walk of `sockrecvudp` along the list: the first socket that takes the datagram queues it. -/
def deliver (m : Mbuf) (raddr : BitVec 32) (lport rport : BitVec 16) :
    List Sock → Option (List Sock)
  | [] => none
  | si :: rest =>
    if si.takes raddr lport rport then some ({ si with rxq := si.rxq ++ [m] } :: rest)
    else (deliver m raddr lport rport rest).map (si :: ·)

variable {m : Mbuf} {raddr : BitVec 32} {lport rport : BitVec 16} {sockets : List Sock}

theorem deliver_eq_none (h : deliver m raddr lport rport sockets = none) :
    ∀ si ∈ sockets, ¬ si.takes raddr lport rport := by
  induction sockets with
  | nil => exact fun si hsi => absurd hsi (by simp)
  | cons sj rest ih =>
    rw [deliver] at h
    split at h
    · exact absurd h (by simp)
    · rename_i hno
      intro si hsi
      rcases List.mem_cons.mp hsi with rfl | hsi
      · exact hno
      · exact ih (Option.map_eq_none_iff.mp h) si hsi

theorem deliver_eq_some {sockets' : List Sock}
    (h : deliver m raddr lport rport sockets = some sockets') :
    ∃ before si after, sockets = before ++ si :: after ∧
      sockets' = before ++ { si with rxq := si.rxq ++ [m] } :: after ∧
      si.takes raddr lport rport ∧ ∀ sj ∈ before, ¬ sj.takes raddr lport rport := by
  induction sockets generalizing sockets' with
  | nil => exact absurd h (by simp [deliver])
  | cons sj rest ih =>
    rw [deliver] at h
    split at h
    · rename_i htakes
      cases h
      exact ⟨[], sj, rest, rfl, rfl, htakes, fun _ hmem => absurd hmem (by simp)⟩
    rename_i hno
    obtain ⟨rest', hrest, rfl⟩ := Option.map_eq_some_iff.mp h
    obtain ⟨before, si, after, rfl, rfl, htakes, hbefore⟩ := ih hrest
    refine ⟨sj :: before, si, after, rfl, rfl, htakes, fun x hx => ?_⟩
    rcases List.mem_cons.mp hx with rfl | hx
    · exact hno
    · exact hbefore x hx

def sockrecvudp (m : Mbuf) (raddr : BitVec 32) (lport rport : BitVec 16) : Kern World Unit := do
  let w ← .get
  match deliver m raddr lport rport w.sockets with
  | none => mbuffree m
  | some sockets => .modify fun w => { w with sockets }

def net_rx_arp (m : Mbuf) : Kern World Unit :=
  match mbufpull m 28 with
  | (none, m) => mbuffree m
  | (some p, m) => do
    let arphdr := Arp.ofBytes (← m.readAt p 28)
    if ntohs arphdr.hrd ≠ ARP_HRD_ETHER ∨ ntohs arphdr.pro ≠ ETHTYPE_IP ∨
        arphdr.hln ≠ BitVec.ofNat 8 ETHADDR_LEN ∨ arphdr.pln ≠ 4#8 then mbuffree m
    else if ntohs arphdr.op ≠ ARP_OP_REQUEST ∨ ntohl arphdr.tip ≠ local_ip then mbuffree m
    else do
      let _ ← net_tx_arp ARP_OP_REPLY arphdr.sha (ntohl arphdr.sip)
      mbuffree m

/-- The length is a `uint16`, also when the size of the header is taken off. -/
def net_rx_udp (m : Mbuf) (len : BitVec 16) (iphdr : Ip) : Kern World Unit :=
  match mbufpull m 8 with
  | (none, m) => mbuffree m
  | (some p, m) => do
    let udphdr := Udp.ofBytes (← m.readAt p 8)
    if ntohs udphdr.ulen ≠ len then mbuffree m
    else
      let len := len - 8#16
      if len.toNat > m.len then mbuffree m
      else
        let m := (mbuftrim m (m.len - len.toNat)).2
        sockrecvudp m (ntohl iphdr.ip_src) (ntohs udphdr.dport) (ntohs udphdr.sport)

def net_rx_ip (m : Mbuf) : Kern World Unit :=
  match mbufpull m 20 with
  | (none, m) => mbuffree m
  | (some p, m) => do
    let bs ← m.readAt p 20
    let iphdr := Ip.ofBytes bs
    if iphdr.ip_vhl ≠ (4#8 <<< 4) ||| (20#8 >>> 2) then mbuffree m
    else if in_cksum bs ≠ 0#16 then mbuffree m
    else if htons iphdr.ip_off ≠ 0#16 then mbuffree m
    else if htonl iphdr.ip_dst ≠ local_ip then mbuffree m
    else if iphdr.ip_p ≠ IPPROTO_UDP then mbuffree m
    else net_rx_udp m (ntohs iphdr.ip_len - 20#16) iphdr

def net_rx (m : Mbuf) : Kern World Unit :=
  match mbufpull m 14 with
  | (none, m) => mbuffree m
  | (some p, m) => do
    let ethhdr := Eth.ofBytes (← m.readAt p 14)
    let type := ntohs ethhdr.type
    if type = ETHTYPE_IP then net_rx_ip m
    else if type = ETHTYPE_ARP then net_rx_arp m
    else mbuffree m

/-- What the driver gives to `net_rx`: an mbuf from `mbufalloc(0)` that the device has written a
frame to. -/
def received (page : Nat) (frame : List Byte) : Mbuf where
  page := page
  head := page + 20
  len := frame.length
  buf := frame

end Yyds.Net
