import Yyds.Lib.Kern

/-! Packet buffers, byte order, packet headers and the checksum of `net.c` and `net.h`. -/
namespace Yyds.Net

open Lib

abbrev Byte := BitVec 8

def MBUF_SIZE : Nat := 2048
def MBUF_DEFAULT_HEADROOM : Nat := 128
def ETHADDR_LEN : Nat := 6
def ETHTYPE_IP : BitVec 16 := 0x0800#16
def ETHTYPE_ARP : BitVec 16 := 0x0806#16
def IPPROTO_UDP : Byte := 17#8
def ARP_HRD_ETHER : BitVec 16 := 1#16
def ARP_OP_REQUEST : BitVec 16 := 1#16
def ARP_OP_REPLY : BitVec 16 := 2#16

/-! ### Packet buffers -/

/-- `struct mbuf`: the page it is in, the address `head`, and the bytes of `buf`. What comes in from
the device has as many bytes as were received. -/
structure Mbuf where
  page : Nat
  head : Nat
  len : Nat
  buf : List Byte

/-- The address of `buf`, which stands after the fields `next`, `head` and `len`. -/
def Mbuf.base (m : Mbuf) : Nat := m.page + 20

/-- The bytes from `head` on. -/
def Mbuf.frame (m : Mbuf) : List Byte := (m.buf.drop (m.head - m.base)).take m.len

/-- Bytes are written to the address `p`. -/
def Mbuf.store (m : Mbuf) (p : Nat) (bs : List Byte) : Mbuf :=
  { m with buf := m.buf.take (p - m.base) ++ bs ++ m.buf.drop (p - m.base + bs.length) }

/-- The sum of two `unsigned int` -/
def add32 (a b : Nat) : Nat := if a + b < 2 ^ 32 then a + b else a + b - 2 ^ 32

/-- An address and an offset -/
def add64 (a b : Nat) : Nat := if a + b < 2 ^ 64 then a + b else a + b - 2 ^ 64

def sub64 (a b : Nat) : Nat := if b ≤ a then a - b else a + 2 ^ 64 - b

/-- Strips data from the start. -/
def mbufpull (m : Mbuf) (len : Nat) : Option Nat × Mbuf :=
  if m.len < len then (none, m)
  else (some m.head, { m with len := m.len - len, head := add64 m.head len })

def mbufpush (m : Mbuf) (len : Nat) : Except String (Nat × Mbuf) :=
  let head := sub64 m.head len
  if head < m.base then .error "mbufpush" else .ok (head, { m with head, len := add32 m.len len })

def mbufput (m : Mbuf) (len : Nat) : Except String (Nat × Mbuf) :=
  let tmp := add64 m.head m.len
  let len := add32 m.len len
  if len > MBUF_SIZE then .error "mbufput" else .ok (tmp, { m with len })

def mbuftrim (m : Mbuf) (len : Nat) : Option Nat × Mbuf :=
  if len > m.len then (none, m)
  else (some (add64 m.head (m.len - len)), { m with len := m.len - len })

/-- What `mbufalloc` makes of a page. -/
def newMbuf (page headroom : Nat) : Mbuf where
  page := page
  head := page + 20 + headroom
  len := 0
  buf := List.replicate MBUF_SIZE 0

/-! ### Byte order -/

def bswaps (val : BitVec 16) : BitVec 16 :=
  ((val &&& 0x00ff#16) <<< 8) ||| ((val &&& 0xff00#16) >>> 8)

def bswapl (val : BitVec 32) : BitVec 32 :=
  ((val &&& 0x000000ff#32) <<< 24) ||| ((val &&& 0x0000ff00#32) <<< 8) |||
    ((val &&& 0x00ff0000#32) >>> 8) ||| ((val &&& 0xff000000#32) >>> 24)

def ntohs := bswaps
def ntohl := bswapl
def htons := bswaps
def htonl := bswapl

/-- The number in two bytes, the low one first. -/
def word (lo hi : Byte) : BitVec 16 := lo.setWidth 16 ||| (hi.setWidth 16 <<< 8)

def load16 (bs : List Byte) (i : Nat) : BitVec 16 := word (bs.getD i 0) (bs.getD (i + 1) 0)

def load32 (bs : List Byte) (i : Nat) : BitVec 32 :=
  (load16 bs i).setWidth 32 ||| ((load16 bs (i + 2)).setWidth 32 <<< 16)

def store16 (v : BitVec 16) : List Byte := [v.setWidth 8, (v >>> 8).setWidth 8]

def store32 (v : BitVec 32) : List Byte :=
  [v.setWidth 8, (v >>> 8).setWidth 8, (v >>> 16).setWidth 8, (v >>> 24).setWidth 8]

theorem bswaps_bswaps (v : BitVec 16) : bswaps (bswaps v) = v := by
  ext i hi
  simp only [bswaps]
  interval_cases i <;> simp

theorem bswapl_bswapl (v : BitVec 32) : bswapl (bswapl v) = v := by
  ext i hi
  simp only [bswapl]
  interval_cases i <;> simp

theorem word_store (v : BitVec 16) : word (v.setWidth 8) ((v >>> 8).setWidth 8) = v := by
  ext i hi
  simp only [word]
  interval_cases i <;> simp

theorem word_store32 (v : BitVec 32) :
    (word (v.setWidth 8) ((v >>> 8).setWidth 8)).setWidth 32 |||
      ((word ((v >>> 16).setWidth 8) ((v >>> 24).setWidth 8)).setWidth 32 <<< 16) = v := by
  ext i hi
  simp only [word]
  interval_cases i <;> simp

theorem load16_append_right (as bs : List Byte) (i : Nat) :
    load16 (as ++ bs) (as.length + i) = load16 bs i := by
  simp only [load16, List.getD_eq_getElem?_getD, Nat.add_assoc,
    List.getElem?_append_right (Nat.le_add_right _ _), Nat.add_sub_cancel_left]

theorem load16_append_left {as : List Byte} (bs : List Byte) {i : Nat} (h : i + 1 < as.length) :
    load16 (as ++ bs) i = load16 as i := by
  simp only [load16, List.getD_eq_getElem?_getD, List.getElem?_append_left h,
    List.getElem?_append_left (Nat.lt_of_succ_lt h)]

/-! ### Headers -/

/-- `struct eth` -/
structure Eth where
  dhost : List Byte
  shost : List Byte
  type : BitVec 16

/-- `struct ip` -/
structure Ip where
  ip_vhl : Byte
  ip_tos : Byte
  ip_len : BitVec 16
  ip_id : BitVec 16
  ip_off : BitVec 16
  ip_ttl : Byte
  ip_p : Byte
  ip_sum : BitVec 16
  ip_src : BitVec 32
  ip_dst : BitVec 32

/-- `struct udp` -/
structure Udp where
  sport : BitVec 16
  dport : BitVec 16
  ulen : BitVec 16
  sum : BitVec 16

/-- `struct arp` -/
structure Arp where
  hrd : BitVec 16
  pro : BitVec 16
  hln : Byte
  pln : Byte
  op : BitVec 16
  sha : List Byte
  sip : BitVec 32
  tha : List Byte
  tip : BitVec 32

/-- The bytes of a header in memory, in the order of its fields. -/
def Eth.bytes (h : Eth) : List Byte := h.dhost ++ h.shost ++ store16 h.type

def Eth.ofBytes (bs : List Byte) : Eth :=
  ⟨bs.take ETHADDR_LEN, (bs.drop ETHADDR_LEN).take ETHADDR_LEN, load16 bs 12⟩

def Ip.bytes (h : Ip) : List Byte :=
  [h.ip_vhl, h.ip_tos] ++ store16 h.ip_len ++ store16 h.ip_id ++ store16 h.ip_off ++
    [h.ip_ttl, h.ip_p] ++ store16 h.ip_sum ++ store32 h.ip_src ++ store32 h.ip_dst

def Ip.ofBytes (bs : List Byte) : Ip where
  ip_vhl := bs.getD 0 0
  ip_tos := bs.getD 1 0
  ip_len := load16 bs 2
  ip_id := load16 bs 4
  ip_off := load16 bs 6
  ip_ttl := bs.getD 8 0
  ip_p := bs.getD 9 0
  ip_sum := load16 bs 10
  ip_src := load32 bs 12
  ip_dst := load32 bs 16

def Udp.bytes (h : Udp) : List Byte :=
  store16 h.sport ++ store16 h.dport ++ store16 h.ulen ++ store16 h.sum

def Udp.ofBytes (bs : List Byte) : Udp :=
  ⟨load16 bs 0, load16 bs 2, load16 bs 4, load16 bs 6⟩

def Arp.bytes (h : Arp) : List Byte :=
  store16 h.hrd ++ store16 h.pro ++ [h.hln, h.pln] ++ store16 h.op ++ h.sha ++ store32 h.sip ++
    h.tha ++ store32 h.tip

def Arp.ofBytes (bs : List Byte) : Arp where
  hrd := load16 bs 0
  pro := load16 bs 2
  hln := bs.getD 4 0
  pln := bs.getD 5 0
  op := load16 bs 6
  sha := (bs.drop 8).take ETHADDR_LEN
  sip := load32 bs 14
  tha := (bs.drop 18).take ETHADDR_LEN
  tip := load32 bs 24

@[simp] theorem Ip.length_bytes (h : Ip) : h.bytes.length = 20 := rfl

@[simp] theorem Udp.length_bytes (h : Udp) : h.bytes.length = 8 := rfl

theorem Arp.length_bytes {h : Arp} (hsha : h.sha.length = 6) (htha : h.tha.length = 6) :
    h.bytes.length = 28 := by
  simp [Arp.bytes, store16, store32, hsha, htha]

theorem Ip.ofBytes_bytes (h : Ip) : Ip.ofBytes h.bytes = h := by
  simp [Ip.ofBytes, Ip.bytes, load16, load32, store16, store32, word_store, word_store32]

theorem Udp.ofBytes_bytes (h : Udp) : Udp.ofBytes h.bytes = h := by
  simp [Udp.ofBytes, Udp.bytes, load16, store16, word_store]

/-! ### The checksum -/

/-- The loop of `in_cksum`: the words are summed up in 32 bits, and the odd byte is added. -/
def sumWords (sum : BitVec 32) : List Byte → BitVec 32
  | lo :: hi :: rest => sumWords (sum + (word lo hi).setWidth 32) rest
  | [b] => sum + b.setWidth 32
  | [] => sum

def in_cksum (addr : List Byte) : BitVec 16 :=
  let sum := sumWords 0 addr
  let sum := (sum &&& 0xffff#32) + (sum >>> 16)
  let sum := sum + (sum >>> 16)
  (~~~sum).setWidth 16

/-- The same sum without a bound. -/
def total : List Byte → Nat
  | lo :: hi :: rest => (word lo hi).toNat + total rest
  | [b] => b.toNat
  | [] => 0

theorem sumWords_toNat (bs : List Byte) (sum : BitVec 32) :
    (sumWords sum bs).toNat = (sum.toNat + total bs) % 2 ^ 32 := by
  induction bs using total.induct generalizing sum with
  | case1 lo hi rest ih =>
    rw [sumWords, total, ih, BitVec.toNat_add, BitVec.toNat_setWidth]
    omega
  | case2 b =>
    rw [sumWords, total, BitVec.toNat_add, BitVec.toNat_setWidth]
    omega
  | case3 =>
    rw [sumWords, total]
    omega

/-- The carries are added back, twice. -/
def fold (n : Nat) : Nat := (n % 65536 + n / 65536 + (n % 65536 + n / 65536) / 65536) % 65536

variable {n : Nat}

theorem fold_eq (h0 : 0 < n) (hn : n < 2 ^ 20) : fold n = (n - 1) % 65535 + 1 := by
  -- `n = 65536 q + r` has the remainder of `q + r`
  obtain ⟨q, r, hr, rfl⟩ : ∃ q r, r < 65536 ∧ n = 65536 * q + r :=
    ⟨n / 65536, n % 65536, Nat.mod_lt _ (by decide), (Nat.div_add_mod n 65536).symm⟩
  have hmod : (65536 * q + r) % 65536 = r := by omega
  have hdiv : (65536 * q + r) / 65536 = q := by omega
  rw [fold, hmod, hdiv]
  by_cases hc : r + q < 65536
  · have hcarry : (r + q) / 65536 = 0 := by omega
    omega
  · have hcarry : (r + q) / 65536 = 1 := by omega
    omega

theorem in_cksum_toNat {bs : List Byte} (h : total bs < 2 ^ 20) :
    (in_cksum bs).toNat = 65535 - fold (total bs) := by
  have hsum : (sumWords 0 bs).toNat = total bs := by
    rw [sumWords_toNat]
    simp
    omega
  have hand : ∀ x : BitVec 32, (x &&& 0xffff#32).toNat = x.toNat % 65536 := by
    intro x
    exact Nat.and_two_pow_sub_one_eq_mod x.toNat 16
  unfold in_cksum
  rw [BitVec.toNat_setWidth, BitVec.toNat_not, BitVec.toNat_add, BitVec.toNat_ushiftRight,
    BitVec.toNat_add, BitVec.toNat_ushiftRight, hand, hsum, Nat.shiftRight_eq_div_pow,
    Nat.shiftRight_eq_div_pow, fold]
  omega

/-- The checksum of a sum that holds its own checksum is 0. -/
theorem fold_self (h0 : 0 < n) (hn : n ≤ 9 * 65535) : 65535 - fold (n + (65535 - fold n)) = 0 := by
  rw [fold_eq h0 (by omega), fold_eq (by omega) (by omega)]
  omega

/-- The words of a header without the checksum. -/
def Ip.others (h : Ip) : Nat :=
  (word h.ip_vhl h.ip_tos).toNat + h.ip_len.toNat + h.ip_id.toNat + h.ip_off.toNat +
    (word h.ip_ttl h.ip_p).toNat + total (store32 h.ip_src) + total (store32 h.ip_dst)

theorem total_bytes (h : Ip) : total h.bytes = h.others + h.ip_sum.toNat := by
  simp only [Ip.others, Ip.bytes, store16, store32, total, List.cons_append, List.nil_append,
    word_store]
  omega

theorem others_le (h : Ip) : h.others ≤ 9 * 65535 := by
  have hstore : ∀ v : BitVec 32, total (store32 v) ≤ 2 * 65535 := by
    simp only [store32, total]
    omega
  have h6 := hstore h.ip_src
  have h7 := hstore h.ip_dst
  unfold Ip.others
  omega

theorem others_pos {h : Ip} (hvhl : h.ip_vhl ≠ 0#8) : 0 < h.others := by
  have hlow : (word h.ip_vhl h.ip_tos).setWidth 8 = h.ip_vhl := by
    ext i hi
    simp only [word]
    interval_cases i <;> simp
  have hfirst : 0 < (word h.ip_vhl h.ip_tos).toNat := by
    refine Nat.pos_of_ne_zero fun hzero => hvhl ?_
    rw [← hlow, BitVec.eq_of_toNat_eq (y := 0#16) hzero]
    rfl
  unfold Ip.others
  omega

/-- A header with the checksum of the header without one has the checksum 0. -/
theorem in_cksum_self {h : Ip} (hvhl : h.ip_vhl ≠ 0#8) (hsum : h.ip_sum = 0#16) :
    in_cksum { h with ip_sum := in_cksum h.bytes }.bytes = 0#16 := by
  have hle := others_le h
  have hbefore := total_bytes h
  rw [hsum, BitVec.toNat_zero, Nat.add_zero] at hbefore
  have hc : (in_cksum h.bytes).toNat = 65535 - fold h.others := by
    rw [in_cksum_toNat (by omega), hbefore]
  have hafter : total { h with ip_sum := in_cksum h.bytes }.bytes =
      h.others + (65535 - fold h.others) := by
    rw [total_bytes, ← hc]
    rfl
  refine BitVec.eq_of_toNat_eq ?_
  rw [in_cksum_toNat (by omega), hafter]
  exact fold_self (others_pos hvhl) hle

/-! ### Buffers that are written -/

/-- A buffer of the full size whose data lies inside. -/
structure Mbuf.Room (m : Mbuf) : Prop where
  low : m.base ≤ m.head
  high : m.head + m.len ≤ m.base + MBUF_SIZE
  size : m.buf.length = MBUF_SIZE
  fits : m.base + MBUF_SIZE < 2 ^ 64

/-- A header is put before the data. -/
def Mbuf.prepend (m : Mbuf) (hdr : List Byte) : Mbuf :=
  { m with head := m.head - hdr.length, len := m.len + hdr.length }.store (m.head - hdr.length) hdr

section Room

variable {m : Mbuf} {hdr : List Byte} {l : Nat}

theorem push_eq (hl : m.base + l ≤ m.head) (hlen : m.len + l < 2 ^ 32) :
    mbufpush m l = .ok (m.head - l, { m with head := m.head - l, len := m.len + l }) := by
  have hhead : sub64 m.head l = m.head - l := if_pos (by omega)
  have hadd : add32 m.len l = m.len + l := if_pos hlen
  unfold mbufpush
  rw [hhead, hadd]
  exact if_neg (by omega)

theorem Mbuf.Room.prepend (h : m.Room) (hl : m.base + hdr.length ≤ m.head) :
    (m.prepend hdr).Room := by
  have hhigh := h.high
  have hsize := h.size
  refine ⟨?_, ?_, ?_, h.fits⟩
  · change m.base ≤ m.head - hdr.length
    omega
  · change m.head - hdr.length + (m.len + hdr.length) ≤ m.base + MBUF_SIZE
    omega
  · simp only [Mbuf.prepend, Mbuf.store, Mbuf.base, List.length_append, List.length_take,
      List.length_drop] at *
    omega

theorem Mbuf.Room.frame_prepend (h : m.Room) (hl : m.base + hdr.length ≤ m.head) :
    (m.prepend hdr).frame = hdr ++ m.frame := by
  have hhigh := h.high
  have hsize := h.size
  set o := m.head - m.base with ho
  have hoff : m.head - hdr.length - m.base = o - hdr.length := by omega
  have htake : (m.buf.take (o - hdr.length)).length = o - hdr.length := by
    rw [List.length_take]
    omega
  change ((m.buf.take (m.head - hdr.length - m.base) ++ hdr ++
    m.buf.drop (m.head - hdr.length - m.base + hdr.length)).drop
      (m.head - hdr.length - m.base)).take (m.len + hdr.length) = _
  rw [hoff, show o - hdr.length + hdr.length = o by omega, List.append_assoc,
    List.drop_append_of_le_length (by omega), List.drop_of_length_le (by omega), List.nil_append,
    Nat.add_comm m.len, List.take_length_add_append]
  rfl

end Room

/-! ### Buffers that are read -/

/-- `pre` has been read and `rest` is left. -/
structure Mbuf.At (m : Mbuf) (pre rest : List Byte) : Prop where
  buf : m.buf = pre ++ rest
  head : m.head = m.base + pre.length
  len : m.len = rest.length
  fits : m.base + (pre.length + rest.length) < 2 ^ 64

section Cursor

variable {m : Mbuf} {pre hdr rest : List Byte}

theorem Mbuf.At.pull_none (h : m.At pre rest) (hn : rest.length < n) :
    mbufpull m n = (none, m) := by
  rw [mbufpull, h.len, if_pos hn]

/-- The buffer after a header has been pulled. -/
def Mbuf.pulled (m : Mbuf) (n : Nat) : Mbuf :=
  { m with len := m.len - n, head := m.head + n }

theorem Mbuf.At.pull (h : m.At pre (hdr ++ rest)) (hn : hdr.length = n) :
    mbufpull m n = (some m.head, m.pulled n) := by
  have hhead := h.head
  have hlen := h.len
  have hfits := h.fits
  rw [List.length_append] at hlen hfits
  rw [mbufpull, if_neg (by omega), add64, if_pos (by omega), Mbuf.pulled]

theorem Mbuf.At.pulled (h : m.At pre (hdr ++ rest)) (hn : hdr.length = n) :
    (m.pulled n).At (pre ++ hdr) rest := by
  have hhead := h.head
  have hlen := h.len
  have hfits := h.fits
  rw [List.length_append] at hlen hfits
  refine ⟨?_, ?_, ?_, ?_⟩
  · rw [List.append_assoc]
    exact h.buf
  · change m.head + n = m.base + (pre ++ hdr).length
    rw [List.length_append]
    omega
  · change m.len - n = rest.length
    omega
  · rw [List.length_append]
    change m.base + _ < _
    omega

theorem Mbuf.At.frame_take (h : m.At pre rest) (n : Nat) :
    ({ m with len := n } : Mbuf).frame = rest.take n := by
  have hhead : m.head - m.base = pre.length := by
    rw [h.head, Nat.add_sub_cancel_left]
  change (m.buf.drop (m.head - m.base)).take n = rest.take n
  rw [hhead, h.buf, List.drop_left]

end Cursor

end Yyds.Net
