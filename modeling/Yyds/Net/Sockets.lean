import Yyds.Net.Stack

/-! The socket calls of `sysnet.c`, with `sys_connect`, over the list of sockets and the open
descriptors. -/
namespace Yyds.Net

open Lib Sock Function

def AF_INET : Int := 2
def SOCK_DGRAM : Int := 1
def SOCK_STREAM : Int := 2

/-- The triple of the socket. -/
def Sock.Exact (si : Sock) (raddr : BitVec 32) (lport rport : BitVec 16) : Prop :=
  si.raddr = raddr ∧ si.lport = lport ∧ si.rport = rport
  deriving Decidable

/-- The socket list, the descriptors that are open on a socket, each with the page of its socket,
and the sockets whose local port is from a `bind` that succeeded. Each descriptor has its own
file. -/
structure Table where
  sockets : List Sock
  ofile : List (Nat × Nat)
  bound : List Nat

/-- How `filealloc`, `kalloc` and `fdalloc` answer a call. -/
structure Answers where
  file : Bool
  page : Option Nat
  fd : Option Nat

inductive SockOp
  | socket (domain type : Int) (ans : Answers)
  | bind (fd : Nat) (port : Int)
  | connect (raddr lport rport : Int) (ans : Answers)
  | listen (fd : Nat)
  | accept (fd : Nat) (killed : Bool) (ans : Answers)
  | close (fd : Nat)
  | datagram (m : Mbuf) (raddr : BitVec 32) (lport rport : BitVec 16)

/-- Why a call does not return. -/
inductive Stop
  | kerneltrap
  | asleep
  deriving DecidableEq

namespace Table

def empty : Table := ⟨[], [], []⟩

/-- The sockets that a descriptor is open on. -/
def opened (s : Table) : List Nat := s.ofile.map Prod.snd

/-- `f->sock` for a descriptor that `argfd` finds. -/
def argfd (s : Table) (fd : Nat) : Option Sock :=
  (s.ofile.lookup fd).bind fun page => s.sockets.find? fun si => si.page = page

def update (s : Table) (page : Nat) (f : Sock → Sock) : Table :=
  { s with sockets := s.sockets.map fun si => if si.page = page then f si else si }

def sockclose (s : Table) (page : Nat) : Table :=
  { s with
    sockets := s.sockets.eraseP fun si => si.page = page
    bound := s.bound.filter (· ≠ page) }

/-- The end of `sys_socket`, `sys_connect` and `sys_accept`: the socket is put in the list, and
closed again if there is no descriptor for it. -/
def install (s : Table) (si : Sock) (fd : Option Nat) : Int × Table :=
  let s := { s with sockets := si :: s.sockets }
  match fd with
  | none => (-1, s.sockclose si.page)
  | some fd => (fd, { s with ofile := (fd, si.page) :: s.ofile })

def sys_socket (s : Table) (domain type : Int) (ans : Answers) : Int × Table :=
  if domain ≠ AF_INET then (-1, s)
  else if type ≠ SOCK_DGRAM ∧ type ≠ SOCK_STREAM then (-1, s)
  else if !ans.file then (-1, s)
  else match ans.page with
    | none => (-1, s)
    | some page => s.install ⟨page, 0#32, 0#16, 0#16, [], type, false⟩ ans.fd

/-- The ports in the list are compared with the `int`, its low 16 bits are stored. -/
def sys_bind (s : Table) (fd : Nat) (port : Int) : Int × Table :=
  match s.argfd fd with
  | none => (-1, s)
  | some si =>
    if ∃ pos ∈ s.sockets, pos.page ≠ si.page ∧ (pos.lport.toNat : Int) = port then (-1, s)
    else
      (0, { s.update si.page fun si => { si with lport := BitVec.ofInt 16 port } with
        bound := si.page :: s.bound })

/-- `sys_connect` with `sockalloc`. The fields that it does not set are as `kalloc` leaves the page.
If the triple is in use, the page is freed, and `fileclose` then walks a queue whose head is the
filling of a free page. -/
def sys_connect (s : Table) (raddr lport rport : Int) (ans : Answers) :
    Except Stop (Int × Table) :=
  let raddr := BitVec.ofInt 32 raddr
  let lport := BitVec.ofInt 16 lport
  let rport := BitVec.ofInt 16 rport
  if !ans.file then .ok (-1, s)
  else match ans.page with
    | none => .ok (-1, s)
    | some page =>
      if ∃ pos ∈ s.sockets, pos.Exact raddr lport rport then .error .kerneltrap
      else .ok (s.install ⟨page, raddr, lport, rport, [], 0x05050505, true⟩ ans.fd)

def sys_listen (s : Table) (fd : Nat) : Int × Table :=
  match s.argfd fd with
  | none => (-1, s)
  | some si =>
    if si.type ≠ SOCK_STREAM ∨ si.lport = 0#16 then (-1, s)
    else (0, s.update si.page fun si => { si with listening := true })

/-- The remote address and port of the new socket are not set. -/
def sys_accept (s : Table) (fd : Nat) (killed : Bool) (ans : Answers) :
    Except Stop (Int × Table) :=
  match s.argfd fd with
  | none => .ok (-1, s)
  | some si =>
    if !si.listening then .ok (-1, s)
    else if si.rxq.isEmpty ∧ !killed then .error .asleep
    else if killed then .ok (-1, s)
    else if !ans.file then .ok (-1, s)
    else match ans.page with
      | none => .ok (-1, s)
      | some page =>
        .ok ((s.update si.page fun si => { si with rxq := [] }).install
          ⟨page, 0x05050505#32, si.lport, 0x0505#16, si.rxq, SOCK_STREAM, false⟩ ans.fd)

def sys_close (s : Table) (fd : Nat) : Int × Table :=
  match s.ofile.lookup fd with
  | none => (-1, s)
  | some page =>
    (0, { s.sockclose page with ofile := s.ofile.eraseP fun e => e.1 = fd })

/-- `sockrecvudp` -/
def sockrecvudp (s : Table) (m : Mbuf) (raddr : BitVec 32) (lport rport : BitVec 16) : Table :=
  match deliver m raddr lport rport s.sockets with
  | none => s
  | some sockets => { s with sockets }

def exec (s : Table) : SockOp → Except Stop (Int × Table)
  | .socket domain type ans => .ok (s.sys_socket domain type ans)
  | .bind fd port => .ok (s.sys_bind fd port)
  | .connect raddr lport rport ans => s.sys_connect raddr lport rport ans
  | .listen fd => .ok (s.sys_listen fd)
  | .accept fd killed ans => s.sys_accept fd killed ans
  | .close fd => .ok (s.sys_close fd)
  | .datagram m raddr lport rport => .ok (0, s.sockrecvudp m raddr lport rport)

/-- `kalloc` gives no page that is in use, and `fdalloc` no descriptor that is. -/
def FreshAnswers (s : Table) (ans : Answers) : Prop :=
  (∀ page ∈ ans.page, page ∉ s.sockets.map Sock.page) ∧
    ∀ fd ∈ ans.fd, fd ∉ s.ofile.map Prod.fst
  deriving Decidable

def Fresh (s : Table) : SockOp → Prop
  | .socket _ _ ans | .connect _ _ _ ans | .accept _ _ ans => FreshAnswers s ans
  | _ => True

instance (s : Table) : DecidablePred (Fresh s) := fun a => by
  cases a <;> dsimp only [Fresh] <;> infer_instance

def step (s : Table) (op : SockOp) : Option Table :=
  if Fresh s op then (exec s op).toOption.map Prod.snd else none

def Step (s : Table) (op : SockOp) (t : Table) : Prop := step s op = some t

/-- `bind` is called with a port, and a socket with no remote address is connected only to a local
port that no socket has. -/
def Sound (s : Table) : SockOp → Prop
  | .bind _ port => 0 ≤ port ∧ port < 2 ^ 16
  | .connect raddr lport _ _ =>
    BitVec.ofInt 32 raddr = 0#32 → ∀ si ∈ s.sockets, si.lport ≠ BitVec.ofInt 16 lport
  | _ => True

instance (s : Table) : DecidablePred (Sound s) := fun a => by
  cases a <;> dsimp only [Sound] <;> infer_instance

end Table

/-- The socket takes datagrams to its port from everywhere, or will after `listen`. -/
def Sock.Wild (si : Sock) : Prop :=
  si.raddr = 0#32 ∧ (si.listening = true ∨ si.type = SOCK_STREAM ∧ si.lport ≠ 0#16)

/-- Two sockets, the first before the second in the list. -/
structure Apart (bound : List Nat) (si sj : Sock) : Prop where
  page : si.page ≠ sj.page
  bound : si.page ∈ bound → sj.page ∈ bound → si.lport ≠ 0#16 → sj.lport ≠ si.lport
  wild : si.Wild → sj.lport ≠ si.lport

variable {bound : List Nat} {sj : Sock} {m : Mbuf}

theorem Apart.transfer {si si' sj' : Sock} (h : Apart bound si sj)
    (hi : si'.page = si.page ∧ si'.lport = si.lport)
    (hj : sj'.page = sj.page ∧ sj'.lport = sj.lport) (hwild : si'.Wild → si.Wild) :
    Apart bound si' sj' := by
  constructor
  · rw [hi.1, hj.1]
    exact h.page
  · rw [hi.1, hj.1, hi.2, hj.2]
    exact h.bound
  · rw [hi.2, hj.2]
    exact fun hw => h.wild (hwild hw)

/-- The socket without its queue. -/
def Sock.header (si : Sock) : Sock := { si with rxq := [] }

theorem deliver_headers {raddr : BitVec 32} {lport rport : BitVec 16}
    {sockets sockets' : List Sock} (h : deliver m raddr lport rport sockets = some sockets') :
    sockets'.map header = sockets.map header := by
  obtain ⟨before, si, after, rfl, rfl, -, -⟩ := deliver_eq_some h
  simp [header]

namespace Table

structure Inv (s : Table) : Prop where
  apart : s.sockets.Pairwise (Apart s.bound)
  opened : (s.sockets.map Sock.page).Perm s.opened
  fds : (s.ofile.map Prod.fst).Nodup
  bound : ∀ page ∈ s.bound, page ∈ s.sockets.map Sock.page

variable {s t : Table} {op : SockOp} {si : Sock} {page fd : Nat}

theorem inv_empty : Inv empty :=
  ⟨List.Pairwise.nil, List.Perm.refl _, List.nodup_nil, fun _ h => absurd h (by simp [empty])⟩

/-- Nothing in the invariant is about the queues. -/
theorem Inv.of_headers (h : Inv s) (hsock : t.sockets.map header = s.sockets.map header)
    (hfile : t.ofile = s.ofile) (hbound : t.bound = s.bound) : Inv t := by
  have hpages : t.sockets.map Sock.page = s.sockets.map Sock.page := by
    have := congrArg (List.map Sock.page) hsock
    simpa [List.map_map, comp_def, header] using this
  refine ⟨?_, ?_, by rw [hfile]; exact h.fds, by rw [hbound, hpages]; exact h.bound⟩
  · have hs : (s.sockets.map header).Pairwise (Apart s.bound) :=
      List.pairwise_map.mpr (h.apart.imp fun hij => ⟨hij.page, hij.bound, hij.wild⟩)
    rw [← hsock, List.pairwise_map] at hs
    rw [hbound]
    exact hs.imp fun hij => ⟨hij.page, hij.bound, hij.wild⟩
  · rw [hpages, Table.opened, hfile]
    exact h.opened

theorem mem_of_argfd (h : s.argfd fd = some si) : si ∈ s.sockets := by
  obtain ⟨page, -, hfind⟩ := Option.bind_eq_some_iff.mp h
  exact List.mem_of_find?_eq_some hfind

theorem Inv.nodup (h : Inv s) : (s.sockets.map Sock.page).Nodup :=
  List.pairwise_map.mpr (h.apart.imp fun hij => hij.page)

theorem sockclose_cons (hpage : si.page ∉ s.bound) :
    sockclose { s with sockets := si :: s.sockets } si.page = s := by
  have hfilter : s.bound.filter (· ≠ si.page) = s.bound := by
    refine List.filter_eq_self.mpr fun x hx => ?_
    rw [decide_eq_true_eq]
    exact fun hxp => hpage (hxp ▸ hx)
  rw [sockclose, hfilter, List.eraseP_cons_of_pos (by simp)]

theorem Inv.install (h : Inv s) (hpage : si.page ∉ s.sockets.map Sock.page) {fd : Option Nat}
    (hfd : ∀ d ∈ fd, d ∉ s.ofile.map Prod.fst)
    (hwild : si.Wild → ∀ sj ∈ s.sockets, sj.lport ≠ si.lport) : Inv (s.install si fd).2 := by
  have hbound : si.page ∉ s.bound := fun hmem => hpage (h.bound _ hmem)
  cases fd with
  | none =>
    have heq : (s.install si none).2 = s := sockclose_cons hbound
    rw [heq]
    exact h
  | some d =>
    refine ⟨List.pairwise_cons.mpr ⟨fun sj hsj => ?_, h.apart⟩, h.opened.cons _, ?_, ?_⟩
    · exact ⟨fun heq => hpage (heq ▸ List.mem_map_of_mem hsj), fun hmem => absurd hmem hbound,
        fun hw => hwild hw sj hsj⟩
    · exact List.nodup_cons.mpr ⟨hfd d rfl, h.fds⟩
    · exact fun p hp => List.mem_cons_of_mem _ (h.bound p hp)

theorem Inv.map (h : Inv s) {g : Sock → Sock} (hpage : ∀ si, (g si).page = si.page)
    (hbound : ∀ p ∈ bound, p ∈ s.sockets.map Sock.page)
    (hpair : ∀ si ∈ s.sockets, ∀ sj ∈ s.sockets, Apart s.bound si sj → Apart bound (g si) (g sj)) :
    Inv { s with sockets := s.sockets.map g, bound } := by
  have hpages : (s.sockets.map g).map Sock.page = s.sockets.map Sock.page := by
    rw [List.map_map]
    exact List.map_congr_left fun si _ => hpage si
  refine ⟨?_, by dsimp only; rw [hpages]; exact h.opened, h.fds, by dsimp only; rwa [hpages]⟩
  exact List.pairwise_map.mpr (h.apart.imp_of_mem fun hsi hsj hij => hpair _ hsi _ hsj hij)

theorem Inv.bind (h : Inv s) {q : BitVec 16} (hsi : si ∈ s.sockets)
    (hfree : ∀ pos ∈ s.sockets, pos.page ≠ si.page → pos.lport ≠ q) :
    Inv { s.update si.page fun si => { si with lport := q } with bound := si.page :: s.bound } := by
  refine h.map (fun sj => ?_) (fun p hp => ?_) fun sj hsj sk hsk hjk => ?_
  · split <;> rfl
  · obtain rfl | hp := List.mem_cons.mp hp
    · exact List.mem_map_of_mem hsi
    · exact h.bound p hp
  · by_cases hj : sj.page = si.page
    · have hk : sk.page ≠ si.page := fun hk => hjk.page (hj.trans hk.symm)
      have hne := hfree sk hsk hk
      rw [if_pos hj, if_neg hk]
      exact ⟨hjk.page, fun _ _ _ => hne, fun _ => hne⟩
    rw [if_neg hj]
    by_cases hk : sk.page = si.page
    · have hne := (hfree sj hsj hj).symm
      rw [if_pos hk]
      exact ⟨hjk.page, fun _ _ _ => hne, fun _ => hne⟩
    · rw [if_neg hk]
      exact ⟨hjk.page,
        fun hbj hbk => hjk.bound (List.mem_of_ne_of_mem hj hbj) (List.mem_of_ne_of_mem hk hbk),
        hjk.wild⟩

theorem Inv.listen (h : Inv s) (hsi : si ∈ s.sockets) (htype : si.type = SOCK_STREAM)
    (hport : si.lport ≠ 0#16) : Inv (s.update si.page fun si => { si with listening := true }) := by
  refine h.map (fun sj => ?_) h.bound fun sj hsj sk hsk hjk => ?_
  · split <;> rfl
  · have hsame : ∀ sk : Sock, (if sk.page = si.page then { sk with listening := true } else sk).page
        = sk.page ∧ (if sk.page = si.page then { sk with listening := true } else sk).lport
        = sk.lport := fun sk => by split <;> exact ⟨rfl, rfl⟩
    refine hjk.transfer (hsame sj) (hsame sk) ?_
    split
    · rename_i hpage
      obtain rfl := List.inj_on_of_nodup_map h.nodup hsj hsi hpage
      exact fun hw => ⟨hw.1, .inr ⟨htype, hport⟩⟩
    · exact id

/-- `lookup` finds one descriptor, and `eraseP` takes that one away. -/
theorem perm_of_lookup (hfd : s.ofile.lookup fd = some page) :
    s.opened.Perm (page :: (s.ofile.eraseP fun e => e.1 = fd).map Prod.snd) := by
  obtain ⟨l1, l2, hl, hfst⟩ := List.lookup_eq_some_iff.mp hfd
  have herase : s.ofile.eraseP (fun e => e.1 = fd) = l1 ++ l2 := by
    rw [hl, List.eraseP_append_right _ fun e he => ?_, List.eraseP_cons_of_pos (by simp)]
    have hne := hfst e he
    rw [bne_iff_ne] at hne
    simpa using hne.symm
  rw [opened, herase, hl, List.map_append, List.map_append]
  exact List.perm_middle

theorem Inv.close (h : Inv s) (hfd : s.ofile.lookup fd = some page) :
    Inv { s.sockclose page with ofile := s.ofile.eraseP fun e => e.1 = fd } := by
  have hpages : (s.sockets.eraseP fun si => si.page = page).map Sock.page =
      (s.sockets.map Sock.page).erase page := by
    rw [List.erase_eq_eraseP, List.eraseP_map]
    congr 2
    funext si
    rw [comp, Bool.eq_iff_iff, decide_eq_true_eq, beq_iff_eq, eq_comm]
  refine ⟨?_, ?_, ?_, ?_⟩
  · refine (h.apart.sublist (List.eraseP_sublist)).imp fun hij => ⟨hij.page, ?_, hij.wild⟩
    exact fun hi hj => hij.bound (List.mem_filter.mp hi).1 (List.mem_filter.mp hj).1
  · dsimp only [sockclose, opened]
    rw [hpages]
    have := (h.opened.trans (perm_of_lookup hfd)).erase page
    rwa [List.erase_cons_head] at this
  · exact h.fds.sublist (List.eraseP_sublist.map _)
  · intro p hp
    obtain ⟨hp, hne⟩ := List.mem_filter.mp hp
    dsimp only [sockclose]
    rw [hpages]
    exact (List.mem_erase_of_ne (by simpa using hne)).mpr (h.bound p hp)

variable {ans : Answers} {r : Int × Table}

section
variable (h : Inv s)
include h

theorem Inv.sys_socket {domain type : Int} (hans : FreshAnswers s ans) :
    Inv (s.sys_socket domain type ans).2 := by
  unfold Table.sys_socket
  split_ifs
  · exact h
  · exact h
  · exact h
  split
  · exact h
  · rename_i page hpage
    refine h.install (hans.1 page hpage) hans.2 fun hw => ?_
    obtain hl | hl := hw.2
    · cases hl
    · exact absurd rfl hl.2

theorem Inv.sys_bind {port : Int} (hport : 0 ≤ port ∧ port < 2 ^ 16) :
    Inv (s.sys_bind fd port).2 := by
  unfold Table.sys_bind
  split
  · exact h
  rename_i si hsi
  split
  · exact h
  · rename_i hfree
    refine h.bind (mem_of_argfd hsi) fun pos hpos hne heq => hfree ⟨pos, hpos, hne, ?_⟩
    -- A port that fits into 16 bits is stored as it is.
    rw [heq, BitVec.toNat_ofInt]
    omega

theorem Inv.sys_connect {raddr lport rport : Int} (hans : FreshAnswers s ans)
    (hfree : BitVec.ofInt 32 raddr = 0#32 → ∀ si ∈ s.sockets, si.lport ≠ BitVec.ofInt 16 lport)
    (hcall : s.sys_connect raddr lport rport ans = .ok r) : Inv r.2 := by
  unfold Table.sys_connect at hcall
  dsimp only at hcall
  split at hcall
  · cases hcall
    exact h
  split at hcall
  · cases hcall
    exact h
  split at hcall
  · cases hcall
  · rename_i page hpage _
    obtain rfl := Except.ok.inj hcall
    exact h.install (hans.1 page hpage) hans.2 fun hw => hfree hw.1

theorem Inv.sys_listen : Inv (s.sys_listen fd).2 := by
  unfold Table.sys_listen
  split
  · exact h
  rename_i si hsi
  split
  · exact h
  · rename_i hok
    rw [not_or, not_not] at hok
    exact h.listen (mem_of_argfd hsi) hok.1 hok.2

theorem Inv.sys_accept {killed : Bool} (hans : FreshAnswers s ans)
    (hcall : s.sys_accept fd killed ans = .ok r) : Inv r.2 := by
  unfold Table.sys_accept at hcall
  split at hcall
  · cases hcall
    exact h
  rename_i si hsi
  split_ifs at hcall
  · cases hcall
    exact h
  · cases hcall
    exact h
  · cases hcall
    exact h
  split at hcall
  · cases hcall
    exact h
  rename_i page hpage
  obtain rfl := Except.ok.inj hcall
  have hheaders : (s.update si.page fun si => { si with rxq := [] }).sockets.map header =
      s.sockets.map header := by
    rw [update, List.map_map]
    refine List.map_congr_left fun sj _ => ?_
    dsimp only [comp]
    split <;> rfl
  refine (h.of_headers hheaders rfl rfl).install ?_ hans.2 fun hw => ?_
  · have hpages := congrArg (List.map Sock.page) hheaders
    rw [List.map_map, List.map_map] at hpages
    exact fun hmem => hans.1 page hpage (hpages ▸ hmem)
  · have hzero : 0x05050505#32 = 0#32 := hw.1
    cases hzero

theorem Inv.sys_close : Inv (s.sys_close fd).2 := by
  unfold Table.sys_close
  split
  · exact h
  · rename_i page hfd
    exact h.close hfd

theorem Inv.sockrecvudp {raddr : BitVec 32} {lport rport : BitVec 16} :
    Inv (s.sockrecvudp m raddr lport rport) := by
  unfold Table.sockrecvudp
  split
  · exact h
  · rename_i sockets hd
    exact h.of_headers (deliver_headers hd) rfl rfl

end

theorem inv_step (hst : Guarded Sound Step s op t) (h : Inv s) : Inv t := by
  obtain ⟨hsound, hst⟩ := hst
  unfold Step step at hst
  rw [Option.ite_none_right_eq_some, Option.map_eq_some_iff] at hst
  obtain ⟨hfresh, r, hr, rfl⟩ := hst
  replace hr : exec s op = .ok r := by
    cases hx : exec s op with
    | error e =>
      rw [hx] at hr
      cases hr
    | ok r' =>
      rw [hx] at hr
      cases hr
      rfl
  cases op with
  | socket domain type ans =>
    obtain rfl := Except.ok.inj hr
    exact h.sys_socket hfresh
  | bind fd port =>
    obtain rfl := Except.ok.inj hr
    exact h.sys_bind hsound
  | connect raddr lport rport ans => exact h.sys_connect hfresh hsound hr
  | listen fd =>
    obtain rfl := Except.ok.inj hr
    exact h.sys_listen
  | accept fd killed ans => exact h.sys_accept hfresh hr
  | close fd =>
    obtain rfl := Except.ok.inj hr
    exact h.sys_close
  | datagram m raddr lport rport =>
    obtain rfl := Except.ok.inj hr
    exact h.sockrecvudp

/-- A datagram with the triple of some socket is queued on the first such socket. -/
theorem Inv.delivered (h : Inv s) (m : Mbuf) {raddr : BitVec 32} {lport rport : BitVec 16}
    (hex : ∃ si ∈ s.sockets, si.Exact raddr lport rport) :
    ∃ before si after, s.sockets = before ++ si :: after ∧ si.Exact raddr lport rport ∧
      (s.sockrecvudp m raddr lport rport).sockets =
        before ++ { si with rxq := si.rxq ++ [m] } :: after := by
  obtain ⟨sj, hsj, hexact⟩ := hex
  unfold Table.sockrecvudp
  split
  · rename_i hnone
    exact absurd (.inl hexact) (deliver_eq_none hnone sj hsj)
  rename_i sockets hsome
  obtain ⟨before, si, after, hl, hl', htakes, hbefore⟩ := deliver_eq_some hsome
  refine ⟨before, si, after, hl, ?_, hl'⟩
  rcases htakes with hi | ⟨hlisten, hport, haddr⟩
  · exact hi
  -- A listening socket is before no other socket with its port.
  rw [hl, List.mem_append, List.mem_cons] at hsj
  rcases hsj with hsj | rfl | hsj
  · exact absurd (.inl hexact) (hbefore sj hsj)
  · exact hexact
  · have hpair := h.apart
    rw [hl] at hpair
    have hij := (List.pairwise_cons.mp (List.pairwise_append.mp hpair).2.1).1 sj hsj
    exact absurd (hexact.2.1.trans hport.symm) (hij.wild ⟨haddr, .inl hlisten⟩)

theorem Inv.bound_unique (h : Inv s) (hi : si ∈ s.sockets) (hj : sj ∈ s.sockets)
    (hbi : si.page ∈ s.bound) (hbj : sj.page ∈ s.bound) (hne : si.lport ≠ 0#16)
    (hport : si.lport = sj.lport) : si = sj := by
  by_contra hij
  have hpair : s.sockets.Pairwise fun si sj =>
      si.page ∈ s.bound → sj.page ∈ s.bound → si.lport ≠ 0#16 → si.lport ≠ sj.lport :=
    h.apart.imp fun hap hbi hbj hne => (hap.bound hbi hbj hne).symm
  have hsymm : Std.Symm fun si sj : Sock =>
      si.page ∈ s.bound → sj.page ∈ s.bound → si.lport ≠ 0#16 → si.lport ≠ sj.lport :=
    ⟨fun si sj hap hbj hbi hne heq => hap hbi hbj (heq ▸ hne) heq.symm⟩
  exact hpair.forall hi hj hij hbi hbj hne hport

/-- If every `bind` is called with a port, and a socket with no remote address is connected only to
a port that no socket has, then sockets with a port from `bind` have different ports, a datagram
with the triple of some socket is queued on such a socket, and the list holds the open sockets, each
of them once. -/
theorem socket_table_consistent {ops : List SockOp} (h : Run (Guarded Sound Step) empty ops t) :
    (∀ si ∈ t.sockets, ∀ sj ∈ t.sockets, si.page ∈ t.bound → sj.page ∈ t.bound →
      si.lport ≠ 0#16 → si.lport = sj.lport → si = sj) ∧
    (∀ m raddr lport rport, (∃ si ∈ t.sockets, si.Exact raddr lport rport) →
      ∃ before si after, t.sockets = before ++ si :: after ∧ si.Exact raddr lport rport ∧
        (t.sockrecvudp m raddr lport rport).sockets =
          before ++ { si with rxq := si.rxq ++ [m] } :: after) ∧
    (t.sockets.map Sock.page).Nodup ∧ (t.sockets.map Sock.page).Perm t.opened := by
  have hinv : Inv t := h.invariant (fun _ _ _ => inv_step) inv_empty
  exact ⟨fun si hi sj hj => hinv.bound_unique hi hj,
    fun m raddr lport rport hex => hinv.delivered m hex, hinv.nodup, hinv.opened⟩

/-- A socket that listens on port 80, a connection to that port, an accepted socket, and a close. -/
def serving : List SockOp :=
  [.socket AF_INET SOCK_STREAM ⟨true, some 0x1000, some 3⟩, .bind 3 80, .listen 3,
    .connect 0x0a000202 80 1000 ⟨true, some 0x2000, some 4⟩,
    .datagram (received 0x3000 []) 0x0a000203#32 80#16 7#16,
    .accept 3 false ⟨true, some 0x4000, some 5⟩, .close 5]

theorem socket_table_consistent_serving : ∃ t, Run (Guarded Sound Step) empty serving t ∧
    t.sockets.map Sock.page = [0x2000, 0x1000] ∧
    ∀ m, ∃ before si after, t.sockets = before ++ si :: after ∧
      si.Exact 0x0a000202#32 80#16 1000#16 ∧
      (t.sockrecvudp m 0x0a000202#32 80#16 1000#16).sockets =
        before ++ { si with rxq := si.rxq ++ [m] } :: after := by
  obtain ⟨t, hrun, hpages, hex⟩ : ∃ t, Run (Guarded Sound Step) empty serving t ∧
      t.sockets.map Sock.page = [0x2000, 0x1000] ∧
      ∃ si ∈ t.sockets, si.Exact 0x0a000202#32 80#16 1000#16 :=
    Run.exists_foldlM
  exact ⟨t, hrun, hpages, fun m => (socket_table_consistent hrun).2.1 m _ _ _ hex⟩

/-- The ports 80 and 65616 differ as `int`. -/
def boundTwice : List SockOp :=
  [.socket AF_INET SOCK_DGRAM ⟨true, some 0x1000, some 3⟩,
    .socket AF_INET SOCK_DGRAM ⟨true, some 0x2000, some 4⟩, .bind 3 80, .bind 4 65616]

/-- The second socket has no remote address, and its `listening` is not set by `connect`. -/
def connectedTwice : List SockOp :=
  [.connect 0x0a000202 80 1000 ⟨true, some 0x1000, some 3⟩,
    .connect 0 80 2000 ⟨true, some 0x2000, some 4⟩]

/-- Two open sockets share port 80 after `bind`; and the datagram of a connection is queued on a
socket with another triple. -/
theorem socket_table_inconsistent :
    (∃ s, Run Step empty boundTwice s ∧ s.bound = [0x2000, 0x1000] ∧
      s.sockets.map (fun si => (si.page, si.lport)) = [(0x2000, 80#16), (0x1000, 80#16)]) ∧
    (∃ s, Run Step empty connectedTwice s ∧
      (∃ si ∈ s.sockets, si.Exact 0x0a000202#32 80#16 1000#16) ∧
      (s.sockrecvudp (received 0x3000 []) 0x0a000202#32 80#16 1000#16).sockets.map
        (fun si => (si.page, si.rxq.map Mbuf.page)) = [(0x2000, [0x3000]), (0x1000, [])]) := by
  constructor
  · exact Run.exists_exec
  · exact Run.exists_exec

end Table

end Yyds.Net
