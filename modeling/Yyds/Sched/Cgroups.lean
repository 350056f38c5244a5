import Yyds.Lib.Scan
import Yyds.Kernel.Sys

/-! The control groups of `cgroups.c`: groups in a table, the member pids inside each group, the
limits, and the checks that look for the group of a pid. -/
namespace Yyds.Cgroups

open Lib Function
open Kernel (int)

def MAX_CGROUPS : Nat := 16
def MAX_PROCS_PER_CGROUP : Nat := 32
def CTRL_CPU : Nat := 0x01
def CTRL_MEMORY : Nat := 0x02
def CTRL_IO : Nat := 0x04
def CTRL_PIDS : Nat := 0x08

/-- `struct cpu_controller` -/
structure CpuController where
  enabled : Bool
  cpu_shares : Int
  cpu_quota : Int
  cpu_period : Int
  cpu_usage : BitVec 64

/-- `struct memory_controller` -/
structure MemoryController where
  enabled : Bool
  memory_limit : BitVec 64
  memory_usage : BitVec 64
  memory_max_usage : BitVec 64
  oom_kill_count : Int

/-- `struct io_controller` -/
structure IoController where
  enabled : Bool
  read_bps_limit : BitVec 64
  write_bps_limit : BitVec 64
  read_iops_limit : BitVec 64
  write_iops_limit : BitVec 64
  bytes_read : BitVec 64
  bytes_written : BitVec 64
  read_ops : BitVec 64
  write_ops : BitVec 64
  last_read_time : BitVec 64
  last_write_time : BitVec 64
  read_tokens : BitVec 64
  write_tokens : BitVec 64
  io_weight : Int
  throttled : Bool

/-- `struct net_controller` -/
structure NetController where
  enabled : Bool
  tx_bps_limit : BitVec 64
  rx_bps_limit : BitVec 64
  tx_pps_limit : BitVec 64
  rx_pps_limit : BitVec 64
  bytes_sent : BitVec 64
  bytes_received : BitVec 64
  packets_sent : BitVec 64
  packets_received : BitVec 64
  tx_tokens : BitVec 64
  rx_tokens : BitVec 64
  last_tx_time : BitVec 64
  last_rx_time : BitVec 64
  net_priority : Int
  throttled : Bool

/-- `struct pids_controller` -/
structure PidsController where
  enabled : Bool
  pids_max : Int
  pids_current : Int

/-- `struct cgroup` without its name, which is only printed -/
structure Cgroup where
  used : Bool
  id : Int
  parent_id : Int
  controllers : Nat
  cpu : CpuController
  memory : MemoryController
  io : IoController
  net : NetController
  pids : PidsController
  procs : Nat → Int
  proc_count : Nat
  created_time : BitVec 64
  io_throttle_count : BitVec 64
  net_throttle_count : BitVec 64

abbrev Slot := Fin MAX_CGROUPS

instance : NeZero MAX_CGROUPS := ⟨by decide⟩

/-- `struct cgroups_state` -/
structure State where
  groups : Slot → Cgroup
  group_count : Int
  next_id : Int

/-- A group after `memset` -/
def Cgroup.zero : Cgroup where
  used := false
  id := 0
  parent_id := 0
  controllers := 0
  cpu := ⟨false, 0, 0, 0, 0⟩
  memory := ⟨false, 0, 0, 0, 0⟩
  io := ⟨false, 0, 0, 0, 0, 0, 0, 0, 0, 0, 0, 0, 0, 0, false⟩
  net := ⟨false, 0, 0, 0, 0, 0, 0, 0, 0, 0, 0, 0, 0, 0, false⟩
  pids := ⟨false, 0, 0⟩
  procs := fun _ => 0
  proc_count := 0
  created_time := 0
  io_throttle_count := 0
  net_throttle_count := 0

/-- The pids in the group, in the order of the array. -/
def Cgroup.members (cg : Cgroup) : List Int := (List.range cg.proc_count).map cg.procs

def State.set (s : State) (i : Slot) (cg : Cgroup) : State :=
  { s with groups := update s.groups i cg }

/-- The table after the new group has been put in slot `i`. -/
def State.create (s : State) (i : Slot) (cg : Cgroup) : State :=
  { s.set i cg with next_id := int (s.next_id + 1), group_count := int (s.group_count + 1) }

/-- The table after the group in slot `i` has been deleted. -/
def State.delete (s : State) (i : Slot) : State :=
  { s.set i { s.groups i with used := false } with group_count := int (s.group_count - 1) }

/-- The first used group with this id: the loop at the start of most calls. -/
def find (cgroup_id : Int) (s : State) : Option Slot :=
  (List.finRange MAX_CGROUPS).find? fun i => (s.groups i).used ∧ (s.groups i).id = cgroup_id

/-- The first used group that holds `pid`: the group a check is made against. -/
def charged (pid : Int) (s : State) : Option Slot :=
  (List.finRange MAX_CGROUPS).find? fun i => (s.groups i).used ∧ pid ∈ (s.groups i).members

/-! ### Creating, deleting and membership -/

/-- The root group -/
def rootGroup : Cgroup :=
  { Cgroup.zero with
    used := true, id := 0, parent_id := -1
    controllers := CTRL_CPU ||| CTRL_MEMORY ||| CTRL_IO ||| CTRL_PIDS
    cpu := ⟨true, 1024, -1, 100000, 0⟩
    memory := { Cgroup.zero.memory with enabled := true, memory_limit := 0 }
    io := { Cgroup.zero.io with enabled := true, read_bps_limit := 0, write_bps_limit := 0 }
    pids := { Cgroup.zero.pids with enabled := true, pids_max := NPROC } }

def cgroups_init : State where
  groups := fun i => if i = 0 then rootGroup else Cgroup.zero
  group_count := 1
  next_id := 1

/-- The new group of `cgroup_create`: the settings of the parent, or the defaults. The parent's
usage and its number of processes are copied with its settings; its network limits are not. -/
def newGroup (id parent_id : Int) (ticks : BitVec 32) : Option Cgroup → Cgroup
  | some parent =>
    { Cgroup.zero with
      used := true, id, parent_id
      controllers := parent.controllers
      cpu := parent.cpu, memory := parent.memory, io := parent.io, pids := parent.pids
      created_time := ticks.setWidth 64 }
  | none =>
    { Cgroup.zero with
      used := true, id, parent_id
      controllers := CTRL_CPU ||| CTRL_MEMORY ||| CTRL_IO ||| CTRL_PIDS
      cpu := { Cgroup.zero.cpu with enabled := true, cpu_shares := 1024 }
      memory := { Cgroup.zero.memory with enabled := true }
      io := { Cgroup.zero.io with enabled := true }
      pids := { Cgroup.zero.pids with enabled := true, pids_max := NPROC }
      created_time := ticks.setWidth 64 }

/-- The first group that is not used. -/
def freeSlot (s : State) : Option Slot :=
  (List.finRange MAX_CGROUPS).find? fun i => !(s.groups i).used

/-- The rest of `cgroup_create` once the parent is known. -/
def place (parent_id : Int) (parent : Option Cgroup) (ticks : BitVec 32) (s : State) :
    Int × State :=
  match freeSlot s with
  | none => (-1, s)
  | some i => (s.next_id, s.create i (newGroup s.next_id parent_id ticks parent))

def cgroup_create (parent_id : Int) (ticks : BitVec 32) (s : State) : Int × State :=
  if parent_id ≥ 0 then
    match find parent_id s with
    | none => (-1, s)
    | some p => place parent_id (some (s.groups p)) ticks s
  else place parent_id none ticks s

def cgroup_delete (cgroup_id : Int) (s : State) : Int × State :=
  match find cgroup_id s with
  | none => (-1, s)
  | some i =>
    if (s.groups i).proc_count > 0 then (-1, s) else (0, s.delete i)

/-- `procs[proc_count++] = pid` -/
def Cgroup.append (pid : Int) (cg : Cgroup) : Cgroup :=
  { cg with
    procs := update cg.procs cg.proc_count pid
    proc_count := cg.proc_count + 1
    pids := { cg.pids with pids_current := int (cg.pids.pids_current + 1) } }

def cgroup_attach (cgroup_id pid : Int) (s : State) : Int × State :=
  match find cgroup_id s with
  | none => (-1, s)
  | some i =>
    let cg := s.groups i
    if cg.pids.enabled ∧ cg.pids.pids_current ≥ cg.pids.pids_max then (-1, s)
    else if pid ∈ cg.members then (0, s)
    else if cg.proc_count ≥ MAX_PROCS_PER_CGROUP then (-1, s)
    else (0, s.set i (cg.append pid))

/-- The loop of `cgroup_detach` that moves the pids after the `i`-th one place down. -/
def shiftDown (procs : Nat → Int) (i n : Nat) : Nat → Int :=
  (List.range' i (n - 1 - i)).foldl (fun p j => update p j (p (j + 1))) procs

/-- The group without the `i`-th of its pids. -/
def Cgroup.remove (i : Nat) (cg : Cgroup) : Cgroup :=
  { cg with
    procs := shiftDown cg.procs i cg.proc_count
    proc_count := cg.proc_count - 1
    pids := { cg.pids with pids_current := int (cg.pids.pids_current - 1) } }

def cgroup_detach (cgroup_id pid : Int) (s : State) : Int × State :=
  match find cgroup_id s with
  | none => (-1, s)
  | some i =>
    match (List.range (s.groups i).proc_count).find? fun j => (s.groups i).procs j = pid with
    | none => (-1, s)
    | some j => (0, s.set i ((s.groups i).remove j))

/-! ### Setting limits -/

section Setters

variable (cg : Cgroup)

def setCpu (shares quota period : Int) : Cgroup :=
  { cg with cpu := { cg.cpu with
      cpu_shares := if shares > 0 then shares else cg.cpu.cpu_shares
      cpu_quota := if quota ≠ 0 then quota else cg.cpu.cpu_quota
      cpu_period := if period > 0 then period else cg.cpu.cpu_period } }

def setMemory (limit : BitVec 64) : Cgroup :=
  { cg with memory := { cg.memory with memory_limit := limit } }

def setPids (max_pids : Int) : Cgroup :=
  { cg with pids := { cg.pids with pids_max := max_pids } }

def setIoLimit (read_bps write_bps : BitVec 64) (weight : Int) : Cgroup :=
  { cg with io := { cg.io with
      read_bps_limit := if read_bps > 0 then read_bps else cg.io.read_bps_limit
      write_bps_limit := if write_bps > 0 then write_bps else cg.io.write_bps_limit
      io_weight := if weight ≥ 100 ∧ weight ≤ 1000 then weight else cg.io.io_weight } }

def setIoIops (read_iops write_iops : BitVec 64) : Cgroup :=
  { cg with io := { cg.io with
      read_iops_limit := if read_iops > 0 then read_iops else cg.io.read_iops_limit
      write_iops_limit := if write_iops > 0 then write_iops else cg.io.write_iops_limit } }

def setNetLimit (tx_bps rx_bps : BitVec 64) (priority : Int) : Cgroup :=
  { cg with net := { cg.net with
      enabled := true
      tx_bps_limit := if tx_bps > 0 then tx_bps else cg.net.tx_bps_limit
      rx_bps_limit := if rx_bps > 0 then rx_bps else cg.net.rx_bps_limit
      net_priority := if priority ≥ 0 ∧ priority ≤ 7 then priority else cg.net.net_priority } }

def setNetPps (tx_pps rx_pps : BitVec 64) : Cgroup :=
  { cg with net := { cg.net with
      tx_pps_limit := if tx_pps > 0 then tx_pps else cg.net.tx_pps_limit
      rx_pps_limit := if rx_pps > 0 then rx_pps else cg.net.rx_pps_limit } }

end Setters

/-- What one of the setters is to set. -/
inductive Setting
  | cpu (shares quota period : Int)
  | memory (limit : BitVec 64)
  | pids (max_pids : Int)
  | ioLimit (read_bps write_bps : BitVec 64) (weight : Int)
  | ioIops (read_iops write_iops : BitVec 64)
  | netLimit (tx_bps rx_bps : BitVec 64) (priority : Int)
  | netPps (tx_pps rx_pps : BitVec 64)
  deriving DecidableEq

def Setting.apply (cg : Cgroup) : Setting → Cgroup
  | .cpu shares quota period => setCpu cg shares quota period
  | .memory limit => setMemory cg limit
  | .pids max_pids => setPids cg max_pids
  | .ioLimit read_bps write_bps weight => setIoLimit cg read_bps write_bps weight
  | .ioIops read_iops write_iops => setIoIops cg read_iops write_iops
  | .netLimit tx_bps rx_bps priority => setNetLimit cg tx_bps rx_bps priority
  | .netPps tx_pps rx_pps => setNetPps cg tx_pps rx_pps

/-- A setter: the group with this id is changed. -/
def cgroup_set (cgroup_id : Int) (x : Setting) (s : State) : Int × State :=
  match find cgroup_id s with
  | none => (-1, s)
  | some i => (0, s.set i (x.apply (s.groups i)))

def cgroup_set_cpu (id shares quota period : Int) := cgroup_set id (.cpu shares quota period)

def cgroup_set_memory (id : Int) (limit : BitVec 64) := cgroup_set id (.memory limit)

def cgroup_set_pids (id max_pids : Int) := cgroup_set id (.pids max_pids)

def cgroup_set_io_limit (id : Int) (read_bps write_bps : BitVec 64) (weight : Int) :=
  cgroup_set id (.ioLimit read_bps write_bps weight)

def cgroup_set_io_iops (id : Int) (read_iops write_iops : BitVec 64) :=
  cgroup_set id (.ioIops read_iops write_iops)

def cgroup_set_net_limit (id : Int) (tx_bps rx_bps : BitVec 64) (priority : Int) :=
  cgroup_set id (.netLimit tx_bps rx_bps priority)

def cgroup_set_net_pps (id : Int) (tx_pps rx_pps : BitVec 64) :=
  cgroup_set id (.netPps tx_pps rx_pps)

/-! ### Checks -/

def MemoryController.check (size : BitVec 64) (m : MemoryController) : Int :=
  if m.enabled ∧ m.memory_limit > 0 ∧ m.memory_usage + size > m.memory_limit then 0 else 1

def MemoryController.update (delta : Int) (m : MemoryController) : MemoryController :=
  if delta > 0 then
    let usage := m.memory_usage + BitVec.ofInt 64 delta
    { m with
      memory_usage := usage
      memory_max_usage := if usage > m.memory_max_usage then usage else m.memory_max_usage }
  else if m.memory_usage ≥ BitVec.ofInt 64 (int (-delta)) then
    { m with memory_usage := m.memory_usage + BitVec.ofInt 64 delta }
  else { m with memory_usage := 0 }

/-- The four bandwidth limits. -/
inductive Band
  | read
  | write
  | tx
  | rx
  deriving DecidableEq

/-- The fields of a controller that belong to one bandwidth limit. -/
structure Bucket where
  bps_limit : BitVec 64
  tokens : BitVec 64
  last_time : BitVec 64
  bytes : BitVec 64
  ops : BitVec 64

namespace Cgroup

def bucket (cg : Cgroup) : Band → Bucket
  | .read => ⟨cg.io.read_bps_limit, cg.io.read_tokens, cg.io.last_read_time, cg.io.bytes_read,
      cg.io.read_ops⟩
  | .write => ⟨cg.io.write_bps_limit, cg.io.write_tokens, cg.io.last_write_time,
      cg.io.bytes_written, cg.io.write_ops⟩
  | .tx => ⟨cg.net.tx_bps_limit, cg.net.tx_tokens, cg.net.last_tx_time, cg.net.bytes_sent,
      cg.net.packets_sent⟩
  | .rx => ⟨cg.net.rx_bps_limit, cg.net.rx_tokens, cg.net.last_rx_time, cg.net.bytes_received,
      cg.net.packets_received⟩

def setBucket (cg : Cgroup) : Band → Bucket → Cgroup
  | .read, b => { cg with io := { cg.io with
      read_bps_limit := b.bps_limit, read_tokens := b.tokens, last_read_time := b.last_time
      bytes_read := b.bytes, read_ops := b.ops } }
  | .write, b => { cg with io := { cg.io with
      write_bps_limit := b.bps_limit, write_tokens := b.tokens, last_write_time := b.last_time
      bytes_written := b.bytes, write_ops := b.ops } }
  | .tx, b => { cg with net := { cg.net with
      tx_bps_limit := b.bps_limit, tx_tokens := b.tokens, last_tx_time := b.last_time
      bytes_sent := b.bytes, packets_sent := b.ops } }
  | .rx, b => { cg with net := { cg.net with
      rx_bps_limit := b.bps_limit, rx_tokens := b.tokens, last_rx_time := b.last_time
      bytes_received := b.bytes, packets_received := b.ops } }

def enabled (cg : Cgroup) : Band → Bool
  | .read | .write => cg.io.enabled
  | .tx | .rx => cg.net.enabled

/-- A call has been refused. -/
def throttle (cg : Cgroup) : Band → Cgroup
  | .read | .write =>
    { cg with
      io := { cg.io with throttled := true }
      io_throttle_count := cg.io_throttle_count + 1 }
  | .tx | .rx =>
    { cg with
      net := { cg.net with throttled := true }, net_throttle_count := cg.net_throttle_count + 1 }

end Cgroup

namespace Bucket

/-- The tokens for the time since the last call, in 64 bits, and no more than the limit. -/
def refill (ticks : BitVec 32) (b : Bucket) : Bucket :=
  let elapsed := ticks.setWidth 64 - b.last_time
  let new_tokens := elapsed * b.bps_limit / 100
  let tokens := b.tokens + new_tokens
  { b with
    tokens := if tokens > b.bps_limit then b.bps_limit else tokens
    last_time := ticks.setWidth 64 }

def spend (bytes : BitVec 64) (b : Bucket) : Bucket :=
  { b with tokens := b.tokens - bytes, bytes := b.bytes + bytes, ops := b.ops + 1 }

end Bucket

/-- A bandwidth check against one group: 1 if the call may go on. -/
def Cgroup.check (k : Band) (bytes : BitVec 64) (ticks : BitVec 32) (cg : Cgroup) : Int × Cgroup :=
  if cg.enabled k = false ∨ (cg.bucket k).bps_limit = 0 then (1, cg)
  else
    let b := (cg.bucket k).refill ticks
    if b.tokens ≥ bytes then (1, cg.setBucket k (b.spend bytes))
    else (0, (cg.setBucket k b).throttle k)

/-- What is asked of the group of a process. -/
inductive Query
  | checkMemory (size : BitVec 64)
  | updateMemory (delta : Int)
  | check (k : Band) (bytes : BitVec 64)
  deriving DecidableEq

/-- The answer of a group, and the group after it; `cgroup_update_memory` has no result. -/
def Query.answer (ticks : BitVec 32) (cg : Cgroup) : Query → Int × Cgroup
  | .checkMemory size => (cg.memory.check size, cg)
  | .updateMemory delta => (1, { cg with memory := cg.memory.update delta })
  | .check k bytes => cg.check k bytes ticks

/-- The query goes to the first group that holds `pid`, and is granted when there is none. -/
def cgroup_ask (pid : Int) (q : Query) (ticks : BitVec 32) (s : State) : Int × State :=
  match charged pid s with
  | none => (1, s)
  | some i => ((q.answer ticks (s.groups i)).1, s.set i (q.answer ticks (s.groups i)).2)

def cgroup_check_memory (pid : Int) (size : BitVec 64) := cgroup_ask pid (.checkMemory size)

def cgroup_update_memory (pid delta : Int) := cgroup_ask pid (.updateMemory delta)

def cgroup_check_io_read (pid : Int) (bytes : BitVec 64) := cgroup_ask pid (.check .read bytes)

def cgroup_check_io_write (pid : Int) (bytes : BitVec 64) := cgroup_ask pid (.check .write bytes)

def cgroup_check_net_tx (pid : Int) (bytes : BitVec 64) := cgroup_ask pid (.check .tx bytes)

def cgroup_check_net_rx (pid : Int) (bytes : BitVec 64) := cgroup_ask pid (.check .rx bytes)

/-! ### Sequences of calls -/

/-- A call of `cgroups.c`. -/
inductive Op
  | create (parent_id : Int)
  | delete (id : Int)
  | attach (id pid : Int)
  | detach (id pid : Int)
  | set (id : Int) (x : Setting)
  | ask (pid : Int) (q : Query)
  deriving DecidableEq

/-- A call made at a tick: what it returns, and the groups after it. -/
def exec (ticks : BitVec 32) (op : Op) (s : State) : Int × State :=
  match op with
  | .create parent_id => cgroup_create parent_id ticks s
  | .delete id => cgroup_delete id s
  | .attach id pid => cgroup_attach id pid s
  | .detach id pid => cgroup_detach id pid s
  | .set id x => cgroup_set id x s
  | .ask pid q => cgroup_ask pid q ticks s

/-- A call with the tick it is made at. -/
abbrev Call := BitVec 32 × Op

def Step (s : State) (a : Call) (t : State) : Prop := (exec a.1 a.2 s).2 = t

/-! ### What the calls do to the table -/

@[simp] theorem set_groups_self (s : State) (i : Slot) (cg : Cgroup) :
    (s.set i cg).groups i = cg := by
  simp [State.set]

variable {s t : State} {i : Slot} {parent : Option Cgroup} {a : Call}

theorem set_groups_of_ne {j : Slot} (cg : Cgroup) (h : j ≠ i) :
    (s.set i cg).groups j = s.groups j := by
  simp [State.set, h]

theorem find_eq_some {id : Int} (h : find id s = some i) :
    (s.groups i).used = true ∧ (s.groups i).id = id := by
  have hi := (find?_finRange_some.mp h).1
  simpa using hi

theorem charged_eq_some {pid : Int} (h : charged pid s = some i) :
    (s.groups i).used = true ∧ pid ∈ (s.groups i).members := by
  have hi := (find?_finRange_some.mp h).1
  simpa using hi

/-- Which group a pid is checked against depends on the members alone. -/
theorem charged_congr (pid : Int)
    (h : ∀ i, (t.groups i).used = (s.groups i).used ∧ (t.groups i).members = (s.groups i).members) :
    charged pid t = charged pid s := by
  unfold charged
  congr 1
  funext i
  rw [(h i).1, (h i).2]

theorem charged_set {cg : Cgroup} (pid : Int) (hused : cg.used = (s.groups i).used)
    (hmem : cg.members = (s.groups i).members) : charged pid (s.set i cg) = charged pid s := by
  refine charged_congr pid fun j => ?_
  by_cases hj : j = i
  · subst hj
    rw [set_groups_self]
    exact ⟨hused, hmem⟩
  · rw [set_groups_of_ne _ hj]
    exact ⟨rfl, rfl⟩

theorem freeSlot_eq_some (h : freeSlot s = some i) : (s.groups i).used = false := by
  have hi := (find?_finRange_some.mp h).1
  simpa using hi

/-- The settings a new group is made from. -/
inductive Parent (s : State) : Int → Option Cgroup → Prop
  | root {id : Int} : id < 0 → Parent s id none
  | group {id : Int} {p : Slot} : 0 ≤ id → find id s = some p → Parent s id (some (s.groups p))

/-- What a call can do to the table. -/
inductive Effect (s : State) : Call → State → Prop
  | none (a : Call) : Effect s a s
  | create {ticks : BitVec 32} {parent_id : Int} {parent : Option Cgroup} {i : Slot} :
      Parent s parent_id parent → freeSlot s = some i →
      Effect s (ticks, .create parent_id)
        (s.create i (newGroup s.next_id parent_id ticks parent))
  | delete {ticks : BitVec 32} {id : Int} {i : Slot} :
      find id s = some i → (s.groups i).proc_count = 0 →
      Effect s (ticks, .delete id) (s.delete i)
  | attach {ticks : BitVec 32} {id pid : Int} {i : Slot} :
      find id s = some i → pid ∉ (s.groups i).members →
      ((s.groups i).pids.enabled →
        (s.groups i).pids.pids_current < (s.groups i).pids.pids_max) →
      (s.groups i).proc_count < MAX_PROCS_PER_CGROUP →
      Effect s (ticks, .attach id pid) (s.set i ((s.groups i).append pid))
  | detach {ticks : BitVec 32} {id pid : Int} {i : Slot} {j : Nat} :
      find id s = some i → j < (s.groups i).proc_count → (s.groups i).procs j = pid →
      Effect s (ticks, .detach id pid) (s.set i ((s.groups i).remove j))
  | set {ticks : BitVec 32} {id : Int} {x : Setting} {i : Slot} :
      find id s = some i → Effect s (ticks, .set id x) (s.set i (x.apply (s.groups i)))
  | ask {ticks : BitVec 32} {pid : Int} {q : Query} {i : Slot} :
      charged pid s = some i →
      Effect s (ticks, .ask pid q) (s.set i (q.answer ticks (s.groups i)).2)

theorem effect_place {parent_id : Int} {ticks : BitVec 32} (h : Parent s parent_id parent) :
    Effect s (ticks, .create parent_id) (place parent_id parent ticks s).2 := by
  unfold place
  split
  · exact .none _
  · exact .create h ‹_›

theorem effect_create (s : State) (parent_id : Int) (ticks : BitVec 32) :
    Effect s (ticks, .create parent_id) (cgroup_create parent_id ticks s).2 := by
  unfold cgroup_create
  split
  · rename_i hid
    split
    · exact .none _
    · exact effect_place (.group hid ‹_›)
  · rename_i hid
    exact effect_place (.root (not_le.mp hid))

theorem effect_delete (s : State) (id : Int) (ticks : BitVec 32) :
    Effect s (ticks, .delete id) (cgroup_delete id s).2 := by
  unfold cgroup_delete
  split
  · exact .none _
  · split
    · exact .none _
    · rename_i hfind hcount
      exact .delete hfind (Nat.eq_zero_of_not_pos hcount)

theorem effect_attach (s : State) (id pid : Int) (ticks : BitVec 32) :
    Effect s (ticks, .attach id pid) (cgroup_attach id pid s).2 := by
  unfold cgroup_attach
  split
  · exact .none _
  rename_i i hfind
  dsimp only
  split
  · exact .none _
  split
  · exact .none _
  · split
    · exact .none _
    · rename_i hmax hmem hcount
      refine .attach hfind hmem (fun hen => ?_) (not_le.mp hcount)
      exact not_le.mp fun hle => hmax ⟨hen, hle⟩

theorem effect_detach (s : State) (id pid : Int) (ticks : BitVec 32) :
    Effect s (ticks, .detach id pid) (cgroup_detach id pid s).2 := by
  unfold cgroup_detach
  split
  · exact .none _
  split
  · exact .none _
  · rename_i i hfind _ j hj
    have hmem := List.mem_of_find?_eq_some hj
    have hpid := List.find?_some hj
    exact .detach hfind (List.mem_range.mp hmem) (by simpa using hpid)

theorem effect_exec (s : State) (a : Call) : Effect s a (exec a.1 a.2 s).2 := by
  obtain ⟨ticks, op⟩ := a
  cases op with
  | create parent_id => exact effect_create s parent_id ticks
  | delete id => exact effect_delete s id ticks
  | attach id pid => exact effect_attach s id pid ticks
  | detach id pid => exact effect_detach s id pid ticks
  | set id x =>
    dsimp only [exec, cgroup_set]
    split
    · exact .none _
    · exact .set ‹_›
  | ask pid q =>
    dsimp only [exec, cgroup_ask]
    split
    · exact .none _
    · exact .ask ‹_›

theorem Step.effect (h : Step s a t) : Effect s a t := by
  rw [← show (exec a.1 a.2 s).2 = t from h]
  exact effect_exec s a

@[simp] theorem create_groups (s : State) (i : Slot) (cg : Cgroup) :
    (s.create i cg).groups = (s.set i cg).groups := rfl

@[simp] theorem delete_groups (s : State) (i : Slot) :
    (s.delete i).groups = (s.set i { s.groups i with used := false }).groups := rfl

/-! ### The controllers are always on -/

/-- Every controller that has a limit is enabled. -/
structure Cgroup.On (cg : Cgroup) : Prop where
  memory : cg.memory.enabled = true
  pids : cg.pids.enabled = true
  io : cg.io.enabled = true
  net : cg.net.enabled = true ∨ cg.net.tx_bps_limit = 0 ∧ cg.net.rx_bps_limit = 0

namespace Cgroup.On

variable {cg : Cgroup}

variable {k : Band}

section
variable (h : cg.On)
include h

theorem enabled (hk : (cg.bucket k).bps_limit ≠ 0) : cg.enabled k = true := by
  cases k with
  | read => exact h.io
  | write => exact h.io
  | tx => exact h.net.resolve_right fun hz => hk hz.1
  | rx => exact h.net.resolve_right fun hz => hk hz.2

theorem apply (x : Setting) : (x.apply cg).On := by
  cases x with
  | netLimit tx_bps rx_bps priority => exact { h with net := .inl rfl }
  | _ => exact { h with }

theorem setBucket {b : Bucket} (hb : b.bps_limit = (cg.bucket k).bps_limit) :
    (cg.setBucket k b).On := by
  cases k with
  | read => exact { h with }
  | write => exact { h with }
  | tx => exact ⟨h.memory, h.pids, h.io, h.net.imp_right fun hz => ⟨hb.trans hz.1, hz.2⟩⟩
  | rx => exact ⟨h.memory, h.pids, h.io, h.net.imp_right fun hz => ⟨hz.1, hb.trans hz.2⟩⟩

theorem throttle (k : Band) : (cg.throttle k).On := by
  cases k <;> exact { h with }

theorem check (k : Band) (bytes : BitVec 64) (ticks : BitVec 32) :
    (cg.check k bytes ticks).2.On := by
  unfold Cgroup.check
  split
  · exact h
  · dsimp only
    split
    · exact h.setBucket rfl
    · exact (h.setBucket (b := (cg.bucket k).refill ticks) rfl).throttle k

theorem answer (q : Query) (ticks : BitVec 32) : (q.answer ticks cg).2.On := by
  cases q with
  | checkMemory size => exact h
  | updateMemory delta =>
    refine { h with memory := ?_ }
    have hm := h.memory
    dsimp only [Query.answer, MemoryController.update]
    split
    · exact hm
    · split <;> exact hm
  | check k bytes => exact h.check k bytes ticks

end

theorem newGroup (h : ∀ p ∈ parent, p.On) (id parent_id : Int) (ticks : BitVec 32) :
    (newGroup id parent_id ticks parent).On := by
  cases parent with
  | none => exact ⟨rfl, rfl, rfl, .inr ⟨rfl, rfl⟩⟩
  | some p =>
    have hp := h p rfl
    exact ⟨hp.memory, hp.pids, hp.io, .inr ⟨rfl, rfl⟩⟩

end Cgroup.On

/-- Every used group has its controllers on. -/
def AllOn (s : State) : Prop := ∀ i, (s.groups i).used = true → (s.groups i).On

theorem AllOn.set (h : AllOn s) {cg : Cgroup} (hcg : cg.used = true → cg.On) :
    AllOn (s.set i cg) := by
  intro j hj
  by_cases hji : j = i
  · subst hji
    rw [set_groups_self] at hj ⊢
    exact hcg hj
  · rw [set_groups_of_ne _ hji] at hj ⊢
    exact h j hj

theorem allOn_init : AllOn cgroups_init := by
  intro i hi
  by_cases h0 : i = 0
  · rw [h0]
    exact ⟨rfl, rfl, rfl, .inr ⟨rfl, rfl⟩⟩
  · rw [show cgroups_init.groups i = Cgroup.zero from if_neg h0] at hi
    exact absurd hi (by decide)

theorem AllOn.step (h : Step s a t) (hs : AllOn s) : AllOn t := by
  cases h.effect with
  | none => exact hs
  | create hparent _ =>
    refine hs.set fun _ => Cgroup.On.newGroup (fun p hp => ?_) _ _ _
    cases hparent with
    | root _ => cases hp
    | group _ hfind =>
      cases hp
      exact hs _ (find_eq_some hfind).1
  | delete _ _ => exact hs.set fun hused => absurd hused (by simp)
  | attach hfind | detach hfind =>
    exact hs.set fun _ => { hs _ (find_eq_some hfind).1 with }
  | set hfind => exact hs.set fun _ => (hs _ (find_eq_some hfind).1).apply _
  | ask hch => exact hs.set fun _ => (hs _ (charged_eq_some hch).1).answer _ _

theorem allOn_of_run {as : List Call} (h : Run Step cgroups_init as s) : AllOn s :=
  h.invariant (fun _ _ _ hstep hs => hs.step hstep) allOn_init

end Yyds.Cgroups
