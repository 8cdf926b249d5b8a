import ApeShim.Procfs.SysTree

/-!
The walks over the slices of /sys on NT (`shim/procfs/core/sysfs.c`, `shim/procfs/net.c`): what the
system knows of the adapters, the battery and the processors, as the files that a walk emits.
-/

namespace ApeShim.Slices
open Procfs XnuSys

/-- One call of a walk's `emit`. -/
structure Emission where
  rel : Text
  val : Text
  /-- the adapter that it is of -/
  luid : Nat
  deriving DecidableEq

/-! ## The adapters -/

/-- The counters of one direction in a row of the interface table. -/
structure Counters where
  octets : UInt64
  ucast : UInt64
  nucast : UInt64
  discards : UInt64
  errors : UInt64

/-- A row of `GetIfTable2`. -/
structure Row where
  index : UInt32
  received : Counters
  sent : Counters

/-- `struct NtIpAdapterAddresses`, as far as it is read, and which adapter it is. -/
structure Adapter where
  luid : Nat
  ifIndex : UInt32
  /-- up to its NUL; nothing for a null pointer -/
  friendlyName : Option (List UInt16)
  mtu : UInt32
  operStatus : UInt32
  physicalAddress : List UInt8
  transmitLinkSpeed : UInt64

/-- `if_row_of` -/
def ifRowOf (rows : List Row) (index : UInt32) : Option Row := rows.find? fun r => r.index = index

def nameChar (u : UInt16) : Char :=
  let c := Char.ofNat u.toNat
  if u < 128 ∧ (c.isAlphanum ∨ c = '-' ∨ c = '.') then c else '_'

/-- `if_name` -/
def ifName (friendly : Option (List UInt16)) : Text := ((friendly.getD []).take 14).map nameChar

theorem ifName_lt (friendly : Option (List UInt16)) : (ifName friendly).length < 16 := by
  rw [ifName, List.length_map, List.length_take]
  omega

/-- One entry that `pfs_net_ifstats` fills. -/
def ifStat (p : Adapter) (row : Row) : IfStat where
  name := ifName p.friendlyName
  name_lt := ifName_lt p.friendlyName
  rxBytes := row.received.octets
  txBytes := row.sent.octets
  rxPkts := row.received.ucast + row.received.nucast
  txPkts := row.sent.ucast + row.sent.nucast
  rxErrs := row.received.errors
  txErrs := row.sent.errors
  rxDrop := row.received.discards
  txDrop := row.sent.discards
  mtu := p.mtu
  up := p.operStatus = 1
  mac := p.physicalAddress.take 8
  speedMbps := p.transmitLinkSpeed / 1000000

/-- `pfs_net_ifstats` with room for `cap`, each with its adapter. -/
def netIfstats (adapters : List Adapter) (rows : List Row) (cap : Nat) : List (Nat × IfStat) :=
  (adapters.filterMap fun p => (ifRowOf rows p.ifIndex).map fun row => (p.luid, ifStat p row)).take cap

/-- `%02x` -/
def hex2 (b : UInt8) : Text := [Nat.digitChar (b.toNat / 16), Nat.digitChar (b.toNat % 16)]

/-- What `sysfs_net_walk` emits of one interface. -/
def ifFiles (s : IfStat) : List (Text × Text) :=
  (["rx_bytes", "tx_bytes", "rx_packets", "tx_packets", "rx_errors", "tx_errors", "rx_dropped",
      "tx_dropped"].zip [s.rxBytes, s.txBytes, s.rxPkts, s.txPkts, s.rxErrs, s.txErrs, s.rxDrop,
      s.txDrop]).map (fun f => ("statistics/".toList ++ f.1.toList, decimal f.2.toNat)) ++
    [("mtu".toList, decimal s.mtu.toNat),
      ("operstate".toList, if s.up then "up".toList else "down".toList),
      ("address".toList, [':'].intercalate ((List.range 6).map fun k => hex2 (s.mac.getD k 0))),
      ("carrier".toList, if s.up then "1".toList else "0".toList),
      ("speed".toList,
        if s.up = true ∧ s.speedMbps ≠ 0 then decimal s.speedMbps.toNat else "-1".toList)]

/-- `sysfs_net_walk` over what it has cached. -/
def netWalk (ifs : List (Nat × IfStat)) : List Emission :=
  ifs.flatMap fun s => (ifFiles s.2).map fun f => ⟨s.2.name ++ '/' :: f.1, f.2 ++ ['\n'], s.1⟩

/-! ## The battery -/

/-- `struct pfs_batt` -/
structure Batt where
  present : Bool
  ac : Bool
  charging : Bool
  discharging : Bool
  maxMwh : UInt32
  remMwh : UInt32
  rateMw : Int
  designMwh : UInt32
  cycles : UInt32
  chem : Text

def Batt.status (b : Batt) : Text :=
  if b.charging then "Charging".toList
  else if b.discharging then "Discharging".toList
  else if b.maxMwh ≤ b.remMwh then "Full".toList
  else "Unknown".toList

def Batt.technology (b : Batt) : Text :=
  if b.chem.take 4 = "NiCd".toList then "NiCd".toList
  else if b.chem.take 4 = "NiMH".toList then "NiMH".toList
  else if b.chem.take 3 = "LiP".toList then "Li-poly".toList
  else "Li-ion".toList

/-- The files of `BAT0`. -/
def Batt.files (b : Batt) : List (String × Text) :=
  [("type", "Battery".toList), ("present", decimal 1), ("status", b.status),
    ("capacity", decimal (if b.maxMwh = 0 then 0 else b.remMwh.toNat * 100 / b.maxMwh.toNat)),
    ("energy_now", decimal (b.remMwh.toNat * 1000)), ("energy_full", decimal (b.maxMwh.toNat * 1000)),
    ("energy_full_design",
      decimal ((if b.designMwh = 0 then b.maxMwh else b.designMwh).toNat * 1000)),
    ("cycle_count", decimal b.cycles.toNat),
    ("power_now", decimal (b.rateMw * 1000 % 2 ^ 64).toNat),
    ("voltage_now", decimal 11400000), ("model_name", "APE Battery".toList),
    ("manufacturer", "rust-ape".toList), ("technology", b.technology)]

/-- `sysfs_power_walk`; nothing where `pfs_battery` has no answer. -/
def powerWalk (b : Option Batt) : List Emission :=
  b.elim [] fun b =>
    [⟨"ADP0/type".toList, "Mains\n".toList, 0⟩,
      ⟨"ADP0/online".toList, if b.ac then "1\n".toList else "0\n".toList, 0⟩] ++
    if b.present then
      b.files.map fun f => ⟨"BAT0/".toList ++ f.1.toList, f.2 ++ ['\n'], 0⟩
    else []

/-! ## The processors -/

structure Cpus where
  /-- `pfs_cpu_mhz`: now and at most -/
  mhz : List (UInt32 × UInt32)
  /-- `pfs_cpu_topology`: core and package -/
  topo : List (UInt8 × UInt8)

/-- `sysfs_cpu_walk` over what it has cached. -/
def cpuWalk (c : Cpus) : List Emission :=
  if c.mhz = [] then []
  else
    ["online", "possible", "present"].map (fun f =>
        ⟨f.toList, "0-".toList ++ decimal (c.mhz.length - 1) ++ ['\n'], 0⟩) ++
      c.mhz.zipIdx.flatMap fun m =>
        let i := m.2
        let cpu := "cpu".toList ++ decimal i
        ([("scaling_cur_freq", m.1.1), ("scaling_max_freq", m.1.2), ("cpuinfo_max_freq", m.1.2),
            ("scaling_min_freq", 0), ("cpuinfo_min_freq", 0)].map fun f =>
          ⟨cpu ++ "/cpufreq/".toList ++ f.1.toList, decimal (f.2 * 1000).toNat ++ ['\n'], 0⟩) ++
        ([("core_id", ((c.topo[i]?).map fun t => t.1.toNat).getD i),
            ("physical_package_id", ((c.topo[i]?).map fun t => t.2.toNat).getD 0)].map fun f =>
          ⟨cpu ++ "/topology/".toList ++ f.1.toList, decimal f.2 ++ ['\n'], 0⟩)

/-! ## The slices with a walk -/

/-- What NT answers at a moment. -/
structure World where
  adapters : List Adapter
  rows : List Row
  battery : Option Batt
  cpus : Cpus

inductive Slice
  | net | power | cpu
  deriving DecidableEq, Repr

def Slice.all : List Slice := [.net, .power, .cpu]

/-- The prefix in `g_sysfs`. -/
def Slice.pre : Slice → Text
  | .net => "/sys/class/net".toList
  | .power => "/sys/class/power_supply".toList
  | .cpu => "/sys/devices/system/cpu".toList

/-- `NET_MS`, or a second: for the walk's cache and for the tree. -/
def Slice.window : Slice → Nat
  | .net => 250
  | _ => 1000

/-- What the walk emits of data read now. -/
def World.walk (w : World) : Slice → List Emission
  | .net => netWalk (netIfstats w.adapters w.rows 32)
  | .power => powerWalk w.battery
  | .cpu => cpuWalk w.cpus

/-- What follows the slice's prefix, if the path is the slice's root or lies under it. -/
def Slice.rest (k : Slice) (path : Text) : Option Text :=
  let rest := path.drop k.pre.length
  if k.pre.isPrefixOf path ∧ (rest = [] ∨ rest.head? = some '/') then some rest else none

end ApeShim.Slices
