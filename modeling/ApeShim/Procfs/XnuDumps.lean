import ApeShim.Lib.CString
import ApeShim.Procfs.SysTree
import ApeShim.Procfs.XnuSockets

/-!
The dumps of the XNU kernel (`shim/procfs/xnu.c`): the list of control blocks that `net_table` reads,
and the list of interfaces that `pfs_xnu_ifstats` reads. A dump is a sequence of records that each say
how long they are. A pointer is the list of the bytes from it to the end of the dump, and a read past
what may be read has no result.
-/

namespace ApeShim.XnuDumps
open Bytes CString Procfs XnuSys

/-! ## What may be read -/

/-- How much of the dump, from a record on, may be read for it, if it has so many bytes. -/
abbrev Window := List UInt8 → Nat → List UInt8

/-- All of it, as the code does. -/
def dump : Window := fun p _ => p

/-- The record's own bytes. -/
def own : Window := fun p n => p.take n

/-! ## Control blocks -/

/-- `sizeof(struct xnu_xtcpcb64)` or `sizeof(struct xnu_xinpcb64)` -/
def pcbSize (tcp : Bool) : Nat := if tcp then 296 else 260

/-- An address of sixteen bytes. -/
def inAddr? (w : List UInt8) (off : Nat) : Option InAddr :=
  (slice? w off 16).map fun s => ⟨.ofFn fun i => s.getD i 0, .ofFn fun i => s.getD (12 + i) 0⟩

/-- `t_state`, behind the block of a TCP record. -/
def tState? (tcp : Bool) (w : List UInt8) : Option Nat := if tcp then word? 4 w 292 else some 0

/-- The fields of a record that `net_table` reads; a TCP record has `xt_len` before the block. -/
def readPcb (tcp : Bool) (w : List UInt8) : Option Xinpcb := do
  let inp := if tcp then 4 else 0
  let tState ← tState? tcp w
  let fport ← word? 2 w (inp + 16)
  let lport ← word? 2 w (inp + 18)
  let vflag ← word? 1 w (inp + 92)
  let faddr ← inAddr? w (inp + 96)
  let laddr ← inAddr? w (inp + 112)
  let rcvCc ← word? 4 w (inp + 200)
  let sndCc ← word? 4 w (inp + 224)
  let uid ← word? 4 w (inp + 248)
  some
    { fport := .ofNat fport, lport := .ofNat lport, vflag := .ofNat vflag, faddr, laddr,
      tState := Int.bmod tState (2 ^ 32), sndCc := .ofNat sndCc, rcvCc := .ofNat rcvCc, uid := .ofNat uid }

/-- `rlen` -/
def rlen (p : List UInt8) : Nat := word 4 p 0

/-- The loop of `net_table` comes to the end of its body. -/
def PcbAt (tcp : Bool) (p : List UInt8) : Prop :=
  24 ≤ p.length ∧ 24 ≤ rlen p ∧ rlen p ≤ p.length ∧ pcbSize tcp ≤ rlen p

instance (tcp : Bool) (p : List UInt8) : Decidable (PcbAt tcp p) :=
  inferInstanceAs (Decidable (_ ∧ _ ∧ _ ∧ _))

def netLoop (win : Window) (tcp : Bool) (p : List UInt8) : Option (List Xinpcb) :=
  if _h : PcbAt tcp p then
    (readPcb tcp (win p (rlen p))).bind fun inp => (netLoop win tcp (p.drop (rlen p))).map (inp :: ·)
  else some []
  termination_by p.length
  decreasing_by
    have := _h.1
    have := _h.2.1
    rw [List.length_drop]
    omega

/-- `net_table` on the dump. -/
def netTable (win : Window) (tcp v6 : Bool) (raw : List UInt8) : Option (List XnuRow) :=
  if raw.length < 24 then some []
  else
    let genLen := word 4 raw 0
    if genLen = 0 ∨ raw.length < genLen then some []
    else (netLoop win tcp (raw.drop genLen)).map fun pcbs => Procfs.netTable tcp v6 (some pcbs)

/-! ## Interfaces -/

/-- `sizeof(struct xnu_if_msghdr2)` -/
def msgSize : Nat := 160

def XNU_RTM_IFINFO2 : UInt8 := 0x12

/-- Bytes as a text, up to the first NUL. -/
def textOf (s : List UInt8) : Text := (text s).map fun c => Char.ofNat c.toNat

/-- A name and a hardware address. -/
structure Link where
  name : Text
  name_lt : name.length < 16
  mac : List UInt8

theorem textOf_length (s : List UInt8) : (textOf s).length ≤ s.length := by
  rw [textOf, List.length_map]
  exact (List.takeWhile_sublist _).length_le

/-- What stands in `name` and `mac` before the link-level address is looked at. -/
def Link.plain (index : Nat) : Link where
  name := ("if".toList ++ decimal index).take 15
  name_lt := by
    rw [List.length_take]
    omega
  mac := []

/-- `nl`: what there is room for. -/
def nameLen (nlen : UInt8) : Nat := min nlen.toNat 15

/-- The name, if the dump has it; `room` bytes of the dump are left from the record on. -/
def Link.setName (l : Link) (room : Nat) (w : List UInt8) (nlen : UInt8) : Option Link :=
  if msgSize + 8 + nameLen nlen ≤ room then
    (slice? w (msgSize + 8) (nameLen nlen)).map fun s =>
      { l with
        name := textOf (s.take 15)
        name_lt := Nat.lt_succ_of_le ((textOf_length _).trans (List.length_take_le ..)) }
  else some l

/-- The hardware address, if the dump has it. -/
def Link.setMac (l : Link) (room : Nat) (w : List UInt8) (nlen alen : UInt8) : Option Link :=
  if alen ≠ 0 ∧ alen ≤ 8 ∧ msgSize + 8 + nlen.toNat + alen.toNat ≤ room then
    (slice? w (msgSize + 8 + nlen.toNat) alen.toNat).map fun s => { l with mac := s }
  else some l

/-- The link-level address behind the message. -/
def Link.read (l : Link) (room : Nat) (w : List UInt8) : Option Link := do
  let nlen ← w[msgSize + 5]?
  let l ← l.setName room w nlen
  let alen ← w[msgSize + 6]?
  l.setMac room w nlen alen

/-- The name and the address of an entry, if `ifm_addrs` has `XNU_RTA_IFP` from the link. -/
def linkOf (index addrs room : Nat) (w : List UInt8) : Option Link :=
  if addrs.testBit 4 then (Link.plain index).read room w else some (Link.plain index)

/-- One entry that `pfs_xnu_ifstats` fills. -/
def ifMessage (room : Nat) (w : List UInt8) : Option IfStat := do
  let index ← word? 2 w 12
  let addrs ← word? 4 w 4
  let l ← linkOf index addrs room w
  let rxBytes ← word? 8 w 96
  let txBytes ← word? 8 w 104
  let rxPkts ← word? 8 w 56
  let txPkts ← word? 8 w 72
  let rxErrs ← word? 8 w 64
  let txErrs ← word? 8 w 80
  let rxDrop ← word? 8 w 128
  let mtu ← word? 4 w 40
  let flags ← word? 4 w 8
  let baudrate ← word? 8 w 48
  some
    { name := l.name, name_lt := l.name_lt, rxBytes := .ofNat rxBytes, txBytes := .ofNat txBytes,
      rxPkts := .ofNat rxPkts, txPkts := .ofNat txPkts, rxErrs := .ofNat rxErrs,
      txErrs := .ofNat txErrs, rxDrop := .ofNat rxDrop, txDrop := 0, mtu := .ofNat mtu,
      up := flags.testBit 0 && flags.testBit 6, mac := l.mac, speedMbps := .ofNat (baudrate / 1000000) }

/-- `mlen` -/
def mlen (p : List UInt8) : Nat := word 2 p 0

/-- The loop of `pfs_xnu_ifstats` does not break. -/
def MessageAt (p : List UInt8) : Prop := 4 ≤ p.length ∧ mlen p ≠ 0 ∧ mlen p ≤ p.length

instance (p : List UInt8) : Decidable (MessageAt p) := inferInstanceAs (Decidable (_ ∧ _ ∧ _))

theorem next_length {p : List UInt8} (h : MessageAt p) : (p.drop (mlen p)).length < p.length := by
  have := h.1
  have := h.2.1
  rw [List.length_drop]
  omega

/-- The loop, with room for so many entries. -/
def ifLoop (win : Window) (free : Nat) (p : List UInt8) : Option (List IfStat) :=
  if _h : MessageAt p ∧ 0 < free then
    ((win p (mlen p))[3]?).bind fun type =>
      if type = XNU_RTM_IFINFO2 ∧ msgSize ≤ mlen p then
        (ifMessage p.length (win p (mlen p))).bind fun o =>
          (ifLoop win (free - 1) (p.drop (mlen p))).map (o :: ·)
      else ifLoop win free (p.drop (mlen p))
  else some []
  termination_by p.length
  decreasing_by all_goals exact next_length _h.1

/-- `pfs_xnu_ifstats` on a dump that was read now. -/
def pfsXnuIfstats (win : Window) (cap : Nat) (raw : List UInt8) : Option (List IfStat) :=
  (ifLoop win 32 raw).map (·.take cap)

/-! ## What is asked of them -/

/-- Nothing is read outside the dump, and it is all the same if of each record no more can be read
than the record says it has. -/
structure Within {α : Type} (walk : Window → List UInt8 → Option α) (raw : List UInt8) : Prop where
  inside : walk dump raw ≠ none
  own : walk own raw = walk dump raw

/-- The dumps are walked safely. -/
structure Safe (pcblist iflist : List UInt8) : Prop where
  net : ∀ tcp v6, Within (fun win => netTable win tcp v6) pcblist
  ifs : ∀ cap, Within (fun win => pfsXnuIfstats win cap) iflist

/-- The messages that the loop comes to. -/
def messages (free : Nat) (p : List UInt8) : List (List UInt8) :=
  if _h : MessageAt p ∧ 0 < free then
    p :: messages (if p.getD 3 0 = XNU_RTM_IFINFO2 ∧ msgSize ≤ mlen p then free - 1 else free)
      (p.drop (mlen p))
  else []
  termination_by p.length
  decreasing_by exact next_length _h.1

/-- The lengths in a link-level address. -/
def nlenOf (p : List UInt8) : UInt8 := p.getD (msgSize + 5) 0

def alenOf (p : List UInt8) : UInt8 := p.getD (msgSize + 6) 0

/-- A message has its header; and if it announces a link-level address, this has its lengths inside
the message, and so much of its name and hardware address as the dump has and will be copied. -/
structure Framed (p : List UInt8) : Prop where
  header : 4 ≤ mlen p
  lengths : p.getD 3 0 = XNU_RTM_IFINFO2 → msgSize ≤ mlen p → (word 4 p 4).testBit 4 = true →
    msgSize + 7 ≤ mlen p
  name : p.getD 3 0 = XNU_RTM_IFINFO2 → msgSize ≤ mlen p → (word 4 p 4).testBit 4 = true →
    nlenOf p ≠ 0 → msgSize + 8 + nameLen (nlenOf p) ≤ p.length →
      msgSize + 8 + nameLen (nlenOf p) ≤ mlen p
  address : p.getD 3 0 = XNU_RTM_IFINFO2 → msgSize ≤ mlen p → (word 4 p 4).testBit 4 = true →
    alenOf p ≠ 0 → alenOf p ≤ 8 →
      msgSize + 8 + (nlenOf p).toNat + (alenOf p).toNat ≤ p.length →
        msgSize + 8 + (nlenOf p).toNat + (alenOf p).toNat ≤ mlen p

/-! ## Control blocks, whatever the dump -/

section Pcbs

variable {tcp : Bool} {p w : List UInt8}

theorem inAddr?_some {off : Nat} (h : off + 16 ≤ w.length) : ∃ a, inAddr? w off = some a := by
  rw [inAddr?, slice?, if_pos (Or.inr h)]
  exact ⟨_, rfl⟩

/-- A record of its size has every field. -/
theorem readPcb_some (h : pcbSize tcp ≤ w.length) : ∃ inp, readPcb tcp w = some inp := by
  have hinp : (if tcp then 4 else 0) + 252 ≤ w.length := by cases tcp <;> simp [pcbSize] at h ⊢ <;> omega
  obtain ⟨t, ht⟩ : ∃ t, tState? tcp w = some t := by
    cases tcp with
    | true => exact ⟨_, word?_eq h⟩
    | false => exact ⟨0, rfl⟩
  obtain ⟨faddr, hf⟩ := @inAddr?_some w ((if tcp then 4 else 0) + 96) (by omega)
  obtain ⟨laddr, hl⟩ := @inAddr?_some w ((if tcp then 4 else 0) + 112) (by omega)
  rw [readPcb, ht]
  simp (disch := omega) only [Option.bind_eq_bind, Option.bind_some, word?_eq, hf, hl]
  exact ⟨_, rfl⟩

theorem inAddr?_under (p : List UInt8) (off n : Nat) :
    Under (inAddr? (p.take n) off) (inAddr? p off) := (slice?_under p off 16 n).map _

theorem readPcb_under (tcp : Bool) (p : List UInt8) (n : Nat) :
    Under (readPcb tcp (p.take n)) (readPcb tcp p) := by
  have hstate : Under (tState? tcp (p.take n)) (tState? tcp p) := by
    cases tcp with
    | true => exact word?_under 4 p 292 n
    | false => exact .refl _
  refine hstate.bind fun _ => (word?_under _ p _ n).bind fun _ => (word?_under _ p _ n).bind fun _ =>
    (word?_under _ p _ n).bind fun _ => (inAddr?_under p _ n).bind fun _ =>
    (inAddr?_under p _ n).bind fun _ => (word?_under _ p _ n).bind fun _ =>
    (word?_under _ p _ n).bind fun _ => (word?_under _ p _ n).bind fun _ => .refl _

theorem netLoop_at {win : Window} (h : PcbAt tcp p) : netLoop win tcp p =
    (readPcb tcp (win p (rlen p))).bind fun inp =>
      (netLoop win tcp (p.drop (rlen p))).map (inp :: ·) := by
  rw [netLoop, dif_pos h]

theorem netLoop_end {win : Window} (h : ¬ PcbAt tcp p) : netLoop win tcp p = some [] := by
  rw [netLoop, dif_neg h]

/-- Each record on its own tells the same. -/
theorem netLoop_own (tcp : Bool) (p : List UInt8) :
    ∃ pcbs, netLoop own tcp p = some pcbs ∧ netLoop dump tcp p = some pcbs := by
  induction hn : p.length using Nat.strongRecOn generalizing p with
  | _ n ih =>
    by_cases h : PcbAt tcp p
    · have hlen : (own p (rlen p)).length = rlen p := by
        rw [own, List.length_take]
        exact Nat.min_eq_left h.2.2.1
      obtain ⟨inp, hinp⟩ := @readPcb_some tcp (own p (rlen p)) (by rw [hlen]; exact h.2.2.2)
      have hdump : readPcb tcp (dump p (rlen p)) = some inp := readPcb_under tcp p _ inp hinp
      have hless : (p.drop (rlen p)).length < n := by
        have := h.1
        have := h.2.1
        rw [List.length_drop]
        omega
      obtain ⟨pcbs, hown, hrest⟩ := ih _ hless _ rfl
      rw [netLoop_at h, netLoop_at h, hinp, hdump, Option.bind_some, Option.bind_some, hown, hrest]
      exact ⟨_, rfl, rfl⟩
    · exact ⟨[], netLoop_end h, netLoop_end h⟩

/-- The list of control blocks is walked safely. -/
theorem netTable_within (tcp v6 : Bool) (raw : List UInt8) :
    Within (fun win => netTable win tcp v6) raw := by
  have hboth : ∃ rows, netTable own tcp v6 raw = some rows ∧ netTable dump tcp v6 raw = some rows := by
    rw [netTable, netTable]
    dsimp only
    split
    · exact ⟨[], rfl, rfl⟩
    split
    · exact ⟨[], rfl, rfl⟩
    obtain ⟨pcbs, hown, hdump⟩ := netLoop_own tcp (raw.drop (word 4 raw 0))
    rw [hown, hdump]
    exact ⟨_, rfl, rfl⟩
  obtain ⟨rows, hown, hdump⟩ := hboth
  exact ⟨by rw [hdump]; exact Option.some_ne_none rows, by rw [hown, hdump]⟩

end Pcbs

/-! ## A message -/

section Message

variable {p w : List UInt8} {l : Link} {room : Nat} {nlen alen : UInt8}

theorem slice?_ne_none {off n : Nat} : slice? w off n ≠ none ↔ n = 0 ∨ off + n ≤ w.length := by
  rw [slice?]
  split
  · exact iff_of_true (Option.some_ne_none _) ‹_›
  · exact iff_of_false (fun h => h rfl) ‹_›

theorem nameLen_eq_zero : nameLen nlen = 0 ↔ nlen = 0 := by
  rw [nameLen, ← UInt8.toNat_inj]
  change min nlen.toNat 15 = 0 ↔ nlen.toNat = 0
  omega

theorem setName_ne_none : l.setName room w nlen ≠ none ↔
    (nlen ≠ 0 → msgSize + 8 + nameLen nlen ≤ room → msgSize + 8 + nameLen nlen ≤ w.length) := by
  rw [Link.setName]
  split
  · rename_i hroom
    rw [ne_eq, Option.map_eq_none_iff, ← ne_eq, slice?_ne_none, nameLen_eq_zero]
    tauto
  · rename_i hroom
    exact iff_of_true (Option.some_ne_none l) fun _ h => absurd h hroom

theorem setMac_ne_none : l.setMac room w nlen alen ≠ none ↔
    (alen ≠ 0 → alen ≤ 8 → msgSize + 8 + nlen.toNat + alen.toNat ≤ room →
      msgSize + 8 + nlen.toNat + alen.toNat ≤ w.length) := by
  rw [Link.setMac]
  split
  · rename_i h
    have h0 : alen.toNat ≠ 0 := fun h0 => h.1 (UInt8.toNat_inj.mp h0)
    rw [ne_eq, Option.map_eq_none_iff, ← ne_eq, slice?_ne_none]
    tauto
  · rename_i h
    exact iff_of_true (Option.some_ne_none l) fun h1 h2 h3 => absurd ⟨h1, h2, h3⟩ h

/-- What the link-level address needs of a message. -/
theorem read_ne_none : l.read room w ≠ none ↔ msgSize + 7 ≤ w.length ∧
    (nlenOf w ≠ 0 → msgSize + 8 + nameLen (nlenOf w) ≤ room →
      msgSize + 8 + nameLen (nlenOf w) ≤ w.length) ∧
    (alenOf w ≠ 0 → alenOf w ≤ 8 → msgSize + 8 + (nlenOf w).toNat + (alenOf w).toNat ≤ room →
      msgSize + 8 + (nlenOf w).toNat + (alenOf w).toNat ≤ w.length) := by
  by_cases hlen : msgSize + 7 ≤ w.length
  · have hn : w[msgSize + 5]? = some (nlenOf w) := by
      rw [nlenOf, List.getD_eq_getElem?_getD, List.getElem?_eq_getElem (by omega), Option.getD_some]
    have ha : w[msgSize + 6]? = some (alenOf w) := by
      rw [alenOf, List.getD_eq_getElem?_getD, List.getElem?_eq_getElem (by omega), Option.getD_some]
    rw [Link.read, hn, ← @setName_ne_none w l room (nlenOf w)]
    simp only [Option.bind_eq_bind, Option.bind_some, ha, hlen, true_and]
    cases hname : l.setName room w (nlenOf w) with
    | none => simp
    | some l' =>
      rw [Option.bind_some, setMac_ne_none]
      exact ⟨fun h => ⟨Option.some_ne_none l', h⟩, fun h => h.2⟩
  · refine iff_of_false (fun h => h ?_) fun h => hlen h.1
    have ha : w[msgSize + 6]? = none := List.getElem?_eq_none (by omega)
    rw [Link.read]
    cases w[msgSize + 5]? with
    | none => rfl
    | some nlen =>
      cases hname : l.setName room w nlen with
      | none => simp [hname]
      | some l' => simp [ha]

theorem ifMessage_ne_none (hlen : msgSize ≤ w.length) : ifMessage room w ≠ none ↔
    ((word 4 w 4).testBit 4 = true → (Link.plain (word 2 w 12)).read room w ≠ none) := by
  have hsize : msgSize = 160 := rfl
  rw [ifMessage]
  simp (disch := omega) only [Option.bind_eq_bind, Option.bind_some, word?_eq]
  by_cases hbit : (word 4 w 4).testBit 4 = true
  · rw [linkOf, if_pos hbit]
    cases (Link.plain (word 2 w 12)).read room w with
    | none => simp [hbit]
    | some l => simp
  · rw [linkOf, if_neg hbit]
    simp [hbit]

theorem setName_under (l : Link) (room : Nat) (p : List UInt8) (nlen : UInt8) (n : Nat) :
    Under (l.setName room (p.take n) nlen) (l.setName room p nlen) := by
  rw [Link.setName, Link.setName]
  split
  · exact (slice?_under p _ _ n).map _
  · exact .refl _

theorem setMac_under (l : Link) (room : Nat) (p : List UInt8) (nlen alen : UInt8) (n : Nat) :
    Under (l.setMac room (p.take n) nlen alen) (l.setMac room p nlen alen) := by
  rw [Link.setMac, Link.setMac]
  split
  · exact (slice?_under p _ _ n).map _
  · exact .refl _

theorem read_under (l : Link) (room : Nat) (p : List UInt8) (n : Nat) :
    Under (l.read room (p.take n)) (l.read room p) :=
  (byte_under p _ n).bind fun nlen => (setName_under l room p nlen n).bind fun l' =>
    (byte_under p _ n).bind fun alen => setMac_under l' room p nlen alen n

theorem ifMessage_under (room : Nat) (p : List UInt8) (n : Nat) :
    Under (ifMessage room (p.take n)) (ifMessage room p) := by
  refine (word?_under _ p _ n).bind fun index => (word?_under _ p _ n).bind fun addrs => ?_
  have hlink : Under (linkOf index addrs room (p.take n)) (linkOf index addrs room p) := by
    rw [linkOf, linkOf]
    split
    · exact read_under _ room p n
    · exact .refl _
  refine hlink.bind fun l => (word?_under _ p _ n).bind fun _ => (word?_under _ p _ n).bind fun _ =>
    (word?_under _ p _ n).bind fun _ => (word?_under _ p _ n).bind fun _ =>
    (word?_under _ p _ n).bind fun _ => (word?_under _ p _ n).bind fun _ =>
    (word?_under _ p _ n).bind fun _ => (word?_under _ p _ n).bind fun _ =>
    (word?_under _ p _ n).bind fun _ => (word?_under _ p _ n).bind fun _ => .refl _

/-- What it takes to read a message from its own bytes. -/
theorem own_ne_none (h : MessageAt p) (hsize : msgSize ≤ mlen p)
    (htype : p.getD 3 0 = XNU_RTM_IFINFO2) :
    ifMessage p.length (own p (mlen p)) ≠ none ↔ Framed p := by
  have h160 : msgSize = 160 := rfl
  have hlen : (own p (mlen p)).length = mlen p := by
    rw [own, List.length_take]
    exact Nat.min_eq_left h.2.2
  have haddrs : word 4 (own p (mlen p)) 4 = word 4 p 4 := by
    have hslice : slice (own p (mlen p)) 4 4 = slice p 4 4 := slice_take (by omega)
    exact congrArg leValue hslice
  rw [ifMessage_ne_none (by omega), haddrs, read_ne_none, hlen]
  have hbytes : msgSize + 7 ≤ mlen p →
      nlenOf (own p (mlen p)) = nlenOf p ∧ alenOf (own p (mlen p)) = alenOf p := by
    intro h7
    constructor
    · rw [nlenOf, nlenOf, own, List.getD_eq_getElem?_getD, List.getD_eq_getElem?_getD,
        List.getElem?_take_of_lt (by omega)]
    · rw [alenOf, alenOf, own, List.getD_eq_getElem?_getD, List.getD_eq_getElem?_getD,
        List.getElem?_take_of_lt (by omega)]
  constructor
  · intro hall
    refine ⟨by omega, fun _ _ hbit => (hall hbit).1, fun _ _ hbit => ?_, fun _ _ hbit => ?_⟩
    · obtain ⟨h7, hname, -⟩ := hall hbit
      rwa [(hbytes h7).1] at hname
    · obtain ⟨h7, -, hmac⟩ := hall hbit
      rwa [(hbytes h7).1, (hbytes h7).2] at hmac
  · intro hf hbit
    have h7 := hf.lengths htype hsize hbit
    rw [(hbytes h7).1, (hbytes h7).2]
    exact ⟨h7, hf.name htype hsize hbit, hf.address htype hsize hbit⟩

end Message

/-! ## The interfaces -/

section Interfaces

variable {p : List UInt8} {free : Nat} {win : Window}

theorem ifLoop_at (h : MessageAt p) (hfree : 0 < free) : ifLoop win free p =
    ((win p (mlen p))[3]?).bind fun type =>
      if type = XNU_RTM_IFINFO2 ∧ msgSize ≤ mlen p then
        (ifMessage p.length (win p (mlen p))).bind fun o =>
          (ifLoop win (free - 1) (p.drop (mlen p))).map (o :: ·)
      else ifLoop win free (p.drop (mlen p)) := by
  rw [ifLoop, dif_pos ⟨h, hfree⟩]

theorem ifLoop_end (h : ¬ (MessageAt p ∧ 0 < free)) : ifLoop win free p = some [] := by
  rw [ifLoop, dif_neg h]

theorem type_eq (h : MessageAt p) (h4 : 4 ≤ mlen p) : (own p (mlen p))[3]? = some (p.getD 3 0) := by
  have := h.1
  rw [own, List.getElem?_take_of_lt (by omega), List.getD_eq_getElem?_getD,
    List.getElem?_eq_getElem (by omega), Option.getD_some]

/-- From its own bytes each message can be read if they are framed. -/
theorem ifLoop_ne_none (free : Nat) (p : List UInt8) :
    ifLoop own free p ≠ none ↔ ∀ m ∈ messages free p, Framed m := by
  induction hn : p.length using Nat.strongRecOn generalizing free p with
  | _ n ih =>
    by_cases h : MessageAt p ∧ 0 < free
    · have hless := hn ▸ next_length h.1
      have hcons : messages free p = p :: messages
          (if p.getD 3 0 = XNU_RTM_IFINFO2 ∧ msgSize ≤ mlen p then free - 1 else free)
          (p.drop (mlen p)) := by rw [messages, dif_pos h]
      rw [ifLoop_at h.1 h.2, hcons, List.forall_mem_cons]
      by_cases h4 : 4 ≤ mlen p
      · rw [type_eq h.1 h4, Option.bind_some]
        by_cases hinfo : p.getD 3 0 = XNU_RTM_IFINFO2 ∧ msgSize ≤ mlen p
        · rw [if_pos hinfo, if_pos hinfo, ← own_ne_none h.1 hinfo.2 hinfo.1, ← ih _ hless _ _ rfl]
          cases ifMessage p.length (own p (mlen p)) with
          | none => simp
          | some o => simp
        · rw [if_neg hinfo, if_neg hinfo, ih _ hless _ _ rfl]
          have hframed : Framed p := ⟨h4, fun ht hs => absurd ⟨ht, hs⟩ hinfo,
            fun ht hs => absurd ⟨ht, hs⟩ hinfo, fun ht hs => absurd ⟨ht, hs⟩ hinfo⟩
          exact ⟨fun hall => ⟨hframed, hall⟩, fun hall => hall.2⟩
      · refine iff_of_false (fun hne => hne ?_) fun hall => h4 hall.1.header
        rw [own, List.getElem?_eq_none (by rw [List.length_take]; omega)]
        rfl
    · have hnil : messages free p = [] := by rw [messages, dif_neg h]
      rw [ifLoop_end h, hnil]
      simp

theorem ifLoop_under (free : Nat) (p : List UInt8) :
    Under (ifLoop own free p) (ifLoop dump free p) := by
  induction hn : p.length using Nat.strongRecOn generalizing free p with
  | _ n ih =>
    by_cases h : MessageAt p ∧ 0 < free
    · have hless := hn ▸ next_length h.1
      rw [ifLoop_at h.1 h.2, ifLoop_at h.1 h.2]
      refine (byte_under p 3 (mlen p)).bind fun type => ?_
      split
      · exact (ifMessage_under p.length p (mlen p)).bind fun o => (ih _ hless _ _ rfl).map _
      · exact ih _ hless _ _ rfl
    · rw [ifLoop_end h, ifLoop_end h]
      exact .refl _

theorem ifstats_within (cap : Nat) (raw : List UInt8) :
    Within (fun win => pfsXnuIfstats win cap) raw ↔ ∀ m ∈ messages 32 raw, Framed m := by
  have hunder : Under (pfsXnuIfstats own cap raw) (pfsXnuIfstats dump cap raw) :=
    (ifLoop_under 32 raw).map _
  rw [← ifLoop_ne_none]
  constructor
  · intro h hnone
    apply h.inside
    rw [← h.own, pfsXnuIfstats, hnone]
    rfl
  · intro h
    have hne : pfsXnuIfstats own cap raw ≠ none := by rwa [pfsXnuIfstats, ne_eq, Option.map_eq_none_iff]
    have heq := hunder.eq hne
    exact ⟨heq ▸ hne, heq⟩

end Interfaces

/-- **The walks are safe exactly on these dumps**: the list of control blocks always, the list of
interfaces if its messages are framed. -/
theorem xnu_dumps_safe_iff (pcblist iflist : List UInt8) :
    Safe pcblist iflist ↔ ∀ m ∈ messages 32 iflist, Framed m := by
  constructor
  · intro h
    exact (ifstats_within 0 iflist).mp (h.ifs 0)
  · intro h
    exact ⟨fun tcp v6 => netTable_within tcp v6 pcblist, fun cap => (ifstats_within cap iflist).mpr h⟩

/-- One message that announces a link-level address and ends before it. -/
def bareMessage : List UInt8 := [160, 0, 0, 0x12, 0x10, 0, 0, 0] ++ List.replicate 152 0

/-- A message whose name has four bytes, all of them the next message. -/
def foreignName : List UInt8 :=
  [168, 0, 0, 0x12, 0x10, 0, 0, 0] ++ List.replicate 157 0 ++ [4, 0, 0] ++ [4, 0, 0, 0]

theorem xnu_dumps_unsafe : pfsXnuIfstats dump 32 bareMessage = none ∧ ¬ Safe [] bareMessage ∧
    ¬ Safe [] foreignName := by
  have hfirst : ∀ raw, MessageAt raw → raw ∈ messages 32 raw := by
    intro raw h
    rw [messages, dif_pos ⟨h, by decide⟩]
    exact List.mem_cons_self
  have hbare : pfsXnuIfstats dump 32 bareMessage = none := by
    have hat : MessageAt bareMessage := by decide +kernel
    have htype : (dump bareMessage (mlen bareMessage))[3]? = some XNU_RTM_IFINFO2 := by decide +kernel
    have hread : ifMessage bareMessage.length bareMessage = none := by
      by_contra h
      have hlink := (ifMessage_ne_none (by decide +kernel)).mp h (by decide +kernel)
      exact absurd (read_ne_none.mp hlink).1 (by decide +kernel)
    rw [pfsXnuIfstats, ifLoop_at hat (by decide), htype, Option.bind_some,
      if_pos ⟨rfl, by decide +kernel⟩, dump, hread]
    rfl
  refine ⟨hbare, fun h => (h.ifs 32).inside hbare, fun h => ?_⟩
  have hframed := (ifstats_within 0 _).mp (h.ifs 0) _ (hfirst foreignName (by decide +kernel))
  have hname := hframed.name (by decide +kernel) (by decide +kernel) (by decide +kernel)
    (by decide +kernel) (by decide +kernel)
  exact absurd hname (by decide +kernel)

end ApeShim.XnuDumps
