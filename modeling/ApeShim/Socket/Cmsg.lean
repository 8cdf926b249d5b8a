import ApeShim.Lib.Bytes
import ApeShim.Socket.Options
import Mathlib.Data.List.TakeWhile

/-!
Control messages (`shim/socket.c`): `cmsgs_to_bsd` and `cmsgs_to_linux_layout`,
between musl's 16-byte header and the BSDs' 12-byte one. Buffers are byte lists;
what a walker has written of its destination is a list, with the bytes it skips
taken from what the destination held before.
-/

namespace ApeShim.Socket
open Bytes

structure Cmsg where
  level : Num
  type : Num
  payload : List UInt8
  deriving DecidableEq, Repr

/-! ## Level and type -/

namespace Consts

def hostLevel (h : Consts) (level : Num) : Num :=
  if level = linSolSocket then h.solSocket else level

def cmsgToHost (h : Consts) (level type : Num) : Num × Num :=
  if level = linSolSocket then (h.solSocket, type)
  else if level = linIpprotoIp then (level, lookup h.kIp type)
  else if level = linIpprotoIpv6 then (level, lookup h.kIpv6 type)
  else (level, type)

def cmsgToLinux (h : Consts) (level type : Num) : Num × Num :=
  if level = h.solSocket then (linSolSocket, type)
  else if level = linIpprotoIp then (level, lookupToLinux h.kIp type)
  else if level = linIpprotoIpv6 then (level, lookupToLinux h.kIpv6 type)
  else (level, type)

end Consts

/-! ## The walkers -/

/-- `IsXnu()`. -/
def hostAlign (xnu : Bool) : Nat := if xnu then 4 else 8

def cmsgAlignHost (xnu : Bool) (n : Nat) : Nat := alignUp (hostAlign xnu) n

def bsdEntry (level type : Num) (payload : List UInt8) : List UInt8 :=
  le 4 (12 + payload.length) ++ le 4 level.toNat ++ le 4 type.toNat ++ payload

def linuxEntry (level type : Num) (payload : List UInt8) : List UInt8 :=
  le 8 (16 + payload.length) ++ le 4 level.toNat ++ le 4 type.toNat ++ payload

def numAt (src : List UInt8) (off : Nat) : Num := BitVec.ofNat 32 (word 4 src off)

/-- The loop of `cmsgs_to_bsd`; `out` is `dst[0 .. di)`. The length is read as an
`unsigned long`. -/
def toBsdLoop (h : Consts) (xnu : Bool) (src dst : List UInt8) :
    Nat → Nat → List UInt8 → Option (List UInt8)
  | 0, _, out => some out
  | fuel + 1, si, out =>
      if si + 16 ≤ src.length then
        let len := word 8 src si
        if len < 16 ∨ len > src.length - si then some out
        else
          let payload := len - 16
          let blen := 12 + payload
          if cmsgAlignHost xnu blen > dst.length - out.length then none
          else
            let r := h.cmsgToHost (numAt src (si + 8)) (numAt src (si + 12))
            let entry := bsdEntry r.1 r.2 (slice src (si + 16) payload)
            let gap := slice dst (out.length + blen) (cmsgAlignHost xnu blen - blen)
            toBsdLoop h xnu src dst fuel (si + alignUp 8 len) (out ++ (entry ++ gap))
      else some out

/-- `cmsgs_to_bsd`: the bytes written, or none where the stream would not fit. -/
def cmsgsToBsd (h : Consts) (xnu : Bool) (src dst : List UInt8) : Option (List UInt8) :=
  toBsdLoop h xnu src dst src.length 0 []

/-- The loop of `cmsgs_to_linux_layout`. The length is read as an `unsigned`. -/
def toLinuxLoop (h : Consts) (xnu : Bool) (src dst : List UInt8) :
    Nat → Nat → List UInt8 → List UInt8
  | 0, _, out => out
  | fuel + 1, si, out =>
      if si + 12 ≤ src.length then
        let blen := word 4 src si
        if blen < 12 ∨ blen > src.length - si then out
        else
          let payload := blen - 12
          let llen := 16 + payload
          if alignUp 8 llen > dst.length - out.length then out
          else
            let r := h.cmsgToLinux (numAt src (si + 4)) (numAt src (si + 8))
            let entry := linuxEntry r.1 r.2 (slice src (si + 12) payload)
            let gap := slice dst (out.length + llen) (alignUp 8 llen - llen)
            toLinuxLoop h xnu src dst fuel (si + cmsgAlignHost xnu blen) (out ++ (entry ++ gap))
      else out

def cmsgsToLinuxLayout (h : Consts) (xnu : Bool) (src dst : List UInt8) : List UInt8 :=
  toLinuxLoop h xnu src dst src.length 0 []

/-! ## What a buffer says -/

/-- The messages of a Linux control buffer, as its readers walk it: a 32-bit
`cmsg_len` and steps of 8. -/
def linuxMsgs : Nat → List UInt8 → List Cmsg
  | 0, _ => []
  | fuel + 1, buf =>
      if 16 ≤ buf.length then
        let len := word 4 buf 0
        if len < 16 ∨ len > buf.length then []
        else
          ⟨numAt buf 8, numAt buf 12, slice buf 16 (len - 16)⟩ ::
            linuxMsgs fuel (buf.drop (alignUp 8 len))
      else []

/-- The messages of a BSD control buffer. -/
def bsdMsgs (xnu : Bool) : Nat → List UInt8 → List Cmsg
  | 0, _ => []
  | fuel + 1, buf =>
      if 12 ≤ buf.length then
        let len := word 4 buf 0
        if len < 12 ∨ len > buf.length then []
        else
          ⟨numAt buf 4, numAt buf 8, slice buf 12 (len - 12)⟩ ::
            bsdMsgs xnu fuel (buf.drop (cmsgAlignHost xnu len))
      else []

/-! ## Layouts -/

/-- musl's header: `cmsg_len`, a padding word, level, type. -/
def linuxHead (m : Cmsg) (pad : Num) : List UInt8 :=
  le 4 (16 + m.payload.length) ++ (le 4 pad.toNat ++ (le 4 m.level.toNat ++ le 4 m.type.toNat))

def linuxLen (m : Cmsg) : Nat := 16 + m.payload.length

def bsdLen (m : Cmsg) : Nat := 12 + m.payload.length

/-- A well-formed Linux control buffer over its messages, each with the content of
its padding word. The last message may lack part of its gap, and less than a
header may be left over. -/
inductive LinuxLayout : List UInt8 → List (Cmsg × Num) → Prop
  | done {slack : List UInt8} (h : slack.length < 16) : LinuxLayout slack []
  | last {m : Cmsg} {pad : Num} {gap : List UInt8}
      (h : gap.length ≤ alignUp 8 (linuxLen m) - linuxLen m) :
      LinuxLayout (linuxHead m pad ++ (m.payload ++ gap)) [(m, pad)]
  | more {m : Cmsg} {pad : Num} {gap rest : List UInt8} {ms : List (Cmsg × Num)}
      (h : gap.length = alignUp 8 (linuxLen m) - linuxLen m) (hrest : LinuxLayout rest ms) :
      LinuxLayout (linuxHead m pad ++ (m.payload ++ (gap ++ rest))) ((m, pad) :: ms)

/-- What `cmsgs_to_bsd` writes: every entry with its whole gap. -/
inductive BsdLayout (xnu : Bool) : List UInt8 → List Cmsg → Prop
  | done : BsdLayout xnu [] []
  | more {m : Cmsg} {gap rest : List UInt8} {ms : List Cmsg}
      (h : gap.length = cmsgAlignHost xnu (bsdLen m) - bsdLen m) (hlen : linuxLen m < 2 ^ 32)
      (hrest : BsdLayout xnu rest ms) :
      BsdLayout xnu (bsdEntry m.level m.type m.payload ++ (gap ++ rest)) (m :: ms)

theorem le_cmsgAlignHost (xnu : Bool) (n : Nat) : n ≤ cmsgAlignHost xnu n := by
  cases xnu with
  | true =>
    simp only [cmsgAlignHost, hostAlign, alignUp, if_true]
    omega
  | false =>
    simp only [cmsgAlignHost, hostAlign, alignUp, Bool.false_eq_true, if_false]
    omega

theorem alignUp_eight (n : Nat) : alignUp 8 n = (n + 7) / 8 * 8 := rfl

theorem leValue_num (x : Num) : BitVec.ofNat 32 (leValue (le 4 x.toNat)) = x := by
  rw [leValue_le]
  apply BitVec.eq_of_toNat_eq
  have := x.isLt
  rw [BitVec.toNat_ofNat]
  omega

theorem numAt_at {src : List UInt8} {off : Nat} {x : Num} (pre rest : List UInt8)
    (hsrc : src = pre ++ (le 4 x.toNat ++ rest)) (ho : off = pre.length) : numAt src off = x := by
  rw [hsrc, numAt, word_at pre (le 4 x.toNat) rest (le_length _ _) ho, leValue_num]

@[simp] theorem linuxHead_length (m : Cmsg) (pad : Num) : (linuxHead m pad).length = 16 := by
  simp [linuxHead]

@[simp] theorem bsdEntry_length (level type : Num) (payload : List UInt8) :
    (bsdEntry level type payload).length = 12 + payload.length := by
  simp only [bsdEntry, List.length_append, le_length]

/-- What the walkers read at a message of a Linux buffer. -/
structure LinuxReads (src : List UInt8) (si : Nat) (m : Cmsg) (pad : Num) : Prop where
  len64 : word 8 src si = linuxLen m + 2 ^ 32 * pad.toNat
  len32 : word 4 src si = linuxLen m
  level : numAt src (si + 8) = m.level
  type : numAt src (si + 12) = m.type
  payload : slice src (si + 16) m.payload.length = m.payload

theorem linuxReads {src tail : List UInt8} {m : Cmsg} {pad : Num} {si : Nat} (pre : List UInt8)
    (hsrc : src = pre ++ (linuxHead m pad ++ (m.payload ++ tail))) (hsi : si = pre.length)
    (hlen : linuxLen m < 2 ^ 32) : LinuxReads src si m pad := by
  have h4 : leValue (le 4 (linuxLen m)) = linuxLen m := by
    rw [leValue_le]
    omega
  have hpad : leValue (le 4 pad.toNat) = pad.toNat := by
    have := pad.isLt
    rw [leValue_le]
    omega
  have hsplit : src = pre ++ (le 4 (linuxLen m) ++ (le 4 pad.toNat ++ (le 4 m.level.toNat ++
      (le 4 m.type.toNat ++ (m.payload ++ tail))))) := by
    simp [hsrc, linuxHead, linuxLen, List.append_assoc]
  constructor
  · rw [hsplit, ← List.append_assoc (le 4 (linuxLen m)),
      word_at pre (le 4 (linuxLen m) ++ le 4 pad.toNat) _ (by simp) hsi, leValue_append, h4, hpad,
      le_length]
    omega
  · rw [hsplit, word_at pre (le 4 (linuxLen m)) _ (by simp) hsi, h4]
  · exact numAt_at (pre ++ (le 4 (linuxLen m) ++ le 4 pad.toNat)) _
      (by rw [hsplit]; simp only [List.append_assoc]; rfl) (by simp [hsi])
  · exact numAt_at (pre ++ (le 4 (linuxLen m) ++ (le 4 pad.toNat ++ le 4 m.level.toNat))) _
      (by rw [hsplit]; simp only [List.append_assoc]; rfl) (by simp [hsi])
  · rw [hsrc, ← List.append_assoc]
    exact slice_at (pre ++ linuxHead m pad) m.payload tail rfl (by simp [hsi])

/-- What the walkers read at an entry of a BSD buffer. -/
structure BsdReads (src : List UInt8) (si : Nat) (m : Cmsg) : Prop where
  len : word 4 src si = bsdLen m
  level : numAt src (si + 4) = m.level
  type : numAt src (si + 8) = m.type
  payload : slice src (si + 12) m.payload.length = m.payload

theorem bsdReads {src tail : List UInt8} {m : Cmsg} {si : Nat} (pre : List UInt8)
    (hsrc : src = pre ++ (bsdEntry m.level m.type m.payload ++ tail)) (hsi : si = pre.length)
    (hlen : bsdLen m < 2 ^ 32) : BsdReads src si m := by
  have h4 : leValue (le 4 (bsdLen m)) = bsdLen m := by
    rw [leValue_le]
    omega
  have hsplit : src = pre ++ (le 4 (bsdLen m) ++ (le 4 m.level.toNat ++ (le 4 m.type.toNat ++
      (m.payload ++ tail)))) := by
    simp [hsrc, bsdEntry, bsdLen, List.append_assoc]
  constructor
  · rw [hsplit, word_at pre (le 4 (bsdLen m)) _ (by simp) hsi, h4]
  · exact numAt_at (pre ++ le 4 (bsdLen m)) _
      (by rw [hsplit]; simp only [List.append_assoc]; rfl) (by simp [hsi])
  · exact numAt_at (pre ++ (le 4 (bsdLen m) ++ le 4 m.level.toNat)) _
      (by rw [hsplit]; simp only [List.append_assoc]; rfl) (by simp [hsi])
  · have hpay : src = (pre ++ (le 4 (bsdLen m) ++ (le 4 m.level.toNat ++ le 4 m.type.toNat))) ++
        (m.payload ++ tail) := by
      rw [hsplit]
      simp only [List.append_assoc]
    rw [hpay]
    exact slice_at _ m.payload tail rfl (by simp [hsi])

/-! ## Out -/

def Cmsg.toHost (h : Consts) (m : Cmsg) : Cmsg :=
  let r := h.cmsgToHost m.level m.type
  ⟨r.1, r.2, m.payload⟩

def Cmsg.toLinux (h : Consts) (m : Cmsg) : Cmsg :=
  let r := h.cmsgToLinux m.level m.type
  ⟨r.1, r.2, m.payload⟩

/-- The messages before the first whose padding word is not 0. -/
def clean (ms : List (Cmsg × Num)) : List Cmsg :=
  (ms.takeWhile fun m => m.2 = 0#32).map Prod.fst

/-- One message of a clean header. The entry fits whenever what it is made from
does, since 1024 is a multiple of both alignments. -/
theorem toBsdLoop_entry (h : Consts) (xnu : Bool) (dst out : List UInt8) (fuel : Nat)
    {src : List UInt8} {si : Nat} {m : Cmsg} (hr : LinuxReads src si m 0#32) (hfit : si + linuxLen m ≤ src.length)
    (hsrc : src.length ≤ 1024) (hdst : dst.length = 1024) (hmod : si % 8 = 0)
    (hout : out.length ≤ si) :
    ∃ gap, gap.length = cmsgAlignHost xnu (bsdLen m) - bsdLen m ∧
      cmsgAlignHost xnu (bsdLen m) ≤ alignUp 8 (linuxLen m) ∧
      toBsdLoop h xnu src dst (fuel + 1) si out =
        toBsdLoop h xnu src dst fuel (si + alignUp 8 (linuxLen m))
          (out ++ (bsdEntry (m.toHost h).level (m.toHost h).type m.payload ++ gap)) := by
  have hlen : word 8 src si = linuxLen m := by simpa using hr.len64
  have hblen : 12 + (linuxLen m - 16) = bsdLen m := by
    simp only [linuxLen, bsdLen]
    omega
  have hpay : linuxLen m - 16 = m.payload.length := by
    simp only [linuxLen]
    omega
  have h16 : 16 ≤ linuxLen m := by
    simp only [linuxLen]
    omega
  have hb : bsdLen m + 4 = linuxLen m := by
    simp only [linuxLen, bsdLen]
    omega
  have hge := le_cmsgAlignHost xnu (bsdLen m)
  obtain ⟨hle, hroom⟩ : cmsgAlignHost xnu (bsdLen m) ≤ alignUp 8 (linuxLen m) ∧
      cmsgAlignHost xnu (bsdLen m) ≤ dst.length - out.length := by
    cases xnu with
    | true =>
      simp only [cmsgAlignHost, hostAlign, alignUp, if_true]
      omega
    | false =>
      simp only [cmsgAlignHost, hostAlign, alignUp, Bool.false_eq_true, if_false]
      omega
  refine ⟨slice dst (out.length + bsdLen m) (cmsgAlignHost xnu (bsdLen m) - bsdLen m), ?_, hle, ?_⟩
  · rw [slice_length]
    omega
  · have hgo : ¬ (linuxLen m < 16 ∨ linuxLen m > src.length - si) := by omega
    rw [toBsdLoop, if_pos (by omega)]
    simp only [hlen, if_neg hgo, hblen]
    rw [if_neg (by omega), hr.level, hr.type, hpay, hr.payload]
    rfl

/-- A header whose padding word is not 0 reads as longer than any buffer. -/
theorem toBsdLoop_stop {h : Consts} {xnu : Bool} {src dst out : List UInt8} {si fuel : Nat}
    {m : Cmsg} {pad : Num} (hr : LinuxReads src si m pad) (hpad : pad ≠ 0#32)
    (hsrc : src.length ≤ 1024) : toBsdLoop h xnu src dst (fuel + 1) si out = some out := by
  have hpos : 0 < pad.toNat := by
    rw [Nat.pos_iff_ne_zero]
    intro hz
    exact hpad (BitVec.eq_of_toNat_eq hz)
  have hbig : word 8 src si > src.length - si := by
    rw [hr.len64]
    omega
  rw [toBsdLoop]
  split
  · simp only
    rw [if_pos (Or.inr hbig)]
  · rfl

/-- The end of the stream: less than a header is left. -/
theorem toBsdLoop_end {h : Consts} {xnu : Bool} {src dst out : List UInt8} {si : Nat}
    (hend : src.length < si + 16) (fuel : Nat) : toBsdLoop h xnu src dst fuel si out = some out := by
  cases fuel with
  | zero => rfl
  | succ fuel => rw [toBsdLoop, if_neg (by omega)]

theorem toBsdLoop_layout {h : Consts} {xnu : Bool} {dst buf : List UInt8} {ms : List (Cmsg × Num)}
    (hl : LinuxLayout buf ms) (hdst : dst.length = 1024) :
    ∀ (pre out : List UInt8) (fuel : Nat), (pre ++ buf).length ≤ 1024 → pre.length % 8 = 0 →
      out.length ≤ pre.length → buf.length ≤ fuel →
      ∃ b, toBsdLoop h xnu (pre ++ buf) dst fuel pre.length out = some (out ++ b) ∧
        BsdLayout xnu b ((clean ms).map (Cmsg.toHost h)) := by
  induction hl with
  | done hs =>
    intro pre out fuel hlen hmod hout hfuel
    refine ⟨[], ?_, .done⟩
    rw [toBsdLoop_end (by simp; omega), List.append_nil]
  | @last m pad gap hgap =>
    intro pre out fuel hlen hmod hout hfuel
    simp only [List.length_append, linuxHead_length] at hlen hfuel
    obtain ⟨fuel, rfl⟩ : ∃ f, fuel = f + 1 := ⟨fuel - 1, by omega⟩
    have hm : linuxLen m = 16 + m.payload.length := rfl
    have hr : LinuxReads (pre ++ (linuxHead m pad ++ (m.payload ++ gap))) pre.length m pad :=
      linuxReads pre rfl rfl (by omega)
    by_cases hpad : pad = 0#32
    · subst hpad
      obtain ⟨g, hg, -, hstep⟩ := toBsdLoop_entry h xnu dst out fuel hr (by simp [linuxLen])
        (by simp; omega) hdst hmod hout
      have hal : linuxLen m ≤ alignUp 8 (linuxLen m) := by
        rw [alignUp_eight]
        omega
      refine ⟨_, hstep.trans (toBsdLoop_end ?_ fuel), ?_⟩
      · simp only [List.length_append, linuxHead_length]
        omega
      · have hone : BsdLayout xnu (bsdEntry (m.toHost h).level (m.toHost h).type m.payload ++ (g ++ []))
            [m.toHost h] :=
          BsdLayout.more (m := m.toHost h) hg (by simp only [linuxLen, Cmsg.toHost]; omega) .done
        simpa [clean] using hone
    · rw [toBsdLoop_stop hr hpad (by simp; omega)]
      exact ⟨[], by simp, by simpa [clean, hpad] using BsdLayout.done⟩
  | @more m pad gap rest ms hgap hrest ih =>
    intro pre out fuel hlen hmod hout hfuel
    simp only [List.length_append, linuxHead_length] at hlen hfuel
    obtain ⟨fuel, rfl⟩ : ∃ f, fuel = f + 1 := ⟨fuel - 1, by omega⟩
    have hm : linuxLen m = 16 + m.payload.length := rfl
    have hr : LinuxReads (pre ++ (linuxHead m pad ++ (m.payload ++ (gap ++ rest)))) pre.length m
        pad := linuxReads pre rfl rfl (by omega)
    by_cases hpad : pad = 0#32
    · subst hpad
      obtain ⟨g, hg, hle, hstep⟩ := toBsdLoop_entry h xnu dst out fuel hr (by simp [linuxLen])
        (by simp; omega) hdst hmod hout
      have hal : linuxLen m ≤ alignUp 8 (linuxLen m) ∧ alignUp 8 (linuxLen m) % 8 = 0 := by
        rw [alignUp_eight]
        omega
      have hsplit : pre ++ (linuxHead m 0#32 ++ (m.payload ++ (gap ++ rest))) =
          (pre ++ (linuxHead m 0#32 ++ (m.payload ++ gap))) ++ rest := by
        simp only [List.append_assoc]
      have hpre : (pre ++ (linuxHead m 0#32 ++ (m.payload ++ gap))).length =
          pre.length + alignUp 8 (linuxLen m) := by
        simp only [List.length_append, linuxHead_length]
        omega
      have hge := le_cmsgAlignHost xnu (bsdLen m)
      have hbm : bsdLen m = 12 + m.payload.length := rfl
      obtain ⟨b, hb, hlay⟩ := ih (pre ++ (linuxHead m 0#32 ++ (m.payload ++ gap)))
        (out ++ (bsdEntry (m.toHost h).level (m.toHost h).type m.payload ++ g)) fuel
        (by rw [← hsplit]; simp; omega) (by rw [hpre]; omega)
        (by
          rw [hpre]
          simp only [List.length_append, bsdEntry_length]
          omega)
        (by omega)
      refine ⟨bsdEntry (m.toHost h).level (m.toHost h).type m.payload ++ (g ++ b), ?_, ?_⟩
      · rw [hstep, hsplit, ← hpre, hb]
        simp only [List.append_assoc]
      · have hmore : BsdLayout xnu
            (bsdEntry (m.toHost h).level (m.toHost h).type m.payload ++ (g ++ b))
            (m.toHost h :: (clean ms).map (Cmsg.toHost h)) :=
          BsdLayout.more (m := m.toHost h) hg (by simp only [linuxLen, Cmsg.toHost]; omega) hlay
        simpa [clean] using hmore
    · rw [toBsdLoop_stop hr hpad (by simp; omega)]
      exact ⟨[], by simp, by simpa [clean, hpad] using BsdLayout.done⟩

/-! ## Back -/

/-- The room the Linux form of the messages takes. -/
def linuxSize (ms : List Cmsg) : Nat := (ms.map fun m => alignUp 8 (linuxLen m)).sum

/-- The length is stored as an `unsigned long`, which clears the padding word. -/
theorem linuxEntry_eq (m : Cmsg) (hlen : linuxLen m < 2 ^ 32) :
    linuxEntry m.level m.type m.payload = linuxHead m 0#32 ++ m.payload := by
  have hz : (16 + m.payload.length) / 256 ^ 4 = 0 := by
    simp only [linuxLen] at hlen
    omega
  have h8 : le 8 (16 + m.payload.length) = le 4 (16 + m.payload.length) ++ le 4 0 := by
    rw [show (8 : Nat) = 4 + 4 from rfl, le_add, hz]
  simp [linuxEntry, linuxHead, h8, List.append_assoc]

theorem toLinuxLoop_layout (h : Consts) {xnu : Bool} (dst : List UInt8) {buf : List UInt8}
    {ms : List Cmsg} (hl : BsdLayout xnu buf ms) :
    ∀ (pre out : List UInt8) (fuel : Nat), out.length + linuxSize ms ≤ dst.length →
      buf.length ≤ fuel →
      ∃ b, toLinuxLoop h xnu (pre ++ buf) dst fuel pre.length out = out ++ b ∧
        LinuxLayout b ((ms.map (Cmsg.toLinux h)).map fun m => (m, 0#32)) := by
  induction hl with
  | done =>
    intro pre out fuel _ _
    refine ⟨[], ?_, .done (by simp)⟩
    cases fuel with
    | zero => simp [toLinuxLoop]
    | succ fuel => simp [toLinuxLoop]
  | @more m gap rest ms hgap hlen hrest ih =>
    intro pre out fuel hroom hfuel
    simp only [List.length_append, bsdEntry_length] at hfuel
    obtain ⟨fuel, rfl⟩ : ∃ f, fuel = f + 1 := ⟨fuel - 1, by omega⟩
    have hm : linuxLen m = 16 + m.payload.length := rfl
    have hbm : bsdLen m = 12 + m.payload.length := rfl
    have hr : BsdReads (pre ++ (bsdEntry m.level m.type m.payload ++ (gap ++ rest))) pre.length m :=
      bsdReads pre rfl rfl (by omega)
    have hge := le_cmsgAlignHost xnu (bsdLen m)
    have hal : linuxLen m ≤ alignUp 8 (linuxLen m) := by
      rw [alignUp_eight]
      omega
    have hsize : linuxSize (m :: ms) = alignUp 8 (linuxLen m) + linuxSize ms := by simp [linuxSize]
    rw [hsize] at hroom
    have hllen : 16 + (bsdLen m - 12) = linuxLen m := by omega
    have hpay : bsdLen m - 12 = m.payload.length := by omega
    have hsplit : pre ++ (bsdEntry m.level m.type m.payload ++ (gap ++ rest)) =
        (pre ++ (bsdEntry m.level m.type m.payload ++ gap)) ++ rest := by
      simp only [List.append_assoc]
    have hpre : (pre ++ (bsdEntry m.level m.type m.payload ++ gap)).length =
        pre.length + cmsgAlignHost xnu (bsdLen m) := by
      simp only [List.length_append, bsdEntry_length]
      omega
    have hlen' : linuxLen (m.toLinux h) < 2 ^ 32 := hlen
    let g := slice dst (out.length + linuxLen m) (alignUp 8 (linuxLen m) - linuxLen m)
    have hg : g.length = alignUp 8 (linuxLen m) - linuxLen m := by
      rw [slice_length]
      omega
    obtain ⟨b, hb, hlay⟩ := ih (pre ++ (bsdEntry m.level m.type m.payload ++ gap))
      (out ++ (linuxEntry (m.toLinux h).level (m.toLinux h).type m.payload ++ g)) fuel
      (by
        simp only [List.length_append, linuxEntry, le_length]
        omega)
      (by omega)
    refine ⟨linuxEntry (m.toLinux h).level (m.toLinux h).type m.payload ++ (g ++ b), ?_, ?_⟩
    · have hgo : ¬ (bsdLen m < 12 ∨ bsdLen m >
          (pre ++ (bsdEntry m.level m.type m.payload ++ (gap ++ rest))).length - pre.length) := by
        simp only [List.length_append, bsdEntry_length]
        omega
      rw [toLinuxLoop, if_pos (by simp only [List.length_append, bsdEntry_length]; omega)]
      simp only [hr.len, if_neg hgo, hllen]
      rw [if_neg (by omega), hr.level, hr.type, hpay, hr.payload]
      show toLinuxLoop h xnu _ dst fuel (pre.length + cmsgAlignHost xnu (bsdLen m))
        (out ++ (linuxEntry (m.toLinux h).level (m.toLinux h).type m.payload ++ g)) = _
      rw [hsplit, ← hpre, hb]
      simp only [List.append_assoc]
    · have hmore : LinuxLayout (linuxHead (m.toLinux h) 0#32 ++ (m.payload ++ (g ++ b)))
          ((m.toLinux h, 0#32) :: (ms.map (Cmsg.toLinux h)).map fun m => (m, 0#32)) :=
        LinuxLayout.more (m := m.toLinux h) hg hlay
      have hentry := linuxEntry_eq (m.toLinux h) hlen'
      rw [show (m.toLinux h).payload = m.payload from rfl] at hentry
      rw [hentry]
      simpa [List.append_assoc] using hmore

/-! ## Reading the messages -/

theorem linuxMsgs_nil (fuel : Nat) : linuxMsgs fuel [] = [] := by
  cases fuel <;> rfl

theorem linuxMsgs_entry {buf : List UInt8} {m : Cmsg} {pad : Num} (hr : LinuxReads buf 0 m pad)
    (hfit : linuxLen m ≤ buf.length) (fuel : Nat) :
    linuxMsgs (fuel + 1) buf = m :: linuxMsgs fuel (buf.drop (alignUp 8 (linuxLen m))) := by
  have hm : linuxLen m = 16 + m.payload.length := rfl
  have hgo : ¬ (linuxLen m < 16 ∨ linuxLen m > buf.length) := by omega
  have hpay : linuxLen m - 16 = m.payload.length := by omega
  rw [linuxMsgs, if_pos (by omega)]
  simp only [hr.len32, if_neg hgo, hpay]
  rw [show numAt buf 8 = m.level from hr.level, show numAt buf 12 = m.type from hr.type,
    show slice buf 16 m.payload.length = m.payload from hr.payload]

theorem linuxMsgs_layout {buf : List UInt8} {ms : List (Cmsg × Num)} (hl : LinuxLayout buf ms) :
    ∀ fuel, buf.length < 2 ^ 32 → buf.length ≤ fuel → linuxMsgs fuel buf = ms.map Prod.fst := by
  induction hl with
  | done hs =>
    intro fuel _ _
    cases fuel with
    | zero => rfl
    | succ fuel => rw [linuxMsgs, if_neg (by omega)]; rfl
  | @last m pad gap hgap =>
    intro fuel hbig hfuel
    simp only [List.length_append, linuxHead_length] at hbig hfuel
    obtain ⟨fuel, rfl⟩ : ∃ f, fuel = f + 1 := ⟨fuel - 1, by omega⟩
    have hm : linuxLen m = 16 + m.payload.length := rfl
    have hr : LinuxReads (linuxHead m pad ++ (m.payload ++ gap)) 0 m pad :=
      linuxReads [] rfl rfl (by omega)
    have hal : linuxLen m ≤ alignUp 8 (linuxLen m) := by
      rw [alignUp_eight]
      omega
    rw [linuxMsgs_entry hr (by simp [linuxLen]), List.drop_eq_nil_of_le, linuxMsgs_nil]
    · rfl
    · simp only [List.length_append, linuxHead_length]
      omega
  | @more m pad gap rest ms hgap hrest ih =>
    intro fuel hbig hfuel
    simp only [List.length_append, linuxHead_length] at hbig hfuel
    obtain ⟨fuel, rfl⟩ : ∃ f, fuel = f + 1 := ⟨fuel - 1, by omega⟩
    have hm : linuxLen m = 16 + m.payload.length := rfl
    have hr : LinuxReads (linuxHead m pad ++ (m.payload ++ (gap ++ rest))) 0 m pad :=
      linuxReads [] rfl rfl (by omega)
    have hal : linuxLen m ≤ alignUp 8 (linuxLen m) := by
      rw [alignUp_eight]
      omega
    have hsplit : linuxHead m pad ++ (m.payload ++ (gap ++ rest)) =
        (linuxHead m pad ++ (m.payload ++ gap)) ++ rest := by
      simp only [List.append_assoc]
    have hpre : alignUp 8 (linuxLen m) = (linuxHead m pad ++ (m.payload ++ gap)).length := by
      simp only [List.length_append, linuxHead_length]
      omega
    rw [linuxMsgs_entry hr (by simp [linuxLen]), hsplit, hpre, List.drop_left,
      ih fuel (by omega) (by omega)]
    rfl

theorem bsdMsgs_layout {xnu : Bool} {buf : List UInt8} {ms : List Cmsg} (hl : BsdLayout xnu buf ms) :
    ∀ fuel, buf.length ≤ fuel → bsdMsgs xnu fuel buf = ms := by
  induction hl with
  | done =>
    intro fuel _
    cases fuel <;> rfl
  | @more m gap rest ms hgap hlen hrest ih =>
    intro fuel hfuel
    simp only [List.length_append, bsdEntry_length] at hfuel
    obtain ⟨fuel, rfl⟩ : ∃ f, fuel = f + 1 := ⟨fuel - 1, by omega⟩
    have hm : linuxLen m = 16 + m.payload.length := rfl
    have hbm : bsdLen m = 12 + m.payload.length := rfl
    have hr : BsdReads (bsdEntry m.level m.type m.payload ++ (gap ++ rest)) 0 m :=
      bsdReads [] rfl rfl (by omega)
    have hge := le_cmsgAlignHost xnu (bsdLen m)
    have hgo : ¬ (bsdLen m < 12 ∨
        bsdLen m > (bsdEntry m.level m.type m.payload ++ (gap ++ rest)).length) := by
      simp only [List.length_append, bsdEntry_length]
      omega
    have hpay : bsdLen m - 12 = m.payload.length := by omega
    have hsplit : bsdEntry m.level m.type m.payload ++ (gap ++ rest) =
        (bsdEntry m.level m.type m.payload ++ gap) ++ rest := by
      simp only [List.append_assoc]
    have hpre : cmsgAlignHost xnu (bsdLen m) =
        (bsdEntry m.level m.type m.payload ++ gap).length := by
      simp only [List.length_append, bsdEntry_length]
      omega
    rw [bsdMsgs, if_pos (by simp only [List.length_append, bsdEntry_length]; omega)]
    simp only [hr.len, if_neg hgo, hpay]
    rw [show numAt _ 4 = m.level from hr.level, show numAt _ 8 = m.type from hr.type,
      show slice _ 12 m.payload.length = m.payload from hr.payload, hsplit, hpre, List.drop_left,
      ih fuel (by omega)]

/-! ## The round trip -/

/-- The level map and the two type tables tell apart what the messages use. -/
structure Consts.Injective (h : Consts) (ms : List Cmsg) : Prop where
  level : Set.InjOn h.hostLevel ({linSolSocket} ∪ {l | ∃ m ∈ ms, m.level = l})
  ip : Set.InjOn (lookup h.kIp)
    ({t | t ∈ linIp} ∪ {t | ∃ m ∈ ms, m.level = linIpprotoIp ∧ m.type = t})
  ipv6 : Set.InjOn (lookup h.kIpv6)
    ({t | t ∈ linIpv6} ∪ {t | ∃ m ∈ ms, m.level = linIpprotoIpv6 ∧ m.type = t})

theorem toLinux_toHost {h : Consts} {ms : List Cmsg} (hinj : h.Injective ms) {m : Cmsg}
    (hm : m ∈ ms) : (m.toHost h).toLinux h = m := by
  by_cases hsol : m.level = linSolSocket
  · simp [Cmsg.toHost, Cmsg.toLinux, Consts.cmsgToHost, Consts.cmsgToLinux, ← hsol]
  · have hne : m.level ≠ h.solSocket := by
      intro he
      apply hsol
      refine hinj.level (Or.inr ⟨m, hm, rfl⟩) (Or.inl rfl) ?_
      simp [Consts.hostLevel, he]
    by_cases hip : m.level = linIpprotoIp
    · have hused : m.type ∈ {t | ∃ m ∈ ms, m.level = linIpprotoIp ∧ m.type = t} := ⟨m, hm, hip, rfl⟩
      have hback : lookupToLinux h.kIp (lookup h.kIp m.type) = m.type :=
        lookupToLinux_lookup hused hinj.ip
      simp only [Cmsg.toHost, Cmsg.toLinux, Consts.cmsgToHost, Consts.cmsgToLinux, if_neg hsol,
        if_pos hip, if_neg hne, hback]
    · by_cases hip6 : m.level = linIpprotoIpv6
      · have hused : m.type ∈ {t | ∃ m ∈ ms, m.level = linIpprotoIpv6 ∧ m.type = t} :=
          ⟨m, hm, hip6, rfl⟩
        have hback : lookupToLinux h.kIpv6 (lookup h.kIpv6 m.type) = m.type :=
          lookupToLinux_lookup hused hinj.ipv6
        simp only [Cmsg.toHost, Cmsg.toLinux, Consts.cmsgToHost, Consts.cmsgToLinux, if_neg hsol,
          if_neg hip, if_pos hip6, if_neg hne, hback]
      · simp only [Cmsg.toHost, Cmsg.toLinux, Consts.cmsgToHost, Consts.cmsgToLinux, if_neg hsol,
          if_neg hip, if_neg hip6, if_neg hne]

theorem clean_eq_of_zero {ms : List (Cmsg × Num)} (h : ∀ m ∈ ms, m.2 = 0#32) :
    clean ms = ms.map Prod.fst := by
  rw [clean, List.takeWhile_eq_self_iff.mpr]
  simpa using h

/-- A message behind a padding word that is not 0 is missing from the prefix. -/
theorem zero_of_clean_length {ms : List (Cmsg × Num)} (h : (clean ms).length = ms.length) :
    ∀ m ∈ ms, m.2 = 0#32 := by
  have heq : ms.takeWhile (fun m => m.2 = 0#32) = ms :=
    (List.takeWhile_prefix _).eq_of_length (by simpa [clean] using h)
  have := List.takeWhile_eq_self_iff.mp heq
  simpa using this

theorem linuxSize_map_toHost (h : Consts) (ms : List Cmsg) :
    linuxSize (ms.map (Cmsg.toHost h)) = linuxSize ms := by
  simp [linuxSize, List.map_map, Function.comp_def, linuxLen, Cmsg.toHost]

theorem linuxSize_clean (ms : List (Cmsg × Num)) :
    linuxSize (clean ms) ≤ linuxSize (ms.map Prod.fst) := by
  induction ms with
  | nil => exact Nat.le_refl _
  | cons m ms ih =>
    simp only [linuxSize, clean, List.takeWhile_cons, List.map_cons, List.sum_cons] at ih ⊢
    split
    · simp only [List.map_cons, List.sum_cons]
      omega
    · simp

/-- What the two walkers make of a well-formed buffer. -/
theorem cmsgs_there_and_back {h : Consts} {xnu : Bool} {ms : List (Cmsg × Num)} {src : List UInt8}
    (hwf : LinuxLayout src ms) (hsrc : src.length ≤ 1024) {dst : List UInt8}
    (hdst : dst.length = 1024) {back : List UInt8}
    (hroom : linuxSize (ms.map Prod.fst) ≤ back.length) :
    ∃ out, cmsgsToBsd h xnu src dst = some out ∧
      bsdMsgs xnu out.length out = (clean ms).map (Cmsg.toHost h) ∧
      LinuxLayout (cmsgsToLinuxLayout h xnu out back)
        (((clean ms).map fun m => (m.toHost h).toLinux h).map fun m => (m, 0#32)) := by
  obtain ⟨b, hb, hlay⟩ := toBsdLoop_layout (h := h) hwf hdst [] [] src.length (by simpa using hsrc)
    rfl (by simp) (Nat.le_refl _)
  have hsize : linuxSize ((clean ms).map (Cmsg.toHost h)) ≤ back.length := by
    rw [linuxSize_map_toHost]
    exact (linuxSize_clean ms).trans hroom
  obtain ⟨c, hc, hlay'⟩ := toLinuxLoop_layout h back hlay [] [] b.length (by simpa using hsize)
    (Nat.le_refl _)
  refine ⟨b, hb, bsdMsgs_layout hlay _ (Nat.le_refl _), ?_⟩
  have hc : cmsgsToLinuxLayout h xnu b back = c := hc
  rw [hc]
  simpa [List.map_map, Function.comp_def] using hlay'

theorem linuxLayout_length {buf : List UInt8} {ms : List (Cmsg × Num)} (hl : LinuxLayout buf ms) :
    buf.length < linuxSize (ms.map Prod.fst) + 16 ∧
      linuxSize (ms.map Prod.fst) ≤ buf.length + 7 := by
  induction hl with
  | done hs => simpa [linuxSize] using hs
  | @last m pad gap hgap =>
    have hm : linuxLen m = 16 + m.payload.length := rfl
    simp only [linuxSize, alignUp_eight, List.map_cons, List.map_nil, List.sum_cons, List.sum_nil,
      List.length_append, linuxHead_length] at hgap ⊢
    omega
  | @more m pad gap rest ms hgap hrest ih =>
    have hm : linuxLen m = 16 + m.payload.length := rfl
    simp only [linuxSize, alignUp_eight, List.map_cons, List.sum_cons, List.length_append,
      linuxHead_length] at hgap ih ⊢
    omega

/-- One SCM_RIGHTS message of one descriptor, padding word 0. -/
def rightsMsg : Cmsg := ⟨linSolSocket, 1#32, [7, 0, 0, 0]⟩

/-- The BSDs' SOL_SOCKET, and IP_TOS and IPV6_TCLASS as they number them. -/
def bsdConsts : Consts := ⟨0xffff#32, id, id, id, id⟩

def rightsBuffer (pad : Num) : List UInt8 := linuxHead rightsMsg pad ++ (rightsMsg.payload ++ [0, 0, 0, 0])

theorem rightsBuffer_layout (pad : Num) : LinuxLayout (rightsBuffer pad) [(rightsMsg, pad)] :=
  .last (by decide)

end ApeShim.Socket
