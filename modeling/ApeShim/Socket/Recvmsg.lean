import ApeShim.Lib.Flags
import ApeShim.Socket.Cmsg

/-!
`__ape_shim_recvmsg` on the BSDs (`shim/socket.c`): what it makes of the control buffer
and of `msg_flags` after the host's `recvmsg` succeeded.
-/

namespace ApeShim.Socket
open Bytes Flags

/-! ## The flags -/

/-- The rows of `SHIM_MSG_TABLE`. -/
inductive MsgFlag
  | dontwait | waitall | nosignal | trunc | ctrunc
  deriving DecidableEq, Repr

namespace MsgFlag

def table : List MsgFlag := [.dontwait, .waitall, .nosignal, .trunc, .ctrunc]

def lin : MsgFlag → Num
  | dontwait => 64#32
  | waitall => 256#32
  | nosignal => 16384#32
  | trunc => 32#32
  | ctrunc => 8#32

end MsgFlag

/-- `LIN_MSG_FIXED` -/
def linMsgFixed : Num := 7#32

/-- `msg_to_linux`, for the host's constants `k`. -/
def msgToLinux (k : MsgFlag → Num) (host : Num) : Num :=
  (MsgFlag.table.foldl
    (fun s f => if has s.2 (k f) then (s.1 ||| f.lin, s.2 &&& ~~~k f) else s)
    (host &&& linMsgFixed, host &&& ~~~linMsgFixed)).1

/-! ## The call -/

/-- A `struct msghdr` as a `recvmsg` leaves it: the caller's control buffer, how much of it
is control data, and `msg_flags`. -/
structure MsgHdr where
  control : List UInt8
  controllen : Nat
  flags : Num
  inside : controllen ≤ control.length

/-- The control data. -/
def MsgHdr.data (m : MsgHdr) : List UInt8 := m.control.take m.controllen

theorem MsgHdr.data_length (m : MsgHdr) : m.data.length = m.controllen := by
  rw [data, List.length_take]
  exact Nat.min_eq_left m.inside

/-- The first bytes of a buffer are written. -/
def overwrite (out buf : List UInt8) : List UInt8 := out ++ buf.drop out.length

theorem fits_overwrite {out buf : List UInt8} : out.length ≤ (overwrite out buf).length := by
  simp [overwrite]

/-- `__ape_shim_recvmsg` on a BSD, from the host's success on. -/
def recvmsgBsd (h : Consts) (k : MsgFlag → Num) (xnu : Bool) (m : MsgHdr) : MsgHdr :=
  if m.controllen ≠ 0 ∧ m.controllen ≤ 1024 then
    let out := cmsgsToLinuxLayout h xnu m.data m.control
    ⟨overwrite out m.control, out.length, msgToLinux k m.flags, fits_overwrite⟩
  else { m with flags := msgToLinux k m.flags }

/-! ## What is handed back -/

/-- The messages whose Linux form fits, taken in order. -/
def fitting : Nat → List Cmsg → List Cmsg
  | _, [] => []
  | room, m :: ms =>
      if alignUp 8 (linuxLen m) ≤ room then m :: fitting (room - alignUp 8 (linuxLen m)) ms else []

theorem fitting_begins (room : Nat) (ms : List Cmsg) : fitting room ms <+: ms := by
  induction ms generalizing room with
  | nil => exact List.prefix_rfl
  | cons m ms ih =>
    unfold fitting
    split
    · exact List.cons_prefix_cons.mpr ⟨rfl, ih _⟩
    · exact List.nil_prefix

theorem fitting_length (room : Nat) (ms : List Cmsg) :
    (fitting room ms).length < ms.length ↔ room < linuxSize ms := by
  induction ms generalizing room with
  | nil => simp [fitting, linuxSize]
  | cons m ms ih =>
    have hsize : linuxSize (m :: ms) = alignUp 8 (linuxLen m) + linuxSize ms := by simp [linuxSize]
    rw [fitting, hsize]
    split
    · rename_i hfit
      rw [List.length_cons, List.length_cons, Nat.add_lt_add_iff_right, ih]
      omega
    · simp only [List.length_nil, List.length_cons, Nat.zero_lt_succ, true_iff]
      omega

/-- **The walk of the BSD buffer** writes the messages that fit, in order. -/
theorem toLinuxLoop_fitting (h : Consts) (xnu : Bool) {src dst : List UInt8} (hsrc : src.length ≤ 1024)
    (fuel si : Nat) (out : List UInt8) :
    ∃ b, toLinuxLoop h xnu src dst fuel si out = out ++ b ∧
      LinuxLayout b (((fitting (dst.length - out.length) (bsdMsgs xnu fuel (src.drop si))).map
        (Cmsg.toLinux h)).map fun m => (m, 0#32)) := by
  induction fuel generalizing si out with
  | zero => exact ⟨[], by simp [toLinuxLoop], .done (by simp)⟩
  | succ fuel ih =>
    have hword : word 4 (src.drop si) 0 = word 4 src si := rfl
    have hnum : ∀ k, numAt (src.drop si) k = numAt src (si + k) := by
      intro k
      simp only [numAt, word, List.drop_drop]
    have hslice : ∀ k n, slice (src.drop si) k n = slice src (si + k) n := by
      intro k n
      simp only [slice, List.drop_drop]
    by_cases hroom : si + 12 ≤ src.length
    · have hroom' : 12 ≤ (src.drop si).length := by
        rw [List.length_drop]
        omega
      rw [toLinuxLoop, bsdMsgs, if_pos hroom, if_pos hroom']
      simp only [hword, hnum, hslice, List.length_drop, List.drop_drop]
      split
      · exact ⟨[], by simp, .done (by simp)⟩
      · rename_i hlen
        obtain ⟨m, hm⟩ : ∃ m, m = Cmsg.mk (numAt src (si + 4)) (numAt src (si + 8))
          (slice src (si + 12) (word 4 src si - 12)) := ⟨_, rfl⟩
        have hpay : m.payload.length = word 4 src si - 12 := by
          rw [hm, slice_length]
          omega
        have hl : 16 + (word 4 src si - 12) = linuxLen m := by rw [linuxLen, hpay]
        have hentry : linuxEntry (h.cmsgToLinux (numAt src (si + 4)) (numAt src (si + 8))).1
            (h.cmsgToLinux (numAt src (si + 4)) (numAt src (si + 8))).2
            (slice src (si + 12) (word 4 src si - 12)) =
              linuxEntry (m.toLinux h).level (m.toLinux h).type m.payload := by
          rw [hm]
          rfl
        rw [← hm, fitting, hl, hentry]
        split
        · rw [if_neg (by omega)]
          exact ⟨[], by simp, .done (by simp)⟩
        · rename_i hfit
          rw [if_pos (by omega)]
          obtain ⟨gap, hgap⟩ : ∃ gap, gap = slice dst (out.length + linuxLen m)
            (alignUp 8 (linuxLen m) - linuxLen m) := ⟨_, rfl⟩
          have hal : linuxLen m ≤ alignUp 8 (linuxLen m) := by
            rw [alignUp_eight]
            omega
          have hgaplen : gap.length = alignUp 8 (linuxLen m) - linuxLen m := by
            rw [hgap, slice_length]
            omega
          rw [← hgap]
          obtain ⟨b, hb, hlay⟩ := ih (si + cmsgAlignHost xnu (word 4 src si))
            (out ++ (linuxEntry (m.toLinux h).level (m.toLinux h).type m.payload ++ gap))
          have hout : dst.length - (out ++ (linuxEntry (m.toLinux h).level (m.toLinux h).type
              m.payload ++ gap)).length = dst.length - out.length - alignUp 8 (linuxLen m) := by
            simp only [List.length_append, linuxEntry, le_length, hgaplen]
            rw [linuxLen] at hal ⊢
            omega
          rw [hout] at hlay
          refine ⟨linuxEntry (m.toLinux h).level (m.toLinux h).type m.payload ++ (gap ++ b), ?_, ?_⟩
          · rw [hb]
            simp only [List.append_assoc]
          · have hshort : linuxLen (m.toLinux h) < 2 ^ 32 := by
              show linuxLen m < 2 ^ 32
              rw [← hl]
              omega
            have hhead := linuxEntry_eq (m.toLinux h) hshort
            rw [show (m.toLinux h).payload = m.payload from rfl] at hhead
            rw [hhead, List.append_assoc]
            exact LinuxLayout.more (m := m.toLinux h) hgaplen hlay
    · have hroom' : ¬ 12 ≤ (src.drop si).length := by
        rw [List.length_drop]
        omega
      rw [toLinuxLoop, bsdMsgs, if_neg hroom, if_neg hroom']
      exact ⟨[], by simp, .done (by simp)⟩

/-- The Linux form of a BSD buffer's messages is less than twice as long. -/
theorem bsdMsgs_size (xnu : Bool) (fuel : Nat) (buf : List UInt8) :
    linuxSize (bsdMsgs xnu fuel buf) ≤ 2 * buf.length := by
  induction fuel generalizing buf with
  | zero => simp [bsdMsgs, linuxSize]
  | succ fuel ih =>
    unfold bsdMsgs
    split
    · simp only
      split
      · simp [linuxSize]
      · have hrest := ih (buf.drop (cmsgAlignHost xnu (word 4 buf 0)))
        have hge := le_cmsgAlignHost xnu (word 4 buf 0)
        simp only [linuxSize, List.map_cons, List.sum_cons, linuxLen, slice_length, alignUp_eight,
          List.length_drop] at hrest ⊢
        omega
    · simp [linuxSize]

/-- The messages the host delivered. -/
def MsgHdr.bsdMsgs (xnu : Bool) (m : MsgHdr) : List Cmsg := Socket.bsdMsgs xnu m.data.length m.data

/-- What is handed back is a Linux buffer of the first messages the host delivered, and
MSG_CTRUNC says so where some are missing. -/
def Honest (h : Consts) (xnu : Bool) (host back : MsgHdr) : Prop :=
  ∃ ms, LinuxLayout back.data ms ∧ ms.map Prod.fst <+: (host.bsdMsgs xnu).map (Cmsg.toLinux h) ∧
    (ms.length < (host.bsdMsgs xnu).length → has back.flags MsgFlag.ctrunc.lin = true)

section Calls

variable {h : Consts} {k : MsgFlag → Num} {xnu : Bool} {m : MsgHdr}

theorem recvmsgBsd_short (hlen : m.controllen ≤ 1024) :
    LinuxLayout (recvmsgBsd h k xnu m).data
        (((fitting m.control.length (m.bsdMsgs xnu)).map (Cmsg.toLinux h)).map fun m => (m, 0#32)) ∧
      (recvmsgBsd h k xnu m).flags = msgToLinux k m.flags := by
  have hdata := m.data_length
  unfold recvmsgBsd
  split
  · refine ⟨?_, rfl⟩
    obtain ⟨b, hb, hlay⟩ := @toLinuxLoop_fitting h xnu m.data m.control (by omega) m.data.length 0 []
    have hback : (overwrite (cmsgsToLinuxLayout h xnu m.data m.control) m.control).take
        (cmsgsToLinuxLayout h xnu m.data m.control).length = b := by
      rw [overwrite, List.take_left]
      exact hb
    rw [MsgHdr.data, hback]
    exact hlay
  · rename_i hzero
    have hnil : m.data = [] := by
      apply List.eq_nil_of_length_eq_zero
      omega
    refine ⟨?_, rfl⟩
    show LinuxLayout m.data _
    rw [MsgHdr.bsdMsgs, hnil]
    exact .done (by decide)

/-- The first message of a BSD buffer, and the length its header gives. -/
theorem bsdMsgs_head {fuel : Nat} {buf : List UInt8} {c : Cmsg} {ms : List Cmsg}
    (hm : bsdMsgs xnu fuel buf = c :: ms) : word 4 buf 0 = bsdLen c := by
  cases fuel with
  | zero => cases hm
  | succ fuel =>
    unfold bsdMsgs at hm
    split at hm
    · simp only at hm
      split at hm
      · cases hm
      · obtain ⟨rfl, -⟩ := List.cons.inj hm
        simp only [bsdLen, slice_length]
        omega
    · cases hm

/-- A long BSD buffer is no Linux buffer of its own messages: every header gives
another length. -/
theorem not_layout_of_long {buf : List UInt8} {ms : List (Cmsg × Num)} (hlong : 16 ≤ buf.length)
    (hpre : ms.map Prod.fst <+: (bsdMsgs xnu buf.length buf).map (Cmsg.toLinux h)) :
    ¬ LinuxLayout buf ms := by
  intro hl
  have hhead : ∃ c pad ms' tail, ms = (c, pad) :: ms' ∧ buf = linuxHead c pad ++ tail := by
    cases hl with
    | done hs => omega
    | last _ => exact ⟨_, _, _, _, rfl, rfl⟩
    | more _ _ => exact ⟨_, _, _, _, rfl, rfl⟩
  obtain ⟨c, pad, ms', tail, rfl, hbuf⟩ := hhead
  cases hb : bsdMsgs xnu buf.length buf with
  | nil =>
    rw [hb] at hpre
    exact absurd hpre (by simp)
  | cons d ds =>
    rw [hb] at hpre
    obtain ⟨hcd, -⟩ := List.cons_prefix_cons.mp hpre
    have hcd : c = d.toLinux h := hcd
    have hpay : c.payload = d.payload := by rw [hcd, Cmsg.toLinux]
    have hbsd := bsdMsgs_head hb
    have hlinux : word 4 buf 0 = (16 + c.payload.length) % 256 ^ 4 := by
      obtain ⟨w, hw⟩ : ∃ w, buf = [] ++ (le 4 (16 + c.payload.length) ++ w) :=
        ⟨_, by rw [hbuf, linuxHead, List.append_assoc]; rfl⟩
      rw [← leValue_le, hw]
      exact word_at [] _ w (le_length _ _) rfl
    rw [hpay] at hlinux
    rw [bsdLen] at hbsd
    omega

end Calls

/-- **Nothing is lost in silence** exactly when the control data fits the scratch buffer,
and the Linux form of all of it fits the caller's or the host itself says MSG_CTRUNC. -/
theorem recvmsg_honest_iff (h : Consts) (k : MsgFlag → Num) (xnu : Bool) (m : MsgHdr) :
    Honest h xnu m (recvmsgBsd h k xnu m) ↔ m.controllen ≤ 1024 ∧
      (linuxSize (m.bsdMsgs xnu) ≤ m.control.length ∨
        has (msgToLinux k m.flags) MsgFlag.ctrunc.lin = true) := by
  by_cases hlen : m.controllen ≤ 1024
  · obtain ⟨hlay, hflags⟩ := @recvmsgBsd_short h k xnu m hlen
    have hcount := fitting_length m.control.length (m.bsdMsgs xnu)
    rw [Honest, hflags]
    constructor
    · rintro ⟨ms, hl, -, hmark⟩
      refine ⟨hlen, ?_⟩
      -- a buffer holds one list of messages
      have hshort : (recvmsgBsd h k xnu m).data.length < 2 ^ 32 := by
        have hle := (linuxLayout_length hlay).1
        have hsize := bsdMsgs_size xnu m.data.length m.data
        obtain ⟨tail, htail⟩ := fitting_begins m.control.length (m.bsdMsgs xnu)
        have hdata := m.data_length
        rw [← MsgHdr.bsdMsgs, ← htail] at hsize
        simp only [List.map_map, Function.comp_def, linuxSize, linuxLen, Cmsg.toLinux, List.map_append,
          List.sum_append] at hle hsize
        omega
      have huniq : ms.length = (fitting m.control.length (m.bsdMsgs xnu)).length := by
        have := (linuxMsgs_layout hl _ hshort (Nat.le_refl _)).symm.trans
          (linuxMsgs_layout hlay _ hshort (Nat.le_refl _))
        simpa using congrArg List.length this
      rw [huniq, hcount] at hmark
      by_cases hfit : linuxSize (m.bsdMsgs xnu) ≤ m.control.length
      · exact Or.inl hfit
      · exact Or.inr (hmark (by omega))
    · rintro ⟨-, hcond⟩
      refine ⟨_, hlay, ?_, fun hless => ?_⟩
      · simp only [List.map_map, Function.comp_def]
        exact (fitting_begins _ _).map _
      · rw [List.length_map, List.length_map, hcount] at hless
        exact hcond.resolve_left (by omega)
  · have hback : (recvmsgBsd h k xnu m).data = m.data := by
      unfold recvmsgBsd
      rw [if_neg fun hc => hlen hc.2]
      rfl
    constructor
    · rintro ⟨ms, hl, hpre, -⟩
      rw [hback] at hl
      have hdata := m.data_length
      exact absurd hl (not_layout_of_long (by omega) hpre)
    · rintro ⟨hc, -⟩
      exact absurd hc hlen

/-- A control buffer of 16 bytes that XNU filled with one descriptor. -/
def oneRight : MsgHdr :=
  ⟨bsdEntry 0xffff#32 1#32 [7, 0, 0, 0], 16, 0#32, by decide⟩

/-- The descriptor is dropped, and `msg_flags` is 0. -/
theorem right_dropped : ¬ Honest bsdConsts true oneRight (recvmsgBsd bsdConsts (fun _ => 0#32) true oneRight) := by
  rintro ⟨ms, hl, -, hmark⟩
  have hnil : (recvmsgBsd bsdConsts (fun _ => 0#32) true oneRight).data = [] := by decide
  rw [hnil] at hl
  have hms := linuxMsgs_layout hl 0 (by decide) (Nat.le_refl _)
  have hlen : ms.length = 0 := by simpa [linuxMsgs] using congrArg List.length hms.symm
  have hone : (oneRight.bsdMsgs true).length = 1 := by decide
  exact absurd (hmark (by omega)) (by decide)

end ApeShim.Socket
