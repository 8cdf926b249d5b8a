import ApeShim.Lib.Replay
import Mathlib

/-!
The memory descriptor of a /proc content file (`shim/procfs/core/open.c`): reads and seeks on
a text, and the rewind that brings a new one.
-/

namespace ApeShim.ContentFile
open Replay

/-- A text in memory. -/
structure Content where
  bytes : List UInt8
  fits : bytes.length < 2 ^ 63

def Content.size (t : Content) : UInt64 := .ofNat t.bytes.length

/-- `struct memfd` of a content file. -/
structure Memfd where
  text : Content
  pos : UInt64
  gen : Int

/-- What a rewind finds: the slot's generation, the text that `gen_vpath` makes, and the
generation after it. -/
structure Fresh where
  now : Int
  made : Option Content
  gen : Int

def SEEK_SET : Int := 0
def SEEK_CUR : Int := 1
def SEEK_END : Int := 2

inductive Op
  | readv (lens : List UInt64)
  /-- `busy`: `pc_busy` -/
  | lseek (off : Int64) (whence : Int) (busy : Bool) (fresh : Fresh)

/-- What is put into each slice, and the count; the offset, or EINVAL. -/
inductive Out
  | read (chunks : List (List UInt8)) (count : Int)
  | seek (ret : Option Int)
  deriving DecidableEq

/-! ## The descriptor -/

/-- How much of the text goes into a slice. -/
def Memfd.upTo (m : Memfd) (len : UInt64) : UInt64 :=
  if m.text.size - m.pos > len then len else m.text.size - m.pos

/-- The loop of `__ape_shim_procfs_memfd_read`. -/
def Memfd.fill (m : Memfd) (done : UInt64) : List UInt64 → Memfd × List (List UInt8) × UInt64
  | [] => (m, [], done)
  | len :: lens =>
    if m.pos < m.text.size then
      let k := m.upTo len
      let chunk := (m.text.bytes.drop m.pos.toNat).take k.toNat
      let r := fill { m with pos := m.pos + k } (done + k) lens
      (r.1, chunk :: r.2.1, r.2.2)
    else (m, (len :: lens).map fun _ => [], done)

/-- `__ape_shim_procfs_memfd_read` -/
def Memfd.readv (m : Memfd) (lens : List UInt64) : Memfd × Out :=
  let r := m.fill 0 lens
  (r.1, .read r.2.1 r.2.2.toInt64.toInt)

/-- The text did not come from this generation of the slot. -/
def stale (gen now : Int) : Bool := gen = 0 || gen ≠ now

def Memfd.base (m : Memfd) (whence : Int) : Int64 :=
  if whence = SEEK_SET then 0
  else if whence = SEEK_CUR then m.pos.toInt64
  else if whence = SEEK_END then m.text.size.toInt64
  else -1

/-- A seek that is no rewind to 0. -/
def Memfd.seek (m : Memfd) (off : Int64) (whence : Int) : Memfd × Out :=
  let base := m.base whence
  if base < 0 ∨ base + off < 0 then (m, .seek none)
  else
    let pos := (base + off).toUInt64
    ({ m with pos := pos }, .seek (some pos.toInt64.toInt))

/-- `__ape_shim_procfs_memfd_lseek` -/
def Memfd.lseek (m : Memfd) (off : Int64) (whence : Int) (busy : Bool) (fresh : Fresh) :
    Memfd × Out :=
  if off = 0 ∧ whence = SEEK_SET ∧ busy = false then
    match if stale m.gen fresh.now then fresh.made else none with
    | some text => (⟨text, 0, fresh.gen⟩, .seek (some 0))
    | none => ({ m with pos := 0 }, .seek (some 0))
  else m.seek off whence

def Memfd.step (m : Memfd) : Op → Memfd × Out
  | .readv lens => m.readv lens
  | .lseek off whence busy fresh => m.lseek off whence busy fresh

def opened (text : Content) (gen : Int) : Memfd := ⟨text, 0, gen⟩

/-! ## A read-only file -/

structure File where
  text : List UInt8
  pos : Nat
  gen : Int

/-- The bytes go into the slices one after the other. -/
def scatter : List UInt64 → List UInt8 → List (List UInt8)
  | [], _ => []
  | len :: lens, bytes => bytes.take len.toNat :: scatter lens (bytes.drop len.toNat)

def room (lens : List UInt64) : Nat := (lens.map UInt64.toNat).sum

def File.readv (f : File) (lens : List UInt64) : File × Out :=
  let got := (f.text.drop f.pos).take (room lens)
  ({ f with pos := f.pos + got.length }, .read (scatter lens got) got.length)

def File.base (f : File) (whence : Int) : Option Nat :=
  if whence = SEEK_SET then some 0
  else if whence = SEEK_CUR then some f.pos
  else if whence = SEEK_END then some f.text.length
  else none

/-- An offset is a number of 63 bits. -/
def File.seek (f : File) (off : Int) (whence : Int) : File × Out :=
  match f.base whence with
  | none => (f, .seek none)
  | some base =>
    if 0 ≤ base + off ∧ base + off < 2 ^ 63 then
      ({ f with pos := (base + off).toNat }, .seek (some (base + off)))
    else (f, .seek none)

/-- The text that a rewind to 0 brings. -/
def regenerated (gen : Int) (off : Int64) (whence : Int) (busy : Bool) (fresh : Fresh) :
    Option Content :=
  if off = 0 ∧ whence = SEEK_SET ∧ busy = false ∧ stale gen fresh.now = true then fresh.made else none

def File.step (f : File) : Op → File × Out
  | .readv lens => f.readv lens
  | .lseek off whence busy fresh =>
    match regenerated f.gen off whence busy fresh with
    | some text => (⟨text.bytes, 0, fresh.gen⟩, .seek (some 0))
    | none => f.seek off.toInt whence

/-! ## The descriptor is one -/

structure Shows (m : Memfd) (f : File) : Prop where
  text : m.text.bytes = f.text
  pos : m.pos.toNat = f.pos
  gen : m.gen = f.gen
  signed : m.pos.toNat < 2 ^ 63

section Words

variable {x : UInt64} {a b : Int64}

theorem toInt_of_small (h : x.toNat < 2 ^ 63) : x.toInt64.toInt = x.toNat := by
  have hx : 2 * x.toBitVec.toNat < 2 ^ 64 := by
    rw [UInt64.toNat_toBitVec]
    omega
  exact BitVec.toInt_eq_toNat_of_lt hx

theorem toNat_add_of_small {y : UInt64} (h : x.toNat + y.toNat < 2 ^ 63) :
    (x + y).toNat = x.toNat + y.toNat := by
  rw [UInt64.toNat_add, Nat.mod_eq_of_lt (by omega)]

theorem Content.size_toNat (t : Content) : t.size.toNat = t.bytes.length := by
  have hfits := t.fits
  exact UInt64.toNat_ofNat_of_lt (by simp only [UInt64.size]; omega)

/-- A sum that does not fit is negative. -/
theorem add_neg_iff (ha : 0 ≤ a.toInt) :
    a + b < 0 ↔ ¬ (0 ≤ a.toInt + b.toInt ∧ a.toInt + b.toInt < 2 ^ 63) := by
  have hb := b.le_toInt
  have hb' := b.toInt_lt
  have ha' := a.toInt_lt
  rw [Int64.lt_iff_toInt_lt, Int64.toInt_add, Int64.toInt_zero, Int.bmod_def]
  split <;> omega

theorem add_toNat (h : 0 ≤ a.toInt + b.toInt ∧ a.toInt + b.toInt < 2 ^ 63) :
    ((a + b).toUInt64.toNat : Int) = a.toInt + b.toInt := by
  have hsum : (a + b).toInt = a.toInt + b.toInt := by
    rw [Int64.toInt_add]
    exact Int.bmod_eq_of_le (by omega) (by omega)
  have hnonneg : 0 ≤ a + b := by
    rw [Int64.le_iff_toInt_le, hsum, Int64.toInt_zero]
    exact h.1
  rw [Int64.toNat_toUInt64_of_le hnonneg, ← hsum]
  exact Int64.cast_toNatClampNeg _ hnonneg

end Words

section Slices

variable {len : UInt64} {lens : List UInt64} {rest : List UInt8} {k : Nat}

theorem room_cons : room (len :: lens) = len.toNat + room lens := rfl

theorem scatter_nil (lens : List UInt64) : scatter lens [] = lens.map fun _ => [] := by
  induction lens with
  | nil => rfl
  | cons len lens ih => rw [scatter, List.drop_nil, ih, List.take_nil, List.map_cons]

/-- What the slices hold, in order, is what was read. -/
theorem flatten_scatter (bytes : List UInt8) : (scatter lens bytes).flatten = bytes.take (room lens) := by
  induction lens generalizing bytes with
  | nil => simp [scatter, room]
  | cons len lens ih => rw [scatter, List.flatten_cons, ih, room_cons, List.take_add]

variable (hk : k = min rest.length len.toNat)

include hk

theorem drop_taken : rest.drop k = rest.drop len.toNat := by
  rcases le_total rest.length len.toNat with h | h
  · rw [hk, min_eq_left h, List.drop_length, List.drop_eq_nil_of_le h]
  · rw [hk, min_eq_right h]

theorem take_taken : rest.take k = rest.take len.toNat := by
  rw [hk, min_comm, ← List.take_take, List.take_length]

theorem scatter_cons : scatter (len :: lens) (rest.take (room (len :: lens))) =
    rest.take k :: scatter lens ((rest.drop k).take (room lens)) := by
  rw [scatter, room_cons, List.take_take, min_eq_left (Nat.le_add_right _ _), List.drop_take,
    Nat.add_sub_cancel_left, drop_taken hk, take_taken hk]

theorem length_taken : (rest.take (room (len :: lens))).length =
    k + ((rest.drop k).take (room lens)).length := by
  simp only [List.length_take, List.length_drop, room_cons]
  omega

end Slices

section Read

variable {m : Memfd} {done : UInt64}

/-- What goes into one slice. -/
theorem slice_toNat (len : UInt64) (hlt : m.pos.toNat < m.text.bytes.length) :
    (m.upTo len).toNat = min (m.text.bytes.drop m.pos.toNat).length len.toNat := by
  have hleft : (m.text.size - m.pos).toNat = (m.text.bytes.drop m.pos.toNat).length := by
    have hle : m.pos ≤ m.text.size := by
      rw [UInt64.le_iff_toNat_le, m.text.size_toNat]
      omega
    rw [UInt64.toNat_sub_of_le _ _ hle, m.text.size_toNat, List.length_drop]
  rw [← hleft, Memfd.upTo]
  split
  · rename_i hgt
    exact (min_eq_right (UInt64.le_iff_toNat_le.mp (UInt64.le_of_lt hgt))).symm
  · rename_i hle
    exact (min_eq_left (UInt64.le_iff_toNat_le.mp (UInt64.not_lt.mp hle))).symm

/-- The slices hold the text from the position on, as far as they reach. -/
theorem fill_spec (lens : List UInt64) (hpos : m.pos.toNat < 2 ^ 63)
    (hdone : done.toNat + (m.text.bytes.drop m.pos.toNat).length < 2 ^ 63) :
    let got := (m.text.bytes.drop m.pos.toNat).take (room lens)
    let r := m.fill done lens
    r.1.text = m.text ∧ r.1.gen = m.gen ∧ r.1.pos.toNat = m.pos.toNat + got.length ∧
      r.1.pos.toNat < 2 ^ 63 ∧ r.2.1 = scatter lens got ∧ r.2.2.toNat = done.toNat + got.length := by
  have hfits := m.text.fits
  induction lens generalizing m done with
  | nil => exact ⟨rfl, rfl, by simp [Memfd.fill, room], hpos, rfl, by simp [Memfd.fill, room]⟩
  | cons len lens ih =>
    rw [Memfd.fill]
    split
    · rename_i hlt
      rw [UInt64.lt_iff_toNat_lt, m.text.size_toNat] at hlt
      have hk := slice_toNat len hlt
      generalize m.upTo len = k at hk ⊢
      have hrest : (m.text.bytes.drop m.pos.toNat).length = m.text.bytes.length - m.pos.toNat :=
        List.length_drop
      have hposk : (m.pos + k).toNat = m.pos.toNat + k.toNat := toNat_add_of_small (by omega)
      have hdonek : (done + k).toNat = done.toNat + k.toNat := toNat_add_of_small (by omega)
      have hdrop : m.text.bytes.drop (m.pos + k).toNat = (m.text.bytes.drop m.pos.toNat).drop k.toNat := by
        rw [hposk, List.drop_drop]
      have hnext := @ih { m with pos := m.pos + k } (done + k)
        (by simp only; omega) (by simp only [hdrop, List.length_drop]; omega) hfits
      simp only [hdrop] at hnext
      obtain ⟨htext, hgen, hend, hsigned, hchunks, hcount⟩ := hnext
      simp only [scatter_cons hk, length_taken hk]
      exact ⟨htext, hgen, by rw [hend, hposk, Nat.add_assoc], hsigned, by rw [hchunks],
        by rw [hcount, hdonek, Nat.add_assoc]⟩
    · rename_i hge
      rw [UInt64.lt_iff_toNat_lt, m.text.size_toNat, Nat.not_lt] at hge
      rw [List.drop_eq_nil_of_le hge, List.take_nil]
      exact ⟨rfl, rfl, rfl, hpos, (scatter_nil (len :: lens)).symm, rfl⟩

end Read

section Step

variable {m : Memfd} {f : File}

theorem readv_shows (h : Shows m f) (lens : List UInt64) :
    (m.readv lens).2 = (f.readv lens).2 ∧ Shows (m.readv lens).1 (f.readv lens).1 := by
  have hfits := m.text.fits
  have hroom : (m.text.bytes.drop m.pos.toNat).length < 2 ^ 63 := by
    rw [List.length_drop]
    omega
  obtain ⟨htext, hgen, hpos, hsigned, hchunks, hcount⟩ :=
    @fill_spec m 0 lens h.signed (by simpa using hroom)
  rw [UInt64.toNat_zero, Nat.zero_add] at hcount
  have hgot : ((m.text.bytes.drop m.pos.toNat).take (room lens)).length < 2 ^ 63 :=
    (List.length_take_le' _ _).trans_lt hroom
  rw [Memfd.readv, File.readv, ← h.text, ← h.pos]
  refine ⟨?_, ?_⟩
  · simp only
    rw [hchunks, toInt_of_small (hcount ▸ hgot), hcount]
  · exact ⟨congrArg Content.bytes htext, hpos, hgen.trans h.gen, hsigned⟩

/-- The base of an offset, negative for no whence. -/
theorem base_shows (h : Shows m f) (whence : Int) :
    match f.base whence with
    | none => (m.base whence).toInt < 0
    | some base => (m.base whence).toInt = base := by
  rw [File.base, Memfd.base]
  by_cases hset : whence = SEEK_SET
  · rw [if_pos hset, if_pos hset]
    rfl
  · rw [if_neg hset, if_neg hset]
    by_cases hcur : whence = SEEK_CUR
    · rw [if_pos hcur, if_pos hcur, ← h.pos]
      exact toInt_of_small h.signed
    · rw [if_neg hcur, if_neg hcur]
      by_cases hend : whence = SEEK_END
      · rw [if_pos hend, if_pos hend, ← h.text, ← m.text.size_toNat]
        exact toInt_of_small (m.text.size_toNat ▸ m.text.fits)
      · rw [if_neg hend, if_neg hend]
        decide

/-- A seek that regenerates nothing. -/
theorem seek_shows (h : Shows m f) (off : Int64) (whence : Int) :
    (m.seek off whence).2 = (f.seek off.toInt whence).2 ∧
      Shows (m.seek off whence).1 (f.seek off.toInt whence).1 := by
  have hbase := base_shows h whence
  rw [Memfd.seek, File.seek]
  simp only
  generalize m.base whence = base at hbase ⊢
  cases hf : f.base whence with
  | none =>
    rw [hf] at hbase
    have hneg : base < 0 := Int64.lt_iff_toInt_lt.mpr hbase
    rw [if_pos (Or.inl hneg)]
    exact ⟨rfl, h⟩
  | some b =>
    rw [hf] at hbase
    simp only at hbase ⊢
    have hnonneg : ¬ base < 0 := by
      rw [Int64.lt_iff_toInt_lt, hbase, Int64.toInt_zero]
      omega
    have hsum := add_neg_iff (b := off) (hbase ▸ Int.natCast_nonneg b)
    rw [← hbase]
    by_cases hfits : 0 ≤ base.toInt + off.toInt ∧ base.toInt + off.toInt < 2 ^ 63
    · have hnat := add_toNat hfits
      have hsmall : (base + off).toUInt64.toNat < 2 ^ 63 := by omega
      rw [if_neg (not_or.mpr ⟨hnonneg, fun hneg => hsum.mp hneg hfits⟩), if_pos hfits]
      refine ⟨?_, h.text, ?_, h.gen, hsmall⟩
      · rw [toInt_of_small hsmall, hnat]
      · simp only
        omega
    · rw [if_pos (Or.inr (hsum.mpr hfits)), if_neg hfits]
      exact ⟨rfl, h⟩

theorem step_shows (h : Shows m f) (op : Op) :
    (m.step op).2 = (f.step op).2 ∧ Shows (m.step op).1 (f.step op).1 := by
  cases op with
  | readv lens => exact readv_shows h lens
  | lseek off whence busy fresh =>
    rw [Memfd.step, Memfd.lseek, File.step, regenerated, ← h.gen]
    by_cases hrewind : off = 0 ∧ whence = SEEK_SET ∧ busy = false
    · rw [if_pos hrewind]
      obtain ⟨rfl, rfl, rfl⟩ := hrewind
      have hzero : f.seek (0 : Int64).toInt SEEK_SET = ({ f with pos := 0 }, .seek (some 0)) := rfl
      simp only [true_and]
      cases if stale m.gen fresh.now = true then fresh.made else none with
      | none =>
        rw [hzero]
        exact ⟨rfl, h.text, rfl, h.gen, by simp⟩
      | some text => exact ⟨rfl, rfl, rfl, rfl, by simp⟩
    · have hkept : ¬ (off = 0 ∧ whence = SEEK_SET ∧ busy = false ∧ stale m.gen fresh.now = true) :=
        fun hall => hrewind ⟨hall.1, hall.2.1, hall.2.2.1⟩
      rw [if_neg hrewind, if_neg hkept]
      exact seek_shows h off whence

end Step

theorem opened_shows (text : Content) (gen : Int) : Shows (opened text gen) ⟨text.bytes, 0, gen⟩ :=
  ⟨rfl, rfl, rfl, Nat.two_pow_pos 63⟩

end ApeShim.ContentFile
