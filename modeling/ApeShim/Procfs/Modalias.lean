import ApeShim.Lib.Memory
import ApeShim.Procfs.Smbios

/-!
The modalias of `/sys/class/dmi/id` (`shim/procfs/core/sysfs.c`): the strings of the SMBIOS table, put
together in a buffer of 600 bytes. A write outside of it has no result.
-/

namespace ApeShim.Smbios
open Memory

/-! ## The buffer -/

/-- `sizeof buf` -/
def bufSize : Nat := 600

/-- `buf` and `k` -/
structure Buf where
  mem : Nat → UInt8
  k : Nat

/-- `buf[k++] = c` -/
def Buf.put (b : Buf) (c : UInt8) : Option Buf :=
  if b.k < bufSize then some ⟨Function.update b.mem b.k c, b.k + 1⟩ else none

/-- A loop over a string that stops three bytes before the end of the buffer. -/
def Buf.copy (keep : UInt8 → Bool) : List UInt8 → Buf → Option Buf
  | [], b => some b
  | c :: s, b =>
    if b.k < bufSize - 3 then (if keep c then b.put c else some b).bind (copy keep s) else some b

/-- What `snprintf` writes of a text into some room. -/
def printed : Nat → List UInt8 → List UInt8
  | 0, _ => []
  | room + 1, s => s.take room ++ [0]

/-- `k += snprintf(buf + k, sizeof buf - k, ..)`; the room is a `size_t`. -/
def Buf.snprintf (b : Buf) (s : List UInt8) : Option Buf :=
  if b.k ≤ bufSize then some ⟨blit b.mem b.k (printed (bufSize - b.k) s), b.k + s.length⟩ else none

/-! ## Composing -/

def ascii (s : String) : List UInt8 := s.toList.map fun c => UInt8.ofNat c.toNat

/-- `parts` -/
def parts (d : Dmi) : List (List UInt8 × List UInt8) :=
  [("bvn", Slot.biosVendor), ("bvr", .biosVersion), ("bd", .biosDate), ("svn", .sysVendor),
    ("pn", .productName), ("pvr", .productVersion), ("rvn", .boardVendor), ("rn", .boardName),
    ("rvr", .boardVersion), ("cvn", .chassisVendor), ("cvr", .chassisVersion)].map
      fun t => (ascii t.1, (d.str t.2).text)

/-- Neither a space nor a colon. -/
def kept (c : UInt8) : Bool := c ≠ 0x20 && c ≠ 0x3a

/-- `"ct%d:"` -/
def chassisTag (type : Fin 128) : List UInt8 :=
  ascii "ct" ++ (Nat.toDigits 10 type).map (fun c => UInt8.ofNat c.toNat) ++ [0x3a]

/-- The body of the loop over `parts`, at its `i`th. -/
def Buf.part (type : Fin 128) (b : Buf) (p : (List UInt8 × List UInt8) × Nat) : Option Buf := do
  let b ← b.copy (fun _ => true) p.1.1
  let b ← b.copy kept p.1.2
  let b ← b.put 0x3a
  if p.2 = 9 ∧ b.k < bufSize - 8 then b.snprintf (chassisTag type) else some b

/-- What `ensure_sysfs_dmi` makes of `buf` before it writes the file. -/
def modalias (d : Dmi) (mem : Nat → UInt8) : Option Buf := do
  let b ← Buf.snprintf ⟨mem, 0⟩ (ascii "dmi:")
  let b ← (parts d).zipIdx.foldlM (Buf.part d.chassisType) b
  b.put 0x0a

/-! ## What it is for -/

def piece (type : Fin 128) (p : (List UInt8 × List UInt8) × Nat) : List UInt8 :=
  p.1.1 ++ p.1.2.filter kept ++ 0x3a :: if p.2 = 9 then chassisTag type else []

/-- The text, however long it gets. -/
def uncut (d : Dmi) : List UInt8 :=
  ascii "dmi:" ++ (parts d).zipIdx.flatMap (piece d.chassisType) ++ [0x0a]

/-! ## How far a part gets -/

section Bounds

variable {keep : UInt8 → Bool} {type : Fin 128} {b : Buf}

theorem copy_bounds (s : List UInt8) (b : Buf) : ∃ b', b.copy keep s = some b' ∧ b.k ≤ b'.k ∧
    b'.k ≤ max b.k (bufSize - 3) ∧ b'.k ≤ b.k + s.length := by
  induction s generalizing b with
  | nil => exact ⟨b, rfl, le_rfl, le_max_left _ _, le_rfl⟩
  | cons c s ih =>
    rw [Buf.copy]
    split
    · rename_i hk
      have hbuf : bufSize - 3 = 597 := rfl
      cases keep c with
      | true =>
        have hput : b.put c = some ⟨Function.update b.mem b.k c, b.k + 1⟩ :=
          if_pos (hk.trans (by decide))
        obtain ⟨b', hb', hle, hmax, hlen⟩ := ih ⟨Function.update b.mem b.k c, b.k + 1⟩
        rw [if_pos rfl, hput, Option.bind_some, List.length_cons]
        dsimp only at hle hmax hlen
        exact ⟨b', hb', by omega, by omega, by omega⟩
      | false =>
        obtain ⟨b', hb', hle, hmax, hlen⟩ := ih b
        rw [if_neg (by decide), Option.bind_some, List.length_cons]
        exact ⟨b', hb', hle, hmax, by omega⟩
    · exact ⟨b, rfl, le_rfl, le_max_left _ _, by omega⟩

theorem put_some (h : b.k < bufSize) (c : UInt8) :
    b.put c = some ⟨Function.update b.mem b.k c, b.k + 1⟩ := if_pos h

theorem chassisTag_length (type : Fin 128) : (chassisTag type).length ≤ 6 := by
  revert type
  decide

/-- Three bytes are free when the copying stops: one of them takes the colon. -/
theorem part_bounds {p : (List UInt8 × List UInt8) × Nat} (hp : p.2 ≠ 9) (hk : b.k ≤ bufSize - 2) :
    ∃ b', b.part type p = some b' ∧ b'.k ≤ max b.k (bufSize - 3) + 1 ∧
      b'.k ≤ b.k + (p.1.1.length + p.1.2.length + 1) := by
  have hbuf : bufSize = 600 := rfl
  obtain ⟨b1, h1, -, hmax1, hlen1⟩ := @copy_bounds (fun _ => true) p.1.1 b
  obtain ⟨b2, h2, -, hmax2, hlen2⟩ := @copy_bounds kept p.1.2 b1
  rw [Buf.part, h1]
  simp only [Option.bind_eq_bind, Option.bind_some, h2]
  rw [put_some (by omega)]
  simp only [Option.bind_some, hp, false_and, if_false]
  refine ⟨_, rfl, ?_, ?_⟩ <;> dsimp only <;> omega

/-- The tenth part adds the chassis only where there is room. -/
theorem chassis_bounds {p : (List UInt8 × List UInt8) × Nat} (hp : p.2 = 9)
    (hk : b.k ≤ bufSize - 2) : ∃ b', b.part type p = some b' ∧
      b'.k ≤ max b.k (bufSize - 3) + 1 := by
  have hbuf : bufSize = 600 := rfl
  have htag := chassisTag_length type
  obtain ⟨b1, h1, -, hmax1, -⟩ := @copy_bounds (fun _ => true) p.1.1 b
  obtain ⟨b2, h2, -, hmax2, -⟩ := @copy_bounds kept p.1.2 b1
  rw [Buf.part, h1]
  simp only [Option.bind_eq_bind, Option.bind_some, h2]
  rw [put_some (by omega)]
  simp only [Option.bind_some, hp, true_and]
  split
  · refine ⟨_, if_pos (by dsimp only; omega), ?_⟩
    dsimp only
    omega
  · refine ⟨_, rfl, ?_⟩
    dsimp only
    omega

/-- Parts before the tenth. -/
theorem parts_bounds {l : List ((List UInt8 × List UInt8) × Nat)} (hl : ∀ p ∈ l, p.2 ≠ 9)
    (hk : b.k + (l.map fun p => p.1.1.length + p.1.2.length + 1).sum ≤ bufSize - 2) :
    ∃ b', l.foldlM (Buf.part type) b = some b' ∧
      b'.k ≤ b.k + (l.map fun p => p.1.1.length + p.1.2.length + 1).sum := by
  induction l generalizing b with
  | nil => exact ⟨b, rfl, Nat.le_add_right _ _⟩
  | cons p l ih =>
    rw [List.forall_mem_cons] at hl
    rw [List.map_cons, List.sum_cons] at hk ⊢
    obtain ⟨b1, h1, -, hlen⟩ := @part_bounds type b p hl.1 (by omega)
    obtain ⟨b2, h2, hle⟩ := @ih b1 hl.2 (by omega)
    refine ⟨b2, ?_, by omega⟩
    rw [List.foldlM_cons, h1]
    exact h2

end Bounds

/-! ## What it comes to where nothing is cut -/

section Exact

variable {keep : UInt8 → Bool} {type : Fin 128} {b : Buf} {s : List UInt8}

/-- Text put behind the buffer's text. -/
def Buf.append (b : Buf) (s : List UInt8) : Buf := ⟨blit b.mem b.k s, b.k + s.length⟩

theorem view_append (b : Buf) (s : List UInt8) :
    view (b.append s).mem 0 (b.append s).k = view b.mem 0 b.k ++ s := by
  have := @view_blit_append UInt8 b.mem 0 b.k s
  rwa [Nat.zero_add] at this

theorem put_eq (h : b.k < bufSize) (c : UInt8) : b.put c = some (b.append [c]) := put_some h c

theorem copy_eq (h : b.k + (s.filter keep).length < bufSize - 3) :
    ∃ b', b.copy keep s = some b' ∧ b'.k = b.k + (s.filter keep).length ∧
      view b'.mem 0 b'.k = view b.mem 0 b.k ++ s.filter keep := by
  induction s generalizing b with
  | nil => exact ⟨b, rfl, rfl, by simp⟩
  | cons c s ih =>
    have hbuf : bufSize = 600 := rfl
    rw [Buf.copy, if_pos (by omega)]
    cases hc : keep c with
    | true =>
      rw [List.filter_cons_of_pos hc, List.length_cons] at h ⊢
      have hone : (b.append [c]).k = b.k + 1 := rfl
      obtain ⟨b', hb', hk, hview⟩ := @ih (b.append [c]) (by omega)
      refine ⟨b', ?_, ?_, ?_⟩
      · rw [if_pos rfl, put_eq (by omega)]
        exact hb'
      · omega
      · rw [hview, view_append, List.append_assoc, List.singleton_append]
    | false =>
      rw [List.filter_cons_of_neg (by simp [hc])] at h ⊢
      rw [if_neg (by decide)]
      exact ih h

/-- The NUL that `snprintf` adds stands behind the text. -/
theorem snprintf_eq (h : b.k + s.length < bufSize) : ∃ b', b.snprintf s = some b' ∧
    b'.k = b.k + s.length ∧ view b'.mem 0 b'.k = view b.mem 0 b.k ++ s := by
  refine ⟨_, if_pos (by omega), rfl, ?_⟩
  obtain ⟨room, hroom⟩ := Nat.exists_eq_add_of_le' (show 1 ≤ bufSize - b.k by omega)
  have hall := view_append b (s ++ [0])
  dsimp only
  rw [hroom, printed, List.take_of_length_le (by omega)]
  rw [Buf.append, List.length_append, ← Nat.add_assoc, view_add, ← List.append_assoc] at hall
  exact (List.append_inj hall (by simp)).1

theorem part_eq {p : (List UInt8 × List UInt8) × Nat}
    (h : b.k + (piece type p).length < bufSize - 8) : ∃ b', b.part type p = some b' ∧
      b'.k = b.k + (piece type p).length ∧
      view b'.mem 0 b'.k = view b.mem 0 b.k ++ piece type p := by
  have hbuf : bufSize = 600 := rfl
  have hall : p.1.1.filter (fun _ => true) = p.1.1 := List.filter_true _
  simp only [piece, List.length_append, List.length_cons] at h
  obtain ⟨b1, h1, hk1, hv1⟩ := @copy_eq (fun _ => true) b p.1.1 (by rw [hall]; omega)
  rw [hall] at hk1 hv1
  obtain ⟨b2, h2, hk2, hv2⟩ := @copy_eq kept b1 p.1.2 (by omega)
  have h3 := @put_eq b2 (by omega) 0x3a
  have hk3 : (b2.append [0x3a]).k = b2.k + 1 := rfl
  have hv3 := view_append b2 [0x3a]
  rw [Buf.part, h1]
  simp only [Option.bind_eq_bind, Option.bind_some, h2, h3]
  by_cases hp : p.2 = 9
  · rw [if_pos hp] at h
    rw [if_pos ⟨hp, by omega⟩]
    obtain ⟨b4, h4, hk4, hv4⟩ := @snprintf_eq (b2.append [0x3a]) (chassisTag type) (by omega)
    refine ⟨b4, h4, ?_, ?_⟩
    · simp only [piece, List.length_append, List.length_cons, if_pos hp]
      omega
    · rw [hv4, hv3, hv2, hv1, piece, if_pos hp]
      simp only [List.append_assoc, List.singleton_append]
  · rw [if_neg fun h => hp h.1]
    refine ⟨_, rfl, ?_, ?_⟩
    · simp only [piece, List.length_append, List.length_cons, if_neg hp, List.length_nil]
      omega
    · rw [hv3, hv2, hv1, piece, if_neg hp]
      simp only [List.append_assoc]

theorem parts_eq {l : List ((List UInt8 × List UInt8) × Nat)}
    (h : b.k + (l.flatMap (piece type)).length < bufSize - 8) :
    ∃ b', l.foldlM (Buf.part type) b = some b' ∧ b'.k = b.k + (l.flatMap (piece type)).length ∧
      view b'.mem 0 b'.k = view b.mem 0 b.k ++ l.flatMap (piece type) := by
  induction l generalizing b with
  | nil => exact ⟨b, rfl, rfl, by simp⟩
  | cons p l ih =>
    rw [List.flatMap_cons, List.length_append] at h ⊢
    obtain ⟨b1, h1, hk1, hv1⟩ := @part_eq type b p (by omega)
    obtain ⟨b2, h2, hk2, hv2⟩ := @ih b1 (by omega)
    refine ⟨b2, ?_, by omega, ?_⟩
    · rw [List.foldlM_cons, h1]
      exact h2
    · rw [hv2, hv1, List.append_assoc]

end Exact

/-- The first nine values leave room for the rest, whatever they are. -/
theorem front_length (d : Dmi) : ((((parts d).zipIdx).take 9).map
    fun p => p.1.1.length + p.1.2.length + 1).sum ≤ 568 := by
  have h0 := (d.str .biosVendor).fits
  have h1 := (d.str .biosVersion).fits
  have h2 := (d.str .biosDate).fits
  have h3 := (d.str .sysVendor).fits
  have h4 := (d.str .productName).fits
  have h5 := (d.str .productVersion).fits
  have h6 := (d.str .boardVendor).fits
  have h7 := (d.str .boardName).fits
  have h8 := (d.str .boardVersion).fits
  simp only [Slot.cap] at h0 h1 h2 h3 h4 h5 h6 h7 h8
  simp [parts, ascii]
  omega

theorem head_eq (mem : Nat → UInt8) : ∃ b, Buf.snprintf ⟨mem, 0⟩ (ascii "dmi:") = some b ∧
    b.k = 4 ∧ view b.mem 0 b.k = ascii "dmi:" := by
  obtain ⟨b, hb, hk, hview⟩ := @snprintf_eq ⟨mem, 0⟩ (ascii "dmi:") (show 4 < 600 by decide)
  exact ⟨b, hb, hk, hview⟩

theorem modalias_bounds (d : Dmi) (mem : Nat → UInt8) :
    ∃ b, modalias d mem = some b ∧ b.k ≤ bufSize := by
  have hbuf : bufSize = 600 := rfl
  have hfront := front_length d
  have hsplit : (parts d).zipIdx = (parts d).zipIdx.take 9 ++
      [((ascii "cvn", (d.str .chassisVendor).text), 9),
        ((ascii "cvr", (d.str .chassisVersion).text), 10)] := rfl
  have hnine : ∀ p ∈ (parts d).zipIdx.take 9, p.2 ≠ 9 := by simp [parts]
  obtain ⟨b0, h0, hk0, -⟩ := head_eq mem
  obtain ⟨b1, h1, hk1⟩ := @parts_bounds d.chassisType b0 _ hnine (by omega)
  obtain ⟨b2, h2, hk2⟩ := @chassis_bounds d.chassisType b1
    ((ascii "cvn", (d.str .chassisVendor).text), 9) rfl (by omega)
  obtain ⟨b3, h3, hk3, -⟩ := @part_bounds d.chassisType b2
    ((ascii "cvr", (d.str .chassisVersion).text), 10) (show 10 ≠ 9 by decide) (by omega)
  have hend := @put_some b3 (by omega) 0x0a
  have hrun : modalias d mem = some ⟨Function.update b3.mem b3.k 0x0a, b3.k + 1⟩ := by
    rw [modalias, h0, hsplit]
    simp only [Option.bind_eq_bind, Option.bind_some, List.foldlM_append, h1, List.foldlM_cons, h2,
      h3, List.foldlM_nil, pure, hend]
  refine ⟨_, hrun, ?_⟩
  dsimp only
  omega

theorem modalias_eq (d : Dmi) (mem : Nat → UInt8) (h : (uncut d).length < 592) :
    ∃ b, modalias d mem = some b ∧ view b.mem 0 b.k = uncut d := by
  have hbuf : bufSize = 600 := rfl
  simp only [uncut, List.length_append, List.length_singleton] at h
  obtain ⟨b0, h0, hk0, hv0⟩ := head_eq mem
  have hdmi : (ascii "dmi:").length = 4 := rfl
  obtain ⟨b1, h1, hk1, hv1⟩ := @parts_eq d.chassisType b0 (parts d).zipIdx (by omega)
  refine ⟨b1.append [0x0a], ?_, ?_⟩
  · rw [modalias, h0]
    simp only [Option.bind_eq_bind, Option.bind_some, h1]
    exact put_eq (by omega) _
  · rw [view_append, hv1, hv0, uncut]

/-- **The modalias stays inside its buffer**, and is the whole text where that has fewer than 592
bytes. -/
theorem modalias_fits (d : Dmi) (mem : Nat → UInt8) : ∃ b, modalias d mem = some b ∧
    b.k ≤ bufSize ∧ ((uncut d).length < 592 → view b.mem 0 b.k = uncut d) := by
  obtain ⟨b, hb, hk⟩ := modalias_bounds d mem
  refine ⟨b, hb, hk, fun h => ?_⟩
  obtain ⟨b', hb', hview⟩ := modalias_eq d mem h
  rw [hb] at hb'
  cases hb'
  exact hview

end ApeShim.Smbios
