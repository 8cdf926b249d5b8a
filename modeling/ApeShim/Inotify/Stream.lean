import ApeShim.Lib.Bytes
import ApeShim.Inotify.Lives

/-!
The bytes in the pipe. A record is a header of four words and a name padded with NULs; a write
that succeeds puts in all of it and any other none, so the pipe holds whole records.
-/

namespace ApeShim.Inotify
open Flags Trace Bytes

/-! ## Records -/

/-- `struct shim_inotify_event` and the name after it, as `emit` lays them out. -/
def Event.bytes (e : Event) : List UInt8 :=
  le 4 (e.wd % 2 ^ 32).toNat ++ le 4 e.mask.toNat ++ le 4 0 ++ le 4 e.len ++ e.name

/-- The length is a multiple of 16 and covers the name, which has at least one NUL behind it. -/
structure Event.WellFormed (e : Event) : Prop where
  covers : e.name.length = e.len
  aligned : eventAlign ∣ e.len
  padded : e.name = [] ∨ ∃ text k, text ≠ [] ∧ text.length ≤ nameMax ∧ 0 < k ∧ k ≤ eventAlign ∧
    e.name = text ++ List.replicate k 0

theorem paddedLen_bounds (n : Nat) :
    eventAlign ∣ paddedLen n ∧ n < paddedLen n ∧ paddedLen n ≤ n + eventAlign := by
  refine ⟨Dvd.intro_left _ rfl, ?_, ?_⟩
  · unfold paddedLen eventAlign
    omega
  · unfold paddedLen eventAlign
    omega

theorem record_wellFormed (wd : Int) (mask : Mask) (name : Name) :
    (record wd mask name).WellFormed := by
  cases name with
  | nil => exact ⟨rfl, Nat.dvd_zero _, .inl rfl⟩
  | cons b name =>
    have hn : min (b :: name).length nameMax ≤ nameMax := Nat.min_le_right ..
    have htake : ((b :: name).take (min (b :: name).length nameMax)).length =
        min (b :: name).length nameMax := by
      rw [List.length_take]
      omega
    obtain ⟨hdvd, hlt, hle⟩ := paddedLen_bounds (min (b :: name).length nameMax)
    refine ⟨?_, hdvd, .inr ⟨_, _, ?_, htake.trans_le hn, Nat.sub_pos_of_lt hlt, ?_, rfl⟩⟩
    · simp only [record, List.length_append, htake, List.length_replicate]
      omega
    · rw [← List.length_pos_iff, htake]
      simp [nameMax]
    · omega

/-- `PIPE_BUF` is at least 512, so a record is written whole or not at all. -/
theorem record_bytes_length (wd : Int) (mask : Mask) (name : Name) :
    (record wd mask name).bytes.length ≤ 272 := by
  obtain ⟨hcovers, haligned, hpadded⟩ := record_wellFormed wd mask name
  have hname : (record wd mask name).name.length ≤ 256 := by
    rcases hpadded with hnil | ⟨text, k, _, htext, _, hk, heq⟩
    · simp [hnil]
    · have hlen := congrArg List.length heq
      rw [List.length_append, List.length_replicate] at hlen
      rw [← hcovers] at haligned
      unfold eventAlign at haligned hk
      unfold nameMax at htext
      omega
  simp only [Event.bytes, List.length_append, le_length]
  omega

/-- A reader stops at the first NUL, and finds the name cut at `NAME_MAX`. -/
theorem record_name (wd : Int) (mask : Mask) {name : Name} (hname : 0 ∉ name) :
    (record wd mask name).name.takeWhile (· ≠ 0) = name.take nameMax := by
  cases name with
  | nil => rfl
  | cons b name =>
    have hcut : (b :: name).take (min (b :: name).length nameMax) = (b :: name).take nameMax := by
      rw [List.take_eq_take_iff]
      omega
    have hpad : 0 < paddedLen (min (b :: name).length nameMax) -
        min (b :: name).length nameMax :=
      Nat.sub_pos_of_lt (paddedLen_bounds _).2.1
    simp only [record, hcut]
    rw [List.takeWhile_append_of_pos]
    · obtain ⟨k, hk⟩ := Nat.exists_eq_succ_of_ne_zero hpad.ne'
      rw [hk, List.replicate_succ, List.takeWhile_cons_of_neg (by simp), List.append_nil]
    · intro c hc
      simpa using fun h0 : c = 0 => hname (h0 ▸ List.mem_of_mem_take hc)

/-! ## Reading records back -/

/-- What a reader makes of the bytes at the front. -/
def readRecord (src : List UInt8) : Event × List UInt8 :=
  (⟨Int.bmod (word 4 src 0) (2 ^ 32), BitVec.ofNat 32 (word 4 src 4), word 4 src 12,
      slice src 16 (word 4 src 12)⟩,
    src.drop (16 + word 4 src 12))

theorem readRecord_bytes {e : Event} (he : e.WellFormed) (hlen : e.len < 2 ^ 32)
    (rest : List UInt8) :
    readRecord (e.bytes ++ rest) = ({ e with wd := Int.bmod e.wd (2 ^ 32) }, rest) := by
  have hfour : ∀ v < 2 ^ 32, leValue (le 4 v) = v := by
    intro v hv
    rw [leValue_le]
    exact Nat.mod_eq_of_lt hv
  have hsplit : e.bytes ++ rest = le 4 (e.wd % 2 ^ 32).toNat ++ (le 4 e.mask.toNat ++
      (le 4 0 ++ (le 4 e.len ++ (e.name ++ rest)))) := by
    simp only [Event.bytes, List.append_assoc]
  have hwd : word 4 (e.bytes ++ rest) 0 = (e.wd % 2 ^ 32).toNat := by
    rw [hsplit]
    exact (word_at [] _ _ (le_length ..) rfl).trans (hfour _ (by omega))
  have hmask : word 4 (e.bytes ++ rest) 4 = e.mask.toNat := by
    rw [hsplit]
    exact (word_at _ _ _ (le_length ..) (le_length ..).symm).trans (hfour _ e.mask.isLt)
  have hcount : word 4 (e.bytes ++ rest) 12 = e.len := by
    rw [hsplit, ← List.append_assoc (le 4 _), ← List.append_assoc _ (le 4 0)]
    refine (word_at _ _ _ (le_length ..) ?_).trans (hfour _ hlen)
    simp only [List.length_append, le_length]
  have hpre : (le 4 (e.wd % 2 ^ 32).toNat ++ le 4 e.mask.toNat ++ le 4 0 ++ le 4 e.len).length =
      16 := by
    simp only [List.length_append, le_length]
  have hname : slice (e.bytes ++ rest) 16 e.len = e.name := by
    rw [Event.bytes, List.append_assoc]
    exact slice_at _ _ _ he.covers hpre.symm
  have hrest : (e.bytes ++ rest).drop (16 + e.len) = rest := by
    refine List.drop_left' ?_
    rw [Event.bytes, List.length_append, hpre, he.covers]
  have hint : Int.bmod ((e.wd % 2 ^ 32).toNat : Int) (2 ^ 32) = Int.bmod e.wd (2 ^ 32) := by
    rw [Int.toNat_of_nonneg (Int.emod_nonneg _ (by decide))]
    exact_mod_cast Int.emod_bmod e.wd (2 ^ 32)
  unfold readRecord
  rw [hcount, hwd, hmask, hname, hrest, hint, BitVec.ofNat_toNat, BitVec.setWidth_eq]

/-! ## The pipe -/

/-- What the writes so far have put into the pipe, from the records given to `write`, newest
first. -/
def stream (wr : Nat → Written) : List Event → List UInt8
  | [] => []
  | e :: sent => stream wr sent ++ if wr sent.length = .took .ok then e.bytes else []

/-- A concatenation of well-formed records. -/
def Framed (bs : List UInt8) : Prop :=
  ∃ es : List Event, bs = es.flatMap Event.bytes ∧ ∀ e ∈ es, e.WellFormed

theorem stream_framed {wr : Nat → Written} {sent : List Event} (h : ∀ e ∈ sent, e.WellFormed) :
    Framed (stream wr sent) := by
  induction sent with
  | nil => exact ⟨[], rfl, by simp⟩
  | cons e sent ih =>
    rw [List.forall_mem_cons] at h
    obtain ⟨es, hes, hwell⟩ := ih h.2
    simp only [stream]
    split_ifs
    · refine ⟨es ++ [e], by simp [hes], fun x hx => ?_⟩
      rcases List.mem_append.mp hx with hx | hx
      · exact hwell x hx
      · rw [List.mem_singleton.mp hx]
        exact h.1
    · exact ⟨es, by simp [hes], hwell⟩

/-! ## Everything sent is a record -/

theorem emitEach_sent_wellFormed {wr : Nat → Written} {g : Inst} (calls : List Call)
    (h : ∀ e ∈ g.sent, e.WellFormed) : ∀ e ∈ (g.emitEach wr calls).sent, e.WellFormed := by
  induction calls generalizing g with
  | nil => exact h
  | cons c calls ih =>
    rw [emitEach_cons]
    refine ih ?_
    cases hdead : g.dead with
    | true =>
      rw [emit_of_dead hdead]
      exact h
    | false =>
      rw [emit_of_live hdead]
      exact List.forall_mem_cons.mpr ⟨record_wellFormed .., h⟩

theorem apply_sent_wellFormed {wr : Nat → Written} {g : Inst} (a : Op)
    (h : ∀ e ∈ g.sent, e.WellFormed) : ∀ e ∈ (g.apply wr a).sent, e.WellFormed := by
  cases a with
  | pass host =>
    simp only [Inst.apply, pass_eq]
    exact @emitEach_sent_wellFormed wr { g with overflow := false } _ h
  | addWatch ls res path mask st =>
    simp only [Inst.apply, (addWatch_frame ..).sent]
    exact h
  | rmWatch wd =>
    simp only [Inst.apply, rmWatch_eq]
    split_ifs
    · exact emitEach_sent_wellFormed _ h
    · exact h

/-- Over a whole life, the pipe gets whole records. -/
theorem life_framed {wr : Nat → Written} {rfd wfd : Int} {pipe : Nat} {ok : Inst → Op → Prop}
    {g : Inst} {log : List Int} (h : (life wr (.fresh rfd wfd pipe)).Run ok g log) :
    Framed (stream wr g.sent) := by
  refine stream_framed ?_
  refine Machine.Run.invariant (P := fun g _ => ∀ e ∈ g.sent, e.WellFormed) ?_ ?_ h
  · intro e he
    cases he
  · intro g log a g' out hg _ hstep
    obtain ⟨_, rfl, _⟩ := life_step hstep
    exact apply_sent_wellFormed a hg

end ApeShim.Inotify
