import ApeShim.Lib.Memory
import Mathlib.Data.List.TakeWhile

/-!
`WrapConsolePaste` of `shim/read.c`: what the console driver hands out key by key is gathered
into the caller's buffer, and a paste is put between the markers of a bracketed one.
-/

namespace ApeShim.Console
open Memory

/-! ## The text of a paste -/

def isBreak (c : UInt8) : Bool := c = 0x0d || c = 0x0a

def isText (c : UInt8) : Bool := c = 0x09 || (0x20 ≤ c && c ≠ 0x7f)

/-- Every other byte is a control byte. -/
def isPlain (c : UInt8) : Bool := isBreak c || isText c

/-- `got_break` and `got_text` -/
structure Seen where
  brk : Bool
  text : Bool
  deriving DecidableEq, Repr

/-- `IsPasteText` -/
def isPasteText : List UInt8 → Seen → Bool × Seen
  | [], f => (true, f)
  | c :: cs, f =>
    if isBreak c then isPasteText cs { f with brk := true }
    else if isText c then isPasteText cs { f with text := true }
    else (false, f)

/-! ## The buffer -/

/-- A turn of the gathering loop. -/
structure Turn where
  /-- `CountConsoleInputBytes` -/
  queued : Int
  /-- what `sys_readv_nt` puts into a room of so many bytes; empty where it returns 0 or fails -/
  read : Nat → List UInt8
  read_le : ∀ room, (read room).length ≤ room

structure Gathered where
  mem : Nat → UInt8
  /-- `text_end` -/
  textEnd : Nat
  /-- `n`: the reads up to here were plain -/
  n : Nat
  seen : Seen

/-- The gathering loop. -/
def gather (cap : Nat) : List Turn → Gathered → Gathered
  | [], g => g
  | t :: ts, g =>
    if g.textEnd + 12 < cap ∧ t.queued > 0 then
      let got := t.read (cap - 12 - g.textEnd)
      if got = [] then g
      else
        let mem := blit g.mem g.textEnd got
        let plain := isPasteText (view mem g.textEnd got.length) g.seen
        let textEnd := g.textEnd + got.length
        if plain.1 then gather cap ts ⟨mem, textEnd, textEnd, plain.2⟩
        else ⟨mem, textEnd, g.n, plain.2⟩
    else g

/-- What decides whether a read may begin a paste. -/
structure Settings where
  /-- `__ape_shim_console_bracketed_paste` -/
  bracketed : Bool
  /-- `kTtyUncanon` -/
  raw : Bool

def openMark : List UInt8 := [0x1b, 0x5b, 0x32, 0x30, 0x30, 0x7e]

def closeMark : List UInt8 := [0x1b, 0x5b, 0x32, 0x30, 0x31, 0x7e]

/-- The two moves that make room for the markers. -/
def insertMarks (mem : Nat → UInt8) (n textEnd : Nat) : Nat → UInt8 :=
  let mem := blit (move mem 6 0 textEnd) 0 openMark
  blit (move mem (6 + n + 6) (6 + n) (textEnd - n)) (6 + n) closeMark

/-- `WrapConsolePaste`, with the buffer at 0: the buffer, and what is returned. -/
def Settings.wrapConsolePaste (s : Settings) (mem : Nat → UInt8) (cap n : Nat) (turns : List Turn) :
    (Nat → UInt8) × Nat :=
  let first := isPasteText (view mem 0 n) ⟨false, false⟩
  if s.bracketed = false ∨ s.raw = false ∨ cap < n + 12 ∨ first.1 = false then (mem, n)
  else
    let g := gather cap turns ⟨mem, n, n, first.2⟩
    if g.n < 3 ∨ g.seen.brk = false ∨ g.seen.text = false then (g.mem, g.textEnd)
    else (insertMarks g.mem g.n g.textEnd, g.textEnd + 12)

/-! ## What it is for -/

/-- What was read in one burst: plain reads, and the read with a control byte that ended it. -/
structure Burst where
  seg : List UInt8
  tail : List UInt8
  deriving DecidableEq

/-- The burst that begins with a plain read. -/
def burstFrom (cap : Nat) : List Turn → List UInt8 → Burst
  | [], seg => ⟨seg, []⟩
  | t :: ts, seg =>
    if seg.length + 12 < cap ∧ t.queued > 0 then
      let got := t.read (cap - 12 - seg.length)
      if got = [] then ⟨seg, []⟩
      else if got.all isPlain then burstFrom cap ts (seg ++ got)
      else ⟨seg, got⟩
    else ⟨seg, []⟩

/-- Nothing is gathered outside of a bracketed paste, in a full buffer, or behind a control
byte. -/
def Settings.burst (s : Settings) (first : List UInt8) (cap : Nat) (turns : List Turn) : Burst :=
  if s.bracketed = false ∨ s.raw = false ∨ cap < first.length + 12 ∨ first.all isPlain = false then
    ⟨[], first⟩
  else burstFrom cap turns first

/-- The segment is text with a line break in it. -/
def Burst.IsPaste (b : Burst) : Prop :=
  3 ≤ b.seg.length ∧ b.seg.any isBreak = true ∧ b.seg.any isText = true

instance (b : Burst) : Decidable b.IsPaste := inferInstanceAs (Decidable (_ ∧ _))

def Burst.wrapped (b : Burst) : List UInt8 := openMark ++ b.seg ++ closeMark ++ b.tail

/-- What should be in the caller's buffer. -/
structure Exact (out : List UInt8) (cap : Nat) (b : Burst) : Prop where
  room : out.length ≤ cap
  plain : b.seg.all isPlain = true
  control : b.tail = [] ∨ b.seg = [] ∨ b.tail.all isPlain = false
  /-- nothing is lost -/
  lossless : out = b.seg ++ b.tail ∨ out = b.wrapped
  paste : out = b.wrapped ↔ b.IsPaste

/-- The plain bytes before the first control byte. -/
def lead (bytes : List UInt8) : List UInt8 := bytes.takeWhile isPlain

/-- The read that ends the burst brings the line break, or the text, that the segment lacks. -/
def Burst.Misled (b : Burst) : Prop :=
  3 ≤ b.seg.length ∧ ¬ b.IsPaste ∧ (b.seg ++ lead b.tail).any isBreak = true ∧
    (b.seg ++ lead b.tail).any isText = true

/-! ## Reading the text -/

theorem isText_of_isBreak {c : UInt8} (h : isBreak c = true) : isText c = false := by
  rw [isBreak, Bool.or_eq_true, decide_eq_true_eq, decide_eq_true_eq] at h
  rcases h with rfl | rfl <;> rfl

/-- What is seen in a list of bytes. -/
def seenIn (bytes : List UInt8) : Seen := ⟨bytes.any isBreak, bytes.any isText⟩

theorem seenIn_append_break {l : List UInt8} {c : UInt8} (h : isBreak c = true) :
    seenIn (l ++ [c]) = { seenIn l with brk := true } := by
  simp [seenIn, h, isText_of_isBreak h]

theorem seenIn_append_text {l : List UInt8} {c : UInt8} (hb : isBreak c = false)
    (ht : isText c = true) : seenIn (l ++ [c]) = { seenIn l with text := true } := by
  simp [seenIn, hb, ht]

/-- The flags are raised up to the first control byte. -/
theorem isPasteText_eq (bytes l : List UInt8) :
    isPasteText bytes (seenIn l) = (bytes.all isPlain, seenIn (l ++ lead bytes)) := by
  induction bytes generalizing l with
  | nil => simp [isPasteText, lead]
  | cons c cs ih =>
    rw [isPasteText]
    cases hb : isBreak c with
    | true =>
      have hplain : isPlain c = true := by rw [isPlain, hb, Bool.true_or]
      rw [if_pos rfl, ← seenIn_append_break hb, ih, List.all_cons, hplain, Bool.true_and, lead, lead,
        List.takeWhile_cons_of_pos hplain, List.append_assoc, List.singleton_append]
    | false =>
      rw [if_neg Bool.false_ne_true]
      cases ht : isText c with
      | true =>
        have hplain : isPlain c = true := by rw [isPlain, ht, Bool.or_true]
        rw [if_pos rfl, ← seenIn_append_text hb ht, ih, List.all_cons, hplain, Bool.true_and, lead, lead,
          List.takeWhile_cons_of_pos hplain, List.append_assoc, List.singleton_append]
      | false =>
        have hplain : isPlain c = false := by rw [isPlain, hb, ht, Bool.or_false]
        rw [if_neg Bool.false_ne_true, List.all_cons, hplain, Bool.false_and, lead,
          List.takeWhile_cons_of_neg (by rw [hplain]; exact Bool.false_ne_true), List.append_nil]

theorem lead_of_plain {bytes : List UInt8} (h : bytes.all isPlain = true) : lead bytes = bytes :=
  List.takeWhile_eq_self_iff.mpr fun c hc => List.all_eq_true.mp h c hc

/-! ## Gathering -/

/-- The buffer holds the plain reads so far. -/
structure Gathered.Holds (g : Gathered) (cap : Nat) (seg : List UInt8) : Prop where
  text : view g.mem 0 g.textEnd = seg
  plain : seg.all isPlain = true
  atEnd : g.n = g.textEnd
  seen : g.seen = seenIn seg
  room : g.textEnd + 12 ≤ cap

/-- The buffer holds a whole burst. -/
structure Gathered.Done (g : Gathered) (cap : Nat) (b : Burst) : Prop where
  text : view g.mem 0 g.textEnd = b.seg ++ b.tail
  plain : b.seg.all isPlain = true
  control : b.tail = [] ∨ b.tail.all isPlain = false
  split : g.n = b.seg.length
  seen : g.seen = seenIn (b.seg ++ lead b.tail)
  room : g.textEnd + 12 ≤ cap

section Gather

variable {g : Gathered} {cap : Nat} {seg : List UInt8}

theorem Gathered.Holds.length (h : g.Holds cap seg) : g.textEnd = seg.length := by
  rw [← h.text, view_length]

theorem Gathered.Holds.done (h : g.Holds cap seg) : g.Done cap ⟨seg, []⟩ where
  text := by rw [h.text, List.append_nil]
  plain := h.plain
  control := Or.inl rfl
  split := by rw [h.atEnd, h.length]
  seen := by rw [h.seen, lead, List.takeWhile_nil, List.append_nil]
  room := h.room

/-- The bytes of a read stand behind the others. -/
theorem Gathered.Holds.view_read (h : g.Holds cap seg) (got : List UInt8) :
    view (blit g.mem g.textEnd got) 0 (g.textEnd + got.length) = seg ++ got := by
  have happend := view_blit_append (m := g.mem) (a := 0) (n := g.textEnd) got
  rwa [Nat.zero_add, h.text] at happend

theorem gather_done (h : g.Holds cap seg) (turns : List Turn) :
    (gather cap turns g).Done cap (burstFrom cap turns seg) := by
  induction turns generalizing g seg with
  | nil => exact h.done
  | cons t ts ih =>
    rw [gather, burstFrom, ← h.length]
    split
    · rename_i hroom
      have hgot := t.read_le (cap - 12 - g.textEnd)
      generalize t.read (cap - 12 - g.textEnd) = got at hgot ⊢
      simp only [view_blit, h.seen, isPasteText_eq]
      split
      · exact h.done
      · split
        · rename_i hplain
          refine ih ⟨h.view_read got, ?_, rfl, ?_, by simp only; omega⟩
          · rw [List.all_append, h.plain, hplain, Bool.true_and]
          · rw [lead_of_plain hplain]
        · rename_i hcontrol
          exact ⟨h.view_read got, h.plain, Or.inr (Bool.not_eq_true _ ▸ hcontrol),
            by rw [h.atEnd, h.length], rfl, by simp only; omega⟩
    · exact h.done

end Gather

/-! ## Wrapping -/

/-- The two moves put the markers around the segment. -/
theorem view_insertMarks {mem : Nat → UInt8} {b : Burst}
    (h : view mem 0 (b.seg.length + b.tail.length) = b.seg ++ b.tail) :
    view (insertMarks mem b.seg.length (b.seg.length + b.tail.length)) 0
      (b.seg.length + b.tail.length + 12) = b.wrapped := by
  obtain ⟨seg, tail⟩ := b
  simp only at h ⊢
  have hfirst : move mem 6 0 (seg.length + tail.length) = blit mem 6 (seg ++ tail) := by rw [move, h]
  rw [insertMarks, hfirst, Nat.add_sub_cancel_left]
  generalize hm2 : blit (blit mem 6 (seg ++ tail)) 0 openMark = m2
  have hopen : view m2 0 6 = openMark := by rw [← hm2]; exact view_blit openMark
  have hmoved : view m2 6 (seg.length + tail.length) = seg ++ tail := by
    rw [← hm2, view_blit_after (by simp [openMark]), ← List.length_append, view_blit]
  rw [view_add] at hmoved
  obtain ⟨hseg, htail⟩ := List.append_inj hmoved (by rw [view_length])
  have hmarks : (6 + seg.length) + (6 + tail.length) = seg.length + tail.length + 12 := by omega
  rw [move, htail, ← hmarks, view_add, view_add, view_add, Nat.zero_add, Nat.zero_add]
  have hclose : closeMark.length = 6 := rfl
  rw [view_blit_before (by omega), view_blit_before (by omega), hopen, view_blit_before (by omega),
    view_blit_before (by omega), hseg, ← hclose, view_blit, view_blit_after (Nat.le_refl _), hclose,
    view_blit, Burst.wrapped, List.append_assoc (openMark ++ seg)]

section Wrap

variable {s : Settings} {mem : Nat → UInt8} {cap n : Nat} {turns : List Turn}

theorem wrapped_ne (b : Burst) : b.wrapped ≠ b.seg ++ b.tail := by
  intro h
  have hlen := congrArg List.length h
  simp only [Burst.wrapped, List.length_append, openMark, closeMark, List.length_cons,
    List.length_nil] at hlen
  omega

/-- A paste is still one with more text behind it. -/
theorem Burst.IsPaste.append {b : Burst} (h : b.IsPaste) (more : List UInt8) :
    (b.seg ++ more).any isBreak = true ∧ (b.seg ++ more).any isText = true := by
  rw [List.any_append, List.any_append, h.2.1, h.2.2]
  exact ⟨rfl, rfl⟩

/-- The output of the burst that was gathered, wrapped by what was seen in it and in the read
that ended it. -/
theorem wrap_eq (hfit : n ≤ cap) :
    let b := s.burst (view mem 0 n) cap turns
    let r := s.wrapConsolePaste mem cap n turns
    r.2 ≤ cap ∧ b.seg.all isPlain = true ∧
      (b.tail = [] ∨ b.seg = [] ∨ b.tail.all isPlain = false) ∧
      view r.1 0 r.2 = if 3 ≤ b.seg.length ∧ (b.seg ++ lead b.tail).any isBreak = true ∧
        (b.seg ++ lead b.tail).any isText = true then b.wrapped else b.seg ++ b.tail := by
  have hfirst := isPasteText_eq (view mem 0 n) []
  rw [List.nil_append] at hfirst
  have hseen : seenIn [] = ⟨false, false⟩ := rfl
  rw [hseen] at hfirst
  simp only [Settings.wrapConsolePaste, Settings.burst, hfirst, view_length]
  split
  · exact ⟨hfit, rfl, Or.inr (Or.inl rfl), by simp⟩
  · rename_i hgate
    simp only [not_or, Bool.not_eq_false] at hgate
    obtain ⟨-, -, hroom, hplain⟩ := hgate
    have hholds : Gathered.Holds ⟨mem, n, n, seenIn (lead (view mem 0 n))⟩ cap (view mem 0 n) :=
      ⟨rfl, hplain, rfl, by rw [lead_of_plain hplain], by simp only; omega⟩
    have hdone := gather_done hholds turns
    generalize gather cap turns ⟨mem, n, n, seenIn (lead (view mem 0 n))⟩ = g at hdone ⊢
    generalize burstFrom cap turns (view mem 0 n) = b at hdone ⊢
    have hend : g.textEnd = b.seg.length + b.tail.length := by
      rw [← List.length_append, ← hdone.text, view_length]
    have hroom := hdone.room
    have hcontrol : b.tail = [] ∨ b.seg = [] ∨ b.tail.all isPlain = false :=
      hdone.control.imp_right Or.inr
    rw [hdone.split, hdone.seen, seenIn]
    split
    · rename_i hno
      refine ⟨by simp only; omega, hdone.plain, hcontrol, ?_⟩
      rw [if_neg, hdone.text]
      rintro ⟨hlong, hbreak, htext⟩
      rcases hno with hshort | hno | hno
      · omega
      · exact Bool.false_ne_true (hno.symm.trans hbreak)
      · exact Bool.false_ne_true (hno.symm.trans htext)
    · rename_i hyes
      simp only [not_or, Nat.not_lt, Bool.not_eq_false] at hyes
      refine ⟨hroom, hdone.plain, hcontrol, ?_⟩
      rw [if_pos hyes, hend]
      exact view_insertMarks (hend ▸ hdone.text)

end Wrap

/-- **Paste wrapping** is lossless and exact, unless the read that ends a burst lends it the line
break or the text that the segment lacks. -/
theorem paste_exact_iff (s : Settings) (mem : Nat → UInt8) (cap n : Nat) (turns : List Turn)
    (hfit : n ≤ cap) :
    Exact (view (s.wrapConsolePaste mem cap n turns).1 0 (s.wrapConsolePaste mem cap n turns).2) cap
        (s.burst (view mem 0 n) cap turns) ↔
      ¬ (s.burst (view mem 0 n) cap turns).Misled := by
  obtain ⟨hcap, hplain, hcontrol, hout⟩ := @wrap_eq s mem cap n turns hfit
  generalize s.burst (view mem 0 n) cap turns = b at hplain hcontrol hout ⊢
  rw [hout]
  have hlength : (if 3 ≤ b.seg.length ∧ (b.seg ++ lead b.tail).any isBreak = true ∧
      (b.seg ++ lead b.tail).any isText = true then b.wrapped else b.seg ++ b.tail).length ≤ cap := by
    rw [← hout, view_length]
    exact hcap
  constructor
  · rintro ⟨-, -, -, -, hpaste⟩ ⟨hlong, hnot, hbreak, htext⟩
    rw [if_pos ⟨hlong, hbreak, htext⟩] at hpaste
    exact hnot (hpaste.mp rfl)
  · intro hled
    refine ⟨hlength, hplain, hcontrol, ?_, ?_⟩
    · split
      · exact Or.inr rfl
      · exact Or.inl rfl
    · split
      · rename_i hwrap
        refine iff_of_true rfl ?_
        by_contra hnot
        exact hled ⟨hwrap.1, hnot, hwrap.2⟩
      · rename_i hwrap
        refine iff_of_false (fun h => wrapped_ne b h.symm) fun hpaste => ?_
        exact hwrap ⟨hpaste.1, hpaste.append _⟩

/-- The console hands out this much at once. -/
def Turn.of (bytes : List UInt8) : Turn := ⟨1, fun room => bytes.take room, fun room => List.length_take_le room bytes⟩

def pasting : Settings := ⟨true, true⟩

/-- Memory that begins with these bytes. -/
def filled (bytes : List UInt8) : Nat → UInt8 := fun i => bytes.getD i 0

/-- A paste of two lines. -/
theorem paste_exact_lines :
    Exact (view (pasting.wrapConsolePaste (filled [0x61]) 64 1 [.of [0x0a], .of [0x62]]).1 0
        (pasting.wrapConsolePaste (filled [0x61]) 64 1 [.of [0x0a], .of [0x62]]).2) 64
      (pasting.burst (view (filled [0x61]) 0 1) 64 [.of [0x0a], .of [0x62]]) :=
  (paste_exact_iff pasting (filled [0x61]) 64 1 [.of [0x0a], .of [0x62]] (by decide)).mpr
    fun h => h.2.1 (by decide)

/-- Three letters, and a line break that comes with an arrow key: the letters are wrapped. -/
theorem typed_text_wrapped :
    view (pasting.wrapConsolePaste (filled [0x61]) 64 1 [.of [0x62], .of [0x63],
        .of [0x0a, 0x1b, 0x5b, 0x41]]).1 0 19 =
      openMark ++ [0x61, 0x62, 0x63] ++ closeMark ++ [0x0a, 0x1b, 0x5b, 0x41] ∧
    (pasting.wrapConsolePaste (filled [0x61]) 64 1 [.of [0x62], .of [0x63],
        .of [0x0a, 0x1b, 0x5b, 0x41]]).2 = 19 ∧
    ¬ (pasting.burst [0x61] 64 [.of [0x62], .of [0x63], .of [0x0a, 0x1b, 0x5b, 0x41]]).IsPaste := by
  decide

end ApeShim.Console
