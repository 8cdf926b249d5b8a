import ApeShim.Lib.Memory
import ApeShim.Lib.Unicode
import Mathlib.Tactic.Ring

/-!
The environment of another process (`gen_environ` of `shim/procfs/pid.c`): its block is read page by
page, and what a page edge splits is carried over to the next page.
-/

namespace ApeShim.EnvBlock
open Memory Unicode

/-! ## The conversion -/

/-- The bytes of one code point. -/
def putPoint (c : Nat) : List UInt8 :=
  if c < 0x80 then [UInt8.ofNat c]
  else if c < 0x800 then [UInt8.ofNat (0xc0 ||| c >>> 6), UInt8.ofNat (0x80 ||| c &&& 63)]
  else if c < 0x10000 then
    [UInt8.ofNat (0xe0 ||| c >>> 12), UInt8.ofNat (0x80 ||| c >>> 6 &&& 63),
      UInt8.ofNat (0x80 ||| c &&& 63)]
  else
    [UInt8.ofNat (0xf0 ||| c >>> 18), UInt8.ofNat (0x80 ||| c >>> 12 &&& 63),
      UInt8.ofNat (0x80 ||| c >>> 6 &&& 63), UInt8.ofNat (0x80 ||| c &&& 63)]

/-- `put_utf8` -/
def putUtf8 : List UInt16 → List UInt8
  | [] => []
  | [u] => putPoint u.toNat
  | u :: v :: rest =>
    if isHigh u ∧ isLow v then
      putPoint (0x10000 + (u.toNat - 0xd800) <<< 10 + (v.toNat - 0xdc00)) ++ putUtf8 rest
    else putPoint u.toNat ++ putUtf8 (v :: rest)

/-! ## The pages -/

/-- What the loop carries from page to page. -/
structure Scan where
  /-- the buffer -/
  out : List UInt8
  /-- a high surrogate that a page edge split; 0 for none -/
  carry : UInt16
  /-- at a string boundary -/
  bound : Bool
  done : Bool
  deriving DecidableEq, Repr

namespace Scan

def init : Scan := ⟨[], 0, true, false⟩

/-- The inner loop, on what is left of a page. -/
def strings (s : Scan) : List UInt16 → Scan
  | [] => s
  | u :: rest =>
    if u = 0 then
      if s.bound then { s with done := true }
      else strings { s with out := s.out ++ [0], bound := true } rest
    else
      let run := u :: rest.takeWhile (· ≠ 0)
      let last := run.getLast (List.cons_ne_nil _ _)
      let after := rest.dropWhile (· ≠ 0)
      if after = [] ∧ isHigh last then
        { s with out := s.out ++ putUtf8 run.dropLast, carry := last, bound := false }
      else strings { s with out := s.out ++ putUtf8 run, bound := false } after
  termination_by units => units.length
  decreasing_by
    · simp
    · exact Nat.lt_succ_of_le (List.dropWhile_suffix _).length_le

/-- One page. -/
def page (s : Scan) (units : List UInt16) : Scan :=
  if s.carry = 0 then s.strings units
  else
    match units with
    | u :: rest =>
      if isLow u then { s with out := s.out ++ putUtf8 [s.carry, u], carry := 0 }.strings rest
      else { s with out := s.out ++ putUtf8 [s.carry], carry := 0 }.strings (u :: rest)
    | [] => { s with out := s.out ++ putUtf8 [s.carry], carry := 0 }

/-- What is done behind the loop. -/
def finish (s : Scan) : List UInt8 :=
  let out := if s.carry = 0 then s.out else s.out ++ putUtf8 [s.carry]
  if s.done = false ∧ s.bound = false then out ++ [0] else out

end Scan

/-- The memory of the other process. -/
structure Block where
  /-- the units from `env` on -/
  units : Nat → UInt16
  /-- `EnvironmentSize`, if it can be read -/
  reported : Option Nat
  /-- whether the page read at this offset succeeds -/
  readable : Nat → Bool

namespace Block

def size (b : Block) : Nat :=
  match b.reported with
  | none => 2 ^ 20
  | some n => if 2 ^ 20 < n then 2 ^ 20 else n

def loop (b : Block) (off : Nat) (s : Scan) : Scan :=
  if s.done = false ∧ off < b.size then
    let want := min 4096 (b.size - off)
    if b.readable off = false then s
    else b.loop (off + want) (s.page (view b.units (off / 2) (want / 2)))
  else s
  termination_by b.size - off
  decreasing_by omega

/-- `gen_environ` for another process. -/
def genEnviron (b : Block) : List UInt8 := (b.loop 0 .init).finish

/-! ## What it is for -/

/-- The pages before the first one that cannot be read. -/
def pages (b : Block) : Nat :=
  ((List.range ((b.size + 4095) / 4096)).takeWhile fun i => b.readable (4096 * i)).length

/-- The block as far as it can be read. -/
def found (b : Block) : List UInt16 := view b.units 0 (min b.size (4096 * b.pages) / 2)

end Block

/-- Each string up to the first empty one, with a NUL behind it. -/
def textOf (strings : List (List UInt16)) : List UInt8 :=
  (strings.takeWhile (· ≠ [])).flatMap fun s => wtf8 s ++ [0]

/-- The whole block at once; the last string need not have a terminator. -/
def decode (units : List UInt16) : List UInt8 := textOf (units.splitOn 0)

/-! ## The bytes of one point -/

theorem or_of_lt {k : Nat} (a : Nat) {x : Nat} (h : x < 2 ^ k) : 2 ^ k * a ||| x = x + 2 ^ k * a := by
  rw [← Nat.two_pow_add_eq_or_of_lt h, Nat.add_comm]

theorem cont_eq (x : Nat) : 0x80 ||| x &&& 63 = x % 0x40 + 0x80 := by
  rw [show (63 : Nat) = 2 ^ 6 - 1 from rfl, Nat.and_two_pow_sub_one_eq_mod]
  exact @or_of_lt 6 2 _ (Nat.mod_lt _ (by decide))

theorem shift_eq (c k : Nat) : c >>> k = c / 2 ^ k := Nat.shiftRight_eq_div_pow c k

theorem lead2_eq {n : Nat} (h : n < 0x800) : 0xc0 ||| n >>> 6 = n / 64 % 0x20 + 0xc0 := by
  rw [shift_eq, Nat.mod_eq_of_lt (by omega)]
  exact @or_of_lt 5 6 _ (by omega)

theorem lead3_eq {n : Nat} (h : n < 0x10000) : 0xe0 ||| n >>> 12 = n / 4096 % 0x10 + 0xe0 := by
  rw [shift_eq, Nat.mod_eq_of_lt (by omega)]
  exact @or_of_lt 4 14 _ (by omega)

theorem lead4_eq {n : Nat} (h : n < 0x110000) : 0xf0 ||| n >>> 18 = n / 262144 % 0x08 + 0xf0 := by
  rw [shift_eq, Nat.mod_eq_of_lt (by omega)]
  exact @or_of_lt 3 30 _ (by omega)

theorem putPoint_eq {n : Nat} (h : n < 0x110000) : putPoint n = wtf8Point n := by
  have h6 : n >>> 6 = n / 64 := shift_eq n 6
  have h12 : n >>> 12 = n / 4096 := shift_eq n 12
  unfold putPoint wtf8Point
  simp only [cont_eq]
  by_cases hv : n.isValidChar
  · have hval : (Char.ofNat n).val.toNat = n := by
      rw [Char.ofNat, dif_pos hv]
      rfl
    rw [if_pos hv, String.utf8EncodeChar, hval]
    split_ifs <;> first | omega | skip
    · rfl
    · rw [lead2_eq (by omega)]
    · rw [lead3_eq (by omega), h6]
    · rw [lead4_eq h, h12, h6]
  · have hrange : 0xD800 ≤ n ∧ n < 0xE000 := by
      simp only [Nat.isValidChar] at hv
      omega
    have hlead : n / 4096 % 0x10 + 0xe0 = 0xED := by omega
    rw [if_neg hv, if_neg (by omega), if_neg (by omega), if_pos (by omega), lead3_eq (by omega),
      hlead, h6, Nat.add_comm, Nat.add_comm 0x80 (n % 64)]
    rfl

theorem toNat_lt_of_pair {u v : UInt16} (hu : isHigh u = true) (hv : isLow v = true) :
    0x10000 + (u.toNat - 0xD800) * 0x400 + (v.toNat - 0xDC00) < 0x110000 := by
  simp only [isHigh, isLow, Bool.and_eq_true, decide_eq_true_eq] at hu hv
  omega

/-- The conversion is UTF-8 with lone surrogates kept. -/
theorem putUtf8_eq (w : List UInt16) : putUtf8 w = wtf8 w := by
  have hunit : ∀ u : UInt16, putPoint u.toNat = wtf8Point u.toNat := by
    intro u
    have := u.toNat_lt
    exact putPoint_eq (by omega)
  fun_induction putUtf8 w with
  | case1 => rfl
  | case2 u => simp [wtf8, points, hunit]
  | case3 u v rest h ih =>
    have hshift : (u.toNat - 0xd800) <<< 10 = (u.toNat - 0xd800) * 0x400 := Nat.shiftLeft_eq _ 10
    rw [ih, hshift, putPoint_eq (toNat_lt_of_pair h.1 h.2), wtf8_pair h.1 h.2]
    simp [wtf8, points, h]
  | case4 u v rest h ih =>
    rw [ih, hunit, wtf8_lone h]
    simp [wtf8, points]

/-! ## Unit by unit -/

namespace Scan

variable {s : Scan} {u : UInt16} {units : List UInt16}

/-- What waits for its other half. -/
def pending (s : Scan) : List UInt16 := if s.carry = 0 then [] else [s.carry]

def flush (s : Scan) : Scan := { s with out := s.out ++ wtf8 s.pending, carry := 0 }

/-- One unit; here a high surrogate always waits for the next unit. -/
def unit (s : Scan) (u : UInt16) : Scan :=
  if s.done then s
  else if isHigh s.carry ∧ isLow u then { s with out := s.out ++ wtf8 [s.carry, u], carry := 0 }
  else if u = 0 then
    if s.bound then { s.flush with done := true }
    else { s.flush with out := s.flush.out ++ [0], bound := true }
  else if isHigh u then { s.flush with carry := u, bound := false }
  else { s.flush with out := s.flush.out ++ wtf8 [u], bound := false }

def scan (s : Scan) (units : List UInt16) : Scan := units.foldl unit s

/-- Only a high surrogate waits, and only inside a string. -/
structure Ok (s : Scan) : Prop where
  high : s.carry ≠ 0 → isHigh s.carry = true
  inside : s.carry ≠ 0 → s.bound = false

theorem scan_append (s : Scan) (u v : List UInt16) : s.scan (u ++ v) = (s.scan u).scan v :=
  List.foldl_append

theorem scan_cons (s : Scan) (u : UInt16) (units : List UInt16) :
    s.scan (u :: units) = (s.unit u).scan units := rfl

theorem pending_of_zero (h : s.carry = 0) : s.pending = [] := if_pos h

theorem flush_of_zero (h : s.carry = 0) : s.flush = s := by
  rw [flush, pending_of_zero h, wtf8_nil, List.append_nil, ← h]

theorem scan_done (h : s.done = true) : s.scan units = s := by
  induction units with
  | nil => rfl
  | cons u units ih => rw [scan_cons, unit, if_pos h, ih]

theorem Ok.unit (h : s.Ok) (u : UInt16) : (s.unit u).Ok := by
  unfold Scan.unit
  split_ifs with hd hp hu hb hh
  · exact h
  all_goals constructor <;> intro hc <;> first | exact absurd rfl hc | skip
  · exact hh
  · rfl

theorem Ok.scan (h : s.Ok) (units : List UInt16) : (s.scan units).Ok := by
  induction units generalizing s with
  | nil => exact h
  | cons u units ih => exact ih (h.unit u)

theorem isLow_zero : isLow 0 = false := rfl

@[simp] theorem flush_done : s.flush.done = s.done := rfl

@[simp] theorem flush_bound : s.flush.bound = s.bound := rfl

/-- A unit that ends no pair lets go what waits. -/
theorem unit_flush (hd : s.done = false) (h : ¬ (isHigh s.carry = true ∧ isLow u = true)) :
    s.flush.unit u = s.unit u := by
  have hff : s.flush.flush = s.flush := flush_of_zero rfl
  have hzero : isHigh s.flush.carry = false := rfl
  simp only [unit, hff, hd, hzero, h, flush_done, flush_bound, Bool.false_eq_true, false_and, if_false]

theorem wtf8_pending (h : ¬ (isHigh s.carry = true ∧ isLow u = true)) (rest : List UInt16) :
    wtf8 (s.pending ++ u :: rest) = wtf8 s.pending ++ wtf8 (u :: rest) := by
  unfold pending
  split
  · rfl
  · exact wtf8_lone h rest

theorem unit_inside (hd : s.done = false) (hu : u ≠ 0) (h : s.Ok) :
    (s.unit u).done = false ∧ (s.unit u).bound = false ∧
      (s.unit u).carry = if isHigh u then u else 0 := by
  unfold unit
  rw [if_neg (by simp [hd]), if_neg hu]
  split_ifs with hp hh hh
  · simp only [isHigh, isLow, Bool.and_eq_true, decide_eq_true_eq] at hp hh
    omega
  · refine ⟨hd, h.inside ?_, rfl⟩
    intro h0
    rw [h0] at hp
    exact absurd hp.1 (by decide)
  · exact ⟨hd, rfl, rfl⟩
  · exact ⟨hd, rfl, rfl⟩

/-- What was put out, with what waits and what comes, is always the same text. -/
theorem unit_text (hd : s.done = false) (hu : u ≠ 0) (rest : List UInt16) :
    (s.unit u).out ++ wtf8 ((s.unit u).pending ++ rest) =
      s.out ++ wtf8 (s.pending ++ u :: rest) := by
  unfold unit
  rw [if_neg (by simp [hd]), if_neg hu]
  split_ifs with hp hh
  · have hc : s.carry ≠ 0 := by
      intro h0
      rw [h0] at hp
      exact absurd hp.1 (by decide)
    rw [pending_of_zero rfl, pending, if_neg hc, List.nil_append, List.append_assoc]
    exact congrArg _ (wtf8_pair hp.1 hp.2 rest).symm
  · rw [wtf8_pending hp, ← List.append_assoc]
    have hpend : pending { s.flush with carry := u, bound := false } = [u] := if_neg hu
    rw [hpend]
    rfl
  · rw [wtf8_pending hp, wtf8_unit (by simpa using hh) rest]
    have hpend : pending { s.flush with out := s.flush.out ++ wtf8 [u], bound := false } = [] :=
      if_pos rfl
    rw [hpend, List.nil_append, ← List.append_assoc, ← List.append_assoc]
    rfl

/-- The text of one string is converted as if it had come at once. -/
theorem flush_scan (h : s.Ok) (hd : s.done = false) (hnz : 0 ∉ units) :
    (s.scan units).flush = { s with
      out := s.out ++ wtf8 (s.pending ++ units), carry := 0
      bound := if units = [] then s.bound else false } := by
  induction units generalizing s with
  | nil =>
    rw [List.append_nil]
    rfl
  | cons u units ih =>
    obtain ⟨hu, hrest⟩ := List.ne_and_not_mem_of_not_mem_cons hnz
    obtain ⟨hd', hb', -⟩ := unit_inside hd hu.symm h
    rw [scan_cons, ih (h.unit u) hd' hrest, unit_text hd hu.symm, hb', hd', hd, ite_self,
      if_neg (List.cons_ne_nil _ _)]

/-- Behind a string only its last unit can wait. -/
theorem carry_scan (h : s.Ok) (hd : s.done = false) {last : UInt16} (hnz : 0 ∉ units)
    (hl : last ≠ 0) : (s.scan (units ++ [last])).carry = if isHigh last then last else 0 := by
  induction units generalizing s with
  | nil => exact (unit_inside hd hl h).2.2
  | cons u units ih =>
    obtain ⟨hu, hrest⟩ := List.ne_and_not_mem_of_not_mem_cons hnz
    exact ih (h.unit u) (unit_inside hd hu.symm h).1 hrest

theorem ok_of_zero (h : s.carry = 0) : s.Ok := ⟨fun hc => absurd h hc, fun hc => absurd h hc⟩

theorem unit_high (hd : s.done = false) (hu : isHigh u = true) :
    s.unit u = { s.flush with carry := u, bound := false } := by
  have hlow : isLow u = false := by
    simp only [isHigh, isLow, Bool.and_eq_true, decide_eq_true_eq, Bool.and_eq_false_iff,
      decide_eq_false_iff_not] at hu ⊢
    omega
  have hz : u ≠ 0 := by
    rintro rfl
    cases hu
  rw [unit, if_neg (by simp [hd]), if_neg (by simp [hlow]), if_neg hz, if_pos hu]

/-- A string that the end of the page may have cut. -/
theorem scan_cut (hc : s.carry = 0) (hd : s.done = false) {init : List UInt16} {last : UInt16}
    (hnz : 0 ∉ init) (hl : isHigh last = true) : s.scan (init ++ [last]) =
      { s with out := s.out ++ putUtf8 init, carry := last, bound := false } := by
  have hflush := flush_scan (ok_of_zero hc) hd hnz
  have hd' : (s.scan init).done = false := by
    rw [← flush_done, hflush]
    exact hd
  rw [scan_append, scan_cons, unit_high hd' hl, hflush, pending_of_zero hc, putUtf8_eq]
  rfl

/-- A whole string. -/
theorem scan_string (hc : s.carry = 0) (hd : s.done = false) {run after : List UInt16}
    (hnz : 0 ∉ run) (hne : run ≠ []) (hnext : after = [] → isHigh (run.getLast hne) = false)
    (hnul : ∀ v ∈ after.head?, v = 0) : s.scan (run ++ after) =
      scan { s with out := s.out ++ putUtf8 run, bound := false } after := by
  have hflush := flush_scan (ok_of_zero hc) hd hnz
  rw [pending_of_zero hc, if_neg hne, List.nil_append, ← putUtf8_eq, ← hc] at hflush
  have hd' : (s.scan run).done = false := by
    rw [← flush_done, hflush]
    exact hd
  rw [scan_append, ← hflush]
  cases after with
  | nil =>
    have hcarry := @carry_scan s run.dropLast (ok_of_zero hc) hd (run.getLast hne)
      (fun hm => hnz (List.mem_of_mem_dropLast hm)) (fun h0 => hnz (h0 ▸ List.getLast_mem hne))
    rw [List.dropLast_append_getLast, hnext rfl] at hcarry
    rw [flush_of_zero hcarry]
  | cons v after =>
    rw [hnul v rfl, scan_cons, scan_cons, unit_flush hd' (by simp [isLow_zero])]

theorem zero_notMem_run {rest : List UInt16} (hu : u ≠ 0) : 0 ∉ u :: rest.takeWhile (· ≠ 0) := by
  intro hm
  rcases List.mem_cons.mp hm with h | h
  · exact hu h.symm
  · simpa using List.all_eq_true.mp (List.all_takeWhile (l := rest)) 0 h

/-- The inner loop is the same as going unit by unit. -/
theorem strings_eq (hc : s.carry = 0) (hd : s.done = false) : s.strings units = s.scan units := by
  fun_induction strings s units with
  | case1 s => rfl
  | case2 s rest hb =>
    have hunit : s.unit 0 = { s with done := true } := by
      rw [unit, if_neg (by simp [hd]), if_neg (by simp [isLow_zero]), if_pos rfl, if_pos hb,
        flush_of_zero hc]
    rw [scan_cons, hunit, scan_done rfl]
  | case3 s rest hb ih =>
    have hunit : s.unit 0 = { s with out := s.out ++ [0], bound := true } := by
      rw [unit, if_neg (by simp [hd]), if_neg (by simp [isLow_zero]), if_pos rfl, if_neg hb,
        flush_of_zero hc]
    rw [scan_cons, hunit]
    exact ih hc hd
  | case4 s u rest hu run last after hlast =>
    have hnz : 0 ∉ run := zero_notMem_run hu
    have hrun : u :: rest = run.dropLast ++ [last] := by
      rw [List.dropLast_append_getLast, ← List.append_nil run, ← hlast.1]
      exact congrArg _ (List.takeWhile_append_dropWhile).symm
    rw [hrun, scan_cut hc hd (fun hm => hnz (List.mem_of_mem_dropLast hm)) hlast.2]
  | case5 s u rest hu run last after hlast ih =>
    have hnz : 0 ∉ run := zero_notMem_run hu
    have hrun : u :: rest = run ++ after :=
      congrArg (u :: ·) (List.takeWhile_append_dropWhile).symm
    rw [ih hc hd, hrun, scan_string hc hd hnz (List.cons_ne_nil _ _)]
    · intro hnil
      by_contra hh
      exact hlast ⟨hnil, by simpa using hh⟩
    · intro v hv
      have hnot := List.head?_dropWhile_not (fun x : UInt16 => decide (x ≠ 0)) rest
      rw [Option.mem_def.mp hv] at hnot
      simpa using hnot

/-! ### Pages -/

theorem page_nil (s : Scan) : s.page [] = s.flush := by
  unfold page
  split
  · rename_i hc
    rw [flush_of_zero hc, strings]
  · rename_i hc
    rw [flush, pending, if_neg hc, putUtf8_eq]

theorem page_eq (h : s.Ok) (hd : s.done = false) (hne : units ≠ []) : s.page units = s.scan units := by
  unfold page
  split
  · rename_i hc
    exact strings_eq hc hd
  · rename_i hc
    obtain ⟨u, rest, rfl⟩ := List.exists_cons_of_ne_nil hne
    dsimp only
    split
    · rename_i hlow
      rw [strings_eq (by rfl) (by exact hd), scan_cons, unit, if_neg (by simp [hd]), if_pos ⟨h.high hc, hlow⟩,
        putUtf8_eq]
    · rename_i hlow
      rw [strings_eq (by rfl) (by exact hd), scan_cons, scan_cons, ← unit_flush hd (fun hp => hlow hp.2), flush,
        pending, if_neg hc, putUtf8_eq]

theorem finish_eq (s : Scan) : s.finish =
    s.out ++ wtf8 s.pending ++ if s.done = false ∧ s.bound = false then [0] else [] := by
  unfold finish pending
  split_ifs <;> simp [putUtf8_eq]

theorem finish_flush (s : Scan) : s.flush.finish = s.finish := by
  rw [finish_eq, finish_eq, pending_of_zero rfl, wtf8_nil, List.append_nil]
  rfl

theorem finish_page (h : s.Ok) (hd : s.done = false) (units : List UInt16) :
    (s.page units).finish = (s.scan units).finish := by
  cases units with
  | nil => rw [page_nil, finish_flush]; rfl
  | cons u rest => rw [page_eq h hd (List.cons_ne_nil _ _)]

/-! ### The text -/

/-- What is still to be put out behind a state, when these strings follow. -/
def remains (s : Scan) : List (List UInt16) → List UInt8
  | [] => []
  | head :: tail =>
    if s.bound then textOf (head :: tail) else wtf8 (s.pending ++ head) ++ [0] ++ textOf tail

theorem textOf_cons {head : List UInt16} (h : head ≠ []) (tail : List (List UInt16)) :
    textOf (head :: tail) = wtf8 head ++ [0] ++ textOf tail := by
  rw [textOf, List.takeWhile_cons_of_pos (by simpa using h)]
  rfl

theorem textOf_nil_cons (tail : List (List UInt16)) : textOf ([] :: tail) = [] := by
  rw [textOf, List.takeWhile_cons_of_neg (by simp)]
  rfl

theorem Ok.pending (h : s.Ok) (hb : s.bound = true) : s.pending = [] := by
  refine pending_of_zero ?_
  by_contra hc
  rw [h.inside hc] at hb
  cases hb

theorem remains_inside (hb : s.bound = false) (head : List UInt16) (tail : List (List UInt16)) :
    s.remains (head :: tail) = wtf8 (s.pending ++ head) ++ [0] ++ textOf tail := by
  rw [remains, if_neg (by simp [hb])]

theorem splitOn_zero (units : List UInt16) :
    (0 :: units).splitOn 0 = [] :: units.splitOn (0 : UInt16) := by
  rw [List.splitOn_cons_eq_if_modifyHead, if_pos (beq_self_eq_true 0)]

theorem splitOn_unit (hu : u ≠ 0) (units : List UInt16) :
    (u :: units).splitOn 0 = (units.splitOn 0).modifyHead (u :: ·) := by
  rw [List.splitOn_cons_eq_if_modifyHead, if_neg (by simpa using hu)]

/-- Going unit by unit gives the text of the strings. -/
theorem finish_scan (h : s.Ok) (hd : s.done = false) :
    (s.scan units).finish = s.out ++ s.remains (units.splitOn 0) := by
  induction units generalizing s with
  | nil =>
    have hsplit : ([] : List UInt16).splitOn 0 = [[]] := rfl
    rw [hsplit, scan, List.foldl_nil, finish_eq, remains, List.append_nil, hd]
    cases hb : s.bound with
    | true => simp [h.pending hb, textOf_nil_cons]
    | false => simp [textOf]
  | cons u units ih =>
    obtain ⟨head, tail, hsplit⟩ := List.exists_cons_of_ne_nil (List.splitOn_ne_nil 0 units)
    rw [scan_cons]
    by_cases hu : u = 0
    · subst hu
      rw [splitOn_zero]
      cases hb : s.bound with
      | true =>
        -- the empty string ends the block
        have hunit : s.unit 0 = { s.flush with done := true } := by
          rw [unit, if_neg (by simp [hd]), if_neg (by simp [isLow_zero]), if_pos rfl, if_pos hb]
        rw [hunit, scan_done (by rfl), finish_eq, pending_of_zero (by rfl), remains, if_pos hb,
          textOf_nil_cons]
        simp [flush, h.pending hb]
      | false =>
        have hunit : s.unit 0 = { s.flush with out := s.flush.out ++ [0], bound := true } := by
          rw [unit, if_neg (by simp [hd]), if_neg (by simp [isLow_zero]), if_pos rfl,
            if_neg (by simp [hb])]
        rw [hunit, ih (ok_of_zero (by rfl)) (by exact hd), hsplit, remains_inside hb, remains, if_pos rfl,
          List.append_nil]
        simp only [flush, List.append_assoc]
    · obtain ⟨hd', hb', -⟩ := unit_inside hd hu h
      rw [ih (h.unit u) hd', splitOn_unit hu, hsplit, remains_inside hb', ← List.append_assoc,
        ← List.append_assoc, unit_text hd hu, List.modifyHead_cons]
      cases hb : s.bound with
      | true =>
        rw [remains, if_pos hb, textOf_cons (List.cons_ne_nil _ _), h.pending hb]
        simp only [List.nil_append, List.append_assoc]
      | false =>
        rw [remains_inside hb]
        simp only [List.append_assoc]

end Scan

/-! ## The loop over the pages -/

namespace Block

variable {b : Block} {s : Scan}

/-- The units of one page. -/
def chunk (b : Block) (i : Nat) : List UInt16 :=
  view b.units (2048 * i) (min 4096 (b.size - 4096 * i) / 2)

theorem loop_of_le {off : Nat} (h : b.size ≤ off) : b.loop off s = s := by
  rw [loop, if_neg (by omega)]

theorem loop_of_done {off : Nat} (h : s.done = true) : b.loop off s = s := by
  rw [loop, if_neg (by simp [h])]

/-- From page `j` on, with `m` pages to go. -/
theorem finish_loop {m j : Nat} (hs : s.Ok) (hj : j + m = (b.size + 4095) / 4096) :
    (b.loop (4096 * j) s).finish =
      (s.scan (((List.range' j m).takeWhile fun i => b.readable (4096 * i)).flatMap b.chunk)).finish := by
  induction m generalizing j s with
  | zero => rw [loop_of_le (by omega)]; rfl
  | succ m ih =>
    cases hd : s.done with
    | true => rw [loop_of_done hd, Scan.scan_done hd]
    | false =>
      have hoff : 4096 * j < b.size := by omega
      have hhalf : 4096 * j / 2 = 2048 * j := by omega
      rw [loop, if_pos ⟨hd, hoff⟩, List.range'_succ, hhalf]
      cases hr : b.readable (4096 * j) with
      | false =>
        rw [if_pos rfl, List.takeWhile_cons_of_neg (by simp [hr])]
        rfl
      | true =>
        rw [if_neg (by simp), List.takeWhile_cons_of_pos (by exact hr), List.flatMap_cons,
          Scan.scan_append]
        by_cases hlast : m = 0
        · subst hlast
          rw [loop_of_le (by omega)]
          exact Scan.finish_page hs hd _
        · have hwant : min 4096 (b.size - 4096 * j) = 4096 := by omega
          have hne : b.chunk j ≠ [] := by
            rw [chunk, hwant]
            exact List.ne_nil_of_length_eq_add_one (view_length (n := 2048))
          have hpage := Scan.page_eq hs hd hne
          rw [chunk] at hpage
          rw [hpage, ← chunk, hwant, ← ih (hs.scan _) (by omega)]
          rfl

theorem pages_le : b.pages ≤ (b.size + 4095) / 4096 := by
  have h := (List.takeWhile_prefix (fun i => b.readable (4096 * i))
    (l := List.range ((b.size + 4095) / 4096))).length_le
  rwa [List.length_range] at h

/-- Pages that follow one another make up one stretch. -/
theorem chunks_eq {k : Nat} (h : k ≤ (b.size + 4095) / 4096) :
    (List.range k).flatMap b.chunk = view b.units 0 (min b.size (4096 * k) / 2) := by
  induction k with
  | zero => simp
  | succ k ih =>
    have hbefore : min b.size (4096 * k) / 2 = 2048 * k := by omega
    have hafter : min b.size (4096 * (k + 1)) / 2 = 2048 * k + min 4096 (b.size - 4096 * k) / 2 := by
      omega
    rw [List.range_succ, List.flatMap_append, List.flatMap_singleton, ih (by omega), hbefore, hafter,
      view_add, Nat.zero_add]
    rfl

theorem found_eq (b : Block) : b.found =
    ((List.range ((b.size + 4095) / 4096)).takeWhile fun i => b.readable (4096 * i)).flatMap
      b.chunk := by
  have hpre := List.takeWhile_prefix (fun i => b.readable (4096 * i))
    (l := List.range ((b.size + 4095) / 4096))
  have htake := List.prefix_iff_eq_take.mp hpre
  rw [htake, List.take_range, ← pages, Nat.min_eq_left pages_le, chunks_eq pages_le]
  rfl

end Block

/-- **The environment does not depend on the pages.** It is the text of the whole block, as far as
that can be read. -/
theorem environ_eq (b : Block) : b.genEnviron = decode b.found := by
  have hok : Scan.init.Ok := Scan.ok_of_zero rfl
  have hloop := Block.finish_loop (b := b) (m := (b.size + 4095) / 4096) (j := 0) hok (Nat.zero_add _)
  rw [Block.genEnviron, hloop, ← List.range_eq_range', ← Block.found_eq, Scan.finish_scan hok rfl]
  obtain ⟨head, tail, hsplit⟩ := List.exists_cons_of_ne_nil (List.splitOn_ne_nil 0 b.found)
  rw [decode, hsplit]
  rfl

end ApeShim.EnvBlock
