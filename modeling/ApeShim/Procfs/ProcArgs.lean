import ApeShim.Lib.Bytes
import ApeShim.Lib.CString
import Mathlib.Data.List.DropRight

/-!
The KERN_PROCARGS2 block of another process (`shim/procfs/xnu.c`, `shim/procfs/xnuapi.c`): argc, the
path that was executed, padding, and then the arguments and the environment without any mark between
them. Three loops walk it: `gen_cmdline`, `gen_environ` and the one that finds the program behind
the loader. A read past the block has no result.
-/

namespace ApeShim.ProcArgs
open Bytes CString

/-! ## The loader -/

/-- The file names `.ape-*` and `ape`. -/
def apeName (b : List UInt8) : Bool :=
  b.take 5 = [0x2e, 0x61, 0x70, 0x65, 0x2d] || b = [0x61, 0x70, 0x65]

/-- `pfs_xnu_is_loader` -/
def isLoader (path : List UInt8) : Option Bool := do
  let b ← strrchr 0x2f path
  let b := b.elim path List.tail
  return apeName (text b)

/-- The same of a whole string. -/
def namesLoader (s : List UInt8) : Bool := (isLoader (s ++ [0])).getD false

/-! ## The three walks -/

/-- The first four bytes, an `int`. -/
def argcOf (block : List UInt8) : Int := Int.bmod (word 4 block 0) (2 ^ 32)

/-- Past the executed path and the padding. -/
def startOf (block : List UInt8) : List UInt8 :=
  ((block.drop 4).dropWhile (· ≠ 0)).dropWhile (· = 0)

/-- `skip` at the `i`th string: a dash that comes right behind what is skipped is skipped too. -/
def skipAt (skip i : Nat) (s : List UInt8) : Nat :=
  if skip ≠ 0 ∧ i = skip ∧ s = [0x2d] then skip + 1 else skip

/-- The loop of `gen_cmdline` from the `i`th string on, with `left` strings to go. -/
def argLoop (skip i : Nat) : Nat → List UInt8 → List UInt8
  | 0, _ => []
  | left + 1, p =>
    if p = [] then []
    else
      let s := text p
      let skip := skipAt skip i s
      (if skip ≤ i then s ++ [0] else []) ++ argLoop skip (i + 1) left (next p)

/-- `gen_cmdline` of another process; `image` is what `proc_pidpath` reports, empty if nothing. -/
def genCmdline (image block : List UInt8) : Option (List UInt8) :=
  if block.length ≤ 4 then some []
  else
    let argc := argcOf block
    let p := startOf block
    let path := image.take 1023
    if path ≠ [] ∧ namesLoader path ∧ 1 < argc ∧ p ≠ [] then
      (isLoader p).map fun l => argLoop (if l then 1 else 0) 0 argc.toNat p
    else some (argLoop 0 0 argc.toNat p)

/-- Past so many strings. -/
def pastArgs : Nat → List UInt8 → List UInt8
  | 0, p => p
  | left + 1, p => if p = [] then p else pastArgs left (next p)

/-- The last loop of `gen_environ`. -/
def envLoop (p : List UInt8) : List UInt8 :=
  match p with
  | [] => []
  | c :: s => if c = 0 then [] else text (c :: s) ++ 0 :: envLoop (next (c :: s))
  termination_by p.length
  decreasing_by
    simp only [next, List.length_drop, List.length_cons]
    omega

/-- `gen_environ` of another process. Each of its reads is guarded by the end of the block. -/
def genEnviron (block : List UInt8) : List UInt8 :=
  if block.length ≤ 4 then []
  else envLoop ((pastArgs (argcOf block).toNat (startOf block)).dropWhile (· = 0))

/-- The pointers that the loop over `argv` stores. -/
def pointers : Nat → List UInt8 → List (List UInt8)
  | 0, _ => []
  | left + 1, p => if p = [] then [] else p :: pointers left (next p)

/-- The candidate behind the loader. -/
def candidate (argc : Int) (argv : List (List UInt8)) : Option (Option (List UInt8)) := do
  let named ← (argv[0]?).elim (some true) isLoader
  if 0 < argc ∧ named = false then return argv[0]?
  let cand := if 1 < argc then argv[1]? else none
  let dash ← cand.elim (some false) fun c => strcmp c [0x2d]
  if dash then return if 2 < argc then argv[2]? else none
  return cand

/-- What is kept of the candidate, in a buffer of 512 bytes. -/
def copied : Option (List UInt8) → Option (Option (List UInt8))
  | none => some none
  | some cand =>
    if cand.head? = some 0 then some none
    else (strlen cand).map fun n => some ((cand.take n).take 511)

/-- What `pfs_xnu_ape_program` resolves, into room for 511 bytes; nothing for -1. -/
def apeProgram (image block : List UInt8) : Option (Option (List UInt8)) :=
  if image = [] ∨ namesLoader (image.take 4095) = false ∨ block.length ≤ 4 then some none
  else
    let argc := argcOf block
    (candidate argc (pointers (min argc.toNat 3) (startOf block))).bind copied

/-! ## What they are for -/

/-- A process as the kernel lays it out. -/
structure Layout where
  /-- what `proc_pidpath` reports of it, into a buffer of 4096 bytes -/
  image : List UInt8
  image_lt : image.length < 4096
  exec : List UInt8
  exec_clean : 0 ∉ exec
  /-- the bytes of padding behind the NUL of the executed path -/
  pad : Nat
  argv : List (List UInt8)
  argv_clean : ∀ s ∈ argv, 0 ∉ s
  argc_lt : argv.length < 2 ^ 31
  env : List (List UInt8)
  env_clean : ∀ s ∈ env, 0 ∉ s

namespace Layout

def block (l : Layout) : List UInt8 :=
  le 4 l.argv.length ++ (l.exec ++ 0 :: (List.replicate l.pad 0 ++ joined (l.argv ++ l.env)))

/-- It runs under the loader, and its first argument says so too. The loader by itself runs no
program. -/
def Disguised (l : Layout) : Prop :=
  namesLoader l.image = true ∧ 1 < l.argv.length ∧ ∃ a ∈ l.argv.head?, namesLoader a = true

instance (l : Layout) : Decidable l.Disguised := inferInstanceAs (Decidable (_ ∧ _ ∧ _))

/-- The arguments of the program. -/
def shown (l : Layout) : List (List UInt8) :=
  if l.Disguised then if l.argv.tail.head? = some [0x2d] then l.argv.tail.tail else l.argv.tail
  else l.argv

/-- The three walks find what was laid out. -/
structure Decodes (l : Layout) : Prop where
  cmdline : genCmdline l.image l.block = some (joined l.shown)
  environ : genEnviron l.block = joined (l.env.takeWhile (· ≠ []))
  program : ∀ prog, apeProgram l.image l.block = some (some prog) →
    ∃ first ∈ l.shown.head?, prog = first.take 511

/-- The first argument is not empty; behind the loader there are not two dashes; the first 1023
bytes of a longer path tell as well whether it is the loader's; and the environment does not
begin with an empty string, unless it has nothing else. -/
structure Plain (l : Layout) : Prop where
  first : l.argv.head? ≠ some []
  dashes : l.Disguised → l.argv.tail.take 2 ≠ [[0x2d], [0x2d]]
  path : 1 < l.argv.length → (∃ a ∈ l.argv.head?, namesLoader a = true) →
    namesLoader (l.image.take 1023) = namesLoader l.image
  env : l.env.head? = some [] → ∀ s ∈ l.env, s = []

end Layout

/-- The strings that are compared or copied as C strings have their NUL in the block: under the
loader the first argument, if that names the loader the second, and if that is a dash the third. -/
structure Closed (image block : List UInt8) : Prop where
  cmdline : namesLoader (image.take 1023) = true → 1 < argcOf block → startOf block ≠ [] →
    0 ∈ startOf block
  first : namesLoader (image.take 4095) = true → 0 < argcOf block → startOf block ≠ [] →
    0 ∈ startOf block
  second : namesLoader (image.take 4095) = true → 1 < argcOf block →
    namesLoader (text (startOf block)) = true → next (startOf block) ≠ [] → 0 ∈ next (startOf block)
  third : namesLoader (image.take 4095) = true → 2 < argcOf block →
    namesLoader (text (startOf block)) = true → text (next (startOf block)) = [0x2d] →
    next (next (startOf block)) ≠ [] → 0 ∈ next (next (startOf block))

/-! ## The loader's name -/

variable {s t p : List UInt8} {ss : List (List UInt8)}

theorem text_string (h : 0 ∉ s) (t : List UInt8) : text (s ++ 0 :: t) = s := by
  rw [text_append h]
  exact List.append_nil s

theorem isLoader_append (h : 0 ∉ s) (t : List UInt8) :
    isLoader (s ++ 0 :: t) = some (apeName ((lastFrom 0x2f s).elim s List.tail)) := by
  rw [isLoader, strrchr_append h]
  cases hl : lastFrom 0x2f s with
  | none => simp [text_string h]
  | some r =>
    obtain ⟨hne, hsuf⟩ := lastFrom_suffix hl
    have hr : 0 ∉ r.tail := fun h0 => h (hsuf.mem (List.mem_of_mem_tail h0))
    simp [List.tail_append_of_ne_nil hne, text_string hr]

theorem isLoader_string (h : 0 ∉ s) (t : List UInt8) : isLoader (s ++ 0 :: t) = some (namesLoader s) := by
  rw [namesLoader, isLoader_append h, isLoader_append h, Option.getD_some]

theorem isLoader_none (h : 0 ∉ p) : isLoader p = none := by
  rw [isLoader, strrchr_none h]
  rfl

theorem isLoader_text (h : 0 ∈ p) : isLoader p = some (namesLoader (text p)) := by
  obtain ⟨t, ht⟩ := exists_text h
  conv_lhs => rw [ht]
  exact isLoader_string (zero_notMem_text p) t

theorem namesLoader_nil : namesLoader [] = false := rfl

/-! ## Any block -/

theorem genCmdline_defined (image block : List UInt8) : genCmdline image block ≠ none ↔
    (namesLoader (image.take 1023) = true → 1 < argcOf block → startOf block ≠ [] →
      0 ∈ startOf block) := by
  unfold genCmdline
  dsimp only
  split
  · rename_i hshort
    have hstart : startOf block = [] := by
      rw [startOf, List.drop_eq_nil_of_le hshort]
      rfl
    simp [hstart]
  · split
    · rename_i hcond
      obtain ⟨-, himage, hargc, hp⟩ := hcond
      rw [ne_eq, Option.map_eq_none_iff]
      constructor
      · intro hsome _ _ _
        by_contra h0
        exact hsome (isLoader_none h0)
      · intro h hnone
        rw [isLoader_text (h himage hargc hp)] at hnone
        cases hnone
    · rename_i hcond
      refine iff_of_true (by simp) fun himage hargc hp => absurd ⟨?_, himage, hargc, hp⟩ hcond
      rintro hnil
      rw [hnil, namesLoader_nil] at himage
      cases himage

theorem copied_defined (hp : p ≠ []) : copied (some p) ≠ none ↔ 0 ∈ p := by
  obtain ⟨c, q, rfl⟩ := List.exists_cons_of_ne_nil hp
  rw [copied]
  split
  · rename_i hc
    refine iff_of_true (by simp) ?_
    rw [List.head?_cons, Option.some.injEq] at hc
    simp [hc]
  · rw [ne_eq, Option.map_eq_none_iff]
    constructor
    · intro hsome
      by_contra h0
      exact hsome (strlen_none h0)
    · intro h0 hnone
      obtain ⟨t, ht⟩ := exists_text h0
      rw [ht, strlen_append (zero_notMem_text _)] at hnone
      cases hnone

theorem copied_string (h : 0 ∉ s) (hne : s ≠ []) (t : List UInt8) :
    copied (some (s ++ 0 :: t)) = some (some (s.take 511)) := by
  obtain ⟨c, q, rfl⟩ := List.exists_cons_of_ne_nil hne
  have hc : c ≠ 0 := (List.ne_and_not_mem_of_not_mem_cons h).1.symm
  have hlen : strlen (c :: q ++ 0 :: t) = some (c :: q).length := strlen_append h
  rw [copied, if_neg (by simpa using hc), hlen, Option.map_some, List.take_left]

/-- A string without its NUL is no dash, and the comparison may go past it. -/
theorem strcmp_dash (h : 0 ∉ p) : strcmp p [0x2d] ≠ some true := by
  cases p with
  | nil => simp [strcmp]
  | cons c p =>
    obtain ⟨-, hp⟩ := List.ne_and_not_mem_of_not_mem_cons h
    cases p with
    | nil => by_cases hc : c = 0x2d <;> simp [strcmp, hc]
    | cons d p =>
      have hd : d ≠ 0 := (List.ne_and_not_mem_of_not_mem_cons hp).1.symm
      by_cases hc : c = 0x2d <;> simp [strcmp, hc, hd]

theorem strcmp_text (h : 0 ∈ p) : strcmp p [0x2d] = some (decide (text p = [0x2d])) := by
  obtain ⟨t, ht⟩ := exists_text h
  conv_lhs => rw [ht]
  exact strcmp_append (zero_notMem_text p) (by decide) t

theorem pointers_cons (hp : p ≠ []) (n : Nat) :
    pointers (n + 1) p = p :: pointers n (next p) := if_neg hp

theorem candidate_none (argc : Int) : candidate argc [] = some none := by
  simp [candidate]

theorem candidate_unended {argc : Int} (h : 0 ∉ p) (ps : List (List UInt8)) :
    candidate argc (p :: ps) = none := by
  simp [candidate, isLoader_none h]

theorem candidate_self {argc : Int} (hargc : 0 < argc) (h : 0 ∈ p)
    (hn : namesLoader (text p) = false) (ps : List (List UInt8)) :
    candidate argc (p :: ps) = some (some p) := by
  simp [candidate, isLoader_text h, hn, hargc]

/-- Behind the loader stands the program, or a dash and then the program. -/
theorem candidate_loader {argc : Int} (h : 0 ∈ p) (hn : namesLoader (text p) = true)
    (ps : List (List UInt8)) : candidate argc (p :: ps) =
      ((if 1 < argc then ps[0]? else none).elim (some false) fun c => strcmp c [0x2d]).bind
        fun dash => some (if dash then (if 2 < argc then ps[1]? else none)
          else if 1 < argc then ps[0]? else none) := by
  rw [candidate]
  simp only [List.getElem?_cons_zero, Option.elim_some, isLoader_text h, Option.bind_eq_bind,
    Option.bind_some, List.getElem?_cons_succ, hn, Bool.true_eq_false, and_false, ↓reduceIte]
  congr 1
  funext dash
  cases dash <;> rfl

theorem next_nil : next [] = [] := rfl

theorem pointers_head {argc : Int} {m : Nat} (hm : (m : Int) < argc ∧ m < 3) (q : List UInt8) :
    (pointers (min argc.toNat 3 - m) q)[0]? = if q = [] then none else some q := by
  obtain ⟨n, hn⟩ : ∃ n, min argc.toNat 3 - m = n + 1 := ⟨min argc.toNat 3 - m - 1, by omega⟩
  rw [hn, pointers]
  split <;> rfl

theorem pointers_second {argc : Int} (h : 2 < argc) {q : List UInt8} (hq : q ≠ []) :
    (pointers (min argc.toNat 3 - 1) q)[1]? = if next q = [] then none else some (next q) := by
  obtain ⟨n, hn⟩ : ∃ n, min argc.toNat 3 - 1 = n + 1 := ⟨min argc.toNat 3 - 2, by omega⟩
  rw [hn, pointers_cons hq, List.getElem?_cons_succ, show n = min argc.toNat 3 - 2 by omega]
  exact pointers_head (by omega) _

/-- The candidate behind the loader. -/
theorem behind_defined {argc : Int} (h0 : 0 ∈ p)
    (hl : namesLoader (text p) = true) :
    (candidate argc (p :: pointers (min argc.toNat 3 - 1) (next p))).bind copied ≠ none ↔
      (1 < argc → next p ≠ [] → 0 ∈ next p ∧ (text (next p) = [0x2d] → 2 < argc →
        next (next p) ≠ [] → 0 ∈ next (next p))) := by
  rw [candidate_loader h0 hl]
  generalize next p = q
  by_cases h1 : 1 < argc
  swap
  · simp [h1, copied]
  rw [if_pos h1, pointers_head (by omega)]
  by_cases hq : q = []
  · simp [hq, copied]
  simp only [hq, h1, if_false, Option.elim_some, ne_eq, not_false_eq_true, forall_const]
  by_cases hq0 : 0 ∈ q
  swap
  · refine iff_of_false ?_ fun h => hq0 h.1
    cases hs : strcmp q [0x2d] with
    | none => simp
    | some dash =>
      cases dash with
      | true => exact absurd hs (strcmp_dash hq0)
      | false => simpa using mt (copied_defined hq).mp hq0
  rw [strcmp_text hq0]
  by_cases hdash : text q = [0x2d]
  swap
  · simpa [hq0, hdash] using (copied_defined hq).mpr hq0
  by_cases h2 : 2 < argc
  swap
  · simp [hq0, h2, hdash, copied]
  rw [pointers_second h2 hq]
  by_cases hr : next q = []
  · simp [hq0, h2, hdash, hr, copied]
  · simpa [hq0, h2, hdash, hr] using copied_defined hr

theorem apeProgram_defined (image block : List UInt8) : apeProgram image block ≠ none ↔
    (namesLoader (image.take 4095) = true → 0 < argcOf block → startOf block ≠ [] →
      0 ∈ startOf block ∧ (namesLoader (text (startOf block)) = true → 1 < argcOf block →
        next (startOf block) ≠ [] → 0 ∈ next (startOf block) ∧
          (text (next (startOf block)) = [0x2d] → 2 < argcOf block →
            next (next (startOf block)) ≠ [] → 0 ∈ next (next (startOf block))))) := by
  unfold apeProgram
  dsimp only
  split
  · rename_i hcond
    refine iff_of_true (by simp) fun himage _ hp => ?_
    rcases hcond with hnil | hno | hshort
    · rw [hnil, List.take_nil, namesLoader_nil] at himage
      cases himage
    · rw [hno] at himage
      cases himage
    · refine absurd ?_ hp
      rw [startOf, List.drop_eq_nil_of_le hshort]
      rfl
  rename_i hcond
  have himage : namesLoader (image.take 4095) = true := by
    simp only [not_or, Bool.not_eq_false] at hcond
    exact hcond.2.1
  simp only [himage, forall_const]
  generalize startOf block = p
  generalize argcOf block = argc
  by_cases hargc : 0 < argc
  swap
  · rw [show min argc.toNat 3 = 0 by omega, pointers, candidate_none]
    exact iff_of_true (by simp [copied]) fun h => absurd h hargc
  have hn : min argc.toNat 3 = min argc.toNat 3 - 1 + 1 := by omega
  by_cases hp : p = []
  · rw [hn, hp, pointers, if_pos rfl, candidate_none]
    exact iff_of_true (by simp [copied]) fun _ h => absurd rfl h
  rw [hn, pointers_cons hp]
  simp only [hargc, hp, ne_eq, not_false_eq_true, forall_const]
  by_cases h0 : 0 ∈ p
  swap
  · refine iff_of_false ?_ fun h => h0 h.1
    rw [candidate_unended h0]
    exact fun hne => hne rfl
  simp only [h0, true_and]
  cases hl : namesLoader (text p) with
  | false =>
    rw [candidate_self hargc h0 hl, Option.bind_some]
    exact iff_of_true ((copied_defined hp).mpr h0) fun h => by cases h
  | true =>
    exact (behind_defined h0 hl).trans (by simp)

/-! ## The loop over the arguments -/

theorem joined_append_ne (s : List UInt8) (ss : List (List UInt8)) (t : List UInt8) :
    joined (s :: ss) ++ t ≠ [] := by
  rw [joined_cons]
  simp

theorem text_joined (h : 0 ∉ s) (ss : List (List UInt8)) (t : List UInt8) :
    text (joined (s :: ss) ++ t) = s := by
  rw [joined_cons, List.append_assoc, List.cons_append, text_string h]

theorem next_joined (h : 0 ∉ s) (ss : List (List UInt8)) (t : List UInt8) :
    next (joined (s :: ss) ++ t) = joined ss ++ t := by
  rw [joined_cons, List.append_assoc, List.cons_append, next_append h]

/-- From where nothing is skipped any more, every string is put out. -/
theorem argLoop_all {skip i : Nat} (hi : skip = 0 ∨ skip < i) (h : ∀ s ∈ ss, 0 ∉ s) (t : List UInt8) :
    argLoop skip i ss.length (joined ss ++ t) = joined ss := by
  induction ss generalizing i with
  | nil => rfl
  | cons s ss ih =>
    rw [List.forall_mem_cons] at h
    have hskip : skipAt skip i s = skip := if_neg (by omega)
    rw [List.length_cons, argLoop, if_neg (joined_append_ne s ss t)]
    dsimp only
    rw [text_joined h.1, next_joined h.1, hskip, if_pos (by omega), ih (by omega) h.2,
      joined_cons]
    simp

/-- Behind the loader all leading dashes are skipped. -/
theorem argLoop_dashes {i : Nat} (hi : i ≠ 0) (h : ∀ s ∈ ss, 0 ∉ s) (t : List UInt8) :
    argLoop i i ss.length (joined ss ++ t) = joined (ss.dropWhile (· = [0x2d])) := by
  induction ss generalizing i with
  | nil => rfl
  | cons s ss ih =>
    rw [List.forall_mem_cons] at h
    rw [List.length_cons, argLoop, if_neg (joined_append_ne s ss t)]
    dsimp only
    rw [text_joined h.1, next_joined h.1]
    by_cases hs : s = [0x2d]
    · have hskip : skipAt i i s = i + 1 := if_pos ⟨hi, rfl, hs⟩
      rw [hskip, if_neg (by omega), ih (Nat.succ_ne_zero i) h.2,
        List.dropWhile_cons_of_pos (by simpa using hs)]
      rfl
    · have hskip : skipAt i i s = i := if_neg fun hc => hs hc.2.2
      rw [hskip, if_pos (Nat.le_refl i), argLoop_all (by omega) h.2,
        List.dropWhile_cons_of_neg (by simpa using hs), joined_cons]
      simp

theorem argLoop_loader (hs : 0 ∉ s) (h : ∀ s ∈ ss, 0 ∉ s) (t : List UInt8) :
    argLoop 1 0 (ss.length + 1) (joined (s :: ss) ++ t) = joined (ss.dropWhile (· = [0x2d])) := by
  rw [argLoop, if_neg (joined_append_ne s ss t)]
  dsimp only
  have hskip : skipAt 1 0 s = 1 := if_neg (by omega)
  rw [text_joined hs, next_joined hs, hskip, if_neg (by omega), argLoop_dashes (by omega) h]
  rfl

/-- At most so many strings are put out, and one less if the first is skipped. -/
theorem count_argLoop (skip i n : Nat) (p : List UInt8) : (argLoop skip i n p).count 0 ≤ n := by
  induction n generalizing skip i p with
  | zero => simp [argLoop]
  | succ n ih =>
    rw [argLoop]
    split
    · simp
    · dsimp only
      generalize skipAt skip i (text p) = k
      have hrest := ih k (i + 1) (next p)
      have hput : (if k ≤ i then text p ++ [0] else []).count 0 ≤ 1 := by
        split
        · rw [List.count_append, List.count_eq_zero.mpr (zero_notMem_text p)]
          simp
        · simp
      rw [List.count_append]
      omega

theorem count_argLoop_skip (n : Nat) (p : List UInt8) : (argLoop 1 0 (n + 1) p).count 0 ≤ n := by
  rw [argLoop]
  split
  · simp
  · dsimp only
    have hskip : skipAt 1 0 (text p) = 1 := if_neg (by omega)
    rw [hskip, if_neg (by omega), List.nil_append]
    exact count_argLoop _ _ _ _

/-! ## The block of a layout -/

namespace Layout

variable (l : Layout)

theorem four_lt : 4 < l.block.length := by
  simp [block]

theorem argcOf_block : argcOf l.block = l.argv.length := by
  have hlt : l.argv.length < 256 ^ 4 := Nat.lt_of_lt_of_le l.argc_lt (by decide)
  have htake : l.block.take 4 = le 4 l.argv.length := by
    rw [block, List.take_append_of_le_length (by simp), List.take_of_length_le (by simp)]
  have hword : word 4 l.block 0 = l.argv.length :=
    (congrArg leValue htake).trans ((leValue_le 4 _).trans (Nat.mod_eq_of_lt hlt))
  have hwrap : Int.bmod (l.argv.length : Int) (2 ^ 32) = l.argv.length := by
    have := l.argc_lt
    rw [Int.bmod_eq_of_le]
    all_goals omega
  exact (congrArg (fun n : Nat => Int.bmod (n : Int) (2 ^ 32)) hword).trans hwrap

theorem startOf_block : startOf l.block = (joined (l.argv ++ l.env)).dropWhile (· = 0) := by
  have hdrop : l.block.drop 4 = l.exec ++ 0 :: (List.replicate l.pad 0 ++ joined (l.argv ++ l.env)) := by
    rw [block, List.drop_append_of_le_length (by simp), List.drop_of_length_le (by simp)]
    rfl
  rw [startOf, hdrop, List.dropWhile_append_of_pos]
  · rw [List.dropWhile_cons_of_neg (by simp), List.dropWhile_cons_of_pos (by simp),
      List.dropWhile_append_of_pos]
    intro c hc
    simpa using List.eq_of_mem_replicate hc
  · intro c hc
    have hne : c ≠ 0 := by
      rintro rfl
      exact l.exec_clean hc
    simpa using hne

theorem dropWhile_joined {a : List UInt8} (ha : a ≠ []) (h0 : 0 ∉ a) (ss : List (List UInt8)) :
    (joined (a :: ss)).dropWhile (· = 0) = joined (a :: ss) := by
  obtain ⟨c, q, rfl⟩ := List.exists_cons_of_ne_nil ha
  have hc : c ≠ 0 := (List.ne_and_not_mem_of_not_mem_cons h0).1.symm
  rw [joined_cons, List.cons_append, List.dropWhile_cons_of_neg (by simpa using hc)]

variable {l} {a : List UInt8} {rest : List (List UInt8)}

theorem disguised_iff (h : l.argv = a :: rest) : l.Disguised ↔
    namesLoader l.image = true ∧ rest ≠ [] ∧ namesLoader a = true := by
  have hlen : 1 < (a :: rest).length ↔ rest ≠ [] := by
    rw [List.length_cons, Nat.lt_add_left_iff_pos, List.length_pos_iff]
  rw [Disguised, h, hlen]
  simp

theorem shown_eq (h : l.argv = a :: rest) : l.shown =
    if namesLoader l.image = true ∧ rest ≠ [] ∧ namesLoader a = true then
      if rest.head? = some [0x2d] then rest.tail else rest
    else a :: rest := by
  rw [shown, h, List.tail_cons]
  exact if_congr (disguised_iff h) rfl rfl

theorem clean (h : l.argv = a :: rest) : 0 ∉ a ∧ ∀ s ∈ rest, 0 ∉ s := by
  have hall := l.argv_clean
  rwa [h, List.forall_mem_cons] at hall

theorem startOf_first (h : l.argv = a :: rest) (ha : a ≠ []) :
    startOf l.block = joined l.argv ++ joined l.env := by
  rw [startOf_block, h, List.cons_append, dropWhile_joined ha (clean h).1, ← List.cons_append,
    joined_append]

/-- What is put out where the first argument is not empty. -/
theorem genCmdline_first (h : l.argv = a :: rest) (ha : a ≠ []) : genCmdline l.image l.block =
    some (joined
      (if namesLoader (l.image.take 1023) = true ∧ rest ≠ [] ∧ namesLoader a = true then
        rest.dropWhile (· = [0x2d])
      else l.argv)) := by
  obtain ⟨ha0, hrest0⟩ := clean h
  have hp : startOf l.block = a ++ 0 :: (joined rest ++ joined l.env) := by
    rw [startOf_first h ha, h, joined_cons, List.append_assoc, List.cons_append]
  have hall : argLoop 0 0 l.argv.length (startOf l.block) = joined l.argv := by
    rw [startOf_first h ha]
    exact argLoop_all (Or.inl rfl) l.argv_clean _
  have hlen : 1 < (l.argv.length : Int) ↔ rest ≠ [] := by
    rw [h, List.length_cons, ← List.length_pos_iff]
    omega
  have hload : isLoader (startOf l.block) = some (namesLoader a) := by
    rw [hp]
    exact isLoader_string ha0 _
  have hne : startOf l.block ≠ [] := by
    rw [hp]
    simp
  rw [genCmdline, if_neg (by have := l.four_lt; omega)]
  dsimp only
  rw [argcOf_block, Int.toNat_natCast, hload]
  split
  · rename_i hcond
    cases hn : namesLoader a with
    | false => simp [hall]
    | true =>
      rw [if_pos ⟨hcond.2.1, hlen.mp hcond.2.2.1, rfl⟩, h, hp]
      have hloop := @argLoop_loader a rest ha0 hrest0 (joined l.env)
      rw [joined_cons, List.append_assoc, List.cons_append] at hloop
      rw [Option.map_some, if_pos rfl, List.length_cons, hloop]
  · rename_i hcond
    rw [hall, if_neg]
    rintro ⟨himage, hrest, -⟩
    refine hcond ⟨?_, himage, hlen.mpr hrest, hne⟩
    intro hnil
    rw [hnil, namesLoader_nil] at himage
    cases himage

theorem genCmdline_nil (h : l.argv = []) : genCmdline l.image l.block = some [] := by
  rw [genCmdline, if_neg (by have := l.four_lt; omega)]
  dsimp only
  rw [argcOf_block, h, if_neg (by simp)]
  rfl

/-- An empty first argument is taken for padding. -/
theorem genCmdline_empty (h : l.argv = [] :: rest) :
    genCmdline l.image l.block ≠ some (joined l.argv) := by
  have hcount : (joined l.argv).count 0 = rest.length + 1 := by
    rw [count_joined l.argv_clean, h, List.length_cons]
  have hhead : (joined l.argv).head? = some 0 := by rw [h, joined_cons]; rfl
  rw [genCmdline, if_neg (by have := l.four_lt; omega)]
  dsimp only
  rw [argcOf_block, Int.toNat_natCast, h, List.length_cons, ← h]
  -- nothing is skipped, but the first string is another one
  have hplain : argLoop 0 0 (rest.length + 1) (startOf l.block) ≠ joined l.argv := by
    intro hout
    rw [← hout, argLoop] at hhead
    split at hhead
    · cases hhead
    · rename_i hne
      obtain ⟨c, q, hp⟩ := List.exists_cons_of_ne_nil hne
      have hc : c ≠ 0 := by
        have hnot := List.head?_dropWhile_not (fun c : UInt8 => decide (c = 0)) (joined (l.argv ++ l.env))
        rw [← startOf_block, hp] at hnot
        simpa using hnot
      rw [hp] at hhead
      simp [text_cons hc, skipAt, hc] at hhead
  split
  · rw [ne_eq, Option.map_eq_some_iff]
    rintro ⟨named, -, hout⟩
    cases named with
    | false => exact hplain hout
    | true =>
      have hle := count_argLoop_skip rest.length (startOf l.block)
      rw [if_pos rfl] at hout
      rw [hout, hcount] at hle
      omega
  · intro hout
    exact hplain (Option.some.inj hout)

/-! ### The environment -/

theorem pastArgs_joined (h : ∀ s ∈ ss, 0 ∉ s) (t : List UInt8) :
    pastArgs ss.length (joined ss ++ t) = t := by
  induction ss with
  | nil => rfl
  | cons s ss ih =>
    rw [List.forall_mem_cons] at h
    rw [List.length_cons, pastArgs, if_neg (joined_append_ne s ss t), next_joined h.1, ih h.2]

theorem envLoop_joined (h : ∀ s ∈ ss, 0 ∉ s) : envLoop (joined ss) = joined (ss.takeWhile (· ≠ [])) := by
  induction ss with
  | nil => rw [joined_nil, envLoop]; rfl
  | cons s ss ih =>
    rw [List.forall_mem_cons] at h
    cases s with
    | nil => rw [joined_cons, List.nil_append, envLoop, if_pos rfl]; rfl
    | cons c q =>
      have hc : c ≠ 0 := (List.ne_and_not_mem_of_not_mem_cons h.1).1.symm
      have htext : text (c :: (q ++ 0 :: joined ss)) = c :: q := text_string h.1 _
      have hnext : next (c :: (q ++ 0 :: joined ss)) = joined ss := next_append h.1 _
      rw [joined_cons, List.cons_append, envLoop, if_neg hc, htext, hnext, ih h.2,
        List.takeWhile_cons_of_pos (by simp), joined_cons]

theorem genEnviron_eq (h : l.argv.head? ≠ some []) :
    genEnviron l.block = envLoop ((joined l.env).dropWhile (· = 0)) := by
  rw [genEnviron, if_neg (by have := l.four_lt; omega), argcOf_block, Int.toNat_natCast]
  congr 1
  cases hargv : l.argv with
  | nil =>
    rw [startOf_block, hargv, List.length_nil, pastArgs, List.nil_append, List.dropWhile_idempotent]
  | cons a rest =>
    have ha : a ≠ [] := by
      rintro rfl
      exact h (by rw [hargv]; rfl)
    rw [startOf_first hargv ha, ← hargv, pastArgs_joined l.argv_clean]

theorem envLoop_nil_iff {p : List UInt8} (h : p.head? ≠ some 0) : envLoop p = [] ↔ p = [] := by
  cases p with
  | nil => simp [envLoop]
  | cons c q =>
    have hc : c ≠ 0 := fun hc => h (by rw [hc]; rfl)
    rw [envLoop, if_neg hc]
    simp

theorem joined_zeros_iff (h : ∀ s ∈ ss, 0 ∉ s) : (∀ c ∈ joined ss, c = 0) ↔ ∀ s ∈ ss, s = [] := by
  constructor
  · intro hall s hs
    rw [List.eq_nil_iff_forall_not_mem]
    intro c hc
    have hmem : c ∈ joined ss := List.mem_flatMap.mpr ⟨s, hs, List.mem_append_left _ hc⟩
    rw [hall c hmem] at hc
    exact h s hs hc
  · intro hall c hc
    obtain ⟨s, hs, hmem⟩ := List.mem_flatMap.mp hc
    rw [hall s hs] at hmem
    simpa using hmem

/-- Leading empty strings are taken for padding. -/
theorem environ_iff (h : l.argv.head? ≠ some []) :
    genEnviron l.block = joined (l.env.takeWhile (· ≠ [])) ↔
      (l.env.head? = some [] → ∀ s ∈ l.env, s = []) := by
  rw [genEnviron_eq h]
  have hclean := l.env_clean
  cases henv : l.env with
  | nil => simp [envLoop]
  | cons s ss =>
    rw [henv] at hclean
    by_cases hs : s = []
    · have hhead : ((joined (s :: ss)).dropWhile (· = 0)).head? ≠ some 0 := by
        intro h0
        have hnot := List.head?_dropWhile_not (fun c : UInt8 => decide (c = 0)) (joined (s :: ss))
        rw [h0] at hnot
        simp at hnot
      rw [List.takeWhile_cons_of_neg (by simpa using hs), joined_nil, envLoop_nil_iff hhead,
        List.dropWhile_eq_nil_iff, ← joined_zeros_iff hclean]
      simp [hs]
    · rw [dropWhile_joined hs (List.forall_mem_cons.mp hclean).1, envLoop_joined hclean]
      simp [hs]

/-! ### The program -/

theorem copied_joined {prog t : List UInt8} (h : 0 ∉ s)
    (hp : copied (some (joined (s :: ss) ++ t)) = some (some prog)) : prog = s.take 511 := by
  rw [joined_cons, List.append_assoc, List.cons_append] at hp
  by_cases hs : s = []
  · rw [hs] at hp
    cases hp
  · rw [copied_string h hs] at hp
    exact (Option.some.inj (Option.some.inj hp)).symm

theorem zero_mem_joined (s : List UInt8) (ss : List (List UInt8)) (t : List UInt8) :
    0 ∈ joined (s :: ss) ++ t := by
  rw [joined_cons]
  simp

theorem apeProgram_eq (himage : namesLoader l.image = true) : apeProgram l.image l.block =
    (candidate l.argv.length (pointers (min l.argv.length 3) (startOf l.block))).bind copied := by
  have htake : l.image.take 4095 = l.image := List.take_of_length_le (by have := l.image_lt; omega)
  have hne : l.image ≠ [] := by
    intro hnil
    rw [hnil, namesLoader_nil] at himage
    cases himage
  have hlen := l.four_lt
  rw [apeProgram, htake, if_neg (by simp [hne, himage, hlen])]
  dsimp only
  rw [argcOf_block, Int.toNat_natCast]

/-- What follows the loader on its command line. -/
theorem apeProgram_loader (h : l.argv = a :: rest) (ha : a ≠ [])
    (himage : namesLoader l.image = true) (hload : namesLoader a = true) {prog : List UInt8}
    (hp : apeProgram l.image l.block = some (some prog)) :
    ∃ first ∈ (if rest.head? = some [0x2d] then rest.tail else rest).head?, prog = first.take 511 := by
  obtain ⟨ha0, hrest0⟩ := clean h
  have hargc : min l.argv.length 3 = min (l.argv.length : Int).toNat 3 - 1 + 1 := by
    rw [Int.toNat_natCast, h, List.length_cons]
    omega
  have hnamed : namesLoader (text (joined (a :: rest) ++ joined l.env)) = true := by
    rwa [text_joined ha0]
  rw [apeProgram_eq himage, startOf_first h ha, h, ← h, hargc, h,
    pointers_cons (joined_append_ne a rest _), next_joined ha0,
    candidate_loader (zero_mem_joined a rest _) hnamed, ← h] at hp
  cases hrest : rest with
  | nil =>
    have h1 : ¬ 1 < (l.argv.length : Int) := by rw [h, hrest]; simp
    rw [if_neg h1] at hp
    simp [copied] at hp
  | cons b rest =>
    rw [hrest, List.forall_mem_cons] at hrest0
    have h1 : 1 < (l.argv.length : Int) := by rw [h, hrest]; simp
    have hq := joined_append_ne b rest (joined l.env)
    rw [if_pos h1, hrest, pointers_head (by omega), if_neg hq, Option.elim_some,
      strcmp_text (zero_mem_joined b rest _), text_joined hrest0.1, Option.bind_some,
      Option.bind_some] at hp
    by_cases hb : b = [0x2d]
    · rw [if_pos (by simpa using hb)] at hp
      rw [if_pos (by simpa using hb)]
      cases hrest' : rest with
      | nil =>
        have h2 : ¬ 2 < (l.argv.length : Int) := by rw [h, hrest, hrest']; simp
        rw [if_neg h2] at hp
        cases hp
      | cons c rest' =>
        rw [hrest', List.forall_mem_cons] at hrest0
        have h2 : 2 < (l.argv.length : Int) := by
          rw [h, hrest, hrest', List.length_cons, List.length_cons, List.length_cons]
          omega
        rw [if_pos h2, pointers_second h2 hq, next_joined hrest0.1, hrest',
          if_neg (joined_append_ne c rest' _)] at hp
        exact ⟨c, rfl, copied_joined hrest0.2.1 hp⟩
    · rw [if_neg (by simpa using hb)] at hp
      rw [if_neg (by simpa using hb)]
      exact ⟨b, rfl, copied_joined hrest0.1 hp⟩

/-- The program is the first string that is shown. -/
theorem apeProgram_shown (h : l.argv.head? ≠ some []) {prog : List UInt8}
    (hp : apeProgram l.image l.block = some (some prog)) :
    ∃ first ∈ l.shown.head?, prog = first.take 511 := by
  have htake : l.image.take 4095 = l.image := List.take_of_length_le (by have := l.image_lt; omega)
  cases himage : namesLoader l.image with
  | false =>
    rw [apeProgram, htake, if_pos (Or.inr (Or.inl himage))] at hp
    cases hp
  | true =>
    cases hargv : l.argv with
    | nil =>
      rw [apeProgram_eq himage, hargv, List.length_nil, Nat.zero_min, pointers, candidate_none] at hp
      cases hp
    | cons a rest =>
      have ha : a ≠ [] := by
        rintro rfl
        exact h (by rw [hargv]; rfl)
      have ha0 := (clean hargv).1
      cases hload : namesLoader a with
      | false =>
        have hshown : l.shown = a :: rest := by rw [shown_eq hargv, if_neg (by simp [hload])]
        have hargc : min l.argv.length 3 = min l.argv.length 3 - 1 + 1 := by
          rw [hargv, List.length_cons]
          omega
        have hpos : 0 < ((a :: rest).length : Int) := by
          rw [List.length_cons]
          omega
        have hnamed : namesLoader (text (joined (a :: rest) ++ joined l.env)) = false := by
          rwa [text_joined ha0]
        rw [apeProgram_eq himage, startOf_first hargv ha, hargc, hargv,
          pointers_cons (joined_append_ne a rest _),
          candidate_self hpos (zero_mem_joined a rest _) hnamed, Option.bind_some] at hp
        rw [hshown]
        exact ⟨a, rfl, copied_joined ha0 hp⟩
      | true =>
        have hfound := apeProgram_loader hargv ha himage hload hp
        have hrest : rest ≠ [] := by
          rintro rfl
          simp at hfound
        rw [shown_eq hargv, if_pos ⟨himage, hrest, hload⟩]
        exact hfound

/-! ### What is decoded -/

/-- Strings put out one after the other tell how many they are. -/
theorem length_of_joined {us vs : List (List UInt8)} (hu : ∀ s ∈ us, 0 ∉ s) (hv : ∀ s ∈ vs, 0 ∉ s)
    (h : joined us = joined vs) : us.length = vs.length := by
  rw [← count_joined hu, ← count_joined hv, h]

/-- Skipping every leading dash skips too much exactly if there are two. -/
theorem dashes_iff (h : ∀ s ∈ rest, 0 ∉ s) :
    joined (rest.dropWhile (· = [0x2d])) =
      joined (if rest.head? = some [0x2d] then rest.tail else rest) ↔
        rest.take 2 ≠ [[0x2d], [0x2d]] := by
  cases rest with
  | nil => simp
  | cons b rest =>
    by_cases hb : b = [0x2d]
    swap
    · rw [List.dropWhile_cons_of_neg (by simpa using hb), if_neg (by simpa using hb)]
      simp [hb]
    rw [List.dropWhile_cons_of_pos (by simpa using hb), if_pos (by simpa using hb), List.tail_cons]
    rw [List.forall_mem_cons] at h
    cases rest with
    | nil => simp
    | cons c rest =>
      by_cases hc : c = [0x2d]
      swap
      · rw [List.dropWhile_cons_of_neg (by simpa using hc)]
        simp [hc]
      rw [List.dropWhile_cons_of_pos (by simpa using hc)]
      refine iff_of_false (fun heq => ?_) (by simp [hb, hc])
      have hsub := List.dropWhile_sublist (l := rest) fun s : List UInt8 => decide (s = [0x2d])
      have hlen := length_of_joined
        (fun s hs => (List.forall_mem_cons.mp h.2).2 s (hsub.mem hs)) h.2 heq
      have hle := hsub.length_le
      rw [List.length_cons] at hlen
      omega

theorem cmdline_iff (h : l.argv = a :: rest) (ha : a ≠ []) :
    genCmdline l.image l.block = some (joined l.shown) ↔
      (l.Disguised → rest.take 2 ≠ [[0x2d], [0x2d]]) ∧
        (rest ≠ [] → namesLoader a = true →
          namesLoader (l.image.take 1023) = namesLoader l.image) := by
  obtain ⟨ha0, hrest0⟩ := clean h
  have hargv0 := l.argv_clean
  rw [genCmdline_first h ha, Option.some_inj, shown_eq h, disguised_iff h, h]
  rw [h] at hargv0
  by_cases hk : rest ≠ [] ∧ namesLoader a = true
  swap
  · rw [if_neg fun hc => hk hc.2, if_neg fun hc => hk hc.2]
    refine iff_of_true rfl ⟨fun hc => absurd hc.2 hk, fun hrest hload => absurd ⟨hrest, hload⟩ hk⟩
  -- fewer strings are shown than there are
  have hfewer : ∀ {us : List (List UInt8)}, us.Sublist rest → joined us ≠ joined (a :: rest) := by
    intro us hsub heq
    have hlen := length_of_joined (fun s hs => hrest0 s (hsub.mem hs)) hargv0 heq
    have hle := hsub.length_le
    rw [List.length_cons] at hlen
    omega
  have hdrop : (rest.dropWhile (· = [0x2d])).Sublist rest := List.dropWhile_sublist _
  have htail : (if rest.head? = some [0x2d] then rest.tail else rest).Sublist rest := by
    split
    · exact List.tail_sublist rest
    · exact List.Sublist.refl rest
  cases hseen : namesLoader (l.image.take 1023) with
  | true =>
    cases himage : namesLoader l.image with
    | true =>
      rw [if_pos ⟨rfl, hk⟩, if_pos ⟨rfl, hk⟩, dashes_iff hrest0]
      simp [hk]
    | false =>
      rw [if_pos ⟨rfl, hk⟩, if_neg (by simp)]
      exact iff_of_false (hfewer hdrop) fun hc => by cases hc.2 hk.1 hk.2
  | false =>
    cases himage : namesLoader l.image with
    | true =>
      rw [if_neg (by simp), if_pos ⟨rfl, hk⟩]
      exact iff_of_false (hfewer htail).symm fun hc => by cases hc.2 hk.1 hk.2
    | false =>
      rw [if_neg (by simp), if_neg (by simp)]
      simp

theorem decodes_iff (l : Layout) : l.Decodes ↔ l.Plain := by
  cases hargv : l.argv with
  | nil =>
    have hfirst : l.argv.head? ≠ some [] := by rw [hargv]; simp
    have hshown : l.shown = [] := by
      rw [shown, if_neg, hargv]
      rintro ⟨-, hlen, -⟩
      rw [hargv] at hlen
      simp at hlen
    have hcmd : genCmdline l.image l.block = some (joined l.shown) := by
      rw [genCmdline_nil hargv, hshown]
      rfl
    constructor
    · intro hd
      refine ⟨hfirst, fun _ => by rw [hargv]; simp, fun hlen => ?_, (environ_iff hfirst).mp hd.environ⟩
      rw [hargv] at hlen
      simp at hlen
    · intro hpl
      exact ⟨hcmd, (environ_iff hfirst).mpr hpl.env, fun _ => apeProgram_shown hfirst⟩
  | cons a rest =>
    by_cases ha : a = []
    · subst ha
      refine iff_of_false (fun hd => ?_) fun hpl => hpl.first (by rw [hargv]; rfl)
      have hshown : l.shown = l.argv := by
        rw [shown_eq hargv, if_neg (by simp [namesLoader_nil]), hargv]
      exact genCmdline_empty hargv (hshown ▸ hd.cmdline)
    · have hfirst : l.argv.head? ≠ some [] := by rw [hargv]; simpa using ha
      have hlen : 1 < l.argv.length ↔ rest ≠ [] := by
        rw [hargv, List.length_cons, Nat.lt_add_left_iff_pos, List.length_pos_iff]
      have hhead : (∃ x ∈ l.argv.head?, namesLoader x = true) ↔ namesLoader a = true := by
        rw [hargv]
        simp
      have htail : l.argv.tail = rest := by rw [hargv]; rfl
      constructor
      · intro hd
        obtain ⟨hdash, hpath⟩ := (cmdline_iff hargv ha).mp hd.cmdline
        exact ⟨hfirst, by rwa [htail], fun h1 h2 => hpath (hlen.mp h1) (hhead.mp h2),
          (environ_iff hfirst).mp hd.environ⟩
      · intro hpl
        have hdash := hpl.dashes
        rw [htail] at hdash
        exact ⟨(cmdline_iff hargv ha).mpr
            ⟨hdash, fun h1 h2 => hpl.path (hlen.mpr h1) (hhead.mpr h2)⟩,
          (environ_iff hfirst).mpr hpl.env, fun _ => apeProgram_shown hfirst⟩

end Layout

/-! ## Both kinds of block -/

theorem closed_iff (image block : List UInt8) :
    (genCmdline image block ≠ none ∧ apeProgram image block ≠ none) ↔ Closed image block := by
  rw [genCmdline_defined, apeProgram_defined]
  constructor
  · rintro ⟨hcmd, hprog⟩
    refine ⟨hcmd, fun hi hc hp => (hprog hi hc hp).1, fun hi hc hl hq => ?_,
      fun hi hc hl hd hr => ?_⟩
    · have hp : startOf block ≠ [] := by
        intro hp
        rw [hp] at hq
        exact hq next_nil
      exact ((hprog hi (by omega) hp).2 hl hc hq).1
    · have hq : next (startOf block) ≠ [] := by
        intro hq
        rw [hq] at hr
        exact hr next_nil
      have hp : startOf block ≠ [] := by
        intro hp
        rw [hp] at hq
        exact hq next_nil
      exact ((hprog hi (by omega) hp).2 hl (by omega) hq).2 hd hc hr
  · intro h
    exact ⟨h.cmdline, fun hi hc hp => ⟨h.first hi hc hp, fun hl hc hq =>
      ⟨h.second hi hc hl hq, fun hd hc hr => h.third hi hc hl hd hr⟩⟩⟩

/-- What the kernel lays out ends in a NUL. -/
theorem Layout.block_last (l : Layout) : ∃ b, l.block = b ++ [0] := by
  rw [Layout.block]
  cases hss : (l.argv ++ l.env).reverse with
  | nil =>
    rw [List.reverse_eq_nil_iff.mp hss]
    exact ⟨le 4 l.argv.length ++ (l.exec ++ List.replicate l.pad 0),
      by simp [joined, ← List.replicate_succ, List.replicate_succ']⟩
  | cons s ss =>
    rw [List.reverse_eq_cons_iff.mp hss, joined_append]
    exact ⟨le 4 l.argv.length ++
      (l.exec ++ 0 :: (List.replicate l.pad 0 ++ (joined ss.reverse ++ s))), by simp [joined_cons]⟩

theorem Layout.closed (l : Layout) (image : List UInt8) : Closed image l.block := by
  obtain ⟨b, hb⟩ := l.block_last
  have hmem : ∀ {p}, p <:+ l.block → p ≠ [] → 0 ∈ p := by
    rintro p ⟨a, ha⟩ hp
    rw [hb] at ha
    have hlast := congrArg List.getLast? ha
    rw [List.getLast?_append_of_ne_nil _ hp, List.getLast?_append_of_ne_nil _ (by simp)] at hlast
    exact List.mem_of_getLast? hlast
  have hstart : startOf l.block <:+ l.block :=
    (List.dropWhile_suffix _).trans ((List.dropWhile_suffix _).trans (List.drop_suffix 4 _))
  have hnext : next (startOf l.block) <:+ l.block := (List.drop_suffix _ _).trans hstart
  exact ⟨fun _ _ => hmem hstart, fun _ _ => hmem hstart, fun _ _ _ => hmem hnext,
    fun _ _ _ _ => hmem ((List.drop_suffix _ _).trans hnext)⟩

/-- **Decoding a KERN_PROCARGS2 block.** What the kernel lays out is found again exactly if it is
plain, and the walks stay inside a block exactly if it is closed. -/
theorem procargs_iff (l : Layout) (image block : List UInt8) : (l.Decodes ↔ l.Plain) ∧
    ((genCmdline image block ≠ none ∧ apeProgram image block ≠ none) ↔ Closed image block) :=
  ⟨l.decodes_iff, closed_iff image block⟩

/-- `ape - - x` -/
def twoDashes : Layout where
  image := [0x61, 0x70, 0x65]
  image_lt := by decide
  exec := [0x78]
  exec_clean := by decide
  pad := 2
  argv := [[0x61, 0x70, 0x65], [0x2d], [0x2d], [0x78]]
  argv_clean := by decide
  argc_lt := by decide
  env := []
  env_clean := by decide

/-- The program loses its first argument, and a block whose last string has no NUL is overrun. -/
theorem procargs_misread :
    genCmdline twoDashes.image twoDashes.block = some (joined [[0x78]]) ∧
      twoDashes.shown = [[0x2d], [0x78]] ∧
      apeProgram twoDashes.image twoDashes.block = some (some [0x2d]) ∧
      genCmdline [0x61, 0x70, 0x65] [2, 0, 0, 0, 0x78, 0, 0x61, 0x70, 0x65] = none := by
  decide +kernel

end ApeShim.ProcArgs
