import ApeShim.Console.Scanner
import ApeShim.Lib.Memory

/-!
`CoalesceConsoleEscape` of `shim/read.c`: the console hands out an escape sequence byte by byte,
and the rest of one is gathered behind the first read.
-/

namespace ApeShim.Console
open Memory

def isBell (b : UInt8) : Bool := b = 0x07

/-! ## The check -/

/-- The backward scan from `i`: the place behind the last ESC, 0 where there is none. -/
def scanBack (mem : Nat → UInt8) : Nat → Nat
  | 0 => 0
  | i + 1 => if mem i = escape then i + 1 else scanBack mem i

/-- `EndsInsideEscape`, with the buffer at 0. -/
def endsInsideEscape (mem : Nat → UInt8) (n : Nat) : Bool :=
  let i := scanBack mem n
  let after := n - i
  if i = 0 then false
  else if after = 0 then true
  else if mem i = 0x5b then !(view mem (i + 1) (n - (i + 1))).any isFinal
  else if mem i = 0x4f then after < 2
  else if mem i = 0x5d then !(view mem (i + 1) (n - (i + 1))).any isBell
  else false

/-! ## The loop -/

/-- `ESC_COALESCE_MAX` -/
def escCoalesceMax : Nat := 64

/-- What the console has to offer in one turn of the loop. -/
structure Offer where
  /-- the poll reports POLLIN in time -/
  ready : Bool
  /-- what `sys_readv_nt` puts into a room of so many bytes; empty where it returns 0 or fails -/
  read : Nat → List UInt8
  read_le : ∀ room, (read room).length ≤ room

/-- `CoalesceConsoleEscape`, behind a read of `n` bytes: the buffer, and what is returned. -/
def coalesceConsoleEscape (cap : Nat) : List Offer → (Nat → UInt8) → Nat → (Nat → UInt8) × Nat
  | [], mem, n => (mem, n)
  | o :: os, mem, n =>
    if 0 < n ∧ n < cap ∧ n < escCoalesceMax ∧ endsInsideEscape mem n = true then
      if o.ready = false then (mem, n)
      else
        let got := o.read (cap - n)
        if got = [] then (mem, n)
        else coalesceConsoleEscape cap os (blit mem n got) (n + got.length)
    else (mem, n)

/-! ## What it is for -/

/-- Where a parser stands between two bytes. -/
inductive Pending
  | ground
  | lone
  | csi
  | ss3
  | osc
  deriving DecidableEq, Repr

namespace Pending

/-- One byte further. An ESC restarts from everywhere; the `ESC \` that closes an OSC is such a
restart. -/
def next (s : Pending) (b : UInt8) : Pending :=
  if b = escape then lone
  else
    match s with
    | ground => ground
    | lone => if b = 0x5b then csi else if b = 0x4f then ss3 else if b = 0x5d then osc else ground
    | csi => if isFinal b then ground else csi
    | ss3 => ground
    | osc => if isBell b then ground else osc

def after (s : Pending) (bytes : List UInt8) : Pending := bytes.foldl next s

@[simp] theorem after_nil (s : Pending) : s.after [] = s := rfl

theorem after_cons (s : Pending) (b : UInt8) (bytes : List UInt8) :
    s.after (b :: bytes) = (s.next b).after bytes := rfl

theorem after_append (s : Pending) (u v : List UInt8) : s.after (u ++ v) = (s.after u).after v :=
  List.foldl_append

end Pending

/-- The parser is inside a sequence behind these bytes. -/
def Unfinished (bytes : List UInt8) : Prop := Pending.ground.after bytes ≠ .ground

instance (bytes : List UInt8) : Decidable (Unfinished bytes) := inferInstanceAs (Decidable (_ ≠ _))

/-- The first read, followed by those of so many turns. -/
def gathered (cap : Nat) (first : List UInt8) (offers : List Offer) : List UInt8 :=
  offers.foldl (fun bytes o => bytes ++ o.read (cap - bytes.length)) first

/-- These bytes are enough. -/
def Settled (cap : Nat) (bytes : List UInt8) : Prop :=
  ¬ Unfinished bytes ∨ escCoalesceMax ≤ bytes.length ∨ cap ≤ bytes.length

/-- The turn has something to add to these bytes. -/
def Offer.Adds (o : Offer) (cap : Nat) (bytes : List UInt8) : Prop :=
  o.ready = true ∧ o.read (cap - bytes.length) ≠ []

/-- `bytes` are the first read and those of `k` turns, up to where they are enough or nothing more
comes. -/
structure Coalesced (cap : Nat) (first : List UInt8) (offers : List Offer) (k : Nat)
    (bytes : List UInt8) : Prop where
  joined : bytes = gathered cap first (offers.take k)
  further : ∀ j < k, ¬ Settled cap (gathered cap first (offers.take j)) ∧
    ∃ o, offers[j]? = some o ∧ o.Adds cap (gathered cap first (offers.take j))
  stopped : Settled cap bytes ∨ ∀ o, offers[k]? = some o → ¬ o.Adds cap bytes

/-! ## The two readings of a buffer -/

namespace Pending

/-- Without an ESC the ground state is kept. -/
theorem after_ground {bytes : List UInt8} (h : escape ∉ bytes) : ground.after bytes = ground := by
  induction bytes with
  | nil => rfl
  | cons b bytes ih =>
    obtain ⟨hb, hrest⟩ := List.ne_and_not_mem_of_not_mem_cons h
    rw [after_cons, next, if_neg hb.symm]
    exact ih hrest

/-- A state that bytes of one kind leave for the ground state, and others do not leave. -/
theorem after_until {s : Pending} {p : UInt8 → Bool}
    (hs : ∀ b, b ≠ escape → s.next b = if p b then ground else s) {bytes : List UInt8}
    (h : escape ∉ bytes) : s.after bytes = if bytes.any p then ground else s := by
  induction bytes with
  | nil => rfl
  | cons b bytes ih =>
    obtain ⟨hb, hrest⟩ := List.ne_and_not_mem_of_not_mem_cons h
    rw [after_cons, hs b hb.symm, List.any_cons]
    cases p b with
    | true => exact after_ground hrest
    | false => exact ih hrest

theorem after_csi {bytes : List UInt8} (h : escape ∉ bytes) :
    csi.after bytes = if bytes.any isFinal then ground else csi :=
  @after_until csi isFinal (fun _ hb => if_neg hb) _ h

theorem after_osc {bytes : List UInt8} (h : escape ∉ bytes) :
    osc.after bytes = if bytes.any isBell then ground else osc :=
  @after_until osc isBell (fun _ hb => if_neg hb) _ h

theorem after_ss3 {bytes : List UInt8} (h : escape ∉ bytes) :
    ss3.after bytes = if bytes = [] then ss3 else ground := by
  cases bytes with
  | nil => rfl
  | cons b bytes =>
    obtain ⟨hb, hrest⟩ := List.ne_and_not_mem_of_not_mem_cons h
    rw [after_cons, next, if_neg hb.symm, if_neg (List.cons_ne_nil _ _)]
    exact after_ground hrest

end Pending

variable {mem : Nat → UInt8} {n : Nat}

theorem scanBack_le (mem : Nat → UInt8) (n : Nat) : scanBack mem n ≤ n := by
  induction n with
  | zero => exact Nat.le_refl 0
  | succ i ih =>
    rw [scanBack]
    split <;> omega

/-- There is no ESC behind the place that the scan finds. -/
theorem scanBack_last : escape ∉ view mem (scanBack mem n) (n - scanBack mem n) := by
  induction n with
  | zero => simp [scanBack]
  | succ i ih =>
    rw [scanBack]
    split
    · simp
    · rename_i hi
      have hle := scanBack_le mem i
      rw [Nat.sub_add_comm hle, view_succ, Nat.add_sub_cancel' hle]
      simp [ih, Ne.symm hi]

/-- And the place is behind an ESC. -/
theorem scanBack_found (h : scanBack mem n ≠ 0) :
    view mem 0 (scanBack mem n) = view mem 0 (scanBack mem n - 1) ++ [escape] := by
  induction n with
  | zero => exact absurd rfl h
  | succ i ih =>
    rw [scanBack] at h ⊢
    split at h
    · rename_i hi
      rw [if_pos hi, view_succ, Nat.zero_add, hi, Nat.add_sub_cancel]
    · rename_i hi
      rw [if_neg hi]
      exact ih h

/-- What the parser makes of the buffer is decided behind its last ESC. -/
theorem after_view : Pending.ground.after (view mem 0 n) =
    if scanBack mem n = 0 then .ground
    else Pending.lone.after (view mem (scanBack mem n) (n - scanBack mem n)) := by
  have hlast := @scanBack_last mem n
  split
  · rename_i h0
    rw [h0] at hlast
    exact Pending.after_ground hlast
  · rename_i h0
    have hsplit := view_add (m := mem) (a := 0) (n := scanBack mem n) (n - scanBack mem n)
    rw [Nat.add_sub_cancel' (scanBack_le mem n), Nat.zero_add, scanBack_found h0] at hsplit
    rw [hsplit, Pending.after_append, Pending.after_append]
    rfl

/-- The backward scan agrees with the parser that reads from the left. -/
theorem endsInsideEscape_iff (mem : Nat → UInt8) (n : Nat) :
    endsInsideEscape mem n = true ↔ Unfinished (view mem 0 n) := by
  have hlast := @scanBack_last mem n
  rw [Unfinished, after_view]
  unfold endsInsideEscape
  set i := scanBack mem n with hi
  dsimp only
  by_cases h0 : i = 0
  · simp [h0]
  rw [if_neg h0, if_neg h0]
  by_cases hend : n - i = 0
  · simp [hend]
  rw [if_neg hend]
  -- the byte behind the ESC says which sequence it is
  obtain ⟨k, hk⟩ := Nat.exists_eq_succ_of_ne_zero hend
  have hview : view mem i (n - i) = mem i :: view mem (i + 1) k := by
    rw [hk, Nat.succ_eq_add_one, Nat.add_comm, view_add, view_succ, view_zero]
    rfl
  have hrest : n - (i + 1) = k := by omega
  rw [hview] at hlast ⊢
  obtain ⟨hne, hlast⟩ := List.ne_and_not_mem_of_not_mem_cons hlast
  rw [hrest, hk, Pending.after_cons, Pending.next, if_neg hne.symm]
  split_ifs with hcsi hss3 hosc
  · rw [Pending.after_csi hlast]
    split <;> simp_all
  · rw [Pending.after_ss3 hlast]
    cases k <;> simp [view]
  · rw [Pending.after_osc hlast]
    split <;> simp_all
  · simp [Pending.after_ground hlast]

/-! ## The loop, read by read -/

theorem gathered_cons (cap : Nat) (o : Offer) (offers : List Offer) :
    gathered cap (view mem 0 n) (o :: offers) =
      gathered cap (view mem 0 n ++ o.read (cap - n)) offers := by
  rw [gathered, List.foldl_cons, view_length]
  rfl

/-- The loop's condition, on the bytes it has. -/
theorem not_settled_iff (cap : Nat) : ¬ Settled cap (view mem 0 n) ↔
    0 < n ∧ n < cap ∧ n < escCoalesceMax ∧ endsInsideEscape mem n = true := by
  rw [endsInsideEscape_iff, Settled, view_length, not_or, not_or, not_not, not_le, not_le]
  constructor
  · rintro ⟨hin, hmax, hcap⟩
    refine ⟨Nat.pos_of_ne_zero ?_, hcap, hmax, hin⟩
    rintro rfl
    exact hin rfl
  · rintro ⟨-, hcap, hmax, hin⟩
    exact ⟨hin, hmax, hcap⟩

/-- Nothing is read where the bytes are enough, or where nothing comes. -/
theorem coalesced_zero {cap : Nat} {offers : List Offer}
    (h : Settled cap (view mem 0 n) ∨ ∀ o, offers[0]? = some o → ¬ o.Adds cap (view mem 0 n)) :
    Coalesced cap (view mem 0 n) offers 0 (view mem 0 n) where
  joined := rfl
  further j hj := absurd hj (Nat.not_lt_zero j)
  stopped := h

theorem Coalesced.cons {cap k : Nat} {o : Offer} {offers : List Offer} {bytes : List UInt8}
    (hgo : ¬ Settled cap (view mem 0 n)) (ho : o.Adds cap (view mem 0 n))
    (h : Coalesced cap (view mem 0 n ++ o.read (cap - n)) offers k bytes) :
    Coalesced cap (view mem 0 n) (o :: offers) (k + 1) bytes where
  joined := by
    rw [List.take_succ_cons, gathered_cons]
    exact h.joined
  further := by
    intro j hj
    cases j with
    | zero => exact ⟨hgo, o, rfl, ho⟩
    | succ j =>
      rw [List.take_succ_cons, gathered_cons]
      exact h.further j (Nat.lt_of_succ_lt_succ hj)
  stopped := h.stopped

theorem coalesce_coalesced {cap : Nat} (offers : List Offer) (hn : n ≤ cap) :
    ∃ k mem' n', coalesceConsoleEscape cap offers mem n = (mem', n') ∧
      Coalesced cap (view mem 0 n) offers k (view mem' 0 n') ∧ n' ≤ cap ∧
      ∀ i, cap ≤ i → mem' i = mem i := by
  induction offers generalizing mem n with
  | nil =>
    refine ⟨0, mem, n, rfl, coalesced_zero (Or.inr fun o ho => ?_), hn, fun _ _ => rfl⟩
    cases ho
  | cons o offers ih =>
    rw [coalesceConsoleEscape]
    split_ifs with hgo hready
    · -- the poll times out
      refine ⟨0, mem, n, rfl, coalesced_zero (Or.inr fun o' ho' => ?_), hn, fun _ _ => rfl⟩
      cases ho'
      rintro ⟨ht, -⟩
      rw [hready] at ht
      cases ht
    · have hroom := o.read_le (cap - n)
      by_cases hgot : o.read (cap - n) = []
      · refine ⟨0, mem, n, if_pos hgot, coalesced_zero (Or.inr fun o' ho' => ?_), hn, fun _ _ => rfl⟩
        cases ho'
        rintro ⟨-, hread⟩
        rw [view_length] at hread
        exact hread hgot
      · obtain ⟨k, mem', n', heq, hc, hn', hframe⟩ :=
          @ih (blit mem n (o.read (cap - n))) (n + (o.read (cap - n)).length) (by omega)
        have hview := view_blit_append (m := mem) (a := 0) (n := n) (o.read (cap - n))
        rw [Nat.zero_add] at hview
        rw [hview] at hc
        have hadds : o.Adds cap (view mem 0 n) := by
          rw [Offer.Adds, view_length]
          exact ⟨by simpa using hready, hgot⟩
        refine ⟨k + 1, mem', n', (if_neg hgot).trans heq, hc.cons ((not_settled_iff cap).mpr hgo) hadds,
          hn', fun i hi => ?_⟩
        rw [hframe i hi, blit_of_ge (by omega)]
    · refine ⟨0, mem, n, rfl, coalesced_zero (Or.inl ?_), hn, fun _ _ => rfl⟩
      by_contra hsettled
      exact hgo ((not_settled_iff cap).mp hsettled)

/-- **Escape coalescing.** The check is that of the parser, and the loop returns the reads in order
until they are enough. -/
theorem escapes_coalesced :
    (∀ mem n, endsInsideEscape mem n = true ↔ Unfinished (view mem 0 n)) ∧
      ∀ cap offers mem n, n ≤ cap →
        ∃ k mem' n', coalesceConsoleEscape cap offers mem n = (mem', n') ∧
          Coalesced cap (view mem 0 n) offers k (view mem' 0 n') ∧ n' ≤ cap ∧
          ∀ i, cap ≤ i → mem' i = mem i :=
  ⟨endsInsideEscape_iff, fun _ offers _ _ hn => coalesce_coalesced offers hn⟩

/-- A console that hands out one byte in a turn. -/
def Offer.byte (b : UInt8) : Offer := ⟨true, fun room => [b].take room, fun _ => List.length_take_le _ _⟩

/-- An arrow key behind its ESC, and a key typed later. -/
theorem escapes_coalesced_arrow :
    1 ≤ 32 ∧ ∃ k mem' n',
      coalesceConsoleEscape 32 [.byte 0x5b, .byte 0x41, .byte 0x78] (fun _ => escape) 1 = (mem', n') ∧
        Coalesced 32 (view (fun _ => escape) 0 1) [.byte 0x5b, .byte 0x41, .byte 0x78] k
          (view mem' 0 n') ∧ n' ≤ 32 ∧ ∀ i, 32 ≤ i → mem' i = escape :=
  ⟨by decide, escapes_coalesced.2 _ _ _ _ (by decide)⟩

end ApeShim.Console
