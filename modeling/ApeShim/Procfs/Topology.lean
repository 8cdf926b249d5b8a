import ApeShim.Lib.Bytes
import ApeShim.Lib.Orbit
import Mathlib.Data.FinEnum

/-!
Which core and package a processor belongs to (`shim/procfs/power.c`): NT's processor relationship
records, walked twice. A read past the reported length has no result.
-/

namespace ApeShim.Topology
open Bytes Orbit

/-! ## The walk -/

/-- What `GetLogicalProcessorInformationEx` has put into `buf`, as long as it says. -/
structure Buffer where
  bytes : List UInt8
  fits : bytes.length ≤ 65536

def Buffer.len (b : Buffer) : UInt32 := UInt32.ofNat b.bytes.length

/-- One of the two arrays, and `n`. -/
structure Tally where
  ids : Nat → UInt8
  n : Nat

/-- The body of the loop over the processors of a mask. -/
def markBit (num mask : Nat) (w : Tally) (c : Nat) : Tally :=
  if mask.testBit c then ⟨Function.update w.ids c (UInt8.ofNat num), max w.n (c + 1)⟩ else w

def mark (cap num mask : Nat) (w : Tally) : Tally := (List.range cap).foldl (markBit num mask) w

/-- The group's affinity at `ga`. -/
def group (b : Buffer) (cap num : Nat) (w : Tally) (ga : Nat) : Option Tally := do
  let number ← word? 2 b.bytes (ga + 8)
  if number ≠ 0 then some w
  else
    let mask ← word? 8 b.bytes ga
    some (mark cap num mask w)

/-- Where the record at `off` has its `g`th affinity. -/
def affinity (off g : Nat) : Nat := off + 8 + 24 + g * 16

/-- A record of the relation that is looked for. -/
def record (b : Buffer) (cap num off : Nat) (w : Tally) : Option Tally := do
  let groups ← word? 2 b.bytes (off + 8 + 22)
  (List.range groups).foldlM (fun w g => group b cap num w (affinity off g)) w

/-- `ncore` or `npkg`, with what is tallied. -/
structure Count where
  num : Nat
  tally : Tally

/-- `if (r == rel) ..` -/
def visit (b : Buffer) (cap rel off : Nat) (w : Count) : Option Count := do
  let r ← word? 4 b.bytes off
  if r = rel then (record b cap w.num off w.tally).map fun t => ⟨w.num + 1, t⟩ else some w

/-- A pass of the loop from `off` on; so many turns are enough, or there is no result. -/
def pass (b : Buffer) (cap rel : Nat) : Nat → UInt32 → Count → Option Count
  | 0, _, _ => none
  | fuel + 1, off, w =>
    if off + 32 ≤ b.len then do
      let size ← (word? 4 b.bytes (off.toNat + 4)).map UInt32.ofNat
      if size = 0 ∨ b.len < off + size then some w
      else
        let w ← visit b cap rel off.toNat w
        pass b cap rel fuel (off + size) w
    else some w

/-- What `pfs_cpu_topology` returns and fills in. -/
structure Answer where
  n : Nat
  coreid : Nat → UInt8
  pkgid : Nat → UInt8

/-- `pfs_cpu_topology` -/
def pfsCpuTopology (b : Buffer) (cap fuel : Nat) : Option Answer := do
  let cap := min cap 64
  let cores ← pass b cap 0 fuel 0 ⟨0, fun _ => 0, 0⟩
  let pkgs ← pass b cap 3 fuel 0 ⟨0, fun _ => 0, cores.tally.n⟩
  some ⟨if cores.num ≠ 0 then pkgs.tally.n else 0, cores.tally.ids, pkgs.tally.ids⟩

/-! ## What it is for -/

/-- The fields of the record at `off`. -/
def relOf (b : Buffer) (off : UInt32) : Nat := word 4 b.bytes off.toNat

def sizeOf (b : Buffer) (off : UInt32) : UInt32 := UInt32.ofNat (word 4 b.bytes (off.toNat + 4))

def groupsOf (b : Buffer) (off : UInt32) : Nat := word 2 b.bytes (off.toNat + 8 + 22)

/-- The record behind the one at `off`, if there is one at `off`. -/
def next (b : Buffer) (off : UInt32) : Option UInt32 :=
  if off + 32 ≤ b.len ∧ sizeOf b off ≠ 0 ∧ off + sizeOf b off ≤ b.len then some (off + sizeOf b off)
  else none

/-- The record names processor `c` of group 0. -/
def covers (b : Buffer) (c : Nat) (off : UInt32) : Bool :=
  (List.range (groupsOf b off)).any fun g =>
    word 2 b.bytes (affinity off.toNat g + 8) = 0 && (word 8 b.bytes (affinity off.toNat g)).testBit c

/-- The number of the last that has a property. -/
def lastNumber {α : Type*} (p : α → Bool) : List α → Option Nat
  | [] => none
  | x :: l => (lastNumber p l).map (· + 1) <|> if p x then some 0 else none

/-- The records of a relation. -/
def ofRelation (b : Buffer) (rel : Nat) (l : List UInt32) : List UInt32 :=
  l.filter fun off => relOf b off = rel

/-- Both passes end, read only what is reported, and number every processor. -/
def Sound (b : Buffer) (cap : Nat) : Prop :=
  ∃ fuel r l, pfsCpuTopology b cap fuel = some r ∧ Trail (next b) 0 l ∧ ∀ c < min cap 64,
    (r.coreid c).toNat = (lastNumber (covers b c) (ofRelation b 0 l)).getD 0 ∧
    (r.pkgid c).toNat = (lastNumber (covers b c) (ofRelation b 3 l)).getD 0

/-- The sizes never lead back to a record; the groups that a core or package record counts are
reported; and no processor is left with a number above 255. -/
structure Orderly (b : Buffer) (cap : Nat) : Prop where
  onward : Onward (next b) 0
  inside : ∀ k off, after (next b) k 0 = some off → next b off ≠ none →
    (relOf b off = 0 ∨ relOf b off = 3) → ∀ g < groupsOf b off,
      affinity off.toNat g + 10 ≤ b.bytes.length
  small : ∀ l, Trail (next b) 0 l → ∀ c < min cap 64, ∀ rel, (rel = 0 ∨ rel = 3) →
    ∀ i, lastNumber (covers b c) (ofRelation b rel l) = some i → i < 256

/-! ## One record -/

section Record

variable {b : Buffer} {cap num off : Nat} {w w' : Tally}

theorem markBit_ids (num mask : Nat) (w : Tally) (c i : Nat) : (markBit num mask w c).ids i =
    if i = c ∧ mask.testBit c = true then UInt8.ofNat num else w.ids i := by
  rw [markBit]
  by_cases hbit : mask.testBit c = true
  · rw [if_pos hbit]
    by_cases hi : i = c
    · subst hi
      rw [if_pos ⟨rfl, hbit⟩]
      exact Function.update_self _ _ _
    · rw [if_neg fun h => hi h.1]
      exact Function.update_of_ne hi _ _
  · rw [if_neg hbit, if_neg fun h => hbit h.2]

theorem mark_ids (cap num mask : Nat) (w : Tally) (i : Nat) : (mark cap num mask w).ids i =
    if i < cap ∧ mask.testBit i = true then UInt8.ofNat num else w.ids i := by
  induction cap with
  | zero => exact (if_neg fun h => absurd h.1 (Nat.not_lt_zero i)).symm
  | succ cap ih =>
    rw [mark, List.range_succ, List.foldl_append, List.foldl_cons, List.foldl_nil, markBit_ids, ← mark,
      ih]
    by_cases hi : i = cap
    · subst hi
      by_cases hbit : mask.testBit i = true <;> simp [hbit]
    · have hlt : i < cap + 1 ↔ i < cap := by omega
      simp only [hi, false_and, if_false, hlt]

/-- A group is read if it is reported as far as its number. -/
theorem group_some {ga : Nat} (h : ga + 10 ≤ b.bytes.length) :
    ∃ w', group b cap num w ga = some w' ∧ ∀ i, w'.ids i =
      if i < cap ∧ word 2 b.bytes (ga + 8) = 0 ∧ (word 8 b.bytes ga).testBit i = true then
        UInt8.ofNat num
      else w.ids i := by
  rw [group, word?_eq (by omega), word?_eq (by omega)]
  simp only [Option.bind_eq_bind, Option.bind_some]
  by_cases hnum : word 2 b.bytes (ga + 8) = 0
  · rw [if_neg (not_not_intro hnum)]
    refine ⟨_, rfl, fun i => ?_⟩
    simp only [mark_ids, hnum, true_and]
  · rw [if_pos hnum]
    refine ⟨w, rfl, fun i => ?_⟩
    simp only [hnum, false_and, and_false, if_false]

theorem group_none {ga : Nat} (h : group b cap num w ga ≠ none) : ga + 10 ≤ b.bytes.length := by
  by_contra hlen
  apply h
  rw [group, word?, if_neg (by omega)]
  rfl

/-- The groups one after the other. -/
theorem groups_some (n : Nat) (h : ∀ g < n, affinity off g + 10 ≤ b.bytes.length) (w : Tally) :
    ∃ w', (List.range n).foldlM (fun w g => group b cap num w (affinity off g)) w = some w' ∧
      ∀ i, w'.ids i = if i < cap ∧ ((List.range n).any fun g =>
          word 2 b.bytes (affinity off g + 8) = 0 && (word 8 b.bytes (affinity off g)).testBit i) = true
        then UInt8.ofNat num else w.ids i := by
  induction n with
  | zero => exact ⟨w, rfl, fun i => by simp⟩
  | succ n ih =>
    obtain ⟨w1, hw1, hids1⟩ := ih fun g hg => h g (by omega)
    obtain ⟨w2, hw2, hids2⟩ := @group_some b cap num w1 _ (h n (by omega))
    refine ⟨w2, ?_, fun i => ?_⟩
    · rw [List.range_succ, List.foldlM_append, hw1]
      simp only [Option.bind_eq_bind, Option.bind_some, List.foldlM_cons, List.foldlM_nil, hw2]
      rfl
    · rw [hids2, hids1, List.range_succ, List.any_append, List.any_cons, List.any_nil]
      by_cases hi : i < cap
      · simp only [hi, true_and, Bool.or_false, Bool.or_eq_true, Bool.and_eq_true, decide_eq_true_eq]
        split_ifs <;> tauto
      · simp only [hi, false_and, if_false]

theorem groups_none {n : Nat} {w : Tally}
    (h : (List.range n).foldlM (fun w g => group b cap num w (affinity off g)) w ≠ none) :
    ∀ g < n, affinity off g + 10 ≤ b.bytes.length := by
  induction n with
  | zero => exact fun g hg => absurd hg (Nat.not_lt_zero g)
  | succ n ih =>
    rw [List.range_succ, List.foldlM_append] at h
    cases hfold : (List.range n).foldlM (fun w g => group b cap num w (affinity off g)) w with
    | none =>
      rw [hfold] at h
      exact absurd rfl h
    | some w1 =>
      rw [hfold] at h
      have hlast : group b cap num w1 (affinity off n) ≠ none := by
        intro hnone
        apply h
        simp only [Option.bind_eq_bind, Option.bind_some, List.foldlM_cons, List.foldlM_nil, hnone,
          Option.bind_none]
      intro g hg
      rcases Nat.lt_succ_iff_lt_or_eq.mp hg with hg | rfl
      · exact ih (by rw [hfold]; exact Option.some_ne_none w1) g hg
      · exact group_none hlast

/-- A record is read if its groups are. -/
theorem record_some {at_ : UInt32} (hin : at_.toNat + 32 ≤ b.bytes.length)
    (h : ∀ g < groupsOf b at_, affinity at_.toNat g + 10 ≤ b.bytes.length) :
    ∃ w', record b cap num at_.toNat w = some w' ∧ ∀ i, w'.ids i =
      if i < cap ∧ covers b i at_ = true then UInt8.ofNat num else w.ids i := by
  obtain ⟨w', hw', hids⟩ := @groups_some b cap num at_.toNat _ h w
  refine ⟨w', ?_, hids⟩
  rw [record, word?_eq (by omega)]
  exact hw'

theorem record_none {at_ : UInt32} (hin : at_.toNat + 32 ≤ b.bytes.length)
    (h : record b cap num at_.toNat w ≠ none) :
    ∀ g < groupsOf b at_, affinity at_.toNat g + 10 ≤ b.bytes.length := by
  rw [record, word?_eq (by omega)] at h
  exact groups_none h

end Record

/-! ## The records in turn -/

section Visits

variable {b : Buffer} {cap rel : Nat} {off : UInt32} {w w' : Count} {l : List UInt32}

theorem visit_some (hin : off.toNat + 32 ≤ b.bytes.length) (hrel : relOf b off = rel) :
    visit b cap rel off.toNat w =
      (record b cap w.num off.toNat w.tally).map fun t => ⟨w.num + 1, t⟩ := by
  rw [visit, word?_eq (by omega)]
  exact if_pos hrel

theorem visit_other (hin : off.toNat + 32 ≤ b.bytes.length) (hrel : relOf b off ≠ rel) :
    visit b cap rel off.toNat w = some w := by
  rw [visit, word?_eq (by omega)]
  exact if_neg hrel

def visits (b : Buffer) (cap rel : Nat) (l : List UInt32) (w : Count) : Option Count :=
  l.foldlM (fun w off => visit b cap rel off.toNat w) w

theorem visits_cons : visits b cap rel (off :: l) w =
    (visit b cap rel off.toNat w).bind (visits b cap rel l) := List.foldlM_cons

/-- All records of the relation have their groups in the buffer. -/
theorem visits_some (hin : ∀ off ∈ l, off.toNat + 32 ≤ b.bytes.length) (w : Count) :
    visits b cap rel l w ≠ none ↔ ∀ off ∈ l, relOf b off = rel → ∀ g < groupsOf b off,
      affinity off.toNat g + 10 ≤ b.bytes.length := by
  induction l generalizing w with
  | nil => simp [visits]
  | cons off l ih =>
    rw [List.forall_mem_cons] at hin
    rw [visits_cons, List.forall_mem_cons]
    by_cases hrel : relOf b off = rel
    · rw [visit_some hin.1 hrel]
      cases hrec : record b cap w.num off.toNat w.tally with
      | none =>
        refine iff_of_false (fun h => h rfl) fun h => ?_
        obtain ⟨w', hw', -⟩ := @record_some b cap w.num w.tally off hin.1 (h.1 hrel)
        rw [hrec] at hw'
        cases hw'
      | some t =>
        have hgroups := @record_none b cap w.num w.tally off hin.1 (by rw [hrec]; exact Option.some_ne_none t)
        rw [Option.map_some, Option.bind_some, ih hin.2]
        exact ⟨fun h => ⟨fun _ => hgroups, h⟩, fun h => h.2⟩
    · rw [visit_other hin.1 hrel, Option.bind_some, ih hin.2]
      exact ⟨fun h => ⟨fun hr => absurd hr hrel, h⟩, fun h => h.2⟩

/-- A processor ends up with the number of the last record that covers it. -/
theorem visits_ids (hin : ∀ off ∈ l, off.toNat + 32 ≤ b.bytes.length)
    (h : visits b cap rel l w = some w') {i : Nat} (hi : i < cap) : w'.tally.ids i =
      (lastNumber (covers b i) (ofRelation b rel l)).elim (w.tally.ids i)
        fun k => UInt8.ofNat (w.num + k) := by
  induction l generalizing w with
  | nil =>
    cases h
    rfl
  | cons off l ih =>
    rw [List.forall_mem_cons] at hin
    rw [visits_cons] at h
    obtain ⟨w1, hw1, hrest⟩ := Option.bind_eq_some_iff.mp h
    rw [ih hin.2 hrest]
    by_cases hrel : relOf b off = rel
    · rw [visit_some hin.1 hrel] at hw1
      obtain ⟨t, ht, rfl⟩ := Option.map_eq_some_iff.mp hw1
      have hgroups := @record_none b cap w.num w.tally off hin.1 (by rw [ht]; exact Option.some_ne_none t)
      obtain ⟨t', ht', hids⟩ := @record_some b cap w.num w.tally off hin.1 hgroups
      rw [ht] at ht'
      cases ht'
      have hcons : ofRelation b rel (off :: l) = off :: ofRelation b rel l :=
        List.filter_cons_of_pos (by simpa using hrel)
      rw [hcons, lastNumber]
      cases lastNumber (covers b i) (ofRelation b rel l) with
      | some k =>
        change UInt8.ofNat (w.num + 1 + k) = UInt8.ofNat (w.num + (k + 1))
        rw [Nat.add_assoc, Nat.add_comm 1]
      | none =>
        change t.ids i = _
        rw [hids]
        by_cases hc : covers b i off = true
        · rw [if_pos ⟨hi, hc⟩, if_pos hc]
          rfl
        · rw [if_neg fun h => hc h.2, if_neg hc]
          rfl
    · rw [visit_other hin.1 hrel] at hw1
      cases hw1
      have hcons : ofRelation b rel (off :: l) = ofRelation b rel l :=
        List.filter_cons_of_neg (by simpa using hrel)
      rw [hcons]

end Visits

/-! ## A pass -/

section Pass

variable {b : Buffer} {cap rel : Nat} {off : UInt32} {w w' : Count} {l : List UInt32}

theorem len_toNat (b : Buffer) : b.len.toNat = b.bytes.length := by
  have := b.fits
  rw [Buffer.len, UInt32.toNat_ofNat']
  exact Nat.mod_eq_of_lt (by omega)

/-- No offset up to the length overflows. -/
theorem header_inside (hoff : off ≤ b.len) (h : off + 32 ≤ b.len) :
    off.toNat + 32 ≤ b.bytes.length := by
  have := b.fits
  rw [UInt32.le_iff_toNat_le, len_toNat] at hoff h
  rw [UInt32.toNat_add] at h
  have h32 : (32 : UInt32).toNat = 32 := rfl
  omega

theorem next_some {t : UInt32} (h : next b off = some t) :
    off + 32 ≤ b.len ∧ sizeOf b off ≠ 0 ∧ t = off + sizeOf b off ∧ t ≤ b.len := by
  rw [next] at h
  split at h
  · rename_i hgo
    cases h
    exact ⟨hgo.1, hgo.2.1, rfl, hgo.2.2⟩
  · cases h

/-- The headers on a trail are in the buffer. -/
theorem trail_inside (h : Trail (next b) off l) (hoff : off ≤ b.len) :
    ∀ t ∈ l, t.toNat + 32 ≤ b.bytes.length := by
  induction h with
  | stop hs => exact fun t ht => absurd ht List.not_mem_nil
  | step hs _ ih =>
    obtain ⟨hhead, -, -, hle⟩ := next_some hs
    exact List.forall_mem_cons.mpr ⟨header_inside hoff hhead, ih hle⟩

/-- **A pass** visits the records one after the other, if they come to an end. -/
theorem pass_iff (fuel : Nat) (hoff : off ≤ b.len) : pass b cap rel fuel off w = some w' ↔
    ∃ l, l.length < fuel ∧ Trail (next b) off l ∧ visits b cap rel l w = some w' := by
  induction fuel generalizing off w with
  | zero => exact iff_of_false nofun fun ⟨l, hl, _⟩ => absurd hl (Nat.not_lt_zero _)
  | succ fuel ih =>
    rw [pass]
    have hstop : next b off = none → (some w = some w' ↔ ∃ l, l.length < fuel + 1 ∧
        Trail (next b) off l ∧ visits b cap rel l w = some w') := by
      intro hnext
      constructor
      · intro hw
        exact ⟨[], Nat.succ_pos _, .stop hnext, hw⟩
      · rintro ⟨l, -, hl, hv⟩
        cases hl with
        | stop => exact hv
        | step hs => rw [hnext] at hs; cases hs
    by_cases hhead : off + 32 ≤ b.len
    · have hin := header_inside hoff hhead
      rw [if_pos hhead, word?_eq (by omega)]
      simp only [Option.map_some, Option.bind_eq_bind, Option.bind_some]
      change (if sizeOf b off = 0 ∨ b.len < off + sizeOf b off then some w
        else (visit b cap rel off.toNat w).bind (pass b cap rel fuel (off + sizeOf b off))) = some w' ↔ _
      split
      · rename_i hbreak
        refine hstop (if_neg fun hgo => ?_)
        rcases hbreak with h0 | hlt
        · exact hgo.2.1 h0
        · exact absurd hlt (UInt32.not_lt.mpr hgo.2.2)
      · rename_i hgo
        rw [not_or, UInt32.not_lt] at hgo
        have hnext : next b off = some (off + sizeOf b off) := if_pos ⟨hhead, hgo⟩
        constructor
        · intro h
          obtain ⟨w1, hw1, hrest⟩ := Option.bind_eq_some_iff.mp h
          obtain ⟨l, hlen, hl, hv⟩ := (ih hgo.2).mp hrest
          refine ⟨off :: l, Nat.succ_lt_succ hlen, .step hnext hl, ?_⟩
          rw [visits_cons, hw1]
          exact hv
        · rintro ⟨l, hlen, hl, hv⟩
          cases hl with
          | stop hs => rw [hnext] at hs; cases hs
          | step hs hrest =>
            rw [hnext] at hs
            cases hs
            rw [visits_cons] at hv
            obtain ⟨w1, hw1, hv1⟩ := Option.bind_eq_some_iff.mp hv
            rw [hw1]
            exact (ih hgo.2).mpr ⟨_, Nat.lt_of_succ_lt_succ hlen, hrest, hv1⟩
    · rw [if_neg hhead]
      exact hstop (if_neg fun hgo => hhead hgo.1)

/-- Both passes see the same records. -/
theorem topology_iff {fuel : Nat} {r : Answer} : pfsCpuTopology b cap fuel = some r ↔
    ∃ l cores pkgs, l.length < fuel ∧ Trail (next b) 0 l ∧
      visits b (min cap 64) 0 l ⟨0, fun _ => 0, 0⟩ = some cores ∧
      visits b (min cap 64) 3 l ⟨0, fun _ => 0, cores.tally.n⟩ = some pkgs ∧
      r = ⟨if cores.num ≠ 0 then pkgs.tally.n else 0, cores.tally.ids, pkgs.tally.ids⟩ := by
  have h0 : (0 : UInt32) ≤ b.len := UInt32.zero_le
  rw [pfsCpuTopology]
  constructor
  · intro h
    obtain ⟨cores, hcores, h⟩ := Option.bind_eq_some_iff.mp h
    obtain ⟨pkgs, hpkgs, h⟩ := Option.bind_eq_some_iff.mp h
    obtain ⟨l, hlen, hl, hv⟩ := (pass_iff fuel h0).mp hcores
    obtain ⟨l', -, hl', hv'⟩ := (pass_iff fuel h0).mp hpkgs
    cases hl'.unique hl
    exact ⟨l, cores, pkgs, hlen, hl, hv, hv', (Option.some.inj h).symm⟩
  · rintro ⟨l, cores, pkgs, hlen, hl, hv, hv', rfl⟩
    have hcores := (pass_iff fuel h0).mpr ⟨l, hlen, hl, hv⟩
    have hpkgs := (pass_iff fuel h0).mpr ⟨l, hlen, hl, hv'⟩
    simp only [Option.bind_eq_bind, hcores, Option.bind_some, hpkgs]

end Pass

section Exact

variable {b : Buffer} {cap : Nat}

/-- The number that a byte has room for. -/
theorem toNat_number (o : Option Nat) :
    (o.elim 0 fun k => UInt8.ofNat (0 + k)).toNat = o.getD 0 ↔ ∀ i, o = some i → i < 256 := by
  cases o with
  | none => exact iff_of_true rfl nofun
  | some k =>
    rw [Option.elim_some, Nat.zero_add, UInt8.toNat_ofNat', Option.getD_some]
    constructor
    · rintro h i ⟨⟩
      omega
    · intro h
      exact Nat.mod_eq_of_lt (h k rfl)

theorem Sound.onward (h : Sound b cap) : Onward (next b) 0 := by
  obtain ⟨-, -, l, -, hl, -⟩ := h
  exact hl.onward

theorem Sound.inside (h : Sound b cap) {k : Nat} {off : UInt32} (hk : after (next b) k 0 = some off)
    (hnext : next b off ≠ none) (hrel : relOf b off = 0 ∨ relOf b off = 3) {g : Nat}
    (hg : g < groupsOf b off) : affinity off.toNat g + 10 ≤ b.bytes.length := by
  obtain ⟨fuel, r, -, hr, -⟩ := h
  obtain ⟨l, cores, pkgs, -, hl, hcores, hpkgs, -⟩ := topology_iff.mp hr
  have hin := trail_inside hl UInt32.zero_le
  have hmem := hl.mem_iff.mpr ⟨⟨k, hk⟩, hnext⟩
  rcases hrel with hrel | hrel
  · exact (visits_some hin _).mp (by rw [hcores]; exact Option.some_ne_none cores) off hmem hrel g hg
  · exact (visits_some hin _).mp (by rw [hpkgs]; exact Option.some_ne_none pkgs) off hmem hrel g hg

/-- **The walk is sound exactly on these buffers.** -/
theorem topology_sound_iff (b : Buffer) (cap : Nat) : Sound b cap ↔ Orderly b cap := by
  constructor
  · intro h
    refine ⟨h.onward, fun k off hk hnext hrel g hg => h.inside hk hnext hrel hg, ?_⟩
    obtain ⟨fuel, r, l, hr, hl, hids⟩ := h
    obtain ⟨l1, cores, pkgs, -, hl1, hcores, hpkgs, rfl⟩ := topology_iff.mp hr
    cases hl1.unique hl
    have hin := trail_inside hl UInt32.zero_le
    intro l' hl' c hc rel hrel
    cases hl'.unique hl
    obtain ⟨hcore, hpkg⟩ := hids c hc
    dsimp only at hcore hpkg
    rw [visits_ids hin hcores hc] at hcore
    rw [visits_ids hin hpkgs hc] at hpkg
    rcases hrel with rfl | rfl
    · exact (toNat_number _).mp hcore
    · exact (toNat_number _).mp hpkg
  · intro h
    obtain ⟨l, hl⟩ := exists_trail_iff.mpr h.onward
    have hin := trail_inside hl UInt32.zero_le
    have hgroups : ∀ rel, rel = 0 ∨ rel = 3 → ∀ off ∈ l, relOf b off = rel →
        ∀ g < groupsOf b off, affinity off.toNat g + 10 ≤ b.bytes.length := by
      intro rel hrel off hoff heq
      obtain ⟨⟨k, hk⟩, hnext⟩ := hl.mem_iff.mp hoff
      exact h.inside k off hk hnext (heq ▸ hrel)
    obtain ⟨cores, hcores⟩ := Option.ne_none_iff_exists'.mp
      ((@visits_some b (min cap 64) _ _ hin ⟨0, fun _ => 0, 0⟩).mpr (hgroups 0 (Or.inl rfl)))
    obtain ⟨pkgs, hpkgs⟩ := Option.ne_none_iff_exists'.mp
      ((@visits_some b (min cap 64) _ _ hin ⟨0, fun _ => 0, cores.tally.n⟩).mpr (hgroups 3 (Or.inr rfl)))
    refine ⟨l.length + 1, _, l,
      topology_iff.mpr ⟨l, cores, pkgs, Nat.lt_succ_self _, hl, hcores, hpkgs, rfl⟩, hl, ?_⟩
    intro c hc
    dsimp only
    rw [visits_ids hin hcores hc, visits_ids hin hpkgs hc]
    exact ⟨(toNat_number _).mpr (h.small l hl c hc 0 (Or.inl rfl)),
      (toNat_number _).mpr (h.small l hl c hc 3 (Or.inr rfl))⟩

end Exact

/-- The second record's size leads back to the first. -/
def backBuffer : Buffer where
  bytes := [1, 0, 0, 0, 32, 0, 0, 0] ++ List.replicate 24 0 ++ [1, 0, 0, 0, 0xe0, 0xff, 0xff, 0xff] ++
    List.replicate 24 0
  fits := by decide

/-- A core record of 32 bytes that counts a group. -/
def groupBuffer : Buffer where
  bytes := [0, 0, 0, 0, 32, 0, 0, 0] ++ List.replicate 22 0 ++ [1, 0]
  fits := by decide

theorem topology_unsound : (∀ fuel, pfsCpuTopology backBuffer 64 fuel = none) ∧
    ¬ Sound backBuffer 64 ∧ ¬ Sound groupBuffer 64 := by
  have hback : ¬ Onward (next backBuffer) 0 := fun h =>
    absurd (h 0 2 0 rfl (by decide)) (by decide)
  refine ⟨fun fuel => ?_, fun h => hback h.onward, fun h => ?_⟩
  · by_contra hne
    obtain ⟨r, hr⟩ := Option.ne_none_iff_exists'.mp hne
    obtain ⟨l, -, -, -, hl, -⟩ := topology_iff.mp hr
    exact hback hl.onward
  · have hin := @Sound.inside _ _ h 0 0 rfl (by decide) (Or.inl (by decide)) 0 (by decide)
    exact absurd hin (by decide)

end ApeShim.Topology
