import ApeShim.Lib.Flags

/-!
One set of flag names with two numberings: a fixed one, where each name has a bit of its
own, and a host's, where a name is any word at all. `toHost` and `toLin` are the C loops
that translate between them.
-/

namespace Flags

variable {w : Nat} {ι : Type*}

/-- `for (..) if (x) e |= m`, over a table of names. -/
def gather (x : ι → Bool) (m : ι → BitVec w) (ns : List ι) : BitVec w :=
  ns.foldl (fun e n => raise (x n) (m n) e) 0#w

theorem has_foldl_raise (x : ι → Bool) (m : ι → BitVec w) (ns : List ι) (e y : BitVec w) :
    has (ns.foldl (fun e n => raise (x n) (m n) e) e) y = true ↔
      has e y = true ∨ ∃ n ∈ ns, x n = true ∧ has (m n) y = true := by
  induction ns generalizing e with
  | nil => simp
  | cons n ns ih =>
    rw [List.foldl_cons, ih]
    simp only [has_raise, Bool.or_eq_true, Bool.and_eq_true, List.mem_cons, exists_eq_or_imp]
    exact or_assoc

theorem has_gather {x : ι → Bool} {m : ι → BitVec w} {ns : List ι} {y : BitVec w} :
    has (gather x m ns) y = true ↔ ∃ n ∈ ns, x n = true ∧ has (m n) y = true := by
  rw [gather, has_foldl_raise]
  simp

theorem getLsbD_gather {x : ι → Bool} {m : ι → BitVec w} {ns : List ι} {i : Nat} :
    (gather x m ns).getLsbD i = true ↔ ∃ n ∈ ns, x n = true ∧ (m n).getLsbD i = true := by
  simp only [← has_twoPow, has_gather]

/-- The rows of a field are all that is gathered there. -/
theorem gather_and {x p : ι → Bool} {m : ι → BitVec w} {ns : List ι} {y : BitVec w}
    (hin : ∀ n ∈ ns, p n = true → within (m n) y = true)
    (hout : ∀ n ∈ ns, p n = false → has (m n) y = false) :
    gather x m ns &&& y = gather (fun n => x n && p n) m ns := by
  refine BitVec.eq_of_getLsbD_eq fun i _ => Bool.eq_iff_iff.mpr ?_
  rw [BitVec.getLsbD_and, Bool.and_eq_true, getLsbD_gather, getLsbD_gather]
  constructor
  · rintro ⟨⟨n, hn, hx, hm⟩, hy⟩
    refine ⟨n, hn, ?_, hm⟩
    cases hp : p n with
    | true => rw [hx]; rfl
    | false =>
      have hfalse := has_eq_false_iff.mp (hout n hn hp) i hm
      rw [hy] at hfalse
      cases hfalse
  · rintro ⟨n, hn, hx, hm⟩
    rw [Bool.and_eq_true] at hx
    exact ⟨⟨n, hn, hx.1, hm⟩, within_iff.mp (hin n hn hx.2) i hm⟩

theorem gather_one {x : ι → Bool} {m : ι → BitVec w} {ns : List ι} {n : ι} (hn : n ∈ ns)
    (hx : ∀ k ∈ ns, x k = true ↔ k = n) : gather x m ns = m n := by
  refine BitVec.eq_of_getLsbD_eq fun i _ => Bool.eq_iff_iff.mpr ?_
  rw [getLsbD_gather]
  constructor
  · rintro ⟨k, hk, hxk, hm⟩
    rwa [← (hx k hk).mp hxk]
  · exact fun hm => ⟨n, hn, (hx n hn).mpr rfl, hm⟩

theorem gather_none {x : ι → Bool} {m : ι → BitVec w} {ns : List ι}
    (hx : ∀ k ∈ ns, x k = false) : gather x m ns = 0#w := by
  refine BitVec.eq_of_getLsbD_eq fun i _ => Bool.eq_iff_iff.mpr ?_
  rw [getLsbD_gather]
  constructor
  · rintro ⟨k, hk, hxk, -⟩
    exact absurd hxk (by rw [hx k hk]; decide)
  · intro hm
    simp at hm

theorem has_self_iff {x : BitVec w} : has x x = true ↔ x ≠ 0#w := by
  simp [has]

/-- A table of names, each with a bit of its own. -/
structure Naming (ι : Type*) (w : Nat) where
  names : List ι
  bit : ι → Nat
  complete : ∀ n, n ∈ names
  bound : ∀ n, bit n < w
  inj : Function.Injective bit

namespace Naming

variable (N : Naming ι w)

def flag (n : ι) : BitVec w := BitVec.twoPow w (N.bit n)

def toHost (k : ι → BitVec w) (lin : BitVec w) : BitVec w :=
  gather (fun n => has lin (N.flag n)) k N.names

/-- A name that is nothing on the host is never read back. -/
def toLin (k : ι → BitVec w) (host : BitVec w) : BitVec w :=
  gather (fun n => k n != 0#w && has host (k n)) N.flag N.names

/-- Only bits that have a name are set. -/
def Named (lin : BitVec w) : Prop := ∀ i, lin.getLsbD i = true → ∃ n, N.bit n = i

variable {N}

theorem has_flag {x : BitVec w} {n : ι} : has x (N.flag n) = true ↔ x.getLsbD (N.bit n) = true := by
  rw [has_iff]
  simp only [flag, BitVec.getLsbD_twoPow, Bool.and_eq_true, decide_eq_true_eq]
  constructor
  · rintro ⟨i, hx, _, rfl⟩
    exact hx
  · intro hx
    exact ⟨N.bit n, hx, N.bound n, rfl⟩

theorem has_flag_flag {j n : ι} : has (N.flag j) (N.flag n) = true ↔ j = n := by
  rw [has_flag, flag, BitVec.getLsbD_twoPow]
  simp only [Bool.and_eq_true, decide_eq_true_eq, N.bound, true_and]
  exact ⟨fun h => N.inj h, fun h => h ▸ rfl⟩

theorem has_toHost {k : ι → BitVec w} {lin y : BitVec w} :
    has (N.toHost k lin) y = true ↔ ∃ n, has lin (N.flag n) = true ∧ has (k n) y = true := by
  simp [toHost, has_gather, N.complete]

/-- A name is read back exactly when its host word is hit. -/
theorem has_toLin {k : ι → BitVec w} {host : BitVec w} {j : ι} :
    has (N.toLin k host) (N.flag j) = true ↔ has host (k j) = true := by
  simp only [toLin, has_gather, has_flag_flag, Bool.and_eq_true, bne_iff_ne, ne_eq]
  constructor
  · rintro ⟨n, _, ⟨_, hn⟩, rfl⟩
    exact hn
  · intro h
    refine ⟨j, N.complete j, ⟨?_, h⟩, rfl⟩
    intro hzero
    rw [hzero, has_comm, has_zero_left] at h
    cases h

theorem named_toLin (k : ι → BitVec w) (host : BitVec w) : N.Named (N.toLin k host) := by
  intro i hi
  have hbit : has (N.toLin k host) (BitVec.twoPow w i) = true :=
    has_iff.mpr ⟨i, hi, by simp [BitVec.lt_of_getLsbD hi]⟩
  obtain ⟨n, _, _, hn⟩ := has_gather.mp hbit
  obtain ⟨j, hj, hi'⟩ := has_iff.mp hn
  simp only [flag, BitVec.getLsbD_twoPow, Bool.and_eq_true, decide_eq_true_eq] at hj hi'
  exact ⟨n, hj.2.trans hi'.2.symm⟩

theorem Named.within_iff {x y : BitVec w} (hx : N.Named x) :
    within x y = true ↔ ∀ n, has x (N.flag n) = true → has y (N.flag n) = true := by
  rw [Flags.within_iff]
  simp only [has_flag]
  constructor
  · intro h n
    exact h (N.bit n)
  · intro h i hi
    obtain ⟨n, rfl⟩ := hx i hi
    exact h n hi

theorem toLin_mono {k : ι → BitVec w} {x y : BitVec w} (h : within x y = true) :
    within (N.toLin k x) (N.toLin k y) = true := by
  rw [(named_toLin k x).within_iff]
  intro n hn
  exact has_toLin.mpr (has_mono h (has_toLin.mp hn))

/-- A bit of a host word is a bit of one of its names. -/
theorem toHost_bit {k : ι → BitVec w} {lin : BitVec w} {i : Nat}
    (hi : (N.toHost k lin).getLsbD i = true) : ∃ n, (k n).getLsbD i = true := by
  have hhit : has (N.toHost k lin) (BitVec.twoPow w i) = true :=
    has_iff.mpr ⟨i, hi, by simp [BitVec.lt_of_getLsbD hi]⟩
  obtain ⟨n, _, hn⟩ := has_toHost.mp hhit
  obtain ⟨j, hj, hij⟩ := has_iff.mp hn
  simp only [BitVec.getLsbD_twoPow, Bool.and_eq_true, decide_eq_true_eq] at hij
  exact ⟨n, hij.2 ▸ hj⟩

theorem Named.ext_iff {x y : BitVec w} (hx : N.Named x) (hy : N.Named y) :
    x = y ↔ ∀ n, has x (N.flag n) = true ↔ has y (N.flag n) = true := by
  constructor
  · rintro rfl n
    exact Iff.rfl
  · intro h
    refine BitVec.eq_of_getLsbD_eq fun i _ => ?_
    have hxy : ∀ i, x.getLsbD i = true ↔ y.getLsbD i = true := by
      intro i
      constructor
      · intro hi
        obtain ⟨n, rfl⟩ := hx i hi
        exact has_flag.mp ((h n).mp (has_flag.mpr hi))
      · intro hi
        obtain ⟨n, rfl⟩ := hy i hi
        exact has_flag.mp ((h n).mpr (has_flag.mpr hi))
    exact Bool.eq_iff_iff.mpr (hxy i)

/-- A word survives the two translations exactly when each of its names is something on
the host and shares no host bit with a name it lacks. -/
theorem toLin_toHost_iff {k : ι → BitVec w} {lin : BitVec w} (hlin : N.Named lin) :
    N.toLin k (N.toHost k lin) = lin ↔
      ∀ n, has lin (N.flag n) = true →
        k n ≠ 0#w ∧ ∀ j, has lin (N.flag j) = false → has (k n) (k j) = false := by
  rw [(named_toLin k _).ext_iff hlin]
  simp only [has_toLin, has_toHost]
  constructor
  · intro h n hn
    constructor
    · intro hzero
      obtain ⟨m, _, hm⟩ := (h n).mpr hn
      rw [hzero, has_comm, has_zero_left] at hm
      cases hm
    · intro j hj
      cases hshare : has (k n) (k j) with
      | false => rfl
      | true =>
        have := (h j).mp ⟨n, hn, hshare⟩
        rw [hj] at this
        cases this
  · intro h j
    constructor
    · rintro ⟨n, hn, hshare⟩
      cases hj : has lin (N.flag j) with
      | true => rfl
      | false =>
        rw [(h n hn).2 j hj] at hshare
        cases hshare
    · intro hj
      exact ⟨j, hj, has_self_iff.mpr (h j hj).1⟩

end Naming

end Flags
