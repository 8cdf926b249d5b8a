import Mathlib.Data.List.Basic
import Mathlib.Logic.Function.Iterate

/-!
Readers of a fixed list: `next` hands out the entry a position stands before, if there is
one, and the position after it. What a reader has left, and seeking by reading again from
the start.
-/

namespace Cursor

variable {σ α : Type*}

/-- What the `n`th of the following reads returns. -/
def nth (next : σ → Option α × σ) : σ → Nat → Option α
  | s, 0 => (next s).1
  | s, n + 1 => nth next (next s).2 n

/-- `left` is what a reader still hands out, in order. -/
structure Reads (next : σ → Option α × σ) (ok : σ → Prop) (left : σ → List α) : Prop where
  head : ∀ s, ok s → (next s).1 = (left s).head?
  tail : ∀ s, ok s → left (next s).2 = (left s).tail
  keeps : ∀ s, ok s → ok (next s).2

variable {next : σ → Option α × σ} {ok : σ → Prop} {left : σ → List α}

theorem Reads.nth_eq (h : Reads next ok left) {s : σ} (hs : ok s) (n : Nat) :
    nth next s n = (left s)[n]? := by
  induction n generalizing s with
  | zero => rw [nth, h.head s hs, List.head?_eq_getElem?]
  | succ n ih => rw [nth, ih (h.keeps s hs), h.tail s hs, List.getElem?_tail]

/-- Two positions read alike exactly if the same is left at them. -/
theorem Reads.nth_eq_iff (h : Reads next ok left) {s s' : σ} (hs : ok s) (hs' : ok s') :
    (∀ n, nth next s n = nth next s' n) ↔ left s = left s' := by
  constructor
  · intro heq
    refine List.ext_getElem? fun n => ?_
    rw [← h.nth_eq hs, ← h.nth_eq hs', heq]
  · intro heq n
    rw [h.nth_eq hs, h.nth_eq hs', heq]

/-! ## Seeking by reading -/

/-- `while (tell < t) if (!next) break;` -/
def seekLoop (next : σ → Option α × σ) (tell : σ → Nat) (t : Int) : Nat → σ → σ
  | 0, s => s
  | fuel + 1, s =>
      if (tell s : Int) < t then
        match next s with
        | (none, s') => s'
        | (some _, s') => seekLoop next tell t fuel s'
      else s

/-- The count grows with every entry, up to where it stops; behind the last one a reader
stays where it is. -/
structure Counts (next : σ → Option α × σ) (tell : σ → Nat) (stop : Nat) : Prop where
  entry : ∀ s e s', next s = (some e, s') → tell s < tell s' ∧ tell s' ≤ stop
  moved : ∀ s s', next s = (none, s') → (tell s < tell s' ∧ tell s' ≤ stop) ∨ s' = s
  stays : ∀ s s', next s = (none, s') → next s' = (none, s')

def advance (next : σ → Option α × σ) (s : σ) : σ := (next s).2

variable {tell : σ → Nat} {stop : Nat}

theorem Counts.stays_iterate (h : Counts next tell stop) {s s' : σ} (hs : next s = (none, s'))
    (k : Nat) : (advance next)^[k] s' = s' := by
  induction k with
  | zero => rfl
  | succ k ih =>
    rw [Function.iterate_succ_apply, advance, h.stays s s' hs]
    exact ih

theorem Counts.tell_le (h : Counts next tell stop) (s : σ) : tell s ≤ tell (next s).2 := by
  rcases hn : next s with ⟨e | e, s'⟩
  · rcases h.moved s s' hn with ⟨hlt, -⟩ | rfl
    · exact Nat.le_of_lt hlt
    · exact Nat.le_refl _
  · exact Nat.le_of_lt (h.entry s e s' hn).1

theorem Counts.tell_le_iterate (h : Counts next tell stop) (k : Nat) (s : σ) :
    tell s ≤ tell ((advance next)^[k] s) := by
  induction k generalizing s with
  | zero => exact Nat.le_refl _
  | succ k ih => exact Nat.le_trans (h.tell_le s) (ih _)

/-- Seeking to the count of a position that reading from here gets to ends at it. -/
theorem Counts.seekLoop_iterate (h : Counts next tell stop) (k : Nat) {fuel : Nat} {s : σ}
    (hfuel : stop < fuel + tell s) :
    seekLoop next tell (tell ((advance next)^[k] s)) fuel s = (advance next)^[k] s := by
  induction k generalizing fuel s with
  | zero =>
    cases fuel with
    | zero => rfl
    | succ fuel => exact if_neg (Int.lt_irrefl _)
  | succ k ih =>
    have hle := h.tell_le_iterate k (next s).2
    rw [Function.iterate_succ_apply]
    rcases hn : next s with ⟨e | e, s'⟩
    · have hback : (advance next)^[k] (advance next s) = s' := by
        rw [advance, hn]
        exact h.stays_iterate hn k
      rw [hback]
      rcases h.moved s s' hn with ⟨hlt, hstop⟩ | rfl
      · cases fuel with
        | zero => omega
        | succ fuel =>
          rw [seekLoop, hn]
          exact if_pos (by omega)
      · cases fuel with
        | zero => rfl
        | succ fuel => exact if_neg (Int.lt_irrefl _)
    · obtain ⟨hlt, hstop⟩ := h.entry s e s' hn
      rw [hn] at hle
      have hadv : advance next s = s' := congrArg Prod.snd hn
      cases fuel with
      | zero => omega
      | succ fuel =>
        rw [hadv, seekLoop, hn, if_pos (by dsimp only at hle; omega)]
        exact ih (by omega)

/-- However far it is sought, reading from the start gets there too. -/
theorem seekLoop_eq_iterate (next : σ → Option α × σ) (tell : σ → Nat) (t : Int) (fuel : Nat)
    (s : σ) : ∃ k, seekLoop next tell t fuel s = (advance next)^[k] s := by
  induction fuel generalizing s with
  | zero => exact ⟨0, rfl⟩
  | succ fuel ih =>
    rw [seekLoop]
    split
    · rcases hn : next s with ⟨e | e, s'⟩
      · exact ⟨1, (congrArg Prod.snd hn).symm⟩
      · obtain ⟨k, hk⟩ := ih s'
        refine ⟨k + 1, ?_⟩
        rw [Function.iterate_succ_apply, advance, hn]
        exact hk
    · exact ⟨0, rfl⟩

end Cursor
