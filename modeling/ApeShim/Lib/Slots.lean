import Mathlib.Data.List.Nodup

/-!
A table with a fixed number of slots, each free or with a key and a value: a value is put into
the slot of its key, else into the first free one, else nowhere.
-/

namespace Slots

variable {κ α : Type*} [DecidableEq κ]

/-- The slot has this key. -/
def holds (k : κ) (s : Option (κ × α)) : Bool := s.any fun e => e.1 = k

/-- The first slot of a kind is overwritten. -/
def setFirst {β : Type*} (p : β → Bool) (y : β) : List β → List β
  | [] => []
  | x :: xs => if p x then y :: xs else x :: setFirst p y xs

def lookup : List (Option (κ × α)) → κ → Option α
  | [], _ => none
  | none :: t, k => lookup t k
  | some e :: t, k => if e.1 = k then some e.2 else lookup t k

def put (t : List (Option (κ × α))) (k : κ) (a : α) : List (Option (κ × α)) :=
  if t.any (holds k) then setFirst (holds k) (some (k, a)) t
  else setFirst Option.isNone (some (k, a)) t

def drop (t : List (Option (κ × α))) (k : κ) : List (Option (κ × α)) :=
  setFirst (holds k) none t

/-- There is a slot for the key. -/
def hasRoom (t : List (Option (κ × α))) (k : κ) : Bool := t.any (holds k) || t.any Option.isNone

def keys (t : List (Option (κ × α))) : List κ := t.filterMap (Option.map Prod.fst)

section Lookup

variable {t : List (Option (κ × α))} {k k' : κ} {a : α}

@[simp] theorem holds_none : holds k (none : Option (κ × α)) = false := rfl

@[simp] theorem holds_some (e : κ × α) : holds k (some e) = true ↔ e.1 = k := by
  simp [holds]

theorem lookup_eq_none_iff : lookup t k = none ↔ t.any (holds k) = false := by
  induction t with
  | nil => simp [lookup]
  | cons s t ih =>
    rcases s with _ | e
    · rw [lookup, List.any_cons, holds_none, Bool.false_or, ih]
    · rw [lookup, List.any_cons]
      by_cases he : e.1 = k
      · simp [he, holds]
      · simp [he, holds, ih]

theorem mem_keys_iff : k ∈ keys t ↔ t.any (holds k) = true := by
  simp only [keys, List.mem_filterMap, Option.map_eq_some_iff, List.any_eq_true]
  constructor
  · rintro ⟨s, hs, e, rfl, he⟩
    exact ⟨some e, hs, (holds_some e).mpr he⟩
  · rintro ⟨s, hs, hk⟩
    rcases s with _ | e
    · cases hk
    · exact ⟨some e, hs, e, rfl, (holds_some e).mp hk⟩

/-- What another key finds is not touched. -/
theorem lookup_setFirst_ne {p : Option (κ × α) → Bool} {y : Option (κ × α)} (hy : holds k' y = false)
    (hp : ∀ s, p s = true → holds k' s = false) : lookup (setFirst p y t) k' = lookup t k' := by
  have hskip : ∀ (s : Option (κ × α)) (r : List (Option (κ × α))), holds k' s = false →
      lookup (s :: r) k' = lookup r k' := by
    rintro (_ | e) r hs
    · rfl
    · rw [lookup, if_neg fun he => Bool.false_ne_true (hs.symm.trans ((holds_some e).mpr he))]
  induction t with
  | nil => rfl
  | cons s t ih =>
    rw [setFirst]
    split
    · rename_i hs
      rw [hskip y t hy, hskip s t (hp s hs)]
    · rcases s with _ | e
      · exact ih
      · rw [lookup, lookup, ih]

theorem holds_of_ne (hk : k' ≠ k) {s : Option (κ × α)} (hs : holds k s = true) : holds k' s = false := by
  rcases s with _ | e
  · rfl
  · rw [holds_some] at hs
    simpa [holds, hs] using hk.symm

theorem lookup_put_ne (hk : k' ≠ k) : lookup (put t k a) k' = lookup t k' := by
  have hy : holds k' (some (k, a)) = false := by simpa [holds] using hk.symm
  rw [put]
  split
  · exact lookup_setFirst_ne hy fun s hs => holds_of_ne hk hs
  · exact lookup_setFirst_ne hy fun s hs => by rw [Option.isNone_iff_eq_none.mp hs, holds_none]

theorem lookup_drop_ne (hk : k' ≠ k) : lookup (drop t k) k' = lookup t k' :=
  lookup_setFirst_ne rfl fun _ hs => holds_of_ne hk hs

theorem lookup_setFirst_self {p : Option (κ × α) → Bool} (hp : t.any p = true)
    (hskip : ∀ s ∈ t, p s = false → holds k s = false) :
    lookup (setFirst p (some (k, a)) t) k = some a := by
  induction t with
  | nil => cases hp
  | cons s t ih =>
    rw [setFirst]
    split
    · rw [lookup, if_pos rfl]
    · rename_i hs
      rw [Bool.not_eq_true] at hs
      rw [List.any_cons, hs, Bool.false_or] at hp
      have hnext := ih hp fun s' hs' => hskip s' (List.mem_cons_of_mem _ hs')
      have hhead := hskip s List.mem_cons_self hs
      rcases s with _ | e
      · exact hnext
      · rw [lookup, if_neg fun he => Bool.false_ne_true (hhead.symm.trans ((holds_some e).mpr he)), hnext]

/-- What was put is found. -/
theorem lookup_put_self (hroom : hasRoom t k = true) : lookup (put t k a) k = some a := by
  rw [put]
  split
  · rename_i hany
    exact lookup_setFirst_self hany fun _ _ hs => hs
  · rename_i hany
    rw [Bool.not_eq_true] at hany
    rw [hasRoom, hany, Bool.false_or] at hroom
    exact lookup_setFirst_self hroom fun s hs _ =>
      Bool.not_eq_true _ ▸ fun hk => Bool.false_ne_true (hany.symm.trans (List.any_eq_true.mpr ⟨s, hs, hk⟩))

theorem setFirst_eq_self {β : Type*} {p : β → Bool} {y : β} {l : List β} (h : l.any p = false) :
    setFirst p y l = l := by
  induction l with
  | nil => rfl
  | cons x l ih =>
    rw [List.any_cons, Bool.or_eq_false_iff] at h
    rw [setFirst, if_neg (by rw [h.1]; exact Bool.false_ne_true), ih h.2]

/-- A full table keeps what it has. -/
theorem put_full (hroom : hasRoom t k = false) : put t k a = t := by
  rw [hasRoom, Bool.or_eq_false_iff] at hroom
  rw [put, if_neg (by rw [hroom.1]; exact Bool.false_ne_true), setFirst_eq_self hroom.2]

theorem lookup_full (hroom : hasRoom t k = false) : lookup t k = none := by
  rw [hasRoom, Bool.or_eq_false_iff] at hroom
  exact lookup_eq_none_iff.mpr hroom.1

end Lookup

section Keys

variable {t : List (Option (κ × α))} {k : κ} {a : α}

omit [DecidableEq κ] in
theorem keys_cons_some (e : κ × α) : keys (some e :: t) = e.1 :: keys t := rfl

theorem keys_setFirst_holds : keys (setFirst (holds k) (some (k, a)) t) = keys t := by
  induction t with
  | nil => rfl
  | cons s t ih =>
    rcases s with _ | e
    · exact ih
    · rw [setFirst]
      split
      · rename_i he
        rw [keys_cons_some, keys_cons_some, (holds_some e).mp he]
      · rw [keys_cons_some, keys_cons_some, ih]

omit [DecidableEq κ] in
theorem keys_setFirst_free_sub : keys (setFirst Option.isNone (some (k, a)) t) ⊆ k :: keys t := by
  induction t with
  | nil => exact List.nil_subset _
  | cons s t ih =>
    rcases s with _ | e
    · exact fun _ h => h
    · intro x hx
      rw [keys_cons_some]
      rcases List.mem_cons.mp hx with rfl | hx
      · simp
      · rcases List.mem_cons.mp (ih hx) with rfl | hx
        · simp
        · simp [hx]

omit [DecidableEq κ] in
theorem nodup_setFirst_free (hk : k ∉ keys t) (h : (keys t).Nodup) :
    (keys (setFirst Option.isNone (some (k, a)) t)).Nodup := by
  induction t with
  | nil => exact h
  | cons s t ih =>
    rcases s with _ | e
    · exact List.nodup_cons.mpr ⟨hk, h⟩
    · rw [keys_cons_some, List.mem_cons, not_or] at hk
      rw [keys_cons_some, List.nodup_cons] at h
      refine List.nodup_cons.mpr ⟨fun he => ?_, ih hk.2 h.2⟩
      rcases List.mem_cons.mp (keys_setFirst_free_sub he) with he | he
      · exact hk.1 he.symm
      · exact h.1 he

theorem nodup_put (h : (keys t).Nodup) : (keys (put t k a)).Nodup := by
  rw [put]
  split
  · rwa [keys_setFirst_holds]
  · rename_i hany
    exact nodup_setFirst_free (mem_keys_iff.not.mpr hany) h

theorem keys_drop_sublist : (keys (drop t k)).Sublist (keys t) := by
  induction t with
  | nil => exact List.Sublist.refl _
  | cons s t ih =>
    rcases s with _ | e
    · exact ih
    · rw [drop, setFirst]
      split
      · exact List.sublist_cons_self _ _
      · exact ih.cons_cons _

theorem nodup_drop (h : (keys t).Nodup) : (keys (drop t k)).Nodup := h.sublist keys_drop_sublist

/-- With one slot for each key, a dropped key is gone. -/
theorem lookup_drop_self (h : (keys t).Nodup) : lookup (drop t k) k = none := by
  induction t with
  | nil => rfl
  | cons s t ih =>
    rcases s with _ | e
    · exact ih h
    · rw [keys_cons_some, List.nodup_cons] at h
      rw [drop, setFirst]
      split
      · rename_i he
        rw [(holds_some e).mp he] at h
        rw [lookup, lookup_eq_none_iff, ← Bool.not_eq_true, ← mem_keys_iff]
        exact h.1
      · rename_i he
        rw [lookup, if_neg (mt (holds_some e).mpr he)]
        exact ih h.2

end Keys

end Slots
