import Mathlib.Data.List.Perm.Basic
import Mathlib.Data.List.Nodup

/-!
Tables with one item per key, kept in an array in arrival order: lookup walks
from the front, an item is changed in place, and removal moves the last item
into the hole. `find_push`, `find_adjust` and `find_swapRemove` say that the
table is a finite map from keys to items.
-/

namespace Keyed

variable {α κ : Type*}

/-- Overwrite position `i` with the last item and drop the last position. -/
def swapOut (l : List α) (i : Nat) : List α :=
  match l.getLast? with
  | none => l
  | some z => (l.set i z).dropLast

theorem swapOut_append_singleton (l : List α) (z : α) (i : Nat) :
    swapOut (l ++ [z]) i = if i < l.length then l.set i z else l := by
  simp only [swapOut, List.getLast?_concat]
  split
  · rename_i h
    rw [List.set_append_left _ _ h, List.dropLast_concat]
  · rename_i h
    rw [List.set_append_right _ _ (by omega)]
    cases hk : i - l.length with
    | zero => simp
    | succ k => simp

theorem set_perm_eraseIdx_cons (l : List α) (z : α) :
    ∀ i : Nat, i < l.length → (l.set i z).Perm (l.eraseIdx i ++ [z]) := by
  induction l with
  | nil => intro i h; simp at h
  | cons a l ih =>
    intro i h
    cases i with
    | zero => simpa using (List.perm_append_singleton z l).symm
    | succ i =>
      simp only [List.set_cons_succ, List.eraseIdx_cons_succ, List.cons_append]
      exact (ih i (by simpa using h)).cons a

/-- Swapping out loses and duplicates nothing but the item at `i`. -/
theorem swapOut_perm (l : List α) (i : Nat) (h : i < l.length) :
    (swapOut l i).Perm (l.eraseIdx i) := by
  rcases List.eq_nil_or_concat l with rfl | ⟨l, z, rfl⟩
  · simp at h
  · rw [List.concat_eq_append] at h ⊢
    rw [swapOut_append_singleton]
    split
    · rename_i hi
      rw [List.eraseIdx_append_of_lt_length hi]
      exact set_perm_eraseIdx_cons l z i hi
    · rename_i hi
      have he : i = l.length := by simp at h; omega
      subst he
      simp [List.eraseIdx_append_of_length_le]

theorem mem_swapOut_idxOf [DecidableEq α] {l : List α} (hn : l.Nodup) {a x : α} (ha : a ∈ l) :
    x ∈ swapOut l (l.idxOf a) ↔ x ∈ l ∧ x ≠ a := by
  rw [(swapOut_perm l _ (List.idxOf_lt_length_of_mem ha)).mem_iff, List.eraseIdx_idxOf_eq_erase,
    hn.mem_erase_iff]
  exact and_comm

theorem nodup_swapOut {l : List α} (hn : l.Nodup) {i : Nat} (h : i < l.length) :
    (swapOut l i).Nodup :=
  (swapOut_perm l i h).nodup_iff.mpr (hn.sublist (List.eraseIdx_sublist _ _))

theorem length_swapOut_le {l : List α} {i : Nat} (h : i < l.length) :
    (swapOut l i).length ≤ l.length := by
  rw [(swapOut_perm l i h).length_eq]
  exact List.length_eraseIdx_le l i

/-- Only position `i` changes, so a later hole leaves the front where it is. -/
theorem head?_swapOut {l : List α} {i : Nat} (h0 : 0 < i) (h : i < l.length) :
    (swapOut l i).head? = l.head? := by
  rcases List.eq_nil_or_concat l with rfl | ⟨l, z, rfl⟩
  · simp at h
  · rw [List.concat_eq_append] at h ⊢
    rw [swapOut_append_singleton]
    cases l with
    | nil => simp at h; omega
    | cons a l =>
      cases i with
      | zero => omega
      | succ i => split <;> rfl

/-- An array of items no two of which share a key. -/
structure Table (key : α → κ) where
  items : List α
  unique : (items.map key).Nodup

@[ext] theorem Table.ext {key : α → κ} {t u : Table key} (h : t.items = u.items) : t = u := by
  cases t; cases u; cases h; rfl

variable [DecidableEq κ]

/-- Change the first item with key `k`. -/
def adjustFirst (key : α → κ) (k : κ) (f : α → α) : List α → List α
  | [] => []
  | a :: l => if key a = k then f a :: l else a :: adjustFirst key k f l

theorem map_key_adjustFirst (key : α → κ) (k : κ) (f : α → α) (hf : ∀ a, key (f a) = key a)
    (l : List α) : (adjustFirst key k f l).map key = l.map key := by
  induction l with
  | nil => rfl
  | cons a l ih =>
    simp only [adjustFirst]
    split
    · simp [hf]
    · simp [ih]

theorem find?_adjustFirst (key : α → κ) (k k' : κ) (f : α → α) (hf : ∀ a, key (f a) = key a)
    (l : List α) :
    (adjustFirst key k f l).find? (fun a => key a = k') =
      if k' = k then (l.find? (fun a => key a = k)).map f
      else l.find? (fun a => key a = k') := by
  induction l with
  | nil => simp [adjustFirst]
  | cons a l ih =>
    simp only [adjustFirst]
    by_cases ha : key a = k
    · by_cases hk : k' = k
      · subst hk; simp [ha, hf]
      · have hkk : ¬ k = k' := fun h => hk h.symm
        simp [ha, hk, hf, hkk]
    · simp only [ha, ↓reduceIte, List.find?_cons, decide_false]
      by_cases hak : key a = k'
      · have hk : ¬ k' = k := by rw [← hak]; exact ha
        simp [hak, hk]
      · simp [hak, ih]

theorem find?_key_iff {key : α → κ} {l : List α} (hn : (l.map key).Nodup) {k : κ} {a : α} :
    l.find? (fun x => key x = k) = some a ↔ a ∈ l ∧ key a = k := by
  induction l with
  | nil => simp
  | cons b l ih =>
    simp only [List.map_cons, List.nodup_cons, List.mem_map, not_exists, not_and] at hn
    simp only [List.find?_cons, List.mem_cons]
    by_cases hb : key b = k
    · simp only [hb, decide_true, Option.some.injEq]
      constructor
      · rintro rfl
        exact ⟨Or.inl rfl, hb⟩
      · rintro ⟨rfl | ha, hk⟩
        · rfl
        · exact absurd (hk.trans hb.symm) (hn.1 a ha)
    · simp only [hb, decide_false, ih hn.2]
      constructor
      · rintro ⟨ha, hk⟩
        exact ⟨Or.inr ha, hk⟩
      · rintro ⟨rfl | ha, hk⟩
        · exact absurd hk hb
        · exact ⟨ha, hk⟩

/-! ## Operations on tables -/

namespace Table

variable {key : α → κ}

instance [DecidableEq α] : DecidableEq (Table key) := fun t u =>
  decidable_of_iff (t.items = u.items) ⟨ext, fun h => h ▸ rfl⟩

def empty : Table key := ⟨[], by simp⟩

instance : Inhabited (Table key) := ⟨empty⟩

def find (t : Table key) (k : κ) : Option α := t.items.find? (fun a => key a = k)

def push (t : Table key) (a : α) (h : t.find (key a) = none) : Table key where
  items := t.items ++ [a]
  unique := by
    simp only [find, List.find?_eq_none, decide_eq_true_eq] at h
    simp only [List.map_append, List.map_cons, List.map_nil]
    refine List.nodup_append.mpr ⟨t.unique, by simp, ?_⟩
    intro x hx y hy
    obtain ⟨b, hb, rfl⟩ := List.mem_map.mp hx
    rw [List.mem_singleton.mp hy]
    exact h b hb

/-- Change the item with key `k`, if there is one, where it stands. -/
def adjust (t : Table key) (k : κ) (f : α → α) (hf : ∀ a, key (f a) = key a) : Table key where
  items := adjustFirst key k f t.items
  unique := by rw [map_key_adjustFirst key k f hf]; exact t.unique

/-- Remove the item with key `k`, if there is one, by moving the last item
into its place. -/
def swapRemove (t : Table key) (k : κ) : Table key where
  items :=
    match t.items.findIdx? (fun a => key a = k) with
    | none => t.items
    | some i => swapOut t.items i
  unique := by
    split
    · exact t.unique
    · rename_i i hi
      obtain ⟨h, -⟩ := List.findIdx?_eq_some_iff_getElem.mp hi
      have hp := (swapOut_perm t.items i h).map key
      refine hp.nodup_iff.mpr ?_
      exact t.unique.sublist ((List.eraseIdx_sublist _ _).map key)

theorem find_eq_some_iff {t : Table key} {k : κ} {a : α} :
    t.find k = some a ↔ a ∈ t.items ∧ key a = k := find?_key_iff t.unique

theorem find_eq_none_iff {t : Table key} {k : κ} :
    t.find k = none ↔ ∀ a ∈ t.items, key a ≠ k := by
  simp [find, List.find?_eq_none]

@[simp] theorem find_push (t : Table key) (a : α) (h : t.find (key a) = none) (k : κ) :
    (t.push a h).find k = if k = key a then some a else t.find k := by
  split
  · rename_i hk
    exact find_eq_some_iff.mpr ⟨by simp [push], hk.symm⟩
  · rename_i hk
    have hak : ¬ key a = k := fun h => hk h.symm
    simp [find, push, List.find?_append, hak]

@[simp] theorem find_adjust (t : Table key) (k k' : κ) (f : α → α)
    (hf : ∀ a, key (f a) = key a) :
    (t.adjust k f hf).find k' = if k' = k then (t.find k).map f else t.find k' :=
  find?_adjustFirst key k k' f hf t.items

theorem swapRemove_perm (t : Table key) (k : κ) :
    (t.swapRemove k).items.Perm (t.items.filter (fun a => key a ≠ k)) := by
  simp only [swapRemove]
  split
  · rename_i h
    rw [List.filter_eq_self.mpr]
    simpa using h
  · rename_i i hi
    obtain ⟨h, hk, -⟩ := List.findIdx?_eq_some_iff_getElem.mp hi
    refine (swapOut_perm t.items i h).trans ?_
    have hkey : key t.items[i] = k := by simpa using hk
    -- the other items differ from `k`, and the one at `i` does not
    have hn := t.unique
    rw [← List.take_append_drop i t.items, List.drop_eq_getElem_cons h, List.map_append,
      List.map_cons, List.nodup_append, List.nodup_cons] at hn
    obtain ⟨-, ⟨hdrop, -⟩, hdisj⟩ := hn
    rw [List.eraseIdx_eq_take_drop_succ]
    conv_rhs => rw [← List.take_append_drop i t.items, List.drop_eq_getElem_cons h]
    rw [List.filter_append, List.filter_cons]
    simp only [hkey, ne_eq, not_true_eq_false, decide_false, Bool.false_eq_true, ↓reduceIte]
    rw [List.filter_eq_self.mpr, List.filter_eq_self.mpr]
    · intro a ha
      simp only [decide_eq_true_eq]
      rintro rfl
      exact hdrop (hkey ▸ List.mem_map_of_mem ha)
    · intro a ha
      simp only [decide_eq_true_eq]
      rintro rfl
      exact hdisj _ (List.mem_map_of_mem ha) _ (by simp [hkey]) rfl

@[simp] theorem find_swapRemove (t : Table key) (k k' : κ) :
    (t.swapRemove k).find k' = if k' = k then none else t.find k' := by
  have hm : ∀ a, a ∈ (t.swapRemove k).items ↔ a ∈ t.items ∧ key a ≠ k := by
    intro a
    rw [(t.swapRemove_perm k).mem_iff]
    simp
  split
  · rename_i hk
    subst hk
    rw [find_eq_none_iff]
    exact fun a ha => ((hm a).mp ha).2
  · rename_i hk
    cases h : t.find k' with
    | none =>
      rw [find_eq_none_iff] at h ⊢
      exact fun a ha => h a ((hm a).mp ha).1
    | some a =>
      obtain ⟨ha, hka⟩ := find_eq_some_iff.mp h
      exact find_eq_some_iff.mpr ⟨(hm a).mpr ⟨ha, hka ▸ hk⟩, hka⟩

@[simp] theorem length_push (t : Table key) (a : α) (h : t.find (key a) = none) :
    (t.push a h).items.length = t.items.length + 1 := by simp [push]

@[simp] theorem length_adjust (t : Table key) (k : κ) (f : α → α) (hf : ∀ a, key (f a) = key a) :
    (t.adjust k f hf).items.length = t.items.length := by
  have h := congrArg List.length (map_key_adjustFirst key k f hf t.items)
  simpa [adjust] using h

theorem length_swapRemove_le (t : Table key) (k : κ) :
    (t.swapRemove k).items.length ≤ t.items.length := by
  rw [(t.swapRemove_perm k).length_eq]
  exact List.length_filter_le _ _

end Table

end Keyed
