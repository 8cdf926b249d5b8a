import Mathlib.Data.List.Pairwise
import Mathlib.Data.List.Sort
import ApeShim.Lib.Keyed

/-!
Two lists sorted by key, walked in step. The walk meets every key of either list once, in
order, with what each of the two lists holds under it (`walk_spec`).
-/

namespace Join

variable {κ α : Type*}

/-- What the walk meets: an item of one list, or an item of each. -/
inductive Row (α : Type*)
  | left (x : α)
  | right (y : α)
  | both (x y : α)

namespace Row

def key (key : α → κ) : Row α → κ
  | left x => key x
  | right y => key y
  | both x _ => key x

def fst : Row α → Option α
  | left x => some x
  | right _ => none
  | both x _ => some x

def snd : Row α → Option α
  | left _ => none
  | right y => some y
  | both _ y => some y

end Row

variable (cmp : κ → κ → Ordering) (key : α → κ)

def walk : List α → List α → List (Row α)
  | [], [] => []
  | [], y :: ys => .right y :: walk [] ys
  | x :: xs, [] => .left x :: walk xs []
  | x :: xs, y :: ys =>
      match cmp (key x) (key y) with
      | .lt => .left x :: walk xs (y :: ys)
      | .gt => .right y :: walk (x :: xs) ys
      | .eq => .both x y :: walk xs ys
termination_by xs ys => xs.length + ys.length

/-- Sorted by key, and no two under one key. -/
def Sorted (l : List α) : Prop := l.Pairwise fun a b => cmp (key a) (key b) = .lt

variable {cmp key}

theorem Sorted.tail {a : α} {l : List α} (h : Sorted cmp key (a :: l)) : Sorted cmp key l :=
  (List.pairwise_cons.mp h).2

theorem Sorted.lt {a b : α} {l : List α} (h : Sorted cmp key (a :: l)) (hb : b ∈ l) :
    cmp (key a) (key b) = .lt :=
  (List.pairwise_cons.mp h).1 b hb

/-! ## What the walk meets -/

/-- Every key it meets is above a bound that is below both lists. -/
theorem lt_of_mem_walk {k : κ} (xs ys : List α) (hx : ∀ x ∈ xs, cmp k (key x) = .lt)
    (hy : ∀ y ∈ ys, cmp k (key y) = .lt) :
    ∀ r ∈ walk cmp key xs ys, cmp k (r.key key) = .lt := by
  fun_induction walk cmp key xs ys with
  | case1 => simp
  | case2 y ys ih =>
    simp only [List.forall_mem_cons] at hy ⊢
    exact ⟨hy.1, ih hx hy.2⟩
  | case3 x xs ih =>
    simp only [List.forall_mem_cons] at hx ⊢
    exact ⟨hx.1, ih hx.2 hy⟩
  | case4 x xs y ys hlt ih =>
    simp only [List.forall_mem_cons] at hx ⊢
    exact ⟨hx.1, ih hx.2 hy⟩
  | case5 x xs y ys hgt ih =>
    simp only [List.forall_mem_cons] at hy ⊢
    exact ⟨hy.1, ih hx hy.2⟩
  | case6 x xs y ys heq ih =>
    simp only [List.forall_mem_cons] at hx hy ⊢
    exact ⟨hx.1, ih hx.2 hy.2⟩

section

variable [Std.LawfulEqCmp cmp]

/-- It meets the keys of either list and no others. -/
theorem mem_keys_walk {k : κ} (xs ys : List α) :
    k ∈ (walk cmp key xs ys).map (Row.key key) ↔ k ∈ xs.map key ∨ k ∈ ys.map key := by
  fun_induction walk cmp key xs ys with
  | case1 => simp
  | case2 y ys ih => simp only [List.map_cons, List.mem_cons, ih, Row.key]; tauto
  | case3 x xs ih => simp only [List.map_cons, List.mem_cons, ih, Row.key]; tauto
  | case4 x xs y ys hlt ih => simp only [List.map_cons, List.mem_cons, ih, Row.key]; tauto
  | case5 x xs y ys hgt ih => simp only [List.map_cons, List.mem_cons, ih, Row.key]; tauto
  | case6 x xs y ys heq ih =>
    have hkey := Std.LawfulEqCmp.compare_eq_iff_eq.mp heq
    simp only [List.map_cons, List.mem_cons, ih, Row.key, hkey]
    tauto

end

section

variable [Std.TransCmp cmp]

theorem ne_of_lt {a b : κ} (h : cmp a b = .lt) : a ≠ b := by
  rintro rfl
  have hself : cmp a a = .eq := Std.ReflCmp.compare_self
  rw [hself] at h
  cases h

theorem Sorted.nodup {l : List α} (h : Sorted cmp key l) : (l.map key).Nodup :=
  List.pairwise_map.mpr (h.imp fun hlt => ne_of_lt hlt)

/-- A list in order is the only one with its members. -/
theorem Sorted.ext {l l' : List α} (h : Sorted cmp key l) (h' : Sorted cmp key l')
    (hmem : ∀ a, a ∈ l ↔ a ∈ l') : l = l' := by
  have hanti : Std.Antisymm fun a b : α => cmp (key a) (key b) = .lt := by
    constructor
    intro a b hab hba
    exact absurd rfl (ne_of_lt (Std.TransCmp.lt_trans hab hba))
  have hirrefl : Std.Irrefl fun a b : α => cmp (key a) (key b) = .lt :=
    ⟨fun a haa => ne_of_lt haa rfl⟩
  exact List.Pairwise.eq_of_mem_iff h h' hmem

variable [Std.LawfulEqCmp cmp]

/-- The keys come in order. -/
theorem walk_sorted {xs ys : List α} (hx : Sorted cmp key xs) (hy : Sorted cmp key ys) :
    Sorted cmp (Row.key key) (walk cmp key xs ys) := by
  fun_induction walk cmp key xs ys with
  | case1 => exact .nil
  | case2 y ys ih =>
    exact List.pairwise_cons.mpr
      ⟨lt_of_mem_walk _ _ (by simp) fun _ h => hy.lt h, ih hx hy.tail⟩
  | case3 x xs ih =>
    exact List.pairwise_cons.mpr
      ⟨lt_of_mem_walk _ _ (fun _ h => hx.lt h) (by simp), ih hx.tail hy⟩
  | case4 x xs y ys hlt ih =>
    refine List.pairwise_cons.mpr ⟨lt_of_mem_walk _ _ (fun _ h => hx.lt h) ?_, ih hx.tail hy⟩
    rintro z (_ | ⟨_, hz⟩)
    · exact hlt
    · exact Std.TransCmp.lt_trans hlt (hy.lt hz)
  | case5 x xs y ys hgt ih =>
    have hlt := Std.OrientedCmp.gt_iff_lt.mp hgt
    refine List.pairwise_cons.mpr ⟨lt_of_mem_walk _ _ ?_ fun _ h => hy.lt h, ih hx hy.tail⟩
    rintro z (_ | ⟨_, hz⟩)
    · exact hlt
    · exact Std.TransCmp.lt_trans hlt (hx.lt hz)
  | case6 x xs y ys heq ih =>
    have hkey := Std.LawfulEqCmp.compare_eq_iff_eq.mp heq
    refine List.pairwise_cons.mpr
      ⟨lt_of_mem_walk _ _ (fun _ h => hx.lt h) fun z h => ?_, ih hx.tail hy.tail⟩
    change cmp (key x) (key z) = .lt
    rw [hkey]
    exact hy.lt h

end

/-! ## Under one key -/

section

variable [DecidableEq κ]

def find (key : α → κ) (l : List α) (k : κ) : Option α := l.find? fun a => key a = k

theorem find_eq_none_iff {l : List α} {k : κ} : find key l k = none ↔ k ∉ l.map key := by
  simp [find]

variable [Std.TransCmp cmp]

theorem find_eq_some_iff {l : List α} (h : Sorted cmp key l) {k : κ} {a : α} :
    find key l k = some a ↔ a ∈ l ∧ key a = k :=
  Keyed.find?_key_iff h.nodup

/-- What is above everything in a list is not under any of its keys. -/
theorem find_eq_none_of_lt {l : List α} {k : κ} (h : ∀ a ∈ l, cmp k (key a) = .lt) :
    find key l k = none := by
  rw [find_eq_none_iff]
  intro hk
  obtain ⟨a, ha, rfl⟩ := List.mem_map.mp hk
  exact ne_of_lt (h a ha) rfl

theorem find_cons_self (a : α) (l : List α) : find key (a :: l) (key a) = some a := by
  simp [find]

theorem find_cons_of_lt {a : α} {l : List α} {k : κ} (h : cmp (key a) k = .lt) :
    find key (a :: l) k = find key l k := by
  simp [find, ne_of_lt h]

variable [Std.LawfulEqCmp cmp]

/-- Under each key it meets, the walk has what each of the lists has. -/
theorem walk_spec {xs ys : List α} (hx : Sorted cmp key xs) (hy : Sorted cmp key ys) :
    ∀ r ∈ walk cmp key xs ys,
      r.fst = find key xs (r.key key) ∧ r.snd = find key ys (r.key key) := by
  have hsorted := walk_sorted hx hy
  fun_induction walk cmp key xs ys with
  | case1 => simp
  | case2 y ys ih =>
    rw [List.forall_mem_cons]
    refine ⟨⟨rfl, (find_cons_self y ys).symm⟩, fun r hr => ?_⟩
    have hlt : cmp (key y) (r.key key) = .lt := hsorted.lt hr
    rw [find_cons_of_lt hlt]
    exact ih hx hy.tail hsorted.tail r hr
  | case3 x xs ih =>
    rw [List.forall_mem_cons]
    refine ⟨⟨(find_cons_self x xs).symm, rfl⟩, fun r hr => ?_⟩
    have hlt : cmp (key x) (r.key key) = .lt := hsorted.lt hr
    rw [find_cons_of_lt hlt]
    exact ih hx.tail hy hsorted.tail r hr
  | case4 x xs y ys hlt ih =>
    rw [List.forall_mem_cons]
    have hbelow : ∀ z ∈ y :: ys, cmp (key x) (key z) = .lt :=
      List.forall_mem_cons.mpr ⟨hlt, fun z hz => Std.TransCmp.lt_trans hlt (hy.lt hz)⟩
    have hnone : find key (y :: ys) (key x) = none := find_eq_none_of_lt hbelow
    refine ⟨⟨(find_cons_self x xs).symm, hnone.symm⟩, fun r hr => ?_⟩
    have hr' : cmp (key x) (r.key key) = .lt := hsorted.lt hr
    rw [find_cons_of_lt hr']
    exact ih hx.tail hy hsorted.tail r hr
  | case5 x xs y ys hgt ih =>
    rw [List.forall_mem_cons]
    have hlt := Std.OrientedCmp.gt_iff_lt.mp hgt
    have hbelow : ∀ z ∈ x :: xs, cmp (key y) (key z) = .lt :=
      List.forall_mem_cons.mpr ⟨hlt, fun z hz => Std.TransCmp.lt_trans hlt (hx.lt hz)⟩
    have hnone : find key (x :: xs) (key y) = none := find_eq_none_of_lt hbelow
    refine ⟨⟨hnone.symm, (find_cons_self y ys).symm⟩, fun r hr => ?_⟩
    have hr' : cmp (key y) (r.key key) = .lt := hsorted.lt hr
    have hys : find key (y :: ys) (r.key key) = find key ys (r.key key) := find_cons_of_lt hr'
    rw [hys]
    exact ih hx hy.tail hsorted.tail r hr
  | case6 x xs y ys heq ih =>
    rw [List.forall_mem_cons]
    have hkey := Std.LawfulEqCmp.compare_eq_iff_eq.mp heq
    have hself : find key (y :: ys) (key x) = some y := by
      rw [hkey]
      exact find_cons_self y ys
    refine ⟨⟨(find_cons_self x xs).symm, hself.symm⟩, fun r hr => ?_⟩
    have hr' : cmp (key x) (r.key key) = .lt := hsorted.lt hr
    have hys : find key (y :: ys) (r.key key) = find key ys (r.key key) :=
      find_cons_of_lt (hkey ▸ hr')
    rw [find_cons_of_lt hr', hys]
    exact ih hx.tail hy.tail hsorted.tail r hr

end

end Join
