import ApeShim.Lib.Stretch

/-!
The pages of a process on NT, as the documentation of `VirtualAlloc`, `VirtualProtect`, `VirtualQuery`
and `WriteProcessMemory` has them. What the documentation leaves to the system (it is out of memory,
say) is asked of an oracle, call by call.
-/

namespace ApeShim.Vm

/-! ## Pages -/

inductive MemState
  | free | reserve | commit
  deriving DecidableEq, Repr

inductive MemType
  | priv | mapped | image
  deriving DecidableEq, Repr

/-- The attributes that a query compares. -/
structure Page where
  state : MemState
  /-- 0 unless the page is committed -/
  protect : UInt32
  type : MemType
  /-- where its allocation begins -/
  base : Nat
  deriving DecidableEq, Repr

structure Memory where
  page : Nat → Page
  byte : Nat → UInt8

/-- The page is that of an allocation, and was never committed. -/
def Page.reserved (base : Nat) : Page := ⟨.reserve, 0, .priv, base⟩

def Page.committed (base : Nat) (prot : UInt32) : Page := ⟨.commit, prot, .priv, base⟩

/-- Committed, with this protection. -/
def Page.give (prot : UInt32) (g : Page) : Page := { g with state := .commit, protect := prot }

theorem Page.give_eq {g : Page} {base : Nat} (prot : UInt32) (htype : g.type = .priv)
    (hbase : g.base = base) : g.give prot = .committed base prot := by
  cases g
  cases htype
  cases hbase
  rfl

def Page.withProtect (prot : UInt32) (g : Page) : Page := { g with protect := prot }

theorem Page.withProtect_eq {g : Page} (prot : UInt32) (h : g.state = .commit) :
    g.withProtect prot = g.give prot := by
  rw [Page.give, ← h]
  rfl

/-! ## Protections -/

def pageNoaccess : UInt32 := 1
def pageReadonly : UInt32 := 2
def pageReadwrite : UInt32 := 4
def pageWritecopy : UInt32 := 8
def pageExecute : UInt32 := 16
def pageExecuteRead : UInt32 := 32
def pageExecuteReadwrite : UInt32 := 64
def pageExecuteWritecopy : UInt32 := 128
def pageGuard : UInt32 := 256

/-- Some page of this protection can be read. -/
def canRead (prot : UInt32) : Bool :=
  prot &&& (pageReadonly ||| pageReadwrite ||| pageExecuteRead ||| pageExecuteReadwrite |||
    pageWritecopy ||| pageExecuteWritecopy) ≠ 0

def canWrite (prot : UInt32) : Bool :=
  prot &&& (pageReadwrite ||| pageExecuteReadwrite ||| pageWritecopy ||| pageExecuteWritecopy) ≠ 0

def isGuard (prot : UInt32) : Bool := prot &&& pageGuard ≠ 0

/-- What a page can be given: one kind of access, and modifiers. Copy on write is not for private
pages, and a guard is not for pages without access. -/
def valid (type : MemType) (prot : UInt32) : Bool :=
  let kind := prot &&& 255
  (kind ∈ [pageNoaccess, pageReadonly, pageReadwrite, pageExecute, pageExecuteRead,
      pageExecuteReadwrite] ∨
    type ≠ .priv ∧ kind ∈ [pageWritecopy, pageExecuteWritecopy]) ∧
  prot >>> 11 = 0 ∧ ¬ (kind = pageNoaccess ∧ isGuard prot)

/-- The page can be read as it is. -/
def Page.readable (g : Page) : Bool := g.state = .commit ∧ canRead g.protect ∧ ¬ isGuard g.protect

def Page.writable (g : Page) : Bool := g.state = .commit ∧ canWrite g.protect ∧ ¬ isGuard g.protect

/-! ## The calls -/

/-- What the system is asked for. -/
inductive Request
  | reserve (addr size : Nat)
  | commit (addr size : Nat)
  | protect (addr size : Nat) (prot : UInt32)
  | write (addr size : Nat)
  | query (addr : Nat)
  deriving DecidableEq

/-- The first page of a range of bytes. -/
def first (a : Nat) : Nat := a / 4096

/-- The page behind its last. -/
def behind (a n : Nat) : Nat := (a + n + 4095) / 4096

def Memory.change (m : Memory) (a n : Nat) (f : Page → Page) : Memory :=
  { m with page := Stretch.change m.page (first a) (behind a n) f }

def Memory.all (m : Memory) (a n : Nat) (P : Page → Bool) : Bool :=
  Stretch.all m.page (first a) (behind a n) P

/-- An allocation begins at a multiple of this. -/
def granularity : Nat := 65536

/-- `VirtualAlloc` with `MEM_RESERVE` and an address, which is rounded down. -/
def reserve (refuse : Request → Bool) (m : Memory) (a n : Nat) : Option Memory :=
  let base := a / granularity * granularity
  if n ≠ 0 ∧ refuse (.reserve a n) = false ∧ m.all base (a - base + n) (·.state = .free) then
    some (m.change base (a - base + n) fun _ => .reserved base)
  else none

/-- `VirtualFree` with `MEM_RELEASE`, of the allocation that begins there. -/
def release (m : Memory) (a : Nat) : Memory :=
  { m with page := fun q =>
      if (m.page q).state ≠ .free ∧ (m.page q).base = a then ⟨.free, 0, .priv, 0⟩ else m.page q }

/-- `VirtualAlloc` with `MEM_COMMIT`: the pages that were only reserved are zero. -/
def commit (refuse : Request → Bool) (m : Memory) (a n : Nat) (prot : UInt32) : Option Memory :=
  let base := (m.page (first a)).base
  if n ≠ 0 ∧ refuse (.commit a n) = false ∧ valid .priv prot ∧
      m.all a n (fun g => g.state ≠ .free ∧ g.type = .priv ∧ g.base = base) then
    some { m.change a n (Page.give prot) with
      byte := fun x =>
        if first a ≤ first x ∧ first x < behind a n ∧ (m.page (first x)).state = .reserve then 0
        else m.byte x }
  else none

/-- `VirtualProtect`, with the protection that the first page had. -/
def protect (refuse : Request → Bool) (m : Memory) (a n : Nat) (prot : UInt32) :
    Option (Memory × UInt32) :=
  let g := m.page (first a)
  if n ≠ 0 ∧ refuse (.protect a n prot) = false ∧
      m.all a n (fun g' => g'.state = .commit ∧ g'.base = g.base ∧ valid g'.type prot) then
    some (m.change a n (Page.withProtect prot), g.protect)
  else none

/-- `struct NtMemoryBasicInformation`, as far as it is read. -/
structure Info where
  baseAddress : Nat
  regionSize : Nat
  state : MemState
  protect : UInt32
  type : MemType

/-- The pages that a program can have. -/
def userPages : Nat := 0x7fffffff0

/-- `VirtualQuery`: the page, and how many from it on are like it. -/
def query (refuse : Request → Bool) (m : Memory) (a : Nat) : Option Info :=
  let g := m.page (first a)
  if refuse (.query a) = false ∧ first a < userPages then
    some ⟨first a * 4096, Stretch.run m.page g (first a) (userPages - first a) * 4096, g.state,
      g.protect, g.type⟩
  else none

/-- `WriteProcessMemory` from where it is read, to the same place in the other process: the two, and
whether it was done. Reading a page with a guard takes the guard off it, and fails. -/
def write (refuse : Request → Bool) (m other : Memory) (a n : Nat) : Memory × Memory × Bool :=
  if refuse (.write a n) = false ∧ m.all a n Page.readable ∧ other.all a n Page.writable then
    (m, { other with byte := fun x => if a ≤ x ∧ x < a + n then m.byte x else other.byte x }, true)
  else
    (m.change a n fun g =>
      if isGuard g.protect then { g with protect := g.protect &&& ~~~pageGuard } else g, other, false)

/-! ## What the calls do -/

section Calls
variable {refuse : Request → Bool} {m m' other : Memory} {a n : Nat} {prot : UInt32}

theorem Memory.change_in {f : Page → Page} {q : Nat} (h : first a ≤ q) (h' : q < behind a n) :
    (m.change a n f).page q = f (m.page q) :=
  Stretch.change_in h h'

theorem Memory.change_out {f : Page → Page} {q : Nat} (h : ¬ (first a ≤ q ∧ q < behind a n)) :
    (m.change a n f).page q = m.page q :=
  Stretch.change_out h

theorem all_iff {P : Page → Bool} :
    m.all a n P = true ↔ ∀ q, first a ≤ q → q < behind a n → P (m.page q) = true :=
  Stretch.all_iff

theorem reserve_page (hbase : a % granularity = 0) (h : reserve refuse m a n = some m') :
    m'.page = Stretch.change m.page (first a) (behind a n) fun _ => .reserved a := by
  have hround : a / granularity * granularity = a :=
    Nat.div_mul_cancel (Nat.dvd_of_mod_eq_zero hbase)
  simp only [reserve, hround, Nat.sub_self, Nat.zero_add, Option.ite_none_right_eq_some,
    Option.some.injEq] at h
  rw [← h.2]
  rfl

theorem reserve_byte (h : reserve refuse m a n = some m') (x : Nat) : m'.byte x = m.byte x := by
  simp only [reserve, Option.ite_none_right_eq_some, Option.some.injEq] at h
  rw [← h.2]
  rfl

theorem commit_page (h : commit refuse m a n prot = some m') :
    valid .priv prot = true ∧
      m'.page = Stretch.change m.page (first a) (behind a n) (Page.give prot) := by
  simp only [commit, Option.ite_none_right_eq_some, Option.some.injEq] at h
  obtain ⟨⟨-, -, hvalid, -⟩, rfl⟩ := h
  exact ⟨hvalid, rfl⟩

/-- Where the pages are not those that were reserved, the bytes stay. -/
theorem commit_byte (h : commit refuse m a n prot = some m') {x : Nat}
    (hx : ¬ (first a ≤ first x ∧ first x < behind a n)) : m'.byte x = m.byte x := by
  simp only [commit, Option.ite_none_right_eq_some, Option.some.injEq] at h
  obtain ⟨-, rfl⟩ := h
  exact if_neg fun h => hx ⟨h.1, h.2.1⟩

theorem protect_spec {old : UInt32} (h : protect refuse m a n prot = some (m', old)) :
    (∀ q, first a ≤ q → q < behind a n → (m.page q).state = .commit ∧
      valid (m.page q).type prot = true) ∧
    m' = m.change a n (Page.withProtect prot) ∧ old = (m.page (first a)).protect := by
  simp only [protect, Option.ite_none_right_eq_some, Option.some.injEq, Prod.mk.injEq] at h
  obtain ⟨⟨-, -, hall⟩, rfl, rfl⟩ := h
  refine ⟨fun q hq hq' => ?_, rfl, rfl⟩
  have := all_iff.mp hall q hq hq'
  simp only [decide_eq_true_eq] at this
  exact ⟨this.1, this.2.2⟩

/-- Pages of one allocation that are committed take a protection that they can have, unless the
system refuses. -/
theorem protect_some (hn : n ≠ 0) (hrefuse : refuse (.protect a n prot) = false)
    (hpages : ∀ q, first a ≤ q → q < behind a n → (m.page q).state = .commit ∧
      (m.page q).base = (m.page (first a)).base ∧ valid (m.page q).type prot = true) :
    protect refuse m a n prot =
      some (m.change a n (Page.withProtect prot), (m.page (first a)).protect) := by
  refine if_pos ⟨hn, hrefuse, all_iff.mpr fun q hq hq' => ?_⟩
  simpa only [decide_eq_true_eq] using hpages q hq hq'

/-- A region begins with the page that was asked for, and its pages are all like that one. -/
theorem query_spec {i : Info} (h : query refuse m a = some i) :
    i.baseAddress = first a * 4096 ∧ (∃ k, i.regionSize = k * 4096 ∧ 0 < k ∧
      ∀ q, first a ≤ q → q < first a + k → m.page q = m.page (first a)) ∧
    i.state = (m.page (first a)).state ∧ i.protect = (m.page (first a)).protect ∧
    i.type = (m.page (first a)).type := by
  simp only [query, Option.ite_none_right_eq_some, Option.some.injEq] at h
  obtain ⟨⟨-, hin⟩, rfl⟩ := h
  refine ⟨rfl, ⟨_, rfl, Stretch.run_pos (Nat.sub_pos_of_lt hin), fun q hq hq' => ?_⟩, rfl, rfl, rfl⟩
  obtain ⟨i, rfl⟩ := Nat.exists_eq_add_of_le hq
  exact Stretch.eq_of_run (n := userPages - first a) (by omega)

theorem write_done (h : (write refuse m other a n).2.2 = true) :
    (write refuse m other a n).2.1 =
      { other with byte := fun x => if a ≤ x ∧ x < a + n then m.byte x else other.byte x } := by
  rw [write] at h ⊢
  split at h
  · rename_i hok
    rw [if_pos hok]
  · cases h

/-- Where there is no guard the reader is as it was, whether or not it was done. -/
theorem write_fst (hg : ∀ q, first a ≤ q → q < behind a n → isGuard (m.page q).protect = false) :
    (write refuse m other a n).1 = m := by
  rw [write]
  split
  · rfl
  · have hpage : Stretch.change m.page (first a) (behind a n) (fun g =>
        if isGuard g.protect then { g with protect := g.protect &&& ~~~pageGuard } else g) = m.page :=
      Stretch.change_id fun q hq hq' => if_neg (by rw [hg q hq hq']; exact Bool.false_ne_true)
    simp only [Memory.change, hpage]

end Calls

end ApeShim.Vm
