import ApeShim.Lib.Flags
import ApeShim.Lib.Keyed

/-!
The interest list of one emulated epoll set (`shim/epoll.c`): the entries, the
translation between EPOLL* and the host's POLL* bits, `epoll_ctl` under the
set's lock, re-arming, and disarming after delivery. Descriptors are `Int`,
flag words are bit vectors of the C width. Whether `realloc` succeeds is the
argument `grown`.
-/

namespace ApeShim.Epoll
open Flags Keyed

/-! ## Constants -/

def EPOLLIN : BitVec 32 := 0x001#32
def EPOLLPRI : BitVec 32 := 0x002#32
def EPOLLOUT : BitVec 32 := 0x004#32
def EPOLLERR : BitVec 32 := 0x008#32
def EPOLLHUP : BitVec 32 := 0x010#32
def EPOLLRDHUP : BitVec 32 := 0x2000#32
def EPOLLONESHOT : BitVec 32 := 0x40000000#32
def EPOLLET : BitVec 32 := 0x80000000#32

/-- The read side covers IN, PRI and RDHUP. -/
def ARM_IN : BitVec 32 := 1#32
def ARM_OUT : BitVec 32 := 2#32

/-- `SHIM_EPOLL_MAX_SETS`. -/
def maxSets : Nat := 32

/-- What the host decides: cosmo's POLL* are runtime constants, and `ltForced`
is the answer of `lt_forced()`. -/
structure Host where
  POLLIN : BitVec 16
  POLLPRI : BitVec 16
  POLLOUT : BitVec 16
  POLLERR : BitVec 16
  POLLHUP : BitVec 16
  POLLNVAL : BitVec 16
  POLLRDHUP : BitVec 16
  ltForced : Bool

/-- The constants of a host whose POLL* values are Linux's. -/
def plainHost : Host := ⟨1#16, 2#16, 4#16, 8#16, 16#16, 32#16, 0x2000#16, false⟩

inductive Errno
  | EBADF | EINVAL | EFAULT | EEXIST | ENOENT | ENOMEM | EMFILE
  deriving DecidableEq, Repr

/-- `SHIM_EPOLL_CTL_*`; `unknown` is every other number. -/
inductive CtlOp
  | add | del | mod | unknown
  deriving DecidableEq, Repr

/-- `struct shim_epoll_event`. -/
structure Event where
  events : BitVec 32
  data : BitVec 64
  deriving DecidableEq, Repr

/-- `struct shim_epoll_entry`. -/
structure Entry where
  fd : Int
  events : BitVec 32
  data : BitVec 64
  armed : BitVec 32
  deriving DecidableEq, Repr

/-! ## Arming and the POLL* bits -/

def Entry.edge (e : Entry) : Bool := has e.events EPOLLET

def Entry.oneshot (e : Entry) : Bool := has e.events EPOLLONESHOT

/-- Which directions of this entry should be polled right now. -/
def effectiveArmed (k : Host) (e : Entry) : BitVec 32 :=
  if !has e.events (EPOLLET ||| EPOLLONESHOT) || k.ltForced then ARM_IN ||| ARM_OUT
  else e.armed

def epollToPoll (k : Host) (e armed : BitVec 32) : BitVec 16 :=
  raise (has armed ARM_OUT && has e EPOLLOUT) k.POLLOUT <|
  raise (has armed ARM_IN && has e EPOLLRDHUP) k.POLLRDHUP <|
  raise (has armed ARM_IN && has e EPOLLPRI) k.POLLPRI <|
  raise (has armed ARM_IN && has e EPOLLIN) k.POLLIN 0#16

/-- A closed or bogus descriptor has no epoll spelling: POLLNVAL is an error. -/
def pollToEpoll (k : Host) (r : BitVec 16) : BitVec 32 :=
  raise (has r k.POLLNVAL) EPOLLERR <|
  raise (has r k.POLLRDHUP) EPOLLRDHUP <|
  raise (has r k.POLLHUP) EPOLLHUP <|
  raise (has r k.POLLERR) EPOLLERR <|
  raise (has r k.POLLPRI) EPOLLPRI <|
  raise (has r k.POLLOUT) EPOLLOUT <|
  raise (has r k.POLLIN) EPOLLIN 0#32

/-- What delivering `ev` does to an entry's armed bits. -/
def disarm (k : Host) (ev : BitVec 32) (e : Entry) : Entry :=
  if k.ltForced then e
  else if e.oneshot then { e with armed := 0#32 }
  else if e.edge then
    if has ev (EPOLLERR ||| EPOLLHUP) then { e with armed := 0#32 }
    else
      let a := if has ev (EPOLLIN ||| EPOLLPRI ||| EPOLLRDHUP) then e.armed &&& ~~~ARM_IN else e.armed
      { e with armed := if has ev EPOLLOUT then a &&& ~~~ARM_OUT else a }
  else e

@[simp] theorem disarm_fd (k : Host) (ev : BitVec 32) (e : Entry) : (disarm k ev e).fd = e.fd := by
  unfold disarm; split_ifs <;> rfl

@[simp] theorem disarm_events (k : Host) (ev : BitVec 32) (e : Entry) :
    (disarm k ev e).events = e.events := by
  unfold disarm; split_ifs <;> rfl

@[simp] theorem disarm_data (k : Host) (ev : BitVec 32) (e : Entry) :
    (disarm k ev e).data = e.data := by
  unfold disarm; split_ifs <;> rfl

/-- The epoll bits that belong to an armed direction, with the two terminal
bits that disarm both. -/
def reportsDirection (d ev : BitVec 32) : Bool :=
  (d = ARM_IN && has ev (EPOLLIN ||| EPOLLPRI ||| EPOLLRDHUP)) ||
  (d = ARM_OUT && has ev EPOLLOUT) || has ev (EPOLLERR ||| EPOLLHUP)

/-- A direction of an edge-triggered entry is disarmed only by an event that
reports that direction. -/
theorem disarm_keeps {k : Host} {ev : BitVec 32} {e : Entry} {d : BitVec 32}
    (hd : d = ARM_IN ∨ d = ARM_OUT) (ho : e.oneshot = false) (ha : has e.armed d = true)
    (hc : has (disarm k ev e).armed d = false) : reportsDirection d ev = true := by
  unfold disarm at hc
  simp only [ho, Bool.false_eq_true, ↓reduceIte] at hc
  by_cases ht : has ev (EPOLLERR ||| EPOLLHUP) = true
  · simp [reportsDirection, ht]
  · rcases hd with rfl | rfl
    · by_cases hin : has ev (EPOLLIN ||| EPOLLPRI ||| EPOLLRDHUP) = true
      · simp [reportsDirection, hin]
      · split_ifs at hc <;> simp_all [has_clear _ ARM_OUT ARM_IN (by decide)]
    · by_cases hout : has ev EPOLLOUT = true
      · simp [reportsDirection, hout]
      · split_ifs at hc <;> simp_all [has_clear _ ARM_IN ARM_OUT (by decide)]

/-! ## The list -/

/-- `entries[0 .. count)` and `cap` of `struct shim_epoll_set`: no descriptor
occurs twice, and the entries fit the allocation. -/
structure Interest where
  table : Table Entry.fd
  cap : Nat
  fits : table.items.length ≤ cap

namespace Interest

def empty : Interest := ⟨Table.empty, 0, by simp [Table.empty]⟩

abbrev entries (s : Interest) : List Entry := s.table.items

abbrev findEntry (s : Interest) (fd : Int) : Option Entry := s.table.find fd

/-- Append an entry to an array of `cap` places. -/
def push (s : Interest) (e : Entry) (cap : Nat) (hnew : s.findEntry e.fd = none)
    (hroom : s.entries.length < cap) : Interest where
  table := s.table.push e hnew
  cap := cap
  fits := by rw [Table.length_push]; exact hroom

/-- Change the entry of `fd` where it stands. -/
def adjust (s : Interest) (fd : Int) (f : Entry → Entry) (hf : ∀ e, (f e).fd = e.fd) : Interest where
  table := s.table.adjust fd f hf
  cap := s.cap
  fits := by simpa using s.fits

/-- `*e = s->entries[s->count - 1]; s->count--`, with `e` the entry of `fd`. -/
def remove (s : Interest) (fd : Int) : Interest where
  table := s.table.swapRemove fd
  cap := s.cap
  fits := (s.table.length_swapRemove_le fd).trans s.fits

theorem findEntry_eq_some_iff {s : Interest} {fd : Int} {e : Entry} :
    s.findEntry fd = some e ↔ e ∈ s.entries ∧ e.fd = fd := Table.find_eq_some_iff

@[simp] theorem findEntry_push (s : Interest) (e : Entry) (cap : Nat)
    (hnew : s.findEntry e.fd = none) (hroom : s.entries.length < cap) (fd : Int) :
    (s.push e cap hnew hroom).findEntry fd = if fd = e.fd then some e else s.findEntry fd :=
  Table.find_push s.table e hnew fd

@[simp] theorem findEntry_adjust (s : Interest) (fd fd' : Int) (f : Entry → Entry)
    (hf : ∀ e, (f e).fd = e.fd) :
    (s.adjust fd f hf).findEntry fd' =
      if fd' = fd then (s.findEntry fd).map f else s.findEntry fd' :=
  Table.find_adjust s.table fd fd' f hf

@[simp] theorem findEntry_remove (s : Interest) (fd fd' : Int) :
    (s.remove fd).findEntry fd' = if fd' = fd then none else s.findEntry fd' :=
  Table.find_swapRemove s.table fd fd'

end Interest

/-! ## `epoll_ctl` -/

/-- What ADD and MOD leave in the list: both directions armed. -/
def freshEntry (fd : Int) (ev : Event) : Entry := ⟨fd, ev.events, ev.data, ARM_IN ||| ARM_OUT⟩

@[simp] theorem freshEntry_fd (fd : Int) (ev : Event) : (freshEntry fd ev).fd = fd := rfl

/-- The ADD case: the array doubles when it is full, starting at 8. -/
def ctlAdd (s : Interest) (fd : Int) (ev : Event) (grown : Bool) : Except Errno Interest :=
  if h : s.findEntry fd = none then
    if hfull : s.entries.length = s.cap then
      if grown then
        .ok (s.push (freshEntry fd ev) (if s.cap = 0 then 8 else s.cap * 2) (by simpa using h)
          (by split <;> omega))
      else .error .ENOMEM
    else
      .ok (s.push (freshEntry fd ev) s.cap (by simpa using h)
        (Nat.lt_of_le_of_ne s.fits hfull))
  else .error .EEXIST

def ctlMod (s : Interest) (fd : Int) (ev : Event) : Except Errno Interest :=
  match s.findEntry fd with
  | none => .error .ENOENT
  | some _ => .ok (s.adjust fd
      (fun e => { e with events := ev.events, data := ev.data, armed := ARM_IN ||| ARM_OUT })
      (fun _ => rfl))

def ctlDel (s : Interest) (fd : Int) : Except Errno Interest :=
  match s.findEntry fd with
  | none => .error .ENOENT
  | some _ => .ok (s.remove fd)

/-- `emu_ctl` on the set `epfd` names; an error leaves the set as it was. -/
def emuCtl (s : Interest) (epfd : Int) (op : CtlOp) (fd : Int) (ev : Option Event)
    (grown : Bool) : Except Errno Interest :=
  if fd = epfd then .error .EINVAL
  else
    match op, ev with
    | .add, none => .error .EFAULT
    | .mod, none => .error .EFAULT
    | .add, some ev => ctlAdd s fd ev grown
    | .mod, some ev => ctlMod s fd ev
    | .del, _ => ctlDel s fd
    | .unknown, _ => .error .EINVAL

theorem ctlAdd_ok {s s' : Interest} {fd : Int} {ev : Event} {grown : Bool}
    (h : ctlAdd s fd ev grown = .ok s') :
    s.findEntry fd = none ∧
      ∀ k, s'.findEntry k = if k = fd then some (freshEntry fd ev) else s.findEntry k := by
  unfold ctlAdd at h
  split at h
  · rename_i hn
    refine ⟨hn, fun k => ?_⟩
    split at h
    · split at h
      · cases h
        exact Interest.findEntry_push s _ _ _ _ k
      · cases h
    · cases h
      exact Interest.findEntry_push s _ _ _ _ k
  · cases h

theorem ctlMod_ok {s s' : Interest} {fd : Int} {ev : Event} (h : ctlMod s fd ev = .ok s') :
    s.findEntry fd ≠ none ∧
      ∀ k, s'.findEntry k = if k = fd then some (freshEntry fd ev) else s.findEntry k := by
  unfold ctlMod at h
  split at h
  · cases h
  · rename_i e he
    cases h
    refine ⟨by simp [he], fun k => ?_⟩
    rw [Interest.findEntry_adjust, he]
    have hfd : e.fd = fd := (Interest.findEntry_eq_some_iff.mp he).2
    simp [freshEntry, hfd]

theorem ctlDel_ok {s s' : Interest} {fd : Int} (h : ctlDel s fd = .ok s') :
    s.findEntry fd ≠ none ∧ s' = s.remove fd := by
  unfold ctlDel at h
  split at h
  · cases h
  · rename_i e he
    cases h
    exact ⟨by simp [he], rfl⟩

/-- Seen from the list, a successful call puts a fresh entry at `fd` or clears
`fd`, and touches nothing else. -/
theorem emuCtl_ok {s s' : Interest} {epfd fd : Int} {op : CtlOp} {ev : Option Event} {grown : Bool}
    (h : emuCtl s epfd op fd ev grown = .ok s') :
    (∃ v, ev = some v ∧ (op = .add ∧ s.findEntry fd = none ∨ op = .mod ∧ s.findEntry fd ≠ none) ∧
      ∀ k, s'.findEntry k = if k = fd then some (freshEntry fd v) else s.findEntry k) ∨
    (op = .del ∧ s.findEntry fd ≠ none ∧
      ∀ k, s'.findEntry k = if k = fd then none else s.findEntry k) := by
  unfold emuCtl at h
  split at h
  · cases h
  · cases op with
    | add =>
      cases ev with
      | none => cases h
      | some v =>
        obtain ⟨hn, hk⟩ := ctlAdd_ok h
        exact Or.inl ⟨v, rfl, Or.inl ⟨rfl, hn⟩, hk⟩
    | mod =>
      cases ev with
      | none => cases h
      | some v =>
        obtain ⟨hn, hk⟩ := ctlMod_ok h
        exact Or.inl ⟨v, rfl, Or.inr ⟨rfl, hn⟩, hk⟩
    | del =>
      obtain ⟨hn, rfl⟩ := ctlDel_ok h
      exact Or.inr ⟨rfl, hn, fun k => Interest.findEntry_remove s fd k⟩
    | unknown => cases h

/-! ## Re-arming -/

/-- ONESHOT entries only re-arm through MOD. -/
def rearmEntry (bits : BitVec 32) (e : Entry) : Entry :=
  if e.edge && !e.oneshot then { e with armed := e.armed ||| bits } else e

@[simp] theorem rearmEntry_fd (bits : BitVec 32) (e : Entry) : (rearmEntry bits e).fd = e.fd := by
  unfold rearmEntry; split <;> rfl

@[simp] theorem rearmEntry_events (bits : BitVec 32) (e : Entry) :
    (rearmEntry bits e).events = e.events := by
  unfold rearmEntry; split <;> rfl

@[simp] theorem rearmEntry_data (bits : BitVec 32) (e : Entry) :
    (rearmEntry bits e).data = e.data := by
  unfold rearmEntry; split <;> rfl

/-- The body of `rearm`'s loop for one set, with whether its waker is kicked. -/
def rearmSet (s : Interest) (fd : Int) (bits : BitVec 32) : Interest × Bool :=
  match s.findEntry fd with
  | none => (s, false)
  | some e =>
      if e.edge && !e.oneshot then
        if e.armed ||| bits ≠ e.armed then
          (s.adjust fd (rearmEntry bits) (rearmEntry_fd bits), true)
        else (s, false)
      else (s, false)

theorem rearmSet_find (s : Interest) (fd : Int) (bits : BitVec 32) (k : Int) :
    (rearmSet s fd bits).1.findEntry k =
      if k = fd then (s.findEntry fd).map (rearmEntry bits) else s.findEntry k := by
  unfold rearmSet
  cases he : s.findEntry fd with
  | none => simp only [Option.map_none]; split <;> simp_all
  | some e =>
    simp only [Option.map_some]
    split
    · rename_i hg
      split
      · simp [he]
      · rename_i hsame
        have : rearmEntry bits e = e := by
          simp only [ne_eq, not_not] at hsame
          simp [rearmEntry, hg, hsame]
        rw [this]
        split <;> simp_all
    · rename_i hg
      have : rearmEntry bits e = e := by simp only [rearmEntry, hg, Bool.false_eq_true, ↓reduceIte]
      rw [this]
      split <;> simp_all

end ApeShim.Epoll
