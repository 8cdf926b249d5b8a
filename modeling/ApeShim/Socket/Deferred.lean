import ApeShim.Lib.Bytes
import ApeShim.Lib.Machine
import ApeShim.Socket.Options
import Mathlib.Data.Fintype.Card
import Mathlib.Logic.Function.Basic

/-!
Socket options set while a connect is in flight (`shim/socket.c`): `defer_sockopt`,
`__ape_shim_nt_sockopt_replay`, `__ape_shim_nt_sockopt_forget` and the two entry
points over them. The host's own `setsockopt` answers as the label says, and what
it accepted is what its `getsockopt` gives back.
-/

namespace ApeShim.Socket
open Bytes Trace

/-- `DEFER_MAX`. -/
def deferMax : Nat := 32

def linSolPacket : Num := 263#32

inductive Os
  | windows | bsd | other
  deriving DecidableEq, Repr

structure Env where
  os : Os
  consts : Consts
  /-- `__ape_shim_packet_is` -/
  packetIs : Int → Bool
  /-- `__ape_shim_errno_host_to_linux` -/
  errnoToLinux : Num → Num

/-- An option of a descriptor, in the host's numbers. -/
structure Key where
  fd : Int
  level : Num
  name : Num
  deriving DecidableEq, Repr

/-- `struct deferred_opt`; `val` is the four bytes of the int, and a slot whose
`fd` is -1 is free. -/
structure Deferred where
  key : Key
  val : List UInt8
  deriving DecidableEq, Repr

/-- A host socket: `connecting == 1`, and the options in force. -/
structure Sock where
  connecting : Bool
  opts : Num → Num → List UInt8

structure Sockets where
  slots : Fin deferMax → Deferred
  /-- `g_defer_n` -/
  n : Int
  socks : Int → Option Sock

/-- What the host's `setsockopt` answers: 0, EINVAL, or another error. -/
inductive Answer
  | ok | einval | other
  deriving DecidableEq, Repr

inductive SockErr
  | einval | other
  deriving DecidableEq, Repr

inductive SockObs
  /-- a call on this option returned 0 -/
  | accepted (k : Key) (val : List UInt8)
  | parked (k : Key)
  | closed (fd : Int)
  deriving DecidableEq, Repr

inductive SockLabel
  | opened (fd : Int) (opts : Num → Num → List UInt8)
  | connecting (fd : Int)
  /-- the handshake ended and the runtime has noticed -/
  | connected (fd : Int)
  | setsockopt (fd : Int) (level name : Num) (val : Option (List UInt8)) (a : Answer)
  /-- send, write or their kin, with what the host answers for each slot -/
  | send (fd : Int) (a : Fin deferMax → Answer)
  | closed (fd : Int)

namespace Sockets

def init : Sockets := ⟨fun _ => ⟨⟨-1, 0#32, 0#32⟩, []⟩, 0, fun _ => none⟩

def sockIsConnecting (s : Sockets) (fd : Int) : Bool := (s.socks fd).any Sock.connecting

/-- The host takes the value. -/
def inForceAs (s : Sockets) (k : Key) (val : List UInt8) : Sockets :=
  match s.socks k.fd with
  | none => s
  | some sk =>
      let opts := fun l m => if l = k.level ∧ m = k.name then val else sk.opts l m
      { s with socks := Function.update s.socks k.fd (some { sk with opts := opts }) }

def find (s : Sockets) (p : Deferred → Bool) : Option (Fin deferMax) :=
  (List.finRange deferMax).find? fun i => p (s.slots i)

/-- The slot `defer_sockopt` ends its loop with: the one that has the option, else
the first free one. -/
def deferSlot (s : Sockets) (k : Key) : Option (Fin deferMax) :=
  match s.find fun d => d.key = k with
  | some i => some i
  | none => s.find fun d => d.key.fd = -1

def deferSockopt (s : Sockets) (k : Key) (val : List UInt8) : Option Sockets :=
  (s.deferSlot k).map fun i =>
    { s with
      slots := Function.update s.slots i ⟨k, val⟩
      n := if (s.slots i).key.fd = -1 then s.n + 1 else s.n }

/-- `d->fd = -1; g_defer_n--`. -/
def free (s : Sockets) (i : Fin deferMax) : Sockets :=
  { s with
    slots := Function.update s.slots i
      { s.slots i with key := { (s.slots i).key with fd := -1 } }
    n := s.n - 1 }

def replaySlot (fd : Int) (a : Fin deferMax → Answer) (s : Sockets) (i : Fin deferMax) : Sockets :=
  if (s.slots i).key.fd ≠ fd then s
  else
    match a i with
    | .ok => (s.inForceAs (s.slots i).key (s.slots i).val).free i
    | .einval => s
    | .other => s.free i

/-- `__ape_shim_nt_sockopt_replay`. -/
def replay (s : Sockets) (fd : Int) (a : Fin deferMax → Answer) : Sockets :=
  if s.n = 0 then s else (List.finRange deferMax).foldl (replaySlot fd a) s

def forgetSlot (fd : Int) (s : Sockets) (i : Fin deferMax) : Sockets :=
  if (s.slots i).key.fd = fd then s.free i else s

/-- `__ape_shim_nt_sockopt_forget`. -/
def forget (s : Sockets) (fd : Int) : Sockets :=
  if s.n = 0 then s else (List.finRange deferMax).foldl (forgetSlot fd) s

def deferredLookup (s : Sockets) (k : Key) : Option (List UInt8) :=
  if s.n = 0 then none else (s.find fun d => d.key = k).map fun i => (s.slots i).val

end Sockets

/-! ## The entry points -/

def Env.hostKey (env : Env) (fd : Int) (level name : Num) : Key :=
  let r := env.consts.sockoptToHost level name
  ⟨fd, r.1, r.2⟩

/-- The two calls that succeed without reaching the host: SO_REUSEPORT where the
host has none, and SOL_PACKET options of a packet socket. -/
def Env.noOp (env : Env) (fd : Int) (level name : Num) : Bool :=
  (level = linSolSocket && name = linSoReuseport && env.consts.so linSoReuseport = 0#32) ||
    (level = linSolPacket && env.packetIs fd)

/-- `__ape_shim_setsockopt`. -/
def Env.setsockopt (env : Env) (s : Sockets) (fd : Int) (level name : Num)
    (val : Option (List UInt8)) (a : Answer) : Sockets × Except SockErr Unit × List SockObs :=
  if env.noOp fd level name then (s, .ok (), [])
  else
    let k := env.hostKey fd level name
    match a, val with
    | .ok, some v => (s.inForceAs k v, .ok (), [.accepted k v])
    | .einval, some v =>
        if env.os = .windows ∧ v.length = 4 ∧ s.sockIsConnecting fd = true then
          match s.deferSockopt k v with
          | some s' => (s', .ok (), [.parked k, .accepted k v])
          | none => (s, .error .einval, [])
        else (s, .error .einval, [])
    | .einval, none => (s, .error .einval, [])
    | _, _ => (s, .error .other, [])

def sockoptIsBoolean (level name : Num) : Bool :=
  (level = linSolSocket && name ∈ [2#32, 5#32, 6#32, 9#32, 10#32, 15#32, 30#32]) ||
    (level = linIpprotoTcp && name ∈ [1#32, 3#32])

/-- What the host's answer becomes on the way back: SO_ERROR in Linux coding, and
0 or 1 for a boolean option of the BSDs. -/
def Env.readBack (env : Env) (level name : Num) (v : List UInt8) : List UInt8 :=
  let v := if level = linSolSocket ∧ name = linSoError ∧ 4 ≤ v.length then
      le 4 (env.errnoToLinux (BitVec.ofNat 32 (word 4 v 0))).toNat ++ v.drop 4
    else v
  if env.os = .bsd ∧ v.length = 4 ∧ sockoptIsBoolean level name = true then
    le 4 (if word 4 v 0 = 0 then 0 else 1)
  else v

/-- `__ape_shim_getsockopt` into a buffer with room for the option. -/
def Env.getsockopt (env : Env) (s : Sockets) (fd : Int) (level name : Num) : Option (List UInt8) :=
  let k := env.hostKey fd level name
  match s.deferredLookup k with
  | some v => some v
  | none => (s.socks fd).map fun sk => env.readBack level name (sk.opts k.level k.name)

/-! ## The machine -/

/-- The descriptor is open, and SO_ERROR, which can only be read, is neither
accepted nor put off. -/
def Env.hostMay (env : Env) (s : Sockets) (fd : Int) (level name : Num) (val : Option (List UInt8))
    (a : Answer) : Bool :=
  a = .other || ((s.socks fd).isSome && val.isSome &&
    env.hostKey fd level name ≠ env.hostKey fd linSolSocket linSoError)

def Env.step (env : Env) (s : Sockets) : SockLabel → Option (Sockets × List SockObs)
  | .opened fd opts =>
      if 0 ≤ fd ∧ s.socks fd = none then
        some ({ s with socks := Function.update s.socks fd (some ⟨false, opts⟩) }, [])
      else none
  | .connecting fd => (s.socks fd).map fun sk =>
      ({ s with socks := Function.update s.socks fd (some { sk with connecting := true }) }, [])
  | .connected fd => (s.socks fd).map fun sk =>
      ({ s with socks := Function.update s.socks fd (some { sk with connecting := false }) }, [])
  | .setsockopt fd level name val a =>
      if env.hostMay s fd level name val a then
        let r := env.setsockopt s fd level name val a
        some (r.1, r.2.2)
      else none
  | .send fd a => if (s.socks fd).isSome then some (s.replay fd a, []) else none
  | .closed fd =>
      if (s.socks fd).isSome then
        let s' := s.forget fd
        some ({ s' with socks := Function.update s'.socks fd none }, [.closed fd])
      else none

def Env.machine (env : Env) : Machine Sockets SockLabel SockObs := ⟨Sockets.init, env.step⟩

/-! ## The table, in every run -/

/-- The value `getsockopt` would get from the host. -/
def Sockets.inForce (s : Sockets) (k : Key) : Option (List UInt8) :=
  (s.socks k.fd).map fun sk => sk.opts k.level k.name

def Sockets.occupied (s : Sockets) : Finset (Fin deferMax) :=
  Finset.univ.filter fun i => (s.slots i).key.fd ≠ -1

structure Sockets.Sane (s : Sockets) : Prop where
  unique : ∀ {i j}, (s.slots i).key.fd ≠ -1 → (s.slots i).key = (s.slots j).key → i = j
  count : s.n = s.occupied.card
  live : ∀ {i}, (s.slots i).key.fd ≠ -1 → (s.socks (s.slots i).key.fd).isSome
  nonneg : ∀ {fd}, (s.socks fd).isSome → 0 ≤ fd

namespace Sockets

variable {s : Sockets}

theorem mem_occupied {i : Fin deferMax} : i ∈ s.occupied ↔ (s.slots i).key.fd ≠ -1 := by
  simp [occupied]

@[simp] theorem inForceAs_slots (k : Key) (v : List UInt8) : (s.inForceAs k v).slots = s.slots := by
  unfold inForceAs
  split <;> rfl

@[simp] theorem inForceAs_n (k : Key) (v : List UInt8) : (s.inForceAs k v).n = s.n := by
  unfold inForceAs
  split <;> rfl

theorem inForceAs_isSome (k : Key) (v : List UInt8) (fd : Int) :
    ((s.inForceAs k v).socks fd).isSome = (s.socks fd).isSome := by
  unfold inForceAs
  split
  · rfl
  · rename_i sk hsk
    by_cases hfd : fd = k.fd
    · subst hfd
      simp [hsk]
    · simp [hfd]

theorem inForce_inForceAs (k k' : Key) (v : List UInt8) (hopen : (s.socks k.fd).isSome = true) :
    (s.inForceAs k v).inForce k' = if k' = k then some v else s.inForce k' := by
  unfold inForceAs
  cases hsk : s.socks k.fd with
  | none => simp [hsk] at hopen
  | some sk =>
    simp only [inForce]
    by_cases hfd : k'.fd = k.fd
    · rw [hfd, Function.update_self, hsk]
      by_cases hk : k' = k
      · simp [hk]
      · have hne : ¬ (k'.level = k.level ∧ k'.name = k.name) := by
          rintro ⟨hl, hn⟩
          apply hk
          cases k'
          cases k
          simp_all
        simp [hk, hne]
    · have hk : k' ≠ k := by
        rintro rfl
        exact hfd rfl
      simp [hfd, hk]

theorem Sane.inForceAs (h : s.Sane) (k : Key) (v : List UInt8) : (s.inForceAs k v).Sane where
  unique {i j} hi hij := by
    simp only [inForceAs_slots] at hi hij
    exact h.unique hi hij
  count := by simpa [occupied] using h.count
  live := by
    intro i hi
    rw [inForceAs_isSome]
    simp only [inForceAs_slots] at hi ⊢
    exact h.live hi
  nonneg := by
    intro fd hfd
    rw [inForceAs_isSome] at hfd
    exact h.nonneg hfd

/-! ### Freeing a slot -/

theorem free_slot (i j : Fin deferMax) (hj : ((s.free i).slots j).key.fd ≠ -1) :
    j ≠ i ∧ (s.free i).slots j = s.slots j := by
  by_cases hji : j = i
  · subst hji
    simp [free] at hj
  · exact ⟨hji, by simp [free, hji]⟩

theorem occupied_free (i : Fin deferMax) : (s.free i).occupied = s.occupied.erase i := by
  ext j
  rw [Finset.mem_erase, mem_occupied, mem_occupied]
  constructor
  · intro hj
    obtain ⟨hne, he⟩ := free_slot i j hj
    exact ⟨hne, he ▸ hj⟩
  · rintro ⟨hne, hj⟩
    simpa [free, hne] using hj

theorem Sane.free (h : s.Sane) {i : Fin deferMax} (hi : (s.slots i).key.fd ≠ -1) :
    (s.free i).Sane where
  unique {j k} hj hjk := by
    obtain ⟨-, hje⟩ := free_slot i j hj
    obtain ⟨-, hke⟩ := free_slot i k (hjk ▸ hj)
    rw [hje] at hj hjk
    rw [hke] at hjk
    exact h.unique hj hjk
  count := by
    have hmem : i ∈ s.occupied := mem_occupied.mpr hi
    have hpos := Finset.card_pos.mpr ⟨i, hmem⟩
    rw [occupied_free, Finset.card_erase_of_mem hmem]
    show s.n - 1 = _
    rw [h.count]
    omega
  live {j} hj := by
    obtain ⟨-, hje⟩ := free_slot i j hj
    rw [hje] at hj ⊢
    exact h.live hj
  nonneg := h.nonneg

theorem Sane.init : Sockets.init.Sane where
  unique h := by simp [Sockets.init] at h
  count := by simp [Sockets.init, occupied]
  live h := by simp [Sockets.init] at h
  nonneg h := by simp [Sockets.init] at h

/-! ### Parking -/

theorem find_some {p : Deferred → Bool} {i : Fin deferMax} (h : s.find p = some i) :
    p (s.slots i) = true :=
  List.find?_some (p := fun i => p (s.slots i)) h

theorem find_none {p : Deferred → Bool} (h : s.find p = none) (i : Fin deferMax) :
    p (s.slots i) = false := by
  have := List.find?_eq_none.mp h i (List.mem_finRange i)
  simpa using this

/-- The slot is the option's own, or a free one while the option has none. -/
theorem deferSlot_some {k : Key} {i : Fin deferMax} (h : s.deferSlot k = some i) :
    (s.slots i).key = k ∨ ((s.slots i).key.fd = -1 ∧ ∀ j, (s.slots j).key ≠ k) := by
  unfold deferSlot at h
  split at h
  · rename_i j hj
    cases h
    exact Or.inl (by simpa using find_some hj)
  · rename_i hnone
    exact Or.inr ⟨by simpa using find_some h, fun j => by simpa using find_none hnone j⟩

theorem deferSockopt_some {k : Key} {v : List UInt8} {s' : Sockets}
    (h : s.deferSockopt k v = some s') :
    ∃ i, s'.slots = Function.update s.slots i ⟨k, v⟩ ∧ s'.socks = s.socks ∧
      s'.n = (if (s.slots i).key.fd = -1 then s.n + 1 else s.n) ∧
      ((s.slots i).key = k ∨ ((s.slots i).key.fd = -1 ∧ ∀ j, (s.slots j).key ≠ k)) := by
  unfold deferSockopt at h
  cases hi : s.deferSlot k with
  | none => simp [hi] at h
  | some i =>
    simp only [hi, Option.map_some, Option.some.injEq] at h
    subst h
    exact ⟨i, rfl, rfl, rfl, deferSlot_some hi⟩

theorem Sane.deferSockopt (h : s.Sane) {k : Key} {v : List UInt8} {s' : Sockets}
    (hopen : (s.socks k.fd).isSome = true) (hd : s.deferSockopt k v = some s') : s'.Sane := by
  obtain ⟨i, hslots, hsocks, hn, hi⟩ := deferSockopt_some hd
  have hfd : k.fd ≠ -1 := by
    have := h.nonneg hopen
    omega
  -- no other slot has the option
  have hother : ∀ j, j ≠ i → (s.slots j).key ≠ k := by
    intro j hji hjk
    rcases hi with hi | ⟨-, hno⟩
    · exact hji (h.unique (hjk ▸ hfd) (hjk.trans hi.symm))
    · exact hno j hjk
  have hslot : ∀ j, s'.slots j = if j = i then ⟨k, v⟩ else s.slots j := by
    intro j
    rw [hslots, Function.update_apply]
  constructor
  · intro j j' hj hjj
    rw [hslot j] at hj hjj
    rw [hslot j'] at hjj
    by_cases h₁ : j = i
    · by_cases h₂ : j' = i
      · rw [h₁, h₂]
      · simp only [h₁, h₂, if_true, if_false] at hjj
        exact absurd hjj.symm (hother j' h₂)
    · by_cases h₂ : j' = i
      · simp only [h₁, h₂, if_true, if_false] at hjj
        exact absurd hjj (hother j h₁)
      · simp only [h₁, h₂, if_false] at hj hjj
        exact h.unique hj hjj
  · have hocc : s'.occupied = insert i s.occupied := by
      ext j
      rw [Finset.mem_insert, mem_occupied, mem_occupied, hslot j]
      by_cases hji : j = i
      · simp [hji, hfd]
      · simp [hji]
    rw [hn, hocc, h.count]
    by_cases hfree : (s.slots i).key.fd = -1
    · rw [Finset.card_insert_of_notMem (by simp [mem_occupied, hfree]), if_pos hfree]
      simp
    · rw [Finset.insert_eq_of_mem (mem_occupied.mpr hfree), if_neg hfree]
  · intro j hj
    rw [hslot j] at hj ⊢
    rw [hsocks]
    by_cases hji : j = i
    · simpa [hji] using hopen
    · simp only [hji, if_false] at hj ⊢
      exact h.live hj
  · intro fd
    rw [hsocks]
    exact h.nonneg

/-! ### Replaying and forgetting -/

theorem Sane.replaySlot (h : s.Sane) {fd : Int} (hfd : fd ≠ -1) (a : Fin deferMax → Answer)
    (i : Fin deferMax) : (replaySlot fd a s i).Sane := by
  unfold Sockets.replaySlot
  split
  · exact h
  · rename_i hi
    have hi : (s.slots i).key.fd = fd := not_not.mp hi
    split
    · exact (h.inForceAs _ _).free (by simpa [hi] using hfd)
    · exact h
    · exact h.free (hi ▸ hfd)

theorem Sane.replay (h : s.Sane) {fd : Int} (hfd : fd ≠ -1) (a : Fin deferMax → Answer) :
    (s.replay fd a).Sane := by
  unfold Sockets.replay
  split
  · exact h
  · suffices hl : ∀ (l : List (Fin deferMax)) (s : Sockets), s.Sane →
        (l.foldl (Sockets.replaySlot fd a) s).Sane from hl _ _ h
    intro l
    induction l with
    | nil => exact fun s hs => hs
    | cons i l ih => exact fun s hs => ih _ (hs.replaySlot hfd a i)

/-- While the counter is 0 every slot is free. -/
theorem Sane.free_of_zero (h : s.Sane) (hn : s.n = 0) (i : Fin deferMax) :
    (s.slots i).key.fd = -1 := by
  by_contra hi
  have hpos := Finset.card_pos.mpr ⟨i, mem_occupied.mpr hi⟩
  have := h.count
  omega

/-- The slots of `l` that had the descriptor are free, the others as they were. -/
structure Forgotten (fd : Int) (l : List (Fin deferMax)) (s s' : Sockets) : Prop where
  sane : s'.Sane
  socks : s'.socks = s.socks
  slots : ∀ i, (s'.slots i).key.fd ≠ -1 →
    s'.slots i = s.slots i ∧ (i ∈ l → (s.slots i).key.fd ≠ fd)
  kept : ∀ i, (s.slots i).key.fd ≠ fd → s'.slots i = s.slots i

theorem foldl_forgetSlot {fd : Int} (hfd : fd ≠ -1) (l : List (Fin deferMax)) (h : s.Sane) :
    Forgotten fd l s (l.foldl (forgetSlot fd) s) := by
  induction l generalizing s with
  | nil => exact ⟨h, rfl, fun i _ => ⟨rfl, by simp⟩, fun i _ => rfl⟩
  | cons j l ih =>
    simp only [List.foldl_cons, forgetSlot]
    split
    · rename_i hj
      obtain ⟨h₁, h₂, h₃, h₄⟩ := ih (h.free (hj ▸ hfd))
      refine ⟨h₁, h₂, ?_, ?_⟩
      · intro i hi
        obtain ⟨he, hl⟩ := h₃ i hi
        rw [he] at hi
        obtain ⟨hne, hs⟩ := free_slot j i hi
        refine ⟨he.trans hs, fun hmem => ?_⟩
        rw [← hs]
        exact hl (List.mem_of_ne_of_mem hne hmem)
      · intro i hi
        have hne : i ≠ j := by
          rintro rfl
          exact hi hj
        have hs : (s.free j).slots i = s.slots i := by simp [Sockets.free, hne]
        rw [h₄ i (hs ▸ hi), hs]
    · rename_i hj
      obtain ⟨h₁, h₂, h₃, h₄⟩ := ih h
      refine ⟨h₁, h₂, ?_, h₄⟩
      intro i hi
      obtain ⟨he, hl⟩ := h₃ i hi
      refine ⟨he, fun hmem => ?_⟩
      rcases List.mem_cons.mp hmem with rfl | hmem
      · exact hj
      · exact hl hmem

theorem forget_spec (h : s.Sane) {fd : Int} (hfd : fd ≠ -1) :
    Forgotten fd (List.finRange deferMax) s (s.forget fd) := by
  unfold Sockets.forget
  split
  · rename_i hn
    exact ⟨h, rfl, fun i hi => absurd (h.free_of_zero hn i) hi, fun _ _ => rfl⟩
  · exact foldl_forgetSlot hfd _ h

end Sockets

/-! ## What the log says of an option -/

/-- The value of the last call on an option that returned 0, since its descriptor
was last closed. -/
def lastSet (k : Key) : List SockObs → Option (List UInt8)
  | [] => none
  | .accepted k' v :: log => if k' = k then some v else lastSet k log
  | .parked _ :: log => lastSet k log
  | .closed fd :: log => if fd = k.fd then none else lastSet k log

/-- The option was parked at some time since then. -/
def EverParked (k : Key) (log : List SockObs) : Prop :=
  Since (fun o => o = .closed k.fd) (fun o => o = .parked k) log

/-- Where a parked option and the host stand, against the log. -/
structure Truth (s : Sockets) (log : List SockObs) : Prop where
  parked : ∀ {i}, (s.slots i).key.fd ≠ -1 →
    EverParked (s.slots i).key log ∧ lastSet (s.slots i).key log = some (s.slots i).val
  settled : ∀ {k}, EverParked k log → (∀ i, (s.slots i).key ≠ k) →
    ∃ v, lastSet k log = some v ∧ s.inForce k = some v
  real : ∀ {k}, EverParked k log → k.fd ≠ -1

namespace Truth

variable {s : Sockets} {log : List SockObs}

/-- An option that was ever parked belongs to an open descriptor. -/
theorem isSome (t : Truth s log) (h : s.Sane) {k : Key} (hk : EverParked k log) :
    (s.socks k.fd).isSome = true := by
  by_cases hslot : ∀ i, (s.slots i).key ≠ k
  · obtain ⟨v, -, hv⟩ := t.settled hk hslot
    unfold Sockets.inForce at hv
    cases hs : s.socks k.fd with
    | none => simp [hs] at hv
    | some sk => rfl
  · simp only [ne_eq, not_forall, not_not] at hslot
    obtain ⟨i, rfl⟩ := hslot
    exact h.live (t.real hk)

theorem start : Truth Sockets.init [] where
  parked h := by simp [Sockets.init] at h
  settled h := by simp [EverParked, Since] at h
  real h := by simp [EverParked, Since] at h

theorem everParked_accepted (k k' : Key) (v : List UInt8) :
    EverParked k (.accepted k' v :: log) ↔ EverParked k log := by
  simp [EverParked, Since]

theorem everParked_parked (k k' : Key) :
    EverParked k (.parked k' :: log) ↔ k' = k ∨ EverParked k log := by
  simp [EverParked, Since]

theorem everParked_closed (k : Key) (fd : Int) :
    EverParked k (.closed fd :: log) ↔ fd ≠ k.fd ∧ EverParked k log := by
  simp [EverParked, Since]

/-- Sockets come and go and change state; the options in force of those that have
parked something do not change. -/
theorem socks (t : Truth s log) {s' : Sockets} (hslots : s'.slots = s.slots)
    (hforce : ∀ k, EverParked k log → s'.inForce k = s.inForce k) : Truth s' log := by
  refine ⟨?_, ?_, t.real⟩
  · rw [hslots]
    exact t.parked
  · intro k hk hno
    rw [hslots] at hno
    rw [hforce k hk]
    exact t.settled hk hno

/-- The host accepts a value directly. -/
theorem accept (t : Truth s log) {k : Key} {v : List UInt8} (hopen : (s.socks k.fd).isSome = true)
    (hsame : ∀ i, (s.slots i).key = k → (s.slots i).val = v) :
    Truth (s.inForceAs k v) (.accepted k v :: log) := by
  refine ⟨?_, ?_, ?_⟩
  · intro i hi
    simp only [Sockets.inForceAs_slots] at hi ⊢
    rw [everParked_accepted, lastSet]
    obtain ⟨hp, hl⟩ := t.parked hi
    refine ⟨hp, ?_⟩
    split
    · rename_i hk
      rw [hsame i hk.symm]
    · exact hl
  · intro k' hk' hno
    rw [everParked_accepted] at hk'
    simp only [Sockets.inForceAs_slots] at hno
    rw [lastSet, Sockets.inForce_inForceAs k k' v hopen]
    by_cases hk : k = k'
    · exact ⟨v, by simp [hk], by simp [hk]⟩
    · simp only [hk, Ne.symm hk, if_false]
      exact t.settled hk' hno
  · intro k' hk'
    rw [everParked_accepted] at hk'
    exact t.real hk'

/-- The value is put off. -/
theorem park (t : Truth s log) (h : s.Sane) {k : Key} {v : List UInt8} {s' : Sockets}
    (hopen : (s.socks k.fd).isSome = true) (hd : s.deferSockopt k v = some s') :
    Truth s' (.parked k :: .accepted k v :: log) := by
  obtain ⟨i, hslots, hsocks, -, hi⟩ := Sockets.deferSockopt_some hd
  have hfd : k.fd ≠ -1 := by
    have := h.nonneg hopen
    omega
  have hslot : ∀ j, s'.slots j = if j = i then ⟨k, v⟩ else s.slots j := by
    intro j
    rw [hslots, Function.update_apply]
  refine ⟨?_, ?_, ?_⟩
  · intro j hj
    rw [hslot j] at hj ⊢
    by_cases hji : j = i
    · simp [hji, everParked_parked, lastSet]
    · simp only [hji, if_false] at hj ⊢
      obtain ⟨hp, hl⟩ := t.parked hj
      have hne : k ≠ (s.slots j).key := by
        rintro hk
        rcases hi with hi | ⟨-, hno⟩
        · exact hji (h.unique hj (hk.symm.trans hi.symm))
        · exact hno j hk.symm
      simp [everParked_parked, everParked_accepted, hp, lastSet, hne, hl]
  · intro k' hk' hno
    have hne : k ≠ k' := by
      have := hno i
      rw [hslot i] at this
      simpa using this
    rw [everParked_parked, everParked_accepted] at hk'
    have hk' := hk'.resolve_left hne
    simp only [lastSet, hne, if_false]
    have hforce : s'.inForce k' = s.inForce k' := by simp [Sockets.inForce, hsocks]
    rw [hforce]
    refine t.settled hk' fun j => ?_
    by_cases hji : j = i
    · -- the slot was free or the parked option's own
      subst hji
      rcases hi with hi | ⟨hi, -⟩
      · rw [hi]
        exact hne
      · rintro rfl
        exact t.real hk' hi
    · have := hno j
      rw [hslot j] at this
      simpa [hji] using this
  · intro k' hk'
    rw [everParked_parked, everParked_accepted] at hk'
    rcases hk' with rfl | hk'
    · exact hfd
    · exact t.real hk'

/-- Retrying gives no slot to the descriptor. -/
theorem replaySlot_fd {fd : Int} (hfd : fd ≠ -1) {a : Fin deferMax → Answer} {i j : Fin deferMax}
    (h : ((Sockets.replaySlot fd a s j).slots i).key.fd = fd) : (s.slots i).key.fd = fd := by
  unfold Sockets.replaySlot at h
  split at h
  · exact h
  · split at h
    · obtain ⟨-, he⟩ := Sockets.free_slot j i (by rw [h]; exact hfd)
      rw [he] at h
      simpa using h
    · exact h
    · obtain ⟨-, he⟩ := Sockets.free_slot j i (by rw [h]; exact hfd)
      rwa [he] at h

/-- One slot is retried. -/
theorem replaySlot (t : Truth s log) (h : s.Sane) {fd : Int} (hfd : fd ≠ -1)
    {a : Fin deferMax → Answer} {i : Fin deferMax} (ha : (s.slots i).key.fd = fd → a i ≠ .other) :
    Truth (Sockets.replaySlot fd a s i) log := by
  unfold Sockets.replaySlot
  split
  · exact t
  · rename_i hi
    have hi : (s.slots i).key.fd = fd := not_not.mp hi
    have hreal : (s.slots i).key.fd ≠ -1 := hi ▸ hfd
    have hopen := h.live hreal
    split
    · refine ⟨?_, ?_, t.real⟩
      · intro j hj
        obtain ⟨-, he⟩ := Sockets.free_slot i j hj
        rw [he] at hj ⊢
        simp only [Sockets.inForceAs_slots] at hj ⊢
        exact t.parked hj
      · intro k hk hno
        have hforce : ((s.inForceAs (s.slots i).key (s.slots i).val).free i).inForce k =
            (s.inForceAs (s.slots i).key (s.slots i).val).inForce k := rfl
        rw [hforce, Sockets.inForce_inForceAs _ _ _ hopen]
        by_cases hki : k = (s.slots i).key
        · subst hki
          exact ⟨_, (t.parked hreal).2, by simp⟩
        · simp only [hki, if_false]
          refine t.settled hk fun j => ?_
          by_cases hji : j = i
          · subst hji
            exact Ne.symm hki
          · have := hno j
            simpa [Sockets.free, hji] using this
    · exact t
    · rename_i hother
      exact absurd hother (ha hi)

theorem foldl_replaySlot {fd : Int} (hfd : fd ≠ -1) {a : Fin deferMax → Answer}
    (l : List (Fin deferMax)) (t : Truth s log) (h : s.Sane)
    (ha : ∀ i, (s.slots i).key.fd = fd → a i ≠ .other) :
    Truth (l.foldl (Sockets.replaySlot fd a) s) log := by
  induction l generalizing s with
  | nil => exact t
  | cons j l ih =>
    refine ih (t.replaySlot h hfd (ha j)) (h.replaySlot hfd a j) ?_
    intro i hi
    exact ha i (replaySlot_fd hfd hi)

theorem close (t : Truth s log) (h : s.Sane) {fd : Int} (hfd : fd ≠ -1) :
    Truth { s.forget fd with socks := Function.update (s.forget fd).socks fd none }
      (.closed fd :: log) := by
  obtain ⟨-, hsocks, hslots, hkept⟩ := Sockets.forget_spec h hfd
  refine ⟨?_, ?_, ?_⟩
  · intro i hi
    obtain ⟨he, hne⟩ := hslots i hi
    have hne := (hne (List.mem_finRange i)).symm
    show EverParked ((s.forget fd).slots i).key _ ∧ lastSet ((s.forget fd).slots i).key _ =
      some ((s.forget fd).slots i).val
    change ((s.forget fd).slots i).key.fd ≠ -1 at hi
    rw [he] at hi ⊢
    obtain ⟨hp, hl⟩ := t.parked hi
    rw [everParked_closed, lastSet, if_neg hne]
    exact ⟨⟨hne, hp⟩, hl⟩
  · intro k hk hno
    rw [everParked_closed] at hk
    have hforce : Sockets.inForce
        { s.forget fd with socks := Function.update (s.forget fd).socks fd none } k =
        s.inForce k := by
      simp [Sockets.inForce, Ne.symm hk.1, hsocks]
    rw [lastSet, if_neg hk.1, hforce]
    refine t.settled hk.2 fun i hi => ?_
    have hne : (s.slots i).key.fd ≠ fd := by
      rw [hi]
      exact Ne.symm hk.1
    apply hno i
    show ((s.forget fd).slots i).key = k
    rw [hkept i hne, hi]
  · intro k hk
    rw [everParked_closed] at hk
    exact t.real hk.2

end Truth

/-! ## Over whole runs -/

/-- A value the host accepts directly is not for an option still parked with
another one, and a retried option is accepted or refused with EINVAL again. -/
def Undivided (env : Env) (s : Sockets) : SockLabel → Prop
  | .setsockopt fd level name (some v) .ok => env.noOp fd level name = false →
      ∀ i, (s.slots i).key = env.hostKey fd level name → (s.slots i).val = v
  | .send fd a => ∀ i, (s.slots i).key.fd = fd → a i ≠ .other
  | _ => True

/-- Only Windows parks, and never SO_ERROR. -/
def Origin (env : Env) (log : List SockObs) : Prop :=
  ∀ k, EverParked k log →
    env.os = .windows ∧ k ≠ env.hostKey k.fd linSolSocket linSoError

/-- What one `setsockopt` that the host may answer so can do. -/
theorem setsockopt_cases (env : Env) (s : Sockets) (fd : Int) (level name : Num)
    (val : Option (List UInt8)) (a : Answer) (hmay : env.hostMay s fd level name val a = true) :
    (∃ e, env.setsockopt s fd level name val a = (s, e, [])) ∨
    (∃ v, val = some v ∧ a = .ok ∧ env.noOp fd level name = false ∧ (s.socks fd).isSome = true ∧
      env.setsockopt s fd level name val a =
        (s.inForceAs (env.hostKey fd level name) v, .ok (),
          [.accepted (env.hostKey fd level name) v])) ∨
    (∃ v s', env.os = .windows ∧ (s.socks fd).isSome = true ∧
      env.hostKey fd level name ≠ env.hostKey fd linSolSocket linSoError ∧
      s.deferSockopt (env.hostKey fd level name) v = some s' ∧
      env.setsockopt s fd level name val a =
        (s', .ok (), [.parked (env.hostKey fd level name),
          .accepted (env.hostKey fd level name) v])) := by
  unfold Env.setsockopt
  cases hno : env.noOp fd level name with
  | true => exact Or.inl ⟨_, rfl⟩
  | false =>
    simp only [Bool.false_eq_true, if_false]
    simp only [Env.hostMay, Bool.or_eq_true, decide_eq_true_eq, Bool.and_eq_true] at hmay
    cases a with
    | other => exact Or.inl ⟨_, rfl⟩
    | ok =>
      simp only [reduceCtorEq, false_or] at hmay
      cases val with
      | none => exact Or.inl ⟨_, rfl⟩
      | some v => exact Or.inr (Or.inl ⟨v, rfl, rfl, trivial, hmay.1.1, rfl⟩)
    | einval =>
      simp only [reduceCtorEq, false_or] at hmay
      cases val with
      | none => exact Or.inl ⟨_, rfl⟩
      | some v =>
        simp only
        split
        · rename_i hpark
          cases hd : s.deferSockopt (env.hostKey fd level name) v with
          | none => exact Or.inl ⟨_, rfl⟩
          | some s' => exact Or.inr (Or.inr ⟨v, s', hpark.1, hmay.1.1, hmay.2, hd, rfl⟩)
        · exact Or.inl ⟨_, rfl⟩

/-- Everything a run keeps. -/
structure Held (env : Env) (s : Sockets) (log : List SockObs) : Prop where
  sane : s.Sane
  truth : Truth s log
  origin : Origin env log

namespace Held

variable {env : Env} {s : Sockets} {log : List SockObs}

theorem start : Held env Sockets.init [] :=
  ⟨.init, .start, fun k hk => by simp [EverParked, Since] at hk⟩

/-- A descriptor is opened, or its connect starts or ends. -/
theorem socks (h : Held env s log) {fd : Int} {sk : Sock} (hfd : 0 ≤ fd)
    (hforce : (s.socks fd).isSome = true → ∀ k : Key, k.fd = fd →
      s.inForce k = some (sk.opts k.level k.name)) :
    Held env { s with socks := Function.update s.socks fd (some sk) } log := by
  refine ⟨⟨h.sane.unique, h.sane.count, ?_, ?_⟩, h.truth.socks rfl ?_, h.origin⟩
  · intro i hi
    have := h.sane.live hi
    by_cases he : (s.slots i).key.fd = fd
    · simp [he]
    · simpa [he] using this
  · intro fd' hfd'
    by_cases he : fd' = fd
    · rw [he]
      exact hfd
    · simp only [Function.update_of_ne he] at hfd'
      exact h.sane.nonneg hfd'
  · intro k hk
    by_cases he : k.fd = fd
    · have hopen := h.truth.isSome h.sane hk
      rw [he] at hopen
      rw [hforce hopen k he]
      simp [Sockets.inForce, he]
    · simp [Sockets.inForce, he]

theorem step {s' : Sockets} {out : List SockObs} {a : SockLabel} (h : Held env s log)
    (hok : Undivided env s a) (hs : env.step s a = some (s', out)) : Held env s' (out ++ log) := by
  cases a with
  | opened fd opts =>
    simp only [Env.step, Option.ite_none_right_eq_some, Option.some.injEq, Prod.mk.injEq] at hs
    obtain ⟨⟨hfd, hnone⟩, rfl, rfl⟩ := hs
    exact h.socks hfd fun hopen => by simp [hnone] at hopen
  | connecting fd =>
    simp only [Env.step, Option.map_eq_some_iff, Prod.mk.injEq] at hs
    obtain ⟨sk, hsk, rfl, rfl⟩ := hs
    exact h.socks (h.sane.nonneg (by simp [hsk])) fun _ k hk => by simp [Sockets.inForce, hk, hsk]
  | connected fd =>
    simp only [Env.step, Option.map_eq_some_iff, Prod.mk.injEq] at hs
    obtain ⟨sk, hsk, rfl, rfl⟩ := hs
    exact h.socks (h.sane.nonneg (by simp [hsk])) fun _ k hk => by simp [Sockets.inForce, hk, hsk]
  | setsockopt fd level name val a =>
    simp only [Env.step, Option.ite_none_right_eq_some, Option.some.injEq, Prod.mk.injEq] at hs
    obtain ⟨hmay, rfl, rfl⟩ := hs
    rcases setsockopt_cases env s fd level name val a hmay with
      ⟨e, he⟩ | ⟨v, rfl, rfl, hno, hopen, he⟩ | ⟨v, s', hos, hopen, herr, hd, he⟩
    · rw [he]
      exact h
    · rw [he]
      refine ⟨h.sane.inForceAs _ _, h.truth.accept hopen (hok hno), ?_⟩
      intro k hk
      exact h.origin k ((Truth.everParked_accepted k _ v).mp hk)
    · rw [he]
      refine ⟨h.sane.deferSockopt hopen hd, h.truth.park h.sane hopen hd, ?_⟩
      intro k hk
      rw [List.cons_append, Truth.everParked_parked, List.cons_append,
        Truth.everParked_accepted] at hk
      rcases hk with rfl | hk
      · exact ⟨hos, herr⟩
      · exact h.origin k hk
  | send fd a =>
    simp only [Env.step, Option.ite_none_right_eq_some, Option.some.injEq, Prod.mk.injEq] at hs
    obtain ⟨hopen, rfl, rfl⟩ := hs
    have hfd : fd ≠ -1 := by
      have := h.sane.nonneg hopen
      omega
    refine ⟨h.sane.replay hfd a, ?_, h.origin⟩
    unfold Sockets.replay
    split
    · exact h.truth
    · exact h.truth.foldl_replaySlot hfd _ h.sane hok
  | closed fd =>
    simp only [Env.step, Option.ite_none_right_eq_some, Option.some.injEq, Prod.mk.injEq] at hs
    obtain ⟨hopen, rfl, rfl⟩ := hs
    have hfd : fd ≠ -1 := by
      have := h.sane.nonneg hopen
      omega
    refine ⟨?_, h.truth.close h.sane hfd, ?_⟩
    · obtain ⟨hsane, hsocks, hslots, -⟩ := Sockets.forget_spec h.sane hfd
      refine ⟨hsane.unique, hsane.count, ?_, ?_⟩
      · intro i hi
        change ((s.forget fd).slots i).key.fd ≠ -1 at hi
        obtain ⟨he, hne⟩ := hslots i hi
        have hne := hne (List.mem_finRange i)
        show ((Function.update (s.forget fd).socks fd none) ((s.forget fd).slots i).key.fd).isSome
        rw [he, Function.update_of_ne hne, ← he]
        exact hsane.live hi
      · intro fd' hfd'
        by_cases he : fd' = fd
        · simp [he] at hfd'
        · simp only [Function.update_of_ne he] at hfd'
          exact hsane.nonneg hfd'
    · intro k hk
      exact h.origin k ((Truth.everParked_closed k fd).mp hk).2

theorem of_run (h : env.machine.Run (Undivided env) s log) : Held env s log := by
  refine Machine.Run.invariant (P := Held env) start ?_ h
  intro s log a s' out hh hok hs
  exact hh.step hok hs

end Held

/-! ## What the caller sees -/

theorem Sockets.deferredLookup_some {s : Sockets} {k : Key} {v : List UInt8}
    (h : s.deferredLookup k = some v) : ∃ i, (s.slots i).key = k ∧ (s.slots i).val = v := by
  unfold deferredLookup at h
  split at h
  · cases h
  · obtain ⟨i, hi, rfl⟩ := Option.map_eq_some_iff.mp h
    exact ⟨i, by simpa using find_some hi, rfl⟩

theorem Sockets.deferredLookup_none {s : Sockets} (hs : s.Sane) {k : Key} (hk : k.fd ≠ -1)
    (h : s.deferredLookup k = none) (i : Fin deferMax) : (s.slots i).key ≠ k := by
  rintro rfl
  unfold deferredLookup at h
  split at h
  · rename_i hn
    exact hk (hs.free_of_zero hn i)
  · have := find_none (Option.map_eq_none_iff.mp h) i
    simp at this

/-- The parked options and the host agree with what the caller was told. -/
structure Coherent (env : Env) (s : Sockets) (log : List SockObs) : Prop where
  /-- at most one slot for an option -/
  unique : ∀ {i j}, (s.slots i).key.fd ≠ -1 → (s.slots i).key = (s.slots j).key → i = j
  count : s.n = s.occupied.card
  /-- what is parked was parked on this socket -/
  survives : ∀ {i}, (s.slots i).key.fd ≠ -1 →
    (s.socks (s.slots i).key.fd).isSome = true ∧ EverParked (s.slots i).key log
  reported : ∀ {fd level name}, EverParked (env.hostKey fd level name) log →
    ∃ v, lastSet (env.hostKey fd level name) log = some v ∧
      env.getsockopt s fd level name = some v
  inForce : ∀ {k}, EverParked k log → s.deferredLookup k = none →
    ∃ v, lastSet k log = some v ∧ s.inForce k = some v

/-- **Deferred options.** In a run in which no option is set directly to another
value than the one still parked for it, and every retry is accepted or refused
with EINVAL, the parked options and the host always agree with the last call that
returned 0. -/
theorem deferred_options_coherent {env : Env} {s : Sockets} {log : List SockObs}
    (h : env.machine.Run (Undivided env) s log) : Coherent env s log := by
  obtain ⟨hsane, htruth, horigin⟩ := Held.of_run h
  refine ⟨hsane.unique, hsane.count, fun hi => ⟨hsane.live hi, (htruth.parked hi).1⟩, ?_, ?_⟩
  · intro fd level name hk
    have hreal := htruth.real hk
    obtain ⟨hos, herr⟩ := horigin _ hk
    unfold Env.getsockopt
    simp only
    cases hl : s.deferredLookup (env.hostKey fd level name) with
    | some v =>
      obtain ⟨i, hik, rfl⟩ := Sockets.deferredLookup_some hl
      refine ⟨_, ?_, rfl⟩
      rw [← hik]
      exact (htruth.parked (by rw [hik]; exact hreal)).2
    | none =>
      obtain ⟨v, hlast, hv⟩ := htruth.settled hk (Sockets.deferredLookup_none hsane hreal hl)
      refine ⟨v, hlast, ?_⟩
      have hne : ¬ (level = linSolSocket ∧ name = linSoError) := by
        rintro ⟨rfl, rfl⟩
        exact herr rfl
      have hplain : ∀ w, env.readBack level name w = w := by
        intro w
        have h₁ : ¬ (level = linSolSocket ∧ name = linSoError ∧ 4 ≤ w.length) :=
          fun hc => hne ⟨hc.1, hc.2.1⟩
        simp [Env.readBack, h₁, hos]
      simp only [hplain]
      exact hv
  · intro k hk hl
    exact htruth.settled hk (Sockets.deferredLookup_none hsane (htruth.real hk) hl)

/-! ## TCP_NODELAY during a connect -/

/-- Windows; the numbers that matter here are the same on both sides. -/
def ntEnv : Env := ⟨.windows, ⟨0xffff#32, id, id, id, id⟩, fun _ => false, id⟩

def nodelay : Key := ⟨3, linIpprotoTcp, 1#32⟩

/-- Descriptor 3 starts to connect, TCP_NODELAY is parked, and the connect ends. -/
def parkNodelay : List SockLabel :=
  [.opened 3 fun _ _ => [0, 0, 0, 0], .connecting 3,
    .setsockopt 3 linIpprotoTcp 1#32 (some [1, 0, 0, 0]) .einval, .connected 3]

/-- No value is accepted directly and no retry is refused. -/
def onlyParked (_ : Sockets) : SockLabel → Bool
  | .setsockopt _ _ _ _ .ok => false
  | .send _ a => (List.finRange deferMax).all fun i => a i = .ok
  | _ => true

theorem undivided_of_onlyParked (env : Env) (s : Sockets) (a : SockLabel)
    (h : onlyParked s a = true) : Undivided env s a := by
  cases a with
  | setsockopt fd level name val a =>
    cases a with
    | ok => cases h
    | einval => cases val <;> exact trivial
    | other => cases val <;> exact trivial
  | send fd a =>
    intro i _
    have := List.all_eq_true.mp h i (List.mem_finRange i)
    simp only [decide_eq_true_eq] at this
    simp [this]
  | _ => exact trivial

theorem deferred_options_coherent_nodelay :
    ∃ s log, ntEnv.machine.Run (Undivided ntEnv) s log ∧ lastSet nodelay log = some [1, 0, 0, 0] ∧
      s.inForce nodelay = some [1, 0, 0, 0] ∧ Coherent ntEnv s log := by
  have hstart : ntEnv.machine.Run (Undivided ntEnv) Sockets.init [] := .start
  obtain ⟨s, log, hrun, hP⟩ := hstart.extend onlyParked (undivided_of_onlyParked ntEnv)
    (parkNodelay ++ [.send 3 fun _ => .ok])
    (fun s log => lastSet nodelay log = some [1, 0, 0, 0] ∧ s.inForce nodelay = some [1, 0, 0, 0])
    (by decide +kernel)
  simp only [decide_eq_true_eq] at hP
  exact ⟨s, log, hrun, hP.1, hP.2, deferred_options_coherent hrun⟩

/-- The option is parked as 1 and then, the connect over, set to 0 directly:
`getsockopt` still answers 1, and the next send puts 1 in force. -/
theorem parked_copy_outlives_direct_set :
    ∃ s log, ntEnv.machine.Run anyStep s log ∧ ¬ Coherent ntEnv s log ∧
      lastSet nodelay log = some [0, 0, 0, 0] ∧
      ntEnv.getsockopt s 3 linIpprotoTcp 1#32 = some [1, 0, 0, 0] ∧
      (s.replay 3 fun _ => .ok).inForce nodelay = some [1, 0, 0, 0] := by
  have hstart : ntEnv.machine.Run anyStep Sockets.init [] := .start
  obtain ⟨s, log, hrun, hP⟩ := hstart.extend (fun _ _ => true) (fun _ _ _ => trivial)
    (parkNodelay ++ [.setsockopt 3 linIpprotoTcp 1#32 (some [0, 0, 0, 0]) .ok])
    (fun s log => log = [SockObs.accepted nodelay [0, 0, 0, 0], .parked nodelay,
        .accepted nodelay [1, 0, 0, 0]] ∧
      ntEnv.getsockopt s 3 linIpprotoTcp 1#32 = some [1, 0, 0, 0] ∧
      (s.replay 3 fun _ => .ok).inForce nodelay = some [1, 0, 0, 0])
    (by decide +kernel)
  simp only [decide_eq_true_eq] at hP
  obtain ⟨rfl, hget, hsent⟩ := hP
  refine ⟨s, _, hrun, ?_, rfl, hget, hsent⟩
  intro hc
  have hkey : ntEnv.hostKey 3 linIpprotoTcp 1#32 = nodelay := by decide
  have hparked : EverParked nodelay [.accepted nodelay [0, 0, 0, 0], .parked nodelay,
      .accepted nodelay [1, 0, 0, 0]] := by
    rw [Truth.everParked_accepted, Truth.everParked_parked]
    exact Or.inl rfl
  obtain ⟨v, hlast, hv⟩ := hc.reported (hkey.symm ▸ hparked)
  rw [hkey] at hlast
  rw [hget] at hv
  cases hv
  exact absurd hlast (by decide)

end ApeShim.Socket
