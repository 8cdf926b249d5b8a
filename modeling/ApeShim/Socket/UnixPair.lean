import ApeShim.Lib.Machine
import Mathlib.Data.List.Perm.Basic
import Mathlib.Logic.Function.Basic

/-!
`nt_unix_pair` of `shim/socket.c` beside other local processes: a listener at a name under the
temp directory, a client of our own, and up to eight accepted connections until one has sent the
nonce. Every system call is a step, sends and receives may be short, and between any two steps
another process may connect to the listener or send on a connection of its own.
-/

namespace ApeShim.UnixPair
open Trace

/-! ## The call and its surroundings -/

structure Nonce where
  bytes : List UInt8
  length : bytes.length = 16

inductive Owner
  | ours | rival
  deriving DecidableEq, Repr

/-- A connection to the listener: who connected, and all that the client has sent. -/
structure Conn where
  owner : Owner
  sent : List UInt8
  deriving DecidableEq

/-- Where the call stands, with the descriptors it holds; connections are numbered. -/
inductive Pc
  | start
  | bind (srv : Nat)
  | listen (srv : Nat)
  | client (srv : Nat)
  | connect (srv cli : Nat)
  /-- `n` bytes of the nonce are sent on connection `c` -/
  | sending (srv cli c n : Nat)
  | accepting (srv cli c tries : Nat)
  /-- `got` has come in on `fd`, which is connection `d` -/
  | receiving (srv cli c tries fd d : Nat) (got : List UInt8)
  /-- `sv[0]` is the client of connection `c`, `sv[1]` the server's end of `d` -/
  | done (cli c acc d : Nat)
  | failed
  deriving DecidableEq

structure State where
  pc : Pc
  /-- connections by number; those from `next` on are not made yet -/
  conns : Nat → Conn
  next : Nat
  /-- connections that wait to be accepted -/
  pending : List Nat
  /-- the descriptors the call has open -/
  opened : List Nat
  /-- the name exists -/
  bound : Bool

inductive Label
  /-- the system call that is next succeeds, with this descriptor if it makes one -/
  | ok (fd : Nat)
  /-- it fails -/
  | fail
  /-- `send` takes `n` bytes -/
  | send (n : Nat)
  /-- `accept4` hands out connection `d` as `fd` -/
  | accept (fd d : Nat)
  /-- `recv` yields `n` bytes -/
  | recv (n : Nat)
  | rivalConnect
  | rivalSend (d : Nat) (bytes : List UInt8)

namespace State

def goto (s : State) (pc : Pc) : State := { s with pc }

/-- A call that makes a descriptor. -/
def openFd (s : State) (fd : Nat) : State := { s with opened := fd :: s.opened }

def close (s : State) (fd : Nat) : State := { s with opened := s.opened.erase fd }

/-- A connection is made. -/
def join (s : State) (owner : Owner) : State :=
  { s with
      conns := Function.update s.conns s.next ⟨owner, []⟩
      next := s.next + 1
      pending := s.pending ++ [s.next] }

def sendOn (s : State) (d : Nat) (bytes : List UInt8) : State :=
  { s with conns := Function.update s.conns d { s.conns d with sent := (s.conns d).sent ++ bytes } }

def unlink (s : State) : State := { s with bound := false }

/-- The label `fail`. -/
def failWith (s : State) (fds : List Nat) : State := ((fds.foldl close s).unlink).goto .failed

end State

/-- After a connection that did not send the nonce. -/
def nextTry (s : State) (srv cli c tries : Nat) : State :=
  if tries + 1 < 8 then s.goto (.accepting srv cli c (tries + 1)) else s.failWith [srv, cli]

/-- Sixteen bytes have come in: they are the nonce, or the next connection is tried. -/
def settle (nonce : Nonce) (s : State) (srv cli c tries fd d : Nat) (got : List UInt8) :
    State :=
  if got.length < 16 then s.goto (.receiving srv cli c tries fd d got)
  else if got = nonce.bytes then ((s.close srv).unlink).goto (.done cli c fd d)
  else nextTry (s.close fd) srv cli c tries

def step (nonce : Nonce) (s : State) : Label → Option (State × List Unit)
  | .ok fd =>
      match s.pc with
      | .start => if fd ∈ s.opened then none else some ((s.openFd fd).goto (.bind fd), [])
      | .bind srv => some ({ s with bound := true }.goto (.listen srv), [])
      | .listen srv => some (s.goto (.client srv), [])
      | .client srv =>
          if fd ∈ s.opened then none else some ((s.openFd fd).goto (.connect srv fd), [])
      | .connect srv cli => some ((s.join .ours).goto (.sending srv cli s.next 0), [])
      | _ => none
  | .fail =>
      match s.pc with
      | .start => some (s.failWith [], [])
      | .bind srv | .listen srv | .client srv => some (s.failWith [srv], [])
      | .connect srv cli | .sending srv cli _ _ | .accepting srv cli _ _ =>
          some (s.failWith [srv, cli], [])
      | .receiving srv cli c tries fd _ _ => some (nextTry (s.close fd) srv cli c tries, [])
      | _ => none
  | .send n =>
      match s.pc with
      | .sending srv cli c k =>
          if 0 < n ∧ k + n ≤ 16 then
            let s := s.sendOn c ((nonce.bytes.drop k).take n)
            some (s.goto (if k + n < 16 then .sending srv cli c (k + n)
              else .accepting srv cli c 0), [])
          else none
      | _ => none
  | .accept fd d =>
      match s.pc with
      | .accepting srv cli c tries =>
          if d ∈ s.pending ∧ fd ∉ s.opened then
            some (({ s with pending := s.pending.erase d }.openFd fd).goto
              (.receiving srv cli c tries fd d []), [])
          else none
      | _ => none
  | .recv n =>
      match s.pc with
      | .receiving srv cli c tries fd d got =>
          let bytes := ((s.conns d).sent.drop got.length).take n
          if bytes ≠ [] ∧ got.length + n ≤ 16 then
            some (settle nonce s srv cli c tries fd d (got ++ bytes), [])
          else none
      | _ => none
  | .rivalConnect =>
      match s.pc with
      | .client _ | .connect _ _ | .sending _ _ _ _ | .accepting _ _ _ _ |
        .receiving _ _ _ _ _ _ _ => some (s.join .rival, [])
      | _ => none
  | .rivalSend d bytes =>
      if d < s.next ∧ (s.conns d).owner = .rival then some (s.sendOn d bytes, []) else none

/-- The call has drawn its nonce and has opened nothing yet. -/
def pair (nonce : Nonce) : Machine State Label Unit where
  init := ⟨.start, fun _ => ⟨.rival, []⟩, 0, [], [], false⟩
  step := step nonce

/-- No other process sends the nonce. -/
def Unguessed (nonce : Nonce) (s : State) : Label → Prop
  | .rivalSend d bytes => ¬ nonce.bytes <+: (s.conns d).sent ++ bytes
  | _ => True

/-! ## What the call holds -/

/-- The descriptors that are to be open, newest first. -/
def Pc.fds : Pc → List Nat
  | .start | .failed => []
  | .bind srv | .listen srv | .client srv => [srv]
  | .connect srv cli | .sending srv cli _ _ | .accepting srv cli _ _ => [cli, srv]
  | .receiving srv cli _ _ fd _ _ => [fd, cli, srv]
  | .done cli _ acc _ => [acc, cli]

/-- The name may be there. -/
def Pc.mayBind : Pc → Bool
  | .start | .bind _ | .done _ _ _ _ | .failed => false
  | _ => true

structure Holds (s : State) : Prop where
  opened : s.opened = s.pc.fds
  once : s.opened.Nodup
  bound : s.pc.mayBind = false → s.bound = false

section Holds

variable {s : State} {srv cli fd : Nat}

theorem close_opened : (s.close fd).opened = s.opened.erase fd := rfl

theorem failWith_opened (fds : List Nat) :
    (s.failWith fds).opened = fds.foldl List.erase s.opened := by
  have hfold : ∀ (fds : List Nat) (s : State),
      (fds.foldl State.close s).opened = fds.foldl List.erase s.opened := by
    intro fds
    induction fds with
    | nil => intro s; rfl
    | cons x fds ih => intro s; exact ih (s.close x)
  exact hfold fds s

theorem holds_failed (fds : List Nat) (h : fds.foldl List.erase s.opened = []) :
    Holds (s.failWith fds) := by
  have hopened := (failWith_opened fds).trans h
  refine ⟨hopened, ?_, fun _ => rfl⟩
  rw [hopened]
  exact List.nodup_nil

theorem holds_failed_one (h : s.opened = [srv]) : Holds (s.failWith [srv]) := by
  refine holds_failed [srv] ?_
  rw [h]
  simp

theorem holds_failed_two (h : s.opened = [cli, srv]) (hnodup : s.opened.Nodup) :
    Holds (s.failWith [srv, cli]) := by
  rw [h] at hnodup
  have hne : cli ≠ srv := by simpa using hnodup
  refine holds_failed [srv, cli] ?_
  rw [h]
  simp [hne]

theorem holds_nextTry {c tries : Nat} (h : s.opened = [cli, srv]) (hnodup : s.opened.Nodup) :
    Holds (nextTry s srv cli c tries) := by
  rw [nextTry]
  split
  · exact ⟨h, hnodup, fun hb => by cases hb⟩
  · exact holds_failed_two h hnodup

end Holds

theorem holds_step {nonce : Nonce} {s s' : State} {a : Label} {out : List Unit} (h : Holds s)
    (hs : step nonce s a = some (s', out)) : Holds s' := by
  obtain ⟨hopened, honce, hbound⟩ := h
  -- a step that opens nothing and comes to a place with the same descriptors
  have hmove : ∀ {t : State}, t.opened = s.opened → t.pc.fds = s.pc.fds →
      (t.pc.mayBind = false → t.bound = false) → Holds t := fun ho hf hb =>
    ⟨ho.trans (hopened.trans hf.symm), ho ▸ honce, hb⟩
  cases a with
  | ok fd =>
    cases hpc : s.pc <;> simp only [step, hpc] at hs
    case start =>
      split at hs
      · cases hs
      · rename_i hfd
        cases hs
        rw [hpc] at hopened hbound
        refine ⟨congrArg (fd :: ·) hopened, List.nodup_cons.mpr ⟨hfd, honce⟩, fun _ => hbound rfl⟩
    case client srv =>
      split at hs
      · cases hs
      · rename_i hfd
        cases hs
        rw [hpc] at hopened
        exact ⟨congrArg (fd :: ·) hopened, List.nodup_cons.mpr ⟨hfd, honce⟩, fun hb => by cases hb⟩
    all_goals cases hs
    all_goals exact hmove rfl (by rw [hpc]; rfl) (fun hb => by cases hb)
  | fail =>
    cases hpc : s.pc <;> rw [hpc] at hopened <;>
      simp only [step, hpc, Option.some.injEq, Prod.mk.injEq, reduceCtorEq] at hs
    all_goals obtain ⟨rfl, -⟩ := hs
    case start => exact holds_failed [] hopened
    case receiving srv cli c tries fd d got =>
      have hclosed : (s.close fd).opened = [cli, srv] := by
        rw [close_opened, hopened]
        exact List.erase_cons_head fd [cli, srv]
      refine holds_nextTry hclosed ?_
      rw [hclosed]
      rw [hopened] at honce
      exact (List.nodup_cons.mp honce).2
    all_goals first
      | exact holds_failed_one hopened
      | exact holds_failed_two hopened honce
  | send n =>
    cases hpc : s.pc <;> simp only [step, hpc] at hs
    case sending srv cli c k =>
      split at hs
      · cases hs
        refine hmove rfl ?_ ?_
        all_goals
          simp only [State.goto]
          split
        · rw [hpc]; rfl
        · rw [hpc]; rfl
        · intro hb; cases hb
        · intro hb; cases hb
      · cases hs
    all_goals cases hs
  | accept fd d =>
    cases hpc : s.pc <;> simp only [step, hpc] at hs
    case accepting srv cli c tries =>
      split at hs
      · rename_i hg
        cases hs
        rw [hpc] at hopened
        exact ⟨congrArg (fd :: ·) hopened, List.nodup_cons.mpr ⟨hg.2, honce⟩,
          fun hb => by cases hb⟩
      · cases hs
    all_goals cases hs
  | recv n =>
    cases hpc : s.pc <;> simp only [step, hpc] at hs
    case receiving srv cli c tries fd d got =>
      split at hs
      · cases hs
        rw [hpc] at hopened
        have hnodup := honce
        rw [hopened] at hnodup
        obtain ⟨hfd, hrest⟩ := List.nodup_cons.mp hnodup
        rw [settle]
        split
        · exact hmove rfl (by rw [hpc]; rfl) (fun hb => by cases hb)
        · split
          · have hclosed : (s.close srv).opened = [fd, cli] := by
              have hne : fd ≠ srv := fun he => hfd (by simp [he])
              have hne' : cli ≠ srv := by simpa using hrest
              rw [close_opened, hopened, Pc.fds]
              simp [hne, hne']
            refine ⟨hclosed, ?_, fun _ => rfl⟩
            rw [show (((s.close srv).unlink).goto (.done cli c fd d)).opened = [fd, cli]
              from hclosed]
            have hne : fd ≠ cli := fun he => hfd (by simp [he])
            simp [hne]
          · have hclosed : (s.close fd).opened = [cli, srv] := by
              rw [close_opened, hopened]
              exact List.erase_cons_head fd [cli, srv]
            refine holds_nextTry hclosed ?_
            rw [hclosed]
            exact hrest
      · cases hs
    all_goals cases hs
  | rivalConnect =>
    cases hpc : s.pc <;> simp only [step, hpc] at hs <;> cases hs
    all_goals exact hmove rfl rfl (fun hb => by rw [State.join, hpc] at hb; cases hb)
  | rivalSend d bytes =>
    simp only [step] at hs
    split at hs
    · cases hs
      exact hmove rfl rfl hbound
    · cases hs

/-- The connection of the call's own client, and how much of the nonce is sent on it. -/
def Pc.own : Pc → Option (Nat × Nat)
  | .sending _ _ c k => some (c, k)
  | .accepting _ _ c _ | .receiving _ _ c _ _ _ _ | .done _ c _ _ => some (c, 16)
  | _ => none

/-- The connection that is being looked at, and what came in on it. -/
def Pc.reading : Pc → Option (Nat × List UInt8)
  | .receiving _ _ _ _ _ d got => some (d, got)
  | _ => none

/-- Only the call's own client has sent the nonce. -/
structure Apart (nonce : Nonce) (s : State) : Prop where
  pending : ∀ d ∈ s.pending, d < s.next
  ours : s.pc ≠ .failed → ∀ d < s.next, (s.conns d).owner = .ours → ∃ k, s.pc.own = some (d, k)
  rival : ∀ d, (s.conns d).owner = .rival → ¬ nonce.bytes <+: (s.conns d).sent
  own : ∀ c k, s.pc.own = some (c, k) → c < s.next ∧ s.conns c = ⟨.ours, nonce.bytes.take k⟩
  reading : ∀ d got, s.pc.reading = some (d, got) → d < s.next ∧ got <+: (s.conns d).sent
  paired : ∀ cli c acc d, s.pc = .done cli c acc d → d = c

section Apart

variable {nonce : Nonce} {s : State}

theorem Nonce.not_prefix_nil : ¬ nonce.bytes <+: [] := by
  intro h
  have hlen := h.length_le
  rw [nonce.length] at hlen
  exact absurd hlen (by decide)

/-- The call goes on with the same connections, or fails. -/
theorem Apart.move (h : Apart nonce s) (hs : s.pc ≠ .failed) {t : State}
    (hconns : t.conns = s.conns) (hnext : t.next = s.next) (hpending : ∀ d ∈ t.pending, d ∈ s.pending)
    (hown : t.pc = .failed ∨ t.pc.own = s.pc.own)
    (hreading : ∀ d got, t.pc.reading = some (d, got) → d < s.next ∧ got <+: (s.conns d).sent)
    (hdone : ∀ cli c acc d, t.pc = .done cli c acc d → d = c) : Apart nonce t := by
  refine ⟨fun d hd => ?_, fun hf d hd ho => ?_, fun d ho => ?_, fun c k hc => ?_,
    fun d got hd => ?_, hdone⟩
  · rw [hnext]
    exact h.pending d (hpending d hd)
  · rw [hnext] at hd
    rw [hconns] at ho
    rw [hown.resolve_left hf]
    exact h.ours hs d hd ho
  · rw [hconns] at ho ⊢
    exact h.rival d ho
  · rw [hconns, hnext]
    rcases hown with hf | ho
    · rw [hf] at hc
      cases hc
    · exact h.own c k (ho ▸ hc)
  · rw [hconns, hnext]
    exact hreading d got hd

/-- The call gives up. -/
theorem Apart.fail (h : Apart nonce s) (hs : s.pc ≠ .failed) (fds : List Nat) :
    Apart nonce (s.failWith fds) := by
  have hfold : ∀ (fds : List Nat) (s : State), (fds.foldl State.close s).conns = s.conns ∧
      (fds.foldl State.close s).next = s.next ∧ (fds.foldl State.close s).pending = s.pending := by
    intro fds
    induction fds with
    | nil => intro s; exact ⟨rfl, rfl, rfl⟩
    | cons x fds ih => intro s; exact ih (s.close x)
  obtain ⟨hconns, hnext, hpending⟩ := hfold fds s
  refine h.move hs hconns hnext (fun d hd => ?_) (Or.inl rfl) (fun d got hd => ?_)
    fun cli c acc d hd => ?_
  · exact hpending ▸ hd
  · cases hd
  · cases hd

/-- A new connection, with its own number. -/
theorem join_conns (owner : Owner) (d : Nat) :
    (s.join owner).conns d = if d = s.next then ⟨owner, []⟩ else s.conns d := by
  simp only [State.join, Function.update_apply]

theorem sendOn_conns (c d : Nat) (bytes : List UInt8) : (s.sendOn c bytes).conns d =
    if d = c then { s.conns c with sent := (s.conns c).sent ++ bytes } else s.conns d := by
  simp only [State.sendOn, Function.update_apply]

/-- Another process connects. -/
theorem Apart.joinRival (h : Apart nonce s) : Apart nonce (s.join .rival) := by
  refine ⟨fun d hd => ?_, fun hf d hd ho => ?_, fun d ho => ?_, fun c k hc => ?_,
    fun d got hd => ?_, h.paired⟩
  · rcases List.mem_append.mp hd with hd | hd
    · exact Nat.lt_succ_of_lt (h.pending d hd)
    · rw [List.mem_singleton.mp hd]
      exact Nat.lt_succ_self _
  · rw [join_conns] at ho
    split at ho
    · cases ho
    · rename_i hne
      exact h.ours hf d (Nat.lt_of_le_of_ne (Nat.lt_succ_iff.mp hd) hne) ho
  · rw [join_conns] at ho ⊢
    split
    · exact nonce.not_prefix_nil
    · rename_i hne
      rw [if_neg hne] at ho
      exact h.rival d ho
  · obtain ⟨hlt, hconn⟩ := h.own c k hc
    rw [join_conns, if_neg (Nat.ne_of_lt hlt)]
    exact ⟨Nat.lt_succ_of_lt hlt, hconn⟩
  · obtain ⟨hlt, hpre⟩ := h.reading d got hd
    rw [join_conns, if_neg (Nat.ne_of_lt hlt)]
    exact ⟨Nat.lt_succ_of_lt hlt, hpre⟩

/-- Another process sends, and not the nonce. -/
theorem Apart.sendRival (h : Apart nonce s) {d : Nat} {bytes : List UInt8}
    (hd : (s.conns d).owner = .rival) (hnot : ¬ nonce.bytes <+: (s.conns d).sent ++ bytes) :
    Apart nonce (s.sendOn d bytes) := by
  have howner : ∀ x, ((s.sendOn d bytes).conns x).owner = (s.conns x).owner := by
    intro x
    rw [sendOn_conns]
    split
    · rename_i hx
      rw [hx]
    · rfl
  refine ⟨h.pending, fun hf x hx ho => ?_, fun x ho => ?_, fun c k hc => ?_, fun x got hx => ?_,
    h.paired⟩
  · rw [howner] at ho
    exact h.ours hf x hx ho
  · rw [howner] at ho
    rw [sendOn_conns]
    split
    · exact hnot
    · exact h.rival x ho
  · obtain ⟨hlt, hconn⟩ := h.own c k hc
    have hne : c ≠ d := by
      rintro rfl
      rw [hconn] at hd
      cases hd
    rw [sendOn_conns, if_neg hne]
    exact ⟨hlt, hconn⟩
  · obtain ⟨hlt, hpre⟩ := h.reading x got hx
    refine ⟨hlt, ?_⟩
    rw [sendOn_conns]
    split
    · rename_i hxd
      rw [← hxd]
      exact hpre.trans (List.prefix_append _ _)
    · exact hpre

/-- The call's own client connects; there is no other connection of its own. -/
theorem Apart.joinOurs (h : Apart nonce s) {srv cli : Nat} (hpc : s.pc = .connect srv cli) :
    Apart nonce ((s.join .ours).goto (.sending srv cli s.next 0)) := by
  have hnone : ∀ d < s.next, (s.conns d).owner ≠ .ours := by
    intro d hd ho
    obtain ⟨k, hk⟩ := h.ours (by rw [hpc]; simp) d hd ho
    rw [hpc] at hk
    cases hk
  have hconns : ∀ d, ((s.join .ours).goto (.sending srv cli s.next 0)).conns d =
      if d = s.next then ⟨.ours, []⟩ else s.conns d := join_conns .ours
  refine ⟨fun d hd => ?_, fun _ d hd ho => ?_, fun d ho => ?_, fun c k hc => ?_,
    fun d got hd => (by cases hd), fun _ _ _ _ hd => (by cases hd)⟩
  · rcases List.mem_append.mp hd with hd | hd
    · exact Nat.lt_succ_of_lt (h.pending d hd)
    · rw [List.mem_singleton.mp hd]
      exact Nat.lt_succ_self _
  · rw [hconns] at ho
    split at ho
    · rename_i hd'
      exact ⟨0, by rw [hd']; rfl⟩
    · rename_i hne
      exact absurd ho (hnone d (Nat.lt_of_le_of_ne (Nat.lt_succ_iff.mp hd) hne))
  · rw [hconns] at ho ⊢
    split
    · exact nonce.not_prefix_nil
    · rename_i hne
      rw [if_neg hne] at ho
      exact h.rival d ho
  · obtain ⟨rfl, rfl⟩ := Prod.mk.inj (Option.some.inj hc)
    exact ⟨Nat.lt_succ_self _, by rw [hconns, if_pos rfl, List.take_zero]⟩

/-- It sends the next bytes of the nonce. -/
theorem Apart.sendOurs (h : Apart nonce s) {srv cli c k n : Nat} (hpc : s.pc = .sending srv cli c k)
    {pc : Pc} (hown : pc.own = some (c, k + n)) (hreading : pc.reading = none)
    (hdone : ∀ cli c acc d, pc ≠ .done cli c acc d) :
    Apart nonce ((s.sendOn c ((nonce.bytes.drop k).take n)).goto pc) := by
  obtain ⟨hlt, hconn⟩ := h.own c k (by rw [hpc]; rfl)
  have hconns : ∀ d, ((s.sendOn c ((nonce.bytes.drop k).take n)).goto pc).conns d =
      if d = c then ⟨.ours, nonce.bytes.take (k + n)⟩ else s.conns d := by
    intro d
    rw [show ((s.sendOn c ((nonce.bytes.drop k).take n)).goto pc).conns d = _
      from sendOn_conns c d _, hconn]
    simp only [List.take_add]
  refine ⟨h.pending, fun _ d hd ho => ?_, fun d ho => ?_, fun d j hd => ?_, fun d got hd => ?_,
    fun cli c acc d hd => absurd hd (hdone cli c acc d)⟩
  · rw [hconns] at ho
    split at ho
    · rename_i hdc
      exact ⟨k + n, by rw [hdc]; exact hown⟩
    · rename_i hne
      obtain ⟨j, hj⟩ := h.ours (by rw [hpc]; simp) d hd ho
      rw [hpc] at hj
      exact absurd (Prod.mk.inj (Option.some.inj hj)).1.symm hne
  · rw [hconns] at ho ⊢
    split
    · rename_i hdc
      rw [if_pos hdc] at ho
      cases ho
    · rename_i hne
      rw [if_neg hne] at ho
      exact h.rival d ho
  · obtain ⟨rfl, rfl⟩ := Prod.mk.inj (Option.some.inj (hown.symm.trans hd))
    exact ⟨hlt, by rw [hconns, if_pos rfl]⟩
  · rw [show ((s.sendOn c _).goto pc).pc.reading = none from hreading] at hd
    cases hd

theorem Apart.nextTry (h : Apart nonce s) {srv cli c tries : Nat} {t : State}
    (hown : s.pc.own = some (c, 16)) (hconns : t.conns = s.conns) (hnext : t.next = s.next)
    (hpending : t.pending = s.pending) : Apart nonce (nextTry t srv cli c tries) := by
  have hs : s.pc ≠ .failed := by
    intro hf
    rw [hf] at hown
    cases hown
  have hgoto : Apart nonce (t.goto (.accepting srv cli c (tries + 1))) :=
    h.move hs hconns hnext (fun d hd => hpending ▸ hd) (Or.inr hown.symm)
      (fun d got hd => by cases hd) fun _ _ _ _ hd => by cases hd
  rw [UnixPair.nextTry]
  split
  · exact hgoto
  · exact hgoto.fail (by simp [State.goto]) [srv, cli]

/-- Sixteen bytes that are the nonce have come from the call's own client. -/
theorem Apart.settle (h : Apart nonce s) {srv cli c tries fd d : Nat} {got more : List UInt8}
    (hpc : s.pc = .receiving srv cli c tries fd d got)
    (hmore : got ++ more <+: (s.conns d).sent) :
    Apart nonce (settle nonce s srv cli c tries fd d (got ++ more)) := by
  have hs : s.pc ≠ .failed := by rw [hpc]; simp
  have hown : s.pc.own = some (c, 16) := by rw [hpc]; rfl
  obtain ⟨hlt, -⟩ := h.reading d got (by rw [hpc]; rfl)
  rw [UnixPair.settle]
  split
  · refine h.move hs rfl rfl (fun _ hd => hd) (Or.inr hown.symm) (fun x g hx => ?_)
      fun _ _ _ _ hd => by cases hd
    obtain ⟨rfl, rfl⟩ := Prod.mk.inj (Option.some.inj hx)
    exact ⟨hlt, hmore⟩
  · split
    · rename_i hnonce
      refine h.move hs rfl rfl (fun _ hd => hd) (Or.inr hown.symm) (fun x g hx => by cases hx) ?_
      rintro _ _ _ _ hdone
      obtain ⟨-, rfl, -, rfl⟩ := Pc.done.inj hdone
      -- nobody else sent the nonce
      rw [hnonce] at hmore
      cases ho : (s.conns d).owner with
      | rival => exact absurd hmore (h.rival d ho)
      | ours =>
        obtain ⟨k, hk⟩ := h.ours hs d hlt ho
        exact (Prod.mk.inj (Option.some.inj (hk.symm.trans hown))).1
    · exact h.nextTry hown rfl rfl rfl

end Apart

theorem apart_step {nonce : Nonce} {s s' : State} {a : Label} {out : List Unit}
    (h : Apart nonce s) (hok : Unguessed nonce s a) (hs : step nonce s a = some (s', out)) :
    Apart nonce s' := by
  -- before the client connects there is nothing to keep
  have hearly : s.pc ≠ .failed → ∀ {t : State}, t.conns = s.conns → t.next = s.next →
      t.pending = s.pending → t.pc.own = s.pc.own → t.pc.reading = none →
      (∀ cli c acc d, t.pc ≠ .done cli c acc d) → Apart nonce t :=
    fun hf t hc hn hp ho hr hd => h.move hf hc hn (fun d hd => hp ▸ hd) (Or.inr ho)
      (fun d got hx => by rw [hr] at hx; cases hx) fun cli c acc d hx => absurd hx (hd cli c acc d)
  cases a with
  | ok fd =>
    cases hpc : s.pc <;> simp only [step, hpc] at hs
    case connect srv cli =>
      cases hs
      exact h.joinOurs hpc
    case start | client =>
      split at hs
      · cases hs
      · cases hs
        exact hearly (by rw [hpc]; simp) rfl rfl rfl (by rw [hpc]; rfl) rfl
          fun _ _ _ _ hd => by cases hd
    case bind | listen =>
      cases hs
      exact hearly (by rw [hpc]; simp) rfl rfl rfl (by rw [hpc]; rfl) rfl
        fun _ _ _ _ hd => by cases hd
    all_goals cases hs
  | fail =>
    cases hpc : s.pc <;>
      simp only [step, hpc, Option.some.injEq, Prod.mk.injEq, reduceCtorEq] at hs
    case receiving srv cli c tries fd d got =>
      obtain ⟨rfl, -⟩ := hs
      exact h.nextTry (by rw [hpc]; rfl) rfl rfl rfl
    all_goals obtain ⟨rfl, -⟩ := hs
    all_goals exact h.fail (by rw [hpc]; simp) _
  | send n =>
    cases hpc : s.pc <;> simp only [step, hpc] at hs
    case sending srv cli c k =>
      split at hs
      · rename_i hg
        cases hs
        refine h.sendOurs hpc ?_ ?_ fun _ _ _ _ hd => ?_
        · split
          · rfl
          · have hfull : k + n = 16 := by omega
            rw [hfull]
            rfl
        · split <;> rfl
        · split at hd <;> cases hd
      · cases hs
    all_goals cases hs
  | accept fd d =>
    cases hpc : s.pc <;> simp only [step, hpc] at hs
    case accepting srv cli c tries =>
      split at hs
      · rename_i hg
        cases hs
        refine h.move (by rw [hpc]; simp) rfl rfl (fun x hx => List.mem_of_mem_erase hx)
          (Or.inr (by rw [hpc]; rfl)) (fun x got hx => ?_) fun _ _ _ _ hd => by cases hd
        obtain ⟨rfl, rfl⟩ := Prod.mk.inj (Option.some.inj hx)
        exact ⟨h.pending d hg.1, List.nil_prefix⟩
      · cases hs
    all_goals cases hs
  | recv n =>
    cases hpc : s.pc <;> simp only [step, hpc] at hs
    case receiving srv cli c tries fd d got =>
      split at hs
      · cases hs
        refine h.settle hpc ?_
        -- what comes in goes on where the stream was left
        obtain ⟨-, rest, hrest⟩ := h.reading d got (by rw [hpc]; rfl)
        rw [← hrest, List.drop_left]
        exact (List.prefix_append_right_inj got).mpr (List.take_prefix n rest)
      · cases hs
    all_goals cases hs
  | rivalConnect =>
    cases hpc : s.pc <;> simp only [step, hpc] at hs <;> cases hs
    all_goals exact h.joinRival
  | rivalSend d bytes =>
    simp only [step] at hs
    split at hs
    · rename_i hg
      cases hs
      exact h.sendRival hg.2 hok
    · cases hs

/-- **The two ends belong together**: as long as nobody else sends the nonce, the pair that is
returned is the two ends of one connection, the call's own, with nothing left on it to read. -/
theorem pair_connected (nonce : Nonce) {s : State} {log : List Unit}
    (run : (pair nonce).Run (Unguessed nonce) s log) (cli c acc d : Nat)
    (hdone : s.pc = .done cli c acc d) : d = c ∧ s.conns c = ⟨.ours, nonce.bytes⟩ := by
  have hinit : Apart nonce (pair nonce).init :=
    ⟨fun d hd => (by cases hd), fun _ d hd => absurd hd (Nat.not_lt_zero d),
      fun d _ => nonce.not_prefix_nil, fun c k hc => (by cases hc), fun d got hd => (by cases hd),
      fun _ _ _ _ hd => (by cases hd)⟩
  have hinv : Apart nonce s := run.invariant (P := fun s _ => Apart nonce s) hinit
    fun _ _ _ _ _ h hok hs => apart_step h hok hs
  obtain ⟨-, hconn⟩ := hinv.own c 16 (by rw [hdone]; rfl)
  rw [List.take_of_length_le (Nat.le_of_eq nonce.length)] at hconn
  exact ⟨hinv.paired cli c acc d hdone, hconn⟩

/-! ## A race that is lost first -/

def counted : Nonce := ⟨(List.range 16).map .ofNat, by decide⟩

/-- Another process is accepted first, sends three bytes and closes. -/
def raced : List Label :=
  [.ok 3, .ok 0, .ok 0, .rivalConnect, .ok 4, .ok 0, .send 10, .send 6, .accept 5 0,
    .rivalSend 0 [0, 1, 3], .recv 3, .fail, .accept 5 1, .recv 9, .recv 7]

theorem pair_connected_raced :
    ∃ s log, (pair counted).Run (Unguessed counted) s log ∧ s.pc = .done 4 1 5 1 ∧
      s.conns 1 = ⟨.ours, counted.bytes⟩ := by
  have hstart : (pair counted).Run (Unguessed counted) _ [] := .start
  obtain ⟨s, log, hrun, hp⟩ := hstart.extend
    (fun s l => match l with
      | .rivalSend d bytes => !counted.bytes.isPrefixOf ((s.conns d).sent ++ bytes)
      | _ => true)
    (fun s l hl => by
      cases l with
      | rivalSend d bytes =>
        intro hpre
        rw [← List.isPrefixOf_iff_prefix] at hpre
        simp [hpre] at hl
      | _ => trivial)
    raced (fun s _ => s.pc = .done 4 1 5 1) (by decide)
  have hdone := of_decide_eq_true hp
  exact ⟨s, log, hrun, hdone, (pair_connected counted hrun 4 1 5 1 hdone).2⟩

end ApeShim.UnixPair
