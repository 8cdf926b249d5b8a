import ApeShim.Poll.Host
import ApeShim.Poll.Packet

/-!
The wait (`shim/poll.c`), from the polled first phase to the two entry points, and the
call `shim/epoll.c` makes of it. A loop is given fuel; a sum that leaves a signed 64-bit
integer has no value, as in C.
-/

namespace ApeShim.Poll
open Flags
open Epoll (PollFd)

def SHIM_POLL_CHUNK : Nat := 32
def SHIM_POLL_NAP_MS : Int := 10
def SHIM_NT_NAP1_US : Int := 500
def SHIM_NT_NAP1_MS : Int := 10
def SHIM_NT_NAP2_US : Int := 1000
def SHIM_PKT_POLL_MAX : Nat := 64

/-- Why a call has no result: its fuel ran out, or its deadline did not fit. -/
inductive Stuck
  | waiting
  | overflow
  deriving DecidableEq

def fits (x : Int) : Prop := -9223372036854775808 ≤ x ∧ x ≤ 9223372036854775807

instance (x : Int) : Decidable (fits x) :=
  inferInstanceAs (Decidable (-9223372036854775808 ≤ x ∧ x ≤ 9223372036854775807))

def checked (x : Int) : Except Stuck Int := if fits x then .ok x else .error .overflow

/-- `now + (int64_t)tv_sec * 1000 + part` -/
def deadlineAfter (now : Int) (t : Timespec) (part : Int) : Except Stuck Int := do
  let ms ← checked (t.sec * 1000)
  let whole ← checked (now + ms)
  checked (whole + part)

/-- The deadline of `host_ppoll_inner`, a part of a millisecond counted whole. -/
def innerDeadline (now : Int) : Option Timespec → Except Stuck Int
  | none => .ok (-1)
  | some t => deadlineAfter now t ((t.nsec + 999999) / 1000000)

section

variable {σ : Type} (h : Cosmo σ)

/-! ## One array -/

/-- The second phase of `host_ppoll_inner`; `-1` is no deadline. -/
def handOff (s : σ) (fds : List PollFd) (deadline : Int) : Polled σ :=
  if deadline < 0 then h.once s fds none
  else
    let now := h.nowMs s
    let left := deadline - now.1
    if left ≤ 0 then ⟨.ok 0, fds, now.2⟩ else h.once now.2 fds (some (Timespec.ofMs left))

/-- How long the next nap of the first phase is. -/
def napUs (polled : Int) : Int :=
  if polled < SHIM_NT_NAP1_MS then SHIM_NT_NAP1_US else SHIM_NT_NAP2_US

/-- The first phase of `host_ppoll_inner`. -/
def polledPhase (budget start deadline : Int) : Nat → σ → List PollFd → Except Stuck (Polled σ)
  | 0, _, _ => .error .waiting
  | fuel + 1, s, fds =>
      let now := h.nowMs s
      let polled := now.1 - start
      if budget ≤ polled then .ok (handOff h now.2 fds deadline)
      else
        let nap := h.nanosleep now.2 (napUs polled)
        if nap.1 = false then .ok ⟨.fail .eintr, fds, nap.2⟩
        else
          let q := h.once nap.2 fds (some .zero)
          if q.ret ≠ .ok 0 then .ok q
          else if 0 ≤ deadline then
            let now := h.nowMs q.state
            if deadline ≤ now.1 then .ok ⟨.ok 0, q.fds, now.2⟩
            else polledPhase budget start deadline fuel now.2 q.fds
          else polledPhase budget start deadline fuel q.state q.fds

/-- Whether the wait is left to the host whole. -/
def Direct (fds : List PollFd) (timeout : Option Timespec) : Prop :=
  (if h.windows then h.polledMs else 0) = 0 ∨ fds = [] ∨ timeout = some .zero

instance (fds : List PollFd) (timeout : Option Timespec) : Decidable (Direct h fds timeout) :=
  inferInstanceAs (Decidable (_ ∨ _ ∨ _))

/-- `host_ppoll_inner` -/
def hostPpollInner (fuel : Nat) (s : σ) (fds : List PollFd) (timeout : Option Timespec) :
    Except Stuck (Polled σ) :=
  if Direct h fds timeout then .ok (h.once s fds timeout)
  else
    let q := h.once s fds (some .zero)
    if q.ret ≠ .ok 0 then .ok q
    else do
      let start := h.nowMs q.state
      let deadline ← innerDeadline start.1 timeout
      polledPhase h h.polledMs start.1 deadline fuel start.2 q.fds

/-! ## Twins -/

/-- The entries put after the caller's, one for each second socket. -/
def twins (pkt : Packets) (fds : List PollFd) : List PollFd :=
  fds.filterMap fun p => (pkt.packetSecondary p.fd).map fun fd6 => ⟨fd6, p.events, 0#16⟩

/-- Each twin's readiness folded onto the entry the caller knows. -/
def foldTwins (pkt : Packets) : List PollFd → List PollFd → List PollFd → List PollFd
  | p :: ps, b :: bs, ts =>
      match pkt.packetSecondary p.fd, ts with
      | some _, t :: ts => { p with revents := b.revents ||| t.revents } :: foldTwins pkt ps bs ts
      | _, ts => { p with revents := b.revents } :: foldTwins pkt ps bs ts
  | _, _, _ => []

/-- `__ape_shim_host_ppoll` -/
def hostPpoll (pkt : Packets) (fuel : Nat) (s : σ) (fds : List PollFd)
    (timeout : Option Timespec) : Except Stuck (Polled σ) :=
  if pkt.packetAny = false ∨ fds = [] ∨ SHIM_PKT_POLL_MAX < fds.length ∨ twins pkt fds = [] then
    hostPpollInner h fuel s fds timeout
  else do
    let big ← hostPpollInner h fuel s (fds ++ twins pkt fds) timeout
    let folded := foldTwins pkt fds (big.fds.take fds.length) (big.fds.drop fds.length)
    pure ⟨match big.ret with
      | .ok _ => .ok (readyCount folded)
      | .fail e => .fail e, folded, big.state⟩

/-! ## Chunks -/

/-- The array in pieces of at most a chunk. -/
def pieces : Nat → List PollFd → List (List PollFd)
  | 0, _ => []
  | _ + 1, [] => []
  | n + 1, p :: ps =>
      (p :: ps).take SHIM_POLL_CHUNK :: pieces n ((p :: ps).drop SHIM_POLL_CHUNK)

/-- Every piece polled without waiting, up to the first that fails. -/
def sweep : σ → List (List PollFd) → Polled σ
  | s, [] => ⟨.ok 0, [], s⟩
  | s, c :: cs =>
      let q := h.once s c (some .zero)
      match q.ret with
      | .fail e => ⟨.fail e, q.fds ++ cs.flatten, q.state⟩
      | .ok n =>
          let rest := sweep q.state cs
          ⟨match rest.ret with
            | .ok m => .ok (n + m)
            | .fail e => .fail e, q.fds ++ rest.fds, rest.state⟩

/-- The loop of `chunked` and of `poll_chunked`, which differ in how they sleep; the sleep
answers what it failed with. -/
def chunkLoop (nap : σ → List PollFd → Int → Option PollErr × σ) (deadline : Int) :
    Nat → σ → List PollFd → Except Stuck (Polled σ)
  | 0, _, _ => .error .waiting
  | fuel + 1, s, fds =>
      let q := sweep h s (pieces fds.length fds)
      if q.ret ≠ .ok 0 then .ok q
      else if 0 ≤ deadline then
        let now := h.nowMs q.state
        let left := deadline - now.1
        if left ≤ 0 then .ok ⟨.ok 0, q.fds, now.2⟩
        else
          let slept := nap now.2 q.fds (min left SHIM_POLL_NAP_MS)
          match slept.1 with
          | some e => .ok ⟨.fail e, q.fds, slept.2⟩
          | none => chunkLoop nap deadline fuel slept.2 q.fds
      else
        let slept := nap q.state q.fds SHIM_POLL_NAP_MS
        match slept.1 with
        | some e => .ok ⟨.fail e, q.fds, slept.2⟩
        | none => chunkLoop nap deadline fuel slept.2 q.fds

/-- `polled_nap` -/
def sleepNap (s : σ) (_ : List PollFd) (ms : Int) : Option PollErr × σ :=
  let nap := h.nanosleep s (ms * 1000)
  (if nap.1 then none else some .eintr, nap.2)

def chunked (fuel : Nat) (s : σ) (fds : List PollFd) (deadline : Int) :
    Except Stuck (Polled σ) := chunkLoop h (sleepNap h) deadline fuel s fds

/-- The nap of `poll_chunked` is a poll of the first entry, the waker. -/
def wakerNap (k : HostBits) (s : σ) (fds : List PollFd) (ms : Int) : Option PollErr × σ :=
  match fds with
  | [] => (none, s)
  | w :: _ =>
      let q := h.once s [⟨w.fd, k .POLLIN, 0#16⟩] (some (Timespec.ofMs ms))
      (match q.ret with
        | .ok _ => none
        | .fail e => some e, q.state)

/-- `timeout < 0 ? -1 : now_ms() + timeout` -/
def pollDeadline (s : σ) (timeout : Int) : Except Stuck (Int × σ) :=
  if timeout < 0 then .ok (-1, s)
  else do
    let now := h.nowMs s
    let deadline ← checked (now.1 + timeout)
    pure (deadline, now.2)

/-- The deadline of `__ape_shim_ppoll`, a part of a millisecond dropped. -/
def ppollDeadline (s : σ) (timeout : Option Timespec) : Except Stuck (Int × σ) :=
  match timeout with
  | none => .ok (-1, s)
  | some t => do
      let now := h.nowMs s
      let deadline ← deadlineAfter now.1 t (t.nsec / 1000000)
      pure (deadline, now.2)

def pollChunked (k : HostBits) (fuel : Nat) (s : σ) (fds : List PollFd) (ms : Int) :
    Except Stuck (Polled σ) := do
  let deadline ← pollDeadline h s ms
  chunkLoop h (wakerNap h k) deadline.1 fuel deadline.2 fds

/-- A refused call is made again in chunks. -/
def retried (again : σ → List PollFd → Except Stuck (Polled σ)) (q : Polled σ) :
    Except Stuck (Polled σ) :=
  if q.ret = .fail .einval ∧ SHIM_POLL_CHUNK < q.fds.length then again q.state q.fds else .ok q

/-! ## The entry points -/

def toHostEvents (k : HostBits) (fds : List PollFd) : List PollFd :=
  fds.map fun p => { p with events := evToHost k p.events }

/-- Both fields are translated where they stand. -/
def toLinuxEvents (k : HostBits) (fds : List PollFd) : List PollFd :=
  fds.map fun p =>
    { p with events := evToLinux k p.events, revents := evToLinux k p.revents }

/-- A timeout in milliseconds, where one below zero is none. -/
def msTimespec (ms : Int) : Option Timespec :=
  if ms < 0 then none else some (Timespec.ofMs ms)

/-- `__ape_shim_poll` -/
def apeShimPoll (k : HostBits) (pkt : Packets) (fuel : Nat) (s : σ) (fds : List PollFd)
    (timeout : Int) : Except Stuck (Polled σ) := do
  let q ← hostPpoll h pkt fuel s (toHostEvents k fds) (msTimespec timeout)
  let q ← retried (fun s fds => do
    let deadline ← pollDeadline h s timeout
    chunked h fuel deadline.2 fds deadline.1) q
  pure { q with fds := toLinuxEvents k q.fds }

/-- `__ape_shim_ppoll` -/
def apeShimPpoll (k : HostBits) (pkt : Packets) (fuel : Nat) (s : σ) (fds : List PollFd)
    (timeout : Option Timespec) : Except Stuck (Polled σ) := do
  let q ← hostPpoll h pkt fuel s (toHostEvents k fds) timeout
  let q ← retried (fun s fds => do
    let deadline ← ppollDeadline h s timeout
    chunked h fuel deadline.2 fds deadline.1) q
  pure { q with fds := toLinuxEvents k q.fds }

/-- The poll of `emu_wait`, on an array already in the host's bits. -/
def emuWaitPoll (k : HostBits) (pkt : Packets) (fuel : Nat) (s : σ) (fds : List PollFd)
    (ms : Int) : Except Stuck (Polled σ) := do
  let q ← hostPpoll h pkt fuel s fds (msTimespec ms)
  retried (fun s fds => pollChunked h k fuel s fds ms) q

end

end ApeShim.Poll
