import ApeShim.Epoll.Interest

/-!
The two locked sections of `emu_wait` (`shim/epoll.c`) as functions on the
interest list: the snapshot that builds the pollfd array, and the loop that
matches `revents` back to entries after the poll.
-/

namespace ApeShim.Epoll
open Flags Keyed

/-- The host's `struct pollfd`. -/
structure PollFd where
  fd : Int
  events : BitVec 16
  revents : BitVec 16
  deriving DecidableEq, Repr

/-- `pfds[0]` and `pfds[1 .. np)`. The list has one entry per descriptor, so
the array polls no descriptor twice. -/
structure PollArray where
  waker : PollFd
  slots : List PollFd
  unique : (slots.map PollFd.fd).Nodup

/-! ## The snapshot -/

/-- An ET or ONESHOT entry with nothing to poll for gets no slot; a plain
level-triggered one keeps its slot, and with it HUP and ERR reporting. -/
def snapSlot (k : Host) (e : Entry) : Option PollFd :=
  let ev := epollToPoll k e.events (effectiveArmed k e)
  if ev = 0#16 ∧ has e.events (EPOLLET ||| EPOLLONESHOT) ∧ k.ltForced = false then none
  else some ⟨e.fd, ev, 0#16⟩

theorem snapSlot_eq_some {k : Host} {e : Entry} {p : PollFd} (h : snapSlot k e = some p) :
    p.fd = e.fd ∧ p.events = epollToPoll k e.events (effectiveArmed k e) := by
  simp only [snapSlot] at h
  split at h
  · cases h
  · cases h
    exact ⟨rfl, rfl⟩

theorem snapSlots_sublist (k : Host) (es : List Entry) :
    ((es.filterMap (snapSlot k)).map PollFd.fd).Sublist (es.map Entry.fd) := by
  induction es with
  | nil => simp
  | cons e es ih =>
    cases h : snapSlot k e with
    | none =>
      simp only [List.filterMap_cons, h, List.map_cons]
      exact ih.cons _
    | some p =>
      simp only [List.filterMap_cons, h, List.map_cons, (snapSlot_eq_some h).1]
      exact ih.cons_cons _

/-- The array a wait polls; `handle` is `s->handles[0]`, the wake pipe. -/
def snapshot (k : Host) (handle : Int) (s : Interest) : PollArray where
  waker := ⟨handle, k.POLLIN, 0#16⟩
  slots := s.entries.filterMap (snapSlot k)
  unique := s.table.unique.sublist (snapSlots_sublist k s.entries)

theorem mem_snapshot {k : Host} {handle : Int} {s : Interest} {p : PollFd} :
    p ∈ (snapshot k handle s).slots ↔
      ∃ e, s.findEntry p.fd = some e ∧ snapSlot k e = some p := by
  simp only [snapshot, List.mem_filterMap]
  constructor
  · rintro ⟨e, he, hp⟩
    exact ⟨e, Interest.findEntry_eq_some_iff.mpr ⟨he, (snapSlot_eq_some hp).1.symm⟩, hp⟩
  · rintro ⟨e, he, hp⟩
    exact ⟨e, (Interest.findEntry_eq_some_iff.mp he).1, hp⟩

/-! ## The poll -/

/-- `poll` fills in `revents` and nothing else. -/
def PollArray.answered (p : PollArray) (waker : BitVec 16) (r : Int → BitVec 16) : PollArray where
  waker := { p.waker with revents := waker }
  slots := p.slots.map fun q => { q with revents := r q.fd }
  unique := by
    have h : (p.slots.map fun q => { q with revents := r q.fd }).map PollFd.fd =
        p.slots.map PollFd.fd := by simp
    rw [h]
    exact p.unique

/-! ## Delivery -/

/-- Only bits that were asked for count, plus ERR, HUP and NVAL. -/
def readyBits (k : Host) (p : PollFd) : BitVec 16 :=
  p.revents &&& (p.events ||| k.POLLERR ||| k.POLLHUP ||| k.POLLNVAL)

/-- `out[got].events`. -/
def readyEvents (k : Host) (p : PollFd) : BitVec 32 := pollToEpoll k (readyBits k p)

/-- The loop over `pfds[1 .. np)` with `room` places left in the caller's
array: the list afterwards, and what was stored, in order. -/
def deliverLoop (k : Host) : Nat → List PollFd → Interest → Interest × List (Int × Event)
  | _, [], s => (s, [])
  | 0, _ :: _, s => (s, [])
  | room + 1, p :: ps, s =>
      if readyBits k p = 0#16 then deliverLoop k (room + 1) ps s
      else
        match s.findEntry p.fd with
        | none => deliverLoop k (room + 1) ps s
        | some e =>
            (deliverLoop k room ps (s.adjust p.fd (disarm k (readyEvents k p)) (disarm_fd k _))).map
              id ((p.fd, ⟨readyEvents k p, e.data⟩) :: ·)

@[simp] theorem deliverLoop_full (k : Host) (ps : List PollFd) (s : Interest) :
    deliverLoop k 0 ps s = (s, []) := by
  cases ps <;> rfl

/-- Every stored event comes from a ready slot whose descriptor is listed. -/
theorem deliverLoop_stored {k : Host} {ps : List PollFd} {room : Nat} {s : Interest}
    (hn : (ps.map PollFd.fd).Nodup) {fd : Int} {ev : Event}
    (h : (fd, ev) ∈ (deliverLoop k room ps s).2) :
    ∃ p ∈ ps, p.fd = fd ∧ ev.events = readyEvents k p ∧
      ∃ e, s.findEntry fd = some e ∧ ev.data = e.data := by
  fun_induction deliverLoop k room ps s with
  | case1 => simp at h
  | case2 => simp at h
  | case3 room p ps s hz ih =>
    simp only [List.map_cons, List.nodup_cons] at hn
    obtain ⟨q, hq, hrest⟩ := ih hn.2 h
    exact ⟨q, by simp [hq], hrest⟩
  | case4 room p ps s hz hnone ih =>
    simp only [List.map_cons, List.nodup_cons] at hn
    obtain ⟨q, hq, hrest⟩ := ih hn.2 h
    exact ⟨q, by simp [hq], hrest⟩
  | case5 room p ps s hz e he ih =>
    simp only [List.map_cons, List.nodup_cons] at hn
    rcases List.mem_cons.mp h with heq | hmem
    · cases heq
      exact ⟨p, by simp, rfl, rfl, e, he, rfl⟩
    · obtain ⟨q, hq, hfd, hev, e', he', hdata⟩ := ih hn.2 hmem
      refine ⟨q, by simp [hq], hfd, hev, e', ?_, hdata⟩
      -- the slot just delivered is not the one of `q`
      have hne : fd ≠ p.fd := by
        rintro rfl
        exact hn.1 (hfd ▸ List.mem_map_of_mem hq)
      simpa [hne] using he'

/-- An entry is disarmed by the event stored for it, and by nothing else. -/
theorem deliverLoop_find {k : Host} {ps : List PollFd} {room : Nat} {s : Interest}
    (hn : (ps.map PollFd.fd).Nodup) (fd : Int) :
    (∃ ev e, (fd, ev) ∈ (deliverLoop k room ps s).2 ∧ s.findEntry fd = some e ∧
      (deliverLoop k room ps s).1.findEntry fd = some (disarm k ev.events e)) ∨
    ((∀ ev, (fd, ev) ∉ (deliverLoop k room ps s).2) ∧
      (deliverLoop k room ps s).1.findEntry fd = s.findEntry fd) := by
  fun_induction deliverLoop k room ps s with
  | case1 => exact Or.inr (by simp)
  | case2 => exact Or.inr (by simp)
  | case3 room p ps s hz ih =>
    simp only [List.map_cons, List.nodup_cons] at hn
    exact ih hn.2
  | case4 room p ps s hz hnone ih =>
    simp only [List.map_cons, List.nodup_cons] at hn
    exact ih hn.2
  | case5 room p ps s hz e he ih =>
    simp only [List.map_cons, List.nodup_cons] at hn
    by_cases hfd : fd = p.fd
    · subst hfd
      refine Or.inl ⟨⟨readyEvents k p, e.data⟩, e, by simp, he, ?_⟩
      -- the later slots name other descriptors, so they leave this entry alone
      rcases ih hn.2 with ⟨ev, -, hmem, -, -⟩ | ⟨-, hkeep⟩
      · obtain ⟨q, hq, hqfd, -⟩ := deliverLoop_stored hn.2 hmem
        exact absurd (hqfd ▸ List.mem_map_of_mem hq) hn.1
      · simpa [he] using hkeep
    · rcases ih hn.2 with ⟨ev, e', hmem, hfind, hres⟩ | ⟨hno, hkeep⟩
      · exact Or.inl ⟨ev, e', by simp [hmem], by simpa [hfd] using hfind, hres⟩
      · refine Or.inr ⟨fun ev hev => ?_, by simpa [hfd] using hkeep⟩
        rcases List.mem_cons.mp hev with heq | hmem
        · cases heq; exact hfd rfl
        · exact hno ev hmem

/-- The loop over two stretches of slots, the second with the room left. -/
theorem deliverLoop_append (k : Host) (as bs : List PollFd) (room : Nat) (s : Interest) :
    deliverLoop k room (as ++ bs) s =
      ((deliverLoop k (room - (deliverLoop k room as s).2.length) bs (deliverLoop k room as s).1).1,
        (deliverLoop k room as s).2 ++
          (deliverLoop k (room - (deliverLoop k room as s).2.length) bs
            (deliverLoop k room as s).1).2) := by
  fun_induction deliverLoop k room as s with
  | case1 => simp
  | case2 => simp
  | case3 room p ps s hz ih => simpa [deliverLoop, hz] using ih
  | case4 room p ps s hz hnone ih => simpa [deliverLoop, hz, hnone] using ih
  | case5 room p ps s hz e he ih =>
    simp only [List.cons_append, deliverLoop, hz, ↓reduceIte, he]
    rw [ih]
    simp

/-- A ready slot behind the one that filled the caller's array is left alone. -/
theorem deliverLoop_cutoff {k : Host} {before after : List PollFd} {p : PollFd} {room : Nat}
    {s : Interest} (hn : ((before ++ p :: after).map PollFd.fd).Nodup)
    (hfull : (deliverLoop k room before s).2.length = room) :
    (deliverLoop k room (before ++ p :: after) s).1.findEntry p.fd = s.findEntry p.fd := by
  simp only [List.map_append, List.map_cons, List.nodup_append] at hn
  obtain ⟨hb, -, hdisj⟩ := hn
  rw [deliverLoop_append, hfull]
  simp only [Nat.sub_self, deliverLoop_full]
  rcases @deliverLoop_find k before room s hb p.fd with ⟨ev, -, hmem, -⟩ | ⟨-, hkeep⟩
  · obtain ⟨q, hq, hqfd, -⟩ := deliverLoop_stored hb hmem
    exact absurd hqfd (hdisj _ (List.mem_map_of_mem hq) _ (by simp))
  · exact hkeep

end ApeShim.Epoll
