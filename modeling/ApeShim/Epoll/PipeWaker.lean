import ApeShim.Epoll.Pairs

/-!
When a write to the recorded end of a pair re-arms the other end: exactly while
the pair is in its slot. A waker that is never read depends on this alone.
-/

namespace ApeShim.Epoll
open Flags

/-- Whatever the sets hold: a successful write of a byte or more to `w` leaves
the read side of `r` armed wherever `r` is edge-triggered and not one-shot, and
the next snapshot polls it for input if it was registered for input. -/
def Rearms (c : Fin maxSets → Config) (t : PairTable) (r w : Int) : Prop :=
  ∀ (p : Process) (n : Int) (want : Nat) (eagain : Bool), p.table = t → 0 < n →
    ∀ i s e, p.sets i = some s → s.interest.findEntry r = some e → e.edge = true →
      e.oneshot = false →
      ∃ p' s' e', p.step c (.write w n eagain want) = some p' ∧ p'.sets i = some s' ∧
        s'.interest.findEntry r = some e' ∧ has e'.armed ARM_IN = true ∧
        (has e.events EPOLLIN = true → (c i).k.POLLIN ≠ 0#16 →
          ∃ q ∈ (snapshot (c i).k (c i).handle s'.interest).slots,
            q.fd = r ∧ has q.events (c i).k.POLLIN = true)

/-! ## What the write does -/

theorem State.rearm_find (s : State) (fd : Int) (bits : BitVec 32) (k : Int) :
    (s.rearm fd bits).interest.findEntry k =
      if k = fd then (s.interest.findEntry fd).map (rearmEntry bits) else s.interest.findEntry k :=
  rearmSet_find s.interest fd bits k

/-- Re-arming only adds bits. -/
theorem State.rearm_armed {s : State} {fd k : Int} {bits d : BitVec 32} {e : Entry}
    (he : s.interest.findEntry k = some e) (hd : has e.armed d = true) :
    ∃ e', (s.rearm fd bits).interest.findEntry k = some e' ∧ has e'.armed d = true ∧
      e'.events = e.events := by
  rw [State.rearm_find]
  split
  · rename_i hk
    subst hk
    refine ⟨rearmEntry bits e, by simp [he], ?_, by simp⟩
    unfold rearmEntry
    split
    · simp [hd]
    · exact hd
  · exact ⟨e, he, hd, rfl⟩

/-- An armed read side registered for input is polled for input. -/
theorem snapshot_polls_input {k : Host} {handle : Int} {i : Interest} {r : Int} {e : Entry}
    (he : i.findEntry r = some e) (harmed : has e.armed ARM_IN = true)
    (hin : has e.events EPOLLIN = true) (hbit : k.POLLIN ≠ 0#16) :
    ∃ q ∈ (snapshot k handle i).slots, q.fd = r ∧ has q.events k.POLLIN = true := by
  have heff : has (effectiveArmed k e) ARM_IN = true := by
    unfold effectiveArmed
    split
    · decide
    · exact harmed
  have hself : has k.POLLIN k.POLLIN = true := by simp [has, hbit]
  have hpolled : has (epollToPoll k e.events (effectiveArmed k e)) k.POLLIN = true := by
    simp [epollToPoll, heff, hin, hself]
  have hfd : e.fd = r := (Interest.findEntry_eq_some_iff.mp he).2
  refine ⟨⟨e.fd, epollToPoll k e.events (effectiveArmed k e), 0#16⟩, ?_, hfd, hpolled⟩
  refine mem_snapshot.mpr ⟨e, by simpa [hfd] using he, ?_⟩
  simp only [snapSlot]
  rw [if_neg]
  rintro ⟨hzero, -⟩
  simp [hzero] at hpolled

theorem rearms_of_hint {c : Fin maxSets → Config} {t : PairTable} {r w : Int}
    (h : hintPipeWrite t w = some r) : Rearms c t r w := by
  rintro p n want eagain rfl hn i s e hs he hedge hone
  have hfirst : (s.rearm r ARM_IN).interest.findEntry r = some (rearmEntry ARM_IN e) := by
    simp [State.rearm_find, he]
  have harmed : has (rearmEntry ARM_IN e).armed ARM_IN = true := by
    simp only [rearmEntry, hedge, hone, Bool.not_false, Bool.and_self, ↓reduceIte, has_or_left,
      Bool.or_eq_true]
    exact Or.inr (by decide)
  -- a short write re-arms the write side of `w` on top
  have hset : ∃ s', (writeResult p w n eagain want).sets i = some s' ∧
      ∃ e', s'.interest.findEntry r = some e' ∧ has e'.armed ARM_IN = true ∧
        e'.events = e.events := by
    have hhint : (p.hint w).sets i = some (s.rearm r ARM_IN) := by
      simp [Process.hint, h, Process.rearm, hs]
    unfold writeResult
    rw [if_pos hn]
    split
    · unfold Process.rearmOut
      split
      · exact ⟨_, hhint, _, hfirst, harmed, by simp⟩
      · obtain ⟨e', he', ha, hev⟩ := @State.rearm_armed _ w r ARM_OUT ARM_IN _ hfirst harmed
        exact ⟨_, by simp only [Process.rearm, hhint, Option.map_some], e', he', ha, by simp [hev]⟩
    · exact ⟨_, hhint, _, hfirst, harmed, by simp⟩
  obtain ⟨s', hs', e', he', ha, hev⟩ := hset
  refine ⟨_, s', e', rfl, hs', he', ha, fun hin hbit => ?_⟩
  exact snapshot_polls_input he' ha (hev ▸ hin) hbit

/-- A full write whose hint does not name `r` leaves every entry of `r` alone. -/
theorem write_without_hint {c : Fin maxSets → Config} {p p' : Process} {r w : Int} {n : Nat}
    {eagain : Bool} {i : Fin maxSets} {s : State} (h : hintPipeWrite p.table w ≠ some r) (hn : 0 < n)
    (hs : p.sets i = some s) (hw : p.step c (.write w n eagain n) = some p') :
    ∃ s', p'.sets i = some s' ∧ s'.interest.findEntry r = s.interest.findEntry r := by
  cases hw
  have hpos : (0 : Int) < n := by omega
  simp only [Act.apply, writeResult, hpos, lt_irrefl, ↓reduceIte, Process.hint]
  cases ht : hintPipeWrite p.table w with
  | none => exact ⟨s, hs, rfl⟩
  | some r' =>
    have hne : r ≠ r' := by
      rintro rfl
      exact h ht
    refine ⟨s.rearm r' ARM_IN, by simp [Process.rearm, hs], ?_⟩
    simp [State.rearm_find, hne]

/-- A set in which `r` waits for the next edge. -/
def awaitingEdge (r : Int) : State :=
  { State.init with
    interest := ⟨⟨[⟨r, EPOLLIN ||| EPOLLET, 0#64, 0#32⟩], by simp⟩, 8, by simp⟩ }

theorem not_rearms_without_hint {c : Fin maxSets → Config} {t : PairTable} {r w : Int}
    (h : hintPipeWrite t w ≠ some r) : ¬ Rearms c t r w := by
  intro hre
  have hentry : (awaitingEdge r).interest.findEntry r =
      some ⟨r, EPOLLIN ||| EPOLLET, 0#64, 0#32⟩ :=
    Interest.findEntry_eq_some_iff.mpr ⟨List.mem_singleton.mpr rfl, rfl⟩
  obtain ⟨p', s', e', hstep, hs', he', harmed, -⟩ := hre ⟨t, fun _ => some (awaitingEdge r)⟩ 1 1 false
    rfl (by decide) ⟨0, by decide⟩ _ _ rfl hentry (show has (EPOLLIN ||| EPOLLET) EPOLLET = true by decide)
    (show has (EPOLLIN ||| EPOLLET) EPOLLONESHOT = false by decide)
  obtain ⟨s'', hs'', hsame⟩ := write_without_hint h (n := 1) (by decide) rfl hstep
  rw [hs'] at hs''
  cases hs''
  rw [he', hentry] at hsame
  cases hsame
  simp at harmed

/-! ## When the waker is heard -/

theorem hint_after {c : Fin maxSets → Config} {pre post : List Act} {mk : Act} {r w : Int}
    {p : Process} (hmade : mk.makes r w) (hquiet : ∀ a ∈ post, ¬ a.touches r ∧ ¬ a.touches w)
    (hrun : Process.init.run c (pre ++ mk :: post) = some p) :
    hintPipeWrite p.table w = some r ↔ 0 < w ∧ mk.recordsAfter w + recorded post < pipePairs := by
  by_cases hw : 0 < w
  · have hr : 0 ≤ r := by
      cases mk with
      | pipe e => exact hmade.1 ▸ e.hr
      | socketpair e =>
        rcases hmade with ⟨rfl, -⟩ | ⟨rfl, -⟩
        · exact e.hr
        · exact e.hw
      | _ => exact hmade.elim
    have hexact : p.table.Exact := exact_run _ (by simp [PairTable.Exact, Process.init,
      PairTable.empty]) hrun
    rw [run_append] at hrun
    obtain ⟨p₀, -, hrest⟩ := Option.bind_eq_some_iff.mp hrun
    obtain ⟨p₁, h₁, h₂⟩ := Option.bind_eq_some_iff.mp hrest
    obtain ⟨start, hmk⟩ := tracks_makes hmade hw (step_record h₁)
    rw [(tracks_run hw post hquiet hmk h₂).hint hexact hr hw]
    simp [hw]
  · have hle : w ≤ 0 := by omega
    simp [hintPipeWrite, hle, hw]

/-- **When a pipe waker is heard.** Take any run that makes a pair and then
neither closes nor gives out again either of its numbers. Its writes re-arm the
read end in every set, whatever the sets hold, exactly when the write end is not
number 0, fewer than 32 pairs were recorded after it, and the process records
fewer than 2^31 in all. -/
theorem pipe_waker_heard_iff (c : Fin maxSets → Config) (pre post : List Act) (mk : Act) (r w : Int)
    (hmade : mk.makes r w) (hquiet : ∀ a ∈ post, ¬ a.touches r ∧ ¬ a.touches w) :
    (∃ p, Process.init.run c (pre ++ mk :: post) = some p ∧ Rearms c p.table r w) ↔
      0 < w ∧ mk.recordsAfter w + recorded post < pipePairs ∧
        recorded (pre ++ mk :: post) < 2 ^ 31 := by
  have hdef := run_defined c (pre ++ mk :: post) Process.init (by simp [Process.init, PairTable.empty])
  simp only [Process.init, PairTable.empty, Nat.zero_add] at hdef
  constructor
  · rintro ⟨p, hp, hre⟩
    have hhint : hintPipeWrite p.table w = some r := by
      by_contra hno
      exact not_rearms_without_hint hno hre
    obtain ⟨hw, hage⟩ := (hint_after hmade hquiet hp).mp hhint
    exact ⟨hw, hage, hdef.mp ⟨p, hp⟩⟩
  · rintro ⟨hw, hage, htotal⟩
    obtain ⟨p, hp⟩ := hdef.mpr htotal
    exact ⟨p, hp, rearms_of_hint ((hint_after hmade hquiet hp).mpr ⟨hw, hage⟩)⟩

/-- A waker pipe. -/
def wakerPipe : Act := .pipe ⟨3, 4, by decide, by decide, by decide⟩

/-- A pipe that is made and closed again. -/
def passingPipe : List Act :=
  [.pipe ⟨5, 6, by decide, by decide, by decide⟩, .closed 5, .closed 6]

theorem passingPipe_apart : ∀ a ∈ passingPipe, ¬ a.touches 3 ∧ ¬ a.touches 4 := by
  simp [passingPipe, Act.touches]

def plainSets (_ : Fin maxSets) : Config := ⟨plainHost, 9, 16⟩

/-- One pipe after the waker does no harm. -/
theorem pipe_waker_heard_after_one :
    ∃ p, Process.init.run plainSets ([] ++ wakerPipe :: passingPipe) = some p ∧
      Rearms plainSets p.table 3 4 :=
  (pipe_waker_heard_iff plainSets [] passingPipe wakerPipe 3 4 ⟨rfl, rfl⟩ passingPipe_apart).mpr
    ⟨by decide, by decide, by simp [recorded, wakerPipe, passingPipe, Act.records]⟩

/-! ## What goes wrong -/

/-- Set `i` registers 3 edge-triggered, and a wait reports it. -/
def watchReadEnd (i : Fin maxSets) : List Act :=
  [.inSet i (.ctl 9 .add 3 (some ⟨EPOLLIN ||| EPOLLET, 1⟩) true), .inSet i (.enter 0 1 true),
    .inSet i (.snap 0 true), .inSet i (.poll 0 (.ready 1 0 fun _ => 1) false),
    .inSet i (.deliver 0 false)]

def firstSet : Fin maxSets := ⟨0, by decide⟩

/-- Up to the delivery the run is computed. -/
theorem run_watched : ∃ p s, Process.init.run plainSets
      ([.create firstSet] ++ wakerPipe :: watchReadEnd firstSet) = some p ∧
    p.table.next = 1 ∧ p.sets firstSet = some s ∧
    s.interest.findEntry 3 = some ⟨3, EPOLLIN ||| EPOLLET, 1, ARM_OUT⟩ :=
  ⟨_, _, rfl, rfl, rfl, by decide⟩

theorem run_sets {c : Fin maxSets → Config} (l : List Act) :
    ∀ {p q : Process}, (∀ a ∈ l, ∀ p, (a.apply c p).sets = p.sets) → p.run c l = some q →
      q.sets = p.sets := by
  induction l with
  | nil => intro p q _ hq; cases hq; rfl
  | cons a l ih =>
    intro p q hl hq
    obtain ⟨p₁, h₁, h₂⟩ := Option.bind_eq_some_iff.mp hq
    obtain ⟨t, -, rfl⟩ := Option.map_eq_some_iff.mp h₁
    rw [ih (fun b hb => hl b (by simp [hb])) h₂]
    exact hl a (by simp) p

/-- The waker on 3 and 4 goes deaf after 32 pipes that came and went on 5 and
6: with neither 3 nor 4 closed, a write to 4 leaves the edge-triggered read end
disarmed, and the next wait does not poll it. -/
theorem waker_deaf_after_passing_pipes :
    ∃ p p' s e, Process.init.run plainSets ([.create firstSet] ++ wakerPipe ::
        (watchReadEnd firstSet ++ (List.replicate 32 passingPipe).flatten)) = some p ∧
      p.step plainSets (.write 4 1 false 1) = some p' ∧
      p'.sets firstSet = some s ∧ s.interest.findEntry 3 = some e ∧ e.edge = true ∧
      e.oneshot = false ∧ has e.events EPOLLIN = true ∧ has e.armed ARM_IN = false ∧
      ∀ q ∈ (snapshot plainHost 9 s.interest).slots, q.fd ≠ 3 := by
  have hpassing : ∀ a ∈ (List.replicate 32 passingPipe).flatten, a ∈ passingPipe := by
    intro a ha
    obtain ⟨l, hl, ha⟩ := List.mem_flatten.mp ha
    exact List.eq_of_mem_replicate hl ▸ ha
  have hcount : recorded (List.replicate 32 passingPipe).flatten = 32 := by decide
  obtain ⟨p₁, s₁, hp₁, hnext, hs₁, hentry⟩ := run_watched
  obtain ⟨p, hp⟩ := (run_defined plainSets (List.replicate 32 passingPipe).flatten p₁
    (by omega)).mpr (by omega)
  have hrun : Process.init.run plainSets ([.create firstSet] ++ wakerPipe ::
      (watchReadEnd firstSet ++ (List.replicate 32 passingPipe).flatten)) = some p := by
    have hsplit := run_append plainSets ([.create firstSet] ++ wakerPipe :: watchReadEnd firstSet)
      (List.replicate 32 passingPipe).flatten Process.init
    rw [hp₁, Option.bind_some, hp, List.append_assoc, List.cons_append] at hsplit
    exact hsplit
  have hquiet : ∀ a ∈ watchReadEnd firstSet ++ (List.replicate 32 passingPipe).flatten,
      ¬ a.touches 3 ∧ ¬ a.touches 4 := by
    intro a ha
    rcases List.mem_append.mp ha with ha | ha
    · simp only [watchReadEnd, List.mem_cons, List.not_mem_nil, or_false] at ha
      rcases ha with rfl | rfl | rfl | rfl | rfl <;> exact ⟨id, id⟩
    · exact passingPipe_apart a (hpassing a ha)
  have hmakes : wakerPipe.makes 3 4 := ⟨rfl, rfl⟩
  have hdeaf : hintPipeWrite p.table 4 ≠ some 3 := by
    intro hh
    have hage := ((hint_after hmakes hquiet hrun).mp hh).2
    have hall : recorded (watchReadEnd firstSet ++ (List.replicate 32 passingPipe).flatten) = 32 := by
      decide
    rw [hall] at hage
    exact absurd hage (by decide)
  -- pipes that come and go do not touch the sets
  have hsets : p.sets = p₁.sets := by
    refine run_sets _ (fun a ha q => ?_) hp
    have hmem := hpassing a ha
    simp only [passingPipe, List.mem_cons, List.not_mem_nil, or_false] at hmem
    rcases hmem with rfl | rfl | rfl <;> rfl
  obtain ⟨s, hs, hsame⟩ := write_without_hint (c := plainSets) (n := 1)
    hdeaf (by decide) (hsets ▸ hs₁) rfl
  rw [hentry] at hsame
  refine ⟨p, _, s, _, hrun, rfl, hs, hsame, by decide, by decide, by decide, by decide, ?_⟩
  have hslot : snapSlot plainHost ⟨3, EPOLLIN ||| EPOLLET, 1, ARM_OUT⟩ = none := by decide
  intro q hq hfd
  obtain ⟨e, he, hq⟩ := mem_snapshot.mp hq
  rw [hfd, hsame, Option.some.injEq] at he
  rw [← he, hslot] at hq
  simp at hq

end ApeShim.Epoll
