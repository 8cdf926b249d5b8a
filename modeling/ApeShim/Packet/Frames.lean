import ApeShim.Packet.Capture

/-!
What a receiving call takes and answers: every frame is that of a datagram taken, and the
second socket goes exactly when it has given nothing but junk, some of it no header, to a
call that found nothing anywhere and no such junk before.
-/

namespace ApeShim.Packet
open State

/-! ## Frames -/

def version (d : Bytes) : Option UInt8 := d.head?.map fun (c : UInt8) => c >>> 4

/-- The frame of a datagram: no MACs, the EtherType of its IP version, the datagram. -/
structure IsFrame (f d : Bytes) : Prop where
  macs : f.take 12 = List.replicate 12 0
  type : ((f.drop 12).take 2 = [0x08, 0x00] ∧ version d = some 4) ∨
    ((f.drop 12).take 2 = [0x86, 0xDD] ∧ version d = some 6)
  rest : f.drop 14 = d

theorem isFrame_of_etherType {et : UInt16} {d : Bytes} (h : etherType d = some et) :
    IsFrame (frameOf et d) d := by
  cases d with
  | nil => cases h
  | cons c b =>
    rw [etherType] at h
    split at h
    · rename_i hc
      cases h
      exact ⟨rfl, Or.inl ⟨rfl, congrArg some hc.1⟩, rfl⟩
    · split at h
      · rename_i hc
        cases h
        exact ⟨rfl, Or.inr ⟨rfl, congrArg some hc.1⟩, rfl⟩
      · cases h

theorem recvLoop_frame {room k : Nat} {q : List Given} {et : UInt16} {b : Bytes}
    (h : (recvLoop room k q).res = .frame et b) :
    b ∈ (recvLoop room k q).taken ∧ etherType b = some et := by
  induction k generalizing q with
  | zero => cases h
  | succ k ih =>
    rcases q with _ | ⟨d | e, q⟩
    · cases h
    · rw [recvLoop] at h ⊢
      cases het : etherType (d.take room) with
      | some et' =>
        simp only [het] at h ⊢
        cases h
        exact ⟨List.mem_singleton_self _, het⟩
      | none =>
        simp only [het] at h ⊢
        exact ⟨List.mem_cons_of_mem _ (ih h).1, (ih h).2⟩
    · cases h

theorem recvFramed_frame {n : Nat} {fd : Option Int} {queues : Int → List Given} {et : UInt16}
    {b : Bytes} (h : (recvFramed n fd queues).res = .frame et b) :
    b ∈ (recvFramed n fd queues).taken ∧ etherType b = some et := by
  cases fd with
  | none => cases h
  | some fd =>
    rw [recvFramed] at h ⊢
    by_cases hn : n ≤ ETH_HLEN
    · rw [if_pos hn] at h
      cases h
    · rw [if_neg hn] at h ⊢
      exact recvLoop_frame h

/-- All that was taken so far. -/
def Progress.taken (p : Progress) : List Bytes := p.from4 ++ p.from6

theorem attempt_taken (n : Nat) (fds : Bool → Option Int) (which : Bool) (p : Progress) (d : Bytes) :
    d ∈ (attempt n fds which p).1.taken ↔
      d ∈ p.taken ∨ d ∈ (recvFramed n (fds which) p.queues).taken := by
  cases which
  · simp only [attempt, Progress.taken, Bool.false_eq_true, if_false, List.mem_append]
    tauto
  · simp only [attempt, Progress.taken, if_true, List.mem_append]
    tauto

theorem serve_frame {n : Nat} {fds : Bool → Option Int} {first : Bool}
    {queues : Int → List Given} {et : UInt16} {b : Bytes}
    (h : (serve n fds first queues).2 = .frame et b) :
    b ∈ (serve n fds first queues).1.taken ∧ etherType b = some et := by
  have hattempt : ∀ which p, (attempt n fds which p).2 = .frame et b →
      b ∈ (attempt n fds which p).1.taken ∧ etherType b = some et := by
    intro which p hres
    obtain ⟨hmem, het⟩ := recvFramed_frame
      (show (recvFramed n (fds which) p.queues).res = .frame et b from hres)
    exact ⟨(attempt_taken n fds which p b).mpr (Or.inr hmem), het⟩
  have hfirst := hattempt first ⟨queues, [], [], false, false⟩
  rw [serve] at h ⊢
  split at h
  · exact hattempt _ _ h
  · exact hfirst h

/-! ## Junk -/

/-- A datagram that no frame is made of. -/
def Junk (d : Bytes) : Prop := etherType d = none

instance (d : Bytes) : Decidable (Junk d) := inferInstanceAs (Decidable (_ = none))

def Given.junk (room : Nat) : Given → Bool
  | .datagram b => decide (Junk (b.take room))
  | .fails _ => false

/-- Junk with something in it: no header at all. -/
def Given.odd (room : Nat) : Given → Bool
  | .datagram b => decide (b.take room ≠ [])
  | .fails _ => false

/-- What a pass over a socket can look at. -/
def inReach (q : List Given) : List Given := q.take PKT_DRAIN_MAX

/-- The junk that a pass drops. -/
def dropped (room : Nat) (q : List Given) : List Given := (inReach q).takeWhile (Given.junk room)

/-- A pass finds neither a frame nor an error. -/
def Dry (room : Nat) (q : List Given) : Prop := ∀ g ∈ inReach q, g.junk room = true

instance (room : Nat) (q : List Given) : Decidable (Dry room q) :=
  inferInstanceAs (Decidable (∀ g ∈ _, _))

theorem recvLoop_spec (room k : Nat) (q : List Given) :
    ((recvLoop room k q).res = .fails .EAGAIN ↔ ∀ g ∈ q.take k, g.junk room = true) ∧
      ((∃ d ∈ (recvLoop room k q).taken, Junk d) ↔ (q.take k).takeWhile (Given.junk room) ≠ []) ∧
      ((recvLoop room k q).unframeable = true ↔
        ∃ g ∈ (q.take k).takeWhile (Given.junk room), g.odd room = true) := by
  induction k generalizing q with
  | zero => simp [recvLoop]
  | succ k ih =>
    rcases q with _ | ⟨d | e, q⟩
    · simp [recvLoop]
    · obtain ⟨hres, htaken, hodd⟩ := ih q
      rw [recvLoop, List.take_succ_cons]
      cases het : etherType (d.take room) with
      | some et =>
        have hjunk : Given.junk room (.datagram d) = false := by simp [Given.junk, Junk, het]
        simp only [List.forall_mem_cons, hjunk]
        rw [List.takeWhile_cons_of_neg (by simp [hjunk])]
        simp [Junk, het]
      | none =>
        have hjunk : Given.junk room (.datagram d) = true := by simp [Given.junk, Junk, het]
        simp only [List.forall_mem_cons, hjunk]
        rw [List.takeWhile_cons_of_pos hjunk]
        refine ⟨by simpa using hres, by simp [Junk, het], ?_⟩
        rw [List.exists_mem_cons_iff, or_comm, ← hodd, Bool.or_eq_true]
        rfl
    · simp [recvLoop, Given.junk]

/-- A pass over an open socket, with room for more than a link-layer header. -/
theorem recvFramed_spec {n : Nat} (hn : ETH_HLEN < n) (fd : Int) (queues : Int → List Given) :
    let r := recvFramed n (some fd) queues
    let q := queues fd
    (r.res = .fails .EAGAIN ↔ Dry (n - ETH_HLEN) q) ∧
      ((∃ d ∈ r.taken, Junk d) ↔ dropped (n - ETH_HLEN) q ≠ []) ∧
      (r.unframeable = true ↔ ∃ g ∈ dropped (n - ETH_HLEN) q, g.odd (n - ETH_HLEN) = true) := by
  simp only [recvFramed, if_neg (Nat.not_le.mpr hn)]
  exact recvLoop_spec _ _ _

theorem recvFramed_congr {n : Nat} {fd : Int} {queues queues' : Int → List Given}
    (h : queues fd = queues' fd) : recvFramed n (some fd) queues = recvFramed n (some fd) queues' := by
  rw [recvFramed, recvFramed, h]

theorem serve_eq (n : Nat) (fds : Bool → Option Int) (first : Bool) (queues : Int → List Given) :
    serve n fds first queues =
      if (attempt n fds first ⟨queues, [], [], false, false⟩).2 = .fails .EAGAIN then
        attempt n fds (!first) (attempt n fds first ⟨queues, [], [], false, false⟩).1
      else attempt n fds first ⟨queues, [], [], false, false⟩ := by
  rw [serve]
  rcases attempt n fds first ⟨queues, [], [], false, false⟩ with ⟨p, et | e⟩
  · rfl
  · cases e <;> rfl

/-- The second socket is up for retirement: both sockets are dry, and its junk was seen. -/
def Retires (r : Progress × Res) : Prop := r.2 = .fails .EAGAIN ∧ r.1.bad6 = true

/-- What is queued lets a call that gets junk from the second socket retire it: it gets
nothing else from either, some of the junk is no header, and the first socket, if asked
before, gave none such. -/
def Clear (room : Nat) (first : Bool) (q4 q6 : List Given) : Prop :=
  first = true ∨ Dry room q4 → dropped room q6 ≠ [] →
    Dry room q4 ∧ Dry room q6 ∧ (∃ g ∈ dropped room q6, g.odd room = true) ∧
      (first = true ∨ ∀ g ∈ dropped room q4, g.odd room = false)

/-- A call retires the second socket for any junk it got exactly if what is queued is clear. -/
theorem serve_retires_iff {n : Nat} (hn : ETH_HLEN < n) {fd fd6 : Int} (hne : fd6 ≠ fd)
    (first : Bool) (queues : Int → List Given) :
    let r := serve n (fun which => if which then some fd6 else some fd) first queues
    ((∃ d ∈ r.1.from6, Junk d) → Retires r) ↔
      Clear (n - ETH_HLEN) first (queues fd) (queues fd6) := by
  intro r
  obtain ⟨hdry4, hjunk4, hodd4⟩ := recvFramed_spec hn fd queues
  obtain ⟨hdry6, hjunk6, hodd6⟩ := recvFramed_spec hn fd6 queues
  have hr : r = serve n (fun which => if which then some fd6 else some fd) first queues := rfl
  rw [serve_eq] at hr
  cases first with
  | true =>
    -- the second socket is asked first, with nothing seen before
    by_cases hres : (recvFramed n (some fd6) queues).res = .fails .EAGAIN
    · rw [if_pos (by exact hres)] at hr
      have hother := @recvFramed_congr n _
        (Function.update queues fd6 (recvFramed n (some fd6) queues).rest) _
        (Function.update_of_ne hne.symm _ queues)
      have hfrom : r.1.from6 = (recvFramed n (some fd6) queues).taken := by rw [hr]; rfl
      have hlast : r.2 = (recvFramed n (some fd) queues).res := by
        rw [hr, ← hother]
        rfl
      have hbad : r.1.bad6 = (recvFramed n (some fd6) queues).unframeable := by
        rw [hr]
        simp [attempt]
      rw [Retires, hfrom, hlast, hbad, hjunk6, hdry4, hodd6]
      constructor
      · intro h _ hj
        exact ⟨(h hj).1, hdry6.mp hres, (h hj).2, Or.inl rfl⟩
      · intro h hj
        obtain ⟨h4, -, hodd, -⟩ := h (Or.inl rfl) hj
        exact ⟨h4, hodd⟩
    · rw [if_neg (by exact hres)] at hr
      have hfrom : r.1.from6 = (recvFramed n (some fd6) queues).taken := by rw [hr]; rfl
      have hlast : r.2 = (recvFramed n (some fd6) queues).res := by rw [hr]; rfl
      rw [Retires, hfrom, hlast, hjunk6]
      constructor
      · intro h _ hj
        exact absurd (h hj).1 hres
      · intro h hj
        exact absurd (hdry6.mpr (h (Or.inl rfl) hj).2.1) hres
  | false =>
    by_cases hres : (recvFramed n (some fd) queues).res = .fails .EAGAIN
    · rw [if_pos (by exact hres)] at hr
      have hother := @recvFramed_congr n _
        (Function.update queues fd (recvFramed n (some fd) queues).rest) _
        (Function.update_of_ne hne _ queues)
      have hfrom : r.1.from6 = (recvFramed n (some fd6) queues).taken := by
        rw [hr, ← hother]
        rfl
      have hlast : r.2 = (recvFramed n (some fd6) queues).res := by
        rw [hr, ← hother]
        rfl
      have hbad : r.1.bad6 = ((recvFramed n (some fd6) queues).unframeable &&
          !(recvFramed n (some fd) queues).unframeable) := by
        rw [hr, ← hother]
        simp [attempt]
      have hnone : (recvFramed n (some fd) queues).unframeable = false ↔
          ∀ g ∈ dropped (n - ETH_HLEN) (queues fd), g.odd (n - ETH_HLEN) = false := by
        rw [← Bool.not_eq_true, hodd4]
        simp
      rw [Retires, hfrom, hlast, hbad, hjunk6, hdry6, Bool.and_eq_true, hodd6, Bool.not_eq_true',
        hnone]
      constructor
      · intro h _ hj
        obtain ⟨h6, hodd, hno⟩ := h hj
        exact ⟨hdry4.mp hres, h6, hodd, Or.inr hno⟩
      · intro h hj
        obtain ⟨-, h6, hodd, hno | hno⟩ := h (Or.inr (hdry4.mp hres)) hj
        · cases hno
        · exact ⟨h6, hodd, hno⟩
    · rw [if_neg (by exact hres)] at hr
      have hfrom : r.1.from6 = [] := by rw [hr]; rfl
      rw [hfrom]
      refine iff_of_true (fun ⟨d, hd, _⟩ => absurd hd (List.not_mem_nil)) ?_
      rintro (hf | hdry)
      · cases hf
      · exact absurd (hdry4.mpr hdry) hres

end ApeShim.Packet
