import ApeShim.Console.Scanner
import Mathlib.Algebra.Order.BigOperators.Group.List
import Mathlib.Algebra.Order.Ring.Nat

/-!
`__ape_shim_write` and `__ape_shim_writev` of `shim/io.c` on a console: what the host is handed,
what the caller is told, and what the scanner is fed.
-/

namespace ApeShim.Console

inductive Errno
  | eagain | other
  deriving DecidableEq, Repr

/-- The descriptor and the host as one call finds them. -/
structure Host where
  /-- `__ape_shim_nt_gated`: O_NONBLOCK is set -/
  gated : Bool
  /-- `poll` finds no room -/
  full : Bool
  /-- what `write` and `writev` return for so many bytes -/
  answer : Nat → Except Errno Nat
  answer_le : ∀ n r, answer n = .ok r → r ≤ n

/-- `__ape_shim_nt_wants_eagain` -/
def Host.wantsEagain (h : Host) : Bool := h.gated && h.full

/-- `__ape_shim_nt_clamp` -/
def Host.clamp (h : Host) (n : Nat) : Nat := if n > 65536 ∧ h.gated = true then 65536 else n

/-- What a call did. -/
structure Out where
  ret : Except Errno Nat
  /-- the bytes in the host's call -/
  handed : List UInt8
  /-- the calls of `__ape_shim_console_wrote` -/
  fed : List (List UInt8)
  /-- `__ape_shim_epoll_rearm_out` -/
  rearmed : Bool
  /-- `__ape_shim_epoll_hint_pipe_write` -/
  hinted : Bool

/-- `write_result` -/
def writeResult (r : Except Errno Nat) (want : Nat) (handed : List UInt8) (fed : List (List UInt8)) :
    Out :=
  match r with
  | .ok 0 => ⟨r, handed, fed, false, false⟩
  | .ok (k + 1) => ⟨r, handed, fed, k + 1 < want, true⟩
  | .error e => ⟨r, handed, fed, e = .eagain, false⟩

/-- What is fed after a call that returned `r`. -/
def fedOn (r : Except Errno Nat) (fed : Nat → List (List UInt8)) : List (List UInt8) :=
  match r with
  | .ok 0 => []
  | .ok (k + 1) => fed (k + 1)
  | .error _ => []

/-- `write` of one slice, clamped: the whole of `__ape_shim_write`, and the gated half of
`__ape_shim_writev`. -/
def Host.writeSlice (h : Host) (buf : List UInt8) (want : Nat) : Out :=
  let r := h.answer (h.clamp buf.length)
  writeResult r want (buf.take (h.clamp buf.length)) (fedOn r fun k => [buf.take k])

/-- `__ape_shim_write` -/
def Host.write (h : Host) (buf : List UInt8) : Out :=
  if h.wantsEagain then writeResult (.error .eagain) buf.length [] []
  else h.writeSlice buf buf.length

/-- `__ape_shim_writev` -/
def Host.writev (h : Host) (iov : List (List UInt8)) : Out :=
  if h.wantsEagain then writeResult (.error .eagain) 1 [] []
  else
    let total := iov.flatten.length
    match if h.gated then iov.find? (· ≠ []) else none with
    | some slice => h.writeSlice slice total
    | none => writeResult (h.answer total) total iov.flatten (fedOn (h.answer total) fun _ => iov)

inductive Call
  | write (h : Host) (buf : List UInt8)
  | writev (h : Host) (iov : List (List UInt8))

def Call.run : Call → Out
  | .write h buf => h.write buf
  | .writev h iov => h.writev iov

/-- What the caller asks to be written. -/
def Call.bytes : Call → List UInt8
  | .write _ buf => buf
  | .writev _ iov => iov.flatten

/-- The bytes the host reported as written. -/
def Out.accepted (o : Out) : List UInt8 :=
  match o.ret with
  | .ok r => o.handed.take r
  | .error _ => []

/-- The return value counts what the host took, which is the front of what was asked for. -/
def Call.Counts (c : Call) : Prop :=
  ∀ r, c.run.ret = .ok r → r ≤ c.bytes.length ∧ c.run.accepted = c.bytes.take r

/-- An ungated vector is written whole, or not at all. -/
def Call.Whole : Call → Prop
  | .write _ _ => True
  | .writev h iov =>
    h.gated = true ∨ ∀ r, h.answer iov.flatten.length = .ok r → r = 0 ∨ r = iov.flatten.length

/-! ## One call -/

section Result

variable {r : Except Errno Nat} {want : Nat} {handed : List UInt8} {fed : List (List UInt8)}

@[simp] theorem writeResult_ret : (writeResult r want handed fed).ret = r := by
  rcases r with e | _ | k <;> rfl

@[simp] theorem writeResult_handed : (writeResult r want handed fed).handed = handed := by
  rcases r with e | _ | k <;> rfl

@[simp] theorem writeResult_fed : (writeResult r want handed fed).fed = fed := by
  rcases r with e | _ | k <;> rfl

theorem writeResult_accepted : (writeResult r want handed fed).accepted =
    match r with
    | .ok k => handed.take k
    | .error _ => [] := by
  rw [Out.accepted, writeResult_ret, writeResult_handed]

end Result

section Calls

variable {h : Host} {buf : List UInt8} {iov : List (List UInt8)}

theorem Host.clamp_le (n : Nat) : h.clamp n ≤ n := by
  rw [Host.clamp]
  split <;> omega

/-- One slice: the front that the host took is what is fed. -/
theorem writeSlice_spec (want : Nat) :
    (h.writeSlice buf want).fed.flatten = (h.writeSlice buf want).accepted ∧
      ∀ r, (h.writeSlice buf want).ret = .ok r →
        r ≤ buf.length ∧ (h.writeSlice buf want).accepted = buf.take r := by
  have hle := h.answer_le (h.clamp buf.length)
  have hclamp := h.clamp_le buf.length
  rw [Host.writeSlice]
  simp only [writeResult_fed, writeResult_ret, writeResult_accepted]
  rcases hr : h.answer (h.clamp buf.length) with e | _ | k
  · exact ⟨rfl, nofun⟩
  · refine ⟨by simp [fedOn], ?_⟩
    rintro r ⟨⟩
    exact ⟨Nat.zero_le _, by simp⟩
  · have hk : k + 1 ≤ h.clamp buf.length := hle _ hr
    have htake : (buf.take (h.clamp buf.length)).take (k + 1) = buf.take (k + 1) := by
      rw [List.take_take, min_eq_left hk]
    refine ⟨by simp [fedOn, htake], ?_⟩
    rintro r ⟨⟩
    exact ⟨hk.trans hclamp, htake⟩

/-- The first slice that is not empty begins the concatenated ones. -/
theorem take_flatten_of_find {slice : List UInt8} (hf : iov.find? (· ≠ []) = some slice) {r : Nat}
    (hr : r ≤ slice.length) :
    r ≤ iov.flatten.length ∧ iov.flatten.take r = slice.take r := by
  induction iov with
  | nil => cases hf
  | cons s iov ih =>
    by_cases hs : s = []
    · subst hs
      rw [List.find?_cons_of_neg (by simp)] at hf
      simpa using ih hf
    · rw [List.find?_cons_of_pos (by simpa using hs)] at hf
      cases hf
      rw [List.flatten_cons, List.length_append, List.take_append_of_le_length hr]
      exact ⟨by omega, rfl⟩

theorem refused_spec (want : Nat) :
    (writeResult (.error .eagain) want [] []).fed.flatten =
        (writeResult (.error .eagain) want [] []).accepted ∧
      ∀ r, (writeResult (.error .eagain) want [] []).ret ≠ .ok r :=
  ⟨rfl, nofun⟩

/-- A plain vector is fed whole for any progress at all. -/
theorem writev_plain (hg : h.gated = false) : h.writev iov = writeResult (h.answer iov.flatten.length)
    iov.flatten.length iov.flatten (fedOn (h.answer iov.flatten.length) fun _ => iov) := by
  rw [Host.writev, Host.wantsEagain, hg]
  rfl

/-- On a gated descriptor, a vector goes slice by slice. -/
theorem writev_gated (hg : h.gated = true) :
    (h.writev iov).fed.flatten = (h.writev iov).accepted ∧ Call.Counts (.writev h iov) := by
  rw [Call.Counts, Call.run, Call.bytes, Host.writev, hg]
  split
  · obtain ⟨hfed, hret⟩ := refused_spec 1
    exact ⟨hfed, fun r hr => absurd hr (hret r)⟩
  · simp only [if_true]
    split
    · rename_i slice hslice
      obtain ⟨hfed, hcounts⟩ := @writeSlice_spec h slice iov.flatten.length
      refine ⟨hfed, fun r hr => ?_⟩
      obtain ⟨hle, haccepted⟩ := hcounts r hr
      obtain ⟨hlen, htake⟩ := take_flatten_of_find hslice hle
      exact ⟨hlen, haccepted.trans htake.symm⟩
    · rename_i hnone
      -- every slice is empty
      have hempty : iov.flatten = [] := by
        rw [List.flatten_eq_nil_iff]
        simpa using hnone
      have hzero := h.answer_le 0
      simp only [hempty, writeResult_fed, writeResult_ret, writeResult_accepted, List.length_nil]
      rcases hr : h.answer 0 with e | _ | k
      · exact ⟨rfl, nofun⟩
      · refine ⟨rfl, ?_⟩
        rintro r ⟨⟩
        exact ⟨Nat.le_refl 0, rfl⟩
      · exact absurd (hzero _ hr) (by omega)

/-- What the host took is the front of what is fed, and all of it only for a whole vector. -/
theorem Call.spec (c : Call) :
    c.run.accepted <+: c.run.fed.flatten ∧ (c.run.fed.flatten = c.run.accepted ↔ c.Whole) ∧
      c.Counts := by
  cases c with
  | write h buf =>
    have hspec : (Call.write h buf).run.fed.flatten = (Call.write h buf).run.accepted ∧
        (Call.write h buf).Counts := by
      rw [Call.Counts, Call.run, Call.bytes, Host.write]
      split
      · obtain ⟨hfed, hret⟩ := refused_spec buf.length
        exact ⟨hfed, fun r hr => absurd hr (hret r)⟩
      · exact writeSlice_spec buf.length
    exact ⟨by rw [hspec.1], ⟨fun _ => trivial, fun _ => hspec.1⟩, hspec.2⟩
  | writev h iov =>
    cases hg : h.gated with
    | true =>
      obtain ⟨hfed, hcounts⟩ := @writev_gated h iov hg
      exact ⟨by rw [Call.run, hfed], ⟨fun _ => Or.inl hg, fun _ => hfed⟩, hcounts⟩
    | false =>
      have hle := h.answer_le iov.flatten.length
      simp only [Call.Counts, Call.Whole, Call.run, Call.bytes, writev_plain hg, writeResult_fed,
        writeResult_ret, writeResult_accepted, hg, Bool.false_eq_true, false_or]
      rcases hr : h.answer iov.flatten.length with e | _ | k
      · exact ⟨List.nil_prefix, ⟨fun _ => nofun, fun _ => rfl⟩, nofun⟩
      · refine ⟨by simp [fedOn], ⟨fun _ => ?_, fun _ => by simp [fedOn]⟩, ?_⟩
        · rintro r ⟨⟩
          exact Or.inl rfl
        · rintro r ⟨⟩
          exact ⟨Nat.zero_le _, rfl⟩
      · have hk : k + 1 ≤ iov.flatten.length := hle _ hr
        refine ⟨List.take_prefix _ _, ⟨fun heq => ?_, fun hwhole => ?_⟩, ?_⟩
        · rintro r ⟨⟩
          have hlen := congrArg List.length heq
          rw [fedOn, List.length_take] at hlen
          exact Or.inr (by omega)
        · rcases hwhole _ rfl with hzero | htotal
          · cases hzero
          · show iov.flatten = iov.flatten.take (k + 1)
            rw [htotal, List.take_length]
        · rintro r ⟨⟩
          exact ⟨hk, rfl⟩

end Calls

/-! ## Runs -/

/-- Concatenations of lists and of their fronts agree only piece by piece. -/
theorem flatMap_eq_iff_of_prefixes {ι α : Type*} {f g : ι → List α} {l : List ι}
    (h : ∀ i ∈ l, g i <+: f i) : l.flatMap f = l.flatMap g ↔ ∀ i ∈ l, f i = g i := by
  induction l with
  | nil => simp
  | cons i l ih =>
    rw [List.forall_mem_cons] at h
    obtain ⟨⟨t, ht⟩, hrest⟩ := h
    rw [List.flatMap_cons, List.flatMap_cons, List.forall_mem_cons, ← ih hrest]
    constructor
    · intro heq
      rw [← ht, List.append_assoc, List.append_cancel_left_eq] at heq
      have hle : (l.flatMap g).length ≤ (l.flatMap f).length := by
        rw [List.length_flatMap, List.length_flatMap]
        exact List.sum_le_sum fun j hj => (hrest j hj).length_le
      have hnil : t = [] := by
        have hlen := congrArg List.length heq
        rw [List.length_append] at hlen
        exact List.eq_nil_of_length_eq_zero (by omega)
      rw [hnil, List.nil_append] at heq
      exact ⟨by rw [← ht, hnil, List.append_nil], heq⟩
    · rintro ⟨hi, hl⟩
      rw [hi, hl]

/-- What a run feeds to the scanner. -/
def fedBy (calls : List Call) : List UInt8 := calls.flatMap fun c => c.run.fed.flatten

def acceptedBy (calls : List Call) : List UInt8 := calls.flatMap fun c => c.run.accepted

/-- The scanner after a run of calls. -/
def scanned (s : Scanner) (calls : List Call) : Scanner :=
  calls.foldl (fun s c => c.run.fed.foldl Scanner.scan s) s

theorem scanned_eq (s : Scanner) (calls : List Call) : scanned s calls = s.scan (fedBy calls) := by
  induction calls generalizing s with
  | nil => rfl
  | cons c calls ih =>
    rw [fedBy, List.flatMap_cons, scan_append, ← foldl_scan]
    exact ih _

/-- After whole vectors the scanner has read what the console took, however it was written. -/
theorem scanned_accepted {calls : List Call} (h : ∀ c ∈ calls, c.Whole) (s : Scanner) :
    scanned s calls = s.scan (acceptedBy calls) := by
  have hfed : fedBy calls = acceptedBy calls :=
    (flatMap_eq_iff_of_prefixes fun c _ => c.spec.1).mpr fun c hc => c.spec.2.1.mpr (h c hc)
  rw [scanned_eq, hfed]

/-- **What the scanner is fed** over a run of calls is what the console took, and each return value
counts a front of what was asked for, exactly if no plain vector is written short. -/
theorem fed_accepted_iff (calls : List Call) :
    ((∀ c ∈ calls, c.Counts) ∧ fedBy calls = acceptedBy calls) ↔ ∀ c ∈ calls, c.Whole := by
  rw [fedBy, acceptedBy, flatMap_eq_iff_of_prefixes fun c _ => c.spec.1]
  constructor
  · rintro ⟨-, hfed⟩ c hc
    exact c.spec.2.1.mp (hfed c hc)
  · intro hwhole
    exact ⟨fun c _ => c.spec.2.2, fun c hc => c.spec.2.1.mpr (hwhole c hc)⟩

/-- A host that takes one byte at a time. -/
def slow : Host := ⟨false, false, fun n => .ok (min n 1), fun n r hr => by cases hr; exact min_le_left n 1⟩

/-- Two slices of which one byte is taken: both are fed, and the second again when the caller
sends it. -/
theorem short_vector_overfed :
    fedBy [.writev slow [[0x1b], [0x5b]], .write slow [0x5b]] = [0x1b, 0x5b, 0x5b] ∧
      acceptedBy [.writev slow [[0x1b], [0x5b]], .write slow [0x5b]] = [0x1b, 0x5b] := by
  decide

end ApeShim.Console
