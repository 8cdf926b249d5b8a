import ApeShim.Procfs.Virtual

/-!
Which paths `pc_gen_node` has content for: the parser's reading of a path, against the paths
of /proc with repeated slashes read as one.
-/

namespace ApeShim.Procfs

/-! ## Slashes -/

/-- Repeated slashes read as one. -/
def squeeze : Text → Text
  | [] => []
  | c :: s => if c = '/' ∧ s.head? = some '/' then squeeze s else c :: squeeze s

section Slashes

variable {u v w : Text}

theorem strip_slash (s : Text) : strip ('/' :: s) = strip s := by simp [strip]

theorem strip_of_head {s : Text} (h : s.head? ≠ some '/') : strip s = s := by
  cases s with
  | nil => rfl
  | cons c s =>
    have hc : c ≠ '/' := by simpa using h
    simp [strip, hc]

theorem head_strip (s : Text) : (strip s).head? ≠ some '/' := by
  intro h
  have hnot := List.head?_dropWhile_not (fun c : Char => decide (c = '/')) s
  rw [strip] at h
  rw [h] at hnot
  simp at hnot

theorem squeeze_slash (s : Text) : squeeze ('/' :: s) = '/' :: squeeze (strip s) := by
  induction s with
  | nil => rfl
  | cons c s ih =>
    by_cases hc : c = '/'
    · subst hc
      rw [squeeze, if_pos ⟨rfl, rfl⟩, ih, strip_slash]
    · rw [squeeze, if_neg fun h => hc (by simpa using h.2), strip_of_head (by simpa using hc)]

/-- What stands behind the first component, from its slash on. -/
def behind (u : Text) : Text := u.dropWhile (· ≠ '/')

theorem word_append_behind (u : Text) : word u ++ behind u = u := List.takeWhile_append_dropWhile

theorem noSlash_word (u : Text) : '/' ∉ word u := by
  intro h
  simpa using List.mem_takeWhile_imp h

theorem squeeze_eq_word (u : Text) : squeeze u = word u ++ squeeze (behind u) := by
  induction u with
  | nil => rfl
  | cons c u ih =>
    by_cases hc : c = '/'
    · subst hc
      rfl
    · rw [squeeze, if_neg fun h => hc h.1, ih]
      simp [word, behind, hc]

/-- Behind the first component there is nothing, or a slash. -/
theorem behind_shape (u : Text) :
    (behind u = [] ∧ after u = []) ∨ ∃ r, behind u = '/' :: r ∧ after u = strip r := by
  have hnot := List.head?_dropWhile_not (fun c : Char => decide (c ≠ '/')) u
  rw [after, ← behind]
  rw [← behind] at hnot
  cases hb : behind u with
  | nil => exact Or.inl ⟨rfl, rfl⟩
  | cons c r =>
    rw [hb] at hnot
    have hc : c = '/' := by simpa using hnot
    subst hc
    exact Or.inr ⟨r, rfl, strip_slash r⟩

theorem behind_cases (u : Text) :
    (behind u = [] ∧ after u = []) ∨ squeeze (behind u) = '/' :: squeeze (after u) := by
  rcases behind_shape u with h | ⟨r, hb, hafter⟩
  · exact Or.inl h
  · right
    rw [hb, hafter, squeeze_slash]

theorem word_of_noSlash (h : '/' ∉ w) : word w = w := by
  rw [word, List.takeWhile_eq_self_iff]
  intro c hc
  have hne : c ≠ '/' := by
    rintro rfl
    exact h hc
  simpa using hne

theorem behind_of_noSlash (h : '/' ∉ w) : behind w = [] := by
  have happend := word_append_behind w
  rw [word_of_noSlash h] at happend
  simpa using happend

theorem behind_join (h : '/' ∉ w) (v : Text) : behind (join w v) = '/' :: v := by
  have happend := word_append_behind (join w v)
  rw [word_join, word_of_noSlash h, join] at happend
  exact List.append_cancel_left happend

/-- A name is spelled in one way. -/
theorem squeeze_eq_name_iff (h : '/' ∉ w) : squeeze u = w ↔ u = w := by
  constructor
  · intro hu
    rw [squeeze_eq_word] at hu
    rcases behind_cases u with ⟨hb, -⟩ | hb
    · have happend := word_append_behind u
      rw [hb] at happend hu
      rw [← happend]
      exact hu
    · rw [hb] at hu
      exact absurd (by rw [← hu]; simp) h
  · rintro rfl
    rw [squeeze_eq_word, word_of_noSlash h, behind_of_noSlash h, squeeze, List.append_nil]

/-- A longer path is its first component and the rest. -/
theorem squeeze_eq_join_iff (h : '/' ∉ w) (hv : v ≠ []) :
    squeeze u = join w v ↔ word u = w ∧ squeeze (after u) = v := by
  rw [squeeze_eq_word]
  constructor
  · intro hu
    rcases behind_cases u with ⟨hb, -⟩ | hb
    · have hno := noSlash_word u
      rw [hb, squeeze, List.append_nil] at hu
      rw [hu] at hno
      exact absurd (by simp [join]) hno
    · rw [hb] at hu
      have hw := congrArg word hu
      have hr := congrArg behind hu
      rw [← join, word_join, word_join, word_of_noSlash (noSlash_word u), word_of_noSlash h] at hw
      rw [← join, behind_join (noSlash_word u), behind_join h] at hr
      exact ⟨hw, (List.cons.inj hr).2⟩
  · rintro ⟨rfl, rfl⟩
    rcases behind_cases u with ⟨-, hb⟩ | hb
    · rw [hb] at hv
      exact absurd rfl hv
    · rw [hb, join]

theorem squeeze_eq_pair_iff (hw : '/' ∉ w) (hv : v ≠ []) (hslash : '/' ∉ v) :
    squeeze u = join w v ↔ word u = w ∧ after u = v := by
  rw [squeeze_eq_join_iff hw hv, squeeze_eq_name_iff hslash]

theorem word_ne_nil (hhead : u.head? ≠ some '/') (hu : u ≠ []) : word u ≠ [] := by
  cases u with
  | nil => exact absurd rfl hu
  | cons c u =>
    have hc : c ≠ '/' := by simpa using hhead
    simp [word, hc]

end Slashes

/-! ## The paths of content -/

/-- A process that `pfs_self_pid` stands for. -/
def Host.named (h : Host) (q : UInt32) : UInt32 := if q = h.getpid then h.selfPid else q

/-- The process has this file now. -/
def Host.Has (h : Host) (slots : Slots) (t : Int) (pid : UInt32) (f : Text) : Prop :=
  (h.pcPidContent slots t pid f).2.isSome = true

/-- `self`, or the canonical spelling of a pid. -/
inductive Host.Names (h : Host) : Text → UInt32 → Prop
  | self : Names h "self".toList h.selfPid
  | pid (q : UInt32) : Names h (decimal q.toNat) (h.named q)

/-- The paths, below /proc, of the files there are. -/
inductive Host.Listed (h : Host) (slots : Slots) (t : Int) : Text → Prop
  | top {f : Text} (hf : f ∈ topFiles) : Listed h slots t ('/' :: f)
  | net {f : Text} (hf : f ∈ netFiles) : Listed h slots t ('/' :: join "net".toList f)
  | sys {f : Text} (hf : f ∈ sysFiles) : Listed h slots t ('/' :: join "sys".toList f)
  | file {P f : Text} {pid : UInt32} (hP : h.Names P pid) (hf : f ∈ pidVolatile ++ pidStable)
      (hhas : h.Has slots t pid f) : Listed h slots t ('/' :: join P f)
  | pidNet {P f : Text} {pid : UInt32} (hP : h.Names P pid) (hf : f ∈ netFiles)
      (halive : h.alive pid = true) : Listed h slots t ('/' :: join P (join "net".toList f))
  | task {P T f : Text} {pid : UInt32} (hP : h.Names P pid) (hT : T ≠ []) (hslash : '/' ∉ T)
      (hfits : (join T f).length < 200) (hf : f ∈ pidVolatile ++ pidStable)
      (hhas : h.Has slots t pid f) : Listed h slots t ('/' :: join P (join "task".toList (join T f)))

/-- `gen_vpath` of a path below /proc: the parser, and what is generated for its node. -/
def Host.generates (h : Host) (slots : Slots) (t : Int) (s : Text) : Bool :=
  (procSub ("/proc".toList ++ s)).any fun sub => (h.pcGenNode slots t (h.pcParse sub)).2.isSome

/-! ## How the parser reads them -/

/-- The number that a component stands for: what follows its digits is not looked at. -/
inductive Host.Reads (h : Host) (w : Text) : UInt32 → Prop
  | self (hw : w = "self".toList) : Reads h w h.selfPid
  | digits (hw : w.head?.any Char.isDigit = true) : Reads h w (h.named (strtoul (w.take 63)))

/-- What is generated behind a process. -/
def Host.AcceptsBelow (h : Host) (slots : Slots) (t : Int) (pid : UInt32) (a : Text) : Prop :=
  (after a = [] ∧ h.Has slots t pid (word a)) ∨
  (word a = "net".toList ∧ after a ∈ netFiles ∧ h.alive pid = true) ∨
  (word a = "task".toList ∧ ∃ f, lastOf ((after a).take 199) = some f ∧ h.Has slots t pid f)

/-- A thread and a file of it. -/
def Host.Thread (h : Host) (slots : Slots) (t : Int) (pid : UInt32) (a : Text) : Prop :=
  after a ∈ pidVolatile ++ pidStable ∧ h.Has slots t pid (after a) ∧
    (join (word a) (after a)).length < 200

/-- What is listed behind a process. -/
def Host.ListsBelow (h : Host) (slots : Slots) (t : Int) (pid : UInt32) (a : Text) : Prop :=
  (a ∈ pidVolatile ++ pidStable ∧ h.Has slots t pid a) ∨
  (word a = "net".toList ∧ after a ∈ netFiles ∧ h.alive pid = true) ∨
  (word a = "task".toList ∧ h.Thread slots t pid (after a))

/-- The paths that are read in another way than they are spelled, without the slashes before. -/
inductive Host.Stray (h : Host) (slots : Slots) (t : Int) (u : Text) : Prop
  /-- slashes behind a file of the root -/
  | top (hf : word u ∈ topFiles) (ha : after u = []) (hs : u ≠ word u)
  /-- anything behind a file of `net` -/
  | net (hw : word u = "net".toList) (hf : word (after u) ∈ netFiles) (hs : after u ≠ word (after u))
  /-- more than one slash inside the name of a sysctl -/
  | sys (hw : word u = "sys".toList) (hf : squeeze (after u) ∈ sysFiles) (hs : after u ∉ sysFiles)
  /-- a number that is no canonical one -/
  | number {pid : UInt32} (hr : h.Reads (word u) pid) (hP : ¬ h.Names (word u) pid)
      (ha : h.AcceptsBelow slots t pid (after u))
  /-- slashes behind a file of a process -/
  | file {pid : UInt32} (hP : h.Names (word u) pid) (hhas : h.Has slots t pid (word (after u)))
      (ha : after (after u) = []) (hs : after u ≠ word (after u))
  /-- more than one slash behind a thread -/
  | gap {pid : UInt32} (hP : h.Names (word u) pid) (hw : word (after u) = "task".toList)
      (ht : h.Thread slots t pid (after (after u)))
      (hs : after (after u) ≠ join (word (after (after u))) (after (after (after u))))
  /-- a file of a thread that the buffer's end cuts out of a longer text -/
  | cut {pid : UInt32} {f : Text} (hP : h.Names (word u) pid) (hw : word (after u) = "task".toList)
      (hlong : 199 < (after (after u)).length) (hf : lastOf ((after (after u)).take 199) = some f)
      (hhas : h.Has slots t pid f)

section Below

variable {h : Host} {slots : Slots} {t : Int} {pid : UInt32} {a f r : Text}

theorem pidFile_name : ∀ f ∈ pidVolatile ++ pidStable, f ≠ [] ∧ '/' ∉ f ∧ f.length < 63 := by decide

theorem netFile_name : ∀ f ∈ netFiles, f ≠ [] ∧ '/' ∉ f ∧ f.length < 63 := by decide

theorem topFile_name : ∀ f ∈ topFiles, f ≠ [] ∧ '/' ∉ f ∧ f.length < 63 := by decide

/-- A process has its listed files only. -/
theorem Host.Has.mem (hf : h.Has slots t pid f) : f ∈ pidVolatile ++ pidStable := by
  by_contra hnot
  rw [List.mem_append, not_or] at hnot
  have hvol : pidVolatile.idxOf? f = none := List.idxOf?_eq_none_iff.mpr hnot.1
  have hstable : pidStable.idxOf? f = none := List.idxOf?_eq_none_iff.mpr hnot.2
  rw [Host.Has, Host.pcPidContent, hvol, hstable] at hf
  cases hf

theorem lastOf_eq_some_iff : lastOf r = some f ↔ behind r = '/' :: f ∧ '/' ∉ f := by
  rw [lastOf, ← behind]
  rcases behind_shape r with ⟨hb, -⟩ | ⟨file, hb, -⟩
  · simp [hb]
  · rw [hb, List.cons.injEq, and_iff_right rfl]
    simp only
    split
    · rename_i hslash
      refine iff_of_false (by simp) ?_
      rintro ⟨rfl, hno⟩
      exact hno hslash
    · rename_i hslash
      rw [Option.some.injEq]
      constructor
      · rintro rfl
        exact ⟨rfl, hslash⟩
      · exact And.left

theorem take_eq_nil_iff_of_pos {n : Nat} (hn : 0 < n) : a.take n = [] ↔ a = [] := by
  rw [List.take_eq_nil_iff]
  exact or_iff_right (by omega)

/-- The fields of a node behind a process cut nothing that is served, but for a thread's. -/
theorem gen_parsePid (w : Bool) : (h.pcGenNode slots t (parsePid w pid a)).2.isSome = true ↔
    h.AcceptsBelow slots t pid a := by
  have hempty : ¬ h.Has slots t pid [] := fun hf => (pidFile_name _ hf.mem).1 rfl
  have hnet : ∀ y ∈ netFiles, y.length < 199 := fun y hy => (netFile_name y hy).2.2.trans (by decide)
  rw [parsePid]
  by_cases ha : a = []
  · subst ha
    rw [if_pos rfl]
    refine iff_of_false Bool.false_ne_true ?_
    rintro (⟨-, hf⟩ | ⟨hw, -⟩ | ⟨hw, -⟩)
    · exact hempty hf
    · cases hw
    · cases hw
  · rw [if_neg ha]
    simp only [Host.pcGenNode, comp]
    by_cases hrest : after a = []
    · have hcut : h.Has slots t pid ((word a).take 63) ↔ h.Has slots t pid (word a) := by
        constructor
        · intro hf
          rwa [(take_eq_iff (pidFile_name _ hf.mem).2.2).mp rfl]
        · intro hf
          rwa [List.take_of_length_le (pidFile_name _ hf.mem).2.2.le]
      rw [hrest, List.take_nil, if_pos rfl]
      rw [Host.AcceptsBelow, hrest]
      refine hcut.trans ⟨fun hf => Or.inl ⟨rfl, hf⟩, ?_⟩
      rintro (⟨-, hf⟩ | ⟨-, hf, -⟩ | ⟨-, f, hf, -⟩)
      · exact hf
      · exact absurd rfl (netFile_name _ hf).1
      · cases hf
    · rw [if_neg ((take_eq_nil_iff_of_pos (by decide)).not.mpr hrest), Host.AcceptsBelow]
      by_cases htask : word a = "task".toList
      · have hnetword : word a ≠ "net".toList := by rw [htask]; decide
        rw [if_pos ((take_eq_iff (by decide)).mpr htask)]
        cases hl : lastOf ((after a).take 199) with
        | none =>
          refine iff_of_false Bool.false_ne_true ?_
          rintro (⟨hnil, -⟩ | ⟨hw, -⟩ | ⟨-, f, hf, -⟩)
          · exact hrest hnil
          · exact hnetword hw
          · cases hf
        | some f =>
          refine ⟨fun hf => Or.inr (Or.inr ⟨htask, f, rfl, hf⟩), ?_⟩
          rintro (⟨hnil, -⟩ | ⟨hw, -⟩ | ⟨-, f', hf, hhas⟩)
          · exact absurd hnil hrest
          · exact absurd hw hnetword
          · cases hf
            exact hhas
      · rw [if_neg (mt (take_eq_iff (by decide)).mp htask)]
        by_cases hnetword : word a = "net".toList
        · rw [if_pos ((take_eq_iff (by decide)).mpr hnetword)]
          have hgen : (if '/' ∉ (after a).take 199 ∧ h.alive pid = true then
              h.genNetFile ((after a).take 199) else none).isSome = true ↔
                after a ∈ netFiles ∧ h.alive pid = true := by
            rw [← take_mem_iff hnet]
            split
            · rename_i hopen
              rw [genNetFile_isSome_iff, and_iff_left hopen.2]
            · rename_i hshut
              refine iff_of_false Bool.false_ne_true ?_
              rintro ⟨hf, halive⟩
              exact hshut ⟨(netFile_name _ hf).2.1, halive⟩
          refine hgen.trans ⟨fun hf => Or.inr (Or.inl ⟨hnetword, hf⟩), ?_⟩
          rintro (⟨hnil, -⟩ | ⟨-, hf⟩ | ⟨hw, -⟩)
          · exact absurd hnil hrest
          · exact hf
          · exact absurd hw htask
        · rw [if_neg (mt (take_eq_iff (by decide)).mp hnetword)]
          refine iff_of_false Bool.false_ne_true ?_
          rintro (⟨hnil, -⟩ | ⟨hw, -⟩ | ⟨hw, -⟩)
          · exact hrest hnil
          · exact hnetword hw
          · exact htask hw

/-- What is listed behind a process is what is served, but for the strays. -/
theorem thread_iff : ((∃ f, lastOf (a.take 199) = some f ∧ h.Has slots t pid f) ↔
      h.Thread slots t pid a) ↔
    ¬ ((h.Thread slots t pid a ∧ a ≠ join (word a) (after a)) ∨
      (199 < a.length ∧ ∃ f, lastOf (a.take 199) = some f ∧ h.Has slots t pid f)) := by
  have hsplit := word_append_behind a
  by_cases hlong : 199 < a.length
  · have hnot : ¬ ((∃ f, lastOf (a.take 199) = some f ∧ h.Has slots t pid f) ∧ h.Thread slots t pid a) := by
      rintro ⟨⟨f, hf, -⟩, hmem, -, hfits⟩
      -- two slashes at least stand behind the thread, inside the buffer
      obtain ⟨hne, hslash, -⟩ := pidFile_name _ hmem
      have hpos := List.length_pos_iff.mpr hne
      have hlen := congrArg List.length hsplit
      rw [join, List.length_append, List.length_cons] at hfits
      rw [List.length_append] at hlen
      obtain ⟨r, hr⟩ : ∃ r, behind a = '/' :: '/' :: r := by
        rcases behind_shape a with ⟨-, hnil⟩ | ⟨r, hb, hr⟩
        · exact absurd hnil hne
        · rcases r with _ | ⟨c, r⟩
          · exact absurd hr hne
          · by_cases hc : c = '/'
            · exact ⟨r, by rw [hb, hc]⟩
            · rw [strip_of_head (by simpa using hc)] at hr
              rw [hb, List.length_cons, ← hr] at hlen
              omega
      have hcut : a.take 199 = word a ++ '/' :: '/' :: r.take (199 - (word a).length - 2) := by
        conv_lhs => rw [← hsplit, hr, List.take_append, List.take_of_length_le (by omega)]
        rw [show 199 - (word a).length = 199 - (word a).length - 2 + 1 + 1 by omega,
          List.take_succ_cons, List.take_succ_cons]
        rfl
      rw [hcut, lastOf_eq_some_iff, ← join, behind_join (noSlash_word a), List.cons.injEq] at hf
      exact hf.2 (by rw [← hf.1.2]; exact List.mem_cons_self)
    have hdiff : h.Thread slots t pid a → a ≠ join (word a) (after a) := by
      rintro ⟨-, -, hfits⟩ heq
      rw [← heq] at hfits
      omega
    simp only [hlong, true_and]
    generalize (∃ f, lastOf (a.take 199) = some f ∧ h.Has slots t pid f) = A at hnot ⊢
    tauto
  · have htake : a.take 199 = a := List.take_of_length_le (by omega)
    have hspelled : (∃ f, lastOf (a.take 199) = some f ∧ h.Has slots t pid f) ↔
        h.Thread slots t pid a ∧ a = join (word a) (after a) := by
      simp only [htake, lastOf_eq_some_iff]
      constructor
      · rintro ⟨f, ⟨hb, hslash⟩, hhas⟩
        have hafter : after a = f := by
          rw [after]
          rw [behind] at hb
          rw [hb, strip_slash]
          exact strip_of_head fun hhead => hslash (List.mem_of_mem_head? hhead)
        have heq : a = join (word a) (after a) := by
          rw [hafter, join, ← hb]
          exact hsplit.symm
        refine ⟨⟨hafter ▸ hhas.mem, hafter ▸ hhas, ?_⟩, heq⟩
        rw [← heq]
        omega
      · rintro ⟨⟨hmem, hhas, -⟩, heq⟩
        refine ⟨after a, ⟨?_, (pidFile_name _ hmem).2.1⟩, hhas⟩
        have hb := behind_join (noSlash_word a) (after a)
        rwa [← heq] at hb
    simp only [hlong, false_and, or_false, hspelled]
    tauto

theorem below_iff : (h.AcceptsBelow slots t pid a ↔ h.ListsBelow slots t pid a) ↔
    ¬ ((h.Has slots t pid (word a) ∧ after a = [] ∧ a ≠ word a) ∨
      (word a = "task".toList ∧
        ((h.Thread slots t pid (after a) ∧ after a ≠ join (word (after a)) (after (after a))) ∨
          (199 < (after a).length ∧
            ∃ f, lastOf ((after a).take 199) = some f ∧ h.Has slots t pid f)))) := by
  have hname : a ∈ pidVolatile ++ pidStable → word a = a ∧ after a = [] := by
    intro hf
    obtain ⟨-, hslash, -⟩ := pidFile_name _ hf
    refine ⟨word_of_noSlash hslash, ?_⟩
    rw [after, ← behind, behind_of_noSlash hslash]
    rfl
  by_cases hrest : after a = []
  · have hthread : ¬ h.Thread slots t pid [] := fun ht => (pidFile_name _ ht.1).1 rfl
    have hnet : [] ∉ netFiles := fun hf => (netFile_name _ hf).1 rfl
    have hlast : ∀ f, lastOf [] ≠ some f := fun f hf => by cases hf
    simp only [Host.AcceptsBelow, Host.ListsBelow, hrest, true_and, hnet, hthread, hlast, List.take_nil,
      false_and, and_false, exists_false, or_false, List.length_nil, Nat.not_lt_zero]
    by_cases hspelled : a = word a
    · rw [← hspelled]
      simp only [ne_eq, not_true_eq_false, and_false, not_false_eq_true, iff_true]
      exact ⟨fun hf => ⟨hf.mem, hf⟩, And.right⟩
    · have hnot : a ∉ pidVolatile ++ pidStable := fun hf => hspelled (hname hf).1.symm
      simp only [hnot, false_and, iff_false, ne_eq, hspelled, not_false_eq_true, and_true]
  · have hnot : a ∉ pidVolatile ++ pidStable := fun hf => hrest (hname hf).2
    simp only [Host.AcceptsBelow, Host.ListsBelow, hrest, hnot, false_and, and_false, false_or]
    by_cases htask : word a = "task".toList
    · have hnet : word a ≠ "net".toList := by rw [htask]; decide
      simp only [hnet, false_and, false_or]
      simp only [htask, true_and]
      exact thread_iff
    · simp only [htask, false_and, or_false, not_false_eq_true]

end Below

/-! ## The first component -/

section First

variable {h : Host} {slots : Slots} {t : Int} {pid pid' : UInt32} {w s u : Text}

theorem Host.Names.reads (hP : h.Names w pid) : h.Reads w pid := by
  cases hP with
  | self => exact .self rfl
  | pid q =>
    have hr := Host.Reads.digits (h := h) (decimal_head q.toNat)
    rwa [strtoul_decimal] at hr

/-- Digits name a process only if they are how the number they are read as is spelled. -/
theorem Host.Names.spelled (hP : h.Names w pid) (hd : w.head?.any Char.isDigit = true) :
    decimal (strtoul (w.take 63)).toNat = w := by
  cases hP with
  | self => cases hd
  | pid q => rw [strtoul_decimal]

theorem noSlash_decimal (n : Nat) : '/' ∉ decimal n := fun hc =>
  absurd (Nat.isDigit_of_mem_toDigits (by decide) (by decide) hc) (by decide)

theorem Host.Names.noSlash (hP : h.Names w pid) : '/' ∉ w := by
  cases hP with
  | self => decide
  | pid q => exact noSlash_decimal _

/-- A component stands for one number. -/
theorem Host.Reads.unique (hr : h.Reads w pid) (hr' : h.Reads w pid') : pid = pid' := by
  have hself : ("self".toList).head?.any Char.isDigit = false := by decide
  cases hr with
  | self hw =>
    cases hr' with
    | self => rfl
    | digits hd =>
      rw [hw, hself] at hd
      cases hd
  | digits hd =>
    cases hr' with
    | self hw =>
      rw [hw, hself] at hd
      cases hd
    | digits => rfl

/-- What the first component can be. -/
inductive Host.First (h : Host) (w : Text) : Prop
  | reads {pid : UInt32} (hr : h.Reads w pid)
  | net (hw : w = "net".toList)
  | sys (hw : w = "sys".toList)
  | other (hd : ¬ w.head?.any Char.isDigit = true) (hself : w ≠ "self".toList)
      (hnet : w ≠ "net".toList) (hsys : w ≠ "sys".toList)

theorem first_cases (h : Host) (w : Text) : h.First w := by
  by_cases hself : w = "self".toList
  · exact .reads (.self hself)
  · by_cases hd : w.head?.any Char.isDigit = true
    · exact .reads (.digits hd)
    · by_cases hnet : w = "net".toList
      · exact .net hnet
      · by_cases hsys : w = "sys".toList
        · exact .sys hsys
        · exact .other hd hself hnet hsys

theorem not_reads (hd : ¬ w.head?.any Char.isDigit = true) (hself : w ≠ "self".toList) :
    ¬ h.Reads w pid := by
  intro hr
  cases hr with
  | self hw => exact hself hw
  | digits hw => exact hd hw

theorem topFile_first : ∀ f ∈ topFiles, f.head?.any Char.isDigit = false ∧ f ≠ "self".toList ∧
    f ≠ "net".toList ∧ f ≠ "sys".toList := by decide

/-- What stands for a process is neither a file nor a directory of the root. -/
theorem Host.Reads.ne (hr : h.Reads w pid) : w ∉ topFiles ∧ w ≠ "net".toList ∧ w ≠ "sys".toList := by
  cases hr with
  | self hw =>
    subst hw
    decide
  | digits hd =>
    refine ⟨fun hf => ?_, ?_, ?_⟩
    · rw [(topFile_first w hf).1] at hd
      cases hd
    · rintro rfl
      revert hd
      decide
    · rintro rfl
      revert hd
      decide

/-! ## What is generated -/

theorem parseRest_reads (hr : h.Reads w pid) (a : Text) :
    ∃ b, h.parseRest (w.take 63) a = parsePid b pid a := by
  cases hr with
  | self hw =>
    subst hw
    exact ⟨true, rfl⟩
  | digits hd =>
    have hself : w.take 63 ≠ "self".toList := by
      intro hw
      rw [take_eq_iff (by decide)] at hw
      subst hw
      revert hd
      decide
    rw [Host.parseRest, if_neg hself, head_take, if_pos hd, Host.named]
    split
    · exact ⟨true, rfl⟩
    · exact ⟨false, rfl⟩

theorem generates_slash (hs : s.head? = some '/') :
    h.generates slots t s = (h.pcGenNode slots t (h.pcParse s)).2.isSome := by
  have hsub : procSub ("/proc".toList ++ s) = some s := by
    rw [procSub, if_pos ⟨rfl, Or.inr hs⟩]
    rfl
  rw [Host.generates, hsub, Option.any_some]

theorem parse_word (hs : strip s ≠ []) :
    h.pcParse s = h.parseRest ((word (strip s)).take 63) (after (strip s)) := if_neg hs

theorem generates_reads (hs : s.head? = some '/') (hr : h.Reads (word (strip s)) pid) :
    h.generates slots t s = true ↔ h.AcceptsBelow slots t pid (after (strip s)) := by
  have hne : strip s ≠ [] := by
    intro hnil
    rw [hnil] at hr
    cases hr with
    | self hw => cases hw
    | digits hd => cases hd
  obtain ⟨b, hb⟩ := parseRest_reads hr (after (strip s))
  rw [generates_slash hs, parse_word hne, hb, gen_parsePid]

theorem generates_net (hs : s.head? = some '/') (hw : word (strip s) = "net".toList) :
    h.generates slots t s = true ↔ word (after (strip s)) ∈ netFiles := by
  have hne : strip s ≠ [] := by
    intro hnil
    rw [hnil] at hw
    cases hw
  have hshort : ∀ y ∈ netFiles, y.length < 64 - 1 := fun y hy => (netFile_name y hy).2.2
  rw [generates_slash hs, parse_word hne, hw]
  have hparse : h.parseRest ("net".toList.take 63) (after (strip s)) =
      if after (strip s) = [] then { kind := .netDir }
      else { kind := .netFile, name := comp 64 (after (strip s)) } := rfl
  rw [hparse]
  by_cases ha : after (strip s) = []
  · rw [if_pos ha, ha]
    exact iff_of_false Bool.false_ne_true fun hf => (netFile_name _ hf).1 rfl
  · rw [if_neg ha]
    simp only [Host.pcGenNode, comp]
    rw [genNetFile_isSome_iff, take_mem_iff hshort]

theorem generates_sys (hs : s.head? = some '/') (hw : word (strip s) = "sys".toList) :
    h.generates slots t s = true ↔ after (strip s) ∈ sysFiles := by
  have hne : strip s ≠ [] := by
    intro hnil
    rw [hnil] at hw
    cases hw
  have hshort : ∀ y ∈ sysFiles, y.length < 199 := by decide
  have hparse : h.parseRest ("sys".toList.take 63) (after (strip s)) =
      { kind := .sys, rest := (after (strip s)).take 199 } := rfl
  rw [generates_slash hs, parse_word hne, hw, hparse]
  simp only [Host.pcGenNode]
  rw [genSysFile_isSome_iff, take_mem_iff hshort]

theorem generates_other (hs : s.head? = some '/') (hd : ¬ (word (strip s)).head?.any Char.isDigit = true)
    (hself : word (strip s) ≠ "self".toList) (hnet : word (strip s) ≠ "net".toList)
    (hsys : word (strip s) ≠ "sys".toList) :
    h.generates slots t s = true ↔ word (strip s) ∈ topFiles ∧ after (strip s) = [] := by
  have hshort : ∀ y ∈ topFiles, y.length < 63 := fun y hy => (topFile_name y hy).2.2
  rw [generates_slash hs]
  by_cases hne : strip s = []
  · rw [Host.pcParse, if_pos hne, hne]
    exact iff_of_false Bool.false_ne_true fun hf => (topFile_name _ hf.1).1 rfl
  · rw [parse_word hne, Host.parseRest, if_neg (mt (take_eq_iff (by decide)).mp hself), head_take,
      if_neg hd, if_neg (mt (take_eq_iff (by decide)).mp hnet),
      if_neg (mt (take_eq_iff (by decide)).mp hsys)]
    by_cases ha : after (strip s) = []
    · simp only [if_pos ha, Host.pcGenNode]
      rw [genTopFile_isSome_iff, take_mem_iff hshort, and_iff_left ha]
    · simp only [if_neg ha, Host.pcGenNode]
      exact iff_of_false Bool.false_ne_true fun hf => ha hf.2

/-! ## What is listed -/

theorem squeeze_of_head (hs : s.head? = some '/') : squeeze s = '/' :: squeeze (strip s) := by
  cases s with
  | nil => cases hs
  | cons c s =>
    cases hs
    rw [squeeze_slash, strip_slash]

/-- The listed paths, taken apart as the parser does. -/
theorem listed_iff (hs : s.head? = some '/') : h.Listed slots t (squeeze s) ↔
    strip s ∈ topFiles ∨ (word (strip s) = "net".toList ∧ after (strip s) ∈ netFiles) ∨
      (word (strip s) = "sys".toList ∧ squeeze (after (strip s)) ∈ sysFiles) ∨
      ∃ pid, h.Names (word (strip s)) pid ∧ h.ListsBelow slots t pid (after (strip s)) := by
  have hnet : '/' ∉ "net".toList := by decide
  have hsys : '/' ∉ "sys".toList := by decide
  have htask : '/' ∉ "task".toList := by decide
  have hsysne : ∀ f ∈ sysFiles, f ≠ [] := by decide
  have hjoin : ∀ x y : Text, join x y ≠ [] := fun x y => by simp [join]
  rw [squeeze_of_head hs]
  generalize strip s = u
  constructor
  · generalize hx : squeeze u = x
    generalize hy : '/' :: x = y
    intro hl
    cases hl with
    | top hf =>
      obtain ⟨-, rfl⟩ := List.cons.inj hy
      rw [squeeze_eq_name_iff (topFile_name _ hf).2.1] at hx
      exact Or.inl (hx ▸ hf)
    | net hf =>
      obtain ⟨-, rfl⟩ := List.cons.inj hy
      rw [squeeze_eq_pair_iff hnet (netFile_name _ hf).1 (netFile_name _ hf).2.1] at hx
      exact Or.inr (Or.inl ⟨hx.1, hx.2 ▸ hf⟩)
    | sys hf =>
      obtain ⟨-, rfl⟩ := List.cons.inj hy
      rw [squeeze_eq_join_iff hsys (hsysne _ hf)] at hx
      exact Or.inr (Or.inr (Or.inl ⟨hx.1, hx.2 ▸ hf⟩))
    | file hP hf hhas =>
      obtain ⟨-, rfl⟩ := List.cons.inj hy
      rw [squeeze_eq_pair_iff hP.noSlash (pidFile_name _ hf).1 (pidFile_name _ hf).2.1] at hx
      obtain ⟨rfl, rfl⟩ := hx
      exact Or.inr (Or.inr (Or.inr ⟨_, hP, Or.inl ⟨hf, hhas⟩⟩))
    | pidNet hP hf halive =>
      obtain ⟨-, rfl⟩ := List.cons.inj hy
      rw [squeeze_eq_join_iff hP.noSlash (hjoin _ _),
        squeeze_eq_pair_iff hnet (netFile_name _ hf).1 (netFile_name _ hf).2.1] at hx
      obtain ⟨rfl, hw, rfl⟩ := hx
      exact Or.inr (Or.inr (Or.inr ⟨_, hP, Or.inr (Or.inl ⟨hw, hf, halive⟩)⟩))
    | task hP hT hslash hfits hf hhas =>
      obtain ⟨-, rfl⟩ := List.cons.inj hy
      rw [squeeze_eq_join_iff hP.noSlash (hjoin _ _), squeeze_eq_join_iff htask (hjoin _ _),
        squeeze_eq_pair_iff hslash (pidFile_name _ hf).1 (pidFile_name _ hf).2.1] at hx
      obtain ⟨rfl, hw, rfl, rfl⟩ := hx
      exact Or.inr (Or.inr (Or.inr ⟨_, hP, Or.inr (Or.inr ⟨hw, hf, hhas, hfits⟩)⟩))
  · rintro (hf | ⟨hw, hf⟩ | ⟨hw, hf⟩ | ⟨pid, hP, ⟨hf, hhas⟩ | ⟨hw, hf, halive⟩ | ⟨hw, hf, hhas, hfits⟩⟩)
    · rw [(squeeze_eq_name_iff (topFile_name _ hf).2.1).mpr rfl]
      exact .top hf
    · have hx : squeeze u = join "net".toList (after u) := by
        rw [squeeze_eq_pair_iff hnet (netFile_name _ hf).1 (netFile_name _ hf).2.1]
        exact ⟨hw, rfl⟩
      rw [hx]
      exact .net hf
    · have hx : squeeze u = join "sys".toList (squeeze (after u)) := by
        rw [squeeze_eq_join_iff hsys (hsysne _ hf)]
        exact ⟨hw, rfl⟩
      rw [hx]
      exact .sys hf
    · have hx : squeeze u = join (word u) (after u) := by
        rw [squeeze_eq_pair_iff hP.noSlash (pidFile_name _ hf).1 (pidFile_name _ hf).2.1]
        exact ⟨rfl, rfl⟩
      rw [hx]
      exact .file hP hf hhas
    · have hx : squeeze u = join (word u) (join "net".toList (after (after u))) := by
        rw [squeeze_eq_join_iff hP.noSlash (hjoin _ _),
          squeeze_eq_pair_iff hnet (netFile_name _ hf).1 (netFile_name _ hf).2.1]
        exact ⟨rfl, hw, rfl⟩
      rw [hx]
      exact .pidNet hP hf halive
    · have hne : word (after (after u)) ≠ [] := by
        refine word_ne_nil (head_strip _) fun hnil => ?_
        rw [hnil] at hf
        exact (pidFile_name _ hf).1 rfl
      have hx : squeeze u = join (word u) (join "task".toList
          (join (word (after (after u))) (after (after (after u))))) := by
        rw [squeeze_eq_join_iff hP.noSlash (hjoin _ _), squeeze_eq_join_iff htask (hjoin _ _),
          squeeze_eq_pair_iff (noSlash_word _) (pidFile_name _ hf).1 (pidFile_name _ hf).2.1]
        exact ⟨rfl, hw, rfl, rfl⟩
      rw [hx]
      exact .task hP hne (noSlash_word _) hfits hf hhas

/-! ## The two together -/

theorem top_name (hf : u ∈ topFiles) : word u = u ∧ after u = [] := by
  obtain ⟨-, hslash, -⟩ := topFile_name u hf
  refine ⟨word_of_noSlash hslash, ?_⟩
  rw [after, ← behind, behind_of_noSlash hslash]
  rfl

theorem not_top (h : word u ∉ topFiles) : u ∉ topFiles := by
  intro hf
  rw [(top_name hf).1] at h
  exact h hf

/-- Behind a process, by its canonical name or not. -/
theorem stray_reads (hr : h.Reads (word u) pid) : h.Stray slots t u ↔
    (¬ h.Names (word u) pid ∧ h.AcceptsBelow slots t pid (after u)) ∨
    (h.Names (word u) pid ∧ ¬ (h.AcceptsBelow slots t pid (after u) ↔
      h.ListsBelow slots t pid (after u))) := by
  obtain ⟨htop, hnet, hsys⟩ := hr.ne
  rw [below_iff, not_not]
  constructor
  · intro hstray
    cases hstray with
    | top hf => exact absurd hf htop
    | net hw => exact absurd hw hnet
    | sys hw => exact absurd hw hsys
    | number hr' hP ha =>
      obtain rfl := hr.unique hr'
      exact Or.inl ⟨hP, ha⟩
    | file hP hhas ha hs =>
      obtain rfl := hr.unique hP.reads
      exact Or.inr ⟨hP, Or.inl ⟨hhas, ha, hs⟩⟩
    | gap hP hw ht hs =>
      obtain rfl := hr.unique hP.reads
      exact Or.inr ⟨hP, Or.inr ⟨hw, Or.inl ⟨ht, hs⟩⟩⟩
    | cut hP hw hlong hf hhas =>
      obtain rfl := hr.unique hP.reads
      exact Or.inr ⟨hP, Or.inr ⟨hw, Or.inr ⟨hlong, _, hf, hhas⟩⟩⟩
  · rintro (⟨hP, ha⟩ | ⟨hP, ⟨hhas, ha, hs⟩ | ⟨hw, ⟨ht, hs⟩ | ⟨hlong, f, hf, hhas⟩⟩⟩)
    · exact .number hr hP ha
    · exact .file hP hhas ha hs
    · exact .gap hP hw ht hs
    · exact .cut hP hw hlong hf hhas

/-- Where the first component stands for no process, the strays are few. -/
theorem stray_other (hr : ∀ pid, ¬ h.Reads (word u) pid) : h.Stray slots t u ↔
    (word u ∈ topFiles ∧ after u = [] ∧ u ≠ word u) ∨
    (word u = "net".toList ∧ word (after u) ∈ netFiles ∧ after u ≠ word (after u)) ∨
    (word u = "sys".toList ∧ squeeze (after u) ∈ sysFiles ∧ after u ∉ sysFiles) := by
  constructor
  · intro hstray
    cases hstray with
    | top hf ha hs => exact Or.inl ⟨hf, ha, hs⟩
    | net hw hf hs => exact Or.inr (Or.inl ⟨hw, hf, hs⟩)
    | sys hw hf hs => exact Or.inr (Or.inr ⟨hw, hf, hs⟩)
    | number hr' => exact absurd hr' (hr _)
    | file hP => exact absurd hP.reads (hr _)
    | gap hP => exact absurd hP.reads (hr _)
    | cut hP => exact absurd hP.reads (hr _)
  · rintro (⟨hf, ha, hs⟩ | ⟨hw, hf, hs⟩ | ⟨hw, hf, hs⟩)
    · exact .top hf ha hs
    · exact .net hw hf hs
    · exact .sys hw hf hs

theorem listed_other (hs : s.head? = some '/') (hr : ∀ pid, ¬ h.Reads (word (strip s)) pid) :
    h.Listed slots t (squeeze s) ↔
      strip s ∈ topFiles ∨ (word (strip s) = "net".toList ∧ after (strip s) ∈ netFiles) ∨
        (word (strip s) = "sys".toList ∧ squeeze (after (strip s)) ∈ sysFiles) := by
  have hnone : ¬ ∃ pid, h.Names (word (strip s)) pid ∧ h.ListsBelow slots t pid (after (strip s)) := by
    rintro ⟨pid, hP, -⟩
    exact hr pid hP.reads
  rw [listed_iff hs, or_iff_left hnone]

theorem listed_reads (hs : s.head? = some '/') (hr : h.Reads (word (strip s)) pid) :
    h.Listed slots t (squeeze s) ↔
      h.Names (word (strip s)) pid ∧ h.ListsBelow slots t pid (after (strip s)) := by
  obtain ⟨htop, hnet, hsys⟩ := hr.ne
  rw [listed_iff hs, or_iff_right (not_top htop), or_iff_right fun hw => hnet hw.1,
    or_iff_right fun hw => hsys hw.1]
  constructor
  · rintro ⟨pid', hP, hl⟩
    obtain rfl := hr.unique hP.reads
    exact ⟨hP, hl⟩
  · exact fun hl => ⟨pid, hl⟩

theorem squeeze_sysFile : ∀ f ∈ sysFiles, squeeze f = f := by decide

/-- Where all that is listed is accepted, the rest of what is accepted is stray. -/
theorem iff_iff_not_rest {A B C : Prop} (hBA : B → A) (hC : A → (C ↔ ¬ B)) :
    (A ↔ B) ↔ ¬ (A ∧ C) := by
  constructor
  · rintro hiff ⟨ha, hc⟩
    exact (hC ha).mp hc (hiff.mp ha)
  · intro hnot
    refine ⟨fun ha => ?_, hBA⟩
    by_contra hb
    exact hnot ⟨ha, (hC ha).mpr hb⟩

theorem generates_listed_net (hs : s.head? = some '/') (hw : word (strip s) = "net".toList) :
    (h.generates slots t s = true ↔ h.Listed slots t (squeeze s)) ↔ ¬ h.Stray slots t (strip s) := by
  have hr : ∀ pid, ¬ h.Reads (word (strip s)) pid := fun pid hr => hr.ne.2.1 hw
  have hsys : word (strip s) ≠ "sys".toList := by rw [hw]; decide
  have htop : word (strip s) ∉ topFiles := by rw [hw]; decide
  have hlist : h.Listed slots t (squeeze s) ↔ after (strip s) ∈ netFiles := by
    rw [listed_other hs hr, or_iff_right (not_top htop), and_iff_right hw]
    exact or_iff_left fun hc => hsys hc.1
  have hstray : h.Stray slots t (strip s) ↔
      word (after (strip s)) ∈ netFiles ∧ after (strip s) ≠ word (after (strip s)) := by
    rw [stray_other hr, and_iff_right hw]
    exact (or_iff_right fun hc => htop hc.1).trans (or_iff_left fun hc => hsys hc.1)
  have hword : after (strip s) ∈ netFiles → word (after (strip s)) = after (strip s) :=
    fun hf => word_of_noSlash (netFile_name _ hf).2.1
  rw [generates_net hs hw, hlist, hstray]
  refine iff_iff_not_rest (fun hf => (hword hf).symm ▸ hf) fun hf => ?_
  exact ⟨fun hne hmem => hne (hword hmem).symm, fun hnot heq => hnot (heq.symm ▸ hf)⟩

theorem generates_listed_sys (hs : s.head? = some '/') (hw : word (strip s) = "sys".toList) :
    (h.generates slots t s = true ↔ h.Listed slots t (squeeze s)) ↔ ¬ h.Stray slots t (strip s) := by
  have hr : ∀ pid, ¬ h.Reads (word (strip s)) pid := fun pid hr => hr.ne.2.2 hw
  have hnet : word (strip s) ≠ "net".toList := by rw [hw]; decide
  have htop : word (strip s) ∉ topFiles := by rw [hw]; decide
  have hlist : h.Listed slots t (squeeze s) ↔ squeeze (after (strip s)) ∈ sysFiles := by
    rw [listed_other hs hr, or_iff_right (not_top htop), and_iff_right hw]
    exact or_iff_right fun hc => hnet hc.1
  have hstray : h.Stray slots t (strip s) ↔
      squeeze (after (strip s)) ∈ sysFiles ∧ after (strip s) ∉ sysFiles := by
    rw [stray_other hr, and_iff_right hw]
    exact (or_iff_right fun hc => htop hc.1).trans (or_iff_right fun hc => hnet hc.1)
  rw [generates_sys hs hw, hlist, hstray]
  -- here it is the listing that is wider
  rw [Iff.comm (a := after (strip s) ∈ sysFiles)]
  exact iff_iff_not_rest (fun hf => (squeeze_sysFile _ hf).symm ▸ hf) fun _ => Iff.rfl

/-- Below /proc, what is generated is what is listed, but for the strays. -/
theorem generates_listed_iff (hs : s.head? = some '/') :
    (h.generates slots t s = true ↔ h.Listed slots t (squeeze s)) ↔ ¬ h.Stray slots t (strip s) := by
  cases first_cases h (word (strip s)) with
  | reads hr =>
    rw [generates_reads hs hr, stray_reads hr, listed_reads hs hr]
    rename_i pid
    by_cases hP : h.Names (word (strip s)) pid
    · simp only [hP, not_true_eq_false, false_and, true_and, false_or, not_not]
    · simp only [hP, not_false_eq_true, true_and, false_and, or_false, iff_false]
  | net hw => exact generates_listed_net hs hw
  | sys hw => exact generates_listed_sys hs hw
  | other hd hself hnet hsys =>
    have hr : ∀ pid, ¬ h.Reads (word (strip s)) pid := fun pid => not_reads hd hself
    rw [generates_other hs hd hself hnet hsys, stray_other hr, listed_other hs hr,
      or_iff_left fun h => h.elim (fun h => hnet h.1) fun h => hsys h.1,
      or_iff_left fun h => h.elim (fun h => hnet h.1) fun h => hsys h.1, ← and_assoc]
    refine iff_iff_not_rest (fun hf => ?_) fun hf => ?_
    · obtain ⟨hw, ha⟩ := top_name hf
      rw [hw]
      exact ⟨hf, ha⟩
    · exact ⟨fun hne hmem => hne (top_name hmem).1.symm, fun hnot heq => hnot (heq.symm ▸ hf.1)⟩

/-- Nothing else is below /proc. -/
theorem generates_outside (hs : s.head? ≠ some '/') :
    h.generates slots t s = false ∧ ¬ h.Listed slots t (squeeze s) := by
  cases s with
  | nil =>
    refine ⟨rfl, ?_⟩
    intro hl
    cases hl
  | cons c s =>
    have hc : c ≠ '/' := by simpa using hs
    have hsub : procSub ("/proc".toList ++ c :: s) = none := by
      rw [procSub, if_neg]
      rintro ⟨-, hnil | hhead⟩
      · cases hnil
      · exact hs hhead
    refine ⟨by rw [Host.generates, hsub]; rfl, ?_⟩
    have hx : squeeze (c :: s) = c :: squeeze s := if_neg fun h => hc h.1
    rw [hx]
    generalize hy : c :: squeeze s = y
    intro hl
    cases hl <;> exact hc (List.cons.inj hy).1

end First

/-- **The grammar of /proc.** A path has content exactly if it is listed, slashes read as one, but
for the strays. -/
theorem proc_grammar_iff (h : Host) (slots : Slots) (t : Int) (s : Text) :
    (h.generates slots t s = true ↔ h.Listed slots t (squeeze s)) ↔
      ¬ (s.head? = some '/' ∧ h.Stray slots t (strip s)) := by
  by_cases hs : s.head? = some '/'
  · rw [generates_listed_iff hs, and_iff_right hs]
  · obtain ⟨hgen, hlist⟩ := @generates_outside h slots t s hs
    refine iff_of_true (iff_of_false ?_ hlist) fun hc => hs hc.1
    rw [hgen]
    exact Bool.false_ne_true

/-- More components, trailing characters and a number that wraps are read as something else. -/
theorem proc_grammar_lax :
    (plainHost.generates (fun _ => {}) 0 "/net/tcp/more".toList = true ∧
      ¬ plainHost.Listed (fun _ => {}) 0 (squeeze "/net/tcp/more".toList)) ∧
    (plainHost.generates (fun _ => {}) 0 "/7x/comm".toList = true ∧
      ¬ plainHost.Listed (fun _ => {}) 0 (squeeze "/7x/comm".toList)) ∧
    (plainHost.generates (fun _ => {}) 0 "/4294967303/comm".toList = true ∧
      ¬ plainHost.Listed (fun _ => {}) 0 (squeeze "/4294967303/comm".toList)) := by
  have hnet : ¬ plainHost.Listed (fun _ => {}) 0 (squeeze "/net/tcp/more".toList) := by
    rw [listed_other rfl fun pid hr => hr.ne.2.1 rfl]
    decide
  have hx : ¬ plainHost.Listed (fun _ => {}) 0 (squeeze "/7x/comm".toList) := by
    rw [listed_reads rfl (.digits rfl)]
    exact fun hl => absurd (hl.1.spelled rfl) (by decide)
  have hwrap : ¬ plainHost.Listed (fun _ => {}) 0 (squeeze "/4294967303/comm".toList) := by
    rw [listed_reads rfl (.digits rfl)]
    exact fun hl => absurd (hl.1.spelled rfl) (by decide)
  exact ⟨⟨by rfl, hnet⟩, ⟨by rfl, hx⟩, ⟨by rfl, hwrap⟩⟩

end ApeShim.Procfs
