import ApeShim.Epoll.Handles

/-!
Who owns the wake pipe. The invariant ties every recorded number to the open
file behind it; each operation keeps it as long as the program closes and
duplicates in an orderly way, and the property of the handle lists follows.
-/

namespace ApeShim.Epoll
open Keyed Trace

/-! ## The invariant -/

theorem update_some_cases {α β : Type} [DecidableEq α] {f : α → Option β} {i j : α} {a b : β}
    (h : Function.update f i (some a) j = some b) : (j = i ∧ b = a) ∨ (j ≠ i ∧ f j = some b) := by
  rw [Function.update_apply] at h
  split at h
  · exact Or.inl ⟨‹_›, (Option.some.inj h).symm⟩
  · exact Or.inr ⟨‹_›, h⟩

/-- Giving out a number that was not open changes no open one. -/
theorem update_of_open {files : Int → Option File} {fd x : Int} (v : Option File)
    (hclosed : files fd = none) (hx : files x ≠ none) : Function.update files fd v x = files x := by
  rw [Function.update_of_ne]
  rintro rfl
  exact hx hclosed

structure HandleInv (s : Handles) : Prop where
  nodup : ∀ i a, s.sets i = some a → a.handles.Nodup
  disjoint : ∀ i j a b, s.sets i = some a → s.sets j = some b → i ≠ j →
    ∀ fd ∈ a.handles, fd ∉ b.handles
  size : ∀ i a, s.sets i = some a → 1 ≤ a.handles.length ∧ a.handles.length ≤ maxHandles
  waker : ∀ i a, s.sets i = some a → s.files a.waker = some (.writer a.pipe)
  pipes : ∀ i j a b, s.sets i = some a → s.sets j = some b → i ≠ j → a.pipe ≠ b.pipe
  older : ∀ i a, s.sets i = some a → a.pipe < s.pipes
  olderFile : ∀ fd n, s.files fd = some (.reader n) → n < s.pipes
  owned : ∀ i a, s.sets i = some a → ∀ fd ∈ a.handles, ∀ f, s.files fd = some f →
    f = .reader a.pipe
  complete : ∀ i a fd, s.sets i = some a → s.files fd = some (.reader a.pipe) → fd ∈ a.handles
  first : ∀ i a, s.sets i = some a → ∀ fd ∈ a.handles, s.files fd ≠ none →
    ∃ h, a.handles.head? = some h ∧ s.files h ≠ none

theorem handleInv_init : HandleInv Handles.init := by
  constructor <;> simp [Handles.init]

theorem handleInv_closed {s : Handles} (hinv : HandleInv s) {fd : Int}
    (ho : Orderly s (.closed fd)) :
    HandleInv { s with files := Function.update s.files fd none } := by
  have hfile : ∀ x f, Function.update s.files fd none x = some f → x ≠ fd ∧ s.files x = some f := by
    intro x f hx
    rw [Function.update_apply] at hx
    split at hx
    · cases hx
    · exact ⟨‹_›, hx⟩
  refine { nodup := hinv.nodup, disjoint := hinv.disjoint, size := hinv.size, pipes := hinv.pipes
           older := hinv.older, waker := ?_, olderFile := ?_, owned := ?_, complete := ?_, first := ?_ }
  · intro i a ha
    have hne := (ho i a ha).1
    dsimp only
    rw [Function.update_of_ne hne]
    exact hinv.waker i a ha
  · exact fun x n hx => hinv.olderFile x n (hfile x _ hx).2
  · exact fun i a ha x hx f hf => hinv.owned i a ha x hx f (hfile x f hf).2
  · exact fun i a x ha hx => hinv.complete i a x ha (hfile x _ hx).2
  · intro i a ha x hx hopen
    obtain ⟨f, hup⟩ := Option.ne_none_iff_exists'.mp hopen
    obtain ⟨hne, hf⟩ := hfile x f hup
    obtain ⟨h, hh, hopen'⟩ := hinv.first i a ha x hx (by simp [hf])
    refine ⟨h, hh, ?_⟩
    dsimp only
    rw [Function.update_of_ne]
    · exact hopen'
    · rintro rfl
      have hclosed := (ho i a ha).2 hh x hx hne
      rw [hclosed] at hf
      cases hf

/-- A file that is no epoll read end lands on a number nobody has recorded. -/
theorem handleInv_opened {s : Handles} (hinv : HandleInv s) {fd : Int} {f : File}
    (hclosed : s.files fd = none) (hrec : setByHandle s.sets fd = none)
    (hf : ∀ n, f = .reader n → n < s.pipes ∧ ∀ i a, s.sets i = some a → a.pipe ≠ n) :
    HandleInv { s with files := Function.update s.files fd (some f) } := by
  have hout := setByHandle_none.mp hrec
  refine { nodup := hinv.nodup, disjoint := hinv.disjoint, size := hinv.size, pipes := hinv.pipes
           older := hinv.older, waker := ?_, olderFile := ?_, owned := ?_, complete := ?_, first := ?_ }
  · intro i a ha
    have hw := hinv.waker i a ha
    dsimp only
    rw [update_of_open _ hclosed (by simp [hw])]
    exact hw
  · intro x n hx
    dsimp only at hx
    rw [Function.update_apply] at hx
    split at hx
    · exact (hf n (Option.some.inj hx)).1
    · exact hinv.olderFile x n hx
  · intro i a ha x hx g hg
    dsimp only at hg
    rw [Function.update_of_ne] at hg
    · exact hinv.owned i a ha x hx g hg
    · rintro rfl
      exact hout i a ha hx
  · intro i a x ha hx
    dsimp only at hx
    rw [Function.update_apply] at hx
    split at hx
    · exact absurd rfl ((hf a.pipe (Option.some.inj hx)).2 i a ha)
    · exact hinv.complete i a x ha hx
  · intro i a ha x hx hopen
    dsimp only at hopen ⊢
    rw [Function.update_of_ne] at hopen
    · obtain ⟨h, hh, hopen'⟩ := hinv.first i a ha x hx hopen
      refine ⟨h, hh, ?_⟩
      rw [Function.update_apply]
      split
      · simp
      · exact hopen'
    · rintro rfl
      exact hout i a ha hx

/-- A set with an open first handle takes one more open descriptor of its pipe
into its list. -/
theorem handleInv_adopt {s : Handles} (hinv : HandleInv s) {i : Fin maxSets} {a : EpollSet}
    (ha : s.sets i = some a) {newfd h : Int} {l : List Int} (hclosed : s.files newfd = none)
    (hopen : s.files h ≠ none)
    (hl : ∀ x, x ∈ l ↔ x ∈ a.handles ∨ x = newfd) (hnodup : l.Nodup)
    (hlen : l.length ≤ maxHandles) (hhead : l.head? = some h)
    (hother : ∀ j b, s.sets j = some b → j ≠ i → newfd ∉ b.handles) :
    HandleInv ⟨Function.update s.sets i (some { a with handles := l }),
      Function.update s.files newfd (some (.reader a.pipe)), s.pipes⟩ := by
  have hfile : ∀ x f, Function.update s.files newfd (some (.reader a.pipe)) x = some f →
      (x = newfd ∧ f = .reader a.pipe) ∨ s.files x = some f :=
    fun x f hx => (update_some_cases hx).imp id And.right
  have hkeep : ∀ x, s.files x ≠ none →
      Function.update s.files newfd (some (.reader a.pipe)) x = s.files x :=
    fun x hx => update_of_open _ hclosed hx
  refine { nodup := ?_, disjoint := ?_, size := ?_, waker := ?_, pipes := ?_, older := ?_
           olderFile := ?_, owned := ?_, complete := ?_, first := ?_ }
  · intro j b hb
    rcases update_some_cases hb with ⟨rfl, rfl⟩ | ⟨-, hb⟩
    · exact hnodup
    · exact hinv.nodup j b hb
  · intro j k b c hj hk hjk fd hfd
    rcases update_some_cases hj with ⟨rfl, rfl⟩ | ⟨hne, hb⟩
    · rcases update_some_cases hk with ⟨rfl, rfl⟩ | ⟨hne, hc⟩
      · exact absurd rfl hjk
      · rcases (hl fd).mp hfd with hold | rfl
        · exact hinv.disjoint _ _ _ _ ha hc hjk fd hold
        · exact hother k c hc hne
    · rcases update_some_cases hk with ⟨rfl, rfl⟩ | ⟨-, hc⟩
      · intro hm
        rcases (hl fd).mp hm with hold | rfl
        · exact hinv.disjoint _ _ _ _ hb ha hne fd hfd hold
        · exact hother j b hb hne hfd
      · exact hinv.disjoint _ _ _ _ hb hc hjk fd hfd
  · intro j b hb
    rcases update_some_cases hb with ⟨rfl, rfl⟩ | ⟨-, hb⟩
    · refine ⟨List.length_pos_of_mem ((hl newfd).mpr (Or.inr rfl)), hlen⟩
    · exact hinv.size j b hb
  · intro j b hb
    have hw : s.files b.waker = some (.writer b.pipe) := by
      rcases update_some_cases hb with ⟨rfl, rfl⟩ | ⟨-, hb⟩
      · exact hinv.waker _ a ha
      · exact hinv.waker j b hb
    dsimp only
    rw [hkeep _ (by simp [hw]), hw]
  · intro j k b c hj hk hjk
    rcases update_some_cases hj with ⟨rfl, rfl⟩ | ⟨hne, hb⟩
    · rcases update_some_cases hk with ⟨rfl, rfl⟩ | ⟨-, hc⟩
      · exact absurd rfl hjk
      · exact hinv.pipes _ _ a _ ha hc hjk
    · rcases update_some_cases hk with ⟨rfl, rfl⟩ | ⟨-, hc⟩
      · exact hinv.pipes _ _ _ a hb ha hne
      · exact hinv.pipes _ _ _ _ hb hc hjk
  · intro j b hb
    rcases update_some_cases hb with ⟨rfl, rfl⟩ | ⟨-, hb⟩
    · exact hinv.older _ a ha
    · exact hinv.older j b hb
  · intro x n hx
    rcases hfile x _ hx with ⟨-, he⟩ | hx
    · cases he
      exact hinv.older i a ha
    · exact hinv.olderFile x n hx
  · intro j b hj x hx f hup
    rcases update_some_cases hj with ⟨rfl, rfl⟩ | ⟨hne, hb⟩
    · rcases hfile x f hup with ⟨-, rfl⟩ | hf
      · rfl
      · rcases (hl x).mp hx with hold | rfl
        · exact hinv.owned _ a ha x hold f hf
        · rw [hclosed] at hf; cases hf
    · rcases hfile x f hup with ⟨rfl, -⟩ | hf
      · exact absurd hx (hother j b hb hne)
      · exact hinv.owned j b hb x hx f hf
  · intro j b x hj hup
    rcases update_some_cases hj with ⟨rfl, rfl⟩ | ⟨hne, hb⟩
    · rcases hfile x _ hup with ⟨rfl, -⟩ | hx
      · exact (hl x).mpr (Or.inr rfl)
      · exact (hl x).mpr (Or.inl (hinv.complete _ a x ha hx))
    · rcases hfile x _ hup with ⟨-, he⟩ | hx
      · exact absurd (File.reader.inj he) (hinv.pipes _ _ _ a hb ha hne)
      · exact hinv.complete j b x hb hx
  · intro j b hj x hx hxo
    rcases update_some_cases hj with ⟨rfl, rfl⟩ | ⟨hne, hb⟩
    · refine ⟨h, hhead, ?_⟩
      dsimp only
      rw [hkeep h hopen]
      exact hopen
    · have hxn : x ≠ newfd := by
        rintro rfl
        exact hother j b hb hne hx
      dsimp only at hxo ⊢
      rw [Function.update_of_ne hxn] at hxo
      obtain ⟨h', hh', ho'⟩ := hinv.first j b hb x hx hxo
      exact ⟨h', hh', by rw [hkeep h' ho']; exact ho'⟩

theorem handleInv_dup {s : Handles} (hinv : HandleInv s) {oldfd newfd : Int} {f : File}
    (ho : Orderly s (.dup oldfd newfd)) (hold : s.files oldfd = some f)
    (hclosed : s.files newfd = none) :
    HandleInv ⟨noteDup s.sets oldfd newfd, Function.update s.files newfd (some f), s.pipes⟩ := by
  have hne : oldfd ≠ newfd := by
    rintro rfl
    rw [hold] at hclosed
    cases hclosed
  unfold noteDup
  rw [if_neg hne]
  cases hset : setByHandle s.sets oldfd with
  | none =>
    have hrec : setByHandle s.sets newfd = none := by
      rcases ho with h | h
      · rw [h, hset]
      · exact h.1
    refine handleInv_opened hinv hclosed hrec fun n hn => ?_
    subst hn
    refine ⟨hinv.olderFile oldfd n hold, fun i a ha hp => ?_⟩
    exact setByHandle_none.mp hset i a ha (hinv.complete i a oldfd ha (hp ▸ hold))
  | some i =>
    obtain ⟨a, ha, hmem⟩ := setByHandle_some hset
    have hf : f = .reader a.pipe := hinv.owned i a ha oldfd hmem f hold
    subst hf
    obtain ⟨h, hh, hopen⟩ := hinv.first i a ha oldfd hmem (by simp [hold])
    dsimp only
    rw [ha]
    dsimp only
    cases hnew : setByHandle s.sets newfd with
    | none =>
      have hout := setByHandle_none.mp hnew
      have hroom : a.handles.length < maxHandles := by
        rcases ho with h | h
        · rw [hnew, hset] at h; cases h
        · exact h.2 i hset a ha
      rw [if_pos ⟨rfl, hroom⟩]
      refine handleInv_adopt hinv ha hclosed hopen (fun x => by simp) ?_
        (by rw [List.length_append]; exact hroom) ?_
        fun j b hb _ => hout j b hb
      · exact List.nodup_append.mpr ⟨hinv.nodup i a ha, by simp, fun x hx y hy hxy => by
          rw [List.mem_singleton.mp hy] at hxy
          exact hout i a ha (hxy ▸ hx)⟩
      · rw [List.head?_append, hh]; rfl
    | some j =>
      have hij : j = i := by
        rcases ho with h | h
        · rw [hnew, hset] at h; exact Option.some.inj h
        · rw [hnew] at h; cases h.1
      subst hij
      obtain ⟨b, hb, hmem'⟩ := setByHandle_some hnew
      rw [ha] at hb
      cases hb
      rw [if_neg (by simp)]
      have hsame := handleInv_adopt hinv ha hclosed hopen
        (fun x => (or_iff_left_of_imp fun hx => hx ▸ hmem').symm) (hinv.nodup j a ha)
        (hinv.size j a ha).2 hh
        fun k b hb hk hm => hinv.disjoint k j b a hb ha hk newfd hm hmem'
      rwa [← ha, Function.update_eq_self] at hsame

/-! ## `epoll_create1` -/

/-- The sets after the sweep, with the retired wakers closed and the new pipe
not yet anyone's. -/
theorem handleInv_sweep {s : Handles} (hinv : HandleInv s) {p0 p1 : Int} {files : Int → Option File}
    (h0 : s.files p0 = none) (h1 : s.files p1 = none)
    (hfiles : ∀ x, x ≠ p0 → x ≠ p1 → files x = s.files x) :
    HandleInv ⟨(sweep files p0 p1 s.sets).1, closeAll s.files (sweep files p0 p1 s.sets).2,
      s.pipes⟩ := by
  have hfile : ∀ x f, closeAll s.files (sweep files p0 p1 s.sets).2 x = some f → s.files x = some f := by
    intro x f hx
    unfold closeAll at hx
    split at hx
    · cases hx
    · exact hx
  have hnew : ∀ x f, s.files x = some f → ¬ (x = p0 ∨ x = p1) := by
    rintro x f hx (rfl | rfl)
    · rw [h0] at hx; cases hx
    · rw [h1] at hx; cases hx
  -- what is closed is the waker of a set that goes
  have hclosed : ∀ x f, s.files x = some f → (∀ i a, s.sets i = some a →
      (sweep files p0 p1 s.sets).1 i = none → f ≠ .writer a.pipe) →
      closeAll s.files (sweep files p0 p1 s.sets).2 x = some f := by
    intro x f hx hf
    unfold closeAll
    rw [if_neg]
    · exact hx
    · intro hm
      obtain ⟨i, a, ha, hgone, rfl⟩ := sweep_closes hm
      rw [hinv.waker i a ha] at hx
      exact hf i a ha hgone (Option.some.inj hx).symm
  have hkept : ∀ i b, (sweep files p0 p1 s.sets).1 i = some b → ∃ a, s.sets i = some a ∧
      Trimmed (fun x => x = p0 ∨ x = p1) a b ∧ ∃ x ∈ b.handles, files x ≠ none :=
    fun i b hb => sweep_kept hinv.nodup hb
  refine { nodup := ?_, disjoint := ?_, size := ?_, waker := ?_, pipes := ?_, older := ?_
           olderFile := ?_, owned := ?_, complete := ?_, first := ?_ }
  · intro i b hb
    obtain ⟨a, -, ht, -⟩ := hkept i b hb
    exact ht.nodup
  · intro i j b c hb hc hij fd hfd hfd'
    obtain ⟨a, ha, hta, -⟩ := hkept i b hb
    obtain ⟨a', ha', hta', -⟩ := hkept j c hc
    exact hinv.disjoint i j a a' ha ha' hij fd ((hta.mem fd).mp hfd).1 ((hta'.mem fd).mp hfd').1
  · intro i b hb
    obtain ⟨a, ha, ht, x, hx, -⟩ := hkept i b hb
    exact ⟨List.length_pos_of_mem hx, ht.length_le.trans (hinv.size i a ha).2⟩
  · intro i b hb
    obtain ⟨a, ha, ht, -⟩ := hkept i b hb
    dsimp only
    rw [ht.waker, ht.pipe]
    refine hclosed _ _ (hinv.waker i a ha) fun j a' ha' hgone he => ?_
    refine hinv.pipes i j a a' ha ha' ?_ (File.writer.inj he)
    rintro rfl
    dsimp only at hb
    rw [hgone] at hb
    cases hb
  · intro i j b c hb hc hij
    obtain ⟨a, ha, hta, -⟩ := hkept i b hb
    obtain ⟨a', ha', hta', -⟩ := hkept j c hc
    rw [hta.pipe, hta'.pipe]
    exact hinv.pipes i j a a' ha ha' hij
  · intro i b hb
    obtain ⟨a, ha, ht, -⟩ := hkept i b hb
    rw [ht.pipe]
    exact hinv.older i a ha
  · exact fun x n hx => hinv.olderFile x n (hfile x _ hx)
  · intro i b hb x hx f hf
    obtain ⟨a, ha, ht, -⟩ := hkept i b hb
    rw [ht.pipe]
    exact hinv.owned i a ha x ((ht.mem x).mp hx).1 f (hfile x f hf)
  · intro i b x hb hx
    obtain ⟨a, ha, ht, -⟩ := hkept i b hb
    have hx' := hfile x _ hx
    rw [ht.pipe] at hx'
    exact (ht.mem x).mpr ⟨hinv.complete i a x ha hx', hnew x _ hx'⟩
  · intro i b hb x hx hopen
    obtain ⟨a, ha, ht, -⟩ := hkept i b hb
    obtain ⟨f, hf⟩ := Option.ne_none_iff_exists'.mp hopen
    obtain ⟨h, hh, hho⟩ := hinv.first i a ha x ((ht.mem x).mp hx).1 (by simp [hfile x f hf])
    obtain ⟨g, hg⟩ := Option.ne_none_iff_exists'.mp hho
    refine ⟨h, ht.head h hh (hnew h g hg), ?_⟩
    have hreader := hinv.owned i a ha h (List.mem_of_head? hh) g hg
    dsimp only
    rw [hclosed h g hg fun _ a' _ _ he => by rw [hreader] at he; cases he]
    simp

/-- A pipe on two closed, unrecorded numbers becomes a set of its own. -/
theorem handleInv_fresh {s : Handles} (hinv : HandleInv s) {i : Fin maxSets} (hi : s.sets i = none)
    {p0 p1 : Int} (hne : p0 ≠ p1) (h0 : s.files p0 = none) (h1 : s.files p1 = none)
    (hout : ∀ j a, s.sets j = some a → p0 ∉ a.handles ∧ p1 ∉ a.handles) :
    HandleInv ⟨Function.update s.sets i (some ⟨[p0], p1, s.pipes⟩),
      Function.update (Function.update s.files p0 (some (.reader s.pipes))) p1
        (some (.writer s.pipes)), s.pipes + 1⟩ := by
  have hfile : ∀ x f, Function.update (Function.update s.files p0 (some (.reader s.pipes))) p1
      (some (.writer s.pipes)) x = some f →
      (x = p1 ∧ f = .writer s.pipes) ∨ (x = p0 ∧ f = .reader s.pipes) ∨ s.files x = some f := by
    intro x f hx
    rcases update_some_cases hx with hnew | ⟨-, hx⟩
    · exact Or.inl hnew
    · exact Or.inr ((update_some_cases hx).imp id And.right)
  have hkeep : ∀ x, s.files x ≠ none → Function.update (Function.update s.files p0
      (some (.reader s.pipes))) p1 (some (.writer s.pipes)) x = s.files x := by
    intro x hx
    have hfirst := update_of_open (some (.reader s.pipes)) h0 hx
    have hclosed : Function.update s.files p0 (some (.reader s.pipes)) p1 = none := by
      rw [Function.update_of_ne (Ne.symm hne)]
      exact h1
    rw [update_of_open _ hclosed (by rw [hfirst]; exact hx), hfirst]
  refine { nodup := ?_, disjoint := ?_, size := ?_, waker := ?_, pipes := ?_, older := ?_
           olderFile := ?_, owned := ?_, complete := ?_, first := ?_ }
  · intro j b hj
    rcases update_some_cases hj with ⟨rfl, rfl⟩ | ⟨-, hb⟩
    · simp
    · exact hinv.nodup j b hb
  · intro j k b c hj hk hjk fd hfd
    rcases update_some_cases hj with ⟨rfl, rfl⟩ | ⟨-, hb⟩
    · rcases update_some_cases hk with ⟨rfl, rfl⟩ | ⟨-, hc⟩
      · exact absurd rfl hjk
      · rw [List.mem_singleton.mp hfd]
        exact (hout k c hc).1
    · rcases update_some_cases hk with ⟨rfl, rfl⟩ | ⟨-, hc⟩
      · intro hm
        rw [List.mem_singleton.mp hm] at hfd
        exact (hout j b hb).1 hfd
      · exact hinv.disjoint j k b c hb hc hjk fd hfd
  · intro j b hj
    rcases update_some_cases hj with ⟨rfl, rfl⟩ | ⟨-, hb⟩
    · exact ⟨le_refl _, by simp [maxHandles]⟩
    · exact hinv.size j b hb
  · intro j b hj
    rcases update_some_cases hj with ⟨rfl, rfl⟩ | ⟨-, hb⟩
    · simp
    · have hw := hinv.waker j b hb
      dsimp only
      rw [hkeep _ (by simp [hw]), hw]
  · intro j k b c hj hk hjk
    rcases update_some_cases hj with ⟨rfl, rfl⟩ | ⟨-, hb⟩
    · rcases update_some_cases hk with ⟨rfl, rfl⟩ | ⟨-, hc⟩
      · exact absurd rfl hjk
      · exact (ne_of_lt (hinv.older k c hc)).symm
    · rcases update_some_cases hk with ⟨rfl, rfl⟩ | ⟨-, hc⟩
      · exact ne_of_lt (hinv.older j b hb)
      · exact hinv.pipes j k b c hb hc hjk
  · intro j b hj
    rcases update_some_cases hj with ⟨rfl, rfl⟩ | ⟨-, hb⟩
    · exact Nat.lt_succ_self _
    · exact Nat.lt_succ_of_lt (hinv.older j b hb)
  · intro x n hx
    rcases hfile x _ hx with ⟨-, he⟩ | ⟨-, he⟩ | hx
    · cases he
    · cases he; exact Nat.lt_succ_self _
    · exact Nat.lt_succ_of_lt (hinv.olderFile x n hx)
  · intro j b hj x hx f hup
    rcases update_some_cases hj with ⟨rfl, rfl⟩ | ⟨-, hb⟩
    · rw [List.mem_singleton.mp hx] at hup
      rcases hfile p0 f hup with ⟨he, -⟩ | ⟨-, rfl⟩ | hf
      · exact absurd he hne
      · rfl
      · rw [h0] at hf; cases hf
    · rcases hfile x f hup with ⟨rfl, -⟩ | ⟨rfl, -⟩ | hf
      · exact absurd hx (hout j b hb).2
      · exact absurd hx (hout j b hb).1
      · exact hinv.owned j b hb x hx f hf
  · intro j b x hj hup
    rcases hfile x _ hup with ⟨-, he⟩ | ⟨rfl, he⟩ | hx
    · cases he
    · rcases update_some_cases hj with ⟨rfl, rfl⟩ | ⟨-, hb⟩
      · simp
      · exact absurd (File.reader.inj he) (ne_of_lt (hinv.older j b hb))
    · rcases update_some_cases hj with ⟨rfl, rfl⟩ | ⟨-, hb⟩
      · exact absurd (hinv.olderFile x _ hx) (lt_irrefl _)
      · exact hinv.complete j b x hb hx
  · intro j b hj x hx hopen
    rcases update_some_cases hj with ⟨rfl, rfl⟩ | ⟨-, hb⟩
    · refine ⟨p0, rfl, ?_⟩
      dsimp only
      rw [Function.update_of_ne hne, Function.update_self]
      simp
    · have hx' : s.files x ≠ none := by
        intro hn
        obtain ⟨f, hf⟩ := Option.ne_none_iff_exists'.mp hopen
        rcases hfile x f hf with ⟨rfl, -⟩ | ⟨rfl, -⟩ | hf
        · exact (hout j b hb).2 hx
        · exact (hout j b hb).1 hx
        · rw [hn] at hf; cases hf
      obtain ⟨h, hh, ho⟩ := hinv.first j b hb x hx hx'
      exact ⟨h, hh, by dsimp only; rw [hkeep h ho]; exact ho⟩

theorem handleInv_create1 {s : Handles} (hinv : HandleInv s) {p0 p1 : Int} (hne : p0 ≠ p1)
    (h0 : s.files p0 = none) (h1 : s.files p1 = none) : HandleInv (s.create1 p0 p1) := by
  have hswept := @handleInv_sweep s hinv p0 p1 (Function.update (Function.update s.files p0
    (some (.reader s.pipes))) p1 (some (.writer s.pipes))) h0 h1
    (fun x hx0 hx1 => by rw [Function.update_of_ne hx1, Function.update_of_ne hx0])
  have hkept := fun i b hb => @sweep_kept (Function.update (Function.update s.files p0
    (some (.reader s.pipes))) p1 (some (.writer s.pipes))) p0 p1 s.sets hinv.nodup i b hb
  have hcloses := fun w hw => @sweep_closes (Function.update (Function.update s.files p0
    (some (.reader s.pipes))) p1 (some (.writer s.pipes))) p0 p1 s.sets w hw
  unfold Handles.create1
  dsimp only
  generalize sweep _ p0 p1 s.sets = r at hswept hkept hcloses
  -- the wakers to close are open, so the new numbers are not among them
  have hp0 : p0 ∉ r.2 := by
    intro hm
    obtain ⟨i, a, ha, -, hw⟩ := hcloses p0 hm
    rw [← hw, hinv.waker i a ha] at h0
    cases h0
  have hp1 : p1 ∉ r.2 := by
    intro hm
    obtain ⟨i, a, ha, -, hw⟩ := hcloses p1 hm
    rw [← hw, hinv.waker i a ha] at h1
    cases h1
  split
  · -- EMFILE: the new pipe is closed again
    have hfiles : closeAll (Function.update (Function.update s.files p0 (some (.reader s.pipes))) p1
        (some (.writer s.pipes))) (r.2 ++ [p0, p1]) = closeAll s.files r.2 := by
      funext x
      simp only [closeAll, List.mem_append, List.mem_cons, List.not_mem_nil, or_false]
      by_cases hx0 : x = p0
      · simp [hx0, h0]
      · by_cases hx1 : x = p1
        · simp [hx1, h1]
        · simp [hx0, hx1]
    rw [hfiles]
    exact { nodup := hswept.nodup, disjoint := hswept.disjoint, size := hswept.size
            waker := hswept.waker, pipes := hswept.pipes
            older := fun i a ha => Nat.lt_succ_of_lt (hswept.older i a ha)
            olderFile := fun x n hx => Nat.lt_succ_of_lt (hswept.olderFile x n hx)
            owned := hswept.owned, complete := hswept.complete, first := hswept.first }
  · rename_i i hi
    have hfree : r.1 i = none := by simpa using List.find?_some hi
    have hfiles : closeAll (Function.update (Function.update s.files p0 (some (.reader s.pipes))) p1
        (some (.writer s.pipes))) r.2 = Function.update (Function.update (closeAll s.files r.2) p0
          (some (.reader s.pipes))) p1 (some (.writer s.pipes)) := by
      funext x
      simp only [closeAll, Function.update_apply]
      by_cases hx0 : x = p0
      · subst hx0; simp [hp0]
      · by_cases hx1 : x = p1
        · subst hx1; simp [hp1]
        · simp [hx0, hx1]
    rw [hfiles]
    refine handleInv_fresh hswept hfree hne (by simp [closeAll, h0]) (by simp [closeAll, h1]) ?_
    intro j b hb
    obtain ⟨a, -, ht, -⟩ := hkept j b hb
    exact ⟨fun hm => ((ht.mem p0).mp hm).2 (Or.inl rfl), fun hm => ((ht.mem p1).mp hm).2 (Or.inr rfl)⟩

theorem handleInv_step {s s' : Handles} {l : HandleLabel} {out : List Empty} (hinv : HandleInv s)
    (ho : Orderly s l) (h : s.step l = some (s', out)) : HandleInv s' := by
  cases l with
  | create1 p0 p1 =>
    simp only [Handles.step] at h
    split at h
    · rename_i hg
      cases h
      exact handleInv_create1 hinv hg.1 hg.2.1 hg.2.2
    · cases h
  | dup oldfd newfd =>
    simp only [Handles.step] at h
    split at h
    · rename_i hg
      cases h
      obtain ⟨f, hf⟩ := Option.isSome_iff_exists.mp hg.1
      rw [hf]
      exact handleInv_dup hinv ho hf hg.2
    · cases h
  | closed fd =>
    cases h
    exact handleInv_closed hinv ho
  | opened fd id =>
    simp only [Handles.step] at h
    split at h
    · cases h
      exact handleInv_opened hinv ‹_› ho fun n hn => by cases hn
    · cases h

/-! ## What follows -/

theorem noteDup_pipe {sets : SetTable} {oldfd newfd : Int} {i : Fin maxSets} {a : EpollSet}
    (ha : sets i = some a) : ∃ b, noteDup sets oldfd newfd i = some b ∧ b.pipe = a.pipe := by
  unfold noteDup
  by_cases heq : oldfd = newfd
  · exact ⟨a, by rw [if_pos heq]; exact ha, rfl⟩
  rw [if_neg heq]
  cases hj : setByHandle sets oldfd with
  | none => exact ⟨a, ha, rfl⟩
  | some j =>
    obtain ⟨c, hc, -⟩ := setByHandle_some hj
    dsimp only
    rw [hc]
    dsimp only
    split
    · by_cases hij : i = j
      · subst hij
        rw [hc] at ha
        cases ha
        exact ⟨_, Function.update_self .., rfl⟩
      · exact ⟨a, by rw [Function.update_of_ne hij]; exact ha, rfl⟩
    · exact ⟨a, ha, rfl⟩

/-- A set leaves the table only with every read end of its pipe closed. -/
theorem freed_closed {s s' : Handles} {l : HandleLabel} {out : List Empty} (hinv : HandleInv s)
    (h : s.step l = some (s', out)) {i : Fin maxSets} {a : EpollSet} (ha : s.sets i = some a)
    (hfreed : ∀ b, s'.sets i = some b → b.pipe ≠ a.pipe) (fd : Int) :
    s.files fd ≠ some (.reader a.pipe) := by
  cases l with
  | create1 p0 p1 =>
    simp only [Handles.step] at h
    split at h
    · rename_i hg
      cases h
      intro hfd
      have hmem := hinv.complete i a fd ha hfd
      have hp0 : fd ≠ p0 := by
        rintro rfl
        rw [hg.2.1] at hfd
        cases hfd
      have hp1 : fd ≠ p1 := by
        rintro rfl
        rw [hg.2.2] at hfd
        cases hfd
      cases hr : (sweep (Function.update (Function.update s.files p0 (some (.reader s.pipes))) p1
          (some (.writer s.pipes))) p0 p1 s.sets).1 i with
      | none =>
        have hclosed := sweep_freed hinv.nodup ha hr fd hmem hp0 hp1
        rw [Function.update_of_ne hp1, Function.update_of_ne hp0, hfd] at hclosed
        cases hclosed
      | some b =>
        obtain ⟨a', ha', ht, -⟩ := sweep_kept hinv.nodup hr
        rw [ha] at ha'
        cases ha'
        refine hfreed b ?_ ht.pipe
        unfold Handles.create1
        dsimp only
        split
        · exact hr
        · rename_i j hj
          have hfree := List.find?_some hj
          dsimp only
          rw [Function.update_of_ne]
          · exact hr
          · rintro rfl
            simp [hr] at hfree
    · cases h
  | dup oldfd newfd =>
    simp only [Handles.step] at h
    split at h
    · cases h
      obtain ⟨b, hb, hp⟩ := noteDup_pipe ha
      exact absurd hp (hfreed b hb)
    · cases h
  | closed fd' =>
    cases h
    exact absurd rfl (hfreed a ha)
  | opened fd' id =>
    simp only [Handles.step] at h
    split at h
    · cases h
      exact absurd rfl (hfreed a ha)
    · cases h

/-- **The wake pipe is the set's own** in every orderly run: the handle lists of
the sets in use are disjoint and hold 1 to 8 numbers, wakers differ, no set with
an open handle is freed, and what `epoll_wait` polls and drains is an open
descriptor of the set's pipe. -/
theorem handles_sound_in_orderly_runs {s : Handles} {log : List Empty}
    (h : handleMachine.Run Orderly s log) : HandlesSound s := by
  have hinv : HandleInv s := by
    refine h.invariant (P := fun s _ => HandleInv s) handleInv_init ?_
    intro s _ l s' out hinv ho hs
    exact handleInv_step hinv ho hs
  refine ⟨hinv.disjoint, hinv.size, ?_, ?_, ?_⟩
  · intro i j a b ha hb hij hw
    have hwa := hinv.waker i a ha
    rw [hw, hinv.waker j b hb] at hwa
    exact hinv.pipes i j a b ha hb hij (File.writer.inj (Option.some.inj hwa)).symm
  · intro l s' out hs i a ha hfreed
    exact freed_closed hinv hs ha hfreed
  · intro i a ha fd hfd hopen
    obtain ⟨h, hh, ho⟩ := hinv.first i a ha fd hfd hopen
    obtain ⟨f, hf⟩ := Option.ne_none_iff_exists'.mp ho
    exact ⟨h, hh, by rw [hf, hinv.owned i a ha h (List.mem_of_head? hh) f hf]⟩

/-- An epoll descriptor is duplicated, the duplicate closed, the set left for
dead and its number given to the next set. -/
theorem handles_sound_after_reuse :
    ∃ s log, handleMachine.Run Orderly s log ∧ HandlesSound s ∧
      s.sets ⟨0, by decide⟩ = some ⟨[3], 6, 1⟩ ∧ s.files 4 = none := by
  have hstart : handleMachine.Run Orderly Handles.init [] := .start
  obtain ⟨s, log, hrun, hp⟩ := hstart.extend (fun s l => decide (Orderly s l))
    (fun _ _ h => of_decide_eq_true h)
    [.create1 3 4, .dup 3 5, .closed 5, .closed 3, .create1 3 6]
    (fun s _ => decide (s.sets ⟨0, by decide⟩ = some ⟨[3], 6, 1⟩ ∧ s.files 4 = none)) (by decide)
  obtain ⟨hset, hclosed⟩ := of_decide_eq_true hp
  exact ⟨s, log, hrun, handles_sound_in_orderly_runs hrun, hset, hclosed⟩

/-- The original handle is closed while its duplicate lives on, and its number
goes to another file: `epoll_wait` on the duplicate polls and drains that file. -/
theorem wake_pipe_is_another_file :
    ∃ s log a, handleMachine.Run anyStep s log ∧ s.sets ⟨0, by decide⟩ = some a ∧
      5 ∈ a.handles ∧ s.files 5 = some (.reader a.pipe) ∧ a.handles.head? = some 3 ∧
      s.files 3 = some (.other 7) ∧ ¬ HandlesSound s := by
  have hstart : handleMachine.Run anyStep Handles.init [] := .start
  obtain ⟨s, log, hrun, hp⟩ := hstart.extend (fun _ _ => true) (fun _ _ _ => trivial)
    [.create1 3 4, .dup 3 5, .closed 3, .opened 3 7]
    (fun s _ => decide (s.sets ⟨0, by decide⟩ = some ⟨[3, 5], 4, 0⟩ ∧
      s.files 5 = some (.reader 0) ∧ s.files 3 = some (.other 7))) (by decide)
  obtain ⟨hset, hdup, hother⟩ := of_decide_eq_true hp
  refine ⟨s, log, _, hrun, hset, by simp, hdup, rfl, hother, fun hsound => ?_⟩
  obtain ⟨h, hh, hown⟩ := hsound.own _ _ hset 5 (by simp) (by simp [hdup])
  cases hh
  rw [hother] at hown
  cases hown

end ApeShim.Epoll
