import ApeShim.Nt.Shares

/-!
`realpath` against `__mkntpath2` on a share, `..` above the share included. One
walks server and share as names that `..` takes back; the other stays below the
server.
-/

namespace ApeShim.Nt
open Walk

/-! ## The original path -/

section Original

variable {env : Env} {server name rest : Str} {sep : UInt16}

/-- The state of a share path whose root is not found. -/
theorem run_share (hsep : isSlash sep = true) (hs : IsServer server) (hn : Proper name)
    (hr : Below rest) :
    Norm.run .start (shareRoot sep server name ++ rest) =
      Norm.above ⟨false, [server]⟩ [name] (net (moves rest)).1 (net (moves rest)).2 := by
  have hroot : Norm.IsRoot ⟨false, [server]⟩ := Or.inr ⟨server, Norm.solid_of_proper hs.proper, rfl⟩
  have habove := Norm.run_above hroot (S := [name])
    (by simpa using Norm.solid_of_proper hn) rest
  have hns : (⟨false, [name, server]⟩ : Norm) ≠ .start := by simp [Norm.start]
  have hnil : components rest = [] :: (components rest).tail := by
    cases rest with
    | nil => rfl
    | cons c rest => rw [components_sep (hr c rfl)]; rfl
  have hfirst : Norm.next .start server = ⟨false, [server]⟩ := by rw [Norm.next, if_pos rfl]
  have hsecond : Norm.next ⟨false, [server]⟩ name = ⟨false, [name, server]⟩ :=
    Norm.next_name (by simp [Norm.start]) hn.move
  rw [← habove, Norm.run, components_share hsep hs hn hr, List.foldl_cons, List.foldl_cons, hfirst,
    hsecond, Norm.run, hnil, List.foldl_cons]
  show _ = List.foldl Norm.next (Norm.next ⟨false, [name, server]⟩ []) _
  rw [Norm.next_stay hns rfl]
  rfl

theorem proper_net {p : Str} (hp : p ∈ (net (moves rest)).2) : Proper p := (mem_net hp).2

/-- At most up to the server, the names are those of a walk from the share. -/
theorem normntpath_low (hsep : isSlash sep = true) (hs : IsServer server) (hn : Proper name)
    (hr : Below rest) (hplain : Plain (shareRoot sep server name ++ rest))
    (hk : (net (moves rest)).1 ≤ 1) :
    normntpath (shareRoot sep server name ++ rest) =
      server ++ spell bslash (clamp [name] (moves rest)).reverse ++
        (if named ((components (name ++ rest)).getLastD []) then [] else [bslash]) := by
  have hcomp := components_share hsep hs hn hr
  have hlow : components (shareRoot sep server name ++ rest) = server :: components (name ++ rest) := by
    rw [hcomp, components_behind_name hn.noSlash hr]
  have hrun : Norm.run .start (shareRoot sep server name ++ rest) =
      ⟨false, (server :: (clamp [name] (moves rest)).reverse).reverse⟩ := by
    rw [run_share hsep hs hn hr, Norm.above, if_pos (show _ ≤ [name].length from hk), clamp_eq_net]
    simp
  have hsolid : ∀ t ∈ (server :: (clamp [name] (moves rest)).reverse).reverse, Norm.Solid t := by
    intro t ht
    rw [clamp_eq_net] at ht
    simp only [List.mem_reverse, List.mem_cons, List.mem_append] at ht
    rcases ht with rfl | ht | ht
    · exact Norm.solid_of_proper hs.proper
    · exact Norm.solid_of_proper (proper_net ht)
    · rw [List.mem_singleton.mp (List.mem_of_mem_drop ht)]
      exact Norm.solid_of_proper hn
  have hends : Norm.endsAt .start (shareRoot sep server name ++ rest) =
      !named ((components (name ++ rest)).getLastD []) := by
    have hne := components_ne_nil (name ++ rest)
    have hlast : (server :: components (name ++ rest)).getLastD [] =
        (components (name ++ rest)).getLastD [] := by
      rw [List.getLastD_eq_getLast?, List.getLastD_eq_getLast?, List.getLast?_cons_of_ne_nil hne]
    rw [Norm.endsAt_eq, hlow, hlast]
    · rw [hlow, List.dropLast_cons_of_ne_nil hne]
      exact Norm.foldl_ne_start (by simp)
    · rw [hrun]
      exact fun t ht => hsolid t (List.mem_of_mem_head? ht)
  rw [normntpath_text hplain.legible (head_of_components hcomp hs.proper) hrun, hends]
  cases named ((components (name ++ rest)).getLastD []) <;> rfl

/-- Further up there are dots in place of the server. -/
theorem normntpath_high (hsep : isSlash sep = true) (hs : IsServer server) (hn : Proper name)
    (hr : Below rest) (hplain : Plain (shareRoot sep server name ++ rest))
    (hk : 2 ≤ (net (moves rest)).1) :
    ∃ d ds, normntpath (shareRoot sep server name ++ rest) =
      dot :: (d ++ spell bslash (ds ++ (net (moves rest)).2.reverse) ++
        (if Norm.endsAt .start (shareRoot sep server name ++ rest) then [bslash] else [])) := by
  obtain ⟨d, ds, hd⟩ := Norm.dots_reverse ((net (moves rest)).1 - [name].length - 1)
  have hrun : Norm.run .start (shareRoot sep server name ++ rest) =
      ⟨false, ((dot :: d) :: (ds ++ (net (moves rest)).2.reverse)).reverse⟩ := by
    rw [run_share hsep hs hn hr, Norm.above, if_neg (by simp only [List.length_singleton]; omega)]
    rw [← List.cons_append, ← hd]
    simp
  refine ⟨d, ds, ?_⟩
  rw [normntpath_text hplain.legible (head_of_components (components_share hsep hs hn hr) hs.proper) hrun]
  rfl

end Original

/-! ## Texts up to a separator -/

/-- The same path up to a trailing separator. -/
def SameNt (a b : Str) : Prop := a = b ∨ a = b ++ [bslash] ∨ b = a ++ [bslash]

/-- A path on a drive, in either form. -/
def IsDrivePath (s : Str) : Prop :=
  ∃ c t, isAlpha c.toNat = true ∧ (s = c :: colon :: bslash :: t ∨ s = drivePre c ++ t)

section Same

variable {a b u v : Str}

theorem SameNt.length_le (h : SameNt a b) : a.length ≤ b.length + 1 := by
  rcases h with rfl | rfl | rfl
  · omega
  · simp
  · rw [List.length_append]
    omega

theorem SameNt.getElem? (h : SameNt a b) {i : Nat} (ha : i < a.length) (hb : i < b.length) :
    a[i]? = b[i]? := by
  rcases h with rfl | rfl | rfl
  · rfl
  · exact List.getElem?_append_left hb
  · exact (List.getElem?_append_left ha).symm

theorem length_downgrade (hu : u ≠ []) :
    (downgrade 244 (longMark ++ uncMark ++ u)).length =
      if u.length < 242 then u.length + 2 else u.length + 8 := by
  have hlen : (longMark ++ uncMark ++ u).length = 8 + u.length := by
    rw [List.length_append]
    rfl
  rw [downgrade_share 244 hu, hlen]
  by_cases h : u.length < 242
  · rw [if_pos (by omega), if_pos h]
    rfl
  · rw [if_neg (by omega), if_neg h, hlen]
    omega

/-- A longer name makes another path. -/
theorem not_sameNt_of_longer (hv : v ≠ []) (h : v.length + 2 ≤ u.length) :
    ¬ SameNt (downgrade 244 (longMark ++ uncMark ++ u)) (downgrade 244 (longMark ++ uncMark ++ v)) := by
  intro hsame
  have hu : u ≠ [] := by
    rintro rfl
    simp at h
  have := hsame.length_le
  rw [length_downgrade hu, length_downgrade hv] at this
  split at this <;> split at this <;> omega

/-- **Up to a separator** the two forms of a share path are told apart only where the
separator decides which form it is. -/
theorem sameNt_downgrade (hu : u ≠ []) (e : Bool) :
    SameNt (downgrade 244 (longMark ++ uncMark ++ u ++ (if e then [bslash] else [])))
        (downgrade 244 (longMark ++ uncMark ++ u)) ↔
      ¬ (e = true ∧ (longMark ++ uncMark ++ u).length = 249) := by
  have hlen : (longMark ++ uncMark ++ u).length = 8 + u.length := by
    rw [List.length_append]
    rfl
  cases e with
  | false =>
    rw [if_neg (by decide), List.append_nil]
    exact ⟨fun _ h => absurd h.1 (by decide), fun _ => Or.inl rfl⟩
  | true =>
    rw [if_pos rfl, List.append_assoc, hlen]
    have hlong : (longMark ++ uncMark ++ (u ++ [bslash])).length = 9 + u.length := by
      rw [← List.append_assoc, List.length_append, hlen, List.length_singleton]
      omega
    rw [downgrade_share 244 (by simp), downgrade_share 244 hu, hlong, hlen]
    rcases Nat.lt_trichotomy u.length 241 with h | h | h
    · rw [if_pos (by omega), if_pos (by omega)]
      exact ⟨fun _ hc => by omega, fun _ => Or.inr (Or.inl rfl)⟩
    · rw [if_neg (by omega), if_pos (by omega)]
      refine ⟨fun hsame => ?_, fun hc => absurd ⟨rfl, by omega⟩ hc⟩
      have := hsame.length_le
      simp only [List.length_cons, hlong] at this
      omega
    · rw [if_neg (by omega), if_neg (by omega)]
      refine ⟨fun _ hc => by omega, fun _ => Or.inr (Or.inl ?_)⟩
      exact (List.append_assoc _ _ _).symm

/-- A share path is no drive path. -/
theorem not_sameNt_drive {x : UInt16} (hx : x ≠ quest) (hb : IsDrivePath b) :
    ¬ SameNt (downgrade 244 (longMark ++ uncMark ++ x :: u)) b := by
  intro hsame
  have hne : x :: u ≠ [] := by simp
  rw [downgrade_share 244 hne] at hsame
  obtain ⟨c, t, hc, hb⟩ := hb
  have hcb := ne_of_alpha hc (d := bslash) (by decide)
  split at hsame
  · rcases hb with rfl | rfl
    · have := hsame.getElem? (i := 0) (by simp) (by simp)
      exact hcb (Option.some.inj this).symm
    · have := hsame.getElem? (i := 2) (by simp) (by simp [drivePre, longMark])
      exact hx (Option.some.inj this)
  · rcases hb with rfl | rfl
    · have := hsame.getElem? (i := 0) (by simp [longMark]) (by simp)
      exact hcb (Option.some.inj this).symm
    · have := hsame.getElem? (i := 5) (by simp [longMark, uncMark]) (by simp [drivePre, longMark])
      exact absurd (Option.some.inj this) (by decide)

end Same

/-! ## A path on the share of a listed server -/

/-- The server's shares are listed in a directory on some drive. -/
def Env.Listable (env : Env) (server : Str) : Prop :=
  ∃ dir out, env.serverDir server = some dir ∧ IsDrivePath out ∧
    ∀ again, env.finish again dir = .ok out

/-- The conversion of `//server/share/rest` ends with a separator. -/
def keepsSlash (server name rest : Str) : Bool :=
  let (k, R) := net (moves rest)
  if Short server name then
    rest.getLast?.any isSlash && !R.isEmpty &&
      (k = 0 || !decide (Short server (R.getLastD [])) || decide (1 < R.length))
  else !named ((components (name ++ rest)).getLastD [])

/-- A path `//server/share/rest` as `__mkntpath2` sees one: no absolute segment in it,
and units of which only the separators look like one, or else roots short enough to
be found. -/
structure OnShare (env : Env) (server name rest : Str) : Prop where
  isServer : IsServer server
  proper : Proper name
  below : Below rest
  unmarked : noMarks none (sharePath slash server name rest) = true
  listable : env.Listable server
  plain : (∀ p ∈ name :: components rest, Short server p) ∨
    Plain (sharePath slash server name rest)

/-- What of it is about the text. -/
structure Spelled (server name rest : Str) : Prop where
  isServer : IsServer server
  proper : Proper name
  below : Below rest
  unmarked : noMarks none (sharePath slash server name rest) = true
  plain : (∀ p ∈ name :: components rest, Short server p) ∨
    Plain (sharePath slash server name rest)

theorem OnShare.spelled {env : Env} {server name rest : Str} (h : OnShare env server name rest) :
    Spelled server name rest :=
  ⟨h.isServer, h.proper, h.below, h.unmarked, h.plain⟩

section Server

variable {server : Str}

theorem noMarks_server (hs : IsServer server) : noMarks none (slash :: slash :: server) = true := by
  have : noMarks (some slash) (server ++ []) = true :=
    noMarks_name hs.proper (by simp [Below]) (fun hne => absurd rfl hne) (fun _ _ => rfl) _
  rw [List.append_nil] at this
  rw [noMarks_double]
  exact this

theorem divert_server {env : Env} {dir : Str} (hs : IsServer server)
    (hdir : env.serverDir server = some dir) : env.divert (slash :: slash :: server) = dir := by
  have htake : server.takeWhile (fun c => !isSlash c) = server := by
    have : (server ++ []).takeWhile (fun c => !isSlash c) = server :=
      takeWhile_noSlash hs.proper.noSlash (by simp [Below])
    rwa [List.append_nil] at this
  have hq := hs.ne_quest
  have hd := hs.ne_dot
  cases hc : server with
  | nil => exact absurd hc hs.proper.ne_nil
  | cons c w =>
    rw [hc] at htake hdir hq hd
    have hno : isSlash c = false := hs.proper.noSlash c (by simp [hc])
    simp only [List.getD_cons_zero] at hq hd
    simp only [Env.divert, slashAt, List.drop_succ_cons, List.drop_zero, htake, hdir,
      List.getD_cons_zero, List.getD_cons_succ, isSlash_slash, hno, List.length_cons]
    simp [hq, hd]

end Server

section Spelled

variable {server name rest : Str}

theorem stack_low (hk : (net (moves rest)).1 ≤ 1) :
    clamp [name, server] (moves rest) = clamp [name] (moves rest) ++ [server] := by
  rw [clamp_eq_net, clamp_eq_net]
  rcases Nat.le_one_iff_eq_zero_or_eq_one.mp hk with hk | hk <;> simp [hk]

theorem dropLast_of_reverse {st : List Str} {n : Str} {ps : List Str} (hst : st.reverse = n :: ps)
    {P : Str → Prop} (h : ∀ p ∈ st.tail, P p) : ∀ p ∈ (n :: ps).dropLast, P p := by
  intro p hp
  rw [← hst, List.dropLast_reverse] at hp
  exact h p (List.mem_reverse.mp hp)

variable (h : Spelled server name rest)

include h

/-- Only the newest name left can look like a drive, and only at the end of the path. -/
theorem not_driveName_stack :
    ¬ IsDriveName server ∧ (∀ p ∈ (clamp [name, server] (moves rest)).tail, ¬ IsDriveName p) ∧
      (rest.getLast?.any isSlash = true →
        ∀ p ∈ clamp [name, server] (moves rest), ¬ IsDriveName p) := by
  have hfree : ∀ p ∈ (components (shareRoot slash server name ++ rest)).dropLast, ¬ IsDriveName p := by
    have hm := h.unmarked
    rw [sharePath, noMarks_double] at hm
    exact not_driveName (by decide) hm
  have hcomp := components_share isSlash_slash h.isServer h.proper h.below
  have hstack : clamp [name, server] (moves rest) =
      (net ((components (shareRoot slash server name ++ rest)).map move)).2 := by
    have : clamp [] ((components (shareRoot slash server name ++ rest)).map move) =
        clamp [name, server] (moves rest) := by
      rw [hcomp, List.map_cons, List.map_cons, h.isServer.proper.move, h.proper.move, clamp, clamp,
        clamp_below _ h.below]
    rw [← this, clamp_eq_net, List.drop_nil, List.append_nil]
  obtain ⟨front, l, hfront⟩ := (List.eq_nil_or_concat'
    (components (shareRoot slash server name ++ rest))).resolve_left (components_ne_nil _)
  rw [hfront, List.dropLast_concat] at hfree
  rw [hstack, hfront]
  refine ⟨hfree server ?_, fun p hp => hfree p (mem_net_front (Or.inl hp)), fun ht p hp => ?_⟩
  · rw [hcomp] at hfront
    cases front with
    | nil => simp at hfront
    | cons q front =>
      rw [List.cons_append] at hfront
      rw [(List.cons.inj hfront).1]
      exact List.mem_cons_self
  · refine hfree p (mem_net_front (Or.inr ⟨?_, hp⟩))
    obtain ⟨w, c, hw⟩ := (List.eq_nil_or_concat' rest).resolve_left (by
      rintro rfl
      simp at ht)
    have hc : isSlash c = true := by
      rw [hw] at ht
      simpa using ht
    rw [hw, ← List.append_assoc, components_trailing _ hc] at hfront
    have hl : [] = l := by simpa using congrArg List.getLast? hfront
    rw [← hl]
    exact fun q hq => by cases hq

theorem plain_names {sep : UInt16} (hsep : isSlash sep = true) {n : Str} {ps : List Str} {t : Bool}
    (hin : ∀ p ∈ n :: ps, p ∈ name :: components rest) :
    Short server n ∨ Plain (shareRoot sep server n ++ belowVol sep ps t) := by
  rcases h.plain with hshort | hplain
  · exact Or.inl (hshort n (hin n (by simp)))
  · refine Or.inr ?_
    have hname : ∀ p ∈ server :: n :: ps, Plain p := by
      intro p hp x hx
      apply hplain
      rcases List.mem_cons.mp hp with rfl | hp
      · simp [sharePath, shareRoot, hx]
      · rcases List.mem_cons.mp (hin p hp) with rfl | hp
        · simp [sharePath, shareRoot, hx]
        · have := mem_of_mem_components hp hx
          simp [sharePath, this]
    have happ : shareRoot sep server n ++ belowVol sep ps t = server ++ belowVol sep (n :: ps) t := by
      simp [shareRoot, belowVol, spell]
    rw [happ]
    exact plain_below hsep hname

/-- A path of names from this one, on the same server. -/
theorem convert_names (env : Env) (fuel : Nat) (roots : Roots) {sep : UInt16} (hsep : isSlash sep = true)
    {n : Str} {ps : List Str} {t : Bool}
    (hin : ∀ p ∈ n :: ps, p ∈ name :: components rest ∧ Proper p)
    (hd : ∀ p ∈ (n :: ps).dropLast, ¬ IsDriveName p)
    (ht : t = true → ∀ p ∈ n :: ps, ¬ IsDriveName p)
    (hlen : (server ++ belowVol sep (n :: ps) t).length < min 32767 env.pathMax - 9) :
    (env.mkntpath2From (fuel + 1) roots (slash :: slash :: (server ++ belowVol sep (n :: ps) t))).2 =
      .ok (downgrade 244 (converted server (n :: ps) ++
        (if t && (!decide (Short server n) || !ps.isEmpty) then [bslash] else []))) := by
  have happ : server ++ belowVol sep (n :: ps) t = shareRoot sep server n ++ belowVol sep ps t := by
    simp [shareRoot, belowVol, spell]
  rw [happ] at hlen ⊢
  exact mkntpath2From_names fuel roots hsep h.isServer (fun p hp => (hin p hp).2)
    (noMarks_sharePath hsep h.isServer (fun p hp => (hin p hp).2) (not_driveName_stack h).1 hd ht)
    (plain_names h hsep fun p hp => (hin p hp).1) hlen

/-- The names left below the server are from the path, and only the last can look
like a drive. -/
theorem names_low (hk : (net (moves rest)).1 ≤ 1) :
    (∀ p ∈ clamp [name] (moves rest), p ∈ name :: components rest ∧ Proper p) ∧
      (∀ p ∈ (clamp [name] (moves rest)).tail, ¬ IsDriveName p) ∧
      (rest.getLast?.any isSlash = true → ∀ p ∈ clamp [name] (moves rest), ¬ IsDriveName p) := by
  obtain ⟨-, htail, hall⟩ := not_driveName_stack h
  rw [stack_low hk] at htail hall
  refine ⟨fun p hp => ?_, fun p hp => htail p ?_, fun ht p hp => hall ht p (by simp [hp])⟩
  · rw [clamp_eq_net] at hp
    rcases List.mem_append.mp hp with hp | hp
    · exact ⟨List.mem_cons_of_mem _ (mem_net hp).1, (mem_net hp).2⟩
    · rw [List.mem_singleton.mp (List.mem_of_mem_drop hp)]
      exact ⟨List.mem_cons_self, h.proper⟩
  · cases hc : clamp [name] (moves rest) with
    | nil => simp [hc] at hp
    | cons q qs =>
      rw [hc] at hp
      exact List.mem_append_left _ hp

end Spelled

section OnShare

variable {env : Env} {server name rest : Str} (h : OnShare env server name rest)

include h

/-- The directory a server comes to. -/
theorem mkntpath2From_server :
    ∃ out, IsDrivePath out ∧ ∀ fuel roots,
      (env.mkntpath2From (fuel + 1) roots (slash :: slash :: server)).2 = .ok out := by
  obtain ⟨dir, out, hdir, hdrive, hfinish⟩ := h.listable
  refine ⟨out, hdrive, fun fuel roots => ?_⟩
  have h0 : slashAt (slash :: slash :: server) 0 = true := isSlash_slash
  have h1 : slashAt (slash :: slash :: server) 1 = true := isSlash_slash
  rw [env.mkntpath2From_double fuel roots h0 h1 (noMarks_server h.isServer),
    divert_server h.isServer hdir, hfinish]

variable {fuel : Nat} {roots : Roots} {nt : Str}
  (hconv : (env.mkntpath2From (fuel + 2) roots (sharePath slash server name rest)).2 = .ok nt)

include hconv

theorem length_of_converts :
    (shareRoot slash server name).length + rest.length < min 32767 env.pathMax - 9 := by
  by_cases hw : Short server name
  · rw [env.mkntpath2From_share (fuel + 1) roots isSlash_slash h.isServer h.proper h.below hw
      h.unmarked] at hconv
    split at hconv
    · cases hconv
    · omega
  · rw [env.mkntpath2From_share_long (fuel + 1) roots isSlash_slash h.isServer h.proper h.below hw
      h.unmarked] at hconv
    split at hconv
    · cases hconv
    · rename_i hlen
      rw [List.length_append] at hlen
      omega

/-- Inside the share. -/
theorem convert_inside (hw : Short server name) (hk : (net (moves rest)).1 = 0) :
    nt = downgrade 244 (converted server (name :: (net (moves rest)).2.reverse) ++
      (if rest.getLast?.any isSlash && !(net (moves rest)).2.isEmpty then [bslash] else [])) := by
  rw [env.mkntpath2From_share (fuel + 1) roots isSlash_slash h.isServer h.proper h.below hw
    h.unmarked] at hconv
  split at hconv
  · cases hconv
  · rw [normuncrest_net, hk, if_neg (by simp)] at hconv
    rw [← Except.ok.inj hconv]
    simp [sharePre, converted, belowVol, spell]

/-- Above a share that is found, what is left is converted on the server. -/
theorem convert_above (hwidth : width8 (sharePath slash server name rest) < env.pathMax)
    (hw : Short server name) (hk : 0 < (net (moves rest)).1) :
    ∃ roots', (env.mkntpath2From (fuel + 1) roots' (slash :: slash ::
      (server ++ belowVol bslash (net (moves rest)).2.reverse
        (rest.getLast?.any isSlash && !(net (moves rest)).2.isEmpty)))).2 = .ok nt := by
  rw [env.mkntpath2From_share (fuel + 1) roots isSlash_slash h.isServer h.proper h.below hw
    h.unmarked] at hconv
  split at hconv
  · cases hconv
  · obtain ⟨dir, out, hdir, -⟩ := h.listable
    have hbody : width8 (normuncrest rest).1 ≤ width8 rest :=
      weight_body_le (fun c hc => unitWidth_sep hc) h.below
    have hpath : width8 (sharePath slash server name rest) =
        2 + (width8 server + 1 + width8 name) + width8 rest := by
      have : unitWidth slash = 1 := by decide
      simp [sharePath, shareRoot, width8, this]
      omega
    have hfull : width8 (slash :: slash :: server ++ (normuncrest rest).1) =
        2 + width8 server + width8 (normuncrest rest).1 := by
      have : unitWidth slash = 1 := by decide
      simp [width8, this]
      omega
    have hclimbed : (normuncrest rest).2 = true := by
      rw [normuncrest_net]
      exact decide_eq_true hk
    rw [if_pos ⟨hclimbed, by omega, by omega, by rw [hdir]; rfl⟩, normuncrest_net] at hconv
    exact ⟨_, hconv⟩

/-- Where the root is not found, the path is normalized with it. -/
theorem convert_flat (hw : ¬ Short server name) :
    nt = downgrade 244 (longMark ++ uncMark ++ normntpath (shareRoot slash server name ++ rest)) := by
  rw [env.mkntpath2From_share_long (fuel + 1) roots isSlash_slash h.isServer h.proper h.below hw
    h.unmarked] at hconv
  split at hconv
  · cases hconv
  · exact (Except.ok.inj hconv).symm

/-- What `realpath` gives for a path at most up to the server, converted. -/
theorem convert_result (hk : (net (moves rest)).1 ≤ 1) (hne : clamp [name] (moves rest) ≠ [])
    (fuel' : Nat) (known : Roots) :
    (env.mkntpath2From (fuel' + 1) known (rpOut (clamp [name, server] (moves rest)))).2 =
      .ok (downgrade 244 (converted server (clamp [name] (moves rest)).reverse)) := by
  have hlen := length_of_converts h hconv
  obtain ⟨hin, htail, -⟩ := names_low h.spelled hk
  obtain ⟨n, ps, hst⟩ := List.exists_cons_of_ne_nil (List.reverse_ne_nil_iff.mpr hne)
  have hpath : rpOut (clamp [name, server] (moves rest)) =
      slash :: slash :: (server ++ belowVol slash (n :: ps) false) := by
    rw [stack_low hk, rpOut, if_neg (by simp), List.reverse_append, hst]
    simp [belowVol, spell]
  have hweight : (spell slash (n :: ps)).length ≤ 1 + name.length + rest.length := by
    have hR := weight_net_le (f := fun _ => 1) (fun _ _ => rfl) h.below slash isSlash_slash
    rw [weight_one, weight_one] at hR
    have hdrop : (spell slash ([name].drop (net (moves rest)).1).reverse).length ≤
        1 + name.length := by
      rcases Nat.le_one_iff_eq_zero_or_eq_one.mp hk with hk | hk
      · simp [hk, spell, Nat.add_comm 1]
      · simp [hk, spell]
    rw [← hst, clamp_eq_net, List.reverse_append, spell_append, List.length_append]
    omega
  have hroot : (shareRoot slash server name).length = server.length + 1 + name.length := by
    simp [shareRoot]
    omega
  have hconvert := convert_names h.spelled env fuel' known isSlash_slash (t := false)
    (fun p hp => hin p (List.mem_reverse.mp (hst ▸ hp))) (dropLast_of_reverse hst htail)
    (fun ht => by cases ht) (by
      simp only [belowVol, Bool.false_eq_true, if_false, List.append_nil, List.length_append]
      omega)
  rw [hpath, hconvert, hst]
  simp

/-- The path itself, at most up to the server, converted. -/
theorem convert_low (hwidth : width8 (sharePath slash server name rest) < env.pathMax)
    (hk : (net (moves rest)).1 ≤ 1) (hne : clamp [name] (moves rest) ≠ []) :
    nt = downgrade 244 (converted server (clamp [name] (moves rest)).reverse ++
      (if keepsSlash server name rest then [bslash] else [])) := by
  by_cases hw : Short server name
  · rcases Nat.le_one_iff_eq_zero_or_eq_one.mp hk with h0 | h1
    · rw [convert_inside h hconv hw h0, clamp_eq_net, keepsSlash]
      simp [hw, h0]
    · have hR : clamp [name] (moves rest) = (net (moves rest)).2 := by
        rw [clamp_eq_net, h1]
        simp
      obtain ⟨hin, htail, hall⟩ := names_low h.spelled hk
      rw [hR] at hin htail hall hne ⊢
      obtain ⟨n, ps, hst⟩ := List.exists_cons_of_ne_nil (List.reverse_ne_nil_iff.mpr hne)
      obtain ⟨roots', hagain⟩ := convert_above h hconv hwidth hw (by omega)
      have hlen := length_of_converts h hconv
      have hbody : (normuncrest rest).1.length ≤ rest.length := by
        have := weight_body_le (f := fun _ => 1) (fun _ _ => rfl) h.below
        rwa [weight_one, weight_one] at this
      have hlast : (net (moves rest)).2.getLast?.getD [] = n := by
        rw [← List.head?_reverse, hst]
        rfl
      have hmore : decide (1 < (net (moves rest)).2.length) = !ps.isEmpty := by
        have : (net (moves rest)).2.length = ps.length + 1 := by
          rw [← List.length_reverse, hst, List.length_cons]
        rw [this]
        cases ps <;> simp
      have hroot : (shareRoot slash server name).length = server.length + 1 + name.length := by
        simp [shareRoot]
        omega
      have hempty : (net (moves rest)).2.isEmpty = false := by
        cases hR' : (net (moves rest)).2 with
        | nil => exact absurd hR' hne
        | cons r R => rfl
      rw [normuncrest_net, hst] at hbody
      dsimp only at hbody
      rw [hst, convert_names h.spelled env fuel roots' isSlash_bslash
        (fun p hp => hin p (List.mem_reverse.mp (hst ▸ hp))) (dropLast_of_reverse hst htail)
        (fun ht p hp => hall (by simpa [hempty] using ht) p (List.mem_reverse.mp (hst ▸ hp)))
        (by rw [List.length_append]; omega)] at hagain
      rw [← Except.ok.inj hagain, hst, keepsSlash]
      simp [hw, h1, hlast, hmore, hempty]
  · have hplain : Plain (shareRoot slash server name ++ rest) := by
      rcases h.plain with hshort | hplain
      · exact absurd (hshort name (by simp)) hw
      · exact fun x hx => hplain x (by simp only [sharePath, List.mem_cons]; exact Or.inr (Or.inr hx))
    rw [convert_flat h hconv hw, normntpath_low isSlash_slash h.isServer h.proper h.below hplain hk,
      keepsSlash]
    cases named ((components (name ++ rest)).getLastD []) <;> simp [hw, converted]

/-- Further up, and back into a name like the server's: the result is longer than the
one of `realpath`. -/
theorem convert_high (hwidth : width8 (sharePath slash server name rest) < env.pathMax)
    (hk : 2 ≤ (net (moves rest)).1) {ps : List Str}
    (hst : (net (moves rest)).2.reverse = server :: ps) :
    ∃ x u, nt = downgrade 244 (longMark ++ uncMark ++ x :: u) ∧ x ≠ quest ∧
      (server ++ spell bslash ps).length + 2 ≤ (x :: u).length := by
  have hslash : (spell bslash (server :: ps)).length = 1 + server.length + (spell bslash ps).length := by
    rw [spell_cons, List.length_cons, List.length_append]
    omega
  by_cases hw : Short server name
  · obtain ⟨roots', hagain⟩ := convert_above h hconv hwidth hw (by omega)
    have hlen := length_of_converts h hconv
    have hbody : (normuncrest rest).1.length ≤ rest.length := by
      have := weight_body_le (f := fun _ => 1) (fun _ _ => rfl) h.below
      rwa [weight_one, weight_one] at this
    have hroot : (shareRoot slash server name).length = server.length + 1 + name.length := by
      simp [shareRoot]
      omega
    obtain ⟨-, htail, hall⟩ := not_driveName_stack h.spelled
    have hR : clamp [name, server] (moves rest) = (net (moves rest)).2 := by
      have : [name, server].drop (net (moves rest)).1 = [] := List.drop_eq_nil_of_le hk
      rw [clamp_eq_net, this, List.append_nil]
    rw [hR] at htail hall
    rw [normuncrest_net, hst] at hbody
    dsimp only at hbody
    have hmem : ∀ p ∈ server :: ps, p ∈ (net (moves rest)).2 := by
      intro p hp
      rw [← hst] at hp
      exact List.mem_reverse.mp hp
    rw [hst, convert_names h.spelled env fuel roots' isSlash_bslash
      (fun p hp => ⟨List.mem_cons_of_mem _ (mem_net (hmem p hp)).1, (mem_net (hmem p hp)).2⟩)
      (dropLast_of_reverse hst htail)
      (fun ht p hp => hall (Bool.and_eq_true_iff.mp ht).1 p (hmem p hp))
      (by rw [List.length_append]; omega)] at hagain
    cases hc : server with
    | nil => exact absurd hc h.isServer.proper.ne_nil
    | cons x u =>
      have hx : x ≠ quest := by
        have := h.isServer.ne_quest
        rw [hc] at this
        exact this
      rw [← Except.ok.inj hagain, hc]
      refine ⟨x, _, by rw [converted, List.append_assoc, List.cons_append, List.cons_append], hx, ?_⟩
      rw [← hc, List.length_cons, List.length_append, List.length_append, List.length_append, hslash]
      have : server.length = u.length + 1 := by rw [hc, List.length_cons]
      omega
  · have hplain : Plain (shareRoot slash server name ++ rest) := by
      rcases h.plain with hshort | hplain
      · exact absurd (hshort name (by simp)) hw
      · exact fun x hx => hplain x (by simp only [sharePath, List.mem_cons]; exact Or.inr (Or.inr hx))
    obtain ⟨d, ds, hd⟩ :=
      normntpath_high isSlash_slash h.isServer h.proper h.below hplain hk
    refine ⟨dot, _, by rw [convert_flat h hconv hw, hd], by decide, ?_⟩
    rw [hst, spell_append, List.length_append, List.length_cons, List.length_append,
      List.length_append, List.length_append, hslash]
    omega

end OnShare

/-! ## Agreement -/

/-- The path is `//server` or under it. -/
def UnderServer (server r : Str) : Prop := ∃ w, Below w ∧ r = slash :: slash :: (server ++ w)

/-- What `realpath` gave lies under the server, and is converted to the same path. -/
def Agrees (env : Env) (server r nt : Str) : Prop :=
  UnderServer server r ∧ ∀ known, ∃ nt', (env.mkntpath2 known r).2 = .ok nt' ∧ SameNt nt nt'

/-- The path goes up to the server at most, to the server itself only from a share
that is found, and its last separator does not make it one with a `\\?\`. -/
structure Settled (server name rest : Str) : Prop where
  low : (net (moves rest)).1 ≤ 1
  found : (net (moves rest)).1 = 1 → (net (moves rest)).2 = [] → Short server name
  edge : ¬ (keepsSlash server name rest = true ∧
    (converted server (clamp [name] (moves rest)).reverse).length = 249)

section Agreement

variable {env : Env} {server name rest nt : Str} (h : OnShare env server name rest)
  {roots : Roots} (hwidth : width8 (sharePath slash server name rest) < env.pathMax)
  (hconv : (env.mkntpath2 roots (sharePath slash server name rest)).2 = .ok nt)

include h hwidth hconv

/-- Below the server. -/
theorem agrees_below (hk : (net (moves rest)).1 ≤ 1) (hne : clamp [name] (moves rest) ≠ []) :
    Agrees env server (rpOut (clamp [name, server] (moves rest))) nt ↔ Settled server name rest := by
  have hresult := convert_result h hconv hk hne 2
  have hnt := convert_low h hconv hwidth hk hne
  have hunder : UnderServer server (rpOut (clamp [name, server] (moves rest))) := by
    refine ⟨belowVol slash (clamp [name] (moves rest)).reverse false, below_belowVol isSlash_slash, ?_⟩
    rw [stack_low hk, rpOut, if_neg (by simp)]
    simp [belowVol, spell]
  have hsame := sameNt_downgrade
    (u := server ++ spell bslash (clamp [name] (moves rest)).reverse)
    (by simp [h.isServer.proper.ne_nil]) (keepsSlash server name rest)
  constructor
  · rintro ⟨-, hag⟩
    obtain ⟨nt', hnt', hs⟩ := hag []
    rw [Env.mkntpath2, hresult] at hnt'
    rw [hnt, ← Except.ok.inj hnt'] at hs
    refine ⟨hk, fun h1 hR => absurd ?_ hne, hsame.mp hs⟩
    rw [clamp_eq_net, h1, hR]
    rfl
  · intro hset
    refine ⟨hunder, fun known => ⟨_, hresult known, ?_⟩⟩
    rw [hnt]
    exact hsame.mpr hset.edge

/-- At the server itself. -/
theorem agrees_server (hk : (net (moves rest)).1 = 1) (hR : (net (moves rest)).2 = []) :
    Agrees env server (rpOut (clamp [name, server] (moves rest))) nt ↔ Settled server name rest := by
  obtain ⟨out, hdrive, hout⟩ := mkntpath2From_server h
  have hpath : rpOut (clamp [name, server] (moves rest)) = slash :: slash :: server := by
    rw [clamp_eq_net, hk, hR]
    simp [rpOut, spell]
  rw [hpath]
  by_cases hw : Short server name
  · obtain ⟨roots', hagain⟩ := convert_above h hconv hwidth hw (by omega)
    have hbody : belowVol bslash (net (moves rest)).2.reverse
        (rest.getLast?.any isSlash && !(net (moves rest)).2.isEmpty) = [] := by
      simp [hR, belowVol, spell]
    rw [hbody, List.append_nil, hout 1 roots'] at hagain
    have hkeeps : keepsSlash server name rest = false := by simp [keepsSlash, hw, hR]
    refine ⟨fun _ => ⟨by omega, fun _ _ => hw, by simp [hkeeps]⟩, fun _ => ⟨⟨[], by simp [Below], by simp⟩,
      fun known => ⟨out, hout 2 known, Or.inl (Except.ok.inj hagain).symm⟩⟩⟩
  · refine ⟨fun hag => ?_, fun hset => absurd (hset.found hk hR) hw⟩
    exfalso
    obtain ⟨nt', hnt', hsame⟩ := hag.2 []
    rw [Env.mkntpath2, hout 2 []] at hnt'
    rw [← Except.ok.inj hnt'] at hsame
    have hplain : Plain (shareRoot slash server name ++ rest) := by
      rcases h.plain with hshort | hplain
      · exact absurd (hshort name (by simp)) hw
      · exact fun x hx => hplain x (by simp only [sharePath, List.mem_cons]; exact Or.inr (Or.inr hx))
    rw [convert_flat h hconv hw,
      normntpath_low isSlash_slash h.isServer h.proper h.below hplain (by omega)] at hsame
    cases hc : server with
    | nil => exact h.isServer.proper.ne_nil hc
    | cons x u =>
      have hx : x ≠ quest := by
        have := h.isServer.ne_quest
        rw [hc] at this
        exact this
      rw [hc, List.cons_append, List.cons_append] at hsame
      exact not_sameNt_drive hx hdrive hsame

/-- Above the server. -/
theorem not_agrees_above (hk : 2 ≤ (net (moves rest)).1) :
    ¬ Agrees env server (rpOut (clamp [name, server] (moves rest))) nt := by
  have hR : clamp [name, server] (moves rest) = (net (moves rest)).2 := by
    have : [name, server].drop (net (moves rest)).1 = [] := List.drop_eq_nil_of_le hk
    rw [clamp_eq_net, this, List.append_nil]
  rw [hR]
  rintro ⟨⟨w, hw, hunder⟩, hag⟩
  cases hst : (net (moves rest)).2.reverse with
  | nil =>
    rw [rpOut, if_pos (List.reverse_eq_nil_iff.mp hst)] at hunder
    have : server ++ w = [] := by simpa using hunder.symm
    exact h.isServer.proper.ne_nil (List.append_eq_nil_iff.mp this).1
  | cons n ps =>
    have hne : (net (moves rest)).2 ≠ [] := by
      intro he
      simp [he] at hst
    have hmem : ∀ p ∈ n :: ps, p ∈ (net (moves rest)).2 := by
      intro p hp
      rw [← hst] at hp
      exact List.mem_reverse.mp hp
    rw [rpOut, if_neg hne, hst, spell_cons] at hunder hag
    have hn := (mem_net (hmem n (by simp))).2
    -- the first name back down is the server's own
    have hserver : n = server := by
      have heq : n ++ spell slash ps = server ++ w := (List.cons.inj (List.cons.inj hunder).2).2
      have hbelow : Below (spell slash ps) := by
        cases ps with
        | nil => simp [Below, spell]
        | cons p ps => exact below_cons isSlash_slash _
      rw [← takeWhile_noSlash hn.noSlash hbelow, heq, takeWhile_noSlash h.isServer.proper.noSlash hw]
    subst hserver
    obtain ⟨x, u, hnt, hx, hlonger⟩ := convert_high h hconv hwidth hk hst
    obtain ⟨nt', hnt', hsame⟩ := hag []
    rw [hnt] at hsame
    cases ps with
    | nil =>
      obtain ⟨out, hdrive, hout⟩ := mkntpath2From_server h
      have : n ++ spell slash [] = n := by simp [spell]
      rw [this, Env.mkntpath2, hout 2 []] at hnt'
      rw [← Except.ok.inj hnt'] at hsame
      exact not_sameNt_drive hx hdrive hsame
    | cons p ps =>
      have hlen := length_of_converts h hconv
      have hweight := weight_net_le (f := fun _ => 1) (fun _ _ => rfl) h.below slash isSlash_slash
      rw [weight_one, weight_one, hst, spell_cons, List.length_cons, List.length_append] at hweight
      obtain ⟨-, htail, -⟩ := not_driveName_stack h.spelled
      rw [hR] at htail
      have hd := dropLast_of_reverse hst htail
      have hpath : n ++ spell slash (p :: ps) = n ++ belowVol slash (p :: ps) false := by
        simp [belowVol]
      have hroot : (shareRoot slash n name).length = n.length + 1 + name.length := by
        simp [shareRoot]
        omega
      rw [hpath, Env.mkntpath2, convert_names h.spelled env 2 [] isSlash_slash (t := false)
        (fun q hq => ⟨List.mem_cons_of_mem _ (mem_net (hmem q (by simp [hq]))).1,
          (mem_net (hmem q (by simp [hq]))).2⟩)
        (fun q hq => hd q (by simp only [List.dropLast_cons_cons] at hq ⊢; exact List.mem_cons_of_mem n hq))
        (fun ht => by cases ht)
        (by rw [List.length_append, belowVol, if_neg (by decide), List.append_nil]; omega)] at hnt'
      rw [← Except.ok.inj hnt', converted] at hsame
      simp only [Bool.false_and, Bool.false_eq_true, if_false, List.append_nil] at hsame
      exact not_sameNt_of_longer (by simp [h.isServer.proper.ne_nil]) hlonger hsame

end Agreement

/-- **`realpath` agrees with the conversion** on a share exactly where the path goes
up to the server at most. -/
theorem realpath_agrees_iff (env : Env) (files : Files) (known roots : Roots)
    (server name rest r nt : Str) (h : OnShare env server name rest)
    (hlinks : files.NoLinks (server :: name :: components rest))
    (hreal : env.realpath files known (sharePath slash server name rest) = some (.ok r))
    (hconv : (env.mkntpath2 roots (sharePath slash server name rest)).2 = .ok nt) :
    Agrees env server r nt ↔ Settled server name rest := by
  obtain ⟨rfl, hwidth⟩ := realpath_share known h.isServer h.proper h.below hlinks hreal
  by_cases hk : (net (moves rest)).1 ≤ 1
  · by_cases hne : clamp [name] (moves rest) = []
    · rw [clamp_eq_net, List.append_eq_nil_iff] at hne
      have hk' : (net (moves rest)).1 = 1 := by
        have := List.drop_eq_nil_iff.mp hne.2
        simp only [List.length_singleton] at this
        omega
      exact agrees_server h hwidth hconv hk' hne.1
    · exact agrees_below h hwidth hconv hk hne
  · exact ⟨fun hag => absurd hag (not_agrees_above h hwidth hconv (by omega)),
      fun hset => absurd hset.low hk⟩

/-- Drive C, with the shares of every server listed on it. -/
def Env.listing : Env where
  drives := 4#32
  cosmosDrive := 0x43
  tempPath := ascii ['C', ':', '\\', 't', '\\']
  pathMax := 1024
  procfs := fun _ => none
  uncRel := fun _ _ => none
  serverDir := fun server => some (ascii ['C', ':', '/', 't', '/'] ++ server)
  pathMax_ge := Env.bare.pathMax_ge
  cosmosDrive_alpha := Env.bare.cosmosDrive_alpha
  procfs_none := Env.bare.procfs_none

/-- No links anywhere. -/
def Files.linkless : Files := ⟨fun _ => .error .einval, .ok (ascii ['/', 'C'])⟩

theorem noLinks_linkless (ps : List Str) : Files.linkless.NoLinks ps := by
  intro qs _ t h
  cases h

theorem listable_srv : Env.listing.Listable (ascii ['s', 'r', 'v']) := by
  refine ⟨_, ascii ['C', ':', '\\', 't', '\\', 's', 'r', 'v'], rfl, ⟨0x43, _, by decide, Or.inl rfl⟩, ?_⟩
  intro again
  have hhead : Env.listing.head (ascii ['C', ':', '/', 't', '/', 's', 'r', 'v']) =
      .ok ⟨drivePre 0x43, ascii ['t', '/', 's', 'r', 'v'], 1017, none⟩ := by decide
  exact (Env.listing.finish_flat hhead (by decide)).trans (by decide)

theorem realpath_agrees_up_to_server :
    Agrees .listing (ascii ['s', 'r', 'v']) (ascii ['/', '/', 's', 'r', 'v', '/', 'b'])
      (ascii ['\\', '\\', 's', 'r', 'v', '\\', 'b']) := by
  have hshare : OnShare .listing (ascii ['s', 'r', 'v']) (ascii ['d'])
      (ascii ['/', 'a', '/', '.', '.', '/', '.', '.', '/', 'b', '/']) :=
    ⟨⟨⟨by decide, by decide, by decide, by decide⟩, by decide, by decide⟩,
      ⟨by decide, by decide, by decide, by decide⟩, by simp [Below, ascii, isSlash, slash], by decide,
      listable_srv, Or.inr (by decide)⟩
  exact (realpath_agrees_iff .listing .linkless [] [] (ascii ['s', 'r', 'v']) (ascii ['d'])
    (ascii ['/', 'a', '/', '.', '.', '/', '.', '.', '/', 'b', '/']) _ _ hshare (noLinks_linkless _)
    (by decide) (by decide)).mpr ⟨by decide, by decide, by decide⟩

/-- `//srv/d/../../e` is resolved to another server. -/
theorem realpath_leaves_server :
    OnShare .listing (ascii ['s', 'r', 'v']) (ascii ['d'])
        (ascii ['/', '.', '.', '/', '.', '.', '/', 'e']) ∧
      Env.listing.realpath .linkless []
          (ascii ['/', '/', 's', 'r', 'v', '/', 'd', '/', '.', '.', '/', '.', '.', '/', 'e']) =
        some (.ok (ascii ['/', '/', 'e'])) ∧
      (Env.listing.mkntpath2 []
          (ascii ['/', '/', 's', 'r', 'v', '/', 'd', '/', '.', '.', '/', '.', '.', '/', 'e'])).2 =
        .ok (ascii ['\\', '\\', 's', 'r', 'v', '\\', 'e']) ∧
      ¬ Agrees .listing (ascii ['s', 'r', 'v']) (ascii ['/', '/', 'e'])
        (ascii ['\\', '\\', 's', 'r', 'v', '\\', 'e']) := by
  refine ⟨⟨⟨⟨by decide, by decide, by decide, by decide⟩, by decide, by decide⟩,
    ⟨by decide, by decide, by decide, by decide⟩, by simp [Below, ascii, isSlash, slash], by decide,
    listable_srv, Or.inr (by decide)⟩, by decide, by decide, ?_⟩
  rintro ⟨⟨w, -, hw⟩, -⟩
  exact absurd (List.cons.inj (List.cons.inj (List.cons.inj hw).2).2).1 (by decide)

end ApeShim.Nt
