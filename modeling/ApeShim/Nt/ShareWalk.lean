import ApeShim.Nt.InPlace
import ApeShim.Nt.LongPaths
import ApeShim.Nt.ShareClimb

/-!
A path on a share resolves as a path on unix does below its server, as far as the server
lists its shares.
-/

namespace ApeShim.Nt
open Walk

/-! ## Conversions that start over -/

/-- How often the conversion starts over with what a climb leaves. -/
def Env.restarts (env : Env) : Nat → Roots → Str → Nat
  | 0, _, _ => 0
  | fuel + 1, roots, path =>
      match env.stages roots path with
      | (_, .error _) => 0
      | (roots, .ok q) =>
          match env.head q with
          | .error _ => 0
          | .ok h =>
              match env.climb h with
              | some full => restarts env fuel roots full + 1
              | none => 0

/-- The conversion of a path that stands for this one does not start over. -/
def Env.Settles (env : Env) (q : Str) : Prop := ∀ l, env.head q = .ok l → env.climb l = none

section Restarts

variable {env : Env} {roots : Roots} {path q : Str}

theorem restarts_settled {fuel : Nat} (hs : (env.stages roots path).2 = .ok q)
    (hq : env.Settles q) : env.restarts fuel roots path = 0 := by
  cases fuel with
  | zero => rfl
  | succ fuel =>
    rw [Env.restarts]
    rcases hst : env.stages roots path with ⟨roots', e | q'⟩
    · rfl
    · rw [hst] at hs
      obtain rfl : q' = q := Except.ok.inj hs
      cases hh : env.head q' with
      | error e => simp only [hh]
      | ok l => simp only [hh, hq l hh]

theorem finish_settled {again again' : Str → Except NtErr Str} (hq : env.Settles q) :
    env.finish again q = env.finish again' q := by
  cases hh : env.head q with
  | error e =>
    rw [Env.finish, Env.finish, hh]
    rfl
  | ok l =>
    have hcases := head_cases hh
    have hnone := hq l hh
    obtain ⟨pre, rest, room, share⟩ := l
    cases share with
    | none =>
      rw [Env.finish, Env.finish, hh]
      rfl
    | some root =>
      have hpre : pre ≠ [] := by
        rcases hcases with ⟨hs, -⟩ | ⟨root, -, hp⟩
        · cases hs
        · rintro rfl
          cases hp
      have hif : ¬ ((normuncrest rest).2 = true ∧ width8 (normuncrest rest).1 < env.pathMax - 1 ∧
          width8 (slash :: slash :: (root.takeWhile fun c => !isSlash c) ++ (normuncrest rest).1) <
            env.pathMax ∧
          (env.serverDir (root.takeWhile fun c => !isSlash c)).isSome = true) := by
        intro hc
        have hsome : env.climb ⟨pre, rest, room, some root⟩ = some _ := if_pos hc
        rw [hsome] at hnone
        cases hnone
      rw [env.finish_share hh hpre, env.finish_share hh hpre, if_neg hif, if_neg hif]

theorem stages_double (h0 : slashAt path 0 = true) (h1 : slashAt path 1 = true)
    (hm : noMarks none path = true) :
    env.stages roots path = (uncNote roots path, .ok (env.divert path)) := by
  have hproc : env.procfs path = none := env.procfs_none path (Or.inr (Or.inl h1))
  have hrel : isRelative path = false := by simp [isRelative, h0]
  simp [Env.stages, hproc, reroot_noMarks hm, hrel, h0, h1]

end Restarts

/-! ## Where a path on a share leads -/

/-- The server, and the names that a climb out of its share leaves. -/
def leftover (server rest : Str) : Str :=
  slash :: slash :: server ++ belowVol bslash (resolved (components rest))
    (rest.getLast?.any isSlash && !(resolved (components rest)).isEmpty)

/-- A climb out of the share is taken: the server's shares are listed, and what is left of
the path fits. -/
def Env.Leaves (env : Env) (server rest : Str) : Prop :=
  climbs [] (moves rest) = true ∧ (env.serverDir server).isSome = true ∧
    width8 (leftover server rest) < env.pathMax

instance (env : Env) (server rest : Str) : Decidable (env.Leaves server rest) :=
  inferInstanceAs (Decidable (_ ∧ _ ∧ _))

/-- A separator at the end stays behind names in a share, and behind a share whose root is
too long to be found. -/
def keepsEnd (server : Str) : List Str → Bool
  | [] => false
  | n :: ps => !decide (Short server n) || !ps.isEmpty

/-- The NT path of names below a server. -/
def ntText (server : Str) (names : List Str) (trailing : Bool) : Str :=
  downgrade 244 (converted server names ++
    (if trailing && keepsEnd server names then [bslash] else []))

/-- What `//server/share/rest` is converted to: the names that are left when `..` takes the
share back as well, or those that are left in the share. -/
def Env.shareWalk (env : Env) (roots : Roots) (server name rest : Str) : Except NtErr Str :=
  let trailing := rest.getLast?.any isSlash
  if (shareRoot slash server name).length + rest.length ≥ min 32767 env.pathMax - 9 then
    .error .enametoolong
  else if env.Leaves server rest then
    match resolved (components (name ++ rest)) with
    | [] => (env.mkntpath2 roots (slash :: slash :: server)).2
    | names => .ok (ntText server names trailing)
  else .ok (ntText server (name :: resolved (components rest)) trailing)

section Walk

variable {env : Env} {roots : Roots} {server name rest : Str}

/-- Up from the share, the share is forgotten. -/
theorem resolved_above (hn : Proper name) (hr : Below rest) (hc : climbs [] (moves rest) = true) :
    resolved (components (name ++ rest)) = resolved (components rest) := by
  have hk : 0 < (net (moves rest)).1 := (climbs_iff _ _).mp hc
  have hstack : clamp [] ((components (name ++ rest)).map move) = clamp [name] (moves rest) := by
    rw [components_behind_name hn.noSlash hr, List.map_cons, hn.move, clamp, clamp_below _ hr]
  have hleft : resolved (components (name ++ rest)) = (clamp [name] (moves rest)).reverse := by
    rw [resolved, hstack]
  rw [hleft, resolved_net, clamp_eq_net, List.drop_eq_nil_of_le (show [name].length ≤ _ from hk),
    List.append_nil]

theorem leftover_body (server : Str) :
    leftover server rest = slash :: slash :: server ++ (normuncrest rest).1 := by
  rw [leftover, normuncrest_net, resolved_net, List.isEmpty_reverse]

/-- What `__mkntpath2` asks before it takes a climb. -/
theorem leaves_iff :
    ((normuncrest rest).2 = true ∧ width8 (normuncrest rest).1 < env.pathMax - 1 ∧
      width8 (slash :: slash :: server ++ (normuncrest rest).1) < env.pathMax ∧
      (env.serverDir server).isSome = true) ↔ env.Leaves server rest := by
  have hclimbs : (normuncrest rest).2 = climbs [] (moves rest) := by
    rw [normuncrest_net, Bool.eq_iff_iff, climbs_iff, decide_eq_true_eq]
    rfl
  have hwidth : width8 (slash :: slash :: server ++ (normuncrest rest).1) =
      2 + width8 server + width8 (normuncrest rest).1 := by
    have : unitWidth slash = 1 := by decide
    simp [width8, this]
    omega
  rw [Env.Leaves, leftover_body, ← hclimbs]
  constructor
  · rintro ⟨h₁, -, h₃, h₄⟩
    exact ⟨h₁, h₄, h₃⟩
  · rintro ⟨h₁, h₂, h₃⟩
    refine ⟨h₁, ?_, h₃, h₂⟩
    rw [hwidth] at h₃
    omega

/-- What a climb leaves, as a path. -/
theorem leftover_eq {n : Str} {ps : List Str} (hR : resolved (components rest) = n :: ps) :
    leftover server rest =
      sharePath bslash server n (belowVol bslash ps (rest.getLast?.any isSlash)) := by
  rw [leftover, hR, List.isEmpty_cons, Bool.not_false, Bool.and_true]
  simp [sharePath, shareRoot, belowVol, spell]

variable (h : Spelled server name rest)

include h

/-- The names left above the share: only the last can look like a drive. -/
theorem names_above :
    (∀ p ∈ resolved (components rest), p ∈ name :: components rest ∧ Proper p) ∧
      (∀ p ∈ (resolved (components rest)).dropLast, ¬ IsDriveName p) ∧
      (rest.getLast?.any isSlash = true → ∀ p ∈ resolved (components rest), ¬ IsDriveName p) := by
  obtain ⟨-, htail, hall⟩ := not_driveName_stack h
  rw [clamp_eq_net] at htail hall
  rw [resolved_net]
  refine ⟨fun p hp => ?_, fun p hp => htail p ?_, fun ht p hp => hall ht p ?_⟩
  · obtain ⟨hmem, hproper⟩ := mem_net (List.mem_reverse.mp hp)
    exact ⟨List.mem_cons_of_mem _ hmem, hproper⟩
  · rw [List.dropLast_reverse] at hp
    have hp := List.mem_reverse.mp hp
    cases hR : (net (moves rest)).2 with
    | nil =>
      rw [hR] at hp
      cases hp
    | cons r R =>
      rw [hR] at hp
      exact List.mem_append_left _ hp
  · exact List.mem_append_left _ (List.mem_reverse.mp hp)

theorem noMarks_leftover {n : Str} {ps : List Str} (hR : resolved (components rest) = n :: ps) :
    noMarks none (sharePath bslash server n (belowVol bslash ps (rest.getLast?.any isSlash))) = true := by
  obtain ⟨hin, hlast, hall⟩ := names_above h
  rw [hR] at hin hlast hall
  exact noMarks_sharePath isSlash_bslash h.isServer (fun p hp => (hin p hp).2)
    (not_driveName_stack h).1 hlast hall

/-- What a climb leaves is not climbed out of. -/
theorem settles_leftover {n : Str} {ps : List Str} (hR : resolved (components rest) = n :: ps) :
    env.Settles (sharePath bslash server n (belowVol bslash ps (rest.getLast?.any isSlash))) := by
  obtain ⟨hin, -, -⟩ := names_above h
  rw [hR] at hin
  have hbelow : Below (belowVol bslash ps (rest.getLast?.any isSlash)) := below_belowVol isSlash_bslash
  have hn := (hin n List.mem_cons_self).2
  have hps : ∀ p ∈ ps, Proper p := fun p hp => (hin p (List.mem_cons_of_mem _ hp)).2
  intro l hl
  by_cases hw : width8 (shareRoot bslash server n) < uncRootLenMax
  · rw [env.head_share isSlash_bslash h.isServer hn hbelow hw] at hl
    obtain rfl := Except.ok.inj hl
    have hno : ¬ ((normuncrest (belowVol bslash ps (rest.getLast?.any isSlash))).2 = true) := by
      rw [normuncrest_names isSlash_bslash hps]
      exact Bool.false_ne_true
    exact if_neg fun hc => hno hc.1
  · rw [env.head_share_long isSlash_bslash h.isServer hn hbelow hw] at hl
    obtain rfl := Except.ok.inj hl
    rfl

theorem stages_share :
    env.stages roots (sharePath slash server name rest) =
      (uncNote roots (sharePath slash server name rest), .ok (sharePath slash server name rest)) := by
  have h0 : slashAt (sharePath slash server name rest) 0 = true := isSlash_slash
  have h1 : slashAt (sharePath slash server name rest) 1 = true := isSlash_slash
  rw [stages_double h0 h1 h.unmarked, env.divert_share isSlash_slash h.isServer h.proper]

omit h in
theorem stages_server {dir : Str} (hs : IsServer server) (hdir : env.serverDir server = some dir) :
    env.stages roots (slash :: slash :: server) =
      (uncNote roots (slash :: slash :: server), .ok dir) := by
  have h0 : slashAt (slash :: slash :: server) 0 = true := isSlash_slash
  have h1 : slashAt (slash :: slash :: server) 1 = true := isSlash_slash
  rw [stages_double h0 h1 (noMarks_server hs), divert_server hs hdir]

omit h in
theorem mkntpath2_server {fuel fuel' : Nat} {roots' : Roots} {dir : Str} (hs : IsServer server)
    (hdir : env.serverDir server = some dir) (hq : env.Settles dir) :
    (env.mkntpath2From (fuel + 1) roots (slash :: slash :: server)).2 =
      (env.mkntpath2From (fuel' + 1) roots' (slash :: slash :: server)).2 := by
  rw [mkntpath2From_stages, mkntpath2From_stages, stages_server hs hdir, stages_server hs hdir]
  simp only [Except.bind]
  exact finish_settled hq

omit h in
theorem leftover_server (hR : resolved (components rest) = []) :
    leftover server rest = slash :: slash :: server := by
  rw [leftover, hR]
  simp [belowVol, spell]

variable (hdir : ∀ dir ∈ env.serverDir server, env.Settles dir)

include hdir

/-- What a climb leaves is converted without another. -/
theorem leftover_settled (hl : env.Leaves server rest) :
    ∃ q, (env.stages roots (leftover server rest)).2 = .ok q ∧ env.Settles q := by
  cases hR : resolved (components rest) with
  | nil =>
    obtain ⟨dir, hd⟩ := Option.isSome_iff_exists.mp hl.2.1
    rw [leftover_server hR, stages_server h.isServer hd]
    exact ⟨dir, rfl, hdir dir hd⟩
  | cons n ps =>
    obtain ⟨hin, -, -⟩ := names_above h
    have hn := (hin n (by rw [hR]; exact List.mem_cons_self)).2
    have h0 : slashAt (sharePath bslash server n (belowVol bslash ps (rest.getLast?.any isSlash))) 0 =
      true := isSlash_slash
    have h1 : slashAt (sharePath bslash server n (belowVol bslash ps (rest.getLast?.any isSlash))) 1 =
      true := isSlash_slash
    rw [leftover_eq hR, stages_double h0 h1 (noMarks_leftover h hR),
      env.divert_share isSlash_bslash h.isServer hn]
    exact ⟨_, rfl, settles_leftover h hR⟩

variable (hw : Short server name)

include hw

/-- **The conversion starts over once at most.** -/
theorem restarts_le_one (fuel : Nat) :
    env.restarts fuel roots (sharePath slash server name rest) ≤ 1 := by
  cases fuel with
  | zero => exact Nat.zero_le 1
  | succ fuel =>
    have hserver : (shareRoot slash server name).takeWhile (fun c => !isSlash c) = server :=
      takeWhile_noSlash h.isServer.proper.noSlash (below_cons isSlash_slash _)
    simp only [Env.restarts, stages_share h, env.head_share isSlash_slash h.isServer h.proper h.below hw]
    split
    · rename_i full hfull
      simp only [Env.climb, Option.bind_some, hserver] at hfull
      split at hfull
      · rename_i hc
        obtain rfl := Option.some.inj hfull
        obtain ⟨q, hq, hsettles⟩ : ∃ q, (env.stages (uncNote roots (sharePath slash server name rest))
            (leftover server rest)).2 = .ok q ∧ env.Settles q :=
          leftover_settled h hdir (leaves_iff.mp hc)
        rw [leftover_body] at hq
        rw [restarts_settled hq hsettles]
      · cases hfull
    · exact Nat.zero_le 1

/-- **A path on a share** is converted to the names that its components come to. -/
theorem mkntpath2_walk :
    (env.mkntpath2 roots (sharePath slash server name rest)).2 =
      env.shareWalk roots server name rest := by
  have hlen : ∀ n ps, resolved (components rest) = n :: ps → (shareRoot bslash server n ++
      belowVol bslash ps (rest.getLast?.any isSlash)).length ≤ server.length + rest.length := by
    intro n ps hR
    have hbody := weight_body_le (f := fun _ => 1) (fun _ _ => rfl) h.below
    have happ := congrArg List.length (show leftover server rest = _ from leftover_eq hR)
    rw [leftover_body, sharePath] at happ
    simp only [List.length_cons, List.length_append] at happ ⊢
    rw [weight_one, weight_one] at hbody
    omega
  have hroot : (shareRoot slash server name).length = server.length + 1 + name.length := by
    rw [shareRoot, List.length_append, List.length_cons]
    omega
  rw [Env.mkntpath2, env.mkntpath2From_share 2 roots isSlash_slash h.isServer h.proper h.below hw
    h.unmarked, Env.shareWalk]
  by_cases hroom : rest.length ≥ min 32767 env.pathMax - 8 - (shareRoot slash server name).length - 1
  · rw [if_pos hroom, if_pos (by omega)]
  have hfits : ¬ (shareRoot slash server name).length + rest.length ≥ min 32767 env.pathMax - 9 := by
    omega
  rw [if_neg hroom, if_neg hfits]
  by_cases hl : env.Leaves server rest
  · rw [if_pos (leaves_iff.mpr hl), if_pos hl, resolved_above h.proper h.below hl.1, ← leftover_body]
    cases hR : resolved (components rest) with
    | nil =>
      obtain ⟨dir, hd⟩ := Option.isSome_iff_exists.mp hl.2.1
      rw [leftover_server hR]
      exact mkntpath2_server h.isServer hd (hdir dir hd)
    | cons n ps =>
      obtain ⟨hin, -, -⟩ := names_above h
      rw [hR] at hin
      rw [leftover_eq hR, mkntpath2From_names 1 _ isSlash_bslash h.isServer (fun p hp => (hin p hp).2)
        (noMarks_leftover h hR) (plain_names h isSlash_bslash fun p hp => (hin p hp).1)
        (by have := hlen n ps hR; omega)]
      rfl
  · rw [if_neg fun hc => hl (leaves_iff.mp hc), if_neg hl, normuncrest_net, ntText, keepsEnd,
      resolved_net]
    simp [sharePre, converted, belowVol, spell, hw]

end Walk

/-- **Share paths resolve like unix paths rooted at the server**, as far as the roots are
found and no climb is taken out of the directory that lists the shares. The conversion
starts over once at most, and what is behind the share is rewritten in place without a
write to what is not read yet. -/
theorem share_walk (env : Env) (roots : Roots) (server name rest : Str)
    (h : Spelled server name rest) (hw : Short server name)
    (hdir : ∀ dir ∈ env.serverDir server, env.Settles dir) :
    (env.mkntpath2 roots (sharePath slash server name rest)).2 =
        env.shareWalk roots server name rest ∧
      env.restarts 3 roots (sharePath slash server name rest) ≤ 1 ∧
      ∀ (p : Nat → UInt16) (n : Nat), Memory.view p 0 n = rest →
        (Memory.view (InPlace.normuncrest p n).1 0 (InPlace.normuncrest p n).2.1,
          (InPlace.normuncrest p n).2.2) = normuncrest rest ∧
        (InPlace.normuncrest p n).1 (InPlace.normuncrest p n).2.1 = 0 ∧
        ∀ turns x, (InPlace.loop n turns ⟨p, 0, 0, false⟩).i ≤ x →
          (InPlace.loop n turns ⟨p, 0, 0, false⟩).p x = p x := by
  refine ⟨mkntpath2_walk h hdir hw, restarts_le_one h hdir hw 3, fun p n hp => ?_⟩
  have hbelow : Below (Memory.view p 0 n) := by
    rw [hp]
    exact h.below
  rw [← hp]
  obtain ⟨htext, hend⟩ := InPlace.normuncrest_eq hbelow
  exact ⟨htext, hend, fun turns => (InPlace.loop_unread turns hbelow).2⟩

/-- `//srv/d/a/../../b/` is `b` on the server. -/
theorem share_walk_listed :
    (Env.listing.mkntpath2 [] (sharePath slash (ascii ['s', 'r', 'v']) (ascii ['d'])
        (ascii ['/', 'a', '/', '.', '.', '/', '.', '.', '/', 'b', '/']))).2 =
      Env.listing.shareWalk [] (ascii ['s', 'r', 'v']) (ascii ['d'])
        (ascii ['/', 'a', '/', '.', '.', '/', '.', '.', '/', 'b', '/']) := by
  refine (share_walk .listing [] _ _ _ ⟨⟨⟨by decide, by decide, by decide, by decide⟩, by decide,
    by decide⟩, ⟨by decide, by decide, by decide, by decide⟩, by simp [Below, ascii, isSlash, slash],
    by decide, Or.inr (by decide)⟩ (by decide) ?_).1
  intro dir hd l hl
  obtain rfl := Option.some.inj hd
  have hhead : Env.listing.head (ascii ['C', ':', '/', 't', '/', 's', 'r', 'v']) =
      .ok ⟨drivePre 0x43, ascii ['t', '/', 's', 'r', 'v'], 1017, none⟩ := by decide
  obtain rfl := Except.ok.inj (hhead.symm.trans hl)
  rfl

/-- Every server's shares are listed above another share. -/
def Env.listingAbove : Env := { Env.listing with
  serverDir := fun _ => some (ascii ['/', '/', 't', '/', 'h', '/', '.', '.', '/', 'x']) }

/-- The separator behind a share root goes; a drive in the path is a root of its own; a
name too long for `UncRootLen` is climbed out of; and a list above a share is climbed out
of as well. -/
theorem share_walk_apart :
    (Env.bare.mkntpath2 [] (ascii ['/', '/', 's', '/', 'h', '/'])).2 =
      .ok (ascii ['\\', '\\', 's', '\\', 'h']) ∧
    (Env.bare.mkntpath2 [] (ascii ['/', '/', 's', '/', 'h', '/', 'C', ':', '/', 'x'])).2 =
      .ok (ascii ['C', ':', '\\', 'x']) ∧
    (Env.bare.mkntpath2 [] (ascii ['/', '/', 's', '/'] ++ List.replicate 254 0x61 ++
      ascii ['/', '.', '.', '/', 'b'])).2 = .ok (ascii ['\\', '\\', 's', '\\', 'b']) ∧
    Env.listingAbove.restarts 3 [] (ascii ['/', '/', 's', '/', 'h', '/', '.', '.']) = 2 := by
  refine ⟨by decide +kernel, by decide +kernel, by decide +kernel, by decide +kernel⟩

end ApeShim.Nt
