import Monolith.Fs.NamesRun

/-!
# What a mount does to lookups

`vfs_mount` puts a root on an entry, and the lookups of `fs/lookup.c` show that root in place of the
entry.

* `mount_takes_effect`: if the target is not the root of a file system itself, it names the new root
  from then on, `target/..` names what it named, and so does every path that does not lead into the
  target.
* `mount_without_effect`: a mount point is crossed once, and the root not at all; so a second mount
  on the same directory, or one on `/`, is not seen.
-/

namespace Monolith.Fs

open Fallible Path Transition List Option Prod

/-- What a lookup does at the entries on its way. -/
def Query.visits (v : Vfs) (q : Query) : List (Visit Addr) :=
  (spaceOf v).visits dots q.parent q.start (components slash q.path)

/-- The lookup does not look into `t`.  Neither does it climb out of `r`, unless `r` is mounted
already. -/
structure Query.Outside (v : Vfs) (t r : Addr) (q : Query) : Prop where
  into : Visit.into t ∉ q.visits v
  above : Visit.above r ∈ q.visits v → Mounted v r

def dotdotOf (path : Str) : Str := if path = [] then dots.above else path ++ slash :: dots.above

/-- The target does not name the root of a file system, which a mount point and `/` do; and on the
way to what it names it does not look into that, or climb out of the new root. -/
structure MountCall.Direct (m : MountCall) (v : Vfs) (procfs : Addr) : Prop where
  parent : ∀ t, (m.query v).seek v = .ok t → parentOf v t ≠ 0
  into : ∀ t, (m.query v).seek v = .ok t → Visit.into t ∉ ((m.query v).visits v).dropLast
  above : Visit.above (m.root procfs) ∈ (m.query v).visits v → Mounted v (m.root procfs)

/-! ## `target/..` -/

section Dotdot

variable (v : Vfs) (cwd : Addr) (path : Str)

theorem components_dotdotOf :
    components slash (dotdotOf path) = components slash path ++ [dots.above] := by
  have habove : components slash dots.above = [dots.above] :=
    components_name (by decide) (by decide)
  rw [dotdotOf]
  split_ifs with hnil
  · rw [hnil]
    rfl
  · rw [components_append_sep, habove]

theorem queryOf_dotdotOf :
    (queryOf v cwd (dotdotOf path) false).start = (queryOf v cwd path false).start ∧
    (0 ∉ (queryOf v cwd path false).path → 0 ∉ (queryOf v cwd (dotdotOf path) false).path) ∧
    ¬NameOk (queryOf v cwd (dotdotOf path) false).path := by
  have hnul : ∀ {name : Str}, 0 ∉ name → 0 ∉ name ++ slash :: dots.above := by
    intro name h hin
    rcases mem_append.1 hin with hin | hin
    · exact h hin
    · exact absurd hin (by decide)
  have hname : ∀ name : Str, ¬NameOk (name ++ slash :: dots.above) := fun name h =>
    h.slash (mem_append_right _ mem_cons_self)
  rcases path with _ | ⟨c, rest⟩
  · exact ⟨rfl, fun _ => (by decide : 0 ∉ dots.above), fun h => h.dotdot rfl⟩
  rw [dotdotOf, if_neg (cons_ne_nil _ _), cons_append, queryOf, queryOf]
  split
  · exact ⟨rfl, hnul, hname rest⟩
  · exact ⟨rfl, hnul, hname (c :: rest)⟩

end Dotdot

/-! ## One mount -/

theorem NamesOk.visits_of_child {v : Vfs} {q : Query} (N : NamesOk v) {a c : Addr} (ha : Live v a)
    (hbare : ¬Covered v a) (hstart : q.start = a) (h : (spaceOf v).child a q.path = some c) :
    Visit.into a ∈ q.visits v ∧ (q.parent = false → q.visits v = [.into a, .into c]) := by
  obtain ⟨hok, hdir⟩ := N.of_child (N.ne_zero ha) h
  rw [Query.visits, hstart, components_name hok.ne_nil hok.slash, Space.visits,
    if_neg (by rw [hdir]; decide)]
  have hvisit : Space.visit dots a q.path = [.into a] := by
    rw [Space.visit, if_neg hok.dot, if_neg hok.dotdot]
  refine ⟨?_, fun hp => ?_⟩
  · split
    · exact mem_singleton_self _
    · rw [hvisit]
      exact mem_append_left _ (mem_singleton_self _)
  · have hstep : (spaceOf v).step dots a q.path = some c := by
      rw [Space.step, if_neg hok.dot, if_neg hok.dotdot]
      show (seenAt v a).bind _ = _
      rwa [seenAt_of_bare hbare]
    rw [hp, hvisit, hstep]
    rfl

section Mount

variable {v w u₀ u : Vfs} {procfs t : Addr} {m : MountCall} {q : Query}
  (M : MountedOn v w procfs m t u₀ u)

include M

theorem MountedOn.rootNode : w.rootNode = v.rootNode :=
  M.put.rootNode.trans (M.beyond.rootNode.trans M.looked.rootNode)

theorem MountedOn.live_eq : Live u₀ = Live v := by
  refine funext fun a => propext ⟨fun ⟨f, hf⟩ => ?_, M.looked.live a⟩
  obtain ⟨e, he, -⟩ := M.looked.back a f hf
  exact ⟨e, he⟩

theorem MountedOn.queryOf (cwd : Addr) (path : Str) (parent : Bool) :
    queryOf w cwd path parent = queryOf v cwd path parent := by
  cases path <;> simp only [Fs.queryOf, M.rootNode]

/-- A root that was mounted before has the place above it that it had. -/
theorem MountedOn.up_of_mounted (hr : Live v (m.root procfs)) (h : Mounted v (m.root procfs)) :
    (spaceOf w).up (m.root procfs) = (spaceOf v).up (m.root procfs) := by
  show aboveOf w _ = aboveOf v _
  have hr₀ : Mounted u₀ (m.root procfs) := by rwa [Mounted, M.looked.mounts]
  rw [M.put.aboveOf M.namesOk₀ M.beyond (M.looked.live _ hr) (.inr hr₀), M.looked.aboveOf]

variable (N : NamesOk v) (hm : m.Ok v) (hpar : parentOf v t ≠ 0)

include N hpar

theorem MountedOn.place :
    (spaceOf v).place dots (m.query v).start (components slash (m.query v).path) = some t := by
  have hseek := M.seek
  rw [Query.seek, MountCall.query, queryOf_parent] at hseek
  obtain ⟨b, hplace, hseen⟩ := Space.place_of_walk hseek
  change seenAt v b = some t at hseen
  have hbare : ¬Covered v b := by
    intro hc
    obtain ⟨mp, hmp⟩ := ne_none_iff_exists'.1 hc.2
    obtain ⟨r, hr, hr0⟩ := N.mountRoot b mp hmp
    rw [seenAt, if_pos hc.1, hmp] at hseen
    obtain rfl : r = t := mem_unique hr hseen
    exact hpar hr0
  rw [seenAt_of_bare hbare] at hseen
  exact hseen ▸ hplace

theorem MountedOn.way (D : m.Direct v procfs) : ∃ way,
    (spaceOf v).visits dots false (m.query v).start (components slash (m.query v).path) =
    way ++ [.into t] ∧
      Visit.into t ∉ way ∧ (Live v (m.root procfs) → Visit.above (m.root procfs) ∈ way →
        (spaceOf w).up (m.root procfs) = (spaceOf v).up (m.root procfs)) := by
  obtain ⟨way, hway⟩ := Space.visits_of_place (M.place N hpar)
  have hvisits : (m.query v).visits v = way ++ [.into t] := by
    rwa [Query.visits, MountCall.query, queryOf_parent]
  refine ⟨way, hway, ?_, fun hr hin => M.up_of_mounted hr (D.above ?_)⟩
  · have hinto := D.into t M.seek
    rwa [hvisits, dropLast_concat] at hinto
  · rw [hvisits]
    exact mem_append_left _ hin

include hm

namespace MountedOn

omit hpar in
theorem live : Live v t := (N.seek_ok hm.target.live M.seek).1

theorem namesOk_after : NamesOk w := by
  have hlive := M.looked.live t (M.live N hm)
  refine M.put.namesOk M.namesOk (M.beyond.live hlive) M.root.1 M.root.2 (.inr ?_)
  rwa [(M.beyond.views hlive).2.1, M.looked.parentOf]

theorem mounts_space : Space.Mounts (spaceOf v) (spaceOf w) (Live v) t (m.root procfs) := by
  have hroot : t ≠ u₀.rootNode := by
    rw [M.looked.rootNode]
    rintro rfl
    exact hpar N.rootParent
  have S := M.put.mounts_space M.namesOk₀ M.beyond (M.looked.live t (M.live N hm)) hroot
  rwa [M.looked.spaceOf, M.live_eq] at S

/-- A lookup that was clear is plain now, unless it asks for a name in the target. -/
theorem plain (hq : q.Clear v) (hchild : q.start = t → (spaceOf v).child t q.path = none) :
    q.Plain w := by
  have hlive₀ := M.looked.live _ hq.live
  refine ⟨?_, hq.nul, fun hc => ?_⟩
  · obtain ⟨e, he⟩ := M.beyond.live hlive₀
    exact ⟨_, M.put.keep he⟩
  by_cases hstart : q.start = t
  · rw [hstart, (M.mounts_space N hm hpar).child t _ (M.live N hm)]
    exact hchild hstart
  · refine absurd ?_ hq.bare
    rwa [Covered, M.rootNode, M.put.mountOf_of_ne hstart, (M.beyond.views hlive₀).2.2.2,
      M.looked.mountOf] at hc

theorem lookup_target (D : m.Direct v procfs) (hq : (m.query v).Clear v) :
    (vfsLookup w m.cwd m.target false).map fst = .ok (.ok (m.root procfs)) := by
  obtain ⟨way, hway, hinto, habove⟩ := M.way N hpar D
  have hparent : (m.query v).parent = false := queryOf_parent ..
  have P : (m.query v).Plain w := M.plain N hm hpar hq fun hstart => by
    by_contra hsome
    obtain ⟨c, hc⟩ := ne_none_iff_exists'.1 hsome
    obtain ⟨-, hvisits⟩ := N.visits_of_child (M.live N hm) (hstart ▸ hq.bare) hstart hc
    refine D.into t M.seek ?_
    rw [hvisits hparent]
    exact mem_singleton_self _
  rw [vfsLookup_eq, M.queryOf]
  refine ((M.namesOk_after N hm hpar).call_eq P).trans ?_
  have hwalk := (M.mounts_space N hm hpar).walk_target hq.live (M.place N hpar) hway hinto habove
  rw [Query.answer, if_pos M.short, Query.seek, hparent, hwalk]
  rfl

theorem lookup_dotdot (D : m.Direct v procfs) (hq : (m.query v).Clear v) :
    (vfsLookup w m.cwd (dotdotOf m.target) false).map fst =
      (vfsLookup v m.cwd (dotdotOf m.target) false).map fst := by
  obtain ⟨way, hway, hinto, habove⟩ := M.way N hpar D
  obtain ⟨hstart, hnul, hname⟩ := queryOf_dotdotOf v m.cwd m.target
  have hlive := M.live N hm
  rw [vfsLookup_eq, vfsLookup_eq, M.queryOf]
  have hcomponents : components slash (Fs.queryOf v m.cwd (dotdotOf m.target) false).path =
      components slash (m.query v).path ++ [dots.above] := by
    rw [MountCall.query, components_queryOf, components_queryOf, components_dotdotOf]
  have hparent : (Fs.queryOf v m.cwd (dotdotOf m.target) false).parent = false := queryOf_parent ..
  generalize Fs.queryOf v m.cwd (dotdotOf m.target) false = q at *
  have C : q.Clear v := ⟨hstart ▸ hq.live, hnul hq.nul, hstart ▸ hq.bare⟩
  have P : q.Plain w := M.plain N hm hpar C fun _ => by
    by_contra hsome
    obtain ⟨c, hc⟩ := ne_none_iff_exists'.1 hsome
    exact hname (N.of_child (N.ne_zero hlive) hc).1
  have htr : t ≠ m.root procfs := by
    intro htr
    have hr0 := M.root.2
    rw [← htr, (M.beyond.views (M.looked.live t hlive)).2.1, M.looked.parentOf] at hr0
    exact hpar hr0
  have hup : (spaceOf v).up t ≠ some t := by
    show aboveOf v t ≠ some t
    obtain ⟨e, he⟩ := hlive
    rw [aboveOf, if_pos hpar, parentOf_eq he]
    exact fun h => N.above t e he (some_inj.1 h)
  have hwalk :=
    (M.mounts_space N hm hpar).walk_above (by decide) hq.live hlive
    (M.place N hpar) hway hinto habove
    htr hup
  refine ((M.namesOk_after N hm hpar).call_eq P).trans (Eq.trans ?_ (N.call_eq C.plain).symm)
  rw [Query.answer, Query.answer, Query.seek, Query.seek, hparent, hcomponents, hstart]
  rw [show (Fs.queryOf v m.cwd m.target false).start = (m.query v).start from rfl, hwalk]

theorem call_of_outside (hq : q.Clear v) (O : q.Outside v t (m.root procfs)) :
    (q.call w).map fst = (q.call v).map fst := by
  have P : q.Plain w := M.plain N hm hpar hq fun hstart => by
    by_contra hsome
    obtain ⟨c, hc⟩ := ne_none_iff_exists'.1 hsome
    exact O.into (N.visits_of_child (M.live N hm) (hstart ▸ hq.bare) hstart hc).1
  refine ((M.namesOk_after N hm hpar).call_eq P).trans (Eq.trans ?_ (N.call_eq hq.plain).symm)
  have hwalk := (M.mounts_space N hm hpar).walk_of_outside hq.live O.into fun hr hin =>
    M.up_of_mounted hr (O.above hin)
  simp [Query.answer, Query.seek, hwalk]

end MountedOn

end Mount

/-! ## In every state -/

/-- **A mount takes effect.**  After any calls that fit, if `vfs_mount` returns 0 for a target that
is no root, then the target names the root of what was mounted, `target/..` names what it named, and
so do all paths that do not lead into the target. -/
theorem mount_takes_effect {new proc : Fresh} {chardevs blockdevs : BitVec 64 → Bool} {s k : Kernel}
    {ops : List Op} (hboot : boot new proc chardevs blockdevs = some s)
    (hfits : Along Kernel.step (fun s op => op.Fits s) s ops)
    (hrun : run Kernel.step s ops = some k) {m : MountCall} {w : Vfs}
    (hpossible : (Op.mount m).Possible k)
    (hbare : ∀ q ∈ (Op.mount m).queries k, ¬Covered k.vfs q.start)
    (hdirect : m.Direct k.vfs k.procfs) (hmount : vfsMount k.vfs k.procfs m = .ok (.ok (), w)) :
    (vfsLookup w m.cwd m.target false).map fst = .ok (.ok (m.root k.procfs)) ∧
      (vfsLookup w m.cwd (dotdotOf m.target) false).map fst =
        (vfsLookup k.vfs m.cwd (dotdotOf m.target) false).map fst ∧
      ∃ t, (m.query k.vfs).seek k.vfs = .ok t ∧ ∀ q : Query, q.Clear k.vfs →
        q.Outside k.vfs t (m.root k.procfs) → (q.call w).map fst = (q.call k.vfs).map fst := by
  have K := kernelOk_of_run hboot hfits hrun
  have hclear := hpossible.clear hbare
  have hm := MountCall.ok_of_clear hpossible hclear
  have hq := hclear _ mem_cons_self
  obtain ⟨errno, herr, -⟩ | ⟨-, t, u₀, u, M⟩ := K.names.vfsMount K.root hm hmount
  · cases herr
  have hpar := hdirect.parent t M.seek
  exact ⟨M.lookup_target K.names hm hpar hdirect hq, M.lookup_dotdot K.names hm hpar hdirect hq, t,
    M.seek, fun q hq O => M.call_of_outside K.names hm hpar hq O⟩

theorem mount_takes_effect_on_d :
    ∃ s k w, smallBoot = some s ∧ run Kernel.step s [.make makeD] = some k ∧
    vfsMount k.vfs k.procfs (ramfsOn [0x64] ⟨0x9000, 0xa000⟩) = .ok (.ok (), w) ∧
    (vfsLookup w 0x2000 [0x64] false).map fst = .ok (.ok 0xa000) := by
  obtain ⟨s, hs, hmake, k, hrun, hpossible, hbare, hseek, hpar, hinto, habove, w, hw, -⟩ :
      ∃ s, smallBoot = some s ∧ (∀ q ∈ Op.queries s (.make makeD), ¬Covered s.vfs q.start) ∧
      ∃ k, run Kernel.step s [.make makeD] = some k ∧
        (Op.mount (ramfsOn [0x64] ⟨0x9000, 0xa000⟩)).Possible k ∧
        (∀ q ∈ (Op.mount (ramfsOn [0x64] ⟨0x9000, 0xa000⟩)).queries k, ¬Covered k.vfs q.start) ∧
        ((ramfsOn [0x64] ⟨0x9000, 0xa000⟩).query k.vfs).seek k.vfs = .ok 0x6000 ∧
        parentOf k.vfs 0x6000 ≠ 0 ∧ Visit.into 0x6000 ∉
        (((ramfsOn [0x64] ⟨0x9000, 0xa000⟩).query k.vfs).visits k.vfs).dropLast ∧
        Visit.above 0xa000 ∉ ((ramfsOn [0x64] ⟨0x9000, 0xa000⟩).query k.vfs).visits k.vfs ∧
        ∃ w, vfsMount k.vfs k.procfs (ramfsOn [0x64] ⟨0x9000, 0xa000⟩) = .ok (.ok (), w) ∧
        True := by
    decide +kernel
  have hpath : PathOk makeD.path := ⟨by decide +kernel, by decide +kernel⟩
  have hfits : Along Kernel.step (fun s op => op.Fits s) s [.make makeD] :=
    ⟨⟨hmake, hpath⟩, fun _ _ => trivial⟩
  have hdirect : (ramfsOn [0x64] ⟨0x9000, 0xa000⟩).Direct k.vfs k.procfs := by
    refine ⟨fun t ht => ?_, fun t ht => ?_, fun h => absurd h habove⟩
    · obtain rfl := Except.ok.inj (hseek.symm.trans ht)
      exact hpar
    · obtain rfl := Except.ok.inj (hseek.symm.trans ht)
      exact hinto
  exact ⟨s, k, w, hs, hrun, hw, (mount_takes_effect hs hfits hrun hpossible hbare hdirect hw).1⟩

/-- The second file system on `d` is not seen, and neither is one on `/`. -/
theorem mount_without_effect :
    (∃ k w, (smallBoot.bind fun s =>
        run Kernel.step s [.make makeD, .mount (ramfsOn [0x64] ⟨0x9000, 0xa000⟩)]) = some k ∧
      vfsMount k.vfs k.procfs (ramfsOn [0x64] ⟨0xb000, 0xc000⟩) = .ok (.ok (), w) ∧
      (ramfsOn [0x64] ⟨0xb000, 0xc000⟩).root k.procfs = 0xc000 ∧
      (vfsLookup w 0x2000 [0x64] false).map fst = .ok (.ok 0xa000)) ∧ ∃ k w, smallBoot = some k ∧
      vfsMount k.vfs k.procfs (ramfsOn [slash] ⟨0xb000, 0xc000⟩) = .ok (.ok (), w) ∧
      (ramfsOn [slash] ⟨0xb000, 0xc000⟩).root k.procfs = 0xc000 ∧
      (vfsLookup w 0x2000 [slash] false).map fst = .ok (.ok 0x2000) := by
  simp only [exists_and_left]
  decide +kernel

end Monolith.Fs
