import Monolith.Fs.NamesRun

/-!
# Path resolution

A file system that was built from `vfs_init` by `vfs_create`, `vfs_mkdir` and `vfs_mknod` is one
tree: nothing is mounted in it, and every entry is in the hash table from the start
(`OneTree.step`).  There the walk of `vfs_lookup_at` is the walk along the components of the path,
and it leaves everything as it was (`lookup_eq_walk`).
-/

namespace Monolith.Fs

open Function Fallible Path Transition Option List

section OneTree

variable {v w : Vfs} {q : Query} (O : OneTree v) (N : NamesOk v)

theorem oneTree_vfsInit (new : Fresh) (chardevs blockdevs : BitVec 64 → Bool) :
    OneTree (vfsInit new chardevs blockdevs) := by
  obtain ⟨e, hentries, hparent⟩ : ∃ e, (vfsInit new chardevs blockdevs).ventries =
      update (fun _ => none) new.dirent (some e) ∧ e.parent = 0 := ⟨_, rfl, rfl⟩
  have hroot a f (hf : (vfsInit new chardevs blockdevs).ventries a = some f) : a = new.dirent ∧
      f.parent = 0 := by
    rw [hentries] at hf
    by_cases ha : a = new.dirent
    · rw [ha, update_self, some_inj] at hf
      exact ⟨ha, hf ▸ hparent⟩
    · simp [ha] at hf
  refine ⟨rfl, fun a hc => hc.2 ?_, fun a e h _ => (hroot a e h).1, fun _ => [], ?_,
    fun a e h hp => absurd (hroot a e h).2 hp⟩
  · simp [mountOf, hentries, update_of_ne (show a ≠ new.dirent from hc.1)]
  · exact ⟨fun _ => rfl, fun _ => nodup_nil, fun _ _ h => absurd h not_mem_nil⟩

include O

/-- `..` of the root is the root: it is the one entry without a parent, and its mount says so. -/
theorem OneTree.aboveOf_eq {a : Addr} (h : Live v a) : aboveOf v a = some ((treeOf v).up a) := by
  obtain ⟨e, he⟩ := h
  show _ = some (if parentOf v a = 0 then v.rootNode else parentOf v a)
  rw [aboveOf]
  by_cases hp : parentOf v a = 0
  · rw [if_neg (not_not.2 hp), if_pos hp, O.mounts, O.top a e he (parentOf_eq he ▸ hp)]
    simp
  · rw [if_pos hp, if_neg hp]

include N

theorem OneTree.seek_eq (h : Live v q.start) : q.seek v = q.walk v :=
  Space.walk_eq_tree (P := Live v) (fun _ _ _ hcur hstep => N.live_step hcur hstep) rfl rfl
    (fun a => seenAt_of_bare (O.bare a)) (fun _ ha => O.aboveOf_eq ha) h

theorem OneTree.call (hq : q.Ok v) : q.call v = .ok (lookupStatus (q.walk v), v) := by
  obtain ⟨hlive, hnul, hlen⟩ := hq
  have hs : Live v q.start := isSome_iff_exists.1 hlive
  obtain ⟨w, hw, -, L, T⟩ := N.call_of_length ⟨hs, hnul, fun h => absurd h (O.bare _)⟩ hlen
  rw [hw, O.seek_eq N hs, L.eq_of_tally T O]

theorem OneTree.lookups {qs : List Query} (hqs : ∀ q ∈ qs, q.Ok v) : lookups v qs = .ok v := by
  induction qs with
  | nil => rfl
  | cons q qs ih =>
    rw [Fs.lookups, O.call N (hqs q mem_cons_self)]
    exact ih fun q' hq' => hqs q' (mem_cons_of_mem q hq')

theorem OneTree.plain {cwd : Addr} {path : Str} {parent : Bool} (hcwd : Live v cwd)
    (hnul : 0 ∉ path) : (queryOf v cwd path parent).Plain v := by
  rcases path with _ | ⟨c, _⟩
  · exact ⟨hcwd, hnul, fun h => absurd h (O.bare _)⟩
  rw [queryOf]
  split
  · exact ⟨N.root.live, fun h => hnul (mem_cons_of_mem c h), fun h => absurd h (O.bare _)⟩
  · exact ⟨hcwd, hnul, fun h => absurd h (O.bare _)⟩

theorem OneTree.step {m : Make} (h : Make.step v m = some w) : NamesOk w ∧ OneTree w := by
  obtain ⟨hok, h⟩ := ite_none_right_eq_some.1 h
  obtain ⟨hcwd, -, hnul, hshort, hnew⟩ := hok
  obtain ⟨⟨r, w'⟩, hcall, rfl⟩ := map_eq_some_iff.1 h
  have hfits : NewPath v m.path := ⟨hshort, fun _ a ha => O.aboveOf_eq ha ▸ some_ne_none _⟩
  obtain ⟨N', -, hone⟩ := N.makeCall hfits hnul (O.plain N (isSome_iff_exists.1 hcwd) hnul) hnew
    (toOption_eq_some.1 hcall)
  exact ⟨N', hone O⟩

end OneTree

/-- **Path resolution.**  In every file system that was built from `vfs_init` by `vfs_create`,
`vfs_mkdir` and `vfs_mknod`, `vfs_lookup_at` returns what the walk along the components of the path
arrives at. Lookups leave everything as it was, so that after any number of them it returns the same
again. -/
theorem lookup_eq_walk {new : Fresh} {chardevs blockdevs : BitVec 64 → Bool} {ms : List Make}
    {v : Vfs} (hd : new.dirent ≠ 0) (hi : new.inode ≠ 0)
    (hrun : run Make.step (vfsInit new chardevs blockdevs) ms = some v) {q : Query} (hq : q.Ok v)
    {others : List Query} (hothers : ∀ q' ∈ others, q'.Ok v) :
    q.call v = .ok (lookupStatus (q.walk v), v) ∧
      ∃ w, lookups v others = .ok w ∧ q.call w = .ok (lookupStatus (q.walk v), w) := by
  obtain ⟨N, O⟩ :=
    run_invariant (I := fun v => NamesOk v ∧ OneTree v) (fun v m w ⟨N, O⟩ h => O.step N h)
    ⟨namesOk_vfsInit hd hi chardevs blockdevs, oneTree_vfsInit new chardevs blockdevs⟩ hrun
  exact ⟨O.call N hq, v, O.lookups N hothers, O.call N hq⟩

/-- `mkdir("a")` and `creat("a/b/")`, with memory for each. -/
def someEntries : List Make :=
  [⟨.mkdir 0o755, 0x2000, [0x61], ⟨0x3000, 0x4000⟩⟩,
    ⟨.create 0o644, 0x2000, [0x61, slash, 0x62, slash], ⟨0x5000, 0x6000⟩⟩]

/-- `/a//../a/./b` -/
def someQuery :
    Query := ⟨0x2000, [slash, 0x61, slash, slash, dot, dot, slash, 0x61, slash, dot, slash, 0x62],
    false⟩

/-- There `/a//../a/./b` is the second entry, also after a lookup of its directory. -/
theorem lookup_eq_walk_dotdot :
    ∃ v, run Make.step (vfsInit ⟨0x1000, 0x2000⟩ (fun _ => false) fun _ => false)
      someEntries = some v ∧ someQuery.call v = .ok (.ok 0x6000, v) ∧
    ∃ w, lookups v [{ someQuery with parent := true }] = .ok w ∧
    someQuery.call w = .ok (.ok 0x6000, w) := by
  obtain ⟨v, hrun, hq, hq', hwalk⟩ : ∃ v, run Make.step
      (vfsInit ⟨0x1000, 0x2000⟩ (fun _ => false) fun _ => false)
        someEntries = some v ∧ someQuery.Ok v ∧ Query.Ok { someQuery with parent := true } v ∧
      (someQuery.walk v).toOption = some 0x6000 := by
    decide +kernel
  have := lookup_eq_walk (by decide) (by decide) hrun hq
    (show ∀ q ∈ [{ someQuery with parent := true }], q.Ok v by simpa using hq')
  rw [toOption_eq_some.1 hwalk] at this
  exact ⟨v, hrun, this⟩

end Monolith.Fs
