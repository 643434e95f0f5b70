import Monolith.Lib.Path

/-!
# Paths across mounts

Directories on which something can be mounted: who looks for a name in such a place, or ends there,
sees what is mounted on it, while `..` is taken from the place itself.  `Space.walk` is what a path
names.

One more mount changes what is seen at one place `t` and shows a root `r` there (`Space.Mounts`).

* `Mounts.walk_of_outside`: a path that does not look into `t` names what it named, unless it climbs
  out of `r` and the place above `r` is another one now.
* `Mounts.walk_target`: a path that ends at `t` names `r` now.
* `Mounts.walk_above`: such a path with `..` behind it names what it named.
-/

namespace Path

open List Option Except

variable {α ι : Type} [DecidableEq α]

/-- Places, the names in them and what is seen at them. -/
structure Space (α ι : Type) where
  isDir : ι → Bool
  /-- The place above, if there is one. -/
  up : ι → Option ι
  child : ι → List α → Option ι
  /-- What is mounted on a place, or the place itself. -/
  seen : ι → Option ι

/-- What a walk does at a place: it looks into it, or goes above it. -/
inductive Visit (ι : Type) where
  | into (a : ι)
  | above (a : ι)
  deriving DecidableEq

variable {P : ι → Prop} {name : List α} {way : List (Visit ι)}

namespace Space

variable (s : Space α ι) (dots : Dots α) (parent : Bool)

/-- One component. -/
def step (cur : ι) (name : List α) : Option ι :=
  if name = dots.here then some cur
  else if name = dots.above then s.up cur
  else (s.seen cur).bind fun dir => s.child dir name

/-- The end of a walk. -/
def arrive (cur : ι) : Except Failure ι :=
  match s.seen cur with
  | some a => .ok a
  | none => .error .missing

/-- What the components name, from `cur` on.  With `parent` the walk stops before the last one. -/
def walk : ι → List (List α) → Except Failure ι
  | cur, [] => s.arrive cur
  | cur, name :: names =>
    if s.isDir cur = false then .error .notDir
    else if parent = true ∧ names = [] then s.arrive cur
    else
      match s.step dots cur name with
      | none => .error .missing
      | some next => walk next names

/-- What one component does at `cur`. -/
def visit (cur : ι) (name : List α) : List (Visit ι) :=
  if name = dots.here then [] else if name = dots.above then [.above cur] else [.into cur]

/-- What the walk does, up to its end. -/
def visits : ι → List (List α) → List (Visit ι)
  | cur, [] => [.into cur]
  | cur, name :: names =>
    if s.isDir cur = false then []
    else if parent = true ∧ names = [] then [.into cur]
    else visit dots cur name ++
      match s.step dots cur name with
      | none => []
      | some next => visits next names

/-- The place at which the components end, before what is mounted there is looked at. -/
def place : ι → List (List α) → Option ι
  | cur, [] => some cur
  | cur, name :: names =>
    if s.isDir cur = false then none else (s.step dots cur name).bind fun next => place next names

section Walk

variable {s dots parent} {cur a t : ι} {names more : List (List α)}

/-- A walk ends in what is seen at a place, and the place has what every component keeps. -/
theorem walk_eq_ok (hstep : ∀ cur next name, P cur → s.step dots cur name = some next → P next)
    (hcur : P cur) (h : s.walk dots parent cur names = .ok a) : ∃ b, P b ∧ s.seen b = some a := by
  have harrive cur (hcur : P cur) (h : s.arrive cur = .ok a) : ∃ b, P b ∧ s.seen b = some a := by
    rw [arrive] at h
    split at h
    · rename_i b hb
      rw [ok.injEq] at h
      exact ⟨cur, hcur, h ▸ hb⟩
    · cases h
  induction names generalizing cur with
  | nil => exact harrive cur hcur h
  | cons name names ih =>
    rw [walk] at h
    split at h
    · cases h
    split at h
    · exact harrive cur hcur h
    split at h
    · cases h
    · rename_i next hnext
      exact ih (hstep cur next name hcur hnext) h

/-- A walk over all components ends in what is seen at their place. -/
theorem place_of_walk (h : s.walk dots false cur names = .ok a) :
    ∃ b, s.place dots cur names = some b ∧ s.seen b = some a := by
  induction names generalizing cur with
  | nil =>
    rw [walk, arrive] at h
    split at h
    · rename_i b hb
      rw [ok.injEq] at h
      exact ⟨cur, rfl, h ▸ hb⟩
    · cases h
  | cons name names ih =>
    rw [walk] at h
    rw [place]
    split at h
    · cases h
    rename_i hdir
    rw [if_neg hdir]
    rw [if_neg fun hlast => Bool.false_ne_true hlast.1] at h
    split at h
    · cases h
    rename_i next hnext
    obtain ⟨b, hb, hseen⟩ := ih h
    exact ⟨b, by rw [hnext]; exact hb, hseen⟩

/-- The walk to the place of the last component ends in what is seen at a directory. -/
theorem walk_parent_eq_ok (hstep : ∀ cur next name, P cur → s.step dots cur name = some next →
    P next)
    (hcur : P cur) (hnames : names ≠ []) (h : s.walk dots true cur names = .ok a) :
    ∃ b, P b ∧ s.isDir b = true ∧ s.seen b = some a := by
  induction names generalizing cur with
  | nil => exact absurd rfl hnames
  | cons name names ih =>
    rw [walk] at h
    split at h
    · cases h
    rename_i hdir
    split at h
    · rw [arrive] at h
      split at h
      · rename_i b hb
        rw [ok.injEq] at h
        exact ⟨cur, hcur, Bool.not_eq_false _ ▸ hdir, h ▸ hb⟩
      · cases h
    · rename_i hlast
      split at h
      · cases h
      · rename_i next hnext
        exact ih (hstep cur next name hcur hnext) (fun hnil => hlast ⟨rfl, hnil⟩) h

/-- Where one component of a directory leads nowhere, it is not the directory itself and no child of
what is seen there. -/
theorem walk_name_eq_error {e : Failure} {dir : ι} (hdir : s.isDir cur = true)
    (hseen : s.seen cur = some dir) (habove : name ≠ dots.above)
    (hall : ∀ next, s.step dots cur name = some next → ∃ b, s.seen next = some b)
    (h : s.walk dots false cur [name] = .error e) : name ≠ dots.here ∧ s.child dir name = none := by
  rw [walk, hdir] at h
  have hstep : s.step dots cur name = none := by
    rcases hs : s.step dots cur name with _ | next
    · rfl
    obtain ⟨b, hb⟩ := hall next hs
    rw [hs] at h
    simp [walk, arrive, hb] at h
  by_cases hhere : name = dots.here
  · simp [step, hhere] at hstep
  · rw [step, if_neg hhere, if_neg habove, hseen] at hstep
    exact ⟨hhere, hstep⟩

/-- **Where every place is seen itself**, the walk is that in a tree. -/
theorem walk_eq_tree {t : Tree α ι}
    (hstep : ∀ cur next name, P cur → s.step dots cur name = some next → P next)
    (hdir : s.isDir = t.isDir) (hchild : s.child = t.child) (hseen : ∀ a, s.seen a = some a)
    (hup : ∀ a, P a → s.up a = some (t.up a)) (hcur : P cur) :
    s.walk dots parent cur names = t.walk dots parent cur names := by
  induction names generalizing cur with
  | nil => rw [walk, Tree.walk, arrive, hseen]
  | cons name names ih =>
    have hname : s.step dots cur name = t.step dots cur name := by
      rw [step, Tree.step, hup cur hcur, hseen, hchild, bind_some]
    rw [walk, Tree.walk, arrive, hseen, hdir, hname]
    rcases hnext : t.step dots cur name with _ | next
    · rfl
    dsimp only
    rw [ih (hstep cur next name hcur (hname.trans hnext))]

theorem walk_append (h : s.place dots cur names = some t) (hmore : more ≠ [] ∨ parent = false) :
    s.walk dots parent cur (names ++ more) = s.walk dots parent t more := by
  induction names generalizing cur with
  | nil =>
    rw [place, some_inj] at h
    rw [h, nil_append]
  | cons name names ih =>
    rw [place] at h
    split at h
    · cases h
    rename_i hdir
    obtain ⟨next, hnext, h⟩ := bind_eq_some_iff.1 h
    have hlast : ¬(parent = true ∧ names ++ more = []) := by
      rintro ⟨hparent, hnil⟩
      rcases hmore with hmore | hmore
      · exact hmore (append_eq_nil_iff.1 hnil).2
      · simp [hmore] at hparent
    rw [cons_append, walk, if_neg hdir, if_neg hlast, hnext]
    exact ih h

theorem walk_dotdot (hdots : dots.above ≠ dots.here) : s.walk dots false cur [dots.above] =
    if s.isDir cur = false then .error .notDir
    else
      match s.up cur with
      | none => .error .missing
      | some next => s.arrive next := by
  simp [walk, step, hdots]

/-- The last thing that a walk to a place does is to look into it. -/
theorem visits_of_place (h : s.place dots cur names = some t) :
    ∃ way, s.visits dots false cur names = way ++ [.into t] := by
  induction names generalizing cur with
  | nil =>
    rw [place, some_inj] at h
    exact ⟨[], by rw [visits, h, nil_append]⟩
  | cons name names ih =>
    rw [place] at h
    split at h
    · cases h
    rename_i hdir
    obtain ⟨next, hnext, h⟩ := bind_eq_some_iff.1 h
    obtain ⟨way, hway⟩ := ih h
    refine ⟨visit dots cur name ++ way, ?_⟩
    rw [visits, if_neg hdir, hnext]
    simp [hway, append_assoc]

end Walk

/-! ## One more mount -/

/-- `s'` is `s`, among the places of `live`, with `r` mounted on `t`. -/
structure Mounts (s s' : Space α ι) (live : ι → Prop) (t r : ι) : Prop where
  isDir : ∀ a, live a → s'.isDir a = s.isDir a
  child : ∀ a name, live a → s'.child a name = s.child a name
  up : ∀ a, live a → a ≠ r → s'.up a = s.up a
  seen : ∀ a, live a → a ≠ t → s'.seen a = s.seen a
  self : s'.seen t = some r
  live_up : ∀ a b, live a → s.up a = some b → live b
  live_child : ∀ a name b, live a → s.child a name = some b → live b
  live_seen : ∀ a b, live a → s.seen a = some b → live b

namespace Mounts

variable {s dots parent} {s' : Space α ι} {live : ι → Prop} {t r cur : ι} {names : List (List α)}
  (M : Mounts s s' live t r)

include M

theorem live_step {next : ι} (hcur : live cur) (h : s.step dots cur name = some next) :
    live next := by
  rw [step] at h
  split at h
  · exact some_inj.1 h ▸ hcur
  split at h
  · exact M.live_up cur next hcur h
  · obtain ⟨dir, hdir, h⟩ := bind_eq_some_iff.1 h
    exact M.live_child dir name next (M.live_seen cur dir hcur hdir) h

theorem step_eq (hcur : live cur) (ht : Visit.into t ∉ visit dots cur name)
    (hr : live r → Visit.above r ∈ visit dots cur name → s'.up r = s.up r) :
    s'.step dots cur name = s.step dots cur name := by
  rw [visit] at ht hr
  rw [step, step]
  by_cases hhere : name = dots.here
  · rw [if_pos hhere, if_pos hhere]
  rw [if_neg hhere] at ht hr ⊢
  rw [if_neg hhere]
  by_cases habove : name = dots.above
  · rw [if_pos habove] at hr ⊢
    rw [if_pos habove]
    rcases eq_or_ne cur r with rfl | hcr
    · exact hr hcur mem_cons_self
    · exact M.up cur hcur hcr
  · rw [if_neg habove] at ht ⊢
    rw [if_neg habove, M.seen cur hcur (by rintro rfl; exact ht mem_cons_self)]
    cases hseen : s.seen cur with
    | none => rfl
    | some dir => exact M.child dir name (M.live_seen cur dir hcur hseen)

omit [DecidableEq α] in
theorem arrive_eq {a : ι} (ha : live a) (hne : a ≠ t) : s'.arrive a = s.arrive a := by
  rw [arrive, arrive, M.seen a ha hne]

/-- **A path outside** names what it named. -/
theorem walk_of_outside (hcur : live cur) (ht : Visit.into t ∉ s.visits dots parent cur names)
    (hr : live r → Visit.above r ∈ s.visits dots parent cur names → s'.up r = s.up r) :
    s'.walk dots parent cur names = s.walk dots parent cur names := by
  induction names generalizing cur with
  | nil =>
    refine M.arrive_eq hcur ?_
    rintro rfl
    exact ht mem_cons_self
  | cons name names ih =>
    rw [visits] at ht hr
    rw [walk, walk, M.isDir cur hcur]
    by_cases hdir : s.isDir cur = false
    · rw [if_pos hdir, if_pos hdir]
    rw [if_neg hdir] at ht hr ⊢
    rw [if_neg hdir]
    by_cases hlast : parent = true ∧ names = []
    · rw [if_pos hlast] at ht ⊢
      rw [if_pos hlast]
      refine M.arrive_eq hcur ?_
      rintro rfl
      exact ht mem_cons_self
    · rw [if_neg hlast, mem_append, not_or] at ht
      rw [if_neg hlast] at hr
      rw [if_neg hlast, if_neg hlast, M.step_eq hcur ht.1 fun hlive hin =>
        hr hlive (mem_append_left _ hin)]
      rcases hstep : s.step dots cur name with _ | _
      · rfl
      rw [hstep] at ht hr
      exact ih (M.live_step hcur hstep) ht.2 fun hlive hin => hr hlive (mem_append_right _ hin)

/-- A path to `t` that does not look into `t` before is still one. -/
theorem place_eq (hcur : live cur) (h : s.place dots cur names = some t)
    (hway : s.visits dots false cur names = way ++ [.into t]) (ht : Visit.into t ∉ way)
    (hr : live r → Visit.above r ∈ way → s'.up r = s.up r) : s'.place dots cur names = some t := by
  induction names generalizing cur way with
  | nil => exact h
  | cons name names ih =>
    rw [place] at h ⊢
    rw [M.isDir cur hcur]
    split at h
    · cases h
    rename_i hdir
    obtain ⟨next, hnext, h⟩ := bind_eq_some_iff.1 h
    obtain ⟨rest, hrest⟩ := visits_of_place h
    rw [visits, if_neg hdir, hnext] at hway
    dsimp only at hway
    rw [hrest, ← append_assoc] at hway
    obtain rfl := append_cancel_right hway
    rw [mem_append, not_or] at ht
    rw [if_neg hdir, M.step_eq hcur ht.1 fun hlive hin => hr hlive (mem_append_left _ hin), hnext]
    exact ih (M.live_step hcur hnext) h hrest ht.2 fun hlive hin =>
      hr hlive (mem_append_right _ hin)

/-- **A path to `t`** names `r` now. -/
theorem walk_target (hcur : live cur) (h : s.place dots cur names = some t)
    (hway : s.visits dots false cur names = way ++ [.into t]) (ht : Visit.into t ∉ way)
    (hr : live r → Visit.above r ∈ way → s'.up r = s.up r) :
    s'.walk dots false cur names = .ok r := by
  rw [← append_nil names, walk_append (M.place_eq hcur h hway ht hr) (.inr rfl), walk, arrive,
    M.self]

/-- **Above `t`** nothing changes. -/
theorem walk_above (hdots : dots.above ≠ dots.here) (hcur : live cur) (hlive : live t)
    (h : s.place dots cur names = some t) (hway : s.visits dots false cur names = way ++ [.into t])
    (ht : Visit.into t ∉ way) (hr : live r → Visit.above r ∈ way → s'.up r = s.up r) (htr : t ≠ r)
    (hup : s.up t ≠ some t) :
    s'.walk dots false cur (names ++ [dots.above]) = s.walk dots false cur
    (names ++ [dots.above]) := by
  rw [walk_append (M.place_eq hcur h hway ht hr) (.inl (cons_ne_nil _ _)),
    walk_append h (.inl (cons_ne_nil _ _)), walk_dotdot hdots, walk_dotdot hdots, M.isDir t hlive,
    M.up t hlive htr]
  rcases hu : s.up t with _ | u
  · rfl
  have hne : u ≠ t := by
    rintro rfl
    exact hup hu
  dsimp only
  rw [M.arrive_eq (M.live_up t u hlive hu) hne]

end Mounts

end Space

end Path
