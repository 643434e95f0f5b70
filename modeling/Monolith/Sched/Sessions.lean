import Monolith.Sched.Process

/-!
# Process groups, sessions and terminals

The ids of a task are copied at `sys_spawn` and changed by `sys_setsid` and `sys_setpgid`, which
look at their caller and at the task whose pid is the group.

* `Ids` is what the pids are good for: they are unique, and whatever is stored in a group or a
  session was given out before, so a new pid is no group and no session yet.
* `Grouped` is about groups: two live tasks in a group are in one session, which is also that of the
  task with the group's pid.  The second part is what `sys_setpgid` checks, and `sys_setsid` does
  not keep it where its caller is the pid of a group that others are in.
* `Controlled` is about terminals, which store their session and are stored in the tasks of it.

`groups_within_sessions` and `controlling_terminals` are the results; `group_in_two_sessions` is a
run with a call of `sys_setsid` that the first one excludes.
-/

namespace Monolith.Process

open Function Transition Option Prod

/-! ## What `task_zombify` leaves -/

section Zombify

variable {s s' : System} {t p : Ptr}

/-- A task that has not exited. -/
def System.Alive (s : System) (p : Ptr) : Prop := ∃ x, s.task p = some x ∧ x.status ≠ .zombie

theorem alive_congr (h : ∀ p, (s'.task p).map Task.status = (s.task p).map Task.status) :
    s'.Alive = s.Alive := by
  have hdef : ∀ s : System, s.Alive = fun p => ∃ k, (s.task p).map Task.status = some k ∧
      k ≠ .zombie := by
    intro s
    funext p
    refine propext ⟨?_, ?_⟩
    · rintro ⟨x, hx, hne⟩
      exact ⟨x.status, by rw [hx, map_some], hne⟩
    · rintro ⟨k, hk, hne⟩
      obtain ⟨x, hx, rfl⟩ := map_eq_some_iff.1 hk
      exact ⟨x, hx, hne⟩
  rw [hdef, hdef]
  simp [h]

/-- But for the status of `t`, nothing else changes than what `dropTty` changes. -/
theorem taskZombify_tty {x : Task} (hx : s.task t = some x) (h : taskZombify s t = some s') :
    s'.tty = (dropTty s x).tty ∧
    ∀ p, (s'.task p).map Task.tty = ((dropTty s x).task p).map Task.tty := by
  obtain ⟨y, u, hy, hu, rfl⟩ := taskZombify_eq_some.1 h
  rw [hx] at hy
  cases hy
  have hkin := adoptAll_kin hu
  refine ⟨hkin.tty, fun p => ?_⟩
  have hmod : ∀ p,
      ((u.modify t fun x => { x with canReap := true, status := .zombie }).task p).map Task.tty =
      (u.task p).map Task.tty := map_modify fun _ => rfl
  exact (hmod p).trans (map_comp_eq (g := Task.orphan) Task.tty (hkin.task p))

theorem taskZombify_alive (h : taskZombify s t = some s') : s'.Alive p ↔ p ≠ t ∧ s.Alive p := by
  obtain ⟨x, u, hx, hu, rfl⟩ := taskZombify_eq_some.1 h
  by_cases hp : p = t
  · refine iff_of_false ?_ fun hand => hand.1 hp
    rintro ⟨y, hy, hstatus⟩
    rw [hp, modify_self] at hy
    obtain ⟨z, -, rfl⟩ := map_eq_some_iff.1 hy
    exact hstatus rfl
  · have hstatus : ∀ p, (u.task p).map Task.status = (s.task p).map Task.status := fun p =>
      (map_comp_eq (g := Task.orphan) Task.status ((adoptAll_kin hu).task p)).trans
      (map_dropTty (fun _ => rfl) x p)
    rw [and_iff_right hp, System.Alive, modify_of_ne hp, ← alive_congr hstatus]
    rfl

end Zombify

/-! ## The pids -/

/-- What the ids of a task are good for. -/
structure TaskIds (s : System) (p : Ptr) (x : Task) : Prop where
  tgid : x.tgid = x.pid
  nonzero : x.pid ≠ 0 ∧ x.sid ≠ 0
  below : s.nextPid ≠ 0 → x.pid < s.nextPid ∧ x.pgid < s.nextPid ∧ x.sid < s.nextPid
  /-- A session leader is the leader of its group. -/
  leads : x.sid = x.tgid → x.pgid = x.tgid
  listed : p ∈ s.taskList

/-- The pids are unique, and every group and session is a pid that has been given out. -/
structure Ids (s : System) : Prop where
  task : ∀ p x, s.task p = some x → TaskIds s p x
  inj : ∀ p q x y, s.task p = some x → s.task q = some y → x.pid = y.pid → p = q

variable {y : Task} {f : Task → Task} {c : Ptr} {q : Ptr} {setPgid : Bool}

section Pids

variable {s s' : System} {t p new : Ptr} {x : Task}

theorem SameIds.of_task (h : SameIds s s') {x' : Task} (hx' : s'.task p = some x') :
    ∃ x, s.task p = some x ∧ x'.pid = x.pid ∧ x'.tgid = x.tgid ∧ x'.pgid = x.pgid ∧
    x'.sid = x.sid := by
  have htask := h.task p
  rw [hx'] at htask
  obtain ⟨x, hx, heq⟩ := map_eq_some_iff.1 htask.symm
  simp only [Task.ids, mk.injEq] at heq
  exact ⟨x, hx, heq.1.symm, heq.2.1.symm, heq.2.2.1.symm, heq.2.2.2.1.symm⟩

theorem Ids.of_sameIds (h : Ids s) (hs : SameIds s s') : Ids s' := by
  refine ⟨fun p x' hx' => ?_, fun p q x' y' hx' hy' heq => ?_⟩
  · obtain ⟨x, hx, hpid, htgid, hpgid, hsid⟩ := hs.of_task hx'
    obtain ⟨h1, h2, h3, h4, h5⟩ := h.task p x hx
    rw [← hpid, ← htgid, ← hpgid, ← hsid, ← hs.nextPid, ← hs.taskList] at *
    exact ⟨h1, h2, h3, h4, h5⟩
  · obtain ⟨x, hx, hxpid, -⟩ := hs.of_task hx'
    obtain ⟨y, hy, hypid, -⟩ := hs.of_task hy'
    exact h.inj p q x y hx hy (hxpid.symm.trans (heq.trans hypid))

theorem spawnChild_cases (hy : (spawnChild s t new setPgid x).task q = some y) :
    (q = new ∧ y = { newTask s.nextPid s.created with
      parent := some t, pgid := if setPgid then s.nextPid else x.pgid, sid := x.sid }) ∨
    (q ≠ new ∧ s.task q = some y) := by
  by_cases hq : q = new
  · subst hq
    rw [spawnChild_self, some_inj] at hy
    exact .inl ⟨rfl, hy.symm⟩
  · rw [spawnChild_of_ne hq] at hy
    exact .inr ⟨hq, hy⟩

/-- A new pid is greater than those before, unless they have run out. -/
theorem lt_add_one {n : Pid} (hn : n + 1 ≠ 0) {a : Pid} (ha : a ≤ n) : a < n + 1 := by
  have hmax : n.toNat + 1 < 2 ^ 32 := by
    refine lt_of_le_of_ne n.isLt fun heq => hn ?_
    apply BitVec.eq_of_toNat_eq
    simp [BitVec.toNat_add, heq]
  rw [BitVec.lt_def, BitVec.toNat_add, show (1 : Pid).toNat = 1 from rfl, Nat.mod_eq_of_lt hmax]
  exact Nat.lt_succ_of_le (BitVec.le_def.1 ha)

theorem Ids.spawnChild (h : Ids s) (hx : s.task t = some x) (hpid : s.nextPid ≠ 0)
    (setPgid : Bool) : Ids (spawnChild s t new setPgid x) := by
  obtain ⟨-, hpgid, hsid⟩ := (h.task t x hx).below hpid
  have hlist : (Process.spawnChild s t new setPgid x).taskList = s.taskList ++ [new] := if_neg hpid
  have hlt : s.nextPid + 1 ≠ 0 → ∀ {a : Pid}, a < s.nextPid → a < s.nextPid + 1 :=
    fun hne _ ha => lt_add_one hne (BitVec.le_of_lt ha)
  have hself : s.nextPid + 1 ≠ 0 → s.nextPid < s.nextPid + 1 :=
    fun hne => lt_add_one hne (BitVec.le_refl _)
  refine ⟨fun p y hy => ?_, fun p q y z hy hz heq => ?_⟩
  · rcases spawnChild_cases hy with ⟨rfl, rfl⟩ | ⟨-, hy⟩
    · refine ⟨rfl, ⟨hpid, (h.task t x hx).nonzero.2⟩, fun hne => ⟨hself hne, ?_, hlt hne hsid⟩,
        fun hlead => ?_, ?_⟩
      · cases setPgid with
        | true => exact hself hne
        | false => exact hlt hne hpgid
      · exact absurd hsid (hlead ▸ BitVec.lt_irrefl _)
      · rw [hlist]
        exact List.mem_concat_self
    · obtain ⟨h1, h2, h3, h4, h5⟩ := h.task p y hy
      obtain ⟨hyp, hyg, hys⟩ := h3 hpid
      exact ⟨h1, h2, fun hne => ⟨hlt hne hyp, hlt hne hyg, hlt hne hys⟩, h4,
        hlist ▸ List.mem_append_left _ h5⟩
  · rcases spawnChild_cases hy with ⟨hp, rfl⟩ | ⟨-, hy⟩ <;>
      rcases spawnChild_cases hz with ⟨hq, rfl⟩ | ⟨-, hz⟩
    · rw [hp, hq]
    · exact absurd ((h.task q z hz).below hpid).1 (heq ▸ BitVec.lt_irrefl _)
    · exact absurd ((h.task p y hy).below hpid).1 (heq ▸ BitVec.lt_irrefl _)
    · exact h.inj p q y z hy hz heq

theorem modify_cases (hx : s.task t = some x) (hy : (s.modify t f).task p = some y) :
    (p = t ∧ y = f x) ∨ (p ≠ t ∧ s.task p = some y) := by
  by_cases hp : p = t
  · rw [hp, modify_self, hx, map_some, some_inj] at hy
    exact .inl ⟨hp, hy.symm⟩
  · rw [modify_of_ne hp] at hy
    exact .inr ⟨hp, hy⟩

theorem Ids.modify (h : Ids s) (hx : s.task t = some x) (hpid : (f x).pid = x.pid)
    (hids : TaskIds s t (f x)) : Ids (s.modify t f) := by
  have hpids p y (hy : (s.modify t f).task p = some y) : ∃ z, s.task p = some z ∧
      y.pid = z.pid := by
    rcases modify_cases hx hy with ⟨rfl, rfl⟩ | ⟨-, hy⟩
    · exact ⟨x, hx, hpid⟩
    · exact ⟨y, hy, rfl⟩
  refine ⟨fun p y hy => ?_, fun p q y z hy hz heq => ?_⟩
  · rcases modify_cases hx hy with ⟨rfl, rfl⟩ | ⟨-, hy⟩
    · exact ⟨hids.tgid, hids.nonzero, hids.below, hids.leads, hids.listed⟩
    · obtain ⟨h1, h2, h3, h4, h5⟩ := h.task p y hy
      exact ⟨h1, h2, h3, h4, h5⟩
  · obtain ⟨y', hy', hye⟩ := hpids p y hy
    obtain ⟨z', hz', hze⟩ := hpids q z hz
    exact h.inj p q y' z' hy' hz' (hye.symm.trans (heq.trans hze))

theorem Ids.destroy (h : Ids s) (hother : ∀ p y, s'.task p = some y → s.task p = some y ∧ p ≠ c)
    (hlist : s'.taskList = s.taskList.erase c) (hnext : s'.nextPid = s.nextPid) : Ids s' where
  task p y hy := by
    obtain ⟨hy, hp⟩ := hother p y hy
    obtain ⟨h1, h2, h3, h4, h5⟩ := h.task p y hy
    exact ⟨h1, h2, hnext ▸ h3, h4, hlist ▸ (List.mem_erase_of_ne hp).2 h5⟩
  inj p q y z hy hz := h.inj p q y z (hother p y hy).1 (hother q z hz).1

end Pids

/-! ## What a step can do -/

section Steps

variable {s s' : System} {t p : Ptr} {x : Task} {a : Act}

/-- The group is the pid of a task in the session of the caller. -/
theorem setpgid_cases (h : Ids s) (hx : s.task t = some x) (pgid : Pid) : setpgid s pgid x = x ∨
    (x.tgid ≠ x.sid ∧ ∃ q y, s.task q = some y ∧ y.sid = x.sid ∧
    setpgid s pgid x = { x with pgid := y.pid }) := by
  rw [setpgid]
  split
  · exact .inl rfl
  rename_i hne
  split
  · exact .inr ⟨hne, t, x, hx, rfl, by rw [(h.task t x hx).tgid]⟩
  split
  · exact .inl rfl
  rename_i leader hfind
  split
  · rename_i hsid
    obtain ⟨q, -, hq⟩ := List.mem_filterMap.1 (List.mem_of_find?_eq_some hfind)
    have hfound := List.find?_some hfind
    have hpid : leader.pid = pgid := eq_of_beq hfound
    exact .inr ⟨hne, q, leader, hq, hsid, by rw [hpid]⟩
  · exact .inl rfl

theorem modify_eq (hx : s.task t = some x) (f : Task → Task) :
    s.modify t f = { s with task := update s.task t (some (f x)) } := by
  rw [System.modify, hx, map_some]

theorem modify_eq_self (hx : s.task t = some x) (h : f x = x) : s.modify t f = s := by
  rw [modify_eq hx, h, ← hx, update_eq_self]

theorem sysWaitpid_cases {status : BitVec 64} {r : WaitResult}
    (h : sysWaitpid s t status = some (r, s')) :
    s' = s ∨ ∃ c x, s.task c = some x ∧ x.status = .zombie ∧ s'.taskList = s.taskList.erase c ∧
      s'.nextPid = s.nextPid ∧ s'.tty = s.tty ∧ s'.task = update s.task c none := by
  rw [sysWaitpid] at h
  split at h
  · exact .inl (mk.inj (some_inj.1 h)).2.symm
  obtain ⟨found, hscan, h⟩ := bind_eq_some_iff.1 h
  rcases found with _ | c
  · exact .inl (mk.inj (some_inj.1 h)).2.symm
  obtain ⟨x, hx, hreap⟩ := (any_eq_true _ _).1 (scanChildren_some hscan)
  rw [elim_some, reapChild, hx, bind_eq_bind, bind_some, pure_def, some_inj] at h
  obtain ⟨-, rfl⟩ := mk.inj h
  exact .inr ⟨c, x, hx, eq_of_beq (Bool.and_eq_true_iff.1 hreap).1, rfl, rfl, rfl, rfl⟩

/-- What is left of a call that has been made, by a task with the fields `x`. -/
def Done (s : System) (t : Ptr) (x : Task) (s' : System) : Call → Prop
  | .spawn new setPgid true => s.task new = none ∧
    s' = (spawnChild s t new setPgid x).modify new fun proc => { proc with tty := x.tty }
  | .spawn new setPgid false => s.task new = none ∧
    taskZombify (spawnChild s t new setPgid x) new = some s'
  | .exit status signal => taskZombify (s.modify t fun x =>
    { x with returnStatus := status, returnSignal := signal, status := .zombie }) t = some s'
  | .waitpid _ => s' = s ∨ ∃ c x, s.task c = some x ∧ x.status = .zombie ∧
    s'.taskList = s.taskList.erase c ∧
      s'.nextPid = s.nextPid ∧ s'.tty = s.tty ∧ s'.task = update s.task c none
  | .setsid => s' = s ∨ (x.tgid ≠ x.pgid ∧
    s' = s.modify t fun x => { x with pgid := x.tgid, sid := x.tgid, tty := none })
  | .setpgid _ => s' = s ∨ (x.tgid ≠ x.sid ∧ ∃ q y, s.task q = some y ∧ y.sid = x.sid ∧
    s' = s.modify t fun x => { x with pgid := y.pid })
  | .ttyOpen d => s' = s ∨ (x.tty = none ∧ x.sid = x.tgid ∧ (s.tty d).sessionId = 0 ∧
    s' = { s.modify t fun x => { x with tty := some d } with
      tty := update s.tty d ⟨x.sid, x.pgid⟩ })

theorem step_cases (hids : Ids s) (h : s.step a = some s') :
    ∃ x, s.task a.task = some x ∧ x.status = .running ∧ Done s a.task x s' a.call := by
  obtain ⟨x, hx, hrun, h⟩ := System.step_eq_some h
  refine ⟨x, hx, hrun, ?_⟩
  obtain ⟨t, call⟩ := a
  cases call with
  | spawn new setPgid copied =>
    obtain ⟨hnew, h⟩ := ite_none_right_eq_some.1 h
    rw [sysSpawn_eq hx] at h
    cases copied with
    | true => exact ⟨hnew, (some_inj.1 h).symm⟩
    | false => exact ⟨hnew, h⟩
  | exit status signal =>
    rw [System.effect, sysExit, hx, bind_eq_bind, bind_some] at h
    split at h
    · cases h
    · exact h
  | waitpid status =>
    obtain ⟨⟨r, u⟩, hwait, rfl⟩ := map_eq_some_iff.1 h
    exact sysWaitpid_cases hwait
  | setsid =>
    obtain rfl := some.inj h
    by_cases hne : x.tgid = x.pgid
    · exact .inl (modify_eq_self hx (if_pos hne))
    · refine .inr ⟨hne, ?_⟩
      rw [sysSetsid, modify_eq hx, modify_eq hx, setsid, if_neg hne]
  | setpgid pgid =>
    obtain rfl := some.inj h
    rcases setpgid_cases hids hx pgid with heq | ⟨hne, q, y, hy, hsid, heq⟩
    · exact .inl (modify_eq_self hx heq)
    · exact .inr ⟨hne, q, y, hy, hsid, by rw [sysSetpgid, modify_eq hx, modify_eq hx, heq]⟩
  | ttyOpen d =>
    rw [System.effect, ttyOpen, hx, bind_eq_bind, bind_some] at h
    split_ifs at h with hopen
    · exact .inr ⟨hopen.1, eq_of_beq hopen.2.1, hopen.2.2, (some_inj.1 h).symm⟩
    · exact .inl (some_inj.1 h).symm

/-- `next_pid` has not come round to 0, the pid of the kernel's own tasks. -/
def Act.Fresh (s : System) (a : Act) : Prop :=
  match a.call with
  | .spawn _ _ _ => s.nextPid ≠ 0
  | _ => True

theorem task_update_none (htask : s'.task = update s.task c none) (hy : s'.task p = some y) :
    s.task p = some y ∧ p ≠ c :=
  (update_none_eq_some.1 (htask ▸ hy)).symm

theorem Ids.step (h : Ids s) (hC : a.Fresh s) (hstep : s.step a = some s') : Ids s' := by
  obtain ⟨x, hx, -, hdone⟩ := step_cases h hstep
  obtain ⟨t, call⟩ := a
  cases call with
  | spawn new setPgid copied =>
    have hspawn : Ids (Process.spawnChild s t new setPgid x) := h.spawnChild hx hC setPgid
    cases copied with
    | true =>
      obtain ⟨-, rfl⟩ := hdone
      exact hspawn.of_sameIds (modify_sameIds fun _ => rfl)
    | false => exact hspawn.of_sameIds (taskZombify_sameIds hdone.2)
  | exit status signal =>
    have hmod : Ids (s.modify t fun x =>
        { x with returnStatus := status, returnSignal := signal, status := .zombie }) :=
      h.of_sameIds (modify_sameIds fun _ => rfl)
    exact hmod.of_sameIds (taskZombify_sameIds hdone)
  | waitpid status =>
    rcases hdone with rfl | ⟨c, y, -, -, hlist, hnext, -, htask⟩
    · exact h
    · exact h.destroy (fun p z hz => task_update_none htask hz) hlist hnext
  | setsid =>
    obtain ⟨h1, h2, h3, -, h5⟩ := h.task t x hx
    rcases hdone with rfl | ⟨-, rfl⟩
    · exact h
    · have hpid : x.tgid ≠ 0 ∧ (s.nextPid ≠ 0 → x.tgid < s.nextPid) :=
        h1 ▸ ⟨h2.1, fun hne => (h3 hne).1⟩
      exact h.modify hx rfl ⟨h1, ⟨h2.1, hpid.1⟩, fun hne => ⟨(h3 hne).1, hpid.2 hne, hpid.2 hne⟩,
        fun _ => rfl, h5⟩
  | setpgid pgid =>
    obtain ⟨h1, h2, h3, -, h5⟩ := h.task t x hx
    rcases hdone with rfl | ⟨hne, q, y, hy, -, rfl⟩
    · exact h
    · exact h.modify hx rfl
        ⟨h1, h2, fun hnext => ⟨(h3 hnext).1, ((h.task q y hy).below hnext).1, (h3 hnext).2.2⟩,
        fun hlead => absurd hlead.symm hne, h5⟩
  | ttyOpen d =>
    rcases hdone with rfl | ⟨-, -, -, rfl⟩
    · exact h
    · have hids : SameIds s (s.modify t fun x => { x with tty := some d }) :=
        modify_sameIds fun _ => rfl
      exact h.of_sameIds ⟨hids.task, rfl, rfl, rfl, rfl, rfl⟩

theorem ids_boot : Ids boot where
  task p x hx := by
    obtain ⟨rfl, rfl⟩ := boot_task hx
    exact ⟨rfl, by decide, by decide, fun _ => rfl, List.mem_cons_self⟩
  inj p q x y hx hy _ := by rw [(boot_task hx).1, (boot_task hy).1]

theorem alive_modify (hf : ∀ y, (f y).status = y.status) : (s.modify t f).Alive = s.Alive :=
  alive_congr (map_modify hf)

end Steps

/-! ## Groups -/

/-- The live tasks of a group are in one session, and so is the task that the group is named
after. -/
def Grouped (s : System) : Prop :=
  ∀ p q x y, s.task p = some x → s.task q = some y → s.Alive p →
    (y.pid = x.pgid ∨ s.Alive q ∧ y.pgid = x.pgid) → y.sid = x.sid

section Groups

variable {s s' : System} {t p new : Ptr} {x : Task} {a : Act}

theorem Grouped.of_sameIds (h : Grouped s) (hs : SameIds s s')
    (halive : ∀ p, s'.Alive p → s.Alive p) : Grouped s' := by
  intro p q x' y' hx' hy' hp hq
  obtain ⟨x, hx, -, -, hxg, hxs⟩ := hs.of_task hx'
  obtain ⟨y, hy, hyp, -, hyg, hys⟩ := hs.of_task hy'
  rw [hyp, hxg, hyg] at hq
  rw [hxs, hys]
  exact h p q x y hx hy (halive p hp) (hq.imp_right fun hand => ⟨halive q hand.1, hand.2⟩)

theorem Grouped.of_status (h : Grouped s) (hs : SameIds s s')
    (hstatus : ∀ p, (s'.task p).map Task.status = (s.task p).map Task.status) : Grouped s' :=
  h.of_sameIds hs fun _ hp => alive_congr hstatus ▸ hp

theorem alive_spawnChild (hq : q ≠ new) :
    (spawnChild s t new setPgid x).Alive q ↔ s.Alive q := by
  simp [System.Alive, spawnChild_of_ne hq]

/-- A new task is in the group of its parent, or in one that nobody else is in. -/
theorem Grouped.spawnChild (h : Grouped s) (hids : Ids s) (hx : s.task t = some x)
    (hrun : x.status = .running) (hpid : s.nextPid ≠ 0) (setPgid : Bool) :
    Grouped (spawnChild s t new setPgid x) := by
  have ht : s.Alive t := ⟨x, hx, hrun ▸ nofun⟩
  have hnew q y (hy : s.task q = some y) : y.pid ≠ s.nextPid ∧ y.pgid ≠ s.nextPid := by
    obtain ⟨h1, h2, -⟩ := (hids.task q y hy).below hpid
    exact ⟨fun heq => absurd h1 (heq ▸ BitVec.lt_irrefl _), fun heq =>
      absurd h2 (heq ▸ BitVec.lt_irrefl _)⟩
  intro p q y z hy hz hp hq
  rcases spawnChild_cases hy with ⟨-, rfl⟩ | ⟨hpn, hys⟩ <;>
    rcases spawnChild_cases hz with ⟨-, rfl⟩ | ⟨hqn, hzs⟩
  · rfl
  · rw [alive_spawnChild hqn] at hq
    cases setPgid with
    | true => exact (hq.elim (hnew q z hzs).1 fun hand => (hnew q z hzs).2 hand.2).elim
    | false => exact h t q x z hx hzs ht hq
  · rw [alive_spawnChild hpn] at hp
    rcases hq with hname | ⟨-, hgroup⟩
    · exact absurd hname.symm (hnew p y hys).2
    cases setPgid with
    | true => exact absurd hgroup.symm (hnew p y hys).2
    | false => exact (h t p x y hx hys ht (.inr ⟨hp, hgroup.symm⟩)).symm
  · rw [alive_spawnChild hpn] at hp
    rw [alive_spawnChild hqn] at hq
    exact h p q y z hys hzs hp hq

theorem Grouped.modify (h : Grouped s) (hstatus : ∀ y, (f y).status = y.status)
    (hx : s.task t = some x) (hpid : (f x).pid = x.pid)
    (hsame : ∀ q y, q ≠ t → s.task q = some y →
    (y.pid = (f x).pgid ∨ s.Alive q ∧ y.pgid = (f x).pgid) →
      y.sid = (f x).sid) (hname : ∀ q y, q ≠ t → s.task q = some y → s.Alive q → x.pid = y.pgid →
      (f x).sid = y.sid) :
    Grouped (s.modify t f) := by
  intro p q y z hy hz hp hq
  rw [alive_modify hstatus] at hp hq
  rcases modify_cases hx hy with ⟨-, rfl⟩ | ⟨hpt, hy⟩ <;>
    rcases modify_cases hx hz with ⟨-, rfl⟩ | ⟨hqt, hz⟩
  · rfl
  · exact hsame q z hqt hz hq
  · rcases hq with heq | ⟨-, heq⟩
    · exact hname p y hpt hy hp (hpid.symm.trans heq)
    · exact (hsame p y hpt hy (.inr ⟨hp, heq.symm⟩)).symm
  · exact h p q y z hy hz hp hq

/-- Nobody else is in the group that is named after the caller of `sys_setsid`, and the pids have
not run out. -/
def Act.Detached (s : System) (a : Act) : Prop :=
  match a.call with
  | .spawn _ _ _ => s.nextPid ≠ 0
  | .setsid => ∀ x, s.task a.task = some x →
    ∀ q y, q ≠ a.task → s.task q = some y → y.status ≠ .zombie → y.pgid ≠ x.tgid
  | _ => True

theorem Act.Detached.fresh (h : a.Detached s) : a.Fresh s := by
  obtain ⟨t, call⟩ := a
  cases call with
  | spawn new setPgid copied => exact h
  | exit status signal | waitpid status | setsid | setpgid pgid | ttyOpen d => trivial

theorem Grouped.setsid (h : Grouped s) (hids : Ids s) (hx : s.task t = some x)
    (halone : ∀ q y, q ≠ t → s.task q = some y → y.status ≠ .zombie → y.pgid ≠ x.tgid) :
    Grouped (s.modify t fun x => { x with pgid := x.tgid, sid := x.tgid, tty := none }) := by
  have htgid := (hids.task t x hx).tgid
  have hnone : ∀ q y, q ≠ t → s.task q = some y → s.Alive q → y.pgid ≠ x.tgid := by
    rintro q y hqt hy ⟨z, hz, hne⟩
    exact halone q y hqt hy (mem_unique hz hy ▸ hne)
  refine h.modify (fun _ => rfl) hx rfl (fun q y hqt hy hq => ?_) fun q y hqt hy hq hg => ?_
  · rcases hq with hg | ⟨hq, hg⟩
    · exact absurd (hids.inj q t y x hy hx (hg.trans htgid)) hqt
    · exact absurd hg (hnone q y hqt hy hq)
  · exact absurd (hg.symm.trans htgid.symm) (hnone q y hqt hy hq)

theorem Grouped.setpgid (h : Grouped s) (hids : Ids s) (hx : s.task t = some x) {r : Ptr} {z : Task}
    (hz : s.task r = some z) (hsid : z.sid = x.sid) :
    Grouped (s.modify t fun x => { x with pgid := z.pid }) := by
  refine h.modify (fun _ => rfl) hx rfl (fun q y hqt hy hq => ?_) fun q y hqt hy hq hg => ?_
  · rcases hq with hg | ⟨hq, hg⟩
    · rw [hids.inj q r y z hy hz hg] at hy
      exact mem_unique hz hy ▸ hsid
    · exact (h q r y z hy hz hq (.inl hg.symm)).symm.trans hsid
  · exact h q t y x hy hx hq (.inl hg)

theorem Grouped.step (h : Grouped s) (hids : Ids s) (hC : a.Detached s)
    (hstep : s.step a = some s') : Grouped s' := by
  obtain ⟨x, hx, hrun, hdone⟩ := step_cases hids hstep
  obtain ⟨t, call⟩ := a
  cases call with
  | spawn new setPgid copied =>
    have hspawn : Grouped (Process.spawnChild s t new setPgid x) :=
      h.spawnChild hids hx hrun hC setPgid
    cases copied with
    | true =>
      obtain ⟨-, rfl⟩ := hdone
      exact hspawn.of_status (modify_sameIds fun _ => rfl) (map_modify fun _ => rfl)
    | false =>
      exact hspawn.of_sameIds (taskZombify_sameIds hdone.2) fun p hp =>
        ((taskZombify_alive hdone.2).1 hp).2
  | exit status signal =>
    have hmod : Grouped (s.modify t fun x =>
        { x with returnStatus := status, returnSignal := signal, status := .zombie }) := by
      refine h.of_sameIds (modify_sameIds fun _ => rfl) ?_
      rintro p ⟨y, hy, hne⟩
      rcases modify_cases hx hy with ⟨-, rfl⟩ | ⟨-, hy⟩
      · exact absurd rfl hne
      · exact ⟨y, hy, hne⟩
    exact hmod.of_sameIds (taskZombify_sameIds hdone) fun p hp => ((taskZombify_alive hdone).1 hp).2
  | waitpid status =>
    rcases hdone with rfl | ⟨c, y, -, -, -, -, -, htask⟩
    · exact h
    have halive : ∀ p, s'.Alive p → s.Alive p := by
      rintro p ⟨y, hy, hne⟩
      exact ⟨y, (task_update_none htask hy).1, hne⟩
    intro p q y z hy hz hp hq
    exact h p q y z (task_update_none htask hy).1 (task_update_none htask hz).1 (halive p hp)
      (hq.imp_right fun hand => ⟨halive q hand.1, hand.2⟩)
  | setsid =>
    rcases hdone with rfl | ⟨-, rfl⟩
    · exact h
    · exact h.setsid hids hx (hC x hx)
  | setpgid pgid =>
    rcases hdone with rfl | ⟨-, q, y, hy, hsid, rfl⟩
    · exact h
    · exact h.setpgid hids hx hy hsid
  | ttyOpen d =>
    rcases hdone with rfl | ⟨-, -, -, rfl⟩
    · exact h
    have hmod : Grouped (s.modify t fun x => { x with tty := some d }) :=
      h.of_status (modify_sameIds fun _ => rfl) (map_modify fun _ => rfl)
    exact hmod

theorem grouped_boot : Grouped boot :=
  fun p q x y hx hy _ _ => by rw [(boot_task hx).2, (boot_task hy).2]

/-- **Groups do not cross sessions**, in every state that a run reaches in which nobody makes a
session of a group that others are in, before the pids run out. -/
theorem groups_within_sessions {as : List Act}
    (hC : Along System.step (fun s a => a.Detached s) boot as)
    (hrun : run System.step boot as = some s) {p q : Ptr} {x y : Task} (hx : s.task p = some x)
    (hy : s.task q = some y) (hxlive : x.status ≠ .zombie) (hylive : y.status ≠ .zombie)
    (hgroup : x.pgid = y.pgid) : x.sid = y.sid := by
  have h : Ids s ∧ Grouped s := by
    refine run_induction (I := fun s => Ids s ∧ Grouped s) (fun s a s' hs hC hstep => ?_)
      ⟨ids_boot, grouped_boot⟩ hC
      hrun
    exact ⟨hs.1.step hC.fresh hstep, hs.2.step hs.1 hC hstep⟩
  exact (h.2 p q x y hx hy ⟨x, hx, hxlive⟩ (.inr ⟨⟨y, hy, hylive⟩, hgroup.symm⟩)).symm

/-- Init starts a task in a group of its own, which starts another one. -/
def pipeline : List Act := [⟨0, .spawn 1 true true⟩, ⟨1, .spawn 2 false true⟩]

theorem groups_within_sessions_pipeline : ∃ s x y, run System.step boot pipeline = some s ∧
    s.task 1 = some x ∧ s.task 2 = some y ∧ x.pgid = y.pgid ∧ x.sid = y.sid := by
  obtain ⟨s, hs, x, hx, hxs, y, hy, hys, hpgid⟩ : ∃ s, run System.step boot pipeline = some s ∧
      ∃ x, s.task 1 = some x ∧ x.status ≠ .zombie ∧ ∃ y, s.task 2 = some y ∧ y.status ≠ .zombie ∧
        x.pgid = y.pgid := by decide +kernel
  have hC : Along System.step (fun s a => a.Detached s) boot pipeline :=
    .cons rfl (by decide : (2 : Pid) ≠ 0) (.cons rfl (by decide : (3 : Pid) ≠ 0) trivial)
  exact ⟨s, x, y, hs, hx, hy, hpgid, groups_within_sessions hC hs hx hy hxs hys hpgid⟩

/-- **A group in two sessions**: the leader of a group leaves it for another one, and comes back
with `sys_setsid`. -/
theorem group_in_two_sessions :
    (run System.step boot (pipeline ++ [⟨1, .setpgid 1⟩, ⟨1, .setsid⟩])).any fun s =>
    (s.task 1).any fun x => (s.task 2).any fun y =>
      x.status != .zombie && y.status != .zombie && x.pgid == y.pgid && x.sid != y.sid := by
  decide +kernel

end Groups

/-! ## Terminals -/

/-- A terminal with a session is that of its leader, one of the `live` tasks, and the terminal of a
task is that of its session. -/
structure Controlled (s : System) (live : Ptr → Prop) : Prop where
  leader : ∀ d, (s.tty d).sessionId ≠ 0 → ∃ p x, s.task p = some x ∧ live p ∧
    x.sid = (s.tty d).sessionId ∧ x.tgid = (s.tty d).sessionId ∧ x.tty = some d
  owner : ∀ p x d, s.task p = some x → x.tty = some d → x.sid = (s.tty d).sessionId

section Terminals

variable {s s' : System} {live live' : Ptr → Prop} {t p new : Ptr} {x : Task} {a : Act}

namespace Controlled

theorem congr (h : Controlled s live) (hs : SameIds s s') (hsys : s'.tty = s.tty)
    (htty : ∀ p, (s'.task p).map Task.tty = (s.task p).map Task.tty)
    (hlive : ∀ p, live p → live' p) : Controlled s' live' := by
  have hof p x' (hx' : s'.task p = some x') :
      ∃ x, s.task p = some x ∧ x'.tgid = x.tgid ∧ x'.sid = x.sid ∧ x'.tty = x.tty := by
    obtain ⟨x, hx, -, htgid, -, hsid⟩ := hs.of_task hx'
    have hmap := htty p
    rw [hx', hx, map_some, map_some, some_inj] at hmap
    exact ⟨x, hx, htgid, hsid, hmap⟩
  refine ⟨fun d hd => ?_, fun p x' d hx' hd => ?_⟩
  · rw [hsys] at hd ⊢
    obtain ⟨p, x, hx, hp, hsid, htgid, hxd⟩ := h.leader d hd
    have hmap := htty p
    rw [hx] at hmap
    obtain ⟨x', hx', -⟩ := map_eq_some_iff.1 hmap
    obtain ⟨y, hy, htgid', hsid', htty'⟩ := hof p x' hx'
    rw [hx] at hy
    cases hy
    exact ⟨p, x', hx', hlive p hp, hsid'.trans hsid, htgid'.trans htgid, htty'.trans hxd⟩
  · rw [hsys]
    obtain ⟨x, hx, -, hsid, hxd⟩ := hof p x' hx'
    rw [hsid]
    exact h.owner p x d hx (hxd.symm.trans hd)

/-- The end of a task: a session leader takes the terminal from its whole session. -/
theorem dropTty (h : Controlled s live) (hids : Ids s) (hx : s.task t = some x) :
    Controlled (dropTty s x) fun p => p ≠ t ∧ live p := by
  have hself p y (hy : s.task p = some y) (htgid : y.tgid = x.tgid) : p = t := by
    rw [(hids.task p y hy).tgid, (hids.task t x hx).tgid] at htgid
    exact hids.inj p t y x hy hx htgid
  by_cases hlead : x.sid = x.tgid ∧ ∃ d, x.tty = some d
  · obtain ⟨hlead, d, hd⟩ := hlead
    have hsession := h.owner t x d hx hd
    rw [dropTty_leader hlead hd]
    refine ⟨fun e he => ?_, fun p y' e hy' he => ?_⟩
    · -- another terminal is that of another session
      dsimp only at he ⊢
      have hed : e ≠ d := by
        rintro rfl
        exact he (by rw [update_self])
      have hsame : update s.tty d ⟨0, 0⟩ e = s.tty e := update_of_ne hed _ _
      rw [hsame] at he ⊢
      obtain ⟨p, y, hy, hp, hsid, htgid, hye⟩ := h.leader e he
      have hne : y.sid ≠ x.sid := by
        intro heq
        have hpt := hself p y hy (htgid.trans (hsid.symm.trans (heq.trans hlead)))
        rw [hpt, hx, some_inj] at hy
        rw [← hy, hd, some_inj] at hye
        exact hed hye.symm
      have hpt : p ≠ t := by
        rintro rfl
        rw [hx, some_inj] at hy
        exact hne (hy ▸ rfl)
      refine ⟨p, y, ?_, ⟨hpt, hp⟩, hsid, htgid, hye⟩
      rw [hy, map_some, if_neg fun hand => hne hand.2]
    · dsimp only at hy' ⊢
      obtain ⟨y, hy, rfl⟩ := map_eq_some_iff.1 hy'
      have hlisted := (hids.task p y hy).listed
      by_cases hsid : y.sid = x.sid
      · rw [if_pos ⟨hlisted, hsid⟩] at he
        cases he
      rw [if_neg fun hand => hsid hand.2] at he ⊢
      have hed : e ≠ d := by
        rintro rfl
        exact hsid ((h.owner p y e hy he).trans hsession.symm)
      rw [update_of_ne hed]
      exact h.owner p y e hy he
  · have hnone : x.sid = x.tgid → x.tty = none := by
      intro hl
      rw [eq_none_iff_forall_ne_some]
      exact fun d hd => hlead ⟨hl, d, hd⟩
    rw [dropTty_other hnone]
    refine ⟨fun d hd => ?_, h.owner⟩
    obtain ⟨p, y, hy, hp, hsid, htgid, hyd⟩ := h.leader d hd
    refine ⟨p, y, hy, ⟨?_, hp⟩, hsid, htgid, hyd⟩
    rintro rfl
    rw [hx] at hy
    cases hy
    simp [hnone (hsid.trans htgid.symm)] at hyd

theorem zombify (h : Controlled s live) (hids : Ids s) (hz : taskZombify s t = some s') :
    Controlled s' fun p => p ≠ t ∧ live p := by
  obtain ⟨x, -, hx, -, -⟩ := taskZombify_eq_some.1 hz
  obtain ⟨hsys, htty⟩ := taskZombify_tty hx hz
  have hsame := taskZombify_sameIds hz
  have hdrop := dropTty_sameIds s x
  refine (h.dropTty hids hx).congr ⟨fun p => (hsame.task p).trans (hdrop.task p).symm, ?_, ?_, ?_,
    ?_, ?_⟩ hsys htty
    fun _ hp => hp
  · exact hsame.taskList.trans hdrop.taskList.symm
  · exact hsame.nextPid.trans hdrop.nextPid.symm
  · exact hsame.initTask.trans hdrop.initTask.symm
  · exact hsame.created.trans hdrop.created.symm
  · exact hsame.reaped.trans hdrop.reaped.symm

theorem spawnChild (h : Controlled s s.Alive) (hnew : s.task new = none) (setPgid : Bool) :
    Controlled (spawnChild s t new setPgid x) (spawnChild s t new setPgid x).Alive := by
  refine ⟨fun d hd => ?_, fun p y d hy hd => ?_⟩
  · obtain ⟨p, y, hy, hp, hrest⟩ := h.leader d hd
    have hpn : p ≠ new := by
      rintro rfl
      simp [hnew] at hy
    exact ⟨p, y, (spawnChild_of_ne hpn).trans hy, (alive_spawnChild hpn).2 hp, hrest⟩
  · rcases spawnChild_cases hy with ⟨-, rfl⟩ | ⟨-, hy⟩
    · cases hd
    · exact h.owner p y d hy hd

/-- A task without a terminal gets that of its session, or changes its ids. -/
theorem modify (h : Controlled s live) (hx : s.task t = some x)
    (hlead : x.sid = x.tgid → x.tty = none)
    (howner : ∀ d, (f x).tty = some d → (f x).sid = (s.tty d).sessionId) :
    Controlled (s.modify t f) live := by
  refine ⟨fun d hd => ?_, fun p y d hy hd => ?_⟩
  · obtain ⟨p, y, hy, hp, hsid, htgid, hyd⟩ := h.leader d hd
    have hpt : p ≠ t := by
      rintro rfl
      rw [hx] at hy
      cases hy
      simp [hlead (hsid.trans htgid.symm)] at hyd
    exact ⟨p, y, (modify_of_ne hpt).trans hy, hp, hsid, htgid, hyd⟩
  · rcases modify_cases hx hy with ⟨-, rfl⟩ | ⟨-, hy⟩
    · exact howner d hd
    · exact h.owner p y d hy hd

theorem ttyOpen (h : Controlled s live) (hids : Ids s) (hx : s.task t = some x) (ht : live t)
    {d : Nat} (hnone : x.tty = none) (hlead : x.sid = x.tgid) (hfree : (s.tty d).sessionId = 0) :
    Controlled { s.modify t fun x => { x with tty := some d } with
      tty := update s.tty d ⟨x.sid, x.pgid⟩ } live := by
  refine ⟨fun e he => ?_, fun p y e hy he => ?_⟩
  · dsimp only at he ⊢
    rcases eq_or_ne e d with rfl | hed
    · refine ⟨t, { x with tty := some e }, ?_, ht, ?_, ?_, rfl⟩
      · exact modify_self.trans (by rw [hx, map_some])
      · rw [update_self]
      · rw [update_self]
        exact hlead.symm
    · have hsame : update s.tty d ⟨x.sid, x.pgid⟩ e = s.tty e := update_of_ne hed _ _
      rw [hsame] at he ⊢
      obtain ⟨p, y, hy, hp, hrest⟩ := h.leader e he
      have hpt : p ≠ t := by
        rintro rfl
        rw [hx] at hy
        cases hy
        rw [hnone] at hrest
        cases hrest.2.2
      exact ⟨p, y, (modify_of_ne hpt).trans hy, hp, hrest⟩
  · dsimp only
    rcases modify_cases hx hy with ⟨-, rfl⟩ | ⟨-, hys⟩
    · rw [← some_inj.1 he, update_self]
    have hsid := h.owner p y e hys he
    have hed : e ≠ d := by
      rintro rfl
      exact (hids.task p y hys).nonzero.2 (hsid.trans hfree)
    rwa [update_of_ne hed]

theorem step (h : Controlled s s.Alive) (hids : Ids s) (hC : a.Fresh s)
    (hstep : s.step a = some s') : Controlled s' s'.Alive := by
  obtain ⟨x, hx, hrun, hdone⟩ := step_cases hids hstep
  obtain ⟨t, call⟩ := a
  cases call with
  | spawn new setPgid copied =>
    cases copied with
    | true =>
      obtain ⟨hnew, rfl⟩ := hdone
      have hspawn := h.spawnChild (t := t) (x := x) hnew setPgid
      rw [alive_modify (f := fun proc : Task => { proc with tty := x.tty }) fun _ => rfl]
      refine hspawn.modify spawnChild_self (fun _ => rfl) fun d hd => ?_
      exact h.owner t x d hx hd
    | false =>
      have hspawn := h.spawnChild (t := t) (x := x) hdone.1 setPgid
      have hzombie := hspawn.zombify (hids.spawnChild hx hC setPgid) hdone.2
      exact ⟨fun d hd =>
        by simpa only [taskZombify_alive hdone.2] using hzombie.leader d hd, hzombie.owner⟩
  | exit status signal =>
    have hids' : Ids (s.modify t fun x =>
        { x with returnStatus := status, returnSignal := signal, status := .zombie }) :=
      hids.of_sameIds (modify_sameIds fun _ => rfl)
    have hmod : Controlled (s.modify t fun x =>
        { x with returnStatus := status, returnSignal := signal, status := .zombie }) s.Alive :=
      h.congr (modify_sameIds fun _ => rfl) rfl (map_modify fun _ => rfl) fun _ hp => hp
    have hzombie := hmod.zombify hids' hdone
    refine ⟨fun d hd => ?_, hzombie.owner⟩
    obtain ⟨p, y, hy, ⟨hpt, z, hz, hne⟩, hrest⟩ := hzombie.leader d hd
    refine ⟨p, y, hy, (taskZombify_alive hdone).2 ⟨hpt, z, ?_, hne⟩, hrest⟩
    rwa [modify_of_ne hpt]
  | waitpid status =>
    rcases hdone with rfl | ⟨c, z, hz, hzombie, -, -, hsys, htask⟩
    · exact h
    refine ⟨fun d hd => ?_, fun p y d hy hd => ?_⟩
    · rw [hsys] at hd ⊢
      obtain ⟨p, y, hy, ⟨w, hw, hne⟩, hrest⟩ := h.leader d hd
      have hpc : p ≠ c := by
        rintro rfl
        rw [hz, some_inj] at hw
        exact hne (hw ▸ hzombie)
      have hsame : s'.task p = s.task p := by rw [htask, update_of_ne hpc]
      exact ⟨p, y, hsame.trans hy, ⟨w, hsame.trans hw, hne⟩, hrest⟩
    · rw [hsys]
      exact h.owner p y d (task_update_none htask hy).1 hd
  | setsid =>
    rcases hdone with rfl | ⟨hne, rfl⟩
    · exact h
    · rw [alive_modify (f := fun x : Task => { x with pgid := x.tgid, sid := x.tgid, tty := none })
        fun _ => rfl]
      exact h.modify hx (fun hlead => absurd ((hids.task t x hx).leads hlead).symm hne) nofun
  | setpgid pgid =>
    rcases hdone with rfl | ⟨hne, q, y, -, -, rfl⟩
    · exact h
    · rw [alive_modify (f := fun x : Task => { x with pgid := y.pid }) fun _ => rfl]
      exact h.modify hx (fun hlead => absurd hlead.symm hne) fun d hd => h.owner t x d hx hd
  | ttyOpen d =>
    rcases hdone with rfl | ⟨hnone, hlead, hfree, rfl⟩
    · exact h
    have halive : (s.modify t fun x => { x with tty := some d }).Alive = s.Alive :=
      alive_modify fun _ => rfl
    have hopen := h.ttyOpen hids hx ⟨x, hx, hrun ▸ nofun⟩ hnone hlead hfree
    rwa [← halive] at hopen

end Controlled

theorem controlled_boot : Controlled boot boot.Alive where
  leader d hd := absurd rfl hd
  owner p x d hx hd := by
    rw [(boot_task hx).2] at hd
    cases hd

/-- **Controlling terminals.**  In every state that a run reaches before the pids run out, a
terminal with a session is the terminal of its leader, which is alive; the terminal of a task has
its session; and no terminal is that of two sessions. -/
theorem controlling_terminals {as : List Act}
    (hC : Along System.step (fun s a => a.Fresh s) boot as)
    (hrun : run System.step boot as = some s) :
    (∀ d, (s.tty d).sessionId ≠ 0 → ∃ p x, s.task p = some x ∧ x.status ≠ .zombie ∧
    x.sid = (s.tty d).sessionId ∧
      x.tgid = (s.tty d).sessionId ∧ x.tty = some d) ∧
    (∀ p x d, s.task p = some x → x.tty = some d → x.sid = (s.tty d).sessionId) ∧
    ∀ p q x y d, s.task p = some x → s.task q = some y → x.tty = some d → y.tty = some d →
    x.sid = y.sid := by
  have h : Ids s ∧ Controlled s s.Alive := by
    refine run_induction (I := fun s => Ids s ∧ Controlled s s.Alive) (fun s a s' hs hC hstep => ?_)
      ⟨ids_boot, controlled_boot⟩ hC hrun
    exact ⟨hs.1.step hC hstep, hs.2.step hs.1 hC hstep⟩
  refine ⟨fun d hd => ?_, h.2.owner, fun p q x y d hx hy hxd hyd => ?_⟩
  · obtain ⟨p, x, hx, ⟨y, hy, hne⟩, hrest⟩ := h.2.leader d hd
    rw [hx, some_inj] at hy
    exact ⟨p, x, hx, hy ▸ hne, hrest⟩
  · exact (h.2.owner p x d hx hxd).trans (h.2.owner q y d hy hyd).symm

/-- A task starts a session, opens a terminal and starts a child. -/
def terminal :
    List Act := [⟨0, .spawn 1 false true⟩, ⟨1, .setsid⟩, ⟨1, .ttyOpen 0⟩, ⟨1, .spawn 2 true true⟩]

theorem controlling_terminals_terminal : ∃ s, run System.step boot terminal = some s ∧
    (s.tty 0).sessionId = 2 ∧ (s.task 2).any (fun x => x.tty == some 0) ∧
    ∃ p x, s.task p = some x ∧ x.status ≠ .zombie ∧ x.sid = 2 ∧ x.tgid = 2 ∧ x.tty = some 0 := by
  obtain ⟨s, hs, hsession, hchild⟩ : ∃ s, run System.step boot terminal = some s ∧
      (s.tty 0).sessionId = 2 ∧ (s.task 2).any fun x => x.tty == some 0 := by decide +kernel
  have hC : Along System.step (fun s a => a.Fresh s) boot terminal :=
    .cons rfl (by decide : (2 : Pid) ≠ 0) (.cons rfl trivial (.cons rfl trivial
      (.cons rfl (by decide : (3 : Pid) ≠ 0) trivial)))
  have h := (controlling_terminals hC hs).1 0
  rw [hsession] at h
  exact ⟨s, hs, hsession, hchild, h (by decide)⟩

end Terminals

end Monolith.Process
