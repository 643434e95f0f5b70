import Monolith.Lib.Run
import Monolith.Fs.Vfs

/-!
# The table of open files, step by step

`vfs_open_internal` looks for a slot whose `refcount` is 0, writes its fields and then its
`refcount`; `vfs_put_file` takes the `refcount` down and, if it was the last reference, clears the
fields.  The table has no lock, so between any two of these accesses other processors come in with
theirs.

Two opens can pass the test on the same slot (`opens_share_slot`), and an open can pass it while the
closer of the file before is still clearing the slot.  If neither happens, a slot belongs to one
open, with what that open wrote, until its last close (`openTable_sound`).
-/

namespace Monolith.Fs

open Function Transition Option List

/-! ## The processors -/

/-- What `vfs_open_internal` puts into the slot. -/
structure OpenReq where
  node : Addr
  path : Addr
  fsId : BitVec 32
  deriving DecidableEq, Repr

inductive Pc where
  | idle
  /-- Testing `open_files[i].refcount`. -/
  | scan (req : OpenReq) (i : Nat)
  | storePos (req : OpenReq) (i : Fin 64)
  | storeInode (req : OpenReq) (i : Fin 64)
  | storePath (req : OpenReq) (i : Fin 64)
  | storeFsId (req : OpenReq) (i : Fin 64)
  /-- `atomic_store(&context.open_files[i].refcount, 1)` -/
  | publish (req : OpenReq) (i : Fin 64)
  /-- `file->inode->fops->close` -/
  | callClose (i : Fin 64)
  | clearPos (i : Fin 64)
  /-- `vnode_put(file->inode)` -/
  | putInode (i : Fin 64)
  | clearInode (i : Fin 64)
  /-- `if(file->path)` -/
  | testPath (i : Fin 64)
  /-- `ventry_put(file->path)` -/
  | putPath (i : Fin 64)
  | clearPath (i : Fin 64)
  | clearFsId (i : Fin 64)
  deriving DecidableEq, Repr

/-- The slot that a processor is filling or clearing. -/
def Pc.slot : Pc → Option (Fin 64)
  | .idle | .scan .. => none
  | .storePos _ i | .storeInode _ i | .storePath _ i | .storeFsId _ i | .publish _ i | .callClose i
  | .clearPos i | .putInode i | .clearInode i | .testPath i | .putPath i | .clearPath i
  | .clearFsId i => some i

/-- The table and the processors, with what the callers know: the opens that obtained a slot and
whose last close has not come, and the references that were returned and not given back. -/
structure OpenTable where
  files : Fin 64 → FileDescriptor
  cpu : Nat → Pc
  users : Fin 64 → List OpenReq
  held : Fin 64 → Nat

namespace OpenTable

def store (s : OpenTable) (c : Nat) (i : Fin 64) (f : FileDescriptor) (pc : Pc) : OpenTable :=
  { s with files := update s.files i f, cpu := update s.cpu c pc }

def goto (s : OpenTable) (c : Nat) (pc : Pc) : OpenTable := { s with cpu := update s.cpu c pc }

/-- The next access of the processor `c`. -/
def access (s : OpenTable) (c : Nat) : Pc → Option OpenTable
  | .idle => none
  | .scan req i =>
    if h : i < 64 then
      if (s.files ⟨i, h⟩).refcount = 0 then some (s.goto c (.storePos req ⟨i, h⟩))
      else some (s.goto c (.scan req (i + 1)))
    -- `-ENFILE`
    else some (s.goto c .idle)
  | .storePos req i => some (s.store c i { s.files i with pos := 0 } (.storeInode req i))
  | .storeInode req i => some (s.store c i { s.files i with inode := req.node } (.storePath req i))
  | .storePath req i => some (s.store c i { s.files i with path := req.path } (.storeFsId req i))
  | .storeFsId req i => some (s.store c i { s.files i with fsId := req.fsId } (.publish req i))
  | .publish req i => some
      { s.store c i { s.files i with refcount := 1 } .idle with
        users := update s.users i (s.users i ++ [req])
        held := update s.held i (s.held i + 1) }
  | .callClose i => some (s.goto c (.clearPos i))
  | .clearPos i => some (s.store c i { s.files i with pos := 0 } (.putInode i))
  | .putInode i => some (s.goto c (.clearInode i))
  | .clearInode i => some (s.store c i { s.files i with inode := 0 } (.testPath i))
  | .testPath i => some (s.goto c (if (s.files i).path ≠ 0 then .putPath i else .clearFsId i))
  | .putPath i => some (s.goto c (.clearPath i))
  | .clearPath i => some (s.store c i { s.files i with path := 0 } (.clearFsId i))
  | .clearFsId i => some (s.store c i { s.files i with fsId := -1 } .idle)

end OpenTable

inductive TableAct where
  /-- A processor enters `vfs_open_internal`. -/
  | begin (c : Nat) (req : OpenReq)
  | go (c : Nat)
  /-- A processor enters `vfs_put_file`, with one of the references. -/
  | put (c : Nat) (i : Fin 64)
  /-- `vfs_ref_file`, by somebody with a reference. -/
  | ref (i : Fin 64)
  deriving DecidableEq, Repr

def OpenTable.step (s : OpenTable) : TableAct → Option OpenTable
  | .begin c req => if s.cpu c = .idle then some (s.goto c (.scan req 0)) else none
  | .go c => s.access c (s.cpu c)
  | .put c i =>
    if s.cpu c = .idle ∧ s.held i ≠ 0 then
      let last := (s.files i).refcount
      some
        { s.store c i { s.files i with refcount := last - 1 }
            (if 1 < last then .idle else .callClose i) with
          held := update s.held i (s.held i - 1)
          users := if s.held i = 1 then update s.users i [] else s.users }
    else none
  | .ref i =>
    if s.held i ≠ 0 then some
      { s with
        files := update s.files i { s.files i with refcount := (s.files i).refcount + 1 }
        held := update s.held i (s.held i + 1) }
    else none

def OpenTable.init : OpenTable where
  files _ := ⟨0, 0, 0, 0, 0⟩
  cpu _ := .idle
  users _ := []
  held _ := 0

/-- No two opens have one slot, and a slot has what the open wrote that has it. -/
def OpenTable.Sound (s : OpenTable) : Prop :=
  ∀ i, (s.users i).length ≤ 1 ∧
    ∀ req ∈ s.users i, (s.files i).inode = req.node ∧ (s.files i).path = req.path

/-- A test finds 0 only in a slot that no processor is filling or clearing, and no counter wraps. -/
def OpenTable.Alone (s : OpenTable) : TableAct → Prop
  | .go c => ∀ req i h, s.cpu c = .scan req i → (s.files ⟨i, h⟩).refcount = 0 →
      ∀ c', (s.cpu c').slot ≠ some ⟨i, h⟩
  | .ref i => (s.files i).refcount ≠ -1
  | _ => True

/-! ## What every access keeps -/

/-- What an open has written so far is there. -/
def Pc.Written (files : Fin 64 → FileDescriptor) : Pc → Prop
  | .storePath req i => (files i).inode = req.node
  | .storeFsId req i | .publish req i => (files i).inode = req.node ∧ (files i).path = req.path
  | _ => True

/-- A slot that is filled or cleared is one processor's, and nobody has a reference to it.
Otherwise the references are counted, and belong to one open. -/
structure OpenTable.Inv (s : OpenTable) : Prop where
  alone : ∀ c c' i, (s.cpu c).slot = some i → (s.cpu c').slot = some i → c = c'
  unheld : ∀ c i, (s.cpu c).slot = some i → s.held i = 0
  count : ∀ i, (s.files i).refcount.toNat = s.held i
  free : ∀ i, s.held i = 0 → s.users i = []
  used : ∀ i, s.held i ≠ 0 → ∃ req, s.users i = [req] ∧ (s.files i).inode = req.node ∧
    (s.files i).path = req.path
  written : ∀ c, (s.cpu c).Written s.files

section Inv

variable {s s' : OpenTable} {c : Nat} {i : Fin 64} {f : FileDescriptor} {pc : Pc}

theorem OpenTable.Inv.sound (h : s.Inv) : s.Sound := by
  intro i
  by_cases hheld : s.held i = 0
  · rw [h.free i hheld]
    exact ⟨Nat.zero_le _, nofun⟩
  · obtain ⟨req, hreq, hfields⟩ := h.used i hheld
    rw [hreq]
    exact ⟨le_rfl, fun r hr => mem_singleton.1 hr ▸ hfields⟩

theorem OpenTable.inv_init : OpenTable.init.Inv :=
  ⟨nofun, nofun, fun _ => rfl, fun _ _ => rfl, fun _ h => absurd rfl h, fun _ => trivial⟩

theorem Pc.Written.update {files : Fin 64 → FileDescriptor} (h : pc.Written files)
    (hi : pc.slot ≠ some i) : pc.Written (update files i f) := by
  cases pc with
  | storePath req j | storeFsId req j | publish req j =>
    have hj : j ≠ i := fun hj => hi (congrArg some hj)
    rwa [Pc.Written, update_of_ne hj]
  | _ => trivial

theorem OpenTable.slot_update (c' : Nat) {j : Fin 64} (h : (update s.cpu c pc c').slot = some j) :
    (c' = c ∧ pc.slot = some j) ∨ (c' ≠ c ∧ (s.cpu c').slot = some j) := by
  by_cases hc : c' = c
  · rw [hc, update_self] at h
    exact .inl ⟨hc, h⟩
  · rw [update_of_ne hc] at h
    exact .inr ⟨hc, h⟩

section

variable (h : s.Inv)

include h

/-- **One slot changes**, and no processor has it but `c`. -/
theorem OpenTable.Inv.change {held : Nat} {users : List OpenReq} {cpu : Nat → Pc}
    (hcpu : ∀ c' j, (cpu c').slot = some j → (j ≠ i ∧ (s.cpu c').slot = some j) ∨
    (j = i ∧ c' = c ∧ held = 0)) (hwritten : ∀ c', (cpu c').Written (update s.files i f)) (hcount :
    f.refcount.toNat = held)
    (hzero : held = 0 → users = [])
    (hused : held ≠ 0 → ∃ req, users = [req] ∧ f.inode = req.node ∧ f.path = req.path) :
    OpenTable.Inv
      { files := update s.files i f
        cpu := cpu
        users := update s.users i users
        held := update s.held i held } := by
  refine ⟨fun c₁ c₂ j h₁ h₂ => ?_, fun c' j hj => ?_, fun j => ?_, fun j => ?_, fun j => ?_,
    hwritten⟩
  · rcases hcpu c₁ j h₁ with ⟨hj, h₁⟩ | ⟨hj, hc₁, -⟩
    · rcases hcpu c₂ j h₂ with ⟨-, h₂⟩ | ⟨hj', -, -⟩
      · exact h.alone c₁ c₂ j h₁ h₂
      · exact absurd hj' hj
    · rcases hcpu c₂ j h₂ with ⟨hj', -⟩ | ⟨-, hc₂, -⟩
      · exact absurd hj hj'
      · exact hc₁.trans hc₂.symm
  · dsimp only
    rcases hcpu c' j hj with ⟨hne, hj⟩ | ⟨rfl, -, hheld⟩
    · rw [update_of_ne hne]
      exact h.unheld c' j hj
    · rwa [update_self]
  · rcases eq_or_ne j i with rfl | hji
    · simpa only [update_self] using hcount
    · simpa only [update_of_ne hji] using h.count j
  · rcases eq_or_ne j i with rfl | hji
    · simpa only [update_self] using hzero
    · simpa only [update_of_ne hji] using h.free j
  · rcases eq_or_ne j i with rfl | hji
    · simpa only [update_self] using hused
    · simpa only [update_of_ne hji] using h.used j

/-- The processor `c` changes a slot that no other has, and goes on. -/
theorem OpenTable.Inv.changeBy {held : Nat} {users : List OpenReq}
    (hother : ∀ c', c' ≠ c → (s.cpu c').slot ≠ some i)
    (hpc : pc.slot = none ∨ (pc.slot = some i ∧ held = 0))
    (hwritten : pc.Written (update s.files i f)) (hcount : f.refcount.toNat = held)
    (hzero : held = 0 → users = [])
    (hused : held ≠ 0 → ∃ req, users = [req] ∧ f.inode = req.node ∧ f.path = req.path) :
    OpenTable.Inv
      { files := update s.files i f
        cpu := update s.cpu c pc
        users := update s.users i users
        held := update s.held i held } := by
  refine h.change (c := c) (fun c' j hj => ?_) (fun c' => ?_) hcount hzero hused
  · rcases slot_update c' hj with ⟨hc, hj⟩ | ⟨hc, hj⟩
    · rcases hpc with hpc | ⟨hpc, hheld⟩
      · simp [hpc] at hj
      · rw [hpc, some_inj] at hj
        exact .inr ⟨hj.symm, hc, hheld⟩
    · exact .inl ⟨fun hji => hother c' hc (hji ▸ hj), hj⟩
  · by_cases hc : c' = c
    · rwa [hc, update_self]
    · rw [update_of_ne hc]
      exact (h.written c').update (hother c' hc)

theorem OpenTable.Inv.store (hslot : (s.cpu c).slot = some i)
    (hpc : pc.slot = some i ∨ pc.slot = none) (href : f.refcount = (s.files i).refcount)
    (hwritten : pc.Written (update s.files i f)) : (s.store c i f pc).Inv := by
  have hheld := h.unheld c i hslot
  have := @OpenTable.Inv.changeBy s c i f pc h (s.held i) (s.users i)
    (fun c' hc hi => hc (h.alone c' c i hi hslot)) (hpc.symm.imp_right fun hi => ⟨hi, hheld⟩)
    hwritten
    (href ▸ h.count i) (h.free i) fun hne => absurd hheld hne
  rwa [update_eq_self, update_eq_self] at this

theorem OpenTable.Inv.goto (hslot : (s.cpu c).slot = some i)
    (hpc : pc.slot = some i ∨ pc.slot = none) (hwritten : pc.Written s.files) :
    (s.goto c pc).Inv := by
  have := h.store (f := s.files i) hslot hpc rfl (by rwa [update_eq_self])
  rwa [OpenTable.store, update_eq_self] at this

theorem OpenTable.Inv.pass (hpc : pc.slot = none) (hwritten : pc.Written s.files) :
    (s.goto c pc).Inv := by
  have hold c' j (hj : (update s.cpu c pc c').slot = some j) : (s.cpu c').slot = some j := by
    rcases slot_update c' hj with ⟨rfl, hj'⟩ | ⟨-, hj'⟩
    · simp [hpc] at hj'
    · exact hj'
  refine ⟨fun c₁ c₂ j h₁ h₂ => h.alone c₁ c₂ j (hold c₁ j h₁) (hold c₂ j h₂),
    fun c' j hj => h.unheld c' j (hold c' j hj), h.count, h.free, h.used, fun c' => ?_⟩
  show (update s.cpu c pc c').Written s.files
  by_cases hc : c' = c
  · rwa [hc, update_self]
  · rw [update_of_ne hc]
    exact h.written c'

/-- A test that finds 0 takes a slot that nobody has. -/
theorem OpenTable.Inv.take (hfree : (s.files i).refcount = 0)
    (hother : ∀ c', (s.cpu c').slot ≠ some i) (hpc : pc.slot = some i)
    (hwritten : pc.Written s.files) : (s.goto c pc).Inv := by
  have hheld : s.held i = 0 := by simp [← h.count i, hfree]
  have := @OpenTable.Inv.changeBy s c i (s.files i) pc h (s.held i) (s.users i)
    (fun c' _ => hother c')
    (.inr ⟨hpc, hheld⟩) (by rwa [update_eq_self]) (h.count i) (h.free i) fun hne => absurd hheld hne
  rwa [update_eq_self, update_eq_self, update_eq_self] at this

theorem OpenTable.Inv.access (ha : s.Alone (.go c)) (hstep : s.access c (s.cpu c) = some s') :
    s'.Inv := by
  have hw := h.written c
  generalize hpc : s.cpu c = pc at hstep hw
  cases pc with
  | idle => cases hstep
  | scan req k =>
    rw [OpenTable.access] at hstep
    split at hstep
    · rename_i hk
      split at hstep
      · rename_i hzero
        cases hstep
        exact h.take hzero (ha req k hk hpc hzero) rfl trivial
      · cases hstep
        exact h.pass rfl trivial
    · cases hstep
      exact h.pass rfl trivial
  | storePos req k | clearPos k | clearInode k | clearPath k =>
    cases hstep
    exact h.store (congrArg Pc.slot hpc) (.inl rfl) rfl trivial
  | storeInode req k =>
    cases hstep
    refine h.store (congrArg Pc.slot hpc) (.inl rfl) rfl ?_
    rw [Pc.Written, update_self]
  | storePath req k =>
    cases hstep
    refine h.store (congrArg Pc.slot hpc) (.inl rfl) rfl ?_
    rw [Pc.Written, update_self]
    exact ⟨hw, rfl⟩
  | storeFsId req k =>
    cases hstep
    refine h.store (congrArg Pc.slot hpc) (.inl rfl) rfl ?_
    rwa [Pc.Written, update_self]
  | publish req k =>
    have hmine : (s.cpu c).slot = some k := congrArg Pc.slot hpc
    have hheld := h.unheld c k hmine
    rw [OpenTable.access, h.free k hheld, hheld] at hstep
    cases hstep
    exact h.changeBy (fun c' hc hi => hc (h.alone c' c k hi hmine)) (.inl rfl) trivial rfl nofun
      fun _ => ⟨req, rfl, hw⟩
  | callClose k | putInode k | putPath k =>
    cases hstep
    exact h.goto (congrArg Pc.slot hpc) (.inl rfl) trivial
  | testPath k =>
    cases hstep
    split <;> exact h.goto (congrArg Pc.slot hpc) (.inl rfl) trivial
  | clearFsId k =>
    cases hstep
    exact h.store (congrArg Pc.slot hpc) (.inr rfl) rfl trivial

/-- `vfs_put_file` gives one reference back, and goes on with the slot if it was the last. -/
theorem OpenTable.Inv.put (hstep : s.step (.put c i) = some s') : s'.Inv := by
  obtain ⟨⟨-, hheld⟩, hstep⟩ := ite_none_right_eq_some.1 hstep
  cases hstep
  have hcount := h.count i
  obtain ⟨req, husers, hfields⟩ := h.used i hheld
  have hother : ∀ c', c' ≠ c → (s.cpu c').slot ≠ some i := fun c' _ hi => hheld (h.unheld c' i hi)
  have hdown : ((s.files i).refcount - 1).toNat = s.held i - 1 := by bv_omega
  by_cases hlast : s.held i = 1
  · have hle : ¬1 < (s.files i).refcount := by bv_omega
    rw [if_pos hlast, if_neg hle]
    refine h.changeBy hother (.inr ⟨rfl, ?_⟩) trivial hdown (fun _ => rfl) fun hne => ?_
    · omega
    · omega
  · have hlt : 1 < (s.files i).refcount := by bv_omega
    rw [if_neg hlast, if_pos hlt, ← update_eq_self i s.users]
    refine h.changeBy hother (.inl rfl) trivial hdown (fun hz => ?_) fun _ => ⟨req, husers, hfields⟩
    omega

theorem OpenTable.Inv.ref (hmax : (s.files i).refcount ≠ -1) (hstep : s.step (.ref i) = some s') :
    s'.Inv := by
  obtain ⟨hheld, hstep⟩ := ite_none_right_eq_some.1 hstep
  cases hstep
  have hup : ((s.files i).refcount + 1).toNat = s.held i + 1 := by
    rw [← h.count i]
    bv_omega
  have hother : ∀ c', (s.cpu c').slot ≠ some i := fun c' hi => hheld (h.unheld c' i hi)
  have := h.change (c := 0) (i := i) (f := { s.files i with refcount := (s.files i).refcount + 1 })
    (fun c' j hj => .inl ⟨fun hji => hother c' (hji ▸ hj), hj⟩)
    (fun c' => (h.written c').update (hother c'))
    hup (nofun : _ → s.users i = []) fun _ => h.used i hheld
  rwa [update_eq_self] at this

end

/-- **Every access** in which no test takes a slot that is in work. -/
theorem OpenTable.Inv.step {a : TableAct} (h : s.Inv) (ha : s.Alone a)
    (hstep : s.step a = some s') : s'.Inv := by
  cases a with
  | begin c req =>
    obtain ⟨-, hstep⟩ := ite_none_right_eq_some.1 hstep
    cases hstep
    exact h.pass rfl trivial
  | go c => exact h.access ha hstep
  | put c i => exact h.put hstep
  | ref i => exact h.ref ha hstep

end Inv

/-! ## Every interleaving -/

/-- **The table of open files.**  In every interleaving in which a test finds 0 only in slots that
no processor is filling or clearing, no two opens have one slot, and a slot keeps the inode and the
path of the open that has it until its last close. -/
theorem openTable_sound {as : List TableAct} {s : OpenTable}
    (halone : Along OpenTable.step OpenTable.Alone OpenTable.init as)
    (hrun : run OpenTable.step OpenTable.init as = some s) : s.Sound :=
  (run_induction (fun _ _ _ h ha hstep => OpenTable.Inv.step h ha hstep) OpenTable.inv_init halone
    hrun).sound

def fileA : OpenReq := ⟨0x1000, 0x2000, 0⟩
def fileB : OpenReq := ⟨0x3000, 0x4000, 0⟩

/-- A file is opened, and then another one by another processor. -/
def twoOpens : List TableAct :=
  .begin 0 fileA :: replicate 6 (.go 0) ++ .begin 1 fileB :: replicate 7 (.go 1)

theorem openTable_sound_twoOpens : ∃ s, run OpenTable.step OpenTable.init twoOpens = some s ∧
    s.users 0 = [fileA] ∧ s.users 1 = [fileB] ∧ s.Sound := by
  refine ⟨_, rfl, rfl, rfl, @openTable_sound twoOpens _ ?_ rfl⟩
  have hscan : ∀ {s : OpenTable} {c : Nat}, (s.cpu c).slot = none →
      (∀ c', c' ≠ c → s.cpu c' = .idle) → s.Alone (.go c) := by
    intro s c hslot hidle req i h _ _ c'
    by_cases hc : c' = c
    · rw [hc, hslot]
      exact nofun
    · rw [hidle c' hc]
      exact nofun
  have hopen : ∀ {s : OpenTable} {c : Nat}, (∀ req i, s.cpu c ≠ .scan req i) → s.Alone (.go c) :=
    fun hpc req i _ h => absurd h (hpc req i)
  refine .cons rfl trivial (.cons rfl (hscan rfl fun c' hc => update_of_ne hc ..)
    (.cons rfl (hopen nofun)
    (.cons rfl (hopen nofun)
    (.cons rfl (hopen nofun) (.cons rfl (hopen nofun) (.cons rfl (hopen nofun)
    (.cons rfl trivial (.cons rfl ?_ (.cons rfl ?_ (.cons rfl (hopen nofun) (.cons rfl (hopen nofun)
    (.cons rfl (hopen nofun) (.cons rfl (hopen nofun) (.cons rfl (hopen nofun) trivial))))))))))))))
  · rintro req i h ⟨⟩ hzero
    cases hzero
  · refine hscan rfl fun c' hc => ?_
    match c' with
    | 0 => rfl
    | c' + 2 => rfl

/-- Two processors test slot 0 before one of them writes to it. -/
def bothTest : List TableAct :=
  [.begin 0 fileA, .begin 1 fileB, .go 0, .go 1] ++ replicate 5 (.go 0) ++ replicate 5 (.go 1)

/-- One processor has closed a file up to `vnode_put`, another opens one, and the first goes on. -/
def lateClear : List TableAct :=
  .begin 0 fileA :: replicate 6 (.go 0) ++ [.put 0 0, .go 0, .go 0] ++ .begin 1 fileB :: replicate 6
    (.go 1) ++ [.go 0, .go 0]

/-- **Two opens obtain one slot**, and a close clears the slot of an open that came later. -/
theorem opens_share_slot :
    (∃ s, run OpenTable.step OpenTable.init bothTest = some s ∧ s.users 0 = [fileA, fileB] ∧
    ¬s.Sound) ∧
      ∃ s, run OpenTable.step OpenTable.init lateClear = some s ∧ s.users 0 = [fileB] ∧
        (s.files 0).inode = 0 ∧ ¬s.Sound := by
  refine ⟨⟨_, rfl, rfl, fun h => ?_⟩, _, rfl, rfl, rfl, fun h => ?_⟩
  · exact absurd (h 0).1 (by decide)
  · exact absurd ((h 0).2 fileB (by decide)).1 (by decide)

end Monolith.Fs
