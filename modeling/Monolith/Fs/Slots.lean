import Monolith.Lib.Count
import Monolith.Fs.HeapRemoval

/-!
# Slots and what they are open on

A slot of `open_files` is in use as long as its count is not 0.  Then it has a reference to a node,
which is a socket that no entry has, or the node of the entry that the slot has as its path
(`SlotOk`).  The count of a node covers the slots on it; in a `strict` account it is their number
(`FilesOk`).

Opening, counting and closing a slot keep that (`FilesOk.opened`, `FilesOk.recounted`,
`FilesOk.putFile`).
-/

namespace Monolith.Fs

open Function Fallible Count Option List Vfs BitVec

/-! ## The account -/

def Vfs.rc (v : Vfs) (fd : Fin 64) : Nat := (v.openFiles fd).refcount.toNat

/-- The slot is in use, on the node `a`. -/
def FileDescriptor.isOn (a : Addr) (f : FileDescriptor) : Bool := f.refcount ≠ 0 ∧ f.inode = a

/-- How many slots are in use on a node. -/
def usedBy (v : Vfs) (a : Addr) : Nat := (List.finRange 64).countP fun i => (v.openFiles i).isOn a

/-- There are `x` references for `y` holders: enough, and in a strict account no more. -/
def Covers (strict : Bool) (x y : Nat) : Prop := y ≤ x ∧ (strict = true → x = y)

/-- No entry has the node. -/
def Anonymous (v : Vfs) (a : Addr) : Prop := ∀ b e, v.ventries b = some e → e.node ≠ a

/-- The slot is a socket's. -/
structure SocketSlot (v : Vfs) (f : FileDescriptor) (n : Vnode) : Prop where
  mode : sIssock n.mode = true
  nlink : n.nlink = 0
  path : f.path = 0
  socket : v.sockets n.data = true
  anonymous : Anonymous v f.inode

/-- The slot is one of an entry. -/
structure EntrySlot (v : Vfs) (f : FileDescriptor) (n : Vnode) : Prop where
  mode : sIssock n.mode = false
  nlink : n.nlink ≠ 0
  path : ∃ e, v.ventries f.path = some e ∧ e.node = f.inode

/-- A slot that is in use. -/
structure SlotOk (v : Vfs) (f : FileDescriptor) : Prop where
  inode : f.inode ≠ 0
  node : ∃ n, v.vnodes f.inode = some n ∧ (SocketSlot v f n ∨ EntrySlot v f n)

/-- The entries have nodes that are no sockets, and with `links` they all are counted as linked. -/
def EntriesOk (links : Bool) (v : Vfs) : Prop :=
  ∀ a e n, v.ventries a = some e → v.vnodes e.node = some n → sIssock n.mode = false ∧
    (links = true → n.nlink ≠ 0)

/-- The slots and the counts of the nodes. -/
structure SlotsOk (strict : Bool) (v : Vfs) : Prop where
  slot : ∀ fd, (v.openFiles fd).refcount ≠ 0 → SlotOk v (v.openFiles fd)
  idle : ∀ fd, (v.openFiles fd).refcount = 0 → (v.openFiles fd).inode = 0
  refs : ∀ a n, v.vnodes a = some n → Covers strict n.ref.toNat (usedBy v a)
  /-- A socket has one node. -/
  single : ∀ i j m n, (v.openFiles i).refcount ≠ 0 → (v.openFiles j).refcount ≠ 0 →
    v.vnodes (v.openFiles i).inode = some m → v.vnodes (v.openFiles j).inode = some n →
    sIssock m.mode = true → sIssock n.mode = true → m.data = n.data →
    (v.openFiles i).inode = (v.openFiles j).inode
  entries : EntriesOk strict v

/-- The socket is one of a slot in use. -/
def SocketOpen (v : Vfs) (sock : Addr) : Prop :=
  ∃ fd n, (v.openFiles fd).refcount ≠ 0 ∧ v.vnodes (v.openFiles fd).inode = some n ∧
    sIssock n.mode = true ∧ n.data = sock

/-- In a strict account there are no sockets but those of slots in use. -/
structure FilesOk (strict : Bool) (v : Vfs) : Prop extends SlotsOk strict v where
  shut : strict = true → ∀ sock, v.sockets sock = true → SocketOpen v sock

section Account

variable {v w : Vfs} {f : FileDescriptor} {fd : Fin 64} {a : Addr} {strict : Bool}

theorem isOn_iff : f.isOn a = true ↔ f.refcount ≠ 0 ∧ f.inode = a := by
  rw [FileDescriptor.isOn, decide_eq_true_iff]

theorem isOn_of_used (h : f.refcount ≠ 0) (a : Addr) : f.isOn a = decide (a = f.inode) := by
  rw [FileDescriptor.isOn, decide_eq_decide, and_iff_right h, eq_comm]

theorem isOn_of_idle (h : f.refcount = 0) (a : Addr) : f.isOn a = false :=
  decide_eq_false fun hon => hon.1 h

theorem usedBy_setFile (v : Vfs) (fd : Fin 64) (f : FileDescriptor) (a : Addr) :
    usedBy (v.setFile fd f) a + one ((v.openFiles fd).isOn a) = usedBy v a + one (f.isOn a) :=
  countP_update (nodup_finRange 64) (mem_finRange fd) f

theorem usedBy_congr (h : w.openFiles = v.openFiles) (a : Addr) : usedBy w a = usedBy v a := by
  rw [usedBy, usedBy, h]

theorem usedBy_pos (h : (v.openFiles fd).refcount ≠ 0) : 0 < usedBy v (v.openFiles fd).inode :=
  countP_pos_iff.2 ⟨fd, mem_finRange fd, isOn_iff.2 ⟨h, rfl⟩⟩

theorem exists_of_usedBy (h : 0 < usedBy v a) :
    ∃ fd, (v.openFiles fd).refcount ≠ 0 ∧ (v.openFiles fd).inode = a := by
  obtain ⟨fd, -, hfd⟩ := countP_pos_iff.1 h
  exact ⟨fd, isOn_iff.1 hfd⟩

theorem SlotOk.mono (S : SlotOk v f)
    (hnode : ∀ n, v.vnodes f.inode = some n → ∃ m, w.vnodes f.inode = some m ∧ m.mode = n.mode ∧
      m.data = n.data ∧ (n.nlink ≠ 0 → m.nlink ≠ 0) ∧ (Anonymous v f.inode → m.nlink = n.nlink))
    (hsock : ∀ n, v.vnodes f.inode = some n → sIssock n.mode = true → v.sockets n.data = true →
      w.sockets n.data = true) (hpath : ∀ e, v.ventries f.path = some e → e.node = f.inode →
      ∃ e', w.ventries f.path = some e' ∧ e'.node = f.inode)
    (hanon : Anonymous v f.inode → Anonymous w f.inode) : SlotOk w f := by
  obtain ⟨n, hn, hkind⟩ := S.node
  obtain ⟨m, hm, hmode, hdata, hpos, hsame⟩ := hnode n hn
  refine ⟨S.inode, m, hm, hkind.imp (fun K => ?_) fun K => ?_⟩
  · exact ⟨hmode ▸ K.mode, (hsame K.anonymous).trans K.nlink, K.path,
      hdata ▸ hsock n hn K.mode K.socket, hanon K.anonymous⟩
  · obtain ⟨e, he, hen⟩ := K.path
    exact ⟨hmode ▸ K.mode, hpos K.nlink, hpath e he hen⟩

/-! ## Entries that come -/

theorem EntriesOk.grown {links : Bool} (E : EntriesOk links v) (Hw : HeapOk w) (G : Grown v w) :
    EntriesOk links w := by
  intro a e n he hn
  have hne : e.node ≠ 0 := by
    intro h0
    rw [h0, Hw.nullNode] at hn
    cases hn
  rcases hv : v.vnodes e.node with _ | m
  · exact ⟨(G.fresh _ n hn hv).2.1, fun _ => (G.fresh _ n hn hv).2.2⟩
  rcases G.origin a e he hne with ⟨b, g, hg, hge⟩ | hnone
  · obtain ⟨k, hk, hpos, -⟩ := G.node _ m hv
    rw [hn, some_inj] at hk
    obtain ⟨hmode, hlink⟩ := E b g m hg (hge ▸ hv)
    rw [hk]
    exact ⟨hmode, fun hs => hpos (hlink hs)⟩
  · simp [hv] at hnone

variable (F : SlotsOk strict v)

include F

theorem SlotsOk.usedBy_eq_zero (hnone : v.vnodes a = none) : usedBy v a = 0 := by
  rcases Nat.eq_zero_or_pos (usedBy v a) with h | h
  · exact h
  obtain ⟨fd, hfd, rfl⟩ := exists_of_usedBy h
  obtain ⟨n, hn, -⟩ := (F.slot fd hfd).node
  simp [hnone] at hn

theorem SlotsOk.grown (Hw : HeapOk w) (G : Grown v w) : SlotsOk strict w where
  slot fd hfd := by
    rw [G.openFiles] at hfd ⊢
    have S := F.slot fd hfd
    refine S.mono (fun n hn => ?_) (fun n _ _ h => G.sockets ▸ h)
      (fun e he hen => ?_) fun hno b e he hen => ?_
    · obtain ⟨k, hk, hpos, hsame⟩ := G.node _ n hn
      exact ⟨_, hk, rfl, rfl, hpos, hsame⟩
    · obtain ⟨e', he', hen'⟩ := G.keep _ e he (hen ▸ S.inode)
      exact ⟨e', he', hen'.trans hen⟩
    · rcases G.origin b e he (hen ▸ S.inode) with ⟨c, g, hg, hge⟩ | hnone
      · exact hno c g hg (hge.trans hen)
      · obtain ⟨n, hn, -⟩ := S.node
        simp [hen, hn] at hnone
  idle fd hfd := by
    rw [G.openFiles] at hfd ⊢
    exact F.idle fd hfd
  refs a n hn := by
    rw [usedBy_congr G.openFiles]
    rcases hv : v.vnodes a with _ | m
    · rw [(G.fresh a n hn hv).1, F.usedBy_eq_zero hv]
      exact ⟨le_rfl, fun _ => rfl⟩
    obtain ⟨k, hk, -⟩ := G.node a m hv
    rw [hn, some_inj] at hk
    rw [hk]
    exact F.refs a m hv
  single i j m n hi hj hm hn hms hns hdata := by
    rw [G.openFiles] at hi hj hm hn ⊢
    obtain ⟨m', hm', -⟩ := (F.slot i hi).node
    obtain ⟨n', hn', -⟩ := (F.slot j hj).node
    obtain ⟨k, hk, -⟩ := G.node _ m' hm'
    obtain ⟨l, hl, -⟩ := G.node _ n' hn'
    rw [hm, some_inj] at hk
    rw [hn, some_inj] at hl
    subst hk hl
    exact F.single i j m' n' hi hj hm' hn' hms hns hdata
  entries := F.entries.grown Hw G

end Account

/-- **Lookups and new entries** leave the account as it is. -/
theorem FilesOk.grown {strict : Bool} {v w : Vfs} (F : FilesOk strict v) (Hw : HeapOk w)
    (G : Grown v w) : FilesOk strict w := by
  refine ⟨F.toSlotsOk.grown Hw G, fun hs sock hsock => ?_⟩
  obtain ⟨fd, n, hfd, hn, hmode, hdata⟩ := F.shut hs sock (G.sockets ▸ hsock)
  obtain ⟨k, hk, -⟩ := G.node _ n hn
  rw [← G.openFiles] at hfd hk
  exact ⟨fd, _, hfd, hk, hmode, hdata⟩

/-! ## Opening -/

/-- What `vfs_open_internal` writes into a slot. -/
def openedFile (node path : Addr) : FileDescriptor := ⟨0, node, path, 0, 1⟩

variable {f : FileDescriptor} {i : Fin 64} {ref : BitVec 32} {b : Addr} {m : Vnode}

section Slot

variable {v w : Vfs} {strict : Bool} {fd : Fin 64} {a node path : Addr} {n : Vnode}

theorem openFiles_set_ne (h : i ≠ fd) : (v.setFile fd f).openFiles i = v.openFiles i :=
  update_of_ne h ..

@[simp] theorem openFiles_set_self : (v.setFile fd f).openFiles fd = f := update_self ..

theorem HeapOk.setFile (H : HeapOk v) (fd : Fin 64) (f : FileDescriptor) :
    HeapOk (v.setFile fd f) :=
  H.congr rfl rfl rfl rfl H.nullNode fun _ _ n _ hn => ⟨n, hn⟩

theorem node_recounted (hn : v.vnodes node = some n) (hm : v.vnodes b = some m) :
    ∃ m', (v.setVnode node { n with ref }).vnodes b = some m' ∧ m'.mode = m.mode ∧
      m'.data = m.data ∧ m'.nlink = m.nlink := by
  by_cases hb : b = node
  · subst hb
    obtain rfl := mem_unique hn hm
    exact ⟨_, vnodes_set_self .., rfl, rfl, rfl⟩
  · exact ⟨m, (vnodes_set_ne _ _ hb).trans hm, rfl, rfl, rfl⟩

theorem node_of_recounted (hn : v.vnodes node = some n)
    (hm : (v.setVnode node { n with ref }).vnodes b = some m) :
    ∃ m₀, v.vnodes b = some m₀ ∧ m₀.mode = m.mode ∧ m₀.data = m.data ∧ m₀.nlink = m.nlink := by
  by_cases hb : b = node
  · subst hb
    rw [vnodes_set_self, some_inj] at hm
    exact ⟨n, hn, hm ▸ rfl, hm ▸ rfl, hm ▸ rfl⟩
  · exact ⟨m, (vnodes_set_ne _ _ hb).symm.trans hm, rfl, rfl, rfl⟩

theorem SlotOk.recounted (S : SlotOk v f) (hn : v.vnodes node = some n)
    (hnodes : w.vnodes = (v.setVnode node { n with ref }).vnodes)
    (hentries : w.ventries = v.ventries) (hsockets : w.sockets = v.sockets) : SlotOk w f := by
  refine S.mono (fun m hm => ?_) (fun _ _ _ h => hsockets ▸ h)
    (fun e he hen => ⟨e, hentries ▸ he, hen⟩)
    fun hno b e he => hno b e (hentries ▸ he)
  obtain ⟨m', hm', hmode, hdata, hlink⟩ := node_recounted hn hm
  exact ⟨m', hnodes ▸ hm', hmode, hdata, fun h => hlink ▸ h, fun _ => hlink⟩

theorem SlotsOk.opened (F : SlotsOk strict v) (hfree : (v.openFiles fd).refcount = 0)
    (hnode : node ≠ 0) (hn : v.vnodes node = some n) (hmax : n.ref.toNat + 1 < 2 ^ 32)
    (hkind : SocketSlot v (openedFile node path) n ∨ EntrySlot v (openedFile node path) n)
    (hdata : sIssock n.mode = true → ∀ i m, (v.openFiles i).refcount ≠ 0 →
      v.vnodes (v.openFiles i).inode = some m → sIssock m.mode = true → m.data ≠ n.data) :
    SlotsOk strict ((v.setVnode node { n with ref := n.ref + 1 }).setFile fd
    (openedFile node path)) := by
  generalize hw : (v.setVnode node { n with ref := n.ref + 1 }).setFile fd
    (openedFile node path) = w
  have hfd : w.openFiles fd = openedFile node path := by rw [← hw, openFiles_set_self]
  have hother : ∀ i, i ≠ fd → w.openFiles i = v.openFiles i := fun i hi => by
    rw [← hw]
    exact openFiles_set_ne hi
  have hnodes : w.vnodes = (v.setVnode node { n with ref := n.ref + 1 }).vnodes := by rw [← hw]; rfl
  have hentries : w.ventries = v.ventries := by rw [← hw]; rfl
  have hmono : ∀ f, SlotOk v f → SlotOk w f :=
    fun f S => S.recounted hn hnodes hentries (by rw [← hw]; rfl)
  have hused : ∀ b, usedBy w b = usedBy v b + one (decide (b = node)) := by
    intro b
    have hset : usedBy w b + one ((v.openFiles fd).isOn b) = usedBy v b + one
        ((openedFile node path).isOn b) :=
      hw ▸ usedBy_setFile (v.setVnode node _) fd (openedFile node path) b
    rwa [isOn_of_idle hfree, isOn_of_used (show (1 : BitVec 32) ≠ 0 by decide)] at hset
  refine ⟨fun i hi => ?_, fun i hi => ?_, fun b m hm => ?_,
    fun i j m m' hi hj hm hm' hms hms' heq => ?_, fun b e m he hm => ?_⟩
  · by_cases hif : i = fd
    · rw [hif, hfd]
      exact hmono _ ⟨hnode, n, hn, hkind⟩
    · rw [hother i hif] at hi ⊢
      exact hmono _ (F.slot i hi)
  · by_cases hif : i = fd
    · rw [hif, hfd] at hi
      exact absurd hi (show (1 : BitVec 32) ≠ 0 by decide)
    · rw [hother i hif] at hi ⊢
      exact F.idle i hi
  · rw [hused]
    rcases eq_or_ne b node with rfl | hb
    · rw [hnodes, vnodes_set_self, some_inj] at hm
      obtain ⟨hle, heq⟩ := F.refs b n hn
      have hadd : (n.ref + 1).toNat = n.ref.toNat + 1 := by exact Nat.mod_eq_of_lt hmax
      rw [← hm, decide_eq_true rfl, one_true]
      rw [hadd]
      exact ⟨by omega, fun hs => by rw [heq hs]⟩
    · rw [hnodes, vnodes_set_ne _ _ hb] at hm
      rw [decide_eq_false hb]
      exact F.refs b m hm
  · -- the new slot has a socket of its own
    rw [hnodes] at hm hm'
    obtain ⟨m₀, hm₀, hmode, hd, -⟩ := node_of_recounted hn hm
    obtain ⟨m₁, hm₁, hmode', hd', -⟩ := node_of_recounted hn hm'
    rw [← hmode] at hms
    rw [← hmode'] at hms'
    rw [← hd, ← hd'] at heq
    by_cases hif : i = fd <;> by_cases hjf : j = fd
    · rw [hif, hjf]
    · rw [hif, hfd] at hm₀ ⊢
      rw [hother j hjf] at hj hm₁ ⊢
      rw [show v.vnodes node = some m₀ from hm₀, some_inj] at hn
      exact absurd heq.symm (hn ▸ hdata (hn ▸ hms) j m₁ hj hm₁ hms')
    · rw [hjf, hfd] at hm₁ ⊢
      rw [hother i hif] at hi hm₀ ⊢
      rw [show v.vnodes node = some m₁ from hm₁, some_inj] at hn
      exact absurd heq (hn ▸ hdata (hn ▸ hms') i m₀ hi hm₀ hms)
    · rw [hother i hif] at hi hm₀ ⊢
      rw [hother j hjf] at hj hm₁ ⊢
      exact F.single i j m₀ m₁ hi hj hm₀ hm₁ hms hms' heq
  · rw [hnodes] at hm
    obtain ⟨m₀, hm₀, hmode, -, hlink⟩ := node_of_recounted hn hm
    rw [← hmode, ← hlink]
    exact F.entries b e m₀ (hentries ▸ he) hm₀

theorem SocketOpen.opened {sock : Addr} (h : SocketOpen v sock)
    (hfree : (v.openFiles fd).refcount = 0) (hn : v.vnodes node = some n) :
    SocketOpen ((v.setVnode node { n with ref := n.ref + 1 }).setFile fd (openedFile node path))
    sock := by
  obtain ⟨i, m, hi, hm, hmode, hdata⟩ := h
  have hif : i ≠ fd := by
    rintro rfl
    exact hi hfree
  have hfile : ((v.setVnode node { n with ref := n.ref + 1 }).setFile fd
    (openedFile node path)).openFiles i =
      v.openFiles i := openFiles_set_ne hif
  obtain ⟨m', hm', hmode', hdata', -⟩ := @node_recounted (n.ref + 1) _ m v node n hn hm
  exact ⟨i, m', hfile ▸ hi, by rw [hfile]; exact hm', hmode' ▸ hmode, hdata'.trans hdata⟩

/-! ## Counting -/

/-- **A slot that stays in use** can have any count. -/
theorem FilesOk.recounted (F : FilesOk strict v) (hused : (v.openFiles fd).refcount ≠ 0)
    {c : BitVec 32} (hc : c ≠ 0) :
    FilesOk strict (v.setFile fd { v.openFiles fd with refcount := c }) := by
  generalize hw : v.setFile fd { v.openFiles fd with refcount := c } = w
  -- the slots are the same but for their counts, and as many are in use
  have hfile : ∀ i, (w.openFiles i).inode = (v.openFiles i).inode ∧
      (w.openFiles i).path = (v.openFiles i).path ∧
      ((w.openFiles i).refcount ≠ 0 ↔ (v.openFiles i).refcount ≠ 0) := by
    intro i
    rw [← hw]
    by_cases hi : i = fd
    · rw [hi, openFiles_set_self]
      exact ⟨rfl, rfl, iff_of_true hc hused⟩
    · rw [openFiles_set_ne hi]
      exact ⟨rfl, rfl, Iff.rfl⟩
  have hby a : usedBy w a = usedBy v a := by
    refine countP_congr fun i _ => ?_
    rw [isOn_iff, isOn_iff, (hfile i).1, (hfile i).2.2]
  have hnodes : w.vnodes = v.vnodes := by rw [← hw]; rfl
  have hentries : w.ventries = v.ventries := by rw [← hw]; rfl
  have hsockets : w.sockets = v.sockets := by rw [← hw]; rfl
  refine ⟨⟨fun i hi => ?_, fun i hi => ?_, fun b m hm => ?_, fun i j m m' hi hj hm hm' => ?_,
    fun b e m he hm => ?_⟩, fun hs sock hsock => ?_⟩
  · obtain ⟨hinode, hpath, hcount⟩ := hfile i
    obtain ⟨hne, n, hn, hkind⟩ := F.slot i (hcount.1 hi)
    refine ⟨hinode ▸ hne, n, hnodes ▸ hinode ▸ hn, hkind.imp (fun K => ?_) fun K => ?_⟩
    · refine ⟨K.mode, K.nlink, hpath.trans K.path, hsockets ▸ K.socket, fun b e he => ?_⟩
      rw [hinode]
      exact K.anonymous b e (hentries ▸ he)
    · refine ⟨K.mode, K.nlink, ?_⟩
      rw [hpath, hinode, hentries]
      exact K.path
  · obtain ⟨hinode, -, hcount⟩ := hfile i
    rw [hinode]
    exact F.idle i (not_not.1 (mt hcount.2 (not_not.2 hi)))
  · rw [hby]
    exact F.refs b m (hnodes ▸ hm)
  · rw [(hfile i).1, (hfile j).1]
    rw [(hfile i).1, hnodes] at hm
    rw [(hfile j).1, hnodes] at hm'
    exact F.single i j m m' ((hfile i).2.2.1 hi) ((hfile j).2.2.1 hj) hm hm'
  · exact F.entries b e m (hentries ▸ he) (hnodes ▸ hm)
  · obtain ⟨i, n, hi, hn, hrest⟩ := F.shut hs sock (hsockets ▸ hsock)
    refine ⟨i, n, (hfile i).2.2.2 hi, ?_, hrest⟩
    rwa [(hfile i).1, hnodes]

/-! ## Closing -/

/-- What the last `vfs_put_file` leaves of a slot. -/
def closedFile : FileDescriptor := ⟨0, 0, 0, -1, 0⟩

/-- What `vnode_put` does: there are more references or links, or the node goes, with the socket
that it is. -/
theorem meets_vnodePut (hn : v.vnodes a = some n)
    (hsock : sIssock n.mode = true → v.sockets n.data = true) :
    Meets IsFreed (vnodePut v a) fun w =>
      (¬(n.ref ≤ 1 ∧ n.nlink = 0) ∧ w = v.setVnode a { n with ref := n.ref - 1 }) ∨
      ((n.ref ≤ 1 ∧ n.nlink = 0) ∧ w = { v with
        vnodes := update v.vnodes a none
        sockets := if sIssock n.mode then update v.sockets n.data false else v.sockets }) := by
  refine (meets_vnode fun _ => ⟨n, hn⟩).bind fun m ⟨_, hm⟩ => ?_
  rw [hn] at hm
  cases hm
  refine meets_ite (fun hlast => ?_) fun hmore => meets_ok.2 (.inl ⟨hmore, rfl⟩)
  have hself : (v.setVnode a { n with ref := n.ref - 1 }).vnodes a =
    some { n with ref := n.ref - 1 } :=
    vnodes_set_self ..
  refine (meets_vnode fun _ => ⟨_, hself⟩).bind fun m ⟨_, hm⟩ => ?_
  rw [hself] at hm
  cases hm
  refine meets_ite (fun hs => ?_) fun hs => meets_ok.2 (.inr ⟨hlast, ?_⟩)
  · refine Meets.bind (Q := fun u => u = { v.setVnode a { n with ref := n.ref - 1 } with
      sockets := update v.sockets n.data false }) ?_ fun u hu => meets_ok.2 (.inr ⟨hlast, ?_⟩)
    · refine meets_ite (fun _ => meets_error.2 id) fun _ => ?_
      exact meets_ite (fun _ => meets_ok.2 rfl) fun hfreed => absurd (hsock hs) hfreed
    · subst hu
      simp [Vfs.setVnode, update_idem, hs]
  · simp only [Vfs.setVnode, update_idem]
    rw [if_neg hs]

theorem HeapOk.eraseNode (H : HeapOk v) (hanon : Anonymous v a) (hentries : w.ventries = v.ventries)
    (hnodes : w.vnodes = update v.vnodes a none) (htable : w.hashTable = v.hashTable)
    (hroot : w.rootNode = v.rootNode) (hmounts : w.mounts = v.mounts) : HeapOk w := by
  refine H.congr hentries htable hroot hmounts ?_ fun b e m he hm => ?_
  · rw [hnodes]
    by_cases h0 : a = 0
    · rw [h0, update_self]
    · rw [update_of_ne (Ne.symm h0), H.nullNode]
  · rw [hnodes, update_of_ne (hanon b e he)]
    exact ⟨m, hm⟩

/-- The last reference to a slot is gone, and with it one to its node. -/
structure Closed (v w : Vfs) (fd : Fin 64) (n : Vnode) : Prop where
  openFiles : w.openFiles = update v.openFiles fd closedFile
  entries : ∀ a e, v.ventries a = some e → e.node ≠ 0 → ∃ f, w.ventries a = some f ∧ f.node = e.node
  back : ∀ a f, w.ventries a = some f → ∃ e, v.ventries a = some e ∧ f.node = e.node
  nodes : (¬(n.ref ≤ 1 ∧ n.nlink = 0) ∧ w.sockets = v.sockets ∧ w.vnodes =
      update v.vnodes (v.openFiles fd).inode (some { n with ref := n.ref - 1 })) ∨
    ((n.ref ≤ 1 ∧ n.nlink = 0) ∧
      w.sockets = (if sIssock n.mode then update v.sockets n.data false else v.sockets) ∧
      w.vnodes = update v.vnodes (v.openFiles fd).inode none)

section Closed

variable (F : FilesOk strict v) (hfd : (v.openFiles fd).refcount ≠ 0)
  (hn : v.vnodes (v.openFiles fd).inode = some n) (K : Closed v w fd n)

include K

theorem Closed.self : w.openFiles fd = closedFile := by
  rw [K.openFiles, update_self]

theorem Closed.other (hi : i ≠ fd) : w.openFiles i = v.openFiles i := by
  rw [K.openFiles, update_of_ne hi]

theorem Closed.ne (hi : (w.openFiles i).refcount ≠ 0) : i ≠ fd := by
  rintro rfl
  rw [K.self] at hi
  exact hi rfl

/-- A node that is still there is the one that the slot was open on, or as it was. -/
theorem Closed.cases (hm : w.vnodes b = some m) :
    (b = (v.openFiles fd).inode ∧ m = { n with ref := n.ref - 1 }) ∨
      (b ≠ (v.openFiles fd).inode ∧ v.vnodes b = some m) := by
  by_cases hb : b = (v.openFiles fd).inode
  · left
    rcases K.nodes with ⟨-, -, hnodes⟩ | ⟨-, -, hnodes⟩
    all_goals rw [hnodes, hb, update_self] at hm
    · exact ⟨hb, (some_inj.1 hm).symm⟩
    · cases hm
  · right
    rcases K.nodes with ⟨-, -, hnodes⟩ | ⟨-, -, hnodes⟩
    all_goals rw [hnodes, update_of_ne hb] at hm
    all_goals exact ⟨hb, hm⟩

include hfd

theorem Closed.usedBy (b : Addr) :
    usedBy w b + one (decide (b = (v.openFiles fd).inode)) = Fs.usedBy v b := by
  have hset := usedBy_setFile v fd closedFile b
  rw [usedBy_congr (show w.openFiles = (v.setFile fd closedFile).openFiles from K.openFiles)]
  rwa [isOn_of_used hfd] at hset

include F hn

theorem Closed.other_inode (hlast : n.ref ≤ 1) (hi : (w.openFiles i).refcount ≠ 0) :
    (w.openFiles i).inode ≠ (v.openFiles fd).inode := by
  intro heq
  have hpos := usedBy_pos hi
  have hused := K.usedBy hfd (w.openFiles i).inode
  have hle := (F.refs _ n hn).1
  have href : n.ref.toNat ≤ 1 := hlast
  rw [decide_eq_true heq, one_true, heq] at hused
  rw [heq] at hpos
  omega

theorem Closed.keeps (hi : (w.openFiles i).refcount ≠ 0)
    (hm : v.vnodes (w.openFiles i).inode = some m) :
    ∃ m', w.vnodes (w.openFiles i).inode = some m' ∧ m'.mode = m.mode ∧ m'.data = m.data ∧
    m'.nlink = m.nlink := by
  rcases K.nodes with ⟨-, -, hnodes⟩ | ⟨hlast, -, hnodes⟩
  · by_cases hb : (w.openFiles i).inode = (v.openFiles fd).inode
    · rw [hb, hn, some_inj] at hm
      refine ⟨{ n with ref := n.ref - 1 }, ?_, hm ▸ rfl, hm ▸ rfl, hm ▸ rfl⟩
      rw [hnodes, hb, update_self]
    · exact ⟨m, by rw [hnodes, update_of_ne hb, hm], rfl, rfl, rfl⟩
  · exact ⟨m, by rw [hnodes, update_of_ne (K.other_inode F hfd hn hlast.1 hi), hm], rfl, rfl, rfl⟩

theorem Closed.socket (hi : (w.openFiles i).refcount ≠ 0)
    (hm : v.vnodes (w.openFiles i).inode = some m) (hmode : sIssock m.mode = true)
    (hsock : v.sockets m.data = true) : w.sockets m.data = true := by
  rcases K.nodes with ⟨-, hsockets, -⟩ | ⟨hlast, hsockets, -⟩
  · rwa [hsockets]
  rw [hsockets]
  by_cases hs : sIssock n.mode = true
  · have hif := K.ne hi
    have hdata : m.data ≠ n.data := by
      intro hd
      refine K.other_inode F hfd hn hlast.1 hi ?_
      rw [K.other hif] at hi hm ⊢
      exact F.single i fd m n hi hfd hm hn hmode hs hd
    rwa [if_pos hs, update_of_ne hdata]
  · rwa [if_neg hs]

theorem FilesOk.closed : FilesOk strict w := by
  have hslot := F.slot fd hfd
  refine ⟨⟨fun i hi => ?_, fun i hi => ?_, fun b m hm => ?_,
    fun i j m m' hi hj hm hm' hms hms' heq => ?_, fun b f m hf hm => ?_⟩, fun hs sock hsock => ?_⟩
  · have hif := K.ne hi
    have S : SlotOk v (w.openFiles i) := by
      rw [K.other hif] at hi ⊢
      exact F.slot i hi
    refine S.mono (fun m hm => ?_) (fun m hm => K.socket F hfd hn hi hm) (fun e he hen => ?_)
      fun hno b f hf => ?_
    · obtain ⟨m', hm', hmode, hdata, hlink⟩ := K.keeps F hfd hn hi hm
      exact ⟨m', hm', hmode, hdata, fun h => hlink ▸ h, fun _ => hlink⟩
    · obtain ⟨f, hf, hfe⟩ := K.entries _ e he (hen ▸ S.inode)
      exact ⟨f, hf, hfe.trans hen⟩
    · obtain ⟨e, he, hfe⟩ := K.back b f hf
      rw [hfe]
      exact hno b e he
  · by_cases hif : i = fd
    · rw [hif, K.self]
      rfl
    · rw [K.other hif] at hi ⊢
      exact F.idle i hi
  · have hused := K.usedBy hfd b
    rcases K.cases hm with ⟨rfl, rfl⟩ | ⟨hb, hm⟩
    · obtain ⟨hle, heq⟩ := F.refs _ n hn
      rw [decide_eq_true rfl, one_true] at hused
      have hsub : (n.ref - 1).toNat = n.ref.toNat - 1 := by
        rw [toNat_sub_of_le]
        · rfl
        · show 1 ≤ n.ref.toNat
          omega
      dsimp only
      exact ⟨by omega, fun hs => by have := heq hs; omega⟩
    · rw [decide_eq_false hb, one_false] at hused
      rw [← add_zero (Fs.usedBy w b), hused]
      exact F.refs b m hm
  · have hif := K.ne hi
    have hjf := K.ne hj
    obtain ⟨m₀, hm₀, -⟩ := (F.slot i (K.other hif ▸ hi)).node
    obtain ⟨m₁, hm₁, -⟩ := (F.slot j (K.other hjf ▸ hj)).node
    obtain ⟨m₂, hm₂, hmode, hdata, -⟩ := K.keeps F hfd hn hi (K.other hif ▸ hm₀)
    obtain ⟨m₃, hm₃, hmode', hdata', -⟩ := K.keeps F hfd hn hj (K.other hjf ▸ hm₁)
    rw [hm, some_inj] at hm₂
    rw [hm', some_inj] at hm₃
    subst hm₂ hm₃
    rw [K.other hif] at hi ⊢
    rw [K.other hjf] at hj ⊢
    exact F.single i j m₀ m₁ hi hj hm₀ hm₁ (hmode ▸ hms) (hmode' ▸ hms')
      (by rw [← hdata, ← hdata', heq])
  · obtain ⟨e, he, hfe⟩ := K.back b f hf
    rw [hfe] at hm
    rcases K.cases hm with ⟨hb, rfl⟩ | ⟨-, hm⟩
    · exact F.entries b e n he (hb ▸ hn)
    · exact F.entries b e m he hm
  · -- the socket is open elsewhere
    have hold : v.sockets sock = true ∧
        (n.ref ≤ 1 ∧ n.nlink = 0 → sIssock n.mode = true → sock ≠ n.data) := by
      rcases K.nodes with ⟨hmore, hsockets, -⟩ | ⟨-, hsockets, -⟩
      · exact ⟨hsockets ▸ hsock, fun h => absurd h hmore⟩
      rw [hsockets] at hsock
      split_ifs at hsock with hs'
      · by_cases hd : sock = n.data
        · simp [hd] at hsock
        · rw [update_of_ne hd] at hsock
          exact ⟨hsock, fun _ _ => hd⟩
      · exact ⟨hsock, fun _ h => absurd h hs'⟩
    obtain ⟨i, m, hi, hm, hmode, hdata⟩ := F.shut hs sock hold.1
    have hopen : ∃ j, (w.openFiles j).refcount ≠ 0 ∧
        (w.openFiles j).inode = (v.openFiles i).inode := by
      rcases eq_or_ne i fd with rfl | hif
      · rw [hn] at hm
        cases hm
        obtain ⟨n', hn', hkind⟩ := hslot.node
        rw [hn] at hn'
        cases hn'
        have hlink : n.nlink = 0 := by
          rcases hkind with S | S
          · exact S.nlink
          · simp [S.mode] at hmode
        have hmore : ¬n.ref ≤ 1 := fun h => hold.2 ⟨h, hlink⟩ hmode hdata.symm
        have hused := K.usedBy hfd (v.openFiles i).inode
        have heq := (F.refs _ n hn).2 hs
        rw [decide_eq_true rfl, one_true] at hused
        refine exists_of_usedBy ?_
        have href : ¬n.ref.toNat ≤ 1 := hmore
        omega
      · exact ⟨i, K.other hif ▸ hi, by rw [K.other hif]⟩
    obtain ⟨j, hj, hinode⟩ := hopen
    obtain ⟨m', hm', hmode', hdata', -⟩ := K.keeps F hfd hn hj (hinode ▸ hm)
    exact ⟨j, m', hj, hm', hmode' ▸ hmode, hdata'.trans hdata⟩

end Closed

theorem rc_setFile (v : Vfs) (fd i : Fin 64) (f : FileDescriptor) :
    (v.setFile fd f).rc i = if i = fd then f.refcount.toNat else v.rc i := by
  by_cases hi : i = fd
  · simp [hi, Vfs.rc, openFiles_set_self]
  · simp [hi, Vfs.rc, openFiles_set_ne hi]

/-- **`vfs_put_file`**: a slot that is in use loses one reference, and with the last one what it was
open on. -/
theorem FilesOk.putFile (F : FilesOk strict v) (H : HeapOk v)
    (hfd : (v.openFiles fd).refcount ≠ 0) :
    Meets IsFreed (v.putFile fd) fun w => HeapOk w ∧ FilesOk strict w ∧
    (∀ a, Linked v a → Linked w a) ∧
      ∀ i, w.rc i + one (decide (i = fd)) = v.rc i := by
  have hpos : (v.openFiles fd).refcount.toNat ≠ 0 := fun h => hfd (eq_of_toNat_eq h)
  have hsub : ((v.openFiles fd).refcount - 1).toNat = (v.openFiles fd).refcount.toNat - 1 := by
    rw [toNat_sub_of_le]
    · rfl
    · show 1 ≤ (v.openFiles fd).refcount.toNat
      omega
  have hcount : ∀ (w : Vfs), (∀ i, i ≠ fd → w.rc i = v.rc i) →
      w.rc fd = (v.openFiles fd).refcount.toNat - 1 → ∀ i, w.rc i + one (decide (i = fd)) =
      v.rc i := by
    intro w hother hself i
    by_cases hi : i = fd
    · rw [hi, hself, decide_eq_true rfl, one_true, Vfs.rc]
      omega
    · rw [hother i hi, decide_eq_false hi, one_false, add_zero]
  refine meets_ite (fun hmore => meets_ok.2 ?_) fun hlast => ?_
  · have hc : (v.openFiles fd).refcount - 1 ≠ 0 := by
      intro h0
      rw [h0] at hsub
      have hmore' : 1 < (v.openFiles fd).refcount.toNat := hmore
      have hzero : (0 : BitVec 32).toNat = 0 := rfl
      omega
    refine ⟨H.setFile .., F.recounted hfd hc, fun a h => h, hcount _ (fun i hi => ?_) ?_⟩
    · rw [rc_setFile, if_neg hi]
    · rwa [rc_setFile, if_pos rfl]
  · have hone : (v.openFiles fd).refcount.toNat = 1 := by
      have hle : ¬1 < (v.openFiles fd).refcount.toNat := hlast
      omega
    obtain ⟨hinode, n, hn, hkind⟩ := F.slot fd hfd
    have hsock : sIssock n.mode = true → v.sockets n.data = true := by
      intro hs
      rcases hkind with S | S
      · exact S.socket
      · simp [S.mode] at hs
    generalize hv₀ : v.setFile fd
      { v.openFiles fd with refcount := (v.openFiles fd).refcount - 1 } = v₀
    have H₀ : HeapOk v₀ := hv₀ ▸ H.setFile ..
    have hn₀ : v₀.vnodes (v.openFiles fd).inode = some n := by rw [← hv₀]; exact hn
    refine (meets_vnode fun _ => ⟨n, hn₀⟩).bind fun _ _ => ?_
    refine (meets_vnodePut hn₀ (by rw [← hv₀]; exact hsock)).bind fun v₁ hv₁ => ?_
    -- the heap without the reference, and perhaps without the node
    have h₁ : HeapOk v₁ ∧ v₁.ventries = v.ventries ∧ v₁.openFiles = v₀.openFiles ∧
        ((¬(n.ref ≤ 1 ∧ n.nlink = 0) ∧ v₁.sockets = v.sockets ∧ v₁.vnodes =
            update v.vnodes (v.openFiles fd).inode (some { n with ref := n.ref - 1 })) ∨
          ((n.ref ≤ 1 ∧ n.nlink = 0) ∧
            v₁.sockets = (if sIssock n.mode then update v.sockets n.data false else v.sockets) ∧
            v₁.vnodes = update v.vnodes (v.openFiles fd).inode none)) := by
      rcases hv₁ with ⟨hmore, rfl⟩ | ⟨hgone, rfl⟩
      · exact ⟨H₀.setVnode hinode _,
          by rw [← hv₀]; rfl, rfl, .inl ⟨hmore, by rw [← hv₀]; exact ⟨rfl, rfl⟩⟩⟩
      have hanon : Anonymous v₀ (v.openFiles fd).inode := by
        rcases hkind with S | S
        · intro b e he
          exact S.anonymous b e (by rw [← hv₀] at he; exact he)
        · exact absurd hgone.2 S.nlink
      exact ⟨H₀.eraseNode hanon rfl rfl rfl rfl rfl, by rw [← hv₀]; rfl, rfl,
        .inr ⟨hgone, by rw [← hv₀]; exact ⟨rfl, rfl⟩⟩⟩
    obtain ⟨H₁, hentries, hopen, hnodes⟩ := h₁
    have hput : Meets IsFreed (putPath v₁ (v.openFiles fd).path) fun w => HeapOk w ∧
        Recount v₁ w := by
      refine meets_ite (fun _ => meets_ok.2 ⟨H₁, .refl v₁⟩) fun hpath => ?_
      rcases hkind with S | S
      · exact absurd S.path hpath
      · obtain ⟨e, he, hen⟩ := S.path
        exact (meets_ventryPut ⟨e, hentries ▸ he, hen ▸ hinode⟩).mono fun w R => ⟨H₁.recount R, R⟩
    refine hput.bind fun v₂ ⟨H₂, R⟩ => meets_ok.2 ?_
    generalize hw : v₂.setFile fd ⟨0, 0, 0, -1, (v.openFiles fd).refcount - 1⟩ = w
    have hzero : (v.openFiles fd).refcount - 1 = 0 := eq_of_toNat_eq (by rw [hsub, hone]; rfl)
    have K : Closed v w fd n := by
      refine ⟨?_, fun a e he hen => ?_, fun a f hf => ?_, ?_⟩
      · rw [← hw, hzero]
        show update v₂.openFiles fd closedFile = _
        rw [R.openFiles, hopen, ← hv₀]
        exact update_idem ..
      · obtain ⟨f, hf, hb⟩ := R.keep a e (hentries ▸ he) hen
        refine ⟨f, ?_, Ventry.node_of_bare hb⟩
        rwa [← hw]
      · rw [← hw] at hf
        obtain ⟨e, he, hb⟩ := R.back a f hf
        exact ⟨e, hentries ▸ he, Ventry.node_of_bare hb⟩
      · rw [← hw]
        show (_ ∧ v₂.sockets = _ ∧ v₂.vnodes = _) ∨ (_ ∧ v₂.sockets = _ ∧ v₂.vnodes = _)
        rwa [R.sockets, R.vnodes]
    refine ⟨hw ▸ H₂.setFile .., F.closed hfd hn K, fun a ⟨e, he, hen⟩ => ?_,
      hcount w (fun i hi => ?_) ?_⟩
    · obtain ⟨f, hf, hfe⟩ := K.entries a e he hen
      exact ⟨f, hf, hfe ▸ hen⟩
    · simp [Vfs.rc, K.other hi]
    · rw [Vfs.rc, K.self, hone]
      rfl

end Slot

end Monolith.Fs
