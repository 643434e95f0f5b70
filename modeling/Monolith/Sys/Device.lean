import Mathlib.Data.List.Find
import Mathlib.Data.List.Induction
import Monolith.Lib.Buckets

/-!
# Device numbers

`sys/device.c` has a hash table for the character devices and one for the block devices.  A new
device goes in front of its list, and none is taken out again.  The tables are maps: a lookup ends,
and finds the device that was made last with the number (`lookup_newest`).
-/

namespace Monolith.Device

open Function Hashed List

inductive Kind where
  | char
  | block
  deriving DecidableEq, Repr

@[ext]
structure Key where
  kind : Kind
  dev : BitVec 64
  deriving DecidableEq, Repr

/-- The table, and `dev_major(dev) % 256`. -/
def Key.bucket (key : Key) : Kind × Nat := (key.kind, ((key.dev >>> 32) &&& 0xffffffff).toNat % 256)

inductive Slot where
  /-- `char_devices[hash]` or `block_devices[hash]` -/
  | head (bucket : Kind × Nat)
  | next (device : Nat)
  deriving DecidableEq, Repr

/-- Both tables.  `kmalloc` gives each of the `count` devices an address of its own, and 0 is
`nullptr`. -/
structure Devices where
  links : Slot → Nat := fun _ => 0
  dev : Nat → BitVec 64 := fun _ => 0
  count : Nat := 0

def Devices.new (s : Devices) (key : Key) : Devices where
  links := update (update s.links (.next (s.count + 1)) (s.links (.head key.bucket)))
    (.head key.bucket) (s.count + 1)
  dev := update s.dev (s.count + 1) key.dev
  count := s.count + 1

def chardevNew (s : Devices) (dev : BitVec 64) : Devices := s.new ⟨.char, dev⟩

def blockdevNew (s : Devices) (dev : BitVec 64) : Devices := s.new ⟨.block, dev⟩

/-- The loop of the lookups; there is no result if the list does not end. -/
def Devices.lookup (s : Devices) (key : Key) : Option (Option Nat) :=
  search (s.links ∘ .next) 0 (fun d => s.dev d == key.dev) (s.count + 1)
    (s.links (.head key.bucket))

def chardevLookup (s : Devices) (dev : BitVec 64) : Option (Option Nat) := s.lookup ⟨.char, dev⟩

def blockdevLookup (s : Devices) (dev : BitVec 64) : Option (Option Nat) := s.lookup ⟨.block, dev⟩

def step (s : Devices) : Key → Devices
  | ⟨.char, dev⟩ => chardevNew s dev
  | ⟨.block, dev⟩ => blockdevNew s dev

theorem step_eq (s : Devices) (key : Key) : step s key = s.new key := by
  obtain ⟨_ | _, dev⟩ := key <;> rfl

/-- The device that the last call for `key` made. -/
def newest (keys : List Key) (key : Key) : Option Nat :=
  (keys.reverse.idxOf? key).map (keys.length - ·)

theorem newest_concat (keys : List Key) (key : Key) :
    newest (keys ++ [key]) = update (newest keys) key (some (keys.length + 1)) := by
  funext k
  rw [newest, reverse_concat, idxOf?_cons, length_append, length_singleton]
  rcases eq_or_ne key k with rfl | hk
  · rw [beq_self_eq_true, if_pos rfl, update_self]
    rfl
  · rw [beq_false_of_ne hk, if_neg Bool.false_ne_true, update_of_ne hk.symm, newest, Option.map_map]
    congr 1
    funext i
    exact Nat.add_sub_add_right ..

/-- The lists are the map `f`. -/
structure Represents (s : Devices) (f : Key → Option Nat) (m : Kind × Nat → List Nat) : Prop where
  buckets : Buckets s.links Slot.head Slot.next 0 m
  bound : ∀ b, (m b).length ≤ s.count ∧ ∀ d ∈ m b, d ≤ s.count
  found : ∀ key, (m key.bucket).find? (s.dev · == key.dev) = f key

variable {s : Devices} {f : Key → Option Nat} {m : Kind × Nat → List Nat}

theorem Represents.lookup (h : Represents s f m) (key : Key) : s.lookup key = some (f key) := by
  rw [← h.found]
  exact search_eq (h.buckets.chain key.bucket) (Nat.lt_succ_of_le (h.bound _).1)

theorem Represents.new (h : Represents s f m) (key : Key) : Represents (s.new key)
    (update f key (some (s.count + 1))) (update m key.bucket ((s.count + 1) :: m key.bucket)) := by
  have hnew : ∀ b, s.count + 1 ∉ m b := fun b hb => Nat.not_succ_le_self _ ((h.bound b).2 _ hb)
  -- the devices that were there keep their numbers
  have hold (k : Key) : (m k.bucket).find? ((s.new key).dev · == k.dev) = f k := by
    rw [← h.found]
    refine find?_congr fun d hd => ?_
    have hd' : (s.new key).dev d = s.dev d := update_of_ne (fun heq : d = _ => hnew _ (heq ▸ hd)) ..
    rw [hd']
  have hself : (s.new key).dev (s.count + 1) = key.dev := update_self ..
  refine ⟨h.buckets.push (fun _ _ => Slot.head.inj) (fun _ _ => Slot.next.inj) nofun
    (Nat.succ_ne_zero _) hnew, fun b => ?_, fun k => ?_⟩
  · have hle : ∀ d ∈ m b, d ≤ s.count + 1 := fun d hd => Nat.le_succ_of_le ((h.bound b).2 d hd)
    rcases eq_or_ne b key.bucket with rfl | hb
    · rw [update_self, forall_mem_cons]
      exact ⟨Nat.succ_le_succ (h.bound _).1, Nat.le_refl _, hle⟩
    · rw [update_of_ne hb]
      exact ⟨Nat.le_succ_of_le (h.bound b).1, hle⟩
  · by_cases hb : k.bucket = key.bucket
    · rw [hb, update_self, find?_cons, hself, ← hb, hold]
      rcases eq_or_ne k key with rfl | hk
      · rw [beq_self_eq_true, update_self]
      · have hdev : key.dev ≠ k.dev := fun hdev => hk (Key.ext (congrArg Prod.fst hb) hdev.symm)
        rw [beq_false_of_ne hdev, update_of_ne hk]
    · rw [update_of_ne hb, hold, update_of_ne fun hk => hb (congrArg _ hk)]

/-- **Devices are found by their numbers.**  After any calls, a lookup ends, and finds the device of
its kind that was made last with the number, or none if there was none. -/
theorem lookup_newest (calls : List Key) (dev : BitVec 64) :
    chardevLookup (calls.foldl step {}) dev = some (newest calls ⟨.char, dev⟩) ∧
      blockdevLookup (calls.foldl step {}) dev = some (newest calls ⟨.block, dev⟩) := by
  have hinv : ∃ m, Represents (calls.foldl step {}) (newest calls) m ∧
      (calls.foldl step {}).count = calls.length := by
    induction calls using reverseRecOn with
    | nil =>
      have hempty : Buckets (fun _ => 0) Slot.head Slot.next 0 fun _ => [] :=
        ⟨fun _ => rfl, fun _ => nodup_nil, nofun⟩
      exact ⟨fun _ => [], ⟨hempty, fun _ => ⟨Nat.le_refl 0, nofun⟩, fun _ => rfl⟩, rfl⟩
    | append_singleton calls key ih =>
      obtain ⟨m, hm, hcount⟩ := ih
      rw [foldl_append, foldl_cons, foldl_nil, step_eq, newest_concat, length_append, ← hcount]
      exact ⟨_, hm.new key, rfl⟩
  obtain ⟨m, hm, -⟩ := hinv
  exact ⟨hm.lookup _, hm.lookup _⟩

end Monolith.Device
