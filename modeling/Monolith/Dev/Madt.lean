import Monolith.Lib.Bytes
import Monolith.Lib.Fallible

/-!
# The walks over the MADT

`smp_discover_cpus`, `lapic_get_base` and `ioapic_get_base` go from entry to entry of the table
until the length that is left is zero.  All of them visit each entry once and read the table only
exactly if the entries fill it, what is read of each is inside, the interrupts exist and there are
not too many CPUs (`madt_walks`).  Nothing but the last of that is checked (`madt_walks_fail`).
-/

namespace Monolith.Acpi

open Bytes Fallible Function List

inductive MadtFault
  /-- A read outside the table. -/
  | outside
  | index
  /-- There are `CONFIG_MAX_CPUS` CPUs already. -/
  | panic
  | running

/-- The `header.length` bytes of the table, and what follows in memory. -/
structure Madt where
  length : BitVec 32
  byte : Nat → BitVec 8

/-- The body of a loop over the entries. -/
structure Walk (σ : Type) where
  init : σ
  /-- The offsets and sizes of the fields that it reads, for a type. -/
  reads : σ → Nat → List (Nat × Nat)
  /-- What it does with their values. -/
  effect : σ → List Nat → Except MadtFault σ

/-- `smp_discover_cpus`: the local APIC ids of the `cpus`. -/
def smpDiscoverCpus : Walk (List Nat) where
  init := [0]
  reads
    | _, 0 => [(3, 1)]
    | _, _ => []
  effect cpus
    | [apicId] =>
      if apicId = 0 then .ok cpus
      else if cpus.length < 64 then .ok (cpus ++ [apicId]) else .error .panic
    | _ => .ok cpus

/-- `lapic_get_base`: `base_address`, `nmi_lint` and `nmi_cpu`. -/
def lapicGetBase : Walk (Nat × Nat × Nat) where
  init := (0, 1, 0xff)
  reads
    | _, 4 => [(2, 1), (3, 2), (5, 1)]
    | _, 5 => [(4, 8)]
    | _, _ => []
  effect s
    | [acpiCpuid, _, lint] => .ok (s.1, lint, acpiCpuid)
    | [lapicAddress64] => .ok (lapicAddress64, s.2)
    | _ => .ok s

/-- `ioapic_get_base`: `base_address`, `gsi_base` and `isa_irq_override`. -/
def ioapicGetBase : Walk (Nat × Nat × (Nat → Nat)) where
  init := (0, 0, fun _ => 0)
  reads
    | s, 1 => if s.1 = 0 then [(4, 4), (8, 4)] else []
    | _, 2 => [(2, 1), (3, 1), (4, 4), (8, 2)]
    | _, 3 => [(2, 1), (4, 2), (6, 4)]
    | _, _ => []
  effect s
    | [ioapicAddress, gsiBase] => .ok (ioapicAddress, gsiBase, s.2.2)
    | [_, irqSource, gsi, _] =>
      if irqSource < 16 then .ok (s.1, s.2.1, update s.2.2 irqSource (gsi % 256)) else .error .index
    | _ => .ok s

namespace Madt

variable (t : Madt) {σ : Type}

/-- The fields of the entry at `raw` with these offsets and sizes. -/
def read (raw : Nat) (fields : List (Nat × Nat)) : Except MadtFault (List Nat) :=
  if ∀ f ∈ fields, raw + f.1 + f.2 ≤ t.length.toNat then .ok (fields.map fun f =>
    load t.byte f.2 (raw + f.1))
  else .error .outside

/-- A loop from `raw` on: the entries that it visits. -/
def loop (w : Walk σ) : Nat → Nat → Nat → σ → Except MadtFault (List Nat × σ)
  | 0, _, _, _ => .error .running
  | fuel + 1, len, raw, s =>
    if len = 0 then .ok ([], s)
    else do
      let _header ← t.read raw [(0, 2)]
      let s ← w.effect s (← t.read raw (w.reads s (t.byte raw).toNat))
      let n := (t.byte (raw + 1)).toNat
      let (es, s) ← loop w fuel ((len + (2 ^ 64 - n)) % 2 ^ 64) (raw + n) s
      .ok (raw :: es, s)

def walk (w : Walk σ) (fuel : Nat) : Except MadtFault (List Nat × σ) :=
  t.loop w fuel ((t.length.toNat + (2 ^ 64 - 44)) % 2 ^ 64) 44 w.init

/-- How much of an entry the three walks read: the header, and what they look at in its type.  An
I/O APIC is read until one has been found. -/
def readSize (found : Bool) : Nat → Nat
  | 0 => 4
  | 1 => if found then 2 else 12
  | 2 | 3 => 10
  | 4 => 6
  | 5 => 12
  | _ => 2

/-- The entries fill the table from `raw` on, what is read of them is inside, and the interrupts
exist. -/
def Entries : Bool → Nat → List Nat → Prop
  | _, raw, [] => raw = t.length.toNat
  | found, raw, e :: es => e = raw ∧ raw + readSize found (t.byte raw).toNat ≤ t.length.toNat ∧
      ((t.byte raw).toNat = 2 → (t.byte (raw + 3)).toNat < 16) ∧
      Entries (found || (t.byte raw).toNat = 1 ∧ load t.byte 4 (raw + 4) ≠ 0)
      (raw + (t.byte (raw + 1)).toNat) es

/-- The CPUs that `smp_discover_cpus` adds. -/
def cpus (es : List Nat) : Nat := es.countP fun e => t.byte e = 0 ∧ t.byte (e + 3) ≠ 0

instance (t : Madt) (found : Bool) (raw : Nat) (es : List Nat) :
    Decidable (t.Entries found raw es) := by
  induction es generalizing found raw with
  | nil => exact inferInstanceAs (Decidable (_ = _))
  | cons e es ih =>
    exact @instDecidableAnd _ _ _ (@instDecidableAnd _ _ _ (@instDecidableAnd _ _ _ (ih ..)))

/-- What a walk does over the entries `es` from `raw` on, step by step. -/
def Visits (w : Walk σ) : σ → Nat → List Nat → σ → Prop
  | s, raw, [], s' => raw = t.length.toNat ∧ s' = s
  | s, raw, e :: es, s' => e = raw ∧ raw + 2 ≤ t.length.toNat ∧
      (∀ f ∈ w.reads s (t.byte raw).toNat, raw + f.1 + f.2 ≤ t.length.toNat) ∧
      ∃ s₁, w.effect s ((w.reads s (t.byte raw).toNat).map fun f => load t.byte f.2 (raw + f.1)) =
      .ok s₁ ∧
        Visits w s₁ (raw + (t.byte (raw + 1)).toNat) es s'

variable {t} {raw e fuel : Nat} {es : List Nat} {w : Walk σ} {s s' : σ}

theorem Visits.le (h : t.Visits w s raw es s') : raw ≤ t.length.toNat := by
  cases es with
  | nil => exact h.1.le
  | cons e es => exact (Nat.le_add_right ..).trans h.2.1

theorem read_eq_ok {fields : List (Nat × Nat)} {values : List Nat} :
    t.read raw fields = .ok values ↔
    (∀ f ∈ fields, raw + f.1 + f.2 ≤ t.length.toNat) ∧ values = fields.map fun f =>
    load t.byte f.2 (raw + f.1) := by
  rw [read]
  split_ifs with hin
  · rw [Except.ok.injEq, eq_comm, and_iff_right hin]
  · exact iff_of_false nofun fun h => hin h.1

/-- Behind the table there is no entry to read. -/
theorem loop_outside {len : Nat} (hraw : t.length.toNat < raw) (hlen : len ≠ 0) (r : List Nat × σ) :
    t.loop w fuel len raw s ≠ .ok r := by
  cases fuel with
  | zero => nofun
  | succ fuel =>
    have hread : t.read raw [(0, 2)] = .error .outside := by
      rw [read, if_neg]
      simp only [mem_singleton, forall_eq]
      omega
    rw [loop, if_neg hlen, hread]
    nofun

/-- **A walk** is over with these entries exactly if it visits them. -/
theorem loop_eq_ok (hraw : raw ≤ t.length.toNat) (hfuel : es.length < fuel) :
    t.loop w fuel (t.length.toNat - raw) raw s = .ok (es, s') ↔ t.Visits w s raw es s' := by
  have hmax := t.length.isLt
  induction fuel generalizing raw es s with
  | zero => omega
  | succ fuel ih =>
    rw [loop]
    split_ifs with hend
    · cases es with
      | nil =>
        rw [Visits, Except.ok.injEq, Prod.mk.injEq, eq_comm (a := s), and_iff_right rfl]
        exact (and_iff_right (by omega)).symm
      | cons e es => exact iff_of_false nofun fun h => absurd h.2.1 (by omega)
    simp only [bind_eq_ok, read_eq_ok, mem_singleton, forall_eq]
    cases es with
    | nil =>
      refine iff_of_false ?_ fun h => absurd h.1 (by omega)
      rintro ⟨_, _, _, _, _, _, _, _, h⟩
      cases h
    | cons e es =>
      -- what is left of the table after this entry, if it ends inside
      have hrest : ∀ s₁, t.loop w fuel
          ((t.length.toNat - raw + (2 ^ 64 - (t.byte (raw + 1)).toNat)) % 2 ^ 64)
          (raw + (t.byte (raw + 1)).toNat) s₁ = .ok (es, s') ↔
            t.Visits w s₁ (raw + (t.byte (raw + 1)).toNat) es s' := by
        intro s₁
        have hbyte := (t.byte (raw + 1)).isLt
        by_cases hin : raw + (t.byte (raw + 1)).toNat ≤ t.length.toNat
        · refine Iff.trans ?_ (ih hin (Nat.lt_of_succ_lt_succ hfuel))
          rw [show (t.length.toNat - raw + (2 ^ 64 - (t.byte (raw + 1)).toNat)) % 2 ^ 64 =
            t.length.toNat - (raw + (t.byte (raw + 1)).toNat) by omega]
        · exact iff_of_false (loop_outside (Nat.not_le.1 hin) (by omega) _) fun h => hin h.le
      constructor
      · rintro ⟨_, ⟨hheader, -⟩, _, ⟨hreads, rfl⟩, s₁, heffect, ⟨es', r⟩, hloop, h⟩
        cases h
        exact ⟨rfl, hheader, hreads, s₁, heffect, (hrest s₁).1 hloop⟩
      · rintro ⟨rfl, hheader, hreads, s₁, heffect, hvisits⟩
        exact ⟨_, ⟨hheader, rfl⟩, _, ⟨hreads, rfl⟩, s₁, heffect, (es, s'),
          (hrest s₁).2 hvisits, rfl⟩

end Madt

section Walks

open Madt

variable {t : Madt} {es : List Nat} {raw e : Nat} {σ : Type} {w : Walk σ} {s : σ}

theorem exists_visits_cons :
    (∃ s', t.Visits w s raw (e :: es) s') ↔ e = raw ∧ raw + 2 ≤ t.length.toNat ∧
    (∀ f ∈ w.reads s (t.byte raw).toNat, raw + f.1 + f.2 ≤ t.length.toNat) ∧
    ∃ s₁, w.effect s ((w.reads s (t.byte raw).toNat).map fun f => load t.byte f.2 (raw + f.1)) =
    .ok s₁ ∧
      ∃ s', t.Visits w s₁ (raw + (t.byte (raw + 1)).toNat) es s' := by
  constructor
  · rintro ⟨s', he, hheader, hreads, s₁, heffect, hrest⟩
    exact ⟨he, hheader, hreads, s₁, heffect, s', hrest⟩
  · rintro ⟨he, hheader, hreads, s₁, heffect, s', hrest⟩
    exact ⟨s', he, hheader, hreads, s₁, heffect, hrest⟩

/-- The three walks, from an entry on. -/
theorem visits_iff {cs : List Nat} {l : Nat × Nat × Nat} {io : Nat × Nat × (Nat → Nat)}
    (hcs : cs.length ≤ 64) :
    (∃ s, t.Visits smpDiscoverCpus cs raw es s) ∧ (∃ s, t.Visits lapicGetBase l raw es s) ∧
      (∃ s, t.Visits ioapicGetBase io raw es s) ↔
    t.Entries (io.1 ≠ 0) raw es ∧ cs.length + t.cpus es ≤ 64 := by
  induction es generalizing raw cs l io with
  | nil =>
    have hcpus : cs.length + t.cpus [] ≤ 64 := hcs
    simp only [Visits, exists_eq_right, Entries, and_self, hcpus, and_true]
  | cons e es ih =>
    have hone : ∀ a, load t.byte 1 a = (t.byte a).toNat := fun a => by simp [load]
    have hcpus : e = raw → t.cpus (e :: es) =
        t.cpus es + if (t.byte raw).toNat = 0 ∧ (t.byte (raw + 3)).toNat ≠ 0 then 1 else 0 := by
      rintro rfl
      simp [Madt.cpus, countP_cons, ← BitVec.toNat_inj]
    -- the entries behind this one, if nothing is noted of it
    have hrest := @ih (raw + (t.byte (raw + 1)).toNat) cs l io hcs
    simp only [exists_visits_cons, Entries]
    rcases htype : (t.byte raw).toNat with _ | _ | _ | _ | _ | _ | n
    · by_cases hid : (t.byte (raw + 3)).toNat = 0
      · simp [smpDiscoverCpus, lapicGetBase, ioapicGetBase, Madt.readSize, hone, hid] at hrest ⊢
        grind
      by_cases hroom : cs.length < 64
      · replace hrest := @ih (raw + (t.byte (raw + 1)).toNat) (cs ++ [(t.byte (raw + 3)).toNat]) l
          io (by rw [length_append]; exact hroom)
        simp [smpDiscoverCpus, lapicGetBase, ioapicGetBase, Madt.readSize, hone, hid,
          hroom] at hrest ⊢
        grind
      · simp [smpDiscoverCpus, hone, hid, hroom]
        grind
    · by_cases hfound : io.1 = 0
      · replace hrest := @ih (raw + (t.byte (raw + 1)).toNat) cs l
          (load t.byte 4 (raw + 4), load t.byte 4 (raw + 8), io.2.2) hcs
        simp [smpDiscoverCpus, lapicGetBase, ioapicGetBase, Madt.readSize, hfound] at hrest ⊢
        grind
      · simp [smpDiscoverCpus, lapicGetBase, ioapicGetBase, Madt.readSize, hfound] at hrest ⊢
        grind
    · by_cases hirq : (t.byte (raw + 3)).toNat < 16
      · replace hrest := @ih (raw + (t.byte (raw + 1)).toNat) cs l
          (io.1, io.2.1, update io.2.2 (t.byte (raw + 3)).toNat (load t.byte 4 (raw + 4) % 256)) hcs
        simp [smpDiscoverCpus, lapicGetBase, ioapicGetBase, Madt.readSize, hone, hirq] at hrest ⊢
        grind
      · simp [ioapicGetBase, hone, hirq]
    · simp [smpDiscoverCpus, lapicGetBase, ioapicGetBase, Madt.readSize] at hrest ⊢
      grind
    · replace hrest :=
        @ih (raw + (t.byte (raw + 1)).toNat) cs (l.1, load t.byte 1 (raw + 5),
        load t.byte 1 (raw + 2)) io hcs
      simp [smpDiscoverCpus, lapicGetBase, ioapicGetBase, Madt.readSize] at hrest ⊢
      grind
    · replace hrest := @ih (raw + (t.byte (raw + 1)).toNat) cs (load t.byte 8 (raw + 4), l.2) io hcs
      simp [smpDiscoverCpus, lapicGetBase, ioapicGetBase, Madt.readSize] at hrest ⊢
      grind
    · simp only [smpDiscoverCpus, lapicGetBase, ioapicGetBase, Madt.readSize, map_nil, not_mem_nil,
        false_implies, implies_true, true_and, Except.ok.injEq, exists_eq_left'] at hrest ⊢
      grind

/-- **The walks visit every entry** once, in order, exactly if the entries fill the table, what is
read of them is inside, the interrupts exist, and there are no more than 64 CPUs. -/
theorem madt_walks {t : Madt} {es : List Nat} {fuel : Nat} (hfuel : es.length < fuel) :
    (∃ s, t.walk smpDiscoverCpus fuel = .ok (es, s)) ∧
    (∃ s, t.walk lapicGetBase fuel = .ok (es, s)) ∧
      (∃ s, t.walk ioapicGetBase fuel = .ok (es, s)) ↔ t.Entries false 44 es ∧
      1 + t.cpus es ≤ 64 := by
  have hmax := t.length.isLt
  by_cases hlen : 44 ≤ t.length.toNat
  · have hstart : (t.length.toNat + (2 ^ 64 - 44)) % 2 ^ 64 = t.length.toNat - 44 := by omega
    simp only [Madt.walk, hstart, loop_eq_ok hlen hfuel]
    exact visits_iff (by decide)
  · -- the table is shorter than its header
    refine iff_of_false (fun ⟨⟨s, hwalk⟩, _⟩ => loop_outside (Nat.not_le.1 hlen) (by omega) _ hwalk)
      fun ⟨h, _⟩ => hlen ?_
    cases es with
    | nil => exact h.le
    | cons e es => exact (Nat.le_add_right ..).trans h.2.1

end Walks

/-- A CPU and the NMI of all CPUs. -/
theorem madt_walks_nmi : ∃ t : Madt, t.Entries false 44 [44, 52] ∧ t.cpus [44, 52] = 1 ∧
    (∃ s, t.walk smpDiscoverCpus 3 = .ok ([44, 52], s)) ∧
    ∃ s, t.walk lapicGetBase 3 = .ok ([44, 52], s) := by
  let t : Madt := ⟨58, fun a => [0, 8, 1, 1, 1, 0, 0, 0, 4, 6].getD (a - 44) 0xff⟩
  obtain ⟨hcpus, hlapic, -⟩ := (@madt_walks t [44, 52] 3 (by decide)).2 (by decide)
  exact ⟨t, by decide, by decide, hcpus, hlapic⟩

/-- An entry of length 0 has no end. -/
theorem madt_walks_fail :
    ¬∃ fuel,
      Madt.walk ⟨46, fun a => if a = 44 then 9 else 0⟩ lapicGetBase fuel ≠ .error .running := by
  push Not
  intro fuel
  induction fuel with
  | zero => rfl
  | succ fuel ih =>
    simp [Madt.walk, Madt.loop, Madt.read, lapicGetBase, ok_bind] at ih ⊢
    rw [ih]
    rfl

end Monolith.Acpi
