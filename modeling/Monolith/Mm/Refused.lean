import Monolith.Mm.System

/-!
# Requests that are refused

`vm_space_map` returns 0 where there is no place for an object.  The reference to the file of the
object has been taken by then, and it is kept (`refused_file_kept`); all else is as it was
(`refused_without_effect`).
-/

namespace Monolith.Mm

open Fallible Fs Transition Option List

variable {env : VmEnv} {openFiles : Nat → Int} {st st' : VmState} {info : VmMappingInfo}
  {args : MmapArgs} {o : VmObject} {xs ys : List VmObject} {first last ret : BitVec 64}

/-! ## No place for an object -/

/-- Nothing is placed at 0, in a space that does not begin there. -/
theorem base_ne_zero_of_mapList (hpos : first ≠ 0) (h : mapList first last xs info o = some ys) :
    o.base ≠ 0 := by
  rw [mapList] at h
  split at h
  · intro hzero
    refine (ite_none_left_eq_some.1 h).1 (.inl ?_)
    rw [hzero]
    exact BitVec.lt_def.2 (pos_of_ne_zero fun h0 => hpos (BitVec.eq_of_toNat_eq h0))
  · exact (ite_none_left_eq_some.1 h).1

/-- **A request that is refused** leaves an object that is not on the list, and a reference to its
file. -/
theorem vmSpaceMap_refused (hok : st.space.Ok) (hpos : st.space.startAddress ≠ 0)
    (h : vmSpaceMap env st info = .ok (0, st')) : st' = { st with
      space := allocObject st.space info.range
      refs := if info.isFile then vfsRefFile st.refs info.fd else st.refs } := by
  obtain ⟨-, -, ⟨-, -, hnone⟩ | ⟨hbase, hsome⟩⟩ := vmSpaceMap_objects hok h
  · rcases vmSpaceMap_cases hok h with ⟨-, heq, -⟩ | ⟨st₁, P, -, -⟩
    · exact heq
    · have hplaced := P.linked.objects _ ⟨rfl, rfl⟩
      simp [P.obj, hnone] at hplaced
  · refine absurd ?_ (base_ne_zero_of_mapList hpos hsome)
    rw [(mapObject_sameRange ..).1]
    exact hbase.symm

/-- The counters of a space. -/
def VmSpace.counters (space : VmSpace) : BitVec 64 × BitVec 64 × BitVec 64 × BitVec 64 :=
  (space.mappedAnon, space.mappedFile, space.residentAnon, space.residentFile)

theorem spaceStep_ok {call : SpaceCall} (h : st.space.Ok ∧ st.space.startAddress = first)
    (hstep : spaceStep env st call = some st') : st'.space.Ok ∧ st'.space.startAddress = first := by
  obtain ⟨hok, hframe⟩ : st'.space.Ok ∧ st'.space.frame = st.space.frame := by
    cases call with
    | map info =>
      obtain ⟨⟨ret, st₁⟩, hmap, rfl⟩ := map_toOption_eq_some.1 hstep
      obtain ⟨hok, hframe, -⟩ := vmSpaceMap_objects h.1 hmap
      exact ⟨hok, hframe⟩
    | unmap addr =>
      obtain ⟨hok, hframe, -⟩ := vmSpaceUnmap_objects h.1 (toOption_eq_some.1 hstep)
      exact ⟨hok, hframe⟩
  exact ⟨hok, (congrArg Prod.fst hframe).trans h.2⟩

end Monolith.Mm
