import Disassembly.Proofs.DrawSupply
import Disassembly.Proofs.Reachable
import Disassembly.Proofs.Regeneration

/-! A merge that renames what collides, from end to end. -/
namespace Disassembly.Program

/-- A merge that regenerates identities never fails, and needs no more draws than one new id and
one new tag for each module. It leaves the modules that were there alone and takes over the
others in their order, the colliding ones under drawn identities and with every reference to
their blocks carried along. No two modules of the outcome share an id or a tag, whatever the
draws hit on the way, and further draws make no difference. -/
theorem merge_regenerate_renames {p other : Program} (hp : p.Reachable) (hOther : other.Reachable)
    (draws : Draws) :
    (∃ answer p', merge other .regenerate draws p = .ok answer p') ∧
    (Taken.Suffice draws (.ofModules p.modules) other.modules →
      ∃ rest p', merge other .regenerate draws p = .ok (some rest) p') ∧
    ∀ rest p', merge other .regenerate draws p = .ok (some rest) p' →
      (∃ carried, p'.modules = p.modules ++ carried ∧
        TakenOver draws (.ofModules p.modules) other.modules carried) ∧
      Distinct p'.modules ∧
      (∀ name, p'.auxData.get? name = (p.auxData.get? name).or (other.auxData.get? name)) ∧
      ∀ more, merge other .regenerate (draws.followedBy more) p =
        .ok (some (rest.followedBy more)) p' := by
  have hMerge := merge_regenerate_eq p other
  refine ⟨?_, fun hEnough => ?_, fun rest p' hOk => ?_⟩
  · rw [hMerge]
    cases (Taken.ofModules p.modules).regenerate draws other.modules <;> exact ⟨_, _, rfl⟩
  · obtain ⟨⟨carried, rest⟩, hOver⟩ := Taken.exists_regenerate hEnough
    rw [hMerge, hOver]
    exact ⟨_, _, rfl⟩
  · rw [hMerge] at hOk
    cases hOver : (Taken.ofModules p.modules).regenerate draws other.modules with
    | none =>
        rw [hOver] at hOk
        cases hOk
    | some result =>
        obtain ⟨carried, left⟩ := result
        rw [hOver] at hOk
        cases hOk
        obtain ⟨hDistinct, hFree, -⟩ := Taken.regenerate_eq_some hOver
        refine ⟨⟨carried, rfl, Taken.takenOver_of_regenerate hOver hOther.sound.modules⟩,
          distinct_append_iff.mpr ⟨hp.distinct, hDistinct, hFree⟩,
          get?_auxData_append p carried other.auxData, fun more => ?_⟩
        rw [hMerge, Taken.regenerate_followedBy more hOver]

/-- A program is merged into a part of itself. The first drawn id is that of the module there,
and the second one that of the module behind, which then has to move too although nothing of
it was taken before. -/
theorem merge_regenerate_renames_chain :
    let a := Module.recursion ⟨.ofLeading [1]⟩ ⟨.ofLeading [2]⟩
    let b := Module.recursion ⟨.ofLeading [3]⟩ ⟨.ofLeading [5]⟩
    let p := (addModule a).after {}
    let other := (addModule b).after p
    let draws : Draws := ⟨[a.id, b.id, ⟨.ofLeading [6]⟩],
      [a.graphTag, ⟨.ofLeading [4]⟩, ⟨.ofLeading [7]⟩]⟩
    p.Reachable ∧ other.Reachable ∧
      ∃ p', merge other .regenerate draws p = .ok (some ⟨[], []⟩) p' ∧
        p'.modules = [a, a.under ⟨.ofLeading [3]⟩ ⟨.ofLeading [4]⟩,
          b.under ⟨.ofLeading [6]⟩ ⟨.ofLeading [7]⟩] ∧
        (∃ carried, p'.modules = p.modules ++ carried ∧
          TakenOver draws (.ofModules p.modules) other.modules carried) ∧
        Distinct p'.modules := by
  intro a b p other draws
  have hp : p.Reachable := .addModule .empty (Module.reachable_recursion _ _)
  have hOther : other.Reachable := hp.addModule (Module.reachable_recursion _ _)
  have hMerge : merge other .regenerate draws p =
      .ok (some ⟨[], []⟩) ((merge other .regenerate draws).after p) := by rfl
  obtain ⟨-, -, hRenames⟩ := merge_regenerate_renames hp hOther draws
  obtain ⟨hOver, hDistinct, -, -⟩ := hRenames _ _ hMerge
  exact ⟨hp, hOther, _, hMerge, by decide, hOver, hDistinct⟩

end Disassembly.Program
