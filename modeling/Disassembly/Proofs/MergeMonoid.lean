import Disassembly.Proofs.Reachable

/-! Merging without renaming as a partial operation on programs. It is defined when no identity of
the one program is one of the other, and then appends. The empty program is its unit, and of
three programs it does not matter which two are merged first: the same pairs of modules are
compared in the end, and for each name the first table counts on both ways. -/
namespace Disassembly.Program

variable {p p' other : Program}

/-- No module of the second list has an id or a tag that the first list has. -/
def Apart (before behind : List Module) : Prop :=
  ∀ m ∈ behind, m.id ∉ before.map Module.id ∧ m.graphTag ∉ before.map Module.graphTag

theorem apart_nil_left (behind : List Module) : Apart [] behind :=
  fun _ _ => ⟨List.not_mem_nil, List.not_mem_nil⟩

theorem apart_nil_right (before : List Module) : Apart before [] :=
  fun _ hm => absurd hm List.not_mem_nil

/-- Modules are apart from two lists together when they are apart from each. -/
theorem apart_append_left_iff {before middle behind : List Module} :
    Apart (before ++ middle) behind ↔ Apart before behind ∧ Apart middle behind := by
  simp only [Apart, List.map_append, List.mem_append, not_or]
  constructor
  · intro h
    exact ⟨fun m hm => ⟨(h m hm).1.1, (h m hm).2.1⟩, fun m hm => ⟨(h m hm).1.2, (h m hm).2.2⟩⟩
  · rintro ⟨hBefore, hMiddle⟩ m hm
    exact ⟨⟨(hBefore m hm).1, (hMiddle m hm).1⟩, (hBefore m hm).2, (hMiddle m hm).2⟩

/-- Two lists are apart from some modules when each of them is. -/
theorem apart_append_right_iff {before middle behind : List Module} :
    Apart before (middle ++ behind) ↔ Apart before middle ∧ Apart before behind := by
  simp only [Apart, List.forall_mem_append]

/-- A merge that must not rename anything succeeds exactly when all identities are distinct. -/
theorem merge_fail_eq_ok {draws : Draws} {answer : Option Draws} :
    merge other .fail draws p = .ok answer p' ↔
      (Distinct other.modules ∧ Apart p.modules other.modules) ∧ answer = some draws ∧
        p' = p.append other.modules other.auxData := by
  rw [merge_fail_eq]
  cases hAccept : (Taken.ofModules p.modules).accept other.modules with
  | ok u =>
      have hFree : Distinct other.modules ∧ Apart p.modules other.modules :=
        Taken.accept_eq_ok_iff.mp hAccept
      simp only [EStateM.Result.ok.injEq, hFree, true_and]
      exact ⟨fun h => ⟨h.1.symm, h.2.symm⟩, fun h => ⟨h.1.symm, h.2.symm⟩⟩
  | error e =>
      simp only [reduceCtorEq, false_iff]
      rintro ⟨hFree, -⟩
      rw [Taken.accept_eq_ok_iff.mpr hFree] at hAccept
      cases hAccept

theorem ext_fields {p q : Program} (hModules : p.modules = q.modules)
    (hAux : p.auxData = q.auxData) : p = q := by
  cases p
  cases q
  cases hModules
  cases hAux
  rfl

/-- The modules are in the order of the programs, and the first table of each name counts. -/
theorem append_append (a b c : Program) :
    (a.append b.modules b.auxData).append c.modules c.auxData =
      a.append (b.append c.modules c.auxData).modules (b.append c.modules c.auxData).auxData := by
  refine ext_fields (List.append_assoc ..) (Table.ext_get? fun name => ?_)
  rw [get?_auxData_append, get?_auxData_append, get?_auxData_append, get?_auxData_append,
    Option.or_assoc]

/-- Appending no modules and no tables changes nothing. -/
theorem append_empty (a : Program) : a.append [] ∅ = a := ext_fields (List.append_nil _) rfl

/-- A program that is appended to the empty one is there as it was. -/
theorem empty_append (a : Program) : ({} : Program).append a.modules a.auxData = a := by
  refine ext_fields (List.nil_append _) (Table.ext_get? fun name => ?_)
  rw [get?_auxData_append]
  rfl

/-- On either way every program is distinct within itself and apart from those before it. -/
theorem merge_fail_assoc {a b c r : Program} {draws : Draws} :
    (∃ ab, merge b .fail draws a = .ok (some draws) ab ∧
        merge c .fail draws ab = .ok (some draws) r) ↔
      ∃ bc, merge c .fail draws b = .ok (some draws) bc ∧
        merge bc .fail draws a = .ok (some draws) r := by
  simp only [merge_fail_eq_ok, true_and]
  constructor
  · rintro ⟨_, ⟨⟨hB, hAB⟩, rfl⟩, ⟨hC, hABC⟩, rfl⟩
    obtain ⟨hAC, hBC⟩ := apart_append_left_iff.mp hABC
    exact ⟨_, ⟨⟨hC, hBC⟩, rfl⟩, ⟨distinct_append_iff.mpr ⟨hB, hC, hBC⟩,
      apart_append_right_iff.mpr ⟨hAB, hAC⟩⟩, append_append a b c⟩
  · rintro ⟨_, ⟨⟨hC, hBC⟩, rfl⟩, ⟨hBoth, hABC⟩, rfl⟩
    obtain ⟨hB, -, -⟩ := distinct_append_iff.mp hBoth
    obtain ⟨hAB, hAC⟩ := apart_append_right_iff.mp hABC
    exact ⟨_, ⟨⟨hB, hAB⟩, rfl⟩, ⟨hC, apart_append_left_iff.mpr ⟨hAC, hBC⟩⟩,
      (append_append a b c).symm⟩

/-- Merging without renaming is a partial monoid on programs. Both ways of merging three of them
succeed together and end at one program, down to what is derived from its content. -/
theorem merge_fail_monoid (a b c : Program) (draws : Draws) :
    (∀ r, (∃ ab, merge b .fail draws a = .ok (some draws) ab ∧
          merge c .fail draws ab = .ok (some draws) r) ↔
        ∃ bc, merge c .fail draws b = .ok (some draws) bc ∧
          merge bc .fail draws a = .ok (some draws) r) ∧
    (∀ ab r, merge b .fail draws a = .ok (some draws) ab →
      merge c .fail draws ab = .ok (some draws) r →
        r.modules = a.modules ++ b.modules ++ c.modules ∧
          ∀ name, r.auxData.get? name =
            ((a.auxData.get? name).or (b.auxData.get? name)).or (c.auxData.get? name)) ∧
    merge {} .fail draws a = .ok (some draws) a ∧
    (a.Reachable → merge a .fail draws {} = .ok (some draws) a) := by
  refine ⟨fun r => merge_fail_assoc, fun ab r hFirst hSecond => ?_, ?_, fun h => ?_⟩
  · obtain ⟨-, -, rfl⟩ := merge_fail_eq_ok.mp hFirst
    obtain ⟨-, -, rfl⟩ := merge_fail_eq_ok.mp hSecond
    exact ⟨rfl, fun name => by rw [get?_auxData_append, get?_auxData_append]⟩
  · have hFree := And.intro distinct_nil (apart_nil_right a.modules)
    exact merge_fail_eq_ok.mpr ⟨hFree, rfl, (append_empty a).symm⟩
  · have hFree := And.intro h.distinct (apart_nil_left a.modules)
    exact merge_fail_eq_ok.mpr ⟨hFree, rfl, (empty_append a).symm⟩

/-- A program with one module, and with a table of which each such program has another one. -/
def noted (n : UInt8) : Program :=
  let p := (addModule (.build { name := "noted" } ⟨.ofLeading [n]⟩ ⟨.ofLeading [n]⟩)).after {}
  (setAux "notes" ⟨"bytes", [n]⟩).after p

theorem reachable_noted (n : UInt8) : (noted n).Reachable := by
  have hSingle := Reachable.addModule .empty
    (Module.Reachable.build { name := "noted" } ⟨.ofLeading [n]⟩ ⟨.ofLeading [n]⟩)
  exact hSingle.setAux "notes" ⟨"bytes", [n]⟩

/-- The first table stays on both ways, and a module that comes twice is refused on both ways. -/
theorem merge_fail_monoid_noted :
    let draws : Draws := ⟨[], []⟩
    (∃ bc r, merge (noted 3) .fail draws (noted 2) = .ok (some draws) bc ∧
      merge bc .fail draws (noted 1) = .ok (some draws) r ∧
      r.modules.length = 3 ∧ r.auxData.get? "notes" = some ⟨"bytes", [1]⟩) ∧
    (¬∃ ba r, merge (noted 1) .fail draws (noted 2) = .ok (some draws) ba ∧
      merge ba .fail draws (noted 1) = .ok (some draws) r) ∧
    (noted 1).Reachable ∧ merge (noted 1) .fail draws {} = .ok (some draws) (noted 1) := by
  intro draws
  obtain ⟨hAssoc, hContent, -, hUnit⟩ := merge_fail_monoid (noted 1) (noted 2) (noted 3) draws
  obtain ⟨hAgain, -⟩ := merge_fail_monoid (noted 1) (noted 2) (noted 1) draws
  refine ⟨?_, ?_, reachable_noted 1, hUnit (reachable_noted 1)⟩
  · let ab := (noted 1).append (noted 2).modules (noted 2).auxData
    let abc := ab.append (noted 3).modules (noted 3).auxData
    have hFirst : merge (noted 2) .fail draws (noted 1) = .ok (some draws) ab := rfl
    have hSecond : merge (noted 3) .fail draws ab = .ok (some draws) abc := rfl
    obtain ⟨bc, hInner, hOuter⟩ := (hAssoc _).mp ⟨_, hFirst, hSecond⟩
    obtain ⟨hModules, hAux⟩ := hContent _ _ hFirst hSecond
    refine ⟨bc, abc, hInner, hOuter, ?_, ?_⟩
    · rw [hModules]
      decide
    · rw [hAux]
      decide
  · rintro ⟨ba, r, hInner, hOuter⟩
    obtain ⟨ab, hFirst, hSecond⟩ := (hAgain r).mpr ⟨ba, hInner, hOuter⟩
    cases hFirst
    cases hSecond

end Disassembly.Program
