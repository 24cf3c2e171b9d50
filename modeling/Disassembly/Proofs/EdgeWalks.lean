import Disassembly.Proofs.Enumeration
import Disassembly.Proofs.ListedAnswers

/-! Walks along the edges at a block. A walk looks edges up one after the other and can be taken
up again from any point; in a module that was made with the changes of programs and modules it
meets what a scan of all edges finds, whatever was drawn, taken out, loaded or renamed before. -/
namespace Disassembly

namespace EdgeWalk

variable {w rest : EdgeWalk} {e : EdgeId × Edge} {l : List (EdgeId × Edge)}

/-- At each step the walk gives the next edge of the list, and behind the last one it has ended. -/
inductive Yields : EdgeWalk → List (EdgeId × Edge) → Prop where
  | nil {w : EdgeWalk} (hEnd : w.next? = none) : Yields w []
  | cons {w rest : EdgeWalk} {e : EdgeId × Edge} {l : List (EdgeId × Edge)}
      (hNext : w.next? = some (e, rest)) (later : Yields rest l) : Yields w (e :: l)

/-- A search passes over what is not to be shown and stops at the first id that is. -/
theorem search_eq (w : EdgeWalk) (ids : List EdgeId) :
    match w.search ids with
    | none => ids.filterMap w.show? = []
    | some (e, behind) => ids.filterMap w.show? = e :: behind.filterMap w.show? := by
  induction ids with
  | nil => rfl
  | cons id behind ih =>
      rw [search, List.filterMap_cons]
      cases hShow : w.show? id with
      | none => exact ih
      | some e => rfl

theorem toList_of_next?_eq_none (h : w.next? = none) : w.toList = [] := by
  have hSearch := w.search_eq w.ids
  rw [Option.map_eq_none_iff.mp h] at hSearch
  exact hSearch

theorem toList_of_next?_eq_some (h : w.next? = some (e, rest)) : w.toList = e :: rest.toList := by
  have hSearch := w.search_eq w.ids
  obtain ⟨⟨e', behind⟩, hFound, hRest⟩ := Option.map_eq_some_iff.mp h
  cases hRest
  rw [hFound] at hSearch
  exact hSearch

/-- Meeting the edges step by step and listing them all at once come to the same. -/
theorem yields_iff : w.Yields l ↔ w.toList = l := by
  constructor
  · intro h
    induction h with
    | nil hEnd => exact toList_of_next?_eq_none hEnd
    | cons hNext _ ih => rw [toList_of_next?_eq_some hNext, ih]
  · intro h
    induction l generalizing w with
    | nil =>
        refine .nil (Option.eq_none_iff_forall_ne_some.mpr fun x hNext => ?_)
        rw [toList_of_next?_eq_some hNext] at h
        cases h
    | cons e l ih =>
        cases hNext : w.next? with
        | none =>
            rw [toList_of_next?_eq_none hNext] at h
            cases h
        | some x =>
            rw [toList_of_next?_eq_some hNext] at h
            cases h
            exact .cons hNext (ih rfl)

/-- One step takes one edge off the front. Steps behind the end take nothing any more. -/
theorem Yields.advance (h : w.Yields l) (n : Nat) : (w.advance n).Yields (l.drop n) := by
  induction n generalizing w l with
  | zero => exact h
  | succ n ih =>
      cases h with
      | nil hEnd =>
          rw [EdgeWalk.advance, hEnd]
          exact .nil hEnd
      | cons hNext later =>
          rw [EdgeWalk.advance, hNext]
          exact ih later

end EdgeWalk

namespace BlockGraph

variable {g : BlockGraph} {endOf : Edge → BlockId} {id : BlockId} {kind : Option EdgeKind}
  {w : EdgeWalk} {l : List (EdgeId × Edge)}

/-- The walk meets the stored edges that have the block at this end and are of the kind, if one is
asked for. It meets each of them once, in the order of the ids and with its content in the store,
and from any point on it meets those that are left. -/
structure Walks (g : BlockGraph) (endOf : Edge → BlockId) (id : BlockId) (kind : Option EdgeKind)
    (w : EdgeWalk) (l : List (EdgeId × Edge)) : Prop where
  edges : Enumerates g.edge? EdgeId.index
    (fun e => endOf e = id ∧ ∀ k, kind = some k → e.kind = k) l
  steps : ∀ n, (w.advance n).Yields (l.drop n)

theorem enumerates_edgesAt (g : BlockGraph) (endOf : Edge → BlockId) (id : BlockId)
    (kind : Option EdgeKind) : Enumerates g.edge? EdgeId.index
      (fun e => endOf e = id ∧ ∀ k, kind = some k → e.kind = k)
      (g.edgeList.filter fun x => endOf x.2 = id && kind.all (· = x.2.kind)) := by
  refine (g.enumerates_edgeList fun e => endOf e = id && kind.all (· = e.kind)).congr fun e => ?_
  rw [Bool.and_eq_true, decide_eq_true_eq]
  refine and_congr_right fun _ => ?_
  cases kind with
  | none => simp
  | some k => simpa using eq_comm

theorem exists_walks {answer : Except Error EdgeWalk} (hLive : g.containsBlock id = true)
    (hAnswer : answer.map EdgeWalk.toList = g.edgesBy endOf id kind) :
    ∃ w l, answer = .ok w ∧ g.Walks endOf id kind w l := by
  rw [edgesBy, if_pos hLive] at hAnswer
  cases answer with
  | error e => cases hAnswer
  | ok w =>
      have hList : w.Yields _ := EdgeWalk.yields_iff.mpr (Except.ok.inj hAnswer)
      exact ⟨w, _, rfl, g.enumerates_edgesAt endOf id kind, hList.advance⟩

/-- An edge is met once at an end that is live, since it has one id. -/
theorem exists_met_once {answer : BlockId → Option EdgeKind → Except Error EdgeWalk}
    (hAnswer : ∀ id kind, g.containsBlock id = true →
      ∃ w l, answer id kind = .ok w ∧ g.Walks endOf id kind w l)
    {edge : EdgeId} {e : Edge} (hEdge : g.edge? edge = some e)
    (hEnd : ∃ b, g.block? (endOf e) = some b) :
    ∃ w l, answer (endOf e) none = .ok w ∧ w.Yields l ∧ l.count (edge, e) = 1 := by
  obtain ⟨w, l, hWalk, hEdges⟩ := hAnswer (endOf e) none (containsBlock_iff.mpr hEnd)
  exact ⟨w, l, hWalk, hEdges.steps 0, hEdges.edges.count_eq_one hEdge ⟨rfl, nofun⟩⟩

end BlockGraph

namespace Module

variable {m : Module}

/-- Stored content that keeps the rules passes the checks of loading, and relinking it changes no
answer. -/
theorem Sound.relinks (h : m.Sound) : m.check = .ok () ∧ m.SameAnswers m.relink :=
  ⟨check_eq_ok_iff.mpr h.wellFormed,
    sameAnswers_of_stored_eq (stored_relink m).symm h.linked (linked_relink m)⟩

/-- The lists of edges agree with the store of edges. At every live block the walks along the
edges that leave it and along those that enter it meet what the store has, of one kind or of
all. Every stored edge is met once from its source and once from its target, even if these are
one block and other edges join them too. Relinking succeeds and changes no answer. -/
theorem walks_agree_with_store (h : m.Reachable) :
    (∀ id kind, m.blocks.containsBlock id = true →
      (∃ w l, m.blocks.outgoingEdges id kind = .ok w ∧
        m.blocks.Walks Edge.source id kind w l) ∧
      ∃ w l, m.blocks.incomingEdges id kind = .ok w ∧
        m.blocks.Walks Edge.target id kind w l) ∧
    (∀ id e, m.blocks.edge? id = some e →
      (∃ w l, m.blocks.outgoingEdges e.source none = .ok w ∧ w.Yields l ∧ l.count (id, e) = 1) ∧
      ∃ w l, m.blocks.incomingEdges e.target none = .ok w ∧ w.Yields l ∧ l.count (id, e) = 1) ∧
    m.check = .ok () ∧ m.SameAnswers m.relink := by
  have hOut : ∀ id kind, m.blocks.containsBlock id = true →
      ∃ w l, m.blocks.outgoingEdges id kind = .ok w ∧ m.blocks.Walks Edge.source id kind w l :=
    fun id kind hLive => BlockGraph.exists_walks hLive (leaving_eq h.sound id kind)
  have hIn : ∀ id kind, m.blocks.containsBlock id = true →
      ∃ w l, m.blocks.incomingEdges id kind = .ok w ∧ m.blocks.Walks Edge.target id kind w l :=
    fun id kind hLive => BlockGraph.exists_walks hLive (entering_eq h.sound id kind)
  refine ⟨fun id kind hLive => ⟨hOut id kind hLive, hIn id kind hLive⟩,
    fun id e hEdge => ⟨?_, ?_⟩, h.sound.relinks⟩
  · obtain ⟨b, hSource, -⟩ := h.sound.wellFormed.blocks.source id.index e hEdge
    exact BlockGraph.exists_met_once hOut hEdge ⟨b, hSource⟩
  · exact BlockGraph.exists_met_once hIn hEdge (h.sound.wellFormed.blocks.target id.index e hEdge)

/-- A second loop is drawn in the merged copy. Both are met on the way out, and after one step the
second alone; on the way in of its kind it is the only one. -/
theorem walks_agree_with_store_doubledRecursion :
    let b : BlockId := ⟨⟨.ofLeading [4]⟩, 0⟩
    let call : EdgeId × Edge := (⟨0⟩, ⟨b, b, { kind := .call }⟩)
    let branch : EdgeId × Edge := (⟨1⟩, ⟨b, b, { kind := .branch }⟩)
    let drawing := (Operation.addEdge b b { kind := .branch }).run
    let p := (Program.onModule 1 drawing).after Program.doubledRecursion
    ∃ m, p.modules[1]? = some m ∧ m.Reachable ∧ m.blocks.containsBlock b = true ∧
      (∃ w, m.blocks.outgoingEdges b none = .ok w ∧
        m.blocks.Walks Edge.source b none w [call, branch] ∧ (w.advance 1).Yields [branch]) ∧
      (∃ w, m.blocks.incomingEdges b (some .branch) = .ok w ∧
        m.blocks.Walks Edge.target b (some .branch) w [branch]) ∧
      m.check = .ok () := by
  intro b call branch drawing p
  have hProgram : p.Reachable :=
    Program.reachable_doubledRecursion.onModule 1 (.addEdge b b { kind := .branch })
  obtain ⟨m, hm⟩ : ∃ m, p.modules[1]? = some m := ⟨_, rfl⟩
  have hReachable : m.Reachable := .member hProgram (List.mem_of_getElem? hm)
  have hLive : m.blocks.containsBlock b = true := by
    cases hm
    rfl
  have hLeaving : m.leaving b none = .ok [call, branch] := by
    cases hm
    rfl
  have hEntering : m.entering b (some .branch) = .ok [branch] := by
    cases hm
    rfl
  obtain ⟨hWalks, -, hCheck, -⟩ := walks_agree_with_store hReachable
  obtain ⟨w, l, hOut, hEdges⟩ := (hWalks b none hLive).1
  obtain ⟨w', l', hIn, hEdges'⟩ := (hWalks b (some .branch) hLive).2
  rw [leaving, hOut] at hLeaving
  rw [entering, hIn] at hEntering
  cases (EdgeWalk.yields_iff.mp (hEdges.steps 0)).symm.trans (Except.ok.inj hLeaving)
  cases (EdgeWalk.yields_iff.mp (hEdges'.steps 0)).symm.trans (Except.ok.inj hEntering)
  exact ⟨m, hm, hReachable, hLive, ⟨w, hOut, hEdges, hEdges.steps 1⟩, ⟨w', hIn, hEdges'⟩, hCheck⟩

end Module

end Disassembly
