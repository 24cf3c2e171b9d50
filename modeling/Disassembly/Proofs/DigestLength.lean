import Disassembly.Digest.Blake3

/-! A digest has 32 bytes whatever the input. Mixing never changes the size of the state, and
every node of the tree has a chaining value of eight words. -/
namespace Disassembly.Blake3

@[simp] theorem size_mix (s : Array UInt32) (a b c d : Nat) (x y : UInt32) :
    (mix s a b c d x y).size = s.size := by
  simp [mix]

@[simp] theorem size_round (s m : Array UInt32) : (round s m).size = s.size := by
  simp [round]

/-- Any number of rounds keeps the size of the state, while the message is permuted in between. -/
theorem size_repeat_round (turns : Nat) (s m : Array UInt32) :
    (turns.repeat (fun sm : Array UInt32 × Array UInt32 => (round sm.1 sm.2, permute sm.2))
      (s, m)).1.size = s.size := by
  induction turns with
  | zero => rfl
  | succ turns ih =>
      simp only [Nat.repeat, size_round]
      exact ih

/-- Compressing a node with eight chaining words yields eight words. -/
theorem length_compress {n : Node} (h : n.chaining.length = 8) (extra : UInt32) :
    (n.compress extra).length = 8 := by
  unfold Node.compress
  simp only [List.length_zipWith, List.length_take, List.length_drop, Array.length_toList,
    size_repeat_round, List.size_toArray, List.length_append, h]
  rfl

/-- Folding the blocks of a chunk into the chaining value keeps it at eight words. -/
theorem length_chaining_chunkNode (counter : Nat) (blocks : List (List UInt8))
    (chaining : List UInt32) (flags : UInt32) (h : chaining.length = 8) :
    (chunkNode counter chaining flags blocks).chaining.length = 8 := by
  fun_induction chunkNode counter chaining flags blocks with
  | case1 => exact h
  | case2 => exact h
  | case3 chaining flags block rest hRest node ih =>
      apply ih
      exact length_compress h 0

theorem length_chaining_leaf {input : List UInt8} {n : Node} (h : n ∈ leaves input) :
    n.chaining.length = 8 := by
  simp only [leaves, List.mem_map] at h
  obtain ⟨⟨chunk, i⟩, -, rfl⟩ := h
  exact length_chaining_chunkNode i _ initial chunkStart rfl

/-- The node at the top has eight chaining words. It is a join, however many levels lie below, and a
join starts from the initial words. -/
theorem length_chaining_top (first second : Node) (rest : List Node) :
    (top first second rest).chaining.length = 8 := by
  induction first, second, rest using top.induct with
  | case1 first second rest hLevel =>
      rw [top]
      split
      · rfl
      · rename_i hNext
        rw [hLevel] at hNext
        cases hNext
  | case2 first second rest next others hLevel ih =>
      rw [top]
      split
      · rename_i hNil
        rw [hLevel] at hNil
        cases hNil
      · rename_i hNext
        rw [hLevel] at hNext
        cases hNext
        exact ih

/-- The length of the digest. -/
theorem length_hash (input : List UInt8) : (hash input).length = 32 := by
  have hBytes : ∀ words : List UInt32, (words.flatMap wordBytes).length = 4 * words.length := by
    intro words
    induction words with
    | nil => rfl
    | cons w rest ih =>
        rw [List.flatMap_cons, List.length_append, ih, List.length_cons]
        change 4 + 4 * rest.length = _
        omega
  unfold hash
  rw [hBytes]
  have hRoot : ∀ n : Node, n.chaining.length = 8 → 4 * (n.compress root).length = 32 := by
    intro n hn
    rw [length_compress hn]
  split
  · exact hRoot _ (length_chaining_chunkNode 0 [] initial chunkStart rfl)
  · rename_i only hLeaves
    exact hRoot only (length_chaining_leaf (hLeaves ▸ List.mem_singleton_self only))
  · exact hRoot _ (length_chaining_top _ _ _)

end Disassembly.Blake3
