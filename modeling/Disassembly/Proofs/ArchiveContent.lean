import Disassembly.Proofs.Numerals
import Disassembly.Proofs.SameAnswers

/-! Archives and digests stand for content. Two programs have one archive exactly when they hold
the same content, whether or not that content keeps any rule and whatever is derived from it. The
digest is taken of the archive, so it cannot tell more, and it tells as much unless two payloads
collide under the hash. -/
namespace Disassembly

/-- The modules are equal but for their derived lists. Tags and counters count as content. -/
def Module.SameContent (m m' : Module) : Prop :=
  ∃ outgoing incoming byName,
    m' = { m with
      blocks := { m.blocks with outgoing, incoming }
      symbols := { m.symbols with byName } }

/-- The stored forms of two modules agree exactly when the modules differ in derived lists at
most. -/
theorem Module.stored_eq_iff {m m' : Module} : m.stored = m'.stored ↔ m.SameContent m' := by
  constructor
  · exact Module.exists_of_stored_eq
  · rintro ⟨outgoing, incoming, byName, rfl⟩
    rfl

/-- Programs have the same content when their tables agree and so do their modules, pair by pair and
in the same order. -/
theorem Program.sameContent_iff {p q : Program} :
    p.sameContent q = true ↔
      p.auxData = q.auxData ∧ List.Forall₂ Module.SameContent p.modules q.modules := by
  have hModules : p.modules.map Module.stored = q.modules.map Module.stored ↔
      List.Forall₂ Module.SameContent p.modules q.modules := by
    rw [← List.forall₂_eq_eq_eq, List.forall₂_map_left_iff, List.forall₂_map_right_iff]
    simp only [Module.stored_eq_iff]
  rw [sameContent, decide_eq_true_iff, stored, stored, Program.mk.injEq, hModules, and_comm]

theorem Hex.ofBytes_injective {bytes bytes' : List UInt8} (h : ofBytes bytes = ofBytes bytes') :
    bytes = bytes' := by
  have hRead := congrArg bytes? h
  rw [bytes?_ofBytes, bytes?_ofBytes] at hRead
  exact Option.some.inj hRead

namespace Archive

variable {p q : Program}

/-- Nothing that is derived is written. -/
theorem payload_stored (p : Program) : payload p.stored = payload p := by
  have hModule (m : Module) : Module.wire.write m.stored = Module.wire.write m := rfl
  have hModules : Module.wire.list.write p.stored.modules = Module.wire.list.write p.modules := by
    change Wire.length.write (p.modules.map Module.stored).length ++
      (p.modules.map Module.stored).flatMap Module.wire.write = _
    rw [List.length_map, List.flatMap_map]
    simp only [hModule]
    rfl
  exact congrArg (· ++ AuxTables.wire.write p.auxData) hModules

/-- Programs of the same content have the same payload, whatever lists they carry along. -/
theorem payload_congr (h : p.sameContent q = true) : payload p = payload q := by
  rw [← payload_stored p, ← payload_stored q, of_decide_eq_true h]

/-- What is written is read back, so it was written of one content alone. -/
theorem sameContent_of_payload_eq (hLength : (payload p).length < UInt64.size)
    (h : payload p = payload q) : p.sameContent q = true := by
  have hFirst : readPayload none (payload p) = _ := readPayload_payload hLength nofun
  have hSecond : readPayload none (payload q) = _ := readPayload_payload (h ▸ hLength) nofun
  rw [h, hSecond] at hFirst
  exact decide_eq_true (Prod.mk.inj (Option.some.inj hFirst)).1.symm

theorem payload_eq_of_encode_eq (h : encode p = encode q) : payload p = payload q := by
  obtain ⟨-, -, -, -, hFirst⟩ := fields_encode p
  obtain ⟨-, -, -, -, hSecond⟩ := fields_encode q
  rw [← hFirst, h, hSecond]

/-- Programs of the same content have the same archive. Header and digest are made of the payload
alone. -/
theorem encode_congr (h : p.sameContent q = true) : encode p = encode q := by
  rw [encode, encode, payload_congr h]

theorem digest_congr (h : p.sameContent q = true) : digest p = digest q := by
  rw [digest, digest, payload_congr h]

/-- Digests are spelled out hashes. -/
theorem hash_eq_of_digest_eq (h : digest p = digest q) :
    Blake3.hash (payload p) = Blake3.hash (payload q) :=
  Hex.ofBytes_injective (String.ofList_injective h)

/-- The digest of a program spells the 32 bytes behind magic and version in its archive. -/
theorem digest_eq_field (p : Program) :
    digest p = String.ofList (Hex.ofBytes (((encode p).drop 8).take 32)) := by
  obtain ⟨-, -, -, hDigest, -⟩ := fields_encode p
  rw [digest, ← hDigest, digestField]

/-- Archives are equal exactly when contents are, and digests follow. The numbers in a payload
are machine words, so only of a payload with a length that is one too can all be told; no other
fits into memory. -/
theorem encode_eq_iff_sameContent (p q : Program) :
    (p.sameContent q = true ↔
      p.auxData = q.auxData ∧ List.Forall₂ Module.SameContent p.modules q.modules) ∧
    (p.sameContent q = true → encode p = encode q ∧ digest p = digest q) ∧
    ((payload p).length < UInt64.size →
      (encode p = encode q ↔ p.sameContent q = true) ∧
      ((Blake3.hash (payload p) = Blake3.hash (payload q) → payload p = payload q) →
        digest p = digest q → p.sameContent q = true)) ∧
    digest p = String.ofList (Hex.ofBytes (((encode p).drop 8).take 32)) := by
  refine ⟨Program.sameContent_iff, fun h => ⟨encode_congr h, digest_congr h⟩,
    fun hLength => ⟨⟨fun h => ?_, encode_congr⟩, fun hCollision h => ?_⟩, digest_eq_field p⟩
  · exact sameContent_of_payload_eq hLength (payload_eq_of_encode_eq h)
  · exact sameContent_of_payload_eq hLength (hCollision (hash_eq_of_digest_eq h))

/-- Emptied lists leave no mark on an archive, and a counter that is put back does, although it
then breaks a rule. -/
theorem encode_eq_iff_sameContent_doubledRecursion :
    let p := Program.doubledRecursion
    let emptied := p.stored
    let broken : Program :=
      { p with
        modules := p.modules.map fun m => { m with blocks := { m.blocks with nextEdge := 0 } } }
    (payload p).length < UInt64.size ∧
      (p ≠ emptied ∧ encode p = encode emptied ∧ digest p = digest emptied) ∧
      ¬broken.WellFormed ∧ encode p ≠ encode broken := by
  intro p emptied broken
  have hLength : (payload p).length < UInt64.size := by decide +kernel
  have hEmptied : p.sameContent emptied = true := by decide
  have hBroken : ¬p.sameContent broken = true := by decide
  obtain ⟨-, hSame, -, -⟩ := encode_eq_iff_sameContent p emptied
  obtain ⟨-, -, hApart, -⟩ := encode_eq_iff_sameContent p broken
  refine ⟨hLength, ⟨by decide, hSame hEmptied⟩, fun h => ?_, fun h => ?_⟩
  · have hEdge : (0 : UInt32) < 0 :=
      (h.modules _ (List.mem_of_mem_head? rfl)).blocks.edgeIndex 0 _ rfl
    exact UInt32.lt_irrefl _ hEdge
  · exact hBroken ((hApart hLength).1.mp h)

end Archive

end Disassembly
