import Disassembly.Proofs.ArchiveRoundTrip

/-! What a budget can change. A reader looks at its budget only to claim memory, so a budget
either lets it do what it does without one or stops it. What a form claims stays in proportion
to the bytes that it takes, both ways: a claim that is met has bytes behind it, and a budget
bounds how far a reader comes. -/
namespace Disassembly

namespace Reader

variable {α β : Type}

/-- What is left of a budget after a claim, unless the claim passes it. -/
def charge (cost : Nat) : Option Nat → Option (Option Nat)
  | none => some none
  | some left => if cost ≤ left then some (some (left - cost)) else none

/-- A claim is met when there is no budget or the budget has room for it, and is then taken off the
budget. -/
theorem charge_eq_some_iff {cost : Nat} {budget after : Option Nat} :
    charge cost budget = some after ↔
      (∀ left, budget = some left → cost ≤ left) ∧ after = budget.map (· - cost) := by
  cases budget with
  | none => simp [charge, eq_comm]
  | some left => by_cases h : cost ≤ left <;> simp [charge, h, eq_comm]

@[simp] theorem charge_zero (budget : Option Nat) : charge 0 budget = some budget := by
  cases budget <;> rfl

/-- Two claims, one after the other, are as good as one. -/
theorem charge_bind_charge (cost cost' : Nat) (budget : Option Nat) :
    (charge cost budget).bind (charge cost') = charge (cost + cost') budget := by
  cases budget with
  | none => rfl
  | some left =>
      by_cases h : cost ≤ left
      · by_cases h' : cost' ≤ left - cost
        · have hBoth : cost + cost' ≤ left := by omega
          simp [charge, h, h', hBoth, Nat.sub_sub]
        · have hBoth : ¬cost + cost' ≤ left := by omega
          simp [charge, h, h', hBoth]
      · have hBoth : ¬cost + cost' ≤ left := by omega
        simp [charge, h, hBoth]

/-- Before any bytes the reader either fails under every budget, or takes some of the bytes and
gives a value under every budget that has room for what it claims. What it takes and what it
claims are in the relation `fair`. -/
def Metered (fair : Nat → Nat → Prop) (r : Reader α) : Prop :=
  ∀ bytes, (∀ budget, r ⟨bytes, budget⟩ = none) ∨
    ∃ a rest taken cost, fair taken cost ∧ rest.length + taken = bytes.length ∧
      ∀ budget, r ⟨bytes, budget⟩ = (charge cost budget).map fun after => (a, ⟨rest, after⟩)

/-- A reader that neither takes nor claims anything. -/
def Free (taken cost : Nat) : Prop := taken = 0 ∧ cost = 0

/-- A weaker relation between what is taken and what is claimed holds as well. -/
theorem Metered.mono {fair fair' : Nat → Nat → Prop} {r : Reader α} (h : Metered fair r)
    (hFair : ∀ taken cost, fair taken cost → fair' taken cost) : Metered fair' r := by
  intro bytes
  rcases h bytes with hFails | ⟨a, rest, taken, cost, hCost, hTaken, hReads⟩
  · exact .inl hFails
  · exact .inr ⟨a, rest, taken, cost, hFair _ _ hCost, hTaken, hReads⟩

/-- A step that only computes takes and claims nothing, whether it gives a value or fails. -/
theorem metered_lift (o : Option α) : Metered Free (StateT.lift o : Reader α) := by
  intro bytes
  cases o with
  | none => exact .inl fun _ => rfl
  | some a =>
      refine .inr ⟨a, bytes, 0, 0, ⟨rfl, rfl⟩, rfl, fun budget => ?_⟩
      rw [charge_zero]
      rfl

theorem metered_pure (a : α) : Metered Free (pure a : Reader α) := metered_lift (some a)

theorem metered_failure : Metered Free (failure : Reader α) := metered_lift none

/-- A claim claims what it says and takes no bytes. It is the only step that looks at the budget. -/
theorem metered_claim (n : Nat) : Metered (fun taken cost => taken = 0 ∧ cost = n) (claim n) := by
  intro bytes
  refine .inr ⟨(), bytes, 0, n, ⟨rfl, rfl⟩, rfl, fun budget => ?_⟩
  cases budget with
  | none => rfl
  | some left => by_cases h : n ≤ left <;> simp [claim, charge, h]

/-- One byte is taken without a claim. -/
theorem metered_byte : Metered (fun taken cost => taken = 1 ∧ cost = 0) byte := by
  intro bytes
  cases bytes with
  | nil => exact .inl fun _ => rfl
  | cons b rest =>
      refine .inr ⟨b, rest, 1, 0, ⟨rfl, rfl⟩, rfl, fun budget => ?_⟩
      rw [charge_zero]
      rfl

/-- Bytes are taken without a claim, so a claim has to be made before. -/
theorem metered_take (n : Nat) : Metered (fun taken cost => taken = n ∧ cost = 0) (take n) := by
  intro bytes
  by_cases h : n ≤ bytes.length
  · refine .inr ⟨bytes.take n, bytes.drop n, n, 0, ⟨rfl, rfl⟩, ?_, fun budget => ?_⟩
    · rw [List.length_drop]
      omega
    · rw [charge_zero]
      exact if_pos h
  · exact .inl fun _ => if_neg h

/-- Readers in sequence take and claim one after the other. -/
theorem Metered.bind {fair fair' both : Nat → Nat → Prop} {r : Reader α} {f : α → Reader β}
    (hr : Metered fair r) (hf : ∀ a, Metered fair' (f a))
    (hBoth : ∀ taken cost taken' cost', fair taken cost → fair' taken' cost' →
      both (taken + taken') (cost + cost')) : Metered both (r >>= f) := by
  intro bytes
  have hBind : ∀ budget, (r >>= f) ⟨bytes, budget⟩ =
      (r ⟨bytes, budget⟩).bind fun ac => f ac.1 ac.2 := fun _ => rfl
  rcases hr bytes with hFails | ⟨a, rest, taken, cost, hCost, hTaken, hReads⟩
  · exact .inl fun budget => by rw [hBind, hFails, Option.bind_none]
  have hFirst : ∀ budget, (r >>= f) ⟨bytes, budget⟩ =
      (charge cost budget).bind fun after => f a ⟨rest, after⟩ := fun budget => by
    rw [hBind, hReads, Option.bind_map]
    rfl
  rcases hf a rest with hFails | ⟨b, rest', taken', cost', hCost', hTaken', hReads'⟩
  · refine .inl fun budget => ?_
    simp only [hFirst, hFails, Option.bind_fun_none]
  · refine .inr ⟨b, rest', taken + taken', cost + cost', hBoth _ _ _ _ hCost hCost', by omega,
      fun budget => ?_⟩
    simp only [hFirst, hReads']
    rw [← charge_bind_charge, Option.map_bind]
    rfl

/-- What only computes behind a reader changes nothing. -/
theorem Metered.followed {fair : Nat → Nat → Prop} {r : Reader α} {f : α → Reader β}
    (hr : Metered fair r) (hf : ∀ a, Metered Free (f a)) : Metered fair (r >>= f) := by
  refine hr.bind hf fun taken cost taken' cost' h hFree => ?_
  rwa [hFree.1, hFree.2]

/-- A value that is computed from what is read costs nothing more. -/
theorem Metered.map {fair : Nat → Nat → Prop} {r : Reader α} (h : Metered fair r) (g : α → β) :
    Metered fair (do return g (← r)) := h.followed fun a => metered_pure (g a)

/-- The measure of a form. Each byte that it takes is worth eight of memory at most, and each
two are worth at least one. -/
def Fair (taken cost : Nat) : Prop := cost ≤ 8 * taken ∧ taken ≤ 2 * cost

/-- The measure is kept when two forms are read one after the other. -/
theorem fair_add (taken cost taken' cost' : Nat) (h : Fair taken cost)
    (h' : Fair taken' cost') : Fair (taken + taken') (cost + cost') := by
  unfold Fair at *
  omega

/-- What is free is within the measure. -/
theorem Free.fair {taken cost : Nat} (h : Free taken cost) : Fair taken cost := by
  unfold Free at h
  unfold Fair
  omega

/-- Forms in a row are within the measure if each of them is. -/
theorem Metered.then {r : Reader α} {f : α → Reader β} (hr : Metered Fair r)
    (hf : ∀ a, Metered Fair (f a)) : Metered Fair (r >>= f) := hr.bind hf fair_add

/-- A claim in front of a reader may make up for what the reader takes without one. -/
theorem Metered.claimed {fair : Nat → Nat → Prop} {r : Reader α} (h : Metered fair r) (n : Nat)
    (hFair : ∀ taken cost, fair taken cost → Fair taken (n + cost)) :
    Metered Fair (do claim n; r) := by
  refine (metered_claim n).bind (fun _ => h) fun taken cost taken' cost' hClaim hTaken => ?_
  rw [hClaim.1, hClaim.2, Nat.zero_add]
  exact hFair _ _ hTaken

/-- A number of values is within the measure, whatever the number: each value pays for itself. -/
theorem metered_many {item : Reader α} (h : Metered Fair item) (n : Nat) (done : List α) :
    Metered Fair (item.many n done) := by
  induction n generalizing done with
  | zero => exact (metered_pure _).mono fun _ _ => Free.fair
  | succ n ih => exact h.then fun a => ih (a :: done)

/-- At most `n` bytes are taken, and nothing is claimed for them. -/
def AtMost (n taken cost : Nat) : Prop := taken ≤ n ∧ cost = 0

theorem Free.atMost {n taken cost : Nat} (h : Free taken cost) : AtMost n taken cost :=
  ⟨h.1 ▸ Nat.zero_le n, h.2⟩

end Reader

open Reader

/-- A number takes its mark and at most eight bytes behind it, or four if it is narrow. -/
theorem metered_readVarint {wide : Bool} {widest : Nat} (hNarrow : 4 ≤ widest)
    (hWide : wide = true → 8 ≤ widest) :
    Metered (fun taken cost => 1 ≤ taken ∧ taken ≤ widest + 1 ∧ cost = 0) (readVarint wide) := by
  have hNumber : ∀ n, n ≤ widest →
      Metered (AtMost widest) (do return ofLittleEndian (← take n)) := fun n hn =>
    ((metered_take n).map ofLittleEndian).mono fun _ _ h => ⟨h.1 ▸ hn, h.2⟩
  refine metered_byte.bind (show ∀ mark, Metered (AtMost widest) _ from fun mark => ?_)
    fun taken cost taken' cost' h h' => ?_
  · split
    · exact (metered_pure _).mono fun _ _ => Free.atMost
    split
    · exact hNumber 2 (by omega)
    split
    · exact hNumber 4 hNarrow
    split
    · rename_i hMark
      exact hNumber 8 (hWide (Bool.and_eq_true_iff.mp hMark).2)
    · exact metered_failure.mono fun _ _ => Free.atMost
  · unfold AtMost at h'
    omega

namespace Wire

variable {α β : Type}

/-- Reading the form claims memory in proportion to the bytes that it takes. -/
def Metered (w : Wire α) : Prop := w.read.Metered Fair

theorem Metered.as {w : Wire α} (h : w.Metered) (make : α → β) (view : β → α) :
    (w.as make view).Metered := h.map make

/-- A form that refuses some of the values is metered as before, since a refusal does not depend on
the budget. -/
theorem Metered.restrict {w : Wire α} (h : w.Metered) (make? : α → Option β) (view : β → α) :
    (w.restrict make? view).Metered := h.followed fun a => metered_lift (make? a)

/-- Two forms in a row are metered if both are. -/
theorem Metered.pair {w : Wire α} {v : Wire β} (hw : w.Metered) (hv : v.Metered) :
    (w.pair v).Metered := hw.then fun a => hv.map (Prod.mk a)

/-- Four claimed bytes are enough for a narrow number, and eight for a wide one. -/
theorem metered_number (wide : Bool) {claimed : Nat} (hNarrow : 4 ≤ claimed)
    (hWide : wide = true → 8 ≤ claimed) (hSmall : claimed ≤ 8) {f : Nat → Reader α}
    (hf : ∀ n, Reader.Metered Free (f n)) :
    Reader.Metered Fair (do Reader.claim claimed; f (← readVarint wide)) := by
  refine ((metered_readVarint hNarrow hWide).followed hf).claimed claimed fun taken cost h => ?_
  unfold Fair
  omega

/-- A narrow number claims four bytes and takes at most five. -/
theorem metered_word32 : word32.Metered :=
  metered_number false (Nat.le_refl 4) nofun (by decide) fun _ => metered_pure _

/-- A wide number claims eight bytes and takes at most nine. -/
theorem metered_word64 : word64.Metered :=
  metered_number true (by decide) (fun _ => Nat.le_refl 8) (Nat.le_refl 8) fun _ => metered_pure _

theorem metered_int64 : int64.Metered :=
  metered_number true (by decide) (fun _ => Nat.le_refl 8) (Nat.le_refl 8) fun _ => metered_pure _

/-- A length claims eight bytes. What it announces is claimed where that is read. -/
theorem metered_length : length.Metered := by
  have hRead :=
    metered_number true (by decide) (fun _ => Nat.le_refl 8) (Nat.le_refl 8) metered_pure
  rwa [bind_pure] at hRead

/-- A flag claims the one byte that it takes. -/
theorem metered_bool : bool.Metered := by
  refine (metered_byte.followed fun b => ?_).claimed 1 fun taken cost h => ?_
  · split
    · exact metered_pure _
    · exact metered_pure _
    · exact metered_failure
  · unfold Fair
    omega

/-- A value that may be missing pays for its flag, and for itself if it is there. -/
theorem Metered.option {w : Wire α} (h : w.Metered) : w.option.Metered := by
  refine metered_bool.then fun b => ?_
  cases b with
  | false => exact (metered_pure _).mono fun _ _ => Free.fair
  | true => exact h.map some

/-- Bytes are claimed before they are taken, one for one. A number in front of them that is too
large claims too much or finds too few bytes. -/
theorem metered_bytes : bytes.Metered := by
  refine metered_length.then fun n => (metered_take n).claimed n fun taken cost h => ?_
  unfold Fair
  omega

theorem metered_text : text.Metered := metered_bytes.restrict _ _

/-- A list pays for its length and then for each value. Nothing is claimed for the list as a
whole. -/
theorem Metered.list {w : Wire α} (h : w.Metered) : w.list.Metered :=
  metered_length.then fun n => metered_many h n []

/-- A map is metered as the list of its entries. -/
theorem Metered.table {κ : Type} [Ord κ] [Std.TransOrd κ] [Std.LawfulEqOrd κ] {k : Wire κ}
    {w : Wire α} (hk : k.Metered) (hw : w.Metered) : (k.table w).Metered :=
  (hk.pair hw).list.as _ _

/-- A choice is a narrow number. Whether it stands for anything does not depend on the budget. -/
theorem metered_enumeration [DecidableEq α] (all : List α) : (enumeration all).Metered :=
  metered_word32.followed fun _ => metered_lift _

end Wire

open Wire

/-- An id is metered as bytes are, whatever their number: that there are sixteen is looked at
afterwards. -/
theorem Uuid.metered_wire : Uuid.wire.Metered := metered_bytes.restrict _ _

theorem ModuleId.metered_wire : ModuleId.wire.Metered := Uuid.metered_wire.as _ _

theorem GraphTag.metered_wire : GraphTag.wire.Metered := Uuid.metered_wire.as _ _

theorem BlockId.metered_wire : BlockId.wire.Metered :=
  (GraphTag.metered_wire.pair metered_word32).as _ _

theorem EdgeLabel.metered_wire : EdgeLabel.wire.Metered :=
  ((metered_enumeration _).pair (metered_bool.pair metered_bool)).as _ _

theorem Edge.metered_wire : Edge.wire.Metered :=
  (BlockId.metered_wire.pair (BlockId.metered_wire.pair EdgeLabel.metered_wire)).as _ _

/-- A block pays for the number of its kind and for the content that goes with it. A proxy has
none. -/
theorem Block.metered_wire : Block.wire.Metered := by
  refine metered_word32.then fun kind => ?_
  split
  · exact (metered_word64.option.pair (metered_word64.pair metered_word64)).map
      fun x => Block.code x.1 x.2.1 x.2.2
  · exact (metered_word64.option.pair metered_word64).map fun x => Block.data x.1 x.2
  · exact (metered_pure _).mono fun _ _ => Free.fair
  · exact metered_failure.mono fun _ _ => Free.fair

/-- A referent pays for the number of its kind and for what it refers to. -/
theorem Referent.metered_wire : Referent.wire.Metered := by
  refine metered_word32.then fun kind => ?_
  split
  · exact BlockId.metered_wire.map Referent.block
  · exact metered_word64.map Referent.address
  · exact metered_int64.map Referent.value
  · exact metered_failure.mono fun _ _ => Free.fair

theorem Symbol.metered_wire : Symbol.wire.Metered :=
  (metered_text.pair (Referent.metered_wire.pair metered_bool)).as _ _

theorem Section.metered_wire : Section.wire.Metered :=
  (metered_text.pair (metered_word64.pair (metered_word64.pair (metered_word32.as _ _)))).as _ _

/-- Tables are metered by their names and their bytes. -/
theorem AuxTables.metered_wire : AuxTables.wire.Metered :=
  metered_text.table ((metered_text.pair metered_bytes).as _ _)

theorem AddressSpace.metered_wire : AddressSpace.wire.Metered :=
  (metered_word32.pair (metered_word32.table Section.metered_wire)).as _ _

/-- A graph is metered part by part, and all of its parts are numbers, ids and maps. -/
theorem BlockGraph.metered_wire : BlockGraph.wire.Metered :=
  (GraphTag.metered_wire.pair (metered_word32.pair (metered_word32.pair
    ((metered_word32.table Block.metered_wire).pair
      (metered_word32.table Edge.metered_wire))))).as _ _

theorem SymbolTable.metered_wire : SymbolTable.wire.Metered :=
  (metered_word32.pair (metered_word32.table Symbol.metered_wire)).as _ _

/-- A module is metered field by field, in the order in which the fields are written. -/
theorem Module.metered_wire : Module.wire.Metered :=
  (ModuleId.metered_wire.pair (metered_text.pair (metered_text.pair
    ((metered_enumeration _).pair ((metered_enumeration _).pair
    ((metered_enumeration _).pair (metered_word64.pair (metered_int64.pair
    (BlockId.metered_wire.option.pair (AddressSpace.metered_wire.pair
    (BlockGraph.metered_wire.pair (SymbolTable.metered_wire.pair
      AuxTables.metered_wire)))))))))))).as _ _

/-- A program claims memory in proportion to its bytes. So under any budget it either is what it is
without one or is refused. -/
theorem Program.metered_wire : Program.wire.Metered :=
  (Module.metered_wire.list.pair AuxTables.metered_wire).as _ _

namespace Archive

/-- What is read under a budget is read without one, and is no longer than the budget allows. -/
theorem readPayload_of_budget {left : Nat} {bytes : List UInt8} {p : Program} {taken : Nat}
    (h : readPayload (some left) bytes = some (p, taken)) :
    readPayload none bytes = some (p, taken) ∧ taken ≤ 2 * left := by
  unfold readPayload at h ⊢
  rcases Program.metered_wire bytes with hFails | ⟨q, rest, used, cost, hFair, hUsed, hReads⟩
  · rw [hFails] at h
    cases h
  · rw [hReads] at h ⊢
    obtain ⟨⟨_, _⟩, hCharged, hAnswer⟩ := Option.map_eq_some_iff.mp h
    obtain ⟨after, hAfter, hSame⟩ := Option.map_eq_some_iff.mp hCharged
    have hRoom := (charge_eq_some_iff.mp hAfter).1 left rfl
    cases hSame
    cases hAnswer
    refine ⟨rfl, ?_⟩
    have := hFair.2
    simp only
    omega

/-- No budget reaches 2 ^ 32 bytes, however long the archive. -/
theorem budget_lt (n : Nat) : budget n < 0x100000000 := by
  unfold budget
  dsimp only
  split
  · omega
  split
  · omega
  split <;> omega

/-- Whatever the length of an archive, if it is read at all then as what was written. -/
theorem accept_of_decode_encode {options : ArchiveOptions} {p back : Program}
    (h : decode options (encode p) = .ok back) : accept p.stored = .ok back := by
  rw [decode_encode_eq] at h
  obtain ⟨q, hRead, hAccept⟩ := exists_readPayload_of_decodePayload h
  obtain ⟨hUnlimited, hShort⟩ := readPayload_of_budget hRead
  have hBound : 2 * budget (payload p).length < 0x200000000 := by
    have := budget_lt (payload p).length
    omega
  have hLength : (payload p).length < UInt64.size :=
    Nat.lt_trans (Nat.lt_of_le_of_lt hShort hBound) (by decide)
  rw [readPayload_payload hLength (by nofun)] at hUnlimited
  cases hUnlimited
  exact hAccept

end Archive

end Disassembly
