import Disassembly.Proofs.FlagText
import Disassembly.Proofs.ForeignBlocks

/-! A directory as a store of programs. Saving puts the archive of a program at one path or leaves
everything as it is, whether it is written in place or under another name first. What is at a path
stays there until something is done at that path. -/
namespace Disassembly.Directory

variable {d d' : Directory} {path : String} {found place : Path} {bytes : List UInt8}

section Temporary

/-! A temporary file is put where nothing is, and nothing is left of it. -/

/-- The length that is found is that of the longest name, or the one to start from. -/
theorem length_le_longest (names : List String) (n : Nat) :
    n ≤ names.foldl (fun n name => max n name.length) n ∧
      ∀ name ∈ names, name.length ≤ names.foldl (fun n name => max n name.length) n := by
  induction names generalizing n with
  | nil => simp
  | cons first rest ih =>
      obtain ⟨hStart, hRest⟩ := ih (max n first.length)
      refine ⟨by simp only [List.foldl_cons]; omega, fun name hName => ?_⟩
      rcases List.mem_cons.mp hName with rfl | hName
      · simp only [List.foldl_cons]
        omega
      · exact hRest name hName

/-- The unused name is longer than every name that stands in the directory, so it is none of
them. -/
theorem unusedName_not_mem {node : Node} (h : d.get? place = some node) :
    d.unusedName ∉ place := by
  intro hName
  have hKey : place ∈ d.keys :=
    List.mem_map.mpr ⟨(place, node), Table.get?_eq_some_iff_mem.mp h, rfl⟩
  have hLength := (length_le_longest d.keys.flatten 0).2 _ (List.mem_flatten.mpr ⟨_, hKey, hName⟩)
  rw [unusedName, String.length_ofList, List.length_replicate] at hLength
  omega

/-- The temporary file is put where nothing is, whatever the folder. -/
theorem get?_temporary (d : Directory) (folder : Path) :
    d.get? (folder ++ [d.unusedName]) = none := by
  cases hNode : d.get? (folder ++ [d.unusedName]) with
  | none => rfl
  | some node => exact absurd (by simp) (unusedName_not_mem hNode)

/-- A new file is not taken for a folder, not even where it is moved to its own path. -/
theorem isFolder_insert (hFree : d.get? place = none) (hPlace : place ≠ []) (found : Path) :
    isFolder (d.insert place (.file bytes)) found = d.isFolder found := by
  unfold isFolder
  rw [Table.get?_insert]
  by_cases hSame : place = found
  · subst hSame
    simp [hPlace, hFree]
  · simp [hSame]

/-- Moving a new file is writing it where it goes. -/
theorem rename_new (found : Path) (bytes : List UInt8) (hFree : d.get? place = none)
    (hPlace : place ≠ []) :
    rename place found (d.insert place (.file bytes)) =
      if d.isFolder found then .error .inputOutput (d.insert place (.file bytes))
      else .ok () (d.insert found (.file bytes)) := by
  have hNew : (d.insert place (.file bytes)).get? place = some (.file bytes) := by
    simp [Table.get?_insert]
  rw [rename, Edit.get_bind, Edit.demand_some_bind hNew, isFolder_insert hFree hPlace]
  cases d.isFolder found with
  | true => exact Edit.refuseIf_bind_of_true rfl
  | false =>
      rw [Edit.refuseIf_bind_of_false Bool.false_ne_true, Table.erase_insert _ hFree]
      rfl

/-- A new file that cannot be moved is taken away again. -/
theorem move_new (hFree : d.get? place = none) (hPlace : place ≠ []) :
    (do
      set (d.insert place (.file bytes))
      try rename place found
      catch e =>
        modify fun d => d.erase place
        throw e : Edit Directory Unit) d =
      if d.isFolder found then .error .inputOutput d
      else .ok () (d.insert found (.file bytes)) := by
  have hRename := rename_new found bytes hFree hPlace
  rw [Edit.bind_of_ok (Edit.set_eq_ok (a := ⟨⟩).mpr rfl)]
  cases hFolder : d.isFolder found with
  | true =>
      rw [hFolder, if_pos rfl] at hRename
      rw [Edit.tryCatch_of_error hRename, if_pos rfl]
      change EStateM.Result.error _ (Table.erase _ _) = _
      rw [Table.erase_insert _ hFree]
  | false =>
      rw [hFolder, if_neg Bool.false_ne_true] at hRename
      rw [Edit.tryCatch_of_ok hRename, if_neg Bool.false_ne_true]

end Temporary

section Saving

theorem target_eq_ok_iff :
    d.target path = .ok found ↔ d.locate path = some found ∧ d.isFolder found = false := by
  unfold target
  cases d.locate path with
  | none => simp
  | some place =>
      cases hFolder : d.isFolder place with
      | true => simpa [hFolder] using fun h => h ▸ hFolder
      | false => simpa [hFolder] using fun h => h ▸ hFolder

/-- Writing in place looks for the path and then either puts the file there or changes nothing. -/
theorem write_eq (path : String) (bytes : List UInt8) (d : Directory) :
    write path bytes d =
      match d.target path with
      | .ok found => .ok () (d.insert found (.file bytes))
      | .error e => .error e d := by
  rw [write, Edit.get_bind]
  cases d.target path <;> rfl

/-- Replacing a file is writing it in place, if there is room for another file at all. -/
theorem replace_eq (path : String) (bytes : List UInt8) (d : Directory) :
    replace path bytes d = if hasRoom path then write path bytes d else .error .inputOutput d := by
  rw [replace, Edit.get_bind, write_eq]
  unfold target
  cases hPath : d.locate path with
  | none => cases hasRoom path <;> exact Edit.demand_none_bind rfl
  | some found =>
      rw [Edit.demand_some_bind rfl]
      by_cases hRoom : hasRoom path = true
      · rw [Edit.refuseIf_bind_of_false (by simp [hRoom]), if_pos hRoom]
        refine (move_new (get?_temporary d found.dropLast) (by simp)).trans ?_
        by_cases hFolder : d.isFolder found = true <;> simp [hFolder]
      · rw [Edit.refuseIf_bind_of_true (by simp [hRoom]), if_neg hRoom]

variable {options options' : ArchiveOptions} {p : Program}

/-- Both ways of saving do the same, and one of them needs room for another file. -/
theorem save_eq (options : ArchiveOptions) (p : Program) (path : String) (d : Directory) :
    save options p path d =
      if options.atomicSave = true → hasRoom path = true then write path (Archive.encode p) d
      else .error .inputOutput d := by
  unfold save
  cases options.atomicSave with
  | true => simp [replace_eq]
  | false => simp

theorem write_eq_ok {u : Unit} :
    write path bytes d = .ok u d' ↔
      ∃ found, d.target path = .ok found ∧ d' = d.insert found (.file bytes) := by
  rw [write_eq]
  cases d.target path <;> simp [eq_comm]

theorem atomic_write (path : String) (bytes : List UInt8) : Edit.Atomic (write path bytes) := by
  intro d e d' h
  rw [write_eq] at h
  cases hTarget : d.target path with
  | ok found => simp [hTarget] at h
  | error e =>
      simp only [hTarget, EStateM.Result.error.injEq] at h
      exact h.2.symm

/-- When saving succeeds, and what is in the directory then: one file more or another one in its
place. -/
theorem save_eq_ok {u : Unit} :
    save options p path d = .ok u d' ↔
      (options.atomicSave = true → hasRoom path = true) ∧
        ∃ found, d.target path = .ok found ∧
          d' = d.insert found (.file (Archive.encode p)) := by
  rw [save_eq]
  by_cases hRoom : options.atomicSave = true → hasRoom path = true
  · rw [if_pos hRoom, write_eq_ok]
    exact ⟨fun hWritten => ⟨hRoom, hWritten⟩, And.right⟩
  · rw [if_neg hRoom]
    exact ⟨nofun, fun hSaved => absurd hSaved.1 hRoom⟩

/-- A program that cannot be saved leaves no file behind, and spoils none. -/
theorem atomic_save (options : ArchiveOptions) (p : Program) (path : String) :
    Edit.Atomic (save options p path) := by
  intro d e d' h
  rw [save_eq] at h
  split at h
  · exact atomic_write path _ d e d' h
  · cases h
    rfl

/-- Where there is room for another file, it makes no difference how a program is saved. -/
theorem save_congr (hRoom : hasRoom path = true) : save options p path = save options' p path := by
  funext d
  simp [save_eq, hRoom]

end Saving

section Plain

/-- A name that stands for itself: it is not that of a folder from which paths start, and has no
more bytes than a name can have. -/
structure Plain (name : String) : Prop where
  apart : name ≠ "" ∧ name ≠ "." ∧ name ≠ ".."
  spelled : '/' ∉ name.toList ∧ '\x00' ∉ name.toList
  short : name.utf8ByteSize ≤ nameLimit

instance (name : String) : Decidable (Plain name) :=
  decidable_of_iff ((name ≠ "" ∧ name ≠ "." ∧ name ≠ "..") ∧
      ('/' ∉ name.toList ∧ '\x00' ∉ name.toList) ∧ name.utf8ByteSize ≤ nameLimit)
    ⟨fun ⟨apart, spelled, short⟩ => ⟨apart, spelled, short⟩,
      fun ⟨apart, spelled, short⟩ => ⟨apart, spelled, short⟩⟩

theorem namesOf?_plain {name : String} (h : Plain name) : namesOf? name = some [name] := by
  obtain ⟨hSlash, hZero⟩ := h.spelled
  have hFirst : name.toList.head? ≠ some '/' := fun hHead => hSlash (List.mem_of_mem_head? hHead)
  have hNonempty : name.toList ≠ [] := by simpa using h.apart.1
  have hShort : ¬pathLimit < name.utf8ByteSize :=
    Nat.not_lt.mpr (Nat.le_trans h.short (by decide))
  rw [namesOf?, if_neg (by simp [hFirst, hZero, hShort]; simpa using hNonempty),
    splitAtEach_eq_splitOn, List.splitOn_eq_singleton hSlash]
  simp

/-- A plain name means an entry of the directory itself, whatever there is. -/
theorem locate_plain {name : String} (h : Plain name) (d : Directory) :
    d.locate name = some [name] := by
  obtain ⟨hEmpty, hHere, hUp⟩ := h.apart
  simp [locate, namesOf?_plain h, follow, isFolder, hEmpty, hHere, hUp, Nat.not_lt.mpr h.short]

/-- A plain name has no folder in front of it, so there is room for a temporary file beside it. -/
theorem hasRoom_plain {name : String} (h : Plain name) : hasRoom name = true := by
  obtain ⟨hEmpty, hHere, -⟩ := h.apart
  simp [hasRoom, namesOf?_plain h, folderLength, hEmpty, hHere, temporaryRoom, pathLimit]

end Plain

section Loading

variable {options : ArchiveOptions}

theorem read_file (hPath : d.locate path = some found)
    (hFile : d.get? found = some (.file bytes)) : d.read path = .ok bytes := by
  rw [read, hPath, Option.bind_some, hFile]

end Loading

section History

/-- Something that is done with a directory: a program is saved or loaded, or from outside a file
or a folder is put at a path or what is there is taken away. -/
inductive Action where
  | save (options : ArchiveOptions) (p : Program) (path : String)
  | load (options : ArchiveOptions) (path : String)
  | outside (place : Path) (node : Option Node)

/-- The directory afterwards. Loading only looks at it. -/
def Action.run : Action → Directory → Directory
  | save options p path, d => (Directory.save options p path).after d
  | load _ _, d => d
  | outside place (some node), d => d.insert place node
  | outside place none, d => d.erase place

/-- Where something is done, if it is. -/
def Action.place? : Action → Directory → Option Path
  | save _ _ path, d => d.locate path
  | load _ _, _ => none
  | outside place _, _ => some place

/-- One step: whatever is done, only one path is concerned. -/
theorem get?_run (a : Action) (h : a.place? d ≠ some found) :
    (a.run d).get? found = d.get? found := by
  cases a with
  | save options p path =>
      refine (atomic_save options p path).keeps (I := fun d' => d'.get? found = d.get? found) rfl ?_
      intro u d' hSave
      obtain ⟨-, place, hTarget, rfl⟩ := save_eq_ok.mp hSave
      have hPlace : place ≠ found := by
        intro hSame
        exact h (hSame ▸ (target_eq_ok_iff.mp hTarget).1)
      rw [Table.get?_insert, if_neg hPlace]
  | load options path => rfl
  | outside place node =>
      have hPlace : place ≠ found := fun hSame => h (congrArg some hSame)
      cases node with
      | some node => exact (Table.get?_insert _ _ _ _).trans (if_neg hPlace)
      | none => exact (Table.get?_erase _ _ _).trans (if_neg hPlace)

/-- A history of a directory in which nothing is done at a path. -/
inductive Spares (found : Path) (d : Directory) : Directory → Prop where
  | start : Spares found d d
  | action {now : Directory} (prior : Spares found d now) (a : Action)
      (hApart : a.place? now ≠ some found) : Spares found d (a.run now)

/-- A history goes on with things that are never done at the path. -/
theorem Spares.actions {now : Directory} (prior : d.Spares found now) {actions : List Action}
    (h : ∀ a ∈ actions, ∀ d, a.place? d ≠ some found) :
    d.Spares found (actions.foldl (fun d a => a.run d) now) := by
  induction actions generalizing now with
  | nil => exact prior
  | cons a rest ih =>
      have hFirst := prior.action a (h a List.mem_cons_self now)
      exact ih hFirst fun b hb => h b (List.mem_cons_of_mem a hb)

/-- No history makes a difference to a path that it spares. -/
theorem Spares.get?_eq {now : Directory} (h : d.Spares found now) :
    now.get? found = d.get? found := by
  induction h with
  | start => rfl
  | action _ a hApart ih => exact (get?_run a hApart).trans ih

end History

/-- A directory keeps programs as a map keeps values. Saving a program that succeeds puts its
archive at one path and touches nothing else, so no other file is left, and saving that fails
changes nothing. It succeeds just where the text means a path that is no folder, and in both ways
alike if there is room for another file, as there is beside every plain name. Loading compares the
size of a file to the limit and then reads the archive in it, and like everything that is done it
leaves alone what is at other paths, in its case all that there is. So whatever is done elsewhere
after a program is saved, the program is loaded again, by any text that means its path, as long as
the limit admits its archive, and with its digest looked at or not. -/
theorem saved_programs_are_kept :
    (∀ {options : ArchiveOptions} {p : Program} {path : String} {d d' : Directory},
      save options p path d = .ok () d' → ∃ found, d.locate path = some found ∧
        d'.get? found = some (.file (Archive.encode p)) ∧
        ∀ other, other ≠ found → d'.get? other = d.get? other) ∧
    (∀ {options : ArchiveOptions} {p : Program} {path : String} {d d' : Directory} {e : Error},
      save options p path d = .error e d' → d' = d) ∧
    (∀ (options : ArchiveOptions) (p : Program) (path : String) (d : Directory),
      (∃ d', save options p path d = .ok () d') ↔
        (options.atomicSave = true → hasRoom path = true) ∧
          ∃ found, d.locate path = some found ∧ d.isFolder found = false) ∧
    (∀ {path : String}, hasRoom path = true → ∀ (options options' : ArchiveOptions) (p : Program),
      save options p path = save options' p path) ∧
    (∀ {name : String}, Plain name →
      hasRoom name = true ∧ ∀ d : Directory, d.locate name = some [name]) ∧
    (∀ {path : String} {d : Directory} {found : Path} {bytes : List UInt8},
      d.locate path = some found → d.get? found = some (.file bytes) →
        ∀ options : ArchiveOptions, load options d path =
          if options.maxFileSize.toNat < bytes.length then
            .error (.fileTooLarge options.maxFileSize bytes.length)
          else Archive.decode options bytes) ∧
    (∀ (a : Action) (d : Directory) (place : Path), a.place? d ≠ some place →
      (a.run d).get? place = d.get? place) ∧
    ∀ {p : Program} {options : ArchiveOptions} {path again : String} {d d' later : Directory}
      {found : Path}, p.Reachable → (Archive.payload p).length ≤ Archive.payloadLimit →
        d.locate path = some found → save options p path d = .ok () d' → d'.Spares found later →
        later.locate again = some found → ∃ back : Program, back.sameContent p = true ∧
          ∀ options : ArchiveOptions, (Archive.encode p).length ≤ options.maxFileSize.toNat →
            load options later again = .ok back := by
  refine ⟨fun hSave => ?_, fun hFailed => atomic_save _ _ _ _ _ _ hFailed,
    fun options p path d => ?_, fun hRoom _ _ _ => save_congr hRoom,
    fun h => ⟨hasRoom_plain h, locate_plain h⟩,
    fun hPath hFile options => load_eq_of_read (read_file hPath hFile), fun a _ _ h => get?_run a h,
    ?_⟩
  · obtain ⟨-, found, hTarget, rfl⟩ := save_eq_ok.mp hSave
    refine ⟨found, (target_eq_ok_iff.mp hTarget).1, ?_, fun other hOther => ?_⟩
    · rw [Table.get?_insert, if_pos rfl]
    · rw [Table.get?_insert, if_neg hOther.symm]
  · simp [save_eq_ok, target_eq_ok_iff]
  · intro p options path again d d' later found hReachable hSize hPath hSave hSpared hAgain
    obtain ⟨-, place, hTarget, rfl⟩ := save_eq_ok.mp hSave
    obtain rfl : place = found :=
      Option.some.inj ((target_eq_ok_iff.mp hTarget).1.symm.trans hPath)
    have hFile : later.get? place = some (.file (Archive.encode p)) := by
      rw [hSpared.get?_eq, Table.get?_insert, if_pos rfl]
    refine ⟨p.stored.relink, p.sameContent_relink_stored, fun options hLimit => ?_⟩
    rw [load_eq_of_read (read_file hAgain hFile), if_neg (Nat.not_lt.mpr hLimit),
      Archive.decode_encode options hSize, Archive.accept_stored hReachable.sound.wellFormed]

/-- What is done beside a copy: its original becomes a folder and cannot be written any more, a
folder is taken away, and a file is filled with something else after a program was saved in it. -/
def besides : List Action :=
  [.outside ["recursion.ir"] (some .folder), .save {} Program.singleRecursion "recursion.ir",
    .outside ["notes"] none, .save { atomicSave := false } Program.singleRecursion "other.ir",
    .outside ["other.ir"] (some (.file [0])), .load {} "other.ir"]

/-- A copy is saved in either way, but not where a folder is. It is loaded with the smallest limit
that admits it, and with one byte less it is refused. -/
theorem saved_programs_are_kept_besides :
    let p := Program.doubledRecursion
    let d : Directory := Table.insert Program.recursionFile ["notes"] .folder
    let copied : Directory := d.insert ["copy.ir"] (.file (Archive.encode p))
    let later := besides.foldl (fun d a => a.run d) copied
    p.Reachable ∧ Plain "copy.ir" ∧ (Archive.encode p).length = 392 ∧
      (∀ atomicSave, save { atomicSave } p "copy.ir" d = .ok () copied) ∧
      (∀ atomicSave, ∃ e, save { atomicSave } p "notes" d = .error e d) ∧
      copied.Spares ["copy.ir"] later ∧
      (∃ back : Program, back.sameContent p = true ∧ ∀ verifyChecksum,
        load { maxFileSize := 392, verifyChecksum } later "./copy.ir" = .ok back) ∧
      ∀ verifyChecksum, load { maxFileSize := 391, verifyChecksum } later "copy.ir" =
        .error (.fileTooLarge 391 392) := by
  intro p d copied later
  obtain ⟨-, hFailed, hWhen, hAlike, hPlain, hLoads, -, hKept⟩ := saved_programs_are_kept
  have hName : Plain "copy.ir" := by decide
  have hPayload : (Archive.payload p).length = 352 := by decide +kernel
  have hLength : (Archive.encode p).length = 392 := by rw [Archive.length_encode, hPayload]; rfl
  have hSave : save {} p "copy.ir" d = .ok () copied :=
    save_eq_ok.mpr ⟨fun _ => (hPlain hName).1, ["copy.ir"],
      target_eq_ok_iff.mpr ⟨(hPlain hName).2 d, by decide +kernel⟩, rfl⟩
  have hOriginal := (hPlain (show Plain "recursion.ir" by decide)).2
  have hOther := (hPlain (show Plain "other.ir" by decide)).2
  have hSpared : copied.Spares ["copy.ir"] later := by
    apply Spares.start.actions
    simp [besides, Action.place?, hOriginal, hOther]
  refine ⟨Program.reachable_doubledRecursion, hName, hLength, fun atomicSave => ?_,
    fun atomicSave => ?_, hSpared, ?_, fun verifyChecksum => ?_⟩
  · rw [hAlike (hPlain hName).1 { atomicSave } {}, hSave]
  · cases hRun : save { atomicSave } p "notes" d with
    | ok u d' =>
        obtain ⟨-, found, hFound, hFile⟩ := (hWhen _ p "notes" d).mp ⟨d', hRun⟩
        rw [(hPlain (by decide)).2 d] at hFound
        cases hFound
        exact absurd hFile (by decide +kernel)
    | error e d' =>
        rw [hFailed hRun]
        exact ⟨e, rfl⟩
  · obtain ⟨back, hSame, hBack⟩ := hKept Program.reachable_doubledRecursion
      (by rw [hPayload]; decide) ((hPlain hName).2 d) hSave hSpared
      (show later.locate "./copy.ir" = some ["copy.ir"] by decide +kernel)
    exact ⟨back, hSame, fun verifyChecksum => hBack _ hLength.le⟩
  · have hFile : later.get? ["copy.ir"] = some (.file (Archive.encode p)) := by
      rw [hSpared.get?_eq, Table.get?_insert, if_pos rfl]
    rw [hLoads ((hPlain hName).2 later) hFile, hLength]
    rfl

end Disassembly.Directory
