import ZipMount.Database
import ZipMount.Proofs.Mount.Reach

/-!
# What is there is what can be opened

Whether an entry is there can be found out in several ways: by a question to the file system or to the
callbacks, by opening it through either, or by its size.  They treat a scan that breaks off in different
ways.  Questions take an error for the answer that nothing is there, opening reports it, and the
callbacks turn it into a code.  All of them draw the line where the search for the name stops, in a
sound container, a damaged one and one that is missing (`opens_what_is_there`).

A file that is opened through the callbacks is granted for reading only, whatever was requested
(`readOnly_grantedFlags`), and where none is opened the caller is left with no file at all
(`openFile_eq_none`).
-/

namespace ZipMount

namespace Database

/-- The question whether a file is there. -/
def accessExists : Int := 0

/-! ## Granted flags -/

/-- The granted flags are the requested ones without those for writing and making the file, and with
the one for reading only. -/
structure ReadOnly (requested granted : BitVec 32) : Prop where
  clears : granted &&& openForWriting = 0
  sets : granted &&& openReadOnly = openReadOnly
  keeps : granted &&& ~~~(openForWriting ||| openReadOnly) =
    requested &&& ~~~(openForWriting ||| openReadOnly)

/-- Opening grants reading only. -/
lemma readOnly_grantedFlags (flags : BitVec 32) : ReadOnly flags (grantedFlags flags) where
  clears := by
    have hapart : openReadOnly &&& openForWriting = 0 := by decide
    rw [← hapart, grantedFlags]
    ext i hi
    simp only [BitVec.getElem_and, BitVec.getElem_or, BitVec.getElem_not]
    cases openForWriting[i] <;> simp
  sets := by
    rw [grantedFlags]
    ext i hi
    simp only [BitVec.getElem_and, BitVec.getElem_or]
    cases openReadOnly[i] <;> simp
  keeps := by
    rw [grantedFlags]
    ext i hi
    simp only [BitVec.getElem_and, BitVec.getElem_or, BitVec.getElem_not]
    cases openForWriting[i] <;> cases openReadOnly[i] <;> simp

/-! ## Opening and asking -/

section Opening

variable [Inflater] {m : Mount} {host : Host} {name : Bytes} {text : String} {flags : BitVec 32}

/-- A file is opened with its name as a path, if the main database is asked for. -/
lemma openFile_of_text (htext : Utf8.decode? name = some text)
    (hflags : flags &&& mainDatabase ≠ 0) :
    openFile (some m) host (some name) flags = match m.openPath host ⟨text⟩ .read with
      | .error _ => (.cannotOpen, none)
      | .ok h => (.ok, some ⟨m, some h⟩) := by
  unfold openFile
  rw [Option.bind_some, htext]
  exact if_neg hflags

/-- Opening a file succeeds if the path can be opened. -/
lemma openFile_eq_ok_iff (htext : Utf8.decode? name = some text)
    (hflags : flags &&& mainDatabase ≠ 0) :
    (openFile (some m) host (some name) flags).1 = .ok ↔
      ∃ h, m.openPath host ⟨text⟩ .read = .ok h := by
  rw [openFile_of_text htext hflags]
  rcases m.openPath host ⟨text⟩ .read with e | h
  · simp
  · simp

/-- Asking whether a file is there is asking whether its path is. -/
lemma access_eq_true_iff (htext : Utf8.decode? name = some text) :
    access (some m) host (some name) accessExists = (.ok, some true) ↔
      m.contains host ⟨text⟩ = true := by
  have hquestion : accessExists ≠ accessReadWrite := by decide
  unfold access
  rw [Option.bind_some, htext]
  simp [hquestion]

/-- No file is opened unless the main database is asked for, by a name that is text and a path that can
be opened. -/
lemma openFile_eq_none {name : Option Bytes}
    (h : flags &&& mainDatabase = 0 ∨ name.bind Utf8.decode? = none ∨
      ∃ text e, name.bind Utf8.decode? = some text ∧ m.openPath host ⟨text⟩ .read = .error e) :
    (openFile (some m) host name flags).2 = none := by
  unfold openFile
  rcases htext : name.bind Utf8.decode? with _ | text
  · rfl
  · dsimp only
    by_cases hflags : flags &&& mainDatabase = 0
    · rw [if_pos hflags]
    · rw [if_neg hflags]
      obtain ⟨text', e, htext', he⟩ : ∃ text' e, name.bind Utf8.decode? = some text' ∧
          m.openPath host ⟨text'⟩ .read = .error e := by
        rcases h with h | h | h
        · exact absurd h hflags
        · rw [htext] at h
          cases h
        · exact h
      obtain rfl : text = text' := Option.some.inj (htext.symm.trans htext')
      rw [he]

/-- The caller is left with a file exactly if opening succeeds. -/
lemma isSome_openFile_iff (mount : Option Mount) (host : Host) (name : Option Bytes)
    (flags : BitVec 32) : (openFile mount host name flags).2.isSome = true ↔
      (openFile mount host name flags).1 = .ok := by
  unfold openFile
  split
  next => simp
  next => simp
  next m text _ =>
    split
    next => simp
    next =>
      rcases m.openPath host ⟨text⟩ .read with e | h
      · simp
      · simp

/-- A file that is opened has granted flags, for reading only. -/
lemma reportedFlags_of_ok {mount : Option Mount} {name : Option Bytes}
    (h : (openFile mount host name flags).1 = .ok) :
    ∃ granted, reportedFlags (openFile mount host name flags).2 flags true = some granted ∧
      ReadOnly flags granted := by
  refine ⟨grantedFlags flags, ?_, readOnly_grantedFlags flags⟩
  rw [reportedFlags, (isSome_openFile_iff mount host name flags).mpr h]
  rfl

end Opening

/-- What is there is what can be opened, on every host, whatever its containers hold and whether or not
they are there.  Unless a path is a root, it is there if it can be opened in any one of the modes, and if
it can be opened for reading; and what has a size is there.  A main database is opened through the
callbacks exactly if they say that its name is there and the name is no root.  Without being asked for
the main database, without a name that is text, and where the path cannot be opened, they leave no
file; and they leave one exactly if they answer that all is well, and then with the requested flags made
those for reading only. -/
theorem opens_what_is_there [Inflater] (m : Mount) (host : Host) :
    (∀ p : VirtualPath, p.isRoot = false →
      (∀ mode, m.contains host p = true ↔ ∃ h, m.openPath host p mode = .ok h) ∧
      (m.contains host p = true ↔ ∃ h, m.openInput host p = .ok h) ∧
      (0 < m.size host p → m.contains host p = true)) ∧
    (∀ (name : Bytes) (text : String) (flags : BitVec 32), Utf8.decode? name = some text →
      flags &&& mainDatabase ≠ 0 →
        ((openFile (some m) host (some name) flags).1 = .ok ↔
          access (some m) host (some name) accessExists = (.ok, some true) ∧
            (VirtualPath.mk text).isRoot = false)) ∧
    ∀ (name : Option Bytes) (flags : BitVec 32),
      ((flags &&& mainDatabase = 0 ∨ name.bind Utf8.decode? = none ∨ ∃ text e,
          name.bind Utf8.decode? = some text ∧ m.openPath host ⟨text⟩ .read = .error e) →
        (openFile (some m) host name flags).2 = none) ∧
      ((openFile (some m) host name flags).2.isSome = true ↔
        (openFile (some m) host name flags).1 = .ok) ∧
      ((openFile (some m) host name flags).1 = .ok →
        ∃ granted, reportedFlags (openFile (some m) host name flags).2 flags true = some granted ∧
          ReadOnly flags granted) := by
  refine ⟨fun p hroot => ⟨?_, ?_, ?_⟩, ?_, fun name flags => ⟨?_, ?_, ?_⟩⟩
  · exact Mount.contains_iff_exists_openPath hroot
  · exact Mount.contains_iff_exists_openPath hroot .read
  · exact Mount.contains_of_size_pos
  · intro name text flags htext hflags
    rw [openFile_eq_ok_iff htext hflags, access_eq_true_iff htext, Mount.contains_eq_true_iff,
      Mount.exists_openPath_iff]
    constructor
    · rintro ⟨hroot, hlocate⟩
      exact ⟨.inr hlocate, hroot⟩
    · rintro ⟨hthere, hroot⟩
      refine ⟨hroot, hthere.resolve_left ?_⟩
      rw [hroot]
      exact Bool.false_ne_true
  · exact openFile_eq_none
  · exact isSome_openFile_iff (some m) host name flags
  · exact reportedFlags_of_ok

/-- The entry of the nested name opens in a mode for writing too, and as a main database: the callbacks
say that it is there, and grant reading only when writing is requested. -/
theorem opens_nested :
    (VirtualPath.mk "zip2:z!d/a").isRoot = false ∧
      access (some Mount.standard) (Host.withContainer Part.nested.encode)
        (some (Utf8.encode "zip2:z!d/a")) accessExists = (.ok, some true) ∧
      (∃ h, Mount.standard.openPath (Host.withContainer Part.nested.encode) ⟨"zip2:z!d/a"⟩
        .readWrite = .ok h) ∧
      ∃ granted, reportedFlags (openFile (some Mount.standard)
          (Host.withContainer Part.nested.encode) (some (Utf8.encode "zip2:z!d/a"))
          (mainDatabase ||| openForWriting)).2 (mainDatabase ||| openForWriting) true =
            some granted ∧
        ReadOnly (mainDatabase ||| openForWriting) granted := by
  have hname : (VirtualPath.mk "zip2:z!d/a").entryName = "d/a" := by cbv
  have hroot : (VirtualPath.mk "zip2:z!d/a").isRoot = false :=
    VirtualPath.isRoot_eq_false (by rw [hname]; decide)
  have hread : (Host.withContainer Part.nested.encode).files.read
      ((VirtualPath.mk "zip2:z!d/a").container
        (Host.withContainer Part.nested.encode).environment) = .ok Part.nested.encode :=
    Host.read_container (by cbv) _
  have hfinds : Mount.standard.Finds (Host.withContainer Part.nested.encode) ⟨"zip2:z!d/a"⟩
      Part.nested := by
    refine ⟨[Part.nested], [], ?_, ?_, ?_⟩
    · rw [hread, List.flatMap_singleton, List.append_nil]
    · intro q hq
      obtain rfl := List.mem_singleton.mp hq
      exact Part.framed_nested _
    · rw [hname]
      rfl
  have htext := Utf8.decode?_encode "zip2:z!d/a"
  have hflags : (mainDatabase ||| openForWriting) &&& mainDatabase ≠ 0 := by decide
  obtain ⟨hpaths, hopens, hfiles⟩ := opens_what_is_there Mount.standard
    (Host.withContainer Part.nested.encode)
  obtain ⟨hmodes, -, -⟩ := hpaths _ hroot
  have haccess := (access_eq_true_iff htext).mpr hfinds.contains_eq
  have hok := (hopens _ _ _ htext hflags).mpr ⟨haccess, hroot⟩
  obtain ⟨-, -, hgranted⟩ := hfiles (some (Utf8.encode "zip2:z!d/a"))
    (mainDatabase ||| openForWriting)
  exact ⟨hroot, haccess, (hmodes .readWrite).mp hfinds.contains_eq, hgranted hok⟩

end Database

end ZipMount
