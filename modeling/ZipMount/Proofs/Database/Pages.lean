import ZipMount.Database
import ZipMount.Proofs.Mount.Lookup

/-!
# Pages of a database file

A database engine asks for pages of its file in any order.  What it is to get depends on nothing but
the data of the entry: `Database.page` is the answer to one call, the bytes at the offset with zeros
behind the last byte of the file.  If the streams of the entry have a definite failure, a call that
goes behind the last byte meets it instead (`Database.pageOf`, `Serves.readsAt_eq`).

The main statement is `readsAt_eq_pages`: a file that is opened on a readable entry of an honest
container answers every call so, whatever calls have been made before and whichever of them were
rejected or came up short.
-/

namespace ZipMount

namespace Database

/-- The answer to a call for `amount` bytes at an offset of a file with the given data: the bytes that
stand there if there are as many, and otherwise those that there are, filled up with zeros.  Nothing
is read at places or of amounts below zero. -/
def page (data : Bytes) (amount offset : Int) : Status × Bytes :=
  if amount < 0 ∨ offset < 0 then (.readFailed, [])
  else if amount = 0 ∨ offset + amount ≤ data.length then
    (.ok, (data.drop offset.toNat).take amount.toNat)
  else
    (.shortRead, data.drop offset.toNat ++
      List.replicate (amount.toNat - (data.drop offset.toNat).length) 0)

/-- The answer to a call on a file that may end with a failure: a call for bytes behind the last one
meets it. -/
def pageOf (c : Contents) (amount offset : Int) : Status × Bytes :=
  if c.failure.isSome ∧ 0 < amount ∧ 0 ≤ offset ∧ c.data.length < offset + amount then
    (.readFailed, [])
  else page c.data amount offset

/-- Without a failure the answer is the page. -/
lemma pageOf_none (data : Bytes) (length : Nat) (amount offset : Int) :
    pageOf ⟨data, none, length⟩ amount offset = page data amount offset :=
  if_neg fun h => Bool.false_ne_true h.1

namespace File

/-- The answers to calls for the given amounts at the given offsets, made one after the other. -/
def readsAt [Inflater] (host : Host) : List (Int × Int) → File → List (Status × Bytes)
  | [], _ => []
  | (amount, offset) :: calls, f =>
    let (status, buffer, f) := f.read host amount offset
    (status, buffer) :: readsAt host calls f

/-- The file is open on the entry, and its handle follows what the streams of the entry serve. -/
structure Serves (m : Mount) (path : VirtualPath) (v : Service Host Walk) (length : Nat)
    (f : File) : Prop where
  mount_eq : f.mount = m
  follows : ∃ h, f.handle = some h ∧ h.Follows v path length

section Serves

variable [LawfulInflater] {m : Mount} {host : Host} {path : VirtualPath} {v : Service Host Walk}
  {length : Nat} {failure : Option IoError} {f : File}

/-- One call: the answer is the page or the failure, and the file still serves the entry. -/
lemma Serves.read_eq (hf : f.Serves m path v length) (hv : m.source.Definite path v failure)
    (hw : v.world host) (amount offset : Int) :
    ∃ f', f.read host amount offset =
      ((pageOf ⟨v.data, failure, length⟩ amount offset).1,
        (pageOf ⟨v.data, failure, length⟩ amount offset).2, f') ∧ f'.Serves m path v length := by
  obtain ⟨h, hhandle, hfollows⟩ := hf.follows
  unfold File.read
  rw [hhandle]
  dsimp only
  by_cases hneg : amount < 0 ∨ offset < 0
  · rw [if_pos hneg, pageOf, if_neg (by omega), page, if_pos hneg]
    exact ⟨f, rfl, hf⟩
  · obtain ⟨hgot, -, hfollows', -⟩ :=
      Handle.readUpTo_of_definite hv (hfollows.setPosition offset.toNat) hw amount.toNat
    rw [if_neg hneg, hf.mount_eq]
    rcases hread : (h.setPosition offset.toNat).readUpTo m.source amount.toNat host with
      ⟨⟨got, e⟩, h', host'⟩
    rw [hread] at hgot hfollows'
    have hposition : (h.setPosition offset.toNat).position = offset.toNat := rfl
    rw [hposition, Contents.fill] at hgot
    dsimp only at hgot hfollows'
    obtain ⟨rfl, rfl⟩ := Prod.mk.inj hgot
    -- The status and the filling both depend on where the file ends.
    have hlen : ((v.data.drop offset.toNat).take amount.toNat).length =
        min amount.toNat (v.data.length - offset.toNat) := by
      rw [List.length_take, List.length_drop]
    by_cases hfull : amount = 0 ∨ offset + amount ≤ v.data.length
    · have hall : ((v.data.drop offset.toNat).take amount.toNat).length = amount.toNat := by
        rw [hlen]
        omega
      have hnone : ¬ (failure.isSome ∧ 0 < amount ∧ 0 ≤ offset ∧
          v.data.length < offset + amount) := by omega
      refine ⟨⟨m, some h'⟩, ?_, rfl, h', rfl, hfollows'⟩
      rw [if_pos (by omega), pageOf, if_neg hnone, page, if_neg hneg, if_pos hfull]
      dsimp only
      rw [hall, if_neg (Nat.lt_irrefl _), Nat.sub_self, List.replicate_zero, List.append_nil]
    · refine ⟨⟨m, some h'⟩, ?_, rfl, h', rfl, hfollows'⟩
      rw [if_neg (by omega)]
      cases failure with
      | some e =>
        rw [pageOf, if_pos ⟨rfl, by omega, by omega, by dsimp only; omega⟩]
        rfl
      | none =>
        have hrest : (v.data.drop offset.toNat).take amount.toNat = v.data.drop offset.toNat := by
          apply List.take_of_length_le
          rw [List.length_drop]
          omega
        have hshort : (v.data.drop offset.toNat).length < amount.toNat := by
          rw [List.length_drop]
          omega
        rw [pageOf_none, page, if_neg hneg, if_neg hfull, hrest, Option.map_none]
        dsimp only
        rw [if_pos hshort]

/-- Any calls: the answers are the pages or the failure. -/
lemma Serves.readsAt_eq (hf : f.Serves m path v length) (hv : m.source.Definite path v failure)
    (hw : v.world host) (calls : List (Int × Int)) :
    f.readsAt host calls = calls.map fun call =>
      pageOf ⟨v.data, failure, length⟩ call.1 call.2 := by
  induction calls generalizing f with
  | nil => rfl
  | cons call calls ih =>
    obtain ⟨amount, offset⟩ := call
    obtain ⟨f', hread, hf'⟩ := hf.read_eq hv hw amount offset
    rw [readsAt, hread]
    dsimp only
    rw [ih hf', List.map_cons]

end Serves

/-- A file opened on a readable entry of an honest container answers every call with the page of the
data of the entry, whatever calls have been made before. -/
theorem readsAt_eq_pages [LawfulInflater] {m : Mount} {host : Host} {c : HonestContainer} {p : Part}
    {name : Bytes} {text : String} {flags : BitVec 32} (hname : Utf8.decode? name = some text)
    (hflags : flags &&& mainDatabase ≠ 0) (hroot : (VirtualPath.mk text).isRoot = false)
    (hread : host.files.read ((VirtualPath.mk text).container host.environment) = .ok c.encode)
    (hfind : c.parts.find? (fun q => q.name = (VirtualPath.mk text).entryName) = some p)
    (hr : p.Readable) :
    ∃ f, openFile (some m) host (some name) flags = (.ok, some f) ∧
      ∀ calls : List (Int × Int),
        f.readsAt host calls = calls.map fun call => page p.data call.1 call.2 := by
  have hhonest := c.honest p (List.mem_of_find?_eq_some hfind)
  have hfinds : m.Finds host ⟨text⟩ p := Mount.finds_of_honest hread hfind
  obtain ⟨h, v, hopen, hv, hdata, hw, hfollows⟩ :=
    hfinds.exists_handle (hhonest.delivers hr _) hroot .read
  refine ⟨⟨m, some h⟩, ?_, fun calls => ?_⟩
  · have hbind : (some name).bind Utf8.decode? = some text := hname
    unfold openFile
    rw [hbind]
    dsimp only
    rw [if_neg hflags, hopen]
  · have hserves : Serves m ⟨text⟩ v (m.size host ⟨text⟩) ⟨m, some h⟩ := ⟨rfl, h, rfl, hfollows⟩
    rw [hserves.readsAt_eq hv.definite hw calls, hdata]
    simp only [pageOf_none]

/-- Pages of a file of one byte: the byte, the byte and a zero, nothing below zero, only zeros behind
the end, and nothing where nothing is asked for. -/
theorem readsAt_stored :
    ∃ f, openFile (some Mount.standard) (Host.withContainer HonestContainer.threeParts.encode)
        (some (Utf8.encode "zip2:z!a")) mainDatabase = (.ok, some f) ∧
      f.readsAt (Host.withContainer HonestContainer.threeParts.encode)
        [(1, 0), (2, 0), (-1, 0), (2, 5), (0, 9)] =
        [(.ok, [1]), (.shortRead, [1, 0]), (.readFailed, []), (.shortRead, [0, 0]), (.ok, [])] := by
  have hcontainer : (VirtualPath.mk "zip2:z!a").container
      (Host.withContainer HonestContainer.threeParts.encode).environment = "z" := by cbv
  have hname : (VirtualPath.mk "zip2:z!a").entryName = "a" := by cbv
  have hroot : (VirtualPath.mk "zip2:z!a").isRoot = false := by
    rw [VirtualPath.isRoot, hname]
    rfl
  have hread : (Host.withContainer HonestContainer.threeParts.encode).files.read
      ((VirtualPath.mk "zip2:z!a").container
        (Host.withContainer HonestContainer.threeParts.encode).environment) =
      .ok HonestContainer.threeParts.encode := by
    rw [hcontainer, Host.read_withContainer]
  have hfind : HonestContainer.threeParts.parts.find?
      (fun q => q.name = (VirtualPath.mk "zip2:z!a").entryName) = some Part.stored := by
    rw [hname]
    rfl
  have hflags : mainDatabase &&& mainDatabase ≠ 0 := by decide
  obtain ⟨f, hopen, hreads⟩ := readsAt_eq_pages (m := Mount.standard)
    (Utf8.decode?_encode "zip2:z!a") hflags hroot hread hfind (by decide)
  exact ⟨f, hopen, hreads [(1, 0), (2, 0), (-1, 0), (2, 5), (0, 9)]⟩

end File

end Database

end ZipMount
