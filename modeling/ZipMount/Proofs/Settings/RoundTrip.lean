import Mathlib
import ZipMount.Settings.Document

/-!
# Settings read back

A document that was written is read back line by line.  A line without a line break of its own stays
one line (`lines_append`), a written line is the assignment of its text to its key
(`line?_assignment`), and the text of a number below the bound of the document is that number
(`number?_toDigits`).  So reading what was written comes to checking it, `read_of_write`: settings
that the check refuses are refused as well, and no others come out.

The main statement is `read_write`.  It also says when settings can be written at all, and that
nothing is read, whatever the document, that is below the least values.
-/

namespace ZipMount

namespace Document

/-! ## Numbers -/

/-- A decimal digit is one of the document. -/
lemma digit?_of_isDigit {c : Char} (h : c.isDigit = true) :
    digit? 10 c = some (c.toNat - '0'.toNat) ∧ c ≠ '_' := by
  obtain ⟨hlow, hhigh⟩ := Char.isDigit_iff_toNat.mp h
  have hrange : '0' ≤ c ∧ c ≤ '9' := ⟨hlow, hhigh⟩
  have hlt : c.toNat - '0'.toNat < 10 := by
    have hnine : '9'.toNat = '0'.toNat + 9 := rfl
    omega
  constructor
  · rw [digit?, hexDigit?, if_pos hrange]
    simp only [Option.filter_some, hlt, decide_true, if_true]
  · rintro rfl
    exact absurd h (by decide)

/-- Digits stand for the number that they are the digits of. -/
lemma digitsFrom_eq {cs : List Char} (h : ∀ c ∈ cs, c.isDigit = true) (value : Nat) :
    digitsFrom 10 value true cs = some (Nat.ofDigitChars 10 cs value) := by
  induction cs generalizing value with
  | nil => rfl
  | cons c cs ih =>
    obtain ⟨hdigit, hne⟩ := digit?_of_isDigit (h c List.mem_cons_self)
    rw [digitsFrom, if_neg hne, hdigit, Nat.ofDigitChars_cons]
    dsimp only
    rw [ih (fun d hd => h d (List.mem_cons_of_mem c hd)), Nat.mul_comm]

/-- The digits of a number other than zero do not begin with a zero. -/
lemma exists_toDigits_cons {n : Nat} (hn : 0 < n) :
    ∃ c cs, Nat.toDigits 10 n = c :: cs ∧ c ≠ '0' := by
  induction n using Nat.strongRecOn with
  | ind n ih =>
    rw [Nat.toDigits_eq_if (by decide)]
    split
    next hlt =>
      refine ⟨n.digitChar, [], rfl, ?_⟩
      interval_cases n <;> decide
    next hle =>
      obtain ⟨c, cs, hcs, hc⟩ := ih (n / 10) (by omega) (by omega)
      exact ⟨c, cs ++ [(n % 10).digitChar], by rw [hcs, List.cons_append], hc⟩

/-- The digits of a number read back as the number. -/
lemma natural?_toDigits (n : Nat) : natural? (Nat.toDigits 10 n) = some n := by
  rcases Nat.eq_zero_or_pos n with rfl | hn
  · rfl
  · obtain ⟨c, cs, hcs, hc⟩ := exists_toDigits_cons hn
    have hdigits : ∀ d ∈ c :: cs, d.isDigit = true := by
      intro d hd
      rw [← hcs] at hd
      exact Nat.isDigit_of_mem_toDigits (by decide) (by decide) hd
    obtain ⟨hdigit, hne⟩ := digit?_of_isDigit (hdigits c List.mem_cons_self)
    have hplus : c ≠ '+' := by
      rintro rfl
      exact absurd (hdigits '+' List.mem_cons_self) (by decide)
    have hminus : c ≠ '-' := by
      rintro rfl
      exact absurd (hdigits '-' List.mem_cons_self) (by decide)
    have hdecimal : natural? (c :: cs) = digits? 10 (c :: cs) := by
      simp [natural?, decimal?, hc, hplus, hminus]
    have hfrom : digits? 10 (c :: cs) = digitsFrom 10 0 true (c :: cs) := by
      rw [digits?, digitsFrom, digitsFrom, if_neg hne, if_neg hne]
    rw [hcs, hdecimal, hfrom, digitsFrom_eq hdigits, ← hcs, Nat.ofDigitChars_ten_toDigits]

/-- A number that a document can hold reads back. -/
lemma number?_toDigits {n : Nat} (h : n < numberBound) : number? (Nat.toDigits 10 n) = some n := by
  rw [number?, natural?_toDigits]
  simp [h]

/-! ## Lines -/

/-- A line without a line break of its own is one line of the text. -/
lemma lines_append {l : List Char} (h : ∀ c ∈ l, c ≠ '\n' ∧ c ≠ '\r') (rest : List Char) :
    lines (l ++ '\n' :: rest) = l :: lines rest := by
  induction l with
  | nil => rfl
  | cons c l ih =>
    obtain ⟨hfeed, hreturn⟩ := h c List.mem_cons_self
    have hrest := ih fun d hd => h d (List.mem_cons_of_mem c hd)
    rw [List.cons_append, lines]
    · rw [if_neg hfeed, hrest]
    · intro cs hc
      exact absurd hc hreturn

/-- The text is not empty, and can stand as a key without quotes.  So can the numbers and truth
values that are written. -/
def IsWord (text : List Char) : Prop :=
  text ≠ [] ∧ ∀ c ∈ text, isBare c = true

/-- What stands in a word is no blank, begins neither a quoted key nor a comment, and ends no line.
-/
lemma of_isBare {c : Char} (h : isBare c = true) :
    isBlank c = false ∧ (c ≠ '#' ∧ c ≠ '"' ∧ c ≠ '\'') ∧ c ≠ '\n' ∧ c ≠ '\r' := by
  refine ⟨?_, ⟨?_, ?_, ?_⟩, ?_, ?_⟩
  · by_contra hblank
    simp only [isBlank, Bool.not_eq_false, Bool.or_eq_true, decide_eq_true_eq] at hblank
    rcases hblank with rfl | rfl
    · exact absurd h (by decide)
    · exact absurd h (by decide)
  all_goals
    rintro rfl
    exact absurd h (by decide)

/-- Decimal digits are a word. -/
lemma isWord_toDigits (n : Nat) : IsWord (Nat.toDigits 10 n) := by
  refine ⟨Nat.toDigits_ne_nil, fun c hc => ?_⟩
  have hdigit : c.isDigit = true := Nat.isDigit_of_mem_toDigits (by decide) (by decide) hc
  simp [isBare, Char.isAlphanum, hdigit]

/-- The line that assigns a text to a name. -/
def assignment (name text : List Char) : List Char :=
  name ++ ' ' :: '=' :: ' ' :: text

section Assignment

variable {name text : List Char}

/-- A line that begins with a word is no remark. -/
lemma isRemark_of_isWord (h : IsWord name) (rest : List Char) :
    isRemark (name ++ rest) = false := by
  obtain ⟨hne, hbare⟩ := h
  obtain ⟨c, cs, rfl⟩ := List.exists_cons_of_ne_nil hne
  obtain ⟨hblank, ⟨hmark, -, -⟩, -⟩ := of_isBare (hbare c List.mem_cons_self)
  simp [isRemark, hblank, hmark]

/-- The key at the front of a line ends at a blank. -/
lemma key?_of_isWord (h : IsWord name) (rest : List Char) :
    key? ((name ++ ' ' :: rest).dropWhile isBlank) = some (name, ' ' :: rest) := by
  obtain ⟨hne, hbare⟩ := h
  have hspan : (name ++ ' ' :: rest).span isBare = (name, ' ' :: rest) := by
    have hstop : isBare ' ' = false := by decide
    rw [List.span_eq_takeWhile_dropWhile, List.takeWhile_append_of_pos hbare,
      List.dropWhile_append_of_pos hbare]
    simp [hstop]
  obtain ⟨c, cs, rfl⟩ := List.exists_cons_of_ne_nil hne
  obtain ⟨hblank, ⟨-, hdouble, hsingle⟩, -⟩ := of_isBare (hbare c List.mem_cons_self)
  rw [List.cons_append, List.dropWhile_cons_of_neg (by rw [hblank]; decide), ← List.cons_append,
    ← hspan]
  simp [key?, hdouble, hsingle]

/-- The text behind a blank ends with the line. -/
lemma span_of_isWord (h : IsWord text) :
    ((' ' :: text).dropWhile isBlank).span (fun c => !isBlank c && c ≠ '#') = (text, []) := by
  obtain ⟨hne, hbare⟩ := h
  have hsolid : ∀ c ∈ text, (!isBlank c && c ≠ '#') = true := by
    intro c hc
    obtain ⟨hblank, ⟨hmark, -, -⟩, -⟩ := of_isBare (hbare c hc)
    simp [hblank, hmark]
  have hspan : text.span (fun c => !isBlank c && c ≠ '#') = (text, []) := by
    rw [List.span_eq_takeWhile_dropWhile, List.takeWhile_eq_self_iff.mpr hsolid,
      List.dropWhile_eq_nil_iff.mpr hsolid]
  obtain ⟨c, cs, rfl⟩ := List.exists_cons_of_ne_nil hne
  have hblank := (of_isBare (hbare c List.mem_cons_self)).1
  rw [List.dropWhile_cons_of_pos (by decide), List.dropWhile_cons_of_neg (by rw [hblank]; decide),
    hspan]

/-- A line that assigns a text to a key does what the text says of the key. -/
lemma line?_assignment {key : Key} (hname : IsWord name) (hkey : Key.ofText? name = some key)
    (htext : IsWord text) : line? (assignment name text) = assign? key text := by
  have hblank : (' ' :: '=' :: ' ' :: text).dropWhile isBlank = '=' :: ' ' :: text := rfl
  have hend : isRemark [] = true := rfl
  rw [assignment, line?, isRemark_of_isWord hname, key?_of_isWord hname]
  simp only [Bool.false_eq_true, if_false, Option.bind_eq_bind, Option.bind_some, hkey, hblank,
    span_of_isWord htext, hend, if_true]

/-- An assignment has no line break of its own. -/
lemma ne_break_of_mem_assignment (hname : IsWord name) (htext : IsWord text) :
    ∀ c ∈ assignment name text, c ≠ '\n' ∧ c ≠ '\r' := by
  intro c hc
  rw [assignment, List.mem_append, List.mem_cons, List.mem_cons, List.mem_cons] at hc
  rcases hc with hc | rfl | rfl | rfl | hc
  · exact (of_isBare (hname.2 c hc)).2.2
  · decide
  · decide
  · decide
  · exact (of_isBare (htext.2 c hc)).2.2

end Assignment

/-! ## Documents -/

/-- The lines that a document of lines ends with line feeds, and one more that is empty. -/
lemma lines_flatMap {ls : List (List Char)} (h : ∀ l ∈ ls, ∀ c ∈ l, c ≠ '\n' ∧ c ≠ '\r') :
    lines (ls.flatMap fun l => l ++ ['\n']) = ls ++ [[]] := by
  induction ls with
  | nil => rfl
  | cons l ls ih =>
    rw [List.flatMap_cons, List.append_assoc, List.singleton_append,
      lines_append (h l List.mem_cons_self), ih fun l' hl' => h l' (List.mem_cons_of_mem l hl'),
      List.cons_append]

/-- The lines that are written for settings. -/
def writtenLines (s : Settings) : List (List Char) :=
  (SettingsField.all.map fun field =>
      assignment field.key.toList (Nat.toDigits 10 (s.get field))) ++
    [assignment verifyKey.toList (toString s.verifyChecksums).toList]

/-- The keys of the tunables are words, and stand for them. -/
lemma isWord_key (field : SettingsField) :
    IsWord field.key.toList ∧ Key.ofText? field.key.toList = some (.size field) := by
  cases field <;> exact ⟨⟨by decide, List.all_eq_true.mp (by decide)⟩, by decide⟩

/-- The key of the flag is a word, and stands for it. -/
lemma isWord_verifyKey :
    IsWord verifyKey.toList ∧ Key.ofText? verifyKey.toList = some .verify :=
  ⟨⟨by decide, List.all_eq_true.mp (by decide)⟩, by decide⟩

/-- A truth value is a word, and reads back. -/
lemma isWord_truth (b : Bool) :
    IsWord (toString b).toList ∧ truth? (toString b).toList = some b := by
  cases b <;> exact ⟨⟨by decide, List.all_eq_true.mp (by decide)⟩, by decide⟩

/-- A written document consists of its lines. -/
lemma toList_of_write {s : Settings} {text : String} (h : s.write = .ok text) :
    text.toList = (writtenLines s).flatMap fun l => l ++ ['\n'] := by
  unfold Settings.write at h
  split at h
  · cases h
    simp [writtenLines, writtenLine, assignment, SettingsField.all]
  · cases h

/-- The lines of a written document set all the keys. -/
lemma mapM_line?_writtenLines {s : Settings}
    (h : ∀ field : SettingsField, s.get field < numberBound) :
    (writtenLines s ++ [[]]).mapM line? =
      some ((SettingsField.all.map fun field => .size field (s.get field)) ++
        [.verify s.verifyChecksums, .remark]) := by
  have hsize : ∀ field, line? (assignment field.key.toList (Nat.toDigits 10 (s.get field))) =
      some (.size field (s.get field)) := by
    intro field
    obtain ⟨hword, hkey⟩ := isWord_key field
    rw [line?_assignment hword hkey (isWord_toDigits _), assign?, number?_toDigits (h field)]
    rfl
  have hverify : line? (assignment verifyKey.toList (toString s.verifyChecksums).toList) =
      some (.verify s.verifyChecksums) := by
    obtain ⟨hword, hkey⟩ := isWord_verifyKey
    obtain ⟨htext, htruth⟩ := isWord_truth s.verifyChecksums
    rw [line?_assignment hword hkey htext, assign?, htruth]
    rfl
  have hend : line? [] = some .remark := rfl
  simp only [writtenLines, SettingsField.all, List.map_cons, List.map_nil, List.cons_append,
    List.nil_append, List.mapM_cons, List.mapM_nil, hsize, hverify, hend, Option.bind_eq_bind,
    Option.bind_some, Option.pure_def]

/-- Settings can be written if and only if a document can hold their numbers. -/
lemma exists_write_iff {s : Settings} :
    (∃ text, s.write = .ok text) ↔ ∀ field : SettingsField, s.get field < numberBound := by
  have hall : (SettingsField.all.all fun field => s.get field < numberBound) = true ↔
      ∀ field : SettingsField, s.get field < numberBound := by
    rw [List.all_eq_true]
    refine ⟨fun h field => ?_, fun h field _ => decide_eq_true (h field)⟩
    exact of_decide_eq_true (h field (by cases field <;> decide))
  rw [← hall, Settings.write]
  split
  next h => exact ⟨fun _ => h, fun _ => ⟨_, rfl⟩⟩
  next h => exact ⟨fun ⟨text, htext⟩ => (by cases htext), fun h' => absurd h' h⟩

/-- A written document asks for the settings that it was written for. -/
lemma settings?_of_write {s : Settings} {text : String} (h : s.write = .ok text) :
    settings? text.toList = some s := by
  have hbound := exists_write_iff.mp ⟨text, h⟩
  have hbreak : ∀ l ∈ writtenLines s, ∀ c ∈ l, c ≠ '\n' ∧ c ≠ '\r' := by
    intro l hl
    rw [writtenLines, List.mem_append, List.mem_map, List.mem_singleton] at hl
    rcases hl with ⟨field, -, rfl⟩ | rfl
    · exact ne_break_of_mem_assignment (isWord_key field).1 (isWord_toDigits _)
    · exact ne_break_of_mem_assignment isWord_verifyKey.1 (isWord_truth _).1
  have hmark : withoutMark text.toList = text.toList := by
    rw [toList_of_write h]
    rfl
  rw [settings?, hmark, toList_of_write h, lines_flatMap hbreak, mapM_line?_writtenLines hbound]
  -- Each key is set once, so the standard values are all replaced.
  rfl

end Document

namespace Settings

/-- Reading what was written comes to checking it. -/
lemma read_of_write {s : Settings} {text : String} (h : s.write = .ok text) :
    read text = s.checked := by
  rw [read, Document.settings?_of_write h]

/-- Settings that are not accepted are refused as settings. -/
lemma exists_of_checked_ne {s : Settings} (h : s.checked ≠ .ok s) :
    ∃ defect, s.checked = .error (.fault (.settings defect)) := by
  unfold checked at h ⊢
  split
  next hsmall => exact absurd (if_pos hsmall) h
  next => exact ⟨_, rfl⟩

/-- What is read has no tunable below its least value. -/
lemma least_le_of_read {source : String} {s : Settings} (h : read source = .ok s)
    (field : SettingsField) : field.least ≤ s.get field := by
  unfold read at h
  split at h
  next t ht =>
    obtain ⟨rfl, hleast⟩ := checked_eq_ok_iff.mp h
    exact hleast field
  next => cases h

/-- Settings are read back unchanged, or refused.  They can be written if and only if their numbers
are those of a signed integer of 64 bits; what is written reads back as the same settings if these
are accepted, and is refused as settings if they are not.  Whatever document is read, no tunable is
below its least value. -/
theorem read_write (s : Settings) :
    ((∃ text, s.write = .ok text) ↔
        s.ioBufferSize ≤ 2 ^ 63 - 1 ∧ s.sizeProbeChunk ≤ 2 ^ 63 - 1 ∧
          s.skipBufferSize ≤ 2 ^ 63 - 1) ∧
      (∀ text, s.write = .ok text →
        (s.checked = .ok s → read text = .ok s) ∧
        (s.checked ≠ .ok s → ∃ defect, read text = .error (.fault (.settings defect)))) ∧
      ∀ (source : String) (t : Settings), read source = .ok t →
        512 ≤ t.ioBufferSize ∧ 1 ≤ t.sizeProbeChunk ∧ 1 ≤ t.skipBufferSize := by
  refine ⟨?_, fun text htext => ?_, fun source t ht => ?_⟩
  · have hbound : ∀ n, n < Document.numberBound ↔ n ≤ 2 ^ 63 - 1 := by
      intro n
      unfold Document.numberBound
      omega
    rw [Document.exists_write_iff, ← hbound, ← hbound, ← hbound]
    constructor
    · intro h
      exact ⟨h .ioBufferSize, h .sizeProbeChunk, h .skipBufferSize⟩
    · rintro ⟨hio, hprobe, hskip⟩ field
      cases field with
      | ioBufferSize => exact hio
      | sizeProbeChunk => exact hprobe
      | skipBufferSize => exact hskip
  · rw [read_of_write htext]
    exact ⟨id, exists_of_checked_ne⟩
  · have hleast := least_le_of_read ht
    exact ⟨hleast .ioBufferSize, hleast .sizeProbeChunk, hleast .skipBufferSize⟩

end Settings

end ZipMount
