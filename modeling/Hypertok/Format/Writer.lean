import Hypertok.Format.Checked
import Mathlib.Data.Prod.Lex

/-!
The writer of the file format, `hypertok-converter`.

* `Document.write`: the sections in the order of their emission, the header and the section table.
* `write_sound`: the reader gives back what was written, and the order of the sections in the
  document does not matter.
-/

namespace Hypertok

open Machine Run

/-- `Section`. -/
structure Section where
  id : ℕ
  bytes : List UInt8
  id_lt : id < 2 ^ 32

/-- `Document`. -/
structure Document where
  structuralClass : StructuralClass
  hashScheme : HashScheme
  flags : UInt8
  vocabSize : ℕ
  omega : ℕ
  sections : List Section
  omega_lt : omega < 2 ^ 32

/-- `WriteError`. -/
inductive WriteError
  | invalidExtensionId (id : ℕ)
  | duplicateSection (id : ℕ)
  | tooManySections (count : ℕ)
  | vocabTooLarge (size : ℕ)
  | fileTooLarge
  | selfValidation (error : ReadError)
  deriving DecidableEq

/-- A run of the writer. -/
abbrev Write := Run WriteError

/-- `Section::new`. -/
def Section.new (s : SectionId) (bytes : List UInt8) : Section :=
  ⟨s.value, bytes, by cases s <;> decide⟩

/-- `Section::extension`. -/
def Section.extension (id : ℕ) (bytes : List UInt8) (h : id < 2 ^ 32) : Write Section :=
  if id < 1024 ∨ id = SectionId.hash.value then .fail (.invalidExtensionId id)
  else .ok ⟨id, bytes, h⟩

/-- `map_err(SelfValidation)`. -/
def selfValidation {α : Type} : Read α → Write α
  | none => .stuck
  | some (.error e) => .fail (.selfValidation e)
  | some (.ok a) => .ok a

lemma selfValidation_eq_ok {α : Type} {x : Read α} {a : α} :
    selfValidation x = ok a ↔ x = ok a := by
  constructor
  · intro h
    rcases x with _ | _ | b
    · cases h
    · cases h
    · exact congrArg ok (ok_inj.mp h)
  · rintro rfl
    rfl

/-- `emission_key`. -/
def emissionKey (id : ℕ) : ℕ ×ₗ ℕ :=
  if id = SectionId.lengths.value then toLex (0, 0)
  else if id = SectionId.hash.value then toLex (1, 0)
  else if id = SectionId.arena.value then toLex (2, 0)
  else toLex (3, id)

/-- The search for two sections of one id. -/
def checkSections : List Section → Write Unit
  | a :: b :: rest =>
      if a.id = b.id then .fail (.duplicateSection a.id) else checkSections (b :: rest)
  | _ => return

/-- `pad_to_eight`; masking with `!7` rounds down to a multiple of 8. -/
def padToEight (w : ℕ) (output : List UInt8) : Write (List UInt8) := do
  let aligned ← Run.orFail .fileTooLarge (Uint.checkedAdd w output.length 7)
  return output ++ List.replicate (aligned / 8 * 8 - output.length) 0

/-- One turn of the loop over the sections. -/
def emitSection (w : ℕ) (st : List UInt8 × List SectionEntry) (s : Section) :
    Write (List UInt8 × List SectionEntry) := do
  let output ← padToEight w st.1
  Run.require (output.length < 2 ^ 32) .fileTooLarge
  Run.require (s.bytes.length < 2 ^ 64) .fileTooLarge
  return (output ++ s.bytes, st.2 ++ [⟨s.id, output.length, s.bytes.length⟩])

/-- The fields of the header and where they are written, in order. -/
def headerFields (document : Document) : List (ℕ × List UInt8) := [
  (0, magic),
  (8, leBytes 2 formatVersion),
  (10, [document.structuralClass.value]),
  (11, [0]),
  (12, [document.hashScheme.value]),
  (13, [document.flags]),
  (14, [0, 0]),
  (16, leBytes 4 document.vocabSize),
  (20, leBytes 4 document.omega),
  (24, leBytes 4 document.sections.length),
  (28, leBytes 4 headerLen),
  (32, List.replicate 32 0)]

/-- The fields of an entry of the section table. -/
def entryFields (index : ℕ) (entry : SectionEntry) : List (ℕ × List UInt8) :=
  let start := headerLen + index * sectionTableEntryLen
  [(start, leBytes 4 entry.id), (start + 4, leBytes 4 entry.offset),
    (start + 8, leBytes 8 entry.length)]

/-- The fields of the section table, from an index on. -/
def tableFields : ℕ → List SectionEntry → List (ℕ × List UInt8)
  | _, [] => []
  | index, entry :: entries => entryFields index entry ++ tableFields (index + 1) entries

/-- `write`. -/
def Document.write (w : ℕ) (sha256 : List UInt8 → List UInt8) (document : Document) :
    Write (List UInt8) := do
  Run.require (document.vocabSize ≤ maxVocabSize) (.vocabTooLarge document.vocabSize)
  Run.require (document.sections.length < 2 ^ 32) (.tooManySections document.sections.length)
  let sections := document.sections.insertionSort fun a b => emissionKey a.id ≤ emissionKey b.id
  checkSections sections
  let tableLen ← Run.orFail .fileTooLarge
    (Uint.checkedMul w document.sections.length sectionTableEntryLen)
  let payloadStart ← Run.orFail .fileTooLarge (Uint.checkedAdd w headerLen tableLen)
  let (output, entries) ← sections.foldlM (emitSection w) (List.replicate payloadStart 0, [])
  let output ← Run.expect (overwriteAll output (headerFields document))
  let output ← Run.expect (overwriteAll output (tableFields 0 entries))
  let digest := computeDigest sha256 output
  -- `copy_from_slice` takes an array of 32 bytes
  let output ← Run.expect (if digest.length = 32 then overwrite output 32 digest else none)
  let _ ← selfValidation (ValidatedFile.read w sha256 output)
  return output

/-! ### The payload -/

/-- The entry says where the section is, past `start`. -/
structure Placed (start : ℕ) (output : List UInt8) (s : Section) (entry : SectionEntry) : Prop where
  id_eq : entry.id = s.id
  length_eq : entry.length = s.bytes.length
  start_le : start ≤ entry.offset
  aligned : entry.offset % 8 = 0
  offset_lt : entry.offset < 2 ^ 32
  length_lt : entry.length < 2 ^ 64
  range : getRange output entry.offset (entry.offset + entry.length) = some s.bytes

lemma Placed.le {start : ℕ} {output : List UInt8} {s : Section} {entry : SectionEntry}
    (h : Placed start output s entry) : entry.offset + entry.length ≤ output.length :=
  (getRange_eq_some.mp h.range).1.2

/-- What is emitted after some sections: their entries, from the left to the right. -/
structure Emission (start : ℕ) (done : List Section) (st : List UInt8 × List SectionEntry) :
    Prop where
  start_le : start ≤ st.1.length
  ids : st.2.map SectionEntry.id = done.map Section.id
  of_section : ∀ s ∈ done, ∃ entry ∈ st.2, Placed start st.1 s entry
  of_entry : ∀ entry ∈ st.2, ∃ s ∈ done, Placed start st.1 s entry
  sorted : st.2.Pairwise fun a b => a.offset + a.length ≤ b.offset

variable {w start : ℕ} {output : List UInt8} {entries : List SectionEntry}

lemma padToEight_eq_ok {output' : List UInt8} (h : padToEight w output = ok output') :
    output'.length % 8 = 0 ∧ ∃ zeros, output' = output ++ zeros := by
  obtain ⟨aligned, haligned, hok⟩ := bind_eq_ok.mp h
  obtain rfl := ok_inj.mp hok
  rw [orFail_eq_ok, Uint.checkedAdd, Option.ite_none_right_eq_some] at haligned
  obtain rfl := Option.some_inj.mp haligned.2
  refine ⟨?_, _, rfl⟩
  rw [List.length_append, List.length_replicate]
  omega

/-- One more section is emitted. -/
lemma Emission.step {done : List Section} {st st' : List UInt8 × List SectionEntry} {s : Section}
    (h : Emission start done st) (hstep : emitSection w st s = ok st') :
    Emission start (done ++ [s]) st' := by
  obtain ⟨output, hpad, hrest⟩ := bind_eq_ok.mp hstep
  obtain ⟨_, hoffset, hrest⟩ := bind_eq_ok.mp hrest
  obtain ⟨_, hlength, hok⟩ := bind_eq_ok.mp hrest
  obtain rfl := ok_inj.mp hok
  obtain ⟨haligned, zeros, rfl⟩ := padToEight_eq_ok hpad
  rw [require_eq_ok] at hoffset hlength
  have hold : ∀ s' e, Placed start st.1 s' e → Placed start ((st.1 ++ zeros) ++ s.bytes) s' e := by
    intro s' e he
    refine { he with range := ?_ }
    rw [List.append_assoc, getRange_append_left he.le, he.range]
  have hstart : start ≤ (st.1 ++ zeros).length := by
    have := h.start_le
    rw [List.length_append]
    omega
  have hnew : Placed start ((st.1 ++ zeros) ++ s.bytes) s
      ⟨s.id, (st.1 ++ zeros).length, s.bytes.length⟩ := by
    refine ⟨rfl, rfl, hstart, haligned, hoffset, hlength, ?_⟩
    have happend := getRange_append (st.1 ++ zeros) s.bytes []
    rwa [List.append_nil] at happend
  refine ⟨?_, ?_, fun s' hs' => ?_, fun e he => ?_, ?_⟩
  · rw [List.length_append]
    exact hstart.trans (Nat.le_add_right _ _)
  · rw [List.map_append, h.ids, List.map_append]
    rfl
  · rcases List.mem_append.mp hs' with hs' | hs'
    · obtain ⟨e, he, hplaced⟩ := h.of_section s' hs'
      exact ⟨e, List.mem_append_left _ he, hold s' e hplaced⟩
    · obtain rfl := List.mem_singleton.mp hs'
      exact ⟨_, List.mem_append_right _ (List.mem_singleton_self _), hnew⟩
  · rcases List.mem_append.mp he with he | he
    · obtain ⟨s', hs', hplaced⟩ := h.of_entry e he
      exact ⟨s', List.mem_append_left _ hs', hold s' e hplaced⟩
    · obtain rfl := List.mem_singleton.mp he
      exact ⟨s, List.mem_append_right _ (List.mem_singleton_self _), hnew⟩
  · refine List.pairwise_append.mpr ⟨h.sorted, by simp, fun e he e' he' => ?_⟩
    obtain rfl := List.mem_singleton.mp he'
    obtain ⟨s', -, hplaced⟩ := h.of_entry e he
    have hle := hplaced.le
    change e.offset + e.length ≤ (st.1 ++ zeros).length
    rw [List.length_append]
    omega

/-- All sections are emitted. -/
lemma Emission.foldlM {done sections : List Section} {st st' : List UInt8 × List SectionEntry}
    (h : Emission start done st) (hrun : sections.foldlM (emitSection w) st = ok st') :
    Emission start (done ++ sections) st' := by
  induction sections generalizing done st with
  | nil =>
      obtain rfl := ok_inj.mp hrun
      rwa [List.append_nil]
  | cons s sections ih =>
      rw [List.foldlM_cons] at hrun
      obtain ⟨st₁, hstep, hrest⟩ := bind_eq_ok.mp hrun
      have hall := ih (h.step hstep) hrest
      rwa [List.append_assoc, List.singleton_append] at hall

/-! ### The header and the section table -/

/-- The fields of the table lie in it, from the left to the right. -/
lemma tableFields_spec (index : ℕ) (entries : List SectionEntry) :
    (tableFields index entries).Pairwise (fun p q => p.1 + p.2.length ≤ q.1) ∧
      ∀ p ∈ tableFields index entries, 64 + index * 16 ≤ p.1 ∧
        p.1 + p.2.length ≤ 64 + (index + entries.length) * 16 := by
  induction entries generalizing index with
  | nil => exact ⟨.nil, fun _ => nofun⟩
  | cons entry entries ih =>
      obtain ⟨hsorted, hrange⟩ := ih (index + 1)
      have hentry : (entryFields index entry).Pairwise (fun p q => p.1 + p.2.length ≤ q.1) ∧
          ∀ p ∈ entryFields index entry, 64 + index * 16 ≤ p.1 ∧
            p.1 + p.2.length ≤ 64 + (index + 1) * 16 := by
        simp only [entryFields, headerLen, sectionTableEntryLen, List.pairwise_cons,
          List.forall_mem_cons, length_leBytes, List.not_mem_nil, false_imp_iff, implies_true,
          and_true, List.Pairwise.nil]
        omega
      refine ⟨List.pairwise_append.mpr ⟨hentry.1, hsorted, fun p hp q hq => ?_⟩, fun p hp => ?_⟩
      · exact (hentry.2 p hp).2.trans (hrange q hq).1
      · rw [List.length_cons]
        rcases List.mem_append.mp hp with hp | hp
        · have := hentry.2 p hp
          omega
        · have := hrange p hp
          omega

/-- The fields of an entry are among those of the table. -/
lemma entryFields_subset {index i : ℕ} {entries : List SectionEntry} {entry : SectionEntry}
    (h : entries[i]? = some entry) :
    ∀ p ∈ entryFields (index + i) entry, p ∈ tableFields index entries := by
  induction entries generalizing index i with
  | nil => cases h
  | cons entry' entries ih =>
      cases i with
      | zero =>
          obtain rfl := Option.some_inj.mp h
          exact fun p hp => List.mem_append_left _ hp
      | succ i =>
          intro p hp
          refine List.mem_append_right _ (ih h p ?_)
          rwa [Nat.add_assoc, Nat.add_comm 1 i]

lemma headerFields_spec (document : Document) :
    (headerFields document).Pairwise (fun p q => p.1 + p.2.length ≤ q.1) ∧
      ∀ p ∈ headerFields document, p.1 + p.2.length ≤ 64 := by
  simp [headerFields, magic]

/-- The key tells the ids apart. -/
lemma emissionKey_inj {a b : ℕ} (h : emissionKey a = emissionKey b) : a = b := by
  simp only [emissionKey] at h
  split_ifs at h <;> simp_all [Prod.ext_iff]

/-- A sorted list in which no two neighbours have one id has every id once. -/
lemma pairwise_of_checkSections {sections : List Section}
    (hsorted : sections.Pairwise fun a b => emissionKey a.id ≤ emissionKey b.id)
    (h : checkSections sections = ok ()) :
    sections.Pairwise fun a b => emissionKey a.id < emissionKey b.id := by
  have hchain : sections.IsChain fun a b => emissionKey a.id < emissionKey b.id := by
    induction sections using checkSections.induct with
    | case1 a b rest heq => simp [checkSections, heq] at h
    | case2 a b rest hne ih =>
        rw [checkSections, if_neg hne] at h
        obtain ⟨ha, hrest⟩ := List.pairwise_cons.mp hsorted
        refine List.isChain_cons_cons.mpr ⟨lt_of_le_of_ne (ha b (by simp)) fun heq => ?_, ih hrest h⟩
        exact hne (emissionKey_inj heq)
    | case3 sections hshort =>
        match sections, hshort with
        | [], _ => exact .nil
        | [a], _ => exact .singleton a
        | a :: b :: rest, hshort => exact absurd rfl (hshort a b rest)
  have htrans : Trans (fun a b : Section => emissionKey a.id < emissionKey b.id)
      (fun a b : Section => emissionKey a.id < emissionKey b.id)
      (fun a b : Section => emissionKey a.id < emissionKey b.id) := ⟨lt_trans⟩
  exact List.isChain_iff_pairwise.mp hchain

/-- A file that was written: the fields of the header and of the section table, and the
sections. -/
structure Written (document : Document) (bytes digest : List UInt8) (entries : List SectionEntry) :
    Prop where
  vocab_le : document.vocabSize ≤ maxVocabSize
  count_lt : document.sections.length < 2 ^ 32
  fields : ∀ p ∈ headerFields document, p.1 < 32 →
    getRange bytes p.1 (p.1 + p.2.length) = some p.2
  digest : getRange bytes 32 64 = some digest
  table : ∀ p ∈ tableFields 0 entries, getRange bytes p.1 (p.1 + p.2.length) = some p.2
  ids : (entries.map SectionEntry.id).Perm (document.sections.map Section.id)
  nodup : (document.sections.map Section.id).Nodup
  of_section : ∀ s ∈ document.sections, ∃ entry ∈ entries,
    Placed (64 + document.sections.length * 16) bytes s entry
  of_entry : ∀ entry ∈ entries, ∃ s ∈ document.sections,
    Placed (64 + document.sections.length * 16) bytes s entry
  sorted : entries.Pairwise fun a b => a.offset + a.length ≤ b.offset

lemma Written.length_entries {document : Document} {bytes digest : List UInt8}
    (h : Written document bytes digest entries) : entries.length = document.sections.length := by
  have := h.ids.length_eq
  rwa [List.length_map, List.length_map] at this

/-- What a writer that returns has written. -/
theorem write_eq_ok {sha256 : List UInt8 → List UInt8} {document : Document} {bytes : List UInt8}
    (h : Document.write w sha256 document = ok bytes) :
    ∃ digest entries file, Written document bytes digest entries ∧
      ValidatedFile.read w sha256 bytes = ok file := by
  obtain ⟨_, hvocab, h⟩ := bind_eq_ok.mp h
  obtain ⟨_, hcount, h⟩ := bind_eq_ok.mp h
  obtain ⟨_, hcheck, h⟩ := bind_eq_ok.mp h
  obtain ⟨tableLen, htable, h⟩ := bind_eq_ok.mp h
  obtain ⟨payloadStart, hstart, h⟩ := bind_eq_ok.mp h
  obtain ⟨⟨output, entries⟩, hemit, h⟩ := bind_eq_ok.mp h
  obtain ⟨output₁, hheader, h⟩ := bind_eq_ok.mp h
  obtain ⟨output₂, hfields, h⟩ := bind_eq_ok.mp h
  obtain ⟨output₃, hdigest, h⟩ := bind_eq_ok.mp h
  obtain ⟨file, hread, h⟩ := bind_eq_ok.mp h
  obtain rfl := ok_inj.mp h
  rw [require_eq_ok] at hvocab hcount
  rw [orFail_eq_ok, Uint.checkedMul, Option.ite_none_right_eq_some] at htable
  rw [orFail_eq_ok, Uint.checkedAdd, Option.ite_none_right_eq_some] at hstart
  obtain rfl := Option.some_inj.mp htable.2
  obtain rfl := Option.some_inj.mp hstart.2
  rw [expect_eq_ok] at hheader hfields hdigest
  rw [Option.ite_none_right_eq_some] at hdigest
  obtain ⟨hdigestLen, hdigest⟩ := hdigest
  set sections := document.sections.insertionSort fun a b => emissionKey a.id ≤ emissionKey b.id
    with hsections
  have hperm : sections.Perm document.sections := List.perm_insertionSort _ _
  have hempty : Emission (64 + document.sections.length * 16) []
      (List.replicate (headerLen + document.sections.length * sectionTableEntryLen) 0, []) :=
    ⟨by simp [headerLen, sectionTableEntryLen], rfl, by simp, by simp, .nil⟩
  have hall := hempty.foldlM hemit
  rw [List.nil_append] at hall
  have hlenEntries : entries.length = document.sections.length := by
    have := congrArg List.length hall.ids
    rwa [List.length_map, List.length_map, hperm.length_eq] at this
  obtain ⟨hheaderSorted, hheaderRange⟩ := headerFields_spec document
  obtain ⟨htableSorted, htableRange⟩ := tableFields_spec 0 entries
  rw [hlenEntries, Nat.zero_add] at htableRange
  have hdigestRange : ∀ {a b}, b ≤ 32 ∨ 64 ≤ a → getRange output₃ a b = getRange output₂ a b :=
    fun hab => getRange_overwrite_of_disjoint hdigest (by rwa [hdigestLen])
  -- the writes after the payload leave it alone
  have hpayload : ∀ {a b}, 64 + document.sections.length * 16 ≤ a →
      getRange output₃ a b = getRange output a b := by
    intro a b ha
    rw [hdigestRange (.inr (by omega)), getRange_overwriteAll_of_disjoint hfields fun p hp => ?_,
      getRange_overwriteAll_of_disjoint hheader fun p hp => ?_]
    · exact .inr ((hheaderRange p hp).trans (by omega))
    · exact .inr ((htableRange p hp).2.trans ha)
  have hplaced : ∀ s e, Placed (64 + document.sections.length * 16) output s e →
      Placed (64 + document.sections.length * 16) output₃ s e := by
    intro s e he
    exact { he with range := (hpayload he.start_le).trans he.range }
  refine ⟨computeDigest sha256 output₂, entries, file,
    ⟨hvocab, hcount, fun p hp hlt => ?_, ?_, fun p hp => ?_, ?_, ?_, fun s hs => ?_, fun e he => ?_,
      hall.sorted⟩, selfValidation_eq_ok.mp hread⟩
  · have hle : p.1 + p.2.length ≤ 32 := by
      simp only [headerFields, List.mem_cons, List.not_mem_nil, or_false] at hp
      rcases hp with rfl | rfl | rfl | rfl | rfl | rfl | rfl | rfl | rfl | rfl | rfl | rfl <;>
        simp [magic] at hlt ⊢
    rw [hdigestRange (.inl hle), getRange_overwriteAll_of_disjoint hfields fun q hq => ?_]
    · exact getRange_overwriteAll hheader hheaderSorted p hp
    · have := (htableRange q hq).1
      omega
  · have := getRange_overwrite hdigest
    rwa [hdigestLen] at this
  · have := (htableRange p hp).1
    rw [hdigestRange (.inr (by omega))]
    exact getRange_overwriteAll hfields htableSorted p hp
  · rw [hall.ids]
    exact hperm.map _
  · have hpairwise := pairwise_of_checkSections (List.pairwise_insertionSort _ _) hcheck
    refine (hperm.map _).nodup_iff.mp ?_
    rw [List.nodup_iff_pairwise_ne, List.pairwise_map]
    exact hpairwise.imp fun hlt heq => by rw [heq] at hlt; exact lt_irrefl _ hlt
  · obtain ⟨e, he, hplace⟩ := hall.of_section s (hperm.mem_iff.mpr hs)
    exact ⟨e, he, hplaced s e hplace⟩
  · obtain ⟨s, hs, hplace⟩ := hall.of_entry e he
    exact ⟨s, hperm.mem_iff.mp hs, hplaced s e hplace⟩

/-! ### Reading back -/

namespace Written

variable {document : Document} {bytes digest : List UInt8}
  (h : Written document bytes digest entries)
include h

/-- The header of the document. -/
lemma readHeader_eq : readHeader bytes = ok {
    structuralClass := document.structuralClass
    hashScheme := document.hashScheme
    flags := document.flags
    vocabSize := document.vocabSize
    omega := document.omega
    sectionCount := document.sections.length
    sectionTableOffset := 64
    digest } := by
  have hlen : 64 ≤ bytes.length := (getRange_eq_some.mp h.digest).1.2
  have hrange : ∀ {a b src}, b ≤ 64 → getRange bytes a b = some src →
      (Run.expect (getRange (bytes.take 64) a b) : Read _) = ok src := by
    intro a b src hb hsrc
    rw [getRange_take hb, hsrc, expect_some]
  have hbyte : ∀ {i x}, i + 1 ≤ 64 → getRange bytes i (i + 1) = some [x] →
      (Run.expect (bytes.take 64)[i]? : Read _) = ok x := by
    intro i x hi hx
    rw [← getRange_take hi] at hx
    rw [getElem?_of_getRange hx, expect_some]
  have hu32 : ∀ n, n < 2 ^ 32 → (readU32 (leBytes 4 n) : Read ℕ) = ok n := by
    intro n hn
    rw [readU32_of_length (length_leBytes 4 n), leNat_leBytes hn]
  have hfield : ∀ p ∈ headerFields document, p.1 < 32 →
      getRange bytes p.1 (p.1 + p.2.length) = some p.2 := h.fields
  simp only [headerFields, magic, List.forall_mem_cons, length_leBytes, List.length_cons,
    List.length_nil, List.not_mem_nil, false_imp_iff, implies_true, and_true, List.length_replicate]
    at hfield
  obtain ⟨hmagic, hversion, hclass, hlayout, hscheme, hflags, hreserved, hvocab, homega, hcount,
    hoffset, -⟩ := hfield
  have hwhole : getRange bytes 0 64 = some (bytes.take 64) := by
    rw [getRange_of_le (by decide) hlen, List.drop_zero]
  have hvocabLt : document.vocabSize < 2 ^ 32 := h.vocab_le.trans_lt (by decide)
  have hclassOf : StructuralClass.tryFrom document.structuralClass.value =
      ok document.structuralClass := by
    cases document.structuralClass <;> rfl
  have hschemeOf : HashScheme.tryFrom document.hashScheme.value = ok document.hashScheme := by
    cases document.hashScheme <;> rfl
  simp only [readHeader, headerLen, hwhole, orFail_some, Run.ok_bind,
    hrange (by decide) (hmagic (by decide)), hrange (by decide) (hversion (by decide)),
    hbyte (by decide) (hclass (by decide)), hclassOf, hbyte (by decide) (hlayout (by decide)),
    hbyte (by decide) (hscheme (by decide)), hschemeOf,
    hrange (by decide) (hreserved (by decide)), hrange (by decide) (hvocab (by decide)),
    hu32 _ hvocabLt, hrange le_rfl h.digest, hbyte (by decide) (hflags (by decide)),
    hrange (by decide) (homega (by decide)), hu32 _ document.omega_lt,
    hrange (by decide) (hcount (by decide)), hu32 _ h.count_lt,
    hrange (by decide) (hoffset (by decide)), hu32 64 (by decide), pure_eq,
    leNat_leBytes (show formatVersion < 256 ^ 2 by decide)]
  simp only [require_of (show [72, 84, 75, 86, 79, 67, 65, 66] = magic from rfl), require_of trivial,
    require_of (show leNat [0, 0] = 0 from rfl), require_of h.vocab_le, Run.ok_bind]

omit h in
/-- What an entry of the table says. -/
lemma readEntry_eq_ok {entry : SectionEntry} {chunk : List UInt8} {acc out : List SectionEntry}
    (hid : getRange chunk 0 4 = some (leBytes 4 entry.id))
    (hoffset : getRange chunk 4 8 = some (leBytes 4 entry.offset))
    (hlength : getRange chunk 8 16 = some (leBytes 8 entry.length)) (hidLt : entry.id < 2 ^ 32)
    (hoffsetLt : entry.offset < 2 ^ 32) (hlengthLt : entry.length < 2 ^ 64)
    (hrun : readEntry acc chunk = ok out) : out = acc ++ [entry] := by
  simp only [readEntry, hid, hoffset, hlength, expect_some, Run.ok_bind,
    leNat_leBytes (show entry.id < 256 ^ 4 from hidLt),
    leNat_leBytes (show entry.offset < 256 ^ 4 from hoffsetLt),
    leNat_leBytes (show entry.length < 256 ^ 8 from hlengthLt)] at hrun
  obtain ⟨_, -, hok⟩ := bind_eq_ok.mp hrun
  exact (ok_inj.mp hok).symm

/-- The entries of the table, as they were written. -/
lemma readTable_eq {table : List UInt8} {out : List SectionEntry}
    (htable : getRange bytes 64 (64 + document.sections.length * 16) = some table)
    (hrun : (chunksExact 16 table).foldlM readEntry [] = ok out) : out = entries := by
  obtain ⟨⟨-, hle⟩, htable'⟩ := getRange_eq_some.mp htable
  have htableLen : table.length = document.sections.length * 16 := by
    rw [length_of_getRange htable, Nat.add_sub_cancel_left]
  have hcount : (chunksExact 16 table).length = entries.length := by
    rw [length_chunksExact, htableLen, Nat.mul_div_cancel _ (by decide), h.length_entries]
  -- the chunk of an entry has its fields
  have hfields : ∀ (i : ℕ) (entry : SectionEntry) (chunk : List UInt8), entries[i]? = some entry →
      (chunksExact 16 table)[i]? = some chunk →
      ∀ acc out, readEntry acc chunk = ok out → out = acc ++ [entry] := by
    intro i entry chunk hentry hchunk acc out
    have hi : i < document.sections.length := by
      rw [← h.length_entries]
      exact (List.getElem?_eq_some_iff.mp hentry).1
    have hpart : ∀ {a b}, b ≤ 16 → getRange chunk a b =
        getRange bytes (64 + i * 16 + a) (64 + i * 16 + b) := by
      intro a b hb
      obtain ⟨-, rfl⟩ := getElem?_chunksExact.mp hchunk
      rw [getRange_take hb, getRange_drop (by omega), ← htable', getRange_drop
        (by rw [List.length_take]; omega), getRange_take (by omega), Nat.add_assoc, Nat.add_assoc]
    have hsub : ∀ p ∈ entryFields (0 + i) entry, p ∈ tableFields 0 entries :=
      entryFields_subset hentry
    rw [Nat.zero_add] at hsub
    have hwritten : ∀ p ∈ entryFields i entry, getRange bytes p.1 (p.1 + p.2.length) = some p.2 :=
      fun p hp => h.table p (hsub p hp)
    simp only [entryFields, headerLen, sectionTableEntryLen, List.forall_mem_cons, length_leBytes,
      List.not_mem_nil, false_imp_iff, implies_true, and_true] at hwritten
    obtain ⟨hid, hoffset, hlength⟩ := hwritten
    obtain ⟨s, -, hplaced⟩ := h.of_entry entry (List.mem_of_getElem? hentry)
    refine readEntry_eq_ok ?_ ?_ ?_ (hplaced.id_eq ▸ s.id_lt) hplaced.offset_lt hplaced.length_lt
    · rw [hpart (by decide)]
      exact hid
    · rw [hpart (by decide)]
      exact hoffset
    · rw [hpart le_rfl]
      exact hlength
  have hloop : ∀ (chunks : List (List UInt8)) (es acc out : List SectionEntry),
      chunks.length = es.length →
      (∀ (i : ℕ) (entry : SectionEntry) (chunk : List UInt8), es[i]? = some entry →
        chunks[i]? = some chunk →
        ∀ acc out, readEntry acc chunk = ok out → out = acc ++ [entry]) →
      chunks.foldlM readEntry acc = ok out → out = acc ++ es := by
    intro chunks
    induction chunks with
    | nil =>
        intro es acc out hlen _ hrun
        obtain rfl := List.length_eq_zero_iff.mp hlen.symm
        rw [List.append_nil]
        exact (ok_inj.mp hrun).symm
    | cons chunk chunks ih =>
        intro es acc out hlen hstep hrun
        cases es with
        | nil => cases hlen
        | cons entry es =>
            rw [List.foldlM_cons] at hrun
            obtain ⟨acc', hhead, htail⟩ := bind_eq_ok.mp hrun
            obtain rfl := hstep 0 entry chunk rfl rfl acc acc' hhead
            rw [ih es _ out (Nat.succ.inj hlen) (fun i => hstep (i + 1)) htail, List.append_assoc,
              List.singleton_append]
  exact hloop _ entries [] out hcount hfields hrun

/-- The reader gives back the header and the entries. -/
lemma readBounded_eq {file : ValidatedFile} (hrun : readBounded w bytes = ok file) :
    file = ⟨bytes, {
      structuralClass := document.structuralClass
      hashScheme := document.hashScheme
      flags := document.flags
      vocabSize := document.vocabSize
      omega := document.omega
      sectionCount := document.sections.length
      sectionTableOffset := 64
      digest }, entries.insertionSort fun a b => a.id ≤ b.id⟩ := by
  obtain ⟨header, hheader, hrun⟩ := bind_eq_ok.mp hrun
  obtain rfl := ok_inj.mp (h.readHeader_eq.symm.trans hheader)
  obtain ⟨tableLen, htableLen, hrun⟩ := bind_eq_ok.mp hrun
  obtain ⟨tableEnd, htableEnd, hrun⟩ := bind_eq_ok.mp hrun
  obtain ⟨_, -, hrun⟩ := bind_eq_ok.mp hrun
  obtain ⟨table, htable, hrun⟩ := bind_eq_ok.mp hrun
  obtain ⟨sections, hsections, hrun⟩ := bind_eq_ok.mp hrun
  obtain ⟨_, -, hrun⟩ := bind_eq_ok.mp hrun
  obtain ⟨_, -, hrun⟩ := bind_eq_ok.mp hrun
  obtain ⟨_, -, hok⟩ := bind_eq_ok.mp hrun
  obtain rfl := ok_inj.mp hok
  rw [orFail_eq_ok, Uint.checkedMul, Option.ite_none_right_eq_some] at htableLen
  rw [orFail_eq_ok, Uint.checkedAdd, Option.ite_none_right_eq_some] at htableEnd
  obtain rfl := Option.some_inj.mp htableLen.2
  obtain rfl := Option.some_inj.mp htableEnd.2
  rw [orFail_eq_ok] at htable
  obtain rfl := h.readTable_eq htable hsections
  rfl

/-- The entry of a section is found under its id. -/
lemma findEntry_eq {s : Section} {entry : SectionEntry} (hentry : entry ∈ entries)
    (hid : entry.id = s.id) :
    findEntry (entries.insertionSort fun a b => a.id ≤ b.id) s.id = some entry := by
  have hmem : entry ∈ entries.insertionSort fun a b => a.id ≤ b.id :=
    (List.mem_insertionSort _).mpr hentry
  have hsome : (findEntry (entries.insertionSort fun a b => a.id ≤ b.id) s.id).isSome :=
    List.find?_isSome.mpr ⟨entry, hmem, decide_eq_true hid⟩
  obtain ⟨found, hfound⟩ := Option.isSome_iff_exists.mp hsome
  have hfoundMem := (List.mem_insertionSort _).mp (List.mem_of_find?_eq_some hfound)
  have hfoundId : found.id = s.id := by
    rw [findEntry] at hfound
    have hkey := List.find?_some hfound
    rwa [decide_eq_true_eq] at hkey
  have hnodup : (entries.map SectionEntry.id).Nodup := h.ids.nodup_iff.mpr h.nodup
  rw [hfound, List.inj_on_of_nodup_map hnodup hfoundMem hentry
    (hfoundId.trans hid.symm)]

/-- The sections of the file that is read have the bytes of the document. -/
lemma bytesAt_eq {file : ValidatedFile} (hrun : readBounded w bytes = ok file)
    (hlen : bytes.length < 2 ^ w) {s : Section} (hs : s ∈ document.sections) {ε : Type} :
    file.bytesAt w s.id = (ok (some s.bytes) : Run ε _) := by
  obtain rfl := h.readBounded_eq hrun
  obtain ⟨entry, hentry, hplaced⟩ := h.of_section s hs
  have hstop : entry.offset + entry.length < 2 ^ w := hplaced.le.trans_lt hlen
  have hentryLen : entry.length % 2 ^ w = entry.length :=
    Nat.mod_eq_of_lt ((Nat.le_add_left _ _).trans_lt hstop)
  simp only [ValidatedFile.bytesAt, h.findEntry_eq hentry hplaced.id_eq, hentryLen,
    add_of_lt hstop, hplaced.range, expect_some, Run.ok_bind, pure_eq]

end Written

/-- A file that is accepted passes the first checks. -/
lemma readBounded_of_read {sha256 : List UInt8 → List UInt8} {bytes : List UInt8}
    {file : ValidatedFile} (h : ValidatedFile.read w sha256 bytes = ok file) :
    readBounded w bytes = ok file := by
  obtain ⟨file', hbounded, h⟩ := bind_eq_ok.mp h
  obtain ⟨_, -, h⟩ := bind_eq_ok.mp h
  obtain ⟨_, -, h⟩ := bind_eq_ok.mp h
  obtain ⟨_, -, h⟩ := bind_eq_ok.mp h
  obtain ⟨_, -, h⟩ := bind_eq_ok.mp h
  obtain ⟨_, -, h⟩ := bind_eq_ok.mp h
  obtain ⟨_, -, h⟩ := bind_eq_ok.mp h
  obtain ⟨_, -, h⟩ := bind_eq_ok.mp h
  obtain ⟨_, -, h⟩ := bind_eq_ok.mp h
  obtain ⟨_, -, h⟩ := bind_eq_ok.mp h
  obtain ⟨_, -, h⟩ := bind_eq_ok.mp h
  obtain ⟨_, -, h⟩ := bind_eq_ok.mp h
  rwa [ok_inj.mp h] at hbounded

/-- The order of the sections in the document does not matter. -/
lemma write_congr {w : ℕ} {sha256 : List UInt8 → List UInt8} {document : Document}
    {sections : List Section} (hperm : sections.Perm document.sections)
    (hnodup : (document.sections.map Section.id).Nodup) :
    Document.write w sha256 { document with sections } = Document.write w sha256 document := by
  have hsorted : sections.insertionSort (fun a b => emissionKey a.id ≤ emissionKey b.id) =
      document.sections.insertionSort fun a b => emissionKey a.id ≤ emissionKey b.id := by
    have hperm' : (sections.insertionSort fun a b => emissionKey a.id ≤ emissionKey b.id).Perm
        (document.sections.insertionSort fun a b => emissionKey a.id ≤ emissionKey b.id) :=
      (List.perm_insertionSort _ _).trans (hperm.trans (List.perm_insertionSort _ _).symm)
    refine hperm'.eq_of_pairwise (fun a b ha hb hab hba => ?_)
      (List.pairwise_insertionSort _ _) (List.pairwise_insertionSort _ _)
    refine List.inj_on_of_nodup_map hnodup (hperm.mem_iff.mp ((List.mem_insertionSort _).mp ha))
      ((List.mem_insertionSort _).mp hb) (emissionKey_inj (le_antisymm hab hba))
  simp only [Document.write, headerFields, hsorted, hperm.length_eq]

/-- What `write` returns is read back: the header and the sections of the document, each aligned,
in the file and apart from the others. The order of the sections in the document does not
matter. The file is one that an index can count. -/
theorem write_sound (w : ℕ) (sha256 : List UInt8 → List UInt8) (document : Document)
    (bytes : List UInt8) (h : Document.write w sha256 document = ok bytes)
    (hlen : bytes.length < 2 ^ w) :
    (∃ file, ValidatedFile.read w sha256 bytes = ok file ∧
      file.header.structuralClass = document.structuralClass ∧
      file.header.hashScheme = document.hashScheme ∧ file.header.flags = document.flags ∧
      file.header.vocabSize = document.vocabSize ∧ file.header.omega = document.omega ∧
      file.header.sectionCount = document.sections.length ∧
      (file.sections.map SectionEntry.id).Perm (document.sections.map Section.id) ∧
      (∀ s ∈ document.sections, file.bytesAt w s.id = (ok (some s.bytes) : Read _)) ∧
      (∀ entry ∈ file.sections, entry.offset % 8 = 0 ∧
        headerLen + document.sections.length * sectionTableEntryLen ≤ entry.offset ∧
          entry.offset + entry.length ≤ bytes.length) ∧
      file.sections.Pairwise fun a b =>
        a.offset + a.length ≤ b.offset ∨ b.offset + b.length ≤ a.offset) ∧
    ∀ sections : List Section, sections.Perm document.sections →
      Document.write w sha256 { document with sections } = ok bytes := by
  obtain ⟨digest, entries, file, hwritten, hread⟩ := write_eq_ok h
  have hbounded := readBounded_of_read hread
  have hbytes := fun s hs => hwritten.bytesAt_eq (ε := ReadError) hbounded hlen (s := s) hs
  obtain rfl := hwritten.readBounded_eq hbounded
  refine ⟨⟨_, hread, ?_⟩, fun sections hperm => ?_⟩
  · refine ⟨rfl, rfl, rfl, rfl, rfl, rfl, ?_, hbytes, fun entry hentry => ?_, ?_⟩
    · exact ((List.perm_insertionSort _ _).map _).trans hwritten.ids
    · obtain ⟨s, -, hplaced⟩ := hwritten.of_entry entry ((List.mem_insertionSort _).mp hentry)
      exact ⟨hplaced.aligned, hplaced.start_le, hplaced.le⟩
    · exact (List.perm_insertionSort _ _).symm.pairwise (hwritten.sorted.imp fun hle => Or.inl hle)
        Or.symm
  · rw [write_congr hperm hwritten.nodup, h]

/-- The tokens are the bytes. -/
def byteDocument : Document where
  structuralClass := .byteBpe
  hashScheme := .none
  flags := 0
  vocabSize := 256
  omega := 1
  sections := [
    .new .base ((List.range 256).flatMap (leBytes 4)),
    .new .arena ((List.range 256).map UInt8.ofNat),
    .new .lengths (List.replicate 256 1),
    .new .specials (leBytes 4 0),
    .new .pretok (leBytes 4 0)]
  omega_lt := of_decide_eq_true rfl

set_option maxRecDepth 100000 in
lemma write_byteDocument : ∃ bytes,
    Document.write 64 (fun _ => List.replicate 32 0) byteDocument = ok bytes ∧
      bytes.length = 1692 := by
  have hlength : (Document.write 64 (fun _ => List.replicate 32 0) byteDocument).result.map
      List.length = some 1692 := by decide +kernel
  obtain ⟨bytes, hresult, hlen⟩ := Option.map_eq_some_iff.mp hlength
  exact ⟨bytes, result_eq_some.mp hresult, hlen⟩

/-- The tokens of `byteDocument`. -/
def byteTokens : List (ℕ × List UInt8) := (List.range 256).map fun i => (i, [UInt8.ofNat i])

set_option maxRecDepth 100000 in
/-- The file of `byteDocument`. -/
lemma read_byteDocument : ∃ bytes file,
    ValidatedFile.read 64 (fun _ => List.replicate 32 0) bytes = ok file ∧
      bytes.length < 2 ^ 64 - 1 ∧ file.header.structuralClass = .byteBpe ∧
      file.header.hashScheme = .none ∧ file.header.vocabSize = 256 ∧
      file.tokens 64 = ok byteTokens ∧ ∀ (ε : Type), file.requiredBytes 64 .arena =
        (ok ((List.range 256).map UInt8.ofNat) : Run ε _) := by
  obtain ⟨bytes, hwrite, hlen⟩ := write_byteDocument
  obtain ⟨digest, entries, file, hwritten, hread⟩ := write_eq_ok hwrite
  have hbound : bytes.length < 2 ^ 64 := hlen ▸ of_decide_eq_true rfl
  have hbounded := readBounded_of_read hread
  have hheader := congrArg ValidatedFile.header (hwritten.readBounded_eq hbounded)
  have harena : ∀ ε : Type, file.requiredBytes 64 .arena =
      (ok ((List.range 256).map UInt8.ofNat) : Run ε _) := by
    intro ε
    have hbytes := hwritten.bytesAt_eq (ε := ε) hbounded hbound
      (s := .new .arena ((List.range 256).map UInt8.ofNat)) (.tail _ (.head _))
    rw [ValidatedFile.requiredBytes, ValidatedFile.bytesOf]
    exact (congrArg (· >>= Run.expect) hbytes).trans rfl
  have hlengths : file.requiredBytes 64 .lengths = (ok (List.replicate 256 1) : Read _) := by
    have hbytes := hwritten.bytesAt_eq (ε := ReadError) hbounded hbound
      (s := .new .lengths (List.replicate 256 1)) (.tail _ (.tail _ (.head _)))
    rw [ValidatedFile.requiredBytes, ValidatedFile.bytesOf]
    exact (congrArg (· >>= Run.expect) hbytes).trans rfl
  have hvocab : file.header.vocabSize = 256 := by
    rw [hheader]
    rfl
  refine ⟨bytes, file, hread, hlen ▸ of_decide_eq_true rfl, ?_, ?_, hvocab, ?_, harena⟩
  · rw [hheader]
    rfl
  · rw [hheader]
    rfl
  · have htokens : (ValidatedFile.tokensLoop 64 ((List.range 256).map UInt8.ofNat) 256
        (List.replicate 256 1) 0 0).result = some byteTokens := by decide +kernel
    rw [ValidatedFile.tokens, harena, Run.ok_bind, hlengths, Run.ok_bind, hvocab]
    exact result_eq_some.mp htokens

theorem write_sound_byteDocument : ∃ bytes file,
    ValidatedFile.read 64 (fun _ => List.replicate 32 0) bytes = ok file ∧
      file.header.vocabSize = 256 ∧
      file.bytesAt 64 SectionId.lengths.value = (ok (some (List.replicate 256 1)) : Read _) ∧
      Document.write 64 (fun _ => List.replicate 32 0)
        { byteDocument with sections := byteDocument.sections.reverse } = ok bytes := by
  obtain ⟨bytes, hwrite, hlen⟩ := write_byteDocument
  have hbound : bytes.length < 2 ^ 64 := hlen ▸ of_decide_eq_true rfl
  obtain ⟨⟨file, hread, -, -, -, hvocab, -, -, -, hsections, -⟩, hcongr⟩ :=
    write_sound 64 _ byteDocument bytes hwrite hbound
  refine ⟨bytes, file, hread, hvocab, ?_, hcongr _ (List.reverse_perm _)⟩
  have hmem : Section.new .lengths (List.replicate 256 1) ∈ byteDocument.sections :=
    .tail _ (.tail _ (.head _))
  exact hsections _ hmem

end Hypertok
