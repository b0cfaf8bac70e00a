import Hypertok.Format.Layout

/-!
What `ValidatedFile::read` checks. It does not panic, on any bytes, and the files that it
accepts are laid out as the later readers take for granted.

* `readBounded_returns`: the sections lie in the file.
* `read_returns`: the sections have their layout.
* `Laid.tokens_eq`: the tokens are the arena, cut into slices.
-/

namespace Hypertok

open Machine Run

namespace ValidatedFile

/-- The bytes of a section. -/
def sectionOf (file : ValidatedFile) (s : SectionId) : Option (List UInt8) :=
  (findEntry file.sections s.value).map fun entry =>
    (file.bytes.take (entry.offset + entry.length)).drop entry.offset

/-- What `read_bounded` checks. -/
structure Bounded (file : ValidatedFile) : Prop where
  vocab_le : file.header.vocabSize ≤ maxVocabSize
  range : ∀ entry ∈ file.sections, entry.offset + entry.length ≤ file.bytes.length
  required : ∀ s ∈ SectionId.universalRequired, (file.sectionOf s).isSome
  fallback : file.header.structuralClass = .sentencePieceBpe → (file.sectionOf .byteFall).isSome

/-- The layout of the sections. -/
structure Laid (file : ValidatedFile) : Prop extends file.Bounded where
  pretok : ∀ b ∈ file.sectionOf .pretok, ProgramAt pretokOperands b
  norm : ∀ b ∈ file.sectionOf .norm, ProgramAt normOperands b
  decoder : ∀ b ∈ file.sectionOf .decoder, ProgramAt decoderOperands b
  post : ∀ b ∈ file.sectionOf .post, ProgramAt postOperands b
  byteBase : ∀ b ∈ file.sectionOf .base, file.header.structuralClass = .byteBpe →
    b.length = 256 * 4
  pieceBase : ∀ b ∈ file.sectionOf .base, file.header.structuralClass = .sentencePieceBpe →
    4 ≤ b.length
  byteFall : ∀ b ∈ file.sectionOf .byteFall, b.length = 256 * 4
  specials : ∀ b ∈ file.sectionOf .specials, 4 ≤ b.length ∧ ∃ stop,
    Iter (OperandsAt b [.u32, .blob, .u32]) (u32At b 0) 4 stop ∧ stop + u32At b 0 * 4 = b.length
  lengths : ∀ b ∈ file.sectionOf .lengths, ∀ arena ∈ file.sectionOf .arena, ∃ ls,
    VarintsAt b ls [] ∧ ls.length = file.header.vocabSize ∧ ls.sum = arena.length ∧
      ls.foldl max 0 = file.header.omega
  priority : ∀ b ∈ file.sectionOf .priority, ∃ ls,
    VarintsAt b ls [] ∧ ls.length = file.header.vocabSize

end ValidatedFile

/-! ### The header and the section table -/

section Reads

variable {ε : Type} {b : List UInt8} {start stop i : ℕ}

lemma expect_getRange_returns (h : start ≤ stop) (h' : stop ≤ b.length) :
    Returns (Run.expect (getRange b start stop) : Run ε (List UInt8)) fun r =>
      r.length = stop - start := by
  have hrange := getRange_of_le h h'
  rw [hrange, expect_some]
  exact length_of_getRange hrange

lemma expect_getFrom_returns (h : start ≤ b.length) :
    Returns (Run.expect (getFrom b start) : Run ε (List UInt8)) fun r => r = b.drop start := by
  rw [getFrom_of_le h, expect_some]
  rfl

lemma expect_getElem_returns (h : i < b.length) :
    Returns (Run.expect b[i]? : Run ε UInt8) fun v => b[i]? = some v := by
  rw [List.getElem?_eq_getElem h, expect_some]
  rfl

lemma readU32_returns (h : 4 ≤ b.length) : Returns (readU32 b : Run ε ℕ) fun v => v = u32At b 0 := by
  have hrange := getRange_of_le (Nat.zero_le 4) h
  rw [readU32, hrange, expect_some, Run.ok_bind, ← u32At_of_getRange hrange]
  rfl

end Reads

lemma structuralClass_returns (value : UInt8) :
    Returns (StructuralClass.tryFrom value) fun _ => True := by
  rw [StructuralClass.tryFrom]
  split_ifs <;> trivial

lemma hashScheme_returns (value : UInt8) : Returns (HashScheme.tryFrom value) fun _ => True := by
  rw [HashScheme.tryFrom]
  split_ifs <;> trivial

lemma readHeader_returns (bytes : List UInt8) :
    Returns (readHeader bytes) fun header => header.vocabSize ≤ maxVocabSize := by
  refine .bind_orFail fun header h => ?_
  have hlen : header.length = 64 := length_of_getRange h
  refine (expect_getRange_returns (by decide) (by omega)).bind fun _ _ => ?_
  refine .bind_require fun _ => ?_
  refine (expect_getRange_returns (by decide) (by omega)).bind fun _ _ => ?_
  refine .bind_require fun _ => ?_
  refine (expect_getElem_returns (by omega)).bind fun value _ => ?_
  refine (structuralClass_returns value).bind fun _ _ => ?_
  refine (expect_getElem_returns (by omega)).bind fun _ _ => ?_
  refine .bind_require fun _ => ?_
  refine (expect_getElem_returns (by omega)).bind fun value _ => ?_
  refine (hashScheme_returns value).bind fun _ _ => ?_
  refine (expect_getRange_returns (by decide) (by omega)).bind fun _ _ => ?_
  refine .bind_require fun _ => ?_
  refine (expect_getRange_returns (by decide) (by omega)).bind fun b hb => ?_
  refine (readU32_returns hb.ge).bind fun vocabSize _ => ?_
  refine .bind_require fun hvocab => ?_
  refine (expect_getRange_returns (by decide) (by omega)).bind fun _ _ => ?_
  refine (expect_getElem_returns (by omega)).bind fun _ _ => ?_
  refine (expect_getRange_returns (by decide) (by omega)).bind fun b hb => ?_
  refine (readU32_returns hb.ge).bind fun _ _ => ?_
  refine (expect_getRange_returns (by decide) (by omega)).bind fun b hb => ?_
  refine (readU32_returns hb.ge).bind fun _ _ => ?_
  refine (expect_getRange_returns (by decide) (by omega)).bind fun b hb => ?_
  refine (readU32_returns hb.ge).bind fun _ _ => ?_
  exact hvocab

lemma readEntry_returns {entry : List UInt8} (h : entry.length = 16) (sections : List SectionEntry) :
    Returns (readEntry sections entry) fun _ => True := by
  refine (expect_getRange_returns (by decide) (by omega)).bind fun _ _ => ?_
  refine (expect_getRange_returns (by decide) (by omega)).bind fun _ _ => ?_
  refine (expect_getRange_returns (by decide) (by omega)).bind fun _ _ => ?_
  exact .bind_require fun _ => trivial

lemma checkDuplicates_returns (sections : List SectionEntry) :
    Returns (checkDuplicates sections) fun _ => True := by
  induction sections using checkDuplicates.induct with
  | case1 a b rest h =>
      rw [checkDuplicates, if_pos h]
      trivial
  | case2 a b rest h ih => rwa [checkDuplicates, if_neg h]
  | case3 sections h =>
      rw [checkDuplicates]
      · trivial
      · exact h

lemma validatePresence_returns (structuralClass : StructuralClass) (sections : List SectionEntry) :
    Returns (validatePresence structuralClass sections) fun _ =>
      (∀ s ∈ SectionId.universalRequired, (findEntry sections s.value).isSome) ∧
        (structuralClass = .sentencePieceBpe →
          (findEntry sections SectionId.byteFall.value).isSome) := by
  refine .bind (.foldlM_forall (P := fun s : SectionId => (findEntry sections s.value).isSome)
    (fun s _ _ => .require fun h => h) ()) fun _ hrequired => ?_
  cases structuralClass <;> cases hfall : (findEntry sections SectionId.byteFall.value).isSome
  · exact ⟨hrequired, nofun⟩
  · trivial
  · trivial
  · exact ⟨hrequired, fun _ => rfl⟩

lemma checkOverlaps_returns {sections : List SectionEntry}
    (h : ∀ entry ∈ sections, entry.offset + entry.length < 2 ^ 64) :
    Returns (checkOverlaps sections) fun _ => True := by
  induction sections using checkOverlaps.induct with
  | case1 a b rest ih =>
      rw [checkOverlaps]
      refine .bind_add (h a (by simp)) ?_
      refine .bind_require fun _ => ?_
      exact ih fun entry hentry => h entry (List.mem_cons_of_mem _ hentry)
  | case2 sections hshort =>
      rw [checkOverlaps]
      · trivial
      · exact hshort

lemma validateSectionRanges_returns (fileLen tableStart tableEnd : ℕ)
    (sections : List SectionEntry) :
    Returns (validateSectionRanges fileLen tableStart tableEnd sections) fun _ =>
      ∀ entry ∈ sections, entry.offset + entry.length ≤ fileLen := by
  have hvalid : ∀ entry, Returns (validateSectionRange fileLen tableStart tableEnd entry) fun _ =>
      entry.offset + entry.length < 2 ^ 64 ∧ entry.offset + entry.length ≤ fileLen := by
    intro entry
    refine .bind_orFail fun stop h => ?_
    rw [Uint.checkedAdd, Option.ite_none_right_eq_some] at h
    obtain ⟨hlt, hstop⟩ := h
    obtain rfl := Option.some_inj.mp hstop
    refine .bind_require fun hle => ?_
    refine .bind_require fun _ => ?_
    exact .require fun _ => ⟨hlt, hle⟩
  refine .bind (.foldlM_forall (fun entry _ _ => hvalid entry) ()) fun _ hall => ?_
  refine (checkOverlaps_returns fun entry hentry => ?_).mono fun _ _ entry hentry => ?_
  · exact (hall entry (List.mem_filter.mp hentry).1).1
  · exact (hall entry ((List.mem_insertionSort _).mpr hentry)).2

/-- `read_bounded` does not panic, and the sections lie in the file. -/
theorem readBounded_returns {w : ℕ} (bytes : List UInt8) :
    Returns (readBounded w bytes) fun file => file.Bounded ∧ file.bytes = bytes := by
  refine (readHeader_returns bytes).bind fun header hvocab => ?_
  refine .bind_orFail fun _ _ => ?_
  refine .bind_orFail fun tableEnd _ => ?_
  refine .bind_require fun _ => ?_
  refine .bind_orFail fun table _ => ?_
  refine .bind (.foldlM_forall (fun entry hentry sections =>
    readEntry_returns (length_of_mem_chunksExact hentry) sections) []) fun sections _ => ?_
  refine (checkDuplicates_returns _).bind fun _ _ => ?_
  refine (validatePresence_returns _ _).bind fun _ hpresence => ?_
  refine (validateSectionRanges_returns _ _ _ _).bind fun _ hrange => ?_
  refine ⟨⟨hvocab, hrange, fun s hs => ?_, fun hclass => ?_⟩, rfl⟩
  · rw [ValidatedFile.sectionOf, Option.isSome_map]
    exact hpresence.1 s hs
  · rw [ValidatedFile.sectionOf, Option.isSome_map]
    exact hpresence.2 hclass

/-! ### The sections -/

namespace ValidatedFile

section Validators

variable {w : ℕ} {file : ValidatedFile}

lemma length_of_sectionOf {s : SectionId} {b : List UInt8} (hb : b ∈ file.sectionOf s) : b.length ≤ file.bytes.length := by
  obtain ⟨entry, -, rfl⟩ := Option.map_eq_some_iff.mp hb
  rw [List.length_drop, List.length_take]
  omega

/-- The range of a section is in the file. -/
lemma bytesOf_eq {ε : Type} (h : file.Bounded) (hlen : file.bytes.length < 2 ^ w - 1)
    (s : SectionId) : (file.bytesOf w s : Run ε _) = ok (file.sectionOf s) := by
  rw [bytesOf, bytesAt, sectionOf]
  cases hentry : findEntry file.sections s.value with
  | none => rfl
  | some entry =>
      have hrange := h.range entry (List.mem_of_find?_eq_some hentry)
      have hmod : entry.length % 2 ^ w = entry.length := Nat.mod_eq_of_lt (by omega)
      simp only [hmod]
      rw [add_of_lt (by omega), Run.ok_bind, getRange_of_le (Nat.le_add_right _ _) hrange]
      rfl

lemma requiredBytes_returns {ε : Type} (h : file.Bounded) (hlen : file.bytes.length < 2 ^ w - 1)
    {s : SectionId} (hs : s ∈ SectionId.universalRequired) :
    Returns (file.requiredBytes w s : Run ε _) fun b => b ∈ file.sectionOf s := by
  obtain ⟨b, hb⟩ := Option.isSome_iff_exists.mp (h.required s hs)
  rw [requiredBytes, bytesOf_eq h hlen, Run.ok_bind, hb, expect_some]
  rfl

/-- A section that may be absent is validated where it is there. -/
lemma validateOptional_returns (h : file.Bounded) (hlen : file.bytes.length < 2 ^ w - 1)
    (s : SectionId) {validate : List UInt8 → Read Unit} {P : List UInt8 → Prop}
    (hP : ∀ b ∈ file.sectionOf s, Returns (validate b) fun _ => P b) :
    Returns (file.validateOptional w s validate) fun _ => ∀ b ∈ file.sectionOf s, P b := by
  rw [validateOptional, bytesOf_eq h hlen, Run.ok_bind]
  cases hb : file.sectionOf s with
  | none => exact fun _ => nofun
  | some b =>
      refine (hP b hb).mono fun _ hPb b' hb' => ?_
      obtain rfl := Option.some_inj.mp hb'
      exact hPb

lemma insertId_returns (vocabSize : ℕ) (s : SectionId) (ids : Finset ℕ) (id : ℕ) :
    Returns (insertId vocabSize s ids id) fun _ => True :=
  .bind_require fun _ => .bind_require fun _ => trivial

lemma validateUniqueIds_returns (vocabSize : ℕ) (s : SectionId) (b : List UInt8) :
    Returns (validateUniqueIds vocabSize s (chunksExact 4 b)) fun _ => True := by
  refine .bind (.foldlM_forall (P := fun _ => True) (fun chunk hchunk ids => ?_) ∅) fun _ _ => trivial
  exact (readU32_returns (length_of_mem_chunksExact hchunk).ge).bind fun id _ =>
    insertId_returns vocabSize s ids id

/-- A count and entries of one size, up to the end. -/
lemma bind_expectedLen {b : List UInt8} {s : SectionId} {size : ℕ} {f : ℕ → Read Unit}
    {R : Unit → Prop}
    (h : ∀ expected, expected = 4 + u32At b 0 * size → Returns (f expected) R) :
    Returns (do
      let count ← readU32 (← Run.orFail (mismatch s) (getRange b 0 4))
      f (← expectedLen w s count size)) R := by
  refine .bind_orFail fun b' hb' => ?_
  rw [readU32_of_length (length_of_getRange hb'), Run.ok_bind, u32At_of_getRange hb', expectedLen]
  refine .bind (.bind_orFail fun len hlen => .orFail (Q := fun e => e = 4 + u32At b 0 * size)
    fun e he => ?_) h
  rw [Uint.checkedMul, Option.ite_none_right_eq_some] at hlen
  rw [Uint.checkedAdd, Option.ite_none_right_eq_some] at he
  rw [← Option.some_inj.mp he.2, ← Option.some_inj.mp hlen.2]

lemma validatePostEntry_returns {vocabSize : ℕ} {entry : List UInt8} (h : entry.length = 5)
    (ids : Finset ℕ) : Returns (validatePostEntry vocabSize ids entry) fun _ =>
      ∃ position, entry[0]? = some position ∧ postOperands position = some [.u32] := by
  refine (expect_getElem_returns (by omega)).bind fun position hposition => ?_
  refine .bind_require fun hvalid => ?_
  refine (expect_getFrom_returns (by omega)).bind fun rest hrest => ?_
  refine (readU32_returns (by rw [hrest, List.length_drop]; omega)).bind fun id _ => ?_
  exact (insertId_returns vocabSize .post ids id).mono fun _ _ =>
    ⟨position, hposition, if_pos hvalid⟩

/-- Entries of five bytes are steps with one operand. -/
lemma programAt_post {b : List UInt8} (hlen : b.length = 4 + u32At b 0 * 5)
    (hentries : ∀ entry ∈ chunksExact 5 (b.drop 4),
      ∃ position, entry[0]? = some position ∧ postOperands position = some [.u32]) :
    ProgramAt postOperands b := by
  have hiter : ∀ k ≤ u32At b 0, Iter (StepAt postOperands b) k 4 (4 + k * 5) := by
    intro k
    induction k with
    | zero => exact fun _ => .zero 4
    | succ k ih =>
        intro hk
        refine (ih (by omega)).concat ?_
        have hchunk : (chunksExact 5 (b.drop 4))[k]? = some (((b.drop 4).drop (k * 5)).take 5) := by
          refine getElem?_chunksExact.mpr ⟨?_, rfl⟩
          rw [List.length_drop]
          omega
        obtain ⟨position, hposition, hop⟩ := hentries _ (List.mem_of_getElem? hchunk)
        refine ⟨position, [.u32], ?_, hop, 4 + (k + 1) * 5, ⟨by omega, by omega⟩, rfl⟩
        rw [List.getElem?_take, if_pos (by omega), List.getElem?_drop, List.getElem?_drop] at hposition
        rw [← hposition]
        congr 1
  exact ⟨by omega, hlen ▸ hiter (u32At b 0) le_rfl⟩

lemma validateBaseEntry_returns {vocabSize : ℕ} {entry : List UInt8} (h : entry.length = 8)
    (st : Option ℕ × Finset ℕ) : Returns (validateBaseEntry vocabSize st entry) fun _ => True := by
  refine (expect_getRange_returns (by decide) (by omega)).bind fun b hb => ?_
  refine (readU32_returns hb.ge).bind fun codepoint _ => ?_
  refine .bind_require fun _ => ?_
  refine (expect_getFrom_returns (by omega)).bind fun rest hrest => ?_
  refine (readU32_returns (by rw [hrest, List.length_drop]; omega)).bind fun id _ => ?_
  exact (insertId_returns vocabSize .base st.2 id).bind fun _ _ => trivial

/-- What `validate_specials` has read before an entry: `k` entries up to the cursor. -/
lemma validateSpecial_returns {b : List UInt8} (hlen : b.length < 2 ^ w - 1) (vocabSize : ℕ)
    (st : ℕ × Finset ℕ × List SpecialBytes) :
    Returns (validateSpecial w b vocabSize st) fun st' =>
      OperandsAt b [.u32, .blob, .u32] st.1 st'.1 := by
  obtain ⟨c, ids, specials⟩ := st
  refine .bind_orFail fun fixed hfixed => ?_
  obtain ⟨hle, hfixed⟩ := getRange_satAdd hlen hfixed
  have hlen8 : fixed.length = 8 := by
    rw [length_of_getRange hfixed]
    omega
  refine (expect_getRange_returns (by decide) (by omega)).bind fun b₁ hb₁ => ?_
  refine (readU32_returns hb₁.ge).bind fun id _ => ?_
  refine (expect_getFrom_returns (by omega)).bind fun b₂ hb₂ => ?_
  refine (readU32_returns (by rw [hb₂, List.length_drop]; omega)).bind fun byteLen hbyteLen => ?_
  -- the length is the `u32` at the second half of the fixed part
  have hlenAt : byteLen = u32At b (c + 4) := by
    obtain ⟨-, rfl⟩ := getRange_eq_some.mp hfixed
    rw [hbyteLen, hb₂, u32At, u32At, List.drop_zero, List.drop_drop, List.drop_take, List.take_take]
    congr 2
    omega
  obtain rfl := hlenAt
  refine .bind_require fun _ => ?_
  refine .bind_require fun _ => ?_
  refine .bind_require fun _ => ?_
  refine .bind_add (by omega) ?_
  refine .bind_orFail fun token htoken => ?_
  obtain ⟨hle', -⟩ := getRange_satAdd hlen htoken
  refine .bind_add (by omega) ?_
  refine .bind_orFail fun flags hflags => ?_
  obtain ⟨hle'', -⟩ := getRange_satAdd hlen hflags
  refine .bind_add (by omega) ?_
  refine ⟨c + 4, ⟨rfl, by omega⟩, c + 4 + 4 + u32At b (c + 4), ⟨rfl, by omega⟩, _, ⟨rfl, ?_⟩, ?_⟩
  · omega
  · change c + 8 + u32At b (c + 4) + 4 = c + 4 + 4 + u32At b (c + 4) + 4
    omega

lemma validatePrecedence_returns (ids precedence : Finset ℕ) {b : List UInt8} (h : b.length = 4) :
    Returns (validatePrecedence ids precedence b) fun _ => True :=
  (readU32_returns h.ge).bind fun _ _ => .bind_require fun _ => .bind_require fun _ => trivial

lemma validateSpecials_returns (h : file.Bounded) (hlen : file.bytes.length < 2 ^ w - 1) :
    Returns (file.validateSpecials w) fun _ => ∀ b ∈ file.sectionOf .specials, 4 ≤ b.length ∧
      ∃ stop, Iter (OperandsAt b [.u32, .blob, .u32]) (u32At b 0) 4 stop ∧
        stop + u32At b 0 * 4 = b.length := by
  refine (requiredBytes_returns h hlen (by decide)).bind fun b hb => ?_
  have hblen : b.length < 2 ^ w - 1 := (length_of_sectionOf hb).trans_lt hlen
  refine .bind_orFail fun b₁ hb₁ => ?_
  rw [readU32_of_length (length_of_getRange hb₁), Run.ok_bind, u32At_of_getRange hb₁]
  refine .bind_require fun _ => ?_
  -- the entries are those of the cursors
  have hentries : Returns (Run.iterate (validateSpecial w b file.header.vocabSize) (u32At b 0)
      (4, ∅, [])) fun st =>
        Iter (OperandsAt b [.u32, .blob, .u32]) (u32At b 0) 4 st.1 := by
    refine (Returns.iterate (I := fun _ => True)
      (R := fun st st' => OperandsAt b [.u32, .blob, .u32] st.1 st'.1) (fun _ _ _ _ => trivial)
      (fun st _ => validateSpecial_returns hblen _ st) _ trivial).mono fun st hst => ?_
    exact hst.map Prod.fst fun _ _ h => h
  refine hentries.bind fun st hst => ?_
  obtain ⟨stop, ids, specials⟩ := st
  refine .bind_orFail fun len hprecedence => ?_
  refine .bind_require fun hend => ?_
  rw [Uint.checkedMul, Option.ite_none_right_eq_some] at hprecedence
  rw [Uint.checkedAdd, Option.ite_none_right_eq_some] at hend
  have hstop : stop + u32At b 0 * 4 = b.length := by
    rw [Option.some_inj.mp hprecedence.2]
    exact Option.some_inj.mp hend.2
  refine (expect_getFrom_returns (by omega)).bind fun rest _ => ?_
  refine .bind (.foldlM_forall (P := fun _ => True) (fun idBytes hid precedence =>
    validatePrecedence_returns ids precedence (length_of_mem_chunksExact hid)) ∅) fun _ _ => ?_
  intro b' hb'
  obtain rfl := Option.some_inj.mp (hb.symm.trans hb')
  exact ⟨(getRange_eq_some.mp hb₁).1.2, stop, hst, hstop⟩

lemma decodeVarint_returns (s : SectionId) (id : ℕ) (remaining : List UInt8) :
    Returns (decodeVarint s id remaining) fun r => ∃ consumed,
      decodeU32 remaining = .ok (r.1, consumed) ∧ r.2 = remaining.drop consumed := by
  rw [decodeVarint]
  cases hdecode : decodeU32 remaining with
  | error e => trivial
  | ok r =>
      obtain ⟨value, consumed⟩ := r
      refine (expect_getFrom_returns (decodeU32_spec hdecode).2).bind fun rest hrest => ?_
      exact ⟨consumed, rfl, hrest⟩

lemma checkSpecials_returns (arena : List UInt8) (id start sum length : ℕ)
    (specials : List SpecialBytes) :
    Returns (checkSpecials arena id start sum length specials) fun _ => True := by
  induction specials with
  | nil => trivial
  | cons special rest ih =>
      rw [checkSpecials]
      split_ifs with hid
      · exact .bind_require fun _ => ih
      · trivial

/-- The varints that the loop of `validate_lengths` has read. -/
lemma foldlM_validateLength_returns (arena : List UInt8) (ids : List ℕ) (st : LengthsState) :
    Returns (ids.foldlM (fun st id => validateLength arena id st) st) fun st' => ∃ ls,
      VarintsAt st.remaining ls st'.remaining ∧ ls.length = ids.length ∧
        st'.sum = st.sum + ls.sum ∧ st'.omega = ls.foldl max st.omega := by
  induction ids generalizing st with
  | nil => exact ⟨[], rfl, rfl, rfl, rfl⟩
  | cons id ids ih =>
      rw [List.foldlM_cons]
      refine .bind (Q := fun st' => ∃ length consumed,
        decodeU32 st.remaining = .ok (length, consumed) ∧
          st'.remaining = st.remaining.drop consumed ∧ st'.sum = st.sum + length ∧
            st'.omega = max st.omega length) ?_ fun st₁ hst₁ => ?_
      · refine (decodeVarint_returns .lengths id st.remaining).bind fun r hr => ?_
        obtain ⟨length, remaining⟩ := r
        obtain ⟨consumed, hdecode, rfl⟩ := hr
        refine .bind_orFail fun sum hsum => ?_
        rw [Uint.checkedAdd, Option.ite_none_right_eq_some] at hsum
        obtain rfl := Option.some_inj.mp hsum.2
        refine .bind_require fun _ => ?_
        refine .bind_require fun _ => ?_
        exact (checkSpecials_returns _ _ _ _ _ _).bind fun specials _ =>
          ⟨length, consumed, hdecode, rfl, rfl, rfl⟩
      · obtain ⟨length, consumed, hdecode, hrest, hsum, homega⟩ := hst₁
        refine (ih st₁).mono fun st' hst' => ?_
        obtain ⟨ls, hls, hlen, hsum', homega'⟩ := hst'
        refine ⟨length :: ls, ⟨consumed, hdecode, hrest ▸ hls⟩, by rw [List.length_cons, hlen,
          List.length_cons], ?_, by rw [homega', homega, List.foldl_cons]⟩
        rw [hsum', hsum, List.sum_cons, Nat.add_assoc]

lemma validateLengths_returns (h : file.Bounded) (hlen : file.bytes.length < 2 ^ w - 1)
    (specials : List SpecialBytes) :
    Returns (file.validateLengths w specials) fun _ => ∀ b ∈ file.sectionOf .lengths,
      ∀ arena ∈ file.sectionOf .arena, ∃ ls, VarintsAt b ls [] ∧
        ls.length = file.header.vocabSize ∧ ls.sum = arena.length ∧
          ls.foldl max 0 = file.header.omega := by
  refine (requiredBytes_returns h hlen (by decide)).bind fun b hb => ?_
  refine (requiredBytes_returns h hlen (by decide)).bind fun arena harena => ?_
  refine (foldlM_validateLength_returns arena _ _).bind fun st hst => ?_
  obtain ⟨ls, hls, hcount, hsum, homega⟩ := hst
  refine .bind_require fun hrest => ?_
  refine .bind_require fun hend => ?_
  refine .require fun hmax => ?_
  intro b' hb' arena' harena'
  obtain rfl := Option.some_inj.mp (hb.symm.trans hb')
  obtain rfl := Option.some_inj.mp (harena.symm.trans harena')
  rw [hrest] at hls
  rw [List.length_range] at hcount
  rw [Nat.zero_add] at hsum
  exact ⟨ls, hls, hcount, hsum.symm.trans hend, homega.symm.trans hmax⟩

lemma validatePriority_returns (h : file.Bounded) (hlen : file.bytes.length < 2 ^ w - 1) :
    Returns (file.validatePriority w) fun _ => ∀ b ∈ file.sectionOf .priority, ∃ ls,
      VarintsAt b ls [] ∧ ls.length = file.header.vocabSize := by
  refine validateOptional_returns h hlen .priority fun b _ => ?_
  have hloop : ∀ (ids : List ℕ) (remaining : List UInt8),
      Returns (ids.foldlM validatePriorityEntry remaining) fun rest => ∃ ls,
        VarintsAt remaining ls rest ∧ ls.length = ids.length := by
    intro ids
    induction ids with
    | nil => exact fun remaining => ⟨[], rfl, rfl⟩
    | cons id ids ih =>
        intro remaining
        rw [List.foldlM_cons]
        refine .bind (Q := fun rest => ∃ value consumed,
          decodeU32 remaining = .ok (value, consumed) ∧ rest = remaining.drop consumed) ?_
            fun rest hrest => ?_
        · refine (decodeVarint_returns .priority id remaining).bind fun r hr => ?_
          obtain ⟨value, rest⟩ := r
          obtain ⟨consumed, hdecode, rfl⟩ := hr
          exact ⟨value, consumed, hdecode, rfl⟩
        · obtain ⟨value, consumed, hdecode, rfl⟩ := hrest
          refine (ih _).mono fun rest hrest => ?_
          obtain ⟨ls, hls, hlen⟩ := hrest
          exact ⟨value :: ls, ⟨consumed, hdecode, hls⟩, by rw [List.length_cons, hlen,
            List.length_cons]⟩
  refine (hloop _ _).bind fun rest hrest => ?_
  obtain ⟨ls, hls, hcount⟩ := hrest
  refine .require fun hend => ⟨ls, hend ▸ hls, ?_⟩
  rw [hcount, List.length_range]

lemma validateBase_returns (h : file.Bounded) (hlen : file.bytes.length < 2 ^ w - 1) :
    Returns (file.validateBase w) fun _ =>
      (∀ b ∈ file.sectionOf .base, file.header.structuralClass = .byteBpe →
        b.length = 256 * 4) ∧
      ∀ b ∈ file.sectionOf .base, file.header.structuralClass = .sentencePieceBpe →
        4 ≤ b.length := by
  refine (requiredBytes_returns h hlen (by decide)).bind fun b hb => ?_
  have hunique : ∀ b' ∈ file.sectionOf .base, b' = b := fun b' hb' =>
    Option.some_inj.mp (hb'.symm.trans hb)
  cases hclass : file.header.structuralClass with
  | byteBpe =>
      refine .bind_require fun hsize => ?_
      refine (validateUniqueIds_returns _ _ _).mono fun _ _ => ⟨?_, fun _ _ => nofun⟩
      exact fun b' hb' _ => hunique b' hb' ▸ hsize
  | sentencePieceBpe =>
      refine bind_expectedLen fun expected hexpected => ?_
      refine .bind_require fun hsize => ?_
      refine (expect_getFrom_returns (by omega)).bind fun entries _ => ?_
      refine .bind (.foldlM_forall (P := fun _ => True) (fun entry hentry st =>
        validateBaseEntry_returns (length_of_mem_chunksExact hentry) st) _) fun _ _ => ?_
      refine ⟨fun _ _ => nofun, fun b' hb' _ => ?_⟩
      rw [hunique b' hb']
      omega

lemma validatePost_returns (h : file.Bounded) (hlen : file.bytes.length < 2 ^ w - 1) :
    Returns (file.validatePost w) fun _ =>
      ∀ b ∈ file.sectionOf .post, ProgramAt postOperands b := by
  refine validateOptional_returns h hlen .post fun b _ => ?_
  refine bind_expectedLen fun expected hexpected => ?_
  refine .bind_require fun hsize => ?_
  refine (expect_getFrom_returns (by omega)).bind fun entries hentries => ?_
  refine .bind (.foldlM_forall (fun entry hentry ids =>
    validatePostEntry_returns (length_of_mem_chunksExact hentry) ids) ∅) fun _ hall => ?_
  rw [hentries] at hall
  exact programAt_post (hsize.trans hexpected) hall

lemma validateUnk_returns (h : file.Bounded) (hlen : file.bytes.length < 2 ^ w - 1) :
    Returns (file.validateUnk w) fun _ => ∀ b ∈ file.sectionOf .unk, b.length = 5 := by
  refine validateOptional_returns h hlen .unk fun b _ => ?_
  refine .bind_require fun hsize => ?_
  refine (readU32_returns (by omega)).bind fun id _ => ?_
  refine .bind_require fun _ => ?_
  exact (expect_getElem_returns (by omega)).bind fun flag _ => .require fun _ => hsize

lemma validateByteFallback_returns (h : file.Bounded) (hlen : file.bytes.length < 2 ^ w - 1) :
    Returns (file.validateByteFallback w) fun _ =>
      ∀ b ∈ file.sectionOf .byteFall, b.length = 256 * 4 := by
  refine validateOptional_returns h hlen .byteFall fun b _ => ?_
  refine .bind_require fun hsize => ?_
  exact (validateUniqueIds_returns _ _ _).mono fun _ _ => hsize

end Validators

/-- The reader does not panic, and the files that it accepts are laid out. -/
theorem read_returns {w : ℕ} (sha256 : List UInt8 → List UInt8) {bytes : List UInt8}
    (hlen : bytes.length < 2 ^ w - 1) :
    Returns (read w sha256 bytes) fun file => file.Laid ∧ file.bytes = bytes := by
  refine (readBounded_returns bytes).bind fun file hfile => ?_
  obtain ⟨h, rfl⟩ := hfile
  refine .bind (Q := fun _ => ∀ b ∈ file.sectionOf .pretok, ProgramAt pretokOperands b) ?_
    fun _ hpretok => ?_
  · refine (requiredBytes_returns h hlen (by decide)).bind fun b hb => ?_
    have hblen := (length_of_sectionOf hb).trans_lt hlen
    refine (validateProgram_returns (validatePretokStep_returns hblen)).mono fun _ hprogram => ?_
    intro b' hb'
    obtain rfl := Option.some_inj.mp (hb.symm.trans hb')
    exact hprogram
  refine .bind (validateOptional_returns h hlen .norm fun b hb => validateProgram_returns
    (validateNormStep_returns ((length_of_sectionOf hb).trans_lt hlen))) fun _ hnorm => ?_
  refine .bind (validateOptional_returns h hlen .decoder fun b hb => validateProgram_returns
    (validateDecoderStep_returns ((length_of_sectionOf hb).trans_lt hlen))) fun _ hdecoder => ?_
  refine (validatePost_returns h hlen).bind fun _ hpost => ?_
  refine (validateUnk_returns h hlen).bind fun _ _ => ?_
  refine (validateBase_returns h hlen).bind fun _ hbase => ?_
  refine (validateByteFallback_returns h hlen).bind fun _ hfallback => ?_
  refine (validateSpecials_returns h hlen).bind fun specials hspecials => ?_
  refine (validateLengths_returns h hlen specials).bind fun _ hlengths => ?_
  refine (validatePriority_returns h hlen).bind fun _ hpriority => ?_
  refine .bind_require fun _ => ⟨⟨h, hpretok, hnorm, hdecoder, hpost, hbase.1, hbase.2, hfallback,
    hspecials, hlengths, hpriority⟩, rfl⟩

/-! ### The tokens -/

/-- The tokens from one offset on: as many slices as lengths, one after the other. -/
lemma tokensLoop_eq {w : ℕ} {arena : List UInt8} (hlen : arena.length < 2 ^ w - 1) {ls : List ℕ}
    {remaining rest : List UInt8} (hls : VarintsAt remaining ls rest) {start id : ℕ}
    (hle : start + ls.sum ≤ arena.length) (hid : id + ls.length < 2 ^ 32) :
    ∃ toks, tokensLoop w arena ls.length remaining start id = ok toks ∧
      toks.map Prod.fst = List.range' id ls.length ∧
        toks.map (fun token => token.2.length) = ls ∧
          (toks.map Prod.snd).flatten = (arena.drop start).take ls.sum := by
  induction ls generalizing remaining start id with
  | nil => exact ⟨[], rfl, rfl, rfl, by simp⟩
  | cons length ls ih =>
      obtain ⟨consumed, hdecode, hrest⟩ := hls
      simp only [List.sum_cons] at hle
      simp only [List.length_cons] at hid
      obtain ⟨toks, htoks, hids, hlens, hflat⟩ := ih hrest
        (show start + length + ls.sum ≤ arena.length by omega)
        (show id + 1 + ls.length < 2 ^ 32 by omega)
      have htoken := getRange_of_le (Nat.le_add_right start length)
        (show start + length ≤ arena.length by omega)
      have hconsumed := (decodeU32_spec hdecode).2
      refine ⟨(id, (arena.take (start + length)).drop start) :: toks, ?_, ?_, ?_, ?_⟩
      · rw [List.length_cons, tokensLoop, hdecode]
        simp only [Except.toOption, expect_some, Run.ok_bind, getFrom_of_le hconsumed,
          add_of_lt (show start + length < 2 ^ w by omega),
          add_of_lt (show id + 1 < 2 ^ 32 by omega), htoken, htoks, pure_eq]
      · rw [List.map_cons, hids, List.length_cons, List.range'_succ]
      · rw [List.map_cons, hlens, length_of_getRange htoken, Nat.add_sub_cancel_left]
      · rw [List.map_cons, List.flatten_cons, hflat, List.sum_cons, ← List.take_drop,
          ← List.drop_drop, ← List.take_add]

/-- The tokens of a validated file cut its arena into as many slices as the vocabulary has
entries, in order; the longest has `omega` bytes. -/
theorem Laid.tokens_eq {w : ℕ} {file : ValidatedFile} (h : file.Laid)
    (hlen : file.bytes.length < 2 ^ w - 1) : ∃ arena toks,
      file.sectionOf .arena = some arena ∧ file.tokens w = ok toks ∧
        toks.map Prod.fst = List.range file.header.vocabSize ∧
          (toks.map Prod.snd).flatten = arena ∧
            (toks.map fun token => token.2.length).foldl max 0 = file.header.omega := by
  obtain ⟨arena, harena⟩ := Option.isSome_iff_exists.mp (h.required .arena (by decide))
  obtain ⟨lengths, hlengths⟩ := Option.isSome_iff_exists.mp (h.required .lengths (by decide))
  obtain ⟨ls, hls, hcount, hsum, homega⟩ := h.lengths lengths hlengths arena harena
  have hvocab : file.header.vocabSize < 2 ^ 32 := h.vocab_le.trans_lt (by decide)
  obtain ⟨toks, htoks, hids, hlens, hflat⟩ :=
    tokensLoop_eq ((length_of_sectionOf harena).trans_lt hlen) hls
      (show 0 + ls.sum ≤ arena.length by omega) (show 0 + ls.length < 2 ^ 32 by omega)
  rw [hcount] at htoks hids
  refine ⟨arena, toks, harena, ?_, ?_, ?_, ?_⟩
  · rw [tokens, requiredBytes, bytesOf_eq h.toBounded hlen, harena, requiredBytes,
      bytesOf_eq h.toBounded hlen, hlengths]
    exact htoks
  · rw [hids, List.range_eq_range']
  · rw [hflat, hsum, List.drop_zero, List.take_length]
  · rw [hlens, homega]

end ValidatedFile

end Hypertok
