import Hypertok.Format.Schema

/-!
`ValidatedFile`, the reader of the file format. Integers of the machine have `w` bits: `w` is
64, or 32 under WebAssembly. The digest is a parameter.

* `readBounded`: the header, the section table and the ranges of the sections.
* `ValidatedFile.read`: the checks of the sections on top of it.
* `ValidatedFile.tokens`: the iterator over the tokens.
-/

namespace Hypertok

open Machine

/-- A run of the reader. -/
abbrev Read := Run ReadError

/-- `saturating_add`. -/
def Uint.satAdd (w a b : ℕ) : ℕ := min (a + b) (2 ^ w - 1)

/-- `checked_add`. -/
def Uint.checkedAdd (w a b : ℕ) : Option ℕ := if a + b < 2 ^ w then some (a + b) else none

/-- `checked_mul`. -/
def Uint.checkedMul (w a b : ℕ) : Option ℕ := if a * b < 2 ^ w then some (a * b) else none

/-- `read_u32`: the first four bytes. -/
def readU32 {ε : Type} (bytes : List UInt8) : Run ε ℕ := do
  let b ← Run.expect (getRange bytes 0 4)
  return leNat b

/-- `compute_digest`: the digest of the bytes, with zeros in its own place. -/
def computeDigest (sha256 : List UInt8 → List UInt8) (bytes : List UInt8) : List UInt8 :=
  sha256 (bytes.take 32 ++ List.replicate (min (bytes.length - 32) 32) 0 ++ bytes.drop 64)

/-! ### The header and the section table -/

/-- `read_header`. -/
def readHeader (bytes : List UInt8) : Read Header := do
  let header ← Run.orFail (.fileTooShort bytes.length) (getRange bytes 0 headerLen)
  Run.require ((← Run.expect (getRange header 0 8)) = magic) .magicMismatch
  let version := leNat (← Run.expect (getRange header 8 10))
  Run.require (version = formatVersion) (.unsupportedVersion version)
  let structuralClass ← StructuralClass.tryFrom (← Run.expect header[10]?)
  let layout ← Run.expect header[11]?
  Run.require (layout = 0) (.unknownLayout layout)
  let hashScheme ← HashScheme.tryFrom (← Run.expect header[12]?)
  let reserved := leNat (← Run.expect (getRange header 14 16))
  Run.require (reserved = 0) (.reservedHeader reserved)
  let vocabSize ← readU32 (← Run.expect (getRange header 16 20))
  Run.require (vocabSize ≤ maxVocabSize) (.vocabTooLarge vocabSize)
  let digest ← Run.expect (getRange header 32 64)
  let flags ← Run.expect header[13]?
  let omega ← readU32 (← Run.expect (getRange header 20 24))
  let sectionCount ← readU32 (← Run.expect (getRange header 24 28))
  let sectionTableOffset ← readU32 (← Run.expect (getRange header 28 32))
  return {
    structuralClass, hashScheme, flags, vocabSize, omega, sectionCount, sectionTableOffset
    digest }

/-- One turn of the loop over the section table. -/
def readEntry (sections : List SectionEntry) (entry : List UInt8) : Read (List SectionEntry) := do
  let id := leNat (← Run.expect (getRange entry 0 4))
  let offset := leNat (← Run.expect (getRange entry 4 8))
  let length := leNat (← Run.expect (getRange entry 8 16))
  Run.require (¬ (SectionId.fromKnown id = none ∧ id < 1024)) (.unknownSection id)
  return sections ++ [⟨id, offset, length⟩]

/-- The search for two sections of one id. -/
def checkDuplicates : List SectionEntry → Read Unit
  | a :: b :: rest =>
      if a.id = b.id then .fail (.duplicateSection a.id) else checkDuplicates (b :: rest)
  | _ => return

/-- `binary_search_by_key` on the sorted table. -/
def findEntry (sections : List SectionEntry) (id : ℕ) : Option SectionEntry :=
  sections.find? fun entry => entry.id = id

/-- `validate_presence`. -/
def validatePresence (structuralClass : StructuralClass) (sections : List SectionEntry) :
    Read Unit := do
  SectionId.universalRequired.foldlM (fun _ required =>
    Run.require ((findEntry sections required.value).isSome = true) (.missingSection required)) ()
  match structuralClass, (findEntry sections SectionId.byteFall.value).isSome with
  | .byteBpe, true => .fail (.forbiddenSection .byteFall structuralClass.value)
  | .sentencePieceBpe, false => .fail (.missingSection .byteFall)
  | _, _ => return

/-- `ranges_overlap`. -/
def rangesOverlap (firstStart firstEnd secondStart secondEnd : ℕ) : Bool :=
  firstStart < secondEnd && secondStart < firstEnd

/-- The first loop of `validate_section_ranges`. -/
def validateSectionRange (fileLen tableStart tableEnd : ℕ) (entry : SectionEntry) : Read Unit := do
  let stop ← Run.orFail (.sectionOutOfBounds entry.id) (Uint.checkedAdd 64 entry.offset entry.length)
  Run.require (stop ≤ fileLen) (.sectionOutOfBounds entry.id)
  Run.require (¬ (entry.length ≠ 0 ∧ (rangesOverlap entry.offset stop 0 headerLen ||
    rangesOverlap entry.offset stop tableStart tableEnd) = true)) (.sectionOverlapsMetadata entry.id)
  Run.require (¬ ((SectionId.fromKnown entry.id).any SectionId.requiresAlignment = true ∧
    entry.offset % 8 ≠ 0)) (.misalignedSection entry.id)

/-- The second loop of `validate_section_ranges`. -/
def checkOverlaps : List SectionEntry → Read Unit
  | a :: b :: rest => do
      let firstEnd ← Run.add 64 a.offset a.length
      Run.require (firstEnd ≤ b.offset) (.sectionsOverlap a.id b.id)
      checkOverlaps (b :: rest)
  | _ => return

/-- The order of the entries by offset and length. -/
def SectionEntry.before (a b : SectionEntry) : Bool :=
  a.offset < b.offset || (a.offset = b.offset && a.length ≤ b.length)

/-- `validate_section_ranges`. -/
def validateSectionRanges (fileLen tableStart tableEnd : ℕ) (sections : List SectionEntry) :
    Read Unit := do
  let byOffset := sections.insertionSort fun a b => a.before b
  byOffset.foldlM (fun _ entry => validateSectionRange fileLen tableStart tableEnd entry) ()
  checkOverlaps (byOffset.filter fun entry => entry.length ≠ 0)

/-- `ValidatedFile`. -/
structure ValidatedFile where
  bytes : List UInt8
  header : Header
  sections : List SectionEntry
  deriving DecidableEq

/-- `read_bounded`. -/
def readBounded (w : ℕ) (bytes : List UInt8) : Read ValidatedFile := do
  let header ← readHeader bytes
  let tableStart := header.sectionTableOffset
  let tableLen ← Run.orFail .sectionTableOutOfBounds
    (Uint.checkedMul w header.sectionCount sectionTableEntryLen)
  let tableEnd ← Run.orFail .sectionTableOutOfBounds (Uint.checkedAdd w tableStart tableLen)
  Run.require (headerLen ≤ tableStart) .sectionTableOverlapsHeader
  let table ← Run.orFail .sectionTableOutOfBounds (getRange bytes tableStart tableEnd)
  let sections ← (chunksExact sectionTableEntryLen table).foldlM readEntry []
  let sections := sections.insertionSort fun a b => a.id ≤ b.id
  checkDuplicates sections
  validatePresence header.structuralClass sections
  validateSectionRanges bytes.length tableStart tableEnd sections
  return ⟨bytes, header, sections⟩

/-! ### The sections -/

/-- `validate_id`. -/
def validateId (id vocabSize : ℕ) (s : SectionId) : Read Unit :=
  Run.require (id < vocabSize) (.idOutOfRange s.value id)

/-- `validate_id`, and the insertion into the set of ids that came before. -/
def insertId (vocabSize : ℕ) (s : SectionId) (ids : Finset ℕ) (id : ℕ) : Read (Finset ℕ) := do
  validateId id vocabSize s
  Run.require (id ∉ ids) (.duplicateSectionEntry s.value id)
  return insert id ids

/-- `validate_unique_ids`, on the integers of a section. -/
def validateUniqueIds (vocabSize : ℕ) (s : SectionId) (chunks : List (List UInt8)) : Read Unit := do
  let _ ← chunks.foldlM (fun ids chunk => do insertId vocabSize s ids (← readU32 chunk)) ∅
  return

namespace ValidatedFile

variable (w : ℕ) (file : ValidatedFile)

/-- `section`. -/
def bytesAt {ε : Type} (id : ℕ) : Run ε (Option (List UInt8)) :=
  match findEntry file.sections id with
  | none => return none
  | some entry => do
      let stop ← Run.add w entry.offset (entry.length % 2 ^ w)
      let bytes ← Run.expect (getRange file.bytes entry.offset stop)
      return some bytes

/-- `section`, of a known section. -/
def bytesOf {ε : Type} (s : SectionId) : Run ε (Option (List UInt8)) := file.bytesAt w s.value

/-- `section(..).expect(..)`. -/
def requiredBytes {ε : Type} (s : SectionId) : Run ε (List UInt8) := do
  Run.expect (← file.bytesOf w s)

end ValidatedFile

section Cursors

variable (w : ℕ) (bytes : List UInt8) (s : SectionId)

/-- The error of a section that ends too early or too late. -/
abbrev mismatch : ReadError := .sectionLengthMismatch s.value

/-- `read_step_count`: the count, after which the cursor is at 4. -/
def readStepCount : Read ℕ := do
  let b ← Run.orFail (mismatch s) (getRange bytes 0 4)
  let count ← readU32 b
  Run.require (count ≤ bytes.length - 4) (mismatch s)
  return count

/-- `read_byte`. -/
def readByte (cursor : ℕ) : Read (UInt8 × ℕ) := do
  let value ← Run.orFail (mismatch s) bytes[cursor]?
  return (value, ← Run.add w cursor 1)

/-- `read_u32_cursor`. -/
def readU32Cursor (cursor : ℕ) : Read (ℕ × ℕ) := do
  let b ← Run.orFail (mismatch s) (getRange bytes cursor (Uint.satAdd w cursor 4))
  let cursor ← Run.add w cursor 4
  return (← readU32 b, cursor)

/-- `read_utf8`, of which only the cursor is used. -/
def readUtf8 (cursor : ℕ) : Read ℕ := do
  let (length, cursor) ← readU32Cursor w bytes s cursor
  let b ← Run.orFail (mismatch s) (getRange bytes cursor (Uint.satAdd w cursor length))
  let cursor ← Run.add w cursor length
  Run.require (isUtf8 b = true) (.invalidUtf8Section s.value)
  return cursor

/-- `require_end`. -/
def requireEnd (cursor : ℕ) : Read Unit := Run.require (cursor = bytes.length) (mismatch s)

/-- `char::from_u32(value).is_some()`. -/
def isScalar (value : ℕ) : Bool := value < 0xD800 || (0xDFFF < value && value < 0x110000)

/-- One step of the program in PRETOK. -/
def validatePretokStep (cursor : ℕ) : Read ℕ := do
  let (kind, cursor) ← readByte w bytes .pretok cursor
  if kind = PretokStepKind.namedPattern.value then do
    let b ← Run.orFail (mismatch .pretok) (getRange bytes cursor (Uint.satAdd w cursor 4))
    let _ ← NamedPattern.tryFrom (← readU32 b)
    Run.add w cursor 4
  else if kind = PretokStepKind.byteLevel.value then do
    let flags ← Run.orFail (mismatch .pretok) bytes[cursor]?
    Run.require (flags &&& ~~~7 = 0) (.invalidPretokFlags flags)
    Run.add w cursor 1
  else if kind = PretokStepKind.metaspace.value then do
    let b ← Run.orFail (mismatch .pretok) (getRange bytes cursor (Uint.satAdd w cursor 4))
    let replacement ← readU32 b
    Run.require (isScalar replacement = true) (.invalidMetaspaceReplacement replacement)
    Run.add w cursor 4
  else if kind = PretokStepKind.identity.value then return cursor
  else .fail (.unknownPretokStep kind)

/-- One step of the program in NORM. -/
def validateNormStep (cursor : ℕ) : Read ℕ := do
  let (kind, cursor) ← readByte w bytes .norm cursor
  if kind = NormStepKind.nfc.value then return cursor
  else if kind = NormStepKind.replace.value then do
    let cursor ← readUtf8 w bytes .norm cursor
    readUtf8 w bytes .norm cursor
  else if kind = NormStepKind.prepend.value then readUtf8 w bytes .norm cursor
  else if kind = NormStepKind.stripWhitespace.value then return cursor
  else if kind = NormStepKind.collapseWhitespaceRuns.value then return cursor
  else .fail (.unknownNormStep kind)

/-- One step of the program in DECODER. -/
def validateDecoderStep (cursor : ℕ) : Read ℕ := do
  let (kind, cursor) ← readByte w bytes .decoder cursor
  if kind = DecoderStepKind.replace.value then do
    let cursor ← readUtf8 w bytes .decoder cursor
    readUtf8 w bytes .decoder cursor
  else if kind = DecoderStepKind.byteFallback.value then return cursor
  else if kind = DecoderStepKind.fuse.value then return cursor
  else if kind = DecoderStepKind.strip.value then do
    let (scalar, cursor) ← readU32Cursor w bytes .decoder cursor
    Run.require (isScalar scalar = true) (.invalidUnicodeScalar SectionId.decoder.value scalar)
    let (_, cursor) ← readU32Cursor w bytes .decoder cursor
    let (_, cursor) ← readU32Cursor w bytes .decoder cursor
    return cursor
  else .fail (.unknownDecoderStep kind)

/-- A program: the number of its steps, and the steps up to the end of the section. -/
def validateProgram (step : ℕ → Read ℕ) : Read Unit := do
  let count ← readStepCount bytes s
  let cursor ← Run.iterate step count 4
  requireEnd bytes s cursor

/-- `4 + count * size`, or the error of the section. -/
def expectedLen (count size : ℕ) : Read ℕ := do
  let len ← Run.orFail (mismatch s) (Uint.checkedMul w count size)
  Run.orFail (mismatch s) (Uint.checkedAdd w 4 len)

/-- One entry of POST. -/
def validatePostEntry (vocabSize : ℕ) (ids : Finset ℕ) (entry : List UInt8) : Read (Finset ℕ) := do
  let position ← Run.expect entry[0]?
  Run.require (position = PostPosition.prepend.value ∨ position = PostPosition.append.value)
    (.unknownPostPosition position)
  let id ← readU32 (← Run.expect (getFrom entry 1))
  insertId vocabSize .post ids id

/-- One entry of the BASE of a SentencePiece file. -/
def validateBaseEntry (vocabSize : ℕ) (st : Option ℕ × Finset ℕ) (entry : List UInt8) :
    Read (Option ℕ × Finset ℕ) := do
  let codepoint ← readU32 (← Run.expect (getRange entry 0 4))
  Run.require (¬ st.1.any (codepoint ≤ ·) = true) .unsortedBase
  let id ← readU32 (← Run.expect (getFrom entry 4))
  let ids ← insertId vocabSize .base st.2 id
  return (some codepoint, ids)

/-- `Special`. -/
structure SpecialBytes where
  id : ℕ
  token : List UInt8
  deriving DecidableEq

/-- One entry of SPECIALS. The state is the cursor, the ids and the specials. -/
def validateSpecial (vocabSize : ℕ) (st : ℕ × Finset ℕ × List SpecialBytes) :
    Read (ℕ × Finset ℕ × List SpecialBytes) := do
  let (cursor, ids, specials) := st
  let fixed ← Run.orFail (mismatch .specials) (getRange bytes cursor (Uint.satAdd w cursor 8))
  let id ← readU32 (← Run.expect (getRange fixed 0 4))
  let byteLen ← readU32 (← Run.expect (getFrom fixed 4))
  validateId id vocabSize .specials
  Run.require (byteLen ≠ 0) (.emptySpecial id)
  Run.require (id ∉ ids) (.duplicateSectionEntry SectionId.specials.value id)
  let cursor ← Run.add w cursor 8
  let token ← Run.orFail (mismatch .specials) (getRange bytes cursor (Uint.satAdd w cursor byteLen))
  let cursor ← Run.add w cursor byteLen
  let _ ← Run.orFail (mismatch .specials) (getRange bytes cursor (Uint.satAdd w cursor 4))
  let cursor ← Run.add w cursor 4
  return (cursor, insert id ids, specials ++ [⟨id, token⟩])

/-- One entry of the precedence of SPECIALS. -/
def validatePrecedence (ids : Finset ℕ) (precedence : Finset ℕ) (idBytes : List UInt8) :
    Read (Finset ℕ) := do
  let id ← readU32 idBytes
  Run.require (id ∈ ids) (.idOutOfRange SectionId.specials.value id)
  Run.require (id ∉ precedence) (.duplicateSectionEntry SectionId.specials.value id)
  return insert id precedence

end Cursors

/-! ### The lengths -/

/-- The variables of the loop of `validate_lengths`; `specials` are those from
`special_index` on. -/
structure LengthsState where
  remaining : List UInt8
  sum : ℕ
  omega : ℕ
  specials : List SpecialBytes

/-- The loop over the specials of one id. -/
def checkSpecials (arena : List UInt8) (id start sum length : ℕ) :
    List SpecialBytes → Read (List SpecialBytes)
  | special :: rest =>
      if special.id = id then do
        Run.require (special.token.length = length ∧ getRange arena start sum = some special.token)
          (.specialBytesMismatch id)
        checkSpecials arena id start sum length rest
      else return special :: rest
  | [] => return []

/-- A decoded integer and the bytes after it. -/
def decodeVarint (s : SectionId) (id : ℕ) (remaining : List UInt8) : Read (ℕ × List UInt8) :=
  match decodeU32 remaining with
  | .error error => .fail (.varint s.value id error)
  | .ok (value, consumed) => do
      let remaining ← Run.expect (getFrom remaining consumed)
      return (value, remaining)

/-- One turn of the loop of `validate_lengths`. -/
def validateLength (arena : List UInt8) (id : ℕ) (st : LengthsState) : Read LengthsState := do
  let (length, remaining) ← decodeVarint .lengths id st.remaining
  let sum ← Run.orFail .arenaOffsetOverflow (Uint.checkedAdd 64 st.sum length)
  Run.require (sum ≤ 2 ^ 32 - 1) .arenaOffsetOverflow
  Run.require (sum ≤ arena.length) (.arenaIndexOutOfBounds id st.sum length arena.length)
  let specials ← checkSpecials arena id st.sum sum length st.specials
  return ⟨remaining, sum, max st.omega length, specials⟩

/-- One turn of the loop of `validate_priority`: what remains after a priority. -/
def validatePriorityEntry (remaining : List UInt8) (index : ℕ) : Read (List UInt8) := do
  let (_, remaining) ← decodeVarint .priority index remaining
  return remaining

namespace ValidatedFile

variable (w : ℕ) (file : ValidatedFile)

/-- `validate_pretok`. -/
def validatePretok : Read Unit := do
  let bytes ← file.requiredBytes w .pretok
  validateProgram bytes .pretok (validatePretokStep w bytes)

/-- A section that may be absent. -/
def validateOptional (s : SectionId) (validate : List UInt8 → Read Unit) : Read Unit := do
  match ← file.bytesOf w s with
  | none => return
  | some bytes => validate bytes

/-- `validate_norm`. -/
def validateNorm : Read Unit :=
  file.validateOptional w .norm fun bytes =>
    validateProgram bytes .norm (validateNormStep w bytes)

/-- `validate_decoder`. -/
def validateDecoder : Read Unit :=
  file.validateOptional w .decoder fun bytes =>
    validateProgram bytes .decoder (validateDecoderStep w bytes)

/-- `validate_post`. -/
def validatePost : Read Unit :=
  file.validateOptional w .post fun bytes => do
    let count ← readU32 (← Run.orFail (mismatch .post) (getRange bytes 0 4))
    let expected ← expectedLen w .post count 5
    Run.require (bytes.length = expected) (mismatch .post)
    let entries ← Run.expect (getFrom bytes 4)
    let _ ← (chunksExact 5 entries).foldlM (validatePostEntry file.header.vocabSize) ∅
    return

/-- `validate_unk`. -/
def validateUnk : Read Unit :=
  file.validateOptional w .unk fun bytes => do
    Run.require (bytes.length = 5) (mismatch .unk)
    validateId (← readU32 bytes) file.header.vocabSize .unk
    let flag ← Run.expect bytes[4]?
    Run.require (flag ≤ 1) (.invalidFlagValue SectionId.unk.value flag)

/-- `validate_base`. -/
def validateBase : Read Unit := do
  let bytes ← file.requiredBytes w .base
  match file.header.structuralClass with
  | .byteBpe => do
      Run.require (bytes.length = 256 * 4) (mismatch .base)
      validateUniqueIds file.header.vocabSize .base (chunksExact 4 bytes)
  | .sentencePieceBpe => do
      let count ← readU32 (← Run.orFail (mismatch .base) (getRange bytes 0 4))
      let expected ← expectedLen w .base count 8
      Run.require (bytes.length = expected) (mismatch .base)
      let entries ← Run.expect (getFrom bytes 4)
      let _ ← (chunksExact 8 entries).foldlM (validateBaseEntry file.header.vocabSize) (none, ∅)
      return

/-- `validate_byte_fallback`. -/
def validateByteFallback : Read Unit :=
  file.validateOptional w .byteFall fun bytes => do
    Run.require (bytes.length = 256 * 4) (mismatch .byteFall)
    validateUniqueIds file.header.vocabSize .byteFall (chunksExact 4 bytes)

/-- `validate_specials`. -/
def validateSpecials : Read (List SpecialBytes) := do
  let bytes ← file.requiredBytes w .specials
  let count ← readU32 (← Run.orFail (mismatch .specials) (getRange bytes 0 4))
  Run.require (count ≤ (bytes.length - 4) / 16) (mismatch .specials)
  let (cursor, ids, specials) ←
    Run.iterate (validateSpecial w bytes file.header.vocabSize) count (4, ∅, [])
  let precedenceLen ← Run.orFail (mismatch .specials) (Uint.checkedMul w count 4)
  Run.require (Uint.checkedAdd w cursor precedenceLen = some bytes.length) (mismatch .specials)
  let rest ← Run.expect (getFrom bytes cursor)
  let _ ← (chunksExact 4 rest).foldlM (validatePrecedence ids) ∅
  return specials.insertionSort fun a b => a.id ≤ b.id

/-- `validate_lengths`. -/
def validateLengths (specials : List SpecialBytes) : Read Unit := do
  let lengths ← file.requiredBytes w .lengths
  let arena ← file.requiredBytes w .arena
  let st ← (List.range file.header.vocabSize).foldlM (fun st id => validateLength arena id st)
    ⟨lengths, 0, 0, specials⟩
  Run.require (st.remaining = []) (mismatch .lengths)
  Run.require (st.sum = arena.length) (.lengthSumMismatch arena.length st.sum)
  Run.require (st.omega = file.header.omega) (.omegaMismatch st.omega file.header.omega)

/-- `validate_priority`. -/
def validatePriority : Read Unit :=
  file.validateOptional w .priority fun bytes => do
    let remaining ← (List.range file.header.vocabSize).foldlM validatePriorityEntry bytes
    Run.require (remaining = []) (mismatch .priority)

/-- `ValidatedFile::read`. -/
def read (sha256 : List UInt8 → List UInt8) (bytes : List UInt8) : Read ValidatedFile := do
  let file ← readBounded w bytes
  file.validatePretok w
  file.validateNorm w
  file.validateDecoder w
  file.validatePost w
  file.validateUnk w
  file.validateBase w
  file.validateByteFallback w
  let specials ← file.validateSpecials w
  file.validateLengths w specials
  file.validatePriority w
  Run.require (computeDigest sha256 bytes = file.header.digest) .digestMismatch
  return file

/-- The turns of `TokenIter`: the lengths that remain, the offset and the id. -/
def tokensLoop (arena : List UInt8) : ℕ → List UInt8 → ℕ → ℕ → Read (List (ℕ × List UInt8))
  | 0, _, _, _ => return []
  | count + 1, remaining, start, id => do
      let (length, consumed) ← Run.expect (decodeU32 remaining).toOption
      let remaining ← Run.expect (getFrom remaining consumed)
      let offset ← Run.add w start length
      let nextId ← Run.add 32 id 1
      let token ← Run.expect (getRange arena start offset)
      let tokens ← tokensLoop arena count remaining offset nextId
      return (id, token) :: tokens

/-- `tokens`, run to its end. -/
def tokens : Read (List (ℕ × List UInt8)) := do
  let arena ← file.requiredBytes w .arena
  let lengths ← file.requiredBytes w .lengths
  tokensLoop w arena file.header.vocabSize lengths 0 0

end ValidatedFile

end Hypertok
