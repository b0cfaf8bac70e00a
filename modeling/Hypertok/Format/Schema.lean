import Hypertok.Machine.Bytes
import Hypertok.Machine.Utf8

/-!
The `hypertok-format` crate: the constants and enumerations of the file format, its errors,
and the decoder of its variable-length integers.

* `decodeU32_spec`: a decoded integer ends inside of the input.
-/

namespace Hypertok

open Machine

/-- `StructuralClass`. -/
inductive StructuralClass
  | byteBpe
  | sentencePieceBpe
  deriving DecidableEq

/-- `HashScheme`. -/
inductive HashScheme
  | none
  | fmphgo
  deriving DecidableEq

/-- `PretokStepKind`. -/
inductive PretokStepKind
  | namedPattern
  | byteLevel
  | metaspace
  | identity

/-- `NormStepKind`. -/
inductive NormStepKind
  | nfc
  | replace
  | prepend
  | stripWhitespace
  | collapseWhitespaceRuns

/-- `DecoderStepKind`. -/
inductive DecoderStepKind
  | replace
  | byteFallback
  | fuse
  | strip

/-- `PostPosition`. -/
inductive PostPosition
  | prepend
  | append
  deriving DecidableEq

/-- `NamedPattern`. -/
inductive NamedPattern
  | o200kBase
  | qwen35
  | nemotron
  | deepSeekV3
  | kimi
  | gpt2
  | cl100kBase
  | cohereCommand
  deriving DecidableEq

/-- `SectionId`. -/
inductive SectionId
  | base
  | arena
  | lengths
  | specials
  | pretok
  | norm
  | decoder
  | post
  | byteFall
  | affix
  | unk
  | priority
  | hash
  deriving DecidableEq

/-- The tag of the class, an `u8`. -/
def StructuralClass.value : StructuralClass → UInt8
  | .byteBpe => 0
  | .sentencePieceBpe => 1

/-- The tag of the scheme, an `u8`. -/
def HashScheme.value : HashScheme → UInt8
  | .none => 0
  | .fmphgo => 1

/-- `NamedPattern::value`. -/
def NamedPattern.value : NamedPattern → ℕ
  | .o200kBase => 1
  | .qwen35 => 2
  | .nemotron => 3
  | .deepSeekV3 => 4
  | .kimi => 5
  | .gpt2 => 6
  | .cl100kBase => 7
  | .cohereCommand => 8

/-- `PretokStepKind::value`. -/
def PretokStepKind.value : PretokStepKind → UInt8
  | .namedPattern => 0
  | .byteLevel => 1
  | .metaspace => 2
  | .identity => 3

/-- `NormStepKind::value`. -/
def NormStepKind.value : NormStepKind → UInt8
  | .nfc => 0
  | .replace => 1
  | .prepend => 2
  | .stripWhitespace => 3
  | .collapseWhitespaceRuns => 4

/-- `DecoderStepKind::value`. -/
def DecoderStepKind.value : DecoderStepKind → UInt8
  | .replace => 0
  | .byteFallback => 1
  | .fuse => 2
  | .strip => 3

/-- `PostPosition::value`. -/
def PostPosition.value : PostPosition → UInt8
  | .prepend => 0
  | .append => 1

namespace SectionId

/-- `SectionId::value`. -/
def value : SectionId → ℕ
  | base => 1
  | arena => 2
  | lengths => 3
  | specials => 4
  | pretok => 5
  | norm => 6
  | decoder => 7
  | post => 8
  | byteFall => 9
  | affix => 10
  | unk => 11
  | priority => 12
  | hash => 1024

/-- `from_known`. -/
def fromKnown : ℕ → Option SectionId
  | 1 => some base
  | 2 => some arena
  | 3 => some lengths
  | 4 => some specials
  | 5 => some pretok
  | 6 => some norm
  | 7 => some decoder
  | 8 => some post
  | 9 => some byteFall
  | 10 => some affix
  | 11 => some unk
  | 12 => some priority
  | 1024 => some hash
  | _ => none

/-- `requires_alignment`. -/
def requiresAlignment : SectionId → Bool
  | base | byteFall | hash | priority => true
  | _ => false

/-- `UNIVERSAL_REQUIRED`. -/
def universalRequired : List SectionId := [base, arena, lengths, specials, pretok]

end SectionId

/-- `VarintError`. -/
inductive VarintError
  | unexpectedEnd
  | nonCanonical
  | overflow
  deriving DecidableEq

/-- `ReadError`. -/
inductive ReadError
  | fileTooShort (actual : ℕ)
  | magicMismatch
  | unsupportedVersion (version : ℕ)
  | unknownStructuralClass (value : UInt8)
  | unknownLayout (layout : UInt8)
  | unknownHashScheme (value : UInt8)
  | reservedHeader (value : ℕ)
  | vocabTooLarge (size : ℕ)
  | sectionTableOutOfBounds
  | sectionTableOverlapsHeader
  | unknownSection (id : ℕ)
  | duplicateSection (id : ℕ)
  | missingSection (id : SectionId)
  | forbiddenSection (id : SectionId) (class_ : UInt8)
  | sectionOutOfBounds (id : ℕ)
  | sectionOverlapsMetadata (id : ℕ)
  | sectionsOverlap (first second : ℕ)
  | misalignedSection (id : ℕ)
  | sectionLengthMismatch (id : ℕ)
  | duplicateSectionEntry (section_ id : ℕ)
  | idOutOfRange (section_ id : ℕ)
  | unsortedBase
  | specialBytesMismatch (id : ℕ)
  | emptySpecial (id : ℕ)
  | unknownPretokStep (kind : UInt8)
  | unknownNamedPattern (id : ℕ)
  | invalidPretokFlags (flags : UInt8)
  | invalidMetaspaceReplacement (value : ℕ)
  | unknownNormStep (kind : UInt8)
  | unknownDecoderStep (kind : UInt8)
  | invalidUnicodeScalar (section_ value : ℕ)
  | unknownPostPosition (position : UInt8)
  | invalidUtf8Section (section_ : ℕ)
  | invalidFlagValue (section_ : ℕ) (value : UInt8)
  | varint (section_ index : ℕ) (error : VarintError)
  | arenaOffsetOverflow
  | arenaIndexOutOfBounds (id offset length arenaLength : ℕ)
  | lengthSumMismatch (expected actual : ℕ)
  | omegaMismatch (expected actual : ℕ)
  | digestMismatch
  deriving DecidableEq

/-- `TryFrom<u8> for StructuralClass`. -/
def StructuralClass.tryFrom (value : UInt8) : Run ReadError StructuralClass :=
  if value = 0 then .ok byteBpe
  else if value = 1 then .ok sentencePieceBpe
  else .fail (.unknownStructuralClass value)

/-- `TryFrom<u8> for HashScheme`. -/
def HashScheme.tryFrom (value : UInt8) : Run ReadError HashScheme :=
  if value = 0 then .ok none
  else if value = 1 then .ok fmphgo
  else .fail (.unknownHashScheme value)

/-- `TryFrom<u32> for NamedPattern`. -/
def NamedPattern.tryFrom : ℕ → Run ReadError NamedPattern
  | 1 => .ok o200kBase
  | 2 => .ok qwen35
  | 3 => .ok nemotron
  | 4 => .ok deepSeekV3
  | 5 => .ok kimi
  | 6 => .ok gpt2
  | 7 => .ok cl100kBase
  | 8 => .ok cohereCommand
  | value => .fail (.unknownNamedPattern value)

/-- `MAGIC`, `b"HTKVOCAB"`. -/
def magic : List UInt8 := [72, 84, 75, 86, 79, 67, 65, 66]

/-- `FORMAT_VERSION`. -/
def formatVersion : ℕ := 1

/-- `HEADER_LEN`. -/
def headerLen : ℕ := 64

/-- `SECTION_TABLE_ENTRY_LEN`. -/
def sectionTableEntryLen : ℕ := 16

/-- `MAX_VOCAB_SIZE`. -/
def maxVocabSize : ℕ := 2 ^ 28

/-- `BYTE_BPE_IGNORE_MERGES_FLAG`. -/
def byteBpeIgnoreMergesFlag : UInt8 := 1

/-- `Header`. -/
structure Header where
  structuralClass : StructuralClass
  hashScheme : HashScheme
  flags : UInt8
  vocabSize : ℕ
  omega : ℕ
  sectionCount : ℕ
  sectionTableOffset : ℕ
  digest : List UInt8
  deriving DecidableEq

/-- `SectionEntry`. -/
structure SectionEntry where
  id : ℕ
  offset : ℕ
  length : ℕ
  deriving DecidableEq

/-- The loop of `decode_u32`, with the turns that are left. -/
def decodeLoop (input : List UInt8) : ℕ → ℕ → ℕ → Except VarintError (ℕ × ℕ)
  | 0, _, _ => .error .overflow
  | turns + 1, index, value =>
      match input[index]? with
      | none => .error .unexpectedEnd
      | some byte =>
          if index = 4 ∧ byte &&& 0xF0 ≠ 0 then .error .overflow
          else
            let value := value ||| (byte &&& 0x7F).toNat <<< (index * 7)
            if byte &&& 0x80 = 0 then
              if 0 < index ∧ byte = 0 then .error .nonCanonical
              else .ok (value, index + 1)
            else decodeLoop input turns (index + 1) value

/-- `decode_u32`: the value, and the number of bytes that it takes. -/
def decodeU32 (input : List UInt8) : Except VarintError (ℕ × ℕ) := decodeLoop input 5 0 0

lemma decodeLoop_spec {input : List UInt8} {turns index value v consumed : ℕ}
    (h : decodeLoop input turns index value = .ok (v, consumed)) :
    index < consumed ∧ consumed ≤ input.length := by
  induction turns generalizing index value with
  | zero => cases h
  | succ turns ih =>
      simp only [decodeLoop] at h
      cases hbyte : input[index]? with
      | none => simp [hbyte] at h
      | some byte =>
          obtain ⟨hlt, -⟩ := List.getElem?_eq_some_iff.mp hbyte
          simp only [hbyte] at h
          split_ifs at h
          · cases h
            exact ⟨Nat.lt_succ_self _, hlt⟩
          · obtain ⟨hi, hlen⟩ := ih h
            exact ⟨(Nat.lt_succ_self _).trans hi, hlen⟩

/-- What is decoded ends inside of the input. -/
lemma decodeU32_spec {input : List UInt8} {v consumed : ℕ} (h : decodeU32 input = .ok (v, consumed)) :
    0 < consumed ∧ consumed ≤ input.length := decodeLoop_spec h

end Hypertok
