import Hypertok.Pretokenize.Cl100k
import Hypertok.Pretokenize.CohereCommand
import Hypertok.Pretokenize.DeepSeekV3
import Hypertok.Pretokenize.Options
import Hypertok.Pretokenize.R50k

/-!
`PretokenizerType`: the ten schemes, each with its scanner and with the splits of its regexes.

* `pretokenize`: the tokens of the scanner of a scheme.
* `pretokenize_eq`: they are the pieces of the splits.
-/

namespace Hypertok

open Machine Regex

/-- The classifications of the codepoints: `class_of`, `ds_class_of`, and `o200k_class_of` with
`command_class_of`. `U+017F` is a letter. -/
structure UnicodeTables where
  classes : ClassTable
  longS : classes.isA .letter '\u017f' = true
  deepSeek : DeepSeekTable
  command : CommandTable

namespace CohereCommand

/-- The bytes of the tokens. -/
def pretokens (table : CommandTable) (bytes : List UInt8) : Option (List (List UInt8)) := do
  return (← tokenSpans table bytes).map fun span => (bytes.drop span.1).take (span.2 - span.1)

/-- The pieces between the ends of tokens. -/
lemma map_spans {bytes : List UInt8} {pos : ℕ} {tokens : List (List Char)}
    (h : At bytes pos tokens.flatten) :
    ((spans pos tokens).map fun span => (bytes.drop span.1).take (span.2 - span.1)) =
      tokens.map textBytes := by
  induction tokens generalizing pos with
  | nil => rfl
  | cons token tokens ih =>
      rw [List.flatten_cons] at h
      rw [spans, List.map_cons, List.map_cons, ih h.append, h.drop_eq, textBytes_append,
        Nat.add_sub_cancel_left, List.take_left]

/-- The two splits, as splits that follow each other. -/
lemma Tokens.splitAll_eq {table : CommandTable} {text : List Char} {tokens : List (List Char)}
    (h : Tokens table text tokens) :
    Matcher.splitAll [groupMatcher table, .ofRegex (o200kRegex table)] text = tokens := by
  obtain ⟨parts, hparts, rfl⟩ := h
  rw [Matcher.splitAll, List.foldl_cons, List.foldl_cons, List.foldl_nil, List.flatMap_singleton]
  generalize (groupMatcher table).split text = pieces at hparts
  induction hparts with
  | nil => rfl
  | cons hpiece hparts ih =>
      rw [List.flatMap_cons, ih, Matcher.split_ofRegex, hpiece.split_eq, List.flatten_cons]

end CohereCommand

namespace PretokenizerType

variable (tables : UnicodeTables)

/-- `PretokenizerType::pretokenize`: the tokens of the iterator of a scheme. -/
def pretokenize (bytes : List UInt8) : PretokenizerType → Option (List (List UInt8))
  | gpt2 => pretokens (R50k.advancePos tables.classes) bytes bytes.length 0
  | gpt4 => pretokens (Cl100kFamily.advancePosCl100k tables.classes) bytes bytes.length 0
  | qwen2 => pretokens (Cl100kFamily.advancePosQwen2 tables.classes) bytes bytes.length 0
  | qwen35 =>
      pretokens (Cl100kFamily.advancePosQwen35 tables.deepSeek.toDsClassTable) bytes bytes.length 0
  | olmo3 => pretokens (Cl100kFamily.advancePosOlmo3 tables.classes) bytes bytes.length 0
  | deepSeekV3 => pretokens (DeepSeekV3.advancePos tables.deepSeek) bytes bytes.length 0
  | o200k => pretokens (O200kFamily.advancePos tables.command.toO200kTable O200kFamily.o200k) bytes
      bytes.length 0
  | nemotron => pretokens (O200kFamily.advancePos tables.command.toO200kTable O200kFamily.nemotron)
      bytes bytes.length 0
  | kimi => pretokens (O200kFamily.advancePos tables.command.toO200kTable O200kFamily.kimi) bytes
      bytes.length 0
  | cohereCommand => CohereCommand.pretokens tables.command bytes

/-- The regexes of a scheme. -/
def matchers : PretokenizerType → List (Matcher Char)
  | gpt2 => [.ofRegex (R50k.regex tables.classes)]
  | gpt4 => [.ofRegex (Cl100kFamily.cl100k tables.classes).regex]
  | qwen2 => [.ofRegex (Cl100kFamily.qwen2 tables.classes).regex]
  | qwen35 => [.ofRegex (Cl100kFamily.qwen35 tables.deepSeek.toDsClassTable).regex]
  | olmo3 => [.ofRegex (Cl100kFamily.olmo3 tables.classes).regex]
  | deepSeekV3 => [.ofRegex (DeepSeekV3.split1 tables.deepSeek), .ofRegex DeepSeekV3.split2,
      .ofRegex (DeepSeekV3.split3 tables.deepSeek)]
  | o200k => [.ofRegex (O200kFamily.regex tables.command.toO200kTable O200kFamily.o200k)]
  | nemotron => [.ofRegex (O200kFamily.regex tables.command.toO200kTable O200kFamily.nemotron)]
  | kimi => [.ofRegex (O200kFamily.regex tables.command.toO200kTable O200kFamily.kimi)]
  | cohereCommand =>
      [CohereCommand.groupMatcher tables.command, .ofRegex (CohereCommand.o200kRegex tables.command)]

/-- The pieces of a text. -/
def pieces (scheme : PretokenizerType) (text : List Char) : List (List Char) :=
  Matcher.splitAll (scheme.matchers tables) text

variable {tables}

/-- A scanner that implements a regex. -/
lemma pretokens_split {r : Regex Char} {advance : List UInt8 → ℕ → Option ℕ}
    (h : Scans r advance) (text : List Char) :
    pretokens advance (textBytes text) (textBytes text).length 0 =
      some ((Matcher.splitAll [.ofRegex r] text).map textBytes) := by
  obtain ⟨pieces, hpieces, hwalk⟩ := h.pretokens_eq text
  rw [hwalk, Matcher.splitAll_ofRegex, hpieces.split_eq]

/-- The tokens of a scheme are the pieces of its regexes. -/
theorem pretokenize_eq (tables : UnicodeTables) (scheme : PretokenizerType) (text : List Char) :
    scheme.pretokenize tables (textBytes text) = some ((scheme.pieces tables text).map textBytes) := by
  cases scheme with
  | gpt2 => exact pretokens_split (R50k.scans _) text
  | gpt4 => exact pretokens_split (Cl100kFamily.scans (Cl100kFamily.cl100k _)) text
  | qwen2 => exact pretokens_split (Cl100kFamily.scans (Cl100kFamily.qwen2 _)) text
  | qwen35 => exact pretokens_split (Cl100kFamily.scans (Cl100kFamily.qwen35 _)) text
  | olmo3 => exact pretokens_split (Cl100kFamily.scans (Cl100kFamily.olmo3 _)) text
  | deepSeekV3 =>
      obtain ⟨pieces, rfl, hwalk⟩ := DeepSeekV3.exists_referenceTokens tables.deepSeek text
      refine hwalk.trans (congrArg some (congrArg (List.map textBytes) ?_))
      simp only [pieces, matchers, Matcher.splitAll, List.foldl_cons, List.foldl_nil,
        List.flatMap_singleton, Matcher.split_ofRegex, DeepSeekV3.referenceTokens]
  | o200k => exact pretokens_split (O200kFamily.scans _ _) text
  | nemotron => exact pretokens_split (O200kFamily.scans _ _) text
  | kimi => exact pretokens_split (O200kFamily.scans _ _) text
  | cohereCommand =>
      obtain ⟨tokens, htokens, hspans⟩ := CohereCommand.exists_tokenSpans tables.command text
      have hat : At (textBytes text) 0 tokens.flatten := by
        rw [htokens.flatten.1]
        exact at_zero text
      rw [pretokenize, CohereCommand.pretokens, hspans, Option.bind_eq_bind, Option.bind_some,
        CohereCommand.map_spans hat, pieces, matchers, htokens.splitAll_eq]
      rfl

end PretokenizerType

/-! ### The classes of ASCII -/

/-- `ds_class_of` of ASCII. -/
def asciiDsClass (cp : ℕ) : DsCharClass :=
  match asciiClass cp with
  | .letter => .letter
  | .number => .number
  | .whitespace => .whitespace
  | .other =>
      if cp < 0x80 ∧ DeepSeekV3.isAsciiPunctuation (UInt8.ofNat cp) = true then .punctSym
      else .other

lemma asciiDsClass_of_le {cp : ℕ} (h : 0x80 ≤ cp) : asciiDsClass cp = .other := by
  have hother : asciiClass cp = .other := by
    rw [asciiClass, if_neg (by omega), if_neg (by omega), if_neg (by omega)]
  rw [asciiDsClass, hother]
  exact if_neg fun h' => absurd h'.1 (Nat.not_lt.mpr h)

lemma asciiDsClass_ascii : ∀ cp < 0x80, asciiDsClass cp ≠ .mark ∧
    (asciiDsClass cp).join = asciiClass cp := by decide +kernel

lemma asciiDsClass_punct : ∀ cp < 0x80, asciiDsClass cp = .punctSym ↔
    DeepSeekV3.isAsciiPunctuation (UInt8.ofNat cp) = true := by decide +kernel

lemma asciiDsClass_cjk (cp : ℕ) (h : DeepSeekV3.isDeepseekCjk cp = true) :
    asciiDsClass cp ≠ .number ∧ asciiDsClass cp ≠ .whitespace := by
  simp only [DeepSeekV3.isDeepseekCjk, Bool.or_eq_true, Bool.and_eq_true, decide_eq_true_eq] at h
  rw [asciiDsClass_of_le (by omega)]
  decide

lemma asciiCommandClass_decimal (cp : ℕ) (h : asciiCommandClass cp = .decimal) :
    asciiO200kClass cp = .number := by
  rw [asciiCommandClass] at h
  split_ifs at h with hdigit
  rw [asciiO200kClass, if_neg (by omega), if_neg (by omega), if_pos hdigit]

lemma longSClass_ascii :
    ∀ cp < 0x80, (if cp = 0x17f then CharClass.letter else asciiClass cp) = asciiClass cp :=
  fun cp hcp => if_neg (by omega)

/-- The classes of ASCII, and `U+017F`. -/
def asciiTables : UnicodeTables where
  classes := ⟨fun cp => if cp = 0x17f then .letter else asciiClass cp, longSClass_ascii⟩
  longS := rfl
  deepSeek := ⟨⟨asciiDsClass, asciiDsClass_ascii⟩, asciiDsClass_punct, asciiDsClass_cjk⟩
  command := ⟨⟨asciiO200kClass, fun _ => false, fun _ _ => ⟨rfl, rfl⟩,
    fun _ h => absurd h Bool.false_ne_true⟩, asciiCommandClass, fun _ _ => rfl,
    asciiCommandClass_decimal⟩

end Hypertok
