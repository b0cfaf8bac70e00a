import Hypertok.Load.Cursors
import Hypertok.Pretokenize.Schemes
import Hypertok.Pretokenize.SpacesEnd

/-!
The `Split` regexes of a `tokenizer.json`: the converter writes the name of a pattern for them, and
the loader of the image selects a scheme by the name. `from_split_regexes` selects a scheme by the
regexes themselves.

* `identifyNamedPattern`: the name of a list of regexes.
* `splitTokens`: the pieces of the splits that a list of texts stands for.
* `pretokenize_fromSplitRegexes`: the scheme that `from_split_regexes` selects gives these pieces.
* `identifyNamedPattern_preserves`: the scheme of the name does too, but for one regex, whose name
  selects a scanner with another rule for the spaces at the end.
-/

namespace Hypertok

open Machine Regex

/-! ### The names -/

/-- `identify_named_pattern`. -/
def identifyNamedPattern (regexes : List String) : Option NamedPattern :=
  if regexes = [SplitPattern.o200k] then some .o200kBase
  else if regexes = [SplitPattern.llama3Cl100k] then some .cl100kBase
  else if regexes = [SplitPattern.qwen35] then some .qwen35
  else if regexes = [SplitPattern.nemotron] then some .nemotron
  else if regexes = [SplitPattern.rightGroupDigits, SplitPattern.o200k] then some .cohereCommand
  else if regexes = [SplitPattern.deepSeekNumbers, SplitPattern.deepSeekCjk,
    SplitPattern.deepSeekMain] then some .deepSeekV3
  else none

/-- The scheme that the loader of an image selects for a name. -/
def NamedPattern.scheme : NamedPattern → PretokenizerType
  | o200kBase => .o200k
  | qwen35 => .qwen35
  | nemotron => .nemotron
  | deepSeekV3 => .deepSeekV3
  | kimi => .kimi
  | gpt2 => .gpt2
  | cl100kBase => .gpt4
  | cohereCommand => .cohereCommand

lemma pretokenizerScheme_value (pattern : NamedPattern) :
    pretokenizerScheme (some pattern.value) = .ok pattern.scheme := by
  cases pattern <;> rfl

/-! ### The splits -/

/-- The regexes of the texts with a name. -/
inductive SplitRegex
  | rightGroupDigits
  | o200k
  | llama3Cl100k
  | qwen35
  | nemotron
  | deepSeekNumbers
  | deepSeekCjk
  | deepSeekMain
  deriving DecidableEq

namespace SplitRegex

/-- The regex of a text. -/
def ofText (regex : String) : Option SplitRegex :=
  if regex = SplitPattern.rightGroupDigits then some .rightGroupDigits
  else if regex = SplitPattern.o200k then some .o200k
  else if regex = SplitPattern.llama3Cl100k then some .llama3Cl100k
  else if regex = SplitPattern.qwen35 then some .qwen35
  else if regex = SplitPattern.nemotron then some .nemotron
  else if regex = SplitPattern.deepSeekNumbers then some .deepSeekNumbers
  else if regex = SplitPattern.deepSeekCjk then some .deepSeekCjk
  else if regex = SplitPattern.deepSeekMain then some .deepSeekMain
  else none

/-- What it matches. -/
def matcher (tables : UnicodeTables) : SplitRegex → Matcher Char
  | rightGroupDigits => CohereCommand.groupMatcher tables.command
  | o200k => .ofRegex (O200kFamily.regex tables.command.toO200kTable O200kFamily.o200k)
  | llama3Cl100k => .ofRegex (Cl100kFamily.olmo3 tables.classes).regex
  | qwen35 => .ofRegex (Cl100kFamily.qwen35 tables.deepSeek.toDsClassTable).regex
  | nemotron => .ofRegex (O200kFamily.regex tables.command.toO200kTable O200kFamily.nemotron)
  | deepSeekNumbers => .ofRegex (DeepSeekV3.split1 tables.deepSeek)
  | deepSeekCjk => .ofRegex DeepSeekV3.split2
  | deepSeekMain => .ofRegex (DeepSeekV3.split3 tables.deepSeek)

end SplitRegex

/-- The pieces of the splits at the regexes, one after the other. -/
def splitTokens (tables : UnicodeTables) (regexes : List String) (text : List Char) :
    Option (List (List Char)) := do
  return Matcher.splitAll ((← regexes.mapM SplitRegex.ofText).map (SplitRegex.matcher tables)) text

/-- The lists that have a name, and the scheme of their regexes. -/
inductive Named : List String → NamedPattern → PretokenizerType → Prop
  | o200k : Named [SplitPattern.o200k] .o200kBase .o200k
  | llama3Cl100k : Named [SplitPattern.llama3Cl100k] .cl100kBase .olmo3
  | qwen35 : Named [SplitPattern.qwen35] .qwen35 .qwen35
  | nemotron : Named [SplitPattern.nemotron] .nemotron .nemotron
  | cohereCommand :
      Named [SplitPattern.rightGroupDigits, SplitPattern.o200k] .cohereCommand .cohereCommand
  | deepSeek : Named [SplitPattern.deepSeekNumbers, SplitPattern.deepSeekCjk,
      SplitPattern.deepSeekMain] .deepSeekV3 .deepSeekV3

lemma exists_named {regexes : List String} {pattern : NamedPattern}
    (h : identifyNamedPattern regexes = some pattern) :
    ∃ scheme, Named regexes pattern scheme := by
  rw [identifyNamedPattern] at h
  split_ifs at h with h₁ h₂ h₃ h₄ h₅ h₆ <;> obtain rfl := Option.some_inj.mp h
  · exact ⟨_, h₁ ▸ Named.o200k⟩
  · exact ⟨_, h₂ ▸ Named.llama3Cl100k⟩
  · exact ⟨_, h₃ ▸ Named.qwen35⟩
  · exact ⟨_, h₄ ▸ Named.nemotron⟩
  · exact ⟨_, h₅ ▸ Named.cohereCommand⟩
  · exact ⟨_, h₆ ▸ Named.deepSeek⟩

lemma fromSplitRegexes_named {regexes : List String} {pattern : NamedPattern}
    {scheme : PretokenizerType} (h : Named regexes pattern scheme) :
    PretokenizerType.fromSplitRegexes regexes = some scheme := by
  cases h <;> decide +kernel

lemma splitTokens_named (tables : UnicodeTables) {regexes : List String} {pattern : NamedPattern}
    {scheme : PretokenizerType} (h : Named regexes pattern scheme) (text : List Char) :
    splitTokens tables regexes text = some (scheme.pieces tables text) := by
  have hread : ∃ splits, regexes.mapM SplitRegex.ofText = some splits ∧
      splits.map (SplitRegex.matcher tables) = scheme.matchers tables := by
    cases h with
    | o200k => exact ⟨[.o200k], by decide +kernel, rfl⟩
    | llama3Cl100k => exact ⟨[.llama3Cl100k], by decide +kernel, rfl⟩
    | qwen35 => exact ⟨[.qwen35], by decide +kernel, rfl⟩
    | nemotron => exact ⟨[.nemotron], by decide +kernel, rfl⟩
    | cohereCommand => exact ⟨[.rightGroupDigits, .o200k], by decide +kernel, rfl⟩
    | deepSeek =>
        exact ⟨[.deepSeekNumbers, .deepSeekCjk, .deepSeekMain], by decide +kernel, rfl⟩
  obtain ⟨splits, hsplits, hmatchers⟩ := hread
  rw [splitTokens, hsplits, Option.bind_eq_bind, Option.bind_some, hmatchers]
  rfl

/-- The scheme that `from_split_regexes` selects gives the pieces of the splits. -/
theorem pretokenize_fromSplitRegexes (tables : UnicodeTables) {regexes : List String}
    {pattern : NamedPattern} {scheme : PretokenizerType} (h : Named regexes pattern scheme)
    (text : List Char) : ∃ tokens, splitTokens tables regexes text = some tokens ∧
      scheme.pretokenize tables (textBytes text) = some (tokens.map textBytes) :=
  ⟨_, splitTokens_named tables h text, scheme.pretokenize_eq tables text⟩

/-- The scheme of the name is that of the regexes, but for one of them. -/
lemma Named.scheme_eq {regexes : List String} {pattern : NamedPattern} {scheme : PretokenizerType}
    (h : Named regexes pattern scheme) : regexes = [SplitPattern.llama3Cl100k] ∧
        pattern.scheme = .gpt4 ∧ scheme = .olmo3 ∨
      regexes ≠ [SplitPattern.llama3Cl100k] ∧ pattern.scheme = scheme := by
  cases h with
  | llama3Cl100k => exact .inl ⟨rfl, rfl, rfl⟩
  | _ => exact .inr ⟨by decide +kernel, rfl⟩

/-- The scanners of `cl100k.rs` and `olmo3.rs` give the same tokens just if no spaces at the end are
behind a newline. -/
lemma pieces_gpt4_eq_iff (tables : UnicodeTables) (text : List Char) :
    PretokenizerType.gpt4.pieces tables text = PretokenizerType.olmo3.pieces tables text ↔
      Cl100kFamily.spacesAfterNewline tables.classes text = false := by
  obtain ⟨pieces, hpieces, -⟩ :=
    (Cl100kFamily.scans (Cl100kFamily.cl100k tables.classes)).pretokens_eq text
  obtain ⟨pieces', hpieces', -⟩ :=
    (Cl100kFamily.scans (Cl100kFamily.olmo3 tables.classes)).pretokens_eq text
  rw [PretokenizerType.pieces, PretokenizerType.pieces, PretokenizerType.matchers,
    PretokenizerType.matchers, Matcher.splitAll_ofRegex, Matcher.splitAll_ofRegex,
    hpieces.split_eq, hpieces'.split_eq]
  exact Cl100kFamily.segments_eq_iff tables.longS hpieces hpieces'

/-- What the converter has to preserve: the scanner that the loader selects for the name gives the
pieces of the splits, and so does the one that `from_split_regexes` selects. -/
def PreservesSplits (tables : UnicodeTables) (regexes : List String) (pattern : NamedPattern)
    (text : List Char) : Prop :=
  ∃ tokens loaded scheme, splitTokens tables regexes text = some tokens ∧
    pretokenizerScheme (some pattern.value) = .ok loaded ∧
    loaded.pretokenize tables (textBytes text) = some (tokens.map textBytes) ∧
    PretokenizerType.fromSplitRegexes regexes = some scheme ∧
    scheme.pretokenize tables (textBytes text) = some (tokens.map textBytes)

/-- The name of a list of regexes preserves its splits, but for `LLAMA3_CL100K` in a text that ends
in spaces behind a newline. -/
theorem identifyNamedPattern_preserves (tables : UnicodeTables) (regexes : List String)
    (pattern : NamedPattern) (h : identifyNamedPattern regexes = some pattern)
    (text : List Char) : PreservesSplits tables regexes pattern text ↔
      ¬ (regexes = [SplitPattern.llama3Cl100k] ∧
        Cl100kFamily.spacesAfterNewline tables.classes text = true) := by
  obtain ⟨scheme, hnamed⟩ := exists_named h
  have htokens := splitTokens_named tables hnamed text
  have hiff : PreservesSplits tables regexes pattern text ↔
      pattern.scheme.pieces tables text = scheme.pieces tables text := by
    constructor
    · rintro ⟨tokens, loaded, scheme', hsplit, hloaded, hname, -⟩
      obtain rfl := Option.some_inj.mp (htokens.symm.trans hsplit)
      obtain rfl := Run.ok_inj.mp ((pretokenizerScheme_value pattern).symm.trans hloaded)
      rw [PretokenizerType.pretokenize_eq, Option.some_inj] at hname
      exact List.map_injective_iff.mpr (fun t t' => textBytes_inj) hname
    · intro heq
      refine ⟨_, _, scheme, htokens, pretokenizerScheme_value pattern, ?_,
        fromSplitRegexes_named hnamed, scheme.pretokenize_eq tables text⟩
      rw [PretokenizerType.pretokenize_eq, heq]
  rw [hiff]
  obtain ⟨hregexes, hname, rfl⟩ | ⟨hregexes, hname⟩ := hnamed.scheme_eq
  · rw [hname, pieces_gpt4_eq_iff, ← Bool.not_eq_true]
    exact not_congr (and_iff_right hregexes).symm
  · rw [hname]
    exact iff_of_true rfl fun h => hregexes h.1

/-! ### A newline before a space -/

/-- A text that ends in a newline. -/
theorem identifyNamedPattern_preserves_newline :
    PreservesSplits asciiTables [SplitPattern.llama3Cl100k] .cl100kBase ['a', '\n'] ↔
      ¬ ([SplitPattern.llama3Cl100k] = [SplitPattern.llama3Cl100k] ∧
        Cl100kFamily.spacesAfterNewline asciiTables.classes ['a', '\n'] = true) :=
  identifyNamedPattern_preserves asciiTables _ _ (by decide +kernel) _

/-- A newline and a space are one token of the scanner, and two pieces of the regex. -/
theorem identifyNamedPattern_newline_space :
    identifyNamedPattern [SplitPattern.llama3Cl100k] = some .cl100kBase ∧
    pretokenizerScheme (some NamedPattern.cl100kBase.value) = .ok .gpt4 ∧
    PretokenizerType.gpt4.pretokenize asciiTables [10, 32] = some [[10, 32]] ∧
    splitTokens asciiTables [SplitPattern.llama3Cl100k] ['\n', ' '] = some [['\n'], [' ']] ∧
    ¬ PreservesSplits asciiTables [SplitPattern.llama3Cl100k] .cl100kBase ['\n', ' '] := by
  have hbytes : textBytes ['\n', ' '] = [10, 32] := by decide
  have hone : PretokenizerType.gpt4.pretokenize asciiTables [10, 32] = some [[10, 32]] := by
    decide +kernel
  have htwo : PretokenizerType.olmo3.pretokenize asciiTables [10, 32] = some [[10], [32]] := by
    decide +kernel
  have hpieces : PretokenizerType.olmo3.pieces asciiTables ['\n', ' '] = [['\n'], [' ']] := by
    have heq := PretokenizerType.olmo3.pretokenize_eq asciiTables ['\n', ' ']
    rw [hbytes, htwo, Option.some_inj] at heq
    have hmap : [[(10 : UInt8)], [32]] = [['\n'], [' ']].map textBytes := by decide
    exact List.map_injective_iff.mpr (fun t t' => textBytes_inj) (heq.symm.trans hmap)
  have hsplit := splitTokens_named asciiTables Named.llama3Cl100k ['\n', ' ']
  rw [hpieces] at hsplit
  refine ⟨by decide +kernel, rfl, hone, hsplit, ?_⟩
  rintro ⟨tokens, loaded, scheme, htokens, hloaded, hname, -⟩
  obtain rfl := Option.some_inj.mp (hsplit.symm.trans htokens)
  obtain rfl := Run.ok_inj.mp hloaded
  rw [hbytes, hone] at hname
  exact absurd hname (by decide)

end Hypertok
