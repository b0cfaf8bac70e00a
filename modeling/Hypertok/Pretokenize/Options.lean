import Hypertok.Machine.Utf8

/-!
`PretokenizerType`: the schemes, and the regexes that `from_split_regexes` selects them by.

* `SplitPattern`: the texts of the regexes.
* `fromSplitRegex`, `fromSplitRegexes`: the scheme of a regex, and of a list of them.
-/

namespace Hypertok

/-- `PretokenizerType`. -/
inductive PretokenizerType
  | gpt2
  | gpt4
  | qwen2
  | qwen35
  | olmo3
  | deepSeekV3
  | o200k
  | nemotron
  | kimi
  | cohereCommand
  deriving DecidableEq

/-! ### The texts -/

namespace SplitPattern

/-- `RIGHT_GROUP_DIGITS`, and the first regex of `CohereCommand`. -/
def rightGroupDigits : String := r"\d{1,3}(?=(?:\d{3})*\b)"

/-- `O200K`, and the regex of `O200k`. -/
def o200k : String :=
  r"[^\r\n\p{L}\p{N}]?[\p{Lu}\p{Lt}\p{Lm}\p{Lo}\p{M}]*[\p{Ll}\p{Lm}\p{Lo}\p{M}]+" ++
    r"(?i:'s|'t|'re|'ve|'m|'ll|'d)?|" ++
    r"[^\r\n\p{L}\p{N}]?[\p{Lu}\p{Lt}\p{Lm}\p{Lo}\p{M}]+[\p{Ll}\p{Lm}\p{Lo}\p{M}]*" ++
    r"(?i:'s|'t|'re|'ve|'m|'ll|'d)?|\p{N}{1,3}| ?[^\s\p{L}\p{N}]+[\r\n/]*|" ++
    r"\s*[\r\n]+|\s+(?!\S)|\s+"

/-- `LLAMA3_CL100K`, and the regex of `Olmo3`. -/
def llama3Cl100k : String :=
  r"(?i:'s|'t|'re|'ve|'m|'ll|'d)|[^\r\n\p{L}\p{N}]?\p{L}+|\p{N}{1,3}|" ++
    r" ?[^\s\p{L}\p{N}]+[\r\n]*|\s*[\r\n]+|\s+(?!\S)|\s+"

/-- `QWEN35`, and the regex of `Qwen35`. -/
def qwen35 : String :=
  r"(?i:'s|'t|'re|'ve|'m|'ll|'d)|[^\r\n\p{L}\p{N}]?[\p{L}\p{M}]+|\p{N}|" ++
    r" ?[^\s\p{L}\p{M}\p{N}]+[\r\n]*|\s*[\r\n]+|\s+(?!\S)|\s+"

/-- `NEMOTRON`, and the regex of `Nemotron`. -/
def nemotron : String :=
  r"[^\r\n\p{L}\p{N}]?[\p{Lu}\p{Lt}\p{Lm}\p{Lo}\p{M}]*[\p{Ll}\p{Lm}\p{Lo}\p{M}]+|" ++
    r"[^\r\n\p{L}\p{N}]?[\p{Lu}\p{Lt}\p{Lm}\p{Lo}\p{M}]+[\p{Ll}\p{Lm}\p{Lo}\p{M}]*|" ++
    r"\p{N}| ?[^\s\p{L}\p{N}]+[\r\n/]*|\s*[\r\n]+|\s+(?!\S)|\s+"

/-- The first regex of `DEEPSEEK` and of `DEEPSEEK_V3_SPLIT_REGEXES`. -/
def deepSeekNumbers : String := r"\p{N}{1,3}"

/-- The second one. -/
def deepSeekCjk : String := "[\u4e00-\u9fa5\u3040-\u309f\u30a0-\u30ff]+"

/-- The third one; its newlines are characters. -/
def deepSeekMain : String :=
  "[!\"#$%&'()*+,\\-./:;<=>?@\\[\\\\\\]^_`{|}~][A-Za-z]+|" ++
    "[^\r\n\\p{L}\\p{P}\\p{S}]?[\\p{L}\\p{M}]+| ?[\\p{P}\\p{S}]+[\r\n]*|" ++
    "\\s*[\r\n]+|\\s+(?!\\S)|\\s+"

/-- The regex of `GPT2`. -/
def gpt2 : String :=
  r"'(?:[sdmt]|ll|ve|re)| ?\p{L}+| ?\p{N}+| ?[^\s\p{L}\p{N}]+|\s+(?!\S)|\s+"

/-- The first regex of `GPT4`. -/
def gpt4 : String :=
  r"'(?i:[sdmt]|ll|ve|re)|[^\r\n\p{L}\p{N}]?+\p{L}++|\p{N}{1,3}+|" ++
    r" ?[^\s\p{L}\p{N}]++[\r\n]*+|\s++$|\s*[\r\n]|\s+(?!\S)|\s+"

/-- The second regex of `GPT4`. -/
def gpt4Newline : String :=
  r"(?i:'s|'t|'re|'ve|'m|'ll|'d)|[^\r\n\p{L}\p{N}]?\p{L}+|\p{N}{1,3}|" ++
    r" ?[^\s\p{L}\p{N}]+[\r\n]*|\s*[\r\n]|\s+(?!\S)|\s+"

/-- The regex of `Qwen2`. -/
def qwen2 : String :=
  r"(?i:'s|'t|'re|'ve|'m|'ll|'d)|[^\r\n\p{L}\p{N}]?\p{L}+|\p{N}|" ++
    r" ?[^\s\p{L}\p{N}]+[\r\n]*|\s*[\r\n]+|\s+(?!\S)|\s+"

end SplitPattern

namespace PretokenizerType

/-- `PretokenizerType::from_split_regex`. -/
def fromSplitRegex (pattern : String) : Option PretokenizerType :=
  if pattern = SplitPattern.gpt2 then some .gpt2
  else if pattern = SplitPattern.gpt4 ∨ pattern = SplitPattern.gpt4Newline then some .gpt4
  else if pattern = SplitPattern.qwen2 then some .qwen2
  else if pattern = SplitPattern.qwen35 then some .qwen35
  else if pattern = SplitPattern.llama3Cl100k then some .olmo3
  else if pattern = SplitPattern.o200k then some .o200k
  else if pattern = SplitPattern.nemotron then some .nemotron
  else none

/-- `PretokenizerType::from_split_regexes`. -/
def fromSplitRegexes : List String → Option PretokenizerType
  | [p] => fromSplitRegex p
  | patterns =>
      if patterns = [SplitPattern.deepSeekNumbers, SplitPattern.deepSeekCjk,
        SplitPattern.deepSeekMain] then some .deepSeekV3
      else match patterns with
        | [digits, main] =>
            if digits = SplitPattern.rightGroupDigits ∧ fromSplitRegex main = some .o200k then
              some .cohereCommand
            else none
        | _ => none

end PretokenizerType

end Hypertok
