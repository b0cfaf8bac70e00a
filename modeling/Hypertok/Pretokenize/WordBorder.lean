import Hypertok.Machine.Border
import Hypertok.Pretokenize.Schemes

/-!
No token of any scheme crosses the border between an alphanumeric character of ASCII and a space.

* `IsWordAscii`: the letters and the digits of ASCII.
* `pieces_border`: the pieces of the ten schemes on both sides of such a border.
-/

namespace Hypertok

open Machine Regex

/-- A letter or a digit of ASCII. -/
structure IsWordAscii (e : Char) : Prop where
  lt : e.toNat < 0x80
  class_eq : asciiClass e.toNat = .letter ∨ asciiClass e.toNat = .number

/-- The classes on both sides of the border. -/
structure Bordered (table : ClassTable) (e : Char) : Prop where
  space : table.isA .whitespace e = false
  letter_space : table.isA .letter ' ' = false
  number_space : table.isA .number ' ' = false
  other_space : table.isA .other ' ' = false
  whitespace_space : table.isA .whitespace ' ' = true

variable {e : Char} {table : ClassTable}

lemma IsWordAscii.bordered (h : IsWordAscii e) (table : ClassTable) : Bordered table e where
  space := by
    rw [ClassTable.isA, table.ascii _ h.lt]
    obtain hcls | hcls := h.class_eq <;> rw [hcls] <;> rfl
  letter_space := isA_eq (classOf_space table) .letter
  number_space := isA_eq (classOf_space table) .number
  other_space := isA_eq (classOf_space table) .other
  whitespace_space := isA_eq (classOf_space table) .whitespace

/-! ### The expressions that the schemes share -/

namespace Bordered

lemma local_plusSpaces (h : Bordered table e) : Local e ' ' (plus (oneOf table .whitespace)) :=
  ⟨trivial, ⟨trivial, .inl h.space⟩, .inl h.space⟩

lemma local_spacesBefore (h : Bordered table e) : Local e ' ' (spacesBefore table) :=
  ⟨h.local_plusSpaces, trivial, .inl ⟨h.space, h.space⟩⟩

lemma local_spacesQwen2 (h : Bordered table e) :
    Local e ' ' (anyOf (Cl100kFamily.spacesQwen2 table)) :=
  ⟨.seq_idle ⟨trivial, .inl h.space⟩ ⟨rfl, rfl⟩, h.local_spacesBefore, h.local_plusSpaces, trivial⟩

lemma local_spacesCl100k (h : Bordered table e) :
    Local e ' ' (anyOf (Cl100kFamily.spacesCl100k table)) :=
  ⟨⟨h.local_plusSpaces, trivial, .inl ⟨h.space, h.space⟩⟩, .seq_idle ⟨trivial, .inl h.space⟩ rfl,
    h.local_spacesBefore, h.local_plusSpaces, trivial⟩

lemma noneOf_space (h : Bordered table e) :
    (!(table.isA .whitespace ' ' || table.isA .letter ' ' || table.isA .number ' ')) = false := by
  rw [h.whitespace_space]
  rfl

lemma idle_upToThree (h : Bordered table e) : Idle ' ' (Cl100kFamily.upToThree table) :=
  ⟨h.number_space, ⟨h.number_space, ⟨h.number_space, trivial⟩, trivial⟩, trivial⟩

end Bordered

lemma idle_contractionLetters : Idle ' ' (contractionLetters id) :=
  ⟨⟨rfl, rfl, rfl, rfl, rfl⟩, ⟨rfl, rfl⟩, ⟨rfl, rfl⟩, ⟨rfl, rfl⟩, rfl⟩

lemma idle_quoteLetters : Idle ' ' Cl100kFamily.quoteLetters :=
  ⟨rfl, ⟨rfl, rfl, rfl, rfl, rfl⟩, ⟨rfl, rfl⟩, ⟨rfl, rfl⟩, ⟨rfl, rfl⟩, rfl⟩

lemma idle_quotedLetters : Idle ' ' Cl100kFamily.quotedLetters :=
  ⟨⟨rfl, rfl⟩, ⟨rfl, rfl⟩, ⟨rfl, rfl, rfl⟩, ⟨rfl, rfl, rfl⟩, ⟨rfl, rfl⟩, ⟨rfl, rfl, rfl⟩,
    ⟨rfl, rfl⟩, rfl⟩

lemma R50k.local_regex (h : Bordered table e) : Local e ' ' (R50k.regex table) :=
  ⟨Idle.local ⟨rfl, idle_contractionLetters⟩,
    .seq_idle ⟨trivial, trivial⟩ ⟨h.letter_space, h.letter_space⟩,
    .seq_idle ⟨trivial, trivial⟩ ⟨h.number_space, h.number_space⟩,
    .seq_idle ⟨trivial, trivial⟩ ⟨h.noneOf_space, h.noneOf_space⟩, h.local_spacesBefore,
    h.local_plusSpaces, trivial⟩

/-! ### The cl100k family -/

namespace Cl100kFamily

lemma Scheme.local_regex {number : List UInt8 → ℕ → Option ℕ} {endFirst : Bool}
    {scheme : Scheme table number endFirst} (hcontraction : Idle ' ' scheme.contraction)
    (hword : Local e ' ' scheme.word) (hnumbers : Idle ' ' scheme.numbers)
    (hpunctuation : Local e ' ' scheme.punctuation) (hspaces : Local e ' ' (anyOf scheme.spaces)) :
    Local e ' ' scheme.regex :=
  ⟨hcontraction.local, hword, hnumbers.local, hpunctuation, hspaces⟩

lemma local_cl100k (h : Bordered table e) : Local e ' ' (cl100k table).regex :=
  Scheme.local_regex idle_quoteLetters
    (.seq_idle ⟨trivial, trivial⟩ ⟨h.letter_space, h.letter_space⟩) h.idle_upToThree
    (.seq_idle ⟨trivial, trivial⟩ ⟨⟨h.noneOf_space, h.noneOf_space⟩, rfl⟩) h.local_spacesCl100k

lemma local_olmo3 (h : Bordered table e) : Local e ' ' (olmo3 table).regex :=
  Scheme.local_regex idle_quotedLetters
    (.seq_idle ⟨trivial, trivial⟩ ⟨h.letter_space, h.letter_space⟩) h.idle_upToThree
    (.seq_idle ⟨trivial, trivial⟩ ⟨⟨h.noneOf_space, h.noneOf_space⟩, rfl⟩) h.local_spacesQwen2

lemma local_qwen2 (h : Bordered table e) : Local e ' ' (qwen2 table).regex :=
  Scheme.local_regex idle_quotedLetters
    (.seq_idle ⟨trivial, trivial⟩ ⟨h.letter_space, h.letter_space⟩) h.number_space
    (.seq_idle ⟨trivial, trivial⟩ ⟨⟨h.noneOf_space, h.noneOf_space⟩, rfl⟩) h.local_spacesQwen2

lemma local_qwen35 {table : DsClassTable} (h : Bordered table.marksJoin e) :
    Local e ' ' (qwen35 table).regex := by
  have hword : Idle ' ' (plus (letterOrMark table)) := by
    rw [letterOrMark_eq]
    exact ⟨h.letter_space, h.letter_space⟩
  have hother : Idle ' ' (plus (noMark table)) := by
    rw [noMark_eq]
    exact ⟨h.noneOf_space, h.noneOf_space⟩
  exact Scheme.local_regex idle_quotedLetters (.seq_idle ⟨trivial, trivial⟩ hword) h.number_space
    (.seq_idle ⟨trivial, trivial⟩ ⟨hother, rfl⟩) h.local_spacesQwen2

end Cl100kFamily

/-! ### The o200k family -/

namespace O200kFamily

variable {table : O200kTable}

lemma isA_space (table : O200kTable) (cls : O200kCharClass) :
    table.isA cls ' ' = decide (.whitespace = cls) := by
  have hspace : table.classOf ' '.toNat = .whitespace := (table.ascii _ (by decide)).1
  rw [O200kTable.isA, hspace]

lemma isUlc_space (table : O200kTable) (han : Bool) : isUlc table han ' ' = false := by
  rw [isUlc, isA_space, isA_space, isA_space]
  rfl

lemma isLlc_space (table : O200kTable) (han : Bool) : isLlc table han ' ' = false := by
  rw [isLlc, isA_space, isA_space, isA_space]
  rfl

lemma idle_suffix (contractions : Bool) : Idle ' ' (suffix contractions) := by
  cases contractions with
  | false => trivial
  | true => exact ⟨idle_quotedLetters, trivial⟩

lemma idle_numbers (h : Bordered table.base e) (o : Flags) : Idle ' ' (numbers table o) := by
  rw [numbers]
  split_ifs
  · exact h.idle_upToThree
  · exact h.number_space

lemma isTailChar_space (slash : Bool) : isTailChar slash ' ' = false := by cases slash <;> rfl

lemma local_regex (h : Bordered table.base e) (o : Flags) : Local e ' ' (regex table o) := by
  have hrest : Local e ' ' (anyOf (mixedWord table o :: upperWord table o :: numbers table o ::
      punctuation table o :: Cl100kFamily.spacesQwen2 table.base)) :=
    ⟨.seq_idle ⟨trivial, trivial⟩ ⟨isUlc_space table _,
        ⟨isLlc_space table _, isLlc_space table _⟩, idle_suffix _⟩,
      .seq_idle ⟨trivial, trivial⟩ ⟨⟨isUlc_space table _, isUlc_space table _⟩,
        isLlc_space table _, idle_suffix _⟩,
      (idle_numbers h o).local,
      .seq_idle ⟨trivial, trivial⟩ ⟨⟨h.noneOf_space, h.noneOf_space⟩, isTailChar_space _⟩,
      h.local_spacesQwen2⟩
  rw [regex, hanRun]
  split_ifs
  · exact ⟨Idle.local ⟨not_han_ascii (by decide), not_han_ascii (by decide)⟩, hrest⟩
  · exact hrest

end O200kFamily

/-! ### The schemes with more than one split -/

namespace DeepSeekV3

variable {table : DeepSeekTable}

lemma isA_space (table : DeepSeekTable) (cls : DsCharClass) :
    table.isA cls ' ' = decide (.whitespace = cls) := by
  have hspace : table.classOf ' '.toNat = .whitespace := by
    have hjoin : (table.classOf ' '.toNat).join = .whitespace := (table.ascii _ (by decide)).2
    cases hcls : table.classOf ' '.toNat <;> rw [hcls] at hjoin <;> first | rfl | cases hjoin
  exact DsClassTable.isA_eq hspace cls

lemma local_split1 (h : Bordered table.marksJoin e) : Local e ' ' (split1 table) :=
  h.idle_upToThree.local

lemma local_split2 : Local e ' ' split2 := Idle.local ⟨rfl, rfl⟩

lemma local_split3 (h : Bordered table.marksJoin e) : Local e ' ' (split3 table) := by
  have hlm : isLmChar table ' ' = false := by
    rw [isLmChar, isA_space, isA_space]
    rfl
  have hpunct : table.isA .punctSym ' ' = false := isA_space table _
  exact ⟨.seq_idle trivial ⟨rfl, rfl⟩, .seq_idle ⟨trivial, trivial⟩ ⟨hlm, hlm⟩,
    .seq_idle ⟨trivial, trivial⟩ ⟨⟨hpunct, hpunct⟩, rfl⟩, h.local_spacesQwen2⟩

end DeepSeekV3

namespace CohereCommand

variable {table : CommandTable}

lemma isDecimal_space (table : CommandTable) : isDecimal table ' ' = false := by
  rw [isDecimal, table.commandAscii _ (by decide)]
  rfl

lemma isWord_space (table : CommandTable) : isWord table ' ' = false := by
  rw [isWord, table.commandAscii _ (by decide)]
  rfl

lemma local_group (table : CommandTable) : Local e ' ' (group table) := by
  have h := isDecimal_space table
  have hthree : Idle ' ' (upToThree table) := ⟨h, ⟨h, ⟨h, trivial⟩, trivial⟩, trivial⟩
  exact .seq_idle hthree.local ⟨⟨h, h, h⟩, isWord_space table⟩

end CohereCommand

namespace PretokenizerType

variable {tables : UnicodeTables}

/-- The matchers of a scheme split as regular expressions do. -/
lemma exists_regexes (tables : UnicodeTables) (scheme : PretokenizerType) :
    ∃ rs : List (Regex Char), (scheme.matchers tables).map Matcher.split = rs.map split := by
  have hgroup : (CohereCommand.groupMatcher tables.command).split =
      split (CohereCommand.group tables.command) :=
    funext (Matcher.split_eq (CohereCommand.first_groupMatcher _))
  cases scheme with
  | cohereCommand =>
      refine ⟨[CohereCommand.group tables.command, CohereCommand.o200kRegex tables.command], ?_⟩
      simp [matchers, hgroup, Matcher.split_ofRegex]
  | deepSeekV3 =>
      refine ⟨[DeepSeekV3.split1 tables.deepSeek, DeepSeekV3.split2,
        DeepSeekV3.split3 tables.deepSeek], ?_⟩
      simp [matchers, Matcher.split_ofRegex]
  | _ => exact ⟨[_], congrArg (fun f => [f]) (Matcher.split_ofRegex _)⟩

/-- The pieces are the text. -/
theorem flatten_pieces (tables : UnicodeTables) (scheme : PretokenizerType) (x : List Char) :
    (scheme.pieces tables x).flatten = x := by
  obtain ⟨rs, hrs⟩ := exists_regexes tables scheme
  rw [pieces, splitAll_eq_splitThrough hrs, flatten_splitThrough, List.flatten_singleton]

/-- No piece is empty. -/
theorem ne_nil_of_mem_pieces (tables : UnicodeTables) (scheme : PretokenizerType) (x : List Char) :
    ∀ y ∈ scheme.pieces tables x, y ≠ [] := by
  obtain ⟨rs, hrs⟩ := exists_regexes tables scheme
  have hne : rs ≠ [] := by
    rintro rfl
    have hmatchers := List.map_eq_nil_iff.mp hrs
    cases scheme <;> cases hmatchers
  rw [pieces, splitAll_eq_splitThrough hrs]
  exact ne_nil_of_mem_splitThrough hne

lemma pieces_nil (tables : UnicodeTables) (scheme : PretokenizerType) :
    scheme.pieces tables [] = [] := by
  have hsplit : ∀ m : Matcher Char, m.split [] = [] := fun m => by
    rw [Matcher.split, Matcher.isolate, gapPieces]
  cases scheme <;> simp [pieces, matchers, Matcher.splitAll, hsplit]

lemma starts_of_first {r : Regex Char} {c : Char} {t rest : List Char}
    (h : first r (c :: t) = some rest) (hlen : rest.length ≤ t.length) : Starts r (c :: t) := by
  obtain ⟨piece, hne, hpiece, -⟩ := split_of_first h hlen
  exact ⟨piece, rest, hne, hpiece, h⟩

/-- A scanner ends a token at every character. -/
lemma starts_of_scans {r : Regex Char} {advance : List UInt8 → ℕ → Option ℕ} (h : Scans r advance)
    (c : Char) (t : List Char) : Starts r (c :: t) := by
  obtain ⟨q, rest, -, -, hfirst, hlen⟩ := h _ 0 c t (at_zero _)
  exact starts_of_first hfirst hlen

/-- The splits of a scheme with one regex. -/
lemma splitAll_scans {r : Regex Char} {advance : List UInt8 → ℕ → Option ℕ} (h : Scans r advance)
    (hr : Local e ' ' r) (u v : List Char) :
    Matcher.splitAll [.ofRegex r] (u ++ e :: ' ' :: v) =
      Matcher.splitAll [.ofRegex r] (u ++ [e]) ++ Matcher.splitAll [.ofRegex r] (' ' :: v) :=
  splitAll_border (show [Matcher.ofRegex r].map Matcher.split = [r].map split by
    simp [Matcher.split_ofRegex]) (by simpa using hr)
    ⟨r, List.mem_singleton_self r, starts_of_scans h e⟩ u v

/-- A digit is taken by the first split, a letter by the third. -/
lemma starts_deepSeek (he : IsWordAscii e) (table : DeepSeekTable) :
    ∃ r ∈ [DeepSeekV3.split1 table, DeepSeekV3.split2, DeepSeekV3.split3 table],
      ∀ x, Starts r (e :: x) := by
  obtain ⟨hmark, hjoin⟩ := table.ascii _ he.lt
  obtain hcls | hcls := he.class_eq
  · refine ⟨DeepSeekV3.split3 table, by simp, fun x => ?_⟩
    have hlm : DeepSeekV3.isLmChar table e = true := by
      rw [hcls] at hjoin
      cases hds : table.classOf e.toNat <;> rw [hds] at hjoin hmark <;>
        first | (rw [DeepSeekV3.isLmChar, DsClassTable.isA_eq hds]; rfl) | cases hjoin
      exact absurd rfl hmark
    exact starts_of_first (DeepSeekV3.first_of_lm hlm) (List.length_dropWhile_le _ _)
  · refine ⟨DeepSeekV3.split1 table, by simp, fun x => ?_⟩
    have hnumber : table.isA .number e = true := by
      rw [hcls] at hjoin
      cases hds : table.classOf e.toNat <;> rw [hds] at hjoin <;>
        first | exact DsClassTable.isA_eq hds _ | cases hjoin
    refine starts_of_first ((DeepSeekV3.first_split1 table e x).trans (if_pos hnumber)) ?_
    exact Cl100kFamily.length_dropNumbers_le _ _ _

/-- No piece crosses the border. -/
theorem pieces_border (tables : UnicodeTables) (scheme : PretokenizerType) (he : IsWordAscii e)
    (u v : List Char) : scheme.pieces tables (u ++ e :: ' ' :: v) =
      scheme.pieces tables (u ++ [e]) ++ scheme.pieces tables (' ' :: v) := by
  have h := he.bordered
  cases scheme with
  | gpt2 => exact splitAll_scans (R50k.scans _) (R50k.local_regex (h _)) u v
  | gpt4 => exact splitAll_scans (Cl100kFamily.scans _) (Cl100kFamily.local_cl100k (h _)) u v
  | qwen2 => exact splitAll_scans (Cl100kFamily.scans _) (Cl100kFamily.local_qwen2 (h _)) u v
  | qwen35 => exact splitAll_scans (Cl100kFamily.scans _) (Cl100kFamily.local_qwen35 (h _)) u v
  | olmo3 => exact splitAll_scans (Cl100kFamily.scans _) (Cl100kFamily.local_olmo3 (h _)) u v
  | o200k | nemotron | kimi =>
      exact splitAll_scans (O200kFamily.scans _ _) (O200kFamily.local_regex (h _) _) u v
  | deepSeekV3 =>
      refine splitAll_border (by simp [matchers, Matcher.split_ofRegex]) ?_
        (starts_deepSeek he tables.deepSeek) u v
      rintro r hr
      simp only [List.mem_cons, List.not_mem_nil, or_false] at hr
      obtain rfl | rfl | rfl := hr
      · exact DeepSeekV3.local_split1 (h _)
      · exact DeepSeekV3.local_split2
      · exact DeepSeekV3.local_split3 (h _)
  | cohereCommand =>
      have hgroup : (CohereCommand.groupMatcher tables.command).split =
          split (CohereCommand.group tables.command) :=
        funext (Matcher.split_eq (CohereCommand.first_groupMatcher _))
      have hsplits : (matchers tables .cohereCommand).map Matcher.split =
          [CohereCommand.group tables.command, CohereCommand.o200kRegex tables.command].map
            split := by
        simp [matchers, hgroup, Matcher.split_ofRegex]
      refine splitAll_border hsplits ?_
        ⟨CohereCommand.o200kRegex tables.command, by simp,
          starts_of_scans (O200kFamily.scans _ _) e⟩ u v
      rintro r hr
      simp only [List.mem_cons, List.not_mem_nil, or_false] at hr
      obtain rfl | rfl := hr
      · exact CohereCommand.local_group _
      · exact O200kFamily.local_regex (h _) _

end PretokenizerType

end Hypertok
