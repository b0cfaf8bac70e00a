import Hypertok.Pretokenize.Family

/-!
The regexes of `cl100k.rs`, `olmo3.rs`, `qwen2.rs` and `qwen3_5.rs`, and their scanners.

* `cl100k`, `olmo3`, `qwen2`, `qwen35`: the schemes, each with its regex.
* `segmentation_family`: the walk from position 0 gives the matches of the regex, for the four of
  them.
-/

namespace Hypertok

namespace Cl100kFamily

open Machine Regex

variable {table : ClassTable} {c : Char} {t : List Char}

/-! ### The alternatives -/

section

variable (table : ClassTable)

/-- `'(?i:[sdmt]|ll|ve|re)`. -/
def quoteLetters : Regex Char := seq (lit '\'') (contractionLetters foldCase)

/-- `(?i:'s|'t|'re|'ve|'m|'ll|'d)`. -/
def quotedLetters : Regex Char :=
  anyOf [seq (lit '\'') (folded foldCase 's'), seq (lit '\'') (folded foldCase 't'),
    seq (lit '\'') (seq (folded foldCase 'r') (folded foldCase 'e')),
    seq (lit '\'') (seq (folded foldCase 'v') (folded foldCase 'e')),
    seq (lit '\'') (folded foldCase 'm'),
    seq (lit '\'') (seq (folded foldCase 'l') (folded foldCase 'l')),
    seq (lit '\'') (folded foldCase 'd')]

/-- `[^\r\n\p{L}\p{N}]`. -/
def prefixChar : Regex Char :=
  one fun c => !(isNewline c || table.isA .letter c || table.isA .number c)

/-- `[\r\n]`. -/
def newline : Regex Char := one isNewline

/-- `\p{N}{1,3}`. -/
def upToThree : Regex Char :=
  seq (oneOf table .number) (atMost (oneOf table .number) 2)

end

lemma first_quoteLetters : first quoteLetters (c :: t) =
    if c = '\'' then contractionRest foldCase t else none := by
  rw [quoteLetters, lit, first_seq_one_cons, first_contractionLetters]
  simp only [decide_eq_true_eq]

lemma first_quotedLetters : first quotedLetters (c :: t) =
    if c = '\'' then contractionRest foldCase t else none := by
  have hquote : ∀ r : Regex Char, first (seq (lit '\'') r) (c :: t) =
      if c = '\'' then first r t else none := by
    intro r
    rw [lit, first_seq_one_cons]
    simp only [decide_eq_true_eq]
  simp only [quotedLetters, first_anyOf_cons, first_anyOf_nil, hquote]
  by_cases hc : c = '\''
  · simp only [if_pos hc]
    cases t with
    | nil => rfl
    | cons d t =>
        simp only [contractionRest, first_folded, first_folded_folded, Option.or_none]
        by_cases hone : foldCase d = 's' ∨ foldCase d = 'd' ∨ foldCase d = 'm' ∨ foldCase d = 't'
        · -- a contraction of one letter is none of two
          have htwo : ∀ {a : Char} {p : Prop}, a = 'r' ∨ a = 'v' ∨ a = 'l' →
              ¬ (foldCase d = a ∧ p) := by
            rintro a p ha ⟨rfl, -⟩
            rcases ha with ha | ha | ha <;> rw [ha] at hone <;> exact absurd hone (by decide)
          simp only [if_neg (htwo (.inl rfl)), if_neg (htwo (.inr (.inl rfl))),
            if_neg (htwo (.inr (.inr rfl))), Option.none_or, or_ite, if_pos hone]
          exact if_pos (by tauto)
        · obtain ⟨hs, hd, hm, ht⟩ := by simpa only [not_or] using hone
          simp only [if_neg hs, if_neg hd, if_neg hm, if_neg ht, if_neg hone, Option.none_or,
            Option.or_none, or_ite]
          exact if_congr (by tauto) rfl rfl
  · simp only [if_neg hc, Option.or_none]

lemma first_letters (table : ClassTable) (t : List Char) :
    first (plus (oneOf table .letter)) t = lettersRest table t := by
  cases t with
  | nil => rfl
  | cons d t => exact first_plus_one_cons

/-- `[^\r\n\p{L}\p{N}]?\p{L}+`. -/
lemma first_word_eq (table : ClassTable) : first (seq (opt (prefixChar table))
    (plus (oneOf table .letter))) (c :: t) = wordRest table c t := by
  rw [first_seq_opt, prefixChar, first_seq_one_cons, first_letters, first_letters, wordRest,
    lettersRest]
  cases table.isA .letter c <;> cases table.isA .number c <;> cases isNewline c <;> simp

/-- `[^\r\n\p{L}\p{N}]?+\p{L}++`. -/
lemma first_atomic_word (table : ClassTable) : first (seq (atomic (opt (prefixChar table)))
    (atomic (plus (oneOf table .letter)))) (c :: t) = wordRest table c t := by
  rw [first_seq_atomic, first_opt, prefixChar, first_one_cons, wordRest]
  have hatomic : ∀ x, first (atomic (plus (oneOf table .letter))) x = lettersRest table x :=
    fun x => first_atomic.trans (first_letters table x)
  cases hletter : table.isA .letter c <;> cases hnumber : table.isA .number c <;>
    cases hnewline : isNewline c <;> simp [hatomic, lettersRest, hletter]

lemma first_atMost (table : ClassTable) (n : ℕ) (t : List Char) :
    first (atMost (oneOf table .number) n) t = some (dropNumbers table n t) := by
  induction n generalizing t with
  | zero => cases t <;> rfl
  | succ n ih =>
      rw [atMost, first_opt]
      cases t with
      | nil => rfl
      | cons c t =>
          rw [oneOf, first_seq_one_cons, ← oneOf, ih, dropNumbers]
          split_ifs <;> rfl

lemma first_upToThree : first (upToThree table) (c :: t) =
    if table.isA .number c then some (dropNumbers table 2 t) else none := by
  rw [upToThree, oneOf, first_seq_one_cons, ← oneOf, first_atMost]

lemma first_others (table : ClassTable) (t : List Char) :
    first (seq (plus (noneOf table)) (star newline)) t = othersRest table t := by
  cases t with
  | nil => rfl
  | cons d t =>
      have hd : first (plus (oneOf table .other)) (d :: t) =
          if table.isA .other d then some (t.dropWhile (table.isA .other)) else none :=
        first_plus_one_cons
      rw [noneOf_eq, othersRest]
      by_cases hA : table.isA .other d = true
      · rw [if_pos hA] at hd ⊢
        exact first_seq_of_first hd first_star_one
      · rw [if_neg hA] at hd ⊢
        exact first_seq_none hd

lemma first_atomic_others (table : ClassTable) (t : List Char) :
    first (seq (atomic (plus (noneOf table))) (atomic (star newline))) t = othersRest table t := by
  rw [first_seq_atomic, noneOf_eq]
  cases t with
  | nil => rfl
  | cons d t =>
      have hd : first (plus (oneOf table .other)) (d :: t) =
          if table.isA .other d then some (t.dropWhile (table.isA .other)) else none :=
        first_plus_one_cons
      rw [hd, othersRest]
      split_ifs
      · exact first_atomic.trans first_star_one
      · rfl

/-- ` ?[^\s\p{L}\p{N}]+[\r\n]*`, with or without possessive quantifiers. -/
lemma first_optSpace (table : ClassTable) {r : Regex Char}
    (hr : ∀ t, first r t = othersRest table t) :
    first (seq (opt (lit ' ')) r) (c :: t) = punctuationRest table c t := by
  rw [first_seq_opt, lit, first_seq_one_cons, hr, hr, punctuationRest]
  by_cases hc : c = ' '
  · subst hc
    rw [othersRest.eq_2, isA_eq (classOf_space table)]
    cases othersRest table t <;> rfl
  · rw [decide_eq_false hc, if_neg Bool.false_ne_true, if_neg hc, Option.none_or, othersRest]

/-- `\s++$`. -/
lemma first_spacesEnd (hc : table.isA .whitespace c = true) :
    first (seq (atomic (plus (oneOf table .whitespace))) atEnd) (c :: t) =
      if t.dropWhile (table.isA .whitespace) = [] then some [] else none := by
  rw [first_seq_atomic, oneOf, first_plus_one_cons, if_pos hc, Option.bind_some, first_atEnd]
  split_ifs with hend
  · rw [hend]
  · rfl

lemma afterNewline_isSome (table : ClassTable) (h : isNewline c = true) :
    afterNewline table (c :: t) ≠ none := by
  rw [afterNewline, if_pos (isA_of_isNewline table h), if_pos h]
  cases afterNewline table t <;> exact Option.some_ne_none _

/-- What follows the spaces, when they are given back up to a newline. -/
lemma findSome?_newline (table : ClassTable) {f : List Char → Option (List Char)}
    (hnil : f [] = none) (hother : ∀ c t, isNewline c = false → f (c :: t) = none)
    (hnewline : ∀ c t, isNewline c = true → (∀ d ∈ t.head?, isNewline d = false) →
      f (c :: t) = some t) (t : List Char) :
    (runRests (table.isA .whitespace) t).findSome? f = afterNewline table t := by
  induction t with
  | nil => rw [runRests, List.findSome?_singleton, hnil, afterNewline]
  | cons c t ih =>
      by_cases hc : table.isA .whitespace c = true
      · rw [findSome?_runRests_cons f hc, ih, afterNewline, if_pos hc]
        cases hlast : afterNewline table t with
        | some r => rfl
        | none =>
            cases hn : isNewline c with
            | false => rw [hother c t hn, if_neg Bool.false_ne_true]
            | true =>
                rw [hnewline c t hn, if_pos rfl]
                intro d hd
                refine Bool.eq_false_iff.mpr fun hd' => ?_
                obtain ⟨t', rfl⟩ := List.head?_eq_some_iff.mp hd
                exact afterNewline_isSome table hd' hlast
      · have hn : isNewline c = false :=
          Bool.eq_false_iff.mpr fun hn => hc (isA_of_isNewline table hn)
        rw [runRests, if_neg hc, List.findSome?_singleton, hother c t hn, afterNewline, if_neg hc]

/-- `\s*[\r\n]`. -/
lemma first_newline (table : ClassTable) (t : List Char) :
    first (seq (star (oneOf table .whitespace)) newline) t = afterNewline table t := by
  rw [first_seq, oneOf, rests_star_one]
  refine findSome?_newline table rfl (fun c t hn => ?_) (fun c t hn _ => ?_) t
  · rw [newline, first_one_cons, hn, if_neg Bool.false_ne_true]
  · rw [newline, first_one_cons, if_pos hn]

/-- `\s*[\r\n]+`. -/
lemma first_newlines (table : ClassTable) (t : List Char) :
    first (seq (star (oneOf table .whitespace)) (plus newline)) t = afterNewline table t := by
  rw [first_seq, oneOf, rests_star_one]
  refine findSome?_newline table rfl (fun c t hn => ?_) (fun c t hn hhead => ?_) t
  · rw [newline, first_plus_one_cons, hn, if_neg Bool.false_ne_true]
  · rw [newline, first_plus_one_cons, if_pos hn, dropWhile_eq_self hhead]

/-- `\s++$|\s*[\r\n]|\s+(?!\S)|\s+`. -/
def spacesCl100k (table : ClassTable) : List (Regex Char) :=
  [seq (atomic (plus (oneOf table .whitespace))) atEnd,
    seq (star (oneOf table .whitespace)) newline, spacesBefore table,
    plus (oneOf table .whitespace)]

/-- `\s*[\r\n]+|\s+(?!\S)|\s+`. -/
def spacesQwen2 (table : ClassTable) : List (Regex Char) :=
  [seq (star (oneOf table .whitespace)) (plus newline), spacesBefore table,
    plus (oneOf table .whitespace)]

lemma first_spacesCl100k (hc : table.isA .whitespace c = true) :
    first (anyOf (spacesCl100k table)) (c :: t) = some (wsRest table true c t) := by
  rw [spacesCl100k, first_anyOf_cons, first_anyOf_cons, first_anyOf_cons, first_anyOf_cons,
    first_anyOf_nil, first_spacesEnd hc, first_newline, Option.or_none, first_spaces hc, wsRest]
  by_cases hend : t.dropWhile (table.isA .whitespace) = []
  · rw [if_pos hend, if_pos ⟨rfl, hend⟩, Option.some_or]
  · rw [if_neg hend, if_neg fun h => hend h.2, Option.none_or]
    cases afterNewline table (c :: t) <;> rfl

lemma first_spacesQwen2 (hc : table.isA .whitespace c = true) :
    first (anyOf (spacesQwen2 table)) (c :: t) = some (wsRest table false c t) := by
  rw [spacesQwen2, first_anyOf_cons, first_anyOf_cons, first_anyOf_cons, first_anyOf_nil,
    first_newlines, Option.or_none, first_spaces hc, wsRest,
    if_neg fun h => Bool.false_ne_true h.1]
  cases afterNewline table (c :: t) <;> rfl

lemma length_dropNumbers_le (table : ClassTable) (n : ℕ) (t : List Char) :
    (dropNumbers table n t).length ≤ t.length := by
  induction n generalizing t with
  | zero => cases t <;> exact le_rfl
  | succ n ih =>
      cases t with
      | nil => exact le_rfl
      | cons c t =>
          rw [dropNumbers]
          split_ifs
          · exact (ih t).trans (Nat.le_succ _)
          · exact le_rfl

/-! ### Marks -/

end Cl100kFamily

/-- `DsCharClass`. -/
inductive DsCharClass
  | letter
  | number
  | whitespace
  | mark
  | punctSym
  | other
  deriving DecidableEq

/-- `class_of_marks_join`, of a class. -/
def DsCharClass.join : DsCharClass → CharClass
  | letter | mark => .letter
  | number => .number
  | whitespace => .whitespace
  | punctSym | other => .other

/-- `ds_class_of`: a classification of the codepoints that agrees with ASCII, which has no mark. -/
structure DsClassTable where
  classOf : ℕ → DsCharClass
  ascii : ∀ cp < 0x80, classOf cp ≠ .mark ∧ (classOf cp).join = asciiClass cp

namespace DsClassTable

variable (table : DsClassTable)

/-- `class_of_marks_join`. -/
def marksJoin : ClassTable where
  classOf cp := (table.classOf cp).join
  ascii cp hcp := (table.ascii cp hcp).2

/-- `\p{L}`, `\p{M}`, `\p{N}`, `\s`. -/
def isA (cls : DsCharClass) (c : Char) : Bool := table.classOf c.toNat = cls

variable {table} {c : Char} {cls : DsCharClass}

lemma isA_eq (hcls : table.classOf c.toNat = cls) (k : DsCharClass) :
    table.isA k c = decide (cls = k) := by rw [isA, hcls]

lemma isA_marksJoin (hcls : table.classOf c.toNat = cls) (k : CharClass) :
    table.marksJoin.isA k c = decide (cls.join = k) :=
  Hypertok.isA_eq (congrArg DsCharClass.join hcls) k

end DsClassTable

namespace Cl100kFamily

open Machine Regex

variable {table : DsClassTable} {c : Char} {t : List Char}

section

variable (table : DsClassTable)

/-- `[^\r\n\p{L}\p{N}]`; a mark is such a character. -/
def markPrefixChar : Regex Char :=
  one fun c => !(isNewline c || table.isA .letter c || table.isA .number c)

/-- `[\p{L}\p{M}]`. -/
def letterOrMark : Regex Char := one fun c => table.isA .letter c || table.isA .mark c

/-- `[^\s\p{L}\p{M}\p{N}]`. -/
def noMark : Regex Char :=
  one fun c => !(table.isA .whitespace c || table.isA .letter c || table.isA .mark c ||
    table.isA .number c)

end

lemma letterOrMark_eq (table : DsClassTable) :
    letterOrMark table = oneOf table.marksJoin .letter := by
  refine congrArg one (funext fun c => ?_)
  cases hcls : table.classOf c.toNat <;>
    simp only [DsClassTable.isA_eq hcls, DsClassTable.isA_marksJoin hcls] <;> rfl

lemma noMark_eq (table : DsClassTable) : noMark table = noneOf table.marksJoin := by
  refine congrArg one (funext fun c => ?_)
  cases hcls : table.classOf c.toNat <;>
    simp only [DsClassTable.isA_eq hcls, DsClassTable.isA_marksJoin hcls] <;> rfl

/-- A mark is not a newline. -/
lemma isNewline_of_mark (hc : table.classOf c.toNat = .mark) : isNewline c = false := by
  refine Bool.eq_false_iff.mpr fun hnewline => ?_
  rcases isNewline_iff.mp hnewline with rfl | rfl
  · exact (table.ascii 13 (by decide)).1 hc
  · exact (table.ascii 10 (by decide)).1 hc

/-- `[^\r\n\p{L}\p{N}]?[\p{L}\p{M}]+`: the match of a mark as a prefix is that of the mark in the
run. -/
lemma first_markWord (table : DsClassTable) : first (seq (opt (markPrefixChar table))
    (plus (letterOrMark table))) (c :: t) = wordRest table.marksJoin c t := by
  rw [first_seq_opt, markPrefixChar, first_seq_one_cons, letterOrMark_eq, first_letters,
    first_letters, lettersRest, wordRest]
  by_cases hmark : table.classOf c.toNat = .mark
  · have hletter : table.marksJoin.isA .letter c = true := DsClassTable.isA_marksJoin hmark .letter
    have hfront : (!(isNewline c || table.isA .letter c || table.isA .number c)) = true := by
      rw [isNewline_of_mark hmark, DsClassTable.isA_eq hmark, DsClassTable.isA_eq hmark]
      rfl
    rw [hfront, hletter, if_pos rfl, if_pos rfl, if_pos rfl]
    cases t with
    | nil => rfl
    | cons d t =>
        rw [lettersRest]
        by_cases hd : table.marksJoin.isA .letter d = true
        · rw [if_pos hd, List.dropWhile_cons_of_pos hd, Option.some_or]
        · rw [if_neg hd, Option.none_or]
  · have hletter : table.marksJoin.isA .letter c = table.isA .letter c := by
      cases hcls : table.classOf c.toNat with
      | mark => exact absurd hcls hmark
      | _ => rw [DsClassTable.isA_eq hcls, DsClassTable.isA_marksJoin hcls]; rfl
    have hnumber : table.marksJoin.isA .number c = table.isA .number c := by
      cases hcls : table.classOf c.toNat <;>
        rw [DsClassTable.isA_eq hcls, DsClassTable.isA_marksJoin hcls] <;> rfl
    rw [hletter, hnumber]
    cases table.isA .letter c <;> cases table.isA .number c <;> cases isNewline c <;> simp

/-! ### The schemes -/

section

variable (table : ClassTable)

/-- A number of up to three characters. -/
def numberMax3 (bytes : List UInt8) (pos : ℕ) : Option ℕ :=
  scanNumbersMax3 table bytes pos 1

/-- A number of one character. -/
def numberOne (_ : List UInt8) (pos : ℕ) : Option ℕ := some pos

/-- `'(?i:[sdmt]|ll|ve|re)|[^\r\n\p{L}\p{N}]?+\p{L}++|\p{N}{1,3}+| ?[^\s\p{L}\p{N}]++[\r\n]*+`
and the spaces of `cl100k.rs`. -/
def cl100k : Scheme table (numberMax3 table) true where
  contraction := quoteLetters
  word := seq (atomic (opt (prefixChar table))) (atomic (plus (oneOf table .letter)))
  numbers := atomic (upToThree table)
  punctuation := seq (opt (lit ' ')) (seq (atomic (plus (noneOf table))) (atomic (star newline)))
  spaces := spacesCl100k table
  numberRest := dropNumbers table 2
  first_contraction _ _ := first_quoteLetters
  first_word _ _ := first_atomic_word table
  first_numbers _ _ := first_atomic.trans first_upToThree
  first_punctuation _ _ := first_optSpace table (first_atomic_others table)
  first_spaces _ _ := first_spacesCl100k
  number_at h := scanNumbers_at table 2 h
  length_numberRest_le := length_dropNumbers_le table 2

/-- `(?i:'s|'t|'re|'ve|'m|'ll|'d)|[^\r\n\p{L}\p{N}]?\p{L}+|\p{N}{1,3}| ?[^\s\p{L}\p{N}]+[\r\n]*` and
the spaces of `olmo3.rs`. -/
def olmo3 : Scheme table (numberMax3 table) false where
  contraction := quotedLetters
  word := seq (opt (prefixChar table)) (plus (oneOf table .letter))
  numbers := upToThree table
  punctuation := seq (opt (lit ' ')) (seq (plus (noneOf table)) (star newline))
  spaces := spacesQwen2 table
  numberRest := dropNumbers table 2
  first_contraction _ _ := first_quotedLetters
  first_word _ _ := first_word_eq table
  first_numbers _ _ := first_upToThree
  first_punctuation _ _ := first_optSpace table (first_others table)
  first_spaces _ _ := first_spacesQwen2
  number_at h := scanNumbers_at table 2 h
  length_numberRest_le := length_dropNumbers_le table 2

/-- `(?i:'s|'t|'re|'ve|'m|'ll|'d)|[^\r\n\p{L}\p{N}]?\p{L}+|\p{N}| ?[^\s\p{L}\p{N}]+[\r\n]*` and the
spaces of `qwen2.rs`. -/
def qwen2 : Scheme table numberOne false where
  contraction := quotedLetters
  word := seq (opt (prefixChar table)) (plus (oneOf table .letter))
  numbers := oneOf table .number
  punctuation := seq (opt (lit ' ')) (seq (plus (noneOf table)) (star newline))
  spaces := spacesQwen2 table
  numberRest := id
  first_contraction _ _ := first_quotedLetters
  first_word _ _ := first_word_eq table
  first_numbers _ _ := first_one_cons
  first_punctuation _ _ := first_optSpace table (first_others table)
  first_spaces _ _ := first_spacesQwen2
  number_at h := ⟨_, rfl, h⟩
  length_numberRest_le _ := le_rfl

end

/-- `(?i:'s|'t|'re|'ve|'m|'ll|'d)|[^\r\n\p{L}\p{N}]?[\p{L}\p{M}]+|\p{N}|
 ?[^\s\p{L}\p{M}\p{N}]+[\r\n]*` and the spaces of `qwen3_5.rs`. -/
def qwen35 (table : DsClassTable) : Scheme table.marksJoin numberOne false where
  contraction := quotedLetters
  word := seq (opt (markPrefixChar table)) (plus (letterOrMark table))
  numbers := oneOf table.marksJoin .number
  punctuation := seq (opt (lit ' ')) (seq (plus (noMark table)) (star newline))
  spaces := spacesQwen2 table.marksJoin
  numberRest := id
  first_contraction _ _ := first_quotedLetters
  first_word _ _ := first_markWord table
  first_numbers _ _ := first_one_cons
  first_punctuation _ _ := first_optSpace table.marksJoin fun t => by
    rw [noMark_eq, first_others]
  first_spaces _ _ := first_spacesQwen2
  number_at h := ⟨_, rfl, h⟩
  length_numberRest_le _ := le_rfl

/-! ### The scanners -/

/-- `advance_pos` of `cl100k.rs`. -/
def advancePosCl100k (table : ClassTable) : List UInt8 → ℕ → Option ℕ :=
  advancePos table (numberMax3 table) (wsTokenEnd table true)

/-- `advance_pos` of `olmo3.rs`. -/
def advancePosOlmo3 (table : ClassTable) : List UInt8 → ℕ → Option ℕ :=
  advancePos table (numberMax3 table) (wsTokenEnd table false)

/-- `advance_pos` of `qwen2.rs`. -/
def advancePosQwen2 (table : ClassTable) : List UInt8 → ℕ → Option ℕ :=
  advancePos table numberOne (wsTokenEnd table false)

/-- `advance_pos` of `qwen3_5.rs`: its tests for a letter or a mark are those of
`class_of_marks_join` for a letter. -/
def advancePosQwen35 (table : DsClassTable) : List UInt8 → ℕ → Option ℕ :=
  advancePos table.marksJoin numberOne (wsTokenEnd table.marksJoin false)

/-- The scalar scanners implement their regexes: for every text and every classification that agrees
with ASCII, the tokens from position 0 are the leftmost-first matches. -/
theorem segmentation_family (text : List Char) :
    (∀ table, ∃ pieces, Segments (cl100k table).regex text pieces ∧
      pretokens (advancePosCl100k table) (textBytes text) (textBytes text).length 0 =
        some (pieces.map textBytes)) ∧
    (∀ table, ∃ pieces, Segments (olmo3 table).regex text pieces ∧
      pretokens (advancePosOlmo3 table) (textBytes text) (textBytes text).length 0 =
        some (pieces.map textBytes)) ∧
    (∀ table, ∃ pieces, Segments (qwen2 table).regex text pieces ∧
      pretokens (advancePosQwen2 table) (textBytes text) (textBytes text).length 0 =
        some (pieces.map textBytes)) ∧
    ∀ table, ∃ pieces, Segments (qwen35 table).regex text pieces ∧
      pretokens (advancePosQwen35 table) (textBytes text) (textBytes text).length 0 =
        some (pieces.map textBytes) :=
  ⟨fun table => (scans (cl100k table)).pretokens_eq text,
    fun table => (scans (olmo3 table)).pretokens_eq text,
    fun table => (scans (qwen2 table)).pretokens_eq text,
    fun table => (scans (qwen35 table)).pretokens_eq text⟩

end Cl100kFamily

end Hypertok
