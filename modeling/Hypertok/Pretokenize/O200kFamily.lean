import Hypertok.Pretokenize.CaseRun

/-!
The scalar scanner of `o200k_family.rs`, and the regexes of `o200k.rs`, `nemotron.rs` and `kimi.rs`.

* `first_words`: what the two alternatives for words leave, with their prefix and suffix.
* `scans`: the scanner implements the regex, for all of its parameters.
* `segmentation_o200kFamily`: the walk from position 0 gives the matches.
-/

namespace Hypertok

open Machine Regex

namespace O200kTable

/-- The classes of `family_class_of`, joined. -/
def joined (table : O200kTable) (han : Bool) : ClassTable where
  classOf cp := (table.familyClassOf han cp).1.join
  ascii cp hcp := by
    rw [table.join_familyClassOf]
    exact table.base.ascii cp hcp

lemma isA_joined (table : O200kTable) (han : Bool) (cls : CharClass) :
    (table.joined han).isA cls = table.base.isA cls := by
  funext c
  change decide ((table.familyClassOf han c.toNat).1.join = cls) = _
  rw [table.join_familyClassOf]
  rfl

end O200kTable

namespace O200kFamily

/-- The parameters of `advance_pos`. -/
structure Flags where
  contractions : Bool
  digits3 : Bool
  slash : Bool
  han : Bool

/-- `O200kScheme`. -/
def o200k : Flags := ⟨true, true, true, false⟩

/-- `NemotronScheme`. -/
def nemotron : Flags := ⟨false, false, true, false⟩

/-- `KimiScheme`. -/
def kimi : Flags := ⟨true, true, false, true⟩

/-! ### The scanner -/

/-- `is_tail_byte`. -/
def isTailByte (slash : Bool) (b : UInt8) : Bool := b = 13 || b = 10 || slash && b = 47

/-- `scan_tail`. -/
def scanTail (slash : Bool) (bytes : List UInt8) (pos : ℕ) : Option ℕ :=
  skipWhile (isTailByte slash) bytes pos

variable (table : O200kTable) (o : Flags)

/-- `scan_punct_from`: the classes `Other` and `Mark` are joined. -/
def scanPunctFrom (bytes : List UInt8) (pos : ℕ) : Option ℕ :=
  scanFrom (table.joined o.han) .other (skipWhile isAsciiOther) bytes pos

/-- One turn of the loop of `scan_han_run`. -/
def hanStep (bytes : List UInt8) (pos : ℕ) : Option (ℕ ⊕ ℕ) :=
  match bytes[pos]? with
  | none => some (.inr pos)
  | some b =>
      if b < 0x80 then some (.inr pos)
      else do
        let (cp, l) ← decodeCp bytes pos
        return if (table.kimiClassOf cp).isHan then .inl (pos + l) else .inr pos

/-- `scan_han_run`. -/
def scanHanRun (bytes : List UInt8) (pos : ℕ) : Option ℕ :=
  loop (hanStep table bytes) (bytes.length + 1) pos

/-- `ws_token_end`. -/
def wsTokenEnd (bytes : List UInt8) (start : ℕ) : Option ℕ :=
  Cl100kFamily.wsTokenEnd table.base false bytes start

/-- `digit_token_end`. -/
def digitTokenEnd (bytes : List UInt8) (firstEnd : ℕ) : Option ℕ :=
  if o.digits3 then scanNumbersMax3 table.base bytes firstEnd 1 else some firstEnd

/-- `try_suffix`, behind `scan_case_run`. -/
def caseToken (bytes : List UInt8) (pos : ℕ) (st : CaseState) : Option ℕ := do
  return trySuffix o.contractions bytes (← scanCaseRun table o.han bytes pos st)

/-- `scan_tail`, behind `scan_punct_from`. -/
def punctToken (bytes : List UInt8) (pos : ℕ) : Option ℕ := do
  scanTail o.slash bytes (← scanPunctFrom table o bytes pos)

/-- A run of letters, if `letter_run_first` has one; otherwise what follows in the source. -/
def lettersOr (bytes : List UInt8) (pos : ℕ) (otherwise : Option ℕ) : Option ℕ := do
  match ← letterRunFirst table o.han bytes pos with
  | some (e, st) => caseToken table o bytes e st
  | none => otherwise

/-- `advance_pos`, behind a space and a character that ends at `p₁`. -/
def advanceSpaceClass (bytes : List UInt8) (pos p₁ : ℕ) : O200kCharClass × Bool → Option ℕ
  | (.caseless, true) => some (pos + 1)
  | (.upper, _) => caseToken table o bytes p₁ (.U 0)
  | (.lower, _) => caseToken table o bytes p₁ .L
  | (.caseless, _) | (.mark, _) => caseToken table o bytes p₁ (.U p₁)
  | (.whitespace, _) => wsTokenEnd table bytes pos
  | (.number, _) => some (pos + 1)
  | (.other, _) => punctToken table o bytes p₁

/-- `advance_pos`, behind a space. -/
def advanceSpace (bytes : List UInt8) (pos : ℕ) : Option ℕ :=
  match bytes[pos + 1]? with
  | none => some (pos + 1)
  | some b₁ =>
      if isLetter b₁ then caseToken table o bytes (pos + 2) (asciiLetterState b₁)
      else if b₁ < 0x80 then
        if isDigit b₁ then some (pos + 1)
        else if isAsciiWs b₁ then wsTokenEnd table bytes pos
        else punctToken table o bytes (pos + 2)
      else do
        let (cp, l) ← decodeCp bytes (pos + 1)
        advanceSpaceClass table o bytes pos (pos + 1 + l) (table.familyClassOf o.han cp)

/-- `advance_pos`, at a character that is not ASCII nor Han and ends at `p₀`. -/
def advanceClass (bytes : List UInt8) (pos p₀ : ℕ) : O200kCharClass → Option ℕ
  | .upper => caseToken table o bytes p₀ (.U 0)
  | .lower => caseToken table o bytes p₀ .L
  | .caseless | .mark => caseToken table o bytes p₀ (.U p₀)
  | .number => digitTokenEnd table o bytes p₀
  | .whitespace => lettersOr table o bytes p₀ (wsTokenEnd table bytes pos)
  | .other => lettersOr table o bytes p₀ (punctToken table o bytes p₀)

/-- `advance_pos`, at a character that is not ASCII and ends at `p₀`. -/
def advanceNonAscii (bytes : List UInt8) (pos p₀ : ℕ) (cls : O200kCharClass × Bool) : Option ℕ :=
  if o.han && cls.2 then scanHanRun table bytes p₀ else advanceClass table o bytes pos p₀ cls.1

/-- `advance_pos`. -/
def advancePos (bytes : List UInt8) (pos : ℕ) : Option ℕ := do
  let b₀ ← bytes[pos]?
  if isLetter b₀ then caseToken table o bytes (pos + 1) (asciiLetterState b₀)
  else if b₀ = 32 then advanceSpace table o bytes pos
  else if 0x80 ≤ b₀ then do
    let (cp, l) ← decodeCp bytes pos
    advanceNonAscii table o bytes pos (pos + l) (table.familyClassOf o.han cp)
  else if isDigit b₀ then digitTokenEnd table o bytes (pos + 1)
  else if b₀ = 13 ∨ b₀ = 10 then wsTokenEnd table bytes pos
  else if isAsciiWs b₀ then lettersOr table o bytes (pos + 1) (wsTokenEnd table bytes pos)
  else lettersOr table o bytes (pos + 1) (punctToken table o bytes (pos + 1))

/-! ### The regex -/

/-- `[^\r\n\p{L}\p{N}]?[ulc]*[llc]+` and the suffix. -/
def mixedWord : Regex Char := seq (opt (Cl100kFamily.prefixChar table.base))
  (seq (star (ulc table o.han)) (seq (plus (llc table o.han)) (suffix o.contractions)))

/-- `[^\r\n\p{L}\p{N}]?[ulc]+[llc]*` and the suffix. -/
def upperWord : Regex Char := seq (opt (Cl100kFamily.prefixChar table.base))
  (seq (plus (ulc table o.han)) (seq (star (llc table o.han)) (suffix o.contractions)))

/-- `\p{N}{1,3}` or `\p{N}`. -/
def numbers : Regex Char :=
  if o.digits3 then Cl100kFamily.upToThree table.base else oneOf table.base .number

/-- `[\r\n/]` or `[\r\n]`. -/
def isTailChar (slash : Bool) (c : Char) : Bool := isNewline c || slash && c = '/'

/-- ` ?[^\s\p{L}\p{N}]+[\r\n/]*`, or without the slash. -/
def punctuation : Regex Char :=
  seq (opt (lit ' ')) (seq (plus (noneOf table.base)) (star (one (isTailChar o.slash))))

/-- `[\p{Han}]+`, in the scheme that has it. -/
def hanRun : List (Regex Char) := if o.han then [plus (one (table.isHanChar o.han))] else []

/-- The regex of the scheme. -/
def regex : Regex Char :=
  anyOf (hanRun table o ++ mixedWord table o :: upperWord table o :: numbers table o ::
    punctuation table o :: Cl100kFamily.spacesQwen2 table.base)

/-! ### What the alternatives leave -/

/-- What a word leaves, without its suffix. -/
def wordRest (c : Char) (t : List Char) : Option (List Char) :=
  match runClass table o.han c with
  | some k => some (runRest table o.han (startRest t k) t)
  | none =>
      if isNewline c || table.base.isA .letter c || table.base.isA .number c then none
      else lettersRest table o.han t

/-- What a number leaves behind its first character. -/
def numberRest (t : List Char) : List Char :=
  if o.digits3 then dropNumbers table.base 2 t else t

/-- What a run of punctuation leaves behind its first character, with the tail. -/
def tailRest (t : List Char) : List Char :=
  (t.dropWhile (table.base.isA .other)).dropWhile (isTailChar o.slash)

/-- What a run of punctuation leaves. -/
def punctsRest : List Char → Option (List Char)
  | [] => none
  | d :: t => if table.base.isA .other d then some (tailRest table o t) else none

/-- What punctuation leaves, with its space. -/
def punctuationRest (c : Char) (t : List Char) : Option (List Char) :=
  if table.base.isA .other c then some (tailRest table o t)
  else if c = ' ' then punctsRest table o t
  else none

variable {table o} {c : Char} {t rest : List Char}

/-- Among the characters of a run, only the marks can be a prefix. -/
lemma prefix_of_runClass {k : RunClass} (hk : runClass table o.han c = some k)
    (hfront : (!(isNewline c || table.base.isA .letter c || table.base.isA .number c)) = true) :
    k = .caseless := by
  cases hhan : table.isHanChar o.han c with
  | true =>
      rw [runClass_of_han hhan] at hk
      cases hk
  | false =>
      rw [runClass_of_not_han hhan] at hk
      rw [O200kTable.isA_base, O200kTable.isA_base] at hfront
      cases hcls : table.classOf c.toNat with
      | mark =>
          rw [hcls] at hk
          exact (Option.some_inj.mp hk).symm
      | upper | lower | caseless => simp [hcls, O200kCharClass.join] at hfront
      | number | whitespace | other =>
          rw [hcls] at hk
          cases hk

/-- The alternatives for words: a mark that is a prefix makes the same word as the mark in the
run. -/
lemma first_words (table : O200kTable) (o : Flags) (c : Char) (t : List Char) :
    (first (mixedWord table o) (c :: t)).or (first (upperWord table o) (c :: t)) =
      (wordRest table o c t).map (suffixRest o.contractions) := by
  have hbehind := @first_brackets table o.han o.contractions t
  have hself := @first_brackets table o.han o.contractions (c :: t)
  rw [mixedWord, upperWord, Cl100kFamily.prefixChar, first_seq_opt, first_seq_opt,
    first_seq_one_cons, first_seq_one_cons]
  rw [wordRest]
  cases hfront : !(isNewline c || table.base.isA .letter c || table.base.isA .number c) with
  | false =>
      rw [if_neg Bool.false_ne_true, if_neg Bool.false_ne_true, Option.none_or, Option.none_or,
        hself, lettersRest]
      cases hk : runClass table o.han c with
      | some k => rfl
      | none =>
          dsimp only
          rw [if_pos ((Bool.not_eq_false' _).mp hfront)]
          rfl
  | true =>
      rw [if_pos rfl, if_pos rfl]
      cases hk : runClass table o.han c with
      | none =>
          rw [lettersRest, hk, Option.map_none, Option.map_none, Option.or_eq_none_iff] at hself
          dsimp only
          rw [hself.1, hself.2, Option.or_none, Option.or_none, hbehind,
            if_neg (Bool.eq_false_iff.mp ((Bool.not_eq_true' _).mp hfront))]
      | some k =>
          obtain rfl := prefix_of_runClass hk hfront
          rw [first_mixed, first_mixed, mixedRest, hk]
          dsimp only
          rw [startRest, runRest]
          cases hmixed : mixedRest table o.han t with
          | some rest => rfl
          | none =>
              rw [(dropWhile_of_mixedRest hmixed).1]
              rfl

lemma first_numbers (table : O200kTable) (o : Flags) (c : Char) (t : List Char) :
    first (numbers table o) (c :: t) =
      if table.base.isA .number c then some (numberRest table o t) else none := by
  rw [numbers, numberRest]
  split_ifs with hdigits hc
  · rw [Cl100kFamily.first_upToThree, if_pos hc]
  · rw [Cl100kFamily.first_upToThree, if_neg hc]
  · rw [oneOf, first_one_cons, if_pos (by assumption)]
  · rw [oneOf, first_one_cons, if_neg (by assumption)]

lemma first_puncts (table : O200kTable) (o : Flags) (t : List Char) :
    first (seq (plus (noneOf table.base)) (star (one (isTailChar o.slash)))) t =
      punctsRest table o t := by
  cases t with
  | nil => rfl
  | cons d t =>
      have hd : first (plus (oneOf table.base .other)) (d :: t) =
          if table.base.isA .other d then some (t.dropWhile (table.base.isA .other)) else none :=
        first_plus_one_cons
      rw [noneOf_eq, punctsRest]
      by_cases hA : table.base.isA .other d = true
      · rw [if_pos hA] at hd ⊢
        exact first_seq_of_first hd first_star_one
      · rw [if_neg hA] at hd ⊢
        exact first_seq_none hd

lemma first_punctuation (table : O200kTable) (o : Flags) (c : Char) (t : List Char) :
    first (punctuation table o) (c :: t) = punctuationRest table o c t := by
  rw [punctuation, first_seq_opt, lit, first_seq_one_cons, first_puncts, first_puncts,
    punctuationRest]
  by_cases hc : c = ' '
  · subst hc
    rw [punctsRest.eq_2, isA_eq (classOf_space table.base)]
    cases punctsRest table o t <;> rfl
  · rw [decide_eq_false hc, if_neg Bool.false_ne_true, if_neg hc, Option.none_or, punctsRest]

/-- A token of the script Han. -/
lemma first_of_han (hhan : table.isHanChar o.han c = true) :
    first (regex table o) (c :: t) = some (t.dropWhile (table.isHanChar o.han)) := by
  have ho : o.han = true := (Bool.and_eq_true_iff.mp hhan).1
  rw [regex, hanRun, if_pos ho, List.singleton_append, first_anyOf_cons, first_plus_one_cons,
    if_pos hhan, Option.some_or]

/-- The other tokens. -/
lemma first_regex (hhan : table.isHanChar o.han c = false) :
    first (regex table o) (c :: t) =
      ((wordRest table o c t).map (suffixRest o.contractions)).or
        ((if table.base.isA .number c then some (numberRest table o t) else none).or
          ((punctuationRest table o c t).or
            (first (anyOf (Cl100kFamily.spacesQwen2 table.base)) (c :: t)))) := by
  have hskip : first (regex table o) (c :: t) =
      first (anyOf (mixedWord table o :: upperWord table o :: numbers table o ::
        punctuation table o :: Cl100kFamily.spacesQwen2 table.base)) (c :: t) := by
    rw [regex, hanRun]
    split_ifs
    · rw [List.singleton_append, first_anyOf_cons, first_plus_one_cons, hhan,
        if_neg Bool.false_ne_true, Option.none_or]
    · rfl
  rw [hskip, first_anyOf_cons, first_anyOf_cons, first_anyOf_cons, first_anyOf_cons,
    first_numbers, first_punctuation, ← first_words, Option.or_assoc]

/-! ### The lengths -/

lemma length_mixedRest_le {han : Bool} (h : mixedRest table han t = some rest) :
    rest.length ≤ t.length := by
  induction t with
  | nil => cases h
  | cons c t ih =>
      have hdrop := (List.length_dropWhile_le (isLlc table han) t).trans (Nat.le_succ _)
      rw [mixedRest] at h
      cases hk : runClass table han c with
      | none =>
          rw [hk] at h
          cases h
      | some k =>
          rw [hk] at h
          cases k with
          | upper => exact (ih h).trans (Nat.le_succ _)
          | lower =>
              cases h
              exact hdrop
          | caseless =>
              dsimp only at h
              cases hmixed : mixedRest table han t with
              | some rest' =>
                  rw [hmixed] at h
                  cases h
                  exact (ih hmixed).trans (Nat.le_succ _)
              | none =>
                  rw [hmixed] at h
                  cases h
                  exact hdrop

lemma length_runRest_le (table : O200kTable) (han : Bool) (t : List Char) (k : RunClass) :
    (runRest table han (startRest t k) t).length ≤ t.length := by
  have hmixed : ∀ u : List Char, u.length ≤ t.length →
      ((mixedRest table han t).getD u).length ≤ t.length := by
    intro u hu
    cases hmixed : mixedRest table han t with
    | some rest => exact length_mixedRest_le hmixed
    | none => exact hu
  cases k with
  | upper => exact hmixed _ (List.length_dropWhile_le _ _)
  | lower => exact List.length_dropWhile_le _ _
  | caseless => exact hmixed _ le_rfl

lemma length_suffixRest_le (contractions : Bool) (t : List Char) :
    (suffixRest contractions t).length ≤ t.length := by
  cases t with
  | nil => exact le_rfl
  | cons c t =>
      rw [suffixRest]
      split_ifs
      · cases hrest : contractionRest Cl100kFamily.foldCase t with
        | none => exact le_rfl
        | some rest =>
            rw [← first_contractionLetters] at hrest
            exact (suffix_of_first hrest).length_le.trans (Nat.le_succ _)
      · exact le_rfl

lemma length_wordRest_le (h : wordRest table o c t = some rest) : rest.length ≤ t.length := by
  rw [wordRest] at h
  cases hk : runClass table o.han c with
  | some k =>
      rw [hk] at h
      cases h
      exact length_runRest_le table o.han t k
  | none =>
      rw [hk] at h
      dsimp only at h
      split_ifs at h
      cases t with
      | nil => cases h
      | cons d t =>
          obtain ⟨k, -, rfl⟩ := Option.map_eq_some_iff.mp h
          exact (length_runRest_le table o.han t k).trans (Nat.le_succ _)

lemma length_tailRest_le (table : O200kTable) (o : Flags) (t : List Char) :
    (tailRest table o t).length ≤ t.length :=
  (List.length_dropWhile_le _ _).trans (List.length_dropWhile_le _ _)

lemma length_numberRest_le (table : O200kTable) (o : Flags) (t : List Char) :
    (numberRest table o t).length ≤ t.length := by
  rw [numberRest]
  split_ifs
  · exact Cl100kFamily.length_dropNumbers_le table.base 2 t
  · exact le_rfl

/-! ### The scans in a text -/

variable {bytes : List UInt8} {pos p : ℕ}

/-- The tail of a run of punctuation. -/
lemma scanTail_at (slash : Bool) (h : At bytes pos t) :
    ∃ q, scanTail slash bytes pos = some q ∧ At bytes q (t.dropWhile (isTailChar slash)) := by
  have hbyte : ∀ s : Bool, ∀ n < 0x80, isTailByte s (UInt8.ofNat n) =
      (decide (n = 13) || decide (n = 10) || s && decide (n = 47)) := by decide +kernel
  have hhigh : ∀ s : Bool, ∀ n < 256, isTailByte s (UInt8.ofNat n) = true → n < 0x80 := by
    decide +kernel
  have hchar : ∀ c : Char, isTailChar slash c =
      (decide (c.toNat = 13) || decide (c.toNat = 10) || slash && decide (c.toNat = 47)) := by
    intro c
    have hr : c = '\r' ↔ c.toNat = 13 := Char.toNat_inj.symm
    have hn : c = '\n' ↔ c.toNat = 10 := Char.toNat_inj.symm
    have hs : c = '/' ↔ c.toNat = 47 := Char.toNat_inj.symm
    simp only [isTailChar, isNewline, hr, hn, hs]
  have hlow : ∀ b : UInt8, isTailByte slash b = true → b < 0x80 := by
    intro b hb
    have hn := hhigh slash b.toNat b.toNat_lt
    rw [UInt8.ofNat_toNat] at hn
    exact UInt8.lt_iff_toNat_lt.mpr (hn hb)
  have hpred : (fun c : Char => decide (c.toNat < 0x80) && isTailChar slash c) =
      isTailChar slash := by
    funext c
    rw [hchar, Bool.and_eq_right_iff_imp]
    intro hc
    simp only [Bool.or_eq_true, Bool.and_eq_true, decide_eq_true_eq] at hc
    exact decide_eq_true (by omega)
  have hrun := h.runEnd (p := isTailChar slash)
    (fun c hc => (hbyte slash _ hc).trans (hchar c).symm) hlow
  rw [hpred] at hrun
  exact ⟨_, skipWhile_eq _ h.le, hrun⟩

lemma punctToken_at (table : O200kTable) (o : Flags) (h : At bytes pos t) :
    ∃ q, punctToken table o bytes pos = some q ∧ At bytes q (tailRest table o t) := by
  obtain ⟨p, hp, hrest⟩ := scanFrom_at (table.joined o.han) recognizes_isAsciiOther
    (fun _ => skipWhile_eq isAsciiOther) h
  rw [O200kTable.isA_joined] at hrest
  rw [punctToken, scanPunctFrom, hp, Option.bind_eq_bind, Option.bind_some]
  exact scanTail_at o.slash hrest

lemma digitTokenEnd_at (table : O200kTable) (o : Flags) (h : At bytes pos t) :
    ∃ q, digitTokenEnd table o bytes pos = some q ∧ At bytes q (numberRest table o t) := by
  rw [digitTokenEnd, numberRest]
  split_ifs
  · exact scanNumbers_at table.base 2 h
  · exact ⟨pos, rfl, h⟩

/-- A run of letters and its suffix. -/
lemma caseToken_at (table : O200kTable) (o : Flags) (h : At bytes pos t) (hne : pos ≠ 0)
    (k : RunClass) :
    ∃ q, caseToken table o bytes pos (.start pos k) = some q ∧
      At bytes q (suffixRest o.contractions (runRest table o.han (startRest t k) t)) := by
  obtain ⟨q, hq, hrest⟩ := @scanCaseRun_at table o.han _ _ _ _ _ h (holds_start h hne k)
  exact ⟨_, by rw [caseToken, hq]; rfl, trySuffix_at o.contractions hrest⟩

lemma isHan_kimiClassOf (table : O200kTable) (cp : ℕ) :
    (table.kimiClassOf cp).isHan = table.isHan cp := by
  rw [O200kTable.kimiClassOf]
  cases table.isHan cp <;> cases table.classOf cp <;> rfl

/-- A run of the script Han. -/
lemma scanHanRun_at (table : O200kTable) (h : At bytes pos t) :
    ∃ q, scanHanRun table bytes pos = some q ∧
      At bytes q (t.dropWhile (table.isHanChar true)) := by
  have hstep : ∀ m p, (∃ u, At bytes p u ∧ u.length = m ∧
        u.dropWhile (table.isHanChar true) = t.dropWhile (table.isHanChar true)) →
      (∃ p', hanStep table bytes p = some (.inl p') ∧ ∃ k < m, ∃ u, At bytes p' u ∧
        u.length = k ∧ u.dropWhile (table.isHanChar true) = t.dropWhile (table.isHanChar true)) ∨
      ∃ q, hanStep table bytes p = some (.inr q) ∧
        At bytes q (t.dropWhile (table.isHanChar true)) := by
    rintro m p ⟨u, hu, rfl, hdrop⟩
    cases u with
    | nil =>
        rw [hanStep, hu.nil]
        exact .inr ⟨p, rfl, hdrop ▸ hu⟩
    | cons c u =>
        have hself : table.isHanChar true c = false →
            At bytes p (t.dropWhile (table.isHanChar true)) := by
          intro hc
          rw [← hdrop, List.dropWhile_cons_of_neg (by rw [hc]; exact Bool.false_ne_true)]
          exact hu
        by_cases hc : c.toNat < 0x80
        · rw [hanStep, (hu.ascii hc).1]
          dsimp only
          rw [if_pos (UInt8.not_le.mp (not_le_ofNat hc))]
          exact .inr ⟨p, rfl, hself (O200kTable.not_han_of_ascii hc)⟩
        · obtain ⟨⟨b, hget, hge⟩, l, hdecode, hnext⟩ := decodeCp_at hu (Nat.not_lt.mp hc)
          rw [hanStep, hget]
          dsimp only
          rw [if_neg (UInt8.not_lt.mpr hge), hdecode, Option.bind_eq_bind, Option.bind_some,
            isHan_kimiClassOf]
          cases hhan : table.isHan c.toNat with
          | true =>
              have hhanChar : table.isHanChar true c = true := hhan
              rw [List.dropWhile_cons_of_pos hhanChar] at hdrop
              exact .inl ⟨_, rfl, u.length, Nat.lt_succ_self _, u, hnext, rfl, hdrop⟩
          | false => exact .inr ⟨p, rfl, hself hhan⟩
  exact loop_eq_some hstep ⟨t, h, rfl, rfl⟩ (Nat.lt_succ_of_le h.length_le)

/-! ### The tokens -/

/-- A token that ends where the leftmost-first match does. -/
def Ends (table : O200kTable) (o : Flags) (bytes : List UInt8) (c : Char) (t : List Char)
    (result : Option ℕ) : Prop :=
  ∃ q rest, result = some q ∧ At bytes q rest ∧ first (regex table o) (c :: t) = some rest ∧
    rest.length ≤ t.length

section

variable (hhan : table.isHanChar o.han c = false)
include hhan

lemma ends_word (hword : wordRest table o c t = some rest) {q : ℕ}
    (hq : At bytes q (suffixRest o.contractions rest)) : Ends table o bytes c t (some q) := by
  refine ⟨q, _, rfl, hq, ?_,
    (length_suffixRest_le o.contractions rest).trans (length_wordRest_le hword)⟩
  rw [first_regex hhan, hword]
  rfl

lemma ends_number (hword : wordRest table o c t = none) (hc : table.base.isA .number c = true)
    (h : At bytes p t) : Ends table o bytes c t (digitTokenEnd table o bytes p) := by
  obtain ⟨q, hq, hrest⟩ := digitTokenEnd_at table o h
  refine ⟨q, _, hq, hrest, ?_, length_numberRest_le table o t⟩
  rw [first_regex hhan, hword, hc]
  rfl

lemma ends_puncts (hword : wordRest table o c t = none) (hc : table.base.isA .other c = true)
    (h : At bytes p t) : Ends table o bytes c t (punctToken table o bytes p) := by
  obtain ⟨q, hq, hrest⟩ := punctToken_at table o h
  have hnumber : table.base.isA .number c = false := by
    rw [ClassTable.isA, of_decide_eq_true hc]
    decide
  refine ⟨q, _, hq, hrest, ?_, length_tailRest_le table o t⟩
  rw [first_regex hhan, hword, hnumber, punctuationRest, hc]
  rfl

lemma ends_spaces (h : At bytes pos (c :: t)) (hword : wordRest table o c t = none)
    (hpunctuation : punctuationRest table o c t = none)
    (hc : table.base.isA .whitespace c = true) :
    Ends table o bytes c t (wsTokenEnd table bytes pos) := by
  obtain ⟨q, hq, hrest⟩ := Cl100kFamily.wsTokenEnd_at false h hc
  have hnumber : table.base.isA .number c = false := by
    rw [ClassTable.isA, of_decide_eq_true hc]
    decide
  refine ⟨q, _, hq, hrest, ?_, Cl100kFamily.length_wsRest_le table.base false c t⟩
  rw [first_regex hhan, hword, hnumber, hpunctuation, Cl100kFamily.first_spacesQwen2 hc]
  rfl

/-- A character of a run. -/
lemma ends_run {k : RunClass} (hk : runClass table o.han c = some k) (h : At bytes p t)
    (hne : p ≠ 0) : Ends table o bytes c t (caseToken table o bytes p (.start p k)) := by
  obtain ⟨q, hq, hrest⟩ := caseToken_at table o h hne k
  rw [hq]
  exact ends_word hhan (by rw [wordRest, hk]) hrest

/-- A character that can be the prefix of a word. -/
lemma ends_lettersOr (hk : runClass table o.han c = none)
    (hfront : (isNewline c || table.base.isA .letter c || table.base.isA .number c) = false)
    (h : At bytes p t) {otherwise : Option ℕ}
    (hotherwise : wordRest table o c t = none → Ends table o bytes c t otherwise) :
    Ends table o bytes c t (lettersOr table o bytes p otherwise) := by
  have hword : wordRest table o c t = lettersRest table o.han t := by
    rw [wordRest, hk]
    dsimp only
    rw [hfront, if_neg Bool.false_ne_true]
  rw [lettersOr]
  obtain ⟨d, t', k, q, rfl, hd, hfirst, hq, hne⟩ | ⟨hfirst, hhead⟩ :=
    letterRunFirst_at table o.han h
  · obtain ⟨q', hq', hrest⟩ := caseToken_at table o hq hne k
    rw [hfirst, Option.bind_eq_bind, Option.bind_some]
    dsimp only
    rw [hq']
    refine ends_word hhan ?_ hrest
    rw [hword, lettersRest, hd, Option.map_some]
  · rw [hfirst, Option.bind_eq_bind, Option.bind_some]
    refine hotherwise ?_
    rw [hword]
    cases t with
    | nil => rfl
    | cons d t => rw [lettersRest, hhead d rfl, Option.map_none]

end

/-! ### The scanner implements the regex -/

lemma classOf_base (table : O200kTable) (c : Char) :
    table.base.classOf c.toNat = (table.classOf c.toNat).join := rfl

lemma not_han_ascii {a : Char} (ha : a.toNat < 0x80) : table.isHanChar o.han a = false :=
  O200kTable.not_han_of_ascii ha

lemma runClass_space (table : O200kTable) (han : Bool) : runClass table han ' ' = none :=
  runClass_of_not_isLetter table han (by decide) (by decide)

lemma wordRest_space (table : O200kTable) (o : Flags) (t : List Char) :
    wordRest table o ' ' t = lettersRest table o.han t := by
  rw [wordRest, runClass_space, isA_eq (classOf_space table.base),
    isA_eq (classOf_space table.base)]
  rfl

lemma punctuationRest_space (table : O200kTable) (o : Flags) (t : List Char) :
    punctuationRest table o ' ' t = punctsRest table o t := by
  rw [punctuationRest, isA_eq (classOf_space table.base)]
  rfl

/-- A space that is alone. -/
lemma ends_space (h : At bytes pos t) (hletter : lettersRest table o.han t = none)
    (hother : punctsRest table o t = none)
    (hhead : ∀ d ∈ t.head?, table.base.isA .whitespace d = false) :
    Ends table o bytes ' ' t (some pos) := by
  refine ⟨pos, t, rfl, h, ?_, le_rfl⟩
  rw [first_regex (not_han_ascii (by decide)), wordRest_space, hletter, punctuationRest_space,
    hother, Cl100kFamily.first_spacesQwen2 (isA_eq (classOf_space table.base) .whitespace),
    Cl100kFamily.wsRest_space table.base false hhead, isA_eq (classOf_space table.base)]
  rfl

/-- Behind a space, a run of letters. -/
lemma ends_spaceRun {d : Char} {k : RunClass} (hd : runClass table o.han d = some k)
    (h : At bytes p t) (hne : p ≠ 0) :
    Ends table o bytes ' ' (d :: t) (caseToken table o bytes p (.start p k)) := by
  obtain ⟨q, hq, hrest⟩ := caseToken_at table o h hne k
  rw [hq]
  refine ends_word (not_han_ascii (by decide)) ?_ hrest
  rw [wordRest_space, lettersRest, hd, Option.map_some]

/-- Behind a space, another character, which ends at `p`. -/
lemma ends_spaceClass {d : Char} (hd : runClass table o.han d = none)
    (h : At bytes pos (' ' :: d :: t)) (hp : At bytes p t) :
    Ends table o bytes ' ' (d :: t) (match table.base.classOf d.toNat with
      | .letter | .number => some (pos + 1)
      | .whitespace => wsTokenEnd table bytes pos
      | .other => punctToken table o bytes p) := by
  have hletters : lettersRest table o.han (d :: t) = none := by
    rw [lettersRest, hd, Option.map_none]
  have hword := (wordRest_space table o (d :: t)).trans hletters
  cases hcls : table.base.classOf d.toNat with
  | letter | number =>
      refine ends_space h.tail hletters ?_ fun d' hd' => ?_
      · rw [punctsRest, isA_eq hcls]
        rfl
      · cases hd'
        exact isA_eq hcls .whitespace
  | whitespace =>
      refine ends_spaces (not_han_ascii (by decide)) h hword ?_
        (isA_eq (classOf_space table.base) .whitespace)
      rw [punctuationRest_space, punctsRest, isA_eq hcls]
      rfl
  | other =>
      obtain ⟨q, hq, hrest⟩ := punctToken_at table o hp
      refine ⟨q, _, hq, hrest, ?_, (length_tailRest_le table o t).trans (Nat.le_succ _)⟩
      rw [first_regex (not_han_ascii (by decide)), hword, isA_eq (classOf_space table.base),
        punctuationRest_space, punctsRest, isA_eq hcls]
      rfl

/-- `advance_pos`, behind a space and a character. -/
lemma advanceSpaceClass_at {d : Char} (h : At bytes pos (' ' :: d :: t)) (hp : At bytes p t) :
    Ends table o bytes ' ' (d :: t) (advanceSpaceClass table o bytes pos p
      (table.familyClassOf o.han d.toNat)) := by
  have hne : p ≠ 0 := ne_zero_of_at h.tail hp
  cases hhan : table.isHanChar o.han d with
  | true =>
      obtain ⟨hflag, hfamily⟩ := O200kTable.familyClassOf_of_han hhan
      have hclass := ends_spaceClass (runClass_of_han hhan) h hp
      have hspace := table.han d.toNat (Bool.and_eq_true_iff.mp hhan).2
      rw [← Prod.mk.eta (p := table.familyClassOf o.han d.toNat), hflag, hfamily]
      rw [classOf_base] at hclass
      cases hcls : table.classOf d.toNat with
      | whitespace => exact absurd hcls hspace
      | _ =>
          rw [hcls] at hclass
          exact hclass
  | false =>
      rw [O200kTable.familyClassOf_of_not_han hhan]
      have hrun := runClass_of_not_han hhan
      cases hcls : table.classOf d.toNat with
      | upper | lower | caseless | mark =>
          rw [hcls] at hrun
          exact ends_spaceRun hrun hp hne
      | number | whitespace | other =>
          rw [hcls] at hrun
          have hclass := ends_spaceClass hrun h hp
          rw [classOf_base, hcls] at hclass
          exact hclass

/-- `advance_pos`, behind a space. -/
lemma advanceSpace_at (table : O200kTable) (o : Flags) (h : At bytes pos (' ' :: t)) :
    Ends table o bytes ' ' t (advanceSpace table o bytes pos) := by
  have hnext : At bytes (pos + 1) t := h.tail
  cases t with
  | nil =>
      rw [advanceSpace, hnext.nil]
      exact ends_space hnext rfl rfl fun d hd => absurd hd (Option.not_mem_none d)
  | cons d t =>
      by_cases hd : d.toNat < 0x80
      · obtain ⟨hget, hbehind⟩ := hnext.ascii hd
        have hletter := recognizes_isLetter.isA_eq table.base hd
        have hdigit := recognizes_isDigit.isA_eq table.base hd
        have hws := recognizes_isAsciiWs.isA_eq table.base hd
        rw [advanceSpace, hget]
        dsimp only
        by_cases hl : isLetter (UInt8.ofNat d.toNat) = true
        · obtain ⟨k, hk, hstart⟩ := runClass_of_isLetter table o.han hd hl
          rw [if_pos hl, hstart (pos + 2)]
          exact ends_spaceRun hk hbehind (Nat.succ_ne_zero _)
        · have hclass := ends_spaceClass (runClass_of_not_isLetter table o.han hd hl) h hbehind
          rw [if_neg hl, hdigit, hws, if_pos (UInt8.not_le.mp (not_le_ofNat hd))]
          rw [hletter] at hl
          cases hcls : table.base.classOf d.toNat with
          | letter => exact absurd (isA_eq hcls .letter) hl
          | _ =>
              rw [hcls] at hclass
              rw [isA_eq hcls, isA_eq hcls]
              exact hclass
      · obtain ⟨⟨b, hget, hge⟩, l, hdecode, hbehind⟩ := decodeCp_at hnext (Nat.not_lt.mp hd)
        rw [advanceSpace, hget]
        dsimp only
        rw [isLetter_of_le hge, if_neg Bool.false_ne_true, if_neg (UInt8.not_lt.mpr hge), hdecode,
          Option.bind_eq_bind, Option.bind_some]
        exact advanceSpaceClass_at h hbehind

/-- `advance_pos`, at a character that is not ASCII. -/
lemma advanceNonAscii_at (table : O200kTable) (o : Flags) (h : At bytes pos (c :: t))
    (hp : At bytes p t) (hc : 0x80 ≤ c.toNat) : Ends table o bytes c t
      (advanceNonAscii table o bytes pos p (table.familyClassOf o.han c.toNat)) := by
  have hne : ∀ a : Char, a.toNat < 0x80 → c ≠ a := by
    rintro a ha rfl
    exact absurd ha (Nat.not_lt.mpr hc)
  have hnewline : isNewline c = false := Bool.eq_false_iff.mpr fun hn =>
    (Cl100kFamily.isNewline_iff.mp hn).elim (hne _ (by decide)) (hne _ (by decide))
  cases hhan : table.isHanChar o.han c with
  | true =>
      obtain ⟨hflag, -⟩ := O200kTable.familyClassOf_of_han hhan
      have ho : o.han = true := (Bool.and_eq_true_iff.mp hhan).1
      obtain ⟨q, hq, hrest⟩ := scanHanRun_at table hp
      have hcond : (o.han && true) = true := by rw [ho, Bool.true_and]
      rw [advanceNonAscii, hflag, if_pos hcond, hq]
      refine ⟨q, _, rfl, hrest, ?_, List.length_dropWhile_le _ _⟩
      rw [first_of_han hhan, ho]
  | false =>
      have hrun := runClass_of_not_han hhan
      rw [O200kTable.familyClassOf_of_not_han hhan, advanceNonAscii, Bool.and_false,
        if_neg Bool.false_ne_true]
      dsimp only
      have hA : ∀ k, table.base.isA k c = decide ((table.classOf c.toNat).join = k) :=
        fun k => O200kTable.isA_base k c
      cases hcls : table.classOf c.toNat with
      | upper | lower | caseless | mark =>
          rw [hcls] at hrun
          exact ends_run hhan hrun hp (ne_zero_of_at h hp)
      | number =>
          rw [hcls] at hrun hA
          refine ends_number hhan ?_ (hA .number) hp
          rw [wordRest, hrun, hA, hA, Bool.or_comm]
          rfl
      | whitespace =>
          rw [hcls] at hrun hA
          refine ends_lettersOr hhan hrun (by rw [hnewline, hA, hA]; rfl) hp fun hword => ?_
          refine ends_spaces hhan h hword ?_ (hA .whitespace)
          rw [punctuationRest, hA, if_neg (by decide), if_neg (hne _ (by decide))]
      | other =>
          rw [hcls] at hrun hA
          exact ends_lettersOr hhan hrun (by rw [hnewline, hA, hA]; rfl) hp fun hword =>
            ends_puncts hhan hword (hA .other) hp

/-- A token ends where the leftmost-first match does. -/
theorem scans (table : O200kTable) (o : Flags) :
    Scans (regex table o) (advancePos table o) := by
  intro bytes pos c t h
  change Ends table o bytes c t _
  by_cases hc : c.toNat < 0x80
  · obtain ⟨hget, hnext⟩ := h.ascii hc
    have hhan : table.isHanChar o.han c = false := not_han_ascii hc
    have hletter := recognizes_isLetter.isA_eq table.base hc
    have hdigit := recognizes_isDigit.isA_eq table.base hc
    have hws := recognizes_isAsciiWs.isA_eq table.base hc
    have h32 : UInt8.ofNat c.toNat = 32 ↔ c = ' ' := ofNat_eq_iff (d := ' ') hc (by decide)
    have hnl : (UInt8.ofNat c.toNat = 13 ∨ UInt8.ofNat c.toNat = 10) ↔ isNewline c = true := by
      rw [Cl100kFamily.isNewline_iff]
      exact or_congr (ofNat_eq_iff (d := '\r') hc (by decide))
        (ofNat_eq_iff (d := '\n') hc (by decide))
    have hne : table.base.classOf c.toNat ≠ .whitespace →
        ¬ UInt8.ofNat c.toNat = 32 ∧ isNewline c = false := by
      refine fun hne => ⟨fun hsp => hne ?_, Bool.eq_false_iff.mpr fun hn => hne ?_⟩
      · rw [h32.mp hsp]
        exact classOf_space table.base
      · exact of_decide_eq_true (Cl100kFamily.isA_of_isNewline table.base hn)
    rw [advancePos, hget, Option.bind_eq_bind, Option.bind_some]
    by_cases hl : isLetter (UInt8.ofNat c.toNat) = true
    · obtain ⟨k, hk, hstart⟩ := runClass_of_isLetter table o.han hc hl
      rw [if_pos hl, hstart (pos + 1)]
      exact ends_run hhan hk hnext (Nat.succ_ne_zero _)
    · have hk := runClass_of_not_isLetter table o.han hc hl
      rw [if_neg hl, if_neg (not_le_ofNat hc), hdigit, hws]
      rw [hletter] at hl
      cases hcls : table.base.classOf c.toNat with
      | letter => exact absurd (isA_eq hcls .letter) hl
      | number =>
          have hA := isA_eq hcls
          rw [if_neg (hne (by rw [hcls]; decide)).1, hA, if_pos (by decide)]
          refine ends_number hhan ?_ (hA .number) hnext
          rw [wordRest, hk, hA, hA, Bool.or_comm]
          rfl
      | whitespace =>
          have hA := isA_eq hcls
          by_cases hsp : c = ' '
          · subst hsp
            exact advanceSpace_at table o h
          · have hpunctuation : punctuationRest table o c t = none := by
              rw [punctuationRest, hA, if_neg (by decide), if_neg hsp]
            rw [if_neg (mt h32.mp hsp), hA, if_neg (by decide)]
            by_cases hn : isNewline c = true
            · rw [if_pos (hnl.mpr hn)]
              refine ends_spaces hhan h ?_ hpunctuation (hA .whitespace)
              rw [wordRest, hk, hn]
              rfl
            · rw [if_neg (mt hnl.mp hn), hA, if_pos (by decide : decide (_ = _) = true)]
              have hfront : (isNewline c || table.base.isA .letter c ||
                  table.base.isA .number c) = false := by
                rw [Bool.eq_false_iff.mpr hn, hA, hA]
                rfl
              exact ends_lettersOr hhan hk hfront hnext fun hword =>
                ends_spaces hhan h hword hpunctuation (hA .whitespace)
      | other =>
          have hA := isA_eq hcls
          obtain ⟨hsp, hn⟩ := hne (by rw [hcls]; decide)
          rw [if_neg hsp, hA, if_neg (by decide), if_neg (mt hnl.mp (Bool.eq_false_iff.mp hn)), hA,
            if_neg (by decide)]
          exact ends_lettersOr hhan hk (by rw [hn, hA, hA]; rfl) hnext fun hword =>
            ends_puncts hhan hword (hA .other) hnext
  · obtain ⟨⟨b, hget, hge⟩, l, hdecode, hnext⟩ := decodeCp_at h (Nat.not_lt.mp hc)
    have h32 : b ≠ 32 := by
      rintro rfl
      exact absurd hge (by decide)
    rw [advancePos, hget, Option.bind_eq_bind, Option.bind_some, isLetter_of_le hge,
      if_neg Bool.false_ne_true, if_neg h32, if_pos hge, hdecode, Option.bind_eq_bind,
      Option.bind_some]
    exact advanceNonAscii_at table o h hnext (Nat.not_lt.mp hc)

/-- The phases end a run of letters, with its suffix, where backtracking over the brackets of both
alternatives does. -/
lemma lettersOr_eq (table : O200kTable) (o : Flags) (front t : List Char) :
    lettersOr table o (textBytes (front ++ t)) (textBytes front).length none =
      ((first (seq (star (ulc table o.han))
          (seq (plus (llc table o.han)) (suffix o.contractions))) t).or
        (first (seq (plus (ulc table o.han))
          (seq (star (llc table o.han)) (suffix o.contractions))) t)).map
        fun rest => (textBytes (front ++ t)).length - (textBytes rest).length := by
  have hat : At (textBytes (front ++ t)) (textBytes front).length t := by
    have happend := (at_zero (front ++ t)).append
    rwa [Nat.zero_add] at happend
  rw [first_brackets, lettersOr]
  obtain ⟨c, t, k, p, rfl, hk, hfirst, hp, hne⟩ | ⟨hfirst, hhead⟩ :=
    letterRunFirst_at table o.han hat
  · obtain ⟨q, hq, hrest⟩ := caseToken_at table o hp hne k
    have hlen := hrest.length_eq
    rw [hfirst, Option.bind_eq_bind, Option.bind_some, lettersRest, hk, Option.map_some,
      Option.map_some, Option.map_some]
    dsimp only
    rw [hq, Option.some_inj]
    omega
  · rw [hfirst, Option.bind_eq_bind, Option.bind_some]
    cases t with
    | nil => rfl
    | cons c t => rw [lettersRest, hhead c rfl, Option.map_none, Option.map_none, Option.map_none]

/-- The scalar scanner of the family implements its regexes: for every text, every classification
that agrees with ASCII, and all parameters, those of `o200k`, `nemotron` and `kimi` among them, the
tokens from position 0 are the leftmost-first matches. The phases of `scan_case_run` end a run of
letters, at any position, where backtracking over both alternatives does. -/
theorem segmentation_o200kFamily (o : Flags) (table : O200kTable) :
    (∀ text : List Char, ∃ pieces, Segments (regex table o) text pieces ∧
      pretokens (advancePos table o) (textBytes text) (textBytes text).length 0 =
        some (pieces.map textBytes)) ∧
    ∀ front t : List Char,
      lettersOr table o (textBytes (front ++ t)) (textBytes front).length none =
        ((first (seq (star (ulc table o.han))
            (seq (plus (llc table o.han)) (suffix o.contractions))) t).or
          (first (seq (plus (ulc table o.han))
            (seq (star (llc table o.han)) (suffix o.contractions))) t)).map
          fun rest => (textBytes (front ++ t)).length - (textBytes rest).length :=
  ⟨(scans table o).pretokens_eq, lettersOr_eq table o⟩

end O200kFamily

end Hypertok
