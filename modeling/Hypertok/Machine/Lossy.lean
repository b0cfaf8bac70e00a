import Hypertok.Machine.Utf8

/-!
Lossy reading of UTF-8 in parts. Bytes that are cut in two are read alike together and apart, unless
the cut goes through a character or through what may start one; then the parts have more characters.

* `chunkLen`: the bytes that are read first, for one character or one replacement.
* `ChunkCut`: a cut between the chunks; `chunkCut_iff` says that these are the cuts that change
  nothing, and `chunkCut_or` what the others do.
* `chunkCut_of_head`, `chunkCut_of_text`: cuts that are safe.
-/

namespace Machine

/-- The bytes at the front that are read as one character or one replacement. -/
def chunkLen (s : List UInt8) : ℕ := (utf8CharLen s).getD (utf8InvalidLen s)

/-- What they are read as. -/
def chunkText (s : List UInt8) : List Char :=
  match utf8CharLen s with
  | some k => (fromUtf8 (s.take k)).getD []
  | none => ['\ufffd']

variable {s A B : List UInt8} {k : ℕ}

lemma charAt_iff : CharAt s k ↔ utf8CharLen s = some k :=
  ⟨utf8CharLen_of_charAt, charAt_of_utf8CharLen⟩

lemma CharAt.unique {k' : ℕ} (h : CharAt s k) (h' : CharAt s k') : k = k' :=
  Option.some_inj.mp ((utf8CharLen_of_charAt h).symm.trans (utf8CharLen_of_charAt h'))

/-- A character is one in every text that starts with it. -/
lemma CharAt.append (h : CharAt A k) (B : List UInt8) : CharAt (A ++ B) k := by
  have hstable := h.take_append (A.drop k ++ B)
  rwa [← List.append_assoc, List.take_append_drop] at hstable

lemma CharAt.of_append (h : CharAt (A ++ B) k) (hk : k ≤ A.length) : CharAt A k := by
  have hstable := h.take_append (A.drop k)
  rwa [List.take_append_of_le_length hk, List.take_append_drop] at hstable

lemma utf8InvalidLen_pos (hs : s ≠ []) : 0 < utf8InvalidLen s := by
  match s, hs with
  | [_], _ => exact Nat.one_pos
  | b₀ :: b₁ :: rest, _ =>
      rw [utf8InvalidLen]
      split_ifs <;> decide

lemma utf8InvalidLen_le (s : List UInt8) : utf8InvalidLen s ≤ s.length := by
  match s with
  | [] => exact Nat.le_refl 0
  | [_] => exact Nat.le_refl 1
  | [b₀, b₁] =>
      rw [utf8InvalidLen]
      split_ifs with h₁ h₂ h₃
      · exact Nat.le_refl 2
      · simp at h₃
      · exact Nat.le_refl 2
      · exact (Nat.le_succ 1)
  | b₀ :: b₁ :: b₂ :: rest =>
      rw [utf8InvalidLen]
      simp only [List.length_cons]
      split_ifs <;> omega

lemma chunkLen_pos (hs : s ≠ []) : 0 < chunkLen s := by
  rw [chunkLen]
  cases h : utf8CharLen s with
  | none => exact utf8InvalidLen_pos hs
  | some k => exact (charAt_of_utf8CharLen h).pos

/-- One chunk is read as at most one character. -/
lemma length_chunkText_le (s : List UInt8) : (chunkText s).length ≤ 1 := by
  rw [chunkText]
  cases h : utf8CharLen s with
  | none => exact Nat.le_refl 1
  | some k =>
      dsimp only
      cases htext : fromUtf8 (s.take k) with
      | none => exact Nat.zero_le 1
      | some t =>
          have hbytes := textBytes_of_fromUtf8 htext
          cases t with
          | nil => exact Nat.zero_le 1
          | cons c t =>
              have hchar : CharAt (s.take k) k := by
                simpa using (charAt_of_utf8CharLen h).take_append []
              rw [textBytes_cons] at hbytes
              have hfirst := charAt_utf8EncodeChar c (textBytes t)
              rw [hbytes] at hfirst
              have hlen := congrArg List.length hbytes
              rw [List.length_append, hfirst.unique hchar, List.length_take] at hlen
              have hnil : textBytes t = [] := List.length_eq_zero_iff.mp (by omega)
              rw [textBytes_eq_nil.mp hnil, Option.getD_some, List.length_singleton]

/-! ### Chunk by chunk -/

/-- One step with fuel. -/
lemma fromUtf8LossyUpTo_succ (n : ℕ) (hs : s ≠ []) :
    fromUtf8LossyUpTo (n + 1) s = chunkText s ++ fromUtf8LossyUpTo n (s.drop (chunkLen s)) := by
  obtain ⟨b, s', rfl⟩ := List.exists_cons_of_ne_nil hs
  rw [fromUtf8LossyUpTo, chunkText, chunkLen]
  · cases utf8CharLen (b :: s') <;> rfl
  · exact hs

lemma length_drop_chunkLen (hs : s ≠ []) : (s.drop (chunkLen s)).length < s.length := by
  have hpos := chunkLen_pos hs
  have hlen := List.length_pos_iff.mpr hs
  rw [List.length_drop]
  omega

/-- The fuel bounds the number of chunks. -/
lemma fromUtf8LossyUpTo_eq {n : ℕ} (h : s.length ≤ n) : fromUtf8LossyUpTo n s = fromUtf8Lossy s := by
  have hgen : ∀ (n m : ℕ) (s : List UInt8), s.length ≤ n → s.length ≤ m →
      fromUtf8LossyUpTo n s = fromUtf8LossyUpTo m s := by
    intro n
    induction n with
    | zero =>
        intro m s hn _
        rw [List.length_eq_zero_iff.mp (Nat.le_zero.mp hn)]
        cases m <;> rfl
    | succ n ih =>
        intro m s hn hm
        by_cases hs : s = []
        · subst hs
          cases m <;> rfl
        · have hdrop := length_drop_chunkLen hs
          obtain ⟨m, rfl⟩ : ∃ m', m = m' + 1 := ⟨m - 1, by omega⟩
          rw [fromUtf8LossyUpTo_succ n hs, fromUtf8LossyUpTo_succ m hs,
            ih m _ (by omega) (by omega)]
  exact hgen n _ s h le_rfl

/-- The first chunk is read, and then the rest. -/
lemma fromUtf8Lossy_eq (hs : s ≠ []) :
    fromUtf8Lossy s = chunkText s ++ fromUtf8Lossy (s.drop (chunkLen s)) := by
  have hdrop := length_drop_chunkLen hs
  obtain ⟨n, hn⟩ : ∃ n, s.length = n + 1 := ⟨s.length - 1, by omega⟩
  rw [fromUtf8Lossy, hn, fromUtf8LossyUpTo_succ n hs, fromUtf8LossyUpTo_eq (by omega)]

/-- The bytes of a chunk behind the first one are continuations. -/
lemma isContinuation_of_lt_chunkLen {i : ℕ} {b : UInt8} (hi : 0 < i) (hlt : i < chunkLen s)
    (hb : s[i]? = some b) : isContinuation b = true := by
  rw [chunkLen] at hlt
  cases h : utf8CharLen s with
  | some k =>
      rw [h, Option.getD_some] at hlt
      exact ((charAt_of_utf8CharLen h).isContinuation_iff hlt hb).mpr hi
  | none =>
      rw [h, Option.getD_none] at hlt
      match s, hlt, hb with
      | [_], hlt, _ => exact absurd hlt (Nat.not_lt.mpr hi)
      | b₀ :: b₁ :: rest, hlt, hb =>
          rw [utf8InvalidLen] at hlt
          split_ifs at hlt with h₁ h₂ h₃
          · simp only [Bool.and_eq_true] at h₁
            obtain rfl : i = 1 := by omega
            cases hb
            exact isContinuation_of_isSecondOf3 h₁.2
          · simp only [Bool.and_eq_true] at h₂
            obtain rfl | rfl : i = 1 ∨ i = 2 := by omega
            · cases hb
              exact isContinuation_of_isSecondOf4 h₂.2
            · cases rest with
              | nil => cases hb
              | cons b₂ rest =>
                  cases hb
                  exact h₃
          · simp only [Bool.and_eq_true] at h₂
            obtain rfl : i = 1 := by omega
            cases hb
            exact isContinuation_of_isSecondOf4 h₂.2
          · omega

/-- Bytes that may start a character of which more follow. -/
lemma utf8InvalidLen_of_charAt (h : CharAt (A ++ B) k) (hA : A ≠ []) (hlt : A.length < k) :
    utf8InvalidLen A = A.length := by
  match A, hA, h, hlt with
  | [_], _, _, _ => rfl
  | [b₀, b₁], _, h, hlt =>
      cases h with
      | three h₁ h₂ h₃ h₄ => simp [utf8InvalidLen, h₁, h₂, h₃]
      | four h₁ h₂ h₃ h₄ => simp [utf8InvalidLen, h₁, h₂, UInt8.not_lt.mpr h₁]
      | one h₁ => simp at hlt
      | two h₁ h₂ h₃ => simp at hlt
  | [b₀, b₁, b₂], _, h, hlt =>
      cases h with
      | four h₁ h₂ h₃ h₄ => simp [utf8InvalidLen, h₁, h₂, h₃, UInt8.not_lt.mpr h₁]
      | one h₁ => simp at hlt
      | two h₁ h₂ h₃ => simp at hlt
      | three h₁ h₂ h₃ h₄ => simp at hlt
  | b₀ :: b₁ :: b₂ :: b₃ :: A, _, h, hlt =>
      have : k ≤ 4 := by cases h <;> decide
      simp only [List.length_cons] at hlt
      omega

/-- The bytes of one replacement are found with what follows, as far as they are in the first
part. -/
lemma utf8InvalidLen_append (hA : A ≠ []) :
    utf8InvalidLen (A ++ B) = utf8InvalidLen A ∨
      A.length < utf8InvalidLen (A ++ B) ∧ utf8InvalidLen A = A.length := by
  match A, hA with
  | [b₀], _ =>
      have hpos := utf8InvalidLen_pos (s := [b₀] ++ B) (by simp)
      have hone : utf8InvalidLen [b₀] = 1 := rfl
      rw [hone, List.length_singleton]
      omega
  | [b₀, b₁], _ =>
      cases B with
      | nil => exact .inl rfl
      | cons b₂ B =>
          have hpair : utf8InvalidLen [b₀, b₁] ≤ 2 := utf8InvalidLen_le [b₀, b₁]
          simp only [utf8InvalidLen, List.cons_append, List.nil_append, List.head?_cons,
            List.head?_nil, Option.any_some, Option.any_none, List.length_cons, List.length_nil]
          split_ifs <;> simp_all
  | b₀ :: b₁ :: b₂ :: A, _ => exact .inl rfl

/-- A chunk that ends in the first part is one of it. Otherwise the first part may start a
character, and is read as one replacement on its own. -/
lemma chunk_append (hA : A ≠ []) :
    (chunkLen (A ++ B) = chunkLen A ∧ chunkText (A ++ B) = chunkText A ∧ chunkLen A ≤ A.length) ∨
      (A.length < chunkLen (A ++ B) ∧ chunkLen A = A.length ∧ chunkText A = ['\ufffd']) := by
  cases hchar : utf8CharLen A with
  | some k =>
      have h := charAt_of_utf8CharLen hchar
      have happend := utf8CharLen_of_charAt (h.append B)
      refine .inl ⟨by rw [chunkLen, chunkLen, happend, hchar]; rfl, ?_, ?_⟩
      · rw [chunkText, chunkText, happend, hchar]
        dsimp only
        rw [List.take_append_of_le_length h.le_length]
      · rw [chunkLen, hchar]
        exact h.le_length
  | none =>
      have hlen : chunkLen A = utf8InvalidLen A := by rw [chunkLen, hchar, Option.getD_none]
      have htext : chunkText A = ['\ufffd'] := by rw [chunkText, hchar]
      cases happend : utf8CharLen (A ++ B) with
      | some k =>
          have h := charAt_of_utf8CharLen happend
          have hlt : A.length < k := by
            by_contra hle
            rw [utf8CharLen_of_charAt (h.of_append (Nat.le_of_not_lt hle))] at hchar
            cases hchar
          refine .inr ⟨by rwa [chunkLen, happend], ?_, htext⟩
          rw [hlen, utf8InvalidLen_of_charAt h hA hlt]
      | none =>
          have hlen' : chunkLen (A ++ B) = utf8InvalidLen (A ++ B) := by
            rw [chunkLen, happend, Option.getD_none]
          have htext' : chunkText (A ++ B) = ['\ufffd'] := by rw [chunkText, happend]
          rw [hlen, hlen', htext, htext']
          exact (utf8InvalidLen_append hA).imp (fun heq => ⟨heq, rfl, utf8InvalidLen_le A⟩)
            fun hlt => ⟨hlt.1, hlt.2, rfl⟩

/-- Continuation bytes that start no character are replaced one by one. -/
lemma fromUtf8Lossy_continuation {b : UInt8} (hb : isContinuation b = true) (s : List UInt8) :
    fromUtf8Lossy (b :: s) = '\ufffd' :: fromUtf8Lossy s := by
  have hnone : utf8CharLen (b :: s) = none := by
    refine Option.eq_none_iff_forall_ne_some.mpr fun k hk => ?_
    have h := charAt_of_utf8CharLen hk
    exact Nat.lt_irrefl 0 ((h.isContinuation_iff h.pos rfl).mp hb)
  have hbound : 0x80 ≤ b ∧ b ≤ 0xBF := by simpa [isContinuation] using hb
  have hlt : b < 0xE0 := UInt8.lt_of_le_of_lt hbound.2 (by decide)
  have hlen : chunkLen (b :: s) = 1 := by
    rw [chunkLen, hnone, Option.getD_none]
    cases s with
    | nil => rfl
    | cons b₁ s =>
        rw [utf8InvalidLen, decide_eq_false (UInt8.not_le.mpr hlt),
          decide_eq_false (UInt8.not_le.mpr (UInt8.lt_trans hlt (by decide)))]
        rfl
  rw [fromUtf8Lossy_eq (List.cons_ne_nil b s), hlen, chunkText, hnone]
  rfl

lemma fromUtf8Lossy_drop {j : ℕ} (hj : j ≤ B.length)
    (h : ∀ i < j, ∀ b, B[i]? = some b → isContinuation b = true) :
    fromUtf8Lossy B = List.replicate j '\ufffd' ++ fromUtf8Lossy (B.drop j) := by
  induction j generalizing B with
  | zero => rfl
  | succ j ih =>
      cases B with
      | nil => simp at hj
      | cons b B =>
          rw [fromUtf8Lossy_continuation (h 0 (Nat.succ_pos j) b rfl),
            ih (Nat.le_of_succ_le_succ hj) fun i hi b' hb' => h (i + 1) (Nat.succ_lt_succ hi) b' hb',
            List.drop_succ_cons, List.replicate_succ, List.cons_append]

lemma chunkLen_le (s : List UInt8) : chunkLen s ≤ s.length := by
  rw [chunkLen]
  cases h : utf8CharLen s with
  | none => exact utf8InvalidLen_le s
  | some k => exact (charAt_of_utf8CharLen h).le_length

/-! ### Cuts -/

/-- The cut between two parts lies between the chunks of the whole. -/
inductive ChunkCut : List UInt8 → List UInt8 → Prop
  | nil {B : List UInt8} : ChunkCut [] B
  | step {A B : List UInt8} (hA : A ≠ []) (hle : chunkLen (A ++ B) ≤ A.length)
      (h : ChunkCut (A.drop (chunkLen (A ++ B))) B) : ChunkCut A B

/-- A cut between the chunks changes nothing. -/
lemma ChunkCut.fromUtf8Lossy_append (h : ChunkCut A B) :
    fromUtf8Lossy (A ++ B) = fromUtf8Lossy A ++ fromUtf8Lossy B := by
  induction h with
  | nil => rfl
  | @step A B hA hle _ ih =>
      have happend : A ++ B ≠ [] := fun h => hA (List.append_eq_nil_iff.mp h).1
      obtain ⟨hlen, htext, -⟩ | ⟨hlt, -, -⟩ := chunk_append (B := B) hA
      · rw [fromUtf8Lossy_eq happend, fromUtf8Lossy_eq hA, List.drop_append_of_le_length hle, ih,
          htext, hlen, List.append_assoc]
      · exact absurd hle (Nat.not_le.mpr hlt)

/-- A cut through a chunk lies in front of a continuation byte, and the parts are read as more
characters; only replacements are added. -/
theorem chunkCut_or (A B : List UInt8) : ChunkCut A B ∨
    (∃ b B', B = b :: B' ∧ isContinuation b = true) ∧
      (fromUtf8Lossy (A ++ B)).length < (fromUtf8Lossy A).length + (fromUtf8Lossy B).length ∧
      ∀ c ≠ '\ufffd', (fromUtf8Lossy A).count c + (fromUtf8Lossy B).count c ≤
        (fromUtf8Lossy (A ++ B)).count c := by
  induction hn : A.length using Nat.strong_induction_on generalizing A with
  | _ n ih =>
      by_cases hA : A = []
      · subst hA
        exact .inl .nil
      have happend : A ++ B ≠ [] := fun h => hA (List.append_eq_nil_iff.mp h).1
      obtain ⟨hlen, htext, hle⟩ | ⟨hlt, hlen, htext⟩ := chunk_append (B := B) hA
      · -- the first chunk is the same, and the cut is in the rest
        have hdrop := length_drop_chunkLen hA
        obtain hcut | ⟨hhead, hstrict, hcount⟩ := ih _ (hn ▸ hdrop) (A.drop (chunkLen A)) rfl
        · exact .inl (.step hA (hlen.trans_le hle) (hlen ▸ hcut))
        · rw [fromUtf8Lossy_eq happend, fromUtf8Lossy_eq hA, hlen, htext,
            List.drop_append_of_le_length hle]
          refine .inr ⟨hhead, ?_, fun c hc => ?_⟩
          · simp only [List.length_append]
            omega
          · have := hcount c hc
            simp only [List.count_append] at this ⊢
            omega
      · -- the chunk goes on behind the cut, with continuation bytes
        have hle := chunkLen_le (A ++ B)
        rw [List.length_append] at hle
        have hcont : ∀ i < chunkLen (A ++ B) - A.length, ∀ b, B[i]? = some b →
            isContinuation b = true := by
          intro i hi b hb
          refine isContinuation_of_lt_chunkLen (s := A ++ B) (i := A.length + i)
            (Nat.add_pos_left (List.length_pos_iff.mpr hA) i) (by omega) ?_
          rw [List.getElem?_append_right (Nat.le_add_right _ _), Nat.add_sub_cancel_left, hb]
        have hfirst := length_chunkText_le (A ++ B)
        have hB := fromUtf8Lossy_drop (by omega) hcont
        have hskip : (A ++ B).drop (chunkLen (A ++ B)) = B.drop (chunkLen (A ++ B) - A.length) := by
          rw [List.drop_append, List.drop_eq_nil_of_le hlt.le, List.nil_append]
        have hrest : A.drop (chunkLen A) = [] := List.drop_eq_nil_of_le hlen.ge
        rw [fromUtf8Lossy_eq happend, fromUtf8Lossy_eq hA, htext, hrest, hskip, hB]
        refine .inr ⟨?_, ?_, fun c hc => ?_⟩
        · cases B with
          | nil =>
              rw [List.length_nil, Nat.add_zero] at hle
              exact absurd hle (Nat.not_le.mpr hlt)
          | cons b B => exact ⟨b, B, rfl, hcont 0 (by omega) b rfl⟩
        · simp only [List.length_append, List.length_singleton, List.length_replicate]
          omega
        · have hnone : List.count c ['\ufffd'] = 0 := List.count_eq_zero.mpr (by simpa using hc)
          have hrep : (List.replicate (chunkLen (A ++ B) - A.length) '\ufffd').count c = 0 :=
            List.count_eq_zero.mpr fun hmem => hc (List.eq_of_mem_replicate hmem)
          have hnil : fromUtf8Lossy [] = [] := rfl
          simp only [List.count_append, hnone, hrep, hnil, List.count_nil]
          omega

/-- The cuts that change nothing. -/
theorem chunkCut_iff : ChunkCut A B ↔
    fromUtf8Lossy (A ++ B) = fromUtf8Lossy A ++ fromUtf8Lossy B := by
  refine ⟨ChunkCut.fromUtf8Lossy_append, fun heq => ?_⟩
  obtain hcut | ⟨-, hlt, -⟩ := chunkCut_or A B
  · exact hcut
  · rw [heq, List.length_append] at hlt
    exact absurd hlt (Nat.lt_irrefl _)

/-- The parts have no fewer characters than the whole. -/
lemma length_fromUtf8Lossy_append_le (A B : List UInt8) :
    (fromUtf8Lossy (A ++ B)).length ≤ (fromUtf8Lossy A).length + (fromUtf8Lossy B).length := by
  obtain hcut | ⟨-, hlt, -⟩ := chunkCut_or A B
  · rw [hcut.fromUtf8Lossy_append, List.length_append]
  · exact hlt.le

/-- A cut adds replacements only. -/
lemma count_fromUtf8Lossy_append_le (A B : List UInt8) {c : Char} (hc : c ≠ '\ufffd') :
    (fromUtf8Lossy A).count c + (fromUtf8Lossy B).count c ≤ (fromUtf8Lossy (A ++ B)).count c := by
  obtain hcut | ⟨-, -, hcount⟩ := chunkCut_or A B
  · rw [hcut.fromUtf8Lossy_append, List.count_append]
  · exact hcount c hc

/-- A cut in front of a byte that continues nothing is between the chunks. -/
lemma chunkCut_of_head (A : List UInt8) (h : ∀ b ∈ B.head?, isContinuation b = false) :
    ChunkCut A B := by
  obtain hcut | ⟨⟨b, B', rfl, hb⟩, -⟩ := chunkCut_or A B
  · exact hcut
  · have := h b rfl
    rw [hb] at this
    cases this

/-- Cuts of the same bytes: the chunks behind one are those of the rest. -/
lemma ChunkCut.of_append {C : List UInt8} (h : ChunkCut A (B ++ C)) (h' : ChunkCut (A ++ B) C) :
    ChunkCut B C := by
  generalize hrest : B ++ C = D at h
  induction h with
  | nil => exact h'
  | @step A D hA hle h ih =>
      subst hrest
      generalize hAB : A ++ B = E at h'
      cases h' with
      | nil => exact absurd (List.append_eq_nil_iff.mp hAB).1 hA
      | step _ _ h' =>
          subst hAB
          rw [List.append_assoc, List.drop_append_of_le_length hle] at h'
          exact ih h' rfl

/-- A text in front is read as it is. -/
lemma fromUtf8Lossy_append_of_text (t : List Char) (B : List UInt8) :
    fromUtf8Lossy (textBytes t ++ B) = t ++ fromUtf8Lossy B := by
  induction t with
  | nil => rfl
  | cons c t ih =>
      have hchar := utf8CharLen_of_charAt (charAt_utf8EncodeChar c (textBytes t ++ B))
      have hne : String.utf8EncodeChar c ++ (textBytes t ++ B) ≠ [] := fun h =>
        (length_utf8EncodeChar_pos c).ne' (List.length_eq_zero_iff.mpr (List.append_eq_nil_iff.mp h).1)
      have hone : fromUtf8 (String.utf8EncodeChar c) = some [c] := by
        rw [← fromUtf8_textBytes [c], textBytes_cons, textBytes_nil, List.append_nil]
      rw [textBytes_cons, List.append_assoc, fromUtf8Lossy_eq hne, chunkLen, chunkText, hchar,
        Option.getD_some, List.drop_left]
      dsimp only
      rw [List.take_left, hone, Option.getD_some, ih, List.singleton_append, List.cons_append]

/-- A text does not begin inside a character. -/
lemma isContinuation_textBytes {t : List Char} {b : UInt8} {s : List UInt8}
    (h : textBytes t = b :: s) : isContinuation b = false := by
  cases t with
  | nil => cases h
  | cons c t =>
      have hchar := charAt_utf8EncodeChar c (textBytes t)
      rw [← textBytes_cons, h] at hchar
      simpa using (hchar.isContinuation_iff hchar.pos rfl).not

/-- A cut behind a text is between the chunks. -/
lemma chunkCut_of_text (t : List Char) (B : List UInt8) : ChunkCut (textBytes t) B := by
  rw [chunkCut_iff, fromUtf8Lossy_append_of_text, fromUtf8Lossy_textBytes]

end Machine
