import Hypertok.Bpe.MergeRanked
import Hypertok.Machine.Loop
import Hypertok.PairMerge.Replay

/-!
The part of a `tokenizer.json` that a conversion reads: the vocabulary, the merge list
and the added tokens.

* `orderedModelTokens`: the tokens in the order of their ids, which must be contiguous.
* `sourceRules`: the merge list in ids. The rank of a merge is its place, from one.
-/

namespace Hypertok

open PairMerge Machine

/-- A JSON string, as its scalars. -/
abbrev Text := List Char

/-- `model.vocab`. -/
abbrev VocabMap := AList fun _ : Text => TokenId

/-- `Merge`: a line `left right`, or a pair. -/
inductive MergeLine
  | string (value : Text)
  | pair (left right : Text)
  deriving DecidableEq, Repr

/-- `AddedToken`. -/
structure JsonAddedToken where
  id : TokenId
  content : Text
  singleWord : Bool
  lstrip : Bool
  rstrip : Bool
  normalized : Bool
  special : Bool
  deriving DecidableEq, Repr

/-- `JsonConversionError`, the cases of the vocabulary and the merges, and the panic of an
index that is out of range. -/
inductive JsonConversionError
  | unsupported (field : String)
  | invalidVocabulary (reason : String)
  | invalidId (id : TokenId)
  | invalidByteFallback (token : Text)
  | invalidMerge (index : ℕ)
  | missingMergeProduct (id : TokenId)
  | duplicateBase (codepoint : ℕ)
  | sizeOverflow
  | write
  | outOfRange
  deriving DecidableEq, Repr

/-- `Tokenizer`. -/
structure TokenizerJson where
  vocab : VocabMap
  merges : List MergeLine
  addedTokens : List JsonAddedToken

/-- `str::split_once` at a character. -/
def splitOnce (c : Char) : Text → Option (Text × Text)
  | [] => none
  | d :: s => if d = c then some ([], s) else (splitOnce c s).map fun p => (d :: p.1, p.2)

/-- `Merge::parts`. -/
def MergeLine.parts : MergeLine → Option (Text × Text)
  | .string value => splitOnce ' ' value
  | .pair left right => some (left, right)

/-- One turn of the loop that orders the tokens by id. -/
def placeToken (tokens : List (Option Text)) (x : Text × TokenId) :
    Except JsonConversionError (List (Option Text)) :=
  match tokens[x.2]? with
  | some none => .ok (tokens.set x.2 (some x.1))
  | _ => .error (.invalidId x.2)

/-- The entries of a vocabulary. -/
def VocabMap.toList (vocab : VocabMap) : List (Text × TokenId) :=
  vocab.entries.map fun e => (e.1, e.2)

/-- `ordered_model_tokens`. -/
def orderedModelTokens (vocab : VocabMap) : Except JsonConversionError (List Text) := do
  let tokens ← vocab.toList.foldlM placeToken (List.replicate vocab.entries.length none)
  tokens.mapM fun
    | some token => .ok token
    | none => .error (.invalidVocabulary "model ids are not contiguous")

/-- The ids of a merge: its parts, and the concatenation for its product. -/
def resolveMerge (vocab : VocabMap) (x : MergeLine × ℕ) :
    Except JsonConversionError (Rule ℕ TokenId) :=
  match x.1.parts with
  | none => .error (.invalidMerge x.2)
  | some (left, right) =>
      match vocab.lookup left, vocab.lookup right, vocab.lookup (left ++ right) with
      | some leftId, some rightId, some id => .ok ⟨x.2 + 1, leftId, rightId, id⟩
      | _, _, _ => .error (.invalidMerge x.2)

/-- The merge list in ids. -/
def sourceRules (vocab : VocabMap) (merges : List MergeLine) :
    Except JsonConversionError (List (Rule ℕ TokenId)) :=
  merges.zipIdx.mapM (resolveMerge vocab)

/-! ### What the checks say -/

variable {vocab : VocabMap} {merges : List MergeLine} {tokens : List Text}
  {rules : List (Rule ℕ TokenId)}

lemma VocabMap.mem_toList {t : Text} {id : TokenId} :
    (t, id) ∈ vocab.toList ↔ vocab.lookup t = some id := by
  rw [← Option.mem_def, AList.mem_lookup_iff, VocabMap.toList, List.mem_map]
  constructor
  · rintro ⟨⟨t', id'⟩, hmem, heq⟩
    obtain ⟨rfl, rfl⟩ := Prod.mk.inj heq
    exact hmem
  · exact fun hmem => ⟨⟨t, id⟩, hmem, rfl⟩

/-- The ordered tokens are the vocabulary. -/
theorem orderedModelTokens_ok (h : orderedModelTokens vocab = .ok tokens) :
    tokens.length = vocab.entries.length ∧
      ∀ t id, tokens[id]? = some t ↔ vocab.lookup t = some id := by
  obtain ⟨slots, hslots, htokens⟩ := bind_eq_ok_iff.mp h
  have hinv : slots.length = vocab.entries.length ∧
      ∀ t id, slots[id]? = some (some t) ↔ (t, id) ∈ vocab.toList := by
    refine foldlM_ok (I := fun done slots => slots.length = vocab.entries.length ∧
      ∀ t id, slots[id]? = some (some t) ↔ (t, id) ∈ done) ?_ ?_ hslots
    · refine ⟨List.length_replicate, fun t id => ?_⟩
      simp [List.getElem?_replicate]
    · rintro done ⟨t₀, id₀⟩ slots slots' - ⟨hlen, hmem⟩ hplace
      rw [placeToken] at hplace
      split at hplace
      case h_1 hnone =>
          cases hplace
          have hlt : id₀ < slots.length := (List.getElem?_eq_some_iff.mp hnone).1
          refine ⟨by rwa [List.length_set], fun t id => ?_⟩
          simp only [List.mem_append, List.mem_singleton, Prod.mk.injEq]
          by_cases hid : id = id₀
          · subst hid
            rw [List.getElem?_set_self hlt, ← hmem t id, hnone]
            simp [eq_comm]
          · rw [List.getElem?_set_ne (Ne.symm hid), hmem]
            simp [hid]
      case h_2 => cases hplace
  have hmap : slots = tokens.map some := by
    have hall := mapM_ok_iff.mp htokens
    clear hinv hslots htokens h
    induction hall with
    | nil => rfl
    | @cons slot token _ _ hslot _ ih =>
        cases slot with
        | none => cases hslot
        | some t =>
            cases hslot
            rw [List.map_cons, ih]
  subst hmap
  refine ⟨by simpa using hinv.1, fun t id => ?_⟩
  rw [← VocabMap.mem_toList, ← hinv.2, List.getElem?_map]
  simp

/-- A vocabulary in the order of its ids is ordered. -/
lemma orderedModelTokens_of_toList (h : vocab.toList = tokens.zipIdx) :
    orderedModelTokens vocab = .ok tokens := by
  have hlen : vocab.entries.length = tokens.length := by
    have := congrArg List.length h
    rwa [VocabMap.toList, List.length_map, List.length_zipIdx] at this
  obtain ⟨slots, hslots, hplaced⟩ := foldlM_total (f := placeToken) (l := tokens.zipIdx)
    (b := List.replicate tokens.length none)
    (I := fun done slots => slots = (done.map fun x => some x.1) ++
      List.replicate (tokens.length - done.length) none) (by simp) (by
      rintro done ⟨t, id⟩ slots hdone rfl
      obtain ⟨rest, hrest⟩ := hdone
      have hid : id = done.length := by
        have hget : tokens.zipIdx[done.length]? = some (t, id) := by simp [← hrest]
        simp only [List.getElem?_zipIdx, Option.map_eq_some_iff, Prod.mk.injEq, zero_add] at hget
        obtain ⟨_, -, -, rfl⟩ := hget
        rfl
      have hlt : done.length < tokens.length := by
        have := congrArg List.length hrest
        simp only [List.length_append, List.length_singleton, List.length_zipIdx] at this
        omega
      obtain ⟨k, hk⟩ : ∃ k, tokens.length - done.length = k + 1 :=
        ⟨tokens.length - done.length - 1, by omega⟩
      have hk' : tokens.length - (done.length + 1) = k := by omega
      subst hid
      refine ⟨_, ?_, rfl⟩
      simp [placeToken, hk, hk', List.replicate_succ])
  have hmap : slots = tokens.map some := by
    rw [hplaced, List.length_zipIdx, Nat.sub_self, List.replicate_zero, List.append_nil]
    conv_rhs => rw [← List.zipIdx_map_fst 0 tokens, List.map_map]
    rfl
  rw [orderedModelTokens, h, hlen, hslots, ok_bind, hmap]
  rw [mapM_eq_ok (g := fun slot => slot.getD [])]
  · simp
  · rintro slot hslot
    obtain ⟨t, -, rfl⟩ := List.mem_map.mp hslot
    rfl

/-- A resolved merge: its parts are tokens, and so is their concatenation. -/
lemma resolveMerge_ok {x : MergeLine × ℕ} {r : Rule ℕ TokenId} (h : resolveMerge vocab x = .ok r) :
    r.rank = x.2 + 1 ∧ ∃ left right, vocab.lookup left = some r.left ∧
      vocab.lookup right = some r.right ∧ vocab.lookup (left ++ right) = some r.product := by
  rw [resolveMerge] at h
  split at h
  case h_1 => cases h
  case h_2 left right _ =>
      split at h
      case h_1 hl hr hp =>
          cases h
          exact ⟨rfl, left, right, hl, hr, hp⟩
      case h_2 => cases h

/-- The resolved merges are tokens, in their places. -/
theorem sourceRules_ok (h : sourceRules vocab merges = .ok rules) :
    rules.map Rule.rank = List.range' 1 merges.length ∧
      ∀ r ∈ rules, ∃ left right, vocab.lookup left = some r.left ∧
        vocab.lookup right = some r.right ∧ vocab.lookup (left ++ right) = some r.product := by
  have hall := mapM_ok_iff.mp h
  have hrank : ∀ (l : List MergeLine) (k : ℕ) (rules : List (Rule ℕ TokenId)),
      List.Forall₂ (fun x r => resolveMerge vocab x = .ok r) (l.zipIdx k) rules →
      rules.map Rule.rank = List.range' (k + 1) l.length ∧
        ∀ r ∈ rules, ∃ left right, vocab.lookup left = some r.left ∧
          vocab.lookup right = some r.right ∧ vocab.lookup (left ++ right) = some r.product := by
    intro l
    induction l with
    | nil =>
        intro k rules hl
        rw [List.zipIdx_nil, List.forall₂_nil_left_iff] at hl
        simp [hl]
    | cons x l ih =>
        intro k rules hl
        rw [List.zipIdx_cons, List.forall₂_cons_left_iff] at hl
        obtain ⟨r, rules, hr, hl, rfl⟩ := hl
        obtain ⟨hrank, hparts⟩ := resolveMerge_ok hr
        obtain ⟨hranks, hall⟩ := ih (k + 1) rules hl
        refine ⟨?_, List.forall_mem_cons.mpr ⟨hparts, hall⟩⟩
        rw [List.map_cons, hranks, hrank, List.length_cons, List.range'_succ]
  exact hrank merges 0 rules hall

/-- Later merges have larger ranks. -/
lemma ranked_of_map_rank {n : ℕ} (h : rules.map Rule.rank = List.range' 1 n) : Ranked rules :=
  List.pairwise_map.mp (h ▸ List.pairwise_lt_range')

/-- A token has one id, and an id one token. -/
lemma lookup_inj (h : orderedModelTokens vocab = .ok tokens) {t t' : Text} {id : TokenId}
    (ht : vocab.lookup t = some id) (ht' : vocab.lookup t' = some id) : t = t' := by
  rw [← (orderedModelTokens_ok h).2] at ht ht'
  exact Option.some_inj.mp (ht.symm.trans ht')

lemma lookup_lt (h : orderedModelTokens vocab = .ok tokens) {t : Text} {id : TokenId}
    (ht : vocab.lookup t = some id) : id < tokens.length :=
  (List.getElem?_eq_some_iff.mp (((orderedModelTokens_ok h).2 t id).mpr ht)).1

end Hypertok
