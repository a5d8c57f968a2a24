import DS4.Tokenizer.Pretokenize

namespace DS4.Tokenizer

/-!
# Tokenizer — rendered chats

A rendered chat is a text with the markers of special tokens in it.  The tokenizer goes over the text
byte by byte; a marker ends the span before it, and becomes one token.

* `specialTokenAt`, `tokenizeRenderedChatVocab` — the functions of the tokenizer.
* `Segmented` — the tokens of a text that is made of markers and of spans where no marker starts.
* `rendered_chat_round_trip` — **no byte is lost**.
-/

open DS4.Lib

/-- The markers of `special_token_at`. -/
def specials (v : Vocab) : List (Bytes × Int) :=
  [(BOS, v.bosId), (EOS, v.eosId), (USER, v.userId), (ASSISTANT, v.assistantId),
   (THINK_START, v.thinkStartId), (THINK_END, v.thinkEndId), (DSML, v.dsmlId)]

/-- `special_token_at`: the token, and how long its marker is. -/
def specialTokenAt (v : Vocab) (p : Bytes) : Option (Int × Nat) :=
  (specials v).findSome? fun special =>
    if special.1 <+: p then some (special.2, special.1.length) else none

/-- `tokenize_span` -/
def tokenizeSpan (v : Vocab) (span : Bytes) : List Int := if span = [] then [] else bpeTokenizeText v span

/-- The loop of `tokenize_rendered_chat_vocab`, with the span that is open; a round takes at least a
    byte. -/
def chatLoop (v : Vocab) : Nat → Bytes → Bytes → List Int
  | fuel + 1, span, c :: p =>
    match specialTokenAt v (c :: p) with
    | some (token, len) => tokenizeSpan v span ++ token :: chatLoop v fuel [] ((c :: p).drop len)
    | none              => chatLoop v fuel (span ++ [c]) p
  | _, span, _             => tokenizeSpan v span

/-- `tokenize_rendered_chat_vocab` -/
def tokenizeRenderedChatVocab (v : Vocab) (text : Bytes) : List Int :=
  chatLoop v (cstr text).length [] (cstr text)

/-- No marker starts in the span, which is followed by a text. -/
def Unmarked (v : Vocab) (span text : Bytes) : Prop :=
  ∀ k < span.length, specialTokenAt v ((span ++ text).drop k) = none

/-- The tokens of a text that is made of markers and spans: each marker is its one token, and the tokens
    of a span have the span as their text. -/
inductive Segmented (v : Vocab) : Bytes → List Int → Prop
  | done : Segmented v [] []
  | marker {marker token text tokens} (hspecial : (marker, token) ∈ specials v)
      (hrest : Segmented v text tokens) : Segmented v (marker ++ text) (token :: tokens)
  | span {span text spanTokens tokens} (hspan : Unmarked v span text)
      (htext : spanTokens.flatMap (tokenText v) = span) (hrest : Segmented v text tokens) :
      Segmented v (span ++ text) (spanTokens ++ tokens)

/-! ### Markers -/

variable {v : Vocab} {tokens merges : List Bytes} {text p span : Bytes}

theorem specialTokenAt_some {token : Int} {len : Nat} (h : specialTokenAt v p = some (token, len)) :
    ∃ marker, (marker, token) ∈ specials v ∧ marker <+: p ∧ len = marker.length ∧ marker ≠ [] := by
  unfold specialTokenAt at h
  obtain ⟨⟨marker, token'⟩, hmem, hsome⟩ := List.exists_of_findSome?_eq_some h
  have hne : ∀ s ∈ specials v, s.1 ≠ [] := by
    intro s hs
    have hmarker : s.1 ∈ [BOS, EOS, USER, ASSISTANT, THINK_START, THINK_END, DSML] :=
      List.mem_map_of_mem (f := Prod.fst) hs
    have hall : ∀ m ∈ [BOS, EOS, USER, ASSISTANT, THINK_START, THINK_END, DSML], m ≠ [] := by
      decide +kernel
    exact hall _ hmarker
  split at hsome
  · rename_i hprefix
    obtain ⟨rfl, rfl⟩ := Prod.mk.inj (Option.some.inj hsome)
    exact ⟨marker, hmem, hprefix, rfl, hne _ hmem⟩
  · cases hsome

/-- **A special token** has its marker as its text. -/
theorem tokenText_special (h : vocabLoad tokens merges = some v) {marker : Bytes} {token : Int}
    (hspecial : (marker, token) ∈ specials v) : tokenText v token = marker := by
  obtain ⟨-, -, -, -, h₁, h₂, h₃, h₄, h₅, h₆, h₇⟩ := vocabLoad_eq h
  have htext : v.tokenToId.lookup marker = some token ∧
      (if vocabTokenIsLiteralSpecial marker then marker else decodeText marker) = marker := by
    unfold specials at hspecial
    simp only [List.mem_cons, Prod.mk.injEq, List.not_mem_nil, or_false] at hspecial
    rcases hspecial with ⟨rfl, rfl⟩ | ⟨rfl, rfl⟩ | ⟨rfl, rfl⟩ | ⟨rfl, rfl⟩ | ⟨rfl, rfl⟩ | ⟨rfl, rfl⟩ |
      ⟨rfl, rfl⟩
    · exact ⟨h₁, by decide +kernel⟩
    · exact ⟨h₂, by decide +kernel⟩
    · exact ⟨h₃, by decide +kernel⟩
    · exact ⟨h₄, by decide +kernel⟩
    · exact ⟨h₅, by decide +kernel⟩
    · exact ⟨h₆, by decide +kernel⟩
    · exact ⟨h₇, by decide +kernel⟩
  obtain ⟨hpos, hlt, htoken⟩ := token_of_lookup h htext.1
  unfold tokenText
  rw [if_neg (by omega)]
  dsimp only
  rw [htoken]
  exact htext.2

/-! ### The loop -/

theorem tokenText_tokenizeSpan (h : vocabLoad tokens merges = some v) (hc : Complete tokens merges)
    (hspan : (0 : UInt8) ∉ span) : (tokenizeSpan v span).flatMap (tokenText v) = span := by
  unfold tokenizeSpan
  split
  · rename_i hs
    rw [hs, List.flatMap_nil]
  · rw [tokenText_bpeTokenizeText h hc, cstr_eq_self hspan]

/-- **The loop** cuts the text into markers and spans. -/
theorem chatLoop_segmented (h : vocabLoad tokens merges = some v) (hc : Complete tokens merges) :
    ∀ (fuel : Nat) (span p : Bytes), p.length ≤ fuel → (0 : UInt8) ∉ span ++ p → Unmarked v span p →
      Segmented v (span ++ p) (chatLoop v fuel span p) := by
  -- a span at the end of the text
  have hend : ∀ span : Bytes, (0 : UInt8) ∉ span → Unmarked v span [] →
      Segmented v (span ++ []) (tokenizeSpan v span) := by
    intro span hnul hspan
    have hlast := Segmented.span hspan (tokenText_tokenizeSpan h hc hnul) Segmented.done
    rwa [List.append_nil (tokenizeSpan v span)] at hlast
  intro fuel
  induction fuel with
  | zero =>
    intro span p hlen hnul hspan
    obtain rfl := List.eq_nil_of_length_eq_zero (Nat.le_zero.mp hlen)
    exact hend span (by simpa using hnul) hspan
  | succ fuel ih =>
    intro span p hlen hnul hspan
    cases p with
    | nil => exact hend span (by simpa using hnul) hspan
    | cons c p =>
      unfold chatLoop
      cases hsp : specialTokenAt v (c :: p) with
      | some found =>
        obtain ⟨token, len⟩ := found
        dsimp only
        obtain ⟨marker, hmem, ⟨rest, hrest⟩, rfl, hne⟩ := specialTokenAt_some hsp
        rw [← hrest] at hlen hnul hspan ⊢
        rw [List.drop_left]
        have hpos := List.length_pos_of_ne_nil hne
        rw [List.length_append] at hlen
        have hnul' : (0 : UInt8) ∉ span ∧ (0 : UInt8) ∉ rest := by
          simp only [List.mem_append, not_or] at hnul
          exact ⟨hnul.1, hnul.2.2⟩
        apply Segmented.span hspan (tokenText_tokenizeSpan h hc hnul'.1)
        apply Segmented.marker hmem
        exact ih [] rest (by omega) hnul'.2 fun k hk => absurd hk (Nat.not_lt_zero k)
      | none =>
        dsimp only
        rw [List.length_cons] at hlen
        have hsplit : span ++ c :: p = (span ++ [c]) ++ p := by simp
        rw [hsplit] at hnul ⊢
        apply ih (span ++ [c]) p (by omega) hnul
        -- no marker starts at the byte that joins the span
        intro k hk
        rw [List.length_append, List.length_singleton] at hk
        rw [← hsplit]
        rcases Nat.lt_succ_iff_lt_or_eq.mp hk with hlt | rfl
        · exact hspan k hlt
        · rw [List.drop_left]
          exact hsp

theorem Segmented.flatMap_tokenText (h : vocabLoad tokens merges = some v) {ids : List Int}
    (hseg : Segmented v text ids) : ids.flatMap (tokenText v) = text := by
  induction hseg with
  | done => rfl
  | marker hspecial _ ih => rw [List.flatMap_cons, tokenText_special h hspecial, ih]
  | span _ htext _ ih => rw [List.flatMap_append, htext, ih]

/-- **No byte is lost.** For a vocabulary with a token for each symbol and for the result of each merge,
    the loops of the tokenizer end, the texts of the tokens of a text make up the text, and its markers
    are the special tokens. -/
theorem rendered_chat_round_trip (h : vocabLoad tokens merges = some v) (hc : Complete tokens merges)
    (hnul : (0 : UInt8) ∉ text) :
    (∀ sym, bestMerge v (mergeSymbols v sym) = none) ∧
      (tokenizeRenderedChatVocab v text).flatMap (tokenText v) = text ∧
      Segmented v text (tokenizeRenderedChatVocab v text) := by
  have hseg : Segmented v text (tokenizeRenderedChatVocab v text) := by
    unfold tokenizeRenderedChatVocab
    rw [cstr_eq_self hnul]
    exact chatLoop_segmented h hc _ [] text (Nat.le_refl _) hnul fun k hk => absurd hk (Nat.not_lt_zero k)
  exact ⟨mergeSymbols_done v, hseg.flatMap_tokenText h, hseg⟩

/-! ### A vocabulary -/

/-- A token for each byte and for each marker, and one merge. -/
def sampleTokens : List Bytes :=
  (List.range 256).map (fun b => symbol (UInt8.ofNat b)) ++
    [BOS, EOS, USER, ASSISTANT, THINK_START, THINK_END, DSML, lit "hi"]

def sampleMerges : List Bytes := [lit "h i"]

theorem exists_vocabLoad (hlen : tokens.length ≤ 0x7fffffff)
    (h : ∀ m ∈ [BOS, EOS, USER, ASSISTANT, THINK_START, THINK_END, DSML], m ∈ tokens) :
    ∃ v, vocabLoad tokens merges = some v := by
  have hid : ∀ m ∈ [BOS, EOS, USER, ASSISTANT, THINK_START, THINK_END, DSML],
      ∃ token, (tablePutAll 0 tokens ∅).lookup m = some token := by
    intro m hm
    rcases lookup_tablePutAll tokens 0 ∅ m with ⟨-, hnot⟩ | ⟨j, -, hl⟩
    · exact absurd (h m hm) hnot
    · exact ⟨_, hl⟩
  simp only [List.forall_mem_cons] at hid
  obtain ⟨⟨i₁, h₁⟩, ⟨i₂, h₂⟩, ⟨i₃, h₃⟩, ⟨i₄, h₄⟩, ⟨i₅, h₅⟩, ⟨i₆, h₆⟩, ⟨i₇, h₇⟩, -⟩ := hid
  unfold vocabLoad
  rw [if_neg (Nat.not_lt.mpr hlen)]
  simp [h₁, h₂, h₃, h₄, h₅, h₆, h₇]

theorem complete_sample : Complete sampleTokens sampleMerges := by
  refine ⟨fun b => ?_, fun a b hmem ha hb => ?_⟩
  · apply List.mem_append_left
    exact List.mem_map.mpr ⟨b.toNat, List.mem_range.mpr b.toNat_lt, by rw [UInt8.ofNat_toNat]⟩
  · have heq : a ++ 0x20 :: b = [0x68, 0x20, 0x69] := List.mem_singleton.mp hmem
    -- the space of the merge is the one between its symbols
    rcases a with _ | ⟨x, _ | ⟨y, a⟩⟩
    · simp at heq
    · simp only [List.cons_append, List.nil_append, List.cons.injEq, true_and] at heq
      obtain ⟨rfl, rfl⟩ := heq
      apply List.mem_append_right
      decide +kernel
    · simp only [List.cons_append, List.cons.injEq] at heq
      obtain ⟨rfl, rfl, heq⟩ := heq
      simp at ha

theorem exists_vocabLoad_sample : ∃ v, vocabLoad sampleTokens sampleMerges = some v := by
  apply exists_vocabLoad
  · simp [sampleTokens]
  · intro m hm
    apply List.mem_append_right
    exact List.mem_append_left [lit "hi"] hm

theorem rendered_chat_round_trip_sample :
    ∃ v, vocabLoad sampleTokens sampleMerges = some v ∧
      (∀ sym, bestMerge v (mergeSymbols v sym) = none) ∧
      (tokenizeRenderedChatVocab v (lit "<｜User｜>hi<think>")).flatMap (tokenText v) =
        lit "<｜User｜>hi<think>" ∧
      Segmented v (lit "<｜User｜>hi<think>") (tokenizeRenderedChatVocab v (lit "<｜User｜>hi<think>")) := by
  obtain ⟨v, hv⟩ := exists_vocabLoad_sample
  exact ⟨v, hv, rendered_chat_round_trip hv complete_sample (by decide +kernel)⟩

end DS4.Tokenizer
