import DS4.Lib.LastWord
import DS4.Server.DecodeLoop

namespace DS4.Server

/-!
# Server — the thinking tracker as an automaton on tags

`thinking_state` keeps eight bytes of what it has been fed and a flag.  The pieces it is fed are
tokens, so a tag may be cut anywhere.

* `thinkTags` — the two tags; neither ends the other, and both fit the eight bytes.
* `feedByte_tail`, `feedByte_inside` — one byte: the tail is the last eight bytes of the text, and
  the flag changes when the text ends with a tag.
* `thinking_feed_chunks` — **the tracker** is inside thinking exactly when the tag completed last
  is `<think>`, whatever the pieces.
-/

open Lib

/-- The two tags. -/
def thinkTags : List Bytes := [THINK_START, THINK_END]

/-- What the tracker needs of the tags; `char tail[8]` is long enough for either. -/
theorem thinkTags_spec :
    (∀ t ∈ thinkTags, ∀ t' ∈ thinkTags, t <:+ t' → t = t') ∧ THINK_START ≠ THINK_END ∧
      ∀ t ∈ thinkTags, t ≠ [] ∧ t.length ≤ 8 := by
  decide +kernel

theorem thinkTags_suffixFree : SuffixFree thinkTags := (thinkTags_spec).1

theorem start_mem_thinkTags : THINK_START ∈ thinkTags := by simp [thinkTags]

theorem end_mem_thinkTags : THINK_END ∈ thinkTags := by simp [thinkTags]

/-! ### One byte -/

/-- What the flag says of a text: of the two tags `<think>` was completed last, or there is none
    and the flag was set before. -/
def Thinking (inside : Bool) (s : Bytes) : Prop :=
  LastWord thinkTags s THINK_START ∨ (¬ HasWord thinkTags s ∧ inside = true)

/-- The state after the text `s`. -/
structure TracksTags (inside : Bool) (s : Bytes) (st : ThinkingState) : Prop where
  tail : st.tail = window 8 s
  inside : st.inside = true ↔ Thinking inside s

theorem tracksTags_nil (inside : Bool) : TracksTags inside [] ⟨inside, []⟩ where
  tail := (window_nil).symm
  inside := by
    have hno : ¬ HasWord thinkTags [] := by
      rintro ⟨t, ht, hin⟩
      obtain rfl : t = [] := by simpa using hin
      exact ((thinkTags_spec).2.2 [] ht).1 rfl
    constructor
    · intro h
      exact Or.inr ⟨hno, h⟩
    · rintro (h | ⟨-, h⟩)
      · exact absurd h.hasWord hno
      · exact h

variable {inside : Bool} {s : Bytes} {st : ThinkingState}

theorem TracksTags.feedByte (h : TracksTags inside s st) (c : UInt8) :
    TracksTags inside (s ++ [c]) (st.feedByte c) := by
  have htail : (st.feedByte c).tail = window 8 (s ++ [c]) := by
    show (if st.tail.length = 8 then st.tail.drop 1 else st.tail) ++ [c] = _
    rw [h.tail]
    exact window_snoc (by decide) c
  -- the tail ends with a tag when the whole text does
  have hends : ∀ t ∈ thinkTags, (t.isSuffixOf (st.feedByte c).tail = true ↔ t <:+ s ++ [c]) := by
    intro t ht
    rw [List.isSuffixOf_iff_suffix, htail]
    exact suffix_window ((thinkTags_spec).2.2 t ht).2
  refine ⟨htail, ?_⟩
  show (if THINK_START.isSuffixOf (st.feedByte c).tail then true
    else if THINK_END.isSuffixOf (st.feedByte c).tail then false else st.inside) = true ↔ _
  by_cases hstart : THINK_START.isSuffixOf (st.feedByte c).tail = true
  · rw [if_pos hstart]
    have hlast := lastWord_of_suffix start_mem_thinkTags ((hends _ start_mem_thinkTags).mp hstart)
    exact iff_of_true rfl (Or.inl hlast)
  rw [if_neg hstart]
  by_cases hend : THINK_END.isSuffixOf (st.feedByte c).tail = true
  · rw [if_pos hend]
    have hlast := lastWord_of_suffix end_mem_thinkTags ((hends _ end_mem_thinkTags).mp hend)
    refine iff_of_false Bool.false_ne_true ?_
    rintro (hwrong | ⟨hnone, -⟩)
    · exact (thinkTags_spec).2.1 (hwrong.unique thinkTags_suffixFree hlast)
    · exact hnone hlast.hasWord
  · -- no tag ends here: the last one is where it was
    rw [if_neg hend, h.inside]
    have hno : ∀ t ∈ thinkTags, ¬ t <:+ s ++ [c] := by
      intro t ht hsuf
      have hbytes := (hends t ht).mpr hsuf
      rcases List.mem_pair.mp ht with rfl | rfl
      · exact hstart hbytes
      · exact hend hbytes
    unfold Thinking
    rw [lastWord_snoc hno, hasWord_snoc hno]

/-! ### Any pieces -/

theorem TracksTags.feed (h : TracksTags inside s st) (p : Bytes) : TracksTags inside (s ++ p) (st.feed p) := by
  induction p generalizing s st with
  | nil => simpa [ThinkingState.feed] using h
  | cons c p ih =>
    have := ih (h.feedByte c)
    rwa [List.append_assoc] at this

theorem TracksTags.feedAll (h : TracksTags inside s st) (chunks : List Bytes) :
    TracksTags inside (s ++ chunks.flatten) (chunks.foldl ThinkingState.feed st) := by
  induction chunks generalizing s st with
  | nil => simpa using h
  | cons p chunks ih =>
    have := ih (h.feed p)
    rwa [List.append_assoc] at this

/-- **The tracker.** Whatever pieces a text is fed in, the state is inside thinking after the last
    of them exactly when the tag that the whole text completes last is `<think>`, and as it was
    when the text has no tag. -/
theorem thinking_feed_chunks (inside : Bool) (chunks : List Bytes) :
    (chunks.foldl ThinkingState.feed ⟨inside, []⟩).inside = true ↔
      LastWord thinkTags chunks.flatten THINK_START ∨
        (¬ HasWord thinkTags chunks.flatten ∧ inside = true) :=
  ((tracksTags_nil inside).feedAll chunks).inside

/-- `</think>` cut after five bytes, and a second `<` before the tag. -/
example :
    ([lit "a<think>b</thi", lit "nk>c<", lit "<thin"].foldl ThinkingState.feed ⟨true, []⟩).inside
      = false := by decide +kernel

end DS4.Server
