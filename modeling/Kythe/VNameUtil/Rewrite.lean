import Kythe.Proto
import Kythe.VNameUtil.Regexp

/-!
# Rewrite rules

A `Rule` pairs a compiled pattern with a VName template; `Rule.Apply` succeeds when the
pattern matches the input.  `pattern.UnmarshalJSON` anchors a pattern string by putting "^"
in front of it unless it starts with one and "$" after it unless it ends with one, and then
compiles it.  The anchors are added to the string, not around the expression: in "^a|b$"
"^" belongs to the first branch and "$" to the second (`apply_matches_outside_language`).
For a pattern that is one concatenation at its outermost level, and has no anchor of its own
at either end, they are the first and last items of that concatenation, and the rule
applies to an ASCII input exactly when the input is wholly in the pattern's language
(`unmarshalPattern_fullMatch`).
-/

namespace Kythe.VNameUtil

/-- `Rule`: a pattern and the template of the VName it makes. -/
structure Rule where
  regexp : Regexp
  vName : VName

/-- `Rule.Apply` succeeds: `FindStringSubmatchIndex` finds a match in `input`. -/
def Rule.applies (r : Rule) (input : Bytes) : Bool :=
  r.regexp.matchString input

/-- The errors of `pattern.UnmarshalJSON` after the JSON string is decoded. -/
inductive Error where
  /-- "invalid regular expression: %v" -/
  | invalidRegularExpression (e : ParseError)
  deriving DecidableEq, Repr

/-- The pattern string `UnmarshalJSON` compiles: "^" in front unless `s` starts with "^",
"$" after unless it ends with "$". -/
def anchorPattern (s : Bytes) : Bytes :=
  let s := if [94].isPrefixOf s then s else 94 :: s
  if [36].isSuffixOf s then s else s ++ [36]

/-- `pattern.UnmarshalJSON`, from the decoded string. -/
def unmarshalPattern (s : Bytes) : Except Error Regexp :=
  match compile (anchorPattern s) with
  | .error e => .error (.invalidRegularExpression e)
  | .ok r => .ok r

/-- The pattern "a|b" is accepted, and its rule applies to "ax", which is not in the
language of "a|b": the pattern compiled is "^a|b$", whose first branch is "^a". -/
theorem apply_matches_outside_language (vName : VName) :
  ∃ re, unmarshalPattern [97, 124, 98] = .ok re ∧ (Rule.mk re vName).applies [97, 120] = true ∧
    ∃ re₀, compile [97, 124, 98] = .ok re₀ ∧ re₀.fullMatch [97, 120] = false
  := ⟨_, rfl, rfl, _, rfl, rfl⟩

/-! ### Patterns the anchors fit -/

/-- `UnmarshalJSON` puts both anchors around a pattern that neither starts with "^" nor ends
with "$". -/
theorem anchorPattern_eq {s : Bytes} (hb : s.head? ≠ some 94) (he : s.getLast? ≠ some 36) :
  anchorPattern s = 94 :: (s ++ [36])
  := by
  have h₁ : [94].isPrefixOf s = false := by
    cases s with
    | nil => rfl
    | cons a s =>
      simp only [List.isPrefixOf, Bool.and_true, beq_eq_false_iff_ne]
      exact fun h => hb (by rw [← h]; rfl)
  have h₂ : [36].isSuffixOf (94 :: s) = false := by
    induction s using List.reverseRecOn with
    | nil => rfl
    | append_singleton s a _ =>
      simp only [List.isSuffixOf, List.reverse_cons, List.reverse_append, List.reverse_singleton,
        List.singleton_append, List.cons_append, List.isPrefixOf, Bool.and_true, beq_eq_false_iff_ne]
      exact fun h => he (by rw [List.getLast?_append, ← h]; rfl)
  simp only [anchorPattern, h₁, h₂, Bool.false_eq_true, ↓reduceIte, List.cons_append]

theorem Frame.close_nil (items : List Regexp) :
  Frame.close ⟨[], items⟩ = concatOf items.reverse
  := rfl

theorem alternateOf_cons {r : Regexp} {rs : List Regexp} (h : rs ≠ []) :
  alternateOf (r :: rs) = .alternate r (alternateOf rs)
  := by
  cases rs with
  | nil => exact absurd rfl h
  | cons => rfl

/-- A group with a finished branch closes into an alternation. -/
theorem Frame.close_of_ne_nil {alts : List Regexp} (items : List Regexp) (h : alts ≠ []) :
  ∃ r₁ r₂, Frame.close ⟨alts, items⟩ = .alternate r₁ r₂
  := by
  obtain ⟨a, alts, rfl⟩ := List.exists_cons_of_ne_nil h
  exact ⟨a, _, alternateOf_cons (by simp)⟩

/-- The rule of a pattern that compiles (an ASCII pattern of the modelled fragment), is not an
alternation at its outermost level, and neither starts with "^" nor ends with "$" applies to an
ASCII input exactly when the whole input is in the pattern's language: the anchors added to
the string are then items of the one concatenation the pattern is. -/
theorem unmarshalPattern_fullMatch {s : Bytes} {r : Regexp} (h : compile s = .ok r)
    (halt : ∀ r₁ r₂, r ≠ .alternate r₁ r₂) (hb : s.head? ≠ some 94) (he : s.getLast? ≠ some 36) :
  ∃ re, unmarshalPattern s = .ok re ∧
    ∀ vName input, IsAscii input → (Rule.mk re vName).applies input = r.fullMatch input
  := by
  unfold compile at h
  split at h
  · cases h
  swap; · cases h
  · next f hf =>
    cases h
    obtain ⟨fin', hp', hs⟩ := parseLoop_shifted (Shifted.bottom (b := .beginText) []) hf
    cases hs with
    | bottom items =>
      have hanch : compile (anchorPattern s) =
          .ok (Frame.close ⟨[], .endText :: (items ++ [.beginText])⟩) := by
        have hp'' : parseLoop (push .beginText [Frame.empty]) 0 (s ++ [36]) =
            .ok (push .endText [⟨[], items ++ [.beginText]⟩]) := parseLoop_append_endText hp'
        rw [anchorPattern_eq hb he, compile, parseLoop_beginText, hp'']
        rfl
      refine ⟨_, by rw [unmarshalPattern, hanch], fun _ input _ => ?_⟩
      rw [Frame.close_nil, Frame.close_nil, Rule.applies, ← matchString_concatOf_anchored]
      simp
    | barred items halts _ =>
      obtain ⟨r₁, r₂, hr⟩ := Frame.close_of_ne_nil items halts
      exact absurd hr (halt r₁ r₂)
    | cons _ h₀ => cases h₀

/-- "(a|b)*" is anchored around its one item. -/
theorem unmarshalPattern_fullMatch_star :
  ∃ re, unmarshalPattern [40, 97, 124, 98, 41, 42] = .ok re ∧
    ∀ vName input, IsAscii input → (Rule.mk re vName).applies input =
      (Regexp.star (.capture (.alternate (.literal 97) (.literal 98)))).fullMatch input
  := unmarshalPattern_fullMatch rfl (fun _ _ h => Regexp.noConfusion h) (by decide) (by decide)

end Kythe.VNameUtil
