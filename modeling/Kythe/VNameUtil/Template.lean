import Kythe.VNameUtil.Expand
import Kythe.VNameUtil.Rewrite

/-!
# Rule templates

A rule's VName fields are templates in which `@name@` stands for a group of the match.
`rewriteRule.toRule` rewrites each template with `fixTemplate` into the syntax of
`regexp.Expand`: every "$" is doubled, then every match of `fieldRE`, "@(\w+)@", becomes
`${name}`; `Rule.expand` hands the result to `Expand`.

`markerPieces` reads a template as the bytes and markers a reader sees in it: at each
position, the marker "@name@" starting there, if any, else the byte there.  It reads a marker
off its syntax (`markerAt`), with the name bytes of `\w` as the syntax of `regexp` lists them
(`isNameByte`), and `fieldRE` matches exactly where such a marker starts
(`fieldREMatch_eq_markerAt`).  Go's `ReplaceAllStringFunc` loop, which looks for the leftmost
match and copies the text before it, reads the same pieces (`replaceAllStringFunc_eq`);
doubling the "$"s changes no marker (`markerPieces_replace`); and `Expand` reads the doubled
"$"s back as single ones and each `${name}` as its group.  So a template expands to itself with each of its leftmost markers
replaced by what `Expand` writes for `${name}`, every other byte copied
(`expand_fixTemplate`).
-/

namespace Kythe.VNameUtil

/-- `Rule.expand`: the template with each `$name` or `${name}` replaced by the group of the
match `m` of the rule's pattern on `input`. -/
def Rule.expand (r : Rule) (m : List Int) (input template : Bytes) : Bytes :=
  VNameUtil.expand r.regexp.subexpNames input m template

/-! ### `fieldRE` -/

/-- The match of `fieldRE`, "@(\w+)@", at the start of `s`: the name between the two "@"s and
what follows.  `\w+` takes the longest run of word bytes, and "@", which is not one, must come
right after it. -/
def fieldREMatch : Bytes → Option (Bytes × Bytes)
  | [] => none
  | c :: s =>
    if c = 64 then
      match s.span isWordByte with
      | (name, d :: rest) => if d = 64 ∧ name ≠ [] then some (name, rest) else none
      | (_, []) => none
    else none

/-- The leftmost match of `fieldRE` in `s`: the text before it, the name, and what follows. -/
def fieldREFind : Bytes → Option (Bytes × Bytes × Bytes)
  | [] => none
  | c :: s =>
    match fieldREMatch (c :: s) with
    | some (name, rest) => some ([], name, rest)
    | none => (fieldREFind s).map fun (before, name, rest) => (c :: before, name, rest)

theorem fieldREMatch_eq_some {s name rest : Bytes} :
  fieldREMatch s = some (name, rest) ↔
    name ≠ [] ∧ (∀ c ∈ name, isWordByte c) ∧ s = 64 :: (name ++ 64 :: rest)
  := by
  constructor
  · intro h
    match s, h with
    | c :: s, h =>
      simp only [fieldREMatch] at h
      split_ifs at h with hc
      split at h
      · next name' d rest' hsp =>
        split_ifs at h with hd
        cases h
        rw [List.span_eq_take_drop, Prod.mk.injEq] at hsp
        refine ⟨hd.2, fun c hc => List.mem_takeWhile_imp (hsp.1 ▸ hc), ?_⟩
        rw [hc, ← hd.1, ← hsp.1, ← hsp.2, List.takeWhile_append_dropWhile]
      · cases h
  · rintro ⟨hn, hw, rfl⟩
    have hsp : (name ++ 64 :: rest).span isWordByte = (name, 64 :: rest) := by
      rw [List.span_eq_take_drop, List.takeWhile_append_of_pos hw,
        List.takeWhile_cons_of_neg (by decide), List.dropWhile_append_of_pos hw,
        List.dropWhile_cons_of_neg (by decide), List.append_nil]
    simp only [fieldREMatch, ↓reduceIte, hsp, hn, ne_eq, not_false_eq_true, and_self]

theorem fieldREMatch_length {s name rest : Bytes} (h : fieldREMatch s = some (name, rest)) :
  rest.length < s.length
  := by
  obtain ⟨-, -, rfl⟩ := fieldREMatch_eq_some.mp h
  simp only [List.length_cons, List.length_append]
  omega

theorem fieldREFind_length :
    ∀ {s before name rest : Bytes}, fieldREFind s = some (before, name, rest) →
      rest.length < s.length
  | c :: s, before, name, rest, h => by
    simp only [fieldREFind] at h
    split at h
    · next hm =>
      cases h
      exact fieldREMatch_length hm
    · obtain ⟨⟨before', name', rest'⟩, hf, he⟩ := Option.map_eq_some'.mp h
      cases he
      exact Nat.lt_succ_of_lt (fieldREFind_length hf)

/-- `fieldRE.ReplaceAllStringFunc(s, repl)`: the text before the leftmost match, `repl` of the
match, and the same again from the end of the match on. -/
def replaceAllStringFunc (repl : Bytes → Bytes) (s : Bytes) : Bytes :=
  match h : fieldREFind s with
  | none => s
  | some (before, name, rest) =>
    before ++ repl (64 :: (name ++ [64])) ++ replaceAllStringFunc repl rest
termination_by s.length
decreasing_by
  simp_wf
  exact fieldREFind_length h

/-- `fixTemplate`: "$" doubled, and each "@name@" rewritten to `${name}`. -/
def fixTemplate (s : Bytes) : Bytes :=
  if s = [] then []
  else replaceAllStringFunc (fun s => [36, 123] ++ trim s 64 ++ [125]) (replace s 36 [36, 36])

/-- `rewriteRule`: a pattern and the templates of the VName fields the rule makes. -/
structure RewriteRule where
  pattern : Regexp
  corpus : Bytes
  path : Bytes
  root : Bytes
  signature : Bytes

/-- `rewriteRule.toRule`: the pattern, and each template rewritten by `fixTemplate`. -/
def RewriteRule.toRule (r : RewriteRule) : Rule where
  regexp := r.pattern
  vName := ⟨fixTemplate r.signature, fixTemplate r.corpus, fixTemplate r.root,
    fixTemplate r.path, []⟩

/-! ### Templates as pieces -/

/-- A piece of a template: a byte, or a marker "@name@". -/
inductive Piece where
  | byte (c : Byte)
  | marker (name : Bytes)

/-- The text of a piece, `text name` for a marker. -/
def Piece.render (text : Bytes → Bytes) : Piece → Bytes
  | .byte c => [c]
  | .marker name => text name

/-- A byte of a marker's name: a byte of the class `\w`, which the syntax of `regexp`
documents as `[0-9A-Za-z_]`, a digit, an upper-case or lower-case letter, or "_". -/
def isNameByte (c : Byte) : Bool :=
  decide (c.val ∈ List.range' 48 10 ∨ c.val ∈ List.range' 65 26 ∨ c.val ∈ List.range' 97 26 ∨
    c.val = 95)

/-- The marker "@name@" at the start of a template, if one starts there, read as its syntax
says: an "@", then the text up to the next "@" as the name, which must be one or more name
bytes; and what follows the second "@". -/
def markerAt : Bytes → Option (Bytes × Bytes)
  | [] => none
  | c :: t =>
    if c = 64 then
      match cut t 64 with
      | some (name, rest) => if name ≠ [] ∧ name.all isNameByte then some (name, rest) else none
      | none => none
    else none

theorem markerAt_eq_some {s name rest : Bytes} :
  markerAt s = some (name, rest) ↔
    name ≠ [] ∧ (∀ c ∈ name, isNameByte c) ∧ s = 64 :: (name ++ 64 :: rest)
  := by
  constructor
  · intro h
    match s, h with
    | c :: t, h =>
      simp only [markerAt] at h
      split_ifs at h with hc
      rcases @not_mem_or_eq_append_cons 64 t with ht | ⟨a, b, ha, rfl⟩
      · simp [cut_of_not_mem ht] at h
      · simp only [cut_append_cons ha] at h
        split_ifs at h with hn
        cases h
        exact ⟨hn.1, List.all_eq_true.mp hn.2, by rw [hc]⟩
  · rintro ⟨hn, hw, rfl⟩
    have h64 : (64 : Byte) ∉ name := fun h => absurd (hw 64 h) (by decide)
    simp [markerAt, cut_append_cons h64, hn, List.all_eq_true.mpr hw]

/-- The word bytes of the code are the name bytes of the template syntax. -/
theorem isWordByte_eq_isNameByte (c : Byte) :
  isWordByte c = isNameByte c
  := by
  rw [Bool.eq_iff_iff]
  simp only [isNameByte, decide_eq_true_eq, List.mem_range'_1]
  simp only [isWordByte, Bool.or_eq_true, Bool.and_eq_true, decide_eq_true_eq, beq_iff_eq]
  omega

/-- `fieldRE` matches at the start of a template exactly where a marker starts, with its name
and what follows. -/
theorem fieldREMatch_eq_markerAt (s : Bytes) :
  fieldREMatch s = markerAt s
  := Option.ext fun ⟨name, rest⟩ => by
    rw [Option.mem_def, Option.mem_def, fieldREMatch_eq_some, markerAt_eq_some]
    simp only [isWordByte_eq_isNameByte]

/-- A template as pieces: at each position the marker starting there, if any, else the byte
there; so the markers are the leftmost ones, and none overlaps the next. -/
def markerPieces (s : Bytes) : List Piece :=
  match s with
  | [] => []
  | c :: t =>
    match h : markerAt (c :: t) with
    | some (name, rest) => .marker name :: markerPieces rest
    | none => .byte c :: markerPieces t
termination_by s.length
decreasing_by
  all_goals simp_wf
  · exact fieldREMatch_length ((fieldREMatch_eq_markerAt _).trans h)

@[simp]
theorem markerPieces_nil :
  markerPieces [] = []
  := by
  rw [markerPieces]

theorem markerPieces_of_match {c : Byte} {t name rest : Bytes}
    (h : fieldREMatch (c :: t) = some (name, rest)) :
  markerPieces (c :: t) = .marker name :: markerPieces rest
  := by
  rw [fieldREMatch_eq_markerAt] at h
  rw [markerPieces]
  split
  · next heq =>
    rw [h] at heq
    cases heq
    rfl
  · next heq => simp [h] at heq

theorem markerPieces_of_none {c : Byte} {t : Bytes} (h : fieldREMatch (c :: t) = none) :
  markerPieces (c :: t) = .byte c :: markerPieces t
  := by
  rw [fieldREMatch_eq_markerAt] at h
  rw [markerPieces]
  split
  · next heq => simp [h] at heq
  · rfl

/-- Every marker of a template has a name of one or more word bytes. -/
theorem name_of_mem_markerPieces :
    ∀ {s name : Bytes}, Piece.marker name ∈ markerPieces s →
      name ≠ [] ∧ ∀ c ∈ name, isWordByte c
  | [], _, h => by simp at h
  | c :: t, name, h => by
    cases hm : fieldREMatch (c :: t) with
    | none =>
      rw [markerPieces_of_none hm] at h
      exact name_of_mem_markerPieces (List.mem_of_ne_of_mem (by simp) h)
    | some p =>
      obtain ⟨name', rest⟩ := p
      have := fieldREMatch_length hm
      rw [markerPieces_of_match hm] at h
      rcases List.mem_cons.mp h with h | h
      · cases h
        exact (fieldREMatch_eq_some.mp hm).imp id And.left
      · exact name_of_mem_markerPieces h
termination_by s => s.length

/-! ### `ReplaceAllStringFunc` reads the pieces -/

theorem markerPieces_of_find_none : ∀ {s : Bytes}, fieldREFind s = none →
    markerPieces s = s.map .byte
  | [], _ => markerPieces_nil
  | c :: t, h => by
    simp only [fieldREFind] at h
    split at h
    · cases h
    · next hm =>
      rw [markerPieces_of_none hm, markerPieces_of_find_none (Option.map_eq_none'.mp h)]
      rfl

theorem markerPieces_of_find_some : ∀ {s before name rest : Bytes},
    fieldREFind s = some (before, name, rest) →
      markerPieces s = before.map .byte ++ .marker name :: markerPieces rest
  | c :: t, before, name, rest, h => by
    simp only [fieldREFind] at h
    split at h
    · next hm =>
      cases h
      exact markerPieces_of_match hm
    · next hm =>
      obtain ⟨⟨before', name', rest'⟩, hf, he⟩ := Option.map_eq_some'.mp h
      cases he
      rw [markerPieces_of_none hm, markerPieces_of_find_some hf]
      rfl

/-- Go's loop, which copies the text before each leftmost match and then the match's
replacement, writes the pieces of the template, each marker as the replacement of its
match. -/
theorem replaceAllStringFunc_eq (repl : Bytes → Bytes) (s : Bytes) :
  replaceAllStringFunc repl s =
    (markerPieces s).flatMap (Piece.render fun name => repl (64 :: (name ++ [64])))
  := by
  rw [replaceAllStringFunc]
  split
  · next h =>
    rw [markerPieces_of_find_none h, List.flatMap_map]
    exact (List.flatMap_singleton' s).symm
  · next before name rest h =>
    have := fieldREFind_length h
    rw [markerPieces_of_find_some h, replaceAllStringFunc_eq repl rest, List.flatMap_append,
      List.flatMap_map, List.flatMap_cons, List.append_assoc]
    simp [Piece.render]
termination_by s.length

/-! ### Doubling "$" changes no marker -/

/-- A "$" doubled, any other piece as it is. -/
def Piece.escapeDollar : Piece → List Piece
  | .byte c => if c = 36 then [.byte 36, .byte 36] else [.byte c]
  | .marker name => [.marker name]

/-- No marker starts at a "$". -/
theorem markerPieces_dollar (t : Bytes) :
  markerPieces (36 :: t) = .byte 36 :: markerPieces t
  := markerPieces_of_none (by rw [fieldREMatch, if_neg (by decide)])

/-- Doubling the "$"s after a byte keeps the match at that byte, if any, and doubles the "$"s
after it. -/
theorem fieldREMatch_replace (c : Byte) (s : Bytes) :
  fieldREMatch (c :: replace s 36 [36, 36]) =
    (fieldREMatch (c :: s)).map fun p => (p.1, replace p.2 36 [36, 36])
  := by
  have hnew : ∀ d ∈ ([36, 36] : Bytes), isWordByte d = false := by
    rintro _ (_ | ⟨_, _ | ⟨_, ⟨⟩⟩⟩) <;> rfl
  simp only [fieldREMatch]
  split_ifs with h64
  · rw [span_replace rfl hnew (List.cons_ne_nil _ _)]
    rcases hsp : s.span isWordByte with ⟨name, _ | ⟨d, rest⟩⟩
    · rfl
    · by_cases hd : d = 36
      · subst hd
        simp
      · simp only [replace_cons, if_neg hd, List.singleton_append]
        split_ifs <;> rfl
  · rfl

theorem markerPieces_replace :
    ∀ s : Bytes, markerPieces (replace s 36 [36, 36]) = (markerPieces s).flatMap Piece.escapeDollar
  | [] => by simp
  | c :: t => by
    by_cases hc : c = 36
    · subst hc
      simp [markerPieces_dollar, markerPieces_replace t, Piece.escapeDollar]
    · rw [replace_cons, if_neg hc, List.singleton_append]
      cases hm : fieldREMatch (c :: t) with
      | none =>
        rw [markerPieces_of_none (by rw [fieldREMatch_replace, hm]; rfl),
          markerPieces_of_none hm, markerPieces_replace t]
        simp [Piece.escapeDollar, hc]
      | some p =>
        obtain ⟨name, rest⟩ := p
        have := fieldREMatch_length hm
        rw [markerPieces_of_match (by rw [fieldREMatch_replace, hm]; rfl),
          markerPieces_of_match hm, markerPieces_replace rest]
        simp [Piece.escapeDollar]
termination_by s => s.length

/-! ### `Expand` reads the pieces back -/

section Expand

variable {subexpNames : List Bytes} {src : Bytes} {m : List Int}

/-- Pieces whose "$"s are doubled and whose markers are written `${name}`, with names of word
bytes, expand to the pieces with each marker replaced by what `Expand` writes for
`${name}`. -/
theorem expand_escaped {text : Bytes → Bytes} :
    ∀ {ps : List Piece}, (∀ name, Piece.marker name ∈ ps →
      name ≠ [] ∧ (∀ c ∈ name, isWordByte c) ∧ text name = [36, 123] ++ name ++ [125]) →
      expand subexpNames src m ((ps.flatMap Piece.escapeDollar).flatMap (Piece.render text)) =
        ps.flatMap (Piece.render fun name => expand subexpNames src m ([36, 123] ++ name ++ [125]))
  | [], _ => expand_nil
  | .byte c :: ps, h => by
    have ih := expand_escaped fun name hn => h name (List.mem_cons_of_mem _ hn)
    by_cases hc : c = 36
    · subst hc
      simp only [List.flatMap_cons, Piece.escapeDollar, if_pos, List.flatMap_append,
        Piece.render, List.cons_append, List.singleton_append, List.nil_append] at ih ⊢
      rw [expand_dollar_dollar, ih]
    · simp only [List.flatMap_cons, Piece.escapeDollar, if_neg hc, List.flatMap_append,
        Piece.render, List.singleton_append, List.nil_append]
      rw [expand_cons_of_ne hc, ih]
  | .marker name :: ps, h => by
    have ih := expand_escaped fun name hn => h name (List.mem_cons_of_mem _ hn)
    obtain ⟨hn, hw, htext⟩ := h name (List.mem_cons_self _ _)
    have hone := @expand_marker subexpNames src m name hn hw []
    simp only [List.flatMap_cons, Piece.escapeDollar, List.flatMap_append, Piece.render,
      List.flatMap_nil, List.append_nil, htext]
    simp only [List.cons_append, List.singleton_append, List.append_assoc, List.nil_append]
      at hone ih ⊢
    rw [expand_marker hn hw, hone, ih, expand_nil, List.append_nil]

end Expand

/-- The template a rule is parsed with expands, for every match of its pattern on every input,
to the template as written with each leftmost marker "@name@" replaced by what `Expand` writes
for `${name}`, and every other byte, "$", "{", "}" and unpaired "@" included, copied. -/
theorem expand_fixTemplate (r : Rule) (m : List Int) (input t : Bytes) :
  r.expand m input (fixTemplate t) =
    (markerPieces t).flatMap
      (Piece.render fun name => r.expand m input ([36, 123] ++ name ++ [125]))
  := by
  by_cases ht : t = []
  · subst ht
    simp [fixTemplate, Rule.expand]
  rw [fixTemplate, if_neg ht, Rule.expand, replaceAllStringFunc_eq, markerPieces_replace]
  refine expand_escaped fun name hmem => ?_
  obtain ⟨hn, hw⟩ := name_of_mem_markerPieces hmem
  exact ⟨hn, hw, by rw [trim_cons_append fun h => absurd (hw 64 h) (by decide)]⟩

end Kythe.VNameUtil
