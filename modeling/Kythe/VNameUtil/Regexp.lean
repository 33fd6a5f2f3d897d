import Kythe.Bytes

/-!
# RE2 expressions

The part of Go's `regexp` that the rewrite rules use: compiling a pattern with Perl flags,
and asking whether it matches somewhere in an input (`FindStringSubmatchIndex` returning a
match or `nil`).

`compile` follows the shape of `regexp/syntax`'s parser: one pass from left to right over a
stack of open groups, each holding the alternatives finished so far and the items of the one
being read.  A repetition operator takes the last item, "|" closes the current branch, ")"
closes a group, and the end closes the whole expression: so concatenation binds tighter than
"|", and "^" and "$" are items like any other.  The fragment modelled is literals, escaped
punctuation, ".", "^", "$", groups, "|", "*", "+", "?" and the non-greedy "?"; any other
syntax (classes, counted repetition, flags, other escapes) and any byte outside ASCII is
`unsupported`.  Inputs are read as bytes, which is Go's reading of them as runes on ASCII text
(`IsAscii`).

`ends s r i` is every position where a match of `r` starting at position `i` of `s` can end,
"^" and "$" testing the position against the whole input.  `matchString` is the existence of
a match somewhere; `fullMatch` says that the whole input is in the language of `r`.
`matchString_anchored`: an expression put between "^" and "$" as items of one concatenation
matches an input exactly when the whole input is in its language.

`parseLoop_cons_eq_ok` says once what a turn of the parser's loop can do: one operation on
the stack (`StackOp`), after which the rest of the pattern is read.  From it, two runs from
stacks related by a relation that each operation keeps succeed together (`parseLoop_sim`),
and the parser reads a pattern from left to right (`parseLoop_append`).  `parseLoop_shifted`
is the first for a parse started with one more item in the outermost group.
-/

namespace Kythe.VNameUtil

/-- A parsed expression, with the meaning `regexp/syntax` gives its operators. -/
inductive Regexp where
  /-- The empty string. -/
  | emptyMatch
  /-- One given byte. -/
  | literal (c : Byte)
  /-- ".": any byte but a newline. -/
  | anyCharNotNL
  /-- "^": the start of the input. -/
  | beginText
  /-- "$": the end of the input. -/
  | endText
  /-- A group "( )". -/
  | capture (r : Regexp)
  | concat (r₁ r₂ : Regexp)
  | alternate (r₁ r₂ : Regexp)
  | star (r : Regexp)
  | plus (r : Regexp)
  | quest (r : Regexp)
  deriving DecidableEq, Repr

/-- The errors of `regexp/syntax` the fragment can meet, and `unsupported` for syntax outside
it. -/
inductive ParseError where
  /-- "missing closing )" -/
  | missingParen
  /-- "unexpected )" -/
  | unexpectedParen
  /-- "missing argument to repetition operator" -/
  | missingRepeatArgument
  /-- "invalid nested repetition operator" -/
  | invalidRepeatOp
  /-- "trailing backslash at end of expression" -/
  | trailingBackslash
  /-- Syntax outside the modelled fragment, and any byte outside ASCII. -/
  | unsupported
  deriving DecidableEq, Repr

/-! ### Compiling -/

/-- The concatenation of `rs`, the empty string for none. -/
def concatOf : List Regexp → Regexp
  | [] => .emptyMatch
  | [r] => r
  | r :: rs => .concat r (concatOf rs)

/-- The alternation of `rs`. -/
def alternateOf : List Regexp → Regexp
  | [] => .emptyMatch
  | [r] => r
  | r :: rs => .alternate r (alternateOf rs)

/-- An open group: the alternatives finished so far, and the items of the branch being read,
last first. -/
structure Frame where
  alternatives : List Regexp
  items : List Regexp

/-- The expression a group stands for once it is closed. -/
def Frame.close (f : Frame) : Regexp :=
  alternateOf (f.alternatives ++ [concatOf f.items.reverse])

/-- The empty group. -/
def Frame.empty : Frame := ⟨[], []⟩

/-- Add an item to the branch being read. -/
def push (r : Regexp) : List Frame → List Frame
  | [] => []
  | f :: fs => { f with items := r :: f.items } :: fs

/-- Apply a repetition operator to the last item: missing if the branch has none. -/
def repeatLast (op : Regexp → Regexp) : List Frame → Option (List Frame)
  | ⟨alts, r :: items⟩ :: fs => some (⟨alts, op r :: items⟩ :: fs)
  | _ => none

/-- "|": finish the branch being read. -/
def verticalBar : List Frame → List Frame
  | [] => []
  | f :: fs => ⟨f.alternatives ++ [concatOf f.items.reverse], []⟩ :: fs

/-- ")": close the innermost group into an item of the one around it; unexpected at the
outermost level. -/
def closeGroup : List Frame → Option (List Frame)
  | f :: g :: fs => some (push (.capture f.close) (g :: fs))
  | _ => none

/-- The repetition operator a byte is, if it is one. -/
def repeatOp (c : Byte) : Option (Regexp → Regexp) :=
  if c = 42 then some .star else if c = 43 then some .plus
  else if c = 63 then some .quest else none

/-- A byte a backslash makes literal: an ASCII byte neither a letter nor a digit. -/
def isPunct (c : Byte) : Bool :=
  c.val < 128 && !(48 ≤ c.val && c.val ≤ 57) && !(65 ≤ c.val && c.val ≤ 90) &&
    !(97 ≤ c.val && c.val ≤ 122)

/-- The parser's loop over the rest of the pattern, with the open groups innermost first;
`lastRepeat` is 1 just after a repetition operator, 2 after its non-greedy "?", 0 otherwise. -/
def parseLoop : List Frame → Nat → Bytes → Except ParseError (List Frame)
  | st, _, [] => .ok st
  | st, lastRepeat, c :: rest =>
    if c = 92 then
      match rest with
      | [] => .error .trailingBackslash
      | d :: rest => if isPunct d then parseLoop (push (.literal d) st) 0 rest else .error .unsupported
    else if c = 40 then
      if rest.head? = some 63 then .error .unsupported else parseLoop (Frame.empty :: st) 0 rest
    else if c = 41 then
      match closeGroup st with
      | some st => parseLoop st 0 rest
      | none => .error .unexpectedParen
    else if c = 124 then parseLoop (verticalBar st) 0 rest
    else match repeatOp c with
      | some op =>
        if lastRepeat = 1 ∧ c = 63 then parseLoop st 2 rest
        else if lastRepeat ≠ 0 then .error .invalidRepeatOp
        else
          match repeatLast op st with
          | some st => parseLoop st 1 rest
          | none => .error .missingRepeatArgument
      | none =>
        if c = 46 then parseLoop (push .anyCharNotNL st) 0 rest
        else if c = 94 then parseLoop (push .beginText st) 0 rest
        else if c = 36 then parseLoop (push .endText st) 0 rest
        else if c = 91 ∨ c = 123 then .error .unsupported
        else if c.val < 128 then parseLoop (push (.literal c) st) 0 rest
        else .error .unsupported

/-- `regexp.Compile` (`syntax.Parse` with Perl flags): the expression, or the parse error. -/
def compile (pattern : Bytes) : Except ParseError Regexp :=
  match parseLoop [Frame.empty] 0 pattern with
  | .error e => .error e
  | .ok [f] => .ok f.close
  | .ok _ => .error .missingParen

example : compile [97, 124, 98] = .ok (.alternate (.literal 97) (.literal 98)) := rfl
example : compile [94, 97, 124, 98, 36] =
    .ok (.alternate (.concat .beginText (.literal 97)) (.concat (.literal 98) .endText)) := rfl
example : compile [40, 97] = .error .missingParen := rfl
example : compile [97, 42, 42] = .error .invalidRepeatOp := rfl

/-! ### Matching -/

/-- The iterations of a star from position `i`, `next` giving where one iteration can end:
an iteration that matches the empty string adds nothing, so `fuel` one more than the
positions left is enough. -/
def starEnds (next : Nat → List Nat) : Nat → Nat → List Nat
  | 0, i => [i]
  | fuel + 1, i => i :: ((next i).filter (i < ·)).flatMap (starEnds next fuel)

/-- The positions where a match of `r` starting at position `i` of `s` can end. -/
def ends (s : Bytes) : Regexp → Nat → List Nat
  | .emptyMatch, i => [i]
  | .literal c, i => if s[i]? = some c then [i + 1] else []
  | .anyCharNotNL, i => if s[i]?.isSome ∧ s[i]? ≠ some 10 then [i + 1] else []
  | .beginText, i => if i = 0 then [i] else []
  | .endText, i => if i = s.length then [i] else []
  | .capture r, i => ends s r i
  | .concat r₁ r₂, i => (ends s r₁ i).flatMap (ends s r₂)
  | .alternate r₁ r₂, i => ends s r₁ i ++ ends s r₂ i
  | .star r, i => starEnds (ends s r) (s.length + 1) i
  | .plus r, i => (ends s r i).flatMap (starEnds (ends s r) (s.length + 1))
  | .quest r, i => i :: ends s r i

/-- `FindStringSubmatchIndex` finds a match: one starts at some position of the input. -/
def Regexp.matchString (r : Regexp) (s : Bytes) : Bool :=
  (List.range (s.length + 1)).any fun i => !(ends s r i).isEmpty

/-- The whole of `s` is in the language of `r`. -/
def Regexp.fullMatch (r : Regexp) (s : Bytes) : Bool :=
  decide (s.length ∈ ends s r 0)

/-- Text whose bytes are all ASCII.  Read as UTF-8, each of its bytes is one rune, so on an
ASCII input `ends` matches as Go's `regexp` does on runes; elsewhere "." takes one byte where
Go takes one rune.  `compile` accepts only ASCII patterns. -/
def IsAscii (s : Bytes) : Prop :=
  ∀ c ∈ s, c.val < 128

instance : DecidablePred IsAscii :=
  fun s => inferInstanceAs (Decidable (∀ c ∈ s, c.val < 128))

theorem matchString_iff (r : Regexp) (s : Bytes) :
  r.matchString s ↔ ∃ i ≤ s.length, ∃ j, j ∈ ends s r i
  := by
  simp only [Regexp.matchString, List.any_eq_true, List.mem_range, Nat.lt_succ_iff,
    Bool.not_eq_true', List.isEmpty_eq_false_iff_exists_mem]

theorem mem_ends_anchored {r : Regexp} {s : Bytes} {i j : Nat} :
  j ∈ ends s (.concat .beginText (.concat r .endText)) i ↔
    i = 0 ∧ j = s.length ∧ s.length ∈ ends s r 0
  := by
  simp only [ends, List.mem_flatMap]
  constructor
  · rintro ⟨i', hi', k, hk, hj⟩
    split at hi' <;> split at hj <;> simp_all
  · rintro ⟨rfl, rfl, h⟩
    exact ⟨0, by simp, s.length, h, by simp⟩

/-- An expression between "^" and "$", as items of one concatenation, matches somewhere
exactly when the whole input is in its language. -/
theorem matchString_anchored (r : Regexp) (s : Bytes) :
  (Regexp.concat .beginText (.concat r .endText)).matchString s = r.fullMatch s
  := by
  apply Bool.eq_iff_iff.mpr
  simp only [matchString_iff, mem_ends_anchored, Regexp.fullMatch, decide_eq_true_eq]
  constructor
  · rintro ⟨i, -, j, -, -, h⟩
    exact h
  · intro h
    exact ⟨0, Nat.zero_le _, s.length, rfl, rfl, h⟩

/-! ### Runs of the parser -/

/-- What one turn of the parser's loop does to the stack. -/
inductive StackOp where
  | item (r : Regexp)
  | group
  | close
  | bar
  | repetition (op : Regexp → Regexp)
  | keep

/-- The stack after an operation, `none` where the operation fails. -/
def StackOp.apply : StackOp → List Frame → Option (List Frame)
  | .item r, st => some (push r st)
  | .group, st => some (Frame.empty :: st)
  | .close, st => closeGroup st
  | .bar, st => some (verticalBar st)
  | .repetition op, st => repeatLast op st
  | .keep, st => some st

/-- A successful turn of the parser applies one operation to the stack and reads on from a
shorter rest, whatever stack the operation applies to and whatever follows the pattern,
unless that starts with "?". -/
theorem parseLoop_cons_eq_ok {st fin : List Frame} {lastRepeat : Nat} {c : Byte} {rest : Bytes}
    (h : parseLoop st lastRepeat (c :: rest) = .ok fin) :
  ∃ (o : StackOp) (lastRepeat' : Nat) (rest' : Bytes), rest'.length ≤ rest.length ∧
    (o.apply st).isSome ∧ ∀ st' st₁' q, q.head? ≠ some 63 → o.apply st' = some st₁' →
      parseLoop st' lastRepeat (c :: (rest ++ q)) = parseLoop st₁' lastRepeat' (rest' ++ q)
  := by
  generalize hp : c :: rest = pattern at h
  induction st, lastRepeat, pattern using parseLoop.induct with
  | case1 => cases hp
  | case2 => cases h
  | case3 st lr d more hd =>
    cases hp
    refine ⟨.item (.literal d), 0, more, by simp, rfl, fun st' _ q _ ho => ?_⟩
    cases ho
    simp only [List.cons_append, parseLoop, ↓reduceIte, hd]
    rfl
  | case4 st lr d more hd => simp [parseLoop, hd] at h
  | case5 st lr more hq => simp [parseLoop.eq_def, hq] at h
  | case6 st lr _ hq h₁ =>
    cases hp
    refine ⟨.group, 0, rest, le_rfl, rfl, fun st' _ q hq' ho => ?_⟩
    cases ho
    have hq'' : ¬(rest ++ q).head? = some 63 := by
      cases rest with
      | nil => exact hq'
      | cons a rest => simpa using hq
    rw [parseLoop.eq_def]
    simp only [↓reduceIte, hq'', h₁]
  | case7 st lr _ st₁ hc h₁ h₂ =>
    cases hp
    refine ⟨.close, 0, rest, le_rfl, by simp [StackOp.apply, hc], fun st' _ q _ ho => ?_⟩
    simp only [StackOp.apply] at ho
    rw [parseLoop.eq_def]
    simp only [↓reduceIte, ho, h₁, h₂]
  | case8 st lr more hc h₁ h₂ =>
    rw [parseLoop.eq_def] at h
    simp [hc, h₁, h₂] at h
  | case9 st lr _ h₁ h₂ h₃ =>
    cases hp
    refine ⟨.bar, 0, rest, le_rfl, rfl, fun st' _ q _ ho => ?_⟩
    cases ho
    rw [parseLoop.eq_def]
    simp only [↓reduceIte, h₁, h₂, h₃]
  | case10 st lr c _ h₁ h₂ h₃ h₄ op hop hq =>
    cases hp
    refine ⟨.keep, 2, rest, le_rfl, rfl, fun st' _ q _ ho => ?_⟩
    cases ho
    obtain ⟨rfl, rfl⟩ := hq
    rw [parseLoop.eq_def]
    simp only [↓reduceIte, h₁, h₂, h₃, h₄, hop, and_self]
  | case11 st lr c more h₁ h₂ h₃ h₄ op hop hq hlr =>
    rw [parseLoop.eq_def] at h
    simp [h₁, h₂, h₃, h₄, hop, hq, hlr] at h
  | case12 st lr c _ h₁ h₂ h₃ h₄ op hop hq hlr st₁ hr =>
    cases hp
    refine ⟨.repetition op, 1, rest, le_rfl, by simp [StackOp.apply, hr], fun st' _ q _ ho => ?_⟩
    simp only [StackOp.apply] at ho
    rw [parseLoop.eq_def]
    simp only [↓reduceIte, h₁, h₂, h₃, h₄, hop, hq, hlr, ho]
  | case13 st lr c more h₁ h₂ h₃ h₄ op hop hq hlr hr =>
    rw [parseLoop.eq_def] at h
    simp [h₁, h₂, h₃, h₄, hop, hq, hlr, hr] at h
  | case14 st lr _ h₁ h₂ h₃ h₄ hop =>
    cases hp
    refine ⟨.item .anyCharNotNL, 0, rest, le_rfl, rfl, fun st' _ q _ ho => ?_⟩
    cases ho
    rw [parseLoop.eq_def]
    simp only [↓reduceIte, h₁, h₂, h₃, h₄, hop]
  | case15 st lr _ h₁ h₂ h₃ h₄ hop h₅ =>
    cases hp
    refine ⟨.item .beginText, 0, rest, le_rfl, rfl, fun st' _ q _ ho => ?_⟩
    cases ho
    rw [parseLoop.eq_def]
    simp only [↓reduceIte, h₁, h₂, h₃, h₄, hop, h₅]
  | case16 st lr _ h₁ h₂ h₃ h₄ hop h₅ h₆ =>
    cases hp
    refine ⟨.item .endText, 0, rest, le_rfl, rfl, fun st' _ q _ ho => ?_⟩
    cases ho
    rw [parseLoop.eq_def]
    simp only [↓reduceIte, h₁, h₂, h₃, h₄, hop, h₅, h₆]
  | case17 st lr c more h₁ h₂ h₃ h₄ hop h₅ h₆ h₇ h₈ =>
    rw [parseLoop.eq_def] at h
    simp [h₁, h₂, h₃, h₄, hop, h₅, h₆, h₇, h₈] at h
  | case18 st lr c _ h₁ h₂ h₃ h₄ hop h₅ h₆ h₇ h₈ h₉ =>
    cases hp
    refine ⟨.item (.literal c), 0, rest, le_rfl, rfl, fun st' _ q _ ho => ?_⟩
    cases ho
    rw [parseLoop.eq_def]
    simp only [↓reduceIte, h₁, h₂, h₃, h₄, hop, h₅, h₆, h₇, h₈, h₉]
  | case19 st lr c more h₁ h₂ h₃ h₄ hop h₅ h₆ h₇ h₈ h₉ =>
    rw [parseLoop.eq_def] at h
    simp [h₁, h₂, h₃, h₄, hop, h₅, h₆, h₇, h₈, h₉] at h

/-- Two runs of the parser over one pattern, from stacks related by a relation that each
stack operation keeps, succeed together and end in related stacks. -/
theorem parseLoop_sim (R : List Frame → List Frame → Prop)
    (hop : ∀ (o : StackOp) {st st' st₁}, R st st' → o.apply st = some st₁ →
      ∃ st₁', o.apply st' = some st₁' ∧ R st₁ st₁')
    {st st' : List Frame} {lastRepeat : Nat} {pattern : Bytes} {fin : List Frame}
    (hR : R st st') (h : parseLoop st lastRepeat pattern = .ok fin) :
  ∃ fin', parseLoop st' lastRepeat pattern = .ok fin' ∧ R fin fin'
  := by
  match pattern, h with
  | [], h => cases h; exact ⟨_, rfl, hR⟩
  | c :: rest, h =>
    obtain ⟨o, lr₁, rest₁, hlen, hsome, heq⟩ := parseLoop_cons_eq_ok h
    obtain ⟨st₁, ho⟩ := Option.isSome_iff_exists.mp hsome
    obtain ⟨st₁', ho', hR₁⟩ := hop o hR ho
    have e := heq st st₁ [] (by decide) ho
    have e' := heq st' st₁' [] (by decide) ho'
    simp only [List.append_nil] at e e'
    obtain ⟨fin', hfin, hRfin⟩ := parseLoop_sim R hop hR₁ (e.symm.trans h)
    exact ⟨fin', e'.trans hfin, hRfin⟩
termination_by pattern.length
decreasing_by simp_wf; omega

/-- The parser reads a pattern from left to right: a prefix it reads through leaves the stack
that the rest is read from, unless the rest starts with "?", which would make a "(" at the
end of the prefix start a flag group. -/
theorem parseLoop_append {st : List Frame} {lastRepeat : Nat} {pattern : Bytes}
    {fin : List Frame} (h : parseLoop st lastRepeat pattern = .ok fin) (rest : Bytes)
    (hrest : rest.head? ≠ some 63) :
  ∃ lastRepeat', parseLoop st lastRepeat (pattern ++ rest) = parseLoop fin lastRepeat' rest
  := by
  match pattern, h with
  | [], h => cases h; exact ⟨lastRepeat, rfl⟩
  | c :: more, h =>
    obtain ⟨o, lr₁, more₁, hlen, hsome, heq⟩ := parseLoop_cons_eq_ok h
    obtain ⟨st₁, ho⟩ := Option.isSome_iff_exists.mp hsome
    have e := heq st st₁ [] (by decide) ho
    simp only [List.append_nil] at e
    obtain ⟨lr', hlr'⟩ := parseLoop_append (e.symm.trans h) rest hrest
    exact ⟨lr', (heq st st₁ rest hrest ho).trans hlr'⟩
termination_by pattern.length
decreasing_by simp_wf; omega

/-- A "$" after a pattern the parser reads through is one more item of the innermost group. -/
theorem parseLoop_append_endText {st : List Frame} {lastRepeat : Nat} {pattern : Bytes}
    {fin : List Frame} (h : parseLoop st lastRepeat pattern = .ok fin) :
  parseLoop st lastRepeat (pattern ++ [36]) = .ok (push .endText fin)
  := by
  obtain ⟨lr, hlr⟩ := parseLoop_append h [36] (by decide)
  rw [hlr]
  rfl

/-- A "^" is one more item of the innermost group. -/
theorem parseLoop_beginText (st : List Frame) (lastRepeat : Nat) (rest : Bytes) :
  parseLoop st lastRepeat (94 :: rest) = parseLoop (push .beginText st) 0 rest
  := by
  cases rest <;> rfl

/-! ### One more item first -/

/-- The stacks of two parses of one pattern, the second started with one more item `b` in
the outermost group: the same but for the outermost group, whose items in the second end with
`b` (items are kept last first) until a "|" finishes its first branch, and whose lists of
finished branches are both non-empty after it. -/
inductive Shifted (b : Regexp) : List Frame → List Frame → Prop where
  | bottom (items : List Regexp) : Shifted b [⟨[], items⟩] [⟨[], items ++ [b]⟩]
  | barred {alts alts' : List Regexp} (items : List Regexp) (h : alts ≠ []) (h' : alts' ≠ []) :
      Shifted b [⟨alts, items⟩] [⟨alts', items⟩]
  | cons (f : Frame) {st st' : List Frame} : Shifted b st st' → Shifted b (f :: st) (f :: st')

section Shifted

variable {b : Regexp} {st st' st₁ : List Frame}

theorem Shifted.exists_cons (h : Shifted b st st') :
  ∃ f fs f' fs', st = f :: fs ∧ st' = f' :: fs'
  := by
  cases h <;> exact ⟨_, _, _, _, rfl, rfl⟩

theorem shifted_push (r : Regexp) (h : Shifted b st st') :
  Shifted b (push r st) (push r st')
  := by
  cases h with
  | bottom items => exact .bottom (r :: items)
  | barred items h h' => exact .barred (r :: items) h h'
  | cons f h => exact .cons _ h

theorem shifted_verticalBar (h : Shifted b st st') :
  Shifted b (verticalBar st) (verticalBar st')
  := by
  cases h with
  | bottom items => exact .barred [] (by simp) (by simp)
  | barred items h h' => exact .barred [] (by simp) (by simp)
  | cons f h => exact .cons _ h

theorem shifted_closeGroup (h : Shifted b st st') (hc : closeGroup st = some st₁) :
  ∃ st₁', closeGroup st' = some st₁' ∧ Shifted b st₁ st₁'
  := by
  cases h with
  | bottom => cases hc
  | barred => cases hc
  | cons f h₀ =>
    obtain ⟨g, fs, g', fs', rfl, rfl⟩ := h₀.exists_cons
    cases hc
    exact ⟨_, rfl, shifted_push _ h₀⟩

theorem shifted_repeatLast (op : Regexp → Regexp) (h : Shifted b st st')
    (hr : repeatLast op st = some st₁) :
  ∃ st₁', repeatLast op st' = some st₁' ∧ Shifted b st₁ st₁'
  := by
  cases h with
  | bottom items =>
    cases items with
    | nil => cases hr
    | cons r items => cases hr; exact ⟨_, rfl, .bottom (op r :: items)⟩
  | barred items h h' =>
    cases items with
    | nil => cases hr
    | cons r items => cases hr; exact ⟨_, rfl, .barred (op r :: items) h h'⟩
  | cons f h₀ =>
    obtain ⟨alts, items⟩ := f
    cases items with
    | nil => cases hr
    | cons r items => cases hr; exact ⟨_, rfl, .cons _ h₀⟩

theorem shifted_apply (o : StackOp) (h : Shifted b st st') (ho : o.apply st = some st₁) :
  ∃ st₁', o.apply st' = some st₁' ∧ Shifted b st₁ st₁'
  := by
  cases o with
  | item r => cases ho; exact ⟨_, rfl, shifted_push r h⟩
  | group => cases ho; exact ⟨_, rfl, .cons _ h⟩
  | close => exact shifted_closeGroup h ho
  | bar => cases ho; exact ⟨_, rfl, shifted_verticalBar h⟩
  | repetition op => exact shifted_repeatLast op h ho
  | keep => cases ho; exact ⟨_, rfl, h⟩

/-- A parse started with `b` as an item of the outermost group runs as the parse without it
and ends with `b` as the outermost group's first item, unless a "|" finished that group's
first branch. -/
theorem parseLoop_shifted (h : Shifted b st st') {lastRepeat : Nat} {pattern : Bytes}
    {fin : List Frame} (hp : parseLoop st lastRepeat pattern = .ok fin) :
  ∃ fin', parseLoop st' lastRepeat pattern = .ok fin' ∧ Shifted b fin fin'
  := parseLoop_sim (Shifted b) (fun o _ _ _ => shifted_apply o) h hp

end Shifted

/-! ### Concatenations -/

theorem mem_ends_concatOf_cons {s : Bytes} (x : Regexp) (xs : List Regexp) {i j : Nat} :
  j ∈ ends s (concatOf (x :: xs)) i ↔ ∃ k ∈ ends s x i, j ∈ ends s (concatOf xs) k
  := by
  cases xs with
  | nil => simp [concatOf, ends]
  | cons y ys => simp [concatOf, ends, List.mem_flatMap]

theorem mem_ends_concatOf_append {s : Bytes} (xs ys : List Regexp) {i j : Nat} :
  j ∈ ends s (concatOf (xs ++ ys)) i ↔ ∃ k ∈ ends s (concatOf xs) i, j ∈ ends s (concatOf ys) k
  := by
  induction xs generalizing i with
  | nil => simp [concatOf, ends]
  | cons x xs ih =>
    simp only [List.cons_append, mem_ends_concatOf_cons, ih]
    constructor
    · rintro ⟨k, hk, m, hm, hj⟩
      exact ⟨m, ⟨k, hk, hm⟩, hj⟩
    · rintro ⟨m, ⟨k, hk, hm⟩, hj⟩
      exact ⟨k, hk, m, hm, hj⟩

theorem matchString_congr {r r' : Regexp} {s : Bytes}
    (h : ∀ i j, j ∈ ends s r i ↔ j ∈ ends s r' i) :
  r.matchString s = r'.matchString s
  := Bool.eq_iff_iff.mpr (by simp only [matchString_iff, h])

/-- Items between "^" and "$" in one concatenation match somewhere exactly when the whole
input is in the language of their concatenation. -/
theorem matchString_concatOf_anchored (xs : List Regexp) (s : Bytes) :
  (concatOf (.beginText :: (xs ++ [.endText]))).matchString s = (concatOf xs).fullMatch s
  := by
  rw [← matchString_anchored]
  refine matchString_congr fun i j => ?_
  simp only [mem_ends_concatOf_cons, mem_ends_concatOf_append, ends, List.mem_flatMap]

end Kythe.VNameUtil
