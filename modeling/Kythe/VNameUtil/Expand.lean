import Kythe.VNameUtil.Regexp

/-!
# Template expansion

`regexp.Expand`: a template is written out with "$$" as "$", each `$name` or `${name}` as
the text of the group it names in a match, and a "$" that starts neither as itself.  A name
is a run of letters, digits and "_"; it stands for a group number when it is a decimal
number without leading zeros, and for the first matched group of that name otherwise.

`expand` follows the loop of `re.expand`: cut the template at its first "$", write what is
before, and read what is after.  Its equations say what one step reads: a byte other than "$"
(`expand_cons_of_ne`), "$$" (`expand_dollar_dollar`) and `${name}` (`expand_marker`).
-/

namespace Kythe.VNameUtil

/-- A byte of a name in a template, and of the class `\w`: an ASCII letter or digit, or "_".
Template names made of other Unicode letters and digits are not modelled. -/
def isWordByte (c : Byte) : Bool :=
  (48 ≤ c.val && c.val ≤ 57) || (65 ≤ c.val && c.val ≤ 90) || (97 ≤ c.val && c.val ≤ 122) ||
    c.val == 95

/-- `re.NumSubexp()`: the number of groups. -/
def Regexp.numSubexp : Regexp → Nat
  | .capture r => r.numSubexp + 1
  | .concat r₁ r₂ => r₁.numSubexp + r₂.numSubexp
  | .alternate r₁ r₂ => r₁.numSubexp + r₂.numSubexp
  | .star r => r.numSubexp
  | .plus r => r.numSubexp
  | .quest r => r.numSubexp
  | _ => 0

/-- `re.SubexpNames()`: the names of the whole match and of each group, all empty, the
fragment having no named groups. -/
def Regexp.subexpNames (r : Regexp) : List Bytes :=
  List.replicate (r.numSubexp + 1) []

/-- The loop of `extract` that reads a name as a number: `-1` at the first byte that is not a
digit, or once the number read reaches `1e8`. -/
def parseNum : Bytes → Int → Int
  | [], num => num
  | c :: name, num =>
    if c.val < 48 ∨ 57 < c.val ∨ 100000000 ≤ num then -1
    else parseNum name (num * 10 + (c.val - 48 : Nat))

/-- The group number a name stands for, `-1` if none: leading zeros are not allowed. -/
def nameNum (name : Bytes) : Int :=
  if name.head? = some 48 ∧ 1 < name.length then -1 else parseNum name 0

/-- The rest of `extract` once it has seen whether the name is in braces and skipped the "{":
the name, the group number it stands for, and what follows the name and its "}". -/
def extractName (brace : Bool) (str : Bytes) : Option (Bytes × Int × Bytes) :=
  let i := (str.takeWhile isWordByte).length
  if i = 0 then none
  else
    let name := str.take i
    if brace ∧ str.get? i ≠ some 125 then none
    else some (name, nameNum name, str.drop (if brace then i + 1 else i))

/-- `extract`: the name of a leading `name` or `{name}` of `str` (the "$" read already), the
group number it stands for, and the rest of `str`; `none` for an empty name or a missing
"}". -/
def extract (str : Bytes) : Option (Bytes × Int × Bytes) :=
  if str = [] then none
  else if str.head? = some 123 then extractName true (str.drop 1)
  else extractName false str

/-- `src[lo:hi]`, clamped where Go would panic: the indices of a match are always in
bounds. -/
def slice (src : Bytes) (lo hi : Int) : Bytes :=
  (src.drop lo.toNat).take (hi - lo).toNat

/-- The loop of `expand` over `re.subexpNames` from index `i` on: the text of the first group
named `name` that matched. -/
def namedSubmatch (src : Bytes) (m : List Int) (name : Bytes) : Nat → List Bytes → Bytes
  | _, [] => []
  | i, namei :: names =>
    if name = namei ∧ 2 * i + 1 < m.length ∧ 0 ≤ m.getD (2 * i) (-1) then
      slice src (m.getD (2 * i) 0) (m.getD (2 * i + 1) 0)
    else namedSubmatch src m name (i + 1) names

/-- What `expand` writes for a name: the group numbered `num` or, when `num` is `-1`, the first
group named `name`, if it matched; nothing otherwise. -/
def submatch (subexpNames : List Bytes) (src : Bytes) (m : List Int) (name : Bytes) (num : Int) :
    Bytes :=
  if 0 ≤ num then
    if 2 * num + 1 < m.length ∧ 0 ≤ m.getD (2 * num.toNat) (-1) then
      slice src (m.getD (2 * num.toNat) 0) (m.getD (2 * num.toNat + 1) 0)
    else []
  else namedSubmatch src m name 0 subexpNames

theorem extractName_length {brace : Bool} {str name rest : Bytes} {num : Int}
    (h : extractName brace str = some (name, num, rest)) :
  rest.length < str.length
  := by
  have : (str.takeWhile isWordByte).length ≤ str.length := (List.takeWhile_sublist _).length_le
  simp only [extractName] at h
  split_ifs at h with hi <;> cases h <;> simp only [List.length_drop] <;> omega

theorem extract_length {str name rest : Bytes} {num : Int}
    (h : extract str = some (name, num, rest)) :
  rest.length < str.length
  := by
  unfold extract at h
  split_ifs at h
  · have := extractName_length h
    simp only [List.length_drop] at this
    omega
  · exact extractName_length h

/-- `re.expand` with no `dst` and a string source: the template with "$$" written as "$",
each `$name` or `${name}` as the text of its group, and a "$" that starts neither as itself. -/
def expand (subexpNames : List Bytes) (src : Bytes) (m : List Int) (template : Bytes) : Bytes :=
  match h : cut template 36 with
  | none => template
  | some (before, after) =>
    before ++
      if after.head? = some 36 then 36 :: expand subexpNames src m (after.drop 1)
      else
        match he : extract after with
        | none => 36 :: expand subexpNames src m after
        | some (name, num, rest) =>
          submatch subexpNames src m name num ++ expand subexpNames src m rest
termination_by template.length
decreasing_by
  all_goals simp_wf
  · have := cut_length h
    omega
  · exact cut_length h
  · exact (extract_length he).trans (cut_length h)

/-! ### One step of the loop -/

section Steps

variable {subexpNames : List Bytes} {src : Bytes} {m : List Int}

theorem expand_of_cut_none {template : Bytes} (h : cut template 36 = none) :
  expand subexpNames src m template = template
  := by
  rw [expand]
  split
  · rfl
  · next heq => exact absurd (h.symm.trans heq) nofun

/-- One turn of the loop: what is before the first "$", then what the rest reads as. -/
theorem expand_of_cut_some {template before after : Bytes}
    (h : cut template 36 = some (before, after)) :
  expand subexpNames src m template = before ++
    if after.head? = some 36 then 36 :: expand subexpNames src m (after.drop 1)
    else
      match _he : extract after with
      | none => 36 :: expand subexpNames src m after
      | some (name, num, rest) =>
        submatch subexpNames src m name num ++ expand subexpNames src m rest
  := by
  rw [expand]
  split
  · next heq => exact absurd (h.symm.trans heq) nofun
  · next heq =>
    obtain ⟨rfl, rfl⟩ := Prod.mk.inj (Option.some.inj (heq.symm.trans h))
    rfl

@[simp]
theorem expand_nil :
  expand subexpNames src m [] = []
  := expand_of_cut_none rfl

/-- A byte other than "$" is written as it is. -/
theorem expand_cons_of_ne {c : Byte} (hc : c ≠ 36) (t : Bytes) :
  expand subexpNames src m (c :: t) = c :: expand subexpNames src m t
  := by
  cases h : cut t 36 with
  | none => rw [expand_of_cut_none h, expand_of_cut_none (by rw [cut, if_neg hc, h]; rfl)]
  | some p =>
    rw [expand_of_cut_some h, expand_of_cut_some (by rw [cut, if_neg hc, h]; rfl),
      List.cons_append]

/-- "$$" is written as "$". -/
theorem expand_dollar_dollar (t : Bytes) :
  expand subexpNames src m (36 :: 36 :: t) = 36 :: expand subexpNames src m t
  := by
  have h : cut (36 :: 36 :: t) 36 = some ([], 36 :: t) := by simp [cut]
  rw [expand_of_cut_some h]
  rfl

/-- A name in braces: its bytes, then "}". -/
theorem extract_brace {name : Bytes} (hn : name ≠ []) (hw : ∀ c ∈ name, isWordByte c)
    (t : Bytes) :
  extract (123 :: (name ++ 125 :: t)) = some (name, nameNum name, t)
  := by
  have htake : (name ++ 125 :: t).takeWhile isWordByte = name := by
    rw [List.takeWhile_append_of_pos hw, List.takeWhile_cons_of_neg (by decide), List.append_nil]
  simp [extract, extractName, htake, hn, List.getElem_append_right]

/-- `${name}` is written as the text of the group it names. -/
theorem expand_marker {name : Bytes} (hn : name ≠ []) (hw : ∀ c ∈ name, isWordByte c)
    (t : Bytes) :
  expand subexpNames src m (36 :: 123 :: (name ++ 125 :: t)) =
    submatch subexpNames src m name (nameNum name) ++ expand subexpNames src m t
  := by
  have h : cut (36 :: 123 :: (name ++ 125 :: t)) 36 = some ([], 123 :: (name ++ 125 :: t)) := by
    simp [cut]
  rw [expand_of_cut_some h, List.nil_append, if_neg (by simp)]
  split
  · next he => simp [extract_brace hn hw] at he
  · next he =>
    rw [extract_brace hn hw] at he
    cases he
    rfl

end Steps

end Kythe.VNameUtil
