import Mathlib.Data.List.Lex
import Mathlib.Data.List.Basic
import Mathlib.Order.Fin.Basic

/-!
# Byte strings

Go's `string` and `[]byte` values are both `Bytes`, lists of bytes, ordered as
`bytes.Compare` orders them: lexicographically, a proper prefix first.  `join sep` is
`strings.Join` with a one-byte separator and `splitN sep s n` is `strings.SplitN`, the only
kind of separator the packages join and split on; `replace`, `trim` and `cut` are
`strings.Replace`, `strings.Trim` and `strings.Cut` with one-byte arguments.

Splitting is the inverse of joining on fields free of the separator (`splitN_join`,
`join_splitN`), and a field ended by a separator smaller than each of its bytes compares as
the field itself (`append_cons_lt_append_cons_iff`): the two facts the key codec rests on.
-/

namespace Kythe

/-- A byte, Go's `byte`. -/
abbrev Byte := Fin 256

/-- A Go `string` or `[]byte`. -/
abbrev Bytes := List Byte

/-- `strings.Join(elems, string(sep))`. -/
def join (sep : Byte) : List Bytes → Bytes
  | [] => []
  | [p] => p
  | p :: ps => p ++ sep :: join sep ps

/-- `strings.SplitN(s, string(sep), n)`: at most `n` fields, the last one the unsplit rest. -/
def splitN (sep : Byte) : Bytes → Nat → List Bytes
  | _, 0 => []
  | s, 1 => [s]
  | s, n + 2 =>
    match s.span (· != sep) with
    | (field, []) => [field]
    | (field, _ :: rest) => field :: splitN sep rest (n + 1)

/-- `strings.Replace(s, string(old), new, -1)`: every `old` of `s` replaced by `new`. -/
def replace : Bytes → Byte → Bytes → Bytes
  | [], _, _ => []
  | c :: s, old, new => (if c = old then new else [c]) ++ replace s old new

/-- `strings.Trim(s, string(c))`: `s` without the `c`s it starts and ends with. -/
def trim (s : Bytes) (c : Byte) : Bytes :=
  ((s.dropWhile (· == c)).reverse.dropWhile (· == c)).reverse

/-- `strings.Cut(s, string(sep))`: the text before the first `sep` and the text after it, or
`none` when `s` holds no `sep`. -/
def cut : Bytes → Byte → Option (Bytes × Bytes)
  | [], _ => none
  | c :: s, sep =>
    if c = sep then some ([], s) else (cut s sep).map fun (before, after) => (c :: before, after)

/-! ### Splitting and joining -/

section Split

variable {sep : Byte}

@[simp]
theorem join_nil :
  join sep [] = []
  := rfl

@[simp]
theorem join_singleton (p : Bytes) :
  join sep [p] = p
  := rfl

@[simp]
theorem splitN_zero (s : Bytes) :
  splitN sep s 0 = []
  := rfl

@[simp]
theorem splitN_one (s : Bytes) :
  splitN sep s 1 = [s]
  := rfl

theorem join_cons_of_ne_nil (p : Bytes) {ps : List Bytes} (h : ps ≠ []) :
  join sep (p :: ps) = p ++ sep :: join sep ps
  := by
  cases ps with
  | nil => exact absurd rfl h
  | cons q ps => rfl

@[simp]
theorem join_cons_cons (p q : Bytes) (ps : List Bytes) :
  join sep (p :: q :: ps) = p ++ sep :: join sep (q :: ps)
  := rfl

/-- A byte other than the separator is in a join exactly when it is in one of the fields. -/
theorem mem_join_of_ne {b : Byte} (h : b ≠ sep) :
    ∀ {ps : List Bytes}, b ∈ join sep ps ↔ ∃ p ∈ ps, b ∈ p
  | [] => by simp [join]
  | [p] => by simp
  | p :: q :: ps => by
    rw [join_cons_cons, List.mem_append, List.mem_cons, mem_join_of_ne h]
    simp [h]

/-- A string is free of the separator, or has a first one. -/
theorem not_mem_or_eq_append_cons (s : Bytes) :
  sep ∉ s ∨ ∃ a b, sep ∉ a ∧ s = a ++ sep :: b
  := by
  induction s with
  | nil => exact .inl (List.not_mem_nil sep)
  | cons c s ih =>
    by_cases hc : c = sep
    · exact .inr ⟨[], s, List.not_mem_nil sep, by rw [hc]; rfl⟩
    · rcases ih with h | ⟨a, b, ha, rfl⟩
      · exact .inl (by simp [h, Ne.symm hc])
      · exact .inr ⟨c :: a, b, by simp [ha, Ne.symm hc], rfl⟩

theorem span_ne_of_not_mem {s : Bytes} (h : sep ∉ s) :
  s.span (· != sep) = (s, [])
  := by
  rw [List.span_eq_take_drop, List.takeWhile_eq_self_iff.mpr, List.dropWhile_eq_nil_iff.mpr]
  all_goals intro c hc; simpa using ne_of_mem_of_not_mem hc h

theorem span_ne_append_cons {a : Bytes} (h : sep ∉ a) (b : Bytes) :
  (a ++ sep :: b).span (· != sep) = (a, sep :: b)
  := by
  have ha : ∀ c ∈ a, (c != sep) = true := fun c hc => by
    simpa using ne_of_mem_of_not_mem hc h
  rw [List.span_eq_take_drop, List.takeWhile_append_of_pos ha, List.dropWhile_append_of_pos ha]
  simp

/-- A string free of the separator is one field. -/
theorem splitN_of_not_mem {s : Bytes} (h : sep ∉ s) (n : Nat) :
  splitN sep s (n + 1) = [s]
  := by
  cases n with
  | zero => rfl
  | succ n => simp only [splitN, span_ne_of_not_mem h]

/-- The first field ends at the first separator. -/
theorem splitN_append_cons {a : Bytes} (h : sep ∉ a) (b : Bytes) (n : Nat) :
  splitN sep (a ++ sep :: b) (n + 2) = a :: splitN sep b (n + 1)
  := by
  simp only [splitN, span_ne_append_cons h]

theorem splitN_ne_nil (s : Bytes) (n : Nat) :
  splitN sep s (n + 1) ≠ []
  := by
  rcases @not_mem_or_eq_append_cons sep s with h | ⟨a, b, ha, rfl⟩
  · simp [splitN_of_not_mem h]
  · cases n
    · simp
    · simp [splitN_append_cons ha]

/-- Splitting into as many fields as were joined gives them back, when all but the last are
free of the separator. -/
theorem splitN_join :
    ∀ {ps : List Bytes}, ps ≠ [] → (∀ p ∈ ps.dropLast, sep ∉ p) →
      splitN sep (join sep ps) ps.length = ps
  | [_], _, _ => rfl
  | p :: q :: ps, _, h => by
    have hp : sep ∉ p := h p (by simp)
    have hrest : ∀ r ∈ (q :: ps).dropLast, sep ∉ r := fun r hr =>
      h r (by simp only [List.dropLast_cons₂, List.mem_cons] at hr ⊢; exact .inr hr)
    rw [join_cons_cons, show (p :: q :: ps).length = ps.length + 2 from rfl,
      splitN_append_cons hp]
    exact congrArg (p :: ·) (splitN_join (List.cons_ne_nil q ps) hrest)

/-- Joining the fields gives back the string. -/
theorem join_splitN (s : Bytes) (n : Nat) :
  join sep (splitN sep s (n + 1)) = s
  := by
  induction n generalizing s with
  | zero => rfl
  | succ n ih =>
    rcases @not_mem_or_eq_append_cons sep s with h | ⟨a, b, ha, rfl⟩
    · rw [splitN_of_not_mem h, join_singleton]
    · rw [splitN_append_cons ha, join_cons_of_ne_nil _ (splitN_ne_nil b n), ih]

/-- Of two fields free of the separator and ended by it, one starts the other exactly when
they are the same field and what follows the first starts what follows the second. -/
theorem append_cons_prefix_append_cons_iff {a b x y : Bytes} (ha : sep ∉ a) (hb : sep ∉ b) :
  a ++ sep :: x <+: b ++ sep :: y ↔ a = b ∧ x <+: y
  := by
  induction a generalizing b with
  | nil =>
    cases b with
    | nil => simp
    | cons d b => simp [List.ne_of_not_mem_cons hb]
  | cons c a ih =>
    cases b with
    | nil => simp [Ne.symm (List.ne_of_not_mem_cons ha)]
    | cons d b =>
      simp only [List.cons_append, List.cons_prefix_cons, List.cons.injEq, and_assoc,
        ih (List.not_mem_of_not_mem_cons ha) (List.not_mem_of_not_mem_cons hb)]

/-- Two fields free of the separator and ended by it are equal, with what follows them,
exactly when the fields are equal and so is what follows. -/
theorem append_cons_inj {a b x y : Bytes} (ha : sep ∉ a) (hb : sep ∉ b) :
  a ++ sep :: x = b ++ sep :: y ↔ a = b ∧ x = y
  := by
  refine ⟨fun h => ?_, fun ⟨hab, hxy⟩ => hab ▸ hxy ▸ rfl⟩
  obtain ⟨rfl, -⟩ := (append_cons_prefix_append_cons_iff ha hb).mp ⟨[], by rw [h, List.append_nil]⟩
  exact ⟨rfl, List.cons_injective (List.append_cancel_left h)⟩

end Split

/-! ### Replacing, trimming and cutting -/

section Replace

variable {old sep : Byte} {new : Bytes}

@[simp]
theorem replace_nil :
  replace [] old new = []
  := rfl

@[simp]
theorem replace_cons (c : Byte) (s : Bytes) :
  replace (c :: s) old new = (if c = old then new else [c]) ++ replace s old new
  := rfl

/-- Replacing a byte outside a class by bytes outside it leaves the longest run of the class
a string starts with, and replaces the rest. -/
theorem span_replace {p : Byte → Bool} (hold : p old = false) (hnew : ∀ c ∈ new, p c = false)
    (hne : new ≠ []) (s : Bytes) :
  (replace s old new).span p = ((s.span p).1, replace (s.span p).2 old new)
  := by
  induction s with
  | nil => rfl
  | cons c s ih =>
    simp only [List.span_eq_take_drop, Prod.mk.injEq] at ih ⊢
    by_cases hc : p c = true
    · have hco : c ≠ old := fun h => by simp [h, hold] at hc
      simp [hc, hco, ih.1, ih.2]
    · obtain ⟨d, ds, hd⟩ := List.exists_cons_of_ne_nil hne
      have hhead : ∀ t, replace (c :: t) old new = (if c = old then d else c) ::
          ((if c = old then ds else []) ++ replace t old new) := fun t => by
        by_cases hco : c = old <;> simp [hco, hd]
      have hnot : p (if c = old then d else c) = false := by
        split
        · exact hnew d (hd ▸ List.mem_cons_self d ds)
        · simpa using hc
      simp [hhead, hnot, hc]

/-- A byte followed by a string free of it, and by it again, trims to that string. -/
theorem trim_cons_append {c : Byte} {s : Bytes} (h : c ∉ s) :
  trim (c :: (s ++ [c])) c = s
  := by
  have hdrop : ∀ t : Bytes, t.head? ≠ some c → t.dropWhile (· == c) = t := fun t ht => by
    cases t with
    | nil => rfl
    | cons d t => exact List.dropWhile_cons_of_neg (by simpa using ht)
  have hs : (s ++ [c]).dropWhile (· == c) = s ++ [c] ∨ s = [] := by
    cases s with
    | nil => exact .inr rfl
    | cons d s => exact .inl (hdrop _ (by simpa [eq_comm] using List.ne_of_not_mem_cons h))
  unfold trim
  rcases hs with hs | rfl
  · rw [List.dropWhile_cons_of_pos (by simp), hs, List.reverse_append, List.reverse_singleton,
      List.singleton_append, List.dropWhile_cons_of_pos (by simp), hdrop, List.reverse_reverse]
    rw [List.head?_reverse]
    exact fun hl => h (List.mem_of_getLast?_eq_some hl)
  · simp

theorem cut_of_not_mem {s : Bytes} (h : sep ∉ s) :
  cut s sep = none
  := by
  induction s with
  | nil => rfl
  | cons c s ih =>
    rw [cut, if_neg (Ne.symm (List.ne_of_not_mem_cons h)), ih (List.not_mem_of_not_mem_cons h)]
    rfl

theorem cut_append_cons {a : Bytes} (h : sep ∉ a) (b : Bytes) :
  cut (a ++ sep :: b) sep = some (a, b)
  := by
  induction a with
  | nil => simp [cut]
  | cons c a ih =>
    rw [List.cons_append, cut, if_neg (Ne.symm (List.ne_of_not_mem_cons h)),
      ih (List.not_mem_of_not_mem_cons h)]
    rfl

/-- What follows the cut is shorter than the string. -/
theorem cut_length {s before after : Bytes} (h : cut s sep = some (before, after)) :
  after.length < s.length
  := by
  rcases @not_mem_or_eq_append_cons sep s with hs | ⟨a, b, ha, rfl⟩
  · simp [cut_of_not_mem hs] at h
  · rw [cut_append_cons ha] at h
    cases h
    simp only [List.length_append, List.length_cons]
    omega

end Replace

/-! ### Order -/

section Order

variable {α : Type} [LinearOrder α]

theorem cons_lt_cons_iff {a b : α} {l l' : List α} :
  a :: l < b :: l' ↔ a < b ∨ a = b ∧ l < l'
  := by
  constructor
  · intro h
    cases h with
    | cons h => exact .inr ⟨rfl, h⟩
    | rel h => exact .inl h
  · rintro (h | ⟨rfl, h⟩)
    · exact List.Lex.rel h
    · exact List.Lex.cons h

@[simp]
theorem not_lt_nil (l : List α) :
  ¬ l < []
  := List.Lex.not_nil_right _ l

theorem nil_lt_iff {l : List α} :
  [] < l ↔ l ≠ []
  := by
  cases l with
  | nil => simp
  | cons a l => simp [List.nil_lt_cons]

/-- A prefix sorts at or before the strings it starts. -/
theorem prefix_le {l l' : List α} (h : l <+: l') :
  l ≤ l'
  := by
  obtain ⟨t, rfl⟩ := h
  refine not_lt.mp fun hlt => ?_
  induction l with
  | nil => exact not_lt_nil t hlt
  | cons a l ih => exact ih (by simpa [cons_lt_cons_iff] using hlt)

/-- A string at or after `p ++ [c]` and before `p ++ [d]`, with no element between `c` and
`d` but `c`, starts with `p ++ [c]`. -/
theorem prefix_of_le_of_lt {c d : α} (hcd : ∀ x, c ≤ x → x < d → x = c) :
    ∀ {p k : List α}, p ++ [c] ≤ k → k < p ++ [d] → p ++ [c] <+: k
  | _, [], h₁, _ => absurd (nil_lt_iff.mpr (List.append_ne_nil_of_right_ne_nil _ (List.cons_ne_nil c [])))
      (not_lt.mpr h₁)
  | [], x :: k, h₁, h₂ => by
    rw [List.nil_append] at h₁ h₂
    have hx : c ≤ x := not_lt.mp fun hlt => not_lt.mpr h₁ (cons_lt_cons_iff.mpr (.inl hlt))
    have hxd : x < d := by simpa [cons_lt_cons_iff] using h₂
    rw [hcd x hx hxd]
    exact (List.prefix_cons_inj c).mpr List.nil_prefix
  | a :: p, x :: k, h₁, h₂ => by
    rw [List.cons_append] at h₁ h₂
    rcases cons_lt_cons_iff.mp h₂ with hxa | ⟨rfl, hk⟩
    · exact absurd (cons_lt_cons_iff.mpr (.inl hxa)) (not_lt.mpr h₁)
    · have hk' : p ++ [c] ≤ k := not_lt.mp fun hlt => not_lt.mpr h₁ (cons_lt_cons_iff.mpr (.inr ⟨rfl, hlt⟩))
      exact (List.prefix_cons_inj x).mpr (prefix_of_le_of_lt hcd hk' hk)

theorem append_lt_append_left_iff (s : List α) {l l' : List α} :
  s ++ l < s ++ l' ↔ l < l'
  := by
  induction s with
  | nil => rfl
  | cons a s ih => simp [cons_lt_cons_iff, ih]

/-- A field followed by a separator smaller than every byte of the field compares as the
field, and equal fields leave the comparison to what follows the separator. -/
theorem append_cons_lt_append_cons_iff {sep : α} {a b x y : List α}
    (ha : ∀ c ∈ a, sep < c) (hb : ∀ c ∈ b, sep < c) :
  a ++ sep :: x < b ++ sep :: y ↔ a < b ∨ a = b ∧ x < y
  := by
  induction a generalizing b with
  | nil =>
    cases b with
    | nil => simp [cons_lt_cons_iff]
    | cons d b => simp [cons_lt_cons_iff, hb d (List.mem_cons_self d b), List.nil_lt_cons]
  | cons c a ih =>
    have hc := ha c (List.mem_cons_self c a)
    cases b with
    | nil => simp [cons_lt_cons_iff, not_lt_of_lt hc, ne_of_gt hc]
    | cons d b =>
      simp only [List.cons_append, cons_lt_cons_iff, List.cons.injEq,
        ih (fun e he => ha e (List.mem_cons_of_mem c he)) (fun e he => hb e (List.mem_cons_of_mem d he))]
      constructor
      · rintro (h | ⟨rfl, h⟩)
        · exact .inl (.inl h)
        · rcases h with h | ⟨rfl, h⟩
          · exact .inl (.inr ⟨rfl, h⟩)
          · exact .inr ⟨⟨rfl, rfl⟩, h⟩
      · rintro ((h | ⟨rfl, h⟩) | ⟨⟨rfl, rfl⟩, h⟩)
        · exact .inl h
        · exact .inr ⟨rfl, .inl h⟩
        · exact .inr ⟨rfl, .inr ⟨rfl, h⟩⟩

/-- A field ended by a separator below all its bytes compares as the head of a list of
fields, when what follows the separators compares as the rest of the lists. -/
theorem append_cons_lt_iff_cons_lt {sep : α} {a b x y : List α} {r₁ r₂ : List (List α)}
    (ha : ∀ c ∈ a, sep < c) (hb : ∀ c ∈ b, sep < c) (h : x < y ↔ r₁ < r₂) :
  a ++ sep :: x < b ++ sep :: y ↔ a :: r₁ < b :: r₂
  := by
  rw [append_cons_lt_append_cons_iff ha hb, cons_lt_cons_iff, h]

end Order

end Kythe
