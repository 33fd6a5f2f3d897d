import Kythe.Bytes
import Mathlib.Logic.Function.Iterate

/-!
# Slash-separated paths

The parts of Go's `path/filepath` that the file tree uses, on a system whose separator is
'/': `Clean`, `Dir` and `Join`.  `Clean` is given element by element, as its documentation
states it: empty and "." elements go, and ".." takes away the element before it, or goes at
the root, or stays at the start of a relative path.

A clean absolute path is `absPath cs` for its elements `cs`, each an `IsName`.  On such
paths `Dir` drops the last element (`dir_absPath`), so that applying it `n` times drops `n`
elements (`iterate_dir_absPath`) and a path is never a parent of its own parent
(`iterate_dir_ne`); and `Join("/", p)` is always such a path (`join_root`).
-/

namespace Kythe.Filepath

/-- The separator '/'. -/
def separator : Byte := 47

/-- The path element ".". -/
def dot : Bytes := [46]

/-- The path element "..". -/
def dotDot : Bytes := [46, 46]

/-- The root directory "/". -/
def rootPath : Bytes := [separator]

/-- The elements of a path: the pieces between its separators. -/
def elements : Bytes → List Bytes
  | [] => [[]]
  | b :: s =>
    if b = separator then [] :: elements s
    else
      match elements s with
      | e :: es => (b :: e) :: es
      | [] => [[b]]

/-- One element of `Clean`'s loop, `out` holding the elements written so far, last first: a
".." with nothing to take away is dropped at the root of a `rooted` path and kept otherwise,
and a kept ".." is never taken away. -/
def cleanStep (rooted : Bool) (out : List Bytes) (e : Bytes) : List Bytes :=
  if e = [] ∨ e = dot then out
  else if e = dotDot then
    match out with
    | d :: rest => if d = dotDot then dotDot :: out else rest
    | [] => if rooted then [] else [dotDot]
  else e :: out

/-- `filepath.Clean`: "." for the empty path; a rooted path keeps its leading separator. -/
def clean : Bytes → Bytes
  | [] => dot
  | path@(b :: _) =>
    let out := ((elements path).foldl (cleanStep (b = separator)) []).reverse
    if b = separator then separator :: Kythe.join separator out
    else if out = [] then dot else Kythe.join separator out

/-- `filepath.Dir`: `Clean` of the path up to and including its last separator. -/
def dir (path : Bytes) : Bytes :=
  clean (path.reverse.dropWhile (· != separator)).reverse

/-- `filepath.Join`: `Clean` of the elements from the first non-empty one on, joined by
separators; empty if every element is. -/
def join (elem : List Bytes) : Bytes :=
  match elem.dropWhile List.isEmpty with
  | [] => []
  | es => clean (Kythe.join separator es)

/-- An element `Clean` keeps as it is: non-empty, without a separator, neither "." nor "..". -/
def IsName (e : Bytes) : Prop :=
  e ≠ [] ∧ separator ∉ e ∧ e ≠ dot ∧ e ≠ dotDot

/-- The absolute path with elements `cs`: "/" for none, "/a/b" for "a" and "b". -/
def absPath (cs : List Bytes) : Bytes :=
  separator :: Kythe.join separator cs

example : clean [47, 97, 47, 46, 46, 47, 98, 47] = [47, 98] := by decide
example : clean [46, 46, 47, 97, 47, 46, 46, 47, 46, 46] = [46, 46, 47, 46, 46] := by decide
example : dir [47, 97, 47, 98] = [47, 97] := by decide

/-! ### Elements -/

@[simp]
theorem elements_sep_cons (s : Bytes) :
  elements (separator :: s) = [] :: elements s
  := if_pos rfl

theorem elements_ne_nil (s : Bytes) :
  elements s ≠ []
  := by
  cases s with
  | nil => simp [elements]
  | cons b s =>
    unfold elements
    split
    · simp
    · split <;> simp

/-- `elements` of a byte other than the separator in front of `s`. -/
theorem elements_cons_of_ne {b : Byte} (hb : b ≠ separator) (s : Bytes) :
  ∃ e es, elements s = e :: es ∧ elements (b :: s) = (b :: e) :: es
  := by
  obtain ⟨e, es, h⟩ := List.exists_cons_of_ne_nil (elements_ne_nil s)
  exact ⟨e, es, h, by simp [elements, hb, h]⟩

theorem elements_of_not_mem {s : Bytes} (h : separator ∉ s) :
  elements s = [s]
  := by
  induction s with
  | nil => rfl
  | cons b s ih =>
    obtain ⟨hb, hs⟩ := not_or.mp (List.mem_cons.not.mp h)
    obtain ⟨e, es, he, hcons⟩ := elements_cons_of_ne (Ne.symm hb) s
    rw [ih hs, List.cons.injEq] at he
    rw [hcons, he.1, he.2]

theorem elements_append_sep {s : Bytes} (h : separator ∉ s) (t : Bytes) :
  elements (s ++ separator :: t) = s :: elements t
  := by
  induction s with
  | nil => simp
  | cons b s ih =>
    obtain ⟨hb, hs⟩ := not_or.mp (List.mem_cons.not.mp h)
    obtain ⟨e, es, he, hcons⟩ := elements_cons_of_ne (Ne.symm hb) (s ++ separator :: t)
    rw [ih hs, List.cons.injEq] at he
    rw [List.cons_append, hcons, he.1, he.2]

/-- Splitting a join of separator-free elements gives the elements back. -/
theorem elements_join :
    ∀ {cs : List Bytes}, cs ≠ [] → (∀ e ∈ cs, separator ∉ e) →
      elements (Kythe.join separator cs) = cs
  | [], h, _ => absurd rfl h
  | [c], _, hcs => elements_of_not_mem (hcs c (List.mem_singleton_self c))
  | c :: d :: cs, _, hcs => by
    rw [join_cons_cons, elements_append_sep (hcs c (List.mem_cons_self c _)),
      elements_join (List.cons_ne_nil d cs) fun e he => hcs e (List.mem_cons_of_mem c he)]

theorem elements_append_singleton_sep (s : Bytes) :
  elements (s ++ [separator]) = elements s ++ [[]]
  := by
  induction s with
  | nil => rfl
  | cons b s ih =>
    by_cases hb : b = separator
    · subst hb
      simp [ih]
    · obtain ⟨e, es, he, hcons⟩ := elements_cons_of_ne hb (s ++ [separator])
      obtain ⟨e', es', he', hcons'⟩ := elements_cons_of_ne hb s
      rw [ih, he', List.cons_append, List.cons.injEq] at he
      rw [List.cons_append, hcons, hcons', ← he.1, ← he.2, List.cons_append]

theorem not_mem_of_mem_elements :
    ∀ {s e : Bytes}, e ∈ elements s → separator ∉ e
  | [], e, h => by simp_all [elements]
  | b :: s, e, h => by
    by_cases hb : b = separator
    · subst hb
      rw [elements_sep_cons, List.mem_cons] at h
      rcases h with rfl | h
      · simp
      · exact not_mem_of_mem_elements h
    · obtain ⟨e', es, he, hcons⟩ := elements_cons_of_ne hb s
      rw [hcons, List.mem_cons] at h
      rcases h with rfl | h
      · exact List.mem_cons.not.mpr
          (not_or.mpr ⟨Ne.symm hb, not_mem_of_mem_elements (he ▸ List.mem_cons_self e' es)⟩)
      · exact not_mem_of_mem_elements (he ▸ List.mem_cons_of_mem e' h)

/-! ### Clean -/

section Clean

variable {rooted : Bool}

@[simp]
theorem cleanStep_nil (out : List Bytes) :
  cleanStep rooted out [] = out
  := if_pos (Or.inl rfl)

theorem cleanStep_name {e : Bytes} (h : IsName e) (out : List Bytes) :
  cleanStep rooted out e = e :: out
  := by
  obtain ⟨h₁, -, h₃, h₄⟩ := h
  simp [cleanStep, h₁, h₃, h₄]

theorem foldl_cleanStep_names {cs : List Bytes} (h : ∀ e ∈ cs, IsName e) (out : List Bytes) :
  cs.foldl (cleanStep rooted) out = cs.reverse ++ out
  := by
  induction cs generalizing out with
  | nil => rfl
  | cons c cs ih =>
    rw [List.foldl_cons, cleanStep_name (h c (List.mem_cons_self c cs)),
      ih (fun e he => h e (List.mem_cons_of_mem c he))]
    simp

/-- At the root, a step of `Clean` only ever writes a name. -/
theorem isName_of_mem_cleanStep {out : List Bytes} (hout : ∀ d ∈ out, IsName d) {e : Bytes}
    (he : separator ∉ e) :
  ∀ d ∈ cleanStep true out e, IsName d
  := by
  intro d hd
  by_cases h₁ : e = [] ∨ e = dot
  · unfold cleanStep at hd
    rw [if_pos h₁] at hd
    exact hout d hd
  by_cases h₂ : e = dotDot
  · unfold cleanStep at hd
    rw [if_neg h₁, if_pos h₂] at hd
    rcases out with _ | ⟨d', rest⟩
    · simp at hd
    · have hd' : d' ≠ dotDot := (hout d' (List.mem_cons_self d' rest)).2.2.2
      simp only [hd', if_false] at hd
      exact hout d (List.mem_cons_of_mem d' hd)
  · unfold cleanStep at hd
    rw [if_neg h₁, if_neg h₂] at hd
    rcases List.mem_cons.mp hd with rfl | hd
    · exact ⟨fun h => h₁ (Or.inl h), he, fun h => h₁ (Or.inr h), h₂⟩
    · exact hout d hd

theorem isName_of_mem_foldl_cleanStep {es out : List Bytes} (hes : ∀ e ∈ es, separator ∉ e)
    (hout : ∀ d ∈ out, IsName d) :
  ∀ d ∈ es.foldl (cleanStep true) out, IsName d
  := by
  induction es generalizing out with
  | nil => exact hout
  | cons e es ih =>
    exact ih (fun e' he' => hes e' (List.mem_cons_of_mem e he'))
      (isName_of_mem_cleanStep hout (hes e (List.mem_cons_self e es)))

end Clean

/-! ### Dir -/

theorem join_append_singleton (cs : List Bytes) (x : Bytes) :
  Kythe.join separator (cs ++ [x]) =
    if cs = [] then x else Kythe.join separator cs ++ separator :: x
  := by
  induction cs with
  | nil => rfl
  | cons c cs ih =>
    rw [List.cons_append, join_cons_of_ne_nil c (by simp), ih]
    by_cases hcs : cs = []
    · subst hcs
      rfl
    · simp [hcs, join_cons_of_ne_nil c hcs]

theorem absPath_append_singleton (cs : List Bytes) (x : Bytes) :
  absPath (cs ++ [x]) = (if cs = [] then rootPath else absPath cs ++ [separator]) ++ x
  := by
  rw [absPath, join_append_singleton]
  split <;> simp [absPath, rootPath]

/-- The parent of the absolute path with elements `cs` is the one without the last. -/
theorem dir_absPath {cs : List Bytes} (h : ∀ e ∈ cs, IsName e) :
  dir (absPath cs) = absPath cs.dropLast
  := by
  rcases cs.eq_nil_or_concat with rfl | ⟨cs, x, rfl⟩
  · rfl
  · rw [List.concat_eq_append] at h ⊢
    have hx : ∀ b ∈ x.reverse, (b != separator) = true := fun b hb =>
      bne_iff_ne.mpr fun hb' => (h x (by simp)).2.1 (hb' ▸ List.mem_reverse.mp hb)
    have hcs : ∀ e ∈ cs, IsName e := fun e he => h e (by simp [he])
    rw [List.dropLast_concat, dir, absPath_append_singleton, List.reverse_append,
      List.dropWhile_append_of_pos hx]
    by_cases hne : cs = []
    · subst hne
      rfl
    · have helems : elements (Kythe.join separator cs) = cs :=
        elements_join hne fun e he => (hcs e he).2.1
      simp only [if_neg hne, List.reverse_append, List.reverse_cons, List.reverse_nil,
        List.nil_append, List.singleton_append, List.dropWhile_cons, bne_self_eq_false,
        Bool.false_eq_true, if_false, List.reverse_cons, List.reverse_reverse, absPath,
        List.cons_append]
      simp only [clean, ← List.cons_append, elements_append_singleton_sep, elements_sep_cons,
        helems, List.foldl_append, List.foldl_cons, cleanStep_nil, List.foldl_nil,
        foldl_cleanStep_names hcs, List.append_nil, List.reverse_reverse, if_true]

@[simp]
theorem dir_rootPath :
  dir rootPath = rootPath
  := rfl

theorem isName_of_mem_dropLast {cs : List Bytes} (h : ∀ e ∈ cs, IsName e) :
  ∀ e ∈ cs.dropLast, IsName e
  := fun e he => h e (List.dropLast_subset cs he)

/-- `Dir` applied `n` times drops `n` elements. -/
theorem iterate_dir_absPath (n : Nat) :
    ∀ {cs : List Bytes}, (∀ e ∈ cs, IsName e) → dir^[n] (absPath cs) = absPath (List.dropLast^[n] cs)
  := by
  induction n with
  | zero => intro _ _; rfl
  | succ n ih =>
    intro cs h
    rw [Function.iterate_succ_apply, Function.iterate_succ_apply, dir_absPath h,
      ih (isName_of_mem_dropLast h)]

theorem length_join_dropLast_le (cs : List Bytes) :
  (Kythe.join separator cs.dropLast).length ≤ (Kythe.join separator cs).length
  := by
  rcases cs.eq_nil_or_concat with rfl | ⟨cs, x, rfl⟩
  · rfl
  · rw [List.concat_eq_append, List.dropLast_concat, join_append_singleton]
    split <;> simp_all

theorem length_absPath_iterate_dropLast_le (n : Nat) (cs : List Bytes) :
  (absPath (List.dropLast^[n] cs)).length ≤ (absPath cs).length
  := by
  induction n generalizing cs with
  | zero => rfl
  | succ n ih =>
    rw [Function.iterate_succ_apply]
    exact (ih cs.dropLast).trans (Nat.succ_le_succ (length_join_dropLast_le cs))

theorem length_absPath_dropLast_lt {cs : List Bytes} (h : ∀ e ∈ cs, IsName e) (hne : cs ≠ []) :
  (absPath cs.dropLast).length < (absPath cs).length
  := by
  obtain ⟨cs, x, rfl⟩ := (cs.eq_nil_or_concat).resolve_left hne
  rw [List.concat_eq_append] at h ⊢
  have hx := List.length_pos.mpr (h x (by simp)).1
  rw [List.dropLast_concat, absPath, absPath, join_append_singleton]
  split <;> simp_all

/-- A clean absolute path other than "/" is none of its ancestors. -/
theorem iterate_dir_ne {cs : List Bytes} (h : ∀ e ∈ cs, IsName e) (hne : cs ≠ []) (n : Nat) :
  dir^[n] (dir (absPath cs)) ≠ absPath cs
  := by
  intro heq
  have hlen := congrArg List.length heq
  rw [dir_absPath h, iterate_dir_absPath n (isName_of_mem_dropLast h)] at hlen
  have := length_absPath_iterate_dropLast_le n cs.dropLast
  have := length_absPath_dropLast_lt h hne
  omega

theorem length_le_length_absPath {cs : List Bytes} (h : ∀ e ∈ cs, IsName e) :
  cs.length ≤ (absPath cs).length
  := by
  induction cs using List.reverseRecOn with
  | nil => simp
  | append_singleton cs x ih =>
    have hlt := length_absPath_dropLast_lt h (by simp)
    rw [List.dropLast_concat] at hlt
    have := ih fun e he => h e (by simp [he])
    simp only [List.length_append, List.length_singleton]
    omega

/-! ### Join -/

/-- `Join("/", p)` is a clean absolute path. -/
theorem join_root (p : Bytes) :
  ∃ cs, (∀ e ∈ cs, IsName e) ∧ join [rootPath, p] = absPath cs
  := by
  refine ⟨((elements (rootPath ++ separator :: p)).foldl (cleanStep true) []).reverse,
    fun e he => isName_of_mem_foldl_cleanStep (fun e he => not_mem_of_mem_elements he)
      (by simp) e (List.mem_reverse.mp he), ?_⟩
  rfl

end Kythe.Filepath
