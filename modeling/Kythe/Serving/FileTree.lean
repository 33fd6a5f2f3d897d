import Kythe.Bytes

/-!
# The keys of the file tree lookup table

The serving file tree keeps the reply of each directory of a corpus root under
`DirKey(corpus, root, path)`, which is `dirs:` followed by the three joined by `dirKeySep`,
and the corpus roots under `CorpusRootsKey`.

Distinct directories have distinct keys when neither the corpus nor the root holds
`dirKeySep` (`dirKey_eq_iff`); a corpus holding it can share its key with another directory.
-/

namespace Kythe.Serving

/-- `dirTablePrefix`: "dirs:". -/
def dirTablePrefix : Bytes := [100, 105, 114, 115, 58]

/-- `dirKeySep`: "\n". -/
def dirKeySep : Byte := 10

/-- `CorpusRootsKey`: "dirs:corpusRoots". -/
def corpusRootsKey : Bytes :=
  dirTablePrefix ++ [99, 111, 114, 112, 117, 115, 82, 111, 111, 116, 115]

/-- `DirKey`: the key of the directory `path` of `corpus`/`root`. -/
def dirKey (corpus root path : Bytes) : Bytes :=
  dirTablePrefix ++ join dirKeySep [corpus, root, path]

/-- Directories of corpora and roots free of `dirKeySep` have the same key exactly when they
are the same directory. -/
theorem dirKey_eq_iff {c r p c' r' p' : Bytes} (hc : dirKeySep ∉ c) (hr : dirKeySep ∉ r)
    (hc' : dirKeySep ∉ c') (hr' : dirKeySep ∉ r') :
  dirKey c r p = dirKey c' r' p' ↔ c = c' ∧ r = r' ∧ p = p'
  := by
  constructor
  · intro h
    have hsplit := congrArg (fun key => splitN dirKeySep (key.drop dirTablePrefix.length) 3) h
    simp only [dirKey, List.drop_left] at hsplit
    have e : splitN dirKeySep (join dirKeySep [c, r, p]) 3 = [c, r, p] :=
      splitN_join (by simp) (by simpa using ⟨hc, hr⟩)
    have e' : splitN dirKeySep (join dirKeySep [c', r', p']) 3 = [c', r', p'] :=
      splitN_join (by simp) (by simpa using ⟨hc', hr'⟩)
    rw [e, e'] at hsplit
    simpa using hsplit
  · rintro ⟨rfl, rfl, rfl⟩
    rfl

/-- The directories "/a" and "/b" of one corpus root. -/
theorem dirKey_eq_iff_two_dirs :
  dirKey [99] [114] [47, 97] = dirKey [99] [114] [47, 98] ↔
    ([99] : Bytes) = [99] ∧ ([114] : Bytes) = [114] ∧ ([47, 97] : Bytes) = [47, 98]
  := dirKey_eq_iff (by decide) (by decide) (by decide) (by decide)

example : dirKey [97, 10, 98] [99] [] = dirKey [97] [98, 10, 99] [] := rfl

end Kythe.Serving
