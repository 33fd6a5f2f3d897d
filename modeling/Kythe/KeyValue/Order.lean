import Kythe.KeyValue.Codec

/-!
# Key order and the canonical entry order

The GraphStore orders entries by source, then edge kind, then fact name, then target,
VNames field by field and strings bytewise, an absent target first: `canonicalFields` lists
a tuple's fields in that order, so that the canonical order is the lexicographic order of
those lists.  The package comment says the key encoding realizes this order.

It does when the fields a key ends with `entryKeySep` (the source's language, the edge
kind and the fact name) hold only bytes above it (`encodeKey_lt_iff`): `vNameFieldSep` is
below every byte a field may hold, but `entryKeySep` is `'\n'`, above the bytes `1` to `9`
a fact name may hold.  `encodeKey_lt_iff_canonical_fails` is a pair of fact names on which
the two orders disagree.
-/

namespace Kythe.KeyValue

/-- The fields of a key's tuple in the canonical entry order: the source's five fields, the
edge kind, the fact name, and the target's five fields when there is a target. -/
def canonicalFields (source : VName) (edgeKind factName : Bytes) (target : Option VName) :
    List Bytes :=
  source.fields ++ [edgeKind, factName] ++ (target.map VName.fields).getD []

/-- Every byte of the string is above `entryKeySep`. -/
def AboveKeySep (b : Bytes) : Prop := ∀ c ∈ b, entryKeySep < c

/-- The bytes of a field free of `vNameFieldSep` are above it. -/
theorem above_vNameFieldSep {f : Bytes} (h : vNameFieldSep ∉ f) :
  ∀ c ∈ f, vNameFieldSep < c
  := fun _ hc => Fin.pos_iff_ne_zero.mpr (ne_of_mem_of_not_mem hc h)

/-- Encodings of VNames compare as their lists of fields. -/
theorem vNameEncoding_lt_iff {v w : VName} (hv : ∀ f ∈ v.fields, vNameFieldSep ∉ f)
    (hw : ∀ f ∈ w.fields, vNameFieldSep ∉ f) :
  vNameEncoding v < vNameEncoding w ↔ v.fields < w.fields
  := by
  obtain ⟨sig₁, corp₁, root₁, path₁, lang₁⟩ := v
  obtain ⟨sig₂, corp₂, root₂, path₂, lang₂⟩ := w
  simp only [VName.fields, List.mem_cons, List.mem_singleton, List.not_mem_nil, or_false,
    forall_eq_or_imp, forall_eq] at hv hw
  simp only [vNameEncoding, VName.fields, join_cons_cons, join_singleton]
  refine append_cons_lt_iff_cons_lt (above_vNameFieldSep hv.1) (above_vNameFieldSep hw.1) <|
    append_cons_lt_iff_cons_lt (above_vNameFieldSep hv.2.1) (above_vNameFieldSep hw.2.1) <|
    append_cons_lt_iff_cons_lt (above_vNameFieldSep hv.2.2.1) (above_vNameFieldSep hw.2.2.1) <|
    append_cons_lt_iff_cons_lt (above_vNameFieldSep hv.2.2.2.1) (above_vNameFieldSep hw.2.2.2.1) ?_
  simp [cons_lt_cons_iff]

/-- A target's bytes in a key compare as its fields, an absent target first. -/
theorem optEncoding_lt_iff {t₁ t₂ : Option VName} (h₁ : ∀ t ∈ t₁, Encodable t)
    (h₂ : ∀ t ∈ t₂, Encodable t) :
  optEncoding t₁ < optEncoding t₂ ↔ (t₁.map VName.fields).getD [] < (t₂.map VName.fields).getD []
  := by
  cases t₁ with
  | none =>
    cases t₂ with
    | none => simp
    | some w => simp [nil_lt_iff, vNameEncoding_ne_nil, VName.fields]
  | some v =>
    cases t₂ with
    | none => simp
    | some w =>
      exact vNameEncoding_lt_iff (fun f hf => (h₁ v rfl f hf).1) (fun f hf => (h₂ w rfl f hf).1)

/-- The keys of two tuples compare as their canonical fields do when every field that ends
with `entryKeySep` holds only bytes above it. -/
theorem encodeKey_lt_iff {s₁ s₂ : VName} {t₁ t₂ : Option VName} {f₁ f₂ k₁ k₂ key₁ key₂ : Bytes}
    (h₁ : encodeKey (some s₁) f₁ k₁ t₁ = .ok key₁) (h₂ : encodeKey (some s₂) f₂ k₂ t₂ = .ok key₂)
    (hl₁ : AboveKeySep s₁.language) (hk₁ : AboveKeySep k₁) (hf₁ : AboveKeySep f₁)
    (hl₂ : AboveKeySep s₂.language) (hk₂ : AboveKeySep k₂) (hf₂ : AboveKeySep f₂) :
  key₁ < key₂ ↔ canonicalFields s₁ k₁ f₁ t₁ < canonicalFields s₂ k₂ f₂ t₂
  := by
  obtain ⟨_, ⟨⟩, -, -, -, hs₁, ht₁, rfl⟩ := encodeKey_eq_ok_iff.mp h₁
  obtain ⟨_, ⟨⟩, -, -, -, hs₂, ht₂, rfl⟩ := encodeKey_eq_ok_iff.mp h₂
  have hv₁ := ((encodable_iff _).mp hs₁).1
  have hv₂ := ((encodable_iff _).mp hs₂).1
  obtain ⟨sig₁, corp₁, root₁, path₁, lang₁⟩ := s₁
  obtain ⟨sig₂, corp₂, root₂, path₂, lang₂⟩ := s₂
  simp only [VName.fields, List.mem_cons, List.mem_singleton, List.not_mem_nil, or_false,
    forall_eq_or_imp, forall_eq] at hv₁ hv₂
  rw [append_lt_append_left_iff]
  simp only [canonicalFields, vNameEncoding, VName.fields, join_cons_cons, join_singleton,
    List.cons_append, List.singleton_append, List.append_assoc] at hl₁ hl₂ ⊢
  exact append_cons_lt_iff_cons_lt (above_vNameFieldSep hv₁.1) (above_vNameFieldSep hv₂.1) <|
    append_cons_lt_iff_cons_lt (above_vNameFieldSep hv₁.2.1) (above_vNameFieldSep hv₂.2.1) <|
    append_cons_lt_iff_cons_lt (above_vNameFieldSep hv₁.2.2.1) (above_vNameFieldSep hv₂.2.2.1) <|
    append_cons_lt_iff_cons_lt (above_vNameFieldSep hv₁.2.2.2.1)
      (above_vNameFieldSep hv₂.2.2.2.1) <|
    append_cons_lt_iff_cons_lt hl₁ hl₂ <| append_cons_lt_iff_cons_lt hk₁ hk₂ <|
    append_cons_lt_iff_cons_lt hf₁ hf₂ (optEncoding_lt_iff ht₁ ht₂)

/-- Two fact names of one node, `a` before `b`, in both orders. -/
theorem encodeKey_lt_iff_two_facts :
    ∃ key₁ key₂, encodeKey (some ⟨[115], [], [], [], []⟩) [97] [] none = .ok key₁ ∧
      encodeKey (some ⟨[115], [], [], [], []⟩) [98] [] none = .ok key₂ ∧
      (key₁ < key₂ ↔ canonicalFields ⟨[115], [], [], [], []⟩ [] [97] none <
        canonicalFields ⟨[115], [], [], [], []⟩ [] [98] none)
  := ⟨_, _, rfl, rfl, encodeKey_lt_iff rfl rfl (by simp [AboveKeySep]) (by simp [AboveKeySep])
    (by simp [AboveKeySep, entryKeySep]) (by simp [AboveKeySep]) (by simp [AboveKeySep])
    (by simp [AboveKeySep, entryKeySep])⟩

/-- The code's key order disagrees with the canonical order on the node facts `a` and
`a\x01` of one source: the byte `1` sorts below `entryKeySep`. -/
theorem encodeKey_lt_iff_canonical_fails :
    ¬ ∀ (s₁ s₂ : VName) (f₁ f₂ k₁ k₂ : Bytes) (t₁ t₂ : Option VName) (key₁ key₂ : Bytes),
      encodeKey (some s₁) f₁ k₁ t₁ = .ok key₁ → encodeKey (some s₂) f₂ k₂ t₂ = .ok key₂ →
      (s₁, k₁, f₁, t₁) ≠ (s₂, k₂, f₂, t₂) →
      (key₁ < key₂ ↔ canonicalFields s₁ k₁ f₁ t₁ < canonicalFields s₂ k₂ f₂ t₂)
  := fun h =>
  absurd (h ⟨[115], [], [], [], []⟩ ⟨[115], [], [], [], []⟩ [97] [97, 1] [] [] none none _ _
    rfl rfl (by decide)) (by decide)

end Kythe.KeyValue
