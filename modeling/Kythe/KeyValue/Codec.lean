import Kythe.Proto

/-!
# The key codec of the keyvalue GraphStore

An entry is stored under the key

  `entry:` · source · `\n` · edgeKind · `\n` · factName · `\n` · target

where a VName is encoded as its five fields joined by `\000` (`encodeVName`) and a `nil`
target as nothing.  `encodeKey` builds the key, `entry` parses it back, `keyPrefix` is the
prefix `Read` scans for, and `sourceKindPrefix` the prefix the shard planner groups keys by.

`Error` has one constructor for each error the package makes, named after its message.

The main result is `entry_encodeKey_inverse`: `encodeKey` accepts exactly the tuples whose
fields are free of the separators, with an edge kind exactly when there is a target, and on
those `entry` and `encodeKey` are inverse to each other.

`sourceKindPrefix` slices within bounds on every byte string, and on the keys `encodeKey`
makes it is `KeyPrefix` of the source and the edge kind (`sourceKindPrefix_groups`); so the
planner's test that a key stays in the group of an earlier one holds exactly between keys of
the same source and edge kind (`sourceKindPrefix_prefix_iff`).
-/

namespace Kythe.KeyValue

/-- The errors of the package, each with the message it is made with; `external` stands for
an error a `DB`, an iterator, a writer or an `EntryFunc` returns, passed on unchanged. -/
inductive Error where
  /-- `io.EOF`, with which an `EntryFunc` stops a stream. -/
  | eof
  /-- An error from outside the package. -/
  | external (msg : String)
  /-- "VName contains invalid rune: %q" -/
  | invalidRune
  /-- "invalid VName encoding: %q" -/
  | invalidVNameEncoding (data : Bytes)
  /-- "invalid Entry: missing source VName for key encoding" -/
  | missingSource
  /-- "invalid Entry: edgeKind and target Ticket must be both non-empty or empty" -/
  | kindTargetMismatch
  /-- "invalid Entry: edgeKind contains key separator" -/
  | edgeKindSep
  /-- "invalid Entry: factName contains key separator" -/
  | factNameSep
  /-- "error encoding source VName: %v" -/
  | encodingSource (e : Error)
  /-- "invalid Entry: source VName contains key separator %v" -/
  | sourceSep (source : Option VName)
  /-- "error encoding target VName: %v" -/
  | encodingTarget (e : Error)
  /-- "invalid Entry: target VName contains key separator" -/
  | targetSep
  /-- "missing source VName" -/
  | missingSourceVName
  /-- "key is not prefixed with entry prefix %q" -/
  | notEntryPrefix
  /-- "invalid key[%d]: %q" -/
  | invalidKey (parts : Nat) (key : Bytes)
  /-- "error decoding source VName: %v" -/
  | decodingSource (e : Error)
  /-- "error decoding target VName: %v" -/
  | decodingTarget (e : Error)
  /-- "invalid ReadRequest: %v" -/
  | invalidReadRequest (e : Error)
  /-- "db seek error: %v" -/
  | dbSeek (e : Error)
  /-- "db iteration error: %v" -/
  | dbIteration (e : Error)
  /-- "encoding error: %v" -/
  | encoding (e : Error)
  /-- "db writer error: %v" -/
  | dbWriter (e : Error)
  /-- "db writer close error: %v" -/
  | dbWriterClose (e : Error)
  /-- "invalid WriteRequest: Update missing FactName" -/
  | missingFactName
  /-- "db write error: %v" -/
  | dbWrite (e : Error)
  /-- "invalid key/value entry: %v" -/
  | invalidEntry (e : Error)
  /-- "invalid number of shards: %d" -/
  | invalidShards (shards : Int)
  /-- "invalid index for %d shards: %d" -/
  | invalidIndex (shards index : Int)
  /-- "error creating iterator: %v" -/
  | creatingIterator (e : Error)
  deriving DecidableEq, Repr

/-! ### The key alphabet -/

/-- `entryKeyPrefix` (and `entryKeyPrefixBytes`): the bytes of `entry:`. -/
def entryKeyPrefix : Bytes := [101, 110, 116, 114, 121, 58]

/-- `entryKeySep`: the byte `'\n'`. -/
def entryKeySep : Byte := 10

/-- `vNameFieldSep`: the byte `'\000'`. -/
def vNameFieldSep : Byte := 0

/-- `entryKeyPrefixEndRange`: `entryKeyPrefix` with its last byte incremented. -/
def entryKeyPrefixEndRange : Bytes :=
  entryKeyPrefix.take (entryKeyPrefix.length - 1) ++
    [entryKeyPrefix.getD (entryKeyPrefix.length - 1) 0 + 1]

/-- The end of the entry key range is `entry;`. -/
theorem entryKeyPrefixEndRange_eq :
  entryKeyPrefixEndRange = [101, 110, 116, 114, 121, 59]
  := rfl

/-- The keys from "entry:" up to "entry;" are the keys under the entry prefix. -/
theorem entryKeyPrefix_prefix_of_range {key : Bytes} (h₁ : entryKeyPrefix ≤ key)
    (h₂ : key < entryKeyPrefixEndRange) :
  entryKeyPrefix <+: key
  := @prefix_of_le_of_lt Byte _ 58 59
    (fun x hx hx' => Fin.ext (by simp only [Fin.le_def, Fin.lt_def] at hx hx'; omega))
    [101, 110, 116, 114, 121] key h₁ h₂

/-- Every key under the entry prefix sorts below `entryKeyPrefixEndRange`. -/
theorem lt_entryKeyPrefixEndRange {key : Bytes} (h : entryKeyPrefix <+: key) :
  key < entryKeyPrefixEndRange
  := by
  obtain ⟨t, rfl⟩ := h
  simp [entryKeyPrefix, entryKeyPrefixEndRange_eq, cons_lt_cons_iff]

/-! ### VNames -/

/-- The bytes `encodeVName` makes of a VName: its fields joined by `vNameFieldSep`. -/
def vNameEncoding (v : VName) : Bytes := join vNameFieldSep v.fields

/-- `encodeVName`: a VName as its encoding, `nil` as nothing; a field holding
`vNameFieldSep` is refused. -/
def encodeVName : Option VName → Except Error Bytes
  | none => .ok []
  | some v =>
    if ∃ f ∈ v.fields, vNameFieldSep ∈ f then .error .invalidRune
    else .ok (vNameEncoding v)

/-- `decodeVName`: no data is `nil`, other data must split into five fields. -/
def decodeVName (data : Bytes) : Except Error (Option VName) :=
  if data.length = 0 then .ok none
  else
    match splitN vNameFieldSep data 5 with
    | [signature, corpus, root, path, language] =>
      .ok (some ⟨signature, corpus, root, path, language⟩)
    | _ => .error (.invalidVNameEncoding data)

/-! ### Keys -/

/-- `EncodeKey`: the canonical key of an entry, its value left out. -/
def encodeKey (source : Option VName) (factName edgeKind : Bytes) (target : Option VName) :
    Except Error Bytes :=
  if source = none then .error .missingSource
  else if (edgeKind = [] ∨ target = none) ∧ (edgeKind ≠ [] ∨ target ≠ none) then
    .error .kindTargetMismatch
  else if entryKeySep ∈ edgeKind then .error .edgeKindSep
  else if entryKeySep ∈ factName then .error .factNameSep
  else
    let keySuffix := entryKeySep :: edgeKind ++ entryKeySep :: factName ++ [entryKeySep]
    match encodeVName source with
    | .error e => .error (.encodingSource e)
    | .ok srcEncoding =>
      if entryKeySep ∈ srcEncoding then .error (.sourceSep source)
      else
        match encodeVName target with
        | .error e => .error (.encodingTarget e)
        | .ok targetEncoding =>
          if entryKeySep ∈ targetEncoding then .error .targetSep
          else .ok (entryKeyPrefix ++ srcEncoding ++ keySuffix ++ targetEncoding)

/-- `KeyPrefix`: the prefix of the keys of `source`'s entries of edge kind `edgeKind`, or of
all its entries when `edgeKind` is `*`. -/
def keyPrefix (source : Option VName) (edgeKind : Bytes) : Except Error Bytes :=
  match source with
  | none => .error .missingSourceVName
  | some v =>
    match encodeVName (some v) with
    | .error e => .error (.encodingSource e)
    | .ok srcEncoding =>
      let pfx := entryKeyPrefix ++ (srcEncoding ++ [entryKeySep])
      if edgeKind = [42] then .ok pfx
      else .ok (pfx ++ (edgeKind ++ [entryKeySep]))

/-- `Entry`: the entry a key encodes, with the value `val`. -/
def entry (key val : Bytes) : Except Error Entry :=
  if ¬ entryKeyPrefix <+: key then .error .notEntryPrefix
  else
    match splitN entryKeySep (key.drop entryKeyPrefix.length) 4 with
    | [src, edgeKind, factName, tgt] =>
      match decodeVName src, decodeVName tgt with
      | .error e, _ => .error (.decodingSource e)
      | .ok _, .error e => .error (.decodingTarget e)
      | .ok srcVName, .ok targetVName => .ok ⟨srcVName, factName, edgeKind, targetVName, val⟩
    | keyParts => .error (.invalidKey keyParts.length key)

/-- `bytes.IndexRune(s, r)` for a one-byte rune: the index of the first `r` in `s`, or `-1`. -/
def indexRune (s : Bytes) (r : Byte) : Int :=
  if r ∈ s then s.indexOf r else -1

/-- The end of the slice `sourceKindPrefix` takes,
`bytes.IndexRune(key[idx+1:], entryKeySep)+idx+2` with `idx` the first `entryKeySep`. -/
def sourceKindPrefixEnd (key : Bytes) : Int :=
  let idx := indexRune key entryKeySep
  indexRune (key.drop (idx + 1).toNat) entryKeySep + idx + 2

/-- `sourceKindPrefix`: the key up to and including its second `entryKeySep`. -/
def sourceKindPrefix (key : Bytes) : Bytes :=
  key.take (sourceKindPrefixEnd key).toNat

/-! ### The VName codec -/

/-- A VName `encodeKey` accepts: no field holds either separator. -/
def Encodable (v : VName) : Prop :=
  ∀ f ∈ v.fields, vNameFieldSep ∉ f ∧ entryKeySep ∉ f

/-- The bytes a source or target takes in a key: its encoding, or nothing for `nil`. -/
def optEncoding (v : Option VName) : Bytes :=
  (v.map vNameEncoding).getD []

@[simp]
theorem optEncoding_none :
  optEncoding none = []
  := rfl

@[simp]
theorem optEncoding_some (v : VName) :
  optEncoding (some v) = vNameEncoding v
  := rfl

theorem vNameEncoding_ne_nil (v : VName) :
  vNameEncoding v ≠ []
  := by
  simp [vNameEncoding, VName.fields]

theorem entryKeySep_mem_vNameEncoding_iff (v : VName) :
  entryKeySep ∈ vNameEncoding v ↔ ∃ f ∈ v.fields, entryKeySep ∈ f
  := mem_join_of_ne (by decide)

theorem encodeVName_eq_ok_iff {v : Option VName} {b : Bytes} :
  encodeVName v = .ok b ↔ (∀ w ∈ v, ∀ f ∈ w.fields, vNameFieldSep ∉ f) ∧ b = optEncoding v
  := by
  cases v with
  | none => simp [encodeVName, eq_comm]
  | some w =>
    by_cases h : ∃ f ∈ w.fields, vNameFieldSep ∈ f
    · simp only [encodeVName, if_pos h]
      obtain ⟨f, hf, hm⟩ := h
      exact ⟨nofun, fun h' => absurd hm (h'.1 w rfl f hf)⟩
    · simp only [encodeVName, if_neg h, Except.ok.injEq]
      simp only [not_exists, not_and] at h
      exact ⟨fun hb => ⟨fun _ hw => Option.some_inj.mp hw ▸ h, hb.symm⟩, fun hb => hb.2.symm⟩

/-- A VName free of `vNameFieldSep` decodes from its encoding. -/
theorem decodeVName_vNameEncoding {v : VName} (h : ∀ f ∈ v.fields, vNameFieldSep ∉ f) :
  decodeVName (vNameEncoding v) = .ok (some v)
  := by
  have hsplit : splitN vNameFieldSep (vNameEncoding v) 5 = v.fields :=
    @splitN_join vNameFieldSep v.fields (by simp [VName.fields]) fun f hf => h f (List.dropLast_subset _ hf)
  simp [decodeVName, vNameEncoding_ne_nil, hsplit, VName.fields]

/-- The encoding of VNames free of `vNameFieldSep` is injective. -/
theorem vNameEncoding_inj {v w : VName} (hv : ∀ f ∈ v.fields, vNameFieldSep ∉ f)
    (hw : ∀ f ∈ w.fields, vNameFieldSep ∉ f) :
  vNameEncoding v = vNameEncoding w ↔ v = w
  := by
  refine ⟨fun he => ?_, fun he => he ▸ rfl⟩
  have hdec := decodeVName_vNameEncoding hv
  rw [he, decodeVName_vNameEncoding hw] at hdec
  exact (Option.some_inj.mp (Except.ok.inj hdec)).symm

theorem decodeVName_optEncoding {v : Option VName}
    (h : ∀ w ∈ v, ∀ f ∈ w.fields, vNameFieldSep ∉ f) :
  decodeVName (optEncoding v) = .ok v
  := by
  cases v with
  | none => rfl
  | some w => exact decodeVName_vNameEncoding (h w rfl)

/-- What decodes is the encoding of what it decodes to. -/
theorem eq_optEncoding_of_decodeVName {data : Bytes} {v : Option VName}
    (h : decodeVName data = .ok v) :
  data = optEncoding v
  := by
  unfold decodeVName at h
  split_ifs at h with hlen
  · cases h
    exact List.length_eq_zero.mp hlen
  · split at h
    · next signature corpus root path language hsplit =>
      cases h
      rw [← @join_splitN vNameFieldSep data 4, hsplit]
      rfl
    · cases h

/-! ### Keys and entries -/

private theorem mismatch_iff {k : Bytes} {t : Option VName} :
  ((k = [] ∨ t = none) ∧ (k ≠ [] ∨ t ≠ none)) ↔ ¬ (k = [] ↔ t = none)
  := by tauto

theorem encodable_iff (v : VName) :
  Encodable v ↔ (∀ f ∈ v.fields, vNameFieldSep ∉ f) ∧ entryKeySep ∉ vNameEncoding v
  := by
  rw [entryKeySep_mem_vNameEncoding_iff]
  simp only [Encodable, not_exists, not_and]
  exact ⟨fun h => ⟨fun f hf => (h f hf).1, fun f hf => (h f hf).2⟩,
    fun h f hf => ⟨h.1 f hf, h.2 f hf⟩⟩

@[simp]
theorem encodeVName_none :
  encodeVName none = .ok []
  := rfl

theorem encodeVName_some_of_not {v : VName} (h : ¬ ∀ f ∈ v.fields, vNameFieldSep ∉ f) :
  encodeVName (some v) = .error .invalidRune
  := by
  simp only [encodeVName, not_forall, not_not] at h ⊢
  obtain ⟨f, hf, hm⟩ := h
  rw [if_pos ⟨f, hf, hm⟩]

theorem encodeVName_some_of {v : VName} (h : ∀ f ∈ v.fields, vNameFieldSep ∉ f) :
  encodeVName (some v) = .ok (vNameEncoding v)
  := encodeVName_eq_ok_iff.mpr ⟨fun _ hw => Option.some_inj.mp hw ▸ h, rfl⟩

theorem encodeKey_eq_ok_iff {source target : Option VName} {factName edgeKind key : Bytes} :
  encodeKey source factName edgeKind target = .ok key ↔
    ∃ s, source = some s ∧ (edgeKind = [] ↔ target = none) ∧ entryKeySep ∉ edgeKind ∧
      entryKeySep ∉ factName ∧ Encodable s ∧ (∀ t ∈ target, Encodable t) ∧
      key = entryKeyPrefix ++
        join entryKeySep [vNameEncoding s, edgeKind, factName, optEncoding target]
  := by
  cases source with
  | none => simp [encodeKey]
  | some s =>
    simp only [encodeKey, mismatch_iff, reduceCtorEq, if_false, join_cons_cons, join_singleton]
    by_cases hkt : edgeKind = [] ↔ target = none
    swap; · simp [hkt]
    by_cases hk : entryKeySep ∈ edgeKind
    · simp [hkt, hk]
    by_cases hf : entryKeySep ∈ factName
    · simp [hkt, hk, hf]
    simp only [hkt, hk, hf, not_true_eq_false, not_false_eq_true, if_false, true_and,
      Option.some.injEq, exists_eq_left', encodable_iff]
    by_cases hs0 : ∀ f ∈ s.fields, vNameFieldSep ∉ f
    swap; · simp [encodeVName_some_of_not hs0, hs0]
    by_cases hs : entryKeySep ∈ vNameEncoding s
    · simp [encodeVName_some_of hs0, hs]
    cases target with
    | none =>
      simp only [encodeVName_some_of hs0, hs, if_false, encodeVName_none, List.not_mem_nil,
        optEncoding_none, Except.ok.injEq]
      simp only [encodable_iff, hs, not_false_eq_true, and_true]
      exact ⟨fun h => ⟨hs0, by simpa using h.symm⟩, fun h => by simpa [eq_comm] using h.2⟩
    | some t =>
      by_cases ht0 : ∀ f ∈ t.fields, vNameFieldSep ∉ f
      swap; · simp [encodeVName_some_of hs0, encodeVName_some_of_not ht0, hs, ht0]
      by_cases ht : entryKeySep ∈ vNameEncoding t
      · simp [encodeVName_some_of hs0, encodeVName_some_of ht0, hs, ht]
      · simp only [encodeVName_some_of hs0, encodeVName_some_of ht0, hs, ht, if_false,
          Except.ok.injEq, optEncoding_some]
        simp only [Option.mem_def, forall_eq', Option.some_inj, encodable_iff]
        simp only [hs, ht, not_false_eq_true, and_true, List.append_assoc, List.cons_append,
          List.singleton_append, List.nil_append]
        exact ⟨fun h => ⟨hs0, ht0, h.symm⟩, fun h => h.2.2.symm⟩

/-- A key `entry` accepts is the prefix followed by the encodings of the entry's source, edge
kind, fact name and target joined by `entryKeySep`, the first three free of it. -/
theorem eq_of_entry_eq_ok {key val : Bytes} {e : Entry} (h : entry key val = .ok e) :
  key = entryKeyPrefix ++
    join entryKeySep [optEncoding e.source, e.edgeKind, e.factName, optEncoding e.target]
  := by
  unfold entry at h
  split_ifs at h with hp
  obtain ⟨rest, rfl⟩ := hp
  rw [List.drop_left] at h
  split at h
  · next src edgeKind factName tgt hsplit =>
    split at h
    · cases h
    · cases h
    · next srcVName targetVName hsrc htgt =>
      cases h
      rw [← @join_splitN entryKeySep rest 3, hsplit,
        eq_optEncoding_of_decodeVName hsrc, eq_optEncoding_of_decodeVName htgt]
  · cases h

/-- `entry` parses every key `encodeKey` makes back into the entry it was made from. -/
theorem entry_eq_ok_of_encodeKey {source target : Option VName} {factName edgeKind key : Bytes}
    (h : encodeKey source factName edgeKind target = .ok key) (val : Bytes) :
  entry key val = .ok ⟨source, factName, edgeKind, target, val⟩
  := by
  obtain ⟨s, rfl, -, hk, hf, hs, ht, rfl⟩ := encodeKey_eq_ok_iff.mp h
  have hs' := (encodable_iff s).mp hs
  have hsplit : splitN entryKeySep
      (join entryKeySep [vNameEncoding s, edgeKind, factName, optEncoding target]) 4 =
      [vNameEncoding s, edgeKind, factName, optEncoding target] :=
    splitN_join (by simp) (by simpa using ⟨hs'.2, hk, hf⟩)
  have htgt : decodeVName (optEncoding target) = .ok target :=
    decodeVName_optEncoding fun w hw f hf' => ((ht w hw) f hf').1
  rw [entry, if_neg (not_not.mpr (List.prefix_append _ _)), List.drop_left, hsplit]
  simp [decodeVName_vNameEncoding hs'.1, htgt]

/-- `encodeKey` accepts a source, with an edge kind exactly when there is a target, and
fields free of the separators; `entry` inverts it on what it accepts, and `encodeKey`
inverts `entry` on every key whose entry it accepts. -/
theorem entry_encodeKey_inverse :
    (∀ (s : VName) (factName edgeKind : Bytes) (target : Option VName),
      (∃ key, encodeKey (some s) factName edgeKind target = .ok key) ↔
        ((edgeKind = [] ↔ target = none) ∧ entryKeySep ∉ factName ∧ entryKeySep ∉ edgeKind ∧
          Encodable s ∧ ∀ t ∈ target, Encodable t)) ∧
    (∀ (source target : Option VName) (factName edgeKind key val : Bytes),
      encodeKey source factName edgeKind target = .ok key →
        entry key val = .ok ⟨source, factName, edgeKind, target, val⟩) ∧
    (∀ (key val : Bytes) (e : Entry), entry key val = .ok e →
      (∃ key', encodeKey e.source e.factName e.edgeKind e.target = .ok key') →
        encodeKey e.source e.factName e.edgeKind e.target = .ok key)
  := by
  refine ⟨fun s factName edgeKind target => ?_, fun _ _ _ _ _ val h => entry_eq_ok_of_encodeKey h val,
    fun key val e h ⟨key', h'⟩ => ?_⟩
  · constructor
    · rintro ⟨key, h⟩
      obtain ⟨_, ⟨⟩, hkt, hk, hf, hs, ht, -⟩ := encodeKey_eq_ok_iff.mp h
      exact ⟨hkt, hf, hk, hs, ht⟩
    · rintro ⟨hkt, hf, hk, hs, ht⟩
      exact ⟨_, encodeKey_eq_ok_iff.mpr ⟨s, rfl, hkt, hk, hf, hs, ht, rfl⟩⟩
  · obtain ⟨s, hs, -, -, -, -, -, rfl⟩ := encodeKey_eq_ok_iff.mp h'
    rw [h', eq_of_entry_eq_ok h, hs, optEncoding_some]

/-- `KeyPrefix` accepts a source free of `vNameFieldSep`; its prefix starts with the entry key
prefix. -/
theorem keyPrefix_eq_ok {v : VName} (hv : ∀ f ∈ v.fields, vNameFieldSep ∉ f) (kind : Bytes) :
  ∃ pfx, keyPrefix (some v) kind = .ok pfx ∧ entryKeyPrefix <+: pfx
  := by
  simp only [keyPrefix, encodeVName_some_of hv]
  split_ifs
  · exact ⟨_, rfl, List.prefix_append _ _⟩
  · exact ⟨_, rfl, (List.prefix_append _ _).trans (List.prefix_append _ _)⟩

/-- The prefix `KeyPrefix` makes of a source free of both separators and an edge kind free of
`entryKeySep` starts a key `encodeKey` made exactly when the key is of that source and,
unless the kind is `*`, of that edge kind. -/
theorem keyPrefix_prefix_iff {v : VName} (hv : Encodable v) {kind pfx : Bytes}
    (hk : entryKeySep ∉ kind) (hp : keyPrefix (some v) kind = .ok pfx)
    {source target : Option VName} {factName edgeKind key : Bytes}
    (h : encodeKey source factName edgeKind target = .ok key) :
  pfx <+: key ↔ source = some v ∧ (kind = [42] ∨ edgeKind = kind)
  := by
  obtain ⟨s, rfl, -, hek, -, hs, -, rfl⟩ := encodeKey_eq_ok_iff.mp h
  have hv' := (encodable_iff v).mp hv
  have hs' := (encodable_iff s).mp hs
  simp only [keyPrefix, encodeVName_some_of hv'.1] at hp
  split_ifs at hp with hstar <;> cases hp <;>
    simp only [join_cons_cons, join_singleton, List.prefix_append_right_inj, List.append_assoc,
      List.singleton_append, List.cons_append, append_cons_prefix_append_cons_iff hv'.2 hs'.2,
      vNameEncoding_inj hv'.1 hs'.1]
  · simp [hstar, eq_comm]
  · simp [append_cons_prefix_append_cons_iff hk hek, hstar, eq_comm]

/-! ### The planner's groups -/

theorem indexRune_of_not_mem {s : Bytes} {r : Byte} (h : r ∉ s) :
  indexRune s r = -1
  := if_neg h

theorem indexRune_append_cons {a : Bytes} {r : Byte} (h : r ∉ a) (b : Bytes) :
  indexRune (a ++ r :: b) r = a.length
  := by
  rw [indexRune, if_pos (by simp), List.indexOf_append_of_not_mem h, List.indexOf_cons_self]
  rfl

theorem drop_append_cons (a : Bytes) (r : Byte) (b : Bytes) :
  (a ++ r :: b).drop ((a.length : Int) + 1).toNat = b
  := by
  rw [show ((a.length : Int) + 1).toNat = (a ++ [r]).length by simp]
  simp

/-- Where the key has no separator, one, or two or more, the slice `sourceKindPrefix` takes
ends at the key's start, at its end, or right after the second separator. -/
theorem sourceKindPrefixEnd_cases (key : Bytes) :
  (entryKeySep ∉ key ∧ sourceKindPrefixEnd key = 0) ∨
    (∃ a b, entryKeySep ∉ a ∧ entryKeySep ∉ b ∧ key = a ++ entryKeySep :: b ∧
      sourceKindPrefixEnd key = a.length + 1) ∨
    (∃ a c d, entryKeySep ∉ a ∧ entryKeySep ∉ c ∧
      key = a ++ entryKeySep :: (c ++ entryKeySep :: d) ∧
      sourceKindPrefixEnd key = a.length + c.length + 2)
  := by
  rcases @not_mem_or_eq_append_cons entryKeySep key with h | ⟨a, b, ha, rfl⟩
  · exact .inl ⟨h, by simp [sourceKindPrefixEnd, indexRune_of_not_mem h]⟩
  · rcases @not_mem_or_eq_append_cons entryKeySep b with hb | ⟨c, d, hc, rfl⟩
    · refine .inr (.inl ⟨a, b, ha, hb, rfl, ?_⟩)
      simp only [sourceKindPrefixEnd, indexRune_append_cons ha, drop_append_cons,
        indexRune_of_not_mem hb]
      omega
    · refine .inr (.inr ⟨a, c, d, ha, hc, rfl, ?_⟩)
      simp only [sourceKindPrefixEnd, indexRune_append_cons ha, drop_append_cons,
        indexRune_append_cons hc]
      omega

/-- Both slices of `sourceKindPrefix`, `key[idx+1:]` and `key[:end]`, are in bounds on every
byte string, and it takes a prefix of the key. -/
theorem sourceKindPrefix_in_bounds (key : Bytes) :
  (0 ≤ indexRune key entryKeySep + 1 ∧ indexRune key entryKeySep + 1 ≤ key.length) ∧
    (0 ≤ sourceKindPrefixEnd key ∧ sourceKindPrefixEnd key ≤ key.length) ∧
    sourceKindPrefix key <+: key
  := by
  refine ⟨?_, ?_, List.take_prefix _ _⟩
  · rcases @not_mem_or_eq_append_cons entryKeySep key with h | ⟨a, b, ha, rfl⟩
    · simp only [indexRune_of_not_mem h]
      omega
    · simp only [indexRune_append_cons ha, List.length_append, List.length_cons]
      omega
  · rcases sourceKindPrefixEnd_cases key with
      ⟨-, h⟩ | ⟨a, b, -, -, rfl, h⟩ | ⟨a, c, d, -, -, rfl, h⟩
    all_goals simp only [h, List.length_append, List.length_cons]; omega

/-- On a key with two separators, `sourceKindPrefix` takes the key up to and including the
second. -/
theorem sourceKindPrefix_append_cons {a c : Bytes} (ha : entryKeySep ∉ a) (hc : entryKeySep ∉ c)
    (d : Bytes) :
  sourceKindPrefix (a ++ entryKeySep :: (c ++ entryKeySep :: d)) =
    a ++ entryKeySep :: (c ++ [entryKeySep])
  := by
  rcases sourceKindPrefixEnd_cases (a ++ entryKeySep :: (c ++ entryKeySep :: d)) with
    ⟨h, -⟩ | ⟨a', b', ha', hb', he, -⟩ | ⟨a', c', d', ha', hc', he, hend⟩
  · simp at h
  · obtain ⟨rfl, rfl⟩ := (append_cons_inj ha ha').mp he
    simp at hb'
  · obtain ⟨rfl, he'⟩ := (append_cons_inj ha ha').mp he
    obtain ⟨rfl, rfl⟩ := (append_cons_inj hc hc').mp he'
    rw [sourceKindPrefix, hend, show a ++ entryKeySep :: (c ++ entryKeySep :: d) =
      (a ++ entryKeySep :: (c ++ [entryKeySep])) ++ d by simp]
    exact List.take_left' (by simp; omega)

/-- The group of a key `encodeKey` makes: the entry key prefix, the source and the edge
kind, each ended by the separator. -/
theorem sourceKindPrefix_encodeKey {source target : Option VName} {factName edgeKind key : Bytes}
    (h : encodeKey source factName edgeKind target = .ok key) :
  ∃ s, source = some s ∧ Encodable s ∧ entryKeySep ∉ edgeKind ∧
    sourceKindPrefix key = entryKeyPrefix ++ vNameEncoding s ++ entryKeySep :: (edgeKind ++ [entryKeySep])
  := by
  obtain ⟨s, rfl, -, hk, -, hs, -, rfl⟩ := encodeKey_eq_ok_iff.mp h
  have ha : entryKeySep ∉ entryKeyPrefix ++ vNameEncoding s := by
    simpa [entryKeyPrefix, entryKeySep] using ((encodable_iff s).mp hs).2
  refine ⟨s, rfl, hs, hk, ?_⟩
  have e := sourceKindPrefix_append_cons ha hk (factName ++ entryKeySep :: optEncoding target)
  simpa [join_cons_cons] using e

/-- On the keys `encodeKey` makes, `sourceKindPrefix` is `KeyPrefix` of the source and the
edge kind, unless the kind is `*`. -/
theorem keyPrefix_eq_sourceKindPrefix {source target : Option VName}
    {factName edgeKind key : Bytes} (h : encodeKey source factName edgeKind target = .ok key)
    (hk : edgeKind ≠ [42]) :
  keyPrefix source edgeKind = .ok (sourceKindPrefix key)
  := by
  obtain ⟨s, rfl, hs, -, he⟩ := sourceKindPrefix_encodeKey h
  simp [keyPrefix, encodeVName_some_of ((encodable_iff s).mp hs).1, hk, he]

/-- Two keys `encodeKey` makes have the same `sourceKindPrefix` exactly when they have the
same source and the same edge kind. -/
theorem sourceKindPrefix_eq_iff {source₁ source₂ target₁ target₂ : Option VName}
    {factName₁ factName₂ edgeKind₁ edgeKind₂ key₁ key₂ : Bytes}
    (h₁ : encodeKey source₁ factName₁ edgeKind₁ target₁ = .ok key₁)
    (h₂ : encodeKey source₂ factName₂ edgeKind₂ target₂ = .ok key₂) :
  sourceKindPrefix key₁ = sourceKindPrefix key₂ ↔ source₁ = source₂ ∧ edgeKind₁ = edgeKind₂
  := by
  obtain ⟨s₁, rfl, hs₁, -, he₁⟩ := sourceKindPrefix_encodeKey h₁
  obtain ⟨s₂, rfl, hs₂, -, he₂⟩ := sourceKindPrefix_encodeKey h₂
  have hs₁' := (encodable_iff s₁).mp hs₁
  have hs₂' := (encodable_iff s₂).mp hs₂
  rw [he₁, he₂, List.append_assoc, List.append_assoc, List.append_right_inj,
    append_cons_inj hs₁'.2 hs₂'.2, vNameEncoding_inj hs₁'.1 hs₂'.1, List.append_left_inj,
    Option.some_inj]

/-- `sourceKindPrefix` stays inside every byte string, and on the keys `encodeKey` makes it is
`KeyPrefix` of the source and edge kind (for a kind other than `*`), so that it tells keys of
different sources or edge kinds apart. -/
theorem sourceKindPrefix_groups :
  (∀ key : Bytes,
    (0 ≤ indexRune key entryKeySep + 1 ∧ indexRune key entryKeySep + 1 ≤ key.length) ∧
      (0 ≤ sourceKindPrefixEnd key ∧ sourceKindPrefixEnd key ≤ key.length) ∧
      sourceKindPrefix key <+: key) ∧
  (∀ (source target : Option VName) (factName edgeKind key : Bytes),
    encodeKey source factName edgeKind target = .ok key → edgeKind ≠ [42] →
      keyPrefix source edgeKind = .ok (sourceKindPrefix key)) ∧
  (∀ (source₁ source₂ target₁ target₂ : Option VName)
      (factName₁ factName₂ edgeKind₁ edgeKind₂ key₁ key₂ : Bytes),
    encodeKey source₁ factName₁ edgeKind₁ target₁ = .ok key₁ →
    encodeKey source₂ factName₂ edgeKind₂ target₂ = .ok key₂ →
      (sourceKindPrefix key₁ = sourceKindPrefix key₂ ↔
        source₁ = source₂ ∧ edgeKind₁ = edgeKind₂))
  := ⟨sourceKindPrefix_in_bounds, fun _ _ _ _ _ h hk => keyPrefix_eq_sourceKindPrefix h hk,
    fun _ _ _ _ _ _ _ _ _ _ h₁ h₂ => sourceKindPrefix_eq_iff h₁ h₂⟩

/-- The planner's test that a key stays in the group of an earlier one: between keys
`encodeKey` makes, the group of the first starts the second exactly when both have the same
source and the same edge kind. -/
theorem sourceKindPrefix_prefix_iff {source₁ source₂ target₁ target₂ : Option VName}
    {factName₁ factName₂ edgeKind₁ edgeKind₂ key₁ key₂ : Bytes}
    (h₁ : encodeKey source₁ factName₁ edgeKind₁ target₁ = .ok key₁)
    (h₂ : encodeKey source₂ factName₂ edgeKind₂ target₂ = .ok key₂) :
  sourceKindPrefix key₁ <+: key₂ ↔ source₁ = source₂ ∧ edgeKind₁ = edgeKind₂
  := by
  obtain ⟨s₁, rfl, hs₁, hk₁, he₁⟩ := sourceKindPrefix_encodeKey h₁
  obtain ⟨s₂, rfl, -, hk₂, -, hs₂, -, rfl⟩ := encodeKey_eq_ok_iff.mp h₂
  have hs₁' := (encodable_iff s₁).mp hs₁
  have hs₂' := (encodable_iff s₂).mp hs₂
  rw [he₁]
  simp only [join_cons_cons, join_singleton, List.append_assoc, List.prefix_append_right_inj,
    append_cons_prefix_append_cons_iff hs₁'.2 hs₂'.2, vNameEncoding_inj hs₁'.1 hs₂'.1,
    append_cons_prefix_append_cons_iff hk₁ hk₂, List.nil_prefix, and_true, Option.some_inj]

/-- A node fact and an edge of one source: the edge is not in the fact's group. -/
theorem sourceKindPrefix_prefix_iff_fact_edge :
    ∃ key₁ key₂, encodeKey (some ⟨[115], [], [], [], []⟩) [97] [] none = .ok key₁ ∧
      encodeKey (some ⟨[115], [], [], [], []⟩) [] [107] (some ⟨[116], [], [], [], []⟩) = .ok key₂ ∧
      (sourceKindPrefix key₁ <+: key₂ ↔
        (some ⟨[115], [], [], [], []⟩ : Option VName) = some ⟨[115], [], [], [], []⟩ ∧
          ([] : Bytes) = [107])
  := by
  have h₁ : encodeKey (some ⟨[115], [], [], [], []⟩) [97] [] none = .ok _ := rfl
  have h₂ : encodeKey (some ⟨[115], [], [], [], []⟩) [] [107] (some ⟨[116], [], [], [], []⟩) =
    .ok _ := rfl
  exact ⟨_, _, h₁, h₂, sourceKindPrefix_prefix_iff h₁ h₂⟩

end Kythe.KeyValue
