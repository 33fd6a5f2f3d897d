import Kythe.FileTree.AddFile
import Kythe.KeyValue.Store

/-!
# Populating the file tree from the store

`Map.Populate` scans a GraphStore for node kind facts and hands the source of each one whose
value is the file kind to `AddFile`.  `populate` is that method over the key-value store of
`Kythe.KeyValue`: the callback never stops the scan, so the map it leaves is `AddFile`
folded over the file nodes the scan delivers, in key order.

`populate_after_writes` puts the two halves of the repository together: after any run of
writes on a store with no entry keys, `Populate` on `NewMap()` ends cleanly with the map that
adding the sources whose node kind fact was last written as the file kind gives, so that the
map holds for exactly those files (`Holds`).
-/

namespace Kythe.FileTree

open KeyValue

/-- The names of the schema that `Populate` reads: the node kind fact and the file kind. -/
structure Schema where
  nodeKindFact : Bytes
  fileKind : Bytes

/-- The errors of `Map.Populate`. -/
inductive Error where
  /-- "failed to Scan GraphStore for directory structure: %v" -/
  | populateScan (e : KeyValue.Error)
  deriving DecidableEq, Repr

/-- The file the callback of `Populate` adds for an entry: the source of a node kind fact
whose value is the file kind. -/
def fileOf (schema : Schema) (e : Entry) : Option (Option VName) :=
  if e.factName = schema.nodeKindFact ∧ e.factValue = schema.fileKind then some e.source
  else none

/-- The callback of `Populate` on one entry; `none` where it hands `AddFile` a nil source, on
which `AddFile` panics. -/
def populateStep (k : Kytheuri) (schema : Schema) (m : Map) (e : Entry) : Option Map :=
  match fileOf schema e with
  | some source => source.map (addFile k m)
  | none => some m

/-- `Map.Populate` over the store `db`, `req` being `ScanRequest{FactPrefix: NodeKindFact}` as
`entryMatchesScan` (`graphstore.EntryMatchesScan`) judges it: the map once the callback has
seen every entry the scan delivered, and the error; `none` if the callback panics. -/
def Map.populate {ρ : Type} (k : Kytheuri) (schema : Schema) (entryMatchesScan : ρ → Entry → Bool)
    (req : ρ) (m : Map) (db : DB) : Option (Map × Option Error) :=
  let r := scan entryMatchesScan db req fun _ => none
  (r.1.foldlM (populateStep k schema) m).map fun m => (m, r.2.map .populateScan)

theorem fileOf_eq_some {schema : Schema} {e : Entry} {source : Option VName} :
  fileOf schema e = some source ↔
    (e.factName = schema.nodeKindFact ∧ e.factValue = schema.fileKind) ∧ e.source = source
  := by
  unfold fileOf
  split_ifs with h <;> simp [h]

/-- Over entries that all have a source, the callback adds the files of the file nodes, in
order. -/
theorem foldlM_populateStep (k : Kytheuri) (schema : Schema) :
    ∀ (es : List Entry) (m : Map), (∀ e ∈ es, e.source ≠ none) →
      es.foldlM (populateStep k schema) m =
        some (((es.filterMap (fileOf schema)).filterMap id).foldl (addFile k) m)
  | [], _, _ => rfl
  | e :: es, m, h => by
    have ih := foldlM_populateStep k schema es
    rw [List.foldlM_cons]
    cases hf : fileOf schema e with
    | none =>
      simp only [populateStep, hf, Option.bind_eq_bind, Option.some_bind, List.filterMap_cons]
      exact ih m fun e he => h e (.tail _ he)
    | some source =>
      obtain ⟨v, hv⟩ := Option.ne_none_iff_exists'.mp (h e (.head _))
      rw [(fileOf_eq_some.mp hf).2.symm.trans hv] at hf
      simp only [populateStep, hf, Option.map_some', Option.bind_eq_bind, Option.some_bind,
        List.filterMap_cons, id, List.foldl_cons]
      exact ih _ fun e he => h e (.tail _ he)

/-- After any run of writes on a store that holds no entry key and whose calls never fail,
`Populate` on `NewMap()` with a filter that keeps every node kind fact ends cleanly, and its
map is `AddFile` folded over files that are exactly the sources of the entries that hold the
file kind as the last value written to their node kind fact; so the map holds for those
files. -/
theorem populate_after_writes {ρ : Type} (k : Kytheuri) (schema : Schema)
    (entryMatchesScan : ρ → Entry → Bool) (req : ρ)
    (hreq : ∀ e : Entry, e.factName = schema.nodeKindFact → entryMatchesScan req e = true)
    (db₀ : DB) (h₀ : ∀ p ∈ db₀.pairs, ¬ entryKeyPrefix <+: p.1) (reqs : List WriteRequest) :
  ∃ files, newMap.populate k schema entryMatchesScan req
      (reqs.foldl (fun db w => (db.write w).1) db₀) = some (addFiles k files, none) ∧
    Holds k files (addFiles k files) ∧
    ∀ v, v ∈ files ↔ ∃ e : Entry, e.source = some v ∧ e.factName = schema.nodeKindFact ∧
      e.factValue = schema.fileKind ∧ lastFactValue (contributed reqs) e = some e.factValue
  := by
  obtain ⟨hend, -, hmem⟩ := streamMatching_after_writes .invalidEntry (entryMatchesScan req)
    entryKeyPrefix.isPrefixOf (fun _ h => List.isPrefixOf_iff_prefix.mp h) h₀ reqs
  set es := (scan entryMatchesScan (reqs.foldl (fun db w => (db.write w).1) db₀) req
    fun _ => none).1
  have hsrc : ∀ e ∈ es, e.source ≠ none := fun e he => by
    obtain ⟨-, -, hlast⟩ := (hmem e).mp he
    obtain ⟨s, hs, -⟩ := encodeKey_eq_ok_iff.mp
      (encodeKey_eq_ok_entryKey (keyAccepted_of_lastFactValue hlast))
    simp [hs]
  refine ⟨(es.filterMap (fileOf schema)).filterMap id, ?_, holds_addFiles k _, fun v => ?_⟩
  · simp only [Map.populate, foldlM_populateStep k schema es newMap hsrc, Option.map_some']
    rw [show (scan entryMatchesScan (reqs.foldl (fun db w => (db.write w).1) db₀) req
      fun _ => none).2 = none from hend]
    rfl
  · simp only [List.mem_filterMap, id, fileOf_eq_some]
    constructor
    · rintro ⟨_, ⟨e, he, ⟨hname, hval⟩, rfl⟩, hsv⟩
      exact ⟨e, hsv, hname, hval, ((hmem e).mp he).2.2⟩
    · rintro ⟨e, hsv, hname, hval, hlast⟩
      refine ⟨some v, ⟨e, (hmem e).mpr ⟨hreq e hname, ?_, hlast⟩, ⟨hname, hval⟩, hsv⟩, rfl⟩
      exact List.isPrefixOf_iff_prefix.mpr (prefix_entryKey (keyAccepted_of_lastFactValue hlast))

/-- A store holding one file node, of path "a", populated with a filter that keeps everything. -/
theorem populate_after_writes_one_file :
  ∃ files, newMap.populate ⟨fun _ => [], fun _ _ _ => []⟩ ⟨[107], [102]⟩ (fun (_ : Unit) _ => true)
      () (([⟨some ⟨[], [], [], [97], []⟩, [⟨[], none, [107], [102]⟩]⟩] : List WriteRequest).foldl
        (fun db w => (db.write w).1) DB.empty) =
      some (addFiles ⟨fun _ => [], fun _ _ _ => []⟩ files, none) ∧
    Holds ⟨fun _ => [], fun _ _ _ => []⟩ files (addFiles ⟨fun _ => [], fun _ _ _ => []⟩ files) ∧
    ∀ v, v ∈ files ↔ ∃ e : Entry, e.source = some v ∧ e.factName = [107] ∧
      e.factValue = [102] ∧ lastFactValue (contributed
        [⟨some ⟨[], [], [], [97], []⟩, [⟨[], none, [107], [102]⟩]⟩]) e = some e.factValue
  := populate_after_writes _ _ _ _ (fun _ _ => rfl) _ (by simp [DB.empty]) _

end Kythe.FileTree
