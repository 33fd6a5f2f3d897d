import Kythe.KeyValue.DB

/-!
# Reading, writing and scanning the store

`read`, `write` and `scan` are `Store.Read`, `Store.Write` and `Store.Scan`.  An
`EntryFunc` is a function from entries to `Option Error`: `none` to go on, `some .eof` to
stop cleanly, another error to stop with it.  A streaming operation returns the entries it
handed to the function and its result.  `write` is stated for any writer, and returns the
calls it made on it; `DB.write` is `Store.Write` on the store's own backend.

The main results:
* `write_calls`: for every writer, `write` hands it the pairs of the updates before the
  first one with an empty fact name, rejected by `encodeKey`, or refused by the writer,
  closes it exactly once, and reports the first error.
* `scan_after_writes`: after any run of writes on a store with no entry keys, a scan
  delivers, in key order, one entry for each written tuple the filter accepts, with the last
  value written to it.
* `read_after_writes`: after such a run, `Read` of a source and an edge kind free of the key
  separators delivers in key order exactly the entries of that source and kind; an edge kind
  holding `entryKeySep` breaks it (`read_delivers_other_edge_kind`).
-/

namespace Kythe.KeyValue

/-- The loop of `streamEntries` and of `Store.Scan`: decode each pair, hand the entries `keep`
accepts to `f`, and stop at the end, at an iterator error, at a key that does not decode
(with the error `wrap` makes of the decoding error), or when `f` returns an error, `io.EOF`
being a clean stop. -/
def streamMatching (wrap : Error → Error) (keep : Entry → Bool) (f : Entry → Option Error) :
    Iterator → List Entry × Option Error
  | [] => ([], none)
  | .error e :: _ => ([], some (.dbIteration e))
  | .ok (key, val) :: rest =>
    match entry key val with
    | .error e => ([], some (wrap e))
    | .ok e =>
      if keep e then
        match f e with
        | none => let r := streamMatching wrap keep f rest; (e :: r.1, r.2)
        | some .eof => ([e], none)
        | some err => ([e], some err)
      else streamMatching wrap keep f rest

/-- `streamEntries`. -/
def streamEntries (iter : Iterator) (f : Entry → Option Error) : List Entry × Option Error :=
  streamMatching .encoding (fun _ => true) f iter

/-- `Store.Read`. -/
def read (db : DB) (req : ReadRequest) (f : Entry → Option Error) : List Entry × Option Error :=
  match keyPrefix req.source req.edgeKind with
  | .error e => ([], some (.invalidReadRequest e))
  | .ok pfx =>
    match db.scanPrefix pfx {} with
    | .error e => ([], some (.dbSeek e))
    | .ok iter => streamEntries iter f

/-- `Store.Scan`, for scan requests of type `ρ` filtered by `entryMatchesScan`
(`graphstore.EntryMatchesScan`). -/
def scan {ρ : Type} (entryMatchesScan : ρ → Entry → Bool) (db : DB) (req : ρ)
    (f : Entry → Option Error) : List Entry × Option Error :=
  match db.scanPrefix entryKeyPrefix { largeRead := true } with
  | .error e => ([], some (.dbSeek e))
  | .ok iter => streamMatching .invalidEntry (entryMatchesScan req) f iter

/-- The loop of `Store.Write` from writer state `st`: the calls made, the writer's state, and
the error that ended the loop. -/
def writeUpdates {ω : Type} (w : Writer ω) (source : Option VName) :
    ω → List Update → List WriterCall × ω × Option Error
  | st, [] => ([], st, none)
  | st, u :: us =>
    if u.factName = [] then ([], st, some .missingFactName)
    else
      match encodeKey source u.factName u.edgeKind u.target with
      | .error e => ([], st, some (.encoding e))
      | .ok key =>
        match w.write st key u.factValue with
        | (st', some e) => ([.write key u.factValue (some e)], st', some (.dbWrite e))
        | (st', none) =>
          let r := writeUpdates w source st' us
          (.write key u.factValue none :: r.1, r.2)

/-- `Store.Write`, where `opened` is what `db.Writer()` returned: the calls made on the writer
and the result.  The deferred `Close` reports its error only when there is no other. -/
def write {ω : Type} (w : Writer ω) (opened : Except Error ω) (req : WriteRequest) :
    List WriterCall × Option Error :=
  match opened with
  | .error e => ([], some (.dbWriter e))
  | .ok st =>
    let r := writeUpdates w req.source st req.update
    let cErr := w.close r.2.1
    (r.1 ++ [.close cErr],
      match r.2.2, cErr with
      | none, some c => some (.dbWriterClose c)
      | err, _ => err)

/-- `Store.Write` on the store's own backend: closing its writer commits what was written. -/
def DB.write (db : DB) (req : WriteRequest) : DB × Option Error :=
  let r := KeyValue.write DB.writer (.ok []) req
  (db.commit r.1, r.2)

/-- `KeyPrefix` does not refuse an edge kind holding `entryKeySep`, so the prefix of the kind
`a\nx` of a source is also the prefix of the keys of its fact `x` of kind `a`: `Read` of
that kind delivers an entry of another kind. -/
theorem read_delivers_other_edge_kind :
    read (DB.write DB.empty ⟨some ⟨[115], [], [], [], []⟩, [⟨[97], some ⟨[116], [], [], [], []⟩,
        [120], [118]⟩]⟩).1 ⟨some ⟨[115], [], [], [], []⟩, [97, 10, 120]⟩ (fun _ => none) =
      ([⟨some ⟨[115], [], [], [], []⟩, [120], [97], some ⟨[116], [], [], [], []⟩, [118]⟩], none)
  := by decide

/-! ### Functions that stop the stream -/

/-- Whatever the function does, the loop of `Read`, `Scan` and `Shard` hands it a prefix of
what it hands a function that never stops it: either the function takes every entry handed
to it, and the stream ends as it does for a function that never stops it, or it stops at an
entry `e` after taking every entry before it; nothing after `e` is handed to it, and the
stream returns nil if the function returned `io.EOF`, the function's error otherwise. -/
theorem streamMatching_stops (wrap : Error → Error) (keep : Entry → Bool)
    (f : Entry → Option Error) :
    ∀ iter : Iterator,
      (streamMatching wrap keep f iter = streamMatching wrap keep (fun _ => none) iter ∧
        ∀ e ∈ (streamMatching wrap keep f iter).1, f e = none) ∨
      ∃ es e rest err, (streamMatching wrap keep (fun _ => none) iter).1 = es ++ e :: rest ∧
        (streamMatching wrap keep f iter).1 = es ++ [e] ∧ (∀ x ∈ es, f x = none) ∧
        f e = some err ∧ (streamMatching wrap keep f iter).2 = if err = .eof then none else some err
  | [] => .inl ⟨rfl, nofun⟩
  | .error _ :: _ => .inl ⟨rfl, nofun⟩
  | .ok (key, val) :: rest => by
    simp only [streamMatching]
    cases entry key val with
    | error _ => exact .inl ⟨rfl, nofun⟩
    | ok e =>
      dsimp only
      by_cases hk : keep e = true
      swap
      · simpa only [hk, Bool.false_eq_true, if_false] using streamMatching_stops wrap keep f rest
      simp only [hk, if_true]
      split
      · next hf =>
        rcases streamMatching_stops wrap keep f rest with ⟨heq, hall⟩ | ⟨es, e', rest', err, hfull, hr, hes, he', hr₂⟩
        · exact .inl ⟨by rw [heq], List.forall_mem_cons.mpr ⟨hf, hall⟩⟩
        · exact .inr ⟨e :: es, e', rest', err, by rw [hfull]; rfl, by rw [hr]; rfl,
            List.forall_mem_cons.mpr ⟨hf, hes⟩, he', hr₂⟩
      · next hf => exact .inr ⟨[], e, _, .eof, rfl, rfl, nofun, hf, rfl⟩
      · next err hne hf => exact .inr ⟨[], e, _, err, rfl, rfl, nofun, hf, (if_neg hne).symm⟩

/-! ### Writes -/

/-- Whether `Store.Write` takes an update to the writer: it has a fact name and `encodeKey`
accepts it. -/
def accepts (source : Option VName) (u : Update) : Bool :=
  u.factName != [] && (encodeKey source u.factName u.edgeKind u.target).toBool

/-- The entry an update of a request with this source writes. -/
def updateEntry (source : Option VName) (u : Update) : Entry :=
  ⟨source, u.factName, u.edgeKind, u.target, u.factValue⟩

/-- The key `encodeKey` makes of an entry's source, fact name, edge kind and target, when it
accepts them. -/
def entryKey (e : Entry) : Bytes :=
  match encodeKey e.source e.factName e.edgeKind e.target with
  | .ok key => key
  | .error _ => []

theorem encodeKey_entryKey {e : Entry} {key : Bytes}
    (h : encodeKey e.source e.factName e.edgeKind e.target = .ok key) :
  entryKey e = key
  := by
  simp [entryKey, h]

theorem accepts_iff {source : Option VName} {u : Update} :
  accepts source u = true ↔
    u.factName ≠ [] ∧ encodeKey source u.factName u.edgeKind u.target =
      .ok (entryKey (updateEntry source u))
  := by
  unfold accepts entryKey updateEntry
  split <;> simp_all [Except.toBool]

/-- The source, fact name, edge kind and target of an entry. -/
def tupleOf (e : Entry) : Option VName × Bytes × Bytes × Option VName :=
  (e.source, e.factName, e.edgeKind, e.target)

/-- The value of the last entry of `es` with the tuple of `e`. -/
def lastFactValue (es : List Entry) (e : Entry) : Option Bytes :=
  (es.reverse.find? fun x => tupleOf x = tupleOf e).map (·.factValue)

/-- The entries a run of writes stores on a backend whose calls never fail: for each request,
those of its updates before the first one `Store.Write` does not take. -/
def contributed (reqs : List WriteRequest) : List Entry :=
  reqs.flatMap fun r => (r.update.takeWhile (accepts r.source)).map (updateEntry r.source)

/-- The tuple of the entry is one `encodeKey` accepts. -/
def KeyAccepted (e : Entry) : Prop :=
  ∃ key, encodeKey e.source e.factName e.edgeKind e.target = .ok key

/-- The pair an entry is stored as. -/
def entryPair (e : Entry) : Bytes × Bytes := (entryKey e, e.factValue)

theorem encodeKey_eq_ok_entryKey {e : Entry} (h : KeyAccepted e) :
  encodeKey e.source e.factName e.edgeKind e.target = .ok (entryKey e)
  := by
  obtain ⟨key, hk⟩ := h
  rw [hk, encodeKey_entryKey hk]

/-- The stored pair of an entry decodes back to it. -/
theorem entry_entryPair {e : Entry} (h : KeyAccepted e) :
  entry (entryKey e) e.factValue = .ok e
  := entry_eq_ok_of_encodeKey (encodeKey_eq_ok_entryKey h) e.factValue

theorem prefix_entryKey {e : Entry} (h : KeyAccepted e) :
  entryKeyPrefix <+: entryKey e
  := by
  obtain ⟨_, _, -, -, -, -, -, hk⟩ := encodeKey_eq_ok_iff.mp (encodeKey_eq_ok_entryKey h)
  exact ⟨_, hk.symm⟩

/-- Accepted tuples have the same key exactly when they are the same. -/
theorem entryKey_eq_iff {x e : Entry} (hx : KeyAccepted x) (he : KeyAccepted e) :
  entryKey x = entryKey e ↔ tupleOf x = tupleOf e
  := by
  constructor
  · intro h
    have hx' := entry_eq_ok_of_encodeKey (encodeKey_eq_ok_entryKey hx) []
    rw [h, entry_eq_ok_of_encodeKey (encodeKey_eq_ok_entryKey he) []] at hx'
    simp only [Except.ok.injEq, Entry.mk.injEq] at hx'
    simp only [tupleOf, hx']
  · intro h
    simp only [tupleOf, Prod.mk.injEq] at h
    obtain ⟨h₁, h₂, h₃, h₄⟩ := h
    simp only [entryKey, h₁, h₂, h₃, h₄]

theorem lastFactValue_append_singleton (es : List Entry) (x e : Entry) :
  lastFactValue (es ++ [x]) e =
    if tupleOf x = tupleOf e then some x.factValue else lastFactValue es e
  := by
  by_cases h : tupleOf x = tupleOf e <;> simp [lastFactValue, h]

/-- On accepted entries, the last value stored under an entry's key is the value of the last
entry with its tuple. -/
theorem lastValue_map_entryPair {es : List Entry} (hes : ∀ x ∈ es, KeyAccepted x) {e : Entry}
    (he : KeyAccepted e) :
  lastValue (es.map entryPair) (entryKey e) = lastFactValue es e
  := by
  induction es using List.reverseRecOn with
  | nil => rfl
  | append_singleton es x ih =>
    have hx := hes x (by simp)
    rw [List.map_append, List.map_singleton, entryPair, lastValue_append_singleton,
      lastFactValue_append_singleton, ih fun y hy => hes y (by simp [hy])]
    by_cases h : tupleOf x = tupleOf e
    · simp [h, (entryKey_eq_iff he hx).mpr h.symm]
    · have hne : entryKey e ≠ entryKey x := fun h' => h ((entryKey_eq_iff he hx).mp h').symm
      simp [h, hne]

theorem mem_of_lastValue_eq_some {batch : List (Bytes × Bytes)} {key val : Bytes}
    (h : lastValue batch key = some val) :
  (key, val) ∈ batch
  := by
  induction batch using List.reverseRecOn with
  | nil => cases h
  | append_singleton batch q ih =>
    rw [lastValue_append_singleton] at h
    split_ifs at h with hk
    · cases h
      subst hk
      simp
    · exact List.mem_append_left _ (ih h)

theorem written_append_close (calls : List WriterCall) (c : Option Error) :
  written (calls ++ [.close c]) = written calls
  := by
  induction calls with
  | nil => rfl
  | cons call calls ih =>
    cases call with
    | write key val answer => cases answer <;> simp [written, ih]
    | close answer => simp [written, ih]

/-- A writer that never refuses a pair is handed the pairs of the updates the loop takes. -/
theorem written_writeUpdates {ω : Type} {w : Writer ω} (hw : ∀ st key val, (w.write st key val).2 = none)
    (source : Option VName) :
    ∀ (st : ω) (us : List Update),
      written (writeUpdates w source st us).1 =
        (us.takeWhile (accepts source)).map (entryPair ∘ updateEntry source)
  | _, [] => rfl
  | st, u :: us => by
    by_cases ha : accepts source u = true
    · obtain ⟨hf, hk⟩ := accepts_iff.mp ha
      rcases hwr : w.write st (entryKey (updateEntry source u)) u.factValue with ⟨st', answer⟩
      have : answer = none := by simpa [hwr] using hw st (entryKey (updateEntry source u)) u.factValue
      subst this
      simp only [writeUpdates, if_neg hf, hk, hwr, written, List.takeWhile_cons, ha,
        if_true, List.map_cons, written_writeUpdates hw source st' us, Function.comp, entryPair]
      rfl
    · have hnil : written (writeUpdates w source st (u :: us)).1 = [] := by
        rw [accepts_iff, not_and_or, not_not] at ha
        rcases ha with hf | hk
        · simp [writeUpdates, hf, written]
        · unfold writeUpdates
          split_ifs
          · rfl
          · split
            · rfl
            · next key hk' => exact absurd (@encodeKey_entryKey (updateEntry source u) key hk' ▸ hk') hk
      simp [hnil, ha]

/-- A run of writes on the store stores the pairs of the contributed entries, in order. -/
theorem foldl_write_eq_putAll (reqs : List WriteRequest) (db₀ : DB) :
  reqs.foldl (fun db r => (db.write r).1) db₀ = db₀.putAll ((contributed reqs).map entryPair)
  := by
  induction reqs generalizing db₀ with
  | nil => rfl
  | cons r reqs ih =>
    have : contributed (r :: reqs) =
        (r.update.takeWhile (accepts r.source)).map (updateEntry r.source) ++ contributed reqs := by
      simp [contributed]
    rw [List.foldl_cons, ih, this, List.map_append, DB.putAll_append]
    congr 1
    simp only [DB.write, write, DB.commit, written_append_close, List.map_map,
      written_writeUpdates (w := DB.writer) (fun _ _ _ => rfl)]

theorem keyAccepted_of_mem_contributed {reqs : List WriteRequest} {e : Entry}
    (h : e ∈ contributed reqs) :
  KeyAccepted e
  := by
  simp only [contributed, List.mem_flatMap, List.mem_map] at h
  obtain ⟨r, -, u, hu, rfl⟩ := h
  exact ⟨_, (accepts_iff.mp (List.mem_takeWhile_imp hu)).2⟩

/-- A stream whose pairs all decode, handed to a function that never stops it, delivers the
decoded entries `keep` accepts and ends cleanly. -/
theorem streamMatching_of_decodes (wrap : Error → Error) (keep : Entry → Bool) :
    ∀ {ps : List (Bytes × Bytes)}, (∀ p ∈ ps, ∃ e, entry p.1 p.2 = .ok e) →
      streamMatching wrap keep (fun _ => none) (ps.map .ok) =
        ((ps.filterMap fun p => (entry p.1 p.2).toOption).filter keep, none)
  | [], _ => rfl
  | (key, val) :: ps, h => by
    obtain ⟨e, he⟩ := h (key, val) (.head _)
    have ih := streamMatching_of_decodes wrap keep fun p hp => h p (.tail _ hp)
    by_cases hk : keep e = true
    · simp [streamMatching, he, hk, ih, Except.toOption]
    · simp [streamMatching, he, hk, ih, Except.toOption]

/-- A tuple that holds the value of a contributed update is one `encodeKey` accepts. -/
theorem keyAccepted_of_lastFactValue {reqs : List WriteRequest} {e : Entry} {val : Bytes}
    (h : lastFactValue (contributed reqs) e = some val) :
  KeyAccepted e
  := by
  obtain ⟨x, hfind, -⟩ := Option.map_eq_some'.mp h
  have hxe : tupleOf x = tupleOf e := by simpa using List.find?_some hfind
  have hx := keyAccepted_of_mem_contributed (List.mem_reverse.mp (List.mem_of_find?_eq_some hfind))
  simp only [tupleOf, Prod.mk.injEq] at hxe
  obtain ⟨h₁, h₂, h₃, h₄⟩ := hxe
  simpa only [KeyAccepted, h₁, h₂, h₃, h₄] using hx

/-- After any run of writes on a store that holds no entry key, the pairs it holds under the
entry prefix are those of the entries holding the last value written to their tuple. -/
theorem mem_pairs_after_writes {db₀ : DB} (h₀ : ∀ p ∈ db₀.pairs, ¬ entryKeyPrefix <+: p.1)
    (reqs : List WriteRequest) {p : Bytes × Bytes} (hpre : entryKeyPrefix <+: p.1) :
  p ∈ (reqs.foldl (fun db w => (db.write w).1) db₀).pairs ↔
    ∃ e, entryPair e = p ∧ lastFactValue (contributed reqs) e = some e.factValue
  := by
  have hcs : ∀ x ∈ contributed reqs, KeyAccepted x := fun x hx => keyAccepted_of_mem_contributed hx
  rw [foldl_write_eq_putAll, mem_putAll_iff]
  constructor
  · rintro (hlast | ⟨-, hp₀⟩)
    · obtain ⟨x, hx, hxp⟩ := List.mem_map.mp (mem_of_lastValue_eq_some hlast)
      have he : KeyAccepted { x with factValue := p.2 } := hcs x hx
      have hxk : entryKey { x with factValue := p.2 } = p.1 := congrArg Prod.fst hxp
      refine ⟨{ x with factValue := p.2 }, by rw [entryPair, hxk], ?_⟩
      rw [← lastValue_map_entryPair hcs he, hxk, hlast]
    · exact absurd hpre (h₀ p hp₀)
  · rintro ⟨e, rfl, hlast⟩
    exact .inl (by rw [entryPair, lastValue_map_entryPair hcs (keyAccepted_of_lastFactValue hlast),
      hlast])

/-- After any run of writes, a pair of the store is the pair of a written entry, under the
entry prefix, or was there before. -/
theorem mem_pairs_after_writes_cases {db₀ : DB} (reqs : List WriteRequest) {p : Bytes × Bytes}
    (hp : p ∈ (reqs.foldl (fun db w => (db.write w).1) db₀).pairs) :
  entryKeyPrefix <+: p.1 ∨ p ∈ db₀.pairs
  := by
  rw [foldl_write_eq_putAll, mem_putAll_iff] at hp
  rcases hp with hlast | ⟨-, hp₀⟩
  · obtain ⟨x, hx, hxp⟩ := List.mem_map.mp (mem_of_lastValue_eq_some hlast)
    have hxk : entryKey x = p.1 := congrArg Prod.fst hxp
    exact .inl (hxk ▸ prefix_entryKey (keyAccepted_of_mem_contributed hx))
  · exact .inr hp₀

/-- After any run of writes on a store that holds no entry key and whose calls never fail, a
stream over the pairs `sel` selects, when it selects only entry keys of the store, handed to
a function that never stops it, ends cleanly and delivers, in ascending key order, the
entries `keep` accepts among those whose key is selected and that hold the value of the last
contributed update of their tuple. -/
theorem streamMatching_after_writes_of (wrap : Error → Error) (keep : Entry → Bool)
    (sel : Bytes → Bool) {db₀ : DB} (h₀ : ∀ p ∈ db₀.pairs, ¬ entryKeyPrefix <+: p.1)
    (reqs : List WriteRequest)
    (hsel : ∀ p ∈ (reqs.foldl (fun db w => (db.write w).1) db₀).pairs, sel p.1 = true →
      entryKeyPrefix <+: p.1) :
    let r := streamMatching wrap keep (fun _ => none)
      (((reqs.foldl (fun db w => (db.write w).1) db₀).pairs.filter fun p => sel p.1).map .ok)
    r.2 = none ∧ r.1.Pairwise (fun e₁ e₂ => entryKey e₁ < entryKey e₂) ∧
      ∀ e, e ∈ r.1 ↔ keep e = true ∧ sel (entryKey e) = true ∧
        lastFactValue (contributed reqs) e = some e.factValue
  := by
  intro r
  set db := reqs.foldl (fun db w => (db.write w).1) db₀
  set P := db.pairs.filter fun p => sel p.1
  -- each selected pair is the pair of an entry holding the last value of its tuple
  have hP : ∀ p ∈ P, ∃ e, entryPair e = p ∧ entry p.1 p.2 = .ok e ∧
      lastFactValue (contributed reqs) e = some e.factValue := by
    intro p hp
    obtain ⟨hp, hsp⟩ := List.mem_filter.mp hp
    obtain ⟨e, rfl, hlast⟩ := (mem_pairs_after_writes h₀ reqs (hsel p hp hsp)).mp hp
    exact ⟨e, rfl, entry_entryPair (keyAccepted_of_lastFactValue hlast), hlast⟩
  have hr : r = ((P.filterMap fun p => (entry p.1 p.2).toOption).filter keep, none) :=
    streamMatching_of_decodes _ _ fun p hp => by
      obtain ⟨e, -, he, -⟩ := hP p hp
      exact ⟨e, he⟩
  rw [hr]
  refine ⟨rfl, ?_, fun e => ?_⟩
  · refine List.Pairwise.filter _ (List.pairwise_filterMap.2 ?_)
    refine (db.sorted.filter _).imp_of_mem fun {p p'} hp hp' hlt e he e' he' => ?_
    obtain ⟨x, rfl, hx, -⟩ := hP p hp
    obtain ⟨x', rfl, hx', -⟩ := hP p' hp'
    simp only [hx, hx', Except.toOption, Option.mem_def, Option.some.injEq] at he he'
    rw [← he, ← he']
    exact hlt
  · simp only [List.mem_filter, List.mem_filterMap, and_comm (a := ∃ _, _)]
    constructor
    · rintro ⟨hm, p, hp, hdec⟩
      obtain ⟨x, rfl, hx, hlast⟩ := hP p hp
      simp only [hx, Except.toOption, Option.some.injEq] at hdec
      subst hdec
      exact ⟨hm, (List.mem_filter.mp hp).2, hlast⟩
    · rintro ⟨hm, hsel', hlast⟩
      refine ⟨hm, entryPair e, List.mem_filter.mpr ⟨?_, hsel'⟩, ?_⟩
      · exact (mem_pairs_after_writes h₀ reqs
          (prefix_entryKey (keyAccepted_of_lastFactValue hlast))).mpr ⟨e, rfl, hlast⟩
      · simp [entryPair, entry_entryPair (keyAccepted_of_lastFactValue hlast), Except.toOption]

/-- After any run of writes on a store that holds no entry key and whose calls never fail, a
stream over the pairs of the entry keys `sel` selects, handed to a function that never stops
it, ends cleanly and delivers, in ascending key order, the entries `keep` accepts among those
whose key is selected and that hold the value of the last contributed update of their tuple. -/
theorem streamMatching_after_writes (wrap : Error → Error) (keep : Entry → Bool)
    (sel : Bytes → Bool) (hsel : ∀ key, sel key = true → entryKeyPrefix <+: key) {db₀ : DB}
    (h₀ : ∀ p ∈ db₀.pairs, ¬ entryKeyPrefix <+: p.1) (reqs : List WriteRequest) :
    let r := streamMatching wrap keep (fun _ => none)
      (((reqs.foldl (fun db w => (db.write w).1) db₀).pairs.filter fun p => sel p.1).map .ok)
    r.2 = none ∧ r.1.Pairwise (fun e₁ e₂ => entryKey e₁ < entryKey e₂) ∧
      ∀ e, e ∈ r.1 ↔ keep e = true ∧ sel (entryKey e) = true ∧
        lastFactValue (contributed reqs) e = some e.factValue
  := streamMatching_after_writes_of wrap keep sel h₀ reqs fun p _ hp => hsel p.1 hp

/-- After any run of writes on a store that holds no entry key and whose calls never fail, a
scan by a function that never stops it ends cleanly and delivers, in ascending key order,
the entries the filter accepts among those that hold, for a tuple some contributed update
wrote, the value of the last update of that tuple. -/
theorem scan_after_writes {ρ : Type} (entryMatchesScan : ρ → Entry → Bool) (db₀ : DB)
    (h₀ : ∀ p ∈ db₀.pairs, ¬ entryKeyPrefix <+: p.1) (reqs : List WriteRequest) (req : ρ) :
    let r := scan entryMatchesScan (reqs.foldl (fun db w => (db.write w).1) db₀) req
      (fun _ => none)
    r.2 = none ∧ r.1.Pairwise (fun e₁ e₂ => entryKey e₁ < entryKey e₂) ∧
      ∀ e, e ∈ r.1 ↔
        entryMatchesScan req e = true ∧ lastFactValue (contributed reqs) e = some e.factValue
  := by
  obtain ⟨hend, hsorted, hmem⟩ := streamMatching_after_writes .invalidEntry (entryMatchesScan req)
    entryKeyPrefix.isPrefixOf (fun _ h => List.isPrefixOf_iff_prefix.mp h) h₀ reqs
  refine ⟨hend, hsorted, fun e => (hmem e).trans (and_congr_right fun _ => ⟨And.right, fun h => ?_⟩)⟩
  exact ⟨List.isPrefixOf_iff_prefix.mpr (prefix_entryKey (keyAccepted_of_lastFactValue h)), h⟩

/-- A node fact written next to a key outside the entry range, and scanned back. -/
theorem scan_after_writes_node_fact :
    let r := scan (fun (_ : Unit) _ => true)
      (([⟨some ⟨[65], [], [], [], []⟩, [⟨[], none, [107], [110]⟩]⟩] : List WriteRequest).foldl
        (fun db w => (db.write w).1) (DB.empty.put [100, 105, 114, 115, 58] [])) () (fun _ => none)
    r.2 = none ∧ r.1.Pairwise (fun e₁ e₂ => entryKey e₁ < entryKey e₂) ∧
      ∀ e, e ∈ r.1 ↔ (fun (_ : Unit) _ => true) () e = true ∧
        lastFactValue (contributed [⟨some ⟨[65], [], [], [], []⟩, [⟨[], none, [107], [110]⟩]⟩]) e =
          some e.factValue
  := scan_after_writes _ _ (by decide) _ _

/-- After any run of writes on a store that holds no entry key and whose calls never fail,
`Read` of a source free of both separators and an edge kind free of `entryKeySep`, by a
function that never stops it, ends cleanly and delivers, in ascending key order, exactly the
entries of that source and, unless the kind is `*`, of that edge kind, each holding the value
last written to its tuple. -/
theorem read_after_writes (db₀ : DB) (h₀ : ∀ p ∈ db₀.pairs, ¬ entryKeyPrefix <+: p.1)
    (reqs : List WriteRequest) {v : VName} (hv : Encodable v) {edgeKind : Bytes}
    (hk : entryKeySep ∉ edgeKind) :
    let r := read (reqs.foldl (fun db w => (db.write w).1) db₀) ⟨some v, edgeKind⟩ (fun _ => none)
    r.2 = none ∧ r.1.Pairwise (fun e₁ e₂ => entryKey e₁ < entryKey e₂) ∧
      ∀ e, e ∈ r.1 ↔ e.source = some v ∧ (edgeKind = [42] ∨ e.edgeKind = edgeKind) ∧
        lastFactValue (contributed reqs) e = some e.factValue
  := by
  obtain ⟨pfx, hp, hpfx⟩ := keyPrefix_eq_ok ((encodable_iff v).mp hv).1 edgeKind
  obtain ⟨hend, hsorted, hmem⟩ := streamMatching_after_writes .encoding (fun _ => true)
    pfx.isPrefixOf (fun _ h => hpfx.trans (List.isPrefixOf_iff_prefix.mp h)) h₀ reqs
  simp only [read, hp]
  refine ⟨hend, hsorted, fun e => (hmem e).trans ?_⟩
  simp only [eq_self_iff_true, true_and, List.isPrefixOf_iff_prefix]
  rw [← and_assoc]
  exact and_congr_left fun hlast =>
    keyPrefix_prefix_iff hv hk hp (encodeKey_eq_ok_entryKey (keyAccepted_of_lastFactValue hlast))

/-- The one edge of a source, read back by its kind. -/
theorem read_after_writes_one_edge :
    let r := read (([⟨some ⟨[115], [], [], [], []⟩, [⟨[97], some ⟨[116], [], [], [], []⟩, [120],
        [118]⟩]⟩] : List WriteRequest).foldl (fun db w => (db.write w).1) DB.empty)
      ⟨some ⟨[115], [], [], [], []⟩, [97]⟩ (fun _ => none)
    r.2 = none ∧ r.1.Pairwise (fun e₁ e₂ => entryKey e₁ < entryKey e₂) ∧
      ∀ e, e ∈ r.1 ↔ e.source = some ⟨[115], [], [], [], []⟩ ∧ (([97] : Bytes) = [42] ∨ e.edgeKind = [97]) ∧
        lastFactValue (contributed [⟨some ⟨[115], [], [], [], []⟩, [⟨[97],
          some ⟨[116], [], [], [], []⟩, [120], [118]⟩]⟩]) e = some e.factValue
  := read_after_writes _ (by simp [DB.empty]) _ (by unfold Encodable; decide) (by decide)

end Kythe.KeyValue
