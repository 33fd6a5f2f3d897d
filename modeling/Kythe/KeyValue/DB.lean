import Kythe.KeyValue.Codec

/-!
# The ordered key-value backend

A `DB` is a sorted key-value store: its contents are its pairs in strictly ascending key
order, which `put` keeps (`insertPair_sorted`).  A snapshot is the contents at the time it
is taken, so an iterator under a snapshot reads those.  An iterator is the list of results
its successive `Next` calls give before `io.EOF`; the backend's own iterators never fail,
but `Iterator` can say that one does.

A `Writer` is given by its answers to `Write` and `Close`; `DB.writer` batches the pairs it
is given and `DB.commit` is the effect of closing it.  `mem_putAll_iff` says what a batch of
writes leaves: a key written holds the last value written to it, another key what it held.
-/

namespace Kythe.KeyValue

/-- `Range`: the keys from `Start`, included, to `End`, excluded. -/
structure Range where
  Start : Bytes
  End : Bytes
  deriving DecidableEq, Repr

/-- Insert a pair into a key-sorted list, replacing the pair with the same key. -/
def insertPair (key val : Bytes) : List (Bytes × Bytes) → List (Bytes × Bytes)
  | [] => [(key, val)]
  | (k, v) :: rest =>
    if key < k then (key, val) :: (k, v) :: rest
    else if key = k then (key, val) :: rest
    else (k, v) :: insertPair key val rest

theorem mem_insertPair_imp {key val : Bytes} {p : Bytes × Bytes} :
    ∀ {l : List (Bytes × Bytes)}, p ∈ insertPair key val l → p = (key, val) ∨ p ∈ l
  | [], h => by simpa [insertPair] using h
  | (k, v) :: rest, h => by
    unfold insertPair at h
    split_ifs at h
    · simpa using h
    · simp only [List.mem_cons] at h
      exact h.imp_right (List.mem_cons_of_mem _)
    · simp only [List.mem_cons] at h
      rcases h with rfl | h
      · exact .inr (.head _)
      · exact (mem_insertPair_imp h).imp_right (List.mem_cons_of_mem _)

theorem insertPair_sorted (key val : Bytes) :
    ∀ {l : List (Bytes × Bytes)}, l.Pairwise (·.1 < ·.1) →
      (insertPair key val l).Pairwise (·.1 < ·.1)
  | [], _ => by simp [insertPair]
  | (k, v) :: rest, h => by
    unfold insertPair
    split_ifs with hlt heq
    · exact h.cons fun q hq => (List.mem_cons.mp hq).elim (fun e => e ▸ hlt)
        (fun m => hlt.trans (List.rel_of_pairwise_cons h m))
    · subst heq
      exact h.of_cons.cons fun q hq => List.rel_of_pairwise_cons h hq
    · exact (insertPair_sorted key val h.of_cons).cons fun q hq =>
        (mem_insertPair_imp hq).elim (fun e => e ▸ lt_of_le_of_ne (not_lt.mp hlt) (Ne.symm heq))
          (fun m => List.rel_of_pairwise_cons h m)

/-- In a key-sorted list, the pairs after inserting are the new one and the others of a
different key. -/
theorem mem_insertPair_iff {key val : Bytes} {p : Bytes × Bytes} :
    ∀ {l : List (Bytes × Bytes)}, l.Pairwise (·.1 < ·.1) →
      (p ∈ insertPair key val l ↔ p = (key, val) ∨ p ∈ l ∧ p.1 ≠ key)
  | [], _ => by simp [insertPair]
  | (k, v) :: rest, h => by
    have hrest : ∀ q ∈ rest, k < q.1 := fun q hq => List.rel_of_pairwise_cons h hq
    unfold insertPair
    split_ifs with hlt heq
    · have hne : ∀ q ∈ (k, v) :: rest, q.1 ≠ key := fun q hq => ne_of_gt <| by
        rcases List.mem_cons.mp hq with rfl | hq
        exacts [hlt, hlt.trans (hrest _ hq)]
      rw [List.mem_cons, and_iff_left_of_imp (hne p)]
    · subst heq
      have hold : p ∈ (key, v) :: rest ∧ p.1 ≠ key ↔ p ∈ rest :=
        ⟨fun ⟨hp, hne⟩ => (List.mem_cons.mp hp).resolve_left fun e => hne (e ▸ rfl),
          fun hp => ⟨.tail _ hp, ne_of_gt (hrest _ hp)⟩⟩
      rw [List.mem_cons, hold]
    · have hne : p = (k, v) → p.1 ≠ key := fun e => e ▸ Ne.symm heq
      rw [List.mem_cons, List.mem_cons, mem_insertPair_iff h.of_cons, or_and_right,
        and_iff_left_of_imp hne, or_left_comm]

/-- The contents of a `DB`: its pairs, in strictly ascending key order. -/
structure DB where
  pairs : List (Bytes × Bytes)
  sorted : pairs.Pairwise (·.1 < ·.1)

/-- The empty store. -/
def DB.empty : DB := ⟨[], List.Pairwise.nil⟩

/-- Store `val` under `key`, replacing what was there. -/
def DB.put (db : DB) (key val : Bytes) : DB :=
  ⟨insertPair key val db.pairs, insertPair_sorted key val db.sorted⟩

/-- Store the pairs of a batch, in order. -/
def DB.putAll (db : DB) (batch : List (Bytes × Bytes)) : DB :=
  batch.foldl (fun db p => db.put p.1 p.2) db

theorem DB.putAll_append (db : DB) (b₁ b₂ : List (Bytes × Bytes)) :
  db.putAll (b₁ ++ b₂) = (db.putAll b₁).putAll b₂
  := List.foldl_append _ _ _ _

/-- `Snapshot`: the contents of the store when it was taken. -/
abbrev Snapshot := DB

/-- `Options`. -/
structure Options where
  largeRead : Bool := false
  snapshot : Option Snapshot := none

/-- `Iterator`: the results of its successive `Next` calls before `io.EOF`. -/
abbrev Iterator := List (Except Error (Bytes × Bytes))

/-- `NewSnapshot`. -/
def DB.newSnapshot (db : DB) : Snapshot := db

/-- The pairs an iterator with these options reads: the snapshot's, or the live ones. -/
def DB.view (db : DB) (opts : Options) : List (Bytes × Bytes) :=
  (opts.snapshot.getD db).pairs

/-- `ScanPrefix`: the pairs whose key starts with `pfx`, in key order. -/
def DB.scanPrefix (db : DB) (pfx : Bytes) (opts : Options) : Except Error Iterator :=
  .ok ((db.view opts).filter (fun p => pfx.isPrefixOf p.1) |>.map .ok)

/-- `ScanRange`: the pairs whose key is in the range, in key order. -/
def DB.scanRange (db : DB) (r : Range) (opts : Options) : Except Error Iterator :=
  .ok ((db.view opts).filter (fun p => decide (r.Start ≤ p.1 ∧ p.1 < r.End)) |>.map .ok)

/-! ### Writers -/

/-- A `Writer`, given by its answers: to `Write(key, val)` its new state and error, to
`Close` its error. -/
structure Writer (ω : Type) where
  write : ω → Bytes → Bytes → ω × Option Error
  close : ω → Option Error

/-- A call made on a `Writer`, with the writer's answer. -/
inductive WriterCall where
  | write (key val : Bytes) (answer : Option Error)
  | close (answer : Option Error)
  deriving DecidableEq, Repr

/-- The pairs a sequence of calls wrote: those of the `Write` calls that succeeded. -/
def written : List WriterCall → List (Bytes × Bytes)
  | [] => []
  | .write key val none :: calls => (key, val) :: written calls
  | _ :: calls => written calls

/-- The writer of the store: it batches the pairs and never fails. -/
def DB.writer : Writer (List (Bytes × Bytes)) where
  write batch key val := (batch ++ [(key, val)], none)
  close _ := none

/-- Closing the store's writer after these calls commits the pairs they wrote. -/
def DB.commit (db : DB) (calls : List WriterCall) : DB :=
  db.putAll (written calls)

/-! ### What writes leave -/

/-- The last value of `key` in a batch. -/
def lastValue (batch : List (Bytes × Bytes)) (key : Bytes) : Option Bytes :=
  batch.reverse.lookup key

theorem mem_put_iff (db : DB) {key val : Bytes} {p : Bytes × Bytes} :
  p ∈ (db.put key val).pairs ↔ p = (key, val) ∨ p ∈ db.pairs ∧ p.1 ≠ key
  := mem_insertPair_iff db.sorted

theorem lastValue_append_singleton (batch : List (Bytes × Bytes)) (key k v : Bytes) :
  lastValue (batch ++ [(k, v)]) key = if key = k then some v else lastValue batch key
  := by
  simp only [lastValue, List.reverse_append, List.reverse_singleton, List.singleton_append,
    List.lookup_cons]
  by_cases h : key = k
  · simp [h]
  · have : (key == k) = false := by simpa using h
    simp [h, this]

/-- After a batch, a key holds its last value in the batch, or what it held if the batch does
not write it. -/
theorem mem_putAll_iff (db : DB) (batch : List (Bytes × Bytes)) {p : Bytes × Bytes} :
  p ∈ (db.putAll batch).pairs ↔
    lastValue batch p.1 = some p.2 ∨ lastValue batch p.1 = none ∧ p ∈ db.pairs
  := by
  induction batch using List.reverseRecOn generalizing p with
  | nil => simp [DB.putAll, lastValue]
  | append_singleton batch q ih =>
    obtain ⟨k, v⟩ := q
    rw [DB.putAll, List.foldl_append, List.foldl_cons, List.foldl_nil, ← DB.putAll,
      mem_put_iff, ih, lastValue_append_singleton]
    obtain ⟨key, val⟩ := p
    by_cases h : key = k
    · subst h
      simp [eq_comm]
    · simp [h]

/-! ### Stores with the same pairs -/

/-- Two lists of pairs in strictly ascending key order with the same members are equal. -/
theorem eq_of_mem_iff_of_sorted :
    ∀ {l l' : List (Bytes × Bytes)}, l.Pairwise (·.1 < ·.1) → l'.Pairwise (·.1 < ·.1) →
      (∀ p, p ∈ l ↔ p ∈ l') → l = l'
  | [], [], _, _, _ => rfl
  | [], p :: _, _, _, h => absurd ((h p).mpr (.head _)) (List.not_mem_nil _)
  | p :: _, [], _, _, h => absurd ((h p).mp (.head _)) (List.not_mem_nil _)
  | p :: l, q :: l', hl, hl', h => by
    -- each head is the other's smallest key
    have hpq : p = q := by
      rcases List.mem_cons.mp ((h p).mp (.head _)) with hp | hp
      · exact hp
      rcases List.mem_cons.mp ((h q).mpr (.head _)) with hq | hq
      · exact hq.symm
      exact absurd ((List.rel_of_pairwise_cons hl hq).trans (List.rel_of_pairwise_cons hl' hp))
        (lt_irrefl _)
    subst hpq
    have htail : ∀ {l l' : List (Bytes × Bytes)}, (p :: l).Pairwise (·.1 < ·.1) →
        (∀ x, x ∈ p :: l ↔ x ∈ p :: l') → ∀ x ∈ l, x ∈ l' := fun hl h x hx => by
      rcases List.mem_cons.mp ((h x).mp (.tail _ hx)) with rfl | hx'
      · exact absurd (List.rel_of_pairwise_cons hl hx) (lt_irrefl _)
      · exact hx'
    rw [eq_of_mem_iff_of_sorted hl.of_cons hl'.of_cons fun x =>
      ⟨htail hl h x, htail hl' (fun y => (h y).symm) x⟩]

/-- Two stores holding the same pairs are the same store. -/
theorem DB.eq_of_mem_iff {db db' : DB} (h : ∀ p, p ∈ db.pairs ↔ p ∈ db'.pairs) :
  db = db'
  := by
  obtain ⟨l, hl⟩ := db
  obtain ⟨l', hl'⟩ := db'
  obtain rfl := eq_of_mem_iff_of_sorted hl hl' h
  rfl

/-- A batch put twice leaves the store as putting it once: each key holds its last value in
the batch either way. -/
theorem DB.putAll_putAll_self (db : DB) (batch : List (Bytes × Bytes)) :
  (db.putAll batch).putAll batch = db.putAll batch
  := DB.eq_of_mem_iff fun p => by
    rw [mem_putAll_iff, mem_putAll_iff]
    cases lastValue batch p.1 <;> simp

/-- Two batches that write no key in common can be put in either order. -/
theorem DB.putAll_comm (db : DB) {b₁ b₂ : List (Bytes × Bytes)}
    (h : ∀ key, lastValue b₁ key = none ∨ lastValue b₂ key = none) :
  (db.putAll b₁).putAll b₂ = (db.putAll b₂).putAll b₁
  := DB.eq_of_mem_iff fun p => by
    simp only [mem_putAll_iff]
    rcases h p.1 with h | h <;> simp [h]

end Kythe.KeyValue
