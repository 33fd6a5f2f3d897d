import Mathlib.Algebra.Ring.Int.Defs
import Kythe.KeyValue.Store

/-!
# The shard planner

`constructShards num` splits the entry key range into `num` shards.  It opens `num`
iterators over the entries of a new snapshot and walks them round-robin: in each round
iterator `i` takes `i + 1` group steps, a step taking a key, its `sourceKindPrefix` as the
group's prefix, and the keys after it up to and including the first one without that
prefix.  Row `i` of the table counts the keys iterator `i` took and records the last one as
its `End`.  The walk stops at the first `io.EOF`, of whichever iterator; the rows are then
fixed up into ranges and per-shard counts, and the table is cached with its snapshot.

`Count` and `Shard` read the cached table; `Shard` scans a shard's range under the
snapshot, unless its count is zero.

What the walk keeps is said once, for any property of cursors that taking a key preserves
(`WalkInvariant`), and the walk returns one row per iterator with what that property says of
rows (`WalkInvariant.walk_ok`).  Over a backend that never fails, each row counts the keys its
iterator has passed (`Cursor.Tallied`), so it counts at most the entries of the snapshot; and
each row's end is a key its iterator held or where it started (`Cursor.Below`).  The fix-up
makes the rows contiguous ranges (`fixUp_contiguous`) and changes no end but the last
(`map_end_fixUp`), and its counts add up to the last row's count, plus one when there are two
rows or more (`sum_count_fixUp`).

The loop has no condition of its own, but each round moves the first iterator past at least
one key; so over `M` keys it meets the end of a stream within `M + 1` rounds, and the fuel
`constructShards` gives the walk is never used up (`walk_breaks_within_rounds`).
-/

namespace Kythe.KeyValue

/-- `shard`: a range of keys and the number of entries it holds. -/
structure Shard extends Range where
  count : Int
  deriving DecidableEq, Repr

instance : Inhabited Shard := ⟨⟨⟨[], []⟩, 0⟩⟩

@[simp]
theorem count_default :
  (default : Shard).count = 0
  := rfl

/-- An iterator of the walk with its row of the table. -/
structure Cursor where
  iter : Iterator
  shard : Shard

/-- The outcome of a piece of the walk: it goes on with `a`, or meets `io.EOF` and breaks the
loop, the table then being `s`, or meets an iterator error. -/
inductive Walk (σ α : Type) where
  | next (a : α)
  | eof (s : σ)
  | error (e : Error)

/-- The innermost loop of the walk: take keys, counting each and recording it as `End`,
until one without the group's prefix `pfx`. -/
def skipGroup (pfx : Bytes) : Shard → Iterator → Walk Shard Cursor
  | sh, [] => .eof sh
  | _, .error e :: _ => .error e
  | sh, .ok (k, _) :: rest =>
    if pfx.isPrefixOf k then skipGroup pfx { sh with count := sh.count + 1, End := k } rest
    else .next ⟨rest, { sh with count := sh.count + 1, End := k }⟩

/-- One group step of an iterator: take a key, count it, record it as `End`, and skip the
rest of the keys with its `sourceKindPrefix`. -/
def groupStep : Cursor → Walk Shard Cursor
  | ⟨[], sh⟩ => .eof sh
  | ⟨.error e :: _, _⟩ => .error e
  | ⟨.ok (k, _) :: rest, sh⟩ =>
    skipGroup (sourceKindPrefix k) { sh with count := sh.count + 1, End := k } rest

/-- `for j := 0; j <= i; j++`: `n` group steps of one iterator. -/
def advance : Nat → Cursor → Walk Shard Cursor
  | 0, c => .next c
  | n + 1, c =>
    match groupStep c with
    | .next c => advance n c
    | .eof sh => .eof sh
    | .error e => .error e

/-- One round of the outer loop, over the iterators from index `i` on. -/
def walkRound (i : Nat) : List Cursor → Walk (List Shard) (List Cursor)
  | [] => .next []
  | c :: cs =>
    match advance (i + 1) c with
    | .error e => .error e
    | .eof sh => .eof (sh :: cs.map (·.shard))
    | .next c =>
      match walkRound (i + 1) cs with
      | .next cs => .next (c :: cs)
      | .eof tbl => .eof (c.shard :: tbl)
      | .error e => .error e

/-- The outer loop for at most `fuel` rounds: the table when an iterator meets `io.EOF`.
`constructShards` gives it one round more than there are keys, which is never used up, so
the last case stands for a loop that does not stop. -/
def walk : Nat → List Cursor → Except Error (List Shard)
  | 0, cs => .ok (cs.map (·.shard))
  | fuel + 1, cs =>
    match walkRound 0 cs with
    | .next cs => walk fuel cs
    | .eof tbl => .ok tbl
    | .error e => .error e

/-- `for i := 1; i < num; i++ { tbl[i].Start = tbl[i-1].End }`, on the rows after one whose
`End` is `prevEnd`. -/
def setStarts (prevEnd : Bytes) : List Shard → List Shard
  | [] => []
  | s :: rest => { s with Start := prevEnd } :: setStarts s.End rest

/-- `for i := num - 1; i > 0; i-- { tbl[i].count -= tbl[i-1].count }`, on the rows after one
whose count is `prevCount`: going down, each row subtracts the count its predecessor still
holds. -/
def sizes (prevCount : Int) : List Shard → List Shard
  | [] => []
  | s :: rest => { s with count := s.count - prevCount } :: sizes s.count rest

/-- "Fix up the border shards": the first row starts at "entry:" and counts one key less,
the last ends at "entry;" and counts one key more. -/
def fixBorders (num : Nat) (tbl : List Shard) : List Shard :=
  let tbl := tbl.modifyHead fun s => { s with Start := entryKeyPrefix }
  let tbl := tbl.modify (fun s => { s with End := entryKeyPrefixEndRange }) (num - 1)
  let tbl := tbl.modifyHead fun s => { s with count := s.count - 1 }
  tbl.modify (fun s => { s with count := s.count + 1 }) (num - 1)

/-- The fix-up of the table after the walk: the borders, then the starts of the rows after
the first, then their sizes. -/
def fixUp (num : Nat) (tbl : List Shard) : List Shard :=
  match fixBorders num tbl with
  | [] => []
  | s :: rest => s :: sizes s.count (setStarts s.End rest)

/-- `Store`: the backend and the shard tables built so far, each with its snapshot. -/
structure Store where
  db : DB
  shardTables : List (Nat × List Shard × Snapshot)

/-- `constructShards`: the table for `num` shards and its snapshot, from the cache or built
by the walk over a new snapshot and then cached. -/
def constructShards (s : Store) (num : Nat) : Except Error (List Shard × Snapshot) × Store :=
  match s.shardTables.lookup num with
  | some (tbl, snapshot) => (.ok (tbl, snapshot), s)
  | none =>
    let snapshot := s.db.newSnapshot
    match s.db.scanPrefix entryKeyPrefix { largeRead := true, snapshot := some snapshot } with
    | .error e => (.error (.creatingIterator e), s)
    | .ok iter =>
      match walk (iter.length + 1) (List.replicate num ⟨iter, default⟩) with
      | .error e => (.error e, s)
      | .ok tbl =>
        let tbl := fixUp num tbl
        (.ok (tbl, snapshot), { s with shardTables := (num, tbl, snapshot) :: s.shardTables })

/-- The validation `Count` and `Shard` make of a request. -/
def checkShardRequest (req : ShardRequest) : Option Error :=
  if req.shards < 1 then some (.invalidShards req.shards)
  else if req.index < 0 ∨ req.index ≥ req.shards then some (.invalidIndex req.shards req.index)
  else none

/-- `Store.Count`. -/
def count (s : Store) (req : ShardRequest) : Except Error Int × Store :=
  match checkShardRequest req with
  | some e => (.error e, s)
  | none =>
    match constructShards s req.shards.toNat with
    | (.error e, s) => (.error e, s)
    | (.ok (tbl, _), s) => (.ok (tbl.getD req.index.toNat default).count, s)

/-- `Store.Shard`: the entries delivered, the result, and the store. -/
def shard (s : Store) (req : ShardRequest) (f : Entry → Option Error) :
    (List Entry × Option Error) × Store :=
  match checkShardRequest req with
  | some e => (([], some e), s)
  | none =>
    match constructShards s req.shards.toNat with
    | (.error e, s) => (([], some e), s)
    | (.ok (tbl, snapshot), s) =>
      let sh := tbl.getD req.index.toNat default
      if sh.count = 0 then (([], none), s)
      else
        match s.db.scanRange sh.toRange { largeRead := true, snapshot := some snapshot } with
        | .error e => (([], some e), s)
        | .ok iter => (streamEntries iter f, s)

/-! ### The walk over a backend that never fails -/

/-- Every result of the iterator is a pair: its backend never fails. -/
def AllOk (iter : Iterator) : Prop :=
  ∀ x ∈ iter, ∃ p, x = .ok p

/-- A piece of the walk met no iterator error: it goes on with `P`, or stops with `Q`. -/
def Walk.Fine {σ α : Type} (P : α → Prop) (Q : σ → Prop) : Walk σ α → Prop
  | .next a => P a
  | .eof s => Q s
  | .error _ => False

/-- The number of entries a snapshot holds: its pairs under the entry key prefix, which
each iterator of the walk reads. -/
def entryCount (snapshot : Snapshot) : Nat :=
  (snapshot.pairs.filter fun p => entryKeyPrefix.isPrefixOf p.1).length

/-- A row whose count lies between zero and the `total` number of keys. -/
def Shard.Within (total : Int) (s : Shard) : Prop :=
  0 ≤ s.count ∧ s.count ≤ total

/-! ### What the walk keeps -/

/-- A property `I` of cursors that the walk keeps, with what it says of their rows `J`: a
cursor with it has an iterator that never fails, and taking a key, counting it and recording
it as the row's end, keeps it. -/
structure WalkInvariant (I : Cursor → Prop) (J : Shard → Prop) : Prop where
  ok : ∀ {c : Cursor}, I c → AllOk c.iter
  row : ∀ {c : Cursor}, I c → J c.shard
  take : ∀ {k v : Bytes} {rest : Iterator} {sh : Shard}, I ⟨.ok (k, v) :: rest, sh⟩ →
    I ⟨rest, { sh with count := sh.count + 1, End := k }⟩

section Invariant

variable {I : Cursor → Prop} {J : Shard → Prop}

theorem AllOk.tail {x : Except Error (Bytes × Bytes)} {rest : Iterator} (h : AllOk (x :: rest)) :
  AllOk rest
  := fun y hy => h y (List.mem_cons_of_mem x hy)

theorem WalkInvariant.skipGroup_fine (hI : WalkInvariant I J) (pfx : Bytes) :
    ∀ {sh : Shard} {iter : Iterator}, I ⟨iter, sh⟩ → (skipGroup pfx sh iter).Fine I J
  | _, [], h => hI.row h
  | _, x :: rest, h => by
    obtain ⟨⟨k, v⟩, rfl⟩ := hI.ok h x (List.mem_cons_self x rest)
    rw [skipGroup]
    split
    · exact hI.skipGroup_fine pfx (hI.take h)
    · exact hI.take h

theorem WalkInvariant.groupStep_fine (hI : WalkInvariant I J) {c : Cursor} (h : I c) :
  (groupStep c).Fine I J
  := by
  obtain ⟨_ | ⟨x, rest⟩, sh⟩ := c
  · exact hI.row h
  · obtain ⟨⟨k, v⟩, rfl⟩ := hI.ok h x (List.mem_cons_self x rest)
    exact hI.skipGroup_fine _ (hI.take h)

theorem WalkInvariant.advance_fine (hI : WalkInvariant I J) :
    ∀ (n : Nat) {c : Cursor}, I c → (advance n c).Fine I J
  | 0, _, h => h
  | n + 1, c, h => by
    rw [advance]
    match groupStep c, hI.groupStep_fine h with
    | .next _, hg => exact hI.advance_fine n hg
    | .eof _, hg => exact hg
    | .error _, hg => exact hg.elim

/-- A round over cursors with `I` meets no error, keeps one row per iterator, and leaves
cursors with `I` or, at an end of stream, rows with `J`. -/
theorem WalkInvariant.walkRound_fine (hI : WalkInvariant I J) :
    ∀ (i : Nat) {cs : List Cursor}, (∀ c ∈ cs, I c) →
      (walkRound i cs).Fine (fun cs' => cs'.length = cs.length ∧ ∀ c ∈ cs', I c)
        fun tbl => tbl.length = cs.length ∧ ∀ s ∈ tbl, J s
  | _, [], _ => ⟨rfl, by simp⟩
  | i, c :: cs, h => by
    have hcs := hI.walkRound_fine (i + 1) fun c' hc' => h c' (List.mem_cons_of_mem c hc')
    rw [walkRound]
    match advance (i + 1) c, hI.advance_fine (i + 1) (h c (List.mem_cons_self c cs)) with
    | .error _, hc => exact hc.elim
    | .eof _, hc =>
      refine ⟨by simp, List.forall_mem_cons.mpr ⟨hc, fun s hs => ?_⟩⟩
      obtain ⟨c', hc', rfl⟩ := List.mem_map.mp hs
      exact hI.row (h c' (List.mem_cons_of_mem c hc'))
    | .next c', hc =>
      dsimp only
      match walkRound (i + 1) cs, hcs with
      | .next _, hcs => exact ⟨by simp [hcs.1], List.forall_mem_cons.mpr ⟨hc, hcs.2⟩⟩
      | .eof _, hcs => exact ⟨by simp [hcs.1], List.forall_mem_cons.mpr ⟨hI.row hc, hcs.2⟩⟩
      | .error _, hcs => exact hcs.elim

/-- Over cursors with `I`, the walk returns a table with one row per iterator, each with
`J`. -/
theorem WalkInvariant.walk_ok (hI : WalkInvariant I J) :
    ∀ (fuel : Nat) {cs : List Cursor}, (∀ c ∈ cs, I c) →
      ∃ tbl, walk fuel cs = .ok tbl ∧ tbl.length = cs.length ∧ ∀ s ∈ tbl, J s
  | 0, cs, h => ⟨_, rfl, List.length_map _ _, fun s hs => by
      obtain ⟨c, hc, rfl⟩ := List.mem_map.mp hs
      exact hI.row (h c hc)⟩
  | fuel + 1, cs, h => by
    rw [walk]
    match walkRound 0 cs, hI.walkRound_fine 0 h with
    | .next _, hr =>
      obtain ⟨tbl, htbl, hlen, hin⟩ := hI.walk_ok fuel hr.2
      exact ⟨tbl, htbl, hlen.trans hr.1, hin⟩
    | .eof tbl, hr => exact ⟨tbl, rfl, hr⟩
    | .error _, hr => exact hr.elim

end Invariant

/-- The walk's invariant on a cursor: its iterator never fails, and its row has counted
every key the iterator has passed, so that the keys counted and the keys left make up the
`total` the iterator started with. -/
structure Cursor.Tallied (total : Int) (c : Cursor) : Prop where
  ok : AllOk c.iter
  nonneg : 0 ≤ c.shard.count
  sum : c.shard.count + c.iter.length = total

section Tally

variable {total : Int}

theorem Cursor.Tallied.within {c : Cursor} (h : c.Tallied total) :
  c.shard.Within total
  := ⟨h.nonneg, by have := h.sum; omega⟩

/-- Taking a key counts it and records it as the row's end: the cursor stays tallied. -/
theorem Cursor.Tallied.take {x : Except Error (Bytes × Bytes)} {rest : Iterator} {sh : Shard}
    (h : Cursor.Tallied total ⟨x :: rest, sh⟩) (k : Bytes) :
  Cursor.Tallied total ⟨rest, { sh with count := sh.count + 1, End := k }⟩
  := by
  obtain ⟨hok, hpos, hsum⟩ := h
  dsimp only [List.length_cons] at hpos hsum
  exact ⟨hok.tail, by dsimp only; omega, by dsimp only; omega⟩

/-- The walk keeps the tally, and a tallied row counts at most the `total`. -/
theorem Cursor.Tallied.walkInvariant (total : Int) :
  WalkInvariant (Cursor.Tallied total) (Shard.Within total)
  := ⟨Cursor.Tallied.ok, Cursor.Tallied.within, fun h => h.take _⟩

end Tally

/-- The keys left to a cursor's iterator, and its row's end, lie below `bound`. -/
structure Cursor.Below (bound : Bytes) (c : Cursor) : Prop where
  ok : AllOk c.iter
  keys : ∀ p, .ok p ∈ c.iter → p.1 < bound
  row : c.shard.End < bound

/-- A row's end is a key its iterator held or the end it started with, so the walk keeps
every row's end below a bound that the keys and the first ends are below. -/
theorem Cursor.Below.walkInvariant (bound : Bytes) :
  WalkInvariant (Cursor.Below bound) fun s => s.End < bound
  := ⟨Cursor.Below.ok, Cursor.Below.row, fun h =>
    ⟨h.ok.tail, fun p hp => h.keys p (List.mem_cons_of_mem _ hp),
      h.keys _ (List.mem_cons_self _ _)⟩⟩

/-! ### The table's ranges -/

/-- The table's ranges are contiguous: `num` rows, the first starting at "entry:", each
other starting where the one before ends, and the last ending at "entry;". -/
def Contiguous (num : Nat) (tbl : List Shard) : Prop :=
  tbl.length = num ∧ tbl.map (·.Start) = entryKeyPrefix :: (tbl.map (·.End)).dropLast ∧
    (tbl.map (·.End)).getLast? = some entryKeyPrefixEndRange

@[simp]
theorem length_setStarts (prevEnd : Bytes) (tbl : List Shard) :
  (setStarts prevEnd tbl).length = tbl.length
  := by
  induction tbl generalizing prevEnd <;> simp [setStarts, *]

theorem map_start_setStarts (prevEnd : Bytes) (tbl : List Shard) :
  (setStarts prevEnd tbl).map (·.Start) = (prevEnd :: tbl.map (·.End)).dropLast
  := by
  induction tbl generalizing prevEnd with
  | nil => rfl
  | cons s tbl ih => simp [setStarts, ih]

@[simp]
theorem map_end_setStarts (prevEnd : Bytes) (tbl : List Shard) :
  (setStarts prevEnd tbl).map (·.End) = tbl.map (·.End)
  := by
  induction tbl generalizing prevEnd <;> simp [setStarts, *]

@[simp]
theorem map_start_sizes (prevCount : Int) (tbl : List Shard) :
  (sizes prevCount tbl).map (·.Start) = tbl.map (·.Start)
  := by
  induction tbl generalizing prevCount <;> simp [sizes, *]

@[simp]
theorem map_end_sizes (prevCount : Int) (tbl : List Shard) :
  (sizes prevCount tbl).map (·.End) = tbl.map (·.End)
  := by
  induction tbl generalizing prevCount <;> simp [sizes, *]

theorem map_modify_of_comp {α β : Type} {f : α → α} {g : α → β} (hf : ∀ x, g (f x) = g x) :
    ∀ (n : Nat) (l : List α), (l.modify f n).map g = l.map g
  | _, [] => by simp
  | 0, x :: l => by simp [hf]
  | n + 1, x :: l => by simp [map_modify_of_comp hf n l]

theorem map_modifyHead_of_comp {α β : Type} {f : α → α} {g : α → β} (hf : ∀ x, g (f x) = g x)
    (l : List α) :
  (l.modifyHead f).map g = l.map g
  := by
  rw [List.modifyHead_eq_modify_zero, map_modify_of_comp hf]

theorem getLast?_map_modify_last {α β : Type} {f : α → α} {g : α → β} {b : β}
    (hf : ∀ x, g (f x) = b) {l : List α} {n : Nat} (hn : n + 1 = l.length) :
  ((l.modify f n).map g).getLast? = some b
  := by
  rw [List.modify_eq_take_cons_drop (by omega), List.drop_eq_nil_of_le (by omega)]
  simp [hf]

@[simp]
theorem length_sizes (prevCount : Int) (tbl : List Shard) :
  (sizes prevCount tbl).length = tbl.length
  := by
  induction tbl generalizing prevCount <;> simp [sizes, *]

@[simp]
theorem length_fixBorders (num : Nat) (tbl : List Shard) :
  (fixBorders num tbl).length = tbl.length
  := by
  simp [fixBorders]

theorem map_start_fixBorders (num : Nat) (tbl : List Shard) :
  (fixBorders num tbl).map (·.Start) =
    (tbl.modifyHead fun s => { s with Start := entryKeyPrefix }).map (·.Start)
  := by
  simp only [fixBorders]
  rw [map_modify_of_comp, map_modifyHead_of_comp, map_modify_of_comp] <;> intro <;> rfl

theorem getLast?_map_end_fixBorders {tbl : List Shard} (hne : tbl ≠ []) :
  ((fixBorders tbl.length tbl).map (·.End)).getLast? = some entryKeyPrefixEndRange
  := by
  simp only [fixBorders]
  rw [map_modify_of_comp, map_modifyHead_of_comp]
  · apply getLast?_map_modify_last
    · intro
      rfl
    · have := List.length_pos.mpr hne
      simp only [List.length_modifyHead]
      omega
  all_goals intro; rfl

/-- The fix-up makes the rows of a table of `num ≥ 1` rows contiguous ranges from "entry:"
to "entry;", whatever the walk left in them. -/
theorem fixUp_contiguous {num : Nat} (hn : 0 < num) {tbl : List Shard} (hlen : tbl.length = num) :
  Contiguous num (fixUp num tbl)
  := by
  subst hlen
  obtain ⟨t, ts, rfl⟩ := List.exists_cons_of_ne_nil (List.ne_nil_of_length_pos hn)
  have hStart := map_start_fixBorders (t :: ts).length (t :: ts)
  have hEnd := getLast?_map_end_fixBorders (List.cons_ne_nil t ts)
  have hlen := length_fixBorders (t :: ts).length (t :: ts)
  unfold fixUp
  cases hfb : fixBorders (t :: ts).length (t :: ts) with
  | nil => simp_all
  | cons a rest =>
    rw [hfb] at hStart hEnd hlen
    simp only [List.map_cons, List.modifyHead_cons, List.cons.injEq] at hStart
    dsimp only
    refine ⟨by simpa using hlen, ?_, by simpa using hEnd⟩
    simp [hStart.1, map_start_setStarts]

theorem map_modify_of_const {α β : Type} {f : α → α} {g : α → β} {b : β} (hf : ∀ x, g (f x) = b) :
    ∀ (n : Nat) (l : List α), (l.modify f n).map g = (l.map g).set n b
  | _, [] => by simp
  | 0, x :: l => by simp [hf]
  | n + 1, x :: l => by simp [map_modify_of_const hf n l]

/-- The fix-up sets the last row's end to "entry;" and leaves the other ends as the walk left
them. -/
theorem map_end_fixUp (num : Nat) (tbl : List Shard) :
  (fixUp num tbl).map (·.End) = (tbl.map (·.End)).set (num - 1) entryKeyPrefixEndRange
  := by
  have hb : (fixBorders num tbl).map (·.End) =
      (tbl.map (·.End)).set (num - 1) entryKeyPrefixEndRange := by
    simp only [fixBorders]
    rw [map_modify_of_comp, map_modifyHead_of_comp, map_modify_of_const, map_modifyHead_of_comp] <;>
      intro <;> rfl
  rw [← hb, fixUp]
  cases fixBorders num tbl with
  | nil => rfl
  | cons s rest => simp

/-- Rows whose starts are `a` and then the ends of the rows before them, the last ending at
`b`, cover every key from `a` to `b`: a key before the first row's end is in it, and a key at
or past it is covered by the rows after, which start there. -/
theorem covers_of_chain :
    ∀ {a b : Bytes} {rows : List Shard}, rows.map (·.Start) = a :: (rows.map (·.End)).dropLast →
      (rows.map (·.End)).getLast? = some b → ∀ {k : Bytes}, a ≤ k → k < b →
      ∃ sh ∈ rows, sh.Start ≤ k ∧ k < sh.End
  | _, _, [], _, hb, _, _, _ => by simp at hb
  | _, b, sh :: rest, hs, hb, k, hak, hkb => by
    simp only [List.map_cons, List.cons.injEq] at hs
    obtain ⟨rfl, hs⟩ := hs
    by_cases hk : k < sh.End
    · exact ⟨sh, List.mem_cons_self _ _, hak, hk⟩
    cases rest with
    | nil =>
      obtain rfl : sh.End = b := by simpa using hb
      exact absurd hkb hk
    | cons r rs =>
      simp only [List.map_cons, List.dropLast_cons₂, List.getLast?_cons_cons] at hs hb
      obtain ⟨sh', hmem, hin⟩ := @covers_of_chain sh.End b (r :: rs) hs hb k (not_lt.mp hk) hkb
      exact ⟨sh', List.mem_cons_of_mem _ hmem, hin⟩

/-- Every key under the entry prefix lies in the range of some row of a contiguous table. -/
theorem Contiguous.covers {num : Nat} {tbl : List Shard} (h : Contiguous num tbl) {key : Bytes}
    (hkey : entryKeyPrefix <+: key) :
  ∃ i < num, (tbl.getD i default).Start ≤ key ∧ key < (tbl.getD i default).End
  := by
  obtain ⟨hlen, hs, he⟩ := h
  obtain ⟨sh, hmem, hin⟩ := covers_of_chain hs he (prefix_le hkey) (lt_entryKeyPrefixEndRange hkey)
  obtain ⟨i, hi, rfl⟩ := List.mem_iff_getElem.mp hmem
  exact ⟨i, hlen ▸ hi, by simpa [List.getElem?_eq_getElem hi] using hin⟩

/-! ### The table's counts -/

theorem map_count_setStarts : ∀ (prevEnd : Bytes) (tbl : List Shard),
    (setStarts prevEnd tbl).map (·.count) = tbl.map (·.count)
  | _, [] => rfl
  | _, s :: rest => congrArg (s.count :: ·) (map_count_setStarts s.End rest)

/-- The sizes telescope: they add up to the last count less the count before the rows. -/
theorem sum_sizes : ∀ (prevCount : Int) (tbl : List Shard),
    ((sizes prevCount tbl).map (·.count)).sum =
      (tbl.map (·.count)).getLastD prevCount - prevCount
  | _, [] => by simp [sizes]
  | p, s :: rest => by
    simp only [sizes, List.map_cons, List.sum_cons, sum_sizes s.count rest, List.getLastD_cons]
    omega

theorem sum_fixUp (num : Nat) (tbl : List Shard) :
  ((fixUp num tbl).map (·.count)).sum = ((fixBorders num tbl).map (·.count)).getLastD 0
  := by
  cases h : fixBorders num tbl with
  | nil => simp [fixUp, h]
  | cons s rest =>
    simp only [fixUp, h, List.map_cons, List.sum_cons, sum_sizes, map_count_setStarts,
      List.getLastD_cons]
    omega

/-- The borders leave the last row's count as it was in a table of one row, where it loses
the key the first border takes and gains the one the last border adds, and add one to it
otherwise. -/
theorem getLastD_count_fixBorders {num : Nat} (hn : 0 < num) {tbl : List Shard}
    (hlen : tbl.length = num) :
  ((fixBorders num tbl).map (·.count)).getLastD 0 =
    (tbl.map (·.count)).getLastD 0 + if 2 ≤ num then 1 else 0
  := by
  subst hlen
  simp only [List.getLastD_eq_getLast?, List.getLast?_eq_getElem?, List.length_map, fixBorders,
    List.length_modify, List.length_modifyHead, List.getElem?_map, List.getElem?_modify,
    List.getElem?_modifyHead]
  rw [List.getElem?_eq_getElem (by omega)]
  by_cases h : tbl.length - 1 = 0
  · simp [h, show ¬ 2 ≤ tbl.length by omega]
  · simp [h, show 2 ≤ tbl.length by omega]

/-- The counts of the fix-up of a table of `num ≥ 1` rows add up to the count of its last
row, plus one when there are two rows or more. -/
theorem sum_count_fixUp {num : Nat} (hn : 0 < num) {tbl : List Shard} (hlen : tbl.length = num) :
  ((fixUp num tbl).map (·.count)).sum = (tbl.map (·.count)).getLastD 0 + if 2 ≤ num then 1 else 0
  := (sum_fixUp num tbl).trans (getLastD_count_fixBorders hn hlen)

/-! ### Planning -/

theorem allOk_map_ok (pairs : List (Bytes × Bytes)) :
  AllOk (pairs.map .ok)
  := by
  intro x hx
  obtain ⟨p, -, rfl⟩ := List.mem_map.mp hx
  exact ⟨p, rfl⟩

theorem constructShards_cached {s : Store} {num : Nat} {t : List Shard × Snapshot}
    (h : s.shardTables.lookup num = some t) :
  constructShards s num = (.ok t, s)
  := by
  simp [constructShards, h]

/-- A table not cached yet is built by the walk over a new snapshot and cached: the fix-up of
a table with one row per iterator, each row with `J` when the walk keeps `I` and the
iterators start with it. -/
theorem constructShards_fresh_of {I : Cursor → Prop} {J : Shard → Prop} (hI : WalkInvariant I J)
    {s : Store} {num : Nat} (h : s.shardTables.lookup num = none)
    (h₀ : I ⟨(s.db.newSnapshot.pairs.filter fun p => entryKeyPrefix.isPrefixOf p.1).map
      Except.ok, default⟩) :
  ∃ tbl, tbl.length = num ∧ (∀ sh ∈ tbl, J sh) ∧
    constructShards s num = (.ok (fixUp num tbl, s.db.newSnapshot),
      { s with shardTables := (num, fixUp num tbl, s.db.newSnapshot) :: s.shardTables })
  := by
  obtain ⟨tbl, hw, hlen, hin⟩ := hI.walk_ok
    (((s.db.newSnapshot.pairs.filter fun p => entryKeyPrefix.isPrefixOf p.1).map
      Except.ok).length + 1) fun c hc => List.eq_of_mem_replicate hc ▸ h₀
  refine ⟨tbl, by simpa using hlen, hin, ?_⟩
  simp only [constructShards, h, DB.scanPrefix, DB.view, Option.getD_some]
  rw [hw]

/-- Over a backend that never fails, building a table not cached yet never fails, and its
rows count at most the entries of the snapshot. -/
theorem constructShards_fresh {s : Store} {num : Nat} (h : s.shardTables.lookup num = none) :
  ∃ tbl, tbl.length = num ∧ (∀ sh ∈ tbl, sh.Within (entryCount s.db.newSnapshot)) ∧
    constructShards s num = (.ok (fixUp num tbl, s.db.newSnapshot),
      { s with shardTables := (num, fixUp num tbl, s.db.newSnapshot) :: s.shardTables })
  := constructShards_fresh_of (Cursor.Tallied.walkInvariant _) h
    ⟨allOk_map_ok _, le_refl 0, by simp [entryCount]⟩

/-! ### The walk ends -/

/-- The first `n` rounds of the outer loop of the walk: the cursors after them, or how the
loop broke. -/
def rounds : Nat → List Cursor → Walk (List Shard) (List Cursor)
  | 0, cs => .next cs
  | n + 1, cs =>
    match walkRound 0 cs with
    | .next cs => rounds n cs
    | .eof tbl => .eof tbl
    | .error e => .error e

/-- The walk with `fuel` is its first `fuel` rounds, with the rows as they stand if the fuel
runs out. -/
theorem walk_eq_rounds :
    ∀ (fuel : Nat) (cs : List Cursor), walk fuel cs =
      match rounds fuel cs with
      | .next cs => .ok (cs.map (·.shard))
      | .eof tbl => .ok tbl
      | .error e => .error e
  | 0, _ => rfl
  | fuel + 1, cs => by
    rw [walk, rounds]
    cases walkRound 0 cs with
    | next cs => exact walk_eq_rounds fuel cs
    | eof _ => rfl
    | error _ => rfl

/-- A group step that goes on has taken at least one key. -/
theorem skipGroup_length (pfx : Bytes) :
    ∀ {sh : Shard} {iter : Iterator} {c : Cursor}, skipGroup pfx sh iter = .next c →
      c.iter.length < iter.length
  | _, [], _, h => by cases h
  | _, .error _ :: _, _, h => by cases h
  | _, .ok (k, _) :: rest, c, h => by
    rw [skipGroup] at h
    split at h
    · exact Nat.lt_succ_of_lt (skipGroup_length pfx h)
    · cases h
      exact Nat.lt_succ_self _

theorem groupStep_length {c c' : Cursor} (h : groupStep c = .next c') :
  c'.iter.length < c.iter.length
  := by
  match c, h with
  | ⟨.ok _ :: _, _⟩, h => exact Nat.lt_succ_of_lt (skipGroup_length _ h)

/-- `n` group steps that go on have taken at least `n` keys. -/
theorem advance_length :
    ∀ (n : Nat) {c c' : Cursor}, advance n c = .next c' → c'.iter.length + n ≤ c.iter.length
  | 0, _, _, h => by cases h; rfl
  | n + 1, c, c', h => by
    rw [advance] at h
    match hg : groupStep c, h with
    | .next _, h =>
      have := advance_length n h
      have := groupStep_length hg
      omega

/-- A round that goes on has moved the first iterator by its one group step. -/
theorem walkRound_head {i : Nat} {c : Cursor} {cs cs' : List Cursor}
    (h : walkRound i (c :: cs) = .next cs') :
  ∃ c' rest, cs' = c' :: rest ∧ advance (i + 1) c = .next c'
  := by
  rw [walkRound] at h
  split at h
  · cases h
  · cases h
  · next c' ha =>
    split at h
    · cases h
      exact ⟨c', _, rfl, ha⟩
    · cases h
    · cases h

/-- From tallied cursors whose first iterator has fewer than `n` keys left, the loop meets
the end of a stream within `n` rounds, with a table of one row per iterator. -/
theorem rounds_eof {total : Int} :
    ∀ (n : Nat) {c : Cursor} {cs : List Cursor}, (∀ c' ∈ c :: cs, c'.Tallied total) →
      c.iter.length < n →
      ∃ tbl, rounds n (c :: cs) = .eof tbl ∧ tbl.length = cs.length + 1 ∧
        ∀ s ∈ tbl, s.Within total
  | 0, _, _, _, hlt => absurd hlt (Nat.not_lt_zero _)
  | n + 1, c, cs, h, hlt => by
    rw [rounds]
    match hw : walkRound 0 (c :: cs), (Cursor.Tallied.walkInvariant total).walkRound_fine 0 h with
    | .next _, hr =>
      obtain ⟨c', rest, rfl, ha⟩ := walkRound_head hw
      have := advance_length 1 ha
      obtain ⟨tbl, htbl, hlen, hin⟩ := rounds_eof n hr.2 (by omega)
      exact ⟨tbl, htbl, by simpa [hlen] using hr.1, hin⟩
    | .eof tbl, hr => exact ⟨tbl, rfl, hr⟩
    | .error _, hr => exact hr.elim

/-- For every sequence of keys and `num ≥ 1` iterators over it, the round-robin loop of
`constructShards` meets the end of the stream on some iterator within one round more than
there are keys, and the walk with that many rounds of fuel returns the table the loop breaks
with: each round moves the first iterator past at least one key. -/
theorem walk_breaks_within_rounds (keys : List (Bytes × Bytes)) {num : Nat} (hn : 0 < num) :
  ∃ tbl, rounds (keys.length + 1) (List.replicate num ⟨keys.map .ok, default⟩) = .eof tbl ∧
    walk (keys.length + 1) (List.replicate num ⟨keys.map .ok, default⟩) = .ok tbl
  := by
  obtain ⟨n, rfl⟩ : ∃ n, num = n + 1 := ⟨num - 1, by omega⟩
  have ht : ∀ c ∈ List.replicate (n + 1) (⟨keys.map .ok, default⟩ : Cursor),
      c.Tallied keys.length := fun c hc => by
    rw [List.eq_of_mem_replicate hc]
    exact ⟨allOk_map_ok _, le_refl 0, by simp⟩
  obtain ⟨tbl, h, -⟩ := rounds_eof (keys.length + 1) ht (by simp)
  exact ⟨tbl, h, by rw [walk_eq_rounds, List.replicate_succ, h]⟩

/-- Two iterators over one key. -/
theorem walk_breaks_within_rounds_two :
  0 < 2 ∧ ∃ tbl, rounds (([([1], [2])] : List (Bytes × Bytes)).length + 1)
      (List.replicate 2 ⟨([([1], [2])] : List (Bytes × Bytes)).map .ok, default⟩) = .eof tbl ∧
    walk (([([1], [2])] : List (Bytes × Bytes)).length + 1)
      (List.replicate 2 ⟨([([1], [2])] : List (Bytes × Bytes)).map .ok, default⟩) = .ok tbl
  := ⟨by decide, walk_breaks_within_rounds _ (by decide)⟩

/-! ### One iterator -/

section One

variable {total : Int}

/-- A group step that meets the end of the stream leaves its row counting every key. -/
theorem skipGroup_eof_count (pfx : Bytes) :
    ∀ {sh sh' : Shard} {iter : Iterator}, Cursor.Tallied total ⟨iter, sh⟩ →
      skipGroup pfx sh iter = .eof sh' → sh'.count = total
  | _, _, [], h, he => by
    cases he
    simpa using h.sum
  | _, _, .error _ :: _, _, he => by cases he
  | _, _, .ok (k, _) :: _, h, he => by
    rw [skipGroup] at he
    split at he
    · exact skipGroup_eof_count pfx (h.take k) he
    · cases he

theorem groupStep_eof_count {c : Cursor} {sh : Shard} (h : c.Tallied total)
    (he : groupStep c = .eof sh) :
  sh.count = total
  := by
  match c, h, he with
  | ⟨[], _⟩, h, he =>
    cases he
    simpa using h.sum
  | ⟨.error _ :: _, _⟩, _, he => cases he
  | ⟨.ok (k, _) :: _, _⟩, h, he => exact skipGroup_eof_count _ (h.take k) he

theorem advance_eof_count :
    ∀ (n : Nat) {c : Cursor} {sh : Shard}, c.Tallied total → advance n c = .eof sh →
      sh.count = total
  | 0, _, _, _, he => by cases he
  | n + 1, c, _, h, he => by
    rw [advance] at he
    match hg : groupStep c, (Cursor.Tallied.walkInvariant total).groupStep_fine h, he with
    | .next _, hc, he => exact advance_eof_count n hc he
    | .eof _, _, he =>
      cases he
      exact groupStep_eof_count h hg
    | .error _, _, he => cases he

/-- With one iterator, the loop breaks only when that iterator meets the end of the stream,
its row then counting every key. -/
theorem rounds_one_eof :
    ∀ (n : Nat) {c : Cursor} {tbl : List Shard}, c.Tallied total → rounds n [c] = .eof tbl →
      ∃ sh, tbl = [sh] ∧ sh.count = total
  | 0, _, _, _, he => by cases he
  | n + 1, c, _, h, he => by
    rw [rounds, walkRound] at he
    match ha : advance (0 + 1) c, (Cursor.Tallied.walkInvariant total).advance_fine (0 + 1) h, he with
    | .next _, hc, he => exact rounds_one_eof n hc he
    | .eof sh, _, he =>
      cases he
      exact ⟨sh, rfl, advance_eof_count _ h ha⟩
    | .error _, _, he => cases he

/-- The walk of one tallied iterator returns one row, counting every key. -/
theorem walk_one {c : Cursor} (h : c.Tallied total) :
  ∃ sh, walk (c.iter.length + 1) [c] = .ok [sh] ∧ sh.count = total
  := by
  obtain ⟨tbl, hr, -⟩ := @rounds_eof total (c.iter.length + 1) c []
    (fun c' hc' => List.mem_singleton.mp hc' ▸ h) (Nat.lt_succ_self _)
  obtain ⟨sh, rfl, hsh⟩ := rounds_one_eof _ h hr
  exact ⟨sh, by rw [walk_eq_rounds, hr], hsh⟩

end One

/-- The table for one shard, planned on a store with an empty cache: the whole entry range,
counting every entry of the snapshot. -/
theorem constructShards_one (db : DB) :
  constructShards ⟨db, []⟩ 1 =
    let tbl : List Shard := [⟨⟨entryKeyPrefix, entryKeyPrefixEndRange⟩, entryCount db⟩]
    (.ok (tbl, db), ⟨db, [(1, tbl, db)]⟩)
  := by
  obtain ⟨sh, hw, hsh⟩ := walk_one
    (⟨allOk_map_ok _, le_refl 0, by simp [entryCount]⟩ :
      Cursor.Tallied (entryCount db)
        ⟨(db.pairs.filter fun p => entryKeyPrefix.isPrefixOf p.1).map Except.ok, default⟩)
  have h : (⟨db, []⟩ : Store).shardTables.lookup 1 = none := rfl
  simp only [constructShards, h, DB.scanPrefix, DB.view, DB.newSnapshot,
    Option.getD_some, List.replicate_one, List.length_map]
  simp only [List.length_map] at hw
  rw [hw]
  simp [fixUp, fixBorders, setStarts, sizes, hsh]

/-! ### Two stores the planner gets wrong -/

/-- The source `VName{Signature: "s"}`. -/
def sourceS : VName := ⟨[115], [], [], [], []⟩

/-- The node fact `name` of `sourceS`, with an empty value. -/
def nodeFactS (name : Bytes) : Entry := ⟨some sourceS, name, [], none, []⟩

/-- The store after one `Write` of the node facts "/a" and "/b" of `sourceS`: one group of
two entries. -/
def twoFactStore : Store :=
  ⟨(DB.empty.write ⟨some sourceS, [⟨[], none, [47, 97], []⟩, ⟨[], none, [47, 98], []⟩]⟩).1, []⟩

/-- With two shards, the first iterator's first group step walks the whole group and meets
the end: the table is `[entry:, "/b") ↦ 1`, `["/b", entry;) ↦ 0`, so `Shard(2, 0)` delivers
"/a" and `Shard(2, 1)` returns at once, and "/b" is never delivered. -/
theorem shard_drops_fact :
    twoFactStore.db.pairs.map (fun p => entry p.1 p.2) =
      [.ok (nodeFactS [47, 97]), .ok (nodeFactS [47, 98])] ∧
    (shard twoFactStore ⟨2, 0⟩ (fun _ => none)).1 = ([nodeFactS [47, 97]], none) ∧
    (shard (shard twoFactStore ⟨2, 0⟩ (fun _ => none)).2 ⟨2, 1⟩ (fun _ => none)).1 = ([], none) :=
  ⟨rfl, rfl, rfl⟩

/-- The same table ends shard 0 at the key of "/b", inside the group of "/a" and "/b". -/
theorem constructShards_splits_group :
    twoFactStore.db.pairs.map (·.1) = [entryKey (nodeFactS [47, 97]), entryKey (nodeFactS [47, 98])] ∧
    ∃ tbl snapshot, (constructShards twoFactStore 2).1 = .ok (tbl, snapshot) ∧
      entryKey (nodeFactS [47, 97]) < (tbl.getD 0 default).End ∧
      (tbl.getD 0 default).End ≤ entryKey (nodeFactS [47, 98]) :=
  ⟨rfl, _, _, rfl, by decide, by decide⟩

/-- The five entries of the spec's scenarios, one `Write` each: node facts "/kind" = "n" of
the sources with signatures "A", "B", "C", and "/ref" edges with fact "/loc" = "r" from "A"
and "B" to the target with signature "T". -/
def scenarioStore : Store :=
  let source (c : Byte) : Option VName := some ⟨[c], [], [], [], []⟩
  let node (c : Byte) : WriteRequest := ⟨source c, [⟨[], none, [47, 107, 105, 110, 100], [110]⟩]⟩
  let ref (c : Byte) : WriteRequest :=
    ⟨source c, [⟨[47, 114, 101, 102], source 84, [47, 108, 111, 99], [114]⟩]⟩
  ⟨[node 65, ref 65, node 66, ref 66, node 67].foldl (fun db r => (db.write r).1) DB.empty, []⟩

/-- With two shards the five entries are counted six times: the table is
`[entry:, B/ref) ↦ 3`, `[B/ref, entry;) ↦ 3`, and `Shard(2, 1)` delivers two entries. -/
theorem count_exceeds_shard :
    scenarioStore.db.pairs.length = 5 ∧
    (count scenarioStore ⟨2, 0⟩).1 = .ok 3 ∧
    (count (count scenarioStore ⟨2, 0⟩).2 ⟨2, 1⟩).1 = .ok 3 ∧
    (shard scenarioStore ⟨2, 1⟩ (fun _ => none)).1.1.length = 2 :=
  ⟨rfl, rfl, rfl, rfl⟩

end Kythe.KeyValue
