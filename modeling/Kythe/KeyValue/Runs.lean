import Kythe.KeyValue.Shards

/-!
# Runs of calls on the store

A run is any sequence of `Write`, `Count` and `Shard` calls.  The shard cache only grows: a
call leaves it as it is, or caches the table `constructShards` builds for a number of shards
not cached yet (`lookup_step`).  Hence, once a table is planned, every later call finds it with
its snapshot, and `Count` and `Shard` keep their answers whatever was written since
(`shards_fixed_after_planning`).

From a store with an empty cache, every table the planner returns is the fix-up of a table
whose rows count at most the entries of its snapshot (`constructShards_planned`), so its counts
add up to at most one more than those entries (`constructShards_count_sum`).
-/

namespace Kythe.KeyValue

/-- A call on the store. -/
inductive Call where
  | write (req : WriteRequest)
  | count (req : ShardRequest)
  | shard (req : ShardRequest) (f : Entry → Option Error)

/-- The store after a call. -/
def Store.step (s : Store) : Call → Store
  | .write req => { s with db := (s.db.write req).1 }
  | .count req => (count s req).2
  | .shard req f => (shard s req f).2

/-- The store after a run of calls. -/
def Store.run (s : Store) (calls : List Call) : Store :=
  calls.foldl Store.step s

/-! ### The shard cache over a run -/

/-- `constructShards` always returns a table. -/
theorem constructShards_ok (s : Store) (num : Nat) :
  ∃ t, (constructShards s num).1 = .ok t
  := by
  cases h : s.shardTables.lookup num with
  | some t => exact ⟨t, by rw [constructShards_cached h]⟩
  | none =>
    obtain ⟨tbl, -, -, hc⟩ := constructShards_fresh h
    exact ⟨_, by rw [hc]⟩

/-- The table `constructShards` returns is cached afterwards. -/
theorem lookup_constructShards {s : Store} {num : Nat} {t : List Shard × Snapshot}
    (h : (constructShards s num).1 = .ok t) :
  (constructShards s num).2.shardTables.lookup num = some t
  := by
  cases hl : s.shardTables.lookup num with
  | some t' =>
    rw [constructShards_cached hl] at h ⊢
    cases h
    exact hl
  | none =>
    obtain ⟨tbl, -, -, hc⟩ := constructShards_fresh hl
    rw [hc] at h ⊢
    cases h
    simp

/-- `constructShards` keeps every table already cached. -/
theorem lookup_constructShards_of_lookup {s : Store} {num m : Nat} {t : List Shard × Snapshot}
    (h : s.shardTables.lookup m = some t) :
  (constructShards s num).2.shardTables.lookup m = some t
  := by
  cases hl : s.shardTables.lookup num with
  | some t' => rwa [constructShards_cached hl]
  | none =>
    obtain ⟨tbl, -, -, hc⟩ := constructShards_fresh hl
    have hm : m ≠ num := fun hm => by simp [hm, hl] at h
    rw [hc]
    simp only [List.lookup_cons, beq_eq_false_iff_ne.mpr hm]
    exact h

theorem count_snd (s : Store) (req : ShardRequest) :
  (count s req).2 = s ∨ (count s req).2 = (constructShards s req.shards.toNat).2
  := by
  unfold count
  split
  · exact .inl rfl
  · split <;> simp_all

theorem shard_snd (s : Store) (req : ShardRequest) (f : Entry → Option Error) :
  (shard s req f).2 = s ∨ (shard s req f).2 = (constructShards s req.shards.toNat).2
  := by
  unfold shard
  split
  · exact .inl rfl
  · split
    · simp_all
    · next h =>
      dsimp only
      split
      · exact .inr (congrArg Prod.snd h).symm
      · split <;> exact .inr (congrArg Prod.snd h).symm

/-- What a call does to the store: a write changes only the backend, `Count` and `Shard`
leave the store as it is or as `constructShards` leaves it. -/
theorem step_cases (s : Store) (c : Call) :
  (s.step c).shardTables = s.shardTables ∨ ∃ num, s.step c = (constructShards s num).2
  := by
  cases c with
  | write req => exact .inl rfl
  | count req => exact (count_snd s req).imp (congrArg Store.shardTables) (⟨_, ·⟩)
  | shard req f => exact (shard_snd s req f).imp (congrArg Store.shardTables) (⟨_, ·⟩)

/-- A call keeps every table already cached. -/
theorem lookup_step {s : Store} {num : Nat} {t : List Shard × Snapshot}
    (h : s.shardTables.lookup num = some t) (c : Call) :
  (s.step c).shardTables.lookup num = some t
  := by
  rcases step_cases s c with hs | ⟨m, hs⟩
  · rwa [hs]
  · rw [hs]
    exact lookup_constructShards_of_lookup h

theorem lookup_run {s : Store} {num : Nat} {t : List Shard × Snapshot}
    (h : s.shardTables.lookup num = some t) :
  ∀ calls : List Call, (s.run calls).shardTables.lookup num = some t
  | [] => h
  | c :: calls => lookup_run (s := s.step c) (lookup_step h c) calls

/-! ### Answers after planning -/

theorem count_fst_of_lookup {s s' : Store} {req : ShardRequest} {t : List Shard × Snapshot}
    (h : s.shardTables.lookup req.shards.toNat = some t)
    (h' : s'.shardTables.lookup req.shards.toNat = some t) :
  (count s req).1 = (count s' req).1
  := by
  unfold count
  rw [constructShards_cached h, constructShards_cached h']
  cases checkShardRequest req <;> rfl

theorem shard_fst_of_lookup {s s' : Store} {req : ShardRequest} {t : List Shard × Snapshot}
    (h : s.shardTables.lookup req.shards.toNat = some t)
    (h' : s'.shardTables.lookup req.shards.toNat = some t) (f : Entry → Option Error) :
  (shard s req f).1 = (shard s' req f).1
  := by
  unfold shard
  rw [constructShards_cached h, constructShards_cached h']
  cases checkShardRequest req with
  | some _ => rfl
  | none =>
    dsimp only
    split <;> rfl

/-- Once `constructShards` has planned the shards of a request, every later run of calls,
writes included, finds the same table and snapshot, and `Count` and `Shard` answer the
request as they did right after planning. -/
theorem shards_fixed_after_planning (s : Store) (req : ShardRequest) (f : Entry → Option Error)
    (calls : List Call) :
  (constructShards (((constructShards s req.shards.toNat).2).run calls) req.shards.toNat).1 =
      (constructShards s req.shards.toNat).1 ∧
    (count (((constructShards s req.shards.toNat).2).run calls) req).1 =
      (count (constructShards s req.shards.toNat).2 req).1 ∧
    (shard (((constructShards s req.shards.toNat).2).run calls) req f).1 =
      (shard (constructShards s req.shards.toNat).2 req f).1
  := by
  obtain ⟨t, ht⟩ := constructShards_ok s req.shards.toNat
  have h₁ := lookup_constructShards ht
  have h₂ := lookup_run h₁ calls
  exact ⟨by rw [constructShards_cached h₂, ht], count_fst_of_lookup h₂ h₁,
    shard_fst_of_lookup h₂ h₁ f⟩

/-! ### The tables the planner returns -/

/-- A table for `num` shards as the planner builds it: the fix-up of a table with one row per
shard, each counting at most the entries of the snapshot. -/
def Planned (num : Nat) (t : List Shard × Snapshot) : Prop :=
  ∃ tbl, tbl.length = num ∧ (∀ s ∈ tbl, s.Within (entryCount t.2)) ∧ t.1 = fixUp num tbl

/-- Every cached table is planned. -/
def Store.CachePlanned (s : Store) : Prop :=
  ∀ e ∈ s.shardTables, Planned e.1 e.2

theorem cachePlanned_constructShards {s : Store} (h : s.CachePlanned) (num : Nat) :
  (constructShards s num).2.CachePlanned
  := by
  cases hl : s.shardTables.lookup num with
  | some t => rwa [constructShards_cached hl]
  | none =>
    obtain ⟨tbl, hlen, hin, hc⟩ := constructShards_fresh hl
    rw [hc]
    exact List.forall_mem_cons.mpr ⟨⟨tbl, hlen, hin, rfl⟩, h⟩

theorem cachePlanned_run {s : Store} (h : s.CachePlanned) :
  ∀ calls : List Call, (s.run calls).CachePlanned
  | [] => h
  | c :: calls => by
    refine cachePlanned_run (s := s.step c) ?_ calls
    rcases step_cases s c with hs | ⟨m, hs⟩
    · exact fun e he => h e (hs ▸ he)
    · exact hs ▸ cachePlanned_constructShards h m

theorem mem_of_lookup_eq_some {l : List (Nat × List Shard × Snapshot)} {num : Nat}
    {t : List Shard × Snapshot} (h : l.lookup num = some t) :
  (num, t) ∈ l
  := by
  obtain ⟨l₁, l₂, rfl, -⟩ := List.lookup_eq_some_iff.mp h
  simp

/-- From a store with an empty shard cache, after any run of calls, the table
`constructShards` returns is planned. -/
theorem constructShards_planned (db : DB) (calls : List Call) (num : Nat) :
  ∃ t, (constructShards ((Store.mk db []).run calls) num).1 = .ok t ∧ Planned num t
  := by
  have hinv := cachePlanned_run (s := Store.mk db []) (fun _ he => absurd he (List.not_mem_nil _)) calls
  obtain ⟨t, ht⟩ := constructShards_ok ((Store.mk db []).run calls) num
  exact ⟨t, ht, cachePlanned_constructShards hinv num _
    (mem_of_lookup_eq_some (lookup_constructShards ht))⟩

/-- From a store with an empty shard cache, after any run of calls, the counts of the table
`constructShards` returns for `num ≥ 1` shards add up to a number of keys between zero and
the entries of its snapshot, plus one when there are two shards or more: the sum is the
last row's count after the walk, which the last border raises by one. -/
theorem constructShards_count_sum (db : DB) (calls : List Call) {num : Nat} (hn : 0 < num) :
  ∃ tbl snapshot, (constructShards ((Store.mk db []).run calls) num).1 = .ok (tbl, snapshot) ∧
    ∃ counted : Int, 0 ≤ counted ∧ counted ≤ entryCount snapshot ∧
      (tbl.map (·.count)).sum = counted + if 2 ≤ num then 1 else 0
  := by
  obtain ⟨⟨_, snapshot⟩, ht, tbl, hlen, hin, rfl⟩ := constructShards_planned db calls num
  have hne : tbl ≠ [] := List.ne_nil_of_length_pos (hlen ▸ hn)
  have hlast : (tbl.map (·.count)).getLastD 0 = (tbl.getLast hne).count := by
    simp [List.getLast?_eq_getLast tbl hne]
  obtain ⟨hpos, hle⟩ := hin _ (List.getLast_mem hne)
  exact ⟨_, snapshot, ht, _, hpos, hle, hlast ▸ sum_count_fixUp hn hlen⟩

/-- Two shards of the empty store. -/
theorem constructShards_count_sum_two :
  0 < 2 ∧ ∃ tbl snapshot, (constructShards ((Store.mk DB.empty []).run []) 2).1 = .ok (tbl, snapshot) ∧
    ∃ counted : Int, 0 ≤ counted ∧ counted ≤ entryCount snapshot ∧
      (tbl.map (·.count)).sum = counted + if 2 ≤ 2 then 1 else 0
  := ⟨by decide, constructShards_count_sum DB.empty [] (by decide)⟩

end Kythe.KeyValue
