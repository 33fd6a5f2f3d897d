import Kythe.KeyValue.Runs

/-!
# What the shards deliver

`Shard(N, i)` scans the range of row `i` of the planned table under the table's snapshot,
unless the row's count is zero.  Take a store whose keys were all put there by `Write` calls,
apart from keys at or above "entry;".  The ranges of the table planned for it cover every
stored entry, whatever the walk left in the rows: the rows form a chain of ranges from
"entry:" to "entry;", each starting where the one before ends, and such a chain covers every
key between its ends even when the ends do not increase (`Contiguous.covers`).  And
`Shard(N, i)` delivers, in key order, exactly the stored entries of its range, or nothing
when its count is zero (`shard_after_writes`).  An entry is therefore lost only when every
shard whose range holds it reports a count of zero, and it is delivered twice when two
ranges overlap.

A key below "entry:" is another matter: when the walk breaks before some iterator has moved,
the rows after it start at the empty key, and `Shard` then meets that key in its range and
fails to decode it.
-/

namespace Kythe.KeyValue

/-- A request for shard `i` of `num` shards, `i < num`, passes the checks of `Count` and
`Shard`. -/
theorem checkShardRequest_eq_none {num i : Nat} (hi : i < num) :
  checkShardRequest ⟨num, i⟩ = none
  := by
  simp only [checkShardRequest]
  rw [if_neg (by omega), if_neg (by omega)]

/-- The iterators of the walk start below "entry:"'s end of range: their keys are entry
keys, and their rows start with the empty end. -/
theorem below_entryIter (db : DB) :
  Cursor.Below entryKeyPrefixEndRange
    ⟨(db.pairs.filter fun p => entryKeyPrefix.isPrefixOf p.1).map Except.ok, default⟩
  := by
  refine ⟨allOk_map_ok _, fun p hp => ?_, nil_lt_iff.mpr (by simp [entryKeyPrefixEndRange_eq])⟩
  obtain ⟨q, hq, he⟩ := List.mem_map.mp hp
  cases he
  exact lt_entryKeyPrefixEndRange (List.isPrefixOf_iff_prefix.mp (List.mem_filter.mp hq).2)

/-- Every row of a table fixed up from rows ending below "entry;" ends at or below it. -/
theorem end_le_of_fixUp {num : Nat} {tbl : List Shard}
    (h : ∀ sh ∈ tbl, sh.End < entryKeyPrefixEndRange) {sh : Shard} (hsh : sh ∈ fixUp num tbl) :
  sh.End ≤ entryKeyPrefixEndRange
  := by
  have hmem : sh.End ∈ (tbl.map (·.End)).set (num - 1) entryKeyPrefixEndRange :=
    map_end_fixUp num tbl ▸ List.mem_map_of_mem _ hsh
  rcases List.mem_or_eq_of_mem_set hmem with hmem | heq
  · obtain ⟨sh', hsh', he⟩ := List.mem_map.mp hmem
    exact he ▸ (h sh' hsh').le
  · exact heq.le

/-- After any run of writes on a backend whose other keys all sort at or above "entry;"
(its calls never failing), the table planned for `num ≥ 1` shards covers every stored entry
with the range of some shard; and `Shard(num, i)`, with a function that never stops it, ends
cleanly and delivers in ascending key order exactly the stored entries of shard `i`'s range,
each holding the value last written to its tuple, unless the shard's count is zero, when it
delivers nothing. -/
theorem shard_after_writes (db₀ : DB) (h₀ : ∀ p ∈ db₀.pairs, entryKeyPrefixEndRange ≤ p.1)
    (reqs : List WriteRequest) {num : Nat} (hn : 0 < num) :
    let s : Store := ⟨reqs.foldl (fun db w => (db.write w).1) db₀, []⟩
    ∃ tbl snapshot, (constructShards s num).1 = .ok (tbl, snapshot) ∧
      (∀ e, lastFactValue (contributed reqs) e = some e.factValue →
        ∃ i < num, (tbl.getD i default).Start ≤ entryKey e ∧
          entryKey e < (tbl.getD i default).End) ∧
      ∀ i < num, let r := (shard s ⟨num, i⟩ fun _ => none).1
        r.2 = none ∧ r.1.Pairwise (fun e₁ e₂ => entryKey e₁ < entryKey e₂) ∧
        ∀ e, e ∈ r.1 ↔ (tbl.getD i default).count ≠ 0 ∧
          (tbl.getD i default).Start ≤ entryKey e ∧ entryKey e < (tbl.getD i default).End ∧
          lastFactValue (contributed reqs) e = some e.factValue
  := by
  intro s
  obtain ⟨tbl, hlen, hbelow, hc⟩ := @constructShards_fresh_of _ _
    (Cursor.Below.walkInvariant entryKeyPrefixEndRange) s num rfl (below_entryIter _)
  have hcont := fixUp_contiguous hn hlen
  refine ⟨fixUp num tbl, s.db, by rw [hc]; rfl,
    fun e he => hcont.covers (prefix_entryKey (keyAccepted_of_lastFactValue he)), fun i hi => ?_⟩
  have hi' : i < (fixUp num tbl).length := by rw [hcont.1]; exact hi
  have hE := end_le_of_fixUp hbelow (by simp [List.getElem?_eq_getElem hi'] :
    (fixUp num tbl).getD i default ∈ fixUp num tbl)
  simp only [shard, checkShardRequest_eq_none hi, Int.toNat_natCast, hc]
  set sh := (fixUp num tbl).getD i default
  split_ifs with h0
  · simp only [h0]
    simp
  -- the range holds only entry keys: the backend's other keys sort at or past its end
  have hsel : ∀ p ∈ s.db.pairs, decide (sh.Start ≤ p.1 ∧ p.1 < sh.End) = true →
      entryKeyPrefix <+: p.1 := by
    intro p hp hin
    refine (mem_pairs_after_writes_cases reqs hp).resolve_right fun hp₀ => ?_
    exact not_lt.mpr (h₀ p hp₀) ((of_decide_eq_true hin).2.trans_le hE)
  obtain ⟨hend, hsorted, hmem⟩ := streamMatching_after_writes_of .encoding (fun _ => true)
    (fun k => decide (sh.Start ≤ k ∧ k < sh.End))
    (fun p hp hpre => not_lt.mpr (h₀ p hp) (lt_entryKeyPrefixEndRange hpre)) reqs hsel
  refine ⟨hend, hsorted, fun e => (hmem e).trans ?_⟩
  simp [h0, and_assoc]

/-- One node fact written to an empty backend, planned into two shards. -/
theorem shard_after_writes_one_fact :
    (∀ p ∈ DB.empty.pairs, entryKeyPrefixEndRange ≤ p.1) ∧ (0 : Nat) < 2 ∧
    let s : Store := ⟨([⟨some ⟨[115], [], [], [], []⟩, [⟨[], none, [97], []⟩]⟩] : List WriteRequest).foldl
      (fun db w => (db.write w).1) DB.empty, []⟩
    ∃ tbl snapshot, (constructShards s 2).1 = .ok (tbl, snapshot) ∧
      (∀ e, lastFactValue (contributed [⟨some ⟨[115], [], [], [], []⟩, [⟨[], none, [97], []⟩]⟩]) e =
          some e.factValue →
        ∃ i : Nat, i < 2 ∧ (tbl.getD i default).Start ≤ entryKey e ∧
          entryKey e < (tbl.getD i default).End) ∧
      ∀ i : Nat, i < 2 → let r := (shard s ⟨2, i⟩ fun _ => none).1
        r.2 = none ∧ r.1.Pairwise (fun e₁ e₂ => entryKey e₁ < entryKey e₂) ∧
        ∀ e, e ∈ r.1 ↔ (tbl.getD i default).count ≠ 0 ∧
          (tbl.getD i default).Start ≤ entryKey e ∧ entryKey e < (tbl.getD i default).End ∧
          lastFactValue (contributed [⟨some ⟨[115], [], [], [], []⟩, [⟨[], none, [97], []⟩]⟩]) e =
            some e.factValue
  := ⟨by simp [DB.empty], by decide, shard_after_writes DB.empty (by simp [DB.empty]) _ (by decide)⟩

/-- With one shard the plan is exact.  After any run of writes on a backend none of whose
other keys starts with "entry:" (its calls never failing), `Count(1, 0)` is the number of
entries `Shard(1, 0)` delivers; and `Shard(1, 0)`, with a function that never stops it, ends
cleanly and delivers in ascending key order every stored entry, each holding the value last
written to its tuple. -/
theorem shard_one_after_writes (db₀ : DB) (h₀ : ∀ p ∈ db₀.pairs, ¬ entryKeyPrefix <+: p.1)
    (reqs : List WriteRequest) :
    let s : Store := ⟨reqs.foldl (fun db w => (db.write w).1) db₀, []⟩
    let r := (shard s ⟨1, 0⟩ fun _ => none).1
    (count s ⟨1, 0⟩).1 = .ok (r.1.length : Int) ∧ r.2 = none ∧
      r.1.Pairwise (fun e₁ e₂ => entryKey e₁ < entryKey e₂) ∧
      ∀ e, e ∈ r.1 ↔ lastFactValue (contributed reqs) e = some e.factValue
  := by
  intro s r
  -- the one row spans "entry:" to "entry;", which holds exactly the entry keys
  obtain ⟨hend, hsorted, hmem⟩ := streamMatching_after_writes_of .encoding (fun _ => true)
    (fun k => decide (entryKeyPrefix ≤ k ∧ k < entryKeyPrefixEndRange)) h₀ reqs
    fun _ _ hin => entryKeyPrefix_prefix_of_range (of_decide_eq_true hin).1 (of_decide_eq_true hin).2
  set full := streamMatching .encoding (fun _ => true) (fun _ => none)
    ((s.db.pairs.filter fun p => decide (entryKeyPrefix ≤ p.1 ∧ p.1 < entryKeyPrefixEndRange)).map
      Except.ok)
  have hfull : ∀ e, e ∈ full.1 ↔ lastFactValue (contributed reqs) e = some e.factValue := by
    refine fun e => (hmem e).trans ⟨fun h => h.2.2, fun h => ⟨rfl, ?_, h⟩⟩
    have hpre := prefix_entryKey (keyAccepted_of_lastFactValue h)
    exact decide_eq_true ⟨prefix_le hpre, lt_entryKeyPrefixEndRange hpre⟩
  -- the entries delivered are as many as the entry keys stored
  have hpairs : full.1.map entryPair = s.db.pairs.filter fun p => entryKeyPrefix.isPrefixOf p.1 := by
    refine eq_of_mem_iff_of_sorted (List.pairwise_map.mpr hsorted) (s.db.sorted.filter _) fun p => ?_
    simp only [List.mem_map, List.mem_filter, List.isPrefixOf_iff_prefix]
    constructor
    · rintro ⟨e, he, rfl⟩
      have hl := (hfull e).mp he
      have hpre := prefix_entryKey (keyAccepted_of_lastFactValue hl)
      exact ⟨(mem_pairs_after_writes h₀ reqs hpre).mpr ⟨e, rfl, hl⟩, hpre⟩
    · rintro ⟨hp, hpre⟩
      obtain ⟨e, rfl, hl⟩ := (mem_pairs_after_writes h₀ reqs hpre).mp hp
      exact ⟨e, (hfull e).mpr hl, rfl⟩
  have hlen : full.1.length = entryCount s.db := by
    rw [entryCount, ← hpairs, List.length_map]
  have hchk : checkShardRequest ⟨1, 0⟩ = none := by decide
  have hcs : constructShards s 1 = _ := constructShards_one s.db
  have hr : r = full := by
    simp only [r, shard, hchk, Int.toNat_one, Int.toNat_zero, hcs]
    split_ifs with h0
    · have h0 : entryCount s.db = 0 := by simpa using h0
      exact Prod.ext (List.eq_nil_of_length_eq_zero (by omega)).symm hend.symm
    · rfl
  simp only [count, hchk, Int.toNat_one, Int.toNat_zero, hcs]
  rw [hr, hlen]
  exact ⟨by simp, hend, hsorted, hfull⟩

/-- One node fact written to an empty backend, delivered by a single shard. -/
theorem shard_one_after_writes_one_fact :
    (∀ p ∈ DB.empty.pairs, ¬ entryKeyPrefix <+: p.1) ∧
    let s : Store := ⟨([⟨some ⟨[115], [], [], [], []⟩, [⟨[], none, [97], []⟩]⟩] : List WriteRequest).foldl
      (fun db w => (db.write w).1) DB.empty, []⟩
    let r := (shard s ⟨1, 0⟩ fun _ => none).1
    (count s ⟨1, 0⟩).1 = .ok (r.1.length : Int) ∧ r.2 = none ∧
      r.1.Pairwise (fun e₁ e₂ => entryKey e₁ < entryKey e₂) ∧
      ∀ e, e ∈ r.1 ↔
        lastFactValue (contributed [⟨some ⟨[115], [], [], [], []⟩, [⟨[], none, [97], []⟩]⟩]) e =
          some e.factValue
  := ⟨by simp [DB.empty], shard_one_after_writes DB.empty (by simp [DB.empty]) _⟩

end Kythe.KeyValue
