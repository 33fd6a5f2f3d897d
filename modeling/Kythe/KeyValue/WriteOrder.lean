import Kythe.KeyValue.Store

/-!
# Writes in any order

`Store.Write` hands its writer the updates of a request up to the first one it does not
take, and closing the writer commits them: each key then holds the last value the request
wrote to it (`write_eq_putAll`).  The store a `Write` leaves depends only on the pairs it held
before, and its answer only on the request.  So a request sent again after it was committed
changes nothing (`write_retry`), and requests that write no tuple in common leave the same
store in whatever order they come (`writes_perm`): no update of one of them is lost to
another.
-/

namespace Kythe.KeyValue

/-- A `Write` puts the pairs of the updates it takes, in order. -/
theorem write_eq_putAll (db : DB) (req : WriteRequest) :
  (db.write req).1 = db.putAll ((contributed [req]).map entryPair)
  := foldl_write_eq_putAll [req] db

/-- Sending a `Write` request again after it was committed changes neither the store nor the
answer: each key it writes already holds the last value the request gives it. -/
theorem write_retry (db : DB) (req : WriteRequest) :
  (db.write req).1.write req = db.write req
  := by
  refine Prod.ext ?_ rfl
  simp only [write_eq_putAll, DB.putAll_putAll_self]

/-- Requests that write no tuple in common write no key in common. -/
theorem lastValue_disjoint {r₁ r₂ : WriteRequest}
    (hd : ∀ e₁ ∈ contributed [r₁], ∀ e₂ ∈ contributed [r₂], tupleOf e₁ ≠ tupleOf e₂) (key : Bytes) :
  lastValue ((contributed [r₁]).map entryPair) key = none ∨
    lastValue ((contributed [r₂]).map entryPair) key = none
  := by
  rcases h₁ : lastValue ((contributed [r₁]).map entryPair) key with _ | v₁
  · exact .inl rfl
  rcases h₂ : lastValue ((contributed [r₂]).map entryPair) key with _ | v₂
  · exact .inr rfl
  obtain ⟨e₁, he₁, hp₁⟩ := List.mem_map.mp (mem_of_lastValue_eq_some h₁)
  obtain ⟨e₂, he₂, hp₂⟩ := List.mem_map.mp (mem_of_lastValue_eq_some h₂)
  have hkey : entryKey e₁ = entryKey e₂ :=
    (congrArg Prod.fst hp₁).trans (congrArg Prod.fst hp₂).symm
  exact absurd ((entryKey_eq_iff (keyAccepted_of_mem_contributed he₁)
    (keyAccepted_of_mem_contributed he₂)).mp hkey) (hd e₁ he₁ e₂ he₂)

/-- Two requests that write no tuple in common commute. -/
theorem write_comm (db : DB) {r₁ r₂ : WriteRequest}
    (hd : ∀ e₁ ∈ contributed [r₁], ∀ e₂ ∈ contributed [r₂], tupleOf e₁ ≠ tupleOf e₂) :
  ((db.write r₁).1.write r₂).1 = ((db.write r₂).1.write r₁).1
  := by
  simp only [write_eq_putAll]
  exact DB.putAll_comm db (lastValue_disjoint hd)

/-- From any store, a list of `Write` requests any two different ones of which write no tuple in
common leaves the same store in any order: the backend's calls never failing, no update is
lost to a later request of another tuple. -/
theorem writes_perm (db : DB) {reqs reqs' : List WriteRequest} (hp : reqs.Perm reqs')
    (hd : ∀ r₁ ∈ reqs, ∀ r₂ ∈ reqs, r₁ ≠ r₂ →
      ∀ e₁ ∈ contributed [r₁], ∀ e₂ ∈ contributed [r₂], tupleOf e₁ ≠ tupleOf e₂) :
  reqs.foldl (fun db w => (db.write w).1) db = reqs'.foldl (fun db w => (db.write w).1) db
  := hp.foldl_eq' (fun r₁ h₁ r₂ h₂ z => by
      by_cases h : r₁ = r₂
      · rw [h]
      · exact write_comm z (hd r₁ h₁ r₂ h₂ h)) db

/-- Node facts of two different sources, written in both orders. -/
theorem writes_perm_two_sources :
    ([⟨some ⟨[97], [], [], [], []⟩, [⟨[], none, [107], [110]⟩]⟩,
        ⟨some ⟨[98], [], [], [], []⟩, [⟨[], none, [107], [110]⟩]⟩] : List WriteRequest).Perm
      [⟨some ⟨[98], [], [], [], []⟩, [⟨[], none, [107], [110]⟩]⟩,
        ⟨some ⟨[97], [], [], [], []⟩, [⟨[], none, [107], [110]⟩]⟩] ∧
    (∀ r₁ ∈ ([⟨some ⟨[97], [], [], [], []⟩, [⟨[], none, [107], [110]⟩]⟩,
        ⟨some ⟨[98], [], [], [], []⟩, [⟨[], none, [107], [110]⟩]⟩] : List WriteRequest),
      ∀ r₂ ∈ ([⟨some ⟨[97], [], [], [], []⟩, [⟨[], none, [107], [110]⟩]⟩,
        ⟨some ⟨[98], [], [], [], []⟩, [⟨[], none, [107], [110]⟩]⟩] : List WriteRequest), r₁ ≠ r₂ →
      ∀ e₁ ∈ contributed [r₁], ∀ e₂ ∈ contributed [r₂], tupleOf e₁ ≠ tupleOf e₂) ∧
    ([⟨some ⟨[97], [], [], [], []⟩, [⟨[], none, [107], [110]⟩]⟩,
        ⟨some ⟨[98], [], [], [], []⟩, [⟨[], none, [107], [110]⟩]⟩] : List WriteRequest).foldl
        (fun db w => (db.write w).1) DB.empty =
      ([⟨some ⟨[98], [], [], [], []⟩, [⟨[], none, [107], [110]⟩]⟩,
        ⟨some ⟨[97], [], [], [], []⟩, [⟨[], none, [107], [110]⟩]⟩] : List WriteRequest).foldl
        (fun db w => (db.write w).1) DB.empty
  := by
  refine ⟨List.Perm.swap _ _ _, ?_, writes_perm DB.empty (List.Perm.swap _ _ _) ?_⟩ <;>
  · intro r₁ h₁ r₂ h₂ hne
    simp only [List.mem_cons, List.mem_singleton, List.not_mem_nil, or_false] at h₁ h₂
    rcases h₁ with rfl | rfl <;> rcases h₂ with rfl | rfl <;> first | exact absurd rfl hne | decide

end Kythe.KeyValue
