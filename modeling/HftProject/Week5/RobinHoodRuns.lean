import HftProject.Week5.RobinHoodFiniteMap

/-!
Runs of a `RobinHoodHashTable`. Without `erase` the table is a finite map in every state
reached (`run_finiteMap`). An `erase` may cut the probe for another key short; a run in
which no `erase` does is the only one whose calls leave the other keys alone
(`run_framed_iff`).
-/

namespace HftProject.Week5.RobinHoodHashTable

open Probing

variable {K V : Type} [DecidableEq K] {hash : K → Nat} {m : Contents K V}
  {t : RobinHoodHashTable K V}

/-! ### Erasing -/

/-- Slot `b` is occupied by the key. -/
def holds (t : RobinHoodHashTable K V) (b : Nat) (key : K) : Bool :=
  t.table[b]?.any fun e => e.occupied && e.key = key

theorem holds_iff {b : Nat} {key : K} :
    t.holds b key = true ↔ ∃ e, Stores t.table b e ∧ e.key = key := by
  simp [holds, Stores, Option.any_eq_true, and_assoc]

/-- No probe for another stored key goes through the slot of the key. -/
def Clear (hash : K → Nat) (key : K) (t : RobinHoodHashTable K V) : Prop :=
  ∀ e ∈ t.table, e.occupied = true → e.key ≠ key → ∀ d < t.capacity,
    t.holds (slot t.capacity (hash e.key % t.capacity) d) e.key = true → ∀ j < d,
      t.holds (slot t.capacity (hash e.key % t.capacity) j) key = false

instance (hash : K → Nat) (key : K) (t : RobinHoodHashTable K V) : Decidable (t.Clear hash key) :=
  inferInstanceAs (Decidable (∀ e ∈ t.table, _))

omit [DecidableEq K] in
theorem stores_erased {i j : Nat} {e e' : Entry K V} (he : Stores t.table i e) :
    Stores (t.table.set i { e with occupied := false }) j e' ↔ i ≠ j ∧ Stores t.table j e' := by
  rw [stores_set he.lt]
  by_cases hij : i = j
  · simp [hij]
  · simp [hij]

/-- `erase` of a key that is not stored. -/
theorem Represents.erase_absent (h : Represents hash m t) {k : K} (hk : m.lookup k = none) :
    t.erase hash k = .ok (false, t) := by
  rw [RobinHoodHashTable.erase, h.filed.lookup_absent h.pos (h.absent hk)]
  rfl

/-- The table after `erase` of a stored key. -/
def erased (t : RobinHoodHashTable K V) (i : Nat) (e : Entry K V) : RobinHoodHashTable K V :=
  { t with
    table := t.table.set i { e with occupied := false }
    numElements := t.numElements - 1 }

theorem Represents.erase_stored (h : Represents hash m t) {i : Nat} {e : Entry K V}
    (he : Stores t.table i e) : t.erase hash e.key = .ok (true, t.erased i e) := by
  rw [RobinHoodHashTable.erase, h.filed.lookup_stored he]
  rfl

/-- A key that no other key is reached through goes without a trace. -/
theorem Represents.erased (h : Represents hash m t) {i : Nat} {e : Entry K V}
    (he : Stores t.table i e) (hclear : t.Clear hash e.key) :
    Represents hash (m.erase e.key) (t.erased i e) := by
  have hkey : e.key ∈ m.keys := by
    rw [Finmap.mem_keys, ← Finmap.lookup_isSome, (h.contents _ _).mp ⟨i, e, he, rfl, rfl⟩]
    rfl
  refine ⟨⟨?_, ?_, ?_⟩, h.pos, fun k v => ?_, ?_, ?_⟩
  · change (t.table.set _ _).length = t.capacity
    rw [List.length_set, h.filed.length]
  · intro a b ea eb ha hb
    exact h.filed.distinct a b ea eb ((stores_erased he).mp ha).2 ((stores_erased he).mp hb).2
  · intro j e' he'
    obtain ⟨hij, hstored⟩ := (stores_erased he).mp he'
    obtain ⟨d, hd, hslot, hpath⟩ := h.filed.reach j e' hstored
    have hother : e'.key ≠ e.key := fun hk => hij (h.filed.distinct j i e' e hstored he hk).symm
    refine ⟨d, hd, hslot, fun x hx => ?_⟩
    obtain ⟨r, hr, hdist⟩ := hpath x hx
    refine ⟨r, (stores_erased he).mpr ⟨fun hi => ?_, hr⟩, hdist⟩
    have hi' : i = slot t.capacity (hash e'.key % t.capacity) x := hi
    rw [hi'] at he hij
    rcases Nat.lt_succ_iff_lt_or_eq.mp hx with hlt | rfl
    · have hfalse := hclear e' (List.mem_of_getElem? hstored.1) hstored.2 hother d hd
        (holds_iff.mpr ⟨e', by rwa [hslot], rfl⟩) x hlt
      rw [holds_iff.mpr ⟨e, he, rfl⟩] at hfalse
      cases hfalse
    · exact hij hslot
  · rw [lookup_erase]
    constructor
    · rintro ⟨j, e', he', rfl, rfl⟩
      obtain ⟨hij, hstored⟩ := (stores_erased he).mp he'
      rw [if_neg fun hk => hij (h.filed.distinct j i e' e hstored he hk).symm]
      exact (h.contents _ _).mp ⟨j, e', hstored, rfl, rfl⟩
    · intro hk
      split at hk
      · cases hk
      · rename_i hne
        obtain ⟨j, e', he', rfl, rfl⟩ := (h.contents k v).mpr hk
        refine ⟨j, e', (stores_erased he).mpr ⟨?_, he'⟩, rfl, rfl⟩
        rintro rfl
        exact hne (by rw [he.unique he'])
  · have hget := List.getElem?_eq_some_iff.mp he.1
    change (t.table.set i _).countP _ = t.numElements - 1
    rw [List.countP_set he.lt, hget.2, if_pos he.2, ← h.occupied]
    simp
  · change t.numElements - 1 = _
    rw [Finmap.keys_erase, Finset.card_erase_of_mem hkey, h.count]

/-- A key that is reached through the slot that `erase` frees is lost. -/
theorem Represents.lost (h : Represents hash m t) {k : K} (hshadow : ¬ t.Clear hash k) :
    ∃ i e k' v, Stores t.table i e ∧ e.key = k ∧ k' ≠ k ∧ m.lookup k' = some v ∧
      (t.erased i e).find hash k' = .ok none := by
  unfold Clear at hshadow
  push Not at hshadow
  obtain ⟨e', -, -, hother, d, hd, hself, j, hj, hthrough⟩ := hshadow
  obtain ⟨r, hr, hrkey⟩ := holds_iff.mp hself
  obtain ⟨e, he, rfl⟩ := holds_iff.mp (Bool.eq_true_of_not_eq_false hthrough)
  rw [← hrkey] at hr he hother
  have hpos := h.pos
  obtain ⟨d', hd', hslot, hpath⟩ := h.filed.reach _ r hr
  obtain rfl := slot_inj hd' hd hslot
  refine ⟨_, e, r.key, r.value, he, rfl, hother, (h.contents _ _).mp ⟨_, r, hr, rfl, rfl⟩, ?_⟩
  have hstart := slot_zero (n := t.capacity) (Nat.mod_lt (hash r.key) hpos)
  have hstopped : (t.erased _ e).seek r.key (t.capacity + 1)
      (slot t.capacity (hash r.key % t.capacity) 0) = .ok none :=
    seek_stopped (t := t.erased _ e) (List.getElem?_set_self he.lt) rfl (fun x _ hx => by
        obtain ⟨e', he', -⟩ := hpath x (lt_trans hx (Nat.lt_succ_of_lt hj))
        refine ⟨e', (stores_erased he).mpr ⟨fun hi => ?_, he'⟩,
          h.filed.before hd hr (lt_trans hx hj) he'⟩
        have := slot_inj (lt_trans hj hd) (lt_trans hx (lt_trans hj hd)) hi
        omega) (Nat.zero_le j)
  rw [hstart] at hstopped
  change (fun found => found.map (·.2.value)) <$> (t.erased _ e).lookup hash r.key = _
  rw [RobinHoodHashTable.lookup]
  change (fun found => found.map (·.2.value)) <$>
    (t.erased _ e).seek r.key (t.capacity + 1) (hash r.key % t.capacity) = _
  rw [hstopped]
  rfl

variable [Inhabited K] [Inhabited V]

/-! ### Calls that leave the other keys alone -/

/-- The call returns, and changes `find` for no key but its own, which `erase` makes
unknown. -/
def Framed (hash : K → Nat) (op : Op K V) (t : RobinHoodHashTable K V) : Prop :=
  ∃ t', step hash op t = .ok t' ∧
    match op with
    | .insert key _ => ∀ k ≠ key, t'.find hash k = t.find hash k
    | .erase key => t'.find hash key = .ok none ∧ ∀ k ≠ key, t'.find hash k = t.find hash k
    | .clear => True

/-- An `erase` comes when no probe for another stored key goes through the slot it frees. -/
def Clean (hash : K → Nat) (op : Op K V) (t : RobinHoodHashTable K V) : Prop :=
  match op with
  | .erase key => t.Clear hash key
  | .insert .. => True
  | .clear => True

/-- What a call makes of the map. -/
def Contents.step (op : Op K V) (m : Contents K V) : Contents K V :=
  match op with
  | .insert key value => m.insert key value
  | .erase key => m.erase key
  | .clear => ∅

/-- A clean call refines that of the map. -/
theorem Represents.step (h : Represents hash m t) {op : Op K V} (hclean : Clean hash op t) :
    ∃ t', RobinHoodHashTable.step hash op t = .ok t' ∧ Represents hash (m.step op) t' := by
  cases op with
  | insert key value =>
      obtain ⟨t', hinsert, hrep⟩ := h.insert key value
      exact ⟨t', by rw [RobinHoodHashTable.step, hinsert]; rfl, hrep⟩
  | erase key =>
      cases hk : m.lookup key with
      | none =>
          have hsame : m.erase key = m := by
            refine Finmap.ext_lookup fun k => ?_
            rw [lookup_erase]
            split
            · rename_i heq
              rw [heq, hk]
            · rfl
          refine ⟨t, by rw [RobinHoodHashTable.step, h.erase_absent hk]; rfl, ?_⟩
          rw [Contents.step, hsame]
          exact h
      | some v =>
          obtain ⟨i, e, he, rfl, -, -⟩ := h.stored hk
          exact ⟨_, by rw [RobinHoodHashTable.step, h.erase_stored he]; rfl, h.erased he hclean⟩
  | clear => exact ⟨_, rfl, new_represents h.pos⟩

/-- In a state that represents a map exactly the clean calls are framed. -/
theorem Represents.framed_iff (h : Represents hash m t) (op : Op K V) :
    Framed hash op t ↔ Clean hash op t := by
  constructor
  · rintro ⟨t', hstep, hframe⟩
    cases op with
    | insert key value => trivial
    | clear => trivial
    | erase key =>
        change t.Clear hash key
        by_contra hshadow
        obtain ⟨i, e, k', v, he, rfl, hne, hk', hlost⟩ := h.lost hshadow
        have herased : RobinHoodHashTable.step hash (.erase e.key) t = .ok (t.erased i e) := by
          rw [RobinHoodHashTable.step, h.erase_stored he]
          rfl
        rw [herased] at hstep
        cases hstep
        have hsame := hframe.2 k' hne
        rw [hlost, h.find, hk'] at hsame
        cases hsame
  · intro hclean
    obtain ⟨t', hstep, hrep⟩ := h.step hclean
    refine ⟨t', hstep, ?_⟩
    cases op with
    | insert key value =>
        intro k hk
        rw [hrep.find, h.find, Contents.step, lookup_insert, if_neg hk]
    | erase key =>
        constructor
        · rw [hrep.find, Contents.step, lookup_erase, if_pos rfl]
        · intro k hk
          rw [hrep.find, h.find, Contents.step, lookup_erase, if_neg hk]
    | clear => trivial

/-- Every call of a run leaves the other keys alone exactly if every `erase` in it comes
when no probe for another stored key goes through the slot it frees. -/
theorem run_framed_iff (hash : K → Nat) {n : Nat} (hn : 0 < n) (ops : List (Op K V)) :
    Run.Steps (RobinHoodHashTable.step hash) ops (new n) (Framed hash) ↔
      Run.Steps (RobinHoodHashTable.step hash) ops (new n) (Clean hash) := by
  refine Run.steps_congr (I := fun t => ∃ m, Represents hash m t) ?_ ?_ ⟨∅, new_represents hn⟩
  · rintro op t ⟨m, h⟩
    exact h.framed_iff op
  · rintro op t t' ⟨m, h⟩ hframed hstep
    obtain ⟨t'', hstep', hrep⟩ := h.step ((h.framed_iff op).mp hframed)
    rw [hstep] at hstep'
    cases hstep'
    exact ⟨_, hrep⟩

/-- `"B"` lies behind `"A"` and is erased first. -/
theorem run_framed_iff_sample :
    Run.Steps (RobinHoodHashTable.step String.length)
      [.insert "A" 1, .insert "B" 2, .erase "B", .erase "A"]
      (new 4 : RobinHoodHashTable String Nat) (Framed String.length) := by
  refine (run_framed_iff String.length (by decide) _).mpr ?_
  refine Run.steps_cons.mpr ⟨trivial, fun s hs => ?_⟩
  obtain rfl := Except.ok.inj (hs.symm.trans (by decide +kernel : _ = Except.ok
    (⟨[⟨"", 0, false, 0⟩, ⟨"A", 1, true, 0⟩, ⟨"", 0, false, 0⟩, ⟨"", 0, false, 0⟩], 1, 4⟩ :
      RobinHoodHashTable String Nat)))
  refine Run.steps_cons.mpr ⟨trivial, fun s hs => ?_⟩
  obtain rfl := Except.ok.inj (hs.symm.trans (by decide +kernel : _ = Except.ok
    (⟨[⟨"", 0, false, 0⟩, ⟨"A", 1, true, 0⟩, ⟨"B", 2, true, 1⟩, ⟨"", 0, false, 0⟩], 2, 4⟩ :
      RobinHoodHashTable String Nat)))
  refine Run.steps_cons.mpr ⟨by change Clear _ _ _; decide +kernel, fun s hs => ?_⟩
  obtain rfl := Except.ok.inj (hs.symm.trans (by decide +kernel : _ = Except.ok
    (⟨[⟨"", 0, false, 0⟩, ⟨"A", 1, true, 0⟩, ⟨"B", 2, false, 1⟩, ⟨"", 0, false, 0⟩], 1, 4⟩ :
      RobinHoodHashTable String Nat)))
  exact Run.steps_cons.mpr ⟨by change Clear _ _ _; decide +kernel, fun _ _ => Run.steps_nil⟩

/-- `"B"` lies behind `"A"` and is no longer found once `"A"` is erased. -/
theorem erase_hides_key :
    ¬ Run.Steps (RobinHoodHashTable.step String.length)
      [.insert "A" 1, .insert "B" 2, .erase "A"]
      (new 4 : RobinHoodHashTable String Nat) (Framed String.length) := by
  intro h
  obtain ⟨t', hstep, -, hframe⟩ := h [.insert "A" 1, .insert "B" 2] (.erase "A")
    (List.prefix_refl _)
    ⟨[⟨"", 0, false, 0⟩, ⟨"A", 1, true, 0⟩, ⟨"B", 2, true, 1⟩, ⟨"", 0, false, 0⟩], 2, 4⟩
    (by decide +kernel)
  obtain rfl := Except.ok.inj (hstep.symm.trans (by decide +kernel : _ = Except.ok
    (⟨[⟨"", 0, false, 0⟩, ⟨"A", 1, false, 0⟩, ⟨"B", 2, true, 1⟩, ⟨"", 0, false, 0⟩], 1, 4⟩ :
      RobinHoodHashTable String Nat)))
  exact absurd (hframe "B" (by decide)) (by decide +kernel)

/-! ### Runs without `erase` -/

/-- The value of the last `insert` of the key since the last `clear`. -/
def lastInsert (k : K) (ops : List (Op K V)) : Option V :=
  ops.foldl (fun last op =>
    match op with
    | .insert key value => if k = key then some value else last
    | .erase _ => last
    | .clear => none) none

/-- The map after the calls, none of which is an `erase`. -/
def Contents.after (ops : List (Op K V)) : Contents K V := ops.foldl (fun m op => m.step op) ∅

omit [Inhabited K] [Inhabited V] in
theorem lookup_after (k : K) {ops : List (Op K V)} (hops : ∀ key, Op.erase key ∉ ops) :
    (Contents.after ops).lookup k = lastInsert k ops := by
  induction ops using List.reverseRecOn with
  | nil => rfl
  | append_singleton ops op ih =>
      have hlast := ih fun key hkey => hops key (List.mem_append_left _ hkey)
      rw [Contents.after, lastInsert, List.foldl_append, List.foldl_append, ← Contents.after,
        ← lastInsert]
      cases op with
      | insert key value => exact (lookup_insert _ _ _ _).trans (by rw [hlast]; rfl)
      | erase key =>
          exact absurd (List.mem_append_right ops (List.mem_singleton.mpr rfl)) (hops key)
      | clear => rfl

/-- Calls without `erase` return and keep the table a representation of the map. -/
theorem Represents.run (h : Represents hash m t) {ops : List (Op K V)}
    (hops : ∀ key, Op.erase key ∉ ops) :
    ∃ t', Run.run (RobinHoodHashTable.step hash) ops t = .ok t' ∧
      Represents hash (ops.foldl (fun m op => m.step op) m) t' := by
  induction ops generalizing m t with
  | nil => exact ⟨t, rfl, h⟩
  | cons op ops ih =>
      have hclean : Clean hash op t := by
        cases op with
        | insert key value => trivial
        | erase key => exact absurd List.mem_cons_self (hops key)
        | clear => trivial
      obtain ⟨t', hstep, hrep⟩ := h.step hclean
      rw [Run.run_cons_ok hstep]
      exact ih hrep fun key hkey => hops key (List.mem_cons_of_mem _ hkey)

/-- After any calls of `insert` and `clear` the table is the finite map of what was inserted
last: `find` returns it, `insert` tells whether the key is new, no key is stored twice and
`size` counts the keys. -/
theorem run_finiteMap (hash : K → Nat) {n : Nat} (hn : 0 < n) (ops : List (Op K V))
    (hops : ∀ key, Op.erase key ∉ ops) :
    ∃ t, Run.run (RobinHoodHashTable.step hash) ops (new n) = .ok t ∧
      (∀ k, t.find hash k = .ok (lastInsert k ops)) ∧
      (∀ k v, ∃ t', t.insert hash k v = .ok (decide (lastInsert k ops = none), t')) ∧
      (∀ i j e e', Stores t.table i e → Stores t.table j e' → e.key = e'.key → i = j) ∧
      ∃ keys : Finset K, (∀ k, k ∈ keys ↔ lastInsert k ops ≠ none) ∧ t.size = keys.card := by
  obtain ⟨t, hrun, hrep⟩ := (new_represents hn : Represents hash ∅ (new n)).run hops
  change Represents hash (Contents.after ops) t at hrep
  refine ⟨t, hrun, fun k => ?_, fun k v => ?_, hrep.filed.distinct, _, fun k => ?_, hrep.count⟩
  · rw [hrep.find, lookup_after k hops]
  · obtain ⟨t', hinsert, -⟩ := hrep.insert k v
    exact ⟨t', by rw [hinsert, lookup_after k hops]⟩
  · rw [Finmap.mem_keys, ← lookup_after k hops, Ne, Finmap.lookup_eq_none, not_not]

/-- A table of one slot that grows twice; `"A"` is inserted again. -/
theorem run_finiteMap_sample :
    ∃ t, Run.run (RobinHoodHashTable.step String.length)
        [.insert "A" 1, .insert "B" 2, .insert "A" 3, .insert "CD" 4]
        (new 1 : RobinHoodHashTable String Nat) = .ok t ∧
      t.find String.length "A" = .ok (some 3) ∧ t.size = 3 := by
  obtain ⟨t, hrun, hfind, -, -, keys, hkeys, hsize⟩ :=
    run_finiteMap (n := 1) String.length (by decide)
      [.insert "A" 1, .insert "B" 2, .insert "A" 3, .insert "CD" 4] (by simp)
  refine ⟨t, hrun, hfind "A", ?_⟩
  have hall : keys = {"A", "B", "CD"} := by
    ext k
    rw [hkeys]
    by_cases hA : k = "A" <;> by_cases hB : k = "B" <;> by_cases hC : k = "CD" <;>
      simp_all [lastInsert]
  rw [hsize, hall]
  decide

end HftProject.Week5.RobinHoodHashTable
