import HftProject.Week5.RobinHoodInsertion

/-!
`RobinHoodHashTable` as a finite map. `Represents hash m t` says that the table is filed,
holds the map `m` and counts its keys. `insert` and `clear` refine the operations of the
map; `rehash` is an insertion of all entries into an empty table. `erase` refines the
map's as long as no other key is reached through the slot that becomes free (`Clear`),
and where one is, that key is lost.
-/

namespace HftProject.Week5.RobinHoodHashTable

open Probing

variable {K V : Type} [DecidableEq K] {hash : K → Nat}

/-- The abstract table. -/
abbrev Contents (K V : Type) : Type := Finmap fun _ : K => V

structure Represents (hash : K → Nat) (m : Contents K V) (t : RobinHoodHashTable K V) : Prop where
  filed : Filed hash t.capacity t.table
  pos : 0 < t.capacity
  contents : ∀ k v, Has t.table k v ↔ m.lookup k = some v
  occupied : t.table.countP (·.occupied) = t.numElements
  count : t.numElements = m.keys.card

variable {m : Contents K V} {t : RobinHoodHashTable K V}

/-! ### The keys of a map -/

omit [DecidableEq K] in
theorem keys_insert [DecidableEq K] (m : Contents K V) (k : K) (v : V) :
    (m.insert k v).keys = Insert.insert k m.keys := by
  ext k'
  rw [Finmap.mem_keys, Finmap.mem_insert, Finset.mem_insert, Finmap.mem_keys]

theorem lookup_insert (m : Contents K V) (k k' : K) (v : V) :
    (m.insert k v).lookup k' = if k' = k then some v else m.lookup k' := by
  by_cases hk : k' = k
  · rw [hk, if_pos rfl, Finmap.lookup_insert]
  · rw [if_neg hk, Finmap.lookup_insert_of_ne m hk]

theorem lookup_erase (m : Contents K V) (k k' : K) :
    (m.erase k).lookup k' = if k' = k then none else m.lookup k' := by
  by_cases hk : k' = k
  · rw [hk, if_pos rfl, Finmap.lookup_erase]
  · rw [if_neg hk, Finmap.lookup_erase_ne hk]

/-! ### Looking up -/

/-- A key of the map has a slot, and `lookup` finds it. -/
theorem Represents.stored (h : Represents hash m t) {k : K} {v : V} (hk : m.lookup k = some v) :
    ∃ i e, Stores t.table i e ∧ e.key = k ∧ e.value = v ∧ t.lookup hash k = .ok (some (i, e)) := by
  obtain ⟨i, e, he, rfl, rfl⟩ := (h.contents k v).mpr hk
  exact ⟨i, e, he, rfl, rfl, h.filed.lookup_stored he⟩

theorem Represents.absent (h : Represents hash m t) {k : K} (hk : m.lookup k = none) :
    ∀ i e, Stores t.table i e → e.key ≠ k := by
  rintro i e he rfl
  have hsome := (h.contents e.key e.value).mp ⟨i, e, he, rfl, rfl⟩
  rw [hk] at hsome
  cases hsome

/-- `find` reads the map. -/
theorem Represents.find (h : Represents hash m t) (k : K) : t.find hash k = .ok (m.lookup k) := by
  cases hk : m.lookup k with
  | none =>
      rw [RobinHoodHashTable.find, h.filed.lookup_absent h.pos (h.absent hk)]
      rfl
  | some v =>
      obtain ⟨i, e, -, -, rfl, hlookup⟩ := h.stored hk
      rw [RobinHoodHashTable.find, hlookup]
      rfl

/-! ### Inserting -/

/-- A table that is not full has a slot that is not occupied. -/
theorem Represents.exists_free (h : Represents hash m t) (hlt : t.numElements < t.capacity) :
    ∃ b < t.capacity, ¬ ∃ e, Stores t.table b e := by
  rw [← h.filed.length]
  refine exists_unoccupied ?_
  rwa [h.occupied, h.filed.length]

/-- `insert` after the load check. -/
theorem Represents.place (h : Represents hash m t) (hlt : t.numElements < t.capacity) (k : K)
    (v : V) :
    ∃ T, RobinHoodHashTable.place t.capacity k v t.capacity (hash k % t.capacity) 0
        ⟨k, v, true, 0⟩ t.table = .ok (decide (m.lookup k = none), T) ∧
      Represents hash (m.insert k v)
        { t with
          table := T
          numElements := if decide (m.lookup k = none) then t.numElements + 1
            else t.numElements } := by
  have hstart := slot_zero (n := t.capacity) (Nat.mod_lt (hash k) h.pos)
  cases hk : m.lookup k with
  | some v' =>
      obtain ⟨i, e, he, rfl, -, -⟩ := h.stored hk
      obtain ⟨d, hd, rfl, hpath⟩ := h.filed.reach i e he
      have hplace : RobinHoodHashTable.place t.capacity e.key v t.capacity
          (slot t.capacity (hash e.key % t.capacity) 0) 0 ⟨e.key, v, true, 0⟩ t.table = _ :=
        h.filed.place_stored hd he hpath v (Nat.zero_le _) (by omega)
      rw [hstart] at hplace
      refine ⟨_, hplace, h.filed.set_value he v, h.pos, fun k' v'' => ?_, ?_, ?_⟩
      · rw [h.filed.has_set_value he, lookup_insert, h.contents]
        by_cases hkey : k' = e.key
        · rw [if_pos hkey, if_pos hkey, Option.some.injEq]
          exact eq_comm
        · rw [if_neg hkey, if_neg hkey]
      · have hget := List.getElem?_eq_some_iff.mp he.1
        change List.countP _ (t.table.set _ _) = t.numElements
        rw [List.countP_set he.lt, hget.2, if_pos he.2, ← h.occupied]
        have hcount : 0 < t.table.countP (·.occupied) :=
          List.countP_pos_iff.mpr ⟨e, List.mem_of_getElem? he.1, he.2⟩
        omega
      · have hold : e.key ∈ m.keys := Finmap.mem_keys.mpr (Finmap.mem_of_lookup_eq_some hk)
        change t.numElements = _
        rw [keys_insert, Finset.insert_eq_of_mem hold, h.count]
  | none =>
      obtain ⟨b, hb, hfree⟩ := h.exists_free hlt
      obtain ⟨last, hlast, hnot, hfull⟩ :=
        exists_end (p := fun b => ∃ e, Stores t.table b e) (Nat.mod_lt (hash k) h.pos) hb hfree
      have hstarting : Carrying hash t.capacity t.table k v 0 t.table ⟨k, v, true, 0⟩ :=
        .start h.filed (h.absent hk)
      have hfuel : last - 0 < t.capacity := by omega
      obtain ⟨T, hplace, hplaced⟩ :=
        hstarting.place hlast (fun e he => hnot ⟨e, he⟩) hfull (Nat.zero_le _) hfuel
      rw [hstart] at hplace
      refine ⟨T, hplace, hplaced.filed, h.pos, fun k' v' => ?_, ?_, ?_⟩
      · rw [hplaced.contents, lookup_insert, h.contents]
        by_cases hkey : k' = k
        · rw [hkey, hk, if_pos rfl]
          simp
        · rw [if_neg hkey]
          exact or_iff_left fun heq => hkey heq.1.symm
      · change T.countP _ = t.numElements + 1
        rw [hplaced.count, h.occupied]
      · have hnew : k ∉ m.keys := by
          rw [Finmap.mem_keys, ← Finmap.lookup_eq_none]
          exact hk
        change t.numElements + 1 = _
        rw [keys_insert, Finset.card_insert_of_notMem hnew, h.count]

variable [Inhabited K] [Inhabited V]

omit [Inhabited K] [Inhabited V] in
theorem Represents.not_full (h : Represents hash m t) (hlight : ¬ t.Overloaded) :
    t.numElements < t.capacity := by
  have hpos := h.pos
  unfold Overloaded at hlight
  omega

/-- `insert` into a table that need not grow. -/
theorem Represents.insertWithin_light (h : Represents hash m t) (hlight : ¬ t.Overloaded)
    (depth : Nat) (k : K) (v : V) :
    ∃ t', insertWithin hash (depth + 1) k v t = .ok (decide (m.lookup k = none), t') ∧
      Represents hash (m.insert k v) t' ∧ t'.capacity = t.capacity := by
  obtain ⟨T, hplace, hrep⟩ := h.place (h.not_full hlight) k v
  refine ⟨_, ?_, hrep, rfl⟩
  rw [insertWithin, if_neg hlight]
  change (do let p ← RobinHoodHashTable.place t.capacity k v t.capacity (hash k % t.capacity) 0
                ⟨k, v, true, 0⟩ t.table; _ : Except Fault _) = _
  rw [hplace]
  rfl

omit [DecidableEq K] in
theorem new_represents [DecidableEq K] {n : Nat} (hn : 0 < n) :
    Represents hash (∅ : Contents K V) (new n) := by
  have hnone : ∀ i e, ¬ Stores (new n : RobinHoodHashTable K V).table i e := by
    rintro i e ⟨hget, hocc⟩
    rw [new, List.getElem?_replicate] at hget
    split at hget
    · cases hget
      cases hocc
    · cases hget
  refine ⟨⟨List.length_replicate, ?_, ?_⟩, hn, fun k v => ?_, ?_, ?_⟩
  · exact fun i j e e' he => absurd he (hnone i e)
  · exact fun i e he => absurd he (hnone i e)
  · constructor
    · rintro ⟨i, e, he, -⟩
      exact absurd he (hnone i e)
    · intro hk
      simp at hk
  · simp [new, List.countP_replicate]
  · simp [new]

/-! ### Rehashing -/

/-- The map after the occupied ones of some entries were inserted. -/
def insertEntries (m : Contents K V) (entries : List (Entry K V)) : Contents K V :=
  entries.foldl (fun m e => if e.occupied then m.insert e.key e.value else m) m

/-- No two of the entries that are occupied have the same key. -/
def KeysDiffer (entries : List (Entry K V)) : Prop :=
  entries.Pairwise fun e e' => e.occupied = true → e'.occupied = true → e.key ≠ e'.key

omit [DecidableEq K] [Inhabited K] [Inhabited V] in
theorem Filed.keysDiffer {n : Nat} {T : List (Entry K V)} (h : Filed hash n T) : KeysDiffer T := by
  rw [KeysDiffer, List.pairwise_iff_getElem]
  intro i j hi hj hij hocc hocc' hkey
  have heq := h.distinct i j _ _ ⟨List.getElem?_eq_getElem hi, hocc⟩
    ⟨List.getElem?_eq_getElem hj, hocc'⟩ hkey
  omega

omit [Inhabited K] [Inhabited V] in
theorem lookup_insertEntries {entries : List (Entry K V)} (hdiffer : KeysDiffer entries)
    (m : Contents K V) (hnew : ∀ e ∈ entries, e.occupied = true → m.lookup e.key = none) (k : K)
    (v : V) : (insertEntries m entries).lookup k = some v ↔
      (∃ e ∈ entries, e.occupied = true ∧ e.key = k ∧ e.value = v) ∨ m.lookup k = some v := by
  induction entries generalizing m with
  | nil => simp [insertEntries]
  | cons e entries ih =>
      obtain ⟨hhead, htail⟩ := List.pairwise_cons.mp hdiffer
      have hrest : ∀ e' ∈ entries, e'.occupied = true → m.lookup e'.key = none :=
        fun e' he' => hnew e' (List.mem_cons_of_mem _ he')
      by_cases hocc : e.occupied = true
      · have hstep : insertEntries m (e :: entries) =
            insertEntries (m.insert e.key e.value) entries := by
          rw [insertEntries, List.foldl_cons, if_pos hocc]
          rfl
        rw [hstep, ih htail _ fun e' he' hocc' => by
          rw [lookup_insert, if_neg fun hkey => hhead e' he' hocc hocc' hkey.symm]
          exact hrest e' he' hocc', lookup_insert]
        by_cases hk : k = e.key
        · subst hk
          simp [hocc, hnew e List.mem_cons_self hocc, or_comm]
        · simp [hk, hocc, Ne.symm hk]
      · have hstep : insertEntries m (e :: entries) = insertEntries m entries := by
          rw [insertEntries, List.foldl_cons, if_neg hocc]
          rfl
        rw [hstep, ih htail m hrest]
        simp [hocc]

/-- The fold of `rehash`, over a table with room for all entries. -/
theorem Represents.rehash_fold {entries : List (Entry K V)} (h : Represents hash m t) (depth : Nat)
    (hroom : 10 * (t.numElements + entries.countP (·.occupied)) ≤ 7 * t.capacity + 10) :
    ∃ t', entries.foldlM (fun t entry =>
        if entry.occupied then
          (·.2) <$> insertWithin hash (depth + 1) entry.key entry.value t
        else .ok t) t = .ok t' ∧
      Represents hash (insertEntries m entries) t' ∧ t'.capacity = t.capacity := by
  induction entries generalizing m t with
  | nil => exact ⟨t, rfl, h, rfl⟩
  | cons e entries ih =>
      rw [List.foldlM_cons, insertEntries, List.foldl_cons]
      by_cases hocc : e.occupied = true
      · rw [if_pos hocc, if_pos hocc]
        have hcons : (e :: entries).countP (·.occupied) = entries.countP (·.occupied) + 1 :=
          List.countP_cons_of_pos hocc
        rw [hcons] at hroom
        have hlight : ¬ t.Overloaded := by
          unfold Overloaded
          omega
        obtain ⟨t', hinsert, hrep, hcap⟩ := h.insertWithin_light hlight depth e.key e.value
        have hsize : t'.numElements ≤ t.numElements + 1 := by
          rw [hrep.count, h.count, keys_insert]
          exact Finset.card_insert_le _ _
        obtain ⟨t'', hfold, hrep', hcap'⟩ := ih hrep (by rw [hcap]; omega)
        refine ⟨t'', ?_, hrep', hcap'.trans hcap⟩
        rw [hinsert]
        exact hfold
      · rw [if_neg hocc, if_neg hocc]
        have hcons : (e :: entries).countP (·.occupied) = entries.countP (·.occupied) :=
          List.countP_cons_of_neg hocc
        rw [hcons] at hroom
        exact ih h hroom

omit [Inhabited K] [Inhabited V] in
/-- A table never counts more entries than it has slots. -/
theorem Represents.size_le (h : Represents hash m t) : t.numElements ≤ t.capacity := by
  rw [← h.occupied, ← h.filed.length]
  exact List.countP_le_length

/-- The empty table of twice the capacity takes all entries. -/
theorem Represents.doubled (h : Represents hash m t) :
    Represents hash (∅ : Contents K V) (new (t.capacity * 2)) ∧
      10 * ((new (t.capacity * 2) : RobinHoodHashTable K V).numElements +
        t.table.countP (·.occupied)) ≤ 7 * (t.capacity * 2) + 10 := by
  have hpos := h.pos
  have hsize := h.size_le
  refine ⟨new_represents (by omega), ?_⟩
  rw [h.occupied]
  change 10 * (0 + t.numElements) ≤ 7 * (t.capacity * 2) + 10
  omega

/-- `rehash` keeps the map and makes room. -/
theorem Represents.rehash (h : Represents hash m t) (depth : Nat) :
    ∃ t', RobinHoodHashTable.rehash (insertWithin hash (depth + 1)) t = .ok t' ∧
      Represents hash m t' ∧ ¬ t'.Overloaded := by
  have hpos := h.pos
  have hsize := h.size_le
  obtain ⟨hempty, hfits⟩ := h.doubled
  obtain ⟨t', hfold, hrep, hcap⟩ := hempty.rehash_fold depth hfits
  have hmap : insertEntries ∅ t.table = m := by
    refine Finmap.ext_lookup fun k => Option.ext fun v => ?_
    rw [lookup_insertEntries h.filed.keysDiffer ∅ (fun _ _ _ => Finmap.lookup_empty _),
      ← h.contents]
    simp only [Finmap.lookup_empty, reduceCtorEq, or_false]
    constructor
    · rintro ⟨e, he, hocc, hk, hv⟩
      obtain ⟨i, hi⟩ := List.getElem?_of_mem he
      exact ⟨i, e, ⟨hi, hocc⟩, hk, hv⟩
    · rintro ⟨i, e, ⟨hi, hocc⟩, hk, hv⟩
      exact ⟨e, List.mem_of_getElem? hi, hocc, hk, hv⟩
  rw [hmap] at hrep
  refine ⟨t', hfold, hrep, ?_⟩
  have hcount : t'.numElements = t.numElements := by rw [hrep.count, h.count]
  unfold Overloaded
  rw [hcap, hcount]
  change ¬ 7 * (t.capacity * 2) < 10 * t.numElements
  omega

/-- `insert` stores the value and tells whether the key is new. -/
theorem Represents.insert (h : Represents hash m t) (k : K) (v : V) :
    ∃ t', t.insert hash k v = .ok (decide (m.lookup k = none), t') ∧
      Represents hash (m.insert k v) t' := by
  by_cases hover : t.Overloaded
  · obtain ⟨grown, hrehash, hrep, hlight⟩ := h.rehash 0
    obtain ⟨t', hinsert, hrep', -⟩ := hrep.insertWithin_light hlight 1 k v
    refine ⟨t', ?_, hrep'⟩
    rw [← hinsert, RobinHoodHashTable.insert, insertWithin, insertWithin, if_pos hover,
      if_neg hlight]
    rw [hrehash]
  · obtain ⟨t', hinsert, hrep, -⟩ := h.insertWithin_light hover 1 k v
    exact ⟨t', hinsert, hrep⟩

end HftProject.Week5.RobinHoodHashTable
