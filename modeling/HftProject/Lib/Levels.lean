import Mathlib.Order.Lattice
import Mathlib.Tactic.ByContra
import Std.Data.ExtTreeMap

/-!
Two-level maps: a map from keys to levels, each level a map from ids to values. `put`
stores a value in a level, creating the level; `drop` removes an id from a level and
the level with it when nothing is left.

`Indexes key levels table` says that the levels are the index of a table by a field of
its values: level `k` holds exactly the table's entries whose field is `k`, and there
is no empty level. The table determines its index (`Indexes.unique`), and `put` and
`drop` keep the index in step with the table (`Indexes.insert`, `Indexes.erase`,
`Indexes.move`).
-/

namespace HftProject

open Std

/-! ### Maps -/

/-- A linear order compares keys. -/
instance transCmp_compare {K : Type} [LinearOrder K] : TransCmp (compare : K → K → Ordering) :=
  inferInstance

section Maps

variable {I V W : Type} {ic : I → I → Ordering} [TransCmp ic] [LawfulEqCmp ic] [DecidableEq I]

theorem getElem?_insert_eq (m : ExtTreeMap I V ic) (i j : I) (v : V) :
    (m.insert i v)[j]? = if i = j then some v else m[j]? := by
  simp [ExtTreeMap.getElem?_insert]

theorem getElem?_erase_eq (m : ExtTreeMap I V ic) (i j : I) :
    (m.erase i)[j]? = if i = j then none else m[j]? := by
  simp [ExtTreeMap.getElem?_erase]

/-- Erasing an id that is not there changes nothing. -/
theorem erase_eq_self {m : ExtTreeMap I V ic} {i : I} (h : m[i]? = none) : m.erase i = m := by
  apply ExtTreeMap.ext_getElem?
  intro j
  rw [getElem?_erase_eq]
  split
  · rename_i heq
    rw [← heq, h]
  · rfl

theorem erase_insert (m : ExtTreeMap I V ic) (i : I) (v : V) :
    (m.erase i).insert i v = m.insert i v := by
  apply ExtTreeMap.ext_getElem?
  intro j
  rw [getElem?_insert_eq, getElem?_insert_eq, getElem?_erase_eq]
  split <;> simp_all

theorem insert_insert (m : ExtTreeMap I V ic) (i : I) (v w : V) :
    (m.insert i v).insert i w = m.insert i w := by
  apply ExtTreeMap.ext_getElem?
  intro j
  rw [getElem?_insert_eq, getElem?_insert_eq, getElem?_insert_eq]
  split <;> rfl

theorem insert_self {m : ExtTreeMap I V ic} {i : I} {v : V} (h : m[i]? = some v) :
    m.insert i v = m := by
  apply ExtTreeMap.ext_getElem?
  intro j
  rw [getElem?_insert_eq]
  split
  · rename_i heq
    rw [← heq, h]
  · rfl

omit [DecidableEq I] [LawfulEqCmp ic] in
theorem mem_iff_getElem? {m : ExtTreeMap I V ic} {i : I} : i ∈ m ↔ ∃ v, m[i]? = some v := by
  rw [ExtTreeMap.mem_iff_isSome_getElem?, Option.isSome_iff_exists]

omit [DecidableEq I] [LawfulEqCmp ic] in
theorem ne_of_not_mem {m : ExtTreeMap I V ic} {i j : I} {v : V} (h : i ∉ m) (hj : m[j]? = some v) :
    i ≠ j := by
  rintro rfl
  exact h (mem_iff_getElem?.mpr ⟨v, hj⟩)

omit [DecidableEq I] in
theorem mem_insert_iff {m : ExtTreeMap I V ic} {i j : I} {v : V} :
    j ∈ m.insert i v ↔ i = j ∨ j ∈ m := by
  rw [ExtTreeMap.mem_insert, LawfulEqCmp.compare_eq_iff_eq]

omit [DecidableEq I] in
theorem mem_erase_iff {m : ExtTreeMap I V ic} {i j : I} : j ∈ m.erase i ↔ i ≠ j ∧ j ∈ m := by
  rw [ExtTreeMap.mem_erase, ne_eq, LawfulEqCmp.compare_eq_iff_eq]

theorem getElem?_insertIfNew_new {m : ExtTreeMap I V ic} {i : I} (h : i ∉ m) (j : I) (v : V) :
    (m.insertIfNew i v)[j]? = if i = j then some v else m[j]? := by
  simp [ExtTreeMap.getElem?_insertIfNew, h]

/-- In a map of one value an id that is inserted has it, whether it is new or not, and the others
keep it. -/
theorem insertIfNew_const {m : ExtTreeMap I V ic} {v : V} (h : ∀ (j : I) w, m[j]? = some w → w = v)
    (i : I) :
    (m.insertIfNew i v)[i]? = some v ∧
      (∀ j : I, m[j]? = some v → (m.insertIfNew i v)[j]? = some v) ∧
      ∀ (j : I) w, (m.insertIfNew i v)[j]? = some w → w = v := by
  by_cases hin : i ∈ m
  · have hsame : ∀ j : I, (m.insertIfNew i v)[j]? = m[j]? := by
      intro j
      simp [ExtTreeMap.getElem?_insertIfNew, hin]
    obtain ⟨w, hw⟩ := mem_iff_getElem?.mp hin
    refine ⟨by rw [hsame, hw, h i w hw], fun j hj => by rw [hsame, hj], fun j w hj => ?_⟩
    rw [hsame] at hj
    exact h j w hj
  · refine ⟨?_, fun j hj => ?_, fun j w hj => ?_⟩
    · rw [getElem?_insertIfNew_new hin, if_pos rfl]
    · rw [getElem?_insertIfNew_new hin, if_neg (ne_of_not_mem hin hj), hj]
    · rw [getElem?_insertIfNew_new hin] at hj
      split at hj
      · exact (Option.some.inj hj).symm
      · exact h j w hj

/-- Erasing a new id again. -/
theorem erase_insertIfNew {m : ExtTreeMap I V ic} {i : I} (h : i ∉ m) (v : V) :
    (m.insertIfNew i v).erase i = m := by
  apply ExtTreeMap.ext_getElem?
  intro j
  rw [getElem?_erase_eq, getElem?_insertIfNew_new h]
  by_cases hij : i = j
  · rw [if_pos hij, ← hij, ExtTreeMap.getElem?_eq_none h]
  · rw [if_neg hij, if_neg hij]

/-- A new id adds its value to the values. -/
theorem exists_insertIfNew_new {m : ExtTreeMap I V ic} {i : I} (h : i ∉ m) {v w : V} :
    (∃ j : I, (m.insertIfNew i v)[j]? = some w) ↔ w = v ∨ ∃ j : I, m[j]? = some w := by
  constructor
  · rintro ⟨j, hj⟩
    rw [getElem?_insertIfNew_new h] at hj
    split at hj
    · exact Or.inl (Option.some.inj hj).symm
    · exact Or.inr ⟨j, hj⟩
  · rintro (rfl | ⟨j, hj⟩)
    · exact ⟨i, by rw [getElem?_insertIfNew_new h, if_pos rfl]⟩
    · exact ⟨j, by rw [getElem?_insertIfNew_new h, if_neg (ne_of_not_mem h hj), hj]⟩

/-- Erasing an id loses no value but its own. -/
theorem exists_erase_iff {m : ExtTreeMap I V ic} {i : I} {v w : V} (h : m[i]? = some v)
    (hne : w ≠ v) : (∃ j : I, (m.erase i)[j]? = some w) ↔ ∃ j : I, m[j]? = some w := by
  constructor
  · rintro ⟨j, hj⟩
    rw [getElem?_erase_eq] at hj
    split at hj
    · cases hj
    · exact ⟨j, hj⟩
  · rintro ⟨j, hj⟩
    refine ⟨j, ?_⟩
    rw [getElem?_erase_eq, if_neg, hj]
    rintro rfl
    rw [h] at hj
    exact hne (Option.some.inj hj).symm

omit [DecidableEq I] [LawfulEqCmp ic] in
theorem size_insert_new {m : ExtTreeMap I V ic} {i : I} (h : i ∉ m) (v : V) :
    (m.insert i v).size = m.size + 1 := by
  simp [ExtTreeMap.size_insert, h]

omit [DecidableEq I] [LawfulEqCmp ic] in
theorem size_insert_old {m : ExtTreeMap I V ic} {i : I} (h : i ∈ m) (v : V) :
    (m.insert i v).size = m.size := by
  simp [ExtTreeMap.size_insert, h]

omit [DecidableEq I] [LawfulEqCmp ic] in
theorem size_erase_old {m : ExtTreeMap I V ic} {i : I} (h : i ∈ m) :
    (m.erase i).size + 1 = m.size := by
  have hpos : m.size ≠ 0 := fun hzero =>
    ExtTreeMap.ne_empty_of_mem h (ExtTreeMap.eq_empty_iff_size_eq_zero.mpr hzero)
  simp only [ExtTreeMap.size_erase, ExtTreeMap.contains_iff_mem, h, if_true]
  omega

omit [DecidableEq I] [LawfulEqCmp ic] in
/-- A map that is not empty has an entry. -/
theorem ne_empty_iff {m : ExtTreeMap I V ic} : m ≠ ∅ ↔ ∃ (i : I) (v : V), m[i]? = some v := by
  constructor
  · intro h
    by_contra hnone
    exact h (ExtTreeMap.eq_empty_iff_forall_not_mem.mpr fun i hi =>
      hnone ⟨i, mem_iff_getElem?.mp hi⟩)
  · rintro ⟨i, v, hv⟩ rfl
    simp at hv

end Maps

variable {K I V W : Type} {kc : K → K → Ordering} {ic : I → I → Ordering}

abbrev Levels (K I V : Type) (kc : K → K → Ordering) (ic : I → I → Ordering) : Type :=
  ExtTreeMap K (ExtTreeMap I V ic) kc

namespace Levels

variable [TransCmp kc] [TransCmp ic]

/-- The value under an id in the level of a key. -/
def find? (m : Levels K I V kc ic) (k : K) (i : I) : Option V := m[k]?.bind fun level => level[i]?

/-- `m[k][i] = v`, for a map that creates a level when it is missing. -/
def put (m : Levels K I V kc ic) (k : K) (i : I) (v : V) : Levels K I V kc ic :=
  m.insert k ((m.getD k ∅).insert i v)

/-- Remove an id from a level, and the level if it is empty then. -/
def drop (m : Levels K I V kc ic) (k : K) (i : I) : Levels K I V kc ic :=
  match m[k]? with
  | none => m
  | some level =>
      if (level.erase i).isEmpty then m.erase k else m.insert k (level.erase i)

/-- No level is empty. -/
def NoneEmpty (m : Levels K I V kc ic) : Prop := ∀ (k : K) level, m[k]? = some level → level ≠ ∅

variable {m m' : Levels K I V kc ic}

theorem find?_eq_some {k : K} {i : I} {v : V} :
    m.find? k i = some v ↔ ∃ level, m[k]? = some level ∧ level[i]? = some v := by
  simp [find?, Option.bind_eq_some_iff]

theorem find?_of_level {k : K} {level : ExtTreeMap I V ic} (h : m[k]? = some level) (i : I) :
    m.find? k i = level[i]? := by
  simp [find?, h]

/-- A key has a level exactly if something is stored under it. -/
theorem NoneEmpty.mem_iff (h : m.NoneEmpty) {k : K} :
    k ∈ m ↔ ∃ (i : I) (v : V), m.find? k i = some v := by
  rw [mem_iff_getElem?]
  constructor
  · rintro ⟨level, hlevel⟩
    obtain ⟨i, v, hv⟩ := ne_empty_iff.mp (h k level hlevel)
    exact ⟨i, v, find?_eq_some.mpr ⟨level, hlevel, hv⟩⟩
  · rintro ⟨i, v, hv⟩
    obtain ⟨level, hlevel, -⟩ := find?_eq_some.mp hv
    exact ⟨level, hlevel⟩

variable [LawfulEqCmp kc] [LawfulEqCmp ic]

/-- Two maps without empty levels are equal when they hold the same values. -/
theorem NoneEmpty.ext (h : m.NoneEmpty) (h' : m'.NoneEmpty)
    (same : ∀ k i, m.find? k i = m'.find? k i) : m = m' := by
  have hsome : ∀ {m m' : Levels K I V kc ic}, m.NoneEmpty →
      (∀ k i, m.find? k i = m'.find? k i) →
      ∀ (k : K) level, m[k]? = some level → m'[k]? = some level := by
    intro m m' h same k level hlevel
    obtain ⟨i, v, hv⟩ := ne_empty_iff.mp (h k level hlevel)
    have hfind : m'.find? k i = some v := by
      rw [← same]
      exact find?_eq_some.mpr ⟨level, hlevel, hv⟩
    obtain ⟨level', hlevel', -⟩ := find?_eq_some.mp hfind
    have heq : level' = level := by
      apply ExtTreeMap.ext_getElem?
      intro j
      rw [← find?_of_level hlevel, ← find?_of_level hlevel', same]
    rw [hlevel', heq]
  apply ExtTreeMap.ext_getElem?
  intro k
  cases hk : m[k]? with
  | some level => exact (hsome h same k level hk).symm
  | none =>
      cases hk' : m'[k]? with
      | none => rfl
      | some level =>
          rw [hsome h' (fun k i => (same k i).symm) k level hk'] at hk
          cases hk

variable [DecidableEq K] [DecidableEq I]

theorem find?_put (m : Levels K I V kc ic) (k k' : K) (i i' : I) (v : V) :
    (m.put k i v).find? k' i' = if k = k' ∧ i = i' then some v else m.find? k' i' := by
  by_cases hk : k = k'
  · subst hk
    have hlevel : (m.put k i v)[k]? = some ((m.getD k ∅).insert i v) := by
      rw [put, getElem?_insert_eq, if_pos rfl]
    rw [find?_of_level hlevel, getElem?_insert_eq]
    refine if_congr (by simp) rfl ?_
    rw [find?, ExtTreeMap.getD_eq_getD_getElem?]
    cases m[k]? <;> simp
  · simp [find?, put, getElem?_insert_eq, hk]

omit [DecidableEq I] in
theorem NoneEmpty.put (h : m.NoneEmpty) (k : K) (i : I) (v : V) : (m.put k i v).NoneEmpty := by
  intro k' level hlevel
  rw [Levels.put, getElem?_insert_eq] at hlevel
  split at hlevel
  · cases hlevel
    exact ne_empty_iff.mpr ⟨i, v, by simp⟩
  · exact h k' level hlevel

theorem find?_drop (m : Levels K I V kc ic) (k k' : K) (i i' : I) :
    (m.drop k i).find? k' i' = if k = k' ∧ i = i' then none else m.find? k' i' := by
  unfold drop
  cases hm : m[k]? with
  | none =>
      simp only
      split
      · rename_i heq
        obtain ⟨rfl, rfl⟩ := heq
        simp [find?, hm]
      · rfl
  | some level =>
      have herase : ∀ j, (level.erase i)[j]? = if i = j then none else m.find? k j := fun j => by
        rw [getElem?_erase_eq, find?_of_level hm]
      by_cases hk : k = k'
      · subst hk
        by_cases hempty : (level.erase i).isEmpty
        · have hgone : (m.erase k)[k]? = none := by rw [getElem?_erase_eq, if_pos rfl]
          have hnone := herase i'
          rw [ExtTreeMap.isEmpty_iff.mp hempty, ExtTreeMap.getElem?_empty] at hnone
          simp only [hempty, if_true, find?, hgone, Option.bind_none, true_and]
          exact hnone
        · have hleft : (m.insert k (level.erase i))[k]? = some (level.erase i) := by
            rw [getElem?_insert_eq, if_pos rfl]
          simp only [hempty, if_false, Bool.false_eq_true, true_and]
          rw [find?_of_level hleft, herase]
      · by_cases hempty : (level.erase i).isEmpty <;>
          simp [hempty, find?, getElem?_erase_eq, getElem?_insert_eq, hk]

omit [DecidableEq I] [LawfulEqCmp ic] in
theorem NoneEmpty.drop (h : m.NoneEmpty) (k : K) (i : I) : (m.drop k i).NoneEmpty := by
  intro k' level hlevel
  unfold Levels.drop at hlevel
  cases hm : m[k]? with
  | none =>
      simp only [hm] at hlevel
      exact h k' level hlevel
  | some old =>
      simp only [hm] at hlevel
      by_cases hempty : (old.erase i).isEmpty
      · rw [if_pos hempty, getElem?_erase_eq] at hlevel
        split at hlevel
        · cases hlevel
        · exact h k' level hlevel
      · rw [if_neg hempty, getElem?_insert_eq] at hlevel
        split at hlevel
        · cases hlevel
          exact fun heq => hempty (ExtTreeMap.isEmpty_iff.mpr heq)
        · exact h k' level hlevel

/-! ### Levels in the order of their keys -/

omit [TransCmp kc] [LawfulEqCmp kc] [DecidableEq K] [DecidableEq I] [TransCmp ic]
  [LawfulEqCmp ic] in
/-- Of entries in order, the first one that is wanted comes before the others that are. -/
theorem first_of_pairwise {R : K → K → Prop} {entries : List (K × W)}
    (hsorted : entries.Pairwise fun d e => R d.1 e.1) {p : K × W → Bool} {e : K × W}
    (hfirst : entries.find? p = some e) :
    ∀ d ∈ entries, p d = true → d = e ∨ R e.1 d.1 := by
  intro d hd hpd
  obtain ⟨-, front, back, rfl, hfront⟩ := List.find?_eq_some_iff_append.mp hfirst
  rcases List.mem_append.mp hd with hd | hd
  · have hnot := hfront d hd
    rw [hpd] at hnot
    cases hnot
  · rcases List.mem_cons.mp hd with rfl | hd
    · exact Or.inl rfl
    · have hback := (List.pairwise_append.mp hsorted).2.1
      exact Or.inr ((List.pairwise_cons.mp hback).1 d hd)

omit [TransCmp kc] [LawfulEqCmp kc] [DecidableEq K] [DecidableEq I] in
/-- The entries of a map over a linear order are in the order of their keys. -/
theorem toList_sorted [LinearOrder K] (m : ExtTreeMap K W compare) :
    m.toList.Pairwise fun d e => d.1 < e.1 :=
  m.ordered_keys_toList.imp fun h => compare_lt_iff_lt.mp h

/-! ### Mapped values -/

/-- Apply a function to every value. -/
def mapValues (f : V → W) (m : Levels K I V kc ic) : Levels K I W kc ic :=
  m.map fun _ level => level.map fun _ v => f v

omit [DecidableEq K] [DecidableEq I] [TransCmp ic] [LawfulEqCmp ic] in
theorem getElem?_mapValues (f : V → W) (m : Levels K I V kc ic) (k : K) :
    (m.mapValues f)[k]? = m[k]?.map fun level => level.map fun _ v => f v := by
  rw [mapValues, ExtTreeMap.getElem?_map]

omit [DecidableEq K] [DecidableEq I] in
theorem find?_mapValues (f : V → W) (m : Levels K I V kc ic) (k : K) (i : I) :
    (m.mapValues f).find? k i = (m.find? k i).map f := by
  rw [find?, getElem?_mapValues, find?]
  cases m[k]? with
  | none => rfl
  | some level => simp [ExtTreeMap.getElem?_map]

omit [DecidableEq K] [DecidableEq I] [LawfulEqCmp ic] in
theorem NoneEmpty.mapValues (h : m.NoneEmpty) (f : V → W) : (m.mapValues f).NoneEmpty := by
  intro k level hlevel
  rw [getElem?_mapValues] at hlevel
  obtain ⟨old, hold, rfl⟩ := Option.map_eq_some_iff.mp hlevel
  intro hempty
  exact h k old hold (ExtTreeMap.map_eq_empty_iff.mp hempty)

omit [LawfulEqCmp kc] [DecidableEq K] [DecidableEq I] [TransCmp ic] [LawfulEqCmp ic] in
theorem toList_mapValues (f : V → W) (m : Levels K I V kc ic) :
    (m.mapValues f).toList = m.toList.map fun e => (e.1, e.2.map fun _ v => f v) := by
  rw [mapValues, ExtTreeMap.toList_map]

/-! ### Indexes -/

/-- The levels are the index of the table by a field of its values. -/
structure Indexes (key : V → Option K) (levels : Levels K I V kc ic) (table : ExtTreeMap I V ic) :
    Prop where
  noneEmpty : levels.NoneEmpty
  find?_iff : ∀ k i v, levels.find? k i = some v ↔ table[i]? = some v ∧ key v = some k

variable {key key' : V → Option K} {levels levels' : Levels K I V kc ic}
  {table : ExtTreeMap I V ic}

omit [LawfulEqCmp kc] [DecidableEq K] [DecidableEq I] [LawfulEqCmp ic] in
theorem Indexes.empty : Indexes key (∅ : Levels K I V kc ic) ∅ where
  noneEmpty := fun k level h => by simp at h
  find?_iff := fun k i v => by simp [find?]

omit [LawfulEqCmp kc] [DecidableEq K] [DecidableEq I] [LawfulEqCmp ic] in
/-- Only the keys of the table's entries matter. -/
theorem Indexes.congr (h : Indexes key levels table)
    (same : ∀ (i : I) v, table[i]? = some v → key' v = key v) : Indexes key' levels table where
  noneEmpty := h.noneEmpty
  find?_iff := fun k i v => by
    rw [h.find?_iff]
    apply and_congr_right
    intro hv
    rw [same i v hv]

omit [LawfulEqCmp kc] [DecidableEq I] [LawfulEqCmp ic] in
/-- Looking in a level is looking in the table. -/
theorem Indexes.find?_eq (h : Indexes key levels table) (k : K) (i : I) :
    levels.find? k i = table[i]?.filter fun v => key v = some k := by
  apply Option.ext
  intro v
  rw [h.find?_iff, Option.filter_eq_some_iff, decide_eq_true_iff]

omit [DecidableEq K] [DecidableEq I] in
/-- A table has one index. -/
theorem Indexes.unique (h : Indexes key levels table) (h' : Indexes key levels' table) :
    levels = levels' := by
  apply h.noneEmpty.ext h'.noneEmpty
  intro k i
  apply Option.ext
  intro v
  rw [h.find?_iff, h'.find?_iff]

/-- A new entry. -/
theorem Indexes.insert (h : Indexes key levels table) {i : I} (new : i ∉ table) {v : V} {k : K}
    (hk : key v = some k) : Indexes key (levels.put k i v) (table.insert i v) where
  noneEmpty := h.noneEmpty.put _ _ _
  find?_iff := fun k' j w => by
    rw [find?_put, getElem?_insert_eq]
    by_cases hij : i = j
    · subst hij
      have hnone : ¬ levels.find? k' i = some w := fun hw =>
        new (mem_iff_getElem?.mpr ⟨w, ((h.find?_iff k' i w).mp hw).1⟩)
      by_cases hkk : k = k'
      · subst hkk
        simp only [and_self, if_true, Option.some.injEq]
        exact ⟨fun heq => ⟨heq, by rw [← heq, hk]⟩, fun heq => heq.1⟩
      · simp only [hkk, false_and, if_false, if_true, hnone, false_iff, not_and,
          Option.some.injEq]
        rintro rfl hw
        rw [hk] at hw
        exact hkk (Option.some.inj hw)
    · simp [hij, h.find?_iff]

/-- An entry that goes. -/
theorem Indexes.erase (h : Indexes key levels table) {i : I} {v : V} (hv : table[i]? = some v)
    {k : K} (hk : key v = some k) : Indexes key (levels.drop k i) (table.erase i) where
  noneEmpty := h.noneEmpty.drop _ _
  find?_iff := fun k' j w => by
    rw [find?_drop, getElem?_erase_eq]
    by_cases hij : i = j
    · subst hij
      by_cases hkk : k = k'
      · simp [hkk]
      · have hnone : ¬ levels.find? k' i = some w := fun hw => by
          obtain ⟨hw, hkw⟩ := (h.find?_iff k' i w).mp hw
          rw [hv] at hw
          cases hw
          rw [hk] at hkw
          exact hkk (Option.some.inj hkw)
        simp [hkk, hnone]
    · simp [hij, h.find?_iff]

/-- An entry that changes: it leaves its level and enters the level of its new key. The
new key may be that of a value changed in place, as long as the others keep theirs. -/
theorem Indexes.move (h : Indexes key levels table) {i : I} {v w : V} (hv : table[i]? = some v)
    {k k' : K} (hk : key v = some k) (hk' : key' w = some k')
    (same : ∀ (j : I) u, j ≠ i → table[j]? = some u → key' u = key u) :
    Indexes key' ((levels.drop k i).put k' i w) (table.insert i w) := by
  have hnew : i ∉ table.erase i := by simp
  have hothers : Indexes key' (levels.drop k i) (table.erase i) := by
    apply (h.erase hv hk).congr
    intro j u hu
    rw [getElem?_erase_eq] at hu
    split at hu
    · cases hu
    · rename_i hne
      exact same j u (fun heq => hne heq.symm) hu
  have hmove := hothers.insert hnew hk'
  rwa [erase_insert] at hmove

end Levels

end HftProject
