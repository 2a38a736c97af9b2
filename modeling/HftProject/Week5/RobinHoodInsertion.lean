import HftProject.Week5.RobinHoodHashTable

/-!
What the loops of `RobinHoodHashTable` do to a table that is `Filed`: no key twice, and
from the home of every key up to its slot all slots are occupied, with stored distances
that are at least the key's own distance there. So a probe for a stored key is neither
stopped nor tempted to swap before it gets there.

`Carrying` is the invariant of the loop of `insert` after any number of swaps. The entry
carried is overestimated like the residents are: the distance it is given is that of the
key `insert` was called with, which has come a longer way.
-/

namespace HftProject.Week5.RobinHoodHashTable

open Probing

variable {K V : Type} {hash : K → Nat} {n : Nat} {T T' : List (Entry K V)}

/-! ### Slots and entries -/

/-- Slot `i` is occupied by `e`. -/
def Stores (T : List (Entry K V)) (i : Nat) (e : Entry K V) : Prop :=
  T[i]? = some e ∧ e.occupied = true

/-- Slot `b` is occupied, at a stored distance of at least `j`. -/
def Full (T : List (Entry K V)) (b j : Nat) : Prop := ∃ e, Stores T b e ∧ j ≤ e.probeDistance

/-- Some slot stores the value under the key. -/
def Has (T : List (Entry K V)) (key : K) (value : V) : Prop :=
  ∃ i e, Stores T i e ∧ e.key = key ∧ e.value = value

theorem Stores.lt {i : Nat} {e : Entry K V} (h : Stores T i e) : i < T.length :=
  (List.getElem?_eq_some_iff.mp h.1).1

theorem Stores.unique {i : Nat} {e e' : Entry K V} (h : Stores T i e) (h' : Stores T i e') :
    e = e' := Option.some.inj (h.1.symm.trans h'.1)

theorem stores_set {i j : Nat} {e e' : Entry K V} (hi : i < T.length) :
    Stores (T.set i e) j e' ↔ if i = j then e' = e ∧ e.occupied = true else Stores T j e' := by
  unfold Stores
  rw [List.getElem?_set]
  by_cases hij : i = j
  · subst hij
    rw [if_pos rfl, if_pos hi, if_pos rfl]
    constructor
    · rintro ⟨heq, hocc⟩
      cases heq
      exact ⟨rfl, hocc⟩
    · rintro ⟨rfl, hocc⟩
      exact ⟨rfl, hocc⟩
  · rw [if_neg hij, if_neg hij]

theorem stores_set_self {i : Nat} {e : Entry K V} (hi : i < T.length) (hocc : e.occupied = true) :
    Stores (T.set i e) i e := by
  rw [stores_set hi, if_pos rfl]
  exact ⟨rfl, hocc⟩

/-! ### An entry in the place of another -/

section Exchange

variable {i : Nat} {e resident : Entry K V}

/-- Storing in an occupied slot leaves the occupied slots as they are. -/
theorem map_occupied_set (hres : Stores T i resident) (hocc : e.occupied = true) :
    (T.set i e).map (·.occupied) = T.map (·.occupied) := by
  rw [List.map_set, hocc]
  have hget : (T.map (·.occupied))[i]? = some true := by
    rw [List.getElem?_map, hres.1, Option.map_some, hres.2]
  obtain ⟨hlt, hval⟩ := List.getElem?_eq_some_iff.mp hget
  rw [← hval, List.set_getElem_self]

theorem countP_occupied_congr (h : T'.map (·.occupied) = T.map (·.occupied)) :
    T'.countP (·.occupied) = T.countP (·.occupied) := by
  have hcount := congrArg (List.countP id) h
  rwa [List.countP_map, List.countP_map] at hcount

theorem exists_stores_exchange (hres : Stores T i resident) (hocc : e.occupied = true) (j : Nat) :
    (∃ e', Stores (T.set i e) j e') ↔ ∃ e', Stores T j e' := by
  by_cases hij : i = j
  · subst hij
    exact ⟨fun _ => ⟨resident, hres⟩, fun _ => ⟨e, stores_set_self hres.lt hocc⟩⟩
  · simp only [stores_set hres.lt, if_neg hij]

/-- The table and the entry in hand hold the same after the exchange as before. -/
theorem has_exchange (hres : Stores T i resident) (hocc : e.occupied = true) {k : K} {v : V} :
    (Has (T.set i e) k v ∨ (resident.key = k ∧ resident.value = v)) ↔
      (Has T k v ∨ (e.key = k ∧ e.value = v)) := by
  have hlt := hres.lt
  constructor
  · rintro (⟨j, e', he, hk, hv⟩ | ⟨hk, hv⟩)
    · rw [stores_set hlt] at he
      split at he
      · rw [he.1] at hk hv
        exact .inr ⟨hk, hv⟩
      · exact .inl ⟨j, e', he, hk, hv⟩
    · exact .inl ⟨i, resident, hres, hk, hv⟩
  · rintro (⟨j, e', he, hk, hv⟩ | ⟨hk, hv⟩)
    · by_cases hij : i = j
      · subst hij
        rw [he.unique hres] at hk hv
        exact .inr ⟨hk, hv⟩
      · exact .inl ⟨j, e', by rwa [stores_set hlt, if_neg hij], hk, hv⟩
    · exact .inl ⟨i, e, stores_set_self hlt hocc, hk, hv⟩

end Exchange

/-- Fewer occupied slots than slots: one is not occupied. -/
theorem exists_unoccupied (h : T.countP (·.occupied) < T.length) :
    ∃ b < T.length, ¬ ∃ e, Stores T b e := by
  by_contra hnone
  have hall : ∀ e ∈ T, e.occupied = true := by
    intro e he
    obtain ⟨b, hb⟩ := List.getElem?_of_mem he
    by_contra hocc
    refine hnone ⟨b, (List.getElem?_eq_some_iff.mp hb).1, ?_⟩
    rintro ⟨e', he'⟩
    have heq : e' = e := Option.some.inj (he'.1.symm.trans hb)
    exact hocc (heq ▸ he'.2)
  rw [List.countP_eq_length.mpr hall] at h
  exact absurd h (lt_irrefl _)

/-- Occupied slots stay occupied and their stored distances do not fall. -/
def Raised (T T' : List (Entry K V)) : Prop :=
  ∀ i e, Stores T i e → ∃ e', Stores T' i e' ∧ e.probeDistance ≤ e'.probeDistance

theorem Raised.full (h : Raised T T') {b j : Nat} (hfull : Full T b j) : Full T' b j := by
  obtain ⟨e, he, hj⟩ := hfull
  obtain ⟨e', he', hle⟩ := h b e he
  exact ⟨e', he', le_trans hj hle⟩

/-- Storing in a slot that is not occupied, or at a greater distance. -/
theorem raised_set {i : Nat} {e : Entry K V} (hi : i < T.length) (hocc : e.occupied = true)
    (hle : ∀ e', Stores T i e' → e'.probeDistance ≤ e.probeDistance) : Raised T (T.set i e) := by
  intro j e' he'
  by_cases hij : i = j
  · subst hij
    exact ⟨e, stores_set_self hi hocc, hle e' he'⟩
  · exact ⟨e', by rwa [stores_set hi, if_neg hij], le_refl _⟩

/-- Every key is stored once and within reach of a probe. -/
structure Filed (hash : K → Nat) (n : Nat) (T : List (Entry K V)) : Prop where
  length : T.length = n
  distinct : ∀ i j e e', Stores T i e → Stores T j e' → e.key = e'.key → i = j
  reach : ∀ i e, Stores T i e → ∃ d < n, slot n (hash e.key % n) d = i ∧
    Path (Full T) n (hash e.key % n) (d + 1)

/-- A filed key stands where no slot on the way holds it. -/
theorem Filed.before (h : Filed hash n T) {d : Nat} {e : Entry K V} (hd : d < n)
    (he : Stores T (slot n (hash e.key % n) d) e) {j : Nat} (hj : j < d) {e' : Entry K V}
    (he' : Stores T (slot n (hash e.key % n) j) e') : e'.key ≠ e.key := by
  intro hkey
  have hslot := h.distinct _ _ _ _ he' he hkey
  have := slot_inj (lt_trans hj hd) hd hslot
  omega

/-! ### Searching -/

variable [DecidableEq K] {t : RobinHoodHashTable K V} {key : K}

/-- A probe that comes to the key's slot. -/
theorem seek_hit {home d j left : Nat} {e : Entry K V}
    (he : Stores t.table (slot t.capacity home d) e)
    (before : ∀ i, j ≤ i → i < d →
      ∃ e', Stores t.table (slot t.capacity home i) e' ∧ e'.key ≠ e.key)
    (hj : j ≤ d) (hleft : d - j < left) :
    t.seek e.key left (slot t.capacity home j) = .ok (some (slot t.capacity home d, e)) := by
  induction left generalizing j with
  | zero => omega
  | succ left ih =>
      rcases Nat.lt_or_eq_of_le hj with hlt | rfl
      · obtain ⟨e', ⟨hget, hocc⟩, hkey⟩ := before j (le_refl _) hlt
        simp only [seek, hget, hocc, hkey, if_false, Bool.true_eq_false, slot_succ]
        exact ih (fun i hi => before i (Nat.le_of_succ_le hi)) hlt (by omega)
      · simp only [seek, he.1, he.2, if_true, if_false, Bool.true_eq_false]

/-- A probe for a key that is not stored. -/
theorem seek_miss {left idx : Nat} (hlength : t.table.length = t.capacity) (hidx : idx < t.capacity)
    (absent : ∀ i e, Stores t.table i e → e.key ≠ key) : t.seek key left idx = .ok none := by
  induction left generalizing idx with
  | zero => rfl
  | succ left ih =>
      have hin : idx < t.table.length := by
        rw [hlength]
        exact hidx
      have hget := List.getElem?_eq_getElem hin
      simp only [seek, hget]
      split
      · rfl
      · rename_i hocc
        have hocc' : t.table[idx].occupied = true := by simpa using hocc
        rw [if_neg (absent idx _ ⟨hget, hocc'⟩)]
        exact ih (Nat.mod_lt _ (by omega))

/-- A probe that is stopped before it comes to the key. -/
theorem seek_stopped {home d j left : Nat} {stop : Entry K V}
    (hstop : t.table[slot t.capacity home d]? = some stop) (hfree : stop.occupied = false)
    (before : ∀ i, j ≤ i → i < d →
      ∃ e', Stores t.table (slot t.capacity home i) e' ∧ e'.key ≠ key)
    (hj : j ≤ d) : t.seek key left (slot t.capacity home j) = .ok none := by
  induction left generalizing j with
  | zero => rfl
  | succ left ih =>
      rcases Nat.lt_or_eq_of_le hj with hlt | rfl
      · obtain ⟨e', ⟨hget, hocc⟩, hkey⟩ := before j (le_refl _) hlt
        simp only [seek, hget, hocc, hkey, if_false, Bool.true_eq_false, slot_succ]
        exact ih (fun i hi => before i (Nat.le_of_succ_le hi)) hlt
      · simp only [seek, hstop, hfree, if_true]

/-- `lookup` finds what is stored. -/
theorem Filed.lookup_stored (h : Filed hash t.capacity t.table) {i : Nat} {e : Entry K V}
    (he : Stores t.table i e) : t.lookup hash e.key = .ok (some (i, e)) := by
  obtain ⟨d, hd, rfl, hpath⟩ := h.reach i e he
  have hpos : 0 < t.capacity := by omega
  have hstart := slot_zero (n := t.capacity) (Nat.mod_lt (hash e.key) hpos)
  have hhit : t.seek e.key (t.capacity + 1) (slot t.capacity (hash e.key % t.capacity) 0) = _ :=
    seek_hit he (fun j _ hj => by
      obtain ⟨e', he', -⟩ := hpath j (Nat.lt_succ_of_lt hj)
      exact ⟨e', he', h.before hd he hj he'⟩) (Nat.zero_le _) (by omega)
  rw [hstart] at hhit
  exact hhit

theorem Filed.lookup_absent (h : Filed hash t.capacity t.table) (hpos : 0 < t.capacity)
    (absent : ∀ i e, Stores t.table i e → e.key ≠ key) : t.lookup hash key = .ok none :=
  seek_miss h.length (Nat.mod_lt _ hpos) absent

/-! ### Placing a key that is stored -/

/-- The loop of `insert` passes the slots before a stored key by, without a swap. -/
theorem Filed.place_stored (h : Filed hash n T) {d : Nat} (hd : d < n) {e : Entry K V}
    (he : Stores T (slot n (hash e.key % n) d) e) (hpath : Path (Full T) n (hash e.key % n) (d + 1))
    (value : V) {j fuel : Nat} (hj : j ≤ d) (hfuel : d - j < fuel) :
    place n e.key value fuel (slot n (hash e.key % n) j) j ⟨e.key, value, true, j⟩ T =
      .ok (false, T.set (slot n (hash e.key % n) d) { e with value := value }) := by
  induction fuel generalizing j with
  | zero => omega
  | succ fuel ih =>
      rcases Nat.lt_or_eq_of_le hj with hlt | rfl
      · obtain ⟨resident, hres, hdist⟩ := hpath j (Nat.lt_succ_of_lt hlt)
        have hkey := h.before hd he hlt hres
        simp only [place, hres.1, hres.2, hkey, if_false, Bool.true_eq_false,
          Nat.not_lt.mpr hdist, slot_succ]
        exact ih hlt (by omega)
      · simp only [place, he.1, he.2, if_true, if_false, Bool.true_eq_false]

omit [DecidableEq K] in
/-- Another value for a stored key. -/
theorem Filed.set_value (h : Filed hash n T) {i : Nat} {e : Entry K V} (he : Stores T i e)
    (value : V) : Filed hash n (T.set i { e with value := value }) := by
  have hset : ∀ {j e'}, Stores (T.set i { e with value := value }) j e' →
      ∃ e'', Stores T j e'' ∧ e''.key = e'.key := by
    intro j e' he'
    rw [stores_set he.lt] at he'
    split at he'
    · rename_i hij
      exact ⟨e, hij ▸ he, by rw [he'.1]⟩
    · exact ⟨e', he', rfl⟩
  refine ⟨by rw [List.length_set, h.length], fun a b ea eb ha hb hkey => ?_, fun j e' he' => ?_⟩
  · obtain ⟨ea', ha', hka⟩ := hset ha
    obtain ⟨eb', hb', hkb⟩ := hset hb
    exact h.distinct a b ea' eb' ha' hb' (by rw [hka, hkb, hkey])
  · obtain ⟨e'', he'', hkey⟩ := hset he'
    obtain ⟨d, hd, hslot, hpath⟩ := h.reach j e'' he''
    rw [hkey] at hslot hpath
    have hraised : Raised T (T.set i { e with value := value }) :=
      raised_set he.lt he.2 fun e' he' => by rw [he.unique he']
    exact ⟨d, hd, hslot, hpath.mono fun b j => hraised.full⟩

theorem Filed.has_set_value (h : Filed hash n T) {i : Nat} {e : Entry K V} (he : Stores T i e)
    (value : V) (k : K) (v : V) : Has (T.set i { e with value := value }) k v ↔
      if k = e.key then v = value else Has T k v := by
  have hself : Stores (T.set i { e with value := value }) i { e with value := value } :=
    stores_set_self he.lt he.2
  constructor
  · rintro ⟨j, e', he', rfl, rfl⟩
    rw [stores_set he.lt] at he'
    split at he'
    · rw [he'.1, if_pos rfl]
    · rename_i hij
      rw [if_neg fun hkey => hij (h.distinct j i e' e he' he hkey).symm]
      exact ⟨j, e', he', rfl, rfl⟩
  · intro hhas
    split at hhas
    · rename_i hkey
      exact ⟨i, _, hself, hkey.symm, hhas.symm⟩
    · rename_i hkey
      obtain ⟨j, e', he', rfl, rfl⟩ := hhas
      have hij : i ≠ j := by
        rintro rfl
        exact hkey (by rw [he'.unique he])
      exact ⟨j, e', by rwa [stores_set he.lt, if_neg hij], rfl, rfl⟩

/-! ### Placing a key that is not stored -/

/-- The loop of `insert` after `d` steps, with `T` for the table it started with and `E`
for the entry it carries. -/
structure Carrying (hash : K → Nat) (n : Nat) (T : List (Entry K V)) (key : K) (value : V)
    (d : Nat) (T' : List (Entry K V)) (E : Entry K V) : Prop where
  filed : Filed hash n T'
  apart : ∀ i e, Stores T' i e → e.key ≠ E.key
  contents : ∀ k v, (Has T' k v ∨ (E.key = k ∧ E.value = v)) ↔ (Has T k v ∨ (key = k ∧ value = v))
  /-- Swapping leaves the occupied slots occupied. -/
  occupied : ∀ i, (∃ e, Stores T' i e) ↔ ∃ e, Stores T i e
  count : T'.countP (·.occupied) = T.countP (·.occupied)
  /-- Once the key is placed, it is behind. -/
  behind : ∀ i e, Stores T' i e → e.key = key → ∃ j < d, i = slot n (hash key % n) j
  live : E.occupied = true
  distance : E.probeDistance = d
  /-- The entry carried has come at most `d` steps from its home. -/
  home : ∃ c ≤ d, slot n (hash E.key % n) c = slot n (hash key % n) d ∧
    Path (Full T') n (hash E.key % n) c

variable {value : V} {d : Nat} {E resident : Entry K V}

omit [DecidableEq K] in
theorem Carrying.start (h : Filed hash n T)
    (absent : ∀ i e, Stores T i e → e.key ≠ key) :
    Carrying hash n T key value 0 T ⟨key, value, true, 0⟩ where
  filed := h
  apart := absent
  contents := fun _ _ => Iff.rfl
  occupied := fun _ => Iff.rfl
  count := rfl
  behind := fun i e he hkey => absurd hkey (absent i e he)
  live := rfl
  distance := rfl
  home := ⟨0, le_refl _, rfl, Path.zero⟩

omit [DecidableEq K] in
/-- The slot that the probe is at does not hold the key. -/
theorem Carrying.other_key (h : Carrying hash n T key value d T' E) (hd : d < n)
    (hres : Stores T' (slot n (hash key % n) d) resident) : resident.key ≠ key := by
  intro hkey
  obtain ⟨j, hj, hslot⟩ := h.behind _ _ hres hkey
  have := slot_inj hd (lt_trans hj hd) hslot
  omega

omit [DecidableEq K] in
/-- A resident that is as far from home, by its stored distance, is passed by. -/
theorem Carrying.pass (h : Carrying hash n T key value d T' E)
    (hres : Stores T' (slot n (hash key % n) d) resident) (hdist : d ≤ resident.probeDistance) :
    Carrying hash n T key value (d + 1) T' { E with probeDistance := d + 1 } where
  filed := h.filed
  apart := h.apart
  contents := h.contents
  occupied := h.occupied
  count := h.count
  behind := fun i e he hkey => by
    obtain ⟨j, hj, hslot⟩ := h.behind i e he hkey
    exact ⟨j, Nat.lt_succ_of_lt hj, hslot⟩
  live := h.live
  distance := rfl
  home := by
    obtain ⟨c, hc, hslot, hpath⟩ := h.home
    refine ⟨c + 1, Nat.succ_le_succ hc, ?_, hpath.succ ⟨resident, ?_, le_trans hc hdist⟩⟩
    · change slot n (hash E.key % n) (c + 1) = _
      rw [← slot_succ, hslot, slot_succ]
    · rw [hslot]
      exact hres

omit [DecidableEq K] in
/-- Storing the entry carried keeps the table filed. -/
theorem Carrying.filed_set (h : Carrying hash n T key value d T' E) (hd : d < n)
    (hraised : Raised T' (T'.set (slot n (hash key % n) d) E)) :
    Filed hash n (T'.set (slot n (hash key % n) d) E) := by
  have hlt : slot n (hash key % n) d < T'.length := by
    rw [h.filed.length]
    exact slot_lt (by omega)
  have hself := stores_set_self hlt h.live
  refine ⟨by rw [List.length_set, h.filed.length], fun i j e e' he he' hkey => ?_,
    fun i e he => ?_⟩
  · rw [stores_set hlt] at he he'
    split at he <;> split at he'
    · rename_i hi hj
      rw [← hi, hj]
    · rw [he.1] at hkey
      exact absurd hkey.symm (h.apart j e' he')
    · rw [he'.1] at hkey
      exact absurd hkey (h.apart i e he)
    · exact h.filed.distinct i j e e' he he' hkey
  · rw [stores_set hlt] at he
    split at he
    · rename_i hi
      obtain ⟨c, hc, hslot, hpath⟩ := h.home
      rw [he.1]
      refine ⟨c, lt_of_le_of_lt hc hd, hslot.trans hi, Path.succ ?_ ⟨E, ?_, ?_⟩⟩
      · exact hpath.mono fun b j => hraised.full
      · rw [hslot]
        exact hself
      · rw [h.distance]
        exact hc
    · obtain ⟨c, hc, hslot, hpath⟩ := h.filed.reach i e he
      exact ⟨c, hc, hslot, hpath.mono fun b j => hraised.full⟩

omit [DecidableEq K] in
/-- A resident that is closer to home, by its stored distance, is swapped. -/
theorem Carrying.swap (h : Carrying hash n T key value d T' E) (hd : d < n)
    (hres : Stores T' (slot n (hash key % n) d) resident) (hdist : resident.probeDistance < d) :
    Carrying hash n T key value (d + 1) (T'.set (slot n (hash key % n) d) E)
      { resident with probeDistance := d + 1 } := by
  have hlt := hres.lt
  have hraised : Raised T' (T'.set (slot n (hash key % n) d) E) :=
    raised_set hlt h.live fun e he => by
      rw [he.unique hres, h.distance]
      exact le_of_lt hdist
  refine
    { filed := h.filed_set hd hraised
      apart := fun i e he => ?_
      contents := fun k v => (has_exchange hres h.live).trans (h.contents k v)
      occupied := fun i => (exists_stores_exchange hres h.live i).trans (h.occupied i)
      count := (countP_occupied_congr (map_occupied_set hres h.live)).trans h.count
      behind := fun i e he hkey => ?_
      live := hres.2
      distance := rfl
      home := ?_ }
  · rw [stores_set hlt] at he
    split at he
    · rw [he.1]
      exact fun hkey => h.apart _ _ hres hkey.symm
    · rename_i hi
      exact fun hkey => hi (h.filed.distinct _ _ _ _ he hres hkey).symm
  · rw [stores_set hlt] at he
    split at he
    · rename_i hi
      exact ⟨d, Nat.lt_succ_self d, hi.symm⟩
    · obtain ⟨j, hj, hslot⟩ := h.behind i e he hkey
      exact ⟨j, Nat.lt_succ_of_lt hj, hslot⟩
  · obtain ⟨c, hc, hslot, hpath⟩ := h.filed.reach _ _ hres
    have hle : c < d := by
      obtain ⟨e, he, hce⟩ := hpath c (Nat.lt_succ_self c)
      rw [hslot] at he
      rw [he.unique hres] at hce
      omega
    refine ⟨c + 1, Nat.succ_le_succ (le_of_lt hle), ?_, hpath.mono fun b j => hraised.full⟩
    change slot n (hash resident.key % n) (c + 1) = _
    rw [← slot_succ, hslot, slot_succ]

/-- A table with one key more. -/
structure Placed (hash : K → Nat) (n : Nat) (T : List (Entry K V)) (key : K) (value : V)
    (T' : List (Entry K V)) : Prop where
  filed : Filed hash n T'
  contents : ∀ k v, Has T' k v ↔ Has T k v ∨ (key = k ∧ value = v)
  count : T'.countP (·.occupied) = T.countP (·.occupied) + 1

omit [DecidableEq K] in
/-- The entry carried comes to a slot that is not occupied. -/
theorem Carrying.finish (h : Carrying hash n T key value d T' E) (hd : d < n)
    (hget : T'[slot n (hash key % n) d]? = some resident) (hfree : resident.occupied = false) :
    Placed hash n T key value (T'.set (slot n (hash key % n) d) E) := by
  have hlt := (List.getElem?_eq_some_iff.mp hget).1
  have hself := stores_set_self hlt h.live
  have hnot : ∀ e, ¬ Stores T' (slot n (hash key % n) d) e := by
    rintro e ⟨he, hocc⟩
    rw [hget] at he
    cases he
    rw [hfree] at hocc
    cases hocc
  refine ⟨h.filed_set hd (raised_set hlt h.live fun e he => absurd he (hnot e)), fun k v => ?_, ?_⟩
  · rw [← h.contents]
    constructor
    · rintro ⟨i, e, he, hk, hv⟩
      rw [stores_set hlt] at he
      split at he
      · rw [he.1] at hk hv
        exact Or.inr ⟨hk, hv⟩
      · exact Or.inl ⟨i, e, he, hk, hv⟩
    · rintro (⟨i, e, he, hk, hv⟩ | ⟨hk, hv⟩)
      · have hi : slot n (hash key % n) d ≠ i := by
          rintro rfl
          exact hnot e he
        exact ⟨i, e, by rwa [stores_set hlt, if_neg hi], hk, hv⟩
      · exact ⟨_, E, hself, hk, hv⟩
  · have hres : T'[slot n (hash key % n) d] = resident :=
      Option.some.inj ((List.getElem?_eq_getElem hlt).symm.trans hget)
    rw [List.countP_set hlt, hres, if_neg (by rw [hfree]; exact Bool.false_ne_true), if_pos h.live,
      ← h.count]
    omega

/-- The loop of `insert` with a key that is not stored goes on to the first slot that is not
occupied, with what its passes and its swaps keep. -/
theorem Carrying.place_with {P : Nat → List (Entry K V) → Entry K V → Prop} {last fuel : Nat}
    (hpass : ∀ d T' E resident, Carrying hash n T key value d T' E → d < last →
      Stores T' (slot n (hash key % n) d) resident → d ≤ resident.probeDistance → P d T' E →
      P (d + 1) T' { E with probeDistance := d + 1 })
    (hswap : ∀ d T' E resident, Carrying hash n T key value d T' E → d < last →
      Stores T' (slot n (hash key % n) d) resident → resident.probeDistance < d → P d T' E →
      P (d + 1) (T'.set (slot n (hash key % n) d) E) { resident with probeDistance := d + 1 })
    (h : Carrying hash n T key value d T' E) (hP : P d T' E)
    (hlast : last < n) (hfree : ∀ e, ¬ Stores T (slot n (hash key % n) last) e)
    (hfull : ∀ i < last, ∃ e, Stores T (slot n (hash key % n) i) e)
    (hd : d ≤ last) (hfuel : last - d < fuel) :
    ∃ T₁ E₁ resident, RobinHoodHashTable.place n key value fuel (slot n (hash key % n) d) d E T' =
        .ok (true, T₁.set (slot n (hash key % n) last) E₁) ∧
      Carrying hash n T key value last T₁ E₁ ∧ P last T₁ E₁ ∧
      T₁[slot n (hash key % n) last]? = some resident ∧ resident.occupied = false := by
  induction fuel generalizing d T' E with
  | zero => omega
  | succ fuel ih =>
      have hdn : d < n := lt_of_le_of_lt hd hlast
      rcases Nat.lt_or_eq_of_le hd with hlt | rfl
      · obtain ⟨resident, hres⟩ := (h.occupied _).mpr (hfull d hlt)
        have hkey := h.other_key hdn hres
        simp only [RobinHoodHashTable.place, hres.1, hres.2, hkey, if_false, Bool.true_eq_false,
          slot_succ]
        split
        · rename_i hdist
          have hnext := h.swap hdn hres hdist
          have hP' := hswap d T' E resident h hlt hres hdist hP
          rw [hres.2] at hnext hP'
          exact ih hnext hP' hlt (by omega)
        · rename_i hdist
          have hdist' := Nat.not_lt.mp hdist
          exact ih (h.pass hres hdist') (hpass d T' E resident h hlt hres hdist' hP) hlt (by omega)
      · have hlength : slot n (hash key % n) d < T'.length := by
          rw [h.filed.length]
          exact slot_lt (by omega)
        have hget := List.getElem?_eq_getElem hlength
        have hempty : (T'[slot n (hash key % n) d]).occupied = false := by
          rw [Bool.eq_false_iff]
          intro hocc
          obtain ⟨e, he⟩ := (h.occupied _).mp ⟨_, hget, hocc⟩
          exact hfree e he
        exact ⟨T', E, _, by simp only [RobinHoodHashTable.place, hget, hempty, if_true], h, hP,
          hget, hempty⟩

/-- The loop of `insert` with a key that is not stored: it ends at the first slot that is
not occupied. -/
theorem Carrying.place {last fuel : Nat} (h : Carrying hash n T key value d T' E)
    (hlast : last < n) (hfree : ∀ e, ¬ Stores T (slot n (hash key % n) last) e)
    (hfull : ∀ i < last, ∃ e, Stores T (slot n (hash key % n) i) e)
    (hd : d ≤ last) (hfuel : last - d < fuel) :
    ∃ T'', RobinHoodHashTable.place n key value fuel (slot n (hash key % n) d) d E T' =
      .ok (true, T'') ∧ Placed hash n T key value T'' := by
  obtain ⟨T₁, E₁, resident, hplace, hcarrying, -, hget, hempty⟩ :=
    Carrying.place_with (P := fun _ _ _ => True) (fun _ _ _ _ _ _ _ _ _ => trivial)
      (fun _ _ _ _ _ _ _ _ _ => trivial) h trivial hlast hfree hfull hd hfuel
  exact ⟨_, hplace, hcarrying.finish hlast hget hempty⟩

end HftProject.Week5.RobinHoodHashTable
