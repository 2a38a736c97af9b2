import HftProject.Lib.Loop
import HftProject.Week5.RobinHoodInsertion

/-!
The loops of `RobinHoodHashTable` as loops, without a step limit of the model's own. In a table
whose counter counts its occupied slots (`Counted`) the load check leaves a slot that is not
occupied, so `insert`, whose loop swaps entries but occupies no slot before its last step, comes
to such a slot within a round. This needs nothing of where the keys stand: it holds as well after
`erase` has left holes behind.

`Calls` are the calls of `insert` that a call of `insert` makes, through `rehash`.
-/

namespace HftProject.Week5.RobinHoodHashTable

open Loop Probing Run

variable {K V : Type} [DecidableEq K]

/-! ### The loops -/

/-- The variables of `insert`'s loop, and the table it walks and changes. -/
structure Probe (K V : Type) where
  idx : Nat
  probeDist : Nat
  entry : Entry K V
  table : List (Entry K V)

/-- A pass of `insert`'s loop. It ends at a slot that is not occupied and returns at the key. -/
def insertPass (capacity : Nat) (key : K) (s : Probe K V) : Except Fault (Option (Probe K V)) :=
  match s.table[s.idx]? with
  | none => .error .outOfBounds
  | some resident =>
      if resident.occupied = false then .ok none
      else if resident.key = key then .ok none
      else if resident.probeDistance < s.probeDist then
        .ok (some ⟨(s.idx + 1) % capacity, s.probeDist + 1,
          { resident with probeDistance := s.probeDist + 1 }, s.table.set s.idx s.entry⟩)
      else
        .ok (some ⟨(s.idx + 1) % capacity, s.probeDist + 1,
          { s.entry with probeDistance := s.probeDist + 1 }, s.table⟩)

/-- Where `insert`'s loop starts. -/
def Probe.start (hash : K → Nat) (key : K) (value : V) (t : RobinHoodHashTable K V) : Probe K V :=
  ⟨hash key % t.capacity, 0, ⟨key, value, true, 0⟩, t.table⟩

/-- What `insert` does where its loop ends. -/
def Probe.outcome (value : V) (s : Probe K V) : Except Fault (Bool × List (Entry K V)) :=
  match s.table[s.idx]? with
  | none => .error .outOfBounds
  | some resident =>
      if resident.occupied = false then .ok (true, s.table.set s.idx s.entry)
      else .ok (false, s.table.set s.idx { resident with value := value })

/-- A pass of the loop of `find` and `erase`, over `idx` and `probe_dist`. It also ends by
the `break`. -/
def seekPass (key : K) (t : RobinHoodHashTable K V) (s : Nat × Nat) :
    Except Fault (Option (Nat × Nat)) :=
  match t.table[s.1]? with
  | none => .error .outOfBounds
  | some entry =>
      if entry.occupied = false then .ok none
      else if entry.key = key then .ok none
      else if t.capacity < s.2 + 1 then .ok none
      else .ok (some ((s.1 + 1) % t.capacity, s.2 + 1))

/-- With fuel for its passes, `place` is the loop and what follows it. -/
theorem place_eq_outcome {capacity fuel : Nat} {key : K} (value : V) {s last : Probe K V}
    {states : List (Probe K V)} (h : Passes (insertPass capacity key) s states last)
    (hfuel : states.length < fuel) :
    place capacity key value fuel s.idx s.probeDist s.entry s.table = last.outcome value := by
  induction h generalizing fuel with
  | @exit s hexit =>
      obtain ⟨fuel, rfl⟩ : ∃ n, fuel = n + 1 := ⟨fuel - 1, by simp at hfuel; omega⟩
      cases hget : s.table[s.idx]? with
      | none => simp [insertPass, hget] at hexit
      | some resident =>
          simp only [insertPass, hget] at hexit
          simp only [place, Probe.outcome, hget]
          split_ifs at hexit ⊢ <;> first | rfl | cases hexit
  | @again s m last states hpass hrest ih =>
      obtain ⟨fuel, rfl⟩ : ∃ n, fuel = n + 1 := ⟨fuel - 1, by simp at hfuel; omega⟩
      have hnext := @ih fuel (by simpa using hfuel)
      cases hget : s.table[s.idx]? with
      | none => simp [insertPass, hget] at hpass
      | some resident =>
          simp only [insertPass, hget] at hpass
          simp only [place, hget]
          split_ifs at hpass ⊢ with hocc hkey hdist
          all_goals cases hpass
          all_goals exact hnext

/-- What `find` and `erase` have found where their loop ends. -/
def seekOutcome (key : K) (t : RobinHoodHashTable K V) (s : Nat × Nat) :
    Except Fault (Option (Nat × Entry K V)) :=
  match t.table[s.1]? with
  | none => .error .outOfBounds
  | some entry =>
      if entry.occupied = false then .ok none
      else if entry.key = key then .ok (some (s.1, entry))
      else .ok none

/-- `seek` is the loop, whose `break` its last argument counts down to. -/
theorem seek_eq_outcome {t : RobinHoodHashTable K V} {key : K} {s last : Nat × Nat}
    {states : List (Nat × Nat)} (h : Passes (seekPass key t) s states last)
    (hs : s.2 ≤ t.capacity) : t.seek key (t.capacity + 1 - s.2) s.1 = seekOutcome key t last := by
  induction h with
  | @exit s hexit =>
      rw [show t.capacity + 1 - s.2 = t.capacity - s.2 + 1 by omega]
      cases hget : t.table[s.1]? with
      | none => simp [seekPass, hget] at hexit
      | some entry =>
          simp only [seekPass, hget] at hexit
          simp only [seek, seekOutcome, hget]
          split_ifs at hexit ⊢ with hocc hkey hbreak
          · rfl
          · rfl
          · rw [show t.capacity - s.2 = 0 by omega, seek]
          · cases hexit
  | @again s m last states hpass hrest ih =>
      rw [show t.capacity + 1 - s.2 = t.capacity - s.2 + 1 by omega]
      cases hget : t.table[s.1]? with
      | none => simp [seekPass, hget] at hpass
      | some entry =>
          simp only [seekPass, hget] at hpass
          simp only [seek, hget]
          split_ifs at hpass ⊢ with hocc hkey hbreak
          all_goals cases hpass
          have hnext := ih (by change s.2 + 1 ≤ _; omega)
          rwa [show t.capacity + 1 - (s.2 + 1) = t.capacity - s.2 by omega] at hnext

/-! ### Occupied slots -/

variable {hash : K → Nat} {t : RobinHoodHashTable K V} {T : List (Entry K V)}

/-- The loop of `insert` in a table with a slot that is not occupied: it ends within a round,
with the same slots occupied. -/
theorem insertPass_ends (hash : K → Nat) (key : K) (value : V)
    (hlength : t.table.length = t.capacity) {b : Nat} (hb : b < t.capacity)
    (hfree : ¬ ∃ e, Stores t.table b e) :
    ∃ states last, Passes (insertPass t.capacity key) (.start hash key value t) states last ∧
      states.length < t.capacity ∧ last.table.map (·.occupied) = t.table.map (·.occupied) ∧
      last.entry.occupied = true := by
  have hhome : hash key % t.capacity < t.capacity := Nat.mod_lt _ (by omega)
  obtain ⟨d, hd, hend, -⟩ :=
    exists_end (p := fun b => ∃ e, Stores t.table b e) hhome hb hfree
  -- The probe walks from home, swaps nothing but residents, and is not past the free slot.
  let I : Probe K V → Prop := fun s =>
    s.idx = slot t.capacity (hash key % t.capacity) s.probeDist ∧ s.probeDist ≤ d ∧
      s.entry.occupied = true ∧ s.table.map (·.occupied) = t.table.map (·.occupied)
  let R : Probe K V → Probe K V → Prop := fun s m => m.probeDist = s.probeDist + 1 ∧ m.probeDist ≤ d
  have hpasses : ∀ s, I s → insertPass t.capacity key s = .ok none ∨
      ∃ m, insertPass t.capacity key s = .ok (some m) ∧ I m ∧ R s m := by
    rintro s ⟨hidx, hle, hocc, hmap⟩
    have hslots : s.table.length = t.capacity := by
      have := congrArg List.length hmap
      rwa [List.length_map, List.length_map, hlength] at this
    have hin : s.idx < s.table.length := by
      rw [hslots, hidx]
      exact slot_lt (by omega)
    have hget := List.getElem?_eq_getElem hin
    have hnext : (s.idx + 1) % t.capacity =
        slot t.capacity (hash key % t.capacity) (s.probeDist + 1) := by rw [hidx, slot_succ]
    have hbefore : (s.table[s.idx]).occupied = true → s.probeDist + 1 ≤ d := by
      intro hres
      refine lt_of_le_of_ne hle fun heq => hend ?_
      have hsame : (s.table.map (·.occupied))[s.idx]? = some true := by
        rw [List.getElem?_map, hget, Option.map_some, hres]
      rw [hmap, List.getElem?_map, Option.map_eq_some_iff, hidx, heq] at hsame
      obtain ⟨e, he, heocc⟩ := hsame
      exact ⟨e, he, heocc⟩
    simp only [insertPass, hget]
    split_ifs with hfalse hkey hdist
    · exact .inl rfl
    · exact .inl rfl
    · have hres : (s.table[s.idx]).occupied = true := by simpa using hfalse
      have hmap' := (map_occupied_set ⟨hget, hres⟩ hocc).trans hmap
      exact .inr ⟨_, rfl, ⟨hnext, hbefore hres, hres, hmap'⟩, rfl, hbefore hres⟩
    · have hres : (s.table[s.idx]).occupied = true := by simpa using hfalse
      exact .inr ⟨_, rfl, ⟨hnext, hbefore hres, hocc, hmap⟩, rfl, hbefore hres⟩
  have hinit : I (.start hash key value t) := ⟨(slot_zero hhome).symm, Nat.zero_le d, rfl, rfl⟩
  obtain ⟨states, last, hloop, hI, -, hlen⟩ :=
    exists_passes (μ := fun s => d - s.probeDist) hpasses
      (fun s m hR => by have := hR.1; have := hR.2; omega) hinit
  refine ⟨states, last, hloop, ?_, hI.2.2.2, hI.2.2.1⟩
  have : states.length ≤ d - 0 := hlen
  omega

/-- The loop of `find` and `erase` ends after at most a round and one step. -/
theorem seekPass_ends (hash : K → Nat) (key : K) (hlength : t.table.length = t.capacity)
    (hpos : 0 < t.capacity) :
    ∃ states last, Passes (seekPass key t) (hash key % t.capacity, 0) states last ∧
      states.length ≤ t.capacity := by
  have hpasses : ∀ s : Nat × Nat, s.1 < t.capacity ∧ s.2 ≤ t.capacity →
      seekPass key t s = .ok none ∨ ∃ m, seekPass key t s = .ok (some m) ∧
        (m.1 < t.capacity ∧ m.2 ≤ t.capacity) ∧ m.2 = s.2 + 1 ∧ m.2 ≤ t.capacity := by
    rintro s ⟨hidx, hle⟩
    have hin : s.1 < t.table.length := by rwa [hlength]
    simp only [seekPass, List.getElem?_eq_getElem hin]
    split_ifs with hocc hkey hbreak
    · exact .inl rfl
    · exact .inl rfl
    · exact .inl rfl
    · have hdist := Nat.not_lt.mp hbreak
      exact .inr ⟨_, rfl, ⟨Nat.mod_lt _ hpos, hdist⟩, rfl, hdist⟩
  obtain ⟨states, last, hloop, -, -, hlen⟩ :=
    exists_passes (μ := fun s => t.capacity - s.2) hpasses (fun s m hR => by omega)
      (s := (hash key % t.capacity, 0)) ⟨Nat.mod_lt _ hpos, Nat.zero_le _⟩
  exact ⟨states, last, hloop, hlen⟩

/-! ### The counter -/

/-- The counter counts the occupied slots. -/
structure Counted (t : RobinHoodHashTable K V) : Prop where
  pos : 0 < t.capacity
  length : t.table.length = t.capacity
  count : t.numElements = t.table.countP (·.occupied)

omit [DecidableEq K] in
theorem Counted.size_le (h : t.Counted) : t.numElements ≤ t.capacity := by
  rw [h.count, ← h.length]
  exact List.countP_le_length

omit [DecidableEq K] in
/-- The load check leaves a slot that is not occupied. -/
theorem Counted.exists_free (h : t.Counted) (hlight : ¬ t.Overloaded) :
    ∃ b < t.capacity, ¬ ∃ e, Stores t.table b e := by
  have hpos := h.pos
  have hlt : t.table.countP (·.occupied) < t.table.length := by
    rw [← h.count, h.length]
    unfold Overloaded at hlight
    omega
  rw [← h.length]
  exact exists_unoccupied hlt

/-- The loop of `insert` and what follows it keep the counter right. -/
theorem Counted.place (h : t.Counted) (hlight : ¬ t.Overloaded) (hash : K → Nat) (key : K)
    (value : V) :
    ∃ inserted table, RobinHoodHashTable.place t.capacity key value t.capacity
        (hash key % t.capacity) 0 ⟨key, value, true, 0⟩ t.table = .ok (inserted, table) ∧
      Counted
        { t with
          table := table
          numElements := if inserted then t.numElements + 1 else t.numElements } := by
  obtain ⟨b, hb, hfree⟩ := h.exists_free hlight
  obtain ⟨states, last, hloop, hlen, hmap, hlive⟩ :=
    insertPass_ends hash key value h.length hb hfree
  have hplace := place_eq_outcome value hloop hlen
  have hcount := countP_occupied_congr hmap
  have hlength : last.table.length = t.capacity := by
    have := congrArg List.length hmap
    rwa [List.length_map, List.length_map, h.length] at this
  have hexit := hloop.target
  cases hget : last.table[last.idx]? with
  | none => simp [insertPass, hget] at hexit
  | some resident =>
      obtain ⟨hlt, hval⟩ := List.getElem?_eq_some_iff.mp hget
      by_cases hres : resident.occupied = false
      · refine ⟨true, last.table.set last.idx last.entry, ?_, h.pos, ?_, ?_⟩
        · refine hplace.trans ?_
          simp only [Probe.outcome, hget, if_pos hres]
        · rw [List.length_set, hlength]
        · change t.numElements + 1 = _
          rw [List.countP_set hlt, hval, hres, if_neg Bool.false_ne_true, if_pos hlive, hcount,
            h.count, Nat.sub_zero]
      · have hstores : Stores last.table last.idx resident := ⟨hget, by simpa using hres⟩
        refine ⟨false, last.table.set last.idx { resident with value := value }, ?_, h.pos, ?_, ?_⟩
        · refine hplace.trans ?_
          simp only [Probe.outcome, hget, if_neg hres]
        · rw [List.length_set, hlength]
        · change t.numElements = _
          rw [countP_occupied_congr (map_occupied_set hstores (by simpa using hres)), hcount,
            h.count]

variable [Inhabited K] [Inhabited V]

/-- `insert` into a table that need not grow does not call itself. -/
theorem Counted.insertWithin_light (h : t.Counted) (hlight : ¬ t.Overloaded) (hash : K → Nat)
    (key : K) (value : V) :
    ∃ inserted t', (∀ depth, insertWithin hash (depth + 1) key value t = .ok (inserted, t')) ∧
      t'.Counted ∧ t'.capacity = t.capacity ∧ t'.numElements ≤ t.numElements + 1 := by
  obtain ⟨inserted, table, hplace, hcounted⟩ := h.place hlight hash key value
  refine ⟨inserted, _, fun depth => ?_, hcounted, rfl, ?_⟩
  · rw [insertWithin, if_neg hlight]
    change (do let p ← RobinHoodHashTable.place t.capacity key value t.capacity
                  (hash key % t.capacity) 0 ⟨key, value, true, 0⟩ t.table; _ : Except Fault _) = _
    rw [hplace]
    rfl
  · cases inserted
    · exact Nat.le_succ _
    · exact le_refl _

theorem Counted.rehash_fold (h : t.Counted) (hash : K → Nat) (entries : List (Entry K V))
    (hroom : 10 * (t.numElements + entries.countP (·.occupied)) ≤ 7 * t.capacity) :
    ∃ t', (∀ depth, entries.foldlM (fun t entry =>
        if entry.occupied then
          (·.2) <$> insertWithin hash (depth + 1) entry.key entry.value t
        else .ok t) t = .ok t') ∧
      t'.Counted ∧ t'.capacity = t.capacity ∧
      t'.numElements ≤ t.numElements + entries.countP (·.occupied) := by
  induction entries generalizing t with
  | nil => exact ⟨t, fun _ => rfl, h, rfl, le_refl _⟩
  | cons e entries ih =>
      simp only [List.foldlM_cons]
      by_cases hocc : e.occupied = true
      · simp only [if_pos hocc]
        have hcons : (e :: entries).countP (·.occupied) = entries.countP (·.occupied) + 1 :=
          List.countP_cons_of_pos hocc
        rw [hcons] at hroom ⊢
        have hlight : ¬ t.Overloaded := by
          unfold Overloaded
          omega
        obtain ⟨inserted, t', hinsert, hcounted, hcap, hsize⟩ :=
          h.insertWithin_light hlight hash e.key e.value
        obtain ⟨t'', hfold, hcounted', hcap', hsize'⟩ := ih hcounted (by rw [hcap]; omega)
        refine ⟨t'', fun depth => ?_, hcounted', hcap'.trans hcap, by omega⟩
        rw [hinsert depth]
        exact hfold depth
      · simp only [if_neg hocc]
        have hcons : (e :: entries).countP (·.occupied) = entries.countP (·.occupied) :=
          List.countP_cons_of_neg hocc
        rw [hcons] at hroom ⊢
        exact ih h hroom

omit [DecidableEq K] in
theorem new_counted {n : Nat} (hn : 0 < n) : (new n : RobinHoodHashTable K V).Counted :=
  ⟨hn, List.length_replicate, by simp [new, List.countP_replicate]⟩

/-- `rehash`, after any number of the old entries: no more than half of the slots are occupied. -/
theorem Counted.rehash (h : t.Counted) (hash : K → Nat) {pre : List (Entry K V)}
    (hpre : pre <+: t.table) :
    ∃ u, (∀ depth, RobinHoodHashTable.rehash (insertWithin hash (depth + 1))
        { t with table := pre } = .ok u) ∧ u.Counted ∧ ¬ u.Overloaded := by
  have hpos := h.pos
  have hentries : pre.countP (·.occupied) ≤ t.capacity := by
    rw [← h.length]
    exact le_trans List.countP_le_length hpre.length_le
  have hempty : (new (t.capacity * 2) : RobinHoodHashTable K V).Counted := new_counted (by omega)
  obtain ⟨u, hfold, hcounted, hcap, hsize⟩ := hempty.rehash_fold hash pre <| by
    change 10 * (0 + _) ≤ 7 * (t.capacity * 2)
    omega
  refine ⟨u, hfold, hcounted, ?_⟩
  change u.capacity = t.capacity * 2 at hcap
  change u.numElements ≤ 0 + _ at hsize
  unfold Overloaded
  omega

/-! ### The calls of `insert` -/

/-- The load check of `insert`. -/
def loaded (hash : K → Nat) (t : RobinHoodHashTable K V) : Except Fault (RobinHoodHashTable K V) :=
  if t.Overloaded then rehash (insert hash) t else .ok t

/-- The calls of `insert` that a call makes, itself included: at what depth, on which table, with
which key and value. -/
inductive Calls (hash : K → Nat) (t : RobinHoodHashTable K V) (key : K) (value : V) :
    Nat → RobinHoodHashTable K V → K → V → Prop where
  | self : Calls hash t key value 0 t key value
  /-- `rehash` has entered the entries before this one. -/
  | rehash {depth : Nat} {u w : RobinHoodHashTable K V} {k : K} {v : V}
      {pre post : List (Entry K V)} {entry : Entry K V} :
      Calls hash t key value depth u k v → u.Overloaded → u.table = pre ++ entry :: post →
      entry.occupied = true →
      RobinHoodHashTable.rehash (insert hash) { u with table := pre } = .ok w →
      Calls hash t key value (depth + 1) w entry.key entry.value

theorem Counted.loaded (h : t.Counted) (hash : K → Nat) :
    ∃ s, t.loaded hash = .ok s ∧ s.Counted ∧ ¬ s.Overloaded := by
  by_cases hover : t.Overloaded
  · obtain ⟨u, hrehash, hcounted, hlight⟩ := h.rehash hash (List.prefix_refl _)
    refine ⟨u, ?_, hcounted, hlight⟩
    rw [RobinHoodHashTable.loaded, if_pos hover]
    exact hrehash 1
  · exact ⟨t, if_neg hover, h, hover⟩

/-- The depth that the model allows `insert` is no limit: in a table that counts its entries
`insert` is the load check and the loop, with itself for the calls from `rehash`. -/
theorem Counted.insert_eq (h : t.Counted) (hash : K → Nat) (key : K) (value : V) :
    t.insert hash key value = do
      let s ← t.loaded hash
      let (inserted, table) ← RobinHoodHashTable.place s.capacity key value s.capacity
        (hash key % s.capacity) 0 ⟨key, value, true, 0⟩ s.table
      return (inserted,
        { s with
          table := table
          numElements := if inserted then s.numElements + 1 else s.numElements }) := by
  rw [RobinHoodHashTable.insert, insertWithin, RobinHoodHashTable.loaded]
  by_cases hover : t.Overloaded
  · obtain ⟨u, hrehash, -, -⟩ := h.rehash hash (List.prefix_refl _)
    rw [if_pos hover, if_pos hover, hrehash 0, RobinHoodHashTable.insert, hrehash 1]
  · rw [if_neg hover, if_neg hover]

/-- Every call is on a table that counts its entries; a call from `rehash` finds a table that is
not overloaded. -/
theorem Counted.calls (h : t.Counted) {key k : K} {value v : V} {depth : Nat}
    {u : RobinHoodHashTable K V} (hcall : Calls hash t key value depth u k v) :
    u.Counted ∧ (0 < depth → ¬ u.Overloaded) := by
  induction hcall with
  | self => exact ⟨h, fun hlt => absurd hlt (lt_irrefl 0)⟩
  | @rehash depth u w k v pre post entry _ _ htable _ hrehash ih =>
      obtain ⟨w', hrehash', hcounted, hlight⟩ := ih.1.rehash hash (htable ▸ List.prefix_append _ _)
      obtain rfl := Except.ok.inj ((hrehash' 1).symm.trans hrehash)
      exact ⟨hcounted, fun _ => hlight⟩

/-! ### Runs -/

omit [Inhabited K] [Inhabited V] in
/-- What a lookup finds is stored. -/
theorem seek_stores {key : K} {left idx i : Nat} {e : Entry K V}
    (h : t.seek key left idx = .ok (some (i, e))) : Stores t.table i e := by
  induction left generalizing idx with
  | zero => cases h
  | succ left ih =>
      cases hget : t.table[idx]? with
      | none => simp [seek, hget] at h
      | some entry =>
          simp only [seek, hget] at h
          split_ifs at h with hocc hkey
          · cases h
          · cases h
            exact ⟨hget, by simpa using hocc⟩
          · exact ih h

omit [Inhabited K] [Inhabited V] in
theorem Counted.lookup (h : t.Counted) (hash : K → Nat) (key : K) :
    ∃ found, t.lookup hash key = .ok found := by
  obtain ⟨states, last, hloop, -⟩ := seekPass_ends hash key h.length h.pos
  have hseek := seek_eq_outcome hloop (Nat.zero_le _)
  have hexit := hloop.target
  cases hget : t.table[last.1]? with
  | none => simp [seekPass, hget] at hexit
  | some entry =>
      rw [RobinHoodHashTable.lookup]
      simp only [Nat.sub_zero, seekOutcome, hget] at hseek
      rw [hseek]
      split_ifs
      · exact ⟨_, rfl⟩
      · exact ⟨_, rfl⟩
      · exact ⟨_, rfl⟩

theorem Counted.insert (h : t.Counted) (hash : K → Nat) (key : K) (value : V) :
    ∃ t', step hash (.insert key value) t = .ok t' ∧ t'.Counted := by
  obtain ⟨s, hloaded, hs, hlight⟩ := h.loaded hash
  obtain ⟨inserted, table, hplace, hcounted⟩ := hs.place hlight hash key value
  refine ⟨_, ?_, hcounted⟩
  simp only [RobinHoodHashTable.step, h.insert_eq, hloaded, bind, Except.bind, hplace]
  rfl

theorem Counted.erase (h : t.Counted) (hash : K → Nat) (key : K) :
    ∃ t', step hash (.erase key) t = .ok t' ∧ t'.Counted := by
  obtain ⟨found, hlookup⟩ := h.lookup hash key
  cases found with
  | none =>
      refine ⟨t, ?_, h⟩
      rw [step, RobinHoodHashTable.erase, hlookup]
      rfl
  | some slot =>
      obtain ⟨i, e⟩ := slot
      have hstores := seek_stores hlookup
      obtain ⟨hlt, hval⟩ := List.getElem?_eq_some_iff.mp hstores.1
      have herase : step hash (.erase key) t = .ok
          { t with
            table := t.table.set i { e with occupied := false }
            numElements := t.numElements - 1 } := by
        rw [step, RobinHoodHashTable.erase, hlookup]
        rfl
      refine ⟨_, herase, h.pos, ?_, ?_⟩
      · rw [List.length_set, h.length]
      · rw [List.countP_set hlt, hval, if_pos hstores.2, if_neg Bool.false_ne_true, h.count]
        rfl

/-- One call. -/
theorem Counted.step (h : t.Counted) (hash : K → Nat) (op : Op K V) :
    ∃ t', RobinHoodHashTable.step hash op t = .ok t' ∧ t'.Counted := by
  cases op with
  | insert key value => exact h.insert hash key value
  | erase key => exact h.erase hash key
  | clear => exact ⟨t.clear, rfl, new_counted h.pos⟩

/-- How the loops end on a table: the counter counts its occupied slots; whatever calls a call of
`insert` makes, those from `rehash` do not grow the table again, and each comes to a loop over a
table with a slot that is not occupied, which ends within a round; and the loop of `find` and
`erase` ends within a round and one step. -/
structure LoopsEnd (hash : K → Nat) (t : RobinHoodHashTable K V) : Prop where
  count : t.numElements = t.table.countP (·.occupied)
  insert : ∀ key value depth u k v, Calls hash t key value depth u k v →
    (0 < depth → ¬ u.Overloaded) ∧ ∃ s, u.loaded hash = .ok s ∧
      s.numElements = s.table.countP (·.occupied) ∧
      (∃ b < s.capacity, ∃ e, s.table[b]? = some e ∧ e.occupied = false) ∧
      ∃ states last, Passes (insertPass s.capacity k) (.start hash k v s) states last ∧
        states.length < s.capacity
  seek : ∀ key, ∃ states last,
    Passes (seekPass key t) (hash key % t.capacity, 0) states last ∧ states.length ≤ t.capacity

theorem Counted.loopsEnd (h : t.Counted) (hash : K → Nat) : LoopsEnd hash t where
  count := h.count
  insert := by
    intro key value depth u k v hcall
    obtain ⟨hu, hnested⟩ := h.calls hcall
    obtain ⟨s, hloaded, hs, hlight⟩ := hu.loaded hash
    obtain ⟨b, hb, hfree⟩ := hs.exists_free hlight
    obtain ⟨states, last, hloop, hlen, -, -⟩ := insertPass_ends hash k v hs.length hb hfree
    refine ⟨hnested, s, hloaded, hs.count, ⟨b, hb, ?_⟩, states, last, hloop, hlen⟩
    have hget := List.getElem?_eq_getElem (show b < s.table.length by rwa [hs.length])
    refine ⟨_, hget, ?_⟩
    rw [Bool.eq_false_iff]
    intro hocc
    exact hfree ⟨_, hget, hocc⟩
  seek := fun key => seekPass_ends hash key h.length h.pos

/-- Every call returns, and in every state all loops end. -/
theorem run_loopsEnd (hash : K → Nat) {n : Nat} (hn : 0 < n) (ops : List (Op K V)) :
    (∃ t, run (RobinHoodHashTable.step hash) ops (new n) = .ok t) ∧
      Always (RobinHoodHashTable.step hash) ops (new n) (LoopsEnd hash) := by
  have htotal : ∀ pre : List (Op K V),
      ∃ t, run (RobinHoodHashTable.step hash) pre (new n) = .ok t ∧ t.Counted := fun pre =>
    run_total (fun op t (h : t.Counted) => h.step hash op) (new_counted hn)
  constructor
  · obtain ⟨t, hrun, -⟩ := htotal ops
    exact ⟨t, hrun⟩
  · intro pre _ t ht
    obtain ⟨t', ht', hcounted⟩ := htotal pre
    obtain rfl := Except.ok.inj (ht'.symm.trans ht)
    exact hcounted.loopsEnd hash

theorem run_loopsEnd_sample :
    (∃ t, run (RobinHoodHashTable.step fun _ : Nat => 0)
        [.insert 1 10, .insert 2 20, .erase 1, .insert 2 30] (new 1) = .ok t) ∧
      Always (RobinHoodHashTable.step fun _ : Nat => 0)
        [.insert 1 10, .insert 2 20, .erase 1, .insert 2 30] (new 1)
        (LoopsEnd (V := Nat) fun _ => 0) :=
  run_loopsEnd (fun _ => 0) (by decide) _

end HftProject.Week5.RobinHoodHashTable
