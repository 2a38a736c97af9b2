import HftProject.Week5.RobinHoodFiniteMap
import HftProject.Week5.RobinHoodLoops

/-!
The probe distances that a `RobinHoodHashTable` stores. `insert` stores with an entry how far its
own loop has come, from the home of the key it was called with. For that key this is the distance;
for a resident that it swaps out it is too much, as the resident comes from a home further on.
No later step puts it right but a `rehash` or a `clear`, so the stored distances are the real ones
in every state of a run exactly if no loop of `insert` ever swaps (`distances_real_iff`).
-/

namespace HftProject.Week5.RobinHoodHashTable

open Probing Run

variable {K V : Type} {hash : K → Nat} {n : Nat} {T T' : List (Entry K V)}
  {t : RobinHoodHashTable K V}

/-! ### Real and stored distances -/

/-- Every entry is stored with its distance from home. -/
def Real (hash : K → Nat) (n : Nat) (T : List (Entry K V)) : Prop :=
  ∀ i e, Stores T i e → e.probeDistance = distance n (hash e.key % n) i

/-- Some entry is stored with more than its distance from home. -/
def Off (hash : K → Nat) (n : Nat) (T : List (Entry K V)) : Prop :=
  ∃ i e, Stores T i e ∧ distance n (hash e.key % n) i < e.probeDistance

/-- Probing for the key, through occupied slots that do not hold it, comes to a resident that is
stored closer to its home than the probe has come from there: `insert` swaps. -/
def Swaps (hash : K → Nat) (key : K) (t : RobinHoodHashTable K V) : Prop :=
  ∃ d < t.capacity,
    (∀ j ≤ d, ∃ e, Stores t.table (slot t.capacity (hash key % t.capacity) j) e ∧ e.key ≠ key) ∧
    ∃ e, Stores t.table (slot t.capacity (hash key % t.capacity) d) e ∧ e.probeDistance < d

theorem Off.not_real (h : Off hash n T) : ¬ Real hash n T := by
  obtain ⟨i, e, he, hlt⟩ := h
  intro hreal
  exact absurd (hreal i e he) (by omega)

/-! ### One loop of `insert` -/

variable {key : K} {value : V} {d : Nat} {E resident : Entry K V}

/-- The entry carried has come fewer steps from its own home than the loop has. -/
def Ahead (hash : K → Nat) (n : Nat) (key : K) (d : Nat) (E : Entry K V) : Prop :=
  ∃ c < d, slot n (hash E.key % n) c = slot n (hash key % n) d

theorem Ahead.next (h : Ahead hash n key d E) {E' : Entry K V} (hkey : E'.key = E.key) :
    Ahead hash n key (d + 1) E' := by
  obtain ⟨c, hc, hslot⟩ := h
  refine ⟨c + 1, Nat.succ_lt_succ hc, ?_⟩
  rw [hkey, ← slot_succ, hslot, slot_succ]

/-- A resident that is swapped out has come fewer steps than the loop. -/
theorem Filed.ahead (h : Filed hash n T)
    (hres : Stores T (slot n (hash key % n) d) resident) (hdist : resident.probeDistance < d) :
    Ahead hash n key d resident := by
  obtain ⟨c, hc, hslot, hpath⟩ := h.reach _ _ hres
  refine ⟨c, ?_, hslot⟩
  obtain ⟨e, he, hle⟩ := hpath c (Nat.lt_succ_self c)
  rw [hslot] at he
  rw [he.unique hres] at hle
  omega

/-- Storing such an entry leaves a distance that is too great. -/
theorem Ahead.off (h : Ahead hash n key d E) (hd : d < n) (hdist : E.probeDistance = d)
    (hstores : Stores T (slot n (hash key % n) d) E) : Off hash n T := by
  obtain ⟨c, hc, hslot⟩ := h
  refine ⟨_, E, hstores, ?_⟩
  rw [← hslot, distance_slot (Nat.mod_lt _ (by omega)) (lt_trans hc hd), hdist]
  exact hc

/-- Storing in a slot that is not occupied, at the distance of the slot. -/
theorem real_set_free {i : Nat} (hi : i < T.length) (hfree : ∀ e, ¬ Stores T i e)
    (hdist : E.probeDistance = distance n (hash E.key % n) i) :
    Real hash n (T.set i E) ↔ Real hash n T := by
  constructor
  · intro hreal j e he
    refine hreal j e ?_
    rw [stores_set hi, if_neg]
    · exact he
    · rintro rfl
      exact hfree e he
  · intro hreal j e he
    rw [stores_set hi] at he
    split at he
    · rename_i hij
      rw [he.1, ← hij]
      exact hdist
    · exact hreal j e he

theorem real_set_value {i : Nat} {e : Entry K V} (he : Stores T i e) (value : V) :
    Real hash n (T.set i { e with value := value }) ↔ Real hash n T := by
  constructor
  · intro hreal j e' he'
    by_cases hij : i = j
    · subst hij
      rw [he'.unique he]
      exact hreal i { e with value := value } (stores_set_self he.lt he.2)
    · exact hreal j e' (by rwa [stores_set he.lt, if_neg hij])
  · intro hreal j e' he'
    rw [stores_set he.lt] at he'
    split at he'
    · rename_i hij
      rw [he'.1, ← hij]
      exact hreal i e he
    · exact hreal j e' he'

theorem off_set_free {i : Nat} (hi : i < T.length) (hfree : ∀ e, ¬ Stores T i e)
    (h : Off hash n T) : Off hash n (T.set i E) := by
  obtain ⟨j, e, he, hlt⟩ := h
  refine ⟨j, e, ?_, hlt⟩
  rw [stores_set hi, if_neg]
  · exact he
  · rintro rfl
    exact hfree e he

variable [DecidableEq K]

/-- A stored key is found before any swap. -/
theorem Filed.place_real_stored (h : Filed hash t.capacity t.table) {i : Nat} {e : Entry K V}
    (he : Stores t.table i e) (value : V) {inserted : Bool}
    (hplace : place t.capacity e.key value t.capacity (hash e.key % t.capacity) 0
      ⟨e.key, value, true, 0⟩ t.table = .ok (inserted, T')) :
    Real hash t.capacity T' ↔ Real hash t.capacity t.table ∧ ¬ Swaps hash e.key t := by
  obtain ⟨d, hd, rfl, hpath⟩ := h.reach i e he
  have hstart := slot_zero (n := t.capacity) (Nat.mod_lt (hash e.key) (by omega))
  have hstored : place t.capacity e.key value t.capacity
      (slot t.capacity (hash e.key % t.capacity) 0) 0 ⟨e.key, value, true, 0⟩ t.table = _ :=
    h.place_stored hd he hpath value (Nat.zero_le _) (by omega)
  rw [hstart] at hstored
  obtain ⟨rfl, rfl⟩ := Prod.mk.inj (Except.ok.inj (hstored.symm.trans hplace))
  rw [real_set_value he]
  refine (and_iff_left ?_).symm
  rintro ⟨j, -, hothers, resident, hres, hdist⟩
  rcases Nat.lt_or_ge j d with hlt | hge
  · obtain ⟨e', he', hle⟩ := hpath j (by omega)
    rw [he'.unique hres] at hle
    omega
  · obtain ⟨e', he', hkey⟩ := hothers d hge
    exact hkey (by rw [he'.unique he])

/-- A key that is not stored comes to its slot with real distances exactly if nothing is
swapped out on the way. -/
theorem Filed.place_real_absent (h : Filed hash t.capacity t.table)
    (absent : ∀ i e, Stores t.table i e → e.key ≠ key) {last : Nat} (hlast : last < t.capacity)
    (hfree : ∀ e, ¬ Stores t.table (slot t.capacity (hash key % t.capacity) last) e)
    (hfull : ∀ i < last, ∃ e, Stores t.table (slot t.capacity (hash key % t.capacity) i) e)
    {inserted : Bool}
    (hplace : place t.capacity key value t.capacity (hash key % t.capacity) 0
      ⟨key, value, true, 0⟩ t.table = .ok (inserted, T')) :
    Real hash t.capacity T' ↔ Real hash t.capacity t.table ∧ ¬ Swaps hash key t := by
  have hhome : hash key % t.capacity < t.capacity := Nat.mod_lt _ (by omega)
  -- Up to the first swap the loop has left the table alone; after it some distance is too great.
  let P : Nat → List (Entry K V) → Entry K V → Prop := fun d T' E =>
    (T' = t.table ∧ E = ⟨key, value, true, d⟩ ∧ ∀ j < d, ∀ e,
      Stores t.table (slot t.capacity (hash key % t.capacity) j) e → j ≤ e.probeDistance) ∨
    (Swaps hash key t ∧ (Off hash t.capacity T' ∨ Ahead hash t.capacity key d E))
  have hpass : ∀ d T' E resident, Carrying hash t.capacity t.table key value d T' E → d < last →
      Stores T' (slot t.capacity (hash key % t.capacity) d) resident →
      d ≤ resident.probeDistance → P d T' E → P (d + 1) T' { E with probeDistance := d + 1 } := by
    rintro d T' E resident - - hres hdist (⟨rfl, rfl, hpassed⟩ | ⟨hswaps, hoff⟩)
    · refine .inl ⟨rfl, rfl, fun j hj e he => ?_⟩
      rcases Nat.lt_succ_iff_lt_or_eq.mp hj with hj | rfl
      · exact hpassed j hj e he
      · rwa [he.unique hres]
    · exact .inr ⟨hswaps, hoff.imp_right fun hahead => hahead.next rfl⟩
  have hswap : ∀ d T' E resident, Carrying hash t.capacity t.table key value d T' E → d < last →
      Stores T' (slot t.capacity (hash key % t.capacity) d) resident →
      resident.probeDistance < d → P d T' E →
      P (d + 1) (T'.set (slot t.capacity (hash key % t.capacity) d) E)
        { resident with probeDistance := d + 1 } := by
    intro d T' E resident hcarrying hd hres hdist hP
    have hahead := hcarrying.filed.ahead hres hdist
    refine .inr ⟨?_, .inr (hahead.next rfl)⟩
    rcases hP with ⟨rfl, rfl, -⟩ | ⟨hswaps, -⟩
    · refine ⟨d, by omega, fun j hj => ?_, resident, hres, hdist⟩
      obtain ⟨e, he⟩ := hfull j (by omega)
      exact ⟨e, he, absent _ e he⟩
    · exact hswaps
  have hinit : P 0 t.table ⟨key, value, true, 0⟩ :=
    .inl ⟨rfl, rfl, fun j hj => absurd hj (Nat.not_lt_zero j)⟩
  obtain ⟨T₁, E₁, resident, hplace', hcarrying, hP, hget, hempty⟩ :=
    Carrying.place_with hpass hswap (.start h absent) hinit hlast hfree hfull (Nat.zero_le _)
      (show last - 0 < t.capacity by omega)
  rw [slot_zero hhome] at hplace'
  obtain ⟨rfl, rfl⟩ := Prod.mk.inj (Except.ok.inj (hplace'.symm.trans hplace))
  have hlt := (List.getElem?_eq_some_iff.mp hget).1
  rcases hP with ⟨rfl, rfl, hpassed⟩ | ⟨hswaps, hoff⟩
  · rw [real_set_free hlt hfree (distance_slot hhome hlast).symm]
    refine (and_iff_left ?_).symm
    rintro ⟨d, -, hothers, e, he, hdist⟩
    rcases Nat.lt_or_ge d last with hd | hd
    · exact absurd (hpassed d hd e he) (by omega)
    · obtain ⟨e', he', -⟩ := hothers last hd
      exact hfree e' he'
  · refine iff_of_false (Off.not_real ?_) fun hboth => hboth.2 hswaps
    rcases hoff with hoff | hahead
    · refine off_set_free hlt (fun e he => ?_) hoff
      have hocc := he.2
      rw [Option.some.inj (he.1.symm.trans hget), hempty] at hocc
      cases hocc
    · exact hahead.off hlast hcarrying.distance (stores_set_self hlt hcarrying.live)

/-! ### One call -/

variable {m : Contents K V}

theorem Represents.counted (h : Represents hash m t) : t.Counted :=
  ⟨h.pos, h.filed.length, h.occupied.symm⟩

/-- The loop keeps the distances real, and makes them no better, unless it swaps. -/
theorem Represents.place_real (h : Represents hash m t) (hlight : ¬ t.Overloaded)
    {inserted : Bool}
    (hplace : RobinHoodHashTable.place t.capacity key value t.capacity (hash key % t.capacity) 0
      ⟨key, value, true, 0⟩ t.table = .ok (inserted, T')) :
    Real hash t.capacity T' ↔ Real hash t.capacity t.table ∧ ¬ Swaps hash key t := by
  cases hk : m.lookup key with
  | some v =>
      obtain ⟨i, e, he, rfl, -, -⟩ := h.stored hk
      exact h.filed.place_real_stored he value hplace
  | none =>
      obtain ⟨b, hb, hfree⟩ := h.exists_free (h.not_full hlight)
      obtain ⟨last, hlast, hnot, hfull⟩ :=
        exists_end (p := fun b => ∃ e, Stores t.table b e) (Nat.mod_lt (hash key) h.pos) hb hfree
      exact h.filed.place_real_absent (h.absent hk) hlast (fun e he => hnot ⟨e, he⟩) hfull hplace

variable [Inhabited K] [Inhabited V] {t' : RobinHoodHashTable K V}

theorem Represents.insertWithin_real (h : Represents hash m t) (hlight : ¬ t.Overloaded)
    (depth : Nat) {inserted : Bool}
    (hinsert : insertWithin hash (depth + 1) key value t = .ok (inserted, t')) :
    Real hash t'.capacity t'.table ↔
      Real hash t.capacity t.table ∧ ¬ Swaps hash key t := by
  obtain ⟨inserted', table, hplace, -⟩ := h.counted.place hlight hash key value
  rw [insertWithin, if_neg hlight] at hinsert
  simp only [bind, Except.bind, hplace, pure, Except.pure, Except.ok.injEq, Prod.mk.injEq]
    at hinsert
  obtain ⟨rfl, rfl⟩ := hinsert
  exact h.place_real hlight hplace

/-- One entry of the old table, entered into the new one by `rehash`. -/
def enter (insert : K → V → RobinHoodHashTable K V → Except Fault (Bool × RobinHoodHashTable K V))
    (entry : Entry K V) (t : RobinHoodHashTable K V) : Except Fault (RobinHoodHashTable K V) :=
  if entry.occupied then (·.2) <$> insert entry.key entry.value t else .ok t

omit [DecidableEq K] in
theorem rehash_eq_run
    (insert : K → V → RobinHoodHashTable K V → Except Fault (Bool × RobinHoodHashTable K V))
    (t : RobinHoodHashTable K V) :
    rehash insert t = run (enter insert) t.table (new (t.capacity * 2)) :=
  foldlM_eq_run _ _ _

/-- Entering the entry does not swap. -/
def EntersUnswapped (hash : K → Nat) (entry : Entry K V) (t : RobinHoodHashTable K V) : Prop :=
  entry.occupied = true → ¬ Swaps hash entry.key t

theorem Represents.enter_real {entries : List (Entry K V)} (h : Represents hash m t)
    (depth : Nat)
    (hroom : 10 * (t.numElements + entries.countP (·.occupied)) ≤ 7 * t.capacity + 10)
    (hrun : Run.run (enter (insertWithin hash (depth + 1))) entries t = .ok t') :
    Real hash t'.capacity t'.table ↔ Real hash t.capacity t.table ∧
      Steps (enter (insertWithin hash (depth + 1))) entries t (EntersUnswapped hash) := by
  induction entries generalizing m t with
  | nil =>
      obtain rfl := Except.ok.inj hrun
      exact (and_iff_left steps_nil).symm
  | cons e entries ih =>
      by_cases hocc : e.occupied = true
      · have hcons : (e :: entries).countP (·.occupied) = entries.countP (·.occupied) + 1 :=
          List.countP_cons_of_pos hocc
        rw [hcons] at hroom
        have hlight : ¬ t.Overloaded := by
          unfold Overloaded
          omega
        obtain ⟨t₁, hinsert, hrep, hcap⟩ := h.insertWithin_light hlight depth e.key e.value
        have hsize : t₁.numElements ≤ t.numElements + 1 := by
          rw [hrep.count, h.count, keys_insert]
          exact Finset.card_insert_le _ _
        have henter : enter (insertWithin hash (depth + 1)) e t = .ok t₁ := by
          rw [enter, if_pos hocc, hinsert]
          rfl
        have hfirst : EntersUnswapped hash e t ↔ ¬ Swaps hash e.key t :=
          ⟨fun hall => hall hocc, fun hnot _ => hnot⟩
        rw [run_cons_ok henter] at hrun
        rw [ih hrep (by rw [hcap]; omega) hrun, h.insertWithin_real hlight _ hinsert,
          steps_cons_ok henter, hfirst, and_assoc]
      · have hcons : (e :: entries).countP (·.occupied) = entries.countP (·.occupied) :=
          List.countP_cons_of_neg hocc
        rw [hcons] at hroom
        have henter : enter (insertWithin hash (depth + 1)) e t = .ok t := by
          rw [enter, if_neg hocc]
        have hfirst : EntersUnswapped hash e t := fun hlive => absurd hlive hocc
        rw [run_cons_ok henter] at hrun
        rw [ih h hroom hrun, steps_cons_ok henter, and_iff_right hfirst]

omit [DecidableEq K] in
theorem new_real {n : Nat} : Real hash n (new n : RobinHoodHashTable K V).table := by
  rintro i e ⟨hget, hocc⟩
  rw [new, List.getElem?_replicate] at hget
  split at hget
  · cases hget
    cases hocc
  · cases hget

/-- `rehash` stores real distances, whatever they were, exactly if it does not swap. -/
theorem Represents.rehash_real (h : Represents hash m t) (depth : Nat)
    (hrehash : RobinHoodHashTable.rehash (insertWithin hash (depth + 1)) t = .ok t') :
    Real hash t'.capacity t'.table ↔
      Steps (enter (insertWithin hash (depth + 1))) t.table (new (t.capacity * 2))
        (EntersUnswapped hash) := by
  obtain ⟨hempty, hfits⟩ := h.doubled
  rw [rehash_eq_run] at hrehash
  rw [hempty.enter_real depth hfits hrehash]
  exact and_iff_right new_real

/-! ### Calls without a swap -/

/-- No loop of a call of `insert`, of those it makes through `rehash` included, comes to swap. -/
def Unswapped (hash : K → Nat) (op : Op K V) (t : RobinHoodHashTable K V) : Prop :=
  match op with
  | .insert key value => ∀ depth u k v, Calls hash t key value depth u k v →
      ∀ s, u.loaded hash = .ok s → ¬ Swaps hash k s
  | .erase _ => True
  | .clear => True

/-- A call of `insert` makes itself, and one call for each entry if the table is to grow. -/
theorem Counted.calls_cases (h : t.Counted) {k : K} {v : V} {depth : Nat}
    {u : RobinHoodHashTable K V} (hcall : Calls hash t key value depth u k v) :
    (u = t ∧ k = key) ∨ t.Overloaded ∧ ∃ pre entry, pre ++ [entry] <+: t.table ∧
      entry.occupied = true ∧ k = entry.key ∧ ¬ u.Overloaded ∧
      run (enter (RobinHoodHashTable.insert hash)) pre (new (t.capacity * 2)) = .ok u := by
  induction hcall with
  | self => exact .inl ⟨rfl, rfl⟩
  | @rehash depth u w k v pre post entry hcall hover htable hocc hrehash ih =>
      have hlight := (h.calls (.rehash hcall hover htable hocc hrehash)).2 (Nat.succ_pos depth)
      rcases ih with ⟨rfl, rfl⟩ | ⟨-, _, _, _, _, _, hnot, _⟩
      · refine .inr ⟨hover, pre, entry, ?_, hocc, rfl, hlight, ?_⟩
        · rw [htable]
          exact ⟨post, by simp⟩
        · rwa [rehash_eq_run] at hrehash
      · exact absurd hover hnot

/-- The calls of an `insert` do not swap: neither its own loop nor, if the table is to grow,
those of `rehash`. -/
theorem Counted.unswapped_iff (h : t.Counted) {s : RobinHoodHashTable K V}
    (hloaded : t.loaded hash = .ok s) :
    Unswapped hash (.insert key value) t ↔ (t.Overloaded →
      Steps (enter (RobinHoodHashTable.insert hash)) t.table (new (t.capacity * 2))
        (EntersUnswapped hash)) ∧ ¬ Swaps hash key s := by
  constructor
  · intro hall
    refine ⟨fun hover pre entry hpre u hu hocc => ?_, hall 0 t key value .self s hloaded⟩
    obtain ⟨post, hpost⟩ := hpre
    have htable : t.table = pre ++ entry :: post := by rw [← hpost]; simp
    have hcall : Calls hash t key value 1 u entry.key entry.value :=
      .rehash .self hover htable hocc (by rw [rehash_eq_run]; exact hu)
    have hlight := (h.calls hcall).2 (Nat.succ_pos 0)
    exact hall 1 u entry.key entry.value hcall u (if_neg hlight)
  · rintro ⟨hrehash, hself⟩ depth u k v hcall s' hs'
    rcases h.calls_cases hcall with ⟨rfl, rfl⟩ | ⟨hover, pre, entry, hpre, hocc, rfl, hlight, hu⟩
    · obtain rfl := Except.ok.inj (hloaded.symm.trans hs')
      exact hself
    · rw [RobinHoodHashTable.loaded, if_neg hlight] at hs'
      obtain rfl := Except.ok.inj hs'
      exact hrehash hover pre entry hpre u hu hocc

/-- A call of `insert` leaves real distances exactly if the distances before it were real, or a
`rehash` has discarded them, and no loop swaps. -/
theorem Represents.insert_real (h : Represents hash m t) (key : K) (value : V) :
    ∃ t', step hash (.insert key value) t = .ok t' ∧ Represents hash (m.insert key value) t' ∧
      (Real hash t'.capacity t'.table ↔
        (t.Overloaded ∨ Real hash t.capacity t.table) ∧
          Unswapped hash (.insert key value) t) := by
  obtain ⟨s, hloaded, -, hlight⟩ := h.counted.loaded hash
  obtain ⟨t', hinsert, hrep⟩ := h.insert key value
  refine ⟨t', by rw [step, hinsert]; rfl, hrep, ?_⟩
  rw [h.counted.unswapped_iff hloaded]
  by_cases hover : t.Overloaded
  · obtain ⟨grown, hrehash, hs, -⟩ := h.rehash 1
    have hgrown : t.loaded hash = .ok grown := (if_pos hover).trans hrehash
    obtain rfl := Except.ok.inj (hgrown.symm.trans hloaded)
    have hlast : insertWithin hash (0 + 1) key value grown =
        .ok (decide (m.lookup key = none), t') := by
      rw [← hinsert, h.counted.insert_eq, hgrown, insertWithin, if_neg hlight]
    rw [hs.insertWithin_real hlight 0 hlast, h.rehash_real 1 hrehash]
    simp [hover, RobinHoodHashTable.insert]
  · rw [loaded, if_neg hover] at hloaded
    obtain rfl := Except.ok.inj hloaded
    rw [h.insertWithin_real hover 1 hinsert]
    simp [hover]

/-! ### Runs -/

/-- The stored distances are real in every state exactly as long as no loop of `insert` swaps. -/
theorem distances_real_iff (hash : K → Nat) {n : Nat} (hn : 0 < n) (ops : List (Op K V))
    (hops : ∀ key, Op.erase key ∉ ops) :
    (∃ t, run (step hash) ops (new n) = .ok t) ∧
      (Always (step hash) ops (new n) (fun t => Real hash t.capacity t.table) ↔
        Steps (step hash) ops (new n) (Unswapped hash)) := by
  refine ⟨(run_loopsEnd hash hn ops).1, ?_⟩
  have hnot : ∀ op ∈ ops, ∀ key, op ≠ .erase key := by
    rintro op hop key rfl
    exact hops key hop
  refine always_iff_steps_on (I := fun t => ∃ m, Represents hash m t) ?_ ?_ hnot
    ⟨∅, new_represents hn⟩ new_real
  · rintro op t t' hop ⟨m, h⟩ hreal hcond hstep
    cases op with
    | insert key value =>
        obtain ⟨t'', hstep', hrep, hiff⟩ := h.insert_real key value
        obtain rfl := Except.ok.inj (hstep'.symm.trans hstep)
        exact ⟨⟨_, hrep⟩, hiff.mpr ⟨.inr hreal, hcond⟩⟩
    | erase key => exact absurd rfl (hop key)
    | clear =>
        obtain rfl := Except.ok.inj hstep
        exact ⟨⟨∅, new_represents h.pos⟩, new_real⟩
  · rintro op t hop ⟨m, h⟩ hreal hcond
    cases op with
    | insert key value =>
        obtain ⟨t', hstep, -, hiff⟩ := h.insert_real key value
        exact ⟨t', hstep, fun hreal' => hcond (hiff.mp hreal').2⟩
    | erase key => exact absurd rfl (hop key)
    | clear => exact absurd trivial hcond

theorem distances_real_iff_sample :
    (∃ t, run (step fun k : Nat => k) [.insert 0 10, .insert 1 20, .clear] (new 4) = .ok t) ∧
      (Always (step fun k => k) [.insert 0 10, .insert 1 20, .clear]
          (new 4 : RobinHoodHashTable Nat Nat) (fun t => Real (fun k => k) t.capacity t.table) ↔
        Steps (step fun k => k) [.insert 0 10, .insert 1 20, .clear] (new 4)
          (Unswapped fun k => k)) :=
  distances_real_iff (fun k => k) (by decide) _ (by simp)

/-- Keys 0 and 1 stand at home; 4, which shares the home of 0, takes the slot of 1, which goes on
by one step and is stored with two. -/
theorem swapped_distance_too_great :
    ∃ t, run (step fun k : Nat => k) [.insert 0 10, .insert 1 20, .insert 4 30] (new 4) = .ok t ∧
      t.capacity = 4 ∧ t.table[2]? = some ⟨1, 20, true, 2⟩ ∧ distance 4 (1 % 4) 2 = 1 ∧
      ¬ Real (fun k => k) t.capacity t.table := by
  refine ⟨_, rfl, rfl, rfl, rfl, fun hreal => ?_⟩
  have hdist := hreal 2 ⟨1, 20, true, 2⟩ ⟨rfl, rfl⟩
  exact absurd hdist (by decide)

end HftProject.Week5.RobinHoodHashTable
