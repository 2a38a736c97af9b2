import Mathlib.Data.List.Sort

/-!
Ordered multimaps with stable insertion. A multimap is its list of entries in
iteration order; `before` is the strict order of its keys. `emplace` puts a new
entry at the upper bound of its key: behind every entry whose key is the same or
comes earlier, in front of the first entry whose key comes later. Entries of one
key therefore stay in insertion order.
-/

namespace HftProject

/-- The entries of a multimap, in iteration order. -/
abbrev Multimap (K V : Type) := List (K × V)

namespace Multimap

variable {K V : Type} (before : K → K → Prop) [DecidableRel before]

/-- Insert at the upper bound of the key. -/
def emplace (k : K) (v : V) (m : Multimap K V) : Multimap K V :=
  m.orderedInsert (fun e f => before e.1 f.1) (k, v)

/-- No entry's key comes before the key of an entry in front of it. -/
def Sorted (m : Multimap K V) : Prop := m.Pairwise fun e f => ¬ before f.1 e.1

variable {before}

@[simp] theorem mem_emplace {k : K} {v : V} {m : Multimap K V} {e : K × V} :
    e ∈ emplace before k v m ↔ e = (k, v) ∨ e ∈ m := by
  simp [emplace, List.mem_orderedInsert]

theorem emplace_perm (before : K → K → Prop) [DecidableRel before] (k : K) (v : V)
    (m : Multimap K V) :
    (emplace before k v m).Perm ((k, v) :: m) :=
  List.perm_orderedInsert _ _ _

/-- A relation between earlier and later entries survives an insertion when it
holds from the entries of the same or an earlier key to the new one, and from the
new one to the entries of a later key. -/
theorem pairwise_emplace (negTrans : ∀ a b c, ¬ before a b → ¬ before b c → ¬ before a c)
    {R : K × V → K × V → Prop} {k : K} {v : V} {m : Multimap K V}
    (sorted : Sorted before m) (rel : m.Pairwise R)
    (front : ∀ e ∈ m, ¬ before k e.1 → R e (k, v)) (back : ∀ e ∈ m, before k e.1 → R (k, v) e) :
    (emplace before k v m).Pairwise R := by
  induction m with
  | nil => simp [emplace]
  | cons b m ih =>
      obtain ⟨sortedHead, sortedTail⟩ := List.pairwise_cons.mp sorted
      obtain ⟨relHead, relTail⟩ := List.pairwise_cons.mp rel
      by_cases hk : before k b.1
      · have later : ∀ e ∈ b :: m, before k e.1 := by
          intro e he
          rcases List.mem_cons.mp he with rfl | he
          · exact hk
          · by_contra hnot
            exact negTrans k e.1 b.1 hnot (sortedHead e he) hk
        have hins : emplace before k v (b :: m) = (k, v) :: b :: m := by
          simp [emplace, hk]
        rw [hins]
        exact List.pairwise_cons.mpr ⟨fun e he => back e he (later e he), rel⟩
      · have hins : emplace before k v (b :: m) = b :: emplace before k v m := by
          simp [emplace, hk]
        rw [hins]
        refine List.pairwise_cons.mpr ⟨fun e he => ?_, ?_⟩
        · rcases mem_emplace.mp he with rfl | he
          · exact front b List.mem_cons_self hk
          · exact relHead e he
        · exact ih sortedTail relTail (fun e he => front e (List.mem_cons_of_mem _ he))
            (fun e he => back e (List.mem_cons_of_mem _ he))

/-- Insertion keeps the entries sorted. -/
theorem Sorted.emplace (asymm : ∀ a b, before a b → ¬ before b a)
    (negTrans : ∀ a b c, ¬ before a b → ¬ before b c → ¬ before a c)
    {m : Multimap K V} (sorted : Sorted before m) (k : K) (v : V) :
    Sorted before (emplace before k v m) :=
  pairwise_emplace negTrans sorted sorted (fun _ _ h => h) (fun _ _ h => asymm _ _ h)

omit [DecidableRel before] in
theorem Sorted.sublist {m m' : Multimap K V} (sorted : Sorted before m) (h : m'.Sublist m) :
    Sorted before m' :=
  List.Pairwise.sublist h sorted

/-- Erasing the first entry that a test finds, when it finds the entry of one value
only, erases that value. -/
theorem eraseP_values {m : Multimap K V} [DecidableEq V] {v : V} {p : K × V → Bool}
    (nodup : (m.map (·.2)).Nodup) (only : ∀ e ∈ m, p e = true ↔ e.2 = v) :
    (m.eraseP p).map (·.2) = (m.map (·.2)).erase v := by
  induction m with
  | nil => rfl
  | cons e m ih =>
      obtain ⟨_, hnodup⟩ := List.nodup_cons.mp nodup
      have hhead := only e List.mem_cons_self
      by_cases he : e.2 = v
      · rw [List.eraseP_cons_of_pos (hhead.mpr he), List.map_cons, he, List.erase_cons_head]
      · have hne : ¬ p e = true := fun hp => he (hhead.mp hp)
        rw [List.eraseP_cons_of_neg hne, List.map_cons, List.map_cons,
          List.erase_cons_tail (by simpa using he),
          ih hnodup fun f hf => only f (List.mem_cons_of_mem _ hf)]

variable (before) in
/-- Erasing what a test finds undoes the insertion of the only entry it finds. -/
theorem eraseP_emplace {m : Multimap K V} {k : K} {v : V} {p : K × V → Bool}
    (found : p (k, v) = true) (only : ∀ e ∈ m, ¬ p e = true) :
    (emplace before k v m).eraseP p = m := by
  induction m with
  | nil => exact List.eraseP_cons_of_pos found
  | cons e m ih =>
      by_cases hk : before k e.1
      · have hins : emplace before k v (e :: m) = (k, v) :: e :: m := by simp [emplace, hk]
        rw [hins, List.eraseP_cons_of_pos found]
      · have hins : emplace before k v (e :: m) = e :: emplace before k v m := by
          simp [emplace, hk]
        rw [hins, List.eraseP_cons_of_neg (only e List.mem_cons_self),
          ih fun f hf => only f (List.mem_cons_of_mem _ hf)]

/-! ### Keys of a linear order -/

theorem negTrans_lt {K : Type} [LinearOrder K] (a b c : K) :
    ¬ a < b → ¬ b < c → ¬ a < c := fun hab hbc =>
  not_lt.mpr (le_trans (not_lt.mp hbc) (not_lt.mp hab))

theorem negTrans_gt {K : Type} [LinearOrder K] (a b c : K) :
    ¬ a > b → ¬ b > c → ¬ a > c := fun hab hbc =>
  not_lt.mpr (le_trans (not_lt.mp hab) (not_lt.mp hbc))

end Multimap

end HftProject
