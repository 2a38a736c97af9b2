import Mathlib.Data.Nat.Init
import Mathlib.Order.Defs.Unbundled

/-!
Binary heaps in an array, for a strict weak order `r`: no parent is below its child. While a
heap is repaired, the order fails at one position only, towards its parent (`UpOrder`) or
towards its children (`DownOrder`); an exchange of the two moves that position and keeps the
rest in order.
-/

namespace HftProject.Heap

variable {T : Type} {r : T → T → Prop}

/-! ### Positions -/

def parent (i : Nat) : Nat := (i - 1) / 2

/-- Position 0 is no child, although `parent 0` is 0. -/
def IsChild (c p : Nat) : Prop := 0 < c ∧ parent c = p

theorem isChild_iff {c p : Nat} : IsChild c p ↔ c = 2 * p + 1 ∨ c = 2 * p + 2 := by
  unfold IsChild parent
  omega

theorem isChild_parent {c : Nat} (h : 0 < c) : IsChild c (parent c) := ⟨h, rfl⟩

theorem IsChild.lt {c p : Nat} (h : IsChild c p) : p < c := by
  rcases isChild_iff.mp h with rfl | rfl <;> omega

theorem IsChild.unique {c p q : Nat} (h : IsChild c p) (h' : IsChild c q) : p = q :=
  h.2.symm.trans h'.2

theorem parent_lt {c : Nat} (h : 0 < c) : parent c < c := IsChild.lt (isChild_parent h)

/-! ### Heap order -/

theorem not_lt_trans [IsStrictWeakOrder T r] {a b c : T} (hab : ¬ r a b) (hbc : ¬ r b c) :
    ¬ r a c := by
  intro hac
  have hba : ¬ r b a := fun hba => hbc (trans_of r hba hac)
  have hcb : ¬ r c b := fun hcb => hab (trans_of r hac hcb)
  exact (IsStrictWeakOrder.incomp_trans a b c ⟨hab, hba⟩ ⟨hbc, hcb⟩).1 hac

/-- The entry at `p`, if there is one, is not below the entry at `c`. -/
def Above (r : T → T → Prop) (xs : Array T) (p c : Nat) : Prop :=
  ∀ a b, xs[p]? = some a → xs[c]? = some b → ¬ r a b

def Ordered (r : T → T → Prop) (xs : Array T) : Prop := ∀ c p, IsChild c p → Above r xs p c

/-- Everything is in order but `i` and its parent. -/
structure UpOrder (r : T → T → Prop) (xs : Array T) (i : Nat) : Prop where
  others : ∀ c p, IsChild c p → c ≠ i → Above r xs p c
  across : ∀ c p, IsChild i p → IsChild c i → Above r xs p c

/-- Everything is in order but `i` and its children. -/
structure DownOrder (r : T → T → Prop) (xs : Array T) (i : Nat) : Prop where
  others : ∀ c p, IsChild c p → p ≠ i → Above r xs p c
  across : ∀ c p, IsChild i p → IsChild c i → Above r xs p c

/-- `ys` is `xs` with two entries exchanged. -/
structure Exchanged (xs ys : Array T) (i j : Nat) : Prop where
  left : ys[i]? = xs[j]?
  right : ys[j]? = xs[i]?
  others : ∀ k, k ≠ i → k ≠ j → ys[k]? = xs[k]?

theorem exchanged_swap (xs : Array T) {i j : Nat} (hi : i < xs.size) (hj : j < xs.size) :
    Exchanged xs (xs.swap i j hi hj) i j where
  left := by
    rw [Array.getElem?_swap, Array.getElem?_eq_getElem hj]
    split
    · rename_i heq
      simp [heq]
    · simp
  right := by rw [Array.getElem?_swap, if_pos rfl, Array.getElem?_eq_getElem hi]
  others k hki hkj := by rw [Array.getElem?_swap, if_neg (Ne.symm hkj), if_neg (Ne.symm hki)]

variable {xs ys : Array T} {i p m : Nat}

/-- The root of a heap is not below any entry. -/
theorem Ordered.root [IsStrictWeakOrder T r] (h : Ordered r xs) {top : T} (htop : xs[0]? = some top)
    (k : Nat) {a : T} (ha : xs[k]? = some a) : ¬ r top a := by
  induction k using Nat.strong_induction_on generalizing a with
  | _ k ih =>
      rcases Nat.eq_zero_or_pos k with rfl | hpos
      · rw [htop] at ha
        cases ha
        exact irrefl_of r top
      · have hk : k < xs.size := (Array.getElem?_eq_some_iff.mp ha).1
        have hpk := parent_lt hpos
        have hsize : parent k < xs.size := by omega
        have hparent : xs[parent k]? = some xs[parent k] := Array.getElem?_eq_getElem hsize
        exact not_lt_trans (ih (parent k) hpk hparent)
          (h k (parent k) (isChild_parent hpos) _ _ hparent ha)

/-! ### Towards the root -/

/-- The last entry of a heap is the only one that can be out of order when it is new. -/
theorem Ordered.push (h : Ordered r xs) (a : T) : UpOrder r (xs.push a) xs.size where
  others c p hc hne b d hb hd := by
    have hcs : c < xs.size := by
      have := (Array.getElem?_eq_some_iff.mp hd).1
      rw [Array.size_push] at this
      omega
    have hpc := hc.lt
    rw [Array.getElem?_push, if_neg (by omega)] at hb hd
    exact h c p hc b d hb hd
  across c p hp hc b d hb hd := by
    have hcs := (Array.getElem?_eq_some_iff.mp hd).1
    have hpc := hc.lt
    rw [Array.size_push] at hcs
    omega

theorem UpOrder.exchange [IsStrictWeakOrder T r] (h : UpOrder r xs i) (hp : IsChild i p) {a b : T}
    (ha : xs[p]? = some a) (hb : xs[i]? = some b) (hab : r a b) (hys : Exchanged xs ys p i) :
    UpOrder r ys p := by
  have hpi := hp.lt
  constructor
  · intro c q hc hcp d e hd he
    have hqc := hc.lt
    by_cases hci : c = i
    · subst hci
      obtain rfl := hp.unique hc
      rw [hys.left, hb] at hd
      rw [hys.right, ha] at he
      cases hd
      cases he
      exact asymm_of r hab
    · rw [hys.others c hcp hci] at he
      by_cases hqp : q = p
      · subst hqp
        rw [hys.left, hb] at hd
        cases hd
        exact not_lt_trans (asymm_of r hab) (h.others c q hc hci a e ha he)
      · by_cases hqi : q = i
        · subst hqi
          rw [hys.right, ha] at hd
          cases hd
          exact h.across c p hp hc a e ha he
        · rw [hys.others q hqp hqi] at hd
          exact h.others c q hc hci d e hd he
  · intro c q hq hc d e hd he
    have hqp := hq.lt
    have hpc := hc.lt
    rw [hys.others q (by omega) (by omega)] at hd
    have hda := h.others p q hq (by omega) d a hd ha
    by_cases hci : c = i
    · subst hci
      rw [hys.right, ha] at he
      cases he
      exact hda
    · rw [hys.others c (by omega) hci] at he
      exact not_lt_trans hda (h.others c p hc hci a e ha he)

theorem UpOrder.ordered (h : UpOrder r xs i) (hi : ∀ p, IsChild i p → Above r xs p i) :
    Ordered r xs := by
  intro c p hc
  by_cases hci : c = i
  · subst hci
    exact hi p hc
  · exact h.others c p hc hci

/-! ### Towards the leaves -/

/-- The last entry of a heap takes the place of the root. -/
theorem Ordered.replaceRoot (h : Ordered r xs) (hpos : 0 < xs.size) (a : T) :
    DownOrder r (xs.set 0 a).pop 0 where
  others c p hc hne b d hb hd := by
    have hpc := hc.lt
    rw [Array.getElem?_pop] at hb hd
    split at hd
    · rw [Array.getElem?_set_ne _ (by omega)] at hd
      split at hb
      · rw [Array.getElem?_set_ne _ (by omega)] at hb
        exact h c p hc b d hb hd
      · cases hb
    · cases hd
  across c p hp hc := absurd hp.1 (Nat.lt_irrefl 0)

theorem DownOrder.exchange [IsStrictWeakOrder T r] (h : DownOrder r xs i) (hm : IsChild m i)
    {a b : T} (ha : xs[i]? = some a) (hb : xs[m]? = some b) (hab : r a b)
    (hmax : ∀ c, IsChild c i → Above r xs m c) (hys : Exchanged xs ys i m) : DownOrder r ys m := by
  have him := hm.lt
  constructor
  · intro c q hc hqm d e hd he
    have hqc := hc.lt
    by_cases hqi : q = i
    · subst hqi
      rw [hys.left, hb] at hd
      cases hd
      by_cases hcm : c = m
      · subst hcm
        rw [hys.right, ha] at he
        cases he
        exact asymm_of r hab
      · rw [hys.others c (by omega) hcm] at he
        exact hmax c hc b e hb he
    · rw [hys.others q hqi hqm] at hd
      by_cases hci : c = i
      · subst hci
        rw [hys.left, hb] at he
        cases he
        exact h.across m q hc hm d b hd hb
      · have hcm : c ≠ m := by
          rintro rfl
          exact hqi (hc.unique hm)
        rw [hys.others c hci hcm] at he
        exact h.others c q hc hqi d e hd he
  · intro c q hq hc d e hd he
    obtain rfl := hq.unique hm
    have hmc := hc.lt
    rw [hys.left, hb] at hd
    cases hd
    rw [hys.others c (by omega) (by omega)] at he
    exact h.others c m hc (by omega) b e hb he

theorem DownOrder.ordered (h : DownOrder r xs i) (hi : ∀ c, IsChild c i → Above r xs i c) :
    Ordered r xs := by
  intro c p hc
  by_cases hpi : p = i
  · subst hpi
    exact hi c hc
  · exact h.others c p hc hpi

end HftProject.Heap
