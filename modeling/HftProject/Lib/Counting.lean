import HftProject.Lib.Run
import Mathlib.Algebra.BigOperators.Group.Finset.Basic
import Mathlib.Algebra.BigOperators.Intervals

/-!
Loops with a counter over a fallible body. `loop` is `for (; cond i; i = next i)` and
`forLoop` the loop from `lo` up to `hi`; both stop at the first failure of the body or of the
counter. An invariant of the passes is one of the loop (`loop_rule`). A loop over the indices of a
list is a fold (`forLoop_foldlM`), and one that writes one place after the other a map
(`forLoop_map_range`). Where a pass stands in an additive relation to its state, as adding
something to an accumulator does, the loop stands in it with the sum of its passes
(`forLoop_adds`). A loop that comes to its end has made all its passes (`forLoop_inv`).
-/

namespace HftProject.Counting

variable {S E : Type}

/-- The counter and the state where the loop ends. The limit to its passes is the last number
but two. -/
def loop (cond : Nat → Bool) (next : Nat → Except E Nat) (body : Nat → S → Except E S) :
    Nat → Nat → S → Except E (Nat × S)
  | 0, i, s => .ok (i, s)
  | fuel + 1, i, s =>
      if cond i then do
        let s ← body i s
        let i ← next i
        loop cond next body fuel i s
      else .ok (i, s)

/-- `for (i = lo; i < hi; i = next i)` -/
def forLoop (next : Nat → Except E Nat) (lo hi : Nat) (body : Nat → S → Except E S) (s : S) :
    Except E S :=
  (·.2) <$> loop (fun i => decide (i < hi)) next body (hi - lo) lo s

variable {cond : Nat → Bool} {next : Nat → Except E Nat} {body : Nat → S → Except E S}
  {fuel lo hi step : Nat} {s t : S}

theorem loop_exit (h : cond lo = false) : loop cond next body fuel lo s = .ok (lo, s) := by
  cases fuel with
  | zero => rfl
  | succ fuel => rw [loop, if_neg (by rw [h]; exact Bool.false_ne_true)]

theorem loop_pass {s' : S} {i : Nat} (h : cond lo = true) (hbody : body lo s = .ok s')
    (hnext : next lo = .ok i) :
    loop cond next body (fuel + 1) lo s = loop cond next body fuel i s' := by
  rw [loop, if_pos h, hbody]
  simp only [bind, Except.bind, hnext]

/-- The rule for an invariant, which may speak about the counter. -/
theorem loop_rule (cond : Nat → Bool) (next : Nat → Except E Nat) (body : Nat → S → Except E S)
    (P : Nat → S → Prop) (hcond : ∀ i, cond i = true → i < hi)
    (pass : ∀ i s, cond i = true → P i s →
      ∃ j s', body i s = .ok s' ∧ next i = .ok j ∧ i < j ∧ P j s')
    (hfuel : hi - lo ≤ fuel) (h : P lo s) :
    ∃ i t, loop cond next body fuel lo s = .ok (i, t) ∧ cond i = false ∧ P i t := by
  induction fuel generalizing lo s with
  | zero =>
      refine ⟨lo, s, rfl, ?_, h⟩
      rw [Bool.eq_false_iff]
      intro hlo
      have := hcond lo hlo
      omega
  | succ fuel ih =>
      cases hlo : cond lo with
      | false => exact ⟨lo, s, loop_exit hlo, hlo, h⟩
      | true =>
          obtain ⟨j, s', hbody, hnext, hlt, hP⟩ := pass lo s hlo h
          rw [loop_pass hlo hbody hnext]
          have := hcond lo hlo
          exact ih (by omega) hP

/-- The loop up to `hi` in steps of one. -/
theorem forLoop_rule {P : Nat → S → Prop} (hnext : ∀ i < hi, next i = .ok (i + 1))
    (pass : ∀ i s, lo ≤ i → i < hi → P i s → ∃ s', body i s = .ok s' ∧ P (i + 1) s')
    (hle : lo ≤ hi) (h : P lo s) :
    ∃ t, forLoop next lo hi body s = .ok t ∧ P hi t := by
  obtain ⟨i, t, hloop, hend, ⟨-, hle'⟩, hP⟩ := loop_rule (fun i => decide (i < hi)) next
    body (fun i s => (lo ≤ i ∧ i ≤ hi) ∧ P i s) (fun i hi => of_decide_eq_true hi)
    (fun i s hi h => by
      have hlt := of_decide_eq_true hi
      obtain ⟨s', hbody, hP⟩ := pass i s h.1.1 hlt h.2
      exact ⟨i + 1, s', hbody, hnext i hlt, Nat.lt_succ_self i, ⟨by omega, hlt⟩, hP⟩)
    (le_refl (hi - lo)) ⟨⟨le_refl lo, hle⟩, h⟩
  have hge := of_decide_eq_false hend
  obtain rfl : i = hi := by omega
  exact ⟨t, by rw [forLoop, hloop]; rfl, hP⟩

/-- Bodies that do the same wherever the loop calls them. -/
theorem loop_congr {body' : Nat → S → Except E S}
    (h : ∀ i s, cond i = true → body i s = body' i s) :
    loop cond next body fuel lo s = loop cond next body' fuel lo s := by
  induction fuel generalizing lo s with
  | zero => rfl
  | succ fuel ih =>
      rw [loop, loop]
      by_cases hlo : cond lo = true
      · rw [if_pos hlo, if_pos hlo, h lo s hlo]
        exact congrArg _ (funext fun s' => congrArg _ (funext fun i => ih))
      · rw [if_neg hlo, if_neg hlo]

theorem forLoop_congr {body' : Nat → S → Except E S}
    (h : ∀ i s, i < hi → body i s = body' i s) :
    forLoop next lo hi body s = forLoop next lo hi body' s := by
  rw [forLoop, forLoop, loop_congr fun i s hi => h i s (of_decide_eq_true hi)]

/-! ### Lists -/

theorem forLoop_done (h : ¬ lo < hi) : forLoop next lo hi body s = .ok s := by
  rw [forLoop, loop_exit (decide_eq_false h)]
  rfl

theorem forLoop_succ (h : lo < hi) (hnext : next lo = .ok (lo + 1)) :
    forLoop next lo hi body s = body lo s >>= forLoop next (lo + 1) hi body := by
  obtain ⟨n, rfl⟩ : ∃ n, hi = lo + 1 + n := ⟨hi - (lo + 1), by omega⟩
  rw [forLoop, show lo + 1 + n - lo = n + 1 by omega, loop, if_pos (decide_eq_true h)]
  cases body lo s with
  | error e => rfl
  | ok s' =>
      simp only [bind, Except.bind, hnext]
      rw [forLoop, show lo + 1 + n - (lo + 1) = n by omega]

/-- A loop that goes through a list is the fold over it. -/
theorem forLoop_foldlM {X : Type} {f : S → X → Except E S} {xs : List X}
    (hnext : ∀ i < xs.length, next i = .ok (i + 1))
    (pass : ∀ i (hi : i < xs.length) s, body i s = f s xs[i]) (s : S) :
    forLoop next 0 xs.length body s = xs.foldlM f s := by
  have hfrom : ∀ n i s, i + n = xs.length →
      forLoop next i xs.length body s = (xs.drop i).foldlM f s := by
    intro n
    induction n with
    | zero =>
        intro i s hi
        rw [forLoop_done (by omega), List.drop_eq_nil_of_le (by omega)]
        rfl
    | succ n ih =>
        intro i s hi
        have hlt : i < xs.length := by omega
        rw [forLoop_succ hlt (hnext i hlt), pass i hlt, List.drop_eq_getElem_cons hlt,
          List.foldlM_cons]
        exact congrArg _ (funext fun s' => ih (i + 1) s' (by omega))
  have hall := hfrom xs.length 0 s (Nat.zero_add _)
  rwa [List.drop_zero] at hall

/-! ### Tables -/

/-- The list of the values at `0, 1, …`. -/
theorem eq_map_range {R : Type} {f : Nat → R} {xs : List R} {n : Nat} (hlength : xs.length = n)
    (h : ∀ i < n, xs[i]? = some (f i)) : xs = (List.range n).map f := by
  refine List.ext_getElem? fun i => ?_
  by_cases hi : i < n
  · rw [h i hi, List.getElem?_map, List.getElem?_range hi]
    rfl
  · rw [List.getElem?_eq_none (by omega), List.getElem?_eq_none (by simpa using not_lt.mp hi)]

/-- A loop that writes one place after the other. -/
theorem forLoop_map_range {R : Type} {f : Nat → R} {n : Nat}
    {body : Nat → List R → Except E (List R)} {xs : List R}
    (hnext : ∀ i < n, next i = .ok (i + 1))
    (pass : ∀ i < n, ∀ ys : List R, ys.length = n → body i ys = .ok (ys.set i (f i)))
    (h : xs.length = n) : forLoop next 0 n body xs = .ok ((List.range n).map f) := by
  obtain ⟨ys, hloop, hlength, hentry⟩ : ∃ ys, forLoop next 0 n body xs = .ok ys ∧
      ys.length = n ∧ ∀ p < n, ys[p]? = some (f p) := forLoop_rule
    (P := fun i (ys : List R) => ys.length = n ∧ ∀ p < i, ys[p]? = some (f p)) hnext
    (fun i ys _ hi ⟨hlength, hwritten⟩ => by
      refine ⟨_, pass i hi ys hlength, by rw [List.length_set, hlength], fun p hp => ?_⟩
      rcases Nat.lt_succ_iff_lt_or_eq.mp hp with hp | rfl
      · rw [List.getElem?_set_ne (by omega), hwritten p hp]
      · rw [List.getElem?_set_self (hlength ▸ hi)])
    (Nat.zero_le n) ⟨h, fun p hp => absurd hp (Nat.not_lt_zero p)⟩
  rw [hloop, eq_map_range hlength hentry]

/-! ### Sums -/

/-- How many passes lead from `lo` to `hi` in steps. -/
def passes (step lo hi : Nat) : Nat := (hi - lo + step - 1) / step

theorem lt_passes_iff (hstep : 0 < step) {b : Nat} :
    b < passes step lo hi ↔ lo + b * step < hi := by
  rw [passes, ← Nat.succ_le_iff, Nat.le_div_iff_mul_le hstep, Nat.succ_mul]
  omega

theorem passes_one : passes 1 lo hi = hi - lo := by simp [passes]

section Adds

variable {M : Type} [AddCommMonoid M] {Adds : M → S → S → Prop}

/-- The loop adds the sum of what its passes add. -/
theorem forLoop_adds {F : Nat → M} (zero : ∀ s, Adds 0 s s)
    (add : ∀ x y s s' s'', Adds x s s' → Adds y s' s'' → Adds (x + y) s s'')
    (hstep : 0 < step) (hnext : ∀ i < hi, next i = .ok (i + step))
    {I : S → Prop} (pass : ∀ b s, lo + b * step < hi → I s →
      ∃ s', body (lo + b * step) s = .ok s' ∧ I s' ∧ Adds (F b) s s') (h : I s) :
    ∃ t, forLoop next lo hi body s = .ok t ∧ I t ∧
      Adds (∑ b ∈ Finset.range (passes step lo hi), F b) s t := by
  obtain ⟨i, t, hloop, hend, b, rfl, hb, hI, hadds⟩ :=
    loop_rule (fun i => decide (i < hi)) next body
    (fun i t => ∃ b, i = lo + b * step ∧ b ≤ passes step lo hi ∧ I t ∧
      Adds (∑ b ∈ Finset.range b, F b) s t) (fun i hi => of_decide_eq_true hi)
    (by
      rintro i s' hi ⟨b, rfl, hb, hI, hadds⟩
      have hlt := of_decide_eq_true hi
      obtain ⟨s'', hbody, hI', hpass⟩ := pass b s' hlt hI
      refine ⟨lo + b * step + step, s'', hbody, hnext _ hlt, by omega, b + 1, ?_, ?_, hI', ?_⟩
      · rw [Nat.succ_mul, Nat.add_assoc]
      · exact (lt_passes_iff hstep).mpr hlt
      · rw [Finset.sum_range_succ]
        exact add _ _ _ _ _ hadds hpass)
    (le_refl (hi - lo)) ⟨0, by simp, Nat.zero_le _, h, by simpa using zero s⟩
  have hge : ¬ b < passes step lo hi := by
    rw [lt_passes_iff hstep]
    exact of_decide_eq_false hend
  obtain rfl : b = passes step lo hi := by omega
  exact ⟨t, by rw [forLoop, hloop]; rfl, hI, hadds⟩

/-- In steps of one. -/
theorem forLoop_adds_one {f : Nat → M} (zero : ∀ s, Adds 0 s s)
    (add : ∀ x y s s' s'', Adds x s s' → Adds y s' s'' → Adds (x + y) s s'')
    (hnext : ∀ i < hi, next i = .ok (i + 1)) {I : S → Prop}
    (pass : ∀ i s, lo ≤ i → i < hi → I s → ∃ s', body i s = .ok s' ∧ I s' ∧ Adds (f i) s s')
    (h : I s) :
    ∃ t, forLoop next lo hi body s = .ok t ∧ I t ∧ Adds (∑ i ∈ Finset.Ico lo hi, f i) s t := by
  obtain ⟨t, hloop, hI, hadds⟩ := forLoop_adds (F := fun b => f (lo + b)) zero add Nat.one_pos hnext
    (fun b s hlt hI => by
      rw [Nat.mul_one] at hlt ⊢
      exact pass (lo + b) s (Nat.le_add_right lo b) hlt hI) h
  rw [passes_one, ← Finset.sum_Ico_eq_sum_range] at hadds
  exact ⟨t, hloop, hI, hadds⟩

/-- The sum over all blocks of the sums over each is the sum over all. -/
theorem sum_blocks (hstep : 0 < step) (f : Nat → M) (n : Nat) :
    ∑ b ∈ Finset.range (passes step 0 n),
        ∑ i ∈ Finset.Ico (b * step) (min (b * step + step) n), f i =
      ∑ i ∈ Finset.range n, f i := by
  have hblocks : ∀ k, ∑ b ∈ Finset.range k,
      ∑ i ∈ Finset.Ico (b * step) (min (b * step + step) n), f i =
        ∑ i ∈ Finset.range (min (k * step) n), f i := by
    intro k
    induction k with
    | zero => simp
    | succ k ih =>
        rw [Finset.sum_range_succ, ih, Nat.succ_mul]
        rcases Nat.le_total (k * step) n with hle | hge
        · rw [min_eq_left hle, Finset.range_eq_Ico, Finset.range_eq_Ico]
          exact Finset.sum_Ico_consecutive f (Nat.zero_le _) (le_min (Nat.le_add_right _ _) hle)
        · have hempty : min (k * step + step) n ≤ k * step := (min_le_right _ _).trans hge
          rw [Finset.Ico_eq_empty_of_le hempty, Finset.sum_empty, add_zero, min_eq_right hge,
            min_eq_right (by omega)]
  have hall : n ≤ passes step 0 n * step := by
    have hnot := lt_irrefl (passes step 0 n)
    rw [lt_passes_iff hstep] at hnot
    omega
  rw [hblocks, min_eq_right hall]

/-- Three indices, each in blocks of its own, and the blocks outermost: what has been taken block
by block is the sum over all three, in any order. -/
theorem sum_tiles (hstep : 0 < step) (f : Nat → Nat → Nat → M) (m n l : Nat) :
    ∑ a ∈ Finset.range (passes step 0 m), ∑ b ∈ Finset.range (passes step 0 n),
        ∑ c ∈ Finset.range (passes step 0 l),
          ∑ i ∈ Finset.Ico (a * step) (min (a * step + step) m),
            ∑ k ∈ Finset.Ico (c * step) (min (c * step + step) l),
              ∑ j ∈ Finset.Ico (b * step) (min (b * step + step) n), f i k j =
      ∑ i ∈ Finset.range m, ∑ j ∈ Finset.range n, ∑ k ∈ Finset.range l, f i k j := by
  have hentries : ∀ i, ∑ b ∈ Finset.range (passes step 0 n), ∑ c ∈ Finset.range (passes step 0 l),
      ∑ k ∈ Finset.Ico (c * step) (min (c * step + step) l),
        ∑ j ∈ Finset.Ico (b * step) (min (b * step + step) n), f i k j =
      ∑ j ∈ Finset.range n, ∑ k ∈ Finset.range l, f i k j := by
    intro i
    rw [← sum_blocks hstep (fun j => ∑ k ∈ Finset.range l, f i k j) n]
    refine Finset.sum_congr rfl fun b _ => ?_
    rw [sum_blocks hstep (fun k => ∑ j ∈ Finset.Ico _ _, f i k j) l]
    exact Finset.sum_comm
  rw [← sum_blocks hstep (fun i => ∑ j ∈ Finset.range n, ∑ k ∈ Finset.range l, f i k j) m]
  refine Finset.sum_congr rfl fun a _ => ?_
  -- the rows of the block before its columns
  simp only [← hentries]
  exact (Finset.sum_congr rfl fun b _ => Finset.sum_comm).trans Finset.sum_comm

end Adds

/-! ### Loops that came to their end -/

theorem loop_inv {P : S → Prop} (hnext : ∀ i j, next i = .ok j → j = i + step) (hstep : 0 < step)
    (pass : ∀ i s s', body i s = .ok s' → P s → P s') {r : Nat × S}
    (h : loop (fun i => decide (i < hi)) next body fuel lo s = .ok r) (hfuel : hi - lo ≤ fuel)
    (hs : P s) :
    P r.2 ∧ ∀ b, lo + b * step < hi →
      (∃ s s', P s ∧ body (lo + b * step) s = .ok s') ∧ ∃ j, next (lo + b * step) = .ok j := by
  induction fuel generalizing lo s with
  | zero =>
      cases h
      exact ⟨hs, fun b hb => by omega⟩
  | succ fuel ih =>
      rw [loop] at h
      by_cases hlo : lo < hi
      · rw [if_pos (decide_eq_true hlo)] at h
        obtain ⟨s', hbody, h⟩ := Run.except_bind_inv h
        obtain ⟨j, hj, h⟩ := Run.except_bind_inv h
        obtain rfl := hnext lo j hj
        obtain ⟨hr, hpasses⟩ := ih h (by omega) (pass lo s s' hbody hs)
        refine ⟨hr, fun b hb => ?_⟩
        cases b with
        | zero =>
            rw [Nat.zero_mul, Nat.add_zero]
            exact ⟨⟨s, s', hs, hbody⟩, _, hj⟩
        | succ b =>
            have heq : lo + (b + 1) * step = lo + step + b * step := by
              rw [Nat.succ_mul]
              omega
            rw [heq] at hb ⊢
            exact hpasses b hb
      · rw [if_neg (by rwa [decide_eq_true_iff])] at h
        cases h
        exact ⟨hs, fun b hb => by omega⟩

/-- A loop that came to its end has made every pass, each in a state that the passes keep. -/
theorem forLoop_inv {P : S → Prop} (hnext : ∀ i j, next i = .ok j → j = i + step)
    (hstep : 0 < step) (pass : ∀ i s s', body i s = .ok s' → P s → P s')
    (h : forLoop next lo hi body s = .ok t) (hs : P s) :
    P t ∧ ∀ b, lo + b * step < hi →
      (∃ s s', P s ∧ body (lo + b * step) s = .ok s') ∧ ∃ j, next (lo + b * step) = .ok j := by
  obtain ⟨r, hloop, rfl⟩ := Run.except_map_inv h
  exact loop_inv hnext hstep pass hloop (le_refl _) hs

end HftProject.Counting
