import HftProject.Lib.Conservation
import HftProject.Week7.QueueLinearizable
import Mathlib.Algebra.Order.BigOperators.Group.Finset

/-!
`ConcurrentQueue` is lock-free. A thread has to go round again only when another thread has claimed
a ticket in the meantime, or its exchange has failed spuriously. So with `n` threads the steps taken
within the calls are at most `2 n + 3` for each call that returns or is still under way, and two for
each spurious failure (`steps_bounded`): among that many steps some call returns, whatever the
schedule.
-/

namespace HftProject.Week7

open Conservation

variable {Thread T : Type} {C : Nat}

/-- What is left to do for a thread with `n` threads about, when the counter of its side is
`counter`. A position that is not the counter's costs another round. A thread in no call has its
next call before it. -/
def Local.toil (n : Nat) (q : ConcurrentQueue T C) : Local T → Nat
  | .pushSeq _ pos => if pos = q.tail then 2 * n + 2 else 2 * n + 4
  | .pushExchange _ pos => if pos = q.tail then 2 * n + 1 else 2 * n + 3
  | .pushWrite _ _ => 2
  | .pushStore _ _ => 1
  | .popSeq pos => if pos = q.head then 2 * n + 2 else 2 * n + 4
  | .popExchange pos => if pos = q.head then 2 * n + 1 else 2 * n + 3
  | .popCopy _ => 2
  | .popStore _ _ => 1
  | .idle => 2 * n + 3
  | .pushLoad _ => 2 * n + 3
  | .pushed _ => 2 * n + 3
  | .popLoad => 2 * n + 3
  | .popped _ => 2 * n + 3

/-- The step is one within a call. -/
def Action.advances : Action Thread T → Bool
  | .advance _ _ => true
  | _ => false

/-- The step is one whose exchange fails spuriously, if it is an exchange. -/
def Action.fails : Action Thread T → Bool
  | .advance _ spuriously => spuriously
  | _ => false

/-- A call has returned. -/
def returns (e : Thread × Atomic.Event (QueueOp T) (QueueAnswer T)) : Bool :=
  match e.2 with
  | .ret _ => true
  | _ => false

section Advance

variable [NeZero C] {q q' : ConcurrentQueue T C} {log : List (Thread × Event T)} {thread : Thread}
  {loc loc' : Local T} {event : Option (Event T)} {spuriously : Bool} {n : Nat}

omit [NeZero C] in
theorem toil_congr (hhead : q'.head = q.head) (htail : q'.tail = q.tail) (loc : Local T) :
    loc.toil n q' = loc.toil n q := by
  cases loc <;> simp only [Local.toil, hhead, htail]

omit [NeZero C] in
/-- A claim costs those that have seen the counter before it another round. -/
theorem toil_claimPush (loc : Local T) :
    loc.toil n { q with tail := q.tail + 1 } ≤ loc.toil n q + 2 := by
  cases loc <;> simp only [Local.toil] <;> (try split) <;> (try split) <;> omega

omit [NeZero C] in
theorem toil_claimPop (loc : Local T) :
    loc.toil n { q with head := q.head + 1 } ≤ loc.toil n q + 2 := by
  cases loc <;> simp only [Local.toil] <;> (try split) <;> (try split) <;> omega

/-- The cell of `tail` is not ahead of it. -/
theorem Cells.seq_tail_le (h : Cells q log) : (q.cell q.tail).seq ≤ q.tail := by
  have hC : 0 < C := Nat.pos_of_ne_zero (NeZero.ne C)
  have hroom := h.room
  by_cases hfull : q.tail = q.head + C
  · have hcell : q.cell q.tail = q.cell q.head := ConcurrentQueue.cell_congr (by simp [hfull])
    rw [hcell]
    rcases h.claimed q.head (Nat.le_refl _) (by omega) with hhead | ⟨hhead, -⟩ <;> omega
  · rcases h.free q.tail (Nat.le_refl _) (by omega) with ⟨hfree, -⟩ | hbusy <;> omega

/-- The cell of `head` is at most published. -/
theorem Cells.seq_head_le (h : Cells q log) : (q.cell q.head).seq ≤ q.head + 1 := by
  have hC : 0 < C := Nat.pos_of_ne_zero (NeZero.ne C)
  have hle := h.le
  by_cases hempty : q.head = q.tail
  · rcases h.free q.head (by omega) (by omega) with ⟨hfree, -⟩ | hbusy <;> omega
  · rcases h.claimed q.head (Nat.le_refl _) (by omega) with hhead | ⟨hhead, -⟩ <;> omega

theorem advance_push_stale {item : T} {pos : Nat}
    (h : q.advance .unbounded spuriously (.pushSeq item pos) = .ok (q', .pushLoad item, event)) :
    pos < (q.cell pos).seq := by
  change (if _ then _ else if _ then _ else _) = _ at h
  split at h
  · cases h
  · split at h
    · cases h
    · omega

theorem advance_pop_stale {pos : Nat}
    (h : q.advance .unbounded spuriously (.popSeq pos) = .ok (q', .popLoad, event)) :
    pos + 1 < (q.cell pos).seq := by
  change (if _ then _ else if _ then _ else _) = _ at h
  split at h
  · cases h
  · rename_i hne
    split at h
    · cases h
    · rename_i hnot
      have hdif : ¬ ((q.cell pos).seq : Int) - ((pos + 1 : Nat) : Int) = 0 := hne
      have hdif' : ¬ ((q.cell pos).seq : Int) - ((pos + 1 : Nat) : Int) < 0 := hnot
      omega

theorem advance_push_retry {item : T} {pos pos' : Nat}
    (h : q.advance .unbounded spuriously (.pushExchange item pos) =
      .ok (q', .pushSeq item pos', event)) : pos ≠ q.tail ∨ spuriously = true := by
  rw [ConcurrentQueue.advance] at h
  split at h
  · cases h
  · rename_i hnot
    by_cases hpos : pos = q.tail
    · right
      cases spuriously with
      | true => rfl
      | false => exact absurd ⟨hpos.symm, rfl⟩ hnot
    · exact .inl hpos

theorem advance_pop_retry {pos pos' : Nat}
    (h : q.advance .unbounded spuriously (.popExchange pos) = .ok (q', .popSeq pos', event)) :
    pos ≠ q.head ∨ spuriously = true := by
  rw [ConcurrentQueue.advance] at h
  split at h
  · cases h
  · rename_i hnot
    by_cases hpos : pos = q.head
    · right
      cases spuriously with
      | true => rfl
      | false => exact absurd ⟨hpos.symm, rfl⟩ hnot
    · exact .inl hpos

/-- What a step is paid with. -/
def pay (n : Nat) (spuriously : Bool) (loc' : Local T) : Nat :=
  (if spuriously then 2 else 0) + if loc'.answer.isSome then 2 * n + 3 else 0

theorem toil_advance (hn : 0 < n) (hcells : Cells q log)
    (hadvance : q.advance .unbounded spuriously loc = .ok (q', loc', event)) :
    ∃ extra, (∀ other : Local T, other.toil n q' ≤ other.toil n q + extra) ∧
      loc'.toil n q' + 1 + extra * (n - 1) ≤ loc.toil n q + pay n spuriously loc' := by
  have hsame : q'.head = q.head → q'.tail = q.tail → ∀ other : Local T,
      other.toil n q' ≤ other.toil n q + 0 :=
    fun hhead htail other => Nat.le_of_eq (toil_congr hhead htail other)
  cases advance_moves hadvance with
  | pushLoad item =>
      refine ⟨0, hsame rfl rfl, ?_⟩
      simp only [Local.toil, if_true]
      omega
  | pushReady item pos hseq =>
      refine ⟨0, hsame rfl rfl, ?_⟩
      simp only [Local.toil]
      split <;> omega
  | pushFull item pos =>
      refine ⟨0, hsame rfl rfl, ?_⟩
      simp only [Local.toil, pay, Local.answer, Option.isSome_some, if_true]
      split <;> omega
  | pushStale item pos =>
      have hstale := advance_push_stale hadvance
      have hpos : pos ≠ q.tail := by
        rintro rfl
        have := hcells.seq_tail_le
        omega
      refine ⟨0, hsame rfl rfl, ?_⟩
      simp only [Local.toil, if_neg hpos]
      omega
  | pushClaim item =>
      refine ⟨2, toil_claimPush, ?_⟩
      simp only [Local.toil, if_true]
      omega
  | pushRetry item pos =>
      refine ⟨0, hsame rfl rfl, ?_⟩
      rcases advance_push_retry hadvance with hpos | rfl
      · simp only [Local.toil, if_true, if_neg hpos]
        omega
      · simp only [Local.toil, pay, if_true]
        split <;> omega
  | pushWrite item pos => exact ⟨0, hsame rfl rfl, by simp only [Local.toil]; omega⟩
  | pushStore item pos =>
      refine ⟨0, hsame rfl rfl, ?_⟩
      simp only [Local.toil, pay, Local.answer, Option.isSome_some, if_true]
      omega
  | popLoad =>
      refine ⟨0, hsame rfl rfl, ?_⟩
      simp only [Local.toil, if_true]
      omega
  | popReady pos hseq =>
      refine ⟨0, hsame rfl rfl, ?_⟩
      simp only [Local.toil]
      split <;> omega
  | popEmpty pos =>
      refine ⟨0, hsame rfl rfl, ?_⟩
      simp only [Local.toil, pay, Local.answer, Option.isSome_some, if_true]
      split <;> omega
  | popStale pos =>
      have hstale := advance_pop_stale hadvance
      have hpos : pos ≠ q.head := by
        rintro rfl
        have := hcells.seq_head_le
        omega
      refine ⟨0, hsame rfl rfl, ?_⟩
      simp only [Local.toil, if_neg hpos]
      omega
  | popClaim =>
      refine ⟨2, toil_claimPop, ?_⟩
      simp only [Local.toil, if_true]
      omega
  | popRetry pos =>
      refine ⟨0, hsame rfl rfl, ?_⟩
      rcases advance_pop_retry hadvance with hpos | rfl
      · simp only [Local.toil, if_true, if_neg hpos]
        omega
      · simp only [Local.toil, pay, if_true]
        split <;> omega
  | popCopy pos => exact ⟨0, hsame rfl rfl, by simp only [Local.toil]; omega⟩
  | popStore pos item =>
      refine ⟨0, hsame rfl rfl, ?_⟩
      simp only [Local.toil, pay, Local.answer, Option.isSome_some, if_true]
      omega

end Advance

section Threads

variable [Fintype Thread]

/-- What is left to do for all threads. -/
def System.toil (s : System Thread T C) : Nat :=
  total (fun _ loc => loc.toil (Fintype.card Thread) s.queue) s.threads

variable [DecidableEq Thread] {n : Nat}

/-- One thread does a step of its work, and the others may each have a little more to do. -/
theorem toil_update {measure measure' : Local T → Nat} {threads : Thread → Local T}
    {thread : Thread} {loc : Local T} {less more extra : Nat}
    (hothers : ∀ loc, measure' loc ≤ measure loc + extra)
    (hone : measure' loc + less + extra * (Fintype.card Thread - 1) ≤
      measure (threads thread) + more) :
    total (fun _ => measure') (Function.update threads thread loc) + less ≤
      total (fun _ => measure) threads + more := by
  have hrest : ∑ other ∈ Finset.univ.erase thread, measure' (threads other) ≤
      ∑ other ∈ Finset.univ.erase thread, (measure (threads other) + extra) :=
    Finset.sum_le_sum fun other _ => hothers (threads other)
  have hcard : ∑ _other ∈ Finset.univ.erase thread, extra = (Fintype.card Thread - 1) * extra := by
    rw [Finset.sum_const, Finset.card_erase_of_mem (Finset.mem_univ thread), Finset.card_univ,
      nsmul_eq_mul, Nat.cast_id]
  have hupdate := total_update (fun _ => measure') threads thread loc
  have hsplit : ∀ f : Local T → Nat, total (fun _ => f) threads =
      f (threads thread) + ∑ other ∈ Finset.univ.erase thread, f (threads other) :=
    fun f => (Finset.add_sum_erase _ (fun i => f (threads i)) (Finset.mem_univ thread)).symm
  rw [hsplit] at hupdate ⊢
  rw [Finset.sum_add_distrib, hcard, Nat.mul_comm] at hrest
  omega

section Runs

variable [NeZero C] {s s' : System Thread T C}

omit [NeZero C] in
theorem toil_ready {q : ConcurrentQueue T C} {loc : Local T} (h : loc.ready = true) :
    loc.toil n q = 2 * n + 3 := by
  cases loc <;> first | rfl | cases h

omit [NeZero C] in
/-- Entering a call is paid for. -/
theorem toil_enter {thread : Thread} {start : Local T}
    (hstart : ∀ q : ConcurrentQueue T C,
      start.toil (Fintype.card Thread) q = 2 * Fintype.card Thread + 3)
    (henter : s.enter thread start = .ok s') : s'.toil = s.toil := by
  rw [System.enter] at henter
  split at henter
  · rename_i hready
    cases henter
    exact total_update_same ((hstart _).trans (toil_ready hready).symm)
  · cases henter

theorem toil_step (h : Inv s) {action : Action Thread T}
    (hstep : s.step .unbounded action = .ok s') :
    s'.toil + (if action.advances then 1 else 0) ≤ s.toil + (if action.fails then 2 else 0) +
      if (s.visible action).any returns then 2 * Fintype.card Thread + 3 else 0 := by
  cases action with
  | push thread item => exact Nat.le_of_eq (toil_enter (fun _ => rfl) hstep)
  | pop thread => exact Nat.le_of_eq (toil_enter (fun _ => rfl) hstep)
  | advance thread spuriously =>
      cases hadvance : s.queue.advance .unbounded spuriously (s.threads thread) with
      | error e =>
          rw [System.step, hadvance] at hstep
          cases hstep
      | ok out =>
          obtain ⟨q', loc', event⟩ := out
          rw [System.step, hadvance] at hstep
          cases hstep
          have hn : 0 < Fintype.card Thread := Fintype.card_pos_iff.mpr ⟨thread⟩
          obtain ⟨extra, hothers, hone⟩ := toil_advance hn h.cells hadvance
          have hreturns : (s.visible (.advance thread spuriously)).any returns =
              loc'.answer.isSome := by
            rw [System.visible, hadvance]
            change (loc'.answer.map _).any returns = _
            cases loc'.answer <;> rfl
          have hupdate := toil_update hothers hone
          rw [hreturns]
          rw [pay, ← Nat.add_assoc] at hupdate
          exact hupdate

omit [NeZero C] [DecidableEq Thread] in
theorem new_toil [Inhabited T] : (System.new : System Thread T C).toil =
    (2 * Fintype.card Thread + 3) * Fintype.card Thread := by
  rw [System.toil, total, Finset.sum_congr rfl (fun _ _ => toil_ready rfl), Finset.sum_const,
    Finset.card_univ, nsmul_eq_mul, Nat.cast_id, Nat.mul_comm]

/-- Among any number of steps within calls, enough calls return. -/
theorem steps_bounded [Inhabited T] (hC : 2 ≤ C) (actions : List (Action Thread T))
    (hrun : Run.run (System.step .unbounded) actions System.new = .ok s) :
    actions.countP Action.advances ≤
      (2 * Fintype.card Thread + 3) * ((Run.outputs (System.step .unbounded)
          (fun action s => s.visible action) actions (System.new : System Thread T C)).countP
            returns + Fintype.card Thread) +
        2 * actions.countP Action.fails := by
  have kept : ∀ (action : Action Thread T) (s s' : System Thread T C), Inv s →
      s.step .unbounded action = .ok s' → Inv s' ∧
        s'.toil + (if action.advances then 1 else 0) ≤ s.toil + (if action.fails then 2 else 0) +
          if (s.visible action).any returns then 2 * Fintype.card Thread + 3 else 0 :=
    fun action s s' h hstep => ⟨h.step hC hstep, toil_step h hstep⟩
  have hpays := run_pays kept new_inv hrun
  rw [new_toil, Nat.add_right_comm, Nat.add_comm (_ * _) (_ * _), ← Nat.mul_add] at hpays
  exact Nat.le_trans (Nat.le_add_left _ _) hpays

end Runs

end Threads

theorem steps_bounded_sample : overtaken.countP Action.advances ≤ 7 * (3 + 2) + 2 * 0 :=
  steps_bounded (C := 2) (by decide) overtaken rfl

end HftProject.Week7
