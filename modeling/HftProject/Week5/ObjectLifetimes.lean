import HftProject.Lib.Run
import HftProject.Week5.ObjectPool
import Mathlib.Data.List.Chain

/-!
Lifetimes of the objects of an `ObjectPool`. `reserve` lets the vector construct an object in
every slot, `allocate` constructs another in the slot it hands out, `deallocate` destroys the
object of its slot, and when the pool ends the vector destroys the object of every slot, whether
`deallocate` has done so or not.

The constructor and destructor runs on a slot alternate exactly as long as the slot is never
handed out (`respects_iff_never_handed_out`), since the first `allocate` constructs over the
object of `reserve`; those of a whole pool alternate exactly if it never hands out a slot
(`lifetimes_alternate_iff`).
-/

namespace HftProject.Week5

def Lifetime.slot : Lifetime → Nat
  | .constructed slot => slot
  | .destroyed slot => slot

namespace ObjectPool

open Run

variable {T : Type}

/-! ### The end of a pool and the calls before it -/

/-- The pool's own destructor is implicit: the vector destroys its objects, in order. -/
def destroy (p : ObjectPool T) : ObjectPool T :=
  { p with
    pool := []
    lifetimes := ((List.range p.pool.length).map .destroyed).reverse ++ p.lifetimes }

/-- A call that may change a pool. -/
inductive Call (T : Type) where
  | allocate (obj : T)
  | deallocate (index : Nat)
deriving DecidableEq, Repr

/-- A caller of `allocate` goes on when it throws. -/
def Call.step (call : Call T) (p : ObjectPool T) : Except Fault (ObjectPool T) :=
  match call with
  | .allocate obj =>
      match p.allocate obj with
      | .ok (_, p') => .ok p'
      | .error _ => .ok p
  | .deallocate index => p.deallocate (some index)

/-- `deallocate` is called on an object that is handed out. -/
def Outstanding (call : Call T) (p : ObjectPool T) : Prop :=
  match call with
  | .allocate _ => True
  | .deallocate index => p.Used index

/-- The constructor and destructor runs on a slot, oldest first. -/
def history (p : ObjectPool T) (i : Nat) : List Lifetime :=
  (p.lifetimes.filter fun run => run.slot = i).reverse

/-- The runs on a slot alternate, from a construction to a destruction. -/
structure Respects (p : ObjectPool T) (i : Nat) : Prop where
  alternate : (p.history i).IsChain (· ≠ ·)
  first : (p.history i).head? = some (.constructed i)
  last : (p.history i).getLast? = some (.destroyed i)

/-- The call hands out slot `i`. -/
def HandsOut (i : Nat) (call : Call T) (p : ObjectPool T) : Prop :=
  (∃ obj, call = .allocate obj) ∧ p.freeIndices.head? = some i

/-! ### What a call adds to the history of a slot -/

variable {p p' : ObjectPool T} {call : Call T} {i : Nat}

theorem history_cons {run : Lifetime} (h : p'.lifetimes = run :: p.lifetimes) :
    p'.history i = p.history i ++ if run.slot = i then [run] else [] := by
  rw [history, history, h, List.filter_cons]
  by_cases hslot : run.slot = i
  · simp [hslot]
  · simp [hslot]

/-- One run on each of some slots is one run on slot `i`. -/
theorem filter_slots (run : Nat → Lifetime) (hrun : ∀ j, (run j).slot = j) {slots : List Nat}
    (hnodup : slots.Nodup) (hi : i ∈ slots) :
    (slots.map run).filter (fun r => r.slot = i) = [run i] := by
  have hsel : slots.filter ((fun r : Lifetime => decide (r.slot = i)) ∘ run) = [i] := by
    have hcount := List.count_eq_one_of_mem hnodup hi
    have heq : (fun r : Lifetime => decide (r.slot = i)) ∘ run = fun j => j == i := by
      funext j
      simp [hrun, Bool.beq_eq_decide_eq]
    rw [heq, List.filter_beq, hcount]
    rfl
  rw [List.filter_map, hsel]
  rfl

theorem history_destroy (hi : i < p.pool.length) :
    p.destroy.history i = p.history i ++ [.destroyed i] := by
  have hruns := filter_slots .destroyed (fun _ => rfl) List.nodup_range
    (List.mem_range.mpr hi)
  rw [history, history, destroy, List.filter_append, List.reverse_append, List.filter_reverse,
    hruns]
  rfl

theorem history_reserve {default : T} {n : Nat} (hi : i < n) :
    (empty.reserve default n).history i = [.constructed i] := by
  have hmem : i ∈ List.range' 0 n := by simpa using hi
  have hruns := filter_slots .constructed (fun _ => rfl) List.nodup_range' hmem
  have hlifetimes : (empty.reserve default n).lifetimes =
      ((List.range' 0 n).map .constructed).reverse := by
    simp [reserve, empty, show n ≠ 0 by omega]
  rw [history, hlifetimes, List.filter_reverse, hruns]
  rfl

/-- What a call on an outstanding object does to the pool and to the history of slot `i`. -/
inductive Effect (i : Nat) (call : Call T) (p p' : ObjectPool T) : Prop where
  | handedOut : HandsOut i call p → p'.history i = p.history i ++ [.constructed i] →
      Effect i call p p'
  | returned : ¬ HandsOut i call p → p.Used i → p'.history i = p.history i ++ [.destroyed i] →
      Effect i call p p'
  | untouched : ¬ HandsOut i call p → p'.history i = p.history i → (p'.Used i ↔ p.Used i) →
      Effect i call p p'

theorem not_handsOut_deallocate {index : Nat} : ¬ HandsOut i (.deallocate index) p := by
  rintro ⟨⟨obj, hcall⟩, -⟩
  cases hcall

theorem Ok.allocate_effect (h : p.Ok) (obj : T) :
    ∃ p', Call.step (.allocate obj) p = .ok p' ∧ p'.Ok ∧ p'.capacity = p.capacity ∧
      ∀ i, Effect i (.allocate obj) p p' := by
  cases hfree : p.freeIndices with
  | nil =>
      refine ⟨p, by simp only [Call.step, allocate_nil hfree], h, rfl, fun i => ?_⟩
      refine .untouched ?_ rfl Iff.rfl
      rintro ⟨-, hhead⟩
      simp [hfree] at hhead
  | cons index rest =>
      obtain ⟨p', halloc, hp'⟩ := h.allocate_cons hfree obj
      refine ⟨p', by simp only [Call.step, halloc], hp'.ok, hp'.capacity, fun i => ?_⟩
      have hlifetimes : p'.lifetimes = .constructed index :: p.lifetimes := by
        simp only [allocate, hfree, Except.ok.injEq, Prod.mk.injEq, true_and] at halloc
        rw [← halloc]
      by_cases hi : index = i
      · subst hi
        refine .handedOut ⟨⟨obj, rfl⟩, by rw [hfree]; rfl⟩ ?_
        rw [history_cons hlifetimes, if_pos (by rfl)]
      · refine .untouched ?_ ?_ ?_
        · rintro ⟨-, hhead⟩
          rw [hfree, List.head?_cons, Option.some_inj] at hhead
          exact hi hhead
        · rw [history_cons hlifetimes, if_neg (by exact hi), List.append_nil]
        · rw [hp'.used i]
          exact or_iff_right fun h => hi h.symm

theorem Ok.deallocate_effect (h : p.Ok) {index : Nat} (hused : p.Used index) :
    ∃ p', Call.step (.deallocate index) p = .ok p' ∧ p'.Ok ∧ p'.capacity = p.capacity ∧
      ∀ i, Effect i (.deallocate index) p p' := by
  obtain ⟨p', hdealloc, hp'⟩ := h.deallocate_used hused
  refine ⟨p', hdealloc, hp'.ok, hp'.capacity, fun i => ?_⟩
  have hlifetimes : p'.lifetimes = .destroyed index :: p.lifetimes := by
    obtain ⟨hi, hnot⟩ := hused
    obtain ⟨obj, hobj⟩ := h.alive index hi hnot
    simp only [deallocate, if_neg (show ¬ p.capacity = 0 by omega), if_neg (not_le.mpr hi), hobj,
      Except.ok.injEq] at hdealloc
    rw [← hdealloc]
  by_cases hi : index = i
  · subst hi
    refine .returned not_handsOut_deallocate hused ?_
    rw [history_cons hlifetimes, if_pos (by rfl)]
  · refine .untouched not_handsOut_deallocate ?_ ?_
    · rw [history_cons hlifetimes, if_neg (by exact hi), List.append_nil]
    · rw [hp'.used i]
      exact and_iff_right fun h => hi h.symm

/-- What one call does. -/
theorem Ok.call_effect (h : p.Ok) (hout : Outstanding call p) :
    ∃ p', call.step p = .ok p' ∧ p'.Ok ∧ p'.capacity = p.capacity ∧ ∀ i, Effect i call p p' := by
  cases call with
  | allocate obj => exact h.allocate_effect obj
  | deallocate index => exact h.deallocate_effect hout

/-! ### Runs -/

/-- Slot `i` holds the object of `reserve` and is not handed out. -/
structure Fresh (p : ObjectPool T) (i : Nat) : Prop where
  history : p.history i = [.constructed i]
  unused : ¬ p.Used i

/-- An object was constructed over the object of `reserve`. -/
def Overwritten (p : ObjectPool T) (i : Nat) : Prop :=
  [.constructed i, .constructed i] <+: p.history i

theorem Effect.fresh (h : Effect i call p p') (hfresh : p.Fresh i) :
    ¬ HandsOut i call p ∧ p'.Fresh i ∨ HandsOut i call p ∧ p'.Overwritten i := by
  cases h with
  | handedOut hhands hhistory =>
      right
      refine ⟨hhands, ?_⟩
      rw [Overwritten, hhistory, hfresh.history]
      exact List.prefix_refl _
  | returned _ hused _ => exact absurd hused hfresh.unused
  | untouched hnot hhistory hused =>
      left
      exact ⟨hnot, hhistory.trans hfresh.history, fun h => hfresh.unused (hused.mp h)⟩

theorem Effect.overwritten (h : Effect i call p p') (hover : p.Overwritten i) :
    p'.Overwritten i := by
  cases h with
  | handedOut _ hhistory =>
      rw [Overwritten, hhistory]
      exact hover.trans (List.prefix_append _ _)
  | returned _ _ hhistory =>
      rw [Overwritten, hhistory]
      exact hover.trans (List.prefix_append _ _)
  | untouched _ hhistory _ => rwa [Overwritten, hhistory]

/-- A run of calls on outstanding objects comes to its end, with every slot still fresh that was
never handed out and no other slot of those that were fresh. -/
theorem Ok.run {calls : List (Call T)} (h : p.Ok)
    (hout : Steps Call.step calls p Outstanding) :
    ∃ t, Run.run Call.step calls p = .ok t ∧ t.Ok ∧ t.capacity = p.capacity ∧
      (∀ i, p.Overwritten i → t.Overwritten i) ∧
      ∀ i, p.Fresh i →
        Steps Call.step calls p (fun call q => ¬ HandsOut i call q) ∧ t.Fresh i ∨
        ¬ Steps Call.step calls p (fun call q => ¬ HandsOut i call q) ∧ t.Overwritten i := by
  induction calls generalizing p with
  | nil => exact ⟨p, rfl, h, rfl, fun _ hover => hover, fun i hfresh => .inl ⟨steps_nil, hfresh⟩⟩
  | cons call calls ih =>
      obtain ⟨hcall, hcalls⟩ := steps_cons.mp hout
      obtain ⟨p', hstep, hok, hcap, heffect⟩ := h.call_effect hcall
      obtain ⟨t, hrun, htok, htcap, hkeep, hfate⟩ := ih hok (hcalls p' hstep)
      rw [run_cons_ok hstep]
      refine ⟨t, hrun, htok, htcap.trans hcap, fun i hover =>
        hkeep i ((heffect i).overwritten hover), fun i hfresh => ?_⟩
      rw [steps_cons_ok hstep]
      rcases (heffect i).fresh hfresh with ⟨hnot, hfresh'⟩ | ⟨hhands, hover⟩
      · rcases hfate i hfresh' with ⟨hsteps, ht⟩ | ⟨hsteps, ht⟩
        · exact .inl ⟨⟨hnot, hsteps⟩, ht⟩
        · exact .inr ⟨fun hall => hsteps hall.2, ht⟩
      · exact .inr ⟨fun hall => hall.1 hhands, hkeep i hover⟩

theorem Fresh.respects (h : p.Fresh i) (hi : i < p.pool.length) : p.destroy.Respects i := by
  have hhistory : p.destroy.history i = [.constructed i, .destroyed i] := by
    rw [history_destroy hi, h.history]
    rfl
  constructor <;> rw [hhistory]
  · simp
  · rfl
  · rfl

theorem Overwritten.not_respects (h : p.Overwritten i) (hi : i < p.pool.length) :
    ¬ p.destroy.Respects i := by
  intro hrespects
  have hprefix : [.constructed i, .constructed i] <+: p.destroy.history i := by
    rw [history_destroy hi]
    exact h.trans (List.prefix_append _ _)
  have hchain := hrespects.alternate.prefix hprefix
  simp at hchain

/-! ### Whole lives of a pool -/

section Lives

variable {default : T} {n : Nat} {calls : List (Call T)}

theorem reserve_fresh (hi : i < n) : (empty.reserve default n).Fresh i :=
  ⟨history_reserve hi, (reserve_ok default n).2.2.1 i⟩

/-- The runs on a slot alternate exactly if it is never handed out. -/
theorem respects_iff_never_handed_out
    (hout : Steps Call.step calls (empty.reserve default n) Outstanding) :
    ∃ t, Run.run Call.step calls (empty.reserve default n) = .ok t ∧ ∀ i < n,
      (t.destroy.Respects i ↔
        Steps Call.step calls (empty.reserve default n) fun call p => ¬ HandsOut i call p) := by
  obtain ⟨hok, hcap, -, -⟩ := reserve_ok default n
  obtain ⟨t, hrun, htok, htcap, -, hfate⟩ := hok.run hout
  refine ⟨t, hrun, fun i hi => ?_⟩
  have hlength : i < t.pool.length := by rwa [htok.length, htcap, hcap]
  rcases hfate i (reserve_fresh hi) with ⟨hsteps, hfresh⟩ | ⟨hsteps, hover⟩
  · exact iff_of_true (hfresh.respects hlength) hsteps
  · exact iff_of_false (hover.not_respects hlength) hsteps

/-- The first call on a pool is an `allocate`, which hands out slot 0. -/
theorem handsOut_zero (hn : 0 < n)
    (hout : Steps Call.step calls (empty.reserve default n) Outstanding) (hcalls : calls ≠ []) :
    ¬ Steps Call.step calls (empty.reserve default n) fun call p => ¬ HandsOut 0 call p := by
  cases calls with
  | nil => exact absurd rfl hcalls
  | cons call calls =>
      intro hsteps
      have hfirst := (steps_cons.mp hout).1
      cases call with
      | allocate obj =>
          refine (steps_cons.mp hsteps).1 ⟨⟨obj, rfl⟩, ?_⟩
          obtain ⟨m, rfl⟩ : ∃ m, n = m + 1 := ⟨n - 1, by omega⟩
          simp [reserve, empty, List.range'_succ]
      | deallocate index => exact absurd hfirst ((reserve_ok default n).2.2.1 index)

/-- The runs on every slot alternate, from a construction to a destruction, exactly if the pool
has no slots or is never asked for one. -/
theorem lifetimes_alternate_iff
    (hout : Steps Call.step calls (empty.reserve default n) Outstanding) :
    ∃ t, Run.run Call.step calls (empty.reserve default n) = .ok t ∧
      ((∀ i < n, t.destroy.Respects i) ↔ n = 0 ∨ ∀ obj, Call.allocate obj ∉ calls) := by
  obtain ⟨t, hrun, hslots⟩ := respects_iff_never_handed_out hout
  refine ⟨t, hrun, ?_⟩
  constructor
  · intro hall
    by_contra hnot
    obtain ⟨hn, hcalls⟩ := not_or.mp hnot
    have hpos := Nat.pos_of_ne_zero hn
    refine handsOut_zero hpos hout ?_ ((hslots 0 hpos).mp (hall 0 hpos))
    rintro rfl
    exact hcalls fun obj => List.not_mem_nil
  · rintro (rfl | hcalls) i hi
    · exact absurd hi (Nat.not_lt_zero i)
    · refine (hslots i hi).mpr fun pre call hpre p _ => ?_
      rintro ⟨⟨obj, rfl⟩, -⟩
      exact hcalls obj (hpre.subset (List.mem_append_right pre (List.mem_singleton_self _)))

end Lives

/-- One slot, one object: allocated, deallocated, and then the pool ends. -/
theorem sample_outstanding :
    Steps Call.step [.allocate "A", .deallocate 0] (empty.reserve "" 1) Outstanding := by
  refine steps_cons.mpr ⟨trivial, fun p hp => ?_⟩
  refine steps_cons.mpr ⟨?_, fun _ _ => steps_nil⟩
  cases hp
  exact ⟨by decide, by decide⟩

theorem lifetimes_alternate_iff_sample :
    ∃ t, Run.run Call.step [.allocate "A", .deallocate 0] (empty.reserve "" 1) = .ok t ∧
      ((∀ i < 1, t.destroy.Respects i) ↔
        1 = 0 ∨ ∀ obj, Call.allocate obj ∉ [.allocate "A", .deallocate 0]) :=
  lifetimes_alternate_iff sample_outstanding

/-- The slot is constructed twice and then destroyed twice. -/
theorem object_constructed_twice :
    Steps Call.step [.allocate "A", .deallocate 0] (empty.reserve "" 1) Outstanding ∧
      ∃ t, Run.run Call.step [.allocate "A", .deallocate 0] (empty.reserve "" 1) = .ok t ∧
        t.destroy.history 0 = [.constructed 0, .constructed 0, .destroyed 0, .destroyed 0] ∧
        ¬ t.destroy.Respects 0 := by
  refine ⟨sample_outstanding, _, rfl, rfl, fun hrespects => ?_⟩
  have halternate : [Lifetime.constructed 0, .constructed 0, .destroyed 0, .destroyed 0].IsChain
      (· ≠ ·) := hrespects.alternate
  simp at halternate

end ObjectPool

end HftProject.Week5
