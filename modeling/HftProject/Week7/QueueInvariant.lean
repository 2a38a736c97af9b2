import HftProject.Lib.EventLog
import HftProject.Week7.ConcurrentQueue

/-!
Safety of the `ConcurrentQueue` under any interleaving, with unbounded counters and a
capacity of two or more. The tickets from `head` to `tail` are those pushed and not
popped; the sequence number of a ticket's cell tells how far its push has come, and that
of a ticket from `tail` on whether its cell has been freed (`Cells`).
-/

namespace HftProject.Week7

open EventLog

variable {Thread T : Type} {C : Nat} [NeZero C]

/-! ### Cells and tickets -/

namespace ConcurrentQueue

variable {q : ConcurrentQueue T C}

theorem cell_setCell (p p' : Nat) (c : Cell T) :
    (q.setCell p c).cell p' = if p' % C = p % C then c else q.cell p' := by
  unfold cell setCell
  by_cases h : p' % C = p % C
  · have hslot : Fin.ofNat C p' = Fin.ofNat C p := Fin.ext h
    rw [if_pos h, hslot]
    exact Function.update_self ..
  · have hslot : Fin.ofNat C p' ≠ Fin.ofNat C p := fun heq => h (congrArg Fin.val heq)
    rw [if_neg h]
    exact Function.update_of_ne hslot ..

@[simp] theorem setCell_head (p : Nat) (c : Cell T) : (q.setCell p c).head = q.head := rfl

@[simp] theorem setCell_tail (p : Nat) (c : Cell T) : (q.setCell p c).tail = q.tail := rfl

theorem cell_congr {p p' : Nat} (h : p' % C = p % C) : q.cell p' = q.cell p :=
  congrArg q.buffer (Fin.ext h)

omit [NeZero C] in
/-- Tickets less than a lap apart have different cells. -/
theorem ticket_inj {p p' : Nat} (h : p' % C = p % C) (hlt : p < p' + C) (hlt' : p' < p + C) :
    p = p' := by
  rcases Nat.le_total p p' with hle | hle
  · have hdvd := Nat.dvd_of_mod_eq_zero (Nat.sub_mod_eq_zero_of_mod_eq h)
    have := Nat.eq_zero_of_dvd_of_lt hdvd (by omega)
    omega
  · have hdvd := Nat.dvd_of_mod_eq_zero (Nat.sub_mod_eq_zero_of_mod_eq h.symm)
    have := Nat.eq_zero_of_dvd_of_lt hdvd (by omega)
    omega

end ConcurrentQueue

/-- The tickets claimed by a `push`, in the order of the claims. -/
def pushTickets (log : List (Thread × Event T)) : List Nat :=
  log.filterMap fun e => match e.2 with
    | .claimPush pos _ => some pos
    | _ => none

/-- The tickets claimed by a `pop`, in the order of the claims. -/
def popTickets (log : List (Thread × Event T)) : List Nat :=
  log.filterMap fun e => match e.2 with
    | .claimPop pos => some pos
    | _ => none

/-- The item of the ticket has been written by the thread that claimed the ticket. -/
def Written (log : List (Thread × Event T)) (pos : Nat) (item : T) : Prop :=
  ∃ thread, (thread, .claimPush pos item) ∈ log ∧ (thread, .write pos item) ∈ log

/-- The `pop` of the ticket one lap before has copied its item. -/
def Drained (C : Nat) (log : List (Thread × Event T)) (pos : Nat) : Prop :=
  C ≤ pos → ∃ thread item, (thread, .copied (pos - C) item) ∈ log

/-- What has to have happened before an event. -/
def Justified (C : Nat) (before : List (Thread × Event T)) (e : Thread × Event T) : Prop :=
  match e.2 with
  | .claimPush _ _ => True
  | .write pos item => (e.1, .claimPush pos item) ∈ before ∧ Drained C before pos
  | .claimPop _ => True
  | .copied pos item => (e.1, .claimPop pos) ∈ before ∧ Written before pos item

/-! ### The invariant -/

/-- The cells of the tickets from `head` on. -/
structure Cells (q : ConcurrentQueue T C) (log : List (Thread × Event T)) : Prop where
  le : q.head ≤ q.tail
  room : q.tail ≤ q.head + C
  claimed : ∀ p, q.head ≤ p → p < q.tail →
    (q.cell p).seq = p ∨ (q.cell p).seq = p + 1 ∧ Written log p (q.cell p).data
  free : ∀ p, q.tail ≤ p → p < q.head + C →
    (q.cell p).seq = p ∧ Drained C log p ∨ (q.cell p).seq + C = p + 1

/-- The thread has claimed the ticket for its push and not published it. -/
structure Pushing (q : ConcurrentQueue T C) (log : List (Thread × Event T)) (thread : Thread)
    (item : T) (pos : Nat) : Prop where
  unpopped : q.head ≤ pos
  claimed : pos < q.tail
  seq : (q.cell pos).seq = pos
  logged : (thread, .claimPush pos item) ∈ log

/-- The thread has claimed the ticket for its pop and not freed the cell. -/
structure Popping (q : ConcurrentQueue T C) (log : List (Thread × Event T)) (thread : Thread)
    (pos : Nat) : Prop where
  claimed : pos < q.head
  unclaimed : q.tail ≤ pos + C
  seq : (q.cell pos).seq = pos + 1
  logged : (thread, .claimPop pos) ∈ log

/-- What a thread may rely on where it is. A position that has been compared with the
sequence number is good as long as the counter has not moved on. -/
def Placed (q : ConcurrentQueue T C) (log : List (Thread × Event T)) (thread : Thread) :
    Local T → Prop
  | .pushSeq _ pos => pos ≤ q.tail
  | .pushExchange _ pos => pos ≤ q.tail ∧ (q.tail ≤ pos → (q.cell pos).seq = pos)
  | .pushWrite item pos => Pushing q log thread item pos ∧ Drained C log pos
  | .pushStore item pos => Pushing q log thread item pos ∧ (q.cell pos).data = item ∧
      (thread, .write pos item) ∈ log
  | .popSeq pos => pos ≤ q.head
  | .popExchange pos => pos ≤ q.head ∧ (q.head ≤ pos → (q.cell pos).seq = pos + 1)
  | .popCopy pos => Popping q log thread pos ∧ Written log pos (q.cell pos).data
  | .popStore pos _ => Popping q log thread pos ∧ Drained C log (pos + C)
  | .idle => True
  | .pushLoad _ => True
  | .pushed _ => True
  | .popLoad => True
  | .popped _ => True

structure Inv (s : System Thread T C) : Prop where
  cells : Cells s.queue s.log
  placed : ∀ thread, Placed s.queue s.log thread (s.threads thread)
  pushes : pushTickets s.log = List.range s.queue.tail
  pops : popTickets s.log = List.range s.queue.head
  justified : EachAfter (Justified C) s.log

/-! ### What a step can do -/

/-- The steps of a thread with unbounded counters. -/
inductive Moves (q : ConcurrentQueue T C) :
    Local T → ConcurrentQueue T C → Local T → Option (Event T) → Prop
  | pushLoad (item : T) : Moves q (.pushLoad item) q (.pushSeq item q.tail) none
  | pushReady (item : T) (pos : Nat) (h : (q.cell pos).seq = pos) :
      Moves q (.pushSeq item pos) q (.pushExchange item pos) none
  | pushFull (item : T) (pos : Nat) : Moves q (.pushSeq item pos) q (.pushed false) none
  | pushStale (item : T) (pos : Nat) : Moves q (.pushSeq item pos) q (.pushLoad item) none
  | pushClaim (item : T) :
      Moves q (.pushExchange item q.tail) { q with tail := q.tail + 1 } (.pushWrite item q.tail)
        (some (.claimPush q.tail item))
  | pushRetry (item : T) (pos : Nat) :
      Moves q (.pushExchange item pos) q (.pushSeq item q.tail) none
  | pushWrite (item : T) (pos : Nat) :
      Moves q (.pushWrite item pos) (q.setCell pos { q.cell pos with data := item })
        (.pushStore item pos) (some (.write pos item))
  | pushStore (item : T) (pos : Nat) :
      Moves q (.pushStore item pos) (q.setCell pos { q.cell pos with seq := pos + 1 })
        (.pushed true) none
  | popLoad : Moves q .popLoad q (.popSeq q.head) none
  | popReady (pos : Nat) (h : (q.cell pos).seq = pos + 1) :
      Moves q (.popSeq pos) q (.popExchange pos) none
  | popEmpty (pos : Nat) : Moves q (.popSeq pos) q (.popped none) none
  | popStale (pos : Nat) : Moves q (.popSeq pos) q .popLoad none
  | popClaim :
      Moves q (.popExchange q.head) { q with head := q.head + 1 } (.popCopy q.head)
        (some (.claimPop q.head))
  | popRetry (pos : Nat) : Moves q (.popExchange pos) q (.popSeq q.head) none
  | popCopy (pos : Nat) :
      Moves q (.popCopy pos) q (.popStore pos (q.cell pos).data)
        (some (.copied pos (q.cell pos).data))
  | popStore (pos : Nat) (item : T) :
      Moves q (.popStore pos item) (q.setCell pos { q.cell pos with seq := pos + C })
        (.popped (some item)) none

theorem advance_moves {spuriously : Bool} {q q' : ConcurrentQueue T C} {loc loc' : Local T}
    {event : Option (Event T)}
    (h : q.advance .unbounded spuriously loc = .ok (q', loc', event)) :
    Moves q loc q' loc' event := by
  cases loc with
  | idle => cases h
  | pushLoad item => cases h; exact .pushLoad item
  | pushSeq item pos =>
      change (if _ then _ else if _ then _ else _) = _ at h
      split at h
      · rename_i hdif
        cases h
        exact .pushReady item pos (by omega)
      · split at h
        · cases h; exact .pushFull item pos
        · cases h; exact .pushStale item pos
  | pushExchange item pos =>
      rw [ConcurrentQueue.advance] at h
      split at h
      · rename_i htail
        obtain ⟨rfl, -⟩ := htail
        cases h
        exact .pushClaim item
      · cases h; exact .pushRetry item pos
  | pushWrite item pos => cases h; exact .pushWrite item pos
  | pushStore item pos => cases h; exact .pushStore item pos
  | pushed success => cases h
  | popLoad => cases h; exact .popLoad
  | popSeq pos =>
      change (if _ then _ else if _ then _ else _) = _ at h
      split at h
      · rename_i hdif
        cases h
        have hseq : ((q.cell pos).seq : Int) - ((pos + 1 : Nat) : Int) = 0 := hdif
        exact .popReady pos (by omega)
      · split at h
        · cases h; exact .popEmpty pos
        · cases h; exact .popStale pos
  | popExchange pos =>
      rw [ConcurrentQueue.advance] at h
      split at h
      · rename_i hhead
        obtain ⟨rfl, -⟩ := hhead
        cases h
        exact .popClaim
      · cases h; exact .popRetry pos
  | popCopy pos => cases h; exact .popCopy pos
  | popStore pos item => cases h; exact .popStore pos item
  | popped item => cases h

/-! ### What a step leaves alone -/

section Frame

variable {q q' : ConcurrentQueue T C} {log log' : List (Thread × Event T)} {thread : Thread}

omit [NeZero C] in
theorem Written.mono {pos : Nat} {item : T} (h : Written log pos item) (hlog : log ⊆ log') :
    Written log' pos item := by
  obtain ⟨thread, hclaim, hwrite⟩ := h
  exact ⟨thread, hlog hclaim, hlog hwrite⟩

omit [NeZero C] in
theorem Drained.mono {pos : Nat} (h : Drained C log pos) (hlog : log ⊆ log') :
    Drained C log' pos := by
  intro hpos
  obtain ⟨thread, item, hcopied⟩ := h hpos
  exact ⟨thread, item, hlog hcopied⟩

theorem Cells.mono (h : Cells q log) (hlog : log ⊆ log') : Cells q log' where
  le := h.le
  room := h.room
  claimed p hle hlt := (h.claimed p hle hlt).imp_right fun hp => ⟨hp.1, hp.2.mono hlog⟩
  free p hle hlt := (h.free p hle hlt).imp_left fun hp => ⟨hp.1, hp.2.mono hlog⟩

/-- What a step of another thread may not do to a thread that relies on its place. -/
structure Undisturbed (q q' : ConcurrentQueue T C) (log log' : List (Thread × Event T))
    (thread : Thread) : Prop where
  head : q.head ≤ q'.head
  tail : q.tail ≤ q'.tail
  logged : log ⊆ log'
  free : q'.tail ≤ q.tail → (q.cell q.tail).seq = q.tail → (q'.cell q.tail).seq = q.tail
  full : q'.head ≤ q.head → (q.cell q.head).seq = q.head + 1 → (q'.cell q.head).seq = q.head + 1
  pushing : ∀ item pos, Pushing q log thread item pos → q'.head ≤ pos ∧ q'.cell pos = q.cell pos
  popping : ∀ pos, Popping q log thread pos → q'.tail ≤ pos + C ∧ q'.cell pos = q.cell pos

theorem Undisturbed.refl : Undisturbed q q log log thread where
  head := Nat.le_refl _
  tail := Nat.le_refl _
  logged := List.Subset.refl _
  free _ h := h
  full _ h := h
  pushing _ _ h := ⟨h.unpopped, rfl⟩
  popping _ h := ⟨h.unclaimed, rfl⟩

theorem Undisturbed.pushing_kept (h : Undisturbed q q' log log' thread) {item : T} {pos : Nat}
    (hpush : Pushing q log thread item pos) : Pushing q' log' thread item pos := by
  obtain ⟨hhead, hcell⟩ := h.pushing item pos hpush
  exact ⟨hhead, Nat.lt_of_lt_of_le hpush.claimed h.tail, by rw [hcell]; exact hpush.seq,
    h.logged hpush.logged⟩

theorem Undisturbed.popping_kept (h : Undisturbed q q' log log' thread) {pos : Nat}
    (hpop : Popping q log thread pos) : Popping q' log' thread pos := by
  obtain ⟨htail, hcell⟩ := h.popping pos hpop
  exact ⟨Nat.lt_of_lt_of_le hpop.claimed h.head, htail, by rw [hcell]; exact hpop.seq,
    h.logged hpop.logged⟩

theorem Undisturbed.placed (h : Undisturbed q q' log log' thread) {loc : Local T}
    (hloc : Placed q log thread loc) : Placed q' log' thread loc := by
  have hhead := h.head
  have htail := h.tail
  cases loc with
  | pushSeq item pos => exact Nat.le_trans hloc htail
  | pushExchange item pos =>
      obtain ⟨hle, hseq⟩ := hloc
      refine ⟨Nat.le_trans hle htail, fun hpos => ?_⟩
      obtain rfl : pos = q.tail := by omega
      exact h.free hpos (hseq (Nat.le_refl _))
  | pushWrite item pos => exact ⟨h.pushing_kept hloc.1, hloc.2.mono h.logged⟩
  | pushStore item pos =>
      obtain ⟨hpush, hdata, hwrite⟩ := hloc
      refine ⟨h.pushing_kept hpush, ?_, h.logged hwrite⟩
      rw [(h.pushing item pos hpush).2, hdata]
  | popSeq pos => exact Nat.le_trans hloc hhead
  | popExchange pos =>
      obtain ⟨hle, hseq⟩ := hloc
      refine ⟨Nat.le_trans hle hhead, fun hpos => ?_⟩
      obtain rfl : pos = q.head := by omega
      exact h.full hpos (hseq (Nat.le_refl _))
  | popCopy pos =>
      obtain ⟨hpop, hwritten⟩ := hloc
      refine ⟨h.popping_kept hpop, ?_⟩
      rw [(h.popping pos hpop).2]
      exact hwritten.mono h.logged
  | popStore pos item => exact ⟨h.popping_kept hloc.1, hloc.2.mono h.logged⟩
  | idle => trivial
  | pushLoad item => trivial
  | pushed success => trivial
  | popLoad => trivial
  | popped item => trivial

end Frame

/-! ### Claiming a ticket -/

section Claim

variable {q : ConcurrentQueue T C} {log : List (Thread × Event T)}

/-- A cell whose sequence number is `tail` is free, and the queue is not full. -/
theorem Cells.tail_free (h : Cells q log) (hC : 2 ≤ C) (hseq : (q.cell q.tail).seq = q.tail) :
    q.tail < q.head + C ∧ Drained C log q.tail := by
  have hroom := h.room
  have hlt : q.tail < q.head + C := by
    by_contra hfull
    have htail : q.tail = q.head + C := by omega
    have hcell : q.cell q.tail = q.cell q.head := ConcurrentQueue.cell_congr (by simp [htail])
    rw [hcell] at hseq
    rcases h.claimed q.head (Nat.le_refl _) (by omega) with hhead | ⟨hhead, -⟩ <;> omega
  refine ⟨hlt, ?_⟩
  rcases h.free q.tail (Nat.le_refl _) hlt with ⟨-, hdrained⟩ | hbusy
  · exact hdrained
  · omega

/-- A cell whose sequence number is `head + 1` holds the item of the ticket `head`. -/
theorem Cells.head_full (h : Cells q log) (hseq : (q.cell q.head).seq = q.head + 1) :
    q.head < q.tail ∧ Written log q.head (q.cell q.head).data := by
  have hC : 0 < C := Nat.pos_of_ne_zero (NeZero.ne C)
  have hlt : q.head < q.tail := by
    by_contra hempty
    rcases h.free q.head (by omega) (by omega) with ⟨hfree, -⟩ | hbusy <;> omega
  refine ⟨hlt, ?_⟩
  rcases h.claimed q.head (Nat.le_refl _) hlt with hhead | ⟨-, hwritten⟩
  · omega
  · exact hwritten

theorem Cells.claimPush (h : Cells q log) (hC : 2 ≤ C) (hseq : (q.cell q.tail).seq = q.tail) :
    Cells { q with tail := q.tail + 1 } log where
  le := Nat.le_succ_of_le h.le
  room := (h.tail_free hC hseq).1
  claimed p hle hlt := by
    rcases Nat.lt_succ_iff_lt_or_eq.mp hlt with hlt' | rfl
    · exact h.claimed p hle hlt'
    · exact .inl hseq
  free p hle hlt := h.free p (Nat.le_of_succ_le hle) hlt

theorem Cells.claimPop (h : Cells q log) (hseq : (q.cell q.head).seq = q.head + 1) :
    Cells { q with head := q.head + 1 } log where
  le := (h.head_full hseq).1
  room := by have hroom := h.room; change q.tail ≤ q.head + 1 + C; omega
  claimed p hle hlt := h.claimed p (Nat.le_of_succ_le hle) hlt
  free p hle hlt := by
    have hroom := h.room
    change q.tail ≤ p at hle
    change p < q.head + 1 + C at hlt
    by_cases hlast : p = q.head + C
    · right
      have hcell : q.cell p = q.cell q.head := ConcurrentQueue.cell_congr (by simp [hlast])
      change (q.cell p).seq + C = p + 1
      rw [hcell, hseq]
      omega
    · exact h.free p hle (by omega)

theorem Undisturbed.claimPush (hC : 2 ≤ C)
    (hseq : (q.cell q.tail).seq = q.tail) {log' : List (Thread × Event T)} (hlog : log ⊆ log')
    (thread : Thread) : Undisturbed q { q with tail := q.tail + 1 } log log' thread where
  head := Nat.le_refl _
  tail := Nat.le_succ _
  logged := hlog
  free hle _ := absurd hle (Nat.not_succ_le_self _)
  full _ hfull := hfull
  pushing _ _ hpush := ⟨hpush.unpopped, rfl⟩
  popping pos hpop := by
    refine ⟨?_, rfl⟩
    change q.tail + 1 ≤ pos + C
    have hle := hpop.unclaimed
    by_contra hlast
    have htail : q.tail = pos + C := by omega
    have hcell : q.cell q.tail = q.cell pos := ConcurrentQueue.cell_congr (by simp [htail])
    have hpos := hpop.seq
    rw [hcell] at hseq
    omega

theorem Undisturbed.claimPop (hseq : (q.cell q.head).seq = q.head + 1)
    {log' : List (Thread × Event T)} (hlog : log ⊆ log') (thread : Thread) :
    Undisturbed q { q with head := q.head + 1 } log log' thread where
  head := Nat.le_succ _
  tail := Nat.le_refl _
  logged := hlog
  free _ hfree := hfree
  full hle _ := absurd hle (Nat.not_succ_le_self _)
  pushing item pos hpush := by
    refine ⟨?_, rfl⟩
    change q.head + 1 ≤ pos
    have hle := hpush.unpopped
    by_contra hlast
    obtain rfl : pos = q.head := by omega
    have hpos := hpush.seq
    omega
  popping _ hpop := ⟨hpop.unclaimed, rfl⟩

end Claim

/-! ### Accesses to a cell -/

section Store

variable {q : ConcurrentQueue T C} {log log' : List (Thread × Event T)} {thread other : Thread}

/-- A store to the cell of a ticket that a push holds is seen by no other ticket from `head`
on, and by no ticket that a pop holds. -/
theorem Pushing.cell_other {item : T} {pos : Nat} (h : Pushing q log thread item pos)
    (hcells : Cells q log) {c : Cell T} {p : Nat} (hne : p ≠ pos) (hlow : q.tail ≤ p + C)
    (hhigh : p < q.head + C) : (q.setCell pos c).cell p = q.cell p := by
  have hhead := h.unpopped
  have htail := h.claimed
  have hroom := hcells.room
  rw [ConcurrentQueue.cell_setCell, if_neg]
  intro hmod
  exact hne (ConcurrentQueue.ticket_inj hmod (by omega) (by omega)).symm

theorem Popping.cell_other {pos : Nat} (h : Popping q log thread pos) {c : Cell T} {p : Nat}
    (hne : p ≠ pos) (hlow : q.tail ≤ p + C) (hhigh : p < pos + C) (hle : q.head ≤ q.tail) :
    (q.setCell pos c).cell p = q.cell p := by
  have hhead := h.claimed
  rw [ConcurrentQueue.cell_setCell, if_neg]
  intro hmod
  exact hne (ConcurrentQueue.ticket_inj hmod (by omega) hhigh).symm

theorem cell_setCell_self (pos : Nat) (c : Cell T) : (q.setCell pos c).cell pos = c := by
  rw [ConcurrentQueue.cell_setCell, if_pos rfl]

/-- The cell of a claimed push, with what a cell of a claimed ticket may hold. -/
theorem Cells.setClaimed (h : Cells q log) {item : T} {pos : Nat}
    (hpush : Pushing q log thread item pos) {c : Cell T}
    (hc : c.seq = pos ∨ c.seq = pos + 1 ∧ Written log pos c.data) :
    Cells (q.setCell pos c) log where
  le := h.le
  room := h.room
  claimed p hle hlt := by
    have hroom := h.room
    change q.head ≤ p at hle
    change p < q.tail at hlt
    by_cases hp : p = pos
    · rw [hp, cell_setCell_self]
      exact hc
    · rw [hpush.cell_other h hp (by omega) (by omega)]
      exact h.claimed p hle hlt
  free p hle hlt := by
    have hpos := hpush.claimed
    change q.tail ≤ p at hle
    change p < q.head + C at hlt
    rw [hpush.cell_other h (by omega) (by omega) hlt]
    exact h.free p hle hlt

theorem Cells.write (h : Cells q log) {item : T} {pos : Nat}
    (hpush : Pushing q log thread item pos) :
    Cells (q.setCell pos { q.cell pos with data := item }) log :=
  h.setClaimed hpush (.inl hpush.seq)

theorem Cells.publish (h : Cells q log) {item : T} {pos : Nat}
    (hpush : Pushing q log thread item pos) (hwritten : Written log pos (q.cell pos).data) :
    Cells (q.setCell pos { q.cell pos with seq := pos + 1 }) log :=
  h.setClaimed hpush (.inr ⟨rfl, hwritten⟩)

theorem Cells.release (h : Cells q log) {pos : Nat} (hpop : Popping q log thread pos)
    (hdrained : Drained C log (pos + C)) :
    Cells (q.setCell pos { q.cell pos with seq := pos + C }) log where
  le := h.le
  room := h.room
  claimed p hle hlt := by
    have hpos := hpop.claimed
    have hlap := hpop.unclaimed
    change q.head ≤ p at hle
    change p < q.tail at hlt
    rw [hpop.cell_other (by omega) (by omega) (by omega) h.le]
    exact h.claimed p hle hlt
  free p hle hlt := by
    have hpos := hpop.claimed
    have hlap := hpop.unclaimed
    have horder := h.le
    change q.tail ≤ p at hle
    change p < q.head + C at hlt
    by_cases hp : p = pos + C
    · left
      rw [ConcurrentQueue.cell_setCell, if_pos (by simp [hp]), hp]
      exact ⟨rfl, hdrained⟩
    · have hother : (q.setCell pos { q.cell pos with seq := pos + C }).cell p = q.cell p := by
        rw [ConcurrentQueue.cell_setCell, if_neg]
        intro hmod
        have hticket : (pos + C) % C = p % C := by rw [hmod, Nat.add_mod_right]
        exact hp (ConcurrentQueue.ticket_inj hticket (by omega) (by omega))
      rw [hother]
      exact h.free p hle hlt

/-- A store to the cell of a ticket that a push holds. -/
theorem Undisturbed.store_pushing (hC : 2 ≤ C) (h : Cells q log) {item : T} {pos : Nat}
    (hpush : Pushing q log thread item pos)
    (hother : ∀ item', ¬ Pushing q log other item' pos) (hlog : log ⊆ log') (c : Cell T) :
    Undisturbed q (q.setCell pos c) log log' other where
  head := Nat.le_refl _
  tail := Nat.le_refl _
  logged := hlog
  free _ hfree := by
    have hpos := hpush.claimed
    have hroom := h.room
    have hseq := hpush.seq
    rw [ConcurrentQueue.cell_setCell, if_neg]
    · exact hfree
    · intro hmod
      rw [ConcurrentQueue.cell_congr hmod] at hfree
      omega
  full _ hfull := by
    have hseq := hpush.seq
    rw [ConcurrentQueue.cell_setCell, if_neg]
    · exact hfull
    · intro hmod
      rw [ConcurrentQueue.cell_congr hmod] at hfull
      have heq := ConcurrentQueue.ticket_inj hmod (by omega) (by omega)
      omega
  pushing item' p hp := by
    refine ⟨hp.unpopped, hpush.cell_other h (fun heq => ?_) ?_ ?_⟩
    · exact hother item' (heq ▸ hp)
    · have hroom := h.room
      have hle := hp.unpopped
      omega
    · have hroom := h.room
      have hlt := hp.claimed
      have hle := hp.unpopped
      have hpos := hpush.unpopped
      omega
  popping p hp := by
    have hlt := hp.claimed
    have hpos := hpush.unpopped
    refine ⟨hp.unclaimed, hpush.cell_other h (by omega) hp.unclaimed (by omega)⟩

/-- A store to the cell of a ticket that a pop holds. -/
theorem Undisturbed.store_popping (hC : 2 ≤ C) (h : Cells q log) {pos : Nat}
    (hpop : Popping q log thread pos) (hother : ¬ Popping q log other pos)
    (hlog : log ⊆ log') (c : Cell T) : Undisturbed q (q.setCell pos c) log log' other where
  head := Nat.le_refl _
  tail := Nat.le_refl _
  logged := hlog
  free _ hfree := by
    have hseq := hpop.seq
    rw [ConcurrentQueue.cell_setCell, if_neg]
    · exact hfree
    · intro hmod
      rw [ConcurrentQueue.cell_congr hmod] at hfree
      have heq := ConcurrentQueue.ticket_inj hmod (by omega) (by omega)
      omega
  full _ hfull := by
    have hlt := hpop.claimed
    have hseq := hpop.seq
    rw [ConcurrentQueue.cell_setCell, if_neg]
    · exact hfull
    · intro hmod
      rw [ConcurrentQueue.cell_congr hmod] at hfull
      omega
  pushing item p hp := by
    have hlt := hp.claimed
    have hle := hp.unpopped
    have hpos := hpop.claimed
    have hlap := hpop.unclaimed
    exact ⟨hp.unpopped, hpop.cell_other (by omega) (by omega) (by omega) h.le⟩
  popping p hp := by
    have hpos := hpop.unclaimed
    have hlt := hp.claimed
    have hle := h.le
    refine ⟨hp.unclaimed, hpop.cell_other (fun heq => ?_) hp.unclaimed (by omega) hle⟩
    exact hother (heq ▸ hp)

end Store

/-! ### Every interleaving -/

section Tickets

omit [NeZero C]

theorem pushTickets_append (log log' : List (Thread × Event T)) :
    pushTickets (log ++ log') = pushTickets log ++ pushTickets log' := List.filterMap_append

theorem popTickets_append (log log' : List (Thread × Event T)) :
    popTickets (log ++ log') = popTickets log ++ popTickets log' := List.filterMap_append

theorem claimPush_unique {log : List (Thread × Event T)} {n : Nat}
    (h : pushTickets log = List.range n) {thread thread' : Thread} {pos : Nat} {item item' : T}
    (hclaim : (thread, .claimPush pos item) ∈ log)
    (hclaim' : (thread', .claimPush pos item') ∈ log) : thread = thread' ∧ item = item' := by
  have hnodup : (pushTickets log).Nodup := h ▸ List.nodup_range
  have heq := eq_of_nodup_filterMap hnodup hclaim hclaim' rfl rfl
  cases heq
  exact ⟨rfl, rfl⟩

theorem claimPop_unique {log : List (Thread × Event T)} {n : Nat}
    (h : popTickets log = List.range n) {thread thread' : Thread} {pos : Nat}
    (hclaim : (thread, .claimPop pos) ∈ log) (hclaim' : (thread', .claimPop pos) ∈ log) :
    thread = thread' := by
  have hnodup : (popTickets log).Nodup := h ▸ List.nodup_range
  have heq := eq_of_nodup_filterMap hnodup hclaim hclaim' rfl rfl
  cases heq
  rfl

end Tickets

variable [DecidableEq Thread] {s : System Thread T C}

/-- A thread takes a step that does not disturb the others. -/
theorem Inv.update (h : Inv s) (thread : Thread) (q' : ConcurrentQueue T C) (loc' : Local T)
    (event : Option (Event T))
    (hcells : Cells q' (s.log ++ (event.map (thread, ·)).toList))
    (hplaced : Placed q' (s.log ++ (event.map (thread, ·)).toList) thread loc')
    (hothers : ∀ other, other ≠ thread →
      Undisturbed s.queue q' s.log (s.log ++ (event.map (thread, ·)).toList) other)
    (hpushes : List.range s.queue.tail ++ pushTickets (event.map (thread, ·)).toList =
      List.range q'.tail)
    (hpops : List.range s.queue.head ++ popTickets (event.map (thread, ·)).toList =
      List.range q'.head)
    (hjustified : ∀ e ∈ event, Justified C s.log (thread, e)) :
    Inv ⟨q', Function.update s.threads thread loc',
      s.log ++ (event.map (thread, ·)).toList⟩ where
  cells := hcells
  placed other := by
    change Placed q' _ other (Function.update s.threads thread loc' other)
    by_cases hother : other = thread
    · rw [hother, Function.update_self]
      exact hplaced
    · rw [Function.update_of_ne hother]
      exact (hothers other hother).placed (h.placed other)
  pushes := by rw [pushTickets_append, h.pushes, hpushes]
  pops := by rw [popTickets_append, h.pops, hpops]
  justified := by
    apply h.justified.append
    intro e he
    obtain ⟨e', he', rfl⟩ := Option.map_eq_some_iff.mp he
    exact hjustified e' he'

/-- A step that only looks. -/
theorem Inv.look (h : Inv s) (thread : Thread) (loc' : Local T)
    (hplaced : Placed s.queue s.log thread loc') :
    Inv { s with threads := Function.update s.threads thread loc' } := by
  have hnil : s.log ++ ((none : Option (Event T)).map (thread, ·)).toList = s.log :=
    List.append_nil _
  have hupdate := h.update thread s.queue loc' none
    (by rw [hnil]; exact h.cells) (by rw [hnil]; exact hplaced)
    (fun _ _ => by rw [hnil]; exact .refl) (List.append_nil _) (List.append_nil _)
    (fun _ he => by cases he)
  rwa [hnil] at hupdate

omit [DecidableEq Thread] in
/-- A store of the thread that holds the ticket of a push does not concern the others. -/
theorem Inv.store_pushing (hC : 2 ≤ C) (h : Inv s) {thread other : Thread} (hother : other ≠ thread)
    {item : T} {pos : Nat} (hpush : Pushing s.queue s.log thread item pos)
    {log' : List (Thread × Event T)} (hlog : s.log ⊆ log') (c : Cell T) :
    Undisturbed s.queue (s.queue.setCell pos c) s.log log' other := by
  apply Undisturbed.store_pushing hC h.cells hpush _ hlog
  intro item' hpush'
  exact hother (claimPush_unique h.pushes hpush'.logged hpush.logged).1

theorem Inv.advance (hC : 2 ≤ C) (h : Inv s) {thread : Thread} {q' : ConcurrentQueue T C}
    {loc' : Local T} {event : Option (Event T)}
    (hmove : Moves s.queue (s.threads thread) q' loc' event) :
    Inv ⟨q', Function.update s.threads thread loc', s.log ++ (event.map (thread, ·)).toList⟩ := by
  have hplaced := h.placed thread
  generalize hloc : s.threads thread = loc at hmove hplaced
  have hgrow : ∀ e : Event T, s.log ⊆ s.log ++ [(thread, e)] :=
    fun _ => List.subset_append_left _ _
  have hlast : ∀ e : Event T, (thread, e) ∈ s.log ++ [(thread, e)] :=
    fun _ => List.mem_append_right _ (List.mem_singleton.mpr rfl)
  cases hmove with
  | pushLoad item => simpa using h.look thread (.pushSeq item _) (Nat.le_refl _)
  | pushReady item pos hseq =>
      simpa using h.look thread (.pushExchange item pos)
        ⟨hplaced, fun _ => hseq⟩
  | pushFull item pos => simpa using h.look thread (.pushed false) trivial
  | pushStale item pos => simpa using h.look thread (.pushLoad item) trivial
  | pushClaim item =>
      have hseq := hplaced.2 (Nat.le_refl _)
      obtain ⟨hlt, hdrained⟩ := h.cells.tail_free hC hseq
      refine h.update _ _ _ _ ((h.cells.claimPush hC hseq).mono (hgrow _)) ?_
        (fun other _ => Undisturbed.claimPush hC hseq (hgrow _) other) ?_ (List.append_nil _) ?_
      · exact ⟨⟨h.cells.le, Nat.lt_succ_self _, hseq, hlast _⟩, hdrained.mono (hgrow _)⟩
      · exact List.range_succ.symm
      · rintro e ⟨⟩
        trivial
  | pushRetry item pos => simpa using h.look thread (.pushSeq item _) (Nat.le_refl _)
  | pushWrite item pos =>
      obtain ⟨hpush, hdrained⟩ := hplaced
      refine h.update _ _ _ _ ((h.cells.write hpush).mono (hgrow _)) ?_ (fun other hother => ?_)
        (List.append_nil _) (List.append_nil _) ?_
      · refine ⟨⟨hpush.unpopped, hpush.claimed, ?_, hgrow _ hpush.logged⟩, ?_, hlast _⟩
        · rw [cell_setCell_self]
          exact hpush.seq
        · rw [cell_setCell_self]
      · exact h.store_pushing hC hother hpush (hgrow _) _
      · rintro e ⟨⟩
        exact ⟨hpush.logged, hdrained⟩
  | pushStore item pos =>
      obtain ⟨hpush, rfl, hwrite⟩ := hplaced
      have hupdate := h.update thread
        (s.queue.setCell pos { s.queue.cell pos with seq := pos + 1 }) (.pushed true) none
        (by simpa using h.cells.publish hpush ⟨thread, hpush.logged, hwrite⟩) trivial
        (fun other hother => ?_) (List.append_nil _) (List.append_nil _) (fun _ he => by cases he)
      · exact hupdate
      · exact h.store_pushing hC hother hpush (List.subset_append_left _ _) _
  | popLoad => simpa using h.look thread (.popSeq _) (Nat.le_refl _)
  | popReady pos hseq =>
      simpa using h.look thread (.popExchange pos) ⟨hplaced, fun _ => hseq⟩
  | popEmpty pos => simpa using h.look thread (.popped none) trivial
  | popStale pos => simpa using h.look thread (.popLoad) trivial
  | popClaim =>
      have hseq := hplaced.2 (Nat.le_refl _)
      obtain ⟨hlt, hwritten⟩ := h.cells.head_full hseq
      refine h.update _ _ _ _ ((h.cells.claimPop hseq).mono (hgrow _)) ?_
        (fun other _ => Undisturbed.claimPop hseq (hgrow _) other) (List.append_nil _) ?_ ?_
      · exact ⟨⟨Nat.lt_succ_self _, h.cells.room, hseq, hlast _⟩, hwritten.mono (hgrow _)⟩
      · exact List.range_succ.symm
      · rintro e ⟨⟩
        trivial
  | popRetry pos => simpa using h.look thread (.popSeq _) (Nat.le_refl _)
  | popCopy pos =>
      obtain ⟨hpop, hwritten⟩ := hplaced
      refine h.update _ _ _ _ (h.cells.mono (hgrow _)) ?_ (fun other _ => ?_) (List.append_nil _)
        (List.append_nil _) ?_
      · refine ⟨⟨hpop.claimed, hpop.unclaimed, hpop.seq, hgrow _ hpop.logged⟩, fun _ => ?_⟩
        rw [Nat.add_sub_cancel]
        exact ⟨thread, _, hlast _⟩
      · exact { Undisturbed.refl with logged := hgrow _ }
      · rintro e ⟨⟩
        exact ⟨hpop.logged, hwritten⟩
  | popStore pos item =>
      obtain ⟨hpop, hdrained⟩ := hplaced
      have hupdate := h.update thread
        (s.queue.setCell pos { s.queue.cell pos with seq := pos + C }) (.popped (some item)) none
        (by simpa using h.cells.release hpop hdrained) trivial
        (fun other hother => ?_) (List.append_nil _) (List.append_nil _) (fun _ he => by cases he)
      · exact hupdate
      · apply Undisturbed.store_popping hC h.cells hpop _ (List.subset_append_left _ _)
        intro hpop'
        exact hother (claimPop_unique h.pops hpop'.logged hpop.logged)

theorem Inv.enter (h : Inv s) (thread : Thread) (start : Local T) {s' : System Thread T C}
    (hstart : Placed s.queue s.log thread start) (henter : s.enter thread start = .ok s') :
    Inv s' := by
  rw [System.enter] at henter
  split at henter
  · cases henter
    exact h.look thread start hstart
  · cases henter

theorem Inv.step (hC : 2 ≤ C) (h : Inv s) {action : Action Thread T} {s' : System Thread T C}
    (hstep : s.step .unbounded action = .ok s') : Inv s' := by
  cases action with
  | push thread item => exact h.enter thread (.pushLoad item) trivial hstep
  | pop thread => exact h.enter thread .popLoad trivial hstep
  | advance thread spuriously =>
      cases hmove : s.queue.advance .unbounded spuriously (s.threads thread) with
      | error e =>
          rw [System.step, hmove] at hstep
          cases hstep
      | ok out =>
          obtain ⟨q', loc', event⟩ := out
          rw [System.step, hmove] at hstep
          cases hstep
          exact h.advance hC (advance_moves hmove)

omit [DecidableEq Thread] in
theorem new_inv [Inhabited T] : Inv (System.new : System Thread T C) where
  cells :=
    { le := Nat.le_refl _
      room := Nat.zero_le _
      claimed := fun p _ hlt => absurd hlt (Nat.not_lt_zero p)
      free := by
        intro p _ hlt
        have hp : p < C := by simpa [System.new, ConcurrentQueue.new] using hlt
        exact .inl ⟨Nat.mod_eq_of_lt hp, fun hle => absurd hp (Nat.not_lt.mpr hle)⟩ }
  placed _ := trivial
  pushes := rfl
  pops := rfl
  justified := eachAfter_nil

/-- In every state that any interleaving reaches: the tickets are claimed by pushes, and by
pops, one at a time and in order, none popped that is not pushed; a ticket's cell is written
only by the thread that claimed it, after the pop of the ticket a lap before has copied the
cell; and a pop copies only a ticket it has claimed, namely the item written by the thread
that claimed the ticket for a push. -/
theorem runs_safe [Inhabited T] (hC : 2 ≤ C) (actions : List (Action Thread T))
    (hrun : Run.run (System.step .unbounded) actions System.new = .ok s) :
    pushTickets s.log = List.range s.queue.tail ∧
      popTickets s.log = List.range s.queue.head ∧ s.queue.head ≤ s.queue.tail ∧
      (∀ before thread pos item after, s.log = before ++ (thread, .write pos item) :: after →
        (thread, .claimPush pos item) ∈ before ∧
          (C ≤ pos → ∃ popper item', (popper, .copied (pos - C) item') ∈ before)) ∧
      (∀ before thread pos item after, s.log = before ++ (thread, .copied pos item) :: after →
        (thread, .claimPop pos) ∈ before ∧
          ∃ pusher, (pusher, .claimPush pos item) ∈ before ∧
            (pusher, .write pos item) ∈ before) := by
  have h : Inv s := Run.run_invariant (fun _ _ _ hinv hstep => hinv.step hC hstep) new_inv hrun
  refine ⟨h.pushes, h.pops, h.cells.le, ?_, ?_⟩
  · intro before thread pos item after hlog
    exact h.justified before _ after hlog
  · intro before thread pos item after hlog
    exact h.justified before _ after hlog

/-- Two threads: a push whose exchange fails once, between the steps of a pop that first
finds the cell empty. -/
def pushAndPop : List (Action (Fin 2) Nat) :=
  [.push 0 7, .pop 1, .advance 0 false, .advance 0 false, .advance 0 true, .advance 1 false,
    .advance 0 false, .advance 1 false, .advance 0 false, .advance 0 false, .advance 0 false,
    .pop 1, .advance 1 false, .advance 1 false, .advance 1 false, .advance 1 false]

theorem runs_safe_sample :
    ∃ s : System (Fin 2) Nat 2, Run.run (System.step .unbounded) pushAndPop System.new = .ok s ∧
      s.log = [(0, .claimPush 0 7), (0, .write 0 7), (1, .claimPop 0), (1, .copied 0 7)] ∧
      pushTickets s.log = List.range s.queue.tail :=
  ⟨_, rfl, rfl, (runs_safe (by decide) pushAndPop rfl).1⟩

end HftProject.Week7
