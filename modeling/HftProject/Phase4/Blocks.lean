import HftProject.Phase4.Runs

/-!
`MemoryPool` under any client. A block need only have room for a link, and what the client
writes into the blocks it holds is its own business. With at least one block the pool hands out
exactly its blocks (`blocks_exact_iff`); with none the constructor still leaves the start of the
chunk as the head of the list.
-/

namespace HftProject.Phase4

open Memory Run

variable {O : Type} {L : Layout}

/-- A pool, and the blocks that its client holds. -/
structure PoolUse (O : Type) where
  pool : MemoryPool O
  outstanding : List Nat

inductive PoolOp (O : Type) where
  | allocate
  | deallocate (block : Nat)
  /-- The client writes into a block. -/
  | write (block : Nat) (cell : Cell O)

/-- A client that is refused a block goes on without it. -/
def PoolOp.step (L : Layout) : PoolOp O → PoolUse O → Except Fault (PoolUse O)
  | .allocate, s =>
      match s.pool.allocate with
      | .ok (block, pool) => .ok ⟨pool, block :: s.outstanding⟩
      | .error .badAlloc => .ok s
      | .error e => .error e
  | .deallocate block, s => do
      let pool ← s.pool.deallocate L (some block)
      return ⟨pool, s.outstanding.erase block⟩
  | .write block cell, s => do
      let pool ← s.pool.write L block cell
      return { s with pool := pool }

/-- The client only touches blocks that it holds, within their bounds. -/
def PoolOp.Allowed (L : Layout) : PoolOp O → PoolUse O → Prop
  | .allocate, _ => True
  | .deallocate block, s => block ∈ s.outstanding
  | .write block cell, s => block ∈ s.outstanding ∧ L.size cell ≤ s.pool.blockSize

namespace PoolUse

variable {n : Nat} {s : PoolUse O} {free : List Nat}

/-- A block of a pool of `n` blocks. -/
def IsBlock (n : Nat) (s : PoolUse O) (a : Nat) : Prop := ∃ i < n, a = i * s.pool.blockSize

/-- `allocate` throws exactly if all `n` blocks are outstanding and else returns one that is not;
the free list visits each of those exactly once and ends at the null pointer. -/
structure Exact (n : Nat) (s : PoolUse O) : Prop where
  throws : s.pool.allocate = .error .badAlloc ↔ s.outstanding.length = n
  returns : s.pool.allocate = .error .badAlloc ∨ ∃ block pool,
    s.pool.allocate = .ok (block, pool) ∧ s.IsBlock n block ∧ block ∉ s.outstanding
  list : ∃ free, Chain Cell.next s.pool.pool s.pool.freeList free ∧ free.Nodup ∧
    ∀ a, a ∈ free ↔ s.IsBlock n a ∧ a ∉ s.outstanding

/-! ### The blocks of the list and those of the client -/

/-- The free list runs through `free`, which with the outstanding blocks makes up the pool. -/
structure Good (L : Layout) (n : Nat) (s : PoolUse O) (free : List Nat) : Prop where
  fits : L.sizeofPtr ≤ s.pool.blockSize
  poolSize : s.pool.poolSize = n
  chain : Chain Cell.next s.pool.pool s.pool.freeList free
  nodup : (free ++ s.outstanding).Nodup
  blocks : ∀ a, a ∈ free ++ s.outstanding ↔ s.IsBlock n a
  slotted : Slotted L.size s.pool.blockSize n s.pool.pool

theorem Good.length (h : s.Good L n free) : free.length + s.outstanding.length = n := by
  have hall := MemoryPool.blocks_nodup (lt_of_lt_of_le L.ptrPos h.fits) n
  have hperm := (List.perm_ext_iff_of_nodup h.nodup hall).mpr fun a => by
    rw [h.blocks]
    simp [IsBlock, eq_comm]
  simpa using hperm.length_eq

theorem Good.outstanding_block (h : s.Good L n free) {a : Nat} (ha : a ∈ s.outstanding) :
    a ∉ free ∧ ∃ i < n, a = i * s.pool.blockSize :=
  ⟨fun hfree => (List.nodup_append.mp h.nodup).2.2 a hfree a ha rfl,
    (h.blocks a).mp (List.mem_append_right _ ha)⟩

/-- `allocate` on an empty list throws. -/
theorem Good.allocate_nil (h : s.Good L n []) : s.pool.allocate = .error .badAlloc := by
  have hhead := h.chain.head
  rw [MemoryPool.allocate, hhead]
  rfl

/-- `allocate` takes the first block of the list. -/
theorem Good.allocate_cons {a : Nat} (h : s.Good L n (a :: free)) :
    ∃ pool, s.pool.allocate = .ok (a, pool) ∧ Good L n ⟨pool, a :: s.outstanding⟩ free := by
  have hchain := h.chain
  rw [hchain.head] at hchain
  obtain ⟨x, next, rest, hcons, hx, hlink, hrest⟩ := hchain.cons_inv
  cases hcons
  cases x with
  | object o => cases hlink
  | link next' =>
      cases hlink
      refine ⟨{ s.pool with freeList := next }, ?_, h.fits, h.poolSize, hrest, ?_, fun b => ?_,
        h.slotted⟩
      · rw [MemoryPool.allocate, h.chain.head]
        simp only [List.head?_cons, hx]
      · exact List.perm_middle.nodup_iff.mpr h.nodup
      · rw [List.perm_middle.mem_iff]
        exact h.blocks b

theorem Good.exact (h : s.Good L n free) : s.Exact n := by
  have hlength := h.length
  have hlist : ∀ a, a ∈ free ↔ s.IsBlock n a ∧ a ∉ s.outstanding := by
    intro a
    rw [← h.blocks, List.mem_append]
    constructor
    · intro ha
      exact ⟨.inl ha, fun hout => (h.outstanding_block hout).1 ha⟩
    · rintro ⟨ha | ha, hout⟩
      · exact ha
      · exact absurd ha hout
  refine ⟨?_, ?_, free, h.chain, (List.nodup_append.mp h.nodup).1, hlist⟩
  · cases free with
    | nil => exact iff_of_true h.allocate_nil (by simpa using hlength)
    | cons a free =>
        obtain ⟨pool, halloc, -⟩ := h.allocate_cons
        refine iff_of_false (fun hthrows => ?_) (fun hall => ?_)
        · cases halloc.symm.trans hthrows
        · rw [List.length_cons] at hlength
          omega
  · cases free with
    | nil => exact .inl h.allocate_nil
    | cons a free =>
        obtain ⟨pool, halloc, -⟩ := h.allocate_cons
        exact .inr ⟨a, pool, halloc, (hlist a).mp List.mem_cons_self⟩

/-- What fits an outstanding block can be written there, and disturbs no other block. -/
theorem Good.write (h : s.Good L n free) {a : Nat} (ha : a ∈ s.outstanding) {x : Cell O}
    (hsize : L.size x ≤ s.pool.blockSize) :
    s.pool.write L a x = .ok { s.pool with pool := s.pool.pool.store L.size a x } ∧
      Slotted L.size s.pool.blockSize n (s.pool.pool.store L.size a x) ∧
      Chain Cell.next (s.pool.pool.store L.size a x) s.pool.freeList free := by
  obtain ⟨hfree, i, hi, rfl⟩ := h.outstanding_block ha
  refine ⟨MemoryPool.write_block (by rwa [h.poolSize]) hsize, h.slotted.store hi hsize, ?_⟩
  refine h.chain.congr fun b hb => h.slotted.store_other hsize ?_
  rintro rfl
  exact hfree hb

/-- Whatever the client does with its blocks, the pool's blocks stay what they are. -/
theorem Good.step (h : s.Good L n free) {op : PoolOp O} (hop : op.Allowed L s) :
    ∃ t, op.step L s = .ok t ∧ ∃ free', t.Good L n free' := by
  cases op with
  | allocate =>
      cases free with
      | nil => exact ⟨s, by simp only [PoolOp.step, h.allocate_nil], [], h⟩
      | cons a free =>
          obtain ⟨pool, halloc, hgood⟩ := h.allocate_cons
          exact ⟨_, by simp only [PoolOp.step, halloc], free, hgood⟩
  | deallocate block =>
      have hout : block ∈ s.outstanding := hop
      obtain ⟨hwrite, hslotted, hchain⟩ := h.write (x := .link s.pool.freeList) hout h.fits
      have hperm : (block :: free ++ s.outstanding.erase block).Perm (free ++ s.outstanding) :=
        List.perm_middle.symm.trans ((List.perm_cons_erase hout).symm.append_left free)
      have hlist : Chain Cell.next (s.pool.pool.store L.size block (.link s.pool.freeList))
          (some block) (block :: free) := .cons (store_same _ _) rfl hchain
      have hdone : PoolOp.step L (.deallocate block) s = .ok
          ⟨{ s.pool with
              pool := s.pool.pool.store L.size block (.link s.pool.freeList)
              freeList := some block }, s.outstanding.erase block⟩ := by
        rw [PoolOp.step, MemoryPool.deallocate, hwrite]
        rfl
      refine ⟨_, hdone, block :: free, h.fits, h.poolSize, hlist, hperm.nodup_iff.mpr h.nodup,
        fun a => ?_, hslotted⟩
      rw [hperm.mem_iff]
      exact h.blocks a
  | write block cell =>
      obtain ⟨hout, hsize⟩ := hop
      obtain ⟨hwrite, hslotted, hchain⟩ := h.write hout hsize
      have hdone : PoolOp.step L (.write block cell) s = .ok
          { s with pool := { s.pool with pool := s.pool.pool.store L.size block cell } } := by
        rw [PoolOp.step, hwrite]
        rfl
      exact ⟨_, hdone, free, h.fits, h.poolSize, hchain, h.nodup, h.blocks, hslotted⟩

/-- A new pool with a block or more. -/
theorem new_good {blockSize poolSize : Nat} (fits : L.sizeofPtr ≤ blockSize)
    (hpos : 0 < poolSize) {pool : MemoryPool O}
    (hnew : MemoryPool.new L blockSize poolSize = .ok pool) :
    Good L poolSize ⟨pool, []⟩ ((List.range poolSize).map (· * blockSize)) := by
  obtain ⟨m, hnew', hslotted, -, hchain⟩ := MemoryPool.new_spec (O := O) fits poolSize
  obtain rfl := Except.ok.inj (hnew'.symm.trans hnew)
  have hnodup := MemoryPool.blocks_nodup (lt_of_lt_of_le L.ptrPos fits) poolSize
  refine ⟨fits, rfl, hchain hpos, by simpa using hnodup, fun a => ?_, hslotted⟩
  simp [IsBlock, eq_comm]

/-- A new pool without blocks: its head points to the end of the empty chunk. -/
theorem new_empty (L : Layout) (blockSize : Nat) : ∃ pool : MemoryPool O,
    MemoryPool.new L blockSize 0 = .ok pool ∧ pool.allocate = .error .undefined :=
  ⟨_, rfl, rfl⟩

end PoolUse

/-- **When the pool hands out exactly its blocks.** -/
theorem blocks_exact_iff {blockSize : Nat} (fits : L.sizeofPtr ≤ blockSize) (poolSize : Nat)
    (ops : List (PoolOp O)) : ∃ pool, MemoryPool.new L blockSize poolSize = .ok pool ∧
      (Steps (PoolOp.step L) ops ⟨pool, []⟩ (PoolOp.Allowed L) →
        (((∃ s, run (PoolOp.step L) ops ⟨pool, []⟩ = .ok s) ∧
          Always (PoolOp.step L) ops ⟨pool, []⟩ (PoolUse.Exact poolSize)) ↔ 0 < poolSize)) := by
  rcases Nat.eq_zero_or_pos poolSize with rfl | hpos
  · obtain ⟨pool, hnew, hundefined⟩ := PoolUse.new_empty (O := O) L blockSize
    refine ⟨pool, hnew, fun _ => iff_of_false ?_ (Nat.lt_irrefl 0)⟩
    rintro ⟨-, halways⟩
    have hthrows := (halways [] List.nil_prefix _ rfl).throws.mpr rfl
    rw [hundefined] at hthrows
    cases hthrows
  · obtain ⟨m, hnew, -⟩ := MemoryPool.new_spec (O := O) fits poolSize
    refine ⟨_, hnew, fun hallowed => iff_of_true ?_ hpos⟩
    have hgood := always_of_steps (I := fun s => ∃ free, PoolUse.Good L poolSize s free)
      (fun op s t hs hop hstep => by
        obtain ⟨free, hs⟩ := hs
        obtain ⟨t', hstep', hgood⟩ := hs.step hop
        obtain rfl := Except.ok.inj (hstep'.symm.trans hstep)
        exact hgood) ⟨_, PoolUse.new_good fits hpos hnew⟩ hallowed
    refine ⟨run_ok_iff_steps.mpr fun pre op hpre s hrun => ?_, hgood.mono ?_⟩
    · obtain ⟨free, hs⟩ := hgood pre ((List.prefix_append pre [op]).trans hpre) s hrun
      obtain ⟨t, hstep, -⟩ := hs.step (hallowed pre op hpre s hrun)
      exact ⟨t, hstep⟩
    · rintro s ⟨free, hs⟩
      exact hs.exact

/-- Two blocks of a pool of two, the first given back and handed out again. -/
theorem blocks_exact_two : ∃ pool : MemoryPool Unit, MemoryPool.new .lp64 8 2 = .ok pool ∧
    Always (PoolOp.step .lp64) [.allocate, .allocate, .deallocate 0, .allocate] ⟨pool, []⟩
      (PoolUse.Exact 2) := by
  obtain ⟨pool, hnew, hexact⟩ := blocks_exact_iff (show Layout.lp64.sizeofPtr ≤ 8 by decide) 2
    [.allocate, .allocate, .deallocate 0, (.allocate : PoolOp Unit)]
  refine ⟨pool, hnew, ((hexact ?_).mpr (by decide)).2⟩
  cases hnew
  refine steps_cons.mpr ⟨trivial, ?_⟩
  rintro _ ⟨⟩
  refine steps_cons.mpr ⟨trivial, ?_⟩
  rintro _ ⟨⟩
  refine steps_cons.mpr ⟨List.mem_cons_of_mem _ List.mem_cons_self, ?_⟩
  rintro _ ⟨⟩
  exact steps_cons.mpr ⟨trivial, fun _ _ => steps_nil⟩

/-- Without a block the first `allocate` reads the end of the empty chunk. -/
theorem empty_pool_not_exact : ∃ pool : MemoryPool Unit, MemoryPool.new .lp64 8 0 = .ok pool ∧
    pool.allocate = .error .undefined ∧ ¬ PoolUse.Exact 0 ⟨pool, []⟩ := by
  obtain ⟨pool, hnew, hundefined⟩ := PoolUse.new_empty (O := Unit) .lp64 8
  refine ⟨pool, hnew, hundefined, fun hexact => ?_⟩
  cases hundefined.symm.trans (hexact.throws.mpr rfl)

end HftProject.Phase4
