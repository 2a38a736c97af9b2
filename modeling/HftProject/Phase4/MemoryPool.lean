import HftProject.Lib.Chunk
import Mathlib.Data.List.Range

/-!
`MemoryPool` (`week_4/phase_4`): a chunk of `poolSize` blocks of `blockSize` bytes
whose free blocks are linked through their own first word. A block that is not
free holds an `Order` object instead of a link.

Addresses are offsets into the chunk. Reading a word that holds no link, touching
an object that is not there and writing past the chunk are undefined behaviour in
the source; the model reports them as `Fault.undefined` and goes no further.
-/

namespace HftProject.Phase4

open Memory

/-- Why a modelled function does not return. -/
inductive Fault where
  /-- `std::bad_alloc` was thrown. -/
  | badAlloc
  /-- The source's behaviour is undefined from here on. -/
  | undefined
  /-- A loop did not end within the steps the model allows it. -/
  | diverged
deriving DecidableEq, Repr

/-- The object sizes of a build, in bytes. An `Order` contains a `std::string`,
hence at least one pointer. -/
structure Layout where
  sizeofPtr : Nat
  sizeofOrder : Nat
  ptrPos : 0 < sizeofPtr
  ptrFits : sizeofPtr ≤ sizeofOrder

variable {O : Type}

/-- What a block holds: the free list's link word, or an object. -/
inductive Cell (O : Type) where
  | link (next : Option Nat)
  | object (o : O)
deriving DecidableEq, Repr

def Layout.size (L : Layout) : Cell O → Nat
  | .link _ => L.sizeofPtr
  | .object _ => L.sizeofOrder

/-- The link stored in a free block. -/
def Cell.next : Cell O → Option (Option Nat)
  | .link next => some next
  | .object _ => none

structure MemoryPool (O : Type) where
  blockSize : Nat
  poolSize : Nat
  pool : Chunk (Cell O)
  freeList : Option Nat

namespace MemoryPool

/-! ### The code -/

/-- Write `x` at offset `a` of the chunk. -/
def write (L : Layout) (p : MemoryPool O) (a : Nat) (x : Cell O) : Except Fault (MemoryPool O) :=
  if a + L.size x ≤ p.blockSize * p.poolSize then
    .ok { p with pool := p.pool.store L.size a x }
  else .error .undefined

/-- The first `count` iterations of the constructor's loop. -/
def carve (L : Layout) : Nat → MemoryPool O → Except Fault (MemoryPool O)
  | 0, p => .ok p
  | i + 1, p => do
      let p ← carve L i p
      p.write L (i * p.blockSize)
        (.link (if i + 1 < p.poolSize then some ((i + 1) * p.blockSize) else none))

/-- The constructor. The head of the free list is the start of the chunk, also when
the chunk has no block at all. -/
def new (L : Layout) (blockSize poolSize : Nat) : Except Fault (MemoryPool O) := do
  let p ← carve L poolSize ⟨blockSize, poolSize, fun _ => none, none⟩
  return { p with freeList := some 0 }

/-- Pop the head of the free list. -/
def allocate (p : MemoryPool O) : Except Fault (Nat × MemoryPool O) :=
  match p.freeList with
  | none => .error .badAlloc
  | some block =>
      match p.pool block with
      | some (.link next) => .ok (block, { p with freeList := next })
      | _ => .error .undefined

/-- Push a block onto the free list. -/
def deallocate (L : Layout) (p : MemoryPool O) : Option Nat → Except Fault (MemoryPool O)
  | none => .ok p
  | some slot => do
      let p' ← p.write L slot (.link p.freeList)
      return { p' with freeList := some slot }

/-- The object at an address, if there is one. -/
def object? (p : MemoryPool O) (a : Nat) : Option O :=
  match p.pool a with
  | some (.object o) => some o
  | _ => none

/-- Read through a pointer. -/
def deref (p : MemoryPool O) (a : Nat) : Except Fault O :=
  match p.object? a with
  | some o => .ok o
  | none => .error .undefined

/-- Placement new. -/
def construct (L : Layout) (p : MemoryPool O) (a : Nat) (o : O) : Except Fault (MemoryPool O) :=
  p.write L a (.object o)

/-- Run the destructor of the object at `a`. -/
def destruct (p : MemoryPool O) (a : Nat) : Except Fault (MemoryPool O) :=
  match p.object? a with
  | some _ => .ok { p with pool := p.pool.clear a }
  | none => .error .undefined

/-- Assign to members of the object at `a`. -/
def assign (p : MemoryPool O) (a : Nat) (f : O → O) : Except Fault (MemoryPool O) :=
  match p.object? a with
  | some _ => .ok { p with pool := p.pool.update a fun
      | .link next => .link next
      | .object o => .object (f o) }
  | none => .error .undefined

theorem deref_ok {p : MemoryPool O} {a : Nat} {o : O} (h : p.object? a = some o) :
    p.deref a = .ok o := by
  simp [deref, h]

theorem object?_eq_some {p : MemoryPool O} {a : Nat} {o : O} :
    p.object? a = some o ↔ p.pool a = some (.object o) := by
  unfold object?
  split
  · rename_i o' h
    simp [h]
  · rename_i h
    constructor
    · intro h'
      cases h'
    · intro h'
      exact absurd h' (h o)

/-! ### What a pool's chunk looks like

`p.Ok L free`: the blocks are large enough, every block is either one of `free` or
holds an object, and following the links from the head visits exactly `free`. -/

structure Ok (L : Layout) (p : MemoryPool O) (free : List Nat) : Prop where
  fits : L.sizeofOrder ≤ p.blockSize
  chain : Chain Cell.next p.pool p.freeList free
  nodup : free.Nodup
  slotted : Slotted L.size p.blockSize p.poolSize p.pool
  cover : ∀ i < p.poolSize, i * p.blockSize ∈ free ∨ ∃ o, p.object? (i * p.blockSize) = some o

variable {L : Layout} {p : MemoryPool O} {free : List Nat}

theorem size_le (fits : L.sizeofOrder ≤ p.blockSize) (x : Cell O) : L.size x ≤ p.blockSize := by
  cases x with
  | link next => exact le_trans L.ptrFits fits
  | object o => exact fits

theorem Ok.blockSize_pos (h : p.Ok L free) : 0 < p.blockSize :=
  lt_of_lt_of_le L.ptrPos (le_trans L.ptrFits h.fits)

/-- A free block holds no object. -/
theorem Ok.free_no_object (h : p.Ok L free) {a : Nat} (ha : a ∈ free) : p.object? a = none := by
  obtain ⟨x, next, hx, hnext⟩ := h.chain.node a ha
  cases x with
  | link n => simp [object?, hx]
  | object o => cases hnext

theorem Ok.object_not_free (h : p.Ok L free) {a : Nat} {o : O} (ho : p.object? a = some o) :
    a ∉ free := by
  intro ha
  rw [h.free_no_object ha] at ho
  cases ho

theorem Ok.object_block (h : p.Ok L free) {a : Nat} {o : O} (ho : p.object? a = some o) :
    ∃ i < p.poolSize, a = i * p.blockSize :=
  (h.slotted a _ (object?_eq_some.mp ho)).1

theorem Ok.free_block (h : p.Ok L free) {a : Nat} (ha : a ∈ free) :
    ∃ i < p.poolSize, a = i * p.blockSize := by
  obtain ⟨x, next, hx, -⟩ := h.chain.node a ha
  exact (h.slotted a x hx).1

/-- Writing what fits a block stays inside the chunk. -/
theorem write_block {i : Nat} (hi : i < p.poolSize) {x : Cell O} (hsize : L.size x ≤ p.blockSize) :
    p.write L (i * p.blockSize) x =
      .ok { p with pool := p.pool.store L.size (i * p.blockSize) x } := by
  have hblock : i * p.blockSize + p.blockSize ≤ p.blockSize * p.poolSize := by
    calc i * p.blockSize + p.blockSize = (i + 1) * p.blockSize := by ring
      _ ≤ p.poolSize * p.blockSize := Nat.mul_le_mul_right _ hi
      _ = p.blockSize * p.poolSize := Nat.mul_comm _ _
  unfold write
  rw [if_pos (by omega)]

/-- Different blocks have different offsets. -/
theorem blocks_nodup {blockSize : Nat} (hpos : 0 < blockSize) (count : Nat) :
    ((List.range count).map (· * blockSize)).Nodup := by
  refine List.Nodup.map ?_ List.nodup_range
  intro i j hij
  exact Nat.eq_of_mul_eq_mul_right hpos hij

/-- Free blocks and objects partition the blocks. -/
theorem Ok.count (h : p.Ok L free) {objects : List Nat} (nodup : objects.Nodup)
    (mem : ∀ a, a ∈ objects ↔ ∃ o, p.object? a = some o) :
    free.length + objects.length = p.poolSize := by
  have hdisj : (free ++ objects).Nodup := by
    refine List.nodup_append.mpr ⟨h.nodup, nodup, ?_⟩
    rintro a ha b hb rfl
    obtain ⟨o, ho⟩ := (mem a).mp hb
    exact h.object_not_free ho ha
  have hblocks := blocks_nodup h.blockSize_pos p.poolSize
  have hmem : ∀ a, a ∈ free ++ objects ↔ a ∈ (List.range p.poolSize).map (· * p.blockSize) := by
    intro a
    simp only [List.mem_append, List.mem_map, List.mem_range]
    constructor
    · rintro (ha | ha)
      · obtain ⟨i, hi, rfl⟩ := h.free_block ha
        exact ⟨i, hi, rfl⟩
      · obtain ⟨o, ho⟩ := (mem a).mp ha
        obtain ⟨i, hi, rfl⟩ := h.object_block ho
        exact ⟨i, hi, rfl⟩
    · rintro ⟨i, hi, rfl⟩
      rcases h.cover i hi with hfree | hobj
      · exact Or.inl hfree
      · exact Or.inr ((mem _).mpr hobj)
  have hperm := (List.perm_ext_iff_of_nodup hdisj hblocks).mpr hmem
  simpa using hperm.length_eq

/-! ### What the operations do to it -/

/-- An empty free list makes `allocate` throw. -/
theorem Ok.allocate_nil (h : p.Ok L []) : p.allocate = .error .badAlloc := by
  have hhead : p.freeList = none := by
    cases hf : p.freeList with
    | none => rfl
    | some a =>
        have hc := h.chain
        rw [hf] at hc
        obtain ⟨_, _, _, hnil, -⟩ := hc.cons_inv
        cases hnil
  simp [allocate, hhead]

/-- Nothing has changed but what lies at `a`. -/
theorem object?_other {p' : MemoryPool O} {a : Nat} {x : Option O} (hself : p'.object? a = x)
    (hother : ∀ c, c ≠ a → p'.pool c = p.pool c) (c : Nat) :
    p'.object? c = if c = a then x else p.object? c := by
  by_cases hc : c = a
  · rw [if_pos hc, hc, hself]
  · rw [if_neg hc, object?, object?, hother c hc]

theorem Ok.cover_other (h : p.Ok L free) {p' : MemoryPool O} {free' : List Nat} {a : Nat}
    (hother : ∀ c, c ≠ a → p'.pool c = p.pool c) (hfree : ∀ c ∈ free, c ≠ a → c ∈ free')
    (hself : a ∈ free' ∨ ∃ o, p'.object? a = some o) : ∀ i < p.poolSize,
      i * p.blockSize ∈ free' ∨ ∃ o, p'.object? (i * p.blockSize) = some o := by
  intro i hi
  by_cases hia : i * p.blockSize = a
  · rwa [hia]
  · rcases h.cover i hi with hmem | ⟨o, ho⟩
    · exact .inl (hfree _ hmem hia)
    · refine .inr ⟨o, object?_eq_some.mpr ?_⟩
      rw [hother _ hia]
      exact object?_eq_some.mp ho

/-- `allocate` and the construction of an object in the block it returns: the block
leaves the free list and holds the object, all else is as before. -/
theorem Ok.allocate_construct {a : Nat} (h : p.Ok L (a :: free)) (o : O) :
    ∃ p₁ p₂, p.allocate = .ok (a, p₁) ∧ p₁.construct L a o = .ok p₂ ∧ p₂.Ok L free ∧
      (∀ b, p₂.object? b = if b = a then some o else p.object? b) ∧
      p₂.blockSize = p.blockSize ∧ p₂.poolSize = p.poolSize := by
  obtain ⟨i, hi, rfl⟩ := h.free_block List.mem_cons_self
  have hc := h.chain
  cases hf : p.freeList with
  | none =>
      rw [hf] at hc
      cases hc.nil_inv
  | some b =>
      rw [hf] at hc
      obtain ⟨x, next, rest, heq, hx, hlink, hrest⟩ := hc.cons_inv
      cases heq
      cases x with
      | object o' => cases hlink
      | link next' =>
          cases hlink
          obtain ⟨hnot, hnodup⟩ := List.nodup_cons.mp h.nodup
          have hother : ∀ c, c ≠ i * p.blockSize →
              p.pool.store L.size (i * p.blockSize) (.object o) c = p.pool c := fun c hc =>
            h.slotted.store_other (size_le h.fits _) hc
          let p₂ : MemoryPool O :=
            { p with freeList := next, pool := p.pool.store L.size (i * p.blockSize) (.object o) }
          have hself : p₂.object? (i * p.blockSize) = some o :=
            object?_eq_some.mpr (store_same _ _)
          refine ⟨{ p with freeList := next }, p₂, by simp [allocate, hf, hx], ?_, ?_,
            object?_other hself hother, rfl, rfl⟩
          · exact write_block (p := { p with freeList := next }) hi (size_le h.fits _)
          · refine ⟨h.fits, ?_, hnodup, h.slotted.store hi (size_le h.fits _), ?_⟩
            · exact hrest.congr fun c hc' => hother c fun hce => hnot (hce ▸ hc')
            · exact h.cover_other hother
                (fun c hc' hne => (List.mem_cons.mp hc').resolve_left hne) (.inr ⟨o, hself⟩)

/-- Destroying an object and giving its block back puts the block at the head of
the free list. -/
theorem Ok.destruct_deallocate (h : p.Ok L free) {a : Nat} {o : O} (ho : p.object? a = some o) :
    ∃ p₁ p₂, p.destruct a = .ok p₁ ∧ p₁.deallocate L (some a) = .ok p₂ ∧ p₂.Ok L (a :: free) ∧
      (∀ b, p₂.object? b = if b = a then none else p.object? b) ∧
      p₂.blockSize = p.blockSize ∧ p₂.poolSize = p.poolSize := by
  obtain ⟨i, hi, rfl⟩ := h.object_block ho
  have hnot := h.object_not_free ho
  have hslotted := h.slotted.clear (i * p.blockSize)
  have hother : ∀ c, c ≠ i * p.blockSize →
      (p.pool.clear (i * p.blockSize)).store L.size (i * p.blockSize) (.link p.freeList) c =
        p.pool c := by
    intro c hc
    rw [hslotted.store_other (size_le h.fits _) hc, clear_other hc]
  let p₂ : MemoryPool O :=
    { p with
      pool := (p.pool.clear (i * p.blockSize)).store L.size (i * p.blockSize) (.link p.freeList)
      freeList := some (i * p.blockSize) }
  have hself : p₂.object? (i * p.blockSize) = none := by simp [object?, p₂]
  refine ⟨{ p with pool := p.pool.clear (i * p.blockSize) }, p₂, by simp [destruct, ho], ?_, ?_,
    object?_other hself hother, rfl, rfl⟩
  · have hw := write_block (L := L) (p := { p with pool := p.pool.clear (i * p.blockSize) })
      (x := .link p.freeList) hi (size_le h.fits _)
    simp only [deallocate]
    rw [hw]
    rfl
  · refine ⟨h.fits, ?_, List.nodup_cons.mpr ⟨hnot, h.nodup⟩,
      hslotted.store hi (size_le h.fits _), ?_⟩
    · refine .cons (store_same _ _) rfl ?_
      exact h.chain.congr fun c hc => hother c fun hce => hnot (hce ▸ hc)
    · exact h.cover_other hother (fun c hc _ => List.mem_cons_of_mem _ hc)
        (.inl List.mem_cons_self)

/-- Assigning to an object's members changes that object only. -/
theorem Ok.assign (h : p.Ok L free) {a : Nat} {o : O} (ho : p.object? a = some o) (f : O → O) :
    ∃ p', p.assign a f = .ok p' ∧ p'.Ok L free ∧
      (∀ b, p'.object? b = if b = a then some (f o) else p.object? b) ∧
      p'.blockSize = p.blockSize ∧ p'.poolSize = p.poolSize := by
  have hcell := object?_eq_some.mp ho
  have hnot := h.object_not_free ho
  let g : Cell O → Cell O := fun
    | .link next => .link next
    | .object o => .object (f o)
  have hsame : ∀ y, L.size (g y) = L.size y := fun y => by cases y <;> rfl
  let p' : MemoryPool O := { p with pool := p.pool.update a g }
  have hself : p'.object? a = some (f o) := by simp [object?, p', hcell, g]
  have hother : ∀ c, c ≠ a → p'.pool c = p.pool c := fun c hc => update_other hc g
  refine ⟨p', by simp [MemoryPool.assign, ho, g, p'], ?_, object?_other hself hother, rfl, rfl⟩
  refine ⟨h.fits, ?_, h.nodup, h.slotted.update a hsame, ?_⟩
  · exact h.chain.congr fun c hc => hother c fun hce => hnot (by rwa [← hce])
  · exact h.cover_other hother (fun c hc _ => hc) (.inr ⟨f o, hself⟩)

/-! ### A new pool -/

/-- The link word the constructor writes into block `i`. -/
def firstLink (blockSize poolSize i : Nat) : Option Nat :=
  if i + 1 < poolSize then some ((i + 1) * blockSize) else none

/-- After `k` iterations the first `k` blocks are linked and nothing else is written. -/
theorem carve_spec {blockSize poolSize : Nat} (fits : L.sizeofPtr ≤ blockSize) {k : Nat}
    (hk : k ≤ poolSize) :
    ∃ m, carve L k (⟨blockSize, poolSize, fun _ => none, none⟩ : MemoryPool O) =
        .ok ⟨blockSize, poolSize, m, none⟩ ∧
      Slotted L.size blockSize poolSize m ∧
      (∀ i < k, m (i * blockSize) = some (.link (firstLink blockSize poolSize i))) ∧
      ∀ b y, m b = some y → ∃ next, y = .link next := by
  induction k with
  | zero => exact ⟨fun _ => none, rfl, by simp [Slotted], by simp, by simp⟩
  | succ k ih =>
      obtain ⟨m, hrun, hslot, hlinks, honly⟩ := ih (by omega)
      have hsize : L.size (Cell.link (firstLink blockSize poolSize k) : Cell O) ≤ blockSize := fits
      have hother : ∀ b, b ≠ k * blockSize →
          m.store L.size (k * blockSize) (.link (firstLink blockSize poolSize k)) b = m b :=
        fun b hb => hslot.store_other hsize hb
      refine ⟨m.store L.size (k * blockSize) (.link (firstLink blockSize poolSize k)), ?_,
        hslot.store (by omega) hsize, ?_, ?_⟩
      · have hw := write_block (p := (⟨blockSize, poolSize, m, none⟩ : MemoryPool O))
          (show k < poolSize by omega) hsize
        simp only [carve, hrun]
        exact hw
      · intro i hi
        by_cases hik : i * blockSize = k * blockSize
        · have : i = k := Nat.eq_of_mul_eq_mul_right (lt_of_lt_of_le L.ptrPos fits) hik
          rw [this, store_same]
        · rw [hother _ hik]
          refine hlinks i (lt_of_le_of_ne (Nat.le_of_lt_succ hi) fun hie => ?_)
          exact hik (by rw [hie])
      · intro b y hy
        by_cases hb : b = k * blockSize
        · rw [hb, store_same] at hy
          cases hy
          exact ⟨_, rfl⟩
        · rw [hother b hb] at hy
          exact honly b y hy

/-- The links of a fresh pool run through the last `k` blocks in order. -/
theorem carve_chain {blockSize poolSize : Nat} {m : Chunk (Cell O)}
    (hlinks : ∀ i < poolSize, m (i * blockSize) = some (.link (firstLink blockSize poolSize i)))
    {k : Nat} (hk : k ≤ poolSize) :
    Chain Cell.next m (if poolSize - k < poolSize then some ((poolSize - k) * blockSize) else none)
      ((List.range' (poolSize - k) k).map (· * blockSize)) := by
  induction k with
  | zero => simpa using Chain.nil
  | succ k ih =>
      have hstart : poolSize - (k + 1) + 1 = poolSize - k := by omega
      rw [if_pos (by omega), List.range'_succ, List.map_cons, hstart]
      refine .cons (hlinks _ (by omega)) ?_ (ih (by omega))
      simp only [Cell.next, firstLink, hstart]

/-- A new pool: only links are written, and if there is a block, the list runs through all
blocks in order. -/
theorem new_spec {blockSize : Nat} (fits : L.sizeofPtr ≤ blockSize) (poolSize : Nat) :
    ∃ m : Chunk (Cell O), new L blockSize poolSize = .ok ⟨blockSize, poolSize, m, some 0⟩ ∧
      Slotted L.size blockSize poolSize m ∧ (∀ b y, m b = some y → ∃ next, y = .link next) ∧
      (0 < poolSize → Chain Cell.next m (some 0) ((List.range poolSize).map (· * blockSize))) := by
  obtain ⟨m, hrun, hslot, hlinks, honly⟩ := carve_spec (O := O) fits (le_refl poolSize)
  refine ⟨m, by simp only [new, hrun]; rfl, hslot, honly, fun hpos => ?_⟩
  have hc := carve_chain hlinks (le_refl poolSize)
  rw [Nat.sub_self, if_pos hpos, Nat.zero_mul] at hc
  simpa [List.range_eq_range'] using hc

/-- A new pool with at least one block: all blocks are free, in order. -/
theorem new_ok {blockSize poolSize : Nat} (fits : L.sizeofOrder ≤ blockSize)
    (hpos : 0 < poolSize) :
    ∃ p : MemoryPool O, new L blockSize poolSize = .ok p ∧
      p.Ok L ((List.range poolSize).map (· * blockSize)) ∧ (∀ a, p.object? a = none) ∧
      p.blockSize = blockSize ∧ p.poolSize = poolSize := by
  have hptr : L.sizeofPtr ≤ blockSize := le_trans L.ptrFits fits
  obtain ⟨m, hnew, hslot, honly, hchain⟩ := new_spec (O := O) hptr poolSize
  have hnodup := blocks_nodup (lt_of_lt_of_le L.ptrPos hptr) poolSize
  refine ⟨_, hnew, ⟨fits, hchain hpos, hnodup, hslot, ?_⟩, ?_,
    rfl, rfl⟩
  · intro i hi
    exact Or.inl (List.mem_map.mpr ⟨i, List.mem_range.mpr hi, rfl⟩)
  · intro a
    cases ha : m a with
    | none => simp [object?, ha]
    | some y =>
        obtain ⟨next, rfl⟩ := honly a y ha
        simp [object?, ha]

end MemoryPool

end HftProject.Phase4
