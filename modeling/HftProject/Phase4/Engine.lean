import HftProject.Phase4.Execution

/-!
Runs of the engine. `Engine.Sound` is what holds between any two calls the engine
makes; it is kept by an accepted order, a refused one, a run of the matching loop and
a tracked order, so `processMarketData` is total and keeps it.

The engine never deletes an order: every order that was ever accepted stays in
`ordersById`, so the pool is exhausted exactly once `poolSize` orders were accepted.
-/

namespace HftProject.Phase4

open Clearing

variable {P : Type} [LinearOrder P] {L : Layout}

/-! ### The history -/

namespace Call

/-- The number of calls of `addOrder`. -/
def offers (h : List (Call P)) : Nat :=
  h.countP fun
    | .addOrder _ _ _ => true
    | _ => false

/-- The units a call adds to a side. -/
def unitsAdded (b : Bool) : Call P → Int
  | .addOrder _ o (.ok _) => if o.isBuy = b then o.quantity else 0
  | _ => 0

/-- The units ever added to a side. -/
def added (b : Bool) (h : List (Call P)) : Int := (h.map (unitsAdded b)).sum

/-- `p` holds of every call of `addOrder`, given the calls made before it. -/
def EachAdd (p : System P Int → Order P Int → Except (AddError Int) OrderPtr → List (Call P) →
    Prop) : List (Call P) → Prop
  | [] => True
  | .addOrder before o result :: earlier => p before o result earlier ∧ EachAdd p earlier
  | .matchOrders _ :: earlier => EachAdd p earlier
  | .track _ _ :: earlier => EachAdd p earlier

omit [LinearOrder P] in
theorem EachAdd.congr {facts p q : System P Int → Order P Int →
    Except (AddError Int) OrderPtr → List (Call P) → Prop}
    (iff : ∀ before o result earlier, facts before o result earlier →
      (p before o result earlier ↔ q before o result earlier))
    {h : List (Call P)} (each : EachAdd facts h) : EachAdd p h ↔ EachAdd q h := by
  induction h with
  | nil => exact Iff.rfl
  | cons c h ih =>
      cases c with
      | addOrder before o result => exact and_congr (iff _ _ _ _ each.1) (ih each.2)
      | matchOrders before => exact ih each
      | track q b => exact ih each

end Call

namespace System

variable {s t f : System P Int}

omit [LinearOrder P] in
theorem total_lots (s : System P Int) (b : Bool) :
    total (s.lots b) = ((s.book.side b).map fun e => s.quantity e.2).sum := by
  simp [total, lots, lot, Function.comp_def]

/-- The pointers in `ordersById`. -/
def indexed (s : System P Int) : List OrderPtr := s.book.ordersById.toList.map (·.2)

omit [LinearOrder P] in
theorem mem_indexed {q : OrderPtr} :
    q ∈ s.indexed ↔ ∃ id : Int, s.book.ordersById[id]? = some q := by
  simp [indexed, Std.ExtTreeMap.mem_toList_iff_getElem?_eq_some]

omit [LinearOrder P] in
theorem indexed_length (s : System P Int) : s.indexed.length = s.book.ordersById.size := by
  simp [indexed]

theorem Ok.indexed_nodup (h : s.Ok L) : s.indexed.Nodup := by
  refine List.Nodup.map_on ?_ (List.Nodup.of_map Prod.fst ?_)
  · rintro ⟨id, q⟩ hq ⟨id', q'⟩ hq' rfl
    rw [Std.ExtTreeMap.mem_toList_iff_getElem?_eq_some] at hq hq'
    obtain ⟨o, ho, hid⟩ := h.indexed id q hq
    obtain ⟨o', ho', hid'⟩ := h.indexed id' q hq'
    rw [ho] at ho'
    cases ho'
    rw [← hid, ← hid']
  · rw [Std.ExtTreeMap.map_fst_toList_eq_keys]
    exact Std.ExtTreeMap.nodup_keys

omit [LinearOrder P] in
/-- A pointer that `ordersById` still has is let go without any effect on the order. -/
theorem reset_indexed {id : Int} {q : OrderPtr} {rest : List OrderPtr}
    (hid : s.book.ordersById[id]? = some q) (hhandles : s.handles = q :: rest) :
    s.reset L (some q) = .ok { s with handles := rest } := by
  simp only [System.reset, hhandles, List.erase_cons_head, System.release]
  exact if_pos (mem_refs_of_indexed (s := { s with handles := rest }) _ hid)

theorem Ok.drop_indexed (h : s.Ok L) (id : Int) {q : OrderPtr}
    (hid : s.book.ordersById[id]? = some q) (hhandles : s.handles = [q]) :
    Ok L { s with handles := [] } := by
  have hrefs : ∀ r, r ∈ s.refs ↔ r = q ∨ r ∈ ({ s with handles := [] } : System P Int).refs := by
    intro r
    rw [← mem_cons_handle_refs, ← hhandles]
  refine h.shrink rfl rfl (fun r => ?_) (List.Sublist.refl _) (List.Sublist.refl _)
    (fun _ _ hi => hi) h.tracked (fun _ _ _ hi => hi)
  rw [hrefs]
  constructor
  · exact Or.inr
  · rintro (rfl | hr)
    · exact mem_refs_of_indexed id hid
    · exact hr

/-! ### What an accepted order does to the queues -/

/-- `f` is `s` with the order `o` accepted at `q` and no pointer held. -/
structure Accepted (L : Layout) (s f : System P Int) (q : OrderPtr) (o : Order P Int) : Prop where
  ok : f.Ok L
  new : o.id ∉ s.book.ordersById
  fresh : ∀ r ∈ s.refs, r.ptr ≠ q.ptr
  ctrl : q.ctrl = s.nextCtrl
  book : ∃ pool, f.book = (s.added pool q o).book
  handles : f.handles = []
  manager : ∀ (id : Int) r, f.manager.orders[id]? = some r →
    r = q ∨ s.manager.orders[id]? = some r
  order : ∀ r, f.order? r = if r.ptr = q.ptr then some o else s.order? r
  poolSize : f.book.allocator.poolSize = s.book.allocator.poolSize

variable {q : OrderPtr} {o : Order P Int}

theorem Accepted.ordersById (h : Accepted L s f q o) (id : Int) :
    f.book.ordersById[id]? = if o.id = id then some q else s.book.ordersById[id]? := by
  obtain ⟨pool, hbook⟩ := h.book
  rw [hbook]
  exact added_ordersById h.new id

theorem Accepted.indexed_self (h : Accepted L s f q o) : f.book.ordersById[o.id]? = some q := by
  rw [h.ordersById, if_pos rfl]

theorem Accepted.indexed_old (h : Accepted L s f q o) {id : Int} {r : OrderPtr}
    (hr : s.book.ordersById[id]? = some r) : f.book.ordersById[id]? = some r := by
  rw [h.ordersById, if_neg (ne_of_not_mem h.new hr), hr]

theorem Accepted.indexed_cases (h : Accepted L s f q o) {id : Int} {r : OrderPtr}
    (hr : f.book.ordersById[id]? = some r) :
    (id = o.id ∧ r = q) ∨ s.book.ordersById[id]? = some r := by
  rw [h.ordersById] at hr
  split at hr
  · rename_i heq
    exact Or.inl ⟨heq.symm, (Option.some.inj hr).symm⟩
  · exact Or.inr hr

theorem Accepted.mem_side (h : Accepted L s f q o) {b : Bool} {e : P × OrderPtr} :
    e ∈ f.book.side b ↔ (b = o.isBuy ∧ e = (o.price, q)) ∨ e ∈ s.book.side b := by
  obtain ⟨pool, hbook⟩ := h.book
  rw [hbook]
  exact mem_added_side

theorem Accepted.mem_resting (h : Accepted L s f q o) {r : OrderPtr} :
    r ∈ f.resting ↔ r = q ∨ r ∈ s.resting := by
  obtain ⟨pool, hbook⟩ := h.book
  have hperm := added_resting_perm s pool q o
  rw [← List.mem_cons, ← hperm.mem_iff]
  simp only [resting, hbook]

theorem Accepted.quantity_self (h : Accepted L s f q o) : f.quantity q = o.quantity :=
  quantity_of_order (by rw [h.order, if_pos rfl])

theorem Accepted.quantity_other (h : Accepted L s f q o) {r : OrderPtr} (hr : r ∈ s.refs) :
    f.quantity r = s.quantity r := by
  simp only [quantity, h.order, if_neg (h.fresh r hr)]

/-- The order's quantity is added to its side. -/
theorem Accepted.total_lots (h : Accepted L s f q o) (b : Bool) :
    total (f.lots b) = total (s.lots b) + if o.isBuy = b then o.quantity else 0 := by
  obtain ⟨pool, hbook⟩ := h.book
  have hsame : (s.book.side b).map (fun e => f.quantity e.2) =
      (s.book.side b).map fun e => s.quantity e.2 :=
    List.map_congr_left fun e he =>
      h.quantity_other (mem_refs_of_resting (System.mem_resting.mpr ⟨b, e.1, he⟩))
  rw [System.total_lots, System.total_lots, hbook, ← hsame]
  by_cases hb : o.isBuy = b
  · have hperm : ((s.added pool q o).book.side b).Perm ((o.price, q) :: s.book.side b) := by
      subst hb
      cases hbuy : o.isBuy with
      | true => simpa [System.added, hbuy] using Multimap.emplace_perm _ o.price q s.book.bids
      | false => simpa [System.added, hbuy] using Multimap.emplace_perm _ o.price q s.book.asks
    have hsum := (hperm.map fun e => f.quantity e.2).sum_eq
    rw [hsum, List.map_cons, List.sum_cons, h.quantity_self, if_pos hb]
    omega
  · have hside : (s.added pool q o).book.side b = s.book.side b := by
      cases b <;> cases hbuy : o.isBuy <;> simp_all [System.added]
    rw [hside, if_neg hb]
    omega

end System

/-! ### The invariant of the engine -/

/-- What an `addOrder` call of the engine finds: the pool is exhausted once as many
orders were offered as it has blocks. -/
structure Offer (L : Layout) (n : Nat) (before : System P Int)
    (result : Except (AddError Int) OrderPtr) (earlier : List (Call P)) : Prop where
  ok : before.Ok L
  kept : ∀ q ∈ before.refs, ∃ id : Int, before.book.ordersById[id]? = some q
  recorded : ∀ q ∈ before.indexed, ∃ b o, .addOrder b o (.ok q) ∈ earlier
  accepted : ∀ b o q, .addOrder b o (.ok q) ∈ earlier → q ∈ before.indexed
  size : before.book.ordersById.size = min (Call.offers earlier) n
  refused : result = .error .poolExhausted ↔ n ≤ Call.offers earlier

/-- What holds between two calls of an engine whose pool has `n` blocks and whose ids
are so far below `B`. -/
structure Sound (L : Layout) (n : Nat) (B : Int) (s : System P Int)
    (h : List (Call P)) : Prop where
  ok : s.Ok L
  poolSize : s.book.allocator.poolSize = n
  handles : s.handles = []
  stocked : s.Stocked
  below : ∀ (id : Int) q, s.book.ordersById[id]? = some q → id < B
  kept : ∀ q ∈ s.refs, ∃ id : Int, s.book.ordersById[id]? = some q
  aged : ∀ (id id' : Int) q q', s.book.ordersById[id]? = some q →
    s.book.ordersById[id']? = some q' → q.ctrl < q'.ctrl → id < id'
  recorded : ∀ (id : Int) q, s.book.ordersById[id]? = some q → ∃ before o,
    .addOrder before o (.ok q) ∈ h ∧ 0 ≤ s.quantity q ∧ s.quantity q ≤ o.quantity
  accepted : ∀ before o q, .addOrder before o (.ok q) ∈ h → s.book.ordersById[o.id]? = some q
  balance : Call.added true h - total (s.lots true) = Call.added false h - total (s.lots false)
  size : s.book.ordersById.size = min (Call.offers h) n
  offers : Call.EachAdd (fun before _ result earlier => Offer L n before result earlier) h

namespace Sound

variable {n : Nat} {B : Int} {s f t : System P Int} {h : List (Call P)} {q : OrderPtr}
  {o : Order P Int}

/-- Every reference is in the index, so the index counts the live orders. -/
theorem free_length (hs : Sound L n B s h) {free : List Nat}
    (hpool : s.book.allocator.Ok L free) : free.length + s.book.ordersById.size = n := by
  have hptrs : (s.indexed.map (·.ptr)).Nodup := by
    refine List.Nodup.map_on (fun q hq r hr hptr => ?_) hs.ok.indexed_nodup
    obtain ⟨id, hid⟩ := System.mem_indexed.mp hq
    obtain ⟨id', hid'⟩ := System.mem_indexed.mp hr
    exact hs.ok.inj q (System.mem_refs_of_indexed _ hid) r (System.mem_refs_of_indexed _ hid') hptr
  have hcount := hpool.count hptrs fun a => by
    rw [List.mem_map]
    constructor
    · rintro ⟨q, hq, rfl⟩
      obtain ⟨id, hid⟩ := System.mem_indexed.mp hq
      exact hs.ok.live q (System.mem_refs_of_indexed _ hid)
    · rintro ⟨o, ho⟩
      obtain ⟨q, hq, hqa⟩ := hs.ok.owned a o ho
      exact ⟨q, System.mem_indexed.mpr (hs.kept q hq), hqa⟩
  rwa [List.length_map, System.indexed_length, hs.poolSize] at hcount

theorem offer_of (hs : Sound L n B s h) {result : Except (AddError Int) OrderPtr}
    (refused : result = .error .poolExhausted ↔ n ≤ Call.offers h) : Offer L n s result h where
  ok := hs.ok
  kept := hs.kept
  recorded := fun q hq => by
    obtain ⟨id, hid⟩ := System.mem_indexed.mp hq
    obtain ⟨before, o, hmem, -⟩ := hs.recorded id q hid
    exact ⟨before, o, hmem⟩
  accepted := fun before o q hmem => System.mem_indexed.mpr ⟨o.id, hs.accepted before o q hmem⟩
  size := hs.size
  refused := refused

/-- A refused order leaves a trace in the history only. -/
theorem refuse (hs : Sound L n B s h) (hfree : s.book.allocator.Ok L [])
    (o : Order P Int) :
    Sound L n B s (.addOrder s o (.error .poolExhausted) :: h) := by
  have hfull := hs.free_length hfree
  have hsize := hs.size
  simp only [List.length_nil] at hfull
  exact
    { hs with
      recorded := fun id q hq => by
        obtain ⟨before, o', hmem, hbounds⟩ := hs.recorded id q hq
        exact ⟨before, o', List.mem_cons_of_mem _ hmem, hbounds⟩
      accepted := fun before o' q hmem => by
        rcases List.mem_cons.mp hmem with heq | hmem
        · cases heq
        · exact hs.accepted before o' q hmem
      balance := by simpa [Call.added, Call.unitsAdded] using hs.balance
      size := by
        have : Call.offers (.addOrder s o (.error .poolExhausted) :: h) = Call.offers h + 1 := by
          simp [Call.offers]
        omega
      offers := ⟨hs.offer_of (by simp; omega), hs.offers⟩ }

/-- An accepted order. -/
theorem accept (hs : Sound L n B s h) (ha : System.Accepted L s f q o)
    (hfree : ∃ a rest, s.book.allocator.Ok L (a :: rest)) (hid : B ≤ o.id)
    (hpos : 0 < o.quantity) : Sound L n (o.id + 1) f (.addOrder s o (.ok q) :: h) := by
  obtain ⟨a, rest, hpool⟩ := hfree
  have hfull := hs.free_length hpool
  have hsize := hs.size
  simp only [List.length_cons] at hfull
  have hoffers : Call.offers (.addOrder s o (.ok q) :: h) = Call.offers h + 1 := by
    simp [Call.offers]
  exact
    { ok := ha.ok
      poolSize := ha.poolSize.trans hs.poolSize
      handles := ha.handles
      stocked := fun r hr => by
        rcases ha.mem_resting.mp hr with rfl | hr
        · rw [ha.quantity_self]
          exact hpos
        · rw [ha.quantity_other (System.mem_refs_of_resting hr)]
          exact hs.stocked r hr
      below := fun id r hr => by
        rcases ha.indexed_cases hr with ⟨rfl, -⟩ | hr
        · omega
        · have := hs.below id r hr
          omega
      kept := fun r hr => by
        rcases System.mem_refs.mp hr with hr | hr | ⟨id, hr⟩ | hr
        · exact hr
        · rcases ha.mem_resting.mp hr with rfl | hr
          · exact ⟨o.id, ha.indexed_self⟩
          · obtain ⟨id, hid'⟩ := hs.kept r (System.mem_refs_of_resting hr)
            exact ⟨id, ha.indexed_old hid'⟩
        · rcases ha.manager id r hr with rfl | hr
          · exact ⟨o.id, ha.indexed_self⟩
          · obtain ⟨id', hid'⟩ := hs.kept r (System.mem_refs_of_tracked _ hr)
            exact ⟨id', ha.indexed_old hid'⟩
        · rw [ha.handles] at hr
          cases hr
      aged := fun id id' r r' hr hr' hlt => by
        rcases ha.indexed_cases hr with ⟨rfl, rfl⟩ | hr
        · rcases ha.indexed_cases hr' with ⟨rfl, rfl⟩ | hr'
          · exact absurd hlt (lt_irrefl _)
          · have := hs.ok.old r' (System.mem_refs_of_indexed _ hr')
            rw [ha.ctrl] at hlt
            omega
        · rcases ha.indexed_cases hr' with ⟨rfl, rfl⟩ | hr'
          · have := hs.below id r hr
            omega
          · exact hs.aged id id' r r' hr hr' hlt
      recorded := fun id r hr => by
        rcases ha.indexed_cases hr with ⟨rfl, rfl⟩ | hr
        · exact ⟨s, o, List.mem_cons_self, by rw [ha.quantity_self]; omega,
            le_of_eq ha.quantity_self⟩
        · obtain ⟨before, o', hmem, hbounds⟩ := hs.recorded id r hr
          refine ⟨before, o', List.mem_cons_of_mem _ hmem, ?_⟩
          rw [ha.quantity_other (System.mem_refs_of_indexed _ hr)]
          exact hbounds
      accepted := fun before o' r hmem => by
        rcases List.mem_cons.mp hmem with heq | hmem
        · cases heq
          exact ha.indexed_self
        · exact ha.indexed_old (hs.accepted before o' r hmem)
      balance := by
        have hbalance := hs.balance
        have hadded : ∀ b, Call.added b (.addOrder s o (.ok q) :: h) =
            (if o.isBuy = b then o.quantity else 0) + Call.added b h := fun b => by
          simp [Call.added, Call.unitsAdded]
        rw [hadded, hadded, ha.total_lots, ha.total_lots]
        omega
      size := by
        obtain ⟨pool, hbook⟩ := ha.book
        have hnew : f.book.ordersById.size = s.book.ordersById.size + 1 := by
          rw [hbook]
          simp [System.added, Std.ExtTreeMap.size_insertIfNew, ha.new]
        omega
      offers := ⟨hs.offer_of (by simp; omega), hs.offers⟩ }

/-- A run of the matching loop. -/
theorem run (hs : Sound L n B s h) (hrun : System.MatchRun L s t) :
    Sound L n B t (.matchOrders s :: h) := by
  have hindex : ∀ id : Int, t.book.ordersById[id]? = s.book.ordersById[id]? := fun id => by
    rw [hrun.rest.ordersById]
  obtain ⟨v, hclears⟩ := hrun.clears hs.stocked
  have hbids := System.stocked_iff.mp hs.stocked true
  have hasks := System.stocked_iff.mp hs.stocked false
  have hv := hclears.volume_nonneg hbids hasks
  exact
    { ok := hrun.target
      poolSize := hrun.rest.poolSize.trans hs.poolSize
      handles := hrun.rest.handles.trans hs.handles
      stocked := hrun.stocked hs.stocked
      below := fun id q hq => hs.below id q (by rw [← hindex, hq])
      kept := fun q hq => by
        obtain ⟨id, hid⟩ : ∃ id : Int, s.book.ordersById[id]? = some q := by
          rcases System.mem_refs.mp hq with ⟨id, hq⟩ | hq | ⟨id, hq⟩ | hq
          · exact ⟨id, by rw [← hindex, hq]⟩
          · exact hs.kept q (System.mem_refs_of_resting (hrun.resting hq))
          · rw [hrun.rest.manager] at hq
            exact hs.kept q (System.mem_refs_of_tracked _ hq)
          · rw [hrun.rest.handles, hs.handles] at hq
            cases hq
        exact ⟨id, by rw [hindex, hid]⟩
      aged := fun id id' q q' hq hq' =>
        hs.aged id id' q q' (by rw [← hindex, hq]) (by rw [← hindex, hq'])
      recorded := fun id q hq => by
        obtain ⟨o', ho', -⟩ := hrun.target.indexed id q hq
        rw [hindex] at hq
        obtain ⟨before, o, hmem, hnn, hle⟩ := hs.recorded id q hq
        obtain ⟨hnn', hle'⟩ := hrun.quantity_bounds hs.stocked ho' hnn
        exact ⟨before, o, List.mem_cons_of_mem _ hmem, hnn', le_trans hle' hle⟩
      accepted := fun before o q hmem => by
        rcases List.mem_cons.mp hmem with heq | hmem
        · cases heq
        · rw [hindex]
          exact hs.accepted before o q hmem
      balance := by
        have hbalance := hs.balance
        obtain ⟨hb, hbv⟩ := hclears.bids_eq hbids hasks
        obtain ⟨ha, hav⟩ := hclears.asks_eq hbids hasks
        have hadded : ∀ b, Call.added b (.matchOrders s :: h) = Call.added b h := fun b => by
          simp [Call.added, Call.unitsAdded]
        rw [hadded, hadded, hb, ha, total_consume hv hbids, total_consume hv hasks]
        omega
      size := by
        have hsize := hs.size
        have : Call.offers (.matchOrders s :: h) = Call.offers h := by simp [Call.offers]
        rw [this, hrun.rest.ordersById, hsize]
      offers := hs.offers }

/-- The call that tracks an order. -/
theorem noted (hs : Sound L n B s h) (q : OrderPtr) (b : Bool) :
    Sound L n B s (.track q b :: h) :=
  { hs with
    recorded := fun id q' hq => by
      obtain ⟨before, o, hmem, hbounds⟩ := hs.recorded id q' hq
      exact ⟨before, o, List.mem_cons_of_mem _ hmem, hbounds⟩
    accepted := fun before o q' hmem => by
      rcases List.mem_cons.mp hmem with heq | hmem
      · cases heq
      · exact hs.accepted before o q' hmem
    balance := by simpa [Call.added, Call.unitsAdded] using hs.balance
    size := by simpa [Call.offers] using hs.size
    offers := hs.offers }

/-- The manager knows live orders only, and their ids are smaller. -/
theorem not_tracked (hs : Sound L n B s h) {id : Int} (hid : B ≤ id) :
    id ∉ s.manager.orders := by
  intro hmem
  obtain ⟨q, hq⟩ := mem_iff_getElem?.mp hmem
  obtain ⟨id', hindex⟩ := hs.kept q (System.mem_refs_of_tracked _ hq)
  obtain ⟨o, ho, hoid⟩ := hs.ok.tracked id q hq
  obtain ⟨o', ho', hoid'⟩ := hs.ok.indexed id' q hindex
  rw [ho] at ho'
  cases ho'
  have := hs.below id' q hindex
  omega

theorem mono (hs : Sound L n B s h) {B' : Int} (hle : B ≤ B') :
    Sound L n B' s h :=
  { hs with below := fun id q hq => lt_of_lt_of_le (hs.below id q hq) hle }

end Sound

/-! ### The engine's steps -/

/-- The engine offered the order `o` and let go of the pointer: the order was refused,
or it was accepted and, for an order of the engine's own, handed to the manager. -/
inductive Offered (L : Layout) (o : Order P Int) (own : Bool) (e e' : MatchingEngine P) :
    Prop where
  | refused :
      e'.currentId = e.currentId → e.system.book.allocator.Ok L [] → e'.system = e.system →
      e'.history = .addOrder e.system o (.error .poolExhausted) :: e.history →
      Offered L o own e e'
  | accepted {q : OrderPtr} :
      e'.currentId = e.currentId → (∃ a rest, e.system.book.allocator.Ok L (a :: rest)) →
      System.Accepted L e.system e'.system q o →
      e'.system.manager = (if own then
        { orders := e.system.manager.orders.insertIfNew o.id q
          states := e.system.manager.states.insertIfNew o.id .new }
        else e.system.manager) →
      e'.history = (if own then [.track q true] else []) ++
        .addOrder e.system o (.ok q) :: e.history →
      Offered L o own e e'

variable {n : Nat} {B : Int} {e e' : MatchingEngine P} {o : Order P Int} {own : Bool}

theorem Offered.currentId (h : Offered L o own e e') : e'.currentId = e.currentId := by
  cases h with
  | refused hid => exact hid
  | accepted hid => exact hid

theorem Offered.sound (h : Offered L o own e e') (hs : Sound L n B e.system e.history)
    (hid : B ≤ o.id) (hpos : 0 < o.quantity) :
    Sound L n (o.id + 1) e'.system e'.history := by
  cases h with
  | refused _ hfree hsystem hhistory =>
      rw [hsystem, hhistory]
      exact (hs.refuse hfree o).mono (by omega)
  | accepted _ hfree ha _ hhistory =>
      rw [hhistory]
      have hsound := hs.accept ha hfree hid hpos
      cases own with
      | true => exact hsound.noted _ _
      | false => exact hsound

/-- `addOrder` for a new id: the order is refused, or accepted with its pointer held. -/
theorem Sound.addOrder (hs : Sound L n B e.system e.history) (o : Order P Int)
    (hid : B ≤ o.id) :
    (e.system.book.allocator.Ok L [] ∧
      e.addOrder L o.id o.symbol o.price o.quantity o.isBuy = .ok (none,
        { e with history := .addOrder e.system o (.error .poolExhausted) :: e.history })) ∨
    ∃ q f, (∃ a rest, e.system.book.allocator.Ok L (a :: rest)) ∧
      e.addOrder L o.id o.symbol o.price o.quantity o.isBuy = .ok (some q,
        { e with
          system := { f with handles := [q] }
          history := .addOrder e.system o (.ok q) :: e.history }) ∧
      f.manager = e.system.manager ∧ System.Accepted L e.system f q o ∧
      ({ f with handles := [q] } : System P Int).Ok L := by
  obtain ⟨free, hpool⟩ := hs.ok.pool
  have hnew : o.id ∉ e.system.book.ordersById := by
    intro hmem
    obtain ⟨q, hq⟩ := mem_iff_getElem?.mp hmem
    have := hs.below o.id q hq
    omega
  rcases hs.ok.addOrder hpool o with
    ⟨hdup, -⟩ | ⟨-, rfl, hadd⟩ | ⟨-, a, rest, pool, rfl, -, hadd, hok, hfresh, hobj, -, hps⟩
  · exact absurd hdup hnew
  · refine Or.inl ⟨hpool, ?_⟩
    simp only [MatchingEngine.addOrder, hadd]
    rfl
  · let q : OrderPtr := ⟨e.system.nextCtrl, a⟩
    have hadded : e.system.added pool q o =
        { e.system.added pool q o with handles := [q] } := by
      simp [System.added, hs.handles]
    have hself : (e.system.added pool q o).book.ordersById[o.id]? = some q := by
      rw [System.added_ordersById hnew, if_pos rfl]
    refine Or.inr ⟨q, { e.system.added pool q o with handles := [] }, ⟨a, rest, hpool⟩, ?_, rfl,
      ?_, ?_⟩
    · simp only [MatchingEngine.addOrder, hadd]
      exact congrArg (fun s => Except.ok (some q, MatchingEngine.mk s e.currentId
        (.addOrder e.system o (.ok q) :: e.history))) hadded
    · refine ⟨?_, hnew, hfresh, rfl, ⟨pool, rfl⟩, rfl, fun id r hr => Or.inr hr,
        fun r => hobj r.ptr, hps⟩
      rw [hadded] at hok
      exact hok.drop_indexed o.id hself rfl
    · rw [← hadded]
      exact hok

/-- An order offered for the market: its pointer is dropped at once. -/
theorem Sound.offer (hs : Sound L n B e.system e.history) (o : Order P Int)
    (hid : B ≤ o.id) :
    ∃ r e₁ e₂, e.addOrder L o.id o.symbol o.price o.quantity o.isBuy = .ok (r, e₁) ∧
      e₁.reset L r = .ok e₂ ∧ Offered L o false e e₂ := by
  rcases hs.addOrder o hid with ⟨hfree, hadd⟩ | ⟨q, f, hfree, hadd, hmanager, ha, -⟩
  · exact ⟨none, _, _, hadd, rfl, .refused rfl hfree rfl rfl⟩
  · have hself : f.book.ordersById[o.id]? = some q := ha.indexed_self
    have hreset : System.reset L (some q) { f with handles := [q] } = .ok f := by
      rw [System.reset_indexed (s := { f with handles := [q] }) hself rfl]
      have hhandles := ha.handles
      cases f
      subst hhandles
      rfl
    refine ⟨some q, _, { e with
      system := f
      history := .addOrder e.system o (.ok q) :: e.history }, hadd, ?_,
      .accepted rfl hfree ha hmanager rfl⟩
    simp only [MatchingEngine.reset, hreset]
    rfl

/-- An order of the engine's own: the manager takes a copy before the pointer is dropped. -/
theorem Sound.offerOwn (hs : Sound L n B e.system e.history) (o : Order P Int)
    (hid : B ≤ o.id) :
    ∃ r e₁ e₂ e₃, e.addOrder L o.id o.symbol o.price o.quantity o.isBuy = .ok (r, e₁) ∧
      e₁.track r = .ok e₂ ∧ e₂.reset L r = .ok e₃ ∧ Offered L o true e e₃ := by
  rcases hs.addOrder o hid with ⟨hfree, hadd⟩ | ⟨q, f, hfree, hadd, hmanager, ha, hok⟩
  · exact ⟨none, _, _, _, hadd, rfl, rfl, .refused rfl hfree rfl rfl⟩
  · have hself : f.book.ordersById[o.id]? = some q := ha.indexed_self
    have hq : q ∈ ({ f with handles := [q] } : System P Int).refs :=
      System.mem_refs_of_handle List.mem_cons_self
    obtain ⟨o', ho', htrack⟩ := hok.track hq
    have heq : o' = o := by
      have hfo : f.order? q = some o := by rw [ha.order, if_pos rfl]
      exact Option.some.inj ((show f.order? q = some o' from ho').symm.trans hfo)
    subst heq
    rcases htrack with ⟨hdup, -⟩ | ⟨-, t, htrack, htok, hbook, hhandles, hctrl, horders, hstates⟩
    · have hdup' : o'.id ∈ e.system.manager.orders := by rw [← hmanager]; exact hdup
      exact absurd hdup' (hs.not_tracked hid)
    · have htself : t.book.ordersById[o'.id]? = some q := by rw [hbook]; exact hself
      have hreset : t.reset L (some q) = .ok { t with handles := [] } :=
        System.reset_indexed htself hhandles
      have hmgr : t.manager =
          { orders := e.system.manager.orders.insertIfNew o'.id q
            states := e.system.manager.states.insertIfNew o'.id .new } := by
        have horders' : t.manager.orders = f.manager.orders.insertIfNew o'.id q := horders
        have hstates' : t.manager.states = f.manager.states.insertIfNew o'.id .new := hstates
        rw [hmanager] at horders' hstates'
        cases ht : t.manager
        rw [ht] at horders' hstates'
        rw [← horders', ← hstates']
      refine ⟨some q, _, { e with
          system := t
          history := .track q true :: .addOrder e.system o' (.ok q) :: e.history }, { e with
          system := { t with handles := [] }
          history := .track q true :: .addOrder e.system o' (.ok q) :: e.history }, hadd, ?_, ?_,
        .accepted rfl hfree ?_ hmgr rfl⟩
      · simp only [MatchingEngine.track, htrack]
        rfl
      · simp only [MatchingEngine.reset, hreset]
        rfl
      · obtain ⟨pool, hfbook⟩ := ha.book
        refine ⟨htok.drop_indexed _ htself hhandles, ha.new, ha.fresh, ha.ctrl,
          ⟨pool, hbook.trans hfbook⟩, rfl, ?_, ?_, ?_⟩
        · intro id r hr
          have hr' : t.manager.orders[id]? = some r := hr
          rw [hmgr] at hr'
          rw [Std.ExtTreeMap.getElem?_insertIfNew] at hr'
          split at hr'
          · exact Or.inl (Option.some.inj hr').symm
          · exact Or.inr hr'
        · intro r
          change t.book.allocator.object? r.ptr = _
          rw [hbook]
          exact ha.order r
        · change t.book.allocator.poolSize = _
          rw [hbook]
          exact ha.poolSize

/-! ### A tick -/

/-- On sorted sides the heads decide for all entries. -/
theorem System.Ok.uncrossed_iff {s : System P Int} (h : s.Ok L) :
    s.Uncrossed ↔ ∀ x ∈ s.book.bids, ∀ y ∈ s.book.asks, x.1 < y.1 := by
  constructor
  · intro hstop x hx y hy
    have hbids := h.bidsSorted
    have hasks := h.asksSorted
    cases hb : s.book.bids with
    | nil => rw [hb] at hx; cases hx
    | cons x₀ bids =>
        cases ha : s.book.asks with
        | nil => rw [ha] at hy; cases hy
        | cons y₀ asks =>
            have hhead : x₀.1 < y₀.1 := hstop x₀ (by rw [hb]; rfl) y₀ (by rw [ha]; rfl)
            rw [hb] at hx hbids
            rw [ha] at hy hasks
            have hxle : x.1 ≤ x₀.1 := by
              rcases List.mem_cons.mp hx with rfl | hx
              · exact le_refl _
              · exact not_lt.mp ((List.pairwise_cons.mp hbids).1 x hx)
            have hyle : y₀.1 ≤ y.1 := by
              rcases List.mem_cons.mp hy with rfl | hy
              · exact le_refl _
              · exact not_lt.mp ((List.pairwise_cons.mp hasks).1 y hy)
            exact lt_of_le_of_lt hxle (lt_of_lt_of_le hhead hyle)
  · intro hall x hx y hy
    exact hall x (List.mem_of_mem_head? hx) y (List.mem_of_mem_head? hy)

/-- The buy order at the best bid price leaves the book uncrossed. -/
theorem System.Accepted.uncrossed {s f : System P Int} {q : OrderPtr} {o : Order P Int}
    (h : System.Accepted L s f q o) (hs : s.Ok L) (hstop : s.Uncrossed) (hbuy : o.isBuy = true)
    (hbest : s.book.bestBid = some o.price) : f.Uncrossed := by
  apply h.ok.uncrossed_iff.mpr
  intro x hx y hy
  have hall := hs.uncrossed_iff.mp hstop
  have hy' : y ∈ s.book.asks := by
    rcases (h.mem_side (b := false)).mp hy with ⟨hb, -⟩ | hy
    · rw [hbuy] at hb
      cases hb
    · exact hy
  rcases (h.mem_side (b := true)).mp hx with ⟨-, rfl⟩ | hx
  · obtain ⟨x₀, hx₀, hprice⟩ := Option.map_eq_some_iff.mp hbest
    rw [← hprice]
    exact hall x₀ (List.mem_of_mem_head? hx₀) y hy'
  · exact hall x hx y hy'

namespace MatchingEngine

/-- The tick's orders. -/
def buyQuote (data : MarketData P) (id : Int) : Order P Int :=
  ⟨id, data.symbol, data.bidPrice, defaultQuantity, true⟩

def sellQuote (data : MarketData P) (id : Int) : Order P Int :=
  ⟨id, data.symbol, data.askPrice, defaultQuantity, false⟩

/-- The engine's own order. -/
def ownOrder (data : MarketData P) (id : Int) (bestBid : P) : Order P Int :=
  ⟨id, data.symbol, bestBid, 1, true⟩

omit [LinearOrder P] in
theorem buyQuote_pos (data : MarketData P) (id : Int) : 0 < (buyQuote data id).quantity :=
  show (0 : Int) < 20 by decide

omit [LinearOrder P] in
theorem sellQuote_pos (data : MarketData P) (id : Int) : 0 < (sellQuote data id).quantity :=
  show (0 : Int) < 20 by decide

omit [LinearOrder P] in
theorem ownOrder_pos (data : MarketData P) (id : Int) (bestBid : P) :
    0 < (ownOrder data id bestBid).quantity :=
  show (0 : Int) < 1 by decide

/-- What holds between two ticks. -/
structure Ok (L : Layout) (n : Nat) (e : MatchingEngine P) : Prop where
  sound : Sound L n e.currentId e.system e.history
  uncrossed : e.system.Uncrossed

/-- Everything a tick does: two orders are offered, the book is matched, and at most one
order of the engine's own is offered at the best bid. -/
inductive Tick (L : Layout) (data : MarketData P) (e e' : MatchingEngine P) : Prop where
  | intro {b q m : MatchingEngine P} :
      Offered L (buyQuote data e.currentId) false { e with currentId := e.currentId + 2 } b →
      Offered L (sellQuote data (e.currentId + 1)) false b q →
      e.submitQuotes L data = .ok q →
      System.MatchRun L q.system m.system → m.currentId = q.currentId →
      m.history = .matchOrders q.system :: q.history →
      (e' = m ∨ ∃ bestBid, m.system.book.bestBid = some bestBid ∧
        Offered L (ownOrder data m.currentId bestBid) true
          { m with currentId := m.currentId + 1 } e') → Tick L data e e'

variable {data : MarketData P}

/-- The system is sound after either quote and after the matching. -/
theorem sound_of_quotes {b q m : MatchingEngine P} (he : e.Ok L n)
    (hbuy : Offered L (buyQuote data e.currentId) false { e with currentId := e.currentId + 2 } b)
    (hsell : Offered L (sellQuote data (e.currentId + 1)) false b q)
    (hrun : System.MatchRun L q.system m.system) (hid : m.currentId = q.currentId)
    (hhistory : m.history = .matchOrders q.system :: q.history) :
    Sound L n (e.currentId + 1) b.system b.history ∧
      Sound L n (e.currentId + 1 + 1) q.system q.history ∧
      Sound L n m.currentId m.system m.history := by
  have hb : Sound L n (e.currentId + 1) b.system b.history :=
    hbuy.sound (B := e.currentId) he.sound (le_refl _) (buyQuote_pos _ _)
  have hq : Sound L n (e.currentId + 1 + 1) q.system q.history :=
    hsell.sound hb (le_refl _) (sellQuote_pos _ _)
  have hcount : q.currentId = e.currentId + 2 := hsell.currentId.trans hbuy.currentId
  refine ⟨hb, hq, ?_⟩
  rw [hhistory, hid, hcount]
  exact (hq.mono (by omega)).run hrun

theorem Tick.ok (h : Tick L data e e') (he : e.Ok L n) : e'.Ok L n := by
  cases h with
  | @intro b q m hbuy hsell _ hrun hid hhistory hown =>
      obtain ⟨-, -, hm⟩ := sound_of_quotes he hbuy hsell hrun hid hhistory
      rcases hown with rfl | ⟨bestBid, hbest, hown⟩
      · exact ⟨hm, hrun.uncrossed⟩
      · have hcount' : e'.currentId = m.currentId + 1 := hown.currentId
        constructor
        · rw [hcount']
          exact hown.sound (B := m.currentId) hm (le_refl _) (ownOrder_pos _ _ _)
        · cases hown with
          | refused _ _ hsystem _ =>
              rw [hsystem]
              exact hrun.uncrossed
          | accepted _ _ ha _ _ => exact ha.uncrossed hm.ok hrun.uncrossed rfl hbest

theorem submitQuotes_tick (hs : Sound L n e.currentId e.system e.history)
    (data : MarketData P) :
    ∃ b q, e.submitQuotes L data = .ok q ∧
      Offered L (buyQuote data e.currentId) false { e with currentId := e.currentId + 2 } b ∧
      Offered L (sellQuote data (e.currentId + 1)) false b q := by
  obtain ⟨r, e₁, b, hadd, hreset, hbuy⟩ :=
    Sound.offer (e := { e with currentId := e.currentId + 2 }) (B := e.currentId) hs
      (buyQuote data e.currentId) (le_refl _)
  have hb : Sound L n (e.currentId + 1) b.system b.history :=
    hbuy.sound (B := e.currentId) hs (le_refl _) (buyQuote_pos _ _)
  obtain ⟨r', e₂, q, hadd', hreset', hsell⟩ :=
    hb.offer (sellQuote data (e.currentId + 1)) (le_refl _)
  refine ⟨b, q, ?_, hbuy, hsell⟩
  simp only [buyQuote, sellQuote] at hadd hadd'
  simp only [submitQuotes, hadd, hreset, hadd', hreset', bind, Except.bind]

variable [OfNat P 100]

theorem submitStrategyOrder_tick (hs : Sound L n e.currentId e.system e.history)
    (data : MarketData P) :
    ∃ e', e.submitStrategyOrder L data = .ok e' ∧
      (e' = e ∨ ∃ bestBid, e.system.book.bestBid = some bestBid ∧
        Offered L (ownOrder data e.currentId bestBid) true
          { e with currentId := e.currentId + 1 } e') := by
  cases hbid : e.system.book.bestBid with
  | none => exact ⟨e, by simp only [submitStrategyOrder, hbid], Or.inl rfl⟩
  | some bestBid =>
      cases hask : e.system.book.bestAsk with
      | none => exact ⟨e, by simp only [submitStrategyOrder, hbid, hask], Or.inl rfl⟩
      | some bestAsk =>
          by_cases hlow : bestBid < 100
          · obtain ⟨r, e₁, e₂, e', hadd, htrack, hreset, hown⟩ :=
              Sound.offerOwn (e := { e with currentId := e.currentId + 1 })
                (B := e.currentId) hs (ownOrder data e.currentId bestBid) (le_refl _)
            refine ⟨e', ?_, Or.inr ⟨bestBid, rfl, hown⟩⟩
            simp only [ownOrder] at hadd
            simp only [submitStrategyOrder, hbid, hask, if_pos hlow, hadd, htrack, hreset, bind,
              Except.bind]
          · exact ⟨e, by simp only [submitStrategyOrder, hbid, hask, if_neg hlow], Or.inl rfl⟩

/-- A tick returns, and does what `Tick` lists. -/
theorem Ok.tick (h : e.Ok L n) (data : MarketData P) :
    ∃ e', e.processMarketData L data = .ok e' ∧ Tick L data e e' := by
  obtain ⟨b, q, hquotes, hbuy, hsell⟩ := submitQuotes_tick h.sound data
  have hq : Sound L n (e.currentId + 1 + 1) q.system q.history :=
    hsell.sound (hbuy.sound (B := e.currentId) h.sound (le_refl _) (buyQuote_pos _ _))
      (le_refl _) (sellQuote_pos _ _)
  have hcount : q.currentId = e.currentId + 2 := hsell.currentId.trans hbuy.currentId
  obtain ⟨t, hmatch, hrun⟩ := hq.ok.matchOrders
  let m : MatchingEngine P :=
    { q with system := t, history := .matchOrders q.system :: q.history }
  have hm : Sound L n m.currentId m.system m.history := by
    change Sound L n q.currentId t _
    rw [hcount]
    exact (hq.mono (by omega)).run hrun
  obtain ⟨e', hstrategy, hown⟩ := submitStrategyOrder_tick hm data
  refine ⟨e', ?_, .intro (m := m) hbuy hsell hquotes hrun rfl rfl hown⟩
  have hmatch' : q.matchOrders L = .ok m := by
    simp only [matchOrders, hmatch]
    rfl
  simp only [processMarketData, hquotes, hmatch', hstrategy, bind, Except.bind]

omit [OfNat P 100] in
/-- An engine on a fresh book that has at least one block. -/
theorem fresh_ok {blockSize poolSize : Nat} (fits : L.sizeofOrder ≤ blockSize)
    (hpos : 0 < poolSize) (currentId : Int) :
    ∃ e : MatchingEngine P, fresh L blockSize poolSize currentId = .ok e ∧ e.Ok L poolSize ∧
      e.history = [] ∧ e.system.manager.orders = ∅ ∧ e.system.manager.states = ∅ := by
  obtain ⟨s, hfresh, hok, hsize, hbids, hasks, hindex, horders, hstates, hhandles⟩ :=
    System.fresh_ok (P := P) (I := Int) (L := L) fits hpos
  have hresting : s.resting = [] := by simp [System.resting, hbids, hasks]
  have hnone : ∀ (id : Int) q, s.book.ordersById[id]? ≠ some q := by
    intro id q hq
    rw [hindex] at hq
    simp at hq
  refine ⟨⟨s, currentId, []⟩, by simp only [fresh, hfresh]; rfl, ⟨?_, ?_⟩, rfl, horders,
    hstates⟩
  · exact
      { ok := hok
        poolSize := hsize
        handles := hhandles
        stocked := fun q hq => by rw [hresting] at hq; cases hq
        below := fun id q hq => absurd hq (hnone id q)
        kept := fun q hq => by
          rcases System.mem_refs.mp hq with ⟨id, hq⟩ | hq | ⟨id, hq⟩ | hq
          · exact ⟨id, hq⟩
          · rw [hresting] at hq
            cases hq
          · rw [horders] at hq
            simp at hq
          · rw [hhandles] at hq
            cases hq
        aged := fun id id' q q' hq => absurd hq (hnone id q)
        recorded := fun id q hq => absurd hq (hnone id q)
        accepted := fun before o q hmem => by cases hmem
        balance := by
          have htotal : ∀ b, total (s.lots b) = 0 := fun b => by
            cases b <;> simp [System.lots, hbids, hasks]
          rw [htotal, htotal]
          rfl
        size := by rw [hindex]; simp [Call.offers]
        offers := trivial }
  · intro x hx
    simp only [hbids] at hx
    cases hx

/-- Every run of ticks returns. -/
theorem Ok.run (h : e.Ok L n) (ticks : List (MarketData P)) :
    ∃ e', Run.run (processMarketData L) ticks e = .ok e' ∧ e'.Ok L n :=
  Run.run_total (fun data e he => by
    obtain ⟨e', hstep, htick⟩ := he.tick data
    exact ⟨e', hstep, htick.ok he⟩) h

end MatchingEngine

end HftProject.Phase4
