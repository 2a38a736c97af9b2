import HftProject.Week2.PriceNetwork

/-!
What the price market comes to, in any order of the steps. No client in the list misses a price,
every order is one that a client's prices call for, and the server credits only orders, each price
once. From every state the server can go on until each order has been credited
(`orders_credited`), except that a client without a name is not heard with its first, which is
taken for the name.
-/

namespace HftProject.Week2.Phase2

open EventLog

/-! ### What holds in every state -/

namespace PriceNetwork

/-- The id that comes after an id. -/
def nextId (id : PriceId) : Int := (id.val + 1).bmod (2 ^ 32)

/-- The id that a client in the list is sent next. -/
def due (s : PriceNetwork) (client : Nat) : Int :=
  match s.broadcaster with
  | .sleeping => s.server.priceId
  | .stamped price => price.id.val
  | .sending price rest => if client ∈ rest then price.id.val else s.server.priceId

/-- The price on its way has a time stamp and is the last. -/
def Announced (server : PriceServer) (price : Price) : Prop :=
  price.id.val ∈ server.priceTimestamps ∧ server.priceId = nextId price.id

/-- The side of the broadcasting thread. -/
structure Sends (s : PriceNetwork) : Prop where
  counter : -2 ^ 31 ≤ s.server.priceId ∧ s.server.priceId < 2 ^ 31
  stamped : ∀ price, s.broadcaster = .stamped price → Announced s.server price
  sending : ∀ price rest, s.broadcaster = .sending price rest →
    Announced s.server price ∧ rest.Nodup ∧ ∀ client ∈ rest, client ∈ s.clients
  clients_nodup : s.clients.Nodup
  connected : ∀ client ∈ s.clients, s.programs client ≠ none
  unknown : ∀ client, client ∉ s.clients → s.written client = []
  known : ∀ client, ∀ price ∈ s.written client, price.id.val ∈ s.server.priceTimestamps
  due : ∀ client, ∀ price ∈ (s.written client).getLast?, s.due client = nextId price.id
  chain : ∀ client, (s.written client).IsChain fun p q => q.id.val = nextId p.id

/-- The side of the clients: each has received the first of its prices. -/
structure Receives (s : PriceNetwork) : Prop where
  delivered_le : ∀ client, s.delivered client ≤ (s.written client).length
  program : ∀ client name program, s.programs client = some (name, program) →
    program = .after ((s.written client).take (s.delivered client))

/-- What a thread of `handleClient` has made of the messages it has received. -/
def Handles (server : PriceServer) (messages : List Text) : Thread → Prop
  | .naming => messages = []
  | .receiving name => ∃ first orders, messages = first :: orders ∧ name = cString first ∧
      ∀ order ∈ orders, ∃ id ∈ server.priceAlreadyHit, order = putInt id
  | .hitting name message id => ∃ first orders, messages = first :: (orders ++ [message]) ∧
      name = cString first ∧ (∀ order ∈ orders, ∃ id ∈ server.priceAlreadyHit, order = putInt id) ∧
      message = putInt id ∧ id ∈ server.priceTimestamps
  | .closed => False

/-- The side of the threads. -/
structure Answers (s : PriceNetwork) : Prop where
  tracks : s.server.Tracks
  asked : s.server.HitsAskedFor
  handled_le : ∀ client, s.handled client ≤ (outbox (s.programs client)).length
  handles : ∀ client, Handles s.server ((outbox (s.programs client)).take (s.handled client))
    (s.server.threads client)
  source : ∀ client name id message, .hit client name id message ∈ s.server.log →
    message ∈ (outbox (s.programs client)).tail

structure Inv (s : PriceNetwork) : Prop where
  sends : s.Sends
  receives : s.Receives
  answers : s.Answers

variable {s s' : PriceNetwork} {client : Nat} {action : Action}

theorem start_inv : start.Inv := by
  refine ⟨⟨by decide, ?_, ?_, List.nodup_nil, by simp [start], fun _ _ => rfl, ?_, ?_,
      fun _ => .nil⟩,
    ⟨fun _ => Nat.zero_le _, ?_⟩, ⟨PriceServer.start_tracks, eachAfter_nil, fun _ => Nat.zero_le _,
      fun _ => rfl, ?_⟩⟩
  · intro price h
    cases h
  · intro price rest h
    cases h
  · intro client price h
    cases h
  · intro client price h
    cases h
  · intro client name program h
    cases h
  · intro client name id message h
    cases h

/-! ### The server sends -/

theorem accept_sends (h : s.Sends) (hstep : s.accept client = .ok s') : s'.Sends := by
  rw [accept] at hstep
  split at hstep
  · rename_i hguard
    split at hstep
    · cases hstep
    · rename_i hidle
      cases hstep
      refine ⟨h.counter, h.stamped, ?_, ?_, ?_, ?_, h.known, h.due, h.chain⟩
      · intro price rest hsending
        exact absurd hsending (hidle price rest)
      · exact List.nodup_append.mpr ⟨h.clients_nodup, List.nodup_singleton _, by
          rintro c hc c' hc' rfl
          rw [List.mem_singleton.mp hc'] at hc
          exact hguard.2 hc⟩
      · intro c hc
        rcases List.mem_append.mp hc with hc | hc
        · exact h.connected c hc
        · rw [List.mem_singleton.mp hc]
          exact hguard.1
      · intro c hc
        exact h.unknown c fun hmem => hc (List.mem_append_left _ hmem)
  · cases hstep

theorem nextId_range (id : PriceId) : -2 ^ 31 ≤ nextId id ∧ nextId id < 2 ^ 31 := by
  have hlow := Int.le_bmod (x := id.val + 1) (m := 2 ^ 32) (by decide)
  have hhigh := Int.bmod_lt (x := id.val + 1) (m := 2 ^ 32) (by decide)
  rw [nextId]
  omega

theorem stamp_sends {draw : Fin 1000} (h : s.Sends) (hstep : s.stamp draw = .ok s') :
    s'.Sends := by
  rw [stamp] at hstep
  split at hstep
  · rename_i hsleeping
    rw [dif_pos h.counter] at hstep
    cases hstep
    have hannounced : Announced s.server.broadcastPrices
        ⟨⟨s.server.priceId, h.counter⟩, draw⟩ := ⟨Finset.mem_insert_self .., rfl⟩
    refine ⟨nextId_range ⟨s.server.priceId, h.counter⟩, ?_, ?_, h.clients_nodup, h.connected,
      h.unknown, ?_, ?_, h.chain⟩
    · rintro price ⟨⟩
      exact hannounced
    · rintro price rest ⟨⟩
    · intro c price hprice
      exact Finset.mem_insert_of_mem (h.known c price hprice)
    · intro c price hprice
      have hdue := h.due c price hprice
      simp only [due, hsleeping] at hdue
      exact hdue
  · cases hstep

theorem enter_sends (h : s.Sends) (hstep : s.enter = .ok s') : s'.Sends := by
  rw [enter] at hstep
  split at hstep
  · rename_i price hstamped
    cases hstep
    have hannounced := h.stamped price hstamped
    refine ⟨h.counter, ?_, ?_, h.clients_nodup, h.connected, h.unknown, h.known, ?_, h.chain⟩
    · rintro price' ⟨⟩
    · rintro price' rest ⟨⟩
      exact ⟨hannounced, h.clients_nodup, fun _ hc => hc⟩
    · intro c last hlast
      have hdue := h.due c last hlast
      simp only [due, hstamped] at hdue
      have hclient : c ∈ s.clients := by
        by_contra hnot
        rw [h.unknown c hnot] at hlast
        cases hlast
      simp only [due, if_pos hclient]
      exact hdue
  · cases hstep

theorem send_sends (h : s.Sends) (hstep : s.send = .ok s') : s'.Sends := by
  rw [send] at hstep
  split at hstep
  · rename_i price hsending
    cases hstep
    refine ⟨h.counter, ?_, ?_, h.clients_nodup, h.connected, h.unknown, h.known, ?_, h.chain⟩
    · rintro price' ⟨⟩
    · rintro price' rest ⟨⟩
    · intro c last hlast
      have hdue := h.due c last hlast
      simp only [due, hsending, List.not_mem_nil, if_false] at hdue
      exact hdue
  · rename_i price client rest hsending
    cases hstep
    obtain ⟨hannounced, hnodup, hmem⟩ := h.sending price (client :: rest) hsending
    obtain ⟨hnot, hnodup'⟩ := List.nodup_cons.mp hnodup
    refine ⟨h.counter, ?_, ?_, h.clients_nodup, h.connected, ?_, ?_, ?_, ?_⟩
    · rintro price' ⟨⟩
    · rintro price' rest' ⟨⟩
      exact ⟨hannounced, hnodup', fun c hc => hmem c (List.mem_cons_of_mem _ hc)⟩
    · intro c hc
      have hne : c ≠ client := fun heq => hc (heq ▸ hmem client List.mem_cons_self)
      exact (Function.update_of_ne hne _ _).trans (h.unknown c hc)
    · intro c p hp
      by_cases heq : c = client
      · subst heq
        simp only [Function.update_self, List.mem_append, List.mem_singleton] at hp
        rcases hp with hp | rfl
        · exact h.known c p hp
        · exact hannounced.1
      · simp only [Function.update_of_ne heq] at hp
        exact h.known c p hp
    · intro c last hlast
      by_cases heq : c = client
      · subst heq
        simp only [Function.update_self, List.getLast?_append, List.getLast?_singleton,
          Option.some_or, Option.mem_def, Option.some.injEq] at hlast
        subst hlast
        simp only [due, if_neg hnot]
        exact hannounced.2
      · simp only [Function.update_of_ne heq] at hlast
        have hdue := h.due c last hlast
        simp only [due, hsending, List.mem_cons, heq, false_or] at hdue
        exact hdue
    · intro c
      by_cases heq : c = client
      · subst heq
        simp only [Function.update_self]
        refine (h.chain c).append (List.isChain_singleton _) ?_
        rintro last hlast p hp
        have hdue := h.due c last hlast
        simp only [due, hsending, List.mem_cons_self, if_true] at hdue
        obtain rfl := Option.some.inj hp
        exact hdue
      · simp only [Function.update_of_ne heq]
        exact h.chain c
  · cases hstep

/-! ### The clients receive and answer -/

/-- What the broadcasting thread does not see. -/
theorem Sends.congr (h : s.Sends) (hbroadcaster : s'.broadcaster = s.broadcaster)
    (hclients : s'.clients = s.clients) (hwritten : s'.written = s.written)
    (hpriceId : s'.server.priceId = s.server.priceId)
    (hstamps : s'.server.priceTimestamps = s.server.priceTimestamps)
    (hprograms : ∀ c, s.programs c ≠ none → s'.programs c ≠ none) : s'.Sends := by
  have hdue : ∀ c, s'.due c = s.due c := fun c => by
    rw [PriceNetwork.due, PriceNetwork.due, hbroadcaster, hpriceId]
  have hannounced : ∀ price, Announced s.server price → Announced s'.server price :=
    fun price => by rw [Announced, Announced, hstamps, hpriceId]; exact id
  refine ⟨hpriceId ▸ h.counter, ?_, ?_, hclients ▸ h.clients_nodup, ?_, ?_, ?_, ?_, ?_⟩
  · intro price hstamped
    exact hannounced price (h.stamped price (hbroadcaster ▸ hstamped))
  · intro price rest hsending
    obtain ⟨hprice, hnodup, hmem⟩ := h.sending price rest (hbroadcaster ▸ hsending)
    exact ⟨hannounced price hprice, hnodup, hclients ▸ hmem⟩
  · intro c hc
    exact hprograms c (h.connected c (hclients ▸ hc))
  · rw [hwritten, hclients]
    exact h.unknown
  · rw [hwritten, hstamps]
    exact h.known
  · rw [hwritten]
    exact fun c price hprice => (hdue c).trans (h.due c price hprice)
  · rw [hwritten]
    exact h.chain

theorem mem_of_mem_momentum {prices : List Price} {price : Price} (h : price ∈ momentum prices) :
    price ∈ prices := by
  obtain ⟨seen, hseen, hsome⟩ := List.mem_filterMap.mp h
  split at hsome
  · cases hsome
  · exact ((List.mem_inits seen prices).mp hseen).subset (List.mem_of_getLast? hsome)

theorem outbox_after (name : Text) (prices : List Price) (price : Price) :
    ∃ more, outbox (some (name, .after (prices ++ [price]))) =
      outbox (some (name, .after prices)) ++ more := by
  simp only [outbox, Client.after, momentum_append, List.map_append]
  exact ⟨_, (List.append_assoc ..).symm⟩

theorem outbox_ne_nil {program : Option (Text × Client)} {prices : List Price}
    (hprogram : ∀ name client, program = some (name, client) → client = .after prices)
    {message : Text} (h : message ∈ outbox program) : message ≠ [] := by
  cases program with
  | none => cases h
  | some sender =>
      obtain ⟨name, sent⟩ := sender
      rw [hprogram name sent rfl, outbox, List.mem_append] at h
      rcases h with h | h
      · split at h
        · cases h
        · rename_i hname
          rwa [List.mem_singleton.mp h]
      · obtain ⟨price, -, rfl⟩ := List.mem_map.mp h
        exact putInt_ne_nil _

/-- After the first message there are only orders. -/
theorem order_of_tail {program : Option (Text × Client)} {prices : List Price}
    (hprogram : ∀ name client, program = some (name, client) → client = .after prices)
    {message : Text} (h : message ∈ (outbox program).tail) :
    ∃ price ∈ momentum prices, message = putInt price.id.val := by
  cases program with
  | none => cases h
  | some sender =>
      obtain ⟨name, sent⟩ := sender
      rw [hprogram name sent rfl, outbox] at h
      have hsent : message ∈ (Client.after prices).sent := by
        split at h
        · exact List.mem_of_mem_tail h
        · exact h
      obtain ⟨price, hprice, rfl⟩ := List.mem_map.mp hsent
      exact ⟨price, hprice, rfl⟩

theorem mem_tail_append {A : Type} {l more : List A} {a : A} (h : a ∈ l.tail) :
    a ∈ (l ++ more).tail := by
  cases l with
  | nil => cases h
  | cons b l => exact List.mem_append_left _ h

/-- More messages do not change what has been made of those received. -/
theorem Answers.grow {programs : Nat → Option (Text × Client)} {delivered : Nat → Nat}
    (h : s.Answers)
    (hgrows : ∀ c, ∃ more, outbox (programs c) = outbox (s.programs c) ++ more) :
    Answers { s with programs := programs, delivered := delivered } := by
  refine ⟨h.tracks, h.asked, fun c => ?_, fun c => ?_, fun c name id message hhit => ?_⟩
  · obtain ⟨more, hmore⟩ := hgrows c
    rw [hmore, List.length_append]
    exact (h.handled_le c).trans (Nat.le_add_right ..)
  · obtain ⟨more, hmore⟩ := hgrows c
    rw [hmore, List.take_append_of_le_length (h.handled_le c)]
    exact h.handles c
  · obtain ⟨more, hmore⟩ := hgrows c
    rw [hmore]
    exact mem_tail_append (h.source c name id message hhit)

theorem connect_inv {name : Text} (h : s.Inv) (hstep : s.connect client name = .ok s') :
    s'.Inv := by
  rw [connect] at hstep
  split at hstep
  · rename_i hguard
    cases hstep
    have hnew : s.written client = [] :=
      h.sends.unknown client fun hmem => h.sends.connected client hmem hguard.1
    refine ⟨h.sends.congr rfl rfl rfl rfl rfl fun c hc => ?_, ⟨h.receives.delivered_le, ?_⟩,
      h.answers.grow fun c => ?_⟩
    · by_cases heq : c = client
      · subst heq
        exact absurd hguard.1 hc
      · exact (Function.update_of_ne heq _ _).trans_ne hc
    · intro c name' program hprogram
      by_cases heq : c = client
      · subst heq
        simp only [Function.update_self, Option.some.injEq, Prod.mk.injEq] at hprogram
        simp only [hnew, List.take_nil, ← hprogram.2]
        rfl
      · simp only [Function.update_of_ne heq] at hprogram
        exact h.receives.program c name' program hprogram
    · by_cases heq : c = client
      · subst heq
        rw [hguard.1]
        exact ⟨_, (List.nil_append _).symm⟩
      · rw [Function.update_of_ne heq]
        exact ⟨[], (List.append_nil _).symm⟩
  · cases hstep

/-- A client decodes the price. -/
theorem deliver_inv (h : s.Inv) (hstep : s.deliver client = .ok s') : s'.Inv := by
  rw [deliver] at hstep
  split at hstep
  · rename_i name program price hprogram hprice
    have hafter := h.receives.program client name program hprogram
    have htake : (s.written client).take (s.delivered client + 1) =
        (s.written client).take (s.delivered client) ++ [price] := by
      rw [List.take_add_one, hprice]
      rfl
    rw [hafter, receive_message] at hstep
    cases hstep
    refine ⟨h.sends.congr rfl rfl rfl rfl rfl fun c hc => ?_, ⟨fun c => ?_, ?_⟩,
      h.answers.grow fun c => ?_⟩
    · by_cases heq : c = client
      · subst heq
        simp
      · exact (Function.update_of_ne heq _ _).trans_ne hc
    · by_cases heq : c = client
      · subst heq
        simp only [Function.update_self]
        exact (List.getElem?_eq_some_iff.mp hprice).1
      · simp only [Function.update_of_ne heq]
        exact h.receives.delivered_le c
    · intro c name' program' hprogram'
      by_cases heq : c = client
      · subst heq
        simp only [Function.update_self, Option.some.injEq, Prod.mk.injEq] at hprogram' ⊢
        rw [htake, hprogram'.2]
      · simp only [Function.update_of_ne heq] at hprogram' ⊢
        exact h.receives.program c name' program' hprogram'
    · by_cases heq : c = client
      · subst heq
        rw [Function.update_self, hprogram, hafter]
        exact outbox_after name _ price
      · rw [Function.update_of_ne heq]
        exact ⟨[], (List.append_nil _).symm⟩
  · cases hstep

/-! ### The threads handle -/

theorem Handles.mono {server server' : PriceServer} {messages : List Text} {thread : Thread}
    (h : Handles server messages thread)
    (hhit : server.priceAlreadyHit ⊆ server'.priceAlreadyHit)
    (hstamps : server.priceTimestamps ⊆ server'.priceTimestamps) :
    Handles server' messages thread := by
  cases thread with
  | naming => exact h
  | receiving name =>
      obtain ⟨first, orders, hmessages, hname, horders⟩ := h
      refine ⟨first, orders, hmessages, hname, fun order horder => ?_⟩
      obtain ⟨id, hid, heq⟩ := horders order horder
      exact ⟨id, hhit hid, heq⟩
  | hitting name message id =>
      obtain ⟨first, orders, hmessages, hname, horders, hmessage, hid⟩ := h
      refine ⟨first, orders, hmessages, hname, fun order horder => ?_, hmessage, hstamps hid⟩
      obtain ⟨id, hid, heq⟩ := horders order horder
      exact ⟨id, hhit hid, heq⟩
  | closed => exact h

theorem stamp_inv {draw : Fin 1000} (h : s.Inv) (hstep : s.stamp draw = .ok s') : s'.Inv := by
  have hsends := stamp_sends h.sends hstep
  rw [stamp] at hstep
  split at hstep
  · rw [dif_pos h.sends.counter] at hstep
    cases hstep
    have heffect : PriceServer.Effect .broadcast s.server s.server.broadcastPrices :=
      PriceServer.step_effect rfl
    have htracks := h.answers.tracks.effect heffect
    refine ⟨hsends, ⟨h.receives.delivered_le, h.receives.program⟩, htracks,
      heffect.asked h.answers.asked htracks trivial, h.answers.handled_le, fun c => ?_, ?_⟩
    · exact (h.answers.handles c).mono (Finset.Subset.refl _) (Finset.subset_insert _ _)
    · intro c name id message hhit
      rcases List.mem_append.mp hhit with hhit | hhit
      · exact h.answers.source c name id message hhit
      · cases List.mem_singleton.mp hhit
  · cases hstep

/-- The message that a thread receives is one more of those it has received. -/
theorem take_handled (s : PriceNetwork) {message : Text}
    (hmessage : (outbox (s.programs client))[s.handled client]? = some message) :
    (outbox (s.programs client)).take (s.handled client + 1) =
      (outbox (s.programs client)).take (s.handled client) ++ [message] := by
  rw [List.take_add_one, hmessage]
  rfl

/-- What a thread's step leaves alone and what it has to show. -/
theorem Inv.turn {server : PriceServer} (h : s.Inv) {handled : Nat} {thread : Thread}
    (hpriceId : server.priceId = s.server.priceId)
    (hstamps : server.priceTimestamps = s.server.priceTimestamps)
    (hhit : s.server.priceAlreadyHit ⊆ server.priceAlreadyHit)
    (hthreads : server.threads = Function.update s.server.threads client thread)
    (htracks : server.Tracks) (hasked : server.HitsAskedFor)
    (hhandled : handled ≤ (outbox (s.programs client)).length)
    (hhandles : Handles server ((outbox (s.programs client)).take handled) thread)
    (hsource : ∀ c name id message, .hit c name id message ∈ server.log →
      message ∈ (outbox (s.programs c)).tail) :
    Inv { s with server := server, handled := Function.update s.handled client handled } := by
  refine ⟨h.sends.congr rfl rfl rfl hpriceId hstamps fun _ hc => hc,
    ⟨h.receives.delivered_le, h.receives.program⟩, htracks, hasked, fun c => ?_, fun c => ?_,
    hsource⟩
  · by_cases heq : c = client
    · subst heq
      simp only [Function.update_self]
      exact hhandled
    · simp only [Function.update_of_ne heq]
      exact h.answers.handled_le c
  · by_cases heq : c = client
    · subst heq
      simp only [Function.update_self, hthreads]
      exact hhandles
    · simp only [Function.update_of_ne heq, hthreads]
      exact (h.answers.handles c).mono hhit (hstamps ▸ Finset.Subset.refl _)

/-- Every message after the first is an order for a price that the client has received. -/
theorem Inv.next_order (h : s.Inv) {name message : Text}
    (hmessage : (outbox (s.programs client))[s.handled client]? = some message)
    (hthread : s.server.threads client = .receiving name) :
    ∃ price ∈ momentum ((s.written client).take (s.delivered client)),
      message = putInt price.id.val ∧
        s.server.recv client message =
          .ok (s.server.goto client (.hitting name message price.id.val)) := by
  have hprogram := h.receives.program client
  have hne := outbox_ne_nil hprogram (List.mem_of_getElem? hmessage)
  have hreceived := h.answers.handles client
  rw [hthread] at hreceived
  obtain ⟨first, orders, hmessages, -, -⟩ := hreceived
  have htake := take_handled s hmessage
  rw [hmessages] at htake
  have htail : message ∈ (outbox (s.programs client)).tail := by
    rw [← List.take_append_drop (s.handled client + 1) (outbox (s.programs client)), htake]
    simp
  obtain ⟨price, hprice, rfl⟩ := order_of_tail hprogram htail
  refine ⟨price, hprice, rfl, ?_⟩
  have hatoi : atoi (cString (putInt price.id.val)) = some price.id.val := by
    rw [cString_eq (nul_not_mem_putInt _), atoi_putInt]
  rw [PriceServer.recv, hthread]
  simp only [if_neg hne, hatoi]

theorem Inv.next_name (h : s.Inv) {message : Text}
    (hmessage : (outbox (s.programs client))[s.handled client]? = some message)
    (hthread : s.server.threads client = .naming) :
    s.server.recv client message =
      .ok (s.server.goto client (.receiving (cString message))) := by
  have hne := outbox_ne_nil (h.receives.program client) (List.mem_of_getElem? hmessage)
  rw [PriceServer.recv, hthread]
  exact if_neg hne

/-- The first message is taken for the name, and every other is an order for a known price. -/
theorem handle_inv (h : s.Inv) (hstep : s.handle client = .ok s') : s'.Inv := by
  rw [handle] at hstep
  split at hstep
  · rename_i message hmessage hthread
    split at hstep
    · have hrecv := h.next_name hmessage hthread
      have heffect := PriceServer.recv_effect hrecv
      have htracks := h.answers.tracks.effect heffect
      have hnone := h.answers.handles client
      rw [hthread] at hnone
      rw [hrecv] at hstep
      cases hstep
      refine h.turn rfl rfl (Finset.Subset.refl _) rfl htracks ?_
        (List.getElem?_eq_some_iff.mp hmessage).1 ?_ h.answers.source
      · exact heffect.asked h.answers.asked htracks (by rw [PriceServer.Asks, hthread]; trivial)
      · rw [take_handled s hmessage, show (outbox (s.programs client)).take (s.handled client) = []
          from hnone]
        exact ⟨message, [], rfl, rfl, by simp⟩
    · cases hstep
  · rename_i message name hmessage hthread
    split at hstep
    · obtain ⟨price, hprice, rfl, hrecv⟩ := h.next_order hmessage hthread
      have hreceived := h.answers.handles client
      rw [hthread] at hreceived
      obtain ⟨first, orders, hmessages, hname, horders⟩ := hreceived
      have hknown : price.id.val ∈ s.server.priceTimestamps :=
        h.sends.known client price (List.mem_of_mem_take (mem_of_mem_momentum hprice))
      have heffect := PriceServer.recv_effect hrecv
      have htracks := h.answers.tracks.effect heffect
      rw [hrecv] at hstep
      cases hstep
      refine h.turn rfl rfl (Finset.Subset.refl _) rfl htracks ?_
        (List.getElem?_eq_some_iff.mp hmessage).1 ?_ h.answers.source
      · refine heffect.asked h.answers.asked htracks ?_
        rw [PriceServer.Asks, hthread]
        exact fun _ => by rw [cString_eq (nul_not_mem_putInt _), atoi_putInt]; rfl
      · rw [take_handled s hmessage, hmessages]
        exact ⟨first, orders, rfl, hname, horders, rfl, hknown⟩
    · cases hstep
  · cases hstep

/-- An order for a known price is credited, or the price has been credited before. -/
theorem lock_inv (h : s.Inv) (hstep : s.lock client = .ok s') : s'.Inv := by
  rw [lock] at hstep
  split at hstep
  · rename_i name message id hthread
    cases hstep
    have hreceived := h.answers.handles client
    rw [hthread] at hreceived
    obtain ⟨first, orders, hmessages, hname, horders, hmessage, hknown⟩ := hreceived
    have htail : message ∈ (outbox (s.programs client)).tail := by
      rw [← List.take_append_drop (s.handled client) (outbox (s.programs client)), hmessages]
      simp
    have heffect : PriceServer.Effect (.lock client) s.server (s.server.lock client) :=
      PriceServer.lock_effect client
    have htracks := h.answers.tracks.effect heffect
    have hasked : (s.server.lock client).HitsAskedFor := by
      refine heffect.asked h.answers.asked htracks ?_
      rw [PriceServer.Asks, hthread]
      exact fun _ _ => hmessage
    have hhandled : s.handled = Function.update s.handled client (s.handled client) :=
      (Function.update_eq_self client s.handled).symm
    have hle := h.answers.handled_le client
    have hcredited : ∀ hits : Finset Int, s.server.priceAlreadyHit ⊆ hits → id ∈ hits →
        ∀ order ∈ orders ++ [message], ∃ id ∈ hits, order = putInt id := by
      intro hits hsubset hid order horder
      rcases List.mem_append.mp horder with horder | horder
      · obtain ⟨id', hid', heq⟩ := horders order horder
        exact ⟨id', hsubset hid', heq⟩
      · rw [List.mem_singleton.mp horder]
        exact ⟨id, hid, hmessage⟩
    rw [hhandled]
    by_cases hhit : id ∈ s.server.priceAlreadyHit
    · have hlock : s.server.lock client = s.server.goto client (.receiving name) := by
        rw [PriceServer.lock, hthread]
        exact if_pos hhit
      rw [hlock] at htracks hasked ⊢
      refine h.turn rfl rfl (Finset.Subset.refl _) rfl htracks hasked hle ?_ h.answers.source
      exact ⟨first, orders ++ [message], hmessages, hname,
        hcredited _ (Finset.Subset.refl _) hhit⟩
    · have hlock : s.server.lock client =
          { s.server.goto client (.receiving name) with
            priceAlreadyHit := insert id s.server.priceAlreadyHit
            log := s.server.log ++ [.hit client name id message] } := by
        rw [PriceServer.lock, hthread]
        exact (if_neg hhit).trans (if_neg (not_not.mpr hknown))
      rw [hlock] at htracks hasked ⊢
      refine h.turn rfl rfl (Finset.subset_insert _ _) rfl htracks hasked hle ?_ ?_
      · exact ⟨first, orders ++ [message], hmessages, hname,
          hcredited _ (Finset.subset_insert _ _) (Finset.mem_insert_self _ _)⟩
      · intro c name' id' message' hentry
        rcases List.mem_append.mp hentry with hentry | hentry
        · exact h.answers.source c name' id' message' hentry
        · cases List.mem_singleton.mp hentry
          exact htail
  · cases hstep

/-! ### The whole run -/

/-- The list of clients and the broadcasting thread are on one side only. -/
theorem Inv.queued {broadcaster : Broadcaster} {clients : List Nat} (h : s.Inv)
    (hsends : Sends { s with broadcaster := broadcaster, clients := clients }) :
    Inv { s with broadcaster := broadcaster, clients := clients } :=
  ⟨hsends, ⟨h.receives.delivered_le, h.receives.program⟩, h.answers.tracks, h.answers.asked,
    h.answers.handled_le, h.answers.handles, h.answers.source⟩

theorem step_inv (h : s.Inv) (hstep : s.step action = .ok s') : s'.Inv := by
  cases action with
  | connect client name => exact connect_inv h hstep
  | accept client =>
      have hsends := accept_sends h.sends hstep
      change s.accept client = .ok s' at hstep
      rw [accept] at hstep
      split at hstep
      · split at hstep
        · cases hstep
        · cases hstep
          exact h.queued hsends
      · cases hstep
  | stamp draw => exact stamp_inv h hstep
  | enter =>
      have hsends := enter_sends h.sends hstep
      change s.enter = .ok s' at hstep
      rw [enter] at hstep
      split at hstep
      · cases hstep
        exact h.queued hsends
      · cases hstep
  | send =>
      have hsends := send_sends h.sends hstep
      change s.send = .ok s' at hstep
      rw [send] at hstep
      split at hstep
      · cases hstep
        exact h.queued hsends
      · rename_i price client rest hsending
        cases hstep
        refine ⟨hsends, ⟨fun c => ?_, fun c name program hprogram => ?_⟩, h.answers.tracks,
          h.answers.asked, h.answers.handled_le, h.answers.handles, h.answers.source⟩
        · by_cases heq : c = client
          · subst heq
            simp only [Function.update_self, List.length_append]
            exact (h.receives.delivered_le c).trans (Nat.le_add_right ..)
          · simp only [Function.update_of_ne heq]
            exact h.receives.delivered_le c
        · by_cases heq : c = client
          · subst heq
            simp only [Function.update_self,
              List.take_append_of_le_length (h.receives.delivered_le c)]
            exact h.receives.program c name program hprogram
          · simp only [Function.update_of_ne heq]
            exact h.receives.program c name program hprogram
      · cases hstep
  | deliver client => exact deliver_inv h hstep
  | handle client => exact handle_inv h hstep
  | lock client => exact lock_inv h hstep

/-- Nothing is undefined and no client is ended by an exception. -/
theorem Inv.refused (h : s.Inv) {refusal : Refusal} (herror : s.step action = .error refusal) :
    refusal = .notReady := by
  cases action with
  | connect client name =>
      rw [step, connect] at herror
      split at herror <;> cases herror
      rfl
  | accept client =>
      rw [step, accept] at herror
      split at herror
      · split at herror <;> cases herror
        rfl
      · cases herror
        rfl
  | stamp draw =>
      rw [step, stamp] at herror
      split at herror
      · rw [dif_pos h.sends.counter] at herror
        cases herror
      · cases herror
        rfl
  | enter =>
      rw [step, enter] at herror
      split at herror <;> cases herror
      rfl
  | send =>
      rw [step, send] at herror
      split at herror <;> cases herror
      rfl
  | deliver client =>
      rw [step, deliver] at herror
      split at herror
      · rename_i name program price hprogram hprice
        rw [h.receives.program client name program hprogram, receive_message] at herror
        cases herror
      · cases herror
        rfl
  | handle client =>
      rw [step, handle] at herror
      split at herror
      · rename_i message hmessage hthread
        rw [h.next_name hmessage hthread] at herror
        split at herror <;> cases herror
        rfl
      · rename_i message name hmessage hthread
        obtain ⟨price, -, -, hrecv⟩ := h.next_order hmessage hthread
        rw [hrecv] at herror
        split at herror <;> cases herror
        rfl
      · cases herror
        rfl
  | lock client =>
      rw [step, lock] at herror
      split at herror <;> cases herror
      rfl

/-! ### Every order can be credited -/

/-- Nothing that a client has sent is on its way or before the lock. -/
def Settled (client : Nat) (s : PriceNetwork) : Prop :=
  s.handled client = (outbox (s.programs client)).length ∧
    ∀ name message id, s.server.threads client ≠ .hitting name message id

/-- The price of every order of a client has been credited. -/
def Credited (server : PriceServer) (program : Client) : Prop :=
  ∀ order ∈ program.sent, ∃ id ∈ server.priceAlreadyHit, order = putInt id

/-- The steps that the thread of a client has before it: two for each message, and the lock. -/
def pending (client : Nat) (s : PriceNetwork) : Nat :=
  2 * ((outbox (s.programs client)).length - s.handled client) +
    match s.server.threads client with
    | .hitting _ _ _ => 1
    | _ => 0

theorem lock_thread {server : PriceServer} {name message : Text} {id : Int}
    (hthread : server.threads client = .hitting name message id) :
    (server.lock client).threads client = .receiving name := by
  rw [PriceServer.lock, hthread]
  dsimp only
  split_ifs <;> exact Function.update_self ..

/-- A thread that is not done with its client has a step, which touches no client. -/
theorem Inv.advance (h : s.Inv) (hclient : client ∈ s.clients) (hnot : ¬ s.Settled client) :
    ∃ action s', s.step action = .ok s' ∧ s'.pending client < s.pending client ∧
      s'.clients = s.clients ∧ s'.programs = s.programs := by
  have hle := h.answers.handled_le client
  have hmessage : (∀ name message id, s.server.threads client ≠ .hitting name message id) →
      ∃ message, (outbox (s.programs client))[s.handled client]? = some message := fun hidle =>
    ⟨_, List.getElem?_eq_getElem (lt_of_le_of_ne hle fun heq => hnot ⟨heq, hidle⟩)⟩
  cases hthread : s.server.threads client with
  | naming =>
      obtain ⟨message, hmessage⟩ := hmessage (by rw [hthread]; rintro _ _ _ ⟨⟩)
      have hlt := (List.getElem?_eq_some_iff.mp hmessage).1
      have hstep : s.step (.handle client) = .ok { s with
          server := s.server.goto client (.receiving (cString message))
          handled := Function.update s.handled client (s.handled client + 1) } := by
        rw [step, handle, hmessage, hthread]
        simp only [if_pos hclient, h.next_name hmessage hthread]
      refine ⟨_, _, hstep, ?_, rfl, rfl⟩
      simp only [pending, PriceServer.goto, hthread, Function.update_self]
      omega
  | receiving name =>
      obtain ⟨message, hmessage⟩ := hmessage (by rw [hthread]; rintro _ _ _ ⟨⟩)
      have hlt := (List.getElem?_eq_some_iff.mp hmessage).1
      obtain ⟨price, -, -, hrecv⟩ := h.next_order hmessage hthread
      have hstep : s.step (.handle client) = .ok { s with
          server := s.server.goto client (.hitting name message price.id.val)
          handled := Function.update s.handled client (s.handled client + 1) } := by
        rw [step, handle, hmessage, hthread]
        simp only [if_pos hclient, hrecv]
      refine ⟨_, _, hstep, ?_, rfl, rfl⟩
      simp only [pending, PriceServer.goto, hthread, Function.update_self]
      omega
  | hitting name message id =>
      have hstep : s.step (.lock client) = .ok { s with server := s.server.lock client } := by
        rw [step, lock, hthread]
      refine ⟨_, _, hstep, ?_, rfl, rfl⟩
      simp only [pending, hthread, lock_thread hthread]
      omega
  | closed =>
      have hclosed := h.answers.handles client
      rw [hthread] at hclosed
      exact hclosed.elim

/-- Left alone, the thread of a client gets done with what the client has sent. -/
theorem Inv.settles (h : s.Inv) (hclient : client ∈ s.clients) :
    ∃ t, Run.Reaches (fun action s => s.step action) s t ∧ t.Inv ∧ t.Settled client ∧
      t.programs = s.programs := by
  induction hn : s.pending client using Nat.strong_induction_on generalizing s with
  | h n ih =>
      subst hn
      by_cases hsettled : s.Settled client
      · exact ⟨s, .refl s, h, hsettled, rfl⟩
      · obtain ⟨action, m, hstep, hless, hclients, hprograms⟩ := h.advance hclient hsettled
        obtain ⟨t, hreach, ht, hdone, hprograms'⟩ :=
          ih _ hless (step_inv h hstep) (hclients ▸ hclient) rfl
        exact ⟨t, .head hstep hreach, ht, hdone, hprograms'.trans hprograms⟩

/-- Left alone, the broadcasting thread leaves `clientsMutex`. -/
theorem Inv.leaves (h : s.Inv) :
    ∃ t, Run.Reaches (fun action s => s.step action) s t ∧ t.Inv ∧
      (∀ price rest, t.broadcaster ≠ .sending price rest) ∧ t.clients = s.clients ∧
      t.programs = s.programs := by
  cases hbroadcaster : s.broadcaster with
  | sleeping => exact ⟨s, .refl s, h, by rw [hbroadcaster]; rintro _ _ ⟨⟩, rfl, rfl⟩
  | stamped price => exact ⟨s, .refl s, h, by rw [hbroadcaster]; rintro _ _ ⟨⟩, rfl, rfl⟩
  | sending price rest =>
      induction rest generalizing s with
      | nil =>
          have hstep : s.step .send = .ok { s with broadcaster := .sleeping } := by
            rw [step, send, hbroadcaster]
          exact ⟨_, .head hstep (.refl _), step_inv h hstep, by rintro _ _ ⟨⟩, rfl, rfl⟩
      | cons client rest ih =>
          have hstep : s.step .send = .ok { s with
              written := Function.update s.written client (s.written client ++ [price])
              broadcaster := .sending price rest } := by
            rw [step, send, hbroadcaster]
          obtain ⟨t, hreach, ht⟩ := ih (step_inv h hstep) rfl
          exact ⟨t, .head hstep hreach, ht⟩

/-- A client that has connected can be entered. -/
theorem Inv.enters (h : s.Inv) (hconnected : s.programs client ≠ none) :
    ∃ t, Run.Reaches (fun action s => s.step action) s t ∧ t.Inv ∧ client ∈ t.clients ∧
      t.programs = s.programs := by
  by_cases hclient : client ∈ s.clients
  · exact ⟨s, .refl s, h, hclient, rfl⟩
  · obtain ⟨m, hreach, hm, hidle, hclients, hprograms⟩ := h.leaves
    have hstep : m.step (.accept client) = .ok { m with clients := m.clients ++ [client] } := by
      rw [step, accept, if_pos ⟨hprograms ▸ hconnected, hclients ▸ hclient⟩]
      cases hbroadcaster : m.broadcaster with
      | sleeping => rfl
      | stamped price => rfl
      | sending price rest => exact absurd hbroadcaster (hidle price rest)
    exact ⟨_, hreach.trans (.head hstep (.refl _)), step_inv hm hstep,
      List.mem_append_right _ (List.mem_singleton_self _), hprograms⟩

/-- Every order of a client with a name has been credited once its thread is done. -/
theorem Inv.credited (h : s.Inv) (hsettled : s.Settled client) {name : Text} {program : Client}
    (hprogram : s.programs client = some (name, program)) (hname : name ≠ []) :
    Credited s.server program := by
  obtain ⟨hall, hidle⟩ := hsettled
  have hhandles := h.answers.handles client
  rw [hall, List.take_length, hprogram, outbox, if_neg hname, List.singleton_append] at hhandles
  cases hthread : s.server.threads client with
  | naming =>
      rw [hthread] at hhandles
      cases hhandles
  | receiving name' =>
      rw [hthread] at hhandles
      obtain ⟨first, orders, hmessages, -, horders⟩ := hhandles
      obtain ⟨-, rfl⟩ := List.cons.inj hmessages
      exact horders
  | hitting name' message id => exact absurd hthread (hidle name' message id)
  | closed =>
      rw [hthread] at hhandles
      exact hhandles.elim

/-! ### The market -/

/-- **The price market.** However the server, its threads and the clients take turns, as long as
each message is received whole: every client has decoded the first of the prices written to it,
none of which is skipped, and has sent an order exactly where the last three rise or fall; a
thread never comes to the lock with a price that is not known; each credited price was ordered by
the client it is credited to, and had not been credited; and every order of a client with a name
is credited, to it or to another, once the client's thread is done with it, which the server can
bring about from every state. -/
theorem orders_credited (actions : List Action) :
    Run.Always (fun action s => s.step action) actions start fun s =>
      (∀ action refusal, s.step action = .error refusal → refusal = .notReady) ∧
      (∀ client name program, s.programs client = some (name, program) →
        program = .after ((s.written client).take (s.delivered client))) ∧
      (∀ client, (s.written client).IsChain fun p q => q.id.val = nextId p.id) ∧
      s.server.HitsAskedFor ∧
      (∀ client name message id, s.server.threads client = .hitting name message id →
        id ∈ s.server.priceTimestamps) ∧
      (∀ client name id message, .hit client name id message ∈ s.server.log →
        ∃ price ∈ momentum ((s.written client).take (s.delivered client)),
          price.id.val = id) ∧
      (∀ client name program, s.programs client = some (name, program) → name ≠ [] →
        (s.Settled client → Credited s.server program) ∧
          ∃ t, Run.Reaches (fun action s => s.step action) s t ∧ t.programs = s.programs ∧
            Credited t.server program) := by
  intro pre _ s hs
  have h : s.Inv := Run.run_invariant (fun _ _ _ h hstep => step_inv h hstep) start_inv hs
  refine ⟨fun _ _ => h.refused, h.receives.program, h.sends.chain, h.answers.asked, ?_, ?_, ?_⟩
  · intro client name message id hthread
    have hhandles := h.answers.handles client
    rw [hthread] at hhandles
    obtain ⟨-, -, -, -, -, -, hknown⟩ := hhandles
    exact hknown
  · intro client name id message hhit
    obtain ⟨price, hprice, hmessage⟩ := order_of_tail (h.receives.program client)
      (h.answers.source client name id message hhit)
    obtain ⟨before, after, hlog⟩ := List.append_of_mem hhit
    have hliteral : message = putInt id := (h.answers.asked before _ after hlog).2
    exact ⟨price, hprice, putInt_injective (hmessage.symm.trans hliteral)⟩
  · intro client name program hprogram hname
    refine ⟨fun hsettled => h.credited hsettled hprogram hname, ?_⟩
    obtain ⟨m, hentered, hm, hclient, hprograms⟩ :=
      h.enters (by rw [hprogram]; exact Option.some_ne_none _)
    obtain ⟨t, hreach, ht, hsettled, hprograms'⟩ := hm.settles hclient
    have hsame := hprograms'.trans hprograms
    exact ⟨t, hentered.trans hreach, hsame, ht.credited hsettled (hsame ▸ hprogram) hname⟩

end PriceNetwork

end HftProject.Week2.Phase2
