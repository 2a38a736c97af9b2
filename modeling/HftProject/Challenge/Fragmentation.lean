import HftProject.Challenge.Fragments

/-!
The client that reads a message in fragments against the client that reads it as a single
packet. Both send the same response if the `CHALLENGE_ID` line, the `TARGET` line and the
target's `SEC` line are whole, the latter in the fragment of the `CHALLENGE_ID` line, and if
nothing is sent before (`fragments_transparent_iff`).
-/

namespace HftProject

variable {D : Type}

namespace Client

/-! ### The globals -/

theorem applyUpdates_cons (market : Text → Option (D × D)) (update : Text × D × D)
    (updates : List (Text × D × D)) :
    applyUpdates market (update :: updates) =
      applyUpdates (Function.update market update.1 (some update.2)) updates := rfl

theorem applyUpdates_absent {updates : List (Text × D × D)} {ticker : Text}
    (h : ∀ quote, (ticker, quote) ∉ updates) (market : Text → Option (D × D)) :
    applyUpdates market updates ticker = market ticker := by
  induction updates generalizing market with
  | nil => rfl
  | cons update updates ih =>
      have hne : ticker ≠ update.1 := by
        rintro rfl
        exact h update.2 List.mem_cons_self
      rw [applyUpdates_cons, ih fun quote hmem => h quote (List.mem_cons_of_mem update hmem),
        Function.update_of_ne hne]

theorem applyUpdates_mem {updates : List (Text × D × D)} {ticker : Text} {quote : D × D}
    (market : Text → Option (D × D)) (h : applyUpdates market updates ticker = some quote) :
    market ticker = some quote ∨ (ticker, quote) ∈ updates := by
  induction updates generalizing market with
  | nil => exact .inl h
  | cons update updates ih =>
      rcases ih (Function.update market update.1 (some update.2)) h with hmarket | hrest
      · by_cases heq : ticker = update.1
        · subst heq
          rw [Function.update_self] at hmarket
          cases hmarket
          exact .inr List.mem_cons_self
        · rw [Function.update_of_ne heq] at hmarket
          exact .inl hmarket
      · exact .inr (List.mem_cons_of_mem update hrest)

theorem applyUpdates_isSome {updates : List (Text × D × D)} {ticker : Text}
    (market : Text → Option (D × D))
    (h : market ticker ≠ none ∨ ∃ quote, (ticker, quote) ∈ updates) :
    applyUpdates market updates ticker ≠ none := by
  induction updates generalizing market with
  | nil => exact h.resolve_right (by simp)
  | cons update updates ih =>
      rw [applyUpdates_cons]
      apply ih
      by_cases heq : ticker = update.1
      · subst heq
        rw [Function.update_self]
        exact .inl (by simp)
      · rw [Function.update_of_ne heq]
        refine h.imp_right fun ⟨quote, hmem⟩ => ⟨quote, (List.mem_cons.mp hmem).resolve_left ?_⟩
        rintro rfl
        exact heq rfl

theorem check_eq_some {s : Client D} {response : Response D} :
    s.check = some response ↔
      s.currentChallengeId ≠ -1 ∧ s.currentTargetTicker ≠ [] ∧
        ∃ quote, s.currentMarketData s.currentTargetTicker = some quote ∧
          response = ⟨s.currentChallengeId, s.currentTargetTicker, quote.1, quote.2⟩ := by
  rw [check]
  split
  · rename_i hset
    rw [Option.map_eq_some_iff]
    constructor
    · rintro ⟨quote, hquote, rfl⟩
      exact ⟨hset.1, hset.2, quote, hquote, rfl⟩
    · rintro ⟨-, -, quote, hquote, rfl⟩
      exact ⟨quote, hquote, rfl⟩
  · rename_i hunset
    constructor
    · intro h
      cases h
    · rintro ⟨hid, htarget, -⟩
      exact absurd ⟨hid, htarget⟩ hunset

/-- Either a response is sent and the globals are reset, or not. -/
theorem process_cases (parsed : Parsed D) (s : Client D) :
    ((s.update parsed).check = none ∧ s.process parsed = (s.update parsed, none)) ∨
      ∃ response, (s.update parsed).check = some response ∧
        s.process parsed = ((s.update parsed).reset, some response) := by
  cases hcheck : (s.update parsed).check with
  | none =>
      refine .inl ⟨rfl, ?_⟩
      simp only [process, hcheck]
  | some response =>
      refine .inr ⟨response, rfl, ?_⟩
      simp only [process, hcheck]

/-! ### A single worker -/

/-- The worker, on what the packets say. -/
def processParsed : List (Parsed D) → Client D → Client D × List (Response D)
  | [], s => (s, [])
  | parsed :: rest, s =>
      let (s, response) := s.process parsed
      let (s, responses) := processParsed rest s
      (s, response.toList ++ responses)

theorem processAll_eq (fmt : PriceFormat D) (packets : List Text) (s : Client D) :
    processAll fmt packets s = processParsed (packets.map (parsePacket fmt)) s := by
  induction packets generalizing s with
  | nil => rfl
  | cons packet packets ih =>
      rw [processAll, List.map_cons, processParsed]
      simp only [ih]
      rfl

theorem processParsed_cons (parsed : Parsed D) (rest : List (Parsed D)) (s : Client D) :
    processParsed (parsed :: rest) s =
      ((processParsed rest (s.process parsed).1).1,
        (s.process parsed).2.toList ++ (processParsed rest (s.process parsed).1).2) := rfl

theorem processParsed_append (before rest : List (Parsed D)) (s : Client D) :
    processParsed (before ++ rest) s =
      ((processParsed rest (processParsed before s).1).1,
        (processParsed before s).2 ++ (processParsed rest (processParsed before s).1).2) := by
  induction before generalizing s with
  | nil => rfl
  | cons parsed before ih =>
      rw [List.cons_append, processParsed_cons, processParsed_cons, ih, List.append_assoc]

/-! ### Under one id -/

theorem update_challengeId {parsed : Parsed D} (h : parsed.challengeId = none) (s : Client D) :
    (s.update parsed).currentChallengeId = s.currentChallengeId := by
  rw [update, h]
  rfl

theorem process_challengeId (parsed : Parsed D) (s : Client D) :
    (s.process parsed).1.currentChallengeId = (s.update parsed).currentChallengeId := by
  rcases process_cases parsed s with ⟨-, heq⟩ | ⟨response, -, heq⟩
  · rw [heq]
  · rw [heq]
    rfl

theorem process_response {parsed : Parsed D} {s : Client D} {response : Response D}
    (h : (s.process parsed).2 = some response) : (s.update parsed).check = some response := by
  rcases process_cases parsed s with ⟨-, heq⟩ | ⟨response', hcheck, heq⟩
  · rw [heq] at h
    cases h
  · rw [heq] at h
    cases h
    exact hcheck

/-- Packets without a `CHALLENGE_ID` line leave the id as it is, and what is sent carries it. -/
theorem processParsed_sameId {packets : List (Parsed D)}
    (h : ∀ parsed ∈ packets, parsed.challengeId = none) (s : Client D) :
    (processParsed packets s).1.currentChallengeId = s.currentChallengeId ∧
      ∀ response ∈ (processParsed packets s).2,
        response.challengeId = s.currentChallengeId ∧ s.currentChallengeId ≠ -1 := by
  induction packets generalizing s with
  | nil => exact ⟨rfl, by simp [processParsed]⟩
  | cons parsed rest ih =>
      have hid : (s.process parsed).1.currentChallengeId = s.currentChallengeId := by
        rw [process_challengeId, update_challengeId (h parsed List.mem_cons_self)]
      obtain ⟨hlast, hrest⟩ :=
        ih (fun p hp => h p (List.mem_cons_of_mem parsed hp)) (s.process parsed).1
      rw [hid] at hlast hrest
      rw [processParsed_cons]
      refine ⟨hlast, fun response hmem => ?_⟩
      rcases List.mem_append.mp hmem with hfirst | hlater
      · rw [Option.mem_toList] at hfirst
        obtain ⟨hset, -, quote, -, rfl⟩ := check_eq_some.mp (process_response hfirst)
        rw [update_challengeId (h parsed List.mem_cons_self)] at hset ⊢
        exact ⟨rfl, hset⟩
      · exact hrest response hlater

/-! ### When nothing is sent -/

/-- The client has no quote for the tickers of `K`, of which its target is one, if it has a
target. -/
structure Silent (K : Text → Prop) (s : Client D) : Prop where
  target : s.currentTargetTicker = [] ∨ K s.currentTargetTicker
  unquoted : ∀ ticker, K ticker → s.currentMarketData ticker = none

/-- The packet has no id, no quotes of the tickers of `K`, and only these as target. -/
structure Beside (K : Text → Prop) (parsed : Parsed D) : Prop where
  noId : parsed.challengeId = none
  target : ∀ ticker, parsed.target = some ticker → K ticker
  updates : ∀ ticker quote, (ticker, quote) ∈ parsed.secUpdates → ¬ K ticker

variable {K : Text → Prop}

theorem Silent.of_noTarget {s : Client D} (h : s.currentTargetTicker = []) :
    s.Silent fun _ => False :=
  ⟨.inl h, fun _ hfalse => hfalse.elim⟩

theorem Beside.of_noTarget {parsed : Parsed D} (hid : parsed.challengeId = none)
    (htarget : parsed.target = none) : Beside (fun _ => False) parsed :=
  ⟨hid, by simp [htarget], fun _ _ _ hfalse => hfalse⟩

theorem Silent.update {s : Client D} (hs : s.Silent K) {parsed : Parsed D}
    (h : Beside K parsed) : (s.update parsed).Silent K := by
  rw [Client.update, h.noId]
  constructor
  · cases htarget : parsed.target with
    | none => exact hs.target
    | some ticker => exact .inr (h.target ticker htarget)
  · intro ticker hticker
    have hunquoted := applyUpdates_absent (fun quote hmem => h.updates ticker quote hmem hticker)
      s.currentMarketData
    exact hunquoted.trans (hs.unquoted ticker hticker)

theorem Silent.check {s : Client D} (hs : s.Silent K) : s.check = none := by
  rw [Option.eq_none_iff_forall_not_mem]
  intro response hresponse
  obtain ⟨-, htarget, quote, hquote, -⟩ := check_eq_some.mp hresponse
  rcases hs.target with hnil | hK
  · exact htarget hnil
  · rw [hs.unquoted _ hK] at hquote
    cases hquote

theorem Silent.process {s : Client D} (hs : s.Silent K) {parsed : Parsed D}
    (h : Beside K parsed) : s.process parsed = (s.update parsed, none) := by
  rcases process_cases parsed s with ⟨-, heq⟩ | ⟨response, hcheck, -⟩
  · exact heq
  · rw [(hs.update h).check] at hcheck
    cases hcheck

theorem Silent.processParsed {packets : List (Parsed D)} (h : ∀ parsed ∈ packets, Beside K parsed)
    {s : Client D} (hs : s.Silent K) :
    (processParsed packets s).2 = [] ∧ (processParsed packets s).1.Silent K := by
  induction packets generalizing s with
  | nil => exact ⟨rfl, hs⟩
  | cons parsed rest ih =>
      have hparsed := h parsed List.mem_cons_self
      obtain ⟨hrest, hlast⟩ :=
        ih (fun p hp => h p (List.mem_cons_of_mem parsed hp)) (hs.update hparsed)
      rw [processParsed_cons, hs.process hparsed]
      exact ⟨hrest, hlast⟩

/-! ### Before the `CHALLENGE_ID` line -/

/-- Packets of quotes, of which none quotes the target or finds it quoted. -/
theorem processParsed_quiet {packets : List (Parsed D)}
    (h : ∀ parsed ∈ packets, parsed.challengeId = none ∧ parsed.target = none) {s : Client D}
    (hquiet : s.currentTargetTicker = [] ∨ ∀ parsed ∈ packets,
      s.currentMarketData s.currentTargetTicker = none ∧
        ∀ quote, (s.currentTargetTicker, quote) ∉ parsed.secUpdates) :
    (processParsed packets s).2 = [] := by
  cases packets with
  | nil => rfl
  | cons first rest =>
      rcases hquiet with hnil | hwaits
      · exact ((Silent.of_noTarget hnil).processParsed fun parsed hmem =>
          .of_noTarget (h parsed hmem).1 (h parsed hmem).2).1
      · have hunquoted := (hwaits first List.mem_cons_self).1
        have hsilent : s.Silent (· = s.currentTargetTicker) :=
          ⟨.inr rfl, fun ticker hticker => hticker ▸ hunquoted⟩
        refine (hsilent.processParsed fun parsed hmem => ?_).1
        obtain ⟨hid, htarget⟩ := h parsed hmem
        refine ⟨hid, by simp [htarget], ?_⟩
        rintro ticker quote hquote rfl
        exact (hwaits parsed hmem).2 quote hquote

/-- Packets of quotes, of which one quotes the target or finds it quoted. -/
theorem quiet_of_processParsed {packets : List (Parsed D)}
    (h : ∀ parsed ∈ packets, parsed.challengeId = none ∧ parsed.target = none) {s : Client D}
    (hid : s.currentChallengeId ≠ -1) (htarget : s.currentTargetTicker ≠ [])
    (hnone : (processParsed packets s).2 = []) :
    ∀ parsed ∈ packets, s.currentMarketData s.currentTargetTicker = none ∧
      ∀ quote, (s.currentTargetTicker, quote) ∉ parsed.secUpdates := by
  induction packets generalizing s with
  | nil => simp
  | cons first rest ih =>
      rw [processParsed_cons] at hnone
      obtain ⟨hfirst, hrest⟩ := List.append_eq_nil_iff.mp hnone
      obtain ⟨hnoId, hnoTarget⟩ := h first List.mem_cons_self
      have hupdate : s.update first =
          { s with currentMarketData := applyUpdates s.currentMarketData first.secUpdates } := by
        rw [update, hnoId, hnoTarget]
        rfl
      rcases process_cases first s with ⟨hcheck, hprocess⟩ | ⟨response, -, hprocess⟩
      · rw [hprocess, hupdate] at hrest
        rw [hupdate] at hcheck
        have hunquoted : applyUpdates s.currentMarketData first.secUpdates s.currentTargetTicker =
            none := by
          by_contra hquoted
          obtain ⟨quote, hquote⟩ := Option.ne_none_iff_exists'.mp hquoted
          have hsome := (check_eq_some (s := { s with
            currentMarketData := applyUpdates s.currentMarketData first.secUpdates })).mpr
            ⟨hid, htarget, quote, hquote, rfl⟩
          rw [hsome] at hcheck
          cases hcheck
        have hwaits : s.currentMarketData s.currentTargetTicker = none ∧
            ∀ quote, (s.currentTargetTicker, quote) ∉ first.secUpdates := by
          constructor
          · by_contra hquoted
            exact applyUpdates_isSome _ (.inl hquoted) hunquoted
          · intro quote hquote
            exact applyUpdates_isSome _ (.inr ⟨quote, hquote⟩) hunquoted
        intro parsed hmem
        rcases List.mem_cons.mp hmem with rfl | hlater
        · exact hwaits
        · have hlast := ih (fun p hp => h p (List.mem_cons_of_mem first hp)) (s := { s with
            currentMarketData := applyUpdates s.currentMarketData first.secUpdates })
            hid htarget hrest parsed hlater
          exact ⟨hwaits.1, hlast.2⟩
      · rw [hprocess] at hfirst
        cases hfirst

/-! ### Behind the `CHALLENGE_ID` line -/

/-- A new id: the quotes of its packet are kept, and then the target is looked at. -/
theorem process_newChallenge {parsed : Parsed D} {id : Int} (h : parsed.challengeId = some id)
    {s : Client D} (hne : id ≠ s.currentChallengeId) :
    s.process parsed =
      (⟨applyUpdates (fun _ => none) parsed.secUpdates, id, []⟩ : Client D).process
        { parsed with secUpdates := [], challengeId := none } := by
  have hupdate : s.update parsed =
      (⟨applyUpdates (fun _ => none) parsed.secUpdates, id, []⟩ : Client D).update
        { parsed with secUpdates := [], challengeId := none } := by
    rw [update, h, newChallenge, if_pos hne]
    rfl
  rw [process, process, hupdate]

/-- A packet that has the target, or nothing. -/
def OnlyTarget (ticker : Text) (parsed : Parsed D) : Prop :=
  parsed = .nothing ∨ parsed = ⟨[], none, some ticker⟩

theorem OnlyTarget.beside {ticker : Text} {parsed : Parsed D} (h : OnlyTarget ticker parsed) :
    Beside (· = ticker) parsed := by
  rcases h with rfl | rfl
  · exact ⟨rfl, by simp [Parsed.nothing], by simp [Parsed.nothing]⟩
  · exact ⟨rfl, by simp, by simp⟩

/-- The response goes out with the target. -/
theorem processParsed_answered {ticker : Text} {quote : D × D} {packets : List (Parsed D)}
    (h : ∀ parsed ∈ packets, OnlyTarget ticker parsed) (hmem : ⟨[], none, some ticker⟩ ∈ packets)
    {s : Client D} (hid : s.currentChallengeId ≠ -1) (hticker : ticker ≠ [])
    (htarget : s.currentTargetTicker = []) (hquote : s.currentMarketData ticker = some quote) :
    (processParsed packets s).2 = [⟨s.currentChallengeId, ticker, quote.1, quote.2⟩] := by
  induction packets with
  | nil => exact absurd hmem (by simp)
  | cons first rest ih =>
      have hrest : ∀ parsed ∈ rest, OnlyTarget ticker parsed :=
        fun parsed hlater => h parsed (List.mem_cons_of_mem first hlater)
      rw [processParsed_cons]
      rcases h first List.mem_cons_self with rfl | rfl
      · have hnothing : s.process .nothing = (s, none) :=
          (Silent.of_noTarget htarget).process (.of_noTarget rfl rfl)
        rw [hnothing]
        exact ih hrest ((List.mem_cons.mp hmem).resolve_left (by simp [Parsed.nothing]))
      · have hanswer : s.process ⟨[], none, some ticker⟩ =
            ((s.update ⟨[], none, some ticker⟩).reset,
              some ⟨s.currentChallengeId, ticker, quote.1, quote.2⟩) := by
          have hcheck : (s.update ⟨[], none, some ticker⟩).check =
              some ⟨s.currentChallengeId, ticker, quote.1, quote.2⟩ :=
            check_eq_some.mpr ⟨hid, hticker, quote, hquote, rfl⟩
          simp only [process, hcheck]
        have hsilent : (s.update ⟨[], none, some ticker⟩).reset.Silent (· = ticker) :=
          ⟨.inl rfl, fun _ _ => rfl⟩
        rw [hanswer, (hsilent.processParsed fun parsed hlater => (hrest parsed hlater).beside).1]
        rfl

end Client

/-! ### Fragments -/

open Challenge Lines

variable (fmt : PriceFormat D)

/-- The client does not respond to what it waits for while it reads the first `k` fragments, if
they have `SEC` lines only. -/
def Client.Quiet (fragmentSize : Nat) (c : Challenge D) (k : Nat) (s : Client D) : Prop :=
  s.currentChallengeId = -1 ∨ s.currentTargetTicker = [] ∨
    ∀ j < k, s.currentMarketData s.currentTargetTicker = none ∧
      ∀ bid ask, .sec s.currentTargetTicker bid ask ∉ c.whole fmt fragmentSize j

/-- The `CHALLENGE_ID` and the `TARGET` line are whole, and the target's `SEC` line is whole in
the fragment of the `CHALLENGE_ID` line, before which the client is quiet. -/
def WellCut (fragmentSize : Nat) (c : Challenge D) (s : Client D) : Prop :=
  ∃ k, c.idLine ∈ c.whole fmt fragmentSize k ∧
    (∃ bid ask, .sec c.targetTicker.toList bid ask ∈ c.whole fmt fragmentSize k) ∧
    (∃ j, c.targetLine ∈ c.whole fmt fragmentSize j) ∧ s.Quiet fmt fragmentSize c k

theorem range_split {k n : Nat} (h : k < n) :
    ∃ rest, List.range n = List.range k ++ k :: rest ∧ ∀ j, j ∈ rest ↔ k < j ∧ j < n := by
  obtain ⟨m, rfl⟩ := Nat.exists_eq_add_of_lt h
  refine ⟨(List.range m).map fun i => k + 1 + i, ?_, fun j => ?_⟩
  · rw [Nat.add_assoc, List.range_add, List.range_succ_eq_map, List.map_cons, List.map_map]
    have hshift : (fun i => k + i) ∘ Nat.succ = fun i => k + 1 + i := by
      funext i
      exact Nat.add_right_comm k i 1
    rw [hshift, Nat.add_zero]
  · rw [List.mem_map]
    constructor
    · rintro ⟨i, hi, rfl⟩
      have hlt := List.mem_range.mp hi
      omega
    · rintro ⟨hk, hn⟩
      exact ⟨j - (k + 1), List.mem_range.mpr (by omega), by omega⟩

variable {c : Challenge D} {fragmentSize : Nat} {s : Client D}

theorem contents_noId (js : List Nat) (h : ∀ j ∈ js, c.idLine ∉ c.whole fmt fragmentSize j) :
    ∀ parsed ∈ js.map (c.content fmt fragmentSize), parsed.challengeId = none := by
  intro parsed hmem
  obtain ⟨j, hj, rfl⟩ := List.mem_map.mp hmem
  exact content_challengeId_none fmt (h j hj)

/-- Waiting for a quote, by packets and by lines. -/
theorem waits_iff {n : Nat} :
    (∀ parsed ∈ (List.range n).map (c.content fmt fragmentSize),
      s.currentMarketData s.currentTargetTicker = none ∧
        ∀ quote, (s.currentTargetTicker, quote) ∉ parsed.secUpdates) ↔
      ∀ j < n, s.currentMarketData s.currentTargetTicker = none ∧
        ∀ bid ask, .sec s.currentTargetTicker bid ask ∉ c.whole fmt fragmentSize j := by
  constructor
  · intro h j hj
    obtain ⟨hdata, hupdates⟩ := h _ (List.mem_map_of_mem (List.mem_range.mpr hj))
    exact ⟨hdata, fun bid ask hline =>
      hupdates _ ((mem_content_secUpdates fmt).mpr ⟨bid, ask, hline, rfl⟩)⟩
  · intro h parsed hmem
    obtain ⟨j, hj, rfl⟩ := List.mem_map.mp hmem
    obtain ⟨hdata, hlines⟩ := h j (List.mem_range.mp hj)
    refine ⟨hdata, fun quote hquote => ?_⟩
    obtain ⟨bid, ask, hline, -⟩ := (mem_content_secUpdates fmt).mp hquote
    exact hlines bid ask hline

/-- Fragments with `SEC` lines only. -/
theorem quiet_iff {n : Nat} (h : ∀ j < n, c.idLine ∉ c.whole fmt fragmentSize j ∧
      c.targetLine ∉ c.whole fmt fragmentSize j) :
    (Client.processParsed ((List.range n).map (c.content fmt fragmentSize)) s).2 = [] ↔
      s.Quiet fmt fragmentSize c n := by
  have hquotes : ∀ parsed ∈ (List.range n).map (c.content fmt fragmentSize),
      parsed.challengeId = none ∧ parsed.target = none := by
    intro parsed hmem
    obtain ⟨j, hj, rfl⟩ := List.mem_map.mp hmem
    obtain ⟨hid, htarget⟩ := h j (List.mem_range.mp hj)
    exact ⟨content_challengeId_none fmt hid, content_target_none fmt htarget⟩
  constructor
  · intro hnone
    by_cases hid : s.currentChallengeId = -1
    · exact .inl hid
    by_cases htarget : s.currentTargetTicker = []
    · exact .inr (.inl htarget)
    exact .inr (.inr ((waits_iff fmt).mp
      (Client.quiet_of_processParsed hquotes hid htarget hnone)))
  · rintro (hid | htarget | hwaits)
    · have hsent := (Client.processParsed_sameId (fun parsed hmem => (hquotes parsed hmem).1) s).2
      exact List.eq_nil_iff_forall_not_mem.mpr fun response hmem => (hsent response hmem).2 hid
    · exact Client.processParsed_quiet hquotes (.inl htarget)
    · exact Client.processParsed_quiet hquotes (.inr ((waits_iff fmt).mpr hwaits))

/-- What is sent before the fragment with the `CHALLENGE_ID` line. -/
theorem before_iff_quiet {k : Nat} (hk : c.idLine ∈ c.whole fmt fragmentSize k) :
    (Client.processParsed ((List.range k).map (c.content fmt fragmentSize)) s).2 = [] ↔
      s.Quiet fmt fragmentSize c k :=
  quiet_iff fmt fun _ hj => not_mem_whole_of_before fmt hk hj

/-- The client when it has read the new id and the quotes of its fragment. -/
def Challenge.opened (fragmentSize : Nat) (c : Challenge D) (k : Nat) : Client D :=
  ⟨Client.applyUpdates (fun _ => none) (c.content fmt fragmentSize k).secUpdates, c.challengeId, []⟩

/-- The target, if the fragment has it. -/
def Challenge.targetOf (fragmentSize : Nat) (c : Challenge D) (k : Nat) : Parsed D :=
  ⟨[], none, (c.content fmt fragmentSize k).target⟩

theorem onlyTarget_targetOf (js : List Nat) : ∀ parsed ∈ js.map (c.targetOf fmt fragmentSize),
    Client.OnlyTarget c.targetTicker.toList parsed := by
  intro parsed hmem
  obtain ⟨j, -, rfl⟩ := List.mem_map.mp hmem
  by_cases htarget : c.targetLine ∈ c.whole fmt fragmentSize j
  · exact .inr (by rw [targetOf, content_target fmt htarget])
  · exact .inl (by rw [targetOf, content_target_none fmt htarget]; rfl)

/-- From the fragment with the `CHALLENGE_ID` line on, only the target is waited for. -/
theorem processParsed_behind (hid : s.currentChallengeId ≠ c.challengeId) {k : Nat}
    (hk : c.idLine ∈ c.whole fmt fragmentSize k) {rest : List Nat} (hrest : ∀ j ∈ rest, k < j) :
    Client.processParsed ((k :: rest).map (c.content fmt fragmentSize)) s =
      Client.processParsed ((k :: rest).map (c.targetOf fmt fragmentSize))
        (c.opened fmt fragmentSize k) := by
  have hfirst := Client.process_newChallenge (content_challengeId fmt hk) (Ne.symm hid)
  have hlater : rest.map (c.content fmt fragmentSize) = rest.map (c.targetOf fmt fragmentSize) :=
    List.map_congr_left fun j hj => content_behind fmt hk (hrest j hj)
  rw [List.map_cons, Client.processParsed_cons, hfirst, ← Client.processParsed_cons, hlater]
  rfl

/-- The quotes that are kept when the id is read. -/
theorem opened_quote {k : Nat} {ticker : Text} {quote : D × D}
    (h : (c.opened fmt fragmentSize k).currentMarketData ticker = some quote) :
    ∃ bid ask, .sec ticker bid ask ∈ c.whole fmt fragmentSize k ∧
      quote = (fmt.shown bid, fmt.shown ask) :=
  (mem_content_secUpdates fmt).mp ((Client.applyUpdates_mem _ h).resolve_left (by simp))

theorem opened_silent {k : Nat}
    (h : ∀ bid ask, .sec c.targetTicker.toList bid ask ∉ c.whole fmt fragmentSize k) :
    (c.opened fmt fragmentSize k).Silent (· = c.targetTicker.toList) := by
  refine ⟨.inl rfl, ?_⟩
  rintro ticker rfl
  by_contra hquoted
  obtain ⟨quote, hfound⟩ := Option.ne_none_iff_exists'.mp hquoted
  obtain ⟨bid, ask, hline, -⟩ := opened_quote fmt hfound
  exact h bid ask hline

/-- A quote of the fragment, where there was none of its ticker. -/
theorem applied_quote (hc : c.Plain) {k : Nat} {ticker : Text} {bid ask : D}
    (hquote : .sec ticker bid ask ∈ c.whole fmt fragmentSize k) {market : Text → Option (D × D)}
    (hmarket : market ticker = none) :
    Client.applyUpdates market (c.content fmt fragmentSize k).secUpdates ticker =
      some (fmt.shown bid, fmt.shown ask) := by
  have hsome := Client.applyUpdates_isSome market
    (.inr ⟨_, (mem_content_secUpdates fmt).mpr ⟨bid, ask, hquote, rfl⟩⟩)
  obtain ⟨quote, hfound⟩ := Option.ne_none_iff_exists'.mp hsome
  have hupdate := (Client.applyUpdates_mem _ hfound).resolve_left (by simp [hmarket])
  obtain ⟨bid', ask', hline, rfl⟩ := (mem_content_secUpdates fmt).mp hupdate
  obtain ⟨rfl, rfl⟩ := hc.quote_unique (sec_mem_whole fmt hquote).1 (sec_mem_whole fmt hline).1
  exact hfound

/-- What is sent from the fragment with the `CHALLENGE_ID` line on. -/
theorem behind_iff (hc : c.Plain) {bid ask : D} (hentry : (c.targetTicker, bid, ask) ∈ c.marketData)
    (hid : s.currentChallengeId ≠ c.challengeId) {k : Nat}
    (hk : c.idLine ∈ c.whole fmt fragmentSize k) {rest : List Nat} (hrest : ∀ j ∈ rest, k < j) :
    (Client.processParsed ((k :: rest).map (c.content fmt fragmentSize)) s).2 =
        [⟨c.challengeId, c.targetTicker.toList, fmt.shown bid, fmt.shown ask⟩] ↔
      (∃ bid ask, .sec c.targetTicker.toList bid ask ∈ c.whole fmt fragmentSize k) ∧
        ∃ j ∈ k :: rest, c.targetLine ∈ c.whole fmt fragmentSize j := by
  rw [processParsed_behind fmt hid hk hrest]
  have honly : ∀ parsed ∈ (k :: rest).map (c.targetOf fmt fragmentSize),
      Client.OnlyTarget c.targetTicker.toList parsed := onlyTarget_targetOf fmt (k :: rest)
  constructor
  · intro hsent
    constructor
    · by_contra hquote
      have hsilent := opened_silent fmt fun bid ask hline => hquote ⟨bid, ask, hline⟩
      rw [(hsilent.processParsed fun parsed hmem => (honly parsed hmem).beside).1] at hsent
      cases hsent
    · by_contra htarget
      have hnothing : ∀ parsed ∈ (k :: rest).map (c.targetOf fmt fragmentSize),
          Client.Beside (fun _ => False) parsed := by
        intro parsed hmem
        obtain ⟨j, hj, rfl⟩ := List.mem_map.mp hmem
        exact .of_noTarget rfl (content_target_none fmt fun hmem => htarget ⟨j, hj, hmem⟩)
      rw [((Client.Silent.of_noTarget rfl).processParsed hnothing).1] at hsent
      cases hsent
  · rintro ⟨⟨bid', ask', hquote⟩, j, hj, htarget⟩
    obtain ⟨rfl, rfl⟩ :=
      hc.quote_unique (List.mem_map_of_mem hentry) (sec_mem_whole fmt hquote).1
    have hdata : (c.opened fmt fragmentSize k).currentMarketData c.targetTicker.toList =
        some (fmt.shown bid', fmt.shown ask') := applied_quote fmt hc hquote rfl
    have hmem : ⟨[], none, some c.targetTicker.toList⟩ ∈
        (k :: rest).map (c.targetOf fmt fragmentSize) := by
      rw [← content_target fmt htarget]
      exact List.mem_map_of_mem (f := c.targetOf fmt fragmentSize) hj
    have hset : c.challengeId ≠ -1 := by
      have hpos := hc.idPos
      omega
    exact Client.processParsed_answered honly hmem (s := c.opened fmt fragmentSize k) hset
      hc.targetPlain.nonempty rfl hdata

/-- The right response is all that is sent. -/
theorem responses_iff_wellCut (hc : c.Plain) (hsize : 0 < fragmentSize) {bid ask : D}
    (hentry : (c.targetTicker, bid, ask) ∈ c.marketData)
    (hid : s.currentChallengeId ≠ c.challengeId) :
    (s.processAll fmt (fragments fragmentSize (c.message fmt))).2 =
        [⟨c.challengeId, c.targetTicker.toList, fmt.shown bid, fmt.shown ask⟩] ↔
      WellCut fmt fragmentSize c s := by
  rw [Client.processAll_eq, hc.parsePacket_fragments]
  by_cases hwhole : ∃ k, c.idLine ∈ c.whole fmt fragmentSize k
  · obtain ⟨k, hk⟩ := hwhole
    obtain ⟨rest, hrange, hrest⟩ := range_split (lt_numFragments fmt hsize hk)
    have hbefore := contents_noId fmt (List.range k) fun j hj =>
      (not_mem_whole_of_before fmt hk (List.mem_range.mp hj)).1
    obtain ⟨hsame, hsent⟩ := Client.processParsed_sameId hbefore s
    have hlater := behind_iff fmt hc hentry (hsame.symm ▸ hid) hk fun j hj => ((hrest j).mp hj).1
    rw [hrange, List.map_append, Client.processParsed_append]
    constructor
    · intro heq
      have hnone : (Client.processParsed ((List.range k).map (c.content fmt fragmentSize)) s).2 =
          [] := by
        -- a response before the line would be the only one, under the id of before
        rcases List.append_eq_singleton_iff.mp heq with ⟨hnone, -⟩ | ⟨honly, -⟩
        · exact hnone
        · rw [honly] at hsent
          exact absurd (hsent _ List.mem_cons_self).1.symm hid
      rw [hnone, List.nil_append] at heq
      obtain ⟨hquote, j, -, htarget⟩ := hlater.mp heq
      exact ⟨k, hk, hquote, ⟨j, htarget⟩, (before_iff_quiet fmt hk).mp hnone⟩
    · rintro ⟨k', hk', hquote, ⟨j, htarget⟩, hquiet⟩
      obtain rfl := idLine_unique fmt hk' hk
      have hj : j ∈ k' :: rest := by
        rcases Nat.lt_trichotomy j k' with hlt | rfl | hgt
        · exact absurd htarget (not_mem_whole_of_before fmt hk hlt).2
        · exact List.mem_cons_self
        · exact List.mem_cons_of_mem k' ((hrest j).mpr ⟨hgt, lt_numFragments fmt hsize htarget⟩)
      rw [(before_iff_quiet fmt hk).mpr hquiet, List.nil_append]
      exact hlater.mpr ⟨hquote, j, hj, htarget⟩
  · constructor
    · intro heq
      have hsent := (Client.processParsed_sameId (contents_noId fmt
        (List.range (c.numFragments fmt fragmentSize)) fun j _ hj => hwhole ⟨j, hj⟩) s).2
      rw [heq] at hsent
      exact absurd (hsent _ List.mem_cons_self).1.symm hid
    · rintro ⟨k, hk, -⟩
      exact absurd ⟨k, hk⟩ hwhole

/-- As a single packet, every message is well cut. -/
theorem wellCut_single (hc : c.Plain) : WellCut fmt (c.message fmt).length c s := by
  have hall : c.whole fmt (c.message fmt).length 0 = c.messageLines := by
    rw [whole, Nat.zero_mul, Nat.zero_add]
    exact inWindow_all 0 c.messageLines (Nat.le_refl 0) (by rw [Nat.zero_add, ← length_message])
  obtain ⟨entry, hentry, htarget⟩ := List.mem_map.mp hc.target
  refine ⟨0, ?_, ⟨entry.2.1, entry.2.2, ?_⟩, ⟨0, ?_⟩, ?_⟩
  · rw [hall]
    exact List.mem_append_right _ (by simp [idLine])
  · rw [hall, ← htarget]
    exact List.mem_append_left _ (List.mem_map_of_mem hentry)
  · rw [hall]
    exact List.mem_append_right _ (by simp [targetLine])
  · exact .inr (.inr fun j hj => absurd hj (Nat.not_lt_zero j))

theorem fragments_single {message : Text} (h : message ≠ []) :
    fragments message.length message = [message] := by
  have hpos := List.length_pos_of_ne_nil h
  have hone : (message.length + message.length - 1) / message.length = 1 := by
    rw [Nat.div_eq_iff hpos]
    omega
  rw [fragments_eq, hone]
  simp

theorem Challenge.message_ne_nil (c : Challenge D) : c.message fmt ≠ [] := by
  have hlength := length_message fmt (c := c)
  rw [messageLines, List.map_append, List.sum_append] at hlength
  intro hnil
  rw [hnil] at hlength
  simp [PriceFormat.size] at hlength

/-- A client that has another id sends the response of the single packet, and no other, from the
fragments exactly if the message is well cut. -/
theorem fragments_transparent_iff (hc : c.Plain) (hsize : 0 < fragmentSize)
    (hid : s.currentChallengeId ≠ c.challengeId) :
    (∃ response, (s.processAll fmt [c.message fmt]).2 = [response] ∧
        (s.processAll fmt (fragments fragmentSize (c.message fmt))).2 = [response]) ↔
      WellCut fmt fragmentSize c s := by
  obtain ⟨⟨ticker, bid, ask⟩, hentry, htarget⟩ := List.mem_map.mp hc.target
  obtain rfl : ticker = c.targetTicker := htarget
  have hsingle := (responses_iff_wellCut fmt hc
    (List.length_pos_of_ne_nil (c.message_ne_nil fmt)) hentry hid).mpr (wellCut_single fmt hc)
  rw [fragments_single (c.message_ne_nil fmt)] at hsingle
  rw [← responses_iff_wellCut fmt hc hsize hentry hid, hsingle]
  constructor
  · rintro ⟨response, hresponse, hfragments⟩
    rw [hfragments, ← hresponse]
  · intro hfragments
    exact ⟨_, rfl, hfragments⟩

/-! ### A message of one ticker -/

/-- Lines of 24, 15 and 9 bytes. -/
def oneTicker : Challenge Nat := ⟨1, "A", [("A", 575, 582)], false, ""⟩

theorem oneTicker_plain : oneTicker.Plain where
  idPos := by decide
  idInt := by decide
  tickers := by
    intro entry hentry
    obtain rfl := List.mem_singleton.mp hentry
    exact ⟨by decide, by decide, by decide, by decide⟩
  keys := by decide
  target := by decide

theorem fragments_transparent_iff_sample :
    (∃ response, (Client.start.processAll tenths [oneTicker.message tenths]).2 = [response] ∧
        (Client.start.processAll tenths (fragments 39 (oneTicker.message tenths))).2 =
          [response]) ↔
      WellCut tenths 39 oneTicker Client.start :=
  fragments_transparent_iff tenths oneTicker_plain (by decide) (by decide)

/-- The `SEC` line is a fragment of its own; the quote is gone when the next one brings the
id. -/
theorem quote_lost :
    ¬ ∃ response, (Client.start.processAll tenths [oneTicker.message tenths]).2 = [response] ∧
        (Client.start.processAll tenths (fragments 24 (oneTicker.message tenths))).2 =
          [response] := by
  have hnone : (Client.start.processAll tenths (fragments 24 (oneTicker.message tenths))).2 =
      [] := by
    decide +kernel
  rintro ⟨response, -, hresponse⟩
  rw [hnone] at hresponse
  cases hresponse

end HftProject
