import HftProject.Challenge.Fragmentation
import HftProject.Lib.Run

/-!
Any number of workers on the packets of one challenge. `process_queued_message` has three
sections: the update under the lock, the check with the response, which takes no lock, and the
reset under the lock. Each is one step. At most one response is sent for the challenge exactly as
long as no check succeeds while another worker has responded and not yet reset
(`at_most_once_iff`).
-/

namespace HftProject

open Challenge Lines

/-- Where a worker is in `process_queued_message`. -/
inductive Worker where
  | idle
  /-- Before the check. -/
  | updated
  /-- Before the reset, after a response for the id. -/
  | responded (challengeId : Int)
deriving DecidableEq, Repr

/-- The globals, the workers, which packets they have taken, and what they have sent. -/
structure Workers (W D : Type) where
  client : Client D
  workers : W → Worker
  taken : List Nat
  sent : List (Response D)

/-- A section of a worker. -/
inductive Section (W : Type) where
  | update (worker : W) (packet : Nat)
  | check (worker : W)
  | reset (worker : W)

namespace Workers

/-- A section that is not the next of its worker, or a packet that is taken or not there. -/
inductive Fault where
  | notReady
  | noPacket
deriving DecidableEq, Repr

variable {W D : Type} [DecidableEq W] (fmt : PriceFormat D)

omit [DecidableEq W] in
def start (client : Client D) : Workers W D := ⟨client, fun _ => .idle, [], []⟩

def step (packets : List Text) (action : Section W) (s : Workers W D) :
    Except Fault (Workers W D) :=
  match action with
  | .update worker i =>
      if s.workers worker = .idle then
        match packets[i]? with
        | some packet =>
            if i ∈ s.taken then .error .noPacket
            else
              .ok { s with
                client := s.client.update (parsePacket fmt packet)
                workers := Function.update s.workers worker .updated
                taken := i :: s.taken }
        | none => .error .noPacket
      else .error .notReady
  | .check worker =>
      if s.workers worker = .updated then
        match s.client.check with
        | some response =>
            .ok { s with
              workers := Function.update s.workers worker (.responded response.challengeId)
              sent := s.sent ++ [response] }
        | none => .ok { s with workers := Function.update s.workers worker .idle }
      else .error .notReady
  | .reset worker =>
      match s.workers worker with
      | .responded _ =>
          .ok { s with
            client := s.client.reset
            workers := Function.update s.workers worker .idle }
      | _ => .error .notReady

/-- How often a response was sent for the id. -/
def responsesFor (challengeId : Int) (s : Workers W D) : Nat :=
  s.sent.countP fun response => response.challengeId = challengeId

/-- A check that succeeds for the id is made while no worker is between a response for it and
the reset. -/
def Undivided (challengeId : Int) : Section W → Workers W D → Prop
  | .check worker, s =>
      s.workers worker = .updated → s.client.currentChallengeId = challengeId →
        s.client.currentTargetTicker ≠ [] →
        s.client.currentMarketData s.client.currentTargetTicker ≠ none →
        ∀ other, s.workers other ≠ .responded challengeId
  | .update _ _, _ => True
  | .reset _, _ => True

variable {fmt} {packets : List Text} {s s' : Workers W D}

/-! ### What a section does -/

theorem step_update {worker : W} {i : Nat} (h : step fmt packets (.update worker i) s = .ok s') :
    s.workers worker = .idle ∧ i ∉ s.taken ∧ ∃ packet, packets[i]? = some packet ∧
      s' = { s with
        client := s.client.update (parsePacket fmt packet)
        workers := Function.update s.workers worker .updated
        taken := i :: s.taken } := by
  rw [step] at h
  split at h
  · rename_i hidle
    split at h
    · rename_i packet hpacket
      split at h
      · cases h
      · rename_i hnew
        cases h
        exact ⟨hidle, hnew, packet, hpacket, rfl⟩
    · cases h
  · cases h

theorem step_check {worker : W} (h : step fmt packets (.check worker) s = .ok s') :
    s.workers worker = .updated ∧
      ((s.client.check = none ∧
          s' = { s with workers := Function.update s.workers worker .idle }) ∨
        ∃ response, s.client.check = some response ∧
          s' = { s with
            workers := Function.update s.workers worker (.responded response.challengeId)
            sent := s.sent ++ [response] }) := by
  rw [step] at h
  split at h
  · rename_i hupdated
    refine ⟨hupdated, ?_⟩
    split at h
    · rename_i response hcheck
      cases h
      exact .inr ⟨response, hcheck, rfl⟩
    · rename_i hcheck
      cases h
      exact .inl ⟨hcheck, rfl⟩
  · cases h

theorem step_reset {worker : W} (h : step fmt packets (.reset worker) s = .ok s') :
    (∃ challengeId, s.workers worker = .responded challengeId) ∧
      s' = { s with
        client := s.client.reset
        workers := Function.update s.workers worker .idle } := by
  rw [step] at h
  split at h
  · rename_i challengeId hresponded
    cases h
    exact ⟨⟨challengeId, hresponded⟩, rfl⟩
  · cases h

theorem step_check_none {worker : W} (hupdated : s.workers worker = .updated)
    (hcheck : s.client.check = none) :
    step fmt packets (.check worker) s =
      .ok { s with workers := Function.update s.workers worker .idle } := by
  rw [step, if_pos hupdated, hcheck]

theorem step_check_some {worker : W} {response : Response D}
    (hupdated : s.workers worker = .updated)
    (hcheck : s.client.check = some response) :
    step fmt packets (.check worker) s =
      .ok { s with
        workers := Function.update s.workers worker (.responded response.challengeId)
        sent := s.sent ++ [response] } := by
  rw [step, if_pos hupdated, hcheck]

theorem step_reset_responded {worker : W} {challengeId : Int}
    (hresponded : s.workers worker = .responded challengeId) :
    step fmt packets (.reset worker) s =
      .ok { s with
        client := s.client.reset
        workers := Function.update s.workers worker .idle } := by
  rw [step, hresponded]

/-- The sections of one worker, without another in between, are `process_queued_message`. -/
theorem run_alone {worker : W} {i : Nat} {packet : Text} (hidle : s.workers worker = .idle)
    (hpacket : packets[i]? = some packet) (hnew : i ∉ s.taken) :
    ∃ sections t, Run.run (step fmt packets) (.update worker i :: sections) s = .ok t ∧
      t.client = (s.client.processQueuedMessage fmt packet).1 ∧
      t.sent = s.sent ++ (s.client.processQueuedMessage fmt packet).2.toList ∧
      t.workers = s.workers := by
  have hworkers : Function.update s.workers worker .idle = s.workers := by
    rw [← hidle, Function.update_eq_self]
  have hupdate : step fmt packets (.update worker i) s = .ok { s with
      client := s.client.update (parsePacket fmt packet)
      workers := Function.update s.workers worker .updated
      taken := i :: s.taken } := by
    rw [step, if_pos hidle, hpacket]
    simp only [if_neg hnew]
  rcases Client.process_cases (parsePacket fmt packet) s.client with
    ⟨hcheck, hprocess⟩ | ⟨response, hcheck, hprocess⟩
  · have hrun := (Run.run_cons_ok hupdate).trans
      ((Run.run_cons_ok (step_check_none (Function.update_self ..) hcheck)).trans (Run.run_nil _))
    refine ⟨_, _, hrun, ?_⟩
    rw [Client.processQueuedMessage, hprocess]
    exact ⟨rfl, (List.append_nil _).symm, by rw [Function.update_idem, hworkers]⟩
  · have hrun := (Run.run_cons_ok hupdate).trans
      ((Run.run_cons_ok (step_check_some (Function.update_self ..) hcheck)).trans
        ((Run.run_cons_ok (step_reset_responded (Function.update_self ..))).trans (Run.run_nil _)))
    refine ⟨_, _, hrun, ?_⟩
    rw [Client.processQueuedMessage, hprocess]
    exact ⟨rfl, rfl, by rw [Function.update_idem, Function.update_idem, hworkers]⟩

/-! ### The packets of one challenge -/

variable {c : Challenge D} {fragmentSize : Nat}

theorem parsePacket_fragment (hc : c.Plain) {i : Nat} {packet : Text}
    (h : (fragments fragmentSize (c.message fmt))[i]? = some packet) :
    parsePacket fmt packet = c.content fmt fragmentSize i := by
  have hparsed : ((fragments fragmentSize (c.message fmt)).map (parsePacket fmt))[i]? =
      ((List.range (c.numFragments fmt fragmentSize)).map (c.content fmt fragmentSize))[i]? :=
    congrArg (·[i]?) (hc.parsePacket_fragments fmt)
  simp only [List.getElem?_map, h, Option.map_some] at hparsed
  obtain ⟨j, hj, hcontent⟩ := Option.map_eq_some_iff.mp hparsed.symm
  obtain ⟨hlt, rfl⟩ := List.getElem?_eq_some_iff.mp hj
  rw [List.getElem_range] at hcontent
  exact hcontent.symm

/-- A fragment without a new id leaves id and target to the last one. -/
theorem update_content_same {client : Client D} {i : Nat}
    (h : client.currentChallengeId = c.challengeId ∨ c.idLine ∉ c.whole fmt fragmentSize i) :
    (client.update (c.content fmt fragmentSize i)).currentChallengeId =
        client.currentChallengeId ∧
      (client.update (c.content fmt fragmentSize i)).currentTargetTicker =
        (c.content fmt fragmentSize i).target.getD client.currentTargetTicker := by
  have hsame : client.newChallenge (c.content fmt fragmentSize i).challengeId = client := by
    by_cases hid : c.idLine ∈ c.whole fmt fragmentSize i
    · rw [content_challengeId fmt hid, Client.newChallenge,
        if_neg fun hne => hne (h.resolve_right fun hnot => hnot hid).symm]
    · rw [content_challengeId_none fmt hid]
      rfl
  rw [Client.update, hsame]
  exact ⟨rfl, rfl⟩

/-- A fragment with a new id clears the target. -/
theorem update_content_new {client : Client D} {i : Nat}
    (hne : client.currentChallengeId ≠ c.challengeId)
    (hid : c.idLine ∈ c.whole fmt fragmentSize i) :
    (client.update (c.content fmt fragmentSize i)).currentTargetTicker =
      (c.content fmt fragmentSize i).target.getD [] := by
  rw [Client.update, content_challengeId fmt hid, Client.newChallenge, if_pos (Ne.symm hne)]

variable (fmt) in
/-- What holds of the workers as long as one response was sent at most. -/
structure Invariant (fragmentSize : Nat) (c : Challenge D) (s : Workers W D) : Prop where
  /-- Under the id there is a target only if its packet is taken. -/
  target : s.client.currentChallengeId = c.challengeId → s.client.currentTargetTicker ≠ [] →
    ∃ i ∈ s.taken, c.targetLine ∈ c.whole fmt fragmentSize i
  /-- After the response the target is waiting to be reset, and then it is gone for good. -/
  responded : 0 < s.responsesFor c.challengeId →
    s.client.currentChallengeId = c.challengeId ∧
      (∃ i ∈ s.taken, c.targetLine ∈ c.whole fmt fragmentSize i) ∧
      (s.client.currentTargetTicker = [] ∨
        ∃ worker, s.workers worker = .responded c.challengeId)
  /-- Who is about to reset has sent a response. -/
  counted : ∀ worker, s.workers worker = .responded c.challengeId →
    0 < s.responsesFor c.challengeId

/-- A worker that is about to reset, and another one that takes a step. -/
theorem update_ne {worker other : W} {place : Worker} {challengeId : Int}
    (h : s.workers worker ≠ .responded challengeId)
    (hother : s.workers other = .responded challengeId) :
    Function.update s.workers worker place other = .responded challengeId := by
  rw [Function.update_of_ne, hother]
  rintro rfl
  exact h hother

theorem of_update {worker other : W} {place : Worker} {challengeId : Int}
    (h : place ≠ .responded challengeId)
    (hother : Function.update s.workers worker place other = .responded challengeId) :
    s.workers other = .responded challengeId := by
  by_cases heq : other = worker
  · subst heq
    rw [Function.update_self] at hother
    exact absurd hother h
  · rwa [Function.update_of_ne heq] at hother

theorem Invariant.update (hc : c.Plain) (h : s.Invariant fmt fragmentSize c) {worker : W} {i : Nat}
    (hstep : step fmt (fragments fragmentSize (c.message fmt)) (.update worker i) s = .ok s') :
    s'.Invariant fmt fragmentSize c ∧ s'.sent = s.sent := by
  obtain ⟨hidle, hnew, packet, hpacket, rfl⟩ := step_update hstep
  rw [parsePacket_fragment hc hpacket]
  refine ⟨⟨fun hid htarget => ?_, fun hsent => ?_, fun other hother => ?_⟩, rfl⟩
  · by_cases hline : c.targetLine ∈ c.whole fmt fragmentSize i
    · exact ⟨i, List.mem_cons_self, hline⟩
    have hnone := content_target_none fmt hline
    by_cases hsame : s.client.currentChallengeId = c.challengeId ∨
        c.idLine ∉ c.whole fmt fragmentSize i
    · -- the target was there before
      obtain ⟨hid', htarget'⟩ := update_content_same hsame
      rw [hnone] at htarget'
      obtain ⟨j, hj, hline'⟩ := h.target (hid'.symm.trans hid)
        fun hnil => htarget (htarget'.trans hnil)
      exact ⟨j, List.mem_cons_of_mem i hj, hline'⟩
    · obtain ⟨hne, hidLine⟩ := not_or.mp hsame
      have hcleared := update_content_new hne (not_not.mp hidLine)
      rw [hnone] at hcleared
      exact absurd hcleared htarget
  · obtain ⟨hid, ⟨j, hj, hline⟩, hgone⟩ := h.responded hsent
    have hother : c.targetLine ∉ c.whole fmt fragmentSize i := by
      intro hline'
      exact hnew (targetLine_unique fmt hline' hline ▸ hj)
    have hsame : s.client.currentChallengeId = c.challengeId ∨
        c.idLine ∉ c.whole fmt fragmentSize i := .inl hid
    obtain ⟨hid', htarget'⟩ := update_content_same hsame
    rw [content_target_none fmt hother] at htarget'
    refine ⟨hid'.trans hid, ⟨j, List.mem_cons_of_mem i hj, hline⟩, ?_⟩
    rcases hgone with hnil | ⟨other, hresponded⟩
    · exact .inl (htarget'.trans hnil)
    · exact .inr ⟨other, update_ne (by simp [hidle]) hresponded⟩
  · exact h.counted other (of_update (by simp) hother)

omit [DecidableEq W] in
theorem responsesFor_append (challengeId : Int) {response : Response D}
    (h : s'.sent = s.sent ++ [response]) :
    s'.responsesFor challengeId =
      s.responsesFor challengeId + if response.challengeId = challengeId then 1 else 0 := by
  rw [responsesFor, h, List.countP_append, List.countP_singleton]
  simp [responsesFor]

theorem Invariant.check_none (h : s.Invariant fmt fragmentSize c) {worker : W}
    (hupdated : s.workers worker = .updated) :
    ({ s with workers := Function.update s.workers worker .idle } :
      Workers W D).Invariant fmt fragmentSize c := by
  refine ⟨h.target, fun hsent => ?_, fun other hother => ?_⟩
  · obtain ⟨hid, htaken, hgone⟩ := h.responded hsent
    refine ⟨hid, htaken, hgone.imp_right ?_⟩
    rintro ⟨other, hresponded⟩
    exact ⟨other, update_ne (by simp [hupdated]) hresponded⟩
  · exact h.counted other (of_update (by simp) hother)

theorem Invariant.reset (h : s.Invariant fmt fragmentSize c) (worker : W) :
    ({ s with
        client := s.client.reset
        workers := Function.update s.workers worker .idle } :
      Workers W D).Invariant fmt fragmentSize c := by
  refine ⟨fun _ htarget => absurd rfl htarget, fun hsent => ?_, fun other hother => ?_⟩
  · obtain ⟨hid, htaken, -⟩ := h.responded hsent
    exact ⟨hid, htaken, .inl rfl⟩
  · exact h.counted other (of_update (by simp) hother)

theorem Invariant.check_some (h : s.Invariant fmt fragmentSize c) {worker : W}
    {response : Response D} (hcheck : s.client.check = some response)
    (hs' : s' = { s with
      workers := Function.update s.workers worker (.responded response.challengeId)
      sent := s.sent ++ [response] }) : s'.Invariant fmt fragmentSize c := by
  have hcount := responsesFor_append c.challengeId (congrArg Workers.sent hs')
  obtain ⟨-, htarget, quote, -, rfl⟩ := Client.check_eq_some.mp hcheck
  by_cases hid : s.client.currentChallengeId = c.challengeId
  · have hpos : 0 < s'.responsesFor c.challengeId := by
      rw [hcount, if_pos hid]
      exact Nat.succ_pos _
    subst hs'
    refine ⟨h.target, fun _ => ⟨hid, h.target hid htarget, .inr ⟨worker, ?_⟩⟩, fun _ _ => hpos⟩
    exact (Function.update_self ..).trans (congrArg Worker.responded hid)
  · rw [if_neg hid, Nat.add_zero] at hcount
    subst hs'
    refine ⟨h.target, fun hsent => ?_, fun other hother => ?_⟩
    · exact absurd (h.responded (hcount ▸ hsent)).1 hid
    · rw [hcount]
      exact h.counted other (of_update (by simp [hid]) hother)

/-! ### Any interleaving -/

omit [DecidableEq W] in
theorem start_invariant {client : Client D} (hid : client.currentChallengeId ≠ c.challengeId) :
    (start client : Workers W D).Invariant fmt fragmentSize c where
  target heq := absurd heq hid
  responded hsent := absurd hsent (Nat.lt_irrefl 0)
  counted _ hresponded := by cases hresponded

/-- A check that nobody's response precedes sends the first one for the id, if it sends any. -/
theorem Invariant.check (h : s.Invariant fmt fragmentSize c)
    (hgood : s.responsesFor c.challengeId ≤ 1) {worker : W}
    (hcond : Undivided c.challengeId (.check worker) s)
    (hstep : step fmt packets (.check worker) s = .ok s') :
    s'.Invariant fmt fragmentSize c ∧ s'.responsesFor c.challengeId ≤ 1 := by
  obtain ⟨hupdated, ⟨-, rfl⟩ | ⟨response, hcheck, hs'⟩⟩ := step_check hstep
  · exact ⟨h.check_none hupdated, hgood⟩
  refine ⟨h.check_some hcheck hs', ?_⟩
  rw [responsesFor_append _ (congrArg Workers.sent hs')]
  obtain ⟨-, htarget, quote, hquote, rfl⟩ := Client.check_eq_some.mp hcheck
  by_cases hown : s.client.currentChallengeId = c.challengeId
  · have hnobody := hcond hupdated hown htarget (by simp [hquote])
    have hfirst : s.responsesFor c.challengeId = 0 := by
      by_contra hsome
      rcases (h.responded (Nat.pos_of_ne_zero hsome)).2.2 with hnil | ⟨other, hother⟩
      · exact htarget hnil
      · exact hnobody other hother
    rw [if_pos hown, hfirst]
  · rw [if_neg hown]
    exact hgood

/-- A check between a response for the id and the reset sends another one. -/
theorem Invariant.divided (hc : c.Plain) (h : s.Invariant fmt fragmentSize c)
    {action : Section W} (hcond : ¬ Undivided c.challengeId action s) :
    ∃ s', step fmt packets action s = .ok s' ∧ ¬ s'.responsesFor c.challengeId ≤ 1 := by
  cases action with
  | update worker i => exact absurd trivial hcond
  | check worker =>
      simp only [Undivided, not_forall, not_not] at hcond
      obtain ⟨hupdated, hown, htarget, hdata, other, hother⟩ := hcond
      obtain ⟨quote, hquote⟩ := Option.ne_none_iff_exists'.mp hdata
      have hset : s.client.currentChallengeId ≠ -1 := by
        have hpos := hc.idPos
        omega
      have hcheck := Client.check_eq_some.mpr ⟨hset, htarget, quote, hquote, rfl⟩
      refine ⟨_, step_check_some hupdated hcheck, ?_⟩
      have hbefore := h.counted other hother
      rw [responsesFor_append _ rfl, if_pos hown]
      omega
  | reset worker => exact absurd trivial hcond

/-- In every interleaving one response is sent at most for the challenge, exactly if no check is
divided from the reset that it has to wait for. -/
theorem at_most_once_iff (hc : c.Plain) (client : Client D)
    (hid : client.currentChallengeId ≠ c.challengeId) (sections : List (Section W)) :
    Run.Always (step fmt (fragments fragmentSize (c.message fmt))) sections (start client)
        (fun s => s.responsesFor c.challengeId ≤ 1) ↔
      Run.Steps (step fmt (fragments fragmentSize (c.message fmt))) sections (start client)
        (Undivided c.challengeId) := by
  refine Run.always_iff_steps (I := Invariant fmt fragmentSize c) ?_
    (fun action s h _ hcond => h.divided hc hcond) (start_invariant hid) (Nat.zero_le 1)
  intro action s s' h hgood hcond hstep
  cases action with
  | update worker i =>
      obtain ⟨h', hsent⟩ := h.update hc hstep
      refine ⟨h', ?_⟩
      rw [responsesFor, hsent]
      exact hgood
  | check worker => exact h.check hgood hcond hstep
  | reset worker =>
      obtain ⟨-, rfl⟩ := step_reset hstep
      exact ⟨h.reset worker, hgood⟩

/-- One worker takes the packet with quote and id, another one the packet with the target, and both
check before one resets. -/
def bothCheck : List (Section Bool) :=
  [.update false 0, .update true 1, .check true, .check false]

theorem at_most_once_iff_sample :
    Run.Always (step tenths (fragments 39 (oneTicker.message tenths))) bothCheck
        (start Client.start) (fun s => s.responsesFor oneTicker.challengeId ≤ 1) ↔
      Run.Steps (step tenths (fragments 39 (oneTicker.message tenths))) bothCheck
        (start Client.start) (Undivided oneTicker.challengeId) :=
  at_most_once_iff oneTicker_plain Client.start (by decide) bothCheck

theorem two_responses :
    ¬ Run.Always (step tenths (fragments 39 (oneTicker.message tenths))) bothCheck
      (start Client.start) (fun s => s.responsesFor oneTicker.challengeId ≤ 1) := by
  intro h
  have hrun : (Run.run (step tenths (fragments 39 (oneTicker.message tenths))) bothCheck
      (start Client.start)).map (responsesFor oneTicker.challengeId) = .ok 2 := by
    decide +kernel
  cases hlast : Run.run (step tenths (fragments 39 (oneTicker.message tenths))) bothCheck
      (start Client.start) with
  | error fault =>
      rw [hlast] at hrun
      cases hrun
  | ok t =>
      have honce := h bothCheck List.prefix_rfl t hlast
      rw [hlast] at hrun
      have htwo : t.responsesFor oneTicker.challengeId = 2 := Except.ok.inj hrun
      omega

end Workers
end HftProject
