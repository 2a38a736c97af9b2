import Mathlib.Data.List.Basic

/-!
Logs of events. A property of a log that speaks about each event and the events before
it: `EachAfter P log` says that `P before e` holds wherever `e` stands in the log behind
`before`. It grows with the log one event at a time (`eachAfter_snoc`).
-/

namespace HftProject.EventLog

variable {E : Type}

/-- Every event of the log is justified by the events before it. -/
def EachAfter (P : List E → E → Prop) (log : List E) : Prop :=
  ∀ before e after, log = before ++ e :: after → P before e

variable {P : List E → E → Prop}

theorem eachAfter_nil : EachAfter P [] := by
  intro before e after h
  simp at h

theorem eachAfter_snoc {log : List E} {e : E} :
    EachAfter P (log ++ [e]) ↔ EachAfter P log ∧ P log e := by
  constructor
  · intro h
    constructor
    · rintro before e' after rfl
      exact h before e' (after ++ [e]) (by simp)
    · exact h log e [] rfl
  · rintro ⟨hlog, he⟩ before e' after h
    rcases List.eq_nil_or_concat after with rfl | ⟨rest, last, rfl⟩
    · obtain ⟨rfl, hlast⟩ := List.append_inj' h rfl
      cases hlast
      exact he
    · rw [List.concat_eq_append, ← List.cons_append, ← List.append_assoc] at h
      obtain ⟨rfl, -⟩ := List.append_inj' h rfl
      exact hlog before e' rest rfl

/-- A log to which at most one event is added. -/
theorem EachAfter.append {log : List E} (h : EachAfter P log) {e : Option E}
    (he : ∀ e' ∈ e, P log e') : EachAfter P (log ++ e.toList) := by
  cases e with
  | none => simpa using h
  | some e => exact eachAfter_snoc.mpr ⟨h, he e rfl⟩

/-- Of the entries that carry a key only one carries this one, when no key comes twice. -/
theorem eq_of_nodup_filterMap {K : Type} {key : E → Option K} {log : List E}
    (h : (log.filterMap key).Nodup) {a b : E} (ha : a ∈ log) (hb : b ∈ log) {k : K}
    (hka : key a = some k) (hkb : key b = some k) : a = b := by
  induction log with
  | nil => cases ha
  | cons e log ih =>
      have htail : (log.filterMap key).Nodup :=
        h.sublist ((List.sublist_cons_self e log).filterMap key)
      have hhead : ∀ e' ∈ log, key e = some k → key e' = some k → False := by
        intro e' he' hke hke'
        rw [List.filterMap_cons_some hke] at h
        exact (List.nodup_cons.mp h).1 (List.mem_filterMap.mpr ⟨e', he', hke'⟩)
      rcases List.mem_cons.mp ha with rfl | ha' <;> rcases List.mem_cons.mp hb with rfl | hb'
      · rfl
      · exact (hhead b hb' hka hkb).elim
      · exact (hhead a ha' hkb hka).elim
      · exact ih htail ha' hb'

end HftProject.EventLog
