import Mathlib.Data.List.Basic
import Mathlib.Data.List.Forall2

/-!
A stream cut into segments. What can be said about the cuts from the lengths of the segments and
from a separator that stands in the stream.
-/

namespace HftProject.Segments

variable {A : Type}

/-! ### Lengths -/

/-- No segment is shorter than its counterpart. -/
def Covers (segments messages : List (List A)) : Prop :=
  List.Forall₂ (fun segment message => message.length ≤ segment.length) segments messages

theorem Covers.length_flatten_le {segments messages : List (List A)}
    (h : Covers segments messages) :
    messages.flatten.length ≤ segments.flatten.length := by
  induction h with
  | nil => exact Nat.le_refl _
  | cons hlength _ ih =>
      simp only [List.flatten_cons, List.length_append]
      omega

/-- Without room to spare, the cuts are those between the messages. -/
theorem Covers.eq_of_flatten_eq {segments messages : List (List A)} (h : Covers segments messages)
    (hflatten : segments.flatten = messages.flatten) : segments = messages := by
  induction h with
  | nil => rfl
  | @cons segment message segments messages hlength hcovers ih =>
      have hrest := Covers.length_flatten_le hcovers
      have htotal := congrArg List.length hflatten
      simp only [List.flatten_cons, List.length_append] at htotal hflatten
      obtain ⟨rfl, htail⟩ := List.append_inj hflatten (by omega)
      rw [ih htail]

/-! ### A separator -/

variable [DecidableEq A] {sep : A}

omit [DecidableEq A] in
/-- A piece without the separator lies before it. -/
theorem append_before {piece rest before after : List A} (h : sep ∉ piece)
    (heq : piece ++ rest = before ++ sep :: after) :
    ∃ before', before = piece ++ before' ∧ rest = before' ++ sep :: after := by
  rcases List.append_eq_append_iff.mp heq with ⟨between, hbefore, hrest⟩ | ⟨between, hpiece, hafter⟩
  · exact ⟨between, hbefore, hrest⟩
  · cases between with
    | nil => exact ⟨[], by rw [hpiece, List.append_nil, List.append_nil], hafter.symm⟩
    | cons a between =>
        obtain ⟨rfl, -⟩ := List.cons.inj hafter
        exact absurd (hpiece ▸ List.mem_append_right _ List.mem_cons_self) h

omit [DecidableEq A] in
/-- The first separator. -/
theorem append_sep_inj {before after before' after' : List A} (h : sep ∉ before)
    (h' : sep ∉ before') (heq : before ++ sep :: after = before' ++ sep :: after') :
    before = before' ∧ after = after' := by
  obtain ⟨more, rfl, hrest⟩ := append_before h heq
  cases more with
  | nil => exact ⟨(List.append_nil before).symm, (List.cons.inj hrest).2⟩
  | cons a more =>
      obtain ⟨rfl, -⟩ := List.cons.inj hrest
      exact absurd (List.mem_append_right _ List.mem_cons_self) h'

/-- The segments that hold a separator. -/
def holding (sep : A) (segments : List (List A)) : List (List A) :=
  segments.filter fun segment => sep ∈ segment

theorem holding_cons_of_mem {segment : List A} (h : sep ∈ segment) (segments : List (List A)) :
    holding sep (segment :: segments) = segment :: holding sep segments :=
  List.filter_cons_of_pos (decide_eq_true h)

theorem holding_cons_of_not_mem {segment : List A} (h : sep ∉ segment) (segments : List (List A)) :
    holding sep (segment :: segments) = holding sep segments :=
  List.filter_cons_of_neg (by simpa using h)

theorem length_holding_le (sep : A) (segments : List (List A)) :
    (holding sep segments).length ≤ segments.flatten.count sep := by
  induction segments with
  | nil => exact Nat.le_refl _
  | cons segment segments ih =>
      rw [List.flatten_cons, List.count_append]
      by_cases h : sep ∈ segment
      · have hcount := List.count_pos_iff.mpr h
        rw [holding_cons_of_mem h, List.length_cons]
        omega
      · rw [holding_cons_of_not_mem h]
        omega

/-- With as many segments as separators there is one in each. -/
theorem count_le_one {segments : List (List A)}
    (h : segments.flatten.count sep ≤ (holding sep segments).length) :
    ∀ segment ∈ segments, segment.count sep ≤ 1 := by
  induction segments with
  | nil =>
      intro segment hmem
      cases hmem
  | cons segment segments ih =>
      have hrest := length_holding_le sep segments
      rw [List.flatten_cons, List.count_append] at h
      by_cases hsep : sep ∈ segment
      · have hcount := List.count_pos_iff.mpr hsep
        rw [holding_cons_of_mem hsep, List.length_cons] at h
        refine List.forall_mem_cons.mpr ⟨by omega, ih (by omega)⟩
      · have hcount := List.count_eq_zero_of_not_mem hsep
        rw [holding_cons_of_not_mem hsep] at h
        refine List.forall_mem_cons.mpr ⟨by omega, ih (by omega)⟩

end HftProject.Segments
