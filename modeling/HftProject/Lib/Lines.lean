import Mathlib.Algebra.Order.Ring.Nat
import Mathlib.Data.List.Basic

/-!
Lines and windows of text. `lines` are the pieces of a text that end with the separator; what
follows the last separator is no line. A window of a text made of lines shows the lines that
lie in it whole, and before them at most the rest of a line that starts before the window
(`lines_window`). A text that comes piece by piece is read one line at a time (`getline`), one that
has come to its end up to the end (`allLines`).
-/

namespace HftProject.Lines

variable {A B : Type} [DecidableEq A]

/-- The lines of the text, without their separators. -/
def lines (sep : A) : List A → List (List A)
  | [] => []
  | a :: rest =>
      if a = sep then [] :: lines sep rest
      else
        match lines sep rest with
        | [] => []
        | line :: more => (a :: line) :: more

variable {sep : A}

theorem lines_append {line : List A} (h : sep ∉ line) (rest : List A) :
    lines sep (line ++ sep :: rest) = line :: lines sep rest := by
  induction line with
  | nil => simp [lines]
  | cons a line ih =>
      have ha : a ≠ sep := fun heq => h (heq ▸ List.mem_cons_self)
      rw [List.cons_append, lines, if_neg ha, ih fun hmem => h (List.mem_cons_of_mem a hmem)]

theorem lines_rest {text : List A} (h : sep ∉ text) : lines sep text = [] := by
  induction text with
  | nil => rfl
  | cons a text ih =>
      have ha : a ≠ sep := fun heq => h (heq ▸ List.mem_cons_self)
      rw [lines, if_neg ha, ih fun hmem => h (List.mem_cons_of_mem a hmem)]

/-- The text of the lines. -/
def unlines (sep : A) (ls : List (List A)) : List A := ls.flatMap fun line => line ++ [sep]

omit [DecidableEq A] in
theorem unlines_cons (line : List A) (ls : List (List A)) :
    unlines sep (line :: ls) = line ++ sep :: unlines sep ls := by
  simp [unlines]

theorem lines_unlines_append {ls : List (List A)} (h : ∀ line ∈ ls, sep ∉ line) (rest : List A) :
    lines sep (unlines sep ls ++ rest) = ls ++ lines sep rest := by
  induction ls with
  | nil => rfl
  | cons line ls ih =>
      have hrest := ih fun l hl => h l (List.mem_cons_of_mem line hl)
      rw [unlines_cons, List.append_assoc, List.cons_append,
        lines_append (h line List.mem_cons_self), hrest]
      rfl

omit [DecidableEq A] in
theorem unlines_append (ls ls' : List (List A)) :
    unlines sep (ls ++ ls') = unlines sep ls ++ unlines sep ls' := List.flatMap_append

/-- A text that has come only so far has come with the first of its lines. -/
theorem lines_prefix {text whole : List A} (h : text <+: whole) :
    lines sep text <+: lines sep whole := by
  obtain ⟨rest, rfl⟩ := h
  induction text with
  | nil => exact List.nil_prefix
  | cons a text ih =>
      rw [List.cons_append, lines, lines]
      split
      · exact List.cons_prefix_cons.mpr ⟨rfl, ih⟩
      · cases htext : lines sep text with
        | nil => exact List.nil_prefix
        | cons l ls =>
            rw [htext] at ih
            obtain ⟨more, hmore⟩ := ih
            rw [← hmore]
            exact ⟨more, rfl⟩

/-! ### One line at a time -/

/-- The first line of the text and what follows it, if there is a separator. -/
def getline (sep : A) : List A → Option (List A × List A)
  | [] => none
  | a :: rest =>
      if a = sep then some ([], rest)
      else (getline sep rest).map fun (line, rest) => (a :: line, rest)

theorem getline_some {text line rest : List A} (h : getline sep text = some (line, rest)) :
    sep ∉ line ∧ text = line ++ sep :: rest := by
  induction text generalizing line with
  | nil => cases h
  | cons a text ih =>
      rw [getline] at h
      split at h
      · rename_i ha
        cases h
        exact ⟨List.not_mem_nil, by rw [ha]; rfl⟩
      · rename_i ha
        obtain ⟨⟨line', rest'⟩, hline, heq⟩ := Option.map_eq_some_iff.mp h
        cases heq
        obtain ⟨hsep, rfl⟩ := ih hline
        refine ⟨fun hmem => ?_, rfl⟩
        rcases List.mem_cons.mp hmem with rfl | hmem
        · exact ha rfl
        · exact hsep hmem

/-! ### Up to the end -/

/-- The lines up to the end of the text; a last one may have no separator. -/
def allLines (sep : A) : List A → List (List A)
  | [] => []
  | a :: rest =>
      if a = sep then [] :: allLines sep rest
      else
        match allLines sep rest with
        | [] => [[a]]
        | line :: more => (a :: line) :: more

theorem allLines_append {line : List A} (h : sep ∉ line) (rest : List A) :
    allLines sep (line ++ sep :: rest) = line :: allLines sep rest := by
  induction line with
  | nil => simp [allLines]
  | cons a line ih =>
      have ha : a ≠ sep := fun heq => h (heq ▸ List.mem_cons_self)
      rw [List.cons_append, allLines, if_neg ha, ih fun hmem => h (List.mem_cons_of_mem a hmem)]

theorem allLines_last {line : List A} (h : sep ∉ line) (hne : line ≠ []) :
    allLines sep line = [line] := by
  induction line with
  | nil => exact absurd rfl hne
  | cons a line ih =>
      have ha : a ≠ sep := fun heq => h (heq ▸ List.mem_cons_self)
      have hline : sep ∉ line := fun hmem => h (List.mem_cons_of_mem a hmem)
      rw [allLines, if_neg ha]
      cases line with
      | nil => rfl
      | cons b line => rw [ih hline (List.cons_ne_nil b line)]

theorem allLines_unlines_append {ls : List (List A)} (h : ∀ line ∈ ls, sep ∉ line)
    (rest : List A) : allLines sep (unlines sep ls ++ rest) = ls ++ allLines sep rest := by
  induction ls with
  | nil => rfl
  | cons line ls ih =>
      have hrest := ih fun l hl => h l (List.mem_cons_of_mem line hl)
      rw [unlines_cons, List.append_assoc, List.cons_append,
        allLines_append (h line List.mem_cons_self), hrest]
      rfl

theorem allLines_ne_nil (a : A) (rest : List A) : allLines sep (a :: rest) ≠ [] := by
  rw [allLines]
  split
  · exact List.cons_ne_nil _ _
  · split
    · exact List.cons_ne_nil _ _
    · exact List.cons_ne_nil _ _

/-- What follows a separator begins with a line of its own. -/
theorem allLines_append_sep (before rest : List A) :
    allLines sep (before ++ sep :: rest) =
      allLines sep (before ++ [sep]) ++ allLines sep rest := by
  induction before with
  | nil => simp [allLines]
  | cons a before ih =>
      rw [List.cons_append, List.cons_append, allLines, allLines]
      split
      · rw [ih]
        rfl
      · rw [ih]
        cases hlines : allLines sep (before ++ [sep]) with
        | nil =>
            cases before with
            | nil => exact absurd hlines (allLines_ne_nil sep [])
            | cons b before => exact absurd hlines (allLines_ne_nil b _)
        | cons line more => rfl

/-! ### Windows -/

/-- The items that lie between `low` and `high` whole, when they follow each other from
`start` on. -/
def inWindow (size : B → Nat) (low high : Nat) : Nat → List B → List B
  | _, [] => []
  | start, b :: bs =>
      if low ≤ start ∧ start + size b ≤ high then b :: inWindow size low high (start + size b) bs
      else inWindow size low high (start + size b) bs

variable {size : B → Nat} {low high : Nat}

theorem inWindow_append (start : Nat) (bs bs' : List B) :
    inWindow size low high start (bs ++ bs') =
      inWindow size low high start bs ++
        inWindow size low high (start + (bs.map size).sum) bs' := by
  induction bs generalizing start with
  | nil => simp [inWindow]
  | cons b bs ih =>
      rw [List.cons_append, inWindow, inWindow, ih, List.map_cons, List.sum_cons, Nat.add_assoc]
      split
      · rfl
      · rfl

theorem inWindow_sublist (start : Nat) (bs : List B) :
    (inWindow size low high start bs).Sublist bs := by
  induction bs generalizing start with
  | nil => exact List.Sublist.slnil
  | cons b bs ih =>
      rw [inWindow]
      split
      · exact (ih _).cons_cons b
      · exact (ih _).cons b

/-- Items after the window. -/
theorem inWindow_after (start : Nat) (bs : List B) (hpos : ∀ b ∈ bs, 0 < size b)
    (h : high ≤ start) : inWindow size low high start bs = [] := by
  induction bs generalizing start with
  | nil => rfl
  | cons b bs ih =>
      have hb := hpos b List.mem_cons_self
      rw [inWindow, if_neg (by omega)]
      exact ih _ (fun b' hb' => hpos b' (List.mem_cons_of_mem b hb')) (by omega)

/-- Items before the window. -/
theorem inWindow_before (start : Nat) (bs : List B) (hpos : ∀ b ∈ bs, 0 < size b)
    (h : start + (bs.map size).sum ≤ low) : inWindow size low high start bs = [] := by
  induction bs generalizing start with
  | nil => rfl
  | cons b bs ih =>
      rw [List.map_cons, List.sum_cons] at h
      have hb := hpos b List.mem_cons_self
      rw [inWindow, if_neg (by omega)]
      exact ih _ (fun b' hb' => hpos b' (List.mem_cons_of_mem b hb')) (by omega)

/-- A window around all items. -/
theorem inWindow_all (start : Nat) (bs : List B) (hlow : low ≤ start)
    (hhigh : start + (bs.map size).sum ≤ high) : inWindow size low high start bs = bs := by
  induction bs generalizing start with
  | nil => rfl
  | cons b bs ih =>
      rw [List.map_cons, List.sum_cons] at hhigh
      rw [inWindow, if_pos ⟨hlow, by omega⟩, ih _ (by omega) (by omega)]

/-- Windows side by side: at most one of them has an item whole. -/
theorem window_unique {width j k a b : Nat} (hab : a < b)
    (hj : j * width ≤ a ∧ b ≤ j * width + width) (hk : k * width ≤ a ∧ b ≤ k * width + width) :
    j = k := by
  rcases Nat.lt_trichotomy j k with hlt | heq | hlt
  · have hnext := Nat.mul_le_mul_right width (Nat.succ_le_of_lt hlt)
    rw [Nat.succ_mul] at hnext
    omega
  · exact heq
  · have hnext := Nat.mul_le_mul_right width (Nat.succ_le_of_lt hlt)
    rw [Nat.succ_mul] at hnext
    omega

/-- The items of the window, by where they start and end. -/
theorem mem_inWindow_iff (start : Nat) (bs : List B) {b : B} :
    b ∈ inWindow size low high start bs ↔
      ∃ k, bs[k]? = some b ∧ low ≤ start + ((bs.take k).map size).sum ∧
        start + ((bs.take k).map size).sum + size b ≤ high := by
  induction bs generalizing start with
  | nil => simp [inWindow]
  | cons b' bs ih =>
      have hmem : b ∈ inWindow size low high start (b' :: bs) ↔
          (b = b' ∧ low ≤ start ∧ start + size b' ≤ high) ∨
            b ∈ inWindow size low high (start + size b') bs := by
        rw [inWindow]
        split
        · rename_i hin
          simp [hin]
        · rename_i hout
          simp [hout]
      rw [hmem, ih]
      constructor
      · rintro (⟨rfl, hin⟩ | ⟨k, hk, hin⟩)
        · exact ⟨0, rfl, by simpa using hin⟩
        · exact ⟨k + 1, by simpa using hk, by simpa [Nat.add_assoc] using hin⟩
      · rintro ⟨k, hk, hin⟩
        cases k with
        | zero =>
            cases hk
            exact .inl ⟨rfl, by simpa using hin⟩
        | succ k => exact .inr ⟨k, by simpa using hk, by simpa [Nat.add_assoc] using hin⟩

theorem mem_inWindow_singleton (start : Nat) {b : B} :
    b ∈ inWindow size low high start [b] ↔ low ≤ start ∧ start + size b ≤ high := by
  rw [inWindow]
  split
  · rename_i hin
    simp [hin]
  · rename_i hout
    simp [inWindow, hout]

/-- Items that are shifted together with the window. -/
theorem inWindow_shift (d start : Nat) (bs : List B) :
    inWindow size (low + d) (high + d) (start + d) bs = inWindow size low high start bs := by
  induction bs generalizing start with
  | nil => rfl
  | cons b bs ih =>
      rw [inWindow, inWindow, Nat.add_right_comm start d, ih]
      congr 1
      exact propext (by omega)

/-- Where the window starts does not matter to items behind its start. -/
theorem inWindow_low {low' : Nat} (start : Nat) (bs : List B) (h : low ≤ start)
    (h' : low' ≤ start) :
    inWindow size low high start bs = inWindow size low' high start bs := by
  induction bs generalizing start with
  | nil => rfl
  | cons b bs ih =>
      rw [inWindow, inWindow, ih _ (by omega) (by omega)]
      congr 1
      exact propext (by omega)

omit [DecidableEq A] in
variable (sep) in
/-- Dropping a line, its separator and more. -/
theorem drop_line (line rest : List A) (d : Nat) :
    (line ++ sep :: rest).drop (d + (line.length + 1)) = rest.drop d := by
  rw [List.drop_append, List.drop_eq_nil_of_le (by omega), List.nil_append,
    Nat.add_sub_assoc (by omega), Nat.add_sub_cancel_left]
  rfl

omit [DecidableEq A] in
variable (sep) in
/-- Taking a line, its separator and more. -/
theorem take_line (line rest : List A) (w : Nat) :
    (line ++ sep :: rest).take (line.length + (w + 1)) = line ++ sep :: rest.take w := by
  rw [List.take_length_add_append]
  rfl

/-- A window that starts in a line, or with it, and reaches beyond its separator. -/
theorem lines_window_beyond {line rest : List A} {low : Nat} (hsep : sep ∉ line)
    (hlow : low ≤ line.length) (w : Nat) :
    lines sep (((line ++ sep :: rest).drop low).take (line.length - low + (w + 1))) =
      line.drop low :: lines sep (rest.take w) := by
  have htake := take_line sep (line.drop low) rest w
  rw [List.length_drop] at htake
  rw [List.drop_append_of_le_length hlow, htake,
    lines_append fun hmem => hsep (List.mem_of_mem_drop hmem)]

/-- A window within a line sees no line. -/
theorem lines_window_within {line rest : List A} {low width : Nat} (hsep : sep ∉ line)
    (hlow : low ≤ line.length) (hwidth : width ≤ line.length - low) :
    lines sep (((line ++ sep :: rest).drop low).take width) = [] := by
  have htake : (line.drop low ++ sep :: rest).take width = (line.drop low).take width :=
    List.take_append_of_le_length (by rw [List.length_drop]; exact hwidth)
  rw [List.drop_append_of_le_length hlow, htake]
  exact lines_rest fun hmem => hsep (List.mem_of_mem_drop (List.mem_of_mem_take hmem))

/-- The window sees the items that lie in it whole, and before them at most the rest of one
that starts before it. -/
theorem lines_window (render : B → List A) {bs : List B} (hsep : ∀ b ∈ bs, sep ∉ render b)
    (low width : Nat) :
    ∃ pre, lines sep (((unlines sep (bs.map render)).drop low).take width) =
        pre ++ (inWindow (fun b => (render b).length + 1) low (low + width) 0 bs).map render ∧
      (∀ piece ∈ pre, ∃ b ∈ bs, ∃ k, 0 < k ∧ piece = (render b).drop k) ∧
      (low = 0 → pre = []) := by
  induction bs generalizing low width with
  | nil => exact ⟨[], by simp [unlines, lines, inWindow], by simp, fun _ => rfl⟩
  | cons b bs ih =>
      have hb := hsep b List.mem_cons_self
      have ih' := ih fun b' hb' => hsep b' (List.mem_cons_of_mem b hb')
      have hshift : ∀ d w, inWindow (fun b => (render b).length + 1) (d + ((render b).length + 1))
          (d + w + ((render b).length + 1)) (0 + ((render b).length + 1)) bs =
          inWindow (fun b => (render b).length + 1) d (d + w) 0 bs :=
        fun d w => inWindow_shift _ 0 bs
      rw [List.map_cons, unlines_cons]
      rcases Nat.lt_or_ge (render b).length low with hpast | hin
      · -- the window starts behind the line
        obtain ⟨d, rfl⟩ : ∃ d, low = d + ((render b).length + 1) :=
          ⟨low - ((render b).length + 1), by omega⟩
        obtain ⟨pre, hlines, hpre, -⟩ := ih' d width
        refine ⟨pre, ?_, fun piece hpiece => ?_, fun hzero => absurd hzero (by omega)⟩
        · rw [drop_line, hlines, inWindow, if_neg (by omega), ← hshift d width,
            Nat.add_right_comm d width]
        · obtain ⟨b', hb', k, hk, hpiece'⟩ := hpre piece hpiece
          exact ⟨b', List.mem_cons_of_mem b hb', k, hk, hpiece'⟩
      rcases Nat.lt_or_ge ((render b).length - low) width with hwide | hnarrow
      · obtain ⟨w, rfl⟩ : ∃ w, width = ((render b).length - low) + (w + 1) :=
          ⟨width - ((render b).length - low) - 1, by omega⟩
        obtain ⟨pre, hlines, -, hnil⟩ := ih' 0 w
        rw [List.drop_zero] at hlines
        have hrest : inWindow (fun b => (render b).length + 1) low
            (low + ((render b).length - low + (w + 1))) (0 + ((render b).length + 1)) bs =
            inWindow (fun b => (render b).length + 1) 0 (0 + w) 0 bs := by
          have hhigh : low + ((render b).length - low + (w + 1)) =
              0 + w + ((render b).length + 1) := by omega
          rw [hhigh, ← hshift 0 w]
          exact inWindow_low _ bs (by omega) (by omega)
        rw [lines_window_beyond hb hin, hlines, hnil rfl, inWindow, hrest]
        by_cases hlow : low = 0
        · subst hlow
          refine ⟨[], ?_, by simp, fun _ => rfl⟩
          rw [if_pos (by omega)]
          rfl
        · refine ⟨[(render b).drop low], ?_, ?_, fun hzero => absurd hzero hlow⟩
          · rw [if_neg (by omega)]
            rfl
          · intro piece hmem
            rw [List.mem_singleton.mp hmem]
            exact ⟨b, List.mem_cons_self, low, Nat.pos_of_ne_zero hlow, rfl⟩
      · refine ⟨[], ?_, by simp, fun _ => rfl⟩
        rw [lines_window_within hb hin hnarrow, inWindow, if_neg (by omega),
          inWindow_after _ _ (fun _ _ => Nat.succ_pos _) (by omega)]
        rfl

end HftProject.Lines
