import Verbatim.Line.Value
import Verbatim.DataReader.Document

/-!
# A scalar does not depend on what follows it

Numbers, words, dates and times are recognised by the longest text of their form. All characters of these forms belong to
one class, so a token read by itself and the same token before a character of no such form give the same value and end at
the same place. Only a space behind a date needs a closer look, because a time may follow it.
-/

namespace Verbatim.DataReader

open List Cursor

variable {x : Char} {r t rest : List Char} {v : Plain} {isDigit : Char → Bool} {α : Type}

/-- A text that continues no scalar. -/
def Ends (r : List Char) : Prop := ∀ x ∈ r.head?, isScalarChar x = false

/-- A recogniser that takes no notice of what follows its token. -/
def Local {α : Type} (f : List Char → Option (α × List Char)) : Prop :=
  ∀ t r, Ends r → f (t ++ r) = (f t).map (Prod.map id (· ++ r))

theorem Ends.head (h : Ends (x :: r)) : isScalarChar x = false := h x rfl

theorem ne_of_isScalarChar (hx : isScalarChar x = true) (hy : isScalarChar y = false) : x ≠ y := by
  rintro rfl
  rw [hy] at hx
  cases hx

theorem Ends.ne (h : Ends (x :: r)) (hy : isScalarChar y = true) : x ≠ y := (ne_of_isScalarChar hy h.head).symm

namespace Local

variable {β : Type} {f g : List Char → Option (α × List Char)}

theorem none : Local fun _ => (Option.none : Option (α × List Char)) := fun _ _ _ => rfl

theorem some (a : α) : Local fun t => Option.some (a, t) := fun _ _ _ => rfl

theorem ite [Decidable p] (hf : Local f) (hg : Local g) : Local fun t => if p then f t else g t := by
  by_cases hp : p
  · simpa only [hp, if_true] using hf
  · simpa only [hp, if_false] using hg

/-- One form behind another. -/
theorem bind (hf : Local f) (hk : ∀ a, Local fun t => k (a, t)) : Local fun t => (f t).bind k := by
  intro t r h
  simp only [hf t r h]
  cases f t with
  | none => rfl
  | some x => exact hk x.1 x.2 r h

/-- A form that is recognised by its first character, which is one of scalars. -/
theorem cons (hnil : f [] = Option.none) (hcons : ∀ x, Local fun t => f (x :: t))
    (hno : ∀ x, isScalarChar x = false → ∀ t, f (x :: t) = Option.none) : Local f := by
  intro t r h
  cases t with
  | cons x t => exact hcons x t r h
  | nil =>
    cases r with
    | nil => simp [hnil]
    | cons x r => rw [nil_append, hno x h.head, hnil, Option.map_none]

end Local

/-! ## Digits -/

theorem isScalarChar_of_isDecimal (h : isDecimal x = true) : isScalarChar x = true := by
  simp only [isDecimal] at h
  simp [isScalarChar, h]

theorem isScalarChar_of_hexValue? (h : (hexValue? x).isSome = true) : isScalarChar x = true := by
  simp only [hexValue?] at h
  split at h
  · next hx => simp [isScalarChar, hx]
  · split at h
    · next hx =>
      have : x ≤ 'z' := Char.le_trans hx.2 (by decide)
      simp [isScalarChar, hx.1, this]
    · split at h
      · next hx =>
        have : x ≤ 'Z' := Char.le_trans hx.2 (by decide)
        simp [isScalarChar, hx.1, this]
      · cases h

/-- Every digit of a base is a character of scalars. -/
theorem isScalarChar_of_baseOf? (h : baseOf? mark = some (base, isDigit)) (hx : isDigit x = true) :
    isScalarChar x = true := by
  rw [baseOf?.eq_def] at h
  split at h
  · cases h
    exact isScalarChar_of_hexValue? hx
  · cases h
    have hx : x = '0' ∨ x = '1' := by simpa using hx
    rcases hx with rfl | rfl <;> decide
  · cases h
    simp only [Bool.and_eq_true, decide_eq_true_eq] at hx
    have : x ≤ '9' := Char.le_trans hx.2 (by decide)
    simp [isScalarChar, hx.1, this]
  · cases h

theorem moreDigits_digit (t : List Char) (hx : isDigit x = true) :
    moreDigits isDigit (x :: t) = (x :: (moreDigits isDigit t).1, (moreDigits isDigit t).2) := by
  rw [moreDigits.eq_def]
  simp only [hx, if_true]

theorem moreDigits_underscore (t : List Char) (hno : isDigit '_' = false) (hy : isDigit y = true) :
    moreDigits isDigit ('_' :: y :: t) = (y :: (moreDigits isDigit t).1, (moreDigits isDigit t).2) := by
  rw [moreDigits.eq_def]
  simp only [hno, hy, Bool.false_eq_true, if_false, if_true]

/-- A run stops at a character that is no digit, unless it is an underscore before a digit. -/
theorem moreDigits_stop (hx : isDigit x = false) (h : x = '_' → ∀ y ∈ t.head?, isDigit y = false) :
    moreDigits isDigit (x :: t) = ([], x :: t) := by
  rw [moreDigits.eq_def]
  simp only [hx, Bool.false_eq_true, if_false]
  split
  · next y rest => simp [h rfl y rfl]
  · rfl

section Digits

variable {isDigit : Char → Bool} (hdigit : ∀ x, isDigit x = true → isScalarChar x = true)

include hdigit

theorem Ends.not_digit (h : Ends r) : ∀ x ∈ r.head?, isDigit x = false := by
  intro x hx
  cases hd : isDigit x with
  | false => rfl
  | true => exact absurd (hdigit x hd) (by simp [h x hx])

theorem moreDigits_append (t : List Char) (h : Ends r) :
    moreDigits isDigit (t ++ r) = ((moreDigits isDigit t).1, (moreDigits isDigit t).2 ++ r) := by
  induction hn : t.length using Nat.strongRecOn generalizing t with
  | ind n ih =>
    subst hn
    cases t with
    | nil =>
      cases r with
      | nil => rfl
      | cons x r =>
        have hne := h.ne (y := '_') (by decide)
        exact moreDigits_stop (h.not_digit hdigit x rfl) fun hx => absurd hx hne
    | cons x t =>
      cases hx : isDigit x with
      | true =>
        have htail := ih t.length (by simp) t rfl
        rw [cons_append, moreDigits_digit _ hx, moreDigits_digit _ hx, htail]
      | false =>
        cases t with
        | nil =>
          rw [singleton_append, moreDigits_stop hx fun _ => h.not_digit hdigit, moreDigits_stop hx (by simp)]
          rfl
        | cons z u =>
          by_cases hrun : x = '_' ∧ isDigit z = true
          · obtain ⟨rfl, hz⟩ := hrun
            have htail := ih u.length (by simp only [length_cons]; omega) u rfl
            rw [cons_append, cons_append, moreDigits_underscore _ hx hz, moreDigits_underscore _ hx hz, htail]
          · -- the next character is the same whether something follows the token or not
            have hstop : ∀ v : List Char, x = '_' → ∀ y ∈ (z :: v).head?, isDigit y = false := by
              intro v hunderscore y hy
              cases hy
              simpa [hunderscore] using hrun
            rw [cons_append, cons_append, moreDigits_stop hx (hstop _), moreDigits_stop hx (hstop _)]
            rfl

theorem local_digitRun : Local (digitRun isDigit) := by
  refine .cons rfl (fun x => .ite (fun t r h => ?_) .none) fun x hx t => if_neg fun hd => ?_
  · rw [moreDigits_append hdigit t h]
    rfl
  · exact absurd (hdigit x hd) (by simp [hx])

end Digits

/-! ## Numbers -/

theorem baseOf?_of_isScalarChar (h : isScalarChar x = false) : baseOf? x = none := by
  rw [baseOf?.eq_def]
  split <;> first | rfl | exact absurd h (by decide)

theorem basedInteger?_zero (mark : Char) (t : List Char) :
    basedInteger? ('0' :: mark :: t) =
      (baseOf? mark).bind fun b => (digitRun b.2 t).bind fun d => some (numeral b.1 d.1, d.2) := rfl

theorem basedInteger?_of_ne (t : List Char) (h : x ≠ '0') : basedInteger? (x :: t) = none := by
  rw [basedInteger?.eq_def]
  split
  · next heq => exact absurd (cons.inj heq).1 h
  · rfl

theorem local_basedInteger? : Local basedInteger? := by
  refine .cons rfl (fun x => ?_) fun x hx t => basedInteger?_of_ne t (ne_of_isScalarChar (by decide) hx).symm
  by_cases hzero : x = '0'
  · subst hzero
    refine .cons rfl (fun mark => ?_) fun mark hmark t => ?_
    · simp only [basedInteger?_zero]
      cases hbase : baseOf? mark with
      | none => exact .none
      | some b => exact (local_digitRun fun x hx => isScalarChar_of_baseOf? hbase hx).bind fun digits => .some (numeral b.1 digits)
    · rw [basedInteger?_zero, baseOf?_of_isScalarChar hmark]
      rfl
  · simp only [basedInteger?_of_ne _ hzero]
    exact .none

theorem sign?_append (t : List Char) (h : Ends r) : sign? (t ++ r) = ((sign? t).1, (sign? t).2 ++ r) := by
  cases t with
  | nil =>
    cases r with
    | nil => rfl
    | cons x r =>
      rw [nil_append, sign?]
      · rfl
      · rintro rest heq
        exact h.ne (by decide) (cons.inj heq).1
      · rintro rest heq
        exact h.ne (by decide) (cons.inj heq).1
  | cons x t =>
    rw [cons_append, sign?.eq_def, sign?.eq_def]
    split <;> simp_all

theorem local_wholePart? : Local wholePart? := by
  intro t r h
  have hrun := local_digitRun (fun x => isScalarChar_of_isDecimal) t r h
  cases t with
  | nil =>
    cases r with
    | nil => rfl
    | cons x r =>
      rw [nil_append] at hrun ⊢
      rw [wholePart?.eq_def]
      split
      · next heq => exact absurd (cons.inj heq).1 (h.ne (by decide))
      · exact hrun
  | cons x t =>
    rw [cons_append] at hrun ⊢
    rw [wholePart?.eq_def, wholePart?.eq_def]
    by_cases hx : x = '0'
    · subst hx
      rfl
    · split
      · next heq => exact absurd (cons.inj heq).1 hx
      · split
        · next heq => exact absurd (cons.inj heq).1 hx
        · exact hrun

theorem fraction_of_ne (h : t.head? ≠ some '.') : fraction t = ([], t) := by
  rw [fraction.eq_def]
  split
  · exact absurd rfl h
  · rfl

theorem fraction_append (t : List Char) (h : Ends r) : fraction (t ++ r) = ((fraction t).1, (fraction t).2 ++ r) := by
  cases t with
  | nil =>
    have hr : r.head? ≠ some '.' := fun hr => absurd (h '.' hr) (by decide)
    exact fraction_of_ne hr
  | cons x t =>
    by_cases hx : x = '.'
    · subst hx
      have hrun := local_digitRun (fun x => isScalarChar_of_isDecimal) t r h
      rw [cons_append, fraction, fraction, hrun]
      cases digitRun isDecimal t <;> rfl
    · rw [fraction_of_ne (t := x :: t) (by simpa using hx), cons_append, fraction_of_ne (by simpa using hx)]

theorem local_exponent? : Local exponent? := by
  refine .cons rfl (fun x t r h => ?_) fun x hx t => if_neg ?_
  · simp only [exponent?, sign?_append t h]
    split
    · have hrun := local_digitRun (fun x => isScalarChar_of_isDecimal) (sign? t).2 r h
      simp only [hrun]
      cases digitRun isDecimal (sign? t).2 <;> rfl
    · rfl
  · rintro (rfl | rfl) <;> exact absurd hx (by decide)

theorem local_decimal? : Local decimal? := by
  intro t r h
  rw [decimal?, decimal?, sign?_append t h]
  simp only [local_wholePart? (sign? t).2 r h]
  cases wholePart? (sign? t).2 with
  | none => rfl
  | some w =>
    obtain ⟨whole, afterWhole⟩ := w
    have hexp := local_exponent? (fraction afterWhole).2 r h
    simp only [Option.map_some, Prod.map_apply, id_eq, Option.bind_eq_bind, Option.bind_some,
      fraction_append afterWhole h, hexp]
    generalize (fraction afterWhole).1 = digits
    generalize (fraction afterWhole).2 = afterFraction
    rcases exponent? afterFraction with _ | ⟨e, tail⟩ <;> cases digits <;> rfl

theorem local_number? : Local number? := by
  intro t r h
  rw [number?, number?, local_basedInteger? t r h]
  cases basedInteger? t with
  | none => exact local_decimal? t r h
  | some n => rfl

/-! ## Dates and times -/

theorem isDecimal_of_isScalarChar (h : isScalarChar x = false) : isDecimal x = false :=
  Bool.eq_false_iff.mpr fun hx => absurd (isScalarChar_of_isDecimal hx) (by simp [h])

theorem local_twoDigits? (least bound : Nat) : Local (twoDigits? least bound) := by
  refine .cons rfl (fun a => .cons rfl (fun b => .ite (.ite (.some _) .none) .none) fun b hb t => ?_) fun a ha t => ?_
  · simp [twoDigits?, isDecimal_of_isScalarChar hb]
  · cases t with
    | nil => rfl
    | cons b t => simp [twoDigits?, isDecimal_of_isScalarChar ha]

theorem colonDigits?_of_ne (bound : Nat) (t : List Char) (h : x ≠ ':') : colonDigits? bound (x :: t) = none := by
  rw [colonDigits?.eq_def]
  split
  · next heq => exact absurd (cons.inj heq).1 h
  · rfl

theorem local_colonDigits? (bound : Nat) : Local (colonDigits? bound) := by
  refine .cons rfl (fun x => ?_) fun x hx t => colonDigits?_of_ne bound t (ne_of_isScalarChar (by decide) hx).symm
  by_cases hcolon : x = ':'
  · subst hcolon
    exact local_twoDigits? 0 bound
  · simp only [colonDigits?_of_ne bound _ hcolon]
    exact .none

theorem takeWhile_append_of_ends (hp : ∀ x, p x = true → isScalarChar x = true) (t : List Char) (h : Ends r) :
    (t ++ r).takeWhile p = t.takeWhile p ∧ (t ++ r).dropWhile p = t.dropWhile p ++ r := by
  induction t with
  | nil =>
    cases r with
    | nil => exact ⟨rfl, rfl⟩
    | cons x r =>
      have hx := h.not_digit hp x rfl
      simp [hx]
  | cons x t ih =>
    rw [cons_append, takeWhile_cons, dropWhile_cons, ih.1, ih.2, takeWhile_cons, dropWhile_cons]
    split <;> exact ⟨rfl, rfl⟩

theorem microseconds_of_ne (h : t.head? ≠ some '.') : microseconds t = (0, t) := by
  rw [microseconds.eq_def]
  split
  · exact absurd rfl h
  · rfl

theorem microseconds_append (t : List Char) (h : Ends r) :
    microseconds (t ++ r) = ((microseconds t).1, (microseconds t).2 ++ r) := by
  cases t with
  | nil =>
    have hr : r.head? ≠ some '.' := fun hr => absurd (h '.' hr) (by decide)
    exact microseconds_of_ne hr
  | cons x t =>
    by_cases hx : x = '.'
    · subst hx
      obtain ⟨htake, hdrop⟩ := takeWhile_append_of_ends (fun x => isScalarChar_of_isDecimal) t h
      rw [cons_append, microseconds, microseconds]
      simp only [htake, hdrop]
      split <;> rfl
    · rw [microseconds_of_ne (t := x :: t) (by simpa using hx), cons_append, microseconds_of_ne (by simpa using hx)]

theorem local_localTime? : Local localTime? := by
  refine (local_twoDigits? 0 24).bind fun hour => (local_colonDigits? 60).bind fun minute =>
    (local_colonDigits? 60).bind fun second t r h => ?_
  simp only [microseconds_append t h]
  rfl

theorem local_zone? : Local zone? := by
  refine .cons rfl (fun x => .ite (.some _) (.ite ((local_twoDigits? 0 24).bind fun hours =>
    (local_colonDigits? 60).bind fun minutes => .some _) .none)) fun x hx t => ?_
  have hne : ∀ y, isScalarChar y = true → x ≠ y := fun y hy => (ne_of_isScalarChar hy hx).symm
  simp [zone?, hne 'Z' (by decide), hne 'z' (by decide), hne '+' (by decide), hne '-' (by decide)]

theorem of_twoDigits? (h : twoDigits? least bound t = some (n, rest)) :
    ∃ a b, t = a :: b :: rest ∧ isDecimal a = true ∧ isDecimal b = true ∧
      ∀ u, twoDigits? least bound (a :: b :: u) = some (n, u) := by
  rw [twoDigits?.eq_def] at h
  split at h
  · next a b u =>
    split at h
    · next hdigits =>
      dsimp only at h
      split at h
      · next hrange =>
        cases h
        have hab := Bool.and_eq_true_iff.mp hdigits
        exact ⟨a, b, rfl, hab.1, hab.2, fun u => by simp [twoDigits?, hdigits, hrange]⟩
      · cases h
    · cases h
  · cases h

theorem isDecimalDigit_of_isDecimal (h : isDecimal x = true) : Text.isDecimalDigit x = true := by
  simp only [isDecimal, Bool.and_eq_true, decide_eq_true_eq] at h
  have h₁ : 48 ≤ x.toNat := h.1
  have h₂ : x.toNat ≤ 57 := h.2
  have hzero : (decide (0x30 ≤ x.toNat) && decide (x.toNat < 0x30 + 10)) = true := by
    simp only [Bool.and_eq_true, decide_eq_true_eq]
    omega
  simp [Text.isDecimalDigit, Text.digitValue?, Text.digitZeros, hzero]

/-- A date is ten characters long, of the shape of a date, and what follows it does not matter. -/
theorem of_dateNumbers? (h : dateNumbers? t = some (d, rest)) :
    ∃ ten, t = ten ++ rest ∧ ten.length = 10 ∧ isDateShape ten = true ∧ (∀ x ∈ ten, isScalarChar x = true) ∧
      ∀ u, dateNumbers? (ten ++ u) = some (d, u) := by
  rw [dateNumbers?.eq_def] at h
  split at h
  · next a b c e u =>
    split at h
    · next hyear =>
      simp only [Option.bind_eq_bind, Option.bind_eq_some_iff] at h
      obtain ⟨⟨month, v⟩, hmonth, h⟩ := h
      dsimp only at h
      split at h
      · next w =>
        simp only [Option.bind_eq_some_iff] at h
        obtain ⟨⟨day, w'⟩, hday, h⟩ := h
        cases h
        obtain ⟨f, g, rfl, hf, hg, hmonths⟩ := of_twoDigits? hmonth
        obtain ⟨i, j, rfl, hi, hj, hdays⟩ := of_twoDigits? hday
        have hall : ∀ x ∈ [a, b, c, e, f, g, i, j], isDecimal x = true := by
          simp only [all_cons, all_nil, Bool.and_true, Bool.and_eq_true] at hyear
          simp [hyear, hf, hg, hi, hj]
        refine ⟨[a, b, c, e, '-', f, g, '-', i, j], rfl, rfl, ?_, ?_, fun u => ?_⟩
        · rw [isDateShape, all_eq_true]
          exact fun x hx => isDecimalDigit_of_isDecimal (hall x hx)
        · intro x hx
          by_cases hdash : x = '-'
          · subst hdash
            decide
          · refine isScalarChar_of_isDecimal (hall x ?_)
            simp only [mem_cons, hdash, false_or] at hx ⊢
            exact hx
        · simp only [cons_append, nil_append]
          rw [dateNumbers?.eq_def]
          simp only [hyear, if_true, hmonths, hdays, Option.bind_eq_bind, Option.bind_some]
      · cases h
    · cases h
  · cases h

theorem local_dateNumbers? : Local dateNumbers? := by
  intro t r h
  cases ht : dateNumbers? t with
  | some p =>
    obtain ⟨ten, rfl, -, -, -, hten⟩ := of_dateNumbers? ht
    rw [append_assoc, hten]
    rfl
  | none =>
    cases htr : dateNumbers? (t ++ r) with
    | none => rfl
    | some p =>
      exfalso
      obtain ⟨ten, heq, hlength, -, hscalar, hten⟩ := of_dateNumbers? htr
      rcases append_eq_append_iff.mp heq with ⟨u, hu, hr⟩ | ⟨u, rfl, -⟩
      · -- the date would reach into what follows the token
        cases u with
        | nil =>
          rw [append_nil] at hu
          have hdate := hten []
          rw [hu, append_nil, ht] at hdate
          cases hdate
        | cons x u =>
          subst hr
          exact absurd (hscalar x (by simp [hu])) (by simp [h.head])
      · rw [hten] at ht
        cases ht

theorem timeAfterDate?_append (hne : t ≠ []) (h : Ends r) :
    timeAfterDate? (t ++ r) = (timeAfterDate? t).map (Prod.map id (· ++ r)) := by
  cases t with
  | nil => exact absurd rfl hne
  | cons x t =>
    rw [cons_append, timeAfterDate?, timeAfterDate?, local_localTime? t r h]
    split
    · cases localTime? t with
      | none => rfl
      | some time =>
        simp only [Option.map_some, Option.bind_eq_bind, Option.bind_some, Prod.map_snd, Prod.map_fst, id_eq,
          local_zone? time.2 r h]
        cases zone? time.2 <;> rfl
    · rfl

/-- Behind a date no time follows unless a space does. -/
theorem timeAfterDate?_of_ends (h : Ends r) (hno : ∀ u, r = ' ' :: u → localTime? u = none) : timeAfterDate? r = none := by
  cases r with
  | nil => rfl
  | cons x r =>
    have hT := h.ne (y := 'T') (by decide)
    have ht := h.ne (y := 't') (by decide)
    rw [timeAfterDate?]
    by_cases hx : x = ' '
    · rw [if_pos (.inr (.inr hx)), hno r (by rw [hx])]
      rfl
    · rw [if_neg]
      simp [hT, ht, hx]

/-- A date or time takes no notice of what follows it, unless a date is followed by a space and a time. -/
theorem dateTime?_append (t : List Char) (h : Ends r) (hno : isDateShape t = true → ∀ u, r = ' ' :: u → localTime? u = none) :
    dateTime? (t ++ r) = (dateTime? t).map (Prod.map id (· ++ r)) := by
  rw [dateTime?, dateTime?, local_dateNumbers? t r h]
  cases ht : dateNumbers? t with
  | none => rfl
  | some p =>
    obtain ⟨date, rest⟩ := p
    simp only [Option.map_some, Option.bind_eq_bind, Option.bind_some, Prod.map_apply, id_eq]
    cases rest with
    | nil =>
      obtain ⟨ten, rfl, -, hshape, -, -⟩ := of_dateNumbers? ht
      rw [append_nil] at hno
      rw [nil_append, timeAfterDate?_of_ends h (hno hshape)]
      rfl
    | cons x rest =>
      rw [timeAfterDate?_append (by simp) h]
      cases timeAfterDate? (x :: rest) <;> rfl

/-! ## Words -/

/-- A word of characters of scalars stands at the head of a token whatever follows the token. -/
theorem isPrefixOf_append_of_ends {w : List Char} (hw : ∀ x ∈ w, isScalarChar x = true) (t : List Char) (h : Ends r) :
    w.isPrefixOf (t ++ r) = w.isPrefixOf t := by
  induction w generalizing t with
  | nil => simp
  | cons x w ih =>
    cases t with
    | nil =>
      cases r with
      | nil => rfl
      | cons y r =>
        have hne : y ≠ x := h.ne (hw x (mem_cons_self ..))
        simp [isPrefixOf, hne.symm]
    | cons y t =>
      have := ih (fun z hz => hw z (mem_cons_of_mem _ hz)) t
      simp only [cons_append, isPrefixOf, this]

theorem find?_word_append {table : List (List Char × α)} (hw : ∀ w ∈ table, ∀ x ∈ w.1, isScalarChar x = true) (t : List Char)
    (h : Ends r) (p q : Nat) :
    (table.find? fun w => startsWith w.1 ⟨q, t ++ r⟩) = table.find? fun w => startsWith w.1 ⟨p, t⟩ := by
  induction table with
  | nil => rfl
  | cons w table ih =>
    have hword := isPrefixOf_append_of_ends (hw w (mem_cons_self ..)) t h
    simp only [find?_cons, startsWith, hword]
    split
    · rfl
    · exact ih fun w hw' => hw w (mem_cons_of_mem _ hw')

/-- What a reader gives: the value and the text behind it. -/
def taken (s : Option (α × Cursor)) : Option (α × List Char) := s.map fun x => (x.1, x.2.rest)

/-- A word of the token is found whatever follows the token. -/
theorem word?_append {table : List (List Char × α)} (hw : ∀ w ∈ table, ∀ x ∈ w.1, isScalarChar x = true) (t : List Char)
    (h : Ends r) (p q : Nat) :
    taken (word? table ⟨q, t ++ r⟩) = (taken (word? table ⟨p, t⟩)).map (Prod.map id (· ++ r)) := by
  rw [word?, word?, find?_word_append hw t h p q]
  cases hfind : table.find? fun w => startsWith w.1 ⟨p, t⟩ with
  | none => rfl
  | some w =>
    have hword : w.1.isPrefixOf t = true := by simpa [startsWith] using find?_some hfind
    have hlength := (List.isPrefixOf_iff_prefix.mp hword).length_le
    exact congrArg (fun rest => some (w.2, rest)) (drop_append_of_le_length hlength)

/-! ## Scalars -/

theorem rest_moveTo_append (p q : Nat) (t r rest : List Char) :
    (moveTo ⟨q, t ++ r⟩ (rest ++ r)).rest = (moveTo ⟨p, t⟩ rest).rest ++ r := by
  simp only [moveTo, Cursor.drop, length_append, Nat.add_sub_add_right]
  exact drop_append_of_le_length (Nat.sub_le _ _)

theorem toOption_numberValue (n : Number) (c d : Cursor) : (numberValue n c).toOption = (numberValue n d).toOption := by
  cases n with
  | float x => rfl
  | integer n digits =>
    rw [numberValue, numberValue]
    split <;> rfl

theorem scalarChars_words : ∀ w ∈ words, ∀ x ∈ w.1, isScalarChar x = true := by
  have h : (words.all fun w => w.1.all isScalarChar) = true := by decide
  simpa only [all_eq_true] using h

theorem scalarChars_floatWords : ∀ w ∈ floatWords, ∀ x ∈ w.1, isScalarChar x = true := by
  have h : (floatWords.all fun w => w.1.all isScalarChar) = true := by decide
  simpa only [all_eq_true] using h

section

variable (h : Ends r) (hno : isDateShape t = true → ∀ u, r = ' ' :: u → localTime? u = none) (p q : Nat)

include h hno p q

/-- A scalar takes no notice of a text behind it that does not continue it. -/
theorem taken_bareScalar :
    taken (bareScalar ⟨q, t ++ r⟩).toOption = (taken (bareScalar ⟨p, t⟩).toOption).map (Prod.map id (· ++ r)) := by
  have hwords := word?_append scalarChars_words t h p q
  have hfloats := word?_append scalarChars_floatWords t h p q
  have hmoved : ∀ (x : Plain) (rest : List Char), some (x, (moveTo ⟨q, t ++ r⟩ (rest ++ r)).rest) =
      some (x, (moveTo ⟨p, t⟩ rest).rest ++ r) := fun x rest => by rw [rest_moveTo_append p q]
  rw [bareScalar, bareScalar]
  simp only [dateTime?_append t h hno, local_localTime? t r h, local_number? t r h]
  generalize word? words ⟨p, t⟩ = w, word? words ⟨q, t ++ r⟩ = w' at hwords
  generalize word? floatWords ⟨p, t⟩ = v, word? floatWords ⟨q, t ++ r⟩ = v' at hfloats
  rcases w with _ | w <;> rcases w' with _ | w'
  · rcases dateTime? t with _ | ⟨_ | date, rest⟩
    · rcases localTime? t with _ | ⟨time, rest⟩
      · rcases number? t with _ | ⟨n, rest⟩
        · rcases v with _ | v <;> rcases v' with _ | v'
          · rfl
          · cases hfloats
          · cases hfloats
          · exact congrArg (Option.map (Prod.map Data.float id)) hfloats
        · have hvalue := toOption_numberValue n ⟨p, t⟩ ⟨q, t ++ r⟩
          dsimp only [Option.map_some, Prod.map_apply, id_eq]
          generalize numberValue n ⟨p, t⟩ = x, numberValue n ⟨q, t ++ r⟩ = y at hvalue ⊢
          rcases x with _ | x <;> rcases y with _ | y <;> cases hvalue
          · rfl
          · exact hmoved x rest
      · exact hmoved (.time time) rest
    · rfl
    · exact hmoved date rest
  · cases hwords
  · cases hwords
  · exact hwords

/-- A scalar that is read from a token is read from the token before such a text. -/
theorem bareScalar_append
    (ht : bareScalar ⟨p, t⟩ = .ok (v, d)) : ∃ d', bareScalar ⟨q, t ++ r⟩ = .ok (v, d') ∧ d'.rest = d.rest ++ r := by
  have htaken := taken_bareScalar h hno p q
  rw [ht] at htaken
  rcases hr : bareScalar ⟨q, t ++ r⟩ with _ | ⟨w, d'⟩ <;> rw [hr] at htaken
  · cases htaken
  · obtain ⟨rfl, hrest⟩ := Prod.mk.inj (Option.some.inj htaken)
    exact ⟨d', rfl, hrest⟩

/-- Of a token before such a text the reader takes what it takes of the token alone. -/
theorem bareScalar_of_append
    (hr : bareScalar ⟨q, t ++ r⟩ = .ok (v, d')) : ∃ d, bareScalar ⟨p, t⟩ = .ok (v, d) ∧ d'.rest = d.rest ++ r := by
  have htaken := taken_bareScalar h hno p q
  rw [hr] at htaken
  rcases ht : bareScalar ⟨p, t⟩ with _ | ⟨w, d⟩ <;> rw [ht] at htaken
  · cases htaken
  · obtain ⟨rfl, hrest⟩ := Prod.mk.inj (Option.some.inj htaken)
    exact ⟨d, rfl, hrest⟩

end

end Verbatim.DataReader
