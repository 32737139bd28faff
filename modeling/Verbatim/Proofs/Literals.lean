import Verbatim.Literal
import Verbatim.Proofs.Composed
import Verbatim.Proofs.Isolated

/-!
# Reading new keys and scalars back

Keys and scalars that an edit brings in are written in one fixed form. The strict reader takes such a text back for the key or
the value that it was written for, as long as something follows that ends it.
-/

namespace Verbatim

open List DataReader Cursor

variable {r t u : List Char} {c : Cursor} {names : List String} {x : Char} {v : Plain}

/-! ## Strings -/

namespace Text

theorem hexValue?_hexDigit (h : n < 16) : hexValue? (hexDigit n) = some n := by
  have hall : ∀ n : Fin 16, hexValue? (hexDigit n.val) = some n.val := by decide
  exact hall ⟨n, h⟩

theorem length_hexDigits (width n : Nat) : (hexDigits width n).length = width := by
  induction width generalizing n with
  | zero => rfl
  | succ width ih => rw [hexDigits, length_append, ih, length_singleton]

theorem hexNumber?_hexDigits (h : n < 16 ^ width) : hexNumber? (hexDigits width n) = some n := by
  induction width generalizing n with
  | zero =>
    obtain rfl : n = 0 := by simpa using h
    rfl
  | succ width ih =>
    have hrest : n / 16 < 16 ^ width := Nat.div_lt_of_lt_mul (by rwa [Nat.pow_succ'] at h)
    have hfold := ih hrest
    rw [hexNumber?] at hfold
    rw [hexDigits, hexNumber?, foldl_append, hfold, foldl_cons, foldl_nil,
      hexValue?_hexDigit (Nat.mod_lt n (by decide))]
    show some (n / 16 * 16 + n % 16) = some n
    rw [Nat.div_add_mod']

end Text

namespace Literal

/-- A text as it is written is a basic string that spells the text. -/
theorem basicRun_stringChars (text : List Char) : BasicRun false (text.flatMap stringChar ++ ['"']) text := by
  induction text with
  | nil => exact .close
  | cons c text ih =>
    rw [List.flatMap_cons, List.append_assoc, stringChar]
    split
    · next hmust =>
      -- the short escapes come before the one with digits
      rw [escaped]
      split
      · next hc =>
        subst hc
        exact .short rfl ih
      split
      · next hc =>
        subst hc
        exact .short rfl ih
      split
      · next hc =>
        subst hc
        exact .short rfl ih
      split
      · next hc =>
        subst hc
        exact .short rfl ih
      split
      · next hc =>
        subst hc
        exact .short rfl ih
      split
      · next hc =>
        subst hc
        exact .short rfl ih
      · next hquote hslash =>
        have hsmall : c.toNat < 128 := by
          simp only [mustEscape, Bool.or_eq_true, beq_iff_eq, Bool.and_eq_true, decide_eq_true_eq, hquote, hslash,
            false_or] at hmust
          omega
        have hvalid : isScalarValue c.toNat = true := by
          simp only [isScalarValue, Bool.or_eq_true, decide_eq_true_eq]
          omega
        have hrun := BasicRun.hex (.inl ⟨rfl, rfl⟩) (Text.length_hexDigits 4 c.toNat)
          (Text.hexNumber?_hexDigits (Nat.lt_trans hsmall (by decide))) hvalid ih
        rw [Char.ofNat_toNat] at hrun
        simpa using hrun
    · next hmust =>
      simp only [mustEscape, Bool.or_eq_true, beq_iff_eq, Bool.and_eq_true, decide_eq_true_eq, bne_iff_ne, ne_eq,
        not_or, not_and, Decidable.not_not] at hmust
      obtain ⟨⟨⟨hquote, hslash⟩, hcontrol⟩, hdelete⟩ := hmust
      refine .char hslash (fun h => absurd h hquote) (fun _ => ?_) ih
      simp only [Bool.false_eq_true, if_false, isIllegalInLine, isControl, Bool.and_eq_false_iff, bne_eq_false_iff_eq,
        Bool.or_eq_false_iff, decide_eq_false_iff_not, beq_eq_false_iff_ne]
      by_cases hlt : c.toNat < 32
      · exact .inr (hcontrol hlt)
      · exact .inl ⟨hlt, hdelete⟩

theorem toList_string (s : String) : (string s).toList = '"' :: (s.toList.flatMap stringChar ++ ['"']) := by
  simp [string, stringChars]

end Literal

/-! ## Keys -/

/-- What follows a key ends it: it begins with no character of bare keys and with no quotation mark. -/
def KeyEnds (r : List Char) : Prop := ∀ x ∈ r.head?, isBareKeyChar x = false ∧ x ≠ '"'

/-- A written key is a word of bare characters or a basic string. -/
theorem Literal.keyForm (name : String) : KeyForm (key name).toList name := by
  nth_rewrite 2 [← String.ofList_toList (s := name)]
  rw [key]
  split
  · next hbare =>
    simp only [isBareName, Bool.and_eq_true, Bool.not_eq_true', isEmpty_eq_false_iff, all_eq_true] at hbare
    exact .bare hbare.1 hbare.2
  · rw [toList_string]
    exact @KeyForm.quoted false _ _ (basicRun_stringChars _)

theorem takeWhile_of_ends (ht : ∀ x ∈ t, p x = true) (hr : ∀ x ∈ r.head?, p x = false) :
    (t ++ r).takeWhile p = t ∧ (t ++ r).dropWhile p = r := by
  rw [takeWhile_append_of_pos ht, dropWhile_append_of_pos ht]
  cases r with
  | nil => simp
  | cons x r => simp [hr x rfl]

/-! ## Key paths -/

/-- What follows a key path: an equals sign or a closing bracket. -/
def PathEnds (r : List Char) : Prop := ∃ u, r = '=' :: u ∨ r = ']' :: u

theorem PathEnds.head (h : PathEnds r) : ∀ x ∈ r.head?, isBlank x = false ∧ x ≠ '.' := by
  obtain ⟨u, rfl | rfl⟩ := h <;> simp only [head?_cons, Option.mem_def, Option.some.injEq, forall_eq'] <;> decide

theorem PathEnds.keyEnds (h : PathEnds r) : KeyEnds r := by
  obtain ⟨u, rfl | rfl⟩ := h <;>
  · rintro x ⟨⟩
    decide

theorem keyEnds_point (r : List Char) : KeyEnds ('.' :: r) := by
  intro x hx
  cases hx
  decide

/-! ## Scalars -/

/-- What follows a value ends it: it begins with no character of scalars and with no quotation mark. -/
def ValueEnds (r : List Char) : Prop := ∀ x ∈ r.head?, isScalarChar x = false ∧ x ≠ '"' ∧ x ≠ '\''

/-- A reader of data takes a text for a value, wherever the text stands. -/
def Takes (read : Cursor → Step Plain) (t : List Char) (v : Plain) : Prop :=
  ∀ c r, c.rest = t ++ r → ValueEnds r → ∃ d, read c = .ok (v, d) ∧ d.rest = r

/-- The beginning of a value: nothing that is passed over, and no closing bracket. -/
def BeginsValue (t : List Char) : Prop :=
  ∃ x u, t = x :: u ∧ isBlankOrNewline x = false ∧ x ≠ '#' ∧ x ≠ ']' ∧ x ≠ '\r'

/-- A text on one line that the strict reader takes for a value. -/
structure Readable (t : List Char) (v : Plain) : Prop where
  /-- It begins like a value. -/
  head : BeginsValue t
  /-- It stands on one line. -/
  plain : ∀ x ∈ t, x ≠ '\n' ∧ x ≠ '\r'
  /-- The strict reader finds the value. -/
  read : ∀ n, Takes (value n) t v

/-- A written text is read back. -/
theorem readable_string (s : String) : Readable (Literal.string s).toList (.string s) := by
  have hrun := Literal.basicRun_stringChars s.toList
  rw [Literal.toList_string]
  have hplain : ∀ x ∈ '"' :: (s.toList.flatMap Literal.stringChar ++ ['"']), x ≠ '\n' ∧ x ≠ '\r' := by
    rw [List.forall_mem_cons]
    exact ⟨by decide, (hrun.scan_line []).1⟩
  generalize s.toList.flatMap Literal.stringChar ++ ['"'] = u at hrun hplain
  refine ⟨⟨'"', u, rfl, by decide⟩, hplain, ?_⟩
  intro n c r hc hr
  obtain ⟨pos, rest⟩ := c
  cases hc
  obtain ⟨q, hq⟩ := @LineRun.read u s.toList false hrun r pos
  have hmark : Cursor.startsWith [markOf false] ⟨pos, '"' :: (u ++ r)⟩ = true := startsWith_singleton.mpr ⟨_, rfl⟩
  have hone := @LineRun.startsWith_eq u s.toList false r hrun (fun x hx => (hr x hx).2.1) pos
  refine ⟨⟨q, r⟩, ?_, rfl⟩
  rw [value_scalar n rfl (by decide)]
  exact (scalar_string_iff hmark).mpr ⟨s.toList, (stringValue_of_mark hmark hone).trans hq, by rw [String.ofList_toList]⟩

/-- A word that the strict reader takes whole is a value wherever it ends. -/
theorem readable_bare (hne : t ≠ []) (hall : ∀ x ∈ t, isScalarChar x = true) (hdate : isDateShape t = false)
    (hread : ∃ d, bareScalar ⟨4, t⟩ = .ok (v, d) ∧ d.rest = []) : Readable t v := by
  obtain ⟨x, u, rfl⟩ := exists_cons_of_ne_nil hne
  have hx := hall x mem_cons_self
  have hne' : ∀ {y}, isScalarChar y = false → x ≠ y := ne_of_isScalarChar hx
  have hplain : ∀ y ∈ x :: u, y ≠ '\n' ∧ y ≠ '\r' := fun y hy =>
    ⟨ne_of_isScalarChar (hall y hy) (by decide), ne_of_isScalarChar (hall y hy) (by decide)⟩
  have hblank := isBlank_of_isScalarChar hx
  obtain ⟨d, hbare, hd⟩ := hread
  refine ⟨⟨x, u, rfl, ?_, hne' (by decide), hne' (by decide), hne' (by decide)⟩, hplain, ?_⟩
  · simp [isBlankOrNewline, hblank, hne' (show isScalarChar '\n' = false by decide)]
  · intro n c r hc hr
    obtain ⟨pos, rest⟩ := c
    cases hc
    rw [value_bare n rfl hx]
    have hread := bareScalar_append (fun y hy => (hr y hy).1) (fun h => by rw [hdate] at h; cases h) 4 pos hbare
    rwa [hd, nil_append] at hread

theorem readable_boolean (b : Bool) : Readable (if b then "true" else "false").toList (.boolean b) := by
  cases b
  · exact readable_bare (by decide) (all_eq_true.mp (by decide)) (by decide) ⟨⟨9, []⟩, rfl, rfl⟩
  · exact readable_bare (by decide) (all_eq_true.mp (by decide)) (by decide) ⟨⟨8, []⟩, rfl, rfl⟩

/-! ## Integers -/

theorem isDecimal_of_mem_toDigits (hx : x ∈ Nat.toDigits 10 m) : isDecimal x = true := by
  have hdigit := Nat.isDigit_of_mem_toDigits (by decide) (by decide) hx
  simp only [Char.isDigit, Bool.and_eq_true, decide_eq_true_eq] at hdigit
  simp only [isDecimal, Bool.and_eq_true, decide_eq_true_eq]
  exact hdigit

/-- Only zero itself is written with a leading zero. -/
theorem toDigits_zero_head (h : Nat.toDigits 10 m = '0' :: u) : u = [] := by
  have hpos : ∀ k, 0 < k → ∀ x ∈ (Nat.toDigits 10 k).head?, x ≠ '0' := by
    intro k
    induction k using Nat.strongRecOn with
    | ind k ih =>
      intro hk x hx
      rw [Nat.toDigits_eq_if (by decide)] at hx
      split at hx
      · next hlt =>
        have hall : ∀ j : Fin 10, 0 < j.val → Nat.digitChar j.val ≠ '0' := by decide
        cases hx
        exact hall ⟨k, hlt⟩ hk
      · next hlt =>
        obtain ⟨y, u, hy⟩ := exists_cons_of_ne_nil (@Nat.toDigits_ne_nil (k / 10) 10)
        rw [hy] at hx
        obtain rfl : y = x := Option.some.inj hx
        exact ih (k / 10) (by omega) (by omega) y (by rw [hy]; rfl)
  rcases Nat.eq_zero_or_pos m with rfl | hm
  · rw [Nat.toDigits_zero] at h
    exact (cons.inj h).2.symm
  · exact absurd rfl (hpos m hm '0' (by rw [h]; rfl))

theorem numeral_toDigits (m : Nat) : numeral 10 (Nat.toDigits 10 m) = m := by
  have hfold : ∀ (ds : List Char) (k : Nat), (∀ x ∈ ds, isDecimal x = true) →
      ds.foldl (fun n c => n * 10 + (hexValue? c).getD 0) k = Nat.ofDigitChars 10 ds k := by
    intro ds
    induction ds with
    | nil => exact fun k _ => Nat.ofDigitChars_nil.symm
    | cons x ds ih =>
      intro k hds
      have hx : hexValue? x = some (x.toNat - 48) := by
        have hx := hds x mem_cons_self
        simp only [isDecimal, Bool.and_eq_true, decide_eq_true_eq] at hx
        exact if_pos hx
      rw [foldl_cons, Nat.ofDigitChars_cons, ih _ fun y hy => hds y (mem_cons_of_mem _ hy), hx, Nat.mul_comm]
      rfl
  rw [numeral, hfold _ _ fun x hx => isDecimal_of_mem_toDigits hx, Nat.ofDigitChars_ten_toDigits]

theorem moreDigits_all (h : ∀ x ∈ ds, isDecimal x = true) : moreDigits isDecimal ds = (ds, []) := by
  induction ds with
  | nil => rfl
  | cons x ds ih =>
    rw [moreDigits_digit ds (h x mem_cons_self), ih fun y hy => h y (mem_cons_of_mem _ hy)]

theorem wholePart?_toDigits (m : Nat) : wholePart? (Nat.toDigits 10 m) = some (Nat.toDigits 10 m, []) := by
  have hall : ∀ x ∈ Nat.toDigits 10 m, isDecimal x = true := fun x hx => isDecimal_of_mem_toDigits hx
  have hzero : ∀ u, Nat.toDigits 10 m = '0' :: u → u = [] := fun u hu => toDigits_zero_head hu
  have hne := @Nat.toDigits_ne_nil m 10
  generalize Nat.toDigits 10 m = ds at hall hzero hne
  rw [wholePart?.eq_def]
  split
  · next u => rw [hzero u rfl]
  · cases ds with
    | nil => exact absurd rfl hne
    | cons x ds =>
      rw [digitRun, if_pos (hall x mem_cons_self), moreDigits_all fun y hy => hall y (mem_cons_of_mem _ hy)]

/-- Behind the first character of a written integer stand decimal digits only, so that it is neither a date nor a time
nor a number of another base. -/
theorem number?_of_tail (h : ∀ x ∈ t.tail, isDecimal x = true) :
    isDateShape t = false ∧ dateTime? t = none ∧ localTime? t = none ∧ number? t = decimal? t := by
  have hshape : ∀ {ten rest : List Char}, t = ten ++ rest → isDateShape ten = false := by
    intro ten rest ht
    rw [Bool.eq_false_iff]
    intro hten
    rw [isDateShape.eq_def] at hten
    split at hten
    · subst ht
      exact absurd (h '-' (by simp)) (by decide)
    · cases hten
  refine ⟨hshape (append_nil t).symm, ?_, ?_, ?_⟩
  · have hnumbers : dateNumbers? t = none := by
      rw [Option.eq_none_iff_forall_ne_some]
      rintro ⟨d, rest⟩ hd
      obtain ⟨ten, ht, -, hten, -⟩ := of_dateNumbers? hd
      rw [hshape ht] at hten
      cases hten
    rw [dateTime?, hnumbers]
    rfl
  · rw [Option.eq_none_iff_forall_ne_some]
    intro time htime
    simp only [localTime?, Option.bind_eq_bind, Option.bind_eq_some_iff] at htime
    obtain ⟨⟨hour, u⟩, hhour, ⟨minute, v⟩, hminute, -⟩ := htime
    obtain ⟨a, b, rfl, -⟩ := of_twoDigits? hhour
    rw [colonDigits?.eq_def] at hminute
    split at hminute
    · next w hw =>
      obtain rfl : u = ':' :: w := hw
      exact absurd (h ':' (by simp)) (by decide)
    · cases hminute
  · have hbased : basedInteger? t = none := by
      rw [basedInteger?.eq_def]
      split
      · next mark rest =>
        have hmark := h mark (by simp)
        have hbase : baseOf? mark = none := by
          rw [baseOf?.eq_def]
          split <;> first | exact absurd hmark (by decide) | rfl
        rw [hbase]
        rfl
      · rfl
    rw [number?, hbased]

theorem decimal?_toDigits (m : Nat) :
    decimal? (Nat.toDigits 10 m) = some (.integer m (Nat.toDigits 10 m).length, []) ∧
      decimal? ('-' :: Nat.toDigits 10 m) = some (.integer (-m) (Nat.toDigits 10 m).length, []) := by
  have hwhole := wholePart?_toDigits m
  have hnumeral := numeral_toDigits m
  have hsign : sign? (Nat.toDigits 10 m) = (false, Nat.toDigits 10 m) := by
    have hall : ∀ x ∈ Nat.toDigits 10 m, isDecimal x = true := fun x hx => isDecimal_of_mem_toDigits hx
    generalize Nat.toDigits 10 m = ds at hall
    rw [sign?.eq_def]
    split
    · exact absurd (hall '+' (by simp)) (by decide)
    · exact absurd (hall '-' (by simp)) (by decide)
    · rfl
  have hsign' : sign? ('-' :: Nat.toDigits 10 m) = (true, Nat.toDigits 10 m) := rfl
  refine ⟨?_, ?_⟩
  · simp only [decimal?, hsign, hwhole, Option.bind_eq_bind, Option.bind_some, fraction, exponent?, hnumeral,
      Bool.false_eq_true, if_false]
  · simp only [decimal?, hsign', hwhole, Option.bind_eq_bind, Option.bind_some, fraction, exponent?, hnumeral, if_true]

/-- Words that stand for values begin with a letter. -/
theorem word?_words_of_head (hx : x ≠ 't' ∧ x ≠ 'f') (p : Nat) : word? words ⟨p, x :: u⟩ = none := by
  have htrue : startsWith "true".toList ⟨p, x :: u⟩ = false := by
    simp [startsWith, isPrefixOf, hx.1.symm]
  have hfalse : startsWith "false".toList ⟨p, x :: u⟩ = false := by
    simp [startsWith, isPrefixOf, hx.2.symm]
  rw [word?, words, find?_cons, htrue, find?_cons, hfalse, find?_nil]
  rfl

private theorem readable_number (hne : t ≠ []) (hhead : ∀ x ∈ t.head?, isDecimal x = true ∨ x = '-')
    (htail : ∀ x ∈ t.tail, isDecimal x = true) (hdecimal : decimal? t = some (.integer n digits, []))
    (hdigits : digits ≤ maxIntegerDigits) : Readable t (.integer n) := by
  obtain ⟨hdate, hdateTime, htime, hnumber⟩ := number?_of_tail htail
  obtain ⟨x, u, rfl⟩ := exists_cons_of_ne_nil hne
  have hx := hhead x rfl
  have hscalar : isScalarChar x = true := by
    rcases hx with hx | rfl
    · exact isScalarChar_of_isDecimal hx
    · decide
  have hletter : x ≠ 't' ∧ x ≠ 'f' := by
    refine ⟨?_, ?_⟩ <;>
    · rintro rfl
      exact absurd hx (by decide)
  refine readable_bare hne ?_ hdate ⟨moveTo ⟨4, x :: u⟩ [], ?_, ?_⟩
  · rw [forall_mem_cons]
    exact ⟨hscalar, fun y hy => isScalarChar_of_isDecimal (htail y hy)⟩
  · rw [bareScalar, word?_words_of_head hletter]
    simp only [hdateTime, htime, hnumber, hdecimal, numberValue, Nat.not_lt.mpr hdigits, if_false]
  · simp [moveTo, Cursor.drop]

/-- A written integer is read back. -/
theorem readable_integer (h : n.natAbs < 10 ^ maxIntegerDigits) : Readable (toString n).toList (.integer n) := by
  have hlength : ∀ {m : Nat}, m = n.natAbs → (Nat.toDigits 10 m).length ≤ maxIntegerDigits := fun hm =>
    (Nat.length_toDigits_le_iff (by decide) (by decide)).mpr (hm ▸ h)
  have hdigits : ∀ {m : Nat}, ∀ x ∈ Nat.toDigits 10 m, isDecimal x = true := fun x hx => isDecimal_of_mem_toDigits hx
  rw [Int.toString_eq_repr, Int.repr_eq_if]
  split
  · next hn =>
    obtain ⟨m, rfl⟩ := Int.eq_ofNat_of_zero_le hn
    rw [Int.toNat_natCast, Nat.toList_repr]
    exact readable_number Nat.toDigits_ne_nil (fun x hx => .inl (hdigits x (mem_of_mem_head? hx)))
      (fun x hx => hdigits x (mem_of_mem_tail hx)) (decimal?_toDigits m).1 (hlength rfl)
  · next hn =>
    obtain ⟨m, hm⟩ := Int.eq_ofNat_of_zero_le (show 0 ≤ -n by omega)
    obtain rfl : n = -m := by omega
    rw [Int.neg_neg, Int.toNat_natCast, String.toList_append, Nat.toList_repr]
    exact readable_number (cons_ne_nil _ _) (fun x hx => .inr (Option.some.inj hx).symm) (fun x hx => hdigits x hx)
      (decimal?_toDigits m).2 (hlength (by simp))

/-- The literal of a scalar is read back. -/
theorem readable_scalar (h : v.SimpleScalar) : ∃ t, Literal.ofPlain v = .ok t ∧ Readable t.toList v := by
  cases h with
  | string s => exact ⟨_, rfl, readable_string s⟩
  | boolean b => exact ⟨_, rfl, readable_boolean b⟩
  | @integer n digits =>
    refine ⟨toString n, ?_, readable_integer digits⟩
    have hsmall : Literal.tooManyDigits n = false := by
      rw [maxIntegerDigits] at digits
      rw [Literal.tooManyDigits, decide_eq_false_iff_not]
      exact Nat.not_le.mpr digits
    simp only [Literal.ofPlain, Literal.scalar?, hsmall, Bool.false_eq_true, if_false]

end Verbatim
