import Verbatim.Proofs.DocumentData

/-!
# Marks along key paths

Whether a path is declared, and whether a change below it is refused, is asked of the marks of its names one after the
other. Each way to set or to drop marks changes the answers for the paths that it is about and for no other.
-/

namespace Verbatim.DataReader

open List

namespace Marks

/-! ## One name at a time -/

theorem lookup_put_self (name : String) (m : Marks) (bs : List (String × Marks)) : (put name m bs).lookup name = some m := by
  induction bs with
  | nil => simp [put]
  | cons b bs ih =>
    obtain ⟨k, x⟩ := b
    rw [put]
    split
    · next h => simp [beq_iff_eq.mp h]
    · next h =>
      have hne : (name == k) = false := beq_eq_false_iff_ne.mpr fun heq => h (beq_iff_eq.mpr heq.symm)
      simp only [lookup_cons, hne, ih]

theorem lookup_put_of_ne (h : k ≠ name) (m : Marks) (bs : List (String × Marks)) :
    (put name m bs).lookup k = bs.lookup k := by
  have hne : (k == name) = false := beq_eq_false_iff_ne.mpr h
  induction bs with
  | nil => simp only [put, lookup_cons, hne]
  | cons b bs ih =>
    obtain ⟨l, x⟩ := b
    rw [put]
    split
    · next hl =>
      obtain rfl : l = name := beq_iff_eq.mp hl
      simp only [lookup_cons, hne]
    · rw [lookup_cons, lookup_cons, ih]

theorem forget_cons (h : ks ≠ []) (k : String) (hm : bs.lookup k = some m) :
    forget (k :: ks) (.node d s bs) = .node d s (put k (forget ks m) bs) := by
  cases ks with
  | nil => exact absurd rfl h
  | cons k' ks => rw [forget, hm]; simp

theorem lookup_filter_ne (name : String) (bs : List (String × Marks)) (h : k = name ∨ bs.lookup k = none) :
    (bs.filter fun b => b.1 != name).lookup k = none := by
  induction bs with
  | nil => rfl
  | cons b bs ih =>
    obtain ⟨l, x⟩ := b
    rw [filter_cons]
    by_cases hk : k = l
    · subst hk
      rcases h with rfl | h
      · simpa using ih (.inl rfl)
      · simp at h
    · have hne : (k == l) = false := beq_eq_false_iff_ne.mpr hk
      simp only [lookup_cons, hne] at h
      split
      · simpa only [lookup_cons, hne] using ih h
      · exact ih h

/-- The marks below one name, which are blank if there are none. -/
def child (m : Marks) (k : String) : Marks := (m.children.lookup k).getD blank

theorem isDeclared_cons_eq (k : String) (ks : List String) (m : Marks) :
    isDeclared (k :: ks) m = if ks = [] then (m.child k).declared else isDeclared ks (m.child k) := by
  cases ks with
  | nil =>
    rw [if_pos rfl, child]
    show ((m.children.lookup k).map declared).getD false = _
    cases m.children.lookup k <;> rfl
  | cons k' ks =>
    rw [if_neg (by simp), isDeclared, child]
    · cases m.children.lookup k with
      | none => cases ks <;> rfl
      | some x => rfl
    · simp

theorem isClosed_cons (k : String) (ks : List String) (m : Marks) :
    isClosed (k :: ks) m = ((m.child k).closed || isClosed ks (m.child k)) := by
  rw [isClosed, child]
  cases m.children.lookup k with
  | none => cases ks <;> rfl
  | some x => rfl

theorem isClosed_append (p q : List String) (m : Marks) (h : isClosed p m = true) : isClosed (p ++ q) m = true := by
  induction p generalizing m with
  | nil => cases h
  | cons k p ih =>
    rw [cons_append, isClosed_cons, Bool.or_eq_true]
    rw [isClosed_cons, Bool.or_eq_true] at h
    exact h.imp_right (ih _)

/-- On the way to a path that is not closed nothing is closed. -/
theorem isClosed_of_prefix (h : isClosed path m = false) (hp : p <+: path) : isClosed p m = false := by
  obtain ⟨q, rfl⟩ := hp
  exact Bool.eq_false_iff.mpr fun hyes => absurd ((isClosed_append p q m hyes).symm.trans h) (by decide)

/-! ## New marks -/

theorem declared_change_cons (f : Marks → Marks) (k : String) (ks : List String) (m : Marks) :
    (change f (k :: ks) m).declared = m.declared := by
  obtain ⟨d, s, bs⟩ := m
  rfl

theorem closed_change_cons_eq (f : Marks → Marks) (k : String) (ks : List String) (m : Marks) :
    (change f (k :: ks) m).closed = m.closed := by
  obtain ⟨d, s, bs⟩ := m
  rfl

/-- A change below a name leaves the other names as they are. -/
theorem child_change (f : Marks → Marks) (k k' : String) (ks : List String) (m : Marks) :
    (change f (k :: ks) m).child k' = if k' = k then change f ks (m.child k) else m.child k' := by
  obtain ⟨d, s, bs⟩ := m
  show ((put k _ bs).lookup k').getD blank = _
  split
  · next h =>
    subst h
    rw [lookup_put_self]
    rfl
  · next h =>
    rw [lookup_put_of_ne h]
    rfl

section

variable (p q : List String) (m : Marks)

include p q m

/-- Exactly one more path is declared. -/
theorem isDeclared_declare :
    isDeclared p (declare q m) = (isDeclared p m || (decide (p = q) && !p.isEmpty)) := by
  induction q generalizing p m with
  | nil =>
    -- the mark of the empty path is never asked for
    cases p with
    | nil => simp [isDeclared]
    | cons k p =>
      rw [isDeclared_cons_eq, isDeclared_cons_eq]
      simp [declare, change, child, children]
  | cons k q ih =>
    cases p with
    | nil => simp [isDeclared]
    | cons k' p =>
      rw [isDeclared_cons_eq, isDeclared_cons_eq, declare, child_change]
      by_cases hk : k' = k
      · subst hk
        rw [if_pos rfl]
        split
        · next hp =>
          subst hp
          cases q with
          | nil => simp [change, declared]
          | cons k q => simp [declared_change_cons]
        · next hp =>
          rw [← declare, ih]
          have hsome : p.isEmpty = false := by simpa using hp
          simp [hsome]
      · simp [hk]

theorem isClosed_declare : isClosed p (declare q m) = isClosed p m := by
  induction q generalizing p m with
  | nil =>
    cases p with
    | nil => rfl
    | cons k p => rw [isClosed_cons, isClosed_cons]; rfl
  | cons k q ih =>
    cases p with
    | nil => rfl
    | cons k' p =>
      rw [isClosed_cons, isClosed_cons, declare, child_change]
      split
      · next hk =>
        subst hk
        have hclosed : (declare q (m.child k')).closed = (m.child k').closed := by
          cases q with
          | nil => rfl
          | cons k q => exact closed_change_cons_eq _ _ _ _
        rw [← declare, hclosed, ih]
      · rfl

theorem isDeclared_close : isDeclared p (close q m) = isDeclared p m := by
  induction q generalizing p m with
  | nil =>
    cases p with
    | nil => rfl
    | cons k p => rw [isDeclared_cons_eq, isDeclared_cons_eq]; rfl
  | cons k q ih =>
    cases p with
    | nil => rfl
    | cons k' p =>
      rw [isDeclared_cons_eq, isDeclared_cons_eq, close, child_change]
      by_cases hk : k' = k
      · subst hk
        rw [if_pos rfl, ← close, ih]
        split
        · cases q with
          | nil => rfl
          | cons k q => exact declared_change_cons _ _ _ _
        · rfl
      · rw [if_neg hk]

/-- What is at a closed path or below it is closed. -/
theorem isClosed_close :
    isClosed p (close q m) = (isClosed p m || (!q.isEmpty && q.isPrefixOf p)) := by
  induction q generalizing p m with
  | nil =>
    cases p with
    | nil => simp [isClosed]
    | cons k p =>
      rw [isClosed_cons, isClosed_cons]
      simp [close, change, child, children]
  | cons k q ih =>
    cases p with
    | nil => simp [isClosed]
    | cons k' p =>
      rw [isClosed_cons, isClosed_cons, close, child_change]
      by_cases hk : k' = k
      · subst hk
        rw [if_pos rfl, ← close, ih]
        cases q with
        | nil => simp [close, change, closed]
        | cons k q => simp [close, closed_change_cons_eq, Bool.or_assoc]
      · simp [hk, Ne.symm hk]

end

/-! ## Dropped marks -/

theorem forget_blank (q : List String) : forget q blank = blank := by
  cases q with
  | nil => rfl
  | cons k q => cases q <;> rfl

theorem lookup_filter_of_ne (h : k' ≠ k) (bs : List (String × Marks)) :
    (bs.filter fun b => b.1 != k).lookup k' = bs.lookup k' := by
  induction bs with
  | nil => rfl
  | cons b bs ih =>
    obtain ⟨l, x⟩ := b
    by_cases hl : l = k
    · subst hl
      have hne : (k' == l) = false := beq_eq_false_iff_ne.mpr h
      simpa only [filter_cons, bne_self_eq_false, Bool.false_eq_true, if_false, lookup_cons, hne] using ih
    · have hkeep : (l != k) = true := bne_iff_ne.mpr hl
      simp only [filter_cons, hkeep, if_true, lookup_cons, ih]

/-- Marks are dropped below one name only. -/
theorem child_forget (k k' : String) (ks : List String) (m : Marks) :
    (forget (k :: ks) m).child k' =
      if k' = k then (if ks = [] then blank else forget ks (m.child k)) else m.child k' := by
  obtain ⟨d, s, bs⟩ := m
  cases ks with
  | nil =>
    show ((bs.filter fun b => b.1 != k).lookup k').getD blank = _
    split
    · next h =>
      rw [lookup_filter_ne k bs (.inl h)]
      rfl
    · next h =>
      rw [lookup_filter_of_ne h]
      rfl
  | cons k₂ ks =>
    rw [if_neg (cons_ne_nil k₂ ks)]
    cases hfound : bs.lookup k with
    | none =>
      -- there is nothing to drop
      have hchild : child (.node d s bs) k = blank := by
        show (bs.lookup k).getD blank = blank
        rw [hfound]
        rfl
      have hforget : forget (k :: k₂ :: ks) (.node d s bs) = .node d s bs := by
        rw [forget, hfound]
        simp
      rw [hforget, hchild, forget_blank]
      split
      · next h => rw [h, hchild]
      · rfl
    | some x =>
      have hchild : child (.node d s bs) k = x := by
        show (bs.lookup k).getD blank = x
        rw [hfound]
        rfl
      rw [forget_cons (cons_ne_nil k₂ ks) k hfound, hchild]
      show ((put k _ bs).lookup k').getD blank = _
      split
      · next h =>
        rw [h, lookup_put_self]
        rfl
      · next h =>
        rw [lookup_put_of_ne h]
        rfl

theorem declared_forget (q : List String) (m : Marks) : (forget q m).declared = m.declared := by
  obtain ⟨d, s, bs⟩ := m
  cases q with
  | nil => rfl
  | cons k q =>
    cases q with
    | nil => rfl
    | cons k₂ q =>
      rw [forget]
      · split <;> rfl
      · simp

theorem closed_forget (q : List String) (m : Marks) : (forget q m).closed = m.closed := by
  obtain ⟨d, s, bs⟩ := m
  cases q with
  | nil => rfl
  | cons k q =>
    cases q with
    | nil => rfl
    | cons k₂ q =>
      rw [forget]
      · split <;> rfl
      · simp

theorem isDeclared_blank (p : List String) : isDeclared p blank = false := by
  cases p with
  | nil => rfl
  | cons k p => cases p <;> rfl

theorem isClosed_blank (p : List String) : isClosed p blank = false := by cases p <;> rfl

/-- What is at a path or below it is not declared when its marks are dropped. -/
theorem isDeclared_forget (p : List String) (hq : q ≠ []) (m : Marks) :
    isDeclared p (forget q m) = (isDeclared p m && !q.isPrefixOf p) := by
  induction q generalizing p m with
  | nil => exact absurd rfl hq
  | cons k q ih =>
    cases p with
    | nil => simp [isDeclared]
    | cons k' p =>
      rw [isDeclared_cons_eq, isDeclared_cons_eq, child_forget]
      by_cases hk : k' = k
      · subst hk
        rw [if_pos rfl]
        by_cases hnil : q = []
        · subst hnil
          have hnone : (if p = [] then blank.declared else isDeclared p blank) = false := by
            split
            · rfl
            · exact isDeclared_blank p
          simp [hnone]
        · rw [if_neg hnil, declared_forget, ih p hnil]
          by_cases hp : p = []
          · subst hp
            obtain ⟨k₂, q, rfl⟩ := exists_cons_of_ne_nil hnil
            simp
          · simp [hp]
      · have hne : (k == k') = false := beq_eq_false_iff_ne.mpr (Ne.symm hk)
        simp [hk, List.isPrefixOf, hne]

/-- At a path or below it only the marks above it count when its marks are dropped. -/
theorem isClosed_forget (p : List String) (hq : q ≠ []) (m : Marks) :
    isClosed p (forget q m) = if q.isPrefixOf p then isClosed q.dropLast m else isClosed p m := by
  induction q generalizing p m with
  | nil => exact absurd rfl hq
  | cons k q ih =>
    cases p with
    | nil => simp [isClosed]
    | cons k' p =>
      rw [isClosed_cons, child_forget]
      by_cases hk : k' = k
      · subst hk
        rw [if_pos rfl]
        by_cases hnil : q = []
        · subst hnil
          have hnone : (blank.closed || isClosed p blank) = false := isClosed_blank p
          simp [hnone, isClosed]
        · rw [if_neg hnil, closed_forget, ih p hnil, dropLast_cons_of_ne_nil hnil, isClosed_cons, isClosed_cons]
          by_cases hp : q.isPrefixOf p = true <;> simp [hp]
      · have hne : (k == k') = false := beq_eq_false_iff_ne.mpr (Ne.symm hk)
        rw [if_neg hk, isClosed_cons]
        simp [List.isPrefixOf, hne]

end Marks

/-! ## Pending paths -/

theorem isDeclared_foldl_declare (p : List String) (ps : List (List String)) (m : Marks) :
    (ps.foldl (fun m p => m.declare p) m).isDeclared p = (m.isDeclared p || (ps.contains p && !p.isEmpty)) := by
  induction ps generalizing m with
  | nil => simp
  | cons q ps ih =>
    rw [foldl_cons, ih, Marks.isDeclared_declare, contains_cons]
    by_cases hp : p = q
    · cases q <;> simp [hp]
    · have hne : (p == q) = false := beq_eq_false_iff_ne.mpr hp
      simp [hp, hne]

theorem isClosed_foldl_declare (p : List String) (ps : List (List String)) (m : Marks) :
    (ps.foldl (fun m p => m.declare p) m).isClosed p = m.isClosed p := by
  induction ps generalizing m with
  | nil => rfl
  | cons q ps ih => rw [foldl_cons, ih, Marks.isClosed_declare]

/-- Behind a header the pending paths are declared, too. -/
theorem Reading.isDeclared_settle (s : Reading) (p : List String) :
    s.settle.marks.isDeclared p = (s.marks.isDeclared p || (s.pending.contains p && !p.isEmpty)) :=
  isDeclared_foldl_declare p s.pending s.marks

theorem Reading.isClosed_settle (s : Reading) (p : List String) : s.settle.marks.isClosed p = s.marks.isClosed p :=
  isClosed_foldl_declare p s.pending s.marks

end Verbatim.DataReader
