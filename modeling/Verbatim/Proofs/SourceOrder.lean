import Verbatim.Proofs.LineTexts
import Verbatim.Proofs.WholeLines

/-!
# Numbers tell the order of the text

Headers and entries are numbered as they are read. So the numbers in a tree are distinct, and they order what was read as it
stands in the text. The lines in the body of a table, also those below dotted tables, come behind its header and before every
header that follows: no later header reaches into a dotted table or opens a table again.

## Main statements

- `Item.InSourceOrder` - the numbers of a tree tell the order of the text.
- `readTree_inSourceOrder` - those of the tree of a text do.
-/

namespace Verbatim

open List Render
open Item (numbered numberedEntry)

variable {limit : Nat} {source : List Char} {root x : Item} {trailing : SpanText}

/-- The numbers of header tables and entries, also of those in inline tables, tell the order of the text. -/
structure Item.InSourceOrder (root : Item) : Prop where
  distinct : ((collected numberedEntry numbered root.entries).map Prod.fst).Nodup
  positive : ∀ n ∈ collected numberedEntry numbered root.entries, 0 < n.1
  /-- What has the smaller number ends before the other one does. -/
  source : ∀ m ∈ collected numberedEntry numbered root.entries, ∀ n ∈ collected numberedEntry numbered root.entries,
    m.1 < n.1 → ∃ s t : Span, m.2 = some s ∧ n.2 = some t ∧ s.stop < t.stop
  /-- The lines in the body of a table are numbered between its header and the next one. -/
  bodies : ∀ t ∈ root.tables, t.1.IsHeader → ∀ l ∈ bodyIn [] t.2, ∃ p q, t.1.position = some p ∧ l.2.position = some q ∧
    p < q ∧ ∀ u ∈ root.tables, u.1.IsHeader → ∀ p' ∈ u.1.position, p < p' → q < p'

/-- A table with a header has its places in the tree, and so do the lines in its body. -/
theorem openedAt_subset_placed (source : Option (List Char)) (ht : t ∈ x.tables) (hheader : t.1.IsHeader)
    (isArray isRoot : Bool) : ∃ isArray' isRoot',
      openedAt (t.1.position.getD 0) t.1 isArray' isRoot' ((bodyIn [] t.2).map (placedLine source)) ⊆
        placed source isArray isRoot x := by
  induction x using Item.inductionOn generalizing isArray isRoot with
  | table i f es ih =>
    rw [Item.tables, mem_cons, Item.tablesBelow_eq, mem_flatMap] at ht
    rw [placed, placedBelow_eq]
    rcases ht with rfl | ⟨e, he, ht⟩
    · rw [hheader.explicit]
      exact ⟨isArray, isRoot, subset_append_left ..⟩
    · obtain ⟨a, r, hsub⟩ := ih e he ht false false
      exact ⟨a, r, fun y hy => mem_append_right _ (mem_flatMap.mpr ⟨e, he, hsub hy⟩)⟩
  | arrayOfTables i ts ih =>
    rw [Item.tables, Item.tablesEach_eq, mem_flatMap] at ht
    obtain ⟨u, hu, ht⟩ := ht
    rw [placed, placedEach_eq]
    obtain ⟨a, r, hsub⟩ := ih u hu ht true false
    exact ⟨a, r, fun y hy => mem_flatMap.mpr ⟨u, hu, hsub hy⟩⟩
  | _ => cases ht

/-- Of two members of an ordered list, one comes before the other. -/
private theorem pairwise_or {α : Type} {R : α → α → Prop} {l : List α} (h : l.Pairwise R) {a b : α} (ha : a ∈ l)
    (hb : b ∈ l) (hne : a ≠ b) : R a b ∨ R b a := by
  have : Std.Symm fun a b => R a b ∨ R b a := ⟨fun _ _ => Or.symm⟩
  exact (h.imp fun hab => Or.inl hab : l.Pairwise fun a b => R a b ∨ R b a).forall ha hb hne

/-- The lines in the body of a table are numbered between its header and the next one. -/
theorem LaidOut.between {lines : List (Line × List Char)} {tail : List Char} {es : List (Entry Item)}
    (h : LaidOut limit source root trailing lines tail es xs) (ht : t ∈ root.tables)
    (hheader : t.1.IsHeader) (hl : l ∈ bodyIn [] t.2) :
    ∃ p q, t.1.position = some p ∧ l.2.position = some q ∧ p < q ∧
      ∀ u ∈ root.tables, u.1.IsHeader → ∀ p' ∈ u.1.position, p < p' → q < p' := by
  have hmem := fun y => h.perm.mem_iff (a := y)
  -- places are in the order of the numbers
  have hordered : ∀ a ∈ placed (some source) false true root, ∀ b ∈ placed (some source) false true root, a ≠ b →
      (Before a b ∧ a.number < b.number) ∨ (Before b a ∧ b.number < a.number) := fun a ha b hb =>
    pairwise_or (h.sorted.and h.numbers) ((hmem a).mp ha) ((hmem b).mp hb)
  have hnonneg : ∀ y ∈ placed (some source) false true root, 0 ≤ y.1.2 ∧ 0 ≤ y.number := by
    intro y hy
    rcases mem_cons.mp ((hmem y).mp hy) with rfl | hy
    · exact ⟨Int.le_refl _, Int.le_refl _⟩
    · exact ⟨h.nonneg y hy, Int.le_of_lt ((pairwise_cons.mp h.numbers).1 y hy)⟩
  obtain ⟨p, hp⟩ := Option.isSome_iff_exists.mp hheader.placed
  obtain ⟨isArray, isRoot, hsub⟩ := openedAt_subset_placed (some source) ht hheader false true
  rw [hp, Option.getD_some] at hsub
  have hopen : ((p, 0), LineMark.opening t.1 isArray isRoot) ∈ placed (some source) false true root :=
    hsub mem_cons_self
  have hline : ((p, lineNumber l), LineMark.body (valueLine (some source) l.1 l.2)) ∈ placed (some source) false true root :=
    hsub (mem_cons_of_mem _ (mem_map.mpr ⟨_, mem_map_of_mem hl, rfl⟩))
  have hopened : 0 ≤ p := (hnonneg _ hopen).2
  have hplaced : 0 ≤ lineNumber l := (hnonneg _ hline).1
  have hlt : p < lineNumber l := by
    rcases hordered _ hopen _ hline (by simp) with hbefore | ⟨hbefore, -⟩
    · exact hbefore.2
    · simp only [Before] at hbefore
      omega
  cases hq : l.2.position with
  | none =>
    rw [lineNumber, hq, Option.getD_none] at hlt
    omega
  | some q =>
    rw [lineNumber, hq, Option.getD_some] at hlt hline
    refine ⟨p, q, hp, rfl, hlt, fun u hu huheader p' hp' hnext => ?_⟩
    obtain ⟨isArray', isRoot', hsub'⟩ := openedAt_subset_placed (some source) hu huheader false true
    rw [show u.1.position = some p' from hp', Option.getD_some] at hsub'
    rcases hordered _ hline _ (hsub' mem_cons_self) (by simp) with hbefore | ⟨hbefore, -⟩
    · exact hbefore.2
    · simp only [Before] at hbefore
      omega

/-- **Numbers tell the order of the text.** In the tree of a text all numbers, also those in inline tables, are positive and
distinct and in the order of the text, and the lines in the body of a table are numbered between its header and the next. -/
theorem readTree_inSourceOrder (h : readTree limit source = .ok (root, trailing)) : root.InSourceOrder := by
  obtain ⟨lines, tail, es, xs, hlaid⟩ := readTree_laidOut h
  obtain ⟨ns, hperm, hsorted, hpos⟩ := readTree_numbered h
  have hroot : root.numbered = (0, none) :: collected numberedEntry numbered root.entries := by
    rw [hlaid.table, Item.numbered_table]
    rfl
  rw [hroot, perm_cons] at hperm
  have hmem : ∀ n ∈ collected numberedEntry numbered root.entries, ∃ m ∈ ns, (m.1, some m.2) = n := fun n hn =>
    mem_map.mp (hperm.mem_iff.mp hn)
  refine ⟨?_, fun n hn => ?_, fun m hm n hn hlt => ?_, fun t ht hheader l hl => hlaid.between ht hheader hl⟩
  · rw [(hperm.map Prod.fst).nodup_iff, map_map]
    exact pairwise_map.mpr (hsorted.imp fun hlt => Int.ne_of_lt hlt.1)
  · obtain ⟨m, hm, rfl⟩ := hmem n hn
    exact hpos m hm
  · obtain ⟨m, hms, rfl⟩ := hmem m hm
    obtain ⟨n, hns, rfl⟩ := hmem n hn
    refine ⟨m.2, n.2, rfl, rfl, ?_⟩
    have hne : m ≠ n := by
      rintro rfl
      exact Int.lt_irrefl _ hlt
    rcases pairwise_or hsorted hms hns hne with hmn | hnm
    · exact hmn.2
    · exact absurd hlt (Int.lt_asymm hnm.1)

/-- A text with a dotted table, to whose entries a later header adds a table, and with an inline table. -/
theorem readTree_inSourceOrder_scattered : ∃ root trailing,
    readTree 9 "a.b = 1\n[t]\nc = \x7bd = 2\x7d\na.x = 3\n[u]\n[t.v]".toList = .ok (root, trailing) ∧
    root.InSourceOrder ∧ (root.numbered.map Prod.fst) = [0, 1, 2, 4, 3, 5, 7, 6] := by
  have hrun : (readTree 9 "a.b = 1\n[t]\nc = \x7bd = 2\x7d\na.x = 3\n[u]\n[t.v]".toList).toOption.map
      (fun r => r.1.numbered.map Prod.fst) = some [0, 1, 2, 4, 3, 5, 7, 6] := by decide +kernel
  rcases hread : readTree 9 "a.b = 1\n[t]\nc = \x7bd = 2\x7d\na.x = 3\n[u]\n[t.v]".toList with f | ⟨root, trailing⟩
  · rw [hread] at hrun
    cases hrun
  · rw [hread] at hrun
    exact ⟨root, trailing, rfl, readTree_inSourceOrder hread, Option.some.inj hrun⟩

end Verbatim
