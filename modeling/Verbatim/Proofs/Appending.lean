import Verbatim.Proofs.Copying

/-!
# Elements that are appended to an array

A new element stands behind all others: right behind the opening bracket if there are none, behind the trailing comma and
followed by another one if there is such a comma, and otherwise behind a comma of its own, right before the closing bracket.
Comments and line ends of the array stay where they are, and the text can be read back.

## Main statements

- `valueRepr_append` - how the text of an array that was read grows.
- `Workspace.append_inserts_element` - the text of a document after an element is appended to an array of it.
-/

namespace Verbatim

open List DataReader Render Item

/-! ## A text with another value in one place -/

section Parsed

variable {options : ReadOptions} {src : Source} {s : Snapshot} (hs : parse options src = .ok s) {path : List Segment}
  {x x' : Item} {span : Span}
include hs

/-- The tree of a text with another value in one place is written as the text with the spelling of that value there. -/
theorem parse_replaced (hx : s.root.follow path = .ok x) (hframe : x.isFrame = false) (hspan : x.info.span = some span)
    (hvalue : x'.isValue = true) (hplain : x'.isDotted = false) (hdecor : x'.decor? = x.decor?)
    (ht : valueRepr (some s.source.toList) x' = .ok (String.ofList t)) :
    Ascending 0 s.source.length [span] ∧
      ∀ layout, renderTree layout (some s.source.toList) (s.root.replaceAt path x') (some s.trailing) =
        .ok (String.ofList (slice s.source.toList ⟨0, span.start⟩ ++ t ++ slice s.source.toList ⟨span.stop, s.source.length⟩)) := by
  have hspans := parse_spans hs
  have hwithin := Workspace.within_of_follow hx
  let τ : Span → Option Item := fun s => if s = span then some x' else none
  have hτ : ∀ {s v}, τ s = some v → s = span ∧ v = x' := by
    intro s v hv
    simp only [τ] at hv
    split at hv
    · next heq => exact ⟨heq, (Option.some.inj hv).symm⟩
    · cases hv
  have hnew : newValue? τ x = some x' := by
    obtain ⟨d, hd⟩ : ∃ d, x'.decor? = some d := by
      cases x' <;> first | exact ⟨_, rfl⟩ | cases hvalue
    rw [newValue?_of_span hframe hspan (if_pos rfl), ← hdecor, hd, Option.getD_some, withDecor_of_decor? hd]
  -- nothing around the value has its span
  have huncovered : Uncovered τ s.root x := by
    intro z hz c hc hxc
    by_contra hnone
    obtain ⟨y, hy⟩ := Option.ne_none_iff_exists'.mp hnone
    obtain ⟨hzframe, s', v, hs', hv, -⟩ := newValue?_eq_some hy
    obtain ⟨rfl, -⟩ := hτ hv
    have hnodup := nodup_valueSpans hspans hz
    rw [valueSpans_eq, hzframe, hs'] at hnodup
    exact disjoint_of_nodup_append hnodup mem_cons_self
      (mem_flatMap.mpr ⟨c, hc, mem_valueSpans hxc hframe hspan⟩)
  have hexchanged : s.root.exchanged τ = s.root.replaceAt path x' := by
    have hnothing : Uncovered (fun _ => none) s.root x := fun z _ _ _ _ => newValue?_nothing z
    have h := exchanged_replaceAt (τ := τ) hspans hx (hnothing.clear hx) (huncovered.clear hx) fun s hs => ?_
    · rwa [exchanged_nothing, exchanged_eq x, hnew, Option.getD_some] at h
    · refine (if_neg fun heq : s = span => hs ?_).symm
      rw [heq]
      exact mem_valueSpans .self hframe hspan
  have hspelled : Spelled s.source.toList τ fun _ => t :=
    ⟨fun hv => (hτ hv).2 ▸ hvalue, fun hv => (hτ hv).2 ▸ hplain, fun hv => (hτ hv).2 ▸ ht⟩
  obtain ⟨spans, hperm, hascending, hrender⟩ := parse_exchanged hs hspelled
  have hsite : span ∈ s.root.sites τ := by
    refine mem_sites_of_uncovered hwithin huncovered _ ?_
    rw [sites_eq, hnew, hspan]
    exact mem_singleton.mpr rfl
  have hone : spans = [span] := by
    refine perm_singleton.mp ((perm_ext_iff_of_nodup hascending.nodup (nodup_singleton _)).mpr fun s' => ?_)
    rw [hperm.mem_iff, mem_singleton]
    constructor
    · intro hmem
      obtain ⟨v, hv⟩ := exists_of_mem_sites hmem
      exact (hτ hv).1
    · rintro rfl
      exact hsite
  rw [hone] at hascending hrender
  rw [← hexchanged]
  exact ⟨hascending, hrender⟩

/-- A value of a text stands in its place as it is written. -/
theorem parse_spelling (hx : s.root.follow path = .ok x) (hvalue : x.isValue = true) (hplain : x.isDotted = false)
    (hspan : x.info.span = some span) (ht : valueRepr (some s.source.toList) x = .ok (String.ofList t)) :
    s.source.toList = slice s.source.toList ⟨0, span.start⟩ ++ t ++ slice s.source.toList ⟨span.stop, s.source.length⟩ ∧
      span = ⟨(slice s.source.toList ⟨0, span.start⟩).length, (slice s.source.toList ⟨0, span.start⟩).length + t.length⟩ := by
  have hframe : x.isFrame = false := by simp [isFrame, hvalue, hplain]
  obtain ⟨⟨-, hlt, hle⟩, hrender⟩ := parse_replaced hs hx hframe hspan hvalue hplain rfl ht
  obtain ⟨spans, hperm, -, hexact⟩ := parse_exchanged hs (spelled_nothing _)
  have hnone : spans = [] := by simpa [sites_nothing] using hperm
  have hsame : s.root.replaceAt path x = s.root := (replaced_replaceAt hx).self
  have hle : span.stop ≤ s.source.length := hle
  have htext : s.source.toList = slice s.source.toList ⟨0, span.start⟩ ++ t ++
      slice s.source.toList ⟨span.stop, s.source.length⟩ := by
    have hboth := (hexact {}).symm
    rw [exchanged_nothing, ← hsame, hrender, hnone, Except.ok.injEq, String.ofList_inj, spliced] at hboth
    rwa [← String.length_toList, slice_whole] at hboth
  refine ⟨htext, ?_⟩
  have hlength := congrArg List.length htext
  simp only [slice, length_append, length_take, length_drop, String.length_toList] at hlength ⊢
  obtain ⟨a, b⟩ := span
  rw [Span.mk.injEq]
  simp only at hlength hlt hle ⊢
  omega

end Parsed

/-! ## The text of an array -/

/-- The text of an array before and after an element is appended. -/
inductive Grows (lit : List Char) (f : ArrayForm) : List Item → List Char → List Char → Prop where
  /-- The first element stands right behind the opening bracket. -/
  | first {t : List Char} : Grows lit f [] ('[' :: (t ++ [']'])) ('[' :: (lit ++ (t ++ [']'])))
  /-- Without a trailing comma the element stands right before the closing bracket, behind a comma of its own. -/
  | last {vs : List Item} {u : List Char} (nonempty : vs ≠ []) (noComma : f.trailingComma = false) :
      Grows lit f vs ('[' :: (u ++ [']'])) ('[' :: (u ++ ',' :: ' ' :: (lit ++ [']'])))
  /-- Otherwise it stands right behind the trailing comma, and a comma follows it. -/
  | comma {vs : List Item} {u t : List Char} (nonempty : vs ≠ []) (comma : f.trailingComma = true) (trivia : Trivia t) :
      Grows lit f vs ('[' :: (u ++ ',' :: (t ++ [']']))) ('[' :: (u ++ ',' :: ' ' :: (lit ++ ',' :: (t ++ [']']))))

theorem Render.elementTexts_append (source : Option (List Char)) (first : Bool) (vs : List Item) (y : Item) :
    elementTexts source first (vs ++ [y]) = elementTexts source first vs ++ elementTexts source (first && vs.isEmpty) [y] := by
  induction vs generalizing first with
  | nil => simp [elementTexts]
  | cons v vs ih =>
    rw [cons_append, elementTexts, elementTexts, ih]
    simp

/-- An element without anything around it is appended to an array as it was read. -/
theorem Render.valueRepr_append (hf : f.Closes vs) (htrailing : f.trailing.Shows source Trivia)
    (hdecor : y.decor? = some {}) (hy : valueRepr source y = .ok (String.ofList lit))
    (hold : valueRepr source (.array i f vs) = .ok (String.ofList old)) :
    ∃ new, valueRepr source (.array i f (vs ++ [y])) = .ok (String.ofList new) ∧ Grows lit f vs old new := by
  obtain ⟨t, ht, htrivia⟩ := htrailing
  have htext : optionalText source "" (some f.trailing) = .ok (String.ofList t) := by rw [optionalText, ht]
  have hjoin : ∀ (u : List Char) (b : Bool), joinAll [.ok "[", .ok (String.ofList u), .ok (if b then "," else ""),
      .ok (String.ofList t), .ok "]"] = .ok (String.ofList ('[' :: (u ++ ((if b then [','] else []) ++ (t ++ [']']))))) := by
    intro u b
    cases b <;> simp [joinAll, join, String.ofList_cons, String.ofList_append]
  rw [valueRepr, htext] at hold ⊢
  rw [elementTexts_append, joinAll_append]
  cases hu : joinAll (elementTexts source true vs) with
  | error e =>
    rw [hu] at hold
    cases hold
  | ok text =>
    obtain ⟨u, rfl⟩ : ∃ u, text = String.ofList u := ⟨_, String.ofList_toList.symm⟩
    rw [hu, hjoin, Except.ok.injEq, String.ofList_inj] at hold
    subst hold
    have hlast : ∀ first, joinAll (elementTexts source first [y]) =
        .ok (String.ofList ((if first then [] else [',', ' ']) ++ lit)) := by
      intro first
      simp only [elementTexts, hdecor, Option.getD_some, optionalText, hy]
      cases first <;> simp [joinAll, join, String.ofList_cons]
    rw [hlast, join_ok, ← String.ofList_append, hjoin]
    refine ⟨_, rfl, ?_⟩
    by_cases hvs : vs = []
    · subst hvs
      have hu : u = [] := by simpa [elementTexts, joinAll] using hu
      have hgrows : Grows lit f [] ('[' :: (t ++ [']'])) _ := .first
      simpa [hu, hf.empty rfl] using hgrows
    · cases hcomma : f.trailingComma with
      | true =>
        have hgrows : Grows lit f vs ('[' :: (u ++ ',' :: (t ++ [']']))) _ := .comma hvs hcomma htrivia
        simpa [hvs] using hgrows
      | false =>
        have ht : t = [] := by
          rw [hf.last hvs hcomma] at ht
          simpa [SpanText.resolve, SpanText.empty] using ht
        have hgrows : Grows lit f vs ('[' :: (u ++ [']'])) _ := .last hvs hcomma
        simpa [hvs, ht] using hgrows

/-! ## Arrays of a document -/

theorem Snapshot.stripped_toDocument (s : Snapshot) : s.toDocument.root.stripped = s.root.freed s.source.toList := by
  rw [freed, Snapshot.toDocument]
  dsimp only
  rw [detach_eq_reworded, stripped, reworded_reworded]
  rfl

/-- The tree of a text with one more scalar in an array is written as the text with the scalar inserted in the array. -/
theorem parse_grows (hvalidate : options.validate = true) (hs : parse options src = .ok s)
    (hx : s.root.follow path = .ok (.array i f vs)) (hy : y.NewScalar) :
    ∃ lit before old new after, valueRepr none y = .ok (String.ofList lit) ∧ s.source.toList = before ++ old ++ after ∧
      i.span = some ⟨before.length, before.length + old.length⟩ ∧ Grows lit f vs old new ∧
      ∀ layout, renderTree layout (some s.source.toList) (s.root.replaceAt path (.array i f (vs ++ [y]))) (some s.trailing) =
        .ok (String.ofList (before ++ new ++ after)) := by
  have hresolves := resolves_detach s.source.toList none
  have hfollow : (s.root.freed s.source.toList).follow path = .ok ((array i f vs).freed s.source.toList) := by
    rw [freed, follow_reworded, hx]
    rfl
  have hlegible := ((s.rereadable hvalidate hs none).1.portable (y := (array i f vs).freed s.source.toList)
    (by rw [s.stripped_toDocument]; exact Workspace.within_of_follow hfollow) rfl rfl).value
  obtain ⟨old, -, hold, -⟩ := hlegible.spells
  rw [freed, valueRepr_reworded hresolves] at hold
  obtain ⟨lit, hlit⟩ := hy.exists_literal
  have htrailing : f.trailing.Shows (some s.source.toList) Trivia := by
    simp only [freed, reworded] at hlegible
    generalize options.maxNesting = limit at hlegible
    cases hlegible with
    | array _ _ trailing _ =>
      obtain ⟨u, hu, htrivia⟩ := trailing
      exact ⟨u, (hresolves f.trailing).symm.trans hu, htrivia⟩
  obtain ⟨hsome, hcloses⟩ := (parse_regular hs _ (Workspace.within_of_follow hx)).array rfl
  obtain ⟨span, hspan⟩ := Option.isSome_iff_exists.mp hsome
  obtain ⟨new, hnew, hgrows⟩ := valueRepr_append hcloses htrailing hy.decor? (hlit _) hold
  obtain ⟨htext, hplace⟩ := parse_spelling hs hx rfl rfl hspan hold
  have hisValue : (array i f (vs ++ [y])).isValue = true := rfl
  obtain ⟨-, hrender⟩ := parse_replaced hs hx rfl hspan hisValue rfl rfl hnew
  exact ⟨lit, _, old, new, _, hlit none, htext, hspan.trans (congrArg _ hplace), hgrows, hrender⟩

/-- An array can be read back with one more scalar. -/
theorem Item.adapts_append (hx : x.isValue = true) (hy : y.NewScalar) :
    Adapts source True x (x.withElements (x.elements?.getD [] ++ [y])) := by
  cases x with
  | array i f vs =>
    refine .value rfl rfl rfl rfl fun hroom h => ?_
    cases h with
    | array room decor trailing elements =>
      refine .array (fun _ => Nat.lt_of_lt_of_le (Nat.succ_pos _) (hroom trivial)) ?_ trailing ?_ <;>
        rw [elements?, Option.getD_some, forall_mem_append, forall_mem_singleton]
      · refine ⟨decor, ?_⟩
        rw [hy.decor?]
        rintro _ ⟨⟩
        exact Decor.legible_empty
      · exact ⟨elements, hy.legible⟩
  | scalar | inlineTable => exact .value rfl rfl rfl rfl fun _ h => h
  | _ => cases hx

namespace Workspace

/-- **Appending inserts an element.** A string, a truth value or an integer is appended to an array, anywhere in a document that
was read with a limit of nesting that the readers can reach. The document is written as the text that was read with just the
element inserted in the array, and that text is parsed again, with the data of the tree that has the element there. -/
theorem append_inserts_element {options : OptionsArgument} {src : Source} {o : OptionSet} {s : Snapshot}
    (ho : options.resolve .reader = .ok o) (hvalidate : o.readOptions.validate = true)
    (hdepth : o.readOptions.maxNesting ≤ nestingLevels) (hs : Verbatim.parse o.readOptions src = .ok s) {path : List Segment}
    {i : Info} {f : ArrayForm} {vs : List Item} (hx : s.root.follow path = .ok (.array i f vs)) {data : Input}
    (simple : data.Simple) (leaf : data.isLeaf = true) :
    ∃ w n w' d y lit before old new after s', ({} : Workspace).parse "main" options src true = .ok w ∧
      w.append { path } data = .ok (n, w') ∧ w'.slot "main" = .ok { content := .document d } ∧ ofValue data = .ok y ∧
      valueRepr none y = .ok (String.ofList lit) ∧ s.source.toList = before ++ old ++ after ∧
      i.span = some ⟨before.length, before.length + old.length⟩ ∧ Grows lit f vs old new ∧
      (∀ layout, d.render layout = .ok (String.ofList (before ++ new ++ after))) ∧
      Verbatim.parse o.readOptions (.text (String.ofList (before ++ new ++ after))) = .ok s' ∧
        Data.Same s'.root.unwrap (s.root.replaceAt path (.array i f (vs ++ [y]))).unwrap := by
  obtain ⟨w, root, hw, hread⟩ := exchanged_parse ho hs
  have halone : Alone w { s.toDocument with root } := ⟨hread.single, hread.ownsText⟩
  obtain ⟨x, hfollow, hstripped⟩ := hread.follow hx fun z _ _ => newValue?_nothing z
  rw [exchanged_nothing] at hstripped
  have htree : root.stripped = s.root.freed s.source.toList := by simpa [exchanged_nothing] using hread.tree
  obtain ⟨y, hy, hvalue, -⟩ := simple.newScalar leaf
  -- the edit
  obtain ⟨j, g, us, rfl⟩ : ∃ j g us, x = .array j g us := by
    cases x with
    | array j g us => exact ⟨j, g, us, rfl⟩
    | _ => simp [stripped, freed, reworded] at hstripped
  have hfind : w.findArray { path } = .ok (.array j g us) := bind_eq_ok.mpr ⟨_, hread.single.find hfollow, rfl⟩
  have hmade : (ofValue data).map (ownedFor data) = .ok y := by
    rw [hvalue]
    exact congrArg Except.ok (ownedFor_of_not_item simple.not_item y)
  obtain ⟨n, w', root', happend, halone', heq⟩ := halone.append hfind hmade hy.loose hy.isValue
  have hfreed : root'.stripped = (s.root.replaceAt path (.array i f (vs ++ [y]))).freed s.source.toList := by
    have hnew : y.stripped = y.freed s.source.toList := by
      cases hy
      rfl
    have harray : (array i f (vs ++ [y])).freed s.source.toList = ((array i f vs).freed s.source.toList).withElements
        (((array i f vs).freed s.source.toList).elements?.getD [] ++ [y.freed s.source.toList]) := by
      simp [freed, reworded, withElements, elements?]
    rw [heq, htree, hstripped, hnew, ← harray, freed, freed, freed, replaceAt_reworded]
  -- the text
  obtain ⟨lit, before, old, new, after, hlit, htext, hspan, hgrows, hrender⟩ := parse_grows hvalidate hs hx hy
  have hwritten : ∀ layout, Document.render layout { s.toDocument with root := root' } =
      .ok (String.ofList (before ++ new ++ after)) := by
    intro layout
    rw [← hrender layout, Document.render, ← renderTree_stripped, hfreed]
    exact renderTree_reworded (resolves_detach _ _) layout _ (some s.trailing)
  -- it can be read back
  obtain ⟨hroot, htrailing⟩ := s.rereadable hvalidate hs (s.toDocument.source.map String.toList)
  rw [s.stripped_toDocument, ← htree] at hroot
  have hback : root'.stripped.Rereads (s.toDocument.source.map String.toList) o.readOptions.maxNesting := by
    rw [heq, hy.stripped]
    exact hroot.replaceAt (follow_stripped hfollow) (adapts_append rfl hy) fun _ => hdepth
  obtain ⟨text, s', hslot, hrender', hs', hsame⟩ := halone'.reads_back hback htrailing isNewline_default trivia_default
  cases (hwritten {}).symm.trans hrender'
  have hdata : root'.unwrap = (s.root.replaceAt path (.array i f (vs ++ [y]))).unwrap := by
    rw [← unwrap_reworded (fun _ => {}) id root', ← stripped, hfreed, freed, unwrap_reworded]
  exact ⟨w, n, w', _, y, lit, before, old, new, after, s', hw, happend, hslot, hvalue, hlit, htext, hspan, hgrows, hwritten, hs',
    hdata ▸ hsame⟩

set_option maxRecDepth 20000 in
/-- The array lies in another one, and a comment stands behind its trailing comma. -/
theorem append_inserts_element_comment : ∃ s i f vs,
    Verbatim.parse {} (.text "k = [[1, # x\n], \x7b\x7d] # y") = .ok s ∧
      s.root.follow [.name "k", .position 0] = .ok (.array i f vs) ∧
      ∃ w n w' d before old new after s',
        ({} : Workspace).parse "main" .unset (.text "k = [[1, # x\n], \x7b\x7d] # y") true = .ok w ∧
        w.append { path := [.name "k", .position 0] } (.boolean true) = .ok (n, w') ∧
        w'.slot "main" = .ok { content := .document d } ∧ s.source.toList = before ++ old ++ after ∧
        Grows "true".toList f vs old new ∧ d.render {} = .ok (String.ofList (before ++ new ++ after)) ∧
        Verbatim.parse {} (.text (String.ofList (before ++ new ++ after))) = .ok s' := by
  have hrun : ((Verbatim.parse {} (.text "k = [[1, # x\n], \x7b\x7d] # y")).toOption.bind fun s =>
      (s.root.follow [.name "k", .position 0]).toOption).map isArray = some true := by cbv
  obtain ⟨x, hx, harray⟩ := Option.map_eq_some_iff.mp hrun
  obtain ⟨s, hs, hfollow⟩ := Option.bind_eq_some_iff.mp hx
  obtain ⟨i, f, vs, rfl⟩ : ∃ i f vs, x = .array i f vs := by
    cases x with
    | array i f vs => exact ⟨i, f, vs, rfl⟩
    | _ => cases harray
  have hs := toOption_eq_some.mp hs
  have hfollow := toOption_eq_some.mp hfollow
  obtain ⟨set, hset, hread⟩ := OptionsArgument.resolve_unset
  obtain ⟨w, n, w', d, y, lit, before, old, new, after, s', hw, happend, hslot, hy, hlit, htext, -, hgrows, hrender, hs', -⟩ :=
    append_inserts_element hset (by rw [hread]) (by rw [hread]; decide) (by rw [hread]; exact hs) hfollow (.boolean true) rfl
  rw [hread] at hs'
  cases hy
  obtain rfl : lit = "true".toList := by
    rw [← String.toList_ofList (l := lit)]
    exact congrArg String.toList (Except.ok.inj hlit).symm
  exact ⟨s, i, f, vs, hs, hfollow, w, n, w', d, before, old, new, after, s', hw, happend, hslot, htext, hgrows, hrender {}, hs'⟩

set_option maxRecDepth 20000 in
/-- The header of a new table is written behind that of the last item of the table before it, and so before a header that was
read later. That one belongs to the new table when the text is read again. -/
theorem appended_table_takes_header : (do
      let w ← ({} : Workspace).parse "main" .unset (.text "[[a]]\n[a.x.y]\n[a.x]\n") true
      let (_, w) ← w.append { path := [.name "a"] } (.table [("k", .boolean true)])
      let d ← w.document? "main"
      .ok ((d.render {}).toOption, d.root.unwrap) : Except Failure (Option String × Plain)).toOption =
        some (some "[[a]]\n[a.x.y]\n\n[[a]]\nk = true\n[a.x]\n", .table [("a",
          .list [.table [("x", .table [("y", .table [])])], .table [("k", .boolean true)]])]) ∧
    (Verbatim.parse {} (.text "[[a]]\n[a.x.y]\n\n[[a]]\nk = true\n[a.x]\n")).toOption.map (fun s => s.root.unwrap) =
      some (.table [("a",
        .list [.table [("x", .table [("y", .table [])])], .table [("k", .boolean true), ("x", .table [])]])]) := by
  constructor <;> cbv

end Workspace

end Verbatim
