import Verbatim.Proofs.FaultPlaces
import Verbatim.Proofs.Literals
import Verbatim.Render

/-!
# Strings end where both readers end them

The scanner of lines passes over a string without looking into its escapes, and the strict reader decodes it. On a text
without carriage returns they stop behind the same character. So a string or a key that was written for a text is passed
over whole, and the text comes back.

## Main statements

- `scanner_ends_string` - the scanner ends a string where the strict reader does.
- `written_text_reads_back` - written strings and keys are read back.
-/

namespace Verbatim

open List DataReader Cursor Render

variable {c d : Cursor} {text t u r : List Char} {literal : Bool} {name : String}

/-! ## The strict reader stays on the text -/

theorem hexChar_stop (h : hexChar width c = .ok (text, d)) : d.stop = c.stop := by
  grind [hexChar, fail]

theorem lineJoin_stop (h : lineJoin c x = .ok (text, d)) : d.stop = c.stop := by
  rw [lineJoin] at h
  split at h
  · grind
  · dsimp only at h
    split at h <;> grind [fail]

theorem escape_stop (h : escape lines c = .ok (text, d)) : d.stop = c.stop := by
  have hhex := @hexChar_stop
  have hjoin := @lineJoin_stop
  grind [escape, fail]

theorem basicBody_stop (h : basicBody lines c = .ok (text, d)) : d.stop = c.stop := by
  have hescape := @escape_stop
  fun_induction basicBody lines c generalizing text with grind [fail, stop]

theorem delimited_stop (h : delimited w bad c = .ok (text, d)) : d.stop = c.stop := by
  grind [delimited, fail]

/-- The strict reader stays on the text when it reads a string. -/
theorem stringValue_stop (h : stringValue c = .ok (text, d)) : d.stop = c.stop := by
  have hbody := @basicBody_stop
  have hdelimited := @delimited_stop
  grind [stringValue, multilineString, extraMarks, basicString, literalString]

/-- On a text without returns the scanner ends a string where the strict reader does. -/
theorem stringEnd_eq_stringValue (hr : '\r' ∉ c.rest) (hmark : c.startsWith [markOf literal] = true)
    (h : stringValue c = .ok (text, d)) (hfollow : ∀ x ∈ d.rest.head?, x ≠ markOf literal) :
    stringEnd (markOf literal) c = .ok d := by
  have hself : ∀ {t : List Char}, '\r' ∉ t → Text.joinReturns t = t :=
    fun ht => Text.joinReturns_eq_self fun x hx => ne_of_mem_of_not_mem hx ht
  have hj : c.Joins c := (hself hr).symm
  obtain ⟨e, he⟩ := stringEnd_of_stringValue hj hmark h hfollow
  obtain ⟨hjoins, v, hv, -⟩ := spells_stringEnd hj hmark he h
  have hrest : d.rest = e.rest := by
    refine Eq.trans hjoins (hself fun hmem => hr ?_)
    rw [hv.rest]
    exact mem_append_right _ hmem
  -- both are on the text, with the same characters ahead
  have hstop : d.stop = e.stop := (stringValue_stop h).trans (reaches_stringEnd he).stop_eq.symm
  rw [stop, stop, hrest, Nat.add_right_cancel_iff] at hstop
  obtain rfl : d = e := by
    cases d
    cases e
    exact congrArg₂ mk hstop hrest
  exact he

/-- **The end of a string.** Where a quotation mark stands in a text without carriage returns, and the strict reader takes a
string there that the same mark does not follow, the scanner ends the string at the same place. -/
theorem scanner_ends_string {source : List Char} (hr : '\r' ∉ source) {p : Nat} {mark : Char} (hmark : source[p]? = some mark)
    (hquote : mark = '"' ∨ mark = '\'') (h : stringValue ⟨p, source.drop p⟩ = .ok (text, d))
    (hfollow : source[d.pos]? ≠ some mark) : stringEnd mark ⟨p, source.drop p⟩ = .ok d := by
  obtain ⟨literal, rfl⟩ := exists_markOf hquote
  obtain ⟨hlt, hget⟩ := List.getElem?_eq_some_iff.mp hmark
  have hon : On source ⟨p, source.drop p⟩ := ⟨Nat.le_of_lt hlt, rfl⟩
  have hstart : startsWith [markOf literal] ⟨p, source.drop p⟩ = true :=
    startsWith_singleton.mpr ⟨_, by rw [← hget]; exact drop_eq_getElem_cons hlt⟩
  -- what the strict reader took lies on the text
  obtain ⟨t, ht, -⟩ := stringValue_reads hstart h
  have hstop := stringValue_stop h
  have hlength := congrArg length ht
  rw [length_append] at hlength
  have hspells : Spells ⟨p, source.drop p⟩ t d := ⟨ht, by simp only [stop] at hstop hlength ⊢; omega⟩
  refine stringEnd_eq_stringValue (fun hmem => hr (mem_of_mem_drop hmem)) hstart h fun x hx hsame => hfollow ?_
  rw [(hspells.on hon).2, head?_drop, hsame] at hx
  exact hx

/-- A string of several lines, with an escaped mark and a further mark before the closing ones. -/
theorem scanner_ends_string_lines :
    stringValue ⟨2, "k=\"\"\"a\\\"\n\"\"\"\" #".toList.drop 2⟩ = .ok ("a\"\n\"".toList, ⟨13, " #".toList⟩) ∧
      stringEnd '"' ⟨2, "k=\"\"\"a\\\"\n\"\"\"\" #".toList.drop 2⟩ = .ok ⟨13, " #".toList⟩ := by
  have hread : stringValue ⟨2, "k=\"\"\"a\\\"\n\"\"\"\" #".toList.drop 2⟩ =
      .ok ("a\"\n\"".toList, ⟨13, " #".toList⟩) := by decide +kernel
  exact ⟨hread, scanner_ends_string (by decide) (by decide) (.inl rfl) hread (by decide)⟩

/-! ## Written strings and keys -/

/-- A string on one line is passed over whole. -/
theorem DataReader.LineRun.stringEnd_eq (h : LineRun literal u text) (hr : ∀ x ∈ r.head?, x ≠ markOf literal) (p : Nat) :
    stringEnd (markOf literal) ⟨p, markOf literal :: (u ++ r)⟩ = .ok ⟨p + (u.length + 1), r⟩ := by
  have hone : startsWith [markOf literal, markOf literal, markOf literal] ⟨p, markOf literal :: (u ++ r)⟩ = false :=
    h.startsWith_eq hr p
  obtain ⟨-, n, hn, hscan⟩ := h.scan r
  have hnext : next ⟨p, markOf literal :: (u ++ r)⟩ = ⟨p + 1, u ++ r⟩ := by simp [Cursor.next, Cursor.drop]
  simp only [stringEnd, hone, Bool.false_eq_true, if_false, hnext, hscan, Cursor.drop, ← hn, drop_left, length_append]
  rw [Nat.min_eq_left (Nat.le_add_right ..), Nat.add_assoc, Nat.add_comm 1]

/-- A basic string on one line is a key. -/
theorem DataReader.BasicRun.simpleKey_eq (h : BasicRun false u text) (hr : ∀ x ∈ r.head?, x ≠ '"') (p : Nat) :
    simpleKey ⟨p, '"' :: (u ++ r)⟩ = .ok (String.ofList text, ⟨p + (u.length + 1), r⟩) := by
  have hrun : LineRun false u text := h
  have hend : stringEnd '"' ⟨p, '"' :: (u ++ r)⟩ = _ := hrun.stringEnd_eq hr p
  have hone : startsWith ['"', '"', '"'] ⟨p, '"' :: (u ++ r)⟩ = false := hrun.startsWith_eq hr p
  have hspells : Spells ⟨p, '"' :: (u ++ r)⟩ ('"' :: u) ⟨p + (u.length + 1), r⟩ := ⟨rfl, rfl⟩
  have hread := readKey_of_run h fun x hx => ((h.scan_line []).1 x hx).2
  simp [simpleKey, hone, hend, hspells.textBetween_eq, quotedName, hread]

/-- A written key is passed over whole, whatever follows that ends it, and is read as its name. -/
theorem Literal.simpleKey_eq (name : String) (hr : KeyEnds r) (p : Nat) :
    simpleKey ⟨p, (key name).toList ++ r⟩ = .ok (name, ⟨p + (key name).toList.length, r⟩) := by
  rw [key]
  split
  · next hbare =>
    obtain ⟨hne, hall⟩ : name.toList ≠ [] ∧ ∀ x ∈ name.toList, isBareKeyChar x = true := by simpa [isBareName] using hbare
    obtain ⟨x, u, hx⟩ := exists_cons_of_ne_nil hne
    have hbare := hall x (by simp [hx])
    obtain ⟨htake, hdrop⟩ := takeWhile_of_ends hall fun y hy => (hr y hy).1
    have hmark : ¬(x = '"' ∨ x = '\'') := by
      rintro (rfl | rfl) <;> cases hbare
    rw [hx, cons_append] at htake hdrop
    simp only [simpleKey, skipWhile, hx, cons_append, if_neg hmark, hbare, if_true, htake, hdrop]
    rw [← hx, String.ofList_toList]
  · rw [toList_string, cons_append, (basicRun_stringChars _).simpleKey_eq (fun x hx => (hr x hx).2), String.ofList_toList]
    rfl

/-- **Written texts.** The literal of a string that has no spelling of its own is passed over by the scanner as far as its
end and decoded to the text, and the spelling of a key that has none is passed over whole and read as the name. -/
theorem written_text_reads_back (s : String) (source : Option (List Char)) (i : Info) (decor : Decor) :
    (∃ t u, valueRepr source (.scalar i { kind := .string, value := .string s, decor }) = .ok t ∧ t.toList = '"' :: u ∧
      stringEnd '"' (.start t.toList) = .ok ⟨t.toList.length, []⟩ ∧ readScalar t.toList = .ok (.string s)) ∧
    ∃ t, keyRepr source ⟨s, none, decor⟩ = .ok t ∧ simpleKey (.start t.toList) = .ok (s, ⟨t.toList.length, []⟩) := by
  have hnil : KeyEnds [] := by rintro x ⟨⟩
  refine ⟨⟨Literal.string s, _, rfl, Literal.toList_string s, ?_, ?_⟩, Literal.key s, rfl, ?_⟩
  · have hrun : LineRun false (s.toList.flatMap Literal.stringChar ++ ['"']) s.toList := Literal.basicRun_stringChars _
    have hend := hrun.stringEnd_eq (r := []) (by rintro x ⟨⟩) 0
    rw [append_nil, Nat.zero_add] at hend
    rw [Literal.toList_string]
    exact hend
  · obtain ⟨⟨x, u, hx, hblank, -, -, hreturn⟩, hplain, hread⟩ := readable_string s
    have hself := Text.joinReturns_eq_self fun x hx => (hplain x hx).2
    obtain ⟨d, hd, hrest⟩ := hread nestingLevels ⟨4, (Literal.string s).toList⟩ [] (append_nil _).symm (by rintro x ⟨⟩)
    refine readScalar_of_value ?_ (hself.symm ▸ hd) hrest
    rw [hself, hx]
    rintro y ⟨⟩
    simp only [isBlankOrNewline, Bool.or_eq_false_iff] at hblank
    exact hblank.1
  · have hkey := Literal.simpleKey_eq s hnil 0
    rw [append_nil, Nat.zero_add] at hkey
    exact hkey

end Verbatim
