import Verbatim.Proofs.Composed

/-!
# What conversion builds

Data becomes an item by building new items around those that stand among the data. So a property of items that new items
inherit from their members holds of everything that conversion builds, whatever the data is.
-/

namespace Verbatim

open List Item

variable {d : Input}

/-- Whether data has no members. A set counts as such: it has no form in a document. -/
def Data.isLeaf : Input → Bool
  | .item _ | .list _ | .tuple _ | .table _ | .mapping _ => false
  | _ => true

/-- Every item among the data has a property. -/
inductive Data.Carries (given : Item → Prop) : Input → Prop where
  | leaf {d : Input} (h : d.isLeaf = true) : Carries given d
  | item {x : Item} (h : given x) : Carries given (.item x)
  | list {ds : List Input} (members : ∀ d ∈ ds, Carries given d) : Carries given (.list ds)
  | tuple {ds : List Input} (members : ∀ d ∈ ds, Carries given d) : Carries given (.tuple ds)
  | table {es : List (String × Input)} (members : ∀ e ∈ es, Carries given e.2) : Carries given (.table es)
  | mapping {es : List (Input × Input)} (members : ∀ e ∈ es, Carries given e.2) : Carries given (.mapping es)

theorem Data.Carries.imp (h : ∀ x, given x → given' x) (hd : d.Carries given) : d.Carries given' := by
  induction hd with
  | leaf hleaf => exact .leaf hleaf
  | item hx => exact .item (h _ hx)
  | list _ ih => exact .list ih
  | tuple _ ih => exact .tuple ih
  | table _ ih => exact .table ih
  | mapping _ ih => exact .mapping ih

/-- Data that stands somewhere in other data. -/
inductive Data.Within (c : Input) : Input → Prop where
  | self : Within c c
  | list {d : Input} {ds : List Input} (hd : d ∈ ds) (h : Within c d) : Within c (.list ds)
  | tuple {d : Input} {ds : List Input} (hd : d ∈ ds) (h : Within c d) : Within c (.tuple ds)
  | table {e : String × Input} {es : List (String × Input)} (he : e ∈ es) (h : Within c e.2) : Within c (.table es)
  | mapping {e : Input × Input} {es : List (Input × Input)} (he : e ∈ es) (h : Within c e.2) : Within c (.mapping es)

/-- The values of the scalars somewhere in data have a property. -/
def Data.Writes (written : Plain → Prop) (d : Input) : Prop :=
  ∀ c : Input, c.Within d → ∀ i s, scalarOf? c = some (.scalar i s) → written s.value

theorem Data.Simple.carries (h : d.Simple) : d.Carries fun _ => False := by
  induction h with
  | string s => exact .leaf rfl
  | boolean b => exact .leaf rfl
  | integer _ => exact .leaf rfl
  | list _ ih => exact .list ih
  | table _ ih => exact .table ih

theorem Data.Simple.writes (h : d.Simple) : d.Writes SimpleScalar := by
  intro c hc i s hs
  induction hc with
  | self => cases h <;> cases hs <;> constructor; assumption
  | list hd _ ih => exact ih (by cases h with | list members => exact members _ hd)
  | tuple => cases h
  | table he _ ih => exact ih (by cases h with | table members => exact members _ he)
  | mapping => cases h

namespace Item

/-- A property that conversion hands on from the items among the data to what it builds. What conversion makes itself, copies
among it, may have a stronger one than the items that stay themselves. -/
structure Convertible (given P : Item → Prop) (Q : Item → Prop := P) (written : Plain → Prop := fun _ => True) : Prop where
  /-- An item among the data has the property where it stays itself. -/
  kept : ∀ x, given x → P x
  /-- Its copy has the stronger one. -/
  copied : ∀ x, given x → Q x.copied
  /-- The stronger property is one. -/
  weaken : ∀ x, Q x → P x := by exact fun _ h => h
  /-- An item that takes the place of another one has it. -/
  replacing : ∀ old new, Q old → Q new → Q (replacing old new)
  scalar : ∀ kind value, written value → Q (.scalar {} { kind, value })
  array : ∀ vs : List Item, (∀ v ∈ vs, P v ∧ v.isValue = true) → Q (.array {} {} vs)
  inlineTable : ∀ es : List (Entry Item), NewEntries es → (∀ e ∈ es, Q e.item ∧ e.item.isValue = true) →
    Q (.inlineTable {} {} es)
  table : ∀ es : List (Entry Item), NewEntries es → (∀ e ∈ es, Q e.item) → Q (.table {} {} es)
  /-- There is at least one table. -/
  arrayOfTables : ∀ ts : List Item, ts ≠ [] → (∀ t ∈ ts, Q t ∧ t.isTable = true) → Q (.arrayOfTables {} ts)

theorem isValue_copied (x : Item) : x.copied.isValue = x.isValue := by
  cases x <;> rfl

theorem isTable_copied (x : Item) : x.copied.isTable = x.isTable := by
  cases x <;> rfl

theorem ownedFor_of_not_item (h : d.isItem = false) (x : Item) : ownedFor d x = x := by
  rw [ownedFor, h]
  rfl

theorem isValue_ownedFor (d : Input) (x : Item) : (ownedFor d x).isValue = x.isValue := by
  rw [ownedFor]
  split
  · exact isValue_copied x
  · rfl

theorem isTable_ownedFor (d : Input) (x : Item) : (ownedFor d x).isTable = x.isTable := by
  rw [ownedFor]
  split
  · exact isTable_copied x
  · rfl

theorem isValue_replacing (old new : Item) : (replacing old new).isValue = new.isValue := by
  rw [replacing]
  split
  · split
    · cases new <;> rfl
    · rfl
  · rfl

/-- An entry that is there after an item was put under a name: one that was there, one that got the new item in place of its
own, or a new one. -/
theorem mem_place_cases (he : e ∈ place name x es) :
    e ∈ es ∨ (∃ d ∈ es, e = { d with item := replacing d.item x }) ∨ e = { key := { name }, item := x } := by
  rw [place] at he
  split at he
  · rcases mem_append.mp he with he | he
    · exact .inl he
    · exact .inr (.inr (mem_singleton.mp he))
  · obtain ⟨d, hd, rfl⟩ := mem_map.mp he
    split
    · exact .inr (.inl ⟨d, hd, rfl⟩)
    · exact .inl hd

/-! ## Lists and tables -/

/-- The entries of data whose keys are data, each under the text that its key is shown as. -/
def namedBy (es : List (Input × Input)) : List (String × Input) := es.map fun e => (e.1.cell className, e.2)

/-- The entries of a table after data was put among them under a name. -/
def putField (convert : Input → Except ConvertError Item) (entries : List (Entry Item)) (e : String × Input) :
    Except ConvertError (List (Entry Item)) :=
  (convert e.2).map fun x => place e.1 (ownedFor e.2 x) entries

theorem ofValue_list (ds : List Input) : ofValue (.list ds) = (ds.mapM ofValue).map (.array {} {}) := by
  have heach : ofValues ds = ds.mapM ofValue := by
    induction ds with
    | nil => rfl
    | cons d ds ih =>
      rw [ofValues, mapM_cons, ← ih]
      cases ofValue d with
      | error _ => rfl
      | ok x => cases ofValues ds <;> rfl
  rw [ofValue, heach]
  cases ds.mapM ofValue <;> rfl

theorem ofValue_table (es : List (String × Input)) :
    ofValue (.table es) = (es.foldlM (putField ofValue) []).map (.inlineTable {} {}) := by
  have hfields : ∀ before, inlineFields before es = es.foldlM (putField ofValue) before := by
    induction es with
    | nil => exact fun _ => rfl
    | cons e es ih =>
      intro before
      rw [inlineFields, foldlM_cons, putField]
      cases ofValue e.2 with
      | error _ => rfl
      | ok x => exact ih _
  rw [ofValue, hfields]
  cases es.foldlM (putField ofValue) [] <;> rfl

theorem ofMember_list (ds : List Input) :
    ofMember (.list ds) = if isTableList ds then (ds.mapM ofTable).map (.arrayOfTables {}) else ofValue (.list ds) := by
  have heach : ofTables ds = ds.mapM ofTable := by
    induction ds with
    | nil => rfl
    | cons d ds ih =>
      rw [ofTables, mapM_cons, ← ih, ofTable]
      cases ofMember d with
      | error _ => rfl
      | ok x =>
        dsimp only
        split
        · cases ofTables ds <;> rfl
        · rfl
  rw [ofMember, heach]
  cases ds.mapM ofTable <;> rfl

theorem ofMember_table (es : List (String × Input)) :
    ofMember (.table es) = (es.foldlM (putField ofMember) []).map (.table {} {}) := by
  have hfields : ∀ before, memberFields before es = es.foldlM (putField ofMember) before := by
    induction es with
    | nil => exact fun _ => rfl
    | cons e es ih =>
      intro before
      rw [memberFields, foldlM_cons, putField]
      cases ofMember e.2 with
      | error _ => rfl
      | ok x => exact ih _
  rw [ofMember, hfields]
  cases es.foldlM (putField ofMember) [] <;> rfl

/-- A tuple becomes what a list of the same members becomes. -/
theorem ofValue_tuple (ds : List Input) : ofValue (.tuple ds) = ofValue (.list ds) := by
  rw [ofValue, ofValue]

theorem ofMember_tuple (ds : List Input) : ofMember (.tuple ds) = ofMember (.list ds) := by
  rw [ofMember, ofMember, ofValue_tuple]

/-- Keys that are data stand for the texts that they are shown as. -/
theorem ofValue_mapping (es : List (Input × Input)) : ofValue (.mapping es) = ofValue (.table (namedBy es)) := by
  have hpairs : ∀ before, inlinePairs before es = inlineFields before (namedBy es) := by
    induction es with
    | nil => exact fun _ => rfl
    | cons e es ih => simp only [namedBy, map_cons, inlinePairs, inlineFields] at ih ⊢; simp only [ih, implies_true]
  rw [ofValue, ofValue, hpairs]

theorem ofMember_mapping (es : List (Input × Input)) : ofMember (.mapping es) = ofMember (.table (namedBy es)) := by
  have hpairs : ∀ before, memberPairs before es = memberFields before (namedBy es) := by
    induction es with
    | nil => exact fun _ => rfl
    | cons e es ih => simp only [namedBy, map_cons, memberPairs, memberFields] at ih ⊢; simp only [ih, implies_true]
  rw [ofMember, ofMember, hpairs]

/-- A list is converted member by member, or one of its members is not. -/
theorem mapM_cases (f : α → Except ε β) (as : List α) :
    (∃ bs, as.mapM f = .ok bs ∧ Forall₂ (fun a b => f a = .ok b) as bs) ∨
      ∃ e, as.mapM f = .error e ∧ ∃ a ∈ as, f a = .error e := by
  induction as with
  | nil => exact .inl ⟨[], rfl, .nil⟩
  | cons a as ih =>
    rw [mapM_cons]
    cases ha : f a with
    | error e => exact .inr ⟨e, rfl, a, mem_cons_self, ha⟩
    | ok b =>
      obtain ⟨bs, hbs, hall⟩ | ⟨e, he, a', ha', hae⟩ := ih
      · exact .inl ⟨b :: bs, by rw [hbs]; rfl, .cons ha hall⟩
      · exact .inr ⟨e, by rw [he]; rfl, a', mem_cons_of_mem _ ha', hae⟩

theorem forall_of_mapM {α β ε : Type} {f : α → Except ε β} {as : List α} {bs : List β} {p : β → Prop} (h : as.mapM f = .ok bs)
    (hp : ∀ a ∈ as, ∀ b, f a = .ok b → p b) : ∀ b ∈ bs, p b := by
  obtain ⟨bs', hbs', hall⟩ | ⟨e, he, -⟩ := mapM_cases f as
  · cases h.symm.trans hbs'
    intro b hb
    obtain ⟨i, hi, rfl⟩ := mem_iff_getElem.mp hb
    obtain ⟨hlength, hget⟩ := forall₂_iff_get.mp hall
    exact hp _ (getElem_mem (hlength ▸ hi)) _ (hget i (hlength ▸ hi) hi)
  · cases h.symm.trans he

namespace Convertible

variable {x : Item} {es : List (Entry Item)} {d : Input} {given P Q : Item → Prop} {written : Plain → Prop}

private theorem place_new (hP : ∀ old new, P old → P new → P (Item.replacing old new)) (hes : ∀ e ∈ es, P e.item) (hx : P x) :
    ∀ e ∈ place name x es, P e.item := by
  intro e he
  rcases mem_place_cases he with he | ⟨d, hd, rfl⟩ | rfl
  · exact hes e he
  · exact hP _ _ (hes d hd) hx
  · exact hx

private theorem foldlM_putField {R : Item → Prop} {convert : Input → Except ConvertError Item} {ds : List (String × Input)}
    (hR : ∀ old new, R old → R new → R (Item.replacing old new))
    (hds : ∀ e ∈ ds, ∀ x, convert e.2 = .ok x → R (ownedFor e.2 x)) (hnew : NewEntries before)
    (hbefore : ∀ e ∈ before, R e.item) (h : ds.foldlM (putField convert) before = .ok es) :
    NewEntries es ∧ ∀ e ∈ es, R e.item := by
  induction ds generalizing before with
  | nil =>
    cases h
    exact ⟨hnew, hbefore⟩
  | cons d ds ih =>
    rw [foldlM_cons, bind_eq_ok] at h
    obtain ⟨entries, hentries, h⟩ := h
    obtain ⟨x, hx, rfl⟩ := map_eq_ok.mp hentries
    exact ih (fun e he => hds e (mem_cons_of_mem _ he)) hnew.place (place_new hR hbefore (hds d mem_cons_self x hx)) h

/-- What an item built from some data is: it has the one property as it is and the stronger one as it is put under a name. -/
def Gives (P Q : Item → Prop) (d : Input) (x : Item) : Prop := P x ∧ Q (ownedFor d x)

section

variable (hP : Convertible given P Q written)

include hP

private theorem gives_of_not_item (hd : d.isItem = false) (hx : Q x) : Gives P Q d x :=
  ⟨hP.weaken x hx, by rwa [ownedFor_of_not_item hd]⟩

private theorem value_list {ds : List Input}
    (hds : ∀ d ∈ ds, ∀ x, ofValue d = .ok x → Gives P Q d x ∧ x.isValue = true) (h : ofValue (.list ds) = .ok x) :
    Q x ∧ x.isValue = true := by
  rw [ofValue_list, map_eq_ok] at h
  obtain ⟨vs, hvs, rfl⟩ := h
  exact ⟨hP.array vs (forall_of_mapM hvs fun d hd v hv => ⟨(hds d hd v hv).1.1, (hds d hd v hv).2⟩), rfl⟩

private theorem value_table {ds : List (String × Input)}
    (hds : ∀ e ∈ ds, ∀ x, ofValue e.2 = .ok x → Gives P Q e.2 x ∧ x.isValue = true) (h : ofValue (.table ds) = .ok x) :
    Q x ∧ x.isValue = true := by
  rw [ofValue_table, map_eq_ok] at h
  obtain ⟨es, hes, rfl⟩ := h
  obtain ⟨hnew, hfields⟩ := foldlM_putField (R := fun x => Q x ∧ x.isValue = true)
    (fun old new hold hnew => ⟨hP.replacing old new hold.1 hnew.1, (isValue_replacing old new).trans hnew.2⟩)
    (fun e he x hx => ⟨(hds e he x hx).1.2, (isValue_ownedFor e.2 x).trans (hds e he x hx).2⟩) ⟨by simp, by simp⟩ (by simp) hes
  exact ⟨hP.inlineTable es hnew hfields, rfl⟩

/-- Data as a value has the property. -/
theorem ofValue (hd : d.Carries given) (hw : d.Writes written) (h : ofValue d = .ok x) :
    Gives P Q d x ∧ x.isValue = true := by
  have hnew : ∀ {d : Input} {x : Item}, d.isItem = false → Q x ∧ x.isValue = true → Gives P Q d x ∧ x.isValue = true :=
    fun hd hx => ⟨hP.gives_of_not_item hd hx.1, hx.2⟩
  induction hd generalizing x with
  | @leaf d hleaf =>
    -- if a leaf becomes anything, it becomes a new scalar
    cases d <;> simp only [Data.isLeaf, Bool.false_eq_true] at hleaf <;> cases h
    all_goals exact hnew rfl ⟨hP.scalar _ _ (hw _ .self _ _ rfl), rfl⟩
  | @item y hy =>
    rw [ofValue] at h
    split at h
    · next hvalue =>
      cases h
      exact ⟨⟨hP.kept y hy, hP.copied y hy⟩, hvalue⟩
    · cases h
  | list _ ih => exact hnew rfl (hP.value_list (fun d hd x => ih d hd fun c hc => hw c (.list hd hc)) h)
  | tuple _ ih =>
    rw [ofValue_tuple] at h
    exact hnew rfl (hP.value_list (fun d hd x => ih d hd fun c hc => hw c (.tuple hd hc)) h)
  | table _ ih => exact hnew rfl (hP.value_table (fun e he x => ih e he fun c hc => hw c (.table he hc)) h)
  | mapping _ ih =>
    rw [ofValue_mapping] at h
    exact hnew rfl (hP.value_table (forall_mem_map.mpr fun e he x => ih e he fun c hc => hw c (.mapping he hc)) h)

private theorem member_list {ds : List Input}
    (hcarries : ∀ d ∈ ds, d.Carries given ∧ d.Writes written) (hds : ∀ d ∈ ds, ∀ x, ofMember d = .ok x → Gives P Q d x)
    (h : ofMember (.list ds) = .ok x) : Q x := by
  rw [ofMember_list] at h
  split at h
  · next hlist =>
    obtain ⟨ts, hts, rfl⟩ := map_eq_ok.mp h
    refine hP.arrayOfTables ts ?_ (forall_of_mapM hts fun d hd t ht => ?_)
    · rintro rfl
      obtain ⟨bs, hbs, hall⟩ | ⟨e, he, -⟩ := mapM_cases ofTable ds
      · cases hts.symm.trans hbs
        cases hall
        cases hlist
      · cases hts.symm.trans he
    · rw [ofTable] at ht
      split at ht
      · cases ht
      · next y hy =>
        split at ht
        · next htable =>
          cases ht
          exact ⟨(hds d hd y hy).2, (isTable_ownedFor d y).trans htable⟩
        · cases ht
  · exact (hP.value_list (fun d hd x => hP.ofValue (hcarries d hd).1 (hcarries d hd).2) h).1

private theorem member_table {ds : List (String × Input)}
    (hds : ∀ e ∈ ds, ∀ x, ofMember e.2 = .ok x → Gives P Q e.2 x) (h : ofMember (.table ds) = .ok x) : Q x := by
  rw [ofMember_table, map_eq_ok] at h
  obtain ⟨es, hes, rfl⟩ := h
  obtain ⟨hnew, hfields⟩ := foldlM_putField hP.replacing (fun e he x hx => (hds e he x hx).2) ⟨by simp, by simp⟩ (by simp) hes
  exact hP.table es hnew hfields

/-- Data as a member of a table has the property. -/
theorem ofMember (hd : d.Carries given) (hw : d.Writes written)
    (h : ofMember d = .ok x) : Gives P Q d x := by
  induction hd generalizing x with
  | @leaf d hleaf =>
    refine (hP.ofValue (.leaf hleaf) hw ?_).1
    cases d <;> simp only [Data.isLeaf, Bool.false_eq_true] at hleaf <;> rwa [ofMember] at h <;> simp
  | @item y hy =>
    cases h
    exact ⟨hP.kept y hy, hP.copied y hy⟩
  | list members ih =>
    exact hP.gives_of_not_item rfl (hP.member_list (fun d hd => ⟨members d hd, fun c hc => hw c (.list hd hc)⟩)
      (fun d hd x => ih d hd fun c hc => hw c (.list hd hc)) h)
  | tuple members ih =>
    rw [ofMember_tuple] at h
    exact hP.gives_of_not_item rfl (hP.member_list (fun d hd => ⟨members d hd, fun c hc => hw c (.tuple hd hc)⟩)
      (fun d hd x => ih d hd fun c hc => hw c (.tuple hd hc)) h)
  | table _ ih =>
    exact hP.gives_of_not_item rfl (hP.member_table (fun e he x => ih e he fun c hc => hw c (.table he hc)) h)
  | mapping _ ih =>
    rw [ofMember_mapping] at h
    refine hP.gives_of_not_item rfl (hP.member_table (forall_mem_map.mpr fun e he x => ?_) h)
    exact ih e he fun c hc => hw c (.mapping he hc)

end

end Convertible

/-- What some data becomes has a property, as a value and as a member of a table. -/
structure Brings (Q : Item → Prop) (d : Input) : Prop where
  value : ∀ x, ofValue d = .ok x → Q (ownedFor d x) ∧ x.isValue = true
  member : ∀ x, ofMember d = .ok x → Q (ownedFor d x)

theorem Convertible.brings (hP : Convertible given P Q written) (hd : d.Carries given)
    (hw : d.Writes written := by exact fun _ _ _ _ _ => trivial) : Brings Q d :=
  ⟨fun _ hx => ⟨(hP.ofValue hd hw hx).1.2, (hP.ofValue hd hw hx).2⟩, fun _ hx => (hP.ofMember hd hw hx).2⟩

/-- What the data becomes as an entry of an item: a value where only values may stand. -/
theorem Brings.coerced {Q : Item → Prop} {x y : Item} (hd : Brings Q d) (h : x.coerced d = .ok y) :
    Q y ∧ (x.isInlineTable = true → y.isValue = true) := by
  rw [Item.coerced] at h
  split at h
  · next z hz =>
    cases h
    rw [isValue_ownedFor]
    split at hz
    · exact ⟨(hd.value z hz).1, fun _ => (hd.value z hz).2⟩
    · next hinline => exact ⟨hd.member z hz, fun h => absurd h hinline⟩
  · cases h

end Item

end Verbatim
