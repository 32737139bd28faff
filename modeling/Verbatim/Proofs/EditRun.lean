import Mathlib.Data.List.Flatten
import Verbatim.Proofs.Composed
import Verbatim.Workspace.Documents
import Verbatim.Workspace.Edit

/-!
# Edits of a document, one after the other

A workspace tells items apart by labels and puts the new version of an item wherever its label stands.
-/

namespace Verbatim

open List

namespace Item

variable {x y new : Item} {next : Nat}

/-! ## Versions -/

@[simp] theorem versionsEach_eq (xs : List Item) : versionsEach xs = xs.flatMap versions :=
  eq_flatMap_of_cons rfl (fun _ _ => rfl) xs

@[simp] theorem versionsEntries_eq (es : List (Entry Item)) :
    versionsEntries es = es.flatMap fun e => e.item.versions := eq_flatMap_of_cons rfl (fun _ _ => rfl) es

theorem versions_eq (x : Item) : x.versions = (x.info.label, x) :: x.children.flatMap versions := by
  cases x <;> simp [versions, children, info, flatMap_map]

/-- The versions are the items within, each under its label. -/
theorem mem_versions : (l, y) ∈ x.versions ↔ l = y.info.label ∧ Within y x := by
  induction x using childInduction with
  | step x ih =>
    rw [versions_eq, mem_cons, mem_flatMap, within_iff]
    constructor
    · rintro (heq | ⟨z, hz, hy⟩)
      · cases heq
        exact ⟨rfl, .inl rfl⟩
      · obtain ⟨hl, hy⟩ := (ih z hz).mp hy
        exact ⟨hl, .inr ⟨z, hz, hy⟩⟩
    · rintro ⟨rfl, rfl | ⟨z, hz, hy⟩⟩
      · exact .inl rfl
      · exact .inr ⟨z, hz, (ih z hz).mpr ⟨rfl, hy⟩⟩

@[simp] theorem graftEach_eq (news : List (Nat × Item)) (xs : List Item) : graftEach news xs = xs.map (graft news) :=
  eq_map_of_cons rfl (fun _ _ => rfl) xs

@[simp] theorem graftEntries_eq (news : List (Nat × Item)) (es : List (Entry Item)) :
    graftEntries news es = es.map fun e => { e with item := e.item.graft news } := eq_map_of_cons rfl (fun _ _ => rfl) es

theorem graft_eq (news : List (Nat × Item)) (x : Item) :
    x.graft news = (version? x.info.label news).getD (x.mapMembers (graft news)) := by
  cases x <;> simp [graft, mapMembers, info]

/-! ## Labelling -/

@[simp] theorem items_labelledEntries (next : Nat) (es : List (Entry Item)) :
    (labelledEntries next es).1.map Entry.item = (labelledEach next (es.map Entry.item)).1 ∧
      (labelledEntries next es).2 = (labelledEach next (es.map Entry.item)).2 := by
  induction es generalizing next with
  | nil => exact ⟨rfl, rfl⟩
  | cons e es ih =>
    obtain ⟨hitems, hnext⟩ := ih (e.item.labelled next).2
    simp only [labelledEntries, labelledEach, map_cons, hitems, hnext, and_self]

theorem info_labelled (next : Nat) (x : Item) : (x.labelled next).1.info = freshInfo next x.info := by
  cases x <;> rfl

theorem labelled_members (next : Nat) (x : Item) :
    (x.labelled next).1.children = (labelledEach (freshNext next x.info) x.children).1 ∧
      (x.labelled next).2 = (labelledEach (freshNext next x.info) x.children).2 := by
  cases x with
  | inlineTable i f es => exact items_labelledEntries _ es
  | table i f es => exact items_labelledEntries _ es
  | _ => exact ⟨rfl, rfl⟩

def labels (x : Item) : List Nat := x.versions.map Prod.fst

theorem labels_eq (x : Item) : x.labels = x.info.label :: x.children.flatMap labels := by
  rw [labels, versions_eq, map_cons, map_flatMap]
  rfl

/-- The labels of a tree after those of its items that have none got labels from `next` on. -/
def relabelled (next : Nat) : List Nat → List Nat
  | [] => []
  | l :: ls => if l = 0 then next :: relabelled (next + 1) ls else l :: relabelled next ls

theorem relabelled_append (next : Nat) (ls ls' : List Nat) :
    relabelled next (ls ++ ls') = relabelled next ls ++ relabelled (next + ls.count 0) ls' := by
  induction ls generalizing next with
  | nil => simp [relabelled]
  | cons l ls ih =>
    by_cases hl : l = 0
    · simp [relabelled, hl, ih, Nat.add_assoc, Nat.add_comm 1]
    · simp [relabelled, hl, ih]

theorem mem_relabelled (h : l ∈ relabelled next ls) : (l ∈ ls ∧ l ≠ 0) ∨ (next ≤ l ∧ l < next + ls.count 0) := by
  induction ls generalizing next with
  | nil => cases h
  | cons m ls ih =>
    rw [relabelled] at h
    split at h
    · next hm =>
      subst hm
      rw [count_cons_self]
      rcases mem_cons.mp h with rfl | h
      · omega
      · rcases ih h with ⟨hmem, hne⟩ | ⟨hle, hlt⟩
        · exact .inl ⟨mem_cons_of_mem _ hmem, hne⟩
        · omega
    · next hm =>
      rw [count_cons_of_ne hm]
      rcases mem_cons.mp h with rfl | h
      · exact .inl ⟨mem_cons_self, hm⟩
      · rcases ih h with ⟨hmem, hne⟩ | hfresh
        · exact .inl ⟨mem_cons_of_mem _ hmem, hne⟩
        · exact .inr hfresh

theorem nodup_relabelled (h : (ls.filter (· ≠ 0)).Nodup) (hlt : ∀ l ∈ ls, l < next) : (relabelled next ls).Nodup := by
  induction ls generalizing next with
  | nil => exact nodup_nil
  | cons l ls ih =>
    rw [forall_mem_cons] at hlt
    rw [relabelled]
    split
    · next hl =>
      subst hl
      refine nodup_cons.mpr ⟨fun hmem => ?_, ih (by simpa using h) fun m hm => by have := hlt.2 m hm; omega⟩
      rcases mem_relabelled hmem with ⟨hmem, -⟩ | ⟨hle, -⟩
      · exact Nat.lt_irrefl _ (hlt.2 _ hmem)
      · omega
    · next hl =>
      rw [filter_cons_of_pos (by simpa using hl), nodup_cons] at h
      refine nodup_cons.mpr ⟨fun hmem => ?_, ih h.2 hlt.2⟩
      rcases mem_relabelled hmem with ⟨hmem, hne⟩ | ⟨hle, -⟩
      · exact h.1 (by simp [hmem, hne])
      · omega

private theorem labels_labelledEach (hxs : ∀ x ∈ xs, ∀ next, (x.labelled next).1.labels = relabelled next x.labels ∧
      (x.labelled next).2 = next + x.labels.count 0) (next : Nat) :
    (labelledEach next xs).1.flatMap labels = relabelled next (xs.flatMap labels) ∧
      (labelledEach next xs).2 = next + (xs.flatMap labels).count 0 := by
  induction xs generalizing next with
  | nil => exact ⟨rfl, rfl⟩
  | cons x xs ih =>
    rw [forall_mem_cons] at hxs
    obtain ⟨hx, hnext⟩ := hxs.1 next
    obtain ⟨hrest, hafter⟩ := ih hxs.2 (x.labelled next).2
    simp only [labelledEach, flatMap_cons, relabelled_append, count_append]
    rw [hx, hrest, hafter, hnext, Nat.add_assoc]
    exact ⟨rfl, rfl⟩

theorem labels_labelled (next : Nat) (x : Item) :
    (x.labelled next).1.labels = relabelled next x.labels ∧ (x.labelled next).2 = next + x.labels.count 0 := by
  induction x using childInduction generalizing next with
  | step x ih =>
    obtain ⟨hchildren, hnext⟩ := labelled_members next x
    obtain ⟨hlabels, hafter⟩ := labels_labelledEach ih (freshNext next x.info)
    rw [labels_eq, labels_eq x, info_labelled, hchildren, hnext, hlabels, hafter]
    by_cases hzero : x.info.label = 0
    · simp [freshInfo, freshNext, relabelled, hzero, Nat.add_assoc, Nat.add_comm 1]
    · simp [freshInfo, freshNext, relabelled, hzero]

/-- All items of a tree have labels below a bound, and no two have the same one. -/
structure Distinct (bound : Nat) (x : Item) : Prop where
  nodup : x.labels.Nodup
  range : ∀ l ∈ x.labels, 0 < l ∧ l < bound

theorem distinct_labelled (hpos : 0 < next) (h : (x.labels.filter (· ≠ 0)).Nodup) (hlt : ∀ l ∈ x.labels, l < next) :
    Distinct (x.labelled next).2 (x.labelled next).1 := by
  obtain ⟨hlabels, hnext⟩ := labels_labelled next x
  refine ⟨hlabels ▸ nodup_relabelled h hlt, fun l hl => ?_⟩
  rw [hlabels] at hl
  rw [hnext]
  rcases mem_relabelled hl with ⟨hmem, hne⟩ | ⟨hle, hlt'⟩
  · exact ⟨Nat.pos_of_ne_zero hne, Nat.lt_of_lt_of_le (hlt l hmem) (Nat.le_add_right _ _)⟩
  · omega

theorem mem_labelledEach (hy : y ∈ (labelledEach next xs).1) : ∃ x ∈ xs, ∃ n, next ≤ n ∧ y = (x.labelled n).1 := by
  induction xs generalizing next with
  | nil => cases hy
  | cons x xs ih =>
    simp only [labelledEach, mem_cons] at hy
    rcases hy with rfl | hy
    · exact ⟨x, mem_cons_self, next, Nat.le_refl _, rfl⟩
    · obtain ⟨z, hz, n, hn, rfl⟩ := ih hy
      rw [(labels_labelled next x).2] at hn
      exact ⟨z, mem_cons_of_mem _ hz, n, by omega, rfl⟩

/-- The items of a labelled tree are labelled items of the tree. -/
theorem within_labelled (h : Within y (x.labelled next).1) :
    ∃ z n, Within z x ∧ next ≤ n ∧ y = (z.labelled n).1 := by
  induction x using childInduction generalizing next with
  | step x ih =>
    rcases within_iff.mp h with rfl | ⟨c, hc, hy⟩
    · exact ⟨x, next, .self, Nat.le_refl _, rfl⟩
    · rw [(labelled_members next x).1] at hc
      obtain ⟨z, hz, n, hn, rfl⟩ := mem_labelledEach hc
      obtain ⟨v, m, hv, hm, rfl⟩ := ih z hz hy
      refine ⟨v, m, .child hz hv, ?_, rfl⟩
      have hfresh : next ≤ freshNext next x.info := by
        unfold freshNext
        split <;> omega
      omega

theorem label_mem_labels (h : Within y x) : y.info.label ∈ x.labels :=
  mem_map.mpr ⟨(y.info.label, y), mem_versions.mpr ⟨rfl, h⟩, rfl⟩

/-- Where no label stands twice, a label determines the item. -/
theorem eq_of_label (hx : x.labels.Nodup) (hy : Within y x) (hz : Within z x) (h : y.info.label = z.info.label) : y = z := by
  have hpair := inj_on_of_nodup_map hx (mem_versions.mpr ⟨rfl, hy⟩) (mem_versions.mpr ⟨rfl, hz⟩) h
  exact congrArg Prod.snd hpair

/-! ## Putting versions in a tree -/

/-- A version that is put somewhere is an item of the tree that it comes from. -/
theorem within_of_version (h : version? label new.versions = some y) : Within y new := by
  obtain ⟨before, after, hsplit, -⟩ := lookup_eq_some_iff.mp h
  exact (mem_versions.mp (show (label, y) ∈ new.versions by simp [hsplit])).2

theorem label_of_version (h : version? label new.versions = some y) : y.info.label = label := by
  obtain ⟨before, after, hsplit, -⟩ := lookup_eq_some_iff.mp h
  exact (mem_versions.mp (show (label, y) ∈ new.versions by simp [hsplit])).1.symm

/-- A tree that agrees with the versions on their labels stays as it is. -/
theorem graft_of_agree (h : ∀ y z, Within y x → Within z new → z.info.label = y.info.label → z = y) :
    x.graft new.versions = x := by
  induction x using childInduction with
  | step x ih =>
    rw [graft_eq]
    cases hversion : version? x.info.label new.versions with
    | some z => exact h x z .self (within_of_version hversion) (label_of_version hversion)
    | none =>
      have hmembers : ∀ z ∈ x.children, z.graft new.versions = id z :=
        fun z hz => ih z hz fun y v hy hv => h y v (.child hz hy) hv
      rw [Option.getD_none, mapMembers_congr hmembers, mapMembers_id]

/-- A tree without the labels of the versions stays as it is. -/
theorem graft_of_disjoint (h : ∀ l ∈ x.labels, l ∉ new.labels) : x.graft new.versions = x :=
  graft_of_agree fun _ _ hy hz heq => absurd (heq ▸ label_mem_labels hz) (h _ (label_mem_labels hy))

/-- An item of a tree with versions put in is an item of a version, or an item of the tree with versions put in. -/
theorem within_graft (h : Within y (x.graft new.versions)) :
    Within y new ∨ ∃ z, Within z x ∧ y = z.mapMembers (graft new.versions) ∧ y = z.graft new.versions := by
  induction x using childInduction with
  | step x ih =>
    rw [graft_eq] at h
    cases hversion : version? x.info.label new.versions with
    | some z =>
      rw [hversion] at h
      exact .inl (h.trans (within_of_version hversion))
    | none =>
      rw [hversion, Option.getD_none] at h
      rcases within_iff.mp h with rfl | ⟨c, hc, hy⟩
      · refine .inr ⟨x, .self, rfl, ?_⟩
        rw [graft_eq, hversion, Option.getD_none]
      · rw [children_mapMembers] at hc
        obtain ⟨z, hz, rfl⟩ := mem_map.mp hc
        exact (ih z hz hy).imp_right fun ⟨v, hv, heq⟩ => ⟨v, .child hz hv, heq⟩

/-! ## Paths -/

theorem follow_cons_eq_ok (h : x.follow (s :: path) = .ok y) : ∃ z, x.step s = .ok z ∧ z.follow path = .ok y := by
  rw [follow] at h
  split at h
  · cases h
  · exact ⟨_, ‹_›, h⟩

/-- What the first step of a path finds: an entry of the name with none of that name before it, or an element. -/
theorem step_eq_ok (h : x.step s = .ok y) :
    (∃ name pre post e, s = .name name ∧ x.isMapping = true ∧ x.entries = pre ++ e :: post ∧ e.name = name ∧
      (∀ d ∈ pre, d.name ≠ name) ∧ y = e.item) ∨
    ∃ n pre post, s = .position n ∧ x.elements? = some (pre ++ y :: post) ∧
      position? (pre ++ y :: post).length n = some pre.length := by
  rw [step.eq_def] at h
  split at h
  · next name =>
    split at h
    · next hmapping =>
      split at h
      · next z hget =>
        cases h
        obtain ⟨e, he, rfl⟩ := Option.map_eq_some_iff.mp hget
        obtain ⟨hname, pre, post, hes, hpre⟩ := List.find?_eq_some_iff_append.mp he
        refine .inl ⟨name, pre, post, e, rfl, hmapping, hes, by simpa using hname, ?_, rfl⟩
        exact fun d hd => by simpa using hpre d hd
      · cases h
    · cases h
  · next n =>
    split at h
    · cases h
    · next ys hys =>
      split at h
      · next z hget =>
        cases h
        obtain ⟨i, hi, hy⟩ := Option.bind_eq_some_iff.mp hget
        obtain ⟨hlt, rfl⟩ := List.getElem?_eq_some_iff.mp hy
        have hsplit : ys = ys.take i ++ ys[i] :: ys.drop (i + 1) := by
          rw [getElem_cons_drop, take_append_drop]
        have hlength : (ys.take i).length = i := by simp [Nat.le_of_lt hlt]
        refine .inr ⟨n, ys.take i, ys.drop (i + 1), rfl, by rw [← hsplit]; exact hys, ?_⟩
        rw [← hsplit, hlength]
        exact hi
      · cases h
  · cases h

theorem mem_children_of_step (h : x.step s = .ok y) : y ∈ x.children := by
  rcases step_eq_ok h with ⟨name, pre, post, e, -, hmapping, hes, -, -, rfl⟩ | ⟨n, pre, post, -, hys, -⟩
  · have he : e ∈ x.entries := by simp [hes]
    cases x <;> first | exact mem_map_of_mem he | cases hmapping
  · have hy : y ∈ pre ++ y :: post := by simp
    cases x <;> cases hys <;> exact hy

end Item

namespace Workspace

variable {w : Workspace} {d : Document} {x : Item}

/-! ## Edits -/

/-- The edits of tables, inline tables, arrays and arrays of tables. -/
inductive Edit where
  | assign (l : Locator) (name : String) (d : Input)
  | erase (l : Locator) (name : String)
  | pop (l : Locator) (name : String) (default : Option Input)
  | setDefault (l : Locator) (name : String) (d : Input)
  | append (l : Locator) (d : Input)

/-- The workspace after an edit, unless the edit is refused. -/
def Edit.apply (w : Workspace) : Edit → Except Failure Workspace
  | .assign l name d => w.assign l name d
  | .erase l name => w.erase l name
  | .pop l name default => (w.pop l name default).map Prod.snd
  | .setDefault l name d => (w.setDefault l name d).map Prod.snd
  | .append l d => (w.append l d).map Prod.snd

/-- An edit that brings in nothing but simple data. -/
def Edit.Simple : Edit → Prop
  | .assign _ _ d => d.Simple
  | .erase .. => True
  | .pop .. => True
  | .setDefault _ _ d => d.Simple
  | .append _ d => d.Simple

/-- The workspace after one edit after the other; a refused edit changes nothing. -/
def edited (w : Workspace) : List Edit → Workspace
  | [] => w
  | e :: es =>
    match e.apply w with
    | .ok w' => w'.edited es
    | .error _ => w.edited es

theorem within_of_follow (h : x.follow path = .ok y) : y.Within x := by
  induction path generalizing x with
  | nil =>
    cases h
    exact .self
  | cons s path ih =>
    obtain ⟨z, hz, h⟩ := Item.follow_cons_eq_ok h
    exact .child (Item.mem_children_of_step hz) (ih h)

/-- With one document and nothing held, every path starts at the root of the document. -/
theorem follow_of_find (hdocuments : w.documents = [("main", { content := .document d })])
    (hheld : w.held = []) (hx : w.find l = .ok x) : d.root.follow l.path = .ok x := by
  rw [find] at hx
  obtain ⟨y, hy, hx⟩ := bind_eq_ok.mp hx
  have hroot : y = d.root := by
    rw [start] at hy
    split at hy
    · simp [hheld] at hy
    · obtain ⟨s, hs, hy⟩ := bind_eq_ok.mp hy
      rw [slot, hdocuments] at hs
      split at hs
      · next t hlookup =>
        cases hs
        obtain ⟨before, after, hsplit, -⟩ := lookup_eq_some_iff.mp hlookup
        have hmem : (l.document, s) ∈ [("main", ({ content := .document d } : Slot))] := by simp [hsplit]
        cases (Prod.mk.inj (mem_singleton.mp hmem)).2
        cases hy
        rfl
      · cases hs
  rw [← hroot]
  exact mapError_eq_ok.mp hx

end Workspace

end Verbatim
