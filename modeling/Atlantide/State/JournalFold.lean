import Atlantide.Lib.Fold
import Atlantide.State.Journal

/-! # What a fold leaves of each item

Folding a cut sets the watermark of each effective head's item to that head's sequence number and
its value to the committed entry's, and leaves the other items as the snapshot had them. -/

namespace Atlantide

@[simp] theorem watermark_node (doc : StateDocument) (name : String) :
    watermark doc ⟨.node, name⟩ = doc.wm.getD name 0 := rfl

@[simp] theorem watermark_output (doc : StateDocument) (name : String) :
    watermark doc ⟨.output, name⟩ = doc.owm.getD name 0 := rfl

@[simp] theorem value_node (doc : StateDocument) (name : String) :
    doc.value ⟨.node, name⟩ = .node doc.nodes[name]? := rfl

@[simp] theorem value_output (doc : StateDocument) (name : String) :
    doc.value ⟨.output, name⟩ = .outputs (stackOutputs doc.outputs name) := rfl

theorem getElem?_stackOutputs (outputs : Dict String Value) (stack key : String) :
    (stackOutputs outputs stack)[key]? = if stackOf key = stack then outputs[key]? else none := by
  rw [stackOutputs, Std.ExtTreeMap.getElem?_filter']
  by_cases h : stackOf key = stack <;> cases outputs[key]? <;> simp [h]

theorem getElem?_replaceStack (outputs : Dict String Value) (stack : String)
    (values : Dict String Value) (key : String) :
    (replaceStack outputs stack values)[key]? =
      values[key]?.or (if stackOf key = stack then none else outputs[key]?) := by
  rw [replaceStack, Std.ExtTreeMap.getElem?_union, Std.ExtTreeMap.getElem?_filter']
  by_cases h : stackOf key = stack
  · cases outputs[key]? <;> simp only [h, ne_eq, not_true, decide_false, ↓reduceIte] <;> rfl
  · cases outputs[key]? <;> simp only [h, ne_eq, not_false_eq_true, decide_true, ↓reduceIte] <;> rfl

/-- An entry of outputs names only keys of its own stack. -/
def JournalEntry.WithinStack (entry : JournalEntry) : Prop :=
  ∀ values, entry.kind = .output → entry.outputs = some values →
    ∀ key value, values[key]? = some value → stackOf key = entry.name

theorem JournalEntry.WithinStack.getElem? {entry : JournalEntry} (hwithin : entry.WithinStack)
    (hkind : entry.kind = .output) {key : String} (hkey : stackOf key ≠ entry.name) :
    (entry.outputs.getD ∅)[key]? = none := by
  cases houtputs : entry.outputs with
  | none => simp
  | some values =>
    cases hvalue : values[key]? with
    | none => simpa using hvalue
    | some value => exact absurd (hwithin values hkind houtputs key value hvalue) hkey

namespace Cut

/-- Each entry of the cut was stored for the item it is filed under. -/
def EntriesOwn (cut : Cut) : Prop :=
  ∀ (item : Item) (entry : JournalEntry), cut.entries[item]? = some entry → entry.item = item ∧ entry.WithinStack

variable {cut : Cut}

theorem nodes_of_entry {name : String} {entry : JournalEntry}
    (hentry : cut.entries[(⟨.node, name⟩ : Item)]? = some entry) :
    cut.nodes[name]? = entry.row := by
  refine Fold.observe_at (fun nodes : Dict String StateNode => nodes[name]?) hentry ?_ ?_
  · intro nodes _
    unfold JournalEntry.row
    cases entry.op <;> cases entry.record <;> simp
  · rintro nodes ⟨kind, other⟩ entry' _ hne
    cases kind with
    | output => rfl
    | node =>
      have hname : other ≠ name := by
        rintro rfl
        exact hne rfl
      cases entry'.op <;> cases entry'.record <;>
        simp [Std.ExtTreeMap.getElem?_insert, Std.ExtTreeMap.getElem?_erase, hname]

theorem nodes_of_no_entry {name : String}
    (hentry : cut.entries[(⟨.node, name⟩ : Item)]? = none) : cut.nodes[name]? = cut.doc.nodes[name]? := by
  refine Fold.observe_of_forall (fun nodes : Dict String StateNode => nodes[name]?) ?_ _
  rintro nodes ⟨kind, other⟩ entry hmem
  cases kind with
  | output => rfl
  | node =>
    have hname : other ≠ name := by
      rintro rfl
      rw [hentry] at hmem
      cases hmem
    cases entry.op <;> cases entry.record <;>
      simp [Std.ExtTreeMap.getElem?_insert, Std.ExtTreeMap.getElem?_erase, hname]

theorem stackOutputs_replaceStack_self {entry : JournalEntry} (hwithin : entry.WithinStack)
    (hkind : entry.kind = .output) (outputs : Dict String Value) :
    stackOutputs (replaceStack outputs entry.name (entry.outputs.getD ∅)) entry.name =
      entry.outputs.getD ∅ := by
  apply Std.ExtTreeMap.ext_getElem?
  intro key
  rw [getElem?_stackOutputs, getElem?_replaceStack]
  by_cases hkey : stackOf key = entry.name
  · simp [hkey]
  · simp [hkey, hwithin.getElem? hkind hkey]

theorem stackOutputs_replaceStack_of_ne {entry : JournalEntry} (hwithin : entry.WithinStack)
    (hkind : entry.kind = .output) {stack : String} (hne : entry.name ≠ stack)
    (outputs : Dict String Value) :
    stackOutputs (replaceStack outputs entry.name (entry.outputs.getD ∅)) stack =
      stackOutputs outputs stack := by
  apply Std.ExtTreeMap.ext_getElem?
  intro key
  rw [getElem?_stackOutputs, getElem?_stackOutputs, getElem?_replaceStack]
  by_cases hkey : stackOf key = stack
  · have hother : stackOf key ≠ entry.name := fun h => hne (h.symm.trans hkey)
    simp [hkey, hwithin.getElem? hkind hother, hne.symm]
  · simp [hkey]

theorem outputs_of_entry (hown : cut.EntriesOwn) {stack : String} {entry : JournalEntry}
    (hentry : cut.entries[(⟨.output, stack⟩ : Item)]? = some entry) :
    stackOutputs cut.outputs stack = entry.outputs.getD ∅ := by
  refine Fold.observe_at (fun outputs => stackOutputs outputs stack) hentry ?_ ?_
  · intro outputs _
    obtain ⟨hitem, hwithin⟩ := hown _ _ hentry
    obtain ⟨hkind, rfl⟩ := Item.mk.injEq .. ▸ hitem
    exact stackOutputs_replaceStack_self hwithin hkind outputs
  · rintro outputs ⟨kind, other⟩ entry' hmem hne
    cases kind with
    | node => rfl
    | output =>
      obtain ⟨hitem, hwithin⟩ := hown _ _ hmem
      obtain ⟨hkind, rfl⟩ := Item.mk.injEq .. ▸ hitem
      refine stackOutputs_replaceStack_of_ne hwithin hkind ?_ outputs
      rintro rfl
      exact hne rfl

theorem outputs_of_no_entry (hown : cut.EntriesOwn) {stack : String}
    (hentry : cut.entries[(⟨.output, stack⟩ : Item)]? = none) :
    stackOutputs cut.outputs stack = stackOutputs cut.doc.outputs stack := by
  refine Fold.observe_of_forall (fun outputs => stackOutputs outputs stack) ?_ _
  rintro outputs ⟨kind, other⟩ entry hmem
  cases kind with
  | node => rfl
  | output =>
    obtain ⟨hitem, hwithin⟩ := hown _ _ hmem
    obtain ⟨hkind, rfl⟩ := Item.mk.injEq .. ▸ hitem
    refine stackOutputs_replaceStack_of_ne hwithin hkind ?_ outputs
    rintro rfl
    rw [hentry] at hmem
    cases hmem

/-- **The folded value** of an item is its committed entry's, or the snapshot's. -/
theorem fold_value (hown : cut.EntriesOwn) (maxFence : Nat) (item : Item) :
    (cut.fold maxFence).value item =
      (cut.entries[item]?.map JournalEntry.value).getD (cut.doc.value item) := by
  obtain ⟨kind, name⟩ := item
  cases hentry : cut.entries[(⟨kind, name⟩ : Item)]? with
  | none =>
    cases kind with
    | node => simpa [fold] using nodes_of_no_entry hentry
    | output => simpa [fold] using outputs_of_no_entry hown hentry
  | some entry =>
    have hkind : entry.kind = kind := congrArg Item.kind (hown _ _ hentry).1
    subst hkind
    cases hkind : entry.kind with
    | node =>
      rw [hkind] at hentry
      simpa [fold, JournalEntry.value, hkind] using nodes_of_entry hentry
    | output =>
      rw [hkind] at hentry
      simpa [fold, JournalEntry.value, hkind] using outputs_of_entry hown hentry

theorem foldedMarks_of_effective {item : Item} {head : Head}
    (hhead : cut.effective[item]? = some head) (marks : Dict String Nat) :
    (cut.foldedMarks item.kind marks).getD item.name 0 = head.seq.getD 0 := by
  refine Fold.observe_at (fun marks : Dict String Nat => marks.getD item.name 0)
    hhead ?_ ?_
  · intro marks _
    simp
  · intro marks other head' _ hne
    by_cases hkind : other.kind = item.kind
    · have hname : other.name ≠ item.name := by
        intro hname
        cases other; cases item
        simp_all
      simp [hkind, Std.ExtTreeMap.getD_insert, hname]
    · simp [hkind]

theorem foldedMarks_of_not_effective {item : Item} (hhead : cut.effective[item]? = none)
    (marks : Dict String Nat) :
    (cut.foldedMarks item.kind marks).getD item.name 0 = marks.getD item.name 0 := by
  refine Fold.observe_of_forall (fun marks : Dict String Nat => marks.getD item.name 0)
    ?_ _
  intro marks other head hmem
  by_cases hkind : other.kind = item.kind
  · have hname : other.name ≠ item.name := by
      intro hname
      have : other = item := by
        cases other; cases item
        simp_all
      rw [this, hhead] at hmem
      cases hmem
    simp [hkind, Std.ExtTreeMap.getD_insert, hname]
  · simp [hkind]

/-- **The folded watermark** of an item is its effective head's sequence number, or unchanged. -/
theorem fold_watermark (maxFence : Nat) (item : Item) :
    watermark (cut.fold maxFence) item =
      (cut.effective[item]?.map fun head => head.seq.getD 0).getD (watermark cut.doc item) := by
  obtain ⟨kind, name⟩ := item
  cases hhead : cut.effective[(⟨kind, name⟩ : Item)]? with
  | none =>
    cases kind with
    | node => exact foldedMarks_of_not_effective hhead _
    | output => exact foldedMarks_of_not_effective hhead _
  | some head =>
    cases kind with
    | node => exact foldedMarks_of_effective hhead _
    | output => exact foldedMarks_of_effective hhead _

theorem effective_eq_some_iff {item : Item} {head : Head} :
    cut.effective[item]? = some head ↔
      cut.heads[item]? = some head ∧ ∃ seq, head.seq = some seq ∧ watermark cut.doc item < seq := by
  rw [effective, Std.ExtTreeMap.getElem?_filter', Option.filter_eq_some_iff]
  simp [past, Option.any_eq_true]

end Cut

theorem mem_groupListing {entries : List EntryKey} {item : Item} {key : EntryKey} :
    key ∈ (groupListing entries).getD item [] ↔ key ∈ entries ∧ key.item = item := by
  suffices h : ∀ grouped : Dict Item (List EntryKey),
      key ∈ (entries.foldl (fun grouped entry =>
        grouped.insert entry.item (grouped.getD entry.item [] ++ [entry])) grouped).getD item [] ↔
        key ∈ grouped.getD item [] ∨ (key ∈ entries ∧ key.item = item) by
    simpa [groupListing] using h ∅
  induction entries with
  | nil => simp
  | cons entry entries ih =>
    intro grouped
    rw [List.foldl_cons, ih, Std.ExtTreeMap.getD_insert]
    by_cases hitem : entry.item = item
    · subst hitem
      simp only [Std.compare_self, ↓reduceIte, List.mem_append, List.mem_cons]
      tauto
    · have hne : key = entry → key.item ≠ item := by
        rintro rfl
        exact hitem
      simp only [Std.compare_eq_iff_eq, hitem, ↓reduceIte, List.mem_cons]
      tauto

theorem le_maxSeq {entries : List EntryKey} {key : EntryKey} (hmem : key ∈ entries) :
    key.seq ≤ maxSeq entries := by
  suffices h : ∀ seq, seq ≤ entries.foldl (fun seq entry => max seq entry.seq) seq ∧
      (key ∈ entries → key.seq ≤ entries.foldl (fun seq entry => max seq entry.seq) seq) from
    (h 0).2 hmem
  clear hmem
  induction entries with
  | nil => simp
  | cons entry entries ih =>
    intro seq
    obtain ⟨hle, hkey⟩ := ih (max seq entry.seq)
    rw [List.foldl_cons]
    refine ⟨Nat.le_trans (Nat.le_max_left _ _) hle, fun hmem => ?_⟩
    rcases List.mem_cons.mp hmem with rfl | hmem
    · exact Nat.le_trans (Nat.le_max_right _ _) hle
    · exact hkey hmem

/-- A listed entry above its item's watermark has the item's head read. -/
theorem mem_itemsPastWatermark {doc : StateDocument} {entries : List EntryKey} {key : EntryKey}
    (hmem : key ∈ entries) (hpast : watermark doc key.item < key.seq) :
    key.item ∈ itemsPastWatermark doc (groupListing entries) := by
  have hgroup : key ∈ (groupListing entries).getD key.item [] := mem_groupListing.mpr ⟨hmem, rfl⟩
  rw [Std.ExtTreeMap.getD_eq_getD_getElem?] at hgroup
  cases hentries : (groupListing entries)[key.item]? with
  | none => simp [hentries] at hgroup
  | some group =>
    rw [hentries] at hgroup
    rw [itemsPastWatermark, Std.ExtTreeMap.mem_keys, Std.ExtTreeMap.mem_iff_isSome_getElem?,
      Std.ExtTreeMap.getElem?_filter', hentries]
    have hmax : watermark doc key.item < maxSeq group := Nat.lt_of_lt_of_le hpast (le_maxSeq hgroup)
    simp [Option.filter, hmax]

end Atlantide
