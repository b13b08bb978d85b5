import Gomibako.Beast.Accepted
import Gomibako.Beast.BasicFields
import Gomibako.Beast.Header
import Gomibako.Lib.SortedIndex
import Mathlib.Data.List.Nodup

/-!
# The two orders of the fields

Whatever is inserted, set and erased, and at whatever addresses the elements are allocated, the set
of `basic_fields` is an index of its list, and the list is that of `Fields`, on which the operations
are plain (`BasicFields.Represents.apply`). So what is found through the set is what the list has of
a name (`BasicFields.agrees_of_run`), and fields that are copied by inserting them again are the
same (`BasicFields.agrees_of_copy`).
-/

namespace Gomibako.Beast

/-! ## The list and its index -/

/-- What an element is sorted by: the sort key of its name. -/
def Element.key (rank : Char ↪ ℤ) (e : Element) : NameKey := sortKey rank e.name

namespace BasicFields

section
variable {rank : Char ↪ ℤ} {b : BasicFields} {fs : Fields} {list : List Element} {e : Element}
  {name : Str}

theorem lowerBound_eq : b.lowerBound rank name =
    Gomibako.lowerBound (Element.key rank) (sortKey rank name) b.set := by
  unfold lowerBound Gomibako.lowerBound
  refine congrArg (b.set.findIdx ·) (funext fun e => ?_)
  rw [Bool.eq_iff_iff, Bool.not_eq_true', ← Bool.not_eq_true, keyLess_iff, not_lt,
    decide_eq_true_eq]
  rfl

theorem upperBound_eq : b.upperBound rank name =
    Gomibako.upperBound (Element.key rank) (sortKey rank name) b.set := by
  unfold upperBound Gomibako.upperBound
  refine congrArg (b.set.findIdx ·) (funext fun e => ?_)
  rw [Bool.eq_iff_iff, keyLess_iff, decide_eq_true_eq]
  rfl

/-- The key of an element is that of a name if the names are equal up to case. -/
theorem key_eq_iff : e.key rank = sortKey rank name ↔ iequals name e.name = true := by
  rw [iequals_comm]
  exact sortKey_eq_iff rank

/-- An element is equivalent to a name if it has its key. -/
theorem equivalent_eq : (!keyLess rank name e.name && !keyLess rank e.name name) =
    decide (e.key rank = sortKey rank name) := by
  rw [Bool.eq_iff_iff, Bool.and_eq_true, Bool.not_eq_true', Bool.not_eq_true', decide_eq_true_eq,
    ← Bool.not_eq_true, ← Bool.not_eq_true, keyLess_iff, keyLess_iff, not_lt, not_lt]
  exact le_antisymm_iff.symm

/-- An element is found at its position, if no two elements of the list are at one address. -/
theorem iteratorTo_append {l r : List Element}
    (h : ((l ++ e :: r).map Element.address).Nodup) : iteratorTo (l ++ e :: r) e = l.length := by
  rw [List.map_append, List.map_cons, List.nodup_append] at h
  have hl : ∀ f ∈ l, (f.address == e.address) = false := fun f hf =>
    beq_false_of_ne (h.2.2 f.address (List.mem_map_of_mem hf) e.address List.mem_cons_self)
  have hidx := List.findIdx_eq_length_of_false hl
  rw [iteratorTo, List.findIdx_append, if_neg (by omega), List.findIdx_cons, beq_self_eq_true]
  exact Nat.zero_add _

/-- The element that is unlinked is the only one that goes. -/
theorem unlink_eq (h : (list.map Element.address).Nodup) :
    unlink list e = list.filter fun f => f.address ≠ e.address := by
  induction list with
  | nil => rfl
  | cons f list ih =>
    obtain ⟨hf, hlist⟩ := List.nodup_cons.1 h
    have hunlink := ih hlist
    unfold unlink at hunlink ⊢
    rw [List.eraseP_cons]
    by_cases heq : f.address = e.address
    · have hself : list.filter (fun g => g.address ≠ e.address) = list :=
        List.filter_eq_self.2 fun g hg => decide_eq_true fun hge =>
          hf (heq ▸ hge ▸ List.mem_map_of_mem hg)
      rw [beq_iff_eq.2 heq, List.filter_cons_of_neg (by simpa using heq), hself]
      rfl
    · rw [beq_false_of_ne heq, List.filter_cons_of_pos (by simpa using heq), ← hunlink]
      rfl

/-- The elements that are unlinked one by one are those that go. -/
theorem foldl_unlink (h : (list.map Element.address).Nodup) (m : List Element) :
    m.foldl unlink list = list.filter fun f => f.address ∉ m.map Element.address := by
  induction m generalizing list with
  | nil => exact (List.filter_eq_self.2 fun f _ => by simp).symm
  | cons e m ih =>
    have hnodup : ((unlink list e).map Element.address).Nodup :=
      h.sublist (List.eraseP_sublist.map _)
    rw [List.foldl_cons, ih hnodup, unlink_eq h, List.filter_filter]
    refine List.filter_congr fun f _ => ?_
    rw [Bool.eq_iff_iff]
    simp [and_comm]

/-- If the elements of a key are unlinked one after another, the list is left with those of the
other keys. -/
theorem foldl_unlink_ofKey (h : (list.map Element.address).Nodup) (k : NameKey) :
    (ofKey (Element.key rank) k list).foldl unlink list =
      list.filter fun f => f.key rank ≠ k := by
  rw [foldl_unlink h]
  refine List.filter_congr fun f hf => ?_
  rw [Bool.eq_iff_iff, decide_eq_true_eq, decide_eq_true_eq, not_iff_not]
  constructor
  · intro hmem
    obtain ⟨g, hg, haddress⟩ := List.mem_map.1 hmem
    obtain ⟨hg, hkey⟩ := List.mem_filter.1 hg
    cases List.inj_on_of_nodup_map h hg hf haddress
    exact of_decide_eq_true hkey
  · intro hkey
    exact List.mem_map_of_mem (List.mem_filter.2 ⟨hf, decide_eq_true hkey⟩)

/-- The loop erases the elements of the name that the rest of the set starts with. -/
theorem eraseEqual_append {m r : List Element} (hm : ∀ f ∈ m, iequals name f.name = true)
    (hr : ∀ f ∈ r, iequals name f.name = false) (list : List Element) :
    eraseEqual name (m ++ r) list = (r, m.foldl unlink list) := by
  induction m generalizing list with
  | nil =>
    cases r with
    | nil => rfl
    | cons f r => simp [eraseEqual, hr f List.mem_cons_self]
  | cons f m ih =>
    obtain ⟨hf, hm⟩ := List.forall_mem_cons.1 hm
    rw [List.cons_append, eraseEqual, hf]
    exact ih hm _

/-- The containers represent the fields: the list is that of the fields, which are in groups, the
set is an index of it, and no two elements are at one address. -/
structure Represents (rank : Char ↪ ℤ) (b : BasicFields) (fs : Fields) : Prop where
  fields : b.list.map Element.toField = fs
  index : IndexOf (Element.key rank) b.set b.list
  distinct : (b.list.map Element.address).Nodup
  grouped : fs.Grouped

namespace Represents

/-- The empty containers represent the empty list of fields, which is where a run starts. -/
theorem empty : Represents rank {} [] := ⟨rfl, .nil, .nil, .nil⟩

/-- The elements of a key are the fields of the name. -/
theorem map_ofKey (h : Represents rank b fs) (name : Str) :
    (ofKey (Element.key rank) (sortKey rank name) b.list).map Element.toField = fs.named name := by
  rw [← h.fields, Fields.named, List.filter_map]
  refine congrArg (List.map Element.toField) (List.filter_congr fun e _ => ?_)
  rw [Bool.eq_iff_iff, decide_eq_true_eq, key_eq_iff]
  rfl

/-- The list without the elements of a name represents the fields without those of the name, which
is what `erase` leaves. -/
theorem map_filter_ne (h : Represents rank b fs) (name : Str) :
    (b.list.filter fun e => e.key rank ≠ sortKey rank name).map Element.toField =
      fs.erase name := by
  rw [← h.fields, Fields.erase, List.filter_map]
  refine congrArg (List.map Element.toField) (List.filter_congr fun e _ => ?_)
  rw [Bool.eq_iff_iff, decide_eq_true_eq, ne_eq, key_eq_iff, Function.comp, Bool.not_eq_true',
    Bool.not_eq_true]
  rfl

/-- The elements of a key are together in the list. -/
theorem exists_append (h : Represents rank b fs) (k : NameKey) :
    ∃ before after, b.list = before ++ (ofKey (Element.key rank) k b.list ++ after) ∧
      (∀ e ∈ before, e.key rank ≠ k) ∧ ∀ e ∈ after, e.key rank ≠ k := by
  refine Gomibako.Grouped.exists_append ?_ k
  have hgrouped := h.grouped
  rw [← h.fields] at hgrouped
  refine List.Triplewise.imp ?_ (List.triplewise_map.1 hgrouped)
  intro x y z hxyz
  have hkey : ∀ u v : Element, u.key rank = v.key rank ↔ u.toField.key = v.toField.key :=
    fun u v => (sortKey_eq_iff rank).trans iequals_iff
  rw [hkey, hkey]
  exact hxyz

/-- `insert` puts the element into the set at the upper bound of its name, and into the list behind
the last one of its name. -/
theorem insertElement_eq (h : Represents rank b fs) (e : Element) : b.insertElement rank e =
    { set := b.set.insertIdx (Gomibako.upperBound (Element.key rank) (e.key rank) b.set) e
      list := insertLast (Element.key rank) e b.list } := by
  have hupper : b.upperBound rank e.name =
      Gomibako.upperBound (Element.key rank) (e.key rank) b.set := upperBound_eq
  have hsame := h.index.same (e.key rank)
  have hnew : ofKey (Element.key rank) (e.key rank) b.set = [] →
      b.list ++ [e] = insertLast (Element.key rank) e b.list := fun hnone =>
    (insertLast_of_forall_ne (ofKey_eq_nil_iff.1 (hsame.symm.trans hnone))).symm
  unfold insertElement
  simp only
  split
  · next hzero =>
    have hlen := h.index.sorted.upperBound_eq (e.key rank)
    have hnone : ofKey (Element.key rank) (e.key rank) b.set = [] :=
      List.length_eq_zero_iff.1 (by omega)
    rw [hnew hnone, ← hupper]
  · next hpos =>
    -- the element in front of the upper bound
    obtain ⟨last, hlast, hcases⟩ := h.index.sorted.pred_upperBound (hupper ▸ hpos)
    obtain ⟨hlt, hget⟩ := List.getElem?_eq_some_iff.1 hlast
    have hget' : b.set.get ⟨b.upperBound rank e.name - 1, b.pred_upperBound_lt rank hpos⟩ =
        last := by
      rw [← hget, List.get_eq_getElem]
      simp only [hupper]
    rw [hget']
    rcases hcases with ⟨hkey, init, hinit⟩ | ⟨hkey, hnone⟩
    · obtain ⟨before, after, hlist, -, hafter⟩ := h.exists_append (e.key rank)
      rw [← hsame, hinit, List.append_assoc, List.singleton_append, ← List.append_assoc] at hlist
      have hdistinct := h.distinct
      rw [hlist] at hdistinct
      rw [key_eq_iff.1 hkey, hlist, iteratorTo_append hdistinct, insertLast_append hkey hafter,
        ← hupper]
      have hinsert := insertIdx_append_length (before ++ init ++ [last]) after e
      rw [List.length_append, List.append_assoc] at hinsert
      simpa using hinsert
    · have hne : iequals e.name last.name = false := by
        rw [← Bool.not_eq_true]
        exact fun heq => hkey (key_eq_iff.2 heq)
      rw [hne, hnew hnone, ← hupper]
      rfl

/-- `insert` into the containers is insertion into the plain list, for an element at a new
address. -/
theorem insertElement (h : Represents rank b fs) {e : Element}
    (he : e.address ∉ b.list.map Element.address) :
    Represents rank (b.insertElement rank e) (fs.insertElement e.toField) := by
  rw [h.insertElement_eq]
  refine ⟨?_, h.index.insert e, ?_, h.grouped.insertElement e.toField⟩
  · have hkey : ∀ u v : Element, u.key rank = v.key rank ↔ u.toField.key = v.toField.key :=
      fun u v => (sortKey_eq_iff rank).trans iequals_iff
    rw [insertLast_map hkey, h.fields, Fields.insertElement_eq]
  · refine ((insertLast_perm e b.list).map Element.address).nodup_iff.2 ?_
    exact List.nodup_cons.2 ⟨he, h.distinct⟩

/-- The elements of a name are between its bounds, and have none of it behind. -/
theorem drop_lowerBound (h : Represents rank b fs) (name : Str) :
    b.set.drop (b.lowerBound rank name) = ofKey (Element.key rank) (sortKey rank name) b.list ++
      b.set.drop (b.upperBound rank name) := by
  rw [lowerBound_eq, upperBound_eq, h.index.sorted.drop_lowerBound, h.index.sorted.drop_upperBound,
    h.index.same]

/-- `set_element` replaces the elements of the name in the set, and unlinks them from the list
before the new one is put to its end. -/
theorem setElement_eq (h : Represents rank b fs) (e : Element) : b.setElement rank e =
    { set := b.set.take (Gomibako.lowerBound (Element.key rank) (e.key rank) b.set) ++
        e :: b.set.drop (Gomibako.upperBound (Element.key rank) (e.key rank) b.set)
      list := b.list.filter (fun f => f.key rank ≠ e.key rank) ++ [e] } := by
  have hof : ∀ f ∈ ofKey (Element.key rank) (e.key rank) b.list, iequals e.name f.name = true :=
    fun f hf => key_eq_iff.1 (of_decide_eq_true (List.mem_filter.1 hf).2)
  have hrest : ∀ f ∈ b.set.drop (b.upperBound rank e.name), iequals e.name f.name = false := by
    intro f hf
    rw [upperBound_eq, h.index.sorted.drop_upperBound] at hf
    rw [← Bool.not_eq_true]
    intro heq
    exact (of_decide_eq_true (List.mem_filter.1 hf).2 : e.key rank < f.key rank).ne'
      (key_eq_iff.2 heq)
  have hloop : eraseEqual e.name (b.set.drop (b.lowerBound rank e.name)) b.list =
      (b.set.drop (b.upperBound rank e.name), b.list.filter fun f => f.key rank ≠ e.key rank) := by
    rw [h.drop_lowerBound e.name, ← foldl_unlink_ofKey h.distinct (e.key rank)]
    exact eraseEqual_append hof hrest b.list
  unfold setElement
  simp only
  rw [hloop, lowerBound_eq, upperBound_eq]
  rfl

/-- `set` in the containers is replacement in the plain list, for an element at a new address. -/
theorem setElement (h : Represents rank b fs) {e : Element}
    (he : e.address ∉ b.list.map Element.address) :
    Represents rank (b.setElement rank e) (fs.setElement e.toField) := by
  rw [h.setElement_eq]
  refine ⟨?_, h.index.replace e, ?_, h.grouped.setElement e.toField⟩
  · rw [List.map_append]
    exact congrArg (· ++ [e.toField]) (h.map_filter_ne e.name)
  · rw [List.map_append, List.nodup_append]
    refine ⟨h.distinct.sublist (List.filter_sublist.map _), List.nodup_singleton _,
      fun a ha c hc hac => ?_⟩
    rw [List.mem_singleton.1 hc] at hac
    exact he (hac ▸ (List.filter_sublist.map _).subset ha)

/-- `erase` is plain, and counts the fields of the name. -/
theorem erase (h : Represents rank b fs) (name : Str) :
    Represents rank (b.erase rank name).1 (fs.erase name) ∧
      (b.erase rank name).2 = (fs.named name).length := by
  have herased : (b.set.take (b.upperBound rank name)).drop (b.lowerBound rank name) =
      ofKey (Element.key rank) (sortKey rank name) b.list := by
    rw [upperBound_eq, lowerBound_eq, h.index.sorted.take_upperBound, h.index.sorted.lowerBound_eq,
      List.drop_left, h.index.same]
  unfold BasicFields.erase
  simp only
  rw [herased, foldl_unlink_ofKey h.distinct, lowerBound_eq, upperBound_eq]
  refine ⟨⟨h.map_filter_ne name, h.index.erase _, ?_, h.grouped.erase name⟩, ?_⟩
  · exact h.distinct.sublist (List.filter_sublist.map _)
  · rw [← h.map_ofKey, List.length_map]

/-- `count`, which asks the set, counts the fields of the name in the list. -/
theorem count (h : Represents rank b fs) (name : Str) :
    b.count rank name = (fs.named name).length := by
  unfold BasicFields.count
  simp only [equivalent_eq]
  rw [List.countP_eq_length_filter, ← h.map_ofKey, List.length_map,
    ← h.index.same (sortKey rank name)]
  rfl

/-- `find`, which asks the set for the first element of the name, gives the position of the first
field of the name in the list. -/
theorem find (h : Represents rank b fs) (name : Str) :
    b.find rank name = fs.findIdx (Field.is name) := by
  have hfirst : b.set.find? (fun e => decide (e.key rank = sortKey rank name)) =
      b.list.find? fun e => decide (e.key rank = sortKey rank name) := by
    have hsame := h.index.same (sortKey rank name)
    unfold ofKey at hsame
    rw [← List.head?_filter, hsame, List.head?_filter]
  have hidx : fs.findIdx (Field.is name) =
      b.list.findIdx fun e => decide (e.key rank = sortKey rank name) := by
    rw [← h.fields, List.findIdx_map]
    refine congrArg (b.list.findIdx ·) (funext fun e => ?_)
    rw [Bool.eq_iff_iff, decide_eq_true_eq, key_eq_iff]
    rfl
  unfold BasicFields.find
  simp only [equivalent_eq]
  rw [hfirst, hidx]
  split
  · next hnone =>
    refine (List.findIdx_eq_length_of_false fun e he => ?_).symm
    simpa using List.find?_eq_none.1 hnone e he
  · next e hsome =>
    obtain ⟨he, before, after, hlist, hbefore⟩ := List.find?_eq_some_iff_append.1 hsome
    have hdistinct := h.distinct
    rw [hlist] at hdistinct ⊢
    rw [iteratorTo_append hdistinct, List.findIdx_append,
      List.findIdx_eq_length_of_false fun f hf => by simpa using hbefore f hf,
      if_neg (Nat.lt_irrefl _), List.findIdx_cons, he]
    exact (Nat.zero_add _).symm

/-- `operator[]` gives the value of the first field of the name in the list, or an empty text. -/
theorem get (h : Represents rank b fs) (name : Str) : b.get rank name = fs.get name := by
  unfold BasicFields.get Fields.get
  rw [h.find, Fields.find, List.find?_eq_getElem?_findIdx, ← h.fields, List.getElem?_map,
    Option.map_map]
  rfl

/-- `equal_range` gives the positions in the list around the fields of the name, which stand
together. -/
theorem equalRange (h : Represents rank b fs) (name : Str) : ∃ before after,
    fs = before ++ (fs.named name ++ after) ∧
      b.equalRange rank name = (before.length, before.length + (fs.named name).length) := by
  have hnamed := h.map_ofKey name
  have hlen := h.index.sorted.upperBound_eq (sortKey rank name)
  rw [← lowerBound_eq, ← upperBound_eq, h.index.same] at hlen
  unfold BasicFields.equalRange
  simp only
  split
  · next heq =>
    have hnone : ofKey (Element.key rank) (sortKey rank name) b.list = [] :=
      List.length_eq_zero_iff.1 (by omega)
    rw [hnone] at hnamed
    refine ⟨fs, [], ?_, ?_⟩
    · rw [← hnamed]
      simp
    · rw [← hnamed, ← h.fields]
      simp
  · next hne =>
    have hsome : ofKey (Element.key rank) (sortKey rank name) b.list ≠ [] := by
      intro hnone
      rw [hnone] at hlen
      exact hne hlen.symm
    obtain ⟨before, after, hlist, -, -⟩ := h.exists_append (sortKey rank name)
    have hdistinct := h.distinct
    refine ⟨before.map Element.toField, after.map Element.toField, ?_, ?_⟩
    · rw [← hnamed, ← h.fields, ← List.map_append, ← List.map_append, ← hlist]
    rw [← hnamed, List.length_map, List.length_map]
    refine Prod.ext ?_ ?_
    · -- the first element of the name
      obtain ⟨x, m, hcons⟩ := List.exists_cons_of_ne_nil hsome
      have hget : b.set.get ⟨b.lowerBound rank name, b.lowerBound_lt rank hne⟩ = x := by
        have hhead := congrArg List.head? (h.drop_lowerBound name)
        rw [hcons, List.cons_append, List.head?_drop, List.head?_cons] at hhead
        exact (List.getElem?_eq_some_iff.1 hhead).2
      rw [hcons, List.cons_append] at hlist
      rw [hlist] at hdistinct
      simp only [hget]
      rw [hlist]
      exact iteratorTo_append hdistinct
    · -- and the last one
      have hpos : Gomibako.upperBound (Element.key rank) (sortKey rank name) b.set ≠ 0 := by
        rw [← upperBound_eq]
        exact b.upperBound_ne_zero rank hne
      obtain ⟨y, hy, hcases⟩ := h.index.sorted.pred_upperBound hpos
      rw [h.index.same] at hcases
      obtain ⟨-, init, hinit⟩ := hcases.resolve_right fun hnone => hsome hnone.2
      have hget : b.set.get ⟨b.upperBound rank name - 1,
          b.pred_upperBound_lt rank (b.upperBound_ne_zero rank hne)⟩ = y := by
        rw [← upperBound_eq] at hy
        exact (List.getElem?_eq_some_iff.1 hy).2
      rw [hinit, List.append_assoc, List.singleton_append, ← List.append_assoc] at hlist
      rw [hlist] at hdistinct
      simp only [hget]
      rw [hinit]
      nth_rewrite 1 [hlist]
      rw [iteratorTo_append hdistinct, List.length_append, List.length_append]
      exact Nat.add_assoc _ _ _

end Represents

/-! ## The list is that of the fields -/

/-- The containers agree with the fields: the list is the same, with the fields of a name together,
and what is found through the set, counted and in the range of a name is what the list has of it. -/
structure Agrees (rank : Char ↪ ℤ) (b : BasicFields) (fs : Fields) : Prop where
  fields : b.list.map Element.toField = fs
  grouped : fs.Grouped
  find : ∀ name, b.find rank name = fs.findIdx (Field.is name)
  get : ∀ name, b.get rank name = fs.get name
  count : ∀ name, b.count rank name = (fs.named name).length
  erase : ∀ name, (b.erase rank name).2 = (fs.named name).length
  equalRange : ∀ name, ∃ before after, fs = before ++ (fs.named name ++ after) ∧
    b.equalRange rank name = (before.length, before.length + (fs.named name).length)

/-- Containers that represent the fields agree with them in all that can be asked. -/
theorem Represents.agrees (h : Represents rank b fs) : Agrees rank b fs :=
  ⟨h.fields, h.grouped, h.find, h.get, h.count, fun name => (h.erase name).2, h.equalRange⟩

/-- An operation does to the containers what it does to the fields. -/
theorem Represents.apply (h : Represents rank b fs) {address : Nat}
    (ha : address ∉ b.list.map Element.address) (op : FieldsOp) :
    Represents rank (b.apply rank address op) (fs.apply op) := by
  cases op with
  | insert sname value =>
    simp only [BasicFields.apply, Fields.apply, BasicFields.insert, Fields.insert]
    cases newElement sname value with
    | error e => exact h
    | ok f => exact h.insertElement (e := { f with address }) ha
  | set sname value =>
    simp only [BasicFields.apply, Fields.apply, BasicFields.setField, Fields.set]
    cases newElement sname value with
    | error e => exact h
    | ok f => exact h.setElement (e := { f with address }) ha
  | erase name => exact (h.erase name).1
  | clear => exact .empty

/-- Along a run the containers represent the fields that the operations leave of the plain list, by
induction on the run. -/
theorem represents_of_run {c : BasicFields} {ops : List FieldsOp}
    (h : (machine rank).Run b ops c) (hb : Represents rank b fs) :
    Represents rank c (ops.foldl Fields.apply fs) := by
  refine h.invariant (P := fun ops c => Represents rank c (ops.foldl Fields.apply fs)) hb ?_
  intro ops c op d _ ih hstep
  obtain ⟨address, ha, rfl⟩ := hstep
  rw [List.foldl_append]
  exact ih.apply ha op

/-- **The two orders of the fields agree**: whatever is done to the fields one after the other, the
list is what plain insertion, replacement and erasure lead to, the fields of a name are together in
it, and the set finds, counts and delimits them. -/
theorem agrees_of_run {ops : List FieldsOp} (h : (machine rank).Run {} ops b) :
    Agrees rank b (ops.foldl Fields.apply []) :=
  (represents_of_run h .empty).agrees

end

theorem codeRank_injective : Function.Injective fun c : Char => (c.toNat : ℤ) := by
  intro c d h
  exact Char.toNat_inj.1 (Int.natCast_inj.1 h)

/-- The numbers of a `char` whose number is its code, as where `char` is unsigned. -/
def codeRank : Char ↪ ℤ := ⟨_, codeRank_injective⟩

/-- Two fields of a name with another one between them, which is set again. -/
def threeOps : List FieldsOp :=
  [.insert "Via".toList "a".toList, .insert "Host".toList "b".toList,
    .insert "via".toList " c ".toList, .set "HOST".toList "d".toList]

/-- What they build: the two fields of the first name are together, and the one that was set again
is at the end. -/
def threeFields : BasicFields where
  set := [⟨⟨"Via".toList, "a".toList⟩, 0⟩, ⟨⟨"via".toList, "c".toList⟩, 2⟩,
    ⟨⟨"HOST".toList, "d".toList⟩, 3⟩]
  list := [⟨⟨"Via".toList, "a".toList⟩, 0⟩, ⟨⟨"via".toList, "c".toList⟩, 2⟩,
    ⟨⟨"HOST".toList, "d".toList⟩, 3⟩]

/-- The operations build these containers, each new element being allocated at an address that is
free. -/
theorem run_threeOps : (machine codeRank).Run {} threeOps threeFields := by
  have h₁ : (machine codeRank).Run {} ([] ++ [.insert "Via".toList "a".toList]) _ :=
    .snoc .nil ⟨0, List.not_mem_nil, rfl⟩
  have h₂ := h₁.snoc (e := .insert "Host".toList "b".toList) ⟨1, by decide, rfl⟩
  have h₃ := h₂.snoc (e := .insert "via".toList " c ".toList) ⟨2, by decide, rfl⟩
  exact h₃.snoc (e := .set "HOST".toList "d".toList) ⟨3, by decide, rfl⟩

/-- The two fields of a name are found together by `equal_range`, in a name of another case. -/
theorem agrees_of_run_threeOps : threeFields.equalRange codeRank "VIA".toList = (0, 2) ∧
    Agrees codeRank threeFields (threeOps.foldl Fields.apply []) :=
  ⟨rfl, agrees_of_run run_threeOps⟩

/-! ## Copies -/

section
variable {rank : Char ↪ ℤ} {b : BasicFields} {fs : Fields}

/-- The fields are as `new_element` leaves them: copied once more, they do not change. -/
def Stored (fs : Fields) : Prop := ∀ f ∈ fs, newElement f.name f.value = .ok f

/-- A new element is as `new_element` leaves it: made of its own texts, it is the same, since `trim`
is idempotent. -/
theorem newElement_of_ok {sname value : Str} {f : Field} (h : newElement sname value = .ok f) :
    newElement f.name f.value = .ok f := by
  unfold newElement at h
  split_ifs at h with hname hvalue
  cases h
  have hlen : (trim value).length ≤ value.length := by
    have hright : (trim value).length ≤ (skipOws value).length := by
      rw [trim, List.length_reverse]
      exact (List.dropWhile_suffix _).length_le.trans_eq (List.length_reverse)
    exact hright.trans (List.dropWhile_suffix _).length_le
  rw [newElement, if_neg hname, if_neg (by simp only; omega), (trimmed_trim value).trim_eq]

/-- What is done to fields that are as `new_element` leaves them leaves such fields. -/
theorem Stored.apply (h : Stored fs) (op : FieldsOp) : Stored (fs.apply op) := by
  cases op with
  | insert sname value =>
    simp only [Fields.apply, Fields.insert]
    cases hnew : newElement sname value with
    | error e => exact h
    | ok f =>
      intro g hg
      rcases Fields.mem_insertElement hg with rfl | hg
      · exact newElement_of_ok hnew
      · exact h g hg
  | set sname value =>
    simp only [Fields.apply, Fields.set]
    cases hnew : newElement sname value with
    | error e => exact h
    | ok f =>
      intro g hg
      rcases List.mem_append.1 hg with hg | hg
      · exact h g (List.mem_filter.1 hg).1
      · cases List.mem_singleton.1 hg
        exact newElement_of_ok hnew
  | erase name => exact fun f hf => h f (List.mem_filter.1 hf).1
  | clear => exact fun f hf => absurd hf List.not_mem_nil

/-- Fields that are inserted again one by one are the same fields in the same order. -/
theorem foldl_insert (hgrouped : fs.Grouped) (h : Stored fs) :
    (fs.map fun f => FieldsOp.insert f.name f.value).foldl Fields.apply [] = fs := by
  have hstep : ∀ gs : Fields, ∀ f ∈ fs,
      Fields.apply gs (.insert f.name f.value) = Fields.insertElement f gs := by
    intro gs f hf
    simp only [Fields.apply, Fields.insert]
    rw [h f hf]
    rfl
  rw [List.foldl_map, List.foldl_ext _ _ _ hstep]
  exact hgrouped.foldl_insertElement

/-- **A copy agrees with the same fields**: however the fields were built, those that are copied
from them have the same list, although they are inserted by name, and nothing is too long or is
trimmed again. -/
theorem agrees_of_copy {c : BasicFields} {ops : List FieldsOp} (h : (machine rank).Run {} ops b)
    (hcopy : (machine rank).Run {} b.copyOps c) : Agrees rank c (ops.foldl Fields.apply []) := by
  have hrep := represents_of_run h .empty
  have hstored : Stored (ops.foldl Fields.apply []) :=
    h.invariant (P := fun ops _ => Stored (ops.foldl Fields.apply [])) nofun
      fun ops _ op _ _ ih _ => by
        rw [List.foldl_append]
        exact ih.apply op
  have hops : b.copyOps = (ops.foldl Fields.apply []).map fun f => .insert f.name f.value := by
    rw [← hrep.fields, List.map_map]
    rfl
  have hagrees := (represents_of_run hcopy .empty).agrees
  rw [hops, foldl_insert hrep.grouped hstored] at hagrees
  exact hagrees

end

/-- The copy of the three fields, whose elements are at other addresses. -/
def copiedFields : BasicFields where
  set := [⟨⟨"Via".toList, "a".toList⟩, 7⟩, ⟨⟨"via".toList, "c".toList⟩, 5⟩,
    ⟨⟨"HOST".toList, "d".toList⟩, 6⟩]
  list := [⟨⟨"Via".toList, "a".toList⟩, 7⟩, ⟨⟨"via".toList, "c".toList⟩, 5⟩,
    ⟨⟨"HOST".toList, "d".toList⟩, 6⟩]

theorem run_copyOps : (machine codeRank).Run {} threeFields.copyOps copiedFields := by
  have h₁ : (machine codeRank).Run {} ([] ++ [.insert "Via".toList "a".toList]) _ :=
    .snoc .nil ⟨7, List.not_mem_nil, rfl⟩
  have h₂ := h₁.snoc (e := .insert "via".toList "c".toList) ⟨5, by decide, rfl⟩
  exact h₂.snoc (e := .insert "HOST".toList "d".toList) ⟨6, by decide, rfl⟩

/-- Two fields of a name are found together in the copy. -/
theorem agrees_of_copy_threeOps : Agrees codeRank copiedFields (threeOps.foldl Fields.apply []) :=
  agrees_of_copy run_threeOps run_copyOps

end BasicFields

end Gomibako.Beast
