import Gomibako.Beast.Message
import Gomibako.Lib.Grouped

/-!
# The order of the fields

The list of `basic_fields` keeps the fields of a name together (`Fields.Grouped`), whatever is
inserted, set and erased. A list that does is what inserting its fields in their order leads to
(`Fields.Grouped.foldl_insertElement`).
-/

namespace Gomibako.Beast

/-- Names that are equal up to case have one key. -/
def Field.key (f : Field) : Str := f.name.map asciiToLower

theorem iequals_iff {s t : Str} :
    iequals s t = true ↔ s.map asciiToLower = t.map asciiToLower := by
  rw [iequals, beq_iff_eq]

/-- The fields of a name are those with its key, `iequals` being equality of the lowered texts. -/
theorem Field.is_eq (name : Str) (f : Field) :
    Field.is name f = decide (f.key = name.map asciiToLower) := by
  rw [Field.is, Bool.eq_iff_iff, iequals_iff, decide_eq_true_eq, eq_comm]
  rfl

namespace Fields

/-- The fields of a name stand together, which is how `basic_fields` keeps duplicate fields. -/
def Grouped (fs : Fields) : Prop := Gomibako.Grouped Field.key fs

/-- The fields of a name are those of its key. -/
theorem named_eq (fs : Fields) (name : Str) :
    fs.named name = ofKey Field.key (name.map asciiToLower) fs :=
  List.filter_congr fun f _ => Field.is_eq name f

/-- A field is inserted behind the last one of its key. -/
theorem insertElement_eq (e : Field) (fs : Fields) :
    fs.insertElement e = insertLast Field.key e fs := by
  induction fs with
  | nil => rfl
  | cons f fs ih =>
    have hiff : (Field.is e.name f && !fs.any (Field.is e.name)) = true ↔
        f.key = e.key ∧ ∀ g ∈ fs, g.key ≠ e.key := by
      rw [Bool.and_eq_true, Bool.not_eq_true', List.any_eq_false, Field.is_eq, decide_eq_true_eq]
      refine and_congr Iff.rfl (forall₂_congr fun g _ => ?_)
      rw [Field.is_eq, decide_eq_true_eq]
      rfl
    rw [insertElement, insertLast, ih]
    by_cases h : (Field.is e.name f && !fs.any (Field.is e.name)) = true
    · rw [if_pos h, if_pos (hiff.1 h)]
    · rw [if_neg h, if_neg fun h' => h (hiff.2 h')]

/-- A field that is inserted comes behind those of its name and leaves the others alone. -/
theorem named_insertElement (e : Field) (fs : Fields) (name : Str) :
    (fs.insertElement e).named name =
      if iequals name e.name then fs.named name ++ [e] else fs.named name := by
  rw [named_eq, named_eq, insertElement_eq, ofKey_insertLast]
  have hiff : e.key = name.map asciiToLower ↔ iequals name e.name = true := by
    rw [iequals_iff, eq_comm]
    rfl
  simp only [hiff]

/-- The fields of a name in two lists, one behind the other, are those of the first and then those
of the second. -/
theorem named_append (fs gs : Fields) (name : Str) :
    Fields.named (fs ++ gs) name = fs.named name ++ gs.named name :=
  List.filter_append _ _

/-- A field of another name does not matter, wherever it is. -/
theorem named_append_cons_of_not {e : Field} {name : Str} (h : iequals e.name name = false)
    (fs gs : Fields) : Fields.named (fs ++ e :: gs) name = Fields.named (fs ++ gs) name := by
  rw [named_append, named_append]
  refine congrArg (fs.named name ++ ·) (List.filter_cons_of_neg ?_)
  rw [Field.is, iequals_comm, h]
  exact Bool.false_ne_true

/-- Names that are equal up to case have the same fields. -/
theorem named_congr {name name' : Str} (h : iequals name name' = true) (fs : Fields) :
    fs.named name = fs.named name' :=
  List.filter_congr fun _ _ => iequals_trans h

/-- A field of a new name goes to the end. -/
theorem insertElement_of_none {e : Field} {fs : Fields} (h : fs.named e.name = []) :
    fs.insertElement e = fs ++ [e] := by
  rw [insertElement_eq]
  rw [named_eq] at h
  exact insertLast_of_forall_ne (ofKey_eq_nil_iff.1 h)

/-- A field is inserted at the end, or behind one of its name with no other of it behind. -/
theorem insertElement_split (e : Field) (fs : Fields) :
    ∃ before after : Fields, fs = before ++ after ∧ fs.insertElement e = before ++ e :: after ∧
      after.named e.name = [] := by
  obtain ⟨before, after, hfs, hinsert, hafter, -⟩ := insertLast_split Field.key e fs
  refine ⟨before, after, hfs, (insertElement_eq e fs).trans hinsert, ?_⟩
  rw [named_eq]
  exact ofKey_eq_nil_iff.2 hafter

namespace Grouped

variable {fs : Fields}

/-- `insert` keeps duplicate fields together: the new one goes behind the last one of its name. -/
theorem insertElement (h : fs.Grouped) (e : Field) : (fs.insertElement e).Grouped := by
  rw [insertElement_eq]
  exact h.insertLast e

/-- `erase` keeps duplicate fields together, as it only takes fields out. -/
theorem erase (h : fs.Grouped) (name : Str) : (fs.erase name).Grouped :=
  h.sublist List.filter_sublist

/-- `set_element` keeps duplicate fields together: the new one is the only one of its name. -/
theorem setElement (h : fs.Grouped) (e : Field) : (fs.setElement e).Grouped := by
  refine (h.erase e.name).append_singleton fun f hf hkey => ?_
  have hnot := (List.mem_filter.1 hf).2
  rw [Field.is_eq, Bool.not_eq_true', decide_eq_false_iff_not] at hnot
  exact hnot hkey

/-- Fields that are together are inserted one by one in their order. -/
theorem foldl_insertElement (h : fs.Grouped) :
    fs.foldl (fun fs e => Fields.insertElement e fs) [] = fs := by
  simp only [insertElement_eq]
  exact h.foldl_insertLast

/-- The last of the fields is where it would be inserted. -/
theorem insertElement_eq_append {e : Field} (h : Fields.Grouped (fs ++ [e])) :
    fs.insertElement e = fs ++ [e] := by
  rw [insertElement_eq]
  exact h.insertLast_eq

end Grouped

end Fields

end Gomibako.Beast
