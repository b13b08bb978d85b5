import Gomibako.Beast.Fields
import Gomibako.Lib.Machine
import Mathlib.Data.List.Lex
import Mathlib.Data.Prod.Lex
import Mathlib.Logic.Embedding.Basic

/-!
# The containers of the fields

`basic_fields` links each of its elements into a list, which is what is iterated over, and into a
set that is sorted by name, which is what is searched. The elements are at the addresses they are
allocated at, by which the list finds what the set has found.
-/

namespace Gomibako.Beast

/-! ## The order of the names -/

/-- The keys of names: the length comes first, and behind it the characters decide one after the
other. -/
def NameKey := ℕ ×ₗ List ℤ

instance : LinearOrder NameKey := inferInstanceAs (LinearOrder (ℕ ×ₗ List ℤ))

section
variable (rank : Char ↪ ℤ)

/-- `iless`, a `lexicographical_compare`; the number of a `char` is up to the implementation.
Reference: `iless` (`string.hpp:118`). -/
def iless : Str → Str → Bool
  | _, [] => false
  | [], _ :: _ => true
  | c :: lhs, d :: rhs =>
    if rank (asciiToLower c) < rank (asciiToLower d) then true
    else if rank (asciiToLower d) < rank (asciiToLower c) then false
    else iless lhs rhs

/-- `key_compare`: a shorter name comes first, and names of one length are compared by `iless`.
Reference: `basic_fields::key_compare` (`fields.hpp:112`). -/
def keyLess (lhs rhs : Str) : Bool :=
  if lhs.length < rhs.length then true
  else if lhs.length > rhs.length then false
  else iless rank lhs rhs

/-- What names are sorted by: their lengths, then their characters up to case. -/
def sortKey (name : Str) : NameKey := toLex (name.length, name.map fun c => rank (asciiToLower c))

/-- `iless` is the lexicographic order of the lists of lowered characters, by the numbers that
`rank` gives them. -/
theorem iless_iff {lhs rhs : Str} : iless rank lhs rhs = true ↔
    lhs.map (fun c => rank (asciiToLower c)) < rhs.map fun c => rank (asciiToLower c) := by
  induction lhs generalizing rhs with
  | nil =>
    cases rhs with
    | nil => simp [iless]
    | cons d rhs => simp [iless]
  | cons c lhs ih =>
    cases rhs with
    | nil => simp [iless]
    | cons d rhs =>
      rw [iless, List.map_cons, List.map_cons, List.cons_lt_cons_iff]
      rcases lt_trichotomy (rank (asciiToLower c)) (rank (asciiToLower d)) with hlt | heq | hgt
      · simp [hlt]
      · simp [heq, ih]
      · simp [hgt, hgt.not_gt, hgt.ne']

/-- `key_compare` is the order of the sort keys, so the sorted set is sorted by them. -/
theorem keyLess_iff {lhs rhs : Str} :
    keyLess rank lhs rhs = true ↔ sortKey rank lhs < sortKey rank rhs := by
  have hlex : sortKey rank lhs < sortKey rank rhs ↔ lhs.length < rhs.length ∨
      lhs.length = rhs.length ∧ lhs.map (fun c => rank (asciiToLower c)) <
        rhs.map fun c => rank (asciiToLower c) := Prod.Lex.toLex_lt_toLex
  rw [hlex]
  unfold keyLess
  split
  · next h => simp [h]
  · next h =>
    split
    · next h' =>
      have hne : lhs.length ≠ rhs.length := by omega
      simp [h, hne]
    · next h' =>
      have heq : lhs.length = rhs.length := by omega
      simp [heq, iless_iff]

/-- Names that are equal up to case have one key. -/
theorem sortKey_eq_iff {s t : Str} : sortKey rank s = sortKey rank t ↔ iequals s t = true := by
  have hmap : ∀ u : Str, u.map (fun c => rank (asciiToLower c)) = (u.map asciiToLower).map rank :=
    fun u => by rw [List.map_map]; rfl
  have hlex : sortKey rank s = sortKey rank t ↔ s.length = t.length ∧
      s.map (fun c => rank (asciiToLower c)) = t.map fun c => rank (asciiToLower c) :=
    toLex_inj.trans Prod.mk_inj
  rw [hlex, iequals_iff, hmap, hmap, (List.map_injective_iff.2 rank.injective).eq_iff]
  refine ⟨And.right, fun h => ⟨?_, h⟩⟩
  have hlen := congrArg List.length h
  rwa [List.length_map, List.length_map] at hlen

end

/-! ## The containers -/

/-- An element is a field at the address it is allocated at, which is what the hooks of both
containers refer to. -/
structure Element extends Field where
  address : Nat
deriving DecidableEq, Repr

/-- `basic_fields`: the elements in the order of `set_` and in that of `list_`. Reference:
`basic_fields` (`fields.hpp:53`). -/
structure BasicFields where
  set : List Element := []
  list : List Element := []
deriving DecidableEq, Repr

namespace BasicFields

/-- `iterator_to` of the list: the position of the element with the address. -/
def iteratorTo (list : List Element) (e : Element) : Nat :=
  list.findIdx fun f => f.address == e.address

/-- `erase` of the list at the iterator to an element. -/
def unlink (list : List Element) (e : Element) : List Element :=
  list.eraseP fun f => f.address == e.address

section
variable (rank : Char ↪ ℤ) (b : BasicFields)

/-- `lower_bound` of the set: where the elements with the name start, or would be. -/
def lowerBound (name : Str) : Nat := b.set.findIdx fun e => !keyLess rank e.name name

/-- `upper_bound` of the set: where the elements with the name end. -/
def upperBound (name : Str) : Nat := b.set.findIdx fun e => keyLess rank name e.name

theorem pred_upperBound_lt {name : Str} (h : b.upperBound rank name ≠ 0) :
    b.upperBound rank name - 1 < b.set.length := by
  have : b.upperBound rank name ≤ b.set.length := List.findIdx_le_length
  omega

/-- `insert` of a new element: it goes behind the elements of its name in the set, and in the list
behind the last of these, or to the end. Reference: `basic_fields::insert` (`fields.ipp:549`). -/
def insertElement (e : Element) : BasicFields :=
  let before := b.upperBound rank e.name
  if h : before = 0 then { set := b.set.insertIdx before e, list := b.list ++ [e] }
  else
    let last := b.set.get ⟨before - 1, b.pred_upperBound_lt rank h⟩
    if !iequals e.name last.name then
      { set := b.set.insertIdx before e, list := b.list ++ [e] }
    else
      -- duplicates are kept together in the list
      { set := b.set.insertIdx before e
        list := b.list.insertIdx (iteratorTo b.list last + 1) e }

/-- `insert`, of an element that is allocated at an address. -/
def insert (address : Nat) (sname value : Str) : Except StdException BasicFields :=
  (newElement sname value).map fun f => b.insertElement rank { f with address }

/-- The loop of `set_element`: elements of the name are erased from the rest of the set and from the
list. Reference: `basic_fields::set_element` (`fields.ipp:1166`). -/
def eraseEqual (name : Str) : List Element → List Element → List Element × List Element
  | [], list => ([], list)
  | e :: rest, list =>
    if !iequals name e.name then (e :: rest, list) else eraseEqual name rest (unlink list e)

/-- `set_element`: the elements of the name are erased and the new one is put to their place in the
set and to the end of the list; the first check of the source is that of the loop. Reference:
`basic_fields::set_element` (`fields.ipp:1166`). -/
def setElement (e : Element) : BasicFields :=
  let it := b.lowerBound rank e.name
  let (rest, list) := eraseEqual e.name (b.set.drop it) b.list
  { set := b.set.take it ++ e :: rest, list := list ++ [e] }

/-- `set`, of an element that is allocated at an address. -/
def setField (address : Nat) (sname value : Str) : Except StdException BasicFields :=
  (newElement sname value).map fun f => b.setElement rank { f with address }

/-- `erase` of a name, with the number of the elements: those between its bounds leave the set, and
each of them the list. -/
def erase (name : Str) : BasicFields × Nat :=
  let first := b.lowerBound rank name
  let last := b.upperBound rank name
  let erased := (b.set.take last).drop first
  ({ set := b.set.take first ++ b.set.drop last, list := erased.foldl unlink b.list },
    erased.length)

/-- `count`: how many elements of the set have a name that is neither smaller nor greater.
Reference: `basic_fields::count` (`fields.ipp:678`). -/
def count (name : Str) : Nat :=
  b.set.countP fun e => !keyLess rank name e.name && !keyLess rank e.name name

/-- `find`: the position in the list of the first element of the name in the set, or the end.
Reference: `basic_fields::find` (`fields.ipp:687`). -/
def find (name : Str) : Nat :=
  match b.set.find? fun e => !keyLess rank name e.name && !keyLess rank e.name name with
  | none => b.list.length
  | some e => iteratorTo b.list e

/-- `operator[]`: the value of the element that `find` finds, and an empty text if there is none.
Reference: `basic_fields::operator[]` (`fields.ipp:507`). -/
def get (name : Str) : Str := (b.list[b.find rank name]?.map fun e => e.value).getD []

/-- The lower bound of a name is not behind its upper bound. -/
theorem lowerBound_le_upperBound (name : Str) :
    b.lowerBound rank name ≤ b.upperBound rank name := by
  refine List.findIdx_le_findIdx fun e _ h => ?_
  rw [Bool.not_eq_true', ← Bool.not_eq_true, keyLess_iff]
  exact ((keyLess_iff rank).1 h).not_gt

theorem lowerBound_lt {name : Str} (h : b.lowerBound rank name ≠ b.upperBound rank name) :
    b.lowerBound rank name < b.set.length := by
  have hle := b.lowerBound_le_upperBound rank name
  have hlen : b.upperBound rank name ≤ b.set.length := List.findIdx_le_length
  omega

theorem upperBound_ne_zero {name : Str} (h : b.lowerBound rank name ≠ b.upperBound rank name) :
    b.upperBound rank name ≠ 0 := by
  have hle := b.lowerBound_le_upperBound rank name
  omega

/-- `equal_range`: the positions in the list of the first element of the name in the set and behind
that of the last, or twice the end. -/
def equalRange (name : Str) : Nat × Nat :=
  let first := b.lowerBound rank name
  let last := b.upperBound rank name
  if h : first = last then (b.list.length, b.list.length)
  else
    (iteratorTo b.list (b.set.get ⟨first, b.lowerBound_lt rank h⟩),
      iteratorTo b.list
        (b.set.get ⟨last - 1, b.pred_upperBound_lt rank (b.upperBound_ne_zero rank h)⟩) + 1)

end

end BasicFields

/-! ## Runs -/

/-- What is done to the fields: a field is inserted, set or erased by its name. -/
inductive FieldsOp where
  | insert (sname value : Str)
  | set (sname value : Str)
  | erase (name : Str)
  | clear
deriving DecidableEq, Repr

/-- An operation on the plain list; one that throws has done nothing. -/
def Fields.apply (fs : Fields) : FieldsOp → Fields
  | .insert sname value =>
    match fs.insert sname value with
    | .ok fs' => fs'
    | .error _ => fs
  | .set sname value =>
    match fs.set sname value with
    | .ok fs' => fs'
    | .error _ => fs
  | .erase name => fs.erase name
  | .clear => []

namespace BasicFields

/-- An operation, whose element is allocated at the address; one that throws has done nothing. -/
def apply (rank : Char ↪ ℤ) (b : BasicFields) (address : Nat) : FieldsOp → BasicFields
  | .insert sname value =>
    match b.insert rank address sname value with
    | .ok b' => b'
    | .error _ => b
  | .set sname value =>
    match b.setField rank address sname value with
    | .ok b' => b'
    | .error _ => b
  | .erase name => (b.erase rank name).1
  | .clear => {}

/-- The operations one after the other; an element is allocated where there is none. -/
def machine (rank : Char ↪ ℤ) : Machine BasicFields FieldsOp where
  step b op b' := ∃ address, address ∉ b.list.map Element.address ∧ b' = b.apply rank address op

/-- The operations of `copy_all`, which inserts the elements of the list of the other fields. -/
def copyOps (other : BasicFields) : List FieldsOp :=
  other.list.map fun e => .insert e.name e.value

end BasicFields

end Gomibako.Beast
