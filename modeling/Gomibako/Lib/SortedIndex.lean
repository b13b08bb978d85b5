import Gomibako.Lib.Grouped
import Mathlib

/-!
# Sorted indices

A list that is sorted by the keys of its elements has those below a key, those of the key and those
above it, one after the other (`SortedBy.eq_append`), and the bounds of the key lie between them. It
is an index of a list if the two have the same elements of each key in the same order (`IndexOf`).
An element that is inserted at the upper bound of its key into the index goes behind the last one of
the key in the list (`IndexOf.insert`); the elements of a key can be erased from both
(`IndexOf.erase`), and one can replace them (`IndexOf.replace`).
-/

namespace Gomibako

variable {α κ : Type*} [LinearOrder κ] {key : α → κ} {k : κ} {e : α} {l index : List α}

/-- The keys of the list do not descend, so that equal keys are next to one another. -/
def SortedBy (key : α → κ) (l : List α) : Prop := l.Pairwise fun x y => key x ≤ key y

/-- The elements whose keys are smaller than `k`, in the order of the list. -/
def below (key : α → κ) (k : κ) (l : List α) : List α := l.filter fun x => key x < k

/-- The elements whose keys are greater than `k`, in the order of the list. -/
def above (key : α → κ) (k : κ) (l : List α) : List α := l.filter fun x => k < key x

/-- The position of the first element whose key is not smaller. -/
def lowerBound (key : α → κ) (k : κ) (l : List α) : Nat := l.findIdx fun x => k ≤ key x

/-- The position of the first element whose key is greater. -/
def upperBound (key : α → κ) (k : κ) (l : List α) : Nat := l.findIdx fun x => k < key x

/-- Insertion at the position behind a part of a list. -/
theorem insertIdx_append_length (l r : List α) (e : α) :
    (l ++ r).insertIdx l.length e = l ++ e :: r := by
  induction l with
  | nil => exact List.insertIdx_zero
  | cons x l ih => exact congrArg (x :: ·) ih

/-- A position between elements of which none is found and elements of which the first is. -/
theorem findIdx_append_eq {p : α → Bool} {l r : List α} (hl : ∀ x ∈ l, p x = false)
    (hr : ∀ x ∈ r, p x = true) : (l ++ r).findIdx p = l.length := by
  have hidx := List.findIdx_eq_length_of_false hl
  rw [List.findIdx_append, if_neg (by omega)]
  cases r with
  | nil => exact Nat.zero_add _
  | cons x r =>
    rw [List.findIdx_cons, hr x List.mem_cons_self]
    exact Nat.zero_add _

/-- **A sorted list** has the elements below a key, those of the key and those above it. -/
theorem SortedBy.eq_append (h : SortedBy key l) (k : κ) :
    l = below key k l ++ (ofKey key k l ++ above key k l) := by
  induction l with
  | nil => rfl
  | cons x l ih =>
    obtain ⟨hx, hl⟩ := List.pairwise_cons.1 h
    have hsplit := ih hl
    have hbelow : k ≤ key x → below key k l = [] := fun hle =>
      List.filter_eq_nil_iff.2 fun y hy => by simpa using hle.trans (hx y hy)
    rcases lt_trichotomy (key x) k with hlt | heq | hgt
    · have hcons : below key k (x :: l) = x :: below key k l := by simp [below, hlt]
      have hof : ofKey key k (x :: l) = ofKey key k l := by simp [ofKey, hlt.ne]
      have habove : above key k (x :: l) = above key k l := by simp [above, hlt.le]
      rw [hcons, hof, habove, List.cons_append, ← hsplit]
    · have hcons : below key k (x :: l) = [] := by
        rw [← hbelow heq.ge]
        simp [below, heq]
      have hof : ofKey key k (x :: l) = x :: ofKey key k l := by simp [ofKey, heq]
      have habove : above key k (x :: l) = above key k l := by simp [above, heq]
      rw [hbelow heq.ge, List.nil_append] at hsplit
      rw [hcons, hof, habove, List.nil_append, List.cons_append, ← hsplit]
    · have hcons : below key k (x :: l) = [] := by
        rw [← hbelow hgt.le]
        simp [below, hgt.le]
      have hnone : ofKey key k l = [] :=
        ofKey_eq_nil_iff.2 fun y hy => (hgt.trans_le (hx y hy)).ne'
      have hof : ofKey key k (x :: l) = [] := by
        rw [← hnone]
        simp [ofKey, hgt.ne']
      have habove : above key k (x :: l) = x :: above key k l := by simp [above, hgt]
      rw [hbelow hgt.le, hnone, List.nil_append, List.nil_append] at hsplit
      rw [hcons, hof, habove, List.nil_append, List.nil_append, ← hsplit]

/-- The elements below a key are before its lower bound. -/
theorem SortedBy.lowerBound_eq (h : SortedBy key l) (k : κ) :
    lowerBound key k l = (below key k l).length := by
  unfold lowerBound
  nth_rewrite 1 [h.eq_append k]
  refine findIdx_append_eq (fun x hx => ?_) fun x hx => ?_
  · simpa using (List.mem_filter.1 hx).2
  · rcases List.mem_append.1 hx with hx | hx
    · simpa using (of_decide_eq_true (List.mem_filter.1 hx).2 : key x = k).ge
    · simpa using (of_decide_eq_true (List.mem_filter.1 hx).2 : k < key x).le

/-- The elements of a key are between its bounds, which are as far apart as there are elements of
it. -/
theorem SortedBy.upperBound_eq (h : SortedBy key l) (k : κ) :
    upperBound key k l = lowerBound key k l + (ofKey key k l).length := by
  rw [h.lowerBound_eq, ← List.length_append]
  unfold upperBound
  nth_rewrite 1 [h.eq_append k]
  rw [← List.append_assoc]
  refine findIdx_append_eq (fun x hx => ?_) fun x hx => (List.mem_filter.1 hx).2
  rcases List.mem_append.1 hx with hx | hx
  · simpa using (of_decide_eq_true (List.mem_filter.1 hx).2 : key x < k).le
  · simpa using (of_decide_eq_true (List.mem_filter.1 hx).2 : key x = k).le

/-- What is before the lower bound of a key in a sorted list are the elements with smaller keys. -/
theorem SortedBy.take_lowerBound (h : SortedBy key l) (k : κ) :
    l.take (lowerBound key k l) = below key k l := by
  rw [h.lowerBound_eq]
  nth_rewrite 2 [h.eq_append k]
  exact List.take_left

/-- What is behind the lower bound of a key in a sorted list are its elements, and then those with
greater keys. -/
theorem SortedBy.drop_lowerBound (h : SortedBy key l) (k : κ) :
    l.drop (lowerBound key k l) = ofKey key k l ++ above key k l := by
  rw [h.lowerBound_eq]
  nth_rewrite 2 [h.eq_append k]
  exact List.drop_left

/-- What is before the upper bound of a key in a sorted list are the elements with smaller keys, and
then its own. -/
theorem SortedBy.take_upperBound (h : SortedBy key l) (k : κ) :
    l.take (upperBound key k l) = below key k l ++ ofKey key k l := by
  rw [h.upperBound_eq, h.lowerBound_eq, ← List.length_append]
  nth_rewrite 3 [h.eq_append k]
  rw [← List.append_assoc]
  exact List.take_left

/-- What is behind the upper bound of a key in a sorted list are the elements with greater keys. -/
theorem SortedBy.drop_upperBound (h : SortedBy key l) (k : κ) :
    l.drop (upperBound key k l) = above key k l := by
  rw [h.upperBound_eq, h.lowerBound_eq, ← List.length_append]
  nth_rewrite 3 [h.eq_append k]
  rw [← List.append_assoc]
  exact List.drop_left

/-- The element in front of the upper bound is the last one of the key, or there is none of it. -/
theorem SortedBy.pred_upperBound (h : SortedBy key l) (hpos : upperBound key k l ≠ 0) :
    ∃ x, l[upperBound key k l - 1]? = some x ∧
      ((key x = k ∧ ∃ init, ofKey key k l = init ++ [x]) ∨ key x ≠ k ∧ ofKey key k l = []) := by
  have hle : upperBound key k l ≤ l.length := List.findIdx_le_length
  have hlast : l[upperBound key k l - 1]? = (below key k l ++ ofKey key k l).getLast? := by
    rw [← h.take_upperBound, List.getLast?_take, if_neg hpos, List.getElem?_eq_getElem (by omega)]
    rfl
  rw [hlast]
  rcases List.eq_nil_or_concat' (ofKey key k l) with hnone | ⟨init, x, hinit⟩
  · rcases List.eq_nil_or_concat' (below key k l) with hbelow | ⟨init, x, hinit⟩
    · have hzero := h.upperBound_eq k
      rw [h.lowerBound_eq, hbelow, hnone] at hzero
      exact absurd hzero hpos
    · have hmem : x ∈ below key k l := hinit ▸ List.mem_append_right _ List.mem_cons_self
      have hlt : key x < k := of_decide_eq_true (List.mem_filter.1 hmem).2
      refine ⟨x, ?_, .inr ⟨hlt.ne, hnone⟩⟩
      rw [hnone, List.append_nil, hinit, List.getLast?_concat]
  · have hmem : x ∈ ofKey key k l := hinit ▸ List.mem_append_right _ List.mem_cons_self
    refine ⟨x, ?_, .inl ⟨of_decide_eq_true (List.mem_filter.1 hmem).2, init, hinit⟩⟩
    rw [hinit, ← List.append_assoc, List.getLast?_concat]

/-- Elements of a key between those below it and those above it. -/
theorem SortedBy.replace (h : SortedBy key l) {m : List α} (hm : ∀ x ∈ m, key x = k) :
    SortedBy key (below key k l ++ (m ++ above key k l)) := by
  have hbelow : ∀ x ∈ below key k l, key x < k := fun x hx =>
    of_decide_eq_true (List.mem_filter.1 hx).2
  have habove : ∀ x ∈ above key k l, k < key x := fun x hx =>
    of_decide_eq_true (List.mem_filter.1 hx).2
  have hright : SortedBy key (m ++ above key k l) := by
    refine List.pairwise_append.2 ⟨?_, h.sublist List.filter_sublist, fun x hx y hy => ?_⟩
    · exact List.pairwise_of_forall_mem_list fun x hx y hy => ((hm x hx).trans (hm y hy).symm).le
    · rw [hm x hx]
      exact (habove y hy).le
  refine List.pairwise_append.2 ⟨h.sublist List.filter_sublist, hright, fun x hx y hy => ?_⟩
  rcases List.mem_append.1 hy with hy | hy
  · rw [hm y hy]
    exact (hbelow x hx).le
  · exact ((hbelow x hx).trans (habove y hy)).le

/-! ## Indices -/

/-- The index is sorted, and the elements of each key are those of the list, in its order. -/
structure IndexOf (key : α → κ) (index l : List α) : Prop where
  sorted : SortedBy key index
  same : ∀ k, ofKey key k index = ofKey key k l

namespace IndexOf

/-- The empty list is an index of the empty list, which is where a run of insertions starts. -/
theorem nil : IndexOf key ([] : List α) [] := ⟨.nil, fun _ => rfl⟩

/-- Elements of a key are put between those below it and those above it; in the list they are the
elements of the key, and the others are not changed. -/
theorem of_replace (h : IndexOf key index l) {m l' : List α} (hm : ∀ x ∈ m, key x = k)
    (hsame : ofKey key k l' = m) (hother : ∀ k', k' ≠ k → ofKey key k' l' = ofKey key k' l) :
    IndexOf key (below key k index ++ (m ++ above key k index)) l' := by
  refine ⟨h.sorted.replace hm, fun k' => ?_⟩
  have hsplit := congrArg (ofKey key k') (h.sorted.eq_append k)
  have happend : ∀ a b c : List α, ofKey key k' (a ++ (b ++ c)) =
      ofKey key k' a ++ (ofKey key k' b ++ ofKey key k' c) := by
    intro a b c
    unfold ofKey
    rw [List.filter_append, List.filter_append]
  rw [happend] at hsplit ⊢
  by_cases hk : k' = k
  · subst hk
    have hbelow : ofKey key k' (below key k' index) = [] := ofKey_eq_nil_iff.2 fun x hx =>
      (of_decide_eq_true (List.mem_filter.1 hx).2 : key x < k').ne
    have habove : ofKey key k' (above key k' index) = [] := ofKey_eq_nil_iff.2 fun x hx =>
      (of_decide_eq_true (List.mem_filter.1 hx).2 : k' < key x).ne'
    have hself : ofKey key k' m = m := List.filter_eq_self.2 fun x hx => decide_eq_true (hm x hx)
    rw [hbelow, habove, hself, List.nil_append, List.append_nil, hsame]
  · have hnone : ofKey key k' m = [] :=
      ofKey_eq_nil_iff.2 fun x hx => (hm x hx).trans_ne (Ne.symm hk)
    have hof : ofKey key k' (ofKey key k index) = [] := ofKey_eq_nil_iff.2 fun x hx =>
      (of_decide_eq_true (List.mem_filter.1 hx).2 : key x = k).trans_ne (Ne.symm hk)
    rw [hof] at hsplit
    rw [hother k' hk, ← h.same k', hsplit, hnone]

/-- **Insertion**: at the upper bound of the key, and behind the last one of it. -/
theorem insert (h : IndexOf key index l) (e : α) :
    IndexOf key (index.insertIdx (upperBound key (key e) index) e) (insertLast key e l) := by
  have hindex : index.insertIdx (upperBound key (key e) index) e =
      below key (key e) index ++ ((ofKey key (key e) index ++ [e]) ++ above key (key e) index) := by
    rw [h.sorted.upperBound_eq, h.sorted.lowerBound_eq, ← List.length_append]
    nth_rewrite 1 [h.sorted.eq_append (key e)]
    rw [← List.append_assoc, insertIdx_append_length]
    simp
  rw [hindex]
  refine h.of_replace (fun x hx => ?_) ?_ fun k' hk => ?_
  · rcases List.mem_append.1 hx with hx | hx
    · exact of_decide_eq_true (List.mem_filter.1 hx).2
    · rw [List.mem_singleton.1 hx]
  · rw [ofKey_insertLast, if_pos rfl, h.same]
  · rw [ofKey_insertLast, if_neg (Ne.symm hk)]

/-- **Erasure**: the elements between the bounds of a key, and those of the key. -/
theorem erase (h : IndexOf key index l) (k : κ) :
    IndexOf key (index.take (lowerBound key k index) ++ index.drop (upperBound key k index))
      (l.filter fun x => key x ≠ k) := by
  rw [h.sorted.take_lowerBound, h.sorted.drop_upperBound,
    show above key k index = [] ++ above key k index from rfl]
  refine h.of_replace (fun x hx => absurd hx List.not_mem_nil) ?_ fun k' hk => ?_
  · refine ofKey_eq_nil_iff.2 fun x hx => ?_
    exact of_decide_eq_true (List.mem_filter.1 hx).2
  · unfold ofKey
    rw [List.filter_filter]
    refine List.filter_congr fun x _ => ?_
    by_cases hx : key x = k' <;> simp [hx, hk]

/-- **Replacement**: an element is put between the bounds of its key, whose elements are erased, and
at the end of the list. -/
theorem replace (h : IndexOf key index l) (e : α) :
    IndexOf key (index.take (lowerBound key (key e) index) ++
        e :: index.drop (upperBound key (key e) index))
      (l.filter (fun x => key x ≠ key e) ++ [e]) := by
  rw [h.sorted.take_lowerBound, h.sorted.drop_upperBound,
    show e :: above key (key e) index = [e] ++ above key (key e) index from rfl]
  refine h.of_replace (fun x hx => by rw [List.mem_singleton.1 hx]) ?_ fun k' hk => ?_
  · unfold ofKey
    rw [List.filter_append, List.filter_filter]
    simp
  · unfold ofKey
    rw [List.filter_append, List.filter_filter]
    have hnone : [e].filter (fun x => key x = k') = [] := by simp [Ne.symm hk]
    rw [hnone, List.append_nil]
    refine List.filter_congr fun x _ => ?_
    by_cases hx : key x = k' <;> simp [hx, hk]

end IndexOf

end Gomibako
