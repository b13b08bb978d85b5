import Mathlib.Data.List.DropRight
import Mathlib.Data.List.Triplewise

/-!
# Lists in groups

A list whose elements have keys is in groups if those of a key stand together. Such a list is a
multimap that keeps its order: an element that is inserted goes behind the last one of its key
(`insertLast`), and what lies between the first and the last element of a key are the elements of
the key (`Grouped.range_eq`). A list in groups is what inserting its elements one by one leads to
(`Grouped.foldl_insertLast`).
-/

namespace Gomibako

variable {α κ : Type*} {key : α → κ}

/-- The elements of a key stand together: between two elements of one key there is no element of
another one. -/
def Grouped (key : α → κ) (l : List α) : Prop :=
  l.Triplewise fun x y z => key x = key z → key y = key x

/-- The empty list is in groups, which is where a run of insertions starts. -/
theorem Grouped.nil : Grouped key ([] : List α) := List.Triplewise.nil

/-- The parts of a list in groups are in groups. -/
theorem Grouped.of_append {l r : List α} (h : Grouped key (l ++ r)) :
    Grouped key l ∧ Grouped key r := by
  obtain ⟨hl, hr, -⟩ := List.triplewise_append.1 h
  exact ⟨hl, hr⟩

/-- Leaving out elements keeps the groups, since what was between two elements of a key can only
become less. -/
theorem Grouped.sublist {l r : List α} (hr : Grouped key r) (h : l.Sublist r) : Grouped key l := by
  induction h with
  | slnil => exact hr
  | cons a _ ih =>
    obtain ⟨-, hr⟩ := List.triplewise_cons.1 hr
    exact ih hr
  | cons_cons a hsub ih =>
    obtain ⟨ha, hr⟩ := List.triplewise_cons.1 hr
    exact .cons (ha.sublist hsub) (ih hr)

/-- An element of a new key makes a group at the end. -/
theorem Grouped.append_singleton {l : List α} (h : Grouped key l) {e : α}
    (hnew : ∀ x ∈ l, key x ≠ key e) : Grouped key (l ++ [e]) := by
  refine List.triplewise_append.2 ⟨h, .cons .nil .nil, fun x _ => List.pairwise_singleton _ _,
    fun z hz => ?_⟩
  cases List.mem_singleton.1 hz
  exact List.pairwise_of_forall_mem_list fun x hx y _ hk => absurd hk (hnew x hx)

section
variable [DecidableEq κ]

/-- The elements of a key, in the order in which the list has them. -/
def ofKey (key : α → κ) (k : κ) (l : List α) : List α := l.filter fun x => key x = k

/-- Insertion behind the last element of the key, or at the end. -/
def insertLast (key : α → κ) (e : α) : List α → List α
  | [] => [e]
  | x :: l =>
    if key x = key e ∧ ∀ y ∈ l, key y ≠ key e then x :: e :: l else x :: insertLast key e l

/-- What lies between the first and the last element of a key. -/
def range (key : α → κ) (k : κ) (l : List α) : List α :=
  (l.dropWhile fun x => key x ≠ k).rdropWhile fun x => key x ≠ k

/-- There are no elements of the key exactly if every element has another one. -/
theorem ofKey_eq_nil_iff {k : κ} {l : List α} : ofKey key k l = [] ↔ ∀ x ∈ l, key x ≠ k := by
  rw [ofKey, List.filter_eq_nil_iff]
  simp only [decide_eq_true_eq, ne_eq]

/-- Where an element is inserted: no element of its key is behind it, and the one in front of it, if
there is one of the key, is the last of them. -/
theorem insertLast_split (key : α → κ) (e : α) (l : List α) :
    ∃ before after, l = before ++ after ∧ insertLast key e l = before ++ e :: after ∧
      (∀ x ∈ after, key x ≠ key e) ∧
      (after = [] ∧ (∀ x ∈ before, key x ≠ key e) ∨
        ∃ init last, before = init ++ [last] ∧ key last = key e) := by
  induction l with
  | nil => exact ⟨[], [], rfl, rfl, nofun, .inl ⟨rfl, nofun⟩⟩
  | cons x l ih =>
    rw [insertLast]
    split
    · next h => exact ⟨[x], l, rfl, rfl, h.2, .inr ⟨[], x, rfl, h.1⟩⟩
    · next h =>
      obtain ⟨before, after, rfl, hinsert, hafter, hend⟩ := ih
      refine ⟨x :: before, after, rfl, by rw [hinsert]; rfl, hafter, ?_⟩
      rcases hend with ⟨rfl, hbefore⟩ | ⟨init, last, rfl, hlast⟩
      · refine .inl ⟨rfl, fun y hy => ?_⟩
        rcases List.mem_cons.1 hy with rfl | hy
        · intro hkey
          refine h ⟨hkey, ?_⟩
          rw [List.append_nil]
          exact hbefore
        · exact hbefore y hy
      · exact .inr ⟨x :: init, last, rfl, hlast⟩

/-- An element of a new key goes to the end. -/
theorem insertLast_of_forall_ne {e : α} {l : List α} (h : ∀ x ∈ l, key x ≠ key e) :
    insertLast key e l = l ++ [e] := by
  obtain ⟨before, after, rfl, hinsert, -, hend⟩ := insertLast_split key e l
  rcases hend with ⟨rfl, -⟩ | ⟨init, last, rfl, hlast⟩
  · rw [hinsert, List.append_nil]
  · refine absurd hlast (h last ?_)
    simp

/-- Behind the last element of its key an element is inserted. -/
theorem insertLast_append {e x : α} {l r : List α} (hx : key x = key e)
    (hr : ∀ y ∈ r, key y ≠ key e) : insertLast key e (l ++ x :: r) = l ++ x :: e :: r := by
  induction l with
  | nil =>
    rw [List.nil_append, insertLast, if_pos ⟨hx, hr⟩]
    rfl
  | cons y l ih =>
    have hnot : ¬ (key y = key e ∧ ∀ z ∈ l ++ x :: r, key z ≠ key e) :=
      fun h => h.2 x (List.mem_append_right _ List.mem_cons_self) hx
    rw [List.cons_append, insertLast, if_neg hnot, ih]
    rfl

/-- Elements with other keys are inserted alike if the keys are equal alike. -/
theorem insertLast_map {β κ' : Type*} [DecidableEq κ'] {key' : β → κ'} {f : α → β}
    (hf : ∀ x y, key x = key y ↔ key' (f x) = key' (f y)) (e : α) (l : List α) :
    (insertLast key e l).map f = insertLast key' (f e) (l.map f) := by
  induction l with
  | nil => rfl
  | cons x l ih =>
    have hiff : (key x = key e ∧ ∀ y ∈ l, key y ≠ key e) ↔
        key' (f x) = key' (f e) ∧ ∀ y ∈ l.map f, key' y ≠ key' (f e) := by
      simp only [List.forall_mem_map, hf, ne_eq]
    rw [insertLast, List.map_cons, insertLast]
    by_cases h : key x = key e ∧ ∀ y ∈ l, key y ≠ key e
    · rw [if_pos h, if_pos (hiff.1 h)]
      rfl
    · rw [if_neg h, if_neg (mt hiff.2 h), List.map_cons, ih]

/-- Insertion puts the element behind those of its own key and does not change the elements of
another one. -/
theorem ofKey_insertLast (e : α) (l : List α) (k : κ) :
    ofKey key k (insertLast key e l) =
      if key e = k then ofKey key k l ++ [e] else ofKey key k l := by
  obtain ⟨before, after, rfl, hinsert, hafter, -⟩ := insertLast_split key e l
  rw [hinsert]
  unfold ofKey
  rw [List.filter_append, List.filter_append, List.filter_cons]
  split
  · next hk =>
    have hnone : after.filter (fun x => key x = k) = [] := by
      refine ofKey_eq_nil_iff.2 fun x hx => ?_
      rw [← of_decide_eq_true hk]
      exact hafter x hx
    rw [hnone, if_pos (of_decide_eq_true hk), List.append_nil]
  · next hk => rw [if_neg fun h => hk (decide_eq_true h)]

/-- Insertion adds the element and loses none: up to their order, the elements are those before and
the new one. -/
theorem insertLast_perm (e : α) (l : List α) : (insertLast key e l).Perm (e :: l) := by
  obtain ⟨before, after, rfl, hinsert, -⟩ := insertLast_split key e l
  rw [hinsert]
  exact List.perm_middle

/-- Insertion behind the last element of the key keeps the groups of all keys. -/
theorem Grouped.insertLast {l : List α} (h : Grouped key l) (e : α) :
    Grouped key (insertLast key e l) := by
  obtain ⟨before, after, rfl, hinsert, hafter, hend⟩ := insertLast_split key e l
  rw [hinsert]
  obtain ⟨hbefore, hafter', hright, hleft⟩ := List.triplewise_append.1 h
  -- two elements before, the first of them of the key: the last one before is of the key too
  have hpair : before.Pairwise fun x y => key x = key e → key y = key x := by
    rcases hend with ⟨-, hnone⟩ | ⟨init, last, rfl, hlast⟩
    · exact List.pairwise_of_forall_mem_list fun x hx y _ hk => absurd hk (hnone x hx)
    · obtain ⟨-, -, -, hinit⟩ := List.triplewise_append.1 hbefore
      refine List.pairwise_append.2 ⟨?_, List.pairwise_singleton _ _, fun x _ y hy hk => ?_⟩
      · refine (hinit last List.mem_cons_self).imp fun {x y} hxy hk => hxy (hk.trans hlast.symm)
      · cases List.mem_singleton.1 hy
        rw [hlast, hk]
  -- an element before and one after: they are of one key only if there is none of the key before
  have hcross : ∀ x ∈ before, ∀ z ∈ after, key x = key z → key e = key x := by
    intro x hx z hz hk
    rcases hend with ⟨rfl, -⟩ | ⟨init, last, rfl, hlast⟩
    · cases hz
    · rcases List.mem_append.1 hx with hx | hx
      · have hpairs := hleft z hz
        have hmid := (List.pairwise_append.1 hpairs).2.2 x hx last List.mem_cons_self hk
        rw [← hlast, hmid]
      · cases List.mem_singleton.1 hx
        exact absurd (hk.symm.trans hlast) (hafter z hz)
  refine List.triplewise_append.2 ⟨hbefore, .cons ?_ hafter', fun x hx => ?_, fun z hz => ?_⟩
  · exact List.pairwise_of_forall_mem_list fun y _ z hz hk => absurd hk.symm (hafter z hz)
  · exact List.pairwise_cons.2 ⟨fun z hz hk => hcross x hx z hz hk, hright x hx⟩
  · rcases List.mem_cons.1 hz with rfl | hz
    · exact hpair
    · exact hleft z hz

/-- The last element of a list in groups is where it would be inserted. -/
theorem Grouped.insertLast_eq {l : List α} {e : α} (h : Grouped key (l ++ [e])) :
    Gomibako.insertLast key e l = l ++ [e] := by
  obtain ⟨before, after, rfl, hinsert, hafter, hend⟩ := insertLast_split key e l
  rcases hend with ⟨rfl, -⟩ | ⟨init, last, rfl, hlast⟩
  · rw [hinsert, List.append_nil]
  · cases after with
    | nil => rw [hinsert, List.append_nil]
    | cons x after =>
      -- what is behind the last element of the key would be between it and the new one
      obtain ⟨-, -, -, hleft⟩ := List.triplewise_append.1 h
      have hpairs := hleft e List.mem_cons_self
      have hmid := (List.pairwise_append.1 hpairs).2.2 last
        (List.mem_append_right _ List.mem_cons_self) x List.mem_cons_self hlast
      exact absurd (hmid.trans hlast) (hafter x List.mem_cons_self)

/-- **A list in groups is built by insertion**: its elements, inserted one after another into the
empty list, give the list again. -/
theorem Grouped.foldl_insertLast {l : List α} (h : Grouped key l) :
    l.foldl (fun l e => Gomibako.insertLast key e l) [] = l := by
  induction l using List.reverseRecOn with
  | nil => rfl
  | append_singleton l e ih =>
    rw [List.foldl_append, ih h.of_append.1]
    exact h.insertLast_eq

/-- What lies between the first and the last element of a key that the list starts with. -/
theorem Grouped.rdropWhile_eq {x : α} {l : List α} (h : Grouped key (x :: l)) :
    (x :: l).rdropWhile (fun y => key y ≠ key x) = ofKey key (key x) (x :: l) := by
  induction l using List.reverseRecOn with
  | nil => simp [ofKey, List.rdropWhile_singleton]
  | append_singleton l z ih =>
    rw [← List.cons_append]
    unfold ofKey at ih ⊢
    by_cases hz : key z = key x
    · -- up to the last element of the key there are only elements of it
      have hall : ∀ y ∈ x :: l, key y = key x := by
        intro y hy
        rcases List.mem_cons.1 hy with rfl | hy
        · rfl
        · have hpairs := (List.triplewise_cons.1 h).1
          exact (List.pairwise_append.1 hpairs).2.2 y hy z List.mem_cons_self hz.symm
      have hself : (x :: l ++ [z]).filter (fun y => key y = key x) = x :: l ++ [z] := by
        refine List.filter_eq_self.2 fun y hy => decide_eq_true ?_
        rcases List.mem_append.1 hy with hy | hy
        · exact hall y hy
        · rw [List.mem_singleton.1 hy, hz]
      rw [hself, List.rdropWhile_concat_neg]
      simpa using hz
    · have hskip : [z].filter (fun y => key y = key x) = [] := by simp [hz]
      rw [List.rdropWhile_concat_pos, List.filter_append, hskip, List.append_nil]
      · exact ih (h.sublist (List.cons_sublist_cons.2 (List.sublist_append_left l [z])))
      · simpa using hz

/-- **The range of a key** in a list in groups are its elements. -/
theorem Grouped.range_eq {l : List α} (h : Grouped key l) (k : κ) :
    range key k l = ofKey key k l := by
  induction l with
  | nil => rfl
  | cons x l ih =>
    unfold range
    by_cases hx : key x = k
    · subst hx
      rw [← h.rdropWhile_eq]
      simp
    · have hdrop : (x :: l).dropWhile (fun y => key y ≠ k) = l.dropWhile fun y => key y ≠ k := by
        simp [hx]
      have hfilter : ofKey key k (x :: l) = ofKey key k l := by simp [ofKey, hx]
      rw [hdrop, hfilter]
      exact ih (List.triplewise_cons.1 h).2

/-- The elements of a key are one stretch of a list in groups, with no element of the key before or
behind it. -/
theorem Grouped.exists_append {l : List α} (h : Grouped key l) (k : κ) :
    ∃ before after, l = before ++ (ofKey key k l ++ after) ∧ (∀ x ∈ before, key x ≠ k) ∧
      ∀ x ∈ after, key x ≠ k := by
  refine ⟨l.takeWhile fun x => key x ≠ k,
    (l.dropWhile fun x => key x ≠ k).rtakeWhile fun x => key x ≠ k, ?_,
    fun x hx => by simpa using List.mem_takeWhile_imp hx,
    fun x hx => by simpa using List.mem_rtakeWhile_imp hx⟩
  rw [← h.range_eq k, range, List.rdropWhile_append_rtakeWhile, List.takeWhile_append_dropWhile]

end

end Gomibako
