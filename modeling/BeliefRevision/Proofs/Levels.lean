import Mathlib.Data.List.Forall2
import BeliefRevision.Proofs.Classes

/-!
# Classes are the levels of a comparison

A comparison that is a total preorder divides a list of assignments into levels: assignments that
tie with each other stand together, in the order of the list, and closer levels come first
(`Comparison.Levels`). There is only one such division (`Levels.unique`), so whatever produces the
levels of a list produces the same classes. If a list has the same members as another one, then so
have their levels (`Levels.forall₂_of_mem_iff`).

* `Comparison.levels_classes`: the classes cut from the sorted list, where each assignment is
  compared with the first one of its class only.
* `Buckets.levels_classes`: the classes filed under distances.
* **`Comparator.classes_partition`**: the classes that a comparator makes by comparing.
-/

namespace BeliefRevision

namespace Comparison

/-- The classes are the levels of the list: each consists of all that ties with any one of its
members, in the order of the list, and its members are closer than those of later classes. -/
structure Levels (cmp : Comparison) (as : List Assignment) (classes : List (List Assignment)) :
    Prop where
  nonempty : ∀ cls ∈ classes, cls ≠ []
  covers : ∀ a ∈ as, ∃ cls ∈ classes, a ∈ cls
  eq_filter : ∀ cls ∈ classes, ∀ a ∈ cls, cls = as.filter fun b => cmp a b = .eq
  closer : classes.Pairwise fun near far => ∀ a ∈ near, ∀ b ∈ far, cmp a b = .lt

variable {cmp : Comparison} {as bs sorted ties cls : List Assignment}
  {classes classes' : List (List Assignment)} {a b c head : Assignment}

theorem Levels.mem (h : cmp.Levels as classes) (hcls : cls ∈ classes) (ha : a ∈ cls) : a ∈ as := by
  rw [h.eq_filter cls hcls a ha] at ha
  exact (List.mem_filter.mp ha).1

/-- Two members of a level tie. -/
theorem Levels.tied (h : cmp.Levels as classes) (hcls : cls ∈ classes) (ha : a ∈ cls)
    (hb : b ∈ cls) : cmp a b = .eq := by
  rw [h.eq_filter cls hcls a ha] at hb
  exact of_decide_eq_true (List.mem_filter.mp hb).2

/-- A level is in the order of the list. -/
theorem Levels.sublist (h : cmp.Levels as classes) (hcls : cls ∈ classes) : cls.Sublist as := by
  obtain ⟨a, ha⟩ := List.exists_mem_of_ne_nil cls (h.nonempty cls hcls)
  rw [h.eq_filter cls hcls a ha]
  exact List.filter_sublist

theorem levels_nil : cmp.Levels [] [] :=
  ⟨List.forall_mem_nil _, List.forall_mem_nil _, List.forall_mem_nil _, List.Pairwise.nil⟩

/-- Lists with the same members and the same ties have the same levels. -/
theorem Levels.congr (h : cmp.Levels as classes) (perm : as.Perm bs)
    (stable : ∀ a, (as.filter fun b => cmp a b = .eq) = bs.filter fun b => cmp a b = .eq) :
    cmp.Levels bs classes where
  nonempty := h.nonempty
  covers a ha := h.covers a (perm.mem_iff.mpr ha)
  eq_filter cls hcls a ha := (h.eq_filter cls hcls a ha).trans (stable a)
  closer := h.closer

/-! ## Levels of lists with the same members -/

theorem Levels.mem_filter_iff (h : cmp.Levels as classes) (same : ∀ a, a ∈ as ↔ a ∈ bs)
    (hcls : cls ∈ classes) : a ∈ (bs.filter fun b => b ∈ cls) ↔ a ∈ cls := by
  rw [List.mem_filter, decide_eq_true_iff]
  exact and_iff_right_of_imp fun ha => (same a).mp (h.mem hcls ha)

/-- The levels of a list are also those of another one with the same members, once their members are
listed as they are there. -/
theorem Levels.map_filter (h : cmp.Levels as classes) (same : ∀ a, a ∈ as ↔ a ∈ bs) :
    cmp.Levels bs (classes.map fun cls => bs.filter fun b => b ∈ cls) := by
  constructor
  · refine List.forall_mem_map.mpr fun cls hcls => ?_
    obtain ⟨a, ha⟩ := List.exists_mem_of_ne_nil cls (h.nonempty cls hcls)
    exact List.ne_nil_of_mem ((h.mem_filter_iff same hcls).mpr ha)
  · intro a ha
    obtain ⟨cls, hcls, ha⟩ := h.covers a ((same a).mpr ha)
    exact ⟨_, List.mem_map_of_mem hcls, (h.mem_filter_iff same hcls).mpr ha⟩
  · refine List.forall_mem_map.mpr fun cls hcls a ha => List.filter_congr fun b hb => ?_
    rw [h.eq_filter cls hcls a ((h.mem_filter_iff same hcls).mp ha), decide_eq_decide,
      List.mem_filter, and_iff_right ((same b).mpr hb), decide_eq_true_iff]
  · refine List.pairwise_map.mpr (h.closer.imp_of_mem fun hnear hfar lt a ha b hb => ?_)
    exact lt a ((h.mem_filter_iff same hnear).mp ha) b ((h.mem_filter_iff same hfar).mp hb)

/-! ## Levels are unique -/

theorem Levels.subset (h : cmp.Levels as classes) (h' : cmp.Levels as classes') :
    classes ⊆ classes' := by
  intro cls hcls
  obtain ⟨a, ha⟩ := List.exists_mem_of_ne_nil cls (h.nonempty cls hcls)
  obtain ⟨cls', hcls', ha'⟩ := h'.covers a (h.mem hcls ha)
  rw [h.eq_filter cls hcls a ha, ← h'.eq_filter cls' hcls' a ha']
  exact hcls'

variable [Std.TransCmp cmp]

theorem Levels.nodup (h : cmp.Levels as classes) : classes.Nodup := by
  refine h.closer.imp_of_mem fun {near far} hnear _ lt same => ?_
  obtain ⟨a, ha⟩ := List.exists_mem_of_ne_nil near (h.nonempty near hnear)
  have self : cmp a a = .eq := Std.ReflCmp.compare_self
  rw [lt a ha a (same ▸ ha)] at self
  cases self

/-- **A list has its levels in one way only.** -/
theorem Levels.unique (h : cmp.Levels as classes) (h' : cmp.Levels as classes') :
    classes = classes' := by
  have perm : classes.Perm classes' :=
    (List.perm_ext_iff_of_nodup h.nodup h'.nodup).mpr fun _ =>
      ⟨fun hcls => h.subset h' hcls, fun hcls => h'.subset h hcls⟩
  refine perm.eq_of_pairwise (fun near far hnear hfar lt gt => ?_) h.closer h'.closer
  obtain ⟨a, ha⟩ := List.exists_mem_of_ne_nil near (h.nonempty near hnear)
  obtain ⟨b, hb⟩ := List.exists_mem_of_ne_nil far (h'.nonempty far hfar)
  exact absurd (gt b hb a ha) (Std.OrientedCmp.not_lt_of_lt (lt a ha b hb))

/-- **The order of a list does not matter for its levels**, nor how often it lists its members. -/
theorem Levels.forall₂_of_mem_iff (h : cmp.Levels as classes) (h' : cmp.Levels bs classes')
    (same : ∀ a, a ∈ as ↔ a ∈ bs) :
    List.Forall₂ (fun cls cls' => ∀ a, a ∈ cls ↔ a ∈ cls') classes classes' := by
  rw [h'.unique (h.map_filter same), List.forall₂_map_right_iff, List.forall₂_same]
  exact fun cls hcls a => (h.mem_filter_iff same hcls).symm

/-! ## Sorting -/

theorem pairwise_insertFarthest (h : sorted.Pairwise fun far near => (cmp near far).isLE = true) :
    (cmp.insertFarthest a sorted).Pairwise fun far near => (cmp near far).isLE = true := by
  induction sorted with
  | nil => exact List.pairwise_singleton _ a
  | cons b bs ih =>
    obtain ⟨hb, hbs⟩ := List.pairwise_cons.mp h
    unfold insertFarthest
    split
    · next lt =>
      refine List.pairwise_cons.mpr ⟨fun x hx => ?_, ih hbs⟩
      rcases List.mem_cons.mp ((insertFarthest_perm a bs).mem_iff.mp hx) with rfl | hx
      · rw [lt]
        rfl
      · exact hb x hx
    · next not_lt =>
      have le : (cmp b a).isLE = true := ne_lt_iff.mp not_lt
      refine List.pairwise_cons.mpr ⟨fun x hx => ?_, h⟩
      rcases List.mem_cons.mp hx with rfl | hx
      · exact le
      · exact Std.TransCmp.isLE_trans (hb x hx) le

theorem pairwise_sortFarthest (as : List Assignment) :
    (cmp.sortFarthest as).Pairwise fun far near => (cmp near far).isLE = true := by
  have main : ∀ as sorted : List Assignment,
      (sorted.Pairwise fun far near => (cmp near far).isLE = true) →
        (as.foldl (fun sorted a => cmp.insertFarthest a sorted) sorted).Pairwise
          fun far near => (cmp near far).isLE = true := by
    intro as
    induction as with
    | nil => exact fun sorted h => h
    | cons a as ih => exact fun sorted h => ih _ (pairwise_insertFarthest h)
  exact main as [] List.Pairwise.nil

/-- What ties with an assignment stays behind what is inserted later. -/
theorem filter_insertFarthest (a c : Assignment) (sorted : List Assignment) :
    ((cmp.insertFarthest a sorted).filter fun b => cmp c b = .eq) =
      (a :: sorted).filter fun b => cmp c b = .eq := by
  induction sorted with
  | nil => rfl
  | cons b bs ih =>
    unfold insertFarthest
    split
    · next lt =>
      rw [List.filter_cons, ih]
      by_cases tie : cmp c a = .eq
      · have past : cmp c b ≠ .eq := by
          rw [Std.TransCmp.lt_of_eq_of_lt tie lt]
          decide
        simp [tie, past]
      · simp [List.filter_cons, tie]
    · rfl

/-- **Sorting is stable.** -/
theorem filter_sortFarthest (as : List Assignment) (c : Assignment) :
    ((cmp.sortFarthest as).filter fun b => cmp c b = .eq) =
      (as.filter fun b => cmp c b = .eq).reverse := by
  have main : ∀ as sorted : List Assignment,
      ((as.foldl (fun sorted a => cmp.insertFarthest a sorted) sorted).filter
        fun b => cmp c b = .eq) =
          (as.filter fun b => cmp c b = .eq).reverse ++ sorted.filter fun b => cmp c b = .eq := by
    intro as
    induction as with
    | nil => exact fun sorted => rfl
    | cons a as ih =>
      intro sorted
      rw [List.foldl_cons, ih, filter_insertFarthest]
      by_cases tie : cmp c a = .eq <;> simp [tie]
  rw [sortFarthest, main, List.filter_nil, List.append_nil]

/-! ## Grouping -/

/-- A class that is closer than everything else is the first level. -/
theorem Levels.cons (some : cls ≠ []) (tied : ∀ a ∈ cls, ∀ b ∈ cls, cmp a b = .eq)
    (closer : ∀ a ∈ cls, ∀ b ∈ as, cmp a b = .lt) (h : cmp.Levels as classes) :
    cmp.Levels (cls ++ as) (cls :: classes) where
  nonempty := List.forall_mem_cons.mpr ⟨some, h.nonempty⟩
  covers a ha := by
    rcases List.mem_append.mp ha with ha | ha
    · exact ⟨cls, List.mem_cons_self, ha⟩
    · obtain ⟨cls', hcls', ha'⟩ := h.covers a ha
      exact ⟨cls', List.mem_cons_of_mem cls hcls', ha'⟩
  eq_filter := by
    refine List.forall_mem_cons.mpr ⟨fun a ha => ?_, fun cls' hcls' a ha => ?_⟩
    · have own : (cls.filter fun b => cmp a b = .eq) = cls :=
        List.filter_eq_self.mpr fun b hb => decide_eq_true (tied a ha b hb)
      have others : (as.filter fun b => cmp a b = .eq) = [] :=
        List.filter_eq_nil_iff.mpr fun b hb => by simp [closer a ha b hb]
      rw [List.filter_append, own, others, List.append_nil]
    · have first : (cls.filter fun b => cmp a b = .eq) = [] :=
        List.filter_eq_nil_iff.mpr fun b hb => by
          have gt : cmp a b = .gt := Std.OrientedCmp.gt_of_lt (closer b hb a (h.mem hcls' ha))
          simp [gt]
      rw [List.filter_append, first, List.nil_append]
      exact h.eq_filter cls' hcls' a ha
  closer := by
    refine List.pairwise_cons.mpr ⟨fun far hfar a ha b hb => ?_, h.closer⟩
    exact closer a ha b (h.mem hfar hb)

/-- **Comparing with the first of a class is enough** where the list is sorted. -/
theorem levels_groupTies (tied : ∀ b ∈ head :: ties, cmp head b = .eq)
    (sorted : (head :: ties ++ as).Pairwise fun near far => (cmp near far).isLE = true) :
    cmp.Levels (head :: ties ++ as) (cmp.groupTies head ties as) := by
  have tied' {head : Assignment} {ties : List Assignment}
      (tied : ∀ b ∈ head :: ties, cmp head b = .eq) :
      ∀ a ∈ head :: ties, ∀ b ∈ head :: ties, cmp a b = .eq := fun a ha b hb =>
    Std.TransCmp.eq_trans (Std.OrientedCmp.eq_symm (tied a ha)) (tied b hb)
  induction as generalizing head ties with
  | nil => exact levels_nil.cons (List.cons_ne_nil head ties) (tied' tied) (by simp)
  | cons a as ih =>
    unfold groupTies
    split
    · next tie =>
      have same : head :: ties ++ a :: as = head :: (ties ++ [a]) ++ as := by simp
      rw [same] at sorted ⊢
      refine ih (fun b hb => ?_) sorted
      rw [← List.cons_append] at hb
      rcases List.mem_append.mp hb with hb | hb
      · exact tied b hb
      · rw [List.mem_singleton.mp hb, tie]
    · next differs =>
      obtain ⟨-, rest, across⟩ := List.pairwise_append.mp sorted
      have first : cmp head a = .lt :=
        (Ordering.isLE_iff_eq_lt_or_eq_eq.mp
          (across head List.mem_cons_self a List.mem_cons_self)).resolve_right differs
      have closer : ∀ b ∈ a :: as, cmp head b = .lt := by
        refine List.forall_mem_cons.mpr ⟨first, fun b hb => ?_⟩
        exact Std.TransCmp.lt_of_lt_of_isLE first ((List.pairwise_cons.mp rest).1 b hb)
      have alone : ∀ b ∈ [a], cmp a b = .eq :=
        List.forall_mem_singleton.mpr Std.ReflCmp.compare_self
      refine (ih alone rest).cons (List.cons_ne_nil head ties) (tied' tied) fun b hb c hc => ?_
      exact Std.TransCmp.lt_of_eq_of_lt (Std.OrientedCmp.eq_symm (tied b hb)) (closer c hc)

/-- **The classes cut from the sorted list are its levels.** -/
theorem levels_classes (as : List Assignment) : cmp.Levels as (cmp.classes as) := by
  have perm : (cmp.sortFarthest as).reverse.Perm as :=
    (List.reverse_perm _).trans (sortFarthest_perm as)
  have sorted : (cmp.sortFarthest as).reverse.Pairwise fun near far => (cmp near far).isLE = true :=
    List.pairwise_reverse.mpr (pairwise_sortFarthest as)
  have stable (c : Assignment) : ((cmp.sortFarthest as).reverse.filter fun b => cmp c b = .eq) =
      as.filter fun b => cmp c b = .eq := by
    rw [List.filter_reverse, filter_sortFarthest, List.reverse_reverse]
  refine Levels.congr ?_ perm stable
  unfold classes
  cases h : (cmp.sortFarthest as).reverse with
  | nil => exact levels_nil
  | cons a rest =>
    rw [h] at sorted
    exact levels_groupTies (List.forall_mem_singleton.mpr Std.ReflCmp.compare_self) sorted

end Comparison

namespace Buckets

variable {d : Assignment → Nat}

/-- Under each distance the assignments at that distance are filed, in order of arrival. -/
theorem getD_foldl_file (buckets : Buckets) (as : List Assignment) (n : Nat) :
    (as.foldl (fun buckets a => buckets.file (d a) a) buckets).getD n [] =
      buckets.getD n [] ++ as.filter fun a => d a = n := by
  induction as generalizing buckets with
  | nil => rw [List.foldl_nil, List.filter_nil, List.append_nil]
  | cons a as ih =>
    rw [List.foldl_cons, ih]
    unfold file
    by_cases h : d a = n
    · subst h
      rw [Std.ExtTreeMap.getD_insert_self, List.filter_cons_of_pos (by simp), List.append_assoc]
      rfl
    · rw [Std.ExtTreeMap.getD_insert, if_neg (by simpa using h),
        List.filter_cons_of_neg (by simpa using h)]

theorem mem_foldl_file (buckets : Buckets) (as : List Assignment) (n : Nat) :
    n ∈ as.foldl (fun buckets a => buckets.file (d a) a) buckets ↔
      n ∈ buckets ∨ ∃ a ∈ as, d a = n := by
  induction as generalizing buckets with
  | nil => simp
  | cons a as ih =>
    rw [List.foldl_cons, ih, file, Std.ExtTreeMap.mem_insert, Std.LawfulEqOrd.compare_eq_iff_eq]
    simp only [List.mem_cons, exists_eq_or_imp]
    rw [or_assoc, or_left_comm]

theorem mem_toList_foldl_file {as cls : List Assignment} {n : Nat} :
    (n, cls) ∈ (as.foldl (fun buckets a => buckets.file (d a) a) (∅ : Buckets)).toList ↔
      (∃ a ∈ as, d a = n) ∧ cls = as.filter fun a => d a = n := by
  have known := mem_foldl_file (d := d) ∅ as n
  have filed := getD_foldl_file (d := d) ∅ as n
  rw [or_iff_right Std.ExtTreeMap.not_mem_empty, Std.ExtTreeMap.mem_iff_isSome_getElem?,
    Option.isSome_iff_exists] at known
  rw [Std.ExtTreeMap.getD_empty, List.nil_append, Std.ExtTreeMap.getD_eq_getD_getElem?] at filed
  rw [Std.ExtTreeMap.mem_toList_iff_getElem?_eq_some, ← known]
  constructor
  · intro h
    rw [h] at filed
    exact ⟨⟨cls, h⟩, filed⟩
  · rintro ⟨⟨l, h⟩, rfl⟩
    rw [h] at filed
    rw [h, ← filed, Option.getD_some]

theorem mem_classes {as cls : List Assignment} :
    cls ∈ classes d as ↔ ∃ a ∈ as, cls = as.filter fun b => d b = d a := by
  unfold classes
  rw [List.mem_map]
  constructor
  · rintro ⟨⟨n, cls⟩, h, rfl⟩
    obtain ⟨⟨a, ha, rfl⟩, eq⟩ := mem_toList_foldl_file.mp h
    exact ⟨a, ha, eq⟩
  · rintro ⟨a, ha, rfl⟩
    exact ⟨(d a, _), mem_toList_foldl_file.mpr ⟨⟨a, ha, rfl⟩, rfl⟩, rfl⟩

/-- **The classes filed under distances are the levels** of the comparison by distance. -/
theorem levels_classes (d : Assignment → Nat) (as : List Assignment) :
    Comparison.Levels (fun a b => compare (d a) (d b)) as (classes d as) := by
  have own {a : Assignment} (ha : a ∈ as) : a ∈ as.filter fun b => d b = d a :=
    List.mem_filter.mpr ⟨ha, decide_eq_true rfl⟩
  refine ⟨?_, fun a ha => ⟨_, mem_classes.mpr ⟨a, ha, rfl⟩, own ha⟩, ?_, ?_⟩
  · rintro cls hcls rfl
    obtain ⟨a, ha, empty⟩ := mem_classes.mp hcls
    exact List.not_mem_nil (empty ▸ own ha)
  · intro cls hcls a ha
    obtain ⟨b, -, rfl⟩ := mem_classes.mp hcls
    have same : d a = d b := of_decide_eq_true (List.mem_filter.mp ha).2
    refine List.filter_congr fun c _ => decide_eq_decide.mpr ?_
    rw [Nat.compare_eq_eq, same, eq_comm]
  · have at_distance {entry : Nat × List Assignment} {a : Assignment}
        (h : entry ∈ (as.foldl (fun buckets a => buckets.file (d a) a) (∅ : Buckets)).toList)
        (ha : a ∈ entry.2) : d a = entry.1 := by
      rw [(mem_toList_foldl_file.mp h).2] at ha
      exact of_decide_eq_true (List.mem_filter.mp ha).2
    refine List.pairwise_map.mpr (Std.ExtTreeMap.ordered_keys_toList.imp_of_mem ?_)
    intro near far hnear hfar lt a ha b hb
    rw [at_distance hnear ha, at_distance hfar hb]
    exact lt

end Buckets

namespace Comparator

/-- **A comparator splits assignments into its levels**, by distance or in any other way, as long as
it compares by a total preorder. It may have been asked before, since what it remembers then is true
(`judges_comparison`, `gives_compare`), and the signals may do anything. The classes hold just the
given assignments, and none is empty. Two assignments of one class tie, those of an earlier class
are closer than those of a later one, and each class is in the order of the list. -/
theorem classes_partition (c : Comparator) (faithful : c.Faithful)
    (preorder : Std.TransCmp c.comparison) (as : List Assignment) (s : Signal) :
    let classes := ((c.classes as).run s).1
    classes.flatten.Perm as ∧
      (∀ cls ∈ classes, cls ≠ []) ∧
      (∀ cls ∈ classes, ∀ a ∈ cls, ∀ b ∈ cls, c.comparison a b = .eq) ∧
      (classes.Pairwise fun near far => ∀ a ∈ near, ∀ b ∈ far, c.comparison a b = .lt) ∧
      ∀ cls ∈ classes, cls.Sublist as := by
  have answered : ((c.classes as).run s).1 = c.comparison.classes as :=
    (gives_classes ⟨faithful, rfl⟩ as).run_eq s
  have levels : c.comparison.Levels as (c.comparison.classes as) := Comparison.levels_classes as
  rw [answered]
  exact ⟨Comparison.classes_perm as, levels.nonempty, fun _ hcls _ ha _ hb => levels.tied hcls ha hb,
    levels.closer, fun _ hcls => levels.sublist hcls⟩

/-- Four assignments, split by the number of variables that are true. -/
theorem classes_partition_fewestTrue :
    (Preference.fewestTrue.comparator ∅).Faithful ∧
    Std.TransCmp (Preference.fewestTrue.comparator ∅).comparison ∧
    let as := Assignment.onVocabulary {"p", "q"}
    let classes := (((Preference.fewestTrue.comparator ∅).classes as).run {}).1
    classes.map List.length = [1, 2, 1] ∧ classes.flatten.Perm as ∧
      (classes.Pairwise fun near far => ∀ a ∈ near, ∀ b ∈ far,
        (Preference.fewestTrue.comparator ∅).comparison a b = .lt) ∧
      ∀ cls ∈ classes, cls.Sublist as := by
  have faithful : (Preference.fewestTrue.comparator ∅).Faithful := trivial
  have preorder : Std.TransCmp (Preference.fewestTrue.comparator ∅).comparison :=
    inferInstanceAs (Std.TransCmp (compareOn fun a : Assignment =>
      (a.toList.filter Prod.snd).length))
  obtain ⟨perm, -, -, closer, stable⟩ := classes_partition _ faithful preorder
    (Assignment.onVocabulary {"p", "q"}) {}
  exact ⟨faithful, preorder, by decide +kernel, perm, closer, stable⟩

end Comparator

end BeliefRevision
