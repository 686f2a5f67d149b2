import BeliefRevision.Formula.Basic

/-!
# The order of formulas

Formulas are ordered by their outermost symbol: variables first, then the two constants, then the
connectives in the order `not`, `and`, `or`, `then`, `iff`, `xor`, `nand`. Variables are told
apart by name and compound formulas by their operands from left to right, where a list comes
before its extensions.

Results: two formulas compare as equal exactly when they are equal (`eq_of_order_eq`,
`order_self`), exchanging them swaps the outcome (`order_swap`), and the order is transitive
(`order_trans`). So formulas can be members of ordered sets, and equality of formulas is decidable.
-/

namespace BeliefRevision

theorem Junction.rank_injective {i j : Junction} (h : i.rank = j.rank) : i = j := by
  cases i <;> cases j <;> first | rfl | simp [Junction.rank] at h

theorem Binary.rank_injective {a b : Binary} (h : a.rank = b.rank) : a = b := by
  cases a <;> cases b <;> first | rfl | simp [Binary.rank] at h

theorem Junction.rank_mem (j : Junction) : 1 ≤ j.rank ∧ j.rank ≤ 2 := by
  cases j <;> decide

theorem Binary.rank_mem (b : Binary) : 3 ≤ b.rank ∧ b.rank ≤ 6 := by
  cases b <;> decide

namespace Formula

/-- The place of the outermost symbol. -/
def rank : Formula → Nat
  | var _ => 0
  | top => 1
  | bot => 2
  | not _ => 3
  | join j _ => 3 + j.rank
  | binary b _ _ => 3 + b.rank

mutual

/-- Compares by the outermost symbol first, then by name or by the operands from left to right. -/
def order : Formula → Formula → Ordering
  | var v, var w => compare v w
  | not p, not q => order p q
  | join i ps, join j qs => (compare i.rank j.rank).then (orderAll ps qs)
  | binary a p₁ p₂, binary b q₁ q₂ =>
    (compare a.rank b.rank).then ((order p₁ q₁).then (order p₂ q₂))
  | p, q => compare p.rank q.rank

/-- Compares lists of formulas entry by entry, a list before its extensions. -/
def orderAll : List Formula → List Formula → Ordering
  | [], [] => .eq
  | [], _ :: _ => .lt
  | _ :: _, [] => .gt
  | p :: ps, q :: qs => (order p q).then (orderAll ps qs)

end

instance : Ord Formula := ⟨order⟩

/-! ## Ranks -/

theorem rank_eq_of_order_eq {p q : Formula} (h : order p q = .eq) : rank p = rank q := by
  cases p <;> cases q <;>
    simp only [order, Ordering.then_eq_eq, Nat.compare_eq_eq] at h <;> simp_all [rank]

theorem rank_le_of_order_lt {p q : Formula} (h : order p q = .lt) : rank p ≤ rank q := by
  cases p <;> cases q <;>
    simp only [order, Ordering.then_eq_lt, Nat.compare_eq_eq, Nat.compare_eq_lt] at h <;>
    simp only [rank] at h ⊢ <;> omega

theorem order_eq_lt_of_rank_lt {p q : Formula} (h : rank p < rank q) : order p q = .lt := by
  cases p <;> cases q <;>
    simp only [order, Ordering.then_eq_lt, Nat.compare_eq_eq, Nat.compare_eq_lt] <;>
    simp only [rank] at h ⊢ <;> omega

theorem eq_var_of_rank_eq {v : Variable} {q : Formula} (h : rank q = rank (var v)) :
    ∃ w, q = var w := by
  cases q <;> simp only [rank] at h <;> first | exact ⟨_, rfl⟩ | omega

theorem eq_not_of_rank_eq {p q : Formula} (h : rank q = rank (not p)) : ∃ r, q = not r := by
  cases q with
  | not r => exact ⟨r, rfl⟩
  | join j _ => have := j.rank_mem; simp only [rank] at h; omega
  | binary b _ _ => have := b.rank_mem; simp only [rank] at h; omega
  | _ => simp [rank] at h

theorem eq_join_of_rank_eq {i : Junction} {ps : List Formula} {q : Formula}
    (h : rank q = rank (join i ps)) : ∃ qs, q = join i qs := by
  have := i.rank_mem
  cases q with
  | join j qs =>
    simp only [rank] at h
    exact ⟨qs, by rw [Junction.rank_injective (show i.rank = j.rank by omega)]⟩
  | binary b _ _ => have := b.rank_mem; simp only [rank] at h; omega
  | _ => simp only [rank] at h; omega

theorem eq_binary_of_rank_eq {a : Binary} {p₁ p₂ q : Formula}
    (h : rank q = rank (binary a p₁ p₂)) : ∃ q₁ q₂, q = binary a q₁ q₂ := by
  have := a.rank_mem
  cases q with
  | join j _ => have := j.rank_mem; simp only [rank] at h; omega
  | binary b q₁ q₂ =>
    simp only [rank] at h
    exact ⟨q₁, q₂, by rw [Binary.rank_injective (show a.rank = b.rank by omega)]⟩
  | _ => simp only [rank] at h; omega

/-! ## Laws of the order -/

mutual

theorem order_swap : ∀ p q : Formula, order q p = (order p q).swap
  | var v, q => by cases q <;> simp only [order, rank, ← Std.OrientedOrd.eq_swap]
  | top, q => by cases q <;> simp only [order, rank, ← Std.OrientedOrd.eq_swap]
  | bot, q => by cases q <;> simp only [order, rank, ← Std.OrientedOrd.eq_swap]
  | not p, q => by
    cases q <;> simp only [order, rank, ← Std.OrientedOrd.eq_swap]
    exact order_swap p _
  | join i ps, q => by
    cases q <;>
      simp only [order, rank, ← Std.OrientedOrd.eq_swap, Ordering.swap_then, orderAll_swap ps]
  | binary a p₁ p₂, q => by
    cases q <;>
      simp only [order, rank, ← Std.OrientedOrd.eq_swap, Ordering.swap_then, order_swap p₁,
        order_swap p₂]

theorem orderAll_swap : ∀ ps qs : List Formula, orderAll qs ps = (orderAll ps qs).swap
  | [], qs => by cases qs <;> rfl
  | p :: ps, qs => by
    cases qs with
    | nil => rfl
    | cons q qs => simp only [orderAll, Ordering.swap_then, order_swap p q, orderAll_swap ps qs]

end

mutual

theorem order_self : ∀ p : Formula, order p p = .eq
  | var _ => Std.ReflOrd.compare_self
  | top | bot => rfl
  | not p => order_self p
  | join j ps => by simp [order, orderAll_self ps]
  | binary b p q => by simp [order, order_self p, order_self q]

theorem orderAll_self : ∀ ps : List Formula, orderAll ps ps = .eq
  | [] => rfl
  | p :: ps => by simp [orderAll, order_self p, orderAll_self ps]

end

mutual

theorem eq_of_order_eq : ∀ {p q : Formula}, order p q = .eq → p = q
  | p, q, h => by
    have hr := (rank_eq_of_order_eq h).symm
    match p with
    | var v =>
      obtain ⟨w, rfl⟩ := eq_var_of_rank_eq hr
      rw [Std.LawfulEqOrd.eq_of_compare h]
    | top =>
      cases q <;> simp only [rank] at hr <;> first | rfl | omega
    | bot =>
      cases q <;> simp only [rank] at hr <;> first | rfl | omega
    | not p =>
      obtain ⟨q, rfl⟩ := eq_not_of_rank_eq hr
      rw [eq_of_order_eq (show order p q = .eq from h)]
    | join i ps =>
      obtain ⟨qs, rfl⟩ := eq_join_of_rank_eq hr
      rw [order, Ordering.then_eq_eq] at h
      rw [eq_of_orderAll_eq h.2]
    | binary a p₁ p₂ =>
      obtain ⟨q₁, q₂, rfl⟩ := eq_binary_of_rank_eq hr
      rw [order, Ordering.then_eq_eq, Ordering.then_eq_eq] at h
      rw [eq_of_order_eq h.2.1, eq_of_order_eq h.2.2]

theorem eq_of_orderAll_eq : ∀ {ps qs : List Formula}, orderAll ps qs = .eq → ps = qs
  | [], qs, h => by cases qs <;> simp [orderAll] at h; rfl
  | p :: ps, qs, h => by
    cases qs with
    | nil => simp [orderAll] at h
    | cons q qs =>
      rw [orderAll, Ordering.then_eq_eq] at h
      rw [eq_of_order_eq h.1, eq_of_orderAll_eq h.2]

end

/-- Comparing by a first key and then by a second is transitive if both keys are and ties of the
first key carry over. -/
theorem then_lt_trans {o₁ o₂ o₃ r₁ r₂ r₃ : Ordering} (first : o₁ = .lt → o₂ = .lt → o₃ = .lt)
    (left : o₁ = .eq → o₃ = o₂) (right : o₂ = .eq → o₃ = o₁)
    (second : r₁ = .lt → r₂ = .lt → r₃ = .lt) (h₁ : o₁.then r₁ = .lt) (h₂ : o₂.then r₂ = .lt) :
    o₃.then r₃ = .lt := by
  cases o₁ <;> cases o₂ <;> simp_all

mutual

theorem order_trans : ∀ {p q r : Formula}, order p q = .lt → order q r = .lt → order p r = .lt
  | p, q, r, h₁, h₂ => by
    by_cases hpr : rank p < rank r
    · exact order_eq_lt_of_rank_lt hpr
    -- The ranks can only rise, so here all three are equal and the operands decide.
    have hpq := rank_le_of_order_lt h₁
    have hqr := rank_le_of_order_lt h₂
    have hq : rank q = rank p := by omega
    have hr : rank r = rank p := by omega
    match p with
    | var u =>
      obtain ⟨v, rfl⟩ := eq_var_of_rank_eq hq
      obtain ⟨w, rfl⟩ := eq_var_of_rank_eq hr
      exact @Std.TransCmp.lt_trans String compare _ _ _ _ h₁ h₂
    | top =>
      have : order top q = compare (rank top) (rank q) := by cases q <;> rfl
      simp [this, hq] at h₁
    | bot =>
      have : order bot q = compare (rank bot) (rank q) := by cases q <;> rfl
      simp [this, hq] at h₁
    | not p =>
      obtain ⟨q, rfl⟩ := eq_not_of_rank_eq hq
      obtain ⟨r, rfl⟩ := eq_not_of_rank_eq hr
      exact @order_trans p q r h₁ h₂
    | join i ps =>
      obtain ⟨qs, rfl⟩ := eq_join_of_rank_eq hq
      obtain ⟨rs, rfl⟩ := eq_join_of_rank_eq hr
      simp only [order, Std.ReflOrd.compare_self, Ordering.eq_then] at h₁ h₂ ⊢
      exact orderAll_trans h₁ h₂
    | binary a p₁ p₂ =>
      obtain ⟨q₁, q₂, rfl⟩ := eq_binary_of_rank_eq hq
      obtain ⟨r₁, r₂, rfl⟩ := eq_binary_of_rank_eq hr
      simp only [order, Std.ReflOrd.compare_self, Ordering.eq_then] at h₁ h₂ ⊢
      exact then_lt_trans order_trans (fun h => by rw [eq_of_order_eq h])
        (fun h => by rw [eq_of_order_eq h]) order_trans h₁ h₂

theorem orderAll_trans : ∀ {ps qs rs : List Formula},
    orderAll ps qs = .lt → orderAll qs rs = .lt → orderAll ps rs = .lt
  | ps, qs, rs, h₁, h₂ => by
    match ps, qs, rs with
    | [], _, _ :: _ => rfl
    | p :: ps, q :: qs, r :: rs =>
      exact then_lt_trans order_trans (fun h => by rw [eq_of_order_eq h])
        (fun h => by rw [eq_of_order_eq h]) orderAll_trans h₁ h₂
    | _, [], [] => simp [orderAll] at h₂
    | [], _ :: _, [] => simp [orderAll] at h₂
    | _ :: _, [], _ => simp [orderAll] at h₁
    | _, _ :: _, [] => simp [orderAll] at h₂

end

instance : Std.OrientedOrd Formula where
  eq_swap {p q} := order_swap q p

instance : Std.TransOrd Formula where
  isLE_trans {p q r} h₁ h₂ := by
    rcases Ordering.isLE_iff_eq_lt_or_eq_eq.mp h₁ with h₁ | h₁
    · rcases Ordering.isLE_iff_eq_lt_or_eq_eq.mp h₂ with h₂ | h₂
      · rw [show compare p r = .lt from order_trans h₁ h₂]; rfl
      · rw [← eq_of_order_eq h₂, h₁]; rfl
    · rw [eq_of_order_eq h₁]; exact h₂

instance : Std.LawfulEqOrd Formula where
  compare_self {p} := order_self p
  eq_of_compare := eq_of_order_eq

instance : DecidableEq Formula := fun p q =>
  decidable_of_iff (order p q = .eq) ⟨eq_of_order_eq, fun h => h ▸ order_self p⟩

end Formula

end BeliefRevision
